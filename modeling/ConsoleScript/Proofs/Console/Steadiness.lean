import ConsoleScript.Proofs.Console.Effects
import ConsoleScript.Proofs.Console.Process
import ConsoleScript.Proofs.Console.Registration

/-!
# What no run changes

Scripts declare functions and make objects, and so they make namespaces, link them and fill them. They
register no classes, and a namespace that is there keeps its name and its package. So whatever a name
stands for among the namespaces, it stands for the same one ever after.
-/

namespace ConsoleScript

namespace Namespaces

variable {s s' s'' : Namespaces} {name package : Option Name} {id parent : SpaceId}

theorem find?_eq_some_first : s.find? name package = some id ↔ id < s.spaces.size ∧
    (s.space id).name = name ∧ (s.space id).package = package ∧
      ∀ j < id, ¬ ((s.space j).name = name ∧ (s.space j).package = package) := by
  rw [find?, Array.findIdx?_eq_some_iff_getElem]
  constructor
  · rintro ⟨hid, hkey, hbefore⟩
    rw [Bool.and_eq_true, beq_iff_eq, beq_iff_eq] at hkey
    refine ⟨hid, ?_, ?_, fun j hj => ?_⟩
    · rw [space_eq_getElem hid, hkey.1]
    · rw [space_eq_getElem hid, hkey.2]
    · rw [space_eq_getElem (Nat.lt_trans hj hid)]
      simpa using hbefore j hj
  · rintro ⟨hid, hname, hpackage, hbefore⟩
    rw [space_eq_getElem hid] at hname hpackage
    refine ⟨hid, by simp [hname, hpackage], fun j hj => ?_⟩
    have := hbefore j hj
    rw [space_eq_getElem (Nat.lt_trans hj hid)] at this
    simpa using this

/-- Namespaces keep their names and packages; more of them may have been added. -/
structure KeepsKeys (s s' : Namespaces) : Prop where
  size : s.spaces.size ≤ s'.spaces.size
  name : ∀ i < s.spaces.size, (s'.space i).name = (s.space i).name
  package : ∀ i < s.spaces.size, (s'.space i).package = (s.space i).package

namespace KeepsKeys

theorem refl (s : Namespaces) : KeepsKeys s s := ⟨Nat.le_refl _, fun _ _ => rfl, fun _ _ => rfl⟩

theorem trans (h : KeepsKeys s s') (h' : KeepsKeys s' s'') : KeepsKeys s s'' where
  size := Nat.le_trans h.size h'.size
  name i hi := (h'.name i (Nat.lt_of_lt_of_le hi h.size)).trans (h.name i hi)
  package i hi := (h'.package i (Nat.lt_of_lt_of_le hi h.size)).trans (h.package i hi)

theorem of_grows (h : Grows s s') : KeepsKeys s s' where
  size := h.size
  name i hi := core_name (h.old i hi)
  package i hi := core_package (h.old i hi)

theorem of_place (hsize : s'.spaces.size = s.spaces.size)
    (hplace : ∀ i, (s'.space i).place = (s.space i).place) : KeepsKeys s s' where
  size := Nat.le_of_eq hsize.symm
  name i _ := congrArg Prod.fst (hplace i)
  package i _ := congrArg (fun p => p.2.1) (hplace i)

theorem link (s : Namespaces) (id parent : SpaceId) : KeepsKeys s (s.link id parent).2 :=
  of_place size_link place_link

theorem unlinkAll (links : List (SpaceId × SpaceId)) (s : Namespaces) : KeepsKeys s (s.unlinkAll links) := by
  induction links generalizing s with
  | nil => exact refl s
  | cons link links ih => exact trans (of_place size_unlink place_unlink) (ih _)

theorem lookup {e : Option EntryId} (h : s.lookup id name = .ok (e, s')) : KeepsKeys s s' :=
  of_place (size_lookup h) (place_lookup h)

theorem lookupBelow {origin : Option SpaceId} {e : Option EntryId}
    (h : s.lookupBelow origin name = .ok (e, s')) : KeepsKeys s s' := by
  obtain rfl | ⟨-, p, -, hp⟩ := lookupBelow_eq_ok h
  · exact refl s'
  · exact lookup hp

/-- A name that stands for a namespace stands for it ever after. -/
theorem find? (h : KeepsKeys s s') (hfind : s.find? name package = some id) :
    s'.find? name package = some id := by
  rw [find?_eq_some_first] at hfind ⊢
  obtain ⟨hid, hname, hpackage, hbefore⟩ := hfind
  refine ⟨Nat.lt_of_lt_of_le hid h.size, (h.name id hid).trans hname,
    (h.package id hid).trans hpackage, fun j hj => ?_⟩
  rw [h.name j (Nat.lt_trans hj hid), h.package j (Nat.lt_trans hj hid)]
  exact hbefore j hj

end KeepsKeys

theorem find?_obtain_none (s : Namespaces) (name : Option Name) :
    (s.obtain name none).2.find? name none = some (s.obtain name none).1 := by
  rw [obtain]
  split
  · assumption
  · rename_i hnone
    have hnew : (s.push name none).2.space s.spaces.size = { name := name, package := none } :=
      space_push_self
    refine find?_eq_some_first.mpr ⟨by simp [push], ?_, ?_, fun j hj => ?_⟩
    · exact congrArg Namespace.name hnew
    · exact congrArg Namespace.package hnew
    · rw [space_push_ne (Nat.ne_of_lt hj)]
      exact find?_eq_none_iff.mp hnone j hj

end Namespaces

/-! ## Consoles -/

namespace Console

variable {c c' c'' : Console}

/-- Classes are as they were, and names stand for the namespaces they stood for. -/
structure Steady (c c' : Console) : Prop where
  classes : c'.classes = c.classes
  spaces : c.spaces.KeepsKeys c'.spaces

namespace Steady

theorem refl (c : Console) : Steady c c := ⟨rfl, .refl _⟩

theorem trans (h : Steady c c') (h' : Steady c' c'') : Steady c c'' :=
  ⟨h'.classes.trans h.classes, h.spaces.trans h'.spaces⟩

theorem elsewhere (hclasses : c'.classes = c.classes) (hspaces : c'.spaces = c.spaces) : Steady c c' :=
  ⟨hclasses, hspaces ▸ .refl _⟩

theorem past (h : Steady c' c'') (hclasses : c'.classes = c.classes) (hspaces : c'.spaces = c.spaces) :
    Steady c c'' := trans (elsewhere hclasses hspaces) h

theorem obtain (c : Console) (name package : Option Name) : Steady c (c.obtain name package).2 :=
  ⟨rfl, .of_grows Namespaces.grows_obtain⟩

theorem printLines (lines : List Text) (c : Console) : Steady c (lines.foldl printLine c) := by
  induction lines generalizing c with
  | nil => exact refl c
  | cons line lines ih => exact past (ih (c.printLine line)) rfl rfl

theorem assign (c : Console) (r : VarRef) (v : Value) : Steady c (c.assign r v).2 := by
  rw [Console.assign]
  split
  · exact refl c
  · exact past (printLines _ { c with scopes := _ }) rfl rfl

theorem globalVariable (c : Console) (name : Text) : Steady c (c.globalVariable name).2 := by
  rw [Console.globalVariable]
  have hintern : Steady c (c.intern name).2 := elsewhere rfl rfl
  split
  · rename_i h
    rwa [h] at hintern
  · rename_i h
    rw [h] at hintern
    exact hintern.trans (elsewhere rfl rfl)

theorem loadRow (c : Console) (p : Preference) : Steady c (c.loadRow p).2 := by
  have hvariable := globalVariable c p.name
  rw [Console.loadRow]
  split
  · rename_i c₁ h
    rwa [h] at hvariable
  · rename_i r c₁ h
    rw [h] at hvariable
    exact hvariable.trans (assign c₁ r p.value)

theorem loadRows (c : Console) (rows : List Preference) : Steady c (c.loadRows rows).2 := by
  induction rows generalizing c with
  | nil => exact refl c
  | cons p rows ih => exact (loadRow c p).trans (ih (c.loadRow p).2)

theorem loadPrefs (c : Console) (pattern : Text) : Steady c (c.loadPrefs pattern).2 := by
  rw [Console.loadPrefs, Console.loadGlobals]
  split
  · exact refl c
  · exact loadRows c _

theorem define (c : Console) (space : SpaceId) (name : Option Name) (body : EntryBody) (usage : Text)
    (minArgs maxArgs : Int) : Steady c (c.define space name body usage minArgs maxArgs).2 :=
  ⟨rfl, .of_place Namespaces.size_define Namespaces.place_define⟩

theorem registerAll (c : Console) (space : SpaceId) (rs : List Registration) :
    Steady c (c.registerAll space rs) := by
  rw [Console.registerAll]
  induction rs generalizing c with
  | nil => exact refl c
  | cons r rs ih =>
    refine trans ?_ (ih _)
    cases r <;> exact past (define _ _ _ _ _ _ _) rfl rfl

theorem instantiate (c : Console) (cls name source : Text) (datablock : Bool) (args : List Text) :
    Steady c (c.instantiate cls name source datablock args).2 := by
  obtain ⟨e, he⟩ | ⟨k, r, -, he⟩ | he | ⟨k, fields, he⟩ :=
    c.instantiate_cases cls name source datablock args
  · rw [he]
    exact refl c
  · rw [he]
    exact refl c
  · rw [he]
    exact elsewhere rfl rfl
  · rw [he]
    exact elsewhere rfl rfl

theorem compile (c : Console) (source filename : Text) : Steady c (c.compile source filename).2 := by
  rw [Console.compile]
  split
  · exact refl c
  · exact trans (printLines _ c) (elsewhere rfl rfl)

theorem links {links : List (SpaceId × SpaceId)} (h : Links c links c') : Steady c c' := by
  induction h with
  | done c => exact refl c
  | intern t _ ih => exact past ih rfl rfl
  | obtain name _ ih => exact trans (obtain _ name none) ih
  | @link c c' links id parent s child ancestor h _ ih =>
    have hkeys := Namespaces.KeepsKeys.link c.spaces id parent
    rw [h] at hkeys
    have hlink : Steady c { c with spaces := s } := ⟨rfl, hkeys⟩
    exact hlink.trans ih

theorem publish (c : Console) (r : ObjectRef) : Steady c (c.publish r) := by
  obtain ⟨space, new, c₁, hlinks, he⟩ := c.publish_eq r
  have hsteady : Steady c c₁ := past (links hlinks) rfl rfl
  rw [he]
  exact hsteady.trans (elsewhere rfl rfl)

theorem withdraw (c : Console) (r : ObjectRef) : Steady c (c.withdraw r) := by
  obtain ⟨o, -, he⟩ := c.withdraw_eq r
  rw [he]
  exact ⟨rfl, .unlinkAll _ _⟩

end Steady

end Console

/-! ## Computations -/

namespace Run

open Console

variable {α β : Type} {c : Console} {act : Run α} {f : α → Run β}

/-- The computation leaves classes and the names of namespaces alone. -/
def Steady (c : Console) (act : Run α) : Prop :=
  match act c with
  | .ok _ c' => c.Steady c'
  | .error _ c' => c.Steady c'

namespace Steady

theorem pure (a : α) : Steady c (pure a) := Console.Steady.refl c

theorem throw (f : Fault) : Steady c (throw f : Run α) := Console.Steady.refl c

theorem bind (h : Steady c act) (hf : ∀ a c', Steady c' (f a)) : Steady c (act >>= f) := by
  rw [Steady] at h ⊢
  rw [bind_apply]
  cases hact : act c with
  | ok a c' =>
    rw [hact] at h
    have hnext := hf a c'
    rw [Steady] at hnext
    dsimp only
    cases hgoal : f a c' with
    | ok b c'' =>
      rw [hgoal] at hnext
      exact h.trans hnext
    | error e c'' =>
      rw [hgoal] at hnext
      exact h.trans hnext
  | error e c' =>
    rw [hact] at h
    exact h

theorem get {f : Console → Run β} (h : Steady c (f c)) : Steady c (get >>= f) := h

theorem ofExcept (x : Except Fault α) : Steady c (Run.ofExcept x) := by
  cases x with
  | ok a => exact pure a
  | error e => exact throw e

theorem change {g : Console → α × Console} (h : c.Steady (g c).2) : Steady c (Run.change g) := h

theorem modify {g : Console → Console} (h : c.Steady (g c)) : Steady c (modify g) := h

theorem printLine (t : Text) : Steady c (Run.printLine t) := modify (.elsewhere rfl rfl)

theorem lookup (space : SpaceId) (name : Option Name) : Steady c (lookup space name) := by
  refine get ?_
  cases hlookup : c.spaces.lookup space name with
  | error e => exact throw e
  | ok p => exact ⟨rfl, .lookup hlookup⟩

theorem lookupText (space : SpaceId) (name : Text) : Steady c (lookupText space name) :=
  get (lookup space _)

theorem lookupBelow (origin : Option SpaceId) (name : Option Name) :
    Steady c (lookupBelow origin name) := by
  refine get ?_
  cases hlookup : c.spaces.lookupBelow origin name with
  | error e => exact throw e
  | ok p => exact ⟨rfl, .lookupBelow hlookup⟩

theorem ident (u : CodeUnit) (operand : UInt32) : Steady c (u.ident operand) := by
  rw [CodeUnit.ident]
  split
  · exact pure _
  · exact (ofExcept _).bind fun _ _ => change (.elsewhere rfl rfl)

theorem attempt {u : CodeUnit} {ip : UInt32} (h : Steady c act) : Steady c (attempt u ip act) := by
  rw [Steady] at h ⊢
  rw [Run.attempt]
  cases hact : act c with
  | ok a c' =>
    rw [hact] at h
    exact h
  | error f c' =>
    rw [hact] at h
    cases f with
    | exhausted => exact h
    | outOfRange index length => exact h.trans (.elsewhere rfl rfl)
    | absent => exact h.trans (.elsewhere rfl rfl)

theorem bindParams (u : CodeUnit) (scope : ScopeId) (count : Nat) (ip : UInt32) (argv : List Text) :
    Steady c (bindParams u scope count ip argv) := by
  induction count generalizing c ip argv with
  | zero => exact pure ()
  | succ count ih =>
    rw [Run.bindParams]
    refine (ofExcept _).bind fun w _ => (ident u w).bind fun n c₁ => ?_
    cases n with
    | none =>
      cases argv with
      | nil => exact ih _ _
      | cons t argv => exact throw .absent
    | some n =>
      have hadd {c : Console} : Steady c (Run.change (·.addVariable scope n)) := change (.elsewhere rfl rfl)
      cases argv with
      | nil => exact hadd.bind fun _ _ => ih _ _
      | cons t argv =>
        exact hadd.bind fun r _ => (modify (.assign _ r (.text t))).bind fun _ _ => ih _ _

end Steady

end Run

open Run

/-! ## Instructions -/

namespace Machine

variable {u : CodeUnit} {b : BlockId} {ip : UInt32} {m : Machine} {c : Console}

theorem steady_createVar (n : Option Name) : Steady c (m.createVar n) := by
  cases n with
  | none => exact .pure _
  | some n => exact .bind (.change (.elsewhere rfl rfl)) fun _ _ => .pure _

theorem steady_saveVar (v : Value) : Steady c (m.saveVar v) := by
  rw [saveVar]
  split
  · exact .modify (.assign _ _ _)
  · exact .pure _

theorem steady_saveField (v : Text) : Steady c (m.saveField v) := by
  rw [saveField]
  split
  · exact .modify (.elsewhere rfl rfl)
  · exact .pure _

theorem steady_branch (taken : Bool) : Steady c (branch u m taken) := by
  rw [branch]
  split
  · exact .bind (.ofExcept _) fun _ _ => .pure _
  · exact .pure _

theorem steady_declare : Steady c (declare u b ip) := by
  rw [declare]
  refine .bind (.ofExcept _) fun _ _ => .bind (.ident u _) fun name _ => ?_
  refine .bind (.ofExcept _) fun _ _ => .bind (.ident u _) fun ns _ => ?_
  refine .bind (.ofExcept _) fun _ _ => .bind (.ident u _) fun package _ => ?_
  refine .bind (.change (.obtain _ ns package)) fun space _ => .bind (.ofExcept _) fun line _ => ?_
  exact .bind (.change (.define _ _ _ _ _ _ _)) fun _ _ => .ofExcept _

theorem steady_declareObject : Steady c (declareObject u m ip) := by
  rw [declareObject]
  refine .bind (.ofExcept _) fun source _ => .bind (.ofExcept _) fun datablock _ => ?_
  refine .bind (.ofExcept _) fun fail _ => ?_
  generalize (m.skip 3).popArgs = p
  obtain ⟨argv, m⟩ := p
  refine .bind (.change (.instantiate _ _ _ _ _ _)) fun made _ => ?_
  cases made with
  | ok r => exact .pure _
  | error e => exact .bind (.printLine _) fun _ _ => .pure _

theorem steady_placeObject (r : ObjectRef) (root : Bool) : Steady c (m.placeObject r root) := by
  obtain ⟨m', -, he | ⟨group, -, he⟩⟩ := m.placeObject_eq r root c
  · rw [Steady, he]
    exact .refl c
  · rw [Steady, he]
    exact .elsewhere rfl rfl

theorem steady_unknown (text : Console → Text) : Steady c (do
    let c ← get
    Run.printLine (text c)
    return none : Run (Option Call)) :=
  .get (.bind (.printLine _) fun _ _ => .pure _)

theorem steady_dispatch (name ns : Option Name) (kind : UInt32) (argv : List Text) :
    Steady c (dispatch u m ip name ns kind argv) := by
  unfold dispatch
  dsimp only
  split
  · split
    · exact .pure _
    · refine .get ?_
      split
      · exact .bind (.printLine _) fun _ _ => .pure _
      · split
        · exact .throw .absent
        · refine .bind (.lookup _ name) fun e _ => ?_
          cases e with
          | some e => exact .pure _
          | none => exact steady_unknown _
  · refine .get (.bind (.lookupBelow _ name) fun e _ => ?_)
    cases e with
    | some e => exact .pure _
    | none => exact steady_unknown _
  · cases ns with
    | none =>
      refine .bind (.pure _) fun space _ => .bind (.lookup space name) fun e _ => ?_
      cases e with
      | some e => exact .pure _
      | none => exact steady_unknown _
    | some ns =>
      refine .bind (.change (.obtain _ (some ns) none)) fun space _ => ?_
      refine .bind (.lookup space name) fun e _ => ?_
      cases e with
      | some e => exact .pure _
      | none => exact steady_unknown _

theorem steady_execute (op : Opcode) : Steady c (execute u b op ip m) := by
  cases op with
  | funcDecl => exact .bind steady_declare fun _ _ => .pure _
  | createObject => exact .bind steady_declareObject fun _ _ => .pure _
  | addObject =>
    refine .bind (.ofExcept _) fun w _ => ?_
    dsimp only
    split
    · exact .pure _
    · refine .get ?_
      split
      · exact .bind (steady_placeObject _ _) fun _ _ => .pure _
      · exact .pure _
  | jumpUnlessFloat | jumpIfFloat | jumpUnless | jumpIf | jump =>
    exact .bind (steady_branch _) fun _ _ => .pure _
  | jumpUnlessKeep | jumpIfKeep =>
    rw [execute]
    split
    · exact .bind (steady_branch _) fun _ _ => .pure _
    · exact .bind (steady_branch _) fun _ _ => .pure _
  | setVar => exact .bind (.ofExcept _) fun _ _ => .bind (.ident u _) fun _ _ => .get (.pure _)
  | setVarCreate =>
    exact .bind (.ofExcept _) fun _ _ => .bind (.ident u _) fun _ _ =>
      .bind (steady_createVar _) fun _ _ => .pure _
  | setVarArrayCreate =>
    exact .bind (.change (.elsewhere rfl rfl)) fun _ _ => .bind (steady_createVar _) fun _ _ => .pure _
  | saveVarInt | saveVarFloat | saveVarText => exact .bind (steady_saveVar _) fun _ _ => .pure _
  | saveFieldInt | saveFieldFloat | saveFieldText => exact .bind (steady_saveField _) fun _ _ => .pure _
  | endObject | loadInt | advanceChar => exact .bind (.ofExcept _) fun _ _ => .pure _
  | setField | loadFloat | loadText | loadIdent =>
    exact .bind (.ofExcept _) fun _ _ => .bind (.ofExcept _) fun _ _ => .pure _
  | callFunc =>
    refine .bind (.ofExcept _) fun _ _ => .bind (.ident u _) fun name _ => ?_
    refine .bind (.ofExcept _) fun _ _ => .bind (.ident u _) fun ns _ => .bind (.ofExcept _) fun kind _ => ?_
    generalize (m.skip 3).popArgs = p
    obtain ⟨argv, m⟩ := p
    refine .bind (steady_dispatch name ns kind argv) fun found _ => ?_
    cases found with
    | none => exact .pure _
    | some call => exact .pure _
  | _ => exact Console.Steady.refl c

theorem steady_step : Steady c (m.step u b) := by
  refine .bind (.ofExcept _) fun w _ => ?_
  split
  · exact steady_execute _
  · exact .bind (.printLine _) fun _ _ => .pure _

end Machine

/-! ## Commands -/

namespace Builtin

variable {c : Console} {receiver : Option ObjectRef} {argv : List Text}

theorem steady_arg (argv : List Text) (i : Nat) : Steady c (arg argv i) := by
  rw [arg]
  split
  · exact .pure _
  · exact .throw _

theorem steady_need (receiver : Option ObjectRef) : Steady c (need receiver) := by
  cases receiver with
  | some r => exact .pure r
  | none => exact .throw .absent

theorem steady_exportTo (argv : List Text) : Steady c (exportTo argv) := by
  refine .bind (steady_arg argv 0) fun pattern c₁ => .get ?_
  cases argv[1]?.filter (!·.isEmpty) with
  | none => exact Console.Steady.elsewhere rfl rfl
  | some path =>
    dsimp only
    split
    · rename_i c₂ hexport
      rw [Console.exportToFile] at hexport
      cases hfiles : c₁.files.write path (c₁.exportGlobals pattern)
          (argv[2]?.any fun t => (Value.text t).toBool) with
      | error e =>
        rw [hfiles] at hexport
        cases hexport
      | ok files =>
        rw [hfiles] at hexport
        cases hexport
        exact Console.Steady.elsewhere rfl rfl
    · exact .printLine _

theorem steady_addAll (refs : List Text) : Steady c (addAll receiver refs) := by
  induction refs generalizing c with
  | nil => exact .pure ()
  | cons ref refs ih =>
    rw [addAll]
    refine .get ?_
    split
    · exact .bind (steady_need receiver) fun set _ => .bind (.modify (.elsewhere rfl rfl)) fun _ _ => ih
    · exact .bind (.printLine _) fun _ _ => ih

theorem steady_removeAll (refs : List Text) : Steady c (removeAll receiver refs) := by
  have hone {c : Console} (ref : Text) : Steady c (removeOne receiver ref) := by
    refine .get ?_
    split
    · exact .pure _
    · exact .bind (steady_need receiver) fun set _ => .change (.elsewhere rfl rfl)
  induction refs generalizing c with
  | nil => exact .pure ()
  | cons ref refs ih =>
    rw [removeAll]
    refine .bind (hone ref) fun removed _ => ?_
    split
    · exact .bind (.printLine _) fun _ _ => ih
    · exact ih

theorem steady_counted (command : Text) (n : Except PrefError Nat) : Steady c (counted command n) := by
  cases n with
  | ok n => exact .pure _
  | error e => exact .bind (.printLine _) fun _ _ => .pure _

theorem steady_childAt (index : Text) : Steady c (childAt receiver index) := by
  have hrefused {c : Console} : Steady c (do
      Run.printLine "Set::getObject - index out of range."
      return .int (-1) : Run Value) := .bind (.printLine _) fun _ _ => .pure _
  rw [childAt]
  split
  · exact hrefused
  · split
    · exact hrefused
    · refine .bind (steady_need receiver) fun set _ => .get ?_
      split
      · exact .pure _
      · exact hrefused

theorem steady_run (command : Builtin) : Steady c (command.run receiver argv) := by
  cases command with
  | echo | warn | error => exact .bind (.printLine _) fun _ _ => .pure _
  | backtrace => exact .get (.bind (.printLine _) fun _ _ => .pure _)
  | activatePackage =>
    exact .bind (steady_arg argv 0) fun p _ =>
      .bind (.change ⟨rfl, .of_grows Namespaces.grows_activate⟩) fun _ _ => .pure _
  | deactivatePackage =>
    exact .bind (steady_arg argv 0) fun p _ =>
      .bind (.change ⟨rfl, .of_grows Namespaces.grows_deactivate⟩) fun _ _ => .pure _
  | isPackage | isActivePackage | isObject =>
    exact .get (.bind (steady_arg argv 0) fun _ _ => .pure _)
  | strlen | getWordCount => exact .bind (steady_arg argv 0) fun _ _ => .pure _
  | isFunction =>
    exact .bind (steady_arg argv 0) fun t _ => .bind (.lookupText globalSpace t) fun _ _ => .get (.pure _)
  | nameToId =>
    refine .get (.bind (steady_arg argv 0) fun t _ => ?_)
    split <;> exact .pure _
  | exportVars => exact .bind (steady_exportTo argv) fun _ _ => .pure _
  | deleteVariables =>
    exact .bind (steady_arg argv 0) fun _ _ => .bind (.change (.elsewhere rfl rfl)) fun _ _ => .pure _
  | getWord => exact .bind (steady_arg argv 0) fun _ _ => .bind (steady_arg argv 1) fun _ _ => .pure _
  | getId | getFieldCount | setCount | getName | getClassName =>
    exact .bind (steady_need receiver) fun _ _ => .get (.pure _)
  | isMemberOfClass =>
    exact .bind (steady_need receiver) fun _ _ => .bind (steady_arg argv 1) fun _ _ => .get (.pure _)
  | getGroup =>
    refine .bind (steady_need receiver) fun _ _ => .get ?_
    split <;> exact .pure _
  | getFieldValue =>
    exact .bind (steady_arg argv 1) fun _ _ => .bind (steady_need receiver) fun _ _ => .get (.pure _)
  | setFieldValue =>
    refine .bind (steady_arg argv 1) fun _ _ => .bind (steady_arg argv 2) fun _ _ => ?_
    refine .bind (steady_need receiver) fun _ _ => ?_
    exact .bind (.modify (.elsewhere rfl rfl)) fun _ _ => .pure _
  | setAdd => exact .bind (steady_addAll argv.tail) fun _ _ => .pure _
  | setRemove => exact .bind (steady_removeAll argv.tail) fun _ _ => .pure _
  | setClear =>
    exact .bind (steady_need receiver) fun r _ => .bind (.modify (.elsewhere rfl rfl)) fun _ _ => .pure _
  | setObject => exact .bind (steady_arg argv 1) fun t _ => steady_childAt t
  | setIsMember =>
    refine .get (.bind (steady_arg argv 1) fun t _ => ?_)
    split
    · exact .pure _
    · exact .bind (steady_need receiver) fun _ _ => .get (.pure _)
  | savePrefs pattern => exact .bind (.change (.elsewhere rfl rfl)) fun n _ => steady_counted _ n
  | loadPrefs pattern => exact .bind (.change (.loadPrefs _ _)) fun n _ => steady_counted _ n
  | quit => exact .bind (.modify (.elsewhere rfl rfl)) fun _ _ => .pure _

end Builtin

/-! ## Runs -/

namespace Job

variable {c : Console}

theorem steady_call (target : Call) : Steady c (Job.call target).begin := by
  obtain ⟨id, receiver, argv⟩ := target
  refine .get ?_
  split
  · exact .pure _
  · split
    · exact .bind (.printLine _) fun _ _ => .bind (.printLine _) fun _ _ => .pure _
    · split
      · exact .pure _
      · exact .pure _
      · split
        · exact .bind (.printLine _) fun _ _ => .pure _
        · exact .bind (.modify (.elsewhere rfl rfl)) fun _ _ => .pure _
      · exact .pure _

theorem steady_command (native : Native) (receiver : Option ObjectRef) (argv : List Text) :
    Steady c (Job.command native receiver argv).begin := by
  cases native with
  | builtin b => exact .bind (Builtin.steady_run b) fun _ _ => .pure _
  | execFile | evalText => exact .bind (Builtin.steady_arg argv 0) fun _ _ => .pure _
  | deleteObject =>
    cases receiver with
    | some r => exact .pure _
    | none => exact .pure _
  | host f =>
    refine .get ?_
    dsimp only
    split
    · exact .bind (.printLine _) fun _ _ => .pure _
    · exact .bind (.pure _) fun _ _ => .pure _

theorem steady_begin (j : Job) : Steady c j.begin := by
  cases j with
  | proceed u b m =>
    refine .bind (.attempt Machine.steady_step) fun after _ => ?_
    split <;> exact .pure _
  | enter b ip e argv =>
    exact .get (.bind (.ofExcept _) fun _ _ => .bind (.ofExcept _) fun _ _ =>
      .bind (.change (.elsewhere rfl rfl)) fun _ _ => .pure _)
  | bind u b scope ip count flags argv =>
    refine .bind (.bindParams u scope _ _ argv) fun _ _ => ?_
    split <;> exact .pure _
  | top b shared =>
    refine .get (.bind (.change ?_) fun _ _ => .pure _)
    split <;> exact .elsewhere rfl rfl
  | call target => exact steady_call target
  | command native receiver argv => exact steady_command native receiver argv
  | method r name args =>
    refine .get ?_
    split
    · exact .pure _
    · refine .bind (.lookupText _ name) fun e _ => ?_
      cases e with
      | none => exact .pure _
      | some e => exact .get (.pure _)
  | register r => exact .bind (.modify (.publish _ r)) fun _ _ => .pure _
  | delete r =>
    refine .get ?_
    split <;> exact .pure _
  | exec b => exact .bind (.modify (.elsewhere rfl rfl)) fun _ _ => .pure _
  | execLocal b => exact .bind (.modify (.elsewhere rfl rfl)) fun _ _ => .get (.pure _)
  | eval source filename | evalLocal source filename =>
    refine .bind (.change (.compile _ source filename)) fun compiled _ => ?_
    cases compiled with
    | error e => exact .pure _
    | ok b => exact .pure _
  | execFile path =>
    refine .get ?_
    split <;> exact .pure _

end Job

namespace Pending

variable {c : Console}

theorem steady_resume (w : Pending) (a : Response) : Steady c (w.resume a) := by
  cases w with
  | call u b ip m => exact .pure _
  | place u b ip m r root =>
    refine .bind (.attempt (Machine.steady_placeObject r root)) fun placed _ => ?_
    cases placed with
    | none => exact .pure _
    | some m => exact .pure _
  | frame | function b | block b => exact .bind (.modify (.elsewhere rfl rfl)) fun _ _ => .pure _
  | result | ignore => exact .pure _
  | ranFile | ranText =>
    cases a with
    | ok v => exact .pure _
    | error e => exact .bind (.printLine _) fun _ _ => .pure _
  | remove r => exact .get (.bind (.modify (.elsewhere rfl rfl)) fun _ _ => .pure _)
  | children r rest =>
    cases rest with
    | nil => exact .bind (.modify (.withdraw _ r)) fun _ _ => .pure _
    | cons child rest =>
      rw [resume]
      refine .get ?_
      split
      · exact .bind (.modify (.elsewhere rfl rfl)) fun _ _ => .pure _
      · exact .pure _

theorem steady_drop (w : Pending) (f : Fault) : c.Steady (w.drop f c).2 := by
  cases w with
  | call u b ip m | place u b ip m r root => cases f <;> exact .elsewhere rfl rfl
  | _ => exact .elsewhere rfl rfl

end Pending

theorem Process.steady_after {c : Console} {act : Run Onward} (h : Steady c act) (stack : List Pending) :
    c.Steady (after stack (act c)).console := by
  rw [Steady] at h
  cases hact : act c with
  | ok n c' =>
    rw [hact] at h
    exact h
  | error f c' =>
    rw [hact] at h
    exact h

/-- No step of a run registers a class or changes the name of a namespace. -/
theorem Process.steady_next {p q : Process} (h : p.next = some q) : p.console.Steady q.console := by
  obtain ⟨focus, stack, c⟩ := p
  cases focus with
  | start j =>
    cases h
    exact steady_after j.steady_begin stack
  | give a =>
    cases stack with
    | nil => cases h
    | cons w stack =>
      cases h
      exact steady_after (w.steady_resume a) stack
  | fail f =>
    cases stack with
    | nil => cases h
    | cons w stack =>
      cases h
      exact w.steady_drop f

end ConsoleScript
