import ConsoleScript.Proofs.Console.Changes

/-!
# Instructions and commands

An instruction makes changes only, and so does a command that runs no script. What an instruction
asks for after that is sensible: the variable at hand and the scope are no frames beneath `base`, the
objects that are being declared have been made, the receiver of a call is known, and an object that
is to be registered is not registered yet.
-/

namespace ConsoleScript

open Console Run

namespace Machine

variable {base : Nat} {strict : Prop} {block : Option BlockId} {m m' : Machine} {c c' : Console}

/-! ## What a machine refers to -/

/-- The scope, the current variable and the objects that are being declared. -/
def refs (m : Machine) : ScopeId × Option VarRef × List ObjectRef := (m.scope, m.var, m.objects)

/-- What a machine refers to: its scope and its variable are among the globals and the frames from
`base` on and beneath `top`, and the objects are among the first `size` ones. -/
structure Refers (base top size : Nat) (m : Machine) : Prop where
  scope : m.scope.In base top
  var : ∀ r, m.var = some r → r.owner.In base top
  objects : ∀ r ∈ m.objects, r < size

theorem Refers.start {base top size : Nat} {ip : UInt32} {scope : ScopeId} (h : scope.In base top) :
    Refers base top size { ip := ip, scope := scope } :=
  ⟨h, by rintro _ ⟨⟩, by rintro _ ⟨⟩⟩

theorem Refers.of_le {base top size size' : Nat} (h : m.Refers base top size) (hsize : size ≤ size')
    (he : m'.refs = m.refs) : m'.Refers base top size' := by
  obtain ⟨hscope, hvar, hobjects⟩ : m'.scope = m.scope ∧ m'.var = m.var ∧ m'.objects = m.objects := by
    simpa [refs] using he
  refine ⟨hscope ▸ h.scope, hvar ▸ h.var, ?_⟩
  intro r hr
  exact Nat.lt_of_lt_of_le (h.objects r (hobjects ▸ hr)) hsize

structure Fits (base : Nat) (m : Machine) (c : Console) : Prop where
  closed : c.scopes.Closed base
  refers : m.Refers base c.scopes.depth c.objects.store.size

theorem Fits.changes (h : m.Fits base c) (hchanges : Changes base strict block c c')
    (he : m'.refs = m.refs) : m'.Fits base c' := by
  refine ⟨hchanges.closed h.closed, ?_⟩
  rw [hchanges.edits.depth]
  exact h.refers.of_le hchanges.keeps.size he

theorem Fits.of_eq (h : m.Fits base c) (he : m'.refs = m.refs) : m'.Fits base c :=
  ⟨h.closed, h.refers.of_le (Nat.le_refl _) he⟩

@[simp] theorem refs_popInt : m.popInt.2.refs = m.refs := by
  rw [popInt]
  split <;> rfl

@[simp] theorem refs_popFloat : m.popFloat.2.refs = m.refs := by
  rw [popFloat]
  split <;> rfl

@[simp] theorem refs_popArgs : m.popArgs.2.refs = m.refs := by
  rw [popArgs]
  split <;> rfl

@[simp] theorem refs_rewind : m.rewind.2.refs = m.refs := by
  rw [rewind]
  split <;> rfl

@[simp] theorem refs_pushArg : m.pushArg.refs = m.refs := by
  rw [pushArg]
  split <;> rfl

@[simp] theorem refs_pushInt (i : Int64) : (m.pushInt i).refs = m.refs := rfl

@[simp] theorem refs_pushFloat (f : Float) : (m.pushFloat f).refs = m.refs := rfl

@[simp] theorem refs_skip (n : UInt32) : (m.skip n).refs = m.refs := rfl

@[simp] theorem refs_combineInts (f : Int64 → Int64 → Int64) :
    (m.combineInts f).refs = m.refs := by simp [combineInts]

@[simp] theorem refs_combineFloats (f : Float → Float → Float) :
    (m.combineFloats f).refs = m.refs := by simp [combineFloats]

@[simp] theorem refs_compareFloats (f : Float → Float → Bool) :
    (m.compareFloats f).refs = m.refs := by simp [compareFloats]

theorem Fits.scopeOf (h : m.Fits base c) (names : NameTable) (n : Name) :
    (m.scopeOf names n).In base c.scopes.depth := by
  rw [Machine.scopeOf]
  split
  · trivial
  · exact h.refers.scope

theorem Fits.setVar (h : m.Fits base c) {v : Option VarRef}
    (hv : ∀ r, v = some r → r.owner.In base c.scopes.depth) : Fits base { m with var := v } c :=
  ⟨h.closed, h.refers.scope, hv, h.refers.objects⟩

end Machine

def Progress.Fits (base : Nat) (p : Progress) (c : Console) : Prop :=
  match p with
  | .next m => m.Fits base c
  | .done _ => True
  | .call m ⟨_, receiver, _⟩ => m.Fits base c ∧ ∀ r, receiver = some r → c.objects.Known r
  | .register m r _ =>
    m.Fits base c ∧ r < c.objects.store.size ∧ (c.objects.get r).registered = false

/-! ## Instructions -/

namespace Run

variable {base : Nat} {strict : Prop} {block : Option BlockId} {c : Console}

theorem Makes.printLine (t : Text) : Makes base strict block c (Run.printLine t) fun _ _ => True :=
  (Makes.modify (.printLine c t)).any

theorem Makes.lookup (space : SpaceId) (name : Option Name) :
    Makes base strict block c (lookup space name) fun _ _ => True := by
  refine .get (.ofExcept fun p hp => ?_)
  exact ⟨.spaces (Namespaces.keeps_lookup hp), trivial⟩

theorem Makes.lookupText (space : SpaceId) (name : Text) :
    Makes base strict block c (lookupText space name) fun _ _ => True := .get (.lookup space _)

theorem Makes.lookupBelow (origin : Option SpaceId) (name : Option Name) :
    Makes base strict block c (lookupBelow origin name) fun _ _ => True := by
  refine .get (.ofExcept fun p hp => ?_)
  exact ⟨.spaces (Namespaces.keeps_lookupBelow hp), trivial⟩

/-- The name is in the table, unless the table is in disorder. -/
def KnowsName (n : Option Name) (c : Console) : Prop :=
  ∀ x, n = some x → c.names.Consistent → c.names.Knows x

theorem Makes.intern (t : Text) : Makes base strict block c (Run.change (·.intern t)) KnowsName := by
  refine ⟨.intern c t, ?_⟩
  intro x hx
  exact knows_of_intern (Prod.ext hx rfl)

theorem Makes.ident (u : CodeUnit) (operand : UInt32) :
    Makes base strict block c (u.ident operand) KnowsName := by
  rw [CodeUnit.ident]
  split
  · refine .pure ?_
    rintro _ ⟨⟩
  · exact .ofExcept fun t _ => .intern t

theorem Makes.attempt {α : Type} {act : Run α} {P : α → Console → Prop} {u : CodeUnit}
    {ip : UInt32} (h : Makes base strict block c act P) :
    Makes base strict block c (attempt u ip act) fun a c' => ∀ x, a = some x → P x c' := by
  rw [Makes] at h ⊢
  rw [Run.attempt]
  cases hact : act c with
  | ok a c' =>
    rw [hact] at h
    refine ⟨h.1, ?_⟩
    rintro _ ⟨⟩
    exact h.2
  | error f c' =>
    rw [hact] at h
    cases f with
    | exhausted => exact h
    | outOfRange index length => exact ⟨h.trans (.printLine _ _), by rintro _ ⟨⟩⟩
    | absent => exact ⟨h.trans (.printLine _ _), by rintro _ ⟨⟩⟩

end Run

namespace Machine

variable {base : Nat} {strict : Prop} {block : Option BlockId} {u : CodeUnit} {b : BlockId} {ip : UInt32}
  {m m' : Machine} {c c' : Console}

theorem findVar_makes (hm : m.Fits base c) (n : Option Name) :
    Makes base strict block c (m.findVar n) (Fits base) := by
  refine .get (.pure (hm.setVar ?_))
  intro r hr
  obtain ⟨name, -, hfind⟩ := Option.bind_eq_some_iff.mp hr
  exact hm.closed.find? (hm.scopeOf _ name) hfind

theorem createVar_makes (hm : m.Fits base c) {n : Option Name} (hn : KnowsName n c) :
    Makes base strict block c (m.createVar n) (Fits base) := by
  cases n with
  | none => exact .pure (hm.setVar (by rintro _ ⟨⟩))
  | some n =>
    obtain ⟨hadd, howner⟩ := Changes.addVariable strict block hm.closed
      (hm.scopeOf c.names n) (hn n rfl)
    refine (Makes.change hadd).bind fun r c₁ h₁ he => .pure ?_
    refine (hm.changes h₁ rfl).setVar ?_
    rintro _ ⟨⟩
    rwa [← congrArg Prod.fst he, ← h₁.edits.depth] at howner

theorem varValue_makes : Makes base strict block c m.varValue fun _ _ => True := .get (.pure trivial)

theorem fieldValue_makes : Makes base strict block c m.fieldValue fun _ _ => True := .get (.pure trivial)

theorem saveVar_makes (hm : m.Fits base c) (v : Value) :
    Makes base strict block c (m.saveVar v) fun _ _ => True := by
  rw [saveVar]
  split
  · rename_i r hr
    exact (Makes.modify (.assign c (hm.refers.var r hr) v)).any
  · exact .pure trivial

theorem saveField_makes (v : Text) : Makes base strict block c (m.saveField v) fun _ _ => True := by
  rw [saveField]
  split
  · exact (Makes.modify (.objects (.edit _ _ fun _ => rfl))).any
  · exact .pure trivial

theorem branch_makes (taken : Bool) :
    Makes base strict block c (branch u m taken) fun m' _ => m'.refs = m.refs := by
  rw [branch]
  split
  · exact .ofExcept fun _ _ => .pure rfl
  · exact .pure rfl

theorem declare_makes : Makes base strict (some b) c (declare u b ip) fun _ _ => True := by
  rw [declare]
  refine .ofExcept fun _ _ => (Makes.ident u _).bind fun name _ _ _ => ?_
  refine .ofExcept fun _ _ => (Makes.ident u _).bind fun ns c₁ _ _ => ?_
  refine .ofExcept fun _ _ => (Makes.ident u _).bind fun package c₂ _ _ => ?_
  refine (Makes.change (.obtain c₂ ns package)).bind fun space c₃ _ _ => ?_
  refine .ofExcept fun w _ => ?_
  have hdefine : Changes base strict (some b) c₃ (c₃.define space name (.script b ip (w >>> 1))).2 :=
    (Change.define space name (.script b ip (w >>> 1)) [] 0 0 fun _ h => h).changes
  exact (Makes.change hdefine).bind fun _ _ _ _ => .raise _

theorem declareObject_makes (hm : m.Fits base c) :
    Makes base strict block c (declareObject u m ip) (Fits base) := by
  rw [declareObject]
  refine .ofExcept fun source _ => .ofExcept fun datablock _ => .ofExcept fun fail _ => ?_
  have hrefs : (m.skip 3).popArgs.2.refs = m.refs := by rw [refs_popArgs, refs_skip]
  generalize (m.skip 3).popArgs = p at hrefs
  obtain ⟨argv, m₁⟩ := p
  obtain ⟨hchanges, hmade⟩ := instantiate_spec base strict block c (argv.headD [])
    (argv.tail.headD []) source (datablock != 0) (argv.drop 2)
  refine (Makes.change hchanges).bind fun made c₁ h₁ he => ?_
  rw [← he] at hmade
  have hm₁ : m₁.Fits base c₁ := hm.changes h₁ hrefs
  cases made with
  | ok r =>
    refine .pure ⟨hm₁.closed, hm₁.refers.scope, hm₁.refers.var, ?_⟩
    intro q hq
    obtain rfl | hq := List.mem_cons.mp hq
    · exact hmade q rfl
    · exact hm₁.refers.objects q hq
  | error e => exact (Makes.printLine _).bind fun _ c₂ h₂ _ => .pure (hm₁.changes h₂ rfl)

/-- An object is put into a known set, or nothing happens. -/
theorem placeObject_eq (m : Machine) (r : ObjectRef) (root : Bool) (c : Console) :
    ∃ m', m'.refs = m.refs ∧ (m.placeObject r root c = .ok m' c ∨
      ∃ group, c.objects.Known group ∧
        m.placeObject r root c = .ok m' { c with objects := (c.objects.addChild group r).2 }) := by
  cases root with
  | true =>
    refine ⟨{ m with ints := Int64.ofNat (c.objects.get r).id.toNat :: m.ints.tail }, rfl, .inl ?_⟩
    rfl
  | false =>
    refine ⟨m.pushInt (Int64.ofNat (c.objects.get r).id.toNat), rfl, ?_⟩
    rw [placeObject, bind_apply]
    dsimp only [get, getThe, MonadStateOf.get, EStateM.get]
    rw [if_neg Bool.false_ne_true]
    cases hlive : c.objects.live[Number.lowWord m.topInt]? with
    | none => exact .inl rfl
    | some group =>
      dsimp only
      split
      · exact .inr ⟨group, .inr (.inl ⟨_, hlive⟩), rfl⟩
      · exact .inl rfl

theorem placeObject_makes (hm : m.Fits base c) {r : ObjectRef} (hr : c.objects.Known r)
    (root : Bool) : Makes base strict block c (m.placeObject r root) (Fits base) := by
  obtain ⟨m', hrefs, he | ⟨group, hgroup, he⟩⟩ := m.placeObject_eq r root c
  · rw [Makes, he]
    exact ⟨.refl c, hm.of_eq hrefs⟩
  · have hadd : Changes base strict block c { c with objects := (c.objects.addChild group r).2 } :=
      .objects (.add (fun _ => hgroup) hr)
    rw [Makes, he]
    exact ⟨hadd, hm.changes hadd hrefs⟩

def KnowsReceiver (found : Option Call) (c : Console) : Prop :=
  ∀ call, found = some call → ∀ r, call.receiver = some r → c.objects.Known r

theorem KnowsReceiver.none : KnowsReceiver none c := by rintro _ ⟨⟩

theorem KnowsReceiver.some {e : EntryId} {receiver : Option ObjectRef} {argv : List Text}
    (h : ∀ r, receiver = some r → c.objects.Known r) :
    KnowsReceiver (some ⟨e, receiver, argv⟩) c := by
  rintro call ⟨⟩
  exact h

theorem unknown_makes (text : Console → Text) : Makes base strict block c (do
    let c ← get
    Run.printLine (text c)
    return none : Run (Option Call)) KnowsReceiver :=
  .get ((Makes.printLine _).bind fun _ _ _ _ => .pure .none)

theorem dispatch_makes (name ns : Option Name) (kind : UInt32) (argv : List Text) :
    Makes base strict block c (dispatch u m ip name ns kind argv) KnowsReceiver := by
  unfold dispatch
  dsimp only
  split
  · split
    · exact .pure .none
    · refine .get ?_
      split
      · exact (Makes.printLine _).bind fun _ _ _ _ => .pure .none
      · rename_i r hfind
        split
        · exact .throw .absent
        · refine (Makes.lookup _ name).bind fun e c₁ h₁ _ => ?_
          cases e with
          | some e =>
            refine .pure (.some ?_)
            rintro q ⟨⟩
            exact h₁.known (known_of_findObject? hfind)
          | none => exact unknown_makes _
  · refine .get ((Makes.lookupBelow _ name).bind fun e c₁ h₁ _ => ?_)
    cases e with
    | some e =>
      refine .pure (.some ?_)
      intro r hr
      obtain ⟨ref, -, hfind⟩ := Option.bind_eq_some_iff.mp hr
      exact h₁.known (known_of_findObject? hfind)
    | none => exact unknown_makes _
  · cases ns with
    | none =>
      refine (Makes.lookup globalSpace name).bind fun e c₂ _ _ => ?_
      cases e with
      | some e => exact .pure (.some (by rintro _ ⟨⟩))
      | none => exact unknown_makes _
    | some ns =>
      refine (Makes.change (.obtain c (some ns) none)).bind fun space c₁ _ _ => ?_
      refine (Makes.lookup space name).bind fun e c₂ _ _ => ?_
      cases e with
      | some e => exact .pure (.some (by rintro _ ⟨⟩))
      | none => exact unknown_makes _

theorem execute_makes (hm : m.Fits base c) (op : Opcode) :
    Makes base strict (some b) c (execute u b op ip m) (Progress.Fits base) := by
  have hnext {m' : Machine} (he : m'.refs = m.refs) :
      Makes base strict (some b) c (pure (.next m') : Run Progress) (Progress.Fits base) :=
    .pure (hm.of_eq he)
  cases op with
  | funcDecl => exact declare_makes.bind fun _ _ h _ => .pure (hm.changes h rfl)
  | createObject => exact (declareObject_makes hm).bind fun _ _ _ h => .pure h
  | addObject =>
    refine .ofExcept fun w _ => ?_
    dsimp only
    split
    · exact hnext rfl
    · rename_i r rest hobjects
      have hr : r < c.objects.store.size := by
        apply hm.refers.objects
        show r ∈ (m.skip 1).objects
        rw [hobjects]
        exact List.mem_cons_self
      refine .get ?_
      split
      · rename_i hregistered
        have hm₁ : (m.skip 1).Fits base c := hm.of_eq rfl
        exact (placeObject_makes hm₁ (.inl hregistered) (w != 0)).bind fun _ _ _ h => .pure h
      · rename_i hregistered
        exact .pure ⟨hm.of_eq rfl, hr, Bool.eq_false_iff.mpr hregistered⟩
  | endObject =>
    refine .ofExcept fun w _ => .pure ?_
    have hm' : (if (w != 0) = true then m else m.popInt.2).Fits base c := by
      split
      · exact hm
      · exact hm.of_eq refs_popInt
    refine ⟨hm'.closed, hm'.refers.scope, hm'.refers.var, ?_⟩
    intro r hr
    exact hm'.refers.objects r (List.mem_of_mem_tail hr)
  | jumpUnlessFloat | jumpIfFloat =>
    exact (branch_makes _).bind fun _ _ h he => .pure (hm.changes h (he.trans refs_popFloat))
  | jumpUnless | jumpIf =>
    exact (branch_makes _).bind fun _ _ h he => .pure (hm.changes h (he.trans refs_popInt))
  | jumpUnlessKeep | jumpIfKeep =>
    rw [execute]
    split
    · exact (branch_makes _).bind fun _ _ h he => .pure (hm.changes h he)
    · exact (branch_makes _).bind fun _ _ h he => .pure (hm.changes h (he.trans refs_popInt))
  | jump => exact (branch_makes _).bind fun _ _ h he => .pure (hm.changes h he)
  | ret | retVoid => exact .pure trivial
  | finishObject | textToNone | setFieldArray | setObjectNew | textToInt | textToFloat | advance
  | advanceNul | advanceComma | pushFrame => exact hnext rfl
  | cmpEq | cmpGt | cmpGe | cmpLt | cmpLe | cmpNe => exact hnext (refs_compareFloats _)
  | xor | mod | bitAnd | bitOr | shr | shl => exact hnext (refs_combineInts _)
  | add | sub | mul | div => exact hnext (refs_combineFloats _)
  | not | complement | intToFloat | intToText | intToNone => exact hnext refs_popInt
  | notFloat | neg | floatToInt | floatToText | floatToNone => exact hnext refs_popFloat
  | rewind | terminateRewind | compareText => exact hnext refs_rewind
  | push => exact hnext refs_pushArg
  | setVar =>
    refine .ofExcept fun _ _ => (Makes.ident u _).bind fun n c₁ h _ => ?_
    have hm₁ : (m.skip 1).Fits base c₁ := hm.changes h rfl
    exact (findVar_makes hm₁ n).bind fun _ _ _ h' => .pure h'
  | setVarCreate =>
    refine .ofExcept fun _ _ => (Makes.ident u _).bind fun n c₁ h hn => ?_
    have hm₁ : (m.skip 1).Fits base c₁ := hm.changes h rfl
    exact (createVar_makes hm₁ hn).bind fun _ _ _ h' => .pure h'
  | setVarArray => exact .get ((findVar_makes hm _).bind fun _ _ _ h => .pure h)
  | setVarArrayCreate =>
    refine (Makes.intern m.text).bind fun n _ h hn => ?_
    exact (createVar_makes (hm.changes h rfl) hn).bind fun _ _ _ h' => .pure h'
  | loadVarInt | loadVarFloat | loadVarText =>
    exact varValue_makes.bind fun _ _ h _ => .pure (hm.changes h rfl)
  | saveVarInt | saveVarFloat | saveVarText =>
    exact (saveVar_makes hm _).bind fun _ _ h _ => .pure (hm.changes h rfl)
  | setObject => exact .get (hnext rfl)
  | setField => exact .ofExcept fun _ _ => .ofExcept fun _ _ => hnext rfl
  | loadFieldInt | loadFieldFloat | loadFieldText =>
    exact fieldValue_makes.bind fun _ _ h _ => .pure (hm.changes h rfl)
  | saveFieldInt | saveFieldFloat | saveFieldText =>
    exact (saveField_makes _).bind fun _ _ h _ => .pure (hm.changes h rfl)
  | loadInt | advanceChar => exact .ofExcept fun _ _ => hnext rfl
  | loadFloat | loadText | loadIdent => exact .ofExcept fun _ _ => .ofExcept fun _ _ => hnext rfl
  | callFunc =>
    refine .ofExcept fun _ _ => (Makes.ident u _).bind fun name c₁ h₁ _ => ?_
    refine .ofExcept fun _ _ => (Makes.ident u _).bind fun ns c₂ h₂ _ => .ofExcept fun kind _ => ?_
    have hrefs : (m.skip 3).popArgs.2.refs = m.refs := by rw [refs_popArgs, refs_skip]
    generalize (m.skip 3).popArgs = p at hrefs
    obtain ⟨argv, m₁⟩ := p
    refine (dispatch_makes name ns kind argv).bind fun found c₃ h₃ hfound => ?_
    have hm₁ := hm.changes ((h₁.trans h₂).trans h₃) hrefs
    cases found with
    | none => exact .pure (hm₁.of_eq rfl)
    | some call => exact .pure ⟨hm₁, hfound call rfl⟩

theorem step_makes (hm : m.Fits base c) :
    Makes base strict (some b) c (m.step u b) (Progress.Fits base) := by
  refine .ofExcept fun w _ => ?_
  split
  · exact execute_makes (m := m.skip 1) (hm.of_eq rfl) _
  · exact (Makes.printLine _).bind fun _ _ _ _ => .pure trivial

end Machine

/-! ## Commands -/

namespace Builtin

variable {base : Nat} {strict : Prop} {block : Option BlockId} {c : Console} {receiver : Option ObjectRef}
  {argv : List Text}

theorem arg_makes (argv : List Text) (i : Nat) :
    Makes base strict block c (arg argv i) fun _ _ => True := by
  rw [arg]
  split
  · exact .pure trivial
  · exact .throw _

theorem need_makes (receiver : Option ObjectRef) :
    Makes base strict block c (need receiver) fun r _ => receiver = some r := by
  cases receiver with
  | some r => exact .pure rfl
  | none => exact .throw .absent

theorem exportTo_makes (argv : List Text) :
    Makes base strict block c (exportTo argv) fun _ _ => True := by
  refine (arg_makes argv 0).bind fun pattern c₁ _ _ => .get ?_
  cases argv[1]?.filter (!·.isEmpty) with
  | none => exact ⟨.print c₁ _, trivial⟩
  | some path =>
    dsimp only
    split
    · rename_i c₂ hexport
      rw [exportToFile] at hexport
      cases hfiles : c₁.files.write path (c₁.exportGlobals pattern)
          (argv[2]?.any fun t => (Value.text t).toBool) with
      | error e =>
        rw [hfiles] at hexport
        cases hexport
      | ok files =>
        rw [hfiles] at hexport
        cases hexport
        exact ⟨.elsewhere (.refl _) rfl rfl rfl rfl rfl rfl, trivial⟩
    · exact .printLine _

theorem addAll_makes (hreceiver : strict → ∀ r, receiver = some r → c.objects.Known r) (refs : List Text) :
    Makes base strict block c (addAll receiver refs) fun _ _ => True := by
  induction refs generalizing c with
  | nil => exact .pure trivial
  | cons ref refs ih =>
    rw [addAll]
    refine .get ?_
    cases hfind : c.findObject? ref with
    | some child =>
      refine (need_makes receiver).bind fun set c₁ h₁ hset => ?_
      have hadd : Changes base strict block c₁ { c₁ with objects := (c₁.objects.addChild set child).2 } :=
        .objects (.add (fun hstrict => h₁.known (hreceiver hstrict set hset))
          (h₁.known (known_of_findObject? hfind)))
      exact (Makes.modify hadd).bind fun _ c₂ h₂ _ =>
        ih fun hstrict r hr => (h₁.trans h₂).known (hreceiver hstrict r hr)
    | none =>
      exact (Makes.printLine _).bind fun _ c₁ h₁ _ =>
        ih fun hstrict r hr => h₁.known (hreceiver hstrict r hr)

theorem removeOne_makes (ref : Text) :
    Makes base strict block c (removeOne receiver ref) fun _ _ => True := by
  refine .get ?_
  split
  · exact .pure trivial
  · refine (need_makes receiver).bind fun set c₁ _ _ => ?_
    exact ⟨.objects (.remove _ _), trivial⟩

theorem removeAll_makes (refs : List Text) :
    Makes base strict block c (removeAll receiver refs) fun _ _ => True := by
  induction refs generalizing c with
  | nil => exact .pure trivial
  | cons ref refs ih =>
    rw [removeAll]
    refine (removeOne_makes ref).bind fun removed c₁ _ _ => ?_
    cases removed with
    | true => exact ih
    | false => exact (Makes.printLine _).bind fun _ _ _ _ => ih

theorem counted_makes (command : Text) (n : Except PrefError Nat) :
    Makes base strict block c (counted command n) fun _ _ => True := by
  cases n with
  | ok n => exact .pure trivial
  | error e => exact (Makes.printLine _).bind fun _ _ _ _ => .pure trivial

theorem childAt_makes (index : Text) :
    Makes base strict block c (childAt receiver index) fun _ _ => True := by
  have hrefused {c : Console} : Makes base strict block c (do
      Run.printLine "Set::getObject - index out of range."
      return .int (-1) : Run Value) fun _ _ => True :=
    (Makes.printLine _).bind fun _ _ _ _ => .pure trivial
  rw [childAt]
  split
  · exact hrefused
  · split
    · exact hrefused
    · refine (need_makes receiver).bind fun set c₁ _ _ => .get ?_
      split
      · exact .pure trivial
      · exact hrefused

theorem run_makes (hclosed : c.scopes.Closed base)
    (hreceiver : strict → ∀ r, receiver = some r → c.objects.Known r) (command : Builtin) :
    Makes base strict block c (command.run receiver argv) fun _ _ => True := by
  have hdone {c : Console} {v : Value} : Makes base strict block c (pure v : Run Value) fun _ _ => True :=
    .pure trivial
  cases command with
  | echo | warn | error => exact (Makes.printLine _).bind fun _ _ _ _ => hdone
  | backtrace => exact .get ((Makes.printLine _).bind fun _ _ _ _ => hdone)
  | activatePackage =>
    exact (arg_makes argv 0).bind fun p c₁ _ _ =>
      (Makes.change (.spaces Namespaces.grows_activate.keeps)).bind fun _ _ _ _ => hdone
  | deactivatePackage =>
    exact (arg_makes argv 0).bind fun p c₁ _ _ =>
      (Makes.change (.spaces Namespaces.grows_deactivate.keeps)).bind fun _ _ _ _ => hdone
  | isPackage | isActivePackage | isObject | strlen | getWordCount =>
    exact (arg_makes argv 0).bind fun _ _ _ _ => hdone
  | isFunction =>
    exact (arg_makes argv 0).bind fun t _ _ _ =>
      (Makes.lookupText globalSpace t).bind fun _ _ _ _ => .get hdone
  | nameToId =>
    refine .get ((arg_makes argv 0).bind fun t _ _ _ => ?_)
    split <;> exact hdone
  | exportVars => exact (exportTo_makes argv).bind fun _ _ _ _ => hdone
  | deleteVariables =>
    exact (arg_makes argv 0).bind fun pattern _ h _ =>
      (Makes.change (.forget (h.closed hclosed) pattern)).bind fun _ _ _ _ => hdone
  | getWord =>
    exact (arg_makes argv 0).bind fun _ _ _ _ => (arg_makes argv 1).bind fun _ _ _ _ => hdone
  | getId | getFieldCount | setCount | getName | getClassName =>
    exact (need_makes receiver).bind fun _ _ _ _ => .get hdone
  | isMemberOfClass =>
    exact (need_makes receiver).bind fun _ _ _ _ => (arg_makes argv 1).bind fun _ _ _ _ => .get hdone
  | getGroup =>
    refine (need_makes receiver).bind fun _ _ _ _ => .get ?_
    split <;> exact hdone
  | getFieldValue =>
    exact (arg_makes argv 1).bind fun _ _ _ _ =>
      (need_makes receiver).bind fun _ _ _ _ => .get hdone
  | setFieldValue =>
    refine (arg_makes argv 1).bind fun _ _ _ _ => (arg_makes argv 2).bind fun _ _ _ _ => ?_
    refine (need_makes receiver).bind fun _ _ _ _ => ?_
    exact (Makes.modify (.objects (.edit _ _ fun _ => rfl))).bind fun _ _ _ _ => hdone
  | setAdd => exact (addAll_makes hreceiver argv.tail).bind fun _ _ _ _ => hdone
  | setRemove => exact (removeAll_makes argv.tail).bind fun _ _ _ _ => hdone
  | setClear =>
    exact (need_makes receiver).bind fun r c₁ _ _ =>
      (Makes.modify (.clearChildren c₁ r)).bind fun _ _ _ _ => hdone
  | setObject => exact (arg_makes argv 1).bind fun t _ _ _ => childAt_makes t
  | setIsMember =>
    refine .get ((arg_makes argv 1).bind fun t _ _ _ => ?_)
    split
    · exact hdone
    · exact (need_makes receiver).bind fun _ _ _ _ => .get hdone
  | savePrefs pattern =>
    exact (Makes.change (.elsewhere (.refl _) rfl rfl rfl rfl rfl rfl)).bind fun n _ _ _ =>
      counted_makes _ n
  | loadPrefs pattern =>
    exact (Makes.change (.loadPrefs hclosed _)).bind fun n _ _ _ => counted_makes _ n
  | quit => exact (Makes.modify (.elsewhere (.refl _) rfl rfl rfl rfl rfl rfl)).bind fun _ _ _ _ => hdone

end Builtin

namespace Run

variable {base : Nat} {strict : Prop} {block : Option BlockId} {c : Console}

theorem bindParams_makes (hclosed : c.scopes.Closed base) (u : CodeUnit) {scope : ScopeId}
    (hscope : scope.In base c.scopes.depth) (count : Nat) (ip : UInt32) (argv : List Text) :
    Makes base strict block c (bindParams u scope count ip argv) fun _ _ => True := by
  induction count generalizing c ip argv with
  | zero => exact .pure trivial
  | succ count ih =>
    rw [bindParams]
    have hrest {c' : Console} (h : Changes base strict block c c') (ip : UInt32) (argv : List Text) :
        Makes base strict block c' (bindParams u scope count ip argv) fun _ _ => True :=
      ih (h.closed hclosed) (h.edits.depth ▸ hscope) ip argv
    refine .ofExcept fun w _ => (Makes.ident u w).bind fun n c₁ h₁ hn => ?_
    cases n with
    | none =>
      cases argv with
      | nil => exact hrest h₁ _ _
      | cons t argv => exact .throw .absent
    | some n =>
      obtain ⟨hadd, howner⟩ := Changes.addVariable strict block (h₁.closed hclosed)
        (h₁.edits.depth ▸ hscope) (hn n rfl)
      cases argv with
      | nil => exact (Makes.change hadd).bind fun _ _ h₂ _ => hrest (h₁.trans h₂) _ _
      | cons t argv =>
        refine (Makes.change hadd).bind fun r c₂ h₂ he => ?_
        rw [← congrArg Prod.fst he, ← h₂.edits.depth] at howner
        exact (Makes.modify (.assign c₂ howner (.text t))).bind fun _ _ h₃ _ =>
          hrest ((h₁.trans h₂).trans h₃) _ _

end Run

end ConsoleScript
