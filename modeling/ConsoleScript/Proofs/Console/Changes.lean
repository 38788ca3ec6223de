import ConsoleScript.Proofs.Console.Activation
import ConsoleScript.Proofs.Console.Namespaces
import ConsoleScript.Proofs.Console.Objects
import ConsoleScript.Proofs.Console.Scopes

/-!
# What instructions and commands change

Whatever an instruction or a command does to a console by itself, it does by a few kinds of changes.
Calls come on top of them, and so do the registration and the deletion of objects, which run scripts.

Changes keep within bounds. The frames beneath `base` keep their variables, which is what a run does to
the frames that were there before it; the script functions that are defined are those of one `block`,
the one whose code is running; and if `strict` holds, children are put into known sets only, which is
so as long as nobody from outside calls methods of other objects.
-/

namespace ConsoleScript

/-! ## Namespaces -/

namespace Namespaces

variable {s s' s'' : Namespaces} {id : SpaceId} {name package : Option Name} {e : Option EntryId}

/-- Namespaces may have been added, and layers and tables of look-ups may differ; the entries and
the links between namespaces do not. -/
structure Keeps (s s' : Namespaces) : Prop where
  size : s.spaces.size ≤ s'.spaces.size
  entries : s'.entries = s.entries
  parent : ∀ i, (s'.space i).parent = (s.space i).parent
  linkCount : ∀ i, (s'.space i).linkCount = (s.space i).linkCount

theorem Keeps.refl (s : Namespaces) : Keeps s s := ⟨Nat.le_refl _, rfl, fun _ => rfl, fun _ => rfl⟩

theorem Keeps.trans (h : Keeps s s') (h' : Keeps s' s'') : Keeps s s'' where
  size := Nat.le_trans h.size h'.size
  entries := h'.entries.trans h.entries
  parent i := (h'.parent i).trans (h.parent i)
  linkCount i := (h'.linkCount i).trans (h.linkCount i)

theorem Grows.keeps (h : Grows s s') : Keeps s s' := by
  have hcore (i : SpaceId) : (s'.space i).core.parent = (s.space i).core.parent ∧
      (s'.space i).core.linkCount = (s.space i).core.linkCount := by
    by_cases hi : i < s.spaces.size
    · rw [h.old i hi]
      exact ⟨rfl, rfl⟩
    · obtain ⟨name, package, he⟩ := h.new i (Nat.le_of_not_lt hi)
      rw [he, space_of_le (Nat.le_of_not_lt hi)]
      exact ⟨rfl, rfl⟩
  exact ⟨h.size, h.entries, fun i => (hcore i).1, fun i => (hcore i).2⟩

theorem keeps_lookup (h : s.lookup id name = .ok (e, s')) : Keeps s s' := by
  obtain rfl | ⟨table, arena, -, rfl⟩ := lookup_eq_ok h
  · exact .refl s'
  · refine ⟨?_, rfl, fun i => ?_, fun i => ?_⟩
    · exact Nat.le_of_eq size_modify.symm
    · refine space_modify_same Namespace.parent ?_ i
      intro n
      rfl
    · refine space_modify_same Namespace.linkCount ?_ i
      intro n
      rfl

/-- A look-up beneath a namespace is one in a parent, or it changes nothing. -/
theorem lookupBelow_eq_ok {origin : Option SpaceId} {e : Option EntryId}
    (h : s.lookupBelow origin name = .ok (e, s')) : s' = s ∨
      ∃ i p, (s.space i).parent = some p ∧ s.lookup p name = .ok (e, s') := by
  rw [lookupBelow.eq_def] at h
  split at h
  · cases h
    exact .inl rfl
  · dsimp only at h
    split at h
    · split at h
      · cases h
        exact .inl rfl
      · next hp => exact .inr ⟨_, _, hp, h⟩
    · split at h
      · cases h
        exact .inl rfl
      · split at h
        · cases h
          exact .inl rfl
        · next hp => exact .inr ⟨_, _, hp, h⟩

theorem keeps_lookupBelow {origin : Option SpaceId}
    (h : s.lookupBelow origin name = .ok (e, s')) : Keeps s s' := by
  obtain rfl | ⟨-, p, -, hp⟩ := lookupBelow_eq_ok h
  · exact .refl s'
  · exact keeps_lookup hp

end Namespaces

/-! ## Objects -/

namespace Objects

variable {o o' : Objects} {r : ObjectRef}

def Known (o : Objects) (r : ObjectRef) : Prop :=
  (o.get r).registered = true ∨
    (∃ id : UInt32, o.live[id]? = some r) ∨ ∃ n : Name, o.named[n]? = some r

/-- A change of the objects that no script runs in. If `strict` holds, only objects
that are known take children. -/
inductive Change (strict : Prop) (o : Objects) : Objects → Prop
  | make (obj : Object) (children : obj.children = []) (group : obj.group = none)
    (registered : obj.registered = false) (links : obj.links = []) : Change strict o (o.make obj).2
  | edit (r : ObjectRef) (f : Object → Object) (rest : ∀ x, f x = { x with fields := (f x).fields }) :
    Change strict o (o.modify r f)
  | add {set child : ObjectRef} (hset : strict → o.Known set) (hchild : o.Known child) :
    Change strict o (o.addChild set child).2
  | remove (set child : ObjectRef) : Change strict o (o.removeChild set child).2

theorem fst_make_lt (o : Objects) (obj : Object) : (o.make obj).1 < (o.make obj).2.store.size := by
  simp [make]

theorem Change.keeps {strict : Prop} (h : Change strict o o') : Keeps o o' := by
  cases h with
  | make obj children group registered links => exact .make o registered links
  | edit r f rest =>
    apply Keeps.modify
    intro x
    rw [rest]
    rfl
  | add hset hchild => exact .addChild o _ _
  | remove set child => exact .removeChild o set child

theorem Known.keeps (h : o.Known r) (hkeeps : Keeps o o') : o'.Known r := by
  rwa [Known, hkeeps.registered, hkeeps.live, hkeeps.named]

end Objects

/-! ## Consoles -/

namespace Console

variable {base : Nat} {strict : Prop} {block : Option BlockId} {c c' c'' : Console} {r : ObjectRef}

inductive Change (base : Nat) (strict : Prop) (block : Option BlockId) (c : Console) : Console → Prop
  | elsewhere {c' : Console} (names : c.names.Grows c'.names) (scopes : c'.scopes = c.scopes)
    (spaces : c'.spaces = c.spaces) (objects : c'.objects = c.objects) (blocks : c'.blocks = c.blocks)
    (limit : c'.maxCallDepth = c.maxCallDepth) (calls : c'.callDepth = c.callDepth) :
    Change base strict block c c'
  | scopes {s : Scopes} (h : c.scopes.Edits base s)
    (tabled : Scopes.Tabled c.names c.scopes → Scopes.Tabled c.names s) :
    Change base strict block c { c with scopes := s }
  | spaces {s : Namespaces} (h : c.spaces.Keeps s) : Change base strict block c { c with spaces := s }
  | define (space : SpaceId) (name : Option Name) (body : EntryBody) (usage : Text)
    (minArgs maxArgs : Int) (own : ∀ b, blockOf? body = some b → block = some b) :
    Change base strict block c (c.define space name body usage minArgs maxArgs).2
  | objects {o : Objects} (h : c.objects.Change strict o) : Change base strict block c { c with objects := o }

def Changes (base : Nat) (strict : Prop) (block : Option BlockId) : Console → Console → Prop :=
  Relation.ReflTransGen (Change base strict block)

theorem Changes.refl (c : Console) : Changes base strict block c c := Relation.ReflTransGen.refl

theorem Changes.trans (h : Changes base strict block c c') (h' : Changes base strict block c' c'') :
    Changes base strict block c c'' :=
  Relation.ReflTransGen.trans h h'

theorem Change.changes (h : Change base strict block c c') : Changes base strict block c c' := .single h

theorem Change.keeps (h : Change base strict block c c') : c.objects.Keeps c'.objects := by
  cases h with
  | elsewhere names scopes spaces objects blocks limit calls =>
    rw [objects]
    exact .refl _
  | objects h => exact h.keeps
  | scopes h tabled => exact .refl _
  | spaces h => exact .refl _
  | define space name body usage minArgs maxArgs own => exact .refl _

theorem Changes.keeps (h : Changes base strict block c c') : c.objects.Keeps c'.objects := by
  induction h with
  | refl => exact .refl _
  | tail _ hchange ih => exact ih.trans hchange.keeps

/-- What every change of the objects keeps, the changes of a console keep. -/
theorem Changes.holds_objects {P : Objects → Prop} (h : Changes base strict block c c')
    (hP : ∀ {o o' : Objects}, o.Change strict o' → P o → P o') (hc : P c.objects) : P c'.objects := by
  induction h with
  | refl => exact hc
  | tail _ hchange ih =>
    cases hchange with
    | elsewhere names scopes spaces objects blocks limit calls =>
      rw [objects]
      exact ih
    | scopes h tabled => exact ih
    | spaces h => exact ih
    | define space name body usage minArgs maxArgs own => exact ih
    | objects h => exact hP h ih

theorem Changes.known (h : Changes base strict block c c') (hr : c.objects.Known r) : c'.objects.Known r :=
  hr.keeps h.keeps

theorem Change.edits (h : Change base strict block c c') : c.scopes.Edits base c'.scopes := by
  cases h with
  | elsewhere names scopes spaces objects blocks limit calls =>
    rw [scopes]
    exact .refl base _
  | scopes h tabled => exact h
  | spaces h => exact .refl base _
  | define space name body usage minArgs maxArgs own => exact .refl base _
  | objects h => exact .refl base _

theorem Changes.edits (h : Changes base strict block c c') : c.scopes.Edits base c'.scopes := by
  induction h with
  | refl => exact .refl base _
  | tail _ hchange ih => exact ih.trans hchange.edits

/-- The globals stay a finite map. -/
theorem Change.tabled (h : Change base strict block c c') (hc : Scopes.Tabled c.names c.scopes) :
    Scopes.Tabled c'.names c'.scopes := by
  cases h with
  | elsewhere names scopes spaces objects blocks limit calls =>
    rw [scopes]
    exact hc.grow names
  | scopes h tabled => exact tabled hc
  | spaces h => exact hc
  | define space name body usage minArgs maxArgs own => exact hc
  | objects h => exact hc

theorem Changes.tabled (h : Changes base strict block c c') (hc : Scopes.Tabled c.names c.scopes) :
    Scopes.Tabled c'.names c'.scopes := by
  induction h with
  | refl => exact hc
  | tail _ hchange ih => exact hchange.tabled ih

theorem Changes.closed (h : Changes base strict block c c') (hclosed : c.scopes.Closed base) :
    c'.scopes.Closed base :=
  hclosed.edits h.edits

theorem Change.counts (h : Change base strict block c c') :
    c'.maxCallDepth = c.maxCallDepth ∧ c'.callDepth = c.callDepth := by
  cases h with
  | elsewhere names scopes spaces objects blocks limit calls => exact ⟨limit, calls⟩
  | scopes h tabled => exact ⟨rfl, rfl⟩
  | spaces h => exact ⟨rfl, rfl⟩
  | define space name body usage minArgs maxArgs own => exact ⟨rfl, rfl⟩
  | objects h => exact ⟨rfl, rfl⟩

theorem Changes.counts (h : Changes base strict block c c') :
    c'.maxCallDepth = c.maxCallDepth ∧ c'.callDepth = c.callDepth := by
  induction h with
  | refl => exact ⟨rfl, rfl⟩
  | tail _ hchange ih => exact ⟨hchange.counts.1.trans ih.1, hchange.counts.2.trans ih.2⟩

/-! ### Kinds of changes -/

theorem Changes.elsewhere (hnames : c.names.Grows c'.names) (hscopes : c'.scopes = c.scopes) (hspaces : c'.spaces = c.spaces)
    (hobjects : c'.objects = c.objects) (hblocks : c'.blocks = c.blocks)
    (hlimit : c'.maxCallDepth = c.maxCallDepth) (hcalls : c'.callDepth = c.callDepth) :
    Changes base strict block c c' :=
  (Change.elsewhere hnames hscopes hspaces hobjects hblocks hlimit hcalls).changes

theorem Changes.spaces {s : Namespaces} (h : c.spaces.Keeps s) :
    Changes base strict block c { c with spaces := s } :=
  (Change.spaces h).changes

theorem Changes.objects {o : Objects} (h : c.objects.Change strict o) :
    Changes base strict block c { c with objects := o } :=
  (Change.objects h).changes

theorem Changes.print (c : Console) (t : Text) : Changes base strict block c (c.print t) :=
  .elsewhere (.refl _) rfl rfl rfl rfl rfl rfl

theorem Changes.printLine (c : Console) (t : Text) : Changes base strict block c (c.printLine t) :=
  .print c _

theorem Changes.intern (c : Console) (t : Text) : Changes base strict block c (c.intern t).2 :=
  .elsewhere (NameTable.grows_intern _ t) rfl rfl rfl rfl rfl rfl

theorem Changes.obtain (c : Console) (name package : Option Name) :
    Changes base strict block c (c.obtain name package).2 :=
  .spaces Namespaces.grows_obtain.keeps

theorem Changes.fold {α : Type} {f : Console → α → Console}
    (h : ∀ c a, Changes base strict block c (f c a)) (l : List α) (c : Console) :
    Changes base strict block c (l.foldl f c) := by
  induction l generalizing c with
  | nil => exact .refl c
  | cons a l ih => exact (h c a).trans (ih (f c a))

theorem Changes.register (c : Console) (space : SpaceId) (r : Registration) :
    Changes base strict block c (c.register space r).2 := by
  have hdefine (c : Console) (name : Option Name) {body : EntryBody} (usage : Text)
      (minArgs maxArgs : Int) (h : blockOf? body = none) :
      Changes base strict block c (c.define space name body usage minArgs maxArgs).2 := by
    refine (Change.define space name body usage minArgs maxArgs ?_).changes
    intro b hb
    rw [h] at hb
    cases hb
  cases r <;> exact (Changes.intern c _).trans (hdefine _ _ _ _ _ rfl)

theorem Changes.registerAll (c : Console) (space : SpaceId) (rs : List Registration) :
    Changes base strict block c (c.registerAll space rs) :=
  .fold (fun c r => .register c space r) rs c

theorem Changes.addVariable (strict : Prop) (block : Option BlockId)
    (hclosed : c.scopes.Closed base) {scope : ScopeId}
    (hscope : scope.In base c.scopes.depth) {n : Name}
    (hn : c.names.Consistent → c.names.Knows n) :
    Changes base strict block c (c.addVariable scope n).2 ∧
      (c.addVariable scope n).1.owner.In base c.scopes.depth :=
  have hadd := hclosed.add hscope n
  ⟨(Change.scopes hadd.1 fun h => h.add hclosed hscope hn).changes, hadd.2⟩

theorem Changes.assign (c : Console) {r : VarRef} (hr : r.owner.In base c.scopes.depth) (v : Value) :
    Changes base strict block c (c.assign r v).2 := by
  rw [Console.assign]
  split
  · exact .refl c
  · rename_i notices scopes hassign
    have hedits := Scopes.edits_assign? hr hassign
    exact (Change.scopes hedits fun h => h.assign? hassign).changes.trans (.fold Changes.printLine _ _)

theorem Changes.forget (hclosed : c.scopes.Closed base) (pattern : Text) : Changes base strict block c
    { c with scopes := (c.scopes.deleteMatching c.names .globals pattern).2 } :=
  (Change.scopes (hclosed.deleteMatching c.names pattern) fun h => h.deleteMatching pattern).changes

theorem knows_of_intern {t : Text} {n : Name} (h : c.intern t = (some n, c')) :
    c'.names.Consistent → c'.names.Knows n := by
  obtain ⟨hname, hconsole⟩ := Prod.mk.inj h
  have hnames : (c.names.intern t).2 = c'.names := congrArg Console.names hconsole
  exact NameTable.knows_intern (Prod.ext hname hnames)

theorem Changes.globalVariable (strict : Prop) (block : Option BlockId)
    (hclosed : c.scopes.Closed base) (name : Text) :
    Changes base strict block c (c.globalVariable name).2 ∧
      ∀ r, (c.globalVariable name).1 = some r → r.owner.In base c.scopes.depth := by
  have hintern : Changes base strict block c (c.intern name).2 := .intern c name
  rw [Console.globalVariable]
  split
  · rename_i c' h
    rw [h] at hintern
    exact ⟨hintern, by rintro _ ⟨⟩⟩
  · rename_i n c' h
    rw [h] at hintern
    have hglobals : ScopeId.globals.In base c'.scopes.depth := trivial
    have hn : c'.names.Consistent → c'.names.Knows n := knows_of_intern h
    obtain ⟨hadd, howner⟩ := Changes.addVariable strict block (hintern.closed hclosed) hglobals hn
    refine ⟨hintern.trans hadd, ?_⟩
    rintro r ⟨⟩
    rwa [hintern.edits.depth] at howner

theorem Changes.loadRow (hclosed : c.scopes.Closed base) (p : Preference) :
    Changes base strict block c (c.loadRow p).2 := by
  obtain ⟨hvariable, howner⟩ := Changes.globalVariable strict block hclosed p.name
  rw [Console.loadRow]
  split
  · rename_i c₁ h
    rwa [h] at hvariable
  · rename_i r c₁ h
    rw [h] at hvariable howner
    have hr : r.owner.In base c₁.scopes.depth := hvariable.edits.depth ▸ howner r rfl
    exact hvariable.trans (.assign c₁ hr p.value)

theorem Changes.loadRows (hclosed : c.scopes.Closed base) (rows : List Preference) :
    Changes base strict block c (c.loadRows rows).2 := by
  induction rows generalizing c with
  | nil => exact .refl c
  | cons p rows ih =>
    have hrow := @Changes.loadRow base strict block c hclosed p
    exact hrow.trans (ih (hrow.closed hclosed))

theorem Changes.loadPrefs (hclosed : c.scopes.Closed base) (pattern : Text) :
    Changes base strict block c (c.loadPrefs pattern).2 := by
  rw [Console.loadPrefs, Console.loadGlobals]
  split
  · exact .refl c
  · exact .loadRows hclosed _

theorem Changes.clearChildren (c : Console) (set : ObjectRef) :
    Changes base strict block c { c with objects := c.objects.clearChildren set } := by
  rw [Objects.clearChildren]
  generalize (c.objects.get set).children = l
  induction l generalizing c with
  | nil => exact .refl c
  | cons child l ih =>
    exact (Changes.objects (.remove set child)).trans
      (ih { c with objects := (c.objects.removeChild set child).2 })

theorem known_of_findObject? {t : Text} (h : c.findObject? t = some r) : c.objects.Known r := by
  rw [findObject?] at h
  split at h
  · cases h
  · split at h
    · exact .inr (.inl ⟨_, h⟩)
    · obtain ⟨n, -, hn⟩ := Option.bind_eq_some_iff.mp h
      exact .inr (.inr ⟨n, hn⟩)

theorem lt_size_of_datablock? {t : Text} {k : Name} (h : c.datablock? t k = some r) :
    r < c.objects.store.size := by
  obtain ⟨q, -, hr⟩ := Option.bind_eq_some_iff.mp h
  dsimp only at hr
  split at hr
  · rename_i hdatablock
    cases hr
    by_contra hlt
    rw [Objects.get_of_size_le (Nat.le_of_not_lt hlt)] at hdatablock
    simp at hdatablock
  · cases hr

theorem intern_eq (c : Console) (t : Text) :
    c.intern t = ((c.names.intern t).1, { c with names := (c.names.intern t).2 }) := rfl

/-- The names there are once a declaration has looked up its own. -/
def instanceNames (c : Console) (name : Text) : NameTable :=
  (((c.names.intern name).2.intern "SimSet").2.intern "SimGroup").2

def instanceObject (c : Console) (k : Name) (name : Text) (datablock : Bool) (fields : Fields) :
    Object :=
  let names := (c.names.intern name).2
  { cls := k, name := (c.names.intern name).1, fields := fields, datablock := datablock
    isSet := c.classes.derives k (names.intern "SimSet").1
    ownsChildren := c.classes.derives k ((names.intern "SimSet").2.intern "SimGroup").1 }

/-- A declaration fails with nothing changed, gives the datablock that has the name, has nothing to
copy fields from, or makes an object. -/
theorem instantiate_cases (c : Console) (cls name source : Text) (datablock : Bool)
    (args : List Text) :
    (∃ e, c.instantiate cls name source datablock args = (.error e, c)) ∨
    (∃ k r, c.datablock? name k = some r ∧
      c.instantiate cls name source datablock args = (.ok r, c)) ∨
    c.instantiate cls name source datablock args =
      (.error (.noSource source), { c with names := c.instanceNames name }) ∨
    ∃ k fields, c.instantiate cls name source datablock args =
      (.ok c.objects.store.size, { c with
        names := c.instanceNames name
        objects := (c.objects.make (c.instanceObject k name datablock fields)).2 }) := by
  rw [instantiate]
  split
  · exact .inl ⟨_, rfl⟩
  · rename_i k _
    split
    · exact .inl ⟨_, rfl⟩
    · split
      · rename_i r hr
        split at hr
        · exact .inr (.inl ⟨k, r, hr, rfl⟩)
        · cases hr
      · refine .inr (.inr ?_)
        simp only [intern_eq]
        split
        · exact .inr ⟨k, [], rfl⟩
        · split
          · exact .inl rfl
          · exact .inr ⟨k, _, rfl⟩

/-- A declaration makes changes only, and the object it gives has been made. -/
theorem instantiate_spec (base : Nat) (strict : Prop) (block : Option BlockId) (c : Console) (cls name source : Text) (datablock : Bool)
    (args : List Text) : Changes base strict block c (c.instantiate cls name source datablock args).2 ∧
      ∀ r, (c.instantiate cls name source datablock args).1 = .ok r →
        r < (c.instantiate cls name source datablock args).2.objects.store.size := by
  have hgrows : c.names.Grows (c.instanceNames name) :=
    ((NameTable.grows_intern c.names name).trans (NameTable.grows_intern _ "SimSet")).trans
      (NameTable.grows_intern _ "SimGroup")
  have hnames : Changes base strict block c { c with names := c.instanceNames name } :=
    .elsewhere hgrows rfl rfl rfl rfl rfl rfl
  obtain ⟨e, he⟩ | ⟨k, q, hq, he⟩ | he | ⟨k, fields, he⟩ :=
    c.instantiate_cases cls name source datablock args
  · rw [he]
    refine ⟨.refl c, fun r hr => ?_⟩
    cases hr
  · rw [he]
    refine ⟨.refl c, fun r hr => ?_⟩
    obtain rfl : q = r := Except.ok.inj hr
    exact lt_size_of_datablock? hq
  · rw [he]
    refine ⟨hnames, fun r hr => ?_⟩
    cases hr
  · rw [he]
    have hmake : c.objects.Change strict
        (c.objects.make (c.instanceObject k name datablock fields)).2 := .make _ rfl rfl rfl rfl
    refine ⟨hnames.trans (.objects hmake), fun r hr => ?_⟩
    obtain rfl : _ = r := Except.ok.inj hr
    exact Objects.fst_make_lt c.objects _

end Console

/-! ## Computations -/

namespace Run

open Console

variable {base : Nat} {strict : Prop} {block : Option BlockId} {α β : Type} {c c' : Console} {act : Run α}
  {f : α → Run β} {P : α → Console → Prop} {Q : β → Console → Prop}

/-- The computation makes changes only, and its result is as `P` says. -/
def Makes (base : Nat) (strict : Prop) (block : Option BlockId) (c : Console) (act : Run α)
    (P : α → Console → Prop) : Prop :=
  match act c with
  | .ok a c' => Changes base strict block c c' ∧ P a c'
  | .error _ c' => Changes base strict block c c'

theorem Makes.pure {a : α} (h : P a c) : Makes base strict block c (pure a) P := ⟨.refl c, h⟩

theorem Makes.throw (f : Fault) : Makes base strict block c (throw f : Run α) P := Changes.refl c

theorem Makes.bind (h : Makes base strict block c act P)
    (hf : ∀ a c', Changes base strict block c c' → P a c' → Makes base strict block c' (f a) Q) :
    Makes base strict block c (act >>= f) Q := by
  rw [Makes] at h ⊢
  rw [bind_apply]
  cases hact : act c with
  | ok a c' =>
    rw [hact] at h
    have hnext := hf a c' h.1 h.2
    rw [Makes] at hnext
    dsimp only
    cases hgoal : f a c' with
    | ok b c'' =>
      rw [hgoal] at hnext
      exact ⟨h.1.trans hnext.1, hnext.2⟩
    | error e c'' =>
      rw [hgoal] at hnext
      exact h.1.trans hnext
  | error e c' =>
    rw [hact] at h
    exact h

theorem Makes.mono {P' : α → Console → Prop} (h : Makes base strict block c act P)
    (himp : ∀ a c', Changes base strict block c c' → P a c' → P' a c') : Makes base strict block c act P' := by
  rw [Makes] at h ⊢
  split at h
  · exact ⟨h.1, himp _ _ h.1 h.2⟩
  · exact h

theorem Makes.get {f : Console → Run β} (h : Makes base strict block c (f c) Q) :
    Makes base strict block c (get >>= f) Q := h

theorem Makes.ofExcept {x : Except Fault α} (h : ∀ a, x = .ok a → Makes base strict block c (f a) Q) :
    Makes base strict block c (Run.ofExcept x >>= f) Q := by
  cases x with
  | ok a => exact h a rfl
  | error e => exact Changes.refl c

theorem Makes.raise (x : Except Fault α) : Makes base strict block c (Run.ofExcept x) fun _ _ => True := by
  cases x with
  | ok a => exact ⟨.refl c, trivial⟩
  | error e => exact Changes.refl c

theorem Makes.change {g : Console → α × Console} (h : Changes base strict block c (g c).2) :
    Makes base strict block c (Run.change g) fun a c' => (a, c') = g c := ⟨h, rfl⟩

theorem Makes.modify {g : Console → Console} (h : Changes base strict block c (g c)) :
    Makes base strict block c (modify g) fun _ c' => c' = g c := ⟨h, rfl⟩

theorem Makes.any (h : Makes base strict block c act P) : Makes base strict block c act fun _ _ => True :=
  h.mono fun _ _ _ _ => trivial

end Run

end ConsoleScript
