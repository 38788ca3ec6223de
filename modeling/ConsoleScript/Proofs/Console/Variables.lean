import ConsoleScript.Proofs.Console.Tables

/-!
# Operations on the variables of a scope

A scope uses a table: its own, or one it borrows; before its first variable it may use none. What
it shows is a finite map, and every operation on its variables does to that map what it should. It
touches no table but the one in use.
-/

namespace ConsoleScript

/-- An operation on the variables of a scope. A variable is known by its cell. -/
inductive VarOp where
  /-- A spelling is seen somewhere else. -/
  | intern (spelling : Text)
  | add (spelling : Text)
  | assign (cell : Nat) (value : Value)
  | setConstant (cell : Nat) (on : Bool)
  | watch (cell : Nat) (watcher : Text)
  | remove (cell : Nat)
  | delete (pattern : Text)

inductive Answer where
  | done
  | refused
  | cell (c : Nat)
  | told (notices : List Notice)
  | deleted (count : Nat)
  | faulted (fault : Table.Fault)
  deriving DecidableEq

/-- What a history of operations answers, and where it ends. -/
structure Transcript (σ : Type) where
  answers : List Answer
  names : NameTable
  state : σ

/-- Carries out operations one after the other. -/
def runAll {σ ω : Type} (step : NameTable → σ → ω → Answer × NameTable × σ) (names : NameTable)
    (state : σ) : List ω → Transcript σ
  | [] => ⟨[], names, state⟩
  | op :: ops =>
    let (answer, names, state) := step names state op
    let rest := runAll step names state ops
    ⟨answer :: rest.answers, rest.names, rest.state⟩

/-- Two systems whose steps answer alike and stay related answer alike in every history. -/
theorem runAll_simulates {σ τ ω : Type} {step : NameTable → σ → ω → Answer × NameTable × σ}
    {step' : NameTable → τ → ω → Answer × NameTable × τ} {R : NameTable → σ → τ → Prop}
    (hstep : ∀ names s m op, R names s m → (step names s op).1 = (step' names m op).1 ∧
      (step names s op).2.1 = (step' names m op).2.1 ∧
      R (step names s op).2.1 (step names s op).2.2 (step' names m op).2.2)
    {names : NameTable} {s : σ} {m : τ} (h : R names s m) (ops : List ω) :
    (runAll step names s ops).answers = (runAll step' names m ops).answers ∧
      (runAll step names s ops).names = (runAll step' names m ops).names ∧
      R (runAll step names s ops).names (runAll step names s ops).state
        (runAll step' names m ops).state := by
  induction ops generalizing names s m with
  | nil => exact ⟨rfl, rfl, h⟩
  | cons op ops ih =>
    obtain ⟨hanswer, hnames, hrelated⟩ := hstep names s m op h
    obtain ⟨hanswers, hnames', hrelated'⟩ := ih hrelated
    simp only [runAll]
    rw [hnames] at hanswers hnames' hrelated'
    rw [hanswer, hnames]
    exact ⟨congrArg _ hanswers, hnames', hrelated'⟩

namespace Bindings

/-- Assigns to a variable and gives the notifications it fires. A constant refuses. -/
def assign? (b : Bindings) (names : NameTable) (c : Nat) (value : Value) :
    Option (List Notice × Bindings) :=
  match b.vars[c]? with
  | some v =>
    if v.constant then none
    else some (v.watchers.map fun w => ⟨w, names.text v.name, value.toText⟩,
      b.modify c fun v => { v with value := value })
  | none => none

def perform (names : NameTable) (b : Bindings) : VarOp → Answer × NameTable × Bindings
  | .intern spelling => (.done, (names.intern spelling).2, b)
  | .add spelling =>
    match names.intern spelling with
    | (none, names) => (.refused, names, b)
    | (some n, names) => (.cell (b.add n).1, names, (b.add n).2)
  | .assign c value =>
    match b.assign? names c value with
    | some (notices, b) => (.told notices, names, b)
    | none => (.refused, names, b)
  | .setConstant c on => (.done, names, b.modify c fun v => { v with constant := on })
  | .watch c watcher =>
    (.done, names, b.modify c fun v => { v with watchers := v.watchers ++ [watcher] })
  | .remove c =>
    match b.remove? c with
    | some b => (.done, names, b)
    | none => (.refused, names, b)
  | .delete pattern => (.deleted (b.delete names pattern).1, names, (b.delete names pattern).2)

end Bindings

namespace Scopes

variable {s s' : Scopes} {id o j : ScopeId} {b b' : Bindings} {t t' : Table} {n : Name} {c : Nat}
  {f : Scope → Scope} {names : NameTable}

/-- A variable of the table that a scope uses or is going to use. -/
def ref (s : Scopes) (id : ScopeId) (c : Nat) : VarRef := ⟨(s.get id).table.getD id, c⟩

def perform (id : ScopeId) (names : NameTable) (s : Scopes) : VarOp → Answer × NameTable × Scopes
  | .intern spelling => (.done, (names.intern spelling).2, s)
  | .add spelling =>
    match names.intern spelling with
    | (none, names) => (.refused, names, s)
    | (some n, names) =>
      match s.tryAdd id n with
      | (.ok r, s) => (.cell r.cell, names, s)
      | (.error fault, s) => (.faulted fault, names, s)
  | .assign c value =>
    match s.assign? names (s.ref id c) value with
    | some (notices, s) => (.told notices, names, s)
    | none => (.refused, names, s)
  | .setConstant c on => (.done, names, s.setConstant (s.ref id c) on)
  | .watch c watcher => (.done, names, s.watch (s.ref id c) watcher)
  | .remove c =>
    match s.remove? id (s.ref id c) with
    | some s => (.done, names, s)
    | none => (.refused, names, s)
  | .delete pattern =>
    (.deleted (s.deleteMatching names id pattern).1, names, (s.deleteMatching names id pattern).2)

/-! ## Reading after a change -/

def Has (s : Scopes) : ScopeId → Prop
  | .globals => True
  | .frame i => i < s.frames.size

theorem get_modify_self (h : s.Has id) : (s.modify id f).get id = f (s.get id) := by
  cases id with
  | globals => rfl
  | frame i =>
    have hi : i < s.frames.size := h
    show ((s.frames.modify i f)[i]?).getD {} = f ((s.frames[i]?).getD {})
    rw [Array.getElem?_modify, if_pos rfl, Array.getElem?_eq_getElem hi]
    rfl

theorem get_modify_ne (h : j ≠ id) : (s.modify id f).get j = s.get j := by
  cases id with
  | globals =>
    cases j with
    | globals => exact absurd rfl h
    | frame i => rfl
  | frame i =>
    cases j with
    | globals => rfl
    | frame k =>
      have hne : i ≠ k := fun he => h (by rw [he])
      simp [modify, get, Array.getElem?_modify, hne]

theorem get_modify_cases (s : Scopes) (id : ScopeId) (f : Scope → Scope) (j : ScopeId) :
    (s.modify id f).get j = s.get j ∨ j = id ∧ (s.modify id f).get j = f (s.get j) := by
  by_cases hj : j = id
  · subst hj
    cases j with
    | globals => exact .inr ⟨rfl, rfl⟩
    | frame i =>
      by_cases hi : i < s.frames.size
      · have hhas : s.Has (.frame i) := hi
        exact .inr ⟨rfl, get_modify_self hhas⟩
      · left
        simp [modify, get, hi]
  · exact .inl (get_modify_ne hj)

@[simp] theorem initial_modify : (s.modify id f).initial = s.initial := by
  cases id <;> rfl

@[simp] theorem depth_modify : (s.modify id f).depth = s.depth := by
  cases id <;> rfl

@[simp] theorem size_modify : (s.modify id f).frames.size = s.frames.size := by
  cases id <;> simp [modify]

theorem has_congr (h : s'.frames.size = s.frames.size) : s'.Has j ↔ s.Has j := by
  cases j with
  | globals => exact Iff.rfl
  | frame i => rw [Has, Has, h]

/-! ## What a scope shows -/

/-- The finite map that a scope shows. Without a table it shows nothing, and the table it has kept
for later is empty. -/
inductive Shows (s : Scopes) (id : ScopeId) : Bindings → Prop where
  | used {o : ScopeId} {t : Table} {b : Bindings} (has : s.Has o)
      (table : (s.get id).table = some o) (own : (s.get o).own = some t) (holds : t.Holds b) :
      Shows s id b
  | unused (has : s.Has id) (table : (s.get id).table = none)
      (own : ∀ t, (s.get id).own = some t → t.Holds {}) : Shows s id {}

structure Changes (s : Scopes) (id : ScopeId) (s' : Scopes) : Prop where
  initial : s'.initial = s.initial
  depth : s'.depth = s.depth
  size : s'.frames.size = s.frames.size
  other : ∀ j, j ≠ (s.ref id 0).owner → s'.get j = s.get j
  label : ∀ j, (s'.get j).label = (s.get j).label
  table : ∀ j, (s'.get j).table = (s.get j).table ∨
    j = id ∧ (s.get id).table = none ∧ (s'.get id).table = some id

theorem Changes.refl (s : Scopes) (id : ScopeId) : Changes s id s :=
  ⟨rfl, rfl, rfl, fun _ _ => rfl, fun _ => rfl, fun _ => .inl rfl⟩

theorem Changes.owner_eq (h : Changes s id s') : (s'.ref id 0).owner = (s.ref id 0).owner := by
  show (s'.get id).table.getD id = (s.get id).table.getD id
  rcases h.table id with he | ⟨-, hnone, hsome⟩
  · rw [he]
  · rw [hnone, hsome]
    rfl

theorem Changes.trans {s₁ s₂ s₃ : Scopes} (h : Changes s₁ id s₂) (h' : Changes s₂ id s₃) :
    Changes s₁ id s₃ where
  initial := h'.initial.trans h.initial
  depth := h'.depth.trans h.depth
  size := h'.size.trans h.size
  other j hj := (h'.other j (h.owner_eq ▸ hj)).trans (h.other j hj)
  label j := (h'.label j).trans (h.label j)
  table j := by
    rcases h'.table j with he' | ⟨rfl, hnone', hsome'⟩
    · rw [he']
      rcases h.table j with he | ⟨rfl, hnone, hsome⟩
      · exact .inl he
      · exact .inr ⟨rfl, hnone, he'.trans hsome⟩
    · rcases h.table j with he | ⟨-, -, hsome⟩
      · exact .inr ⟨rfl, he ▸ hnone', hsome'⟩
      · rw [hsome] at hnone'
        cases hnone'

theorem changes_own (s : Scopes) (id : ScopeId) (own : Scope → Option Table) :
    Changes s id (s.modify (s.ref id 0).owner fun sc => { sc with own := own sc }) := by
  have hget := get_modify_cases s (s.ref id 0).owner fun sc => { sc with own := own sc }
  refine ⟨initial_modify, depth_modify, size_modify, fun j hj => get_modify_ne hj, ?_, ?_⟩
  · intro j
    rcases hget j with he | ⟨-, he⟩
    · rw [he]
    · rw [he]
  · intro j
    rcases hget j with he | ⟨-, he⟩
    · exact .inl (by rw [he])
    · exact .inl (by rw [he])

theorem changes_take (hnone : (s.get id).table = none) (own : Scope → Option Table) :
    Changes s id (s.modify id fun sc => { sc with own := own sc, table := some id }) := by
  have howner : (s.ref id 0).owner = id := by
    show (s.get id).table.getD id = id
    rw [hnone]
    rfl
  have hget := get_modify_cases s id fun sc => { sc with own := own sc, table := some id }
  refine ⟨initial_modify, depth_modify, size_modify, ?_, ?_, ?_⟩
  · intro j hj
    exact get_modify_ne (howner ▸ hj)
  · intro j
    rcases hget j with he | ⟨-, he⟩
    · rw [he]
    · rw [he]
  · intro j
    rcases hget j with he | ⟨rfl, he⟩
    · exact .inl (by rw [he])
    · exact .inr ⟨rfl, hnone, by rw [he]⟩

theorem shows_own (own : Scope → Option Table) (has : s.Has o) (table : (s.get id).table = some o)
    (hown : own (s.get o) = some t) (holds : t.Holds b) :
    Shows (s.modify o fun sc => { sc with own := own sc }) id b := by
  refine .used ((has_congr size_modify).mpr has) ?_ ?_ holds
  · rcases get_modify_cases s o (fun sc => { sc with own := own sc }) id with he | ⟨-, he⟩
    · rw [he, table]
    · rw [he]
      exact table
  · rw [get_modify_self has]
    exact hown

theorem ref_of_table (table : (s.get id).table = some o) (c : Nat) : s.ref id c = ⟨o, c⟩ := by
  rw [ref, table]
  rfl

theorem ref_of_no_table (table : (s.get id).table = none) (c : Nat) : s.ref id c = ⟨id, c⟩ := by
  rw [ref, table]
  rfl

/-! ## Operations -/

theorem eq_of_assign? {names : NameTable} {r : VarRef} {value : Value} {notices : List Notice}
    (h : s.assign? names r value = some (notices, s')) :
    s' = s.modifyVariable r fun v => { v with value := value } := by
  rw [assign?] at h
  split at h
  · split at h
    · cases h
    · cases h
      rfl
  · cases h

theorem Shows.find?_eq (h : s.Shows id b) (n : Name) :
    s.find? id (some n) = (b.bound[n]?).map (s.ref id) := by
  unfold find?
  cases h with
  | @used o t _ has table own holds =>
    rw [← holds.find?_eq]
    simp only [table, own, Option.bind_eq_bind, Option.bind_some]
    cases t.find? n with
    | none => rfl
    | some c => exact congrArg some (ref_of_table table c).symm
  | unused has table own =>
    rw [table]
    simp

theorem Shows.var?_eq (h : s.Shows id b) (c : Nat) : s.var? (s.ref id c) = b.vars[c]? := by
  unfold var?
  cases h with
  | used has table own holds =>
    rw [ref_of_table table, own, ← holds.cells]
    rfl
  | unused has table own =>
    rw [ref_of_no_table table]
    cases hown : (s.get id).own with
    | none => rfl
    | some t =>
      rw [← (own t hown).cells]
      rfl

theorem Shows.count_eq (h : s.Shows id b) : s.count id = b.bound.size := by
  unfold count table?
  cases h with
  | used has table own holds =>
    rw [table, Option.bind_some, own, holds.size]
  | unused has table own =>
    rw [table]
    exact Std.ExtTreeMap.size_empty.symm

theorem Shows.modifyVariable (h : s.Shows id b) (c : Nat) {f : Variable → Variable}
    (hname : ∀ v, (f v).name = v.name) :
    Shows (s.modifyVariable (s.ref id c) f) id (b.modify c f) ∧
      Changes s id (s.modifyVariable (s.ref id c) f) := by
  refine ⟨?_, changes_own s id fun sc => sc.own.map _⟩
  cases h with
  | used has table own holds =>
    rw [ref_of_table table]
    refine shows_own (fun sc => sc.own.map _) has table ?_ (holds.modify c f hname)
    rw [own]
    rfl
  | unused has table own =>
    rw [ref_of_no_table table]
    have hempty : Bindings.modify {} c f = {} := by simp [Bindings.modify]
    rw [hempty]
    have hget : (s.modifyVariable ⟨id, c⟩ f).get id = _ := get_modify_self has
    refine .unused ((has_congr size_modify).mpr has) (by rw [hget, table]) ?_
    rw [hget]
    intro t ht
    obtain ⟨t₀, ht₀, rfl⟩ := Option.map_eq_some_iff.mp ht
    have hkept := (own t₀ ht₀).modify c f hname
    rwa [hempty] at hkept

theorem Shows.ensureTable (h : s.Shows id b) (hinitial : 0 < s.initial) :
    Shows (s.ensureTable id).2 id b ∧ Changes s id (s.ensureTable id).2 ∧
      ((s.ensureTable id).2.get id).table = some (s.ensureTable id).1 := by
  unfold Scopes.ensureTable
  cases h with
  | used has table own holds =>
    rw [table]
    exact ⟨.used has table own holds, Changes.refl s id, table⟩
  | unused has table own =>
    have holds : ((s.get id).own.getD (.ofSize s.initial)).Holds {} := by
      cases hown : (s.get id).own with
      | none => exact Table.holds_ofSize hinitial
      | some t => exact own t hown
    rw [table]
    dsimp only
    have hget : (s.modify id fun sc => { sc with
        own := some (sc.own.getD (.ofSize s.initial)), table := some id }).get id = _ :=
      get_modify_self has
    refine ⟨.used ((has_congr size_modify).mpr has) ?_ ?_ holds, ?_, ?_⟩
    · rw [hget]
    · rw [hget]
    · exact changes_take table fun sc => some (sc.own.getD (.ofSize s.initial))
    · rw [hget]

theorem Shows.add (h : s.Shows id b) (hinitial : 0 < s.initial) (n : Name) :
    (s.add id n).1.cell = (b.add n).1 ∧ Shows (s.add id n).2 id (b.add n).2 ∧
      Changes s id (s.add id n).2 := by
  unfold Scopes.add
  rw [h.find?_eq]
  cases hn : b.bound[n]? with
  | some c =>
    have hadd : b.add n = (c, b) := by rw [Bindings.add, hn]
    rw [hadd]
    exact ⟨rfl, h, Changes.refl s id⟩
  | none =>
    obtain ⟨hshows, hchanges, htable⟩ := h.ensureTable hinitial
    revert hshows hchanges htable
    rcases s.ensureTable id with ⟨o, s₁⟩
    intro hshows hchanges htable
    dsimp only [Option.map_none] at hshows hchanges htable ⊢
    cases hshows with
    | @used o' t _ has table own holds =>
      obtain rfl : o = o' := Option.some.inj (htable.symm.trans table)
      obtain ⟨hcell, hcreate⟩ := holds.create hn
      have howner : (s₁.ref id 0).owner = o := by rw [ref_of_table table]
      have hown := changes_own s₁ id fun _ => some (t.create n).2
      rw [howner] at hown
      rw [own]
      exact ⟨hcell, shows_own (fun _ => some (t.create n).2) has table rfl hcreate,
        hchanges.trans hown⟩
    | unused has table own =>
      rw [table] at htable
      cases htable

/-- Removing a variable unbinds its name, or is refused when the map has no such binding. -/
theorem Shows.remove? (h : s.Shows id b) (c : Nat) :
    match b.remove? c with
    | some b' => ∃ s', s.remove? id (s.ref id c) = some s' ∧ Shows s' id b' ∧ Changes s id s'
    | none => s.remove? id (s.ref id c) = none := by
  cases h with
  | @used o t _ has table own holds =>
    have hremove : s.remove? id (s.ref id c) =
        if t.isLinked c then some (s.modifyTable o (·.unlink c)) else none := by
      rw [ref_of_table table]
      unfold Scopes.remove?
      simp only [table, own, Option.bind_eq_bind, Option.bind_some, beq_self_eq_true, Bool.true_and]
      rfl
    rw [hremove]
    unfold Bindings.remove?
    cases hv : b.vars[c]? with
    | none =>
      have hlinked : t.isLinked c = false := by rw [Table.isLinked, holds.cells, hv]
      rw [hlinked]
      rfl
    | some v =>
      dsimp only
      by_cases hbound : b.bound[v.name]? = some c
      · rw [if_pos hbound, if_pos ((holds.isLinked_eq hv).mpr hbound)]
        refine ⟨_, rfl, ?_, ?_⟩
        · refine shows_own (fun sc => sc.own.map (·.unlink c)) has table ?_ (holds.unlink hv hbound)
          rw [own]
          rfl
        · have hown := changes_own s id fun sc => sc.own.map (·.unlink c)
          rwa [ref_of_table table] at hown
      · rw [if_neg hbound, if_neg (mt (holds.isLinked_eq hv).mp hbound)]
  | unused has table own =>
    have hmissing : Bindings.remove? {} c = none := by simp [Bindings.remove?]
    rw [hmissing]
    unfold Scopes.remove?
    rw [table]
    rfl

/-! ## Variables that match a pattern -/

/-- What a cell contributes to the variables that match a pattern, with its place in the order. -/
def hit (names : NameTable) (o : ScopeId) (t : Table) (pattern : Text) (c : Nat) :
    Option (Text × VarRef × Variable) :=
  (t.cells[c]?).bind fun v =>
    if Glob.matches? pattern (names.text v.name) then
      some (Text.lower (names.text v.name), ⟨o, c⟩, v)
    else none

theorem matching_eq (table : (s.get id).table = some o) (own : (s.get o).own = some t)
    (pattern : Text) :
    s.matching names id pattern = ((t.linked.filterMap (hit names o t pattern)).mergeSort
      fun x y => Text.le x.1 y.1).map (·.2) := by
  unfold matching
  rw [table]
  dsimp only
  rw [own]
  rfl

theorem hit_eq_some {x : Text × VarRef × Variable} {pattern : Text} :
    hit names o t pattern c = some x ↔ t.cells[c]? = some x.2.2 ∧ x.2.1 = ⟨o, c⟩ ∧
      x.1 = Text.lower (names.text x.2.2.name) ∧
      Glob.matches? pattern (names.text x.2.2.name) = true := by
  obtain ⟨key, r, v⟩ := x
  unfold hit
  cases t.cells[c]? with
  | none => simp
  | some w =>
    by_cases hmatch : Glob.matches? pattern (names.text w.name) = true
    · simp only [Option.bind_some, hmatch, if_true, Option.some.injEq, Prod.mk.injEq]
      constructor
      · rintro ⟨rfl, rfl, rfl⟩
        exact ⟨rfl, rfl, rfl, hmatch⟩
      · rintro ⟨rfl, rfl, rfl, -⟩
        exact ⟨rfl, rfl, rfl⟩
    · simp only [Option.bind_some, hmatch, Option.some.injEq]
      constructor
      · intro h
        cases h
      · rintro ⟨rfl, -, -, h⟩
        exact absurd h hmatch

theorem Shows.mem_matching (h : s.Shows id b) (pattern : Text) {r : VarRef} {v : Variable} :
    (r, v) ∈ s.matching names id pattern ↔ ∃ c, r = s.ref id c ∧ b.vars[c]? = some v ∧
      b.bound[v.name]? = some c ∧ Glob.matches? pattern (names.text v.name) = true := by
  cases h with
  | @used o t _ has table own holds =>
    simp only [matching_eq table own, List.mem_map, (List.mergeSort_perm _ _).mem_iff,
      List.mem_filterMap, hit_eq_some, ref_of_table table]
    constructor
    · rintro ⟨⟨key, r', v'⟩, ⟨c, hc, hcell, hr, -, hmatch⟩, he⟩
      cases he
      rw [holds.mem_linked_iff] at hc
      rw [holds.cells] at hcell
      obtain ⟨w, hw, hbound⟩ := hc
      obtain rfl : v = w := Option.some.inj (hcell.symm.trans hw)
      exact ⟨c, hr, hcell, hbound, hmatch⟩
    · rintro ⟨c, rfl, hv, hbound, hmatch⟩
      have hc := holds.mem_linked_iff.mpr ⟨v, hv, hbound⟩
      refine ⟨(Text.lower (names.text v.name), ⟨o, c⟩, v), ⟨c, hc, ?_, rfl, rfl, hmatch⟩, rfl⟩
      rw [holds.cells, hv]
  | unused has table own =>
    unfold matching
    rw [table]
    simp

theorem Shows.matching_names (h : s.Shows id b) (pattern : Text) :
    (s.matching names id pattern).Pairwise fun x y => x.2.name ≠ y.2.name := by
  cases h with
  | @used o t _ has table own holds =>
    rw [matching_eq table own, List.pairwise_map]
    have hsymm (x y : Text × VarRef × Variable) (hne : x.2.2.name ≠ y.2.2.name) :
        y.2.2.name ≠ x.2.2.name := Ne.symm hne
    rw [(List.mergeSort_perm _ _).pairwise_iff (hsymm _ _), List.pairwise_filterMap]
    refine holds.nodup.imp_of_mem ?_
    intro c d hc hd hne x hx y hy hname
    rw [hit_eq_some] at hx hy
    obtain ⟨v, hv, hbound⟩ := holds.mem_linked_iff.mp hc
    obtain ⟨w, hw, hbound'⟩ := holds.mem_linked_iff.mp hd
    rw [holds.cells] at hx hy
    obtain rfl : v = x.2.2 := Option.some.inj (hv.symm.trans hx.1)
    obtain rfl : w = y.2.2 := Option.some.inj (hw.symm.trans hy.1)
    rw [hname, hbound'] at hbound
    exact hne (Option.some.inj hbound).symm
  | unused has table own =>
    unfold matching
    rw [table]
    exact .nil

theorem Shows.name_eq (h : s.Shows id b) (hbound : b.bound[n]? = some c) :
    ∃ v, b.vars[c]? = some v ∧ v.name = n := by
  cases h with
  | used has table own holds => exact holds.name_eq hbound
  | unused has table own =>
    rw [Std.ExtTreeMap.getElem?_empty] at hbound
    cases hbound

/-- Removes one of the variables listed, unless it is constant, and counts it. -/
def deleteOne (id : ScopeId) (x : Nat × Scopes) (y : VarRef × Variable) : Nat × Scopes :=
  if y.2.constant then x
  else match x.2.remove? id y.1 with
    | some s => (x.1 + 1, s)
    | none => x

theorem deleteMatching_eq (pattern : Text) : s.deleteMatching names id pattern =
    (s.matching names id pattern).foldl (deleteOne id) (0, s) := rfl

def Deleted (listed : List (VarRef × Variable)) (n : Name) : Prop :=
  ∃ x ∈ listed, x.2.name = n ∧ x.2.constant = false

theorem deleted_cons {y : VarRef × Variable} {listed : List (VarRef × Variable)} :
    Deleted (y :: listed) n ↔ y.2.name = n ∧ y.2.constant = false ∨ Deleted listed n := by
  simp [Deleted]

/-- Removing listed variables one by one unbinds the names of those that are not constant. -/
theorem Shows.foldl_deleteOne (listed : List (VarRef × Variable)) (h : s.Shows id b)
    (hlisted : ∀ x ∈ listed, ∃ c, x.1 = s.ref id c ∧ b.vars[c]? = some x.2 ∧
      b.bound[x.2.name]? = some c)
    (hnames : listed.Pairwise fun x y => x.2.name ≠ y.2.name) (k : Nat) :
    ∃ b', Shows (listed.foldl (deleteOne id) (k, s)).2 id b' ∧
      Changes s id (listed.foldl (deleteOne id) (k, s)).2 ∧ b'.vars = b.vars ∧
      (∀ n, Deleted listed n → b'.bound[n]? = none) ∧
      (∀ n, ¬ Deleted listed n → b'.bound[n]? = b.bound[n]?) ∧
      (listed.foldl (deleteOne id) (k, s)).1 + b'.bound.size = k + b.bound.size := by
  induction listed generalizing s b k with
  | nil =>
    refine ⟨b, h, Changes.refl s id, rfl, ?_, fun _ _ => rfl, rfl⟩
    rintro n ⟨x, hx, -⟩
    cases hx
  | cons y listed ih =>
    obtain ⟨hne, hnames⟩ := List.pairwise_cons.mp hnames
    obtain ⟨c, hr, hv, hbound⟩ := hlisted y List.mem_cons_self
    have hrest : ∀ x ∈ listed, ∃ c, x.1 = s.ref id c ∧ b.vars[c]? = some x.2 ∧
        b.bound[x.2.name]? = some c := fun x hx => hlisted x (List.mem_cons_of_mem y hx)
    rw [List.foldl_cons]
    by_cases hconstant : y.2.constant = true
    · have hskip : deleteOne id (k, s) y = (k, s) := by rw [deleteOne, if_pos hconstant]
      have hdeleted (n : Name) : Deleted (y :: listed) n ↔ Deleted listed n := by
        simp [deleted_cons, hconstant]
      rw [hskip]
      simp only [hdeleted]
      exact ih h hrest hnames k
    · have hremove := h.remove? c
      have hb : b.remove? c = some { b with bound := b.bound.erase y.2.name } := by
        rw [Bindings.remove?, hv]
        exact if_pos hbound
      rw [hb] at hremove
      obtain ⟨s₁, hs₁, hshows, hchanges⟩ := hremove
      have hone : deleteOne id (k, s) y = (k + 1, s₁) := by
        rw [deleteOne, if_neg hconstant, hr, hs₁]
      rw [hone]
      -- The names listed are different, so the rest is bound as before.
      have hkept : ∀ x ∈ listed, ∃ c, x.1 = s₁.ref id c ∧ b.vars[c]? = some x.2 ∧
          (b.bound.erase y.2.name)[x.2.name]? = some c := by
        intro x hx
        obtain ⟨d, hr', hv', hbound'⟩ := hrest x hx
        refine ⟨d, ?_, hv', ?_⟩
        · rw [hr']
          exact congrArg (VarRef.mk · d) hchanges.owner_eq.symm
        · rw [Std.ExtTreeMap.getElem?_erase, if_neg (by simpa using hne x hx), hbound']
      obtain ⟨b', hshows', hchanges', hvars, hgone, hstays, hsize⟩ := ih hshows hkept hnames (k + 1)
      refine ⟨b', hshows', hchanges.trans hchanges', hvars, ?_, ?_, ?_⟩
      · intro n hn
        by_cases hlater : Deleted listed n
        · exact hgone n hlater
        · obtain ⟨rfl, -⟩ := (deleted_cons.mp hn).resolve_right hlater
          rw [hstays _ hlater]
          exact Std.ExtTreeMap.getElem?_erase_self
      · intro n hn
        rw [deleted_cons, not_or] at hn
        have hother : y.2.name ≠ n := fun hname => hn.1 ⟨hname, by simpa using hconstant⟩
        rw [hstays n hn.2]
        show (b.bound.erase y.2.name)[n]? = b.bound[n]?
        rw [Std.ExtTreeMap.getElem?_erase, if_neg (by simpa using hother)]
      · have hsmaller := Bindings.size_erase hbound
        rw [hsize]
        show k + 1 + (b.bound.erase y.2.name).size = k + b.bound.size
        omega

/-- Deleting by pattern unbinds exactly the names that match, except those of constants, and counts
them. -/
theorem Shows.deleteMatching (h : s.Shows id b) (names : NameTable) (pattern : Text) :
    (s.deleteMatching names id pattern).1 = (b.delete names pattern).1 ∧
      Shows (s.deleteMatching names id pattern).2 id (b.delete names pattern).2 ∧
      Changes s id (s.deleteMatching names id pattern).2 := by
  have hlisted : ∀ x ∈ s.matching names id pattern, ∃ c, x.1 = s.ref id c ∧
      b.vars[c]? = some x.2 ∧ b.bound[x.2.name]? = some c := by
    rintro ⟨r, v⟩ hx
    obtain ⟨c, hr, hv, hbound, -⟩ := (h.mem_matching pattern).mp hx
    exact ⟨c, hr, hv, hbound⟩
  obtain ⟨b', hshows, hchanges, hvars, hgone, hstays, hsize⟩ :=
    h.foldl_deleteOne _ hlisted (h.matching_names pattern) 0
  rw [← deleteMatching_eq] at hshows hchanges hsize
  have hbound : b'.bound = (b.delete names pattern).2.bound := by
    apply Std.ExtTreeMap.ext_getElem?
    intro n
    show b'.bound[n]? = (b.bound.filter fun n c => !b.isDoomed names pattern n c)[n]?
    rw [Std.ExtTreeMap.getElem?_filter']
    cases hn : b.bound[n]? with
    | none =>
      by_cases hdeleted : Deleted (s.matching names id pattern) n
      · exact hgone n hdeleted
      · exact (hstays n hdeleted).trans hn
    | some c =>
      obtain ⟨v, hv, rfl⟩ := h.name_eq hn
      have hdoomed : b.isDoomed names pattern v.name c = true ↔
          Deleted (s.matching names id pattern) v.name := by
        simp only [Bindings.isDoomed, hv, Option.any_some, Bool.and_eq_true, Bool.not_eq_true']
        constructor
        · rintro ⟨hmatch, hvariable⟩
          exact ⟨(s.ref id c, v), (h.mem_matching pattern).mpr ⟨c, rfl, hv, hn, hmatch⟩, rfl,
            hvariable⟩
        · rintro ⟨⟨r, w⟩, hmem, hname, hvariable⟩
          obtain ⟨d, -, hw, hbound, hmatch⟩ := (h.mem_matching pattern).mp hmem
          dsimp only at hname hvariable
          rw [hname, hn] at hbound
          cases hbound
          rw [hv] at hw
          cases hw
          exact ⟨hmatch, hvariable⟩
      by_cases hdeleted : Deleted (s.matching names id pattern) v.name
      · rw [hgone _ hdeleted, Option.filter_some_neg (by simpa using hdoomed.mpr hdeleted)]
      · rw [hstays _ hdeleted, hn, Option.filter_some_pos (by simpa using mt hdoomed.mp hdeleted)]
  have hb' : b' = (b.delete names pattern).2 := by
    cases b'
    cases hvars
    cases hbound
    rfl
  subst hb'
  refine ⟨?_, hshows, hchanges⟩
  show _ = b.bound.size - (b.delete names pattern).2.bound.size
  omega

theorem tryAdd_eq (hfault : s.addFault? id = none) (n : Name) :
    s.tryAdd id n = (.ok (s.add id n).1, (s.add id n).2) := by
  rw [tryAdd, hfault]

theorem answer_add_faulted {fault : Table.Fault} {names' : NameTable} {spelling : Text}
    (hintern : names.intern spelling = (some n, names')) (h : s.addFault? id = some fault) :
    (perform id names s (.add spelling)).1 = .faulted fault := by
  have hadd : (s.tryAdd id n).1 = .error fault := by
    rw [tryAdd, h]
    cases fault with
    | tooLarge => rfl
    | zeroDivide =>
      dsimp only
      split <;> rfl
  unfold perform
  dsimp only
  rw [hintern]
  dsimp only
  split
  · rename_i heq
    rw [heq] at hadd
    cases hadd
  · rename_i heq
    rw [heq] at hadd
    cases hadd
    rfl

/-- Unless the number of buckets forbids it, every operation does to the map that a scope shows what
it should, answers accordingly, and leaves all other tables alone. -/
theorem Shows.perform (h : s.Shows id b) (hinitial : 0 < s.initial) (names : NameTable) (op : VarOp)
    (hfault : ∀ t, op = .add t → s.addFault? id = none) :
    (Scopes.perform id names s op).1 = (Bindings.perform names b op).1 ∧
      (Scopes.perform id names s op).2.1 = (Bindings.perform names b op).2.1 ∧
      Shows (Scopes.perform id names s op).2.2 id (Bindings.perform names b op).2.2 ∧
      Changes s id (Scopes.perform id names s op).2.2 := by
  cases op with
  | intern spelling => exact ⟨rfl, rfl, h, Changes.refl s id⟩
  | add spelling =>
    unfold Scopes.perform Bindings.perform
    dsimp only
    rcases names.intern spelling with ⟨_ | n, names'⟩
    · exact ⟨rfl, rfl, h, Changes.refl s id⟩
    · obtain ⟨hcell, hshows, hchanges⟩ := h.add hinitial n
      dsimp only
      rw [tryAdd_eq (hfault spelling rfl)]
      exact ⟨congrArg Answer.cell hcell, rfl, hshows, hchanges⟩
  | assign c value =>
    unfold Scopes.perform Bindings.perform assign? Bindings.assign?
    dsimp only
    rw [h.var?_eq]
    cases b.vars[c]? with
    | none => exact ⟨rfl, rfl, h, Changes.refl s id⟩
    | some v =>
      dsimp only
      by_cases hconstant : v.constant = true
      · rw [if_pos hconstant, if_pos hconstant]
        exact ⟨rfl, rfl, h, Changes.refl s id⟩
      · rw [if_neg hconstant, if_neg hconstant]
        obtain ⟨hshows, hchanges⟩ := h.modifyVariable c (f := fun v => { v with value := value })
          fun _ => rfl
        exact ⟨rfl, rfl, hshows, hchanges⟩
  | setConstant c on =>
    obtain ⟨hshows, hchanges⟩ := h.modifyVariable c (f := fun v => { v with constant := on })
      fun _ => rfl
    exact ⟨rfl, rfl, hshows, hchanges⟩
  | watch c watcher =>
    obtain ⟨hshows, hchanges⟩ := h.modifyVariable c
      (f := fun v => { v with watchers := v.watchers ++ [watcher] }) fun _ => rfl
    exact ⟨rfl, rfl, hshows, hchanges⟩
  | remove c =>
    unfold Scopes.perform Bindings.perform
    dsimp only
    have hremove := h.remove? c
    cases hb : b.remove? c with
    | some b' =>
      rw [hb] at hremove
      obtain ⟨s', hs', hshows, hchanges⟩ := hremove
      rw [hs']
      exact ⟨rfl, rfl, hshows, hchanges⟩
    | none =>
      rw [hb] at hremove
      rw [show s.remove? id (s.ref id c) = none from hremove]
      exact ⟨rfl, rfl, h, Changes.refl s id⟩
  | delete pattern =>
    obtain ⟨hcount, hshows, hchanges⟩ := h.deleteMatching names pattern
    exact ⟨congrArg Answer.deleted hcount, rfl, hshows, hchanges⟩

theorem initial_ofBuckets (buckets : Int) : 0 < (ofBuckets buckets).initial := by
  unfold ofBuckets
  dsimp only
  split
  · exact Nat.succ_pos _
  · omega

/-! ## Emptying a scope -/

theorem get_reset (s : Scopes) (id : ScopeId) (has : s.Has id) : (s.reset id).get id =
    { own := if (s.get id).table == some id then (s.get id).own.map Table.reset
        else (s.get id).own } := by
  rw [reset, get_modify_self has]

/-- A scope that is emptied uses no table, and the one it owns is empty. -/
theorem own_reset (has : s.Has id) (hown : ∀ t, (s.get id).own = some t → ∃ b, t.Holds b)
    (hspare : (s.get id).table ≠ some id → ∀ t, (s.get id).own = some t → t.Holds {}) :
    ∀ t, ((s.reset id).get id).own = some t → t.Holds {} := by
  intro t ht
  rw [get_reset s id has] at ht
  dsimp only at ht
  by_cases htable : (s.get id).table = some id
  · rw [htable, if_pos (beq_self_eq_true _)] at ht
    obtain ⟨t₀, ht₀, rfl⟩ := Option.map_eq_some_iff.mp ht
    obtain ⟨b, holds⟩ := hown t₀ ht₀
    exact holds.reset
  · rw [if_neg (by simpa using htable)] at ht
    exact hspare htable t ht

end Scopes
end ConsoleScript
