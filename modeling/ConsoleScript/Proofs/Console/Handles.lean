import ConsoleScript.Proofs.Console.Frames

/-!
# Remembered variables

A variable that was looked up can be remembered and removed later, from any scope. As long as its
table was not emptied, it is removed exactly where it is shown, and nothing else goes with it.
Afterwards the removal is refused, unless the place of the variable has been taken by a later one or
was cleared and is compared with a table whose stamp is zero.
-/

namespace ConsoleScript

/-! ## Operations on scopes -/

/-- An operation on the stack of frames, on the variables of a scope, or on a scope as a whole. A
scope need not be live. -/
inductive ScopeOp where
  | push (name : Option Name) (ns : Option Nat)
  | pushShared (i : Int)
  | pop
  | setCode (id : ScopeId) (code : Nat) (ip : UInt32)
  | on (id : ScopeId) (op : VarOp)
  | reset (id : ScopeId)
  | removeHeld (id : ScopeId) (h : VarHandle)

namespace Scopes

variable {s s' s'' : Scopes} {id o j : ScopeId} {t : Table} {names : NameTable}
  {e e' : ScopeId → Prop}

/-- Carries out an operation on scopes. -/
def performScope (names : NameTable) (s : Scopes) : ScopeOp → Answer × NameTable × Scopes
  | .push name ns => (.done, names, (s.push name ns).2)
  | .pushShared i =>
    match s.tryPushShared i with
    | (.ok _, s) => (.done, names, s)
    | (.error fault, s) => (.faulted fault, names, s)
  | .pop => (.done, names, s.pop)
  | .setCode id code ip => (.done, names, s.setCode id code ip)
  | .on id op => perform id names s op
  | .reset id => (.done, names, s.reset id)
  | .removeHeld id h =>
    match s.removeHeld id h with
    | .removed s => (.done, names, s)
    | _ => (.refused, names, s)

/-- Does the operation empty the table a scope owns? Only the scope itself can do so, while it uses
that table. -/
def Empties (s : Scopes) : ScopeOp → ScopeId → Prop
  | .reset id, o => o = id ∧ (s.get o).table = some o
  | .pop, o => 0 < s.depth ∧ o = .frame (s.depth - 1) ∧ (s.get o).table = some o
  | _, _ => False

/-- Is the table a scope owns emptied in the course of the operations? -/
def EmptiedBy (s : Scopes) (names : NameTable) : List ScopeOp → ScopeId → Prop
  | [], _ => False
  | op :: ops, o =>
    s.Empties op o ∨ (performScope names s op).2.2.EmptiedBy (performScope names s op).2.1 ops o

theorem removeHeld_eq_removed {h : VarHandle} (hs : s.removeHeld id h = .removed s') :
    s.remove? id h.ref = some s' := by
  rw [removeHeld] at hs
  split at hs
  · cases hs
  · split at hs
    · cases hs
    · split at hs <;> cases hs
    · split at hs
      · split at hs
        · cases hs
          assumption
        · cases hs
      · cases hs

theorem steady_removeHeld (s : Scopes) (id : ScopeId) (h : VarHandle) :
    s.Steady (performScope names s (.removeHeld id h)).2.2 := by
  unfold performScope
  dsimp only
  split
  · exact steady_remove? (removeHeld_eq_removed ‹_›)
  · exact .refl s

theorem later_performScope (names : NameTable) (s : Scopes) (op : ScopeOp) :
    s.Later (performScope names s op).2.2 (s.Empties op) := by
  cases op with
  | push name ns => exact s.steady_push name ns
  | pushShared i =>
    have htry := s.steady_tryPushShared i
    unfold performScope
    dsimp only
    split <;> (rename_i heq; rwa [heq] at htry)
  | pop => exact s.later_pop
  | setCode id code ip => exact s.steady_setCode id code ip
  | on id op => exact s.steady_perform id names op
  | reset id => exact s.later_reset id
  | removeHeld id h => exact s.steady_removeHeld id h

theorem later_runAll (names : NameTable) (s : Scopes) (ops : List ScopeOp) :
    s.Later (runAll performScope names s ops).state (s.EmptiedBy names ops) := by
  induction ops generalizing names s with
  | nil => exact .refl s
  | cons op ops ih =>
    exact (s.later_performScope names op).trans (ih _ _)

/-! ## Removing -/

variable {r : VarRef} {h : VarHandle}

/-- The variables in the table a scope uses, in the order of its chains. -/
def shown (s : Scopes) (id : ScopeId) : List VarRef :=
  match (s.get id).table with
  | some o =>
    match (s.get o).own with
    | some t => t.linked.map (VarRef.mk o)
    | none => []
  | none => []

theorem mem_shown : r ∈ s.shown id ↔
    (s.get id).table = some r.owner ∧ ∃ t, (s.get r.owner).own = some t ∧ r.cell ∈ t.linked := by
  rw [shown]
  cases htable : (s.get id).table with
  | none => simp
  | some o =>
    dsimp only
    cases hown : (s.get o).own with
    | none =>
      refine iff_of_false List.not_mem_nil ?_
      rintro ⟨ho, t, ht, -⟩
      cases ho
      rw [hown] at ht
      cases ht
    | some t =>
      rw [List.mem_map]
      constructor
      · rintro ⟨c, hc, rfl⟩
        exact ⟨rfl, t, hown, hc⟩
      · rintro ⟨ho, t', ht', hc⟩
        cases ho
        rw [hown] at ht'
        cases ht'
        exact ⟨r.cell, hc, rfl⟩

/-- One variable was taken out of its table, and nothing else has changed. -/
structure Without (s : Scopes) (r : VarRef) (s' : Scopes) : Prop where
  shown : ∀ id, s'.shown id = (s.shown id).erase r
  find : ∀ id n, s.find? id n ≠ some r → s'.find? id n = s.find? id n
  var : ∀ q, s'.var? q = s.var? q
  depth : s'.depth = s.depth
  scopes : ∀ id, (s'.get id).table = (s.get id).table ∧ (s'.get id).label = (s.get id).label

theorem find?_eq_bind (s : Scopes) (id : ScopeId) (n : Option Name) :
    s.find? id n = (s.get id).table.bind fun o => (s.get o).own.bind fun t =>
      (n.bind t.find?).map (VarRef.mk o) := by
  rw [find?, Option.bind_eq_bind]
  congr 1
  funext o
  rw [Option.bind_eq_bind]
  congr 1
  funext t
  cases n with
  | none => rfl
  | some n => cases h : t.find? n <;> simp [h]

theorem find?_erase {l : List Nat} {p : Nat → Bool} {c : Nat} (h : l.find? p ≠ some c) :
    (l.erase c).find? p = l.find? p := by
  induction l with
  | nil => rfl
  | cons a l ih =>
    by_cases hp : p a = true
    · rw [List.find?_cons_of_pos hp] at h
      rw [List.erase_cons_tail (by simpa using h), List.find?_cons_of_pos hp,
        List.find?_cons_of_pos hp]
    · rw [List.find?_cons_of_neg hp] at h ⊢
      by_cases ha : a = c
      · rw [ha, List.erase_cons_head]
      · rw [List.erase_cons_tail (by simpa using ha), List.find?_cons_of_neg hp, ih h]

theorem find?_unlink (ht : t.Chained) {c : Nat} (hc : c ∈ t.linked) {n : Name}
    (hne : t.find? n ≠ some c) : (t.unlink c).find? n = t.find? n := by
  obtain ⟨v, hv⟩ := ht.cell hc
  have hbucket : (t.unlink c).bucketOf n = t.bucketOf n := by
    rw [Table.bucketOf, Table.bucketOf, Table.unlink_eq hv, Array.size_modify]
  have hnamed : (t.unlink c).isNamed n = t.isNamed n := by
    funext d
    rw [Table.isNamed, Table.isNamed, Table.unlink_eq hv]
  rw [Table.find?, hbucket, hnamed, ht.chain_unlink hc]
  exact find?_erase hne

section Unlinking

variable (ht : (s.get r.owner).own = some t)
include ht

theorem get_unlink_owner : (s.modifyTable r.owner (·.unlink r.cell)).get r.owner =
    { s.get r.owner with own := some (t.unlink r.cell) } := by
  rw [modifyTable, get_modify_self (has_of_own ht), ht]
  rfl

theorem scopes_unlink (k : ScopeId) :
    ((s.modifyTable r.owner (·.unlink r.cell)).get k).table = (s.get k).table ∧
      ((s.modifyTable r.owner (·.unlink r.cell)).get k).label = (s.get k).label := by
  by_cases hk : k = r.owner
  · subst hk
    rw [get_unlink_owner ht]
    exact ⟨rfl, rfl⟩
  · rw [modifyTable, get_modify_ne hk]
    exact ⟨rfl, rfl⟩

variable (hchained : t.Chained) (hc : r.cell ∈ t.linked)
include hchained hc

theorem shown_unlink (k : ScopeId) :
    (s.modifyTable r.owner (·.unlink r.cell)).shown k = (s.shown k).erase r := by
  rw [shown, (scopes_unlink ht k).1, shown]
  cases (s.get k).table with
  | none => rfl
  | some o =>
    dsimp only
    by_cases ho : o = r.owner
    · subst ho
      have hinj : Function.Injective (VarRef.mk r.owner) := fun _ _ h => (VarRef.mk.inj h).2
      rw [get_unlink_owner ht, ht]
      dsimp only
      rw [hchained.linked_unlink hc, List.map_erase hinj]
    · rw [modifyTable, get_modify_ne ho]
      symm
      apply List.erase_of_not_mem
      cases (s.get o).own with
      | none => exact List.not_mem_nil
      | some t' =>
        intro hr
        obtain ⟨d, -, rfl⟩ := List.mem_map.mp hr
        exact ho rfl

theorem find?_unlink_ne {k : ScopeId} {n : Option Name} (hne : s.find? k n ≠ some r) :
    (s.modifyTable r.owner (·.unlink r.cell)).find? k n = s.find? k n := by
  rw [find?_eq_bind, (scopes_unlink ht k).1]
  rw [find?_eq_bind] at hne ⊢
  cases htable : (s.get k).table with
  | none => rfl
  | some o =>
    rw [htable] at hne
    rw [Option.bind_some] at hne ⊢
    rw [Option.bind_some]
    by_cases ho : o = r.owner
    · subst ho
      rw [ht, Option.bind_some] at hne
      rw [get_unlink_owner ht, ht, Option.bind_some, Option.bind_some]
      cases n with
      | none => rfl
      | some n =>
        rw [Option.bind_some] at hne ⊢
        rw [Option.bind_some, find?_unlink hchained hc]
        intro hfound
        exact hne (by rw [hfound]; rfl)
    · rw [modifyTable, get_modify_ne ho]

theorem var?_unlink (q : VarRef) : (s.modifyTable r.owner (·.unlink r.cell)).var? q = s.var? q := by
  rw [var?, var?]
  by_cases hq : q.owner = r.owner
  · obtain ⟨v, hv⟩ := hchained.cell hc
    rw [hq, get_unlink_owner ht, ht, Table.unlink_eq hv]
    rfl
  · rw [modifyTable, get_modify_ne hq]

theorem without_unlink : s.Without r (s.modifyTable r.owner (·.unlink r.cell)) where
  shown := shown_unlink ht hchained hc
  find _ _ hne := find?_unlink_ne ht hchained hc hne
  var := var?_unlink ht hchained hc
  depth := depth_modify
  scopes := scopes_unlink ht

end Unlinking

theorem All.remove? (hs : s.All Table.Chained) (id : ScopeId) (r : VarRef) :
    (r ∈ s.shown id → ∃ s', s.remove? id r = some s' ∧ s.Without r s') ∧
      (r ∉ s.shown id → s.remove? id r = none) := by
  constructor
  · intro hr
    obtain ⟨htable, t, ht, hc⟩ := mem_shown.mp hr
    have hchained := hs.own _ t ht
    refine ⟨_, ?_, without_unlink ht hchained hc⟩
    simp [Scopes.remove?, htable, ht, hchained.isLinked_iff.mpr hc]
  · intro hr
    by_contra hsome
    obtain ⟨s', hs'⟩ := Option.ne_none_iff_exists'.mp hsome
    simp only [Scopes.remove?, Option.bind_eq_bind, Option.bind_eq_some_iff] at hs'
    obtain ⟨o, ho, t, ht, hs'⟩ := hs'
    split at hs'
    · rename_i hcond
      obtain ⟨hown, hlinked⟩ := Bool.and_eq_true_iff.mp hcond
      obtain rfl := eq_of_beq hown
      exact hr (mem_shown.mpr ⟨ho, t, ht, Table.mem_linked_of_isLinked hlinked⟩)
    · cases hs'

theorem table?_of_mem_shown (hr : r ∈ s.shown id) (ht : (s.get r.owner).own = some t) :
    s.table? id = some t := by
  rw [table?, (mem_shown.mp hr).1, Option.bind_some, ht]

theorem All.removeHeld_current (hs : s.All Table.Chained) (ht : (s.get h.ref.owner).own = some t)
    (hepoch : t.epoch = h.epoch) (id : ScopeId) :
    (h.ref ∈ s.shown id → ∃ s', s.removeHeld id h = .removed s' ∧ s.Without h.ref s') ∧
      (h.ref ∉ s.shown id → s.removeHeld id h = .refused) := by
  have hstate : s.handleState h = .present t.generation := by
    rw [handleState, ht]
    exact if_pos hepoch
  obtain ⟨hshown, hhidden⟩ := hs.remove? id h.ref
  constructor
  · intro hr
    obtain ⟨s', hs', hwithout⟩ := hshown hr
    refine ⟨s', ?_, hwithout⟩
    rw [removeHeld, table?_of_mem_shown hr ht, hstate]
    dsimp only
    rw [if_pos rfl, hs']
  · intro hr
    rw [removeHeld, hstate]
    cases s.table? id with
    | none => rfl
    | some t' =>
      dsimp only
      rw [hhidden hr]
      split <;> rfl

/-- The table of the variable was emptied since it was remembered. -/
theorem All.removeHeld_stale (hs : s.All Table.Chained) (ht : (s.get h.ref.owner).own = some t)
    (hepoch : h.epoch < t.epoch) (id : ScopeId) :
    s.removeHeld id h = .refused ↔ fixedCells ≤ h.ref.cell ∨ h.ref ∉ s.shown id ∧
      (s.var? h.ref = none → ∀ t', s.table? id = some t' → t'.generation ≠ 0) := by
  obtain ⟨hshown, hhidden⟩ := hs.remove? id h.ref
  have hvar : s.var? h.ref = t.cells[h.ref.cell]? := by rw [var?, ht, Option.bind_some]
  have hvacant (hcell : t.cells.size ≤ h.ref.cell) : h.ref ∉ s.shown id := by
    intro hr
    obtain ⟨-, t', ht', hc⟩ := mem_shown.mp hr
    rw [ht] at ht'
    cases ht'
    obtain ⟨v, hv⟩ := (hs.own _ t ht).cell hc
    exact Nat.not_lt_of_le hcell (Array.getElem?_eq_some_iff.mp hv).1
  rw [removeHeld]
  cases htable : s.table? id with
  | none =>
    have hr : h.ref ∉ s.shown id := by
      intro hr
      rw [table?_of_mem_shown hr ht] at htable
      cases htable
    exact iff_of_true rfl (.inr ⟨hr, fun _ _ h => by cases h⟩)
  | some t' =>
    dsimp only
    have hsame (hr : h.ref ∈ s.shown id) : t' = t := by
      rw [table?_of_mem_shown hr ht] at htable
      exact (Option.some.inj htable).symm
    rw [handleState, ht]
    dsimp only
    rw [if_neg (Nat.ne_of_gt hepoch)]
    by_cases hfixed : fixedCells ≤ h.ref.cell
    · rw [if_pos hfixed]
      exact iff_of_true rfl (.inl hfixed)
    · rw [if_neg hfixed, or_iff_right hfixed]
      by_cases hcell : h.ref.cell < t.cells.size
      · rw [if_pos hcell, hvar, Array.getElem?_eq_getElem hcell]
        dsimp only
        by_cases hr : h.ref ∈ s.shown id
        · obtain ⟨s', hs', -⟩ := hshown hr
          rw [hsame hr, if_pos rfl, hs']
          simp [hr]
        · rw [hhidden hr]
          refine iff_of_true ?_ ⟨hr, nofun⟩
          split <;> rfl
      · rw [if_neg hcell, hvar, Array.getElem?_eq_none (Nat.le_of_not_lt hcell)]
        dsimp only
        have hr := hvacant (Nat.le_of_not_lt hcell)
        by_cases hzero : t'.generation = 0
        · simp [hzero]
        · simp [hzero, hr]

/-- For every history, what becomes of a removal by a handle that was taken after `before` and is
used after `after`. Unless the table was emptied in between, the handle still means its variable,
which is removed exactly from the scopes that show it, and nothing else changes. If the table was
emptied, the removal is refused; except that the place among the first ones can belong to another
variable by now, which is then removed from the scopes that show it, and that a vacant place cannot
be compared with a table whose stamp is zero: one that was never emptied, or so often that the stamp
has come round. -/
theorem removeHeld_by_generation (buckets : Int) (before after : List ScopeOp) (id : ScopeId)
    {r : VarRef} {v : Variable} {h : VarHandle}
    (hvar : (runAll performScope {} (ofBuckets buckets) before).state.var? r = some v)
    (hhold : (runAll performScope {} (ofBuckets buckets) before).state.hold? r = some h) :
    let held := runAll performScope {} (ofBuckets buckets) before
    let now := (runAll performScope held.names held.state after).state
    (¬ held.state.EmptiedBy held.names after r.owner →
      (∃ w, now.var? r = some w ∧ w.name = v.name) ∧
      (r ∈ now.shown id → ∃ s, now.removeHeld id h = .removed s ∧ now.Without r s) ∧
      (r ∉ now.shown id → now.removeHeld id h = .refused)) ∧
    (held.state.EmptiedBy held.names after r.owner →
      (now.removeHeld id h = .refused ↔ fixedCells ≤ r.cell ∨ r ∉ now.shown id ∧
        (now.var? r = none → ∀ t, now.table? id = some t → t.generation ≠ 0))) := by
  intro held now
  have hinitial : (ofBuckets buckets).All Table.Chained := by
    refine ⟨Table.chained_ofSize (initial_ofBuckets buckets), fun o t ht => ?_⟩
    rw [get_ofBuckets] at ht
    cases ht
  have hbefore := later_runAll {} (ofBuckets buckets) before
  have hlater := later_runAll held.names held.state after
  have hchained : now.All Table.Chained :=
    hlater.all Table.kept_chained (hbefore.all Table.kept_chained hinitial)
  simp only [hold?, Option.bind_eq_bind, Option.bind_eq_some_iff] at hhold
  obtain ⟨t, ht, hhold⟩ := hhold
  cases hhold
  constructor
  · intro hkept
    obtain ⟨t', ht', hcontinues⟩ := hlater.continued r.owner t ht hkept
    rw [var?, ht, Option.bind_some] at hvar
    obtain ⟨w, hw, hname⟩ := hcontinues.cells r.cell v hvar
    refine ⟨⟨w, by rw [var?, ht', Option.bind_some, hw], hname⟩, ?_⟩
    exact hchained.removeHeld_current (h := ⟨r, t.epoch⟩) ht' hcontinues.epoch id
  · intro hemptied
    obtain ⟨t', ht', hlt⟩ := hlater.renewed r.owner t ht hemptied
    exact hchained.removeHeld_stale (h := ⟨r, t.epoch⟩) ht' hlt id

/-- The local `a` of a frame that was popped. Its slot is in use again, but the place is vacant. -/
theorem removeHeld_by_generation_popped :
    let held := runAll performScope {} (ofBuckets 0)
      [.push none none, .on (.frame 0) (.add [0x61])]
    let now := (runAll performScope held.names held.state [.pop, .push none none]).state
    held.state.hold? ⟨.frame 0, 0⟩ = some ⟨⟨.frame 0, 0⟩, 0⟩ ∧
      now.removeHeld (.frame 0) ⟨⟨.frame 0, 0⟩, 0⟩ = .refused := by
  intro held now
  have hvar : held.state.var? ⟨.frame 0, 0⟩ = some { name := ⟨1⟩ } := by rfl
  have hhold : held.state.hold? ⟨.frame 0, 0⟩ = some ⟨⟨.frame 0, 0⟩, 0⟩ := by decide
  have hemptied : held.state.EmptiedBy held.names [.pop, .push none none] (.frame 0) :=
    .inl ⟨by decide, by decide, by decide⟩
  refine ⟨hhold, ((removeHeld_by_generation 0 _ _ (.frame 0) hvar hhold).2 hemptied).mpr ?_⟩
  have hshown : now.shown (.frame 0) = [] := by decide +kernel
  have hgeneration : (now.table? (.frame 0)).map (·.generation) = some 1 := by decide
  refine .inr ⟨by rw [hshown]; exact List.not_mem_nil, fun _ t ht => ?_⟩
  rw [ht, Option.map_some, Option.some.injEq] at hgeneration
  rw [hgeneration]
  decide

end Scopes

end ConsoleScript
