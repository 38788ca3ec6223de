import ConsoleScript.Proofs.Console.Variables

/-!
# Generations of tables

Emptying a table starts a new generation of it, and no other operation does: any other operation
leaves the variables in their cells, whatever it does to the chains. `Later` says so of all tables
of all scopes at once. It also says that a property which the operations on tables keep is kept for
all tables, such as the number of buckets being one that 32 bits can count; as long as it is, no
operation on variables or frames fails.
-/

namespace ConsoleScript

/-! ## Tables that go on -/

namespace Table

variable {t t' : Table} {v : Variable} {c : Nat}

theorem mem_linked_of_isLinked (h : t.isLinked c = true) : c ∈ t.linked := by
  rw [isLinked] at h
  split at h
  · exact mem_linked.mpr ⟨_, List.contains_iff_mem.mp h⟩
  · cases h

/-- A table goes on: it was not emptied, and its cells have the variables they had. -/
structure Continues (t t' : Table) : Prop where
  epoch : t'.epoch = t.epoch
  cells : ∀ (c : Nat) (v : Variable), t.cells[c]? = some v → ∃ v' : Variable, t'.cells[c]? = some v' ∧ v'.name = v.name

theorem Continues.refl (t : Table) : t.Continues t := ⟨rfl, fun _ v hv => ⟨v, hv, rfl⟩⟩

theorem Continues.trans {t'' : Table} (h : t.Continues t') (h' : t'.Continues t'') :
    t.Continues t'' := by
  refine ⟨h'.epoch.trans h.epoch, fun c v hv => ?_⟩
  obtain ⟨v', hv', hname⟩ := h.cells c v hv
  obtain ⟨v'', hv'', hname'⟩ := h'.cells c v' hv'
  exact ⟨v'', hv'', hname'.trans hname⟩

theorem continues_push {n : Name} (hepoch : t'.epoch = t.epoch)
    (hcells : t'.cells = t.cells.push { name := n }) : t.Continues t' := by
  refine ⟨hepoch, fun c v hv => ⟨v, ?_, rfl⟩⟩
  have hlt := (Array.getElem?_eq_some_iff.mp hv).1
  rw [hcells, Array.getElem?_push, if_neg (Nat.ne_of_lt hlt), hv]

theorem continues_create (t : Table) (n : Name) : t.Continues (t.create n).2 := by
  unfold Table.create
  dsimp only
  split <;> exact continues_push rfl rfl

theorem continues_modify (t : Table) (c : Nat) {f : Variable → Variable}
    (hname : ∀ v, (f v).name = v.name) : t.Continues { t with cells := t.cells.modify c f } := by
  refine ⟨rfl, fun d v hv => ?_⟩
  rw [Array.getElem?_modify, hv]
  split
  · exact ⟨f v, rfl, hname v⟩
  · exact ⟨v, rfl, rfl⟩

theorem continues_unlink (t : Table) (c : Nat) : t.Continues (t.unlink c) := by
  rw [unlink]
  split
  · exact ⟨rfl, fun _ v hv => ⟨v, hv, rfl⟩⟩
  · exact .refl t

/-! ## Properties that are kept -/

/-- A property of tables that every operation keeps. The last one is a creation that fails before
the variable gets into a chain. -/
structure Kept (P : Table → Prop) : Prop where
  create : ∀ t n, P t → P (t.create n).2
  modify : ∀ t c (f : Variable → Variable), (∀ v, (f v).name = v.name) → P t →
    P { t with cells := t.cells.modify c f }
  unlink : ∀ t c, c ∈ t.linked → P t → P (t.unlink c)
  reset : ∀ t, P t → P t.reset
  spoil : ∀ t n, P t → P { t with count := t.count + 1, cells := t.cells.push { name := n } }

theorem kept_chained : Kept Table.Chained where
  create _ n h := h.create n
  modify _ c f hname h := h.modify c f hname
  unlink _ _ hc h := h.unlink hc
  reset _ h := h.reset
  spoil _ _ h := ⟨h.buckets, h.placed.push _, h.nodup⟩

def Counted (t : Table) : Prop := UInt32.ofNat t.buckets.size ≠ 0

/-- There is an array of so many buckets, and their number is not zero in 32 bits. -/
def Makeable (n : Nat) : Prop := n ≤ maxBuckets ∧ n % UInt32.size ≠ 0

instance (n : Nat) : Decidable (Makeable n) := inferInstanceAs (Decidable (_ ∧ _))

theorem counted_iff {n : Nat} : UInt32.ofNat n ≠ 0 ↔ n % UInt32.size ≠ 0 := by
  rw [Ne, ← UInt32.toNat_inj, UInt32.toNat_ofNat']
  rfl

theorem size_grow (t : Table) : t.grow.buckets.size = 4 * t.buckets.size - 1 := by
  have hlinks (cells : Array Variable) (chain : List Nat) (bs : Array (List Nat)) :
      (chain.foldl (link cells) bs).size = bs.size := by
    induction chain generalizing bs with
    | nil => rfl
    | cons c chain ih => rw [List.foldl_cons, ih, size_link]
  have hchains (cells : Array Variable) (chains : List (List Nat)) (bs : Array (List Nat)) :
      (chains.foldl (fun bs chain => chain.foldl (link cells) bs) bs).size = bs.size := by
    induction chains generalizing bs with
    | nil => rfl
    | cons chain chains ih => rw [List.foldl_cons, ih, hlinks]
  rw [grow, ← Array.foldl_toList]
  exact (hchains _ _ _).trans Array.size_replicate

/-- Four times a number, less one, is odd, so a table that grows stays counted. -/
theorem Counted.create (h : t.Counted) (n : Name) : (t.create n).2.Counted := by
  rw [Counted, counted_iff] at h ⊢
  unfold Table.create
  dsimp only
  split
  · show (link _ _ _).size % UInt32.size ≠ 0
    rw [size_link, size_grow]
    show (4 * t.buckets.size - 1) % UInt32.size ≠ 0
    rw [UInt32.size] at h ⊢
    omega
  · show (link _ _ _).size % UInt32.size ≠ 0
    rwa [size_link]

theorem kept_counted : Kept Counted where
  create _ n h := h.create n
  modify _ _ _ _ h := h
  unlink t c hc h := by
    rw [Table.unlink]
    split
    · show UInt32.ofNat (t.buckets.modify _ _).size ≠ 0
      rwa [Array.size_modify]
    · exact h
  reset t h := by
    show UInt32.ofNat (t.buckets.map _).size ≠ 0
    rwa [Array.size_map]
  spoil _ _ h := h

end Table

/-! ## Scopes later on -/

namespace Scopes

variable {s s' s'' : Scopes} {id o j : ScopeId} {t : Table} {names : NameTable}
  {e e' : ScopeId → Prop} {P : Table → Prop}

/-- All tables have the property, also those that are not in use and those that are made later. -/
structure All (P : Table → Prop) (s : Scopes) : Prop where
  fresh : P (.ofSize s.initial)
  own : ∀ o t, (s.get o).own = some t → P t

/-- What becomes of the tables: those that are emptied begin a later generation, the others go
on, and none is lost. -/
structure Later (s s' : Scopes) (e : ScopeId → Prop) : Prop where
  initial : s'.initial = s.initial
  all : ∀ {P}, Table.Kept P → s.All P → s'.All P
  continued : ∀ o t, (s.get o).own = some t → ¬ e o →
    ∃ t', (s'.get o).own = some t' ∧ t.Continues t'
  renewed : ∀ o t, (s.get o).own = some t → e o →
    ∃ t', (s'.get o).own = some t' ∧ t.epoch < t'.epoch

theorem Later.refl (s : Scopes) : s.Later s fun _ => False :=
  ⟨rfl, fun _ h => h, fun _ t ht _ => ⟨t, ht, .refl t⟩, fun _ _ _ h => h.elim⟩

theorem Later.trans (h : s.Later s' e) (h' : s'.Later s'' e') : s.Later s'' fun o => e o ∨ e' o where
  initial := h'.initial.trans h.initial
  all hkept hall := h'.all hkept (h.all hkept hall)
  continued o t ht he := by
    obtain ⟨hfirst, hsecond⟩ := not_or.mp he
    obtain ⟨t', ht', hc⟩ := h.continued o t ht hfirst
    obtain ⟨t'', ht'', hc'⟩ := h'.continued o t' ht' hsecond
    exact ⟨t'', ht'', hc.trans hc'⟩
  renewed o t ht he := by
    by_cases hfirst : e o
    · obtain ⟨t', ht', hlt⟩ := h.renewed o t ht hfirst
      by_cases hsecond : e' o
      · obtain ⟨t'', ht'', hlt'⟩ := h'.renewed o t' ht' hsecond
        exact ⟨t'', ht'', Nat.lt_trans hlt hlt'⟩
      · obtain ⟨t'', ht'', hc⟩ := h'.continued o t' ht' hsecond
        exact ⟨t'', ht'', hc.epoch ▸ hlt⟩
    · obtain ⟨t', ht', hc⟩ := h.continued o t ht hfirst
      obtain ⟨t'', ht'', hlt⟩ := h'.renewed o t' ht' (he.resolve_left hfirst)
      exact ⟨t'', ht'', hc.epoch ▸ hlt⟩

abbrev Steady (s s' : Scopes) : Prop := s.Later s' fun _ => False

theorem Steady.trans (h : s.Steady s') (h' : s'.Steady s'') : s.Steady s'' := by
  simpa only [or_self] using Later.trans h h'

theorem steady_of_own (hinitial : s'.initial = s.initial)
    (hown : ∀ o, (s'.get o).own = (s.get o).own) : s.Steady s' where
  initial := hinitial
  all _ h := ⟨hinitial ▸ h.fresh, fun o t ht => h.own o t (hown o ▸ ht)⟩
  continued o t ht _ := ⟨t, (hown o).trans ht, .refl t⟩
  renewed _ _ _ h := h.elim

theorem steady_modify {f : Scope → Scope}
    (hcontinued : ∀ t, (s.get id).own = some t →
      ∃ t', (f (s.get id)).own = some t' ∧ t.Continues t')
    (hall : ∀ {P}, Table.Kept P → s.All P → ∀ t, (f (s.get id)).own = some t → P t) :
    s.Steady (s.modify id f) where
  initial := initial_modify
  all hkept h := by
    refine ⟨initial_modify.symm ▸ h.fresh, fun o t ht => ?_⟩
    obtain he | ⟨rfl, he⟩ := get_modify_cases s id f o
    · exact h.own o t (he ▸ ht)
    · exact hall hkept h t (he ▸ ht)
  continued o t ht _ := by
    obtain he | ⟨rfl, he⟩ := get_modify_cases s id f o
    · exact ⟨t, he ▸ ht, .refl t⟩
    · obtain ⟨t', ht', hc⟩ := hcontinued t ht
      exact ⟨t', he ▸ ht', hc⟩
  renewed _ _ _ h := h.elim

/-- A change that leaves the tables alone. -/
theorem steady_label {f : Scope → Scope} (hf : ∀ sc, (f sc).own = sc.own) :
    s.Steady (s.modify id f) :=
  steady_modify (fun t ht => ⟨t, (hf _).trans ht, .refl t⟩)
    fun _ h t ht => h.own _ t ((hf _).symm.trans ht)

theorem steady_setCode (s : Scopes) (id : ScopeId) (code : Nat) (ip : UInt32) :
    s.Steady (s.setCode id code ip) :=
  steady_label fun _ => rfl

theorem steady_modifyTable {f : Table → Table} (hcontinued : ∀ t : Table, t.Continues (f t))
    (hkeeps : ∀ {P}, Table.Kept P → ∀ t, (s.get o).own = some t → P t → P (f t)) :
    s.Steady (s.modifyTable o f) := by
  refine steady_modify (fun t ht => ⟨f t, by rw [ht]; rfl, hcontinued t⟩) fun hkept h t ht => ?_
  obtain ⟨t₀, ht₀, rfl⟩ := Option.map_eq_some_iff.mp ht
  exact hkeeps hkept t₀ ht₀ (h.own o t₀ ht₀)

theorem steady_modifyVariable (r : VarRef) {f : Variable → Variable}
    (hname : ∀ v, (f v).name = v.name) : s.Steady (s.modifyVariable r f) :=
  steady_modifyTable (fun t => t.continues_modify r.cell hname)
    fun hkept t _ h => hkept.modify t r.cell f hname h

theorem steady_ensureTable (s : Scopes) (id : ScopeId) : s.Steady (s.ensureTable id).2 := by
  rw [ensureTable]
  split
  · exact .refl s
  · dsimp only
    refine steady_modify (fun t ht => ⟨t, by rw [ht]; rfl, .refl t⟩) fun _ h t ht => ?_
    cases hown : (s.get id).own with
    | none =>
      rw [hown] at ht
      cases ht
      exact h.fresh
    | some t' =>
      rw [hown] at ht
      cases ht
      exact h.own id t' hown

theorem steady_add (s : Scopes) (id : ScopeId) (n : Name) : s.Steady (s.add id n).2 := by
  rw [add]
  split
  · exact .refl s
  · dsimp only
    refine (s.steady_ensureTable id).trans ?_
    split
    · rename_i t ht
      dsimp only
      refine steady_modify (fun t' ht' => ⟨(t.create n).2, rfl, ?_⟩) fun hkept h t' ht' => ?_
      · rw [ht] at ht'
        cases ht'
        exact t.continues_create n
      · cases ht'
        exact hkept.create t n (h.own _ t ht)
    · exact .refl _

theorem steady_tryAdd (s : Scopes) (id : ScopeId) (n : Name) : s.Steady (s.tryAdd id n).2 := by
  rw [tryAdd]
  split
  · exact s.steady_add id n
  · exact .refl s
  · split
    · exact .refl s
    · dsimp only
      exact (s.steady_ensureTable id).trans (steady_modifyTable
        (fun t => Table.continues_push rfl rfl) fun hkept t _ h => hkept.spoil t n h)

theorem steady_assign? {r : VarRef} {value : Value} {notices : List Notice}
    (h : s.assign? names r value = some (notices, s')) : s.Steady s' := by
  rw [eq_of_assign? h]
  exact steady_modifyVariable r fun _ => rfl

theorem steady_remove? {r : VarRef} (h : s.remove? id r = some s') : s.Steady s' := by
  simp only [remove?, Option.bind_eq_bind, Option.bind_eq_some_iff] at h
  obtain ⟨o, -, t, ht, h⟩ := h
  split at h
  · rename_i hlinked
    cases h
    refine steady_modifyTable (fun t => t.continues_unlink r.cell) fun hkept t' ht' h => ?_
    rw [ht] at ht'
    cases ht'
    exact hkept.unlink t r.cell
      (Table.mem_linked_of_isLinked (Bool.and_eq_true_iff.mp hlinked).2) h
  · cases h

theorem steady_deleteMatching (s : Scopes) (names : NameTable) (id : ScopeId) (pattern : Text) :
    s.Steady (s.deleteMatching names id pattern).2 := by
  rw [deleteMatching_eq]
  generalize s.matching names id pattern = listed
  generalize (0 : Nat) = n
  induction listed generalizing n s with
  | nil => exact .refl s
  | cons y listed ih =>
    rw [List.foldl_cons, deleteOne]
    split
    · exact ih s n
    · split
      · rename_i s₁ hs
        exact (steady_remove? hs).trans (ih s₁ _)
      · exact ih s n

theorem steady_perform (id : ScopeId) (names : NameTable) (s : Scopes) (op : VarOp) :
    s.Steady (perform id names s op).2.2 := by
  cases op with
  | intern spelling => exact .refl s
  | add spelling =>
    unfold perform
    dsimp only
    rcases names.intern spelling with ⟨_ | n, names'⟩
    · exact .refl s
    · have htry := s.steady_tryAdd id n
      dsimp only
      split <;> (rename_i heq; rwa [heq] at htry)
  | assign c value =>
    unfold perform
    dsimp only
    split
    · exact steady_assign? ‹_›
    · exact .refl s
  | setConstant c on => exact steady_modifyVariable _ fun _ => rfl
  | watch c watcher => exact steady_modifyVariable _ fun _ => rfl
  | remove c =>
    unfold perform
    dsimp only
    split
    · exact steady_remove? ‹_›
    · exact .refl s
  | delete pattern => exact s.steady_deleteMatching names id pattern

/-! ### Frames -/

theorem get_nextSlot : s.nextSlot.2.get id = s.get id := by
  cases id with
  | globals => rfl
  | frame i =>
    unfold nextSlot
    dsimp only
    split
    · next hfull =>
      show ((s.frames.push {})[i]?).getD {} = (s.frames[i]?).getD {}
      rw [Array.getElem?_push]
      split
      · next hi =>
        rw [hi, Array.getElem?_eq_none (Nat.le_refl _)]
        rfl
      · rfl
    · rfl

theorem steady_nextSlot (s : Scopes) : s.Steady s.nextSlot.2 :=
  steady_of_own rfl fun o => by rw [get_nextSlot]

theorem steady_slot (s : Scopes) {f : Scope → Scope} (hf : ∀ sc, (f sc).own = sc.own) :
    s.Steady (s.nextSlot.2.modify (.frame s.depth) f) :=
  s.steady_nextSlot.trans (steady_label hf)

theorem steady_push (s : Scopes) (name : Option Name) (ns : Option Nat) :
    s.Steady (s.push name ns).2 :=
  s.steady_slot fun _ => rfl

theorem steady_pushShared (s : Scopes) (i : Int) : s.Steady (s.pushShared i).2 := by
  rw [pushShared]
  split
  · exact s.steady_slot fun _ => rfl
  · exact (s.steady_ensureTable _).trans (steady_slot _ fun _ => rfl)

theorem steady_tryPushShared (s : Scopes) (i : Int) : s.Steady (s.tryPushShared i).2 := by
  rw [tryPushShared]
  split
  · exact s.steady_pushShared i
  · exact s.steady_nextSlot

/-! ### Emptying -/

theorem has_of_own (h : (s.get id).own = some t) : s.Has id := by
  cases id with
  | globals => trivial
  | frame i =>
    by_contra hi
    rw [get, Array.getElem?_eq_none (Nat.le_of_not_lt hi)] at h
    cases h

theorem later_reset (s : Scopes) (id : ScopeId) :
    s.Later (s.reset id) fun o => o = id ∧ (s.get o).table = some o where
  initial := initial_modify
  all hkept h := by
    refine ⟨initial_modify.symm ▸ h.fresh, fun o t ht => ?_⟩
    by_cases ho : o = id
    · subst ho
      have hhas : s.Has o := (has_congr size_modify).mp (has_of_own ht)
      rw [get_reset s o hhas] at ht
      dsimp only at ht
      split at ht
      · obtain ⟨t₀, ht₀, rfl⟩ := Option.map_eq_some_iff.mp ht
        exact hkept.reset t₀ (h.own o t₀ ht₀)
      · exact h.own o t ht
    · rw [reset, get_modify_ne ho] at ht
      exact h.own o t ht
  continued o t ht he := by
    by_cases ho : o = id
    · subst ho
      rw [get_reset s o (has_of_own ht), if_neg (by simpa using he)]
      exact ⟨t, ht, .refl t⟩
    · rw [reset, get_modify_ne ho]
      exact ⟨t, ht, .refl t⟩
  renewed o t ht he := by
    obtain ⟨rfl, htable⟩ := he
    rw [get_reset s o (has_of_own ht), if_pos (by simpa using htable), ht]
    exact ⟨t.reset, rfl, Nat.lt_succ_self _⟩

theorem later_pop (s : Scopes) : s.Later s.pop fun o =>
    0 < s.depth ∧ o = .frame (s.depth - 1) ∧ (s.get o).table = some o := by
  by_cases hzero : s.depth = 0
  · rw [Scopes.pop, if_pos hzero]
    refine ⟨rfl, fun _ h => h, fun _ t ht _ => ⟨t, ht, .refl t⟩, fun o _ _ he => ?_⟩
    exact absurd hzero (Nat.ne_of_gt he.1)
  · have hpop : s.pop = { s.reset (.frame (s.depth - 1)) with depth := s.depth - 1 } := by
      rw [Scopes.pop, if_neg hzero]
    have hsame : (s.reset (.frame (s.depth - 1))).Steady s.pop := by
      refine steady_of_own (by rw [hpop]) fun o => ?_
      rw [hpop]
      cases o <;> rfl
    simpa only [or_false, and_iff_right (Nat.pos_of_ne_zero hzero)] using
      (s.later_reset _).trans hsame

/-! ## Tables that can be made and counted -/

/-- A table has at most as many buckets at first as an array can have, and no table has a number of
buckets that is zero in 32 bits. -/
structure Usable (s : Scopes) : Prop where
  initial : s.initial ≤ Table.maxBuckets
  counted : s.All Table.Counted

theorem usable_ofBuckets {buckets : Int} (h : Table.Makeable (ofBuckets buckets).initial) :
    (ofBuckets buckets).Usable where
  initial := h.1
  counted := by
    refine ⟨?_, fun o t ht => ?_⟩
    · rw [Table.Counted, Table.ofSize, Array.size_replicate, Table.counted_iff]
      exact h.2
    · cases o <;> simp [ofBuckets, get] at ht

theorem Usable.later (h : s.Usable) (hlater : s.Later s' e) : s'.Usable :=
  ⟨hlater.initial.symm ▸ h.initial, hlater.all Table.kept_counted h.counted⟩

theorem Usable.tableFault?_eq (h : s.Usable) (id : ScopeId) : s.tableFault? id = none := by
  have hinitial := h.initial
  rw [tableFault?, if_neg]
  simp only [Bool.and_eq_true, decide_eq_true_eq, not_and]
  omega

theorem Usable.nameFault?_eq (h : s.Usable) (id : ScopeId) : s.nameFault? id = none := by
  rw [nameFault?, if_neg]
  rw [bucketCount]
  split
  · rename_i t ht
    rcases Option.or_eq_some_iff.mp ht with htable | ⟨-, hown⟩
    · obtain ⟨o, -, ho⟩ := Option.bind_eq_some_iff.mp htable
      exact h.counted.own o t ho
    · exact h.counted.own id t hown
  · have hfresh := h.counted.fresh
    rwa [Table.Counted, Table.ofSize, Array.size_replicate] at hfresh

/-- Nothing goes wrong with the number of buckets. -/
theorem Usable.addFault?_eq (h : s.Usable) (id : ScopeId) : s.addFault? id = none := by
  rw [addFault?, h.tableFault?_eq, h.nameFault?_eq]
  rfl

end Scopes
end ConsoleScript
