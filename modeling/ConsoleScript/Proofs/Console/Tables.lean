import ConsoleScript.Console.Scope
import ConsoleScript.Proofs.Console.Names
import Std.Data.ExtTreeMap

/-!
# Tables of variables

What a table of variables means is a finite map: each name is bound to one of the variables that
were created, or to none. `Table.Holds` says that a table has exactly the bindings of such a map.
Creating a variable, growing, removing and emptying keep a table in step with its map.
-/

namespace ConsoleScript

/-- The variables that were created, and which of them the names are bound to. A variable keeps its
number, also when it is not bound any more. -/
structure Bindings where
  vars : Array Variable := #[]
  bound : Std.ExtTreeMap Name Nat := ∅

namespace Bindings

/-- Binds a name to a new variable, unless it is bound; gives the number of its variable. -/
def add (b : Bindings) (n : Name) : Nat × Bindings :=
  match b.bound[n]? with
  | some c => (c, b)
  | none =>
    (b.vars.size, ⟨b.vars.push { name := n }, b.bound.insert n b.vars.size⟩)

def modify (b : Bindings) (c : Nat) (f : Variable → Variable) : Bindings :=
  { b with vars := b.vars.modify c f }

/-- Unbinds the name of a variable, if it is bound to that variable. -/
def remove? (b : Bindings) (c : Nat) : Option Bindings :=
  match b.vars[c]? with
  | some v =>
    if b.bound[v.name]? = some c then some { b with bound := b.bound.erase v.name } else none
  | none => none

/-- Is the variable one that can be deleted, and does its name match the pattern? -/
def isDoomed (b : Bindings) (names : NameTable) (pattern : Text) (n : Name) (c : Nat) : Bool :=
  Glob.matches? pattern (names.text n) && b.vars[c]?.any fun v => !v.constant

/-- Unbinds all names that match a pattern and are not bound to constants; says how many. -/
def delete (b : Bindings) (names : NameTable) (pattern : Text) : Nat × Bindings :=
  let kept := b.bound.filter fun n c => !b.isDoomed names pattern n c
  (b.bound.size - kept.size, { b with bound := kept })

/-- A spelling is bound to a variable of that value. -/
def Contains (b : Bindings) (names : NameTable) (spelling : Text) (value : Value) : Prop :=
  ∃ n c v, b.bound[n]? = some c ∧ b.vars[c]? = some v ∧ names.text n = spelling ∧ v.value = value

/-- All names that are bound have a spelling. -/
def Named (names : NameTable) (b : Bindings) : Prop := ∀ n c, b.bound[n]? = some c → names.Knows n

theorem size_erase {b : Bindings} {n : Name} {c : Nat} (h : b.bound[n]? = some c) :
    (b.bound.erase n).size + 1 = b.bound.size := by
  have hmem : n ∈ b.bound := by
    rw [Std.ExtTreeMap.mem_iff_isSome_getElem?, h]
    rfl
  have hpos : b.bound.size ≠ 0 := by
    rw [Ne, ← Std.ExtTreeMap.eq_empty_iff_size_eq_zero]
    intro hempty
    rw [hempty] at hmem
    exact Std.ExtTreeMap.not_mem_empty hmem
  rw [Std.ExtTreeMap.size_erase, if_pos (Std.ExtTreeMap.contains_iff_mem.mpr hmem)]
  omega

end Bindings

namespace Table

variable {t : Table} {b : Bindings} {cells : Array Variable} {buckets : Array (List Nat)}
  {n : Name} {v : Variable} {c i : Nat}

/-! ## Chains -/

/-- A remainder by zero is the number itself, so the place is in range also when the number of
buckets is zero in 32 bits. -/
theorem slot_lt {size : Nat} (hpos : 0 < size) (n : Name) : slot n size < size := by
  rw [slot, UInt32.toNat_mod, UInt32.toNat_ofNat']
  by_cases hzero : size % 2 ^ 32 = 0
  · rw [hzero, Nat.mod_zero]
    have hnumber := n.number.toNat_lt
    omega
  · have hlt := Nat.mod_lt n.number.toNat (Nat.pos_of_ne_zero hzero)
    omega

/-- Every cell of a chain has a variable, whose name belongs to that bucket. -/
def Placed (cells : Array Variable) (buckets : Array (List Nat)) : Prop :=
  ∀ i, ∀ c ∈ (buckets[i]?).getD [], ∃ v, cells[c]? = some v ∧ slot v.name buckets.size = i

theorem mem_flatten_buckets :
    c ∈ buckets.toList.flatten ↔ ∃ i : Nat, c ∈ (buckets[i]?).getD [] := by
  rw [List.mem_flatten]
  constructor
  · rintro ⟨chain, hchain, hc⟩
    obtain ⟨i, hi⟩ := List.getElem?_of_mem hchain
    rw [Array.getElem?_toList] at hi
    exact ⟨i, by rwa [hi]⟩
  · rintro ⟨i, hc⟩
    cases hchain : buckets[i]? with
    | none =>
      rw [hchain] at hc
      cases hc
    | some chain =>
      rw [hchain] at hc
      exact ⟨chain, Array.mem_toList_iff.mpr (Array.mem_of_getElem? hchain), hc⟩

theorem mem_linked : c ∈ t.linked ↔ ∃ i, c ∈ t.chain i := mem_flatten_buckets

@[simp] theorem size_link : (link cells buckets c).size = buckets.size := by
  unfold link
  split <;> simp

theorem link_eq (h : cells[c]? = some v) :
    link cells buckets c = buckets.modify (slot v.name buckets.size) (c :: ·) := by
  rw [link, h]

theorem Placed.link (h : Placed cells buckets) (hc : cells[c]? = some v) :
    Placed cells (link cells buckets c) := by
  intro i d hd
  rw [size_link]
  rw [link_eq hc, Array.getElem?_modify] at hd
  split at hd
  · next hi =>
    cases hchain : buckets[i]? with
    | none =>
      rw [hchain] at hd
      cases hd
    | some chain =>
      rw [hchain] at hd
      rcases List.mem_cons.mp hd with rfl | hd
      · exact ⟨v, hc, hi⟩
      · exact h i d (by rwa [hchain])
  · exact h i d hd

theorem link_perm (hpos : 0 < buckets.size) (hc : cells[c]? = some v) :
    (link cells buckets c).toList.flatten.Perm (c :: buckets.toList.flatten) := by
  have hlt : slot v.name buckets.size < buckets.toList.length := slot_lt hpos v.name
  obtain ⟨before, chain, after, hsplit, -, hmodify⟩ := List.exists_of_modify (c :: ·) hlt
  rw [link_eq hc, Array.toList_modify, hmodify, hsplit]
  simp only [List.flatten_append, List.flatten_cons, List.cons_append]
  exact List.perm_middle

/-- Linking cells one after the other adds them to the chains. -/
theorem foldl_link (cs : List Nat) (hcs : ∀ c ∈ cs, ∃ v, cells[c]? = some v)
    (hpos : 0 < buckets.size) (h : Placed cells buckets) :
    let linked := cs.foldl (link cells) buckets
    linked.size = buckets.size ∧ Placed cells linked ∧
      linked.toList.flatten.Perm (cs ++ buckets.toList.flatten) := by
  induction cs generalizing buckets with
  | nil => exact ⟨rfl, h, .refl _⟩
  | cons c cs ih =>
    obtain ⟨v, hc⟩ := hcs c List.mem_cons_self
    have hrest : ∀ d ∈ cs, ∃ v, cells[d]? = some v := fun d hd =>
      hcs d (List.mem_cons_of_mem c hd)
    obtain ⟨hsize, hplaced, hperm⟩ := ih hrest (by rwa [size_link]) (h.link hc)
    refine ⟨hsize.trans size_link, hplaced, hperm.trans ?_⟩
    exact ((link_perm hpos hc).append_left cs).trans List.perm_middle

theorem placed_replicate (m : Nat) : Placed cells (Array.replicate m []) := by
  intro i c hc
  rw [Array.getElem?_replicate] at hc
  split at hc <;> cases hc

theorem grow_spec (hpos : 0 < t.buckets.size) (h : Placed t.cells t.buckets) :
    t.grow.buckets.size = 4 * t.buckets.size - 1 ∧ Placed t.cells t.grow.buckets ∧
      t.grow.linked.Perm t.linked := by
  have hcells : ∀ c ∈ t.linked, ∃ v, t.cells[c]? = some v := by
    intro c hc
    obtain ⟨i, hi⟩ := mem_linked.mp hc
    obtain ⟨v, hv, -⟩ := h i c hi
    exact ⟨v, hv⟩
  have hgrow : t.grow.buckets =
      t.linked.foldl (link t.cells) (Array.replicate (4 * t.buckets.size - 1) []) := by
    rw [linked, List.foldl_flatten, Array.foldl_toList]
    rfl
  have hfresh : 0 < (Array.replicate (4 * t.buckets.size - 1) ([] : List Nat)).size := by
    rw [Array.size_replicate]
    omega
  obtain ⟨hsize, hplaced, hperm⟩ := foldl_link t.linked hcells hfresh (placed_replicate _)
  refine ⟨?_, ?_, ?_⟩
  · rw [hgrow, hsize, Array.size_replicate]
  · rwa [hgrow]
  · rw [Array.toList_replicate, List.flatten_replicate_nil, List.append_nil, ← hgrow] at hperm
    exact hperm

theorem Placed.push (h : Placed cells buckets) (v : Variable) : Placed (cells.push v) buckets := by
  intro i c hc
  obtain ⟨w, hw, hi⟩ := h i c hc
  have hlt := (Array.getElem?_eq_some_iff.mp hw).1
  exact ⟨w, by rw [Array.getElem?_push, if_neg (Nat.ne_of_lt hlt), hw], hi⟩

/-! ## Tables without regard to names -/

/-- Every cell of a chain belongs there and stands in no other place. Two variables may have the
same name: this is what a table is like when a scope was emptied while others went on with its
table. -/
structure Chained (t : Table) : Prop where
  buckets : 0 < t.buckets.size
  placed : Placed t.cells t.buckets
  nodup : t.linked.Nodup

theorem linked_ofSize (m : Nat) : (ofSize m).linked = [] := by
  rw [linked, ofSize, Array.toList_replicate, List.flatten_replicate_nil]

theorem chained_ofSize {m : Nat} (hm : 0 < m) : (ofSize m).Chained where
  buckets := by simpa [ofSize] using hm
  placed := placed_replicate m
  nodup := by
    rw [linked_ofSize]
    exact List.nodup_nil

theorem Chained.mem_chain (h : t.Chained) (hc : c ∈ t.linked) (hv : t.cells[c]? = some v) :
    c ∈ t.chain (t.bucketOf v.name) := by
  obtain ⟨i, hi⟩ := mem_linked.mp hc
  obtain ⟨w, hw, hbucket⟩ := h.placed i c hi
  obtain rfl : v = w := Option.some.inj (hv.symm.trans hw)
  rwa [bucketOf, hbucket]

theorem Chained.cell (h : t.Chained) (hc : c ∈ t.linked) : ∃ v, t.cells[c]? = some v := by
  obtain ⟨i, hi⟩ := mem_linked.mp hc
  obtain ⟨v, hv, -⟩ := h.placed i c hi
  exact ⟨v, hv⟩

theorem Chained.isLinked_iff (h : t.Chained) : t.isLinked c = true ↔ c ∈ t.linked := by
  rw [isLinked]
  cases hv : t.cells[c]? with
  | none =>
    refine iff_of_false Bool.false_ne_true fun hc => ?_
    obtain ⟨v, hv'⟩ := h.cell hc
    rw [hv] at hv'
    cases hv'
  | some v =>
    dsimp only
    rw [List.contains_iff_mem]
    exact ⟨fun hc => mem_linked.mpr ⟨_, hc⟩, fun hc => h.mem_chain hc hv⟩

theorem Chained.lt_size (h : t.Chained) (hc : c ∈ t.linked) : c < t.cells.size := by
  obtain ⟨v, hv⟩ := h.cell hc
  exact (Array.getElem?_eq_some_iff.mp hv).1

/-- A new variable is one more cell, in the chain of its name. A table that would be too full grows
first: four times as many buckets, less one, are more than enough for one variable more. -/
theorem Chained.create_spec (h : t.Chained) (n : Name) :
    let t' := (t.create n).2
    (t.create n).1 = t.cells.size ∧ t'.cells = t.cells.push { name := n } ∧
      t'.count = t.count + 1 ∧ 0 < t'.buckets.size ∧ Placed t'.cells t'.buckets ∧
      t'.linked.Perm (t.cells.size :: t.linked) ∧
      (t.count ≤ 2 * t.buckets.size → t'.count ≤ 2 * t'.buckets.size) := by
  have hnew : (t.cells.push { name := n })[t.cells.size]? = some { name := n } :=
    Array.getElem?_push_size
  have hpos := h.buckets
  unfold Table.create
  dsimp only
  split
  · let t₁ : Table := { t with count := t.count + 1 }
    obtain ⟨hsize, hplaced, hperm⟩ := grow_spec (t := t₁) hpos h.placed
    have hsize : t₁.grow.buckets.size = 4 * t.buckets.size - 1 := hsize
    have hgrown : 0 < t₁.grow.buckets.size := by omega
    refine ⟨rfl, rfl, rfl, ?_, (hplaced.push _).link hnew, ?_, fun hload => ?_⟩
    · rwa [size_link]
    · exact (link_perm hgrown hnew).trans (hperm.cons _)
    · show t.count + 1 ≤ 2 * (link _ _ _).size
      rw [size_link, hsize]
      omega
  · next hspare =>
    refine ⟨rfl, rfl, rfl, ?_, (h.placed.push _).link hnew, link_perm hpos hnew, fun _ => ?_⟩
    · rwa [size_link]
    · show t.count + 1 ≤ 2 * (link _ _ _).size
      rw [size_link]
      exact Nat.le_of_not_lt hspare

theorem Chained.create (h : t.Chained) (n : Name) : (t.create n).2.Chained := by
  obtain ⟨-, -, -, hpos, hplaced, hperm, -⟩ := h.create_spec n
  refine ⟨hpos, hplaced, hperm.nodup_iff.mpr (List.nodup_cons.mpr ⟨fun hc => ?_, h.nodup⟩)⟩
  exact Nat.lt_irrefl _ (h.lt_size hc)

theorem Chained.modify (h : t.Chained) (c : Nat) (f : Variable → Variable)
    (hname : ∀ v, (f v).name = v.name) : { t with cells := t.cells.modify c f }.Chained := by
  refine ⟨h.buckets, ?_, h.nodup⟩
  intro i d hd
  obtain ⟨v, hv, hi⟩ := h.placed i d hd
  rw [Array.getElem?_modify, hv]
  split
  · exact ⟨f v, rfl, by rw [hname, hi]⟩
  · exact ⟨v, rfl, hi⟩

/-- Emptying a table keeps its buckets, without a chain. -/
theorem reset_eq (t : Table) :
    t.reset = { ofSize t.buckets.size with epoch := t.epoch + 1 } := by
  rw [reset, Array.map_const', ofSize]

theorem Chained.reset (h : t.Chained) : t.reset.Chained := by
  have hnew := chained_ofSize h.buckets
  rw [reset_eq]
  exact ⟨hnew.buckets, hnew.placed, hnew.nodup⟩

theorem unlink_eq (hv : t.cells[c]? = some v) : t.unlink c = { t with
    count := t.count - 1
    buckets := t.buckets.modify (t.bucketOf v.name) (·.erase c) } := by
  rw [unlink, hv]

/-- Unlinking a cell takes it out of every chain, which leaves the others in order. -/
theorem Chained.chain_unlink (h : t.Chained) (hc : c ∈ t.linked) (i : Nat) :
    (t.unlink c).chain i = (t.chain i).erase c := by
  obtain ⟨v, hv⟩ := h.cell hc
  rw [unlink_eq hv, chain, Array.getElem?_modify]
  split
  · rw [chain]
    cases t.buckets[i]? <;> rfl
  · rename_i hi
    symm
    apply List.erase_of_not_mem
    intro hmem
    obtain ⟨w, hw, hbucket⟩ := h.placed i c hmem
    rw [hv] at hw
    cases hw
    exact hi hbucket

theorem Chained.linked_unlink (h : t.Chained) (hc : c ∈ t.linked) :
    (t.unlink c).linked = t.linked.erase c := by
  obtain ⟨v, hv⟩ := h.cell hc
  have hmem := h.mem_chain hc hv
  have hlt : t.bucketOf v.name < t.buckets.toList.length := slot_lt h.buckets v.name
  obtain ⟨before, chain, after, hsplit, hlength, hmodify⟩ := List.exists_of_modify (·.erase c) hlt
  have hchain : t.chain (t.bucketOf v.name) = chain := by
    rw [Table.chain, ← Array.getElem?_toList, hsplit, ← hlength]
    simp
  rw [hchain] at hmem
  have hlinked : t.linked = before.flatten ++ (chain ++ after.flatten) := by
    rw [linked, hsplit, List.flatten_append, List.flatten_cons]
  have hbefore : c ∉ before.flatten := by
    have hnodup := h.nodup
    rw [hlinked] at hnodup
    exact fun hb => (List.disjoint_of_nodup_append hnodup) hb (List.mem_append_left _ hmem)
  rw [unlink_eq hv, linked, Array.toList_modify, hmodify, List.flatten_append, List.flatten_cons,
    hlinked, List.erase_append_right _ hbefore, List.erase_append_left _ hmem]

theorem Chained.unlink (h : t.Chained) (hc : c ∈ t.linked) : (t.unlink c).Chained := by
  obtain ⟨v, hv⟩ := h.cell hc
  have hsize : (t.unlink c).buckets.size = t.buckets.size := by rw [unlink_eq hv, Array.size_modify]
  refine ⟨hsize ▸ h.buckets, ?_, ?_⟩
  · intro i d hd
    have hmem : d ∈ (t.unlink c).chain i := hd
    rw [h.chain_unlink hc] at hmem
    obtain ⟨w, hw, hi⟩ := h.placed i d (List.mem_of_mem_erase hmem)
    exact ⟨w, by rw [unlink_eq hv, hw], by rw [hsize, hi]⟩
  · rw [h.linked_unlink hc]
    exact h.nodup.erase c

/-! ## Tables and maps -/

theorem isNamed_iff : t.isNamed n c = true ↔ ∃ v, t.cells[c]? = some v ∧ v.name = n := by
  unfold isNamed
  cases t.cells[c]? with
  | none => simp
  | some v => simp

structure Holds (t : Table) (b : Bindings) : Prop where
  cells : t.cells = b.vars
  buckets : 0 < t.buckets.size
  placed : Placed t.cells t.buckets
  nodup : t.linked.Nodup
  bound : ∀ n c, b.bound[n]? = some c ↔ c ∈ t.linked ∧ t.isNamed n c = true
  count : t.count = t.linked.length
  size : b.bound.size = t.count
  load : t.count ≤ 2 * t.buckets.size

theorem Holds.chained (h : t.Holds b) : t.Chained := ⟨h.buckets, h.placed, h.nodup⟩

theorem holds_ofSize {m : Nat} (hm : 0 < m) : (ofSize m).Holds {} := by
  have hchained := chained_ofSize hm
  refine ⟨rfl, hchained.buckets, hchained.placed, hchained.nodup, ?_, ?_, Std.ExtTreeMap.size_empty,
    Nat.zero_le _⟩
  · intro n c
    simp [linked_ofSize]
  · rw [linked_ofSize]
    rfl

theorem Holds.find?_eq (h : t.Holds b) (n : Name) : t.find? n = b.bound[n]? := by
  have hfound : ∀ c, t.find? n = some c → b.bound[n]? = some c := by
    intro c hc
    refine (h.bound n c).mpr ⟨mem_linked.mpr ⟨_, List.mem_of_find?_eq_some hc⟩, ?_⟩
    exact List.find?_some hc
  cases hfind : t.find? n with
  | some c => exact (hfound c hfind).symm
  | none =>
    cases hbound : b.bound[n]? with
    | none => rfl
    | some c =>
      obtain ⟨hc, hnamed⟩ := (h.bound n c).mp hbound
      obtain ⟨v, hv, rfl⟩ := isNamed_iff.mp hnamed
      exact absurd hnamed (List.find?_eq_none.mp hfind c (h.chained.mem_chain hc hv))

theorem Holds.name_eq (h : t.Holds b) (hbound : b.bound[n]? = some c) :
    ∃ v, b.vars[c]? = some v ∧ v.name = n := by
  obtain ⟨-, hnamed⟩ := (h.bound n c).mp hbound
  rw [← h.cells]
  exact isNamed_iff.mp hnamed

theorem Holds.mem_linked_iff (h : t.Holds b) :
    c ∈ t.linked ↔ ∃ v, b.vars[c]? = some v ∧ b.bound[v.name]? = some c := by
  constructor
  · intro hc
    obtain ⟨v, hv⟩ := h.chained.cell hc
    refine ⟨v, h.cells ▸ hv, (h.bound _ _).mpr ⟨hc, isNamed_iff.mpr ⟨v, hv, rfl⟩⟩⟩
  · rintro ⟨v, -, hbound⟩
    exact ((h.bound _ _).mp hbound).1

theorem Holds.isLinked_eq (h : t.Holds b) (hv : b.vars[c]? = some v) :
    t.isLinked c = true ↔ b.bound[v.name]? = some c := by
  have hcell : t.cells[c]? = some v := h.cells ▸ hv
  rw [h.chained.isLinked_iff, h.bound]
  exact (and_iff_left (isNamed_iff.mpr ⟨v, hcell, rfl⟩)).symm

/-- Changing a variable, but not its name, changes no binding. -/
theorem Holds.modify (h : t.Holds b) (c : Nat) (f : Variable → Variable)
    (hname : ∀ v, (f v).name = v.name) :
    { t with cells := t.cells.modify c f }.Holds (b.modify c f) := by
  have hcell (d : Nat) : ((t.cells.modify c f)[d]?).map (·.name) = (t.cells[d]?).map (·.name) := by
    rw [Array.getElem?_modify]
    split
    · cases t.cells[d]? with
      | none => rfl
      | some v => exact congrArg some (hname v)
    · rfl
  have hnamed (n : Name) (d : Nat) :
      { t with cells := t.cells.modify c f }.isNamed n d = t.isNamed n d := by
    have hany (o : Option Variable) :
        o.any (·.name == n) = (o.map (·.name)).any (· == n) := by
      cases o <;> rfl
    rw [isNamed, isNamed, hany, hany, hcell]
  refine ⟨congrArg (Array.modify · c f) h.cells, h.buckets, (h.chained.modify c f hname).placed,
    h.nodup, ?_, h.count, h.size, h.load⟩
  intro m d
  rw [hnamed]
  exact h.bound m d

/-- Binding a new name leaves the other bindings as they are. -/
theorem Holds.bound_insert (h : t.Holds b) (hn : b.bound[n]? = none) (m : Name) (new c : Nat) :
    (b.bound.insert n new)[m]? = some c ↔
      c = new ∧ m = n ∨ c ∈ t.linked ∧ t.isNamed m c = true := by
  rw [Std.ExtTreeMap.getElem?_insert, ← h.bound]
  by_cases hm : n = m
  · subst hm
    rw [if_pos Std.compare_self, hn]
    simp [eq_comm]
  · rw [if_neg (by simpa using hm)]
    exact (or_iff_right fun he => hm he.2.symm).symm

theorem Holds.join {t' : Table} (h : t.Holds b) (hn : b.bound[n]? = none)
    (hcells : t'.cells = t.cells.push { name := n }) (hplaced : Placed t'.cells t'.buckets)
    (hbuckets : 0 < t'.buckets.size) (hlinked : t'.linked.Perm (t.cells.size :: t.linked))
    (hcount : t'.count = t.count + 1) (hload : t'.count ≤ 2 * t'.buckets.size) :
    t'.Holds ⟨b.vars.push { name := n }, b.bound.insert n b.vars.size⟩ := by
  have hnew (m : Name) : t'.isNamed m t.cells.size = true ↔ m = n := by
    rw [isNamed, hcells, Array.getElem?_push_size, Option.any_some, beq_iff_eq]
    exact eq_comm
  have hold (m : Name) {c : Nat} (hc : c ∈ t.linked) : t'.isNamed m c = t.isNamed m c := by
    rw [isNamed, isNamed, hcells, Array.getElem?_push, if_neg (Nat.ne_of_lt (h.chained.lt_size hc))]
  refine ⟨by rw [hcells, h.cells], hbuckets, hplaced, ?_, ?_, ?_, ?_, hload⟩
  · refine hlinked.nodup_iff.mpr (List.nodup_cons.mpr ⟨?_, h.nodup⟩)
    intro hmem
    exact Nat.lt_irrefl _ (h.chained.lt_size hmem)
  · intro m c
    rw [h.bound_insert hn, hlinked.mem_iff, List.mem_cons, ← h.cells]
    constructor
    · rintro (⟨rfl, rfl⟩ | ⟨hc, hnamed⟩)
      · exact ⟨.inl rfl, (hnew m).mpr rfl⟩
      · exact ⟨.inr hc, (hold m hc).trans hnamed⟩
    · rintro ⟨rfl | hc, hnamed⟩
      · exact .inl ⟨rfl, (hnew m).mp hnamed⟩
      · exact .inr ⟨hc, (hold m hc).symm.trans hnamed⟩
  · rw [hcount, hlinked.length_eq, List.length_cons, h.count]
  · have hmem : ¬ b.bound.contains n = true := by
      rw [Std.ExtTreeMap.contains_eq_isSome_getElem?, hn]
      exact Bool.false_ne_true
    show (b.bound.insert n b.vars.size).size = _
    rw [Std.ExtTreeMap.size_insert, if_neg hmem, h.size, hcount]

/-- Creating a variable binds its name. A table that would be too full grows first. -/
theorem Holds.create (h : t.Holds b) (hn : b.bound[n]? = none) :
    (t.create n).1 = (b.add n).1 ∧ (t.create n).2.Holds (b.add n).2 := by
  rw [Bindings.add, hn]
  obtain ⟨hcell, hcells, hcount, hpos, hplaced, hperm, hload⟩ := h.chained.create_spec n
  exact ⟨hcell.trans (congrArg Array.size h.cells), h.join hn hcells hplaced hpos hperm hcount (hload h.load)⟩

theorem Holds.unlink (h : t.Holds b) (hv : b.vars[c]? = some v)
    (hbound : b.bound[v.name]? = some c) :
    (t.unlink c).Holds { b with bound := b.bound.erase v.name } := by
  have hcell : t.cells[c]? = some v := h.cells ▸ hv
  have hmem : c ∈ t.linked := ((h.bound _ _).mp hbound).1
  have hchained := h.chained.unlink hmem
  have hlinked := h.chained.linked_unlink hmem
  have hsize : (t.unlink c).buckets.size = t.buckets.size := by
    rw [unlink_eq hcell, Array.size_modify]
  have hcells : (t.unlink c).cells = t.cells := by rw [unlink_eq hcell]
  have hnamed (m : Name) (d : Nat) : (t.unlink c).isNamed m d = t.isNamed m d := by
    rw [isNamed, isNamed, hcells]
  have hcount : (t.unlink c).count = t.count - 1 := by rw [unlink_eq hcell]
  refine ⟨hcells.trans h.cells, hchained.buckets, hchained.placed, hchained.nodup, ?_, ?_, ?_, ?_⟩
  · intro m d
    rw [hlinked, h.nodup.mem_erase_iff, hnamed, Std.ExtTreeMap.getElem?_erase]
    by_cases hm : v.name = m
    · subst hm
      rw [if_pos Std.compare_self]
      constructor
      · intro he
        cases he
      · rintro ⟨⟨hd, hmem'⟩, hnamed'⟩
        have hbound' := (h.bound _ _).mpr ⟨hmem', hnamed'⟩
        rw [hbound] at hbound'
        exact absurd (Option.some.inj hbound').symm hd
    · rw [if_neg (by simpa using hm), h.bound]
      constructor
      · rintro ⟨hmem', hnamed'⟩
        refine ⟨⟨?_, hmem'⟩, hnamed'⟩
        rintro rfl
        obtain ⟨w, hw, hname⟩ := isNamed_iff.mp hnamed'
        rw [hcell] at hw
        cases hw
        exact hm hname
      · rintro ⟨⟨-, hmem'⟩, hnamed'⟩
        exact ⟨hmem', hnamed'⟩
  · rw [hcount, hlinked, List.length_erase_of_mem hmem, h.count]
  · have hsmaller := Bindings.size_erase hbound
    have hcounted := h.size
    show (b.bound.erase v.name).size = _
    rw [hcount]
    omega
  · have hload := h.load
    rw [hcount, hsize]
    omega

theorem Holds.reset (h : t.Holds b) : t.reset.Holds {} := by
  have hnew := holds_ofSize h.buckets
  rw [reset_eq]
  exact ⟨hnew.cells, hnew.buckets, hnew.placed, hnew.nodup, hnew.bound, hnew.count, hnew.size,
    hnew.load⟩

end Table
end ConsoleScript
