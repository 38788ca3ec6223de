import ConsoleScript.Console.Object
import Mathlib.Data.List.Basic

/-!
# Children and groups

What the operations on sets do to each object: to its children, to the group that owns it, and to
everything else about it, which is nothing.
-/

namespace ConsoleScript

/-- An object without its fields and its place among the others. -/
def Object.core (x : Object) : Object := { x with fields := [], children := [], group := none }

namespace Objects

variable {o o' o'' : Objects} {r s set child : ObjectRef} {f : Object → Object}
  {l : List ObjectRef → List ObjectRef} {g : Option ObjectRef}

@[simp] theorem size_modify : (o.modify r f).store.size = o.store.size := Array.size_modify

theorem live_modify : (o.modify r f).live = o.live := rfl

theorem nextId_modify : (o.modify r f).nextId = o.nextId := rfl

theorem get_of_size_le (h : o.store.size ≤ r) : o.get r = { cls := ⟨0⟩ } := by
  rw [get, Array.getElem?_eq_none h, Option.getD_none]

theorem get_modify_self (h : r < o.store.size) : (o.modify r f).get r = f (o.get r) := by
  rw [get, get, modify, Array.getElem?_modify, if_pos rfl, Array.getElem?_eq_getElem h]
  rfl

theorem get_modify_ne (h : s ≠ r) : (o.modify r f).get s = o.get s := by
  rw [get, get, modify, Array.getElem?_modify, if_neg h.symm]

theorem congr_modify {α : Type} (p : Object → α) (h : ∀ x, p (f x) = p x) (s : ObjectRef) :
    p ((o.modify r f).get s) = p (o.get s) := by
  by_cases hs : s = r
  · subst hs
    by_cases hlt : s < o.store.size
    · rw [get_modify_self hlt, h]
    · rw [get_of_size_le (Nat.le_of_not_lt hlt), get_of_size_le (by simpa using hlt)]
  · rw [get_modify_ne hs]

theorem lt_size_of_registered (h : (o.get r).registered = true) : r < o.store.size := by
  apply Nat.lt_of_not_le
  intro hle
  rw [get_of_size_le hle] at h
  cases h

theorem lt_size_of_isSet (h : (o.get r).isSet = true) : r < o.store.size := by
  apply Nat.lt_of_not_le
  intro hle
  rw [get_of_size_le hle] at h
  cases h

theorem lt_size_of_ownsChildren (h : (o.get r).ownsChildren = true) : r < o.store.size := by
  apply Nat.lt_of_not_le
  intro hle
  rw [get_of_size_le hle] at h
  cases h

theorem lt_size_of_mem_children (h : s ∈ (o.get r).children) : r < o.store.size := by
  apply Nat.lt_of_not_le
  intro hle
  rw [get_of_size_le hle] at h
  cases h

theorem lt_size_of_group (h : (o.get r).group = some s) : r < o.store.size := by
  apply Nat.lt_of_not_le
  intro hle
  rw [get_of_size_le hle] at h
  cases h

/-! ## What stays -/

/-- Objects may have been made, and children, groups and fields may differ; nothing else does. -/
structure Keeps (o o' : Objects) : Prop where
  live : o'.live = o.live
  named : o'.named = o.named
  size : o.store.size ≤ o'.store.size
  core : ∀ r, r < o.store.size → (o'.get r).core = (o.get r).core
  fresh : ∀ r, o.store.size ≤ r → (o'.get r).registered = false ∧ (o'.get r).links = []

theorem Keeps.refl (o : Objects) : Keeps o o where
  live := rfl
  named := rfl
  size := Nat.le_refl _
  core _ _ := rfl
  fresh r hr := by rw [get_of_size_le hr]; exact ⟨rfl, rfl⟩

theorem Keeps.registered (h : Keeps o o') (r : ObjectRef) :
    (o'.get r).registered = (o.get r).registered := by
  by_cases hr : r < o.store.size
  · show (o'.get r).core.registered = (o.get r).core.registered
    rw [h.core r hr]
  · rw [(h.fresh r (Nat.le_of_not_lt hr)).1, get_of_size_le (Nat.le_of_not_lt hr)]

theorem Keeps.links (h : Keeps o o') (r : ObjectRef) : (o'.get r).links = (o.get r).links := by
  by_cases hr : r < o.store.size
  · show (o'.get r).core.links = (o.get r).core.links
    rw [h.core r hr]
  · rw [(h.fresh r (Nat.le_of_not_lt hr)).2, get_of_size_le (Nat.le_of_not_lt hr)]

theorem Keeps.trans (h : Keeps o o') (h' : Keeps o' o'') : Keeps o o'' where
  live := h'.live.trans h.live
  named := h'.named.trans h.named
  size := Nat.le_trans h.size h'.size
  core r hr := (h'.core r (Nat.lt_of_lt_of_le hr h.size)).trans (h.core r hr)
  fresh r hr := by rw [h'.registered, h'.links]; exact h.fresh r hr

theorem Keeps.modify (o : Objects) (r : ObjectRef) (hf : ∀ x, (f x).core = x.core) :
    Keeps o (o.modify r f) where
  live := rfl
  named := rfl
  size := Nat.le_of_eq size_modify.symm
  core s _ := congr_modify Object.core hf s
  fresh s hs := by rw [get_of_size_le (by simpa using hs)]; exact ⟨rfl, rfl⟩

theorem Keeps.make (o : Objects) {obj : Object} (h : obj.registered = false)
    (hlinks : obj.links = []) : Keeps o (o.make obj).2 where
  live := rfl
  named := rfl
  size := by simp [Objects.make]
  core s hs := by
    simp only [get, Objects.make, Array.getElem?_push, if_neg (Nat.ne_of_lt hs)]
  fresh s hs := by
    simp only [get, Objects.make, Array.getElem?_push]
    split
    · exact ⟨h, hlinks⟩
    · rw [Array.getElem?_eq_none hs]
      exact ⟨rfl, rfl⟩

/-! ## Single edits -/

def reorder (o : Objects) (r : ObjectRef) (l : List ObjectRef → List ObjectRef) : Objects :=
  o.modify r fun x => { x with children := l x.children }

def regroup (o : Objects) (r : ObjectRef) (g : Option ObjectRef) : Objects :=
  o.modify r fun x => { x with group := g }

@[simp] theorem size_reorder : (o.reorder r l).store.size = o.store.size := size_modify

@[simp] theorem size_regroup : (o.regroup r g).store.size = o.store.size := size_modify

theorem Keeps.reorder (o : Objects) (r : ObjectRef) (l : List ObjectRef → List ObjectRef) :
    Keeps o (o.reorder r l) :=
  .modify o r fun _ => rfl

theorem Keeps.regroup (o : Objects) (r : ObjectRef) (g : Option ObjectRef) :
    Keeps o (o.regroup r g) :=
  .modify o r fun _ => rfl

@[simp] theorem group_reorder : ((o.reorder r l).get s).group = (o.get s).group :=
  congr_modify (f := fun x => { x with children := l x.children }) Object.group (fun _ => rfl) s

@[simp] theorem children_regroup : ((o.regroup r g).get s).children = (o.get s).children :=
  congr_modify (f := fun x => { x with group := g }) Object.children (fun _ => rfl) s

theorem children_reorder (h : r < o.store.size) : ((o.reorder r l).get s).children =
    if s = r then l (o.get s).children else (o.get s).children := by
  split
  · subst_vars
    rw [reorder, get_modify_self h]
  · rw [reorder, get_modify_ne ‹_›]

theorem group_regroup (h : r < o.store.size) : ((o.regroup r g).get s).group =
    if s = r then g else (o.get s).group := by
  split
  · subst_vars
    rw [regroup, get_modify_self h]
  · rw [regroup, get_modify_ne ‹_›]

/-! ## Taking a child out -/

theorem removeChild_of_not_mem (h : child ∉ (o.get set).children) :
    (o.removeChild set child).2 = o := by
  rw [removeChild, if_pos (by simpa using h)]

theorem removeChild_of_mem (h : child ∈ (o.get set).children) : (o.removeChild set child).2 =
    if (o.get child).group = some set then (o.reorder set (·.erase child)).regroup child none
    else o.reorder set (·.erase child) := by
  have hgroup : ((o.reorder set (·.erase child)).get child).group = (o.get child).group :=
    group_reorder
  rw [removeChild, if_neg (by simpa using h), ← hgroup]
  simp only [beq_iff_eq]
  rfl

theorem Keeps.removeChild (o : Objects) (set child : ObjectRef) :
    Keeps o (o.removeChild set child).2 := by
  by_cases h : child ∈ (o.get set).children
  · rw [removeChild_of_mem h]
    split
    · exact (Keeps.reorder o set _).trans (.regroup _ child none)
    · exact .reorder o set _
  · rw [removeChild_of_not_mem h]
    exact .refl o

theorem Keeps.removeFromSets (o : Objects) (child : ObjectRef) :
    Keeps o (o.removeFromSets child) := by
  rw [Objects.removeFromSets]
  generalize o.listed = sets
  induction sets generalizing o with
  | nil => exact .refl o
  | cons set sets ih =>
    rw [List.foldl_cons]
    dsimp only
    split
    · exact (Keeps.removeChild o set child).trans (ih _)
    · exact ih o

theorem children_removeChild (o : Objects) (set child s : ObjectRef) :
    ((o.removeChild set child).2.get s).children =
      if s = set then (o.get s).children.erase child else (o.get s).children := by
  by_cases h : child ∈ (o.get set).children
  · rw [removeChild_of_mem h]
    split
    · rw [children_regroup, children_reorder (lt_size_of_mem_children h)]
    · rw [children_reorder (lt_size_of_mem_children h)]
  · rw [removeChild_of_not_mem h]
    split
    · subst_vars
      rw [List.erase_of_not_mem h]
    · rfl

theorem group_removeChild (o : Objects) (set child s : ObjectRef) :
    ((o.removeChild set child).2.get s).group =
      if s = child ∧ child ∈ (o.get set).children ∧ (o.get child).group = some set then none
      else (o.get s).group := by
  by_cases h : child ∈ (o.get set).children
  · rw [removeChild_of_mem h]
    by_cases hgroup : (o.get child).group = some set
    · rw [if_pos hgroup, group_regroup (by simpa using lt_size_of_group hgroup), group_reorder]
      simp only [h, hgroup, and_self, and_true]
    · rw [if_neg hgroup, group_reorder, if_neg fun h => hgroup h.2.2]
  · rw [removeChild_of_not_mem h, if_neg fun h' => h h'.2.1]

/-! ## Putting a child in -/

def Accepts (o : Objects) (set child : ObjectRef) : Prop :=
  (o.get set).isSet = true ∧ child ≠ set ∧ child ∉ (o.get set).children

/-- The registry once a child has left the group that owned it for another one. -/
def leave (o : Objects) (set child : ObjectRef) : Objects :=
  match (o.get set).ownsChildren, (o.get child).group with
  | true, some g => (o.removeChild g child).2
  | _, _ => o

theorem addChild_of_not_accepts (h : ¬ o.Accepts set child) : (o.addChild set child).2 = o := by
  rw [addChild, if_pos]
  by_contra hno
  apply h
  simpa [Accepts, and_assoc] using hno

theorem addChild_of_accepts (h : o.Accepts set child) : (o.addChild set child).2 =
    if (o.get set).ownsChildren = true then
      ((o.leave set child).reorder set (· ++ [child])).regroup child (some set)
    else (o.leave set child).reorder set (· ++ [child]) := by
  rw [addChild, if_neg (by simpa [Accepts, and_assoc] using h)]
  rfl

theorem leave_of_not_owns (h : (o.get set).ownsChildren ≠ true) : o.leave set child = o := by
  rw [leave]
  split
  · exact absurd ‹_› h
  · rfl

theorem Keeps.leave (o : Objects) (set child : ObjectRef) : Keeps o (o.leave set child) := by
  rw [Objects.leave]
  split
  · exact .removeChild o _ child
  · exact .refl o

theorem Keeps.addChild (o : Objects) (set child : ObjectRef) :
    Keeps o (o.addChild set child).2 := by
  by_cases h : o.Accepts set child
  · have happend := (Keeps.leave o set child).trans (.reorder _ set (· ++ [child]))
    rw [addChild_of_accepts h]
    split
    · exact happend.trans (.regroup _ child (some set))
    · exact happend
  · rw [addChild_of_not_accepts h]
    exact .refl o

theorem children_leave (o : Objects) (set child s : ObjectRef) :
    ((o.leave set child).get s).children =
      if (o.get set).ownsChildren = true ∧ (o.get child).group = some s then
        (o.get s).children.erase child
      else (o.get s).children := by
  rw [leave]
  split
  · rename_i g howns hgroup
    rw [children_removeChild, howns, hgroup]
    simp only [true_and, Option.some.injEq, eq_comm]
  · rename_i hnot
    rw [if_neg fun h => hnot s h.1 h.2]

theorem group_leave_of_ne (hs : s ≠ child) : ((o.leave set child).get s).group = (o.get s).group := by
  rw [leave]
  split
  · rw [group_removeChild, if_neg fun h => hs h.1]
  · rfl

theorem children_addChild (h : o.Accepts set child) (s : ObjectRef) :
    ((o.addChild set child).2.get s).children =
      if s = set then (o.get s).children ++ [child]
      else if (o.get set).ownsChildren = true ∧ (o.get child).group = some s then
        (o.get s).children.erase child
      else (o.get s).children := by
  have hset : set < (o.leave set child).store.size :=
    Nat.lt_of_lt_of_le (lt_size_of_isSet h.1) (Keeps.leave o set child).size
  have hall : ((o.addChild set child).2.get s).children =
      if s = set then ((o.leave set child).get s).children ++ [child]
      else ((o.leave set child).get s).children := by
    rw [addChild_of_accepts h]
    split
    · rw [children_regroup, children_reorder hset]
    · rw [children_reorder hset]
  rw [hall, children_leave]
  split
  · subst_vars
    split
    · rw [List.erase_of_not_mem h.2.2]
    · rfl
  · rfl

theorem group_addChild (h : o.Accepts set child) (hchild : child < o.store.size) (s : ObjectRef) :
    ((o.addChild set child).2.get s).group =
      if s = child ∧ (o.get set).ownsChildren = true then some set else (o.get s).group := by
  have hchild' : child < ((o.leave set child).reorder set (· ++ [child])).store.size := by
    rw [size_reorder]
    exact Nat.lt_of_lt_of_le hchild (Keeps.leave o set child).size
  rw [addChild_of_accepts h]
  by_cases howns : (o.get set).ownsChildren = true
  · rw [if_pos howns, group_regroup hchild', group_reorder]
    by_cases hs : s = child
    · rw [if_pos hs, if_pos ⟨hs, howns⟩]
    · rw [if_neg hs, if_neg fun h => hs h.1, group_leave_of_ne hs]
  · rw [if_neg howns, group_reorder, leave_of_not_owns howns, if_neg fun h => howns h.2]

end Objects

end ConsoleScript
