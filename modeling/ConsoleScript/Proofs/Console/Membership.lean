import ConsoleScript.Proofs.Console.Linkage

/-!
# Numbers, names and members

Numbers and names lead to registered objects, and no set has a child twice. That holds whatever
happens. That the children of a group are the objects that belong to it, and that all of them are
registered, holds as far as no deletion is in progress: an object that is deleted has lost its
children already when those that belonged to it are deleted one after the other.
-/

namespace ConsoleScript

namespace Objects

variable {o o' o'' : Objects} {r s set child g : ObjectRef}

/-! ## Numbers, names, and no child twice -/

/-- Numbers and names lead to registered objects that have them, and no set has a child twice. -/
structure Indexed (o : Objects) : Prop where
  live : ∀ (id : UInt32) (r : ObjectRef), o.live[id]? = some r →
    (o.get r).registered = true ∧ (o.get r).id = id
  named : ∀ (n : Name) (r : ObjectRef), o.named[n]? = some r →
    (o.get r).registered = true ∧ (o.get r).name = some n
  nodup : ∀ s, (o.get s).children.Nodup

theorem indexed_empty : Indexed {} where
  live id r h := by
    rw [Std.TreeMap.getElem?_emptyc] at h
    cases h
  named n r h := by
    rw [Std.TreeMap.getElem?_emptyc] at h
    cases h
  nodup s := by
    rw [get_of_size_le (Nat.zero_le s)]
    exact List.nodup_nil

theorem Indexed.registered_of_known (h : o.Indexed) (hr : o.Known r) : (o.get r).registered = true := by
  obtain hr | ⟨id, hid⟩ | ⟨n, hn⟩ := hr
  · exact hr
  · exact (h.live id r hid).1
  · exact (h.named n r hn).1

theorem Keeps.core_of_registered (h : Keeps o o') (hr : (o.get r).registered = true) :
    (o'.get r).core = (o.get r).core :=
  h.core r (lt_size_of_registered hr)

theorem Keeps.isSet (h : Keeps o o') (hr : r < o.store.size) : (o'.get r).isSet = (o.get r).isSet := by
  show (o'.get r).core.isSet = (o.get r).core.isSet
  rw [h.core r hr]

theorem Keeps.ownsChildren (h : Keeps o o') (hr : r < o.store.size) :
    (o'.get r).ownsChildren = (o.get r).ownsChildren := by
  show (o'.get r).core.ownsChildren = (o.get r).core.ownsChildren
  rw [h.core r hr]

theorem Indexed.keeps (h : o.Indexed) (hkeeps : Keeps o o') (hnodup : ∀ s, (o'.get s).children.Nodup) :
    o'.Indexed where
  live id r hid := by
    rw [hkeeps.live] at hid
    obtain ⟨hr, he⟩ := h.live id r hid
    exact ⟨(hkeeps.registered r).trans hr, (congrArg Object.id (hkeeps.core_of_registered hr)).trans he⟩
  named n r hn := by
    rw [hkeeps.named] at hn
    obtain ⟨hr, he⟩ := h.named n r hn
    exact ⟨(hkeeps.registered r).trans hr, (congrArg Object.name (hkeeps.core_of_registered hr)).trans he⟩
  nodup := hnodup

theorem nodup_removeChild (h : ∀ s, (o.get s).children.Nodup) (set child s : ObjectRef) :
    ((o.removeChild set child).2.get s).children.Nodup := by
  rw [children_removeChild]
  split
  · exact (h s).erase child
  · exact h s

theorem nodup_addChild (h : ∀ s, (o.get s).children.Nodup) (set child s : ObjectRef) :
    ((o.addChild set child).2.get s).children.Nodup := by
  by_cases haccepts : o.Accepts set child
  · rw [children_addChild haccepts]
    split
    · rename_i hs
      rw [hs]
      exact List.nodup_append.mpr ⟨h set, List.nodup_singleton child, by
        rintro a ha b hb rfl
        exact haccepts.2.2 (List.mem_singleton.mp hb ▸ ha)⟩
    · split
      · exact (h s).erase child
      · exact h s
  · rw [addChild_of_not_accepts haccepts]
    exact h s

/-- Where something is a child afterwards, it was one before or it is the new one. -/
theorem mem_children_addChild (haccepts : o.Accepts set child) {s c : ObjectRef}
    (hc : c ∈ ((o.addChild set child).2.get s).children) : s = set ∧ c = child ∨ c ∈ (o.get s).children := by
  rw [children_addChild haccepts] at hc
  split at hc
  · rename_i hs
    obtain hc | hc := List.mem_append.mp hc
    · exact .inr hc
    · exact .inl ⟨hs, List.mem_singleton.mp hc⟩
  · split at hc
    · exact .inr (List.mem_of_mem_erase hc)
    · exact .inr hc

theorem children_make {obj : Object} (h : obj.children = []) (s : ObjectRef) :
    ((o.make obj).2.get s).children = (o.get s).children := by
  simp only [get, make, Array.getElem?_push]
  split
  · rename_i hs
    rw [hs, Array.getElem?_eq_none (Nat.le_refl _), Option.getD_some, h]
    rfl
  · rfl

theorem group_make {obj : Object} (h : obj.group = none) (s : ObjectRef) :
    ((o.make obj).2.get s).group = (o.get s).group := by
  simp only [get, make, Array.getElem?_push]
  split
  · rename_i hs
    rw [hs, Array.getElem?_eq_none (Nat.le_refl _), Option.getD_some, h]
    rfl
  · rfl

theorem Change.indexed {strict : Prop} (h : Change strict o o') (ho : o.Indexed) : o'.Indexed := by
  refine ho.keeps h.keeps ?_
  intro s
  cases h with
  | make obj children group registered links =>
    rw [children_make children]
    exact ho.nodup s
  | edit r f rest =>
    have hchildren : ((o.modify r f).get s).children = (o.get s).children := by
      refine congr_modify Object.children ?_ s
      intro x
      rw [rest]
    rw [hchildren]
    exact ho.nodup s
  | @add set child hset hchild => exact nodup_addChild ho.nodup set child s
  | remove set child => exact nodup_removeChild ho.nodup set child s

/-! ## Registering -/

theorem congr_publish {α : Type} (p : Object → α)
    (h : ∀ (x : Object) (id : UInt32), p { x with id := id, registered := true } = p x) (s : ObjectRef) :
    p ((o.publish r).get s) = p (o.get s) := by
  by_cases hs : s = r
  · subst hs
    by_cases hlt : s < o.store.size
    · rw [get_publish hlt, h]
    · rw [get_of_size_le (Nat.le_of_not_lt hlt),
        get_of_size_le (by rw [size_publish]; exact Nat.le_of_not_lt hlt)]
  · rw [get_publish_ne hs]

theorem live_publish : (o.publish r).live = o.live.insert o.nextId r := by
  unfold publish
  dsimp only
  split <;> rfl

theorem named_publish {n : Name} (h : (o.publish r).named[n]? = some s) :
    s = r ∧ (o.get r).name = some n ∨ o.named[n]? = some s := by
  unfold publish at h
  dsimp only at h
  split at h
  · rename_i m hm
    have hinsert : (o.named.insert m r)[n]? = some s := h
    rw [Std.TreeMap.getElem?_insert] at hinsert
    split at hinsert
    · rename_i he
      obtain rfl := Std.compare_eq_iff_eq.mp he
      exact .inl ⟨(Option.some.inj hinsert).symm, hm⟩
    · exact .inr hinsert
  · exact .inr h

theorem Indexed.publish (h : o.Indexed) (hr : r < o.store.size) (hfresh : (o.get r).registered = false) :
    (o.publish r).Indexed where
  live id s hid := by
    rw [live_publish, Std.TreeMap.getElem?_insert] at hid
    split at hid
    · rename_i he
      obtain rfl := Option.some.inj hid
      rw [get_publish hr]
      exact ⟨rfl, Std.compare_eq_iff_eq.mp he⟩
    · have hs := h.live id s hid
      rw [get_publish_ne]
      · exact hs
      · rintro rfl
        rw [hs.1] at hfresh
        cases hfresh
  named n s hn := by
    obtain ⟨rfl, hname⟩ | hn := named_publish hn
    · rw [get_publish hr]
      exact ⟨rfl, hname⟩
    · have hs := h.named n s hn
      rw [get_publish_ne]
      · exact hs
      · rintro rfl
        rw [hs.1] at hfresh
        cases hfresh
  nodup s := by
    rw [congr_publish Object.children fun _ _ => rfl]
    exact h.nodup s

/-! ## Making unknown -/

/-- What making an object unknown leaves alone is the same for every object. -/
theorem congr_withdraw {α : Type} (p : Object → α)
    (h : ∀ x : Object, p { x with registered := false } = p x) (s : ObjectRef) :
    p ((o.withdraw r).get s) = p (o.get s) := by
  rw [get_withdraw]
  exact congr_modify p h s

theorem live_withdraw (o : Objects) (r : ObjectRef) : (o.withdraw r).live = o.live.erase (o.get r).id := by
  unfold withdraw
  dsimp only
  split
  · split <;> rfl
  · rfl

theorem named_withdraw {n : Name} (h : (o.withdraw r).named[n]? = some s) :
    o.named[n]? = some s ∧ ((o.get r).name = some n → s ≠ r) := by
  unfold withdraw at h
  dsimp only at h
  split at h
  · rename_i m hm
    split at h
    · have herase : (o.named.erase m)[n]? = some s := h
      rw [Std.TreeMap.getElem?_erase] at herase
      split at herase
      · cases herase
      · rename_i hne
        refine ⟨herase, ?_⟩
        intro hname
        rw [hm] at hname
        cases hname
        exact absurd Std.ReflCmp.compare_self hne
    · rename_i hother
      have hkept : o.named[n]? = some s := h
      refine ⟨hkept, ?_⟩
      rintro hname rfl
      rw [hm] at hname
      cases hname
      apply hother
      rw [beq_iff_eq]
      exact hkept
  · rename_i hm
    refine ⟨h, ?_⟩
    intro hname
    rw [hm] at hname
    cases hname

theorem Indexed.withdraw (h : o.Indexed) (r : ObjectRef) : (o.withdraw r).Indexed where
  live id s hid := by
    rw [live_withdraw, Std.TreeMap.getElem?_erase] at hid
    split at hid
    · cases hid
    · rename_i hne
      obtain ⟨hs, he⟩ := h.live id s hid
      rw [get_withdraw_ne]
      · exact ⟨hs, he⟩
      · rintro rfl
        exact hne (Std.compare_eq_iff_eq.mpr he)
  named n s hn := by
    obtain ⟨hn, hne⟩ := named_withdraw hn
    obtain ⟨hs, he⟩ := h.named n s hn
    rw [get_withdraw_ne]
    · exact ⟨hs, he⟩
    · rintro rfl
      exact hne he rfl
  nodup s := by
    rw [congr_withdraw Object.children fun _ => rfl]
    exact h.nodup s

theorem children_reorder_nil (o : Objects) (r s : ObjectRef) :
    ((o.reorder r fun _ => []).get s).children = if s = r then [] else (o.get s).children := by
  by_cases hr : r < o.store.size
  · exact children_reorder hr
  · split
    · rename_i hs
      rw [hs, get_of_size_le (by rw [size_reorder]; exact Nat.le_of_not_lt hr)]
    · rename_i hs
      rw [reorder, get_modify_ne hs]

theorem Indexed.detach (h : o.Indexed) (r : ObjectRef) : (o.reorder r fun _ => []).Indexed := by
  refine h.keeps (.reorder o r _) ?_
  intro s
  rw [children_reorder_nil]
  split
  · exact List.nodup_nil
  · exact h.nodup s

theorem Indexed.orphan (h : o.Indexed) (child : ObjectRef) : (o.regroup child none).Indexed := by
  refine h.keeps (.regroup o child none) ?_
  intro s
  rw [children_regroup]
  exact h.nodup s

/-! ## Taking an object out of sets -/

/-- A child may be gone from sets, and from its group when it is gone from the children of that;
everything else is as it was. -/
structure TakesOut (child : ObjectRef) (o o' : Objects) : Prop where
  keeps : Keeps o o'
  sublist : ∀ s, (o'.get s).children.Sublist (o.get s).children
  others : ∀ s c, c ≠ child → c ∈ (o.get s).children → c ∈ (o'.get s).children
  groups : ∀ c, c ≠ child → (o'.get c).group = (o.get c).group
  left : ∀ g, (o'.get child).group = some g → (o.get child).group = some g ∧
    (child ∈ (o.get g).children → child ∈ (o'.get g).children)
  stayed : ∀ g, (o.get child).group = some g → (o.get g).children.Nodup →
    child ∈ (o'.get g).children → (o'.get child).group = some g

namespace TakesOut

theorem refl (child : ObjectRef) (o : Objects) : TakesOut child o o where
  keeps := .refl o
  sublist _ := .refl _
  others _ _ _ h := h
  groups _ _ := rfl
  left _ h := ⟨h, id⟩
  stayed _ h _ _ := h

theorem trans (h : TakesOut child o o') (h' : TakesOut child o' o'') : TakesOut child o o'' where
  keeps := h.keeps.trans h'.keeps
  sublist s := (h'.sublist s).trans (h.sublist s)
  others s c hc hmem := h'.others s c hc (h.others s c hc hmem)
  groups c hc := (h'.groups c hc).trans (h.groups c hc)
  left g hg := by
    obtain ⟨hg', hmem'⟩ := h'.left g hg
    obtain ⟨hg, hmem⟩ := h.left g hg'
    exact ⟨hg, fun hc => hmem' (hmem hc)⟩
  stayed g hg hnodup hmem := by
    have hg' := h.stayed g hg hnodup ((h'.sublist g).subset hmem)
    exact h'.stayed g hg' (hnodup.sublist (h.sublist g)) hmem

theorem group_of (h : TakesOut child o o') {c : ObjectRef} (hg : (o'.get c).group = some g) :
    (o.get c).group = some g := by
  by_cases hc : c = child
  · subst hc
    exact (h.left g hg).1
  · rwa [h.groups c hc] at hg

theorem removeChild (o : Objects) (set child : ObjectRef) : TakesOut child o (o.removeChild set child).2 where
  keeps := .removeChild o set child
  sublist s := by
    rw [children_removeChild]
    split
    · exact List.erase_sublist
    · exact .refl _
  others s c hc hmem := by
    rw [children_removeChild]
    split
    · exact (List.mem_erase_of_ne hc).mpr hmem
    · exact hmem
  groups c hc := by
    rw [group_removeChild, if_neg fun h => hc h.1]
  left g hg := by
    rw [group_removeChild] at hg
    split at hg
    · cases hg
    · rename_i hnot
      refine ⟨hg, ?_⟩
      intro hmem
      rw [children_removeChild, if_neg]
      · exact hmem
      · rintro rfl
        exact hnot ⟨rfl, hmem, hg⟩
  stayed g hg hnodup hmem := by
    rw [group_removeChild, if_neg]
    · exact hg
    · rintro ⟨-, -, hset⟩
      obtain rfl : g = set := Option.some.inj (hg.symm.trans hset)
      rw [children_removeChild, if_pos rfl] at hmem
      exact hnodup.not_mem_erase hmem

theorem leave (o : Objects) (set child : ObjectRef) : TakesOut child o (o.leave set child) := by
  rw [Objects.leave]
  split
  · exact .removeChild o _ child
  · exact .refl child o

/-- Taking an object out of several sets, of those that satisfy a condition. -/
theorem foldl (p : Objects → ObjectRef → Bool) (sets : List ObjectRef) (o : Objects) (child : ObjectRef) :
    TakesOut child o
      (sets.foldl (fun o set => if p o set then (o.removeChild set child).2 else o) o) := by
  induction sets generalizing o with
  | nil => exact .refl child o
  | cons set sets ih =>
    rw [List.foldl_cons]
    split
    · exact (removeChild o set child).trans (ih _)
    · exact ih o

end TakesOut

def isLoose (o : Objects) (set : ObjectRef) : Bool := (o.get set).isSet && !(o.get set).ownsChildren

theorem lt_size_of_isLoose (h : o.isLoose set = true) : set < o.store.size := by
  rw [isLoose, Bool.and_eq_true] at h
  exact lt_size_of_isSet h.1

theorem Keeps.isLoose (h : Keeps o o') (hs : o.isLoose set = true) : o'.isLoose set = true := by
  have hlt := lt_size_of_isLoose hs
  rwa [Objects.isLoose, h.isSet hlt, h.ownsChildren hlt]

theorem mem_listed {id : UInt32} (h : o.live[id]? = some set) : set ∈ o.listed :=
  List.mem_map_of_mem (f := Prod.snd) (Std.TreeMap.mem_toList_iff_getElem?_eq_some.mpr h)

theorem removeFromSets_eq (o : Objects) (child : ObjectRef) : o.removeFromSets child =
    o.listed.foldl (fun o set => if o.isLoose set then (o.removeChild set child).2 else o) o := rfl

theorem takesOut_removeFromSets (o : Objects) (child : ObjectRef) :
    TakesOut child o (o.removeFromSets child) := by
  rw [removeFromSets_eq]
  exact .foldl isLoose _ o child

/-- An object that was taken out of all sets is in none that does not own its children and is found
under a number. -/
theorem not_mem_removeFromSets (hnodup : ∀ s, (o.get s).children.Nodup) (hs : o.isLoose set = true)
    (hmem : set ∈ o.listed) : child ∉ ((o.removeFromSets child).get set).children := by
  rw [removeFromSets_eq]
  generalize o.listed = sets at hmem
  induction sets generalizing o with
  | nil => cases hmem
  | cons q sets ih =>
    have hrest (o : Objects) (hq : child ∉ (o.get set).children) : child ∉ ((sets.foldl
        (fun o set => if o.isLoose set then (o.removeChild set child).2 else o) o).get set).children :=
      fun h => hq (((TakesOut.foldl isLoose sets o child).sublist set).subset h)
    rw [List.foldl_cons]
    obtain rfl | hmem := List.mem_cons.mp hmem
    · rw [if_pos hs]
      apply hrest
      rw [children_removeChild, if_pos rfl]
      exact (hnodup set).not_mem_erase
    · split
      · exact ih (nodup_removeChild hnodup q child) ((Keeps.removeChild o q child).isLoose hs) hmem
      · exact ih hnodup hs hmem

/-! ## Members and deletions -/

/-- Deletions in progress that have taken the children of an object, with those that are left to look
at. -/
abbrev Deletions := List (ObjectRef × List ObjectRef)

def Emptied (l : Deletions) (r : ObjectRef) : Prop := r ∈ l.map Prod.fst

/-- The deletion of a group is going to look at the object. -/
def Awaits (l : Deletions) (g child : ObjectRef) : Prop := ∃ rest, (g, rest) ∈ l ∧ child ∈ rest

/-- A set that does not own its children and is not found under its number: another object has the
number as well. -/
def Unlisted (o : Objects) (set : ObjectRef) : Prop :=
  (o.get set).ownsChildren = false ∧ o.live[(o.get set).id]? ≠ some set

theorem Keeps.unlisted_iff (h : Keeps o o') (hlt : set < o.store.size) :
    o'.Unlisted set ↔ o.Unlisted set := by
  have hid : (o'.get set).id = (o.get set).id := by
    show (o'.get set).core.id = (o.get set).core.id
    rw [h.core set hlt]
  rw [Unlisted, Unlisted, h.ownsChildren hlt, h.live, hid]

theorem Unlisted.withdraw (h : o.Unlisted set) (hne : set ≠ r) : (o.withdraw r).Unlisted set := by
  rw [Unlisted, get_withdraw_ne hne, live_withdraw, Std.TreeMap.getElem?_erase]
  refine ⟨h.1, ?_⟩
  split
  · exact fun hs => nomatch hs
  · exact h.2

variable {l l' : Deletions}

/-- Except for objects whose deletion is in progress, the children of a group are what belongs to it,
and only registered objects have children and are children. Sets that are not found under their number
may have children that are gone. -/
structure Settled (o : Objects) (l : Deletions) : Prop extends Indexed o where
  sets : ∀ s c, c ∈ (o.get s).children → (o.get s).isSet = true
  children : ∀ c g, (o.get c).group = some g → c ∈ (o.get g).children ∨ Awaits l g c
  group : ∀ g c, (o.get g).ownsChildren = true → c ∈ (o.get g).children →
    (o.get c).group = some g ∨ Emptied l g
  parents : ∀ s c, c ∈ (o.get s).children → (o.get s).registered = true ∨ Emptied l s
  members : ∀ s c, c ∈ (o.get s).children → (o.get c).registered = true ∨ Emptied l s ∨ o.Unlisted s
  owners : ∀ c g, (o.get c).group = some g → (o.get g).registered = true ∨ Awaits l g c
  owns : ∀ c g, (o.get c).group = some g → (o.get g).ownsChildren = true

theorem settled_empty : Settled {} [] where
  toIndexed := indexed_empty
  sets s c h := by
    rw [get_of_size_le (Nat.zero_le s)] at h
    cases h
  children c g h := by
    rw [get_of_size_le (Nat.zero_le c)] at h
    cases h
  group g c _ h := by
    rw [get_of_size_le (Nat.zero_le g)] at h
    cases h
  parents s c h := by
    rw [get_of_size_le (Nat.zero_le s)] at h
    cases h
  members s c h := by
    rw [get_of_size_le (Nat.zero_le s)] at h
    cases h
  owners c g h := by
    rw [get_of_size_le (Nat.zero_le c)] at h
    cases h
  owns c g h := by
    rw [get_of_size_le (Nat.zero_le c)] at h
    cases h

namespace Settled

/-- With the same children and groups, and all that was registered still registered, nothing changes
for members. -/
theorem of_same (h : Settled o l) (hindexed : o'.Indexed)
    (hchildren : ∀ s, (o'.get s).children = (o.get s).children)
    (hgroup : ∀ s, (o'.get s).group = (o.get s).group)
    (hset : ∀ s, s < o.store.size → (o'.get s).isSet = (o.get s).isSet)
    (howns : ∀ s, s < o.store.size → (o'.get s).ownsChildren = (o.get s).ownsChildren)
    (hregistered : ∀ s, (o.get s).registered = true → (o'.get s).registered = true)
    (hunlisted : ∀ s, (o.get s).registered = true → o.Unlisted s → o'.Unlisted s) : Settled o' l where
  toIndexed := hindexed
  sets s c hc := by
    rw [hchildren] at hc
    rw [hset s (lt_size_of_mem_children hc)]
    exact h.sets s c hc
  children c g hg := by
    rw [hgroup] at hg
    rw [hchildren]
    exact h.children c g hg
  group g c hown hc := by
    rw [hchildren] at hc
    rw [howns g (lt_size_of_mem_children hc)] at hown
    rw [hgroup]
    exact h.group g c hown hc
  parents s c hc := by
    rw [hchildren] at hc
    exact (h.parents s c hc).imp_left (hregistered s)
  members s c hc := by
    rw [hchildren] at hc
    obtain hregistered' | hemptied | hs := h.members s c hc
    · exact .inl (hregistered c hregistered')
    · exact .inr (.inl hemptied)
    · exact .inr ((h.parents s c hc).symm.imp_right (hunlisted s · hs))
  owners c g hg := by
    rw [hgroup] at hg
    exact (h.owners c g hg).imp_left (hregistered g)
  owns c g hg := by
    rw [hgroup] at hg
    have hown := h.owns c g hg
    rwa [howns g (lt_size_of_ownsChildren hown)]

theorem of_keeps (h : Settled o l) (hkeeps : Keeps o o')
    (hchildren : ∀ s, (o'.get s).children = (o.get s).children)
    (hgroup : ∀ s, (o'.get s).group = (o.get s).group) : Settled o' l := by
  have hindexed : o'.Indexed := by
    refine h.toIndexed.keeps hkeeps ?_
    intro s
    rw [hchildren]
    exact h.nodup s
  refine h.of_same hindexed hchildren hgroup ?_ ?_ ?_ ?_
  · exact fun s hs => hkeeps.isSet hs
  · exact fun s hs => hkeeps.ownsChildren hs
  · exact fun s hs => (hkeeps.registered s).trans hs
  · exact fun s hs => (hkeeps.unlisted_iff (lt_size_of_registered hs)).mpr

theorem takesOut (h : Settled o l) (ht : TakesOut child o o') : Settled o' l where
  toIndexed := h.toIndexed.keeps ht.keeps fun s => (h.nodup s).sublist (ht.sublist s)
  sets s c hc := by
    have hmem := (ht.sublist s).subset hc
    rw [ht.keeps.isSet (lt_size_of_mem_children hmem)]
    exact h.sets s c hmem
  children c g hg := by
    by_cases hc : c = child
    · subst hc
      obtain ⟨hg, hmem⟩ := ht.left g hg
      exact (h.children c g hg).imp_left hmem
    · rw [ht.groups c hc] at hg
      exact (h.children c g hg).imp_left (ht.others g c hc)
  group g c howns hmem' := by
    have hmem := (ht.sublist g).subset hmem'
    rw [ht.keeps.ownsChildren (lt_size_of_mem_children hmem)] at howns
    refine (h.group g c howns hmem).imp_left ?_
    intro hg
    by_cases hc : c = child
    · subst hc
      exact ht.stayed g hg (h.nodup g) hmem'
    · rwa [ht.groups c hc]
  parents s c hc := by
    rw [ht.keeps.registered]
    exact h.parents s c ((ht.sublist s).subset hc)
  members s c hc := by
    have hmem := (ht.sublist s).subset hc
    rw [ht.keeps.registered]
    exact (h.members s c hmem).imp_right
      (Or.imp_right (ht.keeps.unlisted_iff (lt_size_of_mem_children hmem)).mpr)
  owners c g hg := by
    rw [ht.keeps.registered]
    exact h.owners c g (ht.group_of hg)
  owns c g hg := by
    have hown := h.owns c g (ht.group_of hg)
    rwa [ht.keeps.ownsChildren (lt_size_of_ownsChildren hown)]

theorem group_accepted (h : Settled o l) (haccepts : o.Accepts set child) (hchild : child < o.store.size)
    {c : ObjectRef} (howns : (o.get g).ownsChildren = true)
    (hc : c ∈ ((o.addChild set child).2.get g).children) :
    ((o.addChild set child).2.get c).group = some g ∨ Emptied l g := by
  rw [group_addChild haccepts hchild]
  by_cases hg : g = set
  · subst hg
    by_cases hcc : c = child
    · exact .inl (if_pos ⟨hcc, howns⟩)
    · rw [if_neg fun h => hcc h.1]
      obtain ⟨-, he⟩ | hc := mem_children_addChild haccepts hc
      · exact absurd he hcc
      · exact h.group g c howns hc
  · rw [children_addChild haccepts, if_neg hg] at hc
    split at hc
    · have hcc : c ≠ child := by
        rintro rfl
        exact (h.nodup g).not_mem_erase hc
      rw [if_neg fun h => hcc h.1]
      exact h.group g c howns (List.mem_of_mem_erase hc)
    · rename_i hstays
      refine (h.group g c howns hc).imp_left ?_
      intro hcg
      rw [if_neg]
      · exact hcg
      · rintro ⟨rfl, hset⟩
        exact hstays ⟨hset, hcg⟩

theorem children_accepted (h : Settled o l) (haccepts : o.Accepts set child)
    (hchild : child < o.store.size) {c : ObjectRef}
    (hg : ((o.addChild set child).2.get c).group = some g) :
    c ∈ ((o.addChild set child).2.get g).children ∨ Awaits l g c := by
  rw [group_addChild haccepts hchild] at hg
  rw [children_addChild haccepts]
  split at hg
  · rename_i hc
    obtain rfl := Option.some.inj hg
    rw [if_pos rfl, hc.1]
    exact .inl (List.mem_append_right _ (List.mem_singleton_self child))
  · rename_i hnot
    refine (h.children c g hg).imp_left ?_
    intro hc
    split
    · exact List.mem_append_left _ hc
    · split
      · rename_i hleaves
        refine (List.mem_erase_of_ne ?_).mpr hc
        rintro rfl
        exact hnot ⟨rfl, hleaves.1⟩
      · exact hc

theorem addChild (h : Settled o l) (hset : (o.get set).registered = true)
    (hchild : (o.get child).registered = true) : Settled (o.addChild set child).2 l := by
  by_cases haccepts : o.Accepts set child
  · have hkeeps := Keeps.addChild o set child
    have hgroup := group_addChild haccepts (lt_size_of_registered hchild)
    have hlt (s c : ObjectRef) (hc : c ∈ ((o.addChild set child).2.get s).children) : s < o.store.size := by
      obtain ⟨rfl, -⟩ | hc := mem_children_addChild haccepts hc
      · exact lt_size_of_isSet haccepts.1
      · exact lt_size_of_mem_children hc
    refine ⟨h.toIndexed.keeps hkeeps (nodup_addChild h.nodup set child), ?_, ?_, ?_, ?_, ?_, ?_, ?_⟩
    · intro s c hc
      rw [hkeeps.isSet (hlt s c hc)]
      obtain ⟨rfl, rfl⟩ | hc := mem_children_addChild haccepts hc
      · exact haccepts.1
      · exact h.sets s c hc
    · intro c g hg
      exact h.children_accepted haccepts (lt_size_of_registered hchild) hg
    · intro g c howns hc
      rw [hkeeps.ownsChildren (hlt g c hc)] at howns
      exact h.group_accepted haccepts (lt_size_of_registered hchild) howns hc
    · intro s c hc
      rw [hkeeps.registered]
      obtain ⟨rfl, rfl⟩ | hc := mem_children_addChild haccepts hc
      · exact .inl hset
      · exact h.parents s c hc
    · intro s c hc
      rw [hkeeps.registered]
      have hunlisted := (hkeeps.unlisted_iff (hlt s c hc)).mpr
      obtain ⟨rfl, rfl⟩ | hc := mem_children_addChild haccepts hc
      · exact .inl hchild
      · exact (h.members s c hc).imp_right (Or.imp_right hunlisted)
    · intro c g hg
      rw [hkeeps.registered]
      rw [hgroup] at hg
      split at hg
      · obtain rfl := Option.some.inj hg
        exact .inl hset
      · exact h.owners c g hg
    · intro c g hg
      rw [hgroup] at hg
      have hown : (o.get g).ownsChildren = true := by
        split at hg
        · rename_i hc
          obtain rfl := Option.some.inj hg
          exact hc.2
        · exact h.owns c g hg
      rwa [hkeeps.ownsChildren (lt_size_of_ownsChildren hown)]
  · rwa [addChild_of_not_accepts haccepts]

theorem change (h : Settled o l) (hchange : Change True o o') : Settled o' l := by
  cases hchange with
  | make obj children group registered links =>
    exact h.of_keeps (.make o registered links) (children_make children) (group_make group)
  | edit r f rest =>
    have hedit : Change True o (o.modify r f) := .edit r f rest
    refine h.of_keeps hedit.keeps ?_ ?_
    · exact congr_modify Object.children fun x => by rw [rest]
    · exact congr_modify Object.group fun x => by rw [rest]
  | @add set child hset hchild =>
    exact h.addChild (h.registered_of_known (hset trivial)) (h.registered_of_known hchild)
  | remove set child => exact h.takesOut (.removeChild o set child)

theorem publish (h : Settled o l) (hr : r < o.store.size) (hfresh : (o.get r).registered = false) :
    Settled (o.publish r) l := by
  refine h.of_same (h.toIndexed.publish hr hfresh) ?_ ?_ ?_ ?_ ?_ ?_
  · exact congr_publish Object.children fun _ _ => rfl
  · exact congr_publish Object.group fun _ _ => rfl
  · exact fun s _ => congr_publish Object.isSet (fun _ _ => rfl) s
  · exact fun s _ => congr_publish Object.ownsChildren (fun _ _ => rfl) s
  · intro s hs
    by_cases hsr : s = r
    · rw [hsr, get_publish hr]
    · rwa [get_publish_ne hsr]
  · intro s hs hunlisted
    have hsr : s ≠ r := by
      rintro rfl
      rw [hs] at hfresh
      cases hfresh
    rw [Unlisted, get_publish_ne hsr, live_publish, Std.TreeMap.getElem?_insert]
    refine ⟨hunlisted.1, ?_⟩
    split
    · exact fun he => hsr (Option.some.inj he).symm
    · exact hunlisted.2

/-- The children of an object are taken, and its deletion is going to look at them. -/
theorem detach (h : Settled o l) (r : ObjectRef) :
    Settled (o.reorder r fun _ => []) ((r, (o.get r).children.reverse) :: l) := by
  have hkeeps := Keeps.reorder o r fun _ => []
  have hmem {s c : ObjectRef} (hc : c ∈ ((o.reorder r fun _ => []).get s).children) :
      c ∈ (o.get s).children := by
    rw [children_reorder_nil] at hc
    split at hc
    · cases hc
    · exact hc
  have hemptied {g : ObjectRef} : Emptied l g → Emptied ((r, (o.get r).children.reverse) :: l) g :=
    List.mem_cons_of_mem r
  have hawaits {g c : ObjectRef} : Awaits l g c → Awaits ((r, (o.get r).children.reverse) :: l) g c :=
    Exists.imp fun _ => And.imp_left (List.mem_cons_of_mem _)
  refine ⟨h.toIndexed.detach r, ?_, ?_, ?_, ?_, ?_, ?_, ?_⟩
  · intro s c hc
    rw [hkeeps.isSet (lt_size_of_mem_children (hmem hc))]
    exact h.sets s c (hmem hc)
  · intro c g hg
    rw [group_reorder] at hg
    obtain hc | hc := h.children c g hg
    · rw [children_reorder_nil]
      split
      · rename_i hgr
        subst hgr
        exact .inr ⟨_, List.mem_cons_self, List.mem_reverse.mpr hc⟩
      · exact .inl hc
    · exact .inr (hawaits hc)
  · intro g c howns hc
    rw [hkeeps.ownsChildren (lt_size_of_mem_children (hmem hc))] at howns
    rw [group_reorder]
    exact (h.group g c howns (hmem hc)).imp_right hemptied
  · intro s c hc
    rw [hkeeps.registered]
    exact (h.parents s c (hmem hc)).imp_right hemptied
  · intro s c hc
    rw [hkeeps.registered]
    exact (h.members s c (hmem hc)).imp_right
      (Or.imp hemptied (hkeeps.unlisted_iff (lt_size_of_mem_children (hmem hc))).mpr)
  · intro c g hg
    rw [group_reorder] at hg
    rw [hkeeps.registered]
    exact (h.owners c g hg).imp_right hawaits
  · intro c g hg
    rw [group_reorder] at hg
    have hown := h.owns c g hg
    rwa [hkeeps.ownsChildren (lt_size_of_ownsChildren hown)]

variable {rest : List ObjectRef}

/-- Awaited is what is left, and the next one if it belongs to the object that is deleted. -/
theorem awaits_cons {c : ObjectRef} (h : Awaits ((r, child :: rest) :: l) g c) :
    (g = r ∧ c = child) ∨ Awaits ((r, rest) :: l) g c := by
  obtain ⟨left, hleft, hc⟩ := h
  obtain he | hleft := List.mem_cons.mp hleft
  · obtain ⟨rfl, rfl⟩ := Prod.mk.inj he
    obtain rfl | hc := List.mem_cons.mp hc
    · exact .inl ⟨rfl, rfl⟩
    · exact .inr ⟨rest, List.mem_cons_self, hc⟩
  · exact .inr ⟨left, List.mem_cons_of_mem _ hleft, hc⟩

/-- The next object that the deletion of a group looks at does not belong to it any more. -/
theorem skip (h : Settled o ((r, child :: rest) :: l)) (hchild : (o.get child).group ≠ some r) :
    Settled o ((r, rest) :: l) := by
  have hawaits {c g : ObjectRef} (hg : (o.get c).group = some g)
      (hc : Awaits ((r, child :: rest) :: l) g c) : Awaits ((r, rest) :: l) g c := by
    obtain ⟨rfl, rfl⟩ | hc := awaits_cons hc
    · exact absurd hg hchild
    · exact hc
  refine ⟨h.toIndexed, h.sets, ?_, ?_, ?_, ?_, ?_, h.owns⟩
  · intro c g hg
    exact (h.children c g hg).imp_right (hawaits hg)
  · intro g c howns hc
    exact h.group g c howns hc
  · intro s c hc
    exact h.parents s c hc
  · intro s c hc
    exact h.members s c hc
  · intro c g hg
    exact (h.owners c g hg).imp_right (hawaits hg)

/-- The next object that the deletion of a group looks at leaves it. -/
theorem orphan (h : Settled o ((r, child :: rest) :: l)) (hchild : (o.get child).group = some r) :
    Settled (o.regroup child none) ((r, rest) :: l) := by
  have hkeeps := Keeps.regroup o child none
  have hgroup {c g : ObjectRef} (hg : ((o.regroup child none).get c).group = some g) :
      c ≠ child ∧ (o.get c).group = some g := by
    rw [group_regroup (lt_size_of_group hchild)] at hg
    split at hg
    · cases hg
    · rename_i hc
      exact ⟨hc, hg⟩
  have hawaits {c g : ObjectRef} (hne : c ≠ child) (hc : Awaits ((r, child :: rest) :: l) g c) :
      Awaits ((r, rest) :: l) g c := by
    obtain ⟨-, he⟩ | hc := awaits_cons hc
    · exact absurd he hne
    · exact hc
  refine ⟨h.toIndexed.orphan child, ?_, ?_, ?_, ?_, ?_, ?_, ?_⟩
  · intro s c hc
    rw [children_regroup] at hc
    rw [hkeeps.isSet (lt_size_of_mem_children hc)]
    exact h.sets s c hc
  · intro c g hg
    obtain ⟨hne, hg⟩ := hgroup hg
    rw [children_regroup]
    exact (h.children c g hg).imp_right (hawaits hne)
  · intro g c howns hc
    rw [children_regroup] at hc
    rw [hkeeps.ownsChildren (lt_size_of_mem_children hc)] at howns
    obtain hg | hg := h.group g c howns hc
    · by_cases hcc : c = child
      · subst hcc
        obtain rfl : r = g := Option.some.inj (hchild.symm.trans hg)
        exact .inr List.mem_cons_self
      · rw [group_regroup (lt_size_of_group hchild), if_neg hcc]
        exact .inl hg
    · exact .inr hg
  · intro s c hc
    rw [children_regroup] at hc
    rw [hkeeps.registered]
    exact h.parents s c hc
  · intro s c hc
    rw [children_regroup] at hc
    rw [hkeeps.registered]
    exact (h.members s c hc).imp_right
      (Or.imp_right (hkeeps.unlisted_iff (lt_size_of_mem_children hc)).mpr)
  · intro c g hg
    obtain ⟨hne, hg⟩ := hgroup hg
    rw [hkeeps.registered]
    exact (h.owners c g hg).imp_right (hawaits hne)
  · intro c g hg
    have hown := h.owns c g (hgroup hg).2
    rwa [hkeeps.ownsChildren (lt_size_of_ownsChildren hown)]

theorem finish (h : Settled o ((r, []) :: l)) (hnone : (o.get r).children = []) : Settled o l := by
  have hawaits {g c : ObjectRef} (hc : Awaits ((r, []) :: l) g c) : Awaits l g c := by
    obtain ⟨left, hleft, hc⟩ := hc
    obtain he | hleft := List.mem_cons.mp hleft
    · obtain ⟨rfl, rfl⟩ := Prod.mk.inj he
      cases hc
    · exact ⟨left, hleft, hc⟩
  have hemptied {s c : ObjectRef} (hc : c ∈ (o.get s).children) (hs : Emptied ((r, []) :: l) s) :
      Emptied l s := by
    obtain rfl | hs := List.mem_cons.mp hs
    · rw [hnone] at hc
      cases hc
    · exact hs
  refine ⟨h.toIndexed, h.sets, ?_, ?_, ?_, ?_, ?_, h.owns⟩
  · intro c g hg
    exact (h.children c g hg).imp_right hawaits
  · intro g c howns hc
    exact (h.group g c howns hc).imp_right (hemptied hc)
  · intro s c hc
    exact (h.parents s c hc).imp_right (hemptied hc)
  · intro s c hc
    exact (h.members s c hc).imp_right (Or.imp_left (hemptied hc))
  · intro c g hg
    exact (h.owners c g hg).imp_right hawaits

/-- An object without children that is no child is made unknown. -/
theorem withdraw (h : Settled o l) (hnone : (o.get r).children = [])
    (hout : ∀ s, r ∈ (o.get s).children → Emptied l s ∨ o.Unlisted s) :
    Settled (o.withdraw r) l := by
  have hchildren (s : ObjectRef) : ((o.withdraw r).get s).children = (o.get s).children :=
    congr_withdraw Object.children (fun _ => rfl) s
  have hgroup (s : ObjectRef) : ((o.withdraw r).get s).group = (o.get s).group :=
    congr_withdraw Object.group (fun _ => rfl) s
  have hne {s c : ObjectRef} (hc : c ∈ (o.get s).children) : s ≠ r := by
    rintro rfl
    rw [hnone] at hc
    cases hc
  refine ⟨h.toIndexed.withdraw r, ?_, ?_, ?_, ?_, ?_, ?_, ?_⟩
  · intro s c hc
    rw [hchildren] at hc
    rw [congr_withdraw Object.isSet fun _ => rfl]
    exact h.sets s c hc
  · intro c g hg
    rw [hgroup] at hg
    rw [hchildren]
    exact h.children c g hg
  · intro g c howns hc
    rw [hchildren] at hc
    rw [congr_withdraw Object.ownsChildren fun _ => rfl] at howns
    rw [hgroup]
    exact h.group g c howns hc
  · intro s c hc
    rw [hchildren] at hc
    rw [get_withdraw_ne (hne hc)]
    exact h.parents s c hc
  · intro s c hc
    rw [hchildren] at hc
    by_cases hcr : c = r
    · subst hcr
      exact .inr ((hout s hc).imp_right (Unlisted.withdraw · (hne hc)))
    · rw [get_withdraw_ne hcr]
      exact (h.members s c hc).imp_right (Or.imp_right (Unlisted.withdraw · (hne hc)))
  · intro c g hg
    rw [hgroup] at hg
    by_cases hgr : g = r
    · subst hgr
      obtain hc | hc := h.children c g hg
      · rw [hnone] at hc
        cases hc
      · exact .inr hc
    · rw [get_withdraw_ne hgr]
      exact h.owners c g hg
  · intro c g hg
    rw [hgroup] at hg
    rw [congr_withdraw Object.ownsChildren fun _ => rfl]
    exact h.owns c g hg

end Settled

/-! ## What members do not depend on -/

end Objects

def Object.member (x : Object) : Object := { x with fields := [], space := none, links := [] }

namespace Objects

variable {o o' : Objects} {r set child g : ObjectRef} {l : Deletions} {f : Object → Object}

/-- A change that leaves alone all that numbers, names and members depend on. -/
theorem congr_member {α : Type} (hf : ∀ x, (f x).member = x.member) (p : Object → α)
    (hp : ∀ x : Object, p x.member = p x) (s : ObjectRef) : p ((o.modify r f).get s) = p (o.get s) := by
  refine congr_modify p ?_ s
  intro x
  rw [← hp, hf, hp]

theorem Indexed.modify (h : o.Indexed) (hf : ∀ x, (f x).member = x.member) (r : ObjectRef) :
    (o.modify r f).Indexed where
  live id s hid := by
    rw [congr_member hf Object.registered fun _ => rfl, congr_member hf Object.id fun _ => rfl]
    exact h.live id s hid
  named n s hn := by
    rw [congr_member hf Object.registered fun _ => rfl, congr_member hf Object.name fun _ => rfl]
    exact h.named n s hn
  nodup s := by
    rw [congr_member hf Object.children fun _ => rfl]
    exact h.nodup s

theorem Unlisted.modify {s : ObjectRef} (h : o.Unlisted s) (hf : ∀ x, (f x).member = x.member)
    (r : ObjectRef) : (o.modify r f).Unlisted s := by
  rw [Unlisted, congr_member hf Object.ownsChildren fun _ => rfl,
    congr_member hf Object.id fun _ => rfl]
  exact h

theorem Settled.modify (h : Settled o l) (hf : ∀ x, (f x).member = x.member) (r : ObjectRef) :
    Settled (o.modify r f) l := by
  refine h.of_same (h.toIndexed.modify hf r) ?_ ?_ ?_ ?_ ?_ ?_
  · exact congr_member hf Object.children fun _ => rfl
  · exact congr_member hf Object.group fun _ => rfl
  · exact fun s _ => congr_member hf Object.isSet (fun _ => rfl) s
  · exact fun s _ => congr_member hf Object.ownsChildren (fun _ => rfl) s
  · exact fun s hs => (congr_member hf Object.registered (fun _ => rfl) s).trans hs
  · exact fun s _ hs => hs.modify hf r

/-! ## Deleting -/

/-- The registry once an object has left the group that owns it. -/
def quit (o : Objects) (r : ObjectRef) : Objects :=
  match (o.get r).group with
  | some g => (o.removeChild g r).2
  | none => o

theorem takesOut_quit (o : Objects) (r : ObjectRef) : TakesOut r o (o.quit r) := by
  rw [quit]
  split
  · exact .removeChild o _ r
  · exact .refl r o

theorem not_mem_quit (hnodup : ∀ s, (o.get s).children.Nodup) (hg : (o.get r).group = some g) :
    r ∉ ((o.quit r).get g).children := by
  rw [quit, hg]
  show r ∉ ((o.removeChild g r).2.get g).children
  rw [children_removeChild, if_pos rfl]
  exact (hnodup g).not_mem_erase

/-- Once an object has left its group and all sets, it is a child of nothing but of objects whose
deletion is in progress and of sets that are not found. -/
theorem Settled.emptied_of_mem (h : Settled o l) {s : ObjectRef}
    (hs : r ∈ (((o.quit r).removeFromSets r).get s).children) :
    Emptied l s ∨ o.Unlisted s := by
  have hquit := takesOut_quit o r
  have hout := hquit.trans (takesOut_removeFromSets (o.quit r) r)
  have hquitted := h.takesOut hquit
  have hmem : r ∈ ((o.quit r).get s).children :=
    ((takesOut_removeFromSets (o.quit r) r).sublist s).subset hs
  cases howns : ((o.quit r).get s).ownsChildren with
  | true =>
    obtain hg | hemptied := hquitted.group s r howns hmem
    · exact absurd hmem (not_mem_quit h.nodup (hquit.left s hg).1)
    · exact .inl hemptied
  | false =>
    have hloose : (o.quit r).isLoose s = true := by
      rw [isLoose, hquitted.sets s r hmem, howns]
      rfl
    have hunlisted : (o.quit r).Unlisted s :=
      ⟨howns, fun hlive => not_mem_removeFromSets hquitted.nodup hloose (mem_listed hlive) hs⟩
    have hlt := lt_size_of_mem_children ((hquit.sublist s).subset hmem)
    exact .inr ((hquit.keeps.unlisted_iff hlt).mp hunlisted)

end Objects

namespace Console

open Objects

variable {c : Console} {r : ObjectRef} {l : Deletions}

theorem objects_publish (c : Console) (r : ObjectRef) : ∃ space links,
    (c.publish r).objects = (c.objects.publish r).modify r fun o =>
      { o with space := some space, links := o.links ++ links } := by
  obtain ⟨space, links, c₁, -, he⟩ := c.publish_eq r
  exact ⟨space, links, by rw [he]⟩

theorem indexed_publish (h : c.objects.Indexed) (hr : r < c.objects.store.size)
    (hfresh : (c.objects.get r).registered = false) : (c.publish r).objects.Indexed := by
  obtain ⟨space, links, he⟩ := c.objects_publish r
  rw [he]
  refine (h.publish hr hfresh).modify ?_ r
  intro x
  rfl

theorem settled_publish (h : Settled c.objects l) (hr : r < c.objects.store.size)
    (hfresh : (c.objects.get r).registered = false) : Settled (c.publish r).objects l := by
  obtain ⟨space, links, he⟩ := c.objects_publish r
  rw [he]
  refine (h.publish hr hfresh).modify ?_ r
  intro x
  rfl

theorem objects_unlinkSpaces (c : Console) (r : ObjectRef) :
    (c.unlinkSpaces r).objects = c.objects.modify r fun o => { o with links := [] } := rfl

theorem objects_withdraw (c : Console) (r : ObjectRef) : (c.withdraw r).objects =
    (((c.objects.quit r).removeFromSets r).modify r fun o => { o with links := [] }).withdraw r := by
  simp only [Console.withdraw, objects_unlinkSpaces]
  rfl

theorem indexed_withdraw (h : c.objects.Indexed) (r : ObjectRef) : (c.withdraw r).objects.Indexed := by
  have hout := (takesOut_quit c.objects r).trans (takesOut_removeFromSets (c.objects.quit r) r)
  have hquitted := h.keeps hout.keeps fun s => (h.nodup s).sublist (hout.sublist s)
  rw [objects_withdraw]
  exact (hquitted.modify (f := fun o => { o with links := [] }) (fun _ => rfl) r).withdraw r

/-- An object whose deletion is done leaves nothing behind if nothing was put into it meanwhile. -/
theorem settled_withdraw (h : Settled c.objects ((r, []) :: l)) (hnone : (c.objects.get r).children = []) :
    Settled (c.withdraw r).objects l := by
  have hrest := h.finish hnone
  have hout := (takesOut_quit c.objects r).trans (takesOut_removeFromSets (c.objects.quit r) r)
  have hgone : (((c.objects.quit r).removeFromSets r).get r).children = [] := by
    have hsublist := hout.sublist r
    rw [hnone] at hsublist
    exact List.sublist_nil.mp hsublist
  have hchildren (s : ObjectRef) : ((((c.objects.quit r).removeFromSets r).modify r fun o =>
      { o with links := [] }).get s).children = (((c.objects.quit r).removeFromSets r).get s).children :=
    congr_modify (f := fun o => { o with links := [] }) Object.children (fun _ => rfl) s
  rw [objects_withdraw]
  refine Settled.withdraw ((hrest.takesOut hout).modify ?_ r) ?_ ?_
  · intro x
    rfl
  · rw [hchildren]
    exact hgone
  · intro s hs
    rw [hchildren] at hs
    have hlt := lt_size_of_mem_children ((hout.sublist s).subset hs)
    refine (hrest.emptied_of_mem hs).imp_right fun hunlisted => ?_
    have hleft := (hout.keeps.unlisted_iff hlt).mpr hunlisted
    exact hleft.modify (f := fun o => { o with links := [] }) (fun _ => rfl) r

end Console

end ConsoleScript
