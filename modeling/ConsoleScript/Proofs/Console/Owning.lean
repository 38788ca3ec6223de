import ConsoleScript.Proofs.Console.Membership
import Mathlib.Data.Finset.Card
import Mathlib.Data.Set.Insert
import Mathlib.Logic.Relation

/-!
# Groups that are being deleted

A deletion takes the children of an object first, then it deletes those that belong to it, and in the
end it takes the object itself out of every set. `Deleting` tells what is left of the registry in the
midst of that: objects whose deletion has not begun have lost nothing but children that are gone.

How deep deletions nest is bounded by the objects that belong to a group, since an object leaves its
group before it is deleted with it. It does not matter whether groups own each other in a circle.
-/

namespace ConsoleScript

def Object.single (x : Object) : Object := { x with children := [], group := none }

def Object.remains (x : Object) : Object := { x.single with registered := false, links := [] }

theorem Object.id_remains (x : Object) : x.remains.id = x.id := rfl

theorem Object.ownsChildren_remains (x : Object) : x.remains.ownsChildren = x.ownsChildren := rfl

theorem Object.name_remains (x : Object) : x.remains.name = x.name := rfl

theorem Object.space_remains (x : Object) : x.remains.space = x.space := rfl

namespace Objects

variable {o o₁ : Objects} {r s k g set child : ObjectRef} {begun begun' freed freed' : Set ObjectRef}
  {l : Deletions} {f : Object → Object}

/-- The object belongs to the group and is one of its children. -/
def Owns (o : Objects) (g k : ObjectRef) : Prop := k ∈ (o.get g).children ∧ (o.get k).group = some g

/-- The object can be reached by going from groups to the objects they own. -/
def Reaches (o : Objects) : ObjectRef → ObjectRef → Prop := Relation.ReflTransGen o.Owns

theorem Settled.owns_iff (h : Settled o []) : o.Owns g k ↔ (o.get k).group = some g := by
  refine ⟨And.right, fun hg => ⟨?_, hg⟩⟩
  obtain hk | ⟨rest, hrest, -⟩ := h.children k g hg
  · exact hk
  · cases hrest

def Found (o : Objects) : Prop := ∀ s, (o.get s).registered = true → o.live[(o.get s).id]? = some s

theorem Settled.registered_of_mem (h : Settled o [])
    (hset : o.Found ∨ (o.get set).ownsChildren = true) (hc : child ∈ (o.get set).children) :
    (o.get child).registered = true := by
  obtain hc | hemptied | ⟨hloose, hlost⟩ := h.members set child hc
  · exact hc
  · cases hemptied
  · obtain hfound | howns := hset
    · exact absurd (hfound set ((h.parents set child hc).resolve_right List.not_mem_nil)) hlost
    · rw [howns] at hloose
      cases hloose

theorem Settled.registered_of_group (h : Settled o []) (hg : (o.get k).group = some g) :
    (o.get k).registered = true :=
  h.registered_of_mem (.inr (h.owns k g hg)) (h.owns_iff.mpr hg).1

/-- How many objects belong to a group. -/
def grouped (o : Objects) : Nat :=
  ((Finset.range o.store.size).filter fun s => (o.get s).group.isSome).card

/-- Objects are as they were, but for their children and groups, and the next number is the same. -/
structure SameSingles (o o₁ : Objects) : Prop where
  size : o₁.store.size = o.store.size
  nextId : o₁.nextId = o.nextId
  single : ∀ s, (o₁.get s).single = (o.get s).single

theorem SameSingles.refl (o : Objects) : SameSingles o o := ⟨rfl, rfl, fun _ => rfl⟩

theorem SameSingles.trans {o₂ : Objects} (h : SameSingles o o₁) (h' : SameSingles o₁ o₂) :
    SameSingles o o₂ :=
  ⟨h'.size.trans h.size, h'.nextId.trans h.nextId, fun s => (h'.single s).trans (h.single s)⟩

theorem SameSingles.congr (h : SameSingles o o₁) {α : Type} (p : Object → α)
    (hp : ∀ x : Object, p x.single = p x) (s : ObjectRef) : p (o₁.get s) = p (o.get s) := by
  rw [← hp, h.single s, hp]

theorem sameSingles_reorder (o : Objects) (r : ObjectRef) (l : List ObjectRef → List ObjectRef) :
    SameSingles o (o.reorder r l) :=
  ⟨size_reorder, rfl,
    congr_modify (f := fun x => { x with children := l x.children }) Object.single fun _ => rfl⟩

theorem sameSingles_regroup (o : Objects) (r : ObjectRef) (g : Option ObjectRef) :
    SameSingles o (o.regroup r g) :=
  ⟨size_regroup, rfl, congr_modify (f := fun x => { x with group := g }) Object.single fun _ => rfl⟩

theorem sameSingles_removeChild (o : Objects) (set child : ObjectRef) :
    SameSingles o (o.removeChild set child).2 := by
  by_cases h : child ∈ (o.get set).children
  · rw [removeChild_of_mem h]
    split
    · exact (sameSingles_reorder o set _).trans (sameSingles_regroup _ child none)
    · exact sameSingles_reorder o set _
  · rw [removeChild_of_not_mem h]
    exact .refl o

theorem sameSingles_addChild (o : Objects) (set child : ObjectRef) :
    SameSingles o (o.addChild set child).2 := by
  by_cases h : o.Accepts set child
  · have hleave : SameSingles o (o.leave set child) := by
      rw [leave]
      split
      · exact sameSingles_removeChild o _ child
      · exact .refl o
    rw [addChild_of_accepts h]
    split
    · exact (hleave.trans (sameSingles_reorder _ set _)).trans (sameSingles_regroup _ child _)
    · exact hleave.trans (sameSingles_reorder _ set _)
  · rw [addChild_of_not_accepts h]
    exact .refl o

theorem sameSingles_quit (o : Objects) (r : ObjectRef) : SameSingles o (o.quit r) := by
  rw [quit]
  split
  · exact sameSingles_removeChild o _ r
  · exact .refl o

theorem sameSingles_removeFromSets (o : Objects) (child : ObjectRef) :
    SameSingles o (o.removeFromSets child) := by
  rw [removeFromSets_eq]
  generalize o.listed = sets
  induction sets generalizing o with
  | nil => exact .refl o
  | cons set sets ih =>
    rw [List.foldl_cons]
    split
    · exact (sameSingles_removeChild o set child).trans (ih _)
    · exact ih o

/-! ## Taking an object out of sets -/

/-- What is left of the children once the object is gone and nothing else is. -/
theorem TakesOut.children_eq (h : TakesOut child o o₁) (hnodup : (o.get s).children.Nodup)
    (hgone : child ∉ (o₁.get s).children) :
    (o₁.get s).children = (o.get s).children.filter (· ≠ child) := by
  have hsublist : (o₁.get s).children.Sublist ((o.get s).children.filter (· ≠ child)) := by
    have hfilter : (o₁.get s).children.filter (· ≠ child) = (o₁.get s).children := by
      rw [List.filter_eq_self]
      intro c hc
      exact decide_eq_true fun he => hgone (he ▸ hc)
    rw [← hfilter]
    exact (h.sublist s).filter _
  refine hsublist.eq_of_length_le ?_
  refine ((hnodup.filter _).subperm fun c hc => ?_).length_le
  rw [List.mem_filter, decide_eq_true_eq] at hc
  exact h.others s c hc.2 hc.1

/-! ## Making an object unknown -/

theorem registered_withdraw (o : Objects) (r s : ObjectRef) :
    ((o.withdraw r).get s).registered = true ↔ s ≠ r ∧ (o.get s).registered = true := by
  rw [get_withdraw]
  by_cases hs : s = r
  · subst hs
    by_cases hlt : s < o.store.size
    · rw [get_modify_self hlt]
      simp
    · rw [get_of_size_le (by simpa using hlt)]
      simp
  · rw [get_modify_ne hs]
    simp [hs]

/-- A name leads to what it led to, unless that is the object that is made unknown. -/
theorem getElem?_named_withdraw (o : Objects) (r : ObjectRef) (n : Name) :
    (o.withdraw r).named[n]? =
      if (o.get r).name = some n ∧ o.named[n]? = some r then none else o.named[n]? := by
  unfold withdraw
  dsimp only
  cases hname : (o.get r).name with
  | none => rw [if_neg fun h => nomatch h.1]; rfl
  | some m =>
    dsimp only
    by_cases hm : o.named[m]? = some r
    · rw [if_pos (beq_iff_eq.mpr hm)]
      show (o.named.erase m)[n]? = _
      rw [Std.TreeMap.getElem?_erase]
      by_cases hn : m = n
      · subst hn
        rw [if_pos Std.ReflCmp.compare_self, if_pos ⟨rfl, hm⟩]
      · rw [if_neg (by simpa using hn), if_neg fun h => hn (Option.some.inj h.1)]
    · rw [if_neg (by simpa using hm)]
      show o.named[n]? = _
      rw [if_neg]
      rintro ⟨he, hn⟩
      exact hm (Option.some.inj he ▸ hn)

/-- The registry once an object has left every set and is unknown. -/
def dismiss (o : Objects) (r : ObjectRef) : Objects :=
  (((o.quit r).removeFromSets r).modify r fun x => { x with links := [] }).withdraw r

theorem takesOut_sets (o : Objects) (r : ObjectRef) :
    TakesOut r o ((o.quit r).removeFromSets r) :=
  (takesOut_quit o r).trans (takesOut_removeFromSets _ r)

theorem sameSingles_sets (o : Objects) (r : ObjectRef) :
    SameSingles o ((o.quit r).removeFromSets r) :=
  (sameSingles_quit o r).trans (sameSingles_removeFromSets _ r)

theorem get_dismiss_ne (h : s ≠ r) :
    (o.dismiss r).get s = ((o.quit r).removeFromSets r).get s := by
  rw [dismiss, get_withdraw_ne h, get_modify_ne h]

/-- Making an object unknown and forgetting its links leaves alone all that this leaves of it. -/
theorem congr_dismiss {α : Type} (p : Object → α)
    (hp : ∀ x, p { x with registered := false } = p x) (hp' : ∀ x, p { x with links := [] } = p x)
    (s : ObjectRef) : p ((o.dismiss r).get s) = p (((o.quit r).removeFromSets r).get s) := by
  rw [dismiss, congr_withdraw p hp]
  exact congr_modify (f := fun x => { x with links := [] }) p hp' s

theorem remains_dismiss (o : Objects) (r s : ObjectRef) :
    ((o.dismiss r).get s).remains = (o.get s).remains := by
  rw [congr_dismiss Object.remains (fun _ => rfl) fun _ => rfl]
  show ({ (((o.quit r).removeFromSets r).get s).single with registered := false, links := [] } :
    Object) = _
  rw [(sameSingles_sets o r).single s]
  rfl

theorem name_dismiss (o : Objects) (r s : ObjectRef) :
    ((o.dismiss r).get s).name = (o.get s).name := by
  rw [← Object.name_remains, remains_dismiss, Object.name_remains]

theorem space_dismiss (o : Objects) (r s : ObjectRef) :
    ((o.dismiss r).get s).space = (o.get s).space := by
  rw [← Object.space_remains, remains_dismiss, Object.space_remains]

theorem registered_dismiss (o : Objects) (r s : ObjectRef) :
    ((o.dismiss r).get s).registered = true ↔ s ≠ r ∧ (o.get s).registered = true := by
  have hlinks : ((((o.quit r).removeFromSets r).modify r fun x => { x with links := [] }).get
      s).registered = (((o.quit r).removeFromSets r).get s).registered :=
    congr_modify (f := fun x => { x with links := [] }) Object.registered (fun _ => rfl) s
  rw [dismiss, registered_withdraw, hlinks, (takesOut_sets o r).keeps.registered]

theorem not_registered_dismiss (o : Objects) (r : ObjectRef) :
    ((o.dismiss r).get r).registered = false := by
  rw [Bool.eq_false_iff, Ne, registered_dismiss]
  exact fun h => h.1 rfl

theorem not_registered_dismiss_of_not (h : (o.get s).registered = false) :
    ((o.dismiss r).get s).registered = false := by
  rw [Bool.eq_false_iff, Ne, registered_dismiss, h]
  exact fun h => Bool.false_ne_true h.2

theorem registered_dismiss_ne (h : s ≠ r) :
    ((o.dismiss r).get s).registered = (o.get s).registered := by
  rw [get_dismiss_ne h, (takesOut_sets o r).keeps.registered]

theorem group_of_dismiss (h : ((o.dismiss r).get s).group = some g) : (o.get s).group = some g := by
  rw [congr_dismiss Object.group (fun _ => rfl) fun _ => rfl] at h
  by_cases hs : s = r
  · subst hs
    exact ((takesOut_sets o s).left g h).1
  · rwa [(takesOut_sets o r).groups s hs] at h

/-- Leaving sets and losing links changes nothing that an object is known by. -/
theorem congr_sets {α : Type} (p : Object → α) (hp : ∀ x : Object, p x.single = p x)
    (hp' : ∀ x, p { x with links := [] } = p x) (o : Objects) (r s : ObjectRef) :
    p ((((o.quit r).removeFromSets r).modify r fun x => { x with links := [] }).get s) =
      p (o.get s) := by
  rw [congr_modify (f := fun x => { x with links := [] }) p hp']
  exact (sameSingles_sets o r).congr p hp s

theorem live_dismiss (o : Objects) (r : ObjectRef) :
    (o.dismiss r).live = o.live.erase (o.get r).id := by
  rw [dismiss, live_withdraw, congr_sets Object.id (fun _ => rfl) fun _ => rfl]
  exact congrArg (·.erase (o.get r).id) (takesOut_sets o r).keeps.live

theorem getElem?_named_dismiss (o : Objects) (r : ObjectRef) (n : Name) : (o.dismiss r).named[n]? =
    if (o.get r).name = some n ∧ o.named[n]? = some r then none else o.named[n]? := by
  have hnamed : (((o.quit r).removeFromSets r).modify r fun x => { x with links := [] }).named =
      o.named := (takesOut_sets o r).keeps.named
  rw [dismiss, getElem?_named_withdraw, congr_sets Object.name (fun _ => rfl) fun _ => rfl, hnamed]

/-! ## In the midst of deletions -/

/-- What the deletion of some objects has made of the registry. The deletion of those in `begun` has
begun, and those in `freed` may have left their group for it. -/
structure Deleting (o : Objects) (begun freed : Set ObjectRef) (o₁ : Objects) : Prop where
  size : o₁.store.size = o.store.size
  remains : ∀ s, (o₁.get s).remains = (o.get s).remains
  known : ∀ s, (o₁.get s).registered = true → (o.get s).registered = true
  single : ∀ s, s ∉ begun → (o₁.get s).single = (o.get s).single
  kept : ∀ s, s ∉ begun → ∀ k ∈ (o.get s).children, (o₁.get k).registered = true →
    k ∈ (o₁.get s).children
  children : ∀ s, s ∉ begun → o.Found ∨ (o.get s).ownsChildren = true →
    (o₁.get s).children = (o.get s).children.filter fun k => (o₁.get k).registered
  emptied : ∀ s ∈ begun, (o₁.get s).children = []
  group : ∀ s, s ∉ freed → (o₁.get s).group = (o.get s).group
  left : ∀ s g, (o₁.get s).group = some g → (o.get s).group = some g
  live : ∀ (id : UInt32) s, o₁.live[id]? = some s ↔ o.live[id]? = some s ∧
    ∀ d, (o.get d).registered = true → (o₁.get d).registered = false → (o.get d).id ≠ id
  named : ∀ n : Name, o₁.named[n]? = (o.named[n]?).filter fun s => (o₁.get s).registered

namespace Deleting

theorem start (h : Settled o []) (freed : Set ObjectRef) : Deleting o ∅ freed o where
  size := rfl
  remains _ := rfl
  known _ hs := hs
  single _ _ := rfl
  kept _ _ _ hk _ := hk
  children s _ hs := by
    symm
    rw [List.filter_eq_self]
    exact fun c hc => h.registered_of_mem hs hc
  emptied s hs := hs.elim
  group _ _ := rfl
  left _ _ hg := hg
  live id s := by
    refine ⟨fun hs => ⟨hs, fun d hd hnot => ?_⟩, And.left⟩
    rw [hd] at hnot
    cases hnot
  named n := by
    cases hn : o.named[n]? with
    | none => rfl
    | some s => rw [Option.filter_some, if_pos (h.named n s hn).1]

theorem registered_eq (h : Deleting o begun freed o₁) (hs : s ∉ begun) :
    (o₁.get s).registered = (o.get s).registered := by
  show (o₁.get s).single.registered = (o.get s).single.registered
  rw [h.single s hs]

theorem name_eq (h : Deleting o begun freed o₁) (s : ObjectRef) :
    (o₁.get s).name = (o.get s).name := by
  rw [← Object.name_remains, h.remains s, Object.name_remains]

theorem id_eq (h : Deleting o begun freed o₁) (s : ObjectRef) :
    (o₁.get s).id = (o.get s).id := by
  rw [← Object.id_remains, h.remains s, Object.id_remains]

theorem ownsChildren_eq (h : Deleting o begun freed o₁) (s : ObjectRef) :
    (o₁.get s).ownsChildren = (o.get s).ownsChildren := by
  rw [← Object.ownsChildren_remains, h.remains s, Object.ownsChildren_remains]

/-- Where registered objects are found under their numbers, those that are left still are. -/
theorem live_eq (h : Deleting o begun freed o₁) (ho : o.Indexed) (hfound : o.Found) (id : UInt32) :
    o₁.live[id]? = (o.live[id]?).filter fun s => (o₁.get s).registered := by
  refine Option.ext fun s => ?_
  rw [h.live, Option.filter_eq_some_iff]
  refine and_congr_right fun hs => ⟨fun hfree => ?_, fun hs' d hd hnot hid => ?_⟩
  · obtain ⟨hregistered, hid⟩ := ho.live id s hs
    by_contra hnot
    exact hfree s hregistered (by simpa using hnot) hid
  · have hd := hfound d hd
    rw [hid, hs] at hd
    obtain rfl := Option.some.inj hd
    rw [hs'] at hnot
    cases hnot

theorem found (h : Deleting o begun freed o₁) (ho : o.Indexed) (hfound : o.Found) : o₁.Found := by
  intro s hs
  rw [h.id_eq, h.live_eq ho hfound, hfound s (h.known s hs), Option.filter_some, if_pos hs]

/-- An object changes that is in `begun'` or `freed'` as far as that matters. -/
theorem modify (h : Deleting o begun freed o₁) (hbegun : begun ⊆ begun') (hfreed : freed ⊆ freed')
    (hremains : ∀ x, (f x).remains = x.remains) (hregistered : ∀ x, (f x).registered = x.registered)
    (hkept : r ∉ begun' → ∀ x, (f x).single = x.single ∧ (f x).children = x.children)
    (hgroup : r ∉ freed' → ∀ x, (f x).group = x.group)
    (hleft : ∀ x g, (f x).group = some g → x.group = some g)
    (hemptied : ∀ s ∈ begun', ((o₁.modify r f).get s).children = []) :
    Deleting o begun' freed' (o₁.modify r f) := by
  have hsame {α : Type} (p : Object → α) {s : ObjectRef} (hp : s = r → ∀ x, p (f x) = p x) :
      p ((o₁.modify r f).get s) = p (o₁.get s) := by
    by_cases hs : s = r
    · exact congr_modify p (hp hs) s
    · rw [get_modify_ne hs]
  have hregistered (s : ObjectRef) : ((o₁.modify r f).get s).registered = (o₁.get s).registered :=
    congr_modify Object.registered hregistered s
  constructor
  case size => exact size_modify.trans h.size
  case remains => exact fun s => (congr_modify Object.remains hremains s).trans (h.remains s)
  case known =>
    intro s hs
    rw [hregistered] at hs
    exact h.known s hs
  case single =>
    intro s hs
    rw [← h.single s fun hb => hs (hbegun hb)]
    exact hsame Object.single fun he x => (hkept (he ▸ hs) x).1
  case kept =>
    intro s hs k hk hregistered'
    rw [hregistered] at hregistered'
    rw [hsame Object.children fun he x => (hkept (he ▸ hs) x).2]
    exact h.kept s (fun hb => hs (hbegun hb)) k hk hregistered'
  case children =>
    intro s hs hfound
    simp only [hregistered]
    rw [← h.children s (fun hb => hs (hbegun hb)) hfound]
    exact hsame Object.children fun he x => (hkept (he ▸ hs) x).2
  case emptied => exact hemptied
  case group =>
    intro s hs
    rw [← h.group s fun hf => hs (hfreed hf)]
    exact hsame Object.group fun he => hgroup (he ▸ hs)
  case left =>
    intro s g hg
    refine h.left s g ?_
    by_cases hs : s = r
    · subst hs
      have hlt := lt_size_of_group hg
      rw [size_modify] at hlt
      rw [get_modify_self hlt] at hg
      exact hleft _ g hg
    · rwa [get_modify_ne hs] at hg
  case live =>
    intro id s
    simp only [hregistered]
    exact h.live id s
  case named =>
    intro n
    simp only [hregistered]
    exact h.named n

theorem detach (h : Deleting o begun (insert r begun) o₁) :
    Deleting o (insert r begun) (insert r begun) (o₁.reorder r fun _ => []) := by
  refine h.modify (Set.subset_insert r begun) subset_rfl (fun _ => rfl) (fun _ => rfl) ?_
    (fun _ _ => rfl) (fun _ _ hg => hg) ?_
  · exact fun hr => absurd (Set.mem_insert r begun) hr
  · intro s hs
    show ((o₁.reorder r fun _ => []).get s).children = []
    rw [children_reorder_nil]
    split
    · rfl
    · exact h.emptied s (hs.resolve_left ‹_›)

/-- An object leaves its group, and is going to be deleted. -/
theorem free (h : Deleting o begun begun o₁) (k : ObjectRef) :
    Deleting o begun (insert k begun) (o₁.regroup k none) := by
  refine h.modify subset_rfl (Set.subset_insert k begun) (fun _ => rfl) (fun _ => rfl)
    (fun _ _ => ⟨rfl, rfl⟩) ?_ (fun _ _ hg => nomatch hg) ?_
  · exact fun hk => absurd (Set.mem_insert k begun) hk
  · intro s hs
    show ((o₁.regroup k none).get s).children = []
    rw [children_regroup]
    exact h.emptied s hs

theorem live_dismissed (h : Deleting o begun freed o₁) (hregistered : (o.get r).registered = true)
    (id : UInt32) (s : ObjectRef) : (o₁.dismiss r).live[id]? = some s ↔ o.live[id]? = some s ∧
      ∀ d, (o.get d).registered = true → ((o₁.dismiss r).get d).registered = false →
        (o.get d).id ≠ id := by
  rw [live_dismiss, h.id_eq, Std.TreeMap.getElem?_erase]
  constructor
  · intro hfound
    split at hfound
    · cases hfound
    · rename_i hother
      obtain ⟨hfound, hfree⟩ := (h.live id s).mp hfound
      refine ⟨hfound, fun d hd hnot => ?_⟩
      by_cases hdr : d = r
      · rw [hdr]
        simpa using hother
      · rw [registered_dismiss_ne hdr] at hnot
        exact hfree d hd hnot
  · rintro ⟨hfound, hfree⟩
    rw [if_neg (by simpa using hfree r hregistered (not_registered_dismiss o₁ r))]
    exact (h.live id s).mpr ⟨hfound, fun d hd hnot => hfree d hd (not_registered_dismiss_of_not hnot)⟩

theorem named_dismissed (h : Deleting o begun freed o₁) (ho : Settled o []) (n : Name) :
    (o₁.dismiss r).named[n]? =
      (o.named[n]?).filter fun s => ((o₁.dismiss r).get s).registered := by
  rw [getElem?_named_dismiss, h.name_eq, h.named n]
  cases hn : o.named[n]? with
  | none => simp
  | some k =>
    by_cases hkr : k = r
    · subst hkr
      rw [Option.filter_some, Option.filter_some, not_registered_dismiss, if_neg Bool.false_ne_true]
      split
      · rw [if_pos ⟨(ho.named n k hn).2, rfl⟩]
      · rw [if_neg fun h => nomatch h.2]
    · rw [Option.filter_some, Option.filter_some, registered_dismiss_ne hkr, if_neg]
      rintro ⟨-, hfound⟩
      split at hfound
      · exact hkr (Option.some.inj hfound)
      · cases hfound

theorem dismiss (h : Deleting o begun begun o₁) (ho : Settled o []) (hsettled : Settled o₁ l)
    (hl : ∀ s, Emptied l s → s ∈ begun) (hr : r ∈ begun) (hregistered : (o.get r).registered = true) :
    Deleting o begun begun (o₁.dismiss r) := by
  have hout := takesOut_sets o₁ r
  have hsingle := sameSingles_sets o₁ r
  have hne {s : ObjectRef} (hs : s ∉ begun) : s ≠ r := fun he => hs (he ▸ hr)
  constructor
  case size =>
    rw [Objects.dismiss, size_withdraw, size_modify, hsingle.size, h.size]
  case remains => exact fun s => (remains_dismiss o₁ r s).trans (h.remains s)
  case known =>
    intro s hs
    exact h.known s ((registered_dismiss o₁ r s).mp hs).2
  case single =>
    intro s hs
    rw [get_dismiss_ne (hne hs), hsingle.single s, h.single s hs]
  case kept =>
    intro s hs k hk hregistered'
    obtain ⟨hkr, hregistered'⟩ := (registered_dismiss o₁ r k).mp hregistered'
    rw [get_dismiss_ne (hne hs)]
    exact hout.others s k hkr (h.kept s hs k hk hregistered')
  case children =>
    intro s hs hfound
    -- The object is a child of nothing but of objects whose deletion has begun.
    have hnot : r ∉ (((o₁.quit r).removeFromSets r).get s).children := by
      intro hmem
      obtain hemptied | ⟨hloose, hlost⟩ := hsettled.emptied_of_mem hmem
      · exact hs (hl s hemptied)
      · obtain hfound | howns := hfound
        · have hparent := hsettled.parents s r ((hout.sublist s).subset hmem)
          exact hlost (h.found ho.toIndexed hfound s (hparent.resolve_right fun he => hs (hl s he)))
        · rw [← h.ownsChildren_eq, hloose] at howns
          cases howns
    rw [get_dismiss_ne (hne hs), hout.children_eq (hsettled.nodup s) hnot, h.children s hs hfound,
      List.filter_filter]
    refine List.filter_congr fun c _ => ?_
    rw [Bool.eq_iff_iff, Bool.and_eq_true, decide_eq_true_eq, registered_dismiss]
  case emptied =>
    intro s hs
    have hsublist := hout.sublist s
    rw [h.emptied s hs] at hsublist
    rw [congr_dismiss Object.children (fun _ => rfl) fun _ => rfl]
    exact List.sublist_nil.mp hsublist
  case group =>
    intro s hs
    rw [get_dismiss_ne (hne hs), hout.groups s (hne hs), h.group s hs]
  case left => exact fun s g hg => h.left s g (group_of_dismiss hg)
  case live => exact h.live_dismissed hregistered
  case named => exact h.named_dismissed ho

end Deleting

/-! ## Deletions -/

section Deletions

variable {o₂ o₃ : Objects} {reached begun'' : Set ObjectRef}

/-- A deletion may begin: it is one of those that the deletion of an object leads to. -/
structure Ready (o : Objects) (reached begun : Set ObjectRef) (l : Deletions) (r : ObjectRef)
    (o₁ : Objects) : Prop where
  deleting : Deleting o begun (insert r begun) o₁
  settled : Settled o₁ l
  emptied : ∀ s, Emptied l s → s ∈ begun
  mem : r ∈ reached
  within : begun ⊆ reached

/-- The deletions of all that is in `begun'` and not in `begun` lead from `o₁` to `o₂`, and no other
deletions do. -/
structure Deletes (o : Objects) (reached begun begun' : Set ObjectRef) (o₁ o₂ : Objects) : Prop where
  deleting : Deleting o begun' begun' o₂
  grows : begun ⊆ begun'
  within : begun' ⊆ reached
  closed : ∀ g ∈ begun', g ∉ begun → ∀ k, (o.get k).group = some g → k ∈ begun'
  gone : ∀ s ∈ begun', s ∉ begun → (o₂.get s).registered = false
  still : ∀ s, (o₁.get s).registered = false → (o₂.get s).registered = false
  left : ∀ s g, (o₂.get s).group = some g → (o₁.get s).group = some g

namespace Deletes

theorem refl (h : Deleting o begun begun o₁) (hwithin : begun ⊆ reached) :
    Deletes o reached begun begun o₁ o₁ where
  deleting := h
  grows := subset_rfl
  within := hwithin
  closed _ hg hnot := absurd hg hnot
  gone _ hs hnot := absurd hs hnot
  still _ hs := hs
  left _ _ hg := hg

theorem trans (h : Deletes o reached begun begun' o₁ o₂)
    (h' : Deletes o reached begun' begun'' o₂ o₃) : Deletes o reached begun begun'' o₁ o₃ where
  deleting := h'.deleting
  grows := h.grows.trans h'.grows
  within := h'.within
  closed g hg hnot k hk := by
    by_cases hg' : g ∈ begun'
    · exact h'.grows (h.closed g hg' hnot k hk)
    · exact h'.closed g hg hg' k hk
  gone s hs hnot := by
    by_cases hs' : s ∈ begun'
    · exact h'.still s (h.gone s hs' hnot)
    · exact h'.gone s hs hs'
  still s hs := h'.still s (h.still s hs)
  left s g hg := h.left s g (h'.left s g hg)

end Deletes

/-- An object that was made unknown before is left alone. -/
theorem Ready.gone (h : Ready o reached begun l r o₁) (hregistered : (o.get r).registered = true)
    (hr : (o₁.get r).registered = false) : r ∈ begun ∧ Deletes o reached begun begun o₁ o₁ := by
  have hmem : r ∈ begun := by
    by_contra hnot
    rw [h.deleting.registered_eq hnot, hregistered] at hr
    cases hr
  have hdeleting := h.deleting
  rw [Set.insert_eq_of_mem hmem] at hdeleting
  exact ⟨hmem, .refl hdeleting h.within⟩

/-- What an object owns has been deleted once its children have been gone through. -/
theorem Ready.closed (h : Ready o reached begun l r o₁) (ho : Settled o []) (hr : r ∉ begun)
    (hgrows : begun ⊆ begun')
    (hall : ∀ k ∈ (o₁.get r).children, (o.get k).group = some r → k ∈ begun')
    (hk : (o.get k).group = some r) : k ∈ begun' := by
  have hchild := (ho.owns_iff.mpr hk).1
  by_cases hregistered : (o₁.get k).registered = true
  · exact hall k (h.deleting.kept r hr k hchild hregistered) hk
  · apply hgrows
    by_contra hnot
    rw [h.deleting.registered_eq hnot] at hregistered
    exact hregistered (ho.registered_of_group hk)

theorem Deletes.dismiss (h : Ready o reached begun l r o₁) (ho : Settled o [])
    (hregistered : (o.get r).registered = true)
    (hdeletes : Deletes o reached (insert r begun) begun' (o₁.reorder r fun _ => []) o₂)
    (hsettled : Settled o₂ ((r, []) :: l))
    (hall : ∀ k ∈ (o₁.get r).children, (o.get k).group = some r → k ∈ begun') :
    Deletes o reached begun begun' o₁ (o₂.dismiss r) := by
  have hgrows : begun ⊆ begun' := (Set.subset_insert r begun).trans hdeletes.grows
  have hmem : r ∈ begun' := hdeletes.grows (Set.mem_insert r begun)
  have hne {s : ObjectRef} (hs : s ∉ begun) (hsr : s ≠ r) : s ∉ insert r begun :=
    fun h => h.elim hsr hs
  constructor
  case deleting =>
    refine hdeletes.deleting.dismiss ho hsettled (fun s hs => ?_) hmem hregistered
    obtain rfl | hs := List.mem_cons.mp hs
    · exact hmem
    · exact hgrows (h.emptied s hs)
  case grows => exact hgrows
  case within => exact hdeletes.within
  case closed =>
    intro g hg hnot k hk
    by_cases hgr : g = r
    · subst hgr
      exact h.closed ho hnot hgrows hall hk
    · exact hdeletes.closed g hg (hne hnot hgr) k hk
  case gone =>
    intro s hs hnot
    by_cases hsr : s = r
    · subst hsr
      exact not_registered_dismiss o₂ s
    · exact not_registered_dismiss_of_not (hdeletes.gone s hs (hne hnot hsr))
  case still =>
    intro s hs
    have htaken := (Keeps.reorder o₁ r fun _ => []).registered s
    exact not_registered_dismiss_of_not (hdeletes.still s (htaken.trans hs))
  case left =>
    intro s g hg
    exact group_reorder.symm.trans (hdeletes.left s g (group_of_dismiss hg))

end Deletions

end Objects

end ConsoleScript
