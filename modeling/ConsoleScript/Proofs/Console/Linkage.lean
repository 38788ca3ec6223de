import ConsoleScript.Proofs.Console.Lookup
import ConsoleScript.Proofs.Console.Sessions

/-!
# Links between namespaces

A namespace has the parent that was asked for, for as long as somebody asks: classes once and for all,
objects from their registration to their deletion. Each request is on record, and the count of a
namespace is the number of the requests that name it. Requests are taken back in another order than
they were made, so nothing here depends on their order.
-/

namespace ConsoleScript

namespace Namespaces

variable {s s' : Namespaces} {id p : SpaceId} {links links' : List (SpaceId × SpaceId)}

/-- How many of the links are links of a namespace. -/
def linksOf (links : List (SpaceId × SpaceId)) (id : SpaceId) : Nat := links.countP (·.1 == id)

theorem linksOf_cons (links : List (SpaceId × SpaceId)) (i : SpaceId) :
    linksOf ((id, p) :: links) i = linksOf links i + if id = i then 1 else 0 := by
  rw [linksOf, linksOf, List.countP_cons]
  simp only [beq_iff_eq]

theorem linksOf_pos {i : SpaceId} : 0 < linksOf links i ↔ ∃ q, (i, q) ∈ links := by
  rw [linksOf, List.countP_pos_iff]
  constructor
  · rintro ⟨⟨j, q⟩, hmem, hj⟩
    cases beq_iff_eq.mp hj
    exact ⟨q, hmem⟩
  · rintro ⟨q, hmem⟩
    exact ⟨(i, q), hmem, beq_self_eq_true i⟩

/-- Parents and counts are those that the links ask for, and no link closes a circle. -/
structure Linked (s : Namespaces) (links : List (SpaceId × SpaceId)) : Prop where
  rooted : Rooted s
  count : ∀ i, (s.space i).linkCount = linksOf links i
  parent : ∀ i q, (i, q) ∈ links → (s.space i).parent = some q
  asked : ∀ i q, (s.space i).parent = some q → (i, q) ∈ links

namespace Linked

theorem perm (h : Linked s links) (hperm : links.Perm links') : Linked s links' where
  rooted := h.rooted
  count i := by
    rw [h.count i, linksOf, linksOf, hperm.countP_eq]
  parent i q hq := h.parent i q (hperm.mem_iff.mpr hq)
  asked i q hq := hperm.mem_iff.mp (h.asked i q hq)

theorem congr (h : Linked s links) (hsize : s.spaces.size ≤ s'.spaces.size)
    (hparent : ∀ i, (s'.space i).parent = (s.space i).parent)
    (hcount : ∀ i, (s'.space i).linkCount = (s.space i).linkCount) : Linked s' links where
  rooted := h.rooted.cut hsize fun i => .inl (hparent i)
  count i := (hcount i).trans (h.count i)
  parent i q hq := (hparent i).trans (h.parent i q hq)
  asked i q hq := h.asked i q (hparent i ▸ hq)

theorem keeps (h : Linked s links) (hkeeps : Keeps s s') : Linked s' links :=
  h.congr hkeeps.size hkeeps.parent hkeeps.linkCount

theorem again (h : Linked s links) (hid : id < s.spaces.size) (hp : (s.space id).parent = some p) :
    Linked (s.modify id fun n => { n with linkCount := n.linkCount + 1 }) ((id, p) :: links) := by
  have hparent (i : SpaceId) : ((s.modify id fun n =>
      { n with linkCount := n.linkCount + 1 }).space i).parent = (s.space i).parent := by
    refine space_modify_same Namespace.parent ?_ i
    intro n
    rfl
  refine ⟨h.rooted.cut (Nat.le_of_eq size_modify.symm) fun i => .inl (hparent i), ?_, ?_, ?_⟩
  · intro i
    rw [linksOf_cons, Int.natCast_add, ← h.count i]
    by_cases hi : id = i
    · subst hi
      rw [space_modify_self hid, if_pos rfl]
      rfl
    · rw [space_modify_ne (Ne.symm hi), if_neg hi]
      exact (Int.add_zero _).symm
  · intro i q hq
    rw [hparent i]
    rcases List.mem_cons.mp hq with he | hq
    · cases he
      exact hp
    · exact h.parent i q hq
  · intro i q hq
    exact List.mem_cons_of_mem _ (h.asked i q (hparent i ▸ hq))

/-- A namespace without a parent gets one that does not inherit from it. -/
theorem attach (h : Linked s links) (hid : id < s.spaces.size) (hp : p < s.spaces.size)
    (hnone : (s.space id).parent = none) (hreaches : ¬ s.reaches id s.spaces.size p = true) :
    Linked (s.modify id fun n => { n with parent := some p, linkCount := 1 }).outdate
      ((id, p) :: links) := by
  obtain ⟨ids, hids⟩ := h.rooted.lineage p
  rw [hids.reaches_iff (h.rooted.length_le hids)] at hreaches
  have hnew : linksOf links id = 0 := by
    refine Nat.eq_zero_of_not_pos fun hpos => ?_
    obtain ⟨q, hq⟩ := linksOf_pos.mp hpos
    rw [h.parent id q hq] at hnone
    cases hnone
  refine ⟨h.rooted.attach (by simp) hp hids hreaches hnone ?_ ?_, ?_, ?_, ?_⟩
  · rw [space_outdate, space_modify_self hid]
  · intro i hi
    rw [space_outdate, space_modify_ne hi]
  · intro i
    rw [linksOf_cons, space_outdate]
    by_cases hi : id = i
    · subst hi
      rw [space_modify_self hid, if_pos rfl, hnew]
      rfl
    · rw [space_modify_ne (Ne.symm hi), if_neg hi, h.count i]
      rfl
  · intro i q hq
    rw [space_outdate]
    rcases List.mem_cons.mp hq with he | hold
    · cases he
      rw [space_modify_self hid]
    · have hi : i ≠ id := by
        rintro rfl
        rw [h.parent i q hold] at hnone
        cases hnone
      rw [space_modify_ne hi]
      exact h.parent i q hold
  · intro i q hq
    rw [space_outdate] at hq
    by_cases hi : i = id
    · subst hi
      rw [space_modify_self hid] at hq
      cases hq
      exact List.mem_cons_self
    · rw [space_modify_ne hi] at hq
      exact List.mem_cons_of_mem _ (h.asked i q hq)

theorem link (h : Linked s links) (hid : id < s.spaces.size) (hp : p < s.spaces.size)
    (hlink : s.link id p = (true, s')) : Linked s' ((id, p) :: links) := by
  rw [Namespaces.link] at hlink
  split at hlink
  · rename_i q hq
    split at hlink
    · rename_i hqp
      cases hlink
      cases beq_iff_eq.mp hqp
      exact h.again hid hq
    · cases hlink
  · rename_i hnone
    split at hlink
    · cases hlink
    · rename_i hreaches
      cases hlink
      exact h.attach hid hp hnone hreaches

theorem lt_size (h : Linked s links) (hmem : (id, p) ∈ links) : id < s.spaces.size := by
  by_contra hlt
  have hparent := h.parent id p hmem
  rw [space_of_le (Nat.le_of_not_lt hlt)] at hparent
  cases hparent

theorem count_of_cons_ne (h : Linked s ((id, p) :: links)) {i : SpaceId} (hi : i ≠ id) :
    (s.space i).linkCount = linksOf links i := by
  rw [h.count i, linksOf_cons, if_neg (Ne.symm hi), Nat.add_zero]

/-- One of several requests for the parent is taken back. -/
theorem less (h : Linked s ((id, p) :: links)) (hmore : 0 < linksOf links id) :
    Linked (s.modify id fun n => { n with linkCount := linksOf links id }) links := by
  have hparent (i : SpaceId) : ((s.modify id fun n =>
      { n with linkCount := linksOf links id }).space i).parent = (s.space i).parent := by
    refine space_modify_same Namespace.parent ?_ i
    intro n
    rfl
  refine ⟨h.rooted.cut (Nat.le_of_eq size_modify.symm) fun i => .inl (hparent i), ?_, ?_, ?_⟩
  · intro i
    by_cases hi : i = id
    · subst hi
      rw [space_modify_self (h.lt_size List.mem_cons_self)]
    · rw [space_modify_ne hi]
      exact h.count_of_cons_ne hi
  · intro i q hq
    exact (hparent i).trans (h.parent i q (List.mem_cons_of_mem _ hq))
  · intro i q hq
    rw [hparent i] at hq
    rcases List.mem_cons.mp (h.asked i q hq) with he | hrest
    · cases he
      -- What is left of the links of the namespace asks for the same parent.
      obtain ⟨q', hq'⟩ := linksOf_pos.mp hmore
      rw [h.parent _ q' (List.mem_cons_of_mem _ hq')] at hq
      cases hq
      exact hq'
    · exact hrest

theorem cut (h : Linked s ((id, p) :: links)) (hlast : linksOf links id = 0) :
    Linked ((s.modify id fun n => { n with linkCount := linksOf links id }).modify id fun n =>
      { n with parent := none }).outdate links := by
  have hid : id < s.spaces.size := h.lt_size List.mem_cons_self
  have hgone (i q : SpaceId) (hq : (i, q) ∈ links) : i ≠ id := by
    rintro rfl
    exact Nat.ne_of_gt (linksOf_pos.mpr ⟨q, hq⟩) hlast
  have hsame {i : SpaceId} (hi : i ≠ id) : ((s.modify id fun n =>
      { n with linkCount := linksOf links id }).modify id fun n =>
        { n with parent := none }).outdate.space i = s.space i := by
    rw [space_outdate, space_modify_ne hi, space_modify_ne hi]
  have hself : ((s.modify id fun n => { n with linkCount := linksOf links id }).modify id fun n =>
      { n with parent := none }).outdate.space id =
        { s.space id with linkCount := linksOf links id, parent := none } := by
    rw [space_outdate, space_modify_self (by simpa using hid), space_modify_self hid]
  refine ⟨h.rooted.cut (by simp) ?_, ?_, ?_, ?_⟩
  · intro i
    by_cases hi : i = id
    · subst hi
      exact .inr (congrArg Namespace.parent hself)
    · exact .inl (congrArg Namespace.parent (hsame hi))
  · intro i
    by_cases hi : i = id
    · subst hi
      exact congrArg Namespace.linkCount hself
    · exact (congrArg Namespace.linkCount (hsame hi)).trans (h.count_of_cons_ne hi)
  · intro i q hq
    rw [hsame (hgone i q hq)]
    exact h.parent i q (List.mem_cons_of_mem _ hq)
  · intro i q hq
    have hi : i ≠ id := by
      rintro rfl
      rw [hself] at hq
      cases hq
    rw [hsame hi] at hq
    rcases List.mem_cons.mp (h.asked i q hq) with he | hrest
    · cases he
      exact absurd rfl hi
    · exact hrest

theorem unlink (h : Linked s ((id, p) :: links)) : Linked (s.unlink id p).2 links := by
  have hcount : (s.space id).linkCount - 1 = linksOf links id := by
    rw [h.count id, linksOf_cons, if_pos rfl, Int.natCast_add]
    exact Int.add_sub_cancel _ _
  rw [Namespaces.unlink, h.parent id p List.mem_cons_self, if_neg (by simp), hcount]
  dsimp only
  split
  · rename_i hlast
    exact h.cut (Int.natCast_eq_zero.mp (beq_iff_eq.mp hlast))
  · rename_i hmore
    refine h.less (Nat.pos_of_ne_zero fun hzero => hmore ?_)
    rw [hzero]
    rfl

theorem unlinkAll {gone : List (SpaceId × SpaceId)} (h : Linked s (gone ++ links)) :
    Linked (s.unlinkAll gone) links := by
  induction gone generalizing s with
  | nil => exact h
  | cons link gone ih => exact ih h.unlink

theorem unique (h : Linked s links) (h' : Linked s' links) (i : SpaceId) :
    (s'.space i).parent = (s.space i).parent ∧ (s'.space i).linkCount = (s.space i).linkCount := by
  refine ⟨Option.ext fun q => ?_, (h'.count i).trans (h.count i).symm⟩
  exact ⟨fun hq => h.parent i q (h'.asked i q hq), fun hq => h'.parent i q (h.asked i q hq)⟩

end Linked

theorem Lineage.ancestor {i j : SpaceId} {ids : List SpaceId} (h : Lineage s i ids)
    (hj : Relation.TransGen (fun a b => (s.space a).parent = some b) i j) :
    ∃ rest, Lineage s j rest ∧ rest.length < ids.length := by
  have hstep {i j : SpaceId} {ids : List SpaceId} (h : Lineage s i ids)
      (hj : (s.space i).parent = some j) : ∃ rest, Lineage s j rest ∧ rest.length < ids.length := by
    cases h with
    | root hroot =>
      rw [hroot] at hj
      cases hj
    | child hchild hrest =>
      rw [hchild] at hj
      cases hj
      exact ⟨_, hrest, Nat.lt_succ_self _⟩
  induction hj with
  | single hj => exact hstep h hj
  | tail _ hj ih =>
    obtain ⟨rest, hrest, hlength⟩ := ih
    obtain ⟨rest', hrest', hlength'⟩ := hstep hrest hj
    exact ⟨rest', hrest', Nat.lt_trans hlength' hlength⟩

theorem Rooted.acyclic (h : Rooted s) (i : SpaceId) :
    ¬ Relation.TransGen (fun a b => (s.space a).parent = some b) i i := by
  intro hcycle
  obtain ⟨ids, hids⟩ := h.lineage i
  obtain ⟨rest, hrest, hlength⟩ := hids.ancestor hcycle
  rw [hids.unique hrest] at hlength
  exact Nat.lt_irrefl _ hlength

theorem Linked.define (h : Linked s links) (id : SpaceId) (name : Option Name) (body : EntryBody)
    (usage : Text) (minArgs maxArgs : Int) :
    Linked (s.define id name body usage minArgs maxArgs).2.2 links := by
  rw [Namespaces.define]
  split
  · exact h.congr (Nat.le_refl _) (fun _ => rfl) fun _ => rfl
  · refine h.congr (Nat.le_of_eq (by simp)) (fun i => ?_) fun i => ?_
    · refine space_modify_same Namespace.parent ?_ i
      intro n
      rfl
    · refine space_modify_same Namespace.linkCount ?_ i
      intro n
      rfl

end Namespaces

/-! ## Records -/

/-- The links that an object asks for, while it is registered. -/
def Object.records (x : Object) : List (SpaceId × SpaceId) := if x.registered then x.links else []

namespace Objects

variable {o o' : Objects} {r s : ObjectRef}

/-- The links that registered objects ask for. -/
def records (o : Objects) : List (SpaceId × SpaceId) :=
  (List.range o.store.size).flatMap fun r => (o.get r).records

def Tidy (o : Objects) : Prop := ∀ r, (o.get r).registered = false → (o.get r).links = []

theorem Tidy.records (h : o.Tidy) (r : ObjectRef) : (o.get r).records = (o.get r).links := by
  rw [Object.records]
  split
  · rfl
  · rename_i hr
    exact (h r (Bool.eq_false_iff.mpr hr)).symm

theorem records_of_size_le (h : o.store.size ≤ r) : (o.get r).records = [] := by
  rw [get_of_size_le h]
  rfl

theorem records_congr (h : ∀ r, (o'.get r).records = (o.get r).records) : o'.records = o.records := by
  have hle {o o' : Objects} (h : ∀ r, (o'.get r).records = (o.get r).records)
      (hsize : o.store.size ≤ o'.store.size) : o'.records = o.records := by
    obtain ⟨k, hk⟩ := Nat.exists_eq_add_of_le hsize
    have hnone : ((List.range k).map (o.store.size + ·)).flatMap (fun r => (o'.get r).records) = [] := by
      refine List.flatMap_eq_nil_iff.mpr ?_
      intro r hr
      obtain ⟨i, -, rfl⟩ := List.mem_map.mp hr
      rw [h, records_of_size_le (Nat.le_add_right _ _)]
    rw [Objects.records, hk, List.range_add, List.flatMap_append, hnone, List.append_nil]
    exact List.flatMap_congr fun r _ => h r
  rcases Nat.le_total o.store.size o'.store.size with hsize | hsize
  · exact hle h hsize
  · exact (hle (fun r => (h r).symm) hsize).symm

theorem Keeps.records (h : Keeps o o') : o'.records = o.records :=
  records_congr fun r => by rw [Object.records, Object.records, h.registered, h.links]

theorem Keeps.tidy (h : Keeps o o') (ho : o.Tidy) : o'.Tidy := by
  intro r hr
  rw [h.links]
  exact ho r (h.registered r ▸ hr)

theorem records_split (hsize : o'.store.size = o.store.size) (h : ∀ s, s ≠ r → o'.get s = o.get s) :
    ∃ rest, o.records.Perm ((o.get r).records ++ rest) ∧ o'.records.Perm ((o'.get r).records ++ rest) := by
  by_cases hr : r < o.store.size
  · have hsplit (o : Objects) (hr : r < o.store.size) : o.records.Perm ((o.get r).records ++
        ((List.range o.store.size).erase r).flatMap fun s => (o.get s).records) :=
      (List.perm_cons_erase (List.mem_range.mpr hr)).flatMap_right _
    refine ⟨_, hsplit o hr, ?_⟩
    have hrest := hsplit o' (hsize.symm ▸ hr)
    rw [hsize] at hrest
    have hothers : ((List.range o.store.size).erase r).flatMap (fun s => (o'.get s).records) =
        ((List.range o.store.size).erase r).flatMap fun s => (o.get s).records := by
      refine List.flatMap_congr fun s hs => ?_
      rw [h s ((List.nodup_range.mem_erase_iff).mp hs).1]
    rwa [hothers] at hrest
  · have hnone := records_of_size_le (Nat.le_of_not_lt hr)
    have hnone' : (o'.get r).records = [] := records_of_size_le (hsize ▸ Nat.le_of_not_lt hr)
    refine ⟨o.records, by rw [hnone]; exact .refl _, ?_⟩
    rw [hnone', records_congr (o := o)]
    · exact .refl _
    · intro s
      by_cases hs : s = r
      · rw [hs, hnone, hnone']
      · rw [h s hs]

theorem get_withdraw (o : Objects) (r s : ObjectRef) : (o.withdraw r).get s =
    (o.modify r fun x => { x with registered := false }).get s := by
  rw [withdraw]
  dsimp only
  split
  · split <;> rfl
  · rfl

theorem get_withdraw_ne (h : s ≠ r) : (o.withdraw r).get s = o.get s := by
  rw [get_withdraw, get_modify_ne h]

end Objects

/-! ## Consoles -/

namespace Console

variable {base : Nat} {strict : Prop} {block : Option BlockId} {c c' : Console} {r : ObjectRef}
  {links new : List (SpaceId × SpaceId)}

/-- Parents and counts are those that the registered objects and the classes ask for. -/
structure Linked (c : Console) (links : List (SpaceId × SpaceId)) : Prop where
  spaces : c.spaces.Linked (c.objects.records ++ links)
  tidy : c.objects.Tidy

theorem Change.linked (h : Change base strict block c c') (hc : c.Linked links) : c'.Linked links := by
  have hkeeps := h.keeps
  refine ⟨?_, hkeeps.tidy hc.tidy⟩
  rw [hkeeps.records]
  cases h with
  | elsewhere names scopes spaces objects blocks limit calls =>
    rw [spaces]
    exact hc.spaces
  | scopes h tabled => exact hc.spaces
  | spaces h => exact hc.spaces.keeps h
  | define space name body usage minArgs maxArgs own => exact hc.spaces.define space name body usage minArgs maxArgs
  | objects h => exact hc.spaces

theorem Changes.linked (h : Changes base strict block c c') (hc : c.Linked links) : c'.Linked links := by
  induction h with
  | refl => exact hc
  | tail _ hchange ih => exact hchange.linked ih

theorem Linked.objects {o : Objects} (h : c.Linked links) (hkeeps : c.objects.Keeps o) :
    Linked { c with objects := o } links := by
  refine ⟨?_, hkeeps.tidy h.tidy⟩
  rw [hkeeps.records]
  exact h.spaces

theorem Links.linked (h : Links c new c') (hc : c.spaces.Linked links) :
    c'.spaces.Linked (new ++ links) := by
  induction h generalizing links with
  | done c => exact hc
  | intern t _ ih => exact ih hc
  | obtain name _ ih => exact ih (hc.keeps Namespaces.grows_obtain.keeps)
  | link child ancestor hlink _ ih =>
    exact (ih (hc.link child ancestor hlink)).perm List.perm_middle

theorem get_publish_ne {s : ObjectRef} (h : s ≠ r) : (c.publish r).objects.get s = c.objects.get s := by
  obtain ⟨space, new, c₁, -, he⟩ := c.publish_eq r
  rw [he, Objects.get_modify_ne h, Objects.get_publish_ne h]

theorem links_withdraw_ne {s : ObjectRef} (h : s ≠ r) :
    ((c.withdraw r).objects.get s).links = (c.objects.get s).links := by
  obtain ⟨o, hkeeps, he⟩ := c.withdraw_eq r
  rw [he, Objects.get_withdraw_ne h, Objects.get_modify_ne h, hkeeps.links]

theorem registered_withdraw (c : Console) (r : ObjectRef) :
    ((c.withdraw r).objects.get r).registered = false := by
  obtain ⟨o, -, he⟩ := c.withdraw_eq r
  rw [he, Objects.get_withdraw]
  generalize o.modify r _ = o
  by_cases hr : r < o.store.size
  · rw [Objects.get_modify_self hr]
  · rw [Objects.get_of_size_le (by simpa using hr)]

theorem Linked.publish (h : c.Linked links) (hr : r < c.objects.store.size)
    (hfresh : (c.objects.get r).registered = false) : (c.publish r).Linked links := by
  obtain ⟨space, new, c₁, hlinks, he⟩ := c.publish_eq r
  let o := (c.objects.publish r).modify r fun o =>
    { o with space := some space, links := o.links ++ new }
  have hself : (o.get r).registered = true ∧ (o.get r).links = new := by
    rw [Objects.get_modify_self (by rwa [Objects.size_publish]), Objects.get_publish hr]
    exact ⟨rfl, congrArg (· ++ new) (h.tidy r hfresh)⟩
  have hother (s : ObjectRef) (hs : s ≠ r) : o.get s = c.objects.get s := by
    rw [Objects.get_modify_ne hs, Objects.get_publish_ne hs]
  have hsize : o.store.size = c.objects.store.size := by rw [Objects.size_modify, Objects.size_publish]
  rw [he]
  refine ⟨?_, ?_⟩
  · obtain ⟨rest, hold, hnew⟩ := Objects.records_split hsize hother
    rw [Object.records, hfresh] at hold
    rw [Object.records, hself.1, hself.2] at hnew
    have hperm := (hnew.trans (hold.symm.append_left new)).append_right links
    rw [List.append_assoc] at hperm
    exact (hlinks.linked h.spaces).perm hperm.symm
  · intro s hs
    by_cases hsr : s = r
    · rw [hsr, hself.1] at hs
      cases hs
    · rw [hother s hsr] at hs ⊢
      exact h.tidy s hs

theorem Linked.withdraw (h : c.Linked links) (r : ObjectRef) : (c.withdraw r).Linked links := by
  obtain ⟨o, hkeeps, he⟩ := c.withdraw_eq r
  let o' := (o.modify r fun x => { x with links := [] }).withdraw r
  have htidy := hkeeps.tidy h.tidy
  have hother (s : ObjectRef) (hs : s ≠ r) : o'.get s = o.get s := by
    rw [Objects.get_withdraw_ne hs, Objects.get_modify_ne hs]
  have hsize : o'.store.size = o.store.size := by rw [Objects.size_withdraw, Objects.size_modify]
  have hself : (o'.get r).links = [] := by
    by_cases hr : r < o.store.size
    · rw [Objects.get_withdraw, Objects.get_modify_self (by rwa [Objects.size_modify]),
        Objects.get_modify_self hr]
    · rw [Objects.get_of_size_le (hsize ▸ Nat.le_of_not_lt hr)]
  have htidy' : o'.Tidy := by
    intro s hs
    by_cases hsr : s = r
    · rw [hsr, hself]
    · rw [hother s hsr] at hs ⊢
      exact htidy s hs
  rw [he]
  refine ⟨?_, htidy'⟩
  obtain ⟨rest, hold, hnew⟩ := Objects.records_split hsize hother
  rw [hkeeps.records, htidy.records, hkeeps.links] at hold
  rw [htidy'.records, hself] at hnew
  have hgone := h.spaces.perm (hold.append_right links)
  rw [List.append_assoc] at hgone
  have hrest := (hgone.perm ((List.reverse_perm _).symm.append_right _)).unlinkAll
  exact hrest.perm (hnew.symm.append_right links)

end Console

open Console

theorem Move.linked {base : Nat} {strict : Prop} {s s' : Stage} {links : List (SpaceId × SpaceId)}
    (h : Move base strict s s') (hs : s.console.Linked links) : s'.console.Linked links := by
  cases h with
  | change block held h => exact h.linked hs
  | command h => exact h.linked hs
  | answer h => exact h.linked hs
  | load u h => exact ⟨(h.linked hs).spaces, (h.linked hs).tidy⟩
  | @publish holds c r made fresh => exact Linked.publish (c := c) hs made fresh
  | @place holds c group r known made => exact hs.objects (.addChild c.objects group r)
  | @detach holds c r => exact hs.objects (.modify c.objects r fun _ => rfl)
  | @orphan holds c r child owned => exact hs.objects (.modify c.objects child fun _ => rfl)
  | @withdraw holds c r => exact Linked.withdraw (c := c) hs r
  | push | share | pop | enter | leave | hold | drop => exact ⟨hs.spaces, hs.tidy⟩

theorem Move.links_kept {base : Nat} {strict : Prop} {s s' : Stage} {r : ObjectRef} (h : Move base strict s s')
    (hr : (s.console.objects.get r).registered = true) (hr' : (s'.console.objects.get r).registered = true) :
    (s'.console.objects.get r).links = (s.console.objects.get r).links := by
  cases h with
  | change block held h => exact h.keeps.links r
  | command h => exact h.keeps.links r
  | answer h => exact h.keeps.links r
  | @load holds c c' u h => exact (h.keeps.links r : (c'.objects.get r).links = (c.objects.get r).links)
  | @publish holds c q made fresh =>
    have hne : r ≠ q := by
      rintro rfl
      have hregistered : (c.objects.get r).registered = true := hr
      rw [hregistered] at fresh
      cases fresh
    exact congrArg Object.links (get_publish_ne hne : (c.publish q).objects.get r = c.objects.get r)
  | @place holds c group q known made => exact (Objects.Keeps.addChild c.objects group q).links r
  | @detach holds c q =>
    exact (Objects.Keeps.modify (f := fun o => { o with children := [] }) c.objects q fun _ => rfl).links r
  | @orphan holds c q child owned =>
    exact (Objects.Keeps.modify (f := fun o => { o with group := none }) c.objects child fun _ => rfl).links r
  | @withdraw holds c q =>
    have hne : r ≠ q := by
      rintro rfl
      exact absurd hr' (Bool.eq_false_iff.mp (registered_withdraw c r))
    exact (links_withdraw_ne hne : ((c.withdraw q).objects.get r).links = (c.objects.get r).links)
  | push | share | pop | enter | leave | hold | drop => rfl

namespace Objects

/-- Whatever is registered before is registered afterwards. -/
def Spares (o o' : Objects) : Prop :=
  ∀ r, (o.get r).registered = true → (o'.get r).registered = true

instance (o o' : Objects) : Decidable (o.Spares o') :=
  decidable_of_iff (∀ r < o.store.size, (o.get r).registered = true → (o'.get r).registered = true)
    ⟨fun h r hr => h r (lt_size_of_registered hr) hr, fun h r _ => h r⟩

end Objects

namespace Session

variable {strict : Prop} {s s' a b : Session}

theorem invariant_linked (strict : Prop) :
    Invariant strict fun s links _ => s.console.Linked links where
  start _ _ _ := by
    refine ⟨⟨⟨by rintro _ _ ⟨⟩, fun i => ⟨_, .root rfl⟩⟩, fun _ => rfl, by rintro _ _ ⟨⟩, by rintro _ _ ⟨⟩⟩, fun _ _ => rfl⟩
  move h hmove := hmove.linked h
  scopes _ _ h := ⟨h.spaces, h.tidy⟩
  link h hlinks := by
    refine ⟨?_, hlinks.objects ▸ h.tidy⟩
    rw [hlinks.objects]
    refine (hlinks.linked h.spaces).perm ?_
    rw [← List.append_assoc, ← List.append_assoc]
    exact List.perm_append_comm.append_right _
  load _ h := ⟨h.spaces, h.tidy⟩
  exec _ h := h

theorem Step.links_kept (h : Step strict a b) (ha : a.Reachable strict) {r : ObjectRef}
    (hr : (a.console.objects.get r).registered = true) (hr' : (b.console.objects.get r).registered = true) :
    (b.console.objects.get r).links = (a.console.objects.get r).links := by
  cases h with
  | go next =>
    obtain ⟨floor, hfits⟩ := ha.fits
    exact (hfits.next next).1.links_kept hr hr'
  | change idle h => exact h.keeps.links r
  | @registerClass p links unrun idle cls parent =>
    obtain ⟨c₁, hchanges, hlinks⟩ := p.console.registerClass_links strict cls parent
    exact (congrArg (fun o => (o.get r).links) hlinks.objects).trans (hchanges.keeps.links r)
  | pushFrame | pushShared | popFrame | load | exec | ask => rfl

/-- A step that makes no link for a class and deletes no object that is registered at `s`. -/
def Sparing (strict : Prop) (s a b : Session) : Prop :=
  Step strict a b ∧ b.links = a.links ∧
    ∀ r, (s.console.objects.get r).registered = true → (b.console.objects.get r).registered = true

theorem spared (hs : s.Reachable strict) (h : Relation.ReflTransGen (Sparing strict s) s s') :
    s'.Reachable strict ∧ s'.links = s.links ∧
      ∀ r, (s.console.objects.get r).registered = true →
        (s'.console.objects.get r).registered = true ∧
          (s'.console.objects.get r).links = (s.console.objects.get r).links := by
  induction h with
  | refl => exact ⟨hs, rfl, fun r hr => ⟨hr, rfl⟩⟩
  | tail _ hstep ih =>
    obtain ⟨hreachable, hlinks, hkept⟩ := ih
    obtain ⟨hstep, hsame, hspared⟩ := hstep
    refine ⟨hreachable.step hstep, hsame.trans hlinks, fun r hr => ⟨hspared r hr, ?_⟩⟩
    exact (hstep.links_kept hreachable (hkept r hr).1 (hspared r hr)).trans (hkept r hr).2

theorem sparing_runFor {p : Process} {links : List (SpaceId × SpaceId)} {unrun : List BlockId} (n : Nat)
    (h : ∀ k ≤ n, s.console.objects.Spares (p.runFor k).console.objects) :
    Relation.ReflTransGen (Sparing strict s) ⟨p, links, unrun⟩ ⟨p.runFor n, links, unrun⟩ := by
  induction n generalizing p with
  | zero => exact .refl
  | succ n ih =>
    cases hnext : p.next with
    | none => rw [Process.runFor, hnext]
    | some q =>
      have hahead (k : Nat) : p.runFor (k + 1) = q.runFor k := by rw [Process.runFor, hnext]
      have hspared (k : Nat) (hk : k ≤ n) := h (k + 1) (Nat.succ_le_succ hk)
      simp only [hahead] at hspared ⊢
      exact .head ⟨.go hnext, rfl, hspared 0 (Nat.zero_le n)⟩ (ih hspared)

theorem sparing_run {p : Process} {links : List (SpaceId × SpaceId)} {unrun : List BlockId} {j : Job}
    (idle : p.next = none) (hj : j.Public strict p.console) (n : Nat)
    (h : ∀ k ≤ n, s.console.objects.Spares (Process.runFor k ⟨.start j, [], p.console⟩).console.objects) :
    Relation.ReflTransGen (Sparing strict s) ⟨p, links, unrun⟩
      ⟨.runFor n ⟨.start j, [], p.console⟩, links, unrun⟩ :=
  .head ⟨.ask idle hj, rfl, h 0 (Nat.zero_le n)⟩ (sparing_runFor n h)

/-- At every point of every session no namespace is its own ancestor, a namespace has a parent exactly
if its count is positive, and its count is the number of the links that classes and registered objects
ask for, all with that parent. Once all objects are deleted that were registered since, parents and
counts are what they were. -/
theorem linkage_exact (hs : s.Reachable strict) :
    (∀ i, ¬ Relation.TransGen (fun a b => (s.console.spaces.space a).parent = some b) i i) ∧
    (∀ i, (s.console.spaces.space i).parent.isSome ↔ 0 < (s.console.spaces.space i).linkCount) ∧
    (∀ i, (s.console.spaces.space i).linkCount =
      Namespaces.linksOf s.links i + Namespaces.linksOf s.console.objects.records i) ∧
    (∀ i q, (i, q) ∈ s.links ++ s.console.objects.records →
      (s.console.spaces.space i).parent = some q) ∧
    ∀ s', Relation.ReflTransGen (Sparing strict s) s s' →
      (∀ r, (s'.console.objects.get r).registered = true →
        (s.console.objects.get r).registered = true) →
      ∀ i, (s'.console.spaces.space i).parent = (s.console.spaces.space i).parent ∧
        (s'.console.spaces.space i).linkCount = (s.console.spaces.space i).linkCount := by
  have h : s.console.Linked s.links := (invariant_linked strict).holds hs
  refine ⟨h.spaces.rooted.acyclic, ?_, ?_, ?_, ?_⟩
  · intro i
    rw [h.spaces.count i, Int.natCast_pos, Namespaces.linksOf_pos, Option.isSome_iff_exists]
    exact exists_congr fun q => ⟨h.spaces.asked i q, h.spaces.parent i q⟩
  · intro i
    rw [h.spaces.count i, ← Int.natCast_add, Namespaces.linksOf, List.countP_append, Nat.add_comm]
    rfl
  · intro i q hq
    exact h.spaces.parent i q (List.perm_append_comm.mem_iff.mp hq)
  · intro s' hsteps hdeleted
    obtain ⟨hreachable, hlinks, hkept⟩ := spared hs hsteps
    have h' : s'.console.Linked s'.links := (invariant_linked strict).holds hreachable
    have hrecords : s'.console.objects.records = s.console.objects.records := by
      refine Objects.records_congr fun r => ?_
      rw [Object.records, Object.records]
      by_cases hr : (s.console.objects.get r).registered = true
      · rw [if_pos hr, if_pos (hkept r hr).1, (hkept r hr).2]
      · rw [if_neg hr, if_neg fun hr' => hr (hdeleted r hr')]
    have hspaces := h'.spaces
    rw [hrecords, hlinks] at hspaces
    exact h.spaces.unique hspaces

/-- A second object asks for the links that the first one asked for, and is deleted. -/
theorem linkage_exact_objects :
    let source := Text.ofString "new ScriptObject() \x7b class = \"B\"; superClass = \"A\"; \x7d;"
    let c := ((equipped 0 0 0 []).registerClass "ScriptObject" []).2
    let once := Process.runFor 36 ⟨.start (.eval source "once.cs"), [], c⟩
    let twice := Process.runFor 36 ⟨.start (.eval source "twice.cs"), [], once.console⟩
    let gone := Process.runFor 5 ⟨.start (.delete 1), [], twice.console⟩
    once.console.objects.records = [(2, 1), (3, 2)] ∧
      (once.console.spaces.space 3).parent = some 2 ∧ (once.console.spaces.space 3).linkCount = 1 ∧
      (twice.console.spaces.space 3).linkCount = 2 ∧
      (gone.console.spaces.space 3).parent = some 2 ∧ (gone.console.spaces.space 3).linkCount = 1 := by
  intro source c once twice gone
  have hat (once twice gone : Process) (hs : ∃ links, Reachable False ⟨once, links, []⟩)
      (htwice : .runFor 36 ⟨.start (.eval source "twice.cs"), [], once.console⟩ = twice)
      (hgone : .runFor 5 ⟨.start (.delete 1), [], twice.console⟩ = gone)
      (hrun : (once.next.isNone ∧ twice.next.isNone) ∧
        (∀ k ≤ 36, once.console.objects.Spares
          (Process.runFor k ⟨.start (.eval source "twice.cs"), [], once.console⟩).console.objects) ∧
        (∀ k ≤ 5, once.console.objects.Spares
          (Process.runFor k ⟨.start (.delete 1), [], twice.console⟩).console.objects) ∧
        gone.console.objects.Spares once.console.objects ∧
        once.console.objects.records = [(2, 1), (3, 2)] ∧
        (once.console.spaces.space 3).linkCount = 1 ∧ (twice.console.spaces.space 3).linkCount = 2) :
      once.console.objects.records = [(2, 1), (3, 2)] ∧
        (once.console.spaces.space 3).parent = some 2 ∧ (once.console.spaces.space 3).linkCount = 1 ∧
        (twice.console.spaces.space 3).linkCount = 2 ∧
        (gone.console.spaces.space 3).parent = some 2 ∧
        (gone.console.spaces.space 3).linkCount = 1 := by
    obtain ⟨links, hs⟩ := hs
    obtain ⟨⟨hidle, hidle'⟩, hmaking, hdeleting, hdeleted, hrecords, hone, htwo⟩ := hrun
    obtain ⟨-, -, -, hasked, hrestored⟩ := linkage_exact hs
    have heval : Job.Public False once.console (.eval source "twice.cs") := trivial
    have hdelete : Job.Public False twice.console (.delete 1) := trivial
    have hmade : Relation.ReflTransGen (Sparing False ⟨once, links, []⟩)
        ⟨once, links, []⟩ ⟨twice, links, []⟩ :=
      htwice ▸ sparing_run (Option.isNone_iff_eq_none.mp hidle) heval 36 hmaking
    have hspared : Relation.ReflTransGen (Sparing False ⟨once, links, []⟩)
        ⟨twice, links, []⟩ ⟨gone, links, []⟩ :=
      hgone ▸ sparing_run (Option.isNone_iff_eq_none.mp hidle') hdelete 5 hdeleting
    obtain ⟨hsame, hcount⟩ := hrestored _ (hmade.trans hspared) hdeleted 3
    have hparent : (once.console.spaces.space 3).parent = some 2 := by
      refine hasked 3 2 (List.mem_append_right _ ?_)
      rw [hrecords]
      exact List.mem_of_mem_tail (List.mem_singleton.mpr rfl)
    exact ⟨hrecords, hparent, hone, htwo, hsame.trans hparent, hcount.trans hone⟩
  have hcomes : Comes False c := (comes_equipped 0 0 0 []).registerClass "ScriptObject" []
  exact hat once twice gone (hcomes.imp fun _ h => h.eval _ _ 36) rfl rfl (by decide +kernel)

end Session

end ConsoleScript
