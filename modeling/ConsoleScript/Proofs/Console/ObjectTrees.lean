import ConsoleScript.Proofs.Console.Unwatched

/-!
# Trees of objects

A tree of objects is declared by a plan. Every object of it is made on its own: it is made or the
making fails, whatever became of the others, except that nothing is made of what stands inside an
object that was not made. `Declares` tells which objects of a plan are made, one after the other.

`Console.Gains` tells what a console is like to which objects were added, by nothing but the list of
them: what leads to them, where they are children, and that all else about objects is as it was.
-/

namespace ConsoleScript

theorem NameTable.intern_found (t : NameTable) {s : Text} (hs : s ≠ []) :
    ∃ n, (t.intern s).1 = some n ∧ (t.intern s).2.find? s = some n := by
  obtain ⟨n, t', he⟩ := exists_intern (t := t) hs
  exact ⟨n, by rw [he], by rw [he]; exact find?_intern_self he⟩

/-! ## Plans -/

structure FieldPlan where
  name : Text
  index : Text
  value : Text

/-- What the declaration of an object says. -/
structure ObjectPlan where
  cls : Text
  name : Text
  /-- The object whose fields are copied, if it is not empty. -/
  source : Text
  args : List Text
  fields : List FieldPlan
  children : List ObjectPlan

/-- Names of fields differ in more than letter case. -/
def FieldPlan.key (f : FieldPlan) : Text := Text.lower (f.name ++ f.index)

def FieldPlan.field? (f : FieldPlan) : Option Field :=
  if f.value = [] then none else some ⟨f.name ++ f.index, f.value⟩

namespace Fields

variable {fs fs' : Fields} {k k' : Text} {f : Field}

/-- Every field is there once, in the order of the keys. -/
def Ordered (fs : Fields) : Prop :=
  (fs.map Prod.fst).Pairwise fun k k' => Text.le k k' = true ∧ k ≠ k'

/-- Fields with others in their place. The last one to be set decides about each of them, and those
that are not set are as they were. -/
structure Overridden (fs : Fields) (plans : List FieldPlan) (fs' : Fields) : Prop where
  field : ∀ k, fs'.lookup k = match plans.reverse.find? fun f => f.key == k with
    | some f => f.field?
    | none => fs.lookup k
  ordered : fs.Ordered → fs'.Ordered

theorem lookup_cons (k : Text) (f : Field) (fs : Fields) (k' : Text) :
    List.lookup k' ((k, f) :: fs) = if k' = k then some f else fs.lookup k' := by
  by_cases hk : k' = k
  · rw [if_pos hk, hk, List.lookup_cons_self]
  · rw [if_neg hk, List.lookup_cons, beq_eq_false_iff_ne.mpr hk]

theorem lookup_insert (fs : Fields) (k : Text) (f : Field) (k' : Text) :
    (fs.insert k f).lookup k' = if k' = k then some f else fs.lookup k' := by
  induction fs with
  | nil => exact lookup_cons k f [] k'
  | cons x fs ih =>
    obtain ⟨key, g⟩ := x
    rw [insert]
    split
    · rename_i hkey
      obtain rfl := beq_iff_eq.mp hkey
      rw [lookup_cons, lookup_cons]
      split <;> rfl
    · rename_i hkey
      split
      · exact lookup_cons k f _ k'
      · rw [lookup_cons, lookup_cons, ih]
        by_cases hk : k' = k
        · subst hk
          rw [if_pos rfl, if_pos rfl, if_neg (by simpa using hkey)]
        · rw [if_neg hk, if_neg hk]

theorem lookup_erase (fs : Fields) (k k' : Text) :
    (fs.erase k).lookup k' = if k' = k then none else fs.lookup k' := by
  induction fs with
  | nil => split <;> rfl
  | cons x fs ih =>
    obtain ⟨key, g⟩ := x
    rw [erase] at ih ⊢
    rw [List.filter_cons]
    by_cases hkey : key = k
    · subst hkey
      rw [if_neg (by simp), ih, lookup_cons]
      split <;> rfl
    · rw [if_pos (by simpa using hkey), lookup_cons, lookup_cons, ih]
      by_cases hk : k' = k
      · subst hk
        rw [if_pos rfl, if_pos rfl, if_neg (Ne.symm hkey)]
      · rw [if_neg hk, if_neg hk]

theorem mem_keys_insert (h : k' ∈ (fs.insert k f).map Prod.fst) : k' = k ∨ k' ∈ fs.map Prod.fst := by
  induction fs with
  | nil => simpa [insert] using h
  | cons x fs ih =>
    obtain ⟨key, g⟩ := x
    rw [insert] at h
    split at h
    · obtain rfl | h := List.mem_cons.mp h
      · exact .inl rfl
      · exact .inr (List.mem_cons_of_mem _ h)
    · split at h
      · exact List.mem_cons.mp h
      · obtain rfl | h := List.mem_cons.mp h
        · exact .inr List.mem_cons_self
        · exact (ih h).imp_right (List.mem_cons_of_mem _)

theorem Ordered.insert (h : fs.Ordered) (k : Text) (f : Field) : (fs.insert k f).Ordered := by
  induction fs with
  | nil => exact List.pairwise_singleton _ k
  | cons x fs ih =>
    obtain ⟨key, g⟩ := x
    obtain ⟨hfirst, hrest⟩ := List.pairwise_cons.mp h
    rw [Fields.insert]
    split
    · rename_i hkey
      obtain rfl := beq_iff_eq.mp hkey
      exact h
    · rename_i hkey
      have hne : k ≠ key := by simpa using hkey
      split
      · rename_i hle
        refine List.pairwise_cons.mpr ⟨fun k' hk' => ?_, h⟩
        obtain rfl | hk' := List.mem_cons.mp hk'
        · exact ⟨hle, hne⟩
        · obtain ⟨hle', hne'⟩ := hfirst k' hk'
          refine ⟨Text.le_trans hle hle', ?_⟩
          rintro rfl
          exact hne' (Text.le_antisymm hle' hle)
      · rename_i hle
        refine List.pairwise_cons.mpr ⟨fun k' hk' => ?_, ih hrest⟩
        obtain rfl | hk' := mem_keys_insert hk'
        · exact ⟨(Bool.or_eq_true_iff.mp (Text.le_total k' key)).resolve_left hle, hne.symm⟩
        · exact hfirst k' hk'

theorem Ordered.set (h : fs.Ordered) (name index value : Text) : (fs.set name index value).Ordered := by
  rw [Fields.set]
  split
  · exact List.Pairwise.sublist (List.Sublist.map _ List.filter_sublist) h
  · exact h.insert _ _

/-- Sets fields, one after the other. -/
def assign (fs : Fields) (plans : List FieldPlan) : Fields :=
  plans.foldl (fun fs f => fs.set f.name f.index f.value) fs

theorem lookup_set (fs : Fields) (f : FieldPlan) (k : Text) :
    (fs.set f.name f.index f.value).lookup k = if k = f.key then f.field? else fs.lookup k := by
  rw [set, FieldPlan.field?]
  by_cases hvalue : f.value = []
  · rw [if_pos hvalue, if_pos (List.isEmpty_iff.mpr hvalue), lookup_erase]
    rfl
  · rw [if_neg hvalue, if_neg (by simpa using hvalue), lookup_insert]
    rfl

/-- By induction on the fields from the last one, which decides about its own key. -/
theorem overridden_assign (fs : Fields) (plans : List FieldPlan) :
    fs.Overridden plans (fs.assign plans) := by
  induction plans using List.reverseRecOn with
  | nil => exact ⟨fun _ => rfl, id⟩
  | append_singleton plans f ih =>
    rw [assign, List.foldl_append, ← assign]
    refine ⟨fun k => ?_, fun h => (ih.ordered h).set f.name f.index f.value⟩
    rw [List.reverse_append, List.reverse_singleton, List.singleton_append, List.find?_cons]
    refine (lookup_set _ f k).trans ?_
    by_cases hk : k = f.key
    · subst hk
      rw [if_pos rfl, beq_self_eq_true]
    · rw [if_neg hk, beq_eq_false_iff_ne.mpr (Ne.symm hk)]
      exact ih.field k

end Fields

def Console.copied? (c : Console) (source : Text) : Option Fields :=
  if source.isEmpty then some [] else (c.findObject? source).map fun r => (c.objects.get r).fields

/-- The object can be made: its class is registered, it has no arguments, and what it copies its
fields from is there. -/
structure Console.Admits (c : Console) (plan : ObjectPlan) (cls : Name) (copied : Fields) : Prop where
  known : c.names.find? plan.cls = some cls
  registered : c.classes.contains cls = true
  args : plan.args = []
  source : c.copied? plan.source = some copied

def ObjectPlan.object (plan : ObjectPlan) (cls : Name) (fields : Fields) (c : Console) : Object where
  cls := cls
  name := if plan.name.isEmpty then none else c.names.find? plan.name
  fields := fields
  isSet := c.classes.derives cls (c.names.find? "SimSet")
  ownsChildren := c.classes.derives cls (c.names.find? "SimGroup")

/-! ## Objects that are added -/

/-- An object that was registered. -/
structure ObjectNode where
  /-- The object it was declared in. -/
  parent : Option ObjectRef
  ref : ObjectRef
  id : UInt32
  /-- The object as it was made. -/
  object : Object

def Object.taking (x : Object) (children : List ObjectRef) : Object :=
  { x with children := x.children ++ if x.isSet then children else [] }

namespace ObjectNode

/-- What was declared inside an object, in the order of its declaration. -/
def inside (nodes : List ObjectNode) (r : ObjectRef) : List ObjectRef :=
  (nodes.filter fun n => n.parent == some r).map ref

def group? (n : ObjectNode) (o : Objects) : Option ObjectRef :=
  n.parent.filter fun p => (o.get p).isSet && (o.get p).ownsChildren

def enterName (named : Std.TreeMap Name ObjectRef) (n : ObjectNode) : Std.TreeMap Name ObjectRef :=
  match n.object.name with
  | some k => named.insert k n.ref
  | none => named

@[simp] theorem inside_nil (r : ObjectRef) : inside [] r = [] := rfl

@[simp] theorem inside_append (ns ns' : List ObjectNode) (r : ObjectRef) :
    inside (ns ++ ns') r = inside ns r ++ inside ns' r := by
  simp [inside]

theorem inside_eq_nil {nodes : List ObjectNode} {r : ObjectRef}
    (h : ∀ n ∈ nodes, n.parent ≠ some r) : inside nodes r = [] := by
  rw [inside, List.map_eq_nil_iff, List.filter_eq_nil_iff]
  intro n hn hparent
  exact h n hn (beq_iff_eq.mp hparent)

end ObjectNode

namespace Object

variable {x : Object} {rs rs' : List ObjectRef}

@[simp] theorem taking_nil (x : Object) : x.taking [] = x := by
  simp [taking]

theorem taking_taking (x : Object) (rs rs' : List ObjectRef) :
    (x.taking rs).taking rs' = x.taking (rs ++ rs') := by
  cases h : x.isSet <;> simp [taking, h]

end Object

namespace Objects

variable {o : Objects} {obj : Object} {r s p : ObjectRef} {parent : Option ObjectRef}

def join (o : Objects) (parent : Option ObjectRef) (r : ObjectRef) : Objects :=
  match parent with
  | some p => if (o.get p).isSet then (o.addChild p r).2 else o
  | none => o

theorem get_make (o : Objects) (obj : Object) (s : ObjectRef) :
    (o.make obj).2.get s = if s = o.store.size then obj else o.get s := by
  simp only [get, make, Array.getElem?_push]
  split <;> rfl

@[simp] theorem size_make (o : Objects) (obj : Object) :
    (o.make obj).2.store.size = o.store.size + 1 := by
  simp [make]

theorem modify_make (o : Objects) (obj : Object) (f : Object → Object) :
    (o.make obj).2.modify o.store.size f = (o.make (f obj)).2 := by
  have hstore : (o.store.push obj).modify o.store.size f = o.store.push (f obj) := by
    refine Array.ext (by simp) fun i h _ => ?_
    rw [Array.getElem_modify, Array.getElem_push, Array.getElem_push]
    split <;> grind
  rw [modify, make, hstore]
  rfl

theorem nextId_publish (o : Objects) (r : ObjectRef) : (o.publish r).nextId = o.nextId + 1 := by
  unfold publish
  dsimp only
  split <;> rfl

theorem named_publish_eq (o : Objects) (r : ObjectRef) (parent : Option ObjectRef) (id : UInt32) :
    (o.publish r).named = ObjectNode.enterName o.named ⟨parent, r, id, o.get r⟩ := by
  rw [ObjectNode.enterName]
  unfold publish
  dsimp only
  show (match (o.get r).name with
    | some n => _
    | none => _ : Objects).named = _
  split <;> rfl

theorem addChild_of_ungrouped (h : o.Accepts p r) (hgroup : (o.get r).group = none) :
    (o.addChild p r).2 = if (o.get p).ownsChildren = true then
      (o.reorder p (· ++ [r])).regroup r (some p) else o.reorder p (· ++ [r]) := by
  have hleave : o.leave p r = o := by
    rw [leave, hgroup]
    cases (o.get p).ownsChildren <;> rfl
  rw [addChild_of_accepts h, hleave]

theorem get_join (hp : p < o.store.size) (hr : r < o.store.size) (hne : r ≠ p)
    (hgroup : (o.get r).group = none) (hnot : r ∉ (o.get p).children) (s : ObjectRef) :
    (o.join (some p) r).get s = if s = p then (o.get p).taking [r]
      else if s = r then { o.get r with
        group := if (o.get p).isSet && (o.get p).ownsChildren then some p else none }
      else o.get s := by
  have hset {g : Object → Object} (s : ObjectRef) : (o.modify p g).get s =
      if s = p then g (o.get p) else o.get s := by
    split
    · subst_vars
      exact get_modify_self hp
    · exact get_modify_ne ‹_›
  rw [join]
  cases hisSet : (o.get p).isSet with
  | false =>
    rw [if_neg Bool.false_ne_true]
    split
    · subst_vars
      rw [Object.taking, hisSet, if_neg Bool.false_ne_true, List.append_nil, ← hisSet]
    · split
      · subst_vars
        rw [Bool.false_and, if_neg Bool.false_ne_true, ← hgroup]
      · rfl
  | true =>
    have hchildren : (o.get p).taking [r] = { o.get p with children := (o.get p).children ++ [r] } := by
      simp [Object.taking, hisSet]
    rw [if_pos rfl, addChild_of_ungrouped ⟨hisSet, hne, hnot⟩ hgroup, hchildren, Bool.true_and]
    cases (o.get p).ownsChildren with
    | false =>
      rw [if_neg Bool.false_ne_true, if_neg Bool.false_ne_true, reorder, hset, ← hgroup]
      split
      · rfl
      · split
        · subst_vars
          rfl
        · rfl
    | true =>
      rw [if_pos rfl, if_pos rfl, regroup]
      by_cases hs : s = r
      · subst hs
        rw [get_modify_self (by simpa using hr), reorder, hset, if_neg hne, if_neg hne, if_pos rfl]
      · rw [get_modify_ne hs, reorder, hset, if_neg hs]

/-- Where an object is put makes no difference to numbers and names. -/
theorem join_known (o : Objects) (parent : Option ObjectRef) (r : ObjectRef)
    (hgroup : (o.get r).group = none) : (o.join parent r).live = o.live ∧
      (o.join parent r).named = o.named ∧ (o.join parent r).nextId = o.nextId ∧
      (o.join parent r).store.size = o.store.size := by
  cases parent with
  | none => exact ⟨rfl, rfl, rfl, rfl⟩
  | some p =>
    rw [join]
    split
    · by_cases h : o.Accepts p r
      · rw [addChild_of_ungrouped h hgroup]
        split
        · exact ⟨rfl, rfl, rfl, by simp⟩
        · exact ⟨rfl, rfl, rfl, by simp⟩
      · rw [addChild_of_not_accepts h]
        exact ⟨rfl, rfl, rfl, rfl⟩
    · exact ⟨rfl, rfl, rfl, rfl⟩

end Objects

namespace Console

variable {c c' c₁ c₂ : Console} {nodes nodes' : List ObjectNode} {n : ObjectNode} {r : ObjectRef}

/-- These objects were registered, one after the other: their numbers follow one another, they can be
found by them and by their names, and each is a child of the object it was declared in if that is a
set. Every other object has the children it had, and those that were declared inside it, and is
otherwise as it was. -/
structure Gains (c : Console) (nodes : List ObjectNode) (c' : Console) : Prop where
  names : c.names.Extends c'.names
  classes : c'.classes = c.classes
  size : c'.objects.store.size = c.objects.store.size + nodes.length
  nextId : c'.objects.nextId = c.objects.nextId + UInt32.ofNat nodes.length
  live : c'.objects.live = nodes.foldl (fun live n => live.insert n.id n.ref) c.objects.live
  named : c'.objects.named = nodes.foldl ObjectNode.enterName c.objects.named
  numbered : ∀ (k : Nat) (n : ObjectNode), nodes[k]? = some n →
    n.ref = c.objects.store.size + k ∧ n.id = c.objects.nextId + UInt32.ofNat k
  below : ∀ n ∈ nodes, ∀ p, n.parent = some p → p < n.ref
  old : ∀ r < c.objects.store.size,
    c'.objects.get r = (c.objects.get r).taking (ObjectNode.inside nodes r)
  new : ∀ n ∈ nodes, ∃ space links, c'.objects.get n.ref =
    { n.object.taking (ObjectNode.inside nodes n.ref) with
      id := n.id
      registered := true
      group := n.group? c'.objects
      space := some space
      links := links }

namespace Gains

theorem none (hnames : c.names.Extends c'.names) (hclasses : c'.classes = c.classes)
    (hobjects : c'.objects = c.objects) : c.Gains [] c' where
  names := hnames
  classes := hclasses
  size := by rw [hobjects, List.length_nil, Nat.add_zero]
  nextId := by rw [hobjects, List.length_nil]; exact (UInt32.add_zero _).symm
  live := by rw [hobjects, List.foldl_nil]
  named := by rw [hobjects, List.foldl_nil]
  numbered k n hn := by cases hn
  below n hn := by cases hn
  old r _ := by rw [hobjects, ObjectNode.inside_nil, Object.taking_nil]
  new n hn := by cases hn

theorem refl (c : Console) : c.Gains [] c := none (.refl _) rfl rfl

/-- The references of the new objects are the next ones. -/
theorem ref_bounds (h : c.Gains nodes c') (hn : n ∈ nodes) :
    c.objects.store.size ≤ n.ref ∧ n.ref < c'.objects.store.size := by
  obtain ⟨k, hk⟩ := List.mem_iff_getElem?.mp hn
  have hlt : k < nodes.length := (List.getElem?_eq_some_iff.mp hk).1
  rw [(h.numbered k n hk).1, h.size]
  exact ⟨Nat.le_add_right _ _, Nat.add_lt_add_left hlt _⟩

theorem isSet_eq (h : c.Gains nodes c') (hr : r < c.objects.store.size) :
    (c'.objects.get r).isSet = (c.objects.get r).isSet := by
  rw [h.old r hr]
  rfl

theorem ownsChildren_eq (h : c.Gains nodes c') (hr : r < c.objects.store.size) :
    (c'.objects.get r).ownsChildren = (c.objects.get r).ownsChildren := by
  rw [h.old r hr]
  rfl

theorem trans (h : c.Gains nodes c₁) (h' : c₁.Gains nodes' c₂) : c.Gains (nodes ++ nodes') c₂ where
  names := h.names.trans h'.names
  classes := h'.classes.trans h.classes
  size := by rw [h'.size, h.size, List.length_append, Nat.add_assoc]
  nextId := by rw [h'.nextId, h.nextId, List.length_append, UInt32.ofNat_add, UInt32.add_assoc]
  live := by rw [h'.live, h.live, List.foldl_append]
  named := by rw [h'.named, h.named, List.foldl_append]
  numbered k n hn := by
    by_cases hk : k < nodes.length
    · rw [List.getElem?_append_left hk] at hn
      exact h.numbered k n hn
    · have hle := Nat.le_of_not_lt hk
      rw [List.getElem?_append_right hle] at hn
      obtain ⟨href, hid⟩ := h'.numbered _ n hn
      rw [href, hid, h.size, h.nextId, UInt32.add_assoc, ← UInt32.ofNat_add, Nat.add_assoc,
        Nat.add_sub_cancel' hle]
      exact ⟨rfl, rfl⟩
  below n hn := by
    rcases List.mem_append.mp hn with hn | hn
    · exact h.below n hn
    · exact h'.below n hn
  old r hr := by
    have hr₁ : r < c₁.objects.store.size := by rw [h.size]; omega
    rw [h'.old r hr₁, h.old r hr, Object.taking_taking, ObjectNode.inside_append]
  new n hn := by
    rcases List.mem_append.mp hn with hn | hn
    · -- What was registered first may take children that were registered later.
      obtain ⟨space, links, he⟩ := h.new n hn
      have hlt := (h.ref_bounds hn).2
      have hgroup : n.group? c₂.objects = n.group? c₁.objects := by
        rw [ObjectNode.group?, ObjectNode.group?]
        cases hparent : n.parent with
        | none => rfl
        | some p =>
          have hp : p < c₁.objects.store.size := Nat.lt_trans (h.below n hn p hparent) hlt
          rw [Option.filter_some, Option.filter_some, h'.isSet_eq hp, h'.ownsChildren_eq hp]
      refine ⟨space, links, ?_⟩
      rw [h'.old n.ref hlt, he, hgroup, ObjectNode.inside_append, ← Object.taking_taking]
      rfl
    · -- Nothing that was registered first was declared inside what was registered later.
      obtain ⟨space, links, he⟩ := h'.new n hn
      have hinside : ObjectNode.inside nodes n.ref = [] := by
        refine ObjectNode.inside_eq_nil fun m hm hparent => ?_
        have hbelow : n.ref < c₁.objects.store.size :=
          Nat.lt_trans (h.below m hm n.ref hparent) (h.ref_bounds hm).2
        exact Nat.not_le_of_lt hbelow (h'.ref_bounds hn).1
      refine ⟨space, links, ?_⟩
      rw [he, ObjectNode.inside_append, hinside, List.nil_append]

theorem single {obj : Object} {parent : Option ObjectRef} {space : SpaceId}
    {links : List (SpaceId × SpaceId)} (hgroup : obj.group = Option.none)
    (hnames : c.names.Extends c'.names) (hclasses : c'.classes = c.classes)
    (hparent : ∀ p, parent = some p →
      p < c.objects.store.size ∧ c.objects.store.size ∉ (c.objects.get p).children)
    (hobjects : c'.objects = ((((c.objects.make obj).2.publish c.objects.store.size).modify
      c.objects.store.size fun o => { o with space := some space, links := o.links ++ links }).join
        parent c.objects.store.size)) :
    c.Gains [⟨parent, c.objects.store.size, c.objects.nextId, obj⟩] c' := by
  obtain ⟨r, hr⟩ : ∃ r : Nat, r = c.objects.store.size := ⟨_, rfl⟩
  rw [← hr] at hparent hobjects ⊢
  have hmade : (c.objects.make obj).2.get r = obj := by
    rw [Objects.get_make, if_pos hr]
  obtain ⟨o, ho⟩ : ∃ o, o = ((c.objects.make obj).2.publish r).modify r fun o =>
    { o with space := some space, links := o.links ++ links } := ⟨_, rfl⟩
  rw [← ho] at hobjects
  have hsize : o.store.size = r + 1 := by
    rw [ho, Objects.size_modify, Objects.size_publish, Objects.size_make, hr]
  have hself : o.get r = { obj with
      id := c.objects.nextId
      registered := true
      space := some space
      links := obj.links ++ links } := by
    have hlt : r < (c.objects.make obj).2.store.size := by rw [Objects.size_make]; omega
    rw [ho, Objects.get_modify_self (by rwa [Objects.size_publish]), Objects.get_publish hlt, hmade]
    rfl
  have hother (s : Nat) (hs : s < r) : o.get s = c.objects.get s := by
    rw [ho, Objects.get_modify_ne (Nat.ne_of_lt hs), Objects.get_publish_ne (Nat.ne_of_lt hs),
      Objects.get_make, if_neg (Nat.ne_of_lt (hr ▸ hs))]
  have hfree : (o.get r).group = Option.none := by rw [hself]; exact hgroup
  obtain ⟨hlive, hnamed, hnextId, hstore⟩ := o.join_known parent r hfree
  -- What is put into what.
  have hget (s : Nat) (hs : s ≤ r) : c'.objects.get s =
      if s = r then { o.get r with group := (ObjectNode.mk parent r c.objects.nextId obj).group? c'.objects }
      else (c.objects.get s).taking (ObjectNode.inside [⟨parent, r, c.objects.nextId, obj⟩] s) := by
    cases parent with
    | none =>
      rw [hobjects, Objects.join]
      by_cases hsr : s = r
      · rw [if_pos hsr, hsr, ObjectNode.group?, Option.filter_none, ← hfree]
      · rw [if_neg hsr, hother s (Nat.lt_of_le_of_ne hs hsr), ObjectNode.inside_eq_nil (by simp),
          Object.taking_nil]
    | some p =>
      obtain ⟨hp, hnot⟩ := hparent p rfl
      have hlt : p < o.store.size := hsize ▸ Nat.lt_succ_of_lt hp
      have hne : r ≠ p := (Nat.ne_of_lt hp).symm
      have hjoin := Objects.get_join hlt (hsize ▸ Nat.lt_succ_self r) hne hfree
        (by rwa [hother p hp])
      have hflags : (c'.objects.get p).isSet = (o.get p).isSet ∧
          (c'.objects.get p).ownsChildren = (o.get p).ownsChildren := by
        rw [hobjects, hjoin, if_pos rfl]
        exact ⟨rfl, rfl⟩
      rw [ObjectNode.group?, Option.filter_some, hflags.1, hflags.2]
      by_cases hsr : s = r
      · rw [if_pos hsr, hobjects, hjoin, hsr, if_neg hne, if_pos rfl]
      · rw [if_neg hsr, hobjects, hjoin, if_neg hsr, hother s (Nat.lt_of_le_of_ne hs hsr),
          hother p hp]
        by_cases hsp : s = p
        · subst hsp
          rw [if_pos rfl]
          simp [ObjectNode.inside]
        · rw [if_neg hsp, ObjectNode.inside_eq_nil (by simpa using Ne.symm hsp), Object.taking_nil]
  refine ⟨hnames, hclasses, ?_, ?_, ?_, ?_, ?_, ?_, ?_, ?_⟩
  · rw [hobjects, hstore, hsize, hr]
    rfl
  · rw [hobjects, hnextId, ho, Objects.nextId_modify, Objects.nextId_publish]
    rfl
  · rw [hobjects, hlive, ho, Objects.live_modify, Objects.live_publish]
    rfl
  · rw [hobjects, hnamed, ho]
    have hnamed := (c.objects.make obj).2.named_publish_eq r parent c.objects.nextId
    rw [hmade] at hnamed
    exact hnamed
  · intro k n hn
    obtain ⟨rfl, rfl⟩ : k = 0 ∧ n = ⟨parent, r, c.objects.nextId, obj⟩ := by
      cases k with
      | zero => exact ⟨rfl, (Option.some.inj hn).symm⟩
      | succ k => cases hn
    exact ⟨hr, (UInt32.add_zero _).symm⟩
  · intro n hn p hp
    obtain rfl := List.mem_singleton.mp hn
    exact (hparent p hp).1
  · intro s hs
    rw [← hr] at hs
    rw [hget s (Nat.le_of_lt hs), if_neg (Nat.ne_of_lt hs)]
  · intro n hn
    obtain rfl := List.mem_singleton.mp hn
    have hinside : ObjectNode.inside [⟨parent, r, c.objects.nextId, obj⟩] r = [] := by
      refine ObjectNode.inside_eq_nil fun m hm hm' => ?_
      obtain rfl := List.mem_singleton.mp hm
      exact Nat.lt_irrefl r (hparent r hm').1
    refine ⟨space, obj.links ++ links, ?_⟩
    dsimp only
    rw [hget r (Nat.le_refl r), if_pos rfl, hself, hinside, Object.taking_nil]

end Gains

/-! ## Finding what was added -/

/-- Numbers that nothing new has lead where they led. -/
theorem getElem?_foldl_live (live : Std.TreeMap UInt32 ObjectRef) {id : UInt32}
    (h : ∀ n ∈ nodes, n.id ≠ id) :
    (nodes.foldl (fun live n => live.insert n.id n.ref) live)[id]? = live[id]? := by
  induction nodes generalizing live with
  | nil => rfl
  | cons n ns ih =>
    obtain ⟨hn, hns⟩ := List.forall_mem_cons.mp h
    rw [List.foldl_cons, ih _ hns, Std.TreeMap.getElem?_insert, if_neg (by simpa using hn)]

theorem Gains.live_of_ne (h : c.Gains nodes c') {id : UInt32} (hid : ∀ n ∈ nodes, n.id ≠ id) :
    c'.objects.live[id]? = c.objects.live[id]? := by
  rw [h.live, getElem?_foldl_live _ hid]

theorem ofNat_ne {k k' : Nat} (hne : k ≠ k') (hk : k < UInt32.size) (hk' : k' < UInt32.size) :
    UInt32.ofNat k ≠ UInt32.ofNat k' := by
  intro he
  have := congrArg UInt32.toNat he
  rw [UInt32.toNat_ofNat_of_lt' hk, UInt32.toNat_ofNat_of_lt' hk'] at this
  exact hne this

/-- As long as numbers do not come back, each of the new objects is found by its own. -/
theorem Gains.live_mem (h : c.Gains nodes c') (hlength : nodes.length ≤ UInt32.size) (hn : n ∈ nodes) :
    c'.objects.live[n.id]? = some n.ref := by
  rw [h.live]
  have hpairwise : nodes.Pairwise fun n n' => n'.id ≠ n.id := by
    rw [List.pairwise_iff_getElem]
    intro i j hi hj hij he
    rw [(h.numbered i _ (List.getElem?_eq_getElem hi)).2,
      (h.numbered j _ (List.getElem?_eq_getElem hj)).2, UInt32.add_right_inj] at he
    exact ofNat_ne (Nat.ne_of_gt hij) (by omega) (by omega) he
  generalize c.objects.live = live
  clear h hlength
  induction nodes generalizing live with
  | nil => cases hn
  | cons m ns ih =>
    obtain ⟨hm, hns⟩ := List.pairwise_cons.mp hpairwise
    rw [List.foldl_cons]
    rcases List.mem_cons.mp hn with rfl | hn
    · rw [getElem?_foldl_live _ hm, Std.TreeMap.getElem?_insert_self]
    · exact ih hn hns _

/-- The object is found by the number, also when so many more objects are registered, and it has no
children that there are not. -/
structure Hosts (c : Console) (p : ObjectRef) (id : UInt32) (room : Nat) : Prop where
  live : c.objects.live[id]? = some p
  made : p < c.objects.store.size
  children : ∀ s ∈ (c.objects.get p).children, s < c.objects.store.size
  room : ∀ k < room, c.objects.nextId + UInt32.ofNat k ≠ id

namespace Hosts

variable {p : ObjectRef} {id : UInt32} {room room' : Nat}

theorem mono (h : c.Hosts p id room) (hle : room' ≤ room) : c.Hosts p id room' :=
  ⟨h.live, h.made, h.children, fun k hk => h.room k (Nat.lt_of_lt_of_le hk hle)⟩

theorem not_mem (h : c.Hosts p id room) : c.objects.store.size ∉ (c.objects.get p).children :=
  fun hmem => Nat.lt_irrefl _ (h.children _ hmem)

theorem gains (h : c.Hosts p id (nodes.length + room)) (hgains : c.Gains nodes c') :
    c'.Hosts p id room where
  live := by
    rw [hgains.live_of_ne, h.live]
    intro n hn
    obtain ⟨k, hk⟩ := List.mem_iff_getElem?.mp hn
    have hlt : k < nodes.length := (List.getElem?_eq_some_iff.mp hk).1
    rw [(hgains.numbered k n hk).2]
    exact h.room k (by omega)
  made := by
    rw [hgains.size]
    exact Nat.lt_add_right _ h.made
  children s hs := by
    rw [hgains.old p h.made, Object.taking, List.mem_append] at hs
    rcases hs with hs | hs
    · rw [hgains.size]
      exact Nat.lt_add_right _ (h.children s hs)
    · split at hs
      · obtain ⟨n, hn, rfl⟩ := List.mem_map.mp hs
        exact (hgains.ref_bounds (List.mem_of_mem_filter hn)).2
      · cases hs
  room k hk := by
    rw [hgains.nextId, UInt32.add_assoc, ← UInt32.ofNat_add]
    exact h.room _ (by omega)

end Hosts

/-- What was registered last is found by its number until all numbers were given. -/
theorem Gains.hosts (h : c.Gains [n] c') (hchildren : n.object.children = []) {room : Nat}
    (hroom : room < UInt32.size) : c'.Hosts n.ref n.id room where
  live := h.live_mem (show 1 ≤ UInt32.size by decide) (List.mem_singleton_self n)
  made := (h.ref_bounds (List.mem_singleton_self n)).2
  children s hs := by
    obtain ⟨space, links, he⟩ := h.new n (List.mem_singleton_self n)
    rw [he] at hs
    have hs : s ∈ (n.object.taking (ObjectNode.inside [n] n.ref)).children := hs
    rw [Object.taking, hchildren, List.nil_append] at hs
    split at hs
    · obtain ⟨m, hm, rfl⟩ := List.mem_map.mp hs
      exact (h.ref_bounds (List.mem_of_mem_filter hm)).2
    · cases hs
  room k hk := by
    have hid := (h.numbered 0 n rfl).2
    rw [h.nextId, List.length_singleton, UInt32.add_assoc, ← UInt32.ofNat_add, hid, Ne,
      UInt32.add_right_inj]
    exact ofNat_ne (by omega) (by omega) (by decide)

/-! ## Which objects are made -/

/-- The objects of these plans are made and registered where they can be, one after the other. What
stands inside an object that was made comes next, and what stands inside another is passed over. -/
inductive Declares : Console → Option ObjectRef → List ObjectPlan → List ObjectNode → Console → Prop
  | done (c : Console) (parent : Option ObjectRef) : Declares c parent [] [] c
  | refused {c c₁ c₂ : Console} {parent : Option ObjectRef} {plan : ObjectPlan}
    {plans : List ObjectPlan} {nodes : List ObjectNode}
    (refused : ∀ cls copied, ¬ c.Admits plan cls copied) (gains : c.Gains [] c₁)
    (rest : Declares c₁ parent plans nodes c₂) : Declares c parent (plan :: plans) nodes c₂
  | made {c c₁ c₂ c₃ : Console} {plan : ObjectPlan} {plans : List ObjectPlan} {cls : Name}
    {copied fields : Fields} {node : ObjectNode} {nodes nodes' : List ObjectNode}
    (admitted : c.Admits plan cls copied) (overridden : copied.Overridden plan.fields fields)
    (object : node.object = plan.object cls fields c₁)
    (gains : c.Gains [node] c₁) (inside : Declares c₁ (some node.ref) plan.children nodes c₂)
    (rest : Declares c₂ node.parent plans nodes' c₃) :
    Declares c node.parent (plan :: plans) (node :: nodes ++ nodes') c₃

theorem Declares.gains {parent : Option ObjectRef} {plans : List ObjectPlan}
    (h : Declares c parent plans nodes c') : c.Gains nodes c' := by
  induction h with
  | done c parent => exact .refl c
  | refused _ gains _ ih => exact gains.trans ih
  | made _ _ _ gains _ _ ih ih' => exact (gains.trans ih).trans ih'

theorem Declares.append {parent : Option ObjectRef} {plans plans' : List ObjectPlan}
    (h : Declares c parent plans nodes c₁) (h' : Declares c₁ parent plans' nodes' c₂) :
    Declares c parent (plans ++ plans') (nodes ++ nodes') c₂ := by
  induction h with
  | done c parent => exact h'
  | refused refused gains _ ih => exact .refused refused gains (ih h')
  | made admitted overridden object gains inside _ _ ih =>
    rw [List.append_assoc]
    exact .made admitted overridden object gains inside (ih h')

/-! ## Making an object -/

theorem Unwatched.findObject?_eq (h : c.Unwatched) {names : NameTable}
    (hnames : c.names.Extends names) (t : Text) :
    ({ c with names := names } : Console).findObject? t = c.findObject? t := by
  rw [findObject?, findObject?]
  dsimp only
  split
  · rfl
  · split
    · rfl
    · cases hold : c.names.find? (Text.trim t) with
      | some n => rw [hnames.find?_eq h.consistent hold]
      | none =>
        cases hnew : names.find? (Text.trim t) with
        | none => rfl
        | some n =>
          rw [Option.bind_some, Option.bind_none]
          cases hnamed : c.objects.named[n]? with
          | none => rfl
          | some r =>
            rw [hnames.find?_of_knows h.consistent (h.named n r hnamed) hnew] at hold
            cases hold

structure Worded (names : NameTable) (plan : ObjectPlan) : Prop where
  name : plan.name.isEmpty = false → ∃ n, names.find? plan.name = some n
  set : ∃ n, names.find? "SimSet" = some n
  group : ∃ n, names.find? "SimGroup" = some n

theorem Worded.object_eq {plan : ObjectPlan} (h : Worded c.names plan) (hc : c.names.Consistent)
    (hnames : c.names.Extends c'.names) (hclasses : c'.classes = c.classes) (cls : Name)
    (fields : Fields) : plan.object cls fields c' = plan.object cls fields c := by
  obtain ⟨set, hset⟩ := h.set
  obtain ⟨group, hgroup⟩ := h.group
  rw [ObjectPlan.object, ObjectPlan.object, hclasses, hset, hgroup, hnames.find?_eq hc hset,
    hnames.find?_eq hc hgroup]
  cases hname : plan.name.isEmpty with
  | true => rfl
  | false =>
    obtain ⟨n, hn⟩ := h.name hname
    rw [hn, hnames.find?_eq hc hn]

theorem worded_intern (hc : c.names.Consistent) (plan : ObjectPlan) (cls : Name) (fields : Fields) :
    let named := c.names.intern plan.name
    let set := named.2.intern "SimSet"
    let group := set.2.intern "SimGroup"
    c.names.Extends group.2 ∧ Worded group.2 plan ∧
      plan.object cls fields { c with names := group.2 } = {
        cls := cls, name := named.1, fields := fields
        isSet := c.classes.derives cls set.1, ownsChildren := c.classes.derives cls group.1 } := by
  intro named set group
  have hnamed : c.names.Extends named.2 := .intern _ _
  have hset : named.2.Extends set.2 := .intern _ _
  have hgroup : set.2.Extends group.2 := .intern _ _
  have hc₁ := hnamed.consistent hc
  have hc₂ := hset.consistent hc₁
  obtain ⟨n₂, hfst₂, hfound₂⟩ := NameTable.intern_found named.2 (s := "SimSet") (by decide)
  obtain ⟨n₃, hfst₃, hfound₃⟩ := NameTable.intern_found set.2 (s := "SimGroup") (by decide)
  have hfound₂ := hgroup.find?_eq hc₂ hfound₂
  have hname : plan.name.isEmpty = false →
      ∃ n, named.1 = some n ∧ group.2.find? plan.name = some n := by
    intro hname
    obtain ⟨n₁, hfst₁, hfound₁⟩ :=
      NameTable.intern_found c.names (s := plan.name) (by simpa using hname)
    exact ⟨n₁, hfst₁, (hset.trans hgroup).find?_eq hc₁ hfound₁⟩
  refine ⟨(hnamed.trans hset).trans hgroup, ⟨?_, ⟨n₂, hfound₂⟩, ⟨n₃, hfound₃⟩⟩, ?_⟩
  · intro h
    obtain ⟨n₁, -, hfound₁⟩ := hname h
    exact ⟨n₁, hfound₁⟩
  · have hname : (if plan.name.isEmpty then none else group.2.find? plan.name) = named.1 := by
      cases h : plan.name.isEmpty with
      | true =>
        rw [if_pos rfl, show named = c.names.intern plan.name from rfl, NameTable.intern, if_pos h]
      | false =>
        obtain ⟨n₁, hfst₁, hfound₁⟩ := hname h
        rw [if_neg Bool.false_ne_true, hfst₁, hfound₁]
    rw [ObjectPlan.object]
    dsimp only
    rw [hname, hfound₂, hfound₃, hfst₂, hfst₃]

/-- Of a registered class an object is made, unless there is nothing to copy fields from. -/
theorem Unwatched.instantiate_eq (h : c.Unwatched) (plan : ObjectPlan) {cls : Name}
    (hcls : (c.names.find? plan.cls).filter c.classes.contains = some cls) (hargs : plan.args = []) :
    ∃ names, c.names.Extends names ∧ Worded names plan ∧
      c.instantiate plan.cls plan.name plan.source false plan.args = match c.copied? plan.source with
        | none => (.error (.noSource plan.source), { c with names := names })
        | some fields => (.ok c.objects.store.size, { c with
          names := names
          objects := (c.objects.make (plan.object cls fields { c with names := names })).2 }) := by
  have hobject := worded_intern h.consistent plan cls
  refine ⟨_, (hobject []).1, (hobject []).2.1, ?_⟩
  rw [instantiate, hcls, hargs]
  dsimp only
  rw [if_neg (by decide), if_neg (by simp)]
  simp only [intern_eq]
  cases hsource : plan.source.isEmpty with
  | true =>
    have hcopied : c.copied? plan.source = some [] := by rw [copied?, if_pos hsource]
    rw [if_pos rfl, hcopied]
    dsimp only
    rw [(hobject []).2.2]
    rfl
  | false =>
    have hfind := h.findObject?_eq (hobject []).1 plan.source
    have hcopied : c.copied? plan.source
        = (c.findObject? plan.source).map fun r => (c.objects.get r).fields := by
      rw [copied?, hsource, if_neg Bool.false_ne_true]
    rw [if_neg Bool.false_ne_true, hcopied]
    cases hfound : c.findObject? plan.source with
    | none =>
      rw [hfind.trans hfound]
      rfl
    | some r =>
      rw [hfind.trans hfound, Option.map_some]
      dsimp only
      rw [(hobject (c.objects.get r).fields).2.2]
      rfl

/-- An object is made where it can be; else names were added at most. -/
theorem Unwatched.instantiate_cases (h : c.Unwatched) (plan : ObjectPlan) :
    (∃ cls copied names, c.Admits plan cls copied ∧ c.names.Extends names ∧ Worded names plan ∧
      c.instantiate plan.cls plan.name plan.source false plan.args = (.ok c.objects.store.size, { c with
        names := names
        objects := (c.objects.make (plan.object cls copied { c with names := names })).2 })) ∨
    (∀ cls copied, ¬ c.Admits plan cls copied) ∧ ∃ e names, c.names.Extends names ∧
      c.instantiate plan.cls plan.name plan.source false plan.args
        = (.error e, { c with names := names }) := by
  cases hcls : (c.names.find? plan.cls).filter c.classes.contains with
  | none =>
    refine .inr ⟨fun cls copied hadmits => ?_, .unknownClass plan.cls, c.names, .refl _, ?_⟩
    · rw [hadmits.known, Option.filter_some, if_pos hadmits.registered] at hcls
      cases hcls
    · rw [instantiate, hcls]
  | some cls =>
    cases hargs : plan.args.isEmpty with
    | false =>
      refine .inr ⟨fun cls copied hadmits => ?_, .arguments plan.name plan.cls, c.names, .refl _, ?_⟩
      · rw [hadmits.args] at hargs
        cases hargs
      · rw [instantiate, hcls]
        dsimp only
        rw [hargs]
        rfl
    | true =>
      have hargs := List.isEmpty_iff.mp hargs
      obtain ⟨names, hextends, hworded, he⟩ := h.instantiate_eq plan hcls hargs
      rw [Option.filter_eq_some_iff] at hcls
      rw [he]
      cases hcopied : c.copied? plan.source with
      | none =>
        refine .inr ⟨fun cls copied hadmits => ?_, _, names, hextends, rfl⟩
        rw [hadmits.source] at hcopied
        cases hcopied
      | some copied =>
        exact .inl ⟨cls, copied, names, ⟨hcls.1, hcls.2, hargs, hcopied⟩, hextends, hworded, rfl⟩

/-- The object that was made is registered, and has its place where it was declared. -/
theorem Unwatched.registers (h : c.Unwatched) {names : NameTable} (hnames : c.names.Extends names)
    {plan : ObjectPlan} (hworded : Worded names plan) (cls : Name) (fields : Fields) :
    ∃ c₁, (∀ fuel, Run.registerObject (fuel + 3) c.objects.store.size { c with
        names := names
        objects := (c.objects.make (plan.object cls fields { c with names := names })).2 } = .ok () c₁) ∧
      c₁.objects.live = c.objects.live.insert c.objects.nextId c.objects.store.size ∧
      (c₁.objects.get c.objects.store.size).id = c.objects.nextId ∧
      ∀ parent, (∀ p, parent = some p →
          p < c.objects.store.size ∧ c.objects.store.size ∉ (c.objects.get p).children) →
        Unwatched { c₁ with objects := c₁.objects.join parent c.objects.store.size } ∧
        plan.object cls fields c₁ = plan.object cls fields { c with names := names } ∧
        c.Gains [⟨parent, c.objects.store.size, c.objects.nextId,
          plan.object cls fields { c with names := names }⟩]
          { c₁ with objects := c₁.objects.join parent c.objects.store.size } := by
  obtain ⟨obj, hobj⟩ : ∃ obj, obj = plan.object cls fields { c with names := names } := ⟨_, rfl⟩
  obtain ⟨c₀, hc₀⟩ : ∃ c₀ : Console, c₀ = { c with
    names := names, objects := (c.objects.make obj).2 } := ⟨_, rfl⟩
  have hself : c₀.objects.get c.objects.store.size = obj := by
    rw [hc₀]
    exact (Objects.get_make _ _ _).trans (if_pos rfl)
  have hlt : c.objects.store.size < c₀.objects.store.size := by
    rw [hc₀]
    exact Objects.fst_make_lt _ _
  have hunwatched : c₀.Unwatched := by
    rw [hc₀]
    exact h.of_eq hnames h.indexed rfl fun n r hn => hnames.knows (h.named n r hn)
  have hknown : ∀ n, (c₀.objects.get c.objects.store.size).name = some n → c₀.names.Knows n := by
    intro n hn
    rw [hself, hobj, ObjectPlan.object] at hn
    dsimp only at hn
    split at hn
    · cases hn
    · obtain ⟨s, hs, -⟩ := (hnames.consistent h.consistent).spells_of_find? hn
      rw [hc₀]
      exact ⟨s, hs⟩
  obtain ⟨c₁, hrun, hunwatched₁, hnames₁, hclasses₁, space, links, hobjects⟩ :=
    hunwatched.registerObject hlt hknown
  have hextends : names.Extends c₁.names := by
    rw [hc₀] at hnames₁
    exact hnames₁
  have hclasses : c₁.classes = c.classes := by
    rw [hclasses₁, hc₀]
  rw [← hobj, ← hc₀]
  refine ⟨c₁, hrun, ?_, ?_, fun parent hparent => ⟨?_, ?_, ?_⟩⟩
  · rw [hobjects, hc₀, Objects.live_modify, Objects.live_publish]
    rfl
  · rw [hobjects, Objects.get_modify_self (by rwa [Objects.size_publish]), Objects.get_publish hlt, hc₀]
    rfl
  · have hgroup : (c₁.objects.get c.objects.store.size).group = none := by
      rw [hobjects, Objects.get_modify_self (by rwa [Objects.size_publish]), Objects.get_publish hlt]
      show (c₀.objects.get c.objects.store.size).group = none
      rw [hself, hobj]
      rfl
    refine hunwatched₁.of_eq (.refl _) hunwatched₁.indexed rfl ?_
    intro n r hn
    have hn : (c₁.objects.join parent c.objects.store.size).named[n]? = some r := hn
    rw [(Objects.join_known _ parent _ hgroup).2.1] at hn
    exact hunwatched₁.named n r hn
  · rw [hobj]
    exact Worded.object_eq (c := { c with names := names }) hworded (hnames.consistent h.consistent)
      hextends hclasses cls fields
  · have hjoined : c₁.objects.join parent c.objects.store.size =
        ((((c.objects.make obj).2.publish c.objects.store.size).modify c.objects.store.size fun o =>
          { o with space := some space, links := o.links ++ links }).join parent
            c.objects.store.size) := by
      rw [hobjects, hc₀]
    exact .single (by rw [hobj]; rfl) (hnames.trans hextends) hclasses hparent hjoined

end Console
end ConsoleScript
