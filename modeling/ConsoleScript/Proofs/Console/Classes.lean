import ConsoleScript.Proofs.Console.Linkage
import ConsoleScript.Proofs.Console.Steadiness

/-!
# Classes and their namespaces

Two things say what a class inherits from: the parent that was recorded when it was registered, which
decides what its objects are, and the parent of its namespace, which decides what methods they have.
The parent is recorded before the namespaces are linked, and it stays on record when the link is
refused. Other than that the two agree at all times, whatever scripts do with their objects.
-/

namespace ConsoleScript

namespace Classes

variable {c : Classes} {k p a : Name} {ks : List Name}

theorem lookup_map (rows : List (Option Name × Option Name)) (cls parent k : Option Name) :
    (rows.map fun (k, p) => if k == cls then (k, parent) else (k, p)).lookup k =
      if k = cls then (rows.lookup k).map fun _ => parent else rows.lookup k := by
  induction rows with
  | nil => simp
  | cons row rows ih =>
    obtain ⟨k', p⟩ := row
    rw [List.map_cons]
    by_cases hcls : k' = cls
    · subst hcls
      simp only [beq_self_eq_true, if_true, List.lookup_cons]
      by_cases hk : k = k'
      · simp [hk]
      · simpa [beq_eq_false_iff_ne.mpr hk, hk] using ih
    · simp only [beq_eq_false_iff_ne.mpr hcls, Bool.false_eq_true, if_false, List.lookup_cons]
      by_cases hk : k = k'
      · simp [hk, hcls]
      · simpa [beq_eq_false_iff_ne.mpr hk] using ih

theorem lookup_register (c : Classes) (cls parent k : Option Name) :
    (c.register cls parent).rows.lookup k = if k = cls then some parent else c.rows.lookup k := by
  rw [register]
  split
  · rename_i hsome
    rw [lookup_map]
    split
    · rename_i he
      subst he
      obtain ⟨p, hp⟩ := Option.isSome_iff_exists.mp hsome
      rw [hp]
      rfl
    · rfl
  · rename_i hnone
    rw [List.lookup_append]
    split
    · rename_i he
      subst he
      simp [Option.not_isSome_iff_eq_none.mp hnone]
    · rename_i hne
      simp [List.lookup_cons, beq_eq_false_iff_ne.mpr hne]

/-- A class and those it was said to inherit from, nearest first. -/
inductive Lineage (c : Classes) : Name → List Name → Prop
  | root {k : Name} (h : c.parent? k = none) : Lineage c k [k]
  | child {k p : Name} {ks : List Name} (h : c.parent? k = some p) (rest : Lineage c p ks) :
    Lineage c k (k :: ks)

theorem Lineage.ne_nil (h : Lineage c k ks) : ks ≠ [] := by
  cases h <;> exact List.cons_ne_nil _ _

theorem mem_rows_of_parent? (h : c.parent? k = some p) : some k ∈ c.rows.map Prod.fst := by
  obtain ⟨before, after, hrows, -⟩ := List.lookup_eq_some_iff.mp (Option.join_eq_some_iff.mp h)
  simp [hrows]

/-- Different registered classes are no more than there are classes on record. -/
theorem length_le_of_registered (hnodup : ks.Nodup) (h : ∀ a ∈ ks, some a ∈ c.rows.map Prod.fst) :
    ks.length ≤ c.rows.length := by
  have hkeys : (ks.map some).Nodup := hnodup.map (Option.some_injective _)
  have hsub : ∀ k ∈ ks.map some, k ∈ c.rows.map Prod.fst := by
    intro k hk
    obtain ⟨a, ha, rfl⟩ := List.mem_map.mp hk
    exact h a ha
  simpa only [List.length_map] using (List.subperm_of_subset hkeys hsub).length_le

theorem Lineage.registered (h : Lineage c k ks) : ∀ a ∈ ks.dropLast, some a ∈ c.rows.map Prod.fst := by
  induction h with
  | root h => simp
  | @child k p ks hparent hrest ih =>
    rw [List.dropLast_cons_of_ne_nil hrest.ne_nil]
    exact List.forall_mem_cons.mpr ⟨mem_rows_of_parent? hparent, ih⟩

theorem Lineage.length_le (h : Lineage c k ks) (hnodup : ks.Nodup) : ks.length ≤ c.rows.length + 1 := by
  have hlength := length_le_of_registered (hnodup.sublist (List.dropLast_sublist ks)) h.registered
  rw [List.length_dropLast] at hlength
  omega

theorem Lineage.derivesWithin_iff (h : Lineage c k ks) {fuel : Nat} (hfuel : ks.length ≤ fuel + 1) :
    c.derivesWithin (some a) fuel k = true ↔ a ∈ ks := by
  induction h generalizing fuel with
  | root hroot =>
    rw [List.mem_singleton]
    cases fuel with
    | zero =>
      rw [derivesWithin, beq_iff_eq, Option.some_inj]
      exact eq_comm
    | succ fuel =>
      rw [derivesWithin, hroot, derivesWithin, Bool.or_false, beq_iff_eq, Option.some_inj]
      exact eq_comm
  | child hchild hrest ih =>
    have hlength := List.length_pos_of_ne_nil hrest.ne_nil
    rw [List.length_cons] at hfuel
    obtain ⟨fuel, rfl⟩ : ∃ m, fuel = m + 1 := ⟨fuel - 1, by omega⟩
    rw [derivesWithin, hchild, Bool.or_eq_true, beq_iff_eq, List.mem_cons, Option.some_inj]
    exact or_congr eq_comm (ih (by omega))

end Classes

/-! ## Registering a class -/

namespace Namespaces

variable {s s' : Namespaces}

theorem find?_ne {name name' : Option Name} {i j : SpaceId} (hi : s.find? name none = some i)
    (hj : s.find? name' none = some j) (hne : name ≠ name') : i ≠ j := by
  rintro rfl
  exact hne ((find?_some hi).2.1.symm.trans (find?_some hj).2.1)

/-- The namespace has another parent already, or that parent inherits from it. -/
def Refuses (s : Namespaces) (id parent : SpaceId) : Prop :=
  (∃ q, (s.space id).parent = some q ∧ q ≠ parent) ∨
    (s.space id).parent = none ∧ ∃ ids, Lineage s parent ids ∧ id ∈ ids

theorem fst_link_eq_false_iff (h : Rooted s) (id parent : SpaceId) :
    (s.link id parent).1 = false ↔ s.Refuses id parent := by
  obtain ⟨ids, hids⟩ := h.lineage parent
  have hreaches : s.reaches id s.spaces.size parent = true ↔ id ∈ ids :=
    hids.reaches_iff (h.length_le hids)
  rw [link, Refuses]
  cases hparent : (s.space id).parent with
  | some q =>
    by_cases hq : q = parent
    · simp [hq]
    · simp [hq]
  | none =>
    dsimp only
    split
    · rename_i hcycle
      exact iff_of_true rfl (.inr ⟨rfl, ids, hids, hreaches.mp hcycle⟩)
    · rename_i hopen
      refine iff_of_false Bool.noConfusion ?_
      rintro (⟨q, hq, -⟩ | ⟨-, ids', hids', hmem⟩)
      · cases hq
      · rw [hids'.unique hids] at hmem
        exact hopen (hreaches.mpr hmem)

theorem Keeps.refuses_iff (h : Keeps s s') (id parent : SpaceId) :
    s'.Refuses id parent ↔ s.Refuses id parent := by
  have hlineage (i : SpaceId) (ids : List SpaceId) : Lineage s' i ids ↔ Lineage s i ids :=
    ⟨fun hids => hids.congr fun j _ => (h.parent j).symm, fun hids => hids.congr fun j _ => h.parent j⟩
  simp only [Refuses, h.parent, hlineage]

end Namespaces

namespace Console

/-- The names of a class and of its parent, as they are interned when it is registered. -/
def classNames (c : Console) (cls parent : Text) : Option Name × Option Name :=
  ((c.intern cls).1, ((c.intern cls).2.intern parent).1)

/-- Is the class registered with a parent, and the link of its namespace refused? -/
def refusesClass (c : Console) (cls parent : Text) : Bool :=
  (c.classNames cls parent).2.isSome && (c.classLink cls parent).isEmpty

theorem registerClass_cases (c : Console) (cls parent : Text) :
    let k := (c.classNames cls parent).1
    let s := (c.spaces.obtain k none).2
    let c' := (c.registerClass cls parent).2
    c'.classes = c.classes.register k (c.classNames cls parent).2 ∧
      (((c.classNames cls parent).2 = none ∧ c'.spaces = s ∧ c.classLink cls parent = []) ∨
      ∃ p, (c.classNames cls parent).2 = some p ∧
        let id := (c.spaces.obtain k none).1
        let parentId := (s.obtain (some p) none).1
        let asked := (s.obtain (some p) none).2.link id parentId
        c'.spaces = asked.2 ∧
          c.classLink cls parent = if asked.1 then [(id, parentId)] else []) := by
  rw [registerClass, classLink, classNames]
  dsimp only
  cases ((c.intern cls).2.intern parent).1 with
  | none => exact ⟨rfl, .inl ⟨rfl, rfl, rfl⟩⟩
  | some p => exact ⟨rfl, .inr ⟨p, rfl, rfl, rfl⟩⟩

/-- The classes whose last link was refused, once another class is registered. -/
def refusals (c : Console) (cls parent : Text) (refused : List (Option Name)) : List (Option Name) :=
  let k := (c.classNames cls parent).1
  if c.refusesClass cls parent then k :: refused else refused.filter (· != k)

variable {c c' : Console} {links links' : List (SpaceId × SpaceId)} {refused : List (Option Name)}

/-- Classes have namespaces. The link to the namespace of the parent on record was made, unless the
last one was refused. -/
structure Enrolled (c : Console) (links : List (SpaceId × SpaceId)) (refused : List (Option Name)) :
    Prop where
  space : ∀ k v, c.classes.rows.lookup k = some v → ∃ id, c.spaces.find? k none = some id
  link : ∀ k p, c.classes.rows.lookup k = some (some p) → k ∉ refused →
    ∃ id parentId, c.spaces.find? k none = some id ∧ c.spaces.find? (some p) none = some parentId ∧
      (id, parentId) ∈ links

theorem Enrolled.steady (h : Enrolled c links refused) (hsteady : c.Steady c')
    (hlinks : ∀ l ∈ links, l ∈ links') : Enrolled c' links' refused := by
  refine ⟨?_, ?_⟩
  · intro k v hv
    rw [hsteady.classes] at hv
    obtain ⟨id, hid⟩ := h.space k v hv
    exact ⟨id, hsteady.spaces.find? hid⟩
  · intro k p hp hk
    rw [hsteady.classes] at hp
    obtain ⟨id, parentId, hid, hparent, hmem⟩ := h.link k p hp hk
    exact ⟨id, parentId, hsteady.spaces.find? hid, hsteady.spaces.find? hparent, hlinks _ hmem⟩

/-- What registering a class does: the namespaces of the class and of the parent are there, and the
link between them was made unless it was refused. -/
theorem registerClass_spec (c : Console) (cls parent : Text) :
    let k := (c.classNames cls parent).1
    let c' := (c.registerClass cls parent).2
    c.spaces.KeepsKeys c'.spaces ∧ ∃ id, c'.spaces.find? k none = some id ∧
      ∀ p, (c.classNames cls parent).2 = some p → ∃ parentId,
        c'.spaces.find? (some p) none = some parentId ∧
        (c.refusesClass cls parent = false → (id, parentId) ∈ c.classLink cls parent) ∧
        (c.spaces.Rooted → (c.refusesClass cls parent = true ↔ c.spaces.Refuses id parentId)) := by
  obtain ⟨-, ⟨hnone, hspaces, -⟩ | ⟨p, hp, hspaces, hlink⟩⟩ := c.registerClass_cases cls parent
  · dsimp only
    rw [hspaces, hnone]
    exact ⟨.of_grows Namespaces.grows_obtain, _, Namespaces.find?_obtain_none _ _, by rintro _ ⟨⟩⟩
  · have hrefuses : c.refusesClass cls parent = (c.classLink cls parent).isEmpty := by
      rw [refusesClass, hp, Option.isSome_some, Bool.true_and]
    generalize (c.classNames cls parent).1 = k at hspaces hlink ⊢
    let s := c.spaces.obtain k none
    let t := s.2.obtain (some p) none
    have hfirst : c.spaces.Grows s.2 := Namespaces.grows_obtain
    have hsecond : s.2.Grows t.2 := Namespaces.grows_obtain
    have hthird : t.2.KeepsKeys (t.2.link s.1 t.1).2 := .link t.2 s.1 t.1
    have hclass : s.2.find? k none = some s.1 := Namespaces.find?_obtain_none _ k
    have hparent : t.2.find? (some p) none = some t.1 := Namespaces.find?_obtain_none _ (some p)
    have hmade : (c.classLink cls parent).isEmpty = !(t.2.link s.1 t.1).1 := by
      rw [hlink]
      split
      · rename_i hok
        rw [hok]
        rfl
      · rename_i hok
        rw [Bool.eq_false_iff.mpr hok]
        rfl
    dsimp only
    rw [hspaces, hrefuses, hmade]
    have hkeys := (Namespaces.KeepsKeys.of_grows hsecond).trans hthird
    refine ⟨(Namespaces.KeepsKeys.of_grows hfirst).trans hkeys, s.1, hkeys.find? hclass, ?_⟩
    intro q hq
    cases hp.symm.trans hq
    refine ⟨t.1, hthird.find? hparent, fun hok => ?_, fun hrooted => ?_⟩
    · rw [Bool.not_eq_eq_eq_not, Bool.not_false] at hok
      rw [hlink, if_pos hok]
      exact List.mem_singleton_self _
    · have hkeeps := hfirst.keeps.trans hsecond.keeps
      have hrooted' : t.2.Rooted := hrooted.cut hkeeps.size fun i => .inl (hkeeps.parent i)
      rw [Bool.not_eq_true', Namespaces.fst_link_eq_false_iff hrooted', hkeeps.refuses_iff]

theorem parent_registerClass {cls parent : Text} (h : c.refusesClass cls parent = true) (i : SpaceId) :
    ((c.registerClass cls parent).2.spaces.space i).parent = (c.spaces.space i).parent := by
  rw [refusesClass, Bool.and_eq_true, List.isEmpty_iff] at h
  obtain ⟨-, ⟨hnone, -, -⟩ | ⟨p, hp, hspaces, hlink⟩⟩ := c.registerClass_cases cls parent
  · rw [hnone] at h
    cases h.1
  · rw [hspaces]
    rw [h.2] at hlink
    split at hlink
    · cases hlink
    · rename_i hrefused
      rw [Namespaces.snd_link_of_not_fst (Bool.eq_false_iff.mpr hrefused),
        Namespaces.grows_obtain.keeps.parent, Namespaces.grows_obtain.keeps.parent]

theorem Enrolled.registerClass (h : Enrolled c links refused) (cls parent : Text) :
    Enrolled (c.registerClass cls parent).2 (c.classLink cls parent ++ links)
      (c.refusals cls parent refused) := by
  have hclasses := (c.registerClass_cases cls parent).1
  obtain ⟨hkeys, id, hid, hspec⟩ := c.registerClass_spec cls parent
  refine ⟨?_, ?_⟩
  · intro k v hv
    rw [hclasses, Classes.lookup_register] at hv
    split at hv
    · rename_i he
      exact ⟨id, he ▸ hid⟩
    · obtain ⟨id', hid'⟩ := h.space k v hv
      exact ⟨id', hkeys.find? hid'⟩
  · intro k p hp hk
    rw [hclasses, Classes.lookup_register] at hp
    split at hp
    · rename_i he
      have hmade : c.refusesClass cls parent = false := by
        refine Bool.eq_false_iff.mpr fun hrefused => hk ?_
        rw [refusals, if_pos hrefused, he]
        exact List.mem_cons_self
      obtain ⟨parentId, hparent, hlink, -⟩ := hspec p (Option.some.inj hp)
      exact ⟨id, parentId, he ▸ hid, hparent, List.mem_append_left _ (hlink hmade)⟩
    · rename_i hne
      have hold : k ∉ refused := by
        intro hmem
        refine hk ?_
        rw [refusals]
        split
        · exact List.mem_cons_of_mem _ hmem
        · exact List.mem_filter.mpr ⟨hmem, bne_iff_ne.mpr hne⟩
      obtain ⟨id', parentId, hid', hparent, hmem⟩ := h.link k p hp hold
      exact ⟨id', parentId, hkeys.find? hid', hkeys.find? hparent, List.mem_append_right _ hmem⟩

end Console

/-! ## Sessions -/

namespace Session

open Console

variable {strict : Prop} {s s' : Session} {refused refused' : List (Option Name)}

/-- One step of a session, which keeps in mind for which classes the last link was refused. From
outside, classes are registered or left alone. -/
inductive Enrols (strict : Prop) : Session × List (Option Name) → Session × List (Option Name) → Prop
  | other {s s' : Session} {refused : List (Option Name)} (h : Step strict s s')
    (steady : s.process.next = none → s.console.Steady s'.console) :
    Enrols strict (s, refused) (s', refused)
  | registerClass {p : Process} {links : List (SpaceId × SpaceId)} {unrun : List BlockId}
    {refused : List (Option Name)} (idle : p.next = none) (cls parent : Text) :
    Enrols strict (⟨p, links, unrun⟩, refused)
      (⟨.rest (p.console.registerClass cls parent).2, p.console.classLink cls parent ++ links, unrun⟩,
        p.console.refusals cls parent refused)

/-- The points that such sessions come to. -/
def Enrolling (strict : Prop) (s : Session) (refused : List (Option Name)) : Prop :=
  ∃ buckets callDepth arena,
    Relation.ReflTransGen (Enrols strict) (start buckets callDepth arena, []) (s, refused)

/-- Such sessions come to a console with its commands and base classes. -/
theorem enrolling_create (buckets callDepth arena : Int) : ∃ links refused,
    Enrolling strict ⟨.rest (create buckets callDepth arena), links, []⟩ refused := by
  let P (c : Console) : Prop := ∃ links refused, Enrolling strict ⟨.rest c, links, []⟩ refused
  have hchange {c c' : Console} (hc : P c) (h : Changes 0 strict none c c') (hsteady : c.Steady c') :
      P c' := by
    obtain ⟨links, refused, b, d, a, hc⟩ := hc
    exact ⟨links, refused, b, d, a, hc.tail (.other (.change rfl h) fun _ => hsteady)⟩
  have hclass {c : Console} (hc : P c) (cls parent : Text) : P (c.registerClass cls parent).2 := by
    obtain ⟨links, refused, b, d, a, hc⟩ := hc
    exact ⟨_, _, b, d, a, hc.tail (.registerClass rfl cls parent)⟩
  have hblank : P (blank buckets callDepth arena) := ⟨[], [], buckets, callDepth, arena, .refl⟩
  have hglobals := hchange (hchange hblank (.obtain _ none none) (.obtain _ none none))
    (.registerAll _ ((blank buckets callDepth arena).obtain none none).1 Registration.globals)
    (.registerAll _ _ _)
  have hclasses := hclass (hclass (hclass (hclass (hclass (hclass hglobals "SimObject" [])
    "ScriptObject" "SimObject") "SimDataBlock" "SimObject") "SimSet" "SimObject")
    "SimGroup" "SimSet") "ScriptGroup" "SimGroup"
  rw [create]
  dsimp only
  exact hchange (hchange hclasses (.registerAll _ _ Registration.objects) (.registerAll _ _ _))
    (.registerAll _ _ Registration.sets) (.registerAll _ _ _)

theorem Step.links_subset (h : Step strict s s') : ∀ l ∈ s.links, l ∈ s'.links := by
  intro l hl
  cases h with
  | registerClass idle cls parent => exact List.mem_append_right _ hl
  | _ => exact hl

theorem Enrols.step {x y : Session × List (Option Name)} (h : Enrols strict x y) : Step strict x.1 y.1 := by
  cases h with
  | other h steady => exact h
  | registerClass idle cls parent => exact .registerClass idle cls parent

/-- Runs leave the classes alone, and nothing is done from outside while one is under way. -/
theorem Step.steady (h : Step strict s s') (hidle : s.process.next = none → s.console.Steady s'.console) :
    s.console.Steady s'.console := by
  cases hnext : s.process.next with
  | none => exact hidle hnext
  | some q =>
    cases h with
    | go next => exact Process.steady_next next
    | change idle | pushFrame idle | pushShared idle | popFrame idle | registerClass idle | load idle
    | exec idle | ask idle =>
      rw [idle] at hnext
      cases hnext

theorem Enrols.enrolled {x y : Session × List (Option Name)} (h : Enrols strict x y)
    (hx : x.1.console.Enrolled x.1.links x.2) : y.1.console.Enrolled y.1.links y.2 := by
  cases h with
  | other h steady => exact hx.steady (h.steady steady) h.links_subset
  | registerClass idle cls parent => exact hx.registerClass cls parent

theorem Enrolling.spec (h : Enrolling strict s refused) :
    s.Reachable strict ∧ s.console.Enrolled s.links refused := by
  obtain ⟨buckets, callDepth, arena, h⟩ := h
  have hall : ∀ x, Relation.ReflTransGen (Enrols strict) (start buckets callDepth arena, []) x →
      x.1.Reachable strict ∧ x.1.console.Enrolled x.1.links x.2 := by
    intro x hx
    induction hx with
    | refl =>
      refine ⟨reachable_start buckets callDepth arena, ?_, ?_⟩
      · rintro _ _ ⟨⟩
      · rintro _ _ ⟨⟩
    | tail _ hstep ih => exact ⟨ih.1.step hstep.step, hstep.enrolled ih.2⟩
  exact hall _ h

/-- Where no link was refused, a class inherits from the classes on record, and its namespace from
theirs in the same order. -/
theorem Enrolling.lineage (h : Enrolling strict s refused) {k : Name} {i : SpaceId} {ids : List SpaceId}
    (hids : s.console.spaces.Lineage i ids) (hi : s.console.spaces.find? (some k) none = some i)
    (hchain : ∀ j, Relation.ReflTransGen (fun a b => s.console.classes.parent? a = some b) k j →
      some j ∉ refused) :
    ∃ ks own, s.console.classes.Lineage k ks ∧
      ks.map (fun j => s.console.spaces.find? (some j) none) = own.map some ∧ own <+: ids := by
  obtain ⟨hreachable, henrolled⟩ := h.spec
  have hlinked : s.console.Linked s.links := (invariant_linked strict).holds hreachable
  have hparent (k p : Name) (i : SpaceId) (hp : s.console.classes.parent? k = some p)
      (hi : s.console.spaces.find? (some k) none = some i) (hk : some k ∉ refused) :
      ∃ j, s.console.spaces.find? (some p) none = some j ∧ (s.console.spaces.space i).parent = some j := by
    obtain ⟨id, parentId, hid, hfound, hmem⟩ :=
      henrolled.link (some k) p (Option.join_eq_some_iff.mp hp) hk
    cases hi.symm.trans hid
    exact ⟨parentId, hfound, hlinked.spaces.parent i parentId (List.mem_append_right _ hmem)⟩
  induction hids generalizing k with
  | @root i hroot =>
    cases hp : s.console.classes.parent? k with
    | none => exact ⟨[k], [i], .root hp, by simp [hi], List.prefix_rfl⟩
    | some p =>
      obtain ⟨j, -, hj⟩ := hparent k p i hp hi (hchain k .refl)
      rw [hroot] at hj
      cases hj
  | @child i j ids hchild hrest ih =>
    cases hp : s.console.classes.parent? k with
    | none => exact ⟨[k], [i], .root hp, by simp [hi], List.prefix_append [i] ids⟩
    | some p =>
      obtain ⟨j', hfound, hj'⟩ := hparent k p i hp hi (hchain k .refl)
      cases hchild.symm.trans hj'
      obtain ⟨ks, own, hks, hown, hprefix⟩ := ih hfound fun j hj => hchain j (.head hp hj)
      refine ⟨k :: ks, i :: own, .child hp hks, ?_, List.cons_prefix_cons.mpr ⟨rfl, hprefix⟩⟩
      rw [List.map_cons, hi, hown, List.map_cons]

/-- At every point of every session in which classes are registered again and again while scripts make
and delete objects:

* The namespace of a class has that of its parent on record as its parent, unless the last link of the
  class was refused.
* Where no link was refused, the classes that a class derives from are those whose namespaces its own
  namespace inherits from, in the same order. What objects ask for comes after the last of them.
* A link is refused if the namespace of the class has another parent already, or if that of the parent
  inherits from it. Then no namespace gets another parent; the parent is on record all the same. -/
theorem classes_agree (h : Enrolling strict s refused) :
    (∀ k p, s.console.classes.rows.lookup k = some (some p) → k ∉ refused →
      ∃ i j, s.console.spaces.find? k none = some i ∧ s.console.spaces.find? (some p) none = some j ∧
        (s.console.spaces.space i).parent = some j) ∧
    (∀ k i, s.console.spaces.find? (some k) none = some i →
      (∀ j, Relation.ReflTransGen (fun a b => s.console.classes.parent? a = some b) k j →
        some j ∉ refused) →
      ∃ (ks : List Name) (own rest : List SpaceId),
        (∀ a, s.console.classes.derives k (some a) = true ↔ a ∈ ks) ∧
        ks.map (fun j => s.console.spaces.find? (some j) none) = own.map some ∧
        s.console.spaces.Lineage i (own ++ rest)) ∧
    ∀ cls parent, s.process.next = none →
      let k := (s.console.classNames cls parent).1
      let c' := (s.console.registerClass cls parent).2
      c'.classes.rows.lookup k = some (s.console.classNames cls parent).2 ∧
      (s.console.refusesClass cls parent = true →
        ∀ i, (c'.spaces.space i).parent = (s.console.spaces.space i).parent) ∧
      ∀ p, (s.console.classNames cls parent).2 = some p → ∃ i j,
        c'.spaces.find? k none = some i ∧ c'.spaces.find? (some p) none = some j ∧
        (s.console.refusesClass cls parent = true ↔ s.console.spaces.Refuses i j) := by
  obtain ⟨hreachable, henrolled⟩ := h.spec
  have hlinked : s.console.Linked s.links := (invariant_linked strict).holds hreachable
  refine ⟨?_, ?_, ?_⟩
  · intro k p hp hk
    obtain ⟨id, parentId, hid, hparent, hmem⟩ := henrolled.link k p hp hk
    exact ⟨id, parentId, hid, hparent,
      hlinked.spaces.parent id parentId (List.mem_append_right _ hmem)⟩
  · intro k i hi hchain
    obtain ⟨ids, hids⟩ := hlinked.spaces.rooted.lineage i
    obtain ⟨ks, own, hks, hown, rest, rfl⟩ := h.lineage hids hi hchain
    refine ⟨ks, own, rest, fun a => hks.derivesWithin_iff (hks.length_le ?_), hown, hids⟩
    have hnodup : (own.map some).Nodup :=
      ((List.nodup_append.mp hids.nodup).1).map (Option.some_injective _)
    rw [← hown] at hnodup
    exact hnodup.of_map _
  · intro cls parent _
    dsimp only
    refine ⟨?_, fun hrefused => parent_registerClass hrefused, ?_⟩
    · rw [(registerClass_cases _ cls parent).1, Classes.lookup_register, if_pos rfl]
    · obtain ⟨-, i, hi, hspec⟩ := s.console.registerClass_spec cls parent
      intro p hp
      obtain ⟨j, hj, -, hrefuses⟩ := hspec p hp
      exact ⟨i, j, hi, hj, hrefuses hlinked.spaces.rooted⟩

/-- A class is registered again, with another parent: that one is on record, and the namespace of the
class has the parent it had. -/
theorem classes_agree_twice :
    let c := (start 0 0 0).console
    let c₁ := (c.registerClass "A" "B").2
    let c₂ := (c₁.registerClass "A" "C").2
    c₁.classes.rows.lookup (some ⟨1⟩) = some (some ⟨2⟩) ∧
    c₂.classes.rows.lookup (some ⟨1⟩) = some (some ⟨3⟩) ∧
    ∃ i j, c₁.spaces.find? (some ⟨1⟩) none = some i ∧ c₁.spaces.find? (some ⟨2⟩) none = some j ∧
      (c₁.spaces.space i).parent = some j ∧ (c₂.spaces.space i).parent = some j := by
  intro c c₁ c₂
  have hsecond : c₁.classNames "A" "C" = (some ⟨1⟩, some ⟨3⟩) := by decide +kernel
  have hlink : c.classLink "A" "B" = [(0, 1)] := by decide +kernel
  have hnone : c.refusals "A" "B" [] = [] := by
    rw [refusals, refusesClass, hlink, List.isEmpty_cons, Bool.and_false]
    rfl
  have hrecorded : c₁.classes.rows.lookup (some ⟨1⟩) = some (some ⟨2⟩) := by decide +kernel
  have hs : Enrolling False ⟨.rest c₁, c.classLink "A" "B" ++ [], []⟩ (c.refusals "A" "B" []) :=
    ⟨0, 0, 0, .single (.registerClass rfl "A" "B")⟩
  rw [hnone] at hs
  clear_value c₁
  obtain ⟨hagree, -, hcall⟩ := classes_agree hs
  obtain ⟨i, j, hi, hj, hparent⟩ := hagree (some ⟨1⟩) ⟨2⟩ hrecorded List.not_mem_nil
  obtain ⟨hlast, hsame, hrefuses⟩ := hcall "A" "C" rfl
  rw [show Console.classNames (Process.rest c₁).console "A" "C" = _ from hsecond] at hlast hrefuses
  obtain ⟨i', j', hi', hj', hiff⟩ := hrefuses ⟨3⟩ rfl
  have hkeys := (c₁.registerClass_spec "A" "C").1
  have hjne : j ≠ j' := Namespaces.find?_ne (hkeys.find? hj) hj' (by decide)
  obtain rfl : i = i' := Option.some.inj ((hkeys.find? hi).symm.trans hi')
  refine ⟨hrecorded, hlast, i, j, hi, hj, hparent, ?_⟩
  exact (hsame (hiff.mpr (.inl ⟨j, hparent, hjne⟩)) i).trans hparent

end Session

end ConsoleScript
