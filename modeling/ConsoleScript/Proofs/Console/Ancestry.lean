import ConsoleScript.Proofs.Console.Classes

/-!
# What a class inherits from

Nothing says that the parent of a class is registered, or that a chain of parents ends: a class may
be registered again with another parent, which inherits from it. The search for an ancestor is cut
off after as many steps as there are classes on record. That is enough for every ancestor, the last
unregistered one of a chain through all classes as well, since a way up that comes back to a class
can be cut short. Something can be registered without a name, with a parent; it is nobody's ancestor,
and no way leads through it.
-/

namespace ConsoleScript

namespace Classes

variable {c : Classes} {k p a j : Name} {ks : List Name}

/-- A way from a class up to `a`, by the classes that are left on it. -/
inductive Ascent (c : Classes) (a : Name) : Name → List Name → Prop
  | here : Ascent c a a []
  | up {k p : Name} {ks : List Name} (h : c.parent? k = some p) (rest : Ascent c a p ks) :
    Ascent c a k (k :: ks)

namespace Ascent

theorem exists_of_reachable (h : Relation.ReflTransGen (fun x y => c.parent? x = some y) k a) :
    ∃ ks, Ascent c a k ks := by
  induction h using Relation.ReflTransGen.head_induction_on with
  | refl => exact ⟨[], .here⟩
  | head hparent _ ih =>
    obtain ⟨ks, hks⟩ := ih
    exact ⟨_, .up hparent hks⟩

theorem of_mem (h : Ascent c a k ks) (hj : j ∈ ks) : ∃ js, js <:+ ks ∧ Ascent c a j js := by
  induction h with
  | here => cases hj
  | up hparent hrest ih =>
    obtain rfl | hj := List.mem_cons.mp hj
    · exact ⟨_, List.suffix_rfl, .up hparent hrest⟩
    · obtain ⟨js, hsuffix, hjs⟩ := ih hj
      exact ⟨js, hsuffix.trans (List.suffix_cons _ _), hjs⟩

theorem exists_nodup (h : Ascent c a k ks) : ∃ js, js.Nodup ∧ Ascent c a k js := by
  induction h with
  | here => exact ⟨[], List.nodup_nil, .here⟩
  | @up k p ks hparent _ ih =>
    obtain ⟨js, hnodup, hjs⟩ := ih
    by_cases hk : k ∈ js
    · obtain ⟨is, hsuffix, his⟩ := hjs.of_mem hk
      exact ⟨is, hnodup.sublist hsuffix.sublist, his⟩
    · exact ⟨k :: js, List.nodup_cons.mpr ⟨hk, hnodup⟩, .up hparent hjs⟩

theorem registered (h : Ascent c a k ks) : ∀ j ∈ ks, some j ∈ c.rows.map Prod.fst := by
  induction h with
  | here => simp
  | up hparent _ ih => exact List.forall_mem_cons.mpr ⟨mem_rows_of_parent? hparent, ih⟩

theorem derivesWithin (h : Ascent c a k ks) {fuel : Nat} (hfuel : ks.length ≤ fuel) :
    c.derivesWithin (some a) fuel k = true := by
  induction h generalizing fuel with
  | here => cases fuel <;> simp [Classes.derivesWithin]
  | up hparent _ ih =>
    rw [List.length_cons] at hfuel
    obtain ⟨fuel, rfl⟩ : ∃ m, fuel = m + 1 := ⟨fuel - 1, by omega⟩
    rw [Classes.derivesWithin, hparent, Bool.or_eq_true]
    exact .inr (ih (by omega))

end Ascent

theorem reachable_of_derivesWithin {fuel : Nat} (h : c.derivesWithin (some a) fuel k = true) :
    Relation.ReflTransGen (fun x y => c.parent? x = some y) k a := by
  induction fuel generalizing k with
  | zero =>
    rw [derivesWithin, beq_iff_eq, Option.some_inj] at h
    exact h ▸ .refl
  | succ fuel ih =>
    rw [derivesWithin, Bool.or_eq_true, beq_iff_eq, Option.some_inj] at h
    obtain rfl | h := h
    · exact .refl
    · cases hparent : c.parent? k with
      | none =>
        rw [hparent, Classes.derivesWithin] at h
        cases h
      | some p =>
        rw [hparent] at h
        exact .head hparent (ih h)

/-- A class derives from itself and from what its parents lead to, whatever the parents are. -/
theorem derives_iff (c : Classes) (k a : Name) : c.derives (some k) (some a) = true ↔
    Relation.ReflTransGen (fun x y => c.parent? x = some y) k a := by
  refine ⟨reachable_of_derivesWithin, fun h => ?_⟩
  obtain ⟨ks, hks⟩ := Ascent.exists_of_reachable h
  obtain ⟨js, hnodup, hjs⟩ := hks.exists_nodup
  exact hjs.derivesWithin (length_le_of_registered hnodup hjs.registered)

theorem derivesWithin_none (c : Classes) (fuel : Nat) (k : Option Name) :
    c.derivesWithin none fuel k = false := by
  induction fuel generalizing k with
  | zero => cases k <;> rfl
  | succ fuel ih =>
    cases k with
    | none => rfl
    | some k =>
      rw [derivesWithin, ih]
      rfl

/-! ## Registries -/

/-- What is on record after classes were registered one after the other, each with its parent. -/
def registered (calls : List (Option Name × Option Name)) : Classes :=
  calls.foldl (fun c (k, p) => c.register k p) {}

theorem registered_concat (calls : List (Option Name × Option Name)) (r : Option Name × Option Name) :
    registered (calls ++ [r]) = (registered calls).register r.1 r.2 := by
  rw [registered, List.foldl_append]
  rfl

theorem lookup_registered (calls : List (Option Name × Option Name)) (k : Option Name) :
    (registered calls).rows.lookup k = calls.reverse.lookup k := by
  induction calls using List.reverseRecOn with
  | nil => rfl
  | append_singleton calls r ih =>
    rw [registered_concat, lookup_register, List.reverse_concat, ih]
    by_cases hk : k = r.1
    · rw [if_pos hk, List.lookup_cons, beq_iff_eq.mpr hk]
    · rw [if_neg hk, List.lookup_cons, beq_eq_false_iff_ne.mpr hk]

/-- Was `p` the parent of `k` when `k` was registered last? Both can be without a name. -/
def LastParent (calls : List (Option Name × Option Name)) (k p : Option Name) : Prop :=
  calls.reverse.lookup k = some p

theorem parent?_registered (calls : List (Option Name × Option Name)) (x y : Name) :
    (registered calls).parent? x = some y ↔ LastParent calls x y := by
  rw [parent?, lookup_registered, Option.join_eq_some_iff, LastParent]

/-- A way to a name that does not go on from where there is no name is one through names. -/
theorem reachable_iff {R : Option Name → Option Name → Prop} {k : Option Name} {a : Name} :
    Relation.ReflTransGen (fun x y => x ≠ none ∧ R x y) k (some a) ↔
      ∃ j, k = some j ∧ Relation.ReflTransGen (fun x y : Name => R x y) j a := by
  constructor
  · intro h
    induction h using Relation.ReflTransGen.head_induction_on with
    | refl => exact ⟨a, rfl, .refl⟩
    | @head x y hstep _ ih =>
      obtain ⟨hx, hparent⟩ := hstep
      obtain ⟨i, rfl⟩ := Option.ne_none_iff_exists'.mp hx
      obtain ⟨j, rfl, hj⟩ := ih
      exact ⟨i, rfl, .head hparent hj⟩
  · rintro ⟨j, rfl, hj⟩
    exact hj.lift some fun x y hparent => ⟨Option.some_ne_none x, hparent⟩

/-- Whatever was registered, with whatever parents, once or again and again, with and without names:
the search for an ancestor comes to its end, and it finds exactly the classes that some number of
steps leads to, each from a class with a name to the parent it was last registered with. -/
theorem derives_iff_reachable (calls : List (Option Name × Option Name)) (k a : Option Name) :
    (registered calls).derives k a = true ↔ a ≠ none ∧
      Relation.ReflTransGen (fun x y => x ≠ none ∧ LastParent calls x y) k a := by
  cases a with
  | none => simp [derives, derivesWithin_none]
  | some a =>
    rw [reachable_iff, and_iff_right (Option.some_ne_none a)]
    cases k with
    | none => simp [derives, derivesWithin]
    | some k => simp only [derives_iff, parent?_registered, Option.some_inj, exists_eq_left']

/-- A class without a parent, and something without a name that has one: the parents on record lead
from the one to the other and on, but the search ends where there is no name. -/
theorem derives_iff_reachable_nameless :
    let calls : List (Option Name × Option Name) := [(some ⟨1⟩, none), (none, some ⟨2⟩)]
    Relation.ReflTransGen (LastParent calls) (some ⟨1⟩) (some ⟨2⟩) ∧
      (registered calls).derives (some ⟨1⟩) (some ⟨2⟩) = false := by
  have hfirst : LastParent [(some ⟨1⟩, none), (none, some ⟨2⟩)] (some ⟨1⟩) none := by
    rw [LastParent]
    decide
  have hsecond : LastParent [(some ⟨1⟩, none), (none, some ⟨2⟩)] none (some ⟨2⟩) := by
    rw [LastParent]
    decide
  exact ⟨.head hfirst (.single hsecond), by decide⟩

end Classes

namespace Session

variable {strict : Prop} {s : Session} {refused : List (Option Name)}

theorem Enrolling.exists_registered (h : Enrolling strict s refused) :
    ∃ calls, s.console.classes = Classes.registered calls := by
  obtain ⟨buckets, callDepth, arena, h⟩ := h
  have hall : ∀ x, Relation.ReflTransGen (Enrols strict) (start buckets callDepth arena, []) x →
      ∃ calls, x.1.console.classes = Classes.registered calls := by
    intro x hx
    induction hx with
    | refl => exact ⟨[], rfl⟩
    | tail _ hstep ih =>
      obtain ⟨calls, hcalls⟩ := ih
      cases hstep with
      | other hstep steady => exact ⟨calls, (hstep.steady steady).classes.trans hcalls⟩
      | @registerClass p _ _ _ _ cls parent =>
        refine ⟨calls ++ [p.console.classNames cls parent], ?_⟩
        rw [Classes.registered_concat, ← hcalls]
        exact (p.console.registerClass_cases cls parent).1
  exact hall _ h

/-- At every point of every session a class derives from what the parents of the last registrations
lead to. -/
theorem Enrolling.derives_iff (h : Enrolling strict s refused) : ∃ calls,
    s.console.classes = Classes.registered calls ∧ ∀ k a : Name,
      s.console.classes.derives k (some a) = true ↔
        Relation.ReflTransGen (fun x y : Name => Classes.LastParent calls x y) k a := by
  obtain ⟨calls, hcalls⟩ := h.exists_registered
  refine ⟨calls, hcalls, fun k a => ?_⟩
  simp only [hcalls, Classes.derives_iff, Classes.parent?_registered]

end Session

end ConsoleScript
