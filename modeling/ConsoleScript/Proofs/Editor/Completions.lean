import ConsoleScript.Editor.Session
import ConsoleScript.Proofs.Console.Names

/-!
# Completions and the order of documents

Completions whose labels differ in letter case only stand for one another, and the first one is
taken. Documents come before all else, so where two of them declare a function differently, their
order decides which declaration is shown. Nothing else depends on that order.
-/

namespace ConsoleScript

/-! ## Sorted lists that are cut off -/

/-- Two lists in the same order start alike if what either starts with occurs in the other. -/
theorem take_eq_take_of_mem {α : Type} {r : α → α → Prop} (hasymm : ∀ a b, r a b → ¬ r b a)
    {as bs : List α} (has : as.Pairwise r) (hbs : bs.Pairwise r) {n : Nat}
    (hab : ∀ x ∈ as.take n, x ∈ bs) (hba : ∀ x ∈ bs.take n, x ∈ as) : as.take n = bs.take n := by
  induction n generalizing as bs with
  | zero => rfl
  | succ n ih =>
    cases as with
    | nil =>
      cases bs with
      | nil => rfl
      | cons b bs => exact absurd (hba b (by simp)) List.not_mem_nil
    | cons a as =>
      cases bs with
      | nil => exact absurd (hab a (by simp)) List.not_mem_nil
      | cons b bs =>
        rw [List.pairwise_cons] at has hbs
        rw [List.take_succ_cons, List.forall_mem_cons] at hab hba
        have hhead : a = b := by
          obtain rfl | ha := List.mem_cons.mp hab.1
          · rfl
          · obtain rfl | hb := List.mem_cons.mp hba.1
            · rfl
            · exact absurd (has.1 b hb) (hasymm b a (hbs.1 a ha))
        subst hhead
        rw [List.take_succ_cons, List.take_succ_cons, ih has.2 hbs.2]
        · intro x hx
          refine (List.mem_cons.mp (hab.2 x hx)).resolve_left ?_
          rintro rfl
          have := has.1 x (List.mem_of_mem_take hx)
          exact hasymm x x this this
        · intro x hx
          refine (List.mem_cons.mp (hba.2 x hx)).resolve_left ?_
          rintro rfl
          have := hbs.1 x (List.mem_of_mem_take hx)
          exact hasymm x x this this

namespace Completion

/-! ## Choosing the first of several -/

/-- The label without its letter case. -/
def key (c : Completion) : Text := Text.lower c.label

/-- The first completion of a label, whatever its letter case. -/
def first? (key : Text) (all : List Completion) : Option Completion := all.find? (·.key == key)

def choose (chosen : List Completion) (c : Completion) : List Completion :=
  if chosen.any (·.key == c.key) then chosen else chosen ++ [c]

theorem select_eq (start : Text) (all : List Completion) :
    select start all =
      (all.filter (Text.startsWith ·.key (Text.lower start))).foldl choose [] := rfl

theorem mem_choose {chosen : List Completion} {a c : Completion} :
    c ∈ choose chosen a ↔ c ∈ chosen ∨ (∀ d ∈ chosen, d.key ≠ a.key) ∧ c = a := by
  rw [choose]
  split
  · rename_i h
    have hseen : ¬ ∀ d ∈ chosen, d.key ≠ a.key := by simpa using h
    simp only [hseen, false_and, or_false]
  · rename_i h
    have hnew : ∀ d ∈ chosen, d.key ≠ a.key := by simpa using h
    rw [List.mem_append, List.mem_singleton, and_iff_right hnew]

theorem forall_mem_choose {chosen : List Completion} {a : Completion} {k : Text} :
    (∀ d ∈ choose chosen a, d.key ≠ k) ↔ (∀ d ∈ chosen, d.key ≠ k) ∧ a.key ≠ k := by
  simp only [mem_choose]
  constructor
  · intro h
    refine ⟨fun d hd => h d (.inl hd), fun hkey => ?_⟩
    exact h a (.inr ⟨fun d hd hdkey => h d (.inl hd) (hdkey.trans hkey), rfl⟩) hkey
  · rintro ⟨h, hkey⟩ d (hd | ⟨-, rfl⟩)
    · exact h d hd
    · exact hkey

theorem mem_foldl_choose {all chosen : List Completion} {c : Completion} :
    c ∈ all.foldl choose chosen ↔
      c ∈ chosen ∨ (∀ d ∈ chosen, d.key ≠ c.key) ∧ first? c.key all = some c := by
  induction all generalizing chosen with
  | nil => simp [first?]
  | cons a all ih =>
    rw [List.foldl_cons, ih, mem_choose, forall_mem_choose, or_assoc]
    refine or_congr_right ?_
    by_cases hkey : a.key = c.key
    · have hfirst : first? c.key (a :: all) = some a := by simp [first?, hkey]
      simp only [hkey, hfirst, ne_eq, not_true, and_false, false_and, or_false, Option.some.injEq,
        eq_comm (a := c)]
    · have hfirst : first? c.key (a :: all) = first? c.key all := by simp [first?, hkey]
      have hne : c ≠ a := by
        rintro rfl
        exact hkey rfl
      simp only [hfirst, hne, hkey, and_false, false_or, not_false_eq_true, ne_eq, and_true]

/-- Labels that are chosen differ in more than their letter case. -/
theorem pairwise_foldl_choose {all chosen : List Completion}
    (h : chosen.Pairwise (·.key ≠ ·.key)) : (all.foldl choose chosen).Pairwise (·.key ≠ ·.key) := by
  induction all generalizing chosen with
  | nil => exact h
  | cons a all ih =>
    refine ih ?_
    rw [choose]
    split
    · exact h
    · rename_i hany
      have hnew : ∀ d ∈ chosen, d.key ≠ a.key := by simpa using hany
      simpa [List.pairwise_append, h] using hnew

/-- A completion is chosen if its label fits and it is the first one with that label. -/
theorem mem_select {start : Text} {all : List Completion} {c : Completion} :
    c ∈ select start all ↔
      Text.startsWith c.key (Text.lower start) = true ∧ first? c.key all = some c := by
  have hmem : c ∈ select start all ↔ (all.find? fun a =>
      Text.startsWith a.key (Text.lower start) && a.key == c.key) = some c := by
    rw [select_eq, mem_foldl_choose, first?, List.find?_filter]
    simp only [List.not_mem_nil, false_or, false_imp_iff, implies_true, true_and, Bool.decide_and,
      Bool.decide_eq_true]
  have hsame (h : Text.startsWith c.key (Text.lower start) = true) :
      (fun a : Completion => Text.startsWith a.key (Text.lower start) && a.key == c.key) =
        fun a => a.key == c.key := by
    funext a
    by_cases hkey : a.key = c.key
    · rw [hkey, h, Bool.true_and]
    · simp [hkey]
  rw [hmem, first?]
  constructor
  · intro h
    have hboth := List.find?_some h
    have hfits := (Bool.and_eq_true_iff.mp hboth).1
    exact ⟨hfits, by rwa [hsame hfits] at h⟩
  · rintro ⟨hfits, h⟩
    rwa [hsame hfits]

def sorted (chosen : List Completion) : List Completion :=
  chosen.mergeSort fun a b => Text.le a.label b.label

theorem pairwise_sorted_select (start : Text) (all : List Completion) :
    (sorted (select start all)).Pairwise (·.label < ·.label) := by
  have hkeys : (sorted (select start all)).Pairwise (·.key ≠ ·.key) := by
    have hsymm : ∀ {a b : Completion}, a.key ≠ b.key → b.key ≠ a.key := Ne.symm
    rw [sorted, (List.mergeSort_perm _ _).pairwise_iff hsymm, select_eq]
    exact pairwise_foldl_choose .nil
  have hlabels : (sorted (select start all)).Pairwise fun a b => Text.le a.label b.label = true :=
    @List.pairwise_mergeSort Completion (fun a b => Text.le a.label b.label)
      (fun _ _ _ => Text.le_trans) (fun _ _ => Text.le_total _ _) _
  refine (hlabels.and hkeys).imp fun {a b} h => Text.lt_of_le_of_ne h.1 fun heq => h.2 ?_
  rw [key, key, heq]

end Completion

/-! ## Documents in any order -/

def Document.completions (d : Document) : List Completion :=
  d.symbols.map fun sym => ⟨sym.qualified, .function, sym.signature⟩

namespace EditorSession

open Completion

variable {s : EditorSession} {docs : List (Text × Document)} {start : Text} {c : Completion}

/-- The session with other documents, or with its own in another order. -/
def arranged (s : EditorSession) (docs : List (Text × Document)) : EditorSession :=
  { s with documents := docs }

/-- What the console knows of classes and functions. -/
def known (s : EditorSession) : List Completion := (s.arranged []).callables

/-- Everything that may stand for a part of a word. -/
def offered (s : EditorSession) (start : Text) : List Completion :=
  match start with
  | 0x24 :: _ => s.globals
  | 0x25 :: _ => []
  | _ => s.callables

theorem candidates_eq (s : EditorSession) (start : Text) :
    s.candidates start = (sorted (select start (s.offered start))).take limit := rfl

theorem mem_candidates (h : c ∈ s.candidates start) : c ∈ select start (s.offered start) := by
  rw [candidates_eq] at h
  exact (List.mergeSort_perm _ _).mem_iff.mp (List.mem_of_mem_take h)

/-- Documents count for words without a sigil, and only functions are declared in them. -/
theorem offered_cases (s : EditorSession) (start : Text) :
    (∀ docs, (s.arranged docs).offered start = s.offered start) ∧
        (∀ c ∈ s.offered start, c.kind ≠ .function) ∨
      ∀ docs, (s.arranged docs).offered start = (s.arranged docs).callables := by
  unfold offered
  split
  · refine .inl ⟨fun _ => rfl, ?_⟩
    intro c hc
    obtain ⟨v, -, rfl⟩ := List.mem_map.mp hc
    exact CompletionKind.noConfusion
  · exact .inl ⟨fun _ => rfl, by simp⟩
  · exact .inr fun _ => rfl

theorem callables_arranged (s : EditorSession) (docs : List (Text × Document)) :
    (s.arranged docs).callables = (docs.flatMap fun d => d.2.completions) ++ s.known := by
  simp only [callables, known, arranged, Document.completions, List.flatMap_nil, List.nil_append,
    List.append_assoc]

/-- The first document that declares a function decides, and what the console knows comes last. -/
theorem first?_callables (s : EditorSession) (docs : List (Text × Document)) (k : Text) :
    first? k (s.arranged docs).callables =
      (docs.findSome? fun d => first? k d.2.completions).or (first? k s.known) := by
  rw [callables_arranged, first?, List.find?_append, List.find?_flatMap]
  rfl

/-- Every document that declares a function with the label of the completion declares it so. -/
def Agreed (s : EditorSession) (c : Completion) : Prop :=
  ∀ d ∈ s.documents, ∀ c', first? c.key d.2.completions = some c' → c' = c

theorem first?_eq_of_agreed (hdocs : docs.Perm s.documents) {docs' : List (Text × Document)}
    (hdocs' : docs'.Perm s.documents) (hagreed : c.kind = .function → s.Agreed c)
    (h : first? c.key (s.arranged docs).callables = some c) :
    first? c.key (s.arranged docs').callables = some c := by
  rw [first?_callables] at h ⊢
  cases hfirst : docs.findSome? fun d => first? c.key d.2.completions with
  | none =>
    have hnone : (docs'.findSome? fun d => first? c.key d.2.completions) = none := by
      rw [List.findSome?_eq_none_iff] at hfirst ⊢
      exact fun d hd => hfirst d (hdocs.mem_iff.mpr (hdocs'.mem_iff.mp hd))
    rw [hfirst] at h
    rwa [hnone]
  | some c' =>
    rw [hfirst] at h
    obtain rfl : c' = c := Option.some.inj h
    obtain ⟨d, hd, hdeclares⟩ := List.exists_of_findSome?_eq_some hfirst
    obtain ⟨sym, -, hsym⟩ := List.mem_map.mp (List.mem_of_find?_eq_some hdeclares)
    have hsame := hagreed (by rw [← hsym])
    cases hfirst' : docs'.findSome? fun d => first? c'.key d.2.completions with
    | none =>
      have hnone := List.findSome?_eq_none_iff.mp hfirst' d
        (hdocs'.mem_iff.mpr (hdocs.mem_iff.mp hd))
      rw [hdeclares] at hnone
      cases hnone
    | some c'' =>
      obtain ⟨d', hd', hdeclares'⟩ := List.exists_of_findSome?_eq_some hfirst'
      rw [hsame d' (hdocs'.mem_iff.mp hd') c'' hdeclares', Option.some_or]

theorem mem_select_arranged (hdocs : docs.Perm s.documents) {docs' : List (Text × Document)}
    (hdocs' : docs'.Perm s.documents) (hagreed : c.kind = .function → s.Agreed c)
    (h : c ∈ select start ((s.arranged docs).offered start)) :
    c ∈ select start ((s.arranged docs').offered start) := by
  obtain ⟨hsame, -⟩ | hall := s.offered_cases start
  · rwa [hsame] at h ⊢
  · rw [hall, mem_select] at h ⊢
    exact ⟨h.1, first?_eq_of_agreed hdocs hdocs' hagreed h.2⟩

/-- The completions of a word are the same in any order of the documents if and only if in no order
a function is shown that two documents declare differently. -/
theorem candidates_arranged_iff (s : EditorSession) (start : Text) :
    (∀ docs, docs.Perm s.documents → (s.arranged docs).candidates start = s.candidates start) ↔
      ∀ docs, docs.Perm s.documents → ∀ c ∈ (s.arranged docs).candidates start,
        c.kind = .function → s.Agreed c := by
  constructor
  · intro hsame docs hdocs c hc hkind d hd c' hdeclares
    obtain ⟨before, after, hsplit⟩ := List.append_of_mem hd
    have hfront : (d :: (before ++ after)).Perm s.documents := by
      rw [hsplit]
      exact List.perm_middle.symm
    rw [hsame docs hdocs, ← hsame _ hfront] at hc
    obtain ⟨-, hkinds⟩ | hall := s.offered_cases start
    · rw [hsame _ hfront] at hc
      have hmem := (mem_select.mp (mem_candidates hc)).2
      exact absurd hkind (hkinds c (List.mem_of_find?_eq_some hmem))
    · have hfirst := (mem_select.mp (mem_candidates hc)).2
      rw [hall, first?_callables, List.findSome?_cons, hdeclares, Option.some_or] at hfirst
      exact Option.some.inj hfirst
  · intro hagreed docs hdocs
    have hown : s.arranged s.documents = s := rfl
    rw [← hown, candidates_eq, candidates_eq]
    refine take_eq_take_of_mem (fun _ _ => List.lt_asymm) (pairwise_sorted_select _ _)
      (pairwise_sorted_select _ _) ?_ ?_
    · intro c hc
      have hmem := mem_select_arranged hdocs (.refl _) (hagreed docs hdocs c hc) (mem_candidates hc)
      exact (List.mergeSort_perm _ _).mem_iff.mpr hmem
    · intro c hc
      have hmem :=
        mem_select_arranged (.refl _) hdocs (hagreed _ (.refl _) c hc) (mem_candidates hc)
      exact (List.mergeSort_perm _ _).mem_iff.mpr hmem

/-- Two documents that spell a function differently. -/
theorem candidates_two_spellings : ∃ (s : EditorSession) (c : Completion),
    c ∈ s.candidates "fo" ∧ ¬ s.Agreed c ∧
      ¬ ∀ docs, docs.Perm s.documents → (s.arranged docs).candidates "fo" = s.candidates "fo" := by
  let console : Console := { scopes := { initial := 15 }, maxCallDepth := 64 }
  let first := (EditorSession.mk console [] false).update "a.cs" "function foo() {}"
  let s := (first.2.update "b.cs" "function Foo(%x) {}").2
  have hshown : (⟨"foo", .function, "function foo()"⟩ : Completion) ∈ s.candidates "fo" := by
    decide +kernel
  have hnot : ¬ s.Agreed ⟨"foo", .function, "function foo()"⟩ := by
    intro h
    obtain ⟨d, hd, hdeclares⟩ : ∃ d ∈ s.documents,
        first? (Text.lower "foo") d.2.completions =
          some ⟨"Foo", .function, "function Foo(%x)"⟩ := by
      decide +kernel
    have hsame := h d hd _ hdeclares
    exact absurd hsame (by decide)
  refine ⟨s, _, hshown, hnot, fun hsame => hnot ?_⟩
  exact (candidates_arranged_iff s "fo").mp hsame _ (.refl _) _ hshown rfl

end EditorSession
end ConsoleScript
