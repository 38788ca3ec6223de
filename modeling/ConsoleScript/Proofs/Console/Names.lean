import ConsoleScript.Console.Name
import Mathlib.Data.List.Nodup

/-!
# Names and their order

Two names never have the same spelling up to letter case, and a name keeps its spelling when others
are added. So the names of variables are told apart by their spellings in lower case, in which they
are listed.
-/

namespace ConsoleScript

namespace Text

variable {a b c : Text}

theorem le_iff : le a b = true ↔ a ≤ b := by
  rw [← List.not_lt]
  fun_induction le a b with
  | case1 b => simp
  | case2 x s => simp
  | case3 x s y t hlt =>
    have hgt : ¬ y < x := UInt8.lt_asymm hlt
    have hne : y ≠ x := (UInt8.ne_of_lt hlt).symm
    simp [List.cons_lt_cons_iff, hgt, hne]
  | case4 x s y t _ hlt => simp [List.cons_lt_cons_iff, hlt]
  | case5 x s y t hlt hgt ih =>
    obtain rfl : x = y := UInt8.le_antisymm (UInt8.not_lt.mp hgt) (UInt8.not_lt.mp hlt)
    simp [ih]

theorem le_trans (h : le a b = true) (h' : le b c = true) : le a c = true := by
  rw [le_iff] at h h' ⊢
  exact List.le_trans h h'

theorem le_antisymm (h : le a b = true) (h' : le b a = true) : a = b := by
  rw [le_iff] at h h'
  exact List.le_antisymm h h'

theorem le_total (a b : Text) : (le a b || le b a) = true := by
  rw [Bool.or_eq_true, le_iff, le_iff]
  exact List.le_total a b

theorem lt_of_le_of_ne (h : le a b = true) (hne : a ≠ b) : a < b := by
  rw [le_iff] at h
  rcases List.le_iff_lt_or_eq.mp h with hlt | he
  · exact hlt
  · exact absurd he hne

end Text

namespace NameTable

variable {t t' : NameTable} {n m : Name} {s s' : Text}

def Spells (t : NameTable) (n : Name) (s : Text) : Prop :=
  0 < n.id ∧ t.spellings[n.id - 1]? = some s

def Consistent (t : NameTable) : Prop :=
  ∀ key n, t.byKey[key]? = some n ↔ ∃ s, t.Spells n s ∧ Text.lower s = key

def Knows (t : NameTable) (n : Name) : Prop := ∃ s, t.Spells n s

theorem consistent_empty : Consistent {} := by
  intro key n
  simp [Spells]

theorem Spells.text_eq (h : t.Spells n s) : t.text n = s := by
  rw [text, h.2]
  rfl

theorem Consistent.eq_of_lower (h : t.Consistent) (hn : t.Knows n) (hm : t.Knows m)
    (hlower : Text.lower (t.text n) = Text.lower (t.text m)) : n = m := by
  obtain ⟨s, hs⟩ := hn
  obtain ⟨s', hs'⟩ := hm
  rw [hs.text_eq, hs'.text_eq] at hlower
  have hkey := (h _ n).mpr ⟨s, hs, hlower⟩
  rw [(h _ m).mpr ⟨s', hs', rfl⟩] at hkey
  exact (Option.some.inj hkey).symm

/-- Interning finds the name of a spelling, or gives it the next number. -/
theorem intern_cases (t : NameTable) (s : Text) :
    s = [] ∧ t.intern s = (none, t) ∨
    (∃ n, t.byKey[Text.lower s]? = some n ∧ t.intern s = (some n, t)) ∨
    t.byKey[Text.lower s]? = none ∧ t.intern s = (some ⟨t.spellings.size + 1⟩,
      ⟨t.spellings.push s, t.byKey.insert (Text.lower s) ⟨t.spellings.size + 1⟩⟩) := by
  unfold intern
  split
  · next hempty => exact .inl ⟨List.isEmpty_iff.mp hempty, rfl⟩
  · dsimp only
    split
    · next n hfound => exact .inr (.inl ⟨n, hfound, rfl⟩)
    · next hnew => exact .inr (.inr ⟨hnew, rfl⟩)

theorem Spells.push (h : t.Spells n s) (byKey : Std.TreeMap Text Name) (s' : Text) :
    Spells ⟨t.spellings.push s', byKey⟩ n s := by
  have hlt := (Array.getElem?_eq_some_iff.mp h.2).1
  refine ⟨h.1, ?_⟩
  show (t.spellings.push s')[n.id - 1]? = some s
  rw [Array.getElem?_push, if_neg (Nat.ne_of_lt hlt), h.2]

theorem spells_push_iff (byKey : Std.TreeMap Text Name) (s' : Text) :
    Spells ⟨t.spellings.push s', byKey⟩ n s ↔
      t.Spells n s ∨ n = ⟨t.spellings.size + 1⟩ ∧ s = s' := by
  constructor
  · rintro ⟨hpos, hspelled⟩
    have hread : (t.spellings.push s')[n.id - 1]? = some s := hspelled
    rw [Array.getElem?_push] at hread
    split at hread
    · next hlast =>
      refine .inr ⟨?_, (Option.some.inj hread).symm⟩
      obtain ⟨k⟩ := n
      simp only [Name.mk.injEq]
      dsimp only at hpos hlast
      omega
    · exact .inl ⟨hpos, hread⟩
  · rintro (h | ⟨rfl, rfl⟩)
    · exact h.push byKey s'
    · exact ⟨Nat.succ_pos _, Array.getElem?_push_size⟩

theorem Consistent.intern (h : t.Consistent) (s : Text) : (t.intern s).2.Consistent := by
  rcases intern_cases t s with ⟨-, he⟩ | ⟨n, -, he⟩ | ⟨hnew, he⟩
  · rwa [he]
  · rwa [he]
  · rw [he]
    intro key m
    show (t.byKey.insert (Text.lower s) ⟨t.spellings.size + 1⟩)[key]? = some m ↔ _
    simp only [Std.TreeMap.getElem?_insert, Std.compare_eq_iff_eq, spells_push_iff]
    by_cases hkey : Text.lower s = key
    · subst hkey
      rw [if_pos rfl]
      constructor
      · intro hm
        exact ⟨s, .inr ⟨(Option.some.inj hm).symm, rfl⟩, rfl⟩
      · rintro ⟨s', hs' | ⟨rfl, -⟩, hlower⟩
        · rw [(h _ m).mpr ⟨s', hs', hlower⟩] at hnew
          cases hnew
        · rfl
    · rw [if_neg hkey, h key m]
      constructor
      · rintro ⟨s', hs', hlower⟩
        exact ⟨s', .inl hs', hlower⟩
      · rintro ⟨s', hs' | ⟨-, rfl⟩, hlower⟩
        · exact ⟨s', hs', hlower⟩
        · exact absurd hlower hkey

theorem Spells.intern (h : t.Spells n s) (s' : Text) : (t.intern s').2.Spells n s := by
  rcases intern_cases t s' with ⟨-, he⟩ | ⟨m, -, he⟩ | ⟨-, he⟩
  · rwa [he]
  · rwa [he]
  · rw [he]
    exact h.push _ s'

theorem Knows.intern (h : t.Knows n) (s : Text) : (t.intern s).2.Knows n := by
  obtain ⟨spelling, hs⟩ := h
  exact ⟨spelling, hs.intern s⟩

theorem Consistent.knows_intern (h : t.Consistent) (hintern : t.intern s = (some n, t')) :
    t'.Knows n := by
  rcases intern_cases t s with ⟨-, he⟩ | ⟨m, hfound, he⟩ | ⟨-, he⟩
  · rw [he] at hintern
    cases hintern
  · rw [he] at hintern
    cases hintern
    obtain ⟨spelling, hs, -⟩ := (h _ n).mp hfound
    exact ⟨spelling, hs⟩
  · rw [he] at hintern
    cases hintern
    exact ⟨s, (spells_push_iff _ s).mpr (.inr ⟨rfl, rfl⟩)⟩

end NameTable
end ConsoleScript
