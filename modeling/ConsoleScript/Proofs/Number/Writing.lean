import ConsoleScript.Proofs.Number.Numerals
import ConsoleScript.Proofs.Number.Rounding
import Mathlib.Data.List.TakeWhile
import Mathlib.Data.Nat.Cast.Order.Field

/-!
# Decimal writing

Six significant digits are the nearest ones to the number that is written, and a number near
enough to a decimal of six digits is written with exactly those. The text that is laid out from
them is a numeral with the value of the digits.
-/

namespace ConsoleScript

namespace Decimal

/-! ## Rounding to a whole number -/

theorem abs_sub_roundDiv_le (num : Nat) {den : Nat} (hden : 0 < den) :
    |(num / den : ℚ) - roundDiv num den| ≤ 1 / 2 := by
  have hden' : (0 : ℚ) < den := by exact_mod_cast hden
  have hvalue : (num / den : ℚ) = (num / den : Nat) + (num % den : Nat) / (den : ℚ) := by
    rw [div_eq_iff hden'.ne', add_mul, div_mul_cancel₀ _ hden'.ne']
    exact_mod_cast (Nat.div_add_mod' num den).symm
  have hhalf (k : Nat) : (k : ℚ) / den ≤ 1 / 2 ↔ 2 * k ≤ den := by
    rw [div_le_div_iff₀ hden' two_pos]
    constructor
    · intro h
      exact_mod_cast (by linarith : (2 * k : ℚ) ≤ den)
    · intro h
      have : (2 * k : ℚ) ≤ den := by exact_mod_cast h
      linarith
  have hle := (hhalf (num % den)).mpr
  have hge : den ≤ 2 * (num % den) → 1 / 2 ≤ ((num % den : Nat) : ℚ) / den := by
    intro h
    rw [div_le_div_iff₀ two_pos hden']
    have : (den : ℚ) ≤ 2 * (num % den : Nat) := by exact_mod_cast h
    linarith
  have hnonneg : 0 ≤ ((num % den : Nat) : ℚ) / den := by positivity
  have hlt : ((num % den : Nat) : ℚ) / den < 1 := by
    rw [div_lt_one hden']
    exact_mod_cast Nat.mod_lt num hden
  rw [hvalue, roundDiv, abs_le]
  split
  · have := hle (by omega)
    constructor <;> linarith
  · split
    · have := hge (by omega)
      push_cast
      constructor <;> linarith
    · have h1 := hle (by omega)
      have h2 := hge (by omega)
      split <;> push_cast <;> constructor <;> linarith

theorem roundDiv_eq {num den n : Nat} (hden : 0 < den) (h : |(num / den : ℚ) - n| < 1 / 2) :
    roundDiv num den = n := by
  obtain ⟨h1, h2⟩ := abs_le.mp (abs_sub_roundDiv_le num hden)
  obtain ⟨h3, h4⟩ := abs_lt.mp h
  have hlt : (roundDiv num den : ℚ) < n + 1 := by linarith
  have hgt : (n : ℚ) < roundDiv num den + 1 := by linarith
  have hlt : roundDiv num den < n + 1 := by exact_mod_cast hlt
  have hgt : n < roundDiv num den + 1 := by exact_mod_cast hgt
  omega

theorem roundDiv_eq_of_near {num den n : Nat} {x u : ℚ} (hden : 0 < den) (hu : 0 < u)
    (hvalue : (num / den : ℚ) = x / u) (h : |x - n * u| < u / 2) : roundDiv num den = n := by
  have heq : x / u - n = (x - n * u) / u := by rw [sub_div, mul_div_cancel_right₀ _ hu.ne']
  refine roundDiv_eq hden ?_
  rw [hvalue, heq, abs_div, abs_of_pos hu, div_lt_iff₀ hu]
  linarith

/-! ## The position of the point -/

section

variable {num den : Nat}

/-- The greatest power of ten that is not above `x` stands in front of the point. -/
def PointAt (x : ℚ) (p : Int) : Prop := (10 : ℚ) ^ (p - 1) ≤ x ∧ x < 10 ^ p

theorem PointAt.eq {x : ℚ} {p p' : Int} (h : PointAt x p) (h' : PointAt x p') : p = p' := by
  have h1 := lt_of_le_of_lt h.1 h'.2
  have h2 := lt_of_le_of_lt h'.1 h.2
  rw [zpow_lt_zpow_iff_right₀ (by norm_num)] at h1 h2
  omega

private theorem pointAt_large (hden : 0 < den) (h : den ≤ num) :
    PointAt (num / den) (Nat.toDigits 10 (num / den)).length := by
  have hden' : (0 : ℚ) < den := by exact_mod_cast hden
  have hpos : 0 < num / den := Nat.div_pos h hden
  obtain ⟨hle, hlt⟩ := Number.length_toDigits_bounds hpos
  constructor
  · exact hle.trans Nat.cast_div_le
  · rw [zpow_natCast] at hlt ⊢
    have hlt : num / den + 1 ≤ 10 ^ (Nat.toDigits 10 (num / den)).length := by exact_mod_cast hlt
    rw [div_lt_iff₀ hden']
    have hmul := Nat.lt_mul_of_div_lt (Nat.lt_of_succ_le hlt) hden
    exact_mod_cast hmul

private theorem pointAt_small (hden : 0 < den) (h : num < den) {k : Nat}
    (hk : den ≤ num * 10 ^ k) (hbefore : ∀ j < k, ¬ den ≤ num * 10 ^ j) :
    PointAt (num / den) (1 - Int.ofNat k) := by
  have hden' : (0 : ℚ) < den := by exact_mod_cast hden
  constructor
  · rw [le_div_iff₀ hden', Int.ofNat_eq_natCast, sub_sub_cancel_left, zpow_neg, zpow_natCast,
      inv_mul_le_iff₀ (by positivity)]
    exact_mod_cast (Nat.mul_comm _ _ ▸ hk)
  · cases k with
    | zero =>
      rw [pow_zero, Nat.mul_one] at hk
      omega
    | succ k =>
      have hlt := not_le.mp (hbefore k (Nat.lt_succ_self k))
      have hexp : 1 - Int.ofNat (k + 1) = -(k : Int) := by simp
      rw [hexp, div_lt_iff₀ hden', zpow_neg, zpow_natCast, lt_inv_mul_iff₀ (by positivity)]
      exact_mod_cast (Nat.mul_comm _ _ ▸ hlt)

theorem pointAt_pointPosition (hden : 0 < den) (hle : (10 : ℚ) ^ (-(399 : Nat) : Int) ≤ num / den) :
    PointAt (num / den) (pointPosition num den) := by
  rw [pointPosition]
  split
  · exact pointAt_large hden ‹_›
  · split
    · rename_i hlt k hfind
      obtain ⟨hk, i, hi, hget, hbefore⟩ := List.find?_eq_some_iff_getElem.mp hfind
      rw [List.getElem_range] at hget
      subst hget
      apply pointAt_small hden (by omega) (of_decide_eq_true hk)
      intro j hj
      simpa using hbefore j hj
    · rename_i hlt hfind
      have hnone := List.find?_eq_none.mp hfind 399 (by simp)
      generalize 399 = k at hle hnone
      have hden' : (0 : ℚ) < den := by exact_mod_cast hden
      rw [le_div_iff₀ hden', zpow_neg, zpow_natCast, inv_mul_le_iff₀ (by positivity)] at hle
      refine absurd ?_ hnone
      rw [decide_eq_true_eq, Nat.mul_comm]
      exact_mod_cast hle

theorem pointPosition_eq (hden : 0 < den) {p : Int} (hp : -398 ≤ p) (h : PointAt (num / den) p) :
    pointPosition num den = p := by
  apply PointAt.eq (pointAt_pointPosition hden ?_) h
  apply le_trans _ h.1
  apply zpow_le_zpow_right₀ (by norm_num)
  omega

/-! ## Significant digits -/

/-- The decimal of six digits `d` with its point at `p`. -/
def sixDigits (d : Nat) (p : Int) : ℚ := d * 10 ^ (p - 6)

/-- Is `d` with its point at `p` nearest to `x`? -/
structure Shown (x : ℚ) (d : Nat) (p : Int) : Prop where
  lower : 10 ^ 5 ≤ d
  upper : d < 10 ^ 6
  near : |x - sixDigits d p| ≤ 10 ^ (p - 6) / 2
  /-- Below a power of ten the digits are ten times as fine. -/
  below : d = 10 ^ 5 → sixDigits d p - x ≤ 10 ^ (p - 7) / 2

/-- The digits before a carry of the last one is resolved. -/
private def scaled (num den : Nat) : Nat :=
  let shift := 6 - pointPosition num den
  if shift < 0 then roundDiv num (den * Nat.pow 10 shift.natAbs)
  else roundDiv (num * Nat.pow 10 shift.toNat) den

private theorem significant_eq (num den : Nat) :
    significant 6 num den =
      if scaled num den = 10 ^ 6 then (10 ^ 5, pointPosition num den + 1)
      else (scaled num den, pointPosition num den) := by
  simp only [significant, scaled, beq_iff_eq]
  rfl

private theorem scaled_eq (hden : 0 < den) :
    ∃ a b : Nat, 0 < b ∧ scaled num den = roundDiv a b ∧
      (a / b : ℚ) = num / den / 10 ^ (pointPosition num den - 6) := by
  have hden' : (den : ℚ) ≠ 0 := by exact_mod_cast hden.ne'
  rw [scaled]
  split
  · rename_i h
    refine ⟨_, _, Nat.mul_pos hden (Nat.pow_pos (by decide)), rfl, ?_⟩
    obtain ⟨k, hk⟩ : ∃ k : Nat, pointPosition num den - 6 = k :=
      ⟨_, (Int.toNat_of_nonneg (by omega)).symm⟩
    have habs : (6 - pointPosition num den).natAbs = k := by omega
    rw [hk, habs, zpow_natCast, div_div]
    push_cast
    rfl
  · rename_i h
    refine ⟨_, _, hden, rfl, ?_⟩
    obtain ⟨k, hk⟩ : ∃ k : Nat, pointPosition num den - 6 = -(k : Int) :=
      ⟨(6 - pointPosition num den).toNat, by omega⟩
    have habs : (6 - pointPosition num den).toNat = k := by omega
    rw [hk, habs, zpow_neg, zpow_natCast, div_inv_eq_mul, div_mul_eq_mul_div]
    rw [Nat.pow_eq]
    push_cast
    rfl

theorem zpow_eq_mul {a b : Int} (k : Nat) (h : a = b + k) : (10 : ℚ) ^ a = 10 ^ k * 10 ^ b := by
  rw [h, zpow_add₀ (by norm_num), zpow_natCast, mul_comm]

theorem shown_significant (hden : 0 < den) (hle : (10 : ℚ) ^ (-(399 : Nat) : Int) ≤ num / den) :
    Shown (num / den) (significant 6 num den).1 (significant 6 num den).2 := by
  obtain ⟨hlow, hhigh⟩ := pointAt_pointPosition hden hle
  obtain ⟨a, b, hb, hscaled, hvalue⟩ := @scaled_eq num den hden
  have hround := abs_sub_roundDiv_le a hb
  rw [significant_eq, hscaled]
  rw [hvalue] at hround
  generalize roundDiv a b = d at hround ⊢
  generalize pointPosition num den = p at hlow hhigh hround ⊢
  generalize (num / den : ℚ) = x at hlow hhigh hround ⊢
  have h6 : (10 : ℚ) ^ (p - 6) = 10 ^ 1 * 10 ^ (p - 7) := zpow_eq_mul 1 (by omega)
  have h1 : (10 : ℚ) ^ (p - 1) = 10 ^ 6 * 10 ^ (p - 7) := zpow_eq_mul 6 (by omega)
  have h0 : (10 : ℚ) ^ p = 10 ^ 7 * 10 ^ (p - 7) := zpow_eq_mul 7 (by omega)
  have hpos : (0 : ℚ) < 10 ^ (p - 7) := zpow_pos (by norm_num) _
  -- Everything is a multiple of the finest power.
  have hclose : |x - d * 10 ^ (p - 6)| ≤ 10 ^ (p - 6) / 2 := by
    have hunit : (0 : ℚ) < 10 ^ (p - 6) := zpow_pos (by norm_num) _
    have heq : x - d * 10 ^ (p - 6) = (x / 10 ^ (p - 6) - d) * 10 ^ (p - 6) := by
      rw [sub_mul, div_mul_cancel₀ _ hunit.ne']
    rw [heq, abs_mul, abs_of_pos hunit]
    linarith [mul_le_mul_of_nonneg_right hround hunit.le]
  have hge : 10 ^ 5 ≤ d := by
    have h : (10 ^ 5 : ℚ) < d + 1 := by
      have := (abs_le.mp hclose).2
      rw [h6] at this
      rw [h1] at hlow
      refine lt_of_mul_lt_mul_right ?_ hpos.le
      linarith
    have : 10 ^ 5 < d + 1 := by exact_mod_cast h
    omega
  have hlt : d ≤ 10 ^ 6 := by
    have h : (d : ℚ) < 10 ^ 6 + 1 := by
      have := (abs_le.mp hclose).1
      rw [h6] at this
      rw [h0] at hhigh
      refine lt_of_mul_lt_mul_right ?_ hpos.le
      linarith
    have : d < 10 ^ 6 + 1 := by exact_mod_cast h
    omega
  split
  · rename_i hcarry
    have hvalue : sixDigits (10 ^ 5) (p + 1) = d * 10 ^ (p - 6) := by
      rw [sixDigits, hcarry, zpow_eq_mul (b := p - 6) 1 (by omega)]
      push_cast
      ring
    refine ⟨le_refl _, by norm_num, ?_, ?_⟩
    · rw [hvalue, zpow_eq_mul (b := p - 6) (a := p + 1 - 6) 1 (by omega)]
      have : (0 : ℚ) < 10 ^ (p - 6) := zpow_pos (by norm_num) _
      linarith
    · intro _
      rw [hvalue, show p + 1 - 7 = p - 6 by omega]
      linarith [(abs_le.mp hclose).1]
  · rename_i hcarry
    refine ⟨hge, by omega, hclose, ?_⟩
    rintro rfl
    rw [sixDigits, h6]
    rw [h1] at hlow
    push_cast
    linarith

/-- A number nearer to a decimal of six digits than half of its last digit is written with those
digits. -/
theorem significant_eq_of_near (hden : 0 < den) {d : Nat} {p : Int} (hp : -390 ≤ p)
    (hge : 10 ^ 5 ≤ d) (hlt : d < 10 ^ 6)
    (hnear : |(num / den : ℚ) - sixDigits d p| < 10 ^ (p - 6) / 2)
    (hbelow : d = 10 ^ 5 → sixDigits d p - num / den < 10 ^ (p - 7) / 2) :
    significant 6 num den = (d, p) := by
  obtain ⟨a, b, hb, hscaled, hvalue⟩ := @scaled_eq num den hden
  obtain ⟨hnear₁, hnear₂⟩ := abs_lt.mp hnear
  rw [significant_eq, hscaled]
  have h6 : (10 : ℚ) ^ (p - 6) = 10 ^ 1 * 10 ^ (p - 7) := zpow_eq_mul 1 (by omega)
  have h1 : (10 : ℚ) ^ (p - 1) = 10 ^ 6 * 10 ^ (p - 7) := zpow_eq_mul 6 (by omega)
  have h0 : (10 : ℚ) ^ p = 10 ^ 7 * 10 ^ (p - 7) := zpow_eq_mul 7 (by omega)
  have hpos : (0 : ℚ) < 10 ^ (p - 7) := zpow_pos (by norm_num) _
  have hge' : (10 ^ 5 : ℚ) ≤ d := by exact_mod_cast hge
  have hlt' : (d : ℚ) ≤ 10 ^ 6 - 1 := by
    have : d + 1 ≤ 10 ^ 6 := hlt
    have : (d + 1 : ℚ) ≤ 10 ^ 6 := by exact_mod_cast this
    linarith
  rw [sixDigits, h6] at hnear₁ hnear₂
  by_cases hlow : (10 : ℚ) ^ (p - 1) ≤ num / den
  · have hhigh : (num / den : ℚ) < 10 ^ p := by
      rw [h0]
      linarith [mul_le_mul_of_nonneg_right hlt' hpos.le]
    have hpoint := pointPosition_eq hden (by omega) ⟨hlow, hhigh⟩
    rw [hpoint] at hvalue
    have hdigits := roundDiv_eq_of_near hb (zpow_pos (by norm_num) _) hvalue hnear
    rw [hdigits, hpoint, if_neg (by omega)]
  · -- Just below a power of ten the last digit is carried all the way up.
    have hd : d = 10 ^ 5 := by
      by_contra hne
      have : 10 ^ 5 + 1 ≤ d := by omega
      have : (10 ^ 5 + 1 : ℚ) ≤ d := by exact_mod_cast this
      apply hlow
      rw [h1]
      linarith [mul_le_mul_of_nonneg_right this hpos.le]
    have hbelow := hbelow hd
    subst hd
    rw [sixDigits, h6] at hbelow
    rw [h1, not_le] at hlow
    push_cast at hbelow
    have h2 : (10 : ℚ) ^ (p - 1 - 1) ≤ num / den := by
      have : (10 : ℚ) ^ (p - 1 - 1) = 10 ^ 5 * 10 ^ (p - 7) := zpow_eq_mul 5 (by omega)
      rw [this]
      linarith
    have hpoint := pointPosition_eq hden (p := p - 1) (by omega) ⟨h2, by rwa [h1]⟩
    rw [hpoint, show p - 1 - 6 = p - 7 by omega] at hvalue
    have hdigits : roundDiv a b = 10 ^ 6 := by
      refine roundDiv_eq_of_near hb hpos hvalue (abs_lt.mpr ?_)
      push_cast
      constructor <;> linarith
    rw [hdigits, hpoint, if_pos rfl, sub_add_cancel]

end

/-! ## Laying out -/

theorem stripZeros_append (t : Text) : ∃ k, t = stripZeros t ++ List.replicate k 0x30 := by
  have hzeros : t.reverse.takeWhile (· == 0x30) =
      List.replicate (t.reverse.takeWhile (· == 0x30)).length 0x30 := by
    apply List.eq_replicate_of_mem
    intro b hb
    have h := List.mem_takeWhile_imp hb
    exact eq_of_beq h
  refine ⟨(t.reverse.takeWhile (· == 0x30)).length, ?_⟩
  rw [stripZeros, ← List.reverse_replicate, ← hzeros, ← List.reverse_append,
    List.takeWhile_append_dropWhile, List.reverse_reverse]

theorem getLast?_stripZeros (t : Text) : (stripZeros t).getLast? ≠ some 0x30 := by
  rw [stripZeros, List.getLast?_reverse]
  intro h
  have hnot := List.head?_dropWhile_not (· == 0x30) t.reverse
  rw [h] at hnot
  exact absurd hnot (by decide)

end Decimal

/-- Six digits without the zeros they end in. -/
structure Digits (d : Nat) (s : Text) : Prop where
  nonempty : s ≠ []
  digits : IsDigits s
  short : s.length ≤ 6
  filled : Text.ofNat d = s ++ List.replicate (6 - s.length) 0x30
  stripped : s.getLast? ≠ some 0x30

namespace Digits

variable {d : Nat} {s : Text}

theorem stripZeros (hge : 10 ^ 5 ≤ d) (hlt : d < 10 ^ 6) :
    Digits d (Decimal.stripZeros (Text.ofNat d)) := by
  obtain ⟨k, hk⟩ := Decimal.stripZeros_append (Text.ofNat d)
  have hlast := Decimal.getLast?_stripZeros (Text.ofNat d)
  generalize Decimal.stripZeros (Text.ofNat d) = s at hk hlast ⊢
  have hlength : s.length + k = 6 := by
    have h := congrArg List.length hk
    have hle := (Text.length_ofNat_le_iff (by decide)).mpr hlt
    have hnot := mt (Text.length_ofNat_le_iff (k := 5) (by decide)).mp (not_lt.mpr hge)
    rw [List.length_append, List.length_replicate] at h
    omega
  have hvalue : digitsValue s * 10 ^ k = d := by
    have h := Text.digitsValue_ofNat d
    rwa [hk, digitsValue_append, digitsValue_replicate, List.length_replicate, Nat.add_zero] at h
  refine ⟨?_, ?_, by omega, ?_, hlast⟩
  · rintro rfl
    simp only [digitsValue, List.foldl_nil, Nat.zero_mul] at hvalue
    omega
  · have h := Text.isDigits_ofNat d
    rw [hk] at h
    exact (isDigits_append.mp h).1
  · rw [show 6 - s.length = k by omega]
    exact hk

theorem value (h : Digits d s) : d = digitsValue s * 10 ^ (6 - s.length) := by
  have hvalue := Text.digitsValue_ofNat d
  rwa [h.filled, digitsValue_append, digitsValue_replicate, List.length_replicate, Nat.add_zero,
    eq_comm] at hvalue

theorem sixDigits_eq (h : Digits d s) (p : Int) :
    Decimal.sixDigits d p = Number.decimal (digitsValue s) (p - s.length) := by
  have hshort := h.short
  have hpow : (10 : ℚ) ^ (p - s.length) = 10 ^ (6 - s.length) * 10 ^ (p - 6) :=
    Decimal.zpow_eq_mul _ (by omega)
  rw [Decimal.sixDigits, Number.decimal, hpow, ← mul_assoc]
  congr 1
  exact_mod_cast h.value

end Digits

namespace Numeral

def value (n : Numeral) : ℚ := Number.decimal (n.reading false).mantissa (n.reading false).exponent

/-- Digits laid out with a point at `p`. -/
def ofDigits {d : Nat} {s : Text} (h : Digits d s) (p : Int) : Numeral :=
  if p - 1 < -4 ∨ 6 ≤ p - 1 then
    { whole := s.take 1
      fraction := s.drop 1
      exponent := some (p - 1)
      nonempty := by simp [h.nonempty]
      digits := by rw [List.take_append_drop]; exact h.digits }
  else if hp : p ≤ 0 then
    { whole := [0x30]
      fraction := List.replicate p.natAbs 0x30 ++ s
      exponent := none
      nonempty := by simp
      digits := isDigits_append.mpr ⟨isDigits_replicate 1,
        isDigits_append.mpr ⟨isDigits_replicate _, h.digits⟩⟩ }
  else
    { whole := s.take p.toNat ++ List.replicate (p.toNat - s.length) 0x30
      fraction := s.drop p.toNat
      exponent := none
      nonempty := by simp [h.nonempty]; omega
      digits := isDigits_append.mpr ⟨isDigits_append.mpr
        ⟨fun b hb => h.digits b (List.mem_of_mem_take hb), isDigits_replicate _⟩,
        fun b hb => h.digits b (List.mem_of_mem_drop hb)⟩ }

variable {d : Nat} {s : Text}

theorem spell_ofDigits (h : Digits d s) (p : Int) :
    (ofDigits h p).spell = Decimal.layOut 6 s p := by
  rw [ofDigits, Decimal.layOut]
  by_cases h1 : p - 1 < -4 ∨ 6 ≤ p - 1
  · have h1' : (decide (p - 1 < -4) || decide (Int.ofNat 6 ≤ p - 1)) = true := by
      simpa using h1
    rw [if_pos h1, if_pos h1']
    simp only [spell, point, power, Option.elim_some, List.append_assoc]
  · have h1' : ¬ (decide (p - 1 < -4) || decide (Int.ofNat 6 ≤ p - 1)) = true := by
      simpa using h1
    rw [if_neg h1, if_neg h1']
    by_cases h2 : p ≤ 0
    · have hne : (List.replicate p.natAbs 0x30 ++ s).isEmpty = false := by simp [h.nonempty]
      rw [dif_pos h2, if_pos h2]
      simp only [spell, point, power, hne, Option.elim_none, List.append_nil, List.append_assoc]
      rfl
    · rw [dif_neg h2, if_neg h2]
      simp only [spell, point, power, Option.elim_none, List.append_nil]

/-- The exponent that digits laid out are read with, in front of which all digits stand. -/
theorem value_ofDigits (h : Digits d s) (p : Int) :
    (ofDigits h p).value = Decimal.sixDigits d p := by
  have hpos : 0 < s.length := List.length_pos_iff.mpr h.nonempty
  rw [h.sixDigits_eq, value, reading, ofDigits]
  by_cases h1 : p - 1 < -4 ∨ 6 ≤ p - 1
  · rw [if_pos h1]
    simp only [List.take_append_drop, Option.getD_some, List.length_drop]
    congr 1
    omega
  · rw [if_neg h1]
    by_cases h2 : p ≤ 0
    · have hzeros : digitsValue [0x30] = 0 := rfl
      rw [dif_pos h2]
      simp only [digitsValue_append, digitsValue_replicate, hzeros, Nat.zero_mul, Nat.zero_add,
        Option.getD_none, List.length_append, List.length_replicate]
      congr 1
      omega
    · rw [dif_neg h2]
      by_cases h3 : s.length ≤ p.toNat
      · simp only [List.take_of_length_le h3, List.drop_of_length_le h3, List.append_nil,
          digitsValue_append, digitsValue_replicate, Option.getD_none, List.length_nil,
          Nat.add_zero, List.length_replicate, Number.decimal]
        rw [Decimal.zpow_eq_mul (a := p - s.length) (b := 0) (p.toNat - s.length) (by omega)]
        simp
      · have hzeros : p.toNat - s.length = 0 := by omega
        simp only [hzeros, List.replicate_zero, List.append_nil, List.take_append_drop,
          Option.getD_none, List.length_drop]
        congr 1
        omega

theorem natAbs_exponent_ofDigits (h : Digits d s) (p : Int) (negative : Bool) :
    ((ofDigits h p).reading negative).exponent.natAbs ≤ p.natAbs + 12 := by
  have hshort := h.short
  rw [reading, ofDigits]
  split
  · simp only [Option.getD_some, List.length_drop]
    omega
  · split
    · simp only [Option.getD_none, List.length_append, List.length_replicate]
      omega
    · simp only [Option.getD_none, List.length_drop]
      omega

/-- The digits of a whole number that are followed by nothing but zeros. -/
theorem length_le_of_whole (h : Digits d s) {n k : Nat} (hn : 0 < n) (hk : k ≤ 6)
    (hd : d = n * 10 ^ (6 - k)) :
    s.length ≤ k ∧ Text.ofNat n = s ++ List.replicate (k - s.length) 0x30 := by
  have hfilled := h.filled
  have hshort := h.short
  rw [hd, Text.ofNat_mul_pow hn] at hfilled
  have hle : s.length ≤ k := by
    by_contra hlt
    have hsplit : List.replicate (6 - k) (0x30 : UInt8) =
        List.replicate (s.length - k) 0x30 ++ List.replicate (6 - s.length) 0x30 := by
      rw [List.replicate_append_replicate]
      congr 1
      omega
    rw [hsplit, ← List.append_assoc] at hfilled
    apply h.stripped
    rw [← List.append_cancel_right hfilled, List.getLast?_append, List.getLast?_replicate,
      if_neg (by omega), Option.some_or]
  refine ⟨hle, ?_⟩
  have hsplit : List.replicate (6 - s.length) (0x30 : UInt8) =
      List.replicate (k - s.length) 0x30 ++ List.replicate (6 - k) 0x30 := by
    rw [List.replicate_append_replicate]
    congr 1
    omega
  rw [hsplit, ← List.append_assoc] at hfilled
  exact List.append_cancel_right hfilled

/-- Digits that fill all places in front of the point are those of a whole number. -/
theorem spell_ofDigits_whole (h : Digits d s) {p : Int} (h0 : 0 < p) (h6 : p ≤ 6) {n : Nat}
    (hn : 0 < n) (hd : d = n * 10 ^ (6 - p.toNat)) : (ofDigits h p).spell = Text.ofNat n := by
  obtain ⟨hle, htext⟩ := length_le_of_whole h hn (by omega) hd
  rw [ofDigits, if_neg (by omega), dif_neg (by omega), htext]
  simp [spell, point, power, List.take_of_length_le hle, List.drop_of_length_le hle]

end Numeral
end ConsoleScript
