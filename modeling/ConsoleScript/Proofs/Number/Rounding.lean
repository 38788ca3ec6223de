import ConsoleScript.Number.Decimal
import ConsoleScript.Proofs.Number.Doubles

/-!
# Rounding to doubles

A positive number is rounded to the grid of doubles in its binade: to a multiple of its unit,
off by at most half of it. Products, quotients and decimals are all rounded so.
-/

namespace ConsoleScript.Number

open Float.Model Float.Model.UnpackedFloat

/-! ## Residual bits -/

def halves (em : ExtendedMantissa) : Nat := 2 * em.mantissa + em.roundBit.toNat

/-- What a mantissa with its residual bits says about a number: the number of whole halves in it,
and whether there is more. -/
structure Represents (em : ExtendedMantissa) (y : ℚ) : Prop where
  le : halves em ≤ 2 * y
  lt : 2 * y < halves em + 1
  sticky : em.stickyBit = false ↔ 2 * y = halves em

namespace Represents

variable {em : ExtendedMantissa} {y : ℚ}

private theorem halves_shiftRightOne (em : ExtendedMantissa) :
    halves em.shiftRightOne = em.mantissa := by
  simp only [halves, ExtendedMantissa.shiftRightOne]
  rcases Nat.mod_two_eq_zero_or_one em.mantissa with h | h
  · simp only [h, bne_self_eq_false, Bool.toNat_false]
    omega
  · simp only [h, ne_eq, one_ne_zero, not_false_eq_true, bne_iff_ne.mpr, Bool.toNat_true]
    omega

theorem shiftRightOne (h : Represents em y) : Represents em.shiftRightOne (y / 2) := by
  obtain ⟨hle, hlt, hsticky⟩ := h
  have hhalf : 2 * (y / 2) = y := by ring
  have htwice : (halves em : ℚ) = 2 * em.mantissa + em.roundBit.toNat := by
    simp only [halves]
    push_cast
    rfl
  rw [htwice] at hle hlt hsticky
  constructor
  · rw [hhalf, halves_shiftRightOne]
    have hbit : (0 : ℚ) ≤ em.roundBit.toNat := Nat.cast_nonneg _
    linarith
  · rw [hhalf, halves_shiftRightOne]
    have hbit : (em.roundBit.toNat : ℚ) ≤ 1 := by exact_mod_cast Bool.toNat_le em.roundBit
    linarith
  · rw [hhalf, halves_shiftRightOne]
    simp only [ExtendedMantissa.shiftRightOne, Bool.or_eq_false_iff, hsticky]
    cases hr : em.roundBit with
    | false =>
      simp only [Bool.toNat_false, Nat.cast_zero, add_zero, true_and]
      constructor <;> intro heq <;> linarith
    | true =>
      simp only [Bool.true_eq_false, false_and, false_iff]
      intro heq
      simp only [hr, Bool.toNat_true, Nat.cast_one] at hle
      linarith

theorem shiftRight (h : Represents em y) (n : Nat) : Represents (em >>> n) (y / 2 ^ n) := by
  change Represents (n.repeat ExtendedMantissa.shiftRightOne em) _
  induction n with
  | zero => simpa [Nat.repeat] using h
  | succ n ih =>
    rw [Nat.repeat, pow_succ, ← div_div]
    exact ih.shiftRightOne

theorem abs_sub_rounded_le (h : Represents em y) : |y - em.roundedMantissa| ≤ 1 / 2 := by
  obtain ⟨hle, hlt, hsticky⟩ := h
  obtain ⟨m, r, s⟩ := em
  rw [abs_le]
  cases r with
  | false =>
    have hround : (ExtendedMantissa.roundedMantissa ⟨m, false, s⟩ : ℚ) = m := by
      cases s <;> rfl
    simp only [halves, Bool.toNat_false, add_zero] at hle hlt
    push_cast at hle hlt
    rw [hround]
    constructor <;> linarith
  | true =>
    simp only [halves, Bool.toNat_true] at hle hlt hsticky
    push_cast at hle hlt hsticky
    cases s with
    | false =>
      have hround : ExtendedMantissa.roundedMantissa ⟨m, true, false⟩ = m + m % 2 := rfl
      have heq := hsticky.mp rfl
      have hmod : ((m % 2 : Nat) : ℚ) = 0 ∨ ((m % 2 : Nat) : ℚ) = 1 := by
        rcases Nat.mod_two_eq_zero_or_one m with h | h <;> simp [h]
      rw [hround, Nat.cast_add]
      rcases hmod with h | h <;> rw [h] <;> constructor <;> linarith
    | true =>
      have hround : ExtendedMantissa.roundedMantissa ⟨m, true, true⟩ = m + 1 := rfl
      rw [hround, Nat.cast_add, Nat.cast_one]
      constructor <;> linarith

theorem bounds {m : Nat} {acc : Accuracy}
    (h : Represents (ExtendedMantissa.ofMantissaAndAccuracy m acc) y) : m ≤ y ∧ y < m + 1 := by
  obtain ⟨hle, hlt, -⟩ := h
  set em := ExtendedMantissa.ofMantissaAndAccuracy m acc with hem
  have hmant : em.mantissa = m := by
    rw [hem]
    cases acc with
    | exact => rfl
    | inexact o => cases o <;> rfl
  have hbit : (em.roundBit.toNat : ℚ) ≤ 1 := by exact_mod_cast Bool.toNat_le em.roundBit
  have hbit0 : (0 : ℚ) ≤ em.roundBit.toNat := Nat.cast_nonneg _
  simp only [halves, hmant] at hle hlt
  push_cast at hle hlt
  constructor <;> linarith

theorem exact (m : Nat) : Represents (ExtendedMantissa.ofMantissaAndAccuracy m .exact) m := by
  constructor <;> simp [ExtendedMantissa.ofMantissaAndAccuracy, halves]

private theorem halves_quotient (a : Nat) {b : Nat} (hb : 0 < b) :
    let em := ExtendedMantissa.ofMantissaAndAccuracy (a / b) (accuracyOfFraction (a % b) b)
    halves em * b ≤ 2 * a ∧ 2 * a < (halves em + 1) * b ∧
      (em.stickyBit = false ↔ 2 * a = halves em * b) := by
  have hmod := Nat.mod_lt a hb
  have hdiv : 2 * a = 2 * (a / b) * b + 2 * (a % b) := by
    have := Nat.div_add_mod a b
    linarith
  rw [accuracyOfFraction]
  split
  · rename_i hzero
    simp only [ExtendedMantissa.ofMantissaAndAccuracy, halves, Bool.toNat_false, add_zero, hdiv,
      hzero, add_mul, true_iff]
    omega
  · rename_i hpos
    match hcmp : compare (2 * (a % b)) b with
    | .lt =>
      have hlt := Nat.compare_eq_lt.mp hcmp
      simp only [ExtendedMantissa.ofMantissaAndAccuracy, halves, Bool.toNat_false, add_zero, hdiv,
        add_mul, Bool.true_eq_false, false_iff]
      omega
    | .eq =>
      have heq := Nat.compare_eq_eq.mp hcmp
      simp only [ExtendedMantissa.ofMantissaAndAccuracy, halves, Bool.toNat_true, hdiv, add_mul,
        true_iff]
      omega
    | .gt =>
      have hgt := Nat.compare_eq_gt.mp hcmp
      simp only [ExtendedMantissa.ofMantissaAndAccuracy, halves, Bool.toNat_true, hdiv, add_mul,
        Bool.true_eq_false, false_iff]
      omega

theorem quotient (a : Nat) {b : Nat} (hb : 0 < b) :
    Represents (ExtendedMantissa.ofMantissaAndAccuracy (a / b) (accuracyOfFraction (a % b) b))
      (a / b : ℚ) := by
  obtain ⟨hle, hlt, hsticky⟩ := halves_quotient a hb
  have hb' : (0 : ℚ) < b := by exact_mod_cast hb
  constructor
  · rw [← mul_div_assoc, le_div_iff₀ hb']
    exact_mod_cast hle
  · rw [← mul_div_assoc, div_lt_iff₀ hb']
    exact_mod_cast hlt
  · rw [hsticky, ← mul_div_assoc, div_eq_iff hb'.ne']
    exact_mod_cast Iff.rfl

end Represents

/-! ## The grid of doubles -/

/-- The exponent of the unit in which a number of the size of `x` is kept. -/
def unit (x : ℚ) : Int := max (Int.log 2 x - 52) (-1074)

theorem log_eq {x : ℚ} {k : Int} (hle : (2 : ℚ) ^ k ≤ x) (hlt : x < 2 ^ (k + 1)) :
    Int.log 2 x = k := by
  have hx : 0 < x := lt_of_lt_of_le (zpow_pos two_pos k) hle
  have h1 : k ≤ Int.log 2 x := (Int.zpow_le_iff_le_log (by norm_num) hx).mp (by exact_mod_cast hle)
  have h2 : Int.log 2 x < k + 1 :=
    (Int.lt_zpow_iff_log_lt (by norm_num) hx).mp (by exact_mod_cast hlt)
  omega

/-- A number is less than `2 ^ 53` units, and not less than `2 ^ 52` of them unless the unit is the
least one. -/
theorem unit_bounds {x : ℚ} (hx : 0 < x) :
    x / 2 ^ unit x < 2 ^ 53 ∧ (unit x ≠ -1074 → 2 ^ 52 ≤ x / 2 ^ unit x) := by
  have hlt : x < 2 ^ (Int.log 2 x + 1) := by
    exact_mod_cast Int.lt_zpow_succ_log_self (b := 2) (by norm_num) x
  have hle : (2 : ℚ) ^ Int.log 2 x ≤ x := by
    exact_mod_cast Int.zpow_log_le_self (b := 2) (by norm_num) hx
  have hpow : (0 : ℚ) < 2 ^ unit x := zpow_pos two_pos _
  constructor
  · rw [div_lt_iff₀ hpow, ← zpow_natCast, ← zpow_add₀ two_ne_zero]
    apply lt_of_lt_of_le hlt
    apply zpow_le_zpow_right₀ (by norm_num)
    rw [unit]
    push_cast
    omega
  · intro hne
    rw [le_div_iff₀ hpow, ← zpow_natCast, ← zpow_add₀ two_ne_zero]
    apply le_trans _ hle
    apply zpow_le_zpow_right₀ (by norm_num)
    rw [unit] at hne ⊢
    push_cast
    omega

/-- Is `f` what `x` is rounded to, with a sign? -/
def RoundsTo (s : Sign) (x : ℚ) (f : Float) : Prop :=
  signOf f = s ∧ ∃ (n m : Nat) (q : Int), |x / 2 ^ unit x - n| ≤ 1 / 2 ∧ SameValue n (unit x) m q ∧
    Canonical m q ∧ magnitude f = if q ≤ 971 then .finite m q else .infinite

/-- Shifting once more only takes back a carry. -/
private theorem shift_rounded {n : Nat} {t : Int} (hn : n ≤ 2 ^ 53) (ht : -1074 ≤ t)
    (hfull : t ≠ -1074 → 2 ^ 52 ≤ n) :
    ∃ (em : ExtendedMantissa) (q : Int),
      shiftToTargetExponent Format.binary64 n t .exact = (em, q) ∧
        SameValue n t em.mantissa q ∧ Canonical em.mantissa q := by
  by_cases hfits : n < 2 ^ 53
  · refine ⟨⟨n, false, false⟩, t, ?_, rfl, hfits, ht, hfull⟩
    have hlog : n.log2 ≤ 52 := by
      by_cases h : n = 0
      · simp [h]
      · have := (Nat.log2_lt h).mpr hfits
        omega
    have hshift : (Format.binary64.targetExponent (totalExponent n t) - t).toNat = 0 := by
      simp only [Format.targetExponent, totalExponent, Format.mantissaBits, Format.minExponent]
      omega
    simp only [shiftToTargetExponent, shiftToExponent, hshift, Nat.cast_zero, add_zero]
    rfl
  · obtain rfl : n = 2 ^ 53 := by omega
    refine ⟨⟨2 ^ 52, false, false⟩, t + 1, ?_, ?_, by norm_num, by omega, fun _ => le_refl _⟩
    · have hshift : (Format.binary64.targetExponent (totalExponent (2 ^ 53) t) - t).toNat = 1 := by
        simp only [Format.targetExponent, totalExponent, Nat.log2_two_pow, Format.mantissaBits,
          Format.minExponent]
        omega
      simp only [shiftToTargetExponent, shiftToExponent, hshift]
      rfl
    · rw [SameValue, zpow_add₀ two_ne_zero]
      push_cast
      ring

private theorem roundWithAccuracy_eq (s : Sign) {m : Nat} {e e₁ e₂ : Int} {acc : Accuracy}
    {em₁ em₂ : ExtendedMantissa}
    (h₁ : shiftToTargetExponent Format.binary64 m e acc = (em₁, e₁))
    (h₂ : shiftToTargetExponent Format.binary64 em₁.roundedMantissa e₁ .exact = (em₂, e₂)) :
    roundWithAccuracy Format.binary64 s m e acc = finite s em₂.mantissa e₂ := by
  simp only [roundWithAccuracy, h₁, h₂, finite]
  by_cases hzero : em₂.mantissa = 0
  · simp [hzero]
  · simp [hzero, Nat.pos_of_ne_zero]

/-- With enough bits known, the exponent that bits are shifted to is that of the unit. -/
private theorem targetExponent_eq {m : Nat} {e : Int} {x : ℚ} (hle : (m : ℚ) ≤ x / 2 ^ e)
    (hlt : x / 2 ^ e < m + 1) (hx : 0 < x) (hbits : 2 ^ 52 ≤ m ∨ e ≤ -1074) :
    Format.binary64.targetExponent (totalExponent m e) = unit x ∧ e ≤ unit x := by
  have hpow : (0 : ℚ) < 2 ^ e := zpow_pos two_pos e
  have htarget : Format.binary64.targetExponent (totalExponent m e) =
      max ((m.log2 : Int) + e - 52) (-1074) := by
    simp only [Format.targetExponent, totalExponent, Format.mantissaBits, Format.minExponent]
    omega
  rw [le_div_iff₀ hpow] at hle
  rw [div_lt_iff₀ hpow] at hlt
  by_cases hm : m = 0
  · have he : e ≤ -1074 := by
      rcases hbits with h | h
      · omega
      · exact h
    have hsmall : x < 2 ^ e := by simpa [hm] using hlt
    have hlog := (Int.lt_zpow_iff_log_lt (b := 2) (by norm_num) hx).mp (by exact_mod_cast hsmall)
    rw [htarget, unit, hm, Nat.log2_zero]
    push_cast
    omega
  · have hlow : (2 : ℚ) ^ ((m.log2 : Int) + e) ≤ x := by
      rw [zpow_add₀ two_ne_zero, zpow_natCast]
      refine le_trans (mul_le_mul_of_nonneg_right ?_ hpow.le) hle
      exact_mod_cast Nat.log2_self_le hm
    have hhigh : x < 2 ^ ((m.log2 : Int) + e + 1) := by
      rw [add_right_comm, zpow_add₀ two_ne_zero]
      refine lt_of_lt_of_le hlt (mul_le_mul_of_nonneg_right ?_ hpow.le)
      exact_mod_cast Nat.lt_log2_self (n := m)
    have hlog := log_eq hlow hhigh
    have hfull : 52 ≤ m.log2 ∨ e ≤ -1074 := hbits.imp_left (Nat.le_log2 hm).mpr
    rw [htarget, unit, hlog]
    omega

theorem roundsTo_roundWithAccuracy (s : Sign) {m : Nat} {e : Int} {acc : Accuracy} {x : ℚ}
    (hx : 0 < x) (hem : Represents (ExtendedMantissa.ofMantissaAndAccuracy m acc) (x / 2 ^ e))
    (hbits : 2 ^ 52 ≤ m ∨ e ≤ -1074) :
    RoundsTo s x (ofUnpacked (roundWithAccuracy Format.binary64 s m e acc)) := by
  obtain ⟨htarget, he⟩ := targetExponent_eq hem.bounds.1 hem.bounds.2 hx hbits
  -- The first shift brings the number to its unit, where it is rounded.
  obtain ⟨k, hk⟩ : ∃ k : Nat, (k : Int) = unit x - e := ⟨_, Int.toNat_of_nonneg (by omega)⟩
  set em := ExtendedMantissa.ofMantissaAndAccuracy m acc >>> k with hshift
  have hfirst : shiftToTargetExponent Format.binary64 m e acc = (em, unit x) := by
    simp only [shiftToTargetExponent, shiftToExponent, htarget, ← hk, Int.toNat_natCast]
    congr 1
    omega
  have hround : |x / 2 ^ unit x - em.roundedMantissa| ≤ 1 / 2 := by
    have h := (hem.shiftRight k).abs_sub_rounded_le
    rw [div_div, ← zpow_natCast, ← zpow_add₀ two_ne_zero, hk, add_sub_cancel] at h
    exact h
  obtain ⟨h1, h2⟩ := abs_le.mp hround
  obtain ⟨hupper, hlower⟩ := unit_bounds hx
  have hle : em.roundedMantissa ≤ 2 ^ 53 := by
    have : (em.roundedMantissa : ℚ) < 2 ^ 53 + 1 := by linarith
    exact Nat.lt_succ_iff.mp (by exact_mod_cast this)
  have hfull : unit x ≠ -1074 → 2 ^ 52 ≤ em.roundedMantissa := by
    intro hne
    have : (2 : ℚ) ^ 52 < em.roundedMantissa + 1 := by linarith [hlower hne]
    exact Nat.lt_succ_iff.mp (by exact_mod_cast this)
  obtain ⟨em', q, hsecond, hsame, hcanon⟩ := shift_rounded hle (le_max_right _ _) hfull
  obtain ⟨hsign, hmag⟩ := ofUnpacked_finite s hcanon
  rw [roundWithAccuracy_eq s hfirst hsecond]
  exact ⟨hsign, _, _, q, hround, hsame, hcanon, hmag⟩

/-! ## What numbers are rounded to -/

theorem Canonical.eq {m m' : Nat} {q q' : Int} (h : Canonical m q) (h' : Canonical m' q')
    (hsame : SameValue m q m' q') : m = m' ∧ q = q' := by
  -- A larger exponent would need a mantissa of more than 53 bits on the other side.
  have hle {m m' : Nat} {q q' : Int} (h : Canonical m q) (h' : Canonical m' q')
      (hsame : SameValue m q m' q') : q ≤ q' := by
    by_contra hlt
    have hmul := hsame.mul_eq (by omega)
    have hfull := h.full (by have := h'.le; omega)
    have hpow : 2 ^ 1 ≤ 2 ^ (q - q').toNat := Nat.pow_le_pow_right (by decide) (by omega)
    have hprod := Nat.mul_le_mul hfull hpow
    have := h'.lt
    omega
  obtain rfl : q = q' := le_antisymm (hle h h' hsame) (hle h' h hsame.symm)
  have hmul := hsame.mul_eq (le_refl q)
  simp only [sub_self, Int.toNat_zero, pow_zero, mul_one] at hmul
  exact ⟨hmul.symm, rfl⟩

theorem unit_eq {m : Nat} {q : Int} (h : Canonical m q) (hm : 0 < m) :
    unit ((m : ℚ) * 2 ^ q) = q := by
  have hpow : (0 : ℚ) < 2 ^ q := zpow_pos two_pos q
  have hlog : Int.log 2 ((m : ℚ) * 2 ^ q) = m.log2 + q := by
    apply log_eq
    · rw [zpow_add₀ two_ne_zero, zpow_natCast]
      apply mul_le_mul_of_nonneg_right _ hpow.le
      exact_mod_cast Nat.log2_self_le hm.ne'
    · rw [add_right_comm, zpow_add₀ two_ne_zero]
      apply mul_lt_mul_of_pos_right _ hpow
      exact_mod_cast Nat.lt_log2_self (n := m)
  have hlt := (Nat.log2_lt hm.ne').mpr h.lt
  have hfull : q ≠ -1074 → 52 ≤ m.log2 := fun hne => (Nat.le_log2 hm.ne').mpr (h.full hne)
  have hle := h.le
  rw [unit, hlog]
  omega

namespace RoundsTo

variable {s : Sign} {x : ℚ} {f : Float} {m : Nat} {q : Int}

theorem of_near (h : RoundsTo s x f) (hc : Canonical m (unit x)) (hq : unit x ≤ 971)
    (hnear : |x / 2 ^ unit x - m| < 1 / 2) : magnitude f = .finite m (unit x) := by
  obtain ⟨-, n, m', q', hround, hsame, hc', hmag⟩ := h
  obtain rfl : n = m := by
    obtain ⟨h1, h2⟩ := abs_le.mp hround
    obtain ⟨h3, h4⟩ := abs_lt.mp hnear
    have hlt : (n : ℚ) < m + 1 := by linarith
    have hgt : (m : ℚ) < n + 1 := by linarith
    have hlt : n < m + 1 := by exact_mod_cast hlt
    have hgt : m < n + 1 := by exact_mod_cast hgt
    omega
  obtain ⟨rfl, rfl⟩ := hc.eq hc' hsame
  rw [hmag, if_pos hq]

theorem of_eq (h : RoundsTo s x f) (hc : Canonical m q) (hm : 0 < m) (hq : q ≤ 971)
    (hx : x = m * 2 ^ q) : magnitude f = .finite m q := by
  have hunit : unit x = q := by rw [hx, unit_eq hc hm]
  have hpow : (2 : ℚ) ^ q ≠ 0 := zpow_ne_zero q two_ne_zero
  have hnear : |x / 2 ^ unit x - m| < 1 / 2 := by
    rw [hunit, hx, mul_div_cancel_right₀ _ hpow]
    simp
  have hmag := h.of_near (hunit ▸ hc) (hunit ▸ hq) hnear
  rwa [hunit] at hmag

private theorem abs_grid_sub_le {n : Nat} {u : Int} (h : |x / 2 ^ u - n| ≤ 1 / 2) :
    |(n : ℚ) * 2 ^ u - x| ≤ 2 ^ u / 2 := by
  have hpow : (0 : ℚ) < 2 ^ u := zpow_pos two_pos u
  have heq : (n : ℚ) * 2 ^ u - x = -((x / 2 ^ u - n) * 2 ^ u) := by
    rw [sub_mul, div_mul_cancel₀ _ hpow.ne']
    ring
  rw [heq, abs_neg, abs_mul, abs_of_pos hpow]
  linarith [mul_le_mul_of_nonneg_right h hpow.le]

theorem abs_sub_le (h : RoundsTo s x f) (hf : magnitude f = .finite m q) :
    |(m : ℚ) * 2 ^ q - x| ≤ 2 ^ unit x / 2 := by
  obtain ⟨-, n, m', q', hround, hsame, -, hmag⟩ := h
  rw [hf] at hmag
  split at hmag
  · obtain ⟨rfl, rfl⟩ := Magnitude.finite.inj hmag
    rw [← hsame]
    exact abs_grid_sub_le hround
  · cases hmag

/-- A number that is not too large is rounded to a finite double. -/
theorem exists_finite (h : RoundsTo s x f)
    (hlt : x + 2 ^ unit x / 2 < (2 : ℚ) ^ (1024 : Int)) : ∃ m q, magnitude f = .finite m q := by
  obtain ⟨-, n, m', q', hround, hsame, hc, hmag⟩ := h
  refine ⟨m', q', hmag.trans (if_pos ?_)⟩
  by_contra hover
  have hle : (m' : ℚ) * 2 ^ q' ≤ x + 2 ^ unit x / 2 := by
    have h1 := (abs_le.mp (abs_grid_sub_le hround)).2
    rw [SameValue] at hsame
    linarith
  have hfull : (2 : ℚ) ^ (52 : Int) ≤ m' := by exact_mod_cast hc.full (by omega)
  have hq : (2 : ℚ) ^ (972 : Int) ≤ 2 ^ q' := zpow_le_zpow_right₀ (by norm_num) (by omega)
  have hge := mul_le_mul hfull hq (zpow_pos two_pos _).le (Nat.cast_nonneg m')
  rw [← zpow_add₀ two_ne_zero] at hge
  exact absurd (lt_of_le_of_lt (hge.trans hle) hlt) (lt_irrefl _)

theorem magnitude_ne_zero (h : RoundsTo s x f) (hx : 1 ≤ x) (q : Int) :
    magnitude f ≠ .finite 0 q := by
  intro hf
  have hpow : (0 : ℚ) < 2 ^ unit x := zpow_pos two_pos _
  have hpos : 0 < x := by linarith
  have hle : x ≤ 2 ^ unit x / 2 := by
    have h := h.abs_sub_le hf
    rwa [Nat.cast_zero, zero_mul, zero_sub, abs_neg, abs_of_pos hpos] at h
  by_cases hunit : unit x = -1074
  · have hsmall : (2 : ℚ) ^ (-1074 : Int) ≤ 1 := zpow_le_one_of_nonpos₀ (by norm_num) (by omega)
    rw [hunit] at hle
    linarith
  · have hfull := (unit_bounds hpos).2 hunit
    rw [le_div_iff₀ hpow] at hfull
    linarith

end RoundsTo

/-! ## Operations -/

section

variable {f g : Float} {m n : Nat} {p q : Int}

private theorem unpack_of_finite (hf : magnitude f = .finite m q) (hm : 0 < m) :
    f.toModel.unpack = .finite (signOf f) m q hm := by
  rw [unpack_toModel, hf]
  simp only [finite, hm, dif_pos]

theorem roundsTo_mul (hf : magnitude f = .finite m q) (hg : magnitude g = .finite n p)
    (hm : 0 < m) (hn : 0 < n) (hbits : 2 ^ 52 ≤ m * n) :
    RoundsTo (signOf f * signOf g) ((m : ℚ) * 2 ^ q * (n * 2 ^ p)) (f * g) := by
  have hmul : f * g = ofUnpacked (UnpackedFloat.mul Format.binary64 f.toModel.unpack g.toModel.unpack) :=
    rfl
  rw [hmul, unpack_of_finite hf hm, unpack_of_finite hg hn]
  have hx : (m : ℚ) * 2 ^ q * (n * 2 ^ p) / 2 ^ (q + p) = (m * n : Nat) := by
    have hpow : (2 : ℚ) ^ (q + p) ≠ 0 := zpow_ne_zero _ two_ne_zero
    rw [div_eq_iff hpow, zpow_add₀ two_ne_zero]
    push_cast
    ring
  have hm' : (0 : ℚ) < m := by exact_mod_cast hm
  have hn' : (0 : ℚ) < n := by exact_mod_cast hn
  apply roundsTo_roundWithAccuracy _ (by positivity) _ (.inl hbits)
  rw [hx]
  exact Represents.exact (m * n)

private theorem divCore_spec (hm : 0 < m) (hn : 0 < n) (q p : Int) :
    ∃ (k : Nat) (e : Int), (k : Int) = q - p - e ∧
      divCore Format.binary64 m q n p =
        (m * 2 ^ k / n, e, accuracyOfFraction (m * 2 ^ k % n) n) ∧
      (2 ^ 52 ≤ m * 2 ^ k / n ∨ e ≤ -1074) := by
  have htarget : Format.binary64.targetExponent (totalExponent m q - totalExponent n p) =
      max ((m.log2 : Int) + q - (n.log2 + p) - 53) (-1074) := by
    simp only [Format.targetExponent, totalExponent, Format.mantissaBits, Format.minExponent]
    omega
  set e := min (q - p) (max ((m.log2 : Int) + q - (n.log2 + p) - 53) (-1074)) with he
  obtain ⟨k, hk⟩ : ∃ k : Nat, (k : Int) = q - p - e := ⟨_, Int.toNat_of_nonneg (by omega)⟩
  refine ⟨k, e, hk, ?_, ?_⟩
  · simp only [divCore, htarget, ← he, ← hk, Int.toNat_natCast, Nat.shiftLeft_eq]
  · by_cases hmin : e ≤ -1074
    · exact .inr hmin
    · left
      rw [Nat.le_div_iff_mul_le hn]
      calc 2 ^ 52 * n ≤ 2 ^ 52 * 2 ^ (n.log2 + 1) :=
            Nat.mul_le_mul_left _ Nat.lt_log2_self.le
        _ = 2 ^ (52 + (n.log2 + 1)) := (pow_add 2 52 _).symm
        _ ≤ 2 ^ (m.log2 + k) := Nat.pow_le_pow_right (by decide) (by omega)
        _ = 2 ^ m.log2 * 2 ^ k := pow_add 2 _ _
        _ ≤ m * 2 ^ k := Nat.mul_le_mul_right _ (Nat.log2_self_le hm.ne')

theorem roundsTo_div_unpacked (s t : Sign) (hm : 0 < m) (hn : 0 < n) (q p : Int) :
    RoundsTo (s / t) ((m : ℚ) * 2 ^ q / (n * 2 ^ p))
      (ofUnpacked (UnpackedFloat.div Format.binary64 (.finite s m q hm) (.finite t n p hn))) := by
  obtain ⟨k, e, hk, hcore, hbits⟩ := divCore_spec hm hn q p
  have hm' : (0 : ℚ) < m := by exact_mod_cast hm
  have hn' : (0 : ℚ) < n := by exact_mod_cast hn
  have hx : (m : ℚ) * 2 ^ q / (n * 2 ^ p) / 2 ^ e = (m * 2 ^ k : Nat) / (n : ℚ) := by
    have hpow : (2 : ℚ) ^ q = 2 ^ k * 2 ^ p * 2 ^ e := by
      rw [← zpow_natCast, ← zpow_add₀ two_ne_zero, ← zpow_add₀ two_ne_zero, hk]
      congr 1
      ring
    rw [div_div, div_eq_div_iff (by positivity) hn'.ne', hpow]
    push_cast
    ring
  rw [UnpackedFloat.div, hcore]
  apply roundsTo_roundWithAccuracy _ (by positivity) _ hbits
  rw [hx]
  exact Represents.quotient _ hn

theorem roundsTo_div (hf : magnitude f = .finite m q) (hg : magnitude g = .finite n p)
    (hm : 0 < m) (hn : 0 < n) :
    RoundsTo (signOf f / signOf g) ((m : ℚ) * 2 ^ q / (n * 2 ^ p)) (f / g) := by
  have hdiv : f / g =
      ofUnpacked (UnpackedFloat.div Format.binary64 f.toModel.unpack g.toModel.unpack) := rfl
  rw [hdiv, unpack_of_finite hf hm, unpack_of_finite hg hn]
  exact roundsTo_div_unpacked _ _ hm hn q p

end

/-! ## Whole numbers and decimals -/

private theorem roundsTo_round (s : Sign) {m : Nat} (hm : 0 < m) (e : Int) :
    RoundsTo s ((m : ℚ) * 2 ^ e) (ofUnpacked (UnpackedFloat.round Format.binary64 s m e)) := by
  have htarget : Format.binary64.targetExponent (totalExponent m e) =
      max ((m.log2 : Int) + e - 52) (-1074) := by
    simp only [Format.targetExponent, totalExponent, Format.mantissaBits, Format.minExponent]
    omega
  set k := (e - max ((m.log2 : Int) + e - 52) (-1074)).toNat with hk
  have hbits : 2 ^ 52 ≤ m * 2 ^ k ∨ e - k ≤ -1074 := by
    by_cases hmin : e - k ≤ -1074
    · exact .inr hmin
    · left
      calc 2 ^ 52 ≤ 2 ^ (m.log2 + k) := Nat.pow_le_pow_right (by decide) (by omega)
        _ = 2 ^ m.log2 * 2 ^ k := pow_add 2 _ _
        _ ≤ m * 2 ^ k := Nat.mul_le_mul_right _ (Nat.log2_self_le hm.ne')
  have hround : UnpackedFloat.round Format.binary64 s m e =
      roundWithAccuracy Format.binary64 s (m * 2 ^ k) (e - k) .exact := by
    simp only [UnpackedFloat.round, decreaseExponent, htarget, ← hk, Nat.shiftLeft_eq]
  have hx : (m : ℚ) * 2 ^ e / 2 ^ (e - (k : Int)) = (m * 2 ^ k : Nat) := by
    rw [mul_div_assoc, ← zpow_sub₀ two_ne_zero, sub_sub_cancel, zpow_natCast]
    push_cast
    rfl
  have hm' : (0 : ℚ) < m := by exact_mod_cast hm
  rw [hround]
  apply roundsTo_roundWithAccuracy _ (by positivity) _ hbits
  rw [hx]
  exact Represents.exact _

theorem roundsTo_toFloat {n : UInt64} (hn : 0 < n.toNat) :
    RoundsTo .positive n.toNat n.toFloat := by
  have hcmp : compare (n.toNat : Int) 0 = .gt := Int.compare_eq_gt.mpr (by omega)
  have heq : n.toFloat = ofUnpacked (UnpackedFloat.round Format.binary64 .positive n.toNat 0) := by
    change ofUnpacked (normalize Format.binary64 (n.toNat : Int) 0 .positive) = _
    rw [UnpackedFloat.normalize, hcmp]
    rfl
  have h := roundsTo_round .positive hn 0
  rwa [zpow_zero, mul_one, ← heq] at h

/-- A whole number of at most 53 bits is a double. -/
theorem magnitude_toFloat {n : UInt64} (hn : 0 < n.toNat) (hlt : n.toNat < 2 ^ 53) :
    ∃ m q, magnitude n.toFloat = .finite m q ∧ 2 ^ 52 ≤ m ∧ SameValue n.toNat 0 m q := by
  have hlog := (Nat.log2_lt hn.ne').mpr hlt
  have hle := Nat.log2_self_le hn.ne'
  have hself := Nat.lt_log2_self (n := n.toNat)
  obtain ⟨k, hk⟩ : ∃ k, n.toNat.log2 + k = 52 := ⟨52 - n.toNat.log2, by omega⟩
  have hfull : 2 ^ 52 ≤ n.toNat * 2 ^ k := by
    rw [← hk, pow_add]
    exact Nat.mul_le_mul_right _ hle
  have hsame : SameValue n.toNat 0 (n.toNat * 2 ^ k) (-k) := by
    have h := SameValue.mul n.toNat (show -(k : Int) ≤ 0 by omega)
    rwa [zero_sub, neg_neg, Int.toNat_natCast] at h
  have hcanon : Canonical (n.toNat * 2 ^ k) (-k) := by
    refine ⟨?_, by omega, fun _ => hfull⟩
    rw [show 53 = n.toNat.log2 + 1 + k by omega, pow_add]
    exact Nat.mul_lt_mul_of_pos_right hself (by positivity)
  refine ⟨_, _, (roundsTo_toFloat hn).of_eq hcanon (by positivity) (by omega) ?_, hfull, hsame⟩
  rw [SameValue, zpow_zero, mul_one] at hsame
  exact hsame

private def isPower (e : Nat) (f : Float) : Bool :=
  match magnitude f with
  | .finite m q => 2 ^ 52 ≤ m && !isNegative f &&
      if q < 0 then m = 10 ^ e * 2 ^ (-q).toNat else m * 2 ^ q.toNat = 10 ^ e
  | _ => false

private theorem isPower_powers :
    ∀ e : Fin 23, isPower e Float.exactlyRepresentablePowersOfTen[e] = true := by
  decide

private theorem magnitude_of_isPower {e : Nat} {f : Float} (h : isPower e f) :
    ∃ m q, magnitude f = .finite m q ∧ 2 ^ 52 ≤ m ∧ signOf f = .positive ∧
      (m : ℚ) * 2 ^ q = 10 ^ e := by
  match hf : magnitude f with
  | .finite m q =>
    simp only [isPower, hf, Bool.and_eq_true, decide_eq_true_eq, Bool.not_eq_true'] at h
    obtain ⟨⟨hfull, hneg⟩, hval⟩ := h
    refine ⟨m, q, rfl, hfull, by simp [signOf, hneg], ?_⟩
    split at hval
    · have hsame := SameValue.mul (10 ^ e) (show q ≤ 0 by omega)
      rw [zero_sub, ← of_decide_eq_true hval, SameValue] at hsame
      rw [← hsame]
      push_cast
      simp
    · have hsame := SameValue.mul m (show 0 ≤ q by omega)
      rw [sub_zero, of_decide_eq_true hval, SameValue] at hsame
      rw [hsame]
      push_cast
      simp
  | .infinite => simp [isPower, hf] at h
  | .notANumber => simp [isPower, hf] at h

def decimal (m : Nat) (e : Int) : ℚ := m * 10 ^ e

private theorem roundsTo_fast {m e : Nat} (s : Bool) (hm : 0 < m) (hlt : m < 2 ^ 53) (he : e ≤ 22) :
    RoundsTo .positive (decimal m (if s then -(e : Int) else e)) (Float.ofScientific m s e) := by
  have hnat : m.toUInt64.toNat = m := Nat.mod_eq_of_lt (Nat.lt_trans hlt (by decide))
  have hpos : 0 < m.toUInt64.toNat := by rwa [hnat]
  obtain ⟨m₁, q₁, hmag₁, hfull₁, hval₁⟩ := magnitude_toFloat hpos (by rwa [hnat])
  have hsign₁ := (roundsTo_toFloat hpos).1
  obtain ⟨m₂, q₂, hmag₂, hfull₂, hsign₂, hval₂⟩ :=
    magnitude_of_isPower (isPower_powers ⟨e, by omega⟩)
  rw [SameValue, hnat, zpow_zero, mul_one] at hval₁
  rw [Float.ofScientific, dif_pos ⟨hlt, he⟩]
  cases s with
  | true =>
    have h := roundsTo_div hmag₁ hmag₂ (by omega) (by omega)
    rw [hsign₁, hsign₂, ← hval₁, hval₂] at h
    rw [decimal, if_pos rfl, zpow_neg, zpow_natCast, ← div_eq_mul_inv]
    exact h
  | false =>
    have hbits : 2 ^ 52 ≤ m₁ * m₂ := le_trans hfull₁ (Nat.le_mul_of_pos_right _ (by omega))
    have h := roundsTo_mul hmag₁ hmag₂ (by omega) (by omega) hbits
    rw [hsign₁, hsign₂, ← hval₁, hval₂] at h
    rw [decimal, if_neg (by decide), zpow_natCast]
    exact h

private theorem roundsTo_slow {m : Nat} {e : Int} (hm : 0 < m) (hle : -2048 ≤ e) (he : e ≤ 2048) :
    RoundsTo .positive (decimal m e) (.ofModel (Float.Model.ofScientific m e)) := by
  have hm' : (0 : ℚ) < m := by exact_mod_cast hm
  change RoundsTo .positive _ (ofUnpacked (UnpackedFloat.ofScientific Format.binary64 m e))
  have hlarge : ¬ e > 2 ^ Format.binary64.exponentBits := by
    change ¬ e > 2 ^ 11
    omega
  have hsmall : ¬ e < -((2 : Int) ^ Format.binary64.exponentBits + m.log2) := by
    change ¬ e < -((2 : Int) ^ 11 + m.log2)
    omega
  rw [UnpackedFloat.ofScientific, dif_neg hm.ne', if_neg hlarge, if_neg hsmall]
  split
  · rename_i hnonneg
    obtain ⟨k, rfl⟩ := Int.eq_ofNat_of_zero_le hnonneg
    have hx : decimal m k / (2 : ℚ) ^ (-53 : Int) = (m <<< 53 * 10 ^ k : Nat) := by
      rw [decimal, zpow_neg, div_inv_eq_mul, Nat.shiftLeft_eq, zpow_natCast]
      push_cast
      ring
    have hbits : 2 ^ 52 ≤ m <<< 53 * 10 ^ k := by
      rw [Nat.shiftLeft_eq]
      have : 1 ≤ m * 10 ^ k := Nat.mul_pos hm (by positivity)
      calc 2 ^ 52 ≤ 2 ^ 53 * 1 := by norm_num
        _ ≤ 2 ^ 53 * (m * 10 ^ k) := Nat.mul_le_mul_left _ this
        _ = m * 2 ^ 53 * 10 ^ k := by ring
    rw [UnpackedFloat.mul]
    apply roundsTo_roundWithAccuracy .positive (by rw [decimal]; positivity) _ (.inl hbits)
    have hexp : -(Format.binary64.mantissaBits : Int) + 0 = -53 := rfl
    rw [hexp, hx]
    exact Represents.exact _
  · rename_i hneg
    have h := roundsTo_div_unpacked .positive .positive hm
      (Nat.pow_pos (n := (-e).toNat) (show 0 < 10 by decide)) 0 0
    have hx : (m : ℚ) * 2 ^ (0 : Int) / ((10 ^ (-e).toNat : Nat) * 2 ^ (0 : Int)) = decimal m e := by
      rw [decimal, zpow_zero, mul_one, mul_one, div_eq_mul_inv]
      congr 1
      push_cast
      rw [← zpow_natCast, Int.toNat_of_nonneg (by omega), zpow_neg, inv_inv]
    rw [hx] at h
    exact h

theorem roundsTo_ofScientific {m e : Nat} (s : Bool) (hm : 0 < m) (he : e ≤ 2048) :
    RoundsTo .positive (decimal m (if s then -(e : Int) else e)) (Float.ofScientific m s e) := by
  by_cases hfast : m < 2 ^ 53 ∧ e ≤ 22
  · exact roundsTo_fast s hm hfast.1 hfast.2
  · have hexp : (if s then Int.negOfNat e else Int.ofNat e) = if s then -(e : Int) else e := by
      cases s <;> simp [Int.negOfNat_eq]
    rw [Float.ofScientific, dif_neg hfast]
    simp only [hexp]
    apply roundsTo_slow hm <;> split <;> omega

/-! ## Reading decimals -/

theorem isInf_eq (f : Float) : f.isInf = decide (magnitude f = .infinite) := by
  have h : f.isInf = f.toModel.unpack.isInf := rfl
  rw [h, unpack_toModel f]
  cases magnitude f with
  | notANumber => rfl
  | infinite => rfl
  | finite m q =>
    by_cases hm : 0 < m <;> simp [finite, hm, UnpackedFloat.isInf]

theorem RoundsTo.neg {x : ℚ} {f : Float} (h : RoundsTo .positive x f) :
    RoundsTo .negative x (-f) := by
  obtain ⟨hsign, n, m, q, hround, hsame, hc, hmag⟩ := h
  have hnumber : magnitude f ≠ .notANumber := by
    rw [hmag]
    split <;> simp
  refine ⟨?_, n, m, q, hround, hsame, hc, (magnitude_neg f).trans hmag⟩
  rw [signOf_neg hnumber, hsign]
  rfl

theorem length_toDigits_bounds {m : Nat} (hm : 0 < m) :
    (10 : ℚ) ^ (((Nat.toDigits 10 m).length : Int) - 1) ≤ m ∧
      (m : ℚ) < 10 ^ ((Nat.toDigits 10 m).length : Int) := by
  have hpos : 0 < (Nat.toDigits 10 m).length := Nat.length_toDigits_pos
  obtain ⟨k, hk⟩ := Nat.exists_eq_add_of_lt hpos
  rw [hk]
  constructor
  · have hle : 10 ^ k ≤ m := by
      by_contra hlt
      cases k with
      | zero => simp_all
      | succ k =>
        have := (Nat.length_toDigits_le_iff (by decide : 1 < 10) (by omega)).mpr (by omega : m < 10 ^ (k + 1))
        omega
    rw [show ((0 + k + 1 : Nat) : Int) - 1 = k by push_cast; ring, zpow_natCast]
    exact_mod_cast hle
  · rw [zpow_natCast]
    exact_mod_cast (Nat.length_toDigits_le_iff (by decide) (by omega)).mp hk.le

/-- A decimal of the size of doubles is read as the double it is rounded to. -/
theorem roundsTo_value {d : Decimal} (hm : 0 < d.mantissa) (he : d.exponent.natAbs ≤ 2048)
    (hle : (10 : ℚ) ^ (-330 : Int) ≤ decimal d.mantissa d.exponent)
    (hlt : decimal d.mantissa d.exponent < (10 : ℚ) ^ (310 : Int)) :
    RoundsTo (if d.negative then .negative else .positive) (decimal d.mantissa d.exponent)
        d.value.1 ∧
      d.value.2 = decide (magnitude d.value.1 = .infinite) := by
  obtain ⟨hlow, hhigh⟩ := length_toDigits_bounds hm
  have hpow : (0 : ℚ) < 10 ^ d.exponent := zpow_pos (by norm_num) _
  have hsmall : ¬ Int.ofNat (Nat.toDigits 10 d.mantissa).length + d.exponent < -330 := by
    have h := lt_of_le_of_lt hle (mul_lt_mul_of_pos_right hhigh hpow)
    rw [← zpow_add₀ (by norm_num), zpow_lt_zpow_iff_right₀ (by norm_num)] at h
    exact not_lt.mpr h.le
  have hlarge : ¬ Int.ofNat (Nat.toDigits 10 d.mantissa).length + d.exponent > 310 := by
    have h := lt_of_le_of_lt (mul_le_mul_of_nonneg_right hlow hpow.le) hlt
    rw [← zpow_add₀ (by norm_num), zpow_lt_zpow_iff_right₀ (by norm_num)] at h
    rw [Int.ofNat_eq_natCast]
    omega
  have hexp : (if decide (d.exponent < 0) then -(d.exponent.natAbs : Int) else d.exponent.natAbs) =
      d.exponent := by
    split <;> rename_i h <;> simp only [decide_eq_true_eq] at h <;> omega
  have hround := roundsTo_ofScientific (d.exponent < 0) hm he
  rw [hexp] at hround
  have hzero : (d.mantissa == 0) = false := by simp [hm.ne']
  simp only [Decimal.value, hzero, Bool.false_or, decide_eq_true_eq, if_neg hsmall, if_neg hlarge,
    isInf_eq]
  cases d.negative with
  | true => exact ⟨hround.neg, by simp⟩
  | false => exact ⟨hround, rfl⟩

end ConsoleScript.Number
