import ConsoleScript.Proofs.Number.Writing

/-!
# Numbers that last

A number is written with few digits, so that another number may be read from its text. That number
mostly has the same text. It does not if the text shows an exponent but stands for a whole number
that is written in full, and there is one more exception among the least numbers.
-/

namespace ConsoleScript

open Float.Model Float.Model.UnpackedFloat

namespace Number

/-! ## Whole parts -/

theorem wholePart_spec (m : Nat) (q : Int) :
    (wholePart m q : ℚ) ≤ m * 2 ^ q ∧ (m : ℚ) * 2 ^ q < wholePart m q + 1 := by
  rw [wholePart]
  split
  · rename_i h
    obtain ⟨k, rfl⟩ : ∃ k : Nat, q = -(k : Int) := ⟨q.natAbs, by omega⟩
    have hpow : (0 : ℚ) < 2 ^ k := by positivity
    rw [Int.natAbs_neg, Int.natAbs_natCast, Nat.shiftRight_eq_div_pow, zpow_neg, zpow_natCast,
      ← div_eq_mul_inv]
    constructor
    · have h := @Nat.cast_div_le ℚ _ _ _ m (2 ^ k)
      push_cast at h
      exact h
    · rw [div_lt_iff₀ hpow]
      have h : m < (m / 2 ^ k + 1) * 2 ^ k := 
        (Nat.div_lt_iff_lt_mul (by positivity)).mp (Nat.lt_succ_self _)
      exact_mod_cast h
  · obtain ⟨k, rfl⟩ : ∃ k : Nat, q = k := ⟨q.toNat, by omega⟩
    rw [Int.toNat_natCast, Nat.shiftLeft_eq, zpow_natCast]
    push_cast
    constructor <;> linarith

theorem isWhole_iff (m : Nat) (q : Int) :
    isWhole m q = true ↔ (m : ℚ) * 2 ^ q = wholePart m q := by
  rw [isWhole, wholePart]
  split
  · obtain ⟨k, rfl⟩ : ∃ k : Nat, q = -(k : Int) := ⟨q.natAbs, by omega⟩
    have hpow : (2 : ℚ) ^ k ≠ 0 := by positivity
    rw [Int.natAbs_neg, Int.natAbs_natCast, Nat.shiftRight_eq_div_pow, Nat.one_shiftLeft, zpow_neg,
      zpow_natCast, ← div_eq_mul_inv, div_eq_iff hpow, beq_iff_eq, ← Nat.dvd_iff_mod_eq_zero]
    constructor
    · intro h
      exact_mod_cast (Nat.div_mul_cancel h).symm
    · intro h
      have h : m = m / 2 ^ k * 2 ^ k := by exact_mod_cast h
      exact Dvd.intro_left _ h.symm
  · obtain ⟨k, rfl⟩ : ∃ k : Nat, q = k := ⟨q.toNat, by omega⟩
    rw [Int.toNat_natCast, Nat.shiftLeft_eq, zpow_natCast]
    push_cast
    simp

theorem wholePart_eq {m n : Nat} {q : Int} (h : (m : ℚ) * 2 ^ q = n) : wholePart m q = n := by
  obtain ⟨hle, hlt⟩ := wholePart_spec m q
  rw [h] at hle hlt
  have hle : wholePart m q ≤ n := by exact_mod_cast hle
  have hlt : n < wholePart m q + 1 := by exact_mod_cast hlt
  omega

theorem isWhole_of_eq {m n : Nat} {q : Int} (h : (m : ℚ) * 2 ^ q = n) : isWhole m q = true := by
  rw [isWhole_iff, wholePart_eq h, h]

/-! ## The text of a number -/

/-- A fraction of whole numbers for `m * 2 ^ q`. -/
def ratio (m : Nat) (q : Int) : Nat × Nat :=
  if q < 0 then (m, 1 <<< q.natAbs) else (m <<< q.toNat, 1)

theorem ratio_spec (m : Nat) (q : Int) :
    0 < (ratio m q).2 ∧ ((ratio m q).1 / (ratio m q).2 : ℚ) = m * 2 ^ q := by
  rw [ratio]
  split
  · obtain ⟨k, rfl⟩ : ∃ k : Nat, q = -(k : Int) := ⟨q.natAbs, by omega⟩
    rw [Int.natAbs_neg, Int.natAbs_natCast, Nat.one_shiftLeft, zpow_neg, zpow_natCast]
    refine ⟨by positivity, ?_⟩
    push_cast
    rw [div_eq_mul_inv]
  · obtain ⟨k, rfl⟩ : ∃ k : Nat, q = k := ⟨q.toNat, by omega⟩
    rw [Int.toNat_natCast, Nat.shiftLeft_eq, zpow_natCast]
    refine ⟨one_pos, ?_⟩
    push_cast
    rw [div_one]

def signText (negative : Bool) : Text := if negative then [0x2D] else []

section

variable {f : Float} {m : Nat} {q : Int}

/-- Is `m * 2 ^ q` written in full? -/
def inFull (m : Nat) (q : Int) : Bool := isWhole m q && wholePart m q < wholeBound

theorem toText_eq (hf : magnitude f = .finite m q) :
    toText f =
      if inFull m q then
        if wholePart m q = 0 then [0x30] else signText (isNegative f) ++ Text.ofNat (wholePart m q)
      else signText (isNegative f) ++ Decimal.layOut 6
        (Decimal.stripZeros (Text.ofNat (Decimal.significant 6 (ratio m q).1 (ratio m q).2).1))
        (Decimal.significant 6 (ratio m q).1 (ratio m q).2).2 := by
  have hzero : Text.ofString "0" = [0x30] := rfl
  simp only [toText, hf, inFull, beq_iff_eq, hzero, shownDigits]
  rfl

theorem pos_of_long (hlong : inFull m q = false) : 0 < m := by
  apply Nat.pos_of_ne_zero
  rintro rfl
  have hzero : ((0 : Nat) : ℚ) * 2 ^ q = (0 : Nat) := by simp
  rw [inFull, isWhole_of_eq hzero, wholePart_eq hzero] at hlong
  exact absurd hlong (by decide)

theorem range_of_canonical (hc : Canonical m q) (hq : q ≤ 971) (hm : 0 < m) :
    (2 : ℚ) ^ (-1074 : Int) ≤ m * 2 ^ q ∧ (m : ℚ) * 2 ^ q < 2 ^ (1024 : Int) := by
  have hpow : (0 : ℚ) < 2 ^ q := zpow_pos two_pos q
  constructor
  · have h1 : (2 : ℚ) ^ (-1074 : Int) ≤ 2 ^ q := zpow_le_zpow_right₀ (by norm_num) hc.le
    have h2 : (1 : ℚ) ≤ m := by exact_mod_cast hm
    nlinarith
  · have h1 : (2 : ℚ) ^ q ≤ 2 ^ (971 : Int) := zpow_le_zpow_right₀ (by norm_num) hq
    have h2 : (m : ℚ) < 2 ^ (53 : Int) := by exact_mod_cast hc.lt
    have h3 : (2 : ℚ) ^ (1024 : Int) = 2 ^ (53 : Int) * 2 ^ (971 : Int) := by
      rw [← zpow_add₀ two_ne_zero]
      rfl
    rw [h3]
    exact mul_lt_mul h2 h1 hpow (zpow_pos two_pos _).le

end

/-! ## Powers of two and of ten -/

theorem mul_two_zpow_lt {a b i j : Nat} (h : a * 10 ^ j < b * 2 ^ i) :
    (a : ℚ) * 2 ^ (-(i : Int)) < b * 10 ^ (-(j : Int)) := by
  rw [zpow_neg, zpow_neg, zpow_natCast, zpow_natCast, ← div_eq_mul_inv, ← div_eq_mul_inv,
    div_lt_div_iff₀ (by positivity) (by positivity)]
  exact_mod_cast h

theorem mul_ten_zpow_lt {a b i j : Nat} (h : a * 2 ^ i < b * 10 ^ j) :
    (a : ℚ) * 10 ^ (-(j : Int)) < b * 2 ^ (-(i : Int)) := by
  rw [zpow_neg, zpow_neg, zpow_natCast, zpow_natCast, ← div_eq_mul_inv, ← div_eq_mul_inv,
    div_lt_div_iff₀ (by positivity) (by positivity)]
  exact_mod_cast h

theorem unit_le_of_lt {x : ℚ} {k : Int} (hx : 0 < x) (h : x < 2 ^ k) :
    unit x ≤ max (k - 53) (-1074) := by
  have hlog : Int.log 2 x < k := (Int.lt_zpow_iff_log_lt (by norm_num) hx).mp (by exact_mod_cast h)
  rw [unit]
  omega

theorem two_zpow_lt {i j : Nat} (h : 10 ^ j < 2 ^ i) :
    (2 : ℚ) ^ (-(i : Int)) < 10 ^ (-(j : Int)) := by
  have h := mul_two_zpow_lt (a := 1) (b := 1) (i := i) (j := j) (by omega)
  rwa [Nat.cast_one, one_mul, one_mul] at h

theorem ten_zpow_lt {i j : Nat} (h : 2 ^ i < 10 ^ j) :
    (10 : ℚ) ^ (-(j : Int)) < 2 ^ (-(i : Int)) := by
  have h := mul_ten_zpow_lt (a := 1) (b := 1) (i := i) (j := j) (by omega)
  rwa [Nat.cast_one, one_mul, one_mul] at h

/-- Powers of two beside powers of ten, where the range of doubles ends. -/
private theorem powers_of_range : 2 ^ 1074 < 10 ^ 324 ∧ 10 ^ 323 < 2 ^ 1074 ∧ 2 ^ 1022 < 10 ^ 317 ∧
    2 ^ 1024 < 10 ^ 309 ∧ 2 * 2 ^ 1024 < 359539 * 10 ^ 303 ∧
    179769 * 10 ^ 303 + 2 ^ 971 < 2 ^ 1024 := by decide +kernel

theorem ten_zpow_lt_least : (10 : ℚ) ^ (-324 : Int) < 2 ^ (-1074 : Int) :=
  ten_zpow_lt (i := 1074) (j := 324) powers_of_range.1

theorem least_lt_ten_zpow : (2 : ℚ) ^ (-1074 : Int) < 10 ^ (-323 : Int) :=
  two_zpow_lt (i := 1074) (j := 323) powers_of_range.2.1

theorem ten_zpow_lt_full : (10 : ℚ) ^ (-317 : Int) < 2 ^ (-1022 : Int) :=
  ten_zpow_lt (i := 1022) (j := 317) powers_of_range.2.2.1

theorem unit_le {x : ℚ} (hx : 0 < x) : unit x = -1074 ∨ (2 : ℚ) ^ unit x ≤ x / 2 ^ 52 := by
  by_cases h : unit x = -1074
  · exact .inl h
  · have hfull := (unit_bounds hx).2 h
    have hpow : (0 : ℚ) < 2 ^ unit x := zpow_pos two_pos _
    right
    rw [le_div_iff₀ (by positivity)]
    rwa [le_div_iff₀ hpow, mul_comm] at hfull

theorem RoundsTo.exists_whole {s : Sign} {n : Nat} {g : Float} (h : RoundsTo s n g) (hn : 0 < n)
    (hlt : n < 2 ^ 53) : ∃ m q, magnitude g = .finite m q ∧ (m : ℚ) * 2 ^ q = n := by
  have hnat : (UInt64.ofNat n).toNat = n := Nat.mod_eq_of_lt (Nat.lt_trans hlt (by decide))
  obtain ⟨m, q, hmag, hfull, hsame⟩ :=
    magnitude_toFloat (n := UInt64.ofNat n) (by rwa [hnat]) (by rwa [hnat])
  rw [SameValue, hnat, zpow_zero, mul_one] at hsame
  obtain ⟨hc, hq, -⟩ := bits_of_finite hmag
  exact ⟨m, q, h.of_eq hc (by omega) hq hsame, hsame.symm⟩

end Number

/-! ## Six digits and the number they are read as -/

namespace Decimal

open Number

variable {d : Nat} {p : Int} {x : ℚ}

theorem Shown.bounds (h : Shown x d p) :
    (10 : ℚ) ^ (p - 2) < x ∧ x < 10 ^ p ∧ (10 : ℚ) ^ (p - 1) ≤ sixDigits d p ∧
      sixDigits d p ≤ 10 ^ p - 10 ^ (p - 6) := by
  have h2 : (10 : ℚ) ^ (p - 2) = 10 ^ 4 * 10 ^ (p - 6) := zpow_eq_mul 4 (by omega)
  have h1 : (10 : ℚ) ^ (p - 1) = 10 ^ 5 * 10 ^ (p - 6) := zpow_eq_mul 5 (by omega)
  have h0 : (10 : ℚ) ^ p = 10 ^ 6 * 10 ^ (p - 6) := zpow_eq_mul 6 (by omega)
  have hpos : (0 : ℚ) < 10 ^ (p - 6) := zpow_pos (by norm_num) _
  obtain ⟨hnear₁, hnear₂⟩ := abs_le.mp h.near
  have hge : (10 ^ 5 : ℚ) ≤ d := by exact_mod_cast h.lower
  have hlt : (d : ℚ) + 1 ≤ 10 ^ 6 := by exact_mod_cast h.upper
  have hlow := mul_le_mul_of_nonneg_right hge hpos.le
  have hhigh := mul_le_mul_of_nonneg_right hlt hpos.le
  rw [sixDigits] at hnear₁ hnear₂ ⊢
  rw [h2, h1, h0]
  refine ⟨by linarith, by linarith, hlow, by linarith⟩

theorem Shown.pos (h : Shown x d p) : 0 < sixDigits d p :=
  lt_of_lt_of_le (zpow_pos (by norm_num) _) h.bounds.2.2.1

theorem Shown.point_range (h : Shown x d p) (hle : (2 : ℚ) ^ (-1074 : Int) ≤ x)
    (hlt : x < 2 ^ (1024 : Int)) : -323 ≤ p ∧ p ≤ 310 := by
  obtain ⟨h2, h0, -, -⟩ := h.bounds
  have hlarge : (2 : ℚ) ^ (1024 : Int) < 10 ^ (309 : Int) := by
    exact_mod_cast powers_of_range.2.2.2.1
  have h3 := lt_trans (lt_of_lt_of_le ten_zpow_lt_least hle) h0
  have h4 := lt_trans h2 (lt_trans hlt hlarge)
  rw [zpow_lt_zpow_iff_right₀ (by norm_num)] at h3 h4
  omega

private theorem greatest_lt : (2 : ℚ) ^ (1024 : Int) < 179769.5 * 10 ^ (303 : Int) := by
  have h : (2 * 2 ^ 1024 : ℚ) < 359539 * 10 ^ 303 := by
    exact_mod_cast powers_of_range.2.2.2.2.1
  rw [show (1024 : Int) = (1024 : Nat) from rfl, show (303 : Int) = (303 : Nat) from rfl,
    zpow_natCast, zpow_natCast]
  generalize (2 : ℚ) ^ 1024 = a at h ⊢
  generalize (10 : ℚ) ^ 303 = b at h ⊢
  linarith

theorem Shown.le_greatest (h : Shown x d p) (hp : p ≤ 310) (hlt : x < 2 ^ (1024 : Int)) :
    sixDigits d p ≤ 179769 * 10 ^ (303 : Int) := by
  obtain ⟨h2, h0, h1, hupper⟩ := h.bounds
  have hx := lt_trans hlt greatest_lt
  have hpow : (0 : ℚ) < 10 ^ (p - 6) := zpow_pos (by norm_num) _
  have hpos : (0 : ℚ) < 10 ^ (303 : Int) := zpow_pos (by norm_num) _
  by_cases hsmall : p ≤ 308
  · have hle : (10 : ℚ) ^ p ≤ 10 ^ (308 : Int) := zpow_le_zpow_right₀ (by norm_num) hsmall
    have heq : (10 : ℚ) ^ (308 : Int) = 10 ^ 5 * 10 ^ (303 : Int) := zpow_eq_mul 5 (by omega)
    rw [heq] at hle
    generalize (10 : ℚ) ^ (303 : Int) = b at hle hpos ⊢
    linarith
  · have hpoint : p = 309 ∨ p = 310 := by omega
    rcases hpoint with rfl | rfl
    · have hnear := (abs_le.mp h.near).1
      have hd : (d : ℚ) < 179769 + 1 := by
        rw [sixDigits, show (309 : Int) - 6 = 303 from rfl] at hnear
        generalize (10 : ℚ) ^ (303 : Int) = b at hnear hx hpos
        nlinarith
      have hd : d ≤ 179769 := by
        have : d < 179769 + 1 := by exact_mod_cast hd
        omega
      rw [sixDigits, show (309 : Int) - 6 = 303 from rfl]
      apply mul_le_mul_of_nonneg_right _ hpos.le
      exact_mod_cast hd
    · have hlarge : (10 : ℚ) ^ ((310 : Int) - 1) = 10 ^ 6 * 10 ^ (303 : Int) :=
        zpow_eq_mul 6 (by omega)
      have hunit : (10 : ℚ) ^ ((310 : Int) - 6) = 10 ^ 1 * 10 ^ (303 : Int) :=
        zpow_eq_mul 1 (by omega)
      have hnear := (abs_le.mp h.near).1
      rw [hunit] at hnear
      rw [hlarge] at h1
      generalize (10 : ℚ) ^ (303 : Int) = b at hnear h1 hx hpos
      generalize sixDigits d 310 = y at hnear h1
      linarith only [hnear, h1, hx, hpos]

theorem Shown.add_unit_lt (h : Shown x d p) (hp : p ≤ 310) (hlt : x < 2 ^ (1024 : Int)) :
    sixDigits d p + 2 ^ unit (sixDigits d p) / 2 < (2 : ℚ) ^ (1024 : Int) := by
  have hle := h.le_greatest hp hlt
  have hpos := h.pos
  generalize sixDigits d p = y at hle hpos ⊢
  have hgreatest : (179769 * 10 ^ (303 : Int) : ℚ) + 2 ^ (971 : Int) < 2 ^ (1024 : Int) := by
    exact_mod_cast powers_of_range.2.2.2.2.2
  have hsmall : (0 : ℚ) < 2 ^ (971 : Int) := zpow_pos two_pos _
  have hunit : (2 : ℚ) ^ unit y ≤ 2 ^ (971 : Int) := by
    have hlt : y < 2 ^ (1024 : Int) := by
      generalize (2 : ℚ) ^ (1024 : Int) = a at hgreatest ⊢
      generalize (2 : ℚ) ^ (971 : Int) = b at hgreatest hsmall
      linarith only [hle, hgreatest, hsmall]
    apply zpow_le_zpow_right₀ (by norm_num)
    exact unit_le_of_lt hpos hlt
  generalize (2 : ℚ) ^ (1024 : Int) = a at hgreatest ⊢
  generalize (2 : ℚ) ^ (971 : Int) = b at hgreatest hsmall hunit
  linarith only [hle, hgreatest, hsmall, hunit]

variable {s : Sign} {g : Float} {m : Nat} {q : Int}

theorem exponent_of_tiny (hc : Canonical m q) (hm : 0 < m)
    (hlt : (m : ℚ) * 2 ^ q < 2 ^ (-1022 : Int)) : q = -1074 := by
  have hpos : 0 < (m : ℚ) * 2 ^ q := mul_pos (by exact_mod_cast hm) (zpow_pos two_pos q)
  have hunit := unit_le_of_lt hpos hlt
  rw [unit_eq hc hm] at hunit
  exact le_antisymm hunit hc.le

/-- The digits of the least numbers are finer than the numbers themselves. -/
theorem Shown.magnitude_of_tiny (h : Shown (m * 2 ^ q) d p) (hc : Canonical m q) (hm : 0 < m)
    (hp : p ≤ -318) (hg : RoundsTo s (sixDigits d p) g) : magnitude g = .finite m q := by
  obtain ⟨-, hx, -, hupper⟩ := h.bounds
  have hpow : (0 : ℚ) < 10 ^ (p - 6) := zpow_pos (by norm_num) _
  have hsmall : (10 : ℚ) ^ p < 2 ^ (-1022 : Int) := by
    have hle : (10 : ℚ) ^ p ≤ 10 ^ (-317 : Int) := zpow_le_zpow_right₀ (by norm_num) (by omega)
    exact lt_of_le_of_lt hle ten_zpow_lt_full
  obtain rfl := exponent_of_tiny hc hm (lt_trans hx hsmall)
  have hdigits : unit (sixDigits d p) = -1074 :=
    le_antisymm (unit_le_of_lt h.pos (lt_trans (by linarith) hsmall)) (le_max_right _ _)
  have hnear : |sixDigits d p / 2 ^ unit (sixDigits d p) - m| < 1 / 2 := by
    have hgrid : (0 : ℚ) < 2 ^ (-1074 : Int) := zpow_pos two_pos _
    have hfine : (10 : ℚ) ^ (p - 6) < 2 ^ (-1074 : Int) := by
      have hle : (10 : ℚ) ^ (p - 6) ≤ 10 ^ (-324 : Int) :=
        zpow_le_zpow_right₀ (by norm_num) (by omega)
      exact lt_of_le_of_lt hle ten_zpow_lt_least
    obtain ⟨h1, h2⟩ := abs_le.mp h.near
    rw [hdigits, div_sub' hgrid.ne', abs_lt, lt_div_iff₀ hgrid, div_lt_iff₀ hgrid]
    generalize (2 : ℚ) ^ (-1074 : Int) = u at hfine h1 h2 ⊢
    constructor <;> linarith only [h1, h2, hfine]
  rw [← hdigits]
  exact hg.of_near (hdigits.symm ▸ hc) (by omega) hnear

theorem Shown.reread_near (h : Shown x d p) (hp : -317 ≤ p) (hd : d = 10 ^ 5 → p ≠ -317)
    (hg : RoundsTo s (sixDigits d p) g) (hmag : magnitude g = .finite m q) :
    |(m : ℚ) * 2 ^ q - sixDigits d p| < 10 ^ (p - 6) / 2 ∧
      (d = 10 ^ 5 → sixDigits d p - m * 2 ^ q < 10 ^ (p - 7) / 2) := by
  obtain ⟨-, -, hlow, hupper⟩ := h.bounds
  have h6 : (10 : ℚ) ^ (p - 6) = 10 ^ 1 * 10 ^ (p - 7) := zpow_eq_mul 1 (by omega)
  have h0 : (10 : ℚ) ^ p = 10 ^ 7 * 10 ^ (p - 7) := zpow_eq_mul 7 (by omega)
  have hpos : (0 : ℚ) < 10 ^ (p - 7) := zpow_pos (by norm_num) _
  have hunit : (2 : ℚ) ^ unit (sixDigits d p) < 10 ^ (p - 6) ∧
      (d = 10 ^ 5 → (2 : ℚ) ^ unit (sixDigits d p) < 10 ^ (p - 7)) := by
    rcases unit_le h.pos with hleast | hle
    · have hfine {k : Int} (hk : -323 ≤ k) : (2 : ℚ) ^ unit (sixDigits d p) < 10 ^ k := by
        rw [hleast]
        exact lt_of_lt_of_le least_lt_ten_zpow (zpow_le_zpow_right₀ (by norm_num) hk)
      exact ⟨hfine (by omega), fun h => hfine (by have := hd h; omega)⟩
    · have hfine : (2 : ℚ) ^ unit (sixDigits d p) < 10 ^ (p - 7) := by
        apply lt_of_le_of_lt hle
        rw [div_lt_iff₀ (by positivity)]
        linarith
      exact ⟨by linarith, fun _ => hfine⟩
  obtain ⟨h1, h2⟩ := abs_le.mp (hg.abs_sub_le hmag)
  refine ⟨abs_lt.mpr ⟨by linarith, by linarith⟩, fun hd => ?_⟩
  linarith [hunit.2 hd]

theorem Shown.significant_reread (h : Shown x d p) (hp : -317 ≤ p) (hd : d = 10 ^ 5 → p ≠ -317)
    (hg : RoundsTo s (sixDigits d p) g) (hmag : magnitude g = .finite m q) :
    significant 6 (ratio m q).1 (ratio m q).2 = (d, p) := by
  obtain ⟨hden, hvalue⟩ := ratio_spec m q
  obtain ⟨hnear, hbelow⟩ := h.reread_near hp hd hg hmag
  apply significant_eq_of_near hden (by omega) h.lower h.upper
  · rwa [hvalue]
  · rwa [hvalue]

/-! ## Texts -/

def Shown.numeral (h : Shown x d p) : Numeral := .ofDigits (.stripZeros h.lower h.upper) p

theorem Shown.roundsTo_reading (h : Shown x d p) (hle : (2 : ℚ) ^ (-1074 : Int) ≤ x)
    (hlt : x < 2 ^ (1024 : Int)) (negative : Bool) :
    RoundsTo (if negative then .negative else .positive) (sixDigits d p)
        (h.numeral.reading negative).value.1 ∧
      (h.numeral.reading negative).value.2 = false := by
  obtain ⟨hp₁, hp₂⟩ := h.point_range hle hlt
  obtain ⟨-, -, hlow, hupper⟩ := h.bounds
  have hvalue : decimal (h.numeral.reading negative).mantissa
      (h.numeral.reading negative).exponent = sixDigits d p := Numeral.value_ofDigits _ p
  have hpow : (0 : ℚ) < 10 ^ (p - 6) := zpow_pos (by norm_num) _
  have hmantissa : 0 < (h.numeral.reading negative).mantissa := by
    apply Nat.pos_of_ne_zero
    intro hzero
    have hpos := h.pos
    rw [← hvalue, decimal, hzero] at hpos
    simp at hpos
  have hexponent := Numeral.natAbs_exponent_ofDigits (.stripZeros h.lower h.upper) p negative
  have hround := roundsTo_value hmantissa (hexponent.trans (by omega))
    (by
      rw [hvalue]
      exact le_trans (zpow_le_zpow_right₀ (by norm_num) (by omega)) hlow)
    (by
      rw [hvalue]
      have : (10 : ℚ) ^ p ≤ 10 ^ (310 : Int) := zpow_le_zpow_right₀ (by norm_num) hp₂
      generalize (10 : ℚ) ^ (310 : Int) = b at this ⊢
      linarith)
  rw [hvalue] at hround
  refine ⟨hround.1, ?_⟩
  obtain ⟨m, q, hmag⟩ := hround.1.exists_finite (h.add_unit_lt hp₂ hlt)
  rw [hround.2, hmag]
  rfl

end Decimal

namespace Number

open Decimal

variable {f g : Float} {m d : Nat} {q p : Int} {x : ℚ}

theorem isNegative_of_signOf {b : Bool} (h : signOf f = if b then .negative else .positive) :
    isNegative f = b := by
  cases b <;> cases hneg : isNegative f <;> simp_all [signOf]

theorem toText_of_significant (hmag : magnitude g = .finite m q) (hlong : inFull m q = false)
    (h : Shown x d p) (hsig : significant 6 (ratio m q).1 (ratio m q).2 = (d, p)) :
    toText g = signText (isNegative g) ++ h.numeral.spell := by
  rw [toText_eq hmag, hlong, hsig, Shown.numeral, Numeral.spell_ofDigits]
  rfl

theorem toText_of_whole {n : Nat} (hmag : magnitude g = .finite m q) (hvalue : (m : ℚ) * 2 ^ q = n)
    (hn : 0 < n) (hlt : n < wholeBound) :
    toText g = signText (isNegative g) ++ Text.ofNat n := by
  have hfull : inFull m q = true := by
    simp [inFull, isWhole_of_eq hvalue, wholePart_eq hvalue, hlt]
  rw [toText_eq hmag, if_pos hfull, wholePart_eq hvalue, if_neg hn.ne']

theorem sixDigits_mul (hp : p ≤ 6) : sixDigits d p * 10 ^ (6 - p).toNat = d := by
  have hpow : (10 : ℚ) ^ (6 - p).toNat = 10 ^ (6 - p) := by
    rw [← zpow_natCast, Int.toNat_of_nonneg (by omega)]
  rw [sixDigits, hpow, mul_assoc, ← zpow_add₀ (by norm_num), sub_add_sub_cancel', sub_self,
    zpow_zero, mul_one]

/-- A whole number that is that near to digits without a place behind the point is what they
stand for. -/
theorem eq_of_near_whole {n : Nat} (hp : p ≤ 6) (hnear : |(n : ℚ) - sixDigits d p| < 10 ^ (p - 6) / 2) :
    d = n * 10 ^ (6 - p).toNat := by
  have hpow : (10 : ℚ) ^ (p - 6) * 10 ^ (6 - p).toNat = 1 := by
    rw [← zpow_natCast, Int.toNat_of_nonneg (by omega), ← zpow_add₀ (by norm_num),
      sub_add_sub_cancel', sub_self, zpow_zero]
  have hpos : (0 : ℚ) < 10 ^ (6 - p).toNat := by positivity
  have hvalue := sixDigits_mul (d := d) hp
  obtain ⟨h1, h2⟩ := abs_lt.mp hnear
  have h1 := mul_lt_mul_of_pos_right h1 hpos
  have h2 := mul_lt_mul_of_pos_right h2 hpos
  have hlt : (d : ℚ) < n * 10 ^ (6 - p).toNat + 1 := by linarith
  have hgt : (n * 10 ^ (6 - p).toNat : ℚ) < d + 1 := by linarith
  have hlt : d < n * 10 ^ (6 - p).toNat + 1 := by exact_mod_cast hlt
  have hgt : n * 10 ^ (6 - p).toNat < d + 1 := by exact_mod_cast hgt
  omega

/-- Large digits are read as a number that is not written in full. -/
theorem le_reread (h : Shown x d p) (hp : 16 ≤ p) {s : Sign} (hg : RoundsTo s (sixDigits d p) g)
    (hmag : magnitude g = .finite m q) : (wholeBound : ℚ) ≤ m * 2 ^ q := by
  obtain ⟨hnear, -⟩ := h.reread_near (by omega) (by omega) hg hmag
  obtain ⟨hnear, -⟩ := abs_lt.mp hnear
  have hpow : (0 : ℚ) < 10 ^ (p - 6) := zpow_pos (by norm_num) _
  have hbound : (wholeBound : ℚ) = 10 ^ 15 := by norm_num [wholeBound]
  by_cases h17 : 17 ≤ p
  · have h1 : (10 : ℚ) ^ (p - 1) = 10 ^ 5 * 10 ^ (p - 6) := zpow_eq_mul 5 (by omega)
    have hlarge : (10 : ℚ) ^ (11 : Int) ≤ 10 ^ (p - 6) :=
      zpow_le_zpow_right₀ (by norm_num) (by omega)
    have hlow := h.bounds.2.2.1
    rw [h1] at hlow
    norm_num at hlarge
    rw [hbound]
    linarith
  · obtain rfl : p = 16 := by omega
    by_cases hd : d = 10 ^ 5
    · have hwhole : sixDigits d 16 = (10 ^ 15 : Nat) := by
        rw [sixDigits, hd]
        norm_num
      rw [hwhole] at hg
      obtain ⟨m', q', hmag', hvalue⟩ := hg.exists_whole (by norm_num) (by norm_num)
      obtain ⟨rfl, rfl⟩ := Magnitude.finite.inj (hmag.symm.trans hmag')
      rw [hvalue, hbound]
      norm_num
    · have hge := h.lower
      have hd : 10 ^ 5 + 1 ≤ d := by omega
      have hd : (10 ^ 5 + 1 : ℚ) ≤ d := by exact_mod_cast hd
      rw [sixDigits] at hnear
      norm_num at hnear
      rw [hbound]
      linarith

theorem toText_reread (h : Shown x d p) (hp : -317 ≤ p) (hd : d = 10 ^ 5 → p ≠ -317)
    (hplace : p ≤ 6 ∨ 16 ≤ p) {s : Sign} (hg : RoundsTo s (sixDigits d p) g)
    (hmag : magnitude g = .finite m q) :
    toText g = signText (isNegative g) ++ h.numeral.spell := by
  have hsig := h.significant_reread hp hd hg hmag
  rcases hplace with hsmall | hlarge
  · by_cases hwhole : ∃ n, d = n * 10 ^ (6 - p).toNat
    · obtain ⟨n, hn⟩ := hwhole
      have hpos : 0 < n := by
        apply Nat.pos_of_ne_zero
        rintro rfl
        have := h.lower
        omega
      have hpoint : 0 < p := by
        by_contra hle
        have hpow : 10 ^ 6 ≤ 10 ^ (6 - p).toNat := Nat.pow_le_pow_right (by decide) (by omega)
        have := h.upper
        have := Nat.mul_le_mul hpos hpow
        omega
      have hvalue : sixDigits d p = n := by
        have hmul := sixDigits_mul (d := d) hsmall
        rw [hn] at hmul ⊢
        push_cast at hmul
        exact mul_right_cancel₀ (by positivity) hmul
      have hlt : n < 10 ^ 6 := by
        have := h.upper
        have := Nat.le_mul_of_pos_right n (Nat.pow_pos (n := (6 - p).toNat) (show 0 < 10 by decide))
        omega
      rw [hvalue] at hg
      obtain ⟨m', q', hmag', heq⟩ := hg.exists_whole hpos (by omega)
      have hbound : n < wholeBound := lt_trans hlt (by decide)
      rw [toText_of_whole hmag' heq hpos hbound, Shown.numeral,
        Numeral.spell_ofDigits_whole _ hpoint hsmall hpos (by rw [hn]; congr 2; omega)]
    · apply toText_of_significant hmag _ h hsig
      apply Bool.eq_false_iff.mpr
      intro hfull
      rw [inFull, Bool.and_eq_true] at hfull
      have hnear := (h.reread_near hp hd hg hmag).1
      rw [(isWhole_iff m q).mp hfull.1] at hnear
      exact hwhole ⟨_, eq_of_near_whole hsmall hnear⟩
  · apply toText_of_significant hmag _ h hsig
    apply Bool.eq_false_iff.mpr
    intro hfull
    rw [inFull, Bool.and_eq_true, decide_eq_true_eq] at hfull
    have hle := le_reread h hlarge hg hmag
    rw [(isWhole_iff m q).mp hfull.1] at hle
    have : wholeBound ≤ wholePart m q := by exact_mod_cast hle
    omega

/-! ## Digits that are read as another text -/

theorem exponent_ne_none (h : Shown x d p) (hp : 7 ≤ p) : h.numeral.exponent = some (p - 1) := by
  rw [Shown.numeral, Numeral.ofDigits, if_pos (by omega)]

theorem toText_reread_ne (h : Shown x d p) (hp₁ : 7 ≤ p) (hp₂ : p ≤ 15) {s : Sign}
    (hg : RoundsTo s (sixDigits d p) g) (b : Bool) :
    toText g ≠ signText b ++ h.numeral.spell := by
  obtain ⟨k, hk⟩ : ∃ k : Nat, p - 6 = k := ⟨(p - 6).toNat, by omega⟩
  have hvalue : sixDigits d p = (d * 10 ^ k : Nat) := by
    rw [sixDigits, hk, zpow_natCast]
    push_cast
    rfl
  have hpos : 0 < d * 10 ^ k := Nat.mul_pos (by have := h.lower; omega) (by positivity)
  have hlt : d * 10 ^ k < wholeBound := by
    have hpow : 10 ^ k ≤ 10 ^ 9 := Nat.pow_le_pow_right (by decide) (by omega)
    have hd := h.upper
    calc d * 10 ^ k ≤ d * 10 ^ 9 := Nat.mul_le_mul_left _ hpow
      _ < 10 ^ 6 * 10 ^ 9 := Nat.mul_lt_mul_of_pos_right hd (by norm_num)
      _ = wholeBound := by norm_num [wholeBound]
  rw [hvalue] at hg
  obtain ⟨m, q, hmag, heq⟩ := hg.exists_whole hpos (lt_trans hlt (by decide))
  rw [toText_of_whole hmag heq hpos hlt]
  intro hsame
  have hmem : (0x65 : UInt8) ∈ signText (isNegative g) ++ Text.ofNat (d * 10 ^ k) := by
    rw [hsame, Numeral.spell, Numeral.power_eq_some _ (exponent_ne_none h hp₁)]
    simp
  rcases List.mem_append.mp hmem with hmem | hmem
  · cases hneg : isNegative g <;> simp [signText, hneg] at hmem
  · exact absurd (Text.isDigits_ofNat _ _ hmem) (by decide)

/-- Does the number lie where digits with an exponent stand for a whole number that is written in
full? -/
def isMiddling (m : Nat) (q : Int) : Bool :=
  1999999 ≤ wholePart (2 * m) q && wholePart m q < 999999500000000

theorem le_wholePart_iff (m n : Nat) (q : Int) : n ≤ wholePart m q ↔ (n : ℚ) ≤ m * 2 ^ q := by
  obtain ⟨hle, hlt⟩ := wholePart_spec m q
  constructor
  · intro h
    have h : (n : ℚ) ≤ wholePart m q := by exact_mod_cast h
    linarith
  · intro h
    have h : (n : ℚ) < wholePart m q + 1 := by linarith
    have h : n < wholePart m q + 1 := by exact_mod_cast h
    omega

theorem isMiddling_iff (m : Nat) (q : Int) :
    isMiddling m q = true ↔ 999999.5 ≤ (m : ℚ) * 2 ^ q ∧ (m : ℚ) * 2 ^ q < 999999500000000 := by
  rw [isMiddling, Bool.and_eq_true, decide_eq_true_eq, decide_eq_true_eq, le_wholePart_iff,
    ← not_le, le_wholePart_iff, not_le]
  push_cast
  constructor <;> rintro ⟨h1, h2⟩ <;> exact ⟨by linarith, h2⟩

private theorem ne_tie (hc : Canonical m q)
    (hsig : significant 6 (ratio m q).1 (ratio m q).2 = (d, p)) (hp : p ≤ 6) :
    (m : ℚ) * 2 ^ q ≠ 999999.5 := by
  intro htie
  have hc' : Canonical (1999999 * 2 ^ 32) (-33) := ⟨by decide, by decide, fun _ => by decide⟩
  have hsame : SameValue m q (1999999 * 2 ^ 32) (-33) := by
    rw [SameValue, htie]
    norm_num
  obtain ⟨rfl, rfl⟩ := hc.eq hc' hsame
  have hclosed : significant 6 (ratio (1999999 * 2 ^ 32) (-33)).1
      (ratio (1999999 * 2 ^ 32) (-33)).2 = (100000, 7) := by decide
  rw [hclosed] at hsig
  obtain ⟨-, rfl⟩ := Prod.mk.inj hsig
  omega

theorem point_of_middling (hc : Canonical m q)
    (hsig : significant 6 (ratio m q).1 (ratio m q).2 = (d, p)) (h : Shown (m * 2 ^ q) d p)
    (hge : 999999.5 ≤ (m : ℚ) * 2 ^ q) (hlt : (m : ℚ) * 2 ^ q < 999999500000000) :
    7 ≤ p ∧ p ≤ 15 := by
  obtain ⟨h2, h0, hlow, hupper⟩ := h.bounds
  obtain ⟨hnear₁, hnear₂⟩ := abs_le.mp h.near
  constructor
  · by_contra hp
    have hp : p ≤ 6 := by omega
    have hne := ne_tie hc hsig hp
    have hpow : (10 : ℚ) ^ p ≤ 10 ^ (6 : Int) := zpow_le_zpow_right₀ (by norm_num) hp
    norm_num at hpow
    by_cases hsix : p = 6
    · subst hsix
      norm_num at hnear₂ hupper
      apply hne
      linarith
    · have hpow : (10 : ℚ) ^ p ≤ 10 ^ (5 : Int) := zpow_le_zpow_right₀ (by norm_num) (by omega)
      norm_num at hpow
      linarith
  · by_contra hp
    by_cases hsixteen : p = 16
    · subst hsixteen
      by_cases hd : d = 10 ^ 5
      · have hbelow := h.below hd
        norm_num at hbelow hlow
        linarith
      · have hge := h.lower
        have hd : 10 ^ 5 + 1 ≤ d := by omega
        have hd : (10 ^ 5 + 1 : ℚ) ≤ d := by exact_mod_cast hd
        rw [sixDigits] at hnear₁
        norm_num at hnear₁
        linarith
    · have hpow : (10 : ℚ) ^ (15 : Int) ≤ 10 ^ (p - 2) :=
        zpow_le_zpow_right₀ (by norm_num) (by omega)
      norm_num at hpow
      linarith

theorem middling_of_point (hlong : inFull m q = false) (h : Shown (m * 2 ^ q) d p) (hp₁ : 7 ≤ p)
    (hp₂ : p ≤ 15) :
    999999.5 ≤ (m : ℚ) * 2 ^ q ∧ (m : ℚ) * 2 ^ q < 999999500000000 := by
  obtain ⟨h2, h0, hlow, hupper⟩ := h.bounds
  obtain ⟨hnear₁, hnear₂⟩ := abs_le.mp h.near
  constructor
  · by_cases hseven : p = 7
    · subst hseven
      by_cases hd : d = 10 ^ 5
      · have hbelow := h.below hd
        norm_num at hbelow hlow
        linarith
      · have hge := h.lower
        have hd : 10 ^ 5 + 1 ≤ d := by omega
        have hd : (10 ^ 5 + 1 : ℚ) ≤ d := by exact_mod_cast hd
        rw [sixDigits] at hnear₁
        norm_num at hnear₁
        linarith
    · have hpow : (10 : ℚ) ^ (6 : Int) ≤ 10 ^ (p - 2) :=
        zpow_le_zpow_right₀ (by norm_num) (by omega)
      norm_num at hpow
      linarith
  · by_cases hfifteen : p = 15
    · subst hfifteen
      have hle : (m : ℚ) * 2 ^ q ≤ 999999500000000 := by
        norm_num at hnear₂ hupper
        linarith
      apply lt_of_le_of_ne hle
      intro heq
      have hwhole : (m : ℚ) * 2 ^ q = (999999500000000 : Nat) := by
        rw [heq]
        norm_num
      rw [inFull, isWhole_of_eq hwhole, wholePart_eq hwhole] at hlong
      exact absurd hlong (by decide)
    · have hpow : (10 : ℚ) ^ p ≤ 10 ^ (14 : Int) := zpow_le_zpow_right₀ (by norm_num) (by omega)
      norm_num at hpow
      linarith

/-! ## The exception among the least numbers -/

theorem exception_iff (hc : Canonical m q) (hm : 0 < m)
    (hsig : significant 6 (ratio m q).1 (ratio m q).2 = (d, p)) (h : Shown (m * 2 ^ q) d p) :
    m = 202403 ∧ q = -1074 ↔ d = 10 ^ 5 ∧ p = -317 := by
  constructor
  · rintro ⟨rfl, rfl⟩
    have hclosed : significant 6 (ratio 202403 (-1074)).1 (ratio 202403 (-1074)).2 =
        (10 ^ 5, -317) := by decide +kernel
    rw [hclosed] at hsig
    obtain ⟨rfl, rfl⟩ := Prod.mk.inj hsig
    exact ⟨rfl, rfl⟩
  · rintro ⟨rfl, rfl⟩
    obtain rfl := exponent_of_tiny hc hm (lt_trans h.bounds.2.1 ten_zpow_lt_full)
    -- Between 10 ^ 6 - 1 / 2 and 10 ^ 6 + 5 times 10 ^ -324 there is one multiple of 2 ^ -1074.
    have hlow : (404804 : Nat) * (2 : ℚ) ^ (-(1074 : Nat) : Int) <
        (1999999 : Nat) * 10 ^ (-(324 : Nat) : Int) := mul_two_zpow_lt (by decide +kernel)
    have hhigh : (1000005 : Nat) * (10 : ℚ) ^ (-(324 : Nat) : Int) <
        (202404 : Nat) * 2 ^ (-(1074 : Nat) : Int) := mul_ten_zpow_lt (by decide +kernel)
    have hnear := (abs_le.mp h.near).2
    have hbelow := h.below rfl
    have hunit : (10 : ℚ) ^ ((-317 : Int) - 6) = 10 ^ 1 * 10 ^ (-(324 : Nat) : Int) :=
      zpow_eq_mul 1 (by decide)
    have hfine : (-317 : Int) - 7 = -(324 : Nat) := rfl
    have hgrid : (-1074 : Int) = -(1074 : Nat) := rfl
    have hpos : (0 : ℚ) < 2 ^ (-(1074 : Nat) : Int) := zpow_pos two_pos _
    rw [sixDigits, hunit, hgrid] at hnear hbelow
    rw [hfine] at hbelow
    generalize (2 : ℚ) ^ (-(1074 : Nat) : Int) = u at hlow hhigh hnear hbelow hpos
    generalize (10 : ℚ) ^ (-(324 : Nat) : Int) = t at hlow hhigh hnear hbelow
    push_cast at hlow hhigh hnear hbelow
    have hgt : (202402 : ℚ) < m := by
      apply lt_of_mul_lt_mul_right _ hpos.le
      linarith
    have hlt : (m : ℚ) < 202404 := by
      apply lt_of_mul_lt_mul_right _ hpos.le
      linarith
    have hgt : 202402 < m := by exact_mod_cast hgt
    have hlt : m < 202404 := by exact_mod_cast hlt
    exact ⟨by omega, rfl⟩

theorem toText_exception_ne (h : Shown x (10 ^ 5) (-317)) {s : Sign}
    (hg : RoundsTo s (sixDigits (10 ^ 5) (-317)) g) :
    toText g ≠ signText (isNegative g) ++ h.numeral.spell := by
  have hlt : sixDigits (10 ^ 5) (-317) < 2 ^ (-1022 : Int) := by
    have hpow : (0 : ℚ) < 10 ^ ((-317 : Int) - 6) := zpow_pos (by norm_num) _
    exact lt_trans (lt_of_le_of_lt h.bounds.2.2.2 (sub_lt_self _ hpow)) ten_zpow_lt_full
  have hunit : unit (sixDigits (10 ^ 5) (-317)) = -1074 :=
    le_antisymm (unit_le_of_lt h.pos hlt) (le_max_right _ _)
  have hmag : magnitude g = .finite 202402 (-1074) := by
    have hlow : (404803 : Nat) * (2 : ℚ) ^ (-(1074 : Nat) : Int) <
        (200000 : Nat) * 10 ^ (-(323 : Nat) : Int) := mul_two_zpow_lt (by decide +kernel)
    have hhigh : (200000 : Nat) * (10 : ℚ) ^ (-(323 : Nat) : Int) <
        (404805 : Nat) * 2 ^ (-(1074 : Nat) : Int) := mul_ten_zpow_lt (by decide +kernel)
    have hgrid : (-1074 : Int) = -(1074 : Nat) := rfl
    have hdigit : (-317 : Int) - 6 = -(323 : Nat) := rfl
    have hpos : (0 : ℚ) < 2 ^ (-(1074 : Nat) : Int) := zpow_pos two_pos _
    have hc : Canonical 202402 (-1074) := ⟨by decide, by decide, fun h => absurd rfl h⟩
    rw [← hunit]
    apply hg.of_near (hunit.symm ▸ hc) (by omega)
    rw [hunit, hgrid, sixDigits, hdigit, div_sub' hpos.ne', abs_lt, lt_div_iff₀ hpos,
      div_lt_iff₀ hpos]
    generalize (2 : ℚ) ^ (-(1074 : Nat) : Int) = u at hlow hhigh ⊢
    generalize (10 : ℚ) ^ (-(323 : Nat) : Int) = t at hlow hhigh ⊢
    push_cast at hlow hhigh ⊢
    constructor <;> linarith
  have hfull : inFull 202402 (-1074) = false := by decide
  rw [toText_eq hmag, hfull, Shown.numeral, Numeral.spell_ofDigits]
  intro hsame
  exact absurd (List.append_cancel_left hsame) (by decide +kernel)

/-! ## Reading a number's text -/

/-- Does the text of a number stand for a number with the same text? -/
def isLasting (f : Float) : Bool :=
  match magnitude f with
  | .finite m q => inFull m q || !(isMiddling m q || (m == 202403 && q == -1074))
  | _ => true

def isMinus (f : Float) : Bool := isNegative f && magnitude f != .finite 0 (-1074)

/-- The numeral of a finite number, and what can be said about reading it. -/
structure Writes (f : Float) (n : Numeral) : Prop where
  text : toText f = signText (isMinus f) ++ n.spell
  fits : (n.reading (isMinus f)).value.2 = false
  same_iff : toText (n.reading (isMinus f)).value.1 = toText f ↔ isLasting f = true

theorem writes_long (hf : magnitude f = .finite m q) (hlong : inFull m q = false)
    (hsig : significant 6 (ratio m q).1 (ratio m q).2 = (d, p)) (h : Shown (m * 2 ^ q) d p) :
    Writes f h.numeral := by
  obtain ⟨hc, hq, -⟩ := bits_of_finite hf
  have hm := pos_of_long hlong
  obtain ⟨hle, hlt⟩ := range_of_canonical hc hq hm
  have hminus : isMinus f = isNegative f := by
    rw [isMinus, hf]
    simp [hm.ne']
  obtain ⟨hround, hfits⟩ := h.roundsTo_reading hle hlt (isNegative f)
  have hneg := isNegative_of_signOf hround.1
  have htext := toText_of_significant hf hlong h hsig
  obtain ⟨m', q', hmag⟩ := hround.exists_finite (h.add_unit_lt (h.point_range hle hlt).2 hlt)
  constructor
  · rw [hminus, htext]
  · rw [hminus, hfits]
  · rw [hminus, htext]
    have hlasting : isLasting f = true ↔ ¬ (7 ≤ p ∧ p ≤ 15) ∧ ¬ (d = 10 ^ 5 ∧ p = -317) := by
      have hmiddling : isMiddling m q = true ↔ 7 ≤ p ∧ p ≤ 15 := by
        rw [isMiddling_iff]
        constructor
        · rintro ⟨h1, h2⟩
          exact point_of_middling hc hsig h h1 h2
        · rintro ⟨h1, h2⟩
          exact middling_of_point hlong h h1 h2
      rw [isLasting, hf, ← hmiddling, ← exception_iff hc hm hsig h]
      simp [hlong, imp_iff_not_or]
    rw [hlasting]
    constructor
    · intro hsame
      constructor
      · rintro ⟨h1, h2⟩
        exact toText_reread_ne h h1 h2 hround _ hsame
      · rintro ⟨rfl, rfl⟩
        apply toText_exception_ne h hround
        rwa [hneg]
    · rintro ⟨hplace, hexception⟩
      by_cases htiny : p ≤ -318
      · have hsame := h.magnitude_of_tiny hc hm htiny hround
        rw [eq_of_magnitude hneg (hsame.trans hf.symm), htext]
      · rw [toText_reread h (by omega) (fun hd hp => hexception ⟨hd, hp⟩) (by omega) hround hmag,
          hneg]

def numeralOfNat (n : Nat) : Numeral where
  whole := Text.ofNat n
  fraction := []
  exponent := none
  nonempty := Text.ofNat_ne_nil n
  digits := by
    rw [List.append_nil]
    exact Text.isDigits_ofNat n

@[simp] theorem spell_numeralOfNat (n : Nat) : (numeralOfNat n).spell = Text.ofNat n := by
  simp [Numeral.spell, Numeral.point, Numeral.power, numeralOfNat]

@[simp] theorem reading_numeralOfNat (n : Nat) (b : Bool) :
    (numeralOfNat n).reading b = ⟨b, n, 0⟩ := by
  simp [Numeral.reading, numeralOfNat, Text.digitsValue_ofNat]

/-- A whole number that is written in full is read back. -/
theorem value_of_full (hf : magnitude f = .finite m q) (hfull : inFull m q = true) (hm : 0 < m) :
    Decimal.value ⟨isNegative f, wholePart m q, 0⟩ = (f, false) := by
  obtain ⟨hc, hq, -⟩ := bits_of_finite hf
  rw [inFull, Bool.and_eq_true, decide_eq_true_eq, isWhole_iff] at hfull
  obtain ⟨hvalue, hlt⟩ := hfull
  have hx : 0 < (m : ℚ) * 2 ^ q := mul_pos (by exact_mod_cast hm) (zpow_pos two_pos q)
  have hpos : 0 < wholePart m q := by
    rw [hvalue] at hx
    exact_mod_cast hx
  have hdecimal : decimal (wholePart m q) 0 = m * 2 ^ q := by
    rw [decimal, zpow_zero, mul_one, hvalue]
  have hone : (1 : ℚ) ≤ decimal (wholePart m q) 0 := by
    rw [hdecimal, hvalue]
    exact_mod_cast hpos
  have hbound : decimal (wholePart m q) 0 < 10 ^ (15 : Int) := by
    have hlt : (wholePart m q : ℚ) < wholeBound := by exact_mod_cast hlt
    rw [hdecimal, hvalue]
    norm_num [wholeBound] at hlt ⊢
    exact hlt
  obtain ⟨hround, hinf⟩ := roundsTo_value (d := ⟨isNegative f, wholePart m q, 0⟩) hpos (by simp)
    (le_trans (zpow_le_one_of_nonpos₀ (by norm_num) (by norm_num)) hone)
    (lt_trans hbound (zpow_lt_zpow_right₀ (by norm_num) (by norm_num)))
  have hmag := hround.of_eq hc hm hq hdecimal
  rw [hmag] at hinf
  exact Prod.ext (eq_of_magnitude (isNegative_of_signOf hround.1) (hmag.trans hf.symm)) hinf

theorem writes_full (hf : magnitude f = .finite m q) (hfull : inFull m q = true) :
    Writes f (numeralOfNat (wholePart m q)) := by
  obtain ⟨hc, hq, -⟩ := bits_of_finite hf
  have hlasting : isLasting f = true := by simp [isLasting, hf, hfull]
  have htext := toText_eq hf
  rw [if_pos hfull] at htext
  by_cases hm : m = 0
  · subst hm
    obtain rfl : q = -1074 := by
      by_contra hne
      exact absurd (hc.full hne) (by decide)
    have hzero : wholePart 0 (-1074) = 0 := rfl
    have hminus : isMinus f = false := by simp [isMinus, hf]
    rw [hzero, if_pos rfl] at htext
    constructor
    · rw [hminus, htext, spell_numeralOfNat, hzero]
      rfl
    · rw [hminus, reading_numeralOfNat, hzero]
      rfl
    · rw [hminus, reading_numeralOfNat, hzero, htext, hlasting]
      decide
  · have hpos : 0 < m := Nat.pos_of_ne_zero hm
    have hminus : isMinus f = isNegative f := by simp [isMinus, hf, hm]
    have hvalue := value_of_full hf hfull hpos
    have hwhole : wholePart m q ≠ 0 := by
      intro hzero
      rw [inFull, Bool.and_eq_true, isWhole_iff, hzero] at hfull
      have hx : 0 < (m : ℚ) * 2 ^ q := mul_pos (by exact_mod_cast hpos) (zpow_pos two_pos q)
      rw [hfull.1] at hx
      simp at hx
    rw [if_neg hwhole] at htext
    constructor
    · rw [hminus, htext, spell_numeralOfNat]
    · rw [hminus, reading_numeralOfNat, hvalue]
    · rw [hminus, reading_numeralOfNat, hvalue]
      simp [hlasting]

theorem exists_writes (hf : magnitude f = .finite m q) : ∃ n, Writes f n := by
  cases hfull : inFull m q with
  | true => exact ⟨_, writes_full hf hfull⟩
  | false =>
    obtain ⟨hc, hq, -⟩ := bits_of_finite hf
    obtain ⟨hden, hvalue⟩ := ratio_spec m q
    obtain ⟨hle, -⟩ := range_of_canonical hc hq (pos_of_long hfull)
    have hsmall : (10 : ℚ) ^ (-399 : Int) ≤ 10 ^ (-324 : Int) :=
      zpow_le_zpow_right₀ (by norm_num) (by norm_num)
    have hshown := shown_significant hden (by
      rw [hvalue]
      exact (lt_of_le_of_lt hsmall ten_zpow_lt_least).le.trans hle)
    rw [hvalue] at hshown
    exact ⟨_, writes_long hf hfull rfl hshown⟩

/-! ## Reading whole numbers -/

variable {k : Nat}

end Number

end ConsoleScript
