import ConsoleScript.Cbor.Item
import ConsoleScript.Proofs.Number.Doubles
import Mathlib.Tactic.Linarith

/-!
# Numbers in a narrower width

A number that a narrower width holds is written in it, and widening it again gives back the same
bits. What carries this is that the bits of `m * 2 ^ q` in a width depend on the value alone.
-/

namespace ConsoleScript.Cbor.Width

open Number

variable {w : Width} {m n b : Nat} {p q : Int}

/-- A number in units of `2 ^ p`, if it is a whole number of them. -/
def scaled? (m : Nat) (q p : Int) : Option Nat :=
  if q < p then
    if m % 2 ^ (p - q).toNat = 0 then some (m / 2 ^ (p - q).toNat) else none
  else some (m * 2 ^ (q - p).toNat)

theorem scaled?_eq_some : scaled? m q p = some n ↔ SameValue m q n p := by
  constructor
  · intro h
    rw [scaled?] at h
    split at h
    · split at h
      · rename_i hlt hmod
        obtain rfl := Option.some.inj h
        have hmul := Nat.div_mul_cancel (Nat.dvd_of_mod_eq_zero hmod)
        have hv := SameValue.mul (m / 2 ^ (p - q).toNat) (Int.le_of_lt hlt)
        rw [hmul] at hv
        exact hv.symm
      · cases h
    · obtain rfl := Option.some.inj h
      exact SameValue.mul m (by omega)
  · intro h
    rw [scaled?]
    split
    · rw [SameValue.mul_eq h.symm (by omega)]
      simp
    · rw [h.mul_eq (by omega)]

theorem bitsOf?_eq (w : Width) (hm : m ≠ 0) (q : Int) :
    w.bitsOf? m q =
      let top : Int := q + m.log2
      if (w.bias : Int) < top then none
      else (scaled? m q (max (top - w.fraction) (1 - w.bias - w.fraction))).map fun n =>
        if n < 2 ^ w.fraction then n else n + (top + w.bias - 1).toNat * 2 ^ w.fraction := by
  simp only [bitsOf?, scaled?, beq_iff_eq, hm, if_false, gt_iff_lt]
  generalize max (q + (m.log2 : Int) - w.fraction) (1 - w.bias - w.fraction) = low
  split
  · rfl
  · by_cases h : q < low
    · have hneg : q - low < 0 := by omega
      have habs : (q - low).natAbs = (low - q).toNat := by omega
      simp only [hneg, h, habs, Nat.shiftLeft_eq, Nat.shiftRight_eq_div_pow, one_mul, decide_true,
        Bool.true_and, bne_iff_ne, ne_eq, ite_not, if_true]
      split
      · simp only [Option.map_some]
        split <;> rfl
      · rfl
    · have hneg : ¬ q - low < 0 := by omega
      simp only [hneg, h, Nat.shiftLeft_eq, one_mul, decide_false, Bool.false_and,
        Bool.false_eq_true, if_false, Option.map_some]
      split <;> rfl

theorem bitsOf?_congr (w : Width) (h : SameValue m q n p) : w.bitsOf? m q = w.bitsOf? n p := by
  by_cases hm : m = 0
  · have hn : n = 0 := by
      by_contra hn
      exact SameValue.ne_zero h.symm hn hm
    simp [bitsOf?, hm, hn]
  · have hn := h.ne_zero hm
    have hscaled (low : Int) : scaled? m q low = scaled? n p low := by
      apply Option.ext
      intro k
      rw [scaled?_eq_some, scaled?_eq_some, SameValue, SameValue, h]
    rw [bitsOf?_eq w hm, bitsOf?_eq w hn]
    simp only [h.top_eq hm hn, hscaled]

/-- The two fields that the bits of a number are made of have the value of the number. -/
theorem bitsOf?_fields (h : w.bitsOf? m q = some b) :
    ∃ field low : Nat, b = low + field * 2 ^ w.fraction ∧ low < 2 ^ w.fraction ∧
      field ≤ 2 * w.bias ∧
      SameValue m q (if field = 0 then low else low + 2 ^ w.fraction)
        (((max field 1 : Nat) : Int) - w.bias - w.fraction) := by
  by_cases hm : m = 0
  · have hb : 0 = b := by simpa [bitsOf?, hm] using h
    exact ⟨0, 0, by simp [← hb], by positivity, by omega, by simp [SameValue, hm]⟩
  rw [bitsOf?_eq w hm] at h
  simp only at h
  split at h
  · cases h
  obtain ⟨n, hn, rfl⟩ := Option.map_eq_some_iff.mp h
  have hv := scaled?_eq_some.mp hn
  have hn0 := hv.ne_zero hm
  have heq := hv.top_eq hm hn0
  split
  · rename_i hsmall
    have hlog := (Nat.log2_lt hn0).mpr hsmall
    refine ⟨0, n, by simp, hsmall, by omega, ?_⟩
    rw [if_pos rfl]
    convert hv using 1
    omega
  · rename_i hlarge
    have hlog : n.log2 = w.fraction := by
      have := (Nat.le_log2 hn0).mpr (Nat.le_of_not_lt hlarge)
      omega
    have hlt := Nat.lt_log2_self (n := n)
    rw [hlog, pow_succ] at hlt
    obtain ⟨field, hfield⟩ : ∃ field : Nat, (field : Int) = q + m.log2 + w.bias :=
      ⟨_, Int.toNat_of_nonneg (by omega)⟩
    have hpred : (q + (m.log2 : Int) + w.bias - 1).toNat + 1 = field := by omega
    refine ⟨field, n - 2 ^ w.fraction, ?_, by omega, by omega, ?_⟩
    · rw [← hpred, Nat.add_mul]
      omega
    · rw [if_neg (by omega), Nat.sub_add_cancel (by omega)]
      convert hv using 1
      omega

def double : Width := ⟨52, 11⟩

theorem bitsOf?_double (h : Canonical m q) (hq : q ≤ 971) :
    double.bitsOf? m q = some (m + (q + 1074).toNat * 2 ^ 52) := by
  obtain ⟨hlt, hle, hfull⟩ := h
  by_cases hm : m = 0
  · have hq : q = -1074 := by
      by_contra hne
      exact absurd (hfull hne) (by omega)
    simp [bitsOf?, hm, hq]
  have hbias : (double.bias : Int) = 1023 := rfl
  have hfraction : double.fraction = 52 := rfl
  have hlog := (Nat.log2_lt hm).mpr hlt
  have hfull' : q ≠ -1074 → 52 ≤ m.log2 := fun hne => (Nat.le_log2 hm).mpr (hfull hne)
  have hlow : max (q + (m.log2 : Int) - 52) (1 - 1023 - 52) = q := by omega
  rw [bitsOf?_eq _ hm]
  simp only [hbias, hfraction, Nat.cast_ofNat, hlow]
  rw [if_neg (by omega), scaled?_eq_some.mpr rfl, Option.map_some]
  split
  · have hq : q = -1074 := by
      by_contra hne
      have := hfull hne
      omega
    simp [hq]
  · have h52 := (Nat.le_log2 hm).mpr (Nat.le_of_not_lt ‹_›)
    congr 4
    omega

private theorem two_mul_bias (hexp : 0 < w.exponent) : 2 * w.bias + 2 = 2 ^ w.exponent := by
  have hpow : 2 ^ w.exponent = 2 * 2 ^ (w.exponent - 1) := by
    rw [← pow_succ', Nat.sub_add_cancel hexp]
  have hpos : 0 < 2 ^ (w.exponent - 1) := by positivity
  rw [bias, Nat.shiftLeft_eq, one_mul]
  omega

theorem bitsOf?_lt (hexp : 0 < w.exponent) (h : w.bitsOf? m q = some b) :
    b < 2 ^ (w.fraction + w.exponent) := by
  obtain ⟨field, low, rfl, hlow, hfield, -⟩ := bitsOf?_fields h
  have hbias := two_mul_bias hexp
  have hmul : (field + 1) * 2 ^ w.fraction ≤ 2 ^ w.exponent * 2 ^ w.fraction :=
    Nat.mul_le_mul_right _ (by omega)
  rw [Nat.add_comm w.fraction, pow_add]
  linarith

private theorem div_mod_of_lt {d r : Nat} (a : Nat) (h : r < d) :
    (a * d + r) / d = a ∧ (a * d + r) % d = r := by
  constructor
  · rw [Nat.add_comm, Nat.add_mul_div_right _ _ (by omega), Nat.div_eq_of_lt h, Nat.zero_add]
  · rw [Nat.add_comm, Nat.add_mul_mod_self_right, Nat.mod_eq_of_lt h]

theorem widen_bitsOf? (w : Width) (hexp : 0 < w.exponent) {s : Nat} (hs : s < 2)
    (h : w.bitsOf? m q = some b) :
    w.widen ((s <<< (w.fraction + w.exponent)) + b) =
      ((s <<< 63) + (double.bitsOf? m q).getD 0).toUInt64 := by
  obtain ⟨field, low, rfl, hlow, hfield, hv⟩ := bitsOf?_fields h
  have hbias := two_mul_bias hexp
  have hbits : s * 2 ^ (w.fraction + w.exponent) + (low + field * 2 ^ w.fraction) =
      (s * 2 ^ w.exponent + field) * 2 ^ w.fraction + low := by
    rw [pow_add]
    ring
  obtain ⟨hdiv, hmod⟩ := div_mod_of_lt (s * 2 ^ w.exponent + field) hlow
  obtain ⟨hdiv', hfieldmod⟩ := div_mod_of_lt s (show field < 2 ^ w.exponent by omega)
  have hsign : ((s * 2 ^ w.exponent + field) * 2 ^ w.fraction + low) /
      2 ^ (w.fraction + w.exponent) = s := by
    rw [pow_add, ← Nat.div_div_eq_div_mul, hdiv, hdiv']
  simp only [widen, Nat.shiftRight_eq_div_pow, Nat.shiftLeft_eq, one_mul, hbits, hdiv, hmod,
    hfieldmod, hsign, Nat.mod_eq_of_lt hs, beq_iff_eq]
  rw [if_neg (by omega), ← bitsOf?_congr ⟨52, 11⟩ hv]
  rfl

theorem widen_toBits (w : Width) (hexp : 0 < w.exponent) {f : Float}
    (hf : magnitude f = .finite m q) (h : w.bitsOf? m q = some b) :
    w.widen (((if isNegative f then 1 else 0) <<< (w.fraction + w.exponent)) + b) = f.toBits := by
  obtain ⟨hc, hq, hbits⟩ := bits_of_finite hf
  rw [widen_bitsOf? w hexp (by split <;> decide) h, bitsOf?_double hc hq, Option.getD_some, ← hbits]
  have hsum : (if isNegative f then 1 else 0) <<< 63 + f.toBits.toNat % 2 ^ 63 = f.toBits.toNat := by
    rw [toNat_toBits f]
    split <;> simp [Nat.shiftLeft_eq]
  rw [hsum]
  exact UInt64.ofNat_toNat

end ConsoleScript.Cbor.Width
