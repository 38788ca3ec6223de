import ConsoleScript.Number.Binary
import Mathlib

/-!
# Doubles by sign and magnitude

A double is its sign and its magnitude, and only one double has no number as its magnitude. A
finite magnitude `m * 2 ^ q` is in canonical form: `m` has 53 bits, or fewer with the least
exponent. The operations on doubles are defined on an unpacked form; packing and unpacking are
described here by the sign and the magnitude.
-/

namespace ConsoleScript.Number

open Float.Model Float.Model.UnpackedFloat

/-! ## Dyadic fractions -/

section

variable {m n : Nat} {p q : Int}

theorem log2_mul_two_pow (hm : m ≠ 0) (k : Nat) : (m * 2 ^ k).log2 = m.log2 + k := by
  apply (Nat.log2_eq_iff (by positivity)).mpr
  have hle := Nat.log2_self_le hm
  have hlt := Nat.lt_log2_self (n := m)
  constructor
  · rw [pow_add]
    exact Nat.mul_le_mul_right _ hle
  · rw [show m.log2 + k + 1 = m.log2 + 1 + k by omega, pow_add]
    exact Nat.mul_lt_mul_of_pos_right hlt (by positivity)

def SameValue (m : Nat) (q : Int) (n : Nat) (p : Int) : Prop := (m : ℚ) * 2 ^ q = n * 2 ^ p

theorem SameValue.mul (m : Nat) (h : p ≤ q) : SameValue m q (m * 2 ^ (q - p).toNat) p := by
  rw [SameValue, Nat.cast_mul, Nat.cast_pow, Nat.cast_ofNat, mul_assoc, ← zpow_natCast,
    ← zpow_add₀ two_ne_zero, Int.toNat_of_nonneg (by omega)]
  congr 2
  ring

theorem SameValue.mul_eq (h : SameValue m q n p) (hle : p ≤ q) : n = m * 2 ^ (q - p).toNat := by
  have hpow : (2 : ℚ) ^ q = 2 ^ (q - p).toNat * 2 ^ p := by
    rw [← zpow_natCast, ← zpow_add₀ two_ne_zero, Int.toNat_of_nonneg (by omega)]
    congr 1
    ring
  rw [SameValue, hpow, ← mul_assoc] at h
  have h := mul_right_cancel₀ (zpow_ne_zero p two_ne_zero) h
  exact_mod_cast h.symm

theorem SameValue.top_eq (h : SameValue m q n p) (hm : m ≠ 0) (hn : n ≠ 0) :
    q + (m.log2 : Int) = p + n.log2 := by
  rcases le_total p q with hle | hle
  · rw [h.mul_eq hle, log2_mul_two_pow hm]
    omega
  · rw [SameValue.mul_eq h.symm hle, log2_mul_two_pow hn]
    omega

theorem SameValue.ne_zero (h : SameValue m q n p) (hm : m ≠ 0) : n ≠ 0 := by
  intro hn
  rw [SameValue, hn, Nat.cast_zero, zero_mul, mul_eq_zero] at h
  rcases h with h | h
  · exact hm (by exact_mod_cast h)
  · exact zpow_ne_zero q two_ne_zero h

end

/-! ## Bit fields -/

private theorem toNat_unpackMantissa (b : BitVec Format.binary64.numBits) :
    (unpackMantissa b).toNat = b.toNat % 2 ^ 52 := by
  simp [unpackMantissa]

private theorem toNat_unpackExponent (b : BitVec Format.binary64.numBits) :
    (unpackExponent b).toNat = b.toNat / 2 ^ 52 % 2 ^ 11 := by
  simp [unpackExponent, Nat.shiftRight_eq_div_pow]

private theorem toNat_unpackSign (b : BitVec 64) :
    (@unpackSign Format.binary64 b).toNat = b.toNat / 2 ^ 63 := by
  have h := b.isLt
  simp only [unpackSign, BitVec.toNat_cast, BitVec.extractLsb_toNat, Nat.shiftRight_eq_div_pow]
  omega

private theorem toNat_packComponents (s : Sign) (e : BitVec 11) (m : BitVec 52) :
    (packComponents Format.binary64 s e m).toNat =
      s.toBitVec.toNat * 2 ^ 63 + e.toNat * 2 ^ 52 + m.toNat := by
  have he := e.isLt
  have hm := m.isLt
  simp only [packComponents, BitVec.toNat_append]
  rw [← Nat.shiftLeft_add_eq_or_of_lt he, ← Nat.shiftLeft_add_eq_or_of_lt hm]
  simp only [Nat.shiftLeft_eq]
  omega

def signOf (f : Float) : Sign := if isNegative f then .negative else .positive

theorem isNegative_eq (f : Float) : isNegative f = decide (2 ^ 63 ≤ f.toBits.toNat) := by
  have h := f.toBits.toNat_lt
  have hshift : (f.toBits >>> 63).toNat = f.toBits.toNat / 2 ^ 63 := by
    simp [UInt64.toNat_shiftRight, Nat.shiftRight_eq_div_pow]
  rw [isNegative, beq_eq_decide, decide_eq_decide, ← UInt64.toNat_inj, hshift]
  change f.toBits.toNat / 2 ^ 63 = 1 ↔ _
  omega

/-- The bits of a double are those of its sign and the others. -/
theorem toNat_toBits (f : Float) :
    f.toBits.toNat = (if isNegative f then 2 ^ 63 else 0) + f.toBits.toNat % 2 ^ 63 := by
  have h := f.toBits.toNat_lt
  rw [isNegative_eq]
  simp only [decide_eq_true_eq]
  split <;> omega

theorem magnitude_eq (f : Float) :
    magnitude f =
      let field : Nat := f.toBits.toNat % 2 ^ 63 / 2 ^ 52
      let low : Nat := f.toBits.toNat % 2 ^ 52
      if field = 2047 then if low = 0 then .infinite else .notANumber
      else if field = 0 then .finite low (-1074)
      else .finite (low + 2 ^ 52) ((field : Int) - 1075) := by
  have h : f.toBits.toNat % 2 ^ 63 % 2 ^ 52 = f.toBits.toNat % 2 ^ 52 := by omega
  simp only [magnitude, signedBound, beq_iff_eq, Nat.shiftRight_eq_div_pow, Nat.shiftLeft_eq,
    one_mul, Int.ofNat_eq_natCast]
  rw [show 0x8000000000000000 = 2 ^ 63 from rfl, h]

/-- The form in which `m * 2 ^ q` is kept. -/
structure Canonical (m : Nat) (q : Int) : Prop where
  lt : m < 2 ^ 53
  le : -1074 ≤ q
  full : q ≠ -1074 → 2 ^ 52 ≤ m

/-- The bits of a finite magnitude. The leading bit of a full mantissa counts as one in the field
of the exponent. -/
theorem bits_of_finite {f : Float} {m : Nat} {q : Int} (h : magnitude f = .finite m q) :
    Canonical m q ∧ q ≤ 971 ∧ f.toBits.toNat % 2 ^ 63 = m + (q + 1074).toNat * 2 ^ 52 := by
  rw [magnitude_eq] at h
  simp only at h
  split at h
  · split at h <;> exact absurd h (by simp)
  split at h
  all_goals
    obtain ⟨rfl, rfl⟩ := Magnitude.finite.inj h
    refine ⟨⟨?_, ?_, ?_⟩, ?_, ?_⟩ <;> omega

theorem bits_of_infinite {f : Float} (h : magnitude f = .infinite) :
    f.toBits.toNat % 2 ^ 63 = 2047 * 2 ^ 52 := by
  rw [magnitude_eq] at h
  simp only at h
  split at h
  · split at h
    · omega
    · exact absurd h (by simp)
  · split at h <;> exact absurd h (by simp)

theorem bits_of_notANumber {f : Float} (h : magnitude f = .notANumber) :
    f.toBits = 0x7FF8000000000000 := by
  have hvalid := f.toModel.valid.eq_packedNaN
  rw [magnitude_eq] at h
  simp only at h
  split at h
  · rename_i hfield
    split at h
    · exact absurd h (by simp)
    · rename_i hlow
      have hbits : f.toModel.toBits.toBitVec.toNat = f.toBits.toNat := rfl
      apply UInt64.toNat_inj.mp
      rw [← hbits, hvalid ?_ ?_]
      · rfl
      · apply BitVec.eq_of_toNat_eq
        rw [toNat_unpackExponent, hbits]
        change _ = 2047
        omega
      · intro h0
        have h0 := congrArg BitVec.toNat h0
        rw [toNat_unpackMantissa, hbits] at h0
        exact hlow h0
  · split at h <;> exact absurd h (by simp)

theorem eq_of_magnitude {f g : Float} (hsign : isNegative f = isNegative g)
    (h : magnitude f = magnitude g) : f = g := by
  have hbits : f.toBits = g.toBits := by
    match hf : magnitude f with
    | .finite m q =>
      have hm := (bits_of_finite hf).2.2
      have hm' := (bits_of_finite (h ▸ hf)).2.2
      rw [← UInt64.toNat_inj, toNat_toBits f, toNat_toBits g, hsign, hm, hm']
    | .infinite =>
      have hm := bits_of_infinite hf
      have hm' := bits_of_infinite (h ▸ hf)
      rw [← UInt64.toNat_inj, toNat_toBits f, toNat_toBits g, hsign, hm, hm']
    | .notANumber => rw [bits_of_notANumber hf, bits_of_notANumber (h ▸ hf)]
  cases f with
  | ofModel f =>
    cases g with
    | ofModel g =>
      cases f
      cases g
      cases hbits
      rfl

/-! ## Packing -/

def finite (s : Sign) (m : Nat) (q : Int) : UnpackedFloat :=
  if h : 0 < m then .finite s m q h else .zero s

private theorem toNat_implicit (m : BitVec 52) : (1#1 ++ m).toNat = m.toNat + 2 ^ 52 := by
  rw [BitVec.toNat_append, ← Nat.shiftLeft_add_eq_or_of_lt m.isLt]
  simp [Nat.shiftLeft_eq, Nat.add_comm]

private theorem ofBitVec_unpackSign (b : BitVec 64) :
    Sign.ofBitVec (@unpackSign Format.binary64 b) =
      if b.toNat < 2 ^ 63 then .positive else .negative := by
  have h := toNat_unpackSign b
  have hiff : @unpackSign Format.binary64 b = 0#1 ↔ b.toNat < 2 ^ 63 := by
    rw [← BitVec.toNat_inj, h]
    change b.toNat / 2 ^ 63 = 0 ↔ _
    omega
  simp only [Sign.ofBitVec, hiff]

private theorem unpack_eq (b : BitVec 64) :
    UnpackedFloat.unpack Format.binary64 b =
      let s : Sign := if b.toNat < 2 ^ 63 then .positive else .negative
      let field : Nat := b.toNat / 2 ^ 52 % 2 ^ 11
      let low : Nat := b.toNat % 2 ^ 52
      if field = 2047 then if low = 0 then .infinity s else .notANumber
      else if field = 0 then finite s low (-1074)
      else finite s (low + 2 ^ 52) ((field : Int) - 1075) := by
  have hexp := toNat_unpackExponent b
  have hman := toNat_unpackMantissa b
  have hones : @unpackExponent Format.binary64 b = -1#11 ↔ b.toNat / 2 ^ 52 % 2 ^ 11 = 2047 := by
    rw [← BitVec.toNat_inj, hexp]
    rfl
  have hzero : @unpackExponent Format.binary64 b = 0#11 ↔ b.toNat / 2 ^ 52 % 2 ^ 11 = 0 := by
    rw [← BitVec.toNat_inj, hexp]
    rfl
  have hlow : @unpackMantissa Format.binary64 b = 0#52 ↔ b.toNat % 2 ^ 52 = 0 := by
    rw [← BitVec.toNat_inj, hman]
    rfl
  have hbias : Format.binary64.exponentBias = 1023 := rfl
  unfold UnpackedFloat.unpack
  simp only [hones, hzero, hlow, hexp, hman, ofBitVec_unpackSign, toNat_implicit]
  split
  · rfl
  split
  · rename_i h0
    simp only [finite, Nat.pos_iff_ne_zero, dite_not, h0, hbias]
    rfl
  · rw [finite, dif_pos (by omega)]
    congr 1

theorem unpack_toModel (f : Float) :
    f.toModel.unpack = match magnitude f with
      | .notANumber => .notANumber
      | .infinite => .infinity (signOf f)
      | .finite m q => finite (signOf f) m q := by
  have hbits : f.toModel.toBits.toBitVec.toNat = f.toBits.toNat := rfl
  have hfield : f.toBits.toNat / 2 ^ 52 % 2 ^ 11 = f.toBits.toNat % 2 ^ 63 / 2 ^ 52 := by omega
  have hsign : (if f.toBits.toNat < 2 ^ 63 then Sign.positive else .negative) = signOf f := by
    simp only [signOf, isNegative_eq, decide_eq_true_eq, ← Nat.not_lt, ite_not]
  rw [Float.Model.unpack, unpack_eq, magnitude_eq, hbits]
  simp only [hfield, hsign]
  split
  · split <;> rfl
  · split <;> rfl

private theorem toNat_pack_finite (s : Sign) {m : Nat} {q : Int} (hc : Canonical m q) :
    (UnpackedFloat.pack Format.binary64 (finite s m q)).toNat =
      s.toBitVec.toNat * 2 ^ 63
        + if q ≤ 971 then m + (q + 1074).toNat * 2 ^ 52 else 2047 * 2 ^ 52 := by
  obtain ⟨hlt, hle, hfull⟩ := hc
  have hbias : Format.binary64.exponentBias = 1023 := rfl
  rw [finite]
  split
  · rename_i hpos
    have hbiased : (q + Format.binary64.exponentBias
        + Format.binary64.mantissaBitsWithoutImplicit).toNat = (q + 1075).toNat := by
      rw [hbias]
      congr 1
      change q + 1023 + 52 = q + 1075
      ring
    have hbits : m.log2 + 1 = Format.binary64.mantissaBits ↔ 2 ^ 52 ≤ m := by
      change m.log2 + 1 = 53 ↔ _
      rw [← Nat.le_log2 (by omega)]
      have := (Nat.log2_lt (by omega)).mpr hlt
      omega
    simp only [UnpackedFloat.pack, hbiased]
    by_cases hover : 2 ^ 11 ≤ (q + 1075).toNat + 1
    · rw [if_pos hover, packedInfinity, toNat_packComponents, if_neg (by omega), Nat.add_assoc]
      rfl
    rw [if_neg hover, if_pos (show q ≤ 971 by omega)]
    by_cases hm : 2 ^ 52 ≤ m
    · rw [if_pos (hbits.mpr hm), toNat_packComponents, BitVec.toNat_ofNat, BitVec.toNat_ofNat]
      omega
    · have hq : q = -1074 := by
        by_contra hne
        exact hm (hfull hne)
      rw [if_neg (mt hbits.mp hm), toNat_packComponents, BitVec.toNat_ofNat, BitVec.toNat_ofNat, hq]
      omega
  · have hq : q = -1074 := by
      by_contra hne
      exact absurd (hfull hne) (by omega)
    have hm : m = 0 := by omega
    subst hq hm
    rw [UnpackedFloat.pack, packedZero, toNat_packComponents]
    simp

def ofUnpacked (u : UnpackedFloat) : Float := .ofModel (.pack u)

private theorem toBits_ofUnpacked (u : UnpackedFloat) :
    (ofUnpacked u).toBits.toNat = (UnpackedFloat.pack Format.binary64 u).toNat := rfl

/-- What packing makes of a number in canonical form: too large a number becomes infinite. -/
theorem ofUnpacked_finite (s : Sign) {m : Nat} {q : Int} (hc : Canonical m q) :
    signOf (ofUnpacked (finite s m q)) = s ∧
      magnitude (ofUnpacked (finite s m q)) = if q ≤ 971 then .finite m q else .infinite := by
  have hbits := toBits_ofUnpacked (finite s m q)
  rw [toNat_pack_finite s hc] at hbits
  obtain ⟨hlt, hle, hfull⟩ := hc
  have hsmall : (if q ≤ 971 then m + (q + 1074).toNat * 2 ^ 52 else 2047 * 2 ^ 52) < 2 ^ 63 := by
    split <;> omega
  constructor
  · rw [signOf, isNegative_eq, hbits]
    cases s
    · exact if_pos (by simp [Sign.toBitVec])
    · exact if_neg (by simpa [Sign.toBitVec] using hsmall)
  · have hmod : (ofUnpacked (finite s m q)).toBits.toNat % 2 ^ 63 =
        if q ≤ 971 then m + (q + 1074).toNat * 2 ^ 52 else 2047 * 2 ^ 52 := by omega
    have hlow : (ofUnpacked (finite s m q)).toBits.toNat % 2 ^ 52 =
        (if q ≤ 971 then m else 0) % 2 ^ 52 := by
      split at hbits <;> simp only [*, if_true, if_false] <;> omega
    rw [magnitude_eq]
    simp only [hmod, hlow]
    by_cases hq : q ≤ 971
    · simp only [if_pos hq]
      by_cases hm : 2 ^ 52 ≤ m
      · rw [if_neg (by omega), if_neg (by omega)]
        congr 1 <;> omega
      · have hq : q = -1074 := by
          by_contra hne
          exact hm (hfull hne)
        subst hq
        rw [if_neg (by omega), if_pos (by omega)]
        congr 1
        omega
    · simp [if_neg hq]

@[simp] theorem ofUnpacked_infinity (s : Sign) :
    signOf (ofUnpacked (.infinity s)) = s ∧ magnitude (ofUnpacked (.infinity s)) = .infinite := by
  cases s <;> exact ⟨rfl, rfl⟩

@[simp] theorem ofUnpacked_notANumber :
    signOf (ofUnpacked .notANumber) = .positive ∧
      magnitude (ofUnpacked .notANumber) = .notANumber := by
  exact ⟨rfl, rfl⟩

theorem eq_of_signOf {f g : Float} (hsign : signOf f = signOf g)
    (h : magnitude f = magnitude g) : f = g := by
  refine eq_of_magnitude ?_ h
  rw [signOf, signOf] at hsign
  split at hsign <;> split at hsign <;> simp_all

/-- Unpacking and packing gives the double back. -/
theorem ofUnpacked_unpack (f : Float) : ofUnpacked f.toModel.unpack = f := by
  rw [unpack_toModel]
  match h : magnitude f with
  | .finite m q =>
    obtain ⟨hc, hq, -⟩ := bits_of_finite h
    obtain ⟨hsign, hmag⟩ := ofUnpacked_finite (signOf f) hc
    exact eq_of_signOf hsign (by rw [hmag, if_pos hq, h])
  | .infinite =>
    exact eq_of_signOf (ofUnpacked_infinity _).1 ((ofUnpacked_infinity _).2.trans h.symm)
  | .notANumber =>
    have hsign : signOf f = .positive := by
      rw [signOf, isNegative_eq, bits_of_notANumber h]
      rfl
    exact eq_of_signOf (hsign ▸ ofUnpacked_notANumber.1) (ofUnpacked_notANumber.2.trans h.symm)

@[simp] theorem ofBits_toBits (f : Float) : Float.ofBits f.toBits = f := ofUnpacked_unpack f

theorem neg_eq (f : Float) : -f = ofUnpacked f.toModel.unpack.neg := rfl

@[simp] theorem magnitude_neg (f : Float) : magnitude (-f) = magnitude f := by
  rw [neg_eq, unpack_toModel]
  match h : magnitude f with
  | .finite m q =>
    obtain ⟨hc, hq, -⟩ := bits_of_finite h
    have hneg : (finite (signOf f) m q).neg = finite (-signOf f) m q := by
      simp only [finite]
      split <;> rfl
    simp only [hneg, (ofUnpacked_finite _ hc).2, if_pos hq]
  | .infinite => exact (ofUnpacked_infinity _).2
  | .notANumber => exact ofUnpacked_notANumber.2

theorem signOf_neg {f : Float} (h : magnitude f ≠ .notANumber) : signOf (-f) = -signOf f := by
  rw [neg_eq, unpack_toModel]
  match hf : magnitude f with
  | .finite m q =>
    obtain ⟨hc, -, -⟩ := bits_of_finite hf
    have hneg : (finite (signOf f) m q).neg = finite (-signOf f) m q := by
      simp only [finite]
      split <;> rfl
    simp only [hneg, (ofUnpacked_finite _ hc).1]
  | .infinite => exact (ofUnpacked_infinity _).1
  | .notANumber => exact absurd hf h

end ConsoleScript.Number
