import ConsoleScript.Console.Value
import ConsoleScript.Number.Integer
import Mathlib.Data.List.Induction
import Mathlib.Tactic.IntervalCases
import Mathlib.Tactic.Ring

/-!
# Numerals

A numeral is a run of digits, perhaps with a fraction and an exponent. Its spelling is taken apart
again into the same digits. Whole numbers are spelled by their digits alone.
-/

namespace ConsoleScript

/-! ## Digits -/

def digitsValue (t : Text) : Nat := t.foldl (fun acc b => acc * 10 + (b.toNat - 0x30)) 0

theorem digitsValue_append (s t : Text) :
    digitsValue (s ++ t) = digitsValue s * 10 ^ t.length + digitsValue t := by
  induction t using List.reverseRecOn with
  | nil => simp [digitsValue]
  | append_singleton t b ih =>
    simp only [digitsValue, ← List.append_assoc, List.foldl_append, List.foldl_cons,
      List.foldl_nil, List.length_append, List.length_singleton, pow_succ] at ih ⊢
    rw [ih]
    ring

def IsDigits (t : Text) : Prop := ∀ b ∈ t, isDigit b

theorem isDigits_append {s t : Text} : IsDigits (s ++ t) ↔ IsDigits s ∧ IsDigits t := by
  simp only [IsDigits, List.forall_mem_append]

theorem isDigits_replicate (n : Nat) : IsDigits (List.replicate n 0x30) := by
  intro b hb
  obtain ⟨-, rfl⟩ := List.mem_replicate.mp hb
  rfl

theorem digitsValue_replicate (n : Nat) : digitsValue (List.replicate n 0x30) = 0 := by
  induction n with
  | zero => rfl
  | succ n ih => simpa [digitsValue, List.replicate_succ] using ih

theorem toNat_of_isDigit {b : UInt8} (h : isDigit b) : 0x30 ≤ b.toNat ∧ b.toNat ≤ 0x39 := by
  simp only [isDigit, Bool.and_eq_true, decide_eq_true_eq, UInt8.le_iff_toNat_le] at h
  exact h

namespace Text

private theorem byte_digitChar {d : Nat} (h : d < 10) : byte (Nat.digitChar d) = (0x30 + d).toUInt8 := by
  interval_cases d <;> rfl

/-- The last digit of a number stands behind the digits of a tenth of it. -/
theorem ofNat_eq (n : Nat) :
    ofNat n = (if n < 10 then [] else ofNat (n / 10)) ++ [(0x30 + n % 10).toUInt8] := by
  rw [ofNat, Nat.toDigits_eq_if (by decide)]
  split
  · rename_i h
    simp [byte_digitChar h, Nat.mod_eq_of_lt h]
  · simp [ofNat, byte_digitChar (Nat.mod_lt n (by decide))]

theorem ofNat_ne_nil (n : Nat) : ofNat n ≠ [] := by
  rw [ofNat_eq]
  simp

theorem length_ofNat_le_iff {n k : Nat} (hk : 0 < k) : (ofNat n).length ≤ k ↔ n < 10 ^ k := by
  rw [ofNat, List.length_map]
  exact Nat.length_toDigits_le_iff (by decide) hk

private theorem toNat_lastDigit (n : Nat) : (0x30 + n % 10).toUInt8.toNat = 0x30 + n % 10 := by
  change (0x30 + n % 10) % 256 = _
  omega

theorem isDigits_ofNat (n : Nat) : IsDigits (ofNat n) := by
  induction n using Nat.strongRecOn with
  | ind n ih =>
    have hlast : IsDigits [(0x30 + n % 10).toUInt8] := by
      intro b hb
      obtain rfl := List.mem_singleton.mp hb
      have h := toNat_lastDigit n
      simp only [isDigit, Bool.and_eq_true, decide_eq_true_eq, UInt8.le_iff_toNat_le, h]
      change 0x30 ≤ 0x30 + n % 10 ∧ 0x30 + n % 10 ≤ 0x39
      omega
    rw [ofNat_eq, isDigits_append]
    split
    · exact ⟨by simp [IsDigits], hlast⟩
    · exact ⟨ih (n / 10) (by omega), hlast⟩

theorem digitsValue_ofNat (n : Nat) : digitsValue (ofNat n) = n := by
  induction n using Nat.strongRecOn with
  | ind n ih =>
    have hlast : digitsValue [(0x30 + n % 10).toUInt8] = n % 10 := by
      simp only [digitsValue, List.foldl_cons, List.foldl_nil, toNat_lastDigit]
      omega
    rw [ofNat_eq, digitsValue_append, hlast]
    split
    · simp only [digitsValue, List.foldl_nil, Nat.zero_mul, Nat.zero_add]
      omega
    · rw [ih (n / 10) (by omega), List.length_singleton, pow_one]
      omega

theorem isDigits_padZeros {t : Text} (n : Nat) (h : IsDigits t) : IsDigits (padZeros n t) :=
  isDigits_append.mpr ⟨isDigits_replicate _, h⟩

theorem digitsValue_padZeros (n : Nat) (t : Text) : digitsValue (padZeros n t) = digitsValue t := by
  have hzeros : digitsValue (List.replicate (n - t.length) (byte '0')) = 0 :=
    digitsValue_replicate _
  rw [padZeros, digitsValue_append, hzeros, Nat.zero_mul, Nat.zero_add]

theorem ofNat_mul_pow {n : Nat} (hn : 0 < n) (k : Nat) :
    ofNat (n * 10 ^ k) = ofNat n ++ List.replicate k 0x30 := by
  induction k with
  | zero => simp
  | succ k ih =>
    have hpow : n * 10 ^ (k + 1) = 10 * (n * 10 ^ k) := by ring
    have hpos : 0 < n * 10 ^ k := Nat.mul_pos hn (by positivity)
    rw [hpow, ofNat_eq, if_neg (by omega), Nat.mul_div_cancel_left _ (by decide),
      Nat.mul_mod_right, ih, List.replicate_succ', List.append_assoc]
    rfl

end Text

/-! ## Spellings -/

structure Numeral where
  whole : Text
  fraction : Text
  exponent : Option Int
  nonempty : whole ≠ []
  digits : IsDigits (whole ++ fraction)

namespace Numeral

variable (n : Numeral)

def point : Text := if n.fraction.isEmpty then [] else 0x2E :: n.fraction

def power : Text := n.exponent.elim [] Decimal.exponentText

/-- The numeral as a text. -/
def spell : Text := n.whole ++ (n.point ++ n.power)

theorem takeWhile_digits {s t : Text} (hs : IsDigits s) (ht : t.head?.all (!isDigit ·)) :
    (s ++ t).takeWhile isDigit = s := by
  rw [List.takeWhile_append_of_pos hs]
  cases t with
  | nil => simp
  | cons b t =>
    simp only [List.head?_cons, Option.all_some, Bool.not_eq_true'] at ht
    simp [ht]

theorem head?_power : n.power.head?.all (!isDigit ·) := by
  cases h : n.exponent with
  | none => simp [power, h]
  | some e =>
    simp only [power, h, Option.elim_some, Decimal.exponentText]
    split <;> rfl

theorem head?_point_power : (n.point ++ n.power).head?.all (!isDigit ·) := by
  rw [point]
  split
  · exact n.head?_power
  · rfl

theorem isDigits_whole : IsDigits n.whole := (isDigits_append.mp n.digits).1

theorem isDigits_fraction : IsDigits n.fraction := (isDigits_append.mp n.digits).2

theorem unsignedLength_spell :
    Number.unsignedLength n.spell =
      ((n.whole ++ n.fraction).length, (n.whole ++ n.point).length) := by
  have hwhole : Number.digitRun n.spell = n.whole.length := by
    rw [Number.digitRun, spell, takeWhile_digits n.isDigits_whole n.head?_point_power]
  have hpos : 0 < n.whole.length := List.length_pos_iff.mpr n.nonempty
  have hdrop : n.spell.drop n.whole.length = n.point ++ n.power := List.drop_left
  simp only [Number.unsignedLength, hwhole, hdrop]
  by_cases hfraction : n.fraction = []
  · have hpoint : n.point = [] := by simp [point, hfraction]
    have h := n.head?_power
    rw [hpoint, List.nil_append, hfraction]
    cases hpower : n.power with
    | nil => simp
    | cons b rest =>
      have hb : b ≠ 0x2E := by
        intro hb
        cases hexp : n.exponent with
        | none => simp [power, hexp] at hpower
        | some e =>
          simp only [power, hexp, Option.elim_some, Decimal.exponentText] at hpower
          split at hpower <;> cases hpower <;> cases hb
      simp [hb]
  · have hpoint : n.point = 0x2E :: n.fraction := by simp [point, hfraction]
    have hrun : Number.digitRun (n.fraction ++ n.power) = n.fraction.length := by
      rw [Number.digitRun, takeWhile_digits n.isDigits_fraction n.head?_power]
    simp only [hpoint, List.cons_append, hrun, beq_self_eq_true, if_true, List.length_append,
      List.length_cons]
    rw [if_neg (by simp [n.nonempty])]
    simp only [Prod.mk.injEq, true_and]
    omega

theorem power_eq_some {e : Int} (h : n.exponent = some e) :
    n.power = 0x65 :: (if e < 0 then 0x2D else 0x2B) :: Text.padZeros 2 (Text.ofNat e.natAbs) := by
  simp only [power, h, Option.elim_some, Decimal.exponentText]
  split <;> rfl

theorem exponentLength_power : Number.exponentLength n.power = n.power.length := by
  cases h : n.exponent with
  | none => simp [power, h, Number.exponentLength]
  | some e =>
    have hdigits := Text.isDigits_padZeros 2 (Text.isDigits_ofNat e.natAbs)
    have hrun : Number.digitRun (Text.padZeros 2 (Text.ofNat e.natAbs)) =
        (Text.padZeros 2 (Text.ofNat e.natAbs)).length := by
      rw [Number.digitRun, ← List.append_nil (Text.padZeros 2 _), takeWhile_digits hdigits rfl,
        List.append_nil]
    have hne : Text.padZeros 2 (Text.ofNat e.natAbs) ≠ [] := by
      simp [Text.padZeros, Text.ofNat_ne_nil]
    rw [power_eq_some n h]
    split <;> simp [Number.exponentLength, Number.signLength, Number.isSign, hrun, hne] <;> omega

theorem filter_isDigit_spell : (n.whole ++ n.point).filter isDigit = n.whole ++ n.fraction := by
  rw [List.filter_append, List.filter_eq_self.mpr n.isDigits_whole, point]
  split
  · rename_i h
    rw [List.isEmpty_iff.mp h, List.filter_nil]
  · rw [List.filter_cons_of_neg (by decide), List.filter_eq_self.mpr n.isDigits_fraction]

theorem dropWhile_point :
    (((n.whole ++ n.point).dropWhile (· != 0x2E)).drop 1) = n.fraction := by
  have hdigit : ∀ b ∈ n.whole, (b != 0x2E) = true := by
    intro b hb
    have := n.isDigits_whole b hb
    revert this
    simp only [bne_iff_ne]
    rintro h rfl
    exact absurd h (by decide)
  rw [List.dropWhile_append_of_pos hdigit, point]
  split
  · rename_i h
    simpa using (List.isEmpty_iff.mp h).symm
  · simp

theorem foldl_digits {t : Text} (h : IsDigits t) (k : Nat) :
    t.foldl (fun (acc : Int) b => acc * 10 + (b.toNat - 0x30)) k =
      (t.foldl (fun (acc : Nat) b => acc * 10 + (b.toNat - 0x30)) k : Nat) := by
  induction t generalizing k with
  | nil => rfl
  | cons b t ih =>
    have hb := toNat_of_isDigit (h b (by simp))
    have hstep : (k * 10 + (b.toNat - 0x30) : Int) = ((k * 10 + (b.toNat - 0x30) : Nat) : Int) := by
      omega
    rw [List.foldl_cons, List.foldl_cons, hstep]
    exact ih (fun b hb => h b (by simp [hb])) _

/-- What reading the numeral behind a sign gives. -/
def reading (negative : Bool) : Decimal :=
  ⟨negative, digitsValue (n.whole ++ n.fraction), n.exponent.getD 0 - n.fraction.length⟩

private theorem parse?_body {t : Text} (h : t.drop (Number.signLength t) = n.spell) :
    Decimal.parse? t = some (n.reading (t.head? == some 0x2D)) := by
  have htail : n.spell.drop (n.whole ++ n.point).length = n.power := by
    rw [spell, ← List.append_assoc, List.drop_left]
  have hbody : n.spell.take (n.whole ++ n.point).length = n.whole ++ n.point := by
    rw [spell, ← List.append_assoc, List.take_left]
  have hpos : ((n.whole ++ n.fraction).length == 0) = false := by simp [n.nonempty]
  simp only [Decimal.parse?, h, n.unsignedLength_spell, htail, hbody, n.exponentLength_power, hpos,
    bne_self_eq_false, Bool.or_self, Bool.false_eq_true, if_false, n.filter_isDigit_spell,
    n.dropWhile_point]
  rw [reading]
  cases hexp : n.exponent with
  | none => simp [power, hexp, digitsValue]
  | some e =>
    have hvalue := foldl_digits (Text.isDigits_padZeros 2 (Text.isDigits_ofNat e.natAbs)) 0
    rw [power_eq_some n hexp]
    change _ = ((digitsValue (Text.padZeros 2 (Text.ofNat e.natAbs)) : Nat) : Int) at hvalue
    rw [Text.digitsValue_padZeros, Text.digitsValue_ofNat, Nat.cast_zero] at hvalue
    by_cases he : e < 0
    · simp [he, hvalue, digitsValue, abs_of_neg he]
    · have hpositive : (e.natAbs : Int) = e := by omega
      simp [he, hvalue, hpositive, digitsValue]

theorem head?_spell : ∃ b, n.spell.head? = some b ∧ isDigit b := by
  cases h : n.whole with
  | nil => exact absurd h n.nonempty
  | cons b rest =>
    refine ⟨b, by simp [spell, h], n.isDigits_whole b (by simp [h])⟩

theorem parse?_spell : Decimal.parse? n.spell = some (n.reading false) := by
  obtain ⟨b, hhead, hb⟩ := n.head?_spell
  have hne : b ≠ 0x2D ∧ b ≠ 0x2B := by
    constructor <;> intro h <;> subst h <;> exact absurd hb (by decide)
  have hsign : Number.signLength n.spell = 0 := by
    simp [Number.signLength, hhead, Number.isSign, hne]
  rw [n.parse?_body (by rw [hsign, List.drop_zero]), hhead]
  simp only [Option.some_beq_some, beq_false_of_ne hne.1]

/-- A numeral behind a minus sign is read as what it spells, with that sign. -/
theorem parse?_minus : Decimal.parse? (0x2D :: n.spell) = some (n.reading true) :=
  n.parse?_body rfl

end Numeral

/-! ## Integers -/

theorem digitsValue?_eq {t : Text} (h : IsDigits t) : digitsValue? 10 t = some (digitsValue t) := by
  induction t using List.reverseRecOn with
  | nil => rfl
  | append_singleton t b ih =>
    obtain ⟨ht, hb⟩ := isDigits_append.mp h
    have hb : isDigit b := hb b (by simp)
    have hle := (toNat_of_isDigit hb).2
    have hlt : b.toNat - 0x30 < 10 := by omega
    have ih := ih ht
    simp only [digitsValue?, digitsValue, List.foldl_append] at ih ⊢
    rw [ih]
    simp [hexValue?, hb, hlt]

namespace Integer

theorem natOfText?_ofNat {limit n : Nat} (h : n < limit) :
    natOfText? limit (Text.ofNat n) = some n := by
  have hne : (Text.ofNat n).isEmpty = false := by simp [Text.ofNat_ne_nil]
  simp [natOfText?, digits?, hne, digitsValue?_eq (Text.isDigits_ofNat n), Text.digitsValue_ofNat, h]

theorem ofText?_ofNat (n : Nat) :
    ofText? (Text.ofNat n) =
      (natOfText? Number.signedBound (Text.ofNat n)).map fun n => Int64.ofInt n := by
  have h := Text.isDigits_ofNat n
  generalize Text.ofNat n = t at h ⊢
  fun_cases ofText? t with
  | case1 rest => exact absurd (h 0x2D (by simp)) (by decide)
  | case2 rest => exact absurd (h 0x2B (by simp)) (by decide)
  | case3 => rfl

/-- An integer that is written is read back. -/
theorem ofText?_textOfInt (i : Int64) : ofText? (Value.textOfInt i) = some i := by
  have hle := i.le_toInt
  have hlt := i.toInt_lt
  rw [Value.textOfInt, Text.ofInt]
  split
  · rename_i h
    have hbound : i.toInt.natAbs < Number.signedBound + 1 := by
      rw [Number.signedBound]
      omega
    have hneg : -(i.toInt.natAbs : Int) = i.toInt := by omega
    have hminus : Text.byte '-' = 0x2D := rfl
    rw [hminus, ofText?, natOfText?_ofNat hbound]
    change some (Int64.ofInt (-(i.toInt.natAbs : Int))) = some i
    rw [hneg, Int64.ofInt_toInt]
  · rename_i h
    have hbound : i.toInt.natAbs < Number.signedBound := by
      rw [Number.signedBound]
      omega
    have hpos : (i.toInt.natAbs : Int) = i.toInt := by omega
    rw [ofText?_ofNat, natOfText?_ofNat hbound]
    change some (Int64.ofInt (i.toInt.natAbs : Int)) = some i
    rw [hpos, Int64.ofInt_toInt]

end Integer

end ConsoleScript
