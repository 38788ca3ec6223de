import ConsoleScript.Proofs.Number.Numerals
import Mathlib.Data.List.TakeWhile
import Mathlib.Order.Bounds.Defs

/-!
# The grammar of numerals

A text that is read as a number is cut behind the longest numeral it starts with. Numerals are
the texts of the grammar

    [+-]? (digits ('.' digits*)? | '.' digits) ([eE] [+-]? digits)?

where `digits` is a run of at least one digit. The trees of this grammar are defined here, each
with its spelling and with the number that it stands for. A numeral taken apart gives the number
of its tree, and no other text is taken apart.
-/

namespace ConsoleScript

namespace Number

variable {s t more : Text}

/-! ## Trees -/

structure Digits where
  spell : Text
  nonempty : spell ≠ []
  digits : IsDigits spell

inductive SignMark where
  | plus | minus
  deriving DecidableEq

/-- The spelling of an optional sign, `[+-]?`. -/
def SignMark.spell : Option SignMark → Text
  | none => []
  | some .plus => [0x2B]
  | some .minus => [0x2D]

/-- The digits of a numeral, `digits ('.' digits*)? | '.' digits`. -/
inductive Significand where
  | whole (ds : Digits)
  | mixed (ds : Digits) (fs : Text) (digits : IsDigits fs)
  | fraction (ds : Digits)

namespace Significand

/-- Digits with their point. -/
def spell : Significand → Text
  | whole ds => ds.spell
  | mixed ds fs _ => ds.spell ++ 0x2E :: fs
  | fraction ds => 0x2E :: ds.spell

def digits : Significand → Text
  | whole ds => ds.spell
  | mixed ds fs _ => ds.spell ++ fs
  | fraction ds => ds.spell

/-- How many digits stand behind the point. -/
def places : Significand → Nat
  | whole _ => 0
  | mixed _ fs _ => fs.length
  | fraction ds => ds.spell.length

end Significand

/-- The power of ten of a numeral, `[eE] [+-]? digits`. -/
structure Power where
  capital : Bool
  sign : Option SignMark
  digits : Digits

namespace Power

/-- The power with its letter. -/
def spell (p : Power) : Text :=
  (if p.capital then 0x45 else 0x65) :: (SignMark.spell p.sign ++ p.digits.spell)

/-- The exponent that a power stands for. -/
def value (p : Power) : Int :=
  if p.sign = some .minus then -digitsValue p.digits.spell else digitsValue p.digits.spell

end Power

/-- A numeral of the grammar. -/
structure Written where
  sign : Option SignMark
  significand : Significand
  power : Option Power

namespace Written

/-- The text of a numeral. -/
def spell (w : Written) : Text :=
  SignMark.spell w.sign ++ (w.significand.spell ++ w.power.elim [] Power.spell)

/-- The number a numeral stands for. -/
def reading (w : Written) : Decimal :=
  ⟨w.sign = some .minus, digitsValue w.significand.digits,
    w.power.elim 0 Power.value - w.significand.places⟩

end Written

/-! ## Runs of digits and signs -/

theorem isDigits_nil : IsDigits [] := fun _ hb => absurd hb List.not_mem_nil

theorem digitRun_append (hs : IsDigits s) (t : Text) :
    digitRun (s ++ t) = s.length + digitRun t := by
  rw [digitRun, List.takeWhile_append_of_pos hs, List.length_append, digitRun]

theorem digitRun_eq_zero (ht : t.head?.all (!isDigit ·)) : digitRun t = 0 := by
  rw [digitRun, ← List.nil_append t, Numeral.takeWhile_digits isDigits_nil ht, List.length_nil]

theorem take_digitRun (t : Text) : t.take (digitRun t) = t.takeWhile isDigit :=
  (List.prefix_iff_eq_take.mp (List.takeWhile_prefix isDigit)).symm

theorem length_take_digitRun (t : Text) : (t.take (digitRun t)).length = digitRun t := by
  rw [take_digitRun, digitRun]

theorem isDigits_take_digitRun (t : Text) : IsDigits (t.take (digitRun t)) := by
  rw [take_digitRun]
  exact fun b hb => List.mem_takeWhile_imp hb

theorem exists_digits (h : digitRun t ≠ 0) : ∃ ds : Digits, t.take (digitRun t) = ds.spell := by
  refine ⟨⟨t.take (digitRun t), ?_, isDigits_take_digitRun t⟩, rfl⟩
  rw [← List.length_pos_iff, length_take_digitRun]
  omega

theorem Digits.length_pos (ds : Digits) : 0 < ds.spell.length := List.length_pos_iff.mpr ds.nonempty

theorem exists_sign (t : Text) : ∃ sign, t.take (signLength t) = SignMark.spell sign ∧
    (SignMark.spell sign).length = signLength t := by
  cases t with
  | nil => exact ⟨none, rfl, rfl⟩
  | cons b t =>
    by_cases hplus : b = 0x2B
    · subst hplus
      exact ⟨some .plus, rfl, rfl⟩
    by_cases hminus : b = 0x2D
    · subst hminus
      exact ⟨some .minus, rfl, rfl⟩
    · refine ⟨none, ?_, ?_⟩ <;> simp [signLength, isSign, hplus, hminus, SignMark.spell]

theorem signLength_spell (sign : Option SignMark) (ht : t.head?.all (!isSign ·)) :
    signLength (SignMark.spell sign ++ t) = (SignMark.spell sign).length := by
  match sign with
  | some .plus => rfl
  | some .minus => rfl
  | none =>
    cases t with
    | nil => rfl
    | cons b t =>
      have hb : isSign b = false := by simpa using ht
      simp [SignMark.spell, signLength, hb]

theorem isSign_of_isDigit {b : UInt8} (h : isDigit b = true) : isSign b = false := by
  have hle := toNat_of_isDigit h
  simp only [isSign, Bool.or_eq_false_iff, beq_eq_false_iff_ne, ne_eq, ← UInt8.toNat_inj,
    UInt8.reduceToNat]
  omega

theorem Digits.head?_all (ds : Digits) {p : UInt8 → Bool} (hp : ∀ b, isDigit b = true → p b = true)
    (t : Text) : (ds.spell ++ t).head?.all p := by
  obtain ⟨b, rest, hspell⟩ := List.exists_cons_of_ne_nil ds.nonempty
  have hb : isDigit b = true := ds.digits b (by simp [hspell])
  simpa [hspell] using hp b hb

/-! ## Significands -/

namespace Significand

theorem head?_spell_append (m : Significand) (t : Text) : (m.spell ++ t).head?.all (!isSign ·) := by
  have hdigits (ds : Digits) (t : Text) : (ds.spell ++ t).head?.all (!isSign ·) :=
    ds.head?_all (fun b hb => by rw [isSign_of_isDigit hb, Bool.not_false]) t
  cases m with
  | whole ds => exact hdigits ds t
  | mixed ds fs =>
    rw [spell, List.append_assoc]
    exact hdigits ds _
  | fraction ds => rfl

theorem filter_isDigit_spell (m : Significand) : m.spell.filter isDigit = m.digits := by
  cases m with
  | whole ds => exact List.filter_eq_self.mpr ds.digits
  | mixed ds fs hfs =>
    rw [spell, List.filter_append, List.filter_eq_self.mpr ds.digits,
      List.filter_cons_of_neg (by decide), List.filter_eq_self.mpr hfs, digits]
  | fraction ds =>
    rw [spell, List.filter_cons_of_neg (by decide), List.filter_eq_self.mpr ds.digits, digits]

theorem length_fraction (m : Significand) :
    ((m.spell.dropWhile (· != 0x2E)).drop 1).length = m.places := by
  have hdigit (ds : Digits) : ∀ b ∈ ds.spell, (b != 0x2E) = true := by
    intro b hb
    have hdigit := ds.digits b hb
    rw [bne_iff_ne]
    rintro rfl
    exact absurd hdigit (by decide)
  cases m with
  | whole ds =>
    have hall : ds.spell.dropWhile (· != 0x2E) = [] := List.dropWhile_eq_nil_iff.mpr (hdigit ds)
    rw [spell, hall]
    rfl
  | mixed ds fs => simp [spell, List.dropWhile_append_of_pos (hdigit ds), places]
  | fraction ds => simp [spell, places]

theorem digits_ne_nil (m : Significand) : m.digits ≠ [] := by
  cases m with
  | whole ds => exact ds.nonempty
  | mixed ds => exact List.append_ne_nil_of_left_ne_nil ds.nonempty _
  | fraction ds => exact ds.nonempty

end Significand

/-- Does the text start with something that neither a digit nor a point is? -/
def Ends (t : Text) : Prop := t.head?.all fun b => !isDigit b && b != 0x2E

theorem Ends.cons {b : UInt8} (h : Ends (b :: t)) : isDigit b = false ∧ b ≠ 0x2E := by
  simpa [Ends] using h

theorem Ends.digitRun (h : Ends t) : digitRun t = 0 := by
  refine digitRun_eq_zero ?_
  cases t with
  | nil => rfl
  | cons b t => simp [h.cons.1]

theorem unsignedLength_point (hs : IsDigits s) (t : Text) :
    unsignedLength (s ++ 0x2E :: t) =
      if s.length + digitRun t = 0 then (0, 0)
      else (s.length + digitRun t, s.length + 1 + digitRun t) := by
  have hrun : digitRun (s ++ 0x2E :: t) = s.length := by
    rw [digitRun_append hs, digitRun_eq_zero rfl, Nat.add_zero]
  simp only [unsignedLength, hrun, List.drop_left, beq_self_eq_true, if_true, beq_iff_eq]

theorem unsignedLength_whole (hs : IsDigits s) (ht : Ends t) :
    unsignedLength (s ++ t) = (s.length, s.length) := by
  have hrun : digitRun (s ++ t) = s.length := by rw [digitRun_append hs, ht.digitRun, Nat.add_zero]
  cases t with
  | nil => simp only [unsignedLength, hrun, List.drop_left]
  | cons b t =>
    simp only [unsignedLength, hrun, List.drop_left, beq_eq_false_iff_ne.mpr ht.cons.2,
      Bool.false_eq_true, if_false]

theorem unsignedLength_cases (t : Text) :
    (∃ s rest, t = s ++ 0x2E :: rest ∧ IsDigits s) ∨
      ∃ s rest, t = s ++ rest ∧ IsDigits s ∧ s.length = digitRun t ∧ Ends rest := by
  have hsplit := List.take_append_drop (digitRun t) t
  have hhead : (t.drop (digitRun t)).head?.all (!isDigit ·) := by
    have hdrop : t.drop (digitRun t) = t.dropWhile isDigit := by
      have happend : t.takeWhile isDigit ++ t.drop (digitRun t) =
          t.takeWhile isDigit ++ t.dropWhile isDigit := by
        rw [List.takeWhile_append_dropWhile, ← take_digitRun, hsplit]
      exact List.append_cancel_left happend
    rw [hdrop]
    have hnot := List.head?_dropWhile_not isDigit t
    cases h : (t.dropWhile isDigit).head? with
    | none => rfl
    | some b =>
      rw [h] at hnot
      simpa using hnot
  cases hrest : t.drop (digitRun t) with
  | nil =>
    rw [hrest] at hsplit
    exact .inr ⟨_, [], hsplit.symm, isDigits_take_digitRun t, length_take_digitRun t, rfl⟩
  | cons b rest =>
    rw [hrest] at hsplit hhead
    by_cases hb : b = 0x2E
    · subst hb
      exact .inl ⟨_, rest, hsplit.symm, isDigits_take_digitRun t⟩
    · refine .inr ⟨_, b :: rest, hsplit.symm, isDigits_take_digitRun t, length_take_digitRun t, ?_⟩
      simpa [Ends, hb] using hhead

theorem exists_significand (h : (unsignedLength t).1 ≠ 0) : ∃ m : Significand,
    t.take (unsignedLength t).2 = m.spell ∧ m.digits.length = (unsignedLength t).1 ∧
      m.spell.length = (unsignedLength t).2 := by
  obtain ⟨s, rest, rfl, hs⟩ | ⟨s, rest, rfl, hs, -, hrest⟩ := unsignedLength_cases t
  · rw [unsignedLength_point hs] at h ⊢
    by_cases hzero : s.length + digitRun rest = 0
    · rw [if_pos hzero] at h
      exact absurd rfl h
    · rw [if_neg hzero]
      have htake : (s ++ 0x2E :: rest).take (s.length + 1 + digitRun rest) =
          s ++ 0x2E :: rest.take (digitRun rest) := by
        rw [Nat.add_assoc, List.take_length_add_append, Nat.add_comm 1, List.take_succ_cons]
      rw [htake]
      by_cases hempty : s = []
      · subst hempty
        obtain ⟨ds, hds⟩ := exists_digits (t := rest) (by simpa using hzero)
        have hlength : ds.spell.length = digitRun rest := by rw [← hds, length_take_digitRun]
        refine ⟨.fraction ds, by rw [hds]; rfl, ?_, ?_⟩
        · simpa [Significand.digits] using hlength
        · simp [Significand.spell, hlength, Nat.add_comm]
      · refine ⟨.mixed ⟨s, hempty, hs⟩ _ (isDigits_take_digitRun rest), rfl, ?_, ?_⟩
        · simp only [Significand.digits, List.length_append, length_take_digitRun]
        · simp only [Significand.spell, List.length_append, List.length_cons, length_take_digitRun]
          omega
  · rw [unsignedLength_whole hs hrest] at h ⊢
    exact ⟨.whole ⟨s, by simpa using h, hs⟩, List.take_left, rfl, rfl⟩

namespace Significand

/-- In front of what is neither digit nor point a significand is measured to its end. -/
theorem unsignedLength_spell (m : Significand) (ht : Ends t) :
    unsignedLength (m.spell ++ t) = (m.digits.length, m.spell.length) := by
  cases m with
  | whole ds => exact unsignedLength_whole ds.digits ht
  | mixed ds fs hfs =>
    have hpos := ds.length_pos
    rw [spell, List.append_assoc, List.cons_append, unsignedLength_point ds.digits,
      digitRun_append hfs, ht.digitRun, if_neg (by omega)]
    simp only [digits, List.length_append, List.length_cons, Prod.mk.injEq]
    omega
  | fraction ds =>
    have hpos := ds.length_pos
    rw [spell, ← List.nil_append (_ :: _ ++ t), List.cons_append, unsignedLength_point isDigits_nil,
      digitRun_append ds.digits, ht.digitRun, if_neg (by simpa using ds.nonempty)]
    simp only [digits, List.length_nil, List.length_cons, Prod.mk.injEq]
    omega

/-- In front of anything a significand is measured to its end at least. -/
theorem le_unsignedLength (m : Significand) (t : Text) :
    (unsignedLength (m.spell ++ t)).1 ≠ 0 ∧ m.spell.length ≤ (unsignedLength (m.spell ++ t)).2 := by
  cases m with
  | whole ds =>
    have hpos := ds.length_pos
    rw [spell]
    obtain ⟨s, rest, hsplit, hs⟩ | ⟨s, rest, hsplit, hs, hlength, hrest⟩ :=
      unsignedLength_cases (ds.spell ++ t)
    · have hle : ds.spell.length ≤ s.length := by
        have hrun := digitRun_append hs (0x2E :: rest)
        rw [← hsplit, digitRun_append ds.digits, digitRun_eq_zero (t := 0x2E :: rest) rfl] at hrun
        omega
      rw [hsplit, unsignedLength_point hs, if_neg (by omega)]
      dsimp only
      omega
    · rw [digitRun_append ds.digits] at hlength
      rw [hsplit, unsignedLength_whole hs hrest]
      dsimp only
      omega
  | mixed ds fs hfs =>
    have hpos := ds.length_pos
    rw [spell, List.append_assoc, List.cons_append, unsignedLength_point ds.digits,
      digitRun_append hfs, if_neg (by omega)]
    simp only [List.length_append, List.length_cons]
    omega
  | fraction ds =>
    have hpos := ds.length_pos
    rw [spell, ← List.nil_append (_ :: _ ++ t), List.cons_append, unsignedLength_point isDigits_nil,
      digitRun_append ds.digits, if_neg (by simp [ds.nonempty])]
    simp only [List.length_nil, List.length_cons]
    omega

end Significand

/-! ## Powers -/

theorem exponentLength_cons {b : UInt8} (hb : b = 0x65 ∨ b = 0x45) (t : Text) :
    exponentLength (b :: t) = if digitRun (t.drop (signLength t)) = 0 then 0
      else 1 + signLength t + digitRun (t.drop (signLength t)) := by
  have hletter : (b == 0x65 || b == 0x45) = true := by
    simpa [Bool.or_eq_true] using hb
  simp only [exponentLength, hletter, if_true, beq_iff_eq]

theorem exists_power (h : exponentLength t ≠ 0) : ∃ p : Power,
    t.take (exponentLength t) = p.spell ∧ p.spell.length = exponentLength t := by
  cases t with
  | nil => exact absurd rfl h
  | cons b t =>
    by_cases hb : b = 0x65 ∨ b = 0x45
    · rw [exponentLength_cons hb] at h ⊢
      by_cases hzero : digitRun (t.drop (signLength t)) = 0
      · rw [if_pos hzero] at h
        exact absurd rfl h
      · rw [if_neg hzero]
        obtain ⟨sign, hsign, hlength⟩ := exists_sign t
        obtain ⟨ds, hds⟩ := exists_digits hzero
        have hrun : ds.spell.length = digitRun (t.drop (signLength t)) := by
          rw [← hds, length_take_digitRun]
        have hcapital : (if decide (b = 0x45) = true then 0x45 else 0x65) = b := by
          rcases hb with rfl | rfl <;> rfl
        refine ⟨⟨decide (b = 0x45), sign, ds⟩, ?_, ?_⟩
        · rw [Power.spell, hcapital, Nat.add_assoc, Nat.add_comm 1, List.take_succ_cons, List.take_add,
            hsign, hds]
        · rw [Power.spell, List.length_cons, List.length_append, hlength, hrun]
          omega
    · have hletter : (b == 0x65 || b == 0x45) = false := by simpa using hb
      simp [exponentLength, hletter] at h

namespace Power

/-- A power is measured to its end, with the digits that follow. -/
theorem exponentLength_spell (p : Power) (t : Text) :
    exponentLength (p.spell ++ t) = p.spell.length + digitRun t := by
  have hpos := p.digits.length_pos
  have hletter : (if p.capital = true then 0x45 else 0x65 : UInt8) = 0x65 ∨
      (if p.capital = true then 0x45 else 0x65 : UInt8) = 0x45 := by
    cases p.capital <;> simp
  have hhead := p.digits.head?_all (p := (!isSign ·))
    (fun b hb => by rw [isSign_of_isDigit hb, Bool.not_false]) t
  rw [spell, List.cons_append, List.append_assoc, exponentLength_cons hletter,
    signLength_spell _ hhead, List.drop_left, digitRun_append p.digits.digits, if_neg (by omega)]
  simp only [List.length_cons, List.length_append]
  omega

theorem drop_spell (p : Power) : p.spell.drop 1 = SignMark.spell p.sign ++ p.digits.spell := rfl

theorem ends_spell (p : Power) (t : Text) : Ends (p.spell ++ t) := by
  rw [spell]
  cases p.capital <;> rfl

end Power

/-! ## Numerals -/

theorem numeralLength_eq {digits n : Nat}
    (h : unsignedLength (t.drop (signLength t)) = (digits, n)) (hdigits : digits ≠ 0) :
    numeralLength t = signLength t + n + exponentLength (t.drop (signLength t + n)) := by
  rw [numeralLength, h]
  exact if_neg (by simpa using hdigits)

theorem exists_written (h : numeralLength t ≠ 0) :
    ∃ w : Written, w.spell = t.take (numeralLength t) ∧ w.spell.length = numeralLength t := by
  obtain ⟨sign, hsign, hsignLength⟩ := exists_sign t
  obtain ⟨⟨digits, n⟩, hunsigned⟩ : ∃ r, unsignedLength (t.drop (signLength t)) = r := ⟨_, rfl⟩
  have hdigits : digits ≠ 0 := by
    rintro rfl
    rw [numeralLength, hunsigned] at h
    exact h rfl
  obtain ⟨m, hm, -, hmLength⟩ := exists_significand (t := t.drop (signLength t)) (by rwa [hunsigned])
  rw [hunsigned] at hm hmLength
  rw [numeralLength_eq hunsigned hdigits]
  by_cases hexponent : exponentLength (t.drop (signLength t + n)) = 0
  · refine ⟨⟨sign, m, none⟩, ?_, ?_⟩
    · rw [hexponent, Nat.add_zero, List.take_add, hsign, hm]
      simp [Written.spell]
    · simp [Written.spell, hsignLength, hmLength, hexponent]
  · obtain ⟨p, hp, hpLength⟩ := exists_power hexponent
    refine ⟨⟨sign, m, some p⟩, ?_, ?_⟩
    · rw [Nat.add_assoc, List.take_add, List.take_add, hsign, hm, List.drop_drop, hp]
      rfl
    · simp only [Written.spell, List.length_append, Option.elim_some, hsignLength, hmLength, hpLength,
        Nat.add_assoc]

namespace Written

variable (w : Written)

theorem signLength_append (t : Text) :
    signLength (w.spell ++ t) = (SignMark.spell w.sign).length := by
  rw [spell, List.append_assoc, List.append_assoc]
  exact signLength_spell _ (w.significand.head?_spell_append _)

theorem drop_signLength (t : Text) : (w.spell ++ t).drop (signLength (w.spell ++ t)) =
    w.significand.spell ++ (w.power.elim [] Power.spell ++ t) := by
  rw [w.signLength_append, spell, List.append_assoc, List.append_assoc, List.drop_left]

theorem length_spell_le (t : Text) : w.spell.length ≤ numeralLength (w.spell ++ t) := by
  obtain ⟨⟨digits, n⟩, hunsigned⟩ :
    ∃ r, unsignedLength ((w.spell ++ t).drop (signLength (w.spell ++ t))) = r := ⟨_, rfl⟩
  obtain ⟨hdigits, hle⟩ := w.significand.le_unsignedLength (w.power.elim [] Power.spell ++ t)
  rw [← w.drop_signLength, hunsigned] at hdigits hle
  rw [numeralLength_eq hunsigned hdigits, w.signLength_append]
  cases hpower : w.power with
  | none =>
    simp only [spell, hpower, Option.elim_none, List.append_nil, List.length_append]
    omega
  | some p =>
    -- A letter ends the digits, so the power starts where it was written.
    rw [w.drop_signLength, hpower, Option.elim_some,
      w.significand.unsignedLength_spell (p.ends_spell t)] at hunsigned
    cases hunsigned
    have hdrop : (w.spell ++ t).drop ((SignMark.spell w.sign).length + w.significand.spell.length) =
        p.spell ++ t := by
      rw [← List.drop_drop, ← w.signLength_append t, w.drop_signLength, List.drop_left, hpower,
        Option.elim_some]
    rw [hdrop, p.exponentLength_spell]
    simp only [spell, hpower, Option.elim_some, List.length_append]
    omega

theorem head?_spell : (w.spell.head? == some 0x2D) = decide (w.sign = some .minus) := by
  match hsign : w.sign with
  | some .plus => simp [spell, SignMark.spell, hsign]
  | some .minus => simp [spell, SignMark.spell, hsign]
  | none =>
    have hhead := w.significand.head?_spell_append (w.power.elim [] Power.spell)
    rw [spell, hsign, SignMark.spell, List.nil_append]
    cases h : w.significand.spell ++ w.power.elim [] Power.spell with
    | nil => rfl
    | cons b t =>
      rw [h] at hhead
      have hb : isSign b = false := by simpa using hhead
      have hne : b ≠ 0x2D := by
        rintro rfl
        exact absurd hb (by decide)
      simp [hne]

theorem ends_power : Ends (w.power.elim [] Power.spell) := by
  cases w.power with
  | none => rfl
  | some p =>
    have h := p.ends_spell []
    rwa [List.append_nil] at h

theorem exponentLength_power :
    exponentLength (w.power.elim [] Power.spell) = (w.power.elim [] Power.spell).length := by
  cases w.power with
  | none => rfl
  | some p =>
    have h := p.exponentLength_spell []
    rwa [List.append_nil, digitRun_eq_zero rfl, Nat.add_zero] at h

theorem parse?_spell : Decimal.parse? w.spell = some w.reading := by
  have hbody := w.drop_signLength []
  rw [List.append_nil, List.append_nil] at hbody
  have hdigits : (w.significand.digits.length == 0) = false := by simp [w.significand.digits_ne_nil]
  simp only [Decimal.parse?, hbody, w.significand.unsignedLength_spell w.ends_power, List.drop_left,
    List.take_left, w.exponentLength_power, hdigits, bne_self_eq_false, Bool.or_self,
    Bool.false_eq_true, if_false, w.head?_spell, w.significand.filter_isDigit_spell,
    w.significand.length_fraction]
  rw [reading]
  cases w.power with
  | none => simp [digitsValue]
  | some p =>
    have hvalue : p.digits.spell.foldl (fun (acc : Int) b => acc * 10 + (b.toNat - 0x30)) 0 =
        (digitsValue p.digits.spell : Int) := Numeral.foldl_digits p.digits.digits 0
    rw [Option.elim_some, Option.elim_some, p.drop_spell, Power.value]
    cases p.sign with
    | some sign => cases sign <;> simp [SignMark.spell, hvalue, digitsValue]
    | none =>
      obtain ⟨b, rest, hspell⟩ := List.exists_cons_of_ne_nil p.digits.nonempty
      have hb : isSign b = false := isSign_of_isDigit (p.digits.digits b (by simp [hspell]))
      simp only [isSign, Bool.or_eq_false_iff] at hb
      rw [hspell] at hvalue
      simp [SignMark.spell, hspell, hb, hvalue, digitsValue]

end Written

/-- A text is taken apart exactly if it is a numeral, into the number it stands for. -/
theorem parse?_eq_some_iff {d : Decimal} :
    Decimal.parse? t = some d ↔ ∃ w : Written, w.spell = t ∧ w.reading = d := by
  constructor
  · intro h
    obtain ⟨⟨digits, n⟩, hunsigned⟩ : ∃ r, unsignedLength (t.drop (signLength t)) = r := ⟨_, rfl⟩
    have hwhole : digits ≠ 0 ∧ exponentLength (t.drop (signLength t + n)) =
        (t.drop (signLength t + n)).length := by
      rw [Decimal.parse?] at h
      simp only [hunsigned, List.drop_drop] at h
      split at h
      · cases h
      · rename_i hparts
        simpa using hparts
    have hlength : t.length ≤ numeralLength t := by
      rw [numeralLength_eq hunsigned hwhole.1, hwhole.2, List.length_drop]
      omega
    have hpos : 0 < t.length := by
      refine List.length_pos_iff.mpr ?_
      rintro rfl
      cases hunsigned
      exact hwhole.1 rfl
    obtain ⟨w, hw, -⟩ := exists_written (t := t) (by omega)
    rw [List.take_of_length_le hlength] at hw
    refine ⟨w, hw, ?_⟩
    rw [← hw, w.parse?_spell] at h
    exact Option.some.inj h
  · rintro ⟨w, rfl, rfl⟩
    exact w.parse?_spell

/-- What is read of a text is the longest numeral it starts with, and nothing when there is none:

* The length that is cut off is the greatest length of a beginning that is a numeral.
* A text is taken apart exactly if it is a numeral, into the number it stands for.
* So of the texts that are no truth word, blanks in front of them apart, those without a numeral are
  read as zero, and what is cut off from any other is taken apart: it never turns out to be no number. -/
theorem numeralLength_longest (t : Text) :
    IsGreatest {n | n = 0 ∨ ∃ w : Written, w.spell <+: t ∧ w.spell.length = n} (numeralLength t) ∧
    (∀ d, Decimal.parse? t = some d ↔ ∃ w : Written, w.spell = t ∧ w.reading = d) ∧
    let u := t.dropWhile Text.isAsciiBlank
    Text.equalFold u "true" ∧ ofText t = 1.0 ∨ Text.equalFold u "false" ∧ ofText t = 0.0 ∨
      numeralLength u = 0 ∧ ofText t = 0.0 ∨
      ∃ w : Written, u.take (numeralLength u) = w.spell ∧ Decimal.parse? w.spell = some w.reading ∧
        ofText t = w.reading.value.1 := by
  refine ⟨⟨?_, ?_⟩, fun d => parse?_eq_some_iff, ?_⟩
  · by_cases h : numeralLength t = 0
    · exact .inl h
    · obtain ⟨w, hw, hlength⟩ := exists_written h
      exact .inr ⟨w, hw ▸ List.take_prefix _ _, hlength⟩
  · rintro n (rfl | ⟨w, ⟨more, rfl⟩, rfl⟩)
    · exact Nat.zero_le _
    · exact w.length_spell_le more
  · intro u
    have hu : ofText t = if Text.equalFold u "true" then 1.0 else if Text.equalFold u "false" then 0.0
        else (Decimal.parse? (u.take (numeralLength u))).elim 0.0 (·.value.1) := by
      rw [ofText]
      cases Decimal.parse? (u.take (numeralLength u)) <;> rfl
    by_cases htrue : Text.equalFold u "true" = true
    · exact .inl ⟨htrue, by rw [hu, if_pos htrue]⟩
    by_cases hfalse : Text.equalFold u "false" = true
    · exact .inr (.inl ⟨hfalse, by rw [hu, if_neg htrue, if_pos hfalse]⟩)
    rw [if_neg htrue, if_neg hfalse] at hu
    by_cases hnone : numeralLength u = 0
    · refine .inr (.inr (.inl ⟨hnone, ?_⟩))
      rw [hu, hnone, List.take_zero]
      rfl
    · obtain ⟨w, hw, -⟩ := exists_written hnone
      refine .inr (.inr (.inr ⟨w, hw.symm, w.parse?_spell, ?_⟩))
      rw [hu, ← hw, w.parse?_spell, Option.elim_some]

example : numeralLength "-.5e+x" = 3 := by decide

end Number

end ConsoleScript
