import ConsoleScript.Code.Emit
import ConsoleScript.Proofs.Source.Parsing

/-!
# Whole numbers in sources

The code of a whole number carries it in one word of 32 bits. A numeral is one only if it fits, and
the signs in front of it are taken into it afterwards. The opposite of what fits does not always fit:
base sixteen spells the bits of the least integer, and a sign in front makes a number of that which
its word does not hold.
-/

namespace ConsoleScript

/-! ## Words of 32 bits -/

namespace Number

theorem toInt_signExtend_lowWord (i : Int64) :
    (signExtend (lowWord i)).toInt = i.toInt.bmod (UInt32.size : Nat) := by
  have hword : i.toUInt64.toUInt32.toInt32 = Int32.ofInt i.toInt := by
    apply Int32.toBitVec_inj.mp
    change i.toBitVec.setWidth 32 = BitVec.ofInt 32 i.toBitVec.toInt
    apply BitVec.eq_of_toNat_eq
    rw [BitVec.toNat_setWidth, BitVec.toNat_ofInt, BitVec.toInt_eq_toNat_bmod, Int.bmod_def]
    omega
  rw [signExtend, lowWord, hword, Int32.toInt_toInt64, Int32.toInt_ofInt]

/-- Exactly the integers of 32 bits are restored from their low words. -/
theorem signExtend_lowWord_eq_iff (i : Int64) :
    signExtend (lowWord i) = i ↔ -2147483648 ≤ i.toInt ∧ i.toInt < 2147483648 := by
  rw [← Int64.toInt_inj, toInt_signExtend_lowWord]
  have hsize : UInt32.size = 2 ^ 32 := rfl
  rw [hsize, Int.bmod_def]
  omega

theorem toInt_ofInt {v : Int} (h : v.natAbs ≤ 0x80000000) : (Int64.ofInt v).toInt = v := by
  have hsize : Int64.size = 2 ^ 64 := rfl
  rw [Int64.toInt_ofInt, Int.bmod_eq_of_le]
  · omega
  · omega

end Number

/-! ## Numerals -/

/-- The numeral, in base sixteen, spells the highest of 32 bits and no other. -/
def Token.isHighBit (t : Token) : Bool :=
  t.kind == .integer && match t.literal with
    | 0x30 :: x :: digits => (x == 0x78 || x == 0x58) && digitsValue? 16 digits == some 0x80000000
    | _ => false

/-- The whole numbers that can stand in what is parsed of a source. The two of greatest size are there
only if their bits are spelled in base sixteen. -/
def Stands (source : Text) (v : Int) : Prop :=
  v.natAbs < 0x80000000 ∨ v.natAbs = 0x80000000 ∧ ∃ t ∈ Token.all source, t.isHighBit = true

theorem toInt_toInt32_ofNat {n : Nat} (h : n < UInt32.size) : (UInt32.ofNat n).toInt32.toInt =
    if n < 0x80000000 then (n : Int) else n - UInt32.size := by
  change (BitVec.ofNat 32 n).toInt = _
  have hsize : UInt32.size = 2 ^ 32 := rfl
  rw [hsize] at h ⊢
  rw [BitVec.toInt_eq_toNat_bmod, BitVec.toNat_ofNat, Nat.mod_eq_of_lt h, Int.bmod_def]
  split <;> split <;> omega

/-- A whole number read off a numeral fits 32 bits. -/
theorem natAbs_of_ofInteger {t : Token} {pos : Position} {v : Int} (hk : t.kind = .integer)
    (h : Expr.ofInteger t = .int pos v) :
    v.natAbs < 0x80000000 ∨ v.natAbs = 0x80000000 ∧ t.isHighBit = true := by
  have hdecimal (h : Expr.ofInteger.decimal t = .int pos v) : v.natAbs < 0x80000000 := by
    unfold Expr.ofInteger.decimal at h
    split at h
    · split at h
      · cases h
        assumption
      · cases h
    · cases h
  unfold Expr.ofInteger at h
  split at h
  · rename_i x digits hliteral
    split at h
    · rename_i hx
      dsimp only at h
      split at h
      · rename_i hfits
        rw [Bool.and_eq_true, decide_eq_true_eq] at hfits
        cases h
        rw [toInt_toInt32_ofNat hfits.2]
        have hsize : UInt32.size = 2 ^ 32 := rfl
        rw [hsize] at hfits ⊢
        by_cases hhigh : (digitsValue? 16 digits).getD 0 = 0x80000000
        · refine .inr ⟨?_, ?_⟩
          · rw [hhigh]
            decide
          · obtain ⟨n, hn⟩ : ∃ n, digitsValue? 16 digits = some n := by
              cases hvalue : digitsValue? 16 digits with
              | none => simp [hvalue] at hhigh
              | some n => exact ⟨n, rfl⟩
            rw [hn, Option.getD_some] at hhigh
            subst hhigh
            simp only [Token.isHighBit, hk, hliteral, hx, hn]
            rfl
        · left
          split <;> omega
      · cases h
    · exact .inl (hdecimal h)
  · exact .inl (hdecimal h)

/-! ## Sources -/

theorem wholes_stands (source : Text) : Parse.Wholes (Stands source) where
  zero := .inl (by decide)
  one := .inl (by decide)
  neg v h := by
    rw [Stands, Int.natAbs_neg]
    exact h

theorem counts_stands {source : Text} : ∀ t ∈ Token.all source, t.Counts (Stands source) := by
  intro t ht hk pos v h
  obtain hlt | ⟨heq, hbit⟩ := natAbs_of_ofInteger hk h
  · exact .inl hlt
  · exact .inr ⟨heq, t, ht, hbit⟩

/-- All whole numbers in what is parsed of a source stand in it, so they have at most 31 bits and a
sign. The word that the code of one carries restores it, except for the one number that a sign makes
of the highest bit. -/
theorem whole_numbers_fit (source : Text) :
    Stmt.NamedBlock (Stands source) (parseProgram source).1 ∧
    (∀ x, (parseExpression source).1 = some x → x.Named (Stands source)) ∧
    ∀ pos v, Stands source v → -2147483648 ≤ v ∧ v ≤ 2147483648 ∧
      ∃ w, (∀ l ip, (Expr.int pos v).emit l ip .int = [Opcode.loadInt.word, w]) ∧
        (Number.signExtend w = Int64.ofInt v ↔ v ≠ 2147483648) := by
  refine ⟨namedBlock_parseProgram (wholes_stands source) counts_stands, fun x hx => ?_, ?_⟩
  · exact named_parseExpression (wholes_stands source) counts_stands hx
  · intro pos v hv
    have hbound : v.natAbs ≤ 0x80000000 := by
      obtain hlt | ⟨heq, -⟩ := hv
      · exact Nat.le_of_lt hlt
      · exact Nat.le_of_eq heq
    refine ⟨by omega, by omega, Number.lowWord (Int64.ofInt v), fun _ _ => rfl, ?_⟩
    rw [Number.signExtend_lowWord_eq_iff, Number.toInt_ofInt hbound]
    omega

/-- A sign in front of the highest bit: the word of the number is that of its opposite. -/
theorem whole_numbers_fit_high_bit : ∃ pos,
    (parseExpression "-0x80000000").1 = some (.int pos 2147483648) ∧
    Stands "-0x80000000" 2147483648 ∧
    ∃ w, (∀ l ip, (Expr.int pos 2147483648).emit l ip .int = [Opcode.loadInt.word, w]) ∧
      (Number.signExtend w = Int64.ofInt 2147483648 ↔ (2147483648 : Int) ≠ 2147483648) := by
  obtain ⟨-, hexpr, hword⟩ := whole_numbers_fit "-0x80000000"
  have hvalue : ((parseExpression "-0x80000000").1.any fun x =>
      match x with
      | .int _ v => v == 2147483648
      | _ => false) = true := by decide +kernel
  obtain ⟨x, hparse, hx⟩ : ∃ x, (parseExpression "-0x80000000").1 = some x ∧ _ := by
    simpa only [Option.any_eq_true] using hvalue
  cases x with
  | int pos v =>
    obtain rfl := beq_iff_eq.mp hx
    have hstands := hexpr _ hparse
    exact ⟨pos, hparse, hstands, (hword pos _ hstands).2.2⟩
  | _ => cases hx

end ConsoleScript
