import ConsoleScript.Text.Case
import Mathlib.Data.List.TakeWhile

/-!
# Characters and their bytes

A byte starts a character of its own, or a longer one with bytes that only continue one, or it is
stray. Writing the character gives the bytes back, except for a stray byte, whose replacement is
longer.
-/

namespace ConsoleScript.Text

variable {b : UInt8} {rest : Text}

theorem toNat_isTail (h : isTail b) : 0x80 ≤ b.toNat ∧ b.toNat ≤ 0xBF := by
  simp only [isTail, Bool.and_eq_true, decide_eq_true_eq, UInt8.le_iff_toNat_le] at h
  exact h

theorem headChar_ascii (h : b < 0x80) (rest : Text) :
    headChar b rest = (Char.ofNat b.toNat, 0) := by
  rw [headChar, if_pos h]

theorem second_bounds {x : UInt8} (hlo : ¬ x < (secondRange b).1) (hhi : ¬ x > (secondRange b).2) :
    (0x80 ≤ x.toNat ∧ x.toNat ≤ 0xBF) ∧ (b.toNat = 0xE0 → 0xA0 ≤ x.toNat) ∧
      (b.toNat = 0xED → x.toNat ≤ 0x9F) ∧ (b.toNat = 0xF0 → 0x90 ≤ x.toNat) ∧
      (b.toNat = 0xF4 → x.toNat ≤ 0x8F) := by
  have hbyte {k : UInt8} : (b == k) = true ↔ b.toNat = k.toNat := by
    rw [beq_iff_eq, UInt8.toNat_inj]
  simp only [UInt8.lt_iff_toNat_lt, gt_iff_lt, not_lt] at hlo hhi
  unfold secondRange at hlo hhi
  simp only [hbyte, UInt8.reduceToNat] at hlo hhi
  clear hbyte
  split at hlo
  · simp_all
    omega
  · split at hlo
    · simp_all
      omega
    · split at hlo
      · simp_all
        omega
      · split at hlo
        · simp_all
          omega
        · simp_all

theorem isTail_of_range {x : UInt8} (hlo : ¬ x < (secondRange b).1) (hhi : ¬ x > (secondRange b).2) :
    isTail x := by
  simp only [isTail, Bool.and_eq_true, decide_eq_true_eq, UInt8.le_iff_toNat_le]
  exact (second_bounds hlo hhi).1

/-- Only bytes that continue a character are looked at. -/
theorem headChar_takeWhile (b : UInt8) (rest : Text) :
    headChar b (rest.takeWhile isTail) = headChar b rest := by
  cases rest with
  | nil => rfl
  | cons x rest =>
    by_cases hx : isTail x
    · rw [List.takeWhile_cons_of_pos hx]
      cases rest with
      | nil => rfl
      | cons y rest =>
        by_cases hy : isTail y
        · rw [List.takeWhile_cons_of_pos hy]
          cases rest with
          | nil => rfl
          | cons z rest =>
            by_cases hz : isTail z
            · rw [List.takeWhile_cons_of_pos hz]
              rfl
            · rw [List.takeWhile_cons_of_neg hz]
              simp [headChar, hy, hz]
        · rw [List.takeWhile_cons_of_neg hy]
          simp [headChar, hy]
    · rw [List.takeWhile_cons_of_neg hx]
      have hrange : x < (secondRange b).1 ∨ (secondRange b).2 < x := by
        by_contra h
        rw [not_or] at h
        exact hx (isTail_of_range h.1 h.2)
      simp only [headChar]
      split
      · rfl
      · rw [if_pos]
        simpa [or_assoc] using .inr (.inr hrange)

private theorem val_ofNat {n : Nat} (h : n.isValidChar) : (Char.ofNat n).val.toNat = n := by
  rw [Char.ofNat, dif_pos h]
  rfl

private theorem byte_eq {n : Nat} {x : UInt8} (h : n = x.toNat) : UInt8.ofNat n = x := by
  rw [h, UInt8.ofNat_toNat]

theorem ofChar_ascii (h : b < 0x80) : ofChar (Char.ofNat b.toNat) = [b] := by
  have h : b.toNat < 0x80 := UInt8.lt_iff_toNat_lt.mp h
  have hval := val_ofNat (n := b.toNat) (.inl (by omega))
  simp only [ofChar, String.utf8EncodeChar, hval]
  rw [if_pos (by omega), byte_eq rfl]

private theorem ofChar_two {x : UInt8} (hb : 0xC2 ≤ b.toNat) (hb' : b.toNat < 0xE0)
    (hx : 0x80 ≤ x.toNat ∧ x.toNat ≤ 0xBF) :
    ofChar (Char.ofNat (b.toNat % 32 * 64 + tailBits x)) = [b, x] := by
  rw [tailBits]
  have hval := val_ofNat (n := b.toNat % 32 * 64 + x.toNat % 64) (.inl (by omega))
  simp only [ofChar, String.utf8EncodeChar, hval]
  rw [if_neg (by omega), if_pos (by omega), byte_eq (x := b) (by omega), byte_eq (x := x) (by omega)]

private theorem ofChar_three {x y : UInt8} (hb : 0xE0 ≤ b.toNat) (hb' : b.toNat < 0xF0)
    (hx : 0x80 ≤ x.toNat ∧ x.toNat ≤ 0xBF) (hlow : b.toNat = 0xE0 → 0xA0 ≤ x.toNat)
    (hhigh : b.toNat = 0xED → x.toNat ≤ 0x9F) (hy : 0x80 ≤ y.toNat ∧ y.toNat ≤ 0xBF) :
    ofChar (Char.ofNat ((b.toNat % 16 * 64 + tailBits x) * 64 + tailBits y)) = [b, x, y] := by
  rw [tailBits, tailBits]
  have hval := val_ofNat (n := (b.toNat % 16 * 64 + x.toNat % 64) * 64 + y.toNat % 64)
    (by unfold Nat.isValidChar; omega)
  simp only [ofChar, String.utf8EncodeChar, hval]
  rw [if_neg (by omega), if_neg (by omega), if_pos (by omega), byte_eq (x := b) (by omega),
    byte_eq (x := x) (by omega), byte_eq (x := y) (by omega)]

private theorem ofChar_four {x y z : UInt8} (hb : 0xF0 ≤ b.toNat) (hb' : b.toNat ≤ 0xF4)
    (hx : 0x80 ≤ x.toNat ∧ x.toNat ≤ 0xBF) (hlow : b.toNat = 0xF0 → 0x90 ≤ x.toNat)
    (hhigh : b.toNat = 0xF4 → x.toNat ≤ 0x8F) (hy : 0x80 ≤ y.toNat ∧ y.toNat ≤ 0xBF)
    (hz : 0x80 ≤ z.toNat ∧ z.toNat ≤ 0xBF) :
    ofChar (Char.ofNat (((b.toNat % 8 * 64 + tailBits x) * 64 + tailBits y) * 64 + tailBits z)) =
      [b, x, y, z] := by
  rw [tailBits, tailBits, tailBits]
  have hval := val_ofNat
    (n := ((b.toNat % 8 * 64 + x.toNat % 64) * 64 + y.toNat % 64) * 64 + z.toNat % 64)
    (by unfold Nat.isValidChar; omega)
  simp only [ofChar, String.utf8EncodeChar, hval]
  rw [if_neg (by omega), if_neg (by omega), if_neg (by omega), byte_eq (x := b) (by omega),
    byte_eq (x := x) (by omega), byte_eq (x := y) (by omega), byte_eq (x := z) (by omega)]

/-- A byte is a character, or it is stray, or it starts a longer character. -/
theorem headChar_cases (b : UInt8) (rest : Text) :
    (b < 0x80 ∧ headChar b rest = (Char.ofNat b.toNat, 0) ∧ ofChar (Char.ofNat b.toNat) = [b]) ∨
    (¬ b < 0x80 ∧ headChar b rest = (replacement, 0)) ∨
    ∃ c tail more, ¬ b < 0x80 ∧ rest = tail ++ more ∧ tail ≠ [] ∧ (∀ x ∈ tail, isTail x) ∧
      headChar b rest = (c, tail.length) ∧ ofChar c = b :: tail := by
  by_cases hb : b < 0x80
  · exact .inl ⟨hb, headChar_ascii hb rest, ofChar_ascii hb⟩
  · right
    rw [headChar, if_neg hb]
    dsimp only
    split
    · rename_i x more
      split
      · exact .inl ⟨hb, rfl⟩
      · rename_i hrange
        simp only [Bool.or_eq_true, decide_eq_true_eq, not_or] at hrange
        obtain ⟨⟨⟨hlow, hhigh⟩, hlo⟩, hhi⟩ := hrange
        have hx := isTail_of_range hlo hhi
        have hbounds := second_bounds hlo hhi
        simp only [UInt8.lt_iff_toNat_lt, gt_iff_lt, UInt8.reduceToNat, not_lt] at hlow hhigh
        split
        · rename_i htwo
          rw [UInt8.lt_iff_toNat_lt] at htwo
          exact .inr ⟨_, [x], more, hb, rfl, by simp, by simpa using hx, rfl,
            ofChar_two hlow htwo hbounds.1⟩
        · rename_i htwo
          simp only [UInt8.lt_iff_toNat_lt, UInt8.reduceToNat, not_lt] at htwo
          split
          · rename_i y more
            split
            · exact .inl ⟨hb, rfl⟩
            · rename_i hy
              simp only [Bool.not_eq_true', Bool.not_eq_false] at hy
              split
              · rename_i hthree
                rw [UInt8.lt_iff_toNat_lt] at hthree
                exact .inr ⟨_, [x, y], more, hb, rfl, by simp, by simp [hx, hy], rfl,
                  ofChar_three htwo hthree hbounds.1 hbounds.2.1 hbounds.2.2.1 (toNat_isTail hy)⟩
              · rename_i hthree
                simp only [UInt8.lt_iff_toNat_lt, UInt8.reduceToNat, not_lt] at hthree
                split
                · rename_i z more
                  split
                  · exact .inl ⟨hb, rfl⟩
                  · rename_i hz
                    simp only [Bool.not_eq_true', Bool.not_eq_false] at hz
                    exact .inr ⟨_, [x, y, z], more, hb, rfl, by simp, by simp [hx, hy, hz], rfl,
                      ofChar_four hthree hhigh hbounds.1 hbounds.2.2.2.1 hbounds.2.2.2.2
                        (toNat_isTail hy) (toNat_isTail hz)⟩
                · exact .inl ⟨hb, rfl⟩
          · exact .inl ⟨hb, rfl⟩
    · exact .inl ⟨hb, rfl⟩

/-! ## Replacing stray bytes -/

theorem scrub_cons (b : UInt8) (rest : Text) :
    scrub (b :: rest) =
      ofChar (headChar b rest).1 ++ scrub (rest.drop (headChar b rest).2) := by
  simp only [scrub, ofChars, chars, List.flatMap_cons]

theorem lower_cons (b : UInt8) (rest : Text) :
    lower (b :: rest) =
      ofChar (lowerChar (headChar b rest).1) ++ lower (rest.drop (headChar b rest).2) := by
  simp only [lower, chars, List.flatMap_cons]

end ConsoleScript.Text
