import ConsoleScript.Proofs.Text.Characters

/-!
# Reading a text back

The bytes of a character are read as that character whatever follows them, so only a byte that
starts no character is replaced, and a text that is read to its end in front of others has the
same characters when it stands alone.
-/

namespace ConsoleScript.Text

variable {b : UInt8} {c : Char} {n : Nat} {s t tail more : Text}

/-! ## The bytes of a character -/

theorem isTail_iff : isTail b ↔ 0x80 ≤ b.toNat ∧ b.toNat ≤ 0xBF := by
  simp [isTail, UInt8.le_iff_toNat_le]

/-- A second byte lies in the range its first byte asks for. -/
theorem in_secondRange {x : UInt8} (hx : isTail x) (hE0 : b.toNat = 0xE0 → 0xA0 ≤ x.toNat)
    (hED : b.toNat = 0xED → x.toNat ≤ 0x9F) (hF0 : b.toNat = 0xF0 → 0x90 ≤ x.toNat)
    (hF4 : b.toNat = 0xF4 → x.toNat ≤ 0x8F) :
    ¬ x < (secondRange b).1 ∧ ¬ (secondRange b).2 < x := by
  have hx := toNat_isTail hx
  have hbyte {k : UInt8} : (b == k) = true ↔ b.toNat = k.toNat := by
    rw [beq_iff_eq, UInt8.toNat_inj]
  unfold secondRange
  simp only [hbyte, UInt8.reduceToNat, UInt8.lt_iff_toNat_lt]
  clear hbyte
  split
  · simp
    omega
  · split
    · simp
      omega
    · split
      · simp
        omega
      · split
        · simp
          omega
        · simp
          omega

/-- What a byte that starts a longer character is like. -/
theorem not_ascii_of_le (hb : 0xC2 ≤ b.toNat) (hb' : b.toNat ≤ 0xF4) :
    ¬ b < 0x80 ∧ ¬ b < 0xC2 ∧ ¬ 0xF4 < b := by
  simp only [UInt8.lt_iff_toNat_lt, UInt8.reduceToNat]
  omega

theorem headChar_two {x : UInt8} (hb : 0xC2 ≤ b.toNat) (hb' : b.toNat < 0xE0) (hx : isTail x) :
    headChar b (x :: more) = (Char.ofNat (b.toNat % 32 * 64 + tailBits x), 1) := by
  have hrange := in_secondRange (b := b) hx (by omega) (by omega) (by omega) (by omega)
  have hlead := not_ascii_of_le hb (by omega)
  have htwo : b < 0xE0 := UInt8.lt_iff_toNat_lt.mpr hb'
  simp [headChar, hlead, hrange, htwo]

theorem headChar_three {x y : UInt8} (hb : 0xE0 ≤ b.toNat) (hb' : b.toNat < 0xF0)
    (hx : isTail x) (hlow : b.toNat = 0xE0 → 0xA0 ≤ x.toNat)
    (hhigh : b.toNat = 0xED → x.toNat ≤ 0x9F) (hy : isTail y) :
    headChar b (x :: y :: more) =
      (Char.ofNat ((b.toNat % 16 * 64 + tailBits x) * 64 + tailBits y), 2) := by
  have hrange := in_secondRange hx hlow hhigh (by omega) (by omega)
  have hlead := not_ascii_of_le (b := b) (by omega) (by omega)
  have htwo : ¬ b < 0xE0 := UInt8.not_lt.mpr (UInt8.le_iff_toNat_le.mpr hb)
  have hthree : b < 0xF0 := UInt8.lt_iff_toNat_lt.mpr hb'
  simp [headChar, hlead, hrange, htwo, hthree, hy]

theorem headChar_four {x y z : UInt8} (hb : 0xF0 ≤ b.toNat) (hb' : b.toNat ≤ 0xF4)
    (hx : isTail x) (hlow : b.toNat = 0xF0 → 0x90 ≤ x.toNat)
    (hhigh : b.toNat = 0xF4 → x.toNat ≤ 0x8F) (hy : isTail y) (hz : isTail z) :
    headChar b (x :: y :: z :: more) =
      (Char.ofNat (((b.toNat % 8 * 64 + tailBits x) * 64 + tailBits y) * 64 + tailBits z), 3) := by
  have hrange := in_secondRange hx (by omega) (by omega) hlow hhigh
  have hlead := not_ascii_of_le (b := b) (by omega) hb'
  have hthree : ¬ b < 0xE0 ∧ ¬ b < 0xF0 := by
    simp only [UInt8.lt_iff_toNat_lt, UInt8.reduceToNat]
    omega
  simp [headChar, hlead, hrange, hthree, hy, hz]

private theorem toNat_byte (h : n < 256) : (UInt8.ofNat n).toNat = n := by
  rw [UInt8.toNat_ofNat', Nat.mod_eq_of_lt h]

/-- The bytes of a character are read as that character, whatever follows. -/
theorem headChar_ofChar (h : ofChar c = b :: tail) (more : Text) :
    headChar b (tail ++ more) = (c, tail.length) := by
  have hvalid : c.val.toNat < 0xD800 ∨ 0xDFFF < c.val.toNat ∧ c.val.toNat < 0x110000 := c.valid
  have hchar {n : Nat} (hn : n = c.val.toNat) : Char.ofNat n = c := by
    rw [hn]
    exact Char.ofNat_toNat c
  simp only [ofChar, String.utf8EncodeChar] at h
  split at h
  · cases h
    have hb := toNat_byte (n := c.val.toNat) (by omega)
    have hascii : UInt8.ofNat c.val.toNat < 0x80 := by
      rw [UInt8.lt_iff_toNat_lt, hb]
      exact Nat.lt_succ_of_le ‹_›
    rw [headChar_ascii hascii, hb, hchar rfl]
    rfl
  · split at h
    · cases h
      have hb := toNat_byte (n := c.val.toNat / 64 % 32 + 192) (by omega)
      have hx := toNat_byte (n := c.val.toNat % 64 + 128) (by omega)
      rw [List.cons_append, List.nil_append, headChar_two (by omega) (by omega)
        (isTail_iff.mpr (by omega)), tailBits, hb, hx, hchar (by omega)]
      rfl
    · split at h
      · cases h
        have hb := toNat_byte (n := c.val.toNat / 4096 % 16 + 224) (by omega)
        have hx := toNat_byte (n := c.val.toNat / 64 % 64 + 128) (by omega)
        have hy := toNat_byte (n := c.val.toNat % 64 + 128) (by omega)
        rw [List.cons_append, List.cons_append, List.nil_append, headChar_three (by omega)
          (by omega) (isTail_iff.mpr (by omega)) (by omega) (by omega) (isTail_iff.mpr (by omega)),
          tailBits, tailBits, hb, hx, hy, hchar (by omega)]
        rfl
      · cases h
        have hb := toNat_byte (n := c.val.toNat / 262144 % 8 + 240) (by omega)
        have hx := toNat_byte (n := c.val.toNat / 4096 % 64 + 128) (by omega)
        have hy := toNat_byte (n := c.val.toNat / 64 % 64 + 128) (by omega)
        have hz := toNat_byte (n := c.val.toNat % 64 + 128) (by omega)
        rw [List.cons_append, List.cons_append, List.cons_append, List.nil_append,
          headChar_four (by omega) (by omega) (isTail_iff.mpr (by omega)) (by omega) (by omega)
          (isTail_iff.mpr (by omega)) (isTail_iff.mpr (by omega)), tailBits, tailBits, tailBits,
          hb, hx, hy, hz, hchar (by omega)]
        rfl

theorem ofChar_ne_nil (c : Char) : ofChar c ≠ [] := by
  simp [ofChar]

theorem ofChar_prefix (h : ofChar c <+: b :: s) :
    ∃ tail more, ofChar c = b :: tail ∧ s = tail ++ more := by
  obtain ⟨more, h⟩ := h
  cases hc : ofChar c with
  | nil => exact absurd hc (ofChar_ne_nil c)
  | cons x tail =>
    rw [hc, List.cons_append] at h
    cases h
    exact ⟨tail, more, rfl, rfl⟩

/-- No character starts with a byte that is read as stray. -/
theorem stray_of_headChar (h : headChar b s = (replacement, 0)) (c : Char) :
    ¬ ofChar c <+: b :: s := by
  intro hprefix
  obtain ⟨tail, more, hc, rfl⟩ := ofChar_prefix hprefix
  have hread := (headChar_ofChar hc more).symm.trans h
  have hone := List.length_eq_zero_iff.mp (congrArg Prod.snd hread)
  have hlength : (ofChar replacement).length = 3 := by decide
  rw [← show c = replacement from congrArg Prod.fst hread, hc, hone] at hlength
  cases hlength

/-- A byte with what is read behind it is a character, or it is stray. -/
theorem headChar_spec (b : UInt8) (s : Text) :
    (∃ c tail more, s = tail ++ more ∧ headChar b s = (c, tail.length) ∧ ofChar c = b :: tail) ∨
    (¬ b < 0x80 ∧ headChar b s = (replacement, 0) ∧ ∀ c, ¬ ofChar c <+: b :: s) := by
  obtain ⟨-, h, hc⟩ | ⟨hb, h⟩ | ⟨c, tail, more, -, rfl, -, -, h, hc⟩ := headChar_cases b s
  · exact .inl ⟨_, [], s, rfl, h, hc⟩
  · exact .inr ⟨hb, h, stray_of_headChar h⟩
  · exact .inl ⟨c, tail, more, rfl, h, hc⟩

/-! ## Stray bytes -/

/-- The second text is the first with every stray byte replaced: characters stay, and a byte that
no character starts with becomes a replacement character. -/
inductive Replaces : Text → Text → Prop
  | nil : Replaces [] []
  | char (c : Char) {s t : Text} : Replaces s t → Replaces (ofChar c ++ s) (ofChar c ++ t)
  | stray {b : UInt8} {s t : Text} :
    (∀ c, ¬ ofChar c <+: b :: s) → Replaces s t → Replaces (b :: s) (ofChar replacement ++ t)

@[simp]
theorem scrub_nil : scrub [] = [] := by
  simp [scrub, ofChars, chars]

theorem scrub_char (c : Char) (s : Text) : scrub (ofChar c ++ s) = ofChar c ++ scrub s := by
  cases hc : ofChar c with
  | nil => exact absurd hc (ofChar_ne_nil c)
  | cons b tail =>
    rw [List.cons_append, scrub_cons, headChar_ofChar hc, List.drop_left, hc, List.cons_append]

theorem scrub_stray (h : ∀ c, ¬ ofChar c <+: b :: s) :
    scrub (b :: s) = ofChar replacement ++ scrub s := by
  obtain ⟨c, tail, more, rfl, -, hc⟩ | ⟨-, hhead, -⟩ := headChar_spec b s
  · exact absurd ⟨more, by rw [hc]; rfl⟩ (h c)
  · rw [scrub_cons, hhead, List.drop_zero]

theorem replaces_scrub (s : Text) : Replaces s (scrub s) := by
  induction hn : s.length using Nat.strong_induction_on generalizing s with
  | h n ih =>
    subst hn
    cases s with
    | nil =>
      rw [scrub_nil]
      exact .nil
    | cons b s =>
      obtain ⟨c, tail, more, rfl, -, hc⟩ | ⟨-, -, hstray⟩ := headChar_spec b s
      · rw [← List.cons_append, ← hc, scrub_char]
        refine .char c (ih _ ?_ more rfl)
        rw [List.length_cons, List.length_append]
        omega
      · rw [scrub_stray hstray]
        exact .stray hstray (ih _ (by simp) s rfl)

theorem replaces_iff : Replaces s t ↔ t = scrub s := by
  constructor
  · intro h
    induction h with
    | nil => rw [scrub_nil]
    | char c _ ih => rw [scrub_char, ih]
    | stray hstray _ ih => rw [scrub_stray hstray, ih]
  · rintro rfl
    exact replaces_scrub s

theorem ofChars_cons (c : Char) (cs : List Char) : ofChars (c :: cs) = ofChar c ++ ofChars cs :=
  List.flatMap_cons

theorem scrub_ofChars (cs : List Char) : scrub (ofChars cs) = ofChars cs := by
  induction cs with
  | nil => exact scrub_nil
  | cons c cs ih =>
    rw [ofChars_cons, scrub_char, ih]

/-- Only a text of whole characters has no stray byte. -/
theorem scrub_eq_self_iff_exists : scrub s = s ↔ ∃ cs, s = ofChars cs := by
  constructor
  · intro h
    exact ⟨s.chars, h.symm⟩
  · rintro ⟨cs, rfl⟩
    exact scrub_ofChars cs

/-! ## Texts in front of others -/

/-- Is the text read to its end in front of another? -/
inductive Reads (more : Text) : Text → Prop
  | nil : Reads more []
  | cons {b : UInt8} {c : Char} {tail s : Text} :
    headChar b (tail ++ (s ++ more)) = (c, tail.length) → Reads more s → Reads more (b :: (tail ++ s))

/-- What is read does not depend on what stands behind it. -/
theorem headChar_of_append (h : headChar b (s ++ more) = (c, n)) (hn : n ≤ s.length) :
    headChar b s = (c, n) := by
  obtain ⟨c', tail, rest, hs, h', hc⟩ | ⟨-, h', hstray⟩ := headChar_spec b (s ++ more)
  · cases h.symm.trans h'
    have htail : tail = s.take tail.length := by
      have := congrArg (List.take tail.length) hs
      rw [List.take_append_of_le_length hn, List.take_left] at this
      exact this.symm
    have := headChar_ofChar hc (s.drop tail.length)
    rwa [htail, List.length_take_of_le hn, List.take_append_drop] at this
  · cases h.symm.trans h'
    obtain ⟨c, tail, rest, rfl, -, hc⟩ | ⟨-, h, -⟩ := headChar_spec b s
    · refine absurd ⟨rest ++ more, ?_⟩ (hstray c)
      rw [hc, List.cons_append, List.append_assoc]
    · exact h

theorem chars_cons (h : headChar b (tail ++ s) = (c, tail.length)) :
    chars (b :: (tail ++ s)) = c :: chars s := by
  rw [chars, h]
  dsimp only
  rw [List.drop_left]

namespace Reads

theorem snoc (hs : Reads (b :: (tail ++ more)) s) (h : headChar b (tail ++ more) = (c, tail.length)) :
    Reads more (s ++ b :: tail) ∧ chars (s ++ b :: tail) = chars s ++ [c] := by
  have halone : headChar b tail = (c, tail.length) := headChar_of_append h (Nat.le_refl _)
  induction hs with
  | nil =>
    constructor
    · have : Reads more (b :: (tail ++ [])) := .cons h .nil
      rwa [List.append_nil] at this
    · have := chars_cons (s := []) (by rwa [List.append_nil])
      rw [List.append_nil] at this
      rw [List.nil_append, this]
      simp [chars]
  | @cons b' c' tail' s hb _ ih =>
    obtain ⟨hreads, hchars⟩ := ih
    have hb' : headChar b' (tail' ++ (s ++ b :: tail)) = (c', tail'.length) := by
      have hmore : headChar b' (tail' ++ (s ++ b :: tail) ++ more) = (c', tail'.length) := by
        simpa using hb
      apply headChar_of_append hmore
      rw [List.length_append]
      omega
    have hfirst : headChar b' (tail' ++ s) = (c', tail'.length) := by
      have hmore : headChar b' (tail' ++ s ++ b :: (tail ++ more)) = (c', tail'.length) := by
        rwa [List.append_assoc]
      apply headChar_of_append hmore
      rw [List.length_append]
      omega
    rw [List.cons_append, List.append_assoc]
    constructor
    · refine cons (c := c') ?_ hreads
      simpa using hb
    · rw [chars_cons hb', chars_cons hfirst, hchars, List.cons_append]

end Reads

/-! ## Sequences of characters -/

theorem ofChars_append (cs ds : List Char) : ofChars (cs ++ ds) = ofChars cs ++ ofChars ds :=
  List.flatMap_append

/-- The characters of written characters are those characters. -/
theorem chars_ofChars (cs : List Char) : (ofChars cs).chars = cs := by
  induction cs with
  | nil => simp [ofChars, chars]
  | cons c cs ih =>
    rw [ofChars_cons]
    cases hc : ofChar c with
    | nil => exact absurd hc (ofChar_ne_nil c)
    | cons b tail => rw [List.cons_append, chars_cons (headChar_ofChar hc _), ih]

theorem ofChars_eq_nil {cs : List Char} (h : ofChars cs = []) : cs = [] :=
  (chars_ofChars cs).symm.trans ((congrArg chars h).trans (chars_ofChars []))

/-- A byte that continues a character is stray where one should start. -/
theorem headChar_tail {b : UInt8} (hb : isTail b) (rest : Text) :
    headChar b rest = (replacement, 0) := by
  have hbounds := toNat_isTail hb
  have hascii : ¬ b < 0x80 := by
    simp only [UInt8.lt_iff_toNat_lt, UInt8.reduceToNat]
    omega
  have hlow : b < 0xC2 := by
    simp only [UInt8.lt_iff_toNat_lt, UInt8.reduceToNat]
    omega
  cases rest with
  | nil => simp [headChar, hascii]
  | cons x rest => simp [headChar, hascii, hlow]

theorem not_isTail_head {c : Char} {b : UInt8} {tail : Text} (hc : ofChar c = b :: tail) :
    isTail b = false := by
  by_contra hb
  have hstray := headChar_tail (Bool.not_eq_false _ ▸ hb) (tail ++ [])
  rw [headChar_ofChar hc, Prod.mk.injEq, List.length_eq_zero_iff] at hstray
  obtain ⟨rfl, rfl⟩ := hstray
  cases hc

/-- Behind its first byte a character has only bytes that continue it. -/
theorem isTail_of_mem_tail {c : Char} {b x : UInt8} {tail : Text} (hc : ofChar c = b :: tail)
    (hx : x ∈ tail) : isTail x = true ∧ ¬ b < 0x80 := by
  have hread := headChar_ofChar hc []
  obtain ⟨-, h, -⟩ | ⟨-, h⟩ | ⟨d, tail', more, hb, happ, -, htail, h, hd⟩ :=
    headChar_cases b (tail ++ [])
  · rw [hread, Prod.mk.injEq, List.length_eq_zero_iff] at h
    rw [h.2] at hx
    cases hx
  · rw [hread, Prod.mk.injEq, List.length_eq_zero_iff] at h
    rw [h.2] at hx
    cases hx
  · obtain rfl : c = d := congrArg Prod.fst (hread.symm.trans h)
    cases hc.symm.trans hd
    exact ⟨htail x hx, hb⟩

/-- Only a character of one byte has a byte below 128. -/
theorem ofChar_of_mem {c : Char} {b : UInt8} (hb : b ∈ ofChar c) (hlow : b < 0x80) :
    ofChar c = [b] := by
  cases hc : ofChar c with
  | nil => exact absurd hc (ofChar_ne_nil c)
  | cons x tail =>
    rw [hc] at hb
    obtain rfl | hx := List.mem_cons.mp hb
    · cases tail with
      | nil => rfl
      | cons y tail => exact absurd hlow (isTail_of_mem_tail hc List.mem_cons_self).2
    · have htail := toNat_isTail (isTail_of_mem_tail hc hx).1
      simp only [UInt8.lt_iff_toNat_lt, UInt8.reduceToNat] at hlow
      omega

/-- The bytes of a character tell where it ends and which one it is. -/
theorem ofChar_append_inj {c d : Char} {s t : Text} (h : ofChar c ++ s = ofChar d ++ t) : c = d := by
  cases hc : ofChar c with
  | nil => exact absurd hc (ofChar_ne_nil c)
  | cons b tail =>
    cases hd : ofChar d with
    | nil => exact absurd hd (ofChar_ne_nil d)
    | cons x more =>
      rw [hc, hd, List.cons_append, List.cons_append, List.cons.injEq] at h
      obtain ⟨rfl, h⟩ := h
      have hread := headChar_ofChar hd t
      rw [← h, headChar_ofChar hc s] at hread
      exact congrArg Prod.fst hread

theorem eq_of_mem_ofChar {c d : Char} {b : UInt8} (hd : ofChar d = [b]) (hlow : b < 0x80)
    (hb : b ∈ ofChar c) : c = d :=
  ofChar_append_inj (s := []) (t := []) (by rw [ofChar_of_mem hb hlow, hd])

theorem length_ofChar_le {c : Char} (h : c.toNat < 0x800) : (ofChar c).length ≤ 2 := by
  have hval : c.val.toNat ≤ 0x7FF := Nat.le_of_lt_succ h
  simp only [ofChar, String.utf8EncodeChar, if_pos hval]
  split <;> simp

theorem chars_lower (t : Text) : (lower t).chars = t.chars.map lowerChar := by
  rw [lower, ← List.flatMap_map]
  exact chars_ofChars _

end ConsoleScript.Text
