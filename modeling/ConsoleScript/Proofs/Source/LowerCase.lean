import ConsoleScript.Proofs.Source.Tokens

/-!
# Scanning in lower case

In lower case a source is skipped over in the same steps, its comments and blanks are as long, and
each lexeme that is no word has the same kind and the same length.
-/

namespace ConsoleScript

open Text

variable {b quote : UInt8} {n : Nat} {s t : Text} {p : UInt8 → Bool}

/-! ## Bytes without letter case -/

namespace Text

/-- Does the predicate hold of small letters and of capitals alike? -/
def Caseless (p : UInt8 → Bool) : Prop := ∀ b, p (lowerByte b) = p b

theorem Caseless.of_letters (h : ∀ n < 26, p (.ofNat (0x61 + n)) = p (.ofNat (0x41 + n))) :
    Caseless p := by
  intro b
  rw [lowerByte]
  split
  · rename_i hb
    simp only [Bool.and_eq_true, decide_eq_true_eq, UInt8.le_iff_toNat_le, UInt8.reduceToNat] at hb
    have hcapital : UInt8.ofNat (0x41 + (b.toNat - 0x41)) = b := by
      rw [Nat.add_sub_cancel' hb.1, UInt8.ofNat_toNat]
    have hsmall : UInt8.ofNat (0x61 + (b.toNat - 0x41)) = b + 0x20 := by
      rw [← UInt8.toNat_inj, UInt8.toNat_ofNat', UInt8.toNat_add]
      simp only [UInt8.reduceToNat]
      omega
    have := h (b.toNat - 0x41) (by omega)
    rwa [hcapital, hsmall] at this
  · rfl

theorem caseless_isDigit : Caseless isDigit := .of_letters (by decide)

theorem caseless_isHexDigit : Caseless isHexDigit := .of_letters (by decide)

theorem caseless_isIdentStart : Caseless isIdentStart := .of_letters (by decide)

theorem caseless_isIdentByte : Caseless isIdentByte := .of_letters (by decide)

theorem caseless_isAsciiBlank : Caseless isAsciiBlank := .of_letters (by decide)

theorem caseless_isTail : Caseless isTail := .of_letters (by decide)

theorem lowerByte_eq_self (h : isIdentStart b = false) : lowerByte b = b := by
  rw [lowerByte]
  split
  · rename_i hcapital
    rw [isIdentStart, hcapital, Bool.or_true] at h
    cases h
  · rfl

theorem lowerByte_high (h : ¬ b < 0x80) : lowerByte b = b := by
  refine lowerByte_eq_self (Bool.eq_false_iff.mpr fun hstart => h ?_)
  exact ascii_of_isIdentByte (isIdentByte_of_start hstart)

theorem lowerByte_beq {x : UInt8} (hx : isIdentStart x = false) (b : UInt8) :
    (lowerByte b == x) = (b == x) := by
  cases hb : isIdentStart b with
  | false => rw [lowerByte_eq_self hb]
  | true => rw [beq_of_start hb hx, beq_of_start ((caseless_isIdentStart b).trans hb) hx]

theorem lowerByte_eq_iff {x : UInt8} (hx : isIdentStart x = false) (b : UInt8) :
    lowerByte b = x ↔ b = x := by
  rw [← beq_iff_eq, lowerByte_beq hx, beq_iff_eq]

theorem lowerByte_mem_iff (hs : ∀ x ∈ s, isIdentStart x = false) (b : UInt8) :
    lowerByte b ∈ s ↔ b ∈ s := by
  constructor
  · intro h
    rwa [(lowerByte_eq_iff (hs _ h) b).mp rfl]
  · intro h
    rwa [lowerByte_eq_self (hs b h)]

/-! ## Texts in lower case -/

@[simp] theorem lowerAscii_nil : lowerAscii [] = [] := rfl

@[simp] theorem lowerAscii_cons (b : UInt8) (t : Text) :
    lowerAscii (b :: t) = lowerByte b :: lowerAscii t := rfl

@[simp] theorem length_lowerAscii (t : Text) : (lowerAscii t).length = t.length := List.length_map _

theorem drop_lowerAscii (n : Nat) (t : Text) : (lowerAscii t).drop n = lowerAscii (t.drop n) :=
  List.map_drop.symm

theorem takeWhile_lowerAscii (hp : Caseless p) (t : Text) :
    (lowerAscii t).takeWhile p = lowerAscii (t.takeWhile p) := by
  rw [lowerAscii, List.takeWhile_map, lowerAscii, show p ∘ lowerByte = p from funext hp]

theorem length_takeWhile_lowerAscii (hp : Caseless p) (t : Text) :
    ((lowerAscii t).takeWhile p).length = (t.takeWhile p).length := by
  rw [takeWhile_lowerAscii hp, length_lowerAscii]

theorem any_head?_lowerAscii (hp : Caseless p) (t : Text) :
    (lowerAscii t).head?.any p = t.head?.any p := by
  cases t with
  | nil => rfl
  | cons b t => exact hp b

theorem head?_lowerAscii_beq {x : UInt8} (hx : isIdentStart x = false) (t : Text) :
    ((lowerAscii t).head? == some x) = (t.head? == some x) := by
  cases t with
  | nil => rfl
  | cons b t => simpa using lowerByte_beq hx b

/-- A text without letters is the start of another whatever the case of that one. -/
theorem startsWith_lowerAscii (hs : ∀ x ∈ s, isIdentStart x = false) (t : Text) :
    startsWith (lowerAscii t) s = startsWith t s := by
  rw [startsWith, startsWith]
  induction s generalizing t with
  | nil => rfl
  | cons a s ih =>
    cases t with
    | nil => rfl
    | cons b t =>
      obtain ⟨ha, hs⟩ := List.forall_mem_cons.mp hs
      have hbeq : (a == lowerByte b) = (a == b) := by
        rw [Bool.beq_comm, lowerByte_beq ha, Bool.beq_comm]
      rw [lowerAscii_cons, dropStart?, dropStart?, hbeq]
      split
      · exact ih hs t
      · rfl

/-- Bytes of longer characters have no case. -/
theorem headChar_lowerAscii (b : UInt8) (t : Text) :
    headChar b (lowerAscii t) = headChar b t := by
  have htail : lowerAscii (t.takeWhile isTail) = t.takeWhile isTail := by
    refine (List.map_congr_left ?_).trans (List.map_id _)
    intro x hx
    have hx : isTail x = true := List.mem_takeWhile_imp hx
    exact lowerByte_high (not_lt_of_isTail hx)
  rw [← headChar_takeWhile, takeWhile_lowerAscii caseless_isTail, htail, headChar_takeWhile]

theorem headChar_beq_newline (b : UInt8) (t : Text) : ((headChar b t).1 == '\n') = (b == 0x0A) := by
  obtain ⟨c, tail, rest, rfl, hread, -⟩ := ConsoleScript.headChar_tail b t
  rw [hread]
  obtain ⟨rfl, rfl, -⟩ | ⟨hc, hb⟩ := newline_iff hread
  · rfl
  · rw [beq_eq_false_iff_ne.mpr hc, beq_eq_false_iff_ne.mpr]
    rintro rfl
    exact hb List.mem_cons_self

theorem lowerByte_ascii (hb : b < 0x80) : lowerByte b < 0x80 := by
  cases hstart : isIdentStart b with
  | false => rwa [lowerByte_eq_self hstart]
  | true =>
    exact ascii_of_isIdentByte (isIdentByte_of_start ((caseless_isIdentStart b).trans hstart))

theorem headChar_lowerByte (b : UInt8) (t : Text) :
    (headChar (lowerByte b) (lowerAscii t)).2 = (headChar b t).2 := by
  by_cases hb : b < 0x80
  · rw [headChar_ascii hb, headChar_ascii (lowerByte_ascii hb)]
  · rw [lowerByte_high hb, headChar_lowerAscii]

theorem lowerChar_headChar_lowerByte (b : UInt8) (t : Text) :
    lowerChar (headChar (lowerByte b) (lowerAscii t)).1 = lowerChar (headChar b t).1 := by
  have htable : ∀ n < 0x80, lowerChar (Char.ofNat (lowerByte (.ofNat n)).toNat) =
      lowerChar (Char.ofNat (UInt8.ofNat n).toNat) := by
    decide
  by_cases hb : b < 0x80
  · have hbyte := htable b.toNat (UInt8.lt_iff_toNat_lt.mp hb)
    rw [headChar_ascii hb, headChar_ascii (lowerByte_ascii hb)]
    rwa [UInt8.ofNat_toNat] at hbyte
  · rw [lowerByte_high hb, headChar_lowerAscii]

/-- Letters of ASCII that are in lower case already make no difference to lower case. -/
theorem lower_lowerAscii (t : Text) : lower (lowerAscii t) = lower t := by
  induction t using chars.induct with
  | case1 => rfl
  | case2 b t _ extra hread ih =>
    rw [lowerAscii_cons, lower_cons, lower_cons, headChar_lowerByte, drop_lowerAscii,
      lowerChar_headChar_lowerByte, hread, ih]

end Text

/-! ## Cursors -/

namespace Cursor

/-- The same place in the source in lower case. -/
def lower (c : Cursor) : Cursor := ⟨c.pos, lowerAscii c.rest⟩

theorem nextPos_lower {c c' : Char} (h : (c' == '\n') = (c == '\n')) (pos : Position) (size : Nat)
    (t : Text) : nextPos pos c' size (lowerAscii t) = nextPos pos c size t := by
  rw [nextPos, nextPos, h, lowerAscii, List.isEmpty_map]

theorem skip_lower (n : Nat) (c : Cursor) : skip n c.lower = (skip n c).lower := by
  fun_induction skip n c with
  | case1 => rw [skip]
  | case2 n pos ih =>
    rw [← ih]
    show skip (n + 1) ⟨pos, []⟩ = skip n ⟨pos, []⟩
    rw [skip]
  | case3 n pos b t =>
    rename_i ch extra hhead rest ih
    have hextra : (headChar (lowerByte b) (lowerAscii t)).2 = extra := by
      rw [headChar_lowerByte, hhead]
    have hnewline : ((headChar (lowerByte b) (lowerAscii t)).1 == '\n') = (ch == '\n') := by
      rw [headChar_beq_newline, lowerByte_beq rfl, ← headChar_beq_newline b t, hhead]
    rw [← ih]
    simp only [lower, lowerAscii_cons, skip, hextra, drop_lowerAscii, nextPos_lower hnewline]
    rfl

end Cursor

/-! ## Lexemes -/

namespace Lexeme

theorem blockLength_lower (t : Text) : blockLength (lowerAscii t) = blockLength t := by
  induction t with
  | nil => rfl
  | cons b t ih =>
    rw [lowerAscii_cons, blockLength, blockLength, lowerByte_beq rfl, lowerByte_beq rfl,
      head?_lowerAscii_beq rfl, ih]

theorem caseless_inLine : Caseless fun b => b != 0x0A && b != 0 := .of_letters (by decide)

theorem blankLength_lower (t : Text) : blankLength (lowerAscii t) = blankLength t := by
  fun_induction blankLength t with
  | case1 => rw [lowerAscii_nil, blankLength]
  | case2 b t hb ih => rw [lowerAscii_cons, blankLength, caseless_isAsciiBlank, if_pos hb, ih]
  | case3 b t hb hline n ih =>
    have hn : ((lowerAscii t).takeWhile fun b => b != 0x0A && b != 0).length = n :=
      length_takeWhile_lowerAscii caseless_inLine t
    rw [lowerAscii_cons, blankLength, caseless_isAsciiBlank, if_neg hb, lowerByte_beq rfl,
      head?_lowerAscii_beq rfl, if_pos hline]
    simp only [hn, drop_lowerAscii, ih]
  | case4 b t hb hline hblock n ih =>
    have hn : 1 + blockLength (lowerAscii (t.drop 1)) = n := by rw [blockLength_lower]
    rw [lowerAscii_cons, blankLength, caseless_isAsciiBlank, if_neg hb, lowerByte_beq rfl,
      head?_lowerAscii_beq rfl, if_neg hline, head?_lowerAscii_beq rfl, if_pos hblock]
    simp only [drop_lowerAscii, hn, ih]
  | case5 b t hb hline hblock =>
    rw [lowerAscii_cons, blankLength, caseless_isAsciiBlank, if_neg hb, lowerByte_beq rfl,
      head?_lowerAscii_beq rfl, if_neg hline, head?_lowerAscii_beq rfl, if_neg hblock]

/-- Is there a closing quote on the line, and how many bytes are read in search of it? Each
backslash takes one byte with it, so what its escape stands for does not matter. -/
def closing (quote : UInt8) : Text → Bool × Nat
  | [] => (false, 0)
  | b :: t =>
    if b == 0 || b == 0x0A then (false, 0)
    else if b == quote then (true, 1)
    else if b == 0x5C then
      match t with
      | [] => (false, 1)
      | e :: t =>
        if e == 0 then (false, 1)
        else
          let (closed, n) := closing quote t
          (closed, 2 + n)
    else
      let (closed, n) := closing quote t
      (closed, 1 + n)

theorem closing_byte (hb : b ∉ [0, 0x0A, 0x5C, quote]) (t : Text) :
    closing quote (b :: t) = ((closing quote t).1, 1 + (closing quote t).2) := by
  simp only [List.mem_cons, List.not_mem_nil, or_false, not_or, ← beq_eq_false_iff_ne] at hb
  obtain ⟨hzero, hnewline, hback, hquote⟩ := hb
  rw [closing.eq_def]
  simp [hzero, hnewline, hback, hquote]

theorem closing_append (hs : ∀ x ∈ s, x ∉ [0, 0x0A, 0x5C, quote]) (t : Text) :
    closing quote (s ++ t) = ((closing quote t).1, s.length + (closing quote t).2) := by
  induction s with
  | nil => simp
  | cons b s ih =>
    obtain ⟨hb, hs⟩ := List.forall_mem_cons.mp hs
    rw [List.cons_append, closing_byte hb, ih hs, List.length_cons]
    simp only [Prod.mk.injEq, true_and]
    omega

theorem closing_end (hb : b = 0 ∨ b = 0x0A) (t : Text) : closing quote (b :: t) = (false, 0) := by
  obtain rfl | rfl := hb <;> rw [closing.eq_def] <;> rfl

theorem closing_quote (hquote : quote ≠ 0 ∧ quote ≠ 0x0A) (t : Text) :
    closing quote (quote :: t) = (true, 1) := by
  rw [closing.eq_def]
  simp [hquote]

theorem closing_backslash (hquote : ¬ ((0x5C : UInt8) == quote) = true) :
    closing quote [0x5C] = (false, 1) := by
  rw [closing.eq_def]
  simp [Bool.eq_false_iff.mpr hquote]

theorem closing_escape (hquote : ¬ ((0x5C : UInt8) == quote) = true) (e : UInt8) (t : Text) :
    closing quote (0x5C :: e :: t) =
      if e == 0 then (false, 1) else ((closing quote t).1, 2 + (closing quote t).2) := by
  rw [closing.eq_def]
  simp [Bool.eq_false_iff.mpr hquote]

theorem closing_lower (hquote : isIdentStart quote = false) (t : Text) :
    closing quote (lowerAscii t) = closing quote t := by
  have hmarks : ∀ x ∈ [0, 0x0A, 0x5C, quote], isIdentStart x = false := by
    simp only [List.forall_mem_cons]
    exact ⟨rfl, rfl, rfl, hquote, by simp⟩
  fun_induction closing quote t with
  | case1 => rfl
  | case2 b t hend =>
    rw [lowerAscii_cons, closing_end]
    rw [lowerByte_eq_iff rfl, lowerByte_eq_iff rfl]
    simpa using hend
  | case3 b t hend hb =>
    cases beq_iff_eq.mp hb
    rw [lowerAscii_cons, lowerByte_eq_self hquote]
    apply closing_quote
    simpa using hend
  | case4 b hend hb hback =>
    cases beq_iff_eq.mp hback
    exact closing_backslash hb
  | case5 b hend hb hback e t he =>
    cases beq_iff_eq.mp hback
    cases beq_iff_eq.mp he
    exact closing_escape hb 0 _
  | case6 b hend hb hback e t he closed n hn ih =>
    cases beq_iff_eq.mp hback
    have hescape := closing_escape hb (lowerByte e) (lowerAscii t)
    rw [lowerByte_beq rfl, if_neg he, ih, hn] at hescape
    exact hescape
  | case7 b t hend hb hback closed n hn ih =>
    have hspecial : lowerByte b ∉ [0, 0x0A, 0x5C, quote] := by
      rw [lowerByte_mem_iff hmarks]
      exact not_special hend hback hb
    rw [lowerAscii_cons, closing_byte hspecial, ih, hn]

theorem quoted_closing (hquote : quote < 0x80) (hhex : hexValue? quote = none) (t : Text) :
    ((quoted quote t).1.isSome, (quoted quote t).2) = closing quote t := by
  fun_induction quoted quote t with
  | case1 => rfl
  | case2 b t hend =>
    have hend : b = 0 ∨ b = 0x0A := by simpa using hend
    exact (closing_end hend t).symm
  | case3 b t hend hb =>
    cases beq_iff_eq.mp hb
    have hend : quote ≠ 0 ∧ quote ≠ 0x0A := by simpa using hend
    exact (closing_quote hend t).symm
  | case4 b hend hb hback =>
    cases beq_iff_eq.mp hback
    exact (closing_backslash hb).symm
  | case5 b hend hb hback e t he =>
    cases beq_iff_eq.mp hback
    rw [closing_escape hb, if_pos he]
    rfl
  | case6 b hend hb hback e t he piece n hescape literal m hm ih =>
    cases beq_iff_eq.mp hback
    obtain ⟨tail, more, rfl, htail, hplain⟩ := escape_spec hquote hhex e t
    have hn : n = tail.length := by rwa [hescape] at htail
    rw [hn, List.drop_left] at hm ih
    rw [hm] at ih
    rw [closing_escape hb, if_neg he, closing_append hplain, ← ih, hn]
    simp [Nat.add_assoc]
  | case7 b t hend hb hback c extra hhead literal m hm ih =>
    obtain ⟨c', tail, more, rfl, htail, hplain⟩ := headChar_tail b t
    cases hhead.symm.trans htail
    rw [List.drop_left] at hm ih
    rw [hm] at ih
    have hplain : ∀ x ∈ tail, x ∉ [0, 0x0A, 0x5C, quote] := fun x hx =>
      not_special_of_isTail hquote (hplain x hx)
    rw [closing_byte (not_special hend hback hb), closing_append hplain, ← ih]
    simp [Nat.add_assoc]

/-- Escapes may be read differently, but a quoted text is as long in lower case. -/
theorem quoted_lower (hstart : isIdentStart quote = false) (hquote : quote < 0x80)
    (hhex : hexValue? quote = none) (t : Text) :
    (quoted quote (lowerAscii t)).1.isSome = (quoted quote t).1.isSome ∧
      (quoted quote (lowerAscii t)).2 = (quoted quote t).2 := by
  have h := closing_lower hstart t
  rw [← quoted_closing hquote hhex, ← quoted_closing hquote hhex] at h
  exact Prod.mk.inj h

theorem variableLength_eq {word : Nat} (hword : (t.takeWhile isIdentByte).length = word) :
    variableLength t = match t.drop word with
      | c :: d :: b :: rest =>
        if c == 0x3A && d == 0x3A && isIdentByte b then word + 2 + variableLength (b :: rest)
        else word
      | _ => word := by
  rw [variableLength]
  simp only [hword]
  split <;> rename_i hdrop <;> rw [hword] at hdrop <;> simp only [hdrop]

theorem variableLength_lower (t : Text) : variableLength (lowerAscii t) = variableLength t := by
  fun_induction variableLength t with
  | case1 t n c d b rest hdrop hjoin ih =>
    rw [variableLength_eq (length_takeWhile_lowerAscii caseless_isIdentByte t), drop_lowerAscii,
      hdrop]
    simp only [lowerAscii_cons, lowerByte_beq (x := 0x3A) rfl, caseless_isIdentByte b, hjoin, if_true]
    rw [← lowerAscii_cons, ih]
  | case2 t n c d b rest hdrop hjoin =>
    rw [variableLength_eq (length_takeWhile_lowerAscii caseless_isIdentByte t), drop_lowerAscii,
      hdrop]
    simp only [lowerAscii_cons, lowerByte_beq (x := 0x3A) rfl, caseless_isIdentByte b, hjoin]
    rfl
  | case3 t n hdrop =>
    rw [variableLength_eq (length_takeWhile_lowerAscii caseless_isIdentByte t), drop_lowerAscii]
    rcases hrest : t.drop (t.takeWhile isIdentByte).length with _ | ⟨c, _ | ⟨d, _ | ⟨b, rest⟩⟩⟩
    · rfl
    · rfl
    · rfl
    · exact (hdrop c d b rest hrest).elim

theorem caseless_isExponent : Caseless fun e => e == 0x65 || e == 0x45 :=
  .of_letters (by decide)

theorem caseless_isHexMark : Caseless fun x => x == 0x78 || x == 0x58 :=
  .of_letters (by decide)

theorem fractionLength_lower (t : Text) : fractionLength (lowerAscii t) = fractionLength t := by
  cases t with
  | nil => rfl
  | cons p t =>
    rw [lowerAscii_cons, fractionLength, fractionLength, lowerByte_beq rfl,
      any_head?_lowerAscii caseless_isDigit, length_takeWhile_lowerAscii caseless_isDigit]

theorem exponentLength_lower (t : Text) : exponentLength (lowerAscii t) = exponentLength t := by
  have hletter (e : UInt8) : (lowerByte e == 0x65 || lowerByte e == 0x45) = (e == 0x65 || e == 0x45) :=
    caseless_isExponent e
  match t with
  | [] => rfl
  | [_] => rfl
  | e :: s :: t =>
    have hrun := length_takeWhile_lowerAscii caseless_isDigit (s :: t)
    rw [lowerAscii_cons] at hrun
    rw [lowerAscii_cons, lowerAscii_cons, exponentLength, exponentLength, hletter e,
      lowerByte_beq rfl, lowerByte_beq rfl, caseless_isDigit,
      length_takeWhile_lowerAscii caseless_isDigit, hrun]

theorem decimal_lower (t : Text) : number.decimal (lowerAscii t) = number.decimal t := by
  have hwhole := length_takeWhile_lowerAscii caseless_isDigit t
  have hfraction : fractionLength ((lowerAscii t).drop (t.takeWhile isDigit).length) =
      fractionLength (t.drop (t.takeWhile isDigit).length) := by
    rw [drop_lowerAscii, fractionLength_lower]
  rw [decimal_eq t rfl rfl rfl]
  refine decimal_eq (lowerAscii t) hwhole hfraction ?_
  rw [drop_lowerAscii, exponentLength_lower]

theorem number_lower (t : Text) : number (lowerAscii t) = number t := by
  have hmark (x : UInt8) : (lowerByte x == 0x78 || lowerByte x == 0x58) = (x == 0x78 || x == 0x58) :=
    caseless_isHexMark x
  match t with
  | [] => rfl
  | [b] => exact decimal_lower [b]
  | z :: x :: t =>
    have hdecimal := decimal_lower (z :: x :: t)
    rw [lowerAscii_cons, lowerAscii_cons] at hdecimal ⊢
    rw [number, number, lowerByte_beq rfl, hmark, hdecimal,
      length_takeWhile_lowerAscii caseless_isHexDigit]

theorem operator?_lower (t : Text) : operator? (lowerAscii t) = operator? t := by
  have hplain : ∀ k ∈ TokenKind.operators, (k.name.all (!isIdentStart ·)) = true := by
    decide
  rw [operator?, operator?]
  refine List.find?_congr ?_
  intro k hk
  have hname : ∀ x ∈ k.name, isIdentStart x = false := by simpa using hplain k hk
  exact startsWith_lowerAscii hname t

theorem string_shape (k : TokenKind) (t : Text) :
    (scan.string b t k).kind = (if (quoted b t).1.isSome then k else .error) ∧
      (scan.string b t k).tail = (quoted b t).2 := by
  unfold scan.string
  split
  · rename_i hquoted
    rw [hquoted]
    exact ⟨rfl, rfl⟩
  · rename_i hquoted
    rw [hquoted]
    exact ⟨rfl, rfl⟩

theorem string_lower (hstart : isIdentStart b = false) (hquote : b < 0x80)
    (hhex : hexValue? b = none) (k : TokenKind) (t : Text) :
    (scan.string b (lowerAscii t) k).kind = (scan.string b t k).kind ∧
      (scan.string b (lowerAscii t) k).tail = (scan.string b t k).tail := by
  obtain ⟨hsome, hlength⟩ := quoted_lower hstart hquote hhex t
  obtain ⟨hkind', htail'⟩ := string_shape (b := b) k (lowerAscii t)
  obtain ⟨hkind, htail⟩ := string_shape (b := b) k t
  rw [hkind', htail', hkind, htail, hsome, hlength]
  exact ⟨rfl, rfl⟩

theorem scan_lower (hb : isIdentStart b = false) (t : Text) :
    (scan b (lowerAscii t)).kind = (scan b t).kind ∧
      (scan b (lowerAscii t)).tail = (scan b t).tail := by
  have hcons : b :: lowerAscii t = lowerAscii (b :: t) := by
    rw [lowerAscii_cons, lowerByte_eq_self hb]
  unfold scan
  simp only [any_head?_lowerAscii caseless_isDigit, any_head?_lowerAscii caseless_isIdentStart, hb,
    hcons, number_lower, operator?_lower, variableLength_lower, headChar_lowerAscii]
  split
  · rename_i hquote
    cases beq_iff_eq.mp hquote
    exact string_lower rfl (by decide) rfl _ t
  · split
    · rename_i hquote
      cases beq_iff_eq.mp hquote
      exact string_lower rfl (by decide) rfl _ t
    · split
      · exact ⟨rfl, rfl⟩
      · split
        · exact ⟨rfl, rfl⟩
        · cases operator? (b :: t) <;> exact ⟨rfl, rfl⟩

end Lexeme

end ConsoleScript
