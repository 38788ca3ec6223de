import ConsoleScript.Proofs.Source.Lexing
import ConsoleScript.Proofs.Text.Reading
import Mathlib.Data.List.DropRight

/-!
# How tokens lie in a source

The tokens of a source cover pieces of it one behind the other, and between them stand blanks and
comments only. A cursor knows its line and its column: the line ends before it, and the characters
behind the last one of them.
-/

namespace ConsoleScript

open Text

variable {b quote : UInt8} {n : Nat} {s t rest more before : Text}

/-! ## Texts of one byte a character -/

/-- Does the text start with `n` bytes that are characters of their own? -/
structure Text.Plain (n : Nat) (t : Text) : Prop where
  le : n ≤ t.length
  ascii : ∀ x ∈ t.take n, x < 0x80

/-- Can the byte stand in a word, a variable or a numeral? -/
def isWordByte (b : UInt8) : Bool :=
  isIdentByte b || [0x24, 0x25, 0x2B, 0x2D, 0x2E, 0x3A].contains b

/-- Does the text start with `n` bytes of words, variables and numerals? -/
structure Text.Worded (n : Nat) (t : Text) : Prop where
  le : n ≤ t.length
  bytes : ∀ x ∈ t.take n, isWordByte x = true

theorem ascii_of_isIdentByte {x : UInt8} (h : isIdentByte x = true) : x < 0x80 := by
  rw [UInt8.lt_iff_toNat_lt]
  simp only [isIdentByte, isIdentStart, isDigit, Bool.or_eq_true, Bool.and_eq_true, beq_iff_eq,
    decide_eq_true_eq, UInt8.le_iff_toNat_le, ← UInt8.toNat_inj, UInt8.reduceToNat] at h ⊢
  omega

theorem ascii_of_isWordByte {x : UInt8} (h : isWordByte x = true) : x < 0x80 := by
  have hsigns : ∀ y ∈ [0x24, 0x25, 0x2B, 0x2D, 0x2E, 0x3A], y < (0x80 : UInt8) := by
    decide +kernel
  obtain hident | hsign := Bool.or_eq_true_iff.mp h
  · exact ascii_of_isIdentByte hident
  · exact hsigns x (List.contains_iff_mem.mp hsign)

theorem isWordByte_of_isIdentByte {x : UInt8} (h : isIdentByte x = true) : isWordByte x = true := by
  rw [isWordByte, h, Bool.true_or]

theorem isWordByte_of_isDigit {x : UInt8} (h : isDigit x = true) : isWordByte x = true :=
  isWordByte_of_isIdentByte (by rw [isIdentByte, h, Bool.or_true])

theorem isWordByte_of_isHexDigit {x : UInt8} (h : isHexDigit x = true) : isWordByte x = true := by
  refine isWordByte_of_isIdentByte ?_
  simp only [isHexDigit, isIdentByte, isIdentStart, isDigit, Bool.or_eq_true, Bool.and_eq_true,
    decide_eq_true_eq, UInt8.le_iff_toNat_le, UInt8.reduceToNat] at h ⊢
  omega

theorem ascii_of_isAsciiBlank {x : UInt8} (h : isAsciiBlank x = true) : x < 0x80 := by
  simp only [isAsciiBlank, Bool.or_eq_true, beq_iff_eq] at h
  obtain ((rfl | rfl) | rfl) | rfl := h <;> decide

namespace Text.Worded

theorem zero (t : Text) : Worded 0 t := ⟨Nat.zero_le _, by simp⟩

theorem cons (hb : isWordByte b = true) (h : Worded n t) : Worded (n + 1) (b :: t) := by
  constructor
  · simpa using h.le
  · simpa [hb] using h.bytes

theorem add {m : Nat} (hm : Worded m t) (hn : Worded n (t.drop m)) : Worded (m + n) t := by
  constructor
  · have := hn.le
    rw [List.length_drop] at this
    have := hm.le
    omega
  · intro x hx
    rw [List.take_add, List.mem_append] at hx
    exact hx.elim (hm.bytes x) (hn.bytes x)

theorem takeWhile {p : UInt8 → Bool} (hp : ∀ x, p x = true → isWordByte x = true) (t : Text) :
    Worded (t.takeWhile p).length t := by
  have hstart := List.takeWhile_prefix (l := t) p
  refine ⟨hstart.length_le, ?_⟩
  rw [← List.prefix_iff_eq_take.mp hstart]
  intro x hx
  exact hp x (List.mem_takeWhile_imp hx)

theorem plain (h : Worded n t) : Plain n t :=
  ⟨h.le, fun x hx => ascii_of_isWordByte (h.bytes x hx)⟩

end Text.Worded

namespace Lexeme

theorem worded_fractionLength (t : Text) : Worded (fractionLength t) t := by
  cases t with
  | nil => exact .zero _
  | cons p t =>
    rw [fractionLength]
    split
    · rename_i h
      simp only [Bool.and_eq_true, beq_iff_eq] at h
      rw [Nat.add_comm]
      exact .cons (by rw [h.1]; decide) (.takeWhile (fun _ => isWordByte_of_isDigit) t)
    · exact .zero _

theorem worded_exponentLength (t : Text) : Worded (exponentLength t) t := by
  unfold exponentLength
  split
  · rename_i e s t
    split
    · rename_i he
      have he : isWordByte e = true := by
        rcases Bool.or_eq_true_iff.mp he with h | h <;> rw [beq_iff_eq.mp h] <;> decide
      split
      · rename_i hs
        have hs : isWordByte s = true := by
          rcases Bool.or_eq_true_iff.mp hs with h | h <;> rw [beq_iff_eq.mp h] <;> decide
        rw [Nat.add_comm]
        exact .cons he (.cons hs (.takeWhile (fun _ => isWordByte_of_isDigit) t))
      · split
        · rw [Nat.add_comm]
          exact .cons he (.takeWhile (fun _ => isWordByte_of_isDigit) (s :: t))
        · exact .zero _
    · exact .zero _
  · exact .zero _

theorem worded_number (t : Text) : Worded (number t).2 t := by
  have hdecimal (t : Text) : Worded (number.decimal t).2 t := by
    rw [decimal_eq t rfl rfl rfl]
    have hwhole : Worded (t.takeWhile isDigit).length t :=
      .takeWhile (fun _ => isWordByte_of_isDigit) t
    exact (hwhole.add (worded_fractionLength _)).add (worded_exponentLength _)
  unfold number
  split
  · rename_i z x t
    split
    · rename_i h
      simp only [Bool.and_eq_true, Bool.or_eq_true, beq_iff_eq] at h
      have hx : isWordByte x = true := by
        rcases h.2 with h | h <;> rw [h] <;> decide
      rw [Nat.add_comm]
      exact .cons (by rw [h.1]; decide)
        (.cons hx (.takeWhile (fun _ => isWordByte_of_isHexDigit) t))
    · exact hdecimal _
  · exact hdecimal _

theorem worded_variableLength (t : Text) : Worded (variableLength t) t := by
  have hname (t : Text) : Worded (t.takeWhile isIdentByte).length t :=
    .takeWhile (fun _ => isWordByte_of_isIdentByte) t
  fun_induction variableLength t with
  | case1 t n c d b rest hdrop hjoin ih =>
    simp only [Bool.and_eq_true, beq_iff_eq] at hjoin
    have hjoined : Worded (2 + variableLength (b :: rest)) (t.drop n) := by
      rw [hdrop, hjoin.1.1, hjoin.1.2, Nat.add_comm]
      exact .cons (by decide) (.cons (by decide) ih)
    rw [Nat.add_assoc]
    exact (hname t).add hjoined
  | case2 t => exact hname t
  | case3 t => exact hname t

end Lexeme

/-! ## Blanks and comments -/

def Text.blockEnd : Text := [0x2A, 0x2F]

/-- Blanks, line ends and comments that are closed: a line comment by the line end behind it, a
block comment by the first mark that closes one. -/
inductive Text.Blank : Text → Prop
  | nil : Blank []
  | blank {b : UInt8} {t : Text} : isAsciiBlank b = true → Blank t → Blank (b :: t)
  | line {comment t : Text} : 0 ∉ comment → 0x0A ∉ comment → Blank (0x0A :: t) →
    Blank (0x2F :: 0x2F :: (comment ++ 0x0A :: t))
  | block {comment t : Text} : 0 ∉ comment → ¬ blockEnd <:+: comment → Blank t →
    Blank (0x2F :: 0x2A :: (comment ++ (blockEnd ++ t)))

inductive Text.Unclosed : Text → Prop
  | line {comment : Text} : 0 ∉ comment → 0x0A ∉ comment → Unclosed (0x2F :: 0x2F :: comment)
  | block {comment : Text} : 0 ∉ comment → ¬ blockEnd <:+: comment →
    Unclosed (0x2F :: 0x2A :: comment)

/-- Is the text used up, or does it start with the zero byte that ends a source? -/
def Text.Ended (t : Text) : Prop := ∀ b ∈ t.head?, b = 0

theorem blockEnd_infix_cons (hb : ¬ (b = 0x2A ∧ t.head? = some 0x2F)) (ht : ¬ blockEnd <:+: t) :
    ¬ blockEnd <:+: b :: t := by
  rw [List.infix_cons_iff, not_or]
  refine ⟨?_, ht⟩
  rintro ⟨more, h⟩
  cases h
  exact hb ⟨rfl, rfl⟩

theorem blockLength_spec (t : Text) : ∃ comment, 0 ∉ comment ∧ ¬ blockEnd <:+: comment ∧
    ((∃ rest, t = comment ++ (blockEnd ++ rest) ∧ Lexeme.blockLength t = comment.length + 2) ∨
      ∃ rest, t = comment ++ rest ∧ Ended rest ∧ Lexeme.blockLength t = comment.length) := by
  have hempty : ¬ blockEnd <:+: [] := by simp [blockEnd]
  fun_induction Lexeme.blockLength t with
  | case1 => exact ⟨[], by simp, hempty, .inr ⟨[], rfl, by simp [Ended], rfl⟩⟩
  | case2 b rest hb =>
    refine ⟨[], by simp, hempty, .inr ⟨b :: rest, rfl, ?_, rfl⟩⟩
    simpa [Ended] using hb
  | case3 b rest hb hclosed =>
    simp only [Bool.and_eq_true, beq_iff_eq] at hclosed
    obtain ⟨rfl, hrest⟩ := hclosed
    obtain ⟨rest, rfl⟩ := List.head?_eq_some_iff.mp hrest
    exact ⟨[], by simp, hempty, .inl ⟨rest, rfl, rfl⟩⟩
  | case4 b rest hb hclosed ih =>
    obtain ⟨comment, hzero, hopen, hends⟩ := ih
    have hzero' : 0 ∉ b :: comment := by
      rw [List.mem_cons, not_or]
      exact ⟨fun h => hb (beq_iff_eq.mpr h.symm), hzero⟩
    have hhead (h : comment.head? = some 0x2F) : rest.head? = some 0x2F := by
      obtain ⟨more, rfl⟩ := List.head?_eq_some_iff.mp h
      obtain ⟨rest, rfl, -⟩ | ⟨rest, rfl, -⟩ := hends
      · rfl
      · rfl
    have hopen' : ¬ blockEnd <:+: b :: comment := by
      apply blockEnd_infix_cons _ hopen
      rintro ⟨rfl, h⟩
      exact hclosed (by simp [hhead h])
    refine ⟨b :: comment, hzero', hopen', ?_⟩
    obtain ⟨rest, rfl, hlength⟩ | ⟨rest, rfl, hrest, hlength⟩ := hends
    · refine .inl ⟨rest, rfl, ?_⟩
      rw [hlength, List.length_cons]
      omega
    · refine .inr ⟨rest, rfl, hrest, ?_⟩
      rw [hlength, List.length_cons]
      omega

theorem Text.Ended.apart (h : Ended t) : Apart t := by
  intro b hb
  rw [h b hb]
  rfl

theorem Text.Blank.ascii (h : Blank t) : ∀ b ∈ t.getLast?, b < 0x80 := by
  induction h with
  | nil => simp
  | @blank b t hb _ ih =>
    cases t with
    | nil =>
      intro x hx
      cases hx
      exact ascii_of_isAsciiBlank hb
    | cons _ t => exact ih
  | line _ _ _ ih =>
    rw [← List.cons_append, ← List.cons_append, List.getLast?_append_of_ne_nil _ (by simp)]
    exact ih
  | @block comment t _ _ _ ih =>
    rw [← List.cons_append, ← List.cons_append, List.getLast?_append_of_ne_nil _ (by simp [blockEnd])]
    cases t with
    | nil =>
      intro x hx
      cases hx
      decide
    | cons _ t => exact ih

theorem Text.Blank.parted {comment : Text} (hs : Blank s)
    (hcomment : comment = [] ∨ Unclosed comment ∧ Ended rest) : Parted (s ++ comment) rest := by
  obtain rfl | ⟨-, hended⟩ := hcomment
  · rw [List.append_nil]
    exact .inr hs.ascii
  · exact .inl hended.apart

theorem blankLength_ended (h : Ended t) : Lexeme.blankLength t = 0 := by
  cases t with
  | nil => rw [Lexeme.blankLength]
  | cons b t =>
    cases h b rfl
    exact blankLength_eq_zero rfl (by decide) t

theorem line_spec (t : Text) : ∃ comment rest, t = comment ++ rest ∧
    t.takeWhile (fun b => b != 0x0A && b != 0) = comment ∧ 0 ∉ comment ∧ 0x0A ∉ comment ∧
    (Ended rest ∨ rest.head? = some 0x0A) := by
  have hne {x : UInt8} (hx : (x != 0x0A && x != 0) = false) :
      x ∉ t.takeWhile fun b => b != 0x0A && b != 0 := by
    intro h
    rw [List.mem_takeWhile_imp (p := fun b => b != 0x0A && b != 0) h] at hx
    cases hx
  refine ⟨_, _, List.takeWhile_append_dropWhile.symm, rfl, hne rfl, hne rfl, ?_⟩
  cases hrest : t.dropWhile fun b => b != 0x0A && b != 0 with
  | nil => exact .inl (by simp [Ended])
  | cons b rest =>
    have hb := List.head?_dropWhile_not (fun b => b != 0x0A && b != 0) t
    rw [hrest] at hb
    by_cases hzero : b = 0
    · exact .inl (by simp [Ended, hzero])
    · exact .inr (by simpa [hzero] using hb)

/-- What is skipped in front of a token is closed; an open comment takes the rest of the source. -/
theorem blankLength_spec (t : Text) : ∃ s comment rest, t = s ++ (comment ++ rest) ∧
    Lexeme.blankLength t = (s ++ comment).length ∧ Blank s ∧
    (comment = [] ∨ Unclosed comment ∧ Ended rest) := by
  fun_induction Lexeme.blankLength t with
  | case1 => exact ⟨[], [], [], rfl, rfl, .nil, .inl rfl⟩
  | case2 b t hb ih =>
    obtain ⟨s, comment, rest, rfl, hlength, hs, hend⟩ := ih
    refine ⟨b :: s, comment, rest, rfl, ?_, .blank hb hs, hend⟩
    rw [hlength, List.cons_append, List.length_cons, Nat.add_comm]
  | case3 b t hb hline n ih =>
    simp only [Bool.and_eq_true, beq_iff_eq] at hline
    obtain ⟨rfl, ht⟩ := hline
    obtain ⟨t, rfl⟩ := List.head?_eq_some_iff.mp ht
    obtain ⟨line, more, rfl, hline, hzero, hnewline, hmore⟩ := line_spec t
    have hn : n = line.length + 1 := by
      rw [← List.length_cons (a := 0x2F), ← hline]
      rfl
    have hdrop : (0x2F :: (line ++ more)).drop n = more := by
      rw [hn, List.drop_succ_cons, List.drop_left]
    rw [hdrop] at ih ⊢
    obtain hended | hhead := hmore
    · refine ⟨[], 0x2F :: 0x2F :: line, more, rfl, ?_, .nil, .inr ⟨.line hzero hnewline, hended⟩⟩
      simp only [blankLength_ended hended, hn, List.nil_append, List.length_cons]
      omega
    · obtain ⟨s, comment, rest, rfl, hlength, hs, hend⟩ := ih
      cases s with
      | cons b s =>
        cases hhead
        refine ⟨0x2F :: 0x2F :: (line ++ 0x0A :: s), comment, rest, by simp, ?_,
          .line hzero hnewline hs, hend⟩
        simp only [hlength, hn, List.length_cons, List.length_append]
        omega
      | nil =>
        -- The line end is a blank, so it is skipped as well.
        obtain ⟨rest, hrest⟩ := List.head?_eq_some_iff.mp hhead
        have hblank : isAsciiBlank 0x0A = true := rfl
        rw [hrest, Lexeme.blankLength, if_pos hblank, Nat.add_comm] at hlength
        obtain rfl | ⟨hcomment, -⟩ := hend
        · cases hlength
        · cases hcomment <;> cases hrest
  | case4 b t hb hline hblock n ih =>
    simp only [Bool.and_eq_true, beq_iff_eq] at hblock
    obtain ⟨rfl, ht⟩ := hblock
    obtain ⟨t, rfl⟩ := List.head?_eq_some_iff.mp ht
    obtain ⟨body, hzero, hopen, ⟨more, hmore, hlength⟩ | ⟨more, hmore, hended, hlength⟩⟩ :=
      blockLength_spec t
    · have hn : n = body.length + 3 := by
        change 1 + Lexeme.blockLength t = _
        omega
      have hdrop : (0x2A :: t).drop n = more := by
        rw [hn, hmore, ← List.append_assoc, List.drop_succ_cons]
        exact List.drop_left' (by simp [blockEnd])
      rw [hdrop] at ih ⊢
      obtain ⟨s, comment, rest, rfl, hskip, hs, hend⟩ := ih
      refine ⟨0x2F :: 0x2A :: (body ++ (blockEnd ++ s)), comment, rest, by simp [hmore], ?_,
        .block hzero hopen hs, hend⟩
      simp only [hskip, hn, blockEnd, List.length_cons, List.length_append, List.length_nil]
      omega
    · have hn : n = body.length + 1 := by
        change 1 + Lexeme.blockLength t = _
        omega
      have hdrop : (0x2A :: t).drop n = more := by
        rw [hn, hmore, List.drop_succ_cons, List.drop_left]
      rw [hdrop, blankLength_ended hended, hmore]
      refine ⟨[], 0x2F :: 0x2A :: body, more, rfl, ?_, .nil, .inr ⟨.block hzero hopen, hended⟩⟩
      simp only [hn, List.nil_append, List.length_cons]
      omega
  | case5 b t => exact ⟨[], [], b :: t, rfl, rfl, .nil, .inl rfl⟩

/-! ## Quoted texts -/

/-- What may stand between two quotes: escapes, and bytes that neither end the line nor close the
text. -/
inductive Text.Enclosed (quote : UInt8) : Text → Prop
  | nil : Enclosed quote []
  | byte {b : UInt8} {t : Text} : b ∉ [0, 0x0A, 0x5C, quote] → Enclosed quote t →
    Enclosed quote (b :: t)
  | escape {e : UInt8} {t : Text} : e ≠ 0 → Enclosed quote t → Enclosed quote (0x5C :: e :: t)

theorem Text.Enclosed.append (hs : ∀ b ∈ s, b ∉ [0, 0x0A, 0x5C, quote]) (ht : Enclosed quote t) :
    Enclosed quote (s ++ t) := by
  induction s with
  | nil => exact ht
  | cons b s ih =>
    obtain ⟨hb, hs⟩ := List.forall_mem_cons.mp hs
    exact .byte hb (ih hs)

theorem not_special (hend : ¬ (b == 0 || b == 0x0A) = true) (hback : ¬ (b == 0x5C) = true)
    (hquote : ¬ (b == quote) = true) : b ∉ [0, 0x0A, 0x5C, quote] := by
  simp only [Bool.or_eq_true, beq_iff_eq, not_or] at hend hback hquote
  simp [hend, hback, hquote]

theorem not_special_of_isTail (hquote : quote < 0x80) (hb : isTail b) :
    b ∉ [0, 0x0A, 0x5C, quote] := by
  have hne {x : UInt8} (hx : x < 0x80) : b ≠ x := by
    rintro rfl
    exact not_lt_of_isTail hb hx
  simp [hne, hquote]

theorem not_special_of_hexValue? {x : Nat} (hquote : hexValue? quote = none)
    (hb : hexValue? b = some x) : b ∉ [0, 0x0A, 0x5C, quote] := by
  have hne {y : UInt8} (hy : hexValue? y = none) : b ≠ y := by
    rintro rfl
    rw [hy] at hb
    cases hb
  simp [hne hquote, hne (y := 0) rfl, hne (y := 0x0A) rfl, hne (y := 0x5C) rfl]

/-- The bytes behind the first one of a character only continue it. -/
theorem headChar_tail (b : UInt8) (t : Text) : ∃ c tail rest, t = tail ++ rest ∧
    headChar b t = (c, tail.length) ∧ ∀ x ∈ tail, isTail x := by
  obtain ⟨-, h, -⟩ | ⟨-, h⟩ | ⟨c, tail, rest, -, rfl, -, htail, h, -⟩ := headChar_cases b t
  · exact ⟨_, [], t, rfl, h, by simp⟩
  · exact ⟨_, [], t, rfl, h, by simp⟩
  · exact ⟨c, tail, rest, rfl, h, htail⟩

theorem escape_spec (hquote : quote < 0x80) (hhex : hexValue? quote = none) (e : UInt8) (t : Text) :
    ∃ tail rest, t = tail ++ rest ∧ (Lexeme.quoted.escape e t).2 = tail.length ∧
      ∀ x ∈ tail, x ∉ [0, 0x0A, 0x5C, quote] := by
  have hone : ∃ tail rest, t = tail ++ rest ∧ 0 = tail.length ∧
      ∀ x ∈ tail, x ∉ [0, 0x0A, 0x5C, quote] := ⟨[], t, rfl, rfl, by simp⟩
  unfold Lexeme.quoted.escape
  split
  · exact hone
  · split
    · exact hone
    · split
      · exact hone
      · split
        · split
          · rename_i h l rest
            split
            · rename_i hh hl
              refine ⟨[h, l], rest, rfl, rfl, ?_⟩
              simp only [List.forall_mem_cons]
              exact ⟨not_special_of_hexValue? hhex hh, not_special_of_hexValue? hhex hl, by simp⟩
            · exact hone
          · exact hone
        · obtain ⟨c, tail, rest, rfl, h, htail⟩ := headChar_tail e t
          refine ⟨tail, rest, rfl, by rw [h], ?_⟩
          intro x hx
          exact not_special_of_isTail hquote (htail x hx)

theorem quoted_spec (hquote : quote < 0x80) (hhex : hexValue? quote = none) {literal : Text}
    (h : (Lexeme.quoted quote t).1 = some literal) :
    ∃ body rest, t = body ++ quote :: rest ∧ (Lexeme.quoted quote t).2 = body.length + 1 ∧
      Enclosed quote body := by
  fun_induction Lexeme.quoted quote t generalizing literal with
  | case1 => cases h
  | case2 => cases h
  | case3 b t hend hb =>
    cases beq_iff_eq.mp hb
    exact ⟨[], t, rfl, rfl, .nil⟩
  | case4 => cases h
  | case5 => cases h
  | case6 b hend hb hback e t he piece n hescape literal' m hm ih =>
    obtain ⟨inner, hinner, -⟩ := Option.map_eq_some_iff.mp h
    obtain ⟨body, rest, hbody, hlength, henclosed⟩ := ih (by rw [hm]; exact hinner)
    obtain ⟨tail, more, rfl, htail, hplain⟩ := escape_spec hquote hhex e t
    cases beq_iff_eq.mp hback
    have hn : n = tail.length := by rwa [hescape] at htail
    rw [hn, List.drop_left] at hbody
    have hm : m = body.length + 1 := by rwa [hm] at hlength
    have he : e ≠ 0 := by simpa using he
    refine ⟨0x5C :: e :: (tail ++ body), rest, ?_, ?_, .escape he (henclosed.append hplain)⟩
    · rw [hbody]
      simp
    · simp only [hn, hm, List.length_cons, List.length_append]
      omega
  | case7 b t hend hb hback c extra hhead literal' m hm ih =>
    obtain ⟨inner, hinner, -⟩ := Option.map_eq_some_iff.mp h
    obtain ⟨body, rest, hbody, hlength, henclosed⟩ := ih (by rw [hm]; exact hinner)
    obtain ⟨c', tail, more, rfl, htail, hplain⟩ := headChar_tail b t
    cases hhead.symm.trans htail
    rw [List.drop_left] at hbody
    have hm : m = body.length + 1 := by rwa [hm] at hlength
    have hplain : ∀ x ∈ tail, x ∉ [0, 0x0A, 0x5C, quote] := fun x hx =>
      not_special_of_isTail hquote (hplain x hx)
    refine ⟨b :: (tail ++ body), rest, ?_, ?_, .byte (not_special hend hback hb) (henclosed.append hplain)⟩
    · rw [hbody]
      simp
    · simp only [hm, List.length_cons, List.length_append]
      omega

/-! ## What a token covers -/

theorem Text.startsWith_iff {t start : Text} : startsWith t start = true ↔ start <+: t := by
  rw [startsWith]
  induction start generalizing t with
  | nil => simp [dropStart?]
  | cons a start ih =>
    cases t with
    | nil => simp [dropStart?]
    | cons b t =>
      rw [dropStart?, List.cons_prefix_cons]
      split
      · rename_i h
        rw [ih, beq_iff_eq.mp h]
        simp
      · rename_i h
        simp [beq_eq_false_iff_ne.mp (Bool.eq_false_iff.mpr h)]

/-- The bytes a token covers. A quoted text reaches from quote to quote; any other token that is
no error and not the end is spelled by its literal. -/
inductive Token.Covers : TokenKind → Text → Text → Prop
  | spelled {kind : TokenKind} {literal : Text} : kind ∉ [.eof, .error, .string, .tagString] →
    literal ≠ [] → Covers kind literal literal
  | string {literal body : Text} : Enclosed 0x22 body →
    Covers .string literal (0x22 :: (body ++ [0x22]))
  | tagString {literal body : Text} : Enclosed 0x27 body →
    Covers .tagString literal (0x27 :: (body ++ [0x27]))

/-- Does the lexeme stand at the start of a text, and end in a character of one byte? -/
def Lexeme.Stands (l : Lexeme) (b : UInt8) (t : Text) : Prop :=
  ∃ tail rest, t = tail ++ rest ∧ l.tail = tail.length ∧
    Token.Covers l.kind l.literal (b :: tail) ∧ ∀ x ∈ (b :: tail).getLast?, x < 0x80

namespace Lexeme

theorem stands_of_plain {kind : TokenKind} (hkind : kind ∉ [.eof, .error, .string, .tagString])
    (h : Plain (n + 1) (b :: t)) : Stands ⟨kind, (b :: t).take (n + 1), n⟩ b t := by
  have hle : n ≤ t.length := by simpa using h.le
  refine ⟨t.take n, t.drop n, (List.take_append_drop n t).symm, ?_, ?_, ?_⟩
  · rw [List.length_take_of_le hle]
  · exact .spelled hkind (by simp)
  · intro x hx
    exact h.ascii x (List.mem_of_mem_getLast? hx)

theorem number_pos (h : isDigit b = true ∨ b = 0x2E ∧ t.head?.any isDigit = true) :
    1 ≤ (number (b :: t)).2 := by
  have hdecimal : 1 ≤ (number.decimal (b :: t)).2 := by
    rw [decimal_eq _ rfl rfl rfl]
    obtain h | ⟨rfl, h⟩ := h
    · rw [List.takeWhile_cons_of_pos h, List.length_cons]
      omega
    · have hfraction : 1 ≤ fractionLength (0x2E :: t) := by
        simp [fractionLength, h]
      change 1 ≤ 0 + fractionLength (0x2E :: t) + _
      omega
  unfold number
  split
  · split
    · exact Nat.le_trans (by decide) (Nat.le_add_right 2 _)
    · exact hdecimal
  · exact hdecimal

theorem number_kind (t : Text) : (number t).1 ∉ [.eof, .error, .string, .tagString] := by
  have hdecimal (t : Text) : (number.decimal t).1 ∉ [.eof, .error, .string, .tagString] := by
    rw [decimal_eq t rfl rfl rfl]
    dsimp only
    split <;> decide
  unfold number
  split
  · split
    · exact (by decide : TokenKind.integer ∉ [.eof, .error, .string, .tagString])
    · exact hdecimal _
  · exact hdecimal _

theorem wordKind_mem (w : Text) :
    wordKind w ∈ .ident :: (TokenKind.joiners ++ TokenKind.keywords) := by
  unfold wordKind
  split
  · rename_i k hk
    exact List.mem_cons_of_mem _ (List.mem_append_left _ (List.mem_of_find?_eq_some hk))
  · cases hk : TokenKind.keywords.find? (·.name == lower w) with
    | none => exact List.mem_cons_self
    | some k =>
      exact List.mem_cons_of_mem _ (List.mem_append_right _ (List.mem_of_find?_eq_some hk))

theorem operators_plain : ∀ k ∈ TokenKind.operators, k ∉ [.eof, .error, .string, .tagString] ∧
    k.name ≠ [] ∧ ∀ x ∈ k.name, x < 0x80 := by
  have hplain : ∀ k ∈ TokenKind.operators, k ∉ [.eof, .error, .string, .tagString] ∧
      k.name ≠ [] ∧ (k.name.all fun x => decide (x < 0x80)) = true := by decide
  intro k hk
  obtain ⟨hkind, hne, hascii⟩ := hplain k hk
  exact ⟨hkind, hne, fun x hx => of_decide_eq_true (List.all_eq_true.mp hascii x hx)⟩

theorem stands_operator {k : TokenKind} (h : operator? (b :: t) = some k) :
    Stands ⟨k, k.name, k.name.length - 1⟩ b t := by
  obtain ⟨hkind, hne, hascii⟩ := operators_plain k (List.mem_of_find?_eq_some h)
  rw [operator?] at h
  have hstarts := List.find?_some h
  obtain ⟨rest, hrest⟩ := startsWith_iff.mp hstarts
  obtain ⟨x, tail, hname⟩ := List.exists_cons_of_ne_nil hne
  rw [hname] at hrest
  cases hrest
  refine ⟨tail, rest, rfl, by rw [hname]; rfl, ?_, ?_⟩
  · rw [← hname]
    exact .spelled hkind hne
  · intro y hy
    rw [← hname] at hy
    exact hascii y (List.mem_of_mem_getLast? hy)

theorem stands_string {kind : TokenKind} (hquote : b < 0x80) (hhex : hexValue? b = none)
    (hcovers : ∀ {literal body}, Enclosed b body →
      Token.Covers kind literal (b :: (body ++ [b])))
    (h : (scan.string b t kind).kind ≠ .error) : (scan.string b t kind).Stands b t := by
  unfold scan.string at h ⊢
  split
  · rename_i literal n hquoted
    have hliteral : (Lexeme.quoted b t).1 = some literal := by rw [hquoted]
    obtain ⟨body, rest, rfl, hlength, hbody⟩ := quoted_spec hquote hhex hliteral
    rw [hquoted] at hlength
    refine ⟨body ++ [b], rest, by simp, by simpa using hlength, hcovers hbody, ?_⟩
    rw [← List.cons_append, List.getLast?_concat]
    intro x hx
    cases hx
    exact hquote
  · rename_i hquoted
    rw [hquoted] at h
    exact absurd rfl h

theorem stands_word (hb : isIdentStart b = true) :
    Stands ⟨wordKind ((b :: t).takeWhile isIdentByte), (b :: t).takeWhile isIdentByte,
      ((b :: t).takeWhile isIdentByte).length - 1⟩ b t := by
  have hplain : Worded ((b :: t).takeWhile isIdentByte).length (b :: t) :=
    .takeWhile (fun _ => isWordByte_of_isIdentByte) _
  have htake := List.prefix_iff_eq_take.mp (List.takeWhile_prefix (l := b :: t) isIdentByte)
  have hlength : ((b :: t).takeWhile isIdentByte).length = (t.takeWhile isIdentByte).length + 1 := by
    rw [List.takeWhile_cons_of_pos (isIdentByte_of_start hb), List.length_cons]
  have hkinds : ∀ k ∈ .ident :: (TokenKind.joiners ++ TokenKind.keywords),
      k ∉ [.eof, .error, .string, .tagString] := by decide
  rw [hlength] at hplain htake ⊢
  have := stands_of_plain (hkinds _ (wordKind_mem ((b :: t).takeWhile isIdentByte))) hplain.plain
  rwa [← htake] at this

theorem stands_switch (h : ((b :: t).takeWhile isIdentByte == ofString "switch" &&
      ((b :: t).drop ((b :: t).takeWhile isIdentByte).length).head? == some 0x24) = true) :
    Stands ⟨.kwSwitchStr, "switch$", ((b :: t).takeWhile isIdentByte).length⟩ b t := by
  simp only [Bool.and_eq_true, beq_iff_eq] at h
  obtain ⟨hword, hsign⟩ := h
  obtain ⟨rest, hrest⟩ := List.head?_eq_some_iff.mp hsign
  have hplain : Worded ((b :: t).takeWhile isIdentByte).length (b :: t) :=
    .takeWhile (fun _ => isWordByte_of_isIdentByte) _
  have hplain := hplain.add (n := 1) (by rw [hrest]; exact .cons (by decide) (.zero _))
  have htake : (b :: t).take (((b :: t).takeWhile isIdentByte).length + 1) = "switch$" := by
    rw [List.take_add, hrest,
      ← List.prefix_iff_eq_take.mp (List.takeWhile_prefix (l := b :: t) isIdentByte), hword]
    rfl
  have : Stands ⟨.kwSwitchStr, _, _⟩ b t := stands_of_plain (by decide) hplain.plain
  rwa [htake] at this

/-- Whatever is no error is a token that stands at the start of the text. -/
theorem scan_stands : (scan b t).kind ≠ .error → (scan b t).Stands b t := by
  unfold scan
  dsimp only
  split
  · rename_i hb
    cases beq_iff_eq.mp hb
    exact stands_string (by decide) rfl .string
  · split
    · rename_i hb
      cases beq_iff_eq.mp hb
      exact stands_string (by decide) rfl .tagString
    · split
      · rename_i hb
        simp only [Bool.or_eq_true, Bool.and_eq_true, beq_iff_eq] at hb
        obtain ⟨n, hn⟩ := Nat.exists_eq_add_of_le' (number_pos hb)
        have hplain := worded_number (b :: t)
        rw [hn] at hplain ⊢
        exact fun _ => stands_of_plain (number_kind (b :: t)) hplain.plain
      · split
        · rename_i hb
          simp only [Bool.or_eq_true, Bool.and_eq_true, beq_iff_eq] at hb
          have hsigil : isWordByte b = true := by
            rcases hb.1 with rfl | rfl <;> decide
          rw [Nat.add_comm]
          refine fun _ => stands_of_plain ?_ (Worded.cons hsigil (worded_variableLength t)).plain
          split <;> decide
        · split
          · rename_i hb
            split
            · exact fun _ => stands_switch ‹_›
            · exact fun _ => stands_word hb
          · split
            · exact fun _ => stands_operator ‹_›
            · exact fun h => absurd rfl h

end Lexeme

/-! ## Positions -/

/-- The part of a text behind its last line end. -/
def Text.lastLine (t : Text) : Text := t.rtakeWhile (· != 0x0A)

/-- The position behind a text: its bytes, its line ends and the characters of its last line are
counted. -/
def Position.behind (t : Text) : Position :=
  ⟨t.length, 1 + t.count 0x0A, 1 + charCount t.lastLine⟩

theorem lastLine_append (hs : 0x0A ∉ s) (t : Text) : lastLine (t ++ s) = lastLine t ++ s := by
  have hall : ∀ x ∈ s.reverse, (x != 0x0A) = true := by
    intro x hx
    rw [bne_iff_ne]
    rintro rfl
    exact hs (List.mem_reverse.mp hx)
  rw [lastLine, lastLine, List.rtakeWhile, List.reverse_append,
    List.takeWhile_append_of_pos hall, List.reverse_append, List.reverse_reverse]
  rfl

theorem lastLine_newline (t : Text) : lastLine (t ++ [0x0A]) = [] :=
  List.rtakeWhile_concat_neg _ _ _ (by decide)

theorem newline_iff {c : Char} {tail : Text} (h : headChar b (tail ++ t) = (c, tail.length)) :
    c = '\n' ∧ b = 0x0A ∧ tail = [] ∨ c ≠ '\n' ∧ 0x0A ∉ b :: tail := by
  have hnewline : ofChar '\n' = [0x0A] := by decide
  have hstray : replacement ≠ '\n' := by decide
  obtain ⟨-, hhead, hc⟩ | ⟨hb, hhead⟩ | ⟨c', s, more, hb, ht, hne, hs, hhead, hc⟩ :=
    headChar_cases b (tail ++ t)
  · obtain ⟨rfl, hlength⟩ := Prod.mk.inj (h.symm.trans hhead)
    cases List.length_eq_zero_iff.mp hlength
    by_cases hb : b = 0x0A
    · subst hb
      exact .inl ⟨rfl, rfl, rfl⟩
    · refine .inr ⟨?_, by simpa [eq_comm] using hb⟩
      intro heq
      rw [heq, hnewline] at hc
      cases hc
      exact hb rfl
  · obtain ⟨rfl, hlength⟩ := Prod.mk.inj (h.symm.trans hhead)
    cases List.length_eq_zero_iff.mp hlength
    refine .inr ⟨hstray, ?_⟩
    rw [List.mem_singleton]
    rintro rfl
    exact hb (by decide)
  · obtain ⟨rfl, hlength⟩ := Prod.mk.inj (h.symm.trans hhead)
    cases (List.append_inj ht hlength).1
    refine .inr ⟨?_, ?_⟩
    · rintro rfl
      rw [hnewline] at hc
      cases hc
      exact hne rfl
    · rw [List.mem_cons, not_or]
      constructor
      · rintro rfl
        exact hb (by decide)
      · intro hmem
        exact absurd (hs _ hmem) (by decide)

namespace Cursor

/-- The cursor stands behind the text and knows its position there, unless it is at the end of
the source, and has read the last line in front of what follows. -/
structure Behind (before : Text) (c : Cursor) : Prop where
  offset : c.pos.offset = before.length
  pos : c.rest ≠ [] → c.pos = .behind before
  reads : Reads c.rest before.lastLine

theorem behind_start (source : Text) : (start source).Behind [] := by
  refine ⟨rfl, ?_, .nil⟩
  intro h
  have hne : source ≠ [] := h
  simp [start, Position.behind, hne, lastLine, charCount, chars]

theorem Behind.next {pos : Position} {c : Char} {tail : Text}
    (h : Behind before ⟨pos, b :: (tail ++ rest)⟩)
    (hhead : headChar b (tail ++ rest) = (c, tail.length)) :
    Behind (before ++ b :: tail) ⟨nextPos pos c (tail.length + 1) rest, rest⟩ := by
  have hpos : pos = .behind before := h.pos (List.cons_ne_nil _ _)
  obtain ⟨rfl, rfl, rfl⟩ | ⟨hc, hnewline⟩ := newline_iff hhead
  · refine ⟨?_, ?_, ?_⟩
    · unfold nextPos
      split <;> simp [hpos, Position.behind]
    · intro hrest
      simp [nextPos, hpos, Position.behind, show rest ≠ [] from hrest, lastLine_newline, charCount,
        chars]
      omega
    · rw [lastLine_newline]
      exact .nil
  · obtain ⟨hreads, hchars⟩ := Reads.snoc h.reads hhead
    rw [← lastLine_append hnewline] at hreads hchars
    refine ⟨?_, ?_, hreads⟩
    · unfold nextPos
      split
      · simp [hpos, Position.behind]
      · simp [hc, hpos, Position.behind]
    · intro hrest
      simp [nextPos, hpos, Position.behind, show rest ≠ [] from hrest, hc, charCount, hchars,
        List.count_eq_zero_of_not_mem hnewline]
      omega

theorem Behind.skip {c : Cursor} (h : Behind before c) (n : Nat) :
    ∃ s, c.rest = s ++ (c.skip n).rest ∧ Behind (before ++ s) (c.skip n) := by
  fun_induction Cursor.skip n c generalizing before with
  | case1 c => exact ⟨[], rfl, by rwa [List.append_nil]⟩
  | case2 n pos ih => exact ih h
  | case3 n pos b t =>
    rename_i ch extra hhead rest ih
    obtain ⟨c', tail, more, rfl, hread, -⟩ := headChar_tail b t
    cases hhead.symm.trans hread
    have hrest : rest = more := List.drop_left
    rw [hrest] at ih ⊢
    obtain ⟨s, hs, hbehind⟩ := ih (h.next hread)
    refine ⟨b :: (tail ++ s), ?_, ?_⟩
    · rw [List.cons_append, List.append_assoc, ← hs]
    · rwa [List.append_assoc, List.cons_append] at hbehind

theorem Behind.skip_append {pos : Position} (h : Behind before ⟨pos, s ++ more⟩)
    (hparted : Parted s more) :
    ∃ pos', Cursor.skip s.length ⟨pos, s ++ more⟩ = ⟨pos', more⟩ ∧
      Behind (before ++ s) ⟨pos', more⟩ := by
  obtain ⟨pos', hskip⟩ := Cursor.skip_append hparted pos
  obtain ⟨s', hs', hbehind⟩ := h.skip s.length
  rw [hskip] at hs' hbehind
  cases List.append_cancel_right hs'
  exact ⟨pos', hskip, hbehind⟩

theorem rest_skipBlanks (c : Cursor) :
    c.skipBlanks.rest = c.rest.drop (Lexeme.blankLength c.rest) := by
  obtain ⟨pos, t⟩ := c
  obtain ⟨s, comment, rest, rfl, hlength, hs, hcomment⟩ := blankLength_spec t
  obtain ⟨pos', hskip⟩ := Cursor.skip_append (hs.parted hcomment) pos
  rw [← List.append_assoc] at hlength ⊢
  rw [Cursor.skipBlanks, hlength, hskip, List.drop_left]

theorem Behind.skipBlanks {c : Cursor} (h : Behind before c) : ∃ s comment,
    c.rest = s ++ (comment ++ c.skipBlanks.rest) ∧ Blank s ∧
    (comment = [] ∨ Unclosed comment ∧ Ended c.skipBlanks.rest) ∧
    Behind (before ++ (s ++ comment)) c.skipBlanks := by
  obtain ⟨pos, t⟩ := c
  obtain ⟨s, comment, rest, rfl, hlength, hs, hcomment⟩ := blankLength_spec t
  rw [← List.append_assoc] at h
  obtain ⟨pos', hskip, hbehind⟩ := h.skip_append (hs.parted hcomment)
  have hblanks : Cursor.skipBlanks ⟨pos, s ++ (comment ++ rest)⟩ = ⟨pos', rest⟩ := by
    rw [Cursor.skipBlanks, hlength, ← List.append_assoc, hskip]
  rw [hblanks]
  exact ⟨s, comment, rfl, hs, hcomment, hbehind⟩

end Cursor

/-! ## The tokens of a source -/

namespace Token

/-- The tokens lie in the text, which starts at offset `n`: blanks and closed comments stand in
front of each, and the last one is the end of the source, in front of which a comment may be left
open, or an error. -/
inductive Laid : Nat → Text → List Token → Prop
  | token {n : Nat} {s lexeme rest : Text} {t : Token} {ts : List Token} : Blank s →
    t.pos.offset = n + s.length → Covers t.kind t.literal lexeme →
    Laid (n + s.length + lexeme.length) rest ts → Laid n (s ++ (lexeme ++ rest)) (t :: ts)
  | error {n : Nat} {s rest : Text} {t : Token} : Blank s → t.pos.offset = n + s.length →
    t.kind = .error → ¬ Ended rest → Laid n (s ++ rest) [t]
  | eof {n : Nat} {s comment rest : Text} {t : Token} : Blank s →
    comment = [] ∨ Unclosed comment → t.pos.offset = n + s.length + comment.length →
    t.kind = .eof → Ended rest → Laid n (s ++ (comment ++ rest)) [t]

theorem Covers.ne_nil {kind : TokenKind} {literal lexeme : Text} (h : Covers kind literal lexeme) :
    lexeme ≠ [] := by
  cases h with
  | spelled _ hne => exact hne
  | string => exact List.cons_ne_nil _ _
  | tagString => exact List.cons_ne_nil _ _

theorem Laid.offsets {ts : List Token} (h : Laid n s ts) :
    (∀ t ∈ ts, n ≤ t.pos.offset) ∧ (ts.map (·.pos.offset)).Pairwise (· < ·) := by
  induction h with
  | token _ hoffset hcovers _ ih =>
    have hpos := List.length_pos_of_ne_nil hcovers.ne_nil
    obtain ⟨hle, hpairwise⟩ := ih
    rw [List.map_cons, List.pairwise_cons, List.forall_mem_cons, List.forall_mem_map]
    refine ⟨⟨by omega, ?_⟩, ?_, hpairwise⟩
    · intro u hu
      have := hle u hu
      omega
    · intro u hu
      have := hle u hu
      omega
  | error _ hoffset => simp [hoffset]
  | eof _ _ hoffset => simp [hoffset, Nat.add_assoc]

theorem laid_eof {c : Cursor} (h : c.Behind before) (hended : Ended c.skipBlanks.rest) :
    Laid before.length c.rest [⟨.eof, [], c.skipBlanks.pos⟩] := by
  obtain ⟨s, comment, hrest, hs, hcomment, hbehind⟩ := h.skipBlanks
  have hoffset : c.skipBlanks.pos.offset = before.length + s.length + comment.length := by
    rw [hbehind.offset, List.length_append, List.length_append, Nat.add_assoc]
  rw [hrest]
  exact .eof hs (hcomment.imp_right And.left) hoffset rfl hended

theorem closed_blanks {c : Cursor} (h : c.Behind before) (hended : ¬ Ended c.skipBlanks.rest) :
    ∃ s, c.rest = s ++ c.skipBlanks.rest ∧ Blank s ∧ Cursor.Behind (before ++ s) c.skipBlanks := by
  obtain ⟨s, comment, hrest, hs, rfl | ⟨-, hcomment⟩, hbehind⟩ := h.skipBlanks
  · rw [List.append_nil] at hbehind
    exact ⟨s, hrest, hs, hbehind⟩
  · exact absurd hcomment hended

theorem laid_tokens (source : Text) {c : Cursor} (h : c.Behind before)
    (hsource : source = before ++ c.rest) :
    Laid before.length c.rest (upToError c.tokens) ∧ ∀ t ∈ upToError c.tokens, t.kind ≠ .eof →
      t.pos = .behind (source.take t.pos.offset) := by
  fun_induction Cursor.tokens c generalizing before with
  | case1 c hempty =>
    refine ⟨laid_eof h (by rw [hempty]; simp [Ended]), ?_⟩
    intro t ht hkind
    cases List.mem_singleton.mp ht
    exact absurd rfl hkind
  | case2 c b rest hstart hzero =>
    refine ⟨laid_eof h (by rw [hstart]; simpa [Ended] using hzero), ?_⟩
    intro t ht hkind
    cases List.mem_singleton.mp ht
    exact absurd rfl hkind
  | case3 c b rest hstart hzero =>
    rename_i lexeme ih
    have hended : ¬ Ended c.skipBlanks.rest := by
      rw [hstart]
      simpa [Ended] using hzero
    obtain ⟨s, hrest, hs, hbehind⟩ := closed_blanks h hended
    have hpos : c.skipBlanks.pos = .behind (before ++ s) := hbehind.pos (by rw [hstart]; simp)
    have hoffset : c.skipBlanks.pos.offset = before.length + s.length := by
      rw [hpos, Position.behind, List.length_append]
    have htake : source.take c.skipBlanks.pos.offset = before ++ s := by
      rw [hsource, hrest, hoffset, ← List.append_assoc, ← List.length_append, List.take_left]
    rw [upToError]
    split
    · rename_i hkind
      rw [hrest]
      refine ⟨.error hs hoffset (beq_iff_eq.mp hkind) hended, ?_⟩
      intro t ht _
      cases List.mem_singleton.mp ht
      rw [htake, hpos]
    · rename_i hkind
      obtain ⟨tail, more, rfl, hlength, hcovers, hascii⟩ :=
        Lexeme.scan_stands (b := b) (t := rest) (by simpa using hkind)
      have hcursor : c.skipBlanks = ⟨c.skipBlanks.pos, (b :: tail) ++ more⟩ := by
        rw [List.cons_append, ← hstart]
      rw [hcursor] at hbehind
      obtain ⟨pos', hskip, hnext⟩ := hbehind.skip_append (.inr hascii)
      have hlexeme : lexeme.tail + 1 = (b :: tail).length := by
        rw [List.length_cons, ← hlength]
      rw [← hcursor, ← hlexeme] at hskip
      rw [hskip] at ih ⊢
      obtain ⟨hlaid, hexact⟩ := ih hnext (by rw [hsource, hrest, hstart]; simp)
      rw [List.length_append, List.length_append] at hlaid
      constructor
      · rw [hrest, hstart]
        show Laid _ (_ ++ ((b :: tail) ++ more)) _
        exact .token hs hoffset hcovers hlaid
      · intro t ht
        obtain rfl | ht := List.mem_cons.mp ht
        · intro _
          rw [htake, hpos]
        · exact hexact t ht

/-- The tokens of a source cover it from its start, one behind the other, with blanks and comments
between them, and each one knows its offset, its line and its column. -/
theorem tokenize_laid (source : Text) :
    Laid 0 source (tokenize source) ∧
      ((tokenize source).map (·.pos.offset)).Pairwise (· < ·) ∧
      ∀ t ∈ tokenize source, t.kind ≠ .eof → t.pos = .behind (source.take t.pos.offset) := by
  obtain ⟨hlaid, hpos⟩ := laid_tokens source (Cursor.behind_start source) rfl
  exact ⟨hlaid, hlaid.offsets.2, hpos⟩

/-! ## Quoting and reading back -/

/-- A text that is written as a string literal is read as one token, which stands for the text
with its stray bytes replaced: for the text itself when it consists of characters, and only then. -/
theorem tokenize_expandEscape (s : Text) : ∃ literal stop,
    tokenize (0x22 :: (expandEscape s ++ [0x22])) =
        [⟨.string, literal, ⟨0, 1, 1⟩⟩, ⟨.eof, [], stop⟩] ∧
      stop.offset = (expandEscape s).length + 2 ∧
      (∀ t, Replaces s t ↔ t = literal) ∧ (literal = s ↔ ∃ cs, s = ofChars cs) := by
  have hscan : Lexeme.scan 0x22 (expandEscape s ++ [0x22]) =
      ⟨.string, scrub s, (expandEscape s).length + 1⟩ := by
    simp only [Lexeme.scan, Lexeme.scan.string, quoted_expandEscape]
    rfl
  have hstart := Cursor.behind_start (0x22 :: (expandEscape s ++ [0x22]) ++ [])
  obtain ⟨stop, hskip, hstop⟩ := hstart.skip_append (.inl (by simp [Apart]))
  rw [List.append_nil, List.length_cons, List.length_append, List.length_singleton] at hskip
  refine ⟨scrub s, stop, ?_, ?_, fun t => replaces_iff, scrub_eq_self_iff_exists⟩
  · have htokens : all (0x22 :: (expandEscape s ++ [0x22])) =
        [⟨.string, scrub s, ⟨0, 1, 1⟩⟩, ⟨.eof, [], stop⟩] := by
      rw [all, Cursor.start, Cursor.tokens_cons rfl, hscan, hskip, Cursor.tokens_nil]
      rfl
    rw [tokenize, htokens]
    rfl
  · have := hstop.offset
    simpa using this

end Token

end ConsoleScript
