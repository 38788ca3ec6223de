import ConsoleScript.Console.Export
import ConsoleScript.Proofs.Number.Lasting
import ConsoleScript.Proofs.Text.Characters
import ConsoleScript.Source.Lexer

/-!
# Tokens of assignments

A token in front of a text that continues no character is followed by the tokens of that text.
Names of variables, quoted texts, numerals and words are lexed as one token each, so the tokens of
an exported assignment can be told from its text.
-/

namespace ConsoleScript

open Text

variable {t s more : Text} {b : UInt8} {k : TokenKind} {ts : List (TokenKind × Text)}

/-! ## One token after the other -/

/-- Does no byte at the start of the text continue a character in front of it? -/
def Text.Apart (t : Text) : Prop := ∀ b ∈ t.head?, isTail b = false

theorem Text.apart_cons (h : b < 0x80) (t : Text) : Apart (b :: t) := by
  intro c hc
  cases hc
  rw [Bool.eq_false_iff]
  intro htail
  have := toNat_isTail htail
  rw [UInt8.lt_iff_toNat_lt] at h
  simp only [UInt8.reduceToNat] at h
  omega

theorem Text.Apart.prefix_of_tail {tail : Text} (hmore : Apart more) (htail : ∀ b ∈ tail, isTail b)
    {rest : Text} (h : s ++ more = tail ++ rest) : ∃ s', s = tail ++ s' ∧ rest = s' ++ more := by
  obtain ⟨x, hx, hrest⟩ | ⟨x, rfl, hrest⟩ := List.append_eq_append_iff.mp h
  · cases x with
    | nil =>
      rw [List.append_nil] at hx
      exact ⟨[], by rw [hx, List.append_nil], by simpa using hrest.symm⟩
    | cons b x =>
      have hb := hmore b (by rw [hrest]; rfl)
      rw [htail b (by rw [hx]; simp)] at hb
      cases hb
  · exact ⟨x, rfl, hrest⟩

def Text.Parted (s more : Text) : Prop := Apart more ∨ ∀ b ∈ s.getLast?, b < 0x80

theorem Text.Parted.of_append (h : Parted (t ++ s) more) : Parted s more := by
  obtain h | h := h
  · exact .inl h
  · refine .inr ?_
    intro b hb
    apply h b
    rw [List.getLast?_append, show s.getLast? = some b from hb]
    rfl

theorem Text.Parted.headChar (h : Parted (b :: s) more) : ∃ c tail s', s = tail ++ s' ∧
    headChar b (s ++ more) = (c, tail.length) ∧ Parted s' more := by
  have hs : Parted s more := of_append (t := [b]) h
  obtain ⟨-, hhead, -⟩ | ⟨-, hhead⟩ | ⟨c, tail, rest, hb, hrest, -, htail, hhead, -⟩ :=
    headChar_cases b (s ++ more)
  · exact ⟨_, [], s, rfl, hhead, hs⟩
  · exact ⟨_, [], s, rfl, hhead, hs⟩
  · obtain hmore | hlast := h
    · obtain ⟨s', rfl, -⟩ := hmore.prefix_of_tail htail hrest
      exact ⟨c, tail, s', rfl, hhead, hs.of_append⟩
    · obtain ⟨x, hx, -⟩ | ⟨x, rfl, -⟩ := List.append_eq_append_iff.mp hrest
      · -- The last byte would belong to the character, but it is one of its own.
        have hmem := List.getLast_mem (List.cons_ne_nil b s)
        have hascii := hlast _ (List.getLast?_eq_some_getLast (List.cons_ne_nil b s))
        obtain heq | hmem := List.mem_cons.mp hmem
        · rw [heq] at hascii
          exact absurd hascii hb
        · have := toNat_isTail (htail _ (by rw [hx]; exact List.mem_append_left x hmem))
          rw [UInt8.lt_iff_toNat_lt] at hascii
          simp only [UInt8.reduceToNat] at hascii
          omega
      · exact ⟨c, tail, x, rfl, hhead, hs.of_append⟩

namespace Cursor

theorem skip_append (h : Parted s more) (pos : Position) :
    ∃ pos', skip s.length ⟨pos, s ++ more⟩ = ⟨pos', more⟩ := by
  induction hn : s.length using Nat.strong_induction_on generalizing s pos with
  | h n ih =>
    subst hn
    cases s with
    | nil => exact ⟨pos, by rw [List.length_nil, skip, List.nil_append]⟩
    | cons b s =>
      obtain ⟨c, tail, s', rfl, hhead, hs'⟩ := h.headChar
      have hlength : (tail ++ s').length - tail.length = s'.length := by simp
      rw [List.length_cons, List.cons_append, skip, hhead]
      simp only [hlength, List.append_assoc, List.drop_left]
      refine ih s'.length ?_ hs' _ rfl
      rw [List.length_cons, List.length_append]
      omega

end Cursor

def Token.view (t : Token) : TokenKind × Text := (t.kind, t.literal)

/-- Are these the tokens of a text, wherever it stands? -/
def Lexes (t : Text) (ts : List (TokenKind × Text)) : Prop :=
  ∀ pos, (Cursor.tokens ⟨pos, t⟩).map Token.view = ts

theorem Cursor.tokens_nil (pos : Position) : tokens ⟨pos, []⟩ = [⟨.eof, [], pos⟩] := by
  have hblanks : (Cursor.mk pos []).skipBlanks = ⟨pos, []⟩ := by
    rw [Cursor.skipBlanks, Lexeme.blankLength, Cursor.skip]
  rw [Cursor.tokens]
  split
  · rw [hblanks]
  · rename_i h
    rw [hblanks] at h
    cases h

theorem tokens_congr {c c' : Cursor} (h : c.skipBlanks = c'.skipBlanks) : c.tokens = c'.tokens := by
  rw [Cursor.tokens, Cursor.tokens, h]

theorem Lexes.blank (h : Lexes t ts) (hb : isAsciiBlank b) : Lexes (b :: t) ts := by
  intro pos
  have hascii : b < 0x80 := by
    simp only [isAsciiBlank, Bool.or_eq_true, beq_iff_eq] at hb
    obtain ((rfl | rfl) | rfl) | rfl := hb <;> decide
  have hskip : (Cursor.mk pos (b :: t)).skipBlanks
      = (Cursor.mk (Cursor.nextPos pos (Char.ofNat b.toNat) 1 t) t).skipBlanks := by
    simp only [Cursor.skipBlanks]
    rw [Lexeme.blankLength, if_pos hb, Nat.add_comm, Cursor.skip, headChar_ascii hascii]
    rfl
  rw [tokens_congr hskip]
  exact h _

theorem blankLength_eq_zero (hb : isAsciiBlank b = false) (hslash : b ≠ 0x2F) (t : Text) :
    Lexeme.blankLength (b :: t) = 0 := by
  rw [Lexeme.blankLength, if_neg (by simp [hb])]
  simp [hslash]

/-- A byte that neither ends the source nor starts a blank or a comment. -/
def startsToken (b : UInt8) : Bool := !isAsciiBlank b && b != 0x2F && b != 0

theorem Cursor.tokens_cons (hb : startsToken b = true) (pos : Position) (t : Text) :
    tokens ⟨pos, b :: t⟩ = ⟨(Lexeme.scan b t).kind, (Lexeme.scan b t).literal, pos⟩ ::
      tokens (skip ((Lexeme.scan b t).tail + 1) ⟨pos, b :: t⟩) := by
  simp only [startsToken, Bool.and_eq_true, Bool.not_eq_true', bne_iff_ne] at hb
  obtain ⟨⟨hblank, hslash⟩, hzero⟩ := hb
  have hblanks : (Cursor.mk pos (b :: t)).skipBlanks = ⟨pos, b :: t⟩ := by
    rw [Cursor.skipBlanks, blankLength_eq_zero hblank hslash, Cursor.skip]
  rw [Cursor.tokens]
  split
  · rename_i hrest
    rw [hblanks] at hrest
    cases hrest
  · rename_i b' rest hrest
    rw [hblanks] at hrest
    cases hrest
    simp only [beq_eq_false_iff_ne.mpr hzero, Bool.false_eq_true, if_false, hblanks]

theorem Lexes.token {literal : Text} (h : Lexes more ts) (hmore : Apart more)
    (hb : startsToken b = true) (hscan : Lexeme.scan b (s ++ more) = ⟨k, literal, s.length⟩) :
    Lexes (b :: s ++ more) ((k, literal) :: ts) := by
  intro pos
  obtain ⟨pos', hskip⟩ := Cursor.skip_append (s := b :: s) (.inl hmore) pos
  rw [List.length_cons, List.cons_append] at hskip
  rw [List.cons_append, Cursor.tokens_cons hb, hscan, hskip, List.map_cons, h pos']
  rfl

/-! ## Operators and words -/

theorem scan_operator (hdigit : isDigit b = false) (hstart : isIdentStart b = false)
    (hsign : (b == 0x22 || b == 0x27 || b == 0x2E || b == 0x25 || b == 0x24) = false)
    (hop : Lexeme.operator? (b :: t) = some k) :
    Lexeme.scan b t = ⟨k, k.name, k.name.length - 1⟩ := by
  simp only [Bool.or_eq_false_iff] at hsign
  obtain ⟨⟨⟨⟨hquote, htag⟩, hpoint⟩, hlocal⟩, hglobal⟩ := hsign
  simp only [Lexeme.scan, hquote, htag, hdigit, hpoint, hlocal, hglobal, hstart, hop,
    Bool.false_and, Bool.or_self, Bool.false_eq_true, if_false]

theorem Lexes.assign (h : Lexes (0x20 :: t) ts) :
    Lexes (0x3D :: 0x20 :: t) ((.assign, TokenKind.assign.name) :: ts) := by
  have hscan : Lexeme.scan 0x3D ([] ++ 0x20 :: t) = ⟨.assign, TokenKind.assign.name, 0⟩ :=
    scan_operator rfl rfl rfl rfl
  exact h.token (apart_cons (by decide) t) rfl hscan

theorem Lexes.semicolon (h : Lexes t ts) (ht : Apart t) :
    Lexes (0x3B :: t) ((.semicolon, TokenKind.semicolon.name) :: ts) := by
  have hscan : Lexeme.scan 0x3B ([] ++ t) = ⟨.semicolon, TokenKind.semicolon.name, 0⟩ :=
    scan_operator rfl rfl rfl rfl
  exact h.token ht rfl hscan

/-- An operator of one byte is seen when neither an equality sign nor the same byte follows. -/
theorem operator?_single {x : UInt8} (before after : List TokenKind)
    (hsplit : TokenKind.operators = before ++ k :: after) (hk : k.name = [x])
    (hbefore : ∀ a ∈ before,
      a.name.head?.any (· != x) = true ∨ a.name = [x, 0x3D] ∨ a.name = [x, x])
    (hb : b ≠ 0x3D ∧ b ≠ x) (t : Text) : Lexeme.operator? (x :: b :: t) = some k := by
  rw [Lexeme.operator?, List.find?_eq_some_iff_append]
  refine ⟨by simp [startsWith, dropStart?, hk], before, after, hsplit, ?_⟩
  intro a ha
  obtain hhead | hname | hname := hbefore a ha
  · cases hname : a.name with
    | nil =>
      rw [hname] at hhead
      cases hhead
    | cons y rest =>
      rw [hname] at hhead
      have hne : y ≠ x := by simpa using hhead
      simp [startsWith, dropStart?, hne]
  · simp [startsWith, dropStart?, hname, hb.1.symm]
  · simp [startsWith, dropStart?, hname, hb.2.symm]

theorem Lexes.minus (h : Lexes (b :: t) ts) (hb : b < 0x80) (hne : b ≠ 0x3D ∧ b ≠ 0x2D) :
    Lexes (0x2D :: b :: t) ((.minus, TokenKind.minus.name) :: ts) := by
  have hop : Lexeme.operator? (0x2D :: b :: t) = some .minus :=
    operator?_single (TokenKind.operators.take 24) (TokenKind.operators.drop 25) rfl rfl
      (by decide) hne t
  have hscan : Lexeme.scan 0x2D ([] ++ b :: t) = ⟨.minus, TokenKind.minus.name, 0⟩ :=
    scan_operator rfl rfl rfl hop
  exact h.token (apart_cons hb t) rfl hscan

theorem Lexes.plus (h : Lexes (b :: t) ts) (hb : b < 0x80) (hne : b ≠ 0x3D ∧ b ≠ 0x2B) :
    Lexes (0x2B :: b :: t) ((.plus, TokenKind.plus.name) :: ts) := by
  have hop : Lexeme.operator? (0x2B :: b :: t) = some .plus :=
    operator?_single (TokenKind.operators.take 23) (TokenKind.operators.drop 24) rfl rfl
      (by decide) hne t
  have hscan : Lexeme.scan 0x2B ([] ++ b :: t) = ⟨.plus, TokenKind.plus.name, 0⟩ :=
    scan_operator rfl rfl rfl hop
  exact h.token (apart_cons hb t) rfl hscan

theorem takeWhile_append_of_stop {p : UInt8 → Bool} (hs : ∀ x ∈ s, p x = true) (hb : p b = false)
    (t : Text) : (s ++ b :: t).takeWhile p = s := by
  rw [List.takeWhile_append_of_pos hs, List.takeWhile_cons_of_neg (by simp [hb]), List.append_nil]

theorem isIdentByte_of_start (h : isIdentStart b = true) : isIdentByte b = true := by
  rw [isIdentByte, h, Bool.true_or]

theorem beq_of_start {x : UInt8} (h : isIdentStart b = true) (hx : isIdentStart x = false) :
    (b == x) = false := by
  rw [beq_eq_false_iff_ne]
  rintro rfl
  rw [hx] at h
  cases h

theorem isDigit_of_start (h : isIdentStart b = true) : isDigit b = false := by
  simp only [isIdentStart, isDigit, Bool.or_eq_true, Bool.and_eq_true, decide_eq_true_eq,
    beq_iff_eq, Bool.and_eq_false_iff, decide_eq_false_iff_not, UInt8.le_iff_toNat_le,
    ← UInt8.toNat_inj, UInt8.reduceToNat] at h ⊢
  omega

/-- A word is scanned as a whole, and `switch` with the sign behind it. -/
theorem scan_start (h : isIdentStart b = true) {w : Text}
    (hw : (b :: t).takeWhile isIdentByte = w) :
    Lexeme.scan b t =
      if w == ofString "switch" && ((b :: t).drop w.length).head? == some 0x24 then
        ⟨.kwSwitchStr, "switch$", w.length⟩
      else ⟨Lexeme.wordKind w, w, w.length - 1⟩ := by
  subst hw
  simp only [Lexeme.scan, beq_of_start h (x := 0x22) rfl, beq_of_start h (x := 0x27) rfl,
    isDigit_of_start h, beq_of_start h (x := 0x2E) rfl, beq_of_start h (x := 0x25) rfl,
    beq_of_start h (x := 0x24) rfl, h, Bool.false_and, Bool.or_self, Bool.false_eq_true, if_false,
    if_true]

/-- A word that is no reserved one ends in front of a semicolon. -/
theorem Lexes.word (h : Lexes (0x3B :: t) ts) (hstart : isIdentStart b = true)
    (hs : ∀ x ∈ s, isIdentByte x = true) (hkind : Lexeme.wordKind (b :: s) = .ident) :
    Lexes (b :: s ++ 0x3B :: t) ((.ident, b :: s) :: ts) := by
  have hwhile : (b :: (s ++ 0x3B :: t)).takeWhile isIdentByte = b :: s :=
    takeWhile_append_of_stop (s := b :: s)
      (List.forall_mem_cons.mpr ⟨isIdentByte_of_start hstart, hs⟩) rfl t
  have hdrop : (b :: (s ++ 0x3B :: t)).drop (b :: s).length = 0x3B :: t := by
    rw [← List.cons_append, List.drop_left]
  have hscan : Lexeme.scan b (s ++ 0x3B :: t) = ⟨.ident, b :: s, s.length⟩ := by
    have hswitch : ((0x3B :: t).head? == some 0x24) = false := rfl
    rw [scan_start hstart hwhile, hdrop, hswitch, Bool.and_false, hkind]
    rfl
  have hb : startsToken b = true := by
    simp only [startsToken, isAsciiBlank, beq_of_start hstart (x := 0x20) rfl,
      beq_of_start hstart (x := 0x09) rfl, beq_of_start hstart (x := 0x0D) rfl,
      beq_of_start hstart (x := 0x0A) rfl, bne, beq_of_start hstart (x := 0x2F) rfl,
      beq_of_start hstart (x := 0) rfl]
    rfl
  exact h.token (apart_cons (by decide) t) hb hscan

/-! ## Names of variables -/

/-- Is the text one token that stands for a global variable: the sign, and identifiers joined by
double colons? -/
def Text.isVariable : Text → Bool
  | [] => false
  | b :: rest =>
    b == 0x24 && rest.head?.any isIdentStart && Lexeme.variableLength rest == rest.length

theorem variableLength_stop (hs : ∀ x ∈ s, isIdentByte x = true) (hb : isIdentByte b = false)
    (hcolon : b ≠ 0x3A) (t : Text) : Lexeme.variableLength (s ++ b :: t) = s.length := by
  have hwhile := takeWhile_append_of_stop hs hb t
  rw [Lexeme.variableLength]
  simp only [hwhile]
  split
  · rename_i hdrop
    rw [hwhile, List.drop_left] at hdrop
    cases hdrop
    simp [hcolon]
  · rfl

theorem variableLength_joined (hs : ∀ x ∈ s, isIdentByte x = true) (hb : isIdentByte b = true)
    (t : Text) : Lexeme.variableLength (s ++ 0x3A :: 0x3A :: b :: t) =
      s.length + 2 + Lexeme.variableLength (b :: t) := by
  have hwhile := takeWhile_append_of_stop (b := 0x3A) hs rfl (0x3A :: b :: t)
  conv => lhs; rw [Lexeme.variableLength]
  simp only [hwhile]
  split
  · rename_i hdrop
    rw [hwhile, List.drop_left] at hdrop
    cases hdrop
    simp [hb]
  · rename_i hdrop
    rw [hwhile, List.drop_left] at hdrop
    exact (hdrop _ _ _ _ rfl).elim

theorem variableLength_append (h : Lexeme.variableLength s = s.length) (t : Text) :
    Lexeme.variableLength (s ++ 0x20 :: t) = s.length := by
  have hident (s : Text) : ∀ x ∈ s.takeWhile isIdentByte, isIdentByte x = true :=
    fun x hx => List.mem_takeWhile_imp hx
  have hall {s : Text} (h : (s.takeWhile isIdentByte).length = s.length) :
      Lexeme.variableLength (s ++ 0x20 :: t) = s.length := by
    apply variableLength_stop _ rfl (by decide)
    have hs := hident s
    rwa [(List.takeWhile_prefix isIdentByte).eq_of_length h] at hs
  fun_induction Lexeme.variableLength s with
  | case1 s n c d b rest hdrop hjoin ih =>
    simp only [Bool.and_eq_true, beq_iff_eq] at hjoin
    obtain ⟨⟨rfl, rfl⟩, hb⟩ := hjoin
    have hs : s.takeWhile isIdentByte ++ 0x3A :: 0x3A :: b :: rest = s := by
      rw [← hdrop]
      exact List.prefix_iff_eq_append.mp (List.takeWhile_prefix isIdentByte)
    have hlength := congrArg List.length hs
    simp only [List.length_append, List.length_cons] at hlength
    have hrest := ih (by rw [List.length_cons]; omega)
    rw [← hs, List.append_assoc]
    simp only [List.cons_append, List.length_append, List.length_cons] at hrest ⊢
    rw [variableLength_joined (hident s) hb, hrest]
    omega
  | case2 s n c d b rest hdrop hjoin => exact hall h
  | case3 s n hdrop => exact hall h

theorem Lexes.variable (h : Lexes (0x20 :: t) ts) (hs : isVariable s = true) :
    Lexes (s ++ 0x20 :: t) ((.globalVar, s) :: ts) := by
  cases s with
  | nil => cases hs
  | cons b rest =>
    simp only [isVariable, Bool.and_eq_true, beq_iff_eq] at hs
    obtain ⟨⟨rfl, hstart⟩, hlength⟩ := hs
    have hhead : (rest ++ 0x20 :: t).head?.any isIdentStart = true := by
      cases rest with
      | nil => cases hstart
      | cons b rest => exact hstart
    have hscan : Lexeme.scan 0x24 (rest ++ 0x20 :: t) = ⟨.globalVar, 0x24 :: rest, rest.length⟩ := by
      have htake : (0x24 :: (rest ++ 0x20 :: t)).take (1 + rest.length) = 0x24 :: rest := by
        rw [Nat.add_comm, List.take_succ_cons, List.take_left]
      simp only [Lexeme.scan, hhead, variableLength_append hlength, htake]
      rfl
    exact h.token (apart_cons (by decide) t) rfl hscan

/-! ## Quoted texts -/

def hexDigit (n : Nat) : UInt8 := (ofHex 1 n).headD 0

theorem hexValue?_hexDigit : ∀ n < 16, hexValue? (hexDigit n) = some n := by decide

theorem ofHex_two : ∀ n < 0x20, ofHex 2 n = [hexDigit (n / 16), hexDigit (n % 16)] := by
  decide

theorem expandByte_cases (b : UInt8) :
    (∃ e tail, expandByte b = 0x5C :: e :: tail ∧ e ≠ 0 ∧
      ∀ more, Lexeme.quoted.escape e (tail ++ more) = ([b], tail.length)) ∨
    (expandByte b = [b] ∧ b ≠ 0 ∧ b ≠ 0x0A ∧ b ≠ 0x22 ∧ b ≠ 0x5C) := by
  by_cases hnewline : b = 0x0A
  · subst hnewline
    exact .inl ⟨0x6E, [], rfl, by decide, fun _ => rfl⟩
  by_cases htab : b = 0x09
  · subst htab
    exact .inl ⟨0x74, [], rfl, by decide, fun _ => rfl⟩
  by_cases hreturn : b = 0x0D
  · subst hreturn
    exact .inl ⟨0x72, [], rfl, by decide, fun _ => rfl⟩
  by_cases hquote : b = 0x22
  · subst hquote
    exact .inl ⟨0x22, [], rfl, by decide, fun _ => rfl⟩
  by_cases hback : b = 0x5C
  · subst hback
    exact .inl ⟨0x5C, [], rfl, by decide, fun _ => rfl⟩
  by_cases hlow : b < 0x20
  · left
    have hexpand : expandByte b = 0x5C :: 0x78 :: ofHex 2 b.toNat := by
      simp [expandByte, hnewline, htab, hreturn, hquote, hback, hlow]
      rfl
    have hlow : b.toNat < 0x20 := UInt8.lt_iff_toNat_lt.mp hlow
    rw [ofHex_two b.toNat hlow] at hexpand
    refine ⟨0x78, _, hexpand, by decide, ?_⟩
    intro more
    have hbyte : (16 * (b.toNat / 16) + b.toNat % 16).toUInt8 = b := by
      rw [Nat.div_add_mod]
      exact UInt8.ofNat_toNat
    have hhigh := hexValue?_hexDigit (b.toNat / 16) (by omega)
    have hlow := hexValue?_hexDigit (b.toNat % 16) (by omega)
    simp [Lexeme.quoted.escape, hhigh, hlow, hbyte]
  · refine .inr ⟨?_, ?_, hnewline, hquote, hback⟩
    · simp [expandByte, hnewline, htab, hreturn, hquote, hback, hlow]
    · rintro rfl
      exact hlow (by decide)

theorem expandByte_high (h : ¬ b < 0x80) : expandByte b = [b] := by
  have hne {x : UInt8} (hx : x < 0x80) : b ≠ x := by
    rintro rfl
    exact h hx
  have hlow : ¬ b < 0x20 := by
    rw [UInt8.lt_iff_toNat_lt] at h ⊢
    simp only [UInt8.reduceToNat] at h ⊢
    omega
  simp [expandByte, hne (x := 0x0A) (by decide), hne (x := 0x09) (by decide),
    hne (x := 0x0D) (by decide), hne (x := 0x22) (by decide), hne (x := 0x5C) (by decide), hlow]

theorem not_lt_of_isTail (h : isTail b) : ¬ b < 0x80 := by
  have := toNat_isTail h
  rw [UInt8.lt_iff_toNat_lt]
  simp only [UInt8.reduceToNat]
  omega

theorem expandEscape_cons (b : UInt8) (t : Text) :
    expandEscape (b :: t) = expandByte b ++ expandEscape t := List.flatMap_cons

theorem expandEscape_tail {tail : Text} (h : ∀ x ∈ tail, isTail x) (t : Text) :
    expandEscape (tail ++ t) = tail ++ expandEscape t := by
  induction tail with
  | nil => rfl
  | cons b tail ih =>
    obtain ⟨hb, htail⟩ := List.forall_mem_cons.mp h
    rw [List.cons_append, expandEscape_cons, expandByte_high (not_lt_of_isTail hb), ih htail]
    rfl

theorem takeWhile_expandEscape (t more : Text) :
    (expandEscape t ++ 0x22 :: more).takeWhile isTail = t.takeWhile isTail := by
  induction t with
  | nil => rfl
  | cons b t ih =>
    rw [expandEscape_cons]
    by_cases hb : isTail b
    · rw [expandByte_high (not_lt_of_isTail hb), List.takeWhile_cons_of_pos hb, ← ih]
      exact List.takeWhile_cons_of_pos hb
    · rw [List.takeWhile_cons_of_neg hb]
      obtain ⟨e, tail, h, -⟩ | ⟨h, -⟩ := expandByte_cases b
      · rw [h]
        exact List.takeWhile_cons_of_neg (by decide)
      · rw [h]
        exact List.takeWhile_cons_of_neg hb

theorem headChar_expandEscape (b : UInt8) (t more : Text) :
    headChar b (expandEscape t ++ 0x22 :: more) = headChar b t := by
  rw [← headChar_takeWhile, takeWhile_expandEscape, headChar_takeWhile]

theorem quoted_escape {e : UInt8} {tail : Text} (he : e ≠ 0)
    (hescape : Lexeme.quoted.escape e (tail ++ more) = ([b], tail.length)) :
    Lexeme.quoted 0x22 (0x5C :: e :: (tail ++ more)) =
      ((Lexeme.quoted 0x22 more).1.map (b :: ·), 2 + tail.length + (Lexeme.quoted 0x22 more).2) := by
  rw [Lexeme.quoted]
  simp [he, hescape]

theorem quoted_char (hb : b ≠ 0 ∧ b ≠ 0x0A ∧ b ≠ 0x22 ∧ b ≠ 0x5C) {r : Char × Nat}
    (h : headChar b t = r) :
    Lexeme.quoted 0x22 (b :: t) =
      ((Lexeme.quoted 0x22 (t.drop r.2)).1.map (ofChar r.1 ++ ·),
        1 + r.2 + (Lexeme.quoted 0x22 (t.drop r.2)).2) := by
  rw [Lexeme.quoted.eq_def]
  simp [hb, h]

/-- Between quotes a text is read with its stray bytes replaced. -/
theorem quoted_expandEscape (t more : Text) :
    Lexeme.quoted 0x22 (expandEscape t ++ 0x22 :: more) =
      (some (scrub t), (expandEscape t).length + 1) := by
  induction hn : t.length using Nat.strong_induction_on generalizing t with
  | h n ih =>
    subst hn
    cases t with
    | nil =>
      rw [Lexeme.quoted.eq_def]
      simp [expandEscape, scrub, chars, ofChars]
    | cons b t =>
      rw [expandEscape_cons, List.append_assoc]
      obtain ⟨e, tail, h, he, hescape⟩ | ⟨h, hb⟩ := expandByte_cases b
      · have hascii : b < 0x80 := by
          by_contra hb
          rw [expandByte_high hb] at h
          cases h
        rw [h, List.cons_append, List.cons_append, quoted_escape he (hescape _),
          ih t.length (by simp) t rfl, scrub_cons, headChar_ascii hascii, ofChar_ascii hascii]
        simp only [Option.map_some, List.singleton_append, List.length_append, List.length_cons,
          List.drop_zero, Prod.mk.injEq, true_and]
        omega
      · rw [h, List.singleton_append, quoted_char hb (headChar_expandEscape b t more), scrub_cons]
        have hdrop : (expandEscape t ++ 0x22 :: more).drop (headChar b t).2 =
              expandEscape (t.drop (headChar b t).2) ++ 0x22 :: more ∧ (expandEscape t).length =
            (headChar b t).2 + (expandEscape (t.drop (headChar b t).2)).length := by
          obtain ⟨-, hhead, -⟩ | ⟨-, hhead⟩ | ⟨c, tail, rest, -, rfl, -, htail, hhead, -⟩ :=
            headChar_cases b t
          · simp [hhead]
          · simp [hhead]
          · simp [hhead, expandEscape_tail htail]
        rw [hdrop.1, ih _ (by rw [List.length_drop, List.length_cons]; omega) _ rfl]
        simp only [Option.map_some, List.length_append, List.length_cons,
          List.length_nil, Prod.mk.injEq, true_and]
        omega

theorem Lexes.quoted (h : Lexes (0x3B :: t) ts) (s : Text) :
    Lexes (0x22 :: expandEscape s ++ [0x22] ++ 0x3B :: t) ((.string, scrub s) :: ts) := by
  have hscan : Lexeme.scan 0x22 ((expandEscape s ++ [0x22]) ++ 0x3B :: t) =
      ⟨.string, scrub s, (expandEscape s ++ [0x22]).length⟩ := by
    rw [List.append_assoc, List.singleton_append, List.length_append]
    simp only [Lexeme.scan, Lexeme.scan.string, quoted_expandEscape]
    rfl
  exact h.token (apart_cons (by decide) t) rfl hscan

/-! ## Numerals -/

namespace Lexeme

def fractionLength : Text → Nat
  | p :: rest => if p == 0x2E && rest.head?.any isDigit then
      1 + (rest.takeWhile isDigit).length else 0
  | [] => 0

def exponentLength : Text → Nat
  | e :: s :: rest =>
    if (e == 0x65 || e == 0x45) then
      if s == 0x2B || s == 0x2D then 2 + (rest.takeWhile isDigit).length
      else if isDigit s then 1 + ((s :: rest).takeWhile isDigit).length
      else 0
    else 0
  | _ => 0

theorem decimal_eq (t : Text) {whole fraction exponent : Nat}
    (hwhole : (t.takeWhile isDigit).length = whole) (hfraction : fractionLength (t.drop whole) = fraction)
    (hexponent : exponentLength (t.drop (whole + fraction)) = exponent) :
    number.decimal t = (if fraction + exponent == 0 then .integer else .float,
      whole + fraction + exponent) := by
  rw [← hexponent, ← hfraction, ← hwhole]
  rfl

end Lexeme

namespace Numeral

variable (n : Numeral)

/-- Has the numeral neither a point nor an exponent? -/
def isPlain : Bool := n.fraction.isEmpty && n.exponent.isNone

/-- The kind of token a numeral is. -/
def kind : TokenKind := if n.isPlain then .integer else .float

theorem head?_append_semicolon {s : Text} (hs : s.head?.all (!isDigit ·)) (t : Text) :
    (s ++ 0x3B :: t).head?.all (!isDigit ·) := by
  cases s with
  | nil => rfl
  | cons b s => exact hs

theorem fractionLength_point (t : Text) :
    Lexeme.fractionLength (n.point ++ (n.power ++ 0x3B :: t)) = n.point.length := by
  have hnext := head?_append_semicolon n.head?_power t
  cases hfraction : n.fraction with
  | nil =>
    have hpoint : n.point = [] := by simp [point, hfraction]
    rw [hpoint]
    cases hexp : n.exponent with
    | none =>
      rw [power, hexp]
      rfl
    | some e =>
      rw [power_eq_some n hexp]
      rfl
  | cons b rest =>
    have hpoint : n.point = 0x2E :: n.fraction := by simp [point, hfraction]
    have hb : isDigit b = true := n.isDigits_fraction b (by simp [hfraction])
    rw [hpoint, List.cons_append, Lexeme.fractionLength, takeWhile_digits n.isDigits_fraction hnext]
    simp [hfraction, hb]
    omega

theorem exponentLength_power_append (t : Text) :
    Lexeme.exponentLength (n.power ++ 0x3B :: t) = n.power.length := by
  cases hexp : n.exponent with
  | none =>
    rw [power, hexp]
    cases t <;> rfl
  | some e =>
    have hdigits := Text.isDigits_padZeros 2 (Text.isDigits_ofNat e.natAbs)
    have hrun := takeWhile_digits hdigits (t := 0x3B :: t) rfl
    have hsign : ((if e < 0 then 0x2D else 0x2B : UInt8) == 0x2B
        || (if e < 0 then 0x2D else 0x2B : UInt8) == 0x2D) = true := by
      split <;> rfl
    rw [power_eq_some n hexp, List.cons_append, List.cons_append, Lexeme.exponentLength, hsign, hrun]
    simp
    omega

theorem kind_eq : n.kind = if n.point.length + n.power.length == 0 then .integer else .float := by
  have hpoint : n.point.length = 0 ↔ n.fraction = [] := by
    simp [point]
  have hpower : n.power.length = 0 ↔ n.exponent = none := by
    cases hexp : n.exponent with
    | none => simp [power, hexp]
    | some e => simp [power_eq_some n hexp]
  simp [kind, isPlain, hpoint, hpower]

theorem decimal_spell (t : Text) :
    Lexeme.number.decimal (n.spell ++ 0x3B :: t) = (n.kind, n.spell.length) := by
  have hwhole : (n.spell ++ 0x3B :: t).takeWhile isDigit = n.whole := by
    rw [spell, List.append_assoc]
    exact takeWhile_digits n.isDigits_whole (head?_append_semicolon n.head?_point_power t)
  have hdrop : (n.spell ++ 0x3B :: t).drop n.whole.length = n.point ++ (n.power ++ 0x3B :: t) := by
    rw [spell, List.append_assoc, List.drop_left, List.append_assoc]
  have hfraction : Lexeme.fractionLength ((n.spell ++ 0x3B :: t).drop n.whole.length) =
      n.point.length := by
    rw [hdrop, fractionLength_point]
  have hexponent : Lexeme.exponentLength
      ((n.spell ++ 0x3B :: t).drop (n.whole.length + n.point.length)) = n.power.length := by
    rw [← List.drop_drop, hdrop, List.drop_left, exponentLength_power_append]
  rw [Lexeme.decimal_eq _ (by rw [hwhole]) hfraction hexponent, kind_eq, spell, List.length_append,
    List.length_append, Nat.add_assoc]

theorem number_of_second {t : Text} (h : t.tail.head?.all fun x => x != 0x78 && x != 0x58) :
    Lexeme.number t = Lexeme.number.decimal t := by
  match t with
  | [] => rfl
  | [_] => rfl
  | z :: x :: rest =>
    simp only [List.tail_cons, List.head?_cons, Option.all_some, Bool.and_eq_true, bne_iff_ne] at h
    simp [Lexeme.number, h]

/-- What follows the first digit is no mark of base sixteen. -/
theorem second_spell (t : Text) :
    (n.spell ++ 0x3B :: t).tail.head?.all fun x => x != 0x78 && x != 0x58 := by
  cases hwhole : n.whole with
  | nil => exact absurd hwhole n.nonempty
  | cons d rest =>
    rw [spell, hwhole]
    cases rest with
    | cons x rest =>
      have hx : isDigit x = true := n.isDigits_whole x (by simp [hwhole])
      have hne {y : UInt8} (hy : isDigit y = false) : (x != y) = true := by
        rw [bne_iff_ne]
        rintro rfl
        rw [hx] at hy
        cases hy
      simp [hne (y := 0x78) rfl, hne (y := 0x58) rfl]
    | nil =>
      cases hfraction : n.fraction with
      | cons x fraction =>
        simp only [point, hfraction]
        rfl
      | nil =>
        cases hexp : n.exponent with
        | none =>
          simp only [point, power, hfraction, hexp]
          rfl
        | some e =>
          rw [power_eq_some n hexp, point, hfraction]
          rfl

theorem number_spell (t : Text) :
    Lexeme.number (n.spell ++ 0x3B :: t) = (n.kind, n.spell.length) := by
  rw [number_of_second (n.second_spell t), decimal_spell]

theorem lexes {t : Text} {ts : List (TokenKind × Text)} (h : Lexes (0x3B :: t) ts) :
    Lexes (n.spell ++ 0x3B :: t) ((n.kind, n.spell) :: ts) := by
  have hnumber := n.number_spell t
  obtain ⟨b, hhead, hb⟩ := n.head?_spell
  cases hspell : n.spell with
  | nil =>
    rw [hspell] at hhead
    cases hhead
  | cons d rest =>
    rw [hspell] at hhead hnumber
    cases hhead
    have hne {x : UInt8} (hx : isDigit x = false) : (b == x) = false := by
      rw [beq_eq_false_iff_ne]
      rintro rfl
      rw [hx] at hb
      cases hb
    have hscan : Lexeme.scan b (rest ++ 0x3B :: t) = ⟨n.kind, b :: rest, rest.length⟩ := by
      rw [List.cons_append] at hnumber
      have htake : (b :: (rest ++ 0x3B :: t)).take (b :: rest).length = b :: rest := by
        rw [← List.cons_append, List.take_left]
      simp only [Lexeme.scan, hne (x := 0x22) rfl, hne (x := 0x27) rfl, hb, hnumber, htake]
      rfl
    have hstart : startsToken b = true := by
      simp only [startsToken, isAsciiBlank, hne (x := 0x20) rfl, hne (x := 0x09) rfl,
        hne (x := 0x0D) rfl, hne (x := 0x0A) rfl, bne, hne (x := 0x2F) rfl, hne (x := 0) rfl]
      rfl
    exact h.token (apart_cons (by decide) t) hstart hscan

end Numeral

/-! ## Literals -/

inductive Literal where
  | quoted (t : Text)
  | numeral (negative : Bool) (n : Numeral)
  | nan
  | infinity (negative : Bool)

namespace Literal

def script : Literal → Text
  | quoted t => 0x22 :: expandEscape t ++ [0x22]
  | numeral negative n => Number.signText negative ++ n.spell
  | nan => "NaN"
  | infinity true => "-Inf"
  | infinity false => "+Inf"

def tokens : Literal → List (TokenKind × Text)
  | quoted t => [(.string, scrub t)]
  | numeral true n => [(.minus, TokenKind.minus.name), (n.kind, n.spell)]
  | numeral false n => [(n.kind, n.spell)]
  | nan => [(.ident, "NaN")]
  | infinity true => [(.minus, TokenKind.minus.name), (.ident, "Inf")]
  | infinity false => [(.plus, TokenKind.plus.name), (.ident, "Inf")]

theorem lexes (l : Literal) (h : Lexes (0x3B :: t) ts) :
    Lexes (l.script ++ 0x3B :: t) (l.tokens ++ ts) := by
  have hnan : ∀ x ∈ Text.ofString "aN", isIdentByte x = true := by decide +kernel
  have hinf : ∀ x ∈ Text.ofString "nf", isIdentByte x = true := by decide +kernel
  cases l with
  | quoted t => exact h.quoted t
  | numeral negative n =>
    have hn := n.lexes h
    cases negative with
    | false => exact hn
    | true =>
      obtain ⟨b, hhead, hb⟩ := n.head?_spell
      change Lexes (0x2D :: (n.spell ++ 0x3B :: t)) _
      cases hspell : n.spell with
      | nil =>
        rw [hspell] at hhead
        cases hhead
      | cons d rest =>
        rw [hspell] at hhead hn
        cases hhead
        simp only [isDigit, Bool.and_eq_true, decide_eq_true_eq, UInt8.le_iff_toNat_le,
          UInt8.reduceToNat] at hb
        have hlow : b < 0x80 := UInt8.lt_iff_toNat_lt.mpr (Nat.lt_of_le_of_lt hb.2 (by decide))
        have hne : b ≠ 0x3D ∧ b ≠ 0x2D := by
          constructor
          · rintro rfl
            exact absurd hb (by decide)
          · rintro rfl
            exact absurd hb (by decide)
        rw [tokens, hspell]
        exact hn.minus hlow hne
  | nan => exact h.word (b := 0x4E) rfl hnan (by decide +kernel)
  | infinity negative =>
    have hword := h.word (b := 0x49) rfl hinf (by decide +kernel)
    cases negative with
    | true => exact hword.minus (by decide) (by decide)
    | false => exact hword.plus (by decide) (by decide)

end Literal

/-! ## Rows -/

structure Row where
  name : Text
  literal : Literal

namespace Row

/-- The line of an assignment. -/
def line (r : Row) : Text :=
  r.name ++ Text.ofString " = " ++ r.literal.script ++ [0x3B] ++ [0x0A]

def tokens (r : Row) : List (TokenKind × Text) :=
  (.globalVar, r.name) :: (.assign, TokenKind.assign.name) ::
    (r.literal.tokens ++ [(.semicolon, TokenKind.semicolon.name)])

theorem lexes {r : Row} (hname : isVariable r.name = true) (h : Lexes t ts) :
    Lexes (r.line ++ t) (r.tokens ++ ts) := by
  have hend : Lexes (0x3B :: 0x0A :: t) ((.semicolon, TokenKind.semicolon.name) :: ts) :=
    (h.blank (b := 0x0A) rfl).semicolon (apart_cons (by decide) t)
  have hvalue := ((r.literal.lexes hend).blank (b := 0x20) rfl).assign.blank (b := 0x20) rfl
  have hrow := hvalue.variable hname
  have hsign : Text.ofString " = " = [0x20, 0x3D, 0x20] := rfl
  simpa [line, tokens, hsign] using hrow

end Row

end ConsoleScript
