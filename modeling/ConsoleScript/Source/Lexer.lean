import ConsoleScript.Source.Token
import ConsoleScript.Text.Blank
import ConsoleScript.Text.Case

/-!
# Lexing

A source is cut into tokens from left to right. Blanks and comments between tokens are skipped;
at every other byte exactly one lexeme starts, which takes at least that byte. The end of the
text, or a zero byte, ends the source. A lexeme that is no token becomes an error token, and
lexing goes on behind it.
-/

namespace ConsoleScript

structure Cursor where
  pos : Position
  rest : Text
  deriving DecidableEq, Repr

namespace Cursor

/-- The start of a source. An empty source starts in column zero. -/
def start (source : Text) : Cursor := ⟨⟨0, 1, if source.isEmpty then 0 else 1⟩, source⟩

/-- The position behind a character of `size` bytes. The end of the source stays on the line and
column of the last character. -/
def nextPos (pos : Position) (c : Char) (size : Nat) (rest : Text) : Position :=
  if rest.isEmpty then { pos with offset := pos.offset + size }
  else if c == '\n' then ⟨pos.offset + size, pos.line + 1, 1⟩
  else ⟨pos.offset + size, pos.line, pos.column + 1⟩

/-- The cursor behind the next `n` bytes, moved character by character. -/
def skip : Nat → Cursor → Cursor
  | 0, c => c
  | n + 1, ⟨pos, []⟩ => skip n ⟨pos, []⟩
  | n + 1, ⟨pos, b :: rest⟩ =>
    let (ch, extra) := Text.headChar b rest
    let rest := rest.drop extra
    skip (n - extra) ⟨nextPos pos ch (extra + 1) rest, rest⟩

theorem length_rest_skip_le (n : Nat) (c : Cursor) :
    (c.skip n).rest.length ≤ c.rest.length := by
  fun_induction skip n c with
  | case1 => exact Nat.le_refl _
  | case2 n pos ih => exact ih
  | case3 n pos b rest ch extra _ rest' ih =>
    refine Nat.le_trans ih ?_
    simp only [rest', List.length_drop, List.length_cons]
    omega

theorem length_rest_skip_lt (n : Nat) (c : Cursor) (h : c.rest ≠ []) :
    (c.skip (n + 1)).rest.length < c.rest.length := by
  obtain ⟨pos, rest⟩ := c
  cases rest with
  | nil => exact absurd rfl h
  | cons b rest =>
    rw [skip]
    refine Nat.lt_of_le_of_lt (length_rest_skip_le _ _) ?_
    simp only [List.length_drop, List.length_cons]
    omega

end Cursor

/-- Why a piece of source is no token. -/
inductive LexError where
  | unexpectedCharacter (c : Char)
  | unterminatedString
  deriving DecidableEq, Repr

def LexError.message : LexError → Text
  | .unexpectedCharacter c => Text.ofString "unexpected character " ++ Text.quote (Text.ofChar c)
  | .unterminatedString => "unterminated string"

/-- A token without its position: kind, spelling, and how many bytes follow its first one. -/
structure Lexeme where
  kind : TokenKind
  literal : Text
  tail : Nat
  deriving DecidableEq, Repr

namespace Lexeme

/-- The length of a block comment's text, with its closing mark. A zero byte ends it too. -/
def blockLength : Text → Nat
  | [] => 0
  | b :: rest =>
    if b == 0 then 0
    else if b == 0x2A && rest.head? == some 0x2F then 2
    else 1 + blockLength rest

def blankLength : Text → Nat
  | [] => 0
  | b :: rest =>
    if Text.isAsciiBlank b then 1 + blankLength rest
    else if b == 0x2F && rest.head? == some 0x2F then
      let n := (rest.takeWhile fun b => b != 0x0A && b != 0).length
      1 + n + blankLength (rest.drop n)
    else if b == 0x2F && rest.head? == some 0x2A then
      let n := 1 + blockLength (rest.drop 1)
      1 + n + blankLength (rest.drop n)
    else 0
  termination_by t => t.length
  decreasing_by all_goals (simp only [List.length_drop, List.length_cons]; omega)

/-- The text up to the closing quote with its escapes resolved, and the length of all that with
the quote. Without a closing quote on the line there is no text, and the length reaches up to
where reading stopped. -/
def quoted (quote : UInt8) : Text → Option Text × Nat
  | [] => (none, 0)
  | b :: rest =>
    if b == 0 || b == 0x0A then (none, 0)
    else if b == quote then (some [], 1)
    else if b == 0x5C then
      match rest with
      | [] => (none, 1)
      | e :: rest =>
        if e == 0 then (none, 1)
        else
          let (piece, n) := escape e rest
          let (text, m) := quoted quote (rest.drop n)
          (text.map (piece ++ ·), 2 + n + m)
    else
      let (c, extra) := Text.headChar b rest
      let (text, m) := quoted quote (rest.drop extra)
      (text.map (Text.ofChar c ++ ·), 1 + extra + m)
  termination_by t => t.length
  decreasing_by all_goals (simp only [List.length_drop, List.length_cons]; omega)
where
  /-- What an escape that starts with `e` stands for, and how many bytes behind `e` it takes. -/
  escape (e : UInt8) (rest : Text) : Text × Nat :=
    if e == 0x6E then ([0x0A], 0)
    else if e == 0x74 then ([0x09], 0)
    else if e == 0x72 then ([0x0D], 0)
    else if e == 0x78 then
      match rest with
      | h :: l :: _ =>
        match hexValue? h, hexValue? l with
        | some h, some l => ([(16 * h + l).toUInt8], 2)
        | _, _ => ([e], 0)
      | _ => ([e], 0)
    else
      let (c, extra) := Text.headChar e rest
      (Text.ofChar c, extra)

/-- The length of a variable's name behind its sigil: identifiers joined by double colons. -/
def variableLength (t : Text) : Nat :=
  let n := (t.takeWhile isIdentByte).length
  match h : t.drop n with
  | c :: d :: b :: rest =>
    if c == 0x3A && d == 0x3A && isIdentByte b then n + 2 + variableLength (b :: rest) else n
  | _ => n
  termination_by t.length
  decreasing_by
    have := congrArg List.length h
    simp only [List.length_drop, List.length_cons] at this ⊢
    omega

/-- A numeral that starts a text: its kind and length. An exponent needs a digit or a sign. -/
def number (t : Text) : TokenKind × Nat :=
  match t with
  | z :: x :: rest =>
    if z == 0x30 && (x == 0x78 || x == 0x58) then
      (.integer, 2 + (rest.takeWhile isHexDigit).length)
    else decimal t
  | _ => decimal t
where
  /-- A numeral of base ten. -/
  decimal (t : Text) : TokenKind × Nat :=
    let whole := (t.takeWhile isDigit).length
    let fraction := match t.drop whole with
      | p :: rest => if p == 0x2E && rest.head?.any isDigit then
          1 + (rest.takeWhile isDigit).length else 0
      | [] => 0
    let exponent := match t.drop (whole + fraction) with
      | e :: s :: rest =>
        if (e == 0x65 || e == 0x45) then
          if s == 0x2B || s == 0x2D then 2 + (rest.takeWhile isDigit).length
          else if isDigit s then 1 + ((s :: rest).takeWhile isDigit).length
          else 0
        else 0
      | _ => 0
    (if fraction + exponent == 0 then .integer else .float, whole + fraction + exponent)

/-- The kind of a word: a joiner, a reserved word in any letter case, or an identifier. -/
def wordKind (w : Text) : TokenKind :=
  match TokenKind.joiners.find? (·.name == w) with
  | some k => k
  | none => (TokenKind.keywords.find? (·.name == Text.lower w)).getD .ident

def operator? (t : Text) : Option TokenKind :=
  TokenKind.operators.find? fun k => Text.startsWith t k.name

/-- The lexeme that starts with byte `b`. -/
def scan (b : UInt8) (rest : Text) : Lexeme :=
  let t := b :: rest
  if b == 0x22 then string .string
  else if b == 0x27 then string .tagString
  else if isDigit b || (b == 0x2E && rest.head?.any isDigit) then
    let (kind, n) := number t
    ⟨kind, t.take n, n - 1⟩
  else if (b == 0x25 || b == 0x24) && rest.head?.any isIdentStart then
    let n := variableLength rest
    ⟨if b == 0x25 then .localVar else .globalVar, t.take (1 + n), n⟩
  else if isIdentStart b then
    let w := t.takeWhile isIdentByte
    if w == Text.ofString "switch" && (t.drop w.length).head? == some 0x24 then
      ⟨.kwSwitchStr, "switch$", w.length⟩
    else ⟨wordKind w, w, w.length - 1⟩
  else match operator? t with
    | some kind => ⟨kind, kind.name, kind.name.length - 1⟩
    | none =>
      let (c, extra) := Text.headChar b rest
      ⟨.error, (LexError.unexpectedCharacter c).message, extra⟩
where
  /-- A quoted string of the given kind; its quote is `b`. -/
  string (kind : TokenKind) : Lexeme :=
    match quoted b rest with
    | (some text, n) => ⟨kind, text, n⟩
    | (none, n) => ⟨.error, LexError.unterminatedString.message, n⟩

end Lexeme

namespace Cursor

def skipBlanks (c : Cursor) : Cursor := c.skip (Lexeme.blankLength c.rest)

/-- All tokens from a cursor on, up to and including the end of the source. -/
def tokens (c : Cursor) : List Token :=
  match h : c.skipBlanks.rest with
  | [] => [⟨.eof, [], c.skipBlanks.pos⟩]
  | b :: rest =>
    if b == 0 then [⟨.eof, [], c.skipBlanks.pos⟩]
    else
      let lexeme := Lexeme.scan b rest
      ⟨lexeme.kind, lexeme.literal, c.skipBlanks.pos⟩
        :: tokens (c.skipBlanks.skip (lexeme.tail + 1))
  termination_by c.rest.length
  decreasing_by
    refine Nat.lt_of_lt_of_le (length_rest_skip_lt _ _ (by simp [h])) ?_
    exact length_rest_skip_le _ _

end Cursor

namespace Token

/-- All tokens of a source, error tokens among them. -/
def all (source : Text) : List Token := (Cursor.start source).tokens

/-- The tokens up to the first error or the end of the source, whichever comes first. -/
def upToError : List Token → List Token
  | [] => []
  | t :: ts => if t.kind == .error then [t] else t :: upToError ts

/-- The tokens of a source; the last one is the end of the source or the first error. -/
def tokenize (source : Text) : List Token := upToError (all source)

end Token
end ConsoleScript
