import ConsoleScript.Number.Decimal
import ConsoleScript.Text.Utf8
import ConsoleScript.Toml.Moment

/-!
# The grammar of TOML

A configuration text is a sequence of lines, each of which opens a table, opens a further element of
an array of tables, or gives a key a value. This module reads the lines; what they add up to is said
in `ConsoleScript.Toml.Document`.

Readers take a text and give what they read with the rest of the text, or nothing. A text is checked
as a whole first: it has to be UTF-8, without control characters other than tabs and ends of lines.
Everything that follows can then go by bytes.
-/

namespace ConsoleScript.Toml

abbrev Key := List Text

/-- A value as it is written. -/
inductive Written where
  | text (t : Text)
  | integer (i : Int64)
  | float (f : Float)
  | boolean (b : Bool)
  | moment (m : Moment)
  | array (items : List Written)
  | table (pairs : List (Key × Written))

inductive Line where
  /-- `[key]` opens a table. -/
  | table (key : Key)
  /-- `[[key]]` opens a further element of an array of tables. -/
  | element (key : Key)
  /-- `key = value` -/
  | pair (key : Key) (value : Written)

namespace Grammar

/-! ## Characters -/

def isBlank (b : UInt8) : Bool := b == 0x20 || b == 0x09

def isLineEnd (b : UInt8) : Bool := b == 0x0A || b == 0x0D

/-- Can the byte stand in a key without quotes? -/
def isBareKeyByte (b : UInt8) : Bool := isIdentByte b || b == 0x2D

def isControl (b : UInt8) : Bool := (b < 0x20 && b != 0x09 && !isLineEnd b) || b == 0x7F

/-- Is every carriage return followed by a line feed? -/
def returnsPaired : Text → Bool
  | [] => true
  | b :: t => (b != 0x0D || t.head? == some 0x0A) && returnsPaired t

def isReadable (t : Text) : Bool := t.isUtf8 && !t.any isControl && returnsPaired t

/-- The text without the mark of a byte order at its start. -/
def dropMark (t : Text) : Text :=
  (Text.dropStart? [0xFF, 0xFE] t <|> Text.dropStart? [0xFE, 0xFF] t
    <|> Text.dropStart? [0xEF, 0xBB, 0xBF] t).getD t

def skipBlanks (t : Text) : Text := t.dropWhile isBlank

def skipLine (t : Text) : Text := t.dropWhile (· != 0x0A)

/-- The text without blanks, ends of lines and comments at its start. -/
def skipSpace : Nat → Text → Text
  | 0, t => t
  | fuel + 1, t =>
    match t.dropWhile fun b => isBlank b || isLineEnd b with
    | 0x23 :: t => skipSpace fuel (skipLine t)
    | t => t

/-- The text from the next line on. Nothing but blanks and a comment may come before it. -/
def lineEnd? (t : Text) : Option Text :=
  match skipBlanks t with
  | [] => some []
  | b :: t => if b == 0x23 then some (skipLine t) else if isLineEnd b then some t else none

/-! ## Strings -/

/-- The character with a code in base sixteen. -/
def charOfHex? (t : Text) : Option Char := do
  let n ← digitsValue? 16 t
  if h : n.isValidChar then some ⟨n.toUInt32, by
    have : n < 4294967296 := by rcases h with h | ⟨_, h⟩ <;> omega
    simpa [UInt32.isValidChar, Nat.mod_eq_of_lt this] using h⟩ else none

/-- How many digits the code of a character has after a letter. -/
def codeWidth? (b : UInt8) : Option Nat :=
  if b == 0x78 then some 2 else if b == 0x75 then some 4 else if b == 0x55 then some 8 else none

/-- What a letter after a backslash stands for. -/
def simpleEscape? (b : UInt8) : Option UInt8 :=
  [(0x62, 0x08), (0x74, 0x09), (0x6E, 0x0A), (0x66, 0x0C), (0x72, 0x0D), (0x65, 0x1B),
    (0x22, 0x22), (0x5C, 0x5C)].lookup b

/-- The text that escapes stand for. In a text of several lines a backslash at the end of a line
takes away all space up to the next character. -/
def unescape? (manyLines : Bool) : Nat → Text → Option Text
  | _, [] => some []
  | 0, _ :: _ => none
  | fuel + 1, 0x5C :: t =>
    let space := t.takeWhile fun b => isBlank b || isLineEnd b
    if manyLines && List.contains space 0x0A then unescape? manyLines fuel (t.drop space.length)
    else match t with
      | [] => none
      | b :: t =>
        match codeWidth? b with
        | some width => do
          if t.length < width then none
          let c ← charOfHex? (t.take width)
          return Text.ofChar c ++ (← unescape? manyLines fuel (t.drop width))
        | none => do
          let c ← simpleEscape? b
          return c :: (← unescape? manyLines fuel t)
  | fuel + 1, b :: t => (unescape? manyLines fuel t).map (b :: ·)

/-- The content of a text on one line up to the closing quote, which a backslash may hide. -/
def lineContent? (quote : UInt8) (escapes : Bool) : Text → Option (Text × Text)
  | [] => none
  | b :: t =>
    if isLineEnd b then none
    else if b == quote then some ([], t)
    else if escapes && b == 0x5C then
      match t with
      | [] => none
      | c :: t => (lineContent? quote escapes t).map fun (u, rest) => (b :: c :: u, rest)
    else (lineContent? quote escapes t).map fun (u, rest) => (b :: u, rest)

/-- Have two quotes been read just now, with no backslash in front of them? -/
def endsInPair (quote : UInt8) (seen : Text) : Bool :=
  match seen with
  | a :: b :: before => a == quote && b == quote && before.head? != some 0x5C
  | _ => false

/-- The content of a text on several lines up to the closing quotes. Up to two quotes may stand in
front of those. `seen` is what was read so far, the last byte first. -/
def blockContent? (quote : UInt8) (escapes : Bool) (seen : Text) : Text → Option (Text × Text)
  | [] => none
  | b :: t =>
    let next : Option (Text × Text) :=
      (blockContent? quote escapes (b :: seen) t).map fun (u, rest) => (b :: u, rest)
    if b == quote then
      match t with
      | c :: d :: rest =>
        if c == quote && d == quote then
          if rest.head? == some quote then
            if endsInPair quote seen then none else next
          else some ([], rest)
        else next
      | _ => next
    else if escapes && b == 0x5C then
      match t with
      | [] => none
      | c :: t =>
        (blockContent? quote escapes (c :: b :: seen) t).map fun (u, rest) => (b :: c :: u, rest)
    else next

def dropLineEnd : Text → Text
  | 0x0A :: t => t
  | 0x0D :: 0x0A :: t => t
  | t => t

/-- Text in double quotes, after the first one. -/
def basic? (t : Text) : Option (Text × Text) := do
  let (raw, rest) ← lineContent? 0x22 true t
  return (← unescape? false raw.length raw, rest)

/-- Text in single quotes, after the first one. -/
def literal? (t : Text) : Option (Text × Text) := lineContent? 0x27 false t

/-- Text in three double quotes, after those. -/
def basicBlock? (t : Text) : Option (Text × Text) := do
  let (raw, rest) ← blockContent? 0x22 true [] t
  let raw := dropLineEnd raw
  return (← unescape? true raw.length raw, rest)

/-- Text in three single quotes, after those. -/
def literalBlock? (t : Text) : Option (Text × Text) :=
  (blockContent? 0x27 false [] t).map fun (u, rest) => (dropLineEnd u, rest)

/-! ## Keys -/

def keyPart? : Text → Option (Text × Text)
  | 0x22 :: t => basic? t
  | 0x27 :: t => literal? t
  | t =>
    let name := t.takeWhile isBareKeyByte
    if name.isEmpty then none else some (name, t.drop name.length)

def key? : Nat → Text → Option (Key × Text)
  | 0, _ => none
  | fuel + 1, t => do
    let (part, t) ← keyPart? (skipBlanks t)
    match skipBlanks t with
    | 0x2E :: t =>
      let (more, t) ← key? fuel t
      return (part :: more, t)
    | t => return ([part], t)

/-! ## Numbers -/

def dropUnderscores? (digit : UInt8 → Bool) : Text → Option Text
  | [] => none
  | [b] => if digit b then some [b] else none
  | b :: c :: t =>
    if !digit b then none
    else if c == 0x5F then (dropUnderscores? digit t).map (b :: ·)
    else (dropUnderscores? digit (c :: t)).map (b :: ·)

/-- The digits of a decimal number, which has no zero in front. -/
def decimalDigits? (t : Text) : Option Text := do
  let ds ← dropUnderscores? isDigit t
  if ds.length > 1 && ds.head? == some 0x30 then none else some ds

/-- The sign at the start of a text, and the rest. -/
def sign (t : Text) : Text × Text := t.splitAt (Number.signLength t)

def integer? (t : Text) : Option Int64 :=
  let (s, t) := sign t
  (decimalDigits? t).bind fun ds => Integer.ofText? (s ++ ds)

def baseInteger? (base : Nat) (t : Text) : Option Int64 := do
  let n ← digitsValue? base (← dropUnderscores? isHexDigit t)
  if n < Number.signedBound then some (Int64.ofNat n) else none

/-- The digits of an exponent, whose sign stays in front. -/
def exponent? (t : Text) : Option Text :=
  let (s, t) := sign t
  (dropUnderscores? isDigit t).map (s ++ ·)

/-- The number with a point or an exponent that a text spells. It has to be finite. -/
def float? (t : Text) : Option Float := do
  let (s, t) := sign t
  let mantissa := t.takeWhile fun b => b != 0x65 && b != 0x45
  let whole ← decimalDigits? (mantissa.takeWhile (· != 0x2E))
  let fraction ← match mantissa.dropWhile (· != 0x2E) with
    | [] => some []
    | _ :: f => (dropUnderscores? isDigit f).map ((0x2E : UInt8) :: ·)
  let power ← match t.drop mantissa.length with
    | [] => some []
    | _ :: e => (exponent? e).map ((0x65 : UInt8) :: ·)
  match (Decimal.parse? (s ++ whole ++ fraction ++ power)).map Decimal.value with
  | some (f, false) => some f
  | _ => none

/-- Can the byte stand in a number with a point or an exponent? -/
def isFloatByte (b : UInt8) : Bool :=
  isDigit b || List.contains (Text.ofString "_.+-eE") b

def isMomentByte (b : UInt8) : Bool :=
  isDigit b || List.contains (Text.ofString "-:Tt .Zz+") b

def number? (t : Text) : Option (Written × Text) :=
  let body := t.drop (Number.signLength t)
  let run := body.takeWhile fun b => isDigit b || b == 0x5F
  match body.drop run.length with
  | b :: _ =>
    if b == 0x2E || b == 0x65 || b == 0x45 then
      let long := t.take (Number.signLength t) ++ body.takeWhile isFloatByte
      (float? long).map fun f => (.float f, t.drop long.length)
    else short run
  | [] => short run
where
  /-- A number without a point. -/
  short (run : Text) : Option (Written × Text) :=
    let n := Number.signLength t + run.length
    (integer? (t.take n)).map fun i => (.integer i, t.drop n)

/-- A number in another base, after the letter of the base. -/
def baseNumber? (base : Nat) (t : Text) : Option (Written × Text) :=
  let run := t.takeWhile fun b => b == 0x5F || (hexValue? b).any (· < base)
  (baseInteger? base run).map fun i => (.integer i, t.drop run.length)

/-- A date or a time. Blanks behind it do not belong to it. -/
def moment? (t : Text) : Option (Written × Text) :=
  let run := t.takeWhile isMomentByte
  let kept := (run.reverse.dropWhile isBlank).reverse
  (Moment.ofText? kept).map fun m => (.moment m, t.drop run.length)

def special? (t : Text) : Option (Written × Text) :=
  let (s, body) := sign t
  let negative := s == [0x2D]
  (Text.dropStart? "inf" body).map (fun rest =>
    (.float (if negative then -1.0 / 0.0 else 1.0 / 0.0), rest))
  <|> (Text.dropStart? "nan" body).map fun rest => (.float (0.0 / 0.0), rest)

def boolean? (t : Text) : Option (Written × Text) :=
  (Text.dropStart? "true" t).map (fun rest => (.boolean true, rest))
  <|> (Text.dropStart? "false" t).map fun rest => (.boolean false, rest)

/-- A value that holds no others and is no text. -/
def scalar? (t : Text) : Option (Written × Text) :=
  match t with
  | 0x30 :: 0x78 :: t => baseNumber? 16 t
  | 0x30 :: 0x6F :: t => baseNumber? 8 t
  | 0x30 :: 0x62 :: t => baseNumber? 2 t
  | t =>
    match t.dropWhile isDigit with
    | b :: _ =>
      if (b == 0x2D || b == 0x3A) && t.head?.any isDigit then moment? t
      else boolean? t <|> special? t <|> number? t
    | [] => number? t

/-! ## Values -/

mutual

def value? : Nat → Text → Option (Written × Text)
  | 0, _ => none
  | fuel + 1, t =>
    match t with
    | 0x22 :: 0x22 :: 0x22 :: t => (basicBlock? t).map fun (u, rest) => (.text u, rest)
    | 0x22 :: t => (basic? t).map fun (u, rest) => (.text u, rest)
    | 0x27 :: 0x27 :: 0x27 :: t => (literalBlock? t).map fun (u, rest) => (.text u, rest)
    | 0x27 :: t => (literal? t).map fun (u, rest) => (.text u, rest)
    | 0x5B :: t => (items? fuel t).map fun (xs, rest) => (.array xs, rest)
    | 0x7B :: t => (pairs? fuel t).map fun (ps, rest) => (.table ps, rest)
    | t => scalar? t

/-- The rest of an array, before a value or the end. -/
def items? : Nat → Text → Option (List Written × Text)
  | 0, _ => none
  | fuel + 1, t => do
    match skipSpace t.length t with
    | 0x5D :: t => return ([], t)
    | t =>
      let (x, t) ← value? fuel t
      match skipSpace t.length t with
      | 0x5D :: t => return ([x], t)
      | 0x2C :: t =>
        let (xs, t) ← items? fuel t
        return (x :: xs, t)
      | _ => none

/-- The rest of a table on a line, before a key or the end. -/
def pairs? : Nat → Text → Option (List (Key × Written) × Text)
  | 0, _ => none
  | fuel + 1, t => do
    match skipSpace t.length t with
    | 0x7D :: t => return ([], t)
    | t =>
      let (k, t) ← key? t.length t
      match t with
      | 0x3D :: t =>
        let (x, t) ← value? fuel (skipBlanks t)
        match skipSpace t.length t with
        | 0x7D :: t => return ([(k, x)], t)
        | 0x2C :: t =>
          let (ps, t) ← pairs? fuel t
          return ((k, x) :: ps, t)
        | _ => none
      | _ => none

end

/-! ## Lines -/

/-- A line that starts a table, after the bracket. -/
def header? (t : Text) : Option (Line × Text) :=
  match t with
  | 0x5B :: t => do
    match ← key? (t.length + 1) t with
    | (k, 0x5D :: 0x5D :: rest) => some (.element k, rest)
    | _ => none
  | t => do
    match ← key? (t.length + 1) t with
    | (k, 0x5D :: rest) => some (.table k, rest)
    | _ => none

def pair? (t : Text) : Option (Line × Text) := do
  match ← key? (t.length + 1) t with
  | (k, 0x3D :: rest) =>
    let (x, rest) ← value? (2 * rest.length + 2) (skipBlanks rest)
    return (.pair k x, rest)
  | _ => none

def lines? : Nat → Text → Option (List Line)
  | 0, _ => none
  | fuel + 1, t => do
    match skipSpace (t.length + 1) t with
    | [] => return []
    | t =>
      let (line, rest) ← match t with
        | 0x5B :: t => header? t
        | t => pair? t
      let more ← lines? fuel (← lineEnd? rest)
      return line :: more

end Grammar

def Line.ofText? (t : Text) : Option (List Line) :=
  let t := Grammar.dropMark t
  if Grammar.isReadable t then Grammar.lines? (t.length + 1) t else none

end ConsoleScript.Toml
