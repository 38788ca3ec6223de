import ConsoleScript.Number.Decimal
import ConsoleScript.Number.Integer
import ConsoleScript.Text.Base64
import ConsoleScript.Text.Utf8

/-!
# YAML scalars

How a text is written as the value of a key: bare where it would be read back as the same text,
in quotes where it would be read as something else or contains something special, and as a block
of lines when it has several. Bytes that are no text are written in base 64.
-/

namespace ConsoleScript.Yaml

/-! ## What a bare text would be read as -/

/-- The words that stand for truth values, nothing and special numbers. -/
def reserved : List Text := [
  "true", "True", "TRUE", "false", "False", "FALSE", "~", "null", "Null", "NULL",
  ".nan", ".NaN", ".NAN", ".inf", ".Inf", ".INF", "+.inf", "+.Inf", "+.INF",
  "-.inf", "-.Inf", "-.INF"]

/-- The words that older readers take for truth values. -/
def oldBooleans : List Text := [
  "y", "Y", "yes", "Yes", "YES", "on", "On", "ON", "n", "N", "no", "No", "NO", "off", "Off", "OFF"]

/-- Does the text spell an unsigned integer of 64 bits in a base? -/
def isMagnitude (base limit : Nat) (t : Text) : Bool :=
  !t.isEmpty && (digitsValue? base t).any (· < limit)

/-- Does the text spell an unsigned integer below `limit`, in a base that its beginning names? -/
def isUnsigned (limit : Nat) (t : Text) : Bool :=
  match t with
  | 0x30 :: b :: rest =>
    if b == 0x78 || b == 0x58 then isMagnitude 16 limit rest
    else if b == 0x6F || b == 0x4F then isMagnitude 8 limit rest
    else if b == 0x62 || b == 0x42 then isMagnitude 2 limit rest
    else isMagnitude 8 limit (b :: rest)
  | t => isMagnitude 10 limit t

/-- Does the text spell a signed integer of 64 bits, given how its magnitude is spelled? -/
def isSigned (unsigned : Nat → Text → Bool) (t : Text) : Bool :=
  match t with
  | 0x2D :: rest => unsigned (Number.signedBound + 1) rest
  | 0x2B :: rest => unsigned Number.signedBound rest
  | t => unsigned Number.signedBound t

def isFloat (t : Text) : Bool := (Decimal.parse? t).any fun d => !d.value.2

/-- Is the text a prefix followed by a signed integer in a base? -/
def isBased (start : Text) (base : Nat) (t : Text) : Bool :=
  match Text.dropStart? start t with
  | some rest => isSigned (isMagnitude base) rest
  | none => match Text.dropStart? (0x2D :: start) t with
    | some rest => isSigned (isMagnitude base) (0x2D :: rest)
    | none => false

/-- A number of one or two digits, or of two when `padded`, and what follows it. -/
def shortNumber? (padded : Bool) : Text → Option (Nat × Text)
  | a :: b :: rest =>
    if !isDigit a then none
    else if isDigit b then some ((a.toNat - 0x30) * 10 + (b.toNat - 0x30), rest)
    else if padded then none else some (a.toNat - 0x30, b :: rest)
  | [a] => if isDigit a && !padded then some (a.toNat - 0x30, []) else none
  | [] => none

def daysIn (year month : Nat) : Nat :=
  if month == 2 then
    if year % 4 == 0 && (year % 100 != 0 || year % 400 == 0) then 29 else 28
  else if month == 4 || month == 6 || month == 9 || month == 11 then 30 else 31

def date? (t : Text) : Option Text := do
  let year := t.takeWhile isDigit
  if year.length != 4 then none
  let rest ← Text.dropStart? "-" (t.drop 4)
  let (month, rest) ← shortNumber? false rest
  let rest ← Text.dropStart? "-" rest
  let (day, rest) ← shortNumber? false rest
  if 1 ≤ month && month ≤ 12 && 1 ≤ day && day ≤ daysIn ((digitsValue? 10 year).getD 0) month then
    some rest
  else none

/-- A time of day, and what follows it. -/
def time? (t : Text) : Option Text := do
  let (hour, rest) ← shortNumber? false t
  let rest ← Text.dropStart? ":" rest
  let (minute, rest) ← shortNumber? false rest
  let rest ← Text.dropStart? ":" rest
  let (second, rest) ← shortNumber? false rest
  if 24 ≤ hour || 60 ≤ minute || 60 ≤ second then none
  match rest with
  | b :: c :: more =>
    if (b == 0x2E || b == 0x2C) && isDigit c then some (more.dropWhile isDigit) else some rest
  | _ => some rest

/-- Is the text a time zone? Twenty-four hours and sixty minutes are let through, as they are in
use. -/
def isZone (t : Text) : Bool :=
  match t with
  | [0x5A] => true
  | s :: rest =>
    (s == 0x2B || s == 0x2D) && match shortNumber? true rest with
      | some (hours, 0x3A :: rest) =>
        hours ≤ 24 && match shortNumber? true rest with
          | some (minutes, []) => minutes ≤ 60
          | _ => false
      | _ => false
  | [] => false

/-- Would the text be read as a point in time? -/
def isTimestamp (t : Text) : Bool :=
  match date? t with
  | none => false
  | some [] => true
  | some (b :: rest) =>
    if b == 0x54 || b == 0x74 then (time? rest).any isZone
    else b == 0x20 && (time? (rest.dropWhile (· == 0x20))).any (·.isEmpty)

/-- Would the text be read as a number to the base of sixty, groups of digits between colons? -/
def isBase60 (t : Text) : Bool :=
  let body := t.drop (Number.signLength t)
  let (whole, fraction) := match Text.cut? 0x2E body with
    | some (w, f) => (w, f)
    | none => (body, [])
  let digitOrLine (b : UInt8) : Bool := isDigit b || b == 0x5F
  match Text.splitOnByte 0x3A whole with
  | first :: group :: groups =>
    first.head?.any isDigit && first.all digitOrLine && fraction.all digitOrLine
      && (group :: groups).all fun g =>
        match g with
        | [b] => isDigit b
        | [a, b] => 0x30 ≤ a && a ≤ 0x35 && isDigit b
        | _ => false
  | _ => false

/-- Would a bare text be read as a number or a point in time? -/
def isNumeric (t : Text) : Bool :=
  match t with
  | [] => false
  | b :: _ =>
    if b == 0x2E then isFloat t
    else if isDigit b || Number.isSign b then
      let plain := t.filter (· != 0x5F)
      isTimestamp t || isSigned isUnsigned plain || isUnsigned UInt64.size plain || isFloat plain
        || isBased "0b" 2 plain || isBased "0o" 8 plain
    else false

/-- Would a bare text be read back as the same text? -/
def readsAsText (t : Text) : Bool :=
  !t.isEmpty && !reserved.contains t && !isNumeric t && !isBase60 t && !oldBooleans.contains t

/-! ## What a text is made of -/

def isPlainChar (c : Char) : Bool :=
  let n := c.toNat
  n == 0x0A || (0x20 ≤ n && n ≤ 0x7E) || (0xA0 ≤ n && n ≤ 0xFFFD && n != 0xFEFF)

def isBreak (c : Char) : Bool :=
  c == '\n' || c == '\r' || c == '\u0085' || c == '\u2028' || c == '\u2029'

def isBlank (c : Char) : Bool := c == ' ' || c == '\t'

structure Ways where
  bare : Bool
  quoted : Bool
  block : Bool
  deriving DecidableEq, Repr

/-- Do two neighbours in the text stand in a relation? -/
def anyPair (p : Char → Char → Bool) (cs : List Char) : Bool :=
  (cs.zip (cs.drop 1)).any fun (a, b) => p a b

/-- Does the text start like something other than a text, or look like it inside? -/
def hasIndicator (cs : List Char) : Bool :=
  let starts := match cs with
    | [] => false
    | c :: rest =>
      let blankNext := match rest with
        | [] => true
        | d :: _ => isBlank d
      "#,[]\x7b\x7d&*!|>'\"%@`".toList.contains c || ((c == '?' || c == '-') && blankNext)
  let marker := cs.take 3 == ['-', '-', '-'] || cs.take 3 == ['.', '.', '.']
  let colon := anyPair (fun a b => a == ':' && isBlank b) cs || cs.getLast? == some ':'
  let comment := anyPair (fun a b => b == '#' && (isBlank a || isBreak a || a == '\x00')) cs
  starts || marker || colon || comment

def ways (cs : List Char) : Ways :=
  let atEnds (p : Char → Bool) : Bool := cs.head?.any p || cs.getLast?.any p
  let spaceBreak := anyPair (fun a b => a == ' ' && isBreak b) cs
  let breakSpace := anyPair (fun a b => isBreak a && b == ' ') cs
  let tabs := cs.contains '\t'
  let special := cs.any fun c => !isPlainChar c && c != '\t'
  let quoted := !(spaceBreak || breakSpace || tabs || special)
  { bare := quoted && !atEnds (fun c => c == ' ' || isBreak c) && !cs.any isBreak && !hasIndicator cs
    quoted := quoted
    block := !(spaceBreak || special || cs.getLast? == some ' ') }

/-! ## Writing -/

/-- A digit of base sixteen in upper case. -/
def upperDigits (width n : Nat) : Text :=
  (Text.ofHex width n).map fun b => if 0x61 ≤ b && b ≤ 0x66 then b - 0x20 else b

/-- A character as an escape sequence. -/
def escape (c : Char) : Text :=
  match c.toNat with
  | 0x00 => "\\0"
  | 0x07 => "\\a"
  | 0x08 => "\\b"
  | 0x09 => "\\t"
  | 0x0A => "\\n"
  | 0x0B => "\\v"
  | 0x0C => "\\f"
  | 0x0D => "\\r"
  | 0x1B => "\\e"
  | 0x22 => "\\\""
  | 0x5C => "\\\\"
  | 0x85 => "\\N"
  | 0xA0 => "\\_"
  | 0x2028 => "\\L"
  | 0x2029 => "\\P"
  | n =>
    if n ≤ 0xFF then Text.ofString "\\x" ++ upperDigits 2 n
    else if n ≤ 0xFFFF then Text.ofString "\\u" ++ upperDigits 4 n
    else Text.ofString "\\U" ++ upperDigits 8 n

def doubleQuoted (cs : List Char) : Text :=
  0x22 :: (cs.flatMap fun c =>
    if !isPlainChar c || isBreak c || c == '"' || c == '\\' then escape c else Text.ofChar c) ++ [0x22]

def indentation (n : Nat) : Text := List.replicate n 0x20

/-- A text in single quotes. A line end inside is followed by the indentation. -/
def singleQuoted (indent : Nat) (cs : List Char) : Text :=
  0x27 :: quotedFrom false cs ++ [0x27]
where
  /-- The characters; `fresh` says that a line has just ended. -/
  quotedFrom (fresh : Bool) : List Char → Text
    | [] => []
    | c :: rest =>
      if isBreak c then Text.ofChar c ++ quotedFrom true rest
      else
        let start := if fresh && c != ' ' then indentation indent else []
        let quote := if c == '\'' then [0x27] else []
        start ++ quote ++ Text.ofChar c ++ quotedFrom (fresh && c == ' ') rest

/-- The lines of a block, each after a line end and the indentation. The flag says that the next
character starts a line, and `fresh` that a line end is already written. -/
def blockLines (indent : Nat) (starts fresh : Bool) : List Char → Text
  | [] => []
  | c :: rest =>
    if isBreak c then Text.ofChar c ++ blockLines indent true true rest
    else
      let newline := if starts && !fresh then [0x0A] else []
      let start := if starts then newline ++ indentation indent else []
      start ++ Text.ofChar c ++ blockLines indent false false rest

/-- The marks behind the bar of a block: an indentation when the text starts with a blank, and
what becomes of line ends at the end. -/
def blockMarks (cs : List Char) : Text :=
  let hint : Text := if cs.head?.any fun c => c == ' ' || isBreak c then [0x32] else []
  let ending : Text := match cs.reverse with
    | [] => [0x2D]
    | a :: rest =>
      if !isBreak a then [0x2D]
      else match rest with
        | [] => [0x2B]
        | b :: _ => if isBreak b then [0x2B] else []
  hint ++ ending

/-- The text as the value of a key at an indentation, up to the end of its last line. -/
def scalarLine (indent : Nat) (tag : Text) (t : Text) (readsBack : Bool) : Text :=
  let cs := Text.chars t
  let w := ways cs
  let line (body : Text) : Text := [0x20] ++ tag ++ body ++ [0x0A]
  if List.contains t 0x0A && w.block then
    let body := blockLines (indent + 2) true false cs
    let ending := if cs.getLast?.any isBreak then [] else [0x0A]
    [0x20] ++ tag ++ [0x7C] ++ blockMarks cs ++ body ++ ending
  else if List.contains t 0x0A || !readsBack then line (doubleQuoted cs)
  else if w.bare then line t
  else if w.quoted then line (singleQuoted (indent + 2) cs)
  else line (doubleQuoted cs)

/-- The text in lines of seventy bytes. -/
def lines (t : Text) : Text :=
  if h : t.isEmpty then []
  else t.take 70 ++ [0x0A] ++ lines (t.drop 70)
  termination_by t.length
  decreasing_by
    simp only [List.isEmpty_iff] at h
    have := List.length_pos_iff.mpr h
    simp only [List.length_drop]; omega

/-- Base 64 in lines of seventy letters, where a single line has no line end. -/
def wrapped (t : Text) : Text := if t.length < 70 then t else lines t

def textLine (indent : Nat) (key : Text) (t : Text) : Text :=
  let value := if Text.isUtf8 t then scalarLine indent [] t (readsAsText t)
    else scalarLine indent "!!binary " (wrapped (Base64.encode t)) true
  key ++ [0x3A] ++ value

end ConsoleScript.Yaml
