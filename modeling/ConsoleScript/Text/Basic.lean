/-!
# Byte text

Sources, names and values of the console language are sequences of bytes. They are usually
UTF-8, but nothing enforces it, so every operation works on bytes and decodes characters only
where a rule speaks of characters.
-/

namespace ConsoleScript

/-- A text is a sequence of bytes. -/
abbrev Text := List UInt8

namespace Text

/-- The UTF-8 bytes of a string. -/
def ofString (s : String) : Text := s.toUTF8.data.toList

instance : Coe String Text := ⟨ofString⟩

/-- The string a text spells, when it is valid UTF-8. -/
def toString? (t : Text) : Option String := String.fromUTF8? ⟨t.toArray⟩

def byte (c : Char) : UInt8 := c.toNat.toUInt8

def ofNat (n : Nat) : Text := (Nat.toDigits 10 n).map byte

/-- Decimal digits of an integer, with a sign when it is negative. -/
def ofInt (i : Int) : Text :=
  if i < 0 then byte '-' :: ofNat i.natAbs else ofNat i.natAbs

/-- Digits of `n` in base sixteen, with letters in lower case and at least `width` digits. -/
def ofHex (width n : Nat) : Text :=
  let digits := (Nat.toDigits 16 n).map byte
  List.replicate (width - digits.length) (byte '0') ++ digits

def join (sep : Text) : List Text → Text
  | [] => []
  | [t] => t
  | t :: ts => t ++ sep ++ join sep ts

/-- The pieces of `t` between occurrences of the byte `sep`; always at least one piece. -/
def splitOnByte (sep : UInt8) : Text → List Text
  | [] => [[]]
  | b :: t =>
    if b == sep then [] :: splitOnByte sep t
    else match splitOnByte sep t with
      | [] => [[b]]
      | p :: ps => (b :: p) :: ps

/-- The text after the first occurrence of `sep`, with what stands before it. -/
def cut? (sep : UInt8) : Text → Option (Text × Text)
  | [] => none
  | b :: t =>
    if b == sep then some ([], t)
    else (cut? sep t).map fun (before, after) => (b :: before, after)

/-- What is left of `t` after `start`, when it starts so. -/
def dropStart? : Text → Text → Option Text
  | [], t => some t
  | _ :: _, [] => none
  | a :: start, b :: t => if a == b then dropStart? start t else none

/-- Whether `t` begins with `start`. -/
def startsWith (t start : Text) : Bool := (dropStart? start t).isSome

/-- Whether `part` occurs somewhere in `t`. -/
def contains (part : Text) : Text → Bool
  | [] => part.isEmpty
  | b :: t => startsWith (b :: t) part || contains part t

def padRight (width : Nat) (t : Text) : Text :=
  t ++ List.replicate (width - t.length) (byte ' ')

def padZeros (width : Nat) (t : Text) : Text :=
  List.replicate (width - t.length) (byte '0') ++ t

/-- Byte-wise lexicographic order. -/
def le : Text → Text → Bool
  | [], _ => true
  | _ :: _, [] => false
  | a :: s, b :: t => if a < b then true else if b < a then false else le s t

/-- Texts in byte-wise order; equal ones keep their order. -/
def sort (ts : List Text) : List Text := ts.mergeSort le

end Text

def isDigit (b : UInt8) : Bool := 0x30 ≤ b && b ≤ 0x39

def isHexDigit (b : UInt8) : Bool :=
  isDigit b || (0x61 ≤ b && b ≤ 0x66) || (0x41 ≤ b && b ≤ 0x46)

def hexValue? (b : UInt8) : Option Nat :=
  if isDigit b then some (b.toNat - 0x30)
  else if 0x61 ≤ b && b ≤ 0x66 then some (b.toNat - 0x57)
  else if 0x41 ≤ b && b ≤ 0x46 then some (b.toNat - 0x37)
  else none

def isIdentStart (b : UInt8) : Bool :=
  b == 0x5F || (0x61 ≤ b && b ≤ 0x7A) || (0x41 ≤ b && b ≤ 0x5A)

def isIdentByte (b : UInt8) : Bool := isIdentStart b || isDigit b

/-- The number a run of digits spells in the given base; `none` on a foreign byte. -/
def digitsValue? (base : Nat) (t : Text) : Option Nat :=
  t.foldl (fun acc b => do
    let n ← acc
    let d ← hexValue? b
    if d < base then some (n * base + d) else none) (some 0)

end ConsoleScript
