import ConsoleScript.Number.Binary
import ConsoleScript.Text.Basic

/-!
# CBOR

Data items in the concise binary format, and their canonical form: every length and integer in the
fewest bytes, and every number in the shortest of the three widths that holds it exactly.
-/

namespace ConsoleScript.Cbor

inductive Item where
  | uint (n : Nat)
  /-- The integer `-1 - n`. -/
  | negative (n : Nat)
  | bytes (b : Text)
  /-- A text, in the pieces it was cut into. -/
  | text (pieces : List Text)
  | array (items : List Item)
  | map (pairs : List (Item × Item))
  | tag (n : Nat) (content : Item)
  | simple (n : Nat)
  /-- A number, by its bits as a double. -/
  | float (bits : UInt64)

structure Width where
  /-- How many bits the fraction has. -/
  fraction : Nat
  /-- How many bits the exponent has. -/
  exponent : Nat

namespace Width

def half : Width := ⟨10, 5⟩

def single : Width := ⟨23, 8⟩

/-- The greatest exponent of a number, and the offset of the exponent field. -/
def bias (w : Width) : Nat := (1 <<< (w.exponent - 1)) - 1

/-- The bits of `m * 2 ^ q` without a sign, if the width holds it exactly. -/
def bitsOf? (w : Width) (m : Nat) (q : Int) : Option Nat :=
  if m == 0 then some 0
  else
    let top : Int := q + m.log2
    let low : Int := max (top - w.fraction) (1 - w.bias - w.fraction)
    let shift := q - low
    if top > w.bias then none
    else if shift < 0 && m % (1 <<< shift.natAbs) != 0 then none
    else
      let scaled := if shift < 0 then m >>> shift.natAbs else m <<< shift.toNat
      if scaled < 1 <<< w.fraction then some scaled
      else some (scaled + ((top + w.bias - 1).toNat <<< w.fraction))

/-- The double with the value that `bits` stand for in a width. -/
def widen (w : Width) (bits : Nat) : UInt64 :=
  let sign := (bits >>> (w.fraction + w.exponent)) % 2
  let field := (bits >>> w.fraction) % (1 <<< w.exponent)
  let low := bits % (1 <<< w.fraction)
  let unsigned : Nat :=
    if field == (1 <<< w.exponent) - 1 then
      (2047 <<< 52) + (low <<< (52 - w.fraction))
    else
      let m := if field == 0 then low else low + (1 <<< w.fraction)
      let q : Int := max field 1 - w.bias - w.fraction
      (Width.bitsOf? ⟨52, 11⟩ m q).getD 0
  ((sign <<< 63) + unsigned).toUInt64

end Width

/-- The `width` low bytes of a number, the highest first. -/
def bigEndian (width n : Nat) : Text :=
  (List.range width).map fun i => (n >>> (8 * (width - 1 - i))).toUInt8

/-- The head of an item: its major type and an argument. -/
def head (major n : Nat) : Text :=
  let first (info : Nat) : UInt8 := (major * 32 + info).toUInt8
  if n < 24 then [first n]
  else if n < UInt8.size then first 24 :: bigEndian 1 n
  else if n < UInt16.size then first 25 :: bigEndian 2 n
  else if n < UInt32.size then first 26 :: bigEndian 4 n
  else first 27 :: bigEndian 8 n

def encodeFloat (bits : UInt64) : Text :=
  let f := Float.ofBits bits
  let negative := if Number.isNegative f then 1 else 0
  match Number.magnitude f with
  | .notANumber => [0xF9, 0x7E, 0x00]
  | .infinite => 0xF9 :: bigEndian 2 ((negative <<< 15) + 0x7C00)
  | .finite m q =>
    match Width.half.bitsOf? m q, Width.single.bitsOf? m q with
    | some b, _ => 0xF9 :: bigEndian 2 ((negative <<< 15) + b)
    | none, some b => 0xFA :: bigEndian 4 ((negative <<< 31) + b)
    | none, none => 0xFB :: bigEndian 8 bits.toNat

namespace Item

mutual

def encode : Item → Text
  | .uint n => head 0 n
  | .negative n => head 1 n
  | .bytes b => head 2 b.length ++ b
  | .text pieces => head 3 pieces.flatten.length ++ pieces.flatten
  | .array items => head 4 items.length ++ encodeAll items
  | .map pairs => head 5 pairs.length ++ encodePairs pairs
  | .tag n content => head 6 n ++ content.encode
  | .simple n => head 7 n
  | .float bits => encodeFloat bits

/-- The bytes of items, one after the other. -/
def encodeAll : List Item → Text
  | [] => []
  | x :: xs => x.encode ++ encodeAll xs

/-- The bytes of keys and values, one after the other. -/
def encodePairs : List (Item × Item) → Text
  | [] => []
  | (k, v) :: rest => k.encode ++ v.encode ++ encodePairs rest

end

end Item
end ConsoleScript.Cbor
