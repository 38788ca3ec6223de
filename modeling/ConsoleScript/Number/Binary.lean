/-!
# Binary numbers

Numbers are IEEE doubles and 64-bit integers. This module takes a double apart into an exact
dyadic fraction, which is what conversion to an integer and decimal writing are computed from.
-/

namespace ConsoleScript

inductive Magnitude where
  /-- The fraction `mantissa * 2 ^ exponent`. -/
  | finite (mantissa : Nat) (exponent : Int)
  | infinite
  | notANumber
  deriving DecidableEq, Repr

namespace Number

/-- One past the greatest 64-bit integer. -/
def signedBound : Nat := 0x8000000000000000

def isNegative (f : Float) : Bool := f.toBits >>> 63 == 1

/-- The absolute value as an exact fraction. -/
def magnitude (f : Float) : Magnitude :=
  let bits := f.toBits.toNat % signedBound
  let field := bits >>> 52
  let low := bits % (1 <<< 52)
  if field == 2047 then if low == 0 then .infinite else .notANumber
  else if field == 0 then .finite low (-1074)
  else .finite (low + (1 <<< 52)) (Int.ofNat field - 1075)

/-- The whole part of `m * 2 ^ q`. -/
def wholePart (m : Nat) (q : Int) : Nat :=
  if q < 0 then m >>> q.natAbs else m <<< q.toNat

/-- Is `m * 2 ^ q` a whole number? -/
def isWhole (m : Nat) (q : Int) : Bool :=
  if q < 0 then m % (1 <<< q.natAbs) == 0 else true

/-- Conversion to a 64-bit integer drops the fraction. What does not fit, infinities and
undefined numbers give the least integer. -/
def toInt64 (f : Float) : Int64 :=
  match magnitude f with
  | .finite m q =>
    let n := wholePart m q
    let i : Int := if isNegative f then -Int.ofNat n else Int.ofNat n
    if -Int.ofNat signedBound ≤ i && i < Int.ofNat signedBound then Int64.ofInt i else Int64.minValue
  | _ => Int64.minValue

/-- The double nearest to a 64-bit integer. -/
def ofInt64 (i : Int64) : Float :=
  if i < 0 then -(UInt64.ofNat i.toInt.natAbs).toFloat else (UInt64.ofNat i.toInt.natAbs).toFloat

def lowWord (i : Int64) : UInt32 := i.toUInt64.toUInt32

/-- A 32-bit word read as a signed integer. -/
def signExtend (w : UInt32) : Int64 := w.toInt32.toInt64

end Number
end ConsoleScript
