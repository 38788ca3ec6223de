import ConsoleScript.Number.Binary
import ConsoleScript.Text.Blank
import ConsoleScript.Text.Case

/-!
# Decimal reading

Console text is read as a number by taking its longest numeric beginning; what has none reads as
zero. `numeralLength` measures that beginning, `Decimal.parse?` takes a numeral apart, and
`Decimal.value` rounds it to the nearest double.
-/

namespace ConsoleScript

/-- A numeral: `mantissa * 10 ^ exponent` with a sign. -/
structure Decimal where
  negative : Bool
  mantissa : Nat
  exponent : Int
  deriving DecidableEq, Repr

namespace Number

def digitRun (t : Text) : Nat := (t.takeWhile isDigit).length

def isSign (b : UInt8) : Bool := b == 0x2B || b == 0x2D

def signLength (t : Text) : Nat := if t.head?.any isSign then 1 else 0

/-- The length of an exponent at the start of a text, zero when it has no digits. -/
def exponentLength : Text → Nat
  | b :: rest =>
    if b == 0x65 || b == 0x45 then
      let s := signLength rest
      let n := digitRun (rest.drop s)
      if n == 0 then 0 else 1 + s + n
    else 0
  | [] => 0

/-- How many digits the numeral at the start of an unsigned text has, and its length without an
exponent: a run of digits with at most one point among or around them. -/
def unsignedLength (t : Text) : Nat × Nat :=
  let whole := digitRun t
  match t.drop whole with
  | b :: rest =>
    if b == 0x2E then
      let frac := digitRun rest
      if whole + frac == 0 then (0, 0) else (whole + frac, whole + 1 + frac)
    else (whole, whole)
  | [] => (whole, whole)

/-- The length of the longest numeral a text starts with, zero when there is none. -/
def numeralLength (t : Text) : Nat :=
  let s := signLength t
  let (digits, n) := unsignedLength (t.drop s)
  if digits == 0 then 0 else s + n + exponentLength (t.drop (s + n))

end Number

namespace Decimal

/-- The numeral that a whole text spells: a sign, digits with at most one point, an exponent. -/
def parse? (t : Text) : Option Decimal :=
  let negative := t.head? == some 0x2D
  let body := t.drop (Number.signLength t)
  let (digits, n) := Number.unsignedLength body
  let tail := body.drop n
  let e := Number.exponentLength tail
  if digits == 0 || e != tail.length then none
  else
    let ds := (body.take n).filter isDigit
    let mantissa := ds.foldl (fun acc b => acc * 10 + (b.toNat - 0x30)) 0
    let fraction := (((body.take n).dropWhile (· != 0x2E)).drop 1).length
    let power : Int := match tail.drop 1 with
      | [] => 0
      | b :: rest =>
        let value (t : Text) : Int := t.foldl (fun acc b => acc * 10 + (b.toNat - 0x30)) 0
        if b == 0x2D then -value rest else if b == 0x2B then value rest else value (b :: rest)
    some ⟨negative, mantissa, power - fraction⟩

/-- The nearest double, and whether the numeral is too large for any finite one. -/
def value (d : Decimal) : Float × Bool :=
  let size := Int.ofNat (Nat.toDigits 10 d.mantissa).length + d.exponent
  let unsigned : Float :=
    if d.mantissa == 0 || size < -330 then 0.0
    else if size > 310 then 1.0 / 0.0
    else Float.ofScientific d.mantissa (d.exponent < 0) d.exponent.natAbs
  (if d.negative then -unsigned else unsigned, unsigned.isInf)

end Decimal

namespace Number

/-- The number that console text stands for. The words for truth and falsehood count as one and
zero; otherwise the longest numeral at the start is used, after blanks. -/
def ofText (t : Text) : Float :=
  let t := t.dropWhile Text.isAsciiBlank
  if Text.equalFold t "true" then 1.0
  else if Text.equalFold t "false" then 0.0
  else match Decimal.parse? (t.take (numeralLength t)) with
    | some d => d.value.1
    | none => 0.0

end Number
end ConsoleScript
