import ConsoleScript.Number.Binary
import ConsoleScript.Text.Basic

/-!
# Decimal writing

Numbers are shown with at most six significant digits, except that whole numbers below a
quadrillion are written in full. Rounding is to the nearest six-digit decimal, a tie going to the
even one.
-/

namespace ConsoleScript

namespace Decimal

/-- `num / den` rounded to the nearest natural number, a tie to the even one. -/
def roundDiv (num den : Nat) : Nat :=
  let q := num / den
  let r := num % den
  if 2 * r < den then q
  else if den < 2 * r then q + 1
  else if q % 2 == 0 then q else q + 1

/-- The number of digits before the point of `num / den`: positive for one and above, otherwise
minus the count of zeros that follow the point. -/
def pointPosition (num den : Nat) : Int :=
  if den ≤ num then (Nat.toDigits 10 (num / den)).length
  else match (List.range 400).find? fun k => den ≤ num * Nat.pow 10 k with
    | some k => 1 - Int.ofNat k
    | none => -400

/-- The `n` significant digits of `num / den` as one number, with the position of the point. -/
def significant (n : Nat) (num den : Nat) : Nat × Int :=
  let point := pointPosition num den
  let shift := Int.ofNat n - point
  let digits :=
    if shift < 0 then roundDiv num (den * Nat.pow 10 shift.natAbs)
    else roundDiv (num * Nat.pow 10 shift.toNat) den
  if digits == Nat.pow 10 n then (Nat.pow 10 (n - 1), point + 1) else (digits, point)

def stripZeros (t : Text) : Text := (t.reverse.dropWhile (· == 0x30)).reverse

/-- Exponents have a sign and at least two digits. -/
def exponentText (e : Int) : Text :=
  Text.ofString (if e < 0 then "e-" else "e+") ++ Text.padZeros 2 (Text.ofNat e.natAbs)

/-- Digits with the point at `point`: positional from four zeros after the point up to `width`
digits before it, otherwise with an exponent. -/
def layOut (width : Nat) (digits : Text) (point : Int) : Text :=
  if point - 1 < -4 || Int.ofNat width ≤ point - 1 then
    let tail := digits.drop 1
    digits.take 1 ++ (if tail.isEmpty then [] else 0x2E :: tail) ++ exponentText (point - 1)
  else if point ≤ 0 then
    Text.ofString "0." ++ List.replicate point.natAbs 0x30 ++ digits
  else
    let n := point.toNat
    let tail := digits.drop n
    digits.take n ++ List.replicate (n - digits.length) 0x30
      ++ (if tail.isEmpty then [] else 0x2E :: tail)

end Decimal

namespace Number

/-- How many significant digits a number that is not whole is shown with. -/
def shownDigits : Nat := 6

/-- Whole numbers below this bound are written in full. -/
def wholeBound : Nat := 1000000000000000

/-- The console spelling of a number. -/
def toText (f : Float) : Text :=
  let sign : Text := if isNegative f then [0x2D] else []
  match magnitude f with
  | .notANumber => "NaN"
  | .infinite => if isNegative f then "-Inf" else "+Inf"
  | .finite m q =>
    let n := wholePart m q
    if isWhole m q && n < wholeBound then
      if n == 0 then "0" else sign ++ Text.ofNat n
    else
      let (num, den) := if q < 0 then (m, 1 <<< q.natAbs) else (m <<< q.toNat, 1)
      let (digits, point) := Decimal.significant shownDigits num den
      sign ++ Decimal.layOut shownDigits (Decimal.stripZeros (Text.ofNat digits)) point

end Number
end ConsoleScript
