import ConsoleScript.Number.Binary
import ConsoleScript.Text.Basic

/-!
# Integers in texts

A text is read as an integer only when all of it is one: decimal digits, with a sign in front for
integers that may be negative, and a value that fits.
-/

namespace ConsoleScript.Integer

/-- The number a run of decimal digits spells. There has to be at least one digit. -/
def digits? (t : Text) : Option Nat := if t.isEmpty then none else digitsValue? 10 t

/-- The number below `limit` that a text of digits spells. -/
def natOfText? (limit : Nat) (t : Text) : Option Nat :=
  (digits? t).bind fun n => if n < limit then some n else none

def ofText? (t : Text) : Option Int64 :=
  match t with
  | 0x2D :: rest => (natOfText? (Number.signedBound + 1) rest).map fun n => Int64.ofInt (-n)
  | 0x2B :: rest => (natOfText? Number.signedBound rest).map fun n => Int64.ofInt n
  | t => (natOfText? Number.signedBound t).map fun n => Int64.ofInt n

end ConsoleScript.Integer
