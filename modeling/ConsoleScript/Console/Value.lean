import ConsoleScript.Number.Decimal
import ConsoleScript.Number.Notation

/-!
# Values

A variable holds a text, an integer or a number. The other two forms are derived when they are
read. A long text is never read as a number.
-/

namespace ConsoleScript

/-- A console value. -/
inductive Value where
  | text (t : Text)
  | int (i : Int64)
  | float (f : Float)

namespace Value

instance : Inhabited Value := ⟨.text []⟩

def longText : Nat := 256

/-- The number a text stands for while a script runs. -/
def numberOfText (t : Text) : Float :=
  if longText ≤ t.length then 0.0 else Number.ofText t

def textOfInt (i : Int64) : Text := Text.ofInt i.toInt

def toText : Value → Text
  | text t => t
  | int i => textOfInt i
  | float f => Number.toText f

def toFloat : Value → Float
  | text t => numberOfText t
  | int i => Number.ofInt64 i
  | float f => f

/-- The value as an integer; fractions are dropped. -/
def toInt : Value → Int64
  | text t => Number.toInt64 (numberOfText t)
  | int i => i
  | float f => Number.toInt64 f

def toBool (v : Value) : Bool := v.toFloat != 0.0

/-- The name of the form a value is held in. -/
def kindName : Value → Text
  | text _ => "string"
  | int _ => "int"
  | float _ => "float"

end Value
end ConsoleScript
