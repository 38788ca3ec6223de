import ConsoleScript.Proofs.Console.Equivalence
import ConsoleScript.Proofs.Prefs.Restoring
import ConsoleScript.Proofs.Source.Statements
import ConsoleScript.Proofs.Source.Wholes

/-!
# Exported variables

A variable is exported as an assignment of a literal. Read again, the literal denotes a value with
the text of the old one if that value can be exported, and running a source of such assignments
gives each variable the value that its literal denotes.
-/

namespace ConsoleScript

/-! ## Literals -/

/-- Does an assignment of the value give a value with the same text? -/
def Value.isExportable : Value → Bool
  | text t => Text.isUtf8 t
  | int i => i.toInt.natAbs < Number.wholeBound
  | float f => match Number.magnitude f with
    | .notANumber => true
    | .infinite => false
    | .finite .. => Number.isLasting f

namespace Literal

/-- The value that a script assigns with a literal. -/
def value : Literal → Value
  | quoted t => .text (Text.scrub t)
  | numeral negative n =>
    if n.isPlain && (n.reading false).mantissa < 0x80000000 then
      .int (Int64.ofInt (if negative then -((n.reading false).mantissa : Int)
        else (n.reading false).mantissa))
    else .float (n.reading negative).value.1
  | nan => .text "NaN"
  | infinity _ => .float (-(Number.ofText "Inf"))

/-- The literal is the script of the value, and gives a value of the same text exactly if the value
is exportable. -/
structure Writes (l : Literal) (v : Value) : Prop where
  script : v.toScript = l.script
  same_iff : l.isReadable = true → (l.value.toText = v.toText ↔ v.isExportable = true)
  refused : l.isReadable = false → l = .infinity false ∧ v.isExportable = false

end Literal

namespace Numeral

variable {n : Numeral}

end Numeral

namespace Value

open Number

end Value

/-! ## Evaluating literals -/

namespace Expr

/-- An expression without effect that is stored as a value. -/
structure Denotes (x : Expr) (v : Value) : Prop where
  callFree : x.callFree = true
  value : ∀ scope c, x.storedAs.toValue (x.eval scope x.storedAs c).1 = v
  console : ∀ scope c, (x.eval scope x.storedAs c).2 = c

end Expr

namespace Literal

open ConsoleScript.Expr

end Literal

/-! ## Running the rows -/

namespace Console

variable {c : Console}

end Console

/-! ## Running a source -/

namespace Run

variable {c c' : Console} {source filename : Text} {u : CodeUnit}

/-- The console after the code of a block has run. -/
def ended (c : Console) (block : BlockId) : Console := c.popFrame.release block

end Run

end ConsoleScript
