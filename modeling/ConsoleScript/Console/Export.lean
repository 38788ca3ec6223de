import ConsoleScript.Console.Value

/-!
# Variables as script text

A variable is exported as an assignment that a script can run again. Texts are quoted, with
control bytes, quotes and backslashes escaped the way the lexer reads them.
-/

namespace ConsoleScript

namespace Text

/-- The escaped form of a byte inside quotes. -/
def expandByte (b : UInt8) : Text :=
  if b == 0x0A then "\\n" else if b == 0x09 then "\\t" else if b == 0x0D then "\\r"
  else if b == 0x22 then "\\\"" else if b == 0x5C then "\\\\"
  else if b < 0x20 then ofString "\\x" ++ ofHex 2 b.toNat
  else [b]

/-- The escaped form of a text inside quotes. -/
def expandEscape (t : Text) : Text := t.flatMap expandByte

end Text

namespace Value

/-- A value as it is written in a script. -/
def toScript : Value → Text
  | text t => 0x22 :: Text.expandEscape t ++ [0x22]
  | v => v.toText

def assignment (name : Text) (v : Value) : Text :=
  name ++ Text.ofString " = " ++ v.toScript ++ [0x3B]

end Value
end ConsoleScript
