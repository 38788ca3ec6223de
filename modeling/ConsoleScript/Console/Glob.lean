import ConsoleScript.PathPattern
import ConsoleScript.Text.Case

/-!
# Patterns of names

A pattern is matched without regard to letter case. It is a pattern of paths in which brackets and
backslashes have lost their meaning; slashes lose theirs by becoming zero bytes in the pattern and in
the name.
-/

namespace ConsoleScript.Glob

/-- Puts a backslash in front of backslashes and opening brackets, and has zero bytes for slashes. -/
def escape (t : Text) : Text :=
  t.flatMap fun b =>
    if b == 0x5C then [0x5C, 0x5C]
    else if b == 0x5B then [0x5C, 0x5B]
    else if b == 0x2F then [0]
    else [b]

/-- The text with zero bytes for slashes. -/
def slashFree (t : Text) : Text := t.map fun b => if b == 0x2F then 0 else b

def matches? (pattern name : Text) : Bool :=
  match PathPattern.matches? (escape (Text.lower pattern)) (slashFree (Text.lower name)) with
  | .ok found => found
  | .error .malformed => false

end ConsoleScript.Glob
