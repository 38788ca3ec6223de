import ConsoleScript.Text.Blank

/-!
# Input at the prompt

At the prompt a program is typed line by line. It is run as soon as it may be complete, which is
guessed from its brackets and quotes alone.
-/

namespace ConsoleScript.Cli

inductive Region where
  | code
  | comment
  | quoted (quote : UInt8)
  /-- Right behind a backslash in quotes. -/
  | escaped (quote : UInt8)
  deriving DecidableEq, Repr

/-- Follows a text from a region; gives the region of its end, and how many more brackets were opened
than closed. Kinds of brackets are not told apart. -/
def followBrackets : Region → Int → Text → Region × Int
  | r, d, [] => (r, d)
  | .comment, d, b :: t => followBrackets (if b == 0x0A then .code else .comment) d t
  | .escaped q, d, _ :: t => followBrackets (.quoted q) d t
  | .quoted q, d, b :: t =>
    followBrackets (if b == 0x5C then .escaped q else if b == q then .code else .quoted q) d t
  | .code, d, 0x2F :: 0x2F :: t => followBrackets .comment d t
  | .code, d, b :: t =>
    if b == 0x22 || b == 0x27 then followBrackets (.quoted b) d t
    else if b == 0x7B || b == 0x28 || b == 0x5B then followBrackets .code (d + 1) t
    else if b == 0x7D || b == 0x29 || b == 0x5D then followBrackets .code (d - 1) t
    else followBrackets .code d t

/-- Does a program need further lines? It does if a bracket or a quote is still open. -/
def incomplete (source : Text) : Bool :=
  match followBrackets .code 0 source with
  | (.quoted _, _) | (.escaped _, _) => true
  | (_, d) => d > 0

def longestLine : Nat := 65535

/-- The line without a carriage return at its end. -/
def dropReturn (line : Text) : Text :=
  if line.getLast? == some 0x0D then line.dropLast else line

/-- The lines of the input. Reading stops at a line that is too long. -/
def inputLines (input : Text) : List Text :=
  let lines := Text.splitOnByte 0x0A input
  let lines := if lines.getLast? == some [] then lines.dropLast else lines
  (lines.takeWhile (·.length ≤ longestLine)).map dropReturn

end ConsoleScript.Cli
