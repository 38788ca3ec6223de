import ConsoleScript.Text.Utf8

/-!
# White space

Two notions of blank are in use: the ASCII blanks that number reading skips, and the characters
with the Unicode property of white space, which trimming removes at both ends.
-/

namespace ConsoleScript.Text

def isSpaceChar (c : Char) : Bool :=
  let n := c.toNat
  (0x09 ≤ n && n ≤ 0x0D) || n == 0x20 || n == 0x85 || n == 0xA0 || n == 0x1680
    || (0x2000 ≤ n && n ≤ 0x200A) || n == 0x2028 || n == 0x2029 || n == 0x202F || n == 0x205F
    || n == 0x3000

/-- The text without its leading white space. -/
def trimStart : Text → Text
  | [] => []
  | b :: rest =>
    let (c, extra) := headChar b rest
    if isSpaceChar c then trimStart (rest.drop extra) else b :: rest
  termination_by t => t.length
  decreasing_by simp only [List.length_drop, List.length_cons]; omega

/-- How many bytes of a text come before the white space it ends in. -/
def trimmedLength (seen kept : Nat) : Text → Nat
  | [] => kept
  | b :: rest =>
    let (c, extra) := headChar b rest
    let seen := seen + 1 + extra
    trimmedLength seen (if isSpaceChar c then kept else seen) (rest.drop extra)
  termination_by t => t.length
  decreasing_by simp only [List.length_drop, List.length_cons]; omega

/-- The text without the white space at its end. -/
def trimEnd (t : Text) : Text := t.take (trimmedLength 0 0 t)

/-- The text without white space at either end. -/
def trim (t : Text) : Text := trimEnd (trimStart t)

/-- Is the byte a blank, a tab or a line end? -/
def isAsciiBlank (b : UInt8) : Bool := b == 0x20 || b == 0x09 || b == 0x0D || b == 0x0A

end ConsoleScript.Text
