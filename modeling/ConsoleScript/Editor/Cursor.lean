import ConsoleScript.Text.Basic

/-!
# Words under the cursor

A position in a document is a line and a column, both counted from zero; columns count bytes. The
word at a position is made of identifier bytes and colons, with a variable sign in front.
-/

namespace ConsoleScript.Cursor

def isWordByte (b : UInt8) : Bool := isIdentByte b || b == 0x3A

def isSigil (b : UInt8) : Bool := b == 0x24 || b == 0x25

/-- The line of a position, cut at the column. -/
def split? (text : Text) (line column : Nat) : Option (Text × Text) :=
  ((Text.splitOnByte 0x0A text)[line]?).map fun l => (l.take column, l.drop column)

def wordEnding (t : Text) : Text :=
  let word := t.reverse.takeWhile isWordByte
  match t.reverse.drop word.length with
  | b :: _ => if isSigil b then b :: word.reverse else word.reverse
  | [] => word.reverse

def fragment (text : Text) (line column : Nat) : Text :=
  match split? text line column with
  | some (front, _) => wordEnding front
  | none => []

def trimColons (t : Text) : Text :=
  ((t.dropWhile (· == 0x3A)).reverse.dropWhile (· == 0x3A)).reverse

/-- The whole word under the cursor. The sign of a variable alone is none. -/
def word (text : Text) (line column : Nat) : Text :=
  match split? text line column with
  | some (front, back) =>
    let w := trimColons (wordEnding front ++ back.takeWhile isWordByte)
    match w with
    | [b] => if isSigil b then [] else w
    | w => w
  | none => []

end ConsoleScript.Cursor
