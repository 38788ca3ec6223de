import ConsoleScript.Text.Utf8

/-!
# Patterns of paths

A star stands for any run of bytes and a question mark for one character, but neither of them takes
a slash. Brackets enclose a class of characters, which is negated by a caret behind the first one.
Behind a backslash a character stands for itself, and so do all others.

A pattern is cut at its stars into chunks. Each chunk is placed at the first position where it fits,
which behind a star is looked for byte by byte, and the last one has to reach the end of the path.
A malformed chunk makes the pattern malformed, also where no chunk in front of it fits.
-/

namespace ConsoleScript.PathPattern

inductive Refusal where
  | malformed
  deriving DecidableEq, Repr

inductive Item where
  | any
  | byte (b : UInt8)
  | cls (negated : Bool) (ranges : List (Char × Char))
  deriving DecidableEq, Repr

/-- A chunk as it is written; `floating` when a star stands in front of it. -/
structure Chunk where
  floating : Bool
  text : Text
  deriving DecidableEq, Repr

/-! ## Reading patterns -/

/-- Cuts a pattern at its stars, but for those behind a backslash and those inside a class. -/
def chunksFrom (floating inClass : Bool) (chunk : Text) : Text → List Chunk
  | [] => if floating || !chunk.isEmpty then [⟨floating, chunk.reverse⟩] else []
  | b :: t =>
    if b == 0x5C then
      match t with
      | [] => [⟨floating, (b :: chunk).reverse⟩]
      | c :: t => chunksFrom floating inClass (c :: b :: chunk) t
    else if b == 0x2A && !inClass then
      if chunk.isEmpty then chunksFrom true false [] t
      else ⟨floating, chunk.reverse⟩ :: chunksFrom true false [] t
    else chunksFrom floating (b == 0x5B || inClass && b != 0x5D) (b :: chunk) t

def chunks (pattern : Text) : List Chunk := chunksFrom false false [] pattern

/-- The character at the start of a text that does not end behind it, and its bytes. -/
def wholeChar (b : UInt8) (t : Text) : Except Refusal (Char × Nat) :=
  let (c, extra) := Text.headChar b t
  if Text.isBadHead b t || t.length ≤ extra then .error .malformed else .ok (c, 1 + extra)

/-- A character of a class, with a backslash in front of it perhaps, and their bytes. -/
def classChar : Text → Except Refusal (Char × Nat)
  | [] => .error .malformed
  | b :: t =>
    if b == 0x2D || b == 0x5D then .error .malformed
    else if b == 0x5C then
      match t with
      | [] => .error .malformed
      | b :: t => (wholeChar b t).map fun (c, n) => (c, 1 + n)
    else wholeChar b t

/-- The ranges of a class up to the bracket behind them, and the bytes they take with it. There is
one at least. -/
def ranges (first : Bool) : Text → Except Refusal (List (Char × Char) × Nat)
  | [] => .error .malformed
  | b :: t =>
    if b == 0x5D && !first then .ok ([], 1)
    else do
      let (lo, n) ← classChar (b :: t)
      let t := t.drop (n - 1)
      let (hi, m) ← if t.head? == some 0x2D then
          (classChar (t.drop 1)).map fun (c, n) => (c, 1 + n)
        else .ok (lo, 0)
      let (more, k) ← ranges false (t.drop m)
      return ((lo, hi) :: more, n + m + k)
  termination_by t => t.length
  decreasing_by simp only [List.length_drop, List.length_cons]; omega

/-- The elements of a chunk. -/
def parse : Text → Except Refusal (List Item)
  | [] => .ok []
  | b :: t =>
    if b == 0x3F then return .any :: (← parse t)
    else if b == 0x5B then do
      let negated := t.head? == some 0x5E
      let t := t.drop (if negated then 1 else 0)
      let (ranges, n) ← ranges true t
      return .cls negated ranges :: (← parse (t.drop n))
    else if b == 0x5C then
      match t with
      | [] => .error .malformed
      | b :: t => return .byte b :: (← parse t)
    else return .byte b :: (← parse t)
  termination_by t => t.length
  decreasing_by all_goals simp only [List.length_drop, List.length_cons]; omega

/-! ## Matching -/

/-- What is left of a path behind the elements, when they fit its start. -/
def fit : List Item → Text → Option Text
  | [], t => some t
  | _ :: _, [] => none
  | .any :: items, b :: t => if b == 0x2F then none else fit items (t.drop (Text.headChar b t).2)
  | .byte c :: items, b :: t => if c == b then fit items t else none
  | .cls negated ranges :: items, b :: t =>
    let (c, extra) := Text.headChar b t
    if ranges.any (fun (lo, hi) => lo ≤ c && c ≤ hi) == negated then none else fit items (t.drop extra)

/-- Fits the elements to the start of a path; the last chunk has to use it up. -/
def fitHere (last : Bool) (items : List Item) (t : Text) : Option Text :=
  match fit items t with
  | some rest => if last && !rest.isEmpty then none else some rest
  | none => none

/-- The first place behind the start of a path where the elements fit, not behind a slash. -/
def fitLater (last : Bool) (items : List Item) : Text → Option Text
  | [] => none
  | b :: t => if b == 0x2F then none else (fitHere last items t).or (fitLater last items t)

/-- Do the chunks match a path? When one does not fit, the others still have to be well formed. -/
def matchChunks : List Chunk → Text → Except Refusal Bool
  | [], t => .ok t.isEmpty
  | ⟨floating, chunk⟩ :: more, t =>
    if floating && chunk.isEmpty then .ok (t.all (· != 0x2F))
    else do
      let items ← parse chunk
      let here := fitHere more.isEmpty items t
      match if floating then here.or (fitLater more.isEmpty items t) else here with
      | some rest => matchChunks more rest
      | none =>
        more.forM fun chunk => discard (parse chunk.text)
        return false

def matches? (pattern path : Text) : Except Refusal Bool := matchChunks (chunks pattern) path

end ConsoleScript.PathPattern
