import ConsoleScript.Cbor.Item

/-!
# Reading CBOR

Any well-formed item is read, not only the canonical form: integers and lengths in more bytes than
needed, and texts, arrays and maps of unstated length that a stop code ends. There are limits on
how deep items may be nested and on how many elements an array or a map may have.
-/

namespace ConsoleScript.Cbor

/-- How deep arrays, maps and tags may be nested. -/
def maxDepth : Nat := 32

def maxElements : Nat := 131072

/-- The first `n` bytes, and what follows them. -/
def takeExact? : Nat → Text → Option (Text × Text)
  | 0, t => some ([], t)
  | _ + 1, [] => none
  | n + 1, b :: t => (takeExact? n t).map fun (taken, rest) => (b :: taken, rest)

/-- The number that bytes stand for, the highest first. -/
def ofBigEndian (t : Text) : Nat := t.foldl (fun n b => n * 256 + b.toNat) 0

/-- The head of an item: major type, additional information and argument, which is absent for an
unstated length. -/
structure Head where
  major : Nat
  info : Nat
  argument : Option Nat
  deriving DecidableEq, Repr

/-- Reads the head of an item. The stop code is no head. -/
def head? : Text → Option (Head × Text)
  | [] => none
  | b :: t =>
    let major := b.toNat / 32
    let info := b.toNat % 32
    let wide (width : Nat) : Option (Head × Text) :=
      (takeExact? width t).bind fun (taken, rest) =>
        let n := ofBigEndian taken
        if major == 7 && width == 1 && n < 32 then none else some (⟨major, info, some n⟩, rest)
    if info < 24 then some (⟨major, info, some info⟩, t)
    else if info == 24 then wide 1
    else if info == 25 then wide 2
    else if info == 26 then wide 4
    else if info == 27 then wide 8
    else if info == 31 && 2 ≤ major && major ≤ 5 then some (⟨major, info, none⟩, t)
    else none

/-- A byte or text string whose head has been read. -/
def string? (n : Nat) (t : Text) : Option (Text × Text) :=
  if n < Number.signedBound then takeExact? n t else none

/-- The pieces of a string of unstated length, up to the stop code. -/
def pieces? (major : Nat) : Nat → Text → Option (List Text × Text)
  | 0, _ => none
  | _ + 1, [] => none
  | fuel + 1, b :: t =>
    if b == 0xFF then some ([], t)
    else match head? (b :: t) with
      | some (⟨m, _, some n⟩, rest) =>
        if m == major then do
          let (piece, rest) ← string? n rest
          let (more, rest) ← pieces? major fuel rest
          return (piece :: more, rest)
        else none
      | _ => none

/-- An item of the last major type: a number or a simple value. -/
def primitive (h : Head) (n : Nat) : Item :=
  if h.info == 25 then .float (Width.half.widen n)
  else if h.info == 26 then .float (Width.single.widen n)
  else if h.info == 27 then .float n.toUInt64
  else .simple n

mutual

/-- Reads an item inside of `depth` others. -/
def item? : Nat → Nat → Text → Option (Item × Text)
  | 0, _, _ => none
  | fuel + 1, depth, t => do
    let (h, rest) ← head? t
    match h.major, h.argument with
    | 0, some n => return (.uint n, rest)
    | 1, some n => return (.negative n, rest)
    | 2, some n =>
      let (b, rest) ← string? n rest
      return (.bytes b, rest)
    | 2, none =>
      let (ps, rest) ← pieces? 2 fuel rest
      return (.bytes ps.flatten, rest)
    | 3, some n =>
      let (b, rest) ← string? n rest
      return (.text [b], rest)
    | 3, none =>
      let (ps, rest) ← pieces? 3 fuel rest
      return (.text ps, rest)
    | 4, count =>
      if maxDepth ≤ depth || count.any (maxElements < ·) then none
      else
        let (items, rest) ← items? fuel (depth + 1) count rest
        if maxElements < items.length then none else return (.array items, rest)
    | 5, count =>
      if maxDepth ≤ depth || count.any (maxElements < ·) then none
      else
        let (pairs, rest) ← pairs? fuel (depth + 1) count rest
        if maxElements < pairs.length then none else return (.map pairs, rest)
    | 6, some n =>
      let nested := rest.head?.any fun b => b.toNat / 32 == 6
      if nested && maxDepth ≤ depth then none
      else
        let (content, rest) ← item? fuel (if nested then depth + 1 else depth) rest
        return (.tag n content, rest)
    | 7, some n => return (primitive h n, rest)
    | _, _ => none

/-- Reads items: as many as given, or else up to the stop code. -/
def items? : Nat → Nat → Option Nat → Text → Option (List Item × Text)
  | 0, _, _, _ => none
  | fuel + 1, depth, count, t =>
    match count, t with
    | some 0, t => some ([], t)
    | none, 0xFF :: t => some ([], t)
    | count, t => do
      let (x, rest) ← item? fuel depth t
      let (xs, rest) ← items? fuel depth (count.map (· - 1)) rest
      return (x :: xs, rest)

/-- Reads keys and values: as many pairs as given, or else up to the stop code. -/
def pairs? : Nat → Nat → Option Nat → Text → Option (List (Item × Item) × Text)
  | 0, _, _, _ => none
  | fuel + 1, depth, count, t =>
    match count, t with
    | some 0, t => some ([], t)
    | none, 0xFF :: t => some ([], t)
    | count, t => do
      let (k, rest) ← item? fuel depth t
      let (v, rest) ← item? fuel depth rest
      let (more, rest) ← pairs? fuel depth (count.map (· - 1)) rest
      return ((k, v) :: more, rest)

end

/-- Reads exactly one item. Each step consumes a byte or ends a list, so twice the number of bytes
is enough fuel. -/
def parse? (t : Text) : Option Item :=
  match item? (2 * t.length + 2) 0 t with
  | some (x, []) => some x
  | _ => none

end ConsoleScript.Cbor
