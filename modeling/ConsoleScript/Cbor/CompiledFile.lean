import ConsoleScript.Cbor.Parse
import ConsoleScript.CompiledFile

/-!
# Compiled files in CBOR

A compiled file is written as a map with numbered keys, in canonical form, where empty lists and an
absent source are left out. It is read from any form of that map.
-/

namespace ConsoleScript

/-! ## Writing -/

namespace CompiledFile

open Cbor in
def listField {α : Type} (key : Nat) (item : α → Item) (xs : List α) : List (Item × Item) :=
  if xs.isEmpty then [] else [(.uint key, .array (xs.map item))]

open Cbor in
def toItem (f : CompiledFile) : Item :=
  let line (b : LineBreak) : Item :=
    .map [(.uint 1, .uint b.line.toNat), (.uint 2, .uint b.ip.toNat)]
  .map ([
    (.uint 1, .text [f.magic]),
    (.uint 2, .uint f.version.toNat),
    (.uint 3, .bytes f.buildId),
    (.uint 4, .bytes f.sourceHash),
    (.uint 5, .text [f.name]),
    (.uint 6, .array (f.code.map fun w => .uint w.toNat))]
    ++ listField 7 (fun t => .text [t]) f.texts
    ++ listField 8 .float f.floats
    ++ listField 9 line f.lines
    ++ if f.source.isEmpty then [] else [(.uint 10, .text [f.source])])

end CompiledFile

/-! ## Reading -/

namespace Cbor.Item

/-- Is the item the null or the undefined value? Either stands for the zero of any type. -/
def isNull : Item → Bool
  | .simple n => n == 22 || n == 23
  | _ => false

/-- The item without its tags. Of the tags with a meaning, those for dates need a fitting content,
and those for big integers, which need bytes, stay. -/
def untag? : Item → Option Item
  | .tag n x =>
    match n, x with
    | 0, .text p => some (.text p)
    | 0, _ => none
    | 1, .uint m => some (.uint m)
    | 1, .negative m => some (.negative m)
    | 1, .float b => some (.float b)
    | 1, _ => none
    | 2, .bytes b => some (.tag 2 (.bytes b))
    | 2, _ => none
    | 3, .bytes b => some (.tag 3 (.bytes b))
    | 3, _ => none
    | _, x => x.untag?
  | x => some x

/-- A whole number of at least zero. Simple values other than truth values count as numbers. -/
def nat? (x : Item) : Option Nat := do
  match ← x.untag? with
  | .uint n => some n
  | .tag 2 (.bytes b) => let n := ofBigEndian b; if n < UInt64.size then some n else none
  | .simple n => if n == 20 || n == 21 then none else if n == 22 || n == 23 then some 0 else some n
  | _ => none

def word? (x : Item) : Option UInt32 :=
  x.nat?.bind fun n => if n < UInt32.size then some n.toUInt32 else none

/-- The bits of a number. Integers of 64 bits are numbers too. -/
def float? (x : Item) : Option UInt64 := do
  let ofNegative (n : Nat) : Option UInt64 :=
    if n < Number.signedBound then some (Number.ofInt64 (Int64.ofInt (-1 - n))).toBits else none
  match ← x.untag? with
  | .float b => some b
  | .negative n => ofNegative n
  | .tag 3 (.bytes b) => ofNegative (ofBigEndian b)
  | x => x.nat?.map fun n => n.toUInt64.toFloat.toBits

def text? (x : Item) : Option Text := do
  match ← x.untag? with
  | .text pieces => if pieces.all Text.isUtf8 then some pieces.flatten else none
  | x => if x.isNull then some [] else none

/-- Exactly `n` bytes: longer sequences are cut and shorter ones filled up with zeros. -/
def fitBytes (n : Nat) (b : Text) : Text := b.take n ++ List.replicate (n - b.length) 0

def byte? (x : Item) : Option UInt8 :=
  x.nat?.bind fun n => if n < UInt8.size then some n.toUInt8 else none

/-- A sequence of `n` bytes. -/
def bytes? (n : Nat) (x : Item) : Option Text := do
  match ← x.untag? with
  | .bytes b => some (fitBytes n b)
  | .tag _ (.bytes b) => some (fitBytes n b)
  | .array xs => ((xs.take n).mapM byte?).map (fitBytes n)
  | x => if x.isNull then some (fitBytes n []) else none

/-- A build identifier. Given as bytes, there have to be sixteen of them or none. -/
def buildId? (x : Item) : Option Text := do
  let whole (b : Text) : Option Text :=
    if b.length == 16 || b.isEmpty then some (fitBytes 16 b) else none
  match ← x.untag? with
  | .bytes b => whole b
  | .tag _ (.bytes b) => whole b
  | x => x.bytes? 16

def list? {α : Type} (f : Item → Option α) (x : Item) : Option (List α) := do
  match ← x.untag? with
  | .array xs => xs.mapM f
  | x => if x.isNull then some [] else none

/-- Can the item be a key? Keys are integers of 64 bits and valid texts. -/
def isKey : Item → Bool
  | .uint _ => true
  | .negative n => n < Number.signedBound
  | .text pieces => pieces.all Text.isUtf8
  | _ => false

/-- The record that an item stands for: the value of the first pair for each numbered key. -/
def record? (x : Item) : Option (Nat → Option Item) := do
  match ← x.untag? with
  | .map pairs =>
    if pairs.all (isKey ·.1) then
      some fun k => pairs.findSome? fun (key, v) =>
        match key with
        | .uint n => if n == k then some v else none
        | _ => none
    else none
  | x => if x.isNull then some fun _ => none else none

end Cbor.Item

namespace CompiledFile

/-- The null value stands for a field that is missing. -/
def missing : Cbor.Item := .simple 22

def line? (x : Cbor.Item) : Option LineBreak := do
  let get ← x.record?
  return ⟨← ((get 1).getD missing).word?, ← ((get 2).getD missing).word?⟩

/-- The file that an item holds. Fields that are missing are empty or zero. -/
def ofItem? (x : Cbor.Item) : Option CompiledFile := do
  let get ← x.record?
  let field (k : Nat) : Cbor.Item := (get k).getD missing
  return {
    magic := ← (field 1).text?
    version := ← (field 2).word?
    buildId := ← (field 3).buildId?
    sourceHash := ← (field 4).bytes? 32
    name := ← (field 5).text?
    code := ← (field 6).list? Cbor.Item.word?
    texts := ← (field 7).list? Cbor.Item.text?
    floats := ← (field 8).list? Cbor.Item.float?
    lines := ← (field 9).list? line?
    source := ← (field 10).text? }

/-- Do the bytes start with items of which an array or a map has too many elements? The heads are
read one after the other, whatever they are nested in. -/
def overlong : Nat → Text → Bool
  | 0, _ => false
  | fuel + 1, t =>
    match Cbor.head? t with
    | none => false
    | some (h, rest) =>
      match h.major, h.argument with
      | 2, some n | 3, some n => overlong fuel (rest.drop n)
      | 4, some n | 5, some n => Cbor.maxElements < n || overlong fuel rest
      | _, _ => overlong fuel rest

/-- The codec for CBOR. A refusal is worded as for bytes that were written by the codec or cut
off. -/
def Codec.cbor : Codec where
  marshal f := .ok f.toItem.encode
  unmarshal data :=
    match Cbor.parse? data with
    | none =>
      .error (if overlong data.length data
        then "cbor: exceeded max number of elements 131072 for CBOR array" else "unexpected EOF")
    | some x =>
      match ofItem? x with
      | none => .error "cbor: invalid UTF-8 string"
      | some f => .ok f

end CompiledFile

end ConsoleScript
