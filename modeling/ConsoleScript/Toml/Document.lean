import ConsoleScript.Toml.Grammar

/-!
# Configuration documents

The lines of a configuration text add up to a tree of tables. A key may be given only once, but a
table that so far exists only because of keys below it may still be opened by its own name. Such
tables are called implied. An implied array is replaced by what is written later.

A document also keeps the keys in the order in which they were written, so that a reader can name
the first one it does not know.
-/

namespace ConsoleScript.Toml

inductive Node where
  /-- A value that keys cannot lead into. -/
  | value (w : Written)
  | table (entries : List (Text × Node))
  /-- An array of tables. Keys lead into the last one. -/
  | tables (earlier : List (List (Text × Node))) (last : List (Text × Node))

abbrev Entries := List (Text × Node)

def Node.entries? : Node → Option Entries
  | .value _ => none
  | .table es => some es
  | .tables _ last => some last

/-- The node with another table for keys to lead into. -/
def Node.withEntries (n : Node) (es : Entries) : Node :=
  match n with
  | .tables earlier _ => .tables earlier es
  | _ => .table es

namespace Entries

/-- Puts a node under a name, in place of what stood there. -/
def set (k : Text) (n : Node) : Entries → Entries
  | [] => [(k, n)]
  | (j, m) :: es => if j == k then (k, n) :: es else (j, m) :: set k n es

def at? : Key → Entries → Option Entries
  | [], es => some es
  | k :: ks, es => do at? ks (← (← es.lookup k).entries?)

def modify? (f : Entries → Option Entries) : Key → Entries → Option Entries
  | [], es => f es
  | k :: ks, es => do
    let n ← es.lookup k
    return set k (n.withEntries (← modify? f ks (← n.entries?))) es

end Entries

/-- Is the byte one that needs an escape in a quoted key, and which? -/
def escapeKeyByte (b : UInt8) : Text :=
  match [(0x22, 0x22), (0x5C, 0x5C), (0x08, 0x62), (0x09, 0x74), (0x0A, 0x6E), (0x0C, 0x66),
    (0x0D, 0x72)].lookup b with
  | some letter => [0x5C, letter]
  | none => if b < 0x20 || b == 0x7F then Text.ofString "\\u" ++ Text.ofHex 4 b.toNat else [b]

def keyPartText (part : Text) : Text :=
  if !part.isEmpty && part.all Grammar.isBareKeyByte then part
  else [0x22] ++ part.flatMap escapeKeyByte ++ [0x22]

/-- A key as it is written, with points between its parts. -/
def Key.toText (key : Key) : Text := Text.join "." (key.map keyPartText)

/-- A document that is being put together. -/
structure Builder where
  root : Entries := []
  /-- The keys of tables that exist only because of keys below them. -/
  implied : List Key := []
  /-- The keys whose last value was an array. -/
  arrays : List Key := []
  /-- The keys that were written, the newest first. -/
  written : List Key := []

namespace Builder

def imply (b : Builder) (key : Key) : Builder :=
  if b.implied.contains key then b else { b with implied := key :: b.implied }

/-- Records whether the last value of a name in a table was an array. The record of the empty name
is that of the table itself. -/
def recordKind (b : Builder) (context : Key) (name : Text) (isArray : Bool) : Builder :=
  let key :=
    if !name.isEmpty then context ++ [name] else if context.isEmpty then [[]] else context
  let others := b.arrays.filter (· != key)
  { b with arrays := if isArray then key :: others else others }

/-- Gives a name in a table its content. A name that has one already has to be implied, and keeps
its content unless that is an array. -/
def put? (b : Builder) (context : Key) (name : Text) (n : Node) : Option Builder := do
  let here ← Entries.at? context b.root
  let key := context ++ [name]
  let stored : Option Builder :=
    (Entries.modify? (some <| Entries.set name n ·) context b.root).map fun root =>
      { b with root := root }
  if (here.lookup name).isNone then stored
  else if !b.implied.contains key then none
  else
    let b ← if b.arrays.contains key then stored else some b
    return { b with implied := b.implied.filter (· != key) }

/-- Adds the tables that lead to a key, as implied ones, where they are missing. `done` leads to the
table reached so far. -/
def openParents? (b : Builder) (done : Key) : Key → Option Builder
  | [] | [_] => some b
  | k :: rest => do
    let here ← Entries.at? done b.root
    let b ← match here.lookup k with
      | some n => if n.entries?.isSome then some b else none
      | none =>
        (Entries.modify? (some <| Entries.set k (.table []) ·) done b.root).map fun root =>
          { b.imply (done ++ [k]) with root := root }
    b.openParents? (done ++ [k]) rest

/-- Adds an element to an array of tables, which may not exist yet. -/
def addElement? (name : Text) (es : Entries) : Option Entries :=
  match es.lookup name with
  | none => some (Entries.set name (.tables [] []) es)
  | some (.tables earlier last) => some (Entries.set name (.tables (earlier ++ [last]) []) es)
  | some _ => none

/-- Opens a table, or a further element of an array of tables. -/
def open? (b : Builder) (key : Key) (element : Bool) : Option Builder := do
  let b ← b.openParents? [] key
  let context := key.dropLast
  let name ← key.getLast?
  if element then
    return { b with root := ← Entries.modify? (addElement? name) context b.root }
  else b.put? context name (.table [])

/-- Opens the tables that a dotted key leads through, below a table; gives the key of the last. -/
def descend? (b : Builder) (context : Key) : List Text → Option (Builder × Key)
  | [] => some (b, context)
  | k :: ks => do
    let key := context ++ [k]
    let b ← (b.imply key).open? key false
    b.descend? key ks

/-- Gives a name its value after the tables in the value have been opened. -/
def settle? (b : Builder) (context : Key) (name : Text) (w : Written) : Option Builder := do
  let n ← match w with
    | .table _ => (Entries.at? (context ++ [name]) b.root).map .table
    | w => some (.value w)
  let b ← b.put? context name n
  return b.recordKind context name (w matches .array _)

/-- Makes ready for a value under a dotted key; gives the key of the table it belongs to. -/
def prepare? (b : Builder) (context : Key) (key : Key) : Option (Builder × Key) := do
  let (b, context) ← b.descend? context key.dropLast
  return ({ b with written := (context ++ [key.getLastD []]) :: b.written }, context)

mutual

def fill? (b : Builder) (context : Key) (name : Text) (element : Bool) : Written → Option Builder
  | .array xs => fillItems? (b.recordKind context name true) context name xs
  | .table ps => do
    let key := context ++ [name]
    fillPairs? (← (b.imply key).open? key element) key ps
  | _ => some b

/-- Opens the tables within the items of an array. -/
def fillItems? (b : Builder) (context : Key) (name : Text) : List Written → Option Builder
  | [] => some b
  | x :: xs => do fillItems? (← fill? b context name true x) context name xs

/-- Gives the names in a table their values. -/
def fillPairs? (b : Builder) (context : Key) : List (Key × Written) → Option Builder
  | [] => some b
  | (key, w) :: ps => do
    let name := key.getLastD []
    let (b, inner) ← b.prepare? context key
    let b ← (← fill? b inner name false w).settle? inner name w
    fillPairs? b context ps

end

/-- Carries out a line in the table that is open; gives the key of the table open afterwards. -/
def line? (b : Builder) (context : Key) : Line → Option (Builder × Key)
  | .table key => do
    let b ← b.open? key false
    return ({ b.recordKind key [] false with written := key :: b.written }, key)
  | .element key => do
    let b ← b.open? key true
    return ({ b.recordKind key [] false with written := key :: b.written }, key)
  | .pair key w => do return (← b.fillPairs? context [(key, w)], context)

end Builder

structure Document where
  entries : Entries
  /-- The keys in the order in which they were written. -/
  keys : List Key

def Document.ofText? (t : Text) : Option Document := do
  let lines ← Line.ofText? t
  let (b, _) ← lines.foldlM (fun (b, context) line => Builder.line? b context line)
    (({}, []) : Builder × Key)
  return ⟨b.root, b.written.reverse⟩

end ConsoleScript.Toml
