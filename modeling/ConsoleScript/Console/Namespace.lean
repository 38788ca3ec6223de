import ConsoleScript.Console.Arena
import ConsoleScript.Console.Fault
import ConsoleScript.Console.Name
import ConsoleScript.Console.Native

/-!
# Namespaces

A namespace is a named set of entries, each of them something that can be called, with at most one
parent to inherit from. A namespace that belongs to a package is an overlay: while its package is
active it stands in the list of layers of the namespace of the same name that belongs to none, and
its entries come before those of that base.

A look-up goes through the layers, newest first, then the entries of the namespace itself, then
the same for its parent and so on. Its answers come from a table that is built on the first
look-up after a change: every change of what is visible anywhere moves a stamp forward, and a
table with an old stamp is built anew. The tables are slices of one arena, which is emptied with
every move of the stamp.
-/

namespace ConsoleScript

/-- The number of a namespace, in the order of creation. -/
abbrev SpaceId := Nat

/-- The number of an entry, in the order of creation. -/
abbrev EntryId := Nat

/-- The number of a code block, in the order of loading. -/
abbrev BlockId := Nat

inductive EntryBody where
  /-- A heading in the documentation. It cannot be called. -/
  | group
  /-- Documents a function that scripts may define; calling it does nothing. -/
  | callback
  /-- A script function: its block, the position of its declaration and the source line. -/
  | script (block : BlockId) (offset line : UInt32)
  | native (kind : ResultKind) (native : Native)

inductive EntryKind where
  | group | callback | script
  | native (kind : ResultKind)
  deriving DecidableEq, Repr

namespace EntryKind

def name : EntryKind → Text
  | group => "group"
  | callback => "callback"
  | script => "script"
  | native .text => "string"
  | native .int => "int"
  | native .float => "float"
  | native .void => "void"
  | native .bool => "bool"

/-- All kinds, in the order of their numbers. -/
def all : List EntryKind :=
  [group, callback, script, native .text, native .int, native .float, native .void, native .bool]

/-- The name of the kind with a number. Numbers have eight bits. -/
def nameOfNumber (n : Nat) : Text :=
  match all[n % 256]? with
  | some k => k.name
  | none => "unknown"

end EntryKind

def EntryBody.kind : EntryBody → EntryKind
  | .group => .group
  | .callback => .callback
  | .script .. => .script
  | .native kind _ => .native kind

def EntryBody.isGroup : EntryBody → Bool
  | .group => true
  | _ => false

/-- Something registered under a name in one namespace. -/
structure Entry where
  space : SpaceId
  name : Option Name
  body : EntryBody
  package : Option Name := none
  /-- The least number of arguments; nothing is checked when it is zero. -/
  minArgs : Int := 0
  /-- The greatest number of arguments; nothing is checked when it is zero. -/
  maxArgs : Int := 0
  usage : Text := []

structure Namespace where
  name : Option Name := none
  package : Option Name := none
  parent : Option SpaceId := none
  /-- How often the parent was asked for. -/
  linkCount : Int := 0
  /-- Newest first. -/
  entries : List EntryId := []
  /-- The overlays of active packages, oldest first. -/
  layers : List SpaceId := []
  /-- The namespace this overlay is a layer of. -/
  base : Option SpaceId := none
  /-- What a look-up finds: a hash table over the numbers of names. -/
  cache : Option Slice := none
  /-- The stamp under which the table was built. -/
  cacheStamp : Nat := 0
  deriving Inhabited

/-- All namespaces, their entries, and the stack of active packages. -/
structure Namespaces where
  spaces : Array Namespace := #[]
  entries : Array Entry := #[]
  /-- The active packages, oldest first. -/
  active : List Name := []
  stamp : Nat := 1
  /-- Where the tables of look-ups are. -/
  arena : Arena EntryId := { size := Arena.defaultSize }

namespace Namespaces

def space (s : Namespaces) (id : SpaceId) : Namespace := (s.spaces[id]?).getD {}

def modify (s : Namespaces) (id : SpaceId) (f : Namespace → Namespace) : Namespaces :=
  { s with spaces := s.spaces.modify id f }

/-- Makes every table of look-ups outdated. -/
def outdate (s : Namespaces) : Namespaces :=
  { s with stamp := s.stamp + 1, arena := s.arena.reset }

/-- The namespace of a name and a package. -/
def find? (s : Namespaces) (name package : Option Name) : Option SpaceId :=
  s.spaces.findIdx? fun n => n.name == name && n.package == package

def isPackage (s : Namespaces) (package : Name) : Bool :=
  s.spaces.any fun n => n.package == some package

/-! ## Layers -/

def isActive (s : Namespaces) (package : Name) : Bool := s.active.contains package

/-- The place of a package among the active ones. -/
def rank (s : Namespaces) (package : Option Name) : Nat :=
  s.active.findIdx fun p => some p == package

/-- Adds a namespace. -/
def push (s : Namespaces) (name package : Option Name) : SpaceId × Namespaces :=
  (s.spaces.size, { s with spaces := s.spaces.push { name := name, package := package } })

/-- The namespace of a name outside of packages, which is created if it is missing. -/
def obtainBase (s : Namespaces) (name : Option Name) : SpaceId × Namespaces :=
  match s.find? name none with
  | some id => (id, s)
  | none => s.push name none

/-- Makes an overlay of an active package a layer of its base. Layers stand in the order in which
their packages were activated. -/
def layer (s : Namespaces) (id : SpaceId) : Namespaces :=
  let (base, s) := s.obtainBase (s.space id).name
  let order := s.rank (s.space id).package
  let below (l : SpaceId) : Bool := s.rank (s.space l).package ≤ order
  let s := s.modify base fun b =>
    { b with layers := b.layers.takeWhile below ++ id :: b.layers.dropWhile below }
  (s.modify id fun n => { n with base := some base }).outdate

def unlayer (s : Namespaces) (id : SpaceId) : Namespaces :=
  match (s.space id).base with
  | none => s
  | some base =>
    let s := s.modify base fun b => { b with layers := b.layers.erase id }
    (s.modify id fun n => { n with base := none }).outdate

/-- The namespace of a name and a package, which is created if it is missing. A new overlay of an
active package becomes a layer at once. -/
def obtain (s : Namespaces) (name package : Option Name) : SpaceId × Namespaces :=
  match s.find? name package with
  | some id => (id, s)
  | none =>
    let (id, s) := s.push name package
    match package with
    | none => (id, s)
    | some p => (id, if s.isActive p then s.layer id else s)

/-- The namespaces of a package, in the order of creation. -/
def overlays (s : Namespaces) (package : Name) : List SpaceId :=
  (List.range s.spaces.size).filter fun id => (s.space id).package == some package

/-- Puts a package on the stack of active ones. -/
def activateOne (s : Namespaces) (package : Name) : Namespaces :=
  let s := { s with active := s.active ++ [package] }
  (s.overlays package).foldl layer s

def unlayerAll (s : Namespaces) (package : Name) : Namespaces :=
  (s.overlays package).foldl unlayer s

/-- Activates a package, if there is one; says whether there is. An active package stays where it
is. -/
def activate (s : Namespaces) (package : Option Name) : Bool × Namespaces :=
  match package with
  | none => (false, s)
  | some p =>
    if !s.isPackage p then (false, s)
    else if s.isActive p then (true, s)
    else (true, s.activateOne p)

/-- Deactivates a package; says whether it was active. Those above it are taken off, newest first,
and put back in their order. -/
def deactivate (s : Namespaces) (package : Option Name) : Bool × Namespaces :=
  match package with
  | none => (false, s)
  | some p =>
    if !s.isActive p then (false, s)
    else
      let i := s.active.idxOf p
      let above := s.active.drop (i + 1)
      let s := (s.active.drop i).reverse.foldl unlayerAll s
      let s := above.foldl activateOne { s with active := s.active.take i }
      (true, s.outdate)

/-! ## Entries -/

/-- An entry of the namespace's own list. -/
def localEntry? (s : Namespaces) (id : SpaceId) (name : Option Name) : Option EntryId :=
  (s.space id).entries.find? fun e => s.entries[e]?.any (·.name == name)

/-- Registers something under a name, in place of what the namespace had under it. Gives the
number of the entry and what it stood for before. -/
def define (s : Namespaces) (id : SpaceId) (name : Option Name) (body : EntryBody) (usage : Text)
    (minArgs maxArgs : Int) : EntryId × Option EntryBody × Namespaces :=
  let entry : Entry := {
    space := id, name := name, body := body, package := (s.space id).package
    minArgs := minArgs, maxArgs := maxArgs, usage := usage }
  match s.localEntry? id name with
  | some e =>
    (e, s.entries[e]?.map (·.body), { s with entries := s.entries.setIfInBounds e entry }.outdate)
  | none =>
    let e := s.entries.size
    let s := { s with entries := s.entries.push entry }
    (e, none, (s.modify id fun n => { n with entries := e :: n.entries }).outdate)

/-! ## Look-up -/

/-- The entries a look-up meets in one namespace: those of its layers, newest first, and its
own. -/
def ownVisible (s : Namespaces) (id : SpaceId) : List EntryId :=
  (s.space id).layers.reverse.flatMap (fun l => (s.space l).entries) ++ (s.space id).entries

/-- The entries a look-up meets in a namespace and in at most `fuel` of its ancestors. -/
def visibleFrom (s : Namespaces) : Nat → SpaceId → List EntryId
  | 0, id => s.ownVisible id
  | fuel + 1, id =>
    s.ownVisible id ++ match (s.space id).parent with
      | some p => s.visibleFrom fuel p
      | none => []

/-- The entries a look-up meets, in the order in which it meets them. -/
def visible (s : Namespaces) (id : SpaceId) : List EntryId := s.visibleFrom s.spaces.size id

/-- The first of `size`, `2 * size`, `4 * size`, … that is not below `need`. -/
def doubled (size need : Nat) : Nat :=
  if 0 < size ∧ size < need then doubled (2 * size) need else size
  termination_by need - size

/-- The place of a name in a table: from its number on, the first that is free or holds an entry
of that name. At most `fuel` places are tried. -/
def probe? (entries : Array Entry) (arena : Arena EntryId) (table : Slice) (name : Name) :
    Nat → Nat → Option Nat
  | 0, _ => none
  | fuel + 1, i =>
    match arena.get? table i with
    | none => none
    | some none => some i
    | some (some e) =>
      if entries[e]?.any (·.name == some name) then some i
      else probe? entries arena table name fuel ((i + 1) % table.length)

/-- The place of a name in a table. A table without it that has no free place is searched without
end. -/
def place (entries : Array Entry) (arena : Arena EntryId) (table : Slice) (name : Name) :
    Except Fault Nat :=
  match probe? entries arena table name table.length (name.id % table.length) with
  | some i => .ok i
  | none => .error .exhausted

/-- Puts an entry into a table, unless it is a heading or its name is already there. -/
def enter (entries : Array Entry) (table : Slice) (arena : Arena EntryId) (e : EntryId) :
    Except Fault (Arena EntryId) :=
  match entries[e]? with
  | none => .ok arena
  | some entry =>
    if entry.body.isGroup then .ok arena
    else match entry.name with
      | none => .error .absent
      | some name => do
        let i ← place entries arena table name
        return if arena.get? table i == some none then arena.set table i e else arena

/-- Builds the table for the entries that a look-up in a namespace meets. -/
def buildTable (s : Namespaces) (id : SpaceId) : Except Fault (Slice × Arena EntryId) := do
  let met := s.visible id
  let (table, arena) := s.arena.alloc (doubled 8 (2 * met.length))
  return (table, ← met.foldlM (enter s.entries table) arena)

def refresh (s : Namespaces) (id : SpaceId) : Except Fault Namespaces :=
  let n := s.space id
  if n.cacheStamp == s.stamp && n.cache.isSome then .ok s
  else do
    let (table, arena) ← s.buildTable id
    return { s with arena := arena }.modify id fun n =>
      { n with cache := some table, cacheStamp := s.stamp }

def findIn (entries : Array Entry) (arena : Arena EntryId) (table : Slice) (name : Name) :
    Except Fault (Option EntryId) := do
  return (arena.get? table (← place entries arena table name)).join

/-- The entry a name stands for in a namespace. -/
def lookup (s : Namespaces) (id : SpaceId) (name : Option Name) :
    Except Fault (Option EntryId × Namespaces) :=
  match name with
  | none => .ok (none, s)
  | some name => do
    let s ← s.refresh id
    match (s.space id).cache with
    | none => return (none, s)
    | some table => return (← findIn s.entries s.arena table name, s)

/-- The entry a name stands for beneath a namespace: in the older layers of the same base and in
the base itself, if it is a layer, and then from the parent on. -/
def lookupBelow (s : Namespaces) (origin : Option SpaceId) (name : Option Name) :
    Except Fault (Option EntryId × Namespaces) :=
  match origin with
  | none => .ok (none, s)
  | some id =>
    let inherited (id : SpaceId) : Except Fault (Option EntryId × Namespaces) :=
      match (s.space id).parent with
      | none => .ok (none, s)
      | some p => s.lookup p name
    match (s.space id).base with
    | none => inherited id
    | some base =>
      let older := ((s.space base).layers.takeWhile (· != id)).reverse
      match (older ++ [base]).findSome? fun l => s.localEntry? l name with
      | some e => .ok (some e, s)
      | none => inherited base

/-! ## Parents -/

/-- Is `id` the namespace itself or among its first `fuel` ancestors? -/
def reaches (s : Namespaces) (id : SpaceId) : Nat → SpaceId → Bool
  | 0, start => start == id
  | fuel + 1, start =>
    start == id || match (s.space start).parent with
      | some p => s.reaches id fuel p
      | none => false

/-- Makes `parent` the parent of a namespace. Asking again for the same parent is counted; another
parent, or one that inherits from the namespace, is refused. -/
def link (s : Namespaces) (id parent : SpaceId) : Bool × Namespaces :=
  match (s.space id).parent with
  | some p =>
    if p == parent then (true, s.modify id fun n => { n with linkCount := n.linkCount + 1 })
    else (false, s)
  | none =>
    if s.reaches id s.spaces.size parent then (false, s)
    else (true, (s.modify id fun n => { n with parent := some parent, linkCount := 1 }).outdate)

/-- Takes back one request for a parent; the last one cuts the link. -/
def unlink (s : Namespaces) (id parent : SpaceId) : Bool × Namespaces :=
  if (s.space id).parent != some parent then (false, s)
  else
    let count := (s.space id).linkCount - 1
    let s := s.modify id fun n => { n with linkCount := count }
    if count == 0 then (true, (s.modify id fun n => { n with parent := none }).outdate)
    else (true, s)

/-! ## Wording -/

def describe (s : Namespaces) (names : NameTable) (id : SpaceId) : Text :=
  let n := s.space id
  let name := match n.name with
    | some name => names.text name
    | none => "<global>"
  match n.package with
  | some p => Text.ofString "[" ++ names.text p ++ Text.ofString "]" ++ name
  | none => name

def qualifiedName (s : Namespaces) (names : NameTable) (e : Entry) : Text :=
  match (s.space e.space).name with
  | some ns => names.text ns ++ Text.ofString "::" ++ names.text? e.name
  | none => names.text? e.name

end Namespaces
end ConsoleScript
