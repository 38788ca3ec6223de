import ConsoleScript.Console.Export
import ConsoleScript.Console.Glob
import ConsoleScript.Console.Name

/-!
# Scopes

Variables live in tables: one for the globals, and one for each frame of the call stack. A frame
either has a table of its own or borrows the table of a frame below it. Frames are pooled: the
slot of a popped frame is used again for the next one.

A table is a hash table with chains. Its variables are kept in cells in the order they were
created; emptying a table drops all cells and starts a new generation. The place of a name among the
buckets and the stamp of a generation are 32 bits wide, whatever the numbers behind them.
-/

namespace ConsoleScript

structure Variable where
  name : Name
  value : Value := .text []
  /-- Labels of those who want to hear of every assignment. -/
  watchers : List Text := []
  constant : Bool := false
  deriving Inhabited

/-- A hash table of variables. A chain lists cells, the newest first. -/
structure Table where
  buckets : Array (List Nat)
  count : Nat := 0
  /-- How often the table was emptied. -/
  epoch : Nat := 0
  cells : Array Variable := #[]

namespace Table

inductive Fault where
  /-- There is no array of so many buckets. -/
  | tooLarge
  /-- The number of buckets is zero in 32 bits. -/
  | zeroDivide
  deriving DecidableEq, Repr

def Fault.message : Fault → Text
  | .tooLarge => "runtime error: makeslice: len out of range"
  | .zeroDivide => "runtime error: integer divide by zero"

/-- The largest number of buckets for which there is room in an address space of 48 bits. -/
def maxBuckets : Nat := 0x200000000000

/-- An empty table with `n` buckets. -/
def ofSize (n : Nat) : Table := { buckets := Array.replicate n [] }

/-- The stamp of the variables of a table. -/
def generation (t : Table) : UInt32 := UInt32.ofNat t.epoch

/-- The place of a name among `size` buckets, where both numbers count in 32 bits. -/
def slot (n : Name) (size : Nat) : Nat := (n.number % UInt32.ofNat size).toNat

def bucketOf (t : Table) (n : Name) : Nat := slot n t.buckets.size

def chain (t : Table) (i : Nat) : List Nat := (t.buckets[i]?).getD []

def isNamed (t : Table) (n : Name) (cell : Nat) : Bool := t.cells[cell]?.any (·.name == n)

/-- The cell of the variable with a name. -/
def find? (t : Table) (n : Name) : Option Nat := (t.chain (t.bucketOf n)).find? (t.isNamed n)

/-- Puts a cell in front of its chain. -/
def link (cells : Array Variable) (buckets : Array (List Nat)) (cell : Nat) : Array (List Nat) :=
  match cells[cell]? with
  | some v => buckets.modify (slot v.name buckets.size) (cell :: ·)
  | none => buckets

/-- Spreads the variables over four times as many buckets, less one. -/
def grow (t : Table) : Table :=
  let fresh := Array.replicate (4 * t.buckets.size - 1) []
  { t with buckets := t.buckets.foldl (fun bs chain => chain.foldl (link t.cells) bs) fresh }

/-- Adds a variable of a name that the table does not hold; gives its cell. The table grows when
it holds more than two variables for each bucket. -/
def create (t : Table) (n : Name) : Nat × Table :=
  let t := { t with count := t.count + 1 }
  let t := if t.count > 2 * t.buckets.size then t.grow else t
  let cell := t.cells.size
  let cells := t.cells.push { name := n }
  (cell, { t with cells := cells, buckets := link cells t.buckets cell })

def isLinked (t : Table) (cell : Nat) : Bool :=
  match t.cells[cell]? with
  | some v => (t.chain (t.bucketOf v.name)).contains cell
  | none => false

/-- Takes a cell out of its chain. The cell itself stays. -/
def unlink (t : Table) (cell : Nat) : Table :=
  match t.cells[cell]? with
  | some v => { t with
      count := t.count - 1
      buckets := t.buckets.modify (t.bucketOf v.name) (·.erase cell) }
  | none => t

/-- The empty table of the next generation. It keeps its buckets. -/
def reset (t : Table) : Table :=
  { buckets := t.buckets.map fun _ => [], count := 0, epoch := t.epoch + 1, cells := #[] }

def linked (t : Table) : List Nat := t.buckets.toList.flatten

end Table

/-- Names a table by the scope it belongs to. -/
inductive ScopeId where
  | globals
  | frame (i : Nat)
  deriving DecidableEq, Repr

/-- What a frame says about the code that runs in it. -/
structure FrameLabel where
  /-- The function. -/
  name : Option Name := none
  /-- The number of the namespace of that function. -/
  ns : Option Nat := none
  /-- The number of the code block. -/
  code : Option Nat := none
  /-- How far the code has come. -/
  ip : UInt32 := 0
  deriving DecidableEq, Inhabited

/-- One scope: its own table, once it has had one, and the table it uses. -/
structure Scope extends label : FrameLabel where
  own : Option Table := none
  table : Option ScopeId := none
  deriving Inhabited

/-- A variable in the table of a scope. -/
structure VarRef where
  owner : ScopeId
  cell : Nat
  deriving DecidableEq, Repr

/-- A variable remembered across changes of its table. -/
structure VarHandle where
  ref : VarRef
  epoch : Nat
  deriving DecidableEq, Repr

/-- A notification of an assignment: who is told, the variable and its value. -/
structure Notice where
  watcher : Text
  name : Text
  value : Text
  deriving DecidableEq, Repr

/-- The globals and the stack of frames. Slots past the depth are free. -/
structure Scopes where
  /-- How many buckets a new table has. -/
  initial : Nat
  globals : Scope := {}
  frames : Array Scope := #[]
  depth : Nat := 0

namespace Scopes

/-- The number of buckets of a new table unless another one is asked for. -/
def defaultBuckets : Nat := 15

/-- No frames and no variables; tables start with `buckets` buckets. -/
def ofBuckets (buckets : Int) : Scopes :=
  { initial := if buckets < 1 then defaultBuckets else buckets.toNat }

def get (s : Scopes) : ScopeId → Scope
  | .globals => s.globals
  | .frame i => (s.frames[i]?).getD {}

def modify (s : Scopes) (id : ScopeId) (f : Scope → Scope) : Scopes :=
  match id with
  | .globals => { s with globals := f s.globals }
  | .frame i => { s with frames := s.frames.modify i f }

def current? (s : Scopes) : Option ScopeId := if s.depth = 0 then none else some (.frame (s.depth - 1))

/-- The frame at a stack position, if it is live. -/
def frame? (s : Scopes) (i : Int) : Option ScopeId :=
  if 0 ≤ i ∧ i < s.depth then some (.frame i.toNat) else none

/-- The table a scope uses. -/
def table? (s : Scopes) (id : ScopeId) : Option Table :=
  (s.get id).table.bind fun owner => (s.get owner).own

def modifyTable (s : Scopes) (owner : ScopeId) (f : Table → Table) : Scopes :=
  s.modify owner fun sc => { sc with own := sc.own.map f }

/-- Gives a scope a table, its own one if it uses none; says whose table it uses. -/
def ensureTable (s : Scopes) (id : ScopeId) : ScopeId × Scopes :=
  match (s.get id).table with
  | some owner => (owner, s)
  | none =>
    (id, s.modify id fun sc => { sc with own := some (sc.own.getD (.ofSize s.initial)), table := some id })

def owns (s : Scopes) (id : ScopeId) : Bool := (s.get id).table == some id

/-- Do two scopes use the same table? -/
def shares (s : Scopes) (a b : ScopeId) : Bool :=
  (s.get a).table.isSome && (s.get a).table == (s.get b).table

/-- How many variables a scope sees. -/
def count (s : Scopes) (id : ScopeId) : Nat :=
  match s.table? id with
  | some t => t.count
  | none => 0

def bucketCount (s : Scopes) (id : ScopeId) : Nat :=
  match (s.table? id).or (s.get id).own with
  | some t => t.buckets.size
  | none => s.initial

/-! ## Variables -/

def var? (s : Scopes) (r : VarRef) : Option Variable :=
  (s.get r.owner).own.bind (·.cells[r.cell]?)

def modifyVariable (s : Scopes) (r : VarRef) (f : Variable → Variable) : Scopes :=
  s.modifyTable r.owner fun t => { t with cells := t.cells.modify r.cell f }

/-- The variable with a name. -/
def find? (s : Scopes) (id : ScopeId) (n : Option Name) : Option VarRef := do
  let owner ← (s.get id).table
  let t ← (s.get owner).own
  let cell ← t.find? (← n)
  return ⟨owner, cell⟩

/-- The variable with a name, which is created if it is missing. -/
def add (s : Scopes) (id : ScopeId) (n : Name) : VarRef × Scopes :=
  match s.find? id (some n) with
  | some r => (r, s)
  | none =>
    let (owner, s) := s.ensureTable id
    match (s.get owner).own with
    | some t =>
      let (cell, t) := t.create n
      (⟨owner, cell⟩, s.modify owner fun sc => { sc with own := some t })
    | none => (⟨owner, 0⟩, s)

/-- What goes wrong when a scope is to use a table. -/
def tableFault? (s : Scopes) (id : ScopeId) : Option Table.Fault :=
  if (s.get id).table.isNone && (s.get id).own.isNone && Table.maxBuckets < s.initial then
    some .tooLarge
  else none

/-- What goes wrong when a name is to be found in the table of a scope. -/
def nameFault? (s : Scopes) (id : ScopeId) : Option Table.Fault :=
  if UInt32.ofNat (s.bucketCount id) = 0 then some .zeroDivide else none

/-- What goes wrong when a variable is added to a scope. -/
def addFault? (s : Scopes) (id : ScopeId) : Option Table.Fault :=
  (s.tableFault? id).or (s.nameFault? id)

/-- Adds a variable unless the number of buckets forbids it. If a table was made or taken up for the
variable, it counts the variable but has it in no chain. -/
def tryAdd (s : Scopes) (id : ScopeId) (n : Name) : Except Table.Fault VarRef × Scopes :=
  match s.addFault? id with
  | none => (.ok (s.add id n).1, (s.add id n).2)
  | some .tooLarge => (.error .tooLarge, s)
  | some .zeroDivide =>
    if (s.get id).table.isSome then (.error .zeroDivide, s)
    else
      let (owner, s) := s.ensureTable id
      (.error .zeroDivide, s.modifyTable owner fun t =>
        { t with count := t.count + 1, cells := t.cells.push { name := n } })

/-- Assigns to a variable and gives the notifications it fires. A constant refuses. -/
def assign? (s : Scopes) (names : NameTable) (r : VarRef) (value : Value) :
    Option (List Notice × Scopes) :=
  match s.var? r with
  | some v =>
    if v.constant then none
    else some (v.watchers.map fun w => ⟨w, names.text v.name, value.toText⟩,
      s.modifyVariable r fun v => { v with value := value })
  | none => none

/-- Makes a variable read-only, or writable again. -/
def setConstant (s : Scopes) (r : VarRef) (on : Bool) : Scopes :=
  s.modifyVariable r fun v => { v with constant := on }

/-- Tells `watcher` of every later assignment. -/
def watch (s : Scopes) (r : VarRef) (watcher : Text) : Scopes :=
  s.modifyVariable r fun v => { v with watchers := v.watchers ++ [watcher] }

/-- Removes a variable from the table of a scope, if it is there. -/
def remove? (s : Scopes) (id : ScopeId) (r : VarRef) : Option Scopes := do
  let owner ← (s.get id).table
  let t ← (s.get owner).own
  if owner == r.owner && t.isLinked r.cell then return s.modifyTable owner (·.unlink r.cell)
  else none

/-- The variables of a scope that match a pattern, in the order of their names without regard to
letter case. -/
def matching (s : Scopes) (names : NameTable) (id : ScopeId) (pattern : Text) :
    List (VarRef × Variable) :=
  match (s.get id).table with
  | none => []
  | some owner =>
    match (s.get owner).own with
    | none => []
    | some t =>
      let hits := t.linked.filterMap fun cell => do
        let v ← t.cells[cell]?
        let text := names.text v.name
        if Glob.matches? pattern text then
          some (Text.lower text, VarRef.mk owner cell, v)
        else none
      (hits.mergeSort fun a b => Text.le a.1 b.1).map (·.2)

/-- Removes the variables that match a pattern, except for constants; says how many. -/
def deleteMatching (s : Scopes) (names : NameTable) (id : ScopeId) (pattern : Text) : Nat × Scopes :=
  (s.matching names id pattern).foldl (fun (n, s) (r, v) =>
    if v.constant then (n, s)
    else match s.remove? id r with
      | some s => (n + 1, s)
      | none => (n, s)) (0, s)

/-- The variables that match a pattern as assignments, one a line. -/
def exportMatching (s : Scopes) (names : NameTable) (id : ScopeId) (pattern : Text) : Text :=
  (s.matching names id pattern).flatMap fun (_, v) =>
    Value.assignment (names.text v.name) v.value ++ [0x0A]

/-! ## Frames -/

/-- Empties the table a scope owns, or stops using a borrowed one. -/
def reset (s : Scopes) (id : ScopeId) : Scopes :=
  s.modify id fun sc => {
    own := if sc.table == some id then sc.own.map Table.reset else sc.own }

def nextSlot (s : Scopes) : ScopeId × Scopes :=
  let frames := if s.depth = s.frames.size then s.frames.push {} else s.frames
  (.frame s.depth, { s with frames := frames, depth := s.depth + 1 })

/-- Pushes a frame with a table of its own. -/
def push (s : Scopes) (name : Option Name) (ns : Option Nat) : ScopeId × Scopes :=
  let (id, s) := s.nextSlot
  (id, s.modify id fun sc =>
    { sc with table := if sc.own.isSome then some id else none, name := name, ns := ns })

/-- Pushes a frame that uses the table of the live frame at a stack position; without such a frame
it has a table of its own. -/
def pushShared (s : Scopes) (i : Int) : ScopeId × Scopes :=
  match s.frame? i with
  | none =>
    let (id, s) := s.nextSlot
    (id, s.modify id fun sc => { sc with table := if sc.own.isSome then some id else none })
  | some lender =>
    let (owner, s) := s.ensureTable lender
    let below := s.get lender
    let (id, s) := s.nextSlot
    (id, s.modify id fun sc =>
      { sc with table := some owner, name := below.name, ns := below.ns, code := below.code })

/-- Pushes a frame as `pushShared` does, unless the lender has no table and none can be made. Then
the slot is taken, and nothing is in it. -/
def tryPushShared (s : Scopes) (i : Int) : Except Table.Fault ScopeId × Scopes :=
  match (s.frame? i).bind s.tableFault? with
  | none => (.ok (s.pushShared i).1, (s.pushShared i).2)
  | some fault => (.error fault, s.nextSlot.2)

/-- Says which code runs in a scope, and how far it has come. -/
def setCode (s : Scopes) (id : ScopeId) (code : Nat) (ip : UInt32) : Scopes :=
  s.modify id fun sc => { sc with code := some code, ip := ip }

/-- Pops the innermost frame, whose slot becomes free. -/
def pop (s : Scopes) : Scopes :=
  if s.depth = 0 then s
  else { s.reset (.frame (s.depth - 1)) with depth := s.depth - 1 }

/-! ## Remembered variables -/

/-- How many cells of a table keep their place when the table is emptied. -/
def fixedCells : Nat := 64

/-- A handle on a variable. -/
def hold? (s : Scopes) (r : VarRef) : Option VarHandle := do
  let t ← (s.get r.owner).own
  return ⟨r, t.epoch⟩

inductive HandleState where
  /-- A variable of the table, with that stamp. -/
  | present (generation : UInt32)
  /-- A place that was emptied and not filled again. Its stamp is zero, and it has no name. -/
  | vacant
  /-- What the place held before the table was emptied. No table has it in a chain. -/
  | dropped
  deriving DecidableEq, Repr

/-- Looks a handle up. Places among the first cells are used again after the table was emptied;
others keep what they held. -/
def handleState (s : Scopes) (h : VarHandle) : HandleState :=
  match (s.get h.ref.owner).own with
  | none => .dropped
  | some t =>
    if t.epoch = h.epoch then .present t.generation
    else if fixedCells ≤ h.ref.cell then .dropped
    else if h.ref.cell < t.cells.size then .present t.generation
    else .vacant

inductive HandleRemoval where
  | removed (s : Scopes)
  | refused
  /-- A vacant place was taken for a variable. -/
  | faulted

/-- Removes the variable a handle refers to from the table of a scope. A handle is only followed
when its stamp is that of the table. -/
def removeHeld (s : Scopes) (id : ScopeId) (h : VarHandle) : HandleRemoval :=
  match s.table? id with
  | none => .refused
  | some t =>
    match s.handleState h with
    | .dropped => .refused
    | .vacant => if t.generation = 0 then .faulted else .refused
    | .present g =>
      if g = t.generation then
        match s.remove? id h.ref with
        | some s => .removed s
        | none => .refused
      else .refused

end Scopes
end ConsoleScript
