import ConsoleScript.Console.Block
import ConsoleScript.Console.Class
import ConsoleScript.Console.Object
import ConsoleScript.Console.Scope
import ConsoleScript.Files
import ConsoleScript.Number.Integer
import ConsoleScript.Prefs.Store
import ConsoleScript.Text.Blank

/-!
# Consoles

A console is one script environment: interned names, variables, namespaces with their packages,
classes and objects, loaded code, and the world that commands reach, which is a tree of files, a
store of preferences and what was printed.

Whatever runs in a console is a `Run`. A fault keeps the state reached so far.
-/

namespace ConsoleScript

/-- A script environment. -/
structure Console where
  names : NameTable := {}
  scopes : Scopes
  spaces : Namespaces := {}
  classes : Classes := {}
  objects : Objects := {}
  blocks : Blocks := {}
  files : FileTree := {}
  prefs : PrefStore := .empty
  /-- What was printed, the newest piece first. -/
  printed : List Text := []
  /-- How many script functions may be active at a time. -/
  maxCallDepth : Nat
  /-- How many script functions are active. -/
  callDepth : Nat := 0
  /-- Has a script asked to end the session? -/
  quit : Bool := false
  /-- The line that is printed for a notification. -/
  announce : Notice → Option Text := fun _ => none

/-- A computation in a console. -/
abbrev Run := EStateM Fault Console

def globalSpace : SpaceId := 0

namespace Console

/-! ## Output -/

def print (c : Console) (t : Text) : Console := { c with printed := t :: c.printed }

def printLine (c : Console) (t : Text) : Console := c.print (t ++ [0x0A])

def output (c : Console) : Text := c.printed.reverse.flatten

def clearOutput (c : Console) : Console := { c with printed := [] }

/-! ## Names and namespaces -/

def intern (c : Console) (t : Text) : Option Name × Console :=
  let (n, names) := c.names.intern t
  (n, { c with names := names })

/-- The namespace of a name and a package, which is created if it is missing. -/
def obtain (c : Console) (name package : Option Name) : SpaceId × Console :=
  let (id, spaces) := c.spaces.obtain name package
  (id, { c with spaces := spaces })

def obtainText (c : Console) (name package : Text) : SpaceId × Console :=
  let (n, c) := c.intern name
  let (p, c) := c.intern package
  c.obtain n p

/-- The namespace of the spelling of a name and of a package, if it exists. -/
def findSpace? (c : Console) (name package : Text) : Option SpaceId :=
  let n := c.names.find? name
  let p := c.names.find? package
  if (!name.isEmpty && n.isNone) || (!package.isEmpty && p.isNone) then none
  else c.spaces.find? n p

/-- The block an entry holds a reference to. -/
def blockOf? : EntryBody → Option BlockId
  | .script b _ _ => some b
  | _ => none

/-- Registers something in a namespace, in place of what the namespace had under that name. -/
def define (c : Console) (space : SpaceId) (name : Option Name) (body : EntryBody)
    (usage : Text := []) (minArgs : Int := 0) (maxArgs : Int := 0) : EntryId × Console :=
  let (e, old, spaces) := c.spaces.define space name body usage minArgs maxArgs
  let blocks := match old.bind blockOf? with
    | some b => c.blocks.release b
    | none => c.blocks
  let blocks := match blockOf? body with
    | some b => blocks.retain b
    | none => blocks
  (e, { c with spaces := spaces, blocks := blocks })

/-- Carries out a line of a list of commands. -/
def register (c : Console) (space : SpaceId) (r : Registration) : EntryId × Console :=
  match r with
  | .group name usage =>
    let (n, c) := c.intern name
    c.define space n .group usage
  | .callback name usage =>
    let (n, c) := c.intern name
    c.define space n .callback usage
  | .command name kind native usage minArgs maxArgs =>
    let (n, c) := c.intern name
    c.define space n (.native kind native) usage minArgs maxArgs

def registerAll (c : Console) (space : SpaceId) (rs : List Registration) : Console :=
  rs.foldl (fun c r => (c.register space r).2) c

/-- Activates a package. -/
def activate (c : Console) (package : Text) : Bool × Console :=
  let (ok, spaces) := c.spaces.activate (c.names.find? package)
  (ok, { c with spaces := spaces })

/-- Deactivates a package. -/
def deactivate (c : Console) (package : Text) : Bool × Console :=
  let (ok, spaces) := c.spaces.deactivate (c.names.find? package)
  (ok, { c with spaces := spaces })

def isPackage (c : Console) (package : Text) : Bool :=
  (c.names.find? package).any c.spaces.isPackage

def isActivePackage (c : Console) (package : Text) : Bool :=
  (c.names.find? package).any c.spaces.isActive

/-! ## Classes and objects -/

/-- Registers a class and links its namespace to that of its parent. -/
def registerClass (c : Console) (cls parent : Text) : SpaceId × Console :=
  let (k, c) := c.intern cls
  let (p, c) := c.intern parent
  let c := { c with classes := c.classes.register k p }
  let (id, c) := c.obtain k none
  match p with
  | none => (id, c)
  | some p =>
    let (parentId, c) := c.obtain (some p) none
    (id, { c with spaces := (c.spaces.link id parentId).2 })

def isClass (c : Console) (cls : Text) : Bool := (c.names.find? cls).any c.classes.contains

def findObject? (c : Console) (ref : Text) : Option ObjectRef :=
  let ref := Text.trim ref
  if ref.isEmpty then none
  else match Integer.natOfText? UInt32.size ref with
    | some id => c.objects.live[id.toUInt32]?
    | none => (c.names.find? ref).bind fun n => c.objects.named[n]?

def idText (c : Console) (r : ObjectRef) : Text := Text.ofNat (c.objects.get r).id.toNat

/-! ## Variables -/

/-- Assigns to a variable; says whether it took the value. Whoever watches it is told. -/
def assign (c : Console) (r : VarRef) (v : Value) : Bool × Console :=
  match c.scopes.assign? c.names r v with
  | none => (false, c)
  | some (notices, scopes) =>
    (true, (notices.filterMap c.announce).foldl printLine { c with scopes := scopes })

/-- The variable with a name in a scope, which is created if it is missing. -/
def addVariable (c : Console) (scope : ScopeId) (n : Name) : VarRef × Console :=
  let (r, scopes) := c.scopes.add scope n
  (r, { c with scopes := scopes })

/-- The global variable with a spelling, which is created if it is missing. -/
def globalVariable (c : Console) (name : Text) : Option VarRef × Console :=
  match c.intern name with
  | (none, c) => (none, c)
  | (some n, c) =>
    let (r, c) := c.addVariable .globals n
    (some r, c)

/-- The global variables that match a pattern as assignments, one a line. -/
def exportGlobals (c : Console) (pattern : Text) : Text :=
  c.scopes.exportMatching c.names .globals pattern

/-- Writes the global variables that match a pattern to a file. -/
def exportToFile (c : Console) (pattern path : Text) (keep : Bool) : Except FileError Console :=
  (c.files.write path (c.exportGlobals pattern) keep).map fun files => { c with files := files }

/-- Saves the global variables that match a pattern; says how many. -/
def saveGlobals {σ : Type} (c : Console) (table : PrefTable σ) (pattern : Text) (s : σ) :
    Except PrefError Nat × σ :=
  let vars := c.scopes.matching c.names .globals pattern
  table.save (vars.map fun (_, v) => (c.names.text v.name, v.value)) s

/-- Assigns the value of a row, except to a constant; says whether it was taken. -/
def loadRow (c : Console) (p : Preference) : Bool × Console :=
  match c.globalVariable p.name with
  | (none, c) => (false, c)
  | (some r, c) => c.assign r p.value

/-- Assigns the values of rows one after the other; says how many were taken. -/
def loadRows (c : Console) : List Preference → Nat × Console
  | [] => (0, c)
  | p :: ps =>
    let (taken, c) := c.loadRow p
    let (n, c) := c.loadRows ps
    (if taken then n + 1 else n, c)

/-- Assigns the saved variables that match a pattern; says how many. -/
def loadGlobals {σ : Type} (c : Console) (table : PrefTable σ) (pattern : Text) (s : σ) :
    Except PrefError Nat × Console :=
  match table.list pattern s with
  | .error e => (.error e, c)
  | .ok rows =>
    let (n, c) := c.loadRows rows
    (.ok n, c)

/-- Saves the global variables that match a pattern in the store of the console. -/
def savePrefs (c : Console) (pattern : Text) : Except PrefError Nat × Console :=
  let (saved, prefs) := c.saveGlobals .memory pattern c.prefs
  (saved, { c with prefs := prefs })

/-- Assigns the variables in the store of the console that match a pattern. -/
def loadPrefs (c : Console) (pattern : Text) : Except PrefError Nat × Console :=
  c.loadGlobals .memory pattern c.prefs

/-! ## Frames -/

/-- The functions that are active, outermost first, with their packages and namespaces. -/
def backtrace (c : Console) : Text :=
  let parts := (List.range c.scopes.depth).filterMap fun i =>
    let frame := c.scopes.get (.frame i)
    frame.name.map fun n =>
      let place := match frame.ns with
        | none => []
        | some ns =>
          let space := c.spaces.space ns
          let package := match space.package with
            | some p => Text.ofString "[" ++ c.names.text p ++ Text.ofString "]"
            | none => []
          let name := match space.name with
            | some n => c.names.text n ++ Text.ofString "::"
            | none => []
          package ++ name
      place ++ c.names.text n
  Text.join "->" parts

/-! ## Making consoles -/

/-- How deep calls may nest unless another limit is asked for. -/
def defaultCallDepth : Nat := 1024

/-- A console with its commands and base classes. A limit or a size that is not positive is
replaced by the usual one. -/
def create (buckets callDepth : Int) (arena : Int := 0) : Console :=
  let c : Console := {
    scopes := Scopes.ofBuckets buckets
    spaces := { arena := Arena.ofSize arena }
    maxCallDepth := if callDepth ≤ 0 then defaultCallDepth else callDepth.toNat }
  let (g, c) := c.obtain none none
  let c := c.registerAll g Registration.globals
  let (object, c) := c.registerClass "SimObject" []
  let (_, c) := c.registerClass "ScriptObject" "SimObject"
  let (_, c) := c.registerClass "SimDataBlock" "SimObject"
  let (set, c) := c.registerClass "SimSet" "SimObject"
  let (_, c) := c.registerClass "SimGroup" "SimSet"
  let (_, c) := c.registerClass "ScriptGroup" "SimGroup"
  (c.registerAll object Registration.objects).registerAll set Registration.sets

end Console

namespace Run

def ofExcept {α : Type} : Except Fault α → Run α
  | .ok a => pure a
  | .error f => throw f

def change {α : Type} (f : Console → α × Console) : Run α := modifyGet f

/-- Changes the console after a computation, whether or not it faults. -/
def ensuring {α : Type} (act : Run α) (after : Console → Console) : Run α := fun c =>
  match act c with
  | .ok a c => .ok a (after c)
  | .error f c => .error f (after c)

/-- The entry a name stands for in a namespace. -/
def lookup (space : SpaceId) (name : Option Name) : Run (Option EntryId) := do
  let (e, spaces) ← ofExcept ((← get).spaces.lookup space name)
  modify fun c => { c with spaces := spaces }
  return e

def lookupText (space : SpaceId) (name : Text) : Run (Option EntryId) := do
  lookup space ((← get).names.find? name)

/-- The entry a name stands for beneath a namespace. -/
def lookupBelow (origin : Option SpaceId) (name : Option Name) : Run (Option EntryId) := do
  let (e, spaces) ← ofExcept ((← get).spaces.lookupBelow origin name)
  modify fun c => { c with spaces := spaces }
  return e

def printLine (t : Text) : Run Unit := modify (·.printLine t)

end Run
end ConsoleScript
