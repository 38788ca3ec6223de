import ConsoleScript.Code.Compile
import ConsoleScript.Console.Machine

/-!
# Running scripts

Activations, calls and the commands that run script depend on each other without end, so each of
them is given a number of steps, and runs out of them with a fault that nothing recovers from. The
public operations at the end give more steps than any run will take.

A fault inside an activation is reported where it happened and ends that activation, which then
gives the empty text. A fault while a function is being entered belongs to its caller. Whatever
happens, an activation leaves the stack of frames, the count of active functions and the
references to its code as they were.
-/

namespace ConsoleScript

inductive ScriptError where
  | compile (filename : Text) (cause : CompileError)
  | file (path : Text) (cause : FileError)

def ScriptError.message : ScriptError → Text
  | .compile filename cause => Text.ofString "compile: " ++ cause.message filename
  | .file path cause => Text.ofString "exec " ++ path ++ Text.ofString ": " ++ cause.message

namespace Console

/-- Compiles a source and loads it. Warnings are printed. -/
def compile (c : Console) (source filename : Text) : Except ScriptError BlockId × Console :=
  match ConsoleScript.compile source filename with
  | .error e => (.error (.compile filename e), c)
  | .ok u =>
    let c := u.warnings.foldl printLine c
    let (id, blocks) := c.blocks.load u
    (.ok id, { c with blocks := blocks })

/-- Loads a compiled unit. -/
def load (c : Console) (u : CodeUnit) : BlockId × Console :=
  let (id, blocks) := c.blocks.load u
  (id, { c with blocks := blocks })

def retain (c : Console) (b : BlockId) : Console := { c with blocks := c.blocks.retain b }

def release (c : Console) (b : BlockId) : Console := { c with blocks := c.blocks.release b }

def pushFrame (c : Console) (name : Option Name) (ns : Option SpaceId) : ScopeId × Console :=
  let (id, scopes) := c.scopes.push name ns
  (id, { c with scopes := scopes })

/-- Pushes a frame that shares the variables of the frame at a stack position, if it is live. -/
def pushShared (c : Console) (i : Int) : ScopeId × Console :=
  let (id, scopes) := c.scopes.pushShared i
  (id, { c with scopes := scopes })

def popFrame (c : Console) : Console := { c with scopes := c.scopes.pop }

end Console

namespace Run

/-- Reports a fault at a place in the code. Running out of steps goes through. -/
def attempt {α : Type} (u : CodeUnit) (ip : UInt32) (act : Run α) : Run (Option α) := fun c =>
  match act c with
  | .ok a c => .ok (some a) c
  | .error .exhausted c => .error .exhausted c
  | .error f c => .ok none (c.printLine (u.place ip ++ Text.ofString ": runtime fault: " ++ f.message))

/-- Binds parameters to arguments. `count` parameters are named from position `ip` on; those
without an argument are empty. -/
def bindParams (u : CodeUnit) (scope : ScopeId) : Nat → UInt32 → List Text → Run Unit
  | 0, _, _ => pure ()
  | count + 1, ip, argv => do
    let n ← u.ident (← ofExcept (u.word ip))
    match n, argv with
    | none, [] => pure ()
    | none, _ :: _ => throw .absent
    | some n, [] => let _ ← change (·.addVariable scope n)
    | some n, t :: _ =>
      let r ← change (·.addVariable scope n)
      modify fun c => (c.assign r (.text t)).2
    bindParams u scope count (ip + 1) argv.tail

/-- Is the number of arguments within the bounds of an entry? -/
def arityFits (e : Entry) (argv : List Text) : Bool :=
  !((e.minArgs > 0 && argv.length < e.minArgs) || (e.maxArgs > 0 && argv.length > e.maxArgs))

mutual

/-- Runs an activation to its end. -/
def loop : Nat → CodeUnit → BlockId → Machine → Run Text
  | 0, _, _, _ => throw .exhausted
  | fuel + 1, u, block, m => do
    let after : Option (Machine ⊕ Text) ← attempt u m.ip do
      match ← m.step u block with
      | .next m => return .inl m
      | .done t => return .inr t
      | .call m call => return .inl (m.setText (← callEntry fuel call))
      | .register m r root =>
        registerObject fuel r
        return .inl (← m.placeObject r root)
    match after with
    | none => return []
    | some (.inr t) => return t
    | some (.inl m) => loop fuel u block m

/-- Runs the function of an entry, whose declaration is at `ip`. -/
def runFunction : Nat → BlockId → UInt32 → Entry → List Text → Run Text
  | 0, _, _, _, _ => throw .exhausted
  | fuel + 1, block, ip, e, argv => do
    let u := (← get).blocks.unit block
    let count ← ofExcept (u.word (ip + 6))
    let flags ← ofExcept (u.word (ip + 4))
    let scope ← change (·.pushFrame e.name (some e.space))
    ensuring (do
      bindParams u scope count.toNat (ip + 7) argv
      if flags &&& 1 == 0 then return []
      loop fuel u block { ip := ip + 7 + count, scope := scope }) Console.popFrame

/-- Runs the top level of a block, with the variables of the frame at `shared` if that is live. -/
def runBlock : Nat → BlockId → Int → Run Text
  | 0, _, _ => throw .exhausted
  | fuel + 1, block, shared => do
    let u := (← get).blocks.unit block
    let scope ← change fun c => if 0 ≤ shared then c.pushShared shared else c.pushFrame none none
    ensuring (loop fuel u block { ip := 0, scope := scope }) Console.popFrame

/-- Makes a call, if the number of arguments is right. -/
def callEntry : Nat → Call → Run Text
  | 0, _ => throw .exhausted
  | fuel + 1, ⟨id, receiver, argv⟩ => do
    let c ← get
    match c.spaces.entries[id]? with
    | none => return []
    | some e =>
      if !arityFits e argv then
        printLine (c.spaces.qualifiedName c.names e ++ Text.ofString ": wrong number of arguments.")
        printLine (Text.ofString "usage: " ++ e.usage)
        return []
      match e.body with
      | .group | .callback => return []
      | .script block offset _ =>
        if c.maxCallDepth ≤ c.callDepth then
          printLine (c.spaces.qualifiedName c.names e ++ Text.ofString ": call depth limit of "
            ++ Text.ofNat c.maxCallDepth ++ Text.ofString " exceeded.")
          return []
        modify fun c => { c.retain block with callDepth := c.callDepth + 1 }
        ensuring (runFunction fuel block offset e argv) fun c =>
          { c.release block with callDepth := c.callDepth - 1 }
      | .native _ native => return (← callNative fuel native receiver argv).toText

def callNative : Nat → Native → Option ObjectRef → List Text → Run Value
  | 0, _, _, _ => throw .exhausted
  | fuel + 1, native, receiver, argv => do
    match native with
    | .builtin b => b.run receiver argv
    | .execFile =>
      match ← execFile fuel (← Builtin.arg argv 0) with
      | .ok _ => return Builtin.ofBool true
      | .error e =>
        printLine (Text.ofString "exec: " ++ e.message)
        return Builtin.ofBool false
    | .evalText =>
      match ← evalLocal fuel (← Builtin.arg argv 0) "eval" with
      | .ok t => return .text t
      | .error e =>
        printLine (Text.ofString "eval: " ++ e.message)
        return Builtin.nothing
    | .deleteObject =>
      match receiver with
      | some r => deleteObject fuel r
      | none => pure ()
      return Builtin.nothing
    | .host f =>
      let c ← get
      let reply := f (receiver.map fun r => (c.objects.get r).id) argv
      match reply.printed with
      | some t => printLine t
      | none => pure ()
      return reply.result

/-- Calls a method with the number of the object in front of the arguments. Nothing happens when
there is no such method. -/
def callMethod : Nat → ObjectRef → Text → List Text → Run (Option Text)
  | 0, _, _, _ => throw .exhausted
  | fuel + 1, r, name, args => do
    match ((← get).objects.get r).space with
    | none => return none
    | some space =>
      match ← lookupText space name with
      | none => return none
      | some e => return some (← callEntry fuel ⟨e, some r, (← get).idText r :: args⟩)

def registerObject : Nat → ObjectRef → Run Unit
  | 0, _ => throw .exhausted
  | fuel + 1, r => do
    modify (·.publish r)
    let _ ← callMethod fuel r "onAdd" []

/-- Deletes an object. It is told first; then the children it owns are deleted, the last one
first, and then the object itself. -/
def deleteObject : Nat → ObjectRef → Run Unit
  | 0, _ => throw .exhausted
  | fuel + 1, r => do
    if !((← get).objects.get r).registered then return
    let _ ← callMethod fuel r "onRemove" []
    let children := ((← get).objects.get r).children
    modify fun c => { c with objects := c.objects.modify r fun o => { o with children := [] } }
    children.reverse.forM fun child => do
      if ((← get).objects.get child).group == some r then
        modify fun c => { c with objects := c.objects.modify child fun o => { o with group := none } }
        deleteObject fuel child
    modify (·.withdraw r)

/-- Runs a loaded block from its start. -/
def execBlock : Nat → BlockId → Run Text
  | 0, _ => throw .exhausted
  | fuel + 1, block => do
    modify (·.retain block)
    ensuring (runBlock fuel block (-1)) (·.release block)

/-- Compiles and runs a source. -/
def eval : Nat → Text → Text → Run (Except ScriptError Text)
  | 0, _, _ => throw .exhausted
  | fuel + 1, source, filename => do
    match ← change (·.compile source filename) with
    | .error e => return .error e
    | .ok block => return .ok (← execBlock fuel block)

/-- Compiles and runs a source with the variables of the innermost frame. -/
def evalLocal : Nat → Text → Text → Run (Except ScriptError Text)
  | 0, _, _ => throw .exhausted
  | fuel + 1, source, filename => do
    match ← change (·.compile source filename) with
    | .error e => return .error e
    | .ok block =>
      modify (·.retain block)
      let depth := (← get).scopes.depth
      return .ok (← ensuring (runBlock fuel block ((depth : Int) - 1)) (·.release block))

def execFile : Nat → Text → Run (Except ScriptError Text)
  | 0, _ => throw .exhausted
  | fuel + 1, path => do
    match (← get).files.read path with
    | .error e => return .error (.file path e)
    | .ok source => eval fuel source path

end

def newObject (fuel : Nat) (cls name : Text) : Run (Except ObjectError ObjectRef) := do
  match ← change (·.instantiate cls name [] false []) with
  | .error e => return .error e
  | .ok r =>
    registerObject fuel r
    return .ok r

def callFunction (fuel : Nat) (name : Text) (args : List Text) : Run (Option Text) := do
  match ← lookupText globalSpace name with
  | none => return none
  | some e => return some (← callEntry fuel ⟨e, none, args⟩)

/-- A number of steps that no run takes. -/
def plenty : Nat := 1000000000000000

end Run
end ConsoleScript
