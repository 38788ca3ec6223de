import ConsoleScript.Console.Builtin
import ConsoleScript.Number.Binary

/-!
# The machine

One activation of a piece of code. The machine has a stack of integers, one of numbers and one of
texts, whose top is the current text; frames of arguments for calls that are being prepared; the
objects that are being declared; and registers for the current variable, object and field.

`Machine.step` carries out one instruction. What it cannot do by itself, to call something and to
register an object, it hands to whoever drives it.
-/

namespace ConsoleScript

/-- The state of an activation. -/
structure Machine where
  /-- The position of the next word. -/
  ip : UInt32
  /-- The scope of local variables. -/
  scope : ScopeId
  ints : List Int64 := []
  floats : List Float := []
  /-- The current text. -/
  text : Text := []
  /-- The texts below the current one. -/
  parked : List Text := []
  /-- The arguments of calls that are being prepared, the innermost call first. -/
  args : List (List Text) := []
  /-- The objects that are being declared, the innermost first. -/
  objects : List ObjectRef := []
  var : Option VarRef := none
  object : Option ObjectRef := none
  field : Text := []
  fieldIndex : Text := []

structure Call where
  entry : EntryId
  receiver : Option ObjectRef
  argv : List Text

inductive Progress where
  | next (m : Machine)
  /-- The activation is over. -/
  | done (result : Text)
  /-- A call is due; its result becomes the current text. -/
  | call (m : Machine) (call : Call)
  /-- An object is due to be registered, and then to be put where it belongs. -/
  | register (m : Machine) (object : ObjectRef) (root : Bool)

namespace Machine

/-! ## Stacks -/

def pushInt (m : Machine) (i : Int64) : Machine := { m with ints := i :: m.ints }

/-- Pops an integer; an empty stack gives zero. -/
def popInt (m : Machine) : Int64 × Machine :=
  match m.ints with
  | [] => (0, m)
  | i :: is => (i, { m with ints := is })

/-- The integer on top; zero when there is none. -/
def topInt (m : Machine) : Int64 := m.ints.headD 0

def pushFloat (m : Machine) (f : Float) : Machine := { m with floats := f :: m.floats }

/-- Pops a number; an empty stack gives zero. -/
def popFloat (m : Machine) : Float × Machine :=
  match m.floats with
  | [] => (0.0, m)
  | f :: fs => (f, { m with floats := fs })

/-- The number on top; zero when there is none. -/
def topFloat (m : Machine) : Float := m.floats.headD 0.0

def setText (m : Machine) (t : Text) : Machine := { m with text := t }

/-- Starts a new text on top of the current one. -/
def advance (m : Machine) : Machine := { m with text := [], parked := m.text :: m.parked }

/-- Drops the current text and gives it. The last text is emptied instead. -/
def rewind (m : Machine) : Text × Machine :=
  match m.parked with
  | [] => (m.text, { m with text := [] })
  | t :: ts => (m.text, { m with text := t, parked := ts })

def popArgs (m : Machine) : List Text × Machine :=
  match m.args with
  | [] => ([], m)
  | a :: as => (a, { m with args := as })

/-- Appends the current text to the arguments of the innermost call. -/
def pushArg (m : Machine) : Machine :=
  match m.args with
  | [] => { m with args := [[m.text]] }
  | a :: as => { m with args := (a ++ [m.text]) :: as }

/-- Continues somewhere else. -/
def goto (m : Machine) (ip : UInt32) : Machine := { m with ip := ip }

/-- Goes on behind `n` words. -/
def skip (m : Machine) (n : UInt32) : Machine := { m with ip := m.ip + n }

/-- Combines the two integers on top; the first operand is the top one. -/
def combineInts (m : Machine) (f : Int64 → Int64 → Int64) : Machine :=
  let (a, m) := m.popInt
  let (b, m) := m.popInt
  m.pushInt (f a b)

/-- Combines the two numbers on top; the first operand is the top one. -/
def combineFloats (m : Machine) (f : Float → Float → Float) : Machine :=
  let (a, m) := m.popFloat
  let (b, m) := m.popFloat
  m.pushFloat (f a b)

def ofBool (b : Bool) : Int64 := if b then 1 else 0

/-- Compares the two numbers on top; the first operand is the top one. -/
def compareFloats (m : Machine) (f : Float → Float → Bool) : Machine :=
  let (a, m) := m.popFloat
  let (b, m) := m.popFloat
  m.pushInt (ofBool (f a b))

/-- The remainder with the sign of the dividend; by zero it is zero. -/
def remainder (a b : Int64) : Int64 := if b == 0 then 0 else a % b

/-- Shifts to the right, keeping the sign. Only the low six bits of the distance count. -/
def shiftRight (a b : Int64) : Int64 := a >>> (b &&& 63)

/-- Shifts to the left. Only the low six bits of the distance count. -/
def shiftLeft (a b : Int64) : Int64 := a <<< (b &&& 63)

/-- The character with a code; codes without a character give the replacement character. -/
def charOf (w : UInt32) : Text :=
  Text.ofChar (if w.toNat.isValidChar then Char.ofNat w.toNat else Text.replacement)

/-! ## Registers -/

def isGlobal (names : NameTable) (n : Name) : Bool := (names.text n).head? == some 0x24

def scopeOf (m : Machine) (names : NameTable) (n : Name) : ScopeId :=
  if isGlobal names n then .globals else m.scope

/-- Makes the variable with a name current, if it exists. -/
def findVar (m : Machine) (n : Option Name) : Run Machine := do
  let c ← get
  return { m with var := n.bind fun name => c.scopes.find? (m.scopeOf c.names name) n }

/-- Makes the variable with a name current, which is created if it is missing. -/
def createVar (m : Machine) (n : Option Name) : Run Machine := do
  match n with
  | none => return { m with var := none }
  | some name =>
    let r ← Run.change fun c => c.addVariable (m.scopeOf c.names name) name
    return { m with var := some r }

def varValue (m : Machine) : Run Value := do
  let c ← get
  return match m.var.bind c.scopes.var? with
    | some v => v.value
    | none => .text []

def saveVar (m : Machine) (v : Value) : Run Unit := do
  match m.var with
  | some r => modify fun c => (c.assign r v).2
  | none => return ()

def fieldValue (m : Machine) : Run Text := do
  let c ← get
  return match m.object with
    | some r => (c.objects.get r).fields.value m.field m.fieldIndex
    | none => []

def saveField (m : Machine) (v : Text) : Run Unit := do
  match m.object with
  | some r => modify fun c => { c with objects := c.objects.modify r fun o =>
      { o with fields := o.fields.set m.field m.fieldIndex v } }
  | none => return ()

end Machine

namespace CodeUnit

/-- A place in the code, for messages. -/
def place (u : CodeUnit) (ip : UInt32) : Text :=
  u.name ++ Text.ofString " (" ++ Text.ofNat (u.lineAt ip).toNat ++ Text.ofString ")"

def ident (u : CodeUnit) (operand : UInt32) : Run (Option Name) := do
  if operand == noIdent then return none
  let t ← Run.ofExcept (u.textAt operand)
  Run.change (·.intern t)

end CodeUnit

namespace Machine

/-! ## Calls -/

/-- Finds out what a call calls. Calls that lead nowhere are reported. `ip` is the position of the
call, and `kind` says whether it is a function, a method or the overridden function. -/
def dispatch (u : CodeUnit) (m : Machine) (ip : UInt32) (name ns : Option Name) (kind : UInt32)
    (argv : List Text) : Run (Option Call) := do
  let ready (e : Option EntryId) (receiver : Option ObjectRef) (argv : List Text) :
      Run (Option Call) := do
    match e with
    | some e => return some ⟨e, receiver, argv⟩
    | none =>
      let names := (← get).names
      let space := match ns with
        | some ns => if kind == 0 then names.text ns ++ Text.ofString "::" else []
        | none => []
      Run.printLine (u.place ip ++ Text.ofString ": Unknown command " ++ space ++ names.text? name
        ++ Text.ofString ".")
      return none
  match kind with
  | 1 =>
    match argv with
    | [] => return none
    | ref :: rest =>
      let c ← get
      match c.findObject? ref with
      | none =>
        Run.printLine (u.place ip ++ Text.ofString ": Unable to find object: '" ++ ref
          ++ Text.ofString "' attempting to call function '" ++ c.names.text? name
          ++ Text.ofString "'")
        return none
      | some r =>
        match (c.objects.get r).space with
        | none => throw .absent
        | some space => ready (← Run.lookup space name) (some r) (c.idText r :: rest)
  | 2 =>
    let c ← get
    let e ← Run.lookupBelow (c.scopes.get m.scope).ns name
    ready e (argv.head?.bind c.findObject?) argv
  | _ =>
    let space ← match ns with
      | none => pure globalSpace
      | some _ => Run.change (·.obtain ns none)
    ready (← Run.lookup space name) none argv

/-! ## Instructions -/

/-- Jumps to the target in the next word, or goes on behind it. -/
def branch (u : CodeUnit) (m : Machine) (taken : Bool) : Run Machine := do
  if taken then return m.goto (← Run.ofExcept (u.word m.ip)) else return m.skip 1

/-- Declares the function whose declaration starts at `ip`. -/
def declare (u : CodeUnit) (block : BlockId) (ip : UInt32) : Run UInt32 := do
  let word (i : UInt32) : Run UInt32 := Run.ofExcept (u.word (ip + i))
  let name ← u.ident (← word 1)
  let ns ← u.ident (← word 2)
  let package ← u.ident (← word 3)
  let space ← Run.change (·.obtain ns package)
  let line := (← word 4) >>> 1
  let _ ← Run.change (·.define space name (.script block ip line))
  word 5

/-- Makes the object whose declaration starts at `ip`. -/
def declareObject (u : CodeUnit) (m : Machine) (ip : UInt32) : Run Machine := do
  let source ← Run.ofExcept (do u.textAt (← u.word m.ip))
  let datablock ← Run.ofExcept (u.word (m.ip + 1))
  let fail ← Run.ofExcept (u.word (m.ip + 2))
  let (argv, m) := (m.skip 3).popArgs
  let made ← Run.change fun c => c.instantiate (argv.headD []) (argv.tail.headD []) source
    (datablock != 0) (argv.drop 2)
  match made with
  | .ok r => return { m with objects := r :: m.objects }
  | .error e =>
    Run.printLine (u.place ip ++ Text.ofString ": " ++ e.message)
    return m.goto fail

/-- Puts a registered object where it belongs: the outermost one replaces the integer on top, and
any other one goes into the set whose number is on top and is pushed itself. -/
def placeObject (m : Machine) (r : ObjectRef) (root : Bool) : Run Machine := do
  let c ← get
  let id := Int64.ofNat (c.objects.get r).id.toNat
  if root then return { m with ints := id :: m.ints.tail }
  match c.objects.live[Number.lowWord m.topInt]? with
  | some group =>
    if (c.objects.get group).isSet then
      set { c with objects := (c.objects.addChild group r).2 }
    return m.pushInt id
  | none => return m.pushInt id

/-- Carries out an instruction. `ip` is its position, and the machine stands behind its opcode. -/
def execute (u : CodeUnit) (block : BlockId) (op : Opcode) (ip : UInt32) (m : Machine) :
    Run Progress := do
  let operand : Run UInt32 := Run.ofExcept (u.word m.ip)
  match op with
  | .funcDecl => return .next (m.goto (← declare u block ip))
  | .createObject => return .next (← declareObject u m ip)
  | .addObject =>
    let root := (← operand) != 0
    let m := m.skip 1
    match m.objects with
    | [] => return .next m
    | r :: _ =>
      if ((← get).objects.get r).registered then return .next (← m.placeObject r root)
      else return .register m r root
  | .endObject =>
    let keep := (← operand) != 0
    let m := if keep then m else m.popInt.2
    return .next { m.skip 1 with objects := m.objects.tail }
  | .finishObject => return .next m
  | .jumpUnlessFloat =>
    let (f, m) := m.popFloat
    return .next (← branch u m (f == 0.0))
  | .jumpUnless =>
    let (i, m) := m.popInt
    return .next (← branch u m (i == 0))
  | .jumpIfFloat =>
    let (f, m) := m.popFloat
    return .next (← branch u m (f != 0.0))
  | .jumpIf =>
    let (i, m) := m.popInt
    return .next (← branch u m (i != 0))
  | .jumpUnlessKeep =>
    if m.topInt == 0 then return .next (← branch u m true)
    else return .next (← branch u m.popInt.2 false)
  | .jumpIfKeep =>
    if m.topInt != 0 then return .next (← branch u m true)
    else return .next (← branch u m.popInt.2 false)
  | .jump => return .next (← branch u m true)
  | .ret => return .done m.text
  | .retVoid => return .done []
  | .cmpEq => return .next (m.compareFloats fun a b => a == b)
  | .cmpGt => return .next (m.compareFloats fun a b => a > b)
  | .cmpGe => return .next (m.compareFloats fun a b => a ≥ b)
  | .cmpLt => return .next (m.compareFloats fun a b => a < b)
  | .cmpLe => return .next (m.compareFloats fun a b => a ≤ b)
  | .cmpNe => return .next (m.compareFloats fun a b => a != b)
  | .xor => return .next (m.combineInts (· ^^^ ·))
  | .mod => return .next (m.combineInts remainder)
  | .bitAnd => return .next (m.combineInts (· &&& ·))
  | .bitOr => return .next (m.combineInts (· ||| ·))
  | .shr => return .next (m.combineInts shiftRight)
  | .shl => return .next (m.combineInts shiftLeft)
  | .not =>
    let (i, m) := m.popInt
    return .next (m.pushInt (ofBool (i == 0)))
  | .notFloat =>
    let (f, m) := m.popFloat
    return .next (m.pushInt (ofBool (f == 0.0)))
  | .complement =>
    let (i, m) := m.popInt
    return .next (m.pushInt (~~~ i))
  | .add => return .next (m.combineFloats (· + ·))
  | .sub => return .next (m.combineFloats (· - ·))
  | .mul => return .next (m.combineFloats (· * ·))
  | .div => return .next (m.combineFloats (· / ·))
  | .neg =>
    let (f, m) := m.popFloat
    return .next (m.pushFloat (-f))
  | .setVar =>
    let n ← u.ident (← operand)
    return .next (← (m.skip 1).findVar n)
  | .setVarCreate =>
    let n ← u.ident (← operand)
    return .next (← (m.skip 1).createVar n)
  | .setVarArray => return .next (← m.findVar ((← get).names.find? m.text))
  | .setVarArrayCreate =>
    let n ← Run.change (·.intern m.text)
    return .next (← m.createVar n)
  | .loadVarInt => return .next (m.pushInt (← m.varValue).toInt)
  | .loadVarFloat => return .next (m.pushFloat (← m.varValue).toFloat)
  | .loadVarText => return .next (m.setText (← m.varValue).toText)
  | .saveVarInt =>
    m.saveVar (.int m.topInt)
    return .next m
  | .saveVarFloat =>
    m.saveVar (.float m.topFloat)
    return .next m
  | .saveVarText =>
    m.saveVar (.text m.text)
    return .next m
  | .setObject => return .next { m with object := (← get).findObject? m.text }
  | .setObjectNew => return .next { m with object := m.objects.head? }
  | .setField =>
    let t ← Run.ofExcept (u.textAt (← operand))
    return .next { m.skip 1 with field := t, fieldIndex := [] }
  | .setFieldArray => return .next { m with fieldIndex := m.text }
  | .loadFieldInt =>
    return .next (m.pushInt (Number.toInt64 (Value.numberOfText (← m.fieldValue))))
  | .loadFieldFloat => return .next (m.pushFloat (Value.numberOfText (← m.fieldValue)))
  | .loadFieldText => return .next (m.setText (← m.fieldValue))
  | .saveFieldInt =>
    m.saveField (Value.textOfInt m.topInt)
    return .next m
  | .saveFieldFloat =>
    m.saveField (Number.toText m.topFloat)
    return .next m
  | .saveFieldText =>
    m.saveField m.text
    return .next m
  | .textToInt => return .next (m.pushInt (Number.toInt64 (Value.numberOfText m.text)))
  | .textToFloat => return .next (m.pushFloat (Value.numberOfText m.text))
  | .textToNone => return .next m
  | .floatToInt =>
    let (f, m) := m.popFloat
    return .next (m.pushInt (Number.toInt64 f))
  | .floatToText =>
    let (f, m) := m.popFloat
    return .next (m.setText (Number.toText f))
  | .floatToNone => return .next m.popFloat.2
  | .intToFloat =>
    let (i, m) := m.popInt
    return .next (m.pushFloat (Number.ofInt64 i))
  | .intToText =>
    let (i, m) := m.popInt
    return .next (m.setText (Value.textOfInt i))
  | .intToNone => return .next m.popInt.2
  | .loadInt => return .next ((m.skip 1).pushInt (Number.signExtend (← operand)))
  | .loadFloat =>
    let f ← Run.ofExcept (u.floatAt (← operand))
    return .next ((m.skip 1).pushFloat f)
  | .loadText | .loadIdent =>
    let t ← Run.ofExcept (u.textAt (← operand))
    return .next ((m.skip 1).setText t)
  | .callFunc =>
    let name ← u.ident (← operand)
    let ns ← u.ident (← Run.ofExcept (u.word (m.ip + 1)))
    let kind ← Run.ofExcept (u.word (m.ip + 2))
    let (argv, m) := (m.skip 3).popArgs
    match ← dispatch u m ip name ns kind argv with
    | some call => return .call m call
    | none => return .next (m.setText [])
  | .advance | .advanceNul => return .next m.advance
  | .advanceChar =>
    let c ← operand
    return .next ((m.skip 1).setText (m.text ++ charOf c)).advance
  | .advanceComma => return .next (m.setText (m.text ++ [0x5F])).advance
  | .rewind =>
    let (t, m) := m.rewind
    return .next (m.setText (m.text ++ t))
  | .terminateRewind => return .next m.rewind.2
  | .compareText =>
    let (t, m) := m.rewind
    return .next (m.pushInt (ofBool (Text.equalFold m.text t)))
  | .push => return .next m.pushArg
  | .pushFrame => return .next { m with args := [] :: m.args }

/-- Carries out one instruction. A word that is no opcode is reported and ends the activation. -/
def step (u : CodeUnit) (block : BlockId) (m : Machine) : Run Progress := do
  let w ← Run.ofExcept (u.word m.ip)
  match Opcode.ofWord? w with
  | some op => execute u block op m.ip (m.skip 1)
  | none =>
    Run.printLine (u.place m.ip ++ Text.ofString ": invalid opcode " ++ Text.ofNat w.toNat
      ++ Text.ofString " at ip " ++ Text.ofNat m.ip.toNat)
    return .done []

end Machine
end ConsoleScript
