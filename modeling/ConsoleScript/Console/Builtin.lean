import ConsoleScript.Console.Instance

/-!
# What the commands do

The commands that neither run script nor delete objects. Commands of objects get the receiver
apart from the arguments, of which the first is its number; called without a receiver, most of
them fault.
-/

namespace ConsoleScript

/-- The words of a text, between blanks, tabs and line ends. -/
def words (t : Text) : List Text :=
  (t.splitBy fun a b => !isSeparator a && !isSeparator b).filter fun w => !w.any isSeparator
where
  /-- Does the byte stand between words? -/
  isSeparator (b : UInt8) : Bool := b == 0x20 || b == 0x09 || b == 0x0A

namespace Builtin

def arg (argv : List Text) (i : Nat) : Run Text :=
  match argv[i]? with
  | some t => pure t
  | none => throw (.outOfRange i argv.length)

def need (receiver : Option ObjectRef) : Run ObjectRef :=
  match receiver with
  | some r => pure r
  | none => throw .absent

def ofBool (b : Bool) : Value := .int (if b then 1 else 0)

def ofNat (n : Nat) : Value := .int (Int64.ofNat n)

def nothing : Value := .text []

/-- The item of a list at the place an argument names. -/
def itemAt? {α : Type} (items : List α) (index : Text) : Option α :=
  match Integer.ofText? (Text.trim index) with
  | some i => if 0 ≤ i then items[i.toInt.toNat]? else none
  | none => none

def exportTo (argv : List Text) : Run Unit := do
  let pattern ← arg argv 0
  let c ← get
  match argv[1]?.filter (!·.isEmpty) with
  | none => set (c.print (c.exportGlobals pattern))
  | some path =>
    let keep := argv[2]?.any fun t => (Value.text t).toBool
    match c.exportToFile pattern path keep with
    | .ok c => set c
    | .error e => Run.printLine (Text.ofString "export: export variables: " ++ e.message)

def addAll (set : Option ObjectRef) : List Text → Run Unit
  | [] => pure ()
  | ref :: refs => do
    match (← get).findObject? ref with
    | some child =>
      let set ← need set
      modify fun c => { c with objects := (c.objects.addChild set child).2 }
    | none =>
      Run.printLine (Text.ofString "Set::add: Object \"" ++ ref ++ Text.ofString "\" doesn't exist")
    addAll set refs

def removeOne (set : Option ObjectRef) (ref : Text) : Run Bool := do
  match (← get).findObject? ref with
  | none => return false
  | some child =>
    let set ← need set
    Run.change fun c =>
      let (ok, objects) := c.objects.removeChild set child
      (ok, { c with objects := objects })

def removeAll (set : Option ObjectRef) : List Text → Run Unit
  | [] => pure ()
  | ref :: refs => do
    if !(← removeOne set ref) then
      Run.printLine (Text.ofString "Set::remove: Object \"" ++ ref
        ++ Text.ofString "\" does not exist in set")
    removeAll set refs

def childAt (set : Option ObjectRef) (index : Text) : Run Value := do
  let refused : Run Value := do
    Run.printLine "Set::getObject - index out of range."
    return .int (-1)
  match Integer.ofText? (Text.trim index) with
  | none => refused
  | some i =>
    if i < 0 then refused
    else
      let set ← need set
      let c ← get
      match (c.objects.get set).children[i.toInt.toNat]? with
      | some child => return ofNat (c.objects.get child).id.toNat
      | none => refused

def patternOr (usual : Text) (argv : List Text) : Text :=
  match argv with
  | p :: _ => if p.isEmpty then usual else p
  | [] => usual

/-- How many variables a preference command took, or -1 after a complaint. -/
def counted (command : Text) : Except PrefError Nat → Run Value
  | .ok n => return ofNat n
  | .error e => do
    Run.printLine (command ++ Text.ofString ": " ++ e.message)
    return .int (-1)

/-- Runs a command. -/
def run (b : Builtin) (receiver : Option ObjectRef) (argv : List Text) : Run Value := do
  match b with
  | .echo | .warn | .error =>
    Run.printLine argv.flatten
    return nothing
  | .backtrace =>
    Run.printLine (Text.ofString "BackTrace: " ++ (← get).backtrace)
    return nothing
  | .activatePackage =>
    let p ← arg argv 0
    return ofBool (← Run.change (·.activate p))
  | .deactivatePackage =>
    let p ← arg argv 0
    return ofBool (← Run.change (·.deactivate p))
  | .isPackage => return ofBool ((← get).isPackage (← arg argv 0))
  | .isActivePackage => return ofBool ((← get).isActivePackage (← arg argv 0))
  | .isFunction =>
    let e ← Run.lookupText globalSpace (← arg argv 0)
    let c ← get
    return ofBool ((e.bind (c.spaces.entries[·]?)).any fun e =>
      match e.body with
      | .group | .callback => false
      | _ => true)
  | .isObject => return ofBool ((← get).findObject? (← arg argv 0)).isSome
  | .nameToId =>
    let c ← get
    match c.findObject? (← arg argv 0) with
    | some r => return ofNat (c.objects.get r).id.toNat
    | none => return .int (-1)
  | .exportVars =>
    exportTo argv
    return nothing
  | .deleteVariables =>
    let pattern ← arg argv 0
    let n ← Run.change fun c =>
      let (n, scopes) := c.scopes.deleteMatching c.names .globals pattern
      (n, { c with scopes := scopes })
    return ofNat n
  | .strlen => return ofNat (← arg argv 0).length
  | .getWordCount => return ofNat (words (← arg argv 0)).length
  | .getWord =>
    let text ← arg argv 0
    return .text ((itemAt? (words text) (← arg argv 1)).getD [])
  | .getId =>
    let r ← need receiver
    return ofNat ((← get).objects.get r).id.toNat
  | .getName =>
    let r ← need receiver
    let c ← get
    return .text (c.names.text? (c.objects.get r).name)
  | .getClassName =>
    let r ← need receiver
    let c ← get
    return .text (c.names.text (c.objects.get r).cls)
  | .isMemberOfClass =>
    let r ← need receiver
    let cls ← arg argv 1
    let c ← get
    return ofBool (c.classes.derives (c.objects.get r).cls (c.names.find? cls))
  | .getGroup =>
    let r ← need receiver
    let c ← get
    match (c.objects.get r).group with
    | some g => return ofNat (c.objects.get g).id.toNat
    | none => return .int (-1)
  | .getFieldValue =>
    let field ← arg argv 1
    let r ← need receiver
    return .text (((← get).objects.get r).fields.value field [])
  | .setFieldValue =>
    let field ← arg argv 1
    let value ← arg argv 2
    let r ← need receiver
    modify fun c => { c with objects := c.objects.modify r fun o =>
      { o with fields := o.fields.set field [] value } }
    return nothing
  | .getFieldCount =>
    let r ← need receiver
    return ofNat ((← get).objects.get r).fields.length
  | .setAdd =>
    addAll receiver argv.tail
    return nothing
  | .setRemove =>
    removeAll receiver argv.tail
    return nothing
  | .setClear =>
    let r ← need receiver
    modify fun c => { c with objects := c.objects.clearChildren r }
    return nothing
  | .setCount =>
    let r ← need receiver
    return ofNat ((← get).objects.get r).children.length
  | .setObject => childAt receiver (← arg argv 1)
  | .setIsMember =>
    match (← get).findObject? (← arg argv 1) with
    | none => return ofBool false
    | some child =>
      let r ← need receiver
      return ofBool (((← get).objects.get r).children.contains child)
  | .savePrefs pattern => counted "savePrefs" (← Run.change (·.savePrefs (patternOr pattern argv)))
  | .loadPrefs pattern => counted "loadPrefs" (← Run.change (·.loadPrefs (patternOr pattern argv)))
  | .quit =>
    modify fun c => { c with quit := true }
    return nothing

end Builtin
end ConsoleScript
