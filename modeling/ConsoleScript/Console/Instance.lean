import ConsoleScript.Console.State

/-!
# Making objects

A declaration makes an object of a registered class, perhaps with the fields of another object.
When the object is registered its namespace is chosen: that of its class, below it those that the
fields `superClass` and `class` name, and below these the one of its own name, as far as they can
be linked.
-/

namespace ConsoleScript

inductive ObjectError where
  | unknownClass (cls : Text)
  /-- Objects take no arguments. -/
  | arguments (name cls : Text)
  /-- The object to copy fields from is missing. -/
  | noSource (name : Text)
  deriving DecidableEq, Repr

def ObjectError.message : ObjectError → Text
  | .unknownClass cls => Text.ofString "unable to instantiate non-conobject class " ++ cls
  | .arguments name cls =>
    Text.ofString "object " ++ name ++ Text.ofString "(" ++ cls
      ++ Text.ofString ") failed to process arguments"
  | .noSource name => Text.ofString "unable to find parent object " ++ name

namespace Console

def datablock? (c : Console) (name : Text) (cls : Name) : Option ObjectRef :=
  (c.findObject? name).bind fun r =>
    let obj := c.objects.get r
    if obj.datablock && obj.cls == cls then some r else none

/-- Makes an object of a class and a name, with the fields of `source` if that is not empty. A
datablock that is declared again is the one there is. -/
def instantiate (c : Console) (cls name source : Text) (datablock : Bool) (args : List Text) :
    Except ObjectError ObjectRef × Console :=
  match (c.names.find? cls).filter c.classes.contains with
  | none => (.error (.unknownClass cls), c)
  | some k =>
    if !args.isEmpty then (.error (.arguments name cls), c)
    else match if datablock && !name.isEmpty then c.datablock? name k else none with
      | some r => (.ok r, c)
      | none =>
        let (n, c) := c.intern name
        let (set, c) := c.intern "SimSet"
        let (group, c) := c.intern "SimGroup"
        let obj : Object := {
          cls := k, name := n, datablock := datablock
          isSet := c.classes.derives k set, ownsChildren := c.classes.derives k group }
        let make (obj : Object) : Except ObjectError ObjectRef × Console :=
          let (r, objects) := c.objects.make obj
          (.ok r, { c with objects := objects })
        if source.isEmpty then make obj
        else match c.findObject? source with
          | none => (.error (.noSource source), c)
          | some r => make { obj with fields := (c.objects.get r).fields }

/-- Links the namespaces of the given names below one another, starting at `cur`, until one cannot
be linked. Gives the last one and the links. -/
def linkChain (c : Console) (cur : SpaceId) :
    List Text → (SpaceId × List (SpaceId × SpaceId)) × Console
  | [] => ((cur, []), c)
  | t :: ts =>
    if t.isEmpty then c.linkChain cur ts
    else
      let (n, c) := c.intern t
      let (id, c) := c.obtain n none
      if id == cur then c.linkChain cur ts
      else match c.spaces.link id cur with
        | (false, _) => ((cur, []), c)
        | (true, spaces) =>
          let ((last, links), c) := { c with spaces := spaces }.linkChain id ts
          ((last, (id, cur) :: links), c)

def linkSpaces (c : Console) (r : ObjectRef) : Console :=
  let obj := c.objects.get r
  let (cur, c) := c.obtain (some obj.cls) none
  let ((last, links), c) := c.linkChain cur
    [obj.fields.value "superClass" [], obj.fields.value "class" [], c.names.text? obj.name]
  { c with objects := c.objects.modify r fun o =>
    { o with space := some last, links := o.links ++ links } }

/-- Gives an object a number, makes it known and chooses its namespace. -/
def publish (c : Console) (r : ObjectRef) : Console :=
  { c with objects := c.objects.publish r }.linkSpaces r

/-- Takes back the links between namespaces that an object asked for, newest first. -/
def unlinkSpaces (c : Console) (r : ObjectRef) : Console :=
  let spaces := (c.objects.get r).links.reverse.foldl
    (fun s (child, parent) => (s.unlink child parent).2) c.spaces
  { c with
    spaces := spaces
    objects := c.objects.modify r fun o => { o with links := [] } }

/-- Takes an object out of the group that owns it and out of all sets, takes its links back and
makes it unknown. -/
def withdraw (c : Console) (r : ObjectRef) : Console :=
  let objects := match (c.objects.get r).group with
    | some g => (c.objects.removeChild g r).2
    | none => c.objects
  let c := { c with objects := objects.removeFromSets r }.unlinkSpaces r
  { c with objects := c.objects.withdraw r }

end Console
end ConsoleScript
