import ConsoleScript.Console.Namespace

/-!
# Objects

An object has a number, a class, perhaps a name, and fields that scripts may add at will. Sets hold
other objects as children, in order. A group is a set that owns its children: an object is owned
by at most one group.

Objects are made first and registered later; only then do they have a number and can be found.
-/

namespace ConsoleScript

/-- Refers to an object, whether or not it is registered. -/
abbrev ObjectRef := Nat

structure Field where
  name : Text
  value : Text
  deriving DecidableEq, Repr

/-- The fields of an object by their names in lower case, in byte order of these. -/
abbrev Fields := List (Text × Field)

namespace Fields

/-- The key of a field with an index. -/
def key (name index : Text) : Text := Text.lower (name ++ index)

/-- The value of a field; a missing field is empty. -/
def value (fs : Fields) (name index : Text) : Text :=
  match fs.lookup (key name index) with
  | some f => f.value
  | none => []

def erase (fs : Fields) (k : Text) : Fields := fs.filter fun f => f.1 != k

/-- Puts a field in its place, where it replaces one with the same key. -/
def insert (k : Text) (f : Field) : Fields → Fields
  | [] => [(k, f)]
  | (k', f') :: rest =>
    if k == k' then (k, f) :: rest
    else if Text.le k k' then (k, f) :: (k', f') :: rest
    else (k', f') :: insert k f rest

def set (fs : Fields) (name index value : Text) : Fields :=
  let k := key name index
  if value.isEmpty then erase fs k else insert k ⟨name ++ index, value⟩ fs

end Fields

structure Object where
  id : UInt32 := 0
  cls : Name
  name : Option Name := none
  /-- The namespace its methods are looked up in. -/
  space : Option SpaceId := none
  fields : Fields := []
  children : List ObjectRef := []
  /-- The group that owns it. -/
  group : Option ObjectRef := none
  isSet : Bool := false
  ownsChildren : Bool := false
  datablock : Bool := false
  registered : Bool := false
  /-- The links between namespaces, child and parent, that it asked for. -/
  links : List (SpaceId × SpaceId) := []
  deriving Inhabited

/-- All objects that were made, and the registered ones by number and by name. -/
structure Objects where
  store : Array Object := #[]
  live : Std.TreeMap UInt32 ObjectRef := {}
  named : Std.TreeMap Name ObjectRef := {}
  /-- The number of the next object to be registered. -/
  nextId : UInt32 := 1000

namespace Objects

def get (o : Objects) (r : ObjectRef) : Object := (o.store[r]?).getD { cls := ⟨0⟩ }

def modify (o : Objects) (r : ObjectRef) (f : Object → Object) : Objects :=
  { o with store := o.store.modify r f }

/-- Makes an object, which is not registered yet. -/
def make (o : Objects) (obj : Object) : ObjectRef × Objects :=
  (o.store.size, { o with store := o.store.push obj })

/-- How many objects are registered. -/
def count (o : Objects) : Nat := o.live.size

/-- Gives an object its number and makes it known under its name. -/
def publish (o : Objects) (r : ObjectRef) : Objects :=
  let id := o.nextId
  let o := { o with nextId := id + 1, live := o.live.insert id r }
  let o := match (o.get r).name with
    | some n => { o with named := o.named.insert n r }
    | none => o
  o.modify r fun obj => { obj with id := id, registered := true }

/-- Makes a registered object unknown again. The name goes only if it is still its own. -/
def withdraw (o : Objects) (r : ObjectRef) : Objects :=
  let obj := o.get r
  let o := { o with live := o.live.erase obj.id }
  let o := match obj.name with
    | some n => if o.named[n]? == some r then { o with named := o.named.erase n } else o
    | none => o
  o.modify r fun obj => { obj with registered := false }

/-! ## Sets -/

/-- Takes a child out of a set; says whether it was there. -/
def removeChild (o : Objects) (set child : ObjectRef) : Bool × Objects :=
  if !(o.get set).children.contains child then (false, o)
  else
    let o := o.modify set fun s => { s with children := s.children.erase child }
    (true, if (o.get child).group == some set then
      o.modify child fun c => { c with group := none } else o)

/-- Appends a child to a set; says whether it was added. Only sets take children, none of them
twice and never themselves. A group takes the child away from the group that owned it. -/
def addChild (o : Objects) (set child : ObjectRef) : Bool × Objects :=
  let s := o.get set
  if !s.isSet || child == set || s.children.contains child then (false, o)
  else
    let o := match s.ownsChildren, (o.get child).group with
      | true, some g => (o.removeChild g child).2
      | _, _ => o
    let o := o.modify set fun s => { s with children := s.children ++ [child] }
    (true, if s.ownsChildren then o.modify child fun c => { c with group := some set } else o)

/-- Takes all children out of a set, one after the other. -/
def clearChildren (o : Objects) (set : ObjectRef) : Objects :=
  (o.get set).children.foldl (fun o child => (o.removeChild set child).2) o

/-- The objects that are found under a number. -/
def listed (o : Objects) : List ObjectRef := o.live.toList.map Prod.snd

/-- Takes an object out of all sets that do not own their children. Sets that are not found under
their number are left out: numbers are used again when all have been given away. -/
def removeFromSets (o : Objects) (child : ObjectRef) : Objects :=
  o.listed.foldl (fun o set =>
    let s := o.get set
    if s.isSet && !s.ownsChildren then (o.removeChild set child).2 else o) o

end Objects
end ConsoleScript
