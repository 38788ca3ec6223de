import ConsoleScript.Console.Name

/-!
# Classes

Objects are made of registered classes. A class names at most one parent; nothing says that the
parent is registered too, or that the chain of parents ends.
-/

namespace ConsoleScript

/-- The registered classes, each with its parent. -/
structure Classes where
  rows : List (Option Name × Option Name) := []
  deriving Repr, Inhabited

namespace Classes

/-- The parent of a class. -/
def parent? (c : Classes) (cls : Name) : Option Name := (c.rows.lookup (some cls)).join

def contains (c : Classes) (cls : Name) : Bool := (c.rows.lookup (some cls)).isSome

/-- Registers a class with its parent, in place of the parent it had. -/
def register (c : Classes) (cls parent : Option Name) : Classes :=
  if (c.rows.lookup cls).isSome then
    ⟨c.rows.map fun (k, p) => if k == cls then (k, parent) else (k, p)⟩
  else ⟨c.rows ++ [(cls, parent)]⟩

/-- Is `ancestor` the class itself or among its first `fuel` ancestors? -/
def derivesWithin (c : Classes) (ancestor : Option Name) : Nat → Option Name → Bool
  | _, none => false
  | 0, some cls => some cls == ancestor
  | fuel + 1, some cls => some cls == ancestor || c.derivesWithin ancestor fuel (c.parent? cls)

/-- Is a class the given one or does it inherit from it? A chain of parents that does not come
back to where it was is no longer than the list of classes; it ends where there is no name, whatever
was registered without one. -/
def derives (c : Classes) (cls : Option Name) (ancestor : Option Name) : Bool :=
  c.derivesWithin ancestor c.rows.length cls

/-- The names of the registered classes in byte order. -/
def texts (c : Classes) (names : NameTable) : List Text :=
  Text.sort (c.rows.map fun (k, _) => names.text? k)

end Classes
end ConsoleScript
