import Std.Data.TreeMap
import ConsoleScript.Text.Case

/-!
# Names

Identifiers are interned without regard to letter case. A name keeps the spelling under which it
was first seen, and names are numbered from one in the order they appear.
-/

namespace ConsoleScript

/-- An interned identifier. -/
structure Name where
  id : Nat
  deriving DecidableEq, Repr, Inhabited

instance : Ord Name := ⟨compareOn Name.id⟩

instance : Std.TransOrd Name := inferInstanceAs (Std.TransCmp (compareOn Name.id))

instance : Std.LawfulEqOrd Name where
  eq_of_compare {n m} h := by
    cases n
    cases m
    exact congrArg Name.mk (Std.compare_eq_iff_eq.mp h)

/-- The number of a name, which is kept in 32 bits. -/
def Name.number (n : Name) : UInt32 := UInt32.ofNat n.id

structure NameTable where
  /-- Spellings by number, where the first one belongs to number one. -/
  spellings : Array Text := #[]
  /-- Names by their spelling in lower case. -/
  byKey : Std.TreeMap Text Name := {}

namespace NameTable

/-- The name with a spelling, if it has been seen. -/
def find? (t : NameTable) (s : Text) : Option Name := t.byKey[Text.lower s]?

/-- The name with a spelling, which is added if it is new. The empty text has no name. -/
def intern (t : NameTable) (s : Text) : Option Name × NameTable :=
  if s.isEmpty then (none, t)
  else
    let key := Text.lower s
    match t.byKey[key]? with
    | some n => (some n, t)
    | none =>
      let n : Name := ⟨t.spellings.size + 1⟩
      (some n, ⟨t.spellings.push s, t.byKey.insert key n⟩)

/-- The spelling of a name. -/
def text (t : NameTable) (n : Name) : Text := (t.spellings[n.id - 1]?).getD []

def text? (t : NameTable) (n : Option Name) : Text :=
  match n with
  | none => []
  | some n => t.text n

/-- How many names there are. -/
def size (t : NameTable) : Nat := t.spellings.size

end NameTable
end ConsoleScript
