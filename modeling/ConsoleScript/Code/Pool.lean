import ConsoleScript.Number.Notation
import ConsoleScript.Text.Basic

/-!
# Literal pools

Code refers to texts and numbers by their index in a pool. A pool only grows, and equal items
share one index. Numbers are equal when their bits are, so zero and minus zero stay apart.
-/

namespace ConsoleScript

/-- A pool of distinct items in the order they were first added. -/
structure Pool (α : Type) where
  items : Array α := #[]
  deriving Repr

namespace Pool

variable {α : Type} [BEq α]

/-- The index of an item. -/
def find? (p : Pool α) (a : α) : Option Nat := p.items.findIdx? (· == a)

def insert (p : Pool α) (a : α) : Pool α :=
  if (p.find? a).isSome then p else ⟨p.items.push a⟩

/-- The index of an item in a pool that holds it. -/
def index (p : Pool α) (a : α) : Nat := (p.find? a).getD p.items.size

/-- Adds an item and gives its index. -/
def add (p : Pool α) (a : α) : Nat × Pool α :=
  let q := p.insert a
  (q.index a, q)

end Pool

/-- The literals of one unit: texts, and the bits of numbers. -/
structure Literals where
  texts : Pool Text := {}
  floats : Pool UInt64 := {}
  deriving Repr

namespace Literals

def addText (l : Literals) (t : Text) : Literals := { l with texts := l.texts.insert t }

/-- Adds an identifier; an empty one is absent. -/
def addIdent (l : Literals) (t : Text) : Literals := if t.isEmpty then l else l.addText t

def addIdent? (l : Literals) (t : Option Text) : Literals := l.addIdent (t.getD [])

def addFloat (l : Literals) (f : Float) : Literals := { l with floats := l.floats.insert f.toBits }

/-- The operand for a text. -/
def text (l : Literals) (t : Text) : UInt32 := (l.texts.index t).toUInt32

def ident (l : Literals) (t : Text) : UInt32 := if t.isEmpty then 0xFFFFFFFF else l.text t

def ident? (l : Literals) (t : Option Text) : UInt32 := l.ident (t.getD [])

/-- The operand for a number. -/
def float (l : Literals) (f : Float) : UInt32 := (l.floats.index f.toBits).toUInt32

end Literals
end ConsoleScript
