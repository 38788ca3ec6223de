/-!
# Arenas

Tables that are built together and given up together are slices of shared blocks. A slice is cut
off the block in use while that has room, and else a new block is begun. A slice that is longer
than a shared block is a block of its own.
-/

namespace ConsoleScript

structure Slice where
  block : Nat
  start : Nat
  length : Nat
  deriving DecidableEq, Repr

/-- Blocks that slices are cut off. A place is free or holds a value. -/
structure Arena (α : Type) where
  /-- The length of a shared block. -/
  size : Nat
  blocks : Array (Array (Option α)) := #[]
  /-- The block in use. -/
  current : Option Nat := none
  /-- How many places of the block in use are given out. -/
  used : Nat := 0

namespace Arena

variable {α : Type}

/-- The length of a shared block unless another one is asked for. -/
def defaultSize : Nat := 4096

def ofSize (size : Int) : Arena α := { size := if size ≤ 0 then defaultSize else size.toNat }

def addBlock (a : Arena α) (n : Nat) : Arena α :=
  { a with blocks := a.blocks.push (Array.replicate n none) }

/-- Begins a new shared block and cuts a slice of `n` places off it. -/
def beginBlock (a : Arena α) (n : Nat) : Slice × Arena α :=
  (⟨a.blocks.size, 0, n⟩, { a.addBlock a.size with current := some a.blocks.size, used := n })

/-- A slice of `n` free places. -/
def alloc (a : Arena α) (n : Nat) : Slice × Arena α :=
  if a.size < n then (⟨a.blocks.size, 0, n⟩, a.addBlock n)
  else match a.current with
    | none => a.beginBlock n
    | some b =>
      if a.used + n ≤ a.size then (⟨b, a.used, n⟩, { a with used := a.used + n })
      else a.beginBlock n

def get? (a : Arena α) (t : Slice) (i : Nat) : Option (Option α) :=
  if i < t.length then (a.blocks[t.block]?).bind (·[t.start + i]?) else none

def set (a : Arena α) (t : Slice) (i : Nat) (x : α) : Arena α :=
  if i < t.length then
    { a with blocks := a.blocks.modify t.block (·.setIfInBounds (t.start + i) (some x)) }
  else a

def reset (a : Arena α) : Arena α := { size := a.size }

end Arena
end ConsoleScript
