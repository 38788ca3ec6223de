import ConsoleScript.Code.Opcode
import ConsoleScript.Code.Unit
import ConsoleScript.Console.Fault
import ConsoleScript.Console.Namespace

/-!
# Code blocks

A code block is a compiled unit that was loaded into a console. Every function it declares and
every activation of its code holds a reference; when the last one is gone the block is unloaded.
-/

namespace ConsoleScript

structure CodeBlock where
  unit : CodeUnit
  refCount : Int := 0
  deriving Inhabited

/-- All blocks that were ever loaded, and which of them still are, in the order of loading. -/
structure Blocks where
  store : Array CodeBlock := #[]
  loaded : List BlockId := []

namespace Blocks

def get (b : Blocks) (id : BlockId) : CodeBlock := (b.store[id]?).getD default

def unit (b : Blocks) (id : BlockId) : CodeUnit := (b.get id).unit

def load (b : Blocks) (u : CodeUnit) : BlockId × Blocks :=
  (b.store.size, ⟨b.store.push { unit := u }, b.loaded ++ [b.store.size]⟩)

def retain (b : Blocks) (id : BlockId) : Blocks :=
  { b with store := b.store.modify id fun c => { c with refCount := c.refCount + 1 } }

/-- Gives a reference back; the last one unloads the block. -/
def release (b : Blocks) (id : BlockId) : Blocks :=
  let b := { b with store := b.store.modify id fun c => { c with refCount := c.refCount - 1 } }
  if (b.get id).refCount > 0 then b else { b with loaded := b.loaded.erase id }

end Blocks

namespace CodeUnit

def word (u : CodeUnit) (ip : UInt32) : Except Fault UInt32 :=
  match u.code[ip.toNat]? with
  | some w => .ok w
  | none => .error (.outOfRange ip.toNat u.code.size)

/-- A text that an operand refers to; an absent one is empty. -/
def textAt (u : CodeUnit) (operand : UInt32) : Except Fault Text :=
  if operand == noIdent then .ok []
  else match u.texts[operand.toNat]? with
    | some t => .ok t
    | none => .error (.outOfRange operand.toNat u.texts.size)

def floatAt (u : CodeUnit) (operand : UInt32) : Except Fault Float :=
  match u.floats[operand.toNat]? with
  | some bits => .ok (Float.ofBits bits)
  | none => .error (.outOfRange operand.toNat u.floats.size)

end CodeUnit
end ConsoleScript
