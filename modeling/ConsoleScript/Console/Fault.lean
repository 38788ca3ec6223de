import ConsoleScript.Text.Basic

/-!
# Faults

A run of the console machine can go wrong in ways no compiled script shows: code that refers past
the end of its own tables, or a command that needs an object where there is none. Such a fault
ends the innermost activation that can report it.
-/

namespace ConsoleScript

inductive Fault where
  /-- A table of `length` items has none at `index`. -/
  | outOfRange (index length : Nat)
  /-- Something is needed that is not there. -/
  | absent
  /-- The run took more steps than it was given. Nothing recovers from this. -/
  | exhausted
  deriving DecidableEq, Repr

def Fault.message : Fault → Text
  | .outOfRange index length =>
    Text.ofString "runtime error: index out of range [" ++ Text.ofNat index
      ++ Text.ofString "] with length " ++ Text.ofNat length
  | .absent => "runtime error: invalid memory address or nil pointer dereference"
  | .exhausted => "out of steps"

end ConsoleScript
