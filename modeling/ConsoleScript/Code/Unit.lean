import ConsoleScript.Text.Basic

/-!
# Compiled units

A unit is the result of compiling one source: the code, the literal pools its operands index, and
a table that maps code positions back to source lines.
-/

namespace ConsoleScript

structure LineBreak where
  line : UInt32
  ip : UInt32
  deriving DecidableEq, Repr

/-- A compiled source. Numbers are kept as their bits. -/
structure CodeUnit where
  name : Text
  code : Array UInt32
  texts : Array Text
  floats : Array UInt64
  lines : List LineBreak
  warnings : List Text
  deriving Repr, Inhabited

/-- The line of the last entry at or before `ip`; `line` when there is none. -/
def LineBreak.lineAt (ip line : UInt32) : List LineBreak → UInt32
  | [] => line
  | b :: bs => if b.ip > ip then line else lineAt ip b.line bs

/-- The source line of the statement that covers a code position, zero when there is none. -/
def CodeUnit.lineAt (u : CodeUnit) (ip : UInt32) : UInt32 := LineBreak.lineAt ip 0 u.lines

end ConsoleScript
