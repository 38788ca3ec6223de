import ConsoleScript.Code.Compile
import ConsoleScript.Number.Integer

/-!
# Checking a document

A document is parsed and compiled without being run. Parse errors and warnings become diagnostics
for whole lines; a document without parse errors also gives the functions it declares.
-/

namespace ConsoleScript

inductive Severity where
  | error | warning
  deriving DecidableEq, Repr

def Severity.number : Severity → Nat
  | .error => 1
  | .warning => 2

/-- A remark on a line of a document. Lines are counted from zero. -/
structure Diagnostic where
  line : Nat
  severity : Severity
  message : Text
  deriving DecidableEq, Repr

/-- The name under which diagnostics are published. -/
def Diagnostic.source : Text := "torque-lsp"

structure Symbol where
  name : Text
  ns : Text
  package : Text
  params : List Text
  line : Nat
  deriving DecidableEq, Repr

namespace Symbol

/-- The name with the namespace, as it is used in calls. -/
def qualified (s : Symbol) : Text :=
  if s.ns.isEmpty then s.name else s.ns ++ Text.ofString "::" ++ s.name

def signature (s : Symbol) : Text :=
  let package := if s.package.isEmpty then [] else
    Text.ofString "[" ++ s.package ++ Text.ofString "] "
  package ++ Text.ofString "function " ++ s.qualified ++ Text.ofString "("
    ++ Text.join ", " s.params ++ Text.ofString ")"

def ofStmt? : Stmt → Option Symbol
  | .func pos name ns package params _ =>
    some ⟨name, ns.getD [], package.getD [], params, pos.line⟩
  | _ => none

end Symbol

structure Analysis where
  diagnostics : List Diagnostic := []
  symbols : List Symbol := []

namespace Diagnostic

/-- The zero-based line of a number that counts from one. Numbers without a line give the first
line. -/
def lineOf (n : Nat) : Nat := n - 1

def ofParseError (e : ParseError) : Diagnostic := ⟨lineOf e.line, .error, e.cause.message⟩

/-- What follows a line number of the form `(n): ` at the start of a text, with the number. -/
def numbered? (t : Text) : Option (Nat × Text) := do
  let rest ← Text.dropStart? " (" t
  let digits := rest.takeWhile isDigit
  if digits.isEmpty then none
  let message ← Text.dropStart? "): " (rest.drop digits.length)
  return (((Integer.natOfText? Number.signedBound digits).getD 0), message)

/-- The first line number in the first line of a text, and what follows it. -/
def firstNumbered? : Text → Option (Nat × Text)
  | [] => none
  | b :: t =>
    match numbered? (b :: t) with
    | some found => some found
    | none => if b == 0x0A then none else firstNumbered? t

/-- A warning, which starts with the name of the file and the line. -/
def ofWarning (w : Text) : Diagnostic :=
  match firstNumbered? w with
  | some (n, message) => ⟨lineOf n, .warning, message⟩
  | none => ⟨0, .warning, w⟩

end Diagnostic

def analyze (filename source : Text) : Analysis :=
  match parseProgram source with
  | (program, []) =>
    let symbols := program.filterMap Symbol.ofStmt?
    match CodeUnit.ofProgram filename program with
    | .ok u => { diagnostics := u.warnings.map Diagnostic.ofWarning, symbols := symbols }
    | .error e => { diagnostics := [⟨0, .error, e.message filename⟩], symbols := symbols }
  | (_, errors) => { diagnostics := errors.map Diagnostic.ofParseError }

end ConsoleScript
