import ConsoleScript.Code.Emit
import ConsoleScript.Code.Unit
import ConsoleScript.Source.Parser.Stmt

/-!
# Compiling

A source is parsed, its literals are collected, its size is computed, and its code is written.
The line table and the warnings come with the code.
-/

namespace ConsoleScript

inductive CompileError where
  | parse (errors : List ParseError)
  /-- The code written has another size than the one computed beforehand. -/
  | layout (written sized : Nat)
  deriving Repr

def CompileError.message (filename : Text) : CompileError → Text
  | .parse errors =>
    filename ++ Text.ofString ": parse error: "
      ++ Text.join "; " (errors.map ParseError.message)
  | .layout written sized =>
    filename ++ Text.ofString ": code layout mismatch: emitted " ++ Text.ofNat written
      ++ Text.ofString " words, sized " ++ Text.ofNat sized

namespace Stmt

mutual

/-- The line table of a statement at position `ip`. Every statement that has code of its own is
listed with its first instruction. -/
def lines : Stmt → Nat → Bool → List LineBreak
  | expr pos _, ip, _ => [⟨UInt32.ofNat pos.line, ipWord ip⟩]
  | branch pos test whenTrue whenFalse, ip, inLoop =>
    let onTrue := ip + test.size test.testedAs + 2
    ⟨UInt32.ofNat pos.line, ipWord ip⟩ :: blockLines whenTrue onTrue inLoop
      ++ (match whenFalse with
        | none => []
        | some whenFalse => blockLines whenFalse (onTrue + blockSize whenTrue inLoop + 2) inLoop)
  | loop pos start test _ body testLast, ip, _ =>
    let atTest := ip + Expr.sizeOpt start .none
    let atBody := if testLast then atTest else atTest + test.size test.testedAs + 2
    ⟨UInt32.ofNat pos.line, ipWord ip⟩ :: blockLines body atBody true
  | breakLoop pos, ip, inLoop => if inLoop then [⟨UInt32.ofNat pos.line, ipWord ip⟩] else []
  | continueLoop pos, ip, inLoop => if inLoop then [⟨UInt32.ofNat pos.line, ipWord ip⟩] else []
  | ret pos _, ip, _ => [⟨UInt32.ofNat pos.line, ipWord ip⟩]
  | func pos _ _ _ params body, ip, _ =>
    ⟨UInt32.ofNat pos.line, ipWord ip⟩ :: blockLines body (ip + 7 + params.length) false

def blockLines : List Stmt → Nat → Bool → List LineBreak
  | [], _, _ => []
  | s :: ss, ip, inLoop => lines s ip inLoop ++ blockLines ss (ip + size s inLoop) inLoop

end

mutual

/-- The statements that try to leave a loop outside of one, with the word they use. -/
def strays : Stmt → Bool → List (Position × Text)
  | branch _ _ whenTrue whenFalse, inLoop =>
    blockStrays whenTrue inLoop
      ++ (match whenFalse with
        | none => []
        | some whenFalse => blockStrays whenFalse inLoop)
  | loop _ _ _ _ body _, _ => blockStrays body true
  | breakLoop pos, inLoop => if inLoop then [] else [(pos, "break")]
  | continueLoop pos, inLoop => if inLoop then [] else [(pos, "continue")]
  | func _ _ _ _ _ body, _ => blockStrays body false
  | _, _ => []

def blockStrays : List Stmt → Bool → List (Position × Text)
  | [], _ => []
  | s :: ss, inLoop => strays s inLoop ++ blockStrays ss inLoop

end

def strayWarning (filename : Text) (stray : Position × Text) : Text :=
  filename ++ Text.ofString " (" ++ Text.ofNat stray.1.line ++ Text.ofString "): " ++ stray.2
    ++ Text.ofString " outside of loop... ignoring."

end Stmt

namespace CodeUnit

def ofProgram (filename : Text) (program : List Stmt) : Except CompileError CodeUnit :=
  let literals := Stmt.collectBlock program {}
  let sized := Stmt.blockSize program false + 1
  let code := Stmt.emitBlock literals program 0 none ++ [Opcode.retVoid.word]
  if code.length = sized then
    .ok {
      name := filename
      code := code.toArray
      texts := literals.texts.items
      floats := literals.floats.items
      lines := Stmt.blockLines program 0 false
      warnings := (Stmt.blockStrays program false).map (Stmt.strayWarning filename) }
  else .error (.layout code.length sized)

end CodeUnit

/-- Compiles a source. -/
def compile (source filename : Text) : Except CompileError CodeUnit :=
  match parseProgram source with
  | (program, []) => CodeUnit.ofProgram filename program
  | (_, errors) => .error (.parse errors)

end ConsoleScript
