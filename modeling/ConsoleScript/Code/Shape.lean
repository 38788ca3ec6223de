import ConsoleScript.Code.Opcode
import ConsoleScript.Source.Tree

/-!
# The shape of code

What kind of value an expression yields most directly, on which stack a condition is tested, and
how many words the code of an expression or statement takes. Sizes are known before any code is
written, so jumps over code that follows can be written at once.
-/

namespace ConsoleScript

def UpdateOp.operands : UpdateOp → Demand
  | .arith _ => .float
  | .word _ => .int

namespace Demand

/-- The cost of turning a value of one kind into another. -/
def convertSize (source target : Demand) : Nat := if source = target then 0 else 1

def orText : Demand → Demand
  | .none => .text
  | kind => kind

end Demand

namespace Expr

/-- The kind of value an expression yields without a conversion. A variable or field has none of
its own. -/
def preferred : Expr → Demand
  | int .. => .int
  | float .. => .float
  | str .. => .text
  | word .. => .text
  | var .. => .none
  | assign _ _ _ value => (preferred value).orText
  | update _ _ _ op _ => op.operands
  | arith .. => .float
  | wordArith .. => .int
  | compare .. => .int
  | logic .. => .int
  | textEq .. => .int
  | concat .. => .text
  | indexPair .. => .text
  | unary _ .neg _ => .float
  | unary _ _ _ => .int
  | cond _ _ whenTrue _ => preferred whenTrue
  | call .. => .text
  | slot .. => .none
  | slotAssign .. => .text
  | slotUpdate _ _ _ _ op _ => op.operands
  | object _ => .int

/-- The kind in which a value is stored: its own, or text when it has none. -/
def storedAs (value : Expr) : Demand := value.preferred.orText

def testedAs (test : Expr) : Demand := if test.preferred = .int then .int else .float

/-- The kind in which `!` tests its operand. -/
def negatedAs (x : Expr) : Demand :=
  if x.preferred = .float || x.preferred = .text then .float else .int

def operandOf (op : UnaryOp) (x : Expr) : Demand :=
  match op with
  | .neg => .float
  | .complement => .int
  | .not => x.negatedAs

def resultOf : UnaryOp → Demand
  | .neg => .float
  | _ => .int

mutual

/-- How many words the code of an expression takes when it is asked for a kind of value. -/
def size : Expr → Demand → Nat
  | int .., want | float .., want | str .., want | word .., want => if want = .none then 0 else 2
  | var _ _ index, want =>
    if want = .none then 0
    else match index with
      | none => 3
      | some i => size i .text + 6
  | assign _ _ index value, want =>
    let kind := value.storedAs
    size value kind
      + (match index with
        | none => 3
        | some i => size i .text + if kind = .text then 8 else 6)
      + Demand.convertSize kind want
  | update _ _ index op value, want =>
    size value op.operands
      + (match index with
        | none => 5
        | some i => size i .text + 8)
      + Demand.convertSize op.operands want
  | arith _ _ left right, want =>
    size left .float + size right .float + 1 + Demand.convertSize .float want
  | wordArith _ _ left right, want =>
    size left .int + size right .int + 1 + Demand.convertSize .int want
  | compare _ _ left right, want =>
    size left .float + size right .float + 1 + Demand.convertSize .int want
  | logic _ _ left right, want =>
    size left .int + 2 + size right .int + Demand.convertSize .int want
  | textEq _ equal left right, want =>
    size left .text + 1 + size right .text + 1 + (if equal then 0 else 1)
      + Demand.convertSize .int want
  | concat _ left right separator, want =>
    size left .text + 1 + (if separator = .none then 0 else 1) + size right .text + 1
      + Demand.convertSize .text want
  | indexPair _ left right, want =>
    size left .text + 1 + size right .text + 1 + Demand.convertSize .text want
  | unary _ op x, want =>
    size x (operandOf op x) + 1 + Demand.convertSize (resultOf op) want
  | cond _ test whenTrue whenFalse, want =>
    size test test.testedAs + size whenTrue want + size whenFalse want + 4
  | call _ _ _ _ args, want => Demand.convertSize .text want + argsSize args + 5
  | slot _ obj _ index, want =>
    if want = .none then 0
    else
      (match index with
        | none => 0
        | some i => size i .text + 3)
      + size obj .text + 3 + 1
  | slotAssign _ obj _ index value, want =>
    Demand.convertSize .text want + size value .text + (size obj .text + 5)
      + (match index with
        | none => 0
        | some i => size i .text + 3)
      + 1
  | slotUpdate _ obj _ index op value, want =>
    size value op.operands + (size obj .text + 6)
      + (match index with
        | none => 0
        | some i => size i .text + 3)
      + Demand.convertSize op.operands want
  | object decl, want => 2 + objectSize decl + 1 + Demand.convertSize .int want

/-- The size of arguments, each of which is pushed. -/
def argsSize : List Expr → Nat
  | [] => 0
  | a :: as => size a .text + 1 + argsSize as

/-- The size of a field that is set while an object is built. -/
def fieldSize : FieldInit → Nat
  | .mk _ _ index value =>
    1 + size value .text + 5
      + (match index with
        | none => 0
        | some i => size i .text + 3)
      + 1

def fieldsSize : List FieldInit → Nat
  | [] => 0
  | f :: fs => fieldSize f + fieldsSize fs

/-- The size of an object declaration inside its frame. -/
def objectSize : ObjectDecl → Nat
  | .mk _ className objectName _ args _ fields children =>
    1 + (size className .text + 1) + (size objectName .text + 1) + argsSize args + 4
      + fieldsSize fields + 2 + childrenSize children + 2

/-- The size of the objects declared inside another one. -/
def childrenSize : List ObjectDecl → Nat
  | [] => 0
  | c :: cs => objectSize c + childrenSize cs

end

def sizeOpt (x : Option Expr) (want : Demand) : Nat :=
  match x with
  | none => 0
  | some x => x.size want

end Expr

namespace Stmt

mutual

/-- How many words the code of a statement takes. Leaving a loop takes none outside of loops. -/
def size : Stmt → Bool → Nat
  | expr _ x, _ => x.size .none
  | branch _ test whenTrue whenFalse, inLoop =>
    match whenFalse with
    | none => test.size test.testedAs + 2 + blockSize whenTrue inLoop
    | some whenFalse =>
      test.size test.testedAs + 2 + blockSize whenTrue inLoop + 2 + blockSize whenFalse inLoop
  | loop _ start test next body testLast, _ =>
    Expr.sizeOpt start .none + (if testLast then 0 else test.size test.testedAs + 2)
      + blockSize body true + Expr.sizeOpt next .none + test.size test.testedAs + 2
  | breakLoop _, inLoop => if inLoop then 2 else 0
  | continueLoop _, inLoop => if inLoop then 2 else 0
  | ret _ value, _ =>
    match value with
    | none => 1
    | some x => x.size .text + 1
  | func _ _ _ _ params body, _ => params.length + blockSize body false + 8

/-- The size of statements in a row. -/
def blockSize : List Stmt → Bool → Nat
  | [], _ => 0
  | s :: ss, inLoop => size s inLoop + blockSize ss inLoop

end

end Stmt
end ConsoleScript
