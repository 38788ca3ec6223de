import ConsoleScript.Code.Pool
import ConsoleScript.Code.Shape
import ConsoleScript.Number.Decimal

/-!
# Collecting literals

Before code is written, the literals it will refer to are collected into the pools of the unit.
The order of collection fixes their indices.
-/

namespace ConsoleScript

namespace Expr

def intAsFloat (v : Int) : Float := Number.ofInt64 (Int64.ofInt v)

mutual

/-- The literals of an expression that is asked for a kind of value. -/
def collect : Expr → Demand → Literals → Literals
  | int _ v, want, l =>
    match want with
    | .text => l.addText (Text.ofInt v)
    | .float => l.addFloat (intAsFloat v)
    | _ => l
  | float _ v, want, l =>
    match want with
    | .text => l.addText (Number.toText v)
    | .float => l.addFloat v
    | _ => l
  | str _ v _, want, l | word _ v, want, l =>
    match want with
    | .text => l.addText v
    | .float => l.addFloat (Number.ofText v)
    | _ => l
  | var _ name index, want, l =>
    if want = .none then l
    else
      let l := l.addIdent name
      match index with
      | none => l
      | some i => collect i .text l
  | assign _ name index value, _, l =>
    let l := collect value value.storedAs (l.addIdent name)
    match index with
    | none => l
    | some i => collect i .text l
  | update _ name index op value, _, l =>
    let l := collect value op.operands (l.addIdent name)
    match index with
    | none => l
    | some i => collect i .text l
  | arith _ _ left right, _, l => collect right .float (collect left .float l)
  | wordArith _ _ left right, _, l => collect right .int (collect left .int l)
  | compare _ _ left right, _, l => collect right .float (collect left .float l)
  | logic _ _ left right, _, l => collect right .int (collect left .int l)
  | textEq _ _ left right, _, l => collect right .text (collect left .text l)
  | concat _ left right _, _, l => collect right .text (collect left .text l)
  | indexPair _ left right, _, l => collect right .text (collect left .text l)
  | unary _ op x, _, l => collect x (operandOf op x) l
  | cond _ test whenTrue whenFalse, want, l =>
    collect whenFalse want (collect whenTrue want (collect test test.testedAs l))
  | call _ name ns _ args, _, l => collectArgs args ((l.addIdent name).addIdent? ns)
  | slot _ obj field index, want, l =>
    if want = .none then l
    else
      let l := l.addIdent field
      let l := match index with
        | none => l
        | some i => collect i .text l
      collect obj .text l
  | slotAssign _ obj field index value, _, l =>
    let l := collect obj .text (collect value .text (l.addIdent field))
    match index with
    | none => l
    | some i => collect i .text l
  | slotUpdate _ obj field index op value, _, l =>
    let l := collect obj .text (collect value op.operands (l.addIdent field))
    match index with
    | none => l
    | some i => collect i .text l
  | object decl, _, l => collectObject decl l

def collectArgs : List Expr → Literals → Literals
  | [], l => l
  | a :: as, l => collectArgs as (collect a .text l)

/-- The literals of a field that is set while an object is built. -/
def collectField : FieldInit → Literals → Literals
  | .mk _ field index value, l =>
    let l := collect value .text (l.addIdent field)
    match index with
    | none => l
    | some i => collect i .text l

def collectFields : List FieldInit → Literals → Literals
  | [], l => l
  | f :: fs, l => collectFields fs (collectField f l)

def collectObject : ObjectDecl → Literals → Literals
  | .mk _ className objectName copyFrom args _ fields children, l =>
    let l := collect className .text (l.addIdent? copyFrom)
    let l := collectArgs args (collect objectName .text l)
    collectChildren children (collectFields fields l)

/-- The literals of the objects declared inside another one. -/
def collectChildren : List ObjectDecl → Literals → Literals
  | [], l => l
  | c :: cs, l => collectChildren cs (collectObject c l)

end

def collectOpt (x : Option Expr) (want : Demand) (l : Literals) : Literals :=
  match x with
  | none => l
  | some x => x.collect want l

end Expr

namespace Stmt

mutual

def collect : Stmt → Literals → Literals
  | expr _ x, l => x.collect .none l
  | branch _ test whenTrue whenFalse, l =>
    let l := collectBlock whenTrue (test.collect test.testedAs l)
    match whenFalse with
    | none => l
    | some whenFalse => collectBlock whenFalse l
  | loop _ start test next body _, l =>
    let l := test.collect test.testedAs (Expr.collectOpt start .none l)
    Expr.collectOpt next .none (collectBlock body l)
  | breakLoop _, l => l
  | continueLoop _, l => l
  | ret _ value, l => Expr.collectOpt value .text l
  | func _ name ns package params body, l =>
    let l := ((l.addIdent name).addIdent? ns).addIdent? package
    collectBlock body (params.foldl Literals.addIdent l)

/-- The literals of statements in a row. -/
def collectBlock : List Stmt → Literals → Literals
  | [], l => l
  | s :: ss, l => collectBlock ss (collect s l)

end

end Stmt
end ConsoleScript
