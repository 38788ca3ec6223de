import ConsoleScript.Code.Emit
import ConsoleScript.Console.Machine

/-!
# Evaluating trees

What a script means that declares nothing and calls nothing, by recursion on its tree: the kinds in
which values are asked for are those of the compiler, and there are no stacks, jumps or code. Loops
are given a number of rounds, and have no result when these do not suffice.
-/

namespace ConsoleScript

/-! ## Scripts without calls -/

/-- Does the expression work on numbers, texts and variables only? -/
def Expr.callFree : Expr → Bool
  | int .. | float .. | str .. | word .. => true
  | var _ _ none => true
  | var _ _ (some i) => i.callFree
  | assign _ _ none value | update _ _ none _ value => value.callFree
  | assign _ _ (some i) value | update _ _ (some i) _ value => i.callFree && value.callFree
  | arith _ _ left right | wordArith _ _ left right | compare _ _ left right
  | logic _ _ left right | textEq _ _ left right | concat _ left right _
  | indexPair _ left right => left.callFree && right.callFree
  | unary _ _ x => x.callFree
  | cond _ test whenTrue whenFalse => test.callFree && whenTrue.callFree && whenFalse.callFree
  | call .. | slot .. | slotAssign .. | slotUpdate .. | object _ => false

namespace Stmt

mutual

/-- The same of everything in a statement. Functions are not declared either. -/
def callFree : Stmt → Bool
  | expr _ x => x.callFree
  | branch _ test whenTrue none => test.callFree && callFreeBlock whenTrue
  | branch _ test whenTrue (some whenFalse) =>
    test.callFree && callFreeBlock whenTrue && callFreeBlock whenFalse
  | loop _ start test next body _ =>
    start.all Expr.callFree && test.callFree && next.all Expr.callFree && callFreeBlock body
  | breakLoop _ | continueLoop _ => true
  | ret _ value => value.all Expr.callFree
  | func .. => false

def callFreeBlock : List Stmt → Bool
  | [] => true
  | s :: ss => callFree s && callFreeBlock ss

end

end Stmt

/-! ## Values -/

/-- What an expression gives when it is asked for a kind of value. -/
@[reducible] def Demand.Carrier : Demand → Type
  | .none => Unit
  | .int => Int64
  | .float => Float
  | .text => Text

namespace Demand

/-- A value as it is asked for. -/
def ofValue : (want : Demand) → Value → want.Carrier
  | .none, _ => ()
  | .int, v => v.toInt
  | .float, v => v.toFloat
  | .text, v => v.toText

def toValue : (kind : Demand) → kind.Carrier → Value
  | .none, _ => .text []
  | .int, i => .int i
  | .float, f => .float f
  | .text, t => .text t

def isZero : (kind : Demand) → kind.Carrier → Bool
  | .int, i => i == 0
  | .float, f => f == 0.0
  | .none, _ | .text, _ => true

end Demand

def ArithOp.apply : ArithOp → Float → Float → Float
  | .add, a, b => a + b
  | .sub, a, b => a - b
  | .mul, a, b => a * b
  | .div, a, b => a / b

def WordOp.apply : WordOp → Int64 → Int64 → Int64
  | .mod, a, b => Machine.remainder a b
  | .bitAnd, a, b => a &&& b
  | .bitOr, a, b => a ||| b
  | .bitXor, a, b => a ^^^ b
  | .shl, a, b => Machine.shiftLeft a b
  | .shr, a, b => Machine.shiftRight a b

def CompareOp.apply : CompareOp → Float → Float → Bool
  | .eq, a, b => a == b
  | .ne, a, b => a != b
  | .lt, a, b => a < b
  | .gt, a, b => a > b
  | .le, a, b => a ≤ b
  | .ge, a, b => a ≥ b

/-- Does the left operand settle the result? -/
def LogicOp.decides : LogicOp → Int64 → Bool
  | .and, a => a == 0
  | .or, a => a != 0

def UpdateOp.apply : (op : UpdateOp) → op.operands.Carrier → op.operands.Carrier →
    op.operands.Carrier
  | .arith op, a, b => op.apply a b
  | .word op, a, b => op.apply a b

def Separator.text (s : Separator) : Text := s.byte?.toList

/-! ## Variables -/

abbrev Eval := StateM Console

namespace Eval

theorem bind_apply {α β : Type} (x : Eval α) (f : α → Eval β) (c : Console) :
    (x >>= f) c = f (x c).1 (x c).2 := rfl

def intern (t : Text) : Eval (Option Name) := fun c => c.intern t

/-- The name with a spelling, if there is one already. -/
def known (t : Text) : Eval (Option Name) := fun c => (c.names.find? t, c)

/-- Where a variable of that name lives when local ones live in `scope`. -/
def scopeOf (scope : ScopeId) (names : NameTable) (n : Name) : ScopeId :=
  if Machine.isGlobal names n then .globals else scope

def find (scope : ScopeId) (n : Option Name) : Eval (Option VarRef) := fun c =>
  (n.bind fun name => c.scopes.find? (scopeOf scope c.names name) n, c)

/-- The variable, which is created if it is missing. -/
def create (scope : ScopeId) : Option Name → Eval (Option VarRef)
  | none => pure none
  | some n => fun c =>
    let added := c.addVariable (scopeOf scope c.names n) n
    (some added.1, added.2)

/-- The value of a variable; a missing one is empty. -/
def value (r : Option VarRef) : Eval Value := fun c =>
  (match r.bind c.scopes.var? with
    | some v => v.value
    | none => .text [], c)

def assign (r : Option VarRef) (v : Value) : Eval Unit := fun c =>
  ((), match r with
    | some r => (c.assign r v).2
    | none => c)

end Eval

/-! ## Expressions -/

namespace Expr

/-- A literal in the form its code has for it. -/
def literal (want : Demand) (int : Int64) (float : Float) (text : Text) : want.Carrier :=
  match want with
  | .none => ()
  | .int => Number.signExtend (Number.lowWord int)
  | .float => Float.ofBits float.toBits
  | .text => text

/-- The value of an expression, as it is asked for. Literals and variables that nothing is asked of
are left alone. Operands of arithmetic and comparison are evaluated from right to left, texts from
left to right, and what is assigned before the variable is looked up. -/
def eval (scope : ScopeId) : Expr → (want : Demand) → Eval want.Carrier
  | int _ v, want => pure (literal want (Int64.ofInt v) (intAsFloat v) (Text.ofInt v))
  | float _ v, want => pure (literal want (Number.toInt64 v) v (Number.toText v))
  | str _ v _, want | word _ v, want =>
    pure (literal want (Number.toInt64 (Number.ofText v)) (Number.ofText v) v)
  | var _ name index, want =>
    if want = .none then pure (want.ofValue default)
    else do
      let n ← match index with
        | none => Eval.intern name
        | some i => do
          let t ← eval scope i .text
          Eval.known (name ++ t)
      let r ← Eval.find scope n
      let v ← Eval.value r
      return want.ofValue v
  | assign _ name index value, want => do
    let v ← eval scope value value.storedAs
    let n ← match index with
      | none => Eval.intern name
      | some i => do
        let t ← eval scope i .text
        Eval.intern (name ++ t)
    let r ← Eval.create scope n
    Eval.assign r (value.storedAs.toValue v)
    return want.ofValue (value.storedAs.toValue v)
  | update _ name index op value, want => do
    let v ← eval scope value op.operands
    let n ← match index with
      | none => Eval.intern name
      | some i => do
        let t ← eval scope i .text
        Eval.intern (name ++ t)
    let r ← Eval.create scope n
    let old ← Eval.value r
    let new := op.operands.toValue (op.apply (op.operands.ofValue old) v)
    Eval.assign r new
    return want.ofValue new
  | arith _ op left right, want => do
    let b ← eval scope right .float
    let a ← eval scope left .float
    return want.ofValue (.float (op.apply a b))
  | wordArith _ op left right, want => do
    let b ← eval scope right .int
    let a ← eval scope left .int
    return want.ofValue (.int (op.apply a b))
  | compare _ op left right, want => do
    let b ← eval scope right .float
    let a ← eval scope left .float
    return want.ofValue (.int (Machine.ofBool (op.apply a b)))
  | logic _ op left right, want => do
    let a ← eval scope left .int
    if op.decides a then return want.ofValue (.int a)
    else do
      let b ← eval scope right .int
      return want.ofValue (.int b)
  | textEq _ equal left right, want => do
    let a ← eval scope left .text
    let b ← eval scope right .text
    return want.ofValue (.int (Machine.ofBool (Text.equalFold a b == equal)))
  | concat _ left right separator, want => do
    let a ← eval scope left .text
    let b ← eval scope right .text
    return want.ofValue (.text (a ++ separator.text ++ b))
  | indexPair _ left right, want => do
    let a ← eval scope left .text
    let b ← eval scope right .text
    return want.ofValue (.text (a ++ [0x5F] ++ b))
  | unary _ .neg x, want => do
    let a ← eval scope x .float
    return want.ofValue (.float (-a))
  | unary _ .complement x, want => do
    let a ← eval scope x .int
    return want.ofValue (.int (~~~ a))
  | unary _ .not x, want => do
    let a ← eval scope x x.negatedAs
    return want.ofValue (.int (Machine.ofBool (x.negatedAs.isZero a)))
  | cond _ test whenTrue whenFalse, want => do
    let a ← eval scope test test.testedAs
    if test.testedAs.isZero a then eval scope whenFalse want else eval scope whenTrue want
  | call .., want | slot .., want | slotAssign .., want | slotUpdate .., want | object _, want =>
    pure (want.ofValue default)

end Expr

/-! ## Statements -/

inductive Outcome where
  | normal
  /-- The innermost loop is left. -/
  | stopped
  /-- The innermost loop goes on with its next round. -/
  | skipped
  | returned (t : Text)

abbrev Exec := StateT Console Option

namespace Exec

def eval (scope : ScopeId) (x : Expr) (want : Demand) : Exec want.Carrier := fun c =>
  some (x.eval scope want c)

def evalOpt (scope : ScopeId) (x : Option Expr) : Exec Unit :=
  match x with
  | none => pure ()
  | some x => eval scope x .none

/-- Does a condition hold? -/
def holds (scope : ScopeId) (test : Expr) : Exec Bool := do
  let a ← eval scope test test.testedAs
  return !test.testedAs.isZero a

theorem holds_apply (scope : ScopeId) (test : Expr) (c : Console) : holds scope test c
    = some (!test.testedAs.isZero (test.eval scope test.testedAs c).1,
        (test.eval scope test.testedAs c).2) := rfl

theorem bind_some {α β : Type} {x : Exec α} {f : α → Exec β} {c c' : Console} {a : α}
    (h : x c = some (a, c')) : (x >>= f) c = f a c' := by
  show (x c).bind (fun r => f r.1 r.2) = _
  rw [h]
  rfl

theorem bind_none {α β : Type} {x : Exec α} {f : α → Exec β} {c : Console} (h : x c = none) :
    (x >>= f) c = none := by
  show (x c).bind (fun r => f r.1 r.2) = _
  rw [h]
  rfl

/-- Rounds of a loop, the first of them untested. -/
def rounds (body : Exec Outcome) (next : Exec Unit) (again : Exec Bool) : Nat → Exec Outcome
  | 0 => fun _ => none
  | n + 1 => do
    match ← body with
    | .stopped => return .normal
    | .returned t => return .returned t
    | .normal | .skipped => do
      next
      if ← again then rounds body next again n else return .normal

end Exec

namespace Stmt

mutual

/-- What a statement does, when no loop in it makes more than `fuel` rounds. Outside of loops,
`break` and `continue` do nothing. -/
def exec (scope : ScopeId) (fuel : Nat) : Stmt → Bool → Exec Outcome
  | expr _ x, _ => do
    Exec.eval scope x .none
    return .normal
  | branch _ test whenTrue whenFalse, inLoop => do
    if ← Exec.holds scope test then execBlock scope fuel whenTrue inLoop
    else match whenFalse with
      | none => return .normal
      | some whenFalse => execBlock scope fuel whenFalse inLoop
  | loop _ start test next body testLast, _ => do
    Exec.evalOpt scope start
    let enter ← if testLast then pure true else Exec.holds scope test
    if enter then
      Exec.rounds (execBlock scope fuel body true) (Exec.evalOpt scope next)
        (Exec.holds scope test) fuel
    else return .normal
  | breakLoop _, inLoop => return if inLoop then .stopped else .normal
  | continueLoop _, inLoop => return if inLoop then .skipped else .normal
  | ret _ value, _ =>
    match value with
    | none => return .returned []
    | some x => do
      let t ← Exec.eval scope x .text
      return .returned t
  | func .., _ => return .normal

def execBlock (scope : ScopeId) (fuel : Nat) : List Stmt → Bool → Exec Outcome
  | [], _ => return .normal
  | s :: ss, inLoop => do
    match ← exec scope fuel s inLoop with
    | .normal => execBlock scope fuel ss inLoop
    | outcome => return outcome

end

end Stmt

end ConsoleScript
