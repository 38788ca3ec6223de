import ConsoleScript.Source.Parser.State
import ConsoleScript.Number.Decimal

/-!
# Parsing expressions

Recursive descent with precedence climbing for the binary operators. From loosest to tightest:
assignment, the conditional, eleven levels of binary operators, unary operators, field access and
indexing. Every parser takes a bound on its nesting, which `ParseState.depth` makes large enough
for any source.
-/

namespace ConsoleScript

/-- How tight a binary operator binds; one is the loosest. -/
def TokenKind.precedence? : TokenKind → Option Nat
  | .orOr => some 1
  | .andAnd => some 2
  | .bar => some 3
  | .caret => some 4
  | .amp => some 5
  | .eq | .ne | .strEq | .strNe => some 6
  | .lt | .gt | .le | .ge => some 7
  | .at | .kwSpc | .kwTab | .kwNl => some 8
  | .shl | .shr => some 9
  | .plus | .minus => some 10
  | .star | .slash | .percent => some 11
  | _ => none

/-- The operator that a compound assignment applies. -/
def TokenKind.updateOp? : TokenKind → Option UpdateOp
  | .plusEq => some (.arith .add)
  | .minusEq => some (.arith .sub)
  | .starEq => some (.arith .mul)
  | .slashEq => some (.arith .div)
  | .percentEq => some (.word .mod)
  | .ampEq => some (.word .bitAnd)
  | .barEq => some (.word .bitOr)
  | .caretEq => some (.word .bitXor)
  | .shlEq => some (.word .shl)
  | .shrEq => some (.word .shr)
  | _ => none

namespace Expr

/-- The node of a binary operator. -/
def binary (op : TokenKind) (pos : Position) (left right : Expr) : Expr :=
  match op with
  | .plus => arith pos .add left right
  | .minus => arith pos .sub left right
  | .star => arith pos .mul left right
  | .slash => arith pos .div left right
  | .andAnd => logic pos .and left right
  | .orOr => logic pos .or left right
  | .strEq => textEq pos true left right
  | .strNe => textEq pos false left right
  | .at => concat pos left right .none
  | .kwSpc => concat pos left right .space
  | .kwTab => concat pos left right .tab
  | .kwNl => concat pos left right .newline
  | .percent => wordArith pos .mod left right
  | .amp => wordArith pos .bitAnd left right
  | .bar => wordArith pos .bitOr left right
  | .caret => wordArith pos .bitXor left right
  | .shl => wordArith pos .shl left right
  | .shr => wordArith pos .shr left right
  | .ne => compare pos .ne left right
  | .lt => compare pos .lt left right
  | .gt => compare pos .gt left right
  | .le => compare pos .le left right
  | .ge => compare pos .ge left right
  | _ => compare pos .eq left right

/-- A sign in front of a number belongs to the number. -/
def negate (pos : Position) : Expr → Expr
  | int _ v => int pos (-v)
  | float _ v => float pos (-v)
  | x => unary pos .neg x

def assignTo? (pos : Position) (target value : Expr) : Option Expr :=
  match target with
  | var _ name index => some (assign pos name index value)
  | slot _ obj field index => some (slotAssign pos obj field index value)
  | _ => none

def updateTo? (pos : Position) (op : UpdateOp) (target value : Expr) : Option Expr :=
  match target with
  | var _ name index => some (update pos name index op value)
  | slot _ obj field index => some (slotUpdate pos obj field index op value)
  | _ => none

/-- A variable or field with an index, or why it cannot have one. -/
def withIndex (x index : Expr) : Except ParseCause Expr :=
  match x with
  | var pos name none => .ok (var pos name (some index))
  | var _ name (some _) => .error (.variableIndexed name)
  | slot pos obj field none => .ok (slot pos obj field (some index))
  | slot _ _ field (some _) => .error (.fieldIndexed field)
  | _ => .error .notIndexable

/-- The value of an integer numeral. Base sixteen keeps its bit pattern up to 32 bits; whatever
does not fit 32 bits becomes a number with a fraction part. -/
def ofInteger (t : Token) : Expr :=
  match t.literal with
  | 0x30 :: x :: digits =>
    if x == 0x78 || x == 0x58 then
      let n := (digitsValue? 16 digits).getD 0
      if !digits.isEmpty && n < UInt32.size then int t.pos (UInt32.ofNat n).toInt32.toInt
      else float t.pos (UInt64.ofNat (min n (UInt64.size - 1))).toFloat
    else decimal
  | _ => decimal
where
  /-- A numeral of base ten. -/
  decimal : Expr :=
    match Decimal.parse? t.literal with
    | some d => if d.mantissa < 0x80000000 then int t.pos d.mantissa else float t.pos d.value.1
    | none => float t.pos 0.0

end Expr

namespace Parse

def fieldName (what : Text) : Parse Text := do
  let t ← cur
  if t.kind == .ident || t.kind.isWord then return t.literal else giveUpExpected what

/-- An identifier, or an error that says what it should have been. -/
def ident (what : Text) : Parse Text := do
  let t ← cur
  if t.kind == .ident then
    advance
    return t.literal
  else giveUpExpected what

/-- Takes the result of a construction, or gives up with its cause. -/
def orGiveUp (cause : ParseCause) : Option α → Parse α
  | some a => return a
  | none => giveUp cause

mutual

/-- An expression: assignments group to the right and bind loosest. -/
def expression : Nat → Parse Expr
  | 0 => giveUp .tooDeep
  | n + 1 => do
    let left ← ternary n
    let op ← cur
    if op.kind == .assign then
      advance
      let value ← expression n
      orGiveUp .assignTarget (Expr.assignTo? op.pos left value)
    else match op.kind.updateOp? with
      | some update => do
        advance
        let value ← expression n
        orGiveUp .assignTarget (Expr.updateTo? op.pos update left value)
      | none => return left

/-- A conditional `test ? a : b`, or a binary expression. -/
def ternary : Nat → Parse Expr
  | 0 => giveUp .tooDeep
  | n + 1 => do
    let test ← binary n 0
    let op ← cur
    if op.kind == .question then
      advance
      let whenTrue ← expression n
      expect .colon
      let whenFalse ← ternary n
      return .cond op.pos test whenTrue whenFalse
    else return test

/-- Operands joined by operators that bind tighter than `level`. -/
def binary : Nat → Nat → Parse Expr
  | 0, _ => giveUp .tooDeep
  | n + 1, level => do
    let left ← unary n
    binaryTail n level left

/-- The operators behind a first operand; equal precedence groups to the left. -/
def binaryTail : Nat → Nat → Expr → Parse Expr
  | 0, _, _ => giveUp .tooDeep
  | n + 1, level, left => do
    let op ← cur
    match op.kind.precedence? with
    | some p =>
      if p ≤ level then return left
      else
        advance
        let right ← binary n p
        binaryTail n level (Expr.binary op.kind op.pos left right)
    | none => return left

/-- Unary operators in front of an operand. -/
def unary : Nat → Parse Expr
  | 0 => giveUp .tooDeep
  | n + 1 => do
    let op ← cur
    match op.kind with
    | .minus => advance; return Expr.negate op.pos (← unary n)
    | .bang => advance; return .unary op.pos .not (← unary n)
    | .tilde => advance; return .unary op.pos .complement (← unary n)
    | _ =>
      let x ← primary n
      postfixTail n x

/-- Field access, method calls, indexing and steps by one, behind an operand. -/
def postfixTail : Nat → Expr → Parse Expr
  | 0, _ => giveUp .tooDeep
  | n + 1, x => do
    let op ← cur
    match op.kind with
    | .dot =>
      advance
      let name ← fieldName "field or method name after ."
      advance
      if ← at? .lparen then
        let args ← arguments n
        postfixTail n (.call op.pos name none .method (x :: args))
      else postfixTail n (.slot op.pos x name none)
    | .lbracket =>
      let index ← bracketed n
      match Expr.withIndex x index with
      | .ok x => postfixTail n x
      | .error cause => giveUp cause
    | .plusPlus =>
      advance
      let x ← orGiveUp .assignTarget (Expr.updateTo? op.pos (.arith .add) x (.int op.pos 1))
      postfixTail n x
    | .minusMinus =>
      advance
      let x ← orGiveUp .assignTarget (Expr.updateTo? op.pos (.arith .sub) x (.int op.pos 1))
      postfixTail n x
    | _ => return x

/-- An index `[a, b, …]`. -/
def bracketed : Nat → Parse Expr
  | 0 => giveUp .tooDeep
  | n + 1 => do
    advance
    let first ← expression n
    let index ← indexTail n first
    expect .rbracket
    return index

def indexTail : Nat → Expr → Parse Expr
  | 0, _ => giveUp .tooDeep
  | n + 1, index => do
    let op ← cur
    if op.kind == .comma then
      advance
      let next ← expression n
      indexTail n (.indexPair op.pos index next)
    else return index

/-- Arguments `(a, b, …)`. -/
def arguments : Nat → Parse (List Expr)
  | 0 => giveUp .tooDeep
  | n + 1 => do
    advance
    argumentTail n []

/-- The rest of an argument list; `seen` holds the arguments so far, newest first. A comma may
stand in front of the closing parenthesis. -/
def argumentTail : Nat → List Expr → Parse (List Expr)
  | 0, _ => giveUp .tooDeep
  | n + 1, seen => do
    if ← at? .rparen then
      advance
      return seen.reverse
    else
      let a ← expression n
      if ← at? .comma then advance
      else if !(← at? .rparen) then giveUpExpected ", or ) in argument list"
      argumentTail n (a :: seen)

/-- Literals, variables, calls, object declarations and parenthesised expressions. -/
def primary : Nat → Parse Expr
  | 0 => giveUp .tooDeep
  | n + 1 => do
    let t ← cur
    match t.kind with
    | .integer => advance; return Expr.ofInteger t
    | .float =>
      advance
      match (Decimal.parse? t.literal).map Decimal.value with
      | some (f, false) => return .float t.pos f
      | _ => giveUp (.badNumber t.literal)
    | .string => advance; return .str t.pos t.literal false
    | .tagString => advance; return .str t.pos t.literal true
    | .kwTrue => advance; return .int t.pos 1
    | .kwFalse => advance; return .int t.pos 0
    | .localVar => advance; return .var t.pos t.literal none
    | .globalVar => advance; return .var t.pos t.literal none
    | .ident => advance; wordOrCall n t
    | .lparen =>
      advance
      let x ← expression n
      expect .rparen
      return x
    | .kwNew => advance; return .object (← objectDecl n t.pos false)
    | .kwDatablock => advance; return .object (← objectDecl n t.pos true)
    | _ => giveUp (.unexpected t)

/-- A call by name, or a bare word; `t` is the word. -/
def wordOrCall : Nat → Token → Parse Expr
  | 0, _ => giveUp .tooDeep
  | n + 1, t => do
    if ← at? .colonColon then
      advance
      let name ← ident "function name after ::"
      unless ← at? .lparen do giveUp (.callParen t.literal name)
      let args ← arguments n
      let kind := if Text.equalFold t.literal "Parent" then .parent else .function
      return .call t.pos name (some t.literal) kind args
    else if ← at? .lparen then
      let args ← arguments n
      return .call t.pos t.literal none .function args
    else return .word t.pos t.literal

/-- What follows `new` or `datablock`: a class, a name in parentheses with an object to copy from
and arguments, and a body. -/
def objectDecl : Nat → Position → Bool → Parse ObjectDecl
  | 0, _, _ => giveUp .tooDeep
  | n + 1, pos, datablock => do
    let t ← cur
    let className ← match t.kind with
      | .ident => do advance; pure (.word t.pos t.literal)
      | .lparen => do
        advance
        let x ← expression n
        expect .rparen
        pure x
      | _ => giveUpExpected "class name"
    expect .lparen
    let t ← cur
    let objectName ←
      if t.kind == .rparen || t.kind == .colon then pure (.str t.pos [] false) else ternary n
    let copyFrom ← if ← at? .colon then do
        advance
        pure (some (← ident "parent object name"))
      else pure none
    let args ← extraArguments n []
    expect .rparen
    if ← at? .lbrace then
      advance
      let (fields, children) ← objectBody n [] []
      expect .rbrace
      return .mk pos className objectName copyFrom args datablock fields children
    else return .mk pos className objectName copyFrom args datablock [] []

/-- Arguments behind an object's name, newest first in `seen`. -/
def extraArguments : Nat → List Expr → Parse (List Expr)
  | 0, _ => giveUp .tooDeep
  | n + 1, seen => do
    if ← at? .comma then
      advance
      let a ← expression n
      extraArguments n (a :: seen)
    else return seen.reverse

/-- Fields and inner objects up to the closing brace. -/
def objectBody : Nat → List FieldInit → List ObjectDecl → Parse (List FieldInit × List ObjectDecl)
  | 0, _, _ => giveUp .tooDeep
  | n + 1, fields, children => do
    let t ← cur
    if t.kind == .rbrace || t.kind == .eof then return (fields.reverse, children.reverse)
    else if t.kind == .kwNew || (t.kind == .kwDatablock && (← get).peek.kind != .assign) then
      advance
      let child ← objectDecl n t.pos (t.kind == .kwDatablock)
      expect .semicolon
      objectBody n fields (child :: children)
    else
      let f ← fieldInit n
      objectBody n (f :: fields) children

/-- A field set in an object's body: `name[index] = value;`. -/
def fieldInit : Nat → Parse FieldInit
  | 0 => giveUp .tooDeep
  | n + 1 => do
    let t ← cur
    let name ← fieldName "field name"
    advance
    let index ← if ← at? .lbracket then some <$> bracketed n else pure none
    expect .assign
    let value ← expression n
    expect .semicolon
    return .mk t.pos name index value

end

end Parse
end ConsoleScript
