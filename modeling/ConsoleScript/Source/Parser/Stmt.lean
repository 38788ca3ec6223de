import ConsoleScript.Source.Parser.Expr

/-!
# Parsing statements

Statements, blocks, function declarations and packages. A statement that does not parse is
reported and skipped, so one mistake does not hide the rest of a script. `switch` becomes a chain
of branches that compare the subject with each case in turn.
-/

namespace ConsoleScript

/-- One case of a `switch`: the values it lists and the statements under it. -/
structure SwitchCase where
  pos : Position
  values : List Expr
  body : List Stmt

namespace SwitchCase

def matchValue (textual : Bool) (subject : Expr) (pos : Position) (value : Expr) : Expr :=
  if textual then .textEq pos true subject value else .compare pos .eq subject value

/-- The test of a case: the subject equals one of its values. -/
def test (textual : Bool) (subject : Expr) (c : SwitchCase) : Expr :=
  match c.values with
  | [] => .int c.pos 0
  | v :: vs => vs.foldl
      (fun t v => .logic c.pos .or t (matchValue textual subject c.pos v))
      (matchValue textual subject c.pos v)

/-- The branches of the cases in order, and behind them the default. -/
def chain (textual : Bool) (subject : Expr) (default? : Option (List Stmt)) :
    List SwitchCase → Option (List Stmt)
  | [] => default?
  | c :: cs =>
    some [.branch c.pos (c.test textual subject) c.body (chain textual subject default? cs)]

end SwitchCase

/-- A `switch` as branches. Without cases only a default remains, which always runs; without
either nothing remains. -/
def Stmt.ofSwitch? (pos : Position) (textual : Bool) (subject : Expr) (cases : List SwitchCase)
    (default? : Option (List Stmt)) : Option Stmt :=
  match cases with
  | [] => default?.map fun body => .branch pos (.int pos 1) body none
  | c :: cs => some (.branch c.pos (c.test textual subject) c.body
      (SwitchCase.chain textual subject default? cs))

namespace Parse

/-- An expression in parentheses. A missing closing parenthesis is reported and passed over. -/
def condition (n : Nat) : Parse Expr := do
  expect .lparen
  let x ← attempt (expression n)
  let _ ← accept .rparen
  match x with
  | some x => return x
  | none => failure

/-- The parameters of a function, newest first in `seen`, up to the closing parenthesis. -/
def parameters : Nat → List Text → Parse (List Text)
  | 0, _ => giveUp .tooDeep
  | n + 1, seen => do
    if ← at? .rparen then
      advance
      return seen.reverse
    else
      let t ← cur
      unless t.kind == .localVar do giveUpExpected "parameter"
      advance
      if ← at? .comma then advance
      else if !(← at? .rparen) then giveUpExpected ", or ) in parameter list"
      parameters n (t.literal :: seen)

/-- The values of a case, newest first in `seen`. -/
def caseValues : Nat → List Expr → Parse (List Expr)
  | 0, _ => giveUp .tooDeep
  | n + 1, seen => do
    let v ← ternary n
    if ← at? .kwOr then
      advance
      caseValues n (v :: seen)
    else return (v :: seen).reverse

mutual

/-- A statement. Gives up, without an error, on an empty one. -/
def statement : Nat → Parse Stmt
  | 0 => giveUp .tooDeep
  | n + 1 => do
    let t ← cur
    match t.kind with
    | .kwFunction => advance; function n t.pos none
    | .kwIf => advance; branch n t.pos
    | .kwWhile =>
      advance
      let test ← condition n
      let body ← body n
      return .loop t.pos none test none body false
    | .kwFor => advance; forLoop n t.pos
    | .kwDo =>
      advance
      let body ← body n
      expect .kwWhile
      let test ← condition n
      let _ ← accept .semicolon
      return .loop t.pos none test none body true
    | .kwSwitch => advance; switch n t.pos false
    | .kwSwitchStr => advance; switch n t.pos true
    | .kwBreak =>
      advance
      let _ ← accept .semicolon
      return .breakLoop t.pos
    | .kwContinue =>
      advance
      let _ ← accept .semicolon
      return .continueLoop t.pos
    | .kwReturn =>
      advance
      let value ← if ← at? .semicolon then pure none else attempt (expression n)
      let _ ← accept .semicolon
      return .ret t.pos value
    | .kwPackage => giveUp .nestedPackage
    | .semicolon => advance; failure
    | _ =>
      let x ← expression n
      let _ ← accept .semicolon
      return .expr t.pos x

/-- What follows `function`: a name, perhaps in a namespace, parameters and a body. -/
def function : Nat → Position → Option Text → Parse Stmt
  | 0, _, _ => giveUp .tooDeep
  | n + 1, pos, package => do
    let first ← ident "function name"
    let (ns, name) ← if ← at? .colonColon then do
        advance
        pure (some first, ← ident "function name after ::")
      else pure (none, first)
    expect .lparen
    let params ← parameters n []
    unless ← at? .lbrace do giveUpExpected "\x7b after function header"
    let body ← block n
    return .func pos name ns package params body

/-- What follows `if`. -/
def branch : Nat → Position → Parse Stmt
  | 0, _ => giveUp .tooDeep
  | n + 1, pos => do
    let test ← condition n
    let whenTrue ← body n
    if ← at? .kwElse then
      advance
      let whenFalse ← body n
      return .branch pos test whenTrue (some whenFalse)
    else return .branch pos test whenTrue none

/-- What follows `for`: three parts in parentheses, each of which may be missing, and a body. -/
def forLoop : Nat → Position → Parse Stmt
  | 0, _ => giveUp .tooDeep
  | n + 1, pos => do
    expect .lparen
    let start ← if ← at? .semicolon then pure none else attempt (expression n)
    let _ ← accept .semicolon
    let t ← cur
    let test ← if t.kind == .semicolon then pure (some (.int t.pos 1)) else attempt (expression n)
    let _ ← accept .semicolon
    let next ← if ← at? .rparen then pure none else attempt (expression n)
    expect .rparen
    match test with
    | none => failure
    | some test =>
      let body ← body n
      return .loop pos start test next body false

/-- What follows `switch`. -/
def switch : Nat → Position → Bool → Parse Stmt
  | 0, _, _ => giveUp .tooDeep
  | n + 1, pos, textual => do
    let subject ← condition n
    expect .lbrace
    let (cases, default?) ← switchCases n [] none
    let _ ← accept .rbrace
    match Stmt.ofSwitch? pos textual subject cases default? with
    | some s => return s
    | none => failure

/-- The cases of a `switch`, newest first in `seen`; the last default counts. -/
def switchCases : Nat → List SwitchCase → Option (List Stmt) →
    Parse (List SwitchCase × Option (List Stmt))
  | 0, _, _ => giveUp .tooDeep
  | n + 1, seen, default? => do
    let t ← cur
    match t.kind with
    | .rbrace => return (seen.reverse, default?)
    | .eof => return (seen.reverse, default?)
    | .kwCase =>
      advance
      let values ← caseValues n []
      expect .colon
      let body ← caseBody n []
      switchCases n (⟨t.pos, values, body⟩ :: seen) default?
    | .kwDefault =>
      advance
      expect .colon
      let body ← caseBody n []
      switchCases n seen (some body)
    | _ => giveUpExpected "case or default in switch"

/-- The statements under a case, newest first in `seen`. They end at the first mistake. -/
def caseBody : Nat → List Stmt → Parse (List Stmt)
  | 0, _ => giveUp .tooDeep
  | n + 1, seen => do
    let k ← kind
    if k == .kwCase || k == .kwDefault || k == .rbrace || k == .eof then return seen.reverse
    else
      let before ← errorCount
      let seen := (← attempt (statement n)).toList ++ seen
      if before < (← errorCount) then return seen.reverse else caseBody n seen

/-- A block in braces, or a single statement. -/
def body : Nat → Parse (List Stmt)
  | 0 => giveUp .tooDeep
  | n + 1 => do
    if ← at? .lbrace then block n else return (← attempt (statement n)).toList

/-- A block in braces. -/
def block : Nat → Parse (List Stmt)
  | 0 => giveUp .tooDeep
  | n + 1 => do
    advance
    let stmts ← blockTail n []
    let _ ← accept .rbrace
    return stmts

/-- The statements of a block, newest first in `seen`. -/
def blockTail : Nat → List Stmt → Parse (List Stmt)
  | 0, _ => giveUp .tooDeep
  | n + 1, seen => do
    let k ← kind
    if k == .rbrace || k == .eof then return seen.reverse
    else
      let before ← errorCount
      let seen := (← attempt (statement n)).toList ++ seen
      if before < (← errorCount) then modify ParseState.recover
      blockTail n seen

end

/-- The functions of a package, newest first in `seen`, up to the closing brace. Functions in
front of a mistake are kept. -/
def packageTail : Nat → Text → List Stmt → Parse (List Stmt)
  | 0, _, _ => giveUp .tooDeep
  | n + 1, package, seen => do
    let t ← cur
    if t.kind == .rbrace || t.kind == .eof then
      let _ ← accept .rbrace
      skip? .semicolon
      return seen.reverse
    else if t.kind == .kwFunction then
      advance
      match ← attempt (function n t.pos (some package)) with
      | some f => packageTail n package (f :: seen)
      | none => return seen.reverse
    else
      complain (.onlyFunctions package)
      return seen.reverse

/-- What follows `package`: a name and functions in braces. -/
def package (n : Nat) : Parse (List Stmt) := do
  let name ← ident "package name"
  expect .lbrace
  packageTail n name []

/-- The statements of a source, newest first in `seen`. -/
def programTail : Nat → List Stmt → Parse (List Stmt)
  | 0, _ => giveUp .tooDeep
  | n + 1, seen => do
    let k ← kind
    if k == .eof then return seen.reverse
    else
      let before ← errorCount
      let more ← if k == .kwPackage then do
          advance
          pure ((← attempt (package n)).getD []).reverse
        else if k == .rbrace then do
          complain .strayBrace
          advance
          pure []
        else pure (← attempt (statement n)).toList
      if before < (← errorCount) then modify ParseState.recover
      programTail n (more ++ seen)

end Parse

/-- A nesting bound that no source of that many tokens exceeds. -/
def ParseState.depth (s : ParseState) : Nat := 16 * (s.rest.length + 4)

/-- The statements of a source, and all errors in it. -/
def parseProgram (source : Text) : List Stmt × List ParseError :=
  let s := ParseState.start source
  let (stmts, s) := Parse.run (Parse.programTail s.depth []) s
  (stmts.getD [], s.report)

/-- The expression a source starts with, and the errors found on the way. -/
def parseExpression (source : Text) : Option Expr × List ParseError :=
  let s := ParseState.start source
  let (x, s) := Parse.run (Parse.expression s.depth) s
  (x, s.report)

end ConsoleScript
