import ConsoleScript.Source.Token

/-!
# Parsed scripts

A script is a list of statements over expressions. Every node carries the position of the token
that introduced it. `switch` has no node of its own: it is parsed into a chain of branches.
-/

namespace ConsoleScript

inductive ArithOp where
  | add | sub | mul | div
  deriving DecidableEq, Repr

inductive WordOp where
  | mod | bitAnd | bitOr | bitXor | shl | shr
  deriving DecidableEq, Repr

inductive CompareOp where
  | eq | ne | lt | gt | le | ge
  deriving DecidableEq, Repr

/-- Connectives that leave their right operand alone when the left one decides. -/
inductive LogicOp where
  | and | or
  deriving DecidableEq, Repr

inductive UnaryOp where
  | neg | not | complement
  deriving DecidableEq, Repr

inductive UpdateOp where
  | arith (op : ArithOp)
  | word (op : WordOp)
  deriving DecidableEq, Repr

def ArithOp.symbol : ArithOp → Text
  | .add => "+"
  | .sub => "-"
  | .mul => "*"
  | .div => "/"

def WordOp.symbol : WordOp → Text
  | .mod => "%"
  | .bitAnd => "&"
  | .bitOr => "|"
  | .bitXor => "^"
  | .shl => "<<"
  | .shr => ">>"

def CompareOp.symbol : CompareOp → Text
  | .eq => "=="
  | .ne => "!="
  | .lt => "<"
  | .gt => ">"
  | .le => "<="
  | .ge => ">="

def LogicOp.symbol : LogicOp → Text
  | .and => "&&"
  | .or => "||"

def UnaryOp.symbol : UnaryOp → Text
  | .neg => "-"
  | .not => "!"
  | .complement => "~"

/-- How the operator of a compound assignment is written on its own. -/
def UpdateOp.symbol : UpdateOp → Text
  | .arith op => op.symbol
  | .word op => op.symbol

/-- What stands between two joined texts. -/
inductive Separator where
  | none | space | tab | newline
  deriving DecidableEq, Repr

def Separator.byte? : Separator → Option UInt8
  | .none => Option.none
  | .space => some 0x20
  | .tab => some 0x09
  | .newline => some 0x0A

/-- How a function is called: by name, on an object, or as the overridden one. -/
inductive CallKind where
  | function | method | parent
  deriving DecidableEq, Repr

mutual

/-- Expressions. -/
inductive Expr where
  /-- A whole number. -/
  | int (pos : Position) (value : Int)
  /-- A number with a fraction, or one too large for an integer. -/
  | float (pos : Position) (value : Float)
  /-- A quoted text; `tagged` tells single quotes from double ones. -/
  | str (pos : Position) (value : Text) (tagged : Bool)
  /-- A bare word used as a value, such as the name of an object. -/
  | word (pos : Position) (value : Text)
  /-- A variable, possibly one element of an array. -/
  | var (pos : Position) (name : Text) (index : Option Expr)
  | assign (pos : Position) (name : Text) (index : Option Expr) (value : Expr)
  | update (pos : Position) (name : Text) (index : Option Expr) (op : UpdateOp) (value : Expr)
  | arith (pos : Position) (op : ArithOp) (left right : Expr)
  | wordArith (pos : Position) (op : WordOp) (left right : Expr)
  | compare (pos : Position) (op : CompareOp) (left right : Expr)
  | logic (pos : Position) (op : LogicOp) (left right : Expr)
  /-- Comparison of texts without regard to letter case. -/
  | textEq (pos : Position) (equal : Bool) (left right : Expr)
  | concat (pos : Position) (left right : Expr) (separator : Separator)
  /-- Two components of an array index. -/
  | indexPair (pos : Position) (left right : Expr)
  | unary (pos : Position) (op : UnaryOp) (operand : Expr)
  | cond (pos : Position) (test whenTrue whenFalse : Expr)
  /-- A call. The first argument of a method call is the receiver. -/
  | call (pos : Position) (name : Text) (ns : Option Text) (kind : CallKind) (args : List Expr)
  /-- A field of an object. -/
  | slot (pos : Position) (object : Expr) (field : Text) (index : Option Expr)
  | slotAssign (pos : Position) (object : Expr) (field : Text) (index : Option Expr) (value : Expr)
  | slotUpdate (pos : Position) (object : Expr) (field : Text) (index : Option Expr)
      (op : UpdateOp) (value : Expr)
  | object (decl : ObjectDecl)

/-- A field set in the body of an object declaration. -/
inductive FieldInit where
  | mk (pos : Position) (field : Text) (index : Option Expr) (value : Expr)

/-- The declaration of an object: its class and name, the object it copies fields from, fields to
set and objects to create inside it. -/
inductive ObjectDecl where
  | mk (pos : Position) (className objectName : Expr) (copyFrom : Option Text) (args : List Expr)
      (datablock : Bool) (fields : List FieldInit) (children : List ObjectDecl)

end

/-- Statements. -/
inductive Stmt where
  | expr (pos : Position) (value : Expr)
  /-- A branch; a missing `else` differs from an empty one. -/
  | branch (pos : Position) (test : Expr) (whenTrue : List Stmt) (whenFalse : Option (List Stmt))
  /-- A loop. `start` runs once, `next` after each round; with `testLast` the first round runs
  untested. -/
  | loop (pos : Position) (start : Option Expr) (test : Expr) (next : Option Expr)
      (body : List Stmt) (testLast : Bool)
  | breakLoop (pos : Position)
  | continueLoop (pos : Position)
  | ret (pos : Position) (value : Option Expr)
  | func (pos : Position) (name : Text) (ns package : Option Text) (params : List Text)
      (body : List Stmt)

end ConsoleScript
