import ConsoleScript.Proofs.Source.Lexing
import ConsoleScript.Proofs.Source.Parsing

/-!
# Assignments as statements

A line that assigns a literal to a variable is parsed as one statement, and a script of such lines
as their statements in order. The one literal that is no expression is positive infinity; a script
with such a line has an error.
-/

namespace ConsoleScript

namespace Parse

variable {s s' : ParseState} {x : Expr} {n : Nat}

/-! ## An operand and what follows it -/

end Parse

/-! ## Literals -/

open ParseState

/-- An operator with its usual spelling. -/
def Token.sign (k : TokenKind) (pos : Position) : Token := ⟨k, k.name, pos⟩

/-- The number a numeral without a sign stands for in a script. -/
def Numeral.expr (n : Numeral) (pos : Position) : Expr :=
  if n.isPlain then .ofInteger ⟨.integer, n.spell, pos⟩ else .float pos (n.reading false).value.1

namespace Literal

def isReadable : Literal → Bool
  | numeral _ n => !(n.reading false).value.2
  | infinity negative => negative
  | quoted _ | nan => true

def placed : Literal → Position → Position → List Token
  | quoted t, first, _ => [⟨.string, Text.scrub t, first⟩]
  | numeral false n, first, _ => [⟨n.kind, n.spell, first⟩]
  | numeral true n, first, last => [.sign .minus first, ⟨n.kind, n.spell, last⟩]
  | nan, first, _ => [⟨.ident, "NaN", first⟩]
  | infinity true, first, last => [.sign .minus first, ⟨.ident, "Inf", last⟩]
  | infinity false, first, last => [.sign .plus first, ⟨.ident, "Inf", last⟩]

/-- The expression of a literal with these positions. -/
def expr : Literal → Position → Position → Expr
  | quoted t, first, _ => .str first (Text.scrub t) false
  | numeral false n, first, _ => n.expr first
  | numeral true n, first, last => (n.expr last).negate first
  | nan, first, _ => .word first "NaN"
  | infinity _, first, last => .unary first .neg (.word last "Inf")

open Parse

variable {ts : List Token} {errors : List ParseError} {n : Nat} {s : ParseState} {pos : Position}

end Literal

/-! ## Rows -/

structure Places where
  name : Position
  sign : Position
  first : Position
  last : Position
  stop : Position

namespace Row

def placed (r : Row) (p : Places) : List Token :=
  ⟨.globalVar, r.name, p.name⟩ :: .sign .assign p.sign ::
    (r.literal.placed p.first p.last ++ [.sign .semicolon p.stop])

def stmt (r : Row) (p : Places) : Stmt :=
  .expr p.name (.assign p.sign r.name none (r.literal.expr p.first p.last))

open Parse

variable {t : Token} {ts : List Token} {errors : List ParseError} {n : Nat}

end Row

/-! ## Programs -/

section Views

variable {ts : List Token} {rest : List (TokenKind × Text)}

end Views

end ConsoleScript
