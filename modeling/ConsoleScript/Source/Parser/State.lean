import ConsoleScript.Source.Lexer
import ConsoleScript.Source.Tree

/-!
# Parser state

A parser walks over the tokens of a source with one token of lookahead and collects errors. An
error token is not seen by the grammar: its message is recorded when the token behind it comes
into view.
-/

namespace ConsoleScript

inductive ParseCause where
  /-- An error token. -/
  | lexical (message : Text)
  /-- Something else than `what` was found. -/
  | expected (what : Text) (found : Token)
  | unexpected (found : Token)
  | strayBrace
  | callParen (ns name : Text)
  | onlyFunctions (package : Text)
  | nestedPackage
  | assignTarget
  | variableIndexed (name : Text)
  | fieldIndexed (name : Text)
  | notIndexable
  | badNumber (literal : Text)
  /-- The grammar was nested deeper than the parser follows. -/
  | tooDeep
  deriving DecidableEq, Repr

/-- A cause with the line it was noticed on. -/
structure ParseError where
  line : Nat
  cause : ParseCause
  deriving DecidableEq, Repr

def ParseCause.message : ParseCause → Text
  | .lexical m => m
  | .expected what found =>
    Text.ofString "expected " ++ what ++ Text.ofString ", got " ++ found.mention
  | .unexpected found => Text.ofString "unexpected " ++ found.mention
  | .strayBrace => "unexpected \x7d"
  | .callParen ns name =>
    Text.ofString "expected ( after " ++ ns ++ Text.ofString "::" ++ name
  | .onlyFunctions package =>
    Text.ofString "only functions may be declared in package " ++ package
  | .nestedPackage => "package blocks must appear at file scope"
  | .assignTarget => "invalid assignment target"
  | .variableIndexed name =>
    Text.ofString "variable " ++ name ++ Text.ofString " is already indexed"
  | .fieldIndexed name => Text.ofString "field " ++ name ++ Text.ofString " is already indexed"
  | .notIndexable => "only variables and fields can be indexed"
  | .badNumber literal => Text.ofString "invalid number " ++ Text.quote literal
  | .tooDeep => "nested too deeply"

def ParseError.message (e : ParseError) : Text :=
  Text.ofString "line " ++ Text.ofNat e.line ++ Text.ofString ": " ++ e.cause.message

/-- A token with the lexical error in front of it. -/
structure Upcoming where
  note : Option ParseError
  token : Token
  deriving DecidableEq, Repr

namespace Upcoming

/-- The tokens as the grammar sees them. Of two error tokens in a row the second one is seen. -/
def ofTokens : List Token → List Upcoming
  | [] => []
  | t :: ts =>
    if t.kind == .error then
      match ts with
      | [] => []
      | u :: us => ⟨some ⟨t.pos.line, .lexical t.literal⟩, u⟩ :: ofTokens us
    else ⟨none, t⟩ :: ofTokens ts

end Upcoming

/-- The state of a parser: the current token, the tokens behind it, and the errors so far, newest
first. -/
structure ParseState where
  cur : Token
  rest : List Upcoming
  errors : List ParseError
  deriving DecidableEq, Repr

namespace ParseState

/-- The errors with a lexical note added. -/
def noted (errors : List ParseError) : Option Upcoming → List ParseError
  | some ⟨some e, _⟩ => e :: errors
  | _ => errors

def start (source : Text) : ParseState :=
  match Upcoming.ofTokens (Token.all source) with
  | [] => ⟨⟨.eof, [], ⟨0, 1, 0⟩⟩, [], []⟩
  | u :: us => ⟨u.token, us, noted (noted [] (some u)) us.head?⟩

/-- Moves to the next token. The end of the source is never left. -/
def next (s : ParseState) : ParseState :=
  match s.rest with
  | [] => s
  | u :: us => ⟨u.token, us, noted s.errors us.head?⟩

def at? (s : ParseState) (k : TokenKind) : Bool := s.cur.kind == k

def peek (s : ParseState) : Token := (s.rest.head?.map (·.token)).getD s.cur

/-- Records an error on the line of the current token. -/
def fail (s : ParseState) (cause : ParseCause) : ParseState :=
  { s with errors := ⟨s.cur.pos.line, cause⟩ :: s.errors }

/-- Skips to the end of a statement: behind the next semicolon, or to a closing brace. -/
def recoverFrom (cur : Token) (errors : List ParseError) : List Upcoming → ParseState
  | [] => ⟨cur, [], errors⟩
  | u :: us =>
    if cur.kind == .eof || cur.kind == .rbrace then ⟨cur, u :: us, errors⟩
    else if cur.kind == .semicolon then ⟨u.token, us, noted errors us.head?⟩
    else recoverFrom u.token (noted errors us.head?) us

/-- Skips to the end of the current statement. -/
def recover (s : ParseState) : ParseState := recoverFrom s.cur s.errors s.rest

/-- The errors in the order they were found. -/
def report (s : ParseState) : List ParseError := s.errors.reverse

end ParseState

/-- A parser that may give up; what it consumed and the errors it recorded stay. -/
abbrev Parse := OptionT (StateM ParseState)

namespace Parse

/-- Runs a parser. -/
def run (p : Parse α) (s : ParseState) : Option α × ParseState := StateT.run (OptionT.run p) s

/-- The current token. -/
def cur : Parse Token := do return (← get).cur

/-- The kind of the current token. -/
def kind : Parse TokenKind := do return (← get).cur.kind

def advance : Parse Unit := modify ParseState.next

def complain (cause : ParseCause) : Parse Unit := modify (·.fail cause)

def giveUp (cause : ParseCause) : Parse α := do
  complain cause
  failure

/-- Gives up because something else than `what` was found. -/
def giveUpExpected (what : Text) : Parse α := do giveUp (.expected what (← cur))

def at? (k : TokenKind) : Parse Bool := do return (← get).at? k

/-- Moves over a token of the given kind; on any other one records an error and stays. Says which
of the two happened. -/
def accept (k : TokenKind) : Parse Bool := do
  if ← at? k then
    advance
    return true
  else
    complain (.expected k.name (← cur))
    return false

/-- Moves over a token of the given kind, or gives up. -/
def expect (k : TokenKind) : Parse Unit := do
  unless ← accept k do failure

/-- Moves over a token of the given kind, if it is there. -/
def skip? (k : TokenKind) : Parse Unit := do
  if ← at? k then advance

/-- The result of a parser, or nothing if it gave up; parsing goes on in both cases. -/
def attempt (p : Parse α) : Parse (Option α) := OptionT.mk (some <$> OptionT.run p)

def errorCount : Parse Nat := do return (← get).errors.length

end Parse
end ConsoleScript
