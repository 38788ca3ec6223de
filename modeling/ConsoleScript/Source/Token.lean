import ConsoleScript.Text.Quoted

/-!
# Tokens

A source is a sequence of tokens. Each kind has a name, which messages and listings use; each
token remembers its spelling and where it starts.
-/

namespace ConsoleScript

/-- Where something starts: the byte offset, and line and column counted from one. -/
structure Position where
  offset : Nat
  line : Nat
  column : Nat
  deriving DecidableEq, Repr, Inhabited

inductive TokenKind where
  | eof | error | integer | float | string | tagString | ident | localVar | globalVar | kwIf
  | kwElse | kwWhile | kwFor | kwDo | kwBreak | kwContinue | kwReturn | kwFunction | kwPackage
  | kwNew | kwDatablock | kwSwitch | kwSwitchStr | kwCase | kwOr | kwDefault | kwTrue | kwFalse
  | kwSpc | kwTab | kwNl | plus | minus | star | slash | percent | caret | amp | bar | tilde
  | bang | lt | gt | le | ge | eq | ne | strEq | strNe | andAnd | orOr | shl | shr | assign
  | plusEq | minusEq | starEq | slashEq | percentEq | ampEq | barEq | caretEq | shlEq | shrEq
  | plusPlus | minusMinus | at | question | colon | colonColon | comma | semicolon | dot
  | lparen | rparen | lbracket | rbracket | lbrace | rbrace
  deriving DecidableEq, Repr, Inhabited

namespace TokenKind

/-- Every kind, in numbering order. -/
def all : List TokenKind := [
  .eof, .error, .integer, .float, .string, .tagString, .ident, .localVar, .globalVar, .kwIf,
  .kwElse, .kwWhile, .kwFor, .kwDo, .kwBreak, .kwContinue, .kwReturn, .kwFunction, .kwPackage,
  .kwNew, .kwDatablock, .kwSwitch, .kwSwitchStr, .kwCase, .kwOr, .kwDefault, .kwTrue, .kwFalse,
  .kwSpc, .kwTab, .kwNl, .plus, .minus, .star, .slash, .percent, .caret, .amp, .bar, .tilde,
  .bang, .lt, .gt, .le, .ge, .eq, .ne, .strEq, .strNe, .andAnd, .orOr, .shl, .shr, .assign,
  .plusEq, .minusEq, .starEq, .slashEq, .percentEq, .ampEq, .barEq, .caretEq, .shlEq, .shrEq,
  .plusPlus, .minusMinus, .at, .question, .colon, .colonColon, .comma, .semicolon, .dot,
  .lparen, .rparen, .lbracket, .rbracket, .lbrace, .rbrace]

/-- The name of a kind, which for words and operators is their spelling. -/
def name : TokenKind → Text
  | .eof => "EOF"
  | .error => "ERROR"
  | .integer => "INTEGER"
  | .float => "FLOAT"
  | .string => "STRING"
  | .tagString => "TAGSTRING"
  | .ident => "IDENT"
  | .localVar => "LOCALVAR"
  | .globalVar => "GLOBALVAR"
  | .kwIf => "if"
  | .kwElse => "else"
  | .kwWhile => "while"
  | .kwFor => "for"
  | .kwDo => "do"
  | .kwBreak => "break"
  | .kwContinue => "continue"
  | .kwReturn => "return"
  | .kwFunction => "function"
  | .kwPackage => "package"
  | .kwNew => "new"
  | .kwDatablock => "datablock"
  | .kwSwitch => "switch"
  | .kwSwitchStr => "switch$"
  | .kwCase => "case"
  | .kwOr => "or"
  | .kwDefault => "default"
  | .kwTrue => "true"
  | .kwFalse => "false"
  | .kwSpc => "SPC"
  | .kwTab => "TAB"
  | .kwNl => "NL"
  | .plus => "+"
  | .minus => "-"
  | .star => "*"
  | .slash => "/"
  | .percent => "%"
  | .caret => "^"
  | .amp => "&"
  | .bar => "|"
  | .tilde => "~"
  | .bang => "!"
  | .lt => "<"
  | .gt => ">"
  | .le => "<="
  | .ge => ">="
  | .eq => "=="
  | .ne => "!="
  | .strEq => "$="
  | .strNe => "!$="
  | .andAnd => "&&"
  | .orOr => "||"
  | .shl => "<<"
  | .shr => ">>"
  | .assign => "="
  | .plusEq => "+="
  | .minusEq => "-="
  | .starEq => "*="
  | .slashEq => "/="
  | .percentEq => "%="
  | .ampEq => "&="
  | .barEq => "|="
  | .caretEq => "^="
  | .shlEq => "<<="
  | .shrEq => ">>="
  | .plusPlus => "++"
  | .minusMinus => "--"
  | .at => "@"
  | .question => "?"
  | .colon => ":"
  | .colonColon => "::"
  | .comma => ","
  | .semicolon => ";"
  | .dot => "."
  | .lparen => "("
  | .rparen => ")"
  | .lbracket => "["
  | .rbracket => "]"
  | .lbrace => "\x7b"
  | .rbrace => "\x7d"

/-- The name of the kind with a number; numbers without a kind are named by themselves. -/
def nameOfNumber (n : Int) : Text :=
  match if n < 0 then none else all[n.toNat]? with
  | some k => k.name
  | none => Text.ofString "Token(" ++ Text.ofInt n ++ [0x29]

/-- Reserved words, in any letter case. -/
def keywords : List TokenKind := [
  .kwIf, .kwElse, .kwWhile, .kwFor, .kwDo, .kwBreak, .kwContinue, .kwReturn, .kwFunction,
  .kwPackage, .kwNew, .kwDatablock, .kwSwitch, .kwCase, .kwOr, .kwDefault, .kwTrue, .kwFalse]

/-- The words that join texts, spelled in capitals only. -/
def joiners : List TokenKind := [.kwSpc, .kwTab, .kwNl]

/-- Operators and delimiters, longer spellings first. -/
def operators : List TokenKind := [
  .strNe, .shlEq, .shrEq, .le, .ge, .eq, .ne, .strEq, .andAnd, .orOr, .shl, .shr, .plusEq,
  .minusEq, .starEq, .slashEq, .percentEq, .ampEq, .barEq, .caretEq, .plusPlus, .minusMinus,
  .colonColon, .plus, .minus, .star, .slash, .percent, .caret, .amp, .bar, .tilde, .bang, .lt,
  .gt, .assign, .at, .question, .colon, .comma, .semicolon, .dot, .lparen, .rparen, .lbracket,
  .rbracket, .lbrace, .rbrace]

def isWord (k : TokenKind) : Bool :=
  k == .kwSwitchStr || keywords.contains k || joiners.contains k

end TokenKind

/-- A token: its kind, its spelling (for a quoted string the text it stands for, for an error the
message), and where it starts. -/
structure Token where
  kind : TokenKind
  literal : Text
  pos : Position
  deriving DecidableEq, Repr, Inhabited

namespace Token

def shownBytes : Nat := 20

def describe (t : Token) : Text :=
  match t.kind with
  | .eof => "EOF"
  | .error => Text.ofString "ERROR(" ++ t.literal ++ [0x29]
  | k =>
    if t.literal.length > shownBytes then
      k.name ++ [0x28] ++ Text.quote (t.literal.take shownBytes) ++ Text.ofString "...)"
    else k.name ++ [0x28] ++ Text.quote t.literal ++ [0x29]

/-- A token as a message mentions it: its spelling, or the name of its kind when that is empty. -/
def mention (t : Token) : Text :=
  if t.literal.isEmpty then t.kind.name else Text.quote t.literal

end Token
end ConsoleScript
