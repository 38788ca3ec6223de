import ConsoleScript.Text.Quoted

/-!
# Flags

Arguments of a command may start with flags: `-name` or `--name`, with a value behind `=` or, if the
flag is not a switch, in the next argument. The first argument that is no flag ends them, and so does
`--`, which is dropped.
-/

namespace ConsoleScript.Cli

inductive FlagValue where
  | switch (on : Bool)
  | text (t : Text)
  deriving DecidableEq, Repr

/-- A flag of a command, with its value when it is not given. -/
structure Flag where
  name : Text
  help : Text
  default : FlagValue
  deriving DecidableEq, Repr

inductive FlagError where
  /-- The user asked what flags there are. -/
  | help
  | malformed (arg : Text)
  | unknown (name : Text)
  | noValue (name : Text)
  | notTruth (value name : Text)
  deriving DecidableEq, Repr

def FlagError.message? : FlagError → Option Text
  | .help => none
  | .malformed arg => some (Text.ofString "bad flag syntax: " ++ arg)
  | .unknown name => some (Text.ofString "flag provided but not defined: -" ++ name)
  | .noValue name => some (Text.ofString "flag needs an argument: -" ++ name)
  | .notTruth value name => some (Text.ofString "invalid boolean value " ++ Text.quote value
      ++ Text.ofString " for -" ++ name ++ Text.ofString ": parse error")

/-- The flags that were given, the last one first, and the other arguments. -/
structure Flags where
  given : List (Text × FlagValue) := []
  args : List Text := []
  deriving DecidableEq, Repr

def truths : List Text := ["1", "t", "T", "TRUE", "true", "True"]

def falsehoods : List Text := ["0", "f", "F", "FALSE", "false", "False"]

def truth? (t : Text) : Option Bool :=
  if truths.contains t then some true else if falsehoods.contains t then some false else none

/-- The name of a flag, with the value behind `=` if there is one. -/
structure FlagArg where
  name : Text
  value : Option Text
  deriving DecidableEq, Repr

/-- An argument, as far as flags go. -/
inductive ArgShape where
  | plain
  | lastFlag
  | malformed
  | flag (f : FlagArg)
  deriving DecidableEq, Repr

/-- What an argument looks like. -/
def ArgShape.of : Text → ArgShape
  | 0x2D :: 0x2D :: [] => .lastFlag
  | 0x2D :: 0x2D :: name => named name
  | 0x2D :: b :: name => named (b :: name)
  | _ => .plain
where
  /-- The flag with a name and possibly a value. -/
  named (t : Text) : ArgShape :=
    if t.isEmpty || t.head? == some 0x2D || t.head? == some 0x3D then .malformed
    else match Text.cut? 0x3D t with
      | some (name, value) => .flag ⟨name, some value⟩
      | none => .flag ⟨t, none⟩

def Flag.find (flags : List Flag) (name : Text) : Except FlagError Flag :=
  match flags.find? (·.name == name) with
  | some f => .ok f
  | none =>
    .error (if name == Text.ofString "help" || name == Text.ofString "h" then .help
      else .unknown name)

/-- Reads the flags at the start of arguments. -/
def Flags.parse (flags : List Flag) (given : List (Text × FlagValue)) :
    List Text → Except FlagError Flags
  | [] => .ok ⟨given, []⟩
  | arg :: rest =>
    match ArgShape.of arg with
    | .plain => .ok ⟨given, arg :: rest⟩
    | .lastFlag => .ok ⟨given, rest⟩
    | .malformed => .error (.malformed arg)
    | .flag f => do
      match (← Flag.find flags f.name).default, f.value with
      | .switch _, none => parse flags ((f.name, .switch true) :: given) rest
      | .switch _, some v =>
        match truth? v with
        | some b => parse flags ((f.name, .switch b) :: given) rest
        | none => .error (.notTruth v f.name)
      | .text _, some v => parse flags ((f.name, .text v) :: given) rest
      | .text _, none =>
        match rest with
        | v :: rest => parse flags ((f.name, .text v) :: given) rest
        | [] => .error (.noValue f.name)

def Flags.switch (given : Flags) (f : Flag) : Bool :=
  match (given.given.lookup f.name).getD f.default with
  | .switch on => on
  | .text _ => false

def Flags.text (given : Flags) (f : Flag) : Text :=
  match (given.given.lookup f.name).getD f.default with
  | .switch _ => []
  | .text t => t

def Flag.defaultText (f : Flag) : Text :=
  match f.default with
  | .switch on => if on then Text.ofString " (default true)" else []
  | .text t =>
    if t.isEmpty then [] else Text.ofString " (default " ++ Text.quote t ++ Text.ofString ")"

/-- Describes a flag. The text for a switch with a short name stands on the same line. -/
def Flag.describe (f : Flag) : Text :=
  let kind : Text := match f.default with
    | .switch _ => []
    | .text _ => Text.ofString " string"
  let title := Text.ofString "  -" ++ f.name ++ kind
  let gap : Text := if title.length ≤ 4 then [0x09] else Text.ofString "\n    \t"
  title ++ gap ++ f.help ++ f.defaultText ++ [0x0A]

/-- Describes flags, in the order of their names. -/
def Flag.describeAll (flags : List Flag) : Text :=
  (flags.mergeSort fun f g => Text.le f.name g.name).flatMap Flag.describe

def Flag.usage (command : Text) (flags : List Flag) : Text :=
  Text.ofString "Usage of " ++ command ++ Text.ofString ":\n" ++ describeAll flags

end ConsoleScript.Cli
