import ConsoleScript.Console.Exec
import ConsoleScript.Docs.Dump
import ConsoleScript.Editor.Analysis
import ConsoleScript.Editor.Cursor
import ConsoleScript.Editor.Uri
import ConsoleScript.Text.Quoted

/-!
# Editor sessions

A session holds a console and the documents that are open in an editor. It answers what can stand
at the cursor, what the word there means and where it is declared, from the documents and from what
is loaded in the console; and it can run a document, which makes its declarations known.
-/

namespace ConsoleScript

structure Document where
  text : Text
  symbols : List Symbol

/-- Documents and the console behind them. -/
structure EditorSession where
  console : Console
  /-- The open documents, in the order of their addresses. -/
  documents : List (Text × Document) := []
  /-- Has the session been shut down? The console cannot be asked then. -/
  stopped : Bool := false

inductive EditorError where
  | stopped
  | fault (f : Fault)
  | unknownCommand (name : Text)
  | argumentCount
  | argumentKind
  | notOpen (uri : Text)
  | script (e : ScriptError)

def execCommand : Text := "torque.exec"

def EditorError.message : EditorError → Text
  | .stopped => "runtime worker stopped"
  | .fault f => f.message
  | .unknownCommand name => Text.ofString "unknown command " ++ Text.quote name
  | .argumentCount => execCommand ++ Text.ofString " takes a document URI"
  | .argumentKind => execCommand ++ Text.ofString ": argument is not a URI"
  | .notOpen uri => uri ++ Text.ofString " is not open"
  | .script e => e.message

inductive CompletionKind where
  | function | variable | cls
  deriving DecidableEq, Repr

def CompletionKind.number : CompletionKind → Nat
  | .function => 3
  | .variable => 6
  | .cls => 7

/-- Something that can stand at the cursor. -/
structure Completion where
  label : Text
  kind : CompletionKind
  detail : Text
  deriving DecidableEq, Repr

structure Location where
  uri : Text
  line : Nat
  deriving DecidableEq, Repr

/-- What running a document gave: its result and what it printed. -/
structure Execution where
  result : Text
  output : Text
  deriving DecidableEq, Repr

/-- The message that shows what a document printed. There is none if it printed nothing. -/
def Execution.message? (x : Execution) : Option Text :=
  if x.output.isEmpty then none
  else some (x.output.reverse.dropWhile (· == 0x0A)).reverse

namespace Completion

/-- Those whose labels start with the given text, without regard to letter case. Of several with
the same label the first one counts. -/
def select (start : Text) (all : List Completion) : List Completion :=
  let key (c : Completion) : Text := Text.lower c.label
  (all.filter fun c => Text.startsWith (key c) (Text.lower start)).foldl (fun chosen c =>
    if chosen.any fun d => key d == key c then chosen else chosen ++ [c]) []

/-- The greatest number of completions in an answer. -/
def limit : Nat := 100

end Completion

namespace EditorSession

/-! ## Documents -/

/-- Puts a document in its place, where it replaces the one with the same address. -/
def insertDocument (uri : Text) (d : Document) : List (Text × Document) → List (Text × Document)
  | [] => [(uri, d)]
  | (u, e) :: rest =>
    if u == uri then (uri, d) :: rest
    else if Text.le uri u then (uri, d) :: (u, e) :: rest
    else (u, e) :: insertDocument uri d rest

/-- Opens a document, or replaces its text; gives the diagnostics. -/
def update (s : EditorSession) (uri text : Text) : List Diagnostic × EditorSession :=
  let a := analyze (Uri.toPath uri) text
  (a.diagnostics, { s with documents := insertDocument uri ⟨text, a.symbols⟩ s.documents })

def close (s : EditorSession) (uri : Text) : EditorSession :=
  { s with documents := s.documents.filter fun d => d.1 != uri }

def text? (s : EditorSession) (uri : Text) : Option Text := (s.documents.lookup uri).map (·.text)

def findSymbol? (s : EditorSession) (word : Text) : Option (Text × Symbol) :=
  s.documents.findSome? fun (uri, d) =>
    (d.symbols.find? fun sym => Text.equalFold sym.qualified word).map fun sym => (uri, sym)

/-! ## Completion -/

/-- All that can be called, and all classes. What a document declares comes first. -/
def callables (s : EditorSession) : List Completion :=
  let c := s.console
  let declared := s.documents.flatMap fun (_, d) =>
    d.symbols.map fun sym => ⟨sym.qualified, .function, sym.signature⟩
  let classes := (c.classes.texts c.names).map fun t => ⟨t, .cls, "class"⟩
  let known := (c.docs.filter (·.package.isEmpty)).flatMap fun d =>
    d.entries.map fun e =>
      { label := if d.name.isEmpty then e.name else d.name ++ Text.ofString "::" ++ e.name
        kind := .function
        detail := if e.usage.isEmpty then e.kind.name else e.usage : Completion }
  declared ++ classes ++ known

/-- The global variables. -/
def globals (s : EditorSession) : List Completion :=
  let c := s.console
  (c.scopes.matching c.names .globals "*").map fun (_, v) =>
    ⟨c.names.text v.name, .variable, "global"⟩

/-- What can stand for a part of a word, in the order of the labels. Local variables exist only
while a function runs. -/
def candidates (s : EditorSession) (start : Text) : List Completion :=
  let all := match start with
    | 0x24 :: _ => s.globals
    | 0x25 :: _ => []
    | _ => s.callables
  ((Completion.select start all).mergeSort fun a b => Text.le a.label b.label).take Completion.limit

/-- What can stand at a position. There is no answer without a part of a word there. -/
def complete (s : EditorSession) (uri : Text) (line column : Nat) :
    Except EditorError (Option (List Completion)) :=
  match s.text? uri with
  | none => .ok none
  | some text =>
    let start := Cursor.fragment text line column
    if start.isEmpty then .ok none
    else if s.stopped then .error .stopped
    else .ok (some (s.candidates start))

/-! ## Meaning of a word -/

/-- Runs something in the console. A fault gives nothing. -/
def query {α : Type} (s : EditorSession) (act : Run α) : Option α × EditorSession :=
  if s.stopped then (none, s)
  else match act s.console with
    | .ok a c => (some a, { s with console := c })
    | .error _ c => (none, { s with console := c })

def findFunction (word : Text) : Run (Option Entry) := do
  let (ns, name) := qualifiedParts word
  let c ← get
  match if ns.isEmpty then some globalSpace else c.findSpace? ns [] with
  | none => return none
  | some space =>
    let e ← Run.lookupText space name
    return (e.bind ((← get).spaces.entries[·]?)).filter fun e => !e.body.isGroup
where
  /-- The namespace and the name. A word without `::` has no namespace. -/
  qualifiedParts (word : Text) : Text × Text :=
    match lastScope? word with
    | some (ns, name) => (ns, name)
    | none => ([], word)
  /-- What stands before and behind the last `::`. -/
  lastScope? : Text → Option (Text × Text)
    | [] => none
    | b :: t =>
      match lastScope? t with
      | some (ns, name) => some (b :: ns, name)
      | none => (Text.dropStart? "::" (b :: t)).map fun name => ([], name)

def describeEntry (c : Console) (e : Entry) : Text :=
  let usage := if e.usage.isEmpty then [] else
    Text.ofString "\n\n```\n" ++ e.usage ++ Text.ofString "\n```"
  let place := match e.body with
    | .script block _ line =>
      Text.ofString "\n\n" ++ (c.blocks.unit block).name ++ Text.ofString ":" ++ Text.ofNat line.toNat
    | _ => []
  Text.ofString "**" ++ c.spaces.qualifiedName c.names e ++ Text.ofString "** [" ++ e.body.kind.name
    ++ Text.ofString "]" ++ usage ++ place

def describeClass (c : Console) (word : Text) : Text :=
  let parent := match (c.findSpace? word []).bind fun id => (c.spaces.space id).parent with
    | some p => Text.ofString " : " ++ c.spaces.describe c.names p
    | none => []
  Text.ofString "**class " ++ word ++ Text.ofString "**" ++ parent

def describeObject (c : Console) (r : ObjectRef) : Text :=
  let o := c.objects.get r
  Text.ofString "**" ++ c.names.text? o.name ++ Text.ofString "** (" ++ Text.ofNat o.id.toNat
    ++ Text.ofString ") : " ++ c.names.text o.cls

/-- What a word means: a global variable with its value, a class, a function, an object, or a
function that only a document declares. -/
def describe (s : EditorSession) (word : Text) : Run (Option Text) := do
  let c ← get
  if word.head? == some 0x24 then
    return ((c.scopes.find? .globals (c.names.find? word)).bind c.scopes.var?).map fun v =>
      Text.ofString "**" ++ word ++ Text.ofString "** = `" ++ Text.expandEscape v.value.toText
        ++ Text.ofString "`"
  else if c.isClass word then return some (describeClass c word)
  else
    match ← findFunction word with
    | some e => return some (describeEntry (← get) e)
    | none =>
      let c ← get
      match c.findObject? word with
      | some r => return some (describeObject c r)
      | none => return (s.findSymbol? word).map fun (_, sym) =>
          Text.ofString "```torquescript\n" ++ sym.signature ++ Text.ofString "\n```"

/-- The word at a position of an open document, if there is one. -/
def word? (s : EditorSession) (uri : Text) (line column : Nat) : Option Text :=
  (s.text? uri).bind fun text =>
    let w := Cursor.word text line column
    if w.isEmpty then none else some w

def hover (s : EditorSession) (uri : Text) (line column : Nat) : Option Text × EditorSession :=
  match s.word? uri line column with
  | none => (none, s)
  | some w =>
    let (answer, s) := s.query (s.describe w)
    (answer.join, s)

/-- Where a word is declared: in an open document, or else in the source of a script function. -/
def locate (s : EditorSession) (word : Text) : Run (Option Location) := do
  match s.findSymbol? word with
  | some (uri, sym) => return some ⟨uri, sym.line - 1⟩
  | none =>
    match ← findFunction word with
    | some e =>
      match e.body with
      | .script block _ line =>
        return some ⟨Uri.ofPath ((← get).blocks.unit block).name, line.toNat - 1⟩
      | _ => return none
    | none => return none

/-- Where the word at a position is declared. There is no answer without a word there. -/
def definition (s : EditorSession) (uri : Text) (line column : Nat) :
    Option (Option Location) × EditorSession :=
  match s.word? uri line column with
  | none => (none, s)
  | some w => s.query (s.locate w)

/-! ## Commands -/

def execDocument (s : EditorSession) (uri : Text) : Except EditorError Execution × EditorSession :=
  match s.text? uri with
  | none => (.error (.notOpen uri), s)
  | some text =>
    if s.stopped then (.error .stopped, s)
    else
      let printed := s.console.printed
      let back (c : Console) : EditorSession := { s with console := { c with printed := printed } }
      match Run.eval Run.plenty text (Uri.toPath uri) s.console.clearOutput with
      | .ok (.ok result) c => (.ok ⟨result, c.output⟩, back c)
      | .ok (.error e) c => (.error (.script e), back c)
      | .error f c => (.error (.fault f), back c)

/-- Carries out a command. The only one takes the address of a document to run; an argument that
is no text is `none`. -/
def command (s : EditorSession) (name : Text) (args : List (Option Text)) :
    Except EditorError Execution × EditorSession :=
  if name != execCommand then (.error (.unknownCommand name), s)
  else match args with
    | [some uri] => s.execDocument uri
    | [none] => (.error .argumentKind, s)
    | _ => (.error .argumentCount, s)

def shutdown (s : EditorSession) : EditorSession := { s with stopped := true }

def triggers : List Text := [":", "$", "%"]

def version : Text := "0.1.0"

end EditorSession
end ConsoleScript
