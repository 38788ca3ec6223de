import ConsoleScript.Cli.Flags
import ConsoleScript.Cli.Prompt
import ConsoleScript.Cbor.CompiledFile
import ConsoleScript.Code.Listing
import ConsoleScript.Config
import ConsoleScript.Console.Exec
import ConsoleScript.Docs.Dump
import ConsoleScript.Prefs.Database

/-!
# Commands

Each command of the program works on a console that is set up for a project. It prints to the output
of that console and complains on a channel of its own, and it ends with a status: zero if all went
well, one for a failure and two for arguments that make no sense.
-/

namespace ConsoleScript.Cli

structure App where
  config : Config
  console : Console
  /-- Is the preference store open? -/
  hasPrefs : Bool := false
  verbose : Bool := false
  /-- Are compiled files used in place of scripts? -/
  useCompiled : Bool := false
  /-- What was complained about, the newest piece first. -/
  complaints : List Text := []
  /-- The identifiers of builds to come. -/
  builds : Nat → Text
  /-- How many builds there were. -/
  built : Nat := 0

inductive CommandError where
  | script (cause : ScriptError)
  | compile (filename : Text) (cause : CompileError)
  | compiled (path : Text) (cause : CompiledFileError)
  | unwritten (name cause : Text)
  | file (cause : FileError)
  | exporting (cause : FileError)
  | listing (cause : DecodeError)

def CommandError.message : CommandError → Text
  | .script cause => cause.message
  | .compile filename cause => cause.message filename
  | .compiled path cause => path ++ Text.ofString ": " ++ cause.message
  | .unwritten name cause =>
    Text.ofString "dso: marshal " ++ name ++ Text.ofString ": " ++ cause
  | .file cause => cause.message
  | .exporting cause => Text.ofString "export variables: " ++ cause.message
  | .listing cause => cause.message

/-- Why the preference store cannot be opened. -/
inductive PrefsError where
  | directory (cause : FileError)
  | unopenable
  | foreign

def PrefsError.message : PrefsError → Text
  | .directory cause => Text.ofString "creating database directory: " ++ cause.message
  | .unopenable => "setting busy timeout: unable to open database file: out of memory (14)"
  | .foreign => "creating table: file is not a database (26)"

abbrev Act := StateM App

abbrev Command := ExceptT CommandError Act

def success : Nat := 0

def failure : Nat := 1

/-- The status for arguments that make no sense. -/
def misuse : Nat := 2

/-! ## Channels and files -/

def print (t : Text) : Act Unit := modify fun a => { a with console := a.console.print t }

def complain (t : Text) : Act Unit := modify fun a => { a with complaints := t :: a.complaints }

def complainLine (t : Text) : Act Unit := complain (t ++ [0x0A])

def files : Act FileTree := return (← get).console.files

def setFiles (t : FileTree) : Act Unit :=
  modify fun a => { a with console := { a.console with files := t } }

/-- Runs something in the console. A fault that nothing contains is dropped. -/
def perform {α : Type} (act : Run α) : Act (Option α) := do
  let a ← get
  match act a.console with
  | .ok x c =>
    set { a with console := c }
    return some x
  | .error _ c =>
    set { a with console := c }
    return none

def orFail {α ε : Type} (wrap : ε → CommandError) : Except ε α → Command α
  | .ok x => pure x
  | .error e => throw (wrap e)

def readFile (path : Text) : Command Text := do orFail .file ((← files).read path)

/-- Carries out a command, and complains if it fails. -/
def reporting (act : Command Unit) : Act Nat := do
  match ← act.run with
  | .ok _ => return success
  | .error e =>
    complainLine (Text.ofString "Error: " ++ e.message)
    return failure

/-! ## Compiled files -/

def isCompiledPath (path : Text) : Bool := Text.equalFold (Path.ext path) CompiledFile.extension

/-- The path as seen from the directory of the project, if it lies below that. -/
def relative (a : App) (path : Text) : Text :=
  match Path.relative? a.config.dir (Path.abs a.console.files.cwdPath path) with
  | some rel => if Text.startsWith rel ".." then path else rel
  | none => path

def freshBuild : Act Text := do
  let a ← get
  set { a with built := a.built + 1 }
  return a.builds a.built

/-- Writes a compiled file, with the directories that lead to it. -/
def writeCompiled (path : Text) (f : CompiledFile) : Command Unit := do
  let data ← orFail (.unwritten f.name) (CompiledFile.Codec.cbor.marshal f)
  setFiles (← orFail .file ((← files).makePath (Path.dir path)))
  setFiles (← orFail .file ((← files).write path data false))

def readCompiled (path : Text) : Command CompiledFile := do
  let data ← readFile path
  orFail (.compiled path) (CompiledFile.decode .cbor data)

def compileFile (path out : Text) (includeSource : Bool) : Command CompiledFile := do
  let source ← readFile path
  let u ← orFail (.compile path) (ConsoleScript.compile source path)
  u.warnings.forM fun w => complainLine w
  let f := CompiledFile.ofUnit u source includeSource (← freshBuild)
  writeCompiled out f
  return f

/-- The unit of a script. A compiled file is used if it was made from the script as it is now, and
written otherwise; it does not matter if that fails. -/
def loadOrCompile (path out : Text) (includeSource : Bool) : Command CodeUnit := do
  let source ← readFile path
  let cached ← try pure (some (← readCompiled out)) catch _ => pure none
  match cached.filter (·.isFrom source) with
  | some f => return f.toUnit
  | none =>
    let u ← orFail (.compile path) (ConsoleScript.compile source path)
    let f := CompiledFile.ofUnit u source includeSource (← freshBuild)
    try writeCompiled out f catch _ => pure ()
    return u

/-! ## Preferences -/

/-- Opens the preference store, which is made if it is missing. -/
def openStore (t : FileTree) (path : Text) : Except PrefsError (PrefStore × FileTree) := do
  let t ← (t.makePath (Path.dir path)).mapError PrefsError.directory
  let t ← (t.write path [] true).mapError fun _ => PrefsError.unopenable
  match t.read path with
  | .error _ => .error .unopenable
  | .ok content =>
    match PrefStore.decode? content with
    | some s => .ok (s, t)
    | none => .error .foreign

/-- Opens the preference store of the project and registers its commands. -/
def openPrefs : Act Unit := do
  let a ← get
  match openStore (← files) a.config.prefsPath with
  | .error e => complainLine (Text.ofString "Warning: preferences unavailable: " ++ e.message)
  | .ok (s, t) =>
    let c := { a.console with files := t, prefs := s }
    set { a with
      hasPrefs := true
      console := c.registerAll globalSpace (Registration.prefs a.config.prefsPattern) }

/-- Writes the preference store back. -/
def closePrefs : Act Unit := do
  let a ← get
  if a.hasPrefs then
    match (← files).write a.config.prefsPath a.console.prefs.encode false with
    | .ok t => setFiles t
    | .error _ => pure ()

def loadPrefs : Act Unit := do
  let a ← get
  if a.hasPrefs then
    let (loaded, c) := a.console.loadPrefs a.config.prefsPattern
    set { a with console := c }
    match loaded with
    | .ok _ => pure ()
    | .error e => complainLine (Text.ofString "Warning: loading preferences: " ++ e.message)

def savePrefs : Act Unit := do
  let a ← get
  if a.hasPrefs then
    let (saved, c) := a.console.savePrefs a.config.prefsPattern
    set { a with console := c }
    match saved with
    | .ok _ => pure ()
    | .error e => complainLine (Text.ofString "Warning: saving preferences: " ++ e.message)

/-! ## Scripts -/

def execUnit (u : CodeUnit) : Act Unit := do
  let _ ← perform do
    let b ← Run.change (·.load u)
    Run.execBlock Run.plenty b

def execScript (path : Text) : Command Unit := do
  let a ← get
  if a.verbose then complainLine (Text.ofString "Executing " ++ path)
  if isCompiledPath path then
    execUnit (← readCompiled path).toUnit
  else if a.useCompiled then
    let out := CompiledFile.pathFor a.config.compiledPath (relative a path)
    execUnit (← loadOrCompile path out a.config.includeSource)
  else
    match ← perform (Run.execFile Run.plenty path) with
    | some (.error e) => throw (.script e)
    | _ => pure ()

/-- Runs scripts one after the other, up to the first that fails. -/
def execScripts (paths : List Text) : Command Unit := paths.forM execScript

/-- Reads the flags of a command. If they are not understood, that is said and the command ends. -/
def withFlags (command : Text) (flags : List Flag) (args : List Text) (act : Flags → Act Nat) :
    Act Nat := do
  match Flags.parse flags [] args with
  | .ok given => act given
  | .error e =>
    match e.message? with
    | some m => complainLine m
    | none => pure ()
    complain (Flag.usage command flags)
    return if e == .help then success else misuse

/-! ## Commands -/

/-- Runs scripts, or the first script of the project. -/
def run (args : List Text) : Act Nat := do
  loadPrefs
  let a ← get
  let scripts := if args.isEmpty then [a.config.entryPath] else args
  let status ← reporting (execScripts scripts)
  if status == success then savePrefs
  return status

/-- Runs what is typed at the prompt. `typed` is the part of a program that was typed so far. -/
def prompt (typed : Text) : List Text → Act Unit
  | [] => pure ()
  | line :: lines => do
    if (← get).console.quit then return
    let source := typed ++ line ++ [0x0A]
    if (Text.trim source).isEmpty then prompt [] lines
    else if incomplete source then prompt source lines
    else
      match ← perform (Run.eval Run.plenty source "<console>") with
      | some (.ok result) => if !result.isEmpty then print (result ++ [0x0A])
      | some (.error e) => complainLine e.message
      | none => pure ()
      prompt [] lines

def repl (input : Text) : Act Nat := do
  loadPrefs
  modify fun a => { a with console := a.console.registerAll globalSpace Registration.session }
  prompt [] (inputLines input)
  savePrefs
  return success

def outFlag (help default : Text) : Flag := ⟨"o", help, .text default⟩

/-- Writes compiled files. -/
def compile (args : List Text) : Act Nat := do
  let config := (← get).config
  let out := outFlag "Output directory" config.compiledPath
  let source : Flag := ⟨"source", "Embed the script text", .switch config.includeSource⟩
  withFlags "compile" [out, source] args fun given => do
    if given.args.isEmpty then
      complainLine "Error: compile requires at least one script"
      return misuse
    let statuses ← given.args.mapM fun path => do
      let target := CompiledFile.pathFor (given.text out) (relative (← get) path)
      reporting do
        let f ← compileFile path target (given.switch source)
        if (← get).verbose then
          print (path ++ Text.ofString " -> " ++ target ++ Text.ofString " ("
            ++ Text.ofNat f.code.length ++ Text.ofString " words, build " ++ f.buildText
            ++ Text.ofString ")\n")
    return if statuses.all (· == success) then success else failure

def disasm (args : List Text) : Act Nat := do
  match args with
  | [path] => reporting do
      let u ← if isCompiledPath path then do
          let f ← readCompiled path
          print (Text.ofString "; build " ++ f.buildText ++ [0x0A])
          pure f.toUnit
        else do
          let source ← readFile path
          orFail (.compile path) (ConsoleScript.compile source path)
      print (← orFail .listing u.listing)
  | _ =>
    complainLine "Error: disasm takes exactly one file"
    return misuse

/-- Runs scripts, and writes the variables that match a pattern. -/
def exportVars (args : List Text) : Act Nat := do
  let out := outFlag "Write to file instead of stdout" []
  let appending : Flag := ⟨"append", "Append to the output file", .switch false⟩
  withFlags "export" [out, appending] args fun given => do
    let pattern := given.args.headD (← get).config.prefsPattern
    loadPrefs
    reporting do
      execScripts given.args.tail
      let c := (← get).console
      let path := given.text out
      if path.isEmpty then print (c.exportGlobals pattern)
      else
        let c ← orFail .exporting (c.exportToFile pattern path (given.switch appending))
        modify fun a => { a with console := c }

/-- Documents the console after scripts were run. -/
def dump (args : List Text) : Act Nat := do
  match args with
  | [] =>
    complainLine "Error: dump requires classes, functions or yaml"
    return misuse
  | kind :: scripts =>
    let status ← reporting (execScripts scripts)
    if status != success then return status
    let c := (← get).console
    if kind == Text.ofString "classes" then print c.dumpClasses
    else if kind == Text.ofString "functions" then print c.dumpFunctions
    else if kind == Text.ofString "yaml" then print c.dumpYaml
    else
      complainLine (Text.ofString "Error: unknown dump kind " ++ Text.quote kind)
      return misuse
    return success

def prefsCommand (args : List Text) : Act Nat := do
  let a ← get
  if !a.hasPrefs then
    complainLine "Error: preference database unavailable"
    return failure
  match args with
  | [] =>
    complainLine "Error: prefs requires list or clear"
    return misuse
  | what :: rest =>
    let pattern := rest.headD a.config.prefsPattern
    if what == Text.ofString "list" then
      match PrefTable.memory.list pattern a.console.prefs with
      | .error e =>
        complainLine (Text.ofString "Error: " ++ e.message)
        return failure
      | .ok rows =>
        rows.forM fun p =>
          print (p.name ++ Text.ofString " = \"" ++ Text.expandEscape p.value.toText
            ++ Text.ofString "\";\n")
        return success
    else if what == Text.ofString "clear" then
      let (gone, prefs) := PrefTable.memory.delete pattern a.console.prefs
      set { a with console := { a.console with prefs := prefs } }
      match gone with
      | .error e =>
        complainLine (Text.ofString "Error: " ++ e.message)
        return failure
      | .ok n =>
        print (Text.ofString "Removed " ++ Text.ofNat n ++ Text.ofString " preferences\n")
        return success
    else
      complainLine (Text.ofString "Error: unknown prefs command " ++ Text.quote what)
      return misuse

/-- Prepares for an editor: scripts are run, and what they print is dropped. -/
def serve (args : List Text) : Act Nat := do
  let tcp : Flag := ⟨"tcp", "Listen on a TCP address instead of stdio", .text []⟩
  withFlags "lsp" [tcp] args fun given => do
    let printed := (← get).console.printed
    let status ← reporting (execScripts given.args)
    modify fun a => { a with console := { a.console with printed := printed } }
    return status

end ConsoleScript.Cli
