import ConsoleScript.Cli.App

/-!
# The program

The program takes options, a command and the arguments of the command. It finds the configuration of
the project, sets up a console, opens the preferences unless the command has no use for them, and
carries out the command.
-/

namespace ConsoleScript.Cli

structure Outcome where
  status : Nat
  stdout : Text := []
  stderr : Text := []
  files : FileTree

def verboseFlag : Flag := ⟨"v", "Verbose output", .switch false⟩

def dirFlag : Flag := ⟨"C", "Directory to search for torque.toml", .text "."⟩

def compiledFlag : Flag :=
  ⟨"dso", "Reuse and refresh compiled .dso files when running scripts", .switch false⟩

def noPrefsFlag : Flag := ⟨"no-prefs", "Do not load or save the preference database", .switch false⟩

def options : List Flag := [verboseFlag, dirFlag, compiledFlag, noPrefsFlag]

def usage : Text :=
  Text.ofString "Usage: tscript [options] <command> [args...]

Commands:
  run [scripts...]          Execute scripts (default: the configured entry)
  repl                      Interactive console
  compile [-o dir] files... Write compiled .dso files
  disasm file               Disassemble a .cs or .dso file
  export [-o file] [-append] pattern [scripts...]
                            Run scripts, then write matching globals as script
  dump classes|functions|yaml [scripts...]
                            Document the console namespaces
  prefs list|clear [pattern]
                            Inspect the preference database
  lsp [-tcp addr] [scripts...]
                            Serve the Language Server Protocol

Options:
" ++ Flag.describeAll options

def dispatch (command : Text) (args : List Text) (stdin : Text) : Act Nat :=
  let is (name : String) : Bool := command == Text.ofString name
  if is "run" then run args
  else if is "repl" then repl stdin
  else if is "compile" then compile args
  else if is "disasm" then disasm args
  else if is "export" then exportVars args
  else if is "dump" then dump args
  else if is "prefs" then prefsCommand args
  else if is "lsp" then serve args
  else do
    complain (Text.ofString "Unknown command: " ++ command ++ Text.ofString "\n\n" ++ usage)
    return misuse

def needsNoPrefs (command : Text) : Bool :=
  command == Text.ofString "compile" || command == Text.ofString "disasm"

/-- Opens the log, unless nothing is logged. Log lines carry the time of day, so none is written. -/
def openLog (files : FileTree) (config : Config) (verbose : Bool) : Except FileError FileTree :=
  if config.logFile.isEmpty || (!verbose && config.verbosity ≤ -4) then .ok files
  else files.write config.logFile [] true

/-- Carries out a command in a project. -/
def start (files : FileTree) (config : Config) (given : Flags) (builds : Nat → Text)
    (command : Text) (args : List Text) (stdin : Text) : Outcome :=
  let console := Console.create config.initialBuckets config.maxCallDepth config.cacheArena
  let app : App := {
    config := config
    console := { console with files := files }
    verbose := given.switch verboseFlag
    useCompiled := given.switch compiledFlag
    builds := builds }
  let act : Act Nat := do
    if !given.switch noPrefsFlag && !needsNoPrefs command then openPrefs
    let status ← dispatch command args stdin
    closePrefs
    return status
  let (status, app) := act.run app
  { status := status
    stdout := app.console.output
    stderr := app.complaints.reverse.flatten
    files := app.console.files }

/-- Runs the program with some arguments and some input. -/
def execute (files : FileTree) (builds : Nat → Text) (args : List Text) (stdin : Text) : Outcome :=
  match Flags.parse options [] args with
  | .error e =>
    let complaint : Text := match e.message? with
      | some m => m ++ [0x0A]
      | none => []
    { status := if e == .help then success else misuse, stderr := complaint ++ usage, files := files }
  | .ok given =>
    match given.args with
    | [] => { status := misuse, stderr := usage, files := files }
    | command :: args =>
      let dir := given.text dirFlag
      match Config.findAndLoad files dir with
      | .error e =>
        { status := failure
          stderr := Text.ofString "Error loading " ++ Config.fileName ++ Text.ofString ": "
            ++ e.message ++ [0x0A]
          files := files }
      | .ok found =>
        let config := found.getD { Config.default with dir := Path.abs files.cwdPath dir }
        match openLog files config (given.switch verboseFlag) with
        | .error e =>
          { status := failure
            stderr := Text.ofString "log file error: " ++ e.message ++ [0x0A]
            files := files }
        | .ok files => start files config given builds command args stdin

end ConsoleScript.Cli
