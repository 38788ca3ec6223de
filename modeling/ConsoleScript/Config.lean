import ConsoleScript.Console.State
import ConsoleScript.Text.Case
import ConsoleScript.Toml.Document

/-!
# Project configuration

A project is described by a file in its directory: where its scripts are, the limits of the console,
and where preferences and compiled files are kept. Every setting has a default. A file with a setting
that nobody knows is refused, and so is one with a value out of range.

The file is looked for in a directory and then in the directories above it.
-/

namespace ConsoleScript

structure Config where
  name : Text := []
  version : Text := []
  /-- The directories of scripts. -/
  dirs : List Text := []
  /-- The script that is run first. -/
  entry : Text := []
  maxCallDepth : Int := 0
  initialBuckets : Int := 0
  cacheArena : Int := 0
  verbosity : Int := 0
  logFile : Text := []
  /-- The file of the preference store. -/
  prefsFile : Text := []
  /-- Which variables are preferences. -/
  prefsPattern : Text := []
  /-- The directory of compiled files. -/
  compiledDir : Text := []
  /-- Do compiled files hold their source? -/
  includeSource : Bool := false
  /-- The directory of the project, if it is known. -/
  dir : Text := []
  deriving DecidableEq, Repr

inductive ConfigError where
  /-- The text cannot be read, or a value is of the wrong kind. -/
  | malformed
  | unknownKey (key : Toml.Key)
  | outOfRange (setting : Text)
  deriving DecidableEq, Repr

def ConfigError.message : ConfigError → Text
  | .malformed => "parse error"
  | .unknownKey key => Text.ofString "invalid configuration: unknown key " ++ key.toText
  | .outOfRange setting =>
    Text.ofString "invalid configuration: " ++ setting ++ Text.ofString ": out of range"

namespace Config

/-! ## Settings -/

/-- A setting: its name, and how it takes a value. Values of the wrong kind are not taken. -/
structure Setting where
  name : Text
  assign : Toml.Node → Config → Option Config

def textSetting (name : Text) (f : Config → Text → Config) : Setting where
  name := name
  assign
    | .value (.text t), c => some (f c t)
    | _, _ => none

def intSetting (name : Text) (f : Config → Int → Config) : Setting where
  name := name
  assign
    | .value (.integer i), c => some (f c i.toInt)
    | _, _ => none

def boolSetting (name : Text) (f : Config → Bool → Config) : Setting where
  name := name
  assign
    | .value (.boolean b), c => some (f c b)
    | _, _ => none

def textsSetting (name : Text) (f : Config → List Text → Config) : Setting where
  name := name
  assign
    | .value (.array ws), c => (ws.mapM fun w => match w with
        | Toml.Written.text t => some t
        | _ => none).map (f c)
    | _, _ => none

def sections : List (Text × List Setting) := [
  ("project", [
    textSetting "name" fun c t => { c with name := t },
    textSetting "version" fun c t => { c with version := t }]),
  ("source", [
    textsSetting "dirs" fun c ts => { c with dirs := ts },
    textSetting "entry" fun c t => { c with entry := t }]),
  ("runtime", [
    intSetting "max-call-depth" fun c i => { c with maxCallDepth := i },
    intSetting "initial-buckets" fun c i => { c with initialBuckets := i },
    intSetting "cache-arena" fun c i => { c with cacheArena := i }]),
  ("log", [
    intSetting "verbosity" fun c i => { c with verbosity := i },
    textSetting "file" fun c t => { c with logFile := t }]),
  ("prefs", [
    textSetting "db" fun c t => { c with prefsFile := t },
    textSetting "pattern" fun c t => { c with prefsPattern := t }]),
  ("dso", [
    textSetting "output" fun c t => { c with compiledDir := t },
    boolSetting "include-source" fun c b => { c with includeSource := b }])]

/-- The settings of a table, whose name may be in any letter case. -/
def section? (name : Text) : Option (List Setting) :=
  (sections.find? fun s => Text.equalFold s.1 name).map (·.2)

def setting? (settings : List Setting) (name : Text) : Option Setting :=
  settings.find? fun s => Text.equalFold s.name name

/-- Takes the settings of a table; gives the keys that were used. -/
def takeTable? (title : Text) (settings : List Setting) (c : Config) :
    Toml.Entries → Option (Config × List Toml.Key)
  | [] => some (c, [])
  | (name, n) :: es =>
    match setting? settings name with
    | none => takeTable? title settings c es
    | some s => do
      let (c, used) ← takeTable? title settings (← s.assign n c) es
      return (c, [title, name] :: used)

/-- Takes the settings of all tables; gives the keys that were used. -/
def takeAll? (c : Config) : Toml.Entries → Option (Config × List Toml.Key)
  | [] => some (c, [])
  | (title, n) :: es =>
    match section? title with
    | none => takeAll? c es
    | some settings =>
      match n with
      | .table inner => do
        let (c, used) ← takeTable? title settings c inner
        let (c, more) ← takeAll? c es
        return (c, [title] :: used ++ more)
      | _ => none

/-! ## Defaults and ranges -/

/-- Replaces settings that are empty or zero by their defaults. -/
def withDefaults (c : Config) : Config :=
  let orText (t : Text) (d : String) : Text := if t.isEmpty then Text.ofString d else t
  let orInt (i d : Int) : Int := if i == 0 then d else i
  { c with
    dirs := if c.dirs.isEmpty then ["scripts"] else c.dirs
    entry := orText c.entry "main.cs"
    maxCallDepth := orInt c.maxCallDepth Console.defaultCallDepth
    initialBuckets := orInt c.initialBuckets 15
    cacheArena := orInt c.cacheArena 4096
    prefsFile := orText c.prefsFile ".torque/prefs.db"
    prefsPattern := orText c.prefsPattern "$pref::*"
    compiledDir := orText c.compiledDir ".torque/dso" }

/-- The configuration without a file. -/
def default : Config := withDefaults {}

/-- The settings with a range, and whether their values are in it. -/
def ranges (c : Config) : List (Text × Bool) := [
  ("runtime.max-call-depth", 0 < c.maxCallDepth && c.maxCallDepth ≤ 65536),
  ("runtime.initial-buckets", 1 ≤ c.initialBuckets),
  ("runtime.cache-arena", 16 ≤ c.cacheArena),
  ("log.verbosity", -4 ≤ c.verbosity && c.verbosity ≤ 4),
  ("prefs.pattern", c.prefsPattern.head? == some 0x24)]

/-- The configuration that a text describes. -/
def ofText (t : Text) : Except ConfigError Config := do
  let some d := Toml.Document.ofText? t | throw .malformed
  let some (c, used) := takeAll? {} d.entries | throw .malformed
  match d.keys.find? fun k => !used.contains k with
  | some k => throw (.unknownKey k)
  | none =>
    let c := c.withDefaults
    match c.ranges.find? (!·.2) with
    | some (name, _) => throw (.outOfRange name)
    | none => return c

/-! ## Paths -/

/-- A path of the configuration, which is seen from the directory of the project. -/
def resolve (c : Config) (p : Text) : Text :=
  if Path.isAbs p || c.dir.isEmpty then p else Path.join [c.dir, p]

def dirPaths (c : Config) : List Text := c.dirs.map c.resolve

/-- The script that is run first, which is looked for in the first directory. -/
def entryPath (c : Config) : Text :=
  if Path.isAbs c.entry then c.entry else Path.join [c.dirPaths.headD [], c.entry]

def prefsPath (c : Config) : Text := c.resolve c.prefsFile

def compiledPath (c : Config) : Text := c.resolve c.compiledDir

end Config

/-! ## Files -/

/-- Why no configuration could be loaded. -/
inductive ConfigFileError where
  | unreadable (path : Text) (cause : FileError)
  | refused (path : Text) (cause : ConfigError)

def ConfigFileError.message : ConfigFileError → Text
  | .unreadable path cause =>
    Text.ofString "cannot read " ++ path ++ Text.ofString ": " ++ cause.message
  | .refused path cause => path ++ Text.ofString ": " ++ cause.message

namespace Config

def fileName : Text := "torque.toml"

/-- Loads the configuration in a directory. -/
def load (files : FileTree) (dir : Text) : Except ConfigFileError Config :=
  let path := Path.join [dir, fileName]
  match files.read path with
  | .error e => .error (.unreadable path e)
  | .ok text =>
    match ofText text with
    | .error e => .error (.refused path e)
    | .ok c => .ok { c with dir := Path.abs files.cwdPath dir }

/-- The directory, and those above it. -/
def searched (dir : Text) : List Text :=
  let parts := Path.components dir
  (List.range (parts.length + 1)).map fun n =>
    Path.ofComponents true (parts.take (parts.length - n))

/-- Loads the first configuration in a directory or above it, if there is one. -/
def findAndLoad (files : FileTree) (start : Text) : Except ConfigFileError (Option Config) :=
  let exists? (dir : Text) : Bool := (files.find (Path.join [dir, fileName])).isOk
  match (searched (Path.abs files.cwdPath start)).find? exists? with
  | some dir => (load files dir).map some
  | none => .ok none

end Config
end ConsoleScript
