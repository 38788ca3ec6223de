import ConsoleScript.Path

/-!
# Files

Programs read and write files below a working directory. A file tree is a finite map from places,
which are the components of paths from the root, to files and directories. The directories that
lead to the working directory always exist; anything else outside the tree is missing.
-/

namespace ConsoleScript

inductive FileCause where
  | notExist
  | notDirectory
  | isDirectory
  | invalidName
  | nameTooLong
  deriving DecidableEq, Repr

namespace FileCause

def message : FileCause → Text
  | .notExist => "no such file or directory"
  | .notDirectory => "not a directory"
  | .isDirectory => "is a directory"
  | .invalidName => "invalid argument"
  | .nameTooLong => "file name too long"

end FileCause

structure FileError where
  action : Text
  path : Text
  cause : FileCause
  deriving DecidableEq, Repr

def FileError.message (e : FileError) : Text :=
  e.action ++ [0x20] ++ e.path ++ Text.ofString ": " ++ e.cause.message

inductive FileNode where
  | file (content : Text)
  | directory
  deriving DecidableEq, Repr

structure FileTree where
  /-- The place of the working directory. -/
  cwd : List Text := []
  nodes : List (List Text × FileNode) := []
  deriving Repr, Inhabited

namespace FileTree

def node? (t : FileTree) (place : List Text) : Option FileNode :=
  if place.isPrefixOf t.cwd then some .directory else t.nodes.lookup place

/-- Puts something at a place. -/
def put (t : FileTree) (place : List Text) (n : FileNode) : FileTree :=
  if (t.nodes.lookup place).isSome then
    { t with nodes := t.nodes.map fun (p, m) => if p == place then (p, n) else (p, m) }
  else { t with nodes := t.nodes ++ [(place, n)] }

def makeDirs (t : FileTree) (place : List Text) : FileTree :=
  (List.range place.length).foldl (fun t k =>
    let dir := place.take (k + 1)
    if (t.node? dir).isSome then t else t.put dir .directory) t

/-- The components of a path that name something. -/
def components (path : Text) : List Text :=
  (Text.splitOnByte 0x2F path).filter fun c => !c.isEmpty && c != Text.ofString "."

/-- The place where a path starts: the root or the working directory. -/
def start (t : FileTree) (path : Text) : List Text :=
  if path.head? == some 0x2F then [] else t.cwd

/-- Adds a file, with the directories that lead to it. -/
def addFile (t : FileTree) (path content : Text) : FileTree :=
  let place := t.start path ++ components path
  (t.makeDirs place.dropLast).put place (.file content)

def addDir (t : FileTree) (path : Text) : FileTree := t.makeDirs (t.start path ++ components path)

def cwdPath (t : FileTree) : Text := 0x2F :: Text.join [0x2F] t.cwd

def longestName : Nat := 255

/-- Walks down from `here`, which is a directory, and gives the place a path leads to. All but the
last component have to be directories. Nothing is above the root but the root itself. -/
def walk (t : FileTree) (here : List Text) : List Text → Except FileCause (List Text)
  | [] => .ok here
  | c :: rest =>
    if c.length > longestName then .error .nameTooLong
    else if c == Text.ofString ".." then t.walk here.dropLast rest
    else
      let next := here ++ [c]
      if rest.isEmpty then .ok next
      else match t.node? next with
        | some .directory => t.walk next rest
        | some (.file _) => .error .notDirectory
        | none => .error .notExist

def longestPath : Nat := 4095

/-- Can only a directory stand where a path with this ending leads to? -/
def namesDirectory (path : Text) : Bool :=
  match path.reverse with
  | 0x2F :: _ => true
  | [0x2E] => true
  | 0x2E :: 0x2F :: _ => true
  | _ => false

/-- The place a path leads to, whether or not something stands there. -/
def place (t : FileTree) (path : Text) : Except FileCause (List Text) :=
  if path.isEmpty then .error .notExist
  else if path.any (· == 0) then .error .invalidName
  else if path.length > longestPath then .error .nameTooLong
  else t.walk (t.start path) (components path)

/-- The place a path leads to. Something has to stand there when the path names a directory. -/
def locate (t : FileTree) (path : Text) : Except FileCause (List Text) := do
  let place ← t.place path
  if namesDirectory path then
    match t.node? place with
    | some (.file _) => .error .notDirectory
    | some .directory => .ok place
    | none => .error .notExist
  else .ok place

def find (t : FileTree) (path : Text) : Except FileCause FileNode := do
  match t.node? (← t.locate path) with
  | some n => .ok n
  | none => .error .notExist

def read (t : FileTree) (path : Text) : Except FileError Text :=
  match t.locate path with
  | .error e => .error ⟨"open", path, e⟩
  | .ok place =>
    match t.node? place with
    | some (.file content) => .ok content
    | some .directory => .error ⟨"read", path, .isDirectory⟩
    | none => .error ⟨"open", path, .notExist⟩

/-- Writes a file, behind what it holds when `keep` is set. The directory has to exist. -/
def write (t : FileTree) (path content : Text) (keep : Bool) : Except FileError FileTree :=
  match if path.getLast? == some 0x2F then t.place path else t.locate path with
  | .error e => .error ⟨"open", path, e⟩
  | .ok place =>
    if path.getLast? == some 0x2F then .error ⟨"open", path, .isDirectory⟩
    else match t.node? place with
    | some (.file old) => .ok (t.put place (.file (if keep then old ++ content else content)))
    | some .directory => .error ⟨"open", path, .isDirectory⟩
    | none =>
      match t.node? place.dropLast with
      | some .directory => .ok (t.put place (.file content))
      | some (.file _) => .error ⟨"open", path, .notDirectory⟩
      | none => .error ⟨"open", path, .notExist⟩

/-- Makes a directory where a path leads to, unless there is one. -/
def makeDir (t : FileTree) (path : Text) : Except FileError FileTree :=
  let fail (cause : FileCause) : Except FileError FileTree := .error ⟨"mkdir", path, cause⟩
  match t.locate path with
  | .error e => fail e
  | .ok place =>
    match t.node? place with
    | some .directory => .ok t
    | some (.file _) => fail .notDirectory
    | none => .ok (t.put place .directory)

def makePath (t : FileTree) (path : Text) : Except FileError FileTree :=
  let parts := Path.components path
  (List.range parts.length).foldlM (fun t n =>
    t.makeDir (Path.ofComponents (Path.isAbs path) (parts.take (n + 1)))) t

end FileTree
end ConsoleScript
