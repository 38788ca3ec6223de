import ConsoleScript.Cli.Program

/-!
# The executable

The program itself is a function on file trees. This module reads the files around the working
directory, runs the program on them, and writes back what it changed.
-/

namespace ConsoleScript.Main

/-- How deep directories are searched for files. -/
def maxDepth : Nat := 24

def textOf (b : ByteArray) : Text := b.data.toList

def bytesOf (t : Text) : ByteArray := ⟨t.toArray⟩

/-- Adds a file or a directory, with all that is below it, to a tree. -/
def load : Nat → FileTree → IO.FS.DirEntry → IO FileTree
  | 0, t, _ => return t
  | depth + 1, t, e => do
    let path := Text.ofString e.path.toString
    match (← e.path.metadata).type with
    | .dir => (← e.path.readDir).foldlM (load depth) (t.addDir path)
    | .file => return t.addFile path (textOf (← IO.FS.readBinFile e.path))
    | _ => return t

/-- Adds what is there; unreadable files count as missing. -/
def loadIfThere (t : FileTree) (e : IO.FS.DirEntry) : IO FileTree := do
  try load maxDepth t e catch _ => return t

/-- Writes what differs between two trees. -/
def store (before after : FileTree) : IO Unit :=
  after.nodes.forM fun (place, node) => do
    if before.nodes.lookup place != some node then
      match Text.toString? (0x2F :: Text.join [0x2F] place) with
      | none => pure ()
      | some path =>
        match node with
        | .directory => IO.FS.createDirAll path
        | .file content => IO.FS.writeBinFile path (bytesOf content)

/-- All of the input. -/
partial def readAll (input : IO.FS.Stream) (done : ByteArray) : IO ByteArray := do
  let more ← input.read 65536
  if more.isEmpty then return done else readAll input (done ++ more)

/-- The files that the arguments of the program can lead to: those below the working directory, the
project above it, and whatever an argument names. -/
def loadAll (args : List String) : IO FileTree := do
  let dir ← IO.currentDir
  let cwd := Path.components (Text.ofString dir.toString)
  let start : FileTree := { cwd := cwd }
  let configs := (Config.searched start.cwdPath).filterMap fun d =>
    (Text.toString? (Path.join [d, Config.fileName])).map fun name => ⟨dir, name⟩
  let t ← configs.foldlM loadIfThere start
  let projects := t.nodes.filterMap fun (place, node) =>
    match node with
    | .file _ => (Text.toString? (0x2F :: Text.join [0x2F] place.dropLast)).map fun name =>
        (⟨dir, name⟩ : IO.FS.DirEntry)
    | .directory => none
  let roots := projects ++ args.map (⟨dir, ·⟩) ++ [⟨dir, ""⟩]
  roots.foldlM loadIfThere t

/-- Sixteen bytes out of random ones, marked as a random identifier. -/
def buildId (random : Text) (n : Nat) : Text :=
  ((random.drop (16 * n)).take 16).mapIdx fun i b =>
    if i == 6 then b &&& 0x0F ||| 0x40 else if i == 8 then b &&& 0x3F ||| 0x80 else b

end ConsoleScript.Main

open ConsoleScript in
def main (args : List String) : IO UInt32 := do
  let files ← Main.loadAll args
  let input ← if args.contains "repl" then Main.readAll (← IO.getStdin) .empty else pure .empty
  let random ← IO.getRandomBytes (16 * (args.length + 1)).toUSize
  let x := Cli.execute files (Main.buildId (Main.textOf random)) (args.map Text.ofString)
    (Main.textOf input)
  Main.store files x.files
  (← IO.getStdout).write (Main.bytesOf x.stdout)
  (← IO.getStderr).write (Main.bytesOf x.stderr)
  return x.status.toUInt32
