import ConsoleScript.Code.Instruction
import ConsoleScript.Hash.Sha256
import ConsoleScript.Path
import ConsoleScript.Text.Utf8

/-!
# Compiled files

A compiled unit is kept in a file of its own that holds the unit, a digest of the source it was
compiled from and, if wanted, the source itself. The bytes of a file are the matter of a codec. What
the codec reads is accepted only if its header is right and its code can be cut into instructions.
-/

namespace ConsoleScript

structure CompiledFile where
  magic : Text
  version : UInt32
  /-- Sixteen bytes that tell builds apart. -/
  buildId : Text
  /-- The digest of the source. -/
  sourceHash : Text
  name : Text
  code : List UInt32
  texts : List Text
  /-- The bits of numbers. -/
  floats : List UInt64
  lines : List LineBreak
  /-- The source, or nothing. -/
  source : Text

inductive CompiledFileError where
  /-- The codec cannot read the bytes. -/
  | malformed (cause : Text)
  | badMagic
  | version (found : UInt32)
  | corrupt (cause : DecodeError)
  deriving DecidableEq, Repr

namespace CompiledFile

def magicText : Text := "TDSO"

def currentVersion : UInt32 := 1

/-- The extension of compiled files. -/
def extension : Text := ".dso"

def ofUnit (u : CodeUnit) (source : Text) (includeSource : Bool) (buildId : Text) : CompiledFile where
  magic := magicText
  version := currentVersion
  buildId := buildId
  sourceHash := Sha256.digest source
  name := u.name
  code := u.code.toList
  texts := u.texts.toList
  floats := u.floats.toList
  lines := u.lines
  source := if includeSource then source else []

/-- The unit in a file. Warnings are not kept. -/
def toUnit (f : CompiledFile) : CodeUnit where
  name := f.name
  code := f.code.toArray
  texts := f.texts.toArray
  floats := f.floats.toArray
  lines := f.lines
  warnings := []

/-- The build identifier as it is shown: in groups of digits of base sixteen. -/
def buildText (f : CompiledFile) : Text :=
  let digits (first count : Nat) : Text :=
    ((f.buildId.drop first).take count).flatMap fun b => Text.ofHex 2 b.toNat
  Text.join "-" [digits 0 4, digits 4 2, digits 6 2, digits 8 2, digits 10 6]

def isFrom (f : CompiledFile) (source : Text) : Bool := f.sourceHash == Sha256.digest source

/-! ## Bytes -/

/-- A data format for compiled files. Either direction may fail with a text that says why. -/
structure Codec where
  marshal : CompiledFile → Except Text Text
  unmarshal : Text → Except Text CompiledFile

/-- Reads a file and checks it. -/
def decode (codec : Codec) (data : Text) : Except CompiledFileError CompiledFile :=
  match codec.unmarshal data with
  | .error cause => .error (.malformed cause)
  | .ok f =>
    if f.magic != magicText then .error .badMagic
    else if f.version != currentVersion then .error (.version f.version)
    else match (Instruction.decode f.code).2 with
      | some e => .error (.corrupt e)
      | none => .ok f

/-! ## Places -/

/-- The path of the compiled file for a script, below a directory. A script path from the root
keeps only its last component, and a leading `..` is dropped once. -/
def pathFor (outDir script : Text) : Text :=
  let rel := Path.clean (if Path.isAbs script then Path.base script else script)
  let rel := (Text.dropStart? "../" rel).getD rel
  Path.join [outDir, rel ++ extension]

end CompiledFile

def CompiledFileError.message : CompiledFileError → Text
  | .malformed cause => Text.ofString "dso: unmarshal: " ++ cause
  | .badMagic => "dso: not a compiled script"
  | .version found =>
    Text.ofString "dso: unsupported version " ++ Text.ofNat found.toNat ++ Text.ofString " (want "
      ++ Text.ofNat CompiledFile.currentVersion.toNat ++ Text.ofString ")"
  | .corrupt cause => Text.ofString "dso: corrupt code stream: " ++ cause.message

end ConsoleScript
