import ConsoleScript.CompiledFile
import ConsoleScript.Number.Integer

/-!
# Faithful codecs

What is relied on of the data format of compiled files: a file that is written is read back as it
was, unless a text in it is not UTF-8 or a list in it is too long. Then the bytes are refused.
-/

namespace ConsoleScript.CompiledFile

open Number

/-- Do the fields have the form that their types give them? A build identifier has sixteen bytes, a
digest has thirty-two, and numbers are doubles. -/
structure Storable (f : CompiledFile) : Prop where
  buildId : f.buildId.length = 16
  sourceHash : f.sourceHash.length = 32
  floats : ∀ b ∈ f.floats, ∃ v : Float, b = v.toBits

def isLegible (f : CompiledFile) : Bool :=
  f.magic.isUtf8 && f.name.isUtf8 && f.texts.all Text.isUtf8 && f.source.isUtf8

def Codec.maxElements : Nat := 131072

/-- Has no list of the file more elements than are read? -/
def isCompact (f : CompiledFile) : Bool :=
  f.code.length ≤ Codec.maxElements && f.texts.length ≤ Codec.maxElements
    && f.floats.length ≤ Codec.maxElements && f.lines.length ≤ Codec.maxElements

/-- Every file is written, and its bytes are read as the file exactly if its texts are UTF-8 and its
lists are not too long. No more bytes are meant than a sequence can have. -/
structure Codec.Faithful (codec : Codec) : Prop where
  written : ∀ {f : CompiledFile}, f.Storable → ∃ data, codec.marshal f = .ok data
  restored : ∀ {f : CompiledFile} {data : Text}, f.Storable → codec.marshal f = .ok data →
    data.length < signedBound → f.isLegible → f.isCompact → codec.unmarshal data = .ok f
  refused : ∀ {f : CompiledFile} {data : Text}, f.Storable → codec.marshal f = .ok data →
    data.length < signedBound → ¬(f.isLegible ∧ f.isCompact) →
    ∃ cause, codec.unmarshal data = .error cause

variable {codec : Codec} {f : CompiledFile} {data : Text}

theorem decode_eq_ok (hread : codec.unmarshal data = .ok f) (hmagic : f.magic = magicText)
    (hversion : f.version = currentVersion) (hcode : (Instruction.decode f.code).2 = none) :
    decode codec data = .ok f := by
  simp [decode, hread, hmagic, hversion, hcode]

theorem decode_eq_malformed {cause : Text} (hread : codec.unmarshal data = .error cause) :
    decode codec data = .error (.malformed cause) := by
  simp [decode, hread]

end ConsoleScript.CompiledFile
