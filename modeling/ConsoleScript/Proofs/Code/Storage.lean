import ConsoleScript.Proofs.Cbor.CompiledFile
import ConsoleScript.Proofs.Code.Codecs
import ConsoleScript.Proofs.Code.Decoding

/-!
# Compiled files read back

With a faithful codec the file of a compiled source is read back as it was written, its code stream
included, or it is refused as malformed. It is refused in two cases only: a text in it is not UTF-8,
or a list in it is too long. A unit that a source was compiled to may well have either.
-/

namespace ConsoleScript

open Number

theorem CodeUnit.floats_written (filename : Text) (program : List Stmt) :
    ∀ b ∈ (written filename program).floats, ∃ v : Float, b = v.toBits := by
  have hP : Literals.Closed fun l => ∀ b ∈ l.floats.items, ∃ v : Float, b = v.toBits := by
    constructor
    · exact fun l t h => h
    · intro l f h b hb
      simp only [Literals.addFloat, Pool.insert] at hb
      split at hb
      · exact h b hb
      · rcases Array.mem_push.mp hb with hb | rfl
        · exact h b hb
        · exact ⟨f, rfl⟩
  exact Stmt.closed_collectBlock hP program (by simp)

theorem Sha256.length_digest (t : Text) : (Sha256.digest t).length = 32 := by
  simp [Sha256.digest, Sha256.bigEndian]

namespace CompiledFile

variable {source filename : Text} {u : CodeUnit} {buildId : Text}

theorem storable_ofUnit (h : compile source filename = .ok u) (includeSource : Bool)
    (hid : buildId.length = 16) : (ofUnit u source includeSource buildId).Storable := by
  obtain ⟨program, -, rfl⟩ := compile_eq_ok h
  refine ⟨hid, Sha256.length_digest source, ?_⟩
  simpa [ofUnit] using CodeUnit.floats_written filename program

/-- The code of a compiled source that is not too long to be read can be cut into instructions. -/
theorem decode_code_ofUnit (h : compile source filename = .ok u) (includeSource : Bool)
    (hcompact : (ofUnit u source includeSource buildId).isCompact) :
    (Instruction.decode (ofUnit u source includeSource buildId).code).2 = none := by
  obtain ⟨program, -, rfl⟩ := compile_eq_ok h
  have hsize : (CodeUnit.written filename program).code.size ≤ Codec.maxElements := by
    simp only [isCompact, ofUnit, Bool.and_eq_true, Array.length_toList] at hcompact
    exact of_decide_eq_true hcompact.1.1.1
  exact congrArg Prod.snd (CodeUnit.decode_written (Nat.lt_of_le_of_lt hsize (by decide)))

/-- The file of a compiled source has the unit in it, without its warnings. It is written, and
reading its bytes gives the file back exactly if its texts are all UTF-8 and none of its lists is
too long; otherwise the bytes are malformed. -/
theorem decode_ofUnit {codec : Codec} (hcodec : codec.Faithful)
    (h : compile source filename = .ok u) (includeSource : Bool) (hid : buildId.length = 16) :
    (ofUnit u source includeSource buildId).toUnit = { u with warnings := [] } ∧
      ∃ data, codec.marshal (ofUnit u source includeSource buildId) = .ok data ∧
        (data.length < signedBound →
          if (ofUnit u source includeSource buildId).isLegible
              ∧ (ofUnit u source includeSource buildId).isCompact
          then decode codec data = .ok (ofUnit u source includeSource buildId)
          else ∃ cause, decode codec data = .error (.malformed cause)) := by
  have hstorable := storable_ofUnit h includeSource hid
  obtain ⟨data, hdata⟩ := hcodec.written hstorable
  refine ⟨by simp [toUnit, ofUnit], data, hdata, fun hlen => ?_⟩
  split
  case isTrue hfit =>
    have hread := hcodec.restored hstorable hdata hlen hfit.1 hfit.2
    exact decode_eq_ok hread rfl rfl (decode_code_ofUnit h includeSource hfit.2)
  case isFalse hfit =>
    obtain ⟨cause, hread⟩ := hcodec.refused hstorable hdata hlen hfit
    exact ⟨cause, decode_eq_malformed hread⟩

/-- A text with a byte that starts no character is compiled, but its file is refused; the same
script with a character there has a file that gives the unit back. -/
theorem decode_ofUnit_stray_byte :
    (∃ u data cause, compile "%a = \"\\xff\" @ 0.1;" "a.cs" = .ok u ∧
      Codec.cbor.marshal (ofUnit u "%a = \"\\xff\" @ 0.1;" true (List.replicate 16 0)) = .ok data ∧
      decode .cbor data = .error (.malformed cause)) ∧
    ∃ u data f, compile "%a = \"é\" @ 0.1;" "a.cs" = .ok u ∧
      Codec.cbor.marshal (ofUnit u "%a = \"é\" @ 0.1;" true (List.replicate 16 0)) = .ok data ∧
      decode .cbor data = .ok f ∧ f.toUnit = { u with warnings := [] } := by
  have hid : (List.replicate 16 (0 : UInt8)).length = 16 := List.length_replicate
  constructor
  · have hparse : (parseProgram "%a = \"\\xff\" @ 0.1;").2 = [] := by decide +kernel
    have hcompile := (compile_eq _ "a.cs").trans (if_pos hparse)
    obtain ⟨-, data, hdata, hread⟩ := decode_ofUnit Codec.faithful_cbor hcompile true hid
    obtain rfl := Except.ok.inj hdata
    have hread := hread (by decide +kernel)
    rw [if_neg (by decide +kernel)] at hread
    obtain ⟨cause, hread⟩ := hread
    exact ⟨_, _, cause, hcompile, hdata, hread⟩
  · have hparse : (parseProgram "%a = \"é\" @ 0.1;").2 = [] := by decide +kernel
    have hcompile := (compile_eq _ "a.cs").trans (if_pos hparse)
    obtain ⟨hunit, data, hdata, hread⟩ := decode_ofUnit Codec.faithful_cbor hcompile true hid
    obtain rfl := Except.ok.inj hdata
    have hread := hread (by decide +kernel)
    rw [if_pos (by decide +kernel)] at hread
    exact ⟨_, _, _, hcompile, hdata, hread, hunit⟩

end CompiledFile

end ConsoleScript
