import ConsoleScript.Code.Opcode
import ConsoleScript.Code.Unit

/-!
# Instructions

A code stream is cut into instructions from the front. Cutting stops at a word that is no opcode
or at an instruction whose operands run past the end. Positions are 32-bit words, so the operand
count of a function declaration is added with wrap-around.
-/

namespace ConsoleScript

/-- An instruction at its position in the code. -/
structure Instruction where
  ip : UInt32
  op : Opcode
  operands : List UInt32
  deriving DecidableEq, Repr

/-- Why a code stream cannot be cut further. -/
inductive DecodeError where
  | unknownOpcode (ip word : UInt32)
  | truncated (ip : UInt32) (op : Opcode)
  /-- The operands would end before they start. -/
  | reversed (first last : UInt32)
  deriving DecidableEq, Repr

namespace DecodeError

def message : DecodeError → Text
  | .unknownOpcode ip w =>
    Text.ofString "ip " ++ Text.ofNat ip.toNat ++ Text.ofString ": unknown opcode 0x"
      ++ (Text.ofHex 2 w.toNat).map Opcode.describe.upper
  | .truncated ip op =>
    Text.ofString "ip " ++ Text.ofNat ip.toNat ++ Text.ofString ": " ++ op.mnemonic
      ++ Text.ofString " truncated"
  | .reversed first last =>
    Text.ofString "runtime error: slice bounds out of range [" ++ Text.ofNat first.toNat
      ++ Text.ofString ":" ++ Text.ofNat last.toNat ++ [0x5D]

/-- Does the error stop the program rather than being reported? -/
def isFatal : DecodeError → Bool
  | .reversed _ _ => true
  | _ => false

end DecodeError

namespace Instruction

/-- How many operand words an instruction has, given the words behind its opcode. -/
def operandWords (op : Opcode) (rest : List UInt32) : UInt32 :=
  let fixed := op.operandCount.toUInt32
  match op, rest[5]? with
  | .funcDecl, some params => fixed + params
  | _, _ => fixed

/-- Cuts the code from position `ip` on, where `words` is what is left of it. -/
def decodeFrom (ip : UInt32) (words : List UInt32) : List Instruction × Option DecodeError :=
  match words with
  | [] => ([], none)
  | w :: rest =>
    match Opcode.ofWord? w with
    | none => ([], some (.unknownOpcode ip w))
    | some op =>
      let first := ip + 1
      let last := first + operandWords op rest
      if last.toNat > ip.toNat + 1 + rest.length then ([], some (.truncated ip op))
      else if last < first then ([], some (.reversed first last))
      else
        let count := (last - first).toNat
        let (more, err) := decodeFrom last (rest.drop count)
        (⟨ip, op, rest.take count⟩ :: more, err)
  termination_by words.length
  decreasing_by simp only [List.length_drop, List.length_cons]; omega

/-- Cuts a whole code stream. The instructions in front of an error are kept. -/
def decode (code : List UInt32) : List Instruction × Option DecodeError := decodeFrom 0 code

end Instruction
end ConsoleScript
