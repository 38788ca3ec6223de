import ConsoleScript.Text.Basic

/-!
# Opcodes

The console machine runs a stream of 32-bit words. An instruction is an opcode word followed by a
fixed number of operand words; only the declaration of a function has a tail of parameters behind
its fixed operands.
-/

namespace ConsoleScript

/-- The instructions of the console machine. -/
inductive Opcode where
  | funcDecl | createObject | addObject | endObject | finishObject | jumpUnlessFloat
  | jumpUnless | jumpIfFloat | jumpIf | jumpUnlessKeep | jumpIfKeep | jump | ret | retVoid
  | cmpEq | cmpGt | cmpGe | cmpLt | cmpLe | cmpNe | xor | mod | bitAnd | bitOr | not | notFloat
  | complement | shr | shl | add | sub | mul | div | neg | setVar | setVarCreate | setVarArray
  | setVarArrayCreate | loadVarInt | loadVarFloat | loadVarText | saveVarInt | saveVarFloat
  | saveVarText | setObject | setObjectNew | setField | setFieldArray | loadFieldInt
  | loadFieldFloat | loadFieldText | saveFieldInt | saveFieldFloat | saveFieldText | textToInt
  | textToFloat | textToNone | floatToInt | floatToText | floatToNone | intToFloat | intToText
  | intToNone | loadInt | loadFloat | loadText | loadIdent | callFunc | advance | advanceChar
  | advanceComma | advanceNul | rewind | terminateRewind | compareText | push | pushFrame
  deriving DecidableEq, Repr

namespace Opcode

/-- The word of an instruction. -/
def word : Opcode → UInt32
  | .funcDecl => 0x00
  | .createObject => 0x01
  | .addObject => 0x02
  | .endObject => 0x03
  | .finishObject => 0x04
  | .jumpUnlessFloat => 0x10
  | .jumpUnless => 0x11
  | .jumpIfFloat => 0x12
  | .jumpIf => 0x13
  | .jumpUnlessKeep => 0x14
  | .jumpIfKeep => 0x15
  | .jump => 0x16
  | .ret => 0x17
  | .retVoid => 0x18
  | .cmpEq => 0x20
  | .cmpGt => 0x21
  | .cmpGe => 0x22
  | .cmpLt => 0x23
  | .cmpLe => 0x24
  | .cmpNe => 0x25
  | .xor => 0x26
  | .mod => 0x27
  | .bitAnd => 0x28
  | .bitOr => 0x29
  | .not => 0x2A
  | .notFloat => 0x2B
  | .complement => 0x2C
  | .shr => 0x2D
  | .shl => 0x2E
  | .add => 0x30
  | .sub => 0x31
  | .mul => 0x32
  | .div => 0x33
  | .neg => 0x34
  | .setVar => 0x40
  | .setVarCreate => 0x41
  | .setVarArray => 0x42
  | .setVarArrayCreate => 0x43
  | .loadVarInt => 0x44
  | .loadVarFloat => 0x45
  | .loadVarText => 0x46
  | .saveVarInt => 0x47
  | .saveVarFloat => 0x48
  | .saveVarText => 0x49
  | .setObject => 0x4A
  | .setObjectNew => 0x4B
  | .setField => 0x4C
  | .setFieldArray => 0x4D
  | .loadFieldInt => 0x4E
  | .loadFieldFloat => 0x4F
  | .loadFieldText => 0x50
  | .saveFieldInt => 0x51
  | .saveFieldFloat => 0x52
  | .saveFieldText => 0x53
  | .textToInt => 0x60
  | .textToFloat => 0x61
  | .textToNone => 0x62
  | .floatToInt => 0x63
  | .floatToText => 0x64
  | .floatToNone => 0x65
  | .intToFloat => 0x66
  | .intToText => 0x67
  | .intToNone => 0x68
  | .loadInt => 0x70
  | .loadFloat => 0x71
  | .loadText => 0x72
  | .loadIdent => 0x73
  | .callFunc => 0x74
  | .advance => 0x75
  | .advanceChar => 0x76
  | .advanceComma => 0x77
  | .advanceNul => 0x78
  | .rewind => 0x79
  | .terminateRewind => 0x7A
  | .compareText => 0x7B
  | .push => 0x7C
  | .pushFrame => 0x7D

def ofWord? (w : UInt32) : Option Opcode :=
  match w.toNat with
  | 0x00 => some .funcDecl
  | 0x01 => some .createObject
  | 0x02 => some .addObject
  | 0x03 => some .endObject
  | 0x04 => some .finishObject
  | 0x10 => some .jumpUnlessFloat
  | 0x11 => some .jumpUnless
  | 0x12 => some .jumpIfFloat
  | 0x13 => some .jumpIf
  | 0x14 => some .jumpUnlessKeep
  | 0x15 => some .jumpIfKeep
  | 0x16 => some .jump
  | 0x17 => some .ret
  | 0x18 => some .retVoid
  | 0x20 => some .cmpEq
  | 0x21 => some .cmpGt
  | 0x22 => some .cmpGe
  | 0x23 => some .cmpLt
  | 0x24 => some .cmpLe
  | 0x25 => some .cmpNe
  | 0x26 => some .xor
  | 0x27 => some .mod
  | 0x28 => some .bitAnd
  | 0x29 => some .bitOr
  | 0x2A => some .not
  | 0x2B => some .notFloat
  | 0x2C => some .complement
  | 0x2D => some .shr
  | 0x2E => some .shl
  | 0x30 => some .add
  | 0x31 => some .sub
  | 0x32 => some .mul
  | 0x33 => some .div
  | 0x34 => some .neg
  | 0x40 => some .setVar
  | 0x41 => some .setVarCreate
  | 0x42 => some .setVarArray
  | 0x43 => some .setVarArrayCreate
  | 0x44 => some .loadVarInt
  | 0x45 => some .loadVarFloat
  | 0x46 => some .loadVarText
  | 0x47 => some .saveVarInt
  | 0x48 => some .saveVarFloat
  | 0x49 => some .saveVarText
  | 0x4A => some .setObject
  | 0x4B => some .setObjectNew
  | 0x4C => some .setField
  | 0x4D => some .setFieldArray
  | 0x4E => some .loadFieldInt
  | 0x4F => some .loadFieldFloat
  | 0x50 => some .loadFieldText
  | 0x51 => some .saveFieldInt
  | 0x52 => some .saveFieldFloat
  | 0x53 => some .saveFieldText
  | 0x60 => some .textToInt
  | 0x61 => some .textToFloat
  | 0x62 => some .textToNone
  | 0x63 => some .floatToInt
  | 0x64 => some .floatToText
  | 0x65 => some .floatToNone
  | 0x66 => some .intToFloat
  | 0x67 => some .intToText
  | 0x68 => some .intToNone
  | 0x70 => some .loadInt
  | 0x71 => some .loadFloat
  | 0x72 => some .loadText
  | 0x73 => some .loadIdent
  | 0x74 => some .callFunc
  | 0x75 => some .advance
  | 0x76 => some .advanceChar
  | 0x77 => some .advanceComma
  | 0x78 => some .advanceNul
  | 0x79 => some .rewind
  | 0x7A => some .terminateRewind
  | 0x7B => some .compareText
  | 0x7C => some .push
  | 0x7D => some .pushFrame
  | _ => none

theorem ofWord?_word (op : Opcode) : ofWord? op.word = some op := by cases op <;> rfl

def mnemonic : Opcode → Text
  | .funcDecl => "FUNC_DECL"
  | .createObject => "CREATE_OBJECT"
  | .addObject => "ADD_OBJECT"
  | .endObject => "END_OBJECT"
  | .finishObject => "FINISH_OBJECT"
  | .jumpUnlessFloat => "JMPIFFNOT"
  | .jumpUnless => "JMPIFNOT"
  | .jumpIfFloat => "JMPIFF"
  | .jumpIf => "JMPIF"
  | .jumpUnlessKeep => "JMPIFNOT_NP"
  | .jumpIfKeep => "JMPIF_NP"
  | .jump => "JMP"
  | .ret => "RETURN"
  | .retVoid => "RETURN_VOID"
  | .cmpEq => "CMPEQ"
  | .cmpGt => "CMPGR"
  | .cmpGe => "CMPGE"
  | .cmpLt => "CMPLT"
  | .cmpLe => "CMPLE"
  | .cmpNe => "CMPNE"
  | .xor => "XOR"
  | .mod => "MOD"
  | .bitAnd => "BITAND"
  | .bitOr => "BITOR"
  | .not => "NOT"
  | .notFloat => "NOTF"
  | .complement => "ONESCOMPLEMENT"
  | .shr => "SHR"
  | .shl => "SHL"
  | .add => "ADD"
  | .sub => "SUB"
  | .mul => "MUL"
  | .div => "DIV"
  | .neg => "NEG"
  | .setVar => "SETCURVAR"
  | .setVarCreate => "SETCURVAR_CREATE"
  | .setVarArray => "SETCURVAR_ARRAY"
  | .setVarArrayCreate => "SETCURVAR_ARRAY_CREATE"
  | .loadVarInt => "LOADVAR_UINT"
  | .loadVarFloat => "LOADVAR_FLT"
  | .loadVarText => "LOADVAR_STR"
  | .saveVarInt => "SAVEVAR_UINT"
  | .saveVarFloat => "SAVEVAR_FLT"
  | .saveVarText => "SAVEVAR_STR"
  | .setObject => "SETCUROBJECT"
  | .setObjectNew => "SETCUROBJECT_NEW"
  | .setField => "SETCURFIELD"
  | .setFieldArray => "SETCURFIELD_ARRAY"
  | .loadFieldInt => "LOADFIELD_UINT"
  | .loadFieldFloat => "LOADFIELD_FLT"
  | .loadFieldText => "LOADFIELD_STR"
  | .saveFieldInt => "SAVEFIELD_UINT"
  | .saveFieldFloat => "SAVEFIELD_FLT"
  | .saveFieldText => "SAVEFIELD_STR"
  | .textToInt => "STR_TO_UINT"
  | .textToFloat => "STR_TO_FLT"
  | .textToNone => "STR_TO_NONE"
  | .floatToInt => "FLT_TO_UINT"
  | .floatToText => "FLT_TO_STR"
  | .floatToNone => "FLT_TO_NONE"
  | .intToFloat => "UINT_TO_FLT"
  | .intToText => "UINT_TO_STR"
  | .intToNone => "UINT_TO_NONE"
  | .loadInt => "LOADIMMED_UINT"
  | .loadFloat => "LOADIMMED_FLT"
  | .loadText => "LOADIMMED_STR"
  | .loadIdent => "LOADIMMED_IDENT"
  | .callFunc => "CALLFUNC"
  | .advance => "ADVANCE_STR"
  | .advanceChar => "ADVANCE_STR_APPENDCHAR"
  | .advanceComma => "ADVANCE_STR_COMMA"
  | .advanceNul => "ADVANCE_STR_NUL"
  | .rewind => "REWIND_STR"
  | .terminateRewind => "TERMINATE_REWIND_STR"
  | .compareText => "COMPARE_STR"
  | .push => "PUSH"
  | .pushFrame => "PUSH_FRAME"

/-- How many operand words always follow the instruction. -/
def operandCount : Opcode → Nat
  | .funcDecl => 6
  | .createObject | .callFunc => 3
  | .addObject | .endObject | .jumpUnlessFloat | .jumpUnless | .jumpIfFloat | .jumpIf
  | .jumpUnlessKeep | .jumpIfKeep | .jump | .setVar | .setVarCreate | .setField
  | .loadInt | .loadFloat | .loadText | .loadIdent | .advanceChar => 1
  | _ => 0

def describe (w : UInt32) : Text × Nat :=
  match ofWord? w with
  | some op => (op.mnemonic, op.operandCount)
  | none => (Text.ofString "UNKNOWN_" ++ (Text.ofHex 2 w.toNat).map upper, 0)
where
  /-- Digits above nine are written in capitals. -/
  upper (b : UInt8) : UInt8 := if 0x61 ≤ b && b ≤ 0x66 then b - 0x20 else b

end Opcode

/-- Stands for an identifier operand that is absent. -/
def noIdent : UInt32 := 0xFFFFFFFF

/-- The kind of value an expression is asked to leave behind. -/
inductive Demand where
  | none | int | float | text
  deriving DecidableEq, Repr

namespace Demand

def name : Demand → Text
  | .none => "none"
  | .int => "uint"
  | .float => "float"
  | .text => "string"

def nameOfNumber (n : Nat) : Text :=
  match n with
  | 0 => name .none
  | 1 => name .int
  | 2 => name .float
  | 3 => name .text
  | n => Text.ofString "TypeReq(" ++ Text.ofNat n ++ [0x29]

/-- The instructions that turn a value of one kind into another; none between equal kinds. -/
def convert : Demand → Demand → List Opcode
  | .text, .int => [.textToInt]
  | .text, .float => [.textToFloat]
  | .text, .none => [.textToNone]
  | .float, .int => [.floatToInt]
  | .float, .text => [.floatToText]
  | .float, .none => [.floatToNone]
  | .int, .float => [.intToFloat]
  | .int, .text => [.intToText]
  | .int, .none => [.intToNone]
  | _, _ => []

end Demand
end ConsoleScript
