import ConsoleScript.Code.Instruction
import ConsoleScript.Number.Binary
import ConsoleScript.Number.Notation
import ConsoleScript.Text.Quoted

/-!
# Listings

A unit is listed with one instruction per line: its position, its mnemonic and its operands,
where operands that index a pool are shown by what they stand for.
-/

namespace ConsoleScript.CodeUnit

def showText (u : CodeUnit) (w : UInt32) : Text :=
  if w == noIdent then "-"
  else match u.texts[w.toNat]? with
    | some t => Text.quote t
    | none => Text.ofString "<bad string " ++ Text.ofNat w.toNat ++ [0x3E]

def showFloat (u : CodeUnit) (w : UInt32) : Text :=
  match u.floats[w.toNat]? with
  | some bits => Number.toText (Float.ofBits bits)
  | none => Text.ofString "<bad float " ++ Text.ofNat w.toNat ++ [0x3E]

/-- A character operand; what is no character is shown as the replacement character. -/
def showChar (w : UInt32) : Text :=
  Text.quoteChar (if w.toNat.isValidChar then Char.ofNat w.toNat else Text.replacement)

/-- The `i`-th operand of an instruction. -/
def showOperand (u : CodeUnit) (op : Opcode) (i : Nat) (w : UInt32) : Text :=
  match op with
  | .loadText | .loadIdent | .setVar | .setVarCreate | .setField => u.showText w
  | .loadFloat => u.showFloat w
  | .loadInt => Text.ofInt (Number.signExtend w).toInt
  | .advanceChar => showChar w
  | .callFunc =>
    if i ≤ 1 then u.showText w
    else if w % 3 == 0 then "call" else if w % 3 == 1 then "method" else "parent"
  | .createObject => if i == 0 then u.showText w else Text.ofNat w.toNat
  | .funcDecl =>
    if i ≤ 2 || 6 ≤ i then u.showText w
    else if i == 3 then
      Text.ofString "line=" ++ Text.ofNat (w >>> 1).toNat ++ Text.ofString " body="
        ++ Text.ofNat (w &&& 1).toNat
    else Text.ofNat w.toNat
  | _ => Text.ofNat w.toNat

def showInstruction (u : CodeUnit) (i : Instruction) : Text :=
  Text.padZeros 4 (Text.ofNat i.ip.toNat) ++ Text.ofString "  "
    ++ Text.padRight 22 i.op.mnemonic
    ++ (i.operands.zipIdx.flatMap fun (w, k) => 0x20 :: u.showOperand i.op k w) ++ [0x0A]

/-- The listing of a unit, with a last line for an error, unless the error is fatal. -/
def listing (u : CodeUnit) : Except DecodeError Text :=
  let (instructions, err) := Instruction.decode u.code.toList
  let body := instructions.flatMap u.showInstruction
  match err with
  | none => .ok body
  | some e =>
    if e.isFatal then .error e
    else .ok (body ++ Text.ofString "error: " ++ e.message ++ [0x0A])

end ConsoleScript.CodeUnit
