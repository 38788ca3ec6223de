import ConsoleScript.Proofs.Code.Layout
import Mathlib.Algebra.GroupWithZero.Nat

/-!
# Symbolic code

The code of a tree as instructions whose operands still say what they stand for: the text of a
literal, an identifier, a number, a position to jump to. Writing these operands as words gives the
code that is emitted, and in the unit of a program each word leads back to what its operand stood
for.
-/

namespace ConsoleScript

inductive Operand where
  | text (t : Text)
  | ident (t : Text)
  /-- An identifier that may be absent. -/
  | ident? (t : Option Text)
  | float (f : Float)
  | target (ip : Nat)
  | word (w : UInt32)

def Operand.encode (l : Literals) : Operand → UInt32
  | .text t => l.text t
  | .ident t => l.ident t
  | .ident? t => l.ident? t
  | .float f => l.float f
  | .target ip => ipWord ip
  | .word w => w

/-- A symbolic instruction. -/
structure Asm where
  op : Opcode
  operands : List Operand := []

namespace Asm

def words (l : Literals) (i : Asm) : List UInt32 := i.op.word :: i.operands.map (Operand.encode l)

def encode (l : Literals) (is : List Asm) : List UInt32 := is.flatMap (words l)

/-- How many words the instruction takes. -/
def size (i : Asm) : Nat := i.operands.length + 1

@[simp] theorem encode_nil (l : Literals) : encode l [] = [] := rfl

@[simp] theorem encode_cons (l : Literals) (i : Asm) (is : List Asm) :
    encode l (i :: is) = i.op.word :: (i.operands.map (Operand.encode l) ++ encode l is) := rfl

@[simp] theorem encode_append (l : Literals) (is js : List Asm) :
    encode l (is ++ js) = encode l is ++ encode l js := by
  simp [encode]

/-- Instructions without operands. -/
def plain (ops : List Opcode) : List Asm := ops.map fun op => ⟨op, []⟩

@[simp] theorem encode_plain (l : Literals) (ops : List Opcode) :
    encode l (plain ops) = Opcode.words ops := by
  induction ops with
  | nil => rfl
  | cons op ops ih => simpa [plain, Opcode.words] using ih

/-- The instructions that turn a value of one kind into another. -/
def convert (source target : Demand) : List Asm := plain (Demand.convert source target)

@[simp] theorem encode_convert (l : Literals) (source target : Demand) :
    encode l (convert source target) = Demand.convertWords source target := encode_plain l _

end Asm

namespace Expr

/-- A literal, as it is asked for: an immediate integer, a number, or a text. -/
def literalAsm (want : Demand) (int : Int64) (float : Float) (text : Asm) : List Asm :=
  match want with
  | .none => []
  | .int => [⟨.loadInt, [.word (Number.lowWord int)]⟩]
  | .float => [⟨.loadFloat, [.float float]⟩]
  | .text => [text]

/-- A name and the index behind it, joined to the name of a variable. -/
def elementAsm (name : Text) (index : List Asm) : List Asm :=
  ⟨.loadIdent, [.ident name]⟩ :: ⟨.advance, []⟩ :: index ++ Asm.plain [.rewind]

/-- Selects a field of the object that is the current text, or of the one under construction. -/
def selectAsm (set : Opcode) (field : Text) : List Asm := [⟨set, []⟩, ⟨.setField, [.ident field]⟩]

mutual

/-- The symbolic code of an expression. -/
def asm : Expr → Nat → Demand → List Asm
  | int _ v, _, want =>
    literalAsm want (Int64.ofInt v) (intAsFloat v) ⟨.loadText, [.text (Text.ofInt v)]⟩
  | float _ v, _, want =>
    literalAsm want (Number.toInt64 v) v ⟨.loadText, [.text (Number.toText v)]⟩
  | str _ v _, _, want =>
    literalAsm want (Number.toInt64 (Number.ofText v)) (Number.ofText v) ⟨.loadText, [.text v]⟩
  | word _ v, _, want =>
    literalAsm want (Number.toInt64 (Number.ofText v)) (Number.ofText v) ⟨.loadIdent, [.text v]⟩
  | var _ name index, ip, want =>
    if want = .none then []
    else
      (match index with
        | none => [⟨.setVar, [.ident name]⟩]
        | some i => elementAsm name (asm i (ip + 3) .text) ++ Asm.plain [.setVarArray])
        ++ Asm.plain [want.loadVar]
  | assign _ name index value, ip, want =>
    let kind := value.storedAs
    let n := ip + value.size kind
    asm value ip kind
      ++ (match index with
        | none => [⟨.setVarCreate, [.ident name]⟩]
        | some i =>
          if kind = .text then
            ⟨.advance, []⟩ :: elementAsm name (asm i (n + 4) .text)
              ++ Asm.plain [.setVarArrayCreate, .terminateRewind]
          else elementAsm name (asm i (n + 3) .text) ++ Asm.plain [.setVarArrayCreate])
      ++ Asm.plain [kind.saveVar] ++ Asm.convert kind want
  | update _ name index op value, ip, want =>
    let kind := op.operands
    let n := ip + value.size kind
    asm value ip kind
      ++ (match index with
        | none => [⟨.setVarCreate, [.ident name]⟩]
        | some i => elementAsm name (asm i (n + 3) .text) ++ Asm.plain [.setVarArrayCreate])
      ++ Asm.plain [kind.loadVar, op.opcode, kind.saveVar] ++ Asm.convert kind want
  | arith _ op left right, ip, want =>
    asm right ip .float ++ asm left (ip + right.size .float) .float ++ Asm.plain [op.opcode]
      ++ Asm.convert .float want
  | wordArith _ op left right, ip, want =>
    asm right ip .int ++ asm left (ip + right.size .int) .int ++ Asm.plain [op.opcode]
      ++ Asm.convert .int want
  | compare _ op left right, ip, want =>
    asm right ip .float ++ asm left (ip + right.size .float) .float ++ Asm.plain [op.opcode]
      ++ Asm.convert .int want
  | logic _ op left right, ip, want =>
    let n := ip + left.size .int + 2
    asm left ip .int
      ++ [⟨if op = .or then .jumpIfKeep else .jumpUnlessKeep, [.target (n + right.size .int)]⟩]
      ++ asm right n .int ++ Asm.convert .int want
  | textEq _ equal left right, ip, want =>
    asm left ip .text ++ Asm.plain [.advanceNul] ++ asm right (ip + left.size .text + 1) .text
      ++ Asm.plain [.compareText] ++ (if equal then [] else Asm.plain [.not])
      ++ Asm.convert .int want
  | concat _ left right separator, ip, want =>
    let n := ip + left.size .text
    asm left ip .text
      ++ (match separator.byte? with
        | none => ⟨.advance, []⟩ :: asm right (n + 1) .text
        | some b => ⟨.advanceChar, [.word b.toUInt32]⟩ :: asm right (n + 2) .text)
      ++ Asm.plain [.rewind] ++ Asm.convert .text want
  | indexPair _ left right, ip, want =>
    asm left ip .text ++ Asm.plain [.advanceComma] ++ asm right (ip + left.size .text + 1) .text
      ++ Asm.plain [.rewind] ++ Asm.convert .text want
  | unary _ op x, ip, want =>
    asm x ip (operandOf op x)
      ++ Asm.plain [match op with
        | .neg => Opcode.neg
        | .complement => Opcode.complement
        | .not => if x.negatedAs = Demand.int then Opcode.not else Opcode.notFloat]
      ++ Asm.convert (resultOf op) want
  | cond _ test whenTrue whenFalse, ip, want =>
    let onTrue := ip + test.size test.testedAs + 2
    let onFalse := onTrue + whenTrue.size want + 2
    asm test ip test.testedAs ++ [⟨test.testedAs.jumpUnless, [.target onFalse]⟩]
      ++ asm whenTrue onTrue want ++ [⟨.jump, [.target (onFalse + whenFalse.size want)]⟩]
      ++ asm whenFalse onFalse want
  | call _ name ns kind args, ip, want =>
    ⟨.pushFrame, []⟩ :: asmArgs args (ip + 1)
      ++ [⟨.callFunc, [.ident name, .ident? ns, .word kind.word]⟩] ++ Asm.convert .text want
  | slot _ obj field index, ip, want =>
    if want = .none then []
    else match index with
      | none => asm obj ip .text ++ selectAsm .setObject field ++ Asm.plain [want.loadField]
      | some i =>
        asm i ip .text ++ Asm.plain [.advance] ++ asm obj (ip + i.size .text + 1) .text
          ++ selectAsm .setObject field
          ++ Asm.plain [.terminateRewind, .setFieldArray, want.loadField]
  | slotAssign _ obj field index value, ip, want =>
    let n := ip + value.size .text + 1
    asm value ip .text ++ Asm.plain [.advance]
      ++ (match index with
        | none => asm obj n .text ++ selectAsm .setObject field
        | some i =>
          asm i n .text ++ Asm.plain [.advance] ++ asm obj (n + i.size .text + 1) .text
            ++ selectAsm .setObject field ++ Asm.plain [.terminateRewind, .setFieldArray])
      ++ Asm.plain [.terminateRewind, .saveFieldText] ++ Asm.convert .text want
  | slotUpdate _ obj field index op value, ip, want =>
    let kind := op.operands
    let n := ip + value.size kind
    asm value ip kind
      ++ (match index with
        | none => asm obj n .text ++ selectAsm .setObject field
        | some i =>
          asm i n .text ++ Asm.plain [.advance] ++ asm obj (n + i.size .text + 1) .text
            ++ selectAsm .setObject field ++ Asm.plain [.terminateRewind, .setFieldArray])
      ++ Asm.plain [kind.loadField, op.opcode, kind.saveField] ++ Asm.convert kind want
  | object decl, ip, want =>
    ⟨.loadInt, [.word 0]⟩ :: asmObject decl (ip + 2) true ++ Asm.plain [.finishObject]
      ++ Asm.convert .int want

def asmArgs : List Expr → Nat → List Asm
  | [], _ => []
  | a :: as, ip => asm a ip .text ++ Asm.plain [.push] ++ asmArgs as (ip + a.size .text + 1)

def asmField : FieldInit → Nat → List Asm
  | .mk _ field index value, ip =>
    let n := ip + value.size .text + 1
    asm value ip .text ++ Asm.plain [.advance]
      ++ (match index with
        | none => selectAsm .setObjectNew field
        | some i =>
          asm i n .text ++ Asm.plain [.advance] ++ selectAsm .setObjectNew field
            ++ Asm.plain [.terminateRewind, .setFieldArray])
      ++ Asm.plain [.terminateRewind, .saveFieldText, .textToNone]

def asmFields : List FieldInit → Nat → List Asm
  | [], _ => []
  | f :: fs, ip => asmField f ip ++ asmFields fs (ip + fieldSize f)

def asmObject : ObjectDecl → Nat → Bool → List Asm
  | .mk pos className objectName copyFrom args datablock fields children, ip, root =>
    let atName := ip + 1 + className.size .text + 1
    let atArgs := atName + objectName.size .text + 1
    let atFields := atArgs + argsSize args + 4
    let atChildren := atFields + fieldsSize fields + 2
    let stop := ip + objectSize
      (.mk pos className objectName copyFrom args datablock fields children)
    ⟨.pushFrame, []⟩ :: asm className (ip + 1) .text ++ Asm.plain [.push]
      ++ asm objectName atName .text ++ Asm.plain [.push] ++ asmArgs args atArgs
      ++ [⟨.createObject, [.ident? copyFrom, .word (flagWord datablock), .target stop]⟩]
      ++ asmFields fields atFields ++ [⟨.addObject, [.word (flagWord root)]⟩]
      ++ asmChildren children atChildren ++ [⟨.endObject, [.word (flagWord root)]⟩]

def asmChildren : List ObjectDecl → Nat → List Asm
  | [], _ => []
  | c :: cs, ip => asmObject c ip false ++ asmChildren cs (ip + objectSize c)

end

def asmOpt (x : Option Expr) (ip : Nat) (want : Demand) : List Asm :=
  match x with
  | none => []
  | some x => x.asm ip want

mutual

/-- The code of an expression is its symbolic code, written as words. -/
theorem emit_eq_encode (l : Literals) : ∀ (x : Expr) (ip : Nat) (want : Demand),
    x.emit l ip want = Asm.encode l (x.asm ip want)
  | int .., ip, want => by cases want <;> rfl
  | float .., ip, want => by cases want <;> rfl
  | str .., ip, want => by cases want <;> rfl
  | word .., ip, want => by cases want <;> rfl
  | var _ _ none, ip, want => by cases want <;> rfl
  | var _ _ (some i), ip, want => by
    simp only [emit, asm, emit_eq_encode l i]
    split <;> simp [elementAsm, Opcode.words, Operand.encode]
  | assign _ _ none value, ip, want => by
    simp [emit, asm, emit_eq_encode l value, Opcode.words, Operand.encode]
  | assign _ _ (some i) value, ip, want => by
    simp only [emit, asm, emit_eq_encode l value, emit_eq_encode l i]
    split <;> simp [elementAsm, Opcode.words, Operand.encode]
  | update _ _ none op value, ip, want => by
    simp [emit, asm, emit_eq_encode l value, Opcode.words, Operand.encode]
  | update _ _ (some i) op value, ip, want => by
    simp [emit, asm, emit_eq_encode l value, emit_eq_encode l i, elementAsm, Opcode.words,
      Operand.encode]
  | arith _ _ left right, ip, want => by
    simp [emit, asm, emit_eq_encode l left, emit_eq_encode l right, Opcode.words]
  | wordArith _ _ left right, ip, want => by
    simp [emit, asm, emit_eq_encode l left, emit_eq_encode l right, Opcode.words]
  | compare _ _ left right, ip, want => by
    simp [emit, asm, emit_eq_encode l left, emit_eq_encode l right, Opcode.words]
  | logic _ _ left right, ip, want => by
    simp [emit, asm, emit_eq_encode l left, emit_eq_encode l right, Operand.encode]
  | textEq _ equal left right, ip, want => by
    cases equal <;>
      simp [emit, asm, emit_eq_encode l left, emit_eq_encode l right, Opcode.words]
  | concat _ left right separator, ip, want => by
    cases separator <;> simp [emit, asm, emit_eq_encode l left, emit_eq_encode l right,
      Separator.byte?, Opcode.words, Operand.encode]
  | indexPair _ left right, ip, want => by
    simp [emit, asm, emit_eq_encode l left, emit_eq_encode l right, Opcode.words]
  | unary _ op x, ip, want => by
    cases op <;> simp [emit, asm, emit_eq_encode l x, Opcode.words]
  | cond _ test whenTrue whenFalse, ip, want => by
    simp [emit, asm, emit_eq_encode l test, emit_eq_encode l whenTrue, emit_eq_encode l whenFalse,
      Operand.encode]
  | call _ _ _ _ args, ip, want => by
    simp [emit, asm, emitArgs_eq_encode l args, Operand.encode]
  | slot _ obj _ none, ip, want => by
    simp only [emit, asm, emit_eq_encode l obj]
    split <;> simp [selectAsm, Opcode.words, Operand.encode]
  | slot _ obj _ (some i), ip, want => by
    simp only [emit, asm, emit_eq_encode l obj, emit_eq_encode l i]
    split <;> simp [selectAsm, Opcode.words, Operand.encode]
  | slotAssign _ obj _ none value, ip, want => by
    simp [emit, asm, emit_eq_encode l value, emit_eq_encode l obj, selectAsm, Opcode.words,
      Operand.encode]
  | slotAssign _ obj _ (some i) value, ip, want => by
    simp [emit, asm, emit_eq_encode l value, emit_eq_encode l obj, emit_eq_encode l i, selectAsm,
      Opcode.words, Operand.encode]
  | slotUpdate _ obj _ none op value, ip, want => by
    simp [emit, asm, emit_eq_encode l value, emit_eq_encode l obj, selectAsm, Opcode.words,
      Operand.encode]
  | slotUpdate _ obj _ (some i) op value, ip, want => by
    simp [emit, asm, emit_eq_encode l value, emit_eq_encode l obj, emit_eq_encode l i, selectAsm,
      Opcode.words, Operand.encode]
  | object decl, ip, want => by
    simp [emit, asm, emitObject_eq_encode l decl, Opcode.words, Operand.encode]

theorem emitArgs_eq_encode (l : Literals) : ∀ (args : List Expr) (ip : Nat),
    emitArgs l args ip = Asm.encode l (asmArgs args ip)
  | [], _ => rfl
  | a :: as, ip => by
    simp [emitArgs, asmArgs, emit_eq_encode l a, emitArgs_eq_encode l as, Opcode.words]

theorem emitField_eq_encode (l : Literals) : ∀ (f : FieldInit) (ip : Nat),
    emitField l f ip = Asm.encode l (asmField f ip)
  | .mk _ _ none value, ip => by
    simp [emitField, asmField, emit_eq_encode l value, selectAsm, Opcode.words, Operand.encode]
  | .mk _ _ (some i) value, ip => by
    simp [emitField, asmField, emit_eq_encode l value, emit_eq_encode l i, selectAsm, Opcode.words,
      Operand.encode]

theorem emitFields_eq_encode (l : Literals) : ∀ (fs : List FieldInit) (ip : Nat),
    emitFields l fs ip = Asm.encode l (asmFields fs ip)
  | [], _ => rfl
  | f :: fs, ip => by
    simp [emitFields, asmFields, emitField_eq_encode l f, emitFields_eq_encode l fs]

theorem emitObject_eq_encode (l : Literals) : ∀ (d : ObjectDecl) (ip : Nat) (root : Bool),
    emitObject l d ip root = Asm.encode l (asmObject d ip root)
  | .mk _ className objectName _ args _ fields children, ip, root => by
    simp [emitObject, asmObject, emit_eq_encode l className, emit_eq_encode l objectName,
      emitArgs_eq_encode l args, emitFields_eq_encode l fields, emitChildren_eq_encode l children,
      Opcode.words, Operand.encode]

theorem emitChildren_eq_encode (l : Literals) : ∀ (cs : List ObjectDecl) (ip : Nat),
    emitChildren l cs ip = Asm.encode l (asmChildren cs ip)
  | [], _ => rfl
  | c :: cs, ip => by
    simp [emitChildren, asmChildren, emitObject_eq_encode l c, emitChildren_eq_encode l cs]

end

theorem emitOpt_eq_encode (l : Literals) (x : Option Expr) (ip : Nat) (want : Demand) :
    emitOpt l x ip want = Asm.encode l (asmOpt x ip want) := by
  cases x with
  | none => rfl
  | some x => exact emit_eq_encode l x ip want

end Expr

namespace Stmt

def asmLeave (target : Option Nat) : List Asm :=
  match target with
  | none => []
  | some ip => [⟨.jump, [.target ip]⟩]

mutual

/-- The symbolic code of a statement. -/
def asm : Stmt → Nat → Option LoopTargets → List Asm
  | expr _ x, ip, _ => x.asm ip .none
  | branch _ test whenTrue whenFalse, ip, targets =>
    let onTrue := ip + test.size test.testedAs + 2
    match whenFalse with
    | none =>
      test.asm ip test.testedAs
        ++ [⟨test.testedAs.jumpUnless, [.target (onTrue + blockSize whenTrue targets.isSome)]⟩]
        ++ asmBlock whenTrue onTrue targets
    | some whenFalse =>
      let onFalse := onTrue + blockSize whenTrue targets.isSome + 2
      test.asm ip test.testedAs ++ [⟨test.testedAs.jumpUnless, [.target onFalse]⟩]
        ++ asmBlock whenTrue onTrue targets
        ++ [⟨.jump, [.target (onFalse + blockSize whenFalse targets.isSome)]⟩]
        ++ asmBlock whenFalse onFalse targets
  | loop _ start test next body testLast, ip, _ =>
    let atTest := ip + Expr.sizeOpt start .none
    let atBody := if testLast then atTest else atTest + test.size test.testedAs + 2
    let atNext := atBody + blockSize body true
    let again := atNext + Expr.sizeOpt next .none
    let stop := again + test.size test.testedAs + 2
    Expr.asmOpt start ip .none
      ++ (if testLast then []
        else test.asm atTest test.testedAs ++ [⟨test.testedAs.jumpUnless, [.target stop]⟩])
      ++ asmBlock body atBody (some ⟨atNext, stop⟩)
      ++ Expr.asmOpt next atNext .none
      ++ test.asm again test.testedAs ++ [⟨test.testedAs.jumpIf, [.target atBody]⟩]
  | breakLoop _, _, targets => asmLeave (targets.map (·.stop))
  | continueLoop _, _, targets => asmLeave (targets.map (·.next))
  | ret _ value, ip, _ =>
    match value with
    | none => Asm.plain [.retVoid]
    | some x => x.asm ip .text ++ Asm.plain [.ret]
  | func pos name ns package params body, ip, _ =>
    let stop := ip + (params.length + blockSize body false + 8)
    ⟨.funcDecl, [.ident name, .ident? ns, .ident? package,
      .word (flagWord (!body.isEmpty) ||| (UInt32.ofNat pos.line <<< 1)), .target stop,
      .word (UInt32.ofNat params.length)] ++ params.map .ident⟩
      :: asmBlock body (ip + 7 + params.length) none ++ Asm.plain [.retVoid]

def asmBlock : List Stmt → Nat → Option LoopTargets → List Asm
  | [], _, _ => []
  | s :: ss, ip, targets => asm s ip targets ++ asmBlock ss (ip + size s targets.isSome) targets

end

theorem emitLeave_eq_encode (l : Literals) (target : Option Nat) :
    emitLeave target = Asm.encode l (asmLeave target) := by
  cases target <;> rfl

mutual

/-- The code of a statement is its symbolic code, written as words. -/
theorem emit_eq_encode (l : Literals) : ∀ (s : Stmt) (ip : Nat) (targets : Option LoopTargets),
    s.emit l ip targets = Asm.encode l (s.asm ip targets)
  | expr _ x, ip, _ => x.emit_eq_encode l ip .none
  | branch _ test whenTrue none, ip, targets => by
    simp [emit, asm, Expr.emit_eq_encode, emitBlock_eq_encode l whenTrue, Operand.encode]
  | branch _ test whenTrue (some whenFalse), ip, targets => by
    simp [emit, asm, Expr.emit_eq_encode, emitBlock_eq_encode l whenTrue,
      emitBlock_eq_encode l whenFalse, Operand.encode]
  | loop _ start test next body testLast, ip, targets => by
    cases testLast <;> simp [emit, asm, Expr.emit_eq_encode, Expr.emitOpt_eq_encode,
      emitBlock_eq_encode l body, Operand.encode]
  | breakLoop _, _, targets => emitLeave_eq_encode l _
  | continueLoop _, _, targets => emitLeave_eq_encode l _
  | ret _ none, ip, _ => rfl
  | ret _ (some x), ip, _ => by simp [emit, asm, Expr.emit_eq_encode, Opcode.words]
  | func _ _ _ _ params body, ip, _ => by
    have hparams : params.map l.ident = (params.map Operand.ident).map (Operand.encode l) := by
      simp [Operand.encode]
    simp only [emit, asm, emitBlock_eq_encode l body, Asm.encode_append, Asm.encode_cons,
      Asm.encode_plain, hparams, List.map_append]
    simp [Operand.encode, Opcode.words]

theorem emitBlock_eq_encode (l : Literals) :
    ∀ (ss : List Stmt) (ip : Nat) (targets : Option LoopTargets),
      emitBlock l ss ip targets = Asm.encode l (asmBlock ss ip targets)
  | [], _, _ => rfl
  | s :: ss, ip, targets => by
    simp [emitBlock, asmBlock, emit_eq_encode l s, emitBlock_eq_encode l ss]

end

def asmProgram (program : List Stmt) : List Asm := asmBlock program 0 none ++ Asm.plain [.retVoid]

end Stmt

theorem CodeUnit.code_written (filename : Text) (program : List Stmt) :
    (written filename program).code.toList
      = Asm.encode (Stmt.collectBlock program {}) (Stmt.asmProgram program) := by
  simp [written, Stmt.asmProgram, Stmt.emitBlock_eq_encode, Opcode.words]

/-! ## Sizes -/

namespace Asm

/-- How many words the instructions take. -/
def total (is : List Asm) : Nat := (is.map size).sum

@[simp] theorem total_nil : total [] = 0 := rfl

@[simp] theorem total_cons (i : Asm) (is : List Asm) : total (i :: is) = i.size + total is := rfl

@[simp] theorem total_append (is js : List Asm) : total (is ++ js) = total is + total js := by
  simp [total]

@[simp] theorem total_plain (ops : List Opcode) : total (plain ops) = ops.length := by
  induction ops with
  | nil => rfl
  | cons op ops ih =>
    simp only [plain, List.map_cons, total_cons, size, List.length_nil, List.length_cons] at ih ⊢
    omega

theorem length_encode (l : Literals) (is : List Asm) : (encode l is).length = total is := by
  induction is with
  | nil => rfl
  | cons i is ih =>
    simp only [encode_cons, List.length_cons, List.length_append, List.length_map, ih, total_cons,
      size]
    omega

end Asm

namespace Expr

@[simp] theorem total_elementAsm (name : Text) (index : List Asm) :
    Asm.total (elementAsm name index) = 3 + Asm.total index + 1 := by
  simp [elementAsm, Asm.size, ← Nat.add_assoc]

@[simp] theorem total_asm (x : Expr) (ip : Nat) (want : Demand) :
    Asm.total (x.asm ip want) = x.size want := by
  rw [← Asm.length_encode {}, ← emit_eq_encode, length_emit]

@[simp] theorem total_asmArgs (args : List Expr) (ip : Nat) :
    Asm.total (asmArgs args ip) = argsSize args := by
  rw [← Asm.length_encode {}, ← emitArgs_eq_encode, length_emitArgs]

@[simp] theorem total_asmField (f : FieldInit) (ip : Nat) :
    Asm.total (asmField f ip) = fieldSize f := by
  rw [← Asm.length_encode {}, ← emitField_eq_encode, length_emitField]

@[simp] theorem total_asmFields (fs : List FieldInit) (ip : Nat) :
    Asm.total (asmFields fs ip) = fieldsSize fs := by
  rw [← Asm.length_encode {}, ← emitFields_eq_encode, length_emitFields]

@[simp] theorem total_asmObject (d : ObjectDecl) (ip : Nat) (root : Bool) :
    Asm.total (asmObject d ip root) = objectSize d := by
  rw [← Asm.length_encode {}, ← emitObject_eq_encode, length_emitObject]

@[simp] theorem total_asmChildren (cs : List ObjectDecl) (ip : Nat) :
    Asm.total (asmChildren cs ip) = childrenSize cs := by
  rw [← Asm.length_encode {}, ← emitChildren_eq_encode, length_emitChildren]

@[simp] theorem total_asmOpt (x : Option Expr) (ip : Nat) (want : Demand) :
    Asm.total (asmOpt x ip want) = sizeOpt x want := by
  rw [← Asm.length_encode {}, ← emitOpt_eq_encode, length_emitOpt]

end Expr

namespace Stmt

@[simp] theorem total_asm (s : Stmt) (ip : Nat) (targets : Option LoopTargets) :
    Asm.total (s.asm ip targets) = s.size targets.isSome := by
  rw [← Asm.length_encode {}, ← emit_eq_encode, length_emit]

@[simp] theorem total_asmBlock (ss : List Stmt) (ip : Nat) (targets : Option LoopTargets) :
    Asm.total (asmBlock ss ip targets) = blockSize ss targets.isSome := by
  rw [← Asm.length_encode {}, ← emitBlock_eq_encode, length_emitBlock]

@[simp] theorem total_asmProgram (program : List Stmt) :
    Asm.total (asmProgram program) = blockSize program false + 1 := by
  simp [asmProgram]

/-- The code of a loop in parts, with a name for every position. -/
structure LoopCode (P : Nat → List Asm → Prop) (start : Option Expr) (test : Expr)
    (next : Option Expr) (body : List Stmt) (testLast : Bool)
    (ip atTest atBody atNext again stop : Nat) : Prop where
  atTest_eq : ip + Expr.sizeOpt start .none = atTest
  atBody_eq : (if testLast then atTest else atTest + test.size test.testedAs + 2) = atBody
  atNext_eq : atBody + blockSize body true = atNext
  again_eq : atNext + Expr.sizeOpt next .none = again
  stop_eq : again + test.size test.testedAs + 2 = stop
  startAt : P ip (Expr.asmOpt start ip .none)
  firstAt : testLast = false → P atTest
    (test.asm atTest test.testedAs ++ [⟨test.testedAs.jumpUnless, [.target stop]⟩])
  bodyAt : P atBody (asmBlock body atBody (some ⟨atNext, stop⟩))
  nextAt : P atNext (Expr.asmOpt next atNext .none)
  againAt : P again
    (test.asm again test.testedAs ++ [⟨test.testedAs.jumpIf, [.target atBody]⟩])

/-- What holds of code and of what it is put together from holds of the parts of a loop. -/
theorem asm_loop {P : Nat → List Asm → Prop}
    (hP : ∀ {ip : Nat} {is js : List Asm}, P ip (is ++ js) → P ip is ∧ P (ip + Asm.total is) js)
    {pos : Position} {start : Option Expr} {test : Expr} {next : Option Expr} {body : List Stmt}
    {testLast : Bool} {ip : Nat} {targets : Option LoopTargets}
    (h : P ip ((loop pos start test next body testLast).asm ip targets)) :
    ∃ atTest atBody atNext again stop,
      LoopCode P start test next body testLast ip atTest atBody atNext again stop ∧
        ip + (loop pos start test next body testLast).size targets.isSome = stop := by
  obtain ⟨atTest, hatTest⟩ : ∃ k, ip + Expr.sizeOpt start .none = k := ⟨_, rfl⟩
  obtain ⟨atBody, hatBody⟩ : ∃ k,
    (if testLast then atTest else atTest + test.size test.testedAs + 2) = k := ⟨_, rfl⟩
  obtain ⟨atNext, hatNext⟩ : ∃ k, atBody + blockSize body true = k := ⟨_, rfl⟩
  obtain ⟨again, hagain⟩ : ∃ k, atNext + Expr.sizeOpt next .none = k := ⟨_, rfl⟩
  obtain ⟨stop, hstop⟩ : ∃ k, again + test.size test.testedAs + 2 = k := ⟨_, rfl⟩
  have hfirst : atTest + Asm.total (if testLast then [] else test.asm atTest test.testedAs
      ++ [⟨test.testedAs.jumpUnless, [.target stop]⟩]) = atBody := by
    rw [← hatBody]
    cases testLast <;> simp [Asm.size, Nat.add_assoc]
  simp only [asm, hatTest, hatBody, hatNext, hagain, hstop] at h
  rw [List.append_assoc] at h
  obtain ⟨h, hagainAt⟩ := hP h
  obtain ⟨h, hnextAt⟩ := hP h
  obtain ⟨h, hbodyAt⟩ := hP h
  obtain ⟨hstartAt, hfirstAt⟩ := hP h
  simp only [Asm.total_append, Expr.total_asmOpt, total_asmBlock, Option.isSome_some,
    ← Nat.add_assoc, hatTest, hfirst, hatNext, hagain] at hagainAt hnextAt hbodyAt hfirstAt
  refine ⟨atTest, atBody, atNext, again, stop, ⟨hatTest, hatBody, hatNext, hagain, hstop,
    hstartAt, ?_, hbodyAt, hnextAt, hagainAt⟩, ?_⟩
  · intro hfalse
    simpa [hfalse] using hfirstAt
  · simp only [size]
    cases testLast <;> simp at hatBody ⊢ <;> omega

end Stmt

end ConsoleScript
