import ConsoleScript.Code.Collect

/-!
# Writing code

The code of an expression leaves its value on the stack of the kind it was asked for. Operands of
arithmetic are evaluated from right to left, so that the left one ends on top; texts are joined
and compared from left to right. Jump targets are absolute positions, computed from sizes.
-/

namespace ConsoleScript

/-- The words of instructions without operands. -/
def Opcode.words (ops : List Opcode) : List UInt32 := ops.map Opcode.word

namespace ArithOp

def opcode : ArithOp → Opcode
  | .add => .add
  | .sub => .sub
  | .mul => .mul
  | .div => .div

end ArithOp

namespace WordOp

def opcode : WordOp → Opcode
  | .mod => .mod
  | .bitAnd => .bitAnd
  | .bitOr => .bitOr
  | .bitXor => .xor
  | .shl => .shl
  | .shr => .shr

end WordOp

namespace CompareOp

def opcode : CompareOp → Opcode
  | .eq => .cmpEq
  | .ne => .cmpNe
  | .lt => .cmpLt
  | .gt => .cmpGt
  | .le => .cmpLe
  | .ge => .cmpGe

end CompareOp

namespace UpdateOp

def opcode : UpdateOp → Opcode
  | .arith op => op.opcode
  | .word op => op.opcode

end UpdateOp

namespace CallKind

/-- The operand that tells how a function is called. -/
def word : CallKind → UInt32
  | .function => 0
  | .method => 1
  | .parent => 2

end CallKind

namespace Demand

/-- The instruction that reads the current variable. -/
def loadVar : Demand → Opcode
  | .int => .loadVarInt
  | .float => .loadVarFloat
  | _ => .loadVarText

/-- The instruction that sets the current variable. -/
def saveVar : Demand → Opcode
  | .int => .saveVarInt
  | .float => .saveVarFloat
  | _ => .saveVarText

def loadField : Demand → Opcode
  | .int => .loadFieldInt
  | .float => .loadFieldFloat
  | _ => .loadFieldText

def saveField : Demand → Opcode
  | .int => .saveFieldInt
  | .float => .saveFieldFloat
  | _ => .saveFieldText

def jumpUnless : Demand → Opcode
  | .int => .jumpUnless
  | _ => .jumpUnlessFloat

def jumpIf : Demand → Opcode
  | .int => .jumpIf
  | _ => .jumpIfFloat

/-- The words that turn a value of one kind into another. -/
def convertWords (source target : Demand) : List UInt32 := Opcode.words (convert source target)

end Demand

/-- A code position as a word. -/
def ipWord (ip : Nat) : UInt32 := UInt32.ofNat ip

def flagWord (b : Bool) : UInt32 := if b then 1 else 0

namespace Expr

def immediate (i : Int64) : List UInt32 := [Opcode.loadInt.word, Number.lowWord i]

mutual

/-- The code of an expression at position `ip`. -/
def emit (l : Literals) : Expr → Nat → Demand → List UInt32
  | int _ v, _, want =>
    match want with
    | .none => []
    | .int => immediate (Int64.ofInt v)
    | .float => [Opcode.loadFloat.word, l.float (intAsFloat v)]
    | .text => [Opcode.loadText.word, l.text (Text.ofInt v)]
  | float _ v, _, want =>
    match want with
    | .none => []
    | .int => immediate (Number.toInt64 v)
    | .float => [Opcode.loadFloat.word, l.float v]
    | .text => [Opcode.loadText.word, l.text (Number.toText v)]
  | str _ v _, _, want =>
    match want with
    | .none => []
    | .int => immediate (Number.toInt64 (Number.ofText v))
    | .float => [Opcode.loadFloat.word, l.float (Number.ofText v)]
    | .text => [Opcode.loadText.word, l.text v]
  | word _ v, _, want =>
    match want with
    | .none => []
    | .int => immediate (Number.toInt64 (Number.ofText v))
    | .float => [Opcode.loadFloat.word, l.float (Number.ofText v)]
    | .text => [Opcode.loadIdent.word, l.text v]
  | var _ name index, ip, want =>
    if want = .none then []
    else
      (match index with
        | none => [Opcode.setVar.word, l.ident name]
        | some i =>
          [Opcode.loadIdent.word, l.ident name, Opcode.advance.word]
            ++ emit l i (ip + 3) .text ++ Opcode.words [.rewind, .setVarArray])
        ++ [want.loadVar.word]
  | assign _ name index value, ip, want =>
    let kind := value.storedAs
    let n := ip + value.size kind
    emit l value ip kind
      ++ (match index with
        | none => [Opcode.setVarCreate.word, l.ident name]
        | some i =>
          if kind = .text then
            [Opcode.advance.word, Opcode.loadIdent.word, l.ident name, Opcode.advance.word]
              ++ emit l i (n + 4) .text
              ++ Opcode.words [.rewind, .setVarArrayCreate, .terminateRewind]
          else
            [Opcode.loadIdent.word, l.ident name, Opcode.advance.word]
              ++ emit l i (n + 3) .text ++ Opcode.words [.rewind, .setVarArrayCreate])
      ++ [kind.saveVar.word] ++ Demand.convertWords kind want
  | update _ name index op value, ip, want =>
    let kind := op.operands
    let n := ip + value.size kind
    emit l value ip kind
      ++ (match index with
        | none => [Opcode.setVarCreate.word, l.ident name]
        | some i =>
          [Opcode.loadIdent.word, l.ident name, Opcode.advance.word]
            ++ emit l i (n + 3) .text ++ Opcode.words [.rewind, .setVarArrayCreate])
      ++ [kind.loadVar.word, op.opcode.word, kind.saveVar.word] ++ Demand.convertWords kind want
  | arith _ op left right, ip, want =>
    emit l right ip .float ++ emit l left (ip + right.size .float) .float
      ++ [op.opcode.word] ++ Demand.convertWords .float want
  | wordArith _ op left right, ip, want =>
    emit l right ip .int ++ emit l left (ip + right.size .int) .int
      ++ [op.opcode.word] ++ Demand.convertWords .int want
  | compare _ op left right, ip, want =>
    emit l right ip .float ++ emit l left (ip + right.size .float) .float
      ++ [op.opcode.word] ++ Demand.convertWords .int want
  | logic _ op left right, ip, want =>
    let n := ip + left.size .int + 2
    emit l left ip .int
      ++ [(if op = .or then Opcode.jumpIfKeep else Opcode.jumpUnlessKeep).word,
        ipWord (n + right.size .int)]
      ++ emit l right n .int ++ Demand.convertWords .int want
  | textEq _ equal left right, ip, want =>
    emit l left ip .text ++ [Opcode.advanceNul.word]
      ++ emit l right (ip + left.size .text + 1) .text ++ [Opcode.compareText.word]
      ++ (if equal then [] else [Opcode.not.word]) ++ Demand.convertWords .int want
  | concat _ left right separator, ip, want =>
    let n := ip + left.size .text
    emit l left ip .text
      ++ (match separator.byte? with
        | none => Opcode.advance.word :: emit l right (n + 1) .text
        | some b => Opcode.advanceChar.word :: b.toUInt32 :: emit l right (n + 2) .text)
      ++ [Opcode.rewind.word] ++ Demand.convertWords .text want
  | indexPair _ left right, ip, want =>
    emit l left ip .text ++ [Opcode.advanceComma.word]
      ++ emit l right (ip + left.size .text + 1) .text ++ [Opcode.rewind.word]
      ++ Demand.convertWords .text want
  | unary _ op x, ip, want =>
    emit l x ip (operandOf op x)
      ++ [(match op with
        | .neg => Opcode.neg
        | .complement => Opcode.complement
        | .not => if x.negatedAs = Demand.int then Opcode.not else Opcode.notFloat).word]
      ++ Demand.convertWords (resultOf op) want
  | cond _ test whenTrue whenFalse, ip, want =>
    let onTrue := ip + test.size test.testedAs + 2
    let onFalse := onTrue + whenTrue.size want + 2
    emit l test ip test.testedAs
      ++ [test.testedAs.jumpUnless.word, ipWord onFalse]
      ++ emit l whenTrue onTrue want
      ++ [Opcode.jump.word, ipWord (onFalse + whenFalse.size want)]
      ++ emit l whenFalse onFalse want
  | call _ name ns kind args, ip, want =>
    Opcode.pushFrame.word :: emitArgs l args (ip + 1)
      ++ [Opcode.callFunc.word, l.ident name, l.ident? ns, kind.word]
      ++ Demand.convertWords .text want
  | slot _ obj field index, ip, want =>
    if want = .none then []
    else match index with
      | none =>
        emit l obj ip .text
          ++ [Opcode.setObject.word, Opcode.setField.word, l.ident field, want.loadField.word]
      | some i =>
        emit l i ip .text ++ [Opcode.advance.word]
          ++ emit l obj (ip + i.size .text + 1) .text
          ++ [Opcode.setObject.word, Opcode.setField.word, l.ident field]
          ++ Opcode.words [.terminateRewind, .setFieldArray, want.loadField]
  | slotAssign _ obj field index value, ip, want =>
    let n := ip + value.size .text + 1
    emit l value ip .text ++ [Opcode.advance.word]
      ++ (match index with
        | none =>
          emit l obj n .text ++ [Opcode.setObject.word, Opcode.setField.word, l.ident field]
        | some i =>
          emit l i n .text ++ [Opcode.advance.word]
            ++ emit l obj (n + i.size .text + 1) .text
            ++ [Opcode.setObject.word, Opcode.setField.word, l.ident field]
            ++ Opcode.words [.terminateRewind, .setFieldArray])
      ++ Opcode.words [.terminateRewind, .saveFieldText] ++ Demand.convertWords .text want
  | slotUpdate _ obj field index op value, ip, want =>
    let kind := op.operands
    let n := ip + value.size kind
    emit l value ip kind
      ++ (match index with
        | none =>
          emit l obj n .text ++ [Opcode.setObject.word, Opcode.setField.word, l.ident field]
        | some i =>
          emit l i n .text ++ [Opcode.advance.word]
            ++ emit l obj (n + i.size .text + 1) .text
            ++ [Opcode.setObject.word, Opcode.setField.word, l.ident field]
            ++ Opcode.words [.terminateRewind, .setFieldArray])
      ++ [kind.loadField.word, op.opcode.word, kind.saveField.word]
      ++ Demand.convertWords kind want
  | object decl, ip, want =>
    [Opcode.loadInt.word, 0] ++ emitObject l decl (ip + 2) true ++ [Opcode.finishObject.word]
      ++ Demand.convertWords .int want

def emitArgs (l : Literals) : List Expr → Nat → List UInt32
  | [], _ => []
  | a :: as, ip =>
    emit l a ip .text ++ [Opcode.push.word] ++ emitArgs l as (ip + a.size .text + 1)

def emitField (l : Literals) : FieldInit → Nat → List UInt32
  | .mk _ field index value, ip =>
    let n := ip + value.size .text + 1
    emit l value ip .text ++ [Opcode.advance.word]
      ++ (match index with
        | none => [Opcode.setObjectNew.word, Opcode.setField.word, l.ident field]
        | some i =>
          emit l i n .text
            ++ [Opcode.advance.word, Opcode.setObjectNew.word, Opcode.setField.word, l.ident field]
            ++ Opcode.words [.terminateRewind, .setFieldArray])
      ++ Opcode.words [.terminateRewind, .saveFieldText, .textToNone]

def emitFields (l : Literals) : List FieldInit → Nat → List UInt32
  | [], _ => []
  | f :: fs, ip => emitField l f ip ++ emitFields l fs (ip + fieldSize f)

/-- An object declaration at position `ip`; `root` marks the outermost one. When the object cannot
be created, the machine jumps behind the declaration. -/
def emitObject (l : Literals) : ObjectDecl → Nat → Bool → List UInt32
  | .mk pos className objectName copyFrom args datablock fields children, ip, root =>
    let atName := ip + 1 + className.size .text + 1
    let atArgs := atName + objectName.size .text + 1
    let atFields := atArgs + argsSize args + 4
    let atChildren := atFields + fieldsSize fields + 2
    let stop := ip + objectSize
      (.mk pos className objectName copyFrom args datablock fields children)
    Opcode.pushFrame.word :: emit l className (ip + 1) .text ++ [Opcode.push.word]
      ++ emit l objectName atName .text ++ [Opcode.push.word]
      ++ emitArgs l args atArgs
      ++ [Opcode.createObject.word, l.ident? copyFrom, flagWord datablock, ipWord stop]
      ++ emitFields l fields atFields
      ++ [Opcode.addObject.word, flagWord root]
      ++ emitChildren l children atChildren
      ++ [Opcode.endObject.word, flagWord root]

def emitChildren (l : Literals) : List ObjectDecl → Nat → List UInt32
  | [], _ => []
  | c :: cs, ip => emitObject l c ip false ++ emitChildren l cs (ip + objectSize c)

end

def emitOpt (l : Literals) (x : Option Expr) (ip : Nat) (want : Demand) : List UInt32 :=
  match x with
  | none => []
  | some x => x.emit l ip want

end Expr

/-- Where `continue` and `break` of the innermost loop go. -/
structure LoopTargets where
  next : Nat
  stop : Nat

namespace Stmt

/-- The jump out of a loop body, or nothing outside of loops. -/
def emitLeave (target : Option Nat) : List UInt32 :=
  match target with
  | none => []
  | some ip => [Opcode.jump.word, ipWord ip]

mutual

/-- The code of a statement at position `ip`. -/
def emit (l : Literals) : Stmt → Nat → Option LoopTargets → List UInt32
  | expr _ x, ip, _ => x.emit l ip .none
  | branch _ test whenTrue whenFalse, ip, targets =>
    let onTrue := ip + test.size test.testedAs + 2
    match whenFalse with
    | none =>
      test.emit l ip test.testedAs
        ++ [test.testedAs.jumpUnless.word, ipWord (onTrue + blockSize whenTrue targets.isSome)]
        ++ emitBlock l whenTrue onTrue targets
    | some whenFalse =>
      let onFalse := onTrue + blockSize whenTrue targets.isSome + 2
      test.emit l ip test.testedAs
        ++ [test.testedAs.jumpUnless.word, ipWord onFalse]
        ++ emitBlock l whenTrue onTrue targets
        ++ [Opcode.jump.word, ipWord (onFalse + blockSize whenFalse targets.isSome)]
        ++ emitBlock l whenFalse onFalse targets
  | loop _ start test next body testLast, ip, _ =>
    let atTest := ip + Expr.sizeOpt start .none
    let atBody := if testLast then atTest else atTest + test.size test.testedAs + 2
    let atNext := atBody + blockSize body true
    let again := atNext + Expr.sizeOpt next .none
    let stop := again + test.size test.testedAs + 2
    Expr.emitOpt l start ip .none
      ++ (if testLast then []
        else test.emit l atTest test.testedAs ++ [test.testedAs.jumpUnless.word, ipWord stop])
      ++ emitBlock l body atBody (some ⟨atNext, stop⟩)
      ++ Expr.emitOpt l next atNext .none
      ++ test.emit l again test.testedAs
      ++ [test.testedAs.jumpIf.word, ipWord atBody]
  | breakLoop _, _, targets => emitLeave (targets.map (·.stop))
  | continueLoop _, _, targets => emitLeave (targets.map (·.next))
  | ret _ value, ip, _ =>
    match value with
    | none => [Opcode.retVoid.word]
    | some x => x.emit l ip .text ++ [Opcode.ret.word]
  | func pos name ns package params body, ip, _ =>
    let stop := ip + (params.length + blockSize body false + 8)
    [Opcode.funcDecl.word, l.ident name, l.ident? ns, l.ident? package,
      flagWord (!body.isEmpty) ||| (UInt32.ofNat pos.line <<< 1), ipWord stop,
      UInt32.ofNat params.length]
      ++ params.map l.ident
      ++ emitBlock l body (ip + 7 + params.length) none
      ++ [Opcode.retVoid.word]

def emitBlock (l : Literals) : List Stmt → Nat → Option LoopTargets → List UInt32
  | [], _, _ => []
  | s :: ss, ip, targets =>
    emit l s ip targets ++ emitBlock l ss (ip + size s targets.isSome) targets

end

end Stmt
end ConsoleScript
