import ConsoleScript.Code.Compile
import ConsoleScript.Proofs.Source.Parsing

/-!
# The layout of code

The code of a node has the size that was computed for it, so it ends where the code behind it was
told to start. `Site.Within` says which node of a program was written where; the code of every such
node is found at its position in the unit. The line table has an entry for each statement that has
code of its own, in the order of positions.
-/

namespace ConsoleScript

theorem Opcode.length_words (ops : List Opcode) : (words ops).length = ops.length :=
  List.length_map _

namespace Demand

theorem length_convertWords (source target : Demand) (h : source ≠ .none) :
    (convertWords source target).length = convertSize source target := by
  cases source <;> cases target <;> first | rfl | exact absurd rfl h

theorem orText_ne_none (kind : Demand) : kind.orText ≠ .none := by
  cases kind <;> decide

end Demand

theorem UpdateOp.operands_ne_none (op : UpdateOp) : op.operands ≠ .none := by
  cases op <;> simp [operands]

namespace Expr

theorem storedAs_ne_none (x : Expr) : x.storedAs ≠ .none := Demand.orText_ne_none _

theorem testedAs_int_or_float (x : Expr) : x.testedAs = .int ∨ x.testedAs = .float := by
  unfold testedAs
  split
  · exact .inl rfl
  · exact .inr rfl

theorem negatedAs_int_or_float (x : Expr) : x.negatedAs = .int ∨ x.negatedAs = .float := by
  unfold negatedAs
  split
  · exact .inr rfl
  · exact .inl rfl

theorem resultOf_ne_none (op : UnaryOp) : resultOf op ≠ .none := by
  cases op <;> decide

mutual

theorem length_emit (l : Literals) : ∀ (x : Expr) (ip : Nat) (want : Demand),
    (x.emit l ip want).length = x.size want
  | int .., ip, want => by cases want <;> rfl
  | float .., ip, want => by cases want <;> rfl
  | str .., ip, want => by cases want <;> rfl
  | word .., ip, want => by cases want <;> rfl
  | var _ _ none, ip, want => by cases want <;> rfl
  | var _ _ (some i), ip, want => by
    simp only [emit, size]
    split
    · rfl
    · simp only [List.length_append, length_emit l i, Opcode.length_words, List.length_cons,
        List.length_nil]
      omega
  | assign _ _ none value, ip, want => by
    simp only [emit, size, List.length_append, length_emit l value,
      Demand.length_convertWords _ _ (storedAs_ne_none value)]
    rfl
  | assign _ _ (some i) value, ip, want => by
    simp only [emit, size, List.length_append, length_emit l value,
      Demand.length_convertWords _ _ (storedAs_ne_none value)]
    split <;> simp only [List.length_append, length_emit l i, Opcode.length_words,
      List.length_cons, List.length_nil] <;> omega
  | update _ _ none op value, ip, want => by
    simp only [emit, size, List.length_append, length_emit l value,
      Demand.length_convertWords _ _ op.operands_ne_none]
    rfl
  | update _ _ (some i) op value, ip, want => by
    simp only [emit, size, List.length_append, length_emit l value, length_emit l i,
      Demand.length_convertWords _ _ op.operands_ne_none, Opcode.length_words,
      List.length_cons, List.length_nil]
    omega
  | arith _ _ left right, ip, want => by
    simp only [emit, size, List.length_append, length_emit l left, length_emit l right,
      Demand.length_convertWords .float want (by decide), List.length_singleton]
    omega
  | wordArith _ _ left right, ip, want => by
    simp only [emit, size, List.length_append, length_emit l left, length_emit l right,
      Demand.length_convertWords .int want (by decide), List.length_singleton]
    omega
  | compare _ _ left right, ip, want => by
    simp only [emit, size, List.length_append, length_emit l left, length_emit l right,
      Demand.length_convertWords .int want (by decide), List.length_singleton]
    omega
  | logic _ _ left right, ip, want => by
    simp only [emit, size, List.length_append, length_emit l left, length_emit l right,
      Demand.length_convertWords .int want (by decide), List.length_cons, List.length_nil]
  | textEq _ equal left right, ip, want => by
    simp only [emit, size, List.length_append, length_emit l left, length_emit l right,
      Demand.length_convertWords .int want (by decide), List.length_singleton]
    cases equal <;> rfl
  | concat _ left right separator, ip, want => by
    simp only [emit, size, List.length_append, length_emit l left,
      Demand.length_convertWords .text want (by decide), List.length_singleton]
    cases separator with
    | none =>
      simp only [Separator.byte?, List.length_cons, length_emit l right, if_true]
      omega
    | space | tab | newline =>
      simp only [Separator.byte?, List.length_cons, length_emit l right, reduceCtorEq, if_false]
      omega
  | indexPair _ left right, ip, want => by
    simp only [emit, size, List.length_append, length_emit l left, length_emit l right,
      Demand.length_convertWords .text want (by decide), List.length_singleton]
  | unary _ op x, ip, want => by
    simp only [emit, size, List.length_append, length_emit l x,
      Demand.length_convertWords _ want (resultOf_ne_none op), List.length_singleton]
  | cond _ test whenTrue whenFalse, ip, want => by
    simp only [emit, size, List.length_append, length_emit l test, length_emit l whenTrue,
      length_emit l whenFalse, List.length_cons, List.length_nil]
    omega
  | call _ _ _ _ args, ip, want => by
    simp only [emit, size, List.length_append, List.length_cons, length_emitArgs l args,
      Demand.length_convertWords .text want (by decide), List.length_nil]
    omega
  | slot _ obj _ none, ip, want => by
    simp only [emit, size]
    split
    · rfl
    · simp only [List.length_append, length_emit l obj, List.length_cons, List.length_nil]
      omega
  | slot _ obj _ (some i), ip, want => by
    simp only [emit, size]
    split
    · rfl
    · simp only [List.length_append, length_emit l obj, length_emit l i, Opcode.length_words,
        List.length_cons, List.length_nil]
      omega
  | slotAssign _ obj _ none value, ip, want => by
    simp only [emit, size, List.length_append, length_emit l value, length_emit l obj,
      Demand.length_convertWords .text want (by decide), Opcode.length_words,
      List.length_cons, List.length_nil]
    omega
  | slotAssign _ obj _ (some i) value, ip, want => by
    simp only [emit, size, List.length_append, length_emit l value, length_emit l obj,
      length_emit l i, Demand.length_convertWords .text want (by decide), Opcode.length_words,
      List.length_cons, List.length_nil]
    omega
  | slotUpdate _ obj _ none op value, ip, want => by
    simp only [emit, size, List.length_append, length_emit l value, length_emit l obj,
      Demand.length_convertWords _ _ op.operands_ne_none, List.length_cons, List.length_nil]
    omega
  | slotUpdate _ obj _ (some i) op value, ip, want => by
    simp only [emit, size, List.length_append, length_emit l value, length_emit l obj,
      length_emit l i, Demand.length_convertWords _ _ op.operands_ne_none, Opcode.length_words,
      List.length_cons, List.length_nil]
    omega
  | object decl, ip, want => by
    simp only [emit, size, List.length_append, length_emitObject l decl,
      Demand.length_convertWords .int want (by decide), List.length_cons, List.length_nil]

theorem length_emitArgs (l : Literals) : ∀ (args : List Expr) (ip : Nat),
    (emitArgs l args ip).length = argsSize args
  | [], _ => rfl
  | a :: as, ip => by
    simp only [emitArgs, argsSize, List.length_append, length_emit l a, length_emitArgs l as,
      List.length_singleton]

theorem length_emitField (l : Literals) : ∀ (f : FieldInit) (ip : Nat),
    (emitField l f ip).length = fieldSize f
  | .mk _ _ none value, ip => by
    simp only [emitField, fieldSize, List.length_append, length_emit l value, Opcode.length_words,
      List.length_cons, List.length_nil]
    omega
  | .mk _ _ (some i) value, ip => by
    simp only [emitField, fieldSize, List.length_append, length_emit l value, length_emit l i,
      Opcode.length_words, List.length_cons, List.length_nil]
    omega

theorem length_emitFields (l : Literals) : ∀ (fs : List FieldInit) (ip : Nat),
    (emitFields l fs ip).length = fieldsSize fs
  | [], _ => rfl
  | f :: fs, ip => by
    simp only [emitFields, fieldsSize, List.length_append, length_emitField l f,
      length_emitFields l fs]

theorem length_emitObject (l : Literals) : ∀ (d : ObjectDecl) (ip : Nat) (root : Bool),
    (emitObject l d ip root).length = objectSize d
  | .mk _ className objectName _ args _ fields children, ip, root => by
    simp only [emitObject, objectSize, List.length_append, length_emit l className,
      length_emit l objectName, length_emitArgs l args, length_emitFields l fields,
      length_emitChildren l children, List.length_cons, List.length_nil]
    omega

theorem length_emitChildren (l : Literals) : ∀ (cs : List ObjectDecl) (ip : Nat),
    (emitChildren l cs ip).length = childrenSize cs
  | [], _ => rfl
  | c :: cs, ip => by
    simp only [emitChildren, childrenSize, List.length_append, length_emitObject l c,
      length_emitChildren l cs]

end

theorem length_emitOpt (l : Literals) (x : Option Expr) (ip : Nat) (want : Demand) :
    (emitOpt l x ip want).length = sizeOpt x want := by
  cases x with
  | none => rfl
  | some x => exact length_emit l x ip want

end Expr

namespace Stmt

theorem length_emitLeave (target : Option Nat) :
    (emitLeave target).length = if target.isSome then 2 else 0 := by
  cases target <;> rfl

mutual

theorem length_emit (l : Literals) : ∀ (s : Stmt) (ip : Nat) (targets : Option LoopTargets),
    (s.emit l ip targets).length = s.size targets.isSome
  | expr _ x, ip, _ => x.length_emit l ip .none
  | branch _ test whenTrue none, ip, targets => by
    simp only [emit, size, List.length_append, Expr.length_emit, length_emitBlock l whenTrue,
      List.length_cons, List.length_nil]
  | branch _ test whenTrue (some whenFalse), ip, targets => by
    simp only [emit, size, List.length_append, Expr.length_emit, length_emitBlock l whenTrue,
      length_emitBlock l whenFalse, List.length_cons, List.length_nil]
  | loop _ start test next body testLast, ip, targets => by
    cases testLast <;> simp [emit, size, Expr.length_emit, Expr.length_emitOpt,
      length_emitBlock l body] <;> omega
  | breakLoop _, ip, targets => by simp [emit, size, length_emitLeave]
  | continueLoop _, ip, targets => by simp [emit, size, length_emitLeave]
  | ret _ none, ip, _ => rfl
  | ret _ (some x), ip, _ => by simp [emit, size, Expr.length_emit]
  | func _ _ _ _ params body, ip, _ => by
    simp only [emit, size, List.length_append, length_emitBlock l body, List.length_map,
      List.length_cons, List.length_nil, Option.isSome_none]
    omega

theorem length_emitBlock (l : Literals) :
    ∀ (ss : List Stmt) (ip : Nat) (targets : Option LoopTargets),
      (emitBlock l ss ip targets).length = blockSize ss targets.isSome
  | [], _, _ => rfl
  | s :: ss, ip, targets => by
    simp only [emitBlock, blockSize, List.length_append, length_emit l s, length_emitBlock l ss]

end

end Stmt

/-! ## Code at a position -/

/-- The words stand in the code from position `ip` on. -/
def CodeAt (code : List UInt32) (ip : Nat) (words : List UInt32) : Prop := words <+: code.drop ip

namespace CodeAt

variable {code words more : List UInt32} {ip : Nat}

@[simp] theorem nil : CodeAt code ip [] := List.nil_prefix

theorem cons_iff {w : UInt32} :
    CodeAt code ip (w :: words) ↔ code[ip]? = some w ∧ CodeAt code (ip + 1) words := by
  unfold CodeAt
  rw [← List.tail_drop, ← List.head?_drop]
  cases code.drop ip with
  | nil => simp
  | cons v vs => simp [List.cons_prefix_cons, eq_comm]

theorem append_iff :
    CodeAt code ip (words ++ more) ↔
      CodeAt code ip words ∧ CodeAt code (ip + words.length) more := by
  induction words generalizing ip with
  | nil => simp
  | cons w ws ih =>
    rw [List.cons_append, cons_iff, cons_iff, ih, and_assoc, List.length_cons]
    rw [show ip + 1 + ws.length = ip + (ws.length + 1) by omega]

/-- The same place under another name. -/
theorem cast {ip' : Nat} (h : CodeAt code ip words) (e : ip = ip') : CodeAt code ip' words := e ▸ h

theorem left (h : CodeAt code ip (words ++ more)) : CodeAt code ip words := (append_iff.mp h).1

theorem right {ip' : Nat} (h : CodeAt code ip (words ++ more)) (e : ip + words.length = ip') :
    CodeAt code ip' more := (append_iff.mp h).2.cast e

theorem start : CodeAt (words ++ more) 0 words := List.prefix_append words more

theorem getElem? (h : CodeAt code ip words) {k : Nat} {w : UInt32} (hk : words[k]? = some w) :
    code[ip + k]? = some w := by
  obtain ⟨hlt, -⟩ := List.getElem?_eq_some_iff.mp hk
  obtain ⟨rest, hrest⟩ := h
  rw [← List.getElem?_drop, ← hrest, List.getElem?_append_left hlt, hk]

theorem length_le (h : CodeAt code ip words) (hne : words ≠ []) :
    ip + words.length ≤ code.length := by
  have hlen := List.IsPrefix.length_le h
  rw [List.length_drop] at hlen
  have := List.length_pos_iff.mpr hne
  omega

end CodeAt

theorem toNat_ipWord {ip : Nat} (h : ip < UInt32.size) : (ipWord ip).toNat = ip := by
  exact UInt32.toNat_ofNat_of_lt' h

/-! ## Nodes at positions -/

/-- A node of a program, what is asked of it, and the position it was written at. -/
inductive Site where
  | expr (x : Expr) (want : Demand) (ip : Nat)
  | field (f : FieldInit) (ip : Nat)
  | object (d : ObjectDecl) (root : Bool) (ip : Nat)
  | stmt (s : Stmt) (targets : Option LoopTargets) (ip : Nat)

namespace Site

/-- Where the code of the node starts. -/
def ip : Site → Nat
  | expr _ _ ip | field _ ip | object _ _ ip | stmt _ _ ip => ip

/-- The size that was computed for the node. -/
def size : Site → Nat
  | expr x want _ => x.size want
  | field f _ => Expr.fieldSize f
  | object d _ _ => Expr.objectSize d
  | stmt s targets _ => s.size targets.isSome

/-- The code of the node. -/
def code (l : Literals) : Site → List UInt32
  | expr x want ip => x.emit l ip want
  | field f ip => Expr.emitField l f ip
  | object d root ip => Expr.emitObject l d ip root
  | stmt s targets ip => s.emit l ip targets

theorem length_code (l : Literals) (q : Site) : (q.code l).length = q.size := by
  cases q with
  | expr x want ip => exact x.length_emit l ip want
  | field f ip => exact Expr.length_emitField l f ip
  | object d root ip => exact Expr.length_emitObject l d ip root
  | stmt s targets ip => exact s.length_emit l ip targets

/-- Arguments, each of which is pushed when it has been evaluated. -/
def args : List Expr → Nat → List Site
  | [], _ => []
  | a :: as, ip => expr a .text ip :: args as (ip + a.size .text + 1)

def fields : List FieldInit → Nat → List Site
  | [], _ => []
  | f :: fs, ip => field f ip :: fields fs (ip + Expr.fieldSize f)

def children : List ObjectDecl → Nat → List Site
  | [], _ => []
  | c :: cs, ip => object c false ip :: children cs (ip + Expr.objectSize c)

def block : List Stmt → Option LoopTargets → Nat → List Site
  | [], _, _ => []
  | s :: ss, targets, ip => stmt s targets ip :: block ss targets (ip + s.size targets.isSome)

def opt (x : Option Expr) (want : Demand) (ip : Nat) : List Site :=
  match x with
  | none => []
  | some x => [expr x want ip]

/-- An index and, behind it and the instruction that parks it, an object. -/
def indexed (index : Option Expr) (obj : Expr) (ip : Nat) : List Site :=
  match index with
  | none => [expr obj .text ip]
  | some i => [expr i .text ip, expr obj .text (ip + i.size .text + 1)]

def exprParts (x : Expr) (want : Demand) (ip : Nat) : List Site :=
  match x with
  | .int .. | .float .. | .str .. | .word .. => []
  | .var _ _ index => if want = .none then [] else opt index .text (ip + 3)
  | .assign _ _ index value =>
    let kind := value.storedAs
    expr value kind ip
      :: opt index .text (ip + value.size kind + if kind = .text then 4 else 3)
  | .update _ _ index op value =>
    expr value op.operands ip :: opt index .text (ip + value.size op.operands + 3)
  | .arith _ _ left right | .compare _ _ left right =>
    [expr right .float ip, expr left .float (ip + right.size .float)]
  | .wordArith _ _ left right => [expr right .int ip, expr left .int (ip + right.size .int)]
  | .logic _ _ left right => [expr left .int ip, expr right .int (ip + left.size .int + 2)]
  | .textEq _ _ left right | .indexPair _ left right =>
    [expr left .text ip, expr right .text (ip + left.size .text + 1)]
  | .concat _ left right separator =>
    [expr left .text ip,
      expr right .text (ip + left.size .text + if separator = .none then 1 else 2)]
  | .unary _ op x => [expr x (Expr.operandOf op x) ip]
  | .cond _ test whenTrue whenFalse =>
    let onTrue := ip + test.size test.testedAs + 2
    [expr test test.testedAs ip, expr whenTrue want onTrue,
      expr whenFalse want (onTrue + whenTrue.size want + 2)]
  | .call _ _ _ _ as => args as (ip + 1)
  | .slot _ obj _ index => if want = .none then [] else indexed index obj ip
  | .slotAssign _ obj _ index value =>
    expr value .text ip :: indexed index obj (ip + value.size .text + 1)
  | .slotUpdate _ obj _ index op value =>
    expr value op.operands ip :: indexed index obj (ip + value.size op.operands)
  | .object d => [object d true (ip + 2)]

def stmtParts (s : Stmt) (targets : Option LoopTargets) (ip : Nat) : List Site :=
  match s with
  | .expr _ x => [expr x .none ip]
  | .branch _ test whenTrue whenFalse =>
    let onTrue := ip + test.size test.testedAs + 2
    expr test test.testedAs ip :: block whenTrue targets onTrue
      ++ (match whenFalse with
        | none => []
        | some whenFalse =>
          block whenFalse targets (onTrue + Stmt.blockSize whenTrue targets.isSome + 2))
  | .loop _ start test next body testLast =>
    let atTest := ip + Expr.sizeOpt start .none
    let atBody := if testLast then atTest else atTest + test.size test.testedAs + 2
    let atNext := atBody + Stmt.blockSize body true
    let again := atNext + Expr.sizeOpt next .none
    let stop := again + test.size test.testedAs + 2
    opt start .none ip ++ (if testLast then [] else [expr test test.testedAs atTest])
      ++ block body (some ⟨atNext, stop⟩) atBody ++ opt next .none atNext
      ++ [expr test test.testedAs again]
  | .breakLoop _ | .continueLoop _ => []
  | .ret _ value => opt value .text ip
  | .func _ _ _ _ params body => block body none (ip + 7 + params.length)

/-- The parts a node is directly made of, where they were written. -/
def parts : Site → List Site
  | expr x want ip => exprParts x want ip
  | field (.mk _ _ index value) ip =>
    expr value .text ip :: opt index .text (ip + value.size .text + 1)
  | object (.mk _ className objectName _ as _ fs cs) _ ip =>
    let atName := ip + 1 + className.size .text + 1
    let atArgs := atName + objectName.size .text + 1
    let atFields := atArgs + Expr.argsSize as + 4
    expr className .text (ip + 1) :: expr objectName .text atName :: args as atArgs
      ++ fields fs atFields ++ children cs (atFields + Expr.fieldsSize fs + 2)
  | stmt s targets ip => stmtParts s targets ip

/-- `Within q p`: the node `p` is `q` or a part of it, directly or not. -/
inductive Within (q : Site) : Site → Prop
  | whole : Within q q
  | part {p r : Site} : Within q p → r ∈ p.parts → Within q r

/-- The node is written at its position as part of the program. -/
def Occurs (program : List Stmt) (q : Site) : Prop :=
  ∃ top ∈ block program none 0, top.Within q

/-! ## Statements among the parts -/

def isStmt : Site → Bool
  | stmt .. => true
  | _ => false

private theorem isStmt_args (as : List Expr) (ip : Nat) : ∀ q ∈ args as ip, q.isStmt = false := by
  induction as generalizing ip with
  | nil => simp [args]
  | cons a as ih =>
    rw [args, List.forall_mem_cons]
    exact ⟨rfl, ih _⟩

private theorem isStmt_fields (fs : List FieldInit) (ip : Nat) :
    ∀ q ∈ fields fs ip, q.isStmt = false := by
  induction fs generalizing ip with
  | nil => simp [fields]
  | cons f fs ih =>
    rw [fields, List.forall_mem_cons]
    exact ⟨rfl, ih _⟩

private theorem isStmt_children (cs : List ObjectDecl) (ip : Nat) :
    ∀ q ∈ children cs ip, q.isStmt = false := by
  induction cs generalizing ip with
  | nil => simp [children]
  | cons d cs ih =>
    rw [children, List.forall_mem_cons]
    exact ⟨rfl, ih _⟩

theorem isStmt_opt (x : Option Expr) (want : Demand) (ip : Nat) :
    ∀ q ∈ opt x want ip, q.isStmt = false := by
  cases x with
  | none => simp [opt]
  | some x => simp [opt, isStmt]

private theorem isStmt_indexed (index : Option Expr) (obj : Expr) (ip : Nat) :
    ∀ q ∈ indexed index obj ip, q.isStmt = false := by
  cases index with
  | none => simp [indexed, isStmt]
  | some i => simp [indexed, isStmt]

theorem isStmt_parts {q : Site} (h : q.isStmt = false) : ∀ p ∈ q.parts, p.isStmt = false := by
  cases q with
  | stmt => cases h
  | field f ip =>
    obtain ⟨pos, name, index, value⟩ := f
    simp only [parts, List.forall_mem_cons]
    exact ⟨rfl, isStmt_opt index .text _⟩
  | object d root ip =>
    obtain ⟨pos, className, objectName, copyFrom, as, datablock, fs, cs⟩ := d
    simp only [parts, List.cons_append, List.forall_mem_cons, List.forall_mem_append]
    exact ⟨rfl, rfl, ⟨isStmt_args _ _, isStmt_fields _ _⟩, isStmt_children _ _⟩
  | expr x want ip =>
    cases x with
    | int | float | str | word => simp [parts, exprParts]
    | var _ _ index =>
      simp only [parts, exprParts]
      split
      · simp
      · exact isStmt_opt index .text _
    | assign _ _ index value | update _ _ index op value =>
      simp only [parts, exprParts, List.forall_mem_cons]
      exact ⟨rfl, isStmt_opt index .text _⟩
    | arith | wordArith | compare | logic | textEq | concat | indexPair | unary | cond | object =>
      simp [parts, exprParts, isStmt]
    | call _ _ _ _ as => exact isStmt_args as _
    | slot _ obj _ index =>
      simp only [parts, exprParts]
      split
      · simp
      · exact isStmt_indexed index obj _
    | slotAssign _ obj _ index value | slotUpdate _ obj _ index op value =>
      simp only [parts, exprParts, List.forall_mem_cons]
      exact ⟨rfl, isStmt_indexed index obj _⟩

/-! ## The parts of a node stand inside its code -/

section parts

variable {l : Literals} {c : List UInt32} {ip : Nat}

def At (l : Literals) (c : List UInt32) (q : Site) : Prop := CodeAt c q.ip (q.code l)

private theorem at_args (as : List Expr) (ip : Nat) (h : CodeAt c ip (Expr.emitArgs l as ip)) :
    ∀ q ∈ args as ip, q.At l c := by
  induction as generalizing ip with
  | nil => simp [args]
  | cons a as ih =>
    simp only [args, List.forall_mem_cons]
    refine ⟨h.left.left, ih _ (h.right ?_)⟩
    simp only [List.length_append, Expr.length_emit, List.length_singleton, Nat.add_assoc]

private theorem at_fields (fs : List FieldInit) (ip : Nat)
    (h : CodeAt c ip (Expr.emitFields l fs ip)) : ∀ q ∈ fields fs ip, q.At l c := by
  induction fs generalizing ip with
  | nil => simp [fields]
  | cons f fs ih =>
    simp only [fields, List.forall_mem_cons]
    refine ⟨h.left, ih _ (h.right ?_)⟩
    rw [Expr.length_emitField]

private theorem at_children (cs : List ObjectDecl) (ip : Nat)
    (h : CodeAt c ip (Expr.emitChildren l cs ip)) : ∀ q ∈ children cs ip, q.At l c := by
  induction cs generalizing ip with
  | nil => simp [children]
  | cons d cs ih =>
    simp only [children, List.forall_mem_cons]
    refine ⟨h.left, ih _ (h.right ?_)⟩
    rw [Expr.length_emitObject]

theorem at_block (ss : List Stmt) (targets : Option LoopTargets) (ip : Nat)
    (h : CodeAt c ip (Stmt.emitBlock l ss ip targets)) : ∀ q ∈ block ss targets ip, q.At l c := by
  induction ss generalizing ip with
  | nil => simp [block]
  | cons s ss ih =>
    simp only [block, List.forall_mem_cons]
    refine ⟨h.left, ih _ (h.right ?_)⟩
    rw [Stmt.length_emit]

private theorem at_opt (x : Option Expr) (want : Demand) (ip : Nat)
    (h : CodeAt c ip (Expr.emitOpt l x ip want)) : ∀ q ∈ opt x want ip, q.At l c := by
  cases x with
  | none => simp [opt]
  | some x =>
    simp only [opt, List.forall_mem_singleton]
    exact h

private theorem at_indexed (i obj : Expr) (ip : Nat)
    (h : CodeAt c ip (i.emit l ip .text ++ [Opcode.advance.word]
      ++ obj.emit l (ip + i.size .text + 1) .text)) :
    ∀ q ∈ indexed (some i) obj ip, q.At l c := by
  simp only [indexed, List.forall_mem_cons]
  refine ⟨h.left.left, h.right ?_, by simp⟩
  simp only [List.length_append, Expr.length_emit]
  rfl

private theorem at_exprParts (x : Expr) (want : Demand) (ip : Nat)
    (h : CodeAt c ip (x.emit l ip want)) : ∀ q ∈ exprParts x want ip, q.At l c := by
  cases x with
  | int | float | str | word => simp [exprParts]
  | var _ _ index =>
    cases index with
    | none => simp [exprParts, opt]
    | some i =>
      by_cases hw : want = .none
      · simp [exprParts, hw]
      · simp only [Expr.emit, hw, if_false] at h
        simp only [exprParts, hw, if_false, opt, List.forall_mem_singleton]
        exact h.left.left.right rfl
  | assign _ _ index value =>
    simp only [exprParts, List.forall_mem_cons]
    cases index with
    | none =>
      simp only [Expr.emit] at h
      exact ⟨h.left.left.left, by simp [opt]⟩
    | some i =>
      simp only [Expr.emit] at h
      refine ⟨h.left.left.left, ?_⟩
      simp only [opt, List.forall_mem_singleton]
      have hindex := h.left.left.right rfl
      rw [Expr.length_emit] at hindex
      split at hindex
      · rw [if_pos ‹_›]
        exact hindex.left.right rfl
      · rw [if_neg ‹_›]
        exact hindex.left.right rfl
  | update _ _ index op value =>
    simp only [exprParts, List.forall_mem_cons]
    cases index with
    | none =>
      simp only [Expr.emit] at h
      exact ⟨h.left.left.left, by simp [opt]⟩
    | some i =>
      simp only [Expr.emit] at h
      refine ⟨h.left.left.left, ?_⟩
      simp only [opt, List.forall_mem_singleton]
      have hindex := h.left.left.right rfl
      rw [Expr.length_emit] at hindex
      exact hindex.left.right rfl
  | arith _ _ left right | wordArith _ _ left right | compare _ _ left right =>
    simp only [Expr.emit] at h
    simp only [exprParts, List.forall_mem_cons]
    exact ⟨h.left.left.left, h.left.left.right (by rw [Expr.length_emit]; rfl), by simp⟩
  | logic _ _ left right =>
    simp only [Expr.emit] at h
    simp only [exprParts, List.forall_mem_cons]
    refine ⟨h.left.left.left, h.left.right ?_, by simp⟩
    simp only [List.length_append, Expr.length_emit]
    rfl
  | textEq _ _ left right =>
    simp only [Expr.emit] at h
    simp only [exprParts, List.forall_mem_cons]
    refine ⟨h.left.left.left.left.left, h.left.left.left.right ?_, by simp⟩
    simp only [List.length_append, Expr.length_emit]
    rfl
  | indexPair _ left right =>
    simp only [Expr.emit] at h
    simp only [exprParts, List.forall_mem_cons]
    refine ⟨h.left.left.left.left, h.left.left.right ?_, by simp⟩
    simp only [List.length_append, Expr.length_emit]
    rfl
  | concat _ left right separator =>
    simp only [Expr.emit] at h
    simp only [exprParts, List.forall_mem_cons]
    refine ⟨h.left.left.left, ?_, by simp⟩
    have hright := h.left.left.right rfl
    rw [Expr.length_emit] at hright
    cases separator with
    | none => exact (CodeAt.cons_iff.mp hright).2
    | space | tab | newline => exact (CodeAt.cons_iff.mp (CodeAt.cons_iff.mp hright).2).2
  | unary _ op x =>
    simp only [Expr.emit] at h
    simp only [exprParts, List.forall_mem_singleton]
    exact h.left.left
  | cond _ test whenTrue whenFalse =>
    simp only [Expr.emit] at h
    simp only [exprParts, List.forall_mem_cons]
    refine ⟨h.left.left.left.left, h.left.left.right ?_, h.right ?_, by simp⟩
    · simp only [List.length_append, Expr.length_emit]
      rfl
    · simp only [List.length_append, Expr.length_emit, ← Nat.add_assoc]
      rfl
  | call _ _ _ _ as =>
    simp only [Expr.emit] at h
    exact at_args as (ip + 1) (CodeAt.cons_iff.mp h.left.left).2
  | slot _ obj _ index =>
    by_cases hw : want = .none
    · simp [exprParts, hw]
    simp only [exprParts, hw, if_false]
    cases index with
    | none =>
      simp only [Expr.emit, hw, if_false] at h
      simp only [indexed, List.forall_mem_singleton]
      exact h.left
    | some i =>
      simp only [Expr.emit, hw, if_false] at h
      exact at_indexed i obj ip h.left.left
  | slotAssign _ obj _ index value =>
    simp only [exprParts, List.forall_mem_cons]
    cases index with
    | none =>
      simp only [Expr.emit] at h
      have hobj := h.left.left.right rfl
      simp only [List.length_append, Expr.length_emit] at hobj
      simp only [indexed, List.forall_mem_singleton]
      exact ⟨h.left.left.left.left, hobj.left⟩
    | some i =>
      simp only [Expr.emit] at h
      have hobj := h.left.left.right rfl
      simp only [List.length_append, Expr.length_emit] at hobj
      exact ⟨h.left.left.left.left, at_indexed i obj _ hobj.left.left⟩
  | slotUpdate _ obj _ index op value =>
    simp only [exprParts, List.forall_mem_cons]
    cases index with
    | none =>
      simp only [Expr.emit] at h
      have hobj := h.left.left.right rfl
      rw [Expr.length_emit] at hobj
      simp only [indexed, List.forall_mem_singleton]
      exact ⟨h.left.left.left, hobj.left⟩
    | some i =>
      simp only [Expr.emit] at h
      have hobj := h.left.left.right rfl
      rw [Expr.length_emit] at hobj
      exact ⟨h.left.left.left, at_indexed i obj _ hobj.left.left⟩
  | object d =>
    simp only [Expr.emit] at h
    simp only [exprParts, List.forall_mem_singleton]
    exact h.left.left.right rfl

private theorem at_stmtParts (s : Stmt) (targets : Option LoopTargets) (ip : Nat)
    (h : CodeAt c ip (s.emit l ip targets)) : ∀ q ∈ stmtParts s targets ip, q.At l c := by
  cases s with
  | expr _ x =>
    simp only [Stmt.emit] at h
    simp only [stmtParts, List.forall_mem_singleton]
    exact h
  | branch _ test whenTrue whenFalse =>
    simp only [stmtParts, List.cons_append, List.forall_mem_cons, List.forall_mem_append]
    cases whenFalse with
    | none =>
      simp only [Stmt.emit] at h
      refine ⟨h.left.left, at_block _ _ _ (h.right ?_), by simp⟩
      simp only [List.length_append, Expr.length_emit]
      rfl
    | some whenFalse =>
      simp only [Stmt.emit] at h
      refine ⟨h.left.left.left.left, at_block _ _ _ (h.left.left.right ?_),
        at_block _ _ _ (h.right ?_)⟩
      · simp only [List.length_append, Expr.length_emit]
        rfl
      · simp only [List.length_append, Expr.length_emit, Stmt.length_emitBlock, ← Nat.add_assoc]
        rfl
  | loop _ start test next body testLast =>
    simp only [Stmt.emit] at h
    simp only [stmtParts, List.forall_mem_append, List.forall_mem_singleton]
    -- Without the first test the body starts where that test would stand.
    have hsize : (if testLast = true then [] else test.emit l (ip + Expr.sizeOpt start .none)
        test.testedAs ++ [test.testedAs.jumpUnless.word, ipWord
          ((if testLast = true then ip + Expr.sizeOpt start .none
            else ip + Expr.sizeOpt start .none + test.size test.testedAs + 2)
            + Stmt.blockSize body true + Expr.sizeOpt next .none + test.size test.testedAs
            + 2)]).length = if testLast = true then 0 else test.size test.testedAs + 2 := by
      cases testLast <;> simp [Expr.length_emit]
    have hbody := h.left.left.left.right rfl
    have hnext := h.left.left.right rfl
    have hagain := h.left.right rfl
    simp only [List.length_append, Expr.length_emitOpt, Stmt.length_emitBlock, Option.isSome_some,
      hsize] at hbody hnext hagain
    refine ⟨⟨⟨⟨at_opt _ _ _ h.left.left.left.left.left, ?_⟩, at_block _ _ _ (hbody.cast ?_)⟩,
      at_opt _ _ _ (hnext.cast ?_)⟩, hagain.cast ?_⟩
    · cases testLast with
      | true => simp
      | false =>
        simp only [Bool.false_eq_true, if_false, List.forall_mem_singleton]
        exact (h.left.left.left.left.right (by rw [Expr.length_emitOpt]; rfl)).left
    all_goals cases testLast <;> simp [Site.ip] <;> omega
  | breakLoop | continueLoop => simp [stmtParts]
  | ret _ value =>
    refine at_opt value .text ip ?_
    cases value with
    | none => exact .nil
    | some x =>
      simp only [Stmt.emit] at h
      exact h.left
  | func _ _ _ _ params body =>
    simp only [Stmt.emit] at h
    refine at_block _ _ _ (h.left.right ?_)
    simp only [List.length_append, List.length_map, ← Nat.add_assoc]
    rfl

theorem at_parts (q : Site) (h : q.At l c) : ∀ p ∈ q.parts, p.At l c := by
  cases q with
  | expr x want ip => exact at_exprParts x want ip h
  | field f ip =>
    obtain ⟨pos, name, index, value⟩ := f
    simp only [parts, List.forall_mem_cons]
    unfold At code at h
    cases index with
    | none =>
      simp only [Expr.emitField] at h
      exact ⟨h.left.left.left, by simp [opt]⟩
    | some i =>
      simp only [Expr.emitField] at h
      have hindex := h.left.right rfl
      simp only [List.length_append, Expr.length_emit] at hindex
      simp only [opt, List.forall_mem_singleton]
      exact ⟨h.left.left.left, hindex.left.left⟩
  | object d root ip =>
    obtain ⟨pos, className, objectName, copyFrom, as, datablock, fs, cs⟩ := d
    unfold At code at h
    simp only [Expr.emitObject] at h
    simp only [parts, List.cons_append, List.forall_mem_cons, List.forall_mem_append]
    have hclass := (CodeAt.cons_iff.mp h.left.left.left.left.left.left.left.left.left).2
    have hname := h.left.left.left.left.left.left.left.right rfl
    have hargs := h.left.left.left.left.left.right rfl
    have hfields := h.left.left.left.right rfl
    have hchildren := h.left.right rfl
    simp only [List.length_append, List.length_cons, List.length_nil, Expr.length_emit,
      Expr.length_emitArgs, Expr.length_emitFields] at hname hargs hfields hchildren
    refine ⟨hclass, hname.cast ?_, ⟨at_args _ _ (hargs.cast ?_), at_fields _ _ (hfields.cast ?_)⟩,
      at_children _ _ (hchildren.cast ?_)⟩
    all_goals simp only [Site.ip]; omega
  | stmt s targets ip => exact at_stmtParts s targets ip h

theorem at_within {q p : Site} (h : q.At l c) (hp : q.Within p) : p.At l c := by
  induction hp with
  | whole => exact h
  | part _ hr ih => exact at_parts _ ih _ hr

theorem at_occurs {program : List Stmt} {q : Site}
    (h : CodeAt c 0 (Stmt.emitBlock l program 0 none)) (hq : Occurs program q) : q.At l c := by
  obtain ⟨top, hmem, hwithin⟩ := hq
  exact at_within (at_block program none 0 h top hmem) hwithin

end parts

end Site

/-! ## The line table -/

namespace Stmt

mutual

/-- How many statements have an entry in the line table. Leaving a loop has none outside of
loops. -/
def breaks : Stmt → Bool → Nat
  | expr _ _, _ => 1
  | branch _ _ whenTrue whenFalse, inLoop =>
    1 + blockBreaks whenTrue inLoop
      + (match whenFalse with
        | none => 0
        | some whenFalse => blockBreaks whenFalse inLoop)
  | loop _ _ _ _ body _, _ => 1 + blockBreaks body true
  | breakLoop _, inLoop | continueLoop _, inLoop => if inLoop then 1 else 0
  | ret _ _, _ => 1
  | func _ _ _ _ _ body, _ => 1 + blockBreaks body false

def blockBreaks : List Stmt → Bool → Nat
  | [], _ => 0
  | s :: ss, inLoop => breaks s inLoop + blockBreaks ss inLoop

end

mutual

theorem length_lines : ∀ (s : Stmt) (ip : Nat) (inLoop : Bool),
    (lines s ip inLoop).length = breaks s inLoop
  | expr .., _, _ => rfl
  | branch _ _ whenTrue none, ip, inLoop => by
    simp only [lines, breaks, List.length_append, List.length_cons, length_blockLines whenTrue,
      List.length_nil, Nat.add_comm 1]
  | branch _ _ whenTrue (some whenFalse), ip, inLoop => by
    simp only [lines, breaks, List.length_append, List.length_cons, length_blockLines whenTrue,
      length_blockLines whenFalse, Nat.add_comm 1]
  | loop _ _ _ _ body _, ip, inLoop => by
    simp only [lines, breaks, List.length_cons, length_blockLines body, Nat.add_comm 1]
  | breakLoop .., _, inLoop => by cases inLoop <;> rfl
  | continueLoop .., _, inLoop => by cases inLoop <;> rfl
  | ret .., _, _ => rfl
  | func _ _ _ _ _ body, ip, _ => by
    simp only [lines, breaks, List.length_cons, length_blockLines body, Nat.add_comm 1]

theorem length_blockLines : ∀ (ss : List Stmt) (ip : Nat) (inLoop : Bool),
    (blockLines ss ip inLoop).length = blockBreaks ss inLoop
  | [], _, _ => rfl
  | s :: ss, ip, inLoop => by
    simp only [blockLines, blockBreaks, List.length_append, length_lines s, length_blockLines ss]

end

/-- Entries in the order of their positions, all of them from `first` to `last`. -/
def Ordered (first last : Nat) (entries : List LineBreak) : Prop :=
  entries.Pairwise (fun a b => a.ip ≤ b.ip) ∧
    ∀ b ∈ entries, first ≤ b.ip.toNat ∧ b.ip.toNat ≤ last

namespace Ordered

theorem nil (first last : Nat) : Ordered first last [] := by simp [Ordered]

theorem append {first middle last : Nat} {a b : List LineBreak} (ha : Ordered first middle a)
    (hb : Ordered middle last b) (hfirst : first ≤ middle) (hlast : middle ≤ last) :
    Ordered first last (a ++ b) := by
  refine ⟨List.pairwise_append.mpr ⟨ha.1, hb.1, fun x hx y hy => ?_⟩, fun x hx => ?_⟩
  · have := ha.2 x hx
    have := hb.2 y hy
    exact UInt32.le_iff_toNat_le.mpr (by omega)
  · rcases List.mem_append.mp hx with hx | hx
    · have := ha.2 x hx
      omega
    · have := hb.2 x hx
      omega

theorem mono {first middle first' last' : Nat} {a : List LineBreak} (h : Ordered first middle a)
    (hfirst : first' ≤ first) (hlast : middle ≤ last') : Ordered first' last' a := by
  refine ⟨h.1, fun x hx => ?_⟩
  have := h.2 x hx
  omega

theorem singleton (line : UInt32) {ip : Nat} (h : ip < UInt32.size) :
    Ordered ip ip [⟨line, ipWord ip⟩] := by
  simp [Ordered, toNat_ipWord h]

end Ordered

mutual

theorem lines_ordered : ∀ (s : Stmt) (ip : Nat) (inLoop : Bool),
    ip + size s inLoop < UInt32.size → Ordered ip (ip + size s inLoop) (lines s ip inLoop)
  | expr pos x, ip, inLoop, h => (Ordered.singleton _ (by omega)).mono (Nat.le_refl _) (by omega)
  | branch pos test whenTrue none, ip, inLoop, h => by
    simp only [size] at h ⊢
    have htrue := blockLines_ordered whenTrue (ip + test.size test.testedAs + 2) inLoop (by omega)
    simp only [lines, List.append_nil]
    exact (Ordered.singleton _ (by omega)).append (htrue.mono (by omega) (by omega))
      (Nat.le_refl _) (by omega)
  | branch pos test whenTrue (some whenFalse), ip, inLoop, h => by
    simp only [size] at h ⊢
    have htrue := blockLines_ordered whenTrue (ip + test.size test.testedAs + 2) inLoop (by omega)
    have hfalse := blockLines_ordered whenFalse
      (ip + test.size test.testedAs + 2 + blockSize whenTrue inLoop + 2) inLoop (by omega)
    have hhead : Ordered ip ip [⟨UInt32.ofNat pos.line, ipWord ip⟩] := .singleton _ (by omega)
    have htest := hhead.append (htrue.mono (by omega) (Nat.le_refl _)) (Nat.le_refl _) (by omega)
    exact htest.append (hfalse.mono (by omega) (by omega)) (by omega) (by omega)
  | loop pos start test next body testLast, ip, inLoop, h => by
    simp only [size] at h ⊢
    have hbody := blockLines_ordered body (if testLast then ip + Expr.sizeOpt start .none
      else ip + Expr.sizeOpt start .none + test.size test.testedAs + 2) true
      (by cases testLast <;> simp at h ⊢ <;> omega)
    exact (Ordered.singleton _ (by omega)).append
      (hbody.mono (by split <;> omega) (by split <;> omega))
      (Nat.le_refl _) (by omega)
  | breakLoop pos, ip, inLoop, h => by
    cases inLoop with
    | false => exact .nil _ _
    | true => exact (Ordered.singleton _ (by omega)).mono (Nat.le_refl _) (by omega)
  | continueLoop pos, ip, inLoop, h => by
    cases inLoop with
    | false => exact .nil _ _
    | true => exact (Ordered.singleton _ (by omega)).mono (Nat.le_refl _) (by omega)
  | ret pos value, ip, inLoop, h =>
    (Ordered.singleton _ (by omega)).mono (Nat.le_refl _) (by omega)
  | func pos _ _ _ params body, ip, inLoop, h => by
    simp only [size] at h ⊢
    have hbody := blockLines_ordered body (ip + 7 + params.length) false (by omega)
    exact (Ordered.singleton _ (by omega)).append (hbody.mono (by omega) (by omega))
      (Nat.le_refl _) (by omega)

theorem blockLines_ordered : ∀ (ss : List Stmt) (ip : Nat) (inLoop : Bool),
    ip + blockSize ss inLoop < UInt32.size →
      Ordered ip (ip + blockSize ss inLoop) (blockLines ss ip inLoop)
  | [], _, _, _ => .nil _ _
  | s :: ss, ip, inLoop, h => by
    simp only [blockSize] at h ⊢
    have hs := lines_ordered s ip inLoop (by omega)
    have hss := blockLines_ordered ss (ip + size s inLoop) inLoop (by omega)
    exact hs.append (hss.mono (Nat.le_refl _) (by omega)) (by omega) (by omega)

end

end Stmt

/-! ## Units -/

namespace CodeUnit

/-- What is written for a parsed script. -/
def written (filename : Text) (program : List Stmt) : CodeUnit :=
  let literals := Stmt.collectBlock program {}
  { name := filename
    code := (Stmt.emitBlock literals program 0 none ++ [Opcode.retVoid.word]).toArray
    texts := literals.texts.items
    floats := literals.floats.items
    lines := Stmt.blockLines program 0 false
    warnings := (Stmt.blockStrays program false).map (Stmt.strayWarning filename) }

/-- A parsed script always has a unit: its code is as long as it was sized. -/
theorem ofProgram_eq_ok (filename : Text) (program : List Stmt) :
    ofProgram filename program = .ok (written filename program) := by
  simp only [ofProgram, written, List.length_append, Stmt.length_emitBlock, Option.isSome_none,
    List.length_singleton, if_true]

theorem size_code_written (filename : Text) (program : List Stmt) :
    (written filename program).code.size = Stmt.blockSize program false + 1 := by
  simp [written, Stmt.length_emitBlock]

end CodeUnit

theorem compile_eq (source filename : Text) :
    compile source filename =
      if (parseProgram source).2 = [] then .ok (CodeUnit.written filename (parseProgram source).1)
      else .error (.parse (parseProgram source).2) := by
  unfold compile
  rcases parseProgram source with ⟨program, _ | ⟨e, errors⟩⟩
  · exact CodeUnit.ofProgram_eq_ok filename program
  · rfl

theorem compile_eq_ok {source filename : Text} {u : CodeUnit}
    (h : compile source filename = .ok u) :
    ∃ program, parseProgram source = (program, []) ∧ u = CodeUnit.written filename program := by
  rw [compile_eq] at h
  split at h
  · rename_i hnone
    exact ⟨_, Prod.ext rfl hnone, (Except.ok.inj h).symm⟩
  · cases h

/-- Compiling never fails for reasons of layout. A source with errors is refused with them. Any
other source was parsed to its end, where a parser that gives up would have left an error; then the
code of each node has the size computed for it and stands at the position it was written for, the
code ends where it was sized to end, and the line table has the counted entries in the order of
their positions. -/
theorem compile_layout (source filename : Text) :
    ((∃ errors, errors ≠ [] ∧ compile source filename = .error (.parse errors)) ∨
      ∃ u, compile source filename = .ok u) ∧
    (∀ (n : Nat) (s : ParseState), s.Spelled → (Parse.run (Parse.expression n) s).1 = none →
      s.errors.length < (Parse.run (Parse.expression n) s).2.errors.length) ∧
    ∀ program, parseProgram source = (program, []) →
      (Parse.run (Parse.programTail (ParseState.start source).depth []) (.start source)).1
        = some program ∧
      ∃ u, compile source filename = .ok u ∧
        u.code.size = Stmt.blockSize program false + 1 ∧
        (∀ q : Site, q.Occurs program →
          (q.code (Stmt.collectBlock program {})).length = q.size ∧
          CodeAt u.code.toList q.ip (q.code (Stmt.collectBlock program {}))) ∧
        u.lines.length = Stmt.blockBreaks program false ∧
        (u.code.size < UInt32.size → u.lines.Pairwise fun a b => a.ip ≤ b.ip) := by
  refine ⟨?_, ?_, ?_⟩
  · rw [compile_eq]
    split
    · exact .inr ⟨_, rfl⟩
    · exact .inl ⟨_, ‹_›, rfl⟩
  · intro n s hs hnone
    exact ((Parse.exprParsers Parse.wholes_any n).expression s hs.fits).error_of_none hnone rfl
  · intro program hparse
    refine ⟨(parseProgram_of_no_errors source program hparse).1,
      CodeUnit.written filename program, ?_, CodeUnit.size_code_written filename program, ?_,
      Stmt.length_blockLines program 0 false, ?_⟩
    · rw [compile_eq, hparse, if_pos rfl]
    · intro q hq
      exact ⟨q.length_code _, Site.at_occurs .start hq⟩
    · intro hsize
      rw [CodeUnit.size_code_written] at hsize
      exact (Stmt.blockLines_ordered program 0 false (by omega)).1

theorem compile_layout_while :
    (parseProgram "while(%x<3)%x++;").2 = [] ∧
      ∃ u, compile "while(%x<3)%x++;" "loop.cs" = .ok u ∧ u.code.size = 25 ∧ u.lines.length = 2 := by
  have hparse : (parseProgram "while(%x<3)%x++;").2 = [] := by decide +kernel
  obtain ⟨-, -, hall⟩ := compile_layout "while(%x<3)%x++;" "loop.cs"
  obtain ⟨-, u, hu, hsize, -, hlines, -⟩ := hall _ (Prod.ext rfl hparse)
  refine ⟨hparse, u, hu, hsize.trans ?_, hlines.trans ?_⟩
  · decide +kernel
  · decide +kernel

end ConsoleScript
