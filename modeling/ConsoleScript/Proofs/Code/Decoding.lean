import ConsoleScript.Code.Compile
import ConsoleScript.Code.Instruction
import ConsoleScript.Proofs.Code.Literals
import ConsoleScript.Proofs.Source.Parsing
import Mathlib.Data.List.Forall2

/-!
# Cutting compiled code

The code of a compiled unit is cut into exactly the instructions it was written from. Jumps lead to
instructions, operands to the literals they were written for, and the declaration of an object that
cannot be created is left behind its own last instruction.
-/

namespace ConsoleScript

/-! ## Kinds of operands -/

inductive OperandKind where
  /-- The index of a text. -/
  | name
  /-- The index of an identifier, or the mark of its absence. -/
  | optionalName
  /-- The index of a number. -/
  | number
  /-- A position in the code. -/
  | target
  | raw
  deriving DecidableEq, Repr

namespace Opcode

/-- The operands that always follow the instruction. -/
def kinds : Opcode → List OperandKind
  | .funcDecl => [.name, .optionalName, .optionalName, .raw, .target, .raw]
  | .createObject => [.optionalName, .raw, .target]
  | .callFunc => [.name, .optionalName, .raw]
  | .jumpUnlessFloat | .jumpUnless | .jumpIfFloat | .jumpIf | .jumpUnlessKeep | .jumpIfKeep
  | .jump => [.target]
  | .setVar | .setVarCreate | .setField | .loadText | .loadIdent => [.name]
  | .loadFloat => [.number]
  | .addObject | .endObject | .loadInt | .advanceChar => [.raw]
  | _ => []

theorem length_kinds (op : Opcode) : op.kinds.length = op.operandCount := by
  cases op <;> rfl

end Opcode

@[simp] theorem ArithOp.kinds_opcode (op : ArithOp) : op.opcode.kinds = [] := by
  cases op <;> rfl

@[simp] theorem WordOp.kinds_opcode (op : WordOp) : op.opcode.kinds = [] := by
  cases op <;> rfl

@[simp] theorem CompareOp.kinds_opcode (op : CompareOp) : op.opcode.kinds = [] := by
  cases op <;> rfl

@[simp] theorem UpdateOp.kinds_opcode (op : UpdateOp) : op.opcode.kinds = [] := by
  cases op with
  | arith op => exact op.kinds_opcode
  | word op => exact op.kinds_opcode

namespace Demand

@[simp] theorem kinds_loadVar (d : Demand) : d.loadVar.kinds = [] := by cases d <;> rfl

@[simp] theorem kinds_saveVar (d : Demand) : d.saveVar.kinds = [] := by cases d <;> rfl

@[simp] theorem kinds_loadField (d : Demand) : d.loadField.kinds = [] := by cases d <;> rfl

@[simp] theorem kinds_saveField (d : Demand) : d.saveField.kinds = [] := by cases d <;> rfl

@[simp] theorem kinds_jumpUnless (d : Demand) : d.jumpUnless.kinds = [.target] := by
  cases d <;> rfl

@[simp] theorem kinds_jumpIf (d : Demand) : d.jumpIf.kinds = [.target] := by cases d <;> rfl

theorem kinds_convert (source target : Demand) :
    ∀ op ∈ convert source target, op.kinds = [] := by
  cases source <;> cases target <;> decide

end Demand

/-- What kind of word an operand becomes. -/
def Operand.kind : Operand → OperandKind
  | .text _ | .ident _ => .name
  | .ident? _ => .optionalName
  | .float _ => .number
  | .target _ => .target
  | .word _ => .raw

/-! ## Instructions at positions -/

namespace Asm

/-- The operands are those of the opcode. A function declaration has its parameters behind them,
and says how many there are. -/
def Formed (i : Asm) : Prop :=
  ∃ n, i.operands.map Operand.kind = i.op.kinds ++ List.replicate n .name ∧
    if i.op = .funcDecl then i.operands[5]? = some (.word (UInt32.ofNat n)) else n = 0

/-- Instructions in a row, each with its position. -/
def located (ip : Nat) : List Asm → List (Nat × Asm)
  | [] => []
  | i :: is => (ip, i) :: located (ip + i.size) is

/-- The instructions stand in a row from position `ip` on, with another instruction behind them. -/
def Stands (all : List (Nat × Asm)) (ip : Nat) : List Asm → Prop
  | [] => ∃ i, (ip, i) ∈ all
  | i :: is => (ip, i) ∈ all ∧ Stands all (ip + i.size) is

def Each (p : Nat → Asm → Prop) (ip : Nat) : List Asm → Prop
  | [] => True
  | i :: is => p ip i ∧ Each p (ip + i.size) is

variable {all : List (Nat × Asm)} {p : Nat → Asm → Prop} {ip : Nat}

theorem Stands.first {is : List Asm} (h : Stands all ip is) : ∃ i, (ip, i) ∈ all := by
  cases is with
  | nil => exact h
  | cons i is => exact ⟨i, h.1⟩

theorem Stands.last {is : List Asm} (h : Stands all ip is) : ∃ i, (ip + total is, i) ∈ all := by
  induction is generalizing ip with
  | nil => exact h
  | cons i is ih =>
    rw [total_cons, ← Nat.add_assoc]
    exact ih h.2

@[simp] theorem stands_append (is js : List Asm) :
    Stands all ip (is ++ js) ↔ Stands all ip is ∧ Stands all (ip + total is) js := by
  induction is generalizing ip with
  | nil => exact ⟨fun h => ⟨h.first, h⟩, fun h => h.2⟩
  | cons i is ih => simp only [List.cons_append, Stands, ih, total_cons, Nat.add_assoc, and_assoc]

@[simp] theorem each_append (is js : List Asm) :
    Each p ip (is ++ js) ↔ Each p ip is ∧ Each p (ip + total is) js := by
  induction is generalizing ip with
  | nil => simp [Each]
  | cons i is ih => simp only [List.cons_append, Each, ih, total_cons, Nat.add_assoc, and_assoc]

theorem each_iff (is : List Asm) : Each p ip is ↔ ∀ e ∈ located ip is, p e.1 e.2 := by
  induction is generalizing ip with
  | nil => simp [Each, located]
  | cons i is ih => simp [Each, located, ih]

theorem exists_mem_located {is : List Asm} {i : Asm} (h : i ∈ is) :
    ∃ q, (q, i) ∈ located ip is := by
  induction is generalizing ip with
  | nil => cases h
  | cons j is ih =>
    rcases List.mem_cons.mp h with rfl | h
    · exact ⟨ip, by simp [located]⟩
    · obtain ⟨q, hq⟩ := ih h
      exact ⟨q, List.mem_cons_of_mem _ hq⟩

theorem mem_of_mem_located {is : List Asm} {e : Nat × Asm} (h : e ∈ located ip is) :
    e.2 ∈ is ∧ e.1 < ip + total is := by
  induction is generalizing ip with
  | nil => cases h
  | cons j is ih =>
    rw [total_cons, size]
    rcases List.mem_cons.mp h with rfl | h
    · exact ⟨by simp, by simp only; omega⟩
    · obtain ⟨hmem, hlt⟩ := ih h
      rw [size] at hlt
      exact ⟨List.mem_cons_of_mem _ hmem, by omega⟩

theorem stands_located (is js : List Asm) (h : js ≠ []) :
    Stands (located ip (is ++ js)) ip is := by
  suffices ∀ all, (∀ e ∈ located ip (is ++ js), e ∈ all) → Stands all ip is from
    this _ fun _ he => he
  intro all hall
  induction is generalizing ip with
  | nil =>
    cases js with
    | nil => exact absurd rfl h
    | cons j js => exact ⟨j, hall _ (by simp [located])⟩
  | cons i is ih =>
    simp only [List.cons_append, located, List.forall_mem_cons] at hall
    exact ⟨hall.1, ih hall.2⟩

end Asm

/-! ## Sound code -/

namespace Site

theorem Occurs.part {program : List Stmt} {q p : Site} (h : q.Occurs program)
    (hp : p ∈ q.parts) : p.Occurs program := by
  obtain ⟨top, htop, hwithin⟩ := h
  exact ⟨top, htop, .part hwithin hp⟩

end Site

namespace ObjectDecl

/-- The position of the instruction that creates the object of a declaration at `ip`. -/
def createAt (d : ObjectDecl) (ip : Nat) : Nat :=
  match d with
  | .mk _ className objectName _ args _ _ _ =>
    ip + 1 + className.size .text + 1 + objectName.size .text + 1 + Expr.argsSize args

/-- The position behind a declaration at `ip`. -/
def stopAt (d : ObjectDecl) (ip : Nat) : Nat := ip + Expr.objectSize d

end ObjectDecl

namespace Asm

/-- The instruction at `ip` creates the object of a declaration in the program. It fails to behind
the declaration, which ends with its own instruction and is followed by the one that finishes an
outermost object. -/
def Creates (program : List Stmt) (all : List (Nat × Asm)) (ip : Nat) (i : Asm) : Prop :=
  ∃ d root start, (Site.object d root start).Occurs program ∧ ip = d.createAt start ∧
    i.operands[2]? = some (.target (d.stopAt start)) ∧
    (∃ stop, stop + 2 = d.stopAt start ∧ (stop, ⟨.endObject, [.word (flagWord root)]⟩) ∈ all) ∧
    (root = true → (d.stopAt start, ⟨.finishObject, []⟩) ∈ all)

structure Sound (program : List Stmt) (all : List (Nat × Asm)) (ip : Nat) (i : Asm) : Prop where
  formed : i.Formed
  lands : ∀ t, .target t ∈ i.operands → ∃ j, (t, j) ∈ all
  creates : i.op = .createObject → Creates program all ip i

variable {program : List Stmt} {all : List (Nat × Asm)} {ip : Nat}

theorem Sound.short {i : Asm} (hkinds : i.operands.map Operand.kind = i.op.kinds)
    (hlen : i.operands.length ≤ 1) (hlands : ∀ t, .target t ∈ i.operands → ∃ j, (t, j) ∈ all) :
    Sound program all ip i := by
  have hcount : i.op.kinds.length ≤ 1 := by simpa [← hkinds] using hlen
  refine ⟨⟨0, by simpa using hkinds, ?_⟩, hlands, fun hop => ?_⟩
  · rw [if_neg (fun hop => by simp [hop, Opcode.kinds] at hcount)]
  · simp [hop, Opcode.kinds] at hcount

theorem Sound.bare {op : Opcode} (hop : op.kinds = []) : Sound program all ip ⟨op, []⟩ :=
  .short hop.symm (Nat.zero_le _) fun _ ht => (List.not_mem_nil ht).elim

theorem Sound.operand {op : Opcode} {x : Operand} (hop : op.kinds = [x.kind])
    (hx : x.kind ≠ .target) : Sound program all ip ⟨op, [x]⟩ := by
  refine .short (by rw [hop]; rfl) (Nat.le_refl _) fun t ht => ?_
  obtain rfl := List.mem_singleton.mp ht
  exact absurd rfl hx

theorem sound_plain {ops : List Opcode} (h : ∀ op ∈ ops, op.kinds = []) :
    Each (Sound program all) ip (plain ops) := by
  induction ops generalizing ip with
  | nil => trivial
  | cons op ops ih =>
    obtain ⟨hop, hops⟩ := List.forall_mem_cons.mp h
    exact ⟨.bare hop, ih hops⟩

theorem sound_bare {ops : List Opcode} (h : ops.all (fun op => op.kinds.isEmpty) = true) :
    Each (Sound program all) ip (plain ops) :=
  sound_plain fun op hop => List.isEmpty_iff.mp (List.all_eq_true.mp h op hop)

theorem sound_single {op : Opcode} (h : op.kinds = []) : Each (Sound program all) ip (plain [op]) :=
  sound_plain (List.forall_mem_singleton.mpr h)

/-- The instructions that read a place, combine what is there with a value and store the result. -/
theorem sound_updated {load save : Opcode} (op : UpdateOp) (hload : load.kinds = [])
    (hsave : save.kinds = []) : Each (Sound program all) ip (plain [load, op.opcode, save]) := by
  refine sound_plain (List.forall_mem_cons.mpr ⟨hload, List.forall_mem_cons.mpr ⟨?_, ?_⟩⟩)
  · exact op.kinds_opcode
  · exact List.forall_mem_singleton.mpr hsave

theorem sound_convert (source target : Demand) :
    Each (Sound program all) ip (convert source target) :=
  sound_plain (Demand.kinds_convert source target)

theorem sound_jump {op : Opcode} {t : Nat} (hop : op.kinds = [.target])
    (h : ∃ j, (t, j) ∈ all) : Each (Sound program all) ip [⟨op, [.target t]⟩] :=
  ⟨.short (by simp [hop, Operand.kind]) (by simp) (by simpa using h), trivial⟩

theorem sound_name {op : Opcode} {t : Text} (hop : op.kinds = [.name]) :
    Each (Sound program all) ip [⟨op, [.ident t]⟩] :=
  ⟨.operand hop nofun, trivial⟩

theorem sound_literal (want : Demand) (int : Int64) (float : Float) (text : Text) {op : Opcode}
    (hop : op.kinds = [.name]) :
    Each (Sound program all) ip (Expr.literalAsm want int float ⟨op, [.text text]⟩) := by
  cases want with
  | none => trivial
  | int | float =>
    exact ⟨.operand rfl nofun, trivial⟩
  | text => exact ⟨.operand hop nofun, trivial⟩

theorem sound_element {name : Text} {index : List Asm}
    (h : Each (Sound program all) (ip + 3) index) :
    Each (Sound program all) ip (Expr.elementAsm name index) := by
  refine ⟨.operand rfl nofun, .bare rfl, ?_⟩
  exact (each_append _ _).mpr ⟨h, sound_bare rfl⟩

theorem stands_element {name : Text} {index : List Asm}
    (h : Stands all ip (Expr.elementAsm name index)) : Stands all (ip + 3) index :=
  ((stands_append _ _).mp h.2.2).1

theorem sound_select {set : Opcode} {field : Text} (h : set.kinds = []) :
    Each (Sound program all) ip (Expr.selectAsm set field) :=
  ⟨.bare h, sound_name rfl⟩

end Asm

namespace Expr

open Asm

variable {program : List Stmt} {all : List (Nat × Asm)}

mutual

theorem sound_asm : ∀ (x : Expr) (want : Demand) (ip : Nat),
    (Site.expr x want ip).Occurs program → Stands all ip (x.asm ip want) →
      Each (Sound program all) ip (x.asm ip want)
  | int .., want, ip, _, _ => sound_literal _ _ _ _ rfl
  | float .., want, ip, _, _ => sound_literal _ _ _ _ rfl
  | str .., want, ip, _, _ => sound_literal _ _ _ _ rfl
  | word .., want, ip, _, _ => sound_literal _ _ _ _ rfl
  | var _ name none, want, ip, ho, h => by
    simp only [asm]
    split
    · trivial
    · exact (each_append _ _).mpr ⟨sound_name rfl, sound_single want.kinds_loadVar⟩
  | var _ name (some i), want, ip, ho, h => by
    by_cases hw : want = .none
    · simp only [asm, if_pos hw, Each]
    · simp only [asm, if_neg hw, stands_append, each_append] at h ⊢
      have hi := sound_asm i .text (ip + 3)
        (ho.part (by simp [Site.parts, Site.exprParts, hw, Site.opt])) (stands_element h.1.1)
      exact ⟨⟨sound_element hi, sound_bare rfl⟩, sound_single want.kinds_loadVar⟩
  | assign _ name none value, want, ip, ho, h => by
    simp only [asm, stands_append, each_append] at h ⊢
    have hv := sound_asm value _ ip (ho.part (.head _)) h.1.1.1
    exact ⟨⟨⟨hv, sound_name rfl⟩, sound_single (Demand.kinds_saveVar _)⟩, sound_convert _ _⟩
  | assign _ name (some i) value, want, ip, ho, h => by
    simp only [asm, stands_append, each_append, total_asm] at h ⊢
    have hv := sound_asm value _ ip (ho.part (.head _)) h.1.1.1
    refine ⟨⟨⟨hv, ?_⟩, sound_single (Demand.kinds_saveVar _)⟩, sound_convert _ _⟩
    have helem := h.1.1.2
    by_cases hk : value.storedAs = .text
    · simp only [if_pos hk, List.cons_append, Stands, stands_append, Each, each_append] at helem ⊢
      have hi := sound_asm i .text (ip + value.size value.storedAs + 4)
        (ho.part (by simp [Site.parts, Site.exprParts, Site.opt, hk])) (stands_element helem.2.1)
      exact ⟨.bare rfl, sound_element hi, sound_bare rfl⟩
    · simp only [if_neg hk, stands_append, each_append] at helem ⊢
      have hi := sound_asm i .text (ip + value.size value.storedAs + 3)
        (ho.part (by simp [Site.parts, Site.exprParts, Site.opt, hk])) (stands_element helem.1)
      exact ⟨sound_element hi, sound_bare rfl⟩
  | update _ name none op value, want, ip, ho, h => by
    simp only [asm, stands_append, each_append] at h ⊢
    have hv := sound_asm value _ ip (ho.part (.head _)) h.1.1.1
    exact ⟨⟨⟨hv, sound_name rfl⟩, sound_updated op (Demand.kinds_loadVar _)
      (Demand.kinds_saveVar _)⟩, sound_convert _ _⟩
  | update _ name (some i) op value, want, ip, ho, h => by
    simp only [asm, stands_append, each_append, total_asm] at h ⊢
    have hv := sound_asm value _ ip (ho.part (.head _)) h.1.1.1
    have hi := sound_asm i .text (ip + value.size op.operands + 3)
      (ho.part (.tail _ (.head _))) (stands_element h.1.1.2.1)
    exact ⟨⟨⟨hv, sound_element hi, sound_bare rfl⟩, sound_updated op (Demand.kinds_loadVar _)
      (Demand.kinds_saveVar _)⟩,
      sound_convert _ _⟩
  | arith _ op left right, want, ip, ho, h => by
    simp only [asm, stands_append, each_append, total_asm] at h ⊢
    have hr := sound_asm right .float ip (ho.part (.head _)) h.1.1.1
    have hl := sound_asm left .float _ (ho.part (.tail _ (.head _))) h.1.1.2
    exact ⟨⟨⟨hr, hl⟩, sound_single op.kinds_opcode⟩, sound_convert _ _⟩
  | wordArith _ op left right, want, ip, ho, h => by
    simp only [asm, stands_append, each_append, total_asm] at h ⊢
    have hr := sound_asm right .int ip (ho.part (.head _)) h.1.1.1
    have hl := sound_asm left .int _ (ho.part (.tail _ (.head _))) h.1.1.2
    exact ⟨⟨⟨hr, hl⟩, sound_single op.kinds_opcode⟩, sound_convert _ _⟩
  | compare _ op left right, want, ip, ho, h => by
    simp only [asm, stands_append, each_append, total_asm] at h ⊢
    have hr := sound_asm right .float ip (ho.part (.head _)) h.1.1.1
    have hl := sound_asm left .float _ (ho.part (.tail _ (.head _))) h.1.1.2
    exact ⟨⟨⟨hr, hl⟩, sound_single op.kinds_opcode⟩, sound_convert _ _⟩
  | logic _ op left right, want, ip, ho, h => by
    simp only [asm, stands_append, each_append, total_append, total_cons, total_nil, total_asm,
      Asm.size, List.length_singleton, Nat.reduceAdd, ← Nat.add_assoc] at h ⊢
    have hl := sound_asm left .int ip (ho.part (.head _)) h.1.1.1
    have hr := sound_asm right .int _ (ho.part (.tail _ (.head _))) h.1.2
    exact ⟨⟨⟨hl, sound_jump (by cases op <;> rfl) h.2.first⟩, hr⟩, sound_convert _ _⟩
  | textEq _ equal left right, want, ip, ho, h => by
    simp only [asm, stands_append, each_append, total_append, total_plain, total_asm,
      List.length_singleton, ← Nat.add_assoc] at h ⊢
    have hl := sound_asm left .text ip (ho.part (.head _))
      h.1.1.1.1.1
    have hr := sound_asm right .text _ (ho.part (.tail _ (.head _))) h.1.1.1.2
    refine ⟨⟨⟨⟨⟨hl, sound_bare rfl⟩, hr⟩, sound_bare rfl⟩,
      ?_⟩, sound_convert _ _⟩
    split
    · trivial
    · exact sound_bare rfl
  | concat _ left right separator, want, ip, ho, h => by
    simp only [asm, stands_append, each_append, total_asm] at h ⊢
    have hl := sound_asm left .text ip (ho.part (.head _)) h.1.1.1
    refine ⟨⟨⟨hl, ?_⟩, sound_bare rfl⟩, sound_convert _ _⟩
    cases separator with
    | none =>
      exact ⟨.bare rfl, sound_asm right .text (ip + left.size .text + 1)
        (ho.part (by simp [Site.parts, Site.exprParts])) h.1.1.2.2⟩
    | space | tab | newline =>
      exact ⟨.operand rfl nofun, sound_asm right .text (ip + left.size .text + 2)
        (ho.part (by simp [Site.parts, Site.exprParts])) h.1.1.2.2⟩
  | indexPair _ left right, want, ip, ho, h => by
    simp only [asm, stands_append, each_append, total_append, total_plain, total_asm,
      List.length_singleton, ← Nat.add_assoc] at h ⊢
    have hl := sound_asm left .text ip (ho.part (.head _)) h.1.1.1.1
    have hr := sound_asm right .text _ (ho.part (.tail _ (.head _))) h.1.1.2
    exact ⟨⟨⟨⟨hl, sound_bare rfl⟩, hr⟩, sound_bare rfl⟩,
      sound_convert _ _⟩
  | unary _ op x, want, ip, ho, h => by
    simp only [asm, stands_append, each_append] at h ⊢
    have hx := sound_asm x _ ip (ho.part (.head _)) h.1.1
    refine ⟨⟨hx, sound_plain ?_⟩, sound_convert _ _⟩
    cases op with
    | neg | complement => simp [Opcode.kinds]
    | not =>
      simp only [List.forall_mem_singleton]
      split <;> rfl
  | cond _ test whenTrue whenFalse, want, ip, ho, h => by
    simp only [asm, stands_append, each_append, total_append, total_cons, total_nil, total_asm,
      Asm.size, List.length_singleton, Nat.reduceAdd, ← Nat.add_assoc] at h ⊢
    have htest := sound_asm test _ ip (ho.part (.head _)) h.1.1.1.1
    have htrue := sound_asm whenTrue want _ (ho.part (.tail _ (.head _)))
      h.1.1.2
    have hfalse := sound_asm whenFalse want _ (ho.part (.tail _ (.tail _ (.head _)))) h.2
    have hlast := h.2.last
    rw [total_asm] at hlast
    exact ⟨⟨⟨⟨htest, sound_jump (Demand.kinds_jumpUnless _) h.2.first⟩, htrue⟩,
      sound_jump rfl hlast⟩, hfalse⟩
  | call _ name ns kind args, want, ip, ho, h => by
    simp only [asm, List.cons_append, Stands, Each, stands_append, each_append] at h ⊢
    have hargs := sound_asmArgs args (ip + 1) (fun q hq => ho.part hq) h.2.1.1
    refine ⟨.bare rfl, ⟨hargs, ?_, trivial⟩, sound_convert _ _⟩
    exact ⟨⟨0, rfl, rfl⟩, by simp, by simp⟩
  | slot _ obj field none, want, ip, ho, h => by
    by_cases hw : want = .none
    · simp only [asm, if_pos hw, Each]
    · simp only [asm, if_neg hw, stands_append, each_append] at h ⊢
      have hobj := sound_asm obj .text ip
        (ho.part (by simp [Site.parts, Site.exprParts, hw, Site.indexed])) h.1.1
      exact ⟨⟨hobj, sound_select rfl⟩, sound_single want.kinds_loadField⟩
  | slot _ obj field (some i), want, ip, ho, h => by
    by_cases hw : want = .none
    · simp only [asm, if_pos hw, Each]
    · simp only [asm, if_neg hw, stands_append, each_append, total_append, total_plain, total_asm,
        List.length_singleton, ← Nat.add_assoc] at h ⊢
      have hi := sound_asm i .text ip
        (ho.part (by simp [Site.parts, Site.exprParts, hw, Site.indexed])) h.1.1.1.1
      have hobj := sound_asm obj .text _
        (ho.part (by simp [Site.parts, Site.exprParts, hw, Site.indexed])) h.1.1.2
      exact ⟨⟨⟨⟨hi, sound_bare rfl⟩, hobj⟩, sound_select rfl⟩,
        sound_plain (by cases want <;> decide)⟩
  | slotAssign _ obj field none value, want, ip, ho, h => by
    simp only [asm, stands_append, each_append, total_append, total_plain, total_asm,
      List.length_singleton, ← Nat.add_assoc] at h ⊢
    have hv := sound_asm value .text ip (ho.part (.head _))
      h.1.1.1.1
    have hobj := sound_asm obj .text _
      (ho.part (.tail _ (.head _))) h.1.1.2.1
    exact ⟨⟨⟨⟨hv, sound_bare rfl⟩, hobj, sound_select rfl⟩,
      sound_bare rfl⟩, sound_convert _ _⟩
  | slotAssign _ obj field (some i) value, want, ip, ho, h => by
    simp only [asm, stands_append, each_append, total_append, total_plain, total_asm,
      List.length_singleton, ← Nat.add_assoc] at h ⊢
    have hv := sound_asm value .text ip (ho.part (.head _))
      h.1.1.1.1
    have hi := sound_asm i .text _
      (ho.part (.tail _ (.head _))) h.1.1.2.1.1.1.1
    have hobj := sound_asm obj .text _
      (ho.part (.tail _ (.tail _ (.head _)))) h.1.1.2.1.1.2
    exact ⟨⟨⟨⟨hv, sound_bare rfl⟩,
      ⟨⟨⟨hi, sound_bare rfl⟩, hobj⟩, sound_select rfl⟩,
      sound_bare rfl⟩, sound_bare rfl⟩,
      sound_convert _ _⟩
  | slotUpdate _ obj field none op value, want, ip, ho, h => by
    simp only [asm, stands_append, each_append, total_asm] at h ⊢
    have hv := sound_asm value _ ip (ho.part (.head _)) h.1.1.1
    have hobj := sound_asm obj .text _
      (ho.part (.tail _ (.head _))) h.1.1.2.1
    exact ⟨⟨⟨hv, hobj, sound_select rfl⟩, sound_updated op (Demand.kinds_loadField _)
      (Demand.kinds_saveField _)⟩, sound_convert _ _⟩
  | slotUpdate _ obj field (some i) op value, want, ip, ho, h => by
    simp only [asm, stands_append, each_append, total_append, total_plain, total_asm,
      List.length_singleton, ← Nat.add_assoc] at h ⊢
    have hv := sound_asm value _ ip (ho.part (.head _)) h.1.1.1
    have hi := sound_asm i .text _
      (ho.part (.tail _ (.head _))) h.1.1.2.1.1.1.1
    have hobj := sound_asm obj .text _
      (ho.part (.tail _ (.tail _ (.head _)))) h.1.1.2.1.1.2
    exact ⟨⟨⟨hv, ⟨⟨⟨hi, sound_bare rfl⟩, hobj⟩, sound_select rfl⟩,
      sound_bare rfl⟩, sound_updated op (Demand.kinds_loadField _) (Demand.kinds_saveField _)⟩,
      sound_convert _ _⟩
  | object decl, want, ip, ho, h => by
    simp only [asm, List.cons_append, Stands, Each, stands_append, each_append,
      total_asmObject] at h ⊢
    have hobj := sound_asmObject decl true (ip + 2) (ho.part (.head _))
      (fun _ => h.2.1.2.1) h.2.1.1
    exact ⟨.operand rfl nofun, ⟨hobj, sound_bare rfl⟩,
      sound_convert _ _⟩

theorem sound_asmArgs : ∀ (args : List Expr) (ip : Nat),
    (∀ q ∈ Site.args args ip, q.Occurs program) → Stands all ip (asmArgs args ip) →
      Each (Sound program all) ip (asmArgs args ip)
  | [], _, _, _ => trivial
  | a :: as, ip, ho, h => by
    simp only [Site.args, List.forall_mem_cons] at ho
    simp only [asmArgs, stands_append, each_append, total_append, total_plain, total_asm,
      List.length_singleton, ← Nat.add_assoc] at h ⊢
    exact ⟨⟨sound_asm a .text ip ho.1 h.1.1, sound_bare rfl⟩,
      sound_asmArgs as _ ho.2 h.2⟩

theorem sound_asmField : ∀ (f : FieldInit) (ip : Nat), (Site.field f ip).Occurs program →
    Stands all ip (asmField f ip) → Each (Sound program all) ip (asmField f ip)
  | .mk _ field none value, ip, ho, h => by
    simp only [asmField, stands_append, each_append] at h ⊢
    have hv := sound_asm value .text ip (ho.part (.head _)) h.1.1.1
    exact ⟨⟨⟨hv, sound_bare rfl⟩, sound_select rfl⟩,
      sound_bare rfl⟩
  | .mk _ field (some i) value, ip, ho, h => by
    simp only [asmField, stands_append, each_append, total_append, total_plain, total_asm,
      List.length_singleton, ← Nat.add_assoc] at h ⊢
    have hv := sound_asm value .text ip (ho.part (.head _)) h.1.1.1
    have hi := sound_asm i .text _ (ho.part (.tail _ (.head _))) h.1.2.1.1.1
    exact ⟨⟨⟨hv, sound_bare rfl⟩,
      ⟨⟨hi, sound_bare rfl⟩, sound_select rfl⟩,
      sound_bare rfl⟩, sound_bare rfl⟩

theorem sound_asmFields : ∀ (fs : List FieldInit) (ip : Nat),
    (∀ q ∈ Site.fields fs ip, q.Occurs program) → Stands all ip (asmFields fs ip) →
      Each (Sound program all) ip (asmFields fs ip)
  | [], _, _, _ => trivial
  | f :: fs, ip, ho, h => by
    simp only [Site.fields, List.forall_mem_cons] at ho
    simp only [asmFields, stands_append, each_append, total_asmField] at h ⊢
    exact ⟨sound_asmField f ip ho.1 h.1, sound_asmFields fs _ ho.2 h.2⟩

theorem sound_asmObject : ∀ (d : ObjectDecl) (root : Bool) (ip : Nat),
    (Site.object d root ip).Occurs program →
      (root = true → (d.stopAt ip, ⟨.finishObject, []⟩) ∈ all) →
      Stands all ip (asmObject d ip root) → Each (Sound program all) ip (asmObject d ip root)
  | .mk _ className objectName copyFrom args datablock fields children, root, ip, ho, hroot, h => by
    have hstop := h.last
    rw [total_asmObject] at hstop
    simp only [asmObject, List.cons_append, Stands, Each, stands_append, each_append, total_append,
      total_cons, total_nil, total_plain, total_asm, total_asmArgs, total_asmFields, Asm.size,
      total_asmChildren, List.length_cons, List.length_nil, Nat.reduceAdd,
      ← Nat.add_assoc] at h ⊢
    obtain ⟨-, ⟨⟨⟨⟨⟨⟨⟨⟨hclass, -⟩, hname⟩, -⟩, hargs⟩, -⟩, hfields⟩, -⟩, hchildren⟩, hend, -⟩ := h
    replace hclass := sound_asm className .text (ip + 1) (ho.part (.head _)) hclass
    replace hname := sound_asm objectName .text _ (ho.part (.tail _ (.head _))) hname
    replace hargs := sound_asmArgs args _
      (fun q hq => ho.part (by simp [Site.parts, hq])) hargs
    replace hfields := sound_asmFields fields _
      (fun q hq => ho.part (by simp [Site.parts, hq])) hfields
    replace hchildren := sound_asmChildren children _
      (fun q hq => ho.part (by simp [Site.parts, hq])) hchildren
    refine ⟨.bare rfl, ⟨⟨⟨⟨⟨⟨⟨⟨hclass, sound_bare rfl⟩, hname⟩,
      sound_bare rfl⟩, hargs⟩, ⟨⟨0, rfl, rfl⟩, by simpa using hstop, fun _ => ?_⟩, trivial⟩,
      hfields⟩, .operand rfl nofun, trivial⟩, hchildren⟩,
      .operand rfl nofun, trivial⟩
    refine ⟨_, root, ip, ho, rfl, rfl, ⟨_, ?_, hend⟩, hroot⟩
    simp only [ObjectDecl.stopAt, objectSize]
    omega

theorem sound_asmChildren : ∀ (cs : List ObjectDecl) (ip : Nat),
    (∀ q ∈ Site.children cs ip, q.Occurs program) → Stands all ip (asmChildren cs ip) →
      Each (Sound program all) ip (asmChildren cs ip)
  | [], _, _, _ => trivial
  | c :: cs, ip, ho, h => by
    simp only [Site.children, List.forall_mem_cons] at ho
    simp only [asmChildren, stands_append, each_append, total_asmObject] at h ⊢
    exact ⟨sound_asmObject c false ip ho.1 nofun h.1, sound_asmChildren cs _ ho.2 h.2⟩

end

theorem sound_asmOpt (x : Option Expr) (want : Demand) (ip : Nat)
    (ho : ∀ q ∈ Site.opt x want ip, q.Occurs program) (h : Stands all ip (asmOpt x ip want)) :
    Each (Sound program all) ip (asmOpt x ip want) := by
  cases x with
  | none => trivial
  | some x => exact sound_asm x want ip (ho _ (by simp [Site.opt])) h

end Expr

namespace Stmt

open Asm

variable {program : List Stmt} {all : List (Nat × Asm)}

/-- Leaving the innermost loop lands on an instruction. -/
def Leaves (all : List (Nat × Asm)) (targets : Option LoopTargets) : Prop :=
  ∀ t ∈ targets, (∃ i, (t.next, i) ∈ all) ∧ ∃ i, (t.stop, i) ∈ all

theorem leaves_some {next stop : Nat} (hnext : ∃ i, (next, i) ∈ all)
    (hstop : ∃ i, (stop, i) ∈ all) : Leaves all (some ⟨next, stop⟩) := by
  rintro _ ⟨⟩
  exact ⟨hnext, hstop⟩

mutual

theorem sound_asm : ∀ (s : Stmt) (targets : Option LoopTargets) (ip : Nat),
    (Site.stmt s targets ip).Occurs program → Leaves all targets →
      Stands all ip (s.asm ip targets) → Each (Sound program all) ip (s.asm ip targets)
  | expr _ x, targets, ip, ho, ht, h =>
    x.sound_asm .none ip (ho.part (.head _)) h
  | branch _ test whenTrue none, targets, ip, ho, ht, h => by
    simp only [asm, stands_append, each_append, total_append, total_cons, total_nil,
      Expr.total_asm, Asm.size, List.length_singleton, Nat.reduceAdd, ← Nat.add_assoc] at h ⊢
    have htest := test.sound_asm _ ip (ho.part (.head _)) h.1.1
    have htrue := sound_asmBlock whenTrue targets _
      (fun q hq => ho.part (by simp [Site.parts, Site.stmtParts, hq])) ht h.2
    have hlast := h.2.last
    rw [total_asmBlock] at hlast
    exact ⟨⟨htest, sound_jump (Demand.kinds_jumpUnless _) hlast⟩, htrue⟩
  | branch _ test whenTrue (some whenFalse), targets, ip, ho, ht, h => by
    simp only [asm, stands_append, each_append, total_append, total_cons, total_nil,
      Expr.total_asm, total_asmBlock, Asm.size, List.length_singleton, Nat.reduceAdd,
      ← Nat.add_assoc] at h ⊢
    have htest := test.sound_asm _ ip (ho.part (.head _)) h.1.1.1.1
    have htrue := sound_asmBlock whenTrue targets _
      (fun q hq => ho.part (by simp [Site.parts, Site.stmtParts, hq])) ht h.1.1.2
    have hfalse := sound_asmBlock whenFalse targets _
      (fun q hq => ho.part (by simp [Site.parts, Site.stmtParts, hq])) ht h.2
    have hlast := h.2.last
    rw [total_asmBlock] at hlast
    exact ⟨⟨⟨⟨htest, sound_jump (Demand.kinds_jumpUnless _) h.2.first⟩, htrue⟩,
      sound_jump rfl hlast⟩, hfalse⟩
  | loop _ start test next body true, targets, ip, ho, ht, h => by
    have hstop := h.last
    simp only [total_asm, size, if_true, Nat.add_zero, ← Nat.add_assoc] at hstop
    simp only [asm, if_true, List.append_nil, stands_append, each_append, total_append,
      Expr.total_asm, Expr.total_asmOpt, total_asmBlock, Option.isSome_some,
      ← Nat.add_assoc] at h ⊢
    obtain ⟨⟨⟨⟨hstart, hbody⟩, hnext⟩, hagain⟩, -⟩ := h
    have hback := hbody.first
    have hleaves := leaves_some hnext.first hstop
    replace hstart := Expr.sound_asmOpt start .none ip
      (fun q hq => ho.part (by simp [Site.parts, Site.stmtParts, hq])) hstart
    replace hbody := sound_asmBlock body _ _
      (fun q hq => ho.part (by simp [Site.parts, Site.stmtParts, hq])) hleaves hbody
    replace hnext := Expr.sound_asmOpt next .none _
      (fun q hq => ho.part (by simp [Site.parts, Site.stmtParts, hq])) hnext
    replace hagain := test.sound_asm _ _ (ho.part (by simp [Site.parts, Site.stmtParts])) hagain
    exact ⟨⟨⟨⟨hstart, hbody⟩, hnext⟩, hagain⟩, sound_jump (Demand.kinds_jumpIf _) hback⟩
  | loop _ start test next body false, targets, ip, ho, ht, h => by
    have hstop := h.last
    simp only [total_asm, size, Bool.false_eq_true, if_false, ← Nat.add_assoc] at hstop
    simp only [asm, Bool.false_eq_true, if_false, stands_append, each_append, total_append,
      total_cons, total_nil, Expr.total_asm, Expr.total_asmOpt, total_asmBlock, Option.isSome_some,
      Asm.size, List.length_singleton, Nat.reduceAdd, ← Nat.add_assoc] at h ⊢
    obtain ⟨⟨⟨⟨⟨hstart, htest, -⟩, hbody⟩, hnext⟩, hagain⟩, -⟩ := h
    have hback := hbody.first
    have hleaves := leaves_some hnext.first hstop
    replace hstart := Expr.sound_asmOpt start .none ip
      (fun q hq => ho.part (by simp [Site.parts, Site.stmtParts, hq])) hstart
    replace htest := test.sound_asm _ _ (ho.part (by simp [Site.parts, Site.stmtParts])) htest
    replace hbody := sound_asmBlock body _ _
      (fun q hq => ho.part (by simp [Site.parts, Site.stmtParts, hq])) hleaves hbody
    replace hnext := Expr.sound_asmOpt next .none _
      (fun q hq => ho.part (by simp [Site.parts, Site.stmtParts, hq])) hnext
    replace hagain := test.sound_asm _ _ (ho.part (by simp [Site.parts, Site.stmtParts])) hagain
    exact ⟨⟨⟨⟨⟨hstart, htest, sound_jump (Demand.kinds_jumpUnless _) hstop⟩, hbody⟩, hnext⟩,
      hagain⟩, sound_jump (Demand.kinds_jumpIf _) hback⟩
  | breakLoop _, targets, ip, ho, ht, h => by
    cases targets with
    | none => trivial
    | some t => exact sound_jump rfl (ht t rfl).2
  | continueLoop _, targets, ip, ho, ht, h => by
    cases targets with
    | none => trivial
    | some t => exact sound_jump rfl (ht t rfl).1
  | ret _ none, targets, ip, ho, ht, h => sound_bare rfl
  | ret _ (some x), targets, ip, ho, ht, h => by
    simp only [asm, stands_append, each_append] at h ⊢
    have hx := x.sound_asm .text ip
      (ho.part (.head _)) h.1
    exact ⟨hx, sound_bare rfl⟩
  | func pos name ns package params body, targets, ip, ho, ht, h => by
    have hstop := h.last
    rw [total_asm] at hstop
    simp only [asm, Stands, Each, stands_append, each_append] at h ⊢
    have hsize : ip + (6 + params.length + 1) = ip + 7 + params.length := by omega
    simp only [Asm.size, List.length_append, List.length_cons, List.length_nil, List.length_map,
      Nat.reduceAdd, hsize] at h ⊢
    have hbody := sound_asmBlock body none _
      (fun q hq => ho.part (by simpa [Site.parts, Site.stmtParts] using hq)) (by simp [Leaves])
      h.1.2
    refine ⟨⟨⟨⟨params.length, ?_, rfl⟩, ?_, by simp⟩, hbody⟩, sound_bare rfl⟩
    · simp [Operand.kind, Opcode.kinds, Function.comp_def, List.map_const']
    · intro t ht
      obtain rfl : t = ip + (params.length + blockSize body false + 8) := by simpa using ht
      exact hstop

theorem sound_asmBlock : ∀ (ss : List Stmt) (targets : Option LoopTargets) (ip : Nat),
    (∀ q ∈ Site.block ss targets ip, q.Occurs program) → Leaves all targets →
      Stands all ip (asmBlock ss ip targets) →
      Each (Sound program all) ip (asmBlock ss ip targets)
  | [], _, _, _, _, _ => trivial
  | s :: ss, targets, ip, ho, ht, h => by
    simp only [Site.block, List.forall_mem_cons] at ho
    simp only [asmBlock, stands_append, each_append, total_asm] at h ⊢
    exact ⟨sound_asm s targets ip ho.1 ht h.1, sound_asmBlock ss targets _ ho.2 ht h.2⟩

end

end Stmt

/-! ## Cutting -/

namespace Asm

def instruction (l : Literals) (e : Nat × Asm) : Instruction :=
  ⟨ipWord e.1, e.2.op, e.2.operands.map (Operand.encode l)⟩

theorem Formed.operandWords_eq {i : Asm} (h : i.Formed) (l : Literals) (more : List UInt32) :
    Instruction.operandWords i.op (i.operands.map (Operand.encode l) ++ more)
      = UInt32.ofNat i.operands.length := by
  obtain ⟨n, hkinds, hcount⟩ := h
  have hlen : i.operands.length = i.op.operandCount + n := by
    simpa [Opcode.length_kinds] using congrArg List.length hkinds
  split at hcount
  · rename_i hop
    have hget : (i.operands.map (Operand.encode l) ++ more)[5]? = some (UInt32.ofNat n) := by
      rw [List.getElem?_append_left, List.getElem?_map, hcount]
      · rfl
      · simp only [List.length_map, hlen, hop, Opcode.operandCount]
        omega
    simp only [Instruction.operandWords, hop, hget, hlen]
    simp [Opcode.operandCount]
  · rename_i hop
    subst hcount
    rw [hlen]
    unfold Instruction.operandWords
    split
    · exact absurd ‹_› hop
    · rfl

/-- Code that was written from formed instructions is cut into them again. -/
theorem decodeFrom_encode (l : Literals) (is : List Asm) (ip : Nat) (hf : ∀ i ∈ is, i.Formed)
    (hfit : ip + total is < UInt32.size) :
    Instruction.decodeFrom (ipWord ip) (encode l is)
      = ((located ip is).map (instruction l), none) := by
  induction is generalizing ip with
  | nil =>
    rw [encode_nil, Instruction.decodeFrom]
    rfl
  | cons i is ih =>
    obtain ⟨hi, his⟩ := List.forall_mem_cons.mp hf
    rw [total_cons, size] at hfit
    have hfirst : ipWord ip + 1 = ipWord (ip + 1) := (UInt32.ofNat_add ip 1).symm
    have hlast : ipWord ip + 1 + UInt32.ofNat i.operands.length = ipWord (ip + i.size) := by
      rw [hfirst, ipWord, ← UInt32.ofNat_add, size, ipWord, Nat.add_right_comm, Nat.add_assoc]
    have hfirstNat : (ipWord (ip + 1)).toNat = ip + 1 := toNat_ipWord (by omega)
    have hlastNat : (ipWord (ip + i.size)).toNat = ip + 1 + i.operands.length := by
      rw [toNat_ipWord (by rw [size]; omega), size]
      omega
    rw [encode_cons, Instruction.decodeFrom]
    simp only [Opcode.ofWord?_word, hi.operandWords_eq, hlast]
    rw [if_neg, if_neg]
    · have hle : ipWord ip + 1 ≤ ipWord (ip + i.size) := by
        rw [hfirst, UInt32.le_iff_toNat_le, hfirstNat, hlastNat]
        omega
      have hcount : (ipWord (ip + i.size) - (ipWord ip + 1)).toNat = i.operands.length := by
        rw [UInt32.toNat_sub_of_le _ _ hle, hfirst, hfirstNat, hlastNat]
        omega
      have hlen : i.operands.length = (i.operands.map (Operand.encode l)).length := by simp
      simp only [hcount, hlen, List.drop_left, List.take_left]
      rw [ih _ his (by rw [size]; omega)]
      rfl
    · rw [hfirst, UInt32.lt_iff_toNat_lt, hfirstNat, hlastNat]
      omega
    · rw [hlastNat, toNat_ipWord (by omega)]
      simp

end Asm


namespace Instruction

/-- The words an instruction was cut from. -/
def words (i : Instruction) : List UInt32 := i.op.word :: i.operands

/-- The kinds of all operands, the parameters of a function declaration included. -/
def kinds (i : Instruction) : List OperandKind :=
  i.op.kinds ++ List.replicate (i.operands.length - i.op.operandCount) .name

/-- The instruction has the opcode of a symbolic one, and its words lead to what the operands of
that stand for. -/
def Spells (u : CodeUnit) (i : Instruction) (a : Asm) : Prop :=
  i.op = a.op ∧ List.Forall₂ (Operand.Denotes u) a.operands i.operands

end Instruction

/-- The word is what an operand of the kind has to be in a unit with these instructions. -/
def OperandKind.Valid (u : CodeUnit) (instrs : List Instruction) : OperandKind → UInt32 → Prop
  | .name, w => w ≠ noIdent ∧ w.toNat < u.texts.size
  | .optionalName, w => w = noIdent ∨ w.toNat < u.texts.size
  | .number, w => w.toNat < u.floats.size
  | .target, w => ∃ j ∈ instrs, j.ip = w
  | .raw, _ => True

/-- What the instructions of a compiled program are like. -/
structure CodeUnit.Listed (program : List Stmt) (u : CodeUnit) (instrs : List Instruction) :
    Prop where
  /-- They cover the code, -/
  tiles : instrs.flatMap Instruction.words = u.code.toList
  /-- each where its words stand. -/
  places : ∀ before i after, instrs = before ++ i :: after →
    i.ip.toNat = (before.flatMap Instruction.words).length
  /-- Indices are in range, and jumps lead to instructions. -/
  valid : ∀ i ∈ instrs, List.Forall₂ (OperandKind.Valid u instrs) i.kinds i.operands
  /-- They spell the program, literal by literal. -/
  spells : List.Forall₂ (Instruction.Spells u) instrs (Stmt.asmProgram program)
  /-- What creates an object belongs to a declaration. Its failure word leads behind the last
  instruction of that declaration; there an outermost object is finished. -/
  creates : ∀ i ∈ instrs, i.op = .createObject → ∃ d root start,
    (Site.object d root start).Occurs program ∧ i.ip = ipWord (d.createAt start) ∧
    ∃ last ∈ instrs, ∃ next ∈ instrs, i.operands[2]? = some next.ip ∧
      last.op = .endObject ∧ last.operands = [flagWord root] ∧
      last.ip.toNat + 2 = d.stopAt start ∧ next.ip.toNat = d.stopAt start ∧
      (root = true → next.op = .finishObject)

namespace Asm

theorem flatMap_words_instruction (l : Literals) (is : List Asm) (ip : Nat) :
    ((located ip is).map (instruction l)).flatMap Instruction.words = encode l is := by
  induction is generalizing ip with
  | nil => rfl
  | cons i is ih => simp [located, instruction, Instruction.words, ← ih (ip + i.size)]

theorem places_instruction (l : Literals) (is : List Asm) (ip : Nat)
    (hfit : ip + total is < UInt32.size) {before after : List Instruction} {i : Instruction}
    (h : (located ip is).map (instruction l) = before ++ i :: after) :
    i.ip.toNat = ip + (before.flatMap Instruction.words).length := by
  induction is generalizing ip before with
  | nil => simp [located] at h
  | cons a is ih =>
    rw [total_cons] at hfit
    cases before with
    | nil =>
      obtain ⟨rfl, -⟩ := List.cons_eq_cons.mp h
      exact toNat_ipWord (by omega)
    | cons b before =>
      obtain ⟨rfl, htail⟩ := List.cons_eq_cons.mp h
      rw [ih (ip + a.size) (by omega) htail]
      simp [Instruction.words, instruction, size]
      omega

theorem spells_instruction {u : CodeUnit} (l : Literals) (is : List Asm) (ip : Nat)
    (h : ∀ i ∈ is, ∀ o ∈ i.operands, o.Denotes u (o.encode l)) :
    List.Forall₂ (Instruction.Spells u) ((located ip is).map (instruction l)) is := by
  induction is generalizing ip with
  | nil => exact .nil
  | cons i is ih =>
    obtain ⟨hi, his⟩ := List.forall_mem_cons.mp h
    refine .cons ⟨rfl, ?_⟩ (ih _ his)
    rw [instruction, List.forall₂_map_right_iff, List.forall₂_same]
    exact hi

theorem Formed.kinds_instruction {i : Asm} (h : i.Formed) (l : Literals) (ip : Nat) :
    (instruction l (ip, i)).kinds = i.operands.map Operand.kind := by
  obtain ⟨n, hkinds, -⟩ := h
  have hlen : i.operands.length - i.op.operandCount = n := by
    have := congrArg List.length hkinds
    simp [Opcode.length_kinds] at this
    omega
  simp [Instruction.kinds, instruction, hkinds, hlen]

end Asm

theorem Operand.Denotes.valid {u : CodeUnit} {instrs : List Instruction} {o : Operand} {w : UInt32}
    (h : o.Denotes u w) (ht : ∀ t, o = .target t → ∃ j ∈ instrs, j.ip = ipWord t) :
    o.kind.Valid u instrs w := by
  have hname : ∀ t : Text, w ≠ noIdent ∧ u.texts[w.toNat]? = some t →
      w ≠ noIdent ∧ w.toNat < u.texts.size := by
    intro t hw
    exact ⟨hw.1, (Array.getElem?_eq_some_iff.mp hw.2).1⟩
  cases o with
  | text t | ident t => exact hname t h
  | ident? t =>
    cases t with
    | none => exact .inl h
    | some t => exact .inr (hname t h).2
  | float f => exact (Array.getElem?_eq_some_iff.mp h).1
  | target t =>
    rw [Denotes] at h
    exact h ▸ ht t rfl
  | word v => trivial

namespace Stmt

def located (program : List Stmt) : List (Nat × Asm) := Asm.located 0 (asmProgram program)

theorem sound_located (program : List Stmt) :
    ∀ e ∈ located program, Asm.Sound program (located program) e.1 e.2 := by
  refine (Asm.each_iff _).mp ((Asm.each_append _ _).mpr ⟨?_, Asm.sound_plain (by decide)⟩)
  exact sound_asmBlock program none 0 (fun q hq => ⟨q, hq, .whole⟩) (by simp [Leaves])
    (Asm.stands_located _ _ (by simp [Asm.plain]))

end Stmt

namespace CodeUnit

/-- The instructions that a program's code is cut into. -/
def instructions (program : List Stmt) : List Instruction :=
  (Stmt.located program).map (Asm.instruction (Stmt.collectBlock program {}))

variable {filename : Text} {program : List Stmt} {num : Int → Prop}

theorem decode_written (hsize : (written filename program).code.size < UInt32.size) :
    Instruction.decode (written filename program).code.toList = (instructions program, none) := by
  rw [size_code_written] at hsize
  rw [code_written]
  refine Asm.decodeFrom_encode _ _ 0 (fun i hi => ?_) (by simpa using hsize)
  obtain ⟨ip, hip⟩ : ∃ ip, (ip, i) ∈ Stmt.located program := Asm.exists_mem_located hi
  exact (Stmt.sound_located program _ hip).formed

theorem listed_written (hnamed : Stmt.NamedBlock num program)
    (hsize : (written filename program).code.size < UInt32.size) :
    (written filename program).Listed program (instructions program) where
  tiles := by rw [code_written, instructions, Stmt.located, Asm.flatMap_words_instruction]
  places := by
    intro before i after h
    rw [size_code_written] at hsize
    rw [Asm.places_instruction _ _ 0 (by simpa using hsize) h, Nat.zero_add]
  valid := by
    intro i hi
    obtain ⟨⟨ip, a⟩, ha, rfl⟩ := List.mem_map.mp hi
    have hsound := Stmt.sound_located program _ ha
    have hmem := (Asm.mem_of_mem_located ha).1
    rw [hsound.formed.kinds_instruction, Asm.instruction, List.forall₂_map_left_iff,
      List.forall₂_map_right_iff, List.forall₂_same]
    intro o ho
    refine (denotes_written filename hnamed hsize a hmem o ho).valid fun t ht => ?_
    obtain ⟨j, hj⟩ := hsound.lands t (ht ▸ ho)
    exact ⟨_, List.mem_map_of_mem hj, rfl⟩
  spells := Asm.spells_instruction _ _ _ (denotes_written filename hnamed hsize)
  creates := by
    intro i hi hop
    obtain ⟨⟨ip, a⟩, ha, rfl⟩ := List.mem_map.mp hi
    have hsound := Stmt.sound_located program _ ha
    obtain ⟨d, root, start, hoccurs, hip, hfail, ⟨stop, hstop, hlast⟩, hroot⟩ := hsound.creates hop
    have hat : ∀ {p : Nat} {j : Asm}, (p, j) ∈ Stmt.located program → (ipWord p).toNat = p := by
      intro p j hj
      have hlt := (Asm.mem_of_mem_located hj).2
      rw [size_code_written] at hsize
      simp only [Stmt.total_asmProgram, Nat.zero_add] at hlt
      exact toNat_ipWord (by omega)
    obtain ⟨next, hnext, hfinish⟩ : ∃ next, (d.stopAt start, next) ∈ Stmt.located program ∧
        (root = true → next.op = .finishObject) := by
      cases root with
      | true => exact ⟨_, hroot rfl, fun _ => rfl⟩
      | false =>
        obtain ⟨next, hnext⟩ := hsound.lands _ (List.mem_of_getElem? hfail)
        exact ⟨next, hnext, by simp⟩
    refine ⟨d, root, start, hoccurs, congrArg ipWord hip, _, List.mem_map_of_mem hlast, _,
      List.mem_map_of_mem hnext, ?_, rfl, rfl, ?_, hat hnext, hfinish⟩
    · simp [Asm.instruction, hfail, Operand.encode]
    · rw [← hstop]
      exact congrArg (· + 2) (hat hlast)

end CodeUnit

/-- The code of a compiled source is cut without error into the instructions of its program. -/
theorem decode_compile {source filename : Text} {u : CodeUnit}
    (h : compile source filename = .ok u) (hsize : u.code.size < UInt32.size) :
    ∃ program instrs, parseProgram source = (program, []) ∧
      Instruction.decode u.code.toList = (instrs, none) ∧ u.Listed program instrs := by
  obtain ⟨program, hparse, rfl⟩ := compile_eq_ok h
  have hnamed := (parseProgram_of_no_errors source program hparse).2
  exact ⟨program, _, hparse, CodeUnit.decode_written hsize, CodeUnit.listed_written hnamed hsize⟩

theorem decode_compile_objects :
    ∃ u, compile "new A(B){x=1;new C(D){};};" "objects.cs" = .ok u ∧
      ∃ program instrs, Instruction.decode u.code.toList = (instrs, none) ∧
        u.Listed program instrs := by
  have hparse : (parseProgram "new A(B){x=1;new C(D){};};").2 = [] := by decide +kernel
  refine ⟨_, (compile_eq _ _).trans (if_pos hparse), ?_⟩
  obtain ⟨program, instrs, -, hdecode, hlisted⟩ := decode_compile
    ((compile_eq _ "objects.cs").trans (if_pos hparse))
    (by rw [CodeUnit.size_code_written]; decide +kernel)
  exact ⟨program, instrs, hdecode, hlisted⟩

end ConsoleScript
