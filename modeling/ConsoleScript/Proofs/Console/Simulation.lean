import ConsoleScript.Proofs.Code.Literals
import ConsoleScript.Proofs.Console.Activation
import ConsoleScript.Proofs.Console.Evaluation
import ConsoleScript.Proofs.Source.Parsing

/-!
# Compiled code does what its tree means

The machine goes through the code of an expression and ends behind it with the value of the tree,
in the console that evaluating the tree leaves. The current text and the current variable are all
it may leave different besides. Moves are counted, so that a loop without an end can be seen to
keep the machine busy for as long as one likes.
-/

namespace ConsoleScript

/-! ## Moves -/

namespace Activation

variable {u : CodeUnit} {block : BlockId} {m m' : Machine} {c c' : Console} {s t r : Activation}
  {n k : Nat}

/-- A move that asks for nothing. -/
def Next (u : CodeUnit) (block : BlockId) (s t : Activation) : Prop :=
  s.1.step u block s.2 = .ok (.next t.1) t.2

/-- So many moves of that sort. -/
def Takes (u : CodeUnit) (block : BlockId) : Nat → Activation → Activation → Prop
  | 0, s, t => s = t
  | n + 1, s, t => ∃ r, Next u block s r ∧ Takes u block n r t

def Moves (u : CodeUnit) (block : BlockId) (k : Nat) (s t : Activation) : Prop :=
  ∃ n, k ≤ n ∧ Takes u block n s t

theorem Takes.trans (h₁ : Takes u block n s t) (h₂ : Takes u block k t r) :
    Takes u block (n + k) s r := by
  induction n generalizing s with
  | zero =>
    obtain rfl : s = t := h₁
    rwa [Nat.zero_add]
  | succ n ih =>
    obtain ⟨s', hnext, hrest⟩ := h₁
    rw [Nat.succ_add]
    exact ⟨s', hnext, ih hrest⟩

theorem Next.loop (h : Next u block (m, c) (m', c')) (fuel : Nat) :
    Run.loop (fuel + 1) u block m c = Run.loop fuel u block m' c' := by
  have hmove : Run.move fuel u block m c = .ok (.inl m') c' := by
    unfold Run.move
    rw [Run.bind_ok h]
    rfl
  rw [Run.loop_succ, hmove]

theorem Takes.loop (h : Takes u block n s t) (fuel : Nat) :
    Run.loop (fuel + n) u block s.1 s.2 = Run.loop fuel u block t.1 t.2 := by
  induction n generalizing s with
  | zero =>
    obtain rfl : s = t := h
    rfl
  | succ n ih =>
    obtain ⟨s', hnext, hrest⟩ := h
    rw [← Nat.add_assoc, Next.loop hnext]
    exact ih hrest

/-- The loop does not come to an end with fewer steps than there are moves. -/
theorem Takes.exhausted (h : Takes u block n s t) (hk : k ≤ n) :
    ∃ c', Run.loop k u block s.1 s.2 = .error .exhausted c' := by
  induction n generalizing s k with
  | zero =>
    obtain rfl : k = 0 := by omega
    rw [Run.loop]
    exact ⟨_, rfl⟩
  | succ n ih =>
    cases k with
    | zero =>
      rw [Run.loop]
      exact ⟨_, rfl⟩
    | succ k =>
      obtain ⟨s', hnext, hrest⟩ := h
      rw [Next.loop hnext]
      exact ih hrest (by omega)

theorem Moves.refl : Moves u block 0 s s := ⟨0, Nat.le_refl 0, rfl⟩

theorem Moves.trans (h₁ : Moves u block n s t) (h₂ : Moves u block k t r) :
    Moves u block (n + k) s r := by
  obtain ⟨n₁, hn₁, ht₁⟩ := h₁
  obtain ⟨n₂, hn₂, ht₂⟩ := h₂
  exact ⟨n₁ + n₂, by omega, ht₁.trans ht₂⟩

theorem Next.moves (h : Next u block s t) : Moves u block 1 s t := ⟨1, Nat.le_refl 1, t, h, rfl⟩

theorem Moves.weaken (h : Moves u block n s t) (hk : k ≤ n) : Moves u block k s t := by
  obtain ⟨n', hn', ht⟩ := h
  exact ⟨n', by omega, ht⟩

end Activation

/-! ## Instructions -/

theorem ipWord_succ (ip : Nat) : ipWord ip + 1 = ipWord (ip + 1) := by
  simp only [ipWord, UInt32.ofNat_add]
  rfl

namespace Activation

variable {u : CodeUnit} {block : BlockId} {l : Literals} {ip : Nat} {i : Asm} {is : List Asm}
  {m m' : Machine} {c c' : Console}

/-- An instruction is carried out by a machine that stands behind its first word. -/
theorem Next.of_execute (hl : Asm.Stored u l ip (i :: is)) (hm : m.ip = ipWord ip)
    (hexec : Machine.execute u block i.op (ipWord ip) { m with ip := ipWord (ip + 1) } c
      = .ok (.next m') c') : Next u block (m, c) (m', c') := by
  have hword : u.word m.ip = .ok i.op.word := by
    rw [hm]
    exact hl.word_op
  unfold Next
  rw [Machine.step_eq hword, Machine.skip, hm, ipWord_succ]
  exact hexec

end Activation

namespace CodeUnit

variable {u : CodeUnit} {w : UInt32} {t : Text}

theorem textAt_eq_ok (h : w ≠ noIdent ∧ u.texts[w.toNat]? = some t) : u.textAt w = .ok t := by
  have hne : (w == noIdent) = false := beq_false_of_ne h.1
  simp only [textAt, hne, h.2, Bool.false_eq_true, if_false]

theorem ident_eq_ok (h : w ≠ noIdent ∧ u.texts[w.toNat]? = some t) (c : Console) :
    u.ident w c = .ok (c.intern t).1 (c.intern t).2 := by
  have hne : (w == noIdent) = false := beq_false_of_ne h.1
  have htext : Run.ofExcept (u.textAt w) c = .ok t c := by
    rw [textAt_eq_ok h]
    rfl
  unfold ident
  rw [hne]
  exact Run.bind_ok htext

end CodeUnit

theorem Asm.Stored.read_first {u : CodeUnit} {l : Literals} {ip : Nat} {op : Opcode} {o : Operand}
    {os : List Operand} {is : List Asm} (hl : Asm.Stored u l ip (⟨op, o :: os⟩ :: is))
    (c : Console) : Run.ofExcept (u.word (ipWord (ip + 1))) c = .ok (o.encode l) c := by
  rw [← ipWord_succ, hl.word_first]
  rfl

theorem Asm.Loaded.denotes_first {u : CodeUnit} {l : Literals} {ip : Nat} {op : Opcode}
    {o : Operand} {os : List Operand} {is : List Asm}
    (hl : Asm.Loaded u l ip (⟨op, o :: os⟩ :: is)) : o.Denotes u (o.encode l) :=
  hl.denotes _ (List.mem_cons_self ..) _ (List.mem_cons_self ..)

namespace Activation

variable {u : CodeUnit} {block : BlockId} {l : Literals} {ip : Nat} {op : Opcode}
  {is : List Asm} {m : Machine}

theorem Next.loadInt {w : UInt32} (hl : Asm.Stored u l ip (⟨.loadInt, [.word w]⟩ :: is))
    (hm : m.ip = ipWord ip) (c : Console) : Next u block (m, c)
      (({ m with ip := ipWord (ip + 2) } : Machine).pushInt (Number.signExtend w), c) := by
  apply Next.of_execute hl hm
  refine (Run.bind_ok (hl.read_first c)).trans ?_
  rw [Machine.skip, ipWord_succ]
  rfl

theorem Next.loadFloat {f : Float} (hl : Asm.Loaded u l ip (⟨.loadFloat, [.float f]⟩ :: is))
    (hm : m.ip = ipWord ip) (c : Console) : Next u block (m, c)
      (({ m with ip := ipWord (ip + 2) } : Machine).pushFloat (Float.ofBits f.toBits), c) := by
  apply Next.of_execute hl.toStored hm
  have hdenotes : u.floats[((Operand.float f).encode l).toNat]? = some f.toBits := hl.denotes_first
  have hfloat : Run.ofExcept (u.floatAt ((Operand.float f).encode l)) c
      = .ok (Float.ofBits f.toBits) c := by
    simp only [CodeUnit.floatAt, hdenotes]
    rfl
  refine (Run.bind_ok (hl.read_first c)).trans ((Run.bind_ok hfloat).trans ?_)
  rw [Machine.skip, ipWord_succ]
  rfl

theorem Next.loadText {o : Operand} {t : Text} (hop : op = .loadText ∨ op = .loadIdent)
    (ho : o = .text t ∨ o = .ident t) (hl : Asm.Loaded u l ip (⟨op, [o]⟩ :: is))
    (hm : m.ip = ipWord ip) (c : Console) : Next u block (m, c)
      (({ m with ip := ipWord (ip + 2) } : Machine).setText t, c) := by
  apply Next.of_execute hl.toStored hm
  have htext : Run.ofExcept (u.textAt (o.encode l)) c = .ok t c := by
    have hdenotes := hl.denotes_first
    rcases ho with rfl | rfl <;> rw [CodeUnit.textAt_eq_ok hdenotes] <;> rfl
  rcases hop with rfl | rfl
  all_goals
    refine (Run.bind_ok (hl.read_first c)).trans ((Run.bind_ok htext).trans ?_)
    rw [Machine.skip, ipWord_succ]
    rfl

/-- The variable with a spelling becomes the current one, if it exists. -/
theorem Next.setVar {name : Text} (hl : Asm.Loaded u l ip (⟨.setVar, [.ident name]⟩ :: is))
    (hm : m.ip = ipWord ip) (c : Console) : Next u block (m, c)
      ({ m with
          ip := ipWord (ip + 2)
          var := (Eval.find m.scope (c.intern name).1 (c.intern name).2).1 },
        (c.intern name).2) := by
  apply Next.of_execute hl.toStored hm
  have hname := CodeUnit.ident_eq_ok (w := (Operand.ident name).encode l) hl.denotes_first c
  refine (Run.bind_ok (hl.read_first c)).trans ((Run.bind_ok hname).trans ?_)
  rw [Machine.skip, ipWord_succ]
  rfl

theorem createVar_eq (m : Machine) (n : Option Name) (c : Console) : m.createVar n c
    = .ok { m with var := (Eval.create m.scope n c).1 } (Eval.create m.scope n c).2 := by
  cases n <;> rfl

theorem Next.setVarCreate {name : Text}
    (hl : Asm.Loaded u l ip (⟨.setVarCreate, [.ident name]⟩ :: is)) (hm : m.ip = ipWord ip)
    (c : Console) : Next u block (m, c)
      ({ m with
          ip := ipWord (ip + 2)
          var := (Eval.create m.scope (c.intern name).1 (c.intern name).2).1 },
        (Eval.create m.scope (c.intern name).1 (c.intern name).2).2) := by
  apply Next.of_execute hl.toStored hm
  have hname := CodeUnit.ident_eq_ok (w := (Operand.ident name).encode l) hl.denotes_first c
  refine (Run.bind_ok (hl.read_first c)).trans ((Run.bind_ok hname).trans ?_)
  rw [Machine.skip, ipWord_succ]
  exact Run.bind_ok (createVar_eq _ _ _)

/-- A character ends the current text before the next one starts. -/
theorem Next.advanceChar {w : UInt32} (hl : Asm.Stored u l ip (⟨.advanceChar, [.word w]⟩ :: is))
    (hm : m.ip = ipWord ip) (c : Console) : Next u block (m, c)
      ({ m with
          ip := ipWord (ip + 2)
          text := []
          parked := (m.text ++ Machine.charOf w) :: m.parked }, c) := by
  apply Next.of_execute hl hm
  refine (Run.bind_ok (hl.read_first c)).trans ?_
  rw [Machine.skip, ipWord_succ]
  rfl

theorem branch_eq {target : Nat} (hl : Asm.Stored u l ip (⟨op, [.target target]⟩ :: is))
    (hm : m.ip = ipWord (ip + 1)) (taken : Bool) (c : Console) :
    m.branch u taken c
      = .ok { m with ip := if taken then ipWord target else ipWord (ip + 2) } c := by
  cases taken with
  | true =>
    unfold Machine.branch
    rw [if_pos rfl, hm, Run.bind_ok (hl.read_first c)]
    rfl
  | false =>
    unfold Machine.branch
    rw [if_neg Bool.false_ne_true, Machine.skip, hm, ipWord_succ]
    rfl

theorem Next.jump {target : Nat} (hl : Asm.Stored u l ip (⟨.jump, [.target target]⟩ :: is))
    (hm : m.ip = ipWord ip) (c : Console) :
    Next u block (m, c) ({ m with ip := ipWord target }, c) := by
  apply Next.of_execute hl hm
  exact Run.bind_ok (branch_eq hl rfl true c)

end Activation

/-! ## Values on the machine -/

/-- The machine with a value where its code leaves it. -/
def Demand.put : (want : Demand) → want.Carrier → Machine → Machine
  | .none, _, m => m
  | .int, i, m => m.pushInt i
  | .float, f, m => m.pushFloat f
  | .text, t, m => m.setText t

namespace Activation

variable {u : CodeUnit} {block : BlockId} {l : Literals} {ip : Nat} {op : Opcode}
  {is : List Asm} {m : Machine}

theorem Next.jumpUnless {d : Demand} {target : Nat} (hd : d = .int ∨ d = .float) (v : d.Carrier)
    (hl : Asm.Stored u l ip (⟨d.jumpUnless, [.target target]⟩ :: is)) (hm : m.ip = ipWord ip)
    (c : Console) : Next u block (d.put v m, c)
      ({ m with ip := if d.isZero v then ipWord target else ipWord (ip + 2) }, c) := by
  have hbranch := branch_eq (m := { m with ip := ipWord (ip + 1) }) hl rfl (d.isZero v) c
  rcases hd with rfl | rfl
  · exact .of_execute hl (show (m.pushInt v).ip = _ from hm) (Run.bind_ok hbranch)
  · exact .of_execute hl (show (m.pushFloat v).ip = _ from hm) (Run.bind_ok hbranch)

theorem Next.jumpIf {d : Demand} {target : Nat} (hd : d = .int ∨ d = .float) (v : d.Carrier)
    (hl : Asm.Stored u l ip (⟨d.jumpIf, [.target target]⟩ :: is)) (hm : m.ip = ipWord ip)
    (c : Console) : Next u block (d.put v m, c)
      ({ m with ip := if !d.isZero v then ipWord target else ipWord (ip + 2) }, c) := by
  have hbranch := branch_eq (m := { m with ip := ipWord (ip + 1) }) hl rfl (!d.isZero v) c
  rcases hd with rfl | rfl
  · exact .of_execute hl (show (m.pushInt v).ip = _ from hm) (Run.bind_ok hbranch)
  · exact .of_execute hl (show (m.pushFloat v).ip = _ from hm) (Run.bind_ok hbranch)

theorem Next.jumpKeep {logic : LogicOp} {target : Nat} (a : Int64)
    (hl : Asm.Stored u l ip
      (⟨if logic = .or then .jumpIfKeep else .jumpUnlessKeep, [.target target]⟩ :: is))
    (hm : m.ip = ipWord ip) (c : Console) : Next u block (m.pushInt a, c)
      (if logic.decides a then ({ m with ip := ipWord target } : Machine).pushInt a
        else { m with ip := ipWord (ip + 2) }, c) := by
  have hstay :=
    branch_eq (m := ({ m with ip := ipWord (ip + 1) } : Machine).pushInt a) hl rfl true c
  have hdrop := branch_eq (m := { m with ip := ipWord (ip + 1) }) hl rfl false c
  refine .of_execute hl (show (m.pushInt a).ip = _ from hm) ?_
  cases logic with
  | and =>
    show (if a == 0 then _ else _ : Run Progress) c = _
    by_cases ha : (a == 0) = true
    · rw [if_pos ha, if_pos (show LogicOp.and.decides a = true from ha)]
      exact Run.bind_ok hstay
    · rw [if_neg ha, if_neg (show ¬LogicOp.and.decides a = true from ha)]
      exact Run.bind_ok hdrop
  | or =>
    show (if a != 0 then _ else _ : Run Progress) c = _
    by_cases ha : (a != 0) = true
    · rw [if_pos ha, if_pos (show LogicOp.or.decides a = true from ha)]
      exact Run.bind_ok hstay
    · rw [if_neg ha, if_neg (show ¬LogicOp.or.decides a = true from ha)]
      exact Run.bind_ok hdrop

end Activation

/-! ## Expressions -/

open Activation

/-- From here the machine comes to position `ip` with the value and the console of an evaluation. -/
def Computes (u : CodeUnit) (block : BlockId) (ip : Nat) (m : Machine) (c : Console)
    (want : Demand) (r : want.Carrier × Console) : Prop :=
  ∃ text var, Moves u block 0 (m, c)
    (want.put r.1 { m with ip := ipWord ip, text := text, var := var }, r.2)

section expressions

variable {u : CodeUnit} {block : BlockId} {l : Literals} {ip : Nat} {m : Machine} {c : Console}

theorem Activation.Moves.next {k : Nat} {s t r : Activation} (h : Moves u block k s t)
    (hnext : Next u block t r) : Moves u block k s r :=
  (h.trans hnext.moves).weaken (Nat.le_add_right _ _)

theorem Computes.convert {source want : Demand} {r : source.Carrier × Console}
    (hsource : source ≠ .none) (h : Computes u block ip m c source r)
    (hl : Asm.Stored u l ip (Asm.convert source want)) :
    Computes u block (ip + Demand.convertSize source want) m c want
      (want.ofValue (source.toValue r.1), r.2) := by
  obtain ⟨text, var, hmoves⟩ := h
  cases source with
  | none => exact absurd rfl hsource
  | int =>
    cases want with
    | int => exact ⟨text, var, hmoves⟩
    | none | float | text => exact ⟨text, var, hmoves.next (.of_execute hl rfl rfl)⟩
  | float =>
    cases want with
    | float => exact ⟨text, var, hmoves⟩
    | none | int | text => exact ⟨text, var, hmoves.next (.of_execute hl rfl rfl)⟩
  | text =>
    cases want with
    | text => exact ⟨text, var, hmoves⟩
    | none | int | float => exact ⟨r.1, var, hmoves.next (.of_execute hl rfl rfl)⟩

theorem Activation.Moves.start (hm : m.ip = ipWord ip) (c : Console) :
    Moves u block 0 (m, c) ({ m with ip := ipWord ip }, c) := by
  rw [← hm]
  exact .refl

theorem Activation.Next.not {d : Demand} (hd : d = .int ∨ d = .float) (v : d.Carrier)
    (hl : Asm.Stored u l ip (Asm.plain [if d = .int then .not else .notFloat]))
    (hm : m.ip = ipWord ip) (c : Console) : Next u block (d.put v m, c)
      (Demand.int.put (Machine.ofBool (d.isZero v)) { m with ip := ipWord (ip + 1) }, c) := by
  rcases hd with rfl | rfl
  · exact .of_execute hl (show (m.pushInt v).ip = _ from hm) rfl
  · exact .of_execute hl (show (m.pushFloat v).ip = _ from hm) rfl

theorem computes_literal {op : Opcode} (hop : op = .loadText ∨ op = .loadIdent) (want : Demand)
    (int : Int64) (float : Float) (text : Text)
    (hl : Asm.Loaded u l ip (Expr.literalAsm want int float ⟨op, [.text text]⟩))
    (hm : m.ip = ipWord ip) : Computes u block (ip + if want = .none then 0 else 2) m c want
      (Expr.literal want int float text, c) := by
  have hstart : Moves u block 0 (m, c) ({ m with ip := ipWord ip }, c) := .start hm c
  cases want with
  | none => exact ⟨m.text, m.var, hstart⟩
  | int => exact ⟨m.text, m.var, hstart.next (.loadInt hl.toStored rfl c)⟩
  | float => exact ⟨m.text, m.var, hstart.next (.loadFloat hl rfl c)⟩
  | text => exact ⟨m.text, m.var, hstart.next (.loadText hop (.inl rfl) hl rfl c)⟩

theorem Machine.saveVar_eq (m : Machine) (v : Value) (c : Console) :
    m.saveVar v c = .ok () (Eval.assign m.var v c).2 := by
  unfold Machine.saveVar
  cases m.var <;> rfl

/-- The current variable takes the value, which stays. -/
theorem Activation.Next.saveVar {kind : Demand} (hkind : kind ≠ .none) (v : kind.Carrier)
    (hl : Asm.Stored u l ip (Asm.plain [kind.saveVar])) (hm : m.ip = ipWord ip) (c : Console) :
    Next u block (kind.put v m, c)
      (kind.put v { m with ip := ipWord (ip + 1) },
        (Eval.assign m.var (kind.toValue v) c).2) := by
  have hsave (m' : Machine) := m'.saveVar_eq (kind.toValue v) c
  cases kind with
  | none => exact absurd rfl hkind
  | int => exact .of_execute hl (show (m.pushInt v).ip = _ from hm) (Run.bind_ok (hsave _))
  | float => exact .of_execute hl (show (m.pushFloat v).ip = _ from hm) (Run.bind_ok (hsave _))
  | text => exact .of_execute hl (show (m.setText v).ip = _ from hm) (Run.bind_ok (hsave _))

/-- The variable whose name is the current text is created if it is missing. -/
theorem Activation.Next.setVarArrayCreate {is : List Asm}
    (hl : Asm.Stored u l ip (⟨.setVarArrayCreate, []⟩ :: is)) (hm : m.ip = ipWord ip)
    (c : Console) :
    Next u block (m, c)
      ({ m with
          ip := ipWord (ip + 1)
          var := (Eval.create m.scope (c.intern m.text).1 (c.intern m.text).2).1 },
        (Eval.create m.scope (c.intern m.text).1 (c.intern m.text).2).2) := by
  refine .of_execute hl hm ?_
  have hintern : Run.change (·.intern m.text) c = .ok (c.intern m.text).1 (c.intern m.text).2 := rfl
  exact (Run.bind_ok hintern).trans (Run.bind_ok (createVar_eq _ _ _))

theorem Activation.Next.loadVar {want : Demand} (hwant : want ≠ .none)
    (hl : Asm.Stored u l ip (Asm.plain [want.loadVar])) (hm : m.ip = ipWord ip) (c : Console) :
    Next u block (m, c)
      (want.put (want.ofValue (Eval.value m.var c).1) { m with ip := ipWord (ip + 1) }, c) := by
  cases want with
  | none => exact absurd rfl hwant
  | int | float | text => exact .of_execute hl hm rfl

theorem UpdateOp.operands_int_or_float (op : UpdateOp) :
    op.operands = .int ∨ op.operands = .float := by
  cases op with
  | arith => exact .inr rfl
  | word => exact .inl rfl

/-- A variable is read, combined with a value and set. -/
theorem Activation.Moves.update {s : Activation} {op : UpdateOp} {v : op.operands.Carrier}
    (h : Moves u block 0 s (op.operands.put v m, c)) (hm : m.ip = ipWord ip)
    (hl : Asm.Stored u l ip
      (Asm.plain [op.operands.loadVar, op.opcode, op.operands.saveVar])) :
    let new := op.apply (op.operands.ofValue (Eval.value m.var c).1) v
    Moves u block 0 s (op.operands.put new { m with ip := ipWord (ip + 3) },
      (Eval.assign m.var (op.operands.toValue new) c).2) := by
  cases op with
  | arith op =>
    have hload := h.next
      (.loadVar (UpdateOp.operands_ne_none _) hl.head (show (m.pushFloat v).ip = _ from hm) c)
    have hop : Asm.Stored u l (ip + 1) (Asm.plain [op.opcode]) := hl.tail.head
    have hnew : Moves u block 0 s (Demand.float.put (op.apply (Eval.value m.var c).1.toFloat v)
      { m with ip := ipWord (ip + 2) }, c) :=
      hload.next (.of_execute hop rfl (by cases op <;> rfl))
    exact hnew.next (.saveVar (UpdateOp.operands_ne_none _) _ hl.tail.tail rfl c)
  | word op =>
    have hload := h.next
      (.loadVar (UpdateOp.operands_ne_none _) hl.head (show (m.pushInt v).ip = _ from hm) c)
    have hop : Asm.Stored u l (ip + 1) (Asm.plain [op.opcode]) := hl.tail.head
    have hnew : Moves u block 0 s (Demand.int.put (op.apply (Eval.value m.var c).1.toInt v)
      { m with ip := ipWord (ip + 2) }, c) :=
      hload.next (.of_execute hop rfl (by cases op <;> rfl))
    exact hnew.next (.saveVar (UpdateOp.operands_ne_none _) _ hl.tail.tail rfl c)

theorem Computes.cast {ip' : Nat} {want : Demand} {r : want.Carrier × Console}
    (h : Computes u block ip m c want r) (e : ip = ip') : Computes u block ip' m c want r := e ▸ h

theorem Activation.Moves.eval {k : Nat} {s t : Activation} {want : Demand}
    {r : want.Carrier × Console} (h : Moves u block k s t)
    (hr : Computes u block ip t.1 t.2 want r) : ∃ text var, Moves u block k s
      (want.put r.1 { t.1 with ip := ipWord ip, text := text, var := var }, r.2) := by
  obtain ⟨text, var, hmoves⟩ := hr
  exact ⟨text, var, h.trans hmoves⟩

theorem computes_element {name : Text} {i : Expr} (c : Console)
    (hl : Asm.Loaded u l ip (Expr.elementAsm name (i.asm (ip + 3) .text))) (hm : m.ip = ipWord ip)
    (hi : ∀ (m : Machine) (c : Console), m.ip = ipWord (ip + 3) →
      Computes u block (ip + 3 + i.size .text) m c .text (i.eval m.scope .text c)) :
    Computes u block (ip + i.size .text + 4) m c .text
      (name ++ (i.eval m.scope .text c).1, (i.eval m.scope .text c).2) := by
  have hstart : Moves u block 0 (m, c) ({ m with ip := ipWord ip }, c) := .start hm c
  have hname := hstart.next (.loadText (.inr rfl) (.inr rfl) hl.left.head rfl c)
  have hadvance := hname.next (.of_execute hl.left.tail.head.toStored rfl rfl)
  obtain ⟨text, var, hindex⟩ := hadvance.eval (hi _ c rfl)
  have hrewind : Asm.Stored u l (ip + 3 + i.size .text) (Asm.plain [.rewind]) :=
    hl.right.toStored.cast (by simp [Asm.size]; omega)
  have hall := hindex.next (.of_execute hrewind rfl rfl)
  rw [show ip + i.size .text + 4 = ip + 3 + i.size .text + 1 by omega]
  exact ⟨text, var, hall⟩

/-- One operand, and the instruction that is applied to it. -/
theorem computes_unary {d out want : Demand} {op : Opcode} {x : Expr} {r : out.Carrier}
    (hout : out ≠ .none)
    (hl : Asm.Loaded u l ip (x.asm ip d ++ Asm.plain [op] ++ Asm.convert out want))
    (hx : Computes u block (ip + x.size d) m c d (x.eval m.scope d c))
    (hop : ∀ (m' : Machine) (c' : Console), m'.ip = ipWord (ip + x.size d) →
      Asm.Stored u l (ip + x.size d) (Asm.plain [op]) →
      Next u block (d.put (x.eval m.scope d c).1 m', c')
        (out.put r { m' with ip := ipWord (ip + x.size d + 1) }, c')) :
    Computes u block (ip + x.size d + 1 + Demand.convertSize out want) m c want
      (want.ofValue (out.toValue r), (x.eval m.scope d c).2) := by
  obtain ⟨text, var, hoperand⟩ := hx
  have hopAt : Asm.Stored u l (ip + x.size d) (Asm.plain [op]) :=
    hl.left.right.toStored.cast (by rw [Expr.total_asm])
  have hresult : Computes u block (ip + x.size d + 1) m c out (r, (x.eval m.scope d c).2) :=
    ⟨text, var, hoperand.next (hop _ _ rfl hopAt)⟩
  exact hresult.convert hout (hl.right.toStored.cast (by simp [Nat.add_assoc]))

/-- Two operands, the right one first, and the instruction that combines them. -/
theorem computes_binary {d out want : Demand} {op : Opcode} {left right : Expr}
    {f : d.Carrier → d.Carrier → out.Carrier} (hd : d = .int ∨ d = .float) (hout : out ≠ .none)
    (hl : Asm.Loaded u l ip (right.asm ip d ++ left.asm (ip + right.size d) d ++ Asm.plain [op]
      ++ Asm.convert out want))
    (hright : Computes u block (ip + right.size d) m c d (right.eval m.scope d c))
    (hleft : ∀ (m : Machine) (c : Console), m.ip = ipWord (ip + right.size d) →
      Computes u block (ip + right.size d + left.size d) m c d (left.eval m.scope d c))
    (hop : ∀ (m : Machine) (c : Console) (ip : UInt32) (a b : d.Carrier),
      Machine.execute u block op ip (d.put a (d.put b m)) c = .ok (.next (out.put (f a b) m)) c) :
    Computes u block (ip + right.size d + left.size d + 1 + Demand.convertSize out want) m c want
      (want.ofValue (out.toValue (f (left.eval m.scope d (right.eval m.scope d c).2).1
        (right.eval m.scope d c).1)), (left.eval m.scope d (right.eval m.scope d c).2).2) := by
  have hopAt : Asm.Stored u l (ip + right.size d + left.size d) (Asm.plain [op]) :=
    hl.left.right.toStored.cast (by simp [Nat.add_assoc])
  obtain ⟨text₁, var₁, hright⟩ := hright
  have hresult : Computes u block (ip + right.size d + left.size d + 1) m c out
      (f (left.eval m.scope d (right.eval m.scope d c).2).1 (right.eval m.scope d c).1,
        (left.eval m.scope d (right.eval m.scope d c).2).2) := by
    have hcombine (text : Text) (var : Option VarRef) := hop
      { m with ip := ipWord (ip + right.size d + left.size d + 1), text := text, var := var }
      (left.eval m.scope d (right.eval m.scope d c).2).2 (ipWord (ip + right.size d + left.size d))
      (left.eval m.scope d (right.eval m.scope d c).2).1 (right.eval m.scope d c).1
    rcases hd with rfl | rfl
    · obtain ⟨text, var, hleft⟩ := hright.eval (hleft _ _ rfl)
      exact ⟨text, var, hleft.next (.of_execute hopAt rfl (hcombine text var))⟩
    · obtain ⟨text, var, hleft⟩ := hright.eval (hleft _ _ rfl)
      exact ⟨text, var, hleft.next (.of_execute hopAt rfl (hcombine text var))⟩
  exact hresult.convert hout (hl.right.toStored.cast (by simp [Nat.add_assoc]))

/-- Two texts, with the left one parked while the right one is made. -/
theorem computes_texts {k : Nat} {g : Text → Text} {left right : Expr}
    (hleft : Computes u block (ip + left.size .text) m c .text (left.eval m.scope .text c))
    (hadvance : ∀ (m : Machine) (c : Console), m.ip = ipWord (ip + left.size .text) →
      Next u block (m, c) ({ m with
        ip := ipWord (ip + left.size .text + k)
        text := []
        parked := g m.text :: m.parked }, c))
    (hright : ∀ (m : Machine) (c : Console), m.ip = ipWord (ip + left.size .text + k) →
      Computes u block (ip + left.size .text + k + right.size .text) m c .text
        (right.eval m.scope .text c)) :
    ∃ var, Moves u block 0 (m, c) ({ m with
      ip := ipWord (ip + left.size .text + k + right.size .text)
      text := (right.eval m.scope .text (left.eval m.scope .text c).2).1
      parked := g (left.eval m.scope .text c).1 :: m.parked
      var := var }, (right.eval m.scope .text (left.eval m.scope .text c).2).2) := by
  obtain ⟨text₁, var₁, hleft⟩ := hleft
  obtain ⟨text, var, hright⟩ := (hleft.next (hadvance _ _ rfl)).eval (hright _ _ rfl)
  exact ⟨var, hright⟩

theorem computes_join {k : Nat} {g : Text → Text} {left right : Expr} {want : Demand}
    (hleft : Computes u block (ip + left.size .text) m c .text (left.eval m.scope .text c))
    (hadvance : ∀ (m : Machine) (c : Console), m.ip = ipWord (ip + left.size .text) →
      Next u block (m, c) ({ m with
        ip := ipWord (ip + left.size .text + k)
        text := []
        parked := g m.text :: m.parked }, c))
    (hright : ∀ (m : Machine) (c : Console), m.ip = ipWord (ip + left.size .text + k) →
      Computes u block (ip + left.size .text + k + right.size .text) m c .text
        (right.eval m.scope .text c))
    (hl : Asm.Stored u l (ip + left.size .text + k + right.size .text)
      (Asm.plain [.rewind] ++ Asm.convert .text want)) :
    Computes u block (ip + left.size .text + k + right.size .text + 1
      + Demand.convertSize .text want) m c want
      (want.ofValue (.text (g (left.eval m.scope .text c).1
        ++ (right.eval m.scope .text (left.eval m.scope .text c).2).1)),
        (right.eval m.scope .text (left.eval m.scope .text c).2).2) := by
  obtain ⟨var, hboth⟩ := computes_texts hleft hadvance hright
  have hjoined : Computes u block (ip + left.size .text + k + right.size .text + 1) m c .text
      (g (left.eval m.scope .text c).1
        ++ (right.eval m.scope .text (left.eval m.scope .text c).2).1,
        (right.eval m.scope .text (left.eval m.scope .text c).2).2) :=
    ⟨[], var, hboth.next (.of_execute hl.left rfl rfl)⟩
  exact hjoined.convert (by decide) hl.right

theorem Computes.jump {want : Demand} {r : want.Carrier × Console} {target : Nat}
    (h : Computes u block ip m c want r) (hl : Asm.Stored u l ip [⟨.jump, [.target target]⟩]) :
    Computes u block target m c want r := by
  obtain ⟨text, var, hmoves⟩ := h
  cases want with
  | none | int | float => exact ⟨text, var, hmoves.next (.jump hl rfl _)⟩
  | text => exact ⟨r.1, var, hmoves.next (.jump hl rfl _)⟩

theorem Activation.Moves.variable {s : Activation} {kind : Demand} {v : kind.Carrier} {name : Text}
    (h : Moves u block 0 s (kind.put v m, c)) (hm : m.ip = ipWord ip)
    (hl : Asm.Loaded u l ip [⟨.setVarCreate, [.ident name]⟩]) :
    Moves u block 0 s (kind.put v { m with
      ip := ipWord (ip + 2)
      var := (Eval.create m.scope (c.intern name).1 (c.intern name).2).1 },
      (Eval.create m.scope (c.intern name).1 (c.intern name).2).2) := by
  cases kind with
  | none => exact h.next (.setVarCreate hl hm c)
  | int => exact h.next (.setVarCreate hl (show (m.pushInt v).ip = _ from hm) c)
  | float => exact h.next (.setVarCreate hl (show (m.pushFloat v).ip = _ from hm) c)
  | text => exact h.next (.setVarCreate hl (show (m.setText v).ip = _ from hm) c)

theorem Activation.Moves.element {s : Activation} {kind : Demand} {v : kind.Carrier} {name : Text}
    {i : Expr} (hkind : kind = .int ∨ kind = .float) (h : Moves u block 0 s (kind.put v m, c))
    (hm : m.ip = ipWord ip)
    (hl : Asm.Loaded u l ip
      (Expr.elementAsm name (i.asm (ip + 3) .text) ++ Asm.plain [.setVarArrayCreate]))
    (hi : ∀ (m : Machine) (c : Console), m.ip = ipWord (ip + 3) →
      Computes u block (ip + 3 + i.size .text) m c .text (i.eval m.scope .text c)) :
    let t := i.eval m.scope .text c
    let n := t.2.intern (name ++ t.1)
    ∃ text, Moves u block 0 s (kind.put v { m with
      ip := ipWord (ip + i.size .text + 5)
      text := text
      var := (Eval.create m.scope n.1 n.2).1 }, (Eval.create m.scope n.1 n.2).2) := by
  have hset : Asm.Stored u l (ip + i.size .text + 4) (Asm.plain [.setVarArrayCreate]) :=
    hl.right.toStored.cast (by simp; omega)
  rcases hkind with rfl | rfl
  · obtain ⟨text, var, helement⟩ := h.eval
      (computes_element c hl.left (show (m.pushInt v).ip = _ from hm) hi)
    exact ⟨_, helement.next (.setVarArrayCreate hset rfl _)⟩
  · obtain ⟨text, var, helement⟩ := h.eval
      (computes_element c hl.left (show (m.pushFloat v).ip = _ from hm) hi)
    exact ⟨_, helement.next (.setVarArrayCreate hset rfl _)⟩

theorem Activation.Moves.elementText {s : Activation} {v : Text} {name : Text} {i : Expr}
    (h : Moves u block 0 s (m.setText v, c)) (hm : m.ip = ipWord ip)
    (hl : Asm.Loaded u l ip (⟨.advance, []⟩ :: Expr.elementAsm name (i.asm (ip + 4) .text)
      ++ Asm.plain [.setVarArrayCreate, .terminateRewind]))
    (hi : ∀ (m : Machine) (c : Console), m.ip = ipWord (ip + 4) →
      Computes u block (ip + 4 + i.size .text) m c .text (i.eval m.scope .text c)) :
    let t := i.eval m.scope .text c
    let n := t.2.intern (name ++ t.1)
    Moves u block 0 s (({ m with
      ip := ipWord (ip + i.size .text + 7)
      var := (Eval.create m.scope n.1 n.2).1 } : Machine).setText v,
      (Eval.create m.scope n.1 n.2).2) := by
  have hadvance := h.next
    (.of_execute hl.left.head.toStored (show (m.setText v).ip = _ from hm) rfl)
  have hset : Asm.Stored u l (ip + 1 + i.size .text + 4)
      (Asm.plain [.setVarArrayCreate, .terminateRewind]) :=
    hl.right.toStored.cast (by simp [Asm.size]; omega)
  have hback : Asm.Stored u l (ip + 1 + i.size .text + 5) (Asm.plain [.terminateRewind]) :=
    hset.tail
  have helementAt : Asm.Loaded u l (ip + 1) (Expr.elementAsm name (i.asm (ip + 1 + 3) .text)) :=
    hl.left.tail
  obtain ⟨text, var, helement⟩ := hadvance.eval (computes_element c helementAt rfl hi)
  have hvar := helement.next (.setVarArrayCreate hset rfl _)
  rw [show ip + i.size .text + 7 = ip + 1 + i.size .text + 5 + 1 by omega]
  exact hvar.next (.of_execute hback rfl rfl)

theorem Activation.Moves.save {kind want : Demand} {v : kind.Carrier} {c' : Console} {text : Text}
    {var : Option VarRef} (hkind : kind ≠ .none)
    (h : Moves u block 0 (m, c)
      (kind.put v { m with ip := ipWord ip, text := text, var := var }, c'))
    (hl : Asm.Stored u l ip (Asm.plain [kind.saveVar] ++ Asm.convert kind want)) :
    Computes u block (ip + 1 + Demand.convertSize kind want) m c want
      (want.ofValue (kind.toValue v), (Eval.assign var (kind.toValue v) c').2) := by
  have hsaved : Computes u block (ip + 1) m c kind (v, (Eval.assign var (kind.toValue v) c').2) :=
    ⟨text, var, h.next (.saveVar hkind v hl.left rfl c')⟩
  exact hsaved.convert hkind hl.right

theorem Activation.Moves.assignElement {kind want : Demand} {v : kind.Carrier} {c' : Console}
    {text name : Text} {var : Option VarRef} {i : Expr} (hkind : kind ≠ .none)
    (h : Moves u block 0 (m, c)
      (kind.put v { m with ip := ipWord ip, text := text, var := var }, c'))
    (hl : Asm.Loaded u l ip ((if kind = .text then
        ⟨.advance, []⟩ :: Expr.elementAsm name (i.asm (ip + 4) .text)
          ++ Asm.plain [.setVarArrayCreate, .terminateRewind]
      else Expr.elementAsm name (i.asm (ip + 3) .text) ++ Asm.plain [.setVarArrayCreate])
      ++ (Asm.plain [kind.saveVar] ++ Asm.convert kind want)))
    (hi : ∀ ip, Asm.Loaded u l ip (i.asm ip .text) → ∀ (m : Machine) (c : Console),
      m.ip = ipWord ip → Computes u block (ip + i.size .text) m c .text (i.eval m.scope .text c)) :
    let t := i.eval m.scope .text c'
    let n := t.2.intern (name ++ t.1)
    let r := Eval.create m.scope n.1 n.2
    Computes u block (ip + i.size .text + (if kind = .text then 8 else 6)
      + Demand.convertSize kind want) m c want
      (want.ofValue (kind.toValue v), (Eval.assign r.1 (kind.toValue v) r.2).2) := by
  cases kind with
  | none => exact absurd rfl hkind
  | text =>
    have hsaveAt : Asm.Stored u l (ip + i.size .text + 7)
        (Asm.plain [.saveVarText] ++ Asm.convert .text want) :=
      hl.right.toStored.cast (by simp [Asm.size]; omega)
    have helement := h.elementText rfl hl.left (hi _ hl.left.left.tail.left.tail.tail)
    exact Moves.save hkind helement hsaveAt
  | int | float =>
    have hsaveAt := hl.right.toStored.cast
      (show _ = ip + i.size .text + 5 by simp; omega)
    obtain ⟨text, helement⟩ := h.element (by simp) rfl hl.left (hi _ hl.left.left.left.tail.tail)
    exact helement.save hkind hsaveAt

end expressions







namespace Expr

variable {u : CodeUnit} {block : BlockId} {l : Literals}

theorem computes : ∀ (x : Expr) (ip : Nat) (want : Demand) (m : Machine) (c : Console),
    x.callFree = true → Asm.Loaded u l ip (x.asm ip want) → m.ip = ipWord ip →
      Computes u block (ip + x.size want) m c want (x.eval m.scope want c)
  | int .., ip, want, m, c, _, hl, hm => computes_literal (.inl rfl) want _ _ _ hl hm
  | float .., ip, want, m, c, _, hl, hm => computes_literal (.inl rfl) want _ _ _ hl hm
  | str .., ip, want, m, c, _, hl, hm => computes_literal (.inl rfl) want _ _ _ hl hm
  | word .., ip, want, m, c, _, hl, hm => computes_literal (.inr rfl) want _ _ _ hl hm
  | var pos name none, ip, want, m, c, _, hl, hm => by
    have hstart : Moves u block 0 (m, c) ({ m with ip := ipWord ip }, c) := .start hm c
    by_cases hw : want = .none
    · subst hw
      exact ⟨m.text, m.var, hstart⟩
    · simp only [asm, if_neg hw] at hl
      simp only [size, if_neg hw, eval]
      have hvar := hstart.next (.setVar hl.left rfl c)
      have hload := hvar.next (.loadVar hw hl.right.toStored rfl _)
      exact ⟨m.text, _, hload⟩
  | var pos name (some i), ip, want, m, c, hx, hl, hm => by
    by_cases hw : want = .none
    · subst hw
      exact ⟨m.text, m.var, .start hm c⟩
    · simp only [asm, if_neg hw] at hl
      simp only [size, if_neg hw, eval]
      obtain ⟨text, var, helement⟩ := computes_element c hl.left.left hm
        fun m c hm => computes i (ip + 3) .text m c hx hl.left.left.left.tail.tail hm
      have hset : Asm.Stored u l (ip + i.size .text + 4) (Asm.plain [.setVarArray]) :=
        hl.left.right.toStored.cast (by simp; omega)
      have hload : Asm.Stored u l (ip + i.size .text + 5) (Asm.plain [want.loadVar]) :=
        hl.right.toStored.cast (by simp; omega)
      have hvar := helement.next (.of_execute hset rfl rfl)
      exact ⟨_, _, hvar.next (.loadVar hw hload rfl _)⟩
  | assign _ name none value, ip, want, m, c, hx, hl, hm => by
    simp only [asm, List.append_assoc] at hl
    obtain ⟨text, var, hvalue⟩ := computes value ip value.storedAs m c hx hl.left hm
    have hvarAt := hl.right.left.cast (show _ = ip + value.size value.storedAs by rw [total_asm])
    have hsaveAt := hl.right.right.toStored.cast
      (show _ = ip + value.size value.storedAs + 2 by simp [Asm.size, Nat.add_assoc])
    have hvar := hvalue.variable rfl hvarAt
    exact (hvar.save value.storedAs_ne_none hsaveAt).cast (by simp only [size]; omega)
  | assign _ name (some i) value, ip, want, m, c, hx, hl, hm => by
    simp only [callFree, Bool.and_eq_true] at hx
    simp only [asm, List.append_assoc] at hl
    obtain ⟨text, var, hvalue⟩ := computes value ip value.storedAs m c hx.2 hl.left hm
    have helementAt := hl.right.cast (show _ = ip + value.size value.storedAs by rw [total_asm])
    have hresult := hvalue.assignElement value.storedAs_ne_none helementAt
      fun ip hl m c hm => computes i ip .text m c hx.1 hl hm
    exact hresult.cast (by simp only [size]; omega)
  | update _ name none op value, ip, want, m, c, hx, hl, hm => by
    simp only [asm, List.append_assoc] at hl
    obtain ⟨text, var, hvalue⟩ := computes value ip op.operands m c hx hl.left hm
    have hvarAt := hl.right.left.cast (show _ = ip + value.size op.operands by rw [total_asm])
    have hupdateAt := hl.right.right.left.toStored.cast
      (show _ = ip + value.size op.operands + 2 by simp [Asm.size, Nat.add_assoc])
    have hconvertAt := hl.right.right.right.toStored.cast
      (show _ = ip + value.size op.operands + 5 by simp [Asm.size, Nat.add_assoc])
    have hupdate := (hvalue.variable rfl hvarAt).update rfl hupdateAt
    have hresult : Computes u block (ip + value.size op.operands + 5) m c op.operands (_, _) :=
      ⟨text, _, hupdate⟩
    exact (hresult.convert op.operands_ne_none hconvertAt).cast (by simp only [size]; omega)
  | update _ name (some i) op value, ip, want, m, c, hx, hl, hm => by
    simp only [callFree, Bool.and_eq_true] at hx
    simp only [asm, List.append_assoc] at hl
    rw [← List.append_assoc (elementAsm _ _)] at hl
    obtain ⟨text, var, hvalue⟩ := computes value ip op.operands m c hx.2 hl.left hm
    have helementAt := hl.right.left.cast (show _ = ip + value.size op.operands by rw [total_asm])
    have hupdateAt := hl.right.right.left.toStored.cast
      (show _ = ip + value.size op.operands + i.size .text + 5 by simp; omega)
    have hconvertAt := hl.right.right.right.toStored.cast
      (show _ = ip + value.size op.operands + i.size .text + 8 by simp; omega)
    obtain ⟨text, helement⟩ := hvalue.element op.operands_int_or_float rfl helementAt
      fun m c hm => computes i _ .text m c hx.1 helementAt.left.left.tail.tail hm
    have hupdate := helement.update rfl hupdateAt
    have hresult : Computes u block (ip + value.size op.operands + i.size .text + 8) m c op.operands
      (_, _) := ⟨text, _, hupdate⟩
    exact (hresult.convert op.operands_ne_none hconvertAt).cast (by simp only [size]; omega)
  | arith _ op left right, ip, want, m, c, hx, hl, hm => by
    simp only [callFree, Bool.and_eq_true] at hx
    have hright := computes right ip .float m c hx.2 hl.left.left.left hm
    have hleftAt := hl.left.left.right.cast (show _ = ip + right.size .float by rw [total_asm])
    have hresult := computes_binary (f := op.apply) (.inr rfl) (by decide) hl hright
      (fun m c hm => computes left _ .float m c hx.1 hleftAt hm)
      fun m c ip a b => by cases op <;> rfl
    exact hresult.cast (by simp only [size]; omega)
  | wordArith _ op left right, ip, want, m, c, hx, hl, hm => by
    simp only [callFree, Bool.and_eq_true] at hx
    have hright := computes right ip .int m c hx.2 hl.left.left.left hm
    have hleftAt := hl.left.left.right.cast (show _ = ip + right.size .int by rw [total_asm])
    have hresult := computes_binary (f := op.apply) (.inl rfl) (by decide) hl hright
      (fun m c hm => computes left _ .int m c hx.1 hleftAt hm)
      fun m c ip a b => by cases op <;> rfl
    exact hresult.cast (by simp only [size]; omega)
  | compare _ op left right, ip, want, m, c, hx, hl, hm => by
    simp only [callFree, Bool.and_eq_true] at hx
    have hright := computes right ip .float m c hx.2 hl.left.left.left hm
    have hleftAt := hl.left.left.right.cast (show _ = ip + right.size .float by rw [total_asm])
    have hresult := computes_binary (f := fun a b => Machine.ofBool (op.apply a b)) (.inr rfl)
      (by decide) hl hright (fun m c hm => computes left _ .float m c hx.1 hleftAt hm)
      fun m c ip a b => by cases op <;> rfl
    exact hresult.cast (by simp only [size]; omega)
  | logic pos op left right, ip, want, m, c, hx, hl, hm => by
    simp only [callFree, Bool.and_eq_true] at hx
    simp only [asm] at hl
    obtain ⟨text, var, hleft⟩ := computes left ip .int m c hx.1 hl.left.left.left hm
    have hjumpAt := hl.left.left.right.toStored.cast
      (show _ = ip + left.size .int by rw [total_asm])
    have hjump := hleft.next (.jumpKeep _ hjumpAt rfl _)
    have hconvertAt : Asm.Stored u l (ip + left.size .int + 2 + right.size .int)
      (Asm.convert .int want) := hl.right.toStored.cast (by simp [Asm.size, Nat.add_assoc])
    have hsize : ip + left.size .int + 2 + right.size .int + Demand.convertSize .int want
        = ip + size (.logic pos op left right) want := by
      simp only [size]
      omega
    rw [← hsize, eval, Eval.bind_apply]
    by_cases hdecides : op.decides (left.eval m.scope .int c).1 = true
    · rw [if_pos hdecides] at hjump ⊢
      have hresult : Computes u block (ip + left.size .int + 2 + right.size .int) m c .int
        (left.eval m.scope .int c) := ⟨text, var, hjump⟩
      exact hresult.convert (by decide) hconvertAt
    · rw [if_neg hdecides] at hjump ⊢
      have hrightAt := hl.left.right.cast
        (show _ = ip + left.size .int + 2 by simp [Asm.size, Nat.add_assoc])
      have hresult : Computes u block (ip + left.size .int + 2 + right.size .int) m c .int
          (right.eval m.scope .int (left.eval m.scope .int c).2) :=
        hjump.eval (computes right _ .int _ _ hx.2 hrightAt rfl)
      exact hresult.convert (by decide) hconvertAt
  | textEq _ equal left right, ip, want, m, c, hx, hl, hm => by
    simp only [callFree, Bool.and_eq_true] at hx
    simp only [asm] at hl
    have hleft := computes left ip .text m c hx.1 hl.left.left.left.left.left hm
    have hadvanceAt : Asm.Stored u l (ip + left.size .text) (Asm.plain [.advanceNul]) :=
      hl.left.left.left.left.right.toStored.cast (by simp)
    have hrightAt := hl.left.left.left.right.cast
      (show _ = ip + left.size .text + 1 by simp [Nat.add_assoc])
    obtain ⟨var, hboth⟩ := computes_texts (k := 1) (g := id) hleft
      (fun m c hm => .of_execute hadvanceAt hm rfl)
      fun m c hm => computes right _ .text m c hx.2 hrightAt hm
    have hcompareAt : Asm.Stored u l (ip + left.size .text + 1 + right.size .text)
      (Asm.plain [.compareText]) := hl.left.left.right.toStored.cast (by simp [Nat.add_assoc])
    have hcompare := hboth.next (.of_execute hcompareAt rfl rfl)
    cases equal with
    | true =>
      have hresult : Computes u block (ip + left.size .text + 1 + right.size .text + 1) m c .int
          (Machine.ofBool (Text.equalFold (left.eval m.scope .text c).1
            (right.eval m.scope .text (left.eval m.scope .text c).2).1 == true),
            (right.eval m.scope .text (left.eval m.scope .text c).2).2) := by
        rw [beq_true]
        exact ⟨_, var, hcompare⟩
      exact (hresult.convert (by decide) (hl.right.toStored.cast (by simp [Nat.add_assoc]))).cast
        (by simp only [size]; simp; omega)
    | false =>
      have hnotAt : Asm.Stored u l (ip + left.size .text + 1 + right.size .text + 1)
        (Asm.plain [.not]) := hl.left.right.toStored.cast (by simp [Nat.add_assoc])
      have hresult : Computes u block (ip + left.size .text + 1 + right.size .text + 2) m c .int
          (Machine.ofBool (Text.equalFold (left.eval m.scope .text c).1
            (right.eval m.scope .text (left.eval m.scope .text c).2).1 == false),
            (right.eval m.scope .text (left.eval m.scope .text c).2).2) := by
        have hnot (b : Bool) : Machine.ofBool (b == false)
          = Machine.ofBool (Machine.ofBool b == 0) := by cases b <;> rfl
        rw [hnot]
        exact ⟨_, var, hcompare.next (.of_execute hnotAt rfl rfl)⟩
      exact (hresult.convert (by decide) (hl.right.toStored.cast (by simp [Nat.add_assoc]))).cast
        (by simp only [size]; simp; omega)
  | concat _ left right separator, ip, want, m, c, hx, hl, hm => by
    simp only [callFree, Bool.and_eq_true] at hx
    simp only [asm, List.append_assoc] at hl
    have hleft := computes left ip .text m c hx.1 hl.left hm
    have hjoinAt := hl.right.left.cast (show _ = ip + left.size .text by rw [total_asm])
    cases separator with
    | none =>
      have hrewindAt := hl.right.right.toStored.cast
        (show _ = ip + left.size .text + 1 + right.size .text by
          simp [Asm.size, Separator.byte?]; omega)
      have hresult := computes_join (k := 1) (g := (· ++ [])) hleft
        (fun m c hm => .of_execute hjoinAt.toStored hm (by rw [List.append_nil]; rfl))
        (fun m c hm => computes right _ .text m c hx.2 hjoinAt.tail hm) hrewindAt
      exact hresult.cast (by simp [size]; omega)
    | space | tab | newline =>
      have hrewindAt := hl.right.right.toStored.cast
        (show _ = ip + left.size .text + 2 + right.size .text by
          simp [Asm.size, Separator.byte?]; omega)
      have hresult := computes_join (k := 2) (g := (· ++ Machine.charOf _)) hleft
        (fun m c hm => .advanceChar hjoinAt.toStored hm c)
        (fun m c hm => computes right _ .text m c hx.2 hjoinAt.tail hm) hrewindAt
      exact hresult.cast (by simp [size]; omega)
  | indexPair _ left right, ip, want, m, c, hx, hl, hm => by
    simp only [callFree, Bool.and_eq_true] at hx
    simp only [asm, List.append_assoc] at hl
    have hleft := computes left ip .text m c hx.1 hl.left hm
    have hadvanceAt : Asm.Stored u l (ip + left.size .text) (Asm.plain [.advanceComma]) :=
      hl.right.left.toStored.cast (by simp)
    have hrightAt := hl.right.right.left.cast
      (show _ = ip + left.size .text + 1 by simp [Nat.add_assoc])
    have hrewindAt := hl.right.right.right.toStored.cast
      (show _ = ip + left.size .text + 1 + right.size .text by simp [Nat.add_assoc])
    have hresult := computes_join (g := (· ++ [0x5F])) hleft
      (fun m c hm => .of_execute hadvanceAt hm rfl)
      (fun m c hm => computes right _ .text m c hx.2 hrightAt hm) hrewindAt
    exact hresult.cast (by simp only [size]; omega)
  | unary _ .neg x, ip, want, m, c, hx, hl, hm => by
    have hoperand := computes x ip .float m c hx hl.left.left hm
    have hresult := computes_unary (r := -(x.eval m.scope .float c).1) (by decide) hl hoperand
      fun m' c' hm' hop => .of_execute hop hm' rfl
    exact hresult.cast (by simp only [size, operandOf, resultOf, Nat.add_assoc])
  | unary _ .complement x, ip, want, m, c, hx, hl, hm => by
    have hoperand := computes x ip .int m c hx hl.left.left hm
    have hresult := computes_unary (r := ~~~ (x.eval m.scope .int c).1) (by decide) hl hoperand
      fun m' c' hm' hop => .of_execute hop hm' rfl
    exact hresult.cast (by simp only [size, operandOf, resultOf, Nat.add_assoc])
  | unary _ .not x, ip, want, m, c, hx, hl, hm => by
    have hoperand := computes x ip x.negatedAs m c hx hl.left.left hm
    have hresult := computes_unary
      (r := Machine.ofBool (x.negatedAs.isZero (x.eval m.scope x.negatedAs c).1)) (by decide) hl
      hoperand fun m' c' hm' hop => .not x.negatedAs_int_or_float _ hop hm' c'
    exact hresult.cast (by simp only [size, operandOf, resultOf, Nat.add_assoc])
  | cond pos test whenTrue whenFalse, ip, want, m, c, hx, hl, hm => by
    simp only [callFree, Bool.and_eq_true] at hx
    simp only [asm] at hl
    obtain ⟨text, var, htest⟩ := computes test ip test.testedAs m c hx.1.1 hl.left.left.left.left hm
    have hjumpAt := hl.left.left.left.right.toStored.cast
      (show _ = ip + test.size test.testedAs by rw [total_asm])
    have hjump := htest.next (.jumpUnless test.testedAs_int_or_float _ hjumpAt rfl _)
    rw [eval, Eval.bind_apply]
    by_cases hzero : test.testedAs.isZero (test.eval m.scope test.testedAs c).1 = true
    · rw [if_pos hzero] at hjump ⊢
      have hfalseAt := hl.right.cast (show _ = ip + test.size test.testedAs + 2
        + whenTrue.size want + 2 by simp [Asm.size, Nat.add_assoc])
      have hfalse := hjump.eval (computes whenFalse _ want _ _ hx.2 hfalseAt rfl)
      exact Computes.cast hfalse (by simp only [size]; omega)
    · rw [if_neg hzero] at hjump ⊢
      have htrueAt := hl.left.left.right.cast
        (show _ = ip + test.size test.testedAs + 2 by simp [Asm.size, Nat.add_assoc])
      have hskipAt := hl.left.right.toStored.cast
        (show _ = ip + test.size test.testedAs + 2 + whenTrue.size want by
          simp [Asm.size, Nat.add_assoc])
      have htrue : Computes u block (ip + test.size test.testedAs + 2 + whenTrue.size want) m c want
          (whenTrue.eval m.scope want (test.eval m.scope test.testedAs c).2) :=
        hjump.eval (computes whenTrue _ want _ _ hx.1.2 htrueAt rfl)
      exact (htrue.jump hskipAt).cast (by simp only [size]; omega)
  | call .., _, _, _, _, hx, _, _ => by cases hx
  | slot .., _, _, _, _, hx, _, _ => by cases hx
  | slotAssign .., _, _, _, _, hx, _, _ => by cases hx
  | slotUpdate .., _, _, _, _, hx, _, _ => by cases hx
  | object _, _, _, _, _, hx, _, _ => by cases hx

end Expr

end ConsoleScript
