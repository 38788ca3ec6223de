import ConsoleScript.Proofs.Console.Stretches

/-!
# Expressions in a stretch of code

The code of every expression is put together from instructions that go on behind themselves and from
jumps forward to its own pieces, so it runs alike wherever it stands. If the expression only reads,
then its code has no side effect and comes to its end. The code of an expression for two different
demands differs in the conversions of the values that it computes, and in the instructions that read
literals, variables and fields.
-/

namespace ConsoleScript

/-! ## Code in pieces -/

/-- Code that is written for its position, put together from instructions that go on behind
themselves and from jumps forward to its own pieces. It has `n` words. If it is quiet then nothing
in it has a side effect. -/
inductive Asm.Woven (quiet : Prop) : (Nat → List Asm) → Nat → Prop
  | nil : Woven quiet (fun _ => []) 0
  | single {i : Asm} (hi : i.Straight) (hquiet : quiet → i.op.hasEffect = false) :
    Woven quiet (fun _ => [i]) i.size
  | append {f g : Nat → List Asm} {n k : Nat} (hf : Woven quiet f n) (hg : Woven quiet g k) :
    Woven quiet (fun ip => f ip ++ g (ip + n)) (n + k)
  /-- A jump over what follows it. -/
  | skip {op : Opcode} (hop : op.isJump = true) {g : Nat → List Asm} {k : Nat}
    (hg : Woven quiet g k) :
    Woven quiet (fun ip => ⟨op, [.target (ip + 2 + k)]⟩ :: g (ip + 2)) (2 + k)
  /-- A jump to one of two pieces, the first of which ends with a jump over the other. -/
  | fork {op : Opcode} (hop : op.isJump = true) {g h : Nat → List Asm} {k j : Nat}
    (hg : Woven quiet g k) (hh : Woven quiet h j) :
    Woven quiet (fun ip => ⟨op, [.target (ip + 2 + k + 2)]⟩ :: g (ip + 2)
      ++ ⟨.jump, [.target (ip + 2 + k + 2 + j)]⟩ :: h (ip + 2 + k + 2)) (2 + k + 2 + j)
  /-- The declaration of an object, which is skipped when the object cannot be made. -/
  | create (hquiet : ¬quiet) (source : Option Text) (flag : UInt32) {g : Nat → List Asm} {k : Nat}
    (hg : Woven quiet g k) :
    Woven quiet (fun ip => ⟨.createObject, [.ident? source, .word flag, .target (ip + 4 + k)]⟩
      :: g (ip + 4)) (4 + k)

namespace Asm.Woven

variable {quiet : Prop} {f g : Nat → List Asm} {n k : Nat}

theorem total (h : Woven quiet f n) (ip : Nat) : Asm.total (f ip) = n := by
  induction h generalizing ip with
  | nil => rfl
  | single => simp
  | append _ _ ihf ihg => rw [total_append, ihf, ihg]
  | skip _ _ ih | create _ _ _ _ ih =>
    rw [total_cons, ih]
    rfl
  | fork _ _ _ ihg ihh =>
    simp only [total_append, total_cons, ihg, ihh, Asm.size, List.length_cons, List.length_nil]
    omega

/-- A fork is a jump, one piece and a jump behind the other piece. -/
theorem fork_holds {op : Opcode} {h : Nat → List Asm} {t t' : Nat} (hg : Woven quiet g k)
    {q : Stretch} {ip : Nat} (hq : q.Holds ip (⟨op, [.target t]⟩ :: g (ip + 2)
      ++ ⟨.jump, [.target t']⟩ :: h (ip + 2 + k + 2))) :
    q.Holds ip (⟨op, [.target t]⟩ :: g (ip + 2)) ∧
      q.Holds (ip + 2 + k) (⟨.jump, [.target t']⟩ :: h (ip + 2 + k + 2)) :=
  ⟨hq.left, hq.right.cast (by rw [total_cons, hg.total]; exact (Nat.add_assoc _ _ _).symm)⟩

/-- The code runs alike wherever it stands. -/
theorem abreast (h : Woven quiet f n) {q q' : Stretch} {fuel : Nat}
    {R : Performance → Performance → Prop} (hR : Parallel R) (hplace : q.place = q'.place)
    {ip ip' : Nat} (hq : q.Holds ip (f ip)) (hq' : q'.Holds ip' (f ip'))
    (hend : AbreastAt q q' fuel R (ip + n) (ip' + n)) : AbreastAt q q' fuel R ip ip' := by
  induction h generalizing ip ip' with
  | nil => exact hend
  | single hi => exact .straight hR hplace hi hq hq' hend
  | append hf hg ihf ihg =>
    refine ihf hq.left hq'.left (ihg ?_ ?_ ?_)
    · exact hq.right.cast (by rw [hf.total])
    · exact hq'.right.cast (by rw [hf.total])
    · rwa [Nat.add_assoc, Nat.add_assoc]
  | skip hop _ ih =>
    rw [← Nat.add_assoc, ← Nat.add_assoc] at hend
    exact .jump hR hop hq hq' (ih hq.tail hq'.tail hend) hend
  | create _ _ _ _ ih =>
    rw [← Nat.add_assoc, ← Nat.add_assoc] at hend
    exact .create hR hplace hq hq' (ih hq.tail hq'.tail hend) hend
  | @fork op hop g h k j hg _ ihg ihh =>
    have hend : AbreastAt q q' fuel R (ip + 2 + k + 2 + j) (ip' + 2 + k + 2 + j) := by
      simpa only [Nat.add_assoc] using hend
    obtain ⟨hfirst, hsecond⟩ := hg.fork_holds hq
    obtain ⟨hfirst', hsecond'⟩ := hg.fork_holds hq'
    have hfalse := ihh hsecond.tail hsecond'.tail hend
    have htrue := AbreastAt.jump hR rfl hsecond hsecond' hfalse hend
    exact .jump hR hop hfirst hfirst' (ihg hfirst.tail hfirst'.tail htrue) hfalse

theorem cast (hf : Woven quiet f n) (e : n = k) : Woven quiet f k := e ▸ hf

theorem congr (hf : Woven quiet f n) (e : ∀ ip, f ip = g ip) : Woven quiet g n := funext e ▸ hf

theorem cons {i : Asm} (hi : i.Straight) (hquiet : quiet → i.op.hasEffect = false)
    (hg : Woven quiet g k) : Woven quiet (fun ip => i :: g (ip + i.size)) (i.size + k) :=
  .append (.single hi hquiet) hg

theorem op (op : Opcode) (hop : op.isPlain = true) (hquiet : quiet → op.hasEffect = false) :
    Woven quiet (fun _ => Asm.plain [op]) 1 :=
  .single (.plain hop) hquiet

theorem plain (ops : List Opcode) (hops : ∀ op ∈ ops, op.isPlain = true)
    (hquiet : quiet → ∀ op ∈ ops, op.hasEffect = false) :
    Woven quiet (fun _ => Asm.plain ops) ops.length := by
  induction ops with
  | nil => exact nil
  | cons op ops ih =>
    obtain ⟨hop, hops⟩ := List.forall_mem_cons.mp hops
    have hrest := ih hops fun h => (List.forall_mem_cons.mp (hquiet h)).2
    exact (cons (.plain hop) (fun h => (List.forall_mem_cons.mp (hquiet h)).1) hrest).cast
      (Nat.add_comm _ _)

theorem convert (source : Demand) (hs : source ≠ .none) (want : Demand) :
    Woven quiet (fun _ => Asm.convert source want) (Demand.convertSize source want) := by
  have hplain : (Demand.convert source want).all Opcode.isPlain = true := by
    cases source <;> cases want <;> rfl
  have hquiet : (Demand.convert source want).all (fun op => !op.hasEffect) = true := by
    cases source <;> cases want <;> rfl
  refine (plain _ (List.all_eq_true.mp hplain) fun _ op hop => ?_).cast ?_
  · exact (Bool.not_eq_true' _).mp (List.all_eq_true.mp hquiet op hop)
  · rw [← Demand.length_convertWords source want hs, Demand.convertWords, Opcode.words,
      List.length_map]

end Asm.Woven

def Expr.reads : Expr → Bool
  | int .. | float .. | str .. | word .. => true
  | var _ _ none => true
  | var _ _ (some i) => i.reads
  | arith _ _ left right | wordArith _ _ left right | compare _ _ left right
  | logic _ _ left right | textEq _ _ left right | concat _ left right _
  | indexPair _ left right => left.reads && right.reads
  | unary _ _ x => x.reads
  | cond _ test whenTrue whenFalse => test.reads && whenTrue.reads && whenFalse.reads
  | slot _ obj _ none => obj.reads
  | slot _ obj _ (some i) => obj.reads && i.reads
  | assign .. | update .. | call .. | slotAssign .. | slotUpdate .. | object _ => false

namespace Expr

open Asm (Woven)

variable {quiet : Prop}

theorem woven_literal (want : Demand) (int : Int64) (float : Float) {text : Asm}
    (htext : text.Straight) (hquiet : text.op.hasEffect = false) (hsize : text.size = 2) :
    Woven quiet (fun _ => literalAsm want int float text) (if want = .none then 0 else 2) := by
  cases want with
  | none => exact .nil
  | int => exact .single (.word (.inl rfl) _) fun _ => rfl
  | float => exact .single (.float float) fun _ => rfl
  | text => exact (Woven.single htext fun _ => hquiet).cast hsize

theorem woven_element (name : Text) {f : Nat → List Asm} {n : Nat} (hf : Woven quiet f n) :
    Woven quiet (fun ip => elementAsm name (f (ip + 3))) (n + 4) :=
  ((Woven.cons (.text name (.inr rfl) (.inr rfl)) (fun _ => rfl)
    (.cons (.plain rfl) (fun _ => rfl) hf)).append (.op .rewind rfl fun _ => rfl)).cast
    (by simp only [Asm.size, List.length_cons, List.length_nil]; omega)

theorem woven_select (set : Opcode) (hset : set.isPlain = true) (hquiet : set.hasEffect = false)
    (field : Text) : Woven quiet (fun _ => selectAsm set field) 3 :=
  .cons (.plain hset) (fun _ => hquiet) (.single (.ident (.inr (.inr rfl)) field) fun _ => rfl)

theorem woven_indexed {f g : Nat → List Asm} {n k : Nat} (hf : Woven quiet f n)
    (hg : Woven quiet g k) (field : Text) :
    Woven quiet (fun ip => f ip ++ Asm.plain [.advance] ++ g (ip + n + 1)
      ++ selectAsm .setObject field ++ Asm.plain [.terminateRewind, .setFieldArray])
      (n + 1 + k + 3 + 2) :=
  (((hf.append (.op .advance rfl fun _ => rfl)).append hg).append
    (woven_select _ rfl rfl field)).append
    (.plain [.terminateRewind, .setFieldArray] (by decide) fun _ => by decide)

theorem woven_loadVar (want : Demand) : Woven quiet (fun _ => Asm.plain [want.loadVar]) 1 :=
  .op _ (by cases want <;> rfl) fun _ => by cases want <;> rfl

theorem woven_loadField (want : Demand) : Woven quiet (fun _ => Asm.plain [want.loadField]) 1 :=
  .op _ (by cases want <;> rfl) fun _ => by cases want <;> rfl

theorem woven_saveVar (hloud : ¬quiet) (want : Demand) :
    Woven quiet (fun _ => Asm.plain [want.saveVar]) 1 :=
  .op _ (by cases want <;> rfl) fun h => absurd h hloud

theorem woven_setVarCreate (hloud : ¬quiet) (name : Text) :
    Woven quiet (fun _ => [⟨.setVarCreate, [.ident name]⟩]) 2 :=
  .single (.ident (.inr (.inl rfl)) name) fun h => absurd h hloud

/-- The operation of a compound assignment, between reading and writing. -/
theorem woven_operation (hloud : ¬quiet) (op : UpdateOp) {load save : Opcode}
    (hload : load.isPlain = true) (hsave : save.isPlain = true) :
    Woven quiet (fun _ => Asm.plain [load, op.opcode, save]) 3 := by
  refine .plain _ ?_ fun h => absurd h hloud
  have hop : op.opcode.isPlain = true := by
    rcases op with op | op <;> cases op <;> rfl
  simpa using ⟨hload, hop, hsave⟩

mutual

/-- The code of an expression is put together so, and it is quiet if the expression only reads. -/
theorem woven : ∀ (x : Expr) (want : Demand), (quiet → x.reads = true) →
    Woven quiet (fun ip => x.asm ip want) (x.size want)
  | int _ v, want, _ => woven_literal want _ _ (.text _ (.inl rfl) (.inl rfl)) rfl rfl
  | float _ v, want, _ => woven_literal want _ _ (.text _ (.inl rfl) (.inl rfl)) rfl rfl
  | str _ v _, want, _ => woven_literal want _ _ (.text _ (.inl rfl) (.inl rfl)) rfl rfl
  | word _ v, want, _ => woven_literal want _ _ (.text _ (.inr rfl) (.inl rfl)) rfl rfl
  | var _ name none, want, _ => by
    by_cases hw : want = .none
    · simpa only [asm, size, hw, if_true] using .nil
    · simp only [asm, size, hw, if_false]
      exact .cons (.ident (.inl rfl) name) (fun _ => rfl) (woven_loadVar want)
  | var _ name (some i), want, hx => by
    by_cases hw : want = .none
    · simpa only [asm, size, hw, if_true] using .nil
    · simp only [asm, size, hw, if_false]
      exact ((woven_element name (woven i .text hx)).append (.op _ rfl fun _ => rfl)).append
        (woven_loadVar want)
  | assign _ name none value, want, hx => by
    have hloud : ¬quiet := fun h => by cases hx h
    exact (((woven value value.storedAs (absurd · hloud)).append
      (woven_setVarCreate hloud name)).append (woven_saveVar hloud _)).append
      (.convert _ value.storedAs_ne_none want)
  | assign _ name (some i) value, want, hx => by
    have hloud : ¬quiet := fun h => by cases hx h
    have hvalue := woven value value.storedAs (absurd · hloud)
    have helement := woven_element name (woven i .text (absurd · hloud))
    have hsave := woven_saveVar hloud value.storedAs
    have hconvert : Woven quiet _ _ := .convert _ value.storedAs_ne_none want
    by_cases htext : value.storedAs = .text
    · have hparked := (Woven.cons (i := ⟨.advance, []⟩) (.plain rfl) (fun _ => rfl) helement).append
        (.plain [.setVarArrayCreate, .terminateRewind] (by decide) (absurd · hloud))
      refine ((((hvalue.append hparked).append hsave).append hconvert).congr fun ip => ?_).cast ?_
      · simp only [asm, if_pos htext]
        rfl
      · simp only [size, if_pos htext, Asm.size, List.length_cons, List.length_nil]
        omega
    · have hcreate := helement.append (.op .setVarArrayCreate rfl (absurd · hloud))
      refine ((((hvalue.append hcreate).append hsave).append hconvert).congr fun ip => ?_).cast ?_
      · simp only [asm, if_neg htext]
      · simp only [size, if_neg htext]
        omega
  | update _ name none op value, want, hx => by
    have hloud : ¬quiet := fun h => by cases hx h
    exact (((woven value op.operands (absurd · hloud)).append
      (woven_setVarCreate hloud name)).append
      (woven_operation hloud op (by cases op <;> rfl) (by cases op <;> rfl))).append
      (.convert _ op.operands_ne_none want)
  | update _ name (some i) op value, want, hx => by
    have hloud : ¬quiet := fun h => by cases hx h
    have helement := (woven_element name (woven i .text (absurd · hloud))).append
      (.op .setVarArrayCreate rfl (absurd · hloud))
    refine ((((woven value op.operands (absurd · hloud)).append helement).append
      (woven_operation hloud op (by cases op <;> rfl) (by cases op <;> rfl))).append
      (.convert _ op.operands_ne_none want)).cast ?_
    simp only [size]
    omega
  | arith _ op left right, want, hx => by
    simp only [reads, Bool.and_eq_true] at hx
    refine ((((woven right .float fun h => (hx h).2).append
      (woven left .float fun h => (hx h).1)).append (.op _ (by cases op <;> rfl)
      fun _ => by cases op <;> rfl)).append (.convert .float (by decide) want)).cast ?_
    simp only [size]
    omega
  | wordArith _ op left right, want, hx => by
    simp only [reads, Bool.and_eq_true] at hx
    refine ((((woven right .int fun h => (hx h).2).append
      (woven left .int fun h => (hx h).1)).append (.op _ (by cases op <;> rfl)
      fun _ => by cases op <;> rfl)).append (.convert .int (by decide) want)).cast ?_
    simp only [size]
    omega
  | compare _ op left right, want, hx => by
    simp only [reads, Bool.and_eq_true] at hx
    refine ((((woven right .float fun h => (hx h).2).append
      (woven left .float fun h => (hx h).1)).append (.op _ (by cases op <;> rfl)
      fun _ => by cases op <;> rfl)).append (.convert .int (by decide) want)).cast ?_
    simp only [size]
    omega
  | logic _ op left right, want, hx => by
    simp only [reads, Bool.and_eq_true] at hx
    have hjump : (if op = .or then Opcode.jumpIfKeep else .jumpUnlessKeep).isJump = true := by
      cases op <;> rfl
    refine ((((woven left .int fun h => (hx h).1).append
      (.skip hjump (woven right .int fun h => (hx h).2))).append
      (.convert .int (by decide) want)).congr fun ip => ?_).cast ?_
    · simp only [asm, List.append_assoc, List.cons_append, List.nil_append]
    · simp only [size]
      omega
  | textEq _ equal left right, want, hx => by
    simp only [reads, Bool.and_eq_true] at hx
    have hboth := (((woven left .text fun h => (hx h).1).append
      (.op .advanceNul rfl fun _ => rfl)).append (woven right .text fun h => (hx h).2)).append
      (.op .compareText rfl fun _ => rfl)
    cases equal with
    | true => exact (hboth.append .nil).append (.convert .int (by decide) want)
    | false =>
      exact (hboth.append (.op .not rfl fun _ => rfl)).append (.convert .int (by decide) want)
  | concat pos left right separator, want, hx => by
    simp only [reads, Bool.and_eq_true] at hx
    have hleft := woven left .text fun h => (hx h).1
    have hright := woven right .text fun h => (hx h).2
    have hrewind : Woven quiet _ _ := .op .rewind rfl fun _ => rfl
    have hend := hrewind.append (.convert .text (by decide) want)
    have hjoin (b : UInt8) (hb : separator.byte? = some b) (hsep : separator ≠ .none) :
        Woven quiet (fun ip => (concat pos left right separator).asm ip want)
          ((concat pos left right separator).size want) := by
      have hright := Woven.cons (i := ⟨.advanceChar, [.word b.toUInt32]⟩)
        (.word (.inr (.inl rfl)) _) (fun _ => rfl) hright
      refine (((hleft.append hright).append hend).congr fun ip => ?_).cast ?_
      · simp only [asm, hb, Asm.size, List.length_cons, List.length_nil, List.append_assoc,
          List.cons_append, Nat.reduceAdd]
      · simp only [size, Asm.size, if_neg hsep, List.length_cons, List.length_nil]
        omega
    cases separator with
    | none =>
      have hright := Woven.cons (i := ⟨.advance, []⟩) (.plain rfl) (fun _ => rfl) hright
      refine (((hleft.append hright).append hend).congr fun ip => ?_).cast ?_
      · simp only [asm, Separator.byte?, Asm.size, List.length_nil, List.append_assoc,
          List.cons_append, Nat.zero_add]
      · simp only [size, Asm.size, if_true, List.length_nil]
        omega
    | space => exact hjoin _ rfl (by decide)
    | tab => exact hjoin _ rfl (by decide)
    | newline => exact hjoin _ rfl (by decide)
  | indexPair _ left right, want, hx => by
    simp only [reads, Bool.and_eq_true] at hx
    exact ((((woven left .text fun h => (hx h).1).append
      (.op .advanceComma rfl fun _ => rfl)).append (woven right .text fun h => (hx h).2)).append
      (.op .rewind rfl fun _ => rfl)).append (.convert .text (by decide) want)
  | unary _ .neg x, want, hx =>
    ((woven x .float hx).append (.op .neg rfl fun _ => rfl)).append
      (.convert .float (by decide) want)
  | unary _ .complement x, want, hx =>
    ((woven x .int hx).append (.op .complement rfl fun _ => rfl)).append
      (.convert .int (by decide) want)
  | unary _ .not x, want, hx => by
    have hnot : Woven quiet
        (fun _ => Asm.plain [if x.negatedAs = .int then .not else .notFloat]) 1 := by
      split <;> exact .op _ rfl fun _ => rfl
    exact ((woven x x.negatedAs hx).append hnot).append (.convert .int (by decide) want)
  | cond _ test whenTrue whenFalse, want, hx => by
    simp only [reads, Bool.and_eq_true] at hx
    have hjump : test.testedAs.jumpUnless.isJump = true := by
      cases test.testedAs <;> rfl
    refine (((woven test test.testedAs fun h => (hx h).1.1).append (.fork hjump
      (woven whenTrue want fun h => (hx h).1.2)
      (woven whenFalse want fun h => (hx h).2))).congr fun ip => ?_).cast ?_
    · simp only [asm, List.append_assoc, List.cons_append, List.nil_append]
    · simp only [size]
      omega
  | call _ name ns kind args, want, hx => by
    have hloud : ¬quiet := fun h => by cases hx h
    refine (((Woven.cons (i := ⟨.pushFrame, []⟩) (.plain rfl) (fun _ => rfl)
      (woven_args hloud args)).append (.single (.call name ns kind.word) (absurd · hloud))).append
      (.convert .text (by decide) want)).cast ?_
    simp only [size, Asm.size, List.length_cons, List.length_nil]
    omega
  | slot _ obj field none, want, hx => by
    by_cases hw : want = .none
    · simpa only [asm, size, hw, if_true] using .nil
    · simp only [asm, size, hw, if_false]
      exact (((woven obj .text hx).append (woven_select _ rfl rfl field)).append
        (woven_loadField want)).cast (by omega)
  | slot _ obj field (some i), want, hx => by
    simp only [reads, Bool.and_eq_true] at hx
    by_cases hw : want = .none
    · simpa only [asm, size, hw, if_true] using .nil
    · simp only [asm, size, hw, if_false]
      refine (((woven_indexed (woven i .text fun h => (hx h).2) (woven obj .text fun h => (hx h).1)
        field).append (woven_loadField want)).congr fun ip => ?_).cast ?_
      · simp only [Asm.plain, List.map_cons, List.map_nil, List.append_assoc, List.cons_append,
          List.nil_append]
      · omega
  | slotAssign _ obj field index value, want, hx => by
    have hloud : ¬quiet := fun h => by cases hx h
    have hvalue := (woven value .text (absurd · hloud)).append (.op .advance rfl fun _ => rfl)
    have hstore : Woven quiet _ _ :=
      .plain [.terminateRewind, .saveFieldText] (by decide) (absurd · hloud)
    have hsave := hstore.append (.convert .text (by decide) want)
    have hobj := woven obj .text (absurd · hloud)
    cases index with
    | none =>
      refine (((hvalue.append (hobj.append (woven_select .setObject rfl rfl field))).append
        hsave).congr fun ip => ?_).cast ?_
      · simp only [asm, List.append_assoc, Nat.add_assoc]
      · simp only [size, List.length_cons, List.length_nil]
        omega
    | some i =>
      refine (((hvalue.append (woven_indexed (woven i .text (absurd · hloud)) hobj field)).append
        hsave).congr fun ip => ?_).cast ?_
      · simp only [asm, List.append_assoc, Nat.add_assoc]
      · simp only [size, List.length_cons, List.length_nil]
        omega
  | slotUpdate _ obj field index op value, want, hx => by
    have hloud : ¬quiet := fun h => by cases hx h
    have hvalue := woven value op.operands (absurd · hloud)
    have hoperation : Woven quiet
        (fun _ => Asm.plain [op.operands.loadField, op.opcode, op.operands.saveField]) 3 :=
      woven_operation hloud op (by cases op <;> rfl) (by cases op <;> rfl)
    have hsave := hoperation.append (.convert _ op.operands_ne_none want)
    have hobj := woven obj .text (absurd · hloud)
    cases index with
    | none =>
      refine (((hvalue.append (hobj.append (woven_select .setObject rfl rfl field))).append
        hsave).congr fun ip => ?_).cast ?_
      · simp only [asm, List.append_assoc]
      · simp only [size]
        omega
    | some i =>
      refine (((hvalue.append (woven_indexed (woven i .text (absurd · hloud)) hobj field)).append
        hsave).congr fun ip => ?_).cast ?_
      · simp only [asm, List.append_assoc]
      · simp only [size]
        omega
  | object decl, want, hx => by
    have hloud : ¬quiet := fun h => by cases hx h
    refine (((Woven.cons (i := ⟨.loadInt, [.word 0]⟩) (.word (.inl rfl) 0) (fun _ => rfl)
      (woven_object hloud decl true)).append (.op .finishObject rfl fun _ => rfl)).append
      (.convert .int (by decide) want)).cast ?_
    simp only [size, Asm.size, List.length_cons, List.length_nil]

theorem woven_args (hloud : ¬quiet) : ∀ args : List Expr,
    Woven quiet (fun ip => asmArgs args ip) (argsSize args)
  | [] => .nil
  | a :: as => ((woven a .text (absurd · hloud)).append (.op .push rfl fun _ => rfl)).append
      (woven_args hloud as)

theorem woven_field (hloud : ¬quiet) : ∀ f : FieldInit,
    Woven quiet (fun ip => asmField f ip) (fieldSize f)
  | .mk _ field index value => by
    have hvalue := (woven value .text (absurd · hloud)).append (.op .advance rfl fun _ => rfl)
    have hselect : Woven quiet _ _ := woven_select .setObjectNew rfl rfl field
    have hsave : Woven quiet _ _ :=
      .plain [.terminateRewind, .saveFieldText, .textToNone] (by decide) (absurd · hloud)
    cases index with
    | none =>
      refine ((hvalue.append hselect).append hsave).cast ?_
      simp only [fieldSize, List.length_cons, List.length_nil]
      omega
    | some i =>
      have hindex := (((woven i .text (absurd · hloud)).append
        (.op .advance rfl fun _ => rfl)).append hselect).append
        (.plain [.terminateRewind, .setFieldArray] (by decide) fun _ => by decide)
      refine ((hvalue.append hindex).append hsave).cast ?_
      simp only [fieldSize, List.length_cons, List.length_nil]
      omega

theorem woven_fields (hloud : ¬quiet) : ∀ fs : List FieldInit,
    Woven quiet (fun ip => asmFields fs ip) (fieldsSize fs)
  | [] => .nil
  | f :: fs => (woven_field hloud f).append (woven_fields hloud fs)

theorem woven_object (hloud : ¬quiet) : ∀ (d : ObjectDecl) (root : Bool),
    Woven quiet (fun ip => asmObject d ip root) (objectSize d)
  | .mk pos className objectName copyFrom args datablock fields children, root => by
    have hargs := (((Woven.cons (i := ⟨.pushFrame, []⟩) (.plain rfl) (fun _ => rfl)
      (woven className .text (absurd · hloud))).append (.op .push rfl fun _ => rfl)).append
      ((woven objectName .text (absurd · hloud)).append (.op .push rfl fun _ => rfl))).append
      (woven_args hloud args)
    have hbody := ((woven_fields hloud fields).append
      (.single (.word (.inr (.inr (.inl rfl))) (flagWord root)) (absurd · hloud))).append
      ((woven_children hloud children).append
        (.single (.word (.inr (.inr (.inr rfl))) (flagWord root)) fun _ => rfl))
    refine ((hargs.append (.create hloud copyFrom (flagWord datablock) hbody)).congr
      fun ip => ?_).cast ?_
    · simp only [asmObject, objectSize, Asm.size, ← Nat.add_assoc, List.append_assoc,
        List.cons_append, List.nil_append, List.length_cons, List.length_nil, Nat.reduceAdd,
        Nat.zero_add]
    · simp only [objectSize, Asm.size, List.length_cons, List.length_nil]
      omega

theorem woven_children (hloud : ¬quiet) : ∀ cs : List ObjectDecl,
    Woven quiet (fun ip => asmChildren cs ip) (childrenSize cs)
  | [] => .nil
  | c :: cs => (woven_object hloud c false).append (woven_children hloud cs)

end

end Expr

/-! ## Code for two demands -/

/-- By jumps alone the machine gets from one position to another. -/
def Stretch.Leads (q : Stretch) (fuel j k : Nat) : Prop :=
  ∀ (m : Machine) (c : Console), Glides q fuel (m.goto (ipWord j), c) (m.goto (ipWord k), c)

namespace Stretch.Leads

variable {q : Stretch} {fuel ip t k : Nat} {is : List Asm}

theorem refl (q : Stretch) (fuel k : Nat) : q.Leads fuel k k := fun _ _ => .refl _

theorem jump (h : q.Holds ip (⟨.jump, [.target t]⟩ :: is)) (ht : q.Leads fuel t k) :
    q.Leads fuel ip k :=
  fun m c => (Glides.jump fuel h rfl m c).trans (ht m c)

end Stretch.Leads

namespace Expr

/-- The kind of value that the code of an expression computes before it is converted. The code of
literals, variables, fields and conditionals is written for the kind that is wanted. -/
def madeAs : Expr → Demand
  | int .. | float .. | str .. | word .. | var .. | slot .. | cond .. => .none
  | assign _ _ _ value => value.storedAs
  | update _ _ _ op _ | slotUpdate _ _ _ _ op _ => op.operands
  | unary _ op _ => resultOf op
  | arith .. => .float
  | wordArith .. | compare .. | logic .. | textEq .. | object _ => .int
  | concat .. | indexPair .. | call .. | slotAssign .. => .text

theorem asm_eq_convert {x : Expr} (hx : x.madeAs ≠ .none) (ip : Nat) (want : Demand) :
    x.asm ip want = x.asm ip x.madeAs ++ Asm.convert x.madeAs want := by
  have hself (kind : Demand) : Asm.convert kind kind = [] := by cases kind <;> rfl
  cases x
  case int | float | str | word | var | slot | cond => exact absurd rfl hx
  case assign index _ | update index _ _ | slotAssign index _ | slotUpdate index _ _ =>
    cases index <;> simp only [madeAs, asm, hself, List.append_nil]
  all_goals simp only [madeAs, asm, hself, List.append_nil]

section fits

variable (q q' : Stretch) (fuel : Nat) (R : Performance → Performance → Prop) (want want' : Demand)
  (k k' : Nat)

/-- The code of the expression for two demands has related runs, where the ends of both lead to
certain positions. -/
def Fits (x : Expr) : Prop :=
  ∀ ip ip' : Nat, q.Holds ip (x.asm ip want) → q'.Holds ip' (x.asm ip' want') →
    q.Leads fuel (ip + x.size want) k → q'.Leads fuel (ip' + x.size want') k' →
    AbreastAt q q' fuel R ip ip'

variable {q q' fuel R want want' k k'}

theorem cond_holds {q : Stretch} {pos : Position} {test whenTrue whenFalse : Expr} {ip : Nat}
    {want : Demand} (h : q.Holds ip ((cond pos test whenTrue whenFalse).asm ip want)) :
    ∃ atJump onTrue atSkip onFalse : Nat, ip + test.size test.testedAs = atJump ∧
      atJump + 2 = onTrue ∧ onTrue + whenTrue.size want = atSkip ∧ atSkip + 2 = onFalse ∧
      ip + (cond pos test whenTrue whenFalse).size want = onFalse + whenFalse.size want ∧
      q.Holds ip (test.asm ip test.testedAs) ∧
      q.Holds atJump [⟨test.testedAs.jumpUnless, [.target onFalse]⟩] ∧
      q.Holds onTrue (whenTrue.asm onTrue want) ∧
      q.Holds atSkip [⟨.jump, [.target (onFalse + whenFalse.size want)]⟩] ∧
      q.Holds onFalse (whenFalse.asm onFalse want) := by
  obtain ⟨h, hfalse⟩ := h.append
  obtain ⟨h, hskip⟩ := h.append
  obtain ⟨h, htrue⟩ := h.append
  obtain ⟨htest, hjump⟩ := h.append
  refine ⟨_, _, _, _, rfl, rfl, rfl, rfl, ?_, htest, hjump.cast ?_, htrue.cast ?_, hskip.cast ?_,
    hfalse.cast ?_⟩
  · simp only [size]
    omega
  all_goals simp [Asm.size, Nat.add_assoc]

theorem Fits.cond (hR : Parallel R) (hplace : q.place = q'.place) {pos : Position}
    {test whenTrue whenFalse : Expr} (htrue : whenTrue.Fits q q' fuel R want want' k k')
    (hfalse : whenFalse.Fits q q' fuel R want want' k k') :
    (Expr.cond pos test whenTrue whenFalse).Fits q q' fuel R want want' k k' := by
  intro ip ip' hq hq' hend hend'
  obtain ⟨atJump, onTrue, atSkip, onFalse, hatJump, rfl, hatSkip, rfl, hsize, htest, hjump,
    hwhenTrue, hskip, hwhenFalse⟩ := cond_holds hq
  obtain ⟨atJump', onTrue', atSkip', onFalse', hatJump', rfl, hatSkip', rfl, hsize', htest', hjump',
    hwhenTrue', hskip', hwhenFalse'⟩ := cond_holds hq'
  rw [hsize] at hend
  rw [hsize'] at hend'
  have hfalse := hfalse _ _ hwhenFalse hwhenFalse' hend hend'
  have htrue := htrue _ _ hwhenTrue hwhenTrue' (hatSkip ▸ .jump hskip hend)
    (hatSkip' ▸ .jump hskip' hend')
  have hop : test.testedAs.jumpUnless.isJump = true := by
    cases test.testedAs <;> rfl
  have hrest := AbreastAt.jump hR hop hjump hjump' htrue hfalse
  rw [← hatJump, ← hatJump'] at hrest
  exact (woven test test.testedAs False.elim).abreast hR hplace htest htest' hrest

theorem Fits.converted (hR : Parallel R) (hplace : q.place = q'.place) {x : Expr}
    (hx : x.madeAs ≠ .none)
    (h : ∀ ip ip' : Nat, q.Holds ip (Asm.convert x.madeAs want) →
      q'.Holds ip' (Asm.convert x.madeAs want') →
      q.Leads fuel (ip + Demand.convertSize x.madeAs want) k →
      q'.Leads fuel (ip' + Demand.convertSize x.madeAs want') k' → AbreastAt q q' fuel R ip ip') :
    x.Fits q q' fuel R want want' k k' := by
  intro ip ip' hq hq' hend hend'
  have hsize (want : Demand) :
      x.size want = x.size x.madeAs + Demand.convertSize x.madeAs want := by
    have hconvert : Asm.Woven False _ _ := .convert _ hx want
    have htotal := congrArg Asm.total (asm_eq_convert hx 0 want)
    rwa [Asm.total_append, total_asm, total_asm, hconvert.total 0] at htotal
  rw [hsize, ← Nat.add_assoc] at hend hend'
  rw [asm_eq_convert hx] at hq hq'
  have hrest := h _ _ hq.right hq'.right
  rw [total_asm, total_asm] at hrest
  exact (woven x x.madeAs False.elim).abreast hR hplace hq.left hq'.left (hrest hend hend')

end fits

end Expr

end ConsoleScript
