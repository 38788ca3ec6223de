import ConsoleScript.Proofs.Console.Weaving
import ConsoleScript.Proofs.Number.Rounding

/-!
# Tests of a negation

A condition is tested as an integer if its code computes one, and as a number otherwise. The operand
of `!` is tested as a number only if its code computes a number or a text. The two agree but for
variables and fields: their numbers are tested by a condition, and their integers by `!`.
-/

namespace ConsoleScript

/-! ## Numbers that are zero -/

namespace Number

theorem beq_zero_iff (f : Float) : (f == 0.0) = true ↔ ∃ q, magnitude f = .finite 0 q := by
  have hbeq : (f == 0.0) = f.toModel.unpack.beq (0.0 : Float).toModel.unpack := rfl
  have hmagnitude : magnitude 0.0 = .finite 0 (-1074) := by decide
  rw [hbeq, unpack_toModel, unpack_toModel, hmagnitude]
  rcases magnitude f with ⟨_ | m, q⟩ | _ | _
  · simp [finite, Float.Model.UnpackedFloat.beq, Float.Model.UnpackedFloat.compare]
  · cases signOf f <;>
      simp [finite, Float.Model.UnpackedFloat.beq, Float.Model.UnpackedFloat.compare]
  · cases signOf f <;>
      simp [finite, Float.Model.UnpackedFloat.beq, Float.Model.UnpackedFloat.compare]
  · simp [Float.Model.UnpackedFloat.beq, Float.Model.UnpackedFloat.compare]

theorem toInt64_of_beq_zero {f : Float} (h : (f == 0.0) = true) : toInt64 f = 0 := by
  obtain ⟨q, hq⟩ := (beq_zero_iff f).mp h
  have hwhole : wholePart 0 q = 0 := by simp [wholePart]
  simp only [toInt64, hq, hwhole]
  cases isNegative f <;> rfl

theorem eq_zero_of_ofInt64 {i : Int64} (h : (ofInt64 i == 0.0) = true) : i = 0 := by
  obtain ⟨q, hq⟩ := (beq_zero_iff _).mp h
  by_contra hi
  have hnat : i.toInt.natAbs ≠ 0 := by
    rw [Int.natAbs_ne_zero]
    exact fun h => hi (Int64.toInt_inj.mp h)
  have hmagnitude : magnitude (UInt64.ofNat i.toInt.natAbs).toFloat = .finite 0 q := by
    unfold ofInt64 at hq
    split at hq
    · rwa [magnitude_neg] at hq
    · exact hq
  have hlt : i.toInt.natAbs < UInt64.size := by
    have h₁ := i.toInt_lt
    have h₂ := i.le_toInt
    have : UInt64.size = 18446744073709551616 := rfl
    omega
  have hvalue : (UInt64.ofNat i.toInt.natAbs).toNat = i.toInt.natAbs := by
    rw [UInt64.toNat_ofNat', Nat.mod_eq_of_lt hlt]
  have hpos : 0 < (UInt64.ofNat i.toInt.natAbs).toNat := by omega
  exact (roundsTo_toFloat hpos).magnitude_ne_zero (by exact_mod_cast hpos) q hmagnitude

end Number

theorem Value.toInt_of_toFloat_zero {v : Value} (h : (v.toFloat == 0.0) = true) : v.toInt = 0 := by
  cases v with
  | text t => exact Number.toInt64_of_beq_zero h
  | int i => exact Number.eq_zero_of_ofInt64 h
  | float f => exact Number.toInt64_of_beq_zero h

/-! ## Tests -/

namespace Machine

/-- What a test finds on the stack of a kind: is it passed, and the machine without the number. -/
def verdict (kind : Demand) (m : Machine) : Bool × Machine :=
  match kind with
  | .int => (m.popInt.1 != 0, m.popInt.2)
  | _ => (m.popFloat.1 != 0.0, m.popFloat.2)

theorem takes_jumpUnless (kind : Demand) (m : Machine) :
    m.takes kind.jumpUnless = !(m.verdict kind).1 := by
  cases kind <;> exact (Bool.not_not _).symm

theorem takes_jumpIf (kind : Demand) (m : Machine) : m.takes kind.jumpIf = (m.verdict kind).1 := by
  cases kind <;> rfl

theorem jumped_jumpUnless (kind : Demand) (m : Machine) :
    m.jumped kind.jumpUnless = (m.verdict kind).2 := by
  cases kind <;> rfl

theorem jumped_jumpIf (kind : Demand) (m : Machine) :
    m.jumped kind.jumpIf = (m.verdict kind).2 := by
  cases kind <;> rfl

theorem verdict_pushInt (m : Machine) (b : Bool) :
    (m.pushInt (ofBool b)).verdict .int = (b, m) := by
  cases b <;> rfl

end Machine

namespace Expr

/-- The places where code tests an expression: where the test starts, and where the machine goes on
when it is passed and when it is failed. -/
inductive Tested (u : CodeUnit) (l : Literals) (x : Expr) : Nat → Nat → Nat → Prop
  | branch {pos : Position} {whenTrue : List Stmt} {targets : Option LoopTargets} {ip : Nat}
    (h : Asm.Loaded u l ip ((Stmt.branch pos x whenTrue none).asm ip targets)) :
    Tested u l x ip (ip + x.size x.testedAs + 2)
      (ip + x.size x.testedAs + 2 + Stmt.blockSize whenTrue targets.isSome)
  | branchElse {pos : Position} {whenTrue whenFalse : List Stmt} {targets : Option LoopTargets}
    {ip : Nat}
    (h : Asm.Loaded u l ip ((Stmt.branch pos x whenTrue (some whenFalse)).asm ip targets)) :
    Tested u l x ip (ip + x.size x.testedAs + 2)
      (ip + x.size x.testedAs + 2 + Stmt.blockSize whenTrue targets.isSome + 2)
  | first {pos : Position} {start next : Option Expr} {body : List Stmt}
    {targets : Option LoopTargets} {ip : Nat}
    (h : Asm.Loaded u l ip ((Stmt.loop pos start x next body false).asm ip targets)) :
    Tested u l x (ip + sizeOpt start .none) (ip + sizeOpt start .none + x.size x.testedAs + 2)
      (ip + (Stmt.loop pos start x next body false).size targets.isSome)
  | again {pos : Position} {start next : Option Expr} {body : List Stmt} {testLast : Bool}
    {targets : Option LoopTargets} {ip atBody : Nat}
    (h : Asm.Loaded u l ip ((Stmt.loop pos start x next body testLast).asm ip targets))
    (hbody : (if testLast then ip + sizeOpt start .none
      else ip + sizeOpt start .none + x.size x.testedAs + 2) = atBody) :
    Tested u l x (atBody + Stmt.blockSize body true + sizeOpt next .none) atBody
      (ip + (Stmt.loop pos start x next body testLast).size targets.isSome)
  | cond {pos : Position} {whenTrue whenFalse : Expr} {want : Demand} {ip : Nat}
    (h : Asm.Loaded u l ip ((Expr.cond pos x whenTrue whenFalse).asm ip want)) :
    Tested u l x ip (ip + x.size x.testedAs + 2)
      (ip + x.size x.testedAs + 2 + whenTrue.size want + 2)

namespace Tested

variable {u : CodeUnit} {l : Literals} {x : Expr} {ip pass fail : Nat}

theorem code (h : x.Tested u l ip pass fail) :
    (pass = ip + x.size x.testedAs + 2 ∧ Asm.Loaded u l ip
      (x.asm ip x.testedAs ++ [⟨x.testedAs.jumpUnless, [.target fail]⟩])) ∨
    (fail = ip + x.size x.testedAs + 2 ∧ Asm.Loaded u l ip
      (x.asm ip x.testedAs ++ [⟨x.testedAs.jumpIf, [.target pass]⟩])) := by
  cases h with
  | branch h => exact .inl ⟨rfl, h.left⟩
  | branchElse h => exact .inl ⟨rfl, h.left.left.left⟩
  | cond h => exact .inl ⟨rfl, h.left.left.left⟩
  | first h =>
    obtain ⟨atTest, atBody, atNext, again, stop, hloop, hstop⟩ := Stmt.asm_loop Asm.Loaded.append h
    obtain ⟨rfl, -, -, -, -, -, hfirst, -, -, -⟩ := hloop
    rw [hstop]
    exact .inl ⟨rfl, hfirst rfl⟩
  | again h hbody =>
    obtain ⟨atTest, atBody, atNext, again, stop, hloop, hstop⟩ := Stmt.asm_loop Asm.Loaded.append h
    obtain ⟨rfl, hatBody, rfl, rfl, hend, -, -, -, -, hagain⟩ := hloop
    rw [hstop]
    obtain rfl := hatBody.symm.trans hbody
    exact .inr ⟨hend.symm, hagain⟩

end Tested

end Expr

/-- A test in a unit: the code of the tested expression, which is left at the jump, where it starts,
and where the machine goes on when the test is passed and when it is failed. -/
structure Test extends Stretch where
  start : Nat
  pass : Nat
  fail : Nat

/-- The test is one of the expression. -/
structure Test.Of (t : Test) (x : Expr) : Prop where
  tested : x.Tested t.unit t.literals t.start t.pass t.fail
  place : ∀ k, t.start ≤ k → k < t.stop → t.unit.place (ipWord k) = t.place
  stop : t.start + x.size x.testedAs = t.stop

namespace Test.Of

variable {t : Test} {x : Expr}

theorem spans (h : t.Of x) : t.Spans t.start (x.asm t.start x.testedAs) where
  loaded := h.tested.code.elim (·.2.left) (·.2.left)
  place := h.place
  stop := by rw [Expr.total_asm, h.stop]

theorem next (h : t.Of x) (m : Machine) (c : Console) :
    Activation.Next t.unit t.block (m.goto (ipWord t.stop), c) ((m.verdict x.testedAs).2.goto
      (ipWord (if (m.verdict x.testedAs).1 then t.pass else t.fail)), c) := by
  have hjump {op : Opcode} (hop : op.isJump = true) {target : Nat}
      (hl : Asm.Loaded t.unit t.literals t.start
        (x.asm t.start x.testedAs ++ [⟨op, [.target target]⟩])) :
      Activation.Next t.unit t.block (m.goto (ipWord t.stop), c)
        ((m.jumped op).goto (ipWord (if m.takes op then target else t.stop + 2)), c) :=
    (hl.right.toStored.cast (by rw [Expr.total_asm, h.stop])).next_jump hop t.block m c
  rcases h.tested.code with ⟨hpass, hl⟩ | ⟨hfail, hl⟩
  · have hnext := hjump (by cases x.testedAs <;> rfl) hl
    rw [Machine.takes_jumpUnless, Machine.jumped_jumpUnless, ← h.stop, ← hpass, h.stop] at hnext
    cases hverdict : (m.verdict x.testedAs).1 <;> rwa [hverdict] at hnext
  · have hnext := hjump (by cases x.testedAs <;> rfl) hl
    rw [Machine.takes_jumpIf, Machine.jumped_jumpIf, ← h.stop, ← hfail, h.stop] at hnext
    exact hnext

end Test.Of

namespace Asm.Stored

theorem next_not {u : CodeUnit} {l : Literals} {ip : Nat} {kind : Demand} {is : List Asm}
    (hl : Stored u l ip (⟨if kind = .int then .not else .notFloat, []⟩ :: is)) (block : BlockId)
    (m : Machine) (c : Console) : Activation.Next u block (m.goto (ipWord ip), c)
      (((m.verdict kind).2.pushInt (Machine.ofBool !(m.verdict kind).1)).goto (ipWord (ip + 1)),
        c) := by
  simp only [Machine.verdict, bne]
  cases kind with
  | int =>
    rw [Bool.not_not]
    exact hl.next_plain rfl rfl
  | none | float | text =>
    rw [Bool.not_not]
    exact hl.next_plain rfl rfl

end Asm.Stored

/-- One machine has the number of a value on top where the other one has its integer. -/
def Machine.Paired (m m' : Machine) : Prop :=
  ∃ (v : Value) (i : Int64) (rest : Machine), m.popFloat = (v.toFloat, rest) ∧
    m'.popInt = (i, rest) ∧ (i = v.toInt ∨ i = Number.signExtend (Number.lowWord v.toInt))

section runs

variable {q q' : Stretch} {fuel k k' : Nat} {x : Expr}
variable {R : Performance → Performance → Prop} (hR : Parallel R) (hplace : q.place = q'.place)
  (hpaired : ∀ (m m' : Machine) (c : Console), m.Paired m' →
    Abreast q q' fuel R (m.goto (ipWord k), c) (m'.goto (ipWord k'), c))

include hpaired in
/-- The last instructions of two codes, which leave a value's number and its integer. -/
theorem abreast_last {ip ip' j j' : Nat} (hend : q.Leads fuel j k) (hend' : q'.Leads fuel j' k')
    (h : ∀ (m : Machine) (c : Console), ∃ n n' : Machine, n.Paired n' ∧
      Glides q fuel (m.goto (ipWord ip), c) (n.goto (ipWord j), c) ∧
      Glides q' fuel (m.goto (ipWord ip'), c) (n'.goto (ipWord j'), c)) :
    AbreastAt q q' fuel R ip ip' := by
  intro m c
  obtain ⟨n, n', hnumbers, hleft, hright⟩ := h m c
  exact .glides (hleft.trans (hend n c)) (hright.trans (hend' n' c)) (hpaired n n' c hnumbers)

namespace Expr

include hpaired in
theorem fits_literal {v : Value}
    (hfloat : ∀ ip, x.asm ip .float = [⟨.loadFloat, [.float v.toFloat]⟩])
    (hint : ∀ ip, x.asm ip .int = [⟨.loadInt, [.word (Number.lowWord v.toInt)]⟩]) :
    x.Fits q q' fuel R .float .int k k' := by
  intro ip ip' hq hq' hend hend'
  rw [← total_asm x ip, hfloat] at hend
  rw [← total_asm x ip', hint] at hend'
  rw [hfloat] at hq
  rw [hint] at hq'
  refine abreast_last hpaired hend hend' fun m c => ⟨m.pushFloat (Float.ofBits v.toFloat.toBits),
    m.pushInt (Number.signExtend (Number.lowWord v.toInt)), ⟨v, _, m, ?_, rfl, .inr rfl⟩,
    .next hq rfl (.loadFloat hq.loaded rfl c), .next hq' rfl (.loadInt hq'.loaded.toStored rfl c)⟩
  rw [Number.ofBits_toBits]
  rfl

/-- One instruction loads the number of a value, and the other one loads its integer. -/
structure Loads (load load' : Opcode) : Prop where
  plain : load.isPlain = true
  plain' : load'.isPlain = true
  quiet : load.hasEffect = false
  quiet' : load'.hasEffect = false
  value : ∀ (m : Machine) (c : Console), ∃ v : Value,
    (∀ (u : CodeUnit) (block : BlockId),
      Machine.execute u block load 0 m c = .ok (.next (m.pushFloat v.toFloat)) c) ∧
    ∀ (u : CodeUnit) (block : BlockId),
      Machine.execute u block load' 0 m c = .ok (.next (m.pushInt v.toInt)) c

theorem loads_var : Loads .loadVarFloat .loadVarInt where
  plain := rfl
  plain' := rfl
  quiet := rfl
  quiet' := rfl
  value m c := by
    obtain ⟨v, hv⟩ : ∃ v, m.varValue c = .ok v c := ⟨_, rfl⟩
    exact ⟨v, fun _ _ => Run.bind_ok hv, fun _ _ => Run.bind_ok hv⟩

theorem loads_field : Loads .loadFieldFloat .loadFieldInt where
  plain := rfl
  plain' := rfl
  quiet := rfl
  quiet' := rfl
  value m c := by
    obtain ⟨t, ht⟩ : ∃ t, m.fieldValue c = .ok t c := ⟨_, rfl⟩
    exact ⟨.text t, fun _ _ => Run.bind_ok ht, fun _ _ => Run.bind_ok ht⟩

include hR hplace hpaired in
/-- A variable or field is selected alike, and then its number is loaded or its integer. -/
theorem fits_loaded {f : Nat → List Asm} {n : Nat} {load load' : Opcode}
    (hf : Asm.Woven False f n) (hfloat : ∀ ip, x.asm ip .float = f ip ++ Asm.plain [load])
    (hint : ∀ ip, x.asm ip .int = f ip ++ Asm.plain [load'])
    (hload : Loads load load') :
    x.Fits q q' fuel R .float .int k k' := by
  intro ip ip' hq hq' hend hend'
  have hsize : x.size .float = n + 1 := by
    rw [← total_asm x 0, hfloat, Asm.total_append, hf.total]
    rfl
  have hsize' : x.size .int = n + 1 := by
    rw [← total_asm x 0, hint, Asm.total_append, hf.total]
    rfl
  rw [hsize, ← Nat.add_assoc] at hend
  rw [hsize', ← Nat.add_assoc] at hend'
  rw [hfloat] at hq
  rw [hint] at hq'
  have hlast := hf.total ip ▸ hq.right
  have hlast' := hf.total ip' ▸ hq'.right
  refine hf.abreast hR hplace hq.left hq'.left (abreast_last hpaired hend hend' fun m c => ?_)
  obtain ⟨v, hv, hv'⟩ := hload.value m c
  exact ⟨m.pushFloat v.toFloat, m.pushInt v.toInt, ⟨v, _, m, rfl, rfl, .inl rfl⟩,
    .next hlast hload.quiet (hlast.loaded.toStored.next_plain hload.plain (hv _ _)),
    .next hlast' hload.quiet' (hlast'.loaded.toStored.next_plain hload.plain' (hv' _ _))⟩

include hR hplace hpaired in
theorem fits_computed (hx : x.madeAs ≠ .none) : x.Fits q q' fuel R .float .int k k' := by
  refine .converted hR hplace hx fun ip ip' hq hq' hend hend' => ?_
  refine abreast_last hpaired hend hend' fun m c => ?_
  generalize x.madeAs = kind at hx hq hq'
  cases kind with
  | none => exact absurd rfl hx
  | int =>
    have hcode : q.Holds ip [⟨.intToFloat, []⟩] := hq
    exact ⟨m.popInt.2.pushFloat (Number.ofInt64 m.popInt.1), m,
      ⟨.int m.popInt.1, _, _, rfl, rfl, .inl rfl⟩,
      .next hcode rfl (hcode.loaded.toStored.next_plain rfl rfl), .refl _⟩
  | float =>
    have hcode : q'.Holds ip' [⟨.floatToInt, []⟩] := hq'
    exact ⟨m, m.popFloat.2.pushInt (Number.toInt64 m.popFloat.1),
      ⟨.float m.popFloat.1, _, _, rfl, rfl, .inl rfl⟩, .refl _,
      .next hcode rfl (hcode.loaded.toStored.next_plain rfl rfl)⟩
  | text =>
    have hcode : q.Holds ip [⟨.textToFloat, []⟩] := hq
    have hcode' : q'.Holds ip' [⟨.textToInt, []⟩] := hq'
    exact ⟨m.pushFloat (Value.text m.text).toFloat, m.pushInt (Value.text m.text).toInt,
      ⟨.text m.text, _, m, rfl, rfl, .inl rfl⟩,
      .next hcode rfl (hcode.loaded.toStored.next_plain rfl rfl),
      .next hcode' rfl (hcode'.loaded.toStored.next_plain rfl rfl)⟩

include hR hplace hpaired in
theorem fits_var (pos : Position) (name : Text) (index : Option Expr) :
    (var pos name index).Fits q q' fuel R .float .int k k' := by
  cases index with
  | none =>
    have hselect : Asm.Woven False _ _ := .single (.ident (.inl rfl) name) False.elim
    exact fits_loaded hR hplace hpaired hselect (fun _ => rfl) (fun _ => rfl) loads_var
  | some i =>
    have hselect := (woven_element name (woven i .text False.elim)).append
      (.op .setVarArray rfl False.elim)
    exact fits_loaded hR hplace hpaired hselect (fun _ => by simp [asm, Demand.loadVar])
      (fun _ => by simp [asm, Demand.loadVar]) loads_var

include hR hplace hpaired in
theorem fits_slot (pos : Position) (obj : Expr) (field : Text) (index : Option Expr) :
    (slot pos obj field index).Fits q q' fuel R .float .int k k' := by
  have hobj : Asm.Woven False _ _ := woven obj .text False.elim
  cases index with
  | none =>
    have hselect := hobj.append (woven_select .setObject rfl rfl field)
    exact fits_loaded hR hplace hpaired hselect (fun _ => by simp [asm, Demand.loadField])
      (fun _ => by simp [asm, Demand.loadField]) loads_field
  | some i =>
    have hselect := woven_indexed (woven i .text False.elim) hobj field
    exact fits_loaded hR hplace hpaired hselect
      (fun _ => by simp [asm, Asm.plain, Demand.loadField])
      (fun _ => by simp [asm, Asm.plain, Demand.loadField]) loads_field

include hR hplace hpaired in
/-- Wherever an expression is asked for a number and for an integer, it gives those of one value. -/
theorem fits_numbers : ∀ x : Expr, x.Fits q q' fuel R .float .int k k'
  | int _ v => fits_literal hpaired (v := .int (Int64.ofInt v)) (fun _ => rfl) fun _ => rfl
  | float _ v => fits_literal hpaired (v := .float v) (fun _ => rfl) fun _ => rfl
  | str _ t _ => fits_literal hpaired (v := .float (Number.ofText t)) (fun _ => rfl) fun _ => rfl
  | word _ t => fits_literal hpaired (v := .float (Number.ofText t)) (fun _ => rfl) fun _ => rfl
  | var pos name index => fits_var hR hplace hpaired pos name index
  | slot pos obj field index => fits_slot hR hplace hpaired pos obj field index
  | cond _ _ whenTrue whenFalse =>
    .cond hR hplace (fits_numbers whenTrue) (fits_numbers whenFalse)
  | assign _ _ _ value => fits_computed hR hplace hpaired value.storedAs_ne_none
  | update _ _ _ op _ => fits_computed hR hplace hpaired op.operands_ne_none
  | slotUpdate _ _ _ _ op _ => fits_computed hR hplace hpaired op.operands_ne_none
  | unary _ op _ => fits_computed hR hplace hpaired (by cases op <;> simp [madeAs, resultOf])
  | arith .. | wordArith .. | compare .. | logic .. | textEq .. | concat .. | indexPair .. | call ..
  | slotAssign .. | object _ => fits_computed hR hplace hpaired (by simp [madeAs])

end Expr

end runs

/-! ## Tests of an expression and of its negation -/

/-- How the tests of an expression and of its negation come out, where the first one is in this
state at its jump. They differ, unless the expression has no kind of its own: then the number of a
value is tested, and the negation tests its integer, or what code has for that integer in a
literal. -/
structure Expr.Decides (x : Expr) (m : Machine) (b b' : Bool) : Prop where
  failed : b = false → b' = true
  kind : x.preferred ≠ .none → b' = !b
  none : x.preferred = .none → ∃ (v : Value) (i : Int64), m.popFloat.1 = v.toFloat ∧
    b = (v.toFloat != 0.0) ∧ b' = (i == 0) ∧
    (i = v.toInt ∨ i = Number.signExtend (Number.lowWord v.toInt))

/-- The runs of two tests, one of an expression and one of its negation. Both perform the same
effects and fault alike, and from the jumps they go on with the same state. -/
def Test.Opposes (t t' : Test) (x : Expr) (o o' : Performance) : Prop :=
  o'.1 = o.1 ∧ match o.2 with
    | .error f c => o'.2 = .error f c
    | .ok m c => ∃ (m' rest : Machine) (b b' : Bool), o'.2 = .ok m' c ∧ x.Decides m b b' ∧
        Activation.Next t.unit t.block (m, c)
          (rest.goto (ipWord (if b then t.pass else t.fail)), c) ∧
        Activation.Next t'.unit t'.block (m', c)
          (rest.goto (ipWord (if b' then t'.pass else t'.fail)), c)

namespace Test

section

variable {x : Expr} {pos : Position} {t t' : Test} {fuel : Nat}

theorem Opposes.parallel (t t' : Test) (x : Expr) : Parallel (t.Opposes t' x) where
  cons es _ _ h := ⟨by rw [h.1], h.2⟩
  fault _ _ _ := ⟨rfl, rfl⟩

theorem Of.not_holds (h : t.Of (.unary pos .not x)) :
    t.Holds t.start (x.asm t.start x.negatedAs) ∧
      t.Holds (t.start + x.size x.negatedAs)
        [⟨if x.negatedAs = .int then .not else .notFloat, []⟩] ∧
      t.start + x.size x.negatedAs + 1 = t.stop := by
  have hasm : (Expr.unary pos .not x).asm t.start .int = x.asm t.start x.negatedAs
      ++ [⟨if x.negatedAs = .int then .not else .notFloat, []⟩] := by
    simp [Expr.asm, Expr.operandOf, Expr.resultOf, Asm.convert, Demand.convert, Asm.plain]
  have hcode : t.Holds t.start _ := hasm ▸ h.spans.holds
  have hnot := hcode.right
  rw [Expr.total_asm] at hnot
  exact ⟨hcode.left, hnot, h.stop⟩

theorem Of.abreast_end (h : t.Of x) (h' : t'.Of (.unary pos .not x)) {m m' rest : Machine}
    {b b' : Bool} (hm : m.verdict x.testedAs = (b, rest))
    (hm' : m'.verdict x.negatedAs = (!b', rest))
    (hdecides : x.Decides (m.goto (ipWord t.stop)) b b') (c : Console) :
    Abreast t.toStretch t'.toStretch fuel (t.Opposes t' x)
      (m.goto (ipWord t.stop), c) (m'.goto (ipWord (t'.start + x.size x.negatedAs)), c) := by
  obtain ⟨-, hnot, hstop⟩ := h'.not_holds
  have hnegate := hnot.loaded.toStored.next_not t'.block m' c
  rw [hm', Bool.not_not, hstop] at hnegate
  have hquiet : (if x.negatedAs = .int then Opcode.not else .notFloat).hasEffect = false := by
    split <;> rfl
  have hnext := h.next m c
  have hnext' := h'.next (rest.pushInt (Machine.ofBool b')) c
  rw [hm] at hnext
  rw [show (Expr.unary pos .not x).testedAs = .int from rfl, Machine.verdict_pushInt] at hnext'
  exact ⟨_, _, .stop rfl, Glides.next hnot hquiet hnegate _ (.stop rfl), rfl, _, rest, b, b', rfl,
    hdecides, hnext, hnext'⟩

theorem Of.abreast_number (h : t.Of x) (h' : t'.Of (.unary pos .not x)) (hx : x.preferred = .none)
    (m m' : Machine) (c : Console) (hpaired : m.Paired m') :
    Abreast t.toStretch t'.toStretch fuel (t.Opposes t' x) (m.goto (ipWord t.stop), c)
      (m'.goto (ipWord (t'.start + x.size x.negatedAs)), c) := by
  obtain ⟨v, i, rest, hm, hm', hi⟩ := hpaired
  have hnumber : m.verdict x.testedAs = (v.toFloat != 0.0, rest) := by
    rw [Expr.testedAs, hx]
    show (m.popFloat.1 != 0.0, m.popFloat.2) = _
    rw [hm]
  have hinteger : m'.verdict x.negatedAs = (!(i == 0), rest) := by
    rw [Expr.negatedAs, hx]
    show (m'.popInt.1 != 0, m'.popInt.2) = _
    rw [hm']
    rfl
  refine h.abreast_end h' hnumber hinteger ⟨fun hfailed => ?_, fun hkind => absurd hx hkind,
    fun _ => ⟨v, i, ?_, rfl, rfl, hi⟩⟩ c
  · have hzero : v.toInt = 0 :=
      Value.toInt_of_toFloat_zero (by rwa [bne, Bool.not_eq_false'] at hfailed)
    rcases hi with rfl | rfl
    · rw [hzero]
      rfl
    · rw [hzero]
      rfl
  · rw [Machine.popFloat_goto, hm]

theorem Of.abreast (h : t.Of x) (h' : t'.Of (.unary pos .not x)) (hplace : t.place = t'.place) :
    AbreastAt t.toStretch t'.toStretch fuel (t.Opposes t' x) t.start t'.start := by
  have hparallel := Opposes.parallel t t' x
  have hvalue := h.spans.holds
  have hvalue' := h'.not_holds.1
  by_cases hx : x.preferred = .none
  · have htested : x.testedAs = .float := by rw [Expr.testedAs, hx]; rfl
    have hnegated : x.negatedAs = .int := by rw [Expr.negatedAs, hx]; rfl
    have hend := h.stop
    rw [htested] at hvalue hend
    rw [hnegated] at hvalue'
    refine Expr.fits_numbers hparallel hplace (h.abreast_number h' hx) x _ _ hvalue hvalue'
      (hend ▸ .refl _ _ _) (hnegated ▸ .refl _ _ _)
  · have hkind : x.negatedAs = x.testedAs := by
      unfold Expr.negatedAs Expr.testedAs
      cases hpreferred : x.preferred with
      | none => exact absurd hpreferred hx
      | int | float | text => rfl
    rw [hkind] at hvalue'
    refine (Expr.woven x x.testedAs False.elim).abreast hparallel hplace hvalue hvalue'
      fun m c => ?_
    rw [h.stop, ← hkind]
    refine h.abreast_end h' rfl ?_ ⟨fun hfailed => ?_, fun _ => rfl, fun hnone => absurd hnone hx⟩ c
    · rw [hkind, Bool.not_not]
      rfl
    · rw [hfailed]
      rfl

end

/-- The test of a negation is passed where the test of the expression is failed. If the expression
has a kind of its own, it is failed where that one is passed. -/
theorem negation_opposes {x : Expr} {pos : Position} {t t' : Test} (h : t.Of x)
    (h' : t'.Of (.unary pos .not x)) (hplace : t.place = t'.place) (fuel : Nat) (m : Machine)
    (c : Console) :
    ∃ o o' : Performance, Performs t.toStretch fuel (m.goto (ipWord t.start), c) o ∧
      Performs t'.toStretch fuel (m.goto (ipWord t'.start), c) o' ∧ t.Opposes t' x o o' :=
  h.abreast h' hplace m c

theorem negation_opposes_variable :
    let x : Expr := .var default "$x" none
    let body : List Stmt := [.expr default (.call default "f" none .function [])]
    let s : Stmt := .branch default x body none
    let s' : Stmt := .branch default (.unary default .not x) body none
    let t : Test := ⟨⟨.written "a.cs" [s], Stmt.collectBlock [s] {}, 0, "a.cs (0)", 3⟩, 0, 5, 11⟩
    let t' : Test := ⟨⟨.written "a.cs" [s'], Stmt.collectBlock [s'] {}, 0, "a.cs (0)", 4⟩, 0, 6, 12⟩
    let m : Machine := { ip := 0, scope := .globals }
    let c := Console.create 0 0
    t.Of x ∧ t'.Of (.unary default .not x) ∧ t.place = t'.place ∧
      ∃ o o' : Performance, Performs t.toStretch 0 (m.goto (ipWord t.start), c) o ∧
        Performs t'.toStretch 0 (m.goto (ipWord t'.start), c) o' ∧ t.Opposes t' x o o' := by
  intro x body s s' t t' m c
  have hx : x.Named fun _ => True := ⟨by decide, trivial⟩
  have hbody : Stmt.NamedBlock (fun _ => True) body := ⟨⟨by decide, nofun, trivial⟩, trivial⟩
  have hs : s.Named fun _ => True := ⟨hx, hbody, trivial⟩
  have hs' : s'.Named fun _ => True := ⟨hx, hbody, trivial⟩
  have ht : t.Of x :=
    ⟨.branch (Stmt.loaded_written hs "a.cs" (by decide)),
      fun k _ hk => (show ∀ k < 3, t.unit.place (ipWord k) = t.place by decide) k hk, rfl⟩
  have ht' : t'.Of (.unary default .not x) :=
    ⟨.branch (Stmt.loaded_written hs' "a.cs" (by decide)),
      fun k _ hk => (show ∀ k < 4, t'.unit.place (ipWord k) = t'.place by decide) k hk, rfl⟩
  exact ⟨ht, ht', rfl, negation_opposes ht ht' rfl 0 m c⟩

end Test

end ConsoleScript
