import ConsoleScript.Proofs.Console.Relocation
import ConsoleScript.Proofs.Console.StackDiscipline

/-!
# Runs through a stretch of code

A run through a stretch goes from instruction to instruction up to the position where the stretch is
left, or to a fault. What it does to the console on the way are its side effects. Two runs through
different stretches are put side by side, and a relation of them is shown from the back to the
front: it holds of what follows an instruction, hence of the runs that begin with it.
-/

namespace ConsoleScript

/-! ## Stretches and their runs -/

/-- A stretch of code in a unit: the place that its messages name, and where it is left. -/
structure Stretch where
  unit : CodeUnit
  literals : Literals
  block : BlockId
  place : Text
  stop : Nat

/-- The instructions that may change more than the machine and the table of names. -/
def Opcode.hasEffect : Opcode → Bool
  | .funcDecl | .createObject | .addObject | .setVarCreate | .setVarArrayCreate | .saveVarInt
  | .saveVarFloat | .saveVarText | .saveFieldInt | .saveFieldFloat | .saveFieldText | .callFunc =>
    true
  | _ => false

/-- A side effect: an instruction that was carried out, and the console it left. -/
structure Effect where
  op : Opcode
  console : Console

def Opcode.effects (op : Opcode) (c : Console) : List Effect :=
  if op.hasEffect then [⟨op, c⟩] else []

/-- The side effects of a run, in their order, and how it ends. -/
abbrev Performance := List Effect × EStateM.Result Fault Console Machine

/-- A run through a stretch, up to where it is left or to a fault. Calls are given so many steps. -/
inductive Performs (q : Stretch) (fuel : Nat) : Activation → Performance → Prop
  | stop {m : Machine} {c : Console} (hip : m.ip = ipWord q.stop) :
    Performs q fuel (m, c) ([], .ok m c)
  | move {m m' : Machine} {c c' : Console} {op : Opcode} {o : Performance}
    (hip : m.ip ≠ ipWord q.stop) (hop : q.unit.word m.ip = .ok op.word)
    (hmove : Run.move fuel q.unit q.block m c = .ok (.inl m') c')
    (hrest : Performs q fuel (m', c') o) : Performs q fuel (m, c) (op.effects c' ++ o.1, o.2)
  | fault {m : Machine} {c c' : Console} {op : Opcode} {f : Fault}
    (hip : m.ip ≠ ipWord q.stop) (hop : q.unit.word m.ip = .ok op.word)
    (hmove : Run.move fuel q.unit q.block m c = .error f c') :
    Performs q fuel (m, c) (op.effects c', .error f c')

theorem Performs.unique {q : Stretch} {fuel : Nat} {s : Activation} {o o' : Performance}
    (h : Performs q fuel s o) (h' : Performs q fuel s o') : o = o' := by
  induction h generalizing o' with
  | stop hip =>
    cases h' with
    | stop => rfl
    | move hip' | fault hip' => exact absurd hip hip'
  | move hip hop hmove _ ih =>
    cases h' with
    | stop hip' => exact absurd hip' hip
    | move _ hop' hmove' hrest' =>
      obtain rfl := Opcode.word_injective (Except.ok.inj (hop.symm.trans hop'))
      rw [hmove] at hmove'
      cases hmove'
      rw [ih hrest']
    | fault _ _ hmove' =>
      rw [hmove] at hmove'
      cases hmove'
  | fault hip hop hmove =>
    cases h' with
    | stop hip' => exact absurd hip' hip
    | move _ _ hmove' =>
      rw [hmove] at hmove'
      cases hmove'
    | fault _ hop' hmove' =>
      obtain rfl := Opcode.word_injective (Except.ok.inj (hop.symm.trans hop'))
      rw [hmove] at hmove'
      cases hmove'
      rfl

structure Stretch.Holds (q : Stretch) (ip : Nat) (is : List Asm) : Prop where
  loaded : Asm.Loaded q.unit q.literals ip is
  place : ∀ k, ip ≤ k → k < ip + Asm.total is → q.unit.place (ipWord k) = q.place
  inside : ∀ k, ip ≤ k → k < ip + Asm.total is → ipWord k ≠ ipWord q.stop

namespace Stretch.Holds

variable {q : Stretch} {ip : Nat} {i : Asm} {is js : List Asm}

theorem append (h : q.Holds ip (is ++ js)) : q.Holds ip is ∧ q.Holds (ip + Asm.total is) js := by
  have htotal := Asm.total_append is js
  refine ⟨⟨h.loaded.left, fun k hk hlt => h.place k hk (by omega),
    fun k hk hlt => h.inside k hk (by omega)⟩, h.loaded.right,
    fun k hk hlt => h.place k (by omega) (by omega),
    fun k hk hlt => h.inside k (by omega) (by omega)⟩

theorem left (h : q.Holds ip (is ++ js)) : q.Holds ip is := h.append.1

theorem right (h : q.Holds ip (is ++ js)) : q.Holds (ip + Asm.total is) js := h.append.2

theorem head (h : q.Holds ip (i :: is)) : q.Holds ip [i] :=
  left (show q.Holds ip ([i] ++ is) from h)

theorem tail (h : q.Holds ip (i :: is)) : q.Holds (ip + i.size) is :=
  right (show q.Holds ip ([i] ++ is) from h)

theorem cast {ip' : Nat} (h : q.Holds ip is) (e : ip = ip') : q.Holds ip' is := e ▸ h

theorem first (h : q.Holds ip (i :: is)) :
    q.unit.place (ipWord ip) = q.place ∧ ipWord ip ≠ ipWord q.stop := by
  have hlt : ip < ip + Asm.total (i :: is) := by
    simp only [Asm.total_cons, Asm.size]
    omega
  exact ⟨h.place ip (Nat.le_refl ip) hlt, h.inside ip (Nat.le_refl ip) hlt⟩

end Stretch.Holds

/-- The instructions are the code of the stretch: they are loaded, they have its place, and it is
left behind them. -/
structure Stretch.Spans (q : Stretch) (ip : Nat) (is : List Asm) : Prop where
  loaded : Asm.Loaded q.unit q.literals ip is
  place : ∀ k, ip ≤ k → k < q.stop → q.unit.place (ipWord k) = q.place
  stop : ip + Asm.total is = q.stop

theorem Stretch.Spans.holds {q : Stretch} {ip : Nat} {is : List Asm} (h : q.Spans ip is) :
    q.Holds ip is where
  loaded := h.loaded
  place k hk hlt := h.place k hk (h.stop ▸ hlt)
  inside k hk hlt heq := by
    rw [h.stop] at hlt
    have hsize : q.stop < UInt32.size := by
      cases is with
      | nil =>
        have hstop := h.stop
        rw [Asm.total_nil] at hstop
        omega
      | cons i is => exact Nat.lt_of_le_of_lt (h.stop ▸ h.loaded.le_size) h.loaded.size
    have htoNat := congrArg UInt32.toNat heq
    rw [toNat_ipWord (by omega), toNat_ipWord hsize] at htoNat
    omega

theorem Stmt.loaded_written {s : Stmt} (hnamed : s.Named fun _ => True) (filename : Text)
    (hsize : (CodeUnit.written filename [s]).code.size < UInt32.size) :
    Asm.Loaded (.written filename [s]) (collectBlock [s] {}) 0 (s.asm 0 none) :=
  (CodeUnit.loaded_written (show NamedBlock _ [s] from ⟨hnamed, trivial⟩) hsize).left.left

/-! ## Instructions without a side effect -/

def Console.Renames (c c' : Console) : Prop := ∃ names, c' = { c with names := names }

namespace Console.Renames

theorem refl (c : Console) : c.Renames c := ⟨c.names, rfl⟩

theorem trans {c c₁ c₂ : Console} (h : c.Renames c₁) (h' : c₁.Renames c₂) : c.Renames c₂ := by
  obtain ⟨names, rfl⟩ := h
  obtain ⟨names', rfl⟩ := h'
  exact ⟨names', rfl⟩

theorem symm {c c' : Console} (h : c.Renames c') : c'.Renames c := by
  obtain ⟨names, rfl⟩ := h
  exact ⟨c.names, rfl⟩

theorem intern (c : Console) (t : Text) : c.Renames (c.intern t).2 := ⟨(c.names.intern t).2, rfl⟩

end Console.Renames

namespace Machine

section scope

variable (m : Machine)

theorem popInt_scope : m.popInt.2.scope = m.scope := by
  obtain ⟨_, _, _ | _⟩ := m <;> rfl

theorem popFloat_scope : m.popFloat.2.scope = m.scope := by
  obtain ⟨_, _, _, _ | _⟩ := m <;> rfl

theorem rewind_scope : m.rewind.2.scope = m.scope := by
  obtain ⟨_, _, _, _, _, _ | _⟩ := m <;> rfl

theorem pushArg_scope : m.pushArg.scope = m.scope := by
  obtain ⟨_, _, _, _, _, _, _ | _⟩ := m <;> rfl

theorem combineInts_scope (f : Int64 → Int64 → Int64) : (m.combineInts f).scope = m.scope :=
  (popInt_scope _).trans m.popInt_scope

theorem combineFloats_scope (f : Float → Float → Float) : (m.combineFloats f).scope = m.scope :=
  (popFloat_scope _).trans m.popFloat_scope

theorem compareFloats_scope (f : Float → Float → Bool) : (m.compareFloats f).scope = m.scope :=
  (popFloat_scope _).trans m.popFloat_scope

end scope

/-- An instruction without operands and without an effect changes the machine alone. -/
theorem execute_quiet {op : Opcode} (h : op.isPlain = true) (hquiet : op.hasEffect = false)
    (u : CodeUnit) (block : BlockId) (m : Machine) (ip : UInt32) (c : Console) :
    ∃ m', m'.scope = m.scope ∧ execute u block op ip m c = .ok (.next m') c := by
  cases op
  case cmpEq | cmpGt | cmpGe | cmpLt | cmpLe | cmpNe => exact ⟨_, m.compareFloats_scope _, rfl⟩
  case xor | mod | bitAnd | bitOr | shr | shl => exact ⟨_, m.combineInts_scope _, rfl⟩
  case add | sub | mul | div => exact ⟨_, m.combineFloats_scope _, rfl⟩
  case not | complement | intToFloat | intToText | intToNone =>
    refine ⟨_, ?_, rfl⟩
    exact m.popInt_scope
  case notFloat | neg | floatToInt | floatToText | floatToNone =>
    refine ⟨_, ?_, rfl⟩
    exact m.popFloat_scope
  case rewind | terminateRewind | compareText =>
    refine ⟨_, ?_, rfl⟩
    exact m.rewind_scope
  case push => exact ⟨_, m.pushArg_scope, rfl⟩
  all_goals first
    | exact absurd h (by decide)
    | exact absurd hquiet (by decide)
    | refine ⟨_, ?_, rfl⟩; rfl

end Machine

theorem Asm.Stored.next_quiet {u : CodeUnit} {l : Literals} {ip : Nat} {op : Opcode} {is : List Asm}
    (hl : Asm.Stored u l ip (⟨op, []⟩ :: is)) (h : op.isPlain = true)
    (hquiet : op.hasEffect = false) (block : BlockId) (m : Machine) (c : Console) :
    ∃ m' : Machine, m'.scope = m.scope ∧
      Activation.Next u block (m.goto (ipWord ip), c) (m'.goto (ipWord (ip + 1)), c) := by
  obtain ⟨m', hscope, hexec⟩ := Machine.execute_quiet h hquiet u block m 0 c
  exact ⟨m', hscope, hl.next_plain h hexec⟩

/-- An instruction without a side effect changes the machine and the table of names at most. -/
theorem Asm.Straight.quiet {u : CodeUnit} {l : Literals} {ip : Nat} {i : Asm} {is : List Asm}
    (hi : i.Straight) (hquiet : i.op.hasEffect = false) (hl : Asm.Loaded u l ip (i :: is))
    (block : BlockId) (m : Machine) (c : Console) :
    ∃ (m' : Machine) (c' : Console), m'.scope = m.scope ∧ c.Renames c' ∧
      Activation.Next u block (m.goto (ipWord ip), c) (m'.goto (ipWord (ip + i.size)), c') := by
  cases hi with
  | @plain op h =>
    obtain ⟨m', hscope, hnext⟩ := hl.toStored.next_quiet h hquiet block m c
    exact ⟨m', c, hscope, .refl c, hnext⟩
  | @word op h w =>
    rcases h with rfl | rfl | rfl | rfl
    · exact ⟨m.pushInt _, c, rfl, .refl c, .loadInt hl.toStored rfl c⟩
    · exact ⟨(m.setText (m.text ++ Machine.charOf w)).advance, c, rfl, .refl c,
        .advanceChar hl.toStored rfl c⟩
    · cases hquiet
    · refine ⟨Asm.endObject w m, c, ?_, .refl c, hl.toStored.next_endObject m c⟩
      unfold Asm.endObject
      split
      · rfl
      · exact m.popInt_scope
  | float f => exact ⟨m.pushFloat _, c, rfl, .refl c, .loadFloat hl rfl c⟩
  | text t hop ho => exact ⟨m.setText t, c, rfl, .refl c, .loadText hop ho hl rfl c⟩
  | ident h t =>
    rcases h with rfl | rfl | rfl
    · exact ⟨{ m with var := (Eval.find m.scope (c.intern t).1 (c.intern t).2).1 }, _, rfl,
        .intern c t, .setVar hl rfl c⟩
    · cases hquiet
    · exact ⟨{ m with field := t, fieldIndex := [] }, c, rfl, .refl c, hl.next_setField m c⟩
  | call => cases hquiet

theorem Activation.Next.move {u : CodeUnit} {block : BlockId} {m m' : Machine} {c c' : Console}
    (h : Next u block (m, c) (m', c')) (fuel : Nat) :
    Run.move fuel u block m c = .ok (.inl m') c' := by
  unfold Run.move
  rw [Run.bind_ok h]
  rfl

/-- A run from behind an instruction is a run from the instruction, after its effect. -/
theorem Performs.next {q : Stretch} {fuel ip : Nat} {i : Asm} {is : List Asm} {m m' : Machine}
    {c c' : Console} {o : Performance} (h : q.Holds ip (i :: is))
    (hnext : Activation.Next q.unit q.block (m.goto (ipWord ip), c) (m', c'))
    (ho : Performs q fuel (m', c') o) :
    Performs q fuel (m.goto (ipWord ip), c) (i.op.effects c' ++ o.1, o.2) :=
  have hop : q.unit.word (m.goto (ipWord ip)).ip = .ok i.op.word := h.loaded.word_op
  .move h.first.2 hop (hnext.move fuel) ho

/-- Whatever a run from the second state does, a run from the first one does. -/
def Glides (q : Stretch) (fuel : Nat) (s t : Activation) : Prop :=
  ∀ o, Performs q fuel t o → Performs q fuel s o

namespace Glides

variable {q : Stretch} {fuel : Nat} {s t r : Activation}

theorem refl (s : Activation) : Glides q fuel s s := fun _ h => h

theorem trans (h : Glides q fuel s t) (h' : Glides q fuel t r) : Glides q fuel s r :=
  fun o ho => h o (h' o ho)

theorem next {ip : Nat} {i : Asm} {is : List Asm} {m m' : Machine} {c c' : Console}
    (h : q.Holds ip (i :: is)) (hquiet : i.op.hasEffect = false)
    (hnext : Activation.Next q.unit q.block (m.goto (ipWord ip), c) (m', c')) :
    Glides q fuel (m.goto (ipWord ip), c) (m', c') := by
  intro o ho
  have hstart := ho.next h hnext
  rwa [Opcode.effects, hquiet] at hstart

theorem jump (fuel : Nat) {ip target : Nat} {op : Opcode} {is : List Asm}
    (h : q.Holds ip (⟨op, [.target target]⟩ :: is)) (hop : op.isJump = true) (m : Machine)
    (c : Console) : Glides q fuel (m.goto (ipWord ip), c)
      ((m.jumped op).goto (ipWord (if m.takes op then target else ip + 2)), c) := by
  refine .next h ?_ (h.loaded.toStored.next_jump hop q.block m c)
  cases op <;> first | rfl | cases hop

end Glides

/-! ## Two runs side by side -/

/-- Relations of runs that stay when both begin with the same effects, and that hold of runs which
do the same until they fault. -/
structure Parallel (R : Performance → Performance → Prop) : Prop where
  cons : ∀ (es : List Effect) {o o' : Performance}, R o o' → R (es ++ o.1, o.2) (es ++ o'.1, o'.2)
  fault : ∀ (es : List Effect) (f : Fault) (c : Console), R (es, .error f c) (es, .error f c)

/-- The runs from two states are related. -/
def Abreast (q q' : Stretch) (fuel : Nat) (R : Performance → Performance → Prop)
    (s s' : Activation) : Prop :=
  ∃ o o', Performs q fuel s o ∧ Performs q' fuel s' o' ∧ R o o'

/-- The runs of a machine from two positions are related. -/
def AbreastAt (q q' : Stretch) (fuel : Nat) (R : Performance → Performance → Prop) (k k' : Nat) :
    Prop :=
  ∀ (m : Machine) (c : Console),
    Abreast q q' fuel R (m.goto (ipWord k), c) (m.goto (ipWord k'), c)

section abreast

variable {q q' : Stretch} {fuel : Nat} {R : Performance → Performance → Prop} {ip ip' j j' : Nat}
  {is is' : List Asm} {m : Machine} {c : Console}

theorem Abreast.glides {s s' t t' : Activation} (h : Glides q fuel s t) (h' : Glides q' fuel s' t')
    (ht : Abreast q q' fuel R t t') : Abreast q q' fuel R s s' := by
  obtain ⟨o, o', ho, ho', hrel⟩ := ht
  exact ⟨o, o', h o ho, h' o' ho', hrel⟩

theorem Abreast.of_alike (hR : Parallel R) {op : Opcode} {os os' : List Operand}
    (h : q.Holds ip (⟨op, os⟩ :: is)) (h' : q'.Holds ip' (⟨op, os'⟩ :: is'))
    (halike : Progress.Alike (ipWord j) (ipWord j') ((m.goto (ipWord ip)).step q.unit q.block c)
      ((m.goto (ipWord ip')).step q'.unit q'.block c))
    (hnext : AbreastAt q q' fuel R j j') :
    Abreast q q' fuel R (m.goto (ipWord ip), c) (m.goto (ipWord ip'), c) := by
  have hop : q.unit.word (m.goto (ipWord ip)).ip = .ok op.word := h.loaded.word_op
  have hop' : q'.unit.word (m.goto (ipWord ip')).ip = .ok op.word := h'.loaded.word_op
  rcases halike.move fuel with ⟨n, c', hmove, hmove'⟩ | ⟨f, c', hmove, hmove'⟩
  · obtain ⟨o, o', ho, ho', hrel⟩ := hnext n c'
    exact ⟨_, _, .move h.first.2 hop hmove ho, .move h'.first.2 hop' hmove' ho', hR.cons _ hrel⟩
  · exact ⟨_, _, .fault h.first.2 hop hmove, .fault h'.first.2 hop' hmove', hR.fault _ f c'⟩

theorem AbreastAt.straight (hR : Parallel R) (hplace : q.place = q'.place) {i : Asm}
    (hi : i.Straight) (h : q.Holds ip (i :: is)) (h' : q'.Holds ip' (i :: is'))
    (hnext : AbreastAt q q' fuel R (ip + i.size) (ip' + i.size)) :
    AbreastAt q q' fuel R ip ip' := by
  intro m c
  have hsame : q.unit.place (ipWord ip) = q'.unit.place (ipWord ip') := by
    rw [h.first.1, h'.first.1, hplace]
  exact .of_alike hR h h' (hi.alike h.loaded h'.loaded hsame m c) hnext

/-- A jump is taken in both runs, or in neither. -/
theorem AbreastAt.jump (hR : Parallel R) {op : Opcode} (hop : op.isJump = true) {t t' : Nat}
    (h : q.Holds ip (⟨op, [.target t]⟩ :: is)) (h' : q'.Holds ip' (⟨op, [.target t']⟩ :: is'))
    (hnext : AbreastAt q q' fuel R (ip + 2) (ip' + 2)) (htarget : AbreastAt q q' fuel R t t') :
    AbreastAt q q' fuel R ip ip' := by
  intro m c
  have hjump := h.loaded.toStored.next_jump hop q.block m c
  have hjump' := h'.loaded.toStored.next_jump hop q'.block m c
  unfold Activation.Next at hjump hjump'
  cases htakes : m.takes op with
  | true =>
    rw [htakes, if_pos rfl] at hjump hjump'
    refine .of_alike hR h h' ?_ htarget
    rw [hjump, hjump']
    exact .next _ c
  | false =>
    rw [htakes, if_neg Bool.false_ne_true] at hjump hjump'
    refine .of_alike hR h h' ?_ hnext
    rw [hjump, hjump']
    exact .next _ c

/-- The declaration of an object is skipped in both runs, or in neither. -/
theorem AbreastAt.create (hR : Parallel R) (hplace : q.place = q'.place) {source : Option Text}
    {flag : UInt32} {t t' : Nat}
    (h : q.Holds ip (⟨.createObject, [.ident? source, .word flag, .target t]⟩ :: is))
    (h' : q'.Holds ip' (⟨.createObject, [.ident? source, .word flag, .target t']⟩ :: is'))
    (hnext : AbreastAt q q' fuel R (ip + 4) (ip' + 4)) (htarget : AbreastAt q q' fuel R t t') :
    AbreastAt q q' fuel R ip ip' := by
  intro m c
  have hsame : q.unit.place (ipWord ip) = q'.unit.place (ipWord ip') := by
    rw [h.first.1, h'.first.1, hplace]
  have hcases := Asm.alike_createNamed hsame (ipWord (ip + 4)) (ipWord (ip' + 4)) (ipWord t)
    (ipWord t') (source.getD []) flag m c
  dsimp only at hcases
  rw [← h.loaded.step_create q.block, ← h'.loaded.step_create q'.block] at hcases
  rcases hcases with halike | halike
  · exact .of_alike hR h h' halike hnext
  · exact .of_alike hR h h' halike htarget

end abreast

end ConsoleScript
