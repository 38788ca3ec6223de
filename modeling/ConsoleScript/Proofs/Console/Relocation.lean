import ConsoleScript.Proofs.Console.Simulation

/-!
# Code in another place

What an instruction does depends on where it stands only in two ways: the machine goes on behind it,
and messages name its place. So an instruction with the same operands does the same in another unit
and at another position, and so does the move that it makes.
-/

namespace ConsoleScript

/-! ## Instructions without operands -/

namespace Progress

/-- The same progress with the machine at another position. -/
def goto (w : UInt32) (p : Progress) : Progress :=
  match p with
  | Progress.next m => .next (m.goto w)
  | Progress.done t => .done t
  | Progress.call m k => Progress.call (m.goto w) k
  | Progress.register m r root => .register (m.goto w) r root

end Progress

/-- The instructions that read no operands and do not end the activation. -/
def Opcode.isPlain (op : Opcode) : Bool :=
  match op with
  | .ret | .retVoid => false
  | op => op.operandCount == 0

namespace Machine

section goto

variable (m : Machine) (w : UInt32)

theorem popInt_goto : (m.goto w).popInt = (m.popInt.1, m.popInt.2.goto w) := by
  obtain ⟨_, _, _ | _⟩ := m <;> rfl

theorem popFloat_goto : (m.goto w).popFloat = (m.popFloat.1, m.popFloat.2.goto w) := by
  obtain ⟨_, _, _, _ | _⟩ := m <;> rfl

theorem rewind_goto : (m.goto w).rewind = (m.rewind.1, m.rewind.2.goto w) := by
  obtain ⟨_, _, _, _, _, _ | _⟩ := m <;> rfl

theorem popArgs_goto : (m.goto w).popArgs = (m.popArgs.1, m.popArgs.2.goto w) := by
  obtain ⟨_, _, _, _, _, _, _ | _⟩ := m <;> rfl

theorem pushArg_goto : (m.goto w).pushArg = m.pushArg.goto w := by
  obtain ⟨_, _, _, _, _, _, _ | _⟩ := m <;> rfl

theorem combineInts_goto (f : Int64 → Int64 → Int64) :
    (m.goto w).combineInts f = (m.combineInts f).goto w := by
  simp only [combineInts, popInt_goto]
  rfl

theorem combineFloats_goto (f : Float → Float → Float) :
    (m.goto w).combineFloats f = (m.combineFloats f).goto w := by
  simp only [combineFloats, popFloat_goto]
  rfl

theorem compareFloats_goto (f : Float → Float → Bool) :
    (m.goto w).compareFloats f = (m.compareFloats f).goto w := by
  simp only [compareFloats, popFloat_goto]
  rfl

end goto

variable {u u' : CodeUnit} {block block' : BlockId} {op : Opcode}

/-- An instruction without operands does the same wherever it stands. -/
theorem execute_goto (h : op.isPlain = true) (u u' : CodeUnit) (block block' : BlockId)
    (m : Machine) (ip ip' w : UInt32) (c : Console) :
    execute u block op ip (m.goto w) c = (Progress.goto w <$> execute u' block' op ip' m) c := by
  cases op
  case cmpEq | cmpGt | cmpGe | cmpLt | cmpLe | cmpNe =>
    simp only [execute, compareFloats_goto]
    rfl
  case xor | mod | bitAnd | bitOr | shr | shl =>
    simp only [execute, combineInts_goto]
    rfl
  case add | sub | mul | div =>
    simp only [execute, combineFloats_goto]
    rfl
  case not | complement | intToFloat | intToText | intToNone =>
    simp only [execute, popInt_goto]
    rfl
  case notFloat | neg | floatToInt | floatToText | floatToNone =>
    simp only [execute, popFloat_goto]
    rfl
  case rewind | terminateRewind | compareText =>
    simp only [execute, rewind_goto]
    rfl
  case push =>
    simp only [execute, pushArg_goto]
    rfl
  case setVarArrayCreate =>
    simp only [execute, Run.bind_apply, Run.map_apply, Run.change, Activation.createVar_eq]
    rfl
  case saveVarInt | saveVarFloat | saveVarText =>
    simp only [execute, Run.bind_apply, Run.map_apply]
    obtain ⟨_, _, _, _, _, _, _, _, _ | _⟩ := m <;> rfl
  case saveFieldInt | saveFieldFloat | saveFieldText =>
    simp only [execute, Run.bind_apply, Run.map_apply]
    obtain ⟨_, _, _, _, _, _, _, _, _, _ | _⟩ := m <;> rfl
  all_goals first | rfl | exact absurd h (by decide)

theorem execute_ne_done (h : op.isPlain = true) (m : Machine) (ip : UInt32) {c c' : Console}
    {t : Text} : execute u block op ip m c ≠ .ok (.done t) c' := by
  intro hdone
  cases op
  case ret | retVoid => cases h
  case funcDecl | createObject | addObject | endObject | jumpUnlessFloat | jumpUnless | jumpIfFloat
      | jumpIf | jumpUnlessKeep | jumpIfKeep | jump | setVar | setVarCreate | setField | loadInt
      | loadFloat | loadText | loadIdent | callFunc | advanceChar => cases h
  all_goals simp only [execute, Run.bind_eq_ok, Run.pure_eq_ok, reduceCtorEq, false_and, and_false,
    exists_false] at hdone

/-- What a call leads to depends on its place only for the messages. -/
theorem dispatch_goto {ip ip' : UInt32} (h : u.place ip = u'.place ip') (m : Machine) (w : UInt32)
    (name ns : Option Name) (kind : UInt32) (argv : List Text) :
    dispatch u (m.goto w) ip name ns kind argv = dispatch u' m ip' name ns kind argv := by
  unfold dispatch
  rw [h]
  rfl

theorem placeObject_goto (m : Machine) (w : UInt32) (r : ObjectRef) (root : Bool) (c : Console) :
    (m.goto w).placeObject r root c = ((·.goto w) <$> m.placeObject r root) c := by
  rw [Run.map_apply, placeObject, placeObject, Run.bind_apply, Run.bind_apply]
  dsimp only [get, getThe, MonadStateOf.get, EStateM.get]
  have htop : (m.goto w).topInt = m.topInt := rfl
  rw [htop]
  cases root with
  | true => rfl
  | false =>
    rw [if_neg Bool.false_ne_true, if_neg Bool.false_ne_true]
    cases c.objects.live[Number.lowWord m.topInt]? with
    | none => rfl
    | some group =>
      dsimp only
      split <;> rfl

end Machine

/-! ## Moves -/

namespace Progress

/-- Two results of an instruction: the same fault, or the same progress but for the position at
which the machine goes on. -/
inductive Alike (w w' : UInt32) :
    EStateM.Result Fault Console Progress → EStateM.Result Fault Console Progress → Prop
  | next (m : Machine) (c : Console) :
    Alike w w' (.ok (.next (m.goto w)) c) (.ok (.next (m.goto w')) c)
  | call (m : Machine) (k : Call) (c : Console) :
    Alike w w' (.ok (Progress.call (m.goto w) k) c) (.ok (Progress.call (m.goto w') k) c)
  | register (m : Machine) (r : ObjectRef) (root : Bool) (c : Console) :
    Alike w w' (.ok (.register (m.goto w) r root) c) (.ok (.register (m.goto w') r root) c)
  | fault (f : Fault) (c : Console) : Alike w w' (.error f c) (.error f c)

theorem Alike.of_goto {w w' : UInt32} {x : Run Progress} {c : Console}
    (h : ∀ t c', x c ≠ .ok (.done t) c') : Alike w w' ((goto w <$> x) c) ((goto w' <$> x) c) := by
  rw [Run.map_apply, Run.map_apply]
  rcases hx : x c with ⟨_ | _ | _ | _, c'⟩ | ⟨f, c'⟩
  · exact .next _ _
  · exact absurd hx (h _ _)
  · exact .call _ _ _
  · exact .register _ _ _ _
  · exact .fault _ _

theorem Alike.move {u u' : CodeUnit} {block block' : BlockId} {w w' : UInt32} {m m' : Machine}
    {c : Console} (h : Alike w w' (m.step u block c) (m'.step u' block' c)) (fuel : Nat) :
    (∃ (n : Machine) (c' : Console), Run.move fuel u block m c = .ok (.inl (n.goto w)) c' ∧
      Run.move fuel u' block' m' c = .ok (.inl (n.goto w')) c') ∨
    ∃ f c', Run.move fuel u block m c = .error f c' ∧
      Run.move fuel u' block' m' c = .error f c' := by
  unfold Run.move
  rw [Run.bind_apply, Run.bind_apply]
  generalize m.step u block c = r at h ⊢
  generalize m'.step u' block' c = r' at h ⊢
  cases h with
  | next n c' => exact .inl ⟨n, c', rfl, rfl⟩
  | fault f c' => exact .inr ⟨f, c', rfl, rfl⟩
  | call n k c' =>
    dsimp only
    rw [Run.bind_apply, Run.bind_apply]
    cases Run.callEntry fuel k c' with
    | ok t c₁ => exact .inl ⟨n.setText t, c₁, rfl, rfl⟩
    | error f c₁ => exact .inr ⟨f, c₁, rfl, rfl⟩
  | register n r root c' =>
    dsimp only
    rw [Run.bind_apply, Run.bind_apply]
    cases Run.registerObject fuel r c' with
    | error f c₁ => exact .inr ⟨f, c₁, rfl, rfl⟩
    | ok _ c₁ =>
      dsimp only
      rw [Run.bind_apply, Run.bind_apply, Machine.placeObject_goto, Machine.placeObject_goto,
        Run.map_apply, Run.map_apply]
      cases n.placeObject r root c₁ with
      | ok n' c₂ => exact .inl ⟨n', c₂, rfl, rfl⟩
      | error f c₂ => exact .inr ⟨f, c₂, rfl, rfl⟩

end Progress

/-! ## Instructions with operands -/

namespace CodeUnit

variable {u : CodeUnit}

/-- An identifier that is absent reads as the empty text, which has no name. -/
theorem textAt_ident? {t : Option Text} {w : UInt32}
    (h : (Operand.ident? t).Denotes u w) : u.textAt w = .ok (t.getD []) := by
  cases t with
  | none =>
    rw [show w = noIdent from h]
    rfl
  | some t => exact textAt_eq_ok h

theorem ident_ident? {t : Option Text} {w : UInt32}
    (h : (Operand.ident? t).Denotes u w) (c : Console) :
    u.ident w c = .ok (c.intern (t.getD [])).1 (c.intern (t.getD [])).2 := by
  cases t with
  | none =>
    rw [show w = noIdent from h]
    rfl
  | some t => exact ident_eq_ok h c

end CodeUnit

namespace Asm

variable {u u' : CodeUnit} {block block' : BlockId} {l l' : Literals} {ip ip' : Nat} {i : Asm}
  {is is' : List Asm}

/-- The instructions of expressions that go on behind themselves. -/
inductive Straight : Asm → Prop
  | plain {op : Opcode} (h : op.isPlain = true) : Straight ⟨op, []⟩
  | word {op : Opcode} (h : op = .loadInt ∨ op = .advanceChar ∨ op = .addObject ∨ op = .endObject)
    (w : UInt32) : Straight ⟨op, [.word w]⟩
  | float (f : Float) : Straight ⟨.loadFloat, [.float f]⟩
  | text {op : Opcode} {o : Operand} (t : Text) (hop : op = .loadText ∨ op = .loadIdent)
    (ho : o = .text t ∨ o = .ident t) : Straight ⟨op, [o]⟩
  | ident {op : Opcode} (h : op = .setVar ∨ op = .setVarCreate ∨ op = .setField) (t : Text) :
    Straight ⟨op, [.ident t]⟩
  | call (name : Text) (ns : Option Text) (kind : UInt32) :
    Straight ⟨.callFunc, [.ident name, .ident? ns, .word kind]⟩

theorem Stored.step (hl : Stored u l ip (i :: is)) (m : Machine) (c : Console) :
    (m.goto (ipWord ip)).step u block c
      = Machine.execute u block i.op (ipWord ip) (m.goto (ipWord (ip + 1))) c := by
  rw [Machine.step_eq (m := m.goto (ipWord ip)) hl.word_op, ← ipWord_succ]
  rfl

/-- An instruction without operands does what it does anywhere. -/
theorem Stored.next_plain {op : Opcode} (hl : Stored u l ip (⟨op, []⟩ :: is))
    (hop : op.isPlain = true) {m m' : Machine} {c c' : Console}
    (h : Machine.execute u block op 0 m c = .ok (.next m') c') :
    Activation.Next u block (m.goto (ipWord ip), c) (m'.goto (ipWord (ip + 1)), c') := by
  unfold Activation.Next
  rw [hl.step, Machine.execute_goto hop u u block block m _ 0 _ c, Run.map_apply, h]
  rfl

theorem Stored.read (hl : Stored u l ip (i :: is)) (k : Nat) {o : Operand}
    (hk : i.operands[k]? = some o) (c : Console) :
    Run.ofExcept (u.word (ipWord (ip + 1) + UInt32.ofNat k)) c = .ok (o.encode l) c := by
  rw [← ipWord_succ, hl.word_operand hk]
  rfl

theorem goto_skip (m : Machine) (ip n : Nat) :
    (m.goto (ipWord ip)).skip (UInt32.ofNat n) = m.goto (ipWord (ip + n)) := by
  simp only [Machine.skip, Machine.goto, ipWord, UInt32.ofNat_add]

theorem Stored.step_operand {op : Opcode} {o : Operand} (f : UInt32 → Machine → Run Progress)
    (hl : Stored u l ip (⟨op, [o]⟩ :: is)) (h : ∀ n : Machine,
      Machine.execute u block op (ipWord ip) n
        = Run.ofExcept (u.word n.ip) >>= fun w => f w (n.skip 1))
    (m : Machine) (c : Console) :
    (m.goto (ipWord ip)).step u block c = f (o.encode l) (m.goto (ipWord (ip + 2))) c := by
  have hread : Run.ofExcept (u.word (m.goto (ipWord (ip + 1))).ip) c = .ok (o.encode l) c :=
    hl.read_first c
  rw [hl.step, h, Run.bind_ok hread, Machine.skip,
    show (m.goto (ipWord (ip + 1))).ip = ipWord (ip + 1) from rfl, ipWord_succ]
  rfl

/-- The object under construction is put where it belongs, once it is registered. -/
def addObject (w : UInt32) (m : Machine) : Run Progress := do
  match m.objects with
  | [] => return .next m
  | r :: _ =>
    if ((← get).objects.get r).registered then return .next (← m.placeObject r (w != 0))
    else return .register m r (w != 0)

theorem alike_addObject (w a a' : UInt32) (m : Machine) (c : Console) :
    Progress.Alike a a' (addObject w (m.goto a) c) (addObject w (m.goto a') c) := by
  unfold addObject
  rw [show (m.goto a).objects = m.objects from rfl, show (m.goto a').objects = m.objects from rfl]
  cases m.objects with
  | nil => exact .next m c
  | cons r rs =>
    dsimp only
    rw [Run.bind_apply, Run.bind_apply]
    dsimp only [get, getThe, MonadStateOf.get, EStateM.get]
    split
    · rw [Run.bind_apply, Run.bind_apply, Machine.placeObject_goto, Machine.placeObject_goto,
        Run.map_apply, Run.map_apply]
      cases m.placeObject r (w != 0) c with
      | ok n c' => exact .next n c'
      | error f c' => exact .fault f c'
    · exact .register m r _ c

def callNamed (u : CodeUnit) (ip : UInt32) (name ns : Option Name) (kind : UInt32) (m : Machine) :
    Run Progress := do
  match ← Machine.dispatch u m.popArgs.2 ip name ns kind m.popArgs.1 with
  | some call => return .call m.popArgs.2 call
  | none => return .next (m.popArgs.2.setText [])

theorem alike_callNamed {w w' : UInt32} (hplace : u.place w = u'.place w') (a a' : UInt32)
    (name ns : Option Name) (kind : UInt32) (m : Machine) (c : Console) :
    Progress.Alike a a' (callNamed u w name ns kind (m.goto a) c)
      (callNamed u' w' name ns kind (m.goto a') c) := by
  unfold callNamed
  rw [Machine.popArgs_goto, Machine.popArgs_goto, Run.bind_apply, Run.bind_apply,
    Machine.dispatch_goto (rfl : u.place w = u.place w), Machine.dispatch_goto hplace.symm]
  cases Machine.dispatch u m.popArgs.2 w name ns kind m.popArgs.1 c with
  | error f c' => exact .fault f c'
  | ok found c' =>
    cases found with
    | some k => exact .call _ k c'
    | none => exact .next (m.popArgs.2.setText []) c'

theorem Loaded.step_call {name : Text} {ns : Option Text} {kind : UInt32}
    (hl : Loaded u l ip (⟨.callFunc, [.ident name, .ident? ns, .word kind]⟩ :: is)) (m : Machine)
    (c : Console) : (m.goto (ipWord ip)).step u block c =
      callNamed u (ipWord ip) (c.intern name).1 ((c.intern name).2.intern (ns.getD [])).1 kind
        (m.goto (ipWord (ip + 4))) ((c.intern name).2.intern (ns.getD [])).2 := by
  have hns : (Operand.ident? ns).Denotes u ((Operand.ident? ns).encode l) :=
    hl.denotes _ (List.mem_cons_self ..) _ (List.mem_cons_of_mem _ (List.mem_cons_self ..))
  have hexec : Machine.execute u block .callFunc (ipWord ip) (m.goto (ipWord (ip + 1))) = (do
      let name ← u.ident (← Run.ofExcept (u.word (ipWord (ip + 1))))
      let ns ← u.ident (← Run.ofExcept (u.word (ipWord (ip + 1) + UInt32.ofNat 1)))
      let kind ← Run.ofExcept (u.word (ipWord (ip + 1) + UInt32.ofNat 2))
      callNamed u (ipWord ip) name ns kind
        ((m.goto (ipWord (ip + 1))).skip (UInt32.ofNat 3))) := rfl
  rw [hl.toStored.step, hexec, Run.bind_ok (hl.toStored.read_first c),
    Run.bind_ok (CodeUnit.ident_eq_ok hl.denotes_first c), Run.bind_ok (hl.toStored.read 1 rfl _),
    Run.bind_ok (CodeUnit.ident_ident? hns _), Run.bind_ok (hl.toStored.read 2 rfl _), goto_skip]
  rfl

def createNamed (u : CodeUnit) (ip : UInt32) (source : Text) (datablock fail : UInt32)
    (m : Machine) : Run Machine := do
  let made ← Run.change fun c => c.instantiate (m.popArgs.1.headD []) (m.popArgs.1.tail.headD [])
    source (datablock != 0) (m.popArgs.1.drop 2)
  match made with
  | .ok r => return { m.popArgs.2 with objects := r :: m.popArgs.2.objects }
  | .error e =>
    Run.printLine (u.place ip ++ Text.ofString ": " ++ e.message)
    return m.popArgs.2.goto fail

theorem alike_createNamed {w w' : UInt32} (hplace : u.place w = u'.place w')
    (a a' fail fail' : UInt32) (source : Text) (datablock : UInt32) (m : Machine) (c : Console) :
    let r := (Progress.next <$> createNamed u w source datablock fail (m.goto a)) c
    let r' := (Progress.next <$> createNamed u' w' source datablock fail' (m.goto a')) c
    Progress.Alike a a' r r' ∨ Progress.Alike fail fail' r r' := by
  unfold createNamed
  rw [Machine.popArgs_goto, Machine.popArgs_goto, hplace]
  dsimp only
  rw [Run.map_apply, Run.map_apply, Run.bind_apply, Run.bind_apply]
  cases Run.change (fun c : Console => c.instantiate (m.popArgs.1.headD [])
    (m.popArgs.1.tail.headD []) source (datablock != 0) (m.popArgs.1.drop 2)) c with
  | error f c' => exact .inl (.fault f c')
  | ok made c' =>
    cases made with
    | ok r => exact .inl (.next { m.popArgs.2 with objects := r :: m.popArgs.2.objects } c')
    | error e => exact .inr (.next m.popArgs.2 _)

theorem Loaded.step_create {source : Option Text} {flag : UInt32} {stop : Nat}
    (hl : Loaded u l ip (⟨.createObject, [.ident? source, .word flag, .target stop]⟩ :: is))
    (block : BlockId) (m : Machine) (c : Console) : (m.goto (ipWord ip)).step u block c =
      (Progress.next <$> createNamed u (ipWord ip) (source.getD []) flag (ipWord stop)
        (m.goto (ipWord (ip + 4)))) c := by
  have hdeclare : Machine.declareObject u (m.goto (ipWord (ip + 1))) (ipWord ip) = (do
      let source ← Run.ofExcept (do u.textAt (← u.word (ipWord (ip + 1))))
      let datablock ← Run.ofExcept (u.word (ipWord (ip + 1) + UInt32.ofNat 1))
      let fail ← Run.ofExcept (u.word (ipWord (ip + 1) + UInt32.ofNat 2))
      createNamed u (ipWord ip) source datablock fail
        ((m.goto (ipWord (ip + 1))).skip (UInt32.ofNat 3))) := rfl
  have hsource : Run.ofExcept (do u.textAt (← u.word (ipWord (ip + 1)))) c
      = .ok (source.getD []) c := by
    rw [← ipWord_succ, hl.toStored.word_first]
    exact congrArg (Run.ofExcept · c) (CodeUnit.textAt_ident? hl.denotes_first)
  rw [hl.toStored.step, Run.map_apply]
  show (Machine.declareObject u (m.goto (ipWord (ip + 1))) (ipWord ip)
    >>= fun m => pure (Progress.next m)) c = _
  rw [Run.bind_apply, hdeclare, Run.bind_ok hsource, Run.bind_ok (hl.toStored.read 1 rfl _),
    Run.bind_ok (hl.toStored.read 2 rfl _), goto_skip]
  rfl

def endObject (w : UInt32) (m : Machine) : Machine :=
  let m := if w != 0 then m else m.popInt.2
  { m with objects := m.objects.tail }

theorem Stored.next_endObject {w : UInt32} (hl : Stored u l ip (⟨.endObject, [.word w]⟩ :: is))
    (m : Machine) (c : Console) : Activation.Next u block (m.goto (ipWord ip), c)
      ((endObject w m).goto (ipWord (ip + 2)), c) := by
  refine .of_execute hl rfl ?_
  simp only [Machine.execute]
  rw [Run.bind_ok (hl.read_first c), endObject, Operand.encode, Machine.skip]
  simp only [Machine.goto]
  cases w != 0 with
  | true =>
    simp only [if_true, ipWord_succ]
    rfl
  | false =>
    have hpop := m.popInt_goto (ipWord (ip + 1))
    rw [Machine.goto] at hpop
    simp only [Bool.false_eq_true, if_false, hpop, Machine.goto, ipWord_succ]
    rfl

theorem Loaded.next_setField {t : Text} (hl : Loaded u l ip (⟨.setField, [.ident t]⟩ :: is))
    (m : Machine) (c : Console) : Activation.Next u block (m.goto (ipWord ip), c)
      (({ m with field := t, fieldIndex := [] } : Machine).goto (ipWord (ip + 2)), c) := by
  have htext : Run.ofExcept (u.textAt ((Operand.ident t).encode l)) c = .ok t c := by
    rw [CodeUnit.textAt_eq_ok hl.denotes_first]
    rfl
  refine .of_execute hl.toStored rfl ?_
  simp only [Machine.execute]
  rw [Run.bind_ok (hl.toStored.read_first c), Run.bind_ok htext, Machine.skip, ipWord_succ]
  rfl

theorem Straight.alike (hi : i.Straight) (hl : Loaded u l ip (i :: is))
    (hl' : Loaded u' l' ip' (i :: is')) (hplace : u.place (ipWord ip) = u'.place (ipWord ip'))
    (m : Machine) (c : Console) :
    Progress.Alike (ipWord (ip + i.size)) (ipWord (ip' + i.size))
      ((m.goto (ipWord ip)).step u block c) ((m.goto (ipWord ip')).step u' block' c) := by
  have hnext {a a' : Machine} {c' : Console} (n : Machine)
      (h : Activation.Next u block (m.goto (ipWord ip), c) (a, c'))
      (h' : Activation.Next u' block' (m.goto (ipWord ip'), c) (a', c'))
      (ha : a = n.goto (ipWord (ip + i.size))) (ha' : a' = n.goto (ipWord (ip' + i.size))) :
      Progress.Alike (ipWord (ip + i.size)) (ipWord (ip' + i.size))
        ((m.goto (ipWord ip)).step u block c) ((m.goto (ipWord ip')).step u' block' c) := by
    unfold Activation.Next at h h'
    rw [h, h', ha, ha']
    exact .next n c'
  cases hi with
  | @plain op h =>
    rw [hl.toStored.step, hl'.toStored.step,
      Machine.execute_goto h u u block block m _ 0 _ c,
      Machine.execute_goto h u' u block' block m _ 0 _ c]
    exact .of_goto fun _ _ => Machine.execute_ne_done h m 0
  | @word op h w =>
    rcases h with rfl | rfl | rfl | rfl
    · exact hnext (m.pushInt (Number.signExtend w)) (.loadInt hl.toStored rfl c)
        (.loadInt hl'.toStored rfl c) rfl rfl
    · exact hnext (m.setText (m.text ++ Machine.charOf w)).advance (.advanceChar hl.toStored rfl c)
        (.advanceChar hl'.toStored rfl c) rfl rfl
    · rw [hl.toStored.step_operand addObject (fun n => rfl) m c,
        hl'.toStored.step_operand addObject (fun n => rfl) m c]
      exact alike_addObject w _ _ m c
    · exact hnext (endObject w m) (hl.toStored.next_endObject m c) (hl'.toStored.next_endObject m c)
        rfl rfl
  | float f =>
    exact hnext (m.pushFloat (Float.ofBits f.toBits)) (.loadFloat hl rfl c) (.loadFloat hl' rfl c)
      rfl rfl
  | text t hop ho =>
    exact hnext (m.setText t) (.loadText hop ho hl rfl c) (.loadText hop ho hl' rfl c) rfl rfl
  | ident h t =>
    rcases h with rfl | rfl | rfl
    · exact hnext { m with var := (Eval.find m.scope (c.intern t).1 (c.intern t).2).1 }
        (.setVar hl rfl c) (.setVar hl' rfl c) rfl rfl
    · exact hnext { m with var := (Eval.create m.scope (c.intern t).1 (c.intern t).2).1 }
        (.setVarCreate hl rfl c) (.setVarCreate hl' rfl c) rfl rfl
    · exact hnext { m with field := t, fieldIndex := [] } (hl.next_setField m c)
        (hl'.next_setField m c) rfl rfl
  | call name ns kind =>
    rw [hl.step_call, hl'.step_call]
    exact alike_callNamed hplace _ _ _ _ _ m _

end Asm

/-! ## Jumps -/

namespace Opcode

/-- The instructions that go to a target or on behind themselves. -/
def isJump : Opcode → Bool
  | .jumpUnlessFloat | .jumpUnless | .jumpIfFloat | .jumpIf | .jumpUnlessKeep | .jumpIfKeep
  | .jump => true
  | _ => false

end Opcode

namespace Machine

def takes (op : Opcode) (m : Machine) : Bool :=
  match op with
  | .jumpUnlessFloat => m.popFloat.1 == 0.0
  | .jumpUnless => m.popInt.1 == 0
  | .jumpIfFloat => m.popFloat.1 != 0.0
  | .jumpIf => m.popInt.1 != 0
  | .jumpUnlessKeep => m.topInt == 0
  | .jumpIfKeep => m.topInt != 0
  | _ => true

def jumped (op : Opcode) (m : Machine) : Machine :=
  match op with
  | .jumpUnlessFloat | .jumpIfFloat => m.popFloat.2
  | .jumpUnless | .jumpIf => m.popInt.2
  | .jumpUnlessKeep | .jumpIfKeep => if m.takes op then m else m.popInt.2
  | _ => m

end Machine

namespace Asm

variable {u : CodeUnit} {block : BlockId} {l : Literals} {ip : Nat} {is : List Asm}

theorem Stored.next_jump {op : Opcode} (hop : op.isJump = true) {target : Nat}
    (hl : Stored u l ip (⟨op, [.target target]⟩ :: is)) (block : BlockId) (m : Machine)
    (c : Console) : Activation.Next u block (m.goto (ipWord ip), c)
      ((m.jumped op).goto (ipWord (if m.takes op then target else ip + 2)), c) := by
  have hbranch (n : Machine) (taken : Bool) :
      (n.goto (ipWord (ip + 1))).branch u taken c
        = .ok (n.goto (ipWord (if taken then target else ip + 2))) c := by
    rw [Activation.branch_eq hl rfl]
    cases taken <;> rfl
  have hkeep (taken : Bool) : (if taken = true
        then (m.goto (ipWord (ip + 1))).branch u true >>= fun n => pure (Progress.next n)
        else (m.popInt.2.goto (ipWord (ip + 1))).branch u false >>=
          fun n => pure (Progress.next n)) c
      = .ok (.next ((if taken = true then m else m.popInt.2).goto
          (ipWord (if taken then target else ip + 2)))) c := by
    cases taken with
    | true => exact Run.bind_ok (hbranch m true)
    | false => exact Run.bind_ok (hbranch m.popInt.2 false)
  refine .of_execute hl rfl ?_
  show Machine.execute u block op (ipWord ip) (m.goto (ipWord (ip + 1))) c = _
  cases op
  case jump => exact Run.bind_ok (hbranch m true)
  case jumpUnlessFloat | jumpIfFloat =>
    simp only [Machine.execute, Machine.popFloat_goto]
    exact Run.bind_ok (hbranch m.popFloat.2 _)
  case jumpUnless | jumpIf =>
    simp only [Machine.execute, Machine.popInt_goto]
    exact Run.bind_ok (hbranch m.popInt.2 _)
  case jumpUnlessKeep | jumpIfKeep =>
    simp only [Machine.execute, Machine.popInt_goto, Machine.takes, Machine.jumped]
    exact hkeep _
  all_goals cases hop

end Asm

end ConsoleScript
