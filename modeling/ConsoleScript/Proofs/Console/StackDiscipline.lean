import ConsoleScript.Proofs.Code.Literals
import ConsoleScript.Proofs.Console.Activation
import ConsoleScript.Proofs.Source.Parsing

/-!
# Stack discipline

The code of an expression changes the stacks of the machine by its result and by nothing else. The
proof counts: every instruction takes so many entries from each stack and leaves so many, and along
compiled code the counts work out whatever way jumps go. So no instruction ever meets an empty
stack, and the stacks are empty whenever a statement starts.
-/

namespace ConsoleScript

/-! ## Counting entries -/

@[ext] structure Heights where
  ints : Nat := 0
  floats : Nat := 0
  parked : Nat := 0
  args : Nat := 0
  objects : Nat := 0
  deriving DecidableEq, Repr

namespace Heights

instance : Add Heights :=
  ⟨fun h k => ⟨h.ints + k.ints, h.floats + k.floats, h.parked + k.parked, h.args + k.args,
    h.objects + k.objects⟩⟩

@[simp] theorem add_def (h k : Heights) :
    h + k = ⟨h.ints + k.ints, h.floats + k.floats, h.parked + k.parked, h.args + k.args,
      h.objects + k.objects⟩ := rfl

end Heights

structure Stacks where
  ints : List Int64 := []
  floats : List Float := []
  parked : List Text := []
  args : List (List Text) := []
  objects : List ObjectRef := []

def Machine.stacks (m : Machine) : Stacks := ⟨m.ints, m.floats, m.parked, m.args, m.objects⟩

/-- The list is `base` with so many entries on top. -/
def Over {α : Type} : Nat → List α → List α → Prop
  | 0, base, l => l = base
  | n + 1, base, l => ∃ a rest, l = a :: rest ∧ Over n base rest

/-- The stacks are those of `base` with so many entries on top of each. -/
structure Stacked (h : Heights) (base s : Stacks) : Prop where
  ints : Over h.ints base.ints s.ints
  floats : Over h.floats base.floats s.floats
  parked : Over h.parked base.parked s.parked
  args : Over h.args base.args s.args
  objects : Over h.objects base.objects s.objects

theorem Over.push {α : Type} {n : Nat} {base l : List α} (h : Over n base l) (a : α) :
    Over (n + 1) base (a :: l) := ⟨a, l, rfl, h⟩

theorem Stacked.refl (s : Stacks) : Stacked {} s s := ⟨rfl, rfl, rfl, rfl, rfl⟩

namespace Opcode

/-- How many entries the instruction takes or looks at. -/
def pops : Opcode → Heights
  | .jumpUnless | .jumpIf | .jumpUnlessKeep | .jumpIfKeep | .not | .complement | .saveVarInt
  | .saveFieldInt | .intToFloat | .intToText | .intToNone => { ints := 1 }
  | .xor | .mod | .bitAnd | .bitOr | .shr | .shl => { ints := 2 }
  | .jumpUnlessFloat | .jumpIfFloat | .notFloat | .neg | .saveVarFloat | .saveFieldFloat
  | .floatToInt | .floatToText | .floatToNone => { floats := 1 }
  | .cmpEq | .cmpGt | .cmpGe | .cmpLt | .cmpLe | .cmpNe | .add | .sub | .mul | .div =>
    { floats := 2 }
  | .rewind | .terminateRewind | .compareText => { parked := 1 }
  | .push | .callFunc | .createObject => { args := 1 }
  | .setObjectNew => { objects := 1 }
  | .addObject | .endObject => { ints := 1, objects := 1 }
  | _ => {}

/-- Does the instruction always go on behind itself? -/
def isSimple : Opcode → Bool
  | .funcDecl | .createObject | .addObject | .endObject | .jumpUnlessFloat | .jumpUnless
  | .jumpIfFloat | .jumpIf | .jumpUnlessKeep | .jumpIfKeep | .jump | .ret | .retVoid => false
  | _ => true

/-- How many entries such an instruction leaves in their place. -/
def pushes : Opcode → Heights
  | .cmpEq | .cmpGt | .cmpGe | .cmpLt | .cmpLe | .cmpNe | .xor | .mod | .bitAnd | .bitOr | .shr
  | .shl | .not | .notFloat | .complement | .loadVarInt | .saveVarInt | .loadFieldInt
  | .saveFieldInt | .textToInt | .floatToInt | .loadInt | .compareText => { ints := 1 }
  | .add | .sub | .mul | .div | .neg | .loadVarFloat | .saveVarFloat | .loadFieldFloat
  | .saveFieldFloat | .textToFloat | .intToFloat | .loadFloat => { floats := 1 }
  | .advance | .advanceChar | .advanceComma | .advanceNul => { parked := 1 }
  | .push | .pushFrame => { args := 1 }
  | .setObjectNew => { objects := 1 }
  | _ => {}

end Opcode

namespace Machine

open Run

variable {u : CodeUnit} {block : BlockId} {ip : UInt32} {m : Machine} {c c' : Console}
  {base : Stacks} {h : Heights} {p : Progress}

/-- What follows a simple instruction: the machine behind its operands, with its counts worked out.
Only a call leaves something to be done, and that does not touch the stacks. -/
theorem execute_simple {op : Opcode} (hop : op.isSimple = true)
    (hexec : execute u block op ip m c = .ok p c')
    (hm : Stacked (h + op.pops) base m.stacks) :
    ∃ m', (p = .next m' ∨ ∃ call, p = .call m' call) ∧
      m'.ip = m.ip + UInt32.ofNat op.operandCount ∧ Stacked (h + op.pushes) base m'.stacks := by
  obtain ⟨hints, hfloats, hparked, hargs, hobjects⟩ := hm
  have hzero : m.ip = m.ip + UInt32.ofNat 0 := (UInt32.add_zero _).symm
  cases op with
  | funcDecl | createObject | addObject | endObject | jumpUnlessFloat | jumpUnless | jumpIfFloat
  | jumpIf | jumpUnlessKeep | jumpIfKeep | jump | ret | retVoid => cases hop
  | xor | mod | bitAnd | bitOr | shr | shl =>
    obtain ⟨rfl, rfl⟩ := pure_eq_ok.mp hexec
    obtain ⟨i, _, hi, j, is, rfl, hrest⟩ := hints
    rw [combineInts_cons hi]
    exact ⟨_, .inl rfl, hzero, ⟨hrest.push _, hfloats, hparked, hargs, hobjects⟩⟩
  | add | sub | mul | div =>
    obtain ⟨rfl, rfl⟩ := pure_eq_ok.mp hexec
    obtain ⟨a, _, ha, b, fs, rfl, hrest⟩ := hfloats
    rw [combineFloats_cons ha]
    exact ⟨_, .inl rfl, hzero, ⟨hints, hrest.push _, hparked, hargs, hobjects⟩⟩
  | cmpEq | cmpGt | cmpGe | cmpLt | cmpLe | cmpNe =>
    obtain ⟨rfl, rfl⟩ := pure_eq_ok.mp hexec
    obtain ⟨a, _, ha, b, fs, rfl, hrest⟩ := hfloats
    rw [compareFloats_cons ha]
    exact ⟨_, .inl rfl, hzero, ⟨hints.push _, hrest, hparked, hargs, hobjects⟩⟩
  | not | complement =>
    obtain ⟨i, is, hi, hrest⟩ := hints
    simp only [execute, popInt_cons hi, pure_eq_ok] at hexec
    obtain ⟨rfl, rfl⟩ := hexec
    exact ⟨_, .inl rfl, hzero, ⟨hrest.push _, hfloats, hparked, hargs, hobjects⟩⟩
  | intToFloat =>
    obtain ⟨i, is, hi, hrest⟩ := hints
    simp only [execute, popInt_cons hi, pure_eq_ok] at hexec
    obtain ⟨rfl, rfl⟩ := hexec
    exact ⟨_, .inl rfl, hzero, ⟨hrest, hfloats.push _, hparked, hargs, hobjects⟩⟩
  | intToText | intToNone =>
    obtain ⟨i, is, hi, hrest⟩ := hints
    simp only [execute, popInt_cons hi, pure_eq_ok] at hexec
    obtain ⟨rfl, rfl⟩ := hexec
    exact ⟨_, .inl rfl, hzero, ⟨hrest, hfloats, hparked, hargs, hobjects⟩⟩
  | neg =>
    obtain ⟨f, fs, hf, hrest⟩ := hfloats
    simp only [execute, popFloat_cons hf, pure_eq_ok] at hexec
    obtain ⟨rfl, rfl⟩ := hexec
    exact ⟨_, .inl rfl, hzero, ⟨hints, hrest.push _, hparked, hargs, hobjects⟩⟩
  | notFloat | floatToInt =>
    obtain ⟨f, fs, hf, hrest⟩ := hfloats
    simp only [execute, popFloat_cons hf, pure_eq_ok] at hexec
    obtain ⟨rfl, rfl⟩ := hexec
    exact ⟨_, .inl rfl, hzero, ⟨hints.push _, hrest, hparked, hargs, hobjects⟩⟩
  | floatToText | floatToNone =>
    obtain ⟨f, fs, hf, hrest⟩ := hfloats
    simp only [execute, popFloat_cons hf, pure_eq_ok] at hexec
    obtain ⟨rfl, rfl⟩ := hexec
    exact ⟨_, .inl rfl, hzero, ⟨hints, hrest, hparked, hargs, hobjects⟩⟩
  | finishObject | textToNone | setFieldArray | setObjectNew =>
    obtain ⟨rfl, rfl⟩ := pure_eq_ok.mp hexec
    exact ⟨_, .inl rfl, hzero, ⟨hints, hfloats, hparked, hargs, hobjects⟩⟩
  | saveVarInt | saveVarFloat | saveVarText | saveFieldInt | saveFieldFloat | saveFieldText
  | setObject | loadVarText | loadFieldText =>
    simp only [execute, bind_eq_ok, pure_eq_ok] at hexec
    obtain ⟨_, _, _, rfl, rfl⟩ := hexec
    exact ⟨_, .inl rfl, hzero, ⟨hints, hfloats, hparked, hargs, hobjects⟩⟩
  | setVarArray =>
    simp only [execute, bind_eq_ok, pure_eq_ok] at hexec
    obtain ⟨_, _, _, _, _, hfind, rfl, rfl⟩ := hexec
    obtain ⟨v, rfl⟩ := findVar_eq_ok hfind
    exact ⟨_, .inl rfl, hzero, ⟨hints, hfloats, hparked, hargs, hobjects⟩⟩
  | setVarArrayCreate =>
    simp only [execute, bind_eq_ok, pure_eq_ok] at hexec
    obtain ⟨_, _, _, _, _, hcreate, rfl, rfl⟩ := hexec
    obtain ⟨v, rfl⟩ := createVar_eq_ok hcreate
    exact ⟨_, .inl rfl, hzero, ⟨hints, hfloats, hparked, hargs, hobjects⟩⟩
  | setVar =>
    simp only [execute, bind_eq_ok, pure_eq_ok] at hexec
    obtain ⟨_, _, _, _, _, _, _, _, hfind, rfl, rfl⟩ := hexec
    obtain ⟨v, rfl⟩ := findVar_eq_ok hfind
    exact ⟨_, .inl rfl, rfl, ⟨hints, hfloats, hparked, hargs, hobjects⟩⟩
  | setVarCreate =>
    simp only [execute, bind_eq_ok, pure_eq_ok] at hexec
    obtain ⟨_, _, _, _, _, _, _, _, hcreate, rfl, rfl⟩ := hexec
    obtain ⟨v, rfl⟩ := createVar_eq_ok hcreate
    exact ⟨_, .inl rfl, rfl, ⟨hints, hfloats, hparked, hargs, hobjects⟩⟩
  | setField | loadText | loadIdent =>
    simp only [execute, bind_eq_ok, pure_eq_ok] at hexec
    obtain ⟨_, _, _, _, _, _, rfl, rfl⟩ := hexec
    exact ⟨_, .inl rfl, rfl, ⟨hints, hfloats, hparked, hargs, hobjects⟩⟩
  | loadVarInt | loadFieldInt =>
    simp only [execute, bind_eq_ok, pure_eq_ok] at hexec
    obtain ⟨_, _, _, rfl, rfl⟩ := hexec
    exact ⟨_, .inl rfl, hzero, ⟨hints.push _, hfloats, hparked, hargs, hobjects⟩⟩
  | textToInt =>
    obtain ⟨rfl, rfl⟩ := pure_eq_ok.mp hexec
    exact ⟨_, .inl rfl, hzero, ⟨hints.push _, hfloats, hparked, hargs, hobjects⟩⟩
  | loadInt =>
    simp only [execute, bind_eq_ok, pure_eq_ok] at hexec
    obtain ⟨_, _, _, rfl, rfl⟩ := hexec
    exact ⟨_, .inl rfl, rfl, ⟨hints.push _, hfloats, hparked, hargs, hobjects⟩⟩
  | loadVarFloat | loadFieldFloat =>
    simp only [execute, bind_eq_ok, pure_eq_ok] at hexec
    obtain ⟨_, _, _, rfl, rfl⟩ := hexec
    exact ⟨_, .inl rfl, hzero, ⟨hints, hfloats.push _, hparked, hargs, hobjects⟩⟩
  | textToFloat =>
    obtain ⟨rfl, rfl⟩ := pure_eq_ok.mp hexec
    exact ⟨_, .inl rfl, hzero, ⟨hints, hfloats.push _, hparked, hargs, hobjects⟩⟩
  | loadFloat =>
    simp only [execute, bind_eq_ok, pure_eq_ok] at hexec
    obtain ⟨_, _, _, _, _, _, rfl, rfl⟩ := hexec
    exact ⟨_, .inl rfl, rfl, ⟨hints, hfloats.push _, hparked, hargs, hobjects⟩⟩
  | advance | advanceNul | advanceComma =>
    obtain ⟨rfl, rfl⟩ := pure_eq_ok.mp hexec
    exact ⟨_, .inl rfl, hzero, ⟨hints, hfloats, hparked.push _, hargs, hobjects⟩⟩
  | advanceChar =>
    simp only [execute, bind_eq_ok, pure_eq_ok] at hexec
    obtain ⟨_, _, _, rfl, rfl⟩ := hexec
    exact ⟨_, .inl rfl, rfl, ⟨hints, hfloats, hparked.push _, hargs, hobjects⟩⟩
  | rewind | terminateRewind =>
    obtain ⟨t, ts, ht, hrest⟩ := hparked
    simp only [execute, rewind_cons ht, pure_eq_ok] at hexec
    obtain ⟨rfl, rfl⟩ := hexec
    exact ⟨_, .inl rfl, hzero, ⟨hints, hfloats, hrest, hargs, hobjects⟩⟩
  | compareText =>
    obtain ⟨t, ts, ht, hrest⟩ := hparked
    simp only [execute, rewind_cons ht, pure_eq_ok] at hexec
    obtain ⟨rfl, rfl⟩ := hexec
    exact ⟨_, .inl rfl, hzero, ⟨hints.push _, hfloats, hrest, hargs, hobjects⟩⟩
  | push =>
    obtain ⟨rfl, rfl⟩ := pure_eq_ok.mp hexec
    obtain ⟨a, as, ha, hrest⟩ := hargs
    rw [pushArg_cons ha]
    exact ⟨_, .inl rfl, hzero, ⟨hints, hfloats, hparked, hrest.push _, hobjects⟩⟩
  | pushFrame =>
    obtain ⟨rfl, rfl⟩ := pure_eq_ok.mp hexec
    exact ⟨_, .inl rfl, hzero, ⟨hints, hfloats, hparked, hargs.push _, hobjects⟩⟩
  | callFunc =>
    obtain ⟨a, as, ha, hrest⟩ := hargs
    have hpop : (m.skip 3).popArgs = (a, { m.skip 3 with args := as }) := popArgs_cons ha
    simp only [execute, hpop, bind_eq_ok] at hexec
    obtain ⟨_, _, _, _, _, _, _, _, _, _, _, _, _, _, _, found, _, _, hp⟩ := hexec
    cases found with
    | none =>
      obtain ⟨rfl, -⟩ := pure_eq_ok.mp hp
      exact ⟨_, .inl rfl, rfl, ⟨hints, hfloats, hparked, hrest, hobjects⟩⟩
    | some call =>
      obtain ⟨rfl, -⟩ := pure_eq_ok.mp hp
      exact ⟨_, .inr ⟨_, rfl⟩, rfl, ⟨hints, hfloats, hparked, hrest, hobjects⟩⟩

/-- A conditional jump takes the entry it tests. -/
theorem execute_branch {op : Opcode}
    (hop : op = .jumpUnless ∨ op = .jumpIf ∨ op = .jumpUnlessFloat ∨ op = .jumpIfFloat)
    (hexec : execute u block op ip m c = .ok p c')
    (hm : Stacked (h + op.pops) base m.stacks) :
    ∃ (m₁ m' : Machine) (taken : Bool), p = .next m' ∧ m₁.ip = m.ip ∧ Stacked h base m₁.stacks ∧
      m₁.branch u taken c = .ok m' c' := by
  obtain ⟨hints, hfloats, hparked, hargs, hobjects⟩ := hm
  rcases hop with rfl | rfl | rfl | rfl
  · obtain ⟨i, is, hi, hrest⟩ := hints
    simp only [execute, popInt_cons hi, bind_eq_ok, pure_eq_ok] at hexec
    obtain ⟨m', _, hbranch, rfl, rfl⟩ := hexec
    exact ⟨{ m with ints := is }, m', _, rfl, rfl, ⟨hrest, hfloats, hparked, hargs, hobjects⟩,
      hbranch⟩
  · obtain ⟨i, is, hi, hrest⟩ := hints
    simp only [execute, popInt_cons hi, bind_eq_ok, pure_eq_ok] at hexec
    obtain ⟨m', _, hbranch, rfl, rfl⟩ := hexec
    exact ⟨{ m with ints := is }, m', _, rfl, rfl, ⟨hrest, hfloats, hparked, hargs, hobjects⟩,
      hbranch⟩
  · obtain ⟨f, fs, hf, hrest⟩ := hfloats
    simp only [execute, popFloat_cons hf, bind_eq_ok, pure_eq_ok] at hexec
    obtain ⟨m', _, hbranch, rfl, rfl⟩ := hexec
    exact ⟨{ m with floats := fs }, m', _, rfl, rfl, ⟨hints, hrest, hparked, hargs, hobjects⟩,
      hbranch⟩
  · obtain ⟨f, fs, hf, hrest⟩ := hfloats
    simp only [execute, popFloat_cons hf, bind_eq_ok, pure_eq_ok] at hexec
    obtain ⟨m', _, hbranch, rfl, rfl⟩ := hexec
    exact ⟨{ m with floats := fs }, m', _, rfl, rfl, ⟨hints, hrest, hparked, hargs, hobjects⟩,
      hbranch⟩

theorem execute_keep {op : Opcode} (hop : op = .jumpUnlessKeep ∨ op = .jumpIfKeep)
    (hexec : execute u block op ip m c = .ok p c')
    (hm : Stacked (h + op.pops) base m.stacks) :
    ∃ (m₁ m' : Machine) (taken : Bool), p = .next m' ∧ m₁.ip = m.ip ∧
      Stacked (if taken then h + op.pops else h) base m₁.stacks ∧
      m₁.branch u taken c = .ok m' c' := by
  obtain ⟨hints, hfloats, hparked, hargs, hobjects⟩ := hm
  rcases hop with rfl | rfl
  all_goals
    have hall := hints
    obtain ⟨i, is, hi, hrest⟩ := hints
    simp only [execute, popInt_cons hi] at hexec
    split at hexec
    · simp only [bind_eq_ok, pure_eq_ok] at hexec
      obtain ⟨m', _, hbranch, rfl, rfl⟩ := hexec
      exact ⟨m, m', true, rfl, rfl, ⟨hall, hfloats, hparked, hargs, hobjects⟩, hbranch⟩
    · simp only [bind_eq_ok, pure_eq_ok] at hexec
      obtain ⟨m', _, hbranch, rfl, rfl⟩ := hexec
      exact ⟨{ m with ints := is }, m', false, rfl, rfl,
        ⟨hrest, hfloats, hparked, hargs, hobjects⟩, hbranch⟩

/-- Every stack has the entries that the next instruction takes or looks at. -/
def Enough (u : CodeUnit) (m : Machine) : Prop :=
  ∀ op : Opcode, u.word m.ip = .ok op.word →
    op.pops.ints ≤ m.ints.length ∧ op.pops.floats ≤ m.floats.length ∧
    op.pops.parked ≤ m.parked.length ∧ op.pops.args ≤ m.args.length ∧
    op.pops.objects ≤ m.objects.length

end Machine

theorem Over.length_eq {α : Type} {n : Nat} {base l : List α} (h : Over n base l) :
    l.length = base.length + n := by
  induction n generalizing l with
  | zero => rw [h, Nat.add_zero]
  | succ n ih =>
    obtain ⟨a, rest, rfl, hrest⟩ := h
    rw [List.length_cons, ih hrest, Nat.add_assoc]

/-! ## Leading somewhere -/

/-- The activation is at position `ip`, with so many entries above the base. -/
structure Placed (base : Stacks) (h : Heights) (ip : Nat) (m : Machine) : Prop where
  ip : m.ip = ipWord ip
  stacked : Stacked h base m.stacks

theorem Opcode.word_injective {op op' : Opcode} (h : op.word = op'.word) : op = op' := by
  simpa [Opcode.ofWord?_word] using congrArg Opcode.ofWord? h

theorem Placed.enough {u : CodeUnit} {base : Stacks} {h : Heights} {ip : Nat} {m : Machine}
    {op : Opcode} (hm : Placed base (h + op.pops) ip m) (hword : u.word (ipWord ip) = .ok op.word) :
    m.Enough u := by
  intro op' hword'
  rw [hm.ip, hword, Except.ok.injEq] at hword'
  obtain rfl := Opcode.word_injective hword'
  obtain ⟨hints, hfloats, hparked, hargs, hobjects⟩ := hm.stacked
  replace hints := hints.length_eq
  replace hfloats := hfloats.length_eq
  replace hparked := hparked.length_eq
  replace hargs := hargs.length_eq
  replace hobjects := hobjects.length_eq
  simp only [Machine.stacks, Heights.add_def] at hints hfloats hparked hargs hobjects
  omega

namespace Activation

/-- Every run from here goes through states that are all right until it reaches the goal, unless it
faults before. -/
inductive Leads (u : CodeUnit) (block : BlockId) (ok goal : Machine → Prop) : Activation → Prop
  | here {s : Activation} (h : goal s.1) : Leads u block ok goal s
  | move {s : Activation} (h : ok s.1) (next : ∀ t, Step u block s t → Leads u block ok goal t) :
    Leads u block ok goal s

namespace Leads

variable {u : CodeUnit} {block : BlockId} {ok ok' goal goal' : Machine → Prop} {s : Activation}

theorem bind (h : Leads u block ok goal s)
    (hnext : ∀ t : Activation, goal t.1 → Leads u block ok goal' t) :
    Leads u block ok goal' s := by
  induction h with
  | here h => exact hnext _ h
  | move h _ ih => exact .move h fun t ht => ih t ht

theorem weaken (h : Leads u block ok goal s) (hok : ∀ m, ok m → ok' m)
    (hgoal : ∀ m, goal m → goal' m) : Leads u block ok' goal' s := by
  induction h with
  | here h => exact .here (hgoal _ h)
  | move h _ ih => exact .move (hok _ h) ih

end Leads
end Activation

/-- The machine is at the start of a stretch of code, with the counts given for it, or further
inside. -/
structure Inside (u : CodeUnit) (base : Stacks) (h : Heights) (first last : Nat) (m : Machine) :
    Prop where
  enough : m.Enough u
  /-- Functions are declared by statements. -/
  ne_funcDecl : u.word m.ip ≠ .ok Opcode.funcDecl.word
  first_le : first ≤ m.ip.toNat
  lt_last : m.ip.toNat < last
  stacked : m.ip.toNat = first → Stacked h base m.stacks

/-- Instructions that, once loaded at `ip`, lead from counts `h` at their start to counts `h'`
behind them. Without any instructions there the counts are the same. -/
structure Runs (ip : Nat) (is : List Asm) (h h' : Heights) : Prop where
  stay : Asm.total is = 0 → h' = h
  leads : ∀ (u : CodeUnit) (block : BlockId) (l : Literals) (base : Stacks) (s : Activation),
    Asm.Stored u l ip is → Placed base h ip s.1 →
      Activation.Leads u block (Inside u base h ip (ip + Asm.total is))
        (Placed base h' (ip + Asm.total is)) s

namespace Runs

variable {ip : Nat} {is js : List Asm} {h h₁ h₂ : Heights}

theorem nil : Runs ip [] h h := ⟨fun _ => rfl, fun _ _ _ _ _ _ hs => .here hs⟩

theorem append (hi : Runs ip is h h₁) (hj : Runs (ip + Asm.total is) js h₁ h₂) :
    Runs ip (is ++ js) h h₂ where
  stay := by
    rw [Asm.total_append]
    intro hzero
    rw [hj.stay (by omega), hi.stay (by omega)]
  leads := by
    intro u block l base s hl hs
    rw [Asm.total_append, ← Nat.add_assoc]
    have hfirst := hi.leads u block l base s hl.left hs
    refine (hfirst.weaken (fun m hm => ?_) fun _ hm => hm).bind fun t ht => ?_
    · exact ⟨hm.enough, hm.ne_funcDecl, hm.first_le,
        Nat.lt_of_lt_of_le hm.lt_last (Nat.le_add_right _ _), hm.stacked⟩
    · refine (hj.leads u block l base t hl.right ht).weaken (fun m hm => ?_) fun _ hm => hm
      refine ⟨hm.enough, hm.ne_funcDecl, Nat.le_trans (Nat.le_add_right _ _) hm.first_le,
        hm.lt_last, fun hip => ?_⟩
      -- Being back at the start means that the first part is empty.
      have hzero : Asm.total is = 0 := by
        have := hm.first_le
        omega
      have := hm.stacked (by omega)
      rwa [hi.stay hzero] at this

theorem cons {i : Asm} (hi : Runs ip [i] h h₁) (hj : Runs (ip + i.size) js h₁ h₂) :
    Runs ip (i :: js) h h₂ :=
  hi.append hj

end Runs

/-! ## Single instructions -/

section instructions

variable {u : CodeUnit} {block : BlockId} {l : Literals} {base : Stacks} {h : Heights} {ip : Nat}
  {i : Asm} {is : List Asm} {m m' : Machine} {c c' : Console}

theorem Placed.toNat_ip (hm : Placed base h ip m) (hl : Asm.Stored u l ip (i :: is)) :
    m.ip.toNat = ip := by
  have hle := hl.le_size
  have hsize := hl.size
  rw [Asm.total_cons, Asm.size] at hle
  rw [hm.ip, toNat_ipWord (by omega)]

theorem Placed.inside (hm : Placed base h ip m) (hl : Asm.Stored u l ip (i :: is))
    (henough : m.Enough u) (hop : i.op ≠ .funcDecl) {last : Nat} (hlast : ip < last) :
    Inside u base h ip last m := by
  have hip := hm.toNat_ip hl
  refine ⟨henough, fun hword => ?_, by omega, by omega, fun _ => hm.stacked⟩
  rw [hm.ip, hl.word_op, Except.ok.injEq] at hword
  exact hop (Opcode.word_injective hword)

/-- A move from a loaded instruction carries it out, and then what it asks for. -/
theorem Placed.follows (hm : Placed base h ip m) (hl : Asm.Stored u l ip (i :: is))
    (ht : Activation.Step u block (m, c) (m', c')) :
    ∃ p c₁, Machine.execute u block i.op (ipWord ip) (m.skip 1) c = .ok p c₁ ∧ p.Follows m' := by
  obtain ⟨p, c₁, hstep, hp⟩ := ht.follows
  have hword : u.word m.ip = .ok i.op.word := by
    rw [hm.ip]
    exact hl.word_op
  rw [Machine.step_eq hword, hm.ip] at hstep
  exact ⟨p, c₁, hstep, hp⟩

theorem Runs.of_step (i : Asm) {h₁ : Heights} (hop : i.op ≠ .funcDecl)
    (hstep : ∀ {u : CodeUnit} {block : BlockId} {l : Literals} {base : Stacks} {m m' : Machine}
      {c c' : Console}, Placed base (h + i.op.pops) ip m → Asm.Stored u l ip [i] →
      Activation.Step u block (m, c) (m', c') → Placed base h₁ (ip + i.size) m') :
    Runs ip [i] (h + i.op.pops) h₁ where
  stay := by simp [Asm.size]
  leads := by
    rintro u block l base ⟨m, c⟩ hl (hm : Placed base (h + i.op.pops) ip m)
    have hlast : ip < ip + Asm.total [i] := by
      simp only [Asm.total_cons, Asm.size]
      omega
    exact .move (hm.inside hl (hm.enough hl.word_op) hop hlast) fun _ ht => .here (hstep hm hl ht)

/-- A simple instruction leads to what stands behind it. -/
theorem Runs.single {op : Opcode} {operands : List Operand} (hop : op.isSimple = true)
    (hlen : operands.length = op.operandCount) (h : Heights) :
    Runs ip [⟨op, operands⟩] (h + op.pops) (h + op.pushes) := by
  have hne : op ≠ .funcDecl := by
    rintro rfl
    cases hop
  refine .of_step ⟨op, operands⟩ hne fun {u block l base m m' c c'} hm hl ht => ?_
  have hskip : (m.skip 1).ip + UInt32.ofNat op.operandCount
      = ipWord (ip + Asm.size ⟨op, operands⟩) := by
    rw [Asm.size, hlen, Nat.add_comm op.operandCount, ← Nat.add_assoc]
    simp only [Machine.skip, hm.ip, ipWord, UInt32.ofNat_add]
    rfl
  obtain ⟨p, c₁, hexec, hp⟩ := hm.follows hl ht
  obtain ⟨m₁, hm₁, hip, hstacks⟩ := Machine.execute_simple hop hexec hm.stacked
  rcases hm₁ with rfl | ⟨call, rfl⟩
  · cases hp
    exact ⟨hip.trans hskip, hstacks⟩
  · cases hp
    exact ⟨hip.trans hskip, hstacks⟩

/-- Where a jump goes once it has taken what it tests. -/
private theorem branch_placed {op : Opcode} {target : Nat} {m' : Machine} {c' : Console}
    {taken : Bool} (hl : Asm.Stored u l ip [⟨op, [.target target]⟩]) (hip : m.ip = ipWord ip + 1)
    (hstacks : Stacked h base m.stacks) (hbranch : m.branch u taken c = .ok m' c') :
    Placed base h (if taken then target else ip + 2) m' := by
  unfold Machine.branch at hbranch
  cases taken with
  | true =>
    simp only [if_true, Run.bind_eq_ok, Run.ofExcept_eq_ok, Run.pure_eq_ok, hip,
      hl.word_first] at hbranch
    obtain ⟨_, _, ⟨⟨⟩, rfl⟩, rfl, rfl⟩ := hbranch
    exact ⟨rfl, hstacks⟩
  | false =>
    obtain ⟨rfl, rfl⟩ := Run.pure_eq_ok.mp hbranch
    have hnext : ipWord ip + 1 + 1 = ipWord (ip + 2) := by
      simp only [ipWord, UInt32.ofNat_add, UInt32.add_assoc]
      rfl
    exact ⟨(congrArg (· + 1) hip).trans hnext, hstacks⟩

/-- A conditional jump takes the entry it tests and goes to its target or on. -/
theorem Placed.step_branch {op : Opcode} {target : Nat}
    (hop : op = .jumpUnless ∨ op = .jumpIf ∨ op = .jumpUnlessFloat ∨ op = .jumpIfFloat)
    (hm : Placed base (h + op.pops) ip m) (hl : Asm.Stored u l ip [⟨op, [.target target]⟩])
    (ht : Activation.Step u block (m, c) (m', c')) :
    Placed base h target m' ∨ Placed base h (ip + 2) m' := by
  obtain ⟨p, c₁, hexec, hp⟩ := hm.follows hl ht
  obtain ⟨m₁, m', taken, rfl, hip, hstacks, hbranch⟩ :=
    Machine.execute_branch hop hexec hm.stacked
  cases hp
  have hplaced := branch_placed hl (hip.trans (congrArg (· + 1) hm.ip)) hstacks hbranch
  cases taken with
  | true => exact .inl hplaced
  | false => exact .inr hplaced

/-- A jump that keeps the entry it tests goes to its target with it, or on without it. -/
theorem Placed.step_keep {op : Opcode} {target : Nat}
    (hop : op = .jumpUnlessKeep ∨ op = .jumpIfKeep)
    (hm : Placed base (h + op.pops) ip m) (hl : Asm.Stored u l ip [⟨op, [.target target]⟩])
    (ht : Activation.Step u block (m, c) (m', c')) :
    Placed base (h + op.pops) target m' ∨ Placed base h (ip + 2) m' := by
  obtain ⟨p, c₁, hexec, hp⟩ := hm.follows hl ht
  obtain ⟨m₁, m', taken, rfl, hip, hstacks, hbranch⟩ := Machine.execute_keep hop hexec hm.stacked
  cases hp
  have hplaced := branch_placed hl (hip.trans (congrArg (· + 1) hm.ip)) hstacks hbranch
  cases taken with
  | true => exact .inl hplaced
  | false => exact .inr hplaced

theorem Placed.step_jump {target : Nat} (hm : Placed base h ip m)
    (hl : Asm.Stored u l ip [⟨.jump, [.target target]⟩])
    (ht : Activation.Step u block (m, c) (m', c')) : Placed base h target m' := by
  obtain ⟨p, c₁, hexec, hp⟩ := hm.follows hl ht
  simp only [Machine.execute, Run.bind_eq_ok, Run.pure_eq_ok] at hexec
  obtain ⟨m', _, hbranch, rfl, rfl⟩ := hexec
  cases hp
  have hip : (m.skip 1).ip = ipWord ip + 1 := congrArg (· + 1) hm.ip
  have hstacks : Stacked h base (m.skip 1).stacks := hm.stacked
  exact branch_placed hl hip hstacks hbranch

/-- What puts an object in its place: the number on top is replaced, or another one pushed. -/
theorem Machine.placeObject_eq_ok {r : ObjectRef} {root : Bool} {m' : Machine} {c' : Console}
    (hplace : m.placeObject r root c = .ok m' c') :
    ∃ id, m' = { m with ints := id :: if root then m.ints.tail else m.ints } := by
  simp only [placeObject, Run.bind_eq_ok] at hplace
  obtain ⟨console, c₁, -, hplace⟩ := hplace
  cases root with
  | true =>
    obtain ⟨rfl, -⟩ := Run.pure_eq_ok.mp hplace
    exact ⟨_, rfl⟩
  | false =>
    simp only [Bool.false_eq_true, if_false] at hplace
    cases hgroup : console.objects.live[Number.lowWord m.topInt]? with
    | none =>
      rw [hgroup] at hplace
      obtain ⟨rfl, -⟩ := Run.pure_eq_ok.mp hplace
      exact ⟨_, rfl⟩
    | some group =>
      simp only [hgroup] at hplace
      split at hplace
      · simp only [Run.bind_eq_ok, Run.pure_eq_ok] at hplace
        obtain ⟨_, _, _, rfl, _⟩ := hplace
        exact ⟨_, rfl⟩
      · obtain ⟨rfl, -⟩ := Run.pure_eq_ok.mp hplace
        exact ⟨_, rfl⟩

/-- Creating an object takes a frame of arguments. The object goes on its stack, or the machine
behind the declaration. -/
theorem Placed.step_createObject {source : Option Text} {flag : UInt32} {stop : Nat}
    (hm : Placed base (h + { args := 1 }) ip m)
    (hl : Asm.Stored u l ip [⟨.createObject, [.ident? source, .word flag, .target stop]⟩])
    (ht : Activation.Step u block (m, c) (m', c')) :
    Placed base h stop m' ∨ Placed base (h + { objects := 1 }) (ip + 4) m' := by
  obtain ⟨p, c₁, hexec, hp⟩ := hm.follows hl ht
  obtain ⟨hints, hfloats, hparked, ⟨a, as, ha, hrest⟩, hobjects⟩ := hm.stacked
  have hpop : ((m.skip 1).skip 3).popArgs = (a, { (m.skip 1).skip 3 with args := as }) :=
    Machine.popArgs_cons ha
  have hoperand : [Operand.ident? source, .word flag, .target stop][2]? = some (.target stop) := rfl
  have hfail : u.word ((m.skip 1).ip + 2) = .ok (ipWord stop) := by
    rw [Machine.skip, hm.ip]
    exact hl.word_operand hoperand
  have hnext : ((m.skip 1).skip 3).ip = ipWord (ip + 4) := by
    simp only [Machine.skip, hm.ip, ipWord, UInt32.ofNat_add, UInt32.add_assoc]
    rfl
  simp only [Machine.execute, Machine.declareObject, Run.bind_eq_ok, Run.pure_eq_ok,
    Run.ofExcept_eq_ok, hpop, hfail] at hexec
  obtain ⟨m', _, ⟨_, _, -, _, _, -, _, _, ⟨⟨⟩, -⟩, made, _, -, hmade⟩, rfl, -⟩ := hexec
  cases hp
  cases made with
  | ok r =>
    obtain ⟨hr, -⟩ := Run.pure_eq_ok.mp hmade
    rw [← hr]
    exact .inr ⟨hnext, ⟨hints, hfloats, hparked, hrest, hobjects.push r⟩⟩
  | error e =>
    simp only [Run.bind_eq_ok, Run.pure_eq_ok] at hmade
    obtain ⟨_, _, -, hr, -⟩ := hmade
    rw [← hr]
    exact .inl ⟨rfl, ⟨hints, hfloats, hparked, hrest, hobjects⟩⟩

/-- What adding an object leaves: its number on top, instead of another one or above it. -/
def added (root : Bool) : Heights := if root then { ints := 1 } else { ints := 2 }

theorem Placed.step_addObject {root : Bool}
    (hm : Placed base (h + { ints := 1, objects := 1 }) ip m)
    (hl : Asm.Stored u l ip [⟨.addObject, [.word (flagWord root)]⟩])
    (ht : Activation.Step u block (m, c) (m', c')) :
    Placed base (h + added root + { objects := 1 }) (ip + 2) m' := by
  obtain ⟨p, c₁, hexec, hp⟩ := hm.follows hl ht
  obtain ⟨⟨i, is, hi, hrest⟩, hfloats, hparked, hargs, hobjects⟩ := hm.stacked
  have hall := hobjects
  obtain ⟨r, rs, hr, -⟩ := hobjects
  have hword : u.word (m.skip 1).ip = .ok (flagWord root) := by
    rw [Machine.skip, hm.ip]
    exact hl.word_first
  have hroot : (flagWord root != 0) = root := by cases root <;> rfl
  have hr' : ((m.skip 1).skip 1).objects = r :: rs := hr
  have hnext : ((m.skip 1).skip 1).ip = ipWord (ip + 2) := by
    simp only [Machine.skip, hm.ip, ipWord, UInt32.ofNat_add, UInt32.add_assoc]
    rfl
  -- Either way the object ends up where it belongs.
  have hplaced : ∃ c₁ c₂, ((m.skip 1).skip 1).placeObject r root c₁ = .ok m' c₂ := by
    simp only [Machine.execute, Run.bind_eq_ok, Run.ofExcept_eq_ok, hword, hr'] at hexec
    obtain ⟨_, _, ⟨⟨⟩, -⟩, console, c₂, -, hexec⟩ := hexec
    rw [hroot] at hexec
    split at hexec
    · simp only [Run.bind_eq_ok, Run.pure_eq_ok] at hexec
      obtain ⟨m₁, c₃, hplace, rfl, -⟩ := hexec
      cases hp
      exact ⟨c₂, c₃, hplace⟩
    · obtain ⟨rfl, -⟩ := Run.pure_eq_ok.mp hexec
      cases hp with
      | register hplace => exact ⟨_, _, hplace⟩
  obtain ⟨_, _, hplace⟩ := hplaced
  obtain ⟨id, hid⟩ := Machine.placeObject_eq_ok hplace
  rw [hid]
  refine ⟨hnext, ?_⟩
  have hi' : ((m.skip 1).skip 1).ints = i :: is := hi
  cases root with
  | true =>
    refine ⟨?_, hfloats, hparked, hargs, hall⟩
    simpa [added, Machine.stacks, hi'] using hrest.push id
  | false =>
    refine ⟨?_, hfloats, hparked, hargs, hall⟩
    simpa [added, Machine.stacks, hi'] using (hrest.push i).push id

/-- Ending an object drops it, and the number of an inner one. -/
theorem Placed.step_endObject {root : Bool}
    (hm : Placed base (h + added root + { objects := 1 }) ip m)
    (hl : Asm.Stored u l ip [⟨.endObject, [.word (flagWord root)]⟩])
    (ht : Activation.Step u block (m, c) (m', c')) :
    Placed base (h + { ints := 1 }) (ip + 2) m' := by
  obtain ⟨p, c₁, hexec, hp⟩ := hm.follows hl ht
  obtain ⟨hints, hfloats, hparked, hargs, r, rs, hr, hrest⟩ := hm.stacked
  have hword : u.word (m.skip 1).ip = .ok (flagWord root) := by
    rw [Machine.skip, hm.ip]
    exact hl.word_first
  have hroot : (flagWord root != 0) = root := by cases root <;> rfl
  have hnext : ((m.skip 1).skip 1).ip = ipWord (ip + 2) := by
    simp only [Machine.skip, hm.ip, ipWord, UInt32.ofNat_add, UInt32.add_assoc]
    rfl
  simp only [Machine.execute, Run.bind_eq_ok, Run.ofExcept_eq_ok, Run.pure_eq_ok, hword] at hexec
  obtain ⟨_, _, ⟨⟨⟩, -⟩, rfl, -⟩ := hexec
  rw [hroot] at hp
  cases hp
  have hr' : (m.skip 1).objects = r :: rs := hr
  cases root with
  | true =>
    refine ⟨hnext, ⟨hints, hfloats, hparked, hargs, ?_⟩⟩
    simpa [added, Machine.stacks, hr'] using hrest
  | false =>
    obtain ⟨i, is, hi, hints⟩ := hints
    have hi' : (m.skip 1).ints = i :: is := hi
    simp only [Bool.false_eq_true, if_false, Machine.popInt_cons hi']
    refine ⟨hnext, ⟨hints, hfloats, hparked, hargs, ?_⟩⟩
    simpa [added, Machine.stacks, hr'] using hrest

theorem Placed.step_funcDecl {name : Text} {ns package : Option Text} {flags count : UInt32}
    {stop : Nat} {params : List Operand} (hm : Placed base h ip m)
    (hl : Asm.Stored u l ip [⟨.funcDecl, [Operand.ident name, .ident? ns, .ident? package,
      .word flags, .target stop, .word count] ++ params⟩])
    (ht : Activation.Step u block (m, c) (m', c')) : Placed base h stop m' := by
  obtain ⟨p, c₁, hexec, hp⟩ := hm.follows hl ht
  have hstop : u.word (ipWord ip + 5) = .ok (ipWord stop) := by
    have hoperand : ([Operand.ident name, .ident? ns, .ident? package, .word flags, .target stop,
      .word count] ++ params)[4]? = some (.target stop) := rfl
    have hip : ipWord ip + 5 = ipWord ip + 1 + UInt32.ofNat 4 := by
      rw [UInt32.add_assoc]
      rfl
    rw [hip]
    exact hl.word_operand hoperand
  simp only [Machine.execute, Machine.declare, Run.bind_eq_ok, Run.pure_eq_ok, Run.ofExcept_eq_ok,
    hstop] at hexec
  obtain ⟨w, _, hdeclare, rfl, -⟩ := hexec
  obtain ⟨_, _, -, _, _, -, _, _, -, _, _, -, _, _, -, _, _, -, _, _, -, _, _, -, _, _, -, hw, -⟩ :=
    hdeclare
  cases hw
  cases hp
  exact ⟨rfl, hm.stacked⟩

theorem Placed.not_step_retVoid (hm : Placed base h ip m)
    (hl : Asm.Stored u l ip [⟨.retVoid, []⟩]) : ¬Activation.Step u block (m, c) (m', c') := by
  intro ht
  obtain ⟨p, c₁, hexec, hp⟩ := hm.follows hl ht
  obtain ⟨rfl, -⟩ := Run.pure_eq_ok.mp hexec
  cases hp

theorem Placed.not_step_ret (hm : Placed base h ip m)
    (hl : Asm.Stored u l ip [⟨.ret, []⟩]) : ¬Activation.Step u block (m, c) (m', c') := by
  intro ht
  obtain ⟨p, c₁, hexec, hp⟩ := hm.follows hl ht
  obtain ⟨rfl, -⟩ := Run.pure_eq_ok.mp hexec
  cases hp

end instructions

/-! ## Stretches of code -/

/-- What the value of an expression adds to the stacks. -/
def Demand.height : Demand → Heights
  | .int => { ints := 1 }
  | .float => { floats := 1 }
  | .none | .text => {}

section stretches

variable {u : CodeUnit} {block : BlockId} {l : Literals} {base : Stacks} {h h₁ h₂ : Heights}
  {ip first last : Nat} {is : List Asm} {m : Machine} {s : Activation}

theorem Inside.widen (hm : Inside u base h₁ ip last m) {last' : Nat} (hfirst : first ≤ ip)
    (hlast : last ≤ last') (hstart : first = ip → h₁ = h) : Inside u base h first last' m where
  enough := hm.enough
  ne_funcDecl := hm.ne_funcDecl
  first_le := Nat.le_trans hfirst hm.first_le
  lt_last := Nat.lt_of_lt_of_le hm.lt_last hlast
  stacked := by
    intro hip
    have hle := hm.first_le
    rw [← hstart (by omega)]
    exact hm.stacked (by omega)

theorem Runs.within (hr : Runs ip is h₁ h₂) (hl : Asm.Stored u l ip is)
    (hs : Placed base h₁ ip s.1) (hfirst : first ≤ ip) (hlast : ip + Asm.total is ≤ last)
    (hstart : first = ip → h₁ = h) :
    Activation.Leads u block (Inside u base h first last) (Placed base h₂ (ip + Asm.total is)) s :=
  (hr.leads u block l base s hl hs).weaken (fun _ hm => hm.widen hfirst hlast hstart) fun _ hm => hm

theorem Placed.within {i : Asm} (hm : Placed base h₁ ip m) (hl : Asm.Stored u l ip (i :: is))
    (henough : m.Enough u) (hop : i.op ≠ .funcDecl) (hfirst : first ≤ ip) (hlast : ip < last)
    (hstart : first = ip → h₁ = h) : Inside u base h first last m :=
  (hm.inside hl henough hop (Nat.lt_succ_self ip)).widen hfirst hlast hstart

theorem Runs.op {op : Opcode} (hop : op.isSimple = true) (hcount : op.operandCount = 0)
    (h : Heights) : Runs ip (Asm.plain [op]) (h + op.pops) (h + op.pushes) :=
  Runs.single hop (show [].length = _ from hcount.symm) h

/-- One of two stretches of code, as the value on top decides. -/
theorem Runs.choice {d : Demand} {test yes no : List Asm} {onFalse stop : Nat}
    (hd : d = .int ∨ d = .float) (htest : Runs ip test h (h + d.height))
    (hyes : Runs (ip + Asm.total test + 2) yes h h₁) (hno : Runs onFalse no h h₁)
    (honFalse : ip + Asm.total test + 2 + Asm.total yes + 2 = onFalse)
    (hstop : onFalse + Asm.total no = stop) :
    Runs ip (test ++ [⟨d.jumpUnless, [.target onFalse]⟩] ++ yes ++ [⟨.jump, [.target stop]⟩] ++ no)
      h h₁ where
  stay := by simp [Asm.size]
  leads := by
    intro u block l base s hl hs
    have hjump := hl.left.left.left.right
    have hyesAt : Asm.Stored u l (ip + Asm.total test + 2) yes := hl.left.left.right.cast (by
      simp [Asm.size, Nat.add_assoc])
    have hskip : Asm.Stored u l (ip + Asm.total test + 2 + Asm.total yes)
        [⟨.jump, [.target stop]⟩] := hl.left.right.cast (by simp [Asm.size, Nat.add_assoc])
    have hnoAt : Asm.Stored u l onFalse no := hl.right.cast (by
      simp [Asm.size, Nat.add_assoc, ← honFalse])
    have htotal : ip + Asm.total (test ++ [⟨d.jumpUnless, [.target onFalse]⟩] ++ yes
        ++ [⟨.jump, [.target stop]⟩] ++ no) = stop := by
      simp [Asm.size, Nat.add_assoc, ← honFalse, ← hstop]
    rw [htotal]
    have hop : d.jumpUnless = .jumpUnless ∨ d.jumpUnless = .jumpIf ∨
        d.jumpUnless = .jumpUnlessFloat ∨ d.jumpUnless = .jumpIfFloat := by
      rcases hd with rfl | rfl
      · exact .inl rfl
      · exact .inr (.inr (.inl rfl))
    have hheight : d.height = d.jumpUnless.pops := by rcases hd with rfl | rfl <;> rfl
    rw [hheight] at htest
    refine (htest.within hl.left.left.left.left hs (Nat.le_refl _) (by omega)
      fun _ => rfl).bind fun ⟨m, c⟩ hm => ?_
    have hne : d.jumpUnless ≠ .funcDecl := by rcases hd with rfl | rfl <;> decide
    refine .move (hm.within hjump (hm.enough hjump.word_op) hne (Nat.le_add_right _ _) (by omega)
      fun hip => htest.stay (by omega)) fun ⟨m', c'⟩ ht => ?_
    rcases hm.step_branch hop hjump ht with hm' | hm'
    · exact hstop ▸ hno.within hnoAt hm' (by omega) (by omega) (by omega)
    · refine (hyes.within hyesAt hm' (by omega) (by omega) (by omega)).bind fun ⟨m, c⟩ hm => ?_
      refine .move (hm.within hskip (Placed.enough (h := h₁) hm hskip.word_op) nofun
        (by omega) (by omega) (by omega)) fun ⟨m', c'⟩ ht => .here (hm.step_jump hskip ht)

/-- A second stretch of code that a value on top can make superfluous. -/
theorem Runs.shortcut {op : Opcode} {left right : List Asm} {stop : Nat}
    (hop : op = .jumpUnlessKeep ∨ op = .jumpIfKeep) (hleft : Runs ip left h (h + { ints := 1 }))
    (hright : Runs (ip + Asm.total left + 2) right h (h + { ints := 1 }))
    (hstop : ip + Asm.total left + 2 + Asm.total right = stop) :
    Runs ip (left ++ [⟨op, [.target stop]⟩] ++ right) h (h + { ints := 1 }) where
  stay := by simp [Asm.size]
  leads := by
    intro u block l base s hl hs
    have hjump := hl.left.right
    have hrightAt : Asm.Stored u l (ip + Asm.total left + 2) right := hl.right.cast (by
      simp [Asm.size, Nat.add_assoc])
    have htotal : ip + Asm.total (left ++ [⟨op, [.target stop]⟩] ++ right) = stop := by
      simp [Asm.size, Nat.add_assoc, ← hstop]
    rw [htotal]
    have hpops : op.pops = { ints := 1 } := by rcases hop with rfl | rfl <;> rfl
    rw [← hpops] at hleft hright ⊢
    refine (hleft.within hl.left.left hs (Nat.le_refl _) (by omega) fun _ => rfl).bind
      fun ⟨m, c⟩ hm => ?_
    have hne : op ≠ .funcDecl := by rcases hop with rfl | rfl <;> decide
    refine .move (hm.within hjump (hm.enough hjump.word_op) hne (Nat.le_add_right _ _) (by omega)
      fun hip => hleft.stay (by omega)) fun ⟨m', c'⟩ ht => ?_
    rcases hm.step_keep hop hjump ht with hm' | hm'
    · exact .here hm'
    · exact hstop ▸ hright.within hrightAt hm' (by omega) (by omega) (by omega)

/-- A stretch of code that is left behind when an object cannot be created. -/
theorem Runs.attempt (source : Option Text) (flag : UInt32) {before after : List Asm} {stop : Nat}
    (hbefore : Runs ip before h (h + { args := 1 }))
    (hafter : Runs (ip + Asm.total before + 4) after (h + { objects := 1 }) h)
    (hstop : ip + Asm.total before + 4 + Asm.total after = stop) :
    Runs ip (before ++ [⟨.createObject, [.ident? source, .word flag, .target stop]⟩] ++ after)
      h h where
  stay := by simp
  leads := by
    intro u block l base s hl hs
    have hcreate := hl.left.right
    have hafterAt : Asm.Stored u l (ip + Asm.total before + 4) after := hl.right.cast (by
      simp [Asm.size, Nat.add_assoc])
    have htotal : ip + Asm.total (before
        ++ [⟨.createObject, [.ident? source, .word flag, .target stop]⟩] ++ after) = stop := by
      simp [Asm.size, Nat.add_assoc, ← hstop]
    rw [htotal]
    refine (hbefore.within hl.left.left hs (Nat.le_refl _) (by omega) fun _ => rfl).bind
      fun ⟨m, c⟩ hm => ?_
    refine .move (hm.within hcreate (Placed.enough (h := h) hm hcreate.word_op) nofun
      (Nat.le_add_right _ _) (by omega) fun hip => hbefore.stay (by omega)) fun ⟨m', c'⟩ ht => ?_
    rcases hm.step_createObject hcreate ht with hm' | hm'
    · exact .here hm'
    · exact hstop ▸ hafter.within hafterAt hm' (by omega) (by omega) (by omega)

theorem Runs.addObject (root : Bool) : Runs ip [⟨.addObject, [.word (flagWord root)]⟩]
    (h + { ints := 1, objects := 1 }) (h + added root + { objects := 1 }) :=
  .of_step ⟨.addObject, _⟩ nofun fun hm hl ht => hm.step_addObject hl ht

theorem Runs.endObject (root : Bool) : Runs ip [⟨.endObject, [.word (flagWord root)]⟩]
    (h + added root + { objects := 1 }) (h + { ints := 1 }) := by
  cases root with
  | true => exact .of_step (h := h) ⟨.endObject, _⟩ nofun fun hm hl ht => hm.step_endObject hl ht
  | false =>
    refine .of_step (h := h + { ints := 1 }) ⟨.endObject, _⟩ nofun
      fun {_ _ _ base m _ _ _} hm hl ht => ?_
    have hm : Placed base (h + added false + { objects := 1 }) ip m := hm
    exact hm.step_endObject hl ht

theorem Runs.convert {source : Demand} (hsource : source ≠ .none) (want : Demand) (h : Heights) :
    Runs ip (Asm.convert source want) (h + source.height) (h + want.height) := by
  cases source with
  | none => exact absurd rfl hsource
  | int | float | text =>
    cases want with
    | none | int | float | text => first | exact .nil | exact .op rfl rfl h

theorem Runs.loadVar {kind : Demand} (hkind : kind ≠ .none) (h : Heights) :
    Runs ip (Asm.plain [kind.loadVar]) h (h + kind.height) := by
  cases kind with
  | none => exact absurd rfl hkind
  | int | float | text => exact .op rfl rfl h

theorem Runs.saveVar {kind : Demand} (hkind : kind ≠ .none) (h : Heights) :
    Runs ip (Asm.plain [kind.saveVar]) (h + kind.height) (h + kind.height) := by
  cases kind with
  | none => exact absurd rfl hkind
  | int | float | text => exact .op rfl rfl h

theorem Runs.loadField {kind : Demand} (hkind : kind ≠ .none) (h : Heights) :
    Runs ip (Asm.plain [kind.loadField]) h (h + kind.height) := by
  cases kind with
  | none => exact absurd rfl hkind
  | int | float | text => exact .op rfl rfl h

theorem Runs.saveField {kind : Demand} (hkind : kind ≠ .none) (h : Heights) :
    Runs ip (Asm.plain [kind.saveField]) (h + kind.height) (h + kind.height) := by
  cases kind with
  | none => exact absurd rfl hkind
  | int | float | text => exact .op rfl rfl h

theorem Runs.updateOp (op : UpdateOp) (h : Heights) : Runs ip (Asm.plain [op.opcode])
    (h + op.operands.height + op.operands.height) (h + op.operands.height) := by
  cases op with
  | arith op => cases op <;> exact .op rfl rfl h
  | word op => cases op <;> exact .op rfl rfl h

theorem Runs.updateVar (op : UpdateOp) (h : Heights) :
    Runs ip (Asm.plain [op.operands.loadVar, op.opcode, op.operands.saveVar])
      (h + op.operands.height) (h + op.operands.height) :=
  (Runs.loadVar op.operands_ne_none (h + op.operands.height)).append
    ((Runs.updateOp op h).append (Runs.saveVar op.operands_ne_none h))

theorem Runs.updateField (op : UpdateOp) (h : Heights) :
    Runs ip (Asm.plain [op.operands.loadField, op.opcode, op.operands.saveField])
      (h + op.operands.height) (h + op.operands.height) :=
  (Runs.loadField op.operands_ne_none (h + op.operands.height)).append
    ((Runs.updateOp op h).append (Runs.saveField op.operands_ne_none h))

theorem Runs.cast {ip' : Nat} (hr : Runs ip is h h₁) (e : ip' = ip) : Runs ip' is h h₁ := e ▸ hr

theorem Runs.element (name : Text) {index : List Asm} (hindex : Runs (ip + 3) index
    (h + { parked := 1 }) (h + { parked := 1 })) : Runs ip (Expr.elementAsm name index) h h := by
  have hname : Runs ip [⟨.loadIdent, [.ident name]⟩] h h := .single rfl rfl h
  have hadvance : Runs (ip + 2) [⟨.advance, []⟩] h (h + { parked := 1 }) := .single rfl rfl h
  have hrewind {ip : Nat} : Runs ip (Asm.plain [.rewind]) (h + { parked := 1 }) h := .op rfl rfl h
  exact hname.cons (hadvance.cons (hindex.append hrewind))

theorem Runs.select {set : Opcode} {field : Text} (hset : Runs ip (Asm.plain [set]) h h) :
    Runs ip (Expr.selectAsm set field) h h := by
  have hfield : Runs (ip + 1) [⟨.setField, [.ident field]⟩] h h := .single rfl rfl h
  exact hset.cons hfield

theorem Runs.initField (h : Heights) :
    Runs ip (Asm.plain [.terminateRewind, .saveFieldText, .textToNone])
      (h + { objects := 1 } + { parked := 1 }) (h + { objects := 1 }) := by
  have hback : Runs ip [⟨.terminateRewind, []⟩] (h + { objects := 1 } + { parked := 1 })
      (h + { objects := 1 }) := .single rfl rfl (h + { objects := 1 })
  have hsave : Runs (ip + 1) [⟨.saveFieldText, []⟩] (h + { objects := 1 }) (h + { objects := 1 }) :=
    .single rfl rfl (h + { objects := 1 })
  have hdrop : Runs (ip + 2) [⟨.textToNone, []⟩] (h + { objects := 1 }) (h + { objects := 1 }) :=
    .single rfl rfl (h + { objects := 1 })
  exact hback.cons (hsave.cons hdrop)

/-- An index is parked while the object is found, and then set. -/
theorem Runs.indexed {index obj select : List Asm} (hindex : Runs ip index h h)
    (hobj : Runs (ip + Asm.total index + 1) obj (h + { parked := 1 }) (h + { parked := 1 }))
    (hselect : ∀ ip, Runs ip select (h + { parked := 1 }) (h + { parked := 1 })) :
    Runs ip (index ++ Asm.plain [.advance] ++ obj ++ select
      ++ Asm.plain [.terminateRewind, .setFieldArray]) h h := by
  have hadvance {ip : Nat} : Runs ip (Asm.plain [.advance]) h (h + { parked := 1 }) := .op rfl rfl h
  have hback {ip : Nat} : Runs ip (Asm.plain [.terminateRewind]) (h + { parked := 1 }) h :=
    .op rfl rfl h
  have hset {ip : Nat} : Runs ip (Asm.plain [.setFieldArray]) h h := .op rfl rfl h
  exact (((hindex.append hadvance).append (hobj.cast (by simp [Nat.add_assoc]))).append
    (hselect _)).append (hback.cons hset)

end stretches

/-! ## Expressions -/

namespace Expr

theorem runs_literal (want : Demand) (int : Int64) (float : Float) (text : Text) {op : Opcode}
    (hop : op = .loadText ∨ op = .loadIdent) (ip : Nat) (h : Heights) :
    Runs ip (literalAsm want int float ⟨op, [.text text]⟩) h (h + want.height) := by
  cases want with
  | none => exact .nil
  | int | float => exact .single rfl rfl h
  | text => rcases hop with rfl | rfl <;> exact .single rfl rfl h

mutual

/-- The code of an expression adds its value to the stacks and nothing else. -/
theorem runs_asm : ∀ (x : Expr) (ip : Nat) (want : Demand) (h : Heights),
    Runs ip (x.asm ip want) h (h + want.height)
  | int .., ip, want, h => runs_literal want _ _ _ (.inl rfl) ip h
  | float .., ip, want, h => runs_literal want _ _ _ (.inl rfl) ip h
  | str .., ip, want, h => runs_literal want _ _ _ (.inl rfl) ip h
  | word .., ip, want, h => runs_literal want _ _ _ (.inr rfl) ip h
  | var _ name none, ip, want, h => by
    by_cases hw : want = .none
    · subst hw
      exact .nil
    · simp only [asm, if_neg hw]
      have hname : Runs ip [⟨.setVar, [.ident name]⟩] h h := .single rfl rfl h
      exact hname.append (.loadVar hw h)
  | var _ name (some i), ip, want, h => by
    by_cases hw : want = .none
    · subst hw
      exact .nil
    · simp only [asm, if_neg hw]
      have hi := runs_asm i (ip + 3) .text (h + { parked := 1 })
      have hset {ip : Nat} : Runs ip (Asm.plain [.setVarArray]) h h := .op rfl rfl h
      exact ((Runs.element name hi).append hset).append (.loadVar hw h)
  | assign _ name none value, ip, want, h => by
    have hkind := value.storedAs_ne_none
    have hv := runs_asm value ip value.storedAs h
    have hname {ip : Nat} : Runs ip [⟨.setVarCreate, [.ident name]⟩]
        (h + value.storedAs.height) (h + value.storedAs.height) :=
      .single rfl rfl (h + value.storedAs.height)
    exact ((hv.append hname).append (.saveVar hkind h)).append (.convert hkind want h)
  | assign _ name (some i) value, ip, want, h => by
    have hkind := value.storedAs_ne_none
    have hv := runs_asm value ip value.storedAs h
    have hset {ip : Nat} (h : Heights) : Runs ip (Asm.plain [.setVarArrayCreate]) h h :=
      .op rfl rfl h
    refine Runs.append (Runs.append (Runs.append hv ?_) (.saveVar hkind h)) (.convert hkind want h)
    rw [total_asm]
    by_cases htext : value.storedAs = .text
    · rw [if_pos htext]
      have hi := runs_asm i (ip + value.size value.storedAs + 4) .text
        (h + value.storedAs.height + { parked := 1 } + { parked := 1 })
      have hadvance : Runs (ip + value.size value.storedAs) [⟨.advance, []⟩]
        (h + value.storedAs.height) (h + value.storedAs.height + { parked := 1 }) :=
        .single rfl rfl (h + value.storedAs.height)
      have hback {ip : Nat} : Runs ip (Asm.plain [.terminateRewind])
        (h + value.storedAs.height + { parked := 1 }) (h + value.storedAs.height) :=
        .op rfl rfl (h + value.storedAs.height)
      exact (hadvance.cons (Runs.element name hi)).append ((hset _).cons hback)
    · rw [if_neg htext]
      have hi := runs_asm i (ip + value.size value.storedAs + 3) .text
        (h + value.storedAs.height + { parked := 1 })
      exact (Runs.element name hi).append (hset _)
  | update _ name none op value, ip, want, h => by
    have hkind := op.operands_ne_none
    have hv := runs_asm value ip op.operands h
    have hname {ip : Nat} : Runs ip [⟨.setVarCreate, [.ident name]⟩]
        (h + op.operands.height) (h + op.operands.height) :=
      .single rfl rfl (h + op.operands.height)
    exact ((hv.append hname).append (.updateVar op h)).append (.convert hkind want h)
  | update _ name (some i) op value, ip, want, h => by
    have hkind := op.operands_ne_none
    have hv := runs_asm value ip op.operands h
    have hi := runs_asm i (ip + value.size op.operands + 3) .text
      (h + op.operands.height + { parked := 1 })
    have hset {ip : Nat} : Runs ip (Asm.plain [.setVarArrayCreate]) (h + op.operands.height)
        (h + op.operands.height) := .op rfl rfl (h + op.operands.height)
    have helement := (Runs.element name hi).append hset
    exact ((hv.append (helement.cast (by rw [total_asm]))).append (.updateVar op h)).append
      (.convert hkind want h)
  | arith _ op left right, ip, want, h => by
    have hr := runs_asm right ip .float h
    have hl := runs_asm left (ip + right.size .float) .float (h + Demand.float.height)
    exact ((hr.append (hl.cast (by rw [total_asm]))).append (.updateOp (.arith op) h)).append
      (.convert (by decide) want h)
  | wordArith _ op left right, ip, want, h => by
    have hr := runs_asm right ip .int h
    have hl := runs_asm left (ip + right.size .int) .int (h + Demand.int.height)
    exact ((hr.append (hl.cast (by rw [total_asm]))).append (.updateOp (.word op) h)).append
      (.convert (by decide) want h)
  | compare _ op left right, ip, want, h => by
    have hr := runs_asm right ip .float h
    have hl := runs_asm left (ip + right.size .float) .float (h + Demand.float.height)
    have hop {ip : Nat} : Runs ip (Asm.plain [op.opcode])
        (h + Demand.float.height + Demand.float.height) (h + Demand.int.height) := by
      cases op <;> exact .op rfl rfl h
    exact ((hr.append (hl.cast (by rw [total_asm]))).append hop).append
      (.convert (by decide) want h)
  | logic _ op left right, ip, want, h => by
    have hl := runs_asm left ip .int h
    have hr := runs_asm right (ip + left.size .int + 2) .int h
    have hop : (if op = .or then Opcode.jumpIfKeep else .jumpUnlessKeep) = .jumpUnlessKeep ∨
        (if op = .or then Opcode.jumpIfKeep else .jumpUnlessKeep) = .jumpIfKeep := by
      cases op <;> decide
    exact (Runs.shortcut hop hl (hr.cast (by rw [total_asm])) (by rw [total_asm, total_asm])).append
      (.convert (by decide) want h)
  | textEq _ equal left right, ip, want, h => by
    have hl := runs_asm left ip .text h
    have hr := runs_asm right (ip + left.size .text + 1) .text (h + { parked := 1 })
    have hadvance {ip : Nat} : Runs ip (Asm.plain [.advanceNul]) h (h + { parked := 1 }) :=
      .op rfl rfl h
    have hcompare {ip : Nat} : Runs ip (Asm.plain [.compareText]) (h + { parked := 1 })
        (h + Demand.int.height) := .op rfl rfl h
    have hnot {ip : Nat} : Runs ip (if equal then [] else Asm.plain [.not]) (h + Demand.int.height)
        (h + Demand.int.height) := by
      cases equal with
      | true => exact .nil
      | false => exact .op rfl rfl h
    exact ((((hl.append hadvance).append (hr.cast (by simp [Nat.add_assoc]))).append
      hcompare).append hnot).append (.convert (by decide) want h)
  | concat _ left right separator, ip, want, h => by
    have hl := runs_asm left ip .text h
    have hrewind {ip : Nat} : Runs ip (Asm.plain [.rewind]) (h + { parked := 1 }) h := .op rfl rfl h
    refine ((hl.append ?_).append hrewind).append (.convert (by decide) want h)
    rw [total_asm]
    cases separator with
    | none =>
      have hr := runs_asm right (ip + left.size .text + 1) .text (h + { parked := 1 })
      have hadvance : Runs (ip + left.size .text) [⟨.advance, []⟩] h (h + { parked := 1 }) :=
        .single rfl rfl h
      exact hadvance.cons hr
    | space | tab | newline =>
      have hr := runs_asm right (ip + left.size .text + 2) .text (h + { parked := 1 })
      have hadvance (b : UInt8) : Runs (ip + left.size .text) [⟨.advanceChar, [.word b.toUInt32]⟩] h
        (h + { parked := 1 }) := .single rfl rfl h
      exact (hadvance _).cons hr
  | indexPair _ left right, ip, want, h => by
    have hl := runs_asm left ip .text h
    have hr := runs_asm right (ip + left.size .text + 1) .text (h + { parked := 1 })
    have hadvance {ip : Nat} : Runs ip (Asm.plain [.advanceComma]) h (h + { parked := 1 }) :=
      .op rfl rfl h
    have hrewind {ip : Nat} : Runs ip (Asm.plain [.rewind]) (h + { parked := 1 }) h := .op rfl rfl h
    exact (((hl.append hadvance).append (hr.cast (by simp [Nat.add_assoc]))).append hrewind).append
      (.convert (by decide) want h)
  | unary _ op x, ip, want, h => by
    have hx := runs_asm x ip (operandOf op x) h
    refine (hx.append ?_).append (.convert (resultOf_ne_none op) want h)
    cases op with
    | neg | complement => exact .op rfl rfl h
    | not =>
      simp only [operandOf, negatedAs]
      split
      · exact .op rfl rfl h
      · exact .op rfl rfl h
  | cond _ test whenTrue whenFalse, ip, want, h => by
    have htest := runs_asm test ip test.testedAs h
    have htrue := runs_asm whenTrue (ip + test.size test.testedAs + 2) want h
    have hfalse := runs_asm whenFalse
      (ip + test.size test.testedAs + 2 + whenTrue.size want + 2) want h
    exact Runs.choice test.testedAs_int_or_float htest (htrue.cast (by rw [total_asm])) hfalse
      (by rw [total_asm, total_asm]) (by rw [total_asm])
  | call _ name ns kind args, ip, want, h => by
    have hframe : Runs ip [⟨.pushFrame, []⟩] h (h + { args := 1 }) := .single rfl rfl h
    have hargs := runs_asmArgs args (ip + 1) h
    have hcall {ip : Nat} : Runs ip [⟨.callFunc, [.ident name, .ident? ns, .word kind.word]⟩]
        (h + { args := 1 }) h := .single rfl rfl h
    exact ((hframe.cons hargs).append hcall).append (.convert (by decide) want h)
  | slot _ obj field none, ip, want, h => by
    by_cases hw : want = .none
    · subst hw
      exact .nil
    · simp only [asm, if_neg hw]
      have hobj := runs_asm obj ip .text h
      have hselect {ip : Nat} : Runs ip (selectAsm .setObject field) h h := .select (.op rfl rfl h)
      exact (hobj.append hselect).append (.loadField hw h)
  | slot _ obj field (some i), ip, want, h => by
    by_cases hw : want = .none
    · subst hw
      exact .nil
    · simp only [asm, if_neg hw]
      have hi := runs_asm i ip .text h
      have hobj := runs_asm obj (ip + i.size .text + 1) .text (h + { parked := 1 })
      have hselect (ip : Nat) : Runs ip (selectAsm .setObject field) (h + { parked := 1 })
          (h + { parked := 1 }) := .select (.op rfl rfl (h + { parked := 1 }))
      have hindexed := Runs.indexed hi (hobj.cast (by rw [total_asm])) hselect
      have hload := hindexed.append (.loadField hw h)
      simpa [Asm.plain] using hload
  | slotAssign _ obj field none value, ip, want, h => by
    have hv := runs_asm value ip .text h
    have hadvance {ip : Nat} : Runs ip (Asm.plain [.advance]) h (h + { parked := 1 }) :=
      .op rfl rfl h
    have hobj := runs_asm obj (ip + value.size .text + 1) .text (h + { parked := 1 })
    have hselect {ip : Nat} : Runs ip (selectAsm .setObject field) (h + { parked := 1 })
        (h + { parked := 1 }) := .select (.op rfl rfl (h + { parked := 1 }))
    have hback {ip : Nat} : Runs ip (Asm.plain [.terminateRewind]) (h + { parked := 1 }) h :=
      .op rfl rfl h
    have hsave {ip : Nat} : Runs ip (Asm.plain [.saveFieldText]) h h := .op rfl rfl h
    have hobject := (hobj.append hselect).cast
      (show ip + Asm.total (value.asm ip .text ++ Asm.plain [.advance]) = _ by simp [Nat.add_assoc])
    exact (((hv.append hadvance).append hobject).append (hback.cons hsave)).append
      (.convert (by decide) want h)
  | slotAssign _ obj field (some i) value, ip, want, h => by
    have hv := runs_asm value ip .text h
    have hadvance {ip : Nat} : Runs ip (Asm.plain [.advance]) h (h + { parked := 1 }) :=
      .op rfl rfl h
    have hi := runs_asm i (ip + value.size .text + 1) .text (h + { parked := 1 })
    have hobj := runs_asm obj (ip + value.size .text + 1 + i.size .text + 1) .text
      (h + { parked := 1 } + { parked := 1 })
    have hselect (ip : Nat) : Runs ip (selectAsm .setObject field)
        (h + { parked := 1 } + { parked := 1 }) (h + { parked := 1 } + { parked := 1 }) :=
      .select (.op rfl rfl (h + { parked := 1 } + { parked := 1 }))
    have hback {ip : Nat} : Runs ip (Asm.plain [.terminateRewind]) (h + { parked := 1 }) h :=
      .op rfl rfl h
    have hsave {ip : Nat} : Runs ip (Asm.plain [.saveFieldText]) h h := .op rfl rfl h
    have hobject := (Runs.indexed hi (hobj.cast (by rw [total_asm])) hselect).cast
      (show ip + Asm.total (value.asm ip .text ++ Asm.plain [.advance]) = _ by simp [Nat.add_assoc])
    exact (((hv.append hadvance).append hobject).append (hback.cons hsave)).append
      (.convert (by decide) want h)
  | slotUpdate _ obj field none op value, ip, want, h => by
    have hv := runs_asm value ip op.operands h
    have hobj := runs_asm obj (ip + value.size op.operands) .text (h + op.operands.height)
    have hselect {ip : Nat} : Runs ip (selectAsm .setObject field) (h + op.operands.height)
        (h + op.operands.height) := .select (.op rfl rfl (h + op.operands.height))
    have hobject := (hobj.append hselect).cast
      (show ip + Asm.total (value.asm ip op.operands) = _ by rw [total_asm])
    exact ((hv.append hobject).append (.updateField op h)).append
      (.convert op.operands_ne_none want h)
  | slotUpdate _ obj field (some i) op value, ip, want, h => by
    have hv := runs_asm value ip op.operands h
    have hi := runs_asm i (ip + value.size op.operands) .text (h + op.operands.height)
    have hobj := runs_asm obj (ip + value.size op.operands + i.size .text + 1) .text
      (h + op.operands.height + { parked := 1 })
    have hselect (ip : Nat) : Runs ip (selectAsm .setObject field)
        (h + op.operands.height + { parked := 1 }) (h + op.operands.height + { parked := 1 }) :=
      .select (.op rfl rfl (h + op.operands.height + { parked := 1 }))
    have hobject := (Runs.indexed hi (hobj.cast (by rw [total_asm])) hselect).cast
      (show ip + Asm.total (value.asm ip op.operands) = _ by rw [total_asm])
    exact ((hv.append hobject).append (.updateField op h)).append
      (.convert op.operands_ne_none want h)
  | object decl, ip, want, h => by
    have hzero : Runs ip [⟨.loadInt, [.word 0]⟩] h (h + { ints := 1 }) := .single rfl rfl h
    have hobj := runs_asmObject decl (ip + 2) true h
    have hfinish {ip : Nat} : Runs ip (Asm.plain [.finishObject]) (h + { ints := 1 })
        (h + { ints := 1 }) := .op rfl rfl (h + { ints := 1 })
    exact ((hzero.cons hobj).append hfinish).append (.convert (by decide) want h)

theorem runs_asmArgs : ∀ (args : List Expr) (ip : Nat) (h : Heights),
    Runs ip (asmArgs args ip) (h + { args := 1 }) (h + { args := 1 })
  | [], _, _ => .nil
  | a :: as, ip, h => by
    have ha := runs_asm a ip .text (h + { args := 1 })
    have hpush {ip : Nat} : Runs ip (Asm.plain [.push]) (h + { args := 1 }) (h + { args := 1 }) :=
      .op rfl rfl h
    have has := runs_asmArgs as (ip + a.size .text + 1) h
    exact (ha.append hpush).append (has.cast (by simp [Nat.add_assoc]))

theorem runs_asmField : ∀ (f : FieldInit) (ip : Nat) (h : Heights),
    Runs ip (asmField f ip) (h + { objects := 1 }) (h + { objects := 1 })
  | .mk _ field none value, ip, h => by
    have hv := runs_asm value ip .text (h + { objects := 1 })
    have hadvance {ip : Nat} : Runs ip (Asm.plain [.advance]) (h + { objects := 1 })
        (h + { objects := 1 } + { parked := 1 }) := .op rfl rfl (h + { objects := 1 })
    have hselect {ip : Nat} : Runs ip (selectAsm .setObjectNew field)
        (h + { objects := 1 } + { parked := 1 }) (h + { objects := 1 } + { parked := 1 }) :=
      .select (.op rfl rfl (h + { parked := 1 }))
    exact ((hv.append hadvance).append hselect).append (.initField h)
  | .mk _ field (some i) value, ip, h => by
    have hv := runs_asm value ip .text (h + { objects := 1 })
    have hadvance {ip : Nat} : Runs ip (Asm.plain [.advance]) (h + { objects := 1 })
        (h + { objects := 1 } + { parked := 1 }) := .op rfl rfl (h + { objects := 1 })
    have hi := runs_asm i (ip + value.size .text + 1) .text
      (h + { objects := 1 } + { parked := 1 })
    have hselect (ip : Nat) : Runs ip (selectAsm .setObjectNew field)
        (h + { objects := 1 } + { parked := 1 } + { parked := 1 })
        (h + { objects := 1 } + { parked := 1 } + { parked := 1 }) :=
      .select (.op rfl rfl (h + { parked := 1 } + { parked := 1 }))
    have hnone {ip : Nat} : Runs ip [] (h + { objects := 1 } + { parked := 1 } + { parked := 1 })
        (h + { objects := 1 } + { parked := 1 } + { parked := 1 }) := .nil
    have hobject := (Runs.indexed hi hnone hselect).cast
      (show ip + Asm.total (value.asm ip .text ++ Asm.plain [.advance]) = _ by simp [Nat.add_assoc])
    rw [List.append_nil] at hobject
    exact ((hv.append hadvance).append hobject).append (.initField h)

theorem runs_asmFields : ∀ (fs : List FieldInit) (ip : Nat) (h : Heights),
    Runs ip (asmFields fs ip) (h + { objects := 1 }) (h + { objects := 1 })
  | [], _, _ => .nil
  | f :: fs, ip, h => by
    have hf := runs_asmField f ip h
    have hfs := runs_asmFields fs (ip + fieldSize f) h
    exact hf.append (hfs.cast (by rw [total_asmField]))

theorem runs_asmObject : ∀ (d : ObjectDecl) (ip : Nat) (root : Bool) (h : Heights),
    Runs ip (asmObject d ip root) (h + { ints := 1 }) (h + { ints := 1 })
  | .mk pos className objectName copyFrom args datablock fields children, ip, root, h => by
    let atName := ip + 1 + className.size .text + 1
    let atArgs := atName + objectName.size .text + 1
    let atFields := atArgs + argsSize args + 4
    let atChildren := atFields + fieldsSize fields + 2
    have hframe : Runs ip [⟨.pushFrame, []⟩] (h + { ints := 1 })
        (h + { ints := 1 } + { args := 1 }) := .single rfl rfl (h + { ints := 1 })
    have hpush {ip : Nat} : Runs ip (Asm.plain [.push]) (h + { ints := 1 } + { args := 1 })
        (h + { ints := 1 } + { args := 1 }) := .op rfl rfl (h + { ints := 1 })
    have hclass := runs_asm className (ip + 1) .text (h + { ints := 1 } + { args := 1 })
    have hname := runs_asm objectName atName .text (h + { ints := 1 } + { args := 1 })
    have hargs := runs_asmArgs args atArgs (h + { ints := 1 })
    have hfields := runs_asmFields fields atFields (h + { ints := 1 })
    have hchildren : Runs atChildren (asmChildren children atChildren)
        (h + added root + { objects := 1 }) (h + added root + { objects := 1 }) := by
      cases root with
      | true => exact runs_asmChildren children atChildren (h + { objects := 1 })
      | false => exact runs_asmChildren children atChildren (h + { ints := 1, objects := 1 })
    have hbefore := (((hframe.cons (hclass.append hpush)).append
      (hname.cast (by simp [Asm.size, atName]; omega))).append hpush).append
      (hargs.cast (by simp [Asm.size, atArgs, atName]; omega))
    have hafter := ((hfields.append (.addObject root)).append (hchildren.cast (by
      simp [Asm.size, atChildren, Nat.add_assoc]))).append (.endObject root)
    have hobject := Runs.attempt copyFrom (flagWord datablock) hbefore
      (hafter.cast (by simp [Asm.size, atFields, atArgs, atName]; omega))
      (show _ = ip + objectSize
        (.mk pos className objectName copyFrom args datablock fields children) by
        simp [Asm.size, objectSize]
        omega)
    simpa [asmObject] using hobject

theorem runs_asmChildren : ∀ (cs : List ObjectDecl) (ip : Nat) (h : Heights),
    Runs ip (asmChildren cs ip) (h + { ints := 1 }) (h + { ints := 1 })
  | [], _, _ => .nil
  | c :: cs, ip, h => by
    have hc := runs_asmObject c ip false h
    have hcs := runs_asmChildren cs (ip + objectSize c) h
    exact hc.append (hcs.cast (by rw [total_asmObject]))

end

end Expr

end ConsoleScript
