import ConsoleScript.Console.Exec
import Mathlib.Logic.Relation

/-!
# Activations

An activation goes on from instruction to instruction, with the console passing through calls on
the way. `Step` is one such move that does not fault, and `Run.loop` takes one after the other.
-/

namespace ConsoleScript

namespace Run

variable {α β : Type}

theorem bind_apply (x : Run α) (f : α → Run β) (c : Console) : (x >>= f) c =
    match x c with
    | .ok a c' => f a c'
    | .error e c' => .error e c' := by
  show EStateM.bind x f c = _
  unfold EStateM.bind
  cases x c <;> rfl

theorem map_apply (f : α → β) (x : Run α) (c : Console) : (f <$> x) c =
    match x c with
    | .ok a c' => .ok (f a) c'
    | .error e c' => .error e c' := by
  show EStateM.map f x c = _
  unfold EStateM.map
  cases x c <;> rfl

theorem bind_ok {x : Run α} {f : α → Run β} {c c₁ : Console} {a : α} (h : x c = .ok a c₁) :
    (x >>= f) c = f a c₁ := by
  show EStateM.bind x f c = _
  rw [EStateM.bind, h]

theorem bind_eq_ok {x : Run α} {f : α → Run β} {c c' : Console} {b : β} :
    (x >>= f) c = .ok b c' ↔ ∃ a c₁, x c = .ok a c₁ ∧ f a c₁ = .ok b c' := by
  show EStateM.bind x f c = _ ↔ _
  unfold EStateM.bind
  cases x c with
  | ok a c₁ =>
    constructor
    · intro h
      exact ⟨a, c₁, rfl, h⟩
    · rintro ⟨a', c₁', ⟨⟩, h⟩
      exact h
  | error e c₁ => simp

theorem pure_eq_ok {a b : α} {c c' : Console} :
    (pure a : Run α) c = .ok b c' ↔ a = b ∧ c = c' := by
  show EStateM.Result.ok a c = _ ↔ _
  simp

theorem ofExcept_eq_ok {x : Except Fault α} {a : α} {c c' : Console} :
    ofExcept x c = .ok a c' ↔ x = .ok a ∧ c = c' := by
  cases x with
  | ok b => simp [ofExcept, pure_eq_ok]
  | error f =>
    show EStateM.Result.error f c = _ ↔ _
    simp

end Run

namespace Machine

variable {u : CodeUnit} {block : BlockId} {m m' : Machine} {c c' : Console}

theorem step_eq {op : Opcode} (h : u.word m.ip = .ok op.word) :
    m.step u block c = execute u block op m.ip (m.skip 1) c := by
  have hword : Run.ofExcept (u.word m.ip) c = .ok op.word c := Run.ofExcept_eq_ok.mpr ⟨h, rfl⟩
  unfold step
  rw [Run.bind_ok hword, Opcode.ofWord?_word]

/-! ## Stacks that are not empty -/

theorem popInt_cons {i : Int64} {is : List Int64} (h : m.ints = i :: is) :
    m.popInt = (i, { m with ints := is }) := by
  simp [popInt, h]

theorem popFloat_cons {f : Float} {fs : List Float} (h : m.floats = f :: fs) :
    m.popFloat = (f, { m with floats := fs }) := by
  simp [popFloat, h]

theorem rewind_cons {t : Text} {ts : List Text} (h : m.parked = t :: ts) :
    m.rewind = (m.text, { m with text := t, parked := ts }) := by
  simp [rewind, h]

theorem popArgs_cons {a : List Text} {as : List (List Text)} (h : m.args = a :: as) :
    m.popArgs = (a, { m with args := as }) := by
  simp [popArgs, h]

theorem pushArg_cons {a : List Text} {as : List (List Text)} (h : m.args = a :: as) :
    m.pushArg = { m with args := (a ++ [m.text]) :: as } := by
  simp [pushArg, h]

theorem combineInts_cons {i j : Int64} {is : List Int64} (h : m.ints = i :: j :: is)
    (f : Int64 → Int64 → Int64) : m.combineInts f = { m with ints := f i j :: is } := by
  simp [combineInts, popInt, pushInt, h]

theorem combineFloats_cons {a b : Float} {fs : List Float} (h : m.floats = a :: b :: fs)
    (f : Float → Float → Float) : m.combineFloats f = { m with floats := f a b :: fs } := by
  simp [combineFloats, popFloat, pushFloat, h]

theorem compareFloats_cons {a b : Float} {fs : List Float} (h : m.floats = a :: b :: fs)
    (f : Float → Float → Bool) :
    m.compareFloats f = { m with floats := fs, ints := ofBool (f a b) :: m.ints } := by
  simp [compareFloats, popFloat, pushInt, h]

/-! ## What registers do -/

theorem findVar_eq_ok {n : Option Name} (h : m.findVar n c = .ok m' c') :
    ∃ v, m' = { m with var := v } := by
  simp only [findVar, Run.bind_eq_ok, Run.pure_eq_ok] at h
  obtain ⟨_, _, _, rfl, _⟩ := h
  exact ⟨_, rfl⟩

theorem createVar_eq_ok {n : Option Name} (h : m.createVar n c = .ok m' c') :
    ∃ v, m' = { m with var := v } := by
  cases n with
  | none =>
    obtain ⟨rfl, _⟩ := Run.pure_eq_ok.mp h
    exact ⟨_, rfl⟩
  | some n =>
    simp only [createVar, Run.bind_eq_ok, Run.pure_eq_ok] at h
    obtain ⟨_, _, _, rfl, _⟩ := h
    exact ⟨_, rfl⟩

end Machine

namespace Run

/-- One round of an activation's loop: an instruction and what it asks for. -/
def move (fuel : Nat) (u : CodeUnit) (block : BlockId) (m : Machine) : Run (Machine ⊕ Text) := do
  match ← m.step u block with
  | .next m => return .inl m
  | .done t => return .inr t
  | .call m call => return .inl (m.setText (← callEntry fuel call))
  | .register m r root =>
    registerObject fuel r
    return .inl (← m.placeObject r root)

/-- What an activation's loop does after a round. -/
def resume (fuel : Nat) (u : CodeUnit) (block : BlockId) : Option (Machine ⊕ Text) → Run Text
  | none => pure []
  | some (.inr t) => pure t
  | some (.inl m) => loop fuel u block m

/-- The loop makes moves until one ends the activation or faults. -/
theorem loop_succ (fuel : Nat) (u : CodeUnit) (block : BlockId) (m : Machine) (c : Console) :
    loop (fuel + 1) u block m c = match move fuel u block m c with
      | .ok (.inl m') c' => loop fuel u block m' c'
      | .ok (.inr t) c' => .ok t c'
      | .error .exhausted c' => .error .exhausted c'
      | .error f c' => .ok [] (c'.printLine
          (u.place m.ip ++ Text.ofString ": runtime fault: " ++ f.message)) := by
  have h : loop (fuel + 1) u block m =
      attempt u m.ip (move fuel u block m) >>= resume fuel u block := by
    rw [loop]
    rfl
  rw [h]
  show EStateM.bind _ _ c = _
  unfold EStateM.bind attempt
  rcases move fuel u block m c with ⟨_ | _, c'⟩ | ⟨f, c'⟩
  · rfl
  · rfl
  · cases f <;> rfl

end Run

/-- The machine that goes on after an instruction, whatever a call gives and whatever happens while
an object is registered. -/
inductive Progress.Follows : Progress → Machine → Prop
  | next (m : Machine) : Follows (.next m) m
  | call (m : Machine) (call : Call) (text : Text) : Follows (.call m call) (m.setText text)
  | register {m m' : Machine} {r : ObjectRef} {root : Bool} {c c' : Console}
    (h : m.placeObject r root c = .ok m' c') : Follows (.register m r root) m'

/-- A machine and the console it runs in. -/
abbrev Activation := Machine × Console

namespace Activation

variable {u : CodeUnit} {block : BlockId} {m : Machine} {c : Console} {s t : Activation}

def Step (u : CodeUnit) (block : BlockId) (s t : Activation) : Prop :=
  ∃ fuel, Run.move fuel u block s.1 s.2 = .ok (.inl t.1) t.2

/-- A run without faults, as far as it went. -/
def Steps (u : CodeUnit) (block : BlockId) : Activation → Activation → Prop :=
  Relation.ReflTransGen (Step u block)

theorem Step.follows {m' : Machine} {c' : Console} (h : Step u block (m, c) (m', c')) :
    ∃ p c₁, m.step u block c = .ok p c₁ ∧ p.Follows m' := by
  obtain ⟨fuel, h⟩ := h
  simp only [Run.move, Run.bind_eq_ok] at h
  obtain ⟨p, c₁, hstep, h⟩ := h
  refine ⟨p, c₁, hstep, ?_⟩
  cases p with
  | next m' =>
    obtain ⟨⟨⟩, -⟩ := Run.pure_eq_ok.mp h
    exact .next _
  | done text =>
    obtain ⟨⟨⟩, -⟩ := Run.pure_eq_ok.mp h
  | call m' call =>
    simp only [Run.bind_eq_ok, Run.pure_eq_ok, Sum.inl.injEq] at h
    obtain ⟨text, _, -, rfl, -⟩ := h
    exact .call _ _ _
  | register m' r root =>
    simp only [Run.bind_eq_ok, Run.pure_eq_ok, Sum.inl.injEq] at h
    obtain ⟨-, _, -, m₁, _, hplace, rfl, -⟩ := h
    exact .register hplace

end Activation

end ConsoleScript
