import ConsoleScript.Proofs.Console.Assignments
import ConsoleScript.Proofs.Console.Weaving

/-!
# Expressions without side effects

An expression may have any code, calls included. That it has no side effects is said of the
consoles it may be evaluated in: there are some that it does not lead out of, and that it cannot
tell apart. Reading a variable is of that sort, although it adds the name of the variable to the
names of the console.
-/

namespace ConsoleScript

/-! ## Values that are yielded -/

/-- Where expressions are evaluated: a unit, the scope of local variables, and consoles. -/
structure Surroundings where
  unit : CodeUnit
  literals : Literals
  block : BlockId
  scope : ScopeId
  consoles : Console → Prop

/-- The machine may have come to a position. Its stacks are the same, but not what it has in its
registers. -/
def Machine.Arrives (m : Machine) (ip : Nat) (m' : Machine) : Prop :=
  ∃ text var object field fieldIndex, m' =
    { m with ip := ipWord ip, text, var, object, field, fieldIndex }

namespace Machine.Arrives

variable {m m₁ m₂ : Machine} {ip ip' : Nat}

theorem ip_eq (h : m.Arrives ip m₁) : m₁.ip = ipWord ip := by
  obtain ⟨_, _, _, _, _, rfl⟩ := h
  rfl

theorem scope_eq (h : m.Arrives ip m₁) : m₁.scope = m.scope := by
  obtain ⟨_, _, _, _, _, rfl⟩ := h
  rfl

theorem trans (h₁ : m.Arrives ip m₁) (h₂ : m₁.Arrives ip' m₂) : m.Arrives ip' m₂ := by
  obtain ⟨_, _, _, _, _, rfl⟩ := h₁
  obtain ⟨_, _, _, _, _, rfl⟩ := h₂
  exact ⟨_, _, _, _, _, rfl⟩

theorem here (hm : m.ip = ipWord ip) : m.Arrives ip m :=
  ⟨m.text, m.var, m.object, m.field, m.fieldIndex, by rw [← hm]⟩

theorem goto (m : Machine) (ip : Nat) : m.Arrives ip (m.goto (ipWord ip)) := ⟨_, _, _, _, _, rfl⟩

theorem of_pushFloat {f : Float} (h : (m.pushFloat f).Arrives ip m₁) :
    ∃ m₂, m.Arrives ip m₂ ∧ m₁ = m₂.pushFloat f := by
  obtain ⟨text, var, object, field, fieldIndex, rfl⟩ := h
  exact ⟨_, ⟨text, var, object, field, fieldIndex, rfl⟩, rfl⟩

end Machine.Arrives

open Activation

/-- From here the machine comes to position `ip` with a value, in one of the consoles. -/
def Yields (q : Surroundings) (s : Activation) (ip : Nat) (want : Demand) (v : want.Carrier) : Prop :=
  ∃ m c, s.1.Arrives ip m ∧ q.consoles c ∧ Steps q.unit q.block s (want.put v m, c)

/-- Evaluating the expression has no side effects that the consoles show, and always gives the same
value. -/
def Expr.Quiet (q : Surroundings) (x : Expr) (want : Demand) (v : want.Carrier) : Prop :=
  ∀ (ip : Nat) (m : Machine) (c : Console), Asm.Loaded q.unit q.literals ip (x.asm ip want) →
    m.ip = ipWord ip → m.scope = q.scope → q.consoles c →
    Yields q (m, c) (ip + x.size want) want v

theorem Activation.Next.step {u : CodeUnit} {block : BlockId} {s t : Activation}
    (h : Next u block s t) : Step u block s t := ⟨0, Next.move h 0⟩

/-- A run of moves that ask for nothing is a run of moves of any sort that these are of. -/
theorem Activation.Moves.chain {u : CodeUnit} {block : BlockId} {k : Nat} {s t : Activation}
    {R : Activation → Activation → Prop} (h : Moves u block k s t)
    (hR : ∀ {s t : Activation}, Next u block s t → R s t) : Relation.ReflTransGen R s t := by
  obtain ⟨n, -, htakes⟩ := h
  induction n generalizing s with
  | zero => exact htakes ▸ .refl
  | succ n ih =>
    obtain ⟨r, hnext, hrest⟩ := htakes
    exact .head (hR hnext) (ih hrest)

theorem Activation.Moves.steps {u : CodeUnit} {block : BlockId} {k : Nat} {s t : Activation}
    (h : Moves u block k s t) : Steps u block s t := h.chain Next.step

namespace Yields

variable {q : Surroundings} {m m' : Machine} {c c' : Console} {ip ip' : Nat} {want : Demand}
  {v : want.Carrier}

theorem start (hm : m.ip = ipWord ip) (hc : q.consoles c) : Yields q (m, c) ip .none () :=
  ⟨m, c, .here hm, hc, .refl⟩

theorem of_arrives (hm : m.Arrives ip m') (hsteps : Steps q.unit q.block (m, c) (m', c'))
    (h : Yields q (m', c') ip' want v) : Yields q (m, c) ip' want v := by
  obtain ⟨m₁, c₁, harrives, hc, hrest⟩ := h
  exact ⟨m₁, c₁, hm.trans harrives, hc, hsteps.trans hrest⟩

end Yields

namespace Expr.Quiet

variable {q : Surroundings} {x y : Expr}

/-- Two numbers are compared, the right one made first. -/
theorem compare {a b : Float} (hx : x.Quiet q .float a) (hy : y.Quiet q .float b)
    (op : CompareOp) (pos : Position) :
    (Expr.compare pos op x y).Quiet q .int (Machine.ofBool (op.apply a b)) := by
  intro ip m c hl hm hscope hc
  simp only [asm] at hl
  obtain ⟨m₁, c₁, harrives₁, hc₁, hsteps₁⟩ := hy ip m c hl.left.left.left hm hscope hc
  have hleftAt := hl.left.left.right.cast (show _ = ip + y.size .float by rw [total_asm])
  obtain ⟨m₂', c₂, harrives₂, hc₂, hsteps₂⟩ := hx _ (m₁.pushFloat b) c₁ hleftAt harrives₁.ip_eq
    (harrives₁.scope_eq.trans hscope) hc₁
  obtain ⟨m₂, harrives, rfl⟩ := harrives₂.of_pushFloat
  have hopAt : Asm.Stored q.unit q.literals (ip + y.size .float + x.size .float)
    (Asm.plain [op.opcode]) := hl.left.right.toStored.cast (by simp [Nat.add_assoc])
  have hcompare : Next q.unit q.block ((m₂.pushFloat b).pushFloat a, c₂)
      (({ m₂ with ip := ipWord (ip + y.size .float + x.size .float + 1) } : Machine).pushInt
        (Machine.ofBool (op.apply a b)), c₂) :=
    .of_execute hopAt harrives.ip_eq (by cases op <;> rfl)
  refine ⟨_, c₂, ?_, hc₂, (hsteps₁.trans hsteps₂).tail hcompare.step⟩
  have hsize : ip + size (.compare pos op x y) .int = ip + y.size .float + x.size .float + 1 := by
    simp only [size, Demand.convertSize, if_true]
    omega
  rw [hsize]
  exact harrives₁.trans (harrives.trans (.goto m₂ _))

/-- Two texts are compared, the left one made first. -/
theorem textEq {a b : Text} (hx : x.Quiet q .text a) (hy : y.Quiet q .text b) (pos : Position) :
    (Expr.textEq pos true x y).Quiet q .int (Machine.ofBool (Text.equalFold a b)) := by
  intro ip m c hl hm hscope hc
  simp only [asm] at hl
  obtain ⟨m₁, c₁, harrives₁, hc₁, hsteps₁⟩ := hx ip m c hl.left.left.left.left.left hm hscope hc
  have hadvanceAt : Asm.Stored q.unit q.literals (ip + x.size .text) (Asm.plain [.advanceNul]) :=
    hl.left.left.left.left.right.toStored.cast (by simp)
  have hrightAt := hl.left.left.left.right.cast
    (show _ = ip + x.size .text + 1 by simp [Nat.add_assoc])
  have hcompareAt : Asm.Stored q.unit q.literals (ip + x.size .text + 1 + y.size .text)
    (Asm.plain [.compareText]) := hl.left.left.right.toStored.cast (by simp [Nat.add_assoc])
  obtain ⟨t₁, var₁, object₁, field₁, index₁, rfl⟩ := harrives₁
  let m₁ : Machine := { m with
    ip := ipWord (ip + x.size .text), text := a, var := var₁, object := object₁, field := field₁,
    fieldIndex := index₁ }
  let m₂ : Machine := { m₁ with
    ip := ipWord (ip + x.size .text + 1), text := [], parked := a :: m.parked }
  have hadvance : Next q.unit q.block (m₁, c₁) (m₂, c₁) := .of_execute hadvanceAt rfl rfl
  obtain ⟨_, c₂, harrives₂, hc₂, hsteps₂⟩ := hy _ m₂ c₁ hrightAt rfl hscope hc₁
  obtain ⟨t₂, var₂, object₂, field₂, index₂, rfl⟩ := harrives₂
  refine ⟨_, c₂, ?_, hc₂, ((hsteps₁.tail hadvance.step).trans hsteps₂).tail
    (Next.of_execute hcompareAt rfl rfl).step⟩
  have hsize : ip + size (.textEq pos true x y) .int
      = ip + x.size .text + 1 + y.size .text + 1 := by
    simp only [size, Demand.convertSize, if_true]
    omega
  rw [hsize]
  exact ⟨_, _, _, _, _, rfl⟩

theorem or {b b' : Bool} (hx : x.Quiet q .int (Machine.ofBool b))
    (hy : y.Quiet q .int (Machine.ofBool b')) (pos : Position) :
    (Expr.logic pos .or x y).Quiet q .int (Machine.ofBool (b || b')) := by
  intro ip m c hl hm hscope hc
  simp only [asm] at hl
  have hsize : ip + size (.logic pos .or x y) .int = ip + x.size .int + 2 + y.size .int := by
    simp only [size, Demand.convertSize, if_true]
    omega
  rw [hsize]
  obtain ⟨m₁, c₁, harrives₁, hc₁, hsteps₁⟩ := hx ip m c hl.left.left.left hm hscope hc
  have hjumpAt := hl.left.left.right.toStored.cast
    (show _ = ip + x.size .int by rw [total_asm])
  have hrightAt := hl.left.right.cast
    (show _ = ip + x.size .int + 2 by simp [Asm.size, Nat.add_assoc])
  have hjump : Next q.unit q.block (m₁.pushInt (Machine.ofBool b), c₁)
      (if LogicOp.or.decides (Machine.ofBool b)
        then (m₁.goto (ipWord (ip + x.size .int + 2 + y.size .int))).pushInt (Machine.ofBool b)
        else m₁.goto (ipWord (ip + x.size .int + 2)), c₁) :=
    .jumpKeep _ hjumpAt harrives₁.ip_eq c₁
  cases b with
  | true => exact ⟨_, c₁, harrives₁.trans (.goto m₁ _), hc₁, hsteps₁.tail hjump.step⟩
  | false =>
    exact .of_arrives (harrives₁.trans (.goto m₁ _)) (hsteps₁.tail hjump.step)
      (hy _ _ c₁ hrightAt rfl (harrives₁.scope_eq.trans hscope) hc₁)

end Expr.Quiet

/-! ## Expressions that only read -/

def Console.Rereads (c c' : Console) : Prop :=
  ∃ names, c' = { c with names := names } ∧ names.Consistent ∧
    ∀ n s, c.names.Spells n s → names.Spells n s

/-- The names are in order, and those of all variables are among them. -/
structure Console.NamesVariables (c : Console) : Prop where
  consistent : c.names.Consistent
  knows : ∀ id n r, c.scopes.find? id (some n) = some r → c.names.Knows n

namespace Console

variable {c c' : Console}

theorem NamesVariables.rereads (h : c.NamesVariables) : c.Rereads c :=
  ⟨c.names, rfl, h.consistent, fun _ _ hs => hs⟩

theorem namesVariables_empty (buckets : Int) (depth : Nat) :
    NamesVariables { scopes := .ofBuckets buckets, maxCallDepth := depth } where
  consistent := NameTable.consistent_empty
  knows id n r h := by cases id <;> cases h

theorem Rereads.intern (h : c.Rereads c') (t : Text) : c.Rereads (c'.intern t).2 := by
  obtain ⟨names, rfl, hconsistent, hspells⟩ := h
  exact ⟨(names.intern t).2, rfl, hconsistent.intern t, fun n s hs => (hspells n s hs).intern t⟩

theorem Rereads.find_eq (h : c.Rereads c') (hc : c.NamesVariables) (scope : ScopeId) (t : Text) :
    (Eval.find scope (c'.names.find? t) c').1 = (Eval.find scope (c.names.find? t) c).1 := by
  obtain ⟨names, rfl, hconsistent, hspells⟩ := h
  show (names.find? t).bind _ = (c.names.find? t).bind _
  cases hold : c.names.find? t with
  | some n =>
    obtain ⟨s, hs, hlower⟩ := (hc.consistent _ n).mp hold
    have hnew : names.find? t = some n := (hconsistent _ n).mpr ⟨s, hspells n s hs, hlower⟩
    have hglobal : Machine.isGlobal names n = Machine.isGlobal c.names n := by
      rw [Machine.isGlobal, Machine.isGlobal, (hspells n s hs).text_eq, hs.text_eq]
    rw [hnew, Option.bind_some, Option.bind_some, Eval.scopeOf, Eval.scopeOf, hglobal]
  | none =>
    rw [Option.bind_none]
    cases hnew : names.find? t with
    | none => rfl
    | some n =>
      -- The name is new, so no variable has it.
      rw [Option.bind_some]
      cases hfind : c.scopes.find? (Eval.scopeOf scope names n) (some n) with
      | none => rfl
      | some r =>
        obtain ⟨s, hs⟩ := hc.knows _ n r hfind
        obtain ⟨s', hs', hlower⟩ := (hconsistent _ n).mp hnew
        obtain rfl : s' = s := hs'.text_eq.symm.trans (hspells n s hs).text_eq
        have hknown := (hc.consistent (Text.lower t) n).mpr ⟨s', hs, hlower⟩
        rw [NameTable.find?] at hold
        rw [hold] at hknown
        cases hknown

end Console

namespace Eval

variable {α β : Type} {c : Console} {e : Eval α} {f : α → Eval β}

/-- The evaluation gives the same again, whatever names were added before it, and adds names at
most. -/
def Repeats (c : Console) (e : Eval α) : Prop :=
  ∀ c', c.Rereads c' → (e c').1 = (e c).1 ∧ c.Rereads (e c').2

theorem Repeats.pure (a : α) : Repeats c (Pure.pure a : Eval α) := fun _ h => ⟨rfl, h⟩

theorem Repeats.bind (hc : c.NamesVariables) (he : Repeats c e) (hf : ∀ a, Repeats c (f a)) :
    Repeats c (e >>= f) := by
  intro c' h
  obtain ⟨hvalue, hnames⟩ := he c' h
  obtain ⟨hfirst, hrest⟩ := hf (e c).1 _ hnames
  have hagain := (hf (e c).1 _ (he c hc.rereads).2).1
  rw [bind_apply, bind_apply, hvalue, hfirst, hagain]
  exact ⟨rfl, hrest⟩

theorem Repeats.value (r : Option VarRef) : Repeats c (Eval.value r) := by
  rintro _ ⟨names, rfl, hrest⟩
  exact ⟨rfl, names, rfl, hrest⟩

theorem Repeats.known (hc : c.NamesVariables) (scope : ScopeId) (t : Text) :
    Repeats c (Eval.known t >>= Eval.find scope) := fun _ h => ⟨h.find_eq hc scope t, h⟩

theorem Repeats.intern (hc : c.NamesVariables) (scope : ScopeId) (t : Text) :
    Repeats c (Eval.intern t >>= Eval.find scope) := by
  intro c' h
  refine ⟨?_, h.intern t⟩
  have hsame := ((h.intern t).find_eq hc scope t).trans
    ((hc.rereads.intern t).find_eq hc scope t).symm
  show (Eval.find scope (c'.names.intern t).1 (c'.intern t).2).1
    = (Eval.find scope (c.names.intern t).1 (c.intern t).2).1
  have hself (c' : Console) (n : Name) (hn : (c'.names.intern t).1 = some n) :
      (c'.intern t).2.names.find? t = some n :=
    NameTable.find?_intern_self (Prod.ext hn rfl)
  by_cases ht : t = []
  · subst ht
    rfl
  · have hsome (c' : Console) : ∃ n, (c'.names.intern t).1 = some n := by
      obtain ⟨n, _, he⟩ := NameTable.exists_intern (t := c'.names) ht
      exact ⟨n, by rw [he]⟩
    obtain ⟨n', hn'⟩ := hsome c'
    obtain ⟨n, hn⟩ := hsome c
    rw [hself c' n' hn', hself c n hn] at hsame
    rw [hn', hn]
    exact hsame

end Eval

namespace Expr

variable {c : Console}

theorem repeats (hc : c.NamesVariables) (scope : ScopeId) : ∀ (x : Expr) (want : Demand),
    x.reads = true → x.callFree = true → (x.eval scope want).Repeats c
  | int .., _, _, _ | float .., _, _, _ | str .., _, _, _ | word .., _, _, _ => .pure _
  | var _ name none, want, _, _ => by
    rw [eval]
    split
    · exact .pure _
    · dsimp only
      rw [← bind_assoc]
      exact .bind hc (.intern hc scope name) fun r => .bind hc (.value r) fun _ => .pure _
  | var _ name (some i), want, hr, hx => by
    rw [eval]
    split
    · exact .pure _
    · dsimp only
      refine .bind hc (repeats hc scope i .text hr hx) fun t => ?_
      rw [← bind_assoc]
      exact .bind hc (.known hc scope _) fun r => .bind hc (.value r) fun _ => .pure _
  | arith _ _ left right, want, hr, hx | wordArith _ _ left right, want, hr, hx
  | compare _ _ left right, want, hr, hx => by
    simp only [reads, callFree, Bool.and_eq_true] at hr hx
    rw [eval]
    exact .bind hc (repeats hc scope right _ hr.2 hx.2) fun b =>
      .bind hc (repeats hc scope left _ hr.1 hx.1) fun a => .pure _
  | textEq _ _ left right, want, hr, hx | concat _ left right _, want, hr, hx
  | indexPair _ left right, want, hr, hx => by
    simp only [reads, callFree, Bool.and_eq_true] at hr hx
    rw [eval]
    exact .bind hc (repeats hc scope left _ hr.1 hx.1) fun a =>
      .bind hc (repeats hc scope right _ hr.2 hx.2) fun b => .pure _
  | logic _ op left right, want, hr, hx => by
    simp only [reads, callFree, Bool.and_eq_true] at hr hx
    rw [eval]
    refine .bind hc (repeats hc scope left _ hr.1 hx.1) fun a => ?_
    split
    · exact .pure _
    · exact .bind hc (repeats hc scope right _ hr.2 hx.2) fun b => .pure _
  | unary _ op x, want, hr, hx => by
    cases op <;> rw [eval] <;>
      exact .bind hc (repeats hc scope x _ hr hx) fun a => .pure _
  | cond _ test whenTrue whenFalse, want, hr, hx => by
    simp only [reads, callFree, Bool.and_eq_true] at hr hx
    rw [eval]
    refine .bind hc (repeats hc scope test _ hr.1.1 hx.1.1) fun a => ?_
    split
    · exact repeats hc scope whenFalse want hr.2 hx.2
    · exact repeats hc scope whenTrue want hr.1.2 hx.1.2
  | assign .., _, hr, _ | update .., _, hr, _ | call .., _, hr, _ | slotAssign .., _, hr, _
  | slotUpdate .., _, hr, _ | object _, _, hr, _ => by cases hr
  | slot .., _, _, hx => by cases hx

theorem quiet_of_reads {x : Expr} (hr : x.reads = true) (hx : x.callFree = true)
    (hc : c.NamesVariables) (u : CodeUnit) (l : Literals) (block : BlockId) (scope : ScopeId)
    (want : Demand) :
    x.Quiet ⟨u, l, block, scope, c.Rereads⟩ want (x.eval scope want c).1 := by
  intro ip m c' hl hm hscope hc'
  have hcomputes : Computes u block (ip + x.size want) m c' want (x.eval m.scope want c') :=
    x.computes ip want m c' hx hl hm
  obtain ⟨text, var, hmoves⟩ := hcomputes
  obtain ⟨hvalue, hnames⟩ := repeats hc scope x want hr hx c' hc'
  have hscope : m.scope = scope := hscope
  rw [hscope, hvalue] at hmoves
  exact ⟨_, _, ⟨text, var, m.object, m.field, m.fieldIndex, hscope ▸ rfl⟩, hnames, hmoves.steps⟩

end Expr

end ConsoleScript
