import ConsoleScript.Proofs.Console.Immediates
import ConsoleScript.Proofs.Console.ObjectTrees
import ConsoleScript.Proofs.Console.Quiet

/-!
# Code of object declarations

The code of a declaration has the numbers of the objects around it on the stack of integers and the
objects themselves on that of objects. Where an object cannot be made, the code of everything inside
it is jumped over, and both stacks are as they were; where it is made, what is declared inside it is
run with its number on top. So whatever fails, the machine comes to the end of the declaration with
its stacks in order, and the objects are there that `Declares` tells.
-/

namespace ConsoleScript

open Activation Console

/-! ## Declarations with constants -/

/-- The expression has the same text wherever it is evaluated, and evaluating it changes nothing. -/
def Expr.Constant (x : Expr) (t : Text) : Prop :=
  x.callFree = true ∧ ∀ scope c, x.eval scope .text c = (t, c)

theorem Expr.constant_of_isLiteral {x : Expr} (h : x.isLiteral = true) :
    x.Constant (x.coded .text) := by
  cases x with
  | int | float | str | word => exact ⟨rfl, fun _ _ => rfl⟩
  | _ => cases h

/-- The field that is set, when its index and its value are constants. -/
def FieldInit.Says : FieldInit → FieldPlan → Prop
  | .mk _ field index value, plan => field = plan.name ∧ value.Constant plan.value ∧
    match index with
    | none => plan.index = []
    | some i => i.Constant plan.index

mutual

/-- What the declaration says, when its expressions are constants. -/
def ObjectDecl.Says : ObjectDecl → ObjectPlan → Prop
  | .mk _ className objectName copyFrom args datablock fields children, plan =>
    className.Constant plan.cls ∧ objectName.Constant plan.name ∧ copyFrom.getD [] = plan.source ∧
      List.Forall₂ Expr.Constant args plan.args ∧ datablock = false ∧
      List.Forall₂ FieldInit.Says fields plan.fields ∧ saysAll children plan.children

def ObjectDecl.saysAll : List ObjectDecl → List ObjectPlan → Prop
  | [], plans => plans = []
  | d :: ds, plans => ∃ p ps, plans = p :: ps ∧ Says d p ∧ saysAll ds ps

end

/-! ## Moves with steps left -/

namespace Activation

variable {u : CodeUnit} {block : BlockId} {s t : Activation}

/-- A move that is made whatever steps are left beyond those it takes to register an object. -/
def Certain (u : CodeUnit) (block : BlockId) (s t : Activation) : Prop :=
  ∀ fuel, Run.move (fuel + 3) u block s.1 s.2 = .ok (.inl t.1) t.2

def Surely (u : CodeUnit) (block : BlockId) : Activation → Activation → Prop :=
  Relation.ReflTransGen (Certain u block)

theorem Next.certain (h : Next u block s t) : Certain u block s t := fun _ => Next.move h _

theorem Moves.surely {k : Nat} (h : Moves u block k s t) : Surely u block s t :=
  h.chain Next.certain

/-- The loop goes on from where the run leads, with as many steps less as the run has moves. -/
theorem Surely.loop (h : Surely u block s t) : ∃ n, ∀ fuel,
    Run.loop (fuel + 3 + n) u block s.1 s.2 = Run.loop (fuel + 3) u block t.1 t.2 := by
  induction h using Relation.ReflTransGen.head_induction_on with
  | refl => exact ⟨0, fun fuel => rfl⟩
  | head hmove _ ih =>
    obtain ⟨n, hrest⟩ := ih
    refine ⟨n + 1, fun fuel => ?_⟩
    rw [← Nat.add_assoc, Run.loop_succ, Nat.add_right_comm, hmove (fuel + n)]
    dsimp only
    rw [Nat.add_right_comm]
    exact hrest fuel

end Activation

/-! ## Stretches of the code -/

section stretches

variable {u : CodeUnit} {block : BlockId} {l : Literals} {ip : Nat} {m : Machine} {c : Console}

theorem Expr.Constant.steps {x : Expr} {t : Text} (h : x.Constant t)
    (hl : Asm.Loaded u l ip (x.asm ip .text)) (hm : m.ip = ipWord ip) (c : Console) :
    ∃ m', Surely u block (m, c) (m'.setText t, c) ∧ m.Arrives (ip + x.size .text) m' := by
  obtain ⟨text, var, hmoves⟩ : Computes u block (ip + x.size .text) m c .text
    (x.eval m.scope .text c) := x.computes ip .text m c h.1 hl hm
  rw [h.2] at hmoves
  exact ⟨_, hmoves.surely, text, var, m.object, m.field, m.fieldIndex, rfl⟩

theorem Activation.Next.push {is : List Asm} (hl : Asm.Stored u l ip (⟨.push, []⟩ :: is))
    (hm : m.ip = ipWord ip) {a : List Text} {as : List (List Text)} (hargs : m.args = a :: as)
    (c : Console) : Next u block (m, c)
      ({ m with ip := ipWord (ip + 1), args := (a ++ [m.text]) :: as }, c) := by
  have hpush := Machine.pushArg_cons (m := { m with ip := ipWord (ip + 1) }) hargs
  exact .of_execute hl hm (congrArg (fun m => EStateM.Result.ok (Progress.next m) c) hpush)

variable (block) in
/-- Arguments are pushed, one after the other. -/
theorem args_steps {xs : List Expr} {ts : List Text} (h : List.Forall₂ Expr.Constant xs ts)
    (hl : Asm.Loaded u l ip (Expr.asmArgs xs ip)) (hm : m.ip = ipWord ip) {a : List Text}
    {as : List (List Text)} (hargs : m.args = a :: as) (c : Console) :
    ∃ m', Surely u block (m, c) (m', c) ∧
      ({ m with args := (a ++ ts) :: as } : Machine).Arrives (ip + Expr.argsSize xs) m' := by
  induction h generalizing ip m a with
  | nil =>
    refine ⟨m, .refl, ?_⟩
    have hsame : ({ m with args := (a ++ []) :: as } : Machine) = m := by
      rw [List.append_nil, ← hargs]
    rw [hsame]
    exact .here hm
  | @cons x t xs ts hx hxs ih =>
    simp only [Expr.asmArgs] at hl
    obtain ⟨m₁, hsteps, text, var, object, field, fieldIndex, rfl⟩ := hx.steps hl.left.left hm c
    have hpushAt := hl.left.right.toStored.cast (show _ = ip + x.size .text by simp)
    have hrest := hl.right.cast (show _ = ip + x.size .text + 1 by simp [Nat.add_assoc])
    let m₁ : Machine :=
      { m with ip := ipWord (ip + x.size .text), text := t, var, object, field, fieldIndex }
    let m₂ : Machine := { m₁ with ip := ipWord (ip + x.size .text + 1), args := (a ++ [t]) :: as }
    have hpush : Next u block (m₁, c) (m₂, c) :=
      .push hpushAt rfl (show m₁.args = a :: as from hargs) c
    obtain ⟨m₃, hrest, harrives⟩ := ih (m := m₂) hrest rfl rfl
    refine ⟨m₃, (hsteps.tail hpush.certain).trans hrest, ?_⟩
    obtain ⟨text, var, object, field, fieldIndex, rfl⟩ := harrives
    refine ⟨text, var, object, field, fieldIndex, ?_⟩
    simp only [m₂, m₁, Expr.argsSize, List.append_assoc, List.singleton_append, Nat.add_assoc]

variable (block) in
theorem Expr.Constant.parks {x : Expr} {t : Text} (h : x.Constant t)
    (hl : Asm.Loaded u l ip (x.asm ip .text ++ Asm.plain [.advance])) (hm : m.ip = ipWord ip)
    (c : Console) : ∃ m', Surely u block (m, c) (m', c) ∧
      ({ m with parked := t :: m.parked } : Machine).Arrives (ip + x.size .text + 1) m' := by
  obtain ⟨m₁, hsteps, text, var, object, field, fieldIndex, rfl⟩ := h.steps hl.left hm c
  have hadvanceAt := hl.right.toStored.cast (show _ = ip + x.size .text by simp)
  let m₁ : Machine :=
    { m with ip := ipWord (ip + x.size .text), text := t, var, object, field, fieldIndex }
  have hadvance : Next u block (m₁, c)
      ({ m₁ with ip := ipWord (ip + x.size .text + 1), text := [], parked := t :: m.parked }, c) :=
    .of_execute hadvanceAt rfl rfl
  exact ⟨_, hsteps.tail hadvance.certain, _, _, _, _, _, rfl⟩

variable (block) in
theorem select_steps {t : Text} (hl : Asm.Loaded u l ip (Expr.selectAsm .setObjectNew t))
    (hm : m.ip = ipWord ip) (c : Console) : Surely u block (m, c)
      ({ m with ip := ipWord (ip + 3), object := m.objects.head?, field := t, fieldIndex := [] }, c) := by
  have hobject : Next u block (m, c)
      ({ m with ip := ipWord (ip + 1), object := m.objects.head? }, c) :=
    .of_execute hl.toStored hm rfl
  have hfield : Next u block ({ m with ip := ipWord (ip + 1), object := m.objects.head? }, c)
      ({ m with ip := ipWord (ip + 3), object := m.objects.head?, field := t, fieldIndex := [] }, c) :=
    (show Asm.Loaded u l (ip + 1) [⟨.setField, [.ident t]⟩] from hl.tail).next_setField
      { m with object := m.objects.head? } c
  exact (Relation.ReflTransGen.single hobject.certain).tail hfield.certain

theorem Activation.Next.terminateRewind {is : List Asm}
    (hl : Asm.Stored u l ip (⟨.terminateRewind, []⟩ :: is)) (hm : m.ip = ipWord ip) {t : Text}
    {ts : List Text} (hparked : m.parked = t :: ts) (c : Console) : Next u block (m, c)
      ({ m with ip := ipWord (ip + 1), text := t, parked := ts }, c) := by
  have hrewind := Machine.rewind_cons (m := { m with ip := ipWord (ip + 1) }) hparked
  exact .of_execute hl hm
    (congrArg (fun r : Text × Machine => EStateM.Result.ok (Progress.next r.2) c) hrewind)

def Console.setField (c : Console) (r : ObjectRef) (f : FieldPlan) : Console :=
  { c with objects := c.objects.modify r fun o =>
    { o with fields := o.fields.set f.name f.index f.value } }

theorem save_steps {f : FieldPlan} {r : ObjectRef} {ts : List Text}
    (hl : Asm.Loaded u l ip (Asm.plain [.terminateRewind, .saveFieldText, .textToNone]))
    (hm : m.ip = ipWord ip) (hobject : m.object = some r) (hfield : m.field = f.name)
    (hindex : m.fieldIndex = f.index) (hparked : m.parked = f.value :: ts) (c : Console) :
    Surely u block (m, c)
      ({ m with ip := ipWord (ip + 3), text := f.value, parked := ts }, c.setField r f) := by
  let m₁ : Machine := { m with ip := ipWord (ip + 1), text := f.value, parked := ts }
  let m₂ : Machine := { m₁ with ip := ipWord (ip + 2) }
  have hrewind : Next u block (m, c) (m₁, c) := .terminateRewind hl.toStored hm hparked c
  have hsave : Next u block (m₁, c) (m₂, c.setField r f) := by
    have hsave : m₂.saveField f.value c = .ok () (c.setField r f) := by
      simp only [Machine.saveField, m₂, m₁, hobject, hfield, hindex]
      rfl
    exact .of_execute hl.tail.toStored rfl (Run.bind_ok hsave)
  have hdrop : Next u block (m₂, c.setField r f)
      ({ m₂ with ip := ipWord (ip + 3) }, c.setField r f) :=
    .of_execute hl.tail.tail.toStored rfl rfl
  exact ((Relation.ReflTransGen.single hrewind.certain).tail hsave.certain).tail hdrop.certain

theorem element_steps {x : Expr} {s t : Text} (h : x.Constant s)
    (hl : Asm.Loaded u l ip (x.asm ip .text ++ Asm.plain [.advance] ++
      Expr.selectAsm .setObjectNew t ++ Asm.plain [.terminateRewind, .setFieldArray]))
    (hm : m.ip = ipWord ip) (c : Console) : ∃ var, Surely u block (m, c)
      ({ m with
          ip := ipWord (ip + x.size .text + 6), text := s, var, object := m.objects.head?
          field := t, fieldIndex := s }, c) := by
  have hselectAt := hl.left.right.cast (show _ = ip + x.size .text + 1 by simp [Nat.add_assoc])
  have harrayAt := hl.right.cast (show _ = ip + x.size .text + 1 + 3 by
    simp [Expr.selectAsm, Asm.size, Nat.add_assoc])
  obtain ⟨m₁, hpark, harrives⟩ := h.parks block hl.left.left hm c
  have hselect := select_steps block hselectAt harrives.ip_eq c
  obtain ⟨text, var, object, field, fieldIndex, rfl⟩ := harrives
  have hrewind := (hpark.trans hselect).tail
    (Next.terminateRewind harrayAt.toStored rfl rfl c).certain
  exact ⟨var, hrewind.tail (Next.of_execute harrayAt.tail.toStored rfl rfl).certain⟩

variable (block) in
theorem field_steps {f : FieldInit} {plan : FieldPlan} (h : f.Says plan)
    (hl : Asm.Loaded u l ip (Expr.asmField f ip)) (hm : m.ip = ipWord ip) {r : ObjectRef}
    {rs : List ObjectRef} (hobjects : m.objects = r :: rs) (c : Console) :
    ∃ m', Surely u block (m, c) (m', c.setField r plan) ∧ m.Arrives (ip + Expr.fieldSize f) m' := by
  obtain ⟨pos, field, index, value⟩ := f
  obtain ⟨rfl, hvalue, hindex⟩ := h
  have hparkAt : Asm.Loaded u l ip (value.asm ip .text ++ Asm.plain [.advance]) := by
    cases index <;> exact hl.left.left
  obtain ⟨m₁, hpark, harrives⟩ := hvalue.parks block hparkAt hm c
  obtain ⟨n, text, var, hend, hsaveAt, hselect⟩ : ∃ n text var,
      ip + Expr.fieldSize (.mk pos plan.name index value) = n + 3 ∧
      Asm.Loaded u l n (Asm.plain [.terminateRewind, .saveFieldText, .textToNone]) ∧
      Surely u block (m₁, c) ({ m₁ with
        ip := ipWord n, text, var, object := m₁.objects.head?
        field := plan.name, fieldIndex := plan.index }, c) := by
    cases index with
    | none =>
      have hplan : plan.index = [] := hindex
      simp only [Expr.asmField] at hl
      have hselectAt := hl.left.right.cast
        (show _ = ip + value.size .text + 1 by simp [Nat.add_assoc])
      have hsaveAt := hl.right.cast (show _ = ip + value.size .text + 1 + 3 by
        simp [Expr.selectAsm, Asm.size, Nat.add_assoc])
      refine ⟨_, m₁.text, m₁.var, ?_, hsaveAt, ?_⟩
      · simp only [Expr.fieldSize]
        omega
      · rw [hplan]
        exact select_steps block hselectAt harrives.ip_eq c
    | some i =>
      simp only [Expr.asmField] at hl
      have helementAt := hl.left.right.cast
        (show _ = ip + value.size .text + 1 by simp [Nat.add_assoc])
      have hsaveAt := hl.right.cast (show _ = ip + value.size .text + 1 + i.size .text + 6 by
        simp [Expr.selectAsm, Asm.size, Nat.add_assoc])
      obtain ⟨var, hselect⟩ := element_steps hindex helementAt harrives.ip_eq c
      refine ⟨_, _, var, ?_, hsaveAt, hselect⟩
      simp only [Expr.fieldSize]
      omega
  obtain ⟨_, _, _, _, _, rfl⟩ := harrives
  refine ⟨_, (hpark.trans hselect).trans
    (save_steps hsaveAt rfl (congrArg List.head? hobjects) rfl rfl rfl c), ?_⟩
  rw [hend]
  exact ⟨_, _, _, _, _, rfl⟩

variable (block) in
theorem fields_steps {fs : List FieldInit} {plans : List FieldPlan}
    (h : List.Forall₂ FieldInit.Says fs plans) (hl : Asm.Loaded u l ip (Expr.asmFields fs ip))
    (hm : m.ip = ipWord ip) {r : ObjectRef} {rs : List ObjectRef} (hobjects : m.objects = r :: rs)
    (c : Console) : ∃ m', Surely u block (m, c) (m', plans.foldl (fun c f => c.setField r f) c) ∧
      m.Arrives (ip + Expr.fieldsSize fs) m' := by
  induction h generalizing ip m c with
  | nil => exact ⟨m, .refl, .here hm⟩
  | @cons f plan fs plans hf hfs ih =>
    simp only [Expr.asmFields] at hl
    obtain ⟨m₁, hfield, harrives⟩ := field_steps block hf hl.left hm hobjects c
    have hrestAt := hl.right.cast (show _ = ip + Expr.fieldSize f by simp)
    have hobjects₁ : m₁.objects = r :: rs := by
      obtain ⟨_, _, _, _, _, rfl⟩ := harrives
      exact hobjects
    obtain ⟨m₂, hrest, harrives'⟩ := ih hrestAt harrives.ip_eq hobjects₁ (c.setField r plan)
    refine ⟨m₂, hfield.trans hrest, ?_⟩
    rw [Expr.fieldsSize, ← Nat.add_assoc]
    exact harrives.trans harrives'

theorem Console.foldl_setField (c : Console) (obj : Object) (plans : List FieldPlan) :
    plans.foldl (fun c' f => c'.setField c.objects.store.size f)
        { c with objects := (c.objects.make obj).2 } =
      { c with objects := (c.objects.make { obj with fields := obj.fields.assign plans }).2 } := by
  induction plans generalizing obj with
  | nil => rfl
  | cons f plans ih =>
    have hset : ({ c with objects := (c.objects.make obj).2 } : Console).setField
        c.objects.store.size f = { c with objects := (c.objects.make
          { obj with fields := obj.fields.set f.name f.index f.value }).2 } := by
      rw [setField, Objects.modify_make]
    rw [List.foldl_cons, hset, ih]
    rfl

theorem Asm.createNamed_eq {cls name : Text} {args : List Text} {as : List (List Text)}
    (hargs : m.args = (cls :: name :: args) :: as) (source : Text) (w fail : UInt32) :
    createNamed u w source (flagWord false) fail m c =
      match c.instantiate cls name source false args with
      | (.ok r, c₁) => .ok { m with args := as, objects := r :: m.objects } c₁
      | (.error e, c₁) => .ok { m with ip := fail, args := as }
          (c₁.printLine (u.place w ++ Text.ofString ": " ++ e.message)) := by
  have hchange {made : Except ObjectError ObjectRef} {c₁ : Console}
      (h : c.instantiate cls name source false args = (made, c₁)) :
      Run.change (fun c : Console => c.instantiate cls name source false args) c = .ok made c₁ :=
    congrArg (fun r : Except ObjectError ObjectRef × Console => EStateM.Result.ok r.1 r.2) h
  rw [createNamed, Machine.popArgs_cons hargs]
  rcases hmade : c.instantiate cls name source false args with ⟨r | e, c₁⟩
  · exact Run.bind_ok (hchange hmade)
  · exact Run.bind_ok (hchange hmade)

variable (block) in
/-- An object is made, or nothing changes about objects and its declaration is passed over. -/
theorem create_cases (hc : c.Unwatched) (plan : ObjectPlan) {source : Option Text} {stop : Nat}
    (hl : Asm.Loaded u l ip
      [⟨.createObject, [.ident? source, .word (flagWord false), .target stop]⟩])
    (hsource : source.getD [] = plan.source) (hm : m.ip = ipWord ip) {as : List (List Text)}
    (hargs : m.args = (plan.cls :: plan.name :: plan.args) :: as) :
    (∃ cls copied names, c.Admits plan cls copied ∧ c.names.Extends names ∧ Worded names plan ∧
      Next u block (m, c) ({ m with
        ip := ipWord (ip + 4), args := as, objects := c.objects.store.size :: m.objects }, { c with
          names := names
          objects := (c.objects.make (plan.object cls copied { c with names := names })).2 })) ∨
    (∀ cls copied, ¬ c.Admits plan cls copied) ∧ ∃ c₁, c.Gains [] c₁ ∧ c₁.Unwatched ∧
      Next u block (m, c) ({ m with ip := ipWord stop, args := as }, c₁) := by
  have hstep : m.step u block c = (Progress.next <$> Asm.createNamed u (ipWord ip) plan.source
      (flagWord false) (ipWord stop) (m.goto (ipWord (ip + 4)))) c := by
    rw [← hsource, ← hl.step_create block m c, Machine.goto, ← hm]
  rw [Run.map_apply] at hstep
  have hargs : (m.goto (ipWord (ip + 4))).args = (plan.cls :: plan.name :: plan.args) :: as := hargs
  obtain ⟨cls, copied, names, hadmits, hextends, hworded, he⟩ | ⟨hrefused, e, names, hextends, he⟩ :=
    hc.instantiate_cases plan
  · rw [Asm.createNamed_eq hargs, he] at hstep
    exact .inl ⟨cls, copied, names, hadmits, hextends, hworded, hstep⟩
  · rw [Asm.createNamed_eq hargs, he] at hstep
    refine .inr ⟨hrefused, Console.printLine { c with names := names } _, .none hextends rfl rfl, ?_,
      hstep⟩
    exact hc.of_eq hextends hc.indexed rfl fun n r hn => hextends.knows (hc.named n r hn)

theorem Number.lowWord_ofNat_toNat (w : UInt32) : lowWord (Int64.ofNat w.toNat) = w := by
  rw [lowWord, ← UInt32.toNat_inj]
  simp

/-- The number of a registered object takes the place of the one on top, or comes on top of it. -/
def Machine.numbered (m : Machine) (root : Bool) (id : UInt32) : Machine :=
  { m with ints := Int64.ofNat id.toNat :: if root then m.ints.tail else m.ints }

theorem Machine.placeObject_numbered {r : ObjectRef} {id : UInt32} {parent : Option ObjectRef}
    (hid : (c.objects.get r).id = id)
    (hparent : ∀ p, parent = some p → c.objects.live[Number.lowWord m.topInt]? = some p) :
    m.placeObject r parent.isNone c = .ok (m.numbered parent.isNone id)
      { c with objects := c.objects.join parent r } := by
  rw [placeObject, Run.get_bind, hid]
  cases parent with
  | none => rfl
  | some p =>
    dsimp only [Option.isNone]
    rw [if_neg Bool.false_ne_true, hparent p rfl, Objects.join]
    dsimp only
    cases (c.objects.get p).isSet <;> rfl

variable (block) in
theorem add_step (hc : c.Unwatched) {names : NameTable} (hnames : c.names.Extends names)
    {plan : ObjectPlan} (hworded : Worded names plan) (cls : Name) (fields : Fields)
    {parent : Option ObjectRef} (hl : Asm.Loaded u l ip
      [⟨.addObject, [.word (flagWord parent.isNone)]⟩]) (hm : m.ip = ipWord ip) {rs : List ObjectRef}
    (hobjects : m.objects = c.objects.store.size :: rs)
    (hparent : ∀ p, parent = some p → c.Hosts p (Number.lowWord m.topInt) 1) :
    ∃ c₁ node, node.parent = parent ∧ node.object = plan.object cls fields c₁ ∧
      c.Gains [node] c₁ ∧ c₁.Unwatched ∧
      Certain u block (m, { c with
          names := names
          objects := (c.objects.make (plan.object cls fields { c with names := names })).2 })
        (({ m with ip := ipWord (ip + 2) } : Machine).numbered parent.isNone node.id, c₁) := by
  obtain ⟨c₁, hregister, hlive, hid, hadded⟩ := hc.registers hnames hworded cls fields
  obtain ⟨hunwatched, hobject, hgains⟩ :=
    hadded parent fun p hp => ⟨(hparent p hp).made, (hparent p hp).not_mem⟩
  refine ⟨_, _, rfl, hobject.symm, hgains, hunwatched, fun fuel => ?_⟩
  obtain ⟨c₀, hc₀⟩ : ∃ c₀ : Console, c₀ = { c with
    names := names
    objects := (c.objects.make (plan.object cls fields { c with names := names })).2 } := ⟨_, rfl⟩
  rw [← hc₀] at hregister ⊢
  have hplace : (m.goto (ipWord (ip + 2))).placeObject c.objects.store.size parent.isNone c₁ =
      .ok ((m.goto (ipWord (ip + 2))).numbered parent.isNone c.objects.nextId)
        { c₁ with objects := c₁.objects.join parent c.objects.store.size } := by
    refine Machine.placeObject_numbered hid fun p hp => ?_
    have hne : c.objects.nextId ≠ Number.lowWord m.topInt := by
      have hne := (hparent p hp).room 0 Nat.one_pos
      rwa [show UInt32.ofNat 0 = 0 from rfl, UInt32.add_zero] at hne
    show c₁.objects.live[Number.lowWord m.topInt]? = some p
    rw [hlive, Std.TreeMap.getElem?_insert, if_neg (by simpa using hne)]
    exact (hparent p hp).live
  have hstep : m.step u block c₀ = .ok (.register (m.goto (ipWord (ip + 2)))
      c.objects.store.size parent.isNone) c₀ := by
    have hregistered : (c₀.objects.get c.objects.store.size).registered = false := by
      rw [hc₀]
      exact congrArg Object.registered ((Objects.get_make _ _ _).trans (if_pos rfl))
    have hflag : (flagWord parent.isNone != 0) = parent.isNone := by cases parent.isNone <;> rfl
    have hoperand : (m.goto (ipWord ip)).step u block c₀ =
        Asm.addObject ((Operand.word (flagWord parent.isNone)).encode l) (m.goto (ipWord (ip + 2))) c₀ :=
      hl.toStored.step_operand Asm.addObject (fun n => rfl) m c₀
    rw [Machine.goto, ← hm] at hoperand
    rw [hoperand, Asm.addObject, Operand.encode, hflag]
    dsimp only [Machine.goto]
    rw [hobjects]
    dsimp only
    rw [Run.get_bind, hregistered]
    rfl
  show Run.move (fuel + 3) u block m c₀ = _
  rw [Run.move, Run.bind_ok hstep]
  dsimp only
  rw [Run.bind_ok (hregister fuel), Run.bind_ok hplace]
  rfl

variable (block) in
/-- An object is made of the texts that are pushed for it, or its declaration is passed over. -/
theorem make_steps (hc : c.Unwatched) {plan : ObjectPlan} {xs : List Expr} {source : Option Text}
    {stop : Nat} (hframeAt : Asm.Stored u l ip [⟨.pushFrame, []⟩])
    (hargsAt : Asm.Loaded u l (ip + 1) (Expr.asmArgs xs (ip + 1)))
    (hcreateAt : Asm.Loaded u l (ip + 1 + Expr.argsSize xs)
      [⟨.createObject, [.ident? source, .word (flagWord false), .target stop]⟩])
    (hargs : List.Forall₂ Expr.Constant xs (plan.cls :: plan.name :: plan.args))
    (hsource : source.getD [] = plan.source) (hm : m.ip = ipWord ip) :
    (∃ cls copied names m', c.Admits plan cls copied ∧ c.names.Extends names ∧ Worded names plan ∧
      Surely u block (m, c) (m', { c with
          names := names
          objects := (c.objects.make (plan.object cls copied { c with names := names })).2 }) ∧
      ({ m with objects := c.objects.store.size :: m.objects } : Machine).Arrives
        (ip + 1 + Expr.argsSize xs + 4) m') ∨
    (∀ cls copied, ¬ c.Admits plan cls copied) ∧ ∃ c₁ m', c.Gains [] c₁ ∧ c₁.Unwatched ∧
      Surely u block (m, c) (m', c₁) ∧ m.Arrives stop m' := by
  let m₁ : Machine := { m with ip := ipWord (ip + 1), args := [] :: m.args }
  have hframe : Next u block (m, c) (m₁, c) := .of_execute hframeAt hm rfl
  obtain ⟨m₂, hpush, harrives⟩ := args_steps block (m := m₁) hargs hargsAt rfl rfl c
  have hargs₂ : m₂.args = (plan.cls :: plan.name :: plan.args) :: m.args := by
    obtain ⟨_, _, _, _, _, rfl⟩ := harrives
    rfl
  have hpush := Relation.ReflTransGen.head hframe.certain hpush
  obtain ⟨cls, copied, names, hadmits, hextends, hworded, hmake⟩ | ⟨hrefused, c₁, hgains, hc₁, hskip⟩ :=
    create_cases block hc plan hcreateAt hsource harrives.ip_eq hargs₂
  · refine .inl ⟨cls, copied, names, _, hadmits, hextends, hworded, hpush.tail hmake.certain, ?_⟩
    obtain ⟨_, _, _, _, _, rfl⟩ := harrives
    exact ⟨_, _, _, _, _, rfl⟩
  · refine .inr ⟨hrefused, c₁, _, hgains, hc₁, hpush.tail hskip.certain, ?_⟩
    obtain ⟨_, _, _, _, _, rfl⟩ := harrives
    exact ⟨_, _, _, _, _, rfl⟩

variable (block) in
theorem register_steps (hc : c.Unwatched) {names : NameTable} (hnames : c.names.Extends names)
    {plan : ObjectPlan} (hworded : Worded names plan) (cls : Name) (copied : Fields)
    {fs : List FieldInit} {parent : Option ObjectRef}
    (hfieldsAt : Asm.Loaded u l ip (Expr.asmFields fs ip))
    (haddAt : Asm.Loaded u l (ip + Expr.fieldsSize fs)
      [⟨.addObject, [.word (flagWord parent.isNone)]⟩])
    (hfields : List.Forall₂ FieldInit.Says fs plan.fields) (hm : m.ip = ipWord ip)
    {rs : List ObjectRef} (hobjects : m.objects = c.objects.store.size :: rs)
    (hparent : ∀ p, parent = some p → c.Hosts p (Number.lowWord m.topInt) 1) :
    ∃ c₁ node m', node.parent = parent ∧
      node.object = plan.object cls (copied.assign plan.fields) c₁ ∧
      c.Gains [node] c₁ ∧ c₁.Unwatched ∧
      Surely u block (m, { c with
          names := names
          objects := (c.objects.make (plan.object cls copied { c with names := names })).2 })
        (m', c₁) ∧
      (m.numbered parent.isNone node.id).Arrives (ip + Expr.fieldsSize fs + 2) m' := by
  obtain ⟨m₁, hset, harrives⟩ := fields_steps block hfields hfieldsAt hm hobjects { c with
    names := names
    objects := (c.objects.make (plan.object cls copied { c with names := names })).2 }
  rw [show List.foldl _ _ _ = _ from foldl_setField { c with names := names } _ _] at hset
  have hip := harrives.ip_eq
  obtain ⟨_, _, _, _, _, rfl⟩ := harrives
  obtain ⟨c₁, node, hnode, hobject, hgains, hc₁, hadd⟩ := add_step block hc hnames hworded
    cls (copied.assign plan.fields) haddAt hip hobjects hparent
  exact ⟨c₁, node, _, hnode, hobject, hgains, hc₁, hset.tail hadd, _, _, _, _, _, rfl⟩

end stretches

/-! ## Declarations -/

/-- The machine behind a declaration: the outermost object leaves its number, if it was made. -/
def Machine.settled (m : Machine) (parent : Option ObjectRef) (nodes : List ObjectNode) : Machine :=
  match parent, nodes with
  | none, n :: _ => m.numbered true n.id
  | _, _ => m

theorem Machine.settled_nil (m : Machine) (parent : Option ObjectRef) : m.settled parent [] = m := by
  cases parent <;> rfl

section declarations

variable {u : CodeUnit} {block : BlockId} {l : Literals}

/-- Where the parts of the code of a declaration stand. The names are in front of the arguments. -/
structure Asm.Declaration (u : CodeUnit) (l : Literals) (ip : Nat) (root : Bool) (xs : List Expr)
    (source : Option Text) (fs : List FieldInit) (ds : List ObjectDecl) (create inside stop : Nat) :
    Prop where
  create_eq : ip + 1 + Expr.argsSize xs = create
  inside_eq : create + 4 + Expr.fieldsSize fs + 2 = inside
  stop_eq : inside + Expr.childrenSize ds + 2 = stop
  frame : Stored u l ip [⟨.pushFrame, []⟩]
  args : Loaded u l (ip + 1) (Expr.asmArgs xs (ip + 1))
  made : Loaded u l create [⟨.createObject, [.ident? source, .word (flagWord false), .target stop]⟩]
  fields : Loaded u l (create + 4) (Expr.asmFields fs (create + 4))
  added : Loaded u l (create + 4 + Expr.fieldsSize fs) [⟨.addObject, [.word (flagWord root)]⟩]
  children : Loaded u l inside (Expr.asmChildren ds inside)
  ended : Loaded u l (inside + Expr.childrenSize ds) [⟨.endObject, [.word (flagWord root)]⟩]

theorem Asm.declaration {pos : Position} {className objectName : Expr} {source : Option Text}
    {args : List Expr} {fs : List FieldInit} {ds : List ObjectDecl} {ip : Nat} {root : Bool}
    (hl : Asm.Loaded u l ip
      (Expr.asmObject (.mk pos className objectName source args false fs ds) ip root)) :
    ∃ create inside, Asm.Declaration u l ip root (className :: objectName :: args) source fs ds create
      inside (ip + Expr.objectSize (.mk pos className objectName source args false fs ds)) := by
  obtain ⟨xs, hxs⟩ : ∃ xs, className :: objectName :: args = xs := ⟨_, rfl⟩
  obtain ⟨create, hcreate⟩ : ∃ create, ip + 1 + Expr.argsSize xs = create := ⟨_, rfl⟩
  obtain ⟨stop, hstop⟩ : ∃ stop,
      ip + Expr.objectSize (.mk pos className objectName source args false fs ds) = stop := ⟨_, rfl⟩
  have hcode : Asm.Loaded u l ip ([⟨.pushFrame, []⟩] ++ Expr.asmArgs xs (ip + 1) ++
      [⟨.createObject, [.ident? source, .word (flagWord false), .target stop]⟩] ++
      Expr.asmFields fs (create + 4) ++ [⟨.addObject, [.word (flagWord root)]⟩] ++
      Expr.asmChildren ds (create + 4 + Expr.fieldsSize fs + 2) ++
      [⟨.endObject, [.word (flagWord root)]⟩]) := by
    have hends : ip + 1 + className.size .text + 1 + objectName.size .text + 1 + Expr.argsSize args
        = create := by
      rw [← hcreate, ← hxs]
      simp only [Expr.argsSize]
      omega
    simp only [Expr.asmObject, hends, hstop] at hl
    simpa [← hxs, Expr.asmArgs] using hl
  rw [hxs, hstop]
  refine ⟨create, create + 4 + Expr.fieldsSize fs + 2, hcreate, rfl, ?_,
    hcode.left.left.left.left.left.left.toStored, ?_, ?_, ?_, ?_, ?_, ?_⟩
  · rw [← hstop, ← hcreate, ← hxs]
    simp only [Expr.objectSize, Expr.argsSize]
    omega
  · exact hcode.left.left.left.left.left.right.cast (by simp [Asm.size])
  · exact hcode.left.left.left.left.right.cast (by simp [Asm.size, ← hcreate, Nat.add_assoc])
  · exact hcode.left.left.left.right.cast (by simp [Asm.size, ← hcreate, Nat.add_assoc])
  · exact hcode.left.left.right.cast (by simp [Asm.size, ← hcreate, Nat.add_assoc])
  · exact hcode.left.right.cast (by simp [Asm.size, ← hcreate, Nat.add_assoc])
  · exact hcode.right.cast (by simp [Asm.size, ← hcreate, Nat.add_assoc])

variable (block) in
mutual

/-- Running a declaration makes the objects it tells, and leaves the stacks as they were. -/
theorem ObjectDecl.steps : ∀ (d : ObjectDecl) {plan : ObjectPlan} {parent : Option ObjectRef}
    {ip : Nat} {m : Machine} {c : Console}, d.Says plan →
    Asm.Loaded u l ip (Expr.asmObject d ip parent.isNone) → m.ip = ipWord ip → c.Unwatched →
    (∀ p, parent = some p → c.Hosts p (Number.lowWord m.topInt) 1) →
    ∃ m' c' nodes, Surely u block (m, c) (m', c') ∧
      (m.settled parent nodes).Arrives (ip + Expr.objectSize d) m' ∧
      Declares c parent [plan] nodes c' ∧ c'.Unwatched ∧ nodes.length ≤ Expr.objectSize d
  | .mk pos className objectName copyFrom args datablock fields children, plan, parent, ip, m, c,
      hplan, hl, hm, hc, hparent => by
    obtain ⟨hclass, hname, hsource, hargs, rfl, hfields, hchildren⟩ := hplan
    obtain ⟨create, inside, hcode⟩ := Asm.declaration hl
    obtain ⟨stop, hstop⟩ : ∃ stop, ip + Expr.objectSize
      (.mk pos className objectName copyFrom args false fields children) = stop := ⟨_, rfl⟩
    rw [hstop] at hcode ⊢
    have hmadeAt := hcode.made
    rw [← hcode.create_eq] at hmadeAt
    obtain ⟨cls, copied, names, m₁, hadmits, hextends, hworded, hmake, harrives₁⟩ |
      ⟨hrefused, c₁, m₁, hgains, hc₁, hskip, harrives₁⟩ := make_steps block hc hcode.frame
        hcode.args hmadeAt (.cons hclass (.cons hname hargs)) hsource hm
    · rw [hcode.create_eq] at harrives₁
      have hip₁ := harrives₁.ip_eq
      obtain ⟨_, _, _, _, _, rfl⟩ := harrives₁
      obtain ⟨c₁, node, m₂, rfl, hobject, hgains, hc₁, hregister, harrives₂⟩ := register_steps
        block hc hextends hworded cls copied hcode.fields hcode.added hfields hip₁ rfl hparent
      rw [hcode.inside_eq] at harrives₂
      have hip₂ := harrives₂.ip_eq
      obtain ⟨_, _, _, _, _, rfl⟩ := harrives₂
      have hhosts : c₁.Hosts node.ref node.id (Expr.childrenSize children) := by
        refine hgains.hosts (by rw [hobject]; rfl) ?_
        have hend := hcode.ended.toStored.le_size
        have hfits := hcode.ended.toStored.size
        omega
      obtain ⟨m₃, c₂, nodes, hinside, harrives₃, hdeclares, hc₂, hlength⟩ :=
        ObjectDecl.steps_all children hchildren hcode.children hip₂ hc₁
          (show Hosts c₁ node.ref (Number.lowWord (Int64.ofNat node.id.toNat)) _ by
            rwa [Number.lowWord_ofNat_toNat])
      have hend : Next u block _ _ := hcode.ended.toStored.next_endObject m₃ c₂
      rw [show m₃.goto _ = m₃ by rw [Machine.goto, ← harrives₃.ip_eq], hcode.stop_eq] at hend
      refine ⟨_, c₂, node :: nodes ++ [], ((hmake.trans hregister).trans hinside).tail hend.certain, ?_,
        .made hadmits (copied.overridden_assign _) hobject hgains hdeclares (.done c₂ _), hc₂, ?_⟩
      · obtain ⟨_, _, _, _, _, rfl⟩ := harrives₃
        obtain ⟨parent, ref, id, object⟩ := node
        cases parent <;> exact ⟨_, _, _, _, _, rfl⟩
      · simp only [Expr.objectSize, List.append_nil, List.length_cons]
        omega
    · refine ⟨m₁, c₁, [], hskip, ?_, .refused hrefused hgains (.done _ _), hc₁, Nat.zero_le _⟩
      rwa [Machine.settled_nil]

theorem ObjectDecl.steps_all : ∀ (ds : List ObjectDecl) {plans : List ObjectPlan} {p : ObjectRef}
    {ip : Nat} {m : Machine} {c : Console}, ObjectDecl.saysAll ds plans →
    Asm.Loaded u l ip (Expr.asmChildren ds ip) → m.ip = ipWord ip → c.Unwatched →
    c.Hosts p (Number.lowWord m.topInt) (Expr.childrenSize ds) →
    ∃ m' c' nodes, Surely u block (m, c) (m', c') ∧ m.Arrives (ip + Expr.childrenSize ds) m' ∧
      Declares c (some p) plans nodes c' ∧ c'.Unwatched ∧ nodes.length ≤ Expr.childrenSize ds
  | [], plans, p, ip, m, c, hplan, hl, hm, hc, hhosts => by
    obtain rfl : plans = [] := hplan
    exact ⟨m, c, [], .refl, .here hm, .done c _, hc, Nat.le_refl 0⟩
  | d :: ds, plans, p, ip, m, c, hplan, hl, hm, hc, hhosts => by
    obtain ⟨plan, plans, rfl, hplan, hplans⟩ := hplan
    simp only [Expr.asmChildren] at hl
    have hrestAt := hl.right.cast (show _ = ip + Expr.objectSize d by simp)
    rw [Expr.childrenSize] at hhosts
    have hpos : 1 ≤ Expr.objectSize d := by
      obtain ⟨⟩ := d
      simp only [Expr.objectSize]
      omega
    obtain ⟨m₁, c₁, nodes, hsteps, harrives, hdeclares, hc₁, hlength⟩ :=
      ObjectDecl.steps d hplan hl.left hm hc
        fun q (hq : some p = some q) => Option.some.inj hq ▸ hhosts.mono (Nat.le_add_right_of_le hpos)
    have hhosts₁ : c₁.Hosts p (Number.lowWord m₁.topInt) (Expr.childrenSize ds) := by
      have htop : m₁.topInt = m.topInt := by
        obtain ⟨_, _, _, _, _, rfl⟩ := harrives
        rfl
      rw [htop]
      exact (hhosts.mono (Nat.add_le_add_right hlength _)).gains hdeclares.gains
    obtain ⟨m₂, c₂, nodes', hsteps', harrives', hdeclares', hc₂, hlength'⟩ :=
      ObjectDecl.steps_all ds hplans hrestAt harrives.ip_eq hc₁ hhosts₁
    refine ⟨m₂, c₂, nodes ++ nodes', hsteps.trans hsteps', ?_, hdeclares.append hdeclares', hc₂, ?_⟩
    · rw [Expr.childrenSize, ← Nat.add_assoc]
      exact harrives.trans harrives'
    · rw [List.length_append, Expr.childrenSize]
      exact Nat.add_le_add hlength hlength'

end

/-- The number of the outermost object, or zero if it was not made. -/
def ObjectNode.outermost (nodes : List ObjectNode) : Int64 :=
  match nodes with
  | n :: _ => Int64.ofNat n.id.toNat
  | [] => 0

theorem Machine.settled_pushInt (m : Machine) (nodes : List ObjectNode) :
    (m.pushInt 0).settled none nodes = m.pushInt (ObjectNode.outermost nodes) := by
  cases nodes <;> rfl

/-- Whatever objects of a declaration cannot be made, the machine comes to the end of its code with
the number of the outermost one as a value, or zero if that is among them. The objects are registered
that can be made together with everything they stand in, in the order of their declaration, and each
is found by its number. Apart from them, what numbers lead to and what objects there are is as it was. -/
theorem Expr.object_declares {d : ObjectDecl} {plan : ObjectPlan} (hplan : d.Says plan) (want : Demand)
    {ip : Nat} (hl : Asm.Loaded u l ip ((Expr.object d).asm ip want)) {m : Machine}
    (hm : m.ip = ipWord ip) {c : Console} (hc : c.Unwatched) :
    ∃ n m' c' nodes, m.Arrives (ip + (Expr.object d).size want) m' ∧
      (∀ fuel, Run.loop (fuel + 3 + n) u block m c = Run.loop (fuel + 3) u block
        (want.put (want.ofValue (.int (ObjectNode.outermost nodes))) m') c') ∧
      Declares c none [plan] nodes c' ∧ c.Gains nodes c' ∧ c'.Unwatched ∧
      (∀ n ∈ nodes, c'.objects.live[n.id]? = some n.ref) ∧
      ∀ id, (∀ n ∈ nodes, n.id ≠ id) → c'.objects.live[id]? = c.objects.live[id]? := by
  simp only [Expr.asm] at hl
  have hdeclareAt : Asm.Loaded u l (ip + 2) (asmObject d (ip + 2) true) := hl.left.left.tail
  have hfinishAt := hl.left.right.toStored.cast
    (show _ = ip + 2 + objectSize d by simp [Asm.size, Nat.add_assoc])
  have hconvertAt := hl.right.toStored.cast
    (show _ = ip + 2 + objectSize d + 1 by simp [Asm.size, Nat.add_assoc])
  have hzero : Next u block (m, c) (({ m with ip := ipWord (ip + 2) } : Machine).pushInt 0, c) :=
    .loadInt hl.toStored hm c
  obtain ⟨m₁, c₁, nodes, hdeclare, harrives, hdeclares, hc₁, hlength⟩ :=
    ObjectDecl.steps block d hplan hdeclareAt
      (m := ({ m with ip := ipWord (ip + 2) } : Machine).pushInt 0) rfl hc
      fun p (hp : none = some p) => by cases hp
  have hfits : nodes.length ≤ UInt32.size := by
    have hend := hfinishAt.le_size
    have hsize := hfinishAt.size
    omega
  rw [Machine.settled_pushInt] at harrives
  obtain ⟨text, var, object, field, fieldIndex, rfl⟩ := harrives
  have hconvert := takes_convert block (show Demand.int ≠ .none by decide) (ObjectNode.outermost nodes)
    (m := { m with ip := ipWord (ip + 2 + objectSize d + 1), text, var, object, field, fieldIndex })
    hconvertAt rfl c₁
  have hsteps := (Relation.ReflTransGen.head hzero.certain hdeclare).tail
    (Next.of_execute hfinishAt rfl rfl).certain
  have hconvert : Surely u block _ _ := Moves.surely ⟨_, Nat.zero_le _, hconvert⟩
  obtain ⟨n, hloop⟩ := Surely.loop (hsteps.trans hconvert)
  refine ⟨n, _, c₁, nodes, ?_, hloop, hdeclares, hdeclares.gains, hc₁,
    fun n hn => hdeclares.gains.live_mem hfits hn, fun id hid => hdeclares.gains.live_of_ne hid⟩
  have hend : ip + (Expr.object d).size want
      = ip + 2 + objectSize d + 1 + Demand.convertSize .int want := by
    simp only [Expr.size]
    omega
  rw [hend]
  exact ⟨_, _, _, _, _, rfl⟩

/-- A group is declared with two objects inside it. The class of one of them is not known, so that
nothing is made of what is declared inside that one; the other one copies the fields of the group. -/
theorem Expr.object_declares_unknown_class :
    let p : Position := ⟨0, 1, 1⟩
    let text (t : Text) : Expr := .str p t false
    let declared (cls name : Text) (source : Option Text) (fs : List FieldInit)
      (ds : List ObjectDecl) : ObjectDecl := .mk p (.word p cls) (text name) source [] false fs ds
    let late : ObjectDecl := declared "ScriptObject" "Late" (some "Whole")
      [.mk p "weight" none (text "2"), .mk p "part" (some (text "0")) (text "c")] []
    let d : ObjectDecl := declared "SimGroup" "Whole" none [.mk p "weight" none (text "1")]
      [declared "Missing" "Lost" none [] [declared "ScriptObject" "Inside" none [] []], late]
    let plan : ObjectPlan := ⟨"SimGroup", "Whole", [], [], [⟨"weight", [], "1"⟩],
      [⟨"Missing", "Lost", [], [], [], [⟨"ScriptObject", "Inside", [], [], [], []⟩]⟩,
        ⟨"ScriptObject", "Late", "Whole", [], [⟨"weight", [], "2"⟩, ⟨"part", "0", "c"⟩], []⟩]⟩
    let u := CodeUnit.written [] [.ret p (some (.object d))]
    let m : Machine := { ip := ipWord 0, scope := .globals }
    let c := Console.create 0 0
    d.Says plan ∧ ∃ n m' c' nodes, m.Arrives (0 + (Expr.object d).size .text) m' ∧
      (∀ fuel, Run.loop (fuel + 3 + n) u 0 m c = Run.loop (fuel + 3) u 0
        (Demand.text.put (Demand.text.ofValue (.int (ObjectNode.outermost nodes))) m') c') ∧
      Declares c none [plan] nodes c' ∧ c.Gains nodes c' ∧ c'.Unwatched ∧
      (∀ n ∈ nodes, c'.objects.live[n.id]? = some n.ref) ∧
      ∀ id, (∀ n ∈ nodes, n.id ≠ id) → c'.objects.live[id]? = c.objects.live[id]? := by
  intro p text declared late d plan u m c
  have hword (t : Text) : (Expr.word p t).Constant t := constant_of_isLiteral rfl
  have htext (t : Text) : (text t).Constant t := constant_of_isLiteral rfl
  have hinside : (declared "ScriptObject" "Inside" none [] []).Says
      ⟨"ScriptObject", "Inside", [], [], [], []⟩ := ⟨hword _, htext _, rfl, .nil, rfl, .nil, rfl⟩
  have hlost : (declared "Missing" "Lost" none [] [declared "ScriptObject" "Inside" none [] []]).Says
      ⟨"Missing", "Lost", [], [], [], [⟨"ScriptObject", "Inside", [], [], [], []⟩]⟩ :=
    ⟨hword _, htext _, rfl, .nil, rfl, .nil, _, _, rfl, hinside, rfl⟩
  have hlate : late.Says
      ⟨"ScriptObject", "Late", "Whole", [], [⟨"weight", [], "2"⟩, ⟨"part", "0", "c"⟩], []⟩ :=
    ⟨hword _, htext _, rfl, .nil, rfl,
      .cons ⟨rfl, htext _, rfl⟩ (.cons ⟨rfl, htext _, htext _⟩ .nil), rfl⟩
  have hplan : d.Says plan := ⟨hword _, htext _, rfl, .nil, rfl, .cons ⟨rfl, htext _, rfl⟩ .nil,
    _, _, rfl, hlost, _, _, rfl, hlate, rfl⟩
  have hnamed : Stmt.Named (fun _ => True) (.ret p (some (.object d))) := by
    rintro _ ⟨⟩
    have hspelled : Text.ofString "weight" ≠ [] ∧ Text.ofString "Whole" ≠ [] ∧
        Text.ofString "weight" ≠ [] ∧ Text.ofString "part" ≠ [] := by decide
    simpa [d, late, declared, text, Named, NamedObject, NamedChildren, NamedFields, NamedField,
      NamedArgs] using hspelled
  have hloaded := Stmt.loaded_written hnamed [] (by decide)
  exact ⟨hplan, object_declares hplan .text hloaded.left rfl (unwatched_create 0 0 0)⟩

end declarations

end ConsoleScript
