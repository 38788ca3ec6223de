import ConsoleScript.Proofs.Console.Weaving

/-!
# Values that are dropped

The statement of an expression drops its value, and so the code that would only have read it is left
out. Everything before that is carried out as it is when the value is assigned to a variable. Where
the value of a variable or field is dropped, though, its index and its object are left out with it,
and with them whatever they do.
-/

namespace ConsoleScript

namespace Eval

/-- The variable of an assignment, which is made if it is missing. -/
def target (scope : ScopeId) (name : Text) : Eval (Option VarRef) := fun c =>
  create scope (c.intern name).1 (c.intern name).2

/-- The side effects of an assignment, and the console after them. -/
def writes (scope : ScopeId) (name : Text) (kind : Demand) (v : Value) (c : Console) :
    List Effect × Console :=
  let made := target scope name c
  let set := (assign made.1 v made.2).2
  ([⟨.setVarCreate, made.2⟩, ⟨kind.saveVar, set⟩], set)

end Eval

/-- Is everything in the expression carried out when its value is dropped? The index of a variable
and the object and index of a field are left out, so they must only read. -/
def Expr.keeps : Expr → Bool
  | var pos name index => (var pos name index).reads
  | slot pos obj field index => (slot pos obj field index).reads
  | cond _ _ whenTrue whenFalse => whenTrue.keeps && whenFalse.keeps
  | _ => true

/-- One run drops the value of an expression that another one assigns to a variable. Both perform
the same effects, one after the other, and fault alike. The assignment goes on with its own effects
where everything in the expression is kept; otherwise it may perform effects that the other run
leaves out. -/
def Performance.Drops (x : Expr) (name : Text) (o o' : Performance) : Prop :=
  match o.2 with
  | .error _ _ => o' = o
  | .ok m c => o.1 <+: o'.1 ∧ (x.keeps = true → ∃ (c₁ : Console) (v : Value) (m₁ : Machine),
      c.Renames c₁ ∧ o' = (o.1 ++ (Eval.writes m.scope name x.storedAs v c₁).1,
        .ok m₁ (Eval.writes m.scope name x.storedAs v c₁).2))

theorem Performance.Drops.parallel (x : Expr) (name : Text) :
    Parallel fun o o' => o.Drops x name o' where
  cons es o o' h := by
    obtain ⟨es₀, r⟩ := o
    cases r with
    | error f c =>
      obtain rfl : o' = (es₀, .error f c) := h
      rfl
    | ok m c =>
      obtain ⟨hbegins, hkept⟩ := h
      refine ⟨(List.prefix_append_right_inj es).mpr hbegins, fun hx => ?_⟩
      obtain ⟨c₁, v, m₁, hnames, rfl⟩ := hkept hx
      exact ⟨c₁, v, m₁, hnames, by rw [List.append_assoc]⟩
  fault es f c := rfl

/-! ## The end of an assignment -/

theorem Asm.Stored.next_saveVar {u : CodeUnit} {l : Literals} {ip : Nat} {kind : Demand}
    {is : List Asm} (hkind : kind ≠ .none) (hl : Asm.Stored u l ip (⟨kind.saveVar, []⟩ :: is))
    (block : BlockId) (m : Machine) (c : Console) : ∃ v : Value,
      Activation.Next u block (m.goto (ipWord ip), c)
        (m.goto (ipWord (ip + 1)), (Eval.assign m.var v c).2) := by
  cases kind with
  | none => exact absurd rfl hkind
  | int => exact ⟨.int m.topInt, hl.next_plain rfl (Run.bind_ok (m.saveVar_eq _ c))⟩
  | float => exact ⟨.float m.topFloat, hl.next_plain rfl (Run.bind_ok (m.saveVar_eq _ c))⟩
  | text => exact ⟨.text m.text, hl.next_plain rfl (Run.bind_ok (m.saveVar_eq _ c))⟩

theorem Asm.convert_none {kind : Demand} (hkind : kind ≠ .none) : ∃ op : Opcode,
    Asm.convert kind .none = [⟨op, []⟩] ∧ op.isPlain = true ∧ op.hasEffect = false := by
  cases kind with
  | none => exact absurd rfl hkind
  | int => exact ⟨.intToNone, rfl, rfl, rfl⟩
  | float => exact ⟨.floatToNone, rfl, rfl, rfl⟩
  | text => exact ⟨.textToNone, rfl, rfl, rfl⟩

/-- The instructions of an assignment, behind its value. -/
theorem Performs.writes {q : Stretch} {ip : Nat} {name : Text} {kind : Demand}
    (hkind : kind ≠ .none) (hq : q.Holds ip (⟨.setVarCreate, [.ident name]⟩
      :: Asm.plain [kind.saveVar] ++ Asm.convert kind .none)) (hstop : ip + 4 = q.stop) (fuel : Nat)
    (m : Machine) (c : Console) : ∃ (v : Value) (m' : Machine),
      Performs q fuel (m.goto (ipWord ip), c)
        ((Eval.writes m.scope name kind v c).1, .ok m' (Eval.writes m.scope name kind v c).2) := by
  obtain ⟨op, hop, hplain, hquiet⟩ := Asm.convert_none hkind
  have hsave : q.Holds (ip + 2) (⟨kind.saveVar, []⟩ :: Asm.convert kind .none) := hq.tail
  have hconvert : q.Holds (ip + 3) [⟨op, []⟩] := hop ▸ hsave.tail
  let made := Eval.target m.scope name c
  let m₁ : Machine := { m with var := made.1 }
  obtain ⟨v, hv⟩ := hsave.loaded.toStored.next_saveVar hkind q.block m₁ made.2
  obtain ⟨m₂, -, hm₂⟩ := hconvert.loaded.toStored.next_quiet hplain hquiet q.block m₁
    (Eval.assign made.1 v made.2).2
  have hend : Performs q fuel (m₂.goto (ipWord (ip + 3 + 1)), (Eval.assign made.1 v made.2).2) _ :=
    .stop (by rw [← hstop]; rfl)
  have hdrop := Glides.next hconvert hquiet hm₂ _ hend
  have hstore := (hdrop.next hsave hv).next hq (.setVarCreate hq.loaded rfl c)
  have hloud : kind.saveVar.hasEffect = true := by cases kind <;> rfl
  simp only [Opcode.effects, hloud] at hstore
  exact ⟨v, _, hstore⟩

/-! ## Expressions whose value is dropped -/

namespace Expr

section fits

variable {x : Expr} {name : Text} {q q' : Stretch} {fuel k' : Nat} (hplace : q.place = q'.place)
  (hwrites : ∀ (m : Machine) (c : Console), ∃ (v : Value) (m' : Machine),
    Performs q' fuel (m.goto (ipWord k'), c) ((Eval.writes m.scope name x.storedAs v c).1,
      .ok m' (Eval.writes m.scope name x.storedAs v c).2))

end fits

end Expr

namespace Stmt

end Stmt

end ConsoleScript
