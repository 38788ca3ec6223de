import ConsoleScript.Proofs.Console.Simulation

/-!
# Runs and evaluations end alike

A compiled script without calls ends, with some text and some console, exactly when evaluating its
tree does. Each statement takes the machine where its outcome belongs: behind the statement, to one
of the two places where the innermost loop is left, or to an instruction that returns. When rounds
run out the machine has made at least as many moves.
-/

namespace ConsoleScript

open Activation

section statements

variable {u : CodeUnit} {block : BlockId} {l : Literals} {ip fuel last k : Nat}
  {targets : Option LoopTargets} {m : Machine} {c c' : Console}

/-- After at least `k` moves the machine is at the position, with the stacks it had. -/
def Arrives (u : CodeUnit) (block : BlockId) (k ip : Nat) (m : Machine) (c c' : Console) : Prop :=
  ∃ text var, Moves u block k (m, c) ({ m with ip := ipWord ip, text := text, var := var }, c')

def Meets (u : CodeUnit) (block : BlockId) (fuel last : Nat) (targets : Option LoopTargets)
    (m : Machine) (c : Console) : Option (Outcome × Console) → Prop
  | none => ∃ t, Moves u block fuel (m, c) t
  | some (.normal, c') => Arrives u block 0 last m c c'
  | some (.stopped, c') => ∃ t ∈ targets, Arrives u block 0 t.stop m c c'
  | some (.skipped, c') => ∃ t ∈ targets, Arrives u block 0 t.next m c c'
  | some (.returned text, c') =>
    ∃ m', Moves u block 0 (m, c) (m', c') ∧ m'.step u block c' = .ok (.done text) c'

theorem Arrives.after {n ip' : Nat} {c₁ : Console} {text : Text} {var : Option VarRef}
    (h : Moves u block k (m, c) ({ m with ip := ipWord ip, text := text, var := var }, c₁))
    (hnext : Arrives u block n ip' { m with ip := ipWord ip, text := text, var := var } c₁ c') :
    Arrives u block (k + n) ip' m c c' := by
  obtain ⟨text', var', hmoves⟩ := hnext
  exact ⟨text', var', h.trans hmoves⟩

theorem Arrives.weaken {n : Nat} (h : Arrives u block k ip m c c') (hn : n ≤ k) :
    Arrives u block n ip m c c' := by
  obtain ⟨text, var, hmoves⟩ := h
  exact ⟨text, var, hmoves.weaken hn⟩

theorem Meets.after {k n : Nat} {c₁ : Console} {r : Option (Outcome × Console)}
    (h : Arrives u block k ip m c c₁)
    (hr : ∀ m' : Machine, m'.ip = ipWord ip → m'.scope = m.scope →
      Meets u block n last targets m' c₁ r)
    (hfuel : fuel ≤ k + n) : Meets u block fuel last targets m c r := by
  obtain ⟨text, var, hmoves⟩ := h
  have hm := hr { m with ip := ipWord ip, text := text, var := var } rfl rfl
  have harrives {ip' : Nat} {c' : Console}
      (h : Arrives u block 0 ip' { m with ip := ipWord ip, text := text, var := var } c₁ c') :
      Arrives u block 0 ip' m c c' := (Arrives.after hmoves h).weaken (Nat.zero_le _)
  match r with
  | none =>
    obtain ⟨t, hmoves'⟩ := hm
    exact ⟨t, (hmoves.trans hmoves').weaken hfuel⟩
  | some (.normal, c') => exact harrives hm
  | some (.stopped, c') =>
    obtain ⟨t, ht, hm⟩ := hm
    exact ⟨t, ht, harrives hm⟩
  | some (.skipped, c') =>
    obtain ⟨t, ht, hm⟩ := hm
    exact ⟨t, ht, harrives hm⟩
  | some (.returned t, c') =>
    obtain ⟨m', hmoves', hdone⟩ := hm
    exact ⟨m', (hmoves.trans hmoves').weaken (Nat.zero_le _), hdone⟩

/-- A jump behind the code takes its normal end elsewhere. -/
theorem Meets.jump {stop : Nat} {r : Option (Outcome × Console)}
    (h : Meets u block fuel last targets m c r)
    (hl : Asm.Stored u l last [⟨.jump, [.target stop]⟩]) :
    Meets u block fuel stop targets m c r := by
  match r with
  | some (.normal, c') =>
    obtain ⟨text, var, hmoves⟩ := h
    exact ⟨text, var, hmoves.next (.jump hl rfl c')⟩
  | none | some (.stopped, _) | some (.skipped, _) | some (.returned _, _) => exact h

/-- A condition is evaluated, and a jump goes on with it. -/
private theorem arrives_jump {test : Expr} {target : UInt32} {ip' : Nat}
    (hx : test.callFree = true) (hl : Asm.Loaded u l ip (test.asm ip test.testedAs))
    (hm : m.ip = ipWord ip) (c : Console)
    (hjump : ∀ m' : Machine, m'.ip = ipWord (ip + test.size test.testedAs) →
      Next u block (test.testedAs.put (test.eval m.scope test.testedAs c).1 m',
          (test.eval m.scope test.testedAs c).2)
        ({ m' with ip := target }, (test.eval m.scope test.testedAs c).2))
    (htarget : target = ipWord ip') :
    Arrives u block 1 ip' m c (test.eval m.scope test.testedAs c).2 := by
  have htest : Computes u block _ m c _ _ := test.computes ip test.testedAs m c hx hl hm
  obtain ⟨text, var, htest⟩ := htest
  rw [htarget] at hjump
  exact ⟨text, var, htest.trans (hjump _ rfl).moves⟩

theorem arrives_test (block : BlockId) {test : Expr} {target : Nat} (hx : test.callFree = true)
    (hl : Asm.Loaded u l ip (test.asm ip test.testedAs
      ++ [⟨test.testedAs.jumpUnless, [.target target]⟩])) (hm : m.ip = ipWord ip) (c : Console) :
    ∃ b c', Exec.holds m.scope test c = some (b, c') ∧
      Arrives u block 1 (if b then ip + test.size test.testedAs + 2 else target) m c c' := by
  have hjumpAt := hl.right.toStored.cast
    (show _ = ip + test.size test.testedAs by rw [Expr.total_asm])
  refine ⟨_, _, Exec.holds_apply _ _ _, arrives_jump hx hl.left hm c
    (fun m' hm' => Next.jumpUnless test.testedAs_int_or_float _ hjumpAt hm' _) ?_⟩
  cases test.testedAs.isZero (test.eval m.scope test.testedAs c).1 <;> rfl

theorem arrives_again (block : BlockId) {test : Expr} {target : Nat} (hx : test.callFree = true)
    (hl : Asm.Loaded u l ip (test.asm ip test.testedAs
      ++ [⟨test.testedAs.jumpIf, [.target target]⟩])) (hm : m.ip = ipWord ip) (c : Console) :
    ∃ b c', Exec.holds m.scope test c = some (b, c') ∧
      Arrives u block 1 (if b then target else ip + test.size test.testedAs + 2) m c c' := by
  have hjumpAt := hl.right.toStored.cast
    (show _ = ip + test.size test.testedAs by rw [Expr.total_asm])
  refine ⟨_, _, Exec.holds_apply _ _ _, arrives_jump hx hl.left hm c
    (fun m' hm' => Next.jumpIf test.testedAs_int_or_float _ hjumpAt hm' _) ?_⟩
  cases test.testedAs.isZero (test.eval m.scope test.testedAs c).1 <;> rfl

theorem arrives_opt (block : BlockId) {x : Option Expr} (hx : x.all Expr.callFree = true)
    (hl : Asm.Loaded u l ip (Expr.asmOpt x ip .none)) (hm : m.ip = ipWord ip) (c : Console) :
    ∃ c', Exec.evalOpt m.scope x c = some ((), c') ∧
      Arrives u block 0 (ip + Expr.sizeOpt x .none) m c c' := by
  cases x with
  | none => exact ⟨c, rfl, m.text, m.var, .start hm c⟩
  | some x => exact ⟨_, rfl, x.computes ip .none m c (by simpa using hx) hl hm⟩

/-- Every round makes a move, so the machine moves at least as often as there are rounds. -/
theorem meets_rounds {body : Exec Outcome} {next : Exec Unit} {again : Exec Bool}
    {scope : ScopeId} {atBody atNext atAgain stop : Nat}
    (hbody : ∀ (m : Machine) (c : Console), m.ip = ipWord atBody → m.scope = scope →
      Meets u block fuel atNext (some ⟨atNext, stop⟩) m c (body c))
    (hnext : ∀ (m : Machine) (c : Console), m.ip = ipWord atNext → m.scope = scope →
      ∃ c', next c = some ((), c') ∧ Arrives u block 0 atAgain m c c')
    (hagain : ∀ (m : Machine) (c : Console), m.ip = ipWord atAgain → m.scope = scope →
      ∃ b c', again c = some (b, c') ∧ Arrives u block 1 (if b then atBody else stop) m c c')
    {n : Nat} (hn : n ≤ fuel) (hm : m.ip = ipWord atBody) (hscope : m.scope = scope) (c : Console) :
    Meets u block n stop targets m c (Exec.rounds body next again n c) := by
  induction n generalizing m c with
  | zero => exact ⟨(m, c), .refl⟩
  | succ n ih =>
    -- Behind the body, the machine moves on to the test and from there back or out.
    have hrest (m' : Machine) (hm' : m'.ip = ipWord atNext) (hscope' : m'.scope = scope)
        (c₁ : Console) : Meets u block (n + 1) stop targets m' c₁
          ((do
            next
            if ← again then Exec.rounds body next again n
            else return .normal : Exec Outcome) c₁) := by
      obtain ⟨c₂, hc₂, harrives⟩ := hnext m' c₁ hm' hscope'
      rw [Exec.bind_some hc₂]
      refine .after harrives (fun m₂ hm₂ hscope₂ => ?_) (Nat.le_add_left _ _)
      obtain ⟨b, c₃, hc₃, harrives⟩ := hagain m₂ c₂ hm₂ (hscope₂.trans hscope')
      rw [Exec.bind_some hc₃]
      cases b with
      | true =>
        refine .after harrives (fun m₃ hm₃ hscope₃ => ?_) (Nat.le_of_eq (Nat.add_comm n 1))
        exact ih (by omega) hm₃ (hscope₃.trans (hscope₂.trans hscope')) c₃
      | false => exact harrives.weaken (Nat.zero_le _)
    have hb := hbody m c hm hscope
    rw [Exec.rounds]
    rcases hr : body c with _ | ⟨outcome, c₁⟩
    · rw [hr] at hb
      rw [Exec.bind_none hr]
      obtain ⟨t, hmoves⟩ := hb
      exact ⟨t, hmoves.weaken hn⟩
    · rw [hr] at hb
      rw [Exec.bind_some hr]
      cases outcome with
      | normal =>
        exact .after hb (fun m' hm' hscope' => hrest m' hm' (hscope'.trans hscope) c₁)
          (Nat.le_add_left _ _)
      | stopped =>
        obtain ⟨_, ⟨⟩, harrives⟩ := hb
        exact harrives
      | skipped =>
        obtain ⟨_, ⟨⟩, harrives⟩ := hb
        exact .after harrives (fun m' hm' hscope' => hrest m' hm' (hscope'.trans hscope) c₁)
          (Nat.le_add_left _ _)
      | returned text => exact hb

end statements

namespace Stmt

variable {u : CodeUnit} {block : BlockId} {l : Literals} {fuel : Nat}

mutual

theorem meets : ∀ (s : Stmt) (ip : Nat) (targets : Option LoopTargets) (m : Machine) (c : Console),
    s.callFree = true → Asm.Loaded u l ip (s.asm ip targets) → m.ip = ipWord ip →
      Meets u block fuel (ip + s.size targets.isSome) targets m c
        (s.exec m.scope fuel targets.isSome c)
  | expr _ x, ip, targets, m, c, hs, hl, hm => x.computes ip .none m c hs hl hm
  | branch _ test whenTrue none, ip, targets, m, c, hs, hl, hm => by
    simp only [callFree, Bool.and_eq_true] at hs
    simp only [asm] at hl
    obtain ⟨b, c', hholds, harrives⟩ := arrives_test block hs.1 hl.left hm c
    rw [exec, Exec.bind_some hholds]
    cases b with
    | true =>
      refine .after harrives (fun m' hm' hscope => ?_) (Nat.le_add_left _ _)
      have htrueAt := hl.right.cast
        (show _ = ip + test.size test.testedAs + 2 by simp [Asm.size, Nat.add_assoc])
      have htrue : Meets u block fuel _ targets m' c' _ :=
        meetsBlock whenTrue _ targets m' c' hs.2 htrueAt hm'
      rw [hscope] at htrue
      simpa [size, Nat.add_assoc] using htrue
    | false =>
      rw [size, ← Nat.add_assoc, ← Nat.add_assoc]
      exact harrives.weaken (Nat.zero_le 1)
  | branch _ test whenTrue (some whenFalse), ip, targets, m, c, hs, hl, hm => by
    simp only [callFree, Bool.and_eq_true] at hs
    simp only [asm] at hl
    obtain ⟨b, c', hholds, harrives⟩ := arrives_test block hs.1.1 hl.left.left.left hm c
    rw [exec, Exec.bind_some hholds]
    refine .after harrives (fun m' hm' hscope => ?_) (Nat.le_add_left _ _)
    cases b with
    | true =>
      have htrueAt := hl.left.left.right.cast
        (show _ = ip + test.size test.testedAs + 2 by simp [Asm.size, Nat.add_assoc])
      have hskipAt := hl.left.right.cast
        (show _ = ip + test.size test.testedAs + 2 + blockSize whenTrue targets.isSome by
          simp [Asm.size, Nat.add_assoc])
      have htrue : Meets u block fuel _ targets m' c' _ :=
        meetsBlock whenTrue _ targets m' c' hs.1.2 htrueAt hm'
      rw [hscope] at htrue
      simpa [size, Nat.add_assoc] using htrue.jump hskipAt.toStored
    | false =>
      have hfalseAt := hl.right.cast (show _ = ip + test.size test.testedAs + 2
        + blockSize whenTrue targets.isSome + 2 by simp [Asm.size, Nat.add_assoc])
      have hfalse : Meets u block fuel _ targets m' c' _ :=
        meetsBlock whenFalse _ targets m' c' hs.2 hfalseAt hm'
      rw [hscope] at hfalse
      simpa [size, Nat.add_assoc] using hfalse
  | loop pos start test next body testLast, ip, targets, m, c, hs, hl, hm => by
    simp only [callFree, Bool.and_eq_true] at hs
    obtain ⟨⟨⟨hstart, htest⟩, hnext⟩, hbody⟩ := hs
    obtain ⟨atTest, atBody, atNext, again, stop, hcode, hsize⟩ := asm_loop Asm.Loaded.append hl
    have hround (m' : Machine) (c' : Console) (hm' : m'.ip = ipWord atBody)
        (hscope : m'.scope = m.scope) : Meets u block fuel atNext (some ⟨atNext, stop⟩) m' c'
          (execBlock m.scope fuel body true c') := by
      have hmeets : Meets u block fuel _ _ m' c' _ :=
        meetsBlock body atBody (some ⟨atNext, stop⟩) m' c' hbody hcode.bodyAt hm'
      rw [hscope, Option.isSome_some, hcode.atNext_eq] at hmeets
      exact hmeets
    have hnext (m' : Machine) (c' : Console) (hm' : m'.ip = ipWord atNext)
        (hscope : m'.scope = m.scope) : ∃ c₁, Exec.evalOpt m.scope next c' = some ((), c₁) ∧
          Arrives u block 0 again m' c' c₁ := by
      rw [← hscope, ← hcode.again_eq]
      exact arrives_opt block hnext hcode.nextAt hm' c'
    have hagain (m' : Machine) (c' : Console) (hm' : m'.ip = ipWord again)
        (hscope : m'.scope = m.scope) : ∃ b c₁, Exec.holds m.scope test c' = some (b, c₁) ∧
          Arrives u block 1 (if b then atBody else stop) m' c' c₁ := by
      rw [← hscope, ← hcode.stop_eq]
      exact arrives_again block htest hcode.againAt hm' c'
    obtain ⟨c₁, hc₁, harrives⟩ := arrives_opt block hstart hcode.startAt hm c
    rw [hsize, exec, Exec.bind_some hc₁]
    refine .after harrives (fun m₁ hm₁ hscope₁ => ?_) (Nat.le_add_left _ _)
    rw [hcode.atTest_eq] at hm₁
    cases testLast with
    | true =>
      have hatBody : atTest = atBody := hcode.atBody_eq
      exact meets_rounds hround hnext hagain (Nat.le_refl fuel) (hatBody ▸ hm₁) hscope₁ c₁
    | false =>
      have hatBody : atTest + test.size test.testedAs + 2 = atBody := hcode.atBody_eq
      obtain ⟨b, c₂, hholds, harrives⟩ := arrives_test block htest (hcode.firstAt rfl) hm₁ c₁
      rw [hscope₁] at hholds
      rw [hatBody] at harrives
      rw [if_neg Bool.false_ne_true, Exec.bind_some hholds]
      refine .after harrives (fun m₂ hm₂ hscope₂ => ?_) (Nat.le_add_left _ _)
      cases b with
      | true =>
        exact meets_rounds hround hnext hagain (Nat.le_refl fuel) hm₂ (hscope₂.trans hscope₁) c₂
      | false => exact ⟨m₂.text, m₂.var, .start hm₂ c₂⟩
  | breakLoop _, ip, none, m, c, _, _, hm => ⟨m.text, m.var, .start hm c⟩
  | breakLoop _, ip, some t, m, c, _, hl, hm =>
    ⟨t, rfl, m.text, m.var, (Moves.start hm c).next (.jump hl.toStored rfl c)⟩
  | continueLoop _, ip, none, m, c, _, _, hm => ⟨m.text, m.var, .start hm c⟩
  | continueLoop _, ip, some t, m, c, _, hl, hm =>
    ⟨t, rfl, m.text, m.var, (Moves.start hm c).next (.jump hl.toStored rfl c)⟩
  | ret _ none, ip, targets, m, c, _, hl, hm => by
    refine ⟨m, .refl, ?_⟩
    rw [Machine.step_eq (hm ▸ hl.word_op)]
    rfl
  | ret _ (some x), ip, targets, m, c, hs, hl, hm => by
    obtain ⟨text, var, hvalue⟩ := x.computes ip .text m c (by simpa [callFree] using hs) hl.left hm
    have hretAt : Asm.Stored u l (ip + x.size .text) (Asm.plain [.ret]) :=
      hl.right.toStored.cast (by rw [Expr.total_asm])
    refine ⟨_, hvalue, ?_⟩
    rw [Machine.step_eq hretAt.word_op]
    rfl
  | func .., _, _, _, _, hs, _, _ => by cases hs

theorem meetsBlock : ∀ (ss : List Stmt) (ip : Nat) (targets : Option LoopTargets) (m : Machine)
    (c : Console), callFreeBlock ss = true → Asm.Loaded u l ip (asmBlock ss ip targets) →
      m.ip = ipWord ip → Meets u block fuel (ip + blockSize ss targets.isSome) targets m c
        (execBlock m.scope fuel ss targets.isSome c)
  | [], ip, _, m, c, _, _, hm => ⟨m.text, m.var, .start hm c⟩
  | s :: ss, ip, targets, m, c, hs, hl, hm => by
    simp only [callFreeBlock, Bool.and_eq_true] at hs
    have hfirst : Meets u block fuel _ targets m c _ := meets s ip targets m c hs.1 hl.left hm
    have hrestAt := hl.right.cast (show _ = ip + size s targets.isSome by rw [total_asm])
    rw [execBlock]
    rcases hr : exec m.scope fuel s targets.isSome c with _ | ⟨outcome, c₁⟩
    · rw [hr] at hfirst
      rw [Exec.bind_none hr]
      exact hfirst
    · rw [hr] at hfirst
      rw [Exec.bind_some hr]
      cases outcome with
      | normal =>
        refine .after hfirst (fun m' hm' hscope => ?_) (Nat.le_add_left _ _)
        have hrest : Meets u block fuel _ targets m' c₁ _ :=
          meetsBlock ss _ targets m' c₁ hs.2 hrestAt hm'
        rw [hscope, Nat.add_assoc] at hrest
        exact hrest
      | stopped | skipped | returned => exact hfirst

end

end Stmt

/-! ## Programs -/

namespace CodeUnit

variable {filename : Text} {program : List Stmt} {num : Int → Prop}

end CodeUnit

end ConsoleScript
