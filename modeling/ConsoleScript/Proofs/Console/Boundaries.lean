import ConsoleScript.Proofs.Code.Decoding
import ConsoleScript.Proofs.Console.Namespaces
import ConsoleScript.Proofs.Console.StackDiscipline

/-!
# Stacks between statements

A statement starts with empty stacks and ends with them, wherever its jumps lead. Loops may go on
forever, so what is proved of a run is proved of its first moves, however many these are. The
stretches of code between two boundaries hold an expression each, and no boundary stands inside of
such a stretch.
-/

namespace ConsoleScript

namespace Activation

variable {u : CodeUnit} {block : BlockId} {ok goal : Machine → Prop} {n : Nat} {s t : Activation}

/-- The first `n` moves go through states that are all right, whichever moves these are. -/
def Safe (u : CodeUnit) (block : BlockId) (ok : Machine → Prop) : Nat → Activation → Prop
  | 0, _ => True
  | n + 1, s => ok s.1 ∧ ∀ t, Step u block s t → Safe u block ok n t

theorem Safe.of_succ (h : Safe u block ok (n + 1) s) : Safe u block ok n s := by
  induction n generalizing s with
  | zero => trivial
  | succ n ih => exact ⟨h.1, fun t ht => ih (h.2 t ht)⟩

theorem Leads.safe (h : Leads u block ok goal s)
    (hgoal : ∀ t : Activation, goal t.1 → Safe u block ok n t) : Safe u block ok n s := by
  induction h generalizing n with
  | here h => exact hgoal _ h
  | move h _ ih =>
    cases n with
    | zero => trivial
    | succ n => exact ⟨h, fun t ht => ih t ht fun t ht => (hgoal t ht).of_succ⟩

/-- What is safe for any number of moves is all right for good. -/
theorem Safe.of_steps (h : ∀ n, Safe u block ok n s) (hsteps : Steps u block s t) : ok t.1 := by
  induction hsteps using Relation.ReflTransGen.head_induction_on with
  | refl => exact (h 1).1
  | head hstep _ ih => exact ih fun n => (h (n + 1)).2 _ hstep

end Activation

/-! ## Boundaries -/

namespace Stmt

mutual

/-- The positions where statements inside the statement start or end. -/
def inner : Stmt → Nat → Bool → List Nat
  | branch _ test whenTrue whenFalse, ip, inLoop =>
    let onTrue := ip + test.size test.testedAs + 2
    boundaries whenTrue onTrue inLoop
      ++ (match whenFalse with
        | none => []
        | some whenFalse => boundaries whenFalse (onTrue + blockSize whenTrue inLoop + 2) inLoop)
  | loop _ start test _ body testLast, ip, _ =>
    let atTest := ip + Expr.sizeOpt start .none
    boundaries body (if testLast then atTest else atTest + test.size test.testedAs + 2) true
  | func _ _ _ _ params body, ip, _ => boundaries body (ip + 7 + params.length) false
  | expr .., _, _ | breakLoop _, _, _ | continueLoop _, _, _ | ret .., _, _ => []

/-- The positions where the statements, and those inside them, start or end. -/
def boundaries : List Stmt → Nat → Bool → List Nat
  | [], _, _ => []
  | s :: ss, ip, inLoop =>
    ip :: (ip + size s inLoop) :: inner s ip inLoop ++ boundaries ss (ip + size s inLoop) inLoop

end

mutual

theorem inner_within : ∀ (s : Stmt) (ip : Nat) (inLoop : Bool), ∀ n ∈ inner s ip inLoop,
    ip ≤ n ∧ n ≤ ip + size s inLoop
  | branch _ test whenTrue none, ip, inLoop, n, hn => by
    simp only [inner, List.append_nil] at hn
    have htrue := boundaries_within whenTrue _ _ n hn
    simp only [size]
    omega
  | branch _ test whenTrue (some whenFalse), ip, inLoop, n, hn => by
    simp only [inner, List.mem_append] at hn
    simp only [size]
    rcases hn with hn | hn
    · have htrue := boundaries_within whenTrue _ _ n hn
      omega
    · have hfalse := boundaries_within whenFalse _ _ n hn
      omega
  | loop _ start test next body testLast, ip, inLoop, n, hn => by
    simp only [inner] at hn
    have hbody := boundaries_within body _ _ n hn
    simp only [size]
    cases testLast <;> simp at hbody ⊢ <;> omega
  | func _ _ _ _ params body, ip, inLoop, n, hn => by
    simp only [inner] at hn
    have hbody := boundaries_within body _ _ n hn
    simp only [size]
    omega
  | expr .., _, _, _, hn | breakLoop _, _, _, _, hn | continueLoop _, _, _, _, hn
  | ret .., _, _, _, hn => by simp [inner] at hn

theorem boundaries_within : ∀ (ss : List Stmt) (ip : Nat) (inLoop : Bool),
    ∀ n ∈ boundaries ss ip inLoop, ip ≤ n ∧ n ≤ ip + blockSize ss inLoop
  | [], _, _, _, hn => by simp [boundaries] at hn
  | s :: ss, ip, inLoop, n, hn => by
    simp only [boundaries, List.cons_append, List.mem_cons, List.mem_append] at hn
    simp only [blockSize]
    rcases hn with rfl | rfl | hn | hn
    · omega
    · omega
    · have hs := inner_within s ip inLoop n hn
      omega
    · have hss := boundaries_within ss _ inLoop n hn
      omega

end

end Stmt

namespace Site

/-- Of these positions, those inside the code of the node are boundaries of its own inner
statements. -/
def Owns (all : List Nat) : Site → Prop
  | stmt s targets ip => ∀ n ∈ all, ip < n → n < ip + s.size targets.isSome →
    n ∈ s.inner ip targets.isSome
  | _ => True

private theorem owns_block {all : List Nat} (ss : List Stmt) (targets : Option LoopTargets)
    (ip : Nat) (h : ∀ n ∈ all, ip < n → n < ip + Stmt.blockSize ss targets.isSome →
      n ∈ Stmt.boundaries ss ip targets.isSome) : ∀ q ∈ block ss targets ip, q.Owns all := by
  induction ss generalizing ip with
  | nil => simp [block]
  | cons s ss ih =>
    simp only [Stmt.boundaries, Stmt.blockSize, List.cons_append, List.mem_cons,
      List.mem_append] at h
    rw [block, List.forall_mem_cons]
    constructor
    · intro n hn hfirst hlast
      rcases h n hn hfirst (by omega) with rfl | rfl | hs | hss
      · omega
      · omega
      · exact hs
      · have := Stmt.boundaries_within ss _ _ n hss
        omega
    · apply ih
      intro n hn hfirst hlast
      rcases h n hn (by omega) (by omega) with rfl | rfl | hs | hss
      · omega
      · omega
      · have := Stmt.inner_within s _ _ n hs
        omega
      · exact hss

private theorem owns_of_not_isStmt {all : List Nat} {q : Site} (h : q.isStmt = false) :
    q.Owns all := by
  cases q with
  | stmt => cases h
  | expr | field | object => trivial

theorem Owns.parts {all : List Nat} {q : Site} (h : q.Owns all) : ∀ p ∈ q.parts, p.Owns all := by
  cases q with
  | expr x want ip => exact fun p hp => owns_of_not_isStmt (isStmt_parts rfl p hp)
  | field f ip => exact fun p hp => owns_of_not_isStmt (isStmt_parts rfl p hp)
  | object d root ip => exact fun p hp => owns_of_not_isStmt (isStmt_parts rfl p hp)
  | stmt s targets ip =>
    simp only [Owns] at h
    cases s with
    | expr => simp [Site.parts, stmtParts, Owns]
    | branch _ test whenTrue whenFalse =>
      cases whenFalse with
      | none =>
        simp only [Stmt.inner, Stmt.size, List.append_nil] at h
        simp only [Site.parts, stmtParts, List.append_nil, List.forall_mem_cons]
        exact ⟨trivial, owns_block whenTrue _ _ fun n hn _ _ => h n hn (by omega) (by omega)⟩
      | some whenFalse =>
        simp only [Stmt.inner, Stmt.size, List.mem_append] at h
        simp only [Site.parts, stmtParts, List.cons_append, List.forall_mem_cons,
          List.forall_mem_append]
        refine ⟨trivial, owns_block whenTrue _ _ fun n hn _ _ => ?_,
          owns_block whenFalse _ _ fun n hn _ _ => ?_⟩
        · rcases h n hn (by omega) (by omega) with htrue | hfalse
          · exact htrue
          · have := Stmt.boundaries_within whenFalse _ _ n hfalse
            omega
        · rcases h n hn (by omega) (by omega) with htrue | hfalse
          · have := Stmt.boundaries_within whenTrue _ _ n htrue
            omega
          · exact hfalse
    | loop _ start test next body testLast =>
      simp only [Stmt.inner, Stmt.size] at h
      simp only [Site.parts, stmtParts, List.forall_mem_append, List.forall_mem_singleton]
      refine ⟨⟨⟨⟨fun p hp => owns_of_not_isStmt (isStmt_opt _ _ _ p hp), ?_⟩,
        owns_block body _ _ fun n hn hfirst hlast => h n hn ?_ ?_⟩,
        fun p hp => owns_of_not_isStmt (isStmt_opt _ _ _ p hp)⟩, trivial⟩
      · cases testLast <;> simp [Owns]
      · cases testLast <;> simp at hfirst <;> omega
      · cases testLast <;> simp at hlast ⊢ <;> omega
    | breakLoop | continueLoop => simp [Site.parts, stmtParts]
    | ret _ value => exact fun p hp => owns_of_not_isStmt (isStmt_opt value .text ip p hp)
    | func _ _ _ _ params body =>
      simp only [Stmt.inner, Stmt.size] at h
      exact owns_block body none _ fun n hn _ _ => h n hn (by omega) (by simp at *; omega)

/-- No boundary of another statement stands inside the code of a statement. -/
theorem Occurs.owns {program : List Stmt} {q : Site} (h : q.Occurs program) :
    q.Owns (Stmt.boundaries program 0 false) := by
  obtain ⟨top, htop, hwithin⟩ := h
  induction hwithin with
  | whole => exact owns_block program none 0 (fun n hn _ _ => hn) top htop
  | part _ hr ih => exact ih.parts _ hr

end Site

/-! ## Statements -/

def Stmt.Declared (program : List Stmt) (ip : Nat) : Prop :=
  ∃ pos name ns package params body targets,
    (Site.stmt (.func pos name ns package params body) targets ip).Occurs program

/-- Every stack has what the next instruction needs, none has anything between two statements, and
what declares a function is a declaration of the program. -/
structure Machine.Orderly (u : CodeUnit) (program : List Stmt) (m : Machine) : Prop where
  enough : m.Enough u
  empty : m.ip.toNat ∈ Stmt.boundaries program 0 false → m.stacks = {}
  declared : u.word m.ip = .ok Opcode.funcDecl.word → Stmt.Declared program m.ip.toNat

/-- The first `n` moves of an activation that is at the position with empty stacks are orderly. -/
def SafeAt (u : CodeUnit) (block : BlockId) (program : List Stmt) (n ip : Nat) : Prop :=
  ∀ s : Activation, Placed {} {} ip s.1 → Activation.Safe u block (Machine.Orderly u program) n s

def LeavesSafe (u : CodeUnit) (block : BlockId) (program : List Stmt) (n : Nat)
    (targets : Option LoopTargets) : Prop :=
  ∀ t ∈ targets, SafeAt u block program n t.next ∧ SafeAt u block program n t.stop

theorem Stacked.eq_base {base s : Stacks} (h : Stacked {} base s) : s = base := by
  obtain ⟨ints, floats, parked, args, objects⟩ := s
  obtain ⟨hints, hfloats, hparked, hargs, hobjects⟩ := h
  cases hints
  cases hfloats
  cases hparked
  cases hargs
  cases hobjects
  rfl

theorem Inside.orderly {u : CodeUnit} {program : List Stmt} {first last : Nat} {m : Machine}
    (hm : Inside u {} {} first last m)
    (hfree : ∀ n ∈ Stmt.boundaries program 0 false, first < n → ¬n < last) :
    m.Orderly u program where
  enough := hm.enough
  empty := by
    intro hmem
    by_cases hfirst : m.ip.toNat = first
    · exact (hm.stacked hfirst).eq_base
    · have := hm.first_le
      exact absurd hm.lt_last (hfree _ hmem (by omega))
  declared := fun hword => absurd hword hm.ne_funcDecl

section statements

variable {u : CodeUnit} {block : BlockId} {l : Literals} {program : List Stmt} {n ip : Nat}

theorem SafeAt.zero : SafeAt u block program 0 ip := fun _ _ => trivial

theorem SafeAt.of_succ (h : SafeAt u block program (n + 1) ip) : SafeAt u block program n ip :=
  fun s hs => (h s hs).of_succ

theorem LeavesSafe.none : LeavesSafe u block program n none := nofun

theorem SafeAt.of_step {i : Asm} {is : List Asm} (hl : Asm.Stored u l ip (i :: is))
    (hpops : i.op.pops = {}) (hop : i.op = .funcDecl → Stmt.Declared program ip)
    (hnext : ∀ {m m' : Machine} {c c' : Console}, Placed {} {} ip m →
      Activation.Step u block (m, c) (m', c') →
      Activation.Safe u block (Machine.Orderly u program) n (m', c')) :
    SafeAt u block program (n + 1) ip := by
  rintro ⟨m, c⟩ (hm : Placed {} {} ip m)
  refine ⟨⟨?_, fun _ => hm.stacked.eq_base, ?_⟩, fun t ht => hnext hm ht⟩
  · have hm : Placed {} ({} + i.op.pops) ip m := by
      rw [hpops]
      exact hm
    exact hm.enough hl.word_op
  · intro hword
    rw [hm.ip, hl.word_op, Except.ok.injEq] at hword
    rw [hm.toNat_ip hl]
    exact hop (Opcode.word_injective hword)

theorem SafeAt.jump {target : Nat} (hl : Asm.Stored u l ip [⟨.jump, [.target target]⟩])
    (htarget : SafeAt u block program n target) : SafeAt u block program (n + 1) ip :=
  .of_step hl rfl nofun fun hm ht => htarget _ (hm.step_jump hl ht)

theorem SafeAt.retVoid (hl : Asm.Stored u l ip [⟨.retVoid, []⟩]) : SafeAt u block program n ip :=
  SafeAt.of_succ (.of_step hl rfl nofun fun hm ht => absurd ht (hm.not_step_retVoid hl))

theorem SafeAt.ret (hl : Asm.Stored u l ip [⟨.ret, []⟩]) : SafeAt u block program n ip :=
  SafeAt.of_succ (.of_step hl rfl nofun fun hm ht => absurd ht (hm.not_step_ret hl))

theorem SafeAt.runs {is : List Asm} (hr : Runs ip is {} {}) (hl : Asm.Stored u l ip is)
    (hfree : ∀ n ∈ Stmt.boundaries program 0 false, ip < n → ¬n < ip + Asm.total is)
    (hnext : SafeAt u block program n (ip + Asm.total is)) : SafeAt u block program n ip := by
  intro s hs
  have hleads := hr.leads u block l {} s hl hs
  exact (hleads.weaken (fun m hm => hm.orderly hfree) fun _ hm => hm).safe hnext

/-- A test with the jump behind it, between two boundaries. -/
theorem SafeAt.test {d : Demand} {op : Opcode} {test : List Asm} {target : Nat}
    (hd : d = .int ∨ d = .float) (hop : op = d.jumpUnless ∨ op = d.jumpIf)
    (hr : Runs ip test {} ({} + d.height))
    (hl : Asm.Stored u l ip (test ++ [⟨op, [.target target]⟩]))
    (hfree : ∀ n ∈ Stmt.boundaries program 0 false, ip < n → ¬n < ip + Asm.total test + 2)
    (htarget : SafeAt u block program n target)
    (hnext : SafeAt u block program n (ip + Asm.total test + 2)) :
    SafeAt u block program (n + 1) ip := by
  intro s hs
  have hbranch : op = .jumpUnless ∨ op = .jumpIf ∨ op = .jumpUnlessFloat ∨ op = .jumpIfFloat := by
    rcases hd with rfl | rfl <;> rcases hop with rfl | rfl <;>
      simp [Demand.jumpUnless, Demand.jumpIf]
  have hne : op ≠ .funcDecl := by rcases hbranch with rfl | rfl | rfl | rfl <;> decide
  have hheight : d.height = op.pops := by
    rcases hd with rfl | rfl <;> rcases hop with rfl | rfl <;> rfl
  rw [hheight] at hr
  have hleads : Activation.Leads u block (Inside u {} {} ip (ip + Asm.total test + 2))
      (Placed {} ({} + op.pops) (ip + Asm.total test)) s :=
    hr.within hl.left hs (Nat.le_refl _) (by omega) fun _ => rfl
  refine (hleads.weaken (fun m hm => hm.orderly hfree) fun _ hm => hm).safe ?_
  rintro ⟨m, c⟩ hm
  have hinside : Inside u {} {} ip (ip + Asm.total test + 2) m :=
    hm.within hl.right (hm.enough hl.right.word_op) hne (Nat.le_add_right _ _) (by omega)
      fun hip => hr.stay (by omega)
  refine ⟨hinside.orderly hfree, fun ⟨m', c'⟩ ht => ?_⟩
  rcases hm.step_branch hbranch hl.right ht with hm' | hm'
  · exact htarget _ hm'
  · exact hnext _ hm'

/-- An expression statement, or what starts or advances a loop. -/
theorem SafeAt.opt {x : Option Expr} (hl : Asm.Stored u l ip (Expr.asmOpt x ip .none))
    (hfree : ∀ n ∈ Stmt.boundaries program 0 false, ip < n → ¬n < ip + Expr.sizeOpt x .none)
    (hnext : SafeAt u block program n (ip + Expr.sizeOpt x .none)) :
    SafeAt u block program n ip := by
  cases x with
  | none => exact hnext
  | some x =>
    rw [← Expr.total_asmOpt _ ip] at hfree hnext
    exact .runs (x.runs_asm ip .none {}) hl hfree hnext

/-- A round of a loop makes at least one move, the jump back. -/
theorem SafeAt.loop {atBody atNext again stop : Nat}
    (hbody : ∀ n, SafeAt u block program n atNext → SafeAt u block program n stop →
      SafeAt u block program n atBody)
    (hnext : ∀ n, SafeAt u block program n again → SafeAt u block program n atNext)
    (hagain : ∀ n, SafeAt u block program n atBody → SafeAt u block program n stop →
      SafeAt u block program (n + 1) again)
    (hstop : SafeAt u block program n stop) : SafeAt u block program n atBody := by
  induction n with
  | zero => exact .zero
  | succ n ih =>
    have hround := hagain n (ih hstop.of_succ) hstop.of_succ
    exact hbody _ (hnext _ hround) hstop

theorem SafeAt.loopCode {start next : Option Expr} {test : Expr} {body : List Stmt}
    {testLast : Bool} {atTest atBody atNext again stop : Nat}
    (h : Stmt.LoopCode (Asm.Stored u l) start test next body testLast ip atTest atBody atNext again
      stop)
    (hfree : ∀ k ∈ Stmt.boundaries program 0 false, ip < k → k < stop → atBody ≤ k ∧ k ≤ atNext)
    (hbody : ∀ n, SafeAt u block program n atNext → SafeAt u block program n stop →
      SafeAt u block program n atBody)
    (hend : SafeAt u block program n stop) : SafeAt u block program n ip := by
  obtain ⟨hatTest, hatBody, hatNext, hagain, hstop, hstartAt, hfirstAt, -, hnextAt, hagainAt⟩ := h
  have horder : atTest ≤ atBody := by
    cases testLast <;> simp at hatBody <;> omega
  have hround : SafeAt u block program n atBody := by
    refine .loop hbody (fun n h => .opt hnextAt ?_ (hagain ▸ h)) (fun n hbody hend => ?_) hend
    · intro k hk hfirst hlast
      have := hfree k hk (by omega) (by omega)
      omega
    · refine .test test.testedAs_int_or_float (.inr rfl) (test.runs_asm again _ {}) hagainAt ?_
        hbody (by rwa [Expr.total_asm, hstop])
      intro k hk hfirst hlast
      rw [Expr.total_asm] at hlast
      have := hfree k hk (by omega) (by omega)
      omega
  have htest : SafeAt u block program n atTest := by
    cases testLast with
    | true => rwa [← show atTest = atBody from hatBody] at hround
    | false =>
      have hatBody : atTest + test.size test.testedAs + 2 = atBody := hatBody
      refine SafeAt.of_succ (.test test.testedAs_int_or_float (.inl rfl)
        (test.runs_asm atTest _ {}) (hfirstAt rfl) ?_ hend (by rwa [Expr.total_asm, hatBody]))
      intro k hk hfirst hlast
      rw [Expr.total_asm] at hlast
      have := hfree k hk (by omega) (by omega)
      omega
  refine .opt hstartAt ?_ (hatTest ▸ htest)
  intro k hk hfirst hlast
  have := hfree k hk hfirst (by omega)
  omega

end statements

namespace Stmt

variable {u : CodeUnit} {block : BlockId} {l : Literals} {program : List Stmt}

mutual

/-- A statement goes from its start to its end, or leaves a loop, in an orderly way. -/
theorem safe_asm : ∀ (s : Stmt) (ip : Nat) (targets : Option LoopTargets) (n : Nat),
    (Site.stmt s targets ip).Occurs program → Asm.Stored u l ip (s.asm ip targets) →
      SafeAt u block program n (ip + s.size targets.isSome) →
      LeavesSafe u block program n targets → SafeAt u block program n ip
  | expr _ x, ip, targets, n, ho, hl, hend, _ => by
    have hfree : ∀ k ∈ boundaries program 0 false, ip < k →
        ¬k < ip + Asm.total (x.asm ip .none) := by
      intro k hk hfirst hlast
      rw [Expr.total_asm] at hlast
      have := ho.owns k hk hfirst hlast
      simp [inner] at this
    have hend : SafeAt u block program n (ip + Asm.total (x.asm ip .none)) := by
      rw [Expr.total_asm]
      exact hend
    exact .runs (x.runs_asm ip .none {}) hl hfree hend
  | branch _ test whenTrue none, ip, targets, n, ho, hl, hend, hleaves => by
    simp only [size] at hend
    have hfree : ∀ k ∈ boundaries program 0 false, ip < k →
        ¬k < ip + Asm.total (test.asm ip test.testedAs) + 2 := by
      intro k hk hfirst hlast
      rw [Expr.total_asm] at hlast
      have hk := ho.owns k hk hfirst (by simp only [size]; omega)
      simp only [inner, List.append_nil] at hk
      have := boundaries_within whenTrue _ _ k hk
      omega
    have htrue := safe_asmBlock whenTrue (ip + test.size test.testedAs + 2) targets n
      (fun q hq => ho.part (by simp [Site.parts, Site.stmtParts, hq]))
      (hl.right.cast (by simp [Asm.size, Nat.add_assoc])) (by simpa [Nat.add_assoc] using hend)
      hleaves
    apply SafeAt.of_succ
    refine .test test.testedAs_int_or_float (.inl rfl) (test.runs_asm ip _ {}) hl.left hfree ?_ ?_
    · simpa [Nat.add_assoc] using hend
    · simpa using htrue
  | branch _ test whenTrue (some whenFalse), ip, targets, n, ho, hl, hend, hleaves => by
    simp only [size] at hend
    have hfree : ∀ k ∈ boundaries program 0 false, ip < k →
        ¬k < ip + Asm.total (test.asm ip test.testedAs) + 2 := by
      intro k hk hfirst hlast
      rw [Expr.total_asm] at hlast
      have hk := ho.owns k hk hfirst (by simp only [size]; omega)
      simp only [inner, List.mem_append] at hk
      rcases hk with hk | hk
      · have := boundaries_within whenTrue _ _ k hk
        omega
      · have := boundaries_within whenFalse _ _ k hk
        omega
    have hfalse := safe_asmBlock whenFalse
      (ip + test.size test.testedAs + 2 + blockSize whenTrue targets.isSome + 2) targets n
      (fun q hq => ho.part (by simp [Site.parts, Site.stmtParts, hq]))
      (hl.right.cast (by simp [Asm.size, Nat.add_assoc])) (by simpa [Nat.add_assoc] using hend)
      hleaves
    have hskip : SafeAt u block program (n + 1)
        (ip + test.size test.testedAs + 2 + blockSize whenTrue targets.isSome) :=
      .jump (hl.left.right.cast (by simp [Asm.size, Nat.add_assoc]))
        (by simpa [Nat.add_assoc] using hend)
    have htrue := safe_asmBlock whenTrue (ip + test.size test.testedAs + 2) targets n
      (fun q hq => ho.part (by simp [Site.parts, Site.stmtParts, hq]))
      (hl.left.left.right.cast (by simp [Asm.size, Nat.add_assoc])) hskip.of_succ hleaves
    apply SafeAt.of_succ
    refine .test test.testedAs_int_or_float (.inl rfl) (test.runs_asm ip _ {}) hl.left.left.left
      hfree hfalse ?_
    simpa using htrue
  | loop pos start test next body testLast, ip, targets, n, ho, hl, hend, _ => by
    obtain ⟨atTest, atBody, atNext, again, stop, hcode, hsize⟩ :=
      asm_loop Asm.Stored.append_iff.mp hl
    refine .loopCode hcode ?_ ?_ (hsize ▸ hend)
    · intro k hk hfirst hlast
      have hk := ho.owns k hk hfirst (by rw [hsize]; exact hlast)
      simp only [inner, hcode.atTest_eq, hcode.atBody_eq] at hk
      rw [← hcode.atNext_eq]
      exact boundaries_within body _ _ k hk
    · intro n hnext hleave
      refine safe_asmBlock body atBody (some ⟨atNext, stop⟩) n (fun q hq => ho.part ?_) hcode.bodyAt
        (by simpa [hcode.atNext_eq] using hnext) ?_
      · simp [Site.parts, Site.stmtParts, hcode.atTest_eq, hcode.atBody_eq, hcode.atNext_eq,
          hcode.again_eq, hcode.stop_eq, hq]
      · rintro t ⟨⟩
        exact ⟨hnext, hleave⟩
  | breakLoop _, ip, none, n, _, _, hend, _ => hend
  | breakLoop _, ip, some t, n, _, hl, _, hleaves =>
    SafeAt.of_succ (.jump hl (hleaves t rfl).2)
  | continueLoop _, ip, none, n, _, _, hend, _ => hend
  | continueLoop _, ip, some t, n, _, hl, _, hleaves =>
    SafeAt.of_succ (.jump hl (hleaves t rfl).1)
  | ret _ none, ip, targets, n, _, hl, _, _ => .retVoid hl
  | ret _ (some x), ip, targets, n, ho, hl, _, _ => by
    have hfree : ∀ k ∈ boundaries program 0 false, ip < k →
        ¬k < ip + Asm.total (x.asm ip .text) := by
      intro k hk hfirst hlast
      rw [Expr.total_asm] at hlast
      have := ho.owns k hk hfirst (by simp only [size]; omega)
      simp [inner] at this
    exact .runs (x.runs_asm ip .text {}) hl.left hfree (.ret hl.right)
  | func pos name ns package params body, ip, targets, n, ho, hl, hend, _ => by
    have hdecl := hl.left.head
    apply SafeAt.of_succ
    apply SafeAt.of_step hdecl rfl
    · intro _
      exact ⟨pos, name, ns, package, params, body, targets, ho⟩
    · intro m m' c c' hm ht
      have hm' := hm.step_funcDecl hdecl ht
      exact hend _ (by
        simpa [size] using hm')

theorem safe_asmBlock : ∀ (ss : List Stmt) (ip : Nat) (targets : Option LoopTargets) (n : Nat),
    (∀ q ∈ Site.block ss targets ip, q.Occurs program) →
      Asm.Stored u l ip (asmBlock ss ip targets) →
      SafeAt u block program n (ip + blockSize ss targets.isSome) →
      LeavesSafe u block program n targets → SafeAt u block program n ip
  | [], _, _, _, _, _, hend, _ => hend
  | s :: ss, ip, targets, n, ho, hl, hend, hleaves => by
    obtain ⟨hs, hss⟩ := List.forall_mem_cons.mp ho
    have hend : SafeAt u block program n
        (ip + size s targets.isSome + blockSize ss targets.isSome) := by
      rw [Nat.add_assoc]
      exact hend
    have hrest := safe_asmBlock ss (ip + size s targets.isSome) targets n hss
      (hl.right.cast (by rw [total_asm])) hend hleaves
    exact safe_asm s ip targets n hs hl.left hrest hleaves

end

end Stmt

/-! ## Units -/

/-- An activation starts at the start of a unit, or behind the declaration of one of its functions,
which is as many words as that has parameters behind the count of them. -/
inductive Machine.Starts (u : CodeUnit) (program : List Stmt) : Machine → Prop
  | top (scope : ScopeId) : Starts u program { ip := 0, scope := scope }
  | function {ip : Nat} {count : UInt32} (scope : ScopeId) (hdecl : Stmt.Declared program ip)
    (hcount : u.word (ipWord ip + 6) = .ok count) :
    Starts u program { ip := ipWord ip + 7 + count, scope := scope }

namespace Run

theorem runBlock_starts (program : List Stmt) (fuel : Nat) (block : BlockId) (shared : Int)
    (c : Console) : ∃ m c₁, m.Starts (c.blocks.unit block) program ∧
      runBlock (fuel + 1) block shared c =
        ensuring (loop fuel (c.blocks.unit block) block m) Console.popFrame c₁ := by
  let pushed := if 0 ≤ shared then c.pushShared shared else c.pushFrame none none
  refine ⟨{ ip := 0, scope := pushed.1 }, pushed.2, .top _, ?_⟩
  rw [runBlock]
  rfl

/-- The body of a function is run by a machine behind its declaration. -/
theorem runFunction_starts {program : List Stmt} {ip : Nat} {block : BlockId} {count flags : UInt32}
    {c : Console} (hdecl : Stmt.Declared program ip)
    (hcount : (c.blocks.unit block).word (ipWord ip + 6) = .ok count)
    (hflags : (c.blocks.unit block).word (ipWord ip + 4) = .ok flags) (fuel : Nat) (e : Entry)
    (argv : List Text) : ∃ m c₁, m.Starts (c.blocks.unit block) program ∧
      runFunction (fuel + 1) block (ipWord ip) e argv c = ensuring (do
        bindParams (c.blocks.unit block) m.scope count.toNat (ipWord ip + 7) argv
        if flags &&& 1 == 0 then return []
        loop fuel (c.blocks.unit block) block m) Console.popFrame c₁ := by
  let pushed := c.pushFrame e.name (some e.space)
  refine ⟨{ ip := ipWord ip + 7 + count, scope := pushed.1 }, pushed.2, .function _ hdecl hcount, ?_⟩
  rw [runFunction]
  have hget : (get : Run Console) c = .ok c c := rfl
  rw [bind_ok hget, bind_ok (ofExcept_eq_ok.mpr ⟨hcount, rfl⟩), bind_ok (ofExcept_eq_ok.mpr ⟨hflags, rfl⟩)]
  rfl

end Run

theorem CodeUnit.spaces_ident {u : CodeUnit} {w : UInt32} {n : Option Name} {c c' : Console}
    (h : u.ident w c = .ok n c') : c'.spaces = c.spaces := by
  rw [CodeUnit.ident] at h
  split at h
  · obtain ⟨-, rfl⟩ := Run.pure_eq_ok.mp h
    rfl
  · simp only [Run.bind_eq_ok, Run.ofExcept_eq_ok] at h
    obtain ⟨t, _, ⟨-, rfl⟩, h⟩ := h
    cases h
    rfl

/-- What the machine declares is a function of the program, and starts where its declaration is. -/
theorem Machine.Orderly.declares {u : CodeUnit} {program : List Stmt} {m : Machine} {block : BlockId}
    {p : Progress} {c c' : Console} {e : Entry} (hm : m.Orderly u program)
    (hword : u.word m.ip = .ok Opcode.funcDecl.word) (hstep : m.step u block c = .ok p c')
    (he : e ∈ c'.spaces.entries) : e ∈ c.spaces.entries ∨
      ∃ ip line, e.body = .script block (ipWord ip) line ∧ Stmt.Declared program ip := by
  rw [step_eq hword] at hstep
  simp only [execute, declare, Run.bind_eq_ok, Run.pure_eq_ok, Run.ofExcept_eq_ok] at hstep
  obtain ⟨_, _, ⟨_, _, ⟨-, rfl⟩, _, c₁, hname, _, _, ⟨-, rfl⟩, ns, c₂, hns, _, _, ⟨-, rfl⟩,
    package, c₃, hpackage, space, c₄, hobtain, flags, _, ⟨-, rfl⟩, _, c₅, hdefine, -, rfl⟩,
    -, rfl⟩ := hstep
  cases hobtain
  cases hdefine
  have hspaces : c₃.spaces = c.spaces := by
    rw [CodeUnit.spaces_ident hpackage, CodeUnit.spaces_ident hns, CodeUnit.spaces_ident hname]
  obtain hold | ⟨-, hbody⟩ := Namespaces.mem_entries_define he
  · have hobtained : (c₃.spaces.obtain ns package).2.entries = c.spaces.entries :=
      Namespaces.grows_obtain.entries.trans (congrArg Namespaces.entries hspaces)
    exact .inl (hobtained ▸ hold)
  · have hip : ipWord m.ip.toNat = m.ip := UInt32.ofNat_toNat
    refine .inr ⟨m.ip.toNat, flags >>> 1, ?_, hm.declared hword⟩
    rw [hip, hbody]

namespace CodeUnit

variable {filename : Text} {program : List Stmt}

private theorem stored_occurs {q : Site} {is : List Asm} (h : q.Occurs program)
    (hcode : q.code (Stmt.collectBlock program {}) = Asm.encode (Stmt.collectBlock program {}) is)
    (hsize : (written filename program).code.size < UInt32.size) :
    Asm.Stored (written filename program) (Stmt.collectBlock program {}) q.ip is where
  size := hsize
  code := by
    rw [← hcode]
    exact Site.at_occurs .start h

theorem safe_start {m : Machine} (hsize : (written filename program).code.size < UInt32.size)
    (hm : m.Starts (written filename program) program) (block : BlockId) (c : Console) (n : Nat) :
    Activation.Safe (written filename program) block
      (Machine.Orderly (written filename program) program) n (m, c) := by
  cases hm with
  | top scope =>
    have hcode : Asm.Stored (written filename program) (Stmt.collectBlock program {}) 0
        (Stmt.asmProgram program) := by
      refine ⟨hsize, ?_⟩
      rw [code_written]
      exact List.prefix_rfl
    have hend : SafeAt (written filename program) block program n
        (0 + Stmt.blockSize program false) := .retVoid (hcode.right.cast (by simp))
    have hsafe := Stmt.safe_asmBlock program 0 none n (fun q hq => ⟨q, hq, .whole⟩) hcode.left hend
      .none
    exact hsafe _ ⟨rfl, .refl _⟩
  | @function ip count scope hdecl hcount =>
    obtain ⟨pos, name, ns, package, params, body, targets, ho⟩ := hdecl
    have hcode := stored_occurs ho (Stmt.emit_eq_encode _ _ _ _) hsize
    have hend : SafeAt (written filename program) block program n
        (ip + 7 + params.length + Stmt.blockSize body false) := by
      refine .retVoid (hcode.right.cast ?_)
      simp only [Asm.total_cons, Stmt.total_asmBlock, Asm.size, Site.ip, List.length_append,
        List.length_map, List.length_cons, List.length_nil, Option.isSome_none]
      omega
    have hbody : Asm.Stored (written filename program) (Stmt.collectBlock program {})
        (ip + 7 + params.length) (Stmt.asmBlock body (ip + 7 + params.length) none) := by
      refine hcode.left.tail.cast ?_
      simp only [Asm.size, Site.ip, List.length_append, List.length_map, List.length_cons,
        List.length_nil]
      omega
    have hsafe := Stmt.safe_asmBlock body (ip + 7 + params.length) none n
      (fun q hq => ho.part hq) hbody hend .none
    refine hsafe _ ⟨?_, .refl _⟩
    -- The count of parameters is the sixth operand.
    have hword : (written filename program).word (ipWord ip + 6)
        = .ok (UInt32.ofNat params.length) := by
      have hip : ipWord ip + 6 = ipWord ip + 1 + UInt32.ofNat 5 := by
        rw [UInt32.add_assoc]
        rfl
      rw [hip]
      exact hcode.left.head.word_operand (o := .word (UInt32.ofNat params.length)) rfl
    rw [hword, Except.ok.injEq] at hcount
    rw [← hcount]
    simp only [ipWord, UInt32.ofNat_add]
    rfl

end CodeUnit

/-- The stacks of the machine in compiled code. From the start of an expression every run that does
not fault comes to its end with the stacks it had and the value that was asked for on top of them,
and never meets a stack that has too little for an instruction. An activation never does so either,
and between two statements its stacks are empty; the functions it declares are those of the program,
where the next activations can start. -/
theorem compile_stacks {source filename : Text} {u : CodeUnit}
    (h : compile source filename = .ok u) (hsize : u.code.size < UInt32.size) :
    ∃ program, parseProgram source = (program, []) ∧
      (∀ (x : Expr) (want : Demand) (ip : Nat) (block : BlockId) (s : Activation),
        (Site.expr x want ip).Occurs program → s.1.ip = ipWord ip →
          Activation.Leads u block (Machine.Enough u)
            (fun m => m.ip = ipWord (ip + x.size want) ∧
              Stacked want.height s.1.stacks m.stacks) s) ∧
      ∀ (block : BlockId) (m : Machine) (c : Console) (t : Activation), m.Starts u program →
        Activation.Steps u block (m, c) t → t.1.Orderly u program := by
  obtain ⟨program, hparse, rfl⟩ := compile_eq_ok h
  refine ⟨program, hparse, ?_, ?_⟩
  · intro x want ip block s ho hip
    have hcode := CodeUnit.stored_occurs ho (Expr.emit_eq_encode _ _ _ _) hsize
    have hleads := (x.runs_asm ip want {}).leads _ block _ s.1.stacks s hcode ⟨hip, .refl _⟩
    refine hleads.weaken (fun m hm => hm.enough) fun m hm => ⟨?_, ?_⟩
    · rw [hm.ip, Expr.total_asm]
    · cases want <;> exact hm.stacked
  · intro block m c t hm hsteps
    exact Activation.Safe.of_steps (fun n => CodeUnit.safe_start hsize hm block c n) hsteps

theorem compile_stacks_calls :
    ∃ u, compile "function f(%a){if(%a<2)return %a;return f(%a-1)*%a;}$x[1]=f(3);" "calls.cs" = .ok u ∧
      ∃ program : List Stmt, program.length = 2 ∧
        ∀ (block : BlockId) (m : Machine) (c : Console) (t : Activation), m.Starts u program →
          Activation.Steps u block (m, c) t → t.1.Orderly u program := by
  have hparse : (parseProgram "function f(%a){if(%a<2)return %a;return f(%a-1)*%a;}$x[1]=f(3);").2
      = [] := by decide +kernel
  have hlength : (parseProgram
      "function f(%a){if(%a<2)return %a;return f(%a-1)*%a;}$x[1]=f(3);").1.length = 2 := by
    decide +kernel
  refine ⟨_, (compile_eq _ _).trans (if_pos hparse), ?_⟩
  obtain ⟨program, hprogram, -, horderly⟩ := compile_stacks
    ((compile_eq _ "calls.cs").trans (if_pos hparse))
    (by rw [CodeUnit.size_code_written]; decide +kernel)
  rw [hprogram] at hlength
  exact ⟨program, hlength, horderly⟩

end ConsoleScript
