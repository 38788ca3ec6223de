import ConsoleScript.Proofs.Console.Quiet
import ConsoleScript.Proofs.Source.Switches

/-!
# What a `switch` does

The branches of a `switch` evaluate its subject again for every value that they compare it with. If
neither the subject nor the values have side effects, the machine comes to the first case with a
value that equals the subject, or else to the default, and from the end of its statements to the
end of the `switch`.
-/

namespace ConsoleScript

open Activation

/-! ## The test of a case -/

namespace SwitchCase

/-- As what the subject and the values of a `switch` are compared. -/
def kind (textual : Bool) : Demand := if textual then .text else .float

/-- Are a subject and a value equal? Texts are compared without regard to letter case. -/
def equal : (textual : Bool) → (kind textual).Carrier → (kind textual).Carrier → Bool
  | true, a, b => Text.equalFold a b
  | false, a, b => CompareOp.eq.apply a b

variable {textual : Bool} {subject : Expr} {q : Surroundings}

theorem quiet_matchValue {v : Expr} {a b : (kind textual).Carrier}
    (hsubject : subject.Quiet q (kind textual) a) (hv : v.Quiet q (kind textual) b)
    (pos : Position) : (matchValue textual subject pos v).Quiet q .int
      (Machine.ofBool (equal textual a b)) := by
  cases textual with
  | true => exact hsubject.textEq hv pos
  | false => exact hsubject.compare hv .eq pos

theorem preferred_matchValue (pos : Position) (v : Expr) :
    (matchValue textual subject pos v).preferred = .int := by
  cases textual <;> rfl

theorem testedAs_test (c : SwitchCase) : (c.test textual subject).testedAs = .int := by
  obtain ⟨pos, values, body⟩ := c
  cases values with
  | nil => rfl
  | cons v vs =>
    have hfold (vs : List Expr) (t : Expr) (ht : t.preferred = .int) :
        (vs.foldl (fun t v => Expr.logic pos .or t (matchValue textual subject pos v)) t).preferred
          = .int := by
      induction vs generalizing t with
      | nil => exact ht
      | cons v vs ih => exact ih _ rfl
    rw [Expr.testedAs, test, hfold vs _ (preferred_matchValue pos v)]
    rfl

theorem quiet_int (pos : Position) : (Expr.int pos 0).Quiet q .int (Machine.ofBool false) := by
  intro ip m c hl hm _ hc
  exact ⟨_, c, .goto m _, hc, .single (Next.loadInt hl.toStored hm c).step⟩

theorem quiet_test {value : Expr → (kind textual).Carrier} (c : SwitchCase)
    (hsubject : subject.Quiet q (kind textual) (value subject))
    (hvalues : ∀ v ∈ c.values, v.Quiet q (kind textual) (value v)) :
    (c.test textual subject).Quiet q .int
      (Machine.ofBool (c.values.any fun v => equal textual (value subject) (value v))) := by
  obtain ⟨pos, values, body⟩ := c
  cases values with
  | nil => exact quiet_int pos
  | cons v vs =>
    -- The fold adds one value after the other to a test that is there already.
    have hfold (vs : List Expr) (t : Expr) (b : Bool) (ht : t.Quiet q .int (Machine.ofBool b))
        (hvs : ∀ v ∈ vs, v.Quiet q (kind textual) (value v)) :
        (vs.foldl (fun t v => Expr.logic pos .or t (matchValue textual subject pos v)) t).Quiet q
          .int (Machine.ofBool (b || vs.any fun v => equal textual (value subject) (value v))) := by
      induction vs generalizing t b with
      | nil => rwa [List.any_nil, Bool.or_false]
      | cons v vs ih =>
        obtain ⟨hv, hvs⟩ := List.forall_mem_cons.mp hvs
        rw [List.any_cons, ← Bool.or_assoc]
        exact ih _ _ (ht.or (quiet_matchValue hsubject hv pos) pos) hvs
    obtain ⟨hv, hvs⟩ := List.forall_mem_cons.mp hvalues
    exact hfold vs _ _ (quiet_matchValue hsubject hv pos) hvs

end SwitchCase

/-! ## The chain of branches -/

/-- The body of the first case with a value that is hit, or else the default. -/
def SwitchCase.chosen (hit : Expr → Bool) (cases : List SwitchCase)
    (default? : Option (List Stmt)) : Option (List Stmt) :=
  ((cases.find? fun c => c.values.any hit).map (·.body)).or default?

/-- The machine runs one body and nothing else on the way to position `stop`: it comes to the code
of the body with its stacks as they were, in one of the consoles, and it goes from the end of that
code to `stop`. If there is no body then it comes to `stop`. -/
def Selects (q : Surroundings) (targets : Option LoopTargets) (s : Activation) (stop : Nat) :
    Option (List Stmt) → Prop
  | none => Yields q s stop .none ()
  | some body => ∃ start,
    Asm.Loaded q.unit q.literals start (Stmt.asmBlock body start targets) ∧
    Yields q s start .none () ∧
    ∀ t : Activation, t.1.ip = ipWord (start + Stmt.blockSize body targets.isSome) →
      Steps q.unit q.block t (t.1.goto (ipWord stop), t.2)

section chain

variable {q : Surroundings} {targets : Option LoopTargets} {ip at' stop : Nat} {m : Machine}
  {c : Console} {body? : Option (List Stmt)}

theorem Selects.of_yields (h : Yields q (m, c) at' .none ())
    (hrest : ∀ m' c', m'.ip = ipWord at' → m'.scope = m.scope → q.consoles c' →
      Selects q targets (m', c') stop body?) : Selects q targets (m, c) stop body? := by
  obtain ⟨m', c', harrives, hc', hsteps⟩ := h
  have hselects := hrest m' c' harrives.ip_eq harrives.scope_eq hc'
  cases body? with
  | none => exact .of_arrives harrives hsteps hselects
  | some body =>
    obtain ⟨start, hloaded, hyields, hend⟩ := hselects
    exact ⟨start, hloaded, .of_arrives harrives hsteps hyields, hend⟩

/-- A body whose code is at hand, with nothing between it and the end. -/
theorem Selects.here {body : List Stmt}
    (hl : Asm.Loaded q.unit q.literals ip (Stmt.asmBlock body ip targets)) (hm : m.ip = ipWord ip)
    (hc : q.consoles c) :
    Selects q targets (m, c) (ip + Stmt.blockSize body targets.isSome) (some body) := by
  refine ⟨ip, hl, .start hm hc, fun t ht => ?_⟩
  have hstay : t.1.goto (ipWord (ip + Stmt.blockSize body targets.isSome)) = t.1 := by
    rw [← ht]
    rfl
  rw [hstay]
  exact .refl

/-- A condition without side effects leads behind its jump if it holds, and else to the target. -/
theorem Yields.test {x : Expr} {b : Bool} {target : Nat} (hx : x.Quiet q .int (Machine.ofBool b))
    (hl : Asm.Loaded q.unit q.literals ip (x.asm ip .int ++ [⟨.jumpUnless, [.target target]⟩]))
    (hm : m.ip = ipWord ip) (hscope : m.scope = q.scope) (hc : q.consoles c) :
    Yields q (m, c) (if b then ip + x.size .int + 2 else target) .none () := by
  obtain ⟨m₁, c₁, harrives, hc₁, hsteps⟩ := hx ip m c hl.left hm hscope hc
  have hjumpAt := hl.right.toStored.cast (show _ = ip + x.size .int by rw [Expr.total_asm])
  have hjump : Next q.unit q.block (m₁.pushInt (Machine.ofBool b), c₁)
      (m₁.goto (if Demand.int.isZero (Machine.ofBool b) then ipWord target
        else ipWord (ip + x.size .int + 2)), c₁) :=
    .jumpUnless (.inl rfl) (Machine.ofBool b) hjumpAt harrives.ip_eq c₁
  cases b <;> exact ⟨_, c₁, harrives.trans (.goto m₁ _), hc₁, hsteps.tail hjump.step⟩

/-- A branch runs its first body or what its second one runs, which is nothing if that is
missing. -/
theorem selects_branch {x : Expr} {b : Bool} {pos : Position} {whenTrue : List Stmt}
    {whenFalse : Option (List Stmt)} (htested : x.testedAs = .int)
    (hx : x.Quiet q .int (Machine.ofBool b))
    (hl : Asm.Loaded q.unit q.literals ip ((Stmt.branch pos x whenTrue whenFalse).asm ip targets))
    (hm : m.ip = ipWord ip) (hscope : m.scope = q.scope) (hc : q.consoles c)
    (hnone : whenFalse = none → body? = none)
    (hsome : ∀ ss, whenFalse = some ss → ∀ ip m c,
      Asm.Loaded q.unit q.literals ip (Stmt.asmBlock ss ip targets) → m.ip = ipWord ip →
      m.scope = q.scope → q.consoles c →
      Selects q targets (m, c) (ip + Stmt.blockSize ss targets.isSome) body?) :
    Selects q targets (m, c) (ip + (Stmt.branch pos x whenTrue whenFalse).size targets.isSome)
      (if b then some whenTrue else body?) := by
  cases whenFalse with
  | none =>
    simp only [Stmt.asm, htested] at hl
    have htest := Yields.test hx hl.left hm hscope hc
    have htrueAt := hl.right.cast (show _ = ip + x.size .int + 2 by
      simp [Asm.size, Nat.add_assoc])
    have hstop : ip + (Stmt.branch pos x whenTrue none).size targets.isSome
        = ip + x.size .int + 2 + Stmt.blockSize whenTrue targets.isSome := by
      simp only [Stmt.size, htested]
      omega
    rw [hstop]
    cases b with
    | true => exact .of_yields htest fun m' c' hm' _ hc' => .here htrueAt hm' hc'
    | false =>
      rw [hnone rfl]
      exact htest
  | some ss =>
    simp only [Stmt.asm, htested] at hl
    have htest := Yields.test hx hl.left.left.left hm hscope hc
    have htrueAt := hl.left.left.right.cast (show _ = ip + x.size .int + 2 by
      simp [Asm.size, Nat.add_assoc])
    have hskipAt := hl.left.right.toStored.cast
      (show _ = ip + x.size .int + 2 + Stmt.blockSize whenTrue targets.isSome by
        simp [Asm.size, Nat.add_assoc])
    have hfalseAt := hl.right.cast
      (show _ = ip + x.size .int + 2 + Stmt.blockSize whenTrue targets.isSome + 2 by
        simp [Asm.size, Nat.add_assoc])
    have hstop : ip + (Stmt.branch pos x whenTrue (some ss)).size targets.isSome
        = ip + x.size .int + 2 + Stmt.blockSize whenTrue targets.isSome + 2
          + Stmt.blockSize ss targets.isSome := by
      simp only [Stmt.size, htested]
      omega
    rw [hstop]
    cases b with
    | true =>
      refine ⟨_, htrueAt, htest, fun t ht => .single ?_⟩
      exact (Next.jump hskipAt ht t.2).step
    | false =>
      refine .of_yields htest fun m' c' hm' hscope' hc' => ?_
      exact hsome ss rfl _ m' c' hfalseAt hm' (hscope'.trans hscope) hc'

end chain

namespace SwitchCase

variable {textual : Bool} {subject : Expr} {q : Surroundings} {targets : Option LoopTargets}
  {default? : Option (List Stmt)}

theorem chain_eq_none {hit : Expr → Bool} {cases : List SwitchCase}
    (h : chain textual subject default? cases = none) : chosen hit cases default? = none := by
  cases cases with
  | nil => exact h
  | cons c cs => cases h

theorem chosen_cons (hit : Expr → Bool) (c : SwitchCase) (cs : List SwitchCase) :
    chosen hit (c :: cs) default?
      = if c.values.any hit then some c.body else chosen hit cs default? := by
  unfold chosen
  rw [List.find?_cons]
  cases c.values.any hit <;> rfl

/-- The branches of cases run the body of the first case with a value that equals the subject, or
else the default. -/
theorem selects_chain {value : Expr → (kind textual).Carrier}
    (hsubject : subject.Quiet q (kind textual) (value subject)) {cases : List SwitchCase}
    (hvalues : ∀ c ∈ cases, ∀ v ∈ c.values, v.Quiet q (kind textual) (value v)) {ss : List Stmt}
    (hss : chain textual subject default? cases = some ss) (ip : Nat) (m : Machine) (c : Console)
    (hl : Asm.Loaded q.unit q.literals ip (Stmt.asmBlock ss ip targets)) (hm : m.ip = ipWord ip)
    (hscope : m.scope = q.scope) (hc : q.consoles c) :
    Selects q targets (m, c) (ip + Stmt.blockSize ss targets.isSome)
      (chosen (fun v => equal textual (value subject) (value v)) cases default?) := by
  induction cases generalizing ss ip m c with
  | nil =>
    obtain rfl : default? = some ss := hss
    exact .here hl hm hc
  | cons sc cs ih =>
    obtain ⟨hsc, hcs⟩ := List.forall_mem_cons.mp hvalues
    obtain rfl := Option.some.inj hss
    rw [chosen_cons]
    exact selects_branch (testedAs_test sc) (quiet_test sc hsubject hsc) hl.left hm hscope hc
      chain_eq_none fun ss hss ip m c => ih hcs hss ip m c

end SwitchCase

/-- A `switch` without cases runs its default, and another one what its branches run. -/
theorem Stmt.selects_ofSwitch? {textual : Bool} {subject : Expr} {q : Surroundings}
    {targets : Option LoopTargets} {default? : Option (List Stmt)} {cases : List SwitchCase}
    {value : Expr → (SwitchCase.kind textual).Carrier}
    (hsubject : subject.Quiet q (SwitchCase.kind textual) (value subject))
    (hvalues : ∀ c ∈ cases, ∀ v ∈ c.values, v.Quiet q (SwitchCase.kind textual) (value v))
    (pos : Position) {ip : Nat} {m : Machine} {c : Console}
    (hl : Asm.Loaded q.unit q.literals ip
      (asmBlock (ofSwitch? pos textual subject cases default?).toList ip targets))
    (hm : m.ip = ipWord ip) (hscope : m.scope = q.scope) (hc : q.consoles c) :
    Selects q targets (m, c)
      (ip + blockSize (ofSwitch? pos textual subject cases default?).toList targets.isSome)
      (SwitchCase.chosen (fun v => SwitchCase.equal textual (value subject) (value v)) cases
        default?) := by
  cases cases with
  | cons sc cs => exact SwitchCase.selects_chain hsubject hvalues rfl ip m c hl hm hscope hc
  | nil =>
    cases default? with
    | none => exact .start hm hc
    | some body =>
      have hone : (Expr.int pos 1).Quiet q .int (Machine.ofBool true) := by
        intro ip m c hl hm _ hc
        exact ⟨_, c, .goto m _, hc, .single (Next.loadInt hl.toStored hm c).step⟩
      have hselects : Selects q targets (m, c) _ (if true then some body else none) :=
        selects_branch rfl hone hl.left hm hscope hc (fun _ => rfl) fun ss hss => by cases hss
      exact hselects

/-! ## The statement -/

namespace Parse

open SwitchItem ParseState

/-- A `switch` whose subject and values have no side effects runs the body of the first case, in the
order of the source, with a value that equals the subject; the body of the default if there is no
such case; and nothing if there is no default either. -/
theorem switch_selects {n : Nat} {s t : ParseState} {subject : Expr} {items : List SwitchItem}
    (hsource : SwitchSource n s subject items t) (pos : Position) (textual : Bool) (q : Surroundings)
    (value : Expr → (SwitchCase.kind textual).Carrier)
    (hsubject : subject.Quiet q (SwitchCase.kind textual) (value subject))
    (hvalues : ∀ c ∈ cases items, ∀ v ∈ c.values, v.Quiet q (SwitchCase.kind textual) (value v)) :
    ∃ stmt? : Option Stmt, run (switch (n + 1) pos textual) s = (stmt?, t) ∧
      ∀ (targets : Option LoopTargets) (ip : Nat) (m : Machine) (c : Console),
        Asm.Loaded q.unit q.literals ip (Stmt.asmBlock stmt?.toList ip targets) →
        m.ip = ipWord ip → m.scope = q.scope → q.consoles c →
        Selects q targets (m, c) (ip + Stmt.blockSize stmt?.toList targets.isSome)
          (SwitchCase.chosen (fun v => SwitchCase.equal textual (value subject) (value v))
            (cases items) (lastDefault items)) :=
  ⟨_, run_switch hsource pos textual, fun _ _ _ _ hl hm hscope hc =>
    Stmt.selects_ofSwitch? hsubject hvalues pos hl hm hscope hc⟩

/-- A default in front of the cases, and a variable that is missing. -/
theorem switch_selects_alternative :
    let p : Position := default
    let plain (k : TokenKind) : Upcoming := ⟨none, ⟨k, [], p⟩⟩
    let var (name : Text) : Upcoming := ⟨none, ⟨.globalVar, name, p⟩⟩
    let str (t : Text) : Upcoming := ⟨none, ⟨.string, t, p⟩⟩
    let give (name : Text) (rest : List Upcoming) : List Upcoming :=
      plain .kwReturn :: var name :: plain .semicolon :: rest
    let giving (name : Text) : List Stmt := [.ret p (some (.var p name none))]
    let atEnd : List Upcoming := [plain .rbrace, plain .eof]
    let atSecond : List Upcoming := plain .kwCase :: str "b" :: plain .kwOr :: str "" ::
      plain .colon :: give "$b" atEnd
    let atFirst : List Upcoming := plain .kwCase :: str "a" :: plain .colon :: give "$a" atSecond
    let atDefault : List Upcoming := plain .kwDefault :: plain .colon :: give "$d" atFirst
    let s : ParseState := standing (plain .lparen :: var "$x" :: plain .rparen :: plain .lbrace ::
      atDefault) []
    let subject : Expr := .var p "$x" none
    let first : SwitchCase := ⟨p, [.str p "a" false], giving "$a"⟩
    let second : SwitchCase := ⟨p, [.str p "b" false, .str p "" false], giving "$b"⟩
    let items : List SwitchItem := [.default (giving "$d"), .case first, .case second]
    let stmt : Stmt := .branch p (first.test true subject) (giving "$a")
      (some [.branch p (second.test true subject) (giving "$b") (some (giving "$d"))])
    let c : Console := { scopes := .ofBuckets 15, maxCallDepth := 0 }
    let q : Surroundings :=
      ⟨.written "a.cs" [stmt], Stmt.collectBlock [stmt] {}, 0, .globals, c.Rereads⟩
    SwitchSource 12 s subject items (standing [plain .eof] []) ∧
      run (switch 13 p true) s = (some stmt, standing [plain .eof] []) ∧
      Selects q none ({ ip := 0, scope := .globals }, c) (Stmt.blockSize [stmt] false)
        (some (giving "$b")) := by
  intro p plain var str give giving atEnd atSecond atFirst atDefault s subject first second items
    stmt c q
  have hvalues : run (caseValues 9 []) (standing atSecond.tail [])
      = (some second.values, standing (plain .colon :: give "$b" atEnd) []) := by
    have hfirst : run (ternary 8) (standing atSecond.tail [])
        = (some (.str p "b" false), standing atSecond.tail.tail []) := rfl
    rw [caseValues, run_bind_eq hfirst]
    rfl
  have hsecond : SwitchItems 10 (standing atSecond []) [.case second] (standing atEnd []) :=
    .case rfl hvalues rfl (show _ = (some (giving "$b"), standing atEnd []) from rfl)
      (.stop (.inl rfl))
  have hvalue : run (caseValues 10 []) (standing atFirst.tail [])
      = (some first.values, standing (plain .colon :: give "$a" atSecond) []) := rfl
  have hfirst : SwitchItems 11 (standing atFirst []) [.case first, .case second]
      (standing atEnd []) :=
    .case rfl hvalue rfl (show _ = (some (giving "$a"), standing atSecond []) from rfl) hsecond
  have hitems : SwitchItems 12 (standing atDefault []) items (standing atEnd []) :=
    .default rfl (show _ = (some (), standing (give "$d" atFirst) []) from rfl)
      (show _ = (some (giving "$d"), standing atFirst []) from rfl) hfirst
  have hsubject : run (condition 12) s
      = (some subject, standing (plain .lbrace :: atDefault) []) := by
    have hx : run (expression 12) s.next
        = (some subject, standing (plain .rparen :: plain .lbrace :: atDefault) []) := rfl
    rw [condition, run_bind_eq (show run (expect .lparen) s = (some (), s.next) from rfl),
      run_bind_eq (run_attempt hx)]
    rfl
  have hsource : SwitchSource 12 s subject items (standing [plain .eof] []) :=
    ⟨_, standing atDefault [], _, true, hsubject, rfl, hitems, rfl⟩
  have hrun : run (switch 13 p true) s = (some stmt, standing [plain .eof] []) :=
    run_switch hsource p true
  have hc : c.NamesVariables := Console.namesVariables_empty 15 0
  have hquiet (x : Expr) (hr : x.reads = true) (hx : x.callFree = true) :
      x.Quiet q .text (x.eval .globals .text c).1 := Expr.quiet_of_reads hr hx hc _ _ _ _ _
  have hvalues : ∀ sc ∈ cases items, ∀ v ∈ sc.values,
      v.Quiet q .text (v.eval .globals .text c).1 := by
    intro sc hsc v hv
    obtain rfl | rfl := List.mem_pair.mp (show sc ∈ [first, second] from hsc)
    · obtain rfl := List.mem_singleton.mp hv
      exact hquiet _ rfl rfl
    · obtain rfl | rfl := List.mem_pair.mp hv <;> exact hquiet _ rfl rfl
  obtain ⟨stmt?, hrun', hselects⟩ := switch_selects hsource p true q
    (fun x => (x.eval .globals .text c).1) (hquiet _ rfl rfl) hvalues
  obtain rfl : some stmt = stmt? := congrArg Prod.fst (hrun.symm.trans hrun')
  have hgiving (name : Text) (h : name ≠ []) : Stmt.NamedBlock (fun _ => True) (giving name) := by
    refine ⟨?_, trivial⟩
    rintro _ ⟨⟩
    exact ⟨h, trivial⟩
  have hx : subject.Named fun _ => True := ⟨by decide, trivial⟩
  have hnamed : stmt.Named fun _ => True :=
    ⟨⟨hx, trivial⟩, hgiving "$a" (by decide), ⟨⟨⟨hx, trivial⟩, hx, trivial⟩,
      hgiving "$b" (by decide), hgiving "$d" (by decide)⟩, trivial⟩
  have hloaded : Asm.Loaded q.unit q.literals 0 (Stmt.asmBlock [stmt] 0 none) :=
    (CodeUnit.loaded_written (show Stmt.NamedBlock _ [stmt] from ⟨hnamed, trivial⟩)
      (by decide)).left
  have hchosen := hselects none 0 { ip := 0, scope := .globals } c hloaded rfl rfl hc.rereads
  have hmissing : (subject.eval .globals .text c).1 = [] := by
    have hfind (n : Option Name) : (Eval.find .globals n (c.intern "$x").2).1 = none := by
      cases n with
      | none => rfl
      | some n =>
        show Scopes.find? (.ofBuckets 15) (Eval.scopeOf .globals _ n) _ = none
        cases Eval.scopeOf .globals (c.intern "$x").2.names n <;> rfl
    show Demand.text.ofValue (Eval.value (Eval.find .globals (c.intern "$x").1
      (c.intern "$x").2).1 (c.intern "$x").2).1 = []
    rw [hfind]
    rfl
  have hmiss : (first.values.any fun v => SwitchCase.equal true [] (v.eval .globals .text c).1)
      = false := show (Text.equalFold [] "a" || false) = false by decide +kernel
  have hhit : (second.values.any fun v => SwitchCase.equal true [] (v.eval .globals .text c).1)
      = true :=
    show (Text.equalFold [] "b" || (Text.equalFold [] "" || false)) = true by decide +kernel
  rw [Nat.zero_add, hmissing, show cases items = [first, second] from rfl,
    SwitchCase.chosen_cons, hmiss, SwitchCase.chosen_cons, hhit] at hchosen
  exact ⟨hsource, hrun, hchosen⟩

end Parse

end ConsoleScript
