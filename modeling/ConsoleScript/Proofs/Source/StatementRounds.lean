import ConsoleScript.Proofs.Source.ExpressionRounds

/-!
# Statements move on

The loops over the statements of a source, a block and a case, over the functions of a package and
over the cases of a `switch` go on only behind a token, also where a statement does not parse:
recovery stands still only in front of a closing brace and at the end of the source, and no
statement starts there.
-/

namespace ConsoleScript
namespace Parse

/-! ## Rounds of the loops -/

def parameterRound (seen : List Text) : Parse (Round (List Text)) := do
  if ← at? .rparen then
    advance
    return .leave seen.reverse
  else
    let t ← cur
    unless t.kind == .localVar do giveUpExpected "parameter"
    advance
    if ← at? .comma then advance
    else if !(← at? .rparen) then giveUpExpected ", or ) in parameter list"
    return .again (t.literal :: seen)

def valueRound (n : Nat) (seen : List Expr) : Parse (Round (List Expr)) := do
  let v ← ternary n
  if ← at? .kwOr then
    advance
    return .again (v :: seen)
  else return .leave (v :: seen).reverse

/-- A case or a default of a `switch`. -/
def switchRound (n : Nat) (found : List SwitchCase × Option (List Stmt)) :
    Parse (Round (List SwitchCase × Option (List Stmt))) := do
  let t ← cur
  match t.kind with
  | .rbrace => return .leave (found.1.reverse, found.2)
  | .eof => return .leave (found.1.reverse, found.2)
  | .kwCase =>
    advance
    let values ← caseValues n []
    expect .colon
    let body ← caseBody n []
    return .again (⟨t.pos, values, body⟩ :: found.1, found.2)
  | .kwDefault =>
    advance
    expect .colon
    let body ← caseBody n []
    return .again (found.1, some body)
  | _ => giveUpExpected "case or default in switch"

def caseRound (n : Nat) (seen : List Stmt) : Parse (Round (List Stmt)) := do
  let k ← kind
  if k == .kwCase || k == .kwDefault || k == .rbrace || k == .eof then
    return .leave seen.reverse
  else
    let before ← errorCount
    let seen := (← attempt (statement n)).toList ++ seen
    if before < (← errorCount) then return .leave seen.reverse else return .again seen

/-- Skips to the end of a statement if it had errors. -/
def recoverBeyond (before : Nat) : Parse Unit := do
  if before < (← errorCount) then modify ParseState.recover

def blockRound (n : Nat) (seen : List Stmt) : Parse (Round (List Stmt)) := do
  let k ← kind
  if k == .rbrace || k == .eof then return .leave seen.reverse
  else
    let before ← errorCount
    let seen := (← attempt (statement n)).toList ++ seen
    recoverBeyond before
    return .again seen

def packageRound (n : Nat) (package : Text) (seen : List Stmt) : Parse (Round (List Stmt)) := do
  let t ← cur
  if t.kind == .rbrace || t.kind == .eof then
    let _ ← accept .rbrace
    skip? .semicolon
    return .leave seen.reverse
  else if t.kind == .kwFunction then
    advance
    match ← attempt (function n t.pos (some package)) with
    | some f => return .again (f :: seen)
    | none => return .leave seen.reverse
  else
    complain (.onlyFunctions package)
    return .leave seen.reverse

/-- A statement or a package of a source, or what cannot be one; `k` is the kind in front. -/
def programPart (n : Nat) (k : TokenKind) : Parse (List Stmt) :=
  if k == .kwPackage then do
    advance
    return ((← attempt (package n)).getD []).reverse
  else if k == .rbrace then do
    complain .strayBrace
    advance
    return []
  else return (← attempt (statement n)).toList

def programRound (n : Nat) (seen : List Stmt) : Parse (Round (List Stmt)) := do
  let k ← kind
  if k == .eof then return .leave seen.reverse
  else
    let before ← errorCount
    let more ← programPart n k
    recoverBeyond before
    return .again (more ++ seen)

theorem parameters_succ (n : Nat) (seen : List Text) :
    parameters (n + 1) seen = parameterRound seen >>= Round.follow (parameters n) := by
  simp only [parameters, parameterRound, ite_bind, bind_assoc, pure_bind, Round.follow]

theorem caseValues_succ (n : Nat) (seen : List Expr) :
    caseValues (n + 1) seen = valueRound n seen >>= Round.follow (caseValues n) := by
  simp only [caseValues, valueRound, ite_bind, bind_assoc, pure_bind, Round.follow]

theorem switchCases_succ (n : Nat) (found : List SwitchCase × Option (List Stmt)) :
    switchCases (n + 1) found.1 found.2
      = switchRound n found >>= Round.follow fun found => switchCases n found.1 found.2 := by
  simp only [switchCases, switchRound, bind_assoc]
  congr 1
  funext t
  cases t.kind <;> simp only [bind_assoc, pure_bind, Round.follow] <;> rfl

theorem caseBody_succ (n : Nat) (seen : List Stmt) :
    caseBody (n + 1) seen = caseRound n seen >>= Round.follow (caseBody n) := by
  simp only [caseBody, caseRound, ite_bind, bind_assoc, pure_bind, Round.follow]

theorem blockTail_succ (n : Nat) (seen : List Stmt) :
    blockTail (n + 1) seen = blockRound n seen >>= Round.follow (blockTail n) := by
  simp only [blockTail, blockRound, recoverBeyond, ite_bind, bind_assoc, pure_bind, Round.follow]

theorem packageTail_succ (n : Nat) (package : Text) (seen : List Stmt) :
    packageTail (n + 1) package seen
      = packageRound n package seen >>= Round.follow (packageTail n package) := by
  simp only [packageTail, packageRound, ite_bind, bind_assoc, pure_bind, Round.follow]
  refine bind_congr fun t => ite_congr rfl (fun _ => rfl) fun _ =>
    ite_congr rfl (fun _ => ?_) fun _ => rfl
  refine bind_congr fun _ => bind_congr fun f => ?_
  cases f <;> rfl

theorem programTail_succ (n : Nat) (seen : List Stmt) :
    programTail (n + 1) seen = programRound n seen >>= Round.follow (programTail n) := by
  simp only [programTail, programRound, programPart, recoverBeyond, ite_bind, bind_assoc, pure_bind, Round.follow]

/-! ## Stages of statements -/

/-- An expression that may be missing in front of `closing`. -/
def expressionBefore (n : Nat) (closing : TokenKind) : Parse (Option Expr) := do
  if ← at? closing then return none else attempt (expression n)

/-- The test of a `for`. Without one the loop goes on. -/
def forTest (n : Nat) : Parse (Option Expr) := do
  let t ← cur
  if t.kind == .semicolon then return some (.int t.pos 1) else attempt (expression n)

/-- The name of a function, perhaps in a namespace. -/
def functionName : Parse (Option Text × Text) := do
  let first ← ident "function name"
  if ← at? .colonColon then
    advance
    return (some first, ← ident "function name after ::")
  else return (none, first)

/-- What follows the header of a `for`, which has to have a test. -/
def forBody (n : Nat) (pos : Position) (start test next : Option Expr) : Parse Stmt := do
  match test with
  | none => failure
  | some test =>
    let body ← body n
    return .loop pos start test next body false

theorem forLoop_succ (n : Nat) (pos : Position) : forLoop (n + 1) pos = (do
    expect .lparen
    let start ← expressionBefore n .semicolon
    let _ ← accept .semicolon
    let test ← forTest n
    let _ ← accept .semicolon
    let next ← expressionBefore n .rparen
    expect .rparen
    forBody n pos start test next) := by
  simp only [forLoop, expressionBefore, forTest, ite_bind, bind_assoc, pure_bind]
  rfl

theorem function_succ (n : Nat) (pos : Position) (package : Option Text) :
    function (n + 1) pos package = (do
      let name ← functionName
      expect .lparen
      let params ← parameters n []
      unless ← at? .lbrace do giveUpExpected "\x7b after function header"
      let body ← block n
      return .func pos name.2 name.1 package params body) := by
  simp only [function, functionName, ite_bind, bind_assoc, pure_bind]

/-! ## Statements -/

/-- What the parsers of statements do within a bound on nesting. A statement may give up without
an error, behind a token. -/
structure StmtParsersMove (d n : Nat) : Prop where
  statement : ∀ s : ParseState, s.EndsOnce →
    Does (16 * s.rest.length + 6 ≤ n) .moved always (statement n) (statement (n + d)) s
  function : ∀ pos package, Within d n 1 sometimes (function · pos package)
  branch : ∀ pos, Within d n 1 sometimes (branch · pos)
  forLoop : ∀ pos, ∀ s : ParseState, s.EndsOnce →
    Does (16 * s.rest.length + 1 ≤ n) .free sometimes (forLoop n pos) (forLoop (n + d) pos) s
  switch : ∀ pos textual, ∀ s : ParseState, s.EndsOnce →
    Does (16 * s.rest.length + 1 ≤ n) .free sometimes (switch n pos textual)
      (switch (n + d) pos textual) s
  switchCases : ∀ seen default?, Within d n 1 sometimes (switchCases · seen default?)
  caseBody : ∀ seen, Within d n 7 sometimes (caseBody · seen)
  body : Within d n 7 sometimes body
  block : ∀ s : ParseState, s.EndsOnce → s.cur.kind ≠ .eof →
    Does (16 * s.rest.length + 1 ≤ n) .reported sometimes (block n) (block (n + d)) s
  blockTail : ∀ seen, Within d n 7 sometimes (blockTail · seen)

theorem condition_moves (d n : Nat) : Within d n 0 always condition := fun s hs => by
  refine (does_expect hs (by decide)).bind_moved fun _ t hst hlt => ?_
  have ht := hst.ends hs
  refine ((expr_parsers_move d n).expression.from ht (by omega)).attempt_reported
    (fun x u _ _ => ?_) fun u _ => ?_
  · exact (does_accept _).bind fun _ _ _ _ => .pure rfl
  · exact (does_accept _).bind fun _ _ _ _ => .failure

theorem expressionBefore_moves (d n : Nat) (closing : TokenKind) :
    Within d n 5 sometimes (expressionBefore · closing) := fun s hs =>
  .at? closing (.ite (fun _ => .pure rfl) fun _ =>
    ((expr_parsers_move d n).expression s hs).attempted)

theorem forTest_moves (d n : Nat) : Within d n 5 sometimes forTest := fun s hs =>
  .cur (.ite (fun _ => .pure rfl) fun _ => ((expr_parsers_move d n).expression s hs).attempted)

theorem does_functionName {enough : Prop} {s : ParseState} (hs : s.EndsOnce) :
    Does enough .reported always functionName functionName s := by
  refine (does_ident hs _).bind_moved fun first t hst _ => ?_
  refine .at? .colonColon (.ite (fun _ => .advance ?_) fun _ => .pure rfl)
  exact (does_ident (t.leads_next.ends (hst.ends hs)) _).bind fun _ _ _ _ => .pure rfl

theorem run_recoverBeyond (before : Nat) (s : ParseState) : run (recoverBeyond before) s =
    (some (), if before < s.errors.length then s.recover else s) := by
  change run (if before < s.errors.length then _ else _) s = _
  split <;> rfl

theorem does_recoverBeyond {enough : Prop} {s : ParseState} (before : Nat) :
    Does enough .reported sometimes (recoverBeyond before) (recoverBeyond before) s where
  leads := by
    rw [run_recoverBeyond]
    split
    · exact s.leads_recover
    · exact .refl s
  some_lt _ _ h := by cases h
  none_fits h := by
    rw [run_recoverBeyond] at h
    cases h
  same _ := by
    rw [run_recoverBeyond]
    refine ⟨rfl, fun hs => ?_⟩
    split
    · exact hs.recover
    · exact hs

/-- Behind new errors a token is moved over, unless the source or a block ends there. -/
theorem Does.recoverBeyond_moved {β : Type} {enough : Prop} {g : GivingUp} {after : β → Bool}
    {before : Nat} {s : ParseState} {f f' : Unit → Parse β} (hs : s.EndsOnce)
    (herrors : before < s.errors.length) (hkind : s.cur.kind ≠ .eof)
    (hbrace : s.cur.kind ≠ .rbrace) (h : Does enough g sometimes (f ()) (f' ()) s.recover) :
    Does enough g after (recoverBeyond before >>= f) (recoverBeyond before >>= f') s := by
  have hrun (f : Unit → Parse β) : run (recoverBeyond before >>= f) s = run (f ()) s.recover := by
    rw [run_bind, run_recoverBeyond, if_pos herrors]
  exact h.moved s.leads_recover (hs.recover_lt hkind hbrace) (fun _ hs => hs.recover) (hrun f)
    fun _ => hrun f'

theorem parameterRound_moves {enough : Prop} (seen : List Text) (s : ParseState)
    (hs : s.EndsOnce) : Does enough .reported Round.isAgain (parameterRound seen)
      (parameterRound seen) s := by
  refine .at? .rparen (.ite (fun _ => .advance (.pure rfl)) fun _ => ?_)
  refine .cur ?_
  extract_lets
  refine .ite (fun hk => ?_) fun _ => .giveUpExpected _
  refine .advance_moved hs (ne_eof_of_at hk (by decide)) ?_
  extract_lets
  refine .at? .comma (.ite (fun _ => .advance (.pure rfl)) fun _ => ?_)
  exact .at? .rparen (.ite (fun _ => .giveUpExpected _) fun _ => .pure rfl)

theorem parameters_move (d n : Nat) (seen : List Text) :
    Within d n 1 sometimes (parameters · seen) := by
  induction n generalizing seen with
  | zero => exact .zero (by decide) rfl
  | succ n ih =>
    refine .succ fun s hs => ?_
    rw [parameters_succ, parameters_succ]
    refine (parameterRound_moves seen s hs).follow fun seen t hst hlt => ?_
    exact (ih seen).from (hst.ends hs) (by omega)

theorem valueRound_moves (d n : Nat) (seen : List Expr) (s : ParseState) (hs : s.EndsOnce) :
    Does (16 * s.rest.length + 4 ≤ n) .reported Round.isAgain (valueRound n seen)
      (valueRound (n + d) seen) s := by
  refine ((expr_parsers_move d n).ternary s hs).bind_moved fun v t _ _ => ?_
  exact .at? .kwOr (.ite (fun _ => .advance (.pure rfl)) fun _ => .pure rfl)

theorem caseValues_move (d n : Nat) (seen : List Expr) :
    Within d n 5 sometimes (caseValues · seen) := by
  induction n generalizing seen with
  | zero => exact .zero (by decide) rfl
  | succ n ih =>
    refine .succ fun s hs => ?_
    rw [caseValues_succ, caseValues_succ]
    refine ((valueRound_moves d n seen s hs).mono (by omega)).follow fun seen t hst hlt => ?_
    exact (ih seen).from (hst.ends hs) (by omega)

section step

variable {d n : Nat} (ih : StmtParsersMove d n)
include ih

private theorem statement_moves (s : ParseState) (hs : s.EndsOnce) :
    Does (16 * s.rest.length + 6 ≤ n + 1) .moved always (statement (n + 1))
      (statement (n + 1 + d)) s := by
  rw [Nat.succ_add, statement, statement]
  have hbehind (hkind : s.cur.kind ≠ .eof) {p p' : Parse Stmt}
      (h : s.next.EndsOnce → s.next.rest.length < s.rest.length →
        Does (16 * s.rest.length + 6 ≤ n + 1) .free sometimes p p' s.next) :
      Does (16 * s.rest.length + 6 ≤ n + 1) .moved always (advance >>= fun _ => p)
        (advance >>= fun _ => p') s :=
    .advance_past hs hkind (h (s.leads_next.ends hs) (hs.next_lt hkind))
  have hclosed (stmt : Stmt) {t : ParseState} :
      Does (16 * s.rest.length + 6 ≤ n + 1) .free sometimes
        (accept .semicolon >>= fun _ => pure stmt) (accept .semicolon >>= fun _ => pure stmt) t :=
    (does_accept _).bind fun _ _ _ _ => .pure rfl
  refine .cur ?_
  cases hk : s.cur.kind with
  | kwFunction =>
    exact hbehind (by simp [hk]) fun hnext hlt => ((ih.function _ _).from hnext (by omega)).weaken
  | kwIf =>
    exact hbehind (by simp [hk]) fun hnext hlt => ((ih.branch _).from hnext (by omega)).weaken
  | kwWhile =>
    refine hbehind (by simp [hk]) fun hnext hlt => ?_
    refine ((condition_moves d n).from hnext (by omega)).bind fun test t hst htlt => ?_
    have htlt := htlt rfl
    exact (ih.body.from (hst.ends hnext) (by omega)).bind fun _ _ _ _ => .pure rfl
  | kwFor =>
    exact hbehind (by simp [hk]) fun hnext hlt => (ih.forLoop _ _ hnext).mono (by omega)
  | kwDo =>
    refine hbehind (by simp [hk]) fun hnext hlt => ?_
    refine (ih.body.from hnext (by omega)).bind fun body t hst _ => ?_
    have ht := hst.ends hnext
    have htle := hst.le
    refine (does_expect ht (by decide)).bind fun _ u htu _ => ?_
    have hule := htu.le
    refine ((condition_moves d n).from (htu.ends ht) (by omega)).bind fun test v _ _ => ?_
    exact hclosed _
  | kwSwitch =>
    exact hbehind (by simp [hk]) fun hnext hlt => (ih.switch _ _ _ hnext).mono (by omega)
  | kwSwitchStr =>
    exact hbehind (by simp [hk]) fun hnext hlt => (ih.switch _ _ _ hnext).mono (by omega)
  | kwBreak => exact hbehind (by simp [hk]) fun _ _ => hclosed _
  | kwContinue => exact hbehind (by simp [hk]) fun _ _ => hclosed _
  | kwReturn =>
    refine hbehind (by simp [hk]) fun hnext hlt => ?_
    refine .at? .semicolon (.ite (fun _ => hclosed _) fun _ => ?_)
    exact ((expr_parsers_move d n).expression.from hnext (by omega)).attempt_bind
      (fun _ _ _ _ => hclosed _) fun _ _ _ => hclosed _
  | kwPackage => exact .giveUp _ (by simp)
  | semicolon => exact hbehind (by simp [hk]) fun _ _ => .failure
  | _ =>
    refine ((expr_parsers_move d n).expression.from hs (by omega)).bind_moved fun x t _ _ => ?_
    exact (does_accept _).bind fun _ _ _ _ => .pure rfl

private theorem body_moves : Within d (n + 1) 7 sometimes body := .succ fun s hs => by
  rw [body, body]
  refine .at? .lbrace (.ite (fun hat => ?_) fun _ => ?_)
  · exact (ih.block s hs (ne_eof_of_at hat (by decide))).mono (by omega)
  · exact ((ih.statement s hs).mono (by omega)).attempt_bind (fun _ _ _ _ => .pure rfl)
      fun _ _ _ => .pure rfl

private theorem block_moves (s : ParseState) (hs : s.EndsOnce) (hkind : s.cur.kind ≠ .eof) :
    Does (16 * s.rest.length + 1 ≤ n + 1) .reported sometimes (block (n + 1))
      (block (n + 1 + d)) s := by
  rw [Nat.succ_add, block, block]
  have hlt := hs.next_lt hkind
  have hnext := s.leads_next.ends hs
  refine .advance (((ih.blockTail []).from hnext (by omega)).bind fun stmts t hst _ => ?_)
  exact (does_accept _).bind fun _ _ _ _ => .pure rfl

private theorem function_moves (pos : Position) (package : Option Text) :
    Within d (n + 1) 1 sometimes (function · pos package) := .succ fun s hs => by
  rw [function_succ, function_succ]
  refine (does_functionName hs).bind fun name t hst hlt => ?_
  have ht := hst.ends hs
  have hlt := hlt rfl
  refine (does_expect ht (by decide)).bind fun _ u htu hult => ?_
  have hu := htu.ends ht
  have hult := hult rfl
  refine ((parameters_move d n []).from hu (by omega)).bind fun params v huv _ => ?_
  have hvle := huv.le
  extract_lets
  refine .at? .lbrace (.ite (fun hat => ?_) fun _ => .giveUpExpected _)
  have hblock := ih.block v (huv.ends hu) (ne_eof_of_at hat (by decide))
  exact (hblock.mono (by omega)).bind fun _ _ _ _ => .pure rfl

private theorem branch_moves (pos : Position) :
    Within d (n + 1) 1 sometimes (branch · pos) := .succ fun s hs => by
  rw [branch, branch]
  refine ((condition_moves d n).from hs (by omega)).bind fun test t hst hlt => ?_
  have ht := hst.ends hs
  have hlt := hlt rfl
  refine (ih.body.from ht (by omega)).bind fun whenTrue u htu _ => ?_
  have hu := htu.ends ht
  have hule := htu.le
  have hnext := u.leads_next.le
  refine .at? .kwElse (.ite (fun _ => .advance ?_) fun _ => .pure rfl)
  exact (ih.body.from (u.leads_next.ends hu) (by omega)).bind fun _ _ _ _ => .pure rfl

private theorem forLoop_moves (pos : Position) (s : ParseState) (hs : s.EndsOnce) :
    Does (16 * s.rest.length + 1 ≤ n + 1) .free sometimes (forLoop (n + 1) pos)
      (forLoop (n + 1 + d) pos) s := by
  rw [Nat.succ_add, forLoop_succ, forLoop_succ]
  refine (does_expect hs (by decide)).bind fun _ t₁ hst hlt => ?_
  have h₁ := hst.ends hs
  have hlt := hlt rfl
  refine ((expressionBefore_moves d n _).from h₁ (by omega)).bind fun start t₂ h₁₂ _ => ?_
  have h₂ := h₁₂.ends h₁
  refine (does_accept _).bind fun _ t₃ h₂₃ _ => ?_
  have h₃ := h₂₃.ends h₂
  have hle₃ := Nat.le_trans h₂₃.le h₁₂.le
  refine ((forTest_moves d n).from h₃ (by omega)).bind fun test t₄ h₃₄ _ => ?_
  have h₄ := h₃₄.ends h₃
  refine (does_accept _).bind fun _ t₅ h₄₅ _ => ?_
  have h₅ := h₄₅.ends h₄
  have hle₅ := Nat.le_trans h₄₅.le h₃₄.le
  refine ((expressionBefore_moves d n _).from h₅ (by omega)).bind fun next t₆ h₅₆ _ => ?_
  have h₆ := h₅₆.ends h₅
  have hle₆ := h₅₆.le
  refine (does_expect h₆ (by decide)).bind fun _ t₇ h₆₇ hlt₇ => ?_
  have hlt₇ := hlt₇ rfl
  cases test with
  | none => exact .failure
  | some test =>
    exact ((ih.body.from (h₆₇.ends h₆) (by omega)).bind fun _ _ _ _ => .pure rfl).weaken

private theorem switch_moves (pos : Position) (textual : Bool) (s : ParseState)
    (hs : s.EndsOnce) : Does (16 * s.rest.length + 1 ≤ n + 1) .free sometimes
      (switch (n + 1) pos textual) (switch (n + 1 + d) pos textual) s := by
  rw [Nat.succ_add, switch, switch]
  refine ((condition_moves d n).from hs (by omega)).bind fun subject t hst hlt => ?_
  have ht := hst.ends hs
  have hlt := hlt rfl
  refine (does_expect ht (by decide)).bind fun _ u htu hult => ?_
  have hu := htu.ends ht
  have hult := hult rfl
  refine ((ih.switchCases [] none).from hu (by omega)).bind fun found v huv _ => ?_
  refine (does_accept _).bind fun _ w _ _ => ?_
  cases Stmt.ofSwitch? pos textual subject found.1 found.2 with
  | none => exact .failure
  | some stmt => exact .pure rfl

theorem switchRound_moves (found : List SwitchCase × Option (List Stmt))
    (s : ParseState) (hs : s.EndsOnce) : Does (16 * s.rest.length + 1 ≤ n + 1) .reported
      Round.isAgain (switchRound n found) (switchRound (n + d) found) s := by
  have hend : Does (16 * s.rest.length + 1 ≤ n + 1) .reported Round.isAgain
      (pure (.leave (found.1.reverse, found.2)) : Parse _) (pure _) s := .pure rfl
  have hbody {t : ParseState} (ht : t.EndsOnce) (hlt : t.rest.length < s.rest.length)
      (f : List Stmt → Round (List SwitchCase × Option (List Stmt))) :
      Does (16 * s.rest.length + 1 ≤ n + 1) .reported sometimes
        (expect .colon >>= fun _ => caseBody n [] >>= fun body => pure (f body))
        (expect .colon >>= fun _ => caseBody (n + d) [] >>= fun body => pure (f body)) t := by
    refine (does_expect ht (by decide)).bind fun _ u htu hult => ?_
    have hult := htu.le
    exact ((ih.caseBody []).from (htu.ends ht) (by omega)).bind fun _ _ _ _ => .pure rfl
  have hnext := s.leads_next.ends hs
  refine .cur ?_
  cases hk : s.cur.kind with
  | rbrace => exact hend
  | eof => exact hend
  | kwCase =>
    have hkind : s.cur.kind ≠ .eof := by simp [hk]
    have hlt := hs.next_lt hkind
    refine .advance_moved hs hkind ?_
    refine ((caseValues_move d n []).from hnext (by omega)).bind fun values t hst _ => ?_
    have hle := hst.le
    exact hbody (hst.ends hnext) (by omega) _
  | kwDefault =>
    have hkind : s.cur.kind ≠ .eof := by simp [hk]
    exact .advance_moved hs hkind (hbody hnext (hs.next_lt hkind) _)
  | _ => exact .giveUpExpected _

private theorem switchCases_moves (seen : List SwitchCase) (default? : Option (List Stmt)) :
    Within d (n + 1) 1 sometimes (switchCases · seen default?) := .succ fun s hs => by
  rw [switchCases_succ n (seen, default?), switchCases_succ (n + d) (seen, default?)]
  refine (switchRound_moves ih _ s hs).follow fun found t hst hlt => ?_
  exact (ih.switchCases found.1 found.2).from (hst.ends hs) (by omega)

theorem caseRound_moves (seen : List Stmt) (s : ParseState) (hs : s.EndsOnce) :
    Does (16 * s.rest.length + 7 ≤ n + 1) .reported Round.isAgain (caseRound n seen)
      (caseRound (n + d) seen) s := by
  refine .kind (.ite (fun _ => .pure rfl) fun hend => ?_)
  refine .errorCount (((ih.statement s hs).mono (by omega)).attempt_moved
    (fun x t _ _ => ?_) fun t _ _ herrors => ?_)
  · exact .errorCount (.ite (fun _ => .pure rfl) fun _ => .pure rfl)
  · exact .errorCount (.ite (fun _ => .pure rfl) fun hle => absurd herrors hle)

private theorem caseBody_moves (seen : List Stmt) :
    Within d (n + 1) 7 sometimes (caseBody · seen) := .succ fun s hs => by
  rw [caseBody_succ, caseBody_succ]
  refine (caseRound_moves ih seen s hs).follow fun seen t hst hlt => ?_
  exact (ih.caseBody seen).from (hst.ends hs) (by omega)

theorem blockRound_moves (seen : List Stmt) (s : ParseState) (hs : s.EndsOnce) :
    Does (16 * s.rest.length + 7 ≤ n + 1) .reported Round.isAgain (blockRound n seen)
      (blockRound (n + d) seen) s := by
  refine .kind (.ite (fun _ => .pure rfl) fun hend => ?_)
  refine .errorCount (((ih.statement s hs).mono (by omega)).attempt_moved
    (fun x t _ _ => ?_) fun t hst hcur herrors => ?_)
  · exact (does_recoverBeyond _).bind fun _ _ _ _ => .pure rfl
  · have hkind : s.cur.kind ≠ .eof ∧ s.cur.kind ≠ .rbrace := by grind
    exact .recoverBeyond_moved (hst.ends hs) herrors (hcur ▸ hkind.1) (hcur ▸ hkind.2) (.pure rfl)

private theorem blockTail_moves (seen : List Stmt) :
    Within d (n + 1) 7 sometimes (blockTail · seen) := .succ fun s hs => by
  rw [blockTail_succ, blockTail_succ]
  refine (blockRound_moves ih seen s hs).follow fun seen t hst hlt => ?_
  exact (ih.blockTail seen).from (hst.ends hs) (by omega)

end step

theorem stmt_parsers_move (d n : Nat) : StmtParsersMove d n := by
  induction n with
  | zero =>
    exact {
      statement := fun _ _ => .tooDeep (by omega)
      function := fun _ _ => .zero (by decide) rfl
      branch := fun _ => .zero (by decide) rfl
      forLoop := fun _ _ _ => .tooDeep (by omega)
      switch := fun _ _ _ _ => .tooDeep (by omega)
      switchCases := fun _ _ => .zero (by decide) rfl
      caseBody := fun _ => .zero (by decide) rfl
      body := .zero (by decide) rfl
      block := fun _ _ _ => .tooDeep (by omega)
      blockTail := fun _ => .zero (by decide) rfl }
  | succ n ih =>
    exact {
      statement := statement_moves ih
      function := function_moves ih
      branch := branch_moves ih
      forLoop := forLoop_moves ih
      switch := switch_moves ih
      switchCases := switchCases_moves ih
      caseBody := caseBody_moves ih
      body := body_moves ih
      block := block_moves ih
      blockTail := blockTail_moves ih }

/-! ## Packages and whole sources -/

theorem packageRound_moves (d n : Nat) (name : Text) (seen : List Stmt) (s : ParseState)
    (hs : s.EndsOnce) : Does (16 * s.rest.length ≤ n + 10) .reported Round.isAgain
      (packageRound n name seen) (packageRound (n + d) name seen) s := by
  refine .cur (.ite (fun _ => ?_) fun _ => .ite (fun hk => ?_) fun _ => ?_)
  · exact (does_accept _).bind fun _ _ _ _ => (does_skip _).bind fun _ _ _ _ => .pure rfl
  · have hkind := ne_eof_of_at hk (by decide)
    have hlt := hs.next_lt hkind
    refine .advance_moved hs hkind ?_
    refine (((stmt_parsers_move d n).function _ _).from (s.leads_next.ends hs)
      (by omega)).attempt_bind (fun _ _ _ _ => .pure rfl) fun _ _ _ => .pure rfl
  · exact .complain (by simp) (.pure rfl)

theorem packageTail_moves (d n : Nat) (name : Text) (seen : List Stmt) :
    Within d n 1 sometimes (packageTail · name seen) := by
  induction n generalizing seen with
  | zero => exact .zero (by decide) rfl
  | succ n ih =>
    refine .succ fun s hs => ?_
    rw [packageTail_succ, packageTail_succ]
    refine ((packageRound_moves d n name seen s hs).mono (by omega)).follow
      fun seen t hst hlt => ?_
    exact (ih seen).from (hst.ends hs) (by omega)

theorem package_moves (d n : Nat) : Within d n 0 sometimes package := fun s hs => by
  refine (does_ident hs _).bind fun name t hst hlt => ?_
  have ht := hst.ends hs
  have hlt := hlt rfl
  refine (does_expect ht (by decide)).bind fun _ u htu _ => ?_
  have hule := htu.le
  exact (packageTail_moves d n name []).from (htu.ends ht) (by omega)

theorem programRound_moves (d n : Nat) (seen : List Stmt) (s : ParseState) (hs : s.EndsOnce) :
    Does (16 * s.rest.length + 6 ≤ n) .reported Round.isAgain (programRound n seen)
      (programRound (n + d) seen) s := by
  refine .kind (.ite (fun _ => .pure rfl) fun hend => ?_)
  have heof : s.cur.kind ≠ .eof := by simpa using hend
  have hnext := s.leads_next.ends hs
  have hlt := hs.next_lt heof
  refine .errorCount ?_
  unfold programPart
  simp only [ite_bind, bind_assoc, pure_bind]
  have hclose (more : List Stmt) {g : GivingUp} {t : ParseState} :
      Does (16 * s.rest.length + 6 ≤ n) g sometimes
        (recoverBeyond s.errors.length >>= fun _ => pure (Round.again (more ++ seen)))
        (recoverBeyond s.errors.length >>= fun _ => pure (Round.again (more ++ seen))) t :=
    (does_recoverBeyond _).bind fun _ _ _ _ => .pure rfl
  refine .ite (fun _ => ?_) fun _ => .ite (fun _ => ?_) fun hbrace => ?_
  · refine .advance_moved hs heof ?_
    exact ((package_moves d n).from hnext (by omega)).attempt_bind (fun _ _ _ _ => hclose _)
      fun _ _ _ => hclose _
  · exact .complain (by simp) (.advance_moved hs heof (hclose _))
  · refine ((stmt_parsers_move d n).statement s hs).attempt_moved (fun x t _ _ => hclose _)
      fun t hst hcur herrors => ?_
    have hbrace : s.cur.kind ≠ .rbrace := by simpa using hbrace
    exact .recoverBeyond_moved (hst.ends hs) herrors (hcur ▸ heof) (hcur ▸ hbrace) (.pure rfl)

theorem programTail_moves (d n : Nat) (seen : List Stmt) :
    Within d n 7 sometimes (programTail · seen) := by
  induction n generalizing seen with
  | zero => exact .zero (by decide) rfl
  | succ n ih =>
    refine .succ fun s hs => ?_
    rw [programTail_succ, programTail_succ]
    refine ((programRound_moves d n seen s hs).mono (by omega)).follow
      fun seen t hst hlt => ?_
    exact (ih seen).from (hst.ends hs) (by omega)

end Parse
end ConsoleScript
