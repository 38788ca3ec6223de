import ConsoleScript.Proofs.Source.Advancing

/-!
# Expressions move on

Every parser of expressions moves over a token, or gives up with a new error. Its loops, over the
arguments of a call, the components of an index, and the arguments and the body of an object, go on
only behind a token. Sixteen levels of nesting for each token left are enough.
-/

namespace ConsoleScript
namespace Parse

/-! ## Rounds of the loops -/

/-- The rest of an argument list up to the next argument, and that one. -/
def argumentRound (n : Nat) (seen : List Expr) : Parse (Round (List Expr)) := do
  if ← at? .rparen then
    advance
    return .leave seen.reverse
  else
    let a ← expression n
    if ← at? .comma then advance
    else if !(← at? .rparen) then giveUpExpected ", or ) in argument list"
    return .again (a :: seen)

def indexRound (n : Nat) (index : Expr) : Parse (Round Expr) := do
  let op ← cur
  if op.kind == .comma then
    advance
    let next ← expression n
    return .again (.indexPair op.pos index next)
  else return .leave index

def extraRound (n : Nat) (seen : List Expr) : Parse (Round (List Expr)) := do
  if ← at? .comma then
    advance
    let a ← expression n
    return .again (a :: seen)
  else return .leave seen.reverse

def objectRound (n : Nat) (body : List FieldInit × List ObjectDecl) :
    Parse (Round (List FieldInit × List ObjectDecl)) := do
  let t ← cur
  if t.kind == .rbrace || t.kind == .eof then return .leave (body.1.reverse, body.2.reverse)
  else if t.kind == .kwNew || (t.kind == .kwDatablock && (← get).peek.kind != .assign) then
    advance
    let child ← objectDecl n t.pos (t.kind == .kwDatablock)
    expect .semicolon
    return .again (body.1, child :: body.2)
  else
    let f ← fieldInit n
    return .again (f :: body.1, body.2)

theorem argumentTail_succ (n : Nat) (seen : List Expr) :
    argumentTail (n + 1) seen = argumentRound n seen >>= Round.follow (argumentTail n) := by
  simp only [argumentTail, argumentRound, ite_bind, bind_assoc, pure_bind, Round.follow]

theorem indexTail_succ (n : Nat) (index : Expr) :
    indexTail (n + 1) index = indexRound n index >>= Round.follow (indexTail n) := by
  simp only [indexTail, indexRound, ite_bind, bind_assoc, pure_bind, Round.follow]

theorem extraArguments_succ (n : Nat) (seen : List Expr) :
    extraArguments (n + 1) seen = extraRound n seen >>= Round.follow (extraArguments n) := by
  simp only [extraArguments, extraRound, ite_bind, bind_assoc, pure_bind, Round.follow]

theorem objectBody_succ (n : Nat) (body : List FieldInit × List ObjectDecl) :
    objectBody (n + 1) body.1 body.2
      = objectRound n body >>= Round.follow fun body => objectBody n body.1 body.2 := by
  simp only [objectBody, objectRound, ite_bind, bind_assoc, pure_bind, Round.follow]

/-! ## Stages of an object declaration -/

def objectClass (n : Nat) : Parse Expr := do
  let t ← cur
  match t.kind with
  | .ident =>
    advance
    return .word t.pos t.literal
  | .lparen =>
    advance
    let x ← expression n
    expect .rparen
    return x
  | _ => giveUpExpected "class name"

def objectName (n : Nat) : Parse Expr := do
  let t ← cur
  if t.kind == .rparen || t.kind == .colon then return .str t.pos [] false else ternary n

def objectSource : Parse (Option Text) := do
  if ← at? .colon then
    advance
    return some (← ident "parent object name")
  else return none

def objectBraces (n : Nat) : Parse (List FieldInit × List ObjectDecl) := do
  if ← at? .lbrace then
    advance
    let body ← objectBody n [] []
    expect .rbrace
    return body
  else return ([], [])

theorem objectDecl_succ (n : Nat) (pos : Position) (datablock : Bool) :
    objectDecl (n + 1) pos datablock = (do
      let className ← objectClass n
      expect .lparen
      let name ← objectName n
      let copyFrom ← objectSource
      let args ← extraArguments n []
      expect .rparen
      let body ← objectBraces n
      return .mk pos className name copyFrom args datablock body.1 body.2) := by
  rw [objectDecl, objectClass]
  simp only [objectName, objectSource, objectBraces, ite_bind, bind_assoc, pure_bind]
  congr 1
  funext t
  cases t.kind <;> simp only [bind_assoc, pure_bind]

/-! ## Expressions -/

/-- What the parsers of expressions do within a bound on nesting. -/
structure ExprParsersMove (d n : Nat) : Prop where
  expression : Within d n 5 always expression
  ternary : Within d n 4 always ternary
  binary : ∀ level, Within d n 3 always (binary · level)
  binaryTail : ∀ level left, Within d n 1 sometimes (binaryTail · level left)
  unary : Within d n 2 always unary
  postfixTail : ∀ x, Within d n 2 sometimes (postfixTail · x)
  bracketed : ∀ s : ParseState, s.EndsOnce → s.cur.kind ≠ .eof →
    Does (16 * s.rest.length + 1 ≤ n) .reported always (bracketed n) (bracketed (n + d)) s
  indexTail : ∀ x, Within d n 1 sometimes (indexTail · x)
  arguments : ∀ s : ParseState, s.EndsOnce → s.cur.kind ≠ .eof →
    Does (16 * s.rest.length + 1 ≤ n) .reported always (arguments n) (arguments (n + d)) s
  argumentTail : ∀ seen, Within d n 6 sometimes (argumentTail · seen)
  primary : Within d n 1 always primary
  wordOrCall : ∀ t, Within d n 2 sometimes (wordOrCall · t)
  objectDecl : ∀ pos datablock, Within d n 1 always (objectDecl · pos datablock)
  extraArguments : ∀ seen, Within d n 1 sometimes (extraArguments · seen)
  objectBody : ∀ fields children, Within d n 2 sometimes (objectBody · fields children)
  fieldInit : Within d n 1 always fieldInit

theorem withIndex_ne_tooDeep {x index : Expr} {cause : ParseCause}
    (h : Expr.withIndex x index = .error cause) : cause ≠ .tooDeep := by
  unfold Expr.withIndex at h
  split at h <;> cases h <;> simp

theorem does_objectSource {enough : Prop} {s : ParseState} (hs : s.EndsOnce) :
    Does enough .reported sometimes objectSource objectSource s := by
  refine .at? .colon (.ite (fun _ => .advance ?_) fun _ => .pure rfl)
  exact (does_ident (s.leads_next.ends hs) _).bind fun _ _ _ _ => .pure rfl

section step

variable {d n : Nat} (ih : ExprParsersMove d n)
include ih

private theorem expression_moves : Within d (n + 1) 5 always expression := .succ fun s hs => by
  rw [expression, expression]
  refine (ih.ternary.from hs (by omega)).bind_moved fun left t hst hlt => ?_
  have ht := hst.ends hs
  have hle := t.leads_next.le
  refine .cur (.ite (fun _ => .advance ?_) fun _ => ?_)
  · refine (ih.expression.from (t.leads_next.ends ht) (by omega)).bind fun value u _ _ => ?_
    exact does_orGiveUp .assignTarget (by simp) _
  · cases t.cur.kind.updateOp? with
    | some op =>
      refine .advance ?_
      refine (ih.expression.from (t.leads_next.ends ht) (by omega)).bind fun value u _ _ => ?_
      exact does_orGiveUp .assignTarget (by simp) _
    | none => exact .pure rfl

private theorem ternary_moves : Within d (n + 1) 4 always ternary := .succ fun s hs => by
  rw [ternary, ternary]
  refine (((ih.binary 0).from hs (by omega)).bind_moved fun test t hst hlt => ?_)
  have ht := hst.ends hs
  have hle := t.leads_next.le
  refine .cur (.ite (fun _ => .advance ?_) fun _ => .pure rfl)
  refine (ih.expression.from (t.leads_next.ends ht) (by omega)).bind fun whenTrue u htu hult => ?_
  have hu := htu.ends (t.leads_next.ends ht)
  have hult := hult rfl
  refine (does_expect hu (by decide)).bind fun _ v huv hvlt => ?_
  have hvlt := hvlt rfl
  refine (ih.ternary.from (huv.ends hu) (by omega)).bind fun whenFalse w _ _ => ?_
  exact .pure rfl

private theorem binary_moves (level : Nat) : Within d (n + 1) 3 always (binary · level) :=
  .succ fun s hs => by
    rw [binary, binary]
    refine (ih.unary.from hs (by omega)).bind_moved fun left t hst hlt => ?_
    exact (ih.binaryTail level left).from (hst.ends hs) (by omega)

private theorem binaryTail_moves (level : Nat) (left : Expr) :
    Within d (n + 1) 1 sometimes (binaryTail · level left) := .succ fun s hs => by
  rw [binaryTail, binaryTail]
  refine .cur ?_
  cases hp : s.cur.kind.precedence? with
  | none => exact .pure rfl
  | some p =>
    refine .ite (fun _ => .pure rfl) fun _ => ?_
    have hkind : s.cur.kind ≠ .eof := by
      intro heof
      rw [heof] at hp
      cases hp
    have hlt := hs.next_lt hkind
    have hnext := s.leads_next.ends hs
    refine .advance (((ih.binary p).from hnext (by omega)).bind fun right t hst htlt => ?_)
    have htlt := htlt rfl
    exact (ih.binaryTail level _).from (hst.ends hnext) (by omega)

private theorem unary_moves : Within d (n + 1) 2 always unary := .succ fun s hs => by
  rw [unary, unary]
  have hoperand : Does (16 * s.rest.length + 2 ≤ n + 1) .reported always
      (primary n >>= postfixTail n) (primary (n + d) >>= postfixTail (n + d)) s := by
    refine (ih.primary.from hs (by omega)).bind_moved fun x t hst hlt => ?_
    exact (ih.postfixTail x).from (hst.ends hs) (by omega)
  have hsign (hkind : s.cur.kind ≠ .eof) (f : Expr → Expr) :
      Does (16 * s.rest.length + 2 ≤ n + 1) .reported always
        (advance >>= fun _ => unary n >>= fun x => pure (f x))
        (advance >>= fun _ => unary (n + d) >>= fun x => pure (f x)) s := by
    have hlt := hs.next_lt hkind
    refine .advance_moved hs hkind ?_
    refine (ih.unary.from (s.leads_next.ends hs) (by omega)).bind fun x t _ _ => ?_
    exact .pure rfl
  refine .cur ?_
  cases hk : s.cur.kind with
  | minus => exact hsign (by simp [hk]) _
  | bang => exact hsign (by simp [hk]) _
  | tilde => exact hsign (by simp [hk]) _
  | _ => exact hoperand

private theorem postfixTail_moves (x : Expr) :
    Within d (n + 1) 2 sometimes (postfixTail · x) := .succ fun s hs => by
  rw [postfixTail, postfixTail]
  have htail {t : ParseState} (ht : t.EndsOnce) (hlt : t.rest.length < s.rest.length) (y : Expr) :
      Does (16 * s.rest.length + 2 ≤ n + 1) .reported sometimes (postfixTail n y)
        (postfixTail (n + d) y) t :=
    (ih.postfixTail y).from ht (by omega)
  have hstep (hkind : s.cur.kind ≠ .eof) (op : UpdateOp) :
      Does (16 * s.rest.length + 2 ≤ n + 1) .reported sometimes
        (advance >>= fun _ => orGiveUp .assignTarget (Expr.updateTo? s.cur.pos op x
          (.int s.cur.pos 1)) >>= postfixTail n)
        (advance >>= fun _ => orGiveUp .assignTarget (Expr.updateTo? s.cur.pos op x
          (.int s.cur.pos 1)) >>= postfixTail (n + d)) s := by
    have hlt := hs.next_lt hkind
    have hnext := s.leads_next.ends hs
    refine .advance ((does_orGiveUp .assignTarget (by simp) _).bind fun y t hst _ => ?_)
    have hle := hst.le
    exact htail (hst.ends hnext) (by omega) y
  refine .cur ?_
  cases hk : s.cur.kind with
  | dot =>
    have hkind : s.cur.kind ≠ .eof := by simp [hk]
    have hlt := hs.next_lt hkind
    have hnext := s.leads_next.ends hs
    have hle := s.next.leads_next.le
    have ht := s.next.leads_next.ends hnext
    refine .advance (does_fieldName hnext _ fun name _ => ?_)
    refine .at? .lparen (.ite (fun hat => ?_) fun _ => htail ht (by omega) _)
    refine ((ih.arguments _ ht (ne_eof_of_at hat (by decide))).mono (by omega)).bind
      fun args u htu hut => ?_
    have hut := hut rfl
    exact htail (htu.ends ht) (by omega) _
  | lbracket =>
    have hkind : s.cur.kind ≠ .eof := by simp [hk]
    refine ((ih.bracketed s hs hkind).mono (by omega)).bind fun index t hst hlt => ?_
    have hlt := hlt rfl
    cases hindex : Expr.withIndex x index with
    | ok y => exact htail (hst.ends hs) hlt y
    | error cause => exact .giveUp cause (withIndex_ne_tooDeep hindex)
  | plusPlus => exact hstep (by simp [hk]) _
  | minusMinus => exact hstep (by simp [hk]) _
  | _ => exact .pure rfl

private theorem bracketed_moves (s : ParseState) (hs : s.EndsOnce) (hkind : s.cur.kind ≠ .eof) :
    Does (16 * s.rest.length + 1 ≤ n + 1) .reported always (bracketed (n + 1))
      (bracketed (n + 1 + d)) s := by
  rw [Nat.succ_add, bracketed, bracketed]
  have hlt := hs.next_lt hkind
  have hnext := s.leads_next.ends hs
  refine .advance_moved hs hkind ?_
  refine (ih.expression.from hnext (by omega)).bind fun first t hst htlt => ?_
  have ht := hst.ends hnext
  have htlt := htlt rfl
  refine ((ih.indexTail first).from ht (by omega)).bind fun index u htu _ => ?_
  exact (does_expect (htu.ends ht) (by decide)).bind fun _ _ _ _ => .pure rfl

private theorem arguments_moves (s : ParseState) (hs : s.EndsOnce) (hkind : s.cur.kind ≠ .eof) :
    Does (16 * s.rest.length + 1 ≤ n + 1) .reported always (arguments (n + 1))
      (arguments (n + 1 + d)) s := by
  rw [Nat.succ_add, arguments, arguments]
  have hlt := hs.next_lt hkind
  exact .advance_moved hs hkind ((ih.argumentTail []).from (s.leads_next.ends hs) (by omega))

theorem argumentRound_moves (seen : List Expr) (s : ParseState) (hs : s.EndsOnce) :
    Does (16 * s.rest.length + 6 ≤ n + 1) .reported Round.isAgain (argumentRound n seen)
      (argumentRound (n + d) seen) s := by
  refine .at? .rparen (.ite (fun _ => .advance (.pure rfl)) fun _ => ?_)
  refine (ih.expression.from hs (by omega)).bind_moved fun a t hst hlt => ?_
  extract_lets
  refine .at? .comma (.ite (fun _ => .advance (.pure rfl)) fun _ => ?_)
  exact .at? .rparen (.ite (fun _ => .giveUpExpected _) fun _ => .pure rfl)

private theorem argumentTail_moves (seen : List Expr) :
    Within d (n + 1) 6 sometimes (argumentTail · seen) := .succ fun s hs => by
  rw [argumentTail_succ, argumentTail_succ]
  refine (argumentRound_moves ih seen s hs).follow fun seen t hst hlt => ?_
  exact (ih.argumentTail seen).from (hst.ends hs) (by omega)

theorem indexRound_moves (index : Expr) (s : ParseState) (hs : s.EndsOnce) :
    Does (16 * s.rest.length + 1 ≤ n + 1) .reported Round.isAgain (indexRound n index)
      (indexRound (n + d) index) s := by
  refine .cur (.ite (fun hk => ?_) fun _ => .pure rfl)
  have hkind := ne_eof_of_at hk (by decide)
  have hlt := hs.next_lt hkind
  refine .advance_moved hs hkind ?_
  exact (ih.expression.from (s.leads_next.ends hs) (by omega)).bind fun _ _ _ _ => .pure rfl

private theorem indexTail_moves (index : Expr) :
    Within d (n + 1) 1 sometimes (indexTail · index) := .succ fun s hs => by
  rw [indexTail_succ, indexTail_succ]
  refine (indexRound_moves ih index s hs).follow fun index t hst hlt => ?_
  exact (ih.indexTail index).from (hst.ends hs) (by omega)

private theorem primary_moves : Within d (n + 1) 1 always primary := .succ fun s hs => by
  rw [primary, primary]
  have hbehind (hkind : s.cur.kind ≠ .eof) {p p' : Parse Expr}
      (h : s.next.EndsOnce → s.next.rest.length < s.rest.length →
        Does (16 * s.rest.length + 1 ≤ n + 1) .reported sometimes p p' s.next) :
      Does (16 * s.rest.length + 1 ≤ n + 1) .reported always (advance >>= fun _ => p)
        (advance >>= fun _ => p') s :=
    .advance_moved hs hkind (h (s.leads_next.ends hs) (hs.next_lt hkind))
  refine .cur ?_
  cases hk : s.cur.kind with
  | integer => exact hbehind (by simp [hk]) fun _ _ => .pure rfl
  | float =>
    refine hbehind (by simp [hk]) fun _ _ => ?_
    split
    · exact .pure rfl
    · exact .giveUp _ (by simp)
  | string => exact hbehind (by simp [hk]) fun _ _ => .pure rfl
  | tagString => exact hbehind (by simp [hk]) fun _ _ => .pure rfl
  | kwTrue => exact hbehind (by simp [hk]) fun _ _ => .pure rfl
  | kwFalse => exact hbehind (by simp [hk]) fun _ _ => .pure rfl
  | localVar => exact hbehind (by simp [hk]) fun _ _ => .pure rfl
  | globalVar => exact hbehind (by simp [hk]) fun _ _ => .pure rfl
  | ident =>
    exact hbehind (by simp [hk]) fun hnext hlt => (ih.wordOrCall s.cur).from hnext (by omega)
  | lparen =>
    refine hbehind (by simp [hk]) fun hnext hlt => ?_
    refine (ih.expression.from hnext (by omega)).bind fun x t hst _ => ?_
    exact (does_expect (hst.ends hnext) (by decide)).bind fun _ _ _ _ => .pure rfl
  | kwNew =>
    refine hbehind (by simp [hk]) fun hnext hlt => ?_
    exact ((ih.objectDecl _ _).from hnext (by omega)).bind fun _ _ _ _ => .pure rfl
  | kwDatablock =>
    refine hbehind (by simp [hk]) fun hnext hlt => ?_
    exact ((ih.objectDecl _ _).from hnext (by omega)).bind fun _ _ _ _ => .pure rfl
  | _ => exact .giveUp _ (by simp)

private theorem wordOrCall_moves (t : Token) :
    Within d (n + 1) 2 sometimes (wordOrCall · t) := .succ fun s hs => by
  rw [wordOrCall, wordOrCall]
  have hcall {u : ParseState} (hu : u.EndsOnce) (hle : u.rest.length ≤ s.rest.length)
      (hat : u.at? .lparen = true) (f : List Expr → Expr) :
      Does (16 * s.rest.length + 2 ≤ n + 1) .reported sometimes
        (arguments n >>= fun args => pure (f args))
        (arguments (n + d) >>= fun args => pure (f args)) u :=
    ((ih.arguments u hu (ne_eof_of_at hat (by decide))).mono (by omega)).bind
      fun _ _ _ _ => .pure rfl
  refine .at? .colonColon (.ite (fun hk => .advance ?_) fun _ => ?_)
  · have hnext := s.leads_next.ends hs
    have hle := s.leads_next.le
    refine (does_ident hnext _).bind fun name u hu _ => ?_
    have hule := hu.le
    extract_lets
    exact .at? .lparen (.ite (fun hat => hcall (hu.ends hnext) (by omega) hat _)
      fun _ => .giveUp _ (by simp))
  · exact .at? .lparen (.ite (fun hat => hcall hs (Nat.le_refl _) hat _) fun _ => .pure rfl)

private theorem objectClass_moves (s : ParseState) (hs : s.EndsOnce) :
    Does (16 * s.rest.length ≤ n + 10) .reported always (objectClass n) (objectClass (n + d)) s := by
  refine .cur ?_
  cases hk : s.cur.kind with
  | ident => exact .advance_moved hs (by simp [hk]) (.pure rfl)
  | lparen =>
    have hkind : s.cur.kind ≠ .eof := by simp [hk]
    have hlt := hs.next_lt hkind
    have hnext := s.leads_next.ends hs
    refine .advance_moved hs hkind ?_
    refine (ih.expression.from hnext (by omega)).bind fun x t hst _ => ?_
    exact (does_expect (hst.ends hnext) (by decide)).bind fun _ _ _ _ => .pure rfl
  | _ => exact .giveUpExpected _

private theorem objectName_moves : Within d n 4 sometimes objectName :=
  fun s hs => .cur (.ite (fun _ => .pure rfl) fun _ => (ih.ternary s hs).anyway)

private theorem objectBraces_moves : Within d n 0 sometimes objectBraces := fun s hs => by
  refine .at? .lbrace (.ite (fun hat => ?_) fun _ => .pure rfl)
  have hlt := hs.next_lt (ne_eof_of_at hat (by decide))
  have hnext := s.leads_next.ends hs
  refine .advance (((ih.objectBody [] []).from hnext (by omega)).bind fun body t hst _ => ?_)
  exact (does_expect (hst.ends hnext) (by decide)).bind fun _ _ _ _ => .pure rfl

private theorem objectDecl_moves (pos : Position) (datablock : Bool) :
    Within d (n + 1) 1 always (objectDecl · pos datablock) := .succ fun s hs => by
  rw [objectDecl_succ, objectDecl_succ]
  refine ((objectClass_moves ih s hs).mono (by omega)).bind_moved fun className t hst hlt => ?_
  have ht := hst.ends hs
  refine (does_expect ht (by decide)).bind fun _ u htu hult => ?_
  have hu := htu.ends ht
  have hult := hult rfl
  refine ((objectName_moves ih).from hu (by omega)).bind fun name v huv _ => ?_
  have hv := huv.ends hu
  have hvle := huv.le
  refine (does_objectSource hv).bind fun copyFrom w hvw _ => ?_
  have hw := hvw.ends hv
  have hwle := hvw.le
  refine ((ih.extraArguments []).from hw (by omega)).bind fun args x hwx _ => ?_
  have hx := hwx.ends hw
  have hxle := hwx.le
  refine (does_expect hx (by decide)).bind fun _ y hxy _ => ?_
  have hyle := hxy.le
  refine ((objectBraces_moves ih).from (hxy.ends hx) (by omega)).bind fun body z _ _ => ?_
  exact .pure rfl

theorem extraRound_moves (seen : List Expr) (s : ParseState) (hs : s.EndsOnce) :
    Does (16 * s.rest.length + 1 ≤ n + 1) .reported Round.isAgain (extraRound n seen)
      (extraRound (n + d) seen) s := by
  refine .at? .comma (.ite (fun hat => ?_) fun _ => .pure rfl)
  have hkind := ne_eof_of_at hat (by decide)
  have hlt := hs.next_lt hkind
  refine .advance_moved hs hkind ?_
  exact (ih.expression.from (s.leads_next.ends hs) (by omega)).bind fun _ _ _ _ => .pure rfl

private theorem extraArguments_moves (seen : List Expr) :
    Within d (n + 1) 1 sometimes (extraArguments · seen) := .succ fun s hs => by
  rw [extraArguments_succ, extraArguments_succ]
  refine (extraRound_moves ih seen s hs).follow fun seen t hst hlt => ?_
  exact (ih.extraArguments seen).from (hst.ends hs) (by omega)

theorem objectRound_moves (body : List FieldInit × List ObjectDecl) (s : ParseState)
    (hs : s.EndsOnce) : Does (16 * s.rest.length + 2 ≤ n + 1) .reported Round.isAgain
      (objectRound n body) (objectRound (n + d) body) s := by
  refine .cur (.ite (fun _ => .pure rfl) fun hend => .get (.ite (fun _ => ?_) fun _ => ?_))
  · have hkind : s.cur.kind ≠ .eof := by
      intro heof
      simp [heof] at hend
    have hlt := hs.next_lt hkind
    have hnext := s.leads_next.ends hs
    refine .advance_moved hs hkind ?_
    refine ((ih.objectDecl _ _).from hnext (by omega)).bind fun child t hst _ => ?_
    exact (does_expect (hst.ends hnext) (by decide)).bind fun _ _ _ _ => .pure rfl
  · exact (ih.fieldInit.from hs (by omega)).bind_moved fun _ _ _ _ => .pure rfl

private theorem objectBody_moves (fields : List FieldInit) (children : List ObjectDecl) :
    Within d (n + 1) 2 sometimes (objectBody · fields children) := .succ fun s hs => by
  rw [objectBody_succ n (fields, children), objectBody_succ (n + d) (fields, children)]
  refine (objectRound_moves ih _ s hs).follow fun body t hst hlt => ?_
  exact (ih.objectBody body.1 body.2).from (hst.ends hs) (by omega)

private theorem fieldInit_moves : Within d (n + 1) 1 always fieldInit := .succ fun s hs => by
  rw [fieldInit, fieldInit]
  refine .cur (does_fieldName hs _ fun name hlt => ?_)
  have hnext := s.leads_next.ends hs
  extract_lets set set'
  have hset (index : Option Expr) (t : ParseState) (ht : t.EndsOnce)
      (htlt : t.rest.length < s.rest.length) :
      Does (16 * s.rest.length + 1 ≤ n + 1) .reported sometimes (set index) (set' index) t := by
    refine (does_expect ht (by decide)).bind fun _ u htu _ => ?_
    have hu := htu.ends ht
    have hule := htu.le
    refine (ih.expression.from hu (by omega)).bind fun value v huv _ => ?_
    exact (does_expect (huv.ends hu) (by decide)).bind fun _ _ _ _ => .pure rfl
  refine .at? .lbracket (.ite (fun hat => ?_) fun _ => hset none _ hnext hlt)
  rw [bind_map_left, bind_map_left]
  have hindex := ih.bracketed s.next hnext (ne_eof_of_at hat (by decide))
  refine (hindex.mono (by omega)).bind fun index t hst _ => ?_
  have hle := hst.le
  exact hset index t (hst.ends hnext) (by omega)

end step

theorem expr_parsers_move (d n : Nat) : ExprParsersMove d n := by
  induction n with
  | zero =>
    exact {
      expression := .zero (by decide) rfl
      ternary := .zero (by decide) rfl
      binary := fun _ => .zero (by decide) rfl
      binaryTail := fun _ _ => .zero (by decide) rfl
      unary := .zero (by decide) rfl
      postfixTail := fun _ => .zero (by decide) rfl
      bracketed := fun _ _ _ => .tooDeep (by omega)
      indexTail := fun _ => .zero (by decide) rfl
      arguments := fun _ _ _ => .tooDeep (by omega)
      argumentTail := fun _ => .zero (by decide) rfl
      primary := .zero (by decide) rfl
      wordOrCall := fun _ => .zero (by decide) rfl
      objectDecl := fun _ _ => .zero (by decide) rfl
      extraArguments := fun _ => .zero (by decide) rfl
      objectBody := fun _ _ => .zero (by decide) rfl
      fieldInit := .zero (by decide) rfl }
  | succ n ih =>
    exact {
      expression := expression_moves ih
      ternary := ternary_moves ih
      binary := binary_moves ih
      binaryTail := binaryTail_moves ih
      unary := unary_moves ih
      postfixTail := postfixTail_moves ih
      bracketed := bracketed_moves ih
      indexTail := indexTail_moves ih
      arguments := arguments_moves ih
      argumentTail := argumentTail_moves ih
      primary := primary_moves ih
      wordOrCall := wordOrCall_moves ih
      objectDecl := objectDecl_moves ih
      extraArguments := extraArguments_moves ih
      objectBody := objectBody_moves ih
      fieldInit := fieldInit_moves ih }

end Parse
end ConsoleScript
