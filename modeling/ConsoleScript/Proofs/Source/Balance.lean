import ConsoleScript.Proofs.Source.Termination

/-!
# Parsing closes what it opens

A parser that leaves no error behind has moved over as many closing brackets as opening ones, but
for the one that its caller moved over. So the brackets of a program that parses are balanced.
-/

namespace ConsoleScript

/-! ## Counting brackets -/

/-- How many more brackets a token opens than it closes. Kinds of brackets are not told apart. -/
def TokenKind.surplus : TokenKind → Int
  | .lparen | .lbracket | .lbrace => 1
  | .rparen | .rbracket | .rbrace => -1
  | _ => 0

theorem TokenKind.surplus_of_isWord {k : TokenKind} (h : k.isWord = true) : k.surplus = 0 := by
  cases k <;> first | rfl | exact absurd h (by decide)

theorem TokenKind.surplus_of_precedence? {k : TokenKind} {p : Nat} (h : k.precedence? = some p) :
    k.surplus = 0 := by
  cases k <;> first | rfl | exact absurd h (by simp [precedence?])

theorem TokenKind.surplus_of_updateOp? {k : TokenKind} {op : UpdateOp}
    (h : k.updateOp? = some op) : k.surplus = 0 := by
  cases k <;> first | rfl | exact absurd h (by simp [updateOp?])

namespace ParseState

/-- How many more brackets are opened than closed from the current token on. -/
def surplus (s : ParseState) : Int :=
  s.cur.kind.surplus + (s.rest.map (·.token.kind.surplus)).sum

theorem EndsOnce.surplus_next {s : ParseState} (h : s.EndsOnce) :
    s.cur.kind.surplus + s.next.surplus = s.surplus := by
  obtain ⟨cur, rest, errors⟩ := s
  cases rest with
  | nil =>
    have hkind : cur.kind = .eof := h
    simp [surplus, next, hkind, TokenKind.surplus]
  | cons u us => simp [surplus, next]

end ParseState

namespace Parse

variable {α β : Type}

/-- A parser moves over `w` more opening brackets than closing ones, unless it leaves errors behind.
A `loud` parser gives up only with an error. -/
structure Nets (loud : Bool) (w : Int) (p : Parse α) (s : ParseState) : Prop where
  leads : s.Leads (run p s).2
  error_of_none : loud = true → (run p s).1 = none → (run p s).2.errors ≠ []
  nets : s.EndsOnce → (run p s).2.errors = [] → w + (run p s).2.surplus = s.surplus

namespace Nets

variable {loud : Bool} {u v w : Int} {p : Parse α} {f : α → Parse β} {s t : ParseState}

theorem errors_eq_nil (hst : s.Leads t) (h : t.errors = []) : s.errors = [] :=
  List.suffix_nil.mp (h ▸ hst.errors)

theorem of_errors (hleads : s.Leads (run p s).2) (h : (run p s).2.errors ≠ []) : Nets loud w p s :=
  ⟨hleads, fun _ _ => h, fun _ hnil => absurd hnil h⟩

theorem quiet (h : Nets true w p s) : Nets loud w p s :=
  { h with error_of_none := fun _ => h.error_of_none rfl }

theorem pure {a : α} : Nets loud 0 (pure a : Parse α) s where
  leads := .refl s
  error_of_none _ h := by cases h
  nets _ _ := Int.zero_add _

theorem failure : Nets false 0 (failure : Parse α) s where
  leads := .refl s
  error_of_none h := by cases h
  nets _ _ := Int.zero_add _

/-- No token is moved over, but an error is on record. -/
theorem stuck {x : Option α} {cause : ParseCause} (hrun : run p s = (x, s.fail cause)) :
    Nets loud w p s := by
  refine of_errors ?_ ?_ <;> rw [hrun]
  · exact s.leads_fail cause
  · exact List.cons_ne_nil _ _

theorem giveUp (cause : ParseCause) : Nets loud w (giveUp cause : Parse α) s := stuck rfl

theorem giveUpExpected (what : Text) : Nets loud w (giveUpExpected what : Parse α) s := stuck rfl

theorem ite {c : Prop} [Decidable c] {q : Parse α} (hp : c → Nets loud w p s)
    (hq : ¬c → Nets loud w q s) : Nets loud w (if c then p else q) s := by
  split
  · exact hp ‹_›
  · exact hq ‹_›

theorem here (h : Nets loud w p s) {q : Parse α} (hq : run q s = run p s) : Nets loud w q s := by
  obtain ⟨hleads, hnone, hnets⟩ := h
  rw [← hq] at hleads hnone hnets
  exact ⟨hleads, hnone, hnets⟩

/-- What is moved over from an earlier state on. -/
theorem behind (h : Nets loud (w - v) p t) (hst : s.Leads t)
    (hv : s.EndsOnce → t.errors = [] → v + t.surplus = s.surplus) {q : Parse α}
    (hq : run q s = run p t) : Nets loud w q s where
  leads := by
    rw [hq]
    exact hst.trans h.leads
  error_of_none := by
    rw [hq]
    exact h.error_of_none
  nets hs herrors := by
    rw [hq] at herrors ⊢
    have hrest := h.nets (hst.ends hs) herrors
    have hfirst := hv hs (errors_eq_nil h.leads herrors)
    omega

theorem noticed (h : Nets false v p t) (hst : s.Leads t) (ht : t.errors ≠ []) {q : Parse α}
    (hq : run q s = run p t) : Nets loud w q s := by
  refine of_errors ?_ ?_ <;> rw [hq]
  · exact hst.trans h.leads
  · exact fun hnil => ht (errors_eq_nil h.leads hnil)

theorem bind (hp : Nets true v p s) (hf : ∀ a t, Nets loud (w - v) (f a) t) :
    Nets loud w (p >>= f) s := by
  cases hresult : (run p s).1 with
  | none =>
    have hrun : run (p >>= f) s = (none, (run p s).2) := Does.run_bind_none hresult
    refine of_errors ?_ ?_ <;> rw [hrun]
    · exact hp.leads
    · exact hp.error_of_none rfl hresult
  | some a => exact (hf a (run p s).2).behind hp.leads hp.nets (Does.run_bind_some hresult)

/-- A parser that may give up, and what follows in both cases. -/
theorem attempt_bind {f : Option α → Parse β} (hp : Nets false v p s)
    (hf : ∀ x t, Nets loud (w - v) (f x) t) : Nets loud w (attempt p >>= f) s :=
  (hf (run p s).1 (run p s).2).behind hp.leads hp.nets rfl

theorem attempted (hp : Nets false w p s) : Nets loud w (attempt p) s where
  leads := hp.leads
  error_of_none _ h := by cases h
  nets := hp.nets

/-- What follows an attempt that failed may give up, because the error is on record. -/
theorem attempt_reported {f : Option α → Parse β} (hp : Nets true v p s)
    (hsome : ∀ a t, Nets loud (w - v) (f (some a)) t) (hnone : ∀ t, Nets false u (f none) t) :
    Nets loud w (attempt p >>= f) s := by
  have hrun : run (attempt p >>= f) s = run (f (run p s).1) (run p s).2 := rfl
  cases hresult : (run p s).1 with
  | none =>
    rw [hresult] at hrun
    exact (hnone _).noticed hp.leads (hp.error_of_none rfl hresult) hrun
  | some a =>
    rw [hresult] at hrun
    exact (hsome a _).behind hp.leads hp.nets hrun

/-- A loop whose rounds move over as many opening brackets as closing ones does so, too. -/
theorem follow {p : Parse (Round α)} {next : α → Parse α} (hp : Nets true 0 p s)
    (hnext : ∀ x t, Nets true 0 (next x) t) : Nets true 0 (p >>= Round.follow next) s := by
  refine hp.bind fun round t => ?_
  cases round with
  | again x => exact hnext x t
  | leave x => exact .pure

section administration

theorem cur {f : Token → Parse β} (h : Nets loud w (f s.cur) s) : Nets loud w (cur >>= f) s :=
  h.here rfl

theorem kind {f : TokenKind → Parse β} (h : Nets loud w (f s.cur.kind) s) :
    Nets loud w (kind >>= f) s :=
  h.here rfl

theorem get {f : ParseState → Parse β} (h : Nets loud w (f s) s) : Nets loud w (get >>= f) s :=
  h.here rfl

theorem errorCount {f : Nat → Parse β} (h : Nets loud w (f s.errors.length) s) :
    Nets loud w (errorCount >>= f) s :=
  h.here rfl

theorem at? (k : TokenKind) {f : Bool → Parse β} (h : Nets loud w (f (s.at? k)) s) :
    Nets loud w (at? k >>= f) s :=
  h.here rfl

theorem complain (cause : ParseCause) {f : Unit → Parse β}
    (h : Nets false v (f ()) (s.fail cause)) : Nets loud w (complain cause >>= f) s :=
  h.noticed (s.leads_fail cause) (List.cons_ne_nil _ _) rfl

theorem advance {k : TokenKind} (hk : s.cur.kind = k) {f : Unit → Parse β}
    (h : ∀ t, Nets loud (w - k.surplus) (f ()) t) : Nets loud w (advance >>= f) s :=
  (h s.next).behind s.leads_next (fun hs _ => hk ▸ hs.surplus_next) rfl

theorem taken {k : TokenKind} (hat : s.at? k = true) {a : α} (hrun : run p s = (some a, s.next)) :
    Nets loud k.surplus p s := by
  have hstep : Nets loud k.surplus (Parse.advance >>= fun _ => Pure.pure a) s :=
    .advance (beq_iff_eq.mp hat) fun _ => by
      rw [Int.sub_self]
      exact .pure
  exact hstep.here hrun

end administration
end Nets

/-! ## Words and signs -/

section words

variable {loud : Bool} {v w : Int} {s : ParseState}

theorem nets_accept (k : TokenKind) : Nets true k.surplus (accept k) s := by
  have hrun := run_accept k s
  split at hrun
  · exact .taken ‹_› hrun
  · exact .stuck hrun

theorem nets_expect (k : TokenKind) : Nets true k.surplus (expect k) s := by
  have hrun : run (expect k) s =
      if s.at? k then (some (), s.next) else (none, s.fail (.expected k.name s.cur)) := by
    rw [expect, run_bind, run_accept]
    cases s.at? k <;> rfl
  split at hrun
  · exact .taken ‹_› hrun
  · exact .stuck hrun

theorem nets_ident (what : Text) : Nets true 0 (ident what) s :=
  .cur (.ite (fun h => .advance (beq_iff_eq.mp h) fun _ => .pure) fun _ => .giveUpExpected what)

theorem nets_fieldName (what : Text) {f : Text → Parse β}
    (h : ∀ name t, Nets loud w (f name) t) :
    Nets loud w (fieldName what >>= fun name => advance >>= fun _ => f name) s := by
  have hrun : run (fieldName what) s = if s.cur.kind == .ident || s.cur.kind.isWord then
      (some s.cur.literal, s) else run (giveUpExpected what) s := by
    change run (if _ then _ else _) s = _
    split <;> rfl
  split at hrun
  case isTrue hname =>
    have hkind : s.cur.kind.surplus = 0 := by
      obtain hident | hword := Bool.or_eq_true_iff.mp hname
      · rw [beq_iff_eq.mp hident]
        rfl
      · exact TokenKind.surplus_of_isWord hword
    refine Nets.here (.advance rfl fun t => ?_) (q := _) (by rw [run_bind, hrun])
    rw [hkind, Int.sub_zero]
    exact h s.cur.literal t
  case isFalse =>
    refine (Nets.giveUpExpected what).here ?_
    rw [run_bind, hrun]
    rfl

theorem nets_orGiveUp (cause : ParseCause) (x : Option α) : Nets true 0 (orGiveUp cause x) s := by
  cases x with
  | none => exact .giveUp cause
  | some a => exact .pure

theorem nets_skip {k : TokenKind} (hk : k.surplus = 0) : Nets true 0 (skip? k) s := by
  refine .at? k (.ite (fun hat => ?_) fun _ => .pure)
  rw [← hk]
  exact .taken hat rfl

end words

/-! ## Expressions -/

/-- How many more opening brackets than closing ones the parsers of expressions move over. -/
structure ExprParsersNet (n : Nat) : Prop where
  expression : ∀ s, Nets true 0 (expression n) s
  ternary : ∀ s, Nets true 0 (ternary n) s
  binary : ∀ level s, Nets true 0 (binary n level) s
  binaryTail : ∀ level left s, Nets true 0 (binaryTail n level left) s
  unary : ∀ s, Nets true 0 (unary n) s
  postfixTail : ∀ x s, Nets true 0 (postfixTail n x) s
  bracketed : ∀ s : ParseState, s.cur.kind = .lbracket → Nets true 0 (bracketed n) s
  indexTail : ∀ x s, Nets true 0 (indexTail n x) s
  arguments : ∀ s : ParseState, s.cur.kind = .lparen → Nets true 0 (arguments n) s
  argumentTail : ∀ seen s, Nets true (-1) (argumentTail n seen) s
  primary : ∀ s, Nets true 0 (primary n) s
  wordOrCall : ∀ t s, Nets true 0 (wordOrCall n t) s
  objectDecl : ∀ pos datablock s, Nets true 0 (objectDecl n pos datablock) s
  extraArguments : ∀ seen s, Nets true 0 (extraArguments n seen) s
  objectBody : ∀ fields children s, Nets true 0 (objectBody n fields children) s
  fieldInit : ∀ s, Nets true 0 (fieldInit n) s

theorem nets_objectSource {s : ParseState} : Nets true 0 objectSource s :=
  .at? .colon (.ite (fun hat => .advance (beq_iff_eq.mp hat) fun _ =>
    (nets_ident _).bind fun _ _ => .pure) fun _ => .pure)

section step

variable {n : Nat} (ih : ExprParsersNet n) (s : ParseState)
include ih

private theorem expression_nets : Nets true 0 (expression (n + 1)) s := by
  rw [expression]
  refine (ih.ternary s).bind fun left t => ?_
  have hassign (op : TokenKind) (hop : op.surplus = 0) (hcur : t.cur.kind = op)
      (make : Expr → Option Expr) : Nets true 0 (advance >>= fun _ =>
        expression n >>= fun value => orGiveUp .assignTarget (make value)) t := by
    refine .advance hcur fun u => ?_
    rw [hop]
    exact (ih.expression u).bind fun value v => nets_orGiveUp _ _
  refine .cur (.ite (fun hat => ?_) fun _ => ?_)
  · exact hassign .assign rfl (beq_iff_eq.mp hat) _
  · cases hop : t.cur.kind.updateOp? with
    | some op => exact hassign _ (TokenKind.surplus_of_updateOp? hop) rfl _
    | none => exact .pure

private theorem ternary_nets : Nets true 0 (ternary (n + 1)) s := by
  rw [ternary]
  refine (ih.binary 0 s).bind fun test t => ?_
  refine .cur (.ite (fun hat => ?_) fun _ => .pure)
  refine .advance (beq_iff_eq.mp hat) fun u => (ih.expression u).bind fun whenTrue v => ?_
  exact (nets_expect .colon).bind fun _ w => (ih.ternary w).bind fun _ _ => .pure

private theorem binaryTail_nets (level : Nat) (left : Expr) :
    Nets true 0 (binaryTail (n + 1) level left) s := by
  rw [binaryTail]
  refine .cur ?_
  cases hp : s.cur.kind.precedence? with
  | none => exact .pure
  | some p =>
    refine .ite (fun _ => .pure) fun _ => .advance rfl fun t => ?_
    rw [TokenKind.surplus_of_precedence? hp]
    exact (ih.binary p t).bind fun right u => ih.binaryTail level _ u

private theorem unary_nets : Nets true 0 (unary (n + 1)) s := by
  rw [unary]
  have hsign (k : TokenKind) (hk : s.cur.kind = k) (hzero : k.surplus = 0) (f : Expr → Expr) :
      Nets true 0 (advance >>= fun _ => unary n >>= fun x => pure (f x)) s := by
    refine .advance hk fun t => ?_
    rw [hzero]
    exact (ih.unary t).bind fun _ _ => .pure
  refine .cur ?_
  cases hk : s.cur.kind with
  | minus => exact hsign _ hk rfl _
  | bang => exact hsign _ hk rfl _
  | tilde => exact hsign _ hk rfl _
  | _ => exact (ih.primary s).bind fun x t => ih.postfixTail x t

private theorem postfixTail_nets (x : Expr) : Nets true 0 (postfixTail (n + 1) x) s := by
  rw [postfixTail]
  have hstep (k : TokenKind) (hk : s.cur.kind = k) (hzero : k.surplus = 0) (y : Option Expr) :
      Nets true 0 (advance >>= fun _ => orGiveUp .assignTarget y >>= postfixTail n) s := by
    refine .advance hk fun t => ?_
    rw [hzero]
    exact (nets_orGiveUp _ _).bind fun y u => ih.postfixTail y u
  refine .cur ?_
  cases hk : s.cur.kind with
  | dot =>
    refine .advance hk fun t => nets_fieldName _ fun name u => ?_
    refine .at? .lparen (.ite (fun hat => ?_) fun _ => ih.postfixTail _ u)
    exact (ih.arguments u (beq_iff_eq.mp hat)).bind fun args v => ih.postfixTail _ v
  | lbracket =>
    refine (ih.bracketed s hk).bind fun index t => ?_
    cases Expr.withIndex x index with
    | ok y => exact ih.postfixTail y t
    | error cause => exact .giveUp cause
  | plusPlus => exact hstep _ hk rfl _
  | minusMinus => exact hstep _ hk rfl _
  | _ => exact .pure

private theorem bracketed_nets (hk : s.cur.kind = .lbracket) :
    Nets true 0 (bracketed (n + 1)) s := by
  rw [bracketed]
  refine .advance hk fun t => (ih.expression t).bind fun first u => ?_
  exact (ih.indexTail first u).bind fun index v => (nets_expect .rbracket).bind fun _ _ => .pure

private theorem indexTail_nets (index : Expr) : Nets true 0 (indexTail (n + 1) index) s := by
  rw [indexTail]
  refine .cur (.ite (fun hat => ?_) fun _ => .pure)
  refine .advance (beq_iff_eq.mp hat) fun t => (ih.expression t).bind fun next u => ?_
  exact ih.indexTail _ u

private theorem arguments_nets (hk : s.cur.kind = .lparen) :
    Nets true 0 (arguments (n + 1)) s := by
  rw [arguments]
  exact .advance hk fun t => ih.argumentTail [] t

private theorem argumentTail_nets (seen : List Expr) :
    Nets true (-1) (argumentTail (n + 1) seen) s := by
  rw [argumentTail]
  refine .at? .rparen (.ite (fun hat => .advance (beq_iff_eq.mp hat) fun _ => .pure) fun _ => ?_)
  refine (ih.expression s).bind fun a t => ?_
  extract_lets
  refine .at? .comma (.ite (fun hat => ?_) fun _ => ?_)
  · exact .advance (beq_iff_eq.mp hat) fun u => ih.argumentTail _ u
  · exact .at? .rparen (.ite (fun _ => .giveUpExpected _) fun _ => ih.argumentTail _ t)

private theorem primary_nets : Nets true 0 (primary (n + 1)) s := by
  rw [primary]
  refine .cur ?_
  cases hk : s.cur.kind with
  | integer => exact .advance hk fun _ => .pure
  | float =>
    refine .advance hk fun t => ?_
    split
    · exact .pure
    · exact .giveUp _
  | string => exact .advance hk fun _ => .pure
  | tagString => exact .advance hk fun _ => .pure
  | kwTrue => exact .advance hk fun _ => .pure
  | kwFalse => exact .advance hk fun _ => .pure
  | localVar => exact .advance hk fun _ => .pure
  | globalVar => exact .advance hk fun _ => .pure
  | ident => exact .advance hk fun t => ih.wordOrCall _ t
  | lparen =>
    refine .advance hk fun t => (ih.expression t).bind fun x u => ?_
    exact (nets_expect .rparen).bind fun _ _ => .pure
  | kwNew => exact .advance hk fun t => (ih.objectDecl _ _ t).bind fun _ _ => .pure
  | kwDatablock => exact .advance hk fun t => (ih.objectDecl _ _ t).bind fun _ _ => .pure
  | _ => exact .giveUp _

private theorem wordOrCall_nets (t : Token) : Nets true 0 (wordOrCall (n + 1) t) s := by
  rw [wordOrCall]
  have hcall (u : ParseState) (hat : u.at? .lparen = true) (f : List Expr → Expr) :
      Nets true 0 (arguments n >>= fun args => pure (f args)) u :=
    (ih.arguments u (beq_iff_eq.mp hat)).bind fun _ _ => .pure
  refine .at? .colonColon (.ite (fun hat => .advance (beq_iff_eq.mp hat) fun u => ?_) fun _ => ?_)
  · refine (nets_ident _).bind fun name v => ?_
    extract_lets
    exact .at? .lparen (.ite (fun hat => hcall v hat _) fun _ => .giveUp _)
  · exact .at? .lparen (.ite (fun hat => hcall s hat _) fun _ => .pure)

private theorem objectClass_nets : Nets true 0 (objectClass n) s := by
  refine .cur ?_
  cases hk : s.cur.kind with
  | ident => exact .advance hk fun _ => .pure
  | lparen =>
    refine .advance hk fun t => (ih.expression t).bind fun x u => ?_
    exact (nets_expect .rparen).bind fun _ _ => .pure
  | _ => exact .giveUpExpected _

private theorem objectName_nets : Nets true 0 (objectName n) s :=
  .cur (.ite (fun _ => .pure) fun _ => ih.ternary s)

private theorem objectBraces_nets : Nets true 0 (objectBraces n) s := by
  refine .at? .lbrace (.ite (fun hat => ?_) fun _ => .pure)
  refine .advance (beq_iff_eq.mp hat) fun t => (ih.objectBody [] [] t).bind fun body u => ?_
  exact (nets_expect .rbrace).bind fun _ _ => .pure

private theorem objectDecl_nets (pos : Position) (datablock : Bool) :
    Nets true 0 (objectDecl (n + 1) pos datablock) s := by
  rw [objectDecl_succ]
  refine (objectClass_nets ih s).bind fun className t => (nets_expect .lparen).bind fun _ u => ?_
  refine (objectName_nets ih u).bind fun name v => nets_objectSource.bind fun copyFrom w => ?_
  refine (ih.extraArguments [] w).bind fun args x => (nets_expect .rparen).bind fun _ y => ?_
  exact (objectBraces_nets ih y).bind fun _ _ => .pure

private theorem extraArguments_nets (seen : List Expr) :
    Nets true 0 (extraArguments (n + 1) seen) s := by
  rw [extraArguments]
  refine .at? .comma (.ite (fun hat => ?_) fun _ => .pure)
  refine .advance (beq_iff_eq.mp hat) fun t => (ih.expression t).bind fun a u => ?_
  exact ih.extraArguments _ u

private theorem objectBody_nets (fields : List FieldInit) (children : List ObjectDecl) :
    Nets true 0 (objectBody (n + 1) fields children) s := by
  rw [objectBody]
  refine .cur (.ite (fun _ => .pure) fun _ => .get (.ite (fun hinner => ?_) fun _ => ?_))
  · have hzero : s.cur.kind.surplus = 0 := by
      obtain hnew | hdatablock := Bool.or_eq_true_iff.mp hinner
      · rw [beq_iff_eq.mp hnew]
        rfl
      · rw [beq_iff_eq.mp (Bool.and_eq_true_iff.mp hdatablock).1]
        rfl
    refine .advance rfl fun t => ?_
    rw [hzero]
    refine (ih.objectDecl _ _ t).bind fun child u => (nets_expect .semicolon).bind fun _ v => ?_
    exact ih.objectBody _ _ v
  · exact (ih.fieldInit s).bind fun f t => ih.objectBody _ _ t

private theorem fieldInit_nets : Nets true 0 (fieldInit (n + 1)) s := by
  rw [fieldInit]
  have hvalue (t : ParseState) (f : Expr → FieldInit) :
      Nets true 0 (expect .assign >>= fun _ => expression n >>= fun value =>
        expect .semicolon >>= fun _ => pure (f value)) t :=
    (nets_expect .assign).bind fun _ u => (ih.expression u).bind fun value v =>
      (nets_expect .semicolon).bind fun _ _ => .pure
  refine .cur (nets_fieldName _ fun name t => ?_)
  extract_lets
  refine .at? .lbracket (.ite (fun hat => ?_) fun _ => hvalue t _)
  rw [map_eq_pure_bind, bind_assoc]
  refine (ih.bracketed t (beq_iff_eq.mp hat)).bind fun index u => ?_
  rw [pure_bind]
  exact hvalue u _

end step

theorem expr_parsers_net (n : Nat) : ExprParsersNet n := by
  induction n with
  | zero => constructor <;> intros <;> exact .giveUp _
  | succ n ih =>
    exact {
      expression := expression_nets ih
      ternary := ternary_nets ih
      binary := fun level s => (ih.unary s).bind fun left t => ih.binaryTail level left t
      binaryTail := fun level left s => binaryTail_nets ih s level left
      unary := unary_nets ih
      postfixTail := fun x s => postfixTail_nets ih s x
      bracketed := bracketed_nets ih
      indexTail := fun x s => indexTail_nets ih s x
      arguments := arguments_nets ih
      argumentTail := fun seen s => argumentTail_nets ih s seen
      primary := primary_nets ih
      wordOrCall := fun t s => wordOrCall_nets ih s t
      objectDecl := fun pos datablock s => objectDecl_nets ih s pos datablock
      extraArguments := fun seen s => extraArguments_nets ih s seen
      objectBody := fun fields children s => objectBody_nets ih s fields children
      fieldInit := fieldInit_nets ih }

/-! ## Statements -/

/-- How many more opening brackets than closing ones the parsers of statements move over. -/
structure StmtParsersNet (n : Nat) : Prop where
  statement : ∀ s, Nets false 0 (statement n) s
  function : ∀ pos package s, Nets true 0 (function n pos package) s
  branch : ∀ pos s, Nets true 0 (branch n pos) s
  forLoop : ∀ pos s, Nets false 0 (forLoop n pos) s
  switch : ∀ pos textual s, Nets false 0 (switch n pos textual) s
  switchCases : ∀ seen default? s, Nets true 0 (switchCases n seen default?) s
  caseBody : ∀ seen s, Nets true 0 (caseBody n seen) s
  body : ∀ s, Nets true 0 (body n) s
  block : ∀ s : ParseState, s.cur.kind = .lbrace → Nets true 0 (block n) s
  blockTail : ∀ seen s, Nets true 0 (blockTail n seen) s

theorem condition_nets (n : Nat) (s : ParseState) : Nets true 0 (condition n) s := by
  refine (nets_expect .lparen).bind fun _ t => ?_
  refine ((expr_parsers_net n).expression t).attempt_reported (u := -1) (fun x u => ?_) fun u => ?_
  · exact (nets_accept .rparen).bind fun _ _ => .pure
  · exact (nets_accept .rparen).quiet.bind fun _ _ => .failure

theorem expressionBefore_nets (n : Nat) (closing : TokenKind) (s : ParseState) :
    Nets true 0 (expressionBefore n closing) s :=
  .at? closing (.ite (fun _ => .pure) fun _ => ((expr_parsers_net n).expression s).quiet.attempted)

theorem forTest_nets (n : Nat) (s : ParseState) : Nets true 0 (forTest n) s :=
  .cur (.ite (fun _ => .pure) fun _ => ((expr_parsers_net n).expression s).quiet.attempted)

theorem nets_functionName {s : ParseState} : Nets true 0 functionName s := by
  refine (nets_ident _).bind fun first t => .at? .colonColon (.ite (fun hat => ?_) fun _ => .pure)
  exact .advance (beq_iff_eq.mp hat) fun u => (nets_ident _).bind fun _ _ => .pure

theorem nets_recoverBeyond (before : Nat) {s : ParseState} :
    Nets true 0 (recoverBeyond before) s where
  leads := by
    rw [run_recoverBeyond]
    split
    · exact s.leads_recover
    · exact .refl s
  error_of_none _ h := by
    rw [run_recoverBeyond] at h
    cases h
  nets _ herrors := by
    rw [run_recoverBeyond] at herrors ⊢
    split at herrors
    case isTrue hlt =>
      rw [Nets.errors_eq_nil s.leads_recover herrors] at hlt
      cases hlt
    case isFalse hle =>
      rw [if_neg hle, Int.zero_add]

theorem parameters_net (n : Nat) (seen : List Text) (s : ParseState) :
    Nets true (-1) (parameters n seen) s := by
  induction n generalizing seen s with
  | zero => exact .giveUp _
  | succ n ih =>
    rw [parameters]
    refine .at? .rparen (.ite (fun hat => .advance (beq_iff_eq.mp hat) fun _ => .pure) fun _ => ?_)
    refine .cur ?_
    extract_lets
    refine .ite (fun hk => .advance (beq_iff_eq.mp hk) fun t => ?_) fun _ => .giveUpExpected _
    extract_lets
    refine .at? .comma (.ite (fun hat => .advance (beq_iff_eq.mp hat) fun u => ih _ u) fun _ => ?_)
    exact .at? .rparen (.ite (fun _ => .giveUpExpected _) fun _ => ih _ t)

theorem caseValues_net (n : Nat) (seen : List Expr) (s : ParseState) :
    Nets true 0 (caseValues n seen) s := by
  induction n generalizing seen s with
  | zero => exact .giveUp _
  | succ n ih =>
    rw [caseValues]
    refine ((expr_parsers_net n).ternary s).bind fun v t => ?_
    exact .at? .kwOr (.ite (fun hat => .advance (beq_iff_eq.mp hat) fun u => ih _ u) fun _ => .pure)

section step

variable {n : Nat} (ih : StmtParsersNet n) (s : ParseState)
include ih

private theorem statement_nets : Nets false 0 (statement (n + 1)) s := by
  rw [statement]
  have hclosed {loud : Bool} (stmt : Stmt) (t : ParseState) :
      Nets loud 0 (accept .semicolon >>= fun _ => pure stmt) t :=
    (nets_accept .semicolon).bind fun _ _ => .pure
  refine .cur ?_
  cases hk : s.cur.kind with
  | kwFunction => exact .advance hk fun t => (ih.function _ _ t).quiet
  | kwIf => exact .advance hk fun t => (ih.branch _ t).quiet
  | kwWhile =>
    refine .advance hk fun t => (condition_nets n t).bind fun test u => ?_
    exact (ih.body u).bind fun _ _ => .pure
  | kwFor => exact .advance hk fun t => ih.forLoop _ t
  | kwDo =>
    refine .advance hk fun t => (ih.body t).bind fun body u => ?_
    refine (nets_expect .kwWhile).bind fun _ v => (condition_nets n v).bind fun test w => ?_
    exact hclosed _ w
  | kwSwitch => exact .advance hk fun t => ih.switch _ _ t
  | kwSwitchStr => exact .advance hk fun t => ih.switch _ _ t
  | kwBreak => exact .advance hk fun t => hclosed _ t
  | kwContinue => exact .advance hk fun t => hclosed _ t
  | kwReturn =>
    refine .advance hk fun t => .at? .semicolon (.ite (fun _ => hclosed _ t) fun _ => ?_)
    exact ((expr_parsers_net n).expression t).quiet.attempt_bind fun _ u => hclosed _ u
  | kwPackage => exact .giveUp _
  | semicolon => exact .advance hk fun _ => .failure
  | _ => exact ((expr_parsers_net n).expression s).bind fun x t => hclosed _ t

private theorem function_nets (pos : Position) (package : Option Text) :
    Nets true 0 (function (n + 1) pos package) s := by
  rw [function_succ]
  refine nets_functionName.bind fun name t => (nets_expect .lparen).bind fun _ u => ?_
  refine (parameters_net n [] u).bind fun params v => ?_
  extract_lets
  refine .at? .lbrace (.ite (fun hat => ?_) fun _ => .giveUpExpected _)
  exact (ih.block v (beq_iff_eq.mp hat)).bind fun _ _ => .pure

private theorem branch_nets (pos : Position) : Nets true 0 (branch (n + 1) pos) s := by
  rw [branch]
  refine (condition_nets n s).bind fun test t => (ih.body t).bind fun whenTrue u => ?_
  refine .at? .kwElse (.ite (fun hat => ?_) fun _ => .pure)
  exact .advance (beq_iff_eq.mp hat) fun v => (ih.body v).bind fun _ _ => .pure

private theorem forLoop_nets (pos : Position) : Nets false 0 (forLoop (n + 1) pos) s := by
  rw [forLoop_succ]
  refine (nets_expect .lparen).bind fun _ s₁ => ?_
  refine (expressionBefore_nets n _ s₁).bind fun start s₂ => ?_
  refine (nets_accept .semicolon).bind fun _ s₃ => (forTest_nets n s₃).bind fun test s₄ => ?_
  refine (nets_accept .semicolon).bind fun _ s₅ => ?_
  refine (expressionBefore_nets n _ s₅).bind fun next s₆ => ?_
  refine (nets_expect .rparen).bind fun _ s₇ => ?_
  cases test with
  | none => exact .failure
  | some test => exact (ih.body s₇).bind fun _ _ => .pure

private theorem switch_nets (pos : Position) (textual : Bool) :
    Nets false 0 (switch (n + 1) pos textual) s := by
  rw [switch]
  refine (condition_nets n s).bind fun subject t => (nets_expect .lbrace).bind fun _ u => ?_
  refine (ih.switchCases [] none u).bind fun found v => (nets_accept .rbrace).bind fun _ w => ?_
  cases Stmt.ofSwitch? pos textual subject found.1 found.2 with
  | none => exact .failure
  | some stmt => exact .pure

private theorem switchCases_nets (seen : List SwitchCase) (default? : Option (List Stmt)) :
    Nets true 0 (switchCases (n + 1) seen default?) s := by
  rw [switchCases]
  have hbody (t : ParseState) (f : List Stmt → List SwitchCase × Option (List Stmt)) :
      Nets true 0 (expect .colon >>= fun _ => caseBody n [] >>= fun body =>
        switchCases n (f body).1 (f body).2) t :=
    (nets_expect .colon).bind fun _ u => (ih.caseBody [] u).bind fun _ v => ih.switchCases _ _ v
  refine .cur ?_
  cases hk : s.cur.kind with
  | rbrace => exact .pure
  | eof => exact .pure
  | kwCase =>
    refine .advance hk fun t => (caseValues_net n [] t).bind fun values u => ?_
    exact hbody u fun body => (⟨s.cur.pos, values, body⟩ :: seen, default?)
  | kwDefault => exact .advance hk fun t => hbody t fun body => (seen, some body)
  | _ => exact .giveUpExpected _

private theorem caseBody_nets (seen : List Stmt) : Nets true 0 (caseBody (n + 1) seen) s := by
  rw [caseBody]
  refine .kind (.ite (fun _ => .pure) fun _ => .errorCount ?_)
  refine (ih.statement s).attempt_bind fun x t => .errorCount (.ite (fun _ => .pure) fun _ => ?_)
  exact ih.caseBody _ t

private theorem body_nets : Nets true 0 (body (n + 1)) s := by
  rw [body]
  refine .at? .lbrace (.ite (fun hat => ih.block s (beq_iff_eq.mp hat)) fun _ => ?_)
  exact (ih.statement s).attempt_bind fun _ _ => .pure

private theorem block_nets (hk : s.cur.kind = .lbrace) : Nets true 0 (block (n + 1)) s := by
  rw [block]
  refine .advance hk fun t => (ih.blockTail [] t).bind fun stmts u => ?_
  exact (nets_accept .rbrace).bind fun _ _ => .pure

private theorem blockTail_nets (seen : List Stmt) : Nets true 0 (blockTail (n + 1) seen) s := by
  rw [blockTail_succ]
  refine Nets.follow (.kind (.ite (fun _ => .pure) fun _ => .errorCount ?_)) ih.blockTail
  exact (ih.statement s).attempt_bind fun x t => (nets_recoverBeyond _).bind fun _ _ => .pure

end step

theorem stmt_parsers_net (n : Nat) : StmtParsersNet n := by
  induction n with
  | zero => constructor <;> intros <;> exact .giveUp _
  | succ n ih =>
    exact {
      statement := statement_nets ih
      function := fun pos package s => function_nets ih s pos package
      branch := fun pos s => branch_nets ih s pos
      forLoop := fun pos s => forLoop_nets ih s pos
      switch := fun pos textual s => switch_nets ih s pos textual
      switchCases := fun seen default? s => switchCases_nets ih s seen default?
      caseBody := fun seen s => caseBody_nets ih s seen
      body := body_nets ih
      block := block_nets ih
      blockTail := fun seen s => blockTail_nets ih s seen }

/-! ## Packages and whole sources -/

/-- A package is left without its closing brace only behind an error. -/
theorem packageTail_nets (n : Nat) (name : Text) (seen : List Stmt) (s : ParseState) :
    Nets true (-1) (packageTail n name seen) s := by
  induction n generalizing seen s with
  | zero => exact .giveUp _
  | succ n ih =>
    rw [packageTail]
    refine .cur (.ite (fun _ => ?_) fun _ => .ite (fun hk => ?_) fun _ => ?_)
    · exact (nets_accept .rbrace).bind fun _ _ => (nets_skip rfl).bind fun _ _ => .pure
    · refine .advance (beq_iff_eq.mp hk) fun t => ?_
      exact ((stmt_parsers_net n).function _ _ t).attempt_reported (fun f u => ih _ u)
        fun _ => .pure
    · exact .complain _ .pure

theorem package_nets (n : Nat) (s : ParseState) : Nets true 0 (package n) s :=
  (nets_ident _).bind fun name _ => (nets_expect .lbrace).bind fun _ t =>
    packageTail_nets n name [] t

theorem programPart_nets (n : Nat) (s : ParseState) :
    Nets true 0 (programPart n s.cur.kind) s := by
  unfold programPart
  refine .ite (fun hk => ?_) fun _ => .ite (fun hk => ?_) fun _ => ?_
  · refine .advance (beq_iff_eq.mp hk) fun t => ?_
    exact (package_nets n t).quiet.attempt_bind fun _ _ => .pure
  · exact .complain (v := -1) .strayBrace
      (.advance (s := s.fail .strayBrace) (k := .rbrace) (beq_iff_eq.mp hk) fun _ => .pure)
  · exact ((stmt_parsers_net n).statement s).attempt_bind fun _ _ => .pure

theorem programTail_nets (n : Nat) (seen : List Stmt) (s : ParseState) :
    Nets true 0 (programTail n seen) s := by
  induction n generalizing seen s with
  | zero => exact .giveUp _
  | succ n ih =>
    rw [programTail_succ]
    refine Nets.follow (.kind (.ite (fun _ => .pure) fun _ => .errorCount ?_)) ih
    exact (programPart_nets n s).bind fun more t => (nets_recoverBeyond _).bind fun _ _ => .pure

end Parse

theorem Upcoming.ofTokens_token {ts : List Token} (h : ∀ t ∈ ts, t.kind ≠ .error) :
    (ofTokens ts).map (·.token) = ts := by
  induction ts with
  | nil => rfl
  | cons t ts ih =>
    obtain ⟨ht, hts⟩ := List.forall_mem_cons.mp h
    rw [ofTokens.eq_def]
    simp only [beq_eq_false_iff_ne.mpr ht, Bool.false_eq_true, if_false, List.map_cons, ih hts]

namespace ParseState

theorem EndsOnce.surplus_eq_zero {s : ParseState} (h : s.EndsOnce) (hkind : s.cur.kind = .eof) :
    s.surplus = 0 := by
  rw [surplus, h.rest_eq_nil hkind, hkind]
  rfl

theorem surplus_start {source : Text} (h : ∀ t ∈ Token.all source, t.kind ≠ .error) :
    (start source).surplus = ((Token.all source).map (·.kind.surplus)).sum := by
  have htokens := Upcoming.ofTokens_token h
  rw [start]
  cases hupcoming : Upcoming.ofTokens (Token.all source) with
  | nil =>
    rw [hupcoming] at htokens
    rw [← htokens]
    rfl
  | cons u us =>
    rw [hupcoming] at htokens
    rw [← htokens, List.map_map]
    rfl

end ParseState

/-- A source that parses has no error tokens, and as many opening brackets as closing ones. -/
theorem parseProgram_balanced {source : Text} (h : (parseProgram source).2 = []) :
    (∀ t ∈ Token.all source, t.kind ≠ .error) ∧
      ((Token.all source).map (·.kind.surplus)).sum = 0 := by
  obtain ⟨stmts, t, hrun, heof, hleads, -⟩ := ParseState.programTail_start source
  have hstart := (ParseState.start_eq source).2
  have hrun := hrun _ (Nat.le_refl _)
  have hparse : parseProgram source = (stmts, t.report) := by
    rw [parseProgram, hrun]
    rfl
  have herrors : t.errors = [] := by
    rw [hparse] at h
    exact List.reverse_eq_nil_iff.mp h
  have hlexical : ∀ u ∈ Token.all source, u.kind ≠ .error := by
    intro u hu herror
    have hends := Cursor.tokens_endOnce (Cursor.start source)
    obtain ⟨e, he⟩ := List.exists_mem_of_ne_nil _ (Upcoming.ofTokens_note hends hu herror)
    obtain hpending | hearly := ParseState.start_notes source e he
    · obtain hpending | hlate := hleads.notes e hpending
      · simp [ParseState.pending, (hleads.ends hstart).rest_eq_nil heof] at hpending
      · exact List.ne_nil_of_mem hlate herrors
    · exact List.ne_nil_of_mem hearly (Parse.Nets.errors_eq_nil hleads herrors)
  have hnets := Parse.programTail_nets (ParseState.start source).depth [] (.start source)
  have hsurplus := hnets.nets hstart
  rw [hrun] at hsurplus
  have hsurplus := hsurplus herrors
  rw [(hleads.ends hstart).surplus_eq_zero heof, ParseState.surplus_start hlexical] at hsurplus
  exact ⟨hlexical, hsurplus.symm⟩

end ConsoleScript
