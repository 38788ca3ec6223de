import ConsoleScript.Proofs.Source.Spelling

/-!
# What the parsers give

A parser that gives up has recorded an error; only a statement may be dropped in silence, because
it is empty. What a parser builds is spelled. Both facts travel through the grammar together, as
the outcome that `Parse.Yields` promises of a parser.
-/

namespace ConsoleScript

namespace Parse

variable {α β : Type} {num : Int → Prop}

theorem run_bind (p : Parse α) (f : α → Parse β) (s : ParseState) :
    run (p >>= f) s = match run p s with
      | (some a, t) => run (f a) t
      | (none, t) => (none, t) := by
  change StateT.run (OptionT.run (p >>= f)) s = _
  simp only [OptionT.run_bind, Option.elimM, StateT.run_bind]
  rcases h : run p s with ⟨_ | a, t⟩
  · rw [show StateT.run (OptionT.run p) s = (none, t) from h]
    rfl
  · rw [show StateT.run (OptionT.run p) s = (some a, t) from h]
    rfl

/-- What a parser may do from a state whose tokens fit: they still fit, errors are only added, a result
is good, and a `loud` parser gives up only with a new error. -/
structure Outcome (num : Int → Prop) (loud : Bool) (good : α → Prop) (s : ParseState)
    (r : Option α × ParseState) : Prop where
  fits : r.2.Fits num
  errors_le : s.errors.length ≤ r.2.errors.length
  good_of_some : ∀ a, r.1 = some a → good a
  error_of_none : r.1 = none → loud = true → s.errors.length < r.2.errors.length

def Yields (num : Int → Prop) (loud : Bool) (good : α → Prop) (p : Parse α) : Prop :=
  ∀ s : ParseState, s.Fits num → Outcome num loud good s (p.run s)

namespace Yields

variable {loud : Bool} {good : α → Prop} {p q : Parse α}

theorem pure {a : α} (h : good a) : Yields num loud good (pure a : Parse α) := by
  intro s hs
  refine ⟨hs, Nat.le_refl _, ?_, ?_⟩
  · rintro b ⟨⟩
    exact h
  · rintro ⟨⟩

theorem bind {next : β → Prop} {f : α → Parse β} (hp : Yields num loud good p)
    (hf : ∀ a, good a → Yields num loud next (f a)) : Yields num loud next (p >>= f) := by
  intro s hs
  have first := hp s hs
  rw [run_bind]
  rcases h : run p s with ⟨_ | a, t⟩
  · rw [h] at first
    exact ⟨first.fits, first.errors_le, by rintro b ⟨⟩, fun _ => first.error_of_none rfl⟩
  · rw [h] at first
    have second := hf a (first.good_of_some a rfl) t first.fits
    have step : s.errors.length ≤ t.errors.length := first.errors_le
    exact ⟨second.fits, Nat.le_trans step second.errors_le, second.good_of_some,
      fun hn hl => Nat.lt_of_le_of_lt step (second.error_of_none hn hl)⟩

theorem ite {c : Prop} [Decidable c] (hp : c → Yields num loud good p) (hq : ¬c → Yields num loud good q) :
    Yields num loud good (if c then p else q) := by
  split
  · exact hp ‹_›
  · exact hq ‹_›

/-- A loud parser may stand where silence is allowed. -/
theorem quiet (hp : Yields num true good p) : Yields num loud good p := by
  intro s hs
  have first := hp s hs
  exact ⟨first.fits, first.errors_le, first.good_of_some,
    fun hn _ => first.error_of_none hn rfl⟩

theorem attempt (hp : Yields num loud good p) :
    Yields num true (fun x => ∀ a, x = some a → good a) (attempt p) := by
  intro s hs
  have first := hp s hs
  refine ⟨first.fits, first.errors_le, ?_, ?_⟩
  · rintro x ⟨⟩
    exact first.good_of_some
  · rintro ⟨⟩

/-- When an attempt fails its error is on record, so what follows may fail in silence. -/
theorem attempt_bind {next : β → Prop} {f : Option α → Parse β} (hp : Yields num true good p)
    (hsome : ∀ a, good a → Yields num loud next (f (some a))) (hnone : Yields num false next (f none)) :
    Yields num loud next (Parse.attempt p >>= f) := by
  intro s hs
  have first := hp s hs
  rw [run_bind]
  change Outcome num loud next s (run (f (run p s).1) (run p s).2)
  rcases h : run p s with ⟨_ | a, t⟩
  · rw [h] at first
    have second := hnone t first.fits
    have grown : s.errors.length < t.errors.length := first.error_of_none rfl rfl
    have kept : s.errors.length < (run (f none) t).2.errors.length :=
      Nat.lt_of_lt_of_le grown second.errors_le
    exact ⟨second.fits, Nat.le_of_lt kept, second.good_of_some, fun _ _ => kept⟩
  · rw [h] at first
    have second := hsome a (first.good_of_some a rfl) t first.fits
    have step : s.errors.length ≤ t.errors.length := first.errors_le
    exact ⟨second.fits, Nat.le_trans step second.errors_le, second.good_of_some,
      fun hn hl => Nat.lt_of_le_of_lt step (second.error_of_none hn hl)⟩

theorem map {next : β → Prop} {f : α → β} (hp : Yields num loud good p)
    (hf : ∀ a, good a → next (f a)) : Yields num loud next (f <$> p) := by
  rw [map_eq_pure_bind]
  exact hp.bind fun a ha => .pure (hf a ha)

theorem failure : Yields num false good (failure : Parse α) := by
  intro s hs
  exact ⟨hs, Nat.le_refl _, by rintro a ⟨⟩, by rintro _ ⟨⟩⟩

end Yields

/-! ## Moving over tokens -/

theorem yields_cur : Yields num true (Token.Fits num) cur := by
  intro s hs
  refine ⟨hs, Nat.le_refl _, ?_, ?_⟩
  · rintro t ⟨⟩
    exact hs.1
  · rintro ⟨⟩

theorem yields_get : Yields num true (fun _ => True) (get : Parse ParseState) := by
  intro s hs
  exact ⟨hs, Nat.le_refl _, fun _ _ => trivial, by rintro ⟨⟩⟩

theorem yields_kind : Yields num true (fun _ => True) kind := yields_get.bind fun _ _ => .pure trivial

theorem yields_at (k : TokenKind) : Yields num true (fun _ => True) (at? k) :=
  yields_get.bind fun _ _ => .pure trivial

theorem yields_errorCount : Yields num true (fun _ => True) errorCount :=
  yields_get.bind fun _ _ => .pure trivial

theorem yields_advance : Yields num true (fun _ => True) advance := by
  intro s hs
  exact ⟨s.next_fits hs, s.errors_next, fun _ _ => trivial, by rintro ⟨⟩⟩

theorem yields_recover : Yields num true (fun _ => True) (modify ParseState.recover : Parse Unit) := by
  intro s hs
  obtain ⟨hfits, herrors⟩ := s.recover_fits hs
  exact ⟨hfits, herrors, fun _ _ => trivial, by rintro ⟨⟩⟩

theorem yields_complain (cause : ParseCause) : Yields num true (fun _ => True) (complain cause) := by
  intro s hs
  exact ⟨hs, Nat.le_succ _, fun _ _ => trivial, by rintro ⟨⟩⟩

theorem yields_giveUp {good : α → Prop} (cause : ParseCause) : Yields num true good (giveUp cause) := by
  intro s hs
  exact ⟨hs, Nat.le_succ _, by rintro a ⟨⟩, fun _ _ => Nat.lt_succ_self _⟩

theorem yields_giveUpExpected {good : α → Prop} (what : Text) :
    Yields num true good (giveUpExpected what) :=
  yields_cur.bind fun _ _ => yields_giveUp _

/-- Nothing follows where a parser gives up. -/
theorem yields_giveUp_bind {next : β → Prop} (cause : ParseCause) (f : α → Parse β) :
    Yields num true next (giveUp cause >>= f) :=
  Yields.bind (yields_giveUp cause : Yields num true (fun _ => False) _) fun _ h => h.elim

theorem yields_giveUpExpected_bind {next : β → Prop} (what : Text) (f : α → Parse β) :
    Yields num true next (giveUpExpected what >>= f) :=
  Yields.bind (yields_giveUpExpected what : Yields num true (fun _ => False) _) fun _ h => h.elim

theorem yields_accept (k : TokenKind) : Yields num true (fun _ => True) (accept k) := by
  refine (yields_at k).bind fun b _ => .ite (fun _ => ?_) (fun _ => ?_)
  · exact yields_advance.bind fun _ _ => .pure trivial
  · refine yields_cur.bind fun t _ => ?_
    exact (yields_complain _).bind fun _ _ => .pure trivial

/-- Unlike `accept`, which reports and stays, `expect` gives up; the report makes it loud. -/
theorem yields_expect (k : TokenKind) : Yields num true (fun _ => True) (expect k) := by
  intro s hs
  have hrun : run (expect k) s =
      if s.at? k then (some (), s.next) else (none, s.fail (.expected k.name s.cur)) := by
    have haccept : run (accept k) s =
        if s.at? k then (some true, s.next) else (some false, s.fail (.expected k.name s.cur)) := by
      change run (if s.at? k = true then _ else _) s = _
      split <;> rfl
    rw [expect, run_bind, haccept]
    cases s.at? k <;> rfl
  rw [hrun]
  split
  · exact ⟨s.next_fits hs, s.errors_next, fun _ _ => trivial, by rintro ⟨⟩⟩
  · exact ⟨hs, Nat.le_succ _, by rintro a ⟨⟩, fun _ _ => Nat.lt_succ_self _⟩

theorem yields_skip (k : TokenKind) : Yields num true (fun _ => True) (skip? k) := by
  refine (yields_at k).bind fun b _ => .ite (fun _ => ?_) (fun _ => ?_)
  · exact yields_advance
  · exact .pure trivial

theorem yields_fieldName (what : Text) : Yields num true (· ≠ []) (fieldName what) := by
  refine yields_cur.bind fun t ht => .ite (fun h => ?_) (fun _ => ?_)
  · refine .pure (ht.1 ?_)
    rcases Bool.or_eq_true_iff.mp h with h | h <;> simp [TokenKind.canName, h]
  · exact yields_giveUpExpected what

theorem yields_ident (what : Text) : Yields num true (· ≠ []) (ident what) := by
  refine yields_cur.bind fun t ht => .ite (fun h => ?_) (fun _ => ?_)
  · refine yields_advance.bind fun _ _ => .pure (ht.1 ?_)
    simp [TokenKind.canName, h]
  · exact yields_giveUpExpected what

theorem yields_orGiveUp {good : α → Prop} (cause : ParseCause) (x : Option α)
    (h : ∀ a, x = some a → good a) : Yields num true good (orGiveUp cause x) := by
  cases x with
  | none => exact yields_giveUp cause
  | some a => exact .pure (h a rfl)

/-! ## Expressions -/

/-- The whole numbers that parsers make on their own are there, and each with its opposite. -/
structure Wholes (num : Int → Prop) : Prop where
  zero : num 0
  one : num 1
  neg : ∀ v, num v → num (-v)

theorem wholes_any : Wholes fun _ => True := ⟨trivial, trivial, fun _ _ => trivial⟩

theorem ofInteger_cases (t : Token) :
    (∃ v, Expr.ofInteger t = .int t.pos v) ∨ ∃ f, Expr.ofInteger t = .float t.pos f := by
  have decimal : (∃ v, Expr.ofInteger.decimal t = .int t.pos v) ∨
      ∃ f, Expr.ofInteger.decimal t = .float t.pos f := by
    unfold Expr.ofInteger.decimal
    split
    · split
      · exact .inl ⟨_, rfl⟩
      · exact .inr ⟨_, rfl⟩
    · exact .inr ⟨_, rfl⟩
  unfold Expr.ofInteger
  split
  · split
    · dsimp only
      split
      · exact .inl ⟨_, rfl⟩
      · exact .inr ⟨_, rfl⟩
    · exact decimal
  · exact decimal

private theorem ofInteger_named (t : Token) (h : t.Counts num) (hk : t.kind = .integer) :
    (Expr.ofInteger t).Named num := by
  obtain ⟨v, hv⟩ | ⟨f, hf⟩ := ofInteger_cases t
  · rw [hv]
    exact h hk _ _ hv
  · rw [hf]
    trivial

private theorem negate_named (hnum : Wholes num) (pos : Position) (x : Expr) (h : x.Named num) :
    (Expr.negate pos x).Named num := by
  cases x with
  | int _ v => exact hnum.neg v h
  | _ => exact h

private theorem binary_named (op : TokenKind) (pos : Position) (left right : Expr)
    (hl : left.Named num) (hr : right.Named num) : (Expr.binary op pos left right).Named num := by
  unfold Expr.binary
  split <;> exact ⟨hl, hr⟩

private theorem assignTo_named (pos : Position) (target value : Expr) (ht : target.Named num)
    (hv : value.Named num) : ∀ x, Expr.assignTo? pos target value = some x → x.Named num := by
  intro x h
  cases target with
  | var _ name index =>
    cases h
    cases index <;> exact ⟨ht.1, hv, ht.2⟩
  | slot _ obj field index =>
    cases h
    cases index <;> exact ⟨ht.1, ht.2.1, hv, ht.2.2⟩
  | _ => cases h

private theorem updateTo_named (pos : Position) (op : UpdateOp) (target value : Expr)
    (ht : target.Named num) (hv : value.Named num) :
    ∀ x, Expr.updateTo? pos op target value = some x → x.Named num := by
  intro x h
  cases target with
  | var _ name index =>
    cases h
    cases index <;> exact ⟨ht.1, hv, ht.2⟩
  | slot _ obj field index =>
    cases h
    cases index <;> exact ⟨ht.1, ht.2.1, hv, ht.2.2⟩
  | _ => cases h

private theorem withIndex_named (x index y : Expr) (hx : x.Named num) (hi : index.Named num)
    (h : Expr.withIndex x index = .ok y) : y.Named num := by
  unfold Expr.withIndex at h
  split at h <;> cases h
  · exact ⟨hx.1, hi⟩
  · exact ⟨hx.1, hx.2.1, hi⟩

private theorem namedArgs_reverse (args : List Expr) (h : Expr.NamedArgs num args) :
    Expr.NamedArgs num args.reverse := by
  rw [Expr.namedArgs_iff] at h ⊢
  exact fun a ha => h a (List.mem_reverse.mp ha)

/-- What the parsers of expressions promise when nesting is bounded by `n`. -/
structure ExprParsers (num : Int → Prop) (n : Nat) : Prop where
  expression : Yields num true (Expr.Named num) (expression n)
  ternary : Yields num true (Expr.Named num) (ternary n)
  binary : ∀ level, Yields num true (Expr.Named num) (binary n level)
  binaryTail : ∀ level left, left.Named num → Yields num true (Expr.Named num) (binaryTail n level left)
  unary : Yields num true (Expr.Named num) (unary n)
  postfixTail : ∀ x, x.Named num → Yields num true (Expr.Named num) (postfixTail n x)
  bracketed : Yields num true (Expr.Named num) (bracketed n)
  indexTail : ∀ x, x.Named num → Yields num true (Expr.Named num) (indexTail n x)
  arguments : Yields num true (Expr.NamedArgs num) (arguments n)
  argumentTail : ∀ seen, Expr.NamedArgs num seen → Yields num true (Expr.NamedArgs num) (argumentTail n seen)
  primary : Yields num true (Expr.Named num) (primary n)
  wordOrCall : ∀ t, t.kind = .ident → t.Fits num → Yields num true (Expr.Named num) (wordOrCall n t)
  objectDecl : ∀ pos datablock, Yields num true (Expr.NamedObject num) (objectDecl n pos datablock)
  extraArguments : ∀ seen, Expr.NamedArgs num seen →
    Yields num true (Expr.NamedArgs num) (extraArguments n seen)
  objectBody : ∀ fields children, Expr.NamedFields num fields → Expr.NamedChildren num children →
    Yields num true (fun r => Expr.NamedFields num r.1 ∧ Expr.NamedChildren num r.2)
      (objectBody n fields children)
  fieldInit : Yields num true (Expr.NamedField num) (fieldInit n)

private theorem exprParsers_zero : ExprParsers num 0 := by
  constructor <;> intros <;> exact yields_giveUp _

section step

variable {n : Nat} (ih : ExprParsers num n)
include ih

private theorem expression_step : Yields num true (Expr.Named num) (expression (n + 1)) := by
  refine ih.ternary.bind fun left hleft => yields_cur.bind fun op _ =>
    .ite (fun _ => ?_) fun _ => ?_
  · refine yields_advance.bind fun _ _ => ih.expression.bind fun value hvalue => ?_
    exact yields_orGiveUp _ _ (assignTo_named _ _ _ hleft hvalue)
  · split
    · refine yields_advance.bind fun _ _ => ih.expression.bind fun value hvalue => ?_
      exact yields_orGiveUp _ _ (updateTo_named _ _ _ _ hleft hvalue)
    · exact .pure hleft

private theorem ternary_step : Yields num true (Expr.Named num) (ternary (n + 1)) := by
  refine (ih.binary 0).bind fun test htest => yields_cur.bind fun op _ =>
    .ite (fun _ => ?_) fun _ => .pure htest
  refine yields_advance.bind fun _ _ => ih.expression.bind fun whenTrue hwhenTrue => ?_
  refine (yields_expect _).bind fun _ _ => ih.ternary.bind fun whenFalse hwhenFalse => ?_
  exact .pure ⟨htest, hwhenTrue, hwhenFalse⟩

private theorem binaryTail_step (level : Nat) (left : Expr) (hleft : left.Named num) :
    Yields num true (Expr.Named num) (binaryTail (n + 1) level left) := by
  refine yields_cur.bind fun op _ => ?_
  split
  · refine .ite (fun _ => .pure hleft) fun _ => ?_
    refine yields_advance.bind fun _ _ => (ih.binary _).bind fun right hright => ?_
    exact ih.binaryTail _ _ (binary_named _ _ _ _ hleft hright)
  · exact .pure hleft

private theorem unary_step (hnum : Wholes num) : Yields num true (Expr.Named num) (unary (n + 1)) := by
  refine yields_cur.bind fun op _ => ?_
  split
  · exact yields_advance.bind fun _ _ => ih.unary.bind fun x hx => .pure (negate_named hnum _ _ hx)
  · exact yields_advance.bind fun _ _ => ih.unary.bind fun x hx => .pure hx
  · exact yields_advance.bind fun _ _ => ih.unary.bind fun x hx => .pure hx
  · exact ih.primary.bind fun x hx => ih.postfixTail x hx

private theorem postfixTail_step (hnum : Wholes num) (x : Expr) (hx : x.Named num) :
    Yields num true (Expr.Named num) (postfixTail (n + 1) x) := by
  refine yields_cur.bind fun op _ => ?_
  split
  · refine yields_advance.bind fun _ _ => (yields_fieldName _).bind fun name hname => ?_
    refine yields_advance.bind fun _ _ => (yields_at _).bind fun b _ =>
      .ite (fun _ => ?_) fun _ => ?_
    · refine ih.arguments.bind fun args hargs => ih.postfixTail _ ⟨hname, ?_, hx, hargs⟩
      exact Option.some_ne_none _ |>.symm
    · exact ih.postfixTail _ ⟨hname, hx, trivial⟩
  · refine ih.bracketed.bind fun index hindex => ?_
    split
    · exact ih.postfixTail _ (withIndex_named _ _ _ hx hindex ‹_›)
    · exact yields_giveUp _
  · refine yields_advance.bind fun _ _ => ?_
    exact (yields_orGiveUp _ _ (updateTo_named _ _ _ (.int _ 1) hx hnum.one)).bind ih.postfixTail
  · refine yields_advance.bind fun _ _ => ?_
    exact (yields_orGiveUp _ _ (updateTo_named _ _ _ (.int _ 1) hx hnum.one)).bind ih.postfixTail
  · exact .pure hx

private theorem bracketed_step : Yields num true (Expr.Named num) (bracketed (n + 1)) := by
  refine yields_advance.bind fun _ _ => ih.expression.bind fun first hfirst => ?_
  refine (ih.indexTail _ hfirst).bind fun index hindex => ?_
  exact (yields_expect _).bind fun _ _ => .pure hindex

private theorem indexTail_step (x : Expr) (hx : x.Named num) :
    Yields num true (Expr.Named num) (indexTail (n + 1) x) := by
  refine yields_cur.bind fun op _ => .ite (fun _ => ?_) fun _ => .pure hx
  refine yields_advance.bind fun _ _ => ih.expression.bind fun next hnext => ?_
  exact ih.indexTail _ ⟨hx, hnext⟩

private theorem argumentTail_step (seen : List Expr) (hseen : Expr.NamedArgs num seen) :
    Yields num true (Expr.NamedArgs num) (argumentTail (n + 1) seen) := by
  refine (yields_at _).bind fun b _ => .ite (fun _ => ?_) fun _ => ?_
  · exact yields_advance.bind fun _ _ => .pure (namedArgs_reverse _ hseen)
  refine ih.expression.bind fun a ha => (yields_at _).bind fun c _ => ?_
  have more := ih.argumentTail (a :: seen) ⟨ha, hseen⟩
  refine .ite (fun _ => yields_advance.bind fun _ _ => more) fun _ => ?_
  refine (yields_at _).bind fun d _ => .ite (fun _ => ?_) fun _ => more
  exact yields_giveUpExpected_bind _ _

private theorem primary_step (hnum : Wholes num) : Yields num true (Expr.Named num) (primary (n + 1)) := by
  refine yields_cur.bind fun t ht => ?_
  have spelled (h : t.kind.canName = true) : t.literal ≠ [] := ht.1 h
  split
  · exact yields_advance.bind fun _ _ => .pure (ofInteger_named t ht.2 ‹_›)
  · refine yields_advance.bind fun _ _ => ?_
    split
    · exact .pure trivial
    · exact yields_giveUp _
  · exact yields_advance.bind fun _ _ => .pure trivial
  · exact yields_advance.bind fun _ _ => .pure trivial
  · exact yields_advance.bind fun _ _ => .pure hnum.one
  · exact yields_advance.bind fun _ _ => .pure hnum.zero
  · refine yields_advance.bind fun _ _ => .pure ⟨spelled ?_, trivial⟩
    simp [*, TokenKind.canName]
  · refine yields_advance.bind fun _ _ => .pure ⟨spelled ?_, trivial⟩
    simp [*, TokenKind.canName]
  · exact yields_advance.bind fun _ _ => ih.wordOrCall t ‹_› ht
  · refine yields_advance.bind fun _ _ => ih.expression.bind fun x hx => ?_
    exact (yields_expect _).bind fun _ _ => .pure hx
  · exact yields_advance.bind fun _ _ => (ih.objectDecl _ _).bind fun d hd => .pure hd
  · exact yields_advance.bind fun _ _ => (ih.objectDecl _ _).bind fun d hd => .pure hd
  · exact yields_giveUp _

private theorem wordOrCall_step (t : Token) (hk : t.kind = .ident) (ht : t.Fits num) :
    Yields num true (Expr.Named num) (wordOrCall (n + 1) t) := by
  have hname : t.literal ≠ [] := ht.1 (by simp [hk, TokenKind.canName])
  refine (yields_at _).bind fun b _ => .ite (fun _ => ?_) fun _ => ?_
  · refine yields_advance.bind fun _ _ => (yields_ident _).bind fun name hn => ?_
    have call : Yields num true (Expr.Named num) (do
        let args ← arguments n
        let kind := if Text.equalFold t.literal "Parent" then .parent else .function
        return .call t.pos name (some t.literal) kind args) :=
      ih.arguments.bind fun args hargs => .pure ⟨hn, by simpa using hname, hargs⟩
    refine (yields_at _).bind fun c _ => .ite (fun _ => call) fun _ => ?_
    exact yields_giveUp_bind _ _
  · refine (yields_at _).bind fun b _ => .ite (fun _ => ?_) fun _ => .pure trivial
    exact ih.arguments.bind fun args hargs => .pure ⟨hname, by simp, hargs⟩

private theorem extraArguments_step (seen : List Expr) (hseen : Expr.NamedArgs num seen) :
    Yields num true (Expr.NamedArgs num) (extraArguments (n + 1) seen) := by
  refine (yields_at _).bind fun b _ => .ite (fun _ => ?_) fun _ =>
    .pure (namedArgs_reverse _ hseen)
  refine yields_advance.bind fun _ _ => ih.expression.bind fun a ha => ?_
  exact ih.extraArguments (a :: seen) ⟨ha, hseen⟩

private theorem objectDecl_step (pos : Position) (datablock : Bool) :
    Yields num true (Expr.NamedObject num) (objectDecl (n + 1) pos datablock) := by
  refine yields_cur.bind fun t _ => ?_
  extract_lets withClass
  have hclass : ∀ className, className.Named num →
      Yields num true (Expr.NamedObject num) (withClass className) := by
    intro className hclass
    refine (yields_expect _).bind fun _ _ => yields_cur.bind fun t _ => ?_
    extract_lets withName
    have hname : ∀ objectName, objectName.Named num →
        Yields num true (Expr.NamedObject num) (withName objectName) := by
      intro objectName hname
      refine (yields_at _).bind fun b _ => ?_
      extract_lets withSource
      have hsource : ∀ copyFrom, copyFrom ≠ some [] →
          Yields num true (Expr.NamedObject num) (withSource copyFrom) := by
        intro copyFrom hcopy
        refine (ih.extraArguments [] trivial).bind fun args hargs => ?_
        refine (yields_expect _).bind fun _ _ => (yields_at _).bind fun b _ => .ite (fun _ => ?_)
          fun _ => .pure ⟨hclass, hname, hcopy, hargs, trivial, trivial⟩
        refine yields_advance.bind fun _ _ => (ih.objectBody [] [] trivial trivial).bind ?_
        rintro ⟨fields, children⟩ ⟨hfields, hchildren⟩
        exact (yields_expect _).bind fun _ _ =>
          .pure ⟨hclass, hname, hcopy, hargs, hfields, hchildren⟩
      refine .ite (fun _ => ?_) fun _ => hsource none (by simp)
      refine yields_advance.bind fun _ _ => (yields_ident _).bind fun source hs => ?_
      exact hsource (some source) (by simpa using hs)
    exact .ite (fun _ => hname _ trivial) fun _ => ih.ternary.bind hname
  split
  · exact yields_advance.bind fun _ _ => hclass _ trivial
  · refine yields_advance.bind fun _ _ => ih.expression.bind fun x hx => ?_
    exact (yields_expect _).bind fun _ _ => hclass x hx
  · exact yields_giveUpExpected_bind _ _

private theorem objectBody_step (fields : List FieldInit) (children : List ObjectDecl)
    (hf : Expr.NamedFields num fields) (hc : Expr.NamedChildren num children) :
    Yields num true (fun r => Expr.NamedFields num r.1 ∧ Expr.NamedChildren num r.2)
      (objectBody (n + 1) fields children) := by
  refine yields_cur.bind fun t _ => .ite (fun _ => .pure ⟨?_, ?_⟩) fun _ => ?_
  · rw [Expr.namedFields_iff] at hf ⊢
    exact fun f h => hf f (List.mem_reverse.mp h)
  · rw [Expr.namedChildren_iff] at hc ⊢
    exact fun c h => hc c (List.mem_reverse.mp h)
  refine yields_get.bind fun s _ => .ite (fun _ => ?_) fun _ => ?_
  · refine yields_advance.bind fun _ _ => (ih.objectDecl _ _).bind fun d hd => ?_
    exact (yields_expect _).bind fun _ _ => ih.objectBody _ _ hf ⟨hd, hc⟩
  · exact ih.fieldInit.bind fun f hfield => ih.objectBody _ _ ⟨hfield, hf⟩ hc

private theorem fieldInit_step : Yields num true (Expr.NamedField num) (fieldInit (n + 1)) := by
  refine yields_cur.bind fun t _ => (yields_fieldName _).bind fun name hname => ?_
  refine yields_advance.bind fun _ _ => (yields_at _).bind fun b _ => ?_
  extract_lets withIndex
  have rest : ∀ index, (∀ i, index = some i → i.Named num) →
      Yields num true (Expr.NamedField num) (withIndex index) := by
    intro index hindex
    refine (yields_expect _).bind fun _ _ => ih.expression.bind fun value hvalue => ?_
    refine (yields_expect _).bind fun _ _ => .pure ?_
    cases index with
    | none => exact ⟨hname, hvalue, trivial⟩
    | some i => exact ⟨hname, hvalue, hindex i rfl⟩
  refine .ite (fun _ => ?_) fun _ => rest none (by simp)
  exact (ih.bracketed.map (f := some) fun i hi j hj => Option.some.inj hj ▸ hi).bind rest

end step

theorem exprParsers (hnum : Wholes num) (n : Nat) : ExprParsers num n := by
  induction n with
  | zero => exact exprParsers_zero
  | succ n ih =>
    exact {
      expression := expression_step ih
      ternary := ternary_step ih
      binary := fun level => ih.unary.bind fun left hleft => ih.binaryTail level left hleft
      binaryTail := binaryTail_step ih
      unary := unary_step ih hnum
      postfixTail := postfixTail_step ih hnum
      bracketed := bracketed_step ih
      indexTail := indexTail_step ih
      arguments := yields_advance.bind fun _ _ => ih.argumentTail [] trivial
      argumentTail := argumentTail_step ih
      primary := primary_step ih hnum
      wordOrCall := wordOrCall_step ih
      objectDecl := objectDecl_step ih
      extraArguments := extraArguments_step ih
      objectBody := objectBody_step ih
      fieldInit := fieldInit_step ih }

/-! ## Statements -/

theorem yields_condition (hnum : Wholes num) (n : Nat) : Yields num true (Expr.Named num) (condition n) := by
  refine (yields_expect _).bind fun _ _ => (exprParsers hnum n).expression.attempt_bind ?_ ?_
  · intro x hx
    exact (yields_accept _).bind fun _ _ => .pure hx
  · exact (yields_accept _).quiet.bind fun _ _ => .failure

private theorem yields_parameters (n : Nat) (seen : List Text) (hseen : ∀ p ∈ seen, p ≠ []) :
    Yields num true (fun ps => ∀ p ∈ ps, p ≠ []) (parameters n seen) := by
  induction n generalizing seen with
  | zero => exact yields_giveUp _
  | succ n ih =>
    refine (yields_at _).bind fun b _ => .ite (fun _ => ?_) fun _ => ?_
    · refine yields_advance.bind fun _ _ => .pure ?_
      exact fun p hp => hseen p (List.mem_reverse.mp hp)
    refine yields_cur.bind fun t ht => .ite (fun hk => ?_) fun _ => ?_
    · have hname : t.literal ≠ [] := ht.1 (by simp [TokenKind.canName, hk])
      have more := ih (t.literal :: seen) (by simpa [hname] using hseen)
      refine yields_advance.bind fun _ _ => (yields_at _).bind fun b _ =>
        .ite (fun _ => ?_) fun _ => ?_
      · exact yields_advance.bind fun _ _ => more
      · refine (yields_at _).bind fun c _ => .ite (fun _ => ?_) fun _ => more
        exact yields_giveUpExpected_bind _ _
    · exact yields_giveUpExpected_bind _ _

private theorem yields_caseValues (hnum : Wholes num) (n : Nat) (seen : List Expr) (hseen : Expr.NamedArgs num seen) :
    Yields num true (Expr.NamedArgs num) (caseValues n seen) := by
  induction n generalizing seen with
  | zero => exact yields_giveUp _
  | succ n ih =>
    refine (exprParsers hnum n).ternary.bind fun v hv => (yields_at _).bind fun b _ =>
      .ite (fun _ => ?_) fun _ => ?_
    · exact yields_advance.bind fun _ _ => ih (v :: seen) ⟨hv, hseen⟩
    · exact .pure (namedArgs_reverse (v :: seen) ⟨hv, hseen⟩)

private def SwitchCase.Named (num : Int → Prop) (c : SwitchCase) : Prop :=
  Expr.NamedArgs num c.values ∧ Stmt.NamedBlock num c.body

private def NamedCases (num : Int → Prop) (cases : List SwitchCase) (default? : Option (List Stmt)) : Prop :=
  (∀ c ∈ cases, SwitchCase.Named num c) ∧ ∀ body, default? = some body → Stmt.NamedBlock num body

/-- What the parsers of statements promise when nesting is bounded by `n`. -/
structure StmtParsers (num : Int → Prop) (n : Nat) : Prop where
  statement : Yields num false (Stmt.Named num) (statement n)
  function : ∀ pos package, package ≠ some [] → Yields num true (Stmt.Named num) (function n pos package)
  branch : ∀ pos, Yields num true (Stmt.Named num) (branch n pos)
  forLoop : ∀ pos, Yields num true (Stmt.Named num) (forLoop n pos)
  switch : ∀ pos textual, Yields num false (Stmt.Named num) (switch n pos textual)
  switchCases : ∀ seen default?, NamedCases num seen default? →
    Yields num true (fun r => NamedCases num r.1 r.2) (switchCases n seen default?)
  caseBody : ∀ seen, Stmt.NamedBlock num seen → Yields num true (Stmt.NamedBlock num) (caseBody n seen)
  body : Yields num true (Stmt.NamedBlock num) (body n)
  block : Yields num true (Stmt.NamedBlock num) (block n)
  blockTail : ∀ seen, Stmt.NamedBlock num seen → Yields num true (Stmt.NamedBlock num) (blockTail n seen)

private theorem test_named (hnum : Wholes num) (textual : Bool) (subject : Expr) (c : SwitchCase)
    (hs : subject.Named num) (hc : SwitchCase.Named num c) : (c.test textual subject).Named num := by
  have hmatch (pos : Position) (v : Expr) (hv : v.Named num) :
      (SwitchCase.matchValue textual subject pos v).Named num := by
    cases textual <;> exact ⟨hs, hv⟩
  have hfold (vs : List Expr) (t : Expr) (ht : t.Named num) (hvs : Expr.NamedArgs num vs) :
      (vs.foldl (fun t v => .logic c.pos .or t
        (SwitchCase.matchValue textual subject c.pos v)) t).Named num := by
    induction vs generalizing t with
    | nil => exact ht
    | cons v vs ih => exact ih _ ⟨ht, hmatch _ v hvs.1⟩ hvs.2
  obtain ⟨pos, values, body⟩ := c
  cases values with
  | nil => exact hnum.zero
  | cons v vs => exact hfold vs _ (hmatch _ v hc.1.1) hc.1.2

private theorem chain_named (hnum : Wholes num) (textual : Bool) (subject : Expr) (default? : Option (List Stmt))
    (cases : List SwitchCase) (hs : subject.Named num) (hc : NamedCases num cases default?) :
    ∀ body, SwitchCase.chain textual subject default? cases = some body → Stmt.NamedBlock num body := by
  induction cases with
  | nil => exact hc.2
  | cons c cs ih =>
    rintro body ⟨⟩
    have htail := ih ⟨fun d hd => hc.1 d (by simp [hd]), hc.2⟩
    refine ⟨(Stmt.named_branch ..).mpr ⟨?_, (hc.1 c (by simp)).2, htail⟩, trivial⟩
    exact test_named hnum textual subject c hs (hc.1 c (by simp))

private theorem ofSwitch_named (hnum : Wholes num) (pos : Position) (textual : Bool) (subject : Expr)
    (cases : List SwitchCase) (default? : Option (List Stmt)) (hs : subject.Named num)
    (hc : NamedCases num cases default?) :
    ∀ s, Stmt.ofSwitch? pos textual subject cases default? = some s → s.Named num := by
  intro s h
  cases cases with
  | nil =>
    obtain ⟨body, hbody, rfl⟩ := Option.map_eq_some_iff.mp h
    exact ⟨hnum.one, hc.2 body hbody, trivial⟩
  | cons c cs =>
    cases h
    have htail := chain_named hnum textual subject default? cs hs
      ⟨fun d hd => hc.1 d (by simp [hd]), hc.2⟩
    refine (Stmt.named_branch ..).mpr ⟨?_, (hc.1 c (by simp)).2, htail⟩
    exact test_named hnum textual subject c hs (hc.1 c (by simp))

private theorem namedBlock_reverse (stmts : List Stmt) (h : Stmt.NamedBlock num stmts) :
    Stmt.NamedBlock num stmts.reverse := by
  rw [Stmt.namedBlock_iff] at h ⊢
  exact fun s hs => h s (List.mem_reverse.mp hs)

private theorem namedBlock_append (x : Option Stmt) (seen : List Stmt)
    (hx : ∀ s, x = some s → s.Named num) (h : Stmt.NamedBlock num seen) :
    Stmt.NamedBlock num (x.toList ++ seen) := by
  cases x with
  | none => exact h
  | some s => exact ⟨hx s rfl, h⟩

section step

variable {n : Nat} (ih : StmtParsers num n)
include ih

private theorem function_step (pos : Position) (package : Option Text) (hp : package ≠ some []) :
    Yields num true (Stmt.Named num) (function (n + 1) pos package) := by
  refine (yields_ident _).bind fun first hfirst => (yields_at _).bind fun b _ => ?_
  extract_lets withName
  have rest : ∀ names : Option Text × Text, names.1 ≠ some [] ∧ names.2 ≠ [] →
      Yields num true (Stmt.Named num) (withName names) := by
    rintro ⟨ns, name⟩ ⟨hns, hname⟩
    refine (yields_expect _).bind fun _ _ => ?_
    refine (yields_parameters n [] (by simp)).bind fun params hparams => ?_
    have close : Yields num true (Stmt.Named num)
        (do let body ← block n; return .func pos name ns package params body) :=
      ih.block.bind fun body hbody => .pure ⟨hname, hns, hp, hparams, hbody⟩
    refine (yields_at _).bind fun c _ => .ite (fun _ => close) fun _ => ?_
    exact yields_giveUpExpected_bind _ _
  refine .ite (fun _ => ?_) fun _ => rest (none, first) ⟨by simp, hfirst⟩
  refine yields_advance.bind fun _ _ => (yields_ident _).bind fun name hname => ?_
  exact rest (some first, name) ⟨by simpa using hfirst, hname⟩

private theorem branch_step (hnum : Wholes num) (pos : Position) : Yields num true (Stmt.Named num) (branch (n + 1) pos) := by
  refine (yields_condition hnum n).bind fun test htest => ih.body.bind fun whenTrue htrue => ?_
  refine (yields_at _).bind fun b _ => .ite (fun _ => ?_) fun _ => .pure ⟨htest, htrue, trivial⟩
  refine yields_advance.bind fun _ _ => ih.body.bind fun whenFalse hfalse => ?_
  exact .pure ⟨htest, htrue, hfalse⟩

private theorem forLoop_step (hnum : Wholes num) (pos : Position) : Yields num true (Stmt.Named num) (forLoop (n + 1) pos) := by
  have parts := (exprParsers hnum n).expression
  refine (yields_expect _).bind fun _ _ => (yields_at _).bind fun b _ => ?_
  extract_lets withStart
  have hstart : ∀ start : Option Expr, (∀ x, start = some x → x.Named num) →
      Yields num true (Stmt.Named num) (withStart start) := by
    intro start hstart
    refine (yields_accept _).bind fun _ _ => yields_cur.bind fun t _ => ?_
    extract_lets withTest
    have htest : ∀ test : Option Expr, (∀ x, test = some x → x.Named num) →
        Yields num test.isSome (Stmt.Named num) (withTest test) := by
      intro test htest
      refine (yields_accept _).quiet.bind fun _ _ => (yields_at _).quiet.bind fun b _ => ?_
      extract_lets withNext
      have hnext : ∀ next : Option Expr, (∀ x, next = some x → x.Named num) →
          Yields num test.isSome (Stmt.Named num) (withNext next) := by
        intro next hnext
        refine (yields_expect _).quiet.bind fun _ _ => ?_
        cases test with
        | none => exact .failure
        | some test =>
          refine ih.body.bind fun body hbody => .pure ⟨?_, htest test rfl, ?_, hbody⟩
          · exact fun x hx => hstart x (Option.mem_def.mp hx)
          · exact fun x hx => hnext x (Option.mem_def.mp hx)
      refine .ite (fun _ => hnext none (by simp)) fun _ => ?_
      exact parts.attempt.quiet.bind hnext
    refine .ite (fun _ => htest (some _) (by rintro x ⟨⟩; exact hnum.one)) fun _ => ?_
    refine parts.attempt_bind (fun x hx => htest (some x) ?_) (htest none (by simp))
    rintro y ⟨⟩
    exact hx
  refine .ite (fun _ => hstart none (by simp)) fun _ => ?_
  exact parts.attempt.bind hstart

private theorem switch_step (hnum : Wholes num) (pos : Position) (textual : Bool) :
    Yields num false (Stmt.Named num) (switch (n + 1) pos textual) := by
  refine (yields_condition hnum n).quiet.bind fun subject hsubject => ?_
  refine (yields_expect _).quiet.bind fun _ _ => ?_
  refine (ih.switchCases [] none ⟨by simp, by simp⟩).quiet.bind ?_
  rintro ⟨cases, default?⟩ hcases
  refine (yields_accept _).quiet.bind fun _ _ => ?_
  split
  · exact .pure (ofSwitch_named hnum _ _ _ _ _ hsubject hcases _ ‹_›)
  · exact .failure

private theorem switchCases_step (hnum : Wholes num) (seen : List SwitchCase) (default? : Option (List Stmt))
    (h : NamedCases num seen default?) :
    Yields num true (fun r => NamedCases num r.1 r.2) (switchCases (n + 1) seen default?) := by
  have done : NamedCases num seen.reverse default? :=
    ⟨fun c hc => h.1 c (List.mem_reverse.mp hc), h.2⟩
  refine yields_cur.bind fun t _ => ?_
  split
  · exact .pure done
  · exact .pure done
  · refine yields_advance.bind fun _ _ => (yields_caseValues hnum n [] trivial).bind fun values hv => ?_
    refine (yields_expect _).bind fun _ _ => (ih.caseBody [] trivial).bind fun body hbody => ?_
    refine ih.switchCases _ _ ⟨?_, h.2⟩
    intro c hc
    rcases List.mem_cons.mp hc with rfl | hc
    · exact ⟨hv, hbody⟩
    · exact h.1 c hc
  · refine yields_advance.bind fun _ _ => (yields_expect _).bind fun _ _ => ?_
    refine (ih.caseBody [] trivial).bind fun body hbody => ih.switchCases _ _ ⟨h.1, ?_⟩
    rintro b ⟨⟩
    exact hbody
  · exact yields_giveUpExpected _

private theorem caseBody_step (seen : List Stmt) (h : Stmt.NamedBlock num seen) :
    Yields num true (Stmt.NamedBlock num) (caseBody (n + 1) seen) := by
  refine yields_kind.bind fun k _ => .ite (fun _ => .pure (namedBlock_reverse _ h)) fun _ => ?_
  refine yields_errorCount.bind fun before _ => ih.statement.attempt.bind fun x hx => ?_
  have more := namedBlock_append x seen hx h
  refine yields_errorCount.bind fun after _ => .ite (fun _ => ?_) fun _ => ih.caseBody _ more
  exact .pure (namedBlock_reverse _ more)

private theorem body_step : Yields num true (Stmt.NamedBlock num) (body (n + 1)) := by
  refine (yields_at _).bind fun b _ => .ite (fun _ => ih.block) fun _ => ?_
  refine ih.statement.attempt.bind fun x hx => .pure ?_
  simpa using namedBlock_append x [] hx trivial

private theorem block_step : Yields num true (Stmt.NamedBlock num) (block (n + 1)) := by
  refine yields_advance.bind fun _ _ => (ih.blockTail [] trivial).bind fun stmts hstmts => ?_
  exact (yields_accept _).bind fun _ _ => .pure hstmts

private theorem blockTail_step (seen : List Stmt) (h : Stmt.NamedBlock num seen) :
    Yields num true (Stmt.NamedBlock num) (blockTail (n + 1) seen) := by
  refine yields_kind.bind fun k _ => .ite (fun _ => .pure (namedBlock_reverse _ h)) fun _ => ?_
  refine yields_errorCount.bind fun before _ => ih.statement.attempt.bind fun x hx => ?_
  have more := ih.blockTail _ (namedBlock_append x seen hx h)
  refine yields_errorCount.bind fun after _ => .ite (fun _ => ?_) fun _ => more
  exact yields_recover.bind fun _ _ => more

private theorem statement_step (hnum : Wholes num) : Yields num false (Stmt.Named num) (statement (n + 1)) := by
  have whole := (exprParsers hnum n).expression
  refine yields_cur.quiet.bind fun t _ => ?_
  split
  · exact yields_advance.quiet.bind fun _ _ => (ih.function _ none (by simp)).quiet
  · exact yields_advance.quiet.bind fun _ _ => (ih.branch _).quiet
  · refine yields_advance.quiet.bind fun _ _ => (yields_condition hnum n).quiet.bind fun test htest => ?_
    refine ih.body.quiet.bind fun body hbody => .pure ⟨?_, htest, ?_, hbody⟩ <;> simp
  · exact yields_advance.quiet.bind fun _ _ => (ih.forLoop _).quiet
  · refine yields_advance.quiet.bind fun _ _ => ih.body.quiet.bind fun body hbody => ?_
    refine (yields_expect _).quiet.bind fun _ _ =>
      (yields_condition hnum n).quiet.bind fun test htest => ?_
    refine (yields_accept _).quiet.bind fun _ _ => .pure ⟨?_, htest, ?_, hbody⟩ <;> simp
  · exact yields_advance.quiet.bind fun _ _ => ih.switch _ _
  · exact yields_advance.quiet.bind fun _ _ => ih.switch _ _
  · exact yields_advance.quiet.bind fun _ _ => (yields_accept _).quiet.bind fun _ _ => .pure trivial
  · exact yields_advance.quiet.bind fun _ _ => (yields_accept _).quiet.bind fun _ _ => .pure trivial
  · refine yields_advance.quiet.bind fun _ _ => (yields_at _).quiet.bind fun b _ => ?_
    extract_lets withValue
    have rest : ∀ value : Option Expr, (∀ x, value = some x → x.Named num) →
        Yields num false (Stmt.Named num) (withValue value) := by
      intro value hvalue
      refine (yields_accept _).quiet.bind fun _ _ => .pure ?_
      exact fun x hx => hvalue x (Option.mem_def.mp hx)
    refine .ite (fun _ => rest none (by simp)) fun _ => ?_
    exact whole.attempt.quiet.bind rest
  · exact (yields_giveUp _).quiet
  · exact yields_advance.quiet.bind fun _ _ => .failure
  · refine whole.quiet.bind fun x hx => ?_
    exact (yields_accept _).quiet.bind fun _ _ => .pure hx

end step

theorem stmtParsers (hnum : Wholes num) (n : Nat) : StmtParsers num n := by
  induction n with
  | zero => constructor <;> intros <;> exact (yields_giveUp _).quiet
  | succ n ih =>
    exact {
      statement := statement_step ih hnum
      function := function_step ih
      branch := branch_step ih hnum
      forLoop := forLoop_step ih hnum
      switch := switch_step ih hnum
      switchCases := switchCases_step ih hnum
      caseBody := caseBody_step ih
      body := body_step ih
      block := block_step ih
      blockTail := blockTail_step ih }

/-! ## Sources -/

private theorem yields_packageTail (hnum : Wholes num) (n : Nat) (package : Text) (seen : List Stmt)
    (hp : package ≠ []) (h : Stmt.NamedBlock num seen) :
    Yields num true (Stmt.NamedBlock num) (packageTail n package seen) := by
  induction n generalizing seen with
  | zero => exact yields_giveUp _
  | succ n ih =>
    have done := namedBlock_reverse seen h
    refine yields_cur.bind fun t _ => .ite (fun _ => ?_) fun _ => .ite (fun _ => ?_) fun _ => ?_
    · exact (yields_accept _).bind fun _ _ => (yields_skip _).bind fun _ _ => .pure done
    · refine yields_advance.bind fun _ _ => ?_
      refine ((stmtParsers hnum n).function _ (some package) (by simpa using hp)).attempt_bind ?_ ?_
      · exact fun f hf => ih (f :: seen) ⟨hf, h⟩
      · exact .pure done
    · exact (yields_complain _).bind fun _ _ => .pure done

private theorem yields_package (hnum : Wholes num) (n : Nat) : Yields num true (Stmt.NamedBlock num) (package n) := by
  refine (yields_ident _).bind fun name hname => (yields_expect _).bind fun _ _ => ?_
  exact yields_packageTail hnum n name [] hname trivial

theorem yields_programTail (hnum : Wholes num) (n : Nat) (seen : List Stmt) (h : Stmt.NamedBlock num seen) :
    Yields num true (Stmt.NamedBlock num) (programTail n seen) := by
  induction n generalizing seen with
  | zero => exact yields_giveUp _
  | succ n ih =>
    refine yields_kind.bind fun k _ => .ite (fun _ => .pure (namedBlock_reverse _ h)) fun _ => ?_
    refine yields_errorCount.bind fun before _ => ?_
    extract_lets withMore
    have rest : ∀ more, Stmt.NamedBlock num more → Yields num true (Stmt.NamedBlock num) (withMore more) := by
      intro more hmore
      have tail : Yields num true (Stmt.NamedBlock num) (programTail n (more ++ seen)) := by
        rw [Stmt.namedBlock_iff] at h hmore
        refine ih _ ((Stmt.namedBlock_iff _).mpr fun s hs => ?_)
        exact (List.mem_append.mp hs).elim (hmore s) (h s)
      refine yields_errorCount.bind fun after _ => .ite (fun _ => ?_) fun _ => tail
      exact yields_recover.bind fun _ _ => tail
    refine .ite (fun _ => ?_) fun _ => .ite (fun _ => ?_) fun _ => ?_
    · refine yields_advance.bind fun _ _ => (yields_package hnum n).attempt.bind fun x hx => rest _ ?_
      cases x with
      | none => trivial
      | some stmts => exact namedBlock_reverse stmts (hx stmts rfl)
    · exact (yields_complain _).bind fun _ _ => yields_advance.bind fun _ _ => rest [] trivial
    · refine (stmtParsers hnum n).statement.attempt.bind fun x hx => rest _ ?_
      simpa using namedBlock_append x [] hx trivial

end Parse

/-- What is parsed of a source is spelled, whether or not there are errors. -/
theorem namedBlock_parseProgram {num : Int → Prop} (hnum : Parse.Wholes num) {source : Text}
    (h : ∀ t ∈ Token.all source, t.Counts num) : Stmt.NamedBlock num (parseProgram source).1 := by
  have outcome := Parse.yields_programTail hnum (ParseState.start source).depth [] trivial
    (.start source) (ParseState.start_fits source h)
  rw [parseProgram]
  dsimp only
  cases hrun : (Parse.run (Parse.programTail (ParseState.start source).depth [])
      (.start source)).1 with
  | none => trivial
  | some stmts => exact outcome.good_of_some stmts hrun

theorem named_parseExpression {num : Int → Prop} (hnum : Parse.Wholes num) {source : Text}
    (h : ∀ t ∈ Token.all source, t.Counts num) {x : Expr} (hx : (parseExpression source).1 = some x) :
    x.Named num :=
  ((Parse.exprParsers hnum (ParseState.start source).depth).expression (.start source)
    (ParseState.start_fits source h)).good_of_some x hx

/-- A source without errors was parsed to its end, and the result is spelled. -/
theorem parseProgram_of_no_errors (source : Text) (program : List Stmt)
    (h : parseProgram source = (program, [])) :
    (Parse.run (Parse.programTail (ParseState.start source).depth []) (.start source)).1
      = some program ∧ Stmt.NamedBlock (fun _ => True) program := by
  have hcounts : ∀ t ∈ Token.all source, t.Counts fun _ => True := fun _ _ _ _ _ _ => trivial
  have outcome := Parse.yields_programTail Parse.wholes_any (ParseState.start source).depth [] trivial
    (.start source) (ParseState.start_fits source hcounts)
  unfold parseProgram at h
  dsimp only at h
  rcases hrun : Parse.run (Parse.programTail (ParseState.start source).depth [])
    (.start source) with ⟨_ | stmts, s⟩
  · rw [hrun] at h outcome
    have herrors : s.errors = [] := by simpa [ParseState.report] using congrArg Prod.snd h
    have := outcome.error_of_none rfl rfl
    simp [herrors] at this
  · rw [hrun] at h outcome
    have hprogram : stmts = program := by simpa using congrArg Prod.fst h
    exact ⟨congrArg some hprogram, hprogram ▸ outcome.good_of_some stmts rfl⟩

end ConsoleScript
