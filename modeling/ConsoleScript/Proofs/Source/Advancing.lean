import ConsoleScript.Proofs.Source.Parsing

/-!
# Parsers move on

The end of a source is its last token and is never left. On the way there a parser only moves
forward: it drops no error it has recorded, and it records every error token it moves over. A parser
that gives up has recorded an error, and one that gives a result has moved over a token. A bound on
nesting that is large enough for the tokens left changes nothing.
-/

namespace ConsoleScript

/-! ## States -/

/-- The last of the kinds, and only that one, is the end of the source. -/
def TokenKind.EndsOnce : List TokenKind → Prop
  | [] => False
  | [k] => k = .eof
  | k :: k' :: ks => k ≠ .eof ∧ EndsOnce (k' :: ks)

namespace ParseState

/-- The tokens from the current one on end as those of a source do. -/
def EndsOnce (s : ParseState) : Prop :=
  TokenKind.EndsOnce (s.cur.kind :: s.rest.map (·.token.kind))

def pending (s : ParseState) : List ParseError := s.rest.tail.filterMap (·.note)

def Shallow (s : ParseState) : Prop :=
  (∀ e ∈ s.errors, e.cause ≠ .tooDeep) ∧ ∀ u ∈ s.rest, ∀ e ∈ u.note, e.cause ≠ .tooDeep

/-- Parsing gets from one state to the other. -/
structure Leads (s t : ParseState) : Prop where
  ends : s.EndsOnce → t.EndsOnce
  le : t.rest.length ≤ s.rest.length
  stays : s.rest.length ≤ t.rest.length → t.cur = s.cur
  errors : s.errors <:+ t.errors
  notes : ∀ e ∈ s.pending, e ∈ t.pending ∨ e ∈ t.errors

theorem Leads.errors_le {s t : ParseState} (h : s.Leads t) : s.errors.length ≤ t.errors.length :=
  h.errors.length_le

theorem Leads.refl (s : ParseState) : s.Leads s :=
  ⟨id, Nat.le_refl _, fun _ => rfl, List.suffix_refl _, fun _ he => .inl he⟩

theorem Leads.trans {s t r : ParseState} (h : s.Leads t) (h' : t.Leads r) : s.Leads r where
  ends := h'.ends ∘ h.ends
  le := Nat.le_trans h'.le h.le
  stays hle := by
    have := h.le
    have := h'.le
    rw [h'.stays (by omega), h.stays (by omega)]
  errors := h.errors.trans h'.errors
  notes e he := by
    obtain hpending | herror := h.notes e he
    · exact h'.notes e hpending
    · exact .inr (h'.errors.subset herror)

theorem leads_fail (s : ParseState) (cause : ParseCause) : s.Leads (s.fail cause) :=
  ⟨id, Nat.le_refl _, fun _ => rfl, List.suffix_cons _ _, fun _ he => .inl he⟩

theorem suffix_noted (errors : List ParseError) (u : Option Upcoming) :
    errors <:+ noted errors u := by
  unfold noted
  split
  · exact List.suffix_cons _ _
  · exact List.suffix_refl _

/-- An error token is recorded when the token behind it comes into view. -/
theorem mem_noted {us : List Upcoming} {e : ParseError} (h : e ∈ us.filterMap (·.note))
    (errors : List ParseError) :
    e ∈ us.tail.filterMap (·.note) ∨ e ∈ noted errors us.head? := by
  cases us with
  | nil => cases h
  | cons u us =>
    obtain ⟨note, token⟩ := u
    cases note with
    | none => exact .inl (by simpa using h)
    | some e' =>
      obtain rfl | h : e = e' ∨ e ∈ us.filterMap (·.note) := by simpa using h
      · exact .inr (List.mem_cons_self ..)
      · exact .inl h

theorem leads_behind (cur : Token) (u : Upcoming) (us : List Upcoming)
    (errors : List ParseError) :
    Leads ⟨cur, u :: us, errors⟩ ⟨u.token, us, noted errors us.head?⟩ where
  ends h := h.2
  le := Nat.le_succ _
  stays h := absurd h (Nat.not_succ_le_self _)
  errors := suffix_noted errors us.head?
  notes _ he := mem_noted he errors

theorem leads_next (s : ParseState) : s.Leads s.next := by
  obtain ⟨cur, rest, errors⟩ := s
  cases rest with
  | nil => exact .refl _
  | cons u us => exact leads_behind cur u us errors

theorem leads_recoverFrom (rest : List Upcoming) (cur : Token) (errors : List ParseError) :
    Leads ⟨cur, rest, errors⟩ (recoverFrom cur errors rest) := by
  induction rest generalizing cur errors with
  | nil => exact .refl _
  | cons u us ih =>
    unfold recoverFrom
    split
    · exact .refl _
    · split
      · exact leads_behind cur u us errors
      · exact (leads_behind cur u us errors).trans (ih u.token _)

theorem leads_recover (s : ParseState) : s.Leads s.recover :=
  leads_recoverFrom s.rest s.cur s.errors

theorem EndsOnce.ne_nil {s : ParseState} (h : s.EndsOnce) (hkind : s.cur.kind ≠ .eof) :
    ∃ u us, s.rest = u :: us := by
  obtain ⟨cur, rest, errors⟩ := s
  cases rest with
  | nil => exact absurd h hkind
  | cons u us => exact ⟨u, us, rfl⟩

/-- A token that is not the end of the source is moved over. -/
theorem EndsOnce.next_lt {s : ParseState} (h : s.EndsOnce) (hkind : s.cur.kind ≠ .eof) :
    s.next.rest.length < s.rest.length := by
  obtain ⟨u, us, hrest⟩ := h.ne_nil hkind
  simp [next, hrest]

/-- In front of the end of the source or of a closing brace nothing is skipped, and anywhere else at
least the current token. -/
theorem EndsOnce.recover_lt {s : ParseState} (h : s.EndsOnce) (hkind : s.cur.kind ≠ .eof)
    (hbrace : s.cur.kind ≠ .rbrace) : s.recover.rest.length < s.rest.length := by
  obtain ⟨u, us, hrest⟩ := h.ne_nil hkind
  rw [recover, hrest, recoverFrom, if_neg (by simp [hkind, hbrace])]
  split
  · exact Nat.lt_succ_self _
  · exact Nat.lt_succ_of_le (leads_recoverFrom us u.token _).le

theorem EndsOnce.rest_eq_nil {s : ParseState} (h : s.EndsOnce) (hkind : s.cur.kind = .eof) :
    s.rest = [] := by
  obtain ⟨cur, rest, errors⟩ := s
  cases rest with
  | nil => rfl
  | cons u us => exact absurd hkind h.1

theorem Shallow.fail {s : ParseState} (h : s.Shallow) {cause : ParseCause}
    (hcause : cause ≠ .tooDeep) : (s.fail cause).Shallow :=
  ⟨List.forall_mem_cons.mpr ⟨hcause, h.1⟩, h.2⟩

theorem Shallow.behind {cur : Token} {u : Upcoming} {us : List Upcoming}
    {errors : List ParseError} (h : Shallow ⟨cur, u :: us, errors⟩) :
    Shallow ⟨u.token, us, noted errors us.head?⟩ := by
  have hus := (List.forall_mem_cons.mp h.2).2
  refine ⟨?_, hus⟩
  unfold noted
  split
  case h_1 e t hhead =>
    have hmem := List.mem_of_mem_head? (Option.mem_def.mpr hhead)
    exact List.forall_mem_cons.mpr ⟨hus _ hmem e rfl, h.1⟩
  case h_2 => exact h.1

theorem Shallow.next {s : ParseState} (h : s.Shallow) : s.next.Shallow := by
  obtain ⟨cur, rest, errors⟩ := s
  cases rest with
  | nil => exact h
  | cons u us => exact h.behind

theorem Shallow.recover {s : ParseState} (h : s.Shallow) : s.recover.Shallow := by
  obtain ⟨cur, rest, errors⟩ := s
  unfold ParseState.recover
  induction rest generalizing cur errors with
  | nil => exact h
  | cons u us ih =>
    dsimp only
    unfold recoverFrom
    split
    · exact h
    · split
      · exact h.behind
      · exact ih _ _ h.behind

end ParseState

/-! ## What a parser does -/

namespace Parse

variable {α β : Type}

inductive GivingUp where
  /-- With a new error. -/
  | reported
  /-- With a new error, or behind a token. -/
  | moved
  | free

/-- The parser gave up in the second state, and started in the first one. -/
def GivingUp.Fits : GivingUp → ParseState → ParseState → Prop
  | .reported, s, t => s.errors.length < t.errors.length
  | .moved, s, t => s.errors.length < t.errors.length ∨ t.rest.length < s.rest.length
  | .free, _, _ => True

theorem GivingUp.Fits.of_reported {g : GivingUp} {s t : ParseState}
    (h : GivingUp.reported.Fits s t) : g.Fits s t := by
  cases g with
  | reported => exact h
  | moved => exact .inl h
  | free => trivial

theorem GivingUp.Fits.trans {g : GivingUp} {s t r : ParseState} (h : s.Leads t)
    (h' : g.Fits t r) : g.Fits s r := by
  have herrors := h.errors_le
  have hrest := h.le
  cases g with
  | reported => exact Nat.lt_of_le_of_lt herrors h'
  | moved => exact h'.imp (Nat.lt_of_le_of_lt herrors) fun hlt => Nat.lt_of_lt_of_le hlt hrest
  | free => trivial

/-- What a parser does from a state. It gives up as it may, and the results in question come with a
token that was moved over. Where the nesting allowed is `enough`, the parser with more of it does
the same, and no nesting is too deep. -/
structure Does (enough : Prop) (g : GivingUp) (moves : α → Bool) (p p' : Parse α)
    (s : ParseState) : Prop where
  leads : s.Leads (run p s).2
  some_lt : ∀ a, (run p s).1 = some a → moves a = true →
    (run p s).2.rest.length < s.rest.length
  none_fits : (run p s).1 = none → g.Fits s (run p s).2
  same : enough → run p' s = run p s ∧ (s.Shallow → (run p s).2.Shallow)

/-- The parser moves over a token whenever it gives a result. -/
abbrev always : α → Bool := fun _ => true

/-- The parser need not move over a token. -/
abbrev sometimes : α → Bool := fun _ => false

namespace Does

variable {enough enough' : Prop} {g : GivingUp} {moves : α → Bool} {after : β → Bool}
  {p p' : Parse α} {f f' : α → Parse β} {s : ParseState}

theorem mono (h : Does enough' g moves p p' s) (henough : enough → enough') :
    Does enough g moves p p' s :=
  { h with same := h.same ∘ henough }

theorem weaken (h : Does enough .reported moves p p' s) : Does enough g moves p p' s :=
  { h with none_fits := fun hnone => .of_reported (h.none_fits hnone) }

theorem anyway (h : Does enough g moves p p' s) : Does enough g sometimes p p' s :=
  { h with some_lt := fun _ _ hmoves => by cases hmoves }

theorem pure {a : α} (ha : moves a = false) : Does enough g moves (pure a) (pure a) s where
  leads := .refl s
  some_lt := by
    rintro b ⟨⟩ hb
    rw [ha] at hb
    cases hb
  none_fits h := by cases h
  same _ := ⟨rfl, id⟩

theorem failure : Does enough .free moves (failure : Parse α) failure s where
  leads := .refl s
  some_lt _ h := by cases h
  none_fits _ := trivial
  same _ := ⟨rfl, id⟩

theorem giveUp (cause : ParseCause) (hcause : cause ≠ .tooDeep) :
    Does enough g moves (giveUp cause : Parse α) (Parse.giveUp cause) s :=
  weaken {
    leads := s.leads_fail cause
    some_lt := fun _ h => by cases h
    none_fits := fun _ => Nat.lt_succ_self _
    same := fun _ => ⟨rfl, fun hs => hs.fail hcause⟩ }

/-- Without any nesting allowed a parser gives up. -/
theorem tooDeep (hnot : ¬enough) :
    Does enough g moves (Parse.giveUp .tooDeep : Parse α) p' s :=
  weaken {
    leads := s.leads_fail .tooDeep
    some_lt := fun _ h => by cases h
    none_fits := fun _ => Nat.lt_succ_self _
    same := fun h => absurd h hnot }

theorem ite {c : Prop} [Decidable c] {q q' : Parse α} (hp : c → Does enough g moves p p' s)
    (hq : ¬c → Does enough g moves q q' s) :
    Does enough g moves (if c then p else q) (if c then p' else q') s := by
  split
  · exact hp ‹_›
  · exact hq ‹_›

/-- What a parser does from a later state it does from an earlier one, too. -/
theorem behind {t : ParseState} (h : Does enough g moves p p' t) (hst : s.Leads t)
    (hshallow : enough → s.Shallow → t.Shallow) {q q' : Parse α} (hq : run q s = run p t)
    (hq' : enough → run q' s = run p' t) : Does enough g moves q q' s where
  leads := by
    rw [hq]
    exact hst.trans h.leads
  some_lt a ha hmoves := by
    rw [hq] at ha ⊢
    exact Nat.lt_of_lt_of_le (h.some_lt a ha hmoves) hst.le
  none_fits hnone := by
    rw [hq] at hnone ⊢
    exact (h.none_fits hnone).trans hst
  same henough := by
    rw [hq, hq' henough]
    exact (h.same henough).imp_right (· ∘ hshallow henough)

/-- All results come behind a token if the later state is. -/
theorem moved {t : ParseState} (h : Does enough g sometimes p p' t) (hst : s.Leads t)
    (hlt : t.rest.length < s.rest.length) (hshallow : enough → s.Shallow → t.Shallow)
    {q q' : Parse α} (hq : run q s = run p t) (hq' : enough → run q' s = run p' t) :
    Does enough g moves q q' s :=
  { h.behind hst hshallow hq hq' with
    some_lt := fun a ha _ => by
      rw [hq]
      exact Nat.lt_of_le_of_lt h.leads.le hlt }

theorem noticed {t : ParseState} (h : Does enough .free moves p p' t) (hst : s.Leads t)
    (hlt : s.errors.length < t.errors.length) (hshallow : enough → s.Shallow → t.Shallow)
    {q q' : Parse α} (hq : run q s = run p t) (hq' : enough → run q' s = run p' t) :
    Does enough g moves q q' s :=
  { h.behind hst hshallow hq hq' with
    none_fits := fun _ => .of_reported <| by
      rw [hq]
      exact Nat.lt_of_lt_of_le hlt h.leads.errors_le }

theorem giveUpExpected (what : Text) :
    Does enough g moves (giveUpExpected what : Parse α) (Parse.giveUpExpected what) s :=
  (giveUp (.expected what s.cur) (by simp)).behind (.refl s) (fun _ => id) rfl fun _ => rfl

/-- What follows a parser that gave a result. -/
theorem run_bind_some {a : α} (h : (run p s).1 = some a) :
    run (p >>= f) s = run (f a) (run p s).2 := by
  rw [run_bind, show run p s = (some a, (run p s).2) from Prod.ext h rfl]

theorem run_bind_none (h : (run p s).1 = none) :
    run (p >>= f) s = (none, (run p s).2) := by
  rw [run_bind, show run p s = (none, (run p s).2) from Prod.ext h rfl]

theorem bind_none (hp : Does enough .reported moves p p' s) (hnone : (run p s).1 = none) :
    Does enough g after (p >>= f) (p' >>= f') s := by
  have hfits := hp.none_fits hnone
  have hrun (f : α → Parse β) : run (p >>= f) s = (none, (run p s).2) := run_bind_none hnone
  refine weaken ⟨?_, ?_, ?_, ?_⟩
  · rw [hrun]
    exact hp.leads
  · intro b hb
    rw [hrun] at hb
    cases hb
  · intro _
    rw [hrun]
    exact hfits
  · intro henough
    obtain ⟨hsame, hshallow⟩ := hp.same henough
    have hrun' : run (p' >>= f') s = (none, (run p' s).2) := by
      rw [run_bind_none (by rw [hsame, hnone])]
    rw [hrun, hrun', hsame]
    exact ⟨rfl, hshallow⟩

theorem bind (hp : Does enough .reported moves p p' s)
    (hf : ∀ a t, s.Leads t → (moves a = true → t.rest.length < s.rest.length) →
      Does enough g after (f a) (f' a) t) : Does enough g after (p >>= f) (p' >>= f') s := by
  cases hresult : (run p s).1 with
  | none => exact hp.bind_none hresult
  | some a =>
    have hrest := hf a (run p s).2 hp.leads (hp.some_lt a hresult)
    refine hrest.behind hp.leads (fun h => (hp.same h).2) (run_bind_some hresult) fun h => ?_
    have hsame := (hp.same h).1
    rw [run_bind_some (by rw [hsame, hresult]), hsame]

/-- One parser after another that moved over a token. -/
theorem bind_moved (hp : Does enough .reported always p p' s)
    (hf : ∀ a t, s.Leads t → t.rest.length < s.rest.length →
      Does enough g sometimes (f a) (f' a) t) : Does enough g after (p >>= f) (p' >>= f') s := by
  cases hresult : (run p s).1 with
  | none => exact hp.bind_none hresult
  | some a =>
    have hlt := hp.some_lt a hresult rfl
    have hrest := hf a (run p s).2 hp.leads hlt
    refine hrest.moved hp.leads hlt (fun h => (hp.same h).2) (run_bind_some hresult) fun h => ?_
    have hsame := (hp.same h).1
    rw [run_bind_some (by rw [hsame, hresult]), hsame]

/-- A parser that may give up, and what follows in both cases. -/
theorem attempt_bind {f f' : Option α → Parse β} {g' : GivingUp}
    (hp : Does enough g' moves p p' s)
    (hsome : ∀ a t, s.Leads t → (moves a = true → t.rest.length < s.rest.length) →
      Does enough g after (f (some a)) (f' (some a)) t)
    (hnone : ∀ t, s.Leads t → g'.Fits s t → Does enough g after (f none) (f' none) t) :
    Does enough g after (attempt p >>= f) (attempt p' >>= f') s := by
  have hrest : Does enough g after (f (run p s).1) (f' (run p s).1) (run p s).2 := by
    cases hresult : (run p s).1 with
    | none => exact hnone _ hp.leads (hp.none_fits hresult)
    | some a => exact hsome a _ hp.leads (hp.some_lt a hresult)
  refine hrest.behind hp.leads (fun h => (hp.same h).2) rfl fun h => ?_
  show run (f' (run p' s).1) (run p' s).2 = _
  rw [(hp.same h).1]

theorem attempted {g' : GivingUp} (hp : Does enough g' moves p p' s) :
    Does enough g sometimes (attempt p) (attempt p') s :=
  hp.attempt_bind (fun _ _ _ _ => .pure rfl) fun _ _ _ => .pure rfl

/-- What follows an attempt that failed may give up, because the error is on record. -/
theorem attempt_reported {f f' : Option α → Parse β} (hp : Does enough .reported moves p p' s)
    (hsome : ∀ a t, s.Leads t → (moves a = true → t.rest.length < s.rest.length) →
      Does enough g after (f (some a)) (f' (some a)) t)
    (hnone : ∀ t, s.Leads t → Does enough .free after (f none) (f' none) t) :
    Does enough g after (attempt p >>= f) (attempt p' >>= f') s := by
  have hrun (henough : enough) :
      run (attempt p' >>= f') s = run (f' (run p s).1) (run p s).2 := by
    show run (f' (run p' s).1) (run p' s).2 = _
    rw [(hp.same henough).1]
  cases hresult : (run p s).1 with
  | none =>
    rw [hresult] at hrun
    exact (hnone _ hp.leads).noticed hp.leads (hp.none_fits hresult) (fun h => (hp.same h).2)
      (congrArg (fun x => run (f x) (run p s).2) hresult) hrun
  | some a =>
    rw [hresult] at hrun
    exact (hsome a _ hp.leads (hp.some_lt a hresult)).behind hp.leads (fun h => (hp.same h).2)
      (congrArg (fun x => run (f x) (run p s).2) hresult) hrun

/-- A parser that gives a result or gives up behind a token, or else gives up with an error. -/
theorem attempt_moved {f f' : Option α → Parse β} (hp : Does enough .moved always p p' s)
    (hmoved : ∀ x t, s.Leads t → t.rest.length < s.rest.length →
      Does enough g sometimes (f x) (f' x) t)
    (hstuck : ∀ t, s.Leads t → t.cur = s.cur → s.errors.length < t.errors.length →
      Does enough g after (f none) (f' none) t) :
    Does enough g after (attempt p >>= f) (attempt p' >>= f') s := by
  have hshallow : enough → s.Shallow → (run p s).2.Shallow := fun h => (hp.same h).2
  have hrun : run (attempt p >>= f) s = run (f (run p s).1) (run p s).2 := rfl
  have hrun' (henough : enough) :
      run (attempt p' >>= f') s = run (f' (run p s).1) (run p s).2 := by
    show run (f' (run p' s).1) (run p' s).2 = _
    rw [(hp.same henough).1]
  by_cases hlt : (run p s).2.rest.length < s.rest.length
  · exact (hmoved _ _ hp.leads hlt).moved hp.leads hlt hshallow hrun hrun'
  · cases hresult : (run p s).1 with
    | some a => exact absurd (hp.some_lt a hresult rfl) hlt
    | none =>
      have herrors := (hp.none_fits hresult).resolve_right hlt
      have hcur := hp.leads.stays (Nat.le_of_not_lt hlt)
      rw [hresult] at hrun hrun'
      exact (hstuck _ hp.leads hcur herrors).behind hp.leads hshallow hrun hrun'

section administration

theorem cur {f f' : Token → Parse β} (h : Does enough g after (f s.cur) (f' s.cur) s) :
    Does enough g after (cur >>= f) (Parse.cur >>= f') s :=
  h.behind (.refl s) (fun _ => id) rfl fun _ => rfl

theorem kind {f f' : TokenKind → Parse β}
    (h : Does enough g after (f s.cur.kind) (f' s.cur.kind) s) :
    Does enough g after (kind >>= f) (Parse.kind >>= f') s :=
  h.behind (.refl s) (fun _ => id) rfl fun _ => rfl

theorem get {f f' : ParseState → Parse β} (h : Does enough g after (f s) (f' s) s) :
    Does enough g after (get >>= f) (MonadState.get >>= f') s :=
  h.behind (.refl s) (fun _ => id) rfl fun _ => rfl

theorem errorCount {f f' : Nat → Parse β}
    (h : Does enough g after (f s.errors.length) (f' s.errors.length) s) :
    Does enough g after (errorCount >>= f) (Parse.errorCount >>= f') s :=
  h.behind (.refl s) (fun _ => id) rfl fun _ => rfl

theorem at? (k : TokenKind) {f f' : Bool → Parse β}
    (h : Does enough g after (f (s.at? k)) (f' (s.at? k)) s) :
    Does enough g after (at? k >>= f) (Parse.at? k >>= f') s :=
  h.behind (.refl s) (fun _ => id) rfl fun _ => rfl

theorem complain {cause : ParseCause} (hcause : cause ≠ .tooDeep) {f f' : Unit → Parse β}
    (h : Does enough .free after (f ()) (f' ()) (s.fail cause)) :
    Does enough g after (complain cause >>= f) (Parse.complain cause >>= f') s :=
  h.noticed (s.leads_fail cause) (Nat.lt_succ_self _) (fun _ hs => hs.fail hcause) rfl fun _ => rfl

theorem advance {f f' : Unit → Parse β} (h : Does enough g after (f ()) (f' ()) s.next) :
    Does enough g after (advance >>= f) (Parse.advance >>= f') s :=
  h.behind s.leads_next (fun _ hs => hs.next) rfl fun _ => rfl

theorem advance_moved {f f' : Unit → Parse β} (hs : s.EndsOnce) (hkind : s.cur.kind ≠ .eof)
    (h : Does enough g sometimes (f ()) (f' ()) s.next) :
    Does enough g after (Parse.advance >>= f) (Parse.advance >>= f') s :=
  h.moved s.leads_next (hs.next_lt hkind) (fun _ hs => hs.next) rfl fun _ => rfl

/-- Giving up is fine behind a token. -/
theorem advance_past {f f' : Unit → Parse β} (hs : s.EndsOnce) (hkind : s.cur.kind ≠ .eof)
    (h : Does enough .free sometimes (f ()) (f' ()) s.next) :
    Does enough .moved after (Parse.advance >>= f) (Parse.advance >>= f') s where
  leads := s.leads_next.trans h.leads
  some_lt _ _ _ := Nat.lt_of_le_of_lt h.leads.le (hs.next_lt hkind)
  none_fits _ := .inr (Nat.lt_of_le_of_lt h.leads.le (hs.next_lt hkind))
  same henough := (h.same henough).imp_right fun hshallow hs => hshallow hs.next

end administration
end Does

/-! ## Words and signs -/

section words

variable {enough : Prop} {g : GivingUp} {after : β → Bool} {s : ParseState}

theorem run_accept (k : TokenKind) (s : ParseState) : run (accept k) s =
    if s.at? k then (some true, s.next) else (some false, s.fail (.expected k.name s.cur)) := by
  change run (if s.at? k = true then _ else _) s = _
  split <;> rfl

theorem does_accept (k : TokenKind) :
    Does enough .reported sometimes (accept k) (accept k) s where
  leads := by
    rw [run_accept]
    split
    · exact s.leads_next
    · exact s.leads_fail _
  some_lt _ _ h := by cases h
  none_fits h := by
    rw [run_accept] at h
    split at h <;> cases h
  same _ := by
    rw [run_accept]
    refine ⟨rfl, fun hs => ?_⟩
    split
    · exact hs.next
    · exact hs.fail (by simp)

theorem ne_eof_of_at {k : TokenKind} (h : s.at? k = true) (hk : k ≠ .eof) : s.cur.kind ≠ .eof := by
  rw [beq_iff_eq.mp h]
  exact hk

theorem does_expect (hs : s.EndsOnce) {k : TokenKind} (hk : k ≠ .eof) :
    Does enough .reported always (expect k) (expect k) s := by
  have hrun : run (expect k) s =
      if s.at? k then (some (), s.next) else (none, s.fail (.expected k.name s.cur)) := by
    rw [expect, run_bind, run_accept]
    cases s.at? k <;> rfl
  have hdone : Does enough .reported sometimes (pure () : Parse Unit) (pure ()) s.next := .pure rfl
  cases hat : s.at? k with
  | true =>
    rw [hat, if_pos rfl] at hrun
    exact hdone.moved s.leads_next (hs.next_lt (ne_eof_of_at hat hk)) (fun _ h => h.next) hrun
      fun _ => hrun
  | false =>
    rw [hat, if_neg Bool.false_ne_true] at hrun
    exact (Does.giveUp (.expected k.name s.cur) (by simp)).behind (.refl s) (fun _ => id) hrun
      fun _ => hrun

theorem does_ident (hs : s.EndsOnce) (what : Text) :
    Does enough .reported always (ident what) (ident what) s := by
  refine .cur (.ite (fun h => ?_) fun _ => .giveUpExpected what)
  refine .advance_moved hs ?_ (.pure rfl)
  rw [beq_iff_eq.mp h]
  decide

theorem does_fieldName (hs : s.EndsOnce) (what : Text) {f f' : Text → Parse β}
    (h : ∀ name, s.next.rest.length < s.rest.length →
      Does enough g sometimes (f name) (f' name) s.next) :
    Does enough g after (fieldName what >>= fun name => advance >>= fun _ => f name)
      (fieldName what >>= fun name => advance >>= fun _ => f' name) s := by
  have hrun : run (fieldName what) s = if s.cur.kind == .ident || s.cur.kind.isWord then
      (some s.cur.literal, s) else run (giveUpExpected what) s := by
    change run (if _ then _ else _) s = _
    split <;> rfl
  split at hrun
  case isTrue hname =>
    have hkind : s.cur.kind ≠ .eof := by
      intro heof
      rw [heof] at hname
      exact absurd hname (by decide)
    have hrun (f : Text → Parse β) : run (fieldName what >>= fun name => advance >>= fun _ => f name) s
        = run (advance >>= fun _ => f s.cur.literal) s := by
      rw [run_bind, hrun]
    exact (Does.advance_moved hs hkind (h s.cur.literal (hs.next_lt hkind))).behind (.refl s) (fun _ => id) (hrun f)
      fun _ => hrun f'
  case isFalse =>
    have hrun (f : Text → Parse β) : run (fieldName what >>= fun name => advance >>= fun _ => f name) s
        = run (giveUpExpected what) s := by
      rw [run_bind, hrun]
      rfl
    exact (Does.giveUpExpected what).behind (.refl s) (fun _ => id) (hrun f) fun _ => hrun f'

theorem does_orGiveUp (cause : ParseCause) (hcause : cause ≠ .tooDeep) (x : Option α) :
    Does enough .reported sometimes (orGiveUp cause x) (orGiveUp cause x) s := by
  cases x with
  | none => exact .giveUp cause hcause
  | some a => exact .pure rfl

theorem does_skip (k : TokenKind) :
    Does enough .reported sometimes (skip? k) (skip? k) s := by
  refine .at? k (.ite (fun _ => ?_) fun _ => .pure rfl)
  have hnext : Does enough .reported sometimes (pure () : Parse Unit) (pure ()) s.next := .pure rfl
  exact hnext.behind s.leads_next (fun _ hs => hs.next) rfl fun _ => rfl

end words

/-! ## Loops -/

/-- What a round of a loop ends with. -/
inductive Round (α : Type) where
  /-- Another round follows, with this much gathered. -/
  | again (x : α)
  /-- The loop is left with a result. -/
  | leave (x : α)

namespace Round

def isAgain : Round α → Bool
  | again _ => true
  | leave _ => false

def follow (next : α → Parse α) : Round α → Parse α
  | again x => next x
  | leave x => pure x

end Round

/-- Rounds that go on only behind a token make a loop. -/
theorem Does.follow {enough : Prop} {p p' : Parse (Round α)} {next next' : α → Parse α}
    {s : ParseState} (hp : Does enough .reported Round.isAgain p p' s)
    (hnext : ∀ x t, s.Leads t → t.rest.length < s.rest.length →
      Does enough .reported sometimes (next x) (next' x) t) :
    Does enough .reported sometimes (p >>= Round.follow next) (p' >>= Round.follow next') s := by
  refine hp.bind fun round t hst hlt => ?_
  cases round with
  | again x => exact hnext x t hst (hlt rfl)
  | leave x => exact .pure rfl

theorem ite_bind (c : Prop) [Decidable c] (p q : Parse α) (f : α → Parse β) :
    (if c then p else q) >>= f = if c then p >>= f else q >>= f := by
  split <;> rfl

/-! ## Bounds on nesting -/

/-- The parser allowed `n` levels of nesting does what it does with `d` more, when there are `room`
levels and sixteen more for every token left. -/
def Within (d n room : Nat) (moves : α → Bool) (p : Nat → Parse α) : Prop :=
  ∀ s : ParseState, s.EndsOnce →
    Does (16 * s.rest.length + room ≤ n) .reported moves (p n) (p (n + d)) s

section within

variable {enough : Prop} {g : GivingUp} {d n room : Nat} {moves : α → Bool} {p : Nat → Parse α}

theorem Within.from (h : Within d n room moves p) {t : ParseState} (ht : t.EndsOnce)
    (hroom : enough → 16 * t.rest.length + room ≤ n) :
    Does enough .reported moves (p n) (p (n + d)) t :=
  (h t ht).mono hroom

theorem Within.succ (h : ∀ s : ParseState, s.EndsOnce →
    Does (16 * s.rest.length + room ≤ n + 1) .reported moves (p (n + 1)) (p (n + d + 1)) s) :
    Within d (n + 1) room moves p := by
  intro s hs
  rw [Nat.succ_add]
  exact h s hs

theorem Within.zero (hroom : 0 < room) (hp : p 0 = giveUp .tooDeep) : Within d 0 room moves p := by
  intro s _
  rw [hp]
  exact .tooDeep (by omega)

end within

end Parse
end ConsoleScript
