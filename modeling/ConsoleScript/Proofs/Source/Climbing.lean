import ConsoleScript.Proofs.Source.Parsing

/-!
# Precedence climbing

Operands that are joined by binary operators are grouped in one way only: a left operand binds at
least as tight as its operator, and a right operand tighter. The parser of binary expressions finds
that grouping.

What an expression is written with and how it is grouped is read off the expression itself, by
`Expr.Reads` and `Expr.Grouped`. The trees of tokens in between, where operators of all sorts look the
same, serve to find the grouping.
-/

namespace ConsoleScript

/-! ## Expressions as they are written -/

def ArithOp.kind : ArithOp → TokenKind
  | .add => .plus
  | .sub => .minus
  | .mul => .star
  | .div => .slash

def WordOp.kind : WordOp → TokenKind
  | .mod => .percent
  | .bitAnd => .amp
  | .bitOr => .bar
  | .bitXor => .caret
  | .shl => .shl
  | .shr => .shr

def CompareOp.kind : CompareOp → TokenKind
  | .eq => .eq
  | .ne => .ne
  | .lt => .lt
  | .gt => .gt
  | .le => .le
  | .ge => .ge

def LogicOp.kind : LogicOp → TokenKind
  | .and => .andAnd
  | .or => .orOr

/-- The operator that joins texts with something between them. -/
def Separator.kind : Separator → TokenKind
  | .none => .at
  | .space => .kwSpc
  | .tab => .kwTab
  | .newline => .kwNl

namespace Expr

variable {e l r : Expr} {k : TokenKind} {pos : Position}

/-- The binary operator that is applied last, where it stands, and its operands. -/
def joined? : Expr → Option (TokenKind × Position × Expr × Expr)
  | arith pos op l r => some (op.kind, pos, l, r)
  | wordArith pos op l r => some (op.kind, pos, l, r)
  | compare pos op l r => some (op.kind, pos, l, r)
  | logic pos op l r => some (op.kind, pos, l, r)
  | textEq pos equal l r => some (if equal then .strEq else .strNe, pos, l, r)
  | concat pos l r separator => some (separator.kind, pos, l, r)
  | _ => none

/-- The tokens that an expression over variables is written with, from left to right. -/
inductive Reads : Expr → List Token → Prop
  | operand {x : Token} (named : x.kind ∈ [.localVar, .globalVar]) :
    Reads (.var x.pos x.literal none) [x]
  | joined {e l r : Expr} {op : Token} {ts us : List Token}
    (operator : e.joined? = some (op.kind, op.pos, l, r)) (left : Reads l ts) (right : Reads r us) :
    Reads e (ts ++ op :: us)

def level? (e : Expr) : Option Nat := e.joined?.bind fun (k, _) => k.precedence?

/-- Operators group by precedence, and equal ones to the left. -/
inductive Grouped : Expr → Prop
  | operand {e : Expr} (single : e.joined? = none) : Grouped e
  | joined {e l r : Expr} {k : TokenKind} {pos : Position} {level : Nat}
    (operator : e.joined? = some (k, pos, l, r)) (precedence : k.precedence? = some level)
    (looser : ∀ p ∈ l.level?, level ≤ p) (tighter : ∀ p ∈ r.level?, level < p)
    (left : Grouped l) (right : Grouped r) : Grouped e

theorem joined?_binary (h : k.precedence?.isSome) (pos : Position) (l r : Expr) :
    (binary k pos l r).joined? = some (k, pos, l, r) := by
  cases k <;> first | rfl | simp [TokenKind.precedence?] at h

theorem binary_of_joined? (h : e.joined? = some (k, pos, l, r)) :
    k.precedence?.isSome ∧ binary k pos l r = e := by
  cases e with
  | arith pos op l r | wordArith pos op l r | compare pos op l r | logic pos op l r =>
    cases op <;> cases h <;> exact ⟨rfl, rfl⟩
  | textEq pos equal l r => cases equal <;> cases h <;> exact ⟨rfl, rfl⟩
  | concat pos l r separator => cases separator <;> cases h <;> exact ⟨rfl, rfl⟩
  | _ => cases h

end Expr

/-! ## Trees of tokens -/

def Token.level (t : Token) : Nat := t.kind.precedence?.getD 0

theorem Token.level_of {t : Token} {p : Nat} (h : t.kind.precedence? = some p) : t.level = p := by
  rw [level, h, Option.getD_some]

inductive InfixTree where
  | operand (x : Token)
  | node (left : InfixTree) (op : Token) (right : InfixTree)

namespace InfixTree

/-- The tokens from left to right. -/
def reading : InfixTree → List Token
  | operand x => [x]
  | node l op r => l.reading ++ op :: r.reading

/-- How tight the outermost operator binds. -/
def level? : InfixTree → Option Nat
  | operand _ => none
  | node _ op _ => some op.level

/-- Operators group by precedence, and equal ones to the left. -/
def Grouped : InfixTree → Prop
  | operand _ => True
  | node l op r => (∀ p ∈ l.level?, op.level ≤ p) ∧ (∀ p ∈ r.level?, op.level < p) ∧
      l.Grouped ∧ r.Grouped

/-- The expression of a tree over variables. -/
def expr : InfixTree → Expr
  | operand x => .var x.pos x.literal none
  | node l op r => .binary op.kind op.pos l.expr r.expr

/-- Operands are variables, and operators have a precedence. -/
def WellFormed : InfixTree → Prop
  | operand x => x.kind ∈ [.localVar, .globalVar]
  | node l op r => op.kind.precedence?.isSome ∧ l.WellFormed ∧ r.WellFormed

/-! ### Trees and expressions -/

theorem reads_expr {t : InfixTree} (h : t.WellFormed) : t.expr.Reads t.reading := by
  induction t with
  | operand x => exact .operand h
  | node l op r ihl ihr =>
    obtain ⟨hop, hl, hr⟩ := h
    exact .joined (Expr.joined?_binary hop op.pos l.expr r.expr) (ihl hl) (ihr hr)

/-- Every expression over variables is the expression of a tree. -/
theorem exists_expr_eq {e : Expr} {ts : List Token} (h : e.Reads ts) :
    ∃ t : InfixTree, t.WellFormed ∧ t.expr = e ∧ t.reading = ts := by
  induction h with
  | @operand x hx => exact ⟨operand x, hx, rfl, rfl⟩
  | @joined e l r op ts us operator left right ihl ihr =>
    obtain ⟨tl, hl, rfl, rfl⟩ := ihl
    obtain ⟨tr, hr, rfl, rfl⟩ := ihr
    obtain ⟨hop, he⟩ := Expr.binary_of_joined? operator
    exact ⟨node tl op tr, ⟨hop, hl, hr⟩, he, rfl⟩

theorem level?_expr {t : InfixTree} (h : t.WellFormed) : t.expr.level? = t.level? := by
  cases t with
  | operand x => rfl
  | node l op r =>
    obtain ⟨p, hp⟩ := Option.isSome_iff_exists.mp h.1
    rw [expr, Expr.level?, Expr.joined?_binary h.1, level?, Token.level_of hp]
    exact hp

theorem grouped_expr {t : InfixTree} (h : t.WellFormed) : t.expr.Grouped ↔ t.Grouped := by
  induction t with
  | operand x => exact ⟨fun _ => trivial, fun _ => .operand rfl⟩
  | node l op r ihl ihr =>
    obtain ⟨hop, hl, hr⟩ := h
    have hjoined := Expr.joined?_binary hop op.pos l.expr r.expr
    constructor
    · intro hgrouped
      cases hgrouped with
      | operand single =>
        rw [expr, hjoined] at single
        cases single
      | joined operator precedence looser tighter left right =>
        rw [expr, hjoined] at operator
        cases operator
        rw [level?_expr hl] at looser
        rw [level?_expr hr] at tighter
        rw [Grouped, Token.level_of precedence]
        exact ⟨looser, tighter, (ihl hl).mp left, (ihr hr).mp right⟩
    · rintro ⟨looser, tighter, left, right⟩
      obtain ⟨p, hp⟩ := Option.isSome_iff_exists.mp hop
      rw [Token.level_of hp] at looser tighter
      refine .joined hjoined hp ?_ ?_ ((ihl hl).mpr left) ((ihr hr).mpr right)
      · rwa [level?_expr hl]
      · rwa [level?_expr hr]

/-! ## One grouping -/

def first : InfixTree → Token
  | operand x => x
  | node l _ _ => l.first

/-- The operators and the operands behind them. -/
def steps : InfixTree → List (Token × Token)
  | operand _ => []
  | node l op r => l.steps ++ (op, r.first) :: r.steps

/-- An operand, and operators and operands behind it. -/
def spell (x : Token) (steps : List (Token × Token)) : List Token :=
  x :: steps.flatMap fun s => [s.1, s.2]

theorem length_spell (x : Token) (steps : List (Token × Token)) :
    (spell x steps).length = 2 * steps.length + 1 := by
  induction steps with
  | nil => rfl
  | cons s steps ih =>
    simp only [spell, List.flatMap_cons, List.length_cons, List.length_append, List.length_nil]
      at ih ⊢
    omega

theorem reading_eq (t : InfixTree) : t.reading = spell t.first t.steps := by
  induction t with
  | operand x => rfl
  | node l op r ihl ihr => simp [reading, first, steps, spell, ihl, ihr]

theorem flatMap_steps_inj {steps steps' : List (Token × Token)}
    (h : (steps.flatMap fun s => [s.1, s.2]) = steps'.flatMap fun s => [s.1, s.2]) :
    steps = steps' := by
  induction steps generalizing steps' with
  | nil =>
    cases steps' with
    | nil => rfl
    | cons => cases h
  | cons s steps ih =>
    cases steps' with
    | nil => cases h
    | cons s' steps' =>
      simp only [List.flatMap_cons, List.cons_append, List.nil_append, List.cons.injEq] at h
      rw [ih h.2.2, Prod.ext h.1 h.2.1]

theorem Grouped.level_le {t : InfixTree} (h : t.Grouped) :
    ∀ p ∈ t.level?, ∀ s ∈ t.steps, p ≤ s.1.level := by
  induction t with
  | operand x => simp [level?]
  | node l op r ihl ihr =>
    obtain ⟨hl, hr, hgl, hgr⟩ := h
    rintro p ⟨⟩ s hs
    rw [steps, List.mem_append, List.mem_cons] at hs
    obtain hs | rfl | hs := hs
    · cases l with
      | operand => cases hs
      | node => exact Nat.le_trans (hl _ rfl) (ihl hgl _ rfl s hs)
    · exact Nat.le_refl _
    · cases r with
      | operand => cases hs
      | node => exact Nat.le_trans (Nat.le_of_lt (hr _ rfl)) (ihr hgr _ rfl s hs)

/-- To the left of the outermost operator nothing binds looser, and to the right everything binds
tighter. -/
theorem Grouped.around {l r : InfixTree} {op : Token} (h : (node l op r).Grouped) :
    (∀ s ∈ l.steps, op.level ≤ s.1.level) ∧ ∀ s ∈ r.steps, op.level < s.1.level := by
  obtain ⟨hl, hr, hgl, hgr⟩ := h
  constructor
  · intro s hs
    cases l with
    | operand => cases hs
    | node => exact Nat.le_trans (hl _ rfl) (hgl.level_le _ rfl s hs)
  · intro s hs
    cases r with
    | operand => cases hs
    | node => exact Nat.lt_of_lt_of_le (hr _ rfl) (hgr.level_le _ rfl s hs)

theorem split_unique {α : Type} (f : α → Nat) {a b : α} {l l' r r' : List α}
    (h : l ++ a :: r = l' ++ b :: r') (hl : ∀ c ∈ l, f a ≤ f c) (hr : ∀ c ∈ r, f a < f c)
    (hl' : ∀ c ∈ l', f b ≤ f c) (hr' : ∀ c ∈ r', f b < f c) : l = l' ∧ a = b ∧ r = r' := by
  obtain ⟨c, rfl, hc⟩ | ⟨c, rfl, hc⟩ := List.append_eq_append_iff.mp h
  · cases c with
    | nil => simpa using hc
    | cons c cs =>
      rw [List.cons_append, List.cons.injEq] at hc
      obtain ⟨rfl, rfl⟩ := hc
      have hle := hl' a (by simp)
      have hlt := hr b (by simp)
      omega
  · cases c with
    | nil =>
      obtain ⟨rfl, rfl⟩ := List.cons.inj hc
      simp
    | cons c cs =>
      rw [List.cons_append, List.cons.injEq] at hc
      obtain ⟨rfl, rfl⟩ := hc
      have hle := hl b (by simp)
      have hlt := hr' a (by simp)
      omega

theorem Grouped.unique {t t' : InfixTree} (h : t.Grouped) (h' : t'.Grouped)
    (hfirst : t.first = t'.first) (hsteps : t.steps = t'.steps) : t = t' := by
  induction t generalizing t' with
  | operand x =>
    cases t' with
    | operand y => exact congrArg operand hfirst
    | node => simp [steps] at hsteps
  | node l op r ihl ihr =>
    cases t' with
    | operand y => simp [steps] at hsteps
    | node l' op' r' =>
      obtain ⟨hleft, hright⟩ := h.around
      obtain ⟨hleft', hright'⟩ := h'.around
      obtain ⟨-, -, hgl, hgr⟩ := h
      obtain ⟨-, -, hgl', hgr'⟩ := h'
      obtain ⟨hl, hop, hr⟩ := split_unique (·.1.level) hsteps hleft hright hleft' hright'
      obtain ⟨rfl, hrfirst⟩ := Prod.mk.inj hop
      rw [ihl hgl hgl' hfirst hl, ihr hgr hgr' hrfirst hr]

/-- Another operator and operand behind a tree. -/
def graft (op x : Token) : InfixTree → InfixTree
  | operand y => node (operand y) op (operand x)
  | node l o r =>
    if op.level ≤ o.level then node (node l o r) op (operand x) else node l o (r.graft op x)

theorem graft_spec (op x : Token) {t : InfixTree} (h : t.Grouped) :
    (t.graft op x).first = t.first ∧ (t.graft op x).steps = t.steps ++ [(op, x)] ∧
    (t.graft op x).Grouped ∧ ∀ p ∈ (t.graft op x).level?, p = op.level ∨ p ∈ t.level? := by
  induction t with
  | operand y => simp [graft, first, steps, Grouped, level?]
  | node l o r ihl ihr =>
    obtain ⟨hl, hr, hgl, hgr⟩ := h
    rw [graft]
    split
    case isTrue hle =>
      refine ⟨rfl, rfl, ⟨?_, by simp [level?], ⟨hl, hr, hgl, hgr⟩, trivial⟩, ?_⟩
      · rintro p ⟨⟩
        exact hle
      · rintro p ⟨⟩
        exact .inl rfl
    case isFalse hlt =>
      obtain ⟨hfirst, hsteps, hgrouped, hlevel⟩ := ihr hgr
      refine ⟨rfl, by simp [steps, hfirst, hsteps], ⟨hl, ?_, hgl, hgrouped⟩, fun p hp => .inr hp⟩
      intro p hp
      obtain rfl | hp := hlevel p hp
      · exact Nat.lt_of_not_le hlt
      · exact hr p hp

theorem exists_grouped (more : List (Token × Token)) {t : InfixTree} (h : t.Grouped) :
    ∃ t' : InfixTree, t'.Grouped ∧ t'.first = t.first ∧ t'.steps = t.steps ++ more := by
  induction more generalizing t with
  | nil => exact ⟨t, h, rfl, (List.append_nil _).symm⟩
  | cons s more ih =>
    obtain ⟨hfirst, hsteps, hgrouped, -⟩ := graft_spec s.1 s.2 h
    obtain ⟨t', hgrouped', hfirst', hsteps'⟩ := ih hgrouped
    exact ⟨t', hgrouped', hfirst'.trans hfirst, by simp [hsteps', hsteps]⟩

theorem existsUnique_grouped (x : Token) (steps : List (Token × Token)) :
    ∃ t : InfixTree, t.first = x ∧ t.steps = steps ∧ t.Grouped ∧
      ∀ t' : InfixTree, t'.reading = t.reading → t'.Grouped → t' = t := by
  obtain ⟨t, hgrouped, hfirst, hsteps⟩ := exists_grouped steps (t := operand x) trivial
  refine ⟨t, hfirst, hsteps, hgrouped, fun t' hreading hgrouped' => ?_⟩
  rw [reading_eq, reading_eq, spell, spell, List.cons.injEq] at hreading
  exact hgrouped'.unique hgrouped hreading.1 (flatMap_steps_inj hreading.2)

end InfixTree

/-! ## The parser -/

/-- The state in front of tokens. -/
def ParseState.standing (us : List Upcoming) (errors : List ParseError) : ParseState :=
  match us with
  | [] => ⟨⟨.eof, [], ⟨0, 1, 0⟩⟩, [], errors⟩
  | u :: us => ⟨u.token, us, errors⟩

/-- Tokens without errors between them. -/
def Upcoming.quiet (ts : List Token) : List Upcoming := ts.map (⟨none, ·⟩)

/-- Does an operand end in front of the token, with a binary operator or a semicolon? -/
def TokenKind.joins (k : TokenKind) : Prop := k.precedence?.isSome ∨ k = .semicolon

namespace Parse

open ParseState Upcoming

variable {s : ParseState} {n : Nat}

theorem run_postfixTail_joins (hk : s.cur.kind.joins) (x : Expr) :
    run (postfixTail (n + 1) x) s = (some x, s) := by
  obtain ⟨⟨k, literal, pos⟩, rest, errors⟩ := s
  cases k <;> first | rfl | simp [TokenKind.joins, TokenKind.precedence?] at hk

theorem run_unary_variable (hx : s.cur.kind ∈ [.localVar, .globalVar]) (hk : s.next.cur.kind.joins) :
    run (unary (n + 2)) s = (some (.var s.cur.pos s.cur.literal none), s.next) := by
  have hstep : run (unary (n + 2)) s =
      run (postfixTail (n + 1) (.var s.cur.pos s.cur.literal none)) s.next := by
    obtain ⟨⟨k, literal, pos⟩, rest, errors⟩ := s
    simp only [List.mem_cons, List.not_mem_nil, or_false] at hx
    obtain rfl | rfl := hx <;> rfl
  rw [hstep]
  exact run_postfixTail_joins hk _

theorem run_cur_bind {α : Type} (f : Token → Parse α) (s : ParseState) :
    run (cur >>= f) s = run (f s.cur) s := rfl

theorem run_binaryTail_stop {level : Nat} (h : ∀ p ∈ s.cur.kind.precedence?, p ≤ level) (x : Expr) :
    run (binaryTail (n + 1) level x) s = (some x, s) := by
  rw [binaryTail, run_cur_bind]
  cases hp : s.cur.kind.precedence? with
  | none => rfl
  | some p =>
    dsimp only
    rw [if_pos (h p hp)]
    rfl

theorem run_binaryTail_step {level : Nat} {op : Token} (hcur : s.cur = op)
    (hop : op.kind.precedence?.isSome) (hlt : level < op.level) (x : Expr) :
    run (binaryTail (n + 1) level x) s = run (binary n op.level >>= fun right =>
      binaryTail n level (.binary op.kind op.pos x right)) s.next := by
  subst hcur
  obtain ⟨p, hp⟩ := Option.isSome_iff_exists.mp hop
  rw [Token.level_of hp] at hlt ⊢
  rw [binaryTail, run_cur_bind, hp]
  dsimp only
  rw [if_neg (Nat.not_le_of_lt hlt)]
  rfl

end Parse

namespace InfixTree

open Parse ParseState Upcoming

theorem wellFormed_of_steps {t : InfixTree} (hfirst : t.first.kind ∈ [.localVar, .globalVar])
    (hsteps : ∀ s ∈ t.steps, s.1.kind.precedence?.isSome ∧ s.2.kind ∈ [.localVar, .globalVar]) :
    t.WellFormed := by
  induction t with
  | operand x => exact hfirst
  | node l op r ihl ihr =>
    rw [steps, List.forall_mem_append, List.forall_mem_cons] at hsteps
    obtain ⟨hl, ⟨hop, hr⟩, hrs⟩ := hsteps
    exact ⟨hop, ihl hfirst hl, ihr hr hrs⟩

theorem next_quiet {u : Upcoming} (hu : u.note = none) (op : Token) {ts : List Token}
    (hts : ts ≠ []) (us : List Upcoming) (errors : List ParseError) :
    (standing (⟨none, op⟩ :: (quiet ts ++ u :: us)) errors).next
      = standing (quiet ts ++ u :: us) errors := by
  obtain ⟨note, token⟩ := u
  obtain rfl : note = none := hu
  match ts with
  | [_] => rfl
  | _ :: _ :: _ => rfl

/-- The tokens of a tree are parsed as the tree, in front of anything that binds no tighter than its
outermost operator. -/
theorem run_binary {t : InfixTree} (hgrouped : t.Grouped) (hformed : t.WellFormed) {level : Nat}
    (hlevel : ∀ p ∈ t.level?, level < p) {u : Upcoming} (hnote : u.note = none)
    (hjoins : u.token.kind.joins)
    (hu : ∀ p ∈ u.token.kind.precedence?, ∀ q ∈ t.level?, p ≤ q) (us : List Upcoming)
    (errors : List ParseError) {m n : Nat} (hn : 6 * t.steps.length + 4 + m ≤ n) :
    ∃ k, m ≤ k ∧ run (binary n level) (standing (quiet t.reading ++ u :: us) errors)
      = run (binaryTail k level t.expr) (standing (u :: us) (noted errors us.head?)) := by
  induction t generalizing level u us errors m n with
  | operand x =>
    obtain ⟨n, rfl⟩ : ∃ n', n = n' + 3 := ⟨n - 3, by omega⟩
    refine ⟨n + 2, by omega, ?_⟩
    have hunary : run (unary (n + 2)) (standing (quiet [x] ++ u :: us) errors)
        = (some (operand x).expr, standing (u :: us) (noted errors us.head?)) :=
      run_unary_variable hformed hjoins
    rw [binary, reading, run_bind, hunary]
  | node l op r ihl ihr =>
    obtain ⟨hl, hr, hgl, hgr⟩ := hgrouped
    obtain ⟨hop, hfl, hfr⟩ := hformed
    have hlt : level < op.level := hlevel _ rfl
    have hu : ∀ p ∈ u.token.kind.precedence?, p ≤ op.level := fun p hp => hu p hp _ rfl
    have hne : r.reading ≠ [] := by simp [reading_eq, spell]
    have hops : (node l op r).steps.length = l.steps.length + r.steps.length + 1 := by
      simp [steps]
      omega
    -- The left operand, in front of the operator.
    have hbehind : ∀ p ∈ op.kind.precedence?, ∀ q ∈ l.level?, p ≤ q := by
      intro p hp q hq
      have hle := hl q hq
      rwa [Token.level_of hp] at hle
    obtain ⟨k, hk, hleft⟩ := ihl hgl hfl (fun p hp => Nat.lt_of_lt_of_le hlt (hl p hp))
      (u := ⟨none, op⟩) rfl (.inl hop) hbehind (quiet r.reading ++ u :: us) errors
      (m := 6 * r.steps.length + 6 + m) (n := n) (by omega)
    have hquiet : noted errors (quiet r.reading ++ u :: us).head? = errors := by
      rw [reading_eq]
      rfl
    rw [hquiet] at hleft
    -- The right operand, in front of the rest.
    obtain ⟨k, rfl⟩ : ∃ k', k = k' + 1 := ⟨k - 1, by omega⟩
    obtain ⟨k', hk', hright⟩ := ihr hgr hfr hr hnote hjoins
      (fun p hp q hq => Nat.le_trans (hu p hp) (Nat.le_of_lt (hr q hq))) us errors (m := 1) (n := k)
      (by omega)
    obtain ⟨k', rfl⟩ : ∃ k'', k' = k'' + 1 := ⟨k' - 1, by omega⟩
    rw [run_binaryTail_stop hu] at hright
    refine ⟨k, by omega, ?_⟩
    have hreading : quiet (node l op r).reading ++ u :: us
        = quiet l.reading ++ ⟨none, op⟩ :: (quiet r.reading ++ u :: us) := by
      simp [reading, quiet]
    rw [hreading, hleft, run_binaryTail_step (show _ = op from rfl) hop hlt, next_quiet hnote op hne, run_bind, hright]
    rfl

end InfixTree

namespace Parse

open ParseState Upcoming InfixTree

theorem level_pos {t : Token} (h : t.kind.precedence?.isSome) : 0 < t.level := by
  rw [Token.level]
  cases hk : t.kind <;> first | exact Nat.succ_pos _ | simp [hk, TokenKind.precedence?] at h

/-- Precedence climbing. Variables that are joined by binary operators, in front of a semicolon, are
parsed up to the semicolon, as the one expression that reads like them and is grouped by precedence.
The parser records no error; an error token behind the semicolon comes into view there. -/
theorem binary_climbs (x : Token) (hx : x.kind ∈ [.localVar, .globalVar])
    (steps : List (Token × Token))
    (hsteps : ∀ s ∈ steps, s.1.kind.precedence?.isSome ∧ s.2.kind ∈ [.localVar, .globalVar])
    (stop : Token) (hstop : stop.kind = .semicolon) (more : List Upcoming)
    (errors : List ParseError) :
    ∃ e : Expr, e.Reads (spell x steps) ∧ e.Grouped ∧
      (∀ e' : Expr, e'.Reads (spell x steps) → e'.Grouped → e' = e) ∧
      let s := standing (quiet (spell x steps) ++ ⟨none, stop⟩ :: more) errors
      (∀ n, s.depth ≤ n →
        run (binary n 0) s = (some e, ⟨stop, more, noted errors more.head?⟩)) ∧
      ((∀ u ∈ more.head?, u.note = none) → noted errors more.head? = errors) := by
  obtain ⟨t, rfl, rfl, hgrouped, hunique⟩ := existsUnique_grouped x steps
  have hformed := wellFormed_of_steps hx hsteps
  rw [← reading_eq]
  refine ⟨t.expr, reads_expr hformed, (grouped_expr hformed).mpr hgrouped, fun e' hreads hgrouped' => ?_,
    fun n hn => ?_, fun hmore => ?_⟩
  · obtain ⟨t', hformed', rfl, hreading⟩ := exists_expr_eq hreads
    rw [hunique t' hreading ((grouped_expr hformed').mp hgrouped')]
  · have hlevel : ∀ p ∈ t.level?, 0 < p := by
      cases t with
      | operand => simp [level?]
      | node l op r =>
        rintro p ⟨⟩
        exact level_pos (hsteps (op, r.first) (by simp [InfixTree.steps])).1
    have hrest : t.steps.length ≤
        (standing (quiet t.reading ++ ⟨none, stop⟩ :: more) errors).rest.length := by
      have hlength := length_spell t.first t.steps
      rw [reading_eq, spell] at *
      simp only [quiet, List.map_cons, List.cons_append, standing, List.length_append,
        List.length_map, List.length_cons] at hlength ⊢
      omega
    have hn : 6 * t.steps.length + 4 + 1 ≤ n := by
      rw [depth] at hn
      omega
    obtain ⟨k, hk, hrun⟩ := run_binary hgrouped hformed hlevel
      (u := ⟨none, stop⟩) rfl (.inr hstop) (by simp [hstop, TokenKind.precedence?]) more errors hn
    obtain ⟨k, rfl⟩ : ∃ k', k = k' + 1 := ⟨k - 1, by omega⟩
    rw [hrun]
    exact run_binaryTail_stop (by simp [standing, hstop, TokenKind.precedence?]) _
  · cases hhead : more.head? with
    | none => rfl
    | some u =>
      obtain ⟨note, token⟩ := u
      obtain rfl : note = none := hmore _ hhead
      rfl

/-- A difference is grouped to the left, around a product. -/
theorem binary_climbs_difference :
    let sign (k : TokenKind) (n : Nat) : Token := ⟨k, k.name, ⟨n, 1, n⟩⟩
    let var (name : Text) (n : Nat) : Token := ⟨.localVar, name, ⟨n, 1, n⟩⟩
    run (binary 200 0) (standing (quiet [var "%a" 0, sign .minus 2, var "%b" 4,
      sign .star 6, var "%c" 8, sign .minus 10, var "%d" 12] ++
        [⟨none, sign .semicolon 14⟩]) [])
      = (some (.arith ⟨10, 1, 10⟩ .sub
          (.arith ⟨2, 1, 2⟩ .sub (.var ⟨0, 1, 0⟩ "%a" none)
            (.arith ⟨6, 1, 6⟩ .mul (.var ⟨4, 1, 4⟩ "%b" none) (.var ⟨8, 1, 8⟩ "%c" none)))
          (.var ⟨12, 1, 12⟩ "%d" none)),
        ⟨sign .semicolon 14, [], []⟩) := by
  intro sign var
  obtain ⟨e, -, -, hunique, hrun, -⟩ := binary_climbs (var "%a" 0) (by decide)
    [(sign .minus 2, var "%b" 4), (sign .star 6, var "%c" 8),
      (sign .minus 10, var "%d" 12)] (by decide) (sign .semicolon 14) rfl [] []
  let t : InfixTree := .node (.node (.operand (var "%a" 0)) (sign .minus 2)
    (.node (.operand (var "%b" 4)) (sign .star 6) (.operand (var "%c" 8))))
    (sign .minus 10) (.operand (var "%d" 12))
  have hformed : t.WellFormed := by simp [t, WellFormed, sign, var, TokenKind.precedence?]
  have hgrouped : t.Grouped := by simp [t, InfixTree.Grouped, InfixTree.level?]; decide
  have he := hunique t.expr (reads_expr hformed) ((grouped_expr hformed).mpr hgrouped)
  subst he
  exact hrun 200 (by decide)

end Parse

end ConsoleScript
