import ConsoleScript.Proofs.Source.StatementRounds
import ConsoleScript.Proofs.Source.Tokens

/-!
# Parsing ends

Every source is parsed to its end, within the bound on nesting that its length gives, and no error
in it is lost.
-/

namespace ConsoleScript

/-! ## The tokens of a source -/

namespace TokenKind

theorem endsOnce_cons {k : TokenKind} {ks : List TokenKind} (hk : k ≠ .eof) (h : EndsOnce ks) :
    EndsOnce (k :: ks) := by
  cases ks with
  | nil => exact h.elim
  | cons k' ks => exact ⟨hk, h⟩

theorem EndsOnce.tail {k : TokenKind} {ks : List TokenKind} (h : EndsOnce (k :: ks))
    (hks : ks ≠ []) : EndsOnce ks := by
  cases ks with
  | nil => exact absurd rfl hks
  | cons k' ks => exact h.2

end TokenKind

theorem Token.Covers.ne_eof {kind : TokenKind} {literal lexeme : Text}
    (h : Covers kind literal lexeme) : kind ≠ .eof := by
  cases h with
  | spelled hkind =>
    rintro rfl
    exact hkind (by decide)
  | string => decide
  | tagString => decide

theorem Lexeme.scan_ne_eof (b : UInt8) (t : Text) : (scan b t).kind ≠ .eof := by
  by_cases herror : (scan b t).kind = .error
  · rw [herror]
    decide
  · obtain ⟨_, _, -, -, hcovers, -⟩ := scan_stands herror
    exact hcovers.ne_eof

theorem Cursor.tokens_endOnce (c : Cursor) : TokenKind.EndsOnce (c.tokens.map (·.kind)) := by
  fun_induction Cursor.tokens c with
  | case1 => rfl
  | case2 => rfl
  | case3 c b rest hstart hzero lexeme ih =>
    exact TokenKind.endsOnce_cons (Lexeme.scan_ne_eof b rest) ih

namespace Upcoming

theorem ofTokens_endOnce {ts : List Token} (h : TokenKind.EndsOnce (ts.map (·.kind))) :
    TokenKind.EndsOnce ((ofTokens ts).map (·.token.kind)) := by
  fun_induction ofTokens ts with
  | case1 => exact h
  | case2 t herror =>
    rw [beq_iff_eq] at herror
    exact absurd (herror.symm.trans h) (by decide)
  | case3 t herror u us ih =>
    cases us with
    | nil => exact h.2
    | cons v vs => exact TokenKind.endsOnce_cons h.2.1 (ih h.2.2)
  | case4 t ts herror ih =>
    cases ts with
    | nil => exact h
    | cons u us => exact TokenKind.endsOnce_cons h.1 (ih h.2)

theorem ofTokens_note {ts : List Token} (h : TokenKind.EndsOnce (ts.map (·.kind))) {t : Token}
    (ht : t ∈ ts) (herror : t.kind = .error) : (ofTokens ts).filterMap (·.note) ≠ [] := by
  fun_induction ofTokens ts with
  | case1 => cases ht
  | case2 u hu =>
    rw [beq_iff_eq] at hu
    exact absurd (hu.symm.trans h) (by decide)
  | case3 u hu v vs ih => simp
  | case4 u us hu ih =>
    obtain rfl | ht := List.mem_cons.mp ht
    · exact absurd (beq_iff_eq.mpr herror) hu
    · have hus : us.map (·.kind) ≠ [] := by simpa using List.ne_nil_of_mem ht
      simpa using ih (TokenKind.EndsOnce.tail h hus) ht

theorem ofTokens_shallow (ts : List Token) :
    ∀ u ∈ ofTokens ts, ∀ e ∈ u.note, e.cause ≠ .tooDeep := by
  fun_induction ofTokens ts with
  | case1 => simp
  | case2 => simp
  | case3 t herror u us ih => simpa using ih
  | case4 t ts herror ih => simpa using ih

end Upcoming

namespace ParseState

/-- The state in front of a source, none of whose tokens is in view. -/
def outside (source : Text) : ParseState :=
  ⟨⟨.eof, [], ⟨0, 1, 0⟩⟩, ⟨none, ⟨.eof, [], ⟨0, 1, 0⟩⟩⟩ :: Upcoming.ofTokens (Token.all source), []⟩

theorem start_eq (source : Text) :
    start source = (outside source).next.next ∧ (start source).EndsOnce := by
  have hends : TokenKind.EndsOnce ((Upcoming.ofTokens (Token.all source)).map (·.token.kind)) :=
    Upcoming.ofTokens_endOnce (Cursor.tokens_endOnce (Cursor.start source))
  rw [start, outside]
  cases htokens : Upcoming.ofTokens (Token.all source) with
  | nil =>
    rw [htokens] at hends
    exact hends.elim
  | cons u us =>
    rw [htokens] at hends
    exact ⟨rfl, hends⟩

theorem start_shallow (source : Text) : (start source).Shallow := by
  have hshallow := Upcoming.ofTokens_shallow (Token.all source)
  have houtside : (outside source).Shallow :=
    ⟨by simp [outside], List.forall_mem_cons.mpr ⟨by simp, hshallow⟩⟩
  rw [(start_eq source).1]
  exact houtside.next.next

theorem start_notes (source : Text) :
    ∀ e ∈ (Upcoming.ofTokens (Token.all source)).filterMap (·.note),
      e ∈ (start source).pending ∨ e ∈ (start source).errors := by
  rw [(start_eq source).1]
  exact ((leads_next (outside source)).trans (leads_next _)).notes

end ParseState

/-! ## Loops -/

namespace Parse

/-- The loops of the grammar. -/
inductive Loop where
  | program | package (name : Text) | block | caseBody | switchCases | caseValues | parameters
  | arguments | index | extraArguments | objectBody

namespace Loop

def Gathers : Loop → Type
  | program | package _ | block | caseBody => List Stmt
  | switchCases => List SwitchCase × Option (List Stmt)
  | parameters => List Text
  | index => Expr
  | caseValues | arguments | extraArguments => List Expr
  | objectBody => List FieldInit × List ObjectDecl

/-- The parser of a loop, which starts with what is gathered. -/
def parse : (l : Loop) → Nat → l.Gathers → Parse l.Gathers
  | program => programTail
  | package name => (packageTail · name)
  | block => blockTail
  | caseBody => Parse.caseBody
  | switchCases => fun n found => Parse.switchCases n found.1 found.2
  | caseValues => Parse.caseValues
  | parameters => Parse.parameters
  | arguments => argumentTail
  | index => indexTail
  | extraArguments => Parse.extraArguments
  | objectBody => fun n body => Parse.objectBody n body.1 body.2

def round : (l : Loop) → Nat → l.Gathers → Parse (Round l.Gathers)
  | program => programRound
  | package name => (packageRound · name)
  | block => blockRound
  | caseBody => caseRound
  | switchCases => switchRound
  | caseValues => valueRound
  | parameters => fun _ => parameterRound
  | arguments => argumentRound
  | index => indexRound
  | extraArguments => extraRound
  | objectBody => objectRound

theorem parse_succ (l : Loop) (n : Nat) (x : l.Gathers) :
    l.parse (n + 1) x = l.round n x >>= Round.follow (l.parse n) := by
  cases l with
  | program => exact programTail_succ n x
  | package name => exact packageTail_succ n name x
  | block => exact blockTail_succ n x
  | caseBody => exact caseBody_succ n x
  | switchCases => exact switchCases_succ n x
  | caseValues => exact caseValues_succ n x
  | parameters => exact parameters_succ n x
  | arguments => exact argumentTail_succ n x
  | index => exact indexTail_succ n x
  | extraArguments => exact extraArguments_succ n x
  | objectBody => exact objectBody_succ n x

/-- A round that another one follows has moved over a token. -/
theorem round_moves (l : Loop) (n : Nat) (x : l.Gathers) {s : ParseState} (hs : s.EndsOnce)
    {y : l.Gathers} {t : ParseState} (h : run (l.round n x) s = (some (.again y), t)) :
    t.rest.length < s.rest.length := by
  have hmoves {enough : Prop} {p' : Parse (Round l.Gathers)}
      (hdoes : Does enough .reported Round.isAgain (l.round n x) p' s) :
      t.rest.length < s.rest.length := by
    have hlt := hdoes.some_lt (.again y) (by rw [h]) rfl
    rwa [h] at hlt
  cases l with
  | program => exact hmoves (programRound_moves 0 n x s hs)
  | package name => exact hmoves (packageRound_moves 0 n name x s hs)
  | block => exact hmoves (blockRound_moves (stmt_parsers_move 0 n) x s hs)
  | caseBody => exact hmoves (caseRound_moves (stmt_parsers_move 0 n) x s hs)
  | switchCases => exact hmoves (switchRound_moves (stmt_parsers_move 0 n) x s hs)
  | caseValues => exact hmoves (valueRound_moves 0 n x s hs)
  | parameters => exact hmoves (@parameterRound_moves True x s hs)
  | arguments => exact hmoves (argumentRound_moves (expr_parsers_move 0 n) x s hs)
  | index => exact hmoves (indexRound_moves (expr_parsers_move 0 n) x s hs)
  | extraArguments => exact hmoves (extraRound_moves (expr_parsers_move 0 n) x s hs)
  | objectBody => exact hmoves (objectRound_moves (expr_parsers_move 0 n) x s hs)

end Loop

/-! ## Parsers of expressions -/

/-- The parsers of expressions and of their parts. -/
inductive ExprParser where
  | expression | ternary | binary (level : Nat) | binaryTail (level : Nat) (left : Expr) | unary
  | postfixTail (x : Expr) | bracketed | indexTail (index : Expr) | arguments
  | argumentTail (seen : List Expr) | primary | wordOrCall (t : Token)
  | objectDecl (pos : Position) (datablock : Bool) | extraArguments (seen : List Expr)
  | objectBody (fields : List FieldInit) (children : List ObjectDecl) | fieldInit

namespace ExprParser

def Result : ExprParser → Type
  | arguments | argumentTail _ | extraArguments _ => List Expr
  | objectDecl .. => ObjectDecl
  | objectBody .. => List FieldInit × List ObjectDecl
  | fieldInit => FieldInit
  | _ => Expr

def parse : (p : ExprParser) → Nat → Parse p.Result
  | expression => Parse.expression
  | ternary => Parse.ternary
  | binary level => (Parse.binary · level)
  | binaryTail level left => (Parse.binaryTail · level left)
  | unary => Parse.unary
  | postfixTail x => (Parse.postfixTail · x)
  | bracketed => Parse.bracketed
  | indexTail index => (Parse.indexTail · index)
  | arguments => Parse.arguments
  | argumentTail seen => (Parse.argumentTail · seen)
  | primary => Parse.primary
  | wordOrCall t => (Parse.wordOrCall · t)
  | objectDecl pos datablock => (Parse.objectDecl · pos datablock)
  | extraArguments seen => (Parse.extraArguments · seen)
  | objectBody fields children => (Parse.objectBody · fields children)
  | fieldInit => Parse.fieldInit

/-- Whatever token it starts at, an index gives up with an error. -/
private theorem does_bracketed (n : Nat) (s : ParseState) (hs : s.EndsOnce) :
    Does False .reported sometimes (Parse.bracketed n) (Parse.bracketed n) s := by
  cases n with
  | zero => exact .tooDeep id
  | succ n =>
    rw [Parse.bracketed]
    have hnext := s.leads_next.ends hs
    have hmove := expr_parsers_move 0 n
    refine .advance ((hmove.expression.from hnext False.elim).bind fun first t hst _ => ?_)
    have ht := hst.ends hnext
    refine ((hmove.indexTail first).from ht False.elim).bind fun index u htu _ => ?_
    exact (does_expect (htu.ends ht) (by decide)).bind fun _ _ _ _ => .pure rfl

/-- Whatever token they start at, arguments give up with an error. -/
private theorem does_arguments (n : Nat) (s : ParseState) (hs : s.EndsOnce) :
    Does False .reported sometimes (Parse.arguments n) (Parse.arguments n) s := by
  cases n with
  | zero => exact .tooDeep id
  | succ n =>
    rw [Parse.arguments]
    exact .advance (((expr_parsers_move 0 n).argumentTail []).from (s.leads_next.ends hs)
      False.elim)

theorem none_reported (p : ExprParser) (n : Nat) {s t : ParseState} (hs : s.EndsOnce)
    (h : run (p.parse n) s = (none, t)) : s.errors.length < t.errors.length := by
  have hreported {enough : Prop} {moves : p.Result → Bool} {p' : Parse p.Result}
      (hdoes : Does enough .reported moves (p.parse n) p' s) :
      s.errors.length < t.errors.length := by
    have hfits := hdoes.none_fits (by rw [h])
    rwa [h] at hfits
  have hmove := expr_parsers_move 0 n
  cases p with
  | expression => exact hreported (hmove.expression s hs)
  | ternary => exact hreported (hmove.ternary s hs)
  | binary level => exact hreported (hmove.binary level s hs)
  | binaryTail level left => exact hreported (hmove.binaryTail level left s hs)
  | unary => exact hreported (hmove.unary s hs)
  | postfixTail x => exact hreported (hmove.postfixTail x s hs)
  | bracketed => exact hreported (does_bracketed n s hs)
  | indexTail index => exact hreported (hmove.indexTail index s hs)
  | arguments => exact hreported (does_arguments n s hs)
  | argumentTail seen => exact hreported (hmove.argumentTail seen s hs)
  | primary => exact hreported (hmove.primary s hs)
  | wordOrCall t => exact hreported (hmove.wordOrCall t s hs)
  | objectDecl pos datablock => exact hreported (hmove.objectDecl pos datablock s hs)
  | extraArguments seen => exact hreported (hmove.extraArguments seen s hs)
  | objectBody fields children => exact hreported (hmove.objectBody fields children s hs)
  | fieldInit => exact hreported (hmove.fieldInit s hs)

end ExprParser

/-! ## Whole sources -/

theorem run_programPart (n : Nat) (k : TokenKind) (s : ParseState) :
    ∃ more t, run (programPart n k) s = (some more, t) := by
  unfold programPart
  split
  · exact ⟨_, _, rfl⟩
  · split <;> exact ⟨_, _, rfl⟩

/-- The loop over a source is left at its end, and there only. -/
theorem run_programRound (n : Nat) (seen : List Stmt) (s : ParseState) :
    (s.cur.kind = .eof ∧ run (programRound n seen) s = (some (.leave seen.reverse), s)) ∨
    ∃ more t, run (programRound n seen) s = (some (.again more), t) := by
  have hrun : run (programRound n seen) s = run (if s.cur.kind == .eof then _ else _) s := rfl
  by_cases heof : (s.cur.kind == .eof) = true
  · rw [if_pos heof] at hrun
    exact .inl ⟨beq_iff_eq.mp heof, hrun⟩
  · rw [if_neg heof] at hrun
    change _ = run (programPart n s.cur.kind >>= _) s at hrun
    obtain ⟨more, t, hpart⟩ := run_programPart n s.cur.kind s
    rw [run_bind, hpart] at hrun
    change _ = run (recoverBeyond s.errors.length >>= _) t at hrun
    rw [run_bind, run_recoverBeyond] at hrun
    exact .inr ⟨_, _, hrun⟩

/-- Sixteen levels of nesting for each token left are enough to get to the end of a source. -/
theorem programTail_ends (n : Nat) (seen : List Stmt) {s : ParseState} (hs : s.EndsOnce)
    (hn : 16 * s.rest.length + 7 ≤ n) :
    ∃ stmts t, run (programTail n seen) s = (some stmts, t) ∧ t.cur.kind = .eof := by
  induction n generalizing seen s with
  | zero => omega
  | succ n ih =>
    rw [programTail_succ, run_bind]
    obtain ⟨heof, hround⟩ | ⟨more, t, hround⟩ := run_programRound n seen s
    · rw [hround]
      exact ⟨_, s, rfl, heof⟩
    · have hlt := Loop.program.round_moves n seen hs hround
      have hleads := (programRound_moves 0 n seen s hs).leads
      rw [hround] at hleads ⊢
      exact ih more (hleads.ends hs) (by omega)

end Parse

namespace ParseState

/-- Every source is parsed to its end, however much more nesting than needed is allowed. -/
theorem programTail_start (source : Text) : ∃ stmts t,
    (∀ n, (start source).depth ≤ n →
      Parse.run (Parse.programTail n []) (start source) = (some stmts, t)) ∧
    t.cur.kind = .eof ∧ (start source).Leads t ∧ t.Shallow := by
  have hs := (start_eq source).2
  have hdepth : 16 * (start source).rest.length + 7 ≤ (start source).depth := by
    rw [depth]
    omega
  obtain ⟨stmts, t, hrun, heof⟩ := Parse.programTail_ends (start source).depth [] hs hdepth
  have hdoes (d : Nat) := Parse.programTail_moves d (start source).depth [] (start source) hs
  refine ⟨stmts, t, fun n hn => ?_, heof, ?_, ?_⟩
  · obtain ⟨d, rfl⟩ := Nat.exists_eq_add_of_le hn
    rw [((hdoes d).same hdepth).1, hrun]
  · have hleads := (hdoes 0).leads
    rwa [hrun] at hleads
  · have hshallow := ((hdoes 0).same hdepth).2 (start_shallow source)
    rwa [hrun] at hshallow

end ParseState

/-- Parsing ends, and no error is lost. Every source is parsed to its end, where no token is left,
without ever reaching a bound on nesting. In the states on the way the source has one end. There a
round of a loop moves over a token or is the last one, and a parser of expressions that gives up has
recorded an error. So has any source with an error token, for the first of those in each row. -/
theorem parseProgram_ends (source : Text) :
    (∃ stmts t, (∀ n, (ParseState.start source).depth ≤ n →
        Parse.run (Parse.programTail n []) (ParseState.start source) = (some stmts, t)) ∧
      t.cur.kind = .eof ∧ t.rest = [] ∧ parseProgram source = (stmts, t.report) ∧
      ∀ e ∈ (parseProgram source).2, e.cause ≠ .tooDeep) ∧
    ((ParseState.start source).EndsOnce ∧ ∀ s : ParseState, s.EndsOnce →
      s.next.EndsOnce ∧ s.recover.EndsOnce ∧ ∀ cause, (s.fail cause).EndsOnce) ∧
    (∀ (l : Parse.Loop) (n : Nat) (x : l.Gathers),
      l.parse (n + 1) x = l.round n x >>= Parse.Round.follow (l.parse n) ∧
      ∀ s : ParseState, s.EndsOnce → ∀ y t,
        Parse.run (l.round n x) s = (some (.again y), t) → t.rest.length < s.rest.length) ∧
    (∀ (p : Parse.ExprParser) (n : Nat) (s : ParseState), s.EndsOnce → ∀ t,
      Parse.run (p.parse n) s = (none, t) → s.errors.length < t.errors.length) ∧
    (∀ e ∈ (Upcoming.ofTokens (Token.all source)).filterMap (·.note),
      e ∈ (parseProgram source).2) ∧
    ((∃ t ∈ Token.all source, t.kind = .error) → (parseProgram source).2 ≠ []) := by
  obtain ⟨stmts, t, hrun, heof, hleads, hshallow⟩ := ParseState.programTail_start source
  have hparse : parseProgram source = (stmts, t.report) := by
    rw [parseProgram, hrun _ (Nat.le_refl _)]
    rfl
  have hstart := (ParseState.start_eq source).2
  have hrest : t.rest = [] := (hleads.ends hstart).rest_eq_nil heof
  have hshallow : ∀ e ∈ (parseProgram source).2, e.cause ≠ .tooDeep := by
    intro e he
    rw [hparse] at he
    exact hshallow.1 e (List.mem_reverse.mp he)
  have hnotes : ∀ e ∈ (Upcoming.ofTokens (Token.all source)).filterMap (·.note),
      e ∈ (parseProgram source).2 := by
    intro e he
    rw [hparse, ParseState.report, List.mem_reverse]
    obtain hpending | hstart := ParseState.start_notes source e he
    · refine (hleads.notes e hpending).resolve_left ?_
      simp [ParseState.pending, hrest]
    · exact hleads.errors.subset hstart
  refine ⟨⟨stmts, t, hrun, heof, hrest, hparse, hshallow⟩, ⟨hstart, fun s hs => ?_⟩,
    fun l n x => ⟨l.parse_succ n x, fun s hs y t => l.round_moves n x hs⟩,
    fun p n s hs t => p.none_reported n hs, hnotes, ?_⟩
  · exact ⟨s.leads_next.ends hs, s.leads_recover.ends hs, fun cause => (s.leads_fail cause).ends hs⟩
  · rintro ⟨u, hu, herror⟩
    have hends := Cursor.tokens_endOnce (Cursor.start source)
    obtain ⟨e, he⟩ := List.exists_mem_of_ne_nil _ (Upcoming.ofTokens_note hends hu herror)
    exact List.ne_nil_of_mem (hnotes e he)

end ConsoleScript
