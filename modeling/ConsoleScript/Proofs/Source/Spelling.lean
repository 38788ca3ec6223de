import ConsoleScript.Source.Parser.Stmt

/-!
# Spelled identifiers and numbers

A tree is spelled when none of its identifiers is empty and its whole numbers are among those that may
stand in it. The tokens that identifiers are taken from are never empty, numbers are read off tokens
too, and moving over tokens keeps all that.
-/

namespace ConsoleScript

/-! ## Spelled trees -/

namespace Expr

variable (num : Int → Prop)

mutual

/-- Every identifier in the expression is spelled, and every whole number is one of `num`. -/
def Named : Expr → Prop
  | int _ v => num v
  | float .. | str .. | word .. => True
  | var _ name index => name ≠ [] ∧ (match index with
    | none => True
    | some i => Named i)
  | assign _ name index value => name ≠ [] ∧ Named value ∧ (match index with
    | none => True
    | some i => Named i)
  | update _ name index _ value => name ≠ [] ∧ Named value ∧ (match index with
    | none => True
    | some i => Named i)
  | arith _ _ left right | wordArith _ _ left right | compare _ _ left right
  | logic _ _ left right | textEq _ _ left right | concat _ left right _
  | indexPair _ left right => Named left ∧ Named right
  | unary _ _ x => Named x
  | cond _ test whenTrue whenFalse => Named test ∧ Named whenTrue ∧ Named whenFalse
  | call _ name ns _ args => name ≠ [] ∧ ns ≠ some [] ∧ NamedArgs args
  | slot _ obj field index => field ≠ [] ∧ Named obj ∧ (match index with
    | none => True
    | some i => Named i)
  | slotAssign _ obj field index value => field ≠ [] ∧ Named obj ∧ Named value ∧ (match index with
    | none => True
    | some i => Named i)
  | slotUpdate _ obj field index _ value =>
    field ≠ [] ∧ Named obj ∧ Named value ∧ (match index with
      | none => True
      | some i => Named i)
  | object decl => NamedObject decl

def NamedArgs : List Expr → Prop
  | [] => True
  | a :: as => Named a ∧ NamedArgs as

def NamedField : FieldInit → Prop
  | .mk _ field index value => field ≠ [] ∧ Named value ∧ (match index with
    | none => True
    | some i => Named i)

def NamedFields : List FieldInit → Prop
  | [] => True
  | f :: fs => NamedField f ∧ NamedFields fs

def NamedObject : ObjectDecl → Prop
  | .mk _ className objectName copyFrom args _ fields children =>
    Named className ∧ Named objectName ∧ copyFrom ≠ some [] ∧ NamedArgs args ∧ NamedFields fields
      ∧ NamedChildren children

def NamedChildren : List ObjectDecl → Prop
  | [] => True
  | c :: cs => NamedObject c ∧ NamedChildren cs

end

variable {num}

theorem namedArgs_iff (args : List Expr) : NamedArgs num args ↔ ∀ a ∈ args, Named num a := by
  induction args with
  | nil => simp [NamedArgs]
  | cons a as ih => simp [NamedArgs, ih]

theorem namedFields_iff (fields : List FieldInit) :
    NamedFields num fields ↔ ∀ f ∈ fields, NamedField num f := by
  induction fields with
  | nil => simp [NamedFields]
  | cons f fs ih => simp [NamedFields, ih]

theorem namedChildren_iff (children : List ObjectDecl) :
    NamedChildren num children ↔ ∀ c ∈ children, NamedObject num c := by
  induction children with
  | nil => simp [NamedChildren]
  | cons c cs ih => simp [NamedChildren, ih]

end Expr

namespace Stmt

variable (num : Int → Prop)

mutual

/-- Every identifier in the statement is spelled, and every whole number is one of `num`. -/
def Named : Stmt → Prop
  | expr _ x => x.Named num
  | branch _ test whenTrue whenFalse =>
    test.Named num ∧ NamedBlock whenTrue ∧ (match whenFalse with
      | none => True
      | some whenFalse => NamedBlock whenFalse)
  | loop _ start test next body _ =>
    (∀ x ∈ start, x.Named num) ∧ test.Named num ∧ (∀ x ∈ next, x.Named num) ∧ NamedBlock body
  | breakLoop _ | continueLoop _ => True
  | ret _ value => ∀ x ∈ value, x.Named num
  | func _ name ns package params body =>
    name ≠ [] ∧ ns ≠ some [] ∧ package ≠ some [] ∧ (∀ p ∈ params, p ≠ []) ∧ NamedBlock body

def NamedBlock : List Stmt → Prop
  | [] => True
  | s :: ss => Named s ∧ NamedBlock ss

end

variable {num}

theorem named_branch (pos : Position) (test : Expr) (whenTrue : List Stmt)
    (whenFalse : Option (List Stmt)) :
    (branch pos test whenTrue whenFalse).Named num ↔
      test.Named num ∧ NamedBlock num whenTrue ∧ ∀ b, whenFalse = some b → NamedBlock num b := by
  cases whenFalse <;> simp [Named]

theorem namedBlock_iff (stmts : List Stmt) : NamedBlock num stmts ↔ ∀ s ∈ stmts, Named num s := by
  induction stmts with
  | nil => simp [NamedBlock]
  | cons s ss ih => simp [NamedBlock, ih]

end Stmt

/-! ## Spelled tokens -/

/-- Can a token of this kind stand for an identifier? Fields may be named by reserved words. -/
def TokenKind.canName (k : TokenKind) : Bool :=
  k == .ident || k == .localVar || k == .globalVar || k.isWord

namespace Token

variable (num : Int → Prop)

/-- A token that can stand for an identifier has a spelling. -/
def Spelled (t : Token) : Prop := t.kind.canName = true → t.literal ≠ []

/-- A token that is a whole number is one of `num`. -/
def Counts (t : Token) : Prop :=
  t.kind = .integer → ∀ pos v, Expr.ofInteger t = .int pos v → num v

def Fits (t : Token) : Prop := t.Spelled ∧ t.Counts num

end Token

variable {num : Int → Prop}

namespace ParseState

/-- All tokens that are still to be read are spelled. -/
def Spelled (s : ParseState) : Prop :=
  s.cur.Spelled ∧ ∀ u ∈ s.rest, u.token.Spelled

def Fits (num : Int → Prop) (s : ParseState) : Prop :=
  s.cur.Fits num ∧ ∀ u ∈ s.rest, u.token.Fits num

theorem Spelled.fits {s : ParseState} (h : s.Spelled) : s.Fits fun _ => True :=
  ⟨⟨h.1, fun _ _ _ _ => trivial⟩, fun u hu => ⟨h.2 u hu, fun _ _ _ _ => trivial⟩⟩

end ParseState

private theorem spelled_of_not_canName (t : Token) (h : t.kind.canName = false) :
    t.Spelled := by
  intro hk
  rw [h] at hk
  cases hk

private theorem number_not_canName (t : Text) : (Lexeme.number t).1.canName = false := by
  have pick (b : Bool) : (if b then TokenKind.integer else .float).canName = false := by
    cases b <;> rfl
  have decimal (t : Text) : (Lexeme.number.decimal t).1.canName = false := pick _
  unfold Lexeme.number
  split
  · split
    · rfl
    · exact decimal _
  · exact decimal _

private theorem operator_not_canName (t : Text) (k : TokenKind)
    (h : Lexeme.operator? t = some k) : k.canName = false := by
  have hall : ∀ k ∈ TokenKind.operators, k.canName = false := by decide
  exact hall k (List.mem_of_find?_eq_some h)

private theorem scan_string_not_canName (b : UInt8) (rest : Text) (kind : TokenKind)
    (hk : kind.canName = false) : (Lexeme.scan.string b rest kind).kind.canName = false := by
  unfold Lexeme.scan.string
  split
  · exact hk
  · rfl

theorem scan_spelled (b : UInt8) (rest : Text) (pos : Position) :
    Token.Spelled ⟨(Lexeme.scan b rest).kind, (Lexeme.scan b rest).literal, pos⟩ := by
  unfold Lexeme.scan
  dsimp only
  split
  · exact spelled_of_not_canName _ (scan_string_not_canName b rest .string rfl)
  split
  · exact spelled_of_not_canName _ (scan_string_not_canName b rest .tagString rfl)
  split
  · exact spelled_of_not_canName _ (number_not_canName (b :: rest))
  split
  · intro _ h
    simp [Nat.add_comm 1] at h
  split
  case isTrue hstart =>
    have hbyte : isIdentByte b = true := by simp [isIdentByte, hstart]
    have hw : (b :: rest).takeWhile isIdentByte ≠ [] := by simp [hbyte]
    split
    · intro _ h
      have hempty : Text.ofString "switch$" = [] := h
      exact absurd hempty (by decide)
    · exact fun _ => hw
  split
  case h_1 kind hop => exact spelled_of_not_canName _ (operator_not_canName _ kind hop)
  case h_2 => exact spelled_of_not_canName _ rfl

theorem tokens_spelled (c : Cursor) : ∀ t ∈ c.tokens, t.Spelled := by
  fun_induction Cursor.tokens c with
  | case1 c h =>
    intro t ht
    rw [List.mem_singleton.mp ht]
    exact spelled_of_not_canName _ rfl
  | case2 c b rest h hb =>
    intro t ht
    rw [List.mem_singleton.mp ht]
    exact spelled_of_not_canName _ rfl
  | case3 c b rest h hb lexeme ih =>
    intro t ht
    rcases List.mem_cons.mp ht with rfl | ht
    · exact scan_spelled b rest _
    · exact ih t ht

theorem ofTokens_fits (ts : List Token) (h : ∀ t ∈ ts, t.Fits num) :
    ∀ u ∈ Upcoming.ofTokens ts, u.token.Fits num := by
  fun_induction Upcoming.ofTokens ts with
  | case1 => simp
  | case2 => simp
  | case3 t ht u us ih =>
    intro v hv
    rcases List.mem_cons.mp hv with rfl | hv
    · exact h _ (by simp)
    · exact ih (fun t ht => h t (by simp [ht])) v hv
  | case4 t ts ht ih =>
    intro v hv
    rcases List.mem_cons.mp hv with rfl | hv
    · exact h _ (by simp)
    · exact ih (fun t ht => h t (by simp [ht])) v hv

namespace ParseState

theorem start_fits (source : Text) (h : ∀ t ∈ Token.all source, t.Counts num) :
    (start source).Fits num := by
  have hall := ofTokens_fits (Token.all source) fun t ht =>
    ⟨tokens_spelled (Cursor.start source) t ht, h t ht⟩
  unfold start
  split
  · exact ⟨⟨spelled_of_not_canName _ rfl, nofun⟩, by simp⟩
  case h_2 u us h =>
    rw [h] at hall
    exact ⟨hall u (by simp), fun v hv => hall v (by simp [hv])⟩

theorem next_fits (s : ParseState) (h : s.Fits num) : s.next.Fits num := by
  obtain ⟨cur, rest, errors⟩ := s
  cases rest with
  | nil => exact h
  | cons u us => exact ⟨h.2 u (by simp), fun v hv => h.2 v (List.mem_cons_of_mem u hv)⟩

private theorem length_noted (errors : List ParseError) (u : Option Upcoming) :
    errors.length ≤ (noted errors u).length := by
  unfold noted
  split <;> simp

theorem errors_next (s : ParseState) : s.errors.length ≤ s.next.errors.length := by
  obtain ⟨cur, rest, errors⟩ := s
  cases rest with
  | nil => exact Nat.le_refl _
  | cons u us => exact length_noted errors us.head?

private theorem recoverFrom_fits (rest : List Upcoming) (cur : Token)
    (errors : List ParseError) (hc : cur.Fits num) (hr : ∀ u ∈ rest, u.token.Fits num) :
    (recoverFrom cur errors rest).Fits num ∧
      errors.length ≤ (recoverFrom cur errors rest).errors.length := by
  induction rest generalizing cur errors with
  | nil => exact ⟨⟨hc, by simp [recoverFrom]⟩, Nat.le_refl _⟩
  | cons u us ih =>
    have hu : u.token.Fits num := hr u (by simp)
    have hus : ∀ v ∈ us, v.token.Fits num := fun v hv => hr v (by simp [hv])
    unfold recoverFrom
    split
    · exact ⟨⟨hc, hr⟩, Nat.le_refl _⟩
    split
    · exact ⟨⟨hu, hus⟩, length_noted errors us.head?⟩
    · have hrec := ih u.token (noted errors us.head?) hu hus
      exact ⟨hrec.1, Nat.le_trans (length_noted errors us.head?) hrec.2⟩

theorem recover_fits (s : ParseState) (h : s.Fits num) :
    s.recover.Fits num ∧ s.errors.length ≤ s.recover.errors.length :=
  recoverFrom_fits s.rest s.cur s.errors h.1 h.2

end ParseState
end ConsoleScript
