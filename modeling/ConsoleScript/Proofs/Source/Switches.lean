import ConsoleScript.Proofs.Source.Climbing

/-!
# What a `switch` is parsed into

A `switch` lists cases and defaults in any order. The parser keeps the cases in their order and the
last default, and makes branches of them, the first case outermost.
-/

namespace ConsoleScript

/-- What stands in the braces of a `switch`. -/
inductive SwitchItem where
  | case (c : SwitchCase)
  | default (body : List Stmt)

namespace SwitchItem

def case? : SwitchItem → Option SwitchCase
  | case c => some c
  | default _ => none

def default? : SwitchItem → Option (List Stmt)
  | case _ => none
  | default body => some body

/-- The cases in their order. -/
def cases (items : List SwitchItem) : List SwitchCase := items.filterMap case?

/-- The statements under the default, the last one if there are several. -/
def lastDefault (items : List SwitchItem) : Option (List Stmt) :=
  (items.filterMap default?).getLast?

variable {items : List SwitchItem}

@[simp] theorem cases_nil : cases [] = [] := rfl

@[simp] theorem cases_case (c : SwitchCase) : cases (case c :: items) = c :: cases items := rfl

@[simp] theorem cases_default (body : List Stmt) : cases (default body :: items) = cases items :=
  rfl

@[simp] theorem lastDefault_nil : lastDefault [] = none := rfl

@[simp] theorem lastDefault_case (c : SwitchCase) :
    lastDefault (case c :: items) = lastDefault items := rfl

@[simp] theorem lastDefault_default (body : List Stmt) :
    lastDefault (default body :: items) = (lastDefault items).or (some body) := by
  show ((body :: items.filterMap default?) : List _).getLast? = _
  rw [List.getLast?_cons, lastDefault]
  cases (items.filterMap default?).getLast? <;> rfl

end SwitchItem

namespace Parse

open SwitchItem

variable {n : Nat} {s t : ParseState} {items : List SwitchItem}

/-- The items of a `switch` from one state of the parser to another, up to the closing brace or the
end of the source. -/
inductive SwitchItems : Nat → ParseState → List SwitchItem → ParseState → Prop
  | stop {n : Nat} {s : ParseState} (hkind : s.cur.kind = .rbrace ∨ s.cur.kind = .eof) :
    SwitchItems (n + 1) s [] s
  | case {n : Nat} {s s₁ s₂ s₃ t : ParseState} {values : List Expr} {body : List Stmt}
    {items : List SwitchItem} (hkind : s.cur.kind = .kwCase)
    (hvalues : run (caseValues n []) s.next = (some values, s₁))
    (hcolon : run (expect .colon) s₁ = (some (), s₂))
    (hbody : run (caseBody n []) s₂ = (some body, s₃)) (hrest : SwitchItems n s₃ items t) :
    SwitchItems (n + 1) s (.case ⟨s.cur.pos, values, body⟩ :: items) t
  | default {n : Nat} {s s₁ s₂ t : ParseState} {body : List Stmt} {items : List SwitchItem}
    (hkind : s.cur.kind = .kwDefault) (hcolon : run (expect .colon) s.next = (some (), s₁))
    (hbody : run (caseBody n []) s₁ = (some body, s₂)) (hrest : SwitchItems n s₂ items t) :
    SwitchItems (n + 1) s (.default body :: items) t

/-- What follows the keyword of a `switch`: the subject, and items in braces. -/
def SwitchSource (n : Nat) (s : ParseState) (subject : Expr) (items : List SwitchItem)
    (t : ParseState) : Prop :=
  ∃ s₁ s₂ s₃ closed, run (condition n) s = (some subject, s₁) ∧
    run (expect .lbrace) s₁ = (some (), s₂) ∧ SwitchItems n s₂ items s₃ ∧
    run (accept .rbrace) s₃ = (some closed, t)

section bind

variable {α β : Type} {p : Parse α} {f : α → Parse β}

theorem run_bind_eq {a : α} (h : run p s = (some a, t)) : run (p >>= f) s = run (f a) t := by
  rw [run_bind, h]

theorem run_bind_eq_some {b : β} : run (p >>= f) s = (some b, t) ↔
    ∃ a u, run p s = (some a, u) ∧ run (f a) u = (some b, t) := by
  rw [run_bind]
  rcases run p s with ⟨_ | a, u⟩
  · constructor
    · intro h
      cases h
    · rintro ⟨a, u, h, -⟩
      cases h
  · constructor
    · intro h
      exact ⟨a, u, rfl, h⟩
    · rintro ⟨_, _, ⟨⟩, h⟩
      exact h

theorem run_attempt {r : Option α × ParseState} (h : run p s = r) :
    run (attempt p) s = (some r.1, r.2) := by
  rw [← h]
  rfl

theorem run_advance_bind (f : Unit → Parse β) (s : ParseState) :
    run (advance >>= f) s = run (f ()) s.next := rfl

end bind

/-- The parser finds the items, behind what it has found already. -/
theorem run_switchCases (h : SwitchItems n s items t) (seen : List SwitchCase)
    (default? : Option (List Stmt)) : run (switchCases n seen default?) s
      = (some (seen.reverse ++ cases items, (lastDefault items).or default?), t) := by
  induction h generalizing seen default? with
  | stop hkind =>
    rw [switchCases, run_cur_bind, cases_nil, List.append_nil]
    obtain hkind | hkind := hkind <;> rw [hkind] <;> rfl
  | case hkind hvalues hcolon hbody _ ih =>
    rw [switchCases, run_cur_bind, hkind]
    dsimp only
    rw [run_advance_bind, run_bind_eq hvalues, run_bind_eq hcolon, run_bind_eq hbody, ih]
    simp
  | default hkind hcolon hbody _ ih =>
    rw [switchCases, run_cur_bind, hkind]
    dsimp only
    rw [run_advance_bind, run_bind_eq hcolon, run_bind_eq hbody, ih]
    simp

/-- Whatever the parser takes for the items of a `switch` are items. -/
theorem switchItems_of_run {seen : List SwitchCase} {default? : Option (List Stmt)}
    {found : List SwitchCase × Option (List Stmt)}
    (h : run (switchCases n seen default?) s = (some found, t)) :
    ∃ items, SwitchItems n s items t := by
  induction n generalizing s seen default? with
  | zero => cases h
  | succ n ih =>
    rw [switchCases, run_cur_bind] at h
    cases hkind : s.cur.kind with
    | rbrace =>
      rw [hkind] at h
      cases h
      exact ⟨[], .stop (.inl hkind)⟩
    | eof =>
      rw [hkind] at h
      cases h
      exact ⟨[], .stop (.inr hkind)⟩
    | kwCase =>
      rw [hkind] at h
      dsimp only at h
      rw [run_advance_bind] at h
      obtain ⟨values, s₁, hvalues, h⟩ := run_bind_eq_some.mp h
      obtain ⟨⟨⟩, s₂, hcolon, h⟩ := run_bind_eq_some.mp h
      obtain ⟨body, s₃, hbody, h⟩ := run_bind_eq_some.mp h
      obtain ⟨items, hitems⟩ := ih h
      exact ⟨_, .case hkind hvalues hcolon hbody hitems⟩
    | kwDefault =>
      rw [hkind] at h
      dsimp only at h
      rw [run_advance_bind] at h
      obtain ⟨⟨⟩, s₁, hcolon, h⟩ := run_bind_eq_some.mp h
      obtain ⟨body, s₂, hbody, h⟩ := run_bind_eq_some.mp h
      obtain ⟨items, hitems⟩ := ih h
      exact ⟨_, .default hkind hcolon hbody hitems⟩
    | _ =>
      rw [hkind] at h
      cases h

theorem run_switch {subject : Expr} (h : SwitchSource n s subject items t) (pos : Position)
    (textual : Bool) : run (switch (n + 1) pos textual) s
      = (Stmt.ofSwitch? pos textual subject (cases items) (lastDefault items), t) := by
  obtain ⟨s₁, s₂, s₃, closed, hsubject, hopen, hitems, hclose⟩ := h
  rw [switch, run_bind_eq hsubject, run_bind_eq hopen, run_bind_eq (run_switchCases hitems [] none)]
  dsimp only
  rw [run_bind_eq hclose, List.reverse_nil, List.nil_append, Option.or_none]
  cases Stmt.ofSwitch? pos textual subject (cases items) (lastDefault items) <;> rfl

/-- A statement that the parser gives for a `switch` is made of branches for its items. -/
theorem switchSource_of_run {pos : Position} {textual : Bool} {stmt : Stmt}
    (h : run (switch (n + 1) pos textual) s = (some stmt, t)) :
    ∃ subject items, SwitchSource n s subject items t := by
  rw [switch] at h
  obtain ⟨subject, s₁, hsubject, h⟩ := run_bind_eq_some.mp h
  obtain ⟨⟨⟩, s₂, hopen, h⟩ := run_bind_eq_some.mp h
  obtain ⟨found, s₃, hfound, h⟩ := run_bind_eq_some.mp h
  obtain ⟨closed, s₄, hclose, h⟩ := run_bind_eq_some.mp h
  obtain ⟨items, hitems⟩ := switchItems_of_run hfound
  obtain rfl : s₄ = t := by
    revert h
    cases Stmt.ofSwitch? pos textual subject found.1 found.2 <;> intro h <;> cases h
    rfl
  exact ⟨subject, items, s₁, s₂, s₃, closed, hsubject, hopen, hitems, hclose⟩

end Parse
end ConsoleScript
