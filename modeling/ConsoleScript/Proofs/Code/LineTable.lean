import ConsoleScript.Proofs.Code.Layout

/-!
# Lines of positions

The line table knows where statements begin and not where they end. So a position has the line of
the innermost statement around it as long as no other statement inside of that one has begun;
behind such statements it has the line of the last one of them, although its code has ended.
-/

namespace ConsoleScript

/-- Where a statement begins in the source. -/
def Stmt.pos : Stmt → Position
  | expr pos _ | branch pos .. | loop pos .. | breakLoop pos | continueLoop pos | ret pos _
  | func pos .. => pos

namespace Site

/-- Is it a statement with an entry in the line table? Leaving a loop has none outside of loops. -/
def hasLine : Site → Bool
  | stmt (.breakLoop _) targets _ | stmt (.continueLoop _) targets _ => targets.isSome
  | stmt .. => true
  | _ => false

/-- The line of a statement. -/
def line : Site → UInt32
  | stmt s _ _ => UInt32.ofNat s.pos.line
  | _ => 0

def entry (q : Site) : LineBreak := ⟨q.line, ipWord q.ip⟩

/-- Does the position belong to the code of the node? -/
def Covers (q : Site) (n : Nat) : Prop := q.ip ≤ n ∧ n < q.ip + q.size

/-- `Encloses q p`: the node `p` is a part of `q`, directly or not, and not `q` itself. -/
def Encloses (q p : Site) : Prop := ∃ r ∈ q.parts, r.Within p

/-- The node alone, if it has an entry in the line table. -/
def own (q : Site) : List Site := if q.hasLine then [q] else []

theorem mem_own {q p : Site} : p ∈ q.own ↔ p = q ∧ q.hasLine = true := by
  rw [own]
  split <;> simp_all

end Site

/-! ## The statements in the line table -/

namespace Stmt

mutual

/-- The statements inside of a statement that have an entry in the line table. -/
def nested : Stmt → Option LoopTargets → Nat → List Site
  | branch _ test whenTrue whenFalse, targets, ip =>
    let onTrue := ip + test.size test.testedAs + 2
    blockTable whenTrue targets onTrue
      ++ (match whenFalse with
        | none => []
        | some whenFalse =>
          blockTable whenFalse targets (onTrue + blockSize whenTrue targets.isSome + 2))
  | loop _ start test next body testLast, _, ip =>
    let atTest := ip + Expr.sizeOpt start .none
    let atBody := if testLast then atTest else atTest + test.size test.testedAs + 2
    let atNext := atBody + blockSize body true
    let stop := atNext + Expr.sizeOpt next .none + test.size test.testedAs + 2
    blockTable body (some ⟨atNext, stop⟩) atBody
  | func _ _ _ _ params body, _, ip => blockTable body none (ip + 7 + params.length)
  | expr .., _, _ | breakLoop _, _, _ | continueLoop _, _, _ | ret .., _, _ => []

/-- The statements in a row, and those inside of them, that have an entry in the line table. -/
def blockTable : List Stmt → Option LoopTargets → Nat → List Site
  | [], _, _ => []
  | s :: ss, targets, ip =>
    (Site.stmt s targets ip).own ++ nested s targets ip
      ++ blockTable ss targets (ip + s.size targets.isSome)

end

end Stmt

namespace Site

/-- The statements inside of a node that have an entry in the line table. -/
def nested : Site → List Site
  | stmt s targets ip => s.nested targets ip
  | _ => []

/-- The statements of a node that have an entry in the line table, in its order. -/
def table (q : Site) : List Site := q.own ++ q.nested

end Site

namespace Stmt

open Site (own table)

theorem blockTable_eq (ss : List Stmt) (targets : Option LoopTargets) (ip : Nat) :
    blockTable ss targets ip = (Site.block ss targets ip).flatMap table := by
  induction ss generalizing ip with
  | nil => rfl
  | cons s ss ih => rw [blockTable, Site.block, List.flatMap_cons, ih]; rfl

mutual

theorem lines_eq : ∀ (s : Stmt) (targets : Option LoopTargets) (ip : Nat),
    lines s ip targets.isSome = ((Site.stmt s targets ip).table).map Site.entry
  | branch _ _ whenTrue none, targets, ip => by
    simp only [lines, blockLines_eq whenTrue, table, own, Site.nested, nested, List.append_nil]
    rfl
  | branch _ _ whenTrue (some whenFalse), targets, ip => by
    simp only [lines, blockLines_eq whenTrue, blockLines_eq whenFalse, table, own, Site.nested,
      nested, List.map_append, ← List.append_assoc]
    rfl
  | loop _ start test next body testLast, targets, ip => by
    have hbody (t : LoopTargets) (ip : Nat) := blockLines_eq body (some t) ip
    simp only [Option.isSome_some] at hbody
    simp only [lines, table, own, Site.nested, nested, List.map_append, ← hbody]
    rfl
  | func _ _ _ _ params body, targets, ip => by
    have hbody (ip : Nat) := blockLines_eq body none ip
    simp only [Option.isSome_none] at hbody
    simp only [lines, table, own, Site.nested, nested, List.map_append, ← hbody]
    rfl
  | breakLoop _, targets, ip | continueLoop _, targets, ip => by
    simp only [lines, table, own, Site.nested, nested, List.append_nil]
    cases targets <;> rfl
  | expr .., _, _ | ret .., _, _ => by
    simp only [lines, table, own, Site.nested, nested, List.append_nil]
    rfl

/-- The line table is made of these statements. -/
theorem blockLines_eq : ∀ (ss : List Stmt) (targets : Option LoopTargets) (ip : Nat),
    blockLines ss ip targets.isSome = (blockTable ss targets ip).map Site.entry
  | [], _, _ => by simp only [blockLines, blockTable, List.map_nil]
  | s :: ss, targets, ip => by
    simp only [blockLines, lines_eq s, blockLines_eq ss, blockTable, table, Site.nested,
      List.map_append]

end

end Stmt

/-! ## What the table lists -/

namespace Site

open Stmt (blockTable)

theorem table_of_not_isStmt {q : Site} (h : q.isStmt = false) : q.table = [] := by
  cases q with
  | stmt => cases h
  | expr | field | object => rfl

theorem flatMap_table_eq_nil {qs : List Site} (h : ∀ q ∈ qs, q.isStmt = false) :
    qs.flatMap table = [] :=
  List.flatMap_eq_nil_iff.mpr fun q hq => table_of_not_isStmt (h q hq)

theorem nested_eq (q : Site) : q.nested = q.parts.flatMap table := by
  cases q with
  | expr x want ip => exact (flatMap_table_eq_nil (isStmt_parts rfl)).symm
  | field f ip => exact (flatMap_table_eq_nil (isStmt_parts rfl)).symm
  | object d root ip => exact (flatMap_table_eq_nil (isStmt_parts rfl)).symm
  | stmt s targets ip =>
    have hexpr (x : Expr) (want : Demand) (ip : Nat) : (Site.expr x want ip).table = [] := rfl
    have hopt (x : Option Expr) (want : Demand) (ip : Nat) :
        (opt x want ip).flatMap table = [] := by
      cases x <;> rfl
    cases s with
    | branch _ test whenTrue whenFalse =>
      cases whenFalse <;>
        simp only [nested, Stmt.nested, parts, stmtParts, Stmt.blockTable_eq, List.flatMap_append,
          List.flatMap_cons, List.flatMap_nil, hexpr, List.nil_append]
    | loop _ start test next body testLast =>
      cases testLast <;>
        simp only [nested, Stmt.nested, parts, stmtParts, Stmt.blockTable_eq, List.flatMap_append,
          List.flatMap_cons, List.flatMap_nil, hexpr, hopt, List.nil_append, List.append_nil,
          if_true, Bool.false_eq_true, if_false]
    | func => simp only [nested, Stmt.nested, parts, stmtParts, Stmt.blockTable_eq]
    | expr => simp only [nested, Stmt.nested, parts, stmtParts, List.flatMap_cons, hexpr]; rfl
    | breakLoop | continueLoop => simp only [nested, Stmt.nested, parts, stmtParts]; rfl
    | ret => simp only [nested, Stmt.nested, parts, stmtParts, hopt]

theorem Within.mem_table {q p : Site} (h : q.Within p) : ∀ r ∈ p.table, r ∈ q.table := by
  induction h with
  | whole => exact fun r hr => hr
  | part _ hpart ih =>
    intro r hr
    refine ih r (List.mem_append_right _ ?_)
    rw [nested_eq]
    exact List.mem_flatMap.mpr ⟨_, hpart, hr⟩

theorem Within.trans {q p r : Site} (h : q.Within p) (h' : p.Within r) : q.Within r := by
  induction h' with
  | whole => exact h
  | part _ hpart ih => exact .part ih hpart

theorem Encloses.within {q p : Site} (h : q.Encloses p) : q.Within p := by
  obtain ⟨r, hr, hwithin⟩ := h
  exact (Within.part .whole hr).trans hwithin

end Site

namespace Stmt

mutual

theorem mem_nested : ∀ (s : Stmt) (targets : Option LoopTargets) (ip : Nat),
    ∀ p ∈ nested s targets ip, (Site.stmt s targets ip).Encloses p ∧ p.hasLine = true
  | branch _ test whenTrue none, targets, ip, p, hp => by
    simp only [nested, List.append_nil] at hp
    obtain ⟨⟨r, hr, hwithin⟩, hline⟩ := mem_blockTable whenTrue _ _ p hp
    exact ⟨⟨r, by simp [Site.parts, Site.stmtParts, hr], hwithin⟩, hline⟩
  | branch _ test whenTrue (some whenFalse), targets, ip, p, hp => by
    simp only [nested, List.mem_append] at hp
    obtain hp | hp := hp
    · obtain ⟨⟨r, hr, hwithin⟩, hline⟩ := mem_blockTable whenTrue _ _ p hp
      exact ⟨⟨r, by simp [Site.parts, Site.stmtParts, hr], hwithin⟩, hline⟩
    · obtain ⟨⟨r, hr, hwithin⟩, hline⟩ := mem_blockTable whenFalse _ _ p hp
      exact ⟨⟨r, by simp [Site.parts, Site.stmtParts, hr], hwithin⟩, hline⟩
  | loop _ start test next body testLast, targets, ip, p, hp => by
    simp only [nested] at hp
    obtain ⟨⟨r, hr, hwithin⟩, hline⟩ := mem_blockTable body _ _ p hp
    exact ⟨⟨r, by simp [Site.parts, Site.stmtParts, hr], hwithin⟩, hline⟩
  | func _ _ _ _ params body, targets, ip, p, hp => by
    simp only [nested] at hp
    obtain ⟨⟨r, hr, hwithin⟩, hline⟩ := mem_blockTable body _ _ p hp
    exact ⟨⟨r, by simp [Site.parts, Site.stmtParts, hr], hwithin⟩, hline⟩
  | expr .., _, _, _, hp | breakLoop _, _, _, _, hp | continueLoop _, _, _, _, hp
  | ret .., _, _, _, hp => by simp [nested] at hp

theorem mem_blockTable : ∀ (ss : List Stmt) (targets : Option LoopTargets) (ip : Nat),
    ∀ p ∈ blockTable ss targets ip,
      (∃ r ∈ Site.block ss targets ip, r.Within p) ∧ p.hasLine = true
  | [], _, _, _, hp => by simp [blockTable] at hp
  | s :: ss, targets, ip, p, hp => by
    simp only [blockTable, List.mem_append, Site.mem_own] at hp
    rw [Site.block]
    obtain (⟨rfl, hline⟩ | hp) | hp := hp
    · exact ⟨⟨_, List.mem_cons_self, .whole⟩, hline⟩
    · obtain ⟨hencloses, hline⟩ := mem_nested s _ _ p hp
      exact ⟨⟨_, List.mem_cons_self, hencloses.within⟩, hline⟩
    · obtain ⟨⟨r, hr, hwithin⟩, hline⟩ := mem_blockTable ss _ _ p hp
      exact ⟨⟨r, List.mem_cons_of_mem _ hr, hwithin⟩, hline⟩

end

end Stmt

namespace Site

theorem mem_nested {q p : Site} : p ∈ q.nested ↔ q.Encloses p ∧ p.hasLine = true := by
  constructor
  · intro hp
    cases q with
    | stmt s targets ip => exact Stmt.mem_nested s targets ip p hp
    | expr | field | object => simp [nested] at hp
  · rintro ⟨⟨r, hr, hwithin⟩, hline⟩
    rw [nested_eq]
    refine List.mem_flatMap.mpr ⟨r, hr, hwithin.mem_table p ?_⟩
    exact List.mem_append_left _ (mem_own.mpr ⟨rfl, hline⟩)

theorem mem_programTable {program : List Stmt} {p : Site} :
    p ∈ Stmt.blockTable program none 0 ↔ p.Occurs program ∧ p.hasLine = true := by
  constructor
  · exact Stmt.mem_blockTable program none 0 p
  · rintro ⟨⟨top, htop, hwithin⟩, hline⟩
    rw [Stmt.blockTable_eq]
    refine List.mem_flatMap.mpr ⟨top, htop, hwithin.mem_table p ?_⟩
    exact List.mem_append_left _ (mem_own.mpr ⟨rfl, hline⟩)

end Site

/-! ## Positions in the table -/

/-- The nodes begin in the order of their positions, and none of them leaves the stretch from
`first` to `last`. -/
structure Spread (first last : Nat) (qs : List Site) : Prop where
  sorted : qs.Pairwise fun p q => p.ip ≤ q.ip
  inside : ∀ q ∈ qs, first ≤ q.ip ∧ q.ip + q.size ≤ last

namespace Spread

variable {first middle last first' last' : Nat} {ps qs : List Site}

theorem nil (first last : Nat) : Spread first last [] := ⟨.nil, by simp⟩

theorem mono (h : Spread first last qs) (hfirst : first' ≤ first) (hlast : last ≤ last') :
    Spread first' last' qs := by
  refine ⟨h.sorted, fun q hq => ?_⟩
  have := h.inside q hq
  omega

theorem append (hps : Spread first middle ps) (hqs : Spread middle last qs)
    (hfirst : first ≤ middle) (hlast : middle ≤ last) : Spread first last (ps ++ qs) := by
  refine ⟨List.pairwise_append.mpr ⟨hps.sorted, hqs.sorted, fun p hp q hq => ?_⟩, fun q hq => ?_⟩
  · have := hps.inside p hp
    have := hqs.inside q hq
    omega
  · obtain hq | hq := List.mem_append.mp hq
    · have := hps.inside q hq
      omega
    · have := hqs.inside q hq
      omega

theorem own (q : Site) (hqs : Spread q.ip (q.ip + q.size) qs) :
    Spread q.ip (q.ip + q.size) (q.own ++ qs) := by
  rw [Site.own]
  split
  · rw [List.singleton_append]
    refine ⟨List.pairwise_cons.mpr ⟨fun p hp => (hqs.inside p hp).1, hqs.sorted⟩, ?_⟩
    rw [List.forall_mem_cons]
    exact ⟨⟨Nat.le_refl _, Nat.le_refl _⟩, hqs.inside⟩
  · exact hqs

end Spread

namespace Stmt

mutual

theorem nested_spread : ∀ (s : Stmt) (targets : Option LoopTargets) (ip : Nat),
    Spread ip (ip + s.size targets.isSome) (nested s targets ip)
  | branch _ test whenTrue none, targets, ip => by
    simp only [nested, List.append_nil, size]
    exact (blockTable_spread whenTrue targets _).mono (by omega) (by omega)
  | branch _ test whenTrue (some whenFalse), targets, ip => by
    simp only [nested, size]
    have htrue := blockTable_spread whenTrue targets (ip + test.size test.testedAs + 2)
    have hfalse := blockTable_spread whenFalse targets
      (ip + test.size test.testedAs + 2 + blockSize whenTrue targets.isSome + 2)
    exact (htrue.append (hfalse.mono (by omega) (Nat.le_refl _)) (by omega) (by omega)).mono
      (by omega) (by omega)
  | loop _ start test next body testLast, targets, ip => by
    simp only [nested, size]
    refine (blockTable_spread body _ _).mono ?_ ?_
    · split <;> omega
    · rw [Option.isSome_some]
      split <;> omega
  | func _ _ _ _ params body, targets, ip => by
    simp only [nested, size]
    refine (blockTable_spread body none _).mono (by omega) ?_
    rw [Option.isSome_none]
    omega
  | expr .., _, _ | breakLoop _, _, _ | continueLoop _, _, _ | ret .., _, _ => by
    simp only [nested]
    exact .nil _ _

theorem blockTable_spread : ∀ (ss : List Stmt) (targets : Option LoopTargets) (ip : Nat),
    Spread ip (ip + blockSize ss targets.isSome) (blockTable ss targets ip)
  | [], _, _ => by
    simp only [blockTable]
    exact .nil _ _
  | s :: ss, targets, ip => by
    simp only [blockTable, blockSize]
    have hs : Spread ip (ip + s.size targets.isSome) _ :=
      Spread.own (.stmt s targets ip) (nested_spread s targets ip)
    have hss := blockTable_spread ss targets (ip + s.size targets.isSome)
    exact hs.append (hss.mono (Nat.le_refl _) (by omega)) (Nat.le_add_right _ _) (by omega)

end

end Stmt

/-! ## The innermost statement -/

/-- Of the listed statements, `q` is the innermost one around the position `n`: those in front of it
that are around `n` are around `q`, none inside of it is around `n`, and those behind it begin
behind `n`. -/
def Surrounds (n : Nat) (q : Site) (qs : List Site) : Prop :=
  q.hasLine = true ∧ q.Covers n ∧ (∀ p ∈ q.nested, ¬ p.Covers n) ∧
    ∃ before after, qs = before ++ q.table ++ after ∧
      (∀ p ∈ before, p.Covers n → q ∈ p.nested) ∧ ∀ p ∈ after, n < p.ip

/-- There is an innermost statement around `n`, if there is any. -/
def Settled (n : Nat) (qs : List Site) : Prop :=
  (∃ q, Surrounds n q qs) ∨ ∀ p ∈ qs, ¬ p.Covers n

namespace Surrounds

variable {n : Nat} {q : Site} {ps qs : List Site}

theorem mem (h : Surrounds n q qs) : q ∈ qs := by
  obtain ⟨hline, -, -, before, after, rfl, -, -⟩ := h
  simp [Site.table, Site.mem_own, hline]

theorem append (h : Surrounds n q ps) (hqs : ∀ p ∈ qs, n < p.ip) : Surrounds n q (ps ++ qs) := by
  obtain ⟨hline, hcovers, hinner, before, after, rfl, hbefore, hafter⟩ := h
  refine ⟨hline, hcovers, hinner, before, after ++ qs, List.append_assoc _ _ _, hbefore, ?_⟩
  exact List.forall_mem_append.mpr ⟨hafter, hqs⟩

theorem prepend (h : Surrounds n q qs) (hps : ∀ p ∈ ps, p.Covers n → q ∈ p.nested) :
    Surrounds n q (ps ++ qs) := by
  obtain ⟨hline, hcovers, hinner, before, after, rfl, hbefore, hafter⟩ := h
  refine ⟨hline, hcovers, hinner, ps ++ before, after, by simp only [List.append_assoc], ?_, hafter⟩
  exact List.forall_mem_append.mpr ⟨hps, hbefore⟩

end Surrounds

namespace Settled

variable {n first middle last : Nat} {q : Site} {ps qs : List Site}

theorem append (hps : Settled n ps) (hqs : Settled n qs) (hfirst : Spread first middle ps)
    (hlast : Spread middle last qs) : Settled n (ps ++ qs) := by
  obtain ⟨q, hq⟩ | hps := hps
  · refine .inl ⟨q, hq.append fun p hp => ?_⟩
    have := hfirst.inside q hq.mem
    have := hlast.inside p hp
    have := hq.2.1.2
    omega
  · obtain ⟨q, hq⟩ | hqs := hqs
    · exact .inl ⟨q, hq.prepend fun p hp hcovers => absurd hcovers (hps p hp)⟩
    · exact .inr (List.forall_mem_append.mpr ⟨hps, hqs⟩)

theorem table (q : Site) (h : Settled n q.nested) : Settled n q.table := by
  obtain ⟨p, hp⟩ | hnone := h
  · refine .inl ⟨p, hp.prepend fun r hr _ => ?_⟩
    rw [(Site.mem_own.mp hr).1]
    exact hp.mem
  · by_cases hq : q.hasLine = true ∧ q.Covers n
    · refine .inl ⟨q, hq.1, hq.2, hnone, [], [], by simp, ?_, ?_⟩ <;> simp
    · refine .inr (List.forall_mem_append.mpr ⟨fun p hp hcovers => hq ?_, hnone⟩)
      obtain ⟨rfl, hline⟩ := Site.mem_own.mp hp
      exact ⟨hline, hcovers⟩

end Settled

namespace Stmt

mutual

theorem nested_settled (n : Nat) : ∀ (s : Stmt) (targets : Option LoopTargets) (ip : Nat),
    Settled n (nested s targets ip)
  | branch _ test whenTrue none, targets, ip => by
    simp only [nested, List.append_nil]
    exact blockTable_settled n whenTrue targets _
  | branch _ test whenTrue (some whenFalse), targets, ip => by
    simp only [nested]
    exact (blockTable_settled n whenTrue targets _).append
      (blockTable_settled n whenFalse targets _)
      ((blockTable_spread whenTrue targets _).mono (Nat.le_refl _) (Nat.le_add_right _ 2))
      (blockTable_spread whenFalse targets _)
  | loop _ start test next body testLast, targets, ip => by
    simp only [nested]
    exact blockTable_settled n body _ _
  | func _ _ _ _ params body, targets, ip => by
    simp only [nested]
    exact blockTable_settled n body _ _
  | expr .., _, _ | breakLoop _, _, _ | continueLoop _, _, _ | ret .., _, _ => by
    simp only [nested]
    exact .inr (by simp)

theorem blockTable_settled (n : Nat) : ∀ (ss : List Stmt) (targets : Option LoopTargets) (ip : Nat),
    Settled n (blockTable ss targets ip)
  | [], _, _ => by
    simp only [blockTable]
    exact .inr (by simp)
  | s :: ss, targets, ip => by
    simp only [blockTable]
    exact (Settled.table (.stmt s targets ip) (nested_settled n s targets ip)).append
      (blockTable_settled n ss targets _)
      (Spread.own (.stmt s targets ip) (nested_spread s targets ip))
      (blockTable_spread ss targets _)

end

/-- Statements in a row leave no gap. -/
theorem exists_covers {n : Nat} (ss : List Stmt) (targets : Option LoopTargets) (ip : Nat)
    (hfirst : ip ≤ n) (hlast : n < ip + blockSize ss targets.isSome) :
    ∃ q ∈ blockTable ss targets ip, q.Covers n := by
  induction ss generalizing ip with
  | nil =>
    simp only [blockSize] at hlast
    omega
  | cons s ss ih =>
    simp only [blockSize] at hlast
    by_cases hs : n < ip + s.size targets.isSome
    · have hline : (Site.stmt s targets ip).hasLine = true := by
        cases s with
        | breakLoop | continueLoop =>
          cases targets with
          | none => simp [size] at hs; omega
          | some => rfl
        | expr | branch | loop | ret | func => rfl
      refine ⟨.stmt s targets ip, ?_, hfirst, hs⟩
      simp only [blockTable, List.mem_append]
      exact .inl (.inl (Site.mem_own.mpr ⟨rfl, hline⟩))
    · obtain ⟨q, hq, hcovers⟩ := ih (ip + s.size targets.isSome) (by omega) (by omega)
      refine ⟨q, ?_, hcovers⟩
      simp only [blockTable, List.mem_append]
      exact .inr hq

theorem blockTable_surrounded {n : Nat} (program : List Stmt) (h : n < blockSize program false) :
    ∃ q, Surrounds n q (blockTable program none 0) := by
  obtain ⟨q, hq, hcovers⟩ := exists_covers program none 0 (Nat.zero_le n) (by simpa using h)
  exact (blockTable_settled n program none 0).resolve_right fun hnone => hnone q hq hcovers

end Stmt

/-! ## Looking a position up -/

theorem LineBreak.lineAt_append {ip line : UInt32} {as bs : List LineBreak}
    (h : ∀ a ∈ as, a.ip ≤ ip) : lineAt ip line (as ++ bs) = lineAt ip (lineAt ip line as) bs := by
  induction as generalizing line with
  | nil => rfl
  | cons a as ih =>
    rw [List.forall_mem_cons] at h
    have hle : ¬ a.ip > ip := UInt32.not_lt.mpr h.1
    rw [List.cons_append, lineAt, lineAt, if_neg hle, if_neg hle, ih h.2]

theorem LineBreak.lineAt_of_lt {ip line : UInt32} {bs : List LineBreak}
    (h : ∀ b ∈ bs, ip < b.ip) : lineAt ip line bs = line := by
  cases bs with
  | nil => rfl
  | cons b bs => rw [lineAt, if_pos (h b List.mem_cons_self)]

namespace Site

variable {n : UInt32} {q : Site} {qs before after : List Site}

theorem entry_le (h : q.ip < UInt32.size) : q.entry.ip ≤ n ↔ q.ip ≤ n.toNat := by
  rw [UInt32.le_iff_toNat_le, entry, toNat_ipWord h]

theorem lineAt_last (hqs : ∀ p ∈ before ++ [q] ++ after, p.ip < UInt32.size)
    (hbefore : ∀ p ∈ before, p.ip ≤ n.toNat) (hq : q.ip ≤ n.toNat)
    (hafter : ∀ p ∈ after, n.toNat < p.ip) :
    LineBreak.lineAt n 0 ((before ++ [q] ++ after).map entry) = q.line := by
  rw [List.forall_mem_append, List.forall_mem_append, List.forall_mem_singleton] at hqs
  obtain ⟨⟨hbeforeSize, hqSize⟩, hafterSize⟩ := hqs
  have hfirst : ∀ b ∈ (before ++ [q]).map entry, b.ip ≤ n := by
    rw [List.forall_mem_map, List.forall_mem_append, List.forall_mem_singleton]
    exact ⟨fun p hp => (entry_le (hbeforeSize p hp)).mpr (hbefore p hp), (entry_le hqSize).mpr hq⟩
  have hrest : ∀ b ∈ after.map entry, n < b.ip := by
    rw [List.forall_mem_map]
    intro p hp
    rw [← UInt32.not_le, entry_le (hafterSize p hp), Nat.not_le]
    exact hafter p hp
  rw [List.map_append, LineBreak.lineAt_append hfirst, LineBreak.lineAt_of_lt hrest,
    List.map_append, LineBreak.lineAt_append fun b hb => hfirst b (by simp [hb])]
  exact if_neg (UInt32.not_lt.mpr ((entry_le hqSize).mpr hq))

/-- The innermost statement of a program around a position. -/
structure Innermost (program : List Stmt) (n : Nat) (q : Site) : Prop where
  occurs : q.Occurs program
  hasLine : q.hasLine = true
  covers : q.Covers n
  alone : ∀ p, q.Encloses p → p.hasLine = true → ¬ p.Covers n

/-- The line of a position around which `q` is the innermost statement: that of `q` if no statement
inside of it has begun, and else that of the last one that has, which has ended. -/
def Shows (q : Site) (n : Nat) (line : UInt32) : Prop :=
  (line = q.line ∧ ∀ p, q.Encloses p → p.hasLine = true → n < p.ip) ∨
    ∃ p, q.Encloses p ∧ p.hasLine = true ∧ p.ip + p.size ≤ n ∧ line = p.line ∧
      ∀ r, q.Encloses r → r.hasLine = true → r.ip ≤ n → r.ip ≤ p.ip

/-- In the order of positions one statement is the last that begins at or before `n`, unless all
begin behind it. -/
theorem exists_last (n : Nat) (h : qs.Pairwise fun p r => p.ip ≤ r.ip) :
    (∀ p ∈ qs, n < p.ip) ∨
      ∃ (before : List Site) (p : Site) (after : List Site), qs = before ++ [p] ++ after ∧
        p.ip ≤ n ∧ (∀ r ∈ before, r.ip ≤ p.ip) ∧ ∀ r ∈ after, n < r.ip := by
  induction qs with
  | nil => exact .inl (by simp)
  | cons q qs ih =>
    rw [List.pairwise_cons] at h
    obtain hafter | ⟨before, p, after, rfl, hp, hbefore, hafter⟩ := ih h.2
    · by_cases hq : q.ip ≤ n
      · exact .inr ⟨[], q, qs, rfl, hq, by simp, hafter⟩
      · exact .inl (List.forall_mem_cons.mpr ⟨Nat.not_le.mp hq, hafter⟩)
    · refine .inr ⟨q :: before, p, after, rfl, hp, ?_, hafter⟩
      exact List.forall_mem_cons.mpr ⟨h.1 p (by simp), hbefore⟩

theorem shows_of_surrounds (h : Surrounds n.toNat q qs)
    (hsorted : qs.Pairwise fun p r => p.ip ≤ r.ip) (hsize : ∀ p ∈ qs, p.ip < UInt32.size) :
    q.Shows n.toNat (LineBreak.lineAt n 0 (qs.map entry)) := by
  obtain ⟨hline, hcovers, hinner, before, after, rfl, -, hafter⟩ := h
  have htable : q.table = [q] ++ q.nested := by rw [table, own, if_pos hline]
  rw [htable] at hsorted hsize ⊢
  obtain ⟨⟨-, ⟨-, hnested, -⟩, hfront⟩, -, -⟩ := by
    simpa only [List.pairwise_append] using hsorted
  have hbefore : ∀ p ∈ before, p.ip ≤ n.toNat := fun p hp =>
    Nat.le_trans (hfront p hp q (by simp)) hcovers.1
  obtain hnone | ⟨begun, p, pending, hsplit, hp, hbegun, hpending⟩ := exists_last n.toNat hnested
  · rw [← List.append_assoc, List.append_assoc] at hsize ⊢
    refine .inl ⟨lineAt_last hsize hbefore hcovers.1 ?_, fun p hp hpline => hnone p ?_⟩
    · exact List.forall_mem_append.mpr ⟨hnone, hafter⟩
    · exact mem_nested.mpr ⟨hp, hpline⟩
  · have hmem : p ∈ q.nested := by simp [hsplit]
    obtain ⟨hencloses, hpline⟩ := mem_nested.mp hmem
    have hended : p.ip + p.size ≤ n.toNat := by
      have hnot := hinner p hmem
      rw [Covers, not_and, Nat.not_lt] at hnot
      exact hnot hp
    have hqs : before ++ ([q] ++ q.nested) ++ after
        = (before ++ [q] ++ begun) ++ [p] ++ (pending ++ after) := by
      rw [hsplit]
      simp only [List.append_assoc]
    rw [hqs] at hsize ⊢
    refine .inr ⟨p, hencloses, hpline, hended, lineAt_last hsize ?_ hp ?_, ?_⟩
    · simp only [List.forall_mem_append, List.forall_mem_singleton]
      exact ⟨⟨hbefore, hcovers.1⟩, fun r hr => Nat.le_trans (hbegun r hr) hp⟩
    · exact List.forall_mem_append.mpr ⟨hpending, hafter⟩
    · intro r hr hrline hrn
      have hr := mem_nested.mpr ⟨hr, hrline⟩
      rw [hsplit, List.mem_append, List.mem_append, List.mem_singleton] at hr
      obtain (hr | rfl) | hr := hr
      · exact hbegun r hr
      · exact Nat.le_refl _
      · exact absurd (hpending r hr) (Nat.not_lt.mpr hrn)

theorem Innermost.eq {program : List Stmt} {n : Nat} {p : Site}
    (h : Surrounds n q (Stmt.blockTable program none 0)) (hp : p.Innermost program n) : p = q := by
  obtain ⟨hline, hcovers, hinner, before, after, hsplit, hbefore, hafter⟩ := h
  have hmem := mem_programTable.mpr ⟨hp.occurs, hp.hasLine⟩
  rw [hsplit, List.mem_append, List.mem_append, table, List.mem_append] at hmem
  obtain (hmem | hmem | hmem) | hmem := hmem
  · obtain ⟨hencloses, -⟩ := mem_nested.mp (hbefore p hmem hp.covers)
    exact absurd hcovers (hp.alone q hencloses hline)
  · exact (mem_own.mp hmem).1
  · exact absurd hp.covers (hinner p hmem)
  · have := hafter p hmem
    have := hp.covers.1
    omega

theorem innermost_of_surrounds {program : List Stmt} {n : Nat}
    (h : Surrounds n q (Stmt.blockTable program none 0)) : q.Innermost program n := by
  obtain ⟨hoccurs, hline⟩ := mem_programTable.mp h.mem
  exact ⟨hoccurs, hline, h.2.1, fun p hp hpline => h.2.2.1 p (mem_nested.mpr ⟨hp, hpline⟩)⟩

end Site

/-- At every position of a compiled unit but the last, which ends the unit, there is an innermost
statement. Its line is the one that is found as long as no statement inside of it has begun. Behind
such statements the line of the last one of them is found. -/
theorem compile_lineAt {source filename : Text} {u : CodeUnit} (h : compile source filename = .ok u)
    (hsize : u.code.size < UInt32.size) {n : UInt32} (hn : n.toNat + 1 < u.code.size) :
    (∃ q : Site, q.Innermost (parseProgram source).1 n.toNat) ∧
      ∀ q : Site, q.Innermost (parseProgram source).1 n.toNat → q.Shows n.toNat (u.lineAt n) := by
  obtain ⟨program, hparse, rfl⟩ := compile_eq_ok h
  rw [CodeUnit.size_code_written] at hn hsize
  rw [hparse]
  obtain ⟨q, hq⟩ := Stmt.blockTable_surrounded program (by omega : n.toNat < _)
  have hspread := Stmt.blockTable_spread program none 0
  have hlines : (CodeUnit.written filename program).lines =
      (Stmt.blockTable program none 0).map Site.entry := Stmt.blockLines_eq program none 0
  refine ⟨⟨q, Site.innermost_of_surrounds hq⟩, fun p hp => ?_⟩
  rw [hp.eq hq, CodeUnit.lineAt, hlines]
  refine Site.shows_of_surrounds hq hspread.sorted fun r hr => ?_
  have := hspread.inside r hr
  rw [Option.isSome_none] at this
  omega

/-- The test of a loop that is tested last has the line of the last statement in the loop. -/
theorem compile_lineAt_do_while :
    ∃ u, compile "do\n\x7b\n$a = 1;\n\x7d\nwhile (foo());" "test.cs" = .ok u ∧
      u.code.size < UInt32.size ∧ (6 : UInt32).toNat + 1 < u.code.size ∧
      ∃ q : Site, q.Innermost (parseProgram "do\n\x7b\n$a = 1;\n\x7d\nwhile (foo());").1 6 ∧
        q.Shows 6 (u.lineAt 6) ∧ q.line = 1 ∧ u.lineAt 6 = 3 := by
  let source : Text := "do\n\x7b\n$a = 1;\n\x7d\nwhile (foo());"
  let program := (parseProgram source).1
  let u := CodeUnit.written "test.cs" program
  have hcompile : compile source "test.cs" = .ok u := by
    rw [compile_eq]
    exact if_pos (by decide +kernel)
  have hsize : u.code.size < UInt32.size := by decide +kernel
  have hlast : (6 : UInt32).toNat + 1 < u.code.size := by decide +kernel
  obtain ⟨q, hmem, hfirst, hend, hinner, hqline⟩ : ∃ q ∈ Stmt.blockTable program none 0,
      q.ip ≤ 6 ∧ 6 < q.ip + q.size ∧ (∀ p ∈ q.nested, ¬ (p.ip ≤ 6 ∧ 6 < p.ip + p.size)) ∧
        q.line = 1 := by
    decide +kernel
  obtain ⟨hoccurs, hline⟩ := Site.mem_programTable.mp hmem
  have hq : q.Innermost program 6 :=
    ⟨hoccurs, hline, ⟨hfirst, hend⟩, fun p hp hpline => hinner p (Site.mem_nested.mpr ⟨hp, hpline⟩)⟩
  exact ⟨u, hcompile, hsize, hlast, q, hq, (compile_lineAt hcompile hsize hlast).2 q hq, hqline,
    by decide +kernel⟩

end ConsoleScript
