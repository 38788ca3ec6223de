import ConsoleScript.Console.Glob
import ConsoleScript.Console.Value
import ConsoleScript.Number.Integer

/-!
# The preference store

Variables can be saved under their name and loaded again. They are kept in a table of a database,
which holds one row for each name. What names are the same, and the order of the rows, is the matter
of the table. The one that is kept in memory tells names apart by all but the case of ASCII letters.
-/

namespace ConsoleScript

inductive StoredKind where
  | text | int | float
  deriving DecidableEq, Repr

/-- A saved variable. -/
structure Preference where
  name : Text
  kind : StoredKind
  text : Text
  deriving DecidableEq, Repr

namespace Preference

/-- What the row is found by: its name with the ASCII letters in lower case. -/
def key (p : Preference) : Text := Text.lowerAscii p.name

/-- The row for a variable. -/
def ofValue (name : Text) : Value → Preference
  | .text t => ⟨name, .text, t⟩
  | .int i => ⟨name, .int, Value.textOfInt i⟩
  | .float f => ⟨name, .float, Number.toText f⟩

def parseFloat? (t : Text) : Option Float :=
  if t == Text.ofString "NaN" then some (0.0 / 0.0)
  else if t == Text.ofString "+Inf" then some (1.0 / 0.0)
  else if t == Text.ofString "-Inf" then some (-1.0 / 0.0)
  else match (Decimal.parse? t).map Decimal.value with
    | some (f, false) => some f
    | _ => none

/-- The value of a row. -/
def value (p : Preference) : Value :=
  match p.kind with
  | .text => .text p.text
  | .int => match Integer.ofText? p.text with
    | some i => .int i
    | none => .text p.text
  | .float => match parseFloat? p.text with
    | some f => .float f
    | none => .text p.text

end Preference

/-! ## Tables -/

/-- Why saved variables cannot be written or read. -/
inductive PrefError where
  | starting (cause : Text)
  | preparing (cause : Text)
  | saving (name cause : Text)
  | committing (cause : Text)
  | listing (cause : Text)
  | scanning (cause : Text)
  | interrupted (cause : Text)
  | deleting (name cause : Text)
  deriving DecidableEq, Repr

def PrefError.message : PrefError → Text
  | .starting cause => Text.ofString "begin: " ++ cause
  | .preparing cause => Text.ofString "preparing insert: " ++ cause
  | .saving name cause => Text.ofString "saving " ++ name ++ Text.ofString ": " ++ cause
  | .committing cause => Text.ofString "commit: " ++ cause
  | .listing cause => Text.ofString "listing prefs: " ++ cause
  | .scanning cause => Text.ofString "scanning pref: " ++ cause
  | .interrupted cause => cause
  | .deleting name cause => Text.ofString "deleting " ++ name ++ Text.ofString ": " ++ cause

/-- A database with one table of saved variables, in states of type `σ`. Any step may fail with a
text that says why. -/
structure PrefTable (σ : Type) where
  /-- Starts a transaction. -/
  start : σ → Except Text σ
  /-- Prepares the transaction for rows that are put into the table. -/
  prepare : σ → Except Text Unit
  /-- Puts a row into the table, in place of one that is found by the same name. -/
  replace : σ → Preference → Except Text σ
  commit : σ → Except Text σ
  /-- Removes the row that is found by a name. -/
  remove : σ → Text → Except Text σ
  /-- The rows in the order of their names. -/
  rows : σ → Except PrefError (List Preference)

namespace PrefTable

variable {σ : Type}

def replaceAll (table : PrefTable σ) (vars : List (Text × Value)) (s : σ) : Except PrefError σ :=
  vars.foldlM (fun s (name, v) => (table.replace s (.ofValue name v)).mapError (.saving name)) s

/-- Puts a row for each variable into the table, within one transaction. -/
def transact (table : PrefTable σ) (vars : List (Text × Value)) (s : σ) : Except PrefError σ := do
  let s ← (table.start s).mapError .starting
  (table.prepare s).mapError .preparing
  let s ← table.replaceAll vars s
  (table.commit s).mapError .committing

/-- Saves variables; says how many. Nothing is saved if one of them cannot be. -/
def save (table : PrefTable σ) (vars : List (Text × Value)) (s : σ) : Except PrefError Nat × σ :=
  match table.transact vars s with
  | .ok s' => (.ok vars.length, s')
  | .error e => (.error e, s)

def list (table : PrefTable σ) (pattern : Text) (s : σ) : Except PrefError (List Preference) :=
  (table.rows s).map (·.filter fun p => Glob.matches? pattern p.name)

/-- Removes rows one after the other, up to one that cannot be removed. -/
def removeAll (table : PrefTable σ) : List Preference → σ → Except PrefError Unit × σ
  | [], s => (.ok (), s)
  | p :: ps, s =>
    match table.remove s p.name with
    | .ok s => table.removeAll ps s
    | .error cause => (.error (.deleting p.name cause), s)

/-- Removes the rows that match a pattern; says how many. -/
def delete (table : PrefTable σ) (pattern : Text) (s : σ) : Except PrefError Nat × σ :=
  match table.list pattern s with
  | .error e => (.error e, s)
  | .ok rows =>
    let (removed, s) := table.removeAll rows s
    (removed.map fun _ => rows.length, s)

end PrefTable

/-! ## Tables in memory -/

namespace PrefStore

def Sorted (rows : List Preference) : Prop := rows.Pairwise fun p q => p.key < q.key

/-- Puts a row in its place, where it replaces the one that is found by the same name. -/
def insertRow (p : Preference) : List Preference → List Preference
  | [] => [p]
  | q :: qs =>
    if p.key < q.key then p :: q :: qs
    else if p.key = q.key then p :: qs
    else q :: insertRow p qs

theorem mem_or_eq_of_mem_insertRow {p r : Preference} {rows : List Preference}
    (h : r ∈ insertRow p rows) : r = p ∨ r ∈ rows := by
  induction rows with
  | nil => exact .inl (List.mem_singleton.mp h)
  | cons q qs ih =>
    rw [insertRow] at h
    split at h
    · exact List.mem_cons.mp h
    · split at h
      · exact (List.mem_cons.mp h).imp_right (List.mem_cons_of_mem q)
      · rcases List.mem_cons.mp h with rfl | h
        · exact .inr List.mem_cons_self
        · exact (ih h).imp_right (List.mem_cons_of_mem q)

theorem Sorted.insertRow {rows : List Preference} (h : Sorted rows) (p : Preference) :
    Sorted (insertRow p rows) := by
  induction rows with
  | nil => exact List.pairwise_singleton _ _
  | cons q qs ih =>
    obtain ⟨hq, hqs⟩ := List.pairwise_cons.mp h
    rw [PrefStore.insertRow]
    split
    · rename_i hlt
      apply List.pairwise_cons.mpr
      refine ⟨?_, h⟩
      intro r hr
      rcases List.mem_cons.mp hr with rfl | hr
      · exact hlt
      · exact List.lt_trans hlt (hq r hr)
    · rename_i hlt
      split
      · rename_i heq
        apply List.pairwise_cons.mpr
        refine ⟨?_, hqs⟩
        intro r hr
        rw [heq]
        exact hq r hr
      · rename_i hne
        have hgt : q.key < p.key := by
          rcases List.le_iff_lt_or_eq.mp (List.not_lt.mp hlt) with hgt | he
          · exact hgt
          · exact absurd he.symm hne
        apply List.pairwise_cons.mpr
        refine ⟨?_, ih hqs⟩
        intro r hr
        rcases mem_or_eq_of_mem_insertRow hr with rfl | hr
        · exact hgt
        · exact hq r hr

end PrefStore

/-- Saved variables in the order of their names. -/
structure PrefStore where
  rows : List Preference
  sorted : PrefStore.Sorted rows

namespace PrefStore

def empty : PrefStore := ⟨[], List.Pairwise.nil⟩

instance : Inhabited PrefStore := ⟨empty⟩

def insert (s : PrefStore) (p : Preference) : PrefStore := ⟨insertRow p s.rows, s.sorted.insertRow p⟩

/-- Removes the row that is found by a name. -/
def remove (s : PrefStore) (name : Text) : PrefStore :=
  ⟨s.rows.filter (·.key ≠ Text.lowerAscii name), s.sorted.filter _⟩

def get? (s : PrefStore) (name : Text) : Option Preference :=
  s.rows.find? (·.key == Text.lowerAscii name)

end PrefStore

/-- The table that is kept in memory. -/
def PrefTable.memory : PrefTable PrefStore where
  start := .ok
  prepare _ := .ok ()
  replace s p := .ok (s.insert p)
  commit := .ok
  remove s name := .ok (s.remove name)
  rows s := .ok s.rows

end ConsoleScript
