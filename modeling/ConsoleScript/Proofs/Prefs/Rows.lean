import ConsoleScript.Prefs.Store

/-!
# Tables of preferences

What is relied on of a table of saved variables, and what saving and deleting come to under that.
The table holds one row for each name, where the case of ASCII letters does not count, and lists the
rows in the order of their names with the texts that were put into them.
-/

namespace ConsoleScript

@[simp] theorem Preference.name_ofValue (name : Text) (v : Value) : (ofValue name v).name = name := by
  cases v <;> rfl

@[simp] theorem Preference.key_ofValue (name : Text) (v : Value) :
    (ofValue name v).key = Text.lowerAscii name := by
  rw [key, name_ofValue]

theorem Except.mapError_eq_ok {ε ε' α : Type} {f : ε → ε'} {x : Except ε α} {a : α} :
    x.mapError f = .ok a ↔ x = .ok a := by
  cases x with
  | error e => exact iff_of_false nofun nofun
  | ok b =>
    show Except.ok b = Except.ok a ↔ _
    rw [Except.ok.injEq, Except.ok.injEq]

theorem Except.bind_eq_ok {ε α β : Type} {x : Except ε α} {f : α → Except ε β} {b : β} :
    x >>= f = .ok b ↔ ∃ a, x = .ok a ∧ f a = .ok b := by
  cases x with
  | error e => simp [bind, Except.bind]
  | ok a => simp [bind, Except.bind]

theorem PrefStore.Sorted.eq_of_key {rows : List Preference} (h : Sorted rows) {p r : Preference}
    (hp : p ∈ rows) (hr : r ∈ rows) (hkey : p.key = r.key) : p = r := by
  induction rows with
  | nil => exact absurd hp List.not_mem_nil
  | cons q rows ih =>
    obtain ⟨hq, hrows⟩ := List.pairwise_cons.mp h
    rcases List.mem_cons.mp hp with rfl | hp'
    · rcases List.mem_cons.mp hr with rfl | hr'
      · rfl
      · exact absurd (hkey ▸ hq r hr') (List.lt_irrefl _)
    · rcases List.mem_cons.mp hr with rfl | hr'
      · exact absurd (hkey ▸ hq p hp') (List.lt_irrefl _)
      · exact ih hrows hp' hr'

namespace PrefTable

variable {σ : Type} {table : PrefTable σ} {content : σ → List Preference} {s s' : σ}
  {vars : List (Text × Value)} {r : Preference} {n : Nat}

/-- What is relied on of a table, of which `content` is what it holds. -/
structure Lawful (table : PrefTable σ) (content : σ → List Preference) : Prop where
  sorted : ∀ s, PrefStore.Sorted (content s)
  rows : ∀ s, table.rows s = .ok (content s)
  start : ∀ {s s'}, table.start s = .ok s' → content s' = content s
  commit : ∀ {s s'}, table.commit s = .ok s' → content s' = content s
  replace : ∀ {s s' p}, table.replace s p = .ok s' →
    ∀ r, r ∈ content s' ↔ r = p ∨ r ∈ content s ∧ r.key ≠ p.key
  remove : ∀ {s s' name}, table.remove s name = .ok s' →
    ∀ r, r ∈ content s' ↔ r ∈ content s ∧ r.key ≠ Text.lowerAscii name

/-! ## Saving -/

theorem replaceAll_cons {x : Text × Value} :
    table.replaceAll (x :: vars) s = .ok s' ↔
      ∃ s₁, table.replace s (.ofValue x.1 x.2) = .ok s₁ ∧ table.replaceAll vars s₁ = .ok s' := by
  simp only [replaceAll, List.foldlM_cons, Except.bind_eq_ok, Except.mapError_eq_ok]

theorem save_eq_ok (h : table.save vars s = (.ok n, s')) :
    ∃ s₁ s₂, table.start s = .ok s₁ ∧ table.replaceAll vars s₁ = .ok s₂ ∧ table.commit s₂ = .ok s' := by
  have htransact : table.transact vars s = .ok s' := by
    rw [save] at h
    split at h
    · rename_i s'' htransact
      rwa [← (Prod.mk.inj h).2]
    · cases (Prod.mk.inj h).1
  rw [transact] at htransact
  obtain ⟨s₁, hstart, htransact⟩ := Except.bind_eq_ok.mp htransact
  obtain ⟨-, -, htransact⟩ := Except.bind_eq_ok.mp htransact
  obtain ⟨s₂, hall, hcommit⟩ := Except.bind_eq_ok.mp htransact
  exact ⟨s₁, s₂, Except.mapError_eq_ok.mp hstart, hall, Except.mapError_eq_ok.mp hcommit⟩

namespace Lawful

variable (h : table.Lawful content)
include h

/-- Variables of different names have their rows in the table, next to the old rows of all other
names. -/
theorem mem_replaceAll
    (hvars : vars.Pairwise fun x y => Text.lowerAscii x.1 ≠ Text.lowerAscii y.1)
    (hall : table.replaceAll vars s = .ok s') :
    r ∈ content s' ↔ (∃ x ∈ vars, r = .ofValue x.1 x.2) ∨
      r ∈ content s ∧ ∀ x ∈ vars, r.key ≠ Text.lowerAscii x.1 := by
  induction vars generalizing s with
  | nil =>
    obtain rfl : s = s' := Except.ok.inj hall
    simp
  | cons x vars ih =>
    obtain ⟨hx, hvars⟩ := List.pairwise_cons.mp hvars
    obtain ⟨s₁, hreplace, hall⟩ := replaceAll_cons.mp hall
    have hown (he : r = .ofValue x.1 x.2) : ∀ y ∈ vars, r.key ≠ Text.lowerAscii y.1 := by
      intro y hy
      rw [he, Preference.key_ofValue]
      exact hx y hy
    rw [ih hvars hall, h.replace hreplace, List.forall_mem_cons, Preference.key_ofValue, or_and_right,
      and_iff_left_of_imp hown, and_assoc, ← or_assoc, or_comm (b := r = _)]
    simp

theorem mem_save (hvars : vars.Pairwise fun x y => Text.lowerAscii x.1 ≠ Text.lowerAscii y.1)
    (hsave : table.save vars s = (.ok n, s')) :
    r ∈ content s' ↔ (∃ x ∈ vars, r = .ofValue x.1 x.2) ∨
      r ∈ content s ∧ ∀ x ∈ vars, r.key ≠ Text.lowerAscii x.1 := by
  obtain ⟨s₁, s₂, hstart, hall, hcommit⟩ := save_eq_ok hsave
  rw [h.commit hcommit, h.mem_replaceAll hvars hall, h.start hstart]

/-! ## Listing and deleting -/

theorem list_eq (pattern : Text) (s : σ) :
    table.list pattern s = .ok ((content s).filter fun p => Glob.matches? pattern p.name) := by
  rw [list, h.rows]
  rfl

theorem mem_removeAll {rows : List Preference} (hall : table.removeAll rows s = (.ok (), s')) :
    r ∈ content s' ↔ r ∈ content s ∧ ∀ p ∈ rows, r.key ≠ p.key := by
  induction rows generalizing s with
  | nil =>
    obtain rfl : s = s' := (Prod.mk.inj hall).2
    simp
  | cons p rows ih =>
    rw [removeAll] at hall
    split at hall
    · rename_i s₁ hremove
      rw [ih hall, h.remove hremove, List.forall_mem_cons, and_assoc]
      rfl
    · cases (Prod.mk.inj hall).1

/-- Deleting takes the rows that match the pattern, and no others. -/
theorem mem_delete {pattern : Text} (hdelete : table.delete pattern s = (.ok n, s')) :
    r ∈ content s' ↔ r ∈ content s ∧ Glob.matches? pattern r.name = false := by
  rw [delete, h.list_eq] at hdelete
  dsimp only at hdelete
  cases hall : table.removeAll ((content s).filter fun p => Glob.matches? pattern p.name) s with
  | mk result s'' =>
    rw [hall] at hdelete
    obtain ⟨hresult, rfl⟩ := Prod.mk.inj hdelete
    have hok : result = .ok () := by
      cases result with
      | error e => cases hresult
      | ok => rfl
    rw [hok] at hall
    rw [h.mem_removeAll hall]
    apply and_congr_right
    intro hr
    constructor
    · intro hkeys
      apply Bool.eq_false_iff.mpr
      intro hmatch
      exact hkeys r (List.mem_filter.mpr ⟨hr, hmatch⟩) rfl
    · intro hmatch p hp hkey
      obtain ⟨hp, hmatch'⟩ := List.mem_filter.mp hp
      rw [(h.sorted s).eq_of_key hr hp hkey] at hmatch
      exact absurd hmatch' (Bool.eq_false_iff.mp hmatch)

end Lawful

end PrefTable

/-! ## The table in memory -/

namespace PrefStore

variable {rows : List Preference} {p r : Preference}

theorem mem_insertRow (h : Sorted rows) :
    r ∈ insertRow p rows ↔ r = p ∨ r ∈ rows ∧ r.key ≠ p.key := by
  induction rows with
  | nil => simp [insertRow]
  | cons q rows ih =>
    have hq := (List.pairwise_cons.mp h).1
    have ih := ih (List.pairwise_cons.mp h).2
    rw [insertRow]
    split
    · rename_i hlt
      have hkeep : ∀ r ∈ q :: rows, r.key ≠ p.key := by
        intro r hr he
        rcases List.mem_cons.mp hr with rfl | hr
        · exact List.lt_irrefl _ (he ▸ hlt)
        · exact List.lt_irrefl _ (he ▸ List.lt_trans hlt (hq r hr))
      rw [List.mem_cons]
      exact or_congr_right ⟨fun hr => ⟨hr, hkeep r hr⟩, fun hr => hr.1⟩
    · rename_i hlt
      split
      · rename_i heq
        have hkeep : ∀ r ∈ rows, r.key ≠ p.key := by
          intro r hr he
          have hlt := hq r hr
          rw [he, heq] at hlt
          exact List.lt_irrefl _ hlt
        rw [List.mem_cons, List.mem_cons]
        apply or_congr_right
        constructor
        · intro hr
          exact ⟨.inr hr, hkeep r hr⟩
        · rintro ⟨rfl | hr, hne⟩
          · exact absurd heq.symm hne
          · exact hr
      · rename_i hne
        rw [List.mem_cons, List.mem_cons, ih]
        constructor
        · rintro (rfl | rfl | hr)
          · exact .inr ⟨.inl rfl, Ne.symm hne⟩
          · exact .inl rfl
          · exact .inr ⟨.inr hr.1, hr.2⟩
        · rintro (rfl | ⟨rfl | hr, hne⟩)
          · exact .inr (.inl rfl)
          · exact .inl rfl
          · exact .inr (.inr ⟨hr, hne⟩)

end PrefStore

theorem PrefTable.lawful_memory : PrefTable.memory.Lawful PrefStore.rows where
  sorted s := s.sorted
  rows _ := rfl
  start := by
    rintro s _ ⟨⟩
    rfl
  commit := by
    rintro s _ ⟨⟩
    rfl
  replace := by
    rintro s _ p ⟨⟩ r
    exact PrefStore.mem_insertRow s.sorted
  remove := by
    rintro s _ name ⟨⟩ r
    simp [PrefStore.remove]

end ConsoleScript
