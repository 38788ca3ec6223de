import ConsoleScript.Console.State
import ConsoleScript.Proofs.Console.Dictionary

/-!
# Assigning to globals

An assignment by spelling gives the variable of that spelling its value, and no other one. Which
variable that is does not depend on letter case.
-/

namespace ConsoleScript

namespace NameTable

variable {t t' : NameTable} {n m : Name} {s s' : Text}

theorem Consistent.spells_of_find? (h : t.Consistent) (hfind : t.find? s = some n) :
    ∃ s', t.Spells n s' ∧ Text.lower s' = Text.lower s := (h _ n).mp hfind

theorem Consistent.lower_eq (h : t.Consistent) (hs : t.find? s = some n)
    (hs' : t.find? s' = some n) : Text.lower s = Text.lower s' := by
  obtain ⟨a, ha, hlower⟩ := h.spells_of_find? hs
  obtain ⟨b, hb, hlower'⟩ := h.spells_of_find? hs'
  rw [← hlower, ← hlower', ← ha.text_eq, ← hb.text_eq]

theorem find?_intern_self (hintern : t.intern s = (some n, t')) : t'.find? s = some n := by
  rcases intern_cases t s with ⟨-, he⟩ | ⟨m, hfound, he⟩ | ⟨-, he⟩
  · rw [he] at hintern
    cases hintern
  · rw [he] at hintern
    cases hintern
    exact hfound
  · rw [he] at hintern
    cases hintern
    exact Std.TreeMap.getElem?_insert_self

theorem find?_intern_ne (hne : Text.lower s' ≠ Text.lower s) :
    (t.intern s).2.find? s' = t.find? s' := by
  rcases intern_cases t s with ⟨-, he⟩ | ⟨m, -, he⟩ | ⟨-, he⟩
  · rw [he]
  · rw [he]
  · rw [he]
    show (t.byKey.insert (Text.lower s) _)[Text.lower s']? = _
    rw [Std.TreeMap.getElem?_insert, if_neg (by simpa using hne.symm)]
    rfl

theorem exists_intern (hs : s ≠ []) : ∃ n t', t.intern s = (some n, t') := by
  rcases intern_cases t s with ⟨he, -⟩ | ⟨m, -, he⟩ | ⟨-, he⟩
  · exact absurd he hs
  · exact ⟨_, _, he⟩
  · exact ⟨_, _, he⟩

end NameTable

namespace Bindings

variable {b : Bindings} {names : NameTable} {n m : Name}

def value? (names : NameTable) (b : Bindings) (t : Text) : Option Value :=
  (names.find? t).bind fun n => b.bound[n]?.bind fun c => b.vars[c]?.map (·.value)

def Open (b : Bindings) : Prop :=
  ∀ (c : Nat) (v : Variable), b.vars[c]? = some v → v.constant = false

def Sound (b : Bindings) : Prop :=
  ∀ (n : Name) (c : Nat), b.bound[n]? = some c → ∃ v : Variable, b.vars[c]? = some v ∧ v.name = n

theorem Open.add (h : b.Open) (n : Name) : (b.add n).2.Open := by
  unfold Bindings.add
  split
  · exact h
  · intro c v hv
    simp only [Array.getElem?_push] at hv
    split at hv
    · cases hv
      rfl
    · exact h c v hv

theorem bound_add_self (b : Bindings) (n : Name) : (b.add n).2.bound[n]? = some (b.add n).1 := by
  unfold Bindings.add
  split
  · assumption
  · exact Std.ExtTreeMap.getElem?_insert_self

theorem bound_add_ne (b : Bindings) (hne : m ≠ n) : (b.add n).2.bound[m]? = b.bound[m]? := by
  unfold Bindings.add
  split
  · rfl
  · rw [Std.ExtTreeMap.getElem?_insert, if_neg (by simpa using hne.symm)]

theorem vars_add {c : Nat} {v : Variable} (b : Bindings) (h : b.vars[c]? = some v) :
    (b.add n).2.vars[c]? = some v := by
  unfold Bindings.add
  split
  · exact h
  · have hlt := (Array.getElem?_eq_some_iff.mp h).1
    rw [Array.getElem?_push, if_neg (Nat.ne_of_lt hlt), h]

def set (b : Bindings) (n : Name) (value : Value) : Bindings :=
  (b.add n).2.modify (b.add n).1 fun v => { v with value := value }

theorem Open.set (h : b.Open) (n : Name) (value : Value) : (b.set n value).Open := by
  intro c v hv
  simp only [Bindings.set, modify, Array.getElem?_modify] at hv
  split at hv
  · obtain ⟨w, hw, rfl⟩ := Option.map_eq_some_iff.mp hv
    exact h.add n _ w hw
  · exact h.add n _ v hv

theorem Sound.vars_add_self (h : b.Sound) (n : Name) :
    ∃ v, (b.add n).2.vars[(b.add n).1]? = some v := by
  unfold Bindings.add
  split
  · rename_i c hc
    obtain ⟨v, hv, -⟩ := h n c hc
    exact ⟨v, hv⟩
  · exact ⟨_, Array.getElem?_push_size⟩

theorem Sound.add_ne {c : Nat} (h : b.Sound) (hc : b.bound[m]? = some c) (hne : m ≠ n) :
    (b.add n).1 ≠ c := by
  obtain ⟨v, hv, hname⟩ := h m c hc
  unfold Bindings.add
  split
  · rename_i d hd
    rintro rfl
    obtain ⟨w, hw, hname'⟩ := h n d hd
    obtain rfl := Option.some.inj (hv.symm.trans hw)
    exact hne (hname.symm.trans hname')
  · exact (Nat.ne_of_lt (Array.getElem?_eq_some_iff.mp hv).1).symm

theorem value?_set {names' : NameTable} {t : Text} (hsound : b.Sound) (hnames : names.Consistent)
    (hintern : names.intern t = (some n, names')) (value : Value) (t' : Text) :
    value? names' (b.set n value) t' =
      if Text.lower t' = Text.lower t then some value else value? names b t' := by
  have hself := NameTable.find?_intern_self hintern
  have hconsistent := hnames.intern t
  rw [hintern] at hconsistent
  split
  · rename_i hlower
    have hfind : names'.find? t' = some n := by
      rw [← hself, NameTable.find?, NameTable.find?, hlower]
    obtain ⟨v, hv⟩ := hsound.vars_add_self n
    have hbound : (b.set n value).bound[n]? = some (b.add n).1 := bound_add_self b n
    have hvar : (b.set n value).vars[(b.add n).1]? = some { v with value := value } := by
      simp only [Bindings.set, modify, Array.getElem?_modify, if_true, hv, Option.map_some]
    rw [value?, hfind, Option.bind_some, hbound, Option.bind_some, hvar]
    rfl
  · rename_i hlower
    have hfind := NameTable.find?_intern_ne (t := names) hlower
    rw [hintern] at hfind
    rw [value?, value?, hfind]
    cases hn : names.find? t' with
    | none => rfl
    | some m =>
      have hne : m ≠ n := by
        rintro rfl
        rw [← hfind] at hn
        exact hlower (hconsistent.lower_eq hn hself)
      have hbound : (b.set n value).bound[m]? = b.bound[m]? := bound_add_ne b hne
      rw [Option.bind_some, Option.bind_some, hbound]
      cases hc : b.bound[m]? with
      | none => rfl
      | some c =>
        obtain ⟨v, hv, hname⟩ := hsound m c hc
        have hcell := hsound.add_ne hc hne
        simp only [Option.bind_some, Bindings.set, modify, Array.getElem?_modify, if_neg hcell,
          vars_add b hv, hv]

end Bindings

namespace Scopes

variable {s : Scopes} {b : Bindings} {names names' : NameTable} {n : Name} {t : Text}

theorem Global.sound (h : Global names s b) : b.Sound := by
  intro n c hc
  exact h.shows.name_eq hc

theorem Global.owner_add (h : Global names s b) (n : Name) :
    (s.add .globals n).1.owner = .globals := by
  have howner : (s.ensureTable .globals).1 = .globals := by
    unfold Scopes.ensureTable
    rcases h.table with htable | htable <;> rw [htable]
  unfold Scopes.add
  rw [h.shows.find?_eq]
  cases b.bound[n]? with
  | some c =>
    rw [Option.map_some, h.ref_eq]
  | none =>
    simp only [Option.map_none]
    split <;> exact howner

theorem Global.add_intern (h : Global names s b) (hintern : names.intern t = (some n, names')) :
    (s.add .globals n).1 = ⟨.globals, (b.add n).1⟩ ∧
      Global names' (s.add .globals n).2 (b.add n).2 := by
  have hcell := (h.shows.add h.initial n).1
  have howner := h.owner_add n
  have hglobal : Global (names.intern t).2 s b := (h.perform (.on (.intern t)) nofun).2.2
  rw [hintern] at hglobal
  refine ⟨?_, hglobal.add (h.consistent.knows_intern hintern)⟩
  generalize (s.add .globals n).1 = r at hcell howner
  rw [← hcell, ← howner]

theorem Global.assign? (h : Global names s b) {c : Nat} {v : Variable}
    (hv : b.vars[c]? = some v) (hopen : v.constant = false) (value : Value) :
    ∃ notices s', s.assign? names ⟨.globals, c⟩ value = some (notices, s') ∧
      Global names s' (b.modify c fun v => { v with value := value }) := by
  have hglobal := (h.perform (.on (.assign c value)) nofun).2.2
  have hassign : b.assign? names c value = some (v.watchers.map fun w =>
      ⟨w, names.text v.name, value.toText⟩, b.modify c fun v => { v with value := value }) := by
    rw [Bindings.assign?, hv]
    simp [hopen]
  have hscope : s.assign? names (s.ref .globals c) value = some (v.watchers.map fun w =>
      ⟨w, names.text v.name, value.toText⟩,
      s.modifyVariable (s.ref .globals c) fun v => { v with value := value }) := by
    rw [Scopes.assign?, h.shows.var?_eq, hv]
    simp [hopen]
  simp only [performGlobal, Scopes.perform, Bindings.performAny, Bindings.perform, hassign, hscope]
    at hglobal
  rw [h.ref_eq] at hscope hglobal
  exact ⟨_, _, hscope, hglobal⟩

end Scopes

namespace Console

variable {c : Console} {t : Text}

/-- The value of the global variable with a spelling. -/
def global? (c : Console) (t : Text) : Option Value :=
  (c.names.find? t).bind fun n =>
    (c.scopes.find? .globals (some n)).bind fun r => (c.scopes.var? r).map (·.value)

def setGlobal (c : Console) (t : Text) (v : Value) : Console :=
  match c.globalVariable t with
  | (none, c) => c
  | (some r, c) => (c.assign r v).2

/-- The globals are a finite map, and none of them is constant. -/
def Writable (c : Console) : Prop := ∃ b, Scopes.Global c.names c.scopes b ∧ b.Open

theorem global?_eq {b : Bindings} (h : Scopes.Global c.names c.scopes b) (t : Text) :
    c.global? t = b.value? c.names t := by
  rw [global?, Bindings.value?]
  congr 1
  funext n
  rw [h.shows.find?_eq]
  cases b.bound[n]? with
  | none => rfl
  | some i =>
    rw [Option.map_some, Option.bind_some, Option.bind_some, h.shows.var?_eq]

theorem scopes_printAll (c : Console) (lines : List Text) :
    (lines.foldl printLine c).scopes = c.scopes ∧ (lines.foldl printLine c).names = c.names := by
  induction lines generalizing c with
  | nil => exact ⟨rfl, rfl⟩
  | cons line lines ih => exact ih (c.printLine line)

theorem global_setGlobal {b : Bindings} (h : Scopes.Global c.names c.scopes b) (hopen : b.Open)
    (ht : t ≠ []) (v : Value) : ∃ n names' r c',
      c.names.intern t = (some n, names') ∧ c.globalVariable t = (some r, c') ∧
      (c'.assign r v).1 = true ∧ (c.setGlobal t v).names = names' ∧
      Scopes.Global names' (c.setGlobal t v).scopes (b.set n v) := by
  obtain ⟨n, names', hintern⟩ := NameTable.exists_intern (t := c.names) ht
  obtain ⟨hadd, hglobal⟩ := h.add_intern hintern
  obtain ⟨w, hw⟩ := h.sound.vars_add_self n
  obtain ⟨notices, s', hassign, hglobal'⟩ := hglobal.assign? hw (hopen.add n _ w hw) v
  have hvariable : c.globalVariable t = (some ⟨.globals, (b.add n).1⟩,
      { c with names := names', scopes := (c.scopes.add .globals n).2 }) := by
    simp only [globalVariable, intern, hintern, addVariable, hadd]
  refine ⟨n, names', _, _, hintern, hvariable, ?_, ?_, ?_⟩
  · simp only [assign, hassign]
  · simp only [setGlobal, hvariable, assign, hassign, scopes_printAll]
  · simp only [setGlobal, hvariable, assign, hassign, scopes_printAll]
    exact hglobal'

/-- An assignment changes the variable of its spelling, in any letter case, and no other. -/
theorem Writable.setGlobal (h : c.Writable) (ht : t ≠ []) (v : Value) :
    (c.setGlobal t v).Writable ∧ ∀ t', (c.setGlobal t v).global? t' =
      if Text.lower t' = Text.lower t then some v else c.global? t' := by
  obtain ⟨b, hglobal, hopen⟩ := h
  obtain ⟨n, names', r, c', hintern, -, -, hnames, hglobal'⟩ := global_setGlobal hglobal hopen ht v
  rw [← hnames] at hglobal'
  refine ⟨⟨b.set n v, hglobal', hopen.set n v⟩, ?_⟩
  intro t'
  rw [global?_eq hglobal', global?_eq hglobal, hnames]
  exact Bindings.value?_set hglobal.sound hglobal.consistent hintern v t'

end Console

end ConsoleScript
