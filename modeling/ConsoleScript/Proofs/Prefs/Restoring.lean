import ConsoleScript.Proofs.Console.Assignments
import ConsoleScript.Proofs.Number.Lasting
import ConsoleScript.Proofs.Prefs.Rows
import ConsoleScript.Proofs.Source.LowerCase

/-!
# Restoring preferences

A variable that is saved and loaded into an empty dictionary gets its kind and, but for some
numbers, its text back, unless an older row takes its place: one of a name that differs from its own
in the case of letters outside ASCII and is listed behind it.
-/

namespace ConsoleScript

/-! ## Values -/

/-- Does the text of a value stand for a value with the same text? -/
def Value.isLasting : Value → Bool
  | text _ | int _ => true
  | float f => Number.isLasting f

namespace Preference

open Number

theorem parseFloat?_of_digit {t : Text} {f : Float}
    (hhead : ∃ b ∈ (t.dropWhile (· == 0x2D)).head?, isDigit b)
    (hparse : (Decimal.parse? t).map Decimal.value = some (f, false)) :
    parseFloat? t = some f := by
  have hne (word : Text) (hword : ∀ b ∈ (word.dropWhile (· == 0x2D)).head?, isDigit b = false) :
      (t == word) = false := by
    apply Bool.eq_false_iff.mpr
    intro he
    obtain ⟨b, hb, hdigit⟩ := hhead
    rw [eq_of_beq he] at hb
    rw [hword b hb] at hdigit
    cases hdigit
  rw [parseFloat?, hne (Text.ofString "NaN") (by decide +kernel),
    hne (Text.ofString "+Inf") (by decide +kernel), hne (Text.ofString "-Inf") (by decide +kernel),
    hparse]
  rfl

theorem parse?_signed (n : Numeral) (b : Bool) :
    Decimal.parse? (signText b ++ n.spell) = some (n.reading b) := by
  cases b with
  | true => exact n.parse?_minus
  | false => exact n.parse?_spell

theorem head?_signed (n : Numeral) (b : Bool) :
    ∃ d ∈ ((signText b ++ n.spell).dropWhile (· == 0x2D)).head?, isDigit d := by
  obtain ⟨d, hd, hdigit⟩ := n.head?_spell
  have hspell : n.spell.dropWhile (· == 0x2D) = n.spell := by
    cases hs : n.spell with
    | nil => rfl
    | cons e rest =>
      rw [hs, List.head?_cons, Option.some_inj] at hd
      subst hd
      apply List.dropWhile_cons_of_neg
      intro he
      rw [eq_of_beq he] at hdigit
      exact absurd hdigit (by decide)
  have hsigned : (signText b ++ n.spell).dropWhile (· == 0x2D) = n.spell := by
    cases b with
    | true => exact hspell
    | false => exact hspell
  rw [hsigned]
  exact ⟨d, hd, hdigit⟩

/-- The text of a number is read as a number again, and that one has the same text exactly if the
first one lasts. -/
theorem parseFloat?_toText (f : Float) :
    ∃ g, parseFloat? (toText f) = some g ∧ (toText g = toText f ↔ isLasting f = true) := by
  cases hmag : magnitude f with
  | notANumber =>
    have htext : toText f = "NaN" := by rw [toText, hmag]
    have hlasting : isLasting f = true := by rw [isLasting, hmag]
    rw [htext, hlasting]
    exact ⟨_, rfl, by decide⟩
  | infinite =>
    have hlasting : isLasting f = true := by rw [isLasting, hmag]
    cases hneg : isNegative f with
    | true =>
      have htext : toText f = "-Inf" := by rw [toText, hmag, hneg]; rfl
      rw [htext, hlasting]
      exact ⟨-1.0 / 0.0, by decide, by decide⟩
    | false =>
      have htext : toText f = "+Inf" := by rw [toText, hmag, hneg]; rfl
      rw [htext, hlasting]
      exact ⟨_, rfl, by decide⟩
  | finite m q =>
    obtain ⟨n, hwrites⟩ := exists_writes hmag
    have hvalue : (n.reading (isMinus f)).value = ((n.reading (isMinus f)).value.1, false) :=
      Prod.ext rfl hwrites.fits
    refine ⟨(n.reading (isMinus f)).value.1, ?_, hwrites.same_iff⟩
    rw [hwrites.text]
    apply parseFloat?_of_digit
    · exact head?_signed n (isMinus f)
    · rw [parse?_signed, Option.map_some, hvalue]

theorem value_ofValue (name : Text) (v : Value) :
    (ofValue name v).value.kindName = v.kindName ∧
      ((ofValue name v).value.toText = v.toText ↔ v.isLasting = true) := by
  cases v with
  | text t => exact ⟨rfl, by simp [ofValue, value, Value.isLasting]⟩
  | int i =>
    have h : (ofValue name (.int i)).value = .int i := by
      simp only [ofValue, value, Integer.ofText?_textOfInt]
    rw [h]
    simp [Value.isLasting]
  | float f =>
    obtain ⟨g, hread, hsame⟩ := parseFloat?_toText f
    have h : (ofValue name (.float f)).value = .float g := by simp only [ofValue, value, hread]
    rw [h]
    exact ⟨rfl, hsame⟩

end Preference

/-! ## Loading -/

namespace Console

variable {c : Console} {t : Text}

/-- Assigns the values of rows one after the other. -/
def loadAll (c : Console) (rows : List Preference) : Console :=
  rows.foldl (fun c p => c.setGlobal p.name p.value) c

theorem loadRow_snd (c : Console) (p : Preference) : (c.loadRow p).2 = c.setGlobal p.name p.value := by
  rw [loadRow, setGlobal]
  rcases c.globalVariable p.name with ⟨_ | r, c⟩
  · rfl
  · rfl

theorem loadRows_snd (c : Console) (rows : List Preference) : (c.loadRows rows).2 = c.loadAll rows := by
  induction rows generalizing c with
  | nil => rfl
  | cons p rows ih =>
    rw [loadAll, List.foldl_cons, ← loadRow_snd, ← loadAll, ← ih]
    rfl

theorem setGlobal_nil (c : Console) (v : Value) : c.setGlobal [] v = c := rfl

theorem Writable.loadAll (h : c.Writable) (rows : List Preference) : (c.loadAll rows).Writable := by
  induction rows generalizing c with
  | nil => exact h
  | cons p rows ih =>
    apply ih
    dsimp only
    by_cases hname : p.name = []
    · rw [hname, setGlobal_nil]
      exact h
    · exact (h.setGlobal hname p.value).1

theorem Writable.global?_loadAll_ne (h : c.Writable) {rows : List Preference}
    (hne : ∀ p ∈ rows, Text.lower p.name ≠ Text.lower t) :
    (c.loadAll rows).global? t = c.global? t := by
  induction rows generalizing c with
  | nil => rfl
  | cons p rows ih =>
    have hp := hne p List.mem_cons_self
    have hrows : ∀ q ∈ rows, Text.lower q.name ≠ Text.lower t := by
      intro q hq
      exact hne q (List.mem_cons_of_mem p hq)
    rw [Console.loadAll, List.foldl_cons, ← Console.loadAll]
    by_cases hname : p.name = []
    · rw [hname, setGlobal_nil]
      exact ih h hrows
    · have hset := h.setGlobal hname p.value
      rw [ih hset.1 hrows, hset.2, if_neg hp.symm]

theorem Writable.global?_loadAll (h : c.Writable) {before after : List Preference}
    {p : Preference} (hname : p.name ≠ [])
    (hafter : ∀ q ∈ after, Text.lower q.name ≠ Text.lower p.name) :
    (c.loadAll (before ++ p :: after)).global? p.name = some p.value := by
  have hbefore := h.loadAll before
  have hset := hbefore.setGlobal hname p.value
  rw [Console.loadAll, List.foldl_append, List.foldl_cons]
  refine (hset.1.global?_loadAll_ne hafter).trans ?_
  rw [hset.2, if_pos rfl]

/-! ## Saving and loading -/

/-- The globals are those that some history of a dictionary leaves. -/
def HasHistory (c : Console) : Prop := ∃ (buckets : Int) (history : List DictionaryOp),
  Table.Makeable (Scopes.ofBuckets buckets).initial ∧
    (runAll Scopes.performGlobal {} (Scopes.ofBuckets buckets) history).names = c.names ∧
    (runAll Scopes.performGlobal {} (Scopes.ofBuckets buckets) history).state = c.scopes

/-- The variables that match a pattern. -/
def listing (c : Console) (pattern : Text) : List (Text × Value) :=
  Scopes.listing c.names c.scopes .globals pattern

theorem saveGlobals_eq {σ : Type} (c : Console) (table : PrefTable σ) (pattern : Text) (s : σ) :
    c.saveGlobals table pattern s = table.save (c.listing pattern) s := rfl

/-- Nothing was done with the names and the dictionary yet. -/
structure Fresh (c : Console) : Prop where
  names : c.names = {}
  scopes : ∃ buckets : Int, Table.Makeable (Scopes.ofBuckets buckets).initial ∧
    c.scopes = Scopes.ofBuckets buckets

theorem Fresh.writable (h : c.Fresh) : c.Writable := by
  obtain ⟨buckets, -, hscopes⟩ := h.scopes
  refine ⟨{}, ?_, ?_⟩
  · rw [h.names, hscopes]
    exact Scopes.global_ofBuckets buckets
  · intro i v hv
    cases hv

end Console

namespace NameTable

def Worded (t : NameTable) : Prop := ∀ n s, t.Spells n s → s ≠ []

theorem worded_empty : Worded {} := by
  intro n s h
  exact absurd h.2 (by simp)

theorem Worded.intern {t : NameTable} (h : t.Worded) (s : Text) : (t.intern s).2.Worded := by
  by_cases hs : s = []
  · subst hs
    exact h
  · rcases intern_cases t s with ⟨he, -⟩ | ⟨m, -, he⟩ | ⟨-, he⟩
    · exact absurd he hs
    · rw [he]
      exact h
    · rw [he]
      intro n s' hspells
      rcases (spells_push_iff _ s).mp hspells with hold | hnew
      · exact h n s' hold
      · rw [hnew.2]
        exact hs

end NameTable

namespace Scopes

theorem worded_runAll {names : NameTable} (h : names.Worded) (s : Scopes)
    (history : List DictionaryOp) : (runAll performGlobal names s history).names.Worded := by
  induction history generalizing names s with
  | nil => exact h
  | cons op history ih =>
    apply ih
    cases op with
    | reset => exact h
    | on op =>
      cases op with
      | intern spelling => exact h.intern spelling
      | add spelling =>
        have hintern := h.intern spelling
        simp only [perform]
        cases hfound : names.intern spelling with
        | mk found names' =>
          rw [hfound] at hintern
          cases found with
          | none => exact hintern
          | some n =>
            dsimp only
            split <;> exact hintern
      | assign cell value =>
        simp only [perform]
        split <;> exact h
      | setConstant cell on => exact h
      | watch cell watcher => exact h
      | remove cell =>
        simp only [perform]
        split <;> exact h
      | delete pattern => exact h

end Scopes

namespace Console

variable {c : Console}

theorem HasHistory.listing_ne_nil (h : c.HasHistory) {pattern t : Text} {v : Value}
    (hmem : (t, v) ∈ c.listing pattern) : t ≠ [] := by
  obtain ⟨buckets, history, hbuckets, hnames, hscopes⟩ := h
  have hglobal := (Scopes.global_runAll hbuckets history).2.2
  have hworded := Scopes.worded_runAll NameTable.worded_empty (Scopes.ofBuckets buckets) history
  rw [hnames] at hworded
  rw [hnames, hscopes] at hglobal
  obtain ⟨n, i, var, hbound, -, htext, -⟩ := ((hglobal.shows.mem_listing _ _ _).mp hmem).1
  obtain ⟨s, hs⟩ := hglobal.named n i hbound
  rw [← htext, hs.text_eq]
  exact hworded n s hs

theorem HasHistory.listing_lt (h : c.HasHistory) (pattern : Text) :
    (c.listing pattern).Pairwise fun x y => Text.lower x.1 < Text.lower y.1 := by
  obtain ⟨buckets, history, hbuckets, hnames, hscopes⟩ := h
  have hglobal := (Scopes.global_runAll hbuckets history).2.2
  rw [hnames, hscopes] at hglobal
  exact hglobal.listing_lt pattern

theorem HasHistory.matches_of_mem (h : c.HasHistory) {pattern t : Text} {v : Value}
    (hmem : (t, v) ∈ c.listing pattern) : Glob.matches? pattern t = true := by
  obtain ⟨buckets, history, hbuckets, hnames, hscopes⟩ := h
  have hglobal := (Scopes.global_runAll hbuckets history).2.2
  rw [hnames, hscopes] at hglobal
  exact ((hglobal.shows.mem_listing _ _ _).mp hmem).2

theorem HasHistory.eq_of_lower (h : c.HasHistory) {pattern : Text} {x y : Text × Value}
    (hx : x ∈ c.listing pattern) (hy : y ∈ c.listing pattern)
    (hlower : Text.lower x.1 = Text.lower y.1) : x = y := by
  have hlt := h.listing_lt pattern
  generalize c.listing pattern = l at hx hy hlt
  induction l with
  | nil => exact absurd hx List.not_mem_nil
  | cons z l ih =>
    have hz := (List.pairwise_cons.mp hlt).1
    rcases List.mem_cons.mp hx with rfl | hx'
    · rcases List.mem_cons.mp hy with rfl | hy'
      · rfl
      · exact absurd (hlower ▸ hz y hy') (List.lt_irrefl _)
    · rcases List.mem_cons.mp hy with rfl | hy'
      · exact absurd (hlower ▸ hz x hx') (List.lt_irrefl _)
      · exact ih hx' hy' (List.pairwise_cons.mp hlt).2

theorem loadGlobals_eq {σ : Type} {table : PrefTable σ} {content : σ → List Preference}
    (htable : table.Lawful content) (c : Console) (pattern : Text) (s : σ) :
    c.loadGlobals table pattern s =
      (.ok (c.loadRows ((content s).filter fun p => Glob.matches? pattern p.name)).1,
        c.loadAll ((content s).filter fun p => Glob.matches? pattern p.name)) := by
  rw [loadGlobals, htable.list_eq, ← loadRows_snd]

theorem HasHistory.key_ne (h : c.HasHistory) (pattern : Text) :
    (c.listing pattern).Pairwise fun x y => Text.lowerAscii x.1 ≠ Text.lowerAscii y.1 := by
  apply (h.listing_lt pattern).imp
  intro x y hlt hkey
  rw [← Text.lower_lowerAscii x.1, hkey, Text.lower_lowerAscii] at hlt
  exact List.lt_irrefl _ hlt

/-- What is saved from a dictionary and loaded into an empty one: each variable has its kind again,
and its text exactly if its value lasts. Left out are variables behind whose row the table held one
that is named alike but for the case of letters outside ASCII. -/
theorem loadGlobals_saveGlobals {σ : Type} {table : PrefTable σ} {content : σ → List Preference}
    (htable : table.Lawful content) (hdictionary : c.HasHistory) {pattern : Text} {s s' : σ} {n : Nat}
    (hsave : c.saveGlobals table pattern s = (.ok n, s')) {t : Text} {v : Value}
    (hmem : (t, v) ∈ c.listing pattern)
    (hlast : ∀ row ∈ content s, Glob.matches? pattern row.name →
      Text.lower row.name = Text.lower t → ¬ Text.lowerAscii t < row.key)
    {d : Console} (hfresh : d.Fresh) :
    ∃ m d' w, d.loadGlobals table pattern s' = (.ok m, d') ∧ d'.global? t = some w ∧
      w.kindName = v.kindName ∧ (w.toText = v.toText ↔ v.isLasting = true) := by
  have hkeys := hdictionary.key_ne pattern
  have hname := hdictionary.listing_ne_nil hmem
  rw [saveGlobals_eq] at hsave
  have hlisted : Preference.ofValue t v ∈
      (content s').filter fun p => Glob.matches? pattern p.name := by
    apply List.mem_filter.mpr
    rw [Preference.name_ofValue]
    exact ⟨(htable.mem_save hkeys hsave).mpr (.inl ⟨_, hmem, rfl⟩), hdictionary.matches_of_mem hmem⟩
  obtain ⟨before, after, hsplit⟩ := List.append_of_mem hlisted
  have hafter : ∀ q ∈ after, Text.lower q.name ≠ Text.lower (Preference.ofValue t v).name := by
    rw [Preference.name_ofValue]
    intro q hq hlower
    have hlt : Text.lowerAscii t < q.key := by
      have hpairs : PrefStore.Sorted (before ++ Preference.ofValue t v :: after) := by
        rw [← hsplit]
        exact (htable.sorted s').filter _
      rw [← Preference.key_ofValue t v]
      exact (List.pairwise_cons.mp (List.pairwise_append.mp hpairs).2.1).1 q hq
    have hq' : q ∈ (content s').filter fun p => Glob.matches? pattern p.name := by
      rw [hsplit]
      exact List.mem_append_right _ (List.mem_cons_of_mem _ hq)
    obtain ⟨hrow, hmatch⟩ := List.mem_filter.mp hq'
    rcases (htable.mem_save hkeys hsave).mp hrow with ⟨x, hx, rfl⟩ | ⟨hold, -⟩
    · rw [Preference.name_ofValue] at hlower
      rw [Preference.key_ofValue, hdictionary.eq_of_lower hx hmem hlower] at hlt
      exact List.lt_irrefl _ hlt
    · exact hlast q hold hmatch hlower hlt
  have hname' : (Preference.ofValue t v).name ≠ [] := by rwa [Preference.name_ofValue]
  have hglobal := @Writable.global?_loadAll _ hfresh.writable before after _ hname' hafter
  rw [Preference.name_ofValue, ← hsplit] at hglobal
  exact ⟨_, _, _, loadGlobals_eq htable d pattern s', hglobal, Preference.value_ofValue t v⟩

/-- A console with one global variable. -/
def holding (t : Text) (v : Value) : Console :=
  let run := runAll Scopes.performGlobal {} (Scopes.ofBuckets 15) [.on (.add t), .on (.assign 0 v)]
  { names := run.names, scopes := run.state, maxCallDepth := defaultCallDepth }

theorem makeable_holding : Table.Makeable (Scopes.ofBuckets 15).initial := by
  decide

theorem hasHistory_holding (t : Text) (v : Value) : (holding t v).HasHistory :=
  ⟨15, _, makeable_holding, rfl, rfl⟩

theorem listing_holding {t pattern : Text} (ht : t ≠ []) (hmatch : Glob.matches? pattern t = true)
    (v : Value) : (holding t v).listing pattern = [(t, v)] := by
  have hglobal := Scopes.global_runAll makeable_holding [.on (.add t), .on (.assign 0 v)]
  have hintern : ({} : NameTable).intern t = (some ⟨1⟩, ⟨#[t], ({} : NameTable).byKey.insert
      (Text.lower t) ⟨1⟩⟩) := by
    simp [NameTable.intern, ht]
  have hadd : ({} : Bindings).add ⟨1⟩ = (0, ⟨#[{ name := ⟨1⟩ }],
      ({} : Bindings).bound.insert ⟨1⟩ 0⟩) := by
    simp [Bindings.add]
  have hspec : runAll Bindings.performAny {} {} [.on (.add t), .on (.assign 0 v)] =
      ⟨[.cell 0, .told []], ⟨#[t], ({} : NameTable).byKey.insert (Text.lower t) ⟨1⟩⟩,
        ⟨#[{ name := ⟨1⟩, value := v }], ({} : Bindings).bound.insert ⟨1⟩ 0⟩⟩ := by
    simp [runAll, Bindings.performAny, Bindings.perform, hintern, hadd, Bindings.assign?,
      Bindings.modify]
  have hnames := hglobal.2.1
  have hone := hglobal.2.2
  rw [hspec] at hnames hone
  rw [listing, holding]
  dsimp only
  rw [hnames] at hone ⊢
  exact hone.listing_one hmatch

theorem fresh_create : Fresh { create 0 0 with names := {}, scopes := Scopes.ofBuckets 15 } :=
  ⟨rfl, 15, makeable_holding, rfl⟩

/-- A tenth comes back with its text, a million and a half does not. -/
theorem loadGlobals_saveGlobals_floats :
    (∃ n s m d w, (holding "$x" (.float 0.1)).saveGlobals .memory "*" .empty = (.ok n, s) ∧
      loadGlobals { create 0 0 with names := {}, scopes := Scopes.ofBuckets 15 } .memory "*" s =
        (.ok m, d) ∧
      d.global? "$x" = some w ∧ w.toText = "0.1") ∧
    ∃ n s m d w, (holding "$x" (.float 1500000.5)).saveGlobals .memory "*" .empty = (.ok n, s) ∧
      loadGlobals { create 0 0 with names := {}, scopes := Scopes.ofBuckets 15 } .memory "*" s =
        (.ok m, d) ∧
      d.global? "$x" = some w ∧ w.kindName = "float" ∧ w.toText ≠ "1.5e+06" := by
  have hsaved (f : Float) : (holding "$x" (.float f)).saveGlobals .memory "*" .empty =
      (.ok 1, PrefStore.empty.insert (.ofValue "$x" (.float f))) := by
    rw [saveGlobals_eq, listing_holding (by decide) (Glob.matches?_star "$x")]
    rfl
  have hrestored (f : Float) := by
    refine loadGlobals_saveGlobals PrefTable.lawful_memory (hasHistory_holding "$x" (.float f))
      (hsaved f) (t := "$x") (v := .float f) ?_ ?_ fresh_create
    · rw [listing_holding (by decide) (Glob.matches?_star "$x")]
      exact List.mem_singleton_self _
    · intro row hrow
      cases hrow
  constructor
  · obtain ⟨m, d, w, hload, hw, -, hsame⟩ := hrestored 0.1
    exact ⟨_, _, m, d, w, hsaved 0.1, hload, hw, (hsame.mpr (by decide)).trans (by decide)⟩
  · obtain ⟨m, d, w, hload, hw, hkind, hsame⟩ := hrestored 1500000.5
    refine ⟨_, _, m, d, w, hsaved 1500000.5, hload, hw, hkind, ?_⟩
    intro htext
    have hlasting := hsame.mp (htext.trans (by decide))
    exact absurd hlasting (by decide)

end Console

end ConsoleScript
