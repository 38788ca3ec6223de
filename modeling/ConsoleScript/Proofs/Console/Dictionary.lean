import ConsoleScript.Proofs.Console.Escaping
import ConsoleScript.Proofs.Console.Generations

/-!
# The dictionary of globals

Whatever happens to the globals, they are a finite map from names to variables. The number of
buckets and the order of events show nowhere: variables are listed in the order of their spellings,
and two histories that end with the same spellings and values list and export the same.
-/

namespace ConsoleScript

/-- An operation on a dictionary. -/
inductive DictionaryOp where
  | on (op : VarOp)
  | reset

/-- A chained hash table as it should be. -/
structure Table.Invariant (t : Table) : Prop where
  placed : ∀ i, ∀ c ∈ t.chain i, ∃ v, t.cells[c]? = some v ∧
    v.name.id % UInt32.size % (t.buckets.size % UInt32.size) = i
  names : t.linked.Pairwise fun c d =>
    ∀ v w, t.cells[c]? = some v → t.cells[d]? = some w → v.name ≠ w.name
  count : t.count = t.linked.length
  load : t.count ≤ 2 * t.buckets.size

theorem Table.Holds.invariant {t : Table} {b : Bindings} (h : t.Holds b) : t.Invariant where
  placed i c hc := by
    obtain ⟨v, hv, hslot⟩ := h.placed i c hc
    rw [slot, UInt32.toNat_mod, Name.number, UInt32.toNat_ofNat', UInt32.toNat_ofNat'] at hslot
    exact ⟨v, hv, hslot⟩
  names := by
    refine h.nodup.imp_of_mem ?_
    intro c d hc hd hne v w hv hw hname
    obtain ⟨v', hv', hbound⟩ := h.mem_linked_iff.mp hc
    obtain ⟨w', hw', hbound'⟩ := h.mem_linked_iff.mp hd
    rw [h.cells] at hv hw
    obtain rfl : v = v' := Option.some.inj (hv.symm.trans hv')
    obtain rfl : w = w' := Option.some.inj (hw.symm.trans hw')
    rw [hname, hbound'] at hbound
    exact hne (Option.some.inj hbound).symm
  count := h.count
  load := h.load

namespace Bindings

variable {b : Bindings} {names : NameTable} {n : Name} {c : Nat}

/-- Carries out an operation on a finite map; emptying it forgets all variables. -/
def performAny (names : NameTable) (b : Bindings) : DictionaryOp → Answer × NameTable × Bindings
  | .on op => perform names b op
  | .reset => (.done, names, {})

theorem Named.intern (h : Named names b) (spelling : Text) :
    Named (names.intern spelling).2 b := fun n c hn => (h n c hn).intern spelling

theorem Named.mono (h : Named names b) {b' : Bindings}
    (hsub : ∀ (n : Name) (c : Nat), b'.bound[n]? = some c → b.bound[n]? = some c) :
    Named names b' :=
  fun n c hn => h n c (hsub n c hn)

theorem Named.add (h : Named names b) (hn : names.Knows n) : Named names (b.add n).2 := by
  unfold Bindings.add
  split
  · exact h
  · intro m c hm
    dsimp only at hm
    rw [Std.ExtTreeMap.getElem?_insert] at hm
    by_cases he : n = m
    · exact he ▸ hn
    · rw [if_neg (by simpa using he)] at hm
      exact h m c hm

theorem bound_assign? {value : Value} {notices : List Notice} {b' : Bindings}
    (h : b.assign? names c value = some (notices, b')) : b'.bound = b.bound := by
  unfold assign? at h
  split at h
  · split at h
    · cases h
    · cases h
      rfl
  · cases h

theorem bound_remove? {b' : Bindings} (h : b.remove? c = some b') :
    ∃ n, b'.bound = b.bound.erase n := by
  unfold remove? at h
  split at h
  · split at h
    · cases h
      exact ⟨_, rfl⟩
    · cases h
  · cases h

theorem Named.perform (h : Named names b) (hnames : names.Consistent) (op : VarOp) :
    (Bindings.perform names b op).2.1.Consistent ∧
      Named (Bindings.perform names b op).2.1 (Bindings.perform names b op).2.2 := by
  cases op with
  | intern spelling => exact ⟨hnames.intern spelling, h.intern spelling⟩
  | add spelling =>
    have hconsistent := hnames.intern spelling
    have hnamed := h.intern spelling
    unfold Bindings.perform
    dsimp only
    cases hintern : names.intern spelling with
    | mk found names' =>
      rw [hintern] at hconsistent hnamed
      cases found with
      | none => exact ⟨hconsistent, hnamed⟩
      | some n => exact ⟨hconsistent, hnamed.add (hnames.knows_intern hintern)⟩
  | assign c value =>
    unfold Bindings.perform
    dsimp only
    split
    · next notices b' hassign =>
      refine ⟨hnames, h.mono ?_⟩
      rw [bound_assign? hassign]
      exact fun _ _ => id
    · exact ⟨hnames, h⟩
  | setConstant c on => exact ⟨hnames, h⟩
  | watch c watcher => exact ⟨hnames, h⟩
  | remove c =>
    unfold Bindings.perform
    dsimp only
    split
    · next b' hremove =>
      obtain ⟨n, hbound⟩ := bound_remove? hremove
      refine ⟨hnames, h.mono ?_⟩
      intro m d hm
      rw [hbound, Std.ExtTreeMap.getElem?_erase] at hm
      split at hm
      · cases hm
      · exact hm
    · exact ⟨hnames, h⟩
  | delete pattern =>
    refine ⟨hnames, h.mono ?_⟩
    intro n c hn
    have hfilter : (b.bound.filter fun n c => !b.isDoomed names pattern n c)[n]? = some c := hn
    rw [Std.ExtTreeMap.getElem?_filter', Option.filter_eq_some_iff] at hfilter
    exact hfilter.1

end Bindings

namespace Scopes

variable {s s' : Scopes} {id id' : ScopeId} {b b' : Bindings} {names names' : NameTable}

def performGlobal (names : NameTable) (s : Scopes) : DictionaryOp → Answer × NameTable × Scopes
  | .on op => perform .globals names s op
  | .reset => (.done, names, s.reset .globals)

/-- The spellings and values of the variables that match a pattern. -/
def listing (names : NameTable) (s : Scopes) (id : ScopeId) (pattern : Text) :
    List (Text × Value) :=
  (s.matching names id pattern).map fun x => (names.text x.2.name, x.2.value)

theorem exportMatching_eq (pattern : Text) : s.exportMatching names id pattern =
    (listing names s id pattern).flatMap fun x => Value.assignment x.1 x.2 ++ [0x0A] := by
  rw [listing, List.flatMap_map]
  rfl

/-! ## The order of listings -/

theorem Shows.matching_le (h : s.Shows id b) (pattern : Text) :
    (s.matching names id pattern).Pairwise fun x y =>
      Text.le (Text.lower (names.text x.2.name)) (Text.lower (names.text y.2.name)) = true := by
  cases h with
  | @used o t _ has table own holds =>
    rw [matching_eq table own, List.pairwise_map]
    refine (List.pairwise_mergeSort ?_ ?_ _).imp_of_mem ?_
    · intro x y z hxy hyz
      exact Text.le_trans hxy hyz
    · intro x y
      exact Text.le_total x.1 y.1
    · intro x y hx hy hle
      rw [(List.mergeSort_perm _ _).mem_iff, List.mem_filterMap] at hx hy
      obtain ⟨c, -, hc⟩ := hx
      obtain ⟨d, -, hd⟩ := hy
      rwa [← (hit_eq_some.mp hc).2.2.1, ← (hit_eq_some.mp hd).2.2.1]
  | unused has table own =>
    unfold matching
    rw [table]
    exact .nil

/-- Listings are in strict order, since no two names have one spelling. -/
theorem Shows.matching_lt (h : s.Shows id b) (hnames : names.Consistent)
    (hnamed : b.Named names) (pattern : Text) :
    (s.matching names id pattern).Pairwise fun x y =>
      Text.lower (names.text x.2.name) < Text.lower (names.text y.2.name) := by
  have hknows : ∀ x ∈ s.matching names id pattern, names.Knows x.2.name := by
    rintro ⟨r, v⟩ hx
    obtain ⟨c, -, -, hbound, -⟩ := (h.mem_matching pattern).mp hx
    exact hnamed v.name c hbound
  refine ((h.matching_le pattern).and (h.matching_names pattern)).imp_of_mem ?_
  rintro x y hx hy ⟨hle, hne⟩
  apply Text.lt_of_le_of_ne hle
  intro hlower
  exact hne (hnames.eq_of_lower (hknows x hx) (hknows y hy) hlower)

theorem Shows.mem_listing (h : s.Shows id b) (pattern spelling : Text) (value : Value) :
    (spelling, value) ∈ listing names s id pattern ↔
      b.Contains names spelling value ∧ Glob.matches? pattern spelling = true := by
  rw [listing, List.mem_map]
  constructor
  · rintro ⟨⟨r, v⟩, hmem, he⟩
    obtain ⟨c, -, hv, hbound, hmatch⟩ := (h.mem_matching pattern).mp hmem
    cases he
    exact ⟨⟨v.name, c, v, hbound, hv, rfl, rfl⟩, hmatch⟩
  · rintro ⟨⟨n, c, v, hbound, hv, rfl, rfl⟩, hmatch⟩
    obtain ⟨w, hw, hname⟩ := h.name_eq hbound
    obtain rfl : v = w := Option.some.inj (hv.symm.trans hw)
    subst hname
    exact ⟨(s.ref id c, v), (h.mem_matching pattern).mpr ⟨c, rfl, hv, hbound, hmatch⟩, rfl⟩

theorem eq_of_strict_order {l l' : List (Text × Value)}
    (h : l.Pairwise fun x y => Text.lower x.1 < Text.lower y.1)
    (h' : l'.Pairwise fun x y => Text.lower x.1 < Text.lower y.1)
    (hmem : ∀ x, x ∈ l ↔ x ∈ l') : l = l' := by
  have hnodup {l : List (Text × Value)}
      (hl : l.Pairwise fun x y => Text.lower x.1 < Text.lower y.1) : l.Nodup := by
    refine hl.imp ?_
    rintro x y hxy rfl
    exact List.lt_irrefl _ hxy
  refine ((List.perm_ext_iff_of_nodup (hnodup h) (hnodup h')).mpr hmem).eq_of_pairwise ?_ h h'
  intro x y _ _ hxy hyx
  exact absurd (List.lt_trans hxy hyx) (List.lt_irrefl _)

/-- What is listed depends on the spellings and values alone. -/
theorem Shows.listing_congr (h : s.Shows id b) (h' : s'.Shows id' b') (hnames : names.Consistent)
    (hnames' : names'.Consistent) (hnamed : b.Named names) (hnamed' : b'.Named names')
    (hsame : ∀ spelling value, b.Contains names spelling value ↔ b'.Contains names' spelling value)
    (pattern : Text) : listing names s id pattern = listing names' s' id' pattern := by
  apply eq_of_strict_order
  · rw [listing, List.pairwise_map]
    exact h.matching_lt hnames hnamed pattern
  · rw [listing, List.pairwise_map]
    exact h'.matching_lt hnames' hnamed' pattern
  · rintro ⟨spelling, value⟩
    rw [h.mem_listing, h'.mem_listing, hsame]

/-! ## Histories -/

/-- The globals show a finite map, whose names have spellings, and borrow no table. -/
structure Global (names : NameTable) (s : Scopes) (b : Bindings) : Prop where
  shows : s.Shows .globals b
  initial : 0 < s.initial
  table : (s.get .globals).table = none ∨ (s.get .globals).table = some .globals
  consistent : names.Consistent
  named : b.Named names

/-- The globals are listed in strict order of their spellings in lower case. -/
theorem Global.listing_lt (h : Global names s b) (pattern : Text) :
    (listing names s .globals pattern).Pairwise fun x y => Text.lower x.1 < Text.lower y.1 := by
  rw [listing, List.pairwise_map]
  exact h.shows.matching_lt h.consistent h.named pattern

theorem Global.listing_one {n : Name} {v : Variable} {pattern : Text}
    (h : Global names s ⟨#[v], ({} : Bindings).bound.insert n 0⟩)
    (hmatch : Glob.matches? pattern (names.text n) = true) :
    listing names s .globals pattern = [(names.text n, v.value)] := by
  apply eq_of_strict_order (h.listing_lt pattern) (List.pairwise_singleton _ _)
  intro x
  rw [h.shows.mem_listing, List.mem_singleton]
  constructor
  · rintro ⟨⟨m, i, w, hbound, hw, htext, hvalue⟩, -⟩
    simp only [Std.ExtTreeMap.getElem?_insert, Std.ExtTreeMap.getElem?_empty] at hbound
    split at hbound
    · rename_i hm
      obtain rfl := Std.compare_eq_iff_eq.mp hm
      cases hbound
      cases hw
      exact Prod.ext htext.symm hvalue.symm
    · cases hbound
  · rintro rfl
    exact ⟨⟨n, 0, v, Std.ExtTreeMap.getElem?_insert_self, rfl, rfl, rfl⟩, hmatch⟩

theorem global_ofBuckets (buckets : Int) : Global {} (ofBuckets buckets) {} where
  shows := .unused trivial rfl fun t ht => by cases ht
  initial := initial_ofBuckets buckets
  table := .inl rfl
  consistent := NameTable.consistent_empty
  named n c hn := by
    rw [Std.ExtTreeMap.getElem?_empty] at hn
    cases hn

theorem Global.ref_eq (h : Global names s b) (c : Nat) : s.ref .globals c = ⟨.globals, c⟩ := by
  rcases h.table with htable | htable
  · exact ref_of_no_table htable c
  · exact ref_of_table htable c

theorem Global.reset (h : Global names s b) : Global names (s.reset .globals) {} where
  shows := by
    refine .unused trivial (by rw [get_reset s .globals trivial]) (own_reset trivial ?_ ?_)
    · intro t ht
      cases h.shows with
      | @used o t' _ has table own holds =>
        rcases h.table with htable | htable
        · rw [table] at htable
          cases htable
        · obtain rfl : o = .globals := Option.some.inj (table.symm.trans htable)
          rw [ht] at own
          cases own
          exact ⟨b, holds⟩
      | unused has table own => exact ⟨{}, own t ht⟩
    · intro hne t ht
      cases h.shows with
      | used has table own holds =>
        rcases h.table with htable | htable
        · rw [table] at htable
          cases htable
        · exact absurd htable hne
      | unused has table own => exact own t ht
  initial := h.initial
  table := .inl (by rw [get_reset s .globals trivial])
  consistent := h.consistent
  named n c hn := by
    rw [Std.ExtTreeMap.getElem?_empty] at hn
    cases hn

theorem Global.perform (h : Global names s b) (op : DictionaryOp)
    (hfault : ∀ t, op = .on (.add t) →
      s.addFault? .globals = none) :
    (performGlobal names s op).1 = (Bindings.performAny names b op).1 ∧
      (performGlobal names s op).2.1 = (Bindings.performAny names b op).2.1 ∧
      Global (performGlobal names s op).2.1 (performGlobal names s op).2.2
        (Bindings.performAny names b op).2.2 := by
  cases op with
  | reset => exact ⟨rfl, rfl, h.reset⟩
  | on op =>
    obtain ⟨hanswer, hnames, hshows, hchanges⟩ := h.shows.perform h.initial names op
      fun t ht => hfault t (congrArg DictionaryOp.on ht)
    obtain ⟨hconsistent, hnamed⟩ := h.named.perform h.consistent op
    refine ⟨hanswer, hnames, hshows, ?_, ?_, ?_, ?_⟩
    · exact hchanges.initial.symm ▸ h.initial
    · rcases hchanges.table .globals with he | ⟨-, -, hsome⟩
      · exact he.symm ▸ h.table
      · exact .inr hsome
    · exact hnames.symm ▸ hconsistent
    · exact hnames.symm ▸ hnamed

theorem Global.add (h : Global names s b) {n : Name} (hn : names.Knows n) :
    Global names (s.add .globals n).2 (b.add n).2 := by
  obtain ⟨-, hshows, hchanges⟩ := h.shows.add h.initial n
  refine ⟨hshows, hchanges.initial ▸ h.initial, ?_, h.consistent, h.named.add hn⟩
  rcases hchanges.table .globals with he | ⟨-, -, hsome⟩
  · exact he ▸ h.table
  · exact .inr hsome

theorem Global.table?_holds (h : Global names s b) {t : Table} (ht : s.table? .globals = some t) :
    t.Holds b := by
  unfold table? at ht
  cases h.shows with
  | used has table own holds =>
    rw [table, Option.bind_some, own] at ht
    cases ht
    exact holds
  | unused has table own =>
    rw [table] at ht
    cases ht

theorem Usable.performGlobal (hs : s.Usable) (names : NameTable) (op : DictionaryOp) :
    (performGlobal names s op).2.2.Usable := by
  cases op with
  | reset => exact hs.later (s.later_reset .globals)
  | on op => exact hs.later (s.steady_perform .globals names op)

theorem global_runAll {buckets : Int} (hbuckets : Table.Makeable (ofBuckets buckets).initial)
    (history : List DictionaryOp) :
    (runAll performGlobal {} (ofBuckets buckets) history).answers =
      (runAll Bindings.performAny {} {} history).answers ∧
    (runAll performGlobal {} (ofBuckets buckets) history).names =
      (runAll Bindings.performAny {} {} history).names ∧
    Global (runAll performGlobal {} (ofBuckets buckets) history).names
      (runAll performGlobal {} (ofBuckets buckets) history).state
      (runAll Bindings.performAny {} {} history).state := by
  have hstep : ∀ names s b op, Global names s b ∧ s.Usable →
      (performGlobal names s op).1 = (Bindings.performAny names b op).1 ∧
      (performGlobal names s op).2.1 = (Bindings.performAny names b op).2.1 ∧
      Global (performGlobal names s op).2.1 (performGlobal names s op).2.2
        (Bindings.performAny names b op).2.2 ∧ (performGlobal names s op).2.2.Usable := by
    rintro names s b op ⟨h, hs⟩
    obtain ⟨hanswer, hnames, h'⟩ := h.perform op fun _ _ => hs.addFault?_eq .globals
    exact ⟨hanswer, hnames, h', hs.performGlobal names op⟩
  obtain ⟨hanswers, hnames, h, -⟩ := runAll_simulates
    (R := fun names s b => Global names s b ∧ s.Usable) hstep
    ⟨global_ofBuckets buckets, usable_ofBuckets hbuckets⟩ history
  exact ⟨hanswers, hnames, h⟩

/-- With any number of buckets that can be made and counted, and after any history, the globals are
the finite map that the history makes: they give the same answers, keep the invariant of a hash
table, find the same variables and refuse to change constants. They list and export what the map
binds to names that match a pattern, in strict order of the spellings in lower case; a list with
these two properties is unique, so nothing else shows in it. -/
theorem dictionary_refines_map {buckets : Int}
    (hbuckets : Table.Makeable (ofBuckets buckets).initial) (history : List DictionaryOp) :
    let run := runAll performGlobal {} (ofBuckets buckets) history
    let spec := runAll Bindings.performAny {} {} history
    run.answers = spec.answers ∧ run.names = spec.names ∧
    (∀ t, run.state.table? .globals = some t → t.Invariant) ∧
    (∀ n, run.state.find? .globals (some n) = (spec.state.bound[n]?).map (VarRef.mk .globals)) ∧
    (∀ c, run.state.var? ⟨.globals, c⟩ = spec.state.vars[c]?) ∧
    run.state.count .globals = spec.state.bound.size ∧
    (∀ c v value, spec.state.vars[c]? = some v → v.constant = true →
      perform .globals run.names run.state (.assign c value) =
        (.refused, run.names, run.state)) ∧
    (∀ pattern,
      ((run.state.matching run.names .globals pattern).Pairwise fun x y =>
        Text.lower (run.names.text x.2.name) < Text.lower (run.names.text y.2.name)) ∧
      ∀ r v, (r, v) ∈ run.state.matching run.names .globals pattern ↔
        r.owner = .globals ∧ spec.state.vars[r.cell]? = some v ∧
          spec.state.bound[v.name]? = some r.cell ∧
          Glob.matches? pattern (run.names.text v.name) = true) ∧
    (∀ pattern (l : List (Text × Value)),
      (l.Pairwise fun x y => Text.lower x.1 < Text.lower y.1) →
      (∀ spelling value, (spelling, value) ∈ l ↔ spec.state.Contains spec.names spelling value ∧
        Glob.matches? pattern spelling = true) →
      listing run.names run.state .globals pattern = l ∧
      run.state.exportMatching run.names .globals pattern =
        l.flatMap fun x => x.1 ++ [0x20, 0x3D, 0x20] ++ x.2.toScript ++ [0x3B, 0x0A]) ∧
    (∀ spelling value, (spelling, value) ∈ listing run.names run.state .globals "*" ↔
      spec.state.Contains run.names spelling value) ∧
    ∀ buckets', Table.Makeable (ofBuckets buckets').initial → ∀ history',
      let run' := runAll performGlobal {} (ofBuckets buckets') history'
      let spec' := runAll Bindings.performAny {} {} history'
      (∀ spelling value, spec.state.Contains spec.names spelling value ↔
        spec'.state.Contains spec'.names spelling value) →
      ∀ pattern,
        listing run.names run.state .globals pattern =
          listing run'.names run'.state .globals pattern ∧
        run.state.exportMatching run.names .globals pattern =
          run'.state.exportMatching run'.names .globals pattern := by
  intro run spec
  obtain ⟨hanswers, hnames, h⟩ := global_runAll hbuckets history
  refine ⟨hanswers, hnames, fun t ht => (h.table?_holds ht).invariant, ?_, ?_, h.shows.count_eq,
    ?_, ?_, ?_, ?_, ?_⟩
  · intro n
    rw [h.shows.find?_eq]
    exact congrArg (Option.map · _) (funext h.ref_eq)
  · intro c
    rw [← h.ref_eq, h.shows.var?_eq]
  · intro c v value hv hconstant
    rw [perform, assign?, h.shows.var?_eq, hv]
    simp [hconstant]
  · intro pattern
    refine ⟨h.shows.matching_lt h.consistent h.named pattern, ?_⟩
    intro r v
    rw [h.shows.mem_matching]
    constructor
    · rintro ⟨c, rfl, hv, hbound, hmatch⟩
      exact ⟨by rw [h.ref_eq], hv, hbound, hmatch⟩
    · rintro ⟨howner, hv, hbound, hmatch⟩
      refine ⟨r.cell, ?_, hv, hbound, hmatch⟩
      rw [h.ref_eq, ← howner]
  · intro pattern l hstrict hmem
    have hlisting : listing run.names run.state .globals pattern = l := by
      apply eq_of_strict_order (h.listing_lt pattern) hstrict
      rintro ⟨spelling, value⟩
      rw [h.shows.mem_listing, hmem, hnames]
    refine ⟨hlisting, ?_⟩
    rw [exportMatching_eq, hlisting]
    simp only [Value.assignment, List.append_assoc]
    rfl
  · intro spelling value
    rw [h.shows.mem_listing, and_iff_left (Glob.matches?_star spelling)]
  · intro buckets' hbuckets' history' run' spec' hsame pattern
    obtain ⟨-, hnames', h'⟩ := global_runAll hbuckets' history'
    have hlisting : listing run.names run.state .globals pattern =
        listing run'.names run'.state .globals pattern := by
      refine h.shows.listing_congr h'.shows h.consistent h'.consistent h.named h'.named ?_ pattern
      intro spelling value
      rw [hnames, hnames']
      exact hsame spelling value
    refine ⟨hlisting, ?_⟩
    rw [exportMatching_eq, exportMatching_eq, hlisting]

/-- Three variables in a table of one bucket, which grows; the last one is taken out again. -/
theorem dictionary_refines_map_growing :
    let history : List DictionaryOp := [.on (.add "b"), .on (.add "A"), .on (.assign 1 (.int 7)),
      .on (.setConstant 1 true), .on (.assign 1 (.int 8)), .on (.add "c"), .on (.remove 2)]
    let run := runAll performGlobal {} (ofBuckets 1) history
    Table.Makeable (ofBuckets 1).initial ∧
      run.answers = [.cell 0, .cell 1, .told [], .done, .refused, .cell 2, .done] ∧
      run.state.exportMatching run.names .globals "*" = "A = 7;\nb = \"\";\n" := by
  intro history run
  let spec := runAll Bindings.performAny {} {} history
  have hbuckets : Table.Makeable (ofBuckets 1).initial := by decide
  obtain ⟨hanswers, -, -, -, -, -, -, -, hexport, -⟩ := dictionary_refines_map hbuckets history
  refine ⟨hbuckets, hanswers.trans (by decide +kernel), ?_⟩
  refine (hexport "*" [("A", .int 7), ("b", .text [])] (by decide +kernel) ?_).2.trans
    (by decide)
  intro spelling value
  have hbound : spec.state.bound.toList = [(⟨1⟩, 0), (⟨2⟩, 1)] := by decide +kernel
  have hvars : spec.state.vars = #[{ name := ⟨1⟩ },
      { name := ⟨2⟩, value := .int 7, constant := true }, { name := ⟨3⟩ }] := by with_unfolding_all rfl
  have hb : spec.names.text ⟨1⟩ = "b" := by decide +kernel
  have hA : spec.names.text ⟨2⟩ = "A" := by decide +kernel
  have hlookup (n : Name) (c : Nat) : spec.state.bound[n]? = some c ↔
      n = ⟨1⟩ ∧ c = 0 ∨ n = ⟨2⟩ ∧ c = 1 := by
    rw [← Std.ExtTreeMap.mem_toList_iff_getElem?_eq_some, hbound]
    simp
  rw [and_iff_left (Glob.matches?_star spelling)]
  show _ ↔ spec.state.Contains spec.names spelling value
  simp only [Bindings.Contains, hlookup, hvars]
  constructor
  · intro h
    rcases List.mem_cons.mp h with h | h
    · cases h
      exact ⟨⟨2⟩, 1, _, .inr ⟨rfl, rfl⟩, rfl, hA, rfl⟩
    · cases List.mem_singleton.mp h
      exact ⟨⟨1⟩, 0, _, .inl ⟨rfl, rfl⟩, rfl, hb, rfl⟩
  · rintro ⟨n, c, v, ⟨rfl, rfl⟩ | ⟨rfl, rfl⟩, hv, rfl, rfl⟩
    · cases hv
      exact hb ▸ List.mem_cons_of_mem _ List.mem_cons_self
    · cases hv
      exact hA ▸ List.mem_cons_self

/-- Of some numbers of buckets no table can be made, and some are zero in 32 bits: then a variable
cannot be added. With one more than 2 ^ 32 buckets the first name goes to the bucket zero. -/
theorem dictionary_refines_map_too_many :
    (runAll performGlobal {} (ofBuckets 0x4000000000000000) [.on (.add "a")]).answers =
      [.faulted .tooLarge] ∧
    (runAll performGlobal {} (ofBuckets UInt32.size) [.on (.add "a")]).answers =
      [.faulted .zeroDivide] ∧
    (runAll Bindings.performAny {} {} [.on (.add "a")]).answers = [.cell 0] ∧
    Table.slot ⟨1⟩ (UInt32.size + 1) = 0 ∧ 1 % (UInt32.size + 1) = 1 := by
  have hintern : ({} : NameTable).intern "a" = (some ⟨1⟩, (({} : NameTable).intern "a").2) :=
    Prod.ext (by decide) rfl
  have hfault (buckets : Int) (fault : Table.Fault)
      (h : (ofBuckets buckets).addFault? .globals = some fault) :
      (runAll performGlobal {} (ofBuckets buckets) [.on (.add "a")]).answers = [.faulted fault] :=
    congrArg (fun x => [x]) (answer_add_faulted hintern h)
  exact ⟨hfault _ _ (by decide), hfault _ _ (by decide), by decide, by decide, by decide⟩

end Scopes
end ConsoleScript
