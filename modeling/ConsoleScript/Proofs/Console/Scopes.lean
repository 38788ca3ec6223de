import ConsoleScript.Proofs.Console.Dictionary
import ConsoleScript.Proofs.Console.Frames

/-!
# Scopes in use

What is done to variables touches the tables of live scopes only, and the globals stay a finite map
throughout: whether they are changed themselves, or frames come and go.
-/

namespace ConsoleScript

namespace NameTable

variable {t t' t'' : NameTable}

structure Grows (t t' : NameTable) : Prop where
  consistent : t.Consistent → t'.Consistent
  knows : ∀ n, t.Knows n → t'.Knows n

theorem Grows.refl (t : NameTable) : Grows t t := ⟨fun h => h, fun _ h => h⟩

theorem Grows.trans (h : Grows t t') (h' : Grows t' t'') : Grows t t'' :=
  ⟨fun ht => h'.consistent (h.consistent ht), fun n hn => h'.knows n (h.knows n hn)⟩

theorem grows_intern (t : NameTable) (s : Text) : Grows t (t.intern s).2 :=
  ⟨fun h => h.intern s, fun _ h => h.intern s⟩

theorem knows_intern {s : Text} {n : Name} (h : t.intern s = (some n, t')) (ht' : t'.Consistent) :
    t'.Knows n := by
  rcases intern_cases t s with ⟨-, he⟩ | ⟨m, hfound, he⟩ | ⟨-, he⟩
  · rw [he] at h
    cases h
  · rw [he] at h
    cases h
    exact ht'.knows_intern he
  · rw [he] at h
    cases h
    exact ⟨s, (spells_push_iff _ s).mpr (.inr ⟨rfl, rfl⟩)⟩

end NameTable

/-- The scope is that of the globals, or a frame from `base` on and beneath `top`. -/
def ScopeId.In (base top : Nat) : ScopeId → Prop
  | .globals => True
  | .frame i => base ≤ i ∧ i < top

namespace Scopes

variable {base : Nat} {s s' s'' : Scopes} {id o : ScopeId} {r : VarRef}

/-- A frame from `base` on that uses a table is live and uses its own or that of a frame beneath it,
but not beneath `base`. The globals use no table but their own. -/
structure Closed (base : Nat) (s : Scopes) : Prop where
  globals : ∀ o, (s.get .globals).table = some o → o = .globals
  frames : ∀ i o, base ≤ i → (s.get (.frame i)).table = some o →
    i < s.depth ∧ ∃ j, o = .frame j ∧ base ≤ j ∧ j ≤ i

theorem Closed.table (h : s.Closed base) (hid : id.In base s.depth)
    (ho : (s.get id).table = some o) : o.In base s.depth := by
  cases id with
  | globals =>
    rw [h.globals o ho]
    trivial
  | frame i =>
    obtain ⟨hi, j, rfl, hbase, hj⟩ := h.frames i o hid.1 ho
    exact ⟨hbase, Nat.lt_of_le_of_lt hj hi⟩

theorem closed_ofBuckets (buckets : Int) : (ofBuckets buckets).Closed 0 := ⟨by rintro _ ⟨⟩, by rintro _ _ _ ⟨⟩⟩

/-- Tables of live scopes may differ, except for those of frames beneath `base`, and live scopes may
have taken up their own. -/
structure Edits (base : Nat) (s s' : Scopes) : Prop where
  depth : s'.depth = s.depth
  other : ∀ id, ¬ id.In base s.depth → s'.get id = s.get id
  table : ∀ id, (s'.get id).table = (s.get id).table ∨ (s'.get id).table = some id

theorem Edits.refl (base : Nat) (s : Scopes) : Edits base s s :=
  ⟨rfl, fun _ _ => rfl, fun _ => .inl rfl⟩

theorem Edits.trans (h : Edits base s s') (h' : Edits base s' s'') : Edits base s s'' where
  depth := h'.depth.trans h.depth
  other id hid := (h'.other id (h.depth ▸ hid)).trans (h.other id hid)
  table id := by
    rcases h'.table id with he | he
    · rw [he]
      exact h.table id
    · exact .inr he

theorem Edits.mono {base' : Nat} (h : Edits base s s') (hle : base' ≤ base) : Edits base' s s' where
  depth := h.depth
  other id hid := by
    apply h.other
    intro hin
    apply hid
    cases id with
    | globals => trivial
    | frame i => exact ⟨Nat.le_trans hle hin.1, hin.2⟩
  table := h.table

theorem Closed.edits (h : s.Closed base) (hedits : Edits base s s') : s'.Closed base where
  globals o ho := by
    rcases hedits.table .globals with he | he
    · exact h.globals o (he ▸ ho)
    · rw [he] at ho
      cases ho
      rfl
  frames i o hi ho := by
    rw [hedits.depth]
    by_cases hlive : i < s.depth
    · refine ⟨hlive, ?_⟩
      rcases hedits.table (.frame i) with he | he
      · exact (h.frames i o hi (he ▸ ho)).2
      · rw [he] at ho
        cases ho
        exact ⟨i, rfl, hi, Nat.le_refl i⟩
    · rw [hedits.other (.frame i) fun hin => hlive hin.2] at ho
      exact h.frames i o hi ho

theorem edits_modify (hid : id.In base s.depth) {f : Scope → Scope}
    (hf : ∀ sc, (f sc).table = sc.table ∨ (f sc).table = some id) : Edits base s (s.modify id f) where
  depth := depth_modify
  other j hj := get_modify_ne fun he => hj (he ▸ hid)
  table j := by
    rcases get_modify_cases s id f j with he | ⟨rfl, he⟩
    · exact .inl (by rw [he])
    · rw [he]
      exact hf _

theorem edits_own (ho : o.In base s.depth) (own : Scope → Option Table) :
    Edits base s (s.modify o fun sc => { sc with own := own sc }) :=
  edits_modify ho fun _ => .inl rfl

theorem edits_modifyTable (ho : o.In base s.depth) (f : Table → Table) :
    Edits base s (s.modifyTable o f) := by
  rw [modifyTable]
  exact edits_own ho _

theorem edits_ensureTable (hid : id.In base s.depth) : Edits base s (s.ensureTable id).2 := by
  rw [ensureTable]
  split
  · exact .refl base s
  · dsimp only
    exact edits_modify hid fun _ => .inr rfl

theorem Closed.ensureTable (h : s.Closed base) (hid : id.In base s.depth) :
    (s.ensureTable id).1.In base s.depth := by
  rw [Scopes.ensureTable]
  split
  · exact h.table hid ‹_›
  · exact hid

theorem Closed.find? (h : s.Closed base) (hid : id.In base s.depth) {n : Option Name}
    (hr : s.find? id n = some r) : r.owner.In base s.depth := by
  simp only [Scopes.find?, Option.bind_eq_bind, Option.bind_eq_some_iff] at hr
  obtain ⟨o, ho, t, -, n', -, cell, -, he⟩ := hr
  cases he
  exact h.table hid ho

theorem Closed.add (h : s.Closed base) (hid : id.In base s.depth) (n : Name) :
    Edits base s (s.add id n).2 ∧ (s.add id n).1.owner.In base s.depth := by
  rw [Scopes.add]
  split
  · exact ⟨.refl base s, h.find? hid ‹_›⟩
  · have howner := h.ensureTable hid
    have hedits : Edits base s (s.ensureTable id).2 := edits_ensureTable hid
    dsimp only
    split
    · dsimp only
      exact ⟨hedits.trans (edits_own (hedits.depth ▸ howner) _), howner⟩
    · exact ⟨hedits, howner⟩

theorem edits_assign? {names : NameTable} {v : Value} {notices : List Notice}
    (hr : r.owner.In base s.depth) (h : s.assign? names r v = some (notices, s')) :
    Edits base s s' := by
  rw [eq_of_assign? h]
  exact edits_modifyTable hr _

theorem Closed.remove? (h : s.Closed base) (hid : id.In base s.depth)
    (hs : s.remove? id r = some s') : Edits base s s' := by
  simp only [Scopes.remove?, Option.bind_eq_bind, Option.bind_eq_some_iff] at hs
  obtain ⟨o, ho, t, -, hs⟩ := hs
  split at hs
  · cases hs
    exact edits_modifyTable (h.table hid ho) _
  · cases hs

theorem Closed.deleteMatching (h : s.Closed base) (names : NameTable) (pattern : Text) :
    Edits base s (s.deleteMatching names .globals pattern).2 := by
  rw [deleteMatching_eq]
  generalize s.matching names .globals pattern = listed
  generalize (0 : Nat) = n
  induction listed generalizing n s with
  | nil => exact .refl base s
  | cons y listed ih =>
    rw [List.foldl_cons, deleteOne]
    split
    · exact ih h n
    · split
      · rename_i s₁ hs
        have hglobals : ScopeId.globals.In base s.depth := trivial
        have hedits := h.remove? hglobals hs
        exact hedits.trans (ih (h.edits hedits) _)
      · exact ih h n

/-! ### Frames -/

theorem Closed.nextSlot (h : s.Closed base) {f : Scope → Scope}
    (hf : base ≤ s.depth → ∀ o, (f (s.get (.frame s.depth))).table = some o →
      ∃ j, o = .frame j ∧ base ≤ j ∧ j ≤ s.depth) :
    (s.nextSlot.2.modify (.frame s.depth) f).Closed base := by
  have hget := get_modify_cases s.nextSlot.2 (.frame s.depth) f
  refine ⟨?_, ?_⟩
  · intro o ho
    obtain he | ⟨he, -⟩ := hget .globals
    · rw [he, get_nextSlot] at ho
      exact h.globals o ho
    · cases he
  · intro i o hi ho
    rw [depth_modify]
    obtain he | ⟨heq, he⟩ := hget (.frame i)
    · rw [he, get_nextSlot] at ho
      obtain ⟨hlive, howner⟩ := h.frames i o hi ho
      exact ⟨Nat.lt_succ_of_lt hlive, howner⟩
    · rw [he, get_nextSlot] at ho
      cases heq
      exact ⟨Nat.lt_succ_self _, hf hi o ho⟩

theorem depth_push (s : Scopes) (name : Option Name) (ns : Option Nat) :
    (s.push name ns).2.depth = s.depth + 1 :=
  depth_modify

theorem depth_ensureTable (s : Scopes) (id : ScopeId) : (s.ensureTable id).2.depth = s.depth := by
  rw [ensureTable]
  split
  · rfl
  · exact depth_modify

theorem depth_pushShared (s : Scopes) (i : Int) : (s.pushShared i).2.depth = s.depth + 1 := by
  rw [pushShared]
  split
  · exact depth_modify
  · exact depth_modify.trans (congrArg Nat.succ (s.depth_ensureTable _))

theorem fst_pushShared (s : Scopes) (i : Int) : (s.pushShared i).1 = .frame s.depth := by
  rw [pushShared]
  split
  · rfl
  · exact congrArg ScopeId.frame (s.depth_ensureTable _)

/-- Free slots use no tables. -/
theorem Closed.top (h : s.Closed 0) : s.Closed s.depth where
  globals := h.globals
  frames i o hi ho := absurd (h.frames i o (Nat.zero_le i) ho).1 (Nat.not_lt.mpr hi)

theorem Closed.push (h : s.Closed base) (name : Option Name) (ns : Option Nat) :
    (s.push name ns).2.Closed base := by
  refine h.nextSlot ?_
  intro hbase o ho
  dsimp only at ho
  split at ho
  · cases ho
    exact ⟨s.depth, rfl, hbase, Nat.le_refl _⟩
  · cases ho

theorem Closed.lender (h : s.Closed base) {i : Nat} (hi : base ≤ i) (hlive : i < s.depth) :
    ∃ j, (s.ensureTable (.frame i)).1 = .frame j ∧ base ≤ j ∧ j < s.depth := by
  rw [Scopes.ensureTable]
  split
  · rename_i o ho
    obtain ⟨-, j, rfl, hbase, hj⟩ := h.frames i o hi ho
    exact ⟨j, rfl, hbase, Nat.lt_of_le_of_lt hj hlive⟩
  · exact ⟨i, rfl, hi, hlive⟩

theorem Closed.pushShared (h : s.Closed base) {i : Int} (hi : 0 ≤ i → base ≤ i.toNat) :
    (s.pushShared i).2.Closed base := by
  rw [Scopes.pushShared]
  split
  · refine h.nextSlot ?_
    intro hbase o ho
    dsimp only at ho
    split at ho
    · cases ho
      exact ⟨s.depth, rfl, hbase, Nat.le_refl _⟩
    · cases ho
  · rename_i lender hlender
    rw [frame?] at hlender
    split at hlender
    · rename_i hlive
      cases hlender
      have hlive' : i.toNat < s.depth := by omega
      obtain ⟨j, howner, hbase, hj⟩ := h.lender (hi hlive.1) hlive'
      have hedits : Edits base s (s.ensureTable (.frame i.toNat)).2 :=
        edits_ensureTable ⟨hi hlive.1, hlive'⟩
      refine (h.edits hedits).nextSlot ?_
      intro _ o ho
      dsimp only at ho
      rw [howner] at ho
      cases ho
      exact ⟨j, rfl, hbase, hedits.depth ▸ Nat.le_of_lt hj⟩
    · cases hlender

theorem table_reset (s : Scopes) (i : Nat) : ((s.reset (.frame i)).get (.frame i)).table = none := by
  by_cases has : i < s.frames.size
  · have has' : s.Has (.frame i) := has
    rw [get_reset s _ has']
  · simp [reset, modify, get, has]

theorem Closed.pop (h : s.Closed base) : s.pop.Closed base := by
  by_cases hpos : s.depth = 0
  · rw [Scopes.pop, if_pos hpos]
    exact h
  · have hpopped := popped_pop hpos
    refine ⟨?_, ?_⟩
    · intro o ho
      rw [hpopped.other .globals (by rintro ⟨⟩)] at ho
      exact h.globals o ho
    · intro i o hi ho
      rw [hpopped.depth]
      by_cases htop : i = s.depth - 1
      · subst htop
        rw [hpopped.top, table_reset] at ho
        cases ho
      · rw [hpopped.other _ fun he => htop (ScopeId.frame.inj he)] at ho
        obtain ⟨hlive, howner⟩ := h.frames i o hi ho
        exact ⟨by omega, howner⟩

/-! ### Globals -/

variable {names names' : NameTable} {n : Name} {b : Bindings}

/-- The globals are a finite map, whose names have spellings. -/
def Tabled (names : NameTable) (s : Scopes) : Prop := ∃ b, Global names s b

structure SameGlobals (s s' : Scopes) : Prop where
  initial : s'.initial = s.initial
  get : s'.get .globals = s.get .globals

theorem SameGlobals.refl (s : Scopes) : SameGlobals s s := ⟨rfl, rfl⟩

theorem SameGlobals.trans (h : SameGlobals s s') (h' : SameGlobals s' s'') : SameGlobals s s'' :=
  ⟨h'.initial.trans h.initial, h'.get.trans h.get⟩

theorem Global.same (h : Global names s b) (hsame : SameGlobals s s') : Global names s' b where
  shows := by
    cases h.shows with
    | @used o t _ has table own holds =>
      obtain rfl : o = .globals := by
        rcases h.table with htable | htable
        · rw [table] at htable
          cases htable
        · exact Option.some.inj (table.symm.trans htable)
      have hhas : s'.Has .globals := trivial
      exact .used hhas (hsame.get ▸ table) (hsame.get ▸ own) holds
    | unused has table own => exact .unused trivial (hsame.get ▸ table) (hsame.get ▸ own)
  initial := hsame.initial ▸ h.initial
  table := hsame.get ▸ h.table
  consistent := h.consistent
  named := h.named

theorem Tabled.listing_lt (h : Tabled names s) (pattern : Text) :
    (listing names s .globals pattern).Pairwise fun x y => Text.lower x.1 < Text.lower y.1 := by
  obtain ⟨b, h⟩ := h
  exact h.listing_lt pattern

theorem Tabled.same (h : Tabled names s) (hsame : SameGlobals s s') : Tabled names s' := by
  obtain ⟨b, h⟩ := h
  exact ⟨b, h.same hsame⟩

theorem Tabled.grow (h : Tabled names s) (hnames : names.Grows names') : Tabled names' s := by
  obtain ⟨b, h⟩ := h
  refine ⟨b, h.shows, h.initial, h.table, hnames.consistent h.consistent, ?_⟩
  intro n i hn
  exact hnames.knows n (h.named n i hn)

theorem sameGlobals_modify {i : Nat} {f : Scope → Scope} : SameGlobals s (s.modify (.frame i) f) :=
  ⟨initial_modify, get_modify_ne (by rintro ⟨⟩)⟩

theorem sameGlobals_ensureTable (s : Scopes) (i : Nat) :
    SameGlobals s (s.ensureTable (.frame i)).2 := by
  rw [ensureTable]
  split
  · exact .refl s
  · exact sameGlobals_modify

theorem Closed.sameGlobals_add (h : s.Closed base) {i : Nat} (hi : base ≤ i) (hlive : i < s.depth)
    (n : Name) : SameGlobals s (s.add (.frame i) n).2 := by
  obtain ⟨j, howner, -, -⟩ := h.lender hi hlive
  rw [Scopes.add]
  split
  · exact .refl s
  · have hsame := s.sameGlobals_ensureTable i
    generalize s.ensureTable (.frame i) = p at howner hsame
    obtain ⟨o, s₁⟩ := p
    obtain rfl : o = .frame j := howner
    dsimp only
    split
    · exact hsame.trans sameGlobals_modify
    · exact hsame

theorem Tabled.add (h : Tabled names s) (hclosed : s.Closed base) (hid : id.In base s.depth)
    (hn : names.Consistent → names.Knows n) : Tabled names (s.add id n).2 := by
  cases id with
  | frame i => exact h.same (hclosed.sameGlobals_add hid.1 hid.2 n)
  | globals =>
    obtain ⟨b, h⟩ := h
    exact ⟨(b.add n).2, h.add (hn h.consistent)⟩

theorem Tabled.assign? {v : Value} {notices : List Notice} (h : Tabled names s)
    (hs : s.assign? names r v = some (notices, s')) : Tabled names s' := by
  obtain ⟨owner, i⟩ := r
  cases owner with
  | frame j =>
    rw [eq_of_assign? hs]
    exact h.same sameGlobals_modify
  | globals =>
    obtain ⟨b, h⟩ := h
    have hglobal := (h.perform (.on (.assign i v)) nofun).2.2
    simp only [performGlobal, perform, h.ref_eq, hs] at hglobal
    exact ⟨_, hglobal⟩

theorem Tabled.deleteMatching (h : Tabled names s) (pattern : Text) :
    Tabled names (s.deleteMatching names .globals pattern).2 := by
  obtain ⟨b, h⟩ := h
  exact ⟨_, (h.perform (.on (.delete pattern)) nofun).2.2⟩

theorem sameGlobals_nextSlot (s : Scopes) (f : Scope → Scope) :
    SameGlobals s (s.nextSlot.2.modify (.frame s.depth) f) :=
  have hslot : SameGlobals s s.nextSlot.2 := ⟨rfl, rfl⟩
  hslot.trans sameGlobals_modify

theorem sameGlobals_push (s : Scopes) (name : Option Name) (ns : Option Nat) :
    SameGlobals s (s.push name ns).2 :=
  s.sameGlobals_nextSlot _

theorem sameGlobals_pushShared (s : Scopes) (i : Int) : SameGlobals s (s.pushShared i).2 := by
  rw [pushShared]
  split
  · exact s.sameGlobals_nextSlot _
  · rename_i lender hlender
    rw [frame?] at hlender
    split at hlender
    · cases hlender
      exact (s.sameGlobals_ensureTable i.toNat).trans (sameGlobals_nextSlot _ _)
    · cases hlender

theorem sameGlobals_pop (s : Scopes) : SameGlobals s s.pop := by
  by_cases hpos : s.depth = 0
  · rw [Scopes.pop, if_pos hpos]
    exact .refl s
  · have hpopped := popped_pop hpos
    exact ⟨hpopped.initial, hpopped.other .globals (by rintro ⟨⟩)⟩

end Scopes

end ConsoleScript
