import ConsoleScript.Console.Namespace
import Mathlib.Data.Finset.Card
import Mathlib.Data.Nat.Find

/-!
# Tables of look-ups

A table is a slice of an arena. Filling it touches no other slice that is given out, and a slice
that is cut off anew is free from end to end.

A name is looked for from the place of its number on, up to a place that is free or has the name.
While a place of the table is free this search ends, and a table that was filled with the entries a
look-up meets has, for every name, the first callable one of them.
-/

namespace ConsoleScript

namespace Arena

variable {α : Type} {a a' : Arena α} {t t' : Slice} {i j n : Nat} {x : α}

def Sound (a : Arena α) : Prop :=
  ∀ b, a.current = some b → ∃ block, a.blocks[b]? = some block ∧ block.size = a.size ∧
    ∀ i, a.used ≤ i → i < a.size → block[i]? = some none

def Held (a : Arena α) (t : Slice) : Prop :=
  ∃ block, a.blocks[t.block]? = some block ∧ t.start + t.length ≤ block.size ∧
    (a.current = some t.block → t.start + t.length ≤ a.used)

def Apart (t t' : Slice) : Prop :=
  t.block ≠ t'.block ∨ t.start + t.length ≤ t'.start ∨ t'.start + t'.length ≤ t.start

theorem sound_empty (size : Nat) : Sound ({ size := size } : Arena α) := by
  intro b hb
  cases hb

theorem sound_reset : a.reset.Sound := sound_empty a.size

theorem Held.get?_isSome (h : a.Held t) (hi : i < t.length) : ∃ v, a.get? t i = some v := by
  obtain ⟨block, hblock, hlength, -⟩ := h
  have hlt : t.start + i < block.size := by omega
  exact ⟨block[t.start + i], by simp [get?, hi, hblock, hlt]⟩

theorem get?_of_le (h : t.length ≤ i) : a.get? t i = none := by
  rw [get?, if_neg (Nat.not_lt.mpr h)]

/-! ## Cutting slices off -/

theorem getElem?_addBlock {b : Nat} {block : Array (Option α)} (h : a.blocks[b]? = some block) :
    (a.addBlock n).blocks[b]? = some block := by
  have hb : b < a.blocks.size := (Array.getElem?_eq_some_iff.mp h).1
  rw [addBlock, Array.getElem?_push, if_neg (Nat.ne_of_lt hb), h]

theorem getElem?_addBlock_size :
    (a.addBlock n).blocks[a.blocks.size]? = some (Array.replicate n none) := by
  simp [addBlock]

theorem Held.block_lt (h : a.Held t) : t.block < a.blocks.size := by
  obtain ⟨block, hblock, -⟩ := h
  exact (Array.getElem?_eq_some_iff.mp hblock).1

theorem Sound.current_lt {b : Nat} (h : a.Sound) (hb : a.current = some b) :
    b < a.blocks.size := by
  obtain ⟨block, hblock, -⟩ := h b hb
  exact (Array.getElem?_eq_some_iff.mp hblock).1

theorem get?_congr (h : a'.blocks[t.block]? = a.blocks[t.block]?) :
    a'.get? t i = a.get? t i := by
  rw [get?, get?, h]

/-- A slice was given out of the arena: it is free, and all others are as they were. -/
structure Allocates (a : Arena α) (n : Nat) (t : Slice) (a' : Arena α) : Prop where
  sound : a'.Sound
  length : t.length = n
  held : a'.Held t
  free : ∀ i < n, a'.get? t i = some none
  keeps : ∀ t', a.Held t' → a'.Held t' ∧ Apart t t' ∧ ∀ i, a'.get? t' i = a.get? t' i

theorem get?_of_replicate {b : Nat} (h : a.blocks[b]? = some (Array.replicate j none)) (hn : n ≤ j)
    (hi : i < n) : a.get? ⟨b, 0, n⟩ i = some none := by
  have hlt : i < j := Nat.lt_of_lt_of_le hi hn
  simp [get?, hi, h, hlt]

theorem allocates_beginBlock (hn : n ≤ a.size) :
    Allocates a n (a.beginBlock n).1 (a.beginBlock n).2 where
  sound := by
    intro b hb
    obtain rfl : a.blocks.size = b := Option.some.inj hb
    refine ⟨_, getElem?_addBlock_size, by simp [beginBlock, addBlock], ?_⟩
    intro i _ hi
    have hlt : i < a.size := hi
    simp [hlt]
  length := rfl
  held := by
    refine ⟨_, getElem?_addBlock_size, ?_, ?_⟩
    · simpa [beginBlock] using hn
    · intro _
      simp [beginBlock]
  free i hi := get?_of_replicate getElem?_addBlock_size hn hi
  keeps t' ht := by
    have hne : a.blocks.size ≠ t'.block := Nat.ne_of_gt ht.block_lt
    obtain ⟨block, hblock, hlength, -⟩ := ht
    refine ⟨⟨block, getElem?_addBlock hblock, hlength, ?_⟩, .inl hne, ?_⟩
    · intro hcurrent
      exact absurd (Option.some.inj hcurrent) hne
    · intro i
      apply get?_congr
      rw [hblock]
      exact getElem?_addBlock hblock

theorem allocates_block (h : a.Sound) :
    Allocates a n ⟨a.blocks.size, 0, n⟩ (a.addBlock n) where
  sound := by
    intro b hb
    obtain ⟨block, hblock, hsize, hfree⟩ := h b hb
    exact ⟨block, getElem?_addBlock hblock, hsize, hfree⟩
  length := rfl
  held := by
    refine ⟨_, getElem?_addBlock_size, by simp, ?_⟩
    intro hcurrent
    exact absurd (h.current_lt hcurrent) (Nat.lt_irrefl _)
  free i hi := get?_of_replicate getElem?_addBlock_size (Nat.le_refl n) hi
  keeps t' ht := by
    have hne : a.blocks.size ≠ t'.block := Nat.ne_of_gt ht.block_lt
    obtain ⟨block, hblock, hlength, hused⟩ := ht
    refine ⟨⟨block, getElem?_addBlock hblock, hlength, hused⟩, .inl hne, ?_⟩
    intro i
    apply get?_congr
    rw [hblock]
    exact getElem?_addBlock hblock

theorem allocates_rest {b : Nat} (h : a.Sound) (hb : a.current = some b)
    (hn : a.used + n ≤ a.size) :
    Allocates a n ⟨b, a.used, n⟩ { a with used := a.used + n } where
  sound := by
    intro b' hb'
    obtain ⟨block, hblock, hsize, hfree⟩ := h b' hb'
    refine ⟨block, hblock, hsize, ?_⟩
    intro i hi
    exact hfree i (Nat.le_trans (Nat.le_add_right _ _) hi)
  length := rfl
  held := by
    obtain ⟨block, hblock, hsize, -⟩ := h b hb
    exact ⟨block, hblock, hsize ▸ hn, fun _ => Nat.le_refl _⟩
  free i hi := by
    obtain ⟨block, hblock, hsize, hfree⟩ := h b hb
    have hplace := hfree (a.used + i) (Nat.le_add_right _ _) (by omega)
    simp [get?, hi, hblock, hplace]
  keeps t' ht := by
    obtain ⟨block, hblock, hlength, hused⟩ := ht
    refine ⟨⟨block, hblock, hlength, ?_⟩, ?_, fun _ => rfl⟩
    · intro hcurrent
      exact Nat.le_trans (hused hcurrent) (Nat.le_add_right _ _)
    · by_cases he : b = t'.block
      · exact .inr (.inr (hused (he ▸ hb)))
      · exact .inl he

theorem allocates_alloc (h : a.Sound) (n : Nat) : Allocates a n (a.alloc n).1 (a.alloc n).2 := by
  unfold alloc
  split
  · exact allocates_block h
  · next hn =>
    split
    · exact allocates_beginBlock (Nat.le_of_not_lt hn)
    · next b hb =>
      split
      · next hroom => exact allocates_rest h hb hroom
      · exact allocates_beginBlock (Nat.le_of_not_lt hn)

/-! ## Filling places -/

structure Fills (t : Slice) (a a' : Arena α) : Prop where
  sound : a.Sound → a'.Sound
  held : ∀ t', a.Held t' → a'.Held t'
  apart : ∀ t', Apart t t' → ∀ i, a'.get? t' i = a.get? t' i

theorem Fills.refl (t : Slice) (a : Arena α) : Fills t a a := ⟨id, fun _ => id, fun _ _ _ => rfl⟩

theorem Fills.trans {a₁ a₂ a₃ : Arena α} (h : Fills t a₁ a₂) (h' : Fills t a₂ a₃) :
    Fills t a₁ a₃ where
  sound hs := h'.sound (h.sound hs)
  held t' ht := h'.held t' (h.held t' ht)
  apart t' ht i := (h'.apart t' ht i).trans (h.apart t' ht i)

theorem getElem?_set (b : Nat) : (a.set t i x).blocks[b]? =
    if i < t.length ∧ t.block = b then
      (a.blocks[b]?).map (·.setIfInBounds (t.start + i) (some x))
    else a.blocks[b]? := by
  unfold set
  by_cases hi : i < t.length
  · by_cases hb : t.block = b
    · simp [hi, hb, Array.getElem?_modify]
    · simp [hi, hb, Array.getElem?_modify]
  · simp [hi]

theorem get?_set_self (h : a.Held t) (hi : i < t.length) (j : Nat) :
    (a.set t i x).get? t j = if j = i then some (some x) else a.get? t j := by
  obtain ⟨block, hblock, hlength, -⟩ := h
  have hlt : t.start + i < block.size := by omega
  have hset : (a.set t i x).blocks[t.block]? =
      some (block.setIfInBounds (t.start + i) (some x)) := by
    rw [getElem?_set, if_pos ⟨hi, rfl⟩, hblock]
    rfl
  unfold get?
  rw [hset, hblock]
  by_cases hj : j = i
  · subst hj
    simp [hi, hlt]
  · have hne : t.start + i ≠ t.start + j := by omega
    simp [hj, Array.getElem?_setIfInBounds_ne hne]

theorem size_blocks_set : (a.set t i x).size = a.size := by
  unfold set
  split <;> rfl

theorem current_set : (a.set t i x).current = a.current := by
  unfold set
  split <;> rfl

theorem used_set : (a.set t i x).used = a.used := by
  unfold set
  split <;> rfl

theorem fills_set (h : a.Held t) : Fills t a (a.set t i x) where
  sound hs := by
    intro b hb
    rw [current_set] at hb
    obtain ⟨block, hblock, hsize, hfree⟩ := hs b hb
    rw [getElem?_set, size_blocks_set, used_set, hblock]
    split
    · next hset =>
      refine ⟨_, rfl, by simpa using hsize, ?_⟩
      intro k hk hlt
      -- The slice is given out, so it ends where the free rest of the block begins.
      obtain ⟨block', hblock', -, hused⟩ := h
      have hend := hused (hset.2 ▸ hb)
      have hne : t.start + i ≠ k := by omega
      rw [Array.getElem?_setIfInBounds_ne hne]
      exact hfree k hk hlt
    · exact ⟨block, rfl, hsize, hfree⟩
  held t' ht := by
    obtain ⟨block, hblock, hlength, hused⟩ := ht
    rw [Held, getElem?_set, current_set, used_set, hblock]
    split
    · exact ⟨_, rfl, by simpa using hlength, hused⟩
    · exact ⟨block, rfl, hlength, hused⟩
  apart t' ht j := by
    unfold get?
    rw [getElem?_set]
    by_cases hset : i < t.length ∧ t.block = t'.block
    · rw [if_pos hset]
      split
      · next hj =>
        have hne : t.start + i ≠ t'.start + j := by
          rcases ht with ht | ht | ht
          · exact absurd hset.2 ht
          · omega
          · omega
        cases a.blocks[t'.block]? with
        | none => rfl
        | some block => simp [Array.getElem?_setIfInBounds_ne hne]
      · rfl
    · rw [if_neg hset]

end Arena

namespace Namespaces

variable {entries : Array Entry} {a a' : Arena EntryId} {t : Slice} {met : List EntryId}
  {e : EntryId} {n : Name} {i j : Nat}

/-! ## Searching a table -/

def HasName (entries : Array Entry) (n : Name) (e : EntryId) : Prop :=
  entries[e]?.any (·.name == some n) = true

def Stops (entries : Array Entry) (a : Arena EntryId) (t : Slice) (n : Name) (i : Nat) : Prop :=
  ∀ e, a.get? t i = some (some e) → HasName entries n e

def EndsAt (entries : Array Entry) (a : Arena EntryId) (t : Slice) (n : Name) (j : Nat) : Prop :=
  ∃ k < t.length, j = (n.id + k) % t.length ∧ Stops entries a t n j ∧
    ∀ l < k, ¬ Stops entries a t n ((n.id + l) % t.length)

theorem EndsAt.lt (h : EndsAt entries a t n j) : j < t.length := by
  obtain ⟨k, hk, rfl, -⟩ := h
  exact Nat.mod_lt _ (by omega)

theorem EndsAt.stops (h : EndsAt entries a t n j) : Stops entries a t n j := by
  obtain ⟨k, -, -, hstops, -⟩ := h
  exact hstops

theorem stops_of_free (hfree : a.get? t i = some none) : Stops entries a t n i := by
  intro e he
  rw [hfree] at he
  cases he

/-- A search goes on from place to place until it stops. -/
theorem probe?_eq_some (hheld : a.Held t) (k fuel i : Nat) (hk : k < fuel)
    (hstops : Stops entries a t n ((i + k) % t.length))
    (hgoes : ∀ l < k, ¬ Stops entries a t n ((i + l) % t.length)) (hpos : 0 < t.length) :
    probe? entries a t n fuel (i % t.length) = some ((i + k) % t.length) := by
  induction k generalizing fuel i with
  | zero =>
    obtain ⟨fuel, rfl⟩ : ∃ m, fuel = m + 1 := ⟨fuel - 1, by omega⟩
    obtain ⟨v, hv⟩ := hheld.get?_isSome (Nat.mod_lt i hpos)
    rw [probe?, hv, Nat.add_zero]
    cases v with
    | none => rfl
    | some e =>
      have hname : HasName entries n e := hstops e hv
      exact if_pos hname
  | succ k ih =>
    obtain ⟨fuel, rfl⟩ : ∃ m, fuel = m + 1 := ⟨fuel - 1, by omega⟩
    obtain ⟨v, hv⟩ := hheld.get?_isSome (Nat.mod_lt i hpos)
    have hfirst := hgoes 0 (Nat.succ_pos k)
    rw [Nat.add_zero] at hfirst
    have hshift (l : Nat) : i + 1 + l = i + (l + 1) := by omega
    cases v with
    | none => exact absurd (stops_of_free hv) hfirst
    | some e =>
      have hname : ¬ HasName entries n e := by
        intro hname
        apply hfirst
        intro e' he'
        rw [hv] at he'
        cases he'
        exact hname
      rw [probe?, hv]
      refine (if_neg hname).trans ?_
      rw [Nat.mod_add_mod, ← hshift k]
      apply ih fuel (i + 1) (by omega)
      · rw [hshift]
        exact hstops
      · intro l hl
        rw [hshift]
        exact hgoes (l + 1) (by omega)

theorem EndsAt.place_eq (h : EndsAt entries a t n j) (hheld : a.Held t) :
    place entries a t n = .ok j := by
  obtain ⟨k, hk, rfl, hstops, hgoes⟩ := h
  rw [place, probe?_eq_some hheld k t.length n.id hk hstops hgoes (by omega)]

/-- The search comes to every place of the table. -/
theorem exists_add_mod_eq (start : Nat) {length : Nat} (hj : j < length) :
    ∃ k < length, (start + k) % length = j := by
  have hpos : 0 < length := by omega
  refine ⟨(j + (length - start % length)) % length, Nat.mod_lt _ hpos, ?_⟩
  have hstart := Nat.mod_lt start hpos
  rw [Nat.add_mod_mod, ← Nat.mod_add_mod, ← Nat.add_assoc, Nat.add_comm (start % length) j,
    Nat.add_assoc, Nat.add_sub_cancel' (Nat.le_of_lt hstart), Nat.add_mod_right,
    Nat.mod_eq_of_lt hj]

theorem exists_endsAt (entries : Array Entry) (n : Name) (hi : i < t.length)
    (hfree : a.get? t i = some none) : ∃ j, EndsAt entries a t n j := by
  classical
  obtain ⟨k, hk, hplace⟩ := exists_add_mod_eq n.id hi
  have hstops : Stops entries a t n ((n.id + k) % t.length) := by
    rw [hplace]
    exact stops_of_free hfree
  have hexists : ∃ k, Stops entries a t n ((n.id + k) % t.length) := ⟨k, hstops⟩
  refine ⟨_, Nat.find hexists, ?_, rfl, Nat.find_spec hexists, ?_⟩
  · exact Nat.lt_of_le_of_lt (Nat.find_min' hexists hstops) hk
  · intro l hl
    exact Nat.find_min hexists hl

/-! ## Filling a table -/

/-- The first of the entries that can be called and has the name. -/
def firstNamed (entries : Array Entry) (met : List EntryId) (n : Name) : Option EntryId :=
  met.find? fun e => entries[e]?.any fun x => !x.body.isGroup && x.name == some n

/-- Can the entry be called, although it has no name? -/
def nameless (entries : Array Entry) (e : EntryId) : Bool :=
  entries[e]?.any fun x => !x.body.isGroup && x.name.isNone

def freePlaces (a : Arena EntryId) (t : Slice) : Finset Nat :=
  (Finset.range t.length).filter fun i => a.get? t i = some none

/-- The table answers for entries that a look-up meets. -/
structure Answers (entries : Array Entry) (a : Arena EntryId) (t : Slice) (met : List EntryId) :
    Prop where
  held : a.Held t
  ends : ∀ n, ∃ j, EndsAt entries a t n j ∧ a.get? t j = some (firstNamed entries met n)
  first : ∀ i e, a.get? t i = some (some e) → ∃ n, firstNamed entries met n = some e
  room : t.length ≤ (freePlaces a t).card + met.length

theorem firstNamed_hasName (h : firstNamed entries met n = some e) : HasName entries n e := by
  have hfound := List.find?_some h
  unfold HasName
  cases hentry : entries[e]? with
  | none =>
    rw [hentry] at hfound
    cases hfound
  | some x =>
    rw [hentry] at hfound
    simp only [Option.any_some, Bool.and_eq_true] at hfound ⊢
    exact hfound.2

theorem HasName.unique {m : Name} (h : HasName entries n e) (h' : HasName entries m e) :
    n = m := by
  unfold HasName at h h'
  cases hentry : entries[e]? with
  | none =>
    rw [hentry] at h
    cases h
  | some x =>
    rw [hentry] at h h'
    simp only [Option.any_some, beq_iff_eq] at h h'
    exact Option.some.inj (h.symm.trans h')

/-- A search ends at a free place when no entry has the name. -/
theorem EndsAt.get?_eq_none (h : EndsAt entries a t n j) (hheld : a.Held t)
    (hfirst : ∀ e, a.get? t j = some (some e) → ∃ m, firstNamed entries met m = some e)
    (hmissing : firstNamed entries met n = none) : a.get? t j = some none := by
  obtain ⟨v, hv⟩ := hheld.get?_isSome h.lt
  cases v with
  | none => exact hv
  | some e =>
    obtain ⟨m, hm⟩ := hfirst e hv
    rw [(h.stops e hv).unique (firstNamed_hasName hm), hm] at hmissing
    cases hmissing

theorem firstNamed_append_singleton : firstNamed entries (met ++ [e]) n =
    (firstNamed entries met n).or (firstNamed entries [e] n) := by
  rw [firstNamed, List.find?_append]
  rfl

theorem Answers.skip (h : Answers entries a t met)
    (hsame : ∀ n, firstNamed entries (met ++ [e]) n = firstNamed entries met n) :
    Answers entries a t (met ++ [e]) where
  held := h.held
  ends n := by
    rw [hsame]
    exact h.ends n
  first i e he := by
    obtain ⟨n, hn⟩ := h.first i e he
    exact ⟨n, (hsame n).trans hn⟩
  room := by
    have hroom := h.room
    rw [List.length_append]
    omega

theorem freePlaces_set (hheld : a.Held t) (hj : j < t.length) :
    freePlaces (a.set t j e) t = (freePlaces a t).erase j := by
  ext i
  simp only [freePlaces, Finset.mem_filter, Finset.mem_erase, Arena.get?_set_self hheld hj]
  by_cases hi : i = j
  · simp [hi]
  · simp [hi]

theorem exists_free (h : 0 < (freePlaces a t).card) : ∃ i < t.length, a.get? t i = some none := by
  obtain ⟨i, hi⟩ := Finset.card_pos.mp h
  obtain ⟨hlt, hfree⟩ := Finset.mem_filter.mp hi
  exact ⟨i, Finset.mem_range.mp hlt, hfree⟩

theorem stops_set_ne (hheld : a.Held t) (hj : j < t.length) (hne : i ≠ j) :
    Stops entries (a.set t j e) t n i ↔ Stops entries a t n i := by
  unfold Stops
  rw [Arena.get?_set_self hheld hj, if_neg hne]

/-- Searches go on from where they went on before: there, the place was not free. -/
theorem not_stops_set (hheld : a.Held t) (hj : j < t.length) (hfree : a.get? t j = some none)
    (h : ¬ Stops entries a t n i) : ¬ Stops entries (a.set t j e) t n i := by
  rw [stops_set_ne hheld hj]
  · exact h
  · rintro rfl
    exact h (stops_of_free hfree)

/-- Filling a free place moves the end of a search only when the search ended there. -/
theorem EndsAt.set_ne (h : EndsAt entries a t n i) (hheld : a.Held t) (hj : j < t.length)
    (hfree : a.get? t j = some none) (hne : i ≠ j) : EndsAt entries (a.set t j e) t n i := by
  obtain ⟨k, hk, rfl, hend, hgoes⟩ := h
  refine ⟨k, hk, rfl, (stops_set_ne hheld hj hne).mpr hend, ?_⟩
  intro l hl
  exact not_stops_set hheld hj hfree (hgoes l hl)

/-- A search ends at the place where it did when an entry of its name is put there. -/
theorem EndsAt.set_self (h : EndsAt entries a t n j) (hheld : a.Held t)
    (hfree : a.get? t j = some none) (hname : HasName entries n e) :
    EndsAt entries (a.set t j e) t n j := by
  have hj := h.lt
  obtain ⟨k, hk, rfl, -, hgoes⟩ := h
  refine ⟨k, hk, rfl, ?_, ?_⟩
  · intro e' he'
    rw [Arena.get?_set_self hheld hj, if_pos rfl] at he'
    cases he'
    exact hname
  · intro l hl
    exact not_stops_set hheld hj hfree (hgoes l hl)

theorem Answers.fill (h : Answers entries a t met) (hend : EndsAt entries a t n j)
    (hnone : firstNamed entries met n = none)
    (hfirst : ∀ m, firstNamed entries [e] m = if m = n then some e else none)
    (hfree : a.get? t j = some none) (hroom : met.length + 1 < t.length) :
    Answers entries (a.set t j e) t (met ++ [e]) := by
  have hj := hend.lt
  have hread (i : Nat) := Arena.get?_set_self h.held hj (x := e) i
  have hheld : (a.set t j e).Held t := (Arena.fills_set h.held).held t h.held
  have hfound : firstNamed entries (met ++ [e]) n = some e := by
    rw [firstNamed_append_singleton, hnone, hfirst, if_pos rfl]
    rfl
  have hother {m : Name} (hm : m ≠ n) :
      firstNamed entries (met ++ [e]) m = firstNamed entries met m := by
    rw [firstNamed_append_singleton, hfirst, if_neg hm, Option.or_none]
  have hcard : t.length ≤ (freePlaces (a.set t j e) t).card + (met ++ [e]).length := by
    have hbefore := h.room
    have herase := Finset.pred_card_le_card_erase (s := freePlaces a t) (a := j)
    rw [freePlaces_set h.held hj, List.length_append, List.length_singleton]
    omega
  have hrest : ∀ i e', (a.set t j e).get? t i = some (some e') →
      ∃ m, firstNamed entries (met ++ [e]) m = some e' := by
    intro i e' he'
    rw [hread] at he'
    by_cases hi : i = j
    · rw [if_pos hi] at he'
      cases he'
      exact ⟨n, hfound⟩
    · rw [if_neg hi] at he'
      obtain ⟨m, hm⟩ := h.first i e' he'
      refine ⟨m, ?_⟩
      rw [hother, hm]
      rintro rfl
      rw [hnone] at hm
      cases hm
  refine ⟨hheld, ?_, hrest, hcard⟩
  intro m
  by_cases hm : m = n
  · subst hm
    refine ⟨j, hend.set_self h.held hfree (firstNamed_hasName hfound), ?_⟩
    rw [hread, if_pos rfl, hfound]
  · obtain ⟨i, hi, hvalue⟩ := h.ends m
    by_cases hij : i = j
    · -- The search for `m` ended at the place that is now taken: it goes on to another free one.
      subst hij
      have hmissing : firstNamed entries (met ++ [e]) m = none := by
        rw [hfree] at hvalue
        rw [hother hm, ← Option.some.inj hvalue]
      have hsome : 0 < (freePlaces (a.set t i e) t).card := by
        rw [List.length_append, List.length_singleton] at hcard
        omega
      obtain ⟨f, hf, hfreef⟩ := exists_free hsome
      obtain ⟨i', hi'⟩ := exists_endsAt entries m hf hfreef
      exact ⟨i', hi', by rw [hi'.get?_eq_none hheld (hrest i') hmissing, hmissing]⟩
    · refine ⟨i, hi.set_ne h.held hj hfree hij, ?_⟩
      rw [hread, if_neg hij, hother hm, hvalue]

/-- One entry is put into a table that has room for it. -/
theorem Answers.enter (h : Answers entries a t met) (hroom : met.length + 1 < t.length)
    (hnamed : nameless entries e = false) :
    ∃ a', enter entries t a e = .ok a' ∧ Answers entries a' t (met ++ [e]) ∧ a.Fills t a' := by
  unfold Namespaces.enter
  cases hentry : entries[e]? with
  | none =>
    have hnone (m : Name) : firstNamed entries [e] m = none := by simp [firstNamed, hentry]
    refine ⟨a, rfl, h.skip ?_, Arena.Fills.refl t a⟩
    intro m
    rw [firstNamed_append_singleton, hnone, Option.or_none]
  | some x =>
    dsimp only
    by_cases hgroup : x.body.isGroup = true
    · have hnone (m : Name) : firstNamed entries [e] m = none := by
        simp [firstNamed, hentry, hgroup]
      rw [if_pos hgroup]
      refine ⟨a, rfl, h.skip ?_, Arena.Fills.refl t a⟩
      intro m
      rw [firstNamed_append_singleton, hnone, Option.or_none]
    · rw [if_neg hgroup]
      cases hname : x.name with
      | none => simp [nameless, hentry, hgroup, hname] at hnamed
      | some n =>
        have hfirst (m : Name) : firstNamed entries [e] m = if m = n then some e else none := by
          by_cases hm : m = n
          · simp [firstNamed, hentry, hgroup, hname, hm]
          · simp [firstNamed, hentry, hgroup, hname, hm, Ne.symm hm]
        obtain ⟨j, hend, hvalue⟩ := h.ends n
        show ∃ a', (do
          let i ← place entries a t n
          return if a.get? t i == some none then a.set t i e else a) = .ok a' ∧ _
        rw [hend.place_eq h.held]
        cases hfound : firstNamed entries met n with
        | none =>
          rw [hfound] at hvalue
          refine ⟨a.set t j e, ?_, h.fill hend hfound hfirst hvalue hroom, Arena.fills_set h.held⟩
          show Except.ok (if a.get? t j == some none then _ else _) = _
          rw [hvalue]
          rfl
        | some e' =>
          rw [hfound] at hvalue
          refine ⟨a, ?_, h.skip ?_, Arena.Fills.refl t a⟩
          · show Except.ok (if a.get? t j == some none then _ else _) = _
            rw [hvalue]
            rfl
          · intro m
            rw [firstNamed_append_singleton, hfirst]
            by_cases hm : m = n
            · rw [hm, hfound]
              rfl
            · rw [if_neg hm, Option.or_none]

theorem enter_nameless (h : nameless entries e = true) : enter entries t a e = .error .absent := by
  unfold nameless at h
  unfold enter
  cases hentry : entries[e]? with
  | none =>
    rw [hentry] at h
    cases h
  | some x =>
    rw [hentry] at h
    simp only [Option.any_some, Bool.and_eq_true, Bool.not_eq_true', Option.isNone_iff_eq_none] at h
    dsimp only
    rw [if_neg (by simp [h.1]), h.2]

/-- The entries are put into a table one by one, up to the first without a name. -/
theorem Answers.foldlM_enter (h : Answers entries a t met) (rest : List EntryId)
    (hroom : met.length + rest.length < t.length) :
    if rest.any (nameless entries) then
      rest.foldlM (Namespaces.enter entries t) a = .error .absent
    else ∃ a', rest.foldlM (Namespaces.enter entries t) a = .ok a' ∧
      Answers entries a' t (met ++ rest) ∧ a.Fills t a' := by
  induction rest generalizing a met with
  | nil => exact ⟨a, rfl, by rwa [List.append_nil], Arena.Fills.refl t a⟩
  | cons e rest ih =>
    rw [List.length_cons] at hroom
    rw [List.any_cons]
    cases hnamed : nameless entries e with
    | true =>
      rw [List.foldlM_cons, enter_nameless hnamed]
      rfl
    | false =>
      obtain ⟨a₁, hok, hanswers, hfills⟩ := h.enter (by omega) hnamed
      have hrest := ih hanswers (by rw [List.length_append, List.length_singleton]; omega)
      have hnext : (e :: rest).foldlM (Namespaces.enter entries t) a =
          rest.foldlM (Namespaces.enter entries t) a₁ := by
        rw [List.foldlM_cons, hok]
        rfl
      rw [hnext, Bool.false_or]
      split at hrest
      · next hany =>
        rw [if_pos hany]
        exact hrest
      · next hany =>
        rw [if_neg hany]
        obtain ⟨a', hok', hanswers', hfills'⟩ := hrest
        rw [List.append_assoc] at hanswers'
        exact ⟨a', hok', hanswers', hfills.trans hfills'⟩

theorem Answers.findIn_eq (h : Answers entries a t met) (n : Name) :
    findIn entries a t n = .ok (firstNamed entries met n) := by
  obtain ⟨j, hend, hvalue⟩ := h.ends n
  unfold findIn
  rw [hend.place_eq h.held]
  show Except.ok (a.get? t j).join = _
  rw [hvalue]
  rfl

theorem Answers.congr (h : Answers entries a t met) (hheld : a'.Held t)
    (hread : ∀ i, a'.get? t i = a.get? t i) : Answers entries a' t met where
  held := hheld
  ends n := by
    simp only [EndsAt, Stops, hread]
    exact h.ends n
  first i e he := h.first i e (by rw [← hread, he])
  room := by
    simp only [freePlaces, hread]
    exact h.room

theorem le_doubled (size need : Nat) : size ≤ doubled size need := by
  fun_induction doubled size need with
  | case1 size _ ih => omega
  | case2 => exact Nat.le_refl _

theorem need_le_doubled {size need : Nat} (h : 0 < size) : need ≤ doubled size need := by
  fun_induction doubled size need with
  | case1 size _ ih => exact ih (by omega)
  | case2 size hstop => omega

theorem answers_nil (hheld : a.Held t) (hpos : 0 < t.length)
    (hfree : ∀ i < t.length, a.get? t i = some none) : Answers entries a t [] where
  held := hheld
  ends n := by
    obtain ⟨j, hj⟩ := exists_endsAt entries n hpos (hfree 0 hpos)
    exact ⟨j, hj, hfree j hj.lt⟩
  first i e he := by
    by_cases hi : i < t.length
    · rw [hfree i hi] at he
      cases he
    · rw [Arena.get?_of_le (Nat.le_of_not_lt hi)] at he
      cases he
  room := by
    have hall : freePlaces a t = Finset.range t.length := by
      rw [freePlaces, Finset.filter_true_of_mem]
      intro i hi
      exact hfree i (Finset.mem_range.mp hi)
    rw [hall, Finset.card_range]
    exact Nat.le_add_right _ _

/-- Building a table gives one that answers for the entries met and leaves all others alone. It
fails when one of these entries can be called but has no name. -/
theorem buildTable_spec {s : Namespaces} (hsound : s.arena.Sound) (id : SpaceId) :
    if (s.visible id).any (nameless s.entries) then s.buildTable id = .error .absent
    else ∃ t a, s.buildTable id = .ok (t, a) ∧ a.Sound ∧ Answers s.entries a t (s.visible id) ∧
      ∀ t', s.arena.Held t' → a.Held t' ∧ ∀ i, a.get? t' i = s.arena.get? t' i := by
  unfold buildTable
  have hsize : 8 ≤ doubled 8 (2 * (s.visible id).length) := le_doubled _ _
  have hneed : 2 * (s.visible id).length ≤ doubled 8 (2 * (s.visible id).length) :=
    need_le_doubled (by omega)
  have halloc := Arena.allocates_alloc hsound (doubled 8 (2 * (s.visible id).length))
  dsimp only
  revert halloc
  rcases s.arena.alloc (doubled 8 (2 * (s.visible id).length)) with ⟨t, a₀⟩
  intro halloc
  dsimp only at halloc ⊢
  have hlength := halloc.length
  have hempty : Answers s.entries a₀ t [] := by
    apply answers_nil halloc.held (by omega)
    rw [hlength]
    exact halloc.free
  have hfold := hempty.foldlM_enter (s.visible id) (by rw [List.length_nil]; omega)
  split at hfold
  · next hany =>
    rw [if_pos hany, hfold]
    rfl
  · next hany =>
    rw [if_neg hany]
    obtain ⟨a, hok, hanswers, hfills⟩ := hfold
    rw [hok]
    refine ⟨t, a, rfl, hfills.sound halloc.sound, hanswers, ?_⟩
    intro t' ht'
    obtain ⟨hheld, hapart, hread⟩ := halloc.keeps t' ht'
    refine ⟨hfills.held t' hheld, ?_⟩
    intro i
    rw [hfills.apart t' hapart, hread]

end Namespaces
end ConsoleScript
