import ConsoleScript.Console.Glob
import Mathlib.Data.List.Forall2

/-!
# Escaped patterns

A pattern that was escaped is well formed, and no class and no slash is left in it. So matching it
comes to something simpler: all that a pattern consists of is stars, question marks and bytes that
stand for themselves.
-/

namespace ConsoleScript.Glob

/-! ## Patterns without classes -/

inductive Item where
  | any
  | byte (b : UInt8)
  deriving DecidableEq

/-- A run of elements; `floating` when a star stands in front of it. -/
structure Chunk where
  floating : Bool
  items : List Item
  deriving DecidableEq

/-- The text that patterns are matched against: lower case, with zero bytes for slashes. -/
def fold (t : Text) : Text := (Text.lower t).map fun b => if b == 0x2F then 0 else b

def Item.ofByte (b : UInt8) : Item := if b == 0x3F then .any else .byte b

/-- Cuts a folded pattern at its stars. -/
def chunksFrom (floating : Bool) (items : List Item) : Text → List Chunk
  | [] => if floating || !items.isEmpty then [⟨floating, items.reverse⟩] else []
  | b :: t =>
    if b == 0x2A then
      if items.isEmpty then chunksFrom true [] t
      else ⟨floating, items.reverse⟩ :: chunksFrom true [] t
    else chunksFrom floating (Item.ofByte b :: items) t

def chunks (pattern : Text) : List Chunk := chunksFrom false [] (fold pattern)

/-- What is left of a text behind the elements, when they fit its start. -/
def fit : List Item → Text → Option Text
  | [], t => some t
  | _ :: _, [] => none
  | .any :: items, b :: t => fit items (t.drop (Text.headChar b t).2)
  | .byte c :: items, b :: t => if c == b then fit items t else none

/-- Fits the elements to the start of a text; the last chunk has to use it up. -/
def fitHere (last : Bool) (items : List Item) (t : Text) : Option Text :=
  match fit items t with
  | some rest => if last && !rest.isEmpty then none else some rest
  | none => none

/-- The first place behind the start of a text where the elements fit. -/
def fitLater (last : Bool) (items : List Item) : Text → Option Text
  | [] => none
  | _ :: t => (fitHere last items t).or (fitLater last items t)

def matchChunks : List Chunk → Text → Bool
  | [], t => t.isEmpty
  | ⟨floating, items⟩ :: more, t =>
    if floating && items.isEmpty then true
    else
      let here := fitHere more.isEmpty items t
      match if floating then here.or (fitLater more.isEmpty items t) else here with
      | some rest => matchChunks more rest
      | none => false

/-! ## What escaping leaves -/

variable {t rest : Text} {l : List Item} {last : Bool}

/-- A byte with a backslash in front of it if it needs one. -/
def quoted (b : UInt8) : Text := if b == 0x5C || b == 0x5B then [0x5C, b] else [b]

theorem escape_eq (t : Text) : escape t = (slashFree t).flatMap quoted := by
  rw [slashFree, List.flatMap_map, escape]
  refine List.flatMap_congr fun b _ => ?_
  by_cases hback : b = 0x5C
  · subst hback
    rfl
  · by_cases hopen : b = 0x5B
    · subst hopen
      rfl
    · by_cases hslash : b = 0x2F
      · subst hslash
        rfl
      · simp [quoted, hback, hopen, hslash]

theorem not_mem_slashFree (t : Text) : (0x2F : UInt8) ∉ slashFree t := by
  intro h
  obtain ⟨b, -, hb⟩ := List.mem_map.mp h
  split at hb
  · exact absurd hb (by decide)
  · rename_i hne
    exact hne (beq_iff_eq.mpr hb)

def Item.full : Item → PathPattern.Item
  | .any => .any
  | .byte b => .byte b

theorem isEmpty_quoted (q : Text) : (q.flatMap quoted).isEmpty = q.isEmpty := by
  cases q with
  | nil => rfl
  | cons b q =>
    rw [List.flatMap_cons, quoted]
    split <;> rfl

/-- An escaped chunk is well formed. -/
theorem parse_quoted (q : Text) : PathPattern.parse (q.flatMap quoted) =
    .ok ((q.map Item.ofByte).map Item.full) := by
  induction q with
  | nil =>
    rw [List.flatMap_nil, PathPattern.parse]
    rfl
  | cons b q ih =>
    rw [List.flatMap_cons, quoted]
    split
    · rename_i hquoted
      rw [Bool.or_eq_true, beq_iff_eq, beq_iff_eq] at hquoted
      rw [List.cons_append, List.cons_append, List.nil_append, PathPattern.parse, if_neg (by decide),
        if_neg (by decide), if_pos (by decide), ih]
      obtain rfl | rfl := hquoted <;> rfl
    · rename_i hplain
      rw [Bool.or_eq_true, beq_iff_eq, beq_iff_eq, not_or] at hplain
      rw [List.cons_append, List.nil_append, PathPattern.parse.eq_def, List.map_cons, Item.ofByte]
      dsimp only
      rw [ih]
      split
      · rfl
      · rw [if_neg (by simpa using hplain.2), if_neg (by simpa using hplain.1)]
        rfl

/-! ## Matching without slashes -/

theorem suffix_of_fit_eq (h : fit l t = some rest) : rest <:+ t := by
  fun_induction fit l t with
  | case1 =>
    cases h
    exact List.suffix_rfl
  | case2 => cases h
  | case3 l b t ih => exact (ih h).trans ((List.drop_suffix _ t).trans (List.suffix_cons b t))
  | case4 c l b t hc ih => exact (ih h).trans (List.suffix_cons b t)
  | case5 => cases h

theorem fit_full (l : List Item) (h : (0x2F : UInt8) ∉ t) :
    PathPattern.fit (l.map Item.full) t = fit l t := by
  fun_induction fit l t with
  | case1 t => rw [List.map_nil, PathPattern.fit]
  | case2 => rfl
  | case3 l b t ih =>
    have hb : b ≠ 0x2F := fun hb => h (hb ▸ List.mem_cons_self)
    rw [List.map_cons, Item.full, PathPattern.fit, if_neg (by simpa using hb)]
    exact ih fun hmem => h (List.mem_cons_of_mem b (List.mem_of_mem_drop hmem))
  | case4 c l b t hc ih =>
    rw [List.map_cons, Item.full, PathPattern.fit, if_pos hc]
    exact ih fun hmem => h (List.mem_cons_of_mem b hmem)
  | case5 c l b t hc => rw [List.map_cons, Item.full, PathPattern.fit, if_neg hc]

theorem fitHere_full (last : Bool) (l : List Item) (h : (0x2F : UInt8) ∉ t) :
    PathPattern.fitHere last (l.map Item.full) t = fitHere last l t := by
  have hfit := fit_full l h
  cases hl : fit l t with
  | none => simp only [PathPattern.fitHere, fitHere, hfit, hl]
  | some rest => simp only [PathPattern.fitHere, fitHere, hfit, hl]

theorem fitLater_full (last : Bool) (l : List Item) (h : (0x2F : UInt8) ∉ t) :
    PathPattern.fitLater last (l.map Item.full) t = fitLater last l t := by
  induction t with
  | nil => rfl
  | cons b t ih =>
    rw [List.mem_cons, not_or] at h
    rw [PathPattern.fitLater, if_neg (by simpa using Ne.symm h.1), fitHere_full last l h.2, ih h.2,
      fitLater]

theorem suffix_of_fitHere (h : fitHere last l t = some rest) : rest <:+ t := by
  rw [fitHere] at h
  split at h
  · rename_i hfit
    split at h
    · cases h
    · cases h
      exact suffix_of_fit_eq hfit
  · cases h

theorem suffix_of_fitLater (h : fitLater last l t = some rest) : rest <:+ t := by
  induction t with
  | nil => cases h
  | cons b t ih =>
    rw [fitLater, Option.or_eq_some_iff] at h
    obtain h | ⟨-, h⟩ := h
    · exact (suffix_of_fitHere h).trans (List.suffix_cons b t)
    · exact (ih h).trans (List.suffix_cons b t)

/-! ## Escaped and simple chunks -/

/-- The chunk of a pattern of paths is written as the simple one is escaped. -/
structure Matches (c : PathPattern.Chunk) (c' : Chunk) : Prop where
  floating : c.floating = c'.floating
  empty : c.text.isEmpty = c'.items.isEmpty
  parse : PathPattern.parse c.text = .ok (c'.items.map Item.full)

theorem matches_quoted (floating : Bool) (q : Text) :
    Matches ⟨floating, q.flatMap quoted⟩ ⟨floating, q.map Item.ofByte⟩ where
  floating := rfl
  empty := by rw [isEmpty_quoted, List.isEmpty_map]
  parse := parse_quoted q

theorem matches_chunksFrom (floating : Bool) (q t : Text) : List.Forall₂ Matches
    (PathPattern.chunksFrom floating false (q.flatMap quoted).reverse (t.flatMap quoted))
    (chunksFrom floating (q.map Item.ofByte).reverse t) := by
  have hempty (q : Text) :
      (q.flatMap quoted).reverse.isEmpty = (q.map Item.ofByte).reverse.isEmpty := by
    rw [List.isEmpty_reverse, List.isEmpty_reverse, isEmpty_quoted, List.isEmpty_map]
  have hchunk (floating : Bool) (q : Text) : Matches ⟨floating, (q.flatMap quoted).reverse.reverse⟩
      ⟨floating, (q.map Item.ofByte).reverse.reverse⟩ := by
    rw [List.reverse_reverse, List.reverse_reverse]
    exact matches_quoted floating q
  induction t generalizing floating q with
  | nil =>
    rw [List.flatMap_nil, PathPattern.chunksFrom, chunksFrom, hempty]
    split
    · exact .cons (hchunk floating q) .nil
    · exact .nil
  | cons b t ih =>
    have hnext := ih floating (q ++ [b])
    rw [List.map_append, List.reverse_append, List.flatMap_append, List.reverse_append] at hnext
    rw [List.flatMap_cons, chunksFrom]
    by_cases hquoted : b = 0x5C ∨ b = 0x5B
    · have hb : quoted b = [0x5C, b] := by rw [quoted, if_pos (by simpa using hquoted)]
      have hstar : b ≠ 0x2A := by
        rintro rfl
        exact absurd hquoted (by decide)
      rw [List.flatMap_singleton, hb] at hnext
      rw [hb, List.cons_append, List.cons_append, PathPattern.chunksFrom, if_pos (by decide),
        if_neg (by simpa using hstar)]
      exact hnext
    · have hb : quoted b = [b] := by rw [quoted, if_neg (by simpa using hquoted)]
      rw [List.flatMap_singleton, hb] at hnext
      rw [not_or] at hquoted
      rw [hb, List.cons_append, PathPattern.chunksFrom.eq_def]
      dsimp only
      rw [if_neg (by simpa using hquoted.1)]
      by_cases hstar : b = 0x2A
      · subst hstar
        rw [if_pos (show ((0x2A : UInt8) == 0x2A && !false) = true from rfl),
          if_pos (show ((0x2A : UInt8) == 0x2A) = true from rfl), hempty]
        split
        · exact ih true []
        · exact .cons (hchunk floating q) (ih true [])
      · have hclass : (b == 0x5B || false && b != 0x5D) = false := by simpa using hquoted.2
        rw [if_neg (by simp [hstar]), if_neg (by simp [hstar]), hclass]
        exact hnext

theorem forM_parse {cs : List PathPattern.Chunk} {cs' : List Chunk}
    (h : List.Forall₂ Matches cs cs') :
    (cs.forM fun chunk => discard (PathPattern.parse chunk.text)) = .ok () := by
  induction h with
  | nil => rfl
  | cons hc _ ih =>
    rw [List.forM, hc.parse]
    exact ih

theorem matchChunks_eq {cs : List PathPattern.Chunk} {cs' : List Chunk}
    (hchunks : List.Forall₂ Matches cs cs') (h : (0x2F : UInt8) ∉ t) :
    PathPattern.matchChunks cs t = .ok (matchChunks cs' t) := by
  induction hchunks generalizing t with
  | nil => rfl
  | @cons c c' cs cs' hc hcs ih =>
    obtain ⟨floating, text⟩ := c
    obtain ⟨floating', items⟩ := c'
    obtain ⟨rfl, hempty, hparse⟩ := hc
    have hlast : cs.isEmpty = cs'.isEmpty := by cases hcs <;> rfl
    have hfits := fitHere_full cs.isEmpty items h
    have hplaced := fitLater_full cs.isEmpty items h
    have hall : t.all (· != 0x2F) = true := by
      rw [List.all_eq_true]
      intro b hb
      rw [bne_iff_ne]
      exact fun he => h (he ▸ hb)
    rw [PathPattern.matchChunks, matchChunks, hempty]
    split
    · rw [hall]
    · rw [hparse]
      dsimp only [bind, Except.bind]
      rw [hfits, hplaced, hlast]
      generalize hplace : (if floating = true then
        (fitHere cs'.isEmpty items t).or (fitLater cs'.isEmpty items t)
        else fitHere cs'.isEmpty items t) = place
      cases place with
      | none =>
        dsimp only
        rw [forM_parse hcs]
        rfl
      | some rest =>
        have hsuffix : rest <:+ t := by
          split at hplace
          · obtain hplace | ⟨-, hplace⟩ := Option.or_eq_some_iff.mp hplace
            · exact suffix_of_fitHere hplace
            · exact suffix_of_fitLater hplace
          · exact suffix_of_fitHere hplace
        exact ih fun hmem => h (hsuffix.subset hmem)

theorem chunks_eq (pattern : Text) :
    List.Forall₂ Matches (PathPattern.chunks (escape (Text.lower pattern))) (chunks pattern) := by
  rw [escape_eq]
  exact matches_chunksFrom false [] _

/-- No pattern is refused once it was escaped, and it matches what its chunks match. -/
theorem matches_escape (pattern name : Text) :
    PathPattern.matches? (escape (Text.lower pattern)) (slashFree (Text.lower name)) =
      .ok (matchChunks (chunks pattern) (fold name)) :=
  matchChunks_eq (chunks_eq pattern) (not_mem_slashFree _)

theorem matches?_eq_matchChunks (pattern name : Text) :
    matches? pattern name = matchChunks (chunks pattern) (fold name) := by
  rw [matches?, matches_escape]

theorem matches?_star (t : Text) : matches? "*" t = true := by
  have hchunks : chunks "*" = [⟨true, []⟩] := by decide +kernel
  rw [matches?_eq_matchChunks, hchunks]
  rfl

end ConsoleScript.Glob
