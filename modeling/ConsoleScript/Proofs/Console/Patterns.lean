import ConsoleScript.Proofs.Console.Escaping
import ConsoleScript.Proofs.Text.Reading

/-!
# The language of a pattern

`Covers` says which sequences of characters a pattern stands for. Patterns are matched on bytes:
a star moves on by single bytes, so a run of elements can also be placed inside a character. Every
name a pattern covers is matched all the same, since a run that is placed too early leaves more to
match and never less. The other way round holds unless two question marks follow a star, which
take the stray bytes inside a long character one by one, or a slash meets a zero byte.
-/

namespace ConsoleScript

open Text

namespace Glob

/-- Is a sequence of characters in the language of a pattern? -/
inductive Covers : List Char → List Char → Prop
  | done : Covers [] []
  | star (run : List Char) {p s : List Char} : Covers p s → Covers ('*' :: p) (run ++ s)
  | any (c : Char) {p s : List Char} : Covers p s → Covers ('?' :: p) (c :: s)
  | same {c : Char} {p s : List Char} :
    c ≠ '*' → c ≠ '?' → Covers p s → Covers (c :: p) (c :: s)

/-- What is left of a sequence behind a run of a pattern without stars. -/
def behind : List Char → List Char → Option (List Char)
  | [], s => some s
  | _ :: _, [] => none
  | c :: q, d :: s => if c = '?' ∨ c = d then behind q s else none

theorem covers_append {q p s rest : List Char} (hq : '*' ∉ q) (h : behind q s = some rest)
    (hp : Covers p rest) : Covers (q ++ p) s := by
  induction q generalizing s with
  | nil =>
    cases h
    exact hp
  | cons c q ih =>
    obtain ⟨hc, hmore⟩ := not_or.mp (List.mem_cons.not.mp hq)
    cases s with
    | nil => cases h
    | cons d s =>
      rw [behind] at h
      split at h
      · rename_i hd
        by_cases hany : c = '?'
        · subst hany
          exact .any d (ih hmore h)
        · obtain rfl := hd.resolve_left hany
          exact .same (Ne.symm hc) hany (ih hmore h)
      · cases h

theorem behind_of_covers {q p s : List Char} (hq : '*' ∉ q) (h : Covers (q ++ p) s) :
    ∃ rest, behind q s = some rest ∧ Covers p rest := by
  induction q generalizing s with
  | nil => exact ⟨s, rfl, h⟩
  | cons c q ih =>
    obtain ⟨hc, hmore⟩ := not_or.mp (List.mem_cons.not.mp hq)
    rw [List.cons_append] at h
    cases h with
    | star => exact absurd rfl hc
    | any d h =>
      obtain ⟨rest, hrest, hp⟩ := ih hmore h
      exact ⟨rest, by rw [behind, if_pos (.inl rfl), hrest], hp⟩
    | same _ _ h =>
      obtain ⟨rest, hrest, hp⟩ := ih hmore h
      exact ⟨rest, by rw [behind, if_pos (.inr rfl), hrest], hp⟩

theorem behind_suffix {q s rest : List Char} (h : behind q s = some rest) : rest <:+ s := by
  fun_induction behind q s with
  | case1 =>
    cases h
    exact List.suffix_rfl
  | case2 => cases h
  | case3 c q d s _ ih => exact (ih h).trans (List.suffix_cons d s)
  | case4 => cases h

theorem length_behind {q s rest : List Char} (h : behind q s = some rest) :
    s.length = rest.length + q.length := by
  fun_induction behind q s with
  | case1 => cases h; rfl
  | case2 => cases h
  | case3 c q d s _ ih =>
    have := ih h
    simp only [List.length_cons]
    omega
  | case4 => cases h

/-! ## Whole characters in a text -/

/-- How many bytes of a text do not continue a character. -/
def heads (t : Text) : Nat := t.countP fun b => !isTail b

theorem heads_append (s t : Text) : heads (s ++ t) = heads s + heads t :=
  List.countP_append

theorem heads_eq_zero {t : Text} : heads t = 0 ↔ ∀ b ∈ t, isTail b = true := by
  simp [heads, List.countP_eq_zero]

theorem heads_ofChar (c : Char) : heads (ofChar c) = 1 := by
  cases hc : ofChar c with
  | nil => exact absurd hc (ofChar_ne_nil c)
  | cons b tail =>
    have htail : heads tail = 0 := heads_eq_zero.mpr fun x hx => (isTail_of_mem_tail hc hx).1
    rw [← List.singleton_append, heads_append, htail]
    simp [heads, not_isTail_head hc]

theorem heads_ofChars (s : List Char) : heads (ofChars s) = s.length := by
  induction s with
  | nil => rfl
  | cons c s ih =>
    rw [ofChars_cons, heads_append, heads_ofChar, ih, List.length_cons]
    omega

/-! ## Elements of characters -/

/-- The elements a character of a pattern stands for. -/
def itemsOf (c : Char) : List Item := (ofChar c).map Item.ofByte

/-- The elements of a run of a pattern without stars. -/
def items (q : List Char) : List Item := q.flatMap itemsOf

@[simp]
theorem items_cons (c : Char) (q : List Char) : items (c :: q) = itemsOf c ++ items q :=
  List.flatMap_cons

theorem itemsOf_any : itemsOf '?' = [.any] := by decide

theorem itemsOf_char {c : Char} (h : c ≠ '?') : itemsOf c = (ofChar c).map .byte := by
  apply List.map_congr_left
  intro b hb
  rw [Item.ofByte, if_neg]
  intro hany
  rw [beq_iff_eq] at hany
  subst hany
  exact h (eq_of_mem_ofChar (by decide) (by decide) hb)

theorem itemsOf_ne_nil (c : Char) : itemsOf c ≠ [] := by
  simp [itemsOf, ofChar_ne_nil]

theorem items_eq_nil {q : List Char} : items q = [] ↔ q = [] := by
  cases q with
  | nil => simp [items]
  | cons c q => simp [itemsOf_ne_nil]

theorem fit_append (l r : List Item) (t : Text) : fit (l ++ r) t = (fit l t).bind (fit r) := by
  fun_induction fit l t with
  | case1 => rfl
  | case2 => cases r <;> rfl
  | case3 l b t ih => rw [List.cons_append, fit, ih]
  | case4 c l b t hc ih => rw [List.cons_append, fit, if_pos hc, ih]
  | case5 c l b t hc => rw [List.cons_append, fit, if_neg hc, Option.bind_none]

theorem fit_bytes_append (l t : Text) : fit (l.map .byte) (l ++ t) = some t := by
  induction l with
  | nil => rfl
  | cons b l ih => rw [List.map_cons, List.cons_append, fit, if_pos BEq.rfl, ih]

theorem append_of_fit_bytes {l t rest : Text} (h : fit (l.map .byte) t = some rest) :
    t = l ++ rest := by
  induction l generalizing t with
  | nil =>
    cases h
    rfl
  | cons b l ih =>
    cases t with
    | nil => cases h
    | cons x t =>
      rw [List.map_cons, fit] at h
      split at h
      · rename_i hx
        rw [beq_iff_eq] at hx
        rw [hx, ih h, List.cons_append]
      · cases h

/-- An element for any character takes one character. -/
theorem fit_any_ofChar (d : Char) (t : Text) : fit [.any] (ofChar d ++ t) = some t := by
  cases hd : ofChar d with
  | nil => exact absurd hd (ofChar_ne_nil d)
  | cons b tail => rw [List.cons_append, fit, headChar_ofChar hd, List.drop_left, fit]

theorem fit_itemsOf (c d : Char) (t : Text) :
    fit (itemsOf c) (ofChar d ++ t) = if c = '?' ∨ c = d then some t else none := by
  by_cases hany : c = '?'
  · rw [if_pos (.inl hany), hany, itemsOf_any, fit_any_ofChar]
  · rw [itemsOf_char hany]
    by_cases hd : c = d
    · rw [if_pos (.inr hd), hd, fit_bytes_append]
    · rw [if_neg (not_or.mpr ⟨hany, hd⟩), Option.eq_none_iff_forall_ne_some]
      intro rest hrest
      exact hd (ofChar_append_inj (append_of_fit_bytes hrest)).symm

theorem fit_nil {l : List Item} (h : l ≠ []) : fit l [] = none := by
  cases l with
  | nil => exact absurd rfl h
  | cons => rfl

/-- On whole characters, elements fit character by character. -/
theorem fit_items (q s : List Char) : fit (items q) (ofChars s) = (behind q s).map ofChars := by
  fun_induction behind q s with
  | case1 => rfl
  | case2 c q => exact fit_nil (items_eq_nil.not.mpr (List.cons_ne_nil c q))
  | case3 c q d s h ih =>
    rw [items_cons, ofChars_cons, fit_append, fit_itemsOf, if_pos h, Option.bind_some, ih]
  | case4 c q d s h =>
    rw [items_cons, ofChars_cons, fit_append, fit_itemsOf, if_neg h, Option.bind_none,
      Option.map_none]

theorem fit_items_of_behind {q s rest : List Char} (h : behind q s = some rest) :
    fit (items q) (ofChars s) = some (ofChars rest) := by
  rw [fit_items, h, Option.map_some]

/-- Wherever elements fit, each character of the pattern takes one head at most. -/
theorem heads_le_of_fit {q : List Char} {t rest : Text} (h : fit (items q) t = some rest) :
    rest <:+ t ∧ heads t ≤ heads rest + q.length := by
  induction q generalizing t with
  | nil =>
    cases h
    exact ⟨List.suffix_rfl, Nat.le_refl _⟩
  | cons c q ih =>
    rw [items_cons, fit_append, Option.bind_eq_some_iff] at h
    obtain ⟨u, hu, h⟩ := h
    obtain ⟨hsuffix, hheads⟩ := ih h
    have hfirst : u <:+ t ∧ heads t ≤ heads u + 1 := by
      by_cases hany : c = '?'
      · rw [hany, itemsOf_any] at hu
        cases t with
        | nil => cases hu
        | cons b t =>
          cases hu
          obtain ⟨d, tail, more, rfl, hread, hd⟩ | ⟨-, hread, -⟩ := headChar_spec b t
          · rw [hread, List.drop_left, ← List.cons_append, ← hd, heads_append, heads_ofChar]
            exact ⟨List.suffix_append _ _, Nat.le_of_eq (Nat.add_comm _ _)⟩
          · rw [hread, List.drop_zero, ← List.singleton_append, heads_append]
            have : heads [b] ≤ 1 := List.countP_le_length
            exact ⟨List.suffix_append _ _, by omega⟩
      · rw [itemsOf_char hany] at hu
        rw [append_of_fit_bytes hu, heads_append, heads_ofChar]
        exact ⟨List.suffix_append _ _, Nat.le_of_eq (Nat.add_comm _ _)⟩
    refine ⟨hsuffix.trans hfirst.1, ?_⟩
    rw [List.length_cons]
    omega

/-! ## Placing a chunk -/

/-- The first place in a text where elements fit. -/
def place (last : Bool) (l : List Item) (t : Text) : Option Text :=
  (fitHere last l t).or (fitLater last l t)

theorem place_cons (last : Bool) (l : List Item) (b : UInt8) (t : Text) :
    place last l (b :: t) = (fitHere last l (b :: t)).or (place last l t) := rfl

theorem fitHere_eq_some {last : Bool} {l : List Item} {t rest : Text} :
    fitHere last l t = some rest ↔ fit l t = some rest ∧ (last = true → rest = []) := by
  rw [fitHere]
  cases fit l t with
  | none => simp
  | some r =>
    cases last with
    | false => simp
    | true =>
      cases r with
      | nil => simp
      | cons b r =>
        simp only [Bool.true_and, List.isEmpty_cons, Bool.not_false, if_true, reduceCtorEq,
          Option.some.injEq, forall_const, false_iff, not_and]
        rintro rfl
        exact List.cons_ne_nil b r

/-- A chunk that fits somewhere is placed there or before. -/
theorem place_of_fitHere {last : Bool} {l : List Item} {s t rest : Text}
    (h : fitHere last l s = some rest) (hs : s <:+ t) :
    ∃ u r, s <:+ u ∧ u <:+ t ∧ fitHere last l u = some r ∧ place last l t = some r := by
  induction t with
  | nil =>
    obtain rfl := List.suffix_nil.mp hs
    exact ⟨[], rest, hs, List.suffix_rfl, h, by rw [place, h, Option.some_or]⟩
  | cons b t ih =>
    cases hb : fitHere last l (b :: t) with
    | some r => exact ⟨b :: t, r, hs, List.suffix_rfl, hb, by rw [place, hb, Option.some_or]⟩
    | none =>
      obtain rfl | hs := List.suffix_cons_iff.mp hs
      · cases h.symm.trans hb
      · obtain ⟨u, r, hu, hut, hr, hplace⟩ := ih hs
        exact ⟨u, r, hu, hut.trans (List.suffix_cons b t), hr,
          by rw [place_cons, hb, Option.none_or, hplace]⟩

/-- A chunk that is placed early leaves no less than one that is placed between characters: it
has taken no more heads, and what the other leaves starts with one. -/
theorem suffix_of_fit {q s rest : List Char} {t u : Text} (hs : ofChars s <:+ t)
    (hrest : behind q s = some rest) (hu : fit (items q) t = some u) : ofChars rest <:+ u := by
  obtain ⟨hleft, -⟩ := heads_le_of_fit (fit_items_of_behind hrest)
  obtain ⟨hearly, hheads⟩ := heads_le_of_fit hu
  obtain h | ⟨more, hmore⟩ := List.suffix_or_suffix_of_suffix (hleft.trans hs) hearly
  · exact h
  · have hnone : heads more = 0 := by
      have hcount := congrArg heads hmore
      obtain ⟨front, hfront⟩ := hs
      have hlength := length_behind hrest
      rw [heads_append, heads_ofChars] at hcount
      rw [← hfront, heads_append, heads_ofChars] at hheads
      omega
    cases rest with
    | nil => exact List.nil_suffix
    | cons c rest =>
      cases hc : ofChar c with
      | nil => exact absurd hc (ofChar_ne_nil c)
      | cons b tail =>
        cases more with
        | nil => exact ⟨[], by rw [← hmore]; rfl⟩
        | cons x more =>
          rw [ofChars_cons, hc, List.cons_append, List.cons_append, List.cons.injEq] at hmore
          have hx := heads_eq_zero.mp hnone x List.mem_cons_self
          rw [hmore.1, not_isTail_head hc] at hx
          cases hx

/-- Are the characters of a sequence written with two bytes at most, where a run of a pattern
starts with two question marks? -/
def Short (q s : List Char) : Prop := ['?', '?'] <+: q → ∀ c ∈ s, c.toNat < 0x800

theorem fit_inside {c : Char} {q : List Char} {x : UInt8} {t : Text} (hx : isTail x = true)
    (hc : c ≠ '?') : fit (items (c :: q)) (x :: t) = none := by
  rw [items_cons, fit_append, itemsOf_char hc]
  cases hfit : fit ((ofChar c).map .byte) (x :: t) with
  | none => rfl
  | some rest =>
    have happ := append_of_fit_bytes hfit
    cases hbytes : ofChar c with
    | nil => exact absurd hbytes (ofChar_ne_nil c)
    | cons b tail =>
      rw [hbytes, List.cons_append, List.cons.injEq] at happ
      rw [happ.1, not_isTail_head hbytes] at hx
      cases hx

theorem fitHere_inside {last : Bool} {q s : List Char} {d : Char} {x : UInt8} {tail : Text}
    (hq : q ≠ []) (hshort : Short q (d :: s)) (hd : x :: tail <:+ (ofChar d).tail)
    (hhere : fitHere last (items q) (ofChars (d :: s)) = none) :
    fitHere last (items q) (x :: (tail ++ ofChars s)) = none := by
  have htail : ∀ b ∈ x :: tail, isTail b = true := by
    intro b hb
    cases hc : ofChar d with
    | nil => exact absurd hc (ofChar_ne_nil d)
    | cons y more =>
      rw [hc, List.tail_cons] at hd
      exact (isTail_of_mem_tail hc (hd.subset hb)).1
  rw [Option.eq_none_iff_forall_ne_some] at hhere ⊢
  intro rest hrest
  obtain ⟨hfit, hlast⟩ := fitHere_eq_some.mp hrest
  cases q with
  | nil => exact hq rfl
  | cons c q =>
    by_cases hc : c = '?'
    · subst hc
      have hmore : fit (items q) (tail ++ ofChars s) = some rest := by
        rwa [items_cons, itemsOf_any, fit_append, fit, headChar_tail (htail x List.mem_cons_self),
          List.drop_zero] at hfit
      have hstart : fit (items ('?' :: q)) (ofChars (d :: s)) = fit (items q) (ofChars s) := by
        rw [items_cons, itemsOf_any, fit_append, ofChars_cons, fit_any_ofChar, Option.bind_some]
      cases tail with
      | nil => exact hhere rest (fitHere_eq_some.mpr ⟨hstart.trans hmore, hlast⟩)
      | cons y tail =>
        cases q with
        | nil =>
          -- a lone question mark would have taken the whole character
          cases hmore
          cases last with
          | true => exact absurd (hlast rfl) (List.cons_ne_nil _ _)
          | false => exact hhere _ (fitHere_eq_some.mpr ⟨hstart, nofun⟩)
        | cons c q =>
          by_cases hc : c = '?'
          · subst hc
            have hbytes := length_ofChar_le (hshort ⟨q, rfl⟩ d List.mem_cons_self)
            have hinside := hd.length_le
            rw [List.length_tail, List.length_cons, List.length_cons] at hinside
            omega
          · rw [List.cons_append, fit_inside (htail y (by simp)) hc] at hmore
            cases hmore
    · rw [fit_inside (htail x List.mem_cons_self) hc] at hfit
      cases hfit

/-- A chunk that does not fit a character is placed behind it. -/
theorem place_tail {last : Bool} {q s : List Char} {d : Char} {tail : Text} (hq : q ≠ [])
    (hshort : Short q (d :: s)) (hd : tail <:+ (ofChar d).tail)
    (hhere : fitHere last (items q) (ofChars (d :: s)) = none) :
    place last (items q) (tail ++ ofChars s) = place last (items q) (ofChars s) := by
  induction tail with
  | nil => rfl
  | cons x tail ih =>
    rw [List.cons_append, place_cons, fitHere_inside hq hshort hd hhere, Option.none_or]
    exact ih ((List.suffix_cons x tail).trans hd)

theorem behind_of_fitHere {last : Bool} {q s : List Char} {rest : Text}
    (h : fitHere last (items q) (ofChars s) = some rest) :
    ∃ left, behind q s = some left ∧ rest = ofChars left ∧ (last = true → left = []) := by
  obtain ⟨hfit, hlast⟩ := fitHere_eq_some.mp h
  rw [fit_items, Option.map_eq_some_iff] at hfit
  obtain ⟨left, hleft, rfl⟩ := hfit
  exact ⟨left, hleft, rfl, fun h => ofChars_eq_nil (hlast h)⟩

/-- A chunk is placed between two characters. -/
theorem place_spec {last : Bool} {q s : List Char} {rest : Text} (hq : q ≠ []) (hshort : Short q s)
    (h : place last (items q) (ofChars s) = some rest) :
    ∃ run t left, s = run ++ t ∧ behind q t = some left ∧ rest = ofChars left ∧
      (last = true → left = []) := by
  induction s with
  | nil =>
    rw [place, show ofChars [] = [] from rfl, fitLater, Option.or_none] at h
    obtain ⟨left, hleft⟩ := behind_of_fitHere (s := []) h
    exact ⟨[], [], left, rfl, hleft⟩
  | cons d s ih =>
    cases hfirst : fitHere last (items q) (ofChars (d :: s)) with
    | some r =>
      rw [place, hfirst, Option.some_or] at h
      cases h
      obtain ⟨left, hleft⟩ := behind_of_fitHere hfirst
      exact ⟨[], d :: s, left, rfl, hleft⟩
    | none =>
      have hnext : place last (items q) (ofChars s) = some rest := by
        rw [← place_tail hq hshort List.suffix_rfl hfirst, ← h]
        rw [ofChars_cons] at hfirst ⊢
        cases hd : ofChar d with
        | nil => exact absurd hd (ofChar_ne_nil d)
        | cons b tail =>
          rw [hd, List.cons_append] at hfirst
          rw [List.tail_cons, List.cons_append, place_cons, hfirst, Option.none_or]
      have hmore : Short q s := fun hany c hc => hshort hany c (List.mem_cons_of_mem d hc)
      obtain ⟨run, t, left, rfl, hleft⟩ := ih hmore hnext
      exact ⟨d :: run, t, left, rfl, hleft⟩

/-! ## Cutting a pattern -/

/-- The chunks of what is left of a pattern, behind a run without stars. -/
def cut (floating : Bool) (q p : List Char) : List Chunk :=
  chunksFrom floating (items q).reverse (ofChars p)

theorem chunksFrom_append {floating : Bool} {acc : List Item} {bytes : Text} (t : Text)
    (h : 0x2A ∉ bytes) : chunksFrom floating acc (bytes ++ t) =
      chunksFrom floating ((bytes.map Item.ofByte).reverse ++ acc) t := by
  induction bytes generalizing acc with
  | nil => rfl
  | cons b bytes ih =>
    obtain ⟨hb, hmore⟩ := not_or.mp (List.mem_cons.not.mp h)
    rw [List.cons_append, chunksFrom, if_neg (by simpa using Ne.symm hb), ih hmore, List.map_cons,
      List.reverse_cons, List.append_assoc, List.singleton_append]

theorem cut_char {floating : Bool} {q p : List Char} {c : Char} (hc : c ≠ '*') :
    cut floating q (c :: p) = cut floating (q ++ [c]) p := by
  have hstar : 0x2A ∉ ofChar c := fun h => hc (eq_of_mem_ofChar (by decide) (by decide) h)
  have hitems : items (q ++ [c]) = items q ++ itemsOf c := by simp [items]
  rw [cut, ofChars_cons, chunksFrom_append _ hstar, cut, hitems, List.reverse_append, itemsOf]

theorem cut_star {floating : Bool} {q p : List Char} :
    cut floating q ('*' :: p) =
      if q = [] then cut true [] p else ⟨floating, items q⟩ :: cut true [] p := by
  rw [cut, ofChars_cons, show ofChar '*' = [0x2A] by decide, List.singleton_append, chunksFrom,
    if_pos BEq.rfl, List.reverse_reverse]
  by_cases hq : q = []
  · rw [if_pos hq, if_pos (by rw [hq]; rfl)]
    rfl
  · rw [if_neg hq, if_neg (by simpa using items_eq_nil.not.mpr hq)]
    rfl

theorem cut_nil {floating : Bool} {q : List Char} :
    cut floating q [] = if floating = false ∧ q = [] then [] else [⟨floating, items q⟩] := by
  rw [cut, show ofChars [] = [] from rfl, chunksFrom, List.reverse_reverse]
  cases floating with
  | true => rfl
  | false => by_cases hq : q = [] <;> simp [hq, items_eq_nil]

theorem cut_ne_nil (q p : List Char) : cut true q p ≠ [] := by
  induction p generalizing q with
  | nil => simp [cut_nil]
  | cons c p ih =>
    by_cases hc : c = '*'
    · rw [hc, cut_star]
      split
      · exact ih []
      · exact List.cons_ne_nil _ _
    · rw [cut_char hc]
      exact ih _

theorem matchChunks_free (l : List Item) (more : List Chunk) (t : Text) :
    matchChunks (⟨true, l⟩ :: more) t =
      (l.isEmpty || (place more.isEmpty l t).any (matchChunks more)) := by
  rw [matchChunks, place]
  cases l with
  | nil => rfl
  | cons i l =>
    simp only [List.isEmpty_cons, Bool.and_false, Bool.false_or, if_true, Bool.false_eq_true, if_false]
    cases (fitHere more.isEmpty (i :: l) t).or (fitLater more.isEmpty (i :: l) t) <;> rfl

theorem matchChunks_fixed (l : List Item) (more : List Chunk) (t : Text) :
    matchChunks (⟨false, l⟩ :: more) t =
      (fitHere more.isEmpty l t).any (matchChunks more) := by
  rw [matchChunks]
  simp only [Bool.false_and, Bool.false_eq_true, if_false]
  cases fitHere more.isEmpty l t <;> rfl

/-! ## Every covered name is matched -/

/-- A chunk that fits somewhere behind a star is placed, and what the rest of the pattern covers
is left for it. -/
theorem place_covers (last : Bool) {q s rest : List Char} {t : Text} (hs : ofChars s <:+ t)
    (hrest : behind q s = some rest) (hlast : last = true → rest = []) :
    ∃ u, place last (items q) t = some u ∧ ofChars rest <:+ u ∧ (last = true → u = []) := by
  have hhere : fitHere last (items q) (ofChars s) = some (ofChars rest) := by
    refine fitHere_eq_some.mpr ⟨fit_items_of_behind hrest, fun h => ?_⟩
    rw [hlast h]
    rfl
  obtain ⟨v, u, hv, -, hu, hplace⟩ := place_of_fitHere hhere hs
  obtain ⟨hfit, hend⟩ := fitHere_eq_some.mp hu
  exact ⟨u, hplace, suffix_of_fit hv hrest hfit, hend⟩

/-- The induction is on what is left of the pattern. Behind a star the name may start with bytes
that the star has not taken yet, and not all of them need be whole characters. -/
theorem matchChunks_of_covers {floating : Bool} {q p s : List Char} {t : Text} (hq : '*' ∉ q)
    (h : Covers (q ++ p) s) (hs : ofChars s <:+ t) (ht : floating = false → t = ofChars s) :
    matchChunks (cut floating q p) t = true := by
  induction p generalizing floating q s t with
  | nil =>
    obtain ⟨rest, hrest, hdone⟩ := behind_of_covers hq h
    cases hdone
    rw [cut_nil]
    by_cases hempty : q = []
    · subst hempty
      cases hrest
      cases floating with
      | false => rw [if_pos ⟨rfl, rfl⟩, ht rfl]; rfl
      | true => rfl
    · rw [if_neg fun h => hempty h.2]
      cases floating with
      | false =>
        rw [matchChunks_fixed, ht rfl,
          fitHere_eq_some.mpr ⟨fit_items_of_behind hrest, fun _ => rfl⟩]
        rfl
      | true =>
        obtain ⟨u, hplace, -, hend⟩ := place_covers true hs hrest fun _ => rfl
        rw [matchChunks_free, show ([] : List Chunk).isEmpty = true from rfl, hplace, hend rfl]
        exact Bool.or_true _
  | cons c p ih =>
    by_cases hc : c = '*'
    · subst hc
      obtain ⟨rest, hrest, hstar⟩ := behind_of_covers hq h
      cases hstar with
      | same hne => exact absurd rfl hne
      | star run hp =>
        rename_i s'
        have hrun : ofChars s' <:+ ofChars (run ++ s') := ⟨ofChars run, (ofChars_append run s').symm⟩
        rw [cut_star]
        by_cases hempty : q = []
        · subst hempty
          cases hrest
          rw [if_pos rfl]
          exact ih (List.not_mem_nil) hp (hrun.trans hs) nofun
        · have hmore : (cut true [] p).isEmpty = false := by
            simpa using cut_ne_nil [] p
          rw [if_neg hempty]
          cases floating with
          | false =>
            have hfit : fitHere false (items q) t = some (ofChars (run ++ s')) :=
              fitHere_eq_some.mpr ⟨by rw [ht rfl, fit_items_of_behind hrest], nofun⟩
            rw [matchChunks_fixed, hmore, hfit]
            exact ih (List.not_mem_nil) hp hrun nofun
          | true =>
            obtain ⟨u, hplace, hu, -⟩ := place_covers false hs hrest nofun
            have hleft : matchChunks (cut true [] p) u = true :=
              ih (List.not_mem_nil) hp (hrun.trans hu) nofun
            rw [matchChunks_free, hmore, hplace, Option.any_some, hleft]
            exact Bool.or_true _
    · rw [cut_char hc]
      refine ih (fun hmem => ?_) (by rwa [List.append_assoc, List.singleton_append]) hs ht
      obtain h | h := List.mem_append.mp hmem
      · exact hq h
      · exact hc (List.mem_singleton.mp h).symm

/-! ## Every matched name is covered -/

/-- Do no two question marks follow a star, or are all characters written with two bytes at
most? -/
def Even (p s : List Char) : Prop := ['*', '?', '?'] <:+: p → ∀ c ∈ s, c.toNat < 0x800

theorem Even.of_infix {p p' s s' : List Char} (h : Even p s) (hp : p' <:+: p) (hs : s' ⊆ s) :
    Even p' s' :=
  fun hmarks c hc => h (hmarks.trans hp) c (hs hc)

/-- The part of a pattern that a chunk and what follows it stand for. -/
def starred (floating : Bool) (p : List Char) : List Char := if floating then '*' :: p else p

theorem Even.short {floating : Bool} {q p s : List Char} (h : Even (starred floating (q ++ p)) s)
    (hfloating : floating = true) : Short q s := by
  subst hfloating
  rintro ⟨more, hq⟩
  refine h (List.IsPrefix.isInfix ⟨more ++ p, ?_⟩)
  rw [← hq]
  simp [starred]

theorem covers_starred {floating : Bool} {q p run s left : List Char} (hq : '*' ∉ q)
    (hrun : floating = false → run = []) (hleft : behind q s = some left) (hp : Covers p left) :
    Covers (starred floating (q ++ p)) (run ++ s) := by
  have hcovers := covers_append hq hleft hp
  cases floating with
  | false =>
    rw [hrun rfl]
    exact hcovers
  | true => exact .star run hcovers

/-- Where the first of several chunks has been placed, and what the others match. -/
theorem placed_of_matchChunks {floating : Bool} {q s : List Char} {more : List Chunk} (hq : q ≠ [])
    (hshort : floating = true → Short q s)
    (h : matchChunks (⟨floating, items q⟩ :: more) (ofChars s) = true) :
    ∃ run t left, s = run ++ t ∧ (floating = false → run = []) ∧ behind q t = some left ∧
      (more = [] → left = []) ∧ matchChunks more (ofChars left) = true := by
  cases floating with
  | false =>
    rw [matchChunks_fixed, Option.any_eq_true] at h
    obtain ⟨rest, hrest, hmore⟩ := h
    obtain ⟨left, hleft, rfl, hlast⟩ := behind_of_fitHere hrest
    exact ⟨[], s, left, rfl, fun _ => rfl, hleft, fun h => hlast (by rw [h]; rfl), hmore⟩
  | true =>
    have hitems : (items q).isEmpty = false := by simpa using items_eq_nil.not.mpr hq
    rw [matchChunks_free, hitems, Bool.false_or, Option.any_eq_true] at h
    obtain ⟨rest, hrest, hmore⟩ := h
    obtain ⟨run, t, left, hs, hleft, rfl, hlast⟩ := place_spec hq (hshort rfl) hrest
    exact ⟨run, t, left, hs, nofun, hleft, fun h => hlast (by rw [h]; rfl), hmore⟩

theorem covers_of_matchChunks {floating : Bool} {q p s : List Char} (hq : '*' ∉ q)
    (heven : Even (starred floating (q ++ p)) s)
    (h : matchChunks (cut floating q p) (ofChars s) = true) :
    Covers (starred floating (q ++ p)) s := by
  induction p generalizing floating q s with
  | nil =>
    rw [cut_nil] at h
    by_cases hempty : q = []
    · subst hempty
      cases floating with
      | false =>
        obtain rfl := ofChars_eq_nil (List.isEmpty_iff.mp h)
        exact .done
      | true =>
        have := Covers.star s .done
        rwa [List.append_nil] at this
    · rw [if_neg fun h => hempty h.2] at h
      obtain ⟨run, t, left, rfl, hrun, hleft, hend, -⟩ :=
        placed_of_matchChunks hempty heven.short h
      rw [hend rfl] at hleft
      exact covers_starred hq hrun hleft .done
  | cons c p ih =>
    by_cases hc : c = '*'
    · subst hc
      rw [cut_star] at h
      have hsuffix : '*' :: p <:+: starred floating (q ++ '*' :: p) := by
        cases floating with
        | false => exact (List.suffix_append q _).isInfix
        | true => exact ((List.suffix_append q _).trans (List.suffix_cons _ _)).isInfix
      have ihstar {s : List Char} (heven : Even ('*' :: p) s)
          (h : matchChunks (cut true [] p) (ofChars s) = true) : Covers ('*' :: p) s :=
        show Covers (starred true ([] ++ p)) s from ih List.not_mem_nil heven h
      by_cases hempty : q = []
      · subst hempty
        rw [if_pos rfl] at h
        have hp := ihstar (heven.of_infix hsuffix (List.Subset.refl s)) h
        cases floating with
        | false => exact hp
        | true => exact .star [] hp
      · rw [if_neg hempty] at h
        obtain ⟨run, t, left, rfl, hrun, hleft, -, hmore⟩ := placed_of_matchChunks hempty
          heven.short h
        have hsub : left ⊆ run ++ t := fun c hc =>
          List.mem_append_right run ((behind_suffix hleft).subset hc)
        exact covers_starred hq hrun hleft (ihstar (heven.of_infix hsuffix hsub) hmore)
    · rw [cut_char hc] at h
      have hstar : '*' ∉ q ++ [c] := by
        rw [List.mem_append, List.mem_singleton, not_or]
        exact ⟨hq, Ne.symm hc⟩
      have happ : q ++ c :: p = q ++ [c] ++ p := by simp
      rw [happ] at heven ⊢
      exact ih hstar heven h

/-! ## Slashes and zero bytes -/

/-- The character a character of a pattern or a name is compared as. -/
def plain (c : Char) : Char := if c = '/' then '\x00' else c

theorem plain_eq_iff {c d : Char} (hd : d ≠ '\x00') : plain c = d ↔ c = d ∧ c ≠ '/' := by
  rw [plain]
  split
  · rename_i hc
    simp [hc, Ne.symm hd]
  · rename_i hc
    simp [hc]

theorem ofChar_plain (c : Char) :
    ofChar (plain c) = (ofChar c).map fun b => if b == 0x2F then 0 else b := by
  rw [plain]
  split
  · rename_i hc
    subst hc
    decide
  · rename_i hc
    symm
    rw [List.map_congr_left, List.map_id]
    intro b hb
    rw [if_neg, id]
    intro hslash
    rw [beq_iff_eq] at hslash
    subst hslash
    exact hc (eq_of_mem_ofChar (by decide) (by decide) hb)

theorem fold_eq (t : Text) : fold t = ofChars ((lower t).chars.map plain) := by
  rw [chars_lower, fold, lower, ofChars, List.map_flatMap, List.flatMap_map, List.flatMap_map]
  simp only [ofChar_plain]

theorem Covers.plain {p s : List Char} (h : Covers p s) : Covers (p.map plain) (s.map plain) := by
  induction h with
  | done => exact .done
  | star run _ ih =>
    rw [List.map_append]
    exact .star (run.map Glob.plain) ih
  | any c _ ih => exact .any (Glob.plain c) ih
  | same hstar hany _ ih =>
    refine .same (fun h => hstar ?_) (fun h => hany ?_) ih
    · exact ((plain_eq_iff (by decide)).mp h).1
    · exact ((plain_eq_iff (by decide)).mp h).1

theorem covers_of_plain {p s : List Char} (hsame : ∀ c ∈ p, ∀ d ∈ s, plain c = plain d → c = d)
    (h : Covers (p.map plain) (s.map plain)) : Covers p s := by
  generalize hp : p.map plain = p' at h
  generalize hs : s.map plain = s' at h
  induction h generalizing p s with
  | done =>
    rw [List.map_eq_nil_iff] at hp hs
    rw [hp, hs]
    exact .done
  | star run _ ih =>
    obtain ⟨c, p, rfl, hc, rfl⟩ := List.map_eq_cons_iff.mp hp
    obtain ⟨run, s, rfl, rfl, rfl⟩ := List.map_eq_append_iff.mp hs
    obtain rfl := ((plain_eq_iff (by decide)).mp hc).1
    refine .star run (ih (fun c hc d hd => ?_) rfl rfl)
    exact hsame c (List.mem_cons_of_mem _ hc) d (List.mem_append_right run hd)
  | any d _ ih =>
    obtain ⟨c, p, rfl, hc, rfl⟩ := List.map_eq_cons_iff.mp hp
    obtain ⟨d, s, rfl, -, rfl⟩ := List.map_eq_cons_iff.mp hs
    obtain rfl := ((plain_eq_iff (by decide)).mp hc).1
    refine .any d (ih (fun c hc d' hd => ?_) rfl rfl)
    exact hsame c (List.mem_cons_of_mem _ hc) d' (List.mem_cons_of_mem d hd)
  | same hstar hany _ ih =>
    obtain ⟨c, p, rfl, hc, rfl⟩ := List.map_eq_cons_iff.mp hp
    obtain ⟨d, s, rfl, hd, rfl⟩ := List.map_eq_cons_iff.mp hs
    obtain rfl := hsame c List.mem_cons_self d List.mem_cons_self (hc.trans hd.symm)
    refine .same ?_ ?_ (ih (fun c' hc d hd => ?_) rfl rfl)
    · rintro rfl
      exact hstar hc.symm
    · rintro rfl
      exact hany hc.symm
    · exact hsame c' (List.mem_cons_of_mem c hc) d (List.mem_cons_of_mem c hd)

/-- Can a name only be matched by a pattern that covers it? Where two question marks follow a
star its characters are short, and no slash of one meets a zero byte of the other. -/
structure Legible (p s : List Char) : Prop where
  even : Even p s
  slash : '/' ∈ p → '\x00' ∉ s
  zero : '\x00' ∈ p → '/' ∉ s

theorem Legible.plain_inj {p s : List Char} (h : Legible p s) :
    ∀ c ∈ p, ∀ d ∈ s, plain c = plain d → c = d := by
  intro c hc d hd heq
  by_cases hslash : c = '/'
  · by_cases hslash' : d = '/'
    · rw [hslash, hslash']
    · subst hslash
      rw [plain, plain, if_pos rfl, if_neg hslash'] at heq
      exact absurd (heq ▸ hd) (h.slash hc)
  · by_cases hslash' : d = '/'
    · subst hslash'
      rw [plain, plain, if_neg hslash, if_pos rfl] at heq
      exact absurd hd (h.zero (heq ▸ hc))
    · rwa [plain, plain, if_neg hslash, if_neg hslash'] at heq

theorem map_plain_eq {l marks : List Char} (hmarks : '\x00' ∉ marks) (h : l.map plain = marks) :
    l = marks := by
  rw [← h, eq_comm, ← List.map_id l, List.map_map]
  apply List.map_congr_left
  intro c hc
  have hmem : plain c ∈ marks := h ▸ List.mem_map_of_mem hc
  exact ((plain_eq_iff (fun hzero => hmarks (hzero ▸ hmem))).mp rfl).1.symm

theorem Even.plain {p s : List Char} (h : Even p s) : Even (p.map plain) (s.map plain) := by
  rintro ⟨front, back, hmarks⟩ c hc
  obtain ⟨d, hd, rfl⟩ := List.mem_map.mp hc
  obtain ⟨p', back, rfl, hp', rfl⟩ := List.map_eq_append_iff.mp hmarks.symm
  obtain ⟨front, three, rfl, rfl, hthree⟩ := List.map_eq_append_iff.mp hp'
  rw [map_plain_eq (by decide) hthree] at h
  have hshort := h ⟨front, back, rfl⟩ d hd
  rw [Glob.plain]
  split
  · decide
  · exact hshort

/-! ## The language -/

theorem matches?_eq (pattern name : Text) : matches? pattern name =
    matchChunks (cut false [] ((lower pattern).chars.map plain))
      (ofChars ((lower name).chars.map plain)) := by
  rw [matches?_eq_matchChunks, chunks, fold_eq, fold_eq]
  rfl

theorem matches?_of_covers {pattern name : Text}
    (h : Covers (lower pattern).chars (lower name).chars) : matches? pattern name = true := by
  rw [matches?_eq]
  exact matchChunks_of_covers List.not_mem_nil h.plain List.suffix_rfl fun _ => rfl

/-- Patterns are matched as sequences of characters in lower case: no pattern is refused as
malformed, every name that a pattern covers is matched, and a legible name is matched only if the
pattern covers it. -/
theorem matches?_covers (pattern name : Text) :
    PathPattern.matches? (escape (lower pattern)) (slashFree (lower name)) =
        .ok (matches? pattern name) ∧
      (Covers (lower pattern).chars (lower name).chars → matches? pattern name = true) ∧
      (Legible (lower pattern).chars (lower name).chars →
        (matches? pattern name = true ↔ Covers (lower pattern).chars (lower name).chars)) := by
  refine ⟨?_, matches?_of_covers, fun h => ⟨fun hmatch => ?_, matches?_of_covers⟩⟩
  · rw [matches_escape, matches?_eq_matchChunks]
  rw [matches?_eq] at hmatch
  have hcovers : Covers (starred false ([] ++ (lower pattern).chars.map plain)) _ :=
    covers_of_matchChunks List.not_mem_nil h.even.plain hmatch
  exact covers_of_plain h.plain_inj hcovers

/-- `$A?/É*` matches `$ax/éb`. -/
theorem matches?_covers_folded :
    Legible (lower (ofChars ['$', 'A', '?', '/', 'É', '*'])).chars
        (lower (ofChars ['$', 'a', 'x', '/', 'é', 'b'])).chars ∧
      matches? (ofChars ['$', 'A', '?', '/', 'É', '*']) (ofChars ['$', 'a', 'x', '/', 'é', 'b']) =
        true := by
  have hpattern : (lower (ofChars ['$', 'A', '?', '/', 'É', '*'])).chars =
      ['$', 'a', '?', '/', 'é', '*'] := by rw [chars_lower, chars_ofChars]; decide
  have hname : (lower (ofChars ['$', 'a', 'x', '/', 'é', 'b'])).chars =
      ['$', 'a', 'x', '/', 'é', 'b'] := by rw [chars_lower, chars_ofChars]; decide
  have hlegible : Legible (lower (ofChars ['$', 'A', '?', '/', 'É', '*'])).chars
      (lower (ofChars ['$', 'a', 'x', '/', 'é', 'b'])).chars := by
    rw [hpattern, hname]
    refine ⟨fun h => absurd h (by decide), by decide, by decide⟩
  have hcovers : Covers ['$', 'a', '?', '/', 'é', '*'] ['$', 'a', 'x', '/', 'é', 'b'] := by
    refine .same (by decide) (by decide) (.same (by decide) (by decide) (.any 'x' ?_))
    exact .same (by decide) (by decide) (.same (by decide) (by decide) (.star ['b'] .done))
  refine ⟨hlegible, ((matches?_covers _ _).2.2 hlegible).mpr ?_⟩
  rwa [hpattern, hname]

/-- The first question mark takes the second byte of the only character, the other one the
third. -/
example : matches? (ofChars ['*', '?', '?']) (ofChars ['€']) = true := by
  rw [matches?_eq_matchChunks]
  decide +kernel

end Glob

end ConsoleScript
