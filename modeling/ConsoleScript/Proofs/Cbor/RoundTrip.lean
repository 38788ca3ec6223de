import ConsoleScript.Cbor.Parse
import ConsoleScript.Proofs.Cbor.Widths

/-!
# Reading back what was written

An item in canonical form is read back as itself, whatever follows it, unless an array or a map in
it has too many elements or is nested too deep; then reading fails.
-/

namespace ConsoleScript.Cbor

open Number

/-! ## Bytes and heads -/

@[simp] theorem takeExact?_append (t rest : Text) :
    takeExact? t.length (t ++ rest) = some (t, rest) := by
  induction t with
  | nil => rfl
  | cons b t ih => simp [takeExact?, ih]

@[simp] theorem length_bigEndian (width n : Nat) : (bigEndian width n).length = width := by
  simp [bigEndian]

theorem bigEndian_succ (width n : Nat) :
    bigEndian (width + 1) n = (n >>> (8 * width)).toUInt8 :: bigEndian width n := by
  simp only [bigEndian, List.range_succ_eq_map, List.map_cons, List.map_map, Nat.add_sub_cancel,
    Nat.sub_zero]
  congr 1
  apply List.map_congr_left
  intro i _
  simp only [Function.comp_apply, Nat.succ_eq_add_one]
  congr 3
  omega

private theorem foldl_bigEndian (width n acc : Nat) :
    (bigEndian width n).foldl (fun n b => n * 256 + b.toNat) acc =
      acc * 256 ^ width + n % 256 ^ width := by
  induction width generalizing acc with
  | zero => simp [bigEndian, Nat.mod_one]
  | succ width ih =>
    have hpow : 2 ^ (8 * width) = 256 ^ width := by
      rw [pow_mul]
      norm_num
    have hbyte : (n >>> (8 * width)).toUInt8.toNat = n / 256 ^ width % 256 := by
      rw [Nat.shiftRight_eq_div_pow, hpow]
      rfl
    rw [bigEndian_succ, List.foldl_cons, ih, hbyte, pow_succ, Nat.mod_mul]
    ring

theorem ofBigEndian_bigEndian {width n : Nat} (h : n < 256 ^ width) :
    ofBigEndian (bigEndian width n) = n := by
  rw [ofBigEndian, foldl_bigEndian, zero_mul, zero_add, Nat.mod_eq_of_lt h]

private theorem toNat_first {major info : Nat} (hmajor : major < 8) (hinfo : info < 32) :
    (major * 32 + info).toUInt8.toNat / 32 = major ∧
      (major * 32 + info).toUInt8.toNat % 32 = info := by
  have hbyte : (major * 32 + info).toUInt8.toNat = major * 32 + info := by
    change (major * 32 + info) % 256 = _
    omega
  rw [hbyte]
  omega

/-- A head whose argument follows in bytes of its own. -/
private theorem head?_wide {major info width n : Nat} (rest : Text) (hmajor : major < 8)
    (hwidth : (info, width) ∈ [(24, 1), (25, 2), (26, 4), (27, 8)]) (hn : n < 256 ^ width)
    (hsimple : width = 1 → major ≠ 7) :
    head? ((major * 32 + info).toUInt8 :: bigEndian width n ++ rest) =
      some (⟨major, info, some n⟩, rest) := by
  simp only [List.mem_cons, Prod.mk.injEq, List.not_mem_nil, or_false] at hwidth
  obtain ⟨hdiv, hmod⟩ := toNat_first hmajor (show info < 32 by omega)
  have htake : takeExact? width (bigEndian width n ++ rest) = some (bigEndian width n, rest) := by
    have h := takeExact?_append (bigEndian width n) rest
    rwa [length_bigEndian] at h
  have hread := ofBigEndian_bigEndian hn
  simp only [head?, List.cons_append, hdiv, hmod]
  rcases hwidth with ⟨rfl, rfl⟩ | ⟨rfl, rfl⟩ | ⟨rfl, rfl⟩ | ⟨rfl, rfl⟩
  · simp [htake, hread, hsimple rfl]
  all_goals simp [htake, hread]

theorem head?_head {major n : Nat} (rest : Text) (hmajor : major < 7) (hn : n < 2 ^ 64) :
    ∃ info, head? (head major n ++ rest) = some (⟨major, info, some n⟩, rest) := by
  have hwide {info width : Nat} (hwidth : (info, width) ∈ [(24, 1), (25, 2), (26, 4), (27, 8)])
      (hn : n < 256 ^ width) :
      ∃ info', head? ((major * 32 + info).toUInt8 :: bigEndian width n ++ rest) =
        some (⟨major, info', some n⟩, rest) :=
    ⟨info, head?_wide rest (by omega) hwidth hn (by omega)⟩
  rw [head]
  split
  · rename_i h
    obtain ⟨hdiv, hmod⟩ := toNat_first (show major < 8 by omega) (show n < 32 by omega)
    exact ⟨n, by simp only [head?, List.cons_append, hdiv, hmod, h, if_true, List.nil_append]⟩
  split
  · exact hwide (by simp) (by simpa using ‹n < UInt8.size›)
  split
  · exact hwide (by simp) (by simpa using ‹n < UInt16.size›)
  split
  · exact hwide (by simp) (by simpa using ‹n < UInt32.size›)
  · exact hwide (by simp) (by simpa using hn)

theorem length_head_pos (major n : Nat) : 0 < (head major n).length := by
  rw [head]
  repeat' split
  all_goals simp

/-! ## Numbers -/

private def Holds (t : Text) (bits : UInt64) : Prop :=
  ∀ rest, ∃ h n, head? (t ++ rest) = some (h, rest) ∧ h.major = 7 ∧ h.argument = some n ∧
    primitive h n = .float bits

private theorem holds_wide (info width n : Nat) {bits : UInt64}
    (hwidth : (info, width) ∈ [(25, 2), (26, 4), (27, 8)]) (hn : n < 256 ^ width)
    (hread : primitive ⟨7, info, some n⟩ n = .float bits) :
    Holds ((7 * 32 + info).toUInt8 :: bigEndian width n) bits := by
  intro rest
  have hwidth' : (info, width) ∈ [(24, 1), (25, 2), (26, 4), (27, 8)] := .tail _ hwidth
  have hne : width = 1 → 7 ≠ 7 := by
    rintro rfl
    simp at hwidth
  exact ⟨_, n, head?_wide rest (by decide) hwidth' hn hne, rfl, rfl, hread⟩

/-- A double in the shortest width that holds it is read back with all its bits. -/
private theorem holds_encodeFloat (f : Float) : Holds (encodeFloat f.toBits) f.toBits := by
  have hbit : (if isNegative f then 1 else 0) < 2 := by split <;> decide
  simp only [encodeFloat, ofBits_toBits]
  match hf : magnitude f with
  | .notANumber =>
    apply holds_wide 25 2 0x7E00 (by simp) (by decide)
    rw [bits_of_notANumber hf]
    rfl
  | .infinite =>
    apply holds_wide 25 2 _ (by simp)
    · rw [Nat.shiftLeft_eq]
      omega
    · have hbits := toNat_toBits f
      rw [bits_of_infinite hf] at hbits
      rw [show f.toBits = UInt64.ofNat f.toBits.toNat from UInt64.ofNat_toNat.symm, hbits]
      cases isNegative f <;> rfl
  | .finite m q =>
    match hhalf : Width.half.bitsOf? m q, hsingle : Width.single.bitsOf? m q with
    | some b, _ =>
      have hlt := Width.bitsOf?_lt (by decide) hhalf
      simp only [hhalf]
      apply holds_wide 25 2 _ (by simp)
      · rw [Nat.shiftLeft_eq]
        change b < 2 ^ 15 at hlt
        omega
      · exact congrArg Item.float (Width.widen_toBits Width.half (by decide) hf hhalf)
    | none, some b =>
      have hlt := Width.bitsOf?_lt (by decide) hsingle
      simp only [hhalf, hsingle]
      apply holds_wide 26 4 _ (by simp)
      · rw [Nat.shiftLeft_eq]
        change b < 2 ^ 31 at hlt
        omega
      · exact congrArg Item.float (Width.widen_toBits Width.single (by decide) hf hsingle)
    | none, none =>
      simp only [hhalf, hsingle]
      apply holds_wide 27 8 _ (by simp) f.toBits.toNat_lt
      exact congrArg Item.float UInt64.ofNat_toNat

/-! ## Items -/

namespace Item

mutual

/-- Is the item made of numbers, texts, bytes, arrays and maps only, each text in one piece? -/
def Plain : Item → Prop
  | .uint n => n < 2 ^ 64
  | .negative n => n < 2 ^ 64
  | .bytes _ => True
  | .text pieces => pieces.length = 1
  | .array items => AllPlain items
  | .map pairs => PairsPlain pairs
  | .tag _ _ => False
  | .simple _ => False
  | .float bits => ∃ f : Float, bits = f.toBits

def AllPlain : List Item → Prop
  | [] => True
  | x :: xs => x.Plain ∧ AllPlain xs

def PairsPlain : List (Item × Item) → Prop
  | [] => True
  | (k, v) :: rest => k.Plain ∧ v.Plain ∧ PairsPlain rest

end

mutual

/-- Is the item within the limits on size and nesting, inside of `depth` others? -/
def fits (depth : Nat) : Item → Bool
  | .array items =>
    depth < maxDepth && items.length ≤ maxElements && allFit (depth + 1) items
  | .map pairs =>
    depth < maxDepth && pairs.length ≤ maxElements && pairsFit (depth + 1) pairs
  | _ => true

def allFit (depth : Nat) : List Item → Bool
  | [] => true
  | x :: xs => x.fits depth && allFit depth xs

def pairsFit (depth : Nat) : List (Item × Item) → Bool
  | [] => true
  | (k, v) :: rest => k.fits depth && v.fits depth && pairsFit depth rest

end

theorem allPlain_iff {xs : List Item} : AllPlain xs ↔ ∀ x ∈ xs, x.Plain := by
  induction xs with
  | nil => simp [AllPlain]
  | cons x xs ih => simp [AllPlain, ih]

theorem pairsPlain_iff {ps : List (Item × Item)} :
    PairsPlain ps ↔ ∀ kv ∈ ps, kv.1.Plain ∧ kv.2.Plain := by
  induction ps with
  | nil => simp [PairsPlain]
  | cons kv ps ih => simp [PairsPlain, ih, and_assoc]

theorem pairsPlain_append {ps qs : List (Item × Item)} :
    PairsPlain (ps ++ qs) ↔ PairsPlain ps ∧ PairsPlain qs := by
  rw [pairsPlain_iff, pairsPlain_iff, pairsPlain_iff, List.forall_mem_append]

theorem allFit_eq (depth : Nat) (xs : List Item) : allFit depth xs = xs.all (fits depth) := by
  induction xs with
  | nil => rfl
  | cons x xs ih => simp [allFit, ih]

theorem pairsFit_append (depth : Nat) (ps qs : List (Item × Item)) :
    pairsFit depth (ps ++ qs) = (pairsFit depth ps && pairsFit depth qs) := by
  induction ps with
  | nil => rfl
  | cons kv ps ih => simp [pairsFit, ih, Bool.and_assoc]

private theorem length_head_append_pos (major n : Nat) (t : Text) :
    0 < (head major n ++ t).length := by
  rw [List.length_append]
  exact Nat.add_pos_left (length_head_pos major n) _

theorem length_encode_pos {x : Item} (h : x.Plain) : 0 < x.encode.length := by
  cases x with
  | uint n => exact length_head_pos 0 n
  | negative n => exact length_head_pos 1 n
  | bytes b => exact length_head_append_pos 2 _ b
  | text pieces => exact length_head_append_pos 3 _ _
  | array items => exact length_head_append_pos 4 _ _
  | map pairs => exact length_head_append_pos 5 _ _
  | tag n x => exact h.elim
  | simple n => exact h.elim
  | float bits =>
    obtain ⟨f, rfl⟩ := h
    obtain ⟨_, _, hread, -⟩ := holds_encodeFloat f []
    apply List.length_pos_iff.mpr
    intro hnil
    rw [encode] at hnil
    simp [hnil, head?] at hread

theorem length_le_encodeAll : ∀ {xs : List Item}, AllPlain xs → xs.length ≤ (encodeAll xs).length
  | [], _ => Nat.zero_le _
  | x :: xs, h => by
    have hx := length_encode_pos h.1
    have hxs := length_le_encodeAll h.2
    simp only [encodeAll, List.length_cons, List.length_append]
    omega

theorem length_le_encodePairs : ∀ {ps : List (Item × Item)}, PairsPlain ps →
    ps.length ≤ (encodePairs ps).length
  | [], _ => Nat.zero_le _
  | (k, v) :: ps, h => by
    have hk := length_encode_pos h.1
    have hps := length_le_encodePairs h.2.2
    simp only [encodePairs, List.length_cons, List.length_append]
    omega

/-! ## Items by their heads -/

section

variable {fuel depth info n : Nat} {t rest : Text}

theorem item?_uint (h : head? t = some (⟨0, info, some n⟩, rest)) :
    item? (fuel + 1) depth t = some (.uint n, rest) := by
  rw [item?, h]
  rfl

theorem item?_negative (h : head? t = some (⟨1, info, some n⟩, rest)) :
    item? (fuel + 1) depth t = some (.negative n, rest) := by
  rw [item?, h]
  rfl

theorem item?_bytes (h : head? t = some (⟨2, info, some n⟩, rest)) :
    item? (fuel + 1) depth t = (string? n rest).bind fun s => some (.bytes s.1, s.2) := by
  rw [item?, h]
  rfl

theorem item?_text (h : head? t = some (⟨3, info, some n⟩, rest)) :
    item? (fuel + 1) depth t = (string? n rest).bind fun s => some (.text [s.1], s.2) := by
  rw [item?, h]
  rfl

theorem item?_array (h : head? t = some (⟨4, info, some n⟩, rest)) :
    item? (fuel + 1) depth t =
      if maxDepth ≤ depth || maxElements < n then none
      else (items? fuel (depth + 1) (some n) rest).bind fun r =>
        if maxElements < r.1.length then none else some (.array r.1, r.2) := by
  rw [item?, h]
  rfl

theorem item?_map (h : head? t = some (⟨5, info, some n⟩, rest)) :
    item? (fuel + 1) depth t =
      if maxDepth ≤ depth || maxElements < n then none
      else (pairs? fuel (depth + 1) (some n) rest).bind fun r =>
        if maxElements < r.1.length then none else some (.map r.1, r.2) := by
  rw [item?, h]
  rfl

theorem item?_primitive {h : Head} (hhead : head? t = some (h, rest)) (hmajor : h.major = 7)
    (harg : h.argument = some n) : item? (fuel + 1) depth t = some (primitive h n, rest) := by
  rw [item?, hhead, Option.bind_eq_bind, Option.bind_some]
  dsimp only
  rw [hmajor, harg]
  rfl

theorem items?_succ (n : Nat) : items? (fuel + 1) depth (some (n + 1)) t =
    (item? fuel depth t).bind fun x =>
      (items? fuel depth (some n) x.2).bind fun xs => some (x.1 :: xs.1, xs.2) := rfl

theorem pairs?_succ (n : Nat) : pairs? (fuel + 1) depth (some (n + 1)) t =
    (item? fuel depth t).bind fun k =>
      (item? fuel depth k.2).bind fun v =>
        (pairs? fuel depth (some n) v.2).bind fun more => some ((k.1, v.1) :: more.1, more.2) := rfl

end

/-- What becomes of a list of items or pairs that is read inside of `depth` others. -/
private theorem limited {α : Type} (depth : Nat) (xs : List α) (fit : Bool) (item : List α → Item)
    (rest : Text) :
    (if maxDepth ≤ depth || maxElements < xs.length then none
      else (if fit then some (xs, rest) else none).bind fun r =>
        if maxElements < r.1.length then none else some (item r.1, r.2)) =
      if depth < maxDepth && xs.length ≤ maxElements && fit then some (item xs, rest) else none := by
  by_cases hdepth : maxDepth ≤ depth
  · simp [hdepth, Nat.not_lt.mpr hdepth]
  by_cases hcount : maxElements < xs.length
  · simp [hcount, Nat.not_le.mpr hcount]
  · cases fit <;> simp [hdepth, hcount, Nat.not_le.mp hdepth, Nat.not_lt.mp hcount]

mutual

/-- An item is read back if it is within the limits. Each level takes at most two steps for a
byte, and one more to find the end of a list. -/
theorem item?_encode : ∀ (x : Item) (fuel depth : Nat) (rest : Text), x.Plain →
    x.encode.length < signedBound → 2 * x.encode.length ≤ fuel →
    item? fuel depth (x.encode ++ rest) = if x.fits depth then some (x, rest) else none
  | x, 0, _, _, hplain, _, hfuel => by
    have := length_encode_pos hplain
    omega
  | .uint n, fuel + 1, depth, rest, hplain, _, _ => by
    obtain ⟨info, hhead⟩ := head?_head rest (show 0 < 7 by decide) hplain
    rw [encode, item?_uint hhead]
    rfl
  | .negative n, fuel + 1, depth, rest, hplain, _, _ => by
    obtain ⟨info, hhead⟩ := head?_head rest (show 1 < 7 by decide) hplain
    rw [encode, item?_negative hhead]
    rfl
  | .bytes b, fuel + 1, depth, rest, hplain, hlen, _ => by
    have hb : b.length < signedBound := by
      simp only [encode, List.length_append] at hlen
      omega
    obtain ⟨info, hhead⟩ := head?_head (b ++ rest) (show 2 < 7 by decide)
      (show b.length < 2 ^ 64 from Nat.lt_trans hb (by decide))
    rw [encode, List.append_assoc, item?_bytes hhead, string?, if_pos hb, takeExact?_append]
    rfl
  | .text pieces, fuel + 1, depth, rest, hplain, hlen, _ => by
    obtain ⟨t, rfl⟩ := List.length_eq_one_iff.mp hplain
    have ht : t.length < signedBound := by
      simp only [encode, List.flatten_cons, List.flatten_nil, List.append_nil,
        List.length_append] at hlen
      omega
    obtain ⟨info, hhead⟩ := head?_head (t ++ rest) (show 3 < 7 by decide)
      (show t.length < 2 ^ 64 from Nat.lt_trans ht (by decide))
    rw [encode, List.flatten_cons, List.flatten_nil, List.append_nil, List.append_assoc,
      item?_text hhead, string?, if_pos ht, takeExact?_append]
    rfl
  | .array items, fuel + 1, depth, rest, hplain, hlen, hfuel => by
    simp only [encode, List.length_append] at hlen hfuel
    have hpos := length_head_pos 4 items.length
    have hcount := length_le_encodeAll hplain
    obtain ⟨info, hhead⟩ := head?_head (encodeAll items ++ rest) (show 4 < 7 by decide)
      (show items.length < 2 ^ 64 from Nat.lt_trans (by omega) (show signedBound < 2 ^ 64 by decide))
    have hitems := items?_encodeAll items fuel (depth + 1) rest hplain (by omega) (by omega)
    rw [encode, List.append_assoc, item?_array hhead, hitems, limited, fits]
  | .map pairs, fuel + 1, depth, rest, hplain, hlen, hfuel => by
    simp only [encode, List.length_append] at hlen hfuel
    have hpos := length_head_pos 5 pairs.length
    have hcount := length_le_encodePairs hplain
    obtain ⟨info, hhead⟩ := head?_head (encodePairs pairs ++ rest) (show 5 < 7 by decide)
      (show pairs.length < 2 ^ 64 from Nat.lt_trans (by omega) (show signedBound < 2 ^ 64 by decide))
    have hpairs := pairs?_encodePairs pairs fuel (depth + 1) rest hplain (by omega) (by omega)
    rw [encode, List.append_assoc, item?_map hhead, hpairs, limited, fits]
  | .tag _ _, _ + 1, _, _, hplain, _, _ => hplain.elim
  | .simple _, _ + 1, _, _, hplain, _, _ => hplain.elim
  | .float bits, fuel + 1, depth, rest, hplain, _, _ => by
    obtain ⟨f, rfl⟩ := hplain
    obtain ⟨h, n, hhead, hmajor, harg, hread⟩ := holds_encodeFloat f rest
    rw [encode, item?_primitive hhead hmajor harg, hread]
    rfl

theorem items?_encodeAll : ∀ (xs : List Item) (fuel depth : Nat) (rest : Text), AllPlain xs →
    (encodeAll xs).length < signedBound → 2 * (encodeAll xs).length + 1 ≤ fuel →
    items? fuel depth (some xs.length) (encodeAll xs ++ rest) =
      if allFit depth xs then some (xs, rest) else none
  | xs, 0, _, _, _, _, hfuel => by omega
  | [], fuel + 1, depth, rest, _, _, _ => rfl
  | x :: xs, fuel + 1, depth, rest, hplain, hlen, hfuel => by
    simp only [encodeAll, List.length_append] at hlen hfuel
    have hpos := length_encode_pos hplain.1
    have hx := item?_encode x fuel depth (encodeAll xs ++ rest) hplain.1 (by omega) (by omega)
    have hxs := items?_encodeAll xs fuel depth rest hplain.2 (by omega) (by omega)
    rw [List.length_cons, encodeAll, List.append_assoc, items?_succ, hx, allFit]
    by_cases hfit : x.fits depth
    · by_cases hfits : allFit depth xs <;> simp [hxs, hfit, hfits]
    · simp [hfit]

theorem pairs?_encodePairs : ∀ (ps : List (Item × Item)) (fuel depth : Nat) (rest : Text),
    PairsPlain ps → (encodePairs ps).length < signedBound →
    2 * (encodePairs ps).length + 1 ≤ fuel →
    pairs? fuel depth (some ps.length) (encodePairs ps ++ rest) =
      if pairsFit depth ps then some (ps, rest) else none
  | ps, 0, _, _, _, _, hfuel => by omega
  | [], fuel + 1, depth, rest, _, _, _ => rfl
  | (k, v) :: ps, fuel + 1, depth, rest, hplain, hlen, hfuel => by
    simp only [encodePairs, List.length_append] at hlen hfuel
    have hkpos := length_encode_pos hplain.1
    have hvpos := length_encode_pos hplain.2.1
    have hk := item?_encode k fuel depth (v.encode ++ (encodePairs ps ++ rest)) hplain.1
      (by omega) (by omega)
    have hv := item?_encode v fuel depth (encodePairs ps ++ rest) hplain.2.1 (by omega) (by omega)
    have hps := pairs?_encodePairs ps fuel depth rest hplain.2.2 (by omega) (by omega)
    rw [List.length_cons, encodePairs, List.append_assoc, List.append_assoc, pairs?_succ, hk, pairsFit]
    by_cases hkfit : k.fits depth
    · by_cases hvfit : v.fits depth
      · by_cases hfits : pairsFit depth ps <;> simp [hv, hps, hkfit, hvfit, hfits]
      · simp [hv, hkfit, hvfit]
    · simp [hkfit]

end

/-- Reading the bytes of an item gives the item, if it is within the limits. -/
theorem parse?_encode {x : Item} (hplain : x.Plain) (hlen : x.encode.length < signedBound) :
    parse? x.encode = if x.fits 0 then some x else none := by
  have h := item?_encode x (2 * x.encode.length + 2) 0 [] hplain hlen (by omega)
  rw [List.append_nil] at h
  by_cases hfit : x.fits 0 <;> simp [parse?, h, hfit]

end Item

end ConsoleScript.Cbor
