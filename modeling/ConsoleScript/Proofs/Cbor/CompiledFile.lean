import ConsoleScript.Cbor.CompiledFile
import ConsoleScript.Proofs.Cbor.RoundTrip
import ConsoleScript.Proofs.Code.Codecs

/-!
# Compiled files in CBOR read back

The codec for CBOR is faithful: the item that a file is written as is read back as the file, field
by field, unless it is refused for a text that is not UTF-8 or for an array that is too long.
-/

namespace ConsoleScript

open Cbor Number

/-! ## Fields -/

namespace Cbor.Item

/-- Is a value that is written as an item read back from it, if it is of a certain kind, and
refused otherwise? -/
def Reads {α : Type} (item : α → Item) (read : Item → Option α) (p : α → Bool) : Prop :=
  ∀ a, read (item a) = if p a then some a else none

theorem Reads.list? {α : Type} {item : α → Item} {read : Item → Option α} {p : α → Bool}
    (h : Reads item read p) (xs : List α) :
    (Item.array (xs.map item)).list? read = if xs.all p then some xs else none := by
  have hlist : (Item.array (xs.map item)).list? read = (xs.map item).mapM read := rfl
  rw [hlist]
  clear hlist
  induction xs with
  | nil => rfl
  | cons x xs ih =>
    rw [List.map_cons, List.mapM_cons, h, ih]
    by_cases hx : p x <;> by_cases hxs : xs.all p <;> simp [hx, hxs]

theorem reads_text : Reads (fun t => .text [t]) text? Text.isUtf8 := by
  intro t
  have htext : (Item.text [t]).text? = if [t].all Text.isUtf8 then some [t].flatten else none := rfl
  simp [htext]

@[simp] theorem word?_uint (w : UInt32) : (Item.uint w.toNat).word? = some w := by
  have hn : (Item.uint w.toNat).nat? = some w.toNat := rfl
  rw [word?, hn, Option.bind_some, if_pos w.toNat_lt]
  exact congrArg some UInt32.ofNat_toNat

theorem reads_word : Reads (fun w : UInt32 => .uint w.toNat) word? fun _ => true := by
  intro w
  simp

theorem reads_float : Reads .float float? fun _ => true := fun _ => rfl

private def valueOf (k : Nat) (pairs : List (Item × Item)) : Option Item :=
  pairs.findSome? fun (key, v) =>
    match key with
    | .uint n => if n == k then some v else none
    | _ => none

private theorem valueOf_cons (k n : Nat) (v : Item) (pairs : List (Item × Item)) :
    valueOf k ((.uint n, v) :: pairs) = if n = k then some v else valueOf k pairs := by
  simp only [valueOf, List.findSome?_cons, beq_iff_eq]
  split <;> simp_all

private theorem valueOf_nil (k : Nat) : valueOf k [] = none := rfl

private theorem valueOf_append (k : Nat) (ps qs : List (Item × Item)) :
    valueOf k (ps ++ qs) = (valueOf k ps).or (valueOf k qs) := List.findSome?_append

theorem record?_map {pairs : List (Item × Item)} (h : pairs.all (isKey ·.1)) :
    (Item.map pairs).record? = some fun k => valueOf k pairs := by
  have hrec : (Item.map pairs).record? =
      if pairs.all (isKey ·.1) then some fun k => valueOf k pairs else none := rfl
  rw [hrec, if_pos h]

end Cbor.Item

namespace CompiledFile

open Cbor.Item

private def lineItem (b : LineBreak) : Item :=
  .map [(.uint 1, .uint b.line.toNat), (.uint 2, .uint b.ip.toNat)]

private theorem reads_line : Reads lineItem line? fun _ => true := by
  intro b
  rw [line?, lineItem, record?_map (by rfl)]
  simp [valueOf_cons]

private theorem valueOf_listField {α : Type} (k key : Nat) (item : α → Item) (xs : List α) :
    valueOf k (listField key item xs) =
      if key = k ∧ xs ≠ [] then some (.array (xs.map item)) else none := by
  cases xs with
  | nil => simp [listField, valueOf]
  | cons x xs => simp [listField, valueOf]

/-- A list is read back, also if it is left out because it is empty. -/
private theorem list?_listField {α : Type} {item : α → Item} {read : Item → Option α}
    {p : α → Bool} (h : Reads item read p) (xs : List α) :
    ((if xs ≠ [] then some (Item.array (xs.map item)) else none).getD missing).list? read =
      if xs.all p then some xs else none := by
  have hmissing : missing.list? read = some [] := rfl
  by_cases hxs : xs = []
  · simp [hxs, hmissing]
  · simpa [hxs] using h.list? xs

private theorem text?_optional (t : Text) :
    ((if t ≠ [] then some (Item.text [t]) else none).getD missing).text? =
      if t.isUtf8 then some t else none := by
  have hmissing : missing.text? = some [] := rfl
  by_cases h : t = []
  · simp [h, hmissing, Text.isUtf8]
  · simpa [h] using reads_text t

private theorem valueOf_optional (k : Nat) (t : Text) :
    valueOf k (if t.isEmpty then [] else [(.uint 10, .text [t])]) =
      if 10 = k ∧ t ≠ [] then some (.text [t]) else none := by
  cases t with
  | nil => simp [valueOf_nil]
  | cons b t => simp [valueOf_cons, valueOf_nil]

private def pairs (f : CompiledFile) : List (Item × Item) :=
  [(Item.uint 1, Item.text [f.magic]), (Item.uint 2, Item.uint f.version.toNat),
    (Item.uint 3, Item.bytes f.buildId), (Item.uint 4, Item.bytes f.sourceHash),
    (Item.uint 5, Item.text [f.name]),
    (Item.uint 6, Item.array (f.code.map fun w => Item.uint w.toNat))]
  ++ listField 7 (fun t => .text [t]) f.texts ++ listField 8 .float f.floats
  ++ listField 9 lineItem f.lines
  ++ if f.source.isEmpty then [] else [(Item.uint 10, Item.text [f.source])]

private theorem toItem_eq (f : CompiledFile) : f.toItem = .map f.pairs := rfl

private theorem valueOf_header (f : CompiledFile) :
    valueOf 1 f.pairs = some (.text [f.magic]) ∧ valueOf 2 f.pairs = some (.uint f.version.toNat) ∧
    valueOf 3 f.pairs = some (.bytes f.buildId) ∧ valueOf 4 f.pairs = some (.bytes f.sourceHash) ∧
    valueOf 5 f.pairs = some (.text [f.name]) ∧
    valueOf 6 f.pairs = some (.array (f.code.map fun w => .uint w.toNat)) :=
  ⟨rfl, rfl, rfl, rfl, rfl, rfl⟩

private theorem valueOf_lists (f : CompiledFile) :
    valueOf 7 f.pairs =
      (if f.texts ≠ [] then some (.array (f.texts.map fun t => .text [t])) else none) ∧
    valueOf 8 f.pairs = (if f.floats ≠ [] then some (.array (f.floats.map .float)) else none) ∧
    valueOf 9 f.pairs = (if f.lines ≠ [] then some (.array (f.lines.map lineItem)) else none) ∧
    valueOf 10 f.pairs = (if f.source ≠ [] then some (.text [f.source]) else none) := by
  refine ⟨?_, ?_, ?_, ?_⟩ <;>
    simp only [pairs, valueOf_append, valueOf_cons, valueOf_nil, valueOf_listField,
      valueOf_optional, Nat.reduceEqDiff, if_false, false_and, true_and, Option.or_none,
      Option.none_or]

private theorem isKey_listField {α : Type} (key : Nat) (item : α → Item) (xs : List α) :
    (listField key item xs).all (isKey ·.1) := by
  cases xs <;> rfl

private theorem isKey_pairs (f : CompiledFile) : f.pairs.all (isKey ·.1) := by
  have hsource : (if f.source.isEmpty then [] else [(Item.uint 10, Item.text [f.source])]).all
      (isKey ·.1) := by
    split <;> rfl
  simp only [pairs, List.all_append, isKey_listField, hsource]
  rfl

theorem ofItem?_toItem {f : CompiledFile} (h : f.Storable) :
    ofItem? f.toItem = if f.isLegible then some f else none := by
  have hid : (Item.bytes f.buildId).buildId? = some f.buildId := by
    have hbytes : (Item.bytes f.buildId).buildId? =
        if f.buildId.length == 16 || f.buildId.isEmpty then some (fitBytes 16 f.buildId) else none :=
      rfl
    simp [hbytes, h.buildId, fitBytes]
  have hhash : (Item.bytes f.sourceHash).bytes? 32 = some f.sourceHash := by
    have hbytes : (Item.bytes f.sourceHash).bytes? 32 = some (fitBytes 32 f.sourceHash) := rfl
    simp [hbytes, h.sourceHash, fitBytes]
  have hcode := reads_word.list? f.code
  have htexts := list?_listField reads_text f.texts
  have hfloats := list?_listField reads_float f.floats
  have hlines := list?_listField reads_line f.lines
  have hsource := text?_optional f.source
  obtain ⟨hone, htwo, hthree, hfour, hfive, hsix⟩ := f.valueOf_header
  obtain ⟨hseven, height, hnine, hten⟩ := f.valueOf_lists
  rw [ofItem?, toItem_eq, record?_map f.isKey_pairs]
  rw [Option.bind_eq_bind, Option.bind_some]
  simp only [hone, htwo, hthree, hfour, hfive, hsix, hseven, height, hnine, hten]
  simp only [Option.getD_some, hid, hhash, word?_uint, hcode, htexts, hfloats, hlines, hsource]
  rw [reads_text f.magic, reads_text f.name]
  by_cases hmagic : f.magic.isUtf8 <;> by_cases hname : f.name.isUtf8 <;>
    by_cases htext : f.texts.all Text.isUtf8 <;> by_cases hsrc : f.source.isUtf8 <;>
    simp [isLegible, hmagic, hname, htext, hsrc]

/-! ## Files -/

private theorem mem_listField {α : Type} {key : Nat} {item : α → Item} {xs : List α}
    {kv : Item × Item} (h : kv ∈ listField key item xs) :
    kv = (.uint key, .array (xs.map item)) := by
  cases xs with
  | nil => simp [listField] at h
  | cons x xs => simpa [listField] using h

private theorem plain_listField {α : Type} {key : Nat} {item : α → Item} {xs : List α}
    (hkey : key < 2 ^ 64) (h : ∀ x ∈ xs, (item x).Plain) :
    PairsPlain (listField key item xs) := by
  rw [pairsPlain_iff]
  rintro kv hkv
  obtain rfl := mem_listField hkv
  refine ⟨hkey, allPlain_iff.mpr ?_⟩
  simpa using h

theorem plain_toItem {f : CompiledFile} (h : ∀ b ∈ f.floats, ∃ v : Float, b = v.toBits) :
    f.toItem.Plain := by
  have hword (w : UInt32) : (Item.uint w.toNat).Plain := Nat.lt_trans w.toNat_lt (by decide)
  have hcode : (Item.array (f.code.map fun w => .uint w.toNat)).Plain := by
    apply allPlain_iff.mpr
    simpa using fun w _ => hword w
  have hheader : PairsPlain
      [(.uint 1, .text [f.magic]), (.uint 2, .uint f.version.toNat), (.uint 3, .bytes f.buildId),
        (.uint 4, .bytes f.sourceHash), (.uint 5, .text [f.name]),
        (.uint 6, .array (f.code.map fun w => .uint w.toNat))] := by
    simp only [PairsPlain, hword, hcode]
    simp [Plain]
  have htexts : PairsPlain (listField 7 (fun t => .text [t]) f.texts) :=
    plain_listField (by decide) fun _ _ => rfl
  have hfloats : PairsPlain (listField 8 .float f.floats) := plain_listField (by decide) h
  have hlines : PairsPlain (listField 9 lineItem f.lines) := by
    apply plain_listField (by decide)
    intro b _
    simp only [lineItem, Plain, PairsPlain, and_true]
    exact ⟨by decide, hword _, by decide, hword _⟩
  have hsource : PairsPlain (if f.source.isEmpty then [] else [(.uint 10, .text [f.source])]) := by
    split <;> simp [PairsPlain, Plain]
  rw [toItem_eq, Plain, pairs]
  simp only [pairsPlain_append]
  exact ⟨⟨⟨⟨hheader, htexts⟩, hfloats⟩, hlines⟩, hsource⟩

private theorem pairsFit_listField {α : Type} (key : Nat) {item : α → Item} (xs : List α)
    (h : ∀ x, (item x).fits 2 = true) :
    pairsFit 1 (listField key item xs) = decide (xs.length ≤ maxElements) := by
  cases xs with
  | nil => rfl
  | cons x xs =>
    have hall : ((x :: xs).map item).all (fits 2) = true := by
      simp only [List.all_map, List.all_eq_true, Function.comp_apply]
      exact fun y _ => h y
    simp only [listField, List.isEmpty_cons, Bool.false_eq_true, if_false, pairsFit, fits,
      allFit_eq, hall, List.length_map]
    simp [maxDepth]

private theorem length_pairs_le (f : CompiledFile) : f.pairs.length ≤ 10 := by
  have hfield {α : Type} (key : Nat) (item : α → Item) (xs : List α) :
      (listField key item xs).length ≤ 1 := by
    rw [listField]
    split <;> simp
  have htexts := hfield 7 (fun t => .text [t]) f.texts
  have hfloats := hfield 8 .float f.floats
  have hlines := hfield 9 lineItem f.lines
  have hsource : (if f.source.isEmpty then [] else [(Item.uint 10, Item.text [f.source])]).length
      ≤ 1 := by
    split <;> simp
  simp only [pairs, List.length_append, List.length_cons, List.length_nil]
  omega

theorem fits_toItem (f : CompiledFile) : f.toItem.fits 0 = f.isCompact := by
  have hlength : f.pairs.length ≤ maxElements := Nat.le_trans f.length_pairs_le (by decide)
  have htexts := pairsFit_listField 7 f.texts (fun t => (rfl : (Item.text [t]).fits 2 = true))
  have hfloats := pairsFit_listField 8 f.floats (fun b => (rfl : (Item.float b).fits 2 = true))
  have hlines := pairsFit_listField 9 f.lines (fun b => (rfl : (lineItem b).fits 2 = true))
  have hcode : (f.code.map fun w : UInt32 => Item.uint w.toNat).all (fits 2) = true := by
    simp only [List.all_map, List.all_eq_true, Function.comp_apply]
    exact fun _ _ => rfl
  have hsource : pairsFit 1
      (if f.source.isEmpty then [] else [(.uint 10, .text [f.source])]) = true := by
    split <;> rfl
  have hpairs : pairsFit 1 f.pairs = f.isCompact := by
    have hmax : Codec.maxElements = maxElements := rfl
    simp only [pairs, pairsFit_append, htexts, hfloats, hlines, hsource, pairsFit, fits, allFit_eq,
      hcode, List.length_map]
    simp [maxDepth, isCompact, hmax]
  rw [toItem_eq, fits, hpairs]
  simp [hlength, maxDepth]

theorem Codec.faithful_cbor : Codec.cbor.Faithful := by
  have hparse {f : CompiledFile} (hf : f.Storable) (hlen : f.toItem.encode.length < signedBound) :
      (parse? f.toItem.encode) = if f.isCompact then some f.toItem else none := by
    rw [parse?_encode (plain_toItem hf.floats) hlen, fits_toItem]
  constructor
  · exact fun _ => ⟨_, rfl⟩
  · rintro f _ hf ⟨⟩ hlen hlegible hcompact
    simp [cbor, hparse hf hlen, hcompact, ofItem?_toItem hf, hlegible]
  · rintro f _ hf ⟨⟩ hlen hrefused
    by_cases hcompact : f.isCompact
    · have hlegible : f.isLegible = false := by simpa [hcompact] using hrefused
      simp [cbor, hparse hf hlen, hcompact, ofItem?_toItem hf, hlegible]
    · simp [cbor, hparse hf hlen, hcompact]

end CompiledFile

end ConsoleScript
