import ConsoleScript.Proofs.Source.LowerCase

/-!
# Letter case of reserved words

Where tokens begin and end, and which kinds they have, hangs on the case of letters in two places
only: words that join texts are spelled in capitals, and `switch` in front of a dollar sign is one
token with it when it is spelled in small letters. So another case of reserved words leaves the
tokens as they are, unless it makes a `switch$` or breaks one up.
-/

namespace ConsoleScript

open Text

variable {b b' : UInt8} {s t t' : Text}

/-! ## Words -/

theorem Text.lower_eq_lowerAscii (ht : ∀ x ∈ t, x < 0x80) : lower t = lowerAscii t := by
  have htable : ∀ n < 0x80, ofChar (lowerChar (Char.ofNat n)) = [lowerByte (.ofNat n)] := by
    decide
  induction t with
  | nil => simp [lower, chars]
  | cons b t ih =>
    obtain ⟨hb, ht⟩ := List.forall_mem_cons.mp ht
    have hbyte := htable b.toNat (UInt8.lt_iff_toNat_lt.mp hb)
    rw [UInt8.ofNat_toNat] at hbyte
    rw [lower_cons, headChar_ascii hb, List.drop_zero, ih ht, hbyte]
    rfl

/-- Runs of equal length are the same when the texts agree there. -/
theorem takeWhile_eq_of_getElem? {p : UInt8 → Bool}
    (hlength : (s.takeWhile p).length = (t.takeWhile p).length)
    (h : ∀ i < (t.takeWhile p).length, s[i]? = t[i]?) : s.takeWhile p = t.takeWhile p := by
  have hs := List.prefix_iff_getElem?.mp (List.takeWhile_prefix (l := s) p)
  have ht := List.prefix_iff_getElem?.mp (List.takeWhile_prefix (l := t) p)
  apply List.ext_getElem hlength
  intro i hi hi'
  rw [← Option.some_inj, ← hs i hi, ← ht i hi', h i hi']

namespace TokenKind

/-- Is the kind a reserved word that may be spelled in any letter case? -/
def isKeyword (k : TokenKind) : Bool := k == .kwSwitchStr || keywords.contains k

end TokenKind

namespace Lexeme

/-- Does the text start with the word that a dollar sign belongs to? -/
abbrev StartsSwitch (t : Text) : Prop := ofString "switch$" <+: t

theorem startsSwitch_iff : StartsSwitch t ↔ t.takeWhile isIdentByte = ofString "switch" ∧
    (t.drop (t.takeWhile isIdentByte).length).head? = some 0x24 := by
  constructor
  · rintro ⟨more, rfl⟩
    have hword : ∀ x ∈ ofString "switch", isIdentByte x = true := by decide +kernel
    have hwhile : (ofString "switch$" ++ more).takeWhile isIdentByte = ofString "switch" :=
      takeWhile_append_of_stop hword rfl more
    rw [hwhile]
    exact ⟨rfl, rfl⟩
  · rintro ⟨hword, hsign⟩
    obtain ⟨more, hmore⟩ := List.head?_eq_some_iff.mp hsign
    have hsplit := List.prefix_iff_eq_append.mp (List.takeWhile_prefix (l := t) isIdentByte)
    rw [hmore, hword] at hsplit
    exact ⟨more, hsplit⟩

theorem wordKind_eq_iff {k : TokenKind} (hk : k ∈ TokenKind.keywords) (w : Text) :
    wordKind w = k ↔ lower w = k.name := by
  have hjoiners : ∀ j ∈ TokenKind.joiners, j ∉ TokenKind.keywords ∧
      ∀ k ∈ TokenKind.keywords, lower j.name ≠ k.name := by decide +kernel
  have hunique : ∀ k ∈ TokenKind.keywords,
      TokenKind.keywords.find? (·.name == k.name) = some k := by decide
  unfold wordKind
  split
  · rename_i j hj
    obtain ⟨hkeyword, hname⟩ := hjoiners j (List.mem_of_find?_eq_some hj)
    have hw : j.name = w := by simpa using List.find?_some hj
    rw [← hw]
    refine iff_of_false ?_ (hname k hk)
    rintro rfl
    exact hkeyword hk
  · constructor
    · intro h
      cases hfind : TokenKind.keywords.find? (·.name == lower w) with
      | none =>
        rw [hfind] at h
        cases h
        exact absurd hk (by decide)
      | some k' =>
        rw [hfind] at h
        cases h
        have hname := List.find?_some hfind
        exact (beq_iff_eq.mp hname).symm
    · intro h
      rw [h, hunique k hk]
      rfl

theorem scan_switch (hb : isIdentStart b = true) (h : StartsSwitch (b :: t)) :
    scan b t = ⟨.kwSwitchStr, "switch$", 6⟩ := by
  obtain ⟨hword, hsign⟩ := startsSwitch_iff.mp h
  rw [hword] at hsign
  rw [scan_start hb hword, hsign]
  rfl

theorem scan_word (hb : isIdentStart b = true) (h : ¬ StartsSwitch (b :: t)) :
    scan b t = ⟨wordKind ((b :: t).takeWhile isIdentByte), (b :: t).takeWhile isIdentByte,
      ((b :: t).takeWhile isIdentByte).length - 1⟩ := by
  rw [startsSwitch_iff] at h
  rw [scan_start hb rfl, if_neg]
  simpa using h

theorem wordKind_ne {k : TokenKind} (hk : k ∉ .ident :: (TokenKind.joiners ++ TokenKind.keywords))
    (w : Text) : wordKind w ≠ k := by
  rintro rfl
  exact hk (wordKind_mem w)

theorem kind_switchStr_iff (hb : isIdentStart b = true) :
    (scan b t).kind = .kwSwitchStr ↔ StartsSwitch (b :: t) := by
  constructor
  · intro hkind
    by_contra h
    rw [scan_word hb h] at hkind
    exact wordKind_ne (by decide) _ hkind
  · intro h
    rw [scan_switch hb h]

theorem lower_takeWhile (t : Text) :
    lower (t.takeWhile isIdentByte) = (lowerAscii t).takeWhile isIdentByte := by
  rw [takeWhile_lowerAscii caseless_isIdentByte]
  refine lower_eq_lowerAscii ?_
  intro x hx
  exact ascii_of_isIdentByte (List.mem_takeWhile_imp hx)

theorem isIdentStart_congr (h : lowerByte b' = lowerByte b) : isIdentStart b' = isIdentStart b := by
  rw [← caseless_isIdentStart b', h, caseless_isIdentStart]

/-- The case of a reserved word's letters decides no more than whether a sign belongs to it. -/
theorem kind_keyword_iff (hb : isIdentStart b = true)
    (hlower : lowerAscii (b' :: t') = lowerAscii (b :: t))
    (hkeyword : (scan b t).kind.isKeyword = true) :
    (scan b' t').kind = (scan b t).kind ↔
      ((scan b t).kind = .kwSwitch ∨ (scan b t).kind = .kwSwitchStr →
        (StartsSwitch (b' :: t') ↔ StartsSwitch (b :: t))) := by
  have hb' : isIdentStart b' = true := (isIdentStart_congr (List.cons.inj hlower).1).trans hb
  have hword : lower ((b' :: t').takeWhile isIdentByte) = lower ((b :: t).takeWhile isIdentByte) := by
    rw [lower_takeWhile, lower_takeWhile, hlower]
  by_cases h : StartsSwitch (b :: t)
  · rw [(kind_switchStr_iff hb).mpr h, kind_switchStr_iff hb']
    simp [h]
  have hkind : (scan b t).kind = wordKind ((b :: t).takeWhile isIdentByte) := by
    rw [scan_word hb h]
  have hmem : wordKind ((b :: t).takeWhile isIdentByte) ∈ TokenKind.keywords := by
    have hne := wordKind_ne (k := .kwSwitchStr) (by decide) ((b :: t).takeWhile isIdentByte)
    simpa [hkind, TokenKind.isKeyword, hne] using hkeyword
  by_cases h' : StartsSwitch (b' :: t')
  · obtain ⟨hswitch, -⟩ := startsSwitch_iff.mp h'
    have hname : lower ((b :: t).takeWhile isIdentByte) = TokenKind.kwSwitch.name := by
      rw [← hword, hswitch]
      decide +kernel
    have hkwSwitch := (wordKind_eq_iff (k := .kwSwitch) (by decide) _).mpr hname
    rw [(kind_switchStr_iff hb').mpr h', hkind, hkwSwitch]
    simp [h, h']
  · have hkind' : (scan b' t').kind = wordKind ((b' :: t').takeWhile isIdentByte) := by
      rw [scan_word hb' h']
    refine iff_of_true ?_ fun _ => iff_of_false h' h
    rw [hkind', hkind, wordKind_eq_iff hmem, hword]
    exact (wordKind_eq_iff hmem _).mp rfl

/-- The kind of a lexeme whose letters, unless they spell a reserved word, are left as they are. -/
theorem kind_recased_iff (hlower : lowerAscii (b' :: t') = lowerAscii (b :: t))
    (hkept : isIdentStart b = true → (scan b t).kind.isKeyword = false →
      (b' :: t').takeWhile isIdentByte = (b :: t).takeWhile isIdentByte) :
    (scan b' t').kind = (scan b t).kind ↔
      ((scan b t).kind = .kwSwitch ∨ (scan b t).kind = .kwSwitchStr →
        (StartsSwitch (b' :: t') ↔ StartsSwitch (b :: t))) := by
  obtain ⟨hbyte, htext⟩ : lowerByte b' = lowerByte b ∧ lowerAscii t' = lowerAscii t :=
    List.cons.inj hlower
  cases hb : isIdentStart b with
  | false =>
    have hb' := (isIdentStart_congr hbyte).trans hb
    have hne {b : UInt8} {t : Text} (hb : isIdentStart b = false) : ¬ StartsSwitch (b :: t) := by
      rintro ⟨more, hmore⟩
      cases (List.cons.inj hmore).1
      cases hb
    rw [lowerByte_eq_self hb, lowerByte_eq_self hb'] at hbyte
    refine iff_of_true ?_ fun _ => iff_of_false (hne hb') (hne hb)
    rw [hbyte, ← (scan_lower hb t').1, ← (scan_lower hb t).1, htext]
  | true =>
    cases hkeyword : (scan b t).kind.isKeyword with
    | true => exact kind_keyword_iff hb hlower hkeyword
    | false =>
      have hb' := (isIdentStart_congr hbyte).trans hb
      have hword := hkept hb hkeyword
      have hplain : (b :: t).takeWhile isIdentByte ≠ ofString "switch" := by
        intro hswitch
        by_cases h : StartsSwitch (b :: t)
        · rw [scan_switch hb h] at hkeyword
          exact absurd hkeyword (by decide)
        · rw [scan_word hb h, hswitch] at hkeyword
          exact absurd hkeyword (by decide +kernel)
      have h : ¬ StartsSwitch (b :: t) := fun h => hplain (startsSwitch_iff.mp h).1
      have h' : ¬ StartsSwitch (b' :: t') := fun h => hplain (hword ▸ (startsSwitch_iff.mp h).1)
      refine iff_of_true ?_ fun _ => iff_of_false h' h
      rw [scan_word hb h, scan_word hb' h', hword]

theorem tail_eq_of_kind_eq (hlower : lowerAscii (b' :: t') = lowerAscii (b :: t))
    (hkind : (scan b' t').kind = (scan b t).kind) : (scan b' t').tail = (scan b t).tail := by
  obtain ⟨hbyte, htext⟩ : lowerByte b' = lowerByte b ∧ lowerAscii t' = lowerAscii t :=
    List.cons.inj hlower
  cases hb : isIdentStart b with
  | false =>
    have hb' := (isIdentStart_congr hbyte).trans hb
    rw [lowerByte_eq_self hb, lowerByte_eq_self hb'] at hbyte
    rw [hbyte, ← (scan_lower hb t').2, ← (scan_lower hb t).2, htext]
  | true =>
    have hb' := (isIdentStart_congr hbyte).trans hb
    have hlength : ((b' :: t').takeWhile isIdentByte).length =
        ((b :: t).takeWhile isIdentByte).length := by
      rw [← length_takeWhile_lowerAscii caseless_isIdentByte, hlower,
        length_takeWhile_lowerAscii caseless_isIdentByte]
    by_cases h : StartsSwitch (b :: t)
    · have h' : StartsSwitch (b' :: t') := by
        rwa [← kind_switchStr_iff hb', hkind, kind_switchStr_iff hb]
      rw [scan_switch hb h, scan_switch hb' h']
    · have h' : ¬ StartsSwitch (b' :: t') := by
        rwa [← kind_switchStr_iff hb', hkind, kind_switchStr_iff hb]
      rw [scan_word hb h, scan_word hb' h', hlength]

end Lexeme

/-! ## Places in a source -/

variable {source other : Text} {c c' : Cursor}

namespace Cursor

def In (source : Text) (c : Cursor) : Prop := ∃ before, source = before ++ c.rest ∧ c.Behind before

theorem in_start (source : Text) : (start source).In source := ⟨[], rfl, behind_start source⟩

theorem In.drop_offset (h : c.In source) : source.drop c.pos.offset = c.rest := by
  obtain ⟨before, rfl, hbehind⟩ := h
  rw [hbehind.offset, List.drop_left]

theorem In.skip (h : c.In source) (n : Nat) :
    (c.skip n).In source ∧ c.pos.offset ≤ (c.skip n).pos.offset := by
  obtain ⟨before, hsource, hbehind⟩ := h
  obtain ⟨s, hs, hnext⟩ := hbehind.skip n
  refine ⟨⟨before ++ s, by rw [hsource, hs, List.append_assoc], hnext⟩, ?_⟩
  rw [hbehind.offset, hnext.offset, List.length_append]
  exact Nat.le_add_right _ _

theorem In.offset_skip_lexeme (h : c.In source) (hrest : c.rest = b :: t)
    (hkind : (Lexeme.scan b t).kind ≠ .error) :
    (c.skip ((Lexeme.scan b t).tail + 1)).pos.offset =
      c.pos.offset + ((Lexeme.scan b t).tail + 1) := by
  obtain ⟨pos, rest⟩ := c
  obtain ⟨before, hsource, hbehind⟩ := h
  obtain ⟨tail, more, rfl, hlength, -, hascii⟩ := Lexeme.scan_stands hkind
  cases hrest
  obtain ⟨pos', hskip, hnext⟩ := Behind.skip_append (s := b :: tail) hbehind (.inr hascii)
  rw [hlength, ← List.length_cons (a := b), ← List.cons_append, hskip, hnext.offset, hbehind.offset,
    List.length_append]

theorem In.offset_le (h : c.In source) : ∀ t ∈ c.tokens, c.pos.offset ≤ t.pos.offset := by
  fun_induction tokens c with
  | case1 c =>
    intro t ht
    cases List.mem_singleton.mp ht
    exact (h.skip _).2
  | case2 c =>
    intro t ht
    cases List.mem_singleton.mp ht
    exact (h.skip _).2
  | case3 c b rest hrest hzero lexeme ih =>
    obtain ⟨hblanks, hle⟩ := h.skip (Lexeme.blankLength c.rest)
    obtain ⟨hnext, hle'⟩ := hblanks.skip (lexeme.tail + 1)
    rw [List.forall_mem_cons]
    refine ⟨hle, ?_⟩
    intro t ht
    exact (hle.trans hle').trans (ih hnext t ht)

theorem tokens_ended (h : Ended c.skipBlanks.rest) : c.tokens = [⟨.eof, [], c.skipBlanks.pos⟩] := by
  rw [tokens]
  split
  · rfl
  · rename_i b t hrest
    rw [hrest] at h
    rw [if_pos (beq_iff_eq.mpr (h b rfl))]

theorem tokens_lexeme (hrest : c.skipBlanks.rest = b :: t) (hb : ¬ (b == 0) = true) :
    c.tokens = ⟨(Lexeme.scan b t).kind, (Lexeme.scan b t).literal, c.skipBlanks.pos⟩ ::
      (c.skipBlanks.skip ((Lexeme.scan b t).tail + 1)).tokens := by
  rw [tokens]
  split
  · rename_i hnil
    rw [hrest] at hnil
    cases hnil
  · rename_i hcons
    cases hrest.symm.trans hcons
    rw [if_neg hb]

/-- Cursors at one place of a source in two spellings. -/
structure Twin (source other : Text) (c c' : Cursor) : Prop where
  source : c.In source
  other : c'.In other
  lower : c'.lower = c.lower

namespace Twin

theorem pos_eq (h : Twin source other c c') : c'.pos = c.pos := (Cursor.mk.inj h.lower).1

theorem lower_rest (h : Twin source other c c') : lowerAscii c'.rest = lowerAscii c.rest :=
  (Cursor.mk.inj h.lower).2

theorem skip (h : Twin source other c c') (n : Nat) : Twin source other (c.skip n) (c'.skip n) := by
  refine ⟨(h.source.skip n).1, (h.other.skip n).1, ?_⟩
  rw [← skip_lower, h.lower, skip_lower]

theorem skipBlanks (h : Twin source other c c') :
    Twin source other c.skipBlanks c'.skipBlanks := by
  have hlength : Lexeme.blankLength c'.rest = Lexeme.blankLength c.rest := by
    rw [← Lexeme.blankLength_lower, h.lower_rest, Lexeme.blankLength_lower]
  rw [Cursor.skipBlanks, Cursor.skipBlanks, hlength]
  exact h.skip _

theorem ended (h : Twin source other c c') (hc : Ended c.rest) : Ended c'.rest := by
  obtain ⟨pos, t⟩ := c
  obtain ⟨pos', t'⟩ := c'
  cases t' with
  | nil => simp [Ended]
  | cons b' t' =>
    cases t with
    | nil => cases h.lower_rest
    | cons b t =>
      have hb : lowerByte b' = lowerByte b := (List.cons.inj h.lower_rest).1
      rw [hc b rfl] at hb
      simpa [Ended] using (lowerByte_eq_iff (x := 0) rfl b').mp hb

end Twin

end Cursor

/-! ## Tokens of two spellings -/

namespace Token

/-- What stays of a token without its spelling. -/
def shape (t : Token) : TokenKind × Position := (t.kind, t.pos)

/-- Does the byte at the offset belong to a reserved word? -/
def InKeyword (ts : List Token) (i : Nat) : Prop :=
  ∃ t ∈ ts, t.kind.isKeyword = true ∧ t.pos.offset ≤ i ∧ i < t.pos.offset + t.literal.length

instance (ts : List Token) : DecidablePred (InKeyword ts) := fun _ => List.decidableBEx _ _

/-- Is the other text the source with letters of reserved words in another case? -/
structure Recased (source other : Text) : Prop where
  letters : lowerAscii other = lowerAscii source
  elsewhere : ∀ i < source.length, other[i]? ≠ source[i]? → InKeyword (all source) i

instance (source other : Text) : Decidable (Recased source other) :=
  decidable_of_iff (_ ∧ _) ⟨fun h => ⟨h.1, h.2⟩, fun h => ⟨h.letters, h.elsewhere⟩⟩

/-- Does `switch$` stand in both texts or in neither, where the token is one of the words that
start so? -/
def KeepsSwitch (source other : Text) (t : Token) : Prop :=
  t.kind = .kwSwitch ∨ t.kind = .kwSwitchStr →
    (Lexeme.StartsSwitch (other.drop t.pos.offset) ↔ Lexeme.StartsSwitch (source.drop t.pos.offset))

instance (source other : Text) : DecidablePred (KeepsSwitch source other) :=
  fun t => inferInstanceAs (Decidable (t.kind = .kwSwitch ∨ t.kind = .kwSwitchStr → _))

theorem literal_length_of_keyword (h : (Lexeme.scan b t).kind.isKeyword = true) :
    (Lexeme.scan b t).literal.length = (Lexeme.scan b t).tail + 1 := by
  have herror : (Lexeme.scan b t).kind ≠ .error := by
    intro hkind
    rw [hkind] at h
    cases h
  obtain ⟨tail, more, -, hlength, hcovers, -⟩ := Lexeme.scan_stands herror
  generalize (Lexeme.scan b t).kind = kind at h hcovers
  generalize hliteral : (Lexeme.scan b t).literal = literal at hcovers
  rw [hlength]
  cases hcovers with
  | spelled => rfl
  | string => cases h
  | tagString => cases h

/-- Do the texts differ, from the offset on, in reserved words among the tokens only? -/
def Kept (source other : Text) (offset : Nat) (ts : List Token) : Prop :=
  ∀ i, offset ≤ i → other[i]? ≠ source[i]? → InKeyword ts i

theorem Kept.mono {m n : Nat} {ts : List Token} (h : Kept source other m ts) (hle : m ≤ n) :
    Kept source other n ts :=
  fun i hi => h i (hle.trans hi)

variable {literal : Text} {k : TokenKind}

/-- A token that is no reserved word is spelled alike in both texts. -/
theorem getElem?_of_kept (htwin : Cursor.Twin source other c c') (hrest : c.rest = b :: t)
    (hkept : Kept source other c.pos.offset (⟨(Lexeme.scan b t).kind, literal, c.pos⟩ ::
      (c.skip ((Lexeme.scan b t).tail + 1)).tokens))
    (hkeyword : (Lexeme.scan b t).kind.isKeyword = false)
    (herror : (Lexeme.scan b t).kind ≠ .error) {i : Nat} (hi : i < (Lexeme.scan b t).tail + 1) :
    c'.rest[i]? = c.rest[i]? := by
  rw [← htwin.source.drop_offset, ← htwin.other.drop_offset, htwin.pos_eq, List.getElem?_drop,
    List.getElem?_drop]
  by_contra hne
  obtain ⟨u, hu, hword, hle, hlt⟩ := hkept _ (Nat.le_add_right _ _) hne
  obtain rfl | hu := List.mem_cons.mp hu
  · exact absurd (hkeyword.symm.trans hword) (by decide)
  · have hnext := (htwin.source.skip ((Lexeme.scan b t).tail + 1)).1.offset_le u hu
    rw [htwin.source.offset_skip_lexeme hrest herror] at hnext
    omega

theorem word_of_kept (htwin : Cursor.Twin source other c c') (hrest : c.rest = b :: t)
    (hkept : Kept source other c.pos.offset (⟨(Lexeme.scan b t).kind, literal, c.pos⟩ ::
      (c.skip ((Lexeme.scan b t).tail + 1)).tokens))
    (hb : isIdentStart b = true) (hkeyword : (Lexeme.scan b t).kind.isKeyword = false) :
    c'.rest.takeWhile isIdentByte = c.rest.takeWhile isIdentByte := by
  have hplain : ¬ Lexeme.StartsSwitch (b :: t) := by
    rw [← Lexeme.kind_switchStr_iff hb]
    intro hkind
    rw [hkind] at hkeyword
    cases hkeyword
  have hscan := Lexeme.scan_word hb hplain
  have herror : (Lexeme.scan b t).kind ≠ .error := by
    rw [hscan]
    exact Lexeme.wordKind_ne (by decide) _
  have hlength : (c'.rest.takeWhile isIdentByte).length = (c.rest.takeWhile isIdentByte).length := by
    rw [← length_takeWhile_lowerAscii caseless_isIdentByte, htwin.lower_rest,
      length_takeWhile_lowerAscii caseless_isIdentByte]
  refine takeWhile_eq_of_getElem? hlength fun i hi => ?_
  apply getElem?_of_kept htwin hrest hkept hkeyword herror
  rw [hrest] at hi
  rw [hscan]
  exact hi.trans_le (Nat.sub_le_iff_le_add.mp (Nat.le_refl _))

theorem head?_upToError_cons (t : Token) (ts : List Token) :
    (upToError (t :: ts)).head? = some t := by
  rw [upToError]
  split <;> rfl

theorem map_shape_cons_iff {t t' : Token} (h : t'.shape = t.shape) (ts ts' : List Token) :
    (t' :: ts').map shape = (t :: ts).map shape ↔ ts'.map shape = ts.map shape := by
  rw [List.map_cons, List.map_cons, h, List.cons_inj_right]

theorem tokens_step (htwin : Cursor.Twin source other c c')
    (hkept : Kept source other c.pos.offset c.tokens) (hrest : c.skipBlanks.rest = b :: t)
    (hzero : ¬ (b == 0) = true) : ∃ l : Lexeme,
    c'.tokens = ⟨l.kind, l.literal, c.skipBlanks.pos⟩ :: (c'.skipBlanks.skip (l.tail + 1)).tokens ∧
      (l.kind = (Lexeme.scan b t).kind → l.tail = (Lexeme.scan b t).tail) ∧
      (l.kind = (Lexeme.scan b t).kind ↔ KeepsSwitch source other
        ⟨(Lexeme.scan b t).kind, (Lexeme.scan b t).literal, c.skipBlanks.pos⟩) := by
  have hblanks := htwin.skipBlanks
  have hlower := hblanks.lower_rest
  rw [hrest] at hlower
  obtain ⟨b', t', hrest', hbyte, -⟩ := List.map_eq_cons_iff.mp hlower
  have hzero' : ¬ (b' == 0) = true := by
    rwa [← lowerByte_beq rfl, hbyte, lowerByte_beq rfl]
  rw [Cursor.tokens_lexeme hrest hzero] at hkept
  have hword := word_of_kept hblanks hrest (hkept.mono (htwin.source.skip _).2)
  rw [hrest, hrest'] at hword
  rw [hrest'] at hlower
  refine ⟨Lexeme.scan b' t', ?_, Lexeme.tail_eq_of_kind_eq hlower, ?_⟩
  · rw [Cursor.tokens_lexeme hrest' hzero', hblanks.pos_eq]
  · rw [Lexeme.kind_recased_iff hlower hword, ← hrest, ← hrest', ← hblanks.source.drop_offset,
      ← hblanks.other.drop_offset, hblanks.pos_eq]
    rfl

/-- Behind a token the texts differ in the reserved words that follow it. -/
theorem Kept.behind (h : c.In source) (hrest : c.rest = b :: t)
    (herror : (Lexeme.scan b t).kind ≠ .error) {ts : List Token}
    (hkept : Kept source other c.pos.offset
      (⟨(Lexeme.scan b t).kind, (Lexeme.scan b t).literal, c.pos⟩ :: ts)) :
    Kept source other (c.skip ((Lexeme.scan b t).tail + 1)).pos.offset ts := by
  intro i hi hne
  obtain ⟨u, hu, hkeyword, hle, hlt⟩ := hkept i ((h.skip _).2.trans hi) hne
  obtain rfl | hu := List.mem_cons.mp hu
  · have hlength := literal_length_of_keyword hkeyword
    rw [h.offset_skip_lexeme hrest herror, ← hlength] at hi
    exact absurd hi hlt.not_ge
  · exact ⟨u, hu, hkeyword, hle, hlt⟩

theorem map_shape_tokens_iff (htwin : Cursor.Twin source other c c')
    (hkept : Kept source other c.pos.offset c.tokens) :
    (upToError c'.tokens).map shape = (upToError c.tokens).map shape ↔
      ∀ t ∈ upToError c.tokens, KeepsSwitch source other t := by
  fun_induction Cursor.tokens c generalizing c' with
  | case1 c hempty =>
    have hblanks := htwin.skipBlanks
    rw [Cursor.tokens_ended (hblanks.ended (by simp [hempty, Ended])), hblanks.pos_eq]
    simp [upToError, KeepsSwitch]
  | case2 c b rest hrest hzero =>
    have hblanks := htwin.skipBlanks
    rw [Cursor.tokens_ended (hblanks.ended (by simpa [hrest, Ended] using hzero)), hblanks.pos_eq]
    simp [upToError, KeepsSwitch]
  | case3 c b t hrest hzero =>
    rename_i lexeme ih
    have hstep := tokens_step htwin (by rwa [Cursor.tokens_lexeme hrest hzero]) hrest hzero
    obtain ⟨l, htokens, htail, hiff⟩ := hstep
    rw [htokens]
    by_cases hkind : l.kind = lexeme.kind
    · -- A token of one kind in both texts is as long in both, so the cursors stay together.
      have hhead := hiff.mp hkind
      rw [upToError, upToError, hkind, htail hkind]
      split
      · refine iff_of_true rfl ?_
        intro u hu
        cases List.mem_singleton.mp hu
        exact hhead
      · rename_i herror
        have hblanks := htwin.skipBlanks
        rw [map_shape_cons_iff (by rfl), List.forall_mem_cons, and_iff_right hhead]
        refine ih (hblanks.skip _) ?_
        exact Kept.behind hblanks.source hrest (by simpa using herror)
          (hkept.mono (htwin.source.skip _).2)
    · -- The lists differ in their first tokens already.
      refine iff_of_false ?_ ?_
      · intro hshapes
        have hhead := congrArg List.head? hshapes
        rw [List.head?_map, List.head?_map, head?_upToError_cons, head?_upToError_cons] at hhead
        exact hkind (congrArg Prod.fst (Option.some.inj hhead))
      · intro hall
        exact hkind (hiff.mpr (hall _ (List.mem_of_mem_head? (head?_upToError_cons _ _))))

/-- The letter case of reserved words changes neither kinds nor positions of tokens, but for the
word in front of a dollar sign: `switch$` is one token, and one with a capital in it is two. So the
tokens stay as they are if and only if each `switch$` stays spelled in small letters, and no other
spelling of it becomes that one. -/
theorem tokenize_recased_iff (h : Recased source other) :
    (tokenize other).map shape = (tokenize source).map shape ↔
      ∀ t ∈ tokenize source, KeepsSwitch source other t := by
  have hempty : other.isEmpty = source.isEmpty := by
    simpa [lowerAscii] using congrArg List.isEmpty h.letters
  have hstart : (Cursor.start other).lower = (Cursor.start source).lower := by
    simp only [Cursor.start, Cursor.lower, hempty, h.letters]
  refine map_shape_tokens_iff ⟨Cursor.in_start source, Cursor.in_start other, hstart⟩ ?_
  intro i _ hne
  refine h.elsewhere i ?_ hne
  by_contra hi
  have hlength : other.length = source.length := by
    rw [← length_lowerAscii, h.letters, length_lowerAscii]
  rw [List.getElem?_eq_none (by omega), List.getElem?_eq_none (by omega)] at hne
  exact hne rfl

theorem tokenize_recased_capital :
    (Recased "if(1)switch$" "IF(1)switch$" ∧
      (tokenize "IF(1)switch$").map shape = (tokenize "if(1)switch$").map shape) ∧
    Recased "switch$" "Switch$" ∧
      (tokenize "Switch$").map shape ≠ (tokenize "switch$").map shape := by
  have hsmall : Recased "if(1)switch$" "IF(1)switch$" := by decide +kernel
  have hcapital : Recased "switch$" "Switch$" := by decide +kernel
  refine ⟨⟨hsmall, (tokenize_recased_iff hsmall).mpr (by decide +kernel)⟩, hcapital, ?_⟩
  rw [ne_eq, tokenize_recased_iff hcapital]
  decide +kernel

end Token

end ConsoleScript
