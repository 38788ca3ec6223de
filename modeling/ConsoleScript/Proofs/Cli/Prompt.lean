import ConsoleScript.Cli.Prompt
import ConsoleScript.Proofs.Code.Layout
import ConsoleScript.Proofs.Source.Balance

/-!
# Complete programs at the prompt

The scan at the prompt leaves quotes, escapes and line comments where the lexer does, and in the
other tokens it counts the brackets that the parser sees. A block comment it takes for code. So a
program without block comments is never held back, and the brackets in such comments decide about
any other one.
-/

namespace ConsoleScript

open Text

variable {b quote : UInt8} {s t : Text}

/-! ## Block comments -/

structure BlockComment where
  text : Text
  behind : Text
  deriving DecidableEq, Repr

def Lexeme.blockComments : Text → List BlockComment
  | [] => []
  | b :: rest =>
    if Text.isAsciiBlank b then blockComments rest
    else if b == 0x2F && rest.head? == some 0x2F then
      blockComments (rest.drop (rest.takeWhile fun b => b != 0x0A && b != 0).length)
    else if b == 0x2F && rest.head? == some 0x2A then
      let n := 1 + blockLength (rest.drop 1)
      ⟨b :: rest.take n, rest.drop n⟩ :: blockComments (rest.drop n)
    else []
  termination_by t => t.length
  decreasing_by all_goals (simp only [List.length_drop, List.length_cons]; omega)

/-- The block comments from a cursor on, up to the end of the source. -/
def Cursor.blockComments (c : Cursor) : List BlockComment :=
  Lexeme.blockComments c.rest ++
    match h : c.skipBlanks.rest with
    | [] => []
    | b :: rest =>
      if b == 0 then []
      else blockComments (c.skipBlanks.skip ((Lexeme.scan b rest).tail + 1))
  termination_by c.rest.length
  decreasing_by
    refine Nat.lt_of_lt_of_le (length_rest_skip_lt _ _ (by simp [h])) ?_
    exact length_rest_skip_le _ _

namespace Cursor

variable {c : Cursor} {rest : Text}

theorem blockComments_nil (h : c.skipBlanks.rest = []) :
    c.blockComments = Lexeme.blockComments c.rest := by
  rw [blockComments]
  split
  · exact List.append_nil _
  · rename_i hcons
    rw [h] at hcons
    cases hcons

theorem blockComments_cons (h : c.skipBlanks.rest = b :: rest) (hb : (b == 0) ≠ true) :
    c.blockComments = Lexeme.blockComments c.rest ++
      (c.skipBlanks.skip ((Lexeme.scan b rest).tail + 1)).blockComments := by
  rw [blockComments]
  split
  · rename_i hnil
    rw [h] at hnil
    cases hnil
  · rename_i hcons
    rw [h] at hcons
    cases hcons
    rw [if_neg hb]

end Cursor

namespace BlockComment

def scanned (c : BlockComment) : Cli.Region × Int := Cli.followBrackets .code 0 c.text

/-- Is nothing left open by the scan of the comment, and does no line comment start behind it? -/
structure Settled (c : BlockComment) : Prop where
  code : c.scanned.1 = .code
  behind : c.behind.head? ≠ some 0x2F

def all (source : Text) : List BlockComment := (Cursor.start source).blockComments

/-- How many more brackets the comments open than they close. -/
def surplus (cs : List BlockComment) : Int := (cs.map (·.scanned.2)).sum

theorem surplus_append (cs ds : List BlockComment) :
    surplus (cs ++ ds) = surplus cs + surplus ds := by
  rw [surplus, List.map_append, List.sum_append]
  rfl

end BlockComment

namespace Cli

variable {r : Region} {d v w : Int}

/-! ## Scanning one text after another -/

/-- At a byte that starts no line comment one byte is looked at. -/
theorem followBrackets_code (h : b = 0x2F → t.head? ≠ some 0x2F) :
    followBrackets .code d (b :: t) =
      if b == 0x22 || b == 0x27 then followBrackets (.quoted b) d t
      else if b == 0x7B || b == 0x28 || b == 0x5B then followBrackets .code (d + 1) t
      else if b == 0x7D || b == 0x29 || b == 0x5D then followBrackets .code (d - 1) t
      else followBrackets .code d t := by
  rw [followBrackets]
  rintro t' rfl rfl
  exact h rfl rfl

/-- Two texts are scanned one after the other, unless a line comment starts between them. -/
theorem followBrackets_append (h : s.getLast? = some 0x2F → t.head? ≠ some 0x2F) :
    followBrackets r d (s ++ t) =
      followBrackets (followBrackets r d s).1 (followBrackets r d s).2 t := by
  have hrest {b : UInt8} {s : Text} (h : (b :: s).getLast? = some 0x2F → t.head? ≠ some 0x2F)
      (hs : s.getLast? = some 0x2F) : t.head? ≠ some 0x2F :=
    h (by rw [List.getLast?_cons, hs]; rfl)
  have hstart {b : UInt8} {s : Text} (h : (b :: s).getLast? = some 0x2F → t.head? ≠ some 0x2F)
      (hs : ∀ s', b = 0x2F → s = 0x2F :: s' → False) : b = 0x2F → (s ++ t).head? ≠ some 0x2F := by
    rintro rfl
    cases s with
    | nil => exact h rfl
    | cons c s =>
      rintro ⟨⟩
      exact hs s rfl rfl
  fun_induction followBrackets r d s with
  | case1 => rfl
  | case2 d b s ih => exact ih (hrest h)
  | case3 q d b s ih => exact ih (hrest h)
  | case4 q d b s ih => exact ih (hrest h)
  | case5 d s ih => exact ih (hrest (hrest h))
  | case6 d b s hs hquote ih =>
    rw [List.cons_append, followBrackets_code (hstart h hs), if_pos hquote, ih (hrest h)]
  | case7 d b s hs hquote hopen ih =>
    rw [List.cons_append, followBrackets_code (hstart h hs), if_neg hquote, if_pos hopen,
      ih (hrest h)]
  | case8 d b s hs hquote hopen hclose ih =>
    rw [List.cons_append, followBrackets_code (hstart h hs), if_neg hquote, if_neg hopen,
      if_pos hclose, ih (hrest h)]
  | case9 d b s hs hquote hopen hclose ih =>
    rw [List.cons_append, followBrackets_code (hstart h hs), if_neg hquote, if_neg hopen,
      if_neg hclose, ih (hrest h)]

/-- How deep a scan starts does not matter. -/
theorem followBrackets_add (v : Int) : followBrackets r (d + v) s =
    ((followBrackets r d s).1, (followBrackets r d s).2 + v) := by
  have hstart {b : UInt8} {s : Text} (hs : ∀ s', b = 0x2F → s = 0x2F :: s' → False) :
      b = 0x2F → s.head? ≠ some 0x2F := by
    intro hb hhead
    obtain ⟨s', hs'⟩ := List.head?_eq_some_iff.mp hhead
    exact hs s' hb hs'
  fun_induction followBrackets r d s with
  | case1 => rfl
  | case2 d b s ih => exact ih
  | case3 q d b s ih => exact ih
  | case4 q d b s ih => exact ih
  | case5 d s ih => exact ih
  | case6 d b s hs hquote ih => rw [followBrackets_code (hstart hs), if_pos hquote, ih]
  | case7 d b s hs hquote hopen ih =>
    rw [followBrackets_code (hstart hs), if_neg hquote, if_pos hopen, Int.add_right_comm, ih]
  | case8 d b s hs hquote hopen hclose ih =>
    rw [followBrackets_code (hstart hs), if_neg hquote, if_neg hopen, if_pos hclose,
      show d + v - 1 = d - 1 + v by omega, ih]
  | case9 d b s hs hquote hopen hclose ih =>
    rw [followBrackets_code (hstart hs), if_neg hquote, if_neg hopen, if_neg hclose, ih]

/-- In front of the other text the scan of code goes over the first one, and `w` brackets deeper. -/
def Passes (w : Int) (s t : Text) : Prop :=
  ∀ d, followBrackets .code d (s ++ t) = followBrackets .code (d + w) t

/-- The scan of code ends outside of quotes, and `w` brackets deeper. -/
def Ends (w : Int) (t : Text) : Prop :=
  ∀ d, ∃ r, (r = .code ∨ r = .comment) ∧ followBrackets .code d t = (r, d + w)

theorem ends_nil : Ends 0 [] := fun d => ⟨.code, .inl rfl, by rw [followBrackets, Int.add_zero]⟩

theorem Passes.ends (hs : Passes w s t) (ht : Ends v t) : Ends (w + v) (s ++ t) := by
  intro d
  obtain ⟨r, hr, hscan⟩ := ht (d + w)
  exact ⟨r, hr, by rw [hs, hscan, Int.add_assoc]⟩

theorem passes_of_alone (hcode : (followBrackets .code 0 s).1 = .code)
    (hjoin : s.getLast? = some 0x2F → t.head? ≠ some 0x2F) :
    Passes (followBrackets .code 0 s).2 s t := by
  intro d
  have hscan := followBrackets_add (r := .code) (d := 0) (s := s) d
  rw [Int.zero_add] at hscan
  rw [followBrackets_append hjoin, hscan, hcode, Int.add_comm]

/-! ## Tokens -/

theorem isWordByte_ne {x : UInt8} (h : isWordByte x = true) :
    x ∉ [0x22, 0x27, 0x7B, 0x28, 0x5B, 0x7D, 0x29, 0x5D, 0x2F] := by
  have hnot : ∀ y ∈ [0x22, 0x27, 0x7B, 0x28, 0x5B, 0x7D, 0x29, 0x5D, 0x2F],
      isWordByte y = false := by decide +kernel
  intro hx
  rw [hnot x hx] at h
  cases h

theorem passes_byte (hb : b ∉ [0x22, 0x27, 0x7B, 0x28, 0x5B, 0x7D, 0x29, 0x5D, 0x2F]) :
    Passes 0 [b] t := by
  intro d
  simp only [List.mem_cons, List.not_mem_nil, or_false, not_or] at hb
  have hne : b = 0x2F → t.head? ≠ some 0x2F := by simp [hb]
  rw [List.singleton_append, followBrackets_code hne, Int.add_zero]
  simp [hb]

theorem passes_words (h : ∀ x ∈ s, isWordByte x = true) : Passes 0 s t := by
  induction s with
  | nil => exact fun d => by rw [List.nil_append, Int.add_zero]
  | cons b s ih =>
    obtain ⟨hb, hs⟩ := List.forall_mem_cons.mp h
    intro d
    have hbyte := passes_byte (t := s ++ t) (isWordByte_ne hb) d
    rw [Int.add_zero] at hbyte
    exact hbyte.trans (ih hs d)

/-- The scan leaves a quoted text where the lexer does. -/
theorem followBrackets_enclosed (hquote : quote ≠ 0x5C) (h : Enclosed quote s) :
    followBrackets (.quoted quote) d (s ++ quote :: t) = followBrackets .code d t := by
  induction h with
  | nil => simp [followBrackets, hquote]
  | @byte b s hb _ ih =>
    simp only [List.mem_cons, List.not_mem_nil, or_false, not_or] at hb
    simpa [followBrackets, hb] using ih
  | @escape e s _ _ ih => simpa [followBrackets] using ih

theorem passes_quoted (hquote : quote = 0x22 ∨ quote = 0x27) (h : Enclosed quote s) :
    Passes 0 (quote :: (s ++ [quote])) t := by
  have hne : quote ≠ 0x5C ∧ quote ≠ 0x2F := by rcases hquote with rfl | rfl <;> decide
  have hstart : (quote == 0x22 || quote == 0x27) = true := by simpa using hquote
  intro d
  rw [List.cons_append, List.append_assoc, followBrackets_code fun h => absurd h hne.2,
    if_pos hstart, Int.add_zero]
  exact followBrackets_enclosed hne.1 h

theorem passes_operator {k : TokenKind} (hk : k ∈ TokenKind.operators)
    (hslash : k.name = [0x2F] → t.head? ≠ some 0x2F) : Passes k.surplus k.name t := by
  have halone : ∀ k ∈ TokenKind.operators, followBrackets .code 0 k.name = (.code, k.surplus) ∧
      (k.name.getLast? = some 0x2F → k.name = [0x2F]) := by decide
  obtain ⟨hscan, hlast⟩ := halone k hk
  have hpasses : Passes (followBrackets .code 0 k.name).2 k.name t :=
    passes_of_alone (by rw [hscan]) fun h => hslash (hlast h)
  rwa [hscan] at hpasses

end Cli

namespace Lexeme

theorem wordKind_surplus (w : Text) : (wordKind w).surplus = 0 := by
  have hjoiners : ∀ k ∈ TokenKind.joiners, k.surplus = 0 := by decide
  have hkeywords : ∀ k ∈ TokenKind.keywords, k.surplus = 0 := by decide
  unfold wordKind
  split
  · rename_i k hk
    exact hjoiners k (List.mem_of_find?_eq_some hk)
  · cases hk : TokenKind.keywords.find? (·.name == lower w) with
    | none => rfl
    | some k => exact hkeywords k (List.mem_of_find?_eq_some hk)

theorem number_surplus (t : Text) : (number t).1.surplus = 0 := by
  have hdecimal (t : Text) : (number.decimal t).1.surplus = 0 := by
    rw [decimal_eq t rfl rfl rfl]
    dsimp only
    split <;> rfl
  unfold number
  split
  · split
    · rfl
    · exact hdecimal _
  · exact hdecimal _

/-- What is neither quoted nor an error is an operator, or has no brackets in it. -/
theorem scan_spells : (scan b t).kind ∉ [.error, .string, .tagString] →
    ((scan b t).kind ∈ TokenKind.operators ∧ (scan b t).literal = (scan b t).kind.name) ∨
      (scan b t).kind.surplus = 0 ∧ ∀ x ∈ (scan b t).literal, isWordByte x = true := by
  have hquoted (kind : TokenKind) (hkind : kind ∈ [.error, .string, .tagString]) :
      (scan.string b t kind).kind ∈ [.error, .string, .tagString] := by
    unfold scan.string
    split
    · exact hkind
    · exact List.mem_cons_self ..
  have hswitch : ∀ x ∈ ofString "switch$", isWordByte x = true := by decide +kernel
  unfold scan
  dsimp only
  split
  · exact fun h => absurd (hquoted .string (by decide)) h
  · split
    · exact fun h => absurd (hquoted .tagString (by decide)) h
    · split
      · exact fun _ => .inr ⟨number_surplus _, (worded_number _).bytes⟩
      · split
        · rename_i hb
          simp only [Bool.or_eq_true, Bool.and_eq_true, beq_iff_eq] at hb
          have hsigil : isWordByte b = true := by
            rcases hb.1 with rfl | rfl <;> decide
          rw [Nat.add_comm]
          refine fun _ => .inr ⟨?_, (Worded.cons hsigil (worded_variableLength t)).bytes⟩
          split <;> rfl
        · split
          · split
            · exact fun _ => .inr ⟨rfl, hswitch⟩
            · refine fun _ => .inr ⟨wordKind_surplus _, fun x hx => ?_⟩
              exact isWordByte_of_isIdentByte (List.mem_takeWhile_imp hx)
          · split
            · exact fun _ => .inl ⟨List.mem_of_find?_eq_some ‹_›, rfl⟩
            · exact fun h => absurd (List.mem_cons_self ..) h

end Lexeme

namespace Cli

variable {d v w : Int}

theorem passes_scan (hstart : b = 0x2F → t.head? ≠ some 0x2F)
    (herror : (Lexeme.scan b t).kind ≠ .error) : ∃ tail rest, t = tail ++ rest ∧
      (Lexeme.scan b t).tail = tail.length ∧ (∀ x ∈ (b :: tail).getLast?, x < 0x80) ∧
      Passes (Lexeme.scan b t).kind.surplus (b :: tail) rest := by
  obtain ⟨tail, rest, rfl, hlength, hcovers, hascii⟩ := Lexeme.scan_stands herror
  refine ⟨tail, rest, rfl, hlength, hascii, ?_⟩
  have hspells := Lexeme.scan_spells (b := b) (t := tail ++ rest)
  generalize (Lexeme.scan b (tail ++ rest)).kind = kind at *
  generalize (Lexeme.scan b (tail ++ rest)).literal = literal at *
  generalize hlexeme : b :: tail = lexeme at *
  cases hcovers with
  | string henclosed => exact passes_quoted (.inl rfl) henclosed
  | tagString henclosed => exact passes_quoted (.inr rfl) henclosed
  | spelled hkind _ =>
    obtain ⟨hoperator, rfl⟩ | ⟨hzero, hwords⟩ := hspells fun h => hkind (List.mem_cons_of_mem _ h)
    · refine passes_operator hoperator fun hslash => ?_
      rw [hslash] at hlexeme
      cases hlexeme
      exact hstart rfl
    · rw [hzero]
      exact passes_words hwords

/-! ## Blanks and comments -/

/-- No line comment starts behind the blanks and comments. -/
theorem head?_drop_blankLength {rest : Text} (h : t.drop (Lexeme.blankLength t) = b :: rest)
    (hb : b = 0x2F) : rest.head? ≠ some 0x2F := by
  fun_induction Lexeme.blankLength t with
  | case1 => cases h
  | case2 x t hx ih =>
    rw [Nat.add_comm] at h
    exact ih h
  | case3 x t hx hline n ih =>
    rw [Nat.add_assoc, Nat.add_comm, List.drop_succ_cons, ← List.drop_drop] at h
    exact ih h
  | case4 x t hx hline hblock n ih =>
    rw [Nat.add_assoc, Nat.add_comm, List.drop_succ_cons, ← List.drop_drop] at h
    exact ih h
  | case5 x t hx hline hblock =>
    cases h
    simpa [hb] using hline

theorem followBrackets_comment (hs : 0x0A ∉ s) :
    followBrackets .comment d (s ++ t) = followBrackets .comment d t := by
  induction s with
  | nil => rfl
  | cons b s ih =>
    rw [List.mem_cons, not_or] at hs
    rw [List.cons_append, followBrackets, if_neg fun hb => hs.1 (beq_iff_eq.mp hb).symm,
      ih hs.2]

theorem Ends.line {comment : Text} (hcomment : 0x0A ∉ comment)
    (ht : t = [] ∨ t.head? = some 0x0A) (h : Ends w t) :
    Ends w (0x2F :: 0x2F :: (comment ++ t)) := by
  intro d
  rw [followBrackets, followBrackets_comment hcomment]
  obtain rfl | ht := ht
  · obtain ⟨r, -, hscan⟩ := h d
    rw [followBrackets] at hscan
    exact ⟨.comment, .inr rfl, by rw [followBrackets, (Prod.mk.inj hscan).2.symm]⟩
  · obtain ⟨t, rfl⟩ := List.head?_eq_some_iff.mp ht
    have hline := passes_byte (b := 0x0A) (t := t) (by decide) d
    rw [Int.add_zero, List.singleton_append] at hline
    rw [followBrackets, if_pos (beq_self_eq_true _), ← hline]
    exact h d

theorem ends_blanks (hzero : 0 ∉ t) (hsettled : ∀ c ∈ Lexeme.blockComments t, c.Settled)
    (h : Ends w (t.drop (Lexeme.blankLength t))) :
    Ends (BlockComment.surplus (Lexeme.blockComments t) + w) t := by
  fun_induction Lexeme.blockComments t with
  | case1 => simpa [BlockComment.surplus] using h
  | case2 x t hx ih =>
    rw [Lexeme.blankLength, if_pos hx, Nat.add_comm, List.drop_succ_cons] at h
    have hx : x ∉ [0x22, 0x27, 0x7B, 0x28, 0x5B, 0x7D, 0x29, 0x5D, 0x2F] := by
      simp only [isAsciiBlank, Bool.or_eq_true, beq_iff_eq] at hx
      obtain ((rfl | rfl) | rfl) | rfl := hx <;> decide
    have hends := (passes_byte hx).ends (ih (fun h => hzero (List.mem_cons_of_mem _ h)) hsettled h)
    rwa [Int.zero_add] at hends
  | case3 x t hx hline ih =>
    rw [Lexeme.blankLength, if_neg hx, if_pos hline, Nat.add_assoc, Nat.add_comm,
      List.drop_succ_cons, ← List.drop_drop] at h
    have hends := ih (fun h => hzero (List.mem_cons_of_mem _ (List.mem_of_mem_drop h))) hsettled h
    simp only [Bool.and_eq_true, beq_iff_eq] at hline
    obtain ⟨rfl, ht⟩ := hline
    obtain ⟨t, rfl⟩ := List.head?_eq_some_iff.mp ht
    obtain ⟨line, more, rfl, hline, -, hnewline, hmore⟩ := line_spec t
    have hdrop : (0x2F :: (line ++ more)).drop
        ((0x2F :: (line ++ more)).takeWhile fun b => b != 0x0A && b != 0).length = more := by
      rw [List.takeWhile_cons_of_pos (by decide), hline, List.length_cons, List.drop_succ_cons,
        List.drop_left]
    rw [hdrop] at hends ⊢
    refine hends.line hnewline (hmore.imp_left fun hended => ?_)
    cases more with
    | nil => rfl
    | cons y more => exact absurd (hended y rfl) fun hy => hzero (by simp [hy])
  | case4 x t hx hline hblock n ih =>
    rw [Lexeme.blankLength, if_neg hx, if_neg hline, if_pos hblock, Nat.add_assoc, Nat.add_comm,
      List.drop_succ_cons, ← List.drop_drop] at h
    obtain ⟨hfirst, hrest⟩ := List.forall_mem_cons.mp hsettled
    have hends := ih (fun h => hzero (List.mem_cons_of_mem _ (List.mem_of_mem_drop h))) hrest h
    have hpasses : Passes _ (x :: t.take n) (t.drop n) :=
      passes_of_alone hfirst.code fun _ => hfirst.behind
    have hwhole := hpasses.ends hends
    rw [List.cons_append, List.take_append_drop, ← Int.add_assoc] at hwhole
    exact hwhole
  | case5 x t hx hline hblock =>
    rw [Lexeme.blankLength, if_neg hx, if_neg hline, if_neg hblock] at h
    simpa [BlockComment.surplus] using h

/-! ## Whole sources -/

theorem ends_tokens (c : Cursor) (hzero : 0 ∉ c.rest) (herrors : ∀ t ∈ c.tokens, t.kind ≠ .error)
    (hsettled : ∀ x ∈ c.blockComments, x.Settled) :
    Ends (BlockComment.surplus c.blockComments + (c.tokens.map (·.kind.surplus)).sum) c.rest := by
  fun_induction Cursor.tokens c with
  | case1 c hempty =>
    rw [Cursor.blockComments_nil hempty] at hsettled ⊢
    refine ends_blanks hzero hsettled ?_
    rw [← Cursor.rest_skipBlanks, hempty]
    exact ends_nil
  | case2 c b rest hstart hb =>
    have hmem : b ∈ c.rest := List.mem_of_mem_drop (by rw [← Cursor.rest_skipBlanks, hstart]; simp)
    rw [beq_iff_eq.mp hb] at hmem
    exact absurd hmem hzero
  | case3 c b rest hstart hb =>
    rename_i lexeme ih
    obtain ⟨hlexeme, herrors⟩ := List.forall_mem_cons.mp herrors
    rw [Cursor.blockComments_cons hstart hb] at hsettled ⊢
    obtain ⟨hblanks, hsettled⟩ := List.forall_mem_append.mp hsettled
    have hdrop := c.rest_skipBlanks
    rw [hstart] at hdrop
    obtain ⟨tail, more, rfl, hlength, hascii, hpasses⟩ :=
      passes_scan (head?_drop_blankLength hdrop.symm) hlexeme
    -- The lexeme ends in a character of one byte, so the cursor behind it is in front of the rest.
    have hnext : (c.skipBlanks.skip (lexeme.tail + 1)).rest = more := by
      obtain ⟨pos, hskip⟩ := Cursor.skip_append (.inr hascii) c.skipBlanks.pos
      have hcursor : c.skipBlanks = ⟨c.skipBlanks.pos, (b :: tail) ++ more⟩ := by
        rw [List.cons_append, ← hstart]
      rw [hcursor, show lexeme.tail + 1 = (b :: tail).length by rw [List.length_cons, ← hlength],
        hskip]
    have hmore : 0 ∉ more := fun h => hzero (List.mem_of_mem_drop (by rw [← hdrop]; simp [h]))
    rw [hnext] at ih
    have hends := hpasses.ends (ih hmore herrors hsettled)
    rw [List.cons_append, hdrop] at hends
    have hwhole := ends_blanks hzero hblanks hends
    rw [BlockComment.surplus_append, List.map_cons, List.sum_cons, Int.add_assoc,
      Int.add_left_comm (BlockComment.surplus (Cursor.blockComments _))]
    exact hwhole

/-- A program that compiles is held back at the prompt just when its block comments open more
brackets than they close. Of the comments it is supposed that each is scanned as code that leaves no
quote and no line comment open, and that no slash follows, which would be taken for a line comment
together with the slash at the end. Without any block comment the program is complete. -/
theorem incomplete_compiled_iff {source filename : Text} {u : CodeUnit}
    (hcompile : compile source filename = .ok u) (hzero : 0 ∉ source)
    (hsettled : ∀ c ∈ BlockComment.all source, c.Settled) :
    incomplete source = true ↔ 0 < BlockComment.surplus (BlockComment.all source) := by
  obtain ⟨program, hparse, -⟩ := compile_eq_ok hcompile
  obtain ⟨herrors, hbalanced⟩ := parseProgram_balanced (by rw [hparse])
  obtain ⟨r, hr, hscan⟩ := ends_tokens (.start source) hzero herrors hsettled 0
  have htokens : ((Cursor.start source).tokens.map (·.kind.surplus)).sum = 0 := hbalanced
  have hrest : (Cursor.start source).rest = source := rfl
  rw [htokens, hrest, Int.zero_add, Int.add_zero] at hscan
  rw [incomplete, hscan]
  obtain rfl | rfl := hr
  · exact decide_eq_true_iff
  · exact decide_eq_true_iff

theorem incomplete_compiled_bracket : ∃ u, compile "/* ( */ echo(1);" "test.cs" = .ok u ∧
    incomplete "/* ( */ echo(1);" = true := by
  have hparse : (parseProgram "/* ( */ echo(1);").2 = [] := by decide +kernel
  have hcompile := compile_eq "/* ( */ echo(1);" "test.cs"
  rw [if_pos hparse] at hcompile
  have hsettled : ∀ c ∈ BlockComment.all "/* ( */ echo(1);",
      c.scanned.1 = .code ∧ c.behind.head? ≠ some 0x2F := by decide +kernel
  have hsurplus : BlockComment.surplus (BlockComment.all "/* ( */ echo(1);") = 1 := by
    decide +kernel
  refine ⟨_, hcompile, (incomplete_compiled_iff hcompile (by decide) ?_).mpr ?_⟩
  · exact fun c hc => ⟨(hsettled c hc).1, (hsettled c hc).2⟩
  · rw [hsurplus]
    decide

end Cli
end ConsoleScript
