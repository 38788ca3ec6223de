import ConsoleScript.Proofs.Code.Decoding

/-!
# Cutting any code

A stream of words that comes from anywhere is cut into whole instructions, as far as there are any:
cutting stops at a word that is no opcode or at an instruction that runs past the end. What an
instruction needs is a natural number here, while the cutter counts in words of 32 bits. It goes wrong
exactly where the position behind an instruction is no such word. Such an instruction runs past the
end; mostly it declares a function and claims to have that many parameters.
-/

namespace ConsoleScript

theorem Opcode.word_of_ofWord? {w : UInt32} {op : Opcode} (h : ofWord? w = some op) : op.word = w := by
  unfold ofWord? at h
  split at h
  all_goals cases h
  all_goals exact UInt32.toNat_inj.mp (Eq.symm ‹w.toNat = _›)

namespace Instruction

/-- How many operands an instruction needs, if these words stand behind its opcode. -/
def needs (op : Opcode) (behind : List UInt32) : Nat :=
  op.operandCount + if op = .funcDecl then (behind[5]?.getD 0).toNat else 0

/-- Nothing whole stands at the front of the words: they are at their end, or begin with a word that
is no opcode or with an instruction that runs past the end. -/
def Stops : List UInt32 → Prop
  | [] => True
  | w :: behind => ∀ op, Opcode.ofWord? w = some op → behind.length < needs op behind

/-- Words from position `ip` on, cut into instructions and a rest. -/
structure Cut (ip : Nat) (words : List UInt32) (instrs : List Instruction) (rest : List UInt32) :
    Prop where
  /-- The instructions cover what is in front of the rest, -/
  tiles : instrs.flatMap Instruction.words ++ rest = words
  /-- each where its words stand, -/
  places : ∀ before i after, instrs = before ++ i :: after →
    i.ip.toNat = ip + (before.flatMap Instruction.words).length
  /-- and each with the operands it needs, -/
  whole : ∀ i ∈ instrs, i.operands.length = needs i.op i.operands
  /-- and there are no more of them. -/
  stops : Stops rest

/-- Why the cutting ends at a rest that stands at position `ip`. -/
def stopped (ip : Nat) : List UInt32 → Option DecodeError
  | [] => none
  | w :: _ => match Opcode.ofWord? w with
    | none => some (.unknownOpcode (UInt32.ofNat ip) w)
    | some op => some (.truncated (UInt32.ofNat ip) op)

/-- The rest at position `ip` begins with an instruction, and the position behind that is no word of
32 bits. -/
def Overflows (ip : Nat) : List UInt32 → Prop
  | [] => False
  | w :: behind => ∃ op, Opcode.ofWord? w = some op ∧ UInt32.size ≤ ip + 1 + needs op behind

/-- What comes of such a rest behind the instructions in front of it. Either the operands would end
before they start, or what is left of their number after the overflow is taken for it. -/
def Misread (ip : Nat) (instrs : List Instruction) (result : List Instruction × Option DecodeError) :
    List UInt32 → Prop
  | [] => False
  | w :: behind => ∃ op, Opcode.ofWord? w = some op ∧
    if needs op behind < UInt32.size then
      ∃ first last, last < first ∧ result = (instrs, some (.reversed first last))
    else ∃ more err, result = (instrs ++
      ⟨UInt32.ofNat ip, op, behind.take (needs op behind - UInt32.size)⟩ :: more, err)

/-! ## One instruction -/

variable {ip : UInt32} {w : UInt32} {behind : List UInt32} {op : Opcode}

theorem operandWords_eq (op : Opcode) (behind : List UInt32) :
    operandWords op behind = UInt32.ofNat (needs op behind) := by
  by_cases hop : op = .funcDecl
  · subst hop
    cases hparams : behind[5]? with
    | none => simp [operandWords, needs, hparams]
    | some params => simp [operandWords, needs, hparams, UInt32.ofNat_add]
  · simp [operandWords, needs, hop]

/-- Only a declaration needs more operands than the opcode says. -/
theorem needs_le (h : op ≠ .funcDecl) (behind : List UInt32) : needs op behind ≤ 3 := by
  rw [needs, if_neg h]
  cases op <;> first | exact absurd rfl h | decide

/-- The number of operands stands among the operands that always follow. -/
theorem needs_take (op : Opcode) (behind : List UInt32) :
    needs op (behind.take (needs op behind)) = needs op behind := by
  by_cases hop : op = .funcDecl
  · have hfifth : 5 < needs op behind := by
      rw [needs, hop]
      exact Nat.lt_of_lt_of_le (by decide) (Nat.le_add_right 6 _)
    rw [needs, List.getElem?_take_of_lt hfifth]
    rfl
  · rw [needs, needs, if_neg hop, if_neg hop]

theorem toNat_last (ip : UInt32) (n : Nat) :
    (ip + 1 + UInt32.ofNat n).toNat = (ip.toNat + 1 + n) % UInt32.size := by
  rw [UInt32.toNat_add, UInt32.toNat_add, UInt32.toNat_ofNat']
  have hone : (1 : UInt32).toNat = 1 := rfl
  have hsize : UInt32.size = 2 ^ 32 := rfl
  rw [hone, hsize]
  omega

theorem toNat_first (h : ip.toNat + 1 < UInt32.size) : (ip + 1).toNat = ip.toNat + 1 := by
  rw [UInt32.toNat_add]
  exact Nat.mod_eq_of_lt h

theorem decodeFrom_unknown (h : Opcode.ofWord? w = none) :
    decodeFrom ip (w :: behind) = ([], some (.unknownOpcode ip w)) := by
  rw [decodeFrom, h]

theorem decodeFrom_whole (hop : Opcode.ofWord? w = some op)
    (hfit : ip.toNat + 1 + behind.length < UInt32.size) {n : Nat} (hn : n ≤ behind.length)
    (hwords : operandWords op behind = UInt32.ofNat n) :
    decodeFrom ip (w :: behind) =
      (⟨ip, op, behind.take n⟩ :: (decodeFrom (ip + 1 + UInt32.ofNat n) (behind.drop n)).1,
        (decodeFrom (ip + 1 + UInt32.ofNat n) (behind.drop n)).2) := by
  have hlast : (ip + 1 + UInt32.ofNat n).toNat = ip.toNat + 1 + n := by
    rw [toNat_last, Nat.mod_eq_of_lt (by omega)]
  have hfirst : (ip + 1).toNat = ip.toNat + 1 := toNat_first (by omega)
  have hle : ip + 1 ≤ ip + 1 + UInt32.ofNat n := by
    rw [UInt32.le_iff_toNat_le, hlast, hfirst]
    omega
  have hcount : (ip + 1 + UInt32.ofNat n - (ip + 1)).toNat = n := by
    rw [UInt32.toNat_sub_of_le _ _ hle, hlast, hfirst]
    omega
  rw [decodeFrom, hop]
  simp only [hwords]
  rw [if_neg (by omega), if_neg (UInt32.not_lt.mpr hle), hcount]

theorem decodeFrom_truncated (hop : Opcode.ofWord? w = some op)
    (hmore : behind.length < needs op behind) (hfit : ip.toNat + 1 + needs op behind < UInt32.size) :
    decodeFrom ip (w :: behind) = ([], some (.truncated ip op)) := by
  have hlast : (ip + 1 + UInt32.ofNat (needs op behind)).toNat = ip.toNat + 1 + needs op behind := by
    rw [toNat_last, Nat.mod_eq_of_lt hfit]
  rw [decodeFrom, hop]
  simp only [operandWords_eq]
  rw [if_pos (by omega)]

/-- The sum of the position and the number of operands overflows. -/
theorem decodeFrom_reversed (hop : Opcode.ofWord? w = some op)
    (hfit : ip.toNat + 1 + behind.length < UInt32.size)
    (hover : UInt32.size ≤ ip.toNat + 1 + needs op behind) (hneeds : needs op behind < UInt32.size) :
    ip + 1 + UInt32.ofNat (needs op behind) < ip + 1 ∧ decodeFrom ip (w :: behind) =
      ([], some (.reversed (ip + 1) (ip + 1 + UInt32.ofNat (needs op behind)))) := by
  have hsum : (ip.toNat + 1 + needs op behind) % UInt32.size =
      ip.toNat + 1 + needs op behind - UInt32.size := by
    rw [Nat.mod_eq_sub_mod hover, Nat.mod_eq_of_lt (by omega)]
  have hlast := toNat_last ip (needs op behind)
  have hlt : ip + 1 + UInt32.ofNat (needs op behind) < ip + 1 := by
    rw [UInt32.lt_iff_toNat_lt, hlast, hsum, toNat_first (by omega)]
    omega
  refine ⟨hlt, ?_⟩
  rw [decodeFrom, hop]
  simp only [operandWords_eq]
  rw [if_neg (by omega), if_pos hlt]

/-- The number of operands overflows by itself. Fewer are left than a declaration always has. -/
theorem decodeFrom_short (hop : Opcode.ofWord? w = some op)
    (hfit : ip.toNat + 1 + behind.length < UInt32.size) (hneeds : UInt32.size ≤ needs op behind) :
    ∃ more err, decodeFrom ip (w :: behind) =
      (⟨ip, op, behind.take (needs op behind - UInt32.size)⟩ :: more, err) := by
  have hdecl : op = .funcDecl := by
    by_contra hne
    exact absurd (Nat.le_trans hneeds (needs_le hne behind)) (by decide)
  have hlength : 6 ≤ behind.length := by
    by_contra hshort
    rw [needs, List.getElem?_eq_none (by omega), hdecl] at hneeds
    exact absurd hneeds (by decide)
  have hleft : needs op behind - UInt32.size ≤ behind.length := by
    have hparams := (behind[5]?.getD 0).toNat_lt_size
    rw [needs, if_pos hdecl, hdecl]
    simp only [Opcode.operandCount]
    omega
  refine ⟨_, _, decodeFrom_whole hop hfit hleft ?_⟩
  rw [operandWords_eq]
  apply UInt32.toNat_inj.mp
  rw [UInt32.toNat_ofNat', UInt32.toNat_ofNat']
  exact Nat.mod_eq_sub_mod hneeds

/-! ## All instructions -/

theorem Cut.stop {ip : Nat} {rest : List UInt32} (h : Stops rest) : Cut ip rest [] rest where
  tiles := rfl
  places before i after he := absurd he (by simp)
  whole := by simp
  stops := h

theorem Cut.next {instrs : List Instruction} {rest : List UInt32} (hop : Opcode.ofWord? w = some op)
    (hwhole : needs op behind ≤ behind.length)
    (h : Cut (ip.toNat + 1 + needs op behind) (behind.drop (needs op behind)) instrs rest) :
    Cut ip.toNat (w :: behind) (⟨ip, op, behind.take (needs op behind)⟩ :: instrs) rest where
  tiles := by
    rw [List.flatMap_cons, List.append_assoc, h.tiles, Instruction.words, Opcode.word_of_ofWord? hop,
      List.cons_append, List.take_append_drop]
  places before i after he := by
    cases before with
    | nil =>
      cases he
      rfl
    | cons j before =>
      obtain ⟨rfl, rfl⟩ := List.cons.inj he
      rw [h.places before i after rfl, List.flatMap_cons, List.length_append, Instruction.words,
        List.length_cons, List.length_take_of_le hwhole]
      omega
  whole i hi := by
    rcases List.mem_cons.mp hi with rfl | hi
    · rw [List.length_take_of_le hwhole, needs_take]
    · exact h.whole i hi
  stops := h.stops

/-- What cutting gives, if these are the whole instructions and the rest. -/
structure Ends (ip : Nat) (instrs : List Instruction) (rest : List UInt32)
    (result : List Instruction × Option DecodeError) : Prop where
  exact : ¬ Overflows ip rest → result = (instrs, stopped ip rest)
  wrong : Overflows ip rest → Misread ip instrs result rest

theorem Ends.cons {ip : Nat} {instrs : List Instruction} {rest : List UInt32}
    {result : List Instruction × Option DecodeError} (h : Ends ip instrs rest result)
    (i : Instruction) : Ends ip (i :: instrs) rest (i :: result.1, result.2) where
  exact hover := by rw [h.exact hover]
  wrong hover := by
    have hwrong := h.wrong hover
    cases rest with
    | nil => exact hwrong
    | cons w behind =>
      obtain ⟨op, hop, hwrong⟩ := hwrong
      refine ⟨op, hop, ?_⟩
      split
      · rename_i hneeds
        obtain ⟨first, last, hlt, rfl⟩ := (if_pos hneeds).mp hwrong
        exact ⟨first, last, hlt, rfl⟩
      · rename_i hneeds
        obtain ⟨more, err, rfl⟩ := (if_neg hneeds).mp hwrong
        exact ⟨more, err, rfl⟩

theorem ends_stop (hfit : ip.toNat + 1 + behind.length < UInt32.size) (h : Stops (w :: behind)) :
    Ends ip.toNat [] (w :: behind) (decodeFrom ip (w :: behind)) := by
  have hip : UInt32.ofNat ip.toNat = ip := UInt32.ofNat_toNat
  cases hop : Opcode.ofWord? w with
  | none =>
    refine ⟨fun _ => ?_, ?_⟩
    · rw [decodeFrom_unknown hop, stopped, hop, hip]
    · rintro ⟨op, hop', -⟩
      rw [hop] at hop'
      cases hop'
  | some op =>
    refine ⟨fun hover => ?_, ?_⟩
    · rw [stopped, hop, hip]
      refine decodeFrom_truncated hop (h op hop) (Nat.lt_of_not_le fun hle => ?_)
      exact hover ⟨op, hop, hle⟩
    · rintro ⟨op', hop', hover⟩
      cases hop.symm.trans hop'
      refine ⟨op, hop, ?_⟩
      split
      · rename_i hneeds
        obtain ⟨hlt, heq⟩ := decodeFrom_reversed hop hfit hover hneeds
        exact ⟨_, _, hlt, heq⟩
      · rename_i hneeds
        rw [hip]
        exact decodeFrom_short hop hfit (Nat.le_of_not_lt hneeds)

theorem decodeFrom_cut (ip : UInt32) (words : List UInt32)
    (hfit : ip.toNat + words.length < UInt32.size) : ∃ instrs rest, Cut ip.toNat words instrs rest ∧
      Ends (ip.toNat + (instrs.flatMap Instruction.words).length) instrs rest (decodeFrom ip words) := by
  -- Each instruction takes at least one word away.
  induction hlength : words.length using Nat.strongRecOn generalizing ip words with
  | ind length ih =>
    subst hlength
    cases words with
    | nil =>
      refine ⟨[], [], .stop trivial, ⟨fun _ => ?_, fun h => h.elim⟩⟩
      rw [decodeFrom]
      rfl
    | cons w behind =>
      rw [List.length_cons, ← Nat.add_assoc, Nat.add_right_comm] at hfit
      by_cases hstops : Stops (w :: behind)
      · exact ⟨[], w :: behind, .stop hstops, ends_stop hfit hstops⟩
      · rw [Stops] at hstops
        simp only [Classical.not_forall, Nat.not_lt] at hstops
        obtain ⟨op, hop, hwhole⟩ := hstops
        have hlast : (ip + 1 + UInt32.ofNat (needs op behind)).toNat =
            ip.toNat + 1 + needs op behind := by
          rw [toNat_last, Nat.mod_eq_of_lt (by omega)]
        obtain ⟨instrs, rest, hcut, hends⟩ := ih _
          (by rw [List.length_drop, List.length_cons]; omega)
          (ip + 1 + UInt32.ofNat (needs op behind)) (behind.drop (needs op behind))
          (by rw [hlast, List.length_drop]; omega) rfl
        rw [hlast] at hcut hends
        refine ⟨_, rest, hcut.next hop hwhole, ?_⟩
        rw [decodeFrom_whole hop hfit hwhole (operandWords_eq op behind)]
        have hplace : ip.toNat + (List.flatMap Instruction.words
            (⟨ip, op, behind.take (needs op behind)⟩ :: instrs)).length =
              ip.toNat + 1 + needs op behind + (instrs.flatMap Instruction.words).length := by
          rw [List.flatMap_cons, List.length_append, Instruction.words, List.length_cons,
            List.length_take_of_le hwhole]
          omega
        rw [hplace]
        exact hends.cons _

/-- A code stream, which has fewer words than positions have values, is cut into whole instructions up
to its end or up to the first word that begins none. This is what cutting gives, unless the rest
overflows. -/
theorem decode_cut (code : List UInt32) (hsize : code.length < UInt32.size) :
    ∃ instrs rest, Cut 0 code instrs rest ∧
      (¬ Overflows (instrs.flatMap Instruction.words).length rest → decode code =
        (instrs, stopped (instrs.flatMap Instruction.words).length rest)) ∧
      (Overflows (instrs.flatMap Instruction.words).length rest →
        Misread (instrs.flatMap Instruction.words).length instrs (decode code) rest) := by
  obtain ⟨instrs, rest, hcut, hends⟩ := decodeFrom_cut 0 code (by simpa using hsize)
  rw [UInt32.toNat_zero, Nat.zero_add] at hends
  exact ⟨instrs, rest, hcut, hends.exact, hends.wrong⟩

/-- A declaration that claims to have 4294967290 parameters, behind a whole instruction. -/
theorem decode_cut_declaration :
    [0x18, 0, 0, 0, 0, 0, 0, (0xFFFFFFFA : UInt32)].length < UInt32.size ∧
    ∃ instrs rest, Cut 0 [0x18, 0, 0, 0, 0, 0, 0, 0xFFFFFFFA] instrs rest ∧
      (¬ Overflows (instrs.flatMap Instruction.words).length rest →
        decode [0x18, 0, 0, 0, 0, 0, 0, 0xFFFFFFFA] =
          (instrs, stopped (instrs.flatMap Instruction.words).length rest)) ∧
      (Overflows (instrs.flatMap Instruction.words).length rest →
        Misread (instrs.flatMap Instruction.words).length instrs
          (decode [0x18, 0, 0, 0, 0, 0, 0, 0xFFFFFFFA]) rest) :=
  ⟨by decide, decode_cut _ (by decide)⟩

end Instruction
end ConsoleScript
