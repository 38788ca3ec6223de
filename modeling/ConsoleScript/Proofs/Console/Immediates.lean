import ConsoleScript.Proofs.Console.Simulation
import ConsoleScript.Proofs.Number.Doubles
import ConsoleScript.Proofs.Source.Wholes

/-!
# Literals that are converted

A literal that is asked for another kind of value than its own is converted while its code is
written; any other value is converted by an instruction. The code of an integer has 32 bits for it
and that of a number has all of them, and a text is read as a number whatever its length. An
instruction makes integers of 64 bits and takes a long text for zero. So the two ways lead to the
same value unless the integer is too wide or the text too long.
-/

namespace ConsoleScript

namespace Number

/-- Does the word of an immediate operand restore the integer? -/
def fitsWord (i : Int64) : Bool := -2147483648 ≤ i.toInt && i.toInt < 2147483648

theorem signExtend_lowWord_eq (i : Int64) : signExtend (lowWord i) = i ↔ fitsWord i = true := by
  rw [signExtend_lowWord_eq_iff, fitsWord, Bool.and_eq_true, decide_eq_true_eq, decide_eq_true_eq]

theorem signExtend_eq_zero_iff (w : UInt32) : signExtend w = 0 ↔ w = 0 := by
  refine ⟨fun h => ?_, fun h => h ▸ rfl⟩
  have hint : w.toInt32.toInt64 = (0 : Int32).toInt64 := h
  have hword : w.toInt32 = 0 := by
    rw [← Int32.toInt_inj, ← Int32.toInt_toInt64, hint, Int32.toInt_toInt64]
  exact congrArg Int32.toUInt32 hword

theorem toBits_eq_zero_iff (f : Float) : f.toBits = 0 ↔ f = 0.0 := by
  have hzero : (0.0 : Float).toBits = 0 := by decide
  refine ⟨fun h => ?_, fun h => h ▸ hzero⟩
  rw [← ofBits_toBits f, h, ← hzero, ofBits_toBits]

theorem toInt64_zero : toInt64 0.0 = 0 := by decide

end Number

namespace Expr

/-! ## Where the two ways agree -/

def isLiteral : Expr → Bool
  | int .. | float .. | str .. | word .. => true
  | _ => false

/-- Is a text literal the same number in its code as while a script runs? -/
def textAgrees (t : Text) : Demand → Bool
  | .int =>
    if t.length < Value.longText then Number.fitsWord (Number.toInt64 (Number.ofText t))
    else Number.lowWord (Number.toInt64 (Number.ofText t)) == 0
  | .float => t.length < Value.longText || (Number.ofText t).toBits == 0
  | .none | .text => true

/-- Is a literal converted in its code as it is converted while a script runs? -/
def agrees : Expr → Demand → Bool
  | int _ v, .float | int _ v, .text => v != 2147483648
  | float _ v, .int => Number.fitsWord (Number.toInt64 v)
  | str _ t _, want | word _ t, want => textAgrees t want
  | _, _ => true

def coded : Expr → (want : Demand) → want.Carrier
  | int _ v, want => literal want (Int64.ofInt v) (intAsFloat v) (Text.ofInt v)
  | float _ v, want => literal want (Number.toInt64 v) v (Number.toText v)
  | str _ v _, want | word _ v, want =>
    literal want (Number.toInt64 (Number.ofText v)) (Number.ofText v) v
  | _, want => want.ofValue default

theorem coded_int_eq_iff {source : Text} {v : Int} (hv : Stands source v) (pos : Position)
    (want : Demand) : (int pos v).coded want = want.ofValue (.int ((int pos v).coded .int)) ↔
      (int pos v).agrees want = true := by
  have hbound : v.natAbs ≤ 0x80000000 := by
    obtain hlt | ⟨heq, -⟩ := hv
    · exact Nat.le_of_lt hlt
    · exact Nat.le_of_eq heq
  by_cases hhigh : v = 2147483648
  · subst hhigh
    cases want with
    | none | int => simp [agrees, coded, literal, Demand.ofValue, Value.toInt]
    | float =>
      refine iff_of_false (fun h => ?_) (by simp [agrees])
      have hbits : (intAsFloat 2147483648).toBits ≠
          (Number.ofInt64 (Number.signExtend (Number.lowWord (Int64.ofInt 2147483648)))).toBits := by
        decide
      simp only [coded, literal, Demand.ofValue, Value.toFloat, Number.ofBits_toBits] at h
      exact hbits (congrArg Float.toBits h)
    | text =>
      have htext : Text.ofInt 2147483648 ≠
          Value.textOfInt (Number.signExtend (Number.lowWord (Int64.ofInt 2147483648))) := by decide
      exact iff_of_false htext (by simp [agrees])
  · have hrestored : Number.signExtend (Number.lowWord (Int64.ofInt v)) = Int64.ofInt v := by
      rw [Number.signExtend_lowWord_eq_iff, Number.toInt_ofInt hbound]
      omega
    refine iff_of_true ?_ (by cases want <;> simp [agrees, hhigh])
    have hint : (int pos v).coded .int = Int64.ofInt v := hrestored
    rw [hint]
    cases want with
    | none => rfl
    | int => exact hrestored
    | float => exact Number.ofBits_toBits _
    | text => exact congrArg Text.ofInt (Number.toInt_ofInt hbound).symm

theorem coded_text_eq_iff (t : Text) (want : Demand) :
    literal want (Number.toInt64 (Number.ofText t)) (Number.ofText t) t = want.ofValue (.text t) ↔
      textAgrees t want = true := by
  cases want with
  | none | text => exact iff_of_true rfl rfl
  | int =>
    simp only [literal, Demand.ofValue, Value.toInt, Value.numberOfText, textAgrees]
    by_cases hlen : t.length < Value.longText
    · rw [if_pos hlen, if_neg (Nat.not_le.mpr hlen), Number.signExtend_lowWord_eq]
    · rw [if_neg hlen, if_pos (Nat.not_lt.mp hlen), Number.toInt64_zero,
        Number.signExtend_eq_zero_iff, beq_iff_eq]
  | float =>
    simp only [literal, Demand.ofValue, Value.toFloat, Value.numberOfText, textAgrees,
      Number.ofBits_toBits]
    by_cases hlen : t.length < Value.longText
    · simp [hlen]
    · simp [hlen, Nat.not_lt.mp hlen, Number.toBits_eq_zero_iff]

/-- A literal has the value in its code that an instruction makes of it, exactly if the two ways are
said to agree. -/
theorem coded_eq_iff {x : Expr} {source : Text} (hlit : x.isLiteral = true)
    (hx : x.Named (Stands source)) (want : Demand) :
    x.coded want = want.ofValue (x.preferred.toValue (x.coded x.preferred)) ↔
      x.agrees want = true := by
  cases x with
  | int pos v => exact coded_int_eq_iff hx pos want
  | float pos v =>
    simp only [preferred, Demand.toValue, coded, literal, Number.ofBits_toBits]
    cases want with
    | int => exact Number.signExtend_lowWord_eq _
    | none | float | text =>
      exact iff_of_true (by simp [Demand.ofValue, Value.toFloat, Value.toText]) rfl
  | str pos t tagged => exact coded_text_eq_iff t want
  | word pos t => exact coded_text_eq_iff t want
  | _ => cases hlit

/-! ## Code -/

open Activation

/-- At a position of the unit stands the code of the expression for one kind of value, with the
conversion of that kind to another one behind it, and the literals of the expression are in the
pools. -/
structure Placed (x : Expr) (source want : Demand) (u : CodeUnit) (l : Literals) (ip : Nat) :
    Prop where
  size : u.code.size < UInt32.size
  code : CodeAt u.code.toList ip (x.emit l ip source ++ Demand.convertWords source want)
  texts : u.texts = l.texts.items
  floats : u.floats = l.floats.items
  count : l.count + 1 < UInt32.size
  literals : (x.collect source {}).Within l

variable {u : CodeUnit} {l : Literals} {ip : Nat} {m : Machine} {x : Expr} {source want : Demand}

theorem Placed.loaded {num : Int → Prop} (h : x.Placed source want u l ip) (hx : x.Named num) :
    Asm.Loaded u l ip (x.asm ip source) ∧
      Asm.Stored u l (ip + x.size source) (Asm.convert source want) := by
  have hcode : Asm.Stored u l ip (x.asm ip source ++ Asm.convert source want) := by
    refine ⟨h.size, ?_⟩
    rw [Asm.encode_append, Asm.encode_convert, ← emit_eq_encode]
    exact h.code
  refine ⟨⟨hcode.left, fun i hi o ho => ?_⟩, hcode.right.cast (by rw [total_asm])⟩
  have hheld := (x.held_of_collect source hx h.literals).2 ip
  exact Operand.denotes_encode (hheld i hi o ho) h.texts h.floats h.count

def alone (x : Expr) (source want : Demand) : CodeUnit where
  name := []
  code := (x.emit (x.collect source {}) 0 source ++ Demand.convertWords source want).toArray
  texts := (x.collect source {}).texts.items
  floats := (x.collect source {}).floats.items
  lines := []
  warnings := []

theorem placed_alone (hs : source ≠ .none) (h : x.size source + 1 < UInt32.size) :
    x.Placed source want (x.alone source want) (x.collect source {}) 0 where
  size := by
    have hconvert : Demand.convertSize source want ≤ 1 := by
      unfold Demand.convertSize
      split <;> omega
    simp only [alone, List.size_toArray, List.length_append, length_emit,
      Demand.length_convertWords _ _ hs]
    omega
  code := List.prefix_rfl
  texts := rfl
  floats := rfl
  count := by
    have hcount := x.count_collect_le source {}
    have hempty : Literals.count {} = 0 := rfl
    omega
  literals := .refl _

theorem next_literal (block : BlockId) (hlit : x.isLiteral = true) (hw : want ≠ .none)
    (hl : Asm.Loaded u l ip (x.asm ip want)) (hm : m.ip = ipWord ip) (c : Console) :
    x.size want = 2 ∧ Next u block (m, c)
      (want.put (x.coded want) { m with ip := ipWord (ip + 2) }, c) := by
  cases want with
  | none => exact absurd rfl hw
  | int =>
    cases x with
    | int | float | str | word => exact ⟨rfl, .loadInt hl.toStored hm c⟩
    | _ => cases hlit
  | float =>
    cases x with
    | int | float | str | word => exact ⟨rfl, .loadFloat hl hm c⟩
    | _ => cases hlit
  | text =>
    cases x with
    | int | float | str => exact ⟨rfl, .loadText (.inl rfl) (.inl rfl) hl hm c⟩
    | word => exact ⟨rfl, .loadText (.inr rfl) (.inl rfl) hl hm c⟩
    | _ => cases hlit

/-- A conversion is one instruction, or none if there is nothing to convert. -/
theorem takes_convert (block : BlockId) (hs : source ≠ .none) (v : source.Carrier)
    (hl : Asm.Stored u l ip (Asm.convert source want)) (hm : m.ip = ipWord ip) (c : Console) :
    Takes u block (Demand.convertSize source want) (source.put v m, c)
      (want.put (want.ofValue (source.toValue v))
        { m with
          ip := ipWord (ip + Demand.convertSize source want)
          text := (source.put v m).text }, c) := by
  have hput : (source.put v m).ip = ipWord ip := by cases source <;> exact hm
  have hstay : (source.put v m, c) = (source.put v { m with ip := ipWord ip }, c) := by rw [← hm]
  cases source with
  | none => exact absurd rfl hs
  | int =>
    cases want with
    | int => exact hstay
    | none | float | text => exact ⟨_, .of_execute hl hput rfl, rfl⟩
  | float =>
    cases want with
    | float => exact hstay
    | none | int | text => exact ⟨_, .of_execute hl hput rfl, rfl⟩
  | text =>
    cases want with
    | text => exact hstay
    | none | int | float => exact ⟨_, .of_execute hl hput rfl, rfl⟩

theorem Placed.takes {num : Int → Prop} (block : BlockId) (h : x.Placed source want u l ip)
    (hlit : x.isLiteral = true) (hx : x.Named num) (hs : source ≠ .none) (hm : m.ip = ipWord ip)
    (c : Console) :
    ∃ text, Takes u block (1 + Demand.convertSize source want) (m, c)
      (want.put (want.ofValue (source.toValue (x.coded source)))
        { m with ip := ipWord (ip + 2 + Demand.convertSize source want), text := text }, c) := by
  obtain ⟨hcode, hconvert⟩ := h.loaded hx
  obtain ⟨hsize, hnext⟩ := next_literal block hlit hs hcode hm c
  rw [hsize] at hconvert
  have hliteral : Takes u block 1 (m, c)
      (source.put (x.coded source) { m with ip := ipWord (ip + 2) }, c) := ⟨_, hnext, rfl⟩
  exact ⟨_, hliteral.trans (takes_convert block hs _ hconvert rfl c)⟩

/-- Wherever in a unit the code of a literal for a kind of value stands, and wherever its code for its
own kind stands with a conversion behind it: a machine that goes through the one and a machine that
goes through the other have values of that kind in the end. They are the same exactly if the word of
the integer restores it, no sign is in front of the highest bit, and a text that reads as another
number than zero is not a long one. -/
theorem literal_conversions {x : Expr} {source : Text} (hlit : x.isLiteral = true)
    (hx : x.Named (Stands source)) {want : Demand} (hw : want ≠ .none) {u u' : CodeUnit}
    {l l' : Literals} {ip ip' : Nat} (block block' : BlockId) {m m' : Machine} (c c' : Console)
    (hcoded : x.Placed want want u l ip) (hm : m.ip = ipWord ip)
    (hconverted : x.Placed x.preferred want u' l' ip') (hm' : m'.ip = ipWord ip') :
    ∃ (a b : want.Carrier) (text : Text),
      Takes u block 1 (m, c) (want.put a { m with ip := ipWord (ip + 2) }, c) ∧
      Takes u' block' (1 + Demand.convertSize x.preferred want) (m', c')
        (want.put b { m' with
          ip := ipWord (ip' + 2 + Demand.convertSize x.preferred want)
          text := text }, c') ∧
      (a = b ↔ x.agrees want = true) := by
  have hpreferred : x.preferred ≠ .none := by
    cases x with
    | int | float | str | word => exact Demand.noConfusion
    | _ => cases hlit
  obtain ⟨-, hnext⟩ := next_literal block hlit hw (hcoded.loaded hx).1 hm c
  obtain ⟨text, htakes⟩ := hconverted.takes block' hlit hx hpreferred hm' c'
  exact ⟨_, _, text, ⟨_, hnext, rfl⟩, htakes, coded_eq_iff hlit hx want⟩

/-- Three thousand millions are two integers: the one that code has for the literal, and the one that
an instruction makes of the number. -/
theorem literal_conversions_wide :
    let x : Expr := .float ⟨0, 1, 1⟩ 3000000000
    let m : Machine := { ip := ipWord 0, scope := .globals }
    let c := Console.create 0 0
    ∃ (a b : Int64) (text : Text),
      Takes (x.alone .int .int) 0 1 (m, c) (Demand.int.put a { m with ip := ipWord 2 }, c) ∧
      Takes (x.alone .float .int) 0 2 (m, c)
        (Demand.int.put b { m with ip := ipWord 3, text := text }, c) ∧
      a ≠ b := by
  intro x m c
  have hcoded : x.Placed .int .int (x.alone .int .int) (x.collect .int {}) 0 :=
    placed_alone (by decide) (by decide)
  have hconverted : x.Placed .float .int (x.alone .float .int) (x.collect .float {}) 0 :=
    placed_alone (by decide) (by decide)
  have hnamed : x.Named (Stands []) := trivial
  obtain ⟨a, b, text, ha, hb, hagrees⟩ := literal_conversions (show x.isLiteral = true from rfl)
    hnamed (show Demand.int ≠ .none by decide) 0 0 c c hcoded (show m.ip = ipWord 0 from rfl)
    hconverted (show m.ip = ipWord 0 from rfl)
  have hdiffer : x.agrees .int = false := by decide
  exact ⟨a, b, text, ha, hb, fun h => Bool.false_ne_true (hdiffer ▸ hagrees.mp h)⟩

end Expr

end ConsoleScript
