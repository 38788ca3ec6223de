import ConsoleScript.Console.Block
import ConsoleScript.Proofs.Code.Assembly
import ConsoleScript.Proofs.Source.Spelling

/-!
# Literals of a unit

Every literal that symbolic code refers to was collected for it, and collecting adds at most one
item for each word of code. So in a unit whose code has 32-bit positions no index is cut off or
taken for an absent identifier, and the word of an operand leads back to what it stands for.
-/

namespace ConsoleScript

/-! ## Pools -/

namespace Pool

variable {α : Type} [BEq α]

theorem mem_insert_of_mem {p : Pool α} {b : α} (a : α) (h : b ∈ p.items) :
    b ∈ (p.insert a).items := by
  unfold insert
  split
  · exact h
  · exact Array.mem_push_of_mem a h

theorem size_insert_le (p : Pool α) (a : α) : (p.insert a).items.size ≤ p.items.size + 1 := by
  unfold insert
  split
  · omega
  · simp

variable [LawfulBEq α]

theorem isSome_find?_iff (p : Pool α) (a : α) : (p.find? a).isSome ↔ a ∈ p.items := by
  rw [find?, Array.findIdx?_isSome, Array.any_beq', Array.contains_iff_mem]

theorem mem_insert (p : Pool α) (a : α) : a ∈ (p.insert a).items := by
  unfold insert
  split
  · rwa [← isSome_find?_iff]
  · exact Array.mem_push_self

theorem getElem?_index {p : Pool α} {a : α} (h : a ∈ p.items) : p.items[p.index a]? = some a := by
  obtain ⟨i, hi⟩ := Option.isSome_iff_exists.mp ((isSome_find?_iff p a).mpr h)
  obtain ⟨hlt, heq, -⟩ := Array.findIdx?_eq_some_iff_getElem.mp hi
  rw [index, hi, Option.getD_some, Array.getElem?_eq_getElem hlt, eq_of_beq heq]

end Pool

/-! ## Collecting -/

namespace Literals

/-- Everything the first collection holds is in the second one. -/
structure Within (l l' : Literals) : Prop where
  texts : ∀ t ∈ l.texts.items, t ∈ l'.texts.items
  floats : ∀ b ∈ l.floats.items, b ∈ l'.floats.items

/-- How many literals there are. -/
def count (l : Literals) : Nat := l.texts.items.size + l.floats.items.size

theorem Within.refl (l : Literals) : l.Within l := ⟨fun _ h => h, fun _ h => h⟩

theorem Within.of_addText {l l' : Literals} {t : Text} (h : (l.addText t).Within l') :
    l.Within l' ∧ t ∈ l'.texts.items :=
  ⟨⟨fun _ hu => h.texts _ (Pool.mem_insert_of_mem t hu), h.floats⟩,
    h.texts t (Pool.mem_insert l.texts t)⟩

theorem Within.of_addIdent {l l' : Literals} {t : Text} (h : (l.addIdent t).Within l')
    (ht : t ≠ []) : l.Within l' ∧ t ∈ l'.texts.items := by
  rw [addIdent, if_neg (by simpa using ht)] at h
  exact h.of_addText

theorem Within.of_addIdent? {l l' : Literals} {t : Option Text} (h : (l.addIdent? t).Within l')
    (ht : t ≠ some []) : l.Within l' ∧ ∀ s ∈ t, s ∈ l'.texts.items := by
  cases t with
  | none => exact ⟨h, by simp⟩
  | some t => simpa using h.of_addIdent (by simpa using ht)

theorem Within.of_addFloat {l l' : Literals} {f : Float} (h : (l.addFloat f).Within l') :
    l.Within l' ∧ f.toBits ∈ l'.floats.items :=
  ⟨⟨h.texts, fun _ hb => h.floats _ (Pool.mem_insert_of_mem f.toBits hb)⟩,
    h.floats f.toBits (Pool.mem_insert l.floats f.toBits)⟩

theorem count_addText_le (l : Literals) (t : Text) : (l.addText t).count ≤ l.count + 1 := by
  have := Pool.size_insert_le l.texts t
  simp only [count, addText]
  omega

theorem count_addIdent_le (l : Literals) (t : Text) : (l.addIdent t).count ≤ l.count + 1 := by
  unfold addIdent
  split
  · omega
  · exact count_addText_le l t

theorem count_addFloat_le (l : Literals) (f : Float) : (l.addFloat f).count ≤ l.count + 1 := by
  have := Pool.size_insert_le l.floats f.toBits
  simp only [count, addFloat]
  omega

theorem count_addIdents_le (ts : List Text) (l : Literals) :
    (ts.foldl addIdent l).count ≤ l.count + ts.length := by
  induction ts generalizing l with
  | nil => simp
  | cons t ts ih =>
    have := ih (l.addIdent t)
    have := count_addIdent_le l t
    simp only [List.foldl_cons, List.length_cons]
    omega

theorem Within.of_addIdents {ts : List Text} {l l' : Literals}
    (h : (ts.foldl addIdent l).Within l') (hts : ∀ t ∈ ts, t ≠ []) :
    l.Within l' ∧ ∀ t ∈ ts, t ∈ l'.texts.items := by
  induction ts generalizing l with
  | nil => exact ⟨h, by simp⟩
  | cons t ts ih =>
    obtain ⟨hhead, hrest⟩ := List.forall_mem_cons.mp hts
    obtain ⟨hl, hmem⟩ := ih h hrest
    obtain ⟨hl, ht⟩ := hl.of_addIdent hhead
    exact ⟨hl, List.forall_mem_cons.mpr ⟨ht, hmem⟩⟩

end Literals

/-- The operand is an identifier that is spelled, or a literal, and is among the collected ones. -/
def Operand.Held (l : Literals) : Operand → Prop
  | .text t => t ∈ l.texts.items
  | .ident t => t ≠ [] ∧ t ∈ l.texts.items
  | .ident? t => t ≠ some [] ∧ ∀ s ∈ t, s ∈ l.texts.items
  | .float f => f.toBits ∈ l.floats.items
  | .target _ | .word _ => True

@[simp] theorem Operand.held_target (l : Literals) (ip : Nat) : (target ip).Held l := trivial

@[simp] theorem Operand.held_word (l : Literals) (w : UInt32) : (word w).Held l := trivial

namespace Asm

def Held (l : Literals) (is : List Asm) : Prop := ∀ i ∈ is, ∀ o ∈ i.operands, o.Held l

@[simp] theorem held_nil (l : Literals) : Held l [] := by simp [Held]

@[simp] theorem held_cons (l : Literals) (i : Asm) (is : List Asm) :
    Held l (i :: is) ↔ (∀ o ∈ i.operands, o.Held l) ∧ Held l is := by
  simp [Held]

@[simp] theorem held_append (l : Literals) (is js : List Asm) :
    Held l (is ++ js) ↔ Held l is ∧ Held l js := by
  simp [Held, or_imp, forall_and]

@[simp] theorem held_plain (l : Literals) (ops : List Opcode) : Held l (plain ops) := by
  simp [Held, plain]

@[simp] theorem held_convert (l : Literals) (source target : Demand) :
    Held l (convert source target) := held_plain l _

end Asm

namespace Expr

private theorem held_of_literal {l l' : Literals} (want : Demand) (float : Float) (text : Text)
    (h : (match want with
      | .text => l.addText text
      | .float => l.addFloat float
      | _ => l).Within l') :
    l.Within l' ∧ ∀ int op, Asm.Held l' (literalAsm want int float ⟨op, [.text text]⟩) := by
  cases want with
  | none => exact ⟨h, by simp [literalAsm]⟩
  | int => exact ⟨h, by simp [literalAsm, Operand.Held]⟩
  | float => exact ⟨h.of_addFloat.1, by simp [literalAsm, Operand.Held, h.of_addFloat.2]⟩
  | text => exact ⟨h.of_addText.1, by simp [literalAsm, Operand.Held, h.of_addText.2]⟩

private theorem collect_var (l : Literals) (pos : Position) (name : Text) (index : Option Expr)
    (want : Demand) : (var pos name index).collect want l =
      if want = .none then l else collectOpt index .text (l.addIdent name) := by
  cases index <;> rfl

private theorem collect_slot (l : Literals) (pos : Position) (obj : Expr) (field : Text)
    (index : Option Expr) (want : Demand) : (slot pos obj field index).collect want l =
      if want = .none then l
      else obj.collect .text (collectOpt index .text (l.addIdent field)) := by
  cases index <;> rfl

variable {num : Int → Prop}

mutual

/-- What holds the literals collected for an expression holds those collected before and all that
its code refers to. -/
theorem held_of_collect {l l' : Literals} : ∀ (x : Expr) (want : Demand), x.Named num →
    (x.collect want l).Within l' → l.Within l' ∧ ∀ ip, Asm.Held l' (x.asm ip want)
  | int _ v, want, _, h => by
    have hv := held_of_literal want (intAsFloat v) (Text.ofInt v) (by cases want <;> exact h)
    exact ⟨hv.1, fun _ => hv.2 _ _⟩
  | float _ v, want, _, h => by
    have hv := held_of_literal want v (Number.toText v) (by cases want <;> exact h)
    exact ⟨hv.1, fun _ => hv.2 _ _⟩
  | str _ v _, want, _, h => by
    have hv := held_of_literal want (Number.ofText v) v (by cases want <;> exact h)
    exact ⟨hv.1, fun _ => hv.2 _ _⟩
  | word _ v, want, _, h => by
    have hv := held_of_literal want (Number.ofText v) v (by cases want <;> exact h)
    exact ⟨hv.1, fun _ => hv.2 _ _⟩
  | var _ name none, want, hn, h => by
    simp only [Named, and_true] at hn
    rw [collect_var] at h
    simp only [asm]
    split at h
    · exact ⟨h, by simp [*]⟩
    · obtain ⟨hl, hname⟩ := h.of_addIdent hn
      exact ⟨hl, by simp [*, Operand.Held]⟩
  | var _ name (some i), want, hn, h => by
    simp only [Named] at hn
    rw [collect_var] at h
    simp only [asm]
    split at h
    · exact ⟨h, by simp [*]⟩
    · obtain ⟨hl, hi⟩ := held_of_collect i .text hn.2 h
      obtain ⟨hl, hname⟩ := hl.of_addIdent hn.1
      exact ⟨hl, by simp [*, elementAsm, Operand.Held]⟩
  | assign _ name none value, want, hn, h => by
    simp only [Named, and_true] at hn
    obtain ⟨hl, hv⟩ := held_of_collect value _ hn.2 h
    obtain ⟨hl, hname⟩ := hl.of_addIdent hn.1
    exact ⟨hl, by simp [*, asm, Operand.Held]⟩
  | assign _ name (some i) value, want, hn, h => by
    simp only [Named] at hn
    obtain ⟨hl, hi⟩ := held_of_collect i .text hn.2.2 h
    obtain ⟨hl, hv⟩ := held_of_collect value _ hn.2.1 hl
    obtain ⟨hl, hname⟩ := hl.of_addIdent hn.1
    refine ⟨hl, fun ip => ?_⟩
    simp only [asm]
    split <;> simp [hn, hi, hv, hname, elementAsm, Operand.Held]
  | update _ name none op value, want, hn, h => by
    simp only [Named, and_true] at hn
    obtain ⟨hl, hv⟩ := held_of_collect value _ hn.2 h
    obtain ⟨hl, hname⟩ := hl.of_addIdent hn.1
    exact ⟨hl, by simp [*, asm, Operand.Held]⟩
  | update _ name (some i) op value, want, hn, h => by
    simp only [Named] at hn
    obtain ⟨hl, hi⟩ := held_of_collect i .text hn.2.2 h
    obtain ⟨hl, hv⟩ := held_of_collect value _ hn.2.1 hl
    obtain ⟨hl, hname⟩ := hl.of_addIdent hn.1
    exact ⟨hl, by simp [*, asm, elementAsm, Operand.Held]⟩
  | arith _ _ left right, want, hn, h => by
    simp only [Named] at hn
    obtain ⟨hl, hright⟩ := held_of_collect right .float hn.2 h
    obtain ⟨hl, hleft⟩ := held_of_collect left .float hn.1 hl
    exact ⟨hl, by simp [*, asm]⟩
  | wordArith _ _ left right, want, hn, h => by
    simp only [Named] at hn
    obtain ⟨hl, hright⟩ := held_of_collect right .int hn.2 h
    obtain ⟨hl, hleft⟩ := held_of_collect left .int hn.1 hl
    exact ⟨hl, by simp [*, asm]⟩
  | compare _ _ left right, want, hn, h => by
    simp only [Named] at hn
    obtain ⟨hl, hright⟩ := held_of_collect right .float hn.2 h
    obtain ⟨hl, hleft⟩ := held_of_collect left .float hn.1 hl
    exact ⟨hl, by simp [*, asm]⟩
  | logic _ _ left right, want, hn, h => by
    simp only [Named] at hn
    obtain ⟨hl, hright⟩ := held_of_collect right .int hn.2 h
    obtain ⟨hl, hleft⟩ := held_of_collect left .int hn.1 hl
    exact ⟨hl, by simp [*, asm, Operand.Held]⟩
  | textEq _ equal left right, want, hn, h => by
    simp only [Named] at hn
    obtain ⟨hl, hright⟩ := held_of_collect right .text hn.2 h
    obtain ⟨hl, hleft⟩ := held_of_collect left .text hn.1 hl
    exact ⟨hl, by cases equal <;> simp [*, asm]⟩
  | concat _ left right separator, want, hn, h => by
    simp only [Named] at hn
    obtain ⟨hl, hright⟩ := held_of_collect right .text hn.2 h
    obtain ⟨hl, hleft⟩ := held_of_collect left .text hn.1 hl
    exact ⟨hl, by cases separator <;> simp [*, asm, Separator.byte?, Operand.Held]⟩
  | indexPair _ left right, want, hn, h => by
    simp only [Named] at hn
    obtain ⟨hl, hright⟩ := held_of_collect right .text hn.2 h
    obtain ⟨hl, hleft⟩ := held_of_collect left .text hn.1 hl
    exact ⟨hl, by simp [*, asm]⟩
  | unary _ _ x, want, hn, h => by
    obtain ⟨hl, hx⟩ := held_of_collect x _ hn h
    exact ⟨hl, by simp [*, asm]⟩
  | cond _ test whenTrue whenFalse, want, hn, h => by
    simp only [Named] at hn
    obtain ⟨hl, hfalse⟩ := held_of_collect whenFalse want hn.2.2 h
    obtain ⟨hl, htrue⟩ := held_of_collect whenTrue want hn.2.1 hl
    obtain ⟨hl, htest⟩ := held_of_collect test _ hn.1 hl
    exact ⟨hl, by simp [*, asm, Operand.Held]⟩
  | call _ name ns _ args, want, hn, h => by
    simp only [Named] at hn
    obtain ⟨hl, hargs⟩ := held_of_collectArgs args hn.2.2 h
    obtain ⟨hl, hns⟩ := hl.of_addIdent? hn.2.1
    obtain ⟨hl, hname⟩ := hl.of_addIdent hn.1
    refine ⟨hl, fun ip => ?_⟩
    simp only [asm, Asm.held_append, Asm.held_cons, Asm.held_nil, List.forall_mem_cons]
    exact ⟨⟨⟨by simp, hargs _⟩, ⟨⟨hn.1, hname⟩, ⟨hn.2.1, hns⟩, trivial, by simp⟩, trivial⟩,
      Asm.held_convert _ _ _⟩
  | slot _ obj field none, want, hn, h => by
    simp only [Named, and_true] at hn
    rw [collect_slot] at h
    simp only [asm]
    split at h
    · exact ⟨h, by simp [*]⟩
    · obtain ⟨hl, hobj⟩ := held_of_collect obj .text hn.2 h
      obtain ⟨hl, hfield⟩ := hl.of_addIdent hn.1
      exact ⟨hl, by simp [*, selectAsm, Operand.Held]⟩
  | slot _ obj field (some i), want, hn, h => by
    simp only [Named] at hn
    rw [collect_slot] at h
    simp only [asm]
    split at h
    · exact ⟨h, by simp [*]⟩
    · obtain ⟨hl, hobj⟩ := held_of_collect obj .text hn.2.1 h
      obtain ⟨hl, hi⟩ := held_of_collect i .text hn.2.2 hl
      obtain ⟨hl, hfield⟩ := hl.of_addIdent hn.1
      exact ⟨hl, by simp [*, selectAsm, Operand.Held]⟩
  | slotAssign _ obj field none value, want, hn, h => by
    simp only [Named, and_true] at hn
    obtain ⟨hl, hobj⟩ := held_of_collect obj .text hn.2.1 h
    obtain ⟨hl, hv⟩ := held_of_collect value .text hn.2.2 hl
    obtain ⟨hl, hfield⟩ := hl.of_addIdent hn.1
    exact ⟨hl, by simp [*, asm, selectAsm, Operand.Held]⟩
  | slotAssign _ obj field (some i) value, want, hn, h => by
    simp only [Named] at hn
    obtain ⟨hl, hi⟩ := held_of_collect i .text hn.2.2.2 h
    obtain ⟨hl, hobj⟩ := held_of_collect obj .text hn.2.1 hl
    obtain ⟨hl, hv⟩ := held_of_collect value .text hn.2.2.1 hl
    obtain ⟨hl, hfield⟩ := hl.of_addIdent hn.1
    exact ⟨hl, by simp [*, asm, selectAsm, Operand.Held]⟩
  | slotUpdate _ obj field none op value, want, hn, h => by
    simp only [Named, and_true] at hn
    obtain ⟨hl, hobj⟩ := held_of_collect obj .text hn.2.1 h
    obtain ⟨hl, hv⟩ := held_of_collect value _ hn.2.2 hl
    obtain ⟨hl, hfield⟩ := hl.of_addIdent hn.1
    exact ⟨hl, by simp [*, asm, selectAsm, Operand.Held]⟩
  | slotUpdate _ obj field (some i) op value, want, hn, h => by
    simp only [Named] at hn
    obtain ⟨hl, hi⟩ := held_of_collect i .text hn.2.2.2 h
    obtain ⟨hl, hobj⟩ := held_of_collect obj .text hn.2.1 hl
    obtain ⟨hl, hv⟩ := held_of_collect value _ hn.2.2.1 hl
    obtain ⟨hl, hfield⟩ := hl.of_addIdent hn.1
    exact ⟨hl, by simp [*, asm, selectAsm, Operand.Held]⟩
  | object decl, want, hn, h => by
    obtain ⟨hl, hdecl⟩ := held_of_collectObject decl hn h
    exact ⟨hl, by simp [*, asm, Operand.Held]⟩

theorem held_of_collectArgs {l l' : Literals} : ∀ (args : List Expr), NamedArgs num args →
    (collectArgs args l).Within l' → l.Within l' ∧ ∀ ip, Asm.Held l' (asmArgs args ip)
  | [], _, h => ⟨h, by simp [asmArgs]⟩
  | a :: as, hn, h => by
    simp only [NamedArgs] at hn
    obtain ⟨hl, has⟩ := held_of_collectArgs as hn.2 h
    obtain ⟨hl, ha⟩ := held_of_collect a .text hn.1 hl
    exact ⟨hl, by simp [*, asmArgs]⟩

theorem held_of_collectField {l l' : Literals} : ∀ (f : FieldInit), NamedField num f →
    (collectField f l).Within l' → l.Within l' ∧ ∀ ip, Asm.Held l' (asmField f ip)
  | .mk _ field none value, hn, h => by
    simp only [NamedField, and_true] at hn
    obtain ⟨hl, hv⟩ := held_of_collect value .text hn.2 h
    obtain ⟨hl, hfield⟩ := hl.of_addIdent hn.1
    exact ⟨hl, by simp [*, asmField, selectAsm, Operand.Held]⟩
  | .mk _ field (some i) value, hn, h => by
    simp only [NamedField] at hn
    obtain ⟨hl, hi⟩ := held_of_collect i .text hn.2.2 h
    obtain ⟨hl, hv⟩ := held_of_collect value .text hn.2.1 hl
    obtain ⟨hl, hfield⟩ := hl.of_addIdent hn.1
    exact ⟨hl, by simp [*, asmField, selectAsm, Operand.Held]⟩

theorem held_of_collectFields {l l' : Literals} : ∀ (fs : List FieldInit), NamedFields num fs →
    (collectFields fs l).Within l' → l.Within l' ∧ ∀ ip, Asm.Held l' (asmFields fs ip)
  | [], _, h => ⟨h, by simp [asmFields]⟩
  | f :: fs, hn, h => by
    simp only [NamedFields] at hn
    obtain ⟨hl, hfs⟩ := held_of_collectFields fs hn.2 h
    obtain ⟨hl, hf⟩ := held_of_collectField f hn.1 hl
    exact ⟨hl, by simp [*, asmFields]⟩

theorem held_of_collectObject {l l' : Literals} : ∀ (d : ObjectDecl), NamedObject num d →
    (collectObject d l).Within l' → l.Within l' ∧ ∀ ip root, Asm.Held l' (asmObject d ip root)
  | .mk _ className objectName copyFrom args _ fields children, hn, h => by
    simp only [NamedObject] at hn
    obtain ⟨hclass, hname, hcopy, hargs, hfields, hchildren⟩ := hn
    obtain ⟨hl, hchildren⟩ := held_of_collectChildren children hchildren h
    obtain ⟨hl, hfields⟩ := held_of_collectFields fields hfields hl
    obtain ⟨hl, hargs⟩ := held_of_collectArgs args hargs hl
    obtain ⟨hl, hname⟩ := held_of_collect objectName .text hname hl
    obtain ⟨hl, hclass⟩ := held_of_collect className .text hclass hl
    obtain ⟨hl, hsource⟩ := hl.of_addIdent? hcopy
    refine ⟨hl, fun ip root => ?_⟩
    simp only [asmObject, Asm.held_append, Asm.held_cons, List.forall_mem_cons]
    have hoperand : Operand.Held l' (.ident? copyFrom) := ⟨hcopy, hsource⟩
    simp [hchildren, hfields, hargs, hname, hclass, hoperand]

theorem held_of_collectChildren {l l' : Literals} : ∀ (cs : List ObjectDecl), NamedChildren num cs →
    (collectChildren cs l).Within l' → l.Within l' ∧ ∀ ip, Asm.Held l' (asmChildren cs ip)
  | [], _, h => ⟨h, by simp [asmChildren]⟩
  | c :: cs, hn, h => by
    simp only [NamedChildren] at hn
    obtain ⟨hl, hcs⟩ := held_of_collectChildren cs hn.2 h
    obtain ⟨hl, hc⟩ := held_of_collectObject c hn.1 hl
    exact ⟨hl, by simp [*, asmChildren]⟩

end

theorem held_of_collectOpt {l l' : Literals} (x : Option Expr) (want : Demand)
    (hn : ∀ y ∈ x, y.Named num) (h : (collectOpt x want l).Within l') :
    l.Within l' ∧ ∀ ip, Asm.Held l' (asmOpt x ip want) := by
  cases x with
  | none => exact ⟨h, by simp [asmOpt]⟩
  | some x => exact held_of_collect x want (hn x rfl) h

end Expr

namespace Stmt

variable {num : Int → Prop}

mutual

/-- What holds the literals collected for a statement holds those collected before and all that its
code refers to. -/
theorem held_of_collect {l l' : Literals} : ∀ (s : Stmt), s.Named num → (s.collect l).Within l' →
    l.Within l' ∧ ∀ ip targets, Asm.Held l' (s.asm ip targets)
  | expr _ x, hn, h => by
    obtain ⟨hl, hx⟩ := x.held_of_collect .none hn h
    exact ⟨hl, fun ip _ => hx ip⟩
  | branch _ test whenTrue none, hn, h => by
    simp only [Named, and_true] at hn
    obtain ⟨hl, htrue⟩ := held_of_collectBlock whenTrue hn.2 h
    obtain ⟨hl, htest⟩ := test.held_of_collect _ hn.1 hl
    exact ⟨hl, by simp [*, asm]⟩
  | branch _ test whenTrue (some whenFalse), hn, h => by
    simp only [Named] at hn
    obtain ⟨hl, hfalse⟩ := held_of_collectBlock whenFalse hn.2.2 h
    obtain ⟨hl, htrue⟩ := held_of_collectBlock whenTrue hn.2.1 hl
    obtain ⟨hl, htest⟩ := test.held_of_collect _ hn.1 hl
    exact ⟨hl, by simp [*, asm]⟩
  | loop _ start test next body testLast, hn, h => by
    simp only [Named] at hn
    obtain ⟨hl, hnext⟩ := Expr.held_of_collectOpt next .none hn.2.2.1 h
    obtain ⟨hl, hbody⟩ := held_of_collectBlock body hn.2.2.2 hl
    obtain ⟨hl, htest⟩ := test.held_of_collect _ hn.2.1 hl
    obtain ⟨hl, hstart⟩ := Expr.held_of_collectOpt start .none hn.1 hl
    exact ⟨hl, by cases testLast <;> simp [*, asm]⟩
  | breakLoop _, _, h => ⟨h, fun _ targets => by cases targets <;> simp [asm, asmLeave]⟩
  | continueLoop _, _, h => ⟨h, fun _ targets => by cases targets <;> simp [asm, asmLeave]⟩
  | ret _ none, _, h => ⟨h, by simp [asm]⟩
  | ret _ (some x), hn, h => by
    simp only [Named, Option.mem_some_iff, forall_eq'] at hn
    obtain ⟨hl, hx⟩ := x.held_of_collect .text hn h
    exact ⟨hl, by simp [*, asm]⟩
  | func _ name ns package params body, hn, h => by
    simp only [Named] at hn
    obtain ⟨hname, hns, hpackage, hparams, hbody⟩ := hn
    obtain ⟨hl, hbody⟩ := held_of_collectBlock body hbody h
    obtain ⟨hl, hmem⟩ := hl.of_addIdents hparams
    obtain ⟨hl, hpackageIn⟩ := hl.of_addIdent? hpackage
    obtain ⟨hl, hnsIn⟩ := hl.of_addIdent? hns
    obtain ⟨hl, hnameIn⟩ := hl.of_addIdent hname
    have hname : Operand.Held l' (.ident name) := ⟨hname, hnameIn⟩
    have hns : Operand.Held l' (.ident? ns) := ⟨hns, hnsIn⟩
    have hpackage : Operand.Held l' (.ident? package) := ⟨hpackage, hpackageIn⟩
    have hparams : ∀ o ∈ params.map Operand.ident, o.Held l' := by
      simp only [List.forall_mem_map]
      exact fun p hp => ⟨hparams p hp, hmem p hp⟩
    refine ⟨hl, fun ip targets => ?_⟩
    simp only [asm, Asm.held_append, Asm.held_cons, List.forall_mem_append, List.forall_mem_cons]
    exact ⟨⟨⟨⟨hname, hns, hpackage, trivial, trivial, trivial, by simp⟩, hparams⟩, hbody _ _⟩,
      Asm.held_plain _ _⟩

theorem held_of_collectBlock {l l' : Literals} : ∀ (ss : List Stmt), NamedBlock num ss →
    (collectBlock ss l).Within l' → l.Within l' ∧ ∀ ip targets, Asm.Held l' (asmBlock ss ip targets)
  | [], _, h => ⟨h, by simp [asmBlock]⟩
  | s :: ss, hn, h => by
    simp only [NamedBlock] at hn
    obtain ⟨hl, hss⟩ := held_of_collectBlock ss hn.2 h
    obtain ⟨hl, hs⟩ := held_of_collect s hn.1 hl
    exact ⟨hl, by simp [*, asmBlock]⟩

end

end Stmt

/-! ## Counting -/

namespace Expr

private theorem count_literal_le (l : Literals) (want : Demand) (float : Float) (text : Text) :
    (match want with
      | .text => l.addText text
      | .float => l.addFloat float
      | _ => l).count ≤ l.count + if want = .none then 0 else 2 := by
  have htext := l.count_addText_le text
  have hfloat := l.count_addFloat_le float
  cases want <;> simp <;> omega

mutual

theorem count_collect_le : ∀ (x : Expr) (want : Demand) (l : Literals),
    (x.collect want l).count ≤ l.count + x.size want
  | int _ v, want, l => by
    have h := count_literal_le l want (intAsFloat v) (Text.ofInt v)
    cases want <;> exact h
  | float _ v, want, l => by
    have h := count_literal_le l want v (Number.toText v)
    cases want <;> exact h
  | str _ v _, want, l => by
    have h := count_literal_le l want (Number.ofText v) v
    cases want <;> exact h
  | word _ v, want, l => by
    have h := count_literal_le l want (Number.ofText v) v
    cases want <;> exact h
  | var _ name none, want, l => by
    have hname := l.count_addIdent_le name
    simp only [collect_var, collectOpt, size]
    split <;> omega
  | var _ name (some i), want, l => by
    have hi := count_collect_le i .text (l.addIdent name)
    have hname := l.count_addIdent_le name
    simp only [collect_var, collectOpt, size]
    split <;> omega
  | assign _ name none value, want, l => by
    have hname := l.count_addIdent_le name
    refine Nat.le_trans (count_collect_le value value.storedAs (l.addIdent name)) ?_
    simp only [size]
    omega
  | assign _ name (some i) value, want, l => by
    have hname := l.count_addIdent_le name
    have hvalue := count_collect_le value value.storedAs (l.addIdent name)
    refine Nat.le_trans (count_collect_le i .text _) ?_
    simp only [size]
    split <;> omega
  | update _ name none op value, want, l => by
    have hname := l.count_addIdent_le name
    refine Nat.le_trans (count_collect_le value op.operands (l.addIdent name)) ?_
    simp only [size]
    omega
  | update _ name (some i) op value, want, l => by
    have hname := l.count_addIdent_le name
    have hvalue := count_collect_le value op.operands (l.addIdent name)
    refine Nat.le_trans (count_collect_le i .text _) ?_
    simp only [size]
    omega
  | arith _ _ left right, want, l => by
    have hleft := count_collect_le left .float l
    refine Nat.le_trans (count_collect_le right .float _) ?_
    simp only [size]
    omega
  | wordArith _ _ left right, want, l => by
    have hleft := count_collect_le left .int l
    refine Nat.le_trans (count_collect_le right .int _) ?_
    simp only [size]
    omega
  | compare _ _ left right, want, l => by
    have hleft := count_collect_le left .float l
    refine Nat.le_trans (count_collect_le right .float _) ?_
    simp only [size]
    omega
  | logic _ _ left right, want, l => by
    have hleft := count_collect_le left .int l
    refine Nat.le_trans (count_collect_le right .int _) ?_
    simp only [size]
    omega
  | textEq _ _ left right, want, l => by
    have hleft := count_collect_le left .text l
    refine Nat.le_trans (count_collect_le right .text _) ?_
    simp only [size]
    omega
  | concat _ left right _, want, l => by
    have hleft := count_collect_le left .text l
    refine Nat.le_trans (count_collect_le right .text _) ?_
    simp only [size]
    omega
  | indexPair _ left right, want, l => by
    have hleft := count_collect_le left .text l
    refine Nat.le_trans (count_collect_le right .text _) ?_
    simp only [size]
    omega
  | unary _ op x, want, l => by
    refine Nat.le_trans (count_collect_le x (operandOf op x) l) ?_
    simp only [size]
    omega
  | cond _ test whenTrue whenFalse, want, l => by
    have htest := count_collect_le test test.testedAs l
    have htrue := count_collect_le whenTrue want (test.collect test.testedAs l)
    refine Nat.le_trans (count_collect_le whenFalse want _) ?_
    simp only [size]
    omega
  | call _ name ns _ args, want, l => by
    have hname := l.count_addIdent_le name
    have hns := (l.addIdent name).count_addIdent_le (ns.getD [])
    refine Nat.le_trans (count_collectArgs_le args _) ?_
    simp only [size, Literals.addIdent?]
    omega
  | slot _ obj field none, want, l => by
    have hfield := l.count_addIdent_le field
    have hobj := count_collect_le obj .text (l.addIdent field)
    simp only [collect_slot, collectOpt, size]
    split <;> omega
  | slot _ obj field (some i), want, l => by
    have hfield := l.count_addIdent_le field
    have hi := count_collect_le i .text (l.addIdent field)
    have hobj := count_collect_le obj .text (i.collect .text (l.addIdent field))
    simp only [collect_slot, collectOpt, size]
    split <;> omega
  | slotAssign _ obj field none value, want, l => by
    have hfield := l.count_addIdent_le field
    have hvalue := count_collect_le value .text (l.addIdent field)
    refine Nat.le_trans (count_collect_le obj .text _) ?_
    simp only [size]
    omega
  | slotAssign _ obj field (some i) value, want, l => by
    have hfield := l.count_addIdent_le field
    have hvalue := count_collect_le value .text (l.addIdent field)
    have hobj := count_collect_le obj .text (value.collect .text (l.addIdent field))
    refine Nat.le_trans (count_collect_le i .text _) ?_
    simp only [size]
    omega
  | slotUpdate _ obj field none op value, want, l => by
    have hfield := l.count_addIdent_le field
    have hvalue := count_collect_le value op.operands (l.addIdent field)
    refine Nat.le_trans (count_collect_le obj .text _) ?_
    simp only [size]
    omega
  | slotUpdate _ obj field (some i) op value, want, l => by
    have hfield := l.count_addIdent_le field
    have hvalue := count_collect_le value op.operands (l.addIdent field)
    have hobj := count_collect_le obj .text (value.collect op.operands (l.addIdent field))
    refine Nat.le_trans (count_collect_le i .text _) ?_
    simp only [size]
    omega
  | object decl, want, l => by
    refine Nat.le_trans (count_collectObject_le decl l) ?_
    simp only [size]
    omega

theorem count_collectArgs_le : ∀ (args : List Expr) (l : Literals),
    (collectArgs args l).count ≤ l.count + argsSize args
  | [], _ => Nat.le_refl _
  | a :: as, l => by
    have ha := count_collect_le a .text l
    refine Nat.le_trans (count_collectArgs_le as _) ?_
    simp only [argsSize]
    omega

theorem count_collectField_le : ∀ (f : FieldInit) (l : Literals),
    (collectField f l).count ≤ l.count + fieldSize f
  | .mk _ field none value, l => by
    have hfield := l.count_addIdent_le field
    refine Nat.le_trans (count_collect_le value .text _) ?_
    simp only [fieldSize]
    omega
  | .mk _ field (some i) value, l => by
    have hfield := l.count_addIdent_le field
    have hvalue := count_collect_le value .text (l.addIdent field)
    refine Nat.le_trans (count_collect_le i .text _) ?_
    simp only [fieldSize]
    omega

theorem count_collectFields_le : ∀ (fs : List FieldInit) (l : Literals),
    (collectFields fs l).count ≤ l.count + fieldsSize fs
  | [], _ => Nat.le_refl _
  | f :: fs, l => by
    have hf := count_collectField_le f l
    refine Nat.le_trans (count_collectFields_le fs _) ?_
    simp only [fieldsSize]
    omega

theorem count_collectObject_le : ∀ (d : ObjectDecl) (l : Literals),
    (collectObject d l).count ≤ l.count + objectSize d
  | .mk _ className objectName copyFrom args _ fields children, l => by
    have hcopy := l.count_addIdent_le (copyFrom.getD [])
    have hclass := count_collect_le className .text (l.addIdent? copyFrom)
    have hname := count_collect_le objectName .text (className.collect .text (l.addIdent? copyFrom))
    have hargs := count_collectArgs_le args
      (objectName.collect .text (className.collect .text (l.addIdent? copyFrom)))
    have hfields := count_collectFields_le fields (collectArgs args
      (objectName.collect .text (className.collect .text (l.addIdent? copyFrom))))
    refine Nat.le_trans (count_collectChildren_le children _) ?_
    simp only [objectSize, Literals.addIdent?] at *
    omega

theorem count_collectChildren_le : ∀ (cs : List ObjectDecl) (l : Literals),
    (collectChildren cs l).count ≤ l.count + childrenSize cs
  | [], _ => Nat.le_refl _
  | c :: cs, l => by
    have hc := count_collectObject_le c l
    refine Nat.le_trans (count_collectChildren_le cs _) ?_
    simp only [childrenSize]
    omega

end

theorem count_collectOpt_le (x : Option Expr) (want : Demand) (l : Literals) :
    (collectOpt x want l).count ≤ l.count + sizeOpt x want := by
  cases x with
  | none => exact Nat.le_refl _
  | some x => exact x.count_collect_le want l

end Expr

namespace Stmt

mutual

theorem count_collect_le : ∀ (s : Stmt) (inLoop : Bool) (l : Literals),
    (s.collect l).count ≤ l.count + s.size inLoop
  | expr _ x, _, l => x.count_collect_le .none l
  | branch _ test whenTrue none, inLoop, l => by
    have htest := test.count_collect_le test.testedAs l
    refine Nat.le_trans (count_collectBlock_le whenTrue inLoop _) ?_
    simp only [size]
    omega
  | branch _ test whenTrue (some whenFalse), inLoop, l => by
    have htest := test.count_collect_le test.testedAs l
    have htrue := count_collectBlock_le whenTrue inLoop (test.collect test.testedAs l)
    refine Nat.le_trans (count_collectBlock_le whenFalse inLoop _) ?_
    simp only [size]
    omega
  | loop _ start test next body testLast, _, l => by
    have hstart := Expr.count_collectOpt_le start .none l
    have htest := test.count_collect_le test.testedAs (Expr.collectOpt start .none l)
    have hbody := count_collectBlock_le body true
      (test.collect test.testedAs (Expr.collectOpt start .none l))
    refine Nat.le_trans (Expr.count_collectOpt_le next .none _) ?_
    simp only [size]
    omega
  | breakLoop _, _, l => by simp [collect]
  | continueLoop _, _, l => by simp [collect]
  | ret _ none, _, l => by simp [collect, Expr.collectOpt]
  | ret _ (some x), _, l => by
    refine Nat.le_trans (x.count_collect_le .text l) ?_
    simp only [size]
    omega
  | func _ name ns package params body, _, l => by
    have hname := l.count_addIdent_le name
    have hns := (l.addIdent name).count_addIdent_le (ns.getD [])
    have hpackage := ((l.addIdent name).addIdent? ns).count_addIdent_le (package.getD [])
    have hparams := Literals.count_addIdents_le params
      (((l.addIdent name).addIdent? ns).addIdent? package)
    refine Nat.le_trans (count_collectBlock_le body false _) ?_
    simp only [size, Literals.addIdent?] at *
    omega

theorem count_collectBlock_le : ∀ (ss : List Stmt) (inLoop : Bool) (l : Literals),
    (collectBlock ss l).count ≤ l.count + blockSize ss inLoop
  | [], _, _ => Nat.le_refl _
  | s :: ss, inLoop, l => by
    have hs := count_collect_le s inLoop l
    refine Nat.le_trans (count_collectBlock_le ss inLoop _) ?_
    simp only [blockSize]
    omega

end

end Stmt

/-! ## Properties of collected literals -/

/-- Does adding a literal keep a property of pools? -/
structure Literals.Closed (P : Literals → Prop) : Prop where
  addText : ∀ l t, P l → P (l.addText t)
  addFloat : ∀ l f, P l → P (l.addFloat f)

namespace Literals.Closed

variable {P : Literals → Prop}

theorem addIdent (hP : Closed P) {l : Literals} (t : Text) (h : P l) : P (l.addIdent t) := by
  rw [Literals.addIdent]
  split
  · exact h
  · exact hP.addText l t h

theorem addIdents (hP : Closed P) {l : Literals} (ts : List Text) (h : P l) :
    P (ts.foldl Literals.addIdent l) := by
  induction ts generalizing l with
  | nil => exact h
  | cons t ts ih => exact ih (hP.addIdent t h)

private theorem literal (hP : Closed P) {l : Literals} (want : Demand) (f : Float) (t : Text)
    (h : P l) :
    P (match want with
      | .text => l.addText t
      | .float => l.addFloat f
      | _ => l) := by
  cases want with
  | text => exact hP.addText l t h
  | float => exact hP.addFloat l f h
  | none => exact h
  | int => exact h

end Literals.Closed

namespace Expr

variable {P : Literals → Prop}

mutual

theorem closed_collect (hP : Literals.Closed P) : ∀ (x : Expr) (want : Demand) {l : Literals}, P l → P (x.collect want l)
  | int _ v, want, _, h => hP.literal want (intAsFloat v) (Text.ofInt v) h
  | float _ v, want, _, h => hP.literal want v (Number.toText v) h
  | str _ v _, want, _, h => hP.literal want (Number.ofText v) v h
  | word _ v, want, _, h => hP.literal want (Number.ofText v) v h
  | var _ name none, want, _, h => by
    rw [collect_var]
    split
    · exact h
    · exact hP.addIdent name h
  | var _ name (some i), want, _, h => by
    rw [collect_var]
    split
    · exact h
    · exact closed_collect hP i .text (hP.addIdent name h)
  | assign _ name none value, _, _, h => closed_collect hP value _ (hP.addIdent name h)
  | assign _ name (some i) value, _, _, h =>
    closed_collect hP i .text (closed_collect hP value _ (hP.addIdent name h))
  | update _ name none op value, _, _, h => closed_collect hP value _ (hP.addIdent name h)
  | update _ name (some i) op value, _, _, h =>
    closed_collect hP i .text (closed_collect hP value _ (hP.addIdent name h))
  | arith _ _ left right, _, _, h => closed_collect hP right .float (closed_collect hP left .float h)
  | wordArith _ _ left right, _, _, h => closed_collect hP right .int (closed_collect hP left .int h)
  | compare _ _ left right, _, _, h => closed_collect hP right .float (closed_collect hP left .float h)
  | logic _ _ left right, _, _, h => closed_collect hP right .int (closed_collect hP left .int h)
  | textEq _ _ left right, _, _, h => closed_collect hP right .text (closed_collect hP left .text h)
  | concat _ left right _, _, _, h => closed_collect hP right .text (closed_collect hP left .text h)
  | indexPair _ left right, _, _, h => closed_collect hP right .text (closed_collect hP left .text h)
  | unary _ op x, _, _, h => closed_collect hP x _ h
  | cond _ test whenTrue whenFalse, want, _, h =>
    closed_collect hP whenFalse want (closed_collect hP whenTrue want (closed_collect hP test _ h))
  | call _ name ns _ args, _, _, h =>
    closed_collectArgs hP args (hP.addIdent (ns.getD []) (hP.addIdent name h))
  | slot _ obj field none, want, _, h => by
    rw [collect_slot]
    split
    · exact h
    · exact closed_collect hP obj .text (hP.addIdent field h)
  | slot _ obj field (some i), want, _, h => by
    rw [collect_slot]
    split
    · exact h
    · exact closed_collect hP obj .text (closed_collect hP i .text (hP.addIdent field h))
  | slotAssign _ obj field none value, _, _, h =>
    closed_collect hP obj .text (closed_collect hP value .text (hP.addIdent field h))
  | slotAssign _ obj field (some i) value, _, _, h =>
    closed_collect hP i .text
      (closed_collect hP obj .text (closed_collect hP value .text (hP.addIdent field h)))
  | slotUpdate _ obj field none op value, _, _, h =>
    closed_collect hP obj .text (closed_collect hP value _ (hP.addIdent field h))
  | slotUpdate _ obj field (some i) op value, _, _, h =>
    closed_collect hP i .text
      (closed_collect hP obj .text (closed_collect hP value _ (hP.addIdent field h)))
  | object decl, _, _, h => closed_collectObject hP decl h

theorem closed_collectArgs (hP : Literals.Closed P) : ∀ (args : List Expr) {l : Literals}, P l → P (collectArgs args l)
  | [], _, h => h
  | a :: as, _, h => closed_collectArgs hP as (closed_collect hP a .text h)

theorem closed_collectField (hP : Literals.Closed P) : ∀ (f : FieldInit) {l : Literals}, P l → P (collectField f l)
  | .mk _ field none value, _, h => closed_collect hP value .text (hP.addIdent field h)
  | .mk _ field (some i) value, _, h =>
    closed_collect hP i .text (closed_collect hP value .text (hP.addIdent field h))

theorem closed_collectFields (hP : Literals.Closed P) : ∀ (fs : List FieldInit) {l : Literals}, P l → P (collectFields fs l)
  | [], _, h => h
  | f :: fs, _, h => closed_collectFields hP fs (closed_collectField hP f h)

theorem closed_collectObject (hP : Literals.Closed P) : ∀ (d : ObjectDecl) {l : Literals}, P l → P (collectObject d l)
  | .mk _ className objectName copyFrom args _ fields children, _, h =>
    closed_collectChildren hP children (closed_collectFields hP fields (closed_collectArgs hP args
      (closed_collect hP objectName .text
        (closed_collect hP className .text (hP.addIdent (copyFrom.getD []) h)))))

theorem closed_collectChildren (hP : Literals.Closed P) : ∀ (cs : List ObjectDecl) {l : Literals},
    P l → P (collectChildren cs l)
  | [], _, h => h
  | c :: cs, _, h => closed_collectChildren hP cs (closed_collectObject hP c h)

end

theorem closed_collectOpt (hP : Literals.Closed P) (x : Option Expr) (want : Demand) {l : Literals} (h : P l) :
    P (collectOpt x want l) := by
  cases x with
  | none => exact h
  | some x => exact closed_collect hP x want h

end Expr

namespace Stmt

variable {P : Literals → Prop}

mutual

theorem closed_collect (hP : Literals.Closed P) : ∀ (s : Stmt) {l : Literals}, P l → P (s.collect l)
  | expr _ x, _, h => x.closed_collect hP .none h
  | branch _ test whenTrue none, _, h =>
    closed_collectBlock hP whenTrue (test.closed_collect hP _ h)
  | branch _ test whenTrue (some whenFalse), _, h =>
    closed_collectBlock hP whenFalse (closed_collectBlock hP whenTrue (test.closed_collect hP _ h))
  | loop _ start test next body _, _, h =>
    Expr.closed_collectOpt hP next .none (closed_collectBlock hP body
      (test.closed_collect hP _ (Expr.closed_collectOpt hP start .none h)))
  | breakLoop _, _, h => h
  | continueLoop _, _, h => h
  | ret _ value, _, h => Expr.closed_collectOpt hP value .text h
  | func _ name ns package params body, _, h =>
    closed_collectBlock hP body (hP.addIdents params (hP.addIdent (package.getD [])
      (hP.addIdent (ns.getD []) (hP.addIdent name h))))

/-- What holds of no literals and is kept by adding one holds of the literals of any program. -/
theorem closed_collectBlock (hP : Literals.Closed P) : ∀ (ss : List Stmt) {l : Literals}, P l → P (collectBlock ss l)
  | [], _, h => h
  | s :: ss, _, h => closed_collectBlock hP ss (closed_collect hP s h)

end

end Stmt

/-! ## Operands in a unit -/

/-- The word of an operand leads back to what the operand stands for: the index of a text that is
not the mark of absence, the mark itself for an absent identifier, the index of a number with the
same bits. -/
def Operand.Denotes (u : CodeUnit) : Operand → UInt32 → Prop
  | .text t, w | .ident t, w | .ident? (some t), w => w ≠ noIdent ∧ u.texts[w.toNat]? = some t
  | .ident? none, w => w = noIdent
  | .float f, w => u.floats[w.toNat]? = some f.toBits
  | .target ip, w => w = ipWord ip
  | .word v, w => w = v

/-- An index into a pool that is small enough keeps its value as a word. -/
private theorem Pool.getElem?_toUInt32 {α : Type} [BEq α] [LawfulBEq α] {p : Pool α} {a : α}
    (h : a ∈ p.items) (hsize : p.items.size + 1 < UInt32.size) :
    (p.index a).toUInt32 ≠ noIdent ∧ p.items[(p.index a).toUInt32.toNat]? = some a := by
  have hget := getElem?_index h
  obtain ⟨hlt, -⟩ := Array.getElem?_eq_some_iff.mp hget
  have hword : (p.index a).toUInt32.toNat = p.index a := by
    exact UInt32.toNat_ofNat_of_lt' (by omega)
  refine ⟨fun heq => ?_, by rwa [hword]⟩
  have : p.index a = 0xFFFFFFFF := by rw [← hword, heq]; rfl
  simp only [UInt32.size] at hsize
  omega

theorem Operand.denotes_encode {u : CodeUnit} {l : Literals} {o : Operand} (h : o.Held l)
    (htexts : u.texts = l.texts.items) (hfloats : u.floats = l.floats.items)
    (hsize : l.count + 1 < UInt32.size) : o.Denotes u (o.encode l) := by
  have hsizes : l.texts.items.size + 1 < UInt32.size ∧ l.floats.items.size + 1 < UInt32.size := by
    simp only [Literals.count] at hsize
    omega
  have hident : ∀ t : Text, t ≠ [] → t ∈ l.texts.items →
      l.ident t ≠ noIdent ∧ u.texts[(l.ident t).toNat]? = some t := by
    intro t ht hmem
    rw [Literals.ident, if_neg (by simpa using ht), htexts]
    exact Pool.getElem?_toUInt32 hmem hsizes.1
  cases o with
  | text t =>
    rw [Denotes, htexts]
    exact Pool.getElem?_toUInt32 h hsizes.1
  | ident t => exact hident t h.1 h.2
  | ident? t =>
    cases t with
    | none => rfl
    | some t => exact hident t (by simpa using h.1) (h.2 t rfl)
  | float f =>
    rw [Denotes, hfloats]
    exact (Pool.getElem?_toUInt32 h hsizes.2).2
  | target ip => rfl
  | word w => rfl

theorem CodeUnit.denotes_written (filename : Text) {num : Int → Prop} {program : List Stmt}
    (hnamed : Stmt.NamedBlock num program)
    (hsize : (written filename program).code.size < UInt32.size) :
    ∀ i ∈ Stmt.asmProgram program, ∀ o ∈ i.operands,
      o.Denotes (written filename program) (o.encode (Stmt.collectBlock program {})) := by
  intro i hi o ho
  have hcount := Stmt.count_collectBlock_le program false {}
  have hheld : Asm.Held (Stmt.collectBlock program {}) (Stmt.asmProgram program) := by
    simp [Stmt.asmProgram, (Stmt.held_of_collectBlock program hnamed (.refl _)).2 0 none]
  rw [size_code_written] at hsize
  refine Operand.denotes_encode (hheld i hi o ho) rfl rfl
    (Nat.lt_of_le_of_lt (Nat.succ_le_succ hcount) ?_)
  simpa [Literals.count] using hsize

/-! ## Code in a unit -/

namespace Asm

/-- The instructions stand in the code of the unit from position `ip` on, which has 32-bit
positions. -/
structure Stored (u : CodeUnit) (l : Literals) (ip : Nat) (is : List Asm) : Prop where
  size : u.code.size < UInt32.size
  code : CodeAt u.code.toList ip (encode l is)

variable {u : CodeUnit} {l : Literals} {ip : Nat} {is js : List Asm} {i : Asm}

namespace Stored

theorem append_iff :
    Stored u l ip (is ++ js) ↔ Stored u l ip is ∧ Stored u l (ip + total is) js := by
  constructor
  · rintro ⟨hsize, hcode⟩
    rw [encode_append, CodeAt.append_iff, length_encode] at hcode
    exact ⟨⟨hsize, hcode.1⟩, ⟨hsize, hcode.2⟩⟩
  · rintro ⟨⟨hsize, his⟩, ⟨-, hjs⟩⟩
    refine ⟨hsize, ?_⟩
    rw [encode_append, CodeAt.append_iff, length_encode]
    exact ⟨his, hjs⟩

theorem left (h : Stored u l ip (is ++ js)) : Stored u l ip is := (append_iff.mp h).1

theorem right (h : Stored u l ip (is ++ js)) : Stored u l (ip + total is) js :=
  (append_iff.mp h).2

theorem head (h : Stored u l ip (i :: is)) : Stored u l ip [i] :=
  left (show Stored u l ip ([i] ++ is) from h)

theorem tail (h : Stored u l ip (i :: is)) : Stored u l (ip + i.size) is :=
  right (show Stored u l ip ([i] ++ is) from h)

theorem cast {ip' : Nat} (h : Stored u l ip is) (e : ip = ip') : Stored u l ip' is := e ▸ h

theorem le_size (h : Stored u l ip (i :: is)) : ip + total (i :: is) ≤ u.code.size := by
  have := h.code.length_le (by simp)
  rwa [length_encode, Array.length_toList] at this

private theorem word_eq (hsize : u.code.size < UInt32.size) {w : UInt32}
    (h : u.code.toList[ip]? = some w) : u.word (ipWord ip) = .ok w := by
  rw [Array.getElem?_toList] at h
  obtain ⟨hlt, -⟩ := Array.getElem?_eq_some_iff.mp h
  simp only [CodeUnit.word, toNat_ipWord (show ip < UInt32.size by omega), h]

theorem word_op (h : Stored u l ip (i :: is)) : u.word (ipWord ip) = .ok i.op.word :=
  word_eq h.size (CodeAt.cons_iff.mp h.code).1

theorem word_operand (h : Stored u l ip (i :: is)) {k : Nat} {o : Operand}
    (hk : i.operands[k]? = some o) :
    u.word (ipWord ip + 1 + UInt32.ofNat k) = .ok (o.encode l) := by
  have hword : (encode l (i :: is))[1 + k]? = some (o.encode l) := by
    obtain ⟨hlt, -⟩ := List.getElem?_eq_some_iff.mp hk
    rw [encode_cons, Nat.add_comm, List.getElem?_cons_succ,
      List.getElem?_append_left (by simpa using hlt), List.getElem?_map, hk]
    rfl
  have hip : ipWord ip + 1 + UInt32.ofNat k = ipWord (ip + (1 + k)) := by
    simp only [ipWord, UInt32.ofNat_add, UInt32.add_assoc]
    rfl
  rw [hip]
  exact word_eq h.size (h.code.getElem? hword)

theorem word_first {op : Opcode} {o : Operand} {os : List Operand}
    (h : Stored u l ip (⟨op, o :: os⟩ :: is)) : u.word (ipWord ip + 1) = .ok (o.encode l) := by
  rw [← UInt32.add_zero (ipWord ip + 1)]
  exact h.word_operand (List.getElem?_cons_zero)

end Stored

/-- The instructions stand in the code, and their operands denote. -/
structure Loaded (u : CodeUnit) (l : Literals) (ip : Nat) (is : List Asm) : Prop
    extends Stored u l ip is where
  denotes : ∀ i ∈ is, ∀ o ∈ i.operands, o.Denotes u (o.encode l)

namespace Loaded

theorem append (h : Loaded u l ip (is ++ js)) :
    Loaded u l ip is ∧ Loaded u l (ip + total is) js := by
  obtain ⟨his, hjs⟩ := Stored.append_iff.mp h.toStored
  obtain ⟨hdis, hdjs⟩ := List.forall_mem_append.mp h.denotes
  exact ⟨⟨his, hdis⟩, ⟨hjs, hdjs⟩⟩

theorem left (h : Loaded u l ip (is ++ js)) : Loaded u l ip is := h.append.1

theorem right (h : Loaded u l ip (is ++ js)) : Loaded u l (ip + total is) js := h.append.2

theorem head (h : Loaded u l ip (i :: is)) : Loaded u l ip [i] :=
  left (show Loaded u l ip ([i] ++ is) from h)

theorem tail (h : Loaded u l ip (i :: is)) : Loaded u l (ip + i.size) is :=
  right (show Loaded u l ip ([i] ++ is) from h)

theorem cast {ip' : Nat} (h : Loaded u l ip is) (e : ip = ip') : Loaded u l ip' is := e ▸ h

end Loaded

end Asm

theorem CodeUnit.loaded_written {filename : Text} {num : Int → Prop} {program : List Stmt}
    (hnamed : Stmt.NamedBlock num program)
    (hsize : (written filename program).code.size < UInt32.size) :
    Asm.Loaded (written filename program) (Stmt.collectBlock program {}) 0
      (Stmt.asmProgram program) where
  size := hsize
  code := by
    rw [code_written]
    exact List.prefix_rfl
  denotes := denotes_written filename hnamed hsize

end ConsoleScript
