import ConsoleScript.Proofs.Console.Sessions
import Mathlib.Data.List.Perm.Basic

/-!
# How long code blocks stay loaded

A block is referred to by the entries of the functions it declares and by its activations. The count
of references is exact at every point of every session, and the blocks that are loaded are those that
are referred to and those that are yet to run. A function that is defined over another, even over
itself while it runs, cannot unload the code that is running: its activation refers to it.
-/

namespace ConsoleScript

namespace Blocks

variable {bs : Blocks} {b : BlockId} {refs refs' fresh fresh' : List BlockId}

theorem get_of_size_le (h : bs.store.size ≤ b) : bs.get b = default := by
  rw [get, Array.getElem?_eq_none h]
  rfl

theorem size_retain (bs : Blocks) (b : BlockId) : (bs.retain b).store.size = bs.store.size :=
  Array.size_modify ..

theorem refCount_retain (h : b < bs.store.size) (j : BlockId) :
    ((bs.retain b).get j).refCount = (bs.get j).refCount + if b = j then 1 else 0 := by
  rw [get, get, retain, Array.getElem?_modify]
  by_cases he : b = j
  · subst he
    rw [if_pos rfl, if_pos rfl, Array.getElem?_eq_getElem h]
    rfl
  · rw [if_neg he, if_neg he, Int.add_zero]

theorem refCount_release (h : b < bs.store.size) (j : BlockId) :
    ((bs.release b).get j).refCount = (bs.get j).refCount - if b = j then 1 else 0 := by
  have hget : (bs.release b).get j = ((bs.store.modify b fun c =>
      { c with refCount := c.refCount - 1 })[j]?).getD default := by
    rw [release]
    dsimp only
    split <;> rfl
  rw [hget, get, Array.getElem?_modify]
  by_cases he : b = j
  · subst he
    rw [if_pos rfl, if_pos rfl, Array.getElem?_eq_getElem h]
    rfl
  · rw [if_neg he, if_neg he, Int.sub_zero]

theorem loaded_release (h : b < bs.store.size) :
    (bs.release b).loaded = if 1 < (bs.get b).refCount then bs.loaded else bs.loaded.erase b := by
  have hcount : (({ bs with store := bs.store.modify b fun c =>
      { c with refCount := c.refCount - 1 } } : Blocks).get b).refCount = (bs.get b).refCount - 1 := by
    rw [get, get, Array.getElem?_modify, if_pos rfl, Array.getElem?_eq_getElem h]
    rfl
  rw [release]
  dsimp only
  rw [hcount]
  by_cases hlast : 1 < (bs.get b).refCount
  · rw [if_pos (by omega), if_pos hlast]
  · rw [if_neg (by omega), if_neg hlast]

/-- The counts are those of `refs`, and the blocks that are loaded are those in `refs` and the `fresh`
ones, which are yet to run. -/
structure Accounted (bs : Blocks) (refs fresh : List BlockId) : Prop where
  count : ∀ b, (bs.get b).refCount = refs.count b
  listed : ∀ b, b ∈ bs.loaded ↔ b ∈ refs ∨ b ∈ fresh
  nodup : bs.loaded.Nodup
  distinct : fresh.Nodup
  apart : ∀ b ∈ fresh, b ∉ refs
  stored : ∀ b ∈ fresh, b < bs.store.size

namespace Accounted

theorem perm (h : bs.Accounted refs fresh) (hrefs : refs.Perm refs') (hfresh : fresh.Perm fresh') :
    bs.Accounted refs' fresh' where
  count b := hrefs.count_eq b ▸ h.count b
  listed b := by rw [h.listed b, hrefs.mem_iff, hfresh.mem_iff]
  nodup := h.nodup
  distinct := hfresh.nodup_iff.mp h.distinct
  apart b hb := by
    rw [← hrefs.mem_iff]
    exact h.apart b (hfresh.mem_iff.mpr hb)
  stored b hb := h.stored b (hfresh.mem_iff.mpr hb)

theorem lt_size (h : bs.Accounted refs fresh) (hb : b ∈ refs) : b < bs.store.size := by
  by_contra hsize
  have hcount := h.count b
  rw [get_of_size_le (Nat.le_of_not_lt hsize)] at hcount
  have hpos := List.count_pos_iff.mpr hb
  have hzero : (default : CodeBlock).refCount = 0 := rfl
  omega

theorem load (h : bs.Accounted refs fresh) (u : CodeUnit) :
    (bs.load u).2.Accounted refs ((bs.load u).1 :: fresh) := by
  have hnew : bs.store.size ∉ refs := fun hb => Nat.lt_irrefl _ (h.lt_size hb)
  have hfresh : bs.store.size ∉ fresh := fun hb => Nat.lt_irrefl _ (h.stored _ hb)
  have hsize : (bs.load u).2.store.size = bs.store.size + 1 := Array.size_push ..
  refine ⟨?_, ?_, ?_, ?_, ?_, ?_⟩
  · intro b
    rw [← h.count b]
    have hget : (bs.load u).2.get b = ((bs.store.push { unit := u })[b]?).getD default := rfl
    rw [hget, get, Array.getElem?_push]
    split
    · rename_i he
      subst he
      rw [Array.getElem?_eq_none (Nat.le_refl _)]
      rfl
    · rfl
  · intro b
    have hloaded : (bs.load u).2.loaded = bs.loaded ++ [bs.store.size] := rfl
    rw [hloaded, List.mem_append, h.listed b, List.mem_singleton, List.mem_cons]
    tauto
  · refine List.nodup_append.mpr ⟨h.nodup, List.nodup_singleton _, ?_⟩
    rintro b hb _ hb' rfl
    rw [List.mem_singleton] at hb'
    subst hb'
    exact ((h.listed _).mp hb).elim hnew hfresh
  · exact List.nodup_cons.mpr ⟨hfresh, h.distinct⟩
  · intro b hb
    rcases List.mem_cons.mp hb with rfl | hb
    · exact hnew
    · exact h.apart b hb
  · intro b hb
    rw [hsize]
    rcases List.mem_cons.mp hb with rfl | hb
    · exact Nat.lt_succ_self _
    · exact Nat.lt_succ_of_lt (h.stored b hb)

/-- A block that is referred to may be referred to once more. -/
theorem retain (h : bs.Accounted refs fresh) (hb : b ∈ refs) :
    (bs.retain b).Accounted (b :: refs) fresh where
  count j := by
    rw [refCount_retain (h.lt_size hb), h.count j, List.count_cons]
    split <;> simp_all
  listed j := by
    have hj : j = b → j ∈ refs := fun he => he ▸ hb
    rw [List.mem_cons, or_iff_right_of_imp hj]
    exact h.listed j
  nodup := h.nodup
  distinct := h.distinct
  apart j hj := by
    rw [List.mem_cons, not_or]
    exact ⟨fun he => h.apart j hj (he ▸ hb), h.apart j hj⟩
  stored j hj := (size_retain bs b).symm ▸ h.stored j hj

theorem run (h : bs.Accounted refs (b :: fresh)) : (bs.retain b).Accounted (b :: refs) fresh where
  count j := by
    rw [refCount_retain (h.stored b List.mem_cons_self), h.count j, List.count_cons]
    split <;> simp_all
  listed j := by
    have hj := h.listed j
    rw [List.mem_cons] at hj ⊢
    rw [or_assoc, or_left_comm]
    exact hj
  nodup := h.nodup
  distinct := (List.nodup_cons.mp h.distinct).2
  apart j hj := by
    rw [List.mem_cons, not_or]
    refine ⟨?_, h.apart j (List.mem_cons_of_mem _ hj)⟩
    rintro rfl
    exact (List.nodup_cons.mp h.distinct).1 hj
  stored j hj := (size_retain bs b).symm ▸ h.stored j (List.mem_cons_of_mem _ hj)

theorem release (h : bs.Accounted (b :: refs) fresh) : (bs.release b).Accounted refs fresh := by
  have hb : b < bs.store.size := h.lt_size List.mem_cons_self
  have hcount : (bs.get b).refCount = refs.count b + 1 := by
    rw [h.count b, List.count_cons_self]
    rfl
  have hnot : b ∉ fresh := fun hb => h.apart b hb List.mem_cons_self
  have hsize : (bs.release b).store.size = bs.store.size := by
    rw [Blocks.release]
    dsimp only
    split <;> exact Array.size_modify ..
  refine ⟨?_, ?_, ?_, h.distinct, ?_, ?_⟩
  · intro j
    rw [refCount_release hb, h.count j, List.count_cons]
    split <;> simp_all
  · intro j
    rw [loaded_release hb, hcount]
    by_cases hlast : b ∈ refs
    · have hpos := List.count_pos_iff.mpr hlast
      rw [if_pos (by omega), h.listed j, List.mem_cons]
      have hj : j = b → j ∈ refs := fun he => he ▸ hlast
      rw [or_iff_right_of_imp hj]
    · have hzero := List.count_eq_zero.mpr hlast
      rw [if_neg (by omega), h.nodup.mem_erase_iff, h.listed j, List.mem_cons]
      constructor
      · rintro ⟨hne, (rfl | hj) | hj⟩
        · exact absurd rfl hne
        · exact .inl hj
        · exact .inr hj
      · rintro (hj | hj)
        · exact ⟨fun he => hlast (he ▸ hj), .inl (.inr hj)⟩
        · exact ⟨fun he => hnot (he ▸ hj), .inr hj⟩
  · rw [loaded_release hb]
    split
    · exact h.nodup
    · exact h.nodup.erase b
  · exact fun j hj hrefs => h.apart j hj (List.mem_cons_of_mem _ hrefs)
  · exact fun j hj => hsize.symm ▸ h.stored j hj

end Accounted

end Blocks

/-- The blocks of activations that are in progress. -/
def active (hs : List Hold) : List BlockId := hs.filterMap Hold.block?

theorem mem_active {hs : List Hold} {b : BlockId} : b ∈ active hs ↔ ∃ h ∈ hs, h.block? = some b :=
  List.mem_filterMap

namespace Console

variable {base : Nat} {strict : Prop} {block : Option BlockId} {c c' : Console} {acts fresh : List BlockId}

/-- The blocks that entries refer to. -/
def declared (c : Console) : List BlockId :=
  c.spaces.entries.toList.filterMap fun e => blockOf? e.body

/-- A definition takes the place of what it is made over. -/
theorem declared_define (c : Console) (space : SpaceId) (name : Option Name) (body : EntryBody)
    (usage : Text) (minArgs maxArgs : Int) : ∃ rest : List BlockId,
      c.declared.Perm (((c.spaces.define space name body usage minArgs maxArgs).2.1.bind
        blockOf?).toList ++ rest) ∧
      (c.define space name body usage minArgs maxArgs).2.declared.Perm
        ((blockOf? body).toList ++ rest) := by
  have hcons (e : Entry) (es : List Entry) :
      (e :: es).filterMap (fun e => blockOf? e.body) =
        (blockOf? e.body).toList ++ es.filterMap fun e => blockOf? e.body := by
    rw [List.filterMap_cons]
    cases blockOf? e.body <;> rfl
  rw [declared, declared, Console.define, Namespaces.define]
  dsimp only
  split
  · rename_i i hi
    have hany := List.find?_some hi
    obtain ⟨e, he⟩ : ∃ e, c.spaces.entries[i]? = some e := by
      cases he : c.spaces.entries[i]? with
      | none =>
        rw [he] at hany
        cases hany
      | some e => exact ⟨e, rfl⟩
    obtain ⟨hlt, rfl⟩ := Array.getElem?_eq_some_iff.mp he
    refine ⟨(c.spaces.entries.toList.eraseIdx i).filterMap fun e => blockOf? e.body, ?_, ?_⟩
    · rw [he, Option.map_some, Option.bind_some, ← hcons]
      exact ((List.getElem_cons_eraseIdx_perm (l := c.spaces.entries.toList) hlt).filterMap _).symm
    · rw [← hcons ⟨space, name, body, _, minArgs, maxArgs, usage⟩]
      refine List.Perm.filterMap _ ?_
      dsimp only [Namespaces.outdate]
      rw [Array.toList_setIfInBounds]
      exact List.set_perm_cons_eraseIdx (l := c.spaces.entries.toList) hlt _
  · refine ⟨c.spaces.entries.toList.filterMap fun e => blockOf? e.body, .refl _, ?_⟩
    rw [← hcons ⟨space, name, body, _, minArgs, maxArgs, usage⟩]
    refine List.Perm.filterMap _ ?_
    dsimp only [Namespaces.outdate, Namespaces.modify]
    rw [Array.toList_push]
    exact List.perm_append_singleton _ _

theorem Change.accounted (h : Change base strict block c c') (held : ∀ b, block = some b → b ∈ acts)
    (hc : c.blocks.Accounted (c.declared ++ acts) fresh) :
    c'.blocks.Accounted (c'.declared ++ acts) fresh := by
  cases h with
  | elsewhere names scopes spaces objects blocks limit calls =>
    rw [declared, spaces, blocks]
    exact hc
  | scopes h tabled => exact hc
  | spaces h =>
    rw [declared] at hc ⊢
    rw [h.entries]
    exact hc
  | objects h => exact hc
  | define space name body usage minArgs maxArgs own =>
    obtain ⟨rest, hold, hnew⟩ := c.declared_define space name body usage minArgs maxArgs
    have hc := hc.perm (hold.append_right acts) (.refl _)
    refine Blocks.Accounted.perm ?_ (hnew.append_right acts).symm (.refl _)
    rw [Console.define]
    dsimp only
    have hown (b : BlockId) (hbody : blockOf? body = some b) : b ∈ rest ++ acts :=
      List.mem_append_right rest (held b (own b hbody))
    cases hgone : (c.spaces.define space name body usage minArgs maxArgs).2.1.bind blockOf? with
    | none =>
      rw [hgone] at hc
      cases hbody : blockOf? body with
      | none => exact hc
      | some b => exact hc.retain (hown b hbody)
    | some replaced =>
      rw [hgone] at hc
      cases hbody : blockOf? body with
      | none => exact hc.release
      | some b => exact hc.release.retain (hown b hbody)

theorem Changes.accounted (h : Changes base strict block c c') (held : ∀ b, block = some b → b ∈ acts)
    (hc : c.blocks.Accounted (c.declared ++ acts) fresh) :
    c'.blocks.Accounted (c'.declared ++ acts) fresh := by
  induction h with
  | refl => exact hc
  | tail _ hchange ih => exact hchange.accounted held ih

theorem SameSetting.accounted (h : SameSetting c c')
    (hc : c.blocks.Accounted (c.declared ++ acts) fresh) :
    c'.blocks.Accounted (c'.declared ++ acts) fresh := by
  rw [declared] at hc ⊢
  rw [h.entries, h.blocks]
  exact hc

end Console

open Console

/-- The references at a stage, and the blocks that are yet to run, are accounted for. -/
def Stage.Accounted (s : Stage) (unrun : List BlockId) : Prop :=
  s.console.blocks.Accounted (s.console.declared ++ active s.holds) (s.awaits.toList ++ unrun)

theorem Move.accounted {base : Nat} {strict : Prop} {s s' : Stage} {unrun : List BlockId}
    (h : Move base strict s s') (hs : s.Accounted unrun) : s'.Accounted unrun := by
  rw [Stage.Accounted] at hs ⊢
  cases h with
  | change block held h => exact h.accounted (fun b hb => mem_active.mpr (held b hb)) hs
  | command h => exact h.accounted (by rintro _ ⟨⟩) hs
  | answer h => exact h.accounted (by rintro _ ⟨⟩) hs
  | @enter holds c b e entry body limit =>
    have hb : b ∈ c.declared ++ active holds :=
      List.mem_append_left _ (List.mem_filterMap.mpr ⟨e, Array.mem_def.mp entry, body⟩)
    exact (hs.retain hb).perm List.perm_middle.symm (.refl _)
  | leave => exact (hs.perm List.perm_middle (.refl _)).release
  | hold below => exact hs.run.perm List.perm_middle.symm (.refl _)
  | drop => exact (hs.perm List.perm_middle (.refl _)).release
  | load u h => exact (h.accounted (by rintro _ ⟨⟩) hs).load u
  | publish made fresh => exact (sameSetting_publish _ _).accounted hs
  | withdraw r => exact (sameSetting_withdraw _ r).accounted hs
  | push | share | pop | place | detach | orphan => exact hs

namespace Session

variable {strict : Prop} {s : Session}

theorem invariant_accounted (strict : Prop) :
    Invariant strict fun s _ unrun => s.Accounted unrun where
  start _ _ _ := ⟨fun _ => rfl, fun _ => (or_self_iff ..).symm, .nil, .nil, by rintro _ ⟨⟩, by rintro _ ⟨⟩⟩
  move h hmove := hmove.accounted h
  scopes _ _ h := h
  link h hlinks := hlinks.sameSetting.accounted h
  load u h := h.load u
  exec hb h := h.perm (.refl _) (List.perm_cons_erase hb)

/-- At every point of every session the count of each block is the number of the entries that refer to
it and of its activations, the blocks that are loaded are those with a count and those that are yet to
run, and each entry refers to one of them. -/
theorem blocks_accounted (hs : s.Reachable strict) :
    (∀ b, (s.console.blocks.get b).refCount =
      s.console.declared.count b + (active (holds s.process.stack)).count b) ∧
    (∀ b, 0 ≤ (s.console.blocks.get b).refCount) ∧ s.console.blocks.loaded.Nodup ∧
    (∀ b, b ∈ s.console.blocks.loaded ↔ 0 < (s.console.blocks.get b).refCount ∨
      s.process.focus.awaits = some b ∨ b ∈ s.unrun) ∧
    ∀ e ∈ s.console.spaces.entries, ∀ b, blockOf? e.body = some b →
      b ∈ s.console.blocks.loaded := by
  have h : s.console.blocks.Accounted (s.console.declared ++ active (holds s.process.stack))
      (s.process.focus.awaits.toList ++ s.unrun) := (invariant_accounted strict).holds hs
  refine ⟨?_, ?_, h.nodup, ?_, ?_⟩
  · intro b
    rw [← Int.natCast_add, ← List.count_append]
    exact h.count b
  · exact fun b => h.count b ▸ Int.natCast_nonneg _
  · intro b
    rw [h.listed b, h.count b, Int.natCast_pos, List.count_pos_iff, List.mem_append (s := Option.toList _),
      Option.mem_toList]
  · intro e he b hb
    refine (h.listed b).mpr (.inl (List.mem_append_left _ ?_))
    exact List.mem_filterMap.mpr ⟨e, Array.mem_def.mp he, hb⟩

/-- A function evaluates a text that evaluates another one, while the first block is yet to run. -/
theorem blocks_accounted_nested :
    let c := equipped 0 1 0
      [.command "eval" .text .evalText "" 1 1, .plain "backtrace" .void .backtrace "" 0 0]
    let source := Text.ofString "function f() \x7b eval(\"eval(\\\"backtrace();\\\");\"); \x7d f();"
    let p := Process.runFor 30 ⟨.start (.eval source "nested.cs"), [], (c.load default).2⟩
    (p.console.declared.count 1 = 1 ∧ (active (holds p.stack)).count 1 = 2) ∧
      (p.console.blocks.get 1).refCount = 3 ∧ (c.load default).1 ∈ p.console.blocks.loaded := by
  intro c source p
  have hload (c : Console) (h : Comes False c) :
      ∃ links, Reachable False ⟨.rest (c.load default).2, links, [(c.load default).1]⟩ :=
    h.imp fun _ h => h.step (.load rfl default)
  have hat (b : BlockId) (p : Process) (hs : ∃ links, Reachable False ⟨p, links, [b]⟩)
      (hcounts : p.console.declared.count 1 = 1 ∧ (active (holds p.stack)).count 1 = 2) :
      (p.console.declared.count 1 = 1 ∧ (active (holds p.stack)).count 1 = 2) ∧
        (p.console.blocks.get 1).refCount = 3 ∧ b ∈ p.console.blocks.loaded := by
    obtain ⟨links, hs⟩ := hs
    obtain ⟨hcount, -, -, hloaded, -⟩ := blocks_accounted hs
    refine ⟨hcounts, ?_, (hloaded b).mpr (.inr (.inr (List.mem_singleton.mpr rfl)))⟩
    rw [hcount 1, hcounts.1, hcounts.2]
    rfl
  exact hat _ p ((hload _ (comes_equipped 0 1 0 _)).imp fun _ h => h.eval _ _ 30) (by decide +kernel)

end Session

end ConsoleScript
