import ConsoleScript.Console.Namespace
import Mathlib.Data.List.Nodup
import Mathlib.Logic.Relation

/-!
# Histories of namespaces

Namespaces change by seven operations: asking for one, registering an entry, linking to a parent
and taking that back, activating and deactivating a package, and looking a name up, which may build
a table. `Step` is one such operation and `Reachable` what any number of them leads to, starting
with nothing but an arena for the tables.

A namespace is known by its name and its package. No operation ever changes them, so what is found
under a key stays there.
-/

namespace ConsoleScript

/-- A namespace without its place among layers. -/
def Namespace.core (n : Namespace) : Namespace := { n with layers := [], base := none }

theorem core_name {n n' : Namespace} (h : n.core = n'.core) : n.name = n'.name := by
  simpa [Namespace.core] using congrArg Namespace.name h

theorem core_package {n n' : Namespace} (h : n.core = n'.core) : n.package = n'.package := by
  simpa [Namespace.core] using congrArg Namespace.package h

theorem core_parent {n n' : Namespace} (h : n.core = n'.core) : n.parent = n'.parent := by
  simpa [Namespace.core] using congrArg Namespace.parent h

theorem core_entries {n n' : Namespace} (h : n.core = n'.core) : n.entries = n'.entries := by
  simpa [Namespace.core] using congrArg Namespace.entries h

/-- A namespace's key and its place among layers. -/
def Namespace.place (n : Namespace) : Option Name × Option Name × List SpaceId × Option SpaceId :=
  (n.name, n.package, n.layers, n.base)

namespace Namespaces

variable {s s' : Namespaces} {id i j : SpaceId} {f : Namespace → Namespace}
  {name package : Option Name}

/-! ## Reading after a change -/

@[simp] theorem size_modify : (s.modify id f).spaces.size = s.spaces.size := by
  simp [modify]

@[simp] theorem entries_modify : (s.modify id f).entries = s.entries := rfl

@[simp] theorem active_modify : (s.modify id f).active = s.active := rfl

@[simp] theorem stamp_modify : (s.modify id f).stamp = s.stamp := rfl

@[simp] theorem arena_modify : (s.modify id f).arena = s.arena := rfl

theorem space_of_le (h : s.spaces.size ≤ i) : s.space i = {} := by
  simp [space, Array.getElem?_eq_none h]

theorem space_modify_self (h : id < s.spaces.size) :
    (s.modify id f).space id = f (s.space id) := by
  rw [space, space, modify, Array.getElem?_modify, if_pos rfl, Array.getElem?_eq_getElem h]
  rfl

theorem space_modify_ne (h : i ≠ id) : (s.modify id f).space i = s.space i := by
  simp [space, modify, Array.getElem?_modify, Ne.symm h]

@[simp] theorem space_outdate : s.outdate.space i = s.space i := rfl

@[simp] theorem size_outdate : s.outdate.spaces.size = s.spaces.size := rfl

@[simp] theorem entries_outdate : s.outdate.entries = s.entries := rfl

@[simp] theorem active_outdate : s.outdate.active = s.active := rfl

@[simp] theorem stamp_outdate : s.outdate.stamp = s.stamp + 1 := rfl

@[simp] theorem size_push : (s.push name package).2.spaces.size = s.spaces.size + 1 := by
  simp [push]

theorem space_push_self :
    (s.push name package).2.space s.spaces.size = { name := name, package := package } := by
  simp [space, push]

theorem space_push_ne (h : i ≠ s.spaces.size) : (s.push name package).2.space i = s.space i := by
  simp [space, push, Array.getElem?_push, h]

/-- A property of namespaces that a change of one of them keeps, it keeps of all. -/
theorem space_modify_rec (P : SpaceId → Namespace → Prop) (h : ∀ i, P i (s.space i))
    (hf : id < s.spaces.size → P id (f (s.space id))) (i : SpaceId) :
    P i ((s.modify id f).space i) := by
  by_cases hi : i = id
  · subst hi
    by_cases hlt : i < s.spaces.size
    · rw [space_modify_self hlt]
      exact hf hlt
    · have he : (s.modify i f).space i = s.space i := by
        rw [space_of_le (by simpa using hlt), space_of_le (by simpa using hlt)]
      rw [he]
      exact h i
  · rw [space_modify_ne hi]
    exact h i

theorem space_modify_same {β : Type} (g : Namespace → β) (hg : ∀ n, g (f n) = g n) (i : SpaceId) :
    g ((s.modify id f).space i) = g (s.space i) := by
  refine space_modify_rec (fun i n => g n = g (s.space i)) (fun _ => rfl) ?_ i
  intro _
  exact hg _

/-! ## Keys -/

def Distinct (s : Namespaces) : Prop :=
  ∀ i j, i < s.spaces.size → j < s.spaces.size → (s.space i).name = (s.space j).name →
    (s.space i).package = (s.space j).package → i = j

theorem space_eq_getElem (h : i < s.spaces.size) : s.space i = s.spaces[i] := by
  simp [space, h]

theorem find?_eq_none_iff : s.find? name package = none ↔
    ∀ i < s.spaces.size, ¬ ((s.space i).name = name ∧ (s.space i).package = package) := by
  rw [find?, Array.findIdx?_eq_none_iff]
  constructor
  · intro h i hi hkey
    have := h s.spaces[i] (Array.getElem_mem hi)
    rw [space_eq_getElem hi] at hkey
    simp [hkey.1, hkey.2] at this
  · intro h n hn
    obtain ⟨i, hi, rfl⟩ := Array.getElem_of_mem hn
    have := h i hi
    rw [space_eq_getElem hi] at this
    simpa using this

theorem find?_some (h : s.find? name package = some i) :
    i < s.spaces.size ∧ (s.space i).name = name ∧ (s.space i).package = package := by
  rw [find?, Array.findIdx?_eq_some_iff_getElem] at h
  obtain ⟨hi, hkey, -⟩ := h
  rw [space_eq_getElem hi]
  simpa using And.intro hi hkey

theorem find?_eq_some_iff (hd : s.Distinct) : s.find? name package = some i ↔
    i < s.spaces.size ∧ (s.space i).name = name ∧ (s.space i).package = package := by
  constructor
  · exact find?_some
  · rintro ⟨hi, hname, hpackage⟩
    cases hfind : s.find? name package with
    | none => exact absurd ⟨hname, hpackage⟩ (find?_eq_none_iff.mp hfind i hi)
    | some j =>
      obtain ⟨hj, hname', hpackage'⟩ := find?_some hfind
      rw [hd i j hi hj (hname.trans hname'.symm) (hpackage.trans hpackage'.symm)]

/-! ## What packages leave alone -/

/-- Namespaces were added and layers changed, and nothing else did. A table can only stay in use
when the layers did not change either. -/
structure Grows (s s' : Namespaces) : Prop where
  size : s.spaces.size ≤ s'.spaces.size
  entries : s'.entries = s.entries
  old : ∀ i < s.spaces.size, (s'.space i).core = (s.space i).core
  new : ∀ i, s.spaces.size ≤ i →
    ∃ name package, (s'.space i).core = { name := name, package := package }
  stamp : s.stamp ≤ s'.stamp
  still : s'.stamp = s.stamp →
    s'.arena = s.arena ∧ ∀ i < s.spaces.size, (s'.space i).layers = (s.space i).layers
  moved : s.stamp < s'.stamp → s'.arena = s.arena.reset

theorem Grows.refl (s : Namespaces) : Grows s s where
  size := Nat.le_refl _
  entries := rfl
  old _ _ := rfl
  new i hi := ⟨none, none, by rw [space_of_le hi]; rfl⟩
  stamp := Nat.le_refl _
  still _ := ⟨rfl, fun _ _ => rfl⟩
  moved h := absurd h (Nat.lt_irrefl _)

theorem Grows.trans {s₁ s₂ s₃ : Namespaces} (h : Grows s₁ s₂) (h' : Grows s₂ s₃) : Grows s₁ s₃ where
  size := Nat.le_trans h.size h'.size
  entries := h'.entries.trans h.entries
  old i hi := (h'.old i (Nat.lt_of_lt_of_le hi h.size)).trans (h.old i hi)
  new i hi := by
    by_cases hlt : i < s₂.spaces.size
    · rw [h'.old i hlt]
      exact h.new i hi
    · exact h'.new i (Nat.le_of_not_lt hlt)
  stamp := Nat.le_trans h.stamp h'.stamp
  still he := by
    have h₁ := h.stamp
    have h₂ := h'.stamp
    obtain ⟨harena, hlayers⟩ := h.still (by omega)
    obtain ⟨harena', hlayers'⟩ := h'.still (by omega)
    refine ⟨harena'.trans harena, ?_⟩
    intro i hi
    rw [hlayers' i (Nat.lt_of_lt_of_le hi h.size), hlayers i hi]
  moved hlt := by
    rcases Nat.eq_or_lt_of_le h.stamp with he | hlt'
    · rw [h'.moved (by omega), (h.still he.symm).1]
    · rcases Nat.eq_or_lt_of_le h'.stamp with he' | hlt''
      · rw [(h'.still he'.symm).1, h.moved hlt']
      · rw [h'.moved hlt'', h.moved hlt']
        rfl

theorem Grows.foldl {α : Type} (g : Namespaces → α → Namespaces) (hg : ∀ s a, Grows s (g s a))
    (as : List α) (s : Namespaces) : Grows s (as.foldl g s) := by
  induction as generalizing s with
  | nil => exact Grows.refl s
  | cons a as ih => exact (hg s a).trans (ih _)

theorem grows_push : Grows s (s.push name package).2 where
  size := by simp
  entries := rfl
  old i hi := by rw [space_push_ne (Nat.ne_of_lt hi)]
  new i hi := by
    by_cases he : i = s.spaces.size
    · subst he
      exact ⟨name, package, by rw [space_push_self]; rfl⟩
    · exact ⟨none, none, by rw [space_push_ne he, space_of_le hi]; rfl⟩
  stamp := Nat.le_refl _
  still _ := ⟨rfl, fun i hi => by rw [space_push_ne (Nat.ne_of_lt hi)]⟩
  moved h := absurd h (Nat.lt_irrefl _)

theorem grows_obtainBase : Grows s (s.obtainBase name).2 := by
  unfold obtainBase
  split
  · exact Grows.refl s
  · exact grows_push

/-- Layers may change as long as every table is outdated. -/
theorem grows_of_core (hsize : s'.spaces.size = s.spaces.size) (hentries : s'.entries = s.entries)
    (hcore : ∀ i, (s'.space i).core = (s.space i).core) (hstamp : s'.stamp = s.stamp)
    (harena : s'.arena = s.arena) : Grows s s'.outdate where
  size := by simp [hsize]
  entries := hentries
  old i _ := hcore i
  new i hi := ⟨none, none, by rw [space_outdate, hcore, space_of_le hi]; rfl⟩
  stamp := by simp [hstamp]
  still h := by simp [hstamp] at h
  moved _ := by rw [outdate, harena]

/-- The layers of a base with another one put in its place. -/
def inserted (s : Namespaces) (id : SpaceId) (layers : List SpaceId) : List SpaceId :=
  let below (l : SpaceId) : Bool := s.rank (s.space l).package ≤ s.rank (s.space id).package
  layers.takeWhile below ++ id :: layers.dropWhile below

theorem layer_eq {b : SpaceId} (h : s.obtainBase (s.space id).name = (b, s')) :
    s.layer id = ((s'.modify b fun n => { n with layers := s'.inserted id n.layers }).modify id
      fun n => { n with base := some b }).outdate := by
  rw [layer, h]
  rfl

theorem core_reattach (b id : SpaceId) (g : List SpaceId → List SpaceId) (base : Option SpaceId)
    (i : SpaceId) : (((s.modify b fun n => { n with layers := g n.layers }).modify id
      fun n => { n with base := base }).space i).core = (s.space i).core := by
  have hlayers (n : Namespace) : Namespace.core { n with layers := g n.layers } = n.core := rfl
  have hbase (n : Namespace) : Namespace.core { n with base := base } = n.core := rfl
  rw [space_modify_same Namespace.core hbase, space_modify_same Namespace.core hlayers]

theorem core_layer {b : SpaceId} (h : s.obtainBase (s.space id).name = (b, s')) (i : SpaceId) :
    ((s.layer id).space i).core = (s'.space i).core := by
  rw [layer_eq h, space_outdate, core_reattach]

theorem grows_obtainBase_eq {b : SpaceId} (h : s.obtainBase name = (b, s')) : Grows s s' := by
  have hgrows : Grows s (s.obtainBase name).2 := grows_obtainBase
  rwa [h] at hgrows

theorem grows_layer : Grows s (s.layer id) := by
  rcases hbase : s.obtainBase (s.space id).name with ⟨b, s₁⟩
  refine (grows_obtainBase_eq hbase).trans ?_
  rw [layer_eq hbase]
  exact grows_of_core (by simp) rfl (core_reattach b id _ _) rfl rfl

theorem grows_unlayer : Grows s (s.unlayer id) := by
  unfold unlayer
  cases (s.space id).base with
  | none => exact Grows.refl s
  | some b => exact grows_of_core (by simp) rfl (core_reattach b id (·.erase id) none) rfl rfl

theorem grows_obtain : Grows s (s.obtain name package).2 := by
  unfold obtain
  split
  · exact Grows.refl s
  · cases package with
    | none => exact grows_push
    | some p =>
      dsimp only
      split
      · exact grows_push.trans grows_layer
      · exact grows_push

theorem grows_active (active : List Name) : Grows s { s with active := active } where
  size := Nat.le_refl _
  entries := rfl
  old _ _ := rfl
  new := (Grows.refl s).new
  stamp := Nat.le_refl _
  still _ := ⟨rfl, fun _ _ => rfl⟩
  moved h := absurd h (Nat.lt_irrefl _)

theorem grows_activateOne (p : Name) : Grows s (s.activateOne p) :=
  (grows_active _).trans (Grows.foldl layer (fun _ _ => grows_layer) _ _)

theorem grows_unlayerAll (p : Name) : Grows s (s.unlayerAll p) :=
  Grows.foldl unlayer (fun _ _ => grows_unlayer) _ _

theorem grows_activate : Grows s (s.activate package).2 := by
  cases package with
  | none => exact Grows.refl s
  | some p =>
    simp only [activate]
    split
    · exact Grows.refl s
    · split
      · exact Grows.refl s
      · exact grows_activateOne p

theorem grows_deactivate : Grows s (s.deactivate package).2 := by
  cases package with
  | none => exact Grows.refl s
  | some p =>
    simp only [deactivate]
    split
    · exact Grows.refl s
    · have hunlayer := Grows.foldl unlayerAll (fun _ p => grows_unlayerAll p)
        (s.active.drop (s.active.idxOf p)).reverse s
      have hactivate := Grows.foldl activateOne (fun _ p => grows_activateOne p)
        (s.active.drop (s.active.idxOf p + 1))
      exact ((hunlayer.trans (grows_active _)).trans (hactivate _)).trans
        (grows_of_core rfl rfl (fun _ => rfl) rfl rfl)

/-! ## What the other operations leave alone -/

section Frame

variable {body : EntryBody} {usage : Text} {minArgs maxArgs : Int} {parent : SpaceId}
  {e : Option EntryId}

theorem size_define :
    (s.define id name body usage minArgs maxArgs).2.2.spaces.size = s.spaces.size := by
  unfold define
  split <;> simp

theorem active_define : (s.define id name body usage minArgs maxArgs).2.2.active = s.active := by
  unfold define
  split <;> rfl

/-- An entry that is there after a definition was there before, or is the one that was made. -/
theorem mem_entries_define {name : Option Name} {body : EntryBody} {usage : Text}
    {minArgs maxArgs : Int} {e : Entry}
    (h : e ∈ (s.define id name body usage minArgs maxArgs).2.2.entries) :
    e ∈ s.entries ∨ e.name = name ∧ e.body = body := by
  rw [define] at h
  dsimp only at h
  split at h
  · rw [entries_outdate] at h
    obtain h | rfl := Array.mem_or_eq_of_mem_setIfInBounds h
    · exact .inl h
    · exact .inr ⟨rfl, rfl⟩
  · rw [entries_outdate] at h
    obtain h | rfl := Array.mem_push.mp h
    · exact .inl h
    · exact .inr ⟨rfl, rfl⟩

theorem place_define (i : SpaceId) :
    ((s.define id name body usage minArgs maxArgs).2.2.space i).place = (s.space i).place := by
  unfold define
  split
  · rfl
  · have hkeep (n : Namespace) :
      Namespace.place { n with entries := s.entries.size :: n.entries } = n.place := rfl
    exact space_modify_same Namespace.place hkeep i

theorem size_link : (s.link id parent).2.spaces.size = s.spaces.size := by
  unfold link
  split <;> split <;> simp

theorem active_link : (s.link id parent).2.active = s.active := by
  unfold link
  split <;> split <;> rfl

theorem place_link (i : SpaceId) : ((s.link id parent).2.space i).place = (s.space i).place := by
  have hcount (n : Namespace) : Namespace.place { n with linkCount := n.linkCount + 1 } = n.place :=
    rfl
  have hparent (n : Namespace) :
    Namespace.place { n with parent := some parent, linkCount := 1 } = n.place := rfl
  unfold link
  split
  · split
    · exact space_modify_same Namespace.place hcount i
    · rfl
  · split
    · rfl
    · exact space_modify_same Namespace.place hparent i

theorem size_unlink : (s.unlink id parent).2.spaces.size = s.spaces.size := by
  unfold unlink
  split
  · rfl
  · dsimp only
    split <;> simp

theorem active_unlink : (s.unlink id parent).2.active = s.active := by
  unfold unlink
  split
  · rfl
  · dsimp only
    split <;> rfl

theorem place_unlink (i : SpaceId) :
    ((s.unlink id parent).2.space i).place = (s.space i).place := by
  have hcount (n : Namespace) :
    Namespace.place { n with linkCount := (s.space id).linkCount - 1 } = n.place := rfl
  have hparent (n : Namespace) : Namespace.place { n with parent := none } = n.place := rfl
  unfold unlink
  split
  · rfl
  · dsimp only
    split
    · rw [space_outdate, space_modify_same Namespace.place hparent,
        space_modify_same Namespace.place hcount]
    · exact space_modify_same Namespace.place hcount i

theorem refresh_eq_ok (h : s.refresh id = .ok s') :
    s' = s ∨ ∃ table arena, s.buildTable id = .ok (table, arena) ∧
      s' = { s with arena := arena }.modify id fun n =>
        { n with cache := some table, cacheStamp := s.stamp } := by
  unfold refresh at h
  dsimp only at h
  split at h
  · cases h
    exact .inl rfl
  · cases hbuild : s.buildTable id with
    | error f =>
      rw [hbuild] at h
      cases h
    | ok built =>
      rw [hbuild] at h
      cases h
      exact .inr ⟨built.1, built.2, rfl, rfl⟩

theorem lookup_of_refresh {n : Name} (h : s.refresh id = .ok s') :
    s.lookup id (some n) = match (s'.space id).cache with
      | none => .ok (none, s')
      | some table => (findIn s'.entries s'.arena table n).map fun e => (e, s') := by
  unfold lookup
  rw [h]
  show (match (s'.space id).cache with
    | none => pure (none, s')
    | some table => do return (← findIn s'.entries s'.arena table n, s')) = _
  cases (s'.space id).cache with
  | none => rfl
  | some table =>
    dsimp only
    cases findIn s'.entries s'.arena table n <;> rfl

theorem lookup_eq_ok (h : s.lookup id name = .ok (e, s')) :
    s' = s ∨ ∃ table arena, s.buildTable id = .ok (table, arena) ∧
      s' = { s with arena := arena }.modify id fun n =>
        { n with cache := some table, cacheStamp := s.stamp } := by
  cases name with
  | none =>
    cases h
    exact .inl rfl
  | some name =>
    apply refresh_eq_ok
    cases hrefresh : s.refresh id with
    | error f =>
      unfold lookup at h
      rw [hrefresh] at h
      cases h
    | ok s₁ =>
      rw [lookup_of_refresh hrefresh] at h
      split at h
      · cases h
        rfl
      · next table _ =>
        cases hfind : findIn s₁.entries s₁.arena table name with
        | error f =>
          rw [hfind] at h
          cases h
        | ok found =>
          rw [hfind] at h
          cases h
          rfl

theorem size_lookup (h : s.lookup id name = .ok (e, s')) : s'.spaces.size = s.spaces.size := by
  obtain rfl | ⟨table, arena, -, rfl⟩ := lookup_eq_ok h
  · rfl
  · simp

theorem active_lookup (h : s.lookup id name = .ok (e, s')) : s'.active = s.active := by
  obtain rfl | ⟨table, arena, -, rfl⟩ := lookup_eq_ok h <;> rfl

theorem place_lookup (h : s.lookup id name = .ok (e, s')) (i : SpaceId) :
    (s'.space i).place = (s.space i).place := by
  obtain rfl | ⟨table, arena, -, rfl⟩ := lookup_eq_ok h
  · rfl
  · have hkeep (n : Namespace) :
      Namespace.place { n with cache := some table, cacheStamp := s.stamp } = n.place := rfl
    exact space_modify_same Namespace.place hkeep i

end Frame

/-! ## Histories -/

inductive Step : Namespaces → Namespaces → Prop where
  | obtain (s : Namespaces) (name package : Option Name) : Step s (s.obtain name package).2
  | define {s : Namespaces} {id : SpaceId} (h : id < s.spaces.size) (name : Option Name)
      (body : EntryBody) (usage : Text) (minArgs maxArgs : Int) :
      Step s (s.define id name body usage minArgs maxArgs).2.2
  | link {s : Namespaces} {id parent : SpaceId} (h : id < s.spaces.size)
      (hp : parent < s.spaces.size) : Step s (s.link id parent).2
  | unlink {s : Namespaces} {id : SpaceId} (h : id < s.spaces.size) (parent : SpaceId) :
      Step s (s.unlink id parent).2
  | activate (s : Namespaces) (package : Option Name) : Step s (s.activate package).2
  | deactivate (s : Namespaces) (package : Option Name) : Step s (s.deactivate package).2
  | lookup {s s' : Namespaces} {id : SpaceId} {name : Option Name} {e : Option EntryId}
      (h : id < s.spaces.size) (found : s.lookup id name = .ok (e, s')) : Step s s'

/-- No namespaces, and an arena for tables with shared blocks of `size` places. -/
def start (size : Nat) : Namespaces := { arena := { size := size } }

/-- What operations lead to. -/
def Reachable (size : Nat) : Namespaces → Prop := Relation.ReflTransGen Step (start size)

/-- An invariant holds in every history when it holds at the start and every operation keeps it. -/
theorem Reachable.invariant {size : Nat} {P : Namespaces → Prop} (hstart : P (start size))
    (hstep : ∀ {s s'}, P s → Step s s' → P s') (h : Reachable size s) : P s := by
  induction h with
  | refl => exact hstart
  | tail _ hlast ih => exact hstep ih hlast

end Namespaces
end ConsoleScript
