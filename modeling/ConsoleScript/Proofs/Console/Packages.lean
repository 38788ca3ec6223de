import ConsoleScript.Proofs.Console.Layers

/-!
# Activating and deactivating packages

The stack of active packages and what was declared decide which overlays a look-up meets. So two
histories that differ in the activation of one package agree again once that package is
deactivated.
-/

namespace ConsoleScript.Namespaces

variable {s s' : Namespaces} {id i b : SpaceId} {name package : Option Name} {p q : Name}

inductive PackageOp where
  | declare (name package : Option Name)
  | activate (package : Option Name)
  | deactivate (package : Option Name)

def perform (s : Namespaces) : PackageOp → Namespaces
  | .declare name package => (s.obtain name package).2
  | .activate package => (s.activate package).2
  | .deactivate package => (s.deactivate package).2

def performAll (s : Namespaces) (history : List PackageOp) : Namespaces := history.foldl perform s

/-- The names and packages of the layers that the base of a name has. -/
def layerKeys (s : Namespaces) (name : Option Name) : List (Option Name × Option Name) :=
  match s.find? name none with
  | some b => (s.space b).layers.map fun l => ((s.space l).name, (s.space l).package)
  | none => []

theorem grows_performAll (history : List PackageOp) : Grows s (s.performAll history) := by
  apply Grows.foldl
  intro s op
  cases op with
  | declare name package => exact grows_obtain
  | activate package => exact grows_activate
  | deactivate package => exact grows_deactivate

theorem Stacked.perform (h : Stacked s) (op : PackageOp) : Stacked (s.perform op) := by
  cases op with
  | declare name package => exact h.obtain
  | activate package => exact h.activate
  | deactivate package =>
    cases package with
    | none => exact h
    | some p => exact (h.deactivate p).1

theorem Stacked.performAll (h : Stacked s) (history : List PackageOp) :
    Stacked (s.performAll history) := by
  induction history generalizing s with
  | nil => exact h
  | cons op history ih => exact ih (h.perform op)

theorem keys_overlaysIn (name : Option Name) (ps : List Name) :
    (s.overlaysIn name ps).map (fun l => ((s.space l).name, (s.space l).package)) =
      (ps.filter fun p => (s.find? name (some p)).isSome).map fun p => (name, some p) := by
  induction ps with
  | nil => rfl
  | cons p ps ih =>
    simp only [overlaysIn, List.filterMap_cons, List.filter_cons] at ih ⊢
    cases hfind : s.find? name (some p) with
    | none => exact ih
    | some i =>
      obtain ⟨-, hname, hpackage⟩ := find?_some hfind
      rw [Option.isSome_some, if_pos rfl, List.map_cons, List.map_cons, ih, hname, hpackage]

theorem Stacked.layers_eq (h : Stacked s) (hb : b < s.spaces.size)
    (hpackage : (s.space b).package = none) :
    (s.space b).layers = s.overlaysIn (s.space b).name s.active := by
  rw [h.layers b hb hpackage, List.filter_eq_self]
  intro i hi
  exact covered_eq_true.mpr ((mem_overlaysIn h.distinct).mp hi).2.2

/-- What is layered onto the base of a name depends on the stack and on what was declared. -/
theorem Stacked.layerKeys_eq (h : Stacked s) (name : Option Name) : s.layerKeys name =
    (s.active.filter fun p => (s.find? name (some p)).isSome).map fun p => (name, some p) := by
  unfold layerKeys
  cases hfind : s.find? name none with
  | some b =>
    obtain ⟨hb, rfl, hpackage⟩ := find?_some hfind
    dsimp only
    rw [h.layers_eq hb hpackage, keys_overlaysIn]
  | none =>
    have hnil : (s.active.filter fun p => (s.find? name (some p)).isSome) = [] := by
      rw [List.filter_eq_nil_iff]
      intro p hp hsome
      obtain ⟨i, hi⟩ := Option.isSome_iff_exists.mp hsome
      obtain ⟨-, hname, hpackage⟩ := find?_some hi
      obtain ⟨-, -, b, hbase, -⟩ := h.based i (covered_eq_true.mpr ⟨p, hp, hpackage⟩)
      rw [hname, hfind] at hbase
      cases hbase
    rw [hnil]
    rfl

theorem isSome_find? : (s.find? name package).isSome = true ↔
    ∃ i < s.spaces.size, (s.space i).name = name ∧ (s.space i).package = package := by
  rw [← Option.ne_none_iff_isSome, Ne, find?_eq_none_iff]
  simp only [Classical.not_forall, Classical.not_not, exists_prop]

theorem isPackage_iff :
    s.isPackage p = true ↔ ∃ i < s.spaces.size, (s.space i).package = some p := by
  rw [isPackage, Array.any_eq_true]
  constructor
  · rintro ⟨i, hi, hp⟩
    exact ⟨i, hi, by rwa [beq_iff_eq, ← space_eq_getElem hi] at hp⟩
  · rintro ⟨i, hi, hp⟩
    exact ⟨i, hi, by rwa [beq_iff_eq, ← space_eq_getElem hi]⟩

theorem isPackage_iff_declared :
    s.isPackage p = true ↔ ∃ name, (s.find? name (some p)).isSome = true := by
  simp only [isSome_find?, isPackage_iff]
  constructor
  · rintro ⟨i, hi, hp⟩
    exact ⟨_, i, hi, rfl, hp⟩
  · rintro ⟨-, i, hi, -, hp⟩
    exact ⟨i, hi, hp⟩

theorem AddsBases.declared (h : AddsBases s s') (name : Option Name) (p : Name) :
    (s'.find? name (some p)).isSome = (s.find? name (some p)).isSome := by
  rw [Bool.eq_iff_iff, isSome_find?, isSome_find?]
  constructor
  · rintro ⟨i, -, hname, hpackage⟩
    by_cases hi : i < s.spaces.size
    · rw [core_name (h.grows.old i hi)] at hname
      rw [core_package (h.grows.old i hi)] at hpackage
      exact ⟨i, hi, hname, hpackage⟩
    · rw [h.bases i (Nat.le_of_not_lt hi)] at hpackage
      cases hpackage
  · rintro ⟨i, hi, hname, hpackage⟩
    rw [← core_name (h.grows.old i hi)] at hname
    rw [← core_package (h.grows.old i hi)] at hpackage
    exact ⟨i, Nat.lt_of_lt_of_le hi h.grows.size, hname, hpackage⟩

theorem addsBases_active (active : List Name) : AddsBases s { s with active := active } :=
  ⟨grows_active active, (AddsBases.refl s).bases⟩

theorem addsBases_activateOne : AddsBases s (s.activateOne p) :=
  (addsBases_active _).trans (addsBases_layers _)

theorem addsBases_unlayer : AddsBases s (s.unlayer id) :=
  ⟨grows_unlayer, fun i hi => by rw [sameKeys_unlayer.package, space_of_le hi]⟩

theorem addsBases_activate : AddsBases s (s.activate package).2 := by
  cases package with
  | none => exact AddsBases.refl s
  | some p =>
    unfold activate
    dsimp only
    split
    · exact AddsBases.refl s
    · split
      · exact AddsBases.refl s
      · exact addsBases_activateOne

theorem addsBases_deactivate : AddsBases s (s.deactivate package).2 := by
  cases package with
  | none => exact AddsBases.refl s
  | some p =>
    unfold deactivate
    dsimp only
    split
    · exact AddsBases.refl s
    · have hunlayer (ps : List Name) : AddsBases s (ps.foldl unlayerAll s) :=
        AddsBases.foldl unlayerAll
          (fun _ _ => AddsBases.foldl unlayer (fun _ _ => addsBases_unlayer) _ _) ps s
      have hactivate (ps : List Name) (s : Namespaces) : AddsBases s (ps.foldl activateOne s) :=
        AddsBases.foldl activateOne (fun _ _ => addsBases_activateOne) ps s
      have houtdate (s : Namespaces) : AddsBases s s.outdate :=
        ⟨grows_of_core rfl rfl (fun _ => rfl) rfl rfl, (AddsBases.refl s).bases⟩
      exact (((hunlayer _).trans (addsBases_active _)).trans (hactivate _ _)).trans (houtdate _)

theorem declared_push (n k : Option Name) : ((s.push name package).2.find? n k).isSome = true ↔
    (s.find? n k).isSome = true ∨ n = name ∧ k = package := by
  rw [isSome_find?, isSome_find?, size_push]
  constructor
  · rintro ⟨i, hi, hname, hpackage⟩
    by_cases he : i = s.spaces.size
    · rw [he, space_push_self] at hname hpackage
      exact .inr ⟨hname.symm, hpackage.symm⟩
    · rw [space_push_ne he] at hname hpackage
      exact .inl ⟨i, Nat.lt_of_le_of_ne (Nat.le_of_lt_succ hi) he, hname, hpackage⟩
  · rintro (⟨i, hi, hname, hpackage⟩ | ⟨rfl, rfl⟩)
    · rw [← space_push_ne (Nat.ne_of_lt hi)] at hname hpackage
      exact ⟨i, Nat.lt_succ_of_lt hi, hname, hpackage⟩
    · exact ⟨s.spaces.size, Nat.lt_succ_self _, by rw [space_push_self], by rw [space_push_self]⟩

theorem declared_obtain (n : Option Name) (q : Name) :
    ((s.obtain name package).2.find? n (some q)).isSome = true ↔
      (s.find? n (some q)).isSome = true ∨ n = name ∧ some q = package := by
  unfold Namespaces.obtain
  cases hfind : s.find? name package with
  | some i =>
    refine (or_iff_left_of_imp ?_).symm
    rintro ⟨rfl, rfl⟩
    rw [hfind]
    rfl
  | none =>
    cases package with
    | none => exact declared_push n (some q)
    | some p =>
      dsimp only
      split
      · have hbases : AddsBases (s.push name (some p)).2
            ((s.push name (some p)).2.layer s.spaces.size) :=
          ⟨grows_layer, fun _ => package_layer_of_le⟩
        exact (Bool.eq_iff_iff.mp (hbases.declared n q)).trans (declared_push n (some q))
      · exact declared_push n (some q)

theorem active_obtain : (s.obtain name package).2.active = s.active := by
  unfold Namespaces.obtain
  split
  · rfl
  · cases package with
    | none => rfl
    | some p =>
      dsimp only
      split
      · exact active_layer
      · rfl

/-- The same was declared, and without `p` the stacks are the same. -/
structure AgreeBut (p : Name) (s t : Namespaces) : Prop where
  declared : ∀ name q, (s.find? name (some q)).isSome = (t.find? name (some q)).isSome
  active : s.active.filter (· != p) = t.active.filter (· != p)

theorem AgreeBut.mem_active {t : Namespaces} (h : AgreeBut p s t) (hq : q ≠ p) :
    q ∈ s.active ↔ q ∈ t.active := by
  have hs : q ∈ s.active.filter (· != p) ↔ q ∈ t.active.filter (· != p) := by rw [h.active]
  simpa [hq] using hs

theorem active_activate (h : Stacked s) : (s.activate (some p)).2.active =
    if s.isPackage p = true ∧ p ∉ s.active then s.active ++ [p] else s.active := by
  unfold activate
  dsimp only
  by_cases hpackage : s.isPackage p = true
  · by_cases hp : p ∈ s.active
    · simp [hpackage, hp, isActive]
    · rw [if_neg (by simp [hpackage]), if_neg (by simpa [isActive] using hp), if_pos ⟨hpackage, hp⟩]
      exact (Layered.activateOne h hp).2
  · simp [hpackage]

theorem agreeBut_activate (h : Stacked s) (p : Name) : AgreeBut p (s.activate (some p)).2 s where
  declared := addsBases_activate.declared
  active := by
    rw [active_activate h]
    split
    · rw [List.filter_append, List.filter_cons_of_neg (by simp), List.filter_nil, List.append_nil]
    · rfl

/-- Operations keep two histories in step that differ in the activation of one package. -/
theorem AgreeBut.perform {t : Namespaces} (h : AgreeBut p s t) (hs : Stacked s) (ht : Stacked t)
    (op : PackageOp) : AgreeBut p (s.perform op) (t.perform op) := by
  cases op with
  | declare name package =>
    refine ⟨?_, ?_⟩
    · intro n q
      rw [Bool.eq_iff_iff]
      show ((s.obtain name package).2.find? n (some q)).isSome = true ↔
        ((t.obtain name package).2.find? n (some q)).isSome = true
      rw [declared_obtain, declared_obtain, h.declared]
    · show (s.obtain name package).2.active.filter _ = (t.obtain name package).2.active.filter _
      rw [active_obtain, active_obtain, h.active]
  | activate package =>
    cases package with
    | none => exact h
    | some q =>
      refine ⟨?_, ?_⟩
      · intro n r
        show ((s.activate (some q)).2.find? n (some r)).isSome =
          ((t.activate (some q)).2.find? n (some r)).isSome
        rw [addsBases_activate.declared, addsBases_activate.declared, h.declared]
      · show (s.activate (some q)).2.active.filter _ = (t.activate (some q)).2.active.filter _
        by_cases hq : q = p
        · subst hq
          rw [(agreeBut_activate hs q).active, (agreeBut_activate ht q).active, h.active]
        · have hpackage : s.isPackage q = true ↔ t.isPackage q = true := by
            simp only [isPackage_iff_declared, h.declared]
          rw [active_activate hs, active_activate ht]
          simp only [hpackage, h.mem_active hq]
          split
          · rw [List.filter_append, List.filter_append, h.active]
          · exact h.active
  | deactivate package =>
    cases package with
    | none => exact h
    | some q =>
      refine ⟨?_, ?_⟩
      · intro n r
        show ((s.deactivate (some q)).2.find? n (some r)).isSome =
          ((t.deactivate (some q)).2.find? n (some r)).isSome
        rw [addsBases_deactivate.declared, addsBases_deactivate.declared, h.declared]
      · show (s.deactivate (some q)).2.active.filter _ = (t.deactivate (some q)).2.active.filter _
        rw [(hs.deactivate q).2, (ht.deactivate q).2, hs.nodup.erase_eq_filter,
          ht.nodup.erase_eq_filter, List.filter_filter, List.filter_filter]
        simp only [Bool.and_comm (_ != p)]
        rw [← List.filter_filter, ← List.filter_filter, h.active]

theorem AgreeBut.performAll {t : Namespaces} (h : AgreeBut p s t) (hs : Stacked s) (ht : Stacked t)
    (history : List PackageOp) : AgreeBut p (s.performAll history) (t.performAll history) := by
  induction history generalizing s t with
  | nil => exact h
  | cons op history ih => exact ih (h.perform hs ht op) (hs.perform op) (ht.perform op)

/-- Once a package is deactivated, it makes no difference whether it had been activated. -/
theorem AgreeBut.layerKeys {t : Namespaces} (h : AgreeBut p s t) (hs : Stacked s) (ht : Stacked t)
    (name : Option Name) :
    (s.deactivate (some p)).2.layerKeys name = (t.deactivate (some p)).2.layerKeys name := by
  rw [(hs.deactivate p).1.layerKeys_eq, (ht.deactivate p).1.layerKeys_eq]
  simp only [addsBases_deactivate.declared, h.declared]
  rw [(hs.deactivate p).2, (ht.deactivate p).2, hs.nodup.erase_eq_filter,
    ht.nodup.erase_eq_filter, h.active]

theorem deactivate_of_not_mem (hp : p ∉ s.active) : s.deactivate (some p) = (false, s) := by
  have hinactive : s.isActive p = false := by simpa [isActive] using hp
  simp [deactivate, hinactive]

def ActiveDeclared (s : Namespaces) : Prop := ∀ p ∈ s.active, s.isPackage p = true

theorem Grows.isPackage (h : Grows s s') (hp : s.isPackage p = true) : s'.isPackage p = true := by
  obtain ⟨i, hi, hpackage⟩ := isPackage_iff.mp hp
  exact isPackage_iff.mpr
    ⟨i, Nat.lt_of_lt_of_le hi h.size, (core_package (h.old i hi)).trans hpackage⟩

theorem ActiveDeclared.of_place (h : ActiveDeclared s) (hsize : s'.spaces.size = s.spaces.size)
    (hactive : s'.active = s.active) (hplace : ∀ i, (s'.space i).place = (s.space i).place) :
    ActiveDeclared s' := by
  intro p hp
  obtain ⟨i, hi, hpackage⟩ := isPackage_iff.mp (h p (hactive ▸ hp))
  have hkept := (SameKeys.of_place hsize hplace).package i
  exact isPackage_iff.mpr ⟨i, hsize ▸ hi, hkept.trans hpackage⟩

theorem ActiveDeclared.step (h : ActiveDeclared s) (hs : Stacked s) (hstep : Step s s') :
    ActiveDeclared s' := by
  cases hstep with
  | obtain name package =>
    intro p hp
    rw [active_obtain] at hp
    exact grows_obtain.isPackage (h p hp)
  | define _ name body usage minArgs maxArgs =>
    exact h.of_place size_define active_define place_define
  | link _ _ => exact h.of_place size_link active_link place_link
  | unlink _ parent => exact h.of_place size_unlink active_unlink place_unlink
  | activate package =>
    cases package with
    | none => exact h
    | some q =>
      intro p hp
      rw [active_activate hs] at hp
      split at hp
      · next hq =>
        rcases List.mem_append.mp hp with hp | hp
        · exact grows_activate.isPackage (h p hp)
        · rw [List.mem_singleton.mp hp]
          exact grows_activate.isPackage hq.1
      · exact grows_activate.isPackage (h p hp)
  | deactivate package =>
    cases package with
    | none => exact h
    | some q =>
      intro p hp
      rw [(hs.deactivate q).2] at hp
      exact grows_deactivate.isPackage (h p (List.mem_of_mem_erase hp))
  | lookup _ found =>
    exact h.of_place (size_lookup found) (active_lookup found) (place_lookup found)

theorem Reachable.activeDeclared {size : Nat} (h : Reachable size s) : ActiveDeclared s := by
  have hboth : Stacked s ∧ ActiveDeclared s := by
    refine Reachable.invariant (P := fun s => Stacked s ∧ ActiveDeclared s)
      ⟨stacked_start size, ?_⟩ ?_ h
    · intro p hp
      cases hp
    · rintro s s' ⟨hs, hdeclared⟩ hstep
      exact ⟨hs.step hstep, hdeclared.step hs hstep⟩
  exact hboth.2

/-- In every history, the layers of a base are the overlays of active packages in the order of
activation. Package operations touch neither parents nor entries, activating an active package does
nothing, and what a package's activation did is undone by deactivating it, whatever came between. -/
theorem packages_layered {size : Nat} (hs : Reachable size s) :
    s.active.Nodup ∧
    (∀ b < s.spaces.size, (s.space b).package = none →
      (∀ i, i ∈ (s.space b).layers ↔ i < s.spaces.size ∧ (s.space i).name = (s.space b).name ∧
        ∃ p ∈ s.active, (s.space i).package = some p) ∧
      ((s.space b).layers.map fun i => (s.space i).package).Sublist (s.active.map some) ∧
      ∀ i ∈ (s.space b).layers, (s.space i).base = some b) ∧
    (∀ i p, (s.space i).package = some p → p ∉ s.active → (s.space i).base = none) ∧
    (∀ p ∈ s.active, s.activate (some p) = (true, s)) ∧
    (∀ history, ∀ i < s.spaces.size,
      ((s.performAll history).space i).parent = (s.space i).parent ∧
      ((s.performAll history).space i).entries = (s.space i).entries) ∧
    ∀ p history name,
      (((s.activate (some p)).2.performAll history).deactivate (some p)).2.layerKeys name =
        ((s.performAll history).deactivate (some p)).2.layerKeys name ∧
      (p ∉ (s.performAll history).active →
        (((s.activate (some p)).2.performAll history).deactivate (some p)).2.layerKeys name =
          (s.performAll history).layerKeys name) := by
  have h := hs.stacked
  refine ⟨h.nodup, ?_, ?_, ?_, ?_, ?_⟩
  · intro b hb hpackage
    rw [h.layers_eq hb hpackage]
    refine ⟨fun i => mem_overlaysIn h.distinct, ?_, ?_⟩
    · have hkeys := congrArg (List.map Prod.snd)
        (keys_overlaysIn (s := s) (s.space b).name s.active)
      rw [List.map_map, List.map_map] at hkeys
      exact hkeys ▸ List.filter_sublist.map some
    · intro i hi
      obtain ⟨-, hname, hactive⟩ := (mem_overlaysIn h.distinct).mp hi
      obtain ⟨-, -, b', hfind, hbase⟩ := h.based i (covered_eq_true.mpr hactive)
      rw [hname, (find?_eq_some_iff h.distinct).mpr ⟨hb, rfl, hpackage⟩] at hfind
      rw [hbase, hfind]
  · intro i p hpackage hp
    apply h.loose
    rw [Bool.eq_false_iff, Ne, covered_eq_true]
    rintro ⟨q, hq, hpackage'⟩
    exact hp (Option.some.inj (hpackage.symm.trans hpackage') ▸ hq)
  · intro p hp
    have hpackage := hs.activeDeclared p hp
    have hactive : s.isActive p = true := List.contains_iff_mem.mpr hp
    simp [activate, hpackage, hactive]
  · intro history i hi
    have hcore := (grows_performAll history).old i hi
    exact ⟨core_parent hcore, core_entries hcore⟩
  · intro p history name
    have hundo := ((agreeBut_activate h p).performAll h.activate h history).layerKeys
      (h.activate.performAll history) (h.performAll history) name
    refine ⟨hundo, ?_⟩
    intro hp
    rw [hundo, deactivate_of_not_mem hp]

theorem Reachable.performAll {size : Nat} (h : Reachable size s) (history : List PackageOp) :
    Reachable size (s.performAll history) := by
  induction history generalizing s with
  | nil => exact h
  | cons op history ih =>
    apply ih
    cases op with
    | declare name package => exact h.tail (.obtain s name package)
    | activate package => exact h.tail (.activate s package)
    | deactivate package => exact h.tail (.deactivate s package)

theorem packages_layered_unwound :
    let p : Name := ⟨1⟩
    let q : Name := ⟨2⟩
    let n : Name := ⟨3⟩
    let s := (start 1).performAll [.declare (some n) (some p)]
    let history : List PackageOp :=
      [.declare (some n) (some q), .activate (some q), .declare none (some p)]
    (((s.activate (some p)).2.performAll history).layerKeys (some n) =
        [(some n, some p), (some n, some q)]) ∧
      (((s.activate (some p)).2.performAll history).deactivate (some p)).2.layerKeys (some n) =
        [(some n, some q)] := by
  intro p q n s history
  have hs : Reachable 1 s := Reachable.performAll .refl _
  obtain ⟨-, -, -, -, -, hundo⟩ := packages_layered hs
  exact ⟨by decide +kernel, (hundo p history (some n)).1.trans (by decide +kernel)⟩

end ConsoleScript.Namespaces
