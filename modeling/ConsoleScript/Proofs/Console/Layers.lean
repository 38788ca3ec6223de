import ConsoleScript.Proofs.Console.Namespaces

/-!
# Layers of packages

While packages are activated and deactivated, overlays are attached to their bases one by one.
`Layered s attached` says that exactly the overlays of a given set are in place, whatever the stack
of active packages has come to by then: the layers of a base are its attached overlays in the
order of the stack. Between operations the attached overlays are those of the active packages,
which is what `Stacked` says.
-/

namespace ConsoleScript.Namespaces

variable {s s' : Namespaces} {id i b : SpaceId} {name package : Option Name} {p q : Name}
  {attached : SpaceId → Bool}

/-- The overlays of a name that belong to some packages, in the order of the packages. -/
def overlaysIn (s : Namespaces) (name : Option Name) (packages : List Name) : List SpaceId :=
  packages.filterMap fun p => s.find? name (some p)

structure Layered (s : Namespaces) (attached : SpaceId → Bool) : Prop where
  distinct : s.Distinct
  nodup : s.active.Nodup
  layers : ∀ b < s.spaces.size, (s.space b).package = none →
    (s.space b).layers = (s.overlaysIn (s.space b).name s.active).filter attached
  plain : ∀ i, (s.space i).package ≠ none → (s.space i).layers = []
  based : ∀ i, attached i = true → i < s.spaces.size ∧
    (∃ p ∈ s.active, (s.space i).package = some p) ∧
    ∃ b, s.find? (s.space i).name none = some b ∧ (s.space i).base = some b
  loose : ∀ i, attached i = false → (s.space i).base = none

/-! ## Finding after a change -/

structure SameKeys (s s' : Namespaces) : Prop where
  size : s'.spaces.size = s.spaces.size
  name : ∀ i, (s'.space i).name = (s.space i).name
  package : ∀ i, (s'.space i).package = (s.space i).package

theorem SameKeys.of_core (hsize : s'.spaces.size = s.spaces.size)
    (hcore : ∀ i, (s'.space i).core = (s.space i).core) : SameKeys s s' :=
  ⟨hsize, fun i => core_name (hcore i), fun i => core_package (hcore i)⟩

theorem SameKeys.refl (s : Namespaces) : SameKeys s s := ⟨rfl, fun _ => rfl, fun _ => rfl⟩

theorem SameKeys.trans {s₁ s₂ s₃ : Namespaces} (h : SameKeys s₁ s₂) (h' : SameKeys s₂ s₃) :
    SameKeys s₁ s₃ :=
  ⟨h'.size.trans h.size, fun i => (h'.name i).trans (h.name i),
    fun i => (h'.package i).trans (h.package i)⟩

theorem SameKeys.distinct (hk : SameKeys s s') (hd : s.Distinct) : s'.Distinct := by
  intro i j hi hj hname hpackage
  rw [hk.name, hk.name] at hname
  rw [hk.package, hk.package] at hpackage
  exact hd i j (hk.size ▸ hi) (hk.size ▸ hj) hname hpackage

theorem SameKeys.find? (hk : SameKeys s s') (hd : s.Distinct) (name package : Option Name) :
    s'.find? name package = s.find? name package := by
  apply Option.ext
  intro i
  rw [find?_eq_some_iff hd, find?_eq_some_iff (hk.distinct hd), hk.size, hk.name, hk.package]

theorem SameKeys.overlaysIn (hk : SameKeys s s') (hd : s.Distinct) (name : Option Name)
    (ps : List Name) : s'.overlaysIn name ps = s.overlaysIn name ps := by
  simp only [Namespaces.overlaysIn, hk.find? hd]

theorem Distinct.push (hd : s.Distinct) (hnone : s.find? name package = none) :
    (s.push name package).2.Distinct := by
  rw [find?_eq_none_iff] at hnone
  intro i j hi hj hname hpackage
  rw [size_push] at hi hj
  by_cases hin : i = s.spaces.size
  · by_cases hjn : j = s.spaces.size
    · rw [hin, hjn]
    · rw [hin, space_push_self, space_push_ne hjn] at hname hpackage
      exact absurd ⟨hname.symm, hpackage.symm⟩ (hnone j (by omega))
  · by_cases hjn : j = s.spaces.size
    · rw [hjn, space_push_self, space_push_ne hin] at hname hpackage
      exact absurd ⟨hname, hpackage⟩ (hnone i (by omega))
    · rw [space_push_ne hin, space_push_ne hjn] at hname hpackage
      exact hd i j (by omega) (by omega) hname hpackage

theorem find?_push (hd : s.Distinct) (hnone : s.find? name package = none) (n k : Option Name) :
    (s.push name package).2.find? n k =
      if n = name ∧ k = package then some s.spaces.size else s.find? n k := by
  split
  · next h =>
    rw [find?_eq_some_iff (hd.push hnone), space_push_self, size_push, h.1, h.2]
    exact ⟨Nat.lt_succ_self _, rfl, rfl⟩
  · next h =>
    apply Option.ext
    intro i
    rw [find?_eq_some_iff (hd.push hnone), find?_eq_some_iff hd, size_push]
    by_cases hi : i = s.spaces.size
    · subst hi
      rw [space_push_self]
      constructor
      · rintro ⟨-, rfl, rfl⟩
        exact absurd ⟨rfl, rfl⟩ h
      · rintro ⟨hlt, -⟩
        exact absurd hlt (Nat.lt_irrefl _)
    · rw [space_push_ne hi]
      have hlt : i < s.spaces.size + 1 ↔ i < s.spaces.size := by
        rw [Nat.lt_succ_iff_lt_or_eq, or_iff_left hi]
      rw [hlt]

/-! ## The order of layers -/

theorem rank_some : s.rank (some q) = s.active.idxOf q := by
  simp [rank, List.idxOf]

theorem mem_overlaysIn (hd : s.Distinct) {ps : List Name} : i ∈ s.overlaysIn name ps ↔
    i < s.spaces.size ∧ (s.space i).name = name ∧ ∃ p ∈ ps, (s.space i).package = some p := by
  simp only [overlaysIn, List.mem_filterMap, find?_eq_some_iff hd]
  constructor
  · rintro ⟨p, hp, hi, hname, hpackage⟩
    exact ⟨hi, hname, p, hp, hpackage⟩
  · rintro ⟨hi, hname, p, hp, hpackage⟩
    exact ⟨p, hp, hi, hname, hpackage⟩

theorem nodup_overlaysIn {ps : List Name} (hn : ps.Nodup) : (s.overlaysIn name ps).Nodup := by
  apply hn.filterMap
  intro p q i hp hq
  have hpackage := (find?_some hp).2.2
  rw [(find?_some hq).2.2] at hpackage
  exact (Option.some.inj hpackage).symm

/-- Cutting where a test first fails finds the border between what passes and what does not. -/
theorem splice_eq {α : Type} {q : α → Bool} {xs ys : List α} (hx : ∀ x ∈ xs, q x = true)
    (hy : ∀ y ∈ ys, q y = false) (a : α) :
    (xs ++ ys).takeWhile q ++ a :: (xs ++ ys).dropWhile q = xs ++ a :: ys := by
  rw [List.takeWhile_append_of_pos hx, List.dropWhile_append_of_pos hx]
  cases ys with
  | nil => simp
  | cons y ys =>
    have hfalse := hy y List.mem_cons_self
    simp [hfalse]

/-- An overlay goes behind those of packages that were activated before its own. -/
theorem inserted_overlaysIn (hd : s.Distinct) (hn : s.active.Nodup) (hi : id < s.spaces.size)
    (hpackage : (s.space id).package = some p) (hp : p ∈ s.active) (hid : attached id = false) :
    s.inserted id ((s.overlaysIn (s.space id).name s.active).filter attached) =
      (s.overlaysIn (s.space id).name s.active).filter fun i => i == id || attached i := by
  obtain ⟨older, newer, hactive⟩ := List.append_of_mem hp
  rw [hactive] at hn
  obtain ⟨-, hnp, hdisjoint⟩ := List.nodup_append.mp hn
  have hpold : p ∉ older := fun h => hdisjoint p h p List.mem_cons_self rfl
  have hpnew : p ∉ newer := (List.nodup_cons.mp hnp).1
  have hall : s.overlaysIn (s.space id).name s.active =
      s.overlaysIn (s.space id).name older ++ id :: s.overlaysIn (s.space id).name newer := by
    have hself : s.find? (s.space id).name (some p) = some id :=
      (find?_eq_some_iff hd).mpr ⟨hi, rfl, hpackage⟩
    rw [hactive, overlaysIn, List.filterMap_append, List.filterMap_cons, hself]
    rfl
  -- Only the overlay itself belongs to its package, so it is all that the wider filter adds.
  have hkeep : ∀ ps : List Name, p ∉ ps →
      (s.overlaysIn (s.space id).name ps).filter (fun i => i == id || attached i) =
        (s.overlaysIn (s.space id).name ps).filter attached := by
    intro ps hps
    apply List.filter_congr
    intro l hl
    have hne : l ≠ id := by
      rintro rfl
      obtain ⟨-, -, q, hq, hpackage'⟩ := (mem_overlaysIn hd).mp hl
      rw [hpackage] at hpackage'
      exact hps (Option.some.inj hpackage' ▸ hq)
    simp [hne]
  have hrank : s.rank (s.space id).package = older.length := by
    rw [hpackage, rank_some, hactive, List.idxOf_append_of_notMem hpold, List.idxOf_cons_self,
      Nat.add_zero]
  rw [hall, List.filter_append, List.filter_append, List.filter_cons_of_neg (by simp [hid]),
    List.filter_cons_of_pos (by simp), hkeep older hpold, hkeep newer hpnew]
  simp only [inserted, hrank]
  apply splice_eq
  · intro l hl
    obtain ⟨-, -, q, hq, hpackage'⟩ := (mem_overlaysIn hd).mp (List.mem_of_mem_filter hl)
    have hlt := List.idxOf_lt_length_iff.mpr hq
    rw [hpackage', rank_some, hactive, List.idxOf_append_of_mem hq, decide_eq_true_iff]
    exact Nat.le_of_lt hlt
  · intro l hl
    obtain ⟨-, -, q, hq, hpackage'⟩ := (mem_overlaysIn hd).mp (List.mem_of_mem_filter hl)
    have hqold : q ∉ older := fun h => hdisjoint q h q (List.mem_cons_of_mem p hq) rfl
    have hqp : p ≠ q := fun h => hpnew (h ▸ hq)
    rw [hpackage', rank_some, hactive, List.idxOf_append_of_notMem hqold, List.idxOf_cons_ne _ hqp,
      decide_eq_false_iff_not]
    omega

/-! ## One overlay at a time -/

theorem Layered.lt_size (h : Layered s attached) (hi : attached i = true) : i < s.spaces.size :=
  (h.based i hi).1

/-- A new namespace is not attached to anything, and nothing was attached to its key before. -/
theorem Layered.push (h : Layered s attached) (hnone : s.find? name package = none) :
    Layered (s.push name package).2 attached := by
  have hnew : attached s.spaces.size = false := by
    rw [Bool.eq_false_iff]
    exact fun hc => Nat.lt_irrefl _ (h.lt_size hc)
  have hfilter : ∀ n, ((s.push name package).2.overlaysIn n s.active).filter attached =
      (s.overlaysIn n s.active).filter attached := by
    intro n
    rw [overlaysIn, overlaysIn, List.filter_filterMap, List.filter_filterMap]
    apply List.filterMap_congr
    intro p _
    rw [find?_push h.distinct hnone]
    split
    · next hkey => rw [hkey.1, hkey.2, hnone, Option.filter_some, if_neg (by simp [hnew])]; rfl
    · rfl
  constructor
  case distinct => exact h.distinct.push hnone
  case nodup => exact h.nodup
  case layers =>
    intro b hb hbase
    show ((s.push name package).2.space b).layers =
      ((s.push name package).2.overlaysIn _ s.active).filter attached
    rw [hfilter]
    by_cases hbn : b = s.spaces.size
    · subst hbn
      rw [space_push_self] at hbase ⊢
      symm
      rw [List.filter_eq_nil_iff]
      intro i hi hattached
      obtain ⟨-, -, b', hfind, -⟩ := h.based i hattached
      rw [((mem_overlaysIn h.distinct).mp hi).2.1, ← hbase, hnone] at hfind
      cases hfind
    · rw [space_push_ne hbn] at hbase ⊢
      rw [size_push] at hb
      exact h.layers b (by omega) hbase
  case plain =>
    intro i hi
    by_cases hin : i = s.spaces.size
    · rw [hin, space_push_self]
    · rw [space_push_ne hin] at hi ⊢
      exact h.plain i hi
  case based =>
    intro i hi
    obtain ⟨hlt, hactive, b, hfind, hbase⟩ := h.based i hi
    rw [space_push_ne (Nat.ne_of_lt hlt), size_push, find?_push h.distinct hnone, if_neg]
    · exact ⟨Nat.lt_succ_of_lt hlt, hactive, b, hfind, hbase⟩
    · rintro ⟨rfl, rfl⟩
      rw [hnone] at hfind
      cases hfind
  case loose =>
    intro i hi
    by_cases hin : i = s.spaces.size
    · rw [hin, space_push_self]
    · rw [space_push_ne hin]
      exact h.loose i hi

theorem Layered.obtainBase (h : Layered s attached) (hbase : s.obtainBase name = (b, s')) :
    Layered s' attached ∧ s'.find? name none = some b ∧ s'.active = s.active := by
  unfold Namespaces.obtainBase at hbase
  cases hfind : s.find? name none with
  | some b' =>
    rw [hfind] at hbase
    cases hbase
    exact ⟨h, hfind, rfl⟩
  | none =>
    rw [hfind] at hbase
    obtain rfl : s' = (s.push name none).2 := (congrArg Prod.snd hbase).symm
    obtain rfl : b = s.spaces.size := (congrArg Prod.fst hbase).symm
    refine ⟨h.push hfind, ?_, rfl⟩
    rw [find?_push h.distinct hfind, if_pos ⟨rfl, rfl⟩]

/-- The layers of `b` and the base of `id` were set. -/
structure Reattached (s s' : Namespaces) (b id : SpaceId) (layers : List SpaceId)
    (base : Option SpaceId) : Prop where
  keys : SameKeys s s'
  active : s'.active = s.active
  layers_self : (s'.space b).layers = layers
  layers_ne : ∀ i, i ≠ b → (s'.space i).layers = (s.space i).layers
  base_self : (s'.space id).base = base
  base_ne : ∀ i, i ≠ id → (s'.space i).base = (s.space i).base

theorem reattached (hb : b < s.spaces.size) (hid : id < s.spaces.size) (hne : b ≠ id)
    (g : List SpaceId → List SpaceId) (base : Option SpaceId) :
    Reattached s ((s.modify b fun n => { n with layers := g n.layers }).modify id
      fun n => { n with base := base }).outdate b id (g (s.space b).layers) base where
  keys := SameKeys.of_core (by simp) (core_reattach b id g base)
  active := rfl
  layers_self := by rw [space_outdate, space_modify_ne hne, space_modify_self hb]
  layers_ne i hi := by
    have hkeep (n : Namespace) : Namespace.layers { n with base := base } = n.layers := rfl
    rw [space_outdate, space_modify_same Namespace.layers hkeep, space_modify_ne hi]
  base_self := by rw [space_outdate, space_modify_self (by simpa using hid)]
  base_ne i hi := by
    have hkeep (n : Namespace) : Namespace.base { n with layers := g n.layers } = n.base := rfl
    rw [space_outdate, space_modify_ne hi, space_modify_same Namespace.base hkeep]

theorem Layered.reattach {attached' : SpaceId → Bool} {layers : List SpaceId}
    {base : Option SpaceId} (h : Layered s attached) (hr : Reattached s s' b id layers base)
    (hfind : s.find? (s.space id).name none = some b)
    (hother : ∀ i, i ≠ id → attached' i = attached i)
    (hlayers : layers = (s.overlaysIn (s.space id).name s.active).filter attached')
    (hself : attached' id = true ∧ base = some b ∧ id < s.spaces.size ∧
        (∃ p ∈ s.active, (s.space id).package = some p) ∨ attached' id = false ∧ base = none) :
    Layered s' attached' := by
  obtain ⟨hb, hbname, hbpackage⟩ := find?_some hfind
  constructor
  case distinct => exact hr.keys.distinct h.distinct
  case nodup => exact hr.active ▸ h.nodup
  case layers =>
    intro c hc hpackage
    rw [hr.keys.size] at hc
    rw [hr.keys.package] at hpackage
    rw [hr.keys.name, hr.keys.overlaysIn h.distinct, hr.active]
    by_cases hcb : c = b
    · rw [hcb, hr.layers_self, hlayers, hbname]
    · rw [hr.layers_ne c hcb, h.layers c hc hpackage]
      apply List.filter_congr
      intro l hl
      refine (hother l ?_).symm
      rintro rfl
      have hname := ((mem_overlaysIn h.distinct).mp hl).2.1
      exact hcb (h.distinct c b hc hb (hname.symm.trans hbname.symm)
        (hpackage.trans hbpackage.symm))
  case plain =>
    intro i hi
    rw [hr.keys.package] at hi
    rw [hr.layers_ne i (fun hib => hi (hib ▸ hbpackage))]
    exact h.plain i hi
  case based =>
    intro i hi
    rw [hr.keys.size, hr.active, hr.keys.package, hr.keys.name, hr.keys.find? h.distinct]
    by_cases hii : i = id
    · subst hii
      rcases hself with ⟨-, hbase, hlt, hactive⟩ | ⟨hfalse, -⟩
      · exact ⟨hlt, hactive, b, hfind, hr.base_self.trans hbase⟩
      · rw [hi] at hfalse
        cases hfalse
    · rw [hother i hii] at hi
      rw [hr.base_ne i hii]
      exact h.based i hi
  case loose =>
    intro i hi
    by_cases hii : i = id
    · subst hii
      rcases hself with ⟨htrue, -⟩ | ⟨-, hbase⟩
      · rw [hi] at htrue
        cases htrue
      · exact hr.base_self.trans hbase
    · rw [hother i hii] at hi
      rw [hr.base_ne i hii]
      exact h.loose i hi

theorem Layered.layer (h : Layered s attached) (hi : id < s.spaces.size)
    (hpackage : (s.space id).package = some p) (hp : p ∈ s.active) (hid : attached id = false) :
    Layered (s.layer id) fun i => i == id || attached i := by
  rcases hobtain : s.obtainBase (s.space id).name with ⟨b, s₁⟩
  have hgrows := grows_obtainBase_eq hobtain
  obtain ⟨h₁, hfind, hactive⟩ := h.obtainBase hobtain
  rw [← core_name (hgrows.old id hi)] at hfind
  rw [← core_package (hgrows.old id hi)] at hpackage
  rw [← hactive] at hp
  have hi₁ : id < s₁.spaces.size := Nat.lt_of_lt_of_le hi hgrows.size
  obtain ⟨hb, hbname, hbpackage⟩ := find?_some hfind
  have hne : b ≠ id := by
    rintro rfl
    rw [hbpackage] at hpackage
    cases hpackage
  rw [layer_eq hobtain]
  refine h₁.reattach (reattached hb hi₁ hne _ _) hfind ?_ ?_
    (.inl ⟨by simp, rfl, hi₁, p, hp, hpackage⟩)
  · intro i hii
    simp [hii]
  · rw [h₁.layers b hb hbpackage, hbname]
    exact inserted_overlaysIn h₁.distinct h₁.nodup hi₁ hpackage hp hid

theorem Layered.unlayer (h : Layered s attached) (id : SpaceId) :
    Layered (s.unlayer id) fun i => i != id && attached i := by
  unfold Namespaces.unlayer
  cases hid : attached id with
  | false =>
    rw [h.loose id hid]
    have : (fun i => i != id && attached i) = attached := by
      funext i
      by_cases hii : i = id
      · simp [hii, hid]
      · simp [hii]
    rwa [this]
  | true =>
    obtain ⟨hi, ⟨p, -, hpackage⟩, b, hfind, hbase⟩ := h.based id hid
    obtain ⟨hb, hbname, hbpackage⟩ := find?_some hfind
    have hne : b ≠ id := by
      rintro rfl
      rw [hbpackage] at hpackage
      cases hpackage
    rw [hbase]
    refine h.reattach (reattached hb hi hne (·.erase id) none) hfind ?_ ?_ (.inr ⟨by simp, rfl⟩)
    · intro i hii
      simp [hii]
    · rw [h.layers b hb hbpackage, hbname,
        ((nodup_overlaysIn h.nodup).filter attached).erase_eq_filter, List.filter_filter]

/-! ## Whole packages -/

def covered (s : Namespaces) (i : SpaceId) : Bool := (s.space i).package.any s.isActive

theorem covered_eq_true : s.covered i = true ↔ ∃ p ∈ s.active, (s.space i).package = some p := by
  simp only [covered, isActive, Option.any_eq_true, List.contains_iff_mem]
  exact ⟨fun ⟨p, hi, hp⟩ => ⟨p, hp, hi⟩, fun ⟨p, hp, hi⟩ => ⟨p, hi, hp⟩⟩

theorem mem_overlays : i ∈ s.overlays p ↔ i < s.spaces.size ∧ (s.space i).package = some p := by
  simp [overlays]

theorem nodup_overlays : (s.overlays p).Nodup := List.nodup_range.filter _

/-- Packages without an attached overlay do not matter for the layers. -/
theorem filter_overlaysIn_append (hd : s.Distinct) {ps rest : List Name}
    (hrest : ∀ p ∈ rest, ∀ i, (s.space i).package = some p → attached i = false) :
    (s.overlaysIn name (ps ++ rest)).filter attached = (s.overlaysIn name ps).filter attached := by
  have hnil : (s.overlaysIn name rest).filter attached = [] := by
    rw [List.filter_eq_nil_iff]
    intro i hi
    obtain ⟨-, -, p, hp, hpackage⟩ := (mem_overlaysIn hd).mp hi
    rw [hrest p hp i hpackage]
    exact Bool.false_ne_true
  rw [overlaysIn, List.filterMap_append, List.filter_append]
  exact (congrArg _ hnil).trans (List.append_nil _)

/-- The stack may change as long as it keeps every package that has an attached overlay. -/
theorem Layered.setActive (h : Layered s attached) {ps : List Name} (hn : ps.Nodup)
    (hps : ∀ i, attached i = true → ∃ p ∈ ps, (s.space i).package = some p)
    (hsame : ∀ name, (s.overlaysIn name ps).filter attached =
      (s.overlaysIn name s.active).filter attached) :
    Layered { s with active := ps } attached where
  distinct := h.distinct
  nodup := hn
  layers b hb hpackage := (h.layers b hb hpackage).trans (hsame _).symm
  plain := h.plain
  based i hi := ⟨h.lt_size hi, hps i hi, (h.based i hi).2.2⟩
  loose := h.loose

theorem active_layer : (s.layer id).active = s.active := by
  rcases hobtain : s.obtainBase (s.space id).name with ⟨b, s₁⟩
  have hactive : s₁.active = s.active := by
    unfold obtainBase at hobtain
    split at hobtain <;> cases hobtain <;> rfl
  rw [layer_eq hobtain]
  exact hactive

theorem package_layer_of_le (hi : s.spaces.size ≤ i) : ((s.layer id).space i).package = none := by
  rcases hobtain : s.obtainBase (s.space id).name with ⟨b, s₁⟩
  rw [core_package (core_layer hobtain i)]
  unfold obtainBase at hobtain
  split at hobtain
  · cases hobtain
    rw [space_of_le hi]
  · cases hobtain
    by_cases he : i = s.spaces.size
    · rw [he]
      exact congrArg Namespace.package space_push_self
    · refine (congrArg Namespace.package (space_push_ne he)).trans ?_
      rw [space_of_le hi]

/-- Layers changed, and no namespaces were added but bases. -/
structure AddsBases (s s' : Namespaces) : Prop where
  grows : Grows s s'
  bases : ∀ i, s.spaces.size ≤ i → (s'.space i).package = none

theorem AddsBases.refl (s : Namespaces) : AddsBases s s :=
  ⟨Grows.refl s, fun i hi => by rw [space_of_le hi]⟩

theorem AddsBases.trans {s₁ s₂ s₃ : Namespaces} (h : AddsBases s₁ s₂) (h' : AddsBases s₂ s₃) :
    AddsBases s₁ s₃ := by
  refine ⟨h.grows.trans h'.grows, ?_⟩
  intro i hi
  by_cases hlt : i < s₂.spaces.size
  · rw [core_package (h'.grows.old i hlt)]
    exact h.bases i hi
  · exact h'.bases i (Nat.le_of_not_lt hlt)

theorem AddsBases.foldl {α : Type} (g : Namespaces → α → Namespaces)
    (hg : ∀ s a, AddsBases s (g s a)) (as : List α) (s : Namespaces) :
    AddsBases s (as.foldl g s) := by
  induction as generalizing s with
  | nil => exact AddsBases.refl s
  | cons a as ih => exact (hg s a).trans (ih _)

theorem addsBases_layers (ids : List SpaceId) : AddsBases s (ids.foldl layer s) :=
  AddsBases.foldl layer (fun _ _ => ⟨grows_layer, fun _ => package_layer_of_le⟩) ids s

theorem Layered.layers_foldl {ids : List SpaceId} (h : Layered s attached) (hn : ids.Nodup)
    (hp : p ∈ s.active)
    (hids : ∀ id ∈ ids, id < s.spaces.size ∧ (s.space id).package = some p ∧ attached id = false) :
    Layered (ids.foldl Namespaces.layer s) (fun i => ids.contains i || attached i) ∧
      (ids.foldl Namespaces.layer s).active = s.active := by
  induction ids generalizing s attached with
  | nil => exact ⟨by simpa using h, rfl⟩
  | cons id ids ih =>
    obtain ⟨hnotMem, hn⟩ := List.nodup_cons.mp hn
    obtain ⟨hi, hpackage, hid⟩ := hids id List.mem_cons_self
    have hgrows : Grows s (s.layer id) := grows_layer
    have hnext := h.layer hi hpackage hp hid
    obtain ⟨hlayered, hactive⟩ := ih hnext hn (active_layer.symm ▸ hp) (by
      intro j hj
      obtain ⟨hlt, hpackage', hfalse⟩ := hids j (List.mem_cons_of_mem _ hj)
      have hne : j ≠ id := fun he => hnotMem (he ▸ hj)
      exact ⟨Nat.lt_of_lt_of_le hlt hgrows.size,
        (core_package (hgrows.old j hlt)).trans hpackage', by simp [hne, hfalse]⟩)
    refine ⟨?_, hactive.trans active_layer⟩
    have hsame : (fun i => (id :: ids).contains i || attached i) =
        fun i => ids.contains i || (i == id || attached i) := by
      funext i
      rw [List.contains_cons, Bool.or_comm (i == id), Bool.or_assoc]
    rw [hsame]
    exact hlayered

theorem Layered.activateOne (h : Layered s s.covered) (hp : p ∉ s.active) :
    Layered (s.activateOne p) (s.activateOne p).covered ∧
      (s.activateOne p).active = s.active ++ [p] := by
  have hloose : ∀ i, (s.space i).package = some p → s.covered i = false := by
    intro i hi
    rw [Bool.eq_false_iff, Ne, covered_eq_true]
    rintro ⟨q, hq, hi'⟩
    rw [hi] at hi'
    exact hp (Option.some.inj hi' ▸ hq)
  let s₁ : Namespaces := { s with active := s.active ++ [p] }
  have h₁ : Layered s₁ s.covered := by
    apply h.setActive
    · rw [List.nodup_append]
      refine ⟨h.nodup, List.nodup_singleton p, ?_⟩
      rintro q hq r hr rfl
      exact hp (List.mem_singleton.mp hr ▸ hq)
    · intro i hi
      obtain ⟨q, hq, hi⟩ := covered_eq_true.mp hi
      exact ⟨q, List.mem_append_left _ hq, hi⟩
    · intro name
      apply filter_overlaysIn_append h.distinct
      intro q hq
      rw [List.mem_singleton.mp hq]
      exact hloose
  have hids : ∀ id ∈ s₁.overlays p, id < s₁.spaces.size ∧ (s₁.space id).package = some p ∧
      s.covered id = false := by
    intro id hid
    obtain ⟨hi, hpackage⟩ := mem_overlays.mp hid
    exact ⟨hi, hpackage, hloose id hpackage⟩
  obtain ⟨hlayered, hactive⟩ := h₁.layers_foldl nodup_overlays
    (List.mem_append_right _ (List.mem_singleton_self p)) hids
  change (s.activateOne p).active = s.active ++ [p] at hactive
  refine ⟨?_, hactive⟩
  have hcovered : (s.activateOne p).covered =
      fun i => (s₁.overlays p).contains i || s.covered i := by
    funext i
    rw [Bool.eq_iff_iff, covered_eq_true, Bool.or_eq_true, List.contains_iff_mem, mem_overlays,
      covered_eq_true, hactive]
    by_cases hi : i < s.spaces.size
    · have hpackage : ((s.activateOne p).space i).package = (s.space i).package :=
        core_package ((addsBases_layers (s₁.overlays p)).grows.old i hi)
      rw [hpackage]
      constructor
      · rintro ⟨q, hq, hiq⟩
        rcases List.mem_append.mp hq with hq | hq
        · exact .inr ⟨q, hq, hiq⟩
        · exact .inl ⟨hi, hiq.trans (congrArg some (List.mem_singleton.mp hq))⟩
      · rintro (⟨-, hip⟩ | ⟨q, hq, hiq⟩)
        · exact ⟨p, List.mem_append_right _ (List.mem_singleton_self p), hip⟩
        · exact ⟨q, List.mem_append_left _ hq, hiq⟩
    · -- Namespaces that activation created are bases.
      have hnone : ((s.activateOne p).space i).package = none :=
        (addsBases_layers (s₁.overlays p)).bases i (Nat.le_of_not_lt hi)
      rw [hnone]
      constructor
      · rintro ⟨q, -, hq⟩
        cases hq
      · rintro (⟨hlt, -⟩ | ⟨q, -, hiq⟩)
        · exact absurd hlt hi
        · rw [space_of_le (Nat.le_of_not_lt hi)] at hiq
          cases hiq
  rw [hcovered]
  exact hlayered

theorem Layered.activate_foldl {ps : List Name} (h : Layered s s.covered)
    (hn : (s.active ++ ps).Nodup) :
    Layered (ps.foldl Namespaces.activateOne s) (ps.foldl Namespaces.activateOne s).covered ∧
      (ps.foldl Namespaces.activateOne s).active = s.active ++ ps := by
  induction ps generalizing s with
  | nil => exact ⟨h, (List.append_nil _).symm⟩
  | cons p ps ih =>
    have hp : p ∉ s.active := by
      intro hmem
      exact (List.nodup_append.mp hn).2.2 p hmem p List.mem_cons_self rfl
    obtain ⟨hnext, hactive⟩ := h.activateOne hp
    have hstack : (s.activateOne p).active ++ ps = s.active ++ p :: ps := by
      rw [hactive, List.append_assoc, List.singleton_append]
    obtain ⟨hlayered, hactive'⟩ := ih hnext (hstack ▸ hn)
    exact ⟨hlayered, hactive'.trans hstack⟩

/-! ## Taking layers away -/

theorem sameKeys_unlayer : SameKeys s (s.unlayer id) := by
  unfold unlayer
  cases (s.space id).base with
  | none => exact SameKeys.refl s
  | some b => exact SameKeys.of_core (by simp) (core_reattach b id (·.erase id) none)

theorem active_unlayer : (s.unlayer id).active = s.active := by
  unfold unlayer
  split <;> rfl

theorem Layered.unlayer_foldl (h : Layered s attached) (ids : List SpaceId) :
    Layered (ids.foldl Namespaces.unlayer s) (fun i => !ids.contains i && attached i) ∧
      (ids.foldl Namespaces.unlayer s).active = s.active ∧
      SameKeys s (ids.foldl Namespaces.unlayer s) := by
  induction ids generalizing s attached with
  | nil => exact ⟨by simpa using h, rfl, SameKeys.refl s⟩
  | cons id ids ih =>
    obtain ⟨hlayered, hactive, hkeys⟩ := ih (h.unlayer id)
    refine ⟨?_, hactive.trans active_unlayer, sameKeys_unlayer.trans hkeys⟩
    have hsame : (fun i => !(id :: ids).contains i && attached i) =
        fun i => !ids.contains i && (i != id && attached i) := by
      funext i
      rw [List.contains_cons, Bool.not_or, Bool.and_comm (!(i == id)), Bool.and_assoc]
      rfl
    rw [hsame]
    exact hlayered

/-- Taking the layers of packages away detaches the overlays of these packages. -/
theorem Layered.unlayerAll_foldl (h : Layered s attached) (ps : List Name) :
    Layered (ps.foldl Namespaces.unlayerAll s)
        (fun i => !(s.space i).package.any ps.contains && attached i) ∧
      (ps.foldl Namespaces.unlayerAll s).active = s.active ∧
      SameKeys s (ps.foldl Namespaces.unlayerAll s) := by
  induction ps generalizing s attached with
  | nil =>
    refine ⟨?_, rfl, SameKeys.refl s⟩
    have hsame : (fun i => !(s.space i).package.any ([] : List Name).contains && attached i) =
        attached := by
      funext i
      cases (s.space i).package <;> rfl
    rw [hsame]
    exact h
  | cons p ps ih =>
    obtain ⟨hone, hactive, hkeys⟩ := h.unlayer_foldl (s.overlays p)
    obtain ⟨hlayered, hactive', hkeys'⟩ := ih hone
    refine ⟨?_, hactive'.trans hactive, hkeys.trans hkeys'⟩
    have hsame : (fun i => !(s.space i).package.any (p :: ps).contains && attached i) =
        fun i => !((s.unlayerAll p).space i).package.any ps.contains &&
          (!(s.overlays p).contains i && attached i) := by
      funext i
      rw [show ((s.unlayerAll p).space i).package = (s.space i).package from hkeys.package i]
      cases hi : attached i with
      | false => simp
      | true =>
        have hmem : (s.overlays p).contains i = ((s.space i).package == some p) := by
          rw [Bool.eq_iff_iff, List.contains_iff_mem, mem_overlays, beq_iff_eq]
          exact and_iff_right (h.lt_size hi)
        rw [hmem]
        cases hpackage : (s.space i).package with
        | none => rfl
        | some q =>
          show (!(p :: ps).contains q && true) = (!ps.contains q && (!(q == p) && true))
          rw [List.contains_cons, Bool.not_or, Bool.and_true, Bool.and_true, Bool.and_comm]
    rw [hsame]
    exact hlayered

/-! ## Operations -/

theorem Layered.congr (h : Layered s attached) (hk : SameKeys s s') (hactive : s'.active = s.active)
    (hlayers : ∀ i, (s'.space i).layers = (s.space i).layers)
    (hbase : ∀ i, (s'.space i).base = (s.space i).base) : Layered s' attached where
  distinct := hk.distinct h.distinct
  nodup := hactive ▸ h.nodup
  layers b hb hpackage := by
    rw [hlayers, hk.name, hk.overlaysIn h.distinct, hactive]
    exact h.layers b (hk.size ▸ hb) (hk.package b ▸ hpackage)
  plain i hi := by
    rw [hlayers]
    exact h.plain i (hk.package i ▸ hi)
  based i hi := by
    rw [hk.size, hactive, hk.package, hk.name, hk.find? h.distinct, hbase]
    exact h.based i hi
  loose i hi := (hbase i).trans (h.loose i hi)

/-- The overlays of active packages, and only these, are in place. -/
def Stacked (s : Namespaces) : Prop := Layered s s.covered

theorem Stacked.congr (h : Stacked s) (hk : SameKeys s s') (hactive : s'.active = s.active)
    (hlayers : ∀ i, (s'.space i).layers = (s.space i).layers)
    (hbase : ∀ i, (s'.space i).base = (s.space i).base) : Stacked s' := by
  have hcovered : s'.covered = s.covered := by
    funext i
    rw [covered, covered, hk.package]
    unfold isActive
    rw [hactive]
  rw [Stacked, hcovered]
  exact Layered.congr h hk hactive hlayers hbase

theorem stacked_start (size : Nat) : Stacked (start size) where
  distinct := by
    intro i j hi
    exact absurd hi (Nat.not_lt_zero i)
  nodup := List.nodup_nil
  layers := by
    intro b hb
    exact absurd hb (Nat.not_lt_zero b)
  plain := by
    intro i hi
    rw [space_of_le (Nat.zero_le i)]
  based := by
    intro i hi
    obtain ⟨p, hp, -⟩ := covered_eq_true.mp hi
    cases hp
  loose := by
    intro i hi
    rw [space_of_le (Nat.zero_le i)]

theorem Stacked.push (h : Stacked s) (hnone : s.find? name package = none)
    (hnew : ∀ p, package = some p → p ∉ s.active) : Stacked (s.push name package).2 := by
  have hcovered : (s.push name package).2.covered = s.covered := by
    funext i
    rw [covered, covered]
    by_cases hi : i = s.spaces.size
    · subst hi
      rw [space_push_self, space_of_le (Nat.le_refl _)]
      cases package with
      | none => rfl
      | some p =>
        have hp : s.isActive p = false := by simpa [isActive] using hnew p rfl
        exact hp
    · rw [space_push_ne hi]
      rfl
  rw [Stacked, hcovered]
  exact Layered.push h hnone

theorem Stacked.obtain (h : Stacked s) : Stacked (s.obtain name package).2 := by
  unfold Namespaces.obtain
  cases hfind : s.find? name package with
  | some id => exact h
  | none =>
    cases package with
    | none => exact h.push hfind (fun p hp => by cases hp)
    | some p =>
      dsimp only
      by_cases hp : (s.push name (some p)).2.isActive p = true
      · rw [show (s.push name (some p)).1 = s.spaces.size from rfl, if_pos hp]
        have hactive : p ∈ s.active := List.contains_iff_mem.mp hp
        have hloose : s.covered s.spaces.size = false := by
          rw [covered, space_of_le (Nat.le_refl _)]
          rfl
        have hself : ((s.push name (some p)).2.space s.spaces.size).package = some p := by
          rw [space_push_self]
        have hlayered := (Layered.push h hfind).layer (by simp) hself hactive hloose
        have hcovered : ((s.push name (some p)).2.layer s.spaces.size).covered =
            fun i => i == s.spaces.size || s.covered i := by
          funext i
          rw [Bool.eq_iff_iff, covered_eq_true, Bool.or_eq_true, beq_iff_eq, covered_eq_true,
            active_layer]
          by_cases hi : i < s.spaces.size + 1
          · rw [core_package (grows_layer.old i (by simpa using hi))]
            by_cases he : i = s.spaces.size
            · subst he
              exact iff_of_true ⟨p, hactive, hself⟩ (.inl rfl)
            · rw [space_push_ne he, or_iff_right he]
              rfl
          · have hle : s.spaces.size + 1 ≤ i := Nat.le_of_not_lt hi
            rw [package_layer_of_le (by simpa using hle), space_of_le (Nat.le_of_succ_le hle)]
            refine iff_of_false ?_ ?_
            · rintro ⟨q, -, hq⟩
              cases hq
            · rintro (he | ⟨q, -, hq⟩)
              · exact absurd he (Nat.ne_of_gt hle)
              · cases hq
        rw [Stacked, hcovered]
        exact hlayered
      · rw [if_neg hp]
        refine h.push hfind ?_
        rintro _ ⟨⟩ hmem
        exact hp (List.contains_iff_mem.mpr hmem)

theorem Stacked.activate (h : Stacked s) : Stacked (s.activate package).2 := by
  cases package with
  | none => exact h
  | some p =>
    unfold Namespaces.activate
    dsimp only
    split
    · exact h
    · split
      · exact h
      · next hp =>
        exact (Layered.activateOne h fun hmem => hp (List.contains_iff_mem.mpr hmem)).1

/-- Packages are taken off the top of the stack with their layers. -/
theorem Stacked.unwind (h : Stacked s) {older newer : List Name}
    (hactive : s.active = older ++ newer) :
    Stacked { newer.reverse.foldl unlayerAll s with active := older } := by
  obtain ⟨h₁, hactive₁, hkeys⟩ := Layered.unlayerAll_foldl h newer.reverse
  generalize newer.reverse.foldl unlayerAll s = s₁ at h₁ hactive₁ hkeys
  obtain ⟨hn, -, hdisjoint⟩ := List.nodup_append.mp (hactive ▸ h.nodup)
  have hcovered : (fun i => !(s.space i).package.any newer.reverse.contains && s.covered i) =
      covered { s₁ with active := older } := by
    funext i
    rw [Bool.eq_iff_iff, covered_eq_true, Bool.and_eq_true, covered_eq_true, hactive]
    show _ ↔ ∃ p ∈ older, (s₁.space i).package = some p
    rw [hkeys.package]
    constructor
    · rintro ⟨hnot, p, hp, hi⟩
      rcases List.mem_append.mp hp with hp | hp
      · exact ⟨p, hp, hi⟩
      · simp [hi, hp] at hnot
    · rintro ⟨p, hp, hi⟩
      have hnew : p ∉ newer := fun hp' => hdisjoint p hp p hp' rfl
      exact ⟨by simp [hi, hnew], p, List.mem_append_left _ hp, hi⟩
  rw [hcovered] at h₁
  apply h₁.setActive hn
  · intro i hi
    exact covered_eq_true.mp hi
  · intro name
    rw [hactive₁, hactive]
    symm
    apply filter_overlaysIn_append h₁.distinct
    intro p hp i hi
    rw [Bool.eq_false_iff, Ne, covered_eq_true]
    rintro ⟨q, hq, hi'⟩
    obtain rfl := Option.some.inj (hi.symm.trans hi')
    exact hdisjoint p hq p hp rfl

/-- Deactivation takes one package off the stack and leaves the others in their order. -/
theorem Stacked.deactivate (h : Stacked s) (p : Name) :
    Stacked (s.deactivate (some p)).2 ∧ (s.deactivate (some p)).2.active = s.active.erase p := by
  unfold Namespaces.deactivate
  dsimp only
  by_cases hp : p ∈ s.active
  · have hnot : ¬ (!s.isActive p) = true := by simpa [isActive] using hp
    rw [if_neg hnot]
    obtain ⟨older, newer, hactive⟩ := List.append_of_mem hp
    have hpold : p ∉ older := by
      intro hmem
      exact (List.nodup_append.mp (hactive ▸ h.nodup)).2.2 p hmem p List.mem_cons_self rfl
    have hidx : s.active.idxOf p = older.length := by
      rw [hactive, List.idxOf_append_of_notMem hpold, List.idxOf_cons_self, Nat.add_zero]
    have herase : s.active.erase p = older ++ newer := by
      rw [hactive, List.erase_append_right _ hpold, List.erase_cons_head]
    have hdrop : s.active.drop older.length = p :: newer := by rw [hactive, List.drop_left]
    have habove : s.active.drop (older.length + 1) = newer := by
      rw [← List.drop_drop, hdrop, List.drop_one, List.tail_cons]
    have htake : ((p :: newer).reverse.foldl unlayerAll s).active.take older.length = older := by
      rw [(Layered.unlayerAll_foldl h _).2.1, hactive, List.take_left]
    rw [hidx, hdrop, habove, herase, htake]
    -- The packages above `p` went off the stack with it and come back in their order.
    have hnodup : (older ++ newer).Nodup := herase ▸ h.nodup.erase p
    obtain ⟨h₁, hactive₁⟩ := Layered.activate_foldl (h.unwind hactive) hnodup
    exact ⟨Stacked.congr h₁ ⟨rfl, fun _ => rfl, fun _ => rfl⟩ rfl (fun _ => rfl) (fun _ => rfl),
      hactive₁⟩
  · have hnot : (!s.isActive p) = true := by simpa [isActive] using hp
    rw [if_pos hnot]
    exact ⟨h, (List.erase_of_not_mem hp).symm⟩

/-! ## Every history -/

theorem SameKeys.of_place (hsize : s'.spaces.size = s.spaces.size)
    (hplace : ∀ i, (s'.space i).place = (s.space i).place) : SameKeys s s' :=
  ⟨hsize, fun i => congrArg (·.1) (hplace i), fun i => congrArg (·.2.1) (hplace i)⟩

theorem Stacked.of_place (h : Stacked s) (hsize : s'.spaces.size = s.spaces.size)
    (hactive : s'.active = s.active) (hplace : ∀ i, (s'.space i).place = (s.space i).place) :
    Stacked s' :=
  h.congr (SameKeys.of_place hsize hplace) hactive (fun i => congrArg (·.2.2.1) (hplace i))
    (fun i => congrArg (·.2.2.2) (hplace i))

theorem Stacked.step (h : Stacked s) (hstep : Step s s') : Stacked s' := by
  cases hstep with
  | obtain name package => exact h.obtain
  | define _ name body usage minArgs maxArgs =>
    exact h.of_place size_define active_define place_define
  | link _ _ => exact h.of_place size_link active_link place_link
  | unlink _ parent => exact h.of_place size_unlink active_unlink place_unlink
  | activate package => exact h.activate
  | deactivate package =>
    cases package with
    | none => exact h
    | some p => exact (h.deactivate p).1
  | lookup _ found =>
    exact h.of_place (size_lookup found) (active_lookup found) (place_lookup found)

theorem Reachable.stacked {size : Nat} (h : Reachable size s) : Stacked s :=
  h.invariant (stacked_start size) Stacked.step

end ConsoleScript.Namespaces
