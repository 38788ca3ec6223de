import ConsoleScript.Proofs.Console.LookupTable
import ConsoleScript.Proofs.Console.Namespaces
import Mathlib.Data.List.Perm.Subperm

/-!
# Looking names up

A look-up answers from a table, and the table was built for a walk: through the layers of a
namespace, newest first, its own entries, and the same for its ancestors. Links never close a
circle, so the walk ends at a namespace without a parent.

A table is in use while its stamp is the current one. Every operation that changes what a walk
meets moves the stamp, so a table in use answers for the walk as it is now.
-/

namespace ConsoleScript.Namespaces

variable {s s' : Namespaces} {id i j p : SpaceId} {ids ids' : List SpaceId} {n : Name}

/-! ## Lineages -/

/-- A namespace and its ancestors, nearest first. -/
inductive Lineage (s : Namespaces) : SpaceId → List SpaceId → Prop where
  | root {id : SpaceId} (h : (s.space id).parent = none) : Lineage s id [id]
  | child {id p : SpaceId} {ids : List SpaceId} (h : (s.space id).parent = some p)
      (rest : Lineage s p ids) : Lineage s id (id :: ids)

/-- The entries that a walk through namespaces meets. -/
def met (s : Namespaces) (ids : List SpaceId) : List EntryId := ids.flatMap s.ownVisible

theorem Lineage.mem (h : Lineage s id ids) : id ∈ ids := by
  cases h with
  | root _ => exact List.mem_singleton_self id
  | child _ _ => exact List.mem_cons_self

theorem Lineage.unique (h : Lineage s id ids) (h' : Lineage s id ids') : ids = ids' := by
  induction h generalizing ids' with
  | root hroot =>
    cases h' with
    | root _ => rfl
    | child hchild _ =>
      rw [hroot] at hchild
      cases hchild
  | child hchild _ ih =>
    cases h' with
    | root hroot =>
      rw [hroot] at hchild
      cases hchild
    | child hchild' rest =>
      rw [hchild] at hchild'
      cases hchild'
      rw [ih rest]

theorem Lineage.suffix (h : Lineage s id ids) (hj : j ∈ ids) :
    ∃ rest, Lineage s j rest ∧ rest <:+ ids := by
  induction h with
  | root hroot =>
    rw [List.mem_singleton.mp hj]
    exact ⟨_, .root hroot, List.suffix_refl _⟩
  | child hchild hrest ih =>
    rcases List.mem_cons.mp hj with rfl | hj
    · exact ⟨_, .child hchild hrest, List.suffix_refl _⟩
    · obtain ⟨rest, hlineage, hsuffix⟩ := ih hj
      exact ⟨rest, hlineage, hsuffix.trans (List.suffix_cons _ _)⟩

theorem Lineage.nodup (h : Lineage s id ids) : ids.Nodup := by
  induction h with
  | root _ => exact List.nodup_singleton _
  | child hchild hrest ih =>
    refine List.nodup_cons.mpr ⟨?_, ih⟩
    -- An ancestor that comes again would have a lineage longer than itself.
    intro hagain
    obtain ⟨rest, hlineage, hsuffix⟩ := hrest.suffix hagain
    have hlength := hsuffix.length_le
    rw [hlineage.unique (.child hchild hrest), List.length_cons] at hlength
    omega

theorem Lineage.congr (h : Lineage s id ids)
    (hparent : ∀ j ∈ ids, (s'.space j).parent = (s.space j).parent) : Lineage s' id ids := by
  induction h with
  | root hroot => exact .root ((hparent _ (List.mem_singleton_self _)).trans hroot)
  | child hchild _ ih =>
    refine .child ((hparent _ List.mem_cons_self).trans hchild) (ih ?_)
    intro j hj
    exact hparent j (List.mem_cons_of_mem _ hj)

/-- Every namespace has a lineage, among those that exist. -/
structure Rooted (s : Namespaces) : Prop where
  parent : ∀ i p, (s.space i).parent = some p → p < s.spaces.size
  lineage : ∀ i, ∃ ids, Lineage s i ids

theorem Rooted.lt_size (h : Rooted s) (hids : Lineage s id ids) (hid : id < s.spaces.size) :
    ∀ j ∈ ids, j < s.spaces.size := by
  induction hids with
  | root _ =>
    intro j hj
    rwa [List.mem_singleton.mp hj]
  | child hchild _ ih =>
    intro j hj
    rcases List.mem_cons.mp hj with rfl | hj
    · exact hid
    · exact ih (h.parent _ _ hchild) j hj

theorem Rooted.length_le (h : Rooted s) (hids : Lineage s id ids) :
    ids.length ≤ s.spaces.size + 1 := by
  cases hids with
  | root _ => exact Nat.succ_le_succ (Nat.zero_le _)
  | child hchild hrest =>
    -- All ancestors exist, and none of them comes twice.
    apply Nat.succ_le_succ
    have hsub : ∀ j ∈ _, j ∈ List.range s.spaces.size := fun j hj =>
      List.mem_range.mpr (h.lt_size hrest (h.parent _ _ hchild) j hj)
    simpa using (List.subperm_of_subset hrest.nodup hsub).length_le

theorem Lineage.visibleFrom_eq (h : Lineage s id ids) {fuel : Nat} (hfuel : ids.length ≤ fuel + 1) :
    s.visibleFrom fuel id = s.met ids := by
  induction h generalizing fuel with
  | root hroot =>
    unfold met
    rw [List.flatMap_singleton]
    cases fuel with
    | zero => rfl
    | succ fuel =>
      rw [visibleFrom, hroot]
      exact List.append_nil _
  | child hchild hrest ih =>
    have hlength := List.length_pos_of_mem hrest.mem
    rw [List.length_cons] at hfuel
    obtain ⟨fuel, rfl⟩ : ∃ m, fuel = m + 1 := ⟨fuel - 1, by omega⟩
    unfold met at ih ⊢
    rw [visibleFrom, hchild, List.flatMap_cons]
    exact congrArg _ (ih (by omega))

theorem Rooted.visible_eq (h : Rooted s) (hids : Lineage s id ids) : s.visible id = s.met ids :=
  hids.visibleFrom_eq (h.length_le hids)

theorem Lineage.reaches_iff (h : Lineage s i ids) {fuel : Nat} (hfuel : ids.length ≤ fuel + 1) :
    s.reaches id fuel i = true ↔ id ∈ ids := by
  induction h generalizing fuel with
  | root hroot =>
    rw [List.mem_singleton]
    cases fuel with
    | zero =>
      rw [reaches, beq_iff_eq]
      exact eq_comm
    | succ fuel =>
      rw [reaches, hroot, Bool.or_false, beq_iff_eq]
      exact eq_comm
  | child hchild hrest ih =>
    have hlength := List.length_pos_of_mem hrest.mem
    rw [List.length_cons] at hfuel
    obtain ⟨fuel, rfl⟩ : ∃ m, fuel = m + 1 := ⟨fuel - 1, by omega⟩
    rw [reaches, hchild, Bool.or_eq_true, beq_iff_eq, List.mem_cons]
    exact or_congr eq_comm (ih (by omega))

theorem Rooted.cut (h : Rooted s) (hsize : s.spaces.size ≤ s'.spaces.size)
    (hparent : ∀ i, (s'.space i).parent = (s.space i).parent ∨ (s'.space i).parent = none) :
    Rooted s' where
  parent i p hp := by
    rcases hparent i with he | he
    · exact Nat.lt_of_lt_of_le (h.parent i p (he ▸ hp)) hsize
    · rw [he] at hp
      cases hp
  lineage i := by
    obtain ⟨ids, hids⟩ := h.lineage i
    induction hids with
    | @root i hroot =>
      refine ⟨_, .root ?_⟩
      rcases hparent i with he | he
      · exact he.trans hroot
      · exact he
    | @child i p rest hchild hrest ih =>
      rcases hparent i with he | he
      · obtain ⟨ids, hids⟩ := ih
        exact ⟨_, .child (he.trans hchild) hids⟩
      · exact ⟨_, .root he⟩

/-- A namespace without a parent may get one that does not inherit from it. -/
theorem Rooted.attach (h : Rooted s) (hsize : s'.spaces.size = s.spaces.size)
    (hp : p < s.spaces.size) (hids : Lineage s p ids) (hnot : id ∉ ids)
    (hnone : (s.space id).parent = none) (hsome : (s'.space id).parent = some p)
    (hother : ∀ i, i ≠ id → (s'.space i).parent = (s.space i).parent) : Rooted s' where
  parent i q hq := by
    rw [hsize]
    by_cases hi : i = id
    · rw [hi, hsome] at hq
      cases hq
      exact hp
    · exact h.parent i q (hother i hi ▸ hq)
  lineage i := by
    have hkept : Lineage s' p ids := by
      apply hids.congr
      intro j hj
      apply hother
      rintro rfl
      exact hnot hj
    obtain ⟨old, hold⟩ := h.lineage i
    induction hold with
    | @root i hroot =>
      by_cases hi : i = id
      · subst hi
        exact ⟨_, .child hsome hkept⟩
      · exact ⟨_, .root ((hother i hi).trans hroot)⟩
    | @child i q rest hchild _ ih =>
      obtain ⟨new, hnew⟩ := ih
      refine ⟨_, .child ((hother i ?_).trans hchild) hnew⟩
      rintro rfl
      rw [hnone] at hchild
      cases hchild

/-! ## Tables in use -/

/-- The tables with the current stamp answer for the walks of their namespaces. -/
structure Cached (s : Namespaces) : Prop where
  sound : s.arena.Sound
  stamp : ∀ i, (s.space i).cacheStamp ≤ s.stamp
  answers : ∀ i t, (s.space i).cache = some t → (s.space i).cacheStamp = s.stamp →
    ∃ ids, Lineage s i ids ∧ Answers s.entries s.arena t (s.met ids) ∧
      (s.met ids).any (nameless s.entries) = false

/-- No table is in use after the stamp has moved. -/
theorem Cached.outdated (h : Cached s) (hstamp : s.stamp < s'.stamp) (hsound : s'.arena.Sound)
    (hcache : ∀ i, (s'.space i).cacheStamp = (s.space i).cacheStamp) : Cached s' where
  sound := hsound
  stamp i := by
    rw [hcache]
    exact Nat.le_trans (h.stamp i) (Nat.le_of_lt hstamp)
  answers i t _ hcurrent := by
    have hold := h.stamp i
    rw [hcache] at hcurrent
    omega

/-- Tables stay in use when nothing changes that a walk meets. -/
theorem Cached.still (h : Cached s) (hrooted : Rooted s) (hstamp : s'.stamp = s.stamp)
    (harena : s'.arena = s.arena) (hentries : s'.entries = s.entries)
    (hcache : ∀ i, (s'.space i).cache = (s.space i).cache ∧
      (s'.space i).cacheStamp = (s.space i).cacheStamp)
    (hparent : ∀ i, (s'.space i).parent = (s.space i).parent)
    (hvisible : ∀ i < s.spaces.size, s'.ownVisible i = s.ownVisible i) : Cached s' where
  sound := harena ▸ h.sound
  stamp i := by
    rw [(hcache i).2, hstamp]
    exact h.stamp i
  answers i t ht hcurrent := by
    rw [(hcache i).1] at ht
    rw [(hcache i).2, hstamp] at hcurrent
    obtain ⟨ids, hids, hanswers, hnamed⟩ := h.answers i t ht hcurrent
    have hi : i < s.spaces.size := by
      apply Nat.lt_of_not_le
      intro hle
      rw [space_of_le hle] at ht
      cases ht
    have hmet : s'.met ids = s.met ids := by
      unfold met
      rw [List.flatMap_def, List.flatMap_def]
      refine congrArg List.flatten (List.map_congr_left ?_)
      intro j hj
      exact hvisible j (hrooted.lt_size hids hi j hj)
    refine ⟨ids, hids.congr fun j _ => hparent j, ?_, ?_⟩
    · rw [hentries, harena, hmet]
      exact hanswers
    · rw [hentries, hmet]
      exact hnamed

theorem ownVisible_congr (hlayers : (s'.space i).layers = (s.space i).layers)
    (hentries : ∀ j, (s'.space j).entries = (s.space j).entries) :
    s'.ownVisible i = s.ownVisible i := by
  unfold ownVisible
  simp only [hlayers, hentries]

theorem Grows.core_eq (h : Grows s s') {β : Type} (g : Namespace → β)
    (hcore : ∀ n : Namespace, g n.core = g n)
    (hnew : ∀ name package, g { name := name, package := package } = g {}) (i : SpaceId) :
    g (s'.space i) = g (s.space i) := by
  by_cases hi : i < s.spaces.size
  · rw [← hcore, h.old i hi, hcore]
  · obtain ⟨name, package, hcore'⟩ := h.new i (Nat.le_of_not_lt hi)
    rw [space_of_le (Nat.le_of_not_lt hi), ← hcore, hcore', hnew]

theorem Grows.parent_eq (h : Grows s s') (i : SpaceId) :
    (s'.space i).parent = (s.space i).parent :=
  h.core_eq Namespace.parent (fun _ => rfl) (fun _ _ => rfl) i

theorem Rooted.grows (h : Rooted s) (hgrows : Grows s s') : Rooted s' :=
  h.cut hgrows.size fun i => .inl (hgrows.parent_eq i)

theorem Cached.grows (h : Cached s) (hrooted : Rooted s) (hgrows : Grows s s') : Cached s' := by
  have hcache (i : SpaceId) : (s'.space i).cache = (s.space i).cache :=
    hgrows.core_eq Namespace.cache (fun _ => rfl) (fun _ _ => rfl) i
  have hold (i : SpaceId) : (s'.space i).cacheStamp = (s.space i).cacheStamp :=
    hgrows.core_eq Namespace.cacheStamp (fun _ => rfl) (fun _ _ => rfl) i
  have hentries (i : SpaceId) : (s'.space i).entries = (s.space i).entries :=
    hgrows.core_eq Namespace.entries (fun _ => rfl) (fun _ _ => rfl) i
  rcases Nat.eq_or_lt_of_le hgrows.stamp with hstamp | hstamp
  · obtain ⟨harena, hlayers⟩ := hgrows.still hstamp.symm
    apply h.still hrooted hstamp.symm harena hgrows.entries (fun i => ⟨hcache i, hold i⟩)
      hgrows.parent_eq
    intro i hi
    exact ownVisible_congr (hlayers i hi) hentries
  · apply h.outdated hstamp _ hold
    rw [hgrows.moved hstamp]
    exact Arena.sound_reset

/-! ## Building a table -/

theorem Cached.built {t : Slice} {a : Arena EntryId} (h : Cached s) (hrooted : Rooted s)
    (hbuild : s.buildTable id = .ok (t, a)) (hid : id < s.spaces.size) :
    Cached ({ s with arena := a }.modify id fun n =>
      { n with cache := some t, cacheStamp := s.stamp }) := by
  have hspec := buildTable_spec h.sound id
  split at hspec
  · rw [hbuild] at hspec
    cases hspec
  next hnamed =>
  obtain ⟨t, a, hbuild', hsound, hanswers, hkeeps⟩ := hspec
  rw [hbuild] at hbuild'
  cases hbuild'
  -- Nothing that a walk meets has changed, but the table and the stamp of one namespace have.
  let s₁ : Namespaces := { s with arena := a }
  let f (n : Namespace) : Namespace := { n with cache := some t, cacheStamp := s.stamp }
  have hkept {β : Type} (g : Namespace → β) (hg : ∀ n, g (f n) = g n) (i : SpaceId) :
      g ((s₁.modify id f).space i) = g (s.space i) := space_modify_same (s := s₁) g hg i
  have hself : (s₁.modify id f).space id = f (s.space id) := space_modify_self (s := s₁) hid
  have hparent (i : SpaceId) := hkept Namespace.parent (fun _ => rfl) i
  have hmet (ids : List SpaceId) : (s₁.modify id f).met ids = s.met ids := by
    have hvisible : (s₁.modify id f).ownVisible = s.ownVisible := by
      funext i
      exact ownVisible_congr (hkept Namespace.layers (fun _ => rfl) i)
        (hkept Namespace.entries fun _ => rfl)
    rw [met, met, hvisible]
  refine ⟨hsound, ?_, ?_⟩
  · intro i
    refine space_modify_rec (s := s₁) (fun _ n => n.cacheStamp ≤ s.stamp) h.stamp ?_ i
    intro _
    exact Nat.le_refl _
  · intro i t' ht' hcurrent
    by_cases hi : i = id
    · subst hi
      obtain ⟨ids, hids⟩ := hrooted.lineage i
      rw [hrooted.visible_eq hids] at hanswers hnamed
      rw [hself] at ht'
      cases ht'
      refine ⟨ids, hids.congr fun j _ => hparent j, ?_⟩
      rw [hmet]
      exact ⟨hanswers, Bool.eq_false_iff.mpr hnamed⟩
    · -- The tables of other namespaces were given out before and are read as they were.
      have hsame : (s₁.modify id f).space i = s.space i := space_modify_ne (s := s₁) hi
      rw [hsame] at ht' hcurrent
      obtain ⟨ids, hids, hanswers', hnamed'⟩ := h.answers i t' ht' hcurrent
      obtain ⟨hheld, hread⟩ := hkeeps t' hanswers'.held
      refine ⟨ids, hids.congr fun j _ => hparent j, ?_⟩
      rw [hmet]
      exact ⟨hanswers'.congr hheld hread, hnamed'⟩

/-- A look-up has a table in use, unless the walk meets a callable entry without a name. -/
theorem Cached.refresh_spec (h : Cached s) (hrooted : Rooted s) (hid : id < s.spaces.size)
    (hids : Lineage s id ids) :
    if (s.met ids).any (nameless s.entries) then s.refresh id = .error .absent
    else ∃ s' t, s.refresh id = .ok s' ∧ (s'.space id).cache = some t ∧
      s'.entries = s.entries ∧ Answers s.entries s'.arena t (s.met ids) := by
  unfold refresh
  by_cases hcurrent : (s.space id).cacheStamp = s.stamp ∧ ∃ t, (s.space id).cache = some t
  · obtain ⟨hstamp, t, ht⟩ := hcurrent
    obtain ⟨ids', hids', hanswers, hnamed⟩ := h.answers id t ht hstamp
    rw [hids'.unique hids] at hanswers hnamed
    rw [hnamed]
    refine ⟨s, t, ?_, ht, rfl, hanswers⟩
    simp [hstamp, ht]
  · have hold : ¬ (((s.space id).cacheStamp == s.stamp && (s.space id).cache.isSome) = true) := by
      rw [Bool.and_eq_true, beq_iff_eq, Option.isSome_iff_exists]
      exact hcurrent
    dsimp only
    rw [if_neg hold]
    have hspec := buildTable_spec h.sound id
    rw [hrooted.visible_eq hids] at hspec
    split at hspec
    · next hnameless =>
      rw [if_pos hnameless, hspec]
      rfl
    · next hnamed =>
      rw [if_neg hnamed]
      obtain ⟨t, a, hbuild, -, hanswers, -⟩ := hspec
      rw [hbuild]
      refine ⟨_, t, rfl, ?_, rfl, hanswers⟩
      exact congrArg Namespace.cache (space_modify_self (s := { s with arena := a }) hid)

/-! ## Histories -/

/-- Walks end, and tables in use answer for them. -/
structure Indexed (s : Namespaces) : Prop where
  rooted : Rooted s
  cached : Cached s

theorem indexed_start (size : Nat) : Indexed (start size) where
  rooted := by
    refine ⟨?_, fun i => ⟨_, .root rfl⟩⟩
    intro i p hp
    cases hp
  cached := by
    refine ⟨Arena.sound_empty size, fun i => Nat.zero_le _, ?_⟩
    intro i t ht
    cases ht

theorem Indexed.grows (h : Indexed s) (hgrows : Grows s s') : Indexed s' :=
  ⟨h.rooted.grows hgrows, h.cached.grows h.rooted hgrows⟩

/-- Counting requests for a parent changes nothing that a walk meets. -/
theorem Indexed.count (h : Indexed s) (id : SpaceId) (count : Int → Int) :
    Indexed (s.modify id fun n => { n with linkCount := count n.linkCount }) := by
  have hkept {β : Type} (g : Namespace → β)
      (hg : ∀ n, g { n with linkCount := count n.linkCount } = g n) (i : SpaceId) :=
    @space_modify_same s id _ β g hg i
  have hparent := hkept Namespace.parent fun _ => rfl
  refine ⟨h.rooted.cut (by simp) fun i => .inl (hparent i), ?_⟩
  refine h.cached.still h.rooted rfl rfl rfl ?_ hparent ?_
  · intro i
    exact ⟨hkept Namespace.cache (fun _ => rfl) i, hkept Namespace.cacheStamp (fun _ => rfl) i⟩
  · intro i _
    exact ownVisible_congr (hkept Namespace.layers (fun _ => rfl) i)
      (hkept Namespace.entries fun _ => rfl)

theorem Indexed.define (h : Indexed s) (id : SpaceId) (name : Option Name) (body : EntryBody)
    (usage : Text) (minArgs maxArgs : Int) :
    Indexed (s.define id name body usage minArgs maxArgs).2.2 := by
  unfold Namespaces.define
  split
  · exact ⟨h.rooted.cut (Nat.le_refl _) fun _ => .inl rfl,
      h.cached.outdated (Nat.lt_succ_self _) Arena.sound_reset fun _ => rfl⟩
  · have hkept {β : Type} (g : Namespace → β)
        (hg : ∀ n, g { n with entries := s.entries.size :: n.entries } = g n) (i : SpaceId) :=
      @space_modify_same s id _ β g hg i
    refine ⟨h.rooted.cut (by simp) fun i => .inl (hkept Namespace.parent (fun _ => rfl) i), ?_⟩
    exact h.cached.outdated (Nat.lt_succ_self _) Arena.sound_reset
      (hkept Namespace.cacheStamp fun _ => rfl)

theorem Indexed.link (h : Indexed s) (hid : id < s.spaces.size) (hp : p < s.spaces.size) :
    Indexed (s.link id p).2 := by
  unfold Namespaces.link
  split
  · split
    · exact h.count id (· + 1)
    · exact h
  · next hnone =>
    split
    · exact h
    · next hreaches =>
      obtain ⟨ids, hids⟩ := h.rooted.lineage p
      rw [hids.reaches_iff (h.rooted.length_le hids)] at hreaches
      have hkept {β : Type} (g : Namespace → β)
          (hg : ∀ n, g { n with parent := some p, linkCount := 1 } = g n) (i : SpaceId) :=
        @space_modify_same s id _ β g hg i
      refine ⟨h.rooted.attach (by simp) hp hids hreaches hnone ?_ ?_, ?_⟩
      · rw [space_outdate, space_modify_self hid]
      · intro i hi
        rw [space_outdate, space_modify_ne hi]
      · exact h.cached.outdated (Nat.lt_succ_self _) Arena.sound_reset
          (hkept Namespace.cacheStamp fun _ => rfl)

theorem Indexed.unlink (h : Indexed s) : Indexed (s.unlink id p).2 := by
  unfold Namespaces.unlink
  split
  · exact h
  · have hcounted := h.count id fun _ => (s.space id).linkCount - 1
    dsimp only
    split
    · let s₁ := s.modify id fun n => { n with linkCount := (s.space id).linkCount - 1 }
      have hkept {β : Type} (g : Namespace → β)
          (hg : ∀ n, g { n with parent := none } = g n) (i : SpaceId) :=
        @space_modify_same s₁ id _ β g hg i
      refine ⟨hcounted.rooted.cut (by simp) ?_, ?_⟩
      · refine space_modify_rec (s := s₁)
          (fun i n => n.parent = (s₁.space i).parent ∨ n.parent = none) (fun _ => .inl rfl) ?_
        intro _
        exact .inr rfl
      · exact hcounted.cached.outdated (Nat.lt_succ_self _) Arena.sound_reset
          (hkept Namespace.cacheStamp fun _ => rfl)
    · exact hcounted

theorem Indexed.step (h : Indexed s) (hstep : Step s s') : Indexed s' := by
  cases hstep with
  | obtain name package => exact h.grows grows_obtain
  | define _ name body usage minArgs maxArgs => exact h.define _ name body usage minArgs maxArgs
  | link hid hp => exact h.link hid hp
  | unlink _ parent => exact h.unlink
  | activate package => exact h.grows grows_activate
  | deactivate package => exact h.grows grows_deactivate
  | lookup hid found =>
    obtain rfl | ⟨t, a, hbuild, rfl⟩ := lookup_eq_ok found
    · exact h
    · refine ⟨h.rooted.cut (by simp) fun i => .inl ?_, h.cached.built h.rooted hbuild hid⟩
      have hkept (n : Namespace) :
        Namespace.parent { n with cache := some t, cacheStamp := s.stamp } = n.parent := rfl
      exact space_modify_same (s := { s with arena := a }) Namespace.parent hkept i

theorem Reachable.indexed {size : Nat} (h : Reachable size s) : Indexed s :=
  Reachable.invariant (indexed_start size) (fun h hstep => h.step hstep) h

/-- A look-up finds what the walk meets first, unless the walk meets a callable entry without a
name. -/
theorem Indexed.lookup_first (h : Indexed s) (hid : id < s.spaces.size) (hids : Lineage s id ids)
    (hnamed : (s.met ids).any (nameless s.entries) = false) (n : Name) :
    ∃ s', s.lookup id (some n) = .ok (firstNamed s.entries (s.met ids) n, s') := by
  have hrefresh := h.cached.refresh_spec h.rooted hid hids
  rw [hnamed, if_neg Bool.false_ne_true] at hrefresh
  obtain ⟨s', t, hok, ht, hentries, hanswers⟩ := hrefresh
  refine ⟨s', ?_⟩
  rw [lookup_of_refresh hok, ht, hentries]
  dsimp only
  rw [hanswers.findIn_eq]
  rfl

/-- In every history and for every arena, a look-up finds what the walk meets first: the first
entry of the name that is not a heading. Its table always has a place to end the search at. Only a
callable entry without a name, anywhere on the walk, makes it fail. -/
theorem lookup_eq_walk {size : Nat} (hs : Reachable size s) (hid : id < s.spaces.size) (n : Name) :
    ∃ ids, Lineage s id ids ∧
      if (s.met ids).any (nameless s.entries) then s.lookup id (some n) = .error .absent
      else ∃ s', s.lookup id (some n) = .ok (firstNamed s.entries (s.met ids) n, s') := by
  have h := hs.indexed
  obtain ⟨ids, hids⟩ := h.rooted.lineage id
  refine ⟨ids, hids, ?_⟩
  have hrefresh := h.cached.refresh_spec h.rooted hid hids
  split at hrefresh
  · next hnameless =>
    rw [if_pos hnameless, lookup, hrefresh]
    rfl
  · next hnamed =>
    rw [if_neg hnamed]
    obtain ⟨s', t, hok, ht, hentries, hanswers⟩ := hrefresh
    refine ⟨s', ?_⟩
    rw [lookup_of_refresh hok, ht, hentries]
    dsimp only
    rw [hanswers.findIn_eq]
    rfl

/-- A heading in the nearer namespace does not hide an entry of its parent, and an older entry there
whose number falls on the same place of the table does not either. -/
theorem lookup_eq_walk_past_heading :
    let s₁ := ((start 1).obtain none none).2
    let s₂ := (s₁.obtain (some ⟨0⟩) none).2
    let s₃ := (s₂.link 1 0).2
    let s₄ := (s₃.define 0 (some ⟨8⟩) .callback [] 0 0).2.2
    let s₅ := (s₄.define 1 (some ⟨0⟩) .group [] 0 0).2.2
    let s := (s₅.define 0 (some ⟨0⟩) .callback [] 0 0).2.2
    ∃ s', s.lookup 1 (some ⟨0⟩) = .ok (some 2, s') := by
  intro s₁ s₂ s₃ s₄ s₅ s
  have h₁ : Reachable 1 s₁ := .single (.obtain _ _ _)
  have h₂ : Reachable 1 s₂ := h₁.tail (.obtain _ _ _)
  have h₃ : Reachable 1 s₃ := h₂.tail (.link (by decide +kernel) (by decide +kernel))
  have h₄ : Reachable 1 s₄ := h₃.tail (.define (by decide +kernel) _ _ _ _ _)
  have h₅ : Reachable 1 s₅ := h₄.tail (.define (by decide +kernel) _ _ _ _ _)
  have hs : Reachable 1 s := h₅.tail (.define (by decide +kernel) _ _ _ _ _)
  have hid : 1 < s.spaces.size := by decide +kernel
  obtain ⟨ids, hids, hlookup⟩ := lookup_eq_walk hs hid ⟨0⟩
  have hlineage : Lineage s 1 [1, 0] := .child (by decide +kernel) (.root (by decide +kernel))
  have hnamed : (s.met [1, 0]).any (nameless s.entries) = false := by decide +kernel
  have hfirst : firstNamed s.entries (s.met [1, 0]) ⟨0⟩ = some 2 := by decide +kernel
  rw [hids.unique hlineage, hnamed, hfirst] at hlookup
  exact hlookup

end ConsoleScript.Namespaces
