import ConsoleScript.Proofs.Console.Changes

/-!
# Registering and deleting objects

When an object is registered its namespaces are linked below one another, and the object keeps a
record of the links; when it is deleted the links are taken back. Little else of the console changes.
-/

namespace ConsoleScript

namespace Namespaces

variable {s : Namespaces} {id parent : SpaceId} {name package : Option Name}

theorem entries_link (s : Namespaces) (id parent : SpaceId) :
    (s.link id parent).2.entries = s.entries := by
  unfold link
  split <;> split <;> rfl

theorem entries_unlink (s : Namespaces) (id parent : SpaceId) :
    (s.unlink id parent).2.entries = s.entries := by
  unfold unlink
  split
  · rfl
  · dsimp only
    split <;> rfl

/-- Takes back links, one after the other. -/
def unlinkAll (s : Namespaces) (links : List (SpaceId × SpaceId)) : Namespaces :=
  links.foldl (fun s (child, parent) => (s.unlink child parent).2) s

theorem entries_unlinkAll (links : List (SpaceId × SpaceId)) (s : Namespaces) :
    (s.unlinkAll links).entries = s.entries := by
  induction links generalizing s with
  | nil => rfl
  | cons link links ih => exact (ih _).trans (entries_unlink s link.1 link.2)

theorem snd_link_of_not_fst (h : (s.link id parent).1 = false) : (s.link id parent).2 = s := by
  unfold link at h ⊢
  split at h <;> split at h <;> simp_all

theorem fst_obtain_lt (s : Namespaces) (name package : Option Name) :
    (s.obtain name package).1 < (s.obtain name package).2.spaces.size := by
  unfold obtain
  split
  · rename_i id hid
    exact (find?_some hid).1
  · have hpush : (s.push name package).1 < (s.push name package).2.spaces.size := by simp [push]
    dsimp only
    split
    · exact hpush
    · split
      · exact Nat.lt_of_lt_of_le hpush grows_layer.size
      · exact hpush

end Namespaces

namespace Objects

variable {o : Objects} {r s : ObjectRef}

theorem size_publish (o : Objects) (r : ObjectRef) : (o.publish r).store.size = o.store.size := by
  unfold publish
  dsimp only
  rw [size_modify]
  split <;> rfl

theorem size_withdraw (o : Objects) (r : ObjectRef) :
    (o.withdraw r).store.size = o.store.size := by
  unfold withdraw
  dsimp only
  rw [size_modify]
  split
  · split <;> rfl
  · rfl

theorem get_publish (h : r < o.store.size) : (o.publish r).get r =
    { o.get r with id := o.nextId, registered := true } := by
  have hname : ∀ o' : Objects, o'.store = o.store →
      (o'.modify r fun obj => { obj with id := o.nextId, registered := true }).get r =
        { o.get r with id := o.nextId, registered := true } := by
    intro o' he
    rw [get_modify_self (he ▸ h), get, get, he]
  unfold publish
  dsimp only
  split
  · exact hname _ rfl
  · exact hname _ rfl

theorem get_publish_ne (h : s ≠ r) : (o.publish r).get s = o.get s := by
  unfold publish
  dsimp only
  rw [get_modify_ne h]
  split <;> rfl

end Objects

namespace Console

variable {c c' : Console} {links : List (SpaceId × SpaceId)} {r : ObjectRef}

inductive Links : Console → List (SpaceId × SpaceId) → Console → Prop
  | done (c : Console) : Links c [] c
  | intern {c c' : Console} {links : List (SpaceId × SpaceId)} (t : Text)
    (rest : Links (c.intern t).2 links c') : Links c links c'
  | obtain {c c' : Console} {links : List (SpaceId × SpaceId)} (name : Option Name)
    (rest : Links (c.obtain name none).2 links c') : Links c links c'
  | link {c c' : Console} {links : List (SpaceId × SpaceId)} {id parent : SpaceId} {s : Namespaces}
    (child : id < c.spaces.spaces.size) (ancestor : parent < c.spaces.spaces.size)
    (h : c.spaces.link id parent = (true, s)) (rest : Links { c with spaces := s } links c') :
    Links c ((id, parent) :: links) c'

/-- One link is asked for, and made or refused. -/
theorem links_link {id parent : SpaceId} (hid : id < c.spaces.spaces.size)
    (hparent : parent < c.spaces.spaces.size) :
    Links c (if (c.spaces.link id parent).1 then [(id, parent)] else [])
      { c with spaces := (c.spaces.link id parent).2 } := by
  cases h : (c.spaces.link id parent).1 with
  | true => exact .link hid hparent (Prod.ext h rfl) (.done _)
  | false =>
    rw [Namespaces.snd_link_of_not_fst h]
    exact .done c

theorem links_linkChain (c : Console) {cur : SpaceId} (hcur : cur < c.spaces.spaces.size)
    (ts : List Text) : Links c (c.linkChain cur ts).1.2 (c.linkChain cur ts).2 := by
  induction ts generalizing c cur with
  | nil => exact .done c
  | cons t ts ih =>
    rw [linkChain]
    split
    · exact ih c hcur
    · refine .intern t (.obtain (c.intern t).1 ?_)
      have hid : ((c.intern t).2.obtain (c.intern t).1 none).1 <
          ((c.intern t).2.obtain (c.intern t).1 none).2.spaces.spaces.size :=
        Namespaces.fst_obtain_lt _ _ _
      have hcur' : cur < ((c.intern t).2.obtain (c.intern t).1 none).2.spaces.spaces.size :=
        Nat.lt_of_lt_of_le hcur Namespaces.grows_obtain.size
      dsimp only
      generalize (c.intern t).2.obtain (c.intern t).1 none = obtained at *
      split
      · exact ih _ hcur'
      · split
        · exact .done _
        · rename_i spaces hlink
          have hsize : spaces.spaces.size = obtained.2.spaces.spaces.size := by
            rw [← Namespaces.size_link (s := obtained.2.spaces), hlink]
          exact .link hid hcur' hlink (ih _ (hsize ▸ hid))

theorem Links.objects (h : Links c links c') : c'.objects = c.objects := by
  induction h with
  | done c => rfl
  | intern t _ ih => exact ih
  | obtain name _ ih => exact ih
  | link _ _ _ _ ih => exact ih

/-- Links between namespaces and objects may differ, names may have been added, and nothing else that
commands depend on differs. -/
structure SameSetting (c c' : Console) : Prop where
  names : c.names.Grows c'.names
  scopes : c'.scopes = c.scopes
  blocks : c'.blocks = c.blocks
  entries : c'.spaces.entries = c.spaces.entries
  limit : c'.maxCallDepth = c.maxCallDepth
  calls : c'.callDepth = c.callDepth

theorem Links.sameSetting (h : Links c links c') : SameSetting c c' := by
  induction h with
  | done c => exact ⟨.refl _, rfl, rfl, rfl, rfl, rfl⟩
  | intern t _ ih =>
    exact ⟨(NameTable.grows_intern _ t).trans ih.names, ih.scopes, ih.blocks, ih.entries, ih.limit,
      ih.calls⟩
  | obtain name _ ih =>
    exact ⟨ih.names, ih.scopes, ih.blocks, ih.entries.trans Namespaces.grows_obtain.entries, ih.limit,
      ih.calls⟩
  | @link c c' links id parent s _ _ h _ ih =>
    have hentries := c.spaces.entries_link id parent
    rw [h] at hentries
    exact ⟨ih.names, ih.scopes, ih.blocks, ih.entries.trans hentries, ih.limit, ih.calls⟩

/-- Choosing the namespace of an object links namespaces and keeps a record of the links. -/
theorem linkSpaces_eq (c : Console) (r : ObjectRef) : ∃ space links c₁, Links c links c₁ ∧
    c.linkSpaces r = { c₁ with objects := c.objects.modify r fun o =>
      { o with space := some space, links := o.links ++ links } } := by
  have hcur : (c.obtain (some (c.objects.get r).cls) none).1 <
      (c.obtain (some (c.objects.get r).cls) none).2.spaces.spaces.size :=
    Namespaces.fst_obtain_lt _ _ _
  rw [linkSpaces]
  dsimp only
  generalize [(c.objects.get r).fields.value "superClass" [],
    (c.objects.get r).fields.value "class" [],
    (c.obtain (some (c.objects.get r).cls) none).2.names.text? (c.objects.get r).name] = ts
  have hlinks := (links_linkChain _ hcur ts).obtain _
  generalize (c.obtain (some (c.objects.get r).cls) none).2.linkChain
    (c.obtain (some (c.objects.get r).cls) none).1 ts = chained at hlinks ⊢
  refine ⟨chained.1.1, chained.1.2, chained.2, hlinks, ?_⟩
  rw [hlinks.objects]

theorem publish_eq (c : Console) (r : ObjectRef) : ∃ space links c₁,
    Links { c with objects := c.objects.publish r } links c₁ ∧
      c.publish r = { c₁ with objects := (c.objects.publish r).modify r fun o =>
        { o with space := some space, links := o.links ++ links } } :=
  linkSpaces_eq _ r

theorem sameSetting_publish (c : Console) (r : ObjectRef) : SameSetting c (c.publish r) := by
  obtain ⟨space, links, c₁, hlinks, he⟩ := c.publish_eq r
  have hsame := hlinks.sameSetting
  rw [he]
  exact ⟨hsame.names, hsame.scopes, hsame.blocks, hsame.entries, hsame.limit, hsame.calls⟩

theorem size_publish (c : Console) (r : ObjectRef) :
    (c.publish r).objects.store.size = c.objects.store.size := by
  obtain ⟨space, links, c₁, hlinks, he⟩ := c.publish_eq r
  rw [he, Objects.size_modify, Objects.size_publish]

theorem get_publish_self (h : r < c.objects.store.size) : ∃ id space links,
    (c.publish r).objects.get r =
      { c.objects.get r with id := id, registered := true, space := space, links := links } := by
  obtain ⟨space, links, c₁, -, he⟩ := c.publish_eq r
  rw [he, Objects.get_modify_self (by rwa [Objects.size_publish]), Objects.get_publish h]
  exact ⟨_, _, _, rfl⟩

theorem registered_publish (h : r < c.objects.store.size) :
    ((c.publish r).objects.get r).registered = true := by
  obtain ⟨id, space, links, he⟩ := get_publish_self h
  rw [he]

/-- Deleting an object takes it out of sets, takes its links back and makes it unknown. -/
theorem withdraw_eq (c : Console) (r : ObjectRef) : ∃ o : Objects, c.objects.Keeps o ∧
    c.withdraw r = { c with
      spaces := c.spaces.unlinkAll (c.objects.get r).links.reverse
      objects := (o.modify r fun x => { x with links := [] }).withdraw r } := by
  rw [withdraw, unlinkSpaces]
  dsimp only
  cases (c.objects.get r).group with
  | none =>
    have hkeeps := Objects.Keeps.removeFromSets c.objects r
    dsimp only
    rw [hkeeps.links r]
    exact ⟨_, hkeeps, rfl⟩
  | some g =>
    have hkeeps := (Objects.Keeps.removeChild c.objects g r).trans (.removeFromSets _ r)
    dsimp only
    rw [hkeeps.links r]
    exact ⟨_, hkeeps, rfl⟩

theorem sameSetting_withdraw (c : Console) (r : ObjectRef) : SameSetting c (c.withdraw r) := by
  obtain ⟨o, -, he⟩ := c.withdraw_eq r
  rw [he]
  exact ⟨.refl _, rfl, rfl, Namespaces.entries_unlinkAll _ _, rfl, rfl⟩

theorem size_withdraw (c : Console) (r : ObjectRef) :
    c.objects.store.size ≤ (c.withdraw r).objects.store.size := by
  obtain ⟨o, hkeeps, he⟩ := c.withdraw_eq r
  rw [he, Objects.size_withdraw, Objects.size_modify]
  exact hkeeps.size

end Console

end ConsoleScript
