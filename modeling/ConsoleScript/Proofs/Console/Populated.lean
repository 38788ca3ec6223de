import ConsoleScript.Proofs.Console.ObjectTrees
import ConsoleScript.Proofs.Console.Owning
import ConsoleScript.Proofs.Console.Steadiness

/-!
# Consoles with objects

Where nothing is called `onAdd` or `onRemove`, objects are made and registered, put into sets and
taken out of them without any script running. `Populated` tells what consoles come about in that way,
in any order. In all of them the children of groups are the objects that belong to them, and the
numbers of objects are different until they have all been given away.
-/

namespace ConsoleScript

namespace Namespaces

variable {s : Namespaces}

theorem Indexed.unlinkAll (h : s.Indexed) (links : List (SpaceId × SpaceId)) :
    (s.unlinkAll links).Indexed := by
  induction links generalizing s with
  | nil => exact h
  | cons link links ih => exact ih h.unlink

end Namespaces

namespace Console

open Objects

variable {c c' : Console} {r : ObjectRef}

/-! ## Consoles without handlers -/

/-- Nothing does anything that is called `onAdd` or `onRemove`, and the names and the namespaces of
objects are there. -/
structure Handlerless (c : Console) : Prop where
  adds : c.Ignores "onAdd"
  removes : c.Ignores "onRemove"
  spaces : ∀ r space, (c.objects.get r).space = some space → space < c.spaces.spaces.size
  names : ∀ r n, (c.objects.get r).name = some n → c.names.Knows n

namespace Handlerless

theorem of_eq (h : c.Handlerless) (hnames : c.names.Extends c'.names) (hindexed : c'.spaces.Indexed)
    (hentries : c'.spaces.entries = c.spaces.entries)
    (hsize : c.spaces.spaces.size ≤ c'.spaces.spaces.size)
    (hspace : ∀ s, (c'.objects.get s).space = (c.objects.get s).space)
    (hname : ∀ s, (c'.objects.get s).name = (c.objects.get s).name)
    (hnamed : ∀ (n : Name) s, c'.objects.named[n]? = some s → c.objects.named[n]? = some s) :
    c'.Handlerless where
  adds := h.adds.of_eq hnames hindexed hentries fun n s hs =>
    hnames.knows (h.adds.named n s (hnamed n s hs))
  removes := h.removes.of_eq hnames hindexed hentries fun n s hs =>
    hnames.knows (h.removes.named n s (hnamed n s hs))
  spaces s space hs := Nat.lt_of_lt_of_le (h.spaces s space (hspace s ▸ hs)) hsize
  names s n hs := hnames.knows (h.names s n (hname s ▸ hs))

/-- Objects change, and neither their names nor their namespaces do. -/
theorem objects (h : c.Handlerless) {o : Objects}
    (hspace : ∀ s, (o.get s).space = (c.objects.get s).space)
    (hname : ∀ s, (o.get s).name = (c.objects.get s).name)
    (hnamed : ∀ (n : Name) s, o.named[n]? = some s → c.objects.named[n]? = some s) :
    Handlerless { c with objects := o } :=
  h.of_eq (.refl _) h.adds.indexed rfl (Nat.le_refl _) hspace hname hnamed

theorem takeChildren (h : c.Handlerless) (r : ObjectRef) : (c.takeChildren r).Handlerless :=
  h.objects (congr_modify (f := fun o => { o with children := [] }) Object.space fun _ => rfl)
    (congr_modify (f := fun o => { o with children := [] }) Object.name fun _ => rfl)
    fun _ _ hs => hs

theorem leaveGroup (h : c.Handlerless) (r : ObjectRef) : (c.leaveGroup r).Handlerless :=
  h.objects (congr_modify (f := fun o => { o with group := none }) Object.space fun _ => rfl)
    (congr_modify (f := fun o => { o with group := none }) Object.name fun _ => rfl)
    fun _ _ hs => hs

theorem withdraw (h : c.Handlerless) (r : ObjectRef) : (c.withdraw r).Handlerless := by
  obtain ⟨o, he⟩ : ∃ o : Objects, c.withdraw r = { c with
      spaces := c.spaces.unlinkAll (c.objects.get r).links.reverse, objects := o } := by
    obtain ⟨o, -, he⟩ := c.withdraw_eq r
    exact ⟨_, he⟩
  obtain rfl : o = c.objects.dismiss r :=
    (congrArg Console.objects he).symm.trans (c.objects_withdraw r)
  have hsize := (Steady.withdraw c r).spaces.size
  rw [he] at hsize ⊢
  refine h.of_eq (.refl _) (h.adds.indexed.unlinkAll _) (Namespaces.entries_unlinkAll _ _) hsize
    (space_dismiss c.objects r) (name_dismiss c.objects r) fun n s hs => ?_
  have hs : (c.objects.dismiss r).named[n]? = some s := hs
  rw [getElem?_named_dismiss] at hs
  split at hs
  · cases hs
  · exact hs

theorem registerObject (h : c.Handlerless) (hr : r < c.objects.store.size) : ∃ s printed,
    (∀ fuel, Run.registerObject (fuel + 3) r c
      = .ok () { c.publish r with spaces := s, printed := printed }) ∧
      Handlerless { c.publish r with spaces := s, printed := printed } := by
  obtain ⟨s, printed, hrun, hindexed, hentries, hsize⟩ := h.adds.registerObject hr (h.names r)
  obtain ⟨space, hspace, hlt⟩ := space_publish hr
  obtain ⟨_, _, c₁, hlinks, he⟩ := c.publish_eq r
  have hextends : c.names.Extends (c.publish r).names := he ▸ hlinks.extends
  refine ⟨s, printed, hrun, ?_⟩
  constructor
  · exact (h.adds.publish (h.names r)).aside hindexed hentries printed
  · exact (h.removes.publish (h.names r)).aside hindexed hentries printed
  · intro q space' hq
    dsimp only at hq ⊢
    rw [hsize]
    by_cases hqr : q = r
    · subst hqr
      obtain rfl : space = space' := Option.some.inj (hspace.symm.trans hq)
      exact hlt
    · rw [get_publish_ne hqr] at hq
      exact Nat.lt_of_lt_of_le (h.spaces q space' hq) (Steady.publish c r).spaces.size
  · intro q n hq
    dsimp only at hq ⊢
    refine hextends.knows ?_
    by_cases hqr : q = r
    · subst hqr
      obtain ⟨id, space, links, he⟩ := get_publish_self hr
      rw [he] at hq
      exact h.names q n hq
    · rw [get_publish_ne hqr] at hq
      exact h.names q n hq

theorem make (h : c.Handlerless) {names : NameTable} (hnames : c.names.Extends names) {x : Object}
    (hspace : x.space = none) (hname : ∀ n, x.name = some n → names.Knows n) :
    Handlerless { c with names := names, objects := (c.objects.make x).2 } := by
  have hnamed (n : Name) (s : ObjectRef) (hs : c.objects.named[n]? = some s) : names.Knows n :=
    hnames.knows (h.adds.named n s hs)
  refine ⟨h.adds.of_eq hnames h.adds.indexed rfl hnamed,
    h.removes.of_eq hnames h.adds.indexed rfl hnamed, fun s space hs => ?_, fun s n hs => ?_⟩
  · have hs : ((c.objects.make x).2.get s).space = some space := hs
    rw [get_make] at hs
    split at hs
    · rw [hspace] at hs
      cases hs
    · exact h.spaces s space hs
  · have hs : ((c.objects.make x).2.get s).name = some n := hs
    rw [get_make] at hs
    split at hs
    · exact hname n hs
    · exact hnames.knows (h.names s n hs)

theorem sameSingles (h : c.Handlerless) {o : Objects} (hsame : SameSingles c.objects o)
    (hkeeps : Objects.Keeps c.objects o) : Handlerless { c with objects := o } :=
  h.objects (hsame.congr Object.space fun _ => rfl) (hsame.congr Object.name fun _ => rfl)
    fun _ _ hs => hkeeps.named ▸ hs

end Handlerless

/-- Instantiating adds names, and an object unless it fails. -/
theorem instantiate_eq (c : Console) (hc : c.names.Consistent) (cls name source : Text)
    (datablock : Bool) (args : List Text) : ∃ names, c.names.Extends names ∧
      ((c.instantiate cls name source datablock args).2 = { c with names := names } ∨
        ∃ x : Object, (c.instantiate cls name source datablock args).2 =
            { c with names := names, objects := (c.objects.make x).2 } ∧
          x.children = [] ∧ x.group = none ∧ x.registered = false ∧ x.links = [] ∧ x.space = none ∧
          ∀ n, x.name = some n → names.Knows n) := by
  have hset : (c.names.intern name).2.Extends (c.instanceNames name) :=
    (NameTable.Extends.intern _ "SimSet").trans (.intern _ "SimGroup")
  have hnames : c.names.Extends (c.instanceNames name) :=
    (NameTable.Extends.intern c.names name).trans hset
  have hknown (n : Name) (hn : (c.names.intern name).1 = some n) : (c.instanceNames name).Knows n :=
    hset.knows (NameTable.knows_intern (Prod.ext hn rfl) (hc.intern name))
  obtain ⟨e, he⟩ | ⟨k, r, -, he⟩ | he | ⟨k, fields, he⟩ :=
    c.instantiate_cases cls name source datablock args
  · exact ⟨c.names, .refl _, .inl (by rw [he])⟩
  · exact ⟨c.names, .refl _, .inl (by rw [he])⟩
  · exact ⟨_, hnames, .inl (by rw [he])⟩
  · refine ⟨_, hnames, .inr ⟨c.instanceObject k name datablock fields, ?_, ?_⟩⟩
    · rw [he]
    · exact ⟨rfl, rfl, rfl, rfl, rfl, hknown⟩

end Console

/-! ## Numbers -/

/-- The numbers were given away one after the other, `k` of them. -/
structure Objects.Numbered (o : Objects) (k : Nat) : Prop where
  next : o.nextId = 1000 + UInt32.ofNat k
  earlier : ∀ r, (o.get r).registered = true → ∃ j < k, (o.get r).id = 1000 + UInt32.ofNat j
  live : k ≤ UInt32.size → ∀ r, (o.get r).registered = true → o.live[(o.get r).id]? = some r

namespace Objects

variable {o o' : Objects} {r : ObjectRef} {k : Nat}

theorem Keeps.id_eq (h : Keeps o o') (hr : (o.get r).registered = true) :
    (o'.get r).id = (o.get r).id := by
  show (o'.get r).core.id = (o.get r).core.id
  rw [h.core_of_registered hr]

theorem Change.nextId_eq {strict : Prop} (h : Change strict o o') : o'.nextId = o.nextId := by
  cases h with
  | make obj children group registered links => rfl
  | edit r f rest => rfl
  | add hset hchild => exact (sameSingles_addChild o _ _).nextId
  | remove set child => exact (sameSingles_removeChild o set child).nextId

namespace Numbered

theorem start : Numbered {} 0 where
  next := by decide
  earlier r hr := by
    rw [get_of_size_le (Nat.zero_le r)] at hr
    cases hr
  live _ r hr := by
    rw [get_of_size_le (Nat.zero_le r)] at hr
    cases hr

theorem of_same (h : o.Numbered k) (hnext : o'.nextId = o.nextId) (hlive : o'.live = o.live)
    (hregistered : ∀ r, (o'.get r).registered = (o.get r).registered)
    (hid : ∀ r, (o.get r).registered = true → (o'.get r).id = (o.get r).id) : o'.Numbered k where
  next := hnext.trans h.next
  earlier r hr := by
    rw [hregistered] at hr
    rw [hid r hr]
    exact h.earlier r hr
  live hk r hr := by
    rw [hregistered] at hr
    rw [hlive, hid r hr]
    exact h.live hk r hr

theorem modify {f : Object → Object} (h : o.Numbered k) (r : ObjectRef)
    (hf : ∀ x, (f x).registered = x.registered ∧ (f x).id = x.id) : (o.modify r f).Numbered k := by
  refine h.of_same rfl rfl ?_ fun s _ => ?_
  · exact congr_modify Object.registered fun x => (hf x).1
  · exact congr_modify Object.id (fun x => (hf x).2) s

theorem change (h : o.Numbered k) (hchange : Change True o o') : o'.Numbered k :=
  have hkeeps := hchange.keeps
  h.of_same hchange.nextId_eq hkeeps.live hkeeps.registered fun _ => hkeeps.id_eq

/-- A number that was given away before is not given away again until all have been. -/
theorem ne_next {j : Nat} (hj : j < k) (hk : k < UInt32.size) :
    (1000 : UInt32) + UInt32.ofNat j ≠ 1000 + UInt32.ofNat k := by
  intro h
  have hsame : UInt32.ofNat j = UInt32.ofNat k := by simpa using h
  have hnat := congrArg UInt32.toNat hsame
  rw [UInt32.toNat_ofNat_of_lt' (Nat.lt_trans hj hk), UInt32.toNat_ofNat_of_lt' hk] at hnat
  omega

theorem publish (h : o.Numbered k) (hr : r < o.store.size) : (o.publish r).Numbered (k + 1) where
  next := by
    rw [nextId_publish, h.next, UInt32.ofNat_add, UInt32.add_assoc]
    rfl
  earlier s hs := by
    by_cases hsr : s = r
    · subst hsr
      rw [get_publish hr]
      exact ⟨k, Nat.lt_succ_self k, h.next⟩
    · rw [get_publish_ne hsr] at hs ⊢
      obtain ⟨j, hj, hid⟩ := h.earlier s hs
      exact ⟨j, Nat.lt_succ_of_lt hj, hid⟩
  live hk s hs := by
    rw [live_publish, Std.TreeMap.getElem?_insert]
    by_cases hsr : s = r
    · subst hsr
      rw [get_publish hr, if_pos Std.ReflCmp.compare_self]
    · rw [get_publish_ne hsr] at hs ⊢
      obtain ⟨j, hj, hid⟩ := h.earlier s hs
      rw [if_neg]
      · exact h.live (Nat.le_of_succ_le hk) s hs
      · rw [Std.compare_eq_iff_eq, hid, h.next]
        exact (ne_next hj hk).symm

end Numbered

end Objects

/-! ## Making and registering objects, sets and groups -/

namespace Console

open Objects

variable {c c' : Console} {r : ObjectRef} {k : Nat}

/-- Where nothing is called `onAdd` or `onRemove`, `k` objects have been registered, and objects have
been made, have got other fields, and have been put into sets and taken out of them. Meanwhile anything
may have happened that leaves the objects alone. -/
inductive Populated : Nat → Console → Prop
  | start {c : Console} (h : c.Handlerless) (hnone : c.objects = {}) : Populated 0 c
  | aside {k : Nat} {c c' : Console} (h : Populated k c) (hobjects : c'.objects = c.objects)
    (hc : c'.Handlerless) : Populated k c'
  | make {k : Nat} {c : Console} (h : Populated k c) (cls name source : Text) (datablock : Bool)
    (args : List Text) : Populated k (c.instantiate cls name source datablock args).2
  | register {k fuel : Nat} {c c' : Console} {r : ObjectRef} (h : Populated k c)
    (hr : r < c.objects.store.size) (hfresh : (c.objects.get r).registered = false)
    (hrun : Run.registerObject (fuel + 3) r c = .ok () c') : Populated (k + 1) c'
  | fields {k : Nat} {c : Console} (h : Populated k c) (r : ObjectRef) (f : Fields → Fields) :
    Populated k { c with objects := c.objects.modify r fun x => { x with fields := f x.fields } }
  | add {k : Nat} {c : Console} {set child : ObjectRef} (h : Populated k c)
    (hset : (c.objects.get set).registered = true) (hchild : (c.objects.get child).registered = true) :
    Populated k { c with objects := (c.objects.addChild set child).2 }
  | remove {k : Nat} {c : Console} {set child : ObjectRef} (h : Populated k c)
    (hset : (c.objects.get set).registered = true) (hchild : (c.objects.get child).registered = true) :
    Populated k { c with objects := (c.objects.removeChild set child).2 }

theorem objects_instantiate (hc : c.names.Consistent) (cls name source : Text) (datablock : Bool)
    (args : List Text) :
    (c.instantiate cls name source datablock args).2.objects = c.objects ∨
      Objects.Change True c.objects (c.instantiate cls name source datablock args).2.objects := by
  obtain ⟨names, -, he | ⟨x, he, hchildren, hgroup, hregistered, hlinks, -⟩⟩ :=
    c.instantiate_eq hc cls name source datablock args
  · exact .inl (by rw [he])
  · rw [he]
    exact .inr (.make x hchildren hgroup hregistered hlinks)

theorem Handlerless.instantiate (h : c.Handlerless) (cls name source : Text) (datablock : Bool)
    (args : List Text) : (c.instantiate cls name source datablock args).2.Handlerless := by
  obtain ⟨names, hnames, he | ⟨x, he, -, -, -, -, hspace, hname⟩⟩ :=
    c.instantiate_eq h.adds.consistent cls name source datablock args
  · rw [he]
    exact h.of_eq hnames h.adds.indexed rfl (Nat.le_refl _) (fun _ => rfl) (fun _ => rfl)
      fun _ _ hs => hs
  · rw [he]
    exact h.make hnames hspace hname

theorem Handlerless.registered (h : c.Handlerless) (hr : r < c.objects.store.size) {fuel : Nat}
    (hrun : Run.registerObject (fuel + 3) r c = .ok () c') :
    c'.Handlerless ∧ c'.objects = (c.publish r).objects := by
  obtain ⟨s, printed, hpublish, hc⟩ := h.registerObject hr
  rw [hpublish] at hrun
  generalize c.publish r = published at hrun hc ⊢
  cases hrun
  exact ⟨hc, rfl⟩

namespace Populated

theorem handlerless (h : Populated k c) : c.Handlerless := by
  induction h with
  | start h hnone => exact h
  | aside h hobjects hc ih => exact hc
  | make h cls name source datablock args ih => exact ih.instantiate cls name source datablock args
  | register h hr hfresh hrun ih => exact (ih.registered hr hrun).1
  | fields h r f ih =>
    exact ih.objects (congr_modify (f := fun x => { x with fields := f x.fields }) Object.space
      fun _ => rfl) (congr_modify (f := fun x => { x with fields := f x.fields }) Object.name
      fun _ => rfl) fun _ _ hs => hs
  | add h hset hchild ih => exact ih.sameSingles (sameSingles_addChild _ _ _) (.addChild _ _ _)
  | remove h hset hchild ih =>
    exact ih.sameSingles (sameSingles_removeChild _ _ _) (.removeChild _ _ _)

/-- The children of groups are the objects that belong to them, and nothing is a child or has children
unless it is registered. -/
theorem settled (h : Populated k c) : Settled c.objects [] := by
  induction h with
  | start h hnone =>
    rw [hnone]
    exact settled_empty
  | aside h hobjects hc ih => rwa [hobjects]
  | make h cls name source datablock args ih =>
    obtain he | hchange :=
      objects_instantiate h.handlerless.adds.consistent cls name source datablock args
    · rwa [he]
    · exact ih.change hchange
  | register h hr hfresh hrun ih =>
    rw [(h.handlerless.registered hr hrun).2]
    exact settled_publish ih hr hfresh
  | fields h r f ih => exact ih.change (.edit r _ fun _ => rfl)
  | add h hset hchild ih => exact ih.addChild hset hchild
  | remove h hset hchild ih => exact ih.change (.remove _ _)

/-- Registered objects have got different numbers, and are found under them. -/
theorem numbered (h : Populated k c) : c.objects.Numbered k := by
  induction h with
  | start h hnone =>
    rw [hnone]
    exact .start
  | aside h hobjects hc ih => rwa [hobjects]
  | make h cls name source datablock args ih =>
    obtain he | hchange :=
      objects_instantiate h.handlerless.adds.consistent cls name source datablock args
    · rwa [he]
    · exact ih.change hchange
  | @register k fuel c c' r h hr hfresh hrun ih =>
    obtain ⟨space, links, he⟩ := c.objects_publish r
    rw [(h.handlerless.registered hr hrun).2, he]
    exact (ih.publish hr).modify r fun _ => ⟨rfl, rfl⟩
  | fields h r f ih => exact ih.change (.edit r _ fun _ => rfl)
  | add h hset hchild ih =>
    exact ih.change (.add (fun _ => .inl hset) (.inl hchild))
  | remove h hset hchild ih => exact ih.change (.remove _ _)

theorem newObject_eq {cls name : Text} {c₁ : Console}
    (h : c.instantiate cls name [] false [] = (.ok r, c₁)) (fuel : Nat) :
    Run.newObject fuel cls name c = (Run.registerObject fuel r >>= fun _ => return .ok r) c₁ := by
  rw [Run.newObject]
  have hchange : Run.change (fun c : Console => c.instantiate cls name [] false []) c = .ok (.ok r) c₁ :=
    congrArg (fun x : Except ObjectError ObjectRef × Console => EStateM.Result.ok x.1 x.2) h
  exact Run.bind_ok hchange

/-- An object is made and registered unless its class is unknown. -/
theorem newObject (h : Populated k c) {cls name : Text}
    (hmade : (c.instantiate cls name [] false []).1 = .ok r) : ∃ c',
    (∀ fuel, Run.newObject (fuel + 3) cls name c = .ok (.ok r) c') ∧ Populated (k + 1) c' := by
  let plan : ObjectPlan := ⟨cls, name, [], [], [], []⟩
  have hinstantiated := h.make cls name [] false []
  obtain ⟨k, copied, names, -, -, -, he⟩ | ⟨-, e, names, -, he⟩ :=
    Unwatched.instantiate_cases h.handlerless.adds plan
  · rw [he] at hmade hinstantiated
    cases hmade
    have hsize := c.objects.fst_make_lt (plan.object k copied { c with names := names })
    have hfresh := get_make c.objects (plan.object k copied { c with names := names })
      c.objects.store.size
    obtain ⟨s, printed, hrun, -⟩ := hinstantiated.handlerless.registerObject hsize
    refine ⟨_, fun fuel => ?_, hinstantiated.register hsize ?_ (hrun 0)⟩
    · exact (newObject_eq he (fuel + 3)).trans (Run.bind_ok (hrun fuel))
    · refine (congrArg Object.registered hfresh).trans ?_
      rw [if_pos rfl]
      rfl
  · rw [he] at hmade
    cases hmade

end Populated

theorem objects_registerClass (c : Console) (cls parent : Text) :
    (c.registerClass cls parent).2.objects = c.objects := by
  rw [registerClass]
  dsimp only
  cases ((c.intern cls).2.intern parent).1 <;> rfl

theorem objects_registerAll (c : Console) (space : SpaceId) (rs : List Registration) :
    (c.registerAll space rs).objects = c.objects := by
  induction rs generalizing c with
  | nil => rfl
  | cons r rs ih =>
    refine (ih (c.register space r).2).trans ?_
    cases r <;> rfl

theorem objects_create (buckets callDepth arena : Int) :
    (create buckets callDepth arena).objects = {} := by
  rw [create]
  dsimp only
  simp only [objects_registerAll, objects_registerClass]
  rfl

theorem Handlerless.start (hadds : c.Ignores "onAdd") (hremoves : c.Ignores "onRemove")
    (hnone : c.objects = {}) : c.Handlerless where
  adds := hadds
  removes := hremoves
  spaces r space hspace := by
    rw [hnone, get_of_size_le (Nat.zero_le r)] at hspace
    cases hspace
  names r n hname := by
    rw [hnone, get_of_size_le (Nat.zero_le r)] at hname
    cases hname

/-- Nothing has been registered in the beginning. -/
theorem populated_create (buckets callDepth arena : Int) :
    Populated 0 (create buckets callDepth arena) := by
  refine .start (.start ?_ ?_ ?_) ?_
  · exact ignores_create (by decide +kernel) (by decide +kernel) (by decide +kernel) _ _ _
  · exact ignores_create (by decide +kernel) (by decide +kernel) (by decide +kernel) _ _ _
  · exact objects_create buckets callDepth arena
  · exact objects_create buckets callDepth arena

end Console

end ConsoleScript
