import ConsoleScript.Proofs.Console.Assignments
import ConsoleScript.Proofs.Console.Membership

/-!
# Registering without handlers

When an object is registered its `onAdd` is called, and a script may do anything there; the same goes
for its `onRemove` when it is deleted. Where no handler is more than a line of the documentation,
calling one comes to its end and does nothing. So registering an object does nothing but give it a
number, a name and a namespace.
-/

namespace ConsoleScript

namespace Run

variable {β : Type}

theorem get_bind (f : Console → Run β) (c : Console) : (get >>= f) c = f c c := rfl

theorem modify_bind (g : Console → Console) (f : Unit → Run β) (c : Console) :
    (modify g >>= f) c = f () (g c) := rfl

/-- A line of the documentation does nothing when it is called, whatever steps are left, but it may
tell that the number of arguments is wrong. -/
theorem callEntry_callback {c : Console} {i : EntryId}
    (h : ∀ e, c.spaces.entries[i]? = some e → e.body = .callback) (receiver : Option ObjectRef)
    (argv : List Text) : ∃ printed, ∀ fuel,
      callEntry (fuel + 1) ⟨i, receiver, argv⟩ c = .ok [] { c with printed := printed } := by
  cases he : c.spaces.entries[i]? with
  | none =>
    refine ⟨c.printed, fun fuel => ?_⟩
    rw [callEntry, get_bind, he]
    rfl
  | some e =>
    cases hfits : arityFits e argv with
    | false =>
      let told := c.printLine
        (c.spaces.qualifiedName c.names e ++ Text.ofString ": wrong number of arguments.")
      refine ⟨(told.printLine (Text.ofString "usage: " ++ e.usage)).printed, fun fuel => ?_⟩
      rw [callEntry, get_bind, he]
      dsimp only
      rw [hfits]
      rfl
    | true =>
      refine ⟨c.printed, fun fuel => ?_⟩
      rw [callEntry, get_bind, he]
      dsimp only
      rw [hfits, h e he]
      rfl

end Run

/-! ## Names -/

namespace NameTable

variable {t t' t'' : NameTable} {n : Name} {s : Text}

/-- Names may have been added, and those that were there are spelled as they were. -/
structure Extends (t t' : NameTable) : Prop where
  consistent : t.Consistent → t'.Consistent
  spells : ∀ n s, t.Spells n s → t'.Spells n s

namespace Extends

theorem refl (t : NameTable) : Extends t t := ⟨fun h => h, fun _ _ h => h⟩

theorem trans (h : Extends t t') (h' : Extends t' t'') : Extends t t'' :=
  ⟨fun ht => h'.consistent (h.consistent ht), fun n s hs => h'.spells n s (h.spells n s hs)⟩

theorem intern (t : NameTable) (s : Text) : Extends t (t.intern s).2 :=
  ⟨fun h => h.intern s, fun _ _ h => h.intern s⟩

theorem knows (h : Extends t t') (hn : t.Knows n) : t'.Knows n := by
  obtain ⟨s, hs⟩ := hn
  exact ⟨s, h.spells n s hs⟩

theorem find?_eq (h : Extends t t') (ht : t.Consistent) (hn : t.find? s = some n) :
    t'.find? s = some n := by
  obtain ⟨s', hs', hlower⟩ := ht.spells_of_find? hn
  exact (h.consistent ht _ n).mpr ⟨s', h.spells n s' hs', hlower⟩

theorem find?_of_knows (h : Extends t t') (ht : t.Consistent) (hknown : t.Knows n)
    (hn : t'.find? s = some n) : t.find? s = some n := by
  obtain ⟨s', hs', hlower⟩ := (h.consistent ht).spells_of_find? hn
  obtain ⟨spelling, hs⟩ := hknown
  obtain rfl : s' = spelling := hs'.text_eq.symm.trans (h.spells n spelling hs).text_eq
  exact (ht _ n).mpr ⟨s', hs, hlower⟩

end Extends

end NameTable

/-! ## Namespaces -/

namespace Namespaces

variable {s s' : Namespaces} {id : SpaceId}

/-- Where everything that can be called has a name, look-ups do not fail, and what they find can be
called and has the name. -/
theorem Indexed.lookup_named (h : Indexed s) (hid : id < s.spaces.size)
    (hnamed : ∀ e ∈ s.entries, e.body.isGroup = false → e.name ≠ none) (name : Option Name) :
    ∃ found s', s.lookup id name = .ok (found, s') ∧
      ∀ i e, found = some i → s.entries[i]? = some e → e.body.isGroup = false ∧ e.name = name := by
  cases name with
  | none => exact ⟨none, s, rfl, fun i e hi => by cases hi⟩
  | some n =>
    obtain ⟨ids, hids⟩ := h.rooted.lineage id
    have hmet : (s.met ids).any (nameless s.entries) = false := by
      rw [List.any_eq_false]
      intro i _ hnameless
      rw [nameless, Option.any_eq_true] at hnameless
      obtain ⟨e, he, hbody⟩ := hnameless
      rw [Bool.and_eq_true, Bool.not_eq_true', Option.isNone_iff_eq_none] at hbody
      exact hnamed e (Array.mem_of_getElem? he) hbody.1 hbody.2
    obtain ⟨s', hlookup⟩ := h.lookup_first hid hids hmet n
    refine ⟨firstNamed s.entries (s.met ids) n, s', hlookup, ?_⟩
    intro i e hi he
    have hfound := List.find?_some hi
    rw [he, Option.any_some, Bool.and_eq_true, Bool.not_eq_true', beq_iff_eq] at hfound
    exact hfound

end Namespaces

namespace Console

variable {c c' : Console} {r : ObjectRef} {cur : SpaceId} {links : List (SpaceId × SpaceId)}

theorem Links.extends (h : Links c links c') : c.names.Extends c'.names := by
  induction h with
  | done c => exact .refl _
  | intern t _ ih => exact (NameTable.Extends.intern _ t).trans ih
  | obtain name _ ih => exact ih
  | link _ _ _ _ ih => exact ih

theorem Links.classes (h : Links c links c') : c'.classes = c.classes := by
  induction h with
  | done c => rfl
  | intern t _ ih => exact ih
  | obtain name _ ih => exact ih
  | link _ _ _ _ ih => exact ih

theorem Links.indexed (h : Links c links c') (hc : c.spaces.Indexed) : c'.spaces.Indexed := by
  induction h with
  | done c => exact hc
  | intern t _ ih => exact ih hc
  | obtain name _ ih => exact ih (hc.grows Namespaces.grows_obtain)
  | @link c c' links id parent s child ancestor h _ ih =>
    have hlinked := hc.link child ancestor
    rw [h] at hlinked
    exact ih hlinked

theorem fst_linkChain_lt (c : Console) (hcur : cur < c.spaces.spaces.size) (ts : List Text) :
    (c.linkChain cur ts).1.1 < (c.linkChain cur ts).2.spaces.spaces.size := by
  induction ts generalizing c cur with
  | nil => exact hcur
  | cons t ts ih =>
    rw [linkChain]
    split
    · exact ih c hcur
    · have hid : ((c.intern t).2.obtain (c.intern t).1 none).1 <
          ((c.intern t).2.obtain (c.intern t).1 none).2.spaces.spaces.size :=
        Namespaces.fst_obtain_lt _ _ _
      have hcur' : cur < ((c.intern t).2.obtain (c.intern t).1 none).2.spaces.spaces.size :=
        Nat.lt_of_lt_of_le hcur Namespaces.grows_obtain.size
      dsimp only
      generalize (c.intern t).2.obtain (c.intern t).1 none = obtained at *
      split
      · exact ih _ hcur'
      · split
        · exact hcur'
        · rename_i spaces hlink
          have hsize : spaces.spaces.size = obtained.2.spaces.spaces.size := by
            rw [← Namespaces.size_link (s := obtained.2.spaces), hlink]
          exact ih _ (hsize ▸ hid)

theorem space_publish (h : r < c.objects.store.size) : ∃ space,
    ((c.publish r).objects.get r).space = some space ∧
      space < (c.publish r).spaces.spaces.size := by
  have hcur : (({ c with objects := c.objects.publish r } : Console).obtain
      (some ((c.objects.publish r).get r).cls) none).1 < _ := Namespaces.fst_obtain_lt _ _ _
  rw [publish, linkSpaces]
  dsimp only at hcur ⊢
  rw [Objects.get_modify_self]
  · exact ⟨_, rfl, fst_linkChain_lt _ hcur _⟩
  · rw [(links_linkChain _ hcur _).objects]
    exact Nat.lt_of_lt_of_eq h (Objects.size_publish _ _).symm

/-! ## Consoles without handlers -/

/-- Names, namespaces and entries are in order, and what has the name `t` does nothing. -/
structure Ignores (c : Console) (t : Text) : Prop where
  consistent : c.names.Consistent
  indexed : c.spaces.Indexed
  named : ∀ (n : Name) (r : ObjectRef), c.objects.named[n]? = some r → c.names.Knows n
  entries : ∀ e ∈ c.spaces.entries, e.body.isGroup = false → ∃ n, e.name = some n ∧
    c.names.Knows n ∧ (c.names.find? t = some n → e.body = .callback)

namespace Ignores

variable {t : Text}

theorem of_eq (h : c.Ignores t) (hnames : c.names.Extends c'.names) (hspaces : c'.spaces.Indexed)
    (hentries : c'.spaces.entries = c.spaces.entries)
    (hnamed : ∀ (n : Name) (r : ObjectRef), c'.objects.named[n]? = some r → c'.names.Knows n) :
    c'.Ignores t where
  consistent := hnames.consistent h.consistent
  indexed := hspaces
  named := hnamed
  entries e he hbody := by
    rw [hentries] at he
    obtain ⟨n, hname, hknown, hcallback⟩ := h.entries e he hbody
    refine ⟨n, hname, hnames.knows hknown, fun hn => ?_⟩
    exact hcallback (hnames.find?_of_knows h.consistent hknown hn)

theorem aside (h : c.Ignores t) {s : Namespaces} (hindexed : s.Indexed)
    (hentries : s.entries = c.spaces.entries) (printed : List Text) :
    Ignores { c with spaces := s, printed := printed } t :=
  h.of_eq (.refl _) hindexed hentries h.named

theorem publish (h : c.Ignores t)
    (hname : ∀ n, (c.objects.get r).name = some n → c.names.Knows n) : (c.publish r).Ignores t := by
  obtain ⟨space, links, c₁, hlinks, he⟩ := c.publish_eq r
  have hextends : c.names.Extends c₁.names := hlinks.extends
  have hentries : c₁.spaces.entries = c.spaces.entries := hlinks.sameSetting.entries
  rw [he]
  refine h.of_eq hextends (hlinks.indexed h.indexed) hentries fun n s hn => ?_
  obtain ⟨-, hown⟩ | hn := Objects.named_publish (show (c.objects.publish r).named[n]? = some s from hn)
  · exact hextends.knows (hname n hown)
  · exact hextends.knows (h.named n s hn)

/-- Whatever is found under the name, calling it does nothing, however many steps it is given beyond
the first. -/
theorem callMethod (h : c.Ignores t) {space : SpaceId}
    (hspace : (c.objects.get r).space = some space) (hlt : space < c.spaces.spaces.size) :
    ∃ told s printed, (∀ fuel, Run.callMethod (fuel + 2) r t [] c
        = .ok told { c with spaces := s, printed := printed }) ∧
      s.Indexed ∧ s.entries = c.spaces.entries ∧ s.spaces.size = c.spaces.spaces.size := by
  have hnamed : ∀ e ∈ c.spaces.entries, e.body.isGroup = false → e.name ≠ none := by
    intro e he hbody
    obtain ⟨n, hname, -⟩ := h.entries e he hbody
    rw [hname]
    exact Option.some_ne_none n
  obtain ⟨found, s, hlookup, hfound⟩ :=
    h.indexed.lookup_named hlt hnamed (c.names.find? t)
  have hentries : s.entries = c.spaces.entries := (Namespaces.keeps_lookup hlookup).entries
  have hindexed : s.Indexed := h.indexed.step (.lookup hlt hlookup)
  have hsize : s.spaces.size = c.spaces.spaces.size := Namespaces.size_lookup hlookup
  have htext : Run.lookupText space t c = .ok found { c with spaces := s } := by
    show Run.lookup space (c.names.find? t) c = _
    unfold Run.lookup
    rw [Run.get_bind, Run.bind_ok (Run.ofExcept_eq_ok.mpr ⟨hlookup, rfl⟩)]
    rfl
  cases found with
  | none =>
    refine ⟨none, s, c.printed, fun fuel => ?_, hindexed, hentries, hsize⟩
    rw [Run.callMethod, Run.get_bind, hspace]
    exact Run.bind_ok htext
  | some i =>
    have hsilent (e : Entry) (he : c.spaces.entries[i]? = some e) : e.body = .callback := by
      obtain ⟨hbody, hname⟩ := hfound i e rfl he
      obtain ⟨n, hn, -, hcallback⟩ := h.entries e (Array.mem_of_getElem? he) hbody
      exact hcallback (hname.symm.trans hn)
    obtain ⟨printed, hcall⟩ := Run.callEntry_callback (c := { c with spaces := s }) (i := i)
      (by rwa [hentries]) (some r) [({ c with spaces := s } : Console).idText r]
    refine ⟨some [], s, printed, fun fuel => ?_, hindexed, hentries, hsize⟩
    rw [Run.callMethod, Run.get_bind, hspace]
    exact (Run.bind_ok htext).trans (Run.bind_ok (hcall fuel))

/-- Registering an object comes to its end, with nothing done beyond publishing it. -/
theorem registerObject (h : c.Ignores "onAdd") (hr : r < c.objects.store.size)
    (hname : ∀ n, (c.objects.get r).name = some n → c.names.Knows n) :
    ∃ s printed, (∀ fuel, Run.registerObject (fuel + 3) r c
        = .ok () { c.publish r with spaces := s, printed := printed }) ∧
      s.Indexed ∧ s.entries = (c.publish r).spaces.entries ∧
      s.spaces.size = (c.publish r).spaces.spaces.size := by
  obtain ⟨space, hspace, hlt⟩ := space_publish hr
  obtain ⟨told, s, printed, hcall, hs⟩ := (h.publish hname).callMethod hspace hlt
  refine ⟨s, printed, fun fuel => ?_, hs⟩
  rw [Run.registerObject, Run.modify_bind, Run.bind_ok (hcall fuel)]
  rfl

/-! ### Setting up -/

theorem intern (h : c.Ignores t) (s : Text) : (c.intern s).2.Ignores t :=
  h.of_eq (.intern _ s) h.indexed rfl fun n r hn => (NameTable.Extends.intern _ s).knows (h.named n r hn)

theorem obtain (h : c.Ignores t) (name package : Option Name) : (c.obtain name package).2.Ignores t :=
  h.of_eq (.refl _) (h.indexed.grows Namespaces.grows_obtain) Namespaces.grows_obtain.entries h.named

theorem define (h : c.Ignores t) (space : SpaceId) {name : Option Name} {body : EntryBody}
    (hbody : body.isGroup = false → ∃ n, name = some n ∧ c.names.Knows n ∧
      (c.names.find? t = some n → body = .callback)) (usage : Text) (minArgs maxArgs : Int) :
    (c.define space name body usage minArgs maxArgs).2.Ignores t where
  consistent := h.consistent
  indexed := h.indexed.define space name body usage minArgs maxArgs
  named := h.named
  entries e he hcallable := by
    obtain he | ⟨rfl, rfl⟩ := Namespaces.mem_entries_define he
    · exact h.entries e he hcallable
    · exact hbody hcallable

end Ignores

end Console

/-- Can this be registered where nothing of the name `t` does anything? It has a name, and that is
`t` only if it is a line of the documentation. -/
def Registration.isSilent (t : Text) : Registration → Bool
  | .group _ _ => true
  | .callback name _ => !name.isEmpty
  | .command name _ _ _ _ _ => !name.isEmpty && Text.lower name != Text.lower t

namespace Console.Ignores

variable {c : Console} {t : Text}

theorem register (h : c.Ignores t) (space : SpaceId) {r : Registration} (hr : r.isSilent t = true) :
    (c.register space r).2.Ignores t := by
  have hknown {name : Text} (hname : name ≠ []) : ∃ n, (c.intern name).1 = some n ∧
      (c.intern name).2.names.Knows n ∧ (c.intern name).2.names.find? name = some n := by
    obtain ⟨n, names, he⟩ := NameTable.exists_intern (t := c.names) hname
    have hnames : (c.names.intern name).2.Consistent := h.consistent.intern name
    have hfst : (c.names.intern name).1 = some n := by rw [he]
    exact ⟨n, hfst, NameTable.knows_intern (Prod.ext hfst rfl) hnames,
      NameTable.find?_intern_self (Prod.ext hfst rfl)⟩
  cases r with
  | group name usage => exact (h.intern name).define space (fun hbody => by cases hbody) usage 0 0
  | callback name usage =>
    obtain ⟨n, hn, hknows, -⟩ := hknown (show name ≠ [] by simpa [Registration.isSilent] using hr)
    exact (h.intern name).define space (fun _ => ⟨n, hn, hknows, fun _ => rfl⟩) usage 0 0
  | command name kind native usage minArgs maxArgs =>
    rw [Registration.isSilent, Bool.and_eq_true, bne_iff_ne] at hr
    obtain ⟨n, hn, hknows, hfind⟩ := hknown (show name ≠ [] by simpa using hr.1)
    refine (h.intern name).define space (fun _ => ⟨n, hn, hknows, fun ht => ?_⟩) usage minArgs maxArgs
    exact absurd ((h.intern name).consistent.lower_eq hfind ht) hr.2

theorem registerAll (h : c.Ignores t) (space : SpaceId) {rs : List Registration}
    (hrs : ∀ r ∈ rs, r.isSilent t = true) : (c.registerAll space rs).Ignores t := by
  rw [Console.registerAll]
  induction rs generalizing c with
  | nil => exact h
  | cons r rs ih =>
    obtain ⟨hr, hrs⟩ := List.forall_mem_cons.mp hrs
    exact ih (h.register space hr) hrs

theorem registerClass (h : c.Ignores t) (cls parent : Text) :
    (c.registerClass cls parent).2.Ignores t := by
  have hnames := (h.intern cls).intern parent
  rw [Console.registerClass]
  dsimp only
  generalize (c.intern cls).1 = k at *
  generalize ((c.intern cls).2.intern parent).1 = p at *
  generalize ((c.intern cls).2.intern parent).2 = c₁ at *
  have hclasses : Ignores { c₁ with classes := c₁.classes.register k p } t :=
    hnames.of_eq (.refl _) hnames.indexed rfl hnames.named
  have hspace := hclasses.obtain k none
  cases p with
  | none => exact hspace
  | some p =>
    have hparent := hspace.obtain (some p) none
    refine hparent.of_eq (.refl _) (hparent.indexed.link ?_ (Namespaces.fst_obtain_lt _ _ _))
      (Namespaces.entries_link _ _ _) hparent.named
    exact Nat.lt_of_lt_of_le (Namespaces.fst_obtain_lt _ _ _) Namespaces.grows_obtain.size

end Console.Ignores

theorem Console.ignores_nothing (t : Text) (scopes : Scopes) (arena : Int) (maxCallDepth : Nat) :
    Ignores { scopes := scopes, spaces := { arena := Arena.ofSize arena }
              maxCallDepth := maxCallDepth } t where
  consistent := NameTable.consistent_empty
  indexed := Namespaces.indexed_start _
  named n r hn := by
    rw [Std.TreeMap.getElem?_emptyc] at hn
    cases hn
  entries e he := absurd he (Array.not_mem_empty e)

theorem Console.ignores_create {t : Text} (hglobals : ∀ r ∈ Registration.globals, r.isSilent t = true)
    (hobjects : ∀ r ∈ Registration.objects, r.isSilent t = true)
    (hsets : ∀ r ∈ Registration.sets, r.isSilent t = true) (buckets callDepth arena : Int) :
    (create buckets callDepth arena).Ignores t := by
  rw [create]
  dsimp only
  refine Ignores.registerAll (.registerAll ?_ _ hobjects) _ hsets
  iterate 6 refine Ignores.registerClass ?_ _ _
  exact ((ignores_nothing t _ arena _).obtain none none).registerAll _ hglobals

/-! ## Registering -/

namespace Console

variable {c c' : Console} {r : ObjectRef}

/-- What is called `onAdd` does nothing. -/
def Unwatched (c : Console) : Prop := c.Ignores "onAdd"

theorem Unwatched.registerObject (h : c.Unwatched) (hr : r < c.objects.store.size)
    (hname : ∀ n, (c.objects.get r).name = some n → c.names.Knows n) :
    ∃ c', (∀ fuel, Run.registerObject (fuel + 3) r c = .ok () c') ∧ c'.Unwatched ∧
      c.names.Extends c'.names ∧ c'.classes = c.classes ∧ ∃ space links,
        c'.objects = (c.objects.publish r).modify r fun o =>
          { o with space := some space, links := o.links ++ links } := by
  obtain ⟨s, printed, hrun, hindexed, hentries, -⟩ := Ignores.registerObject h hr hname
  obtain ⟨_, _, c₁, hlinks, he⟩ := c.publish_eq r
  refine ⟨_, hrun, (h.publish hname).aside hindexed hentries printed, ?_, ?_, c.objects_publish r⟩
  · rw [he]
    exact hlinks.extends
  · rw [he]
    exact hlinks.classes

/-- A console is without handlers in the beginning. -/
theorem unwatched_create (buckets callDepth arena : Int) :
    (create buckets callDepth arena).Unwatched :=
  ignores_create (by decide +kernel) (by decide +kernel) (by decide +kernel) _ _ _

end Console

end ConsoleScript
