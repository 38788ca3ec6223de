import ConsoleScript.Proofs.Console.Changes
import ConsoleScript.Proofs.Console.Lookup
import ConsoleScript.Proofs.Console.Packages
import Mathlib.Data.List.Find

/-!
# Looking beneath a namespace

A look-up beneath a namespace finds what a walk meets behind it. The walk of a namespace stops at
the layers of each of its ancestors, newest first, and at the ancestor itself; beneath a stop it
goes on with the stops behind. So a function that calls what it hides, and is called like that
itself, is followed by the next entry of the name on the walk, until none is left.

Headings are the exception. A walk passes over them, while beneath a layer the first entry of the
name ends the search, even if it is a heading.
-/

namespace ConsoleScript.Namespaces

variable {s s' : Namespaces} {id j l b : SpaceId} {ids after : List SpaceId} {n : Name}
  {name : Option Name} {size : Nat}

/-! ## Entries of a namespace -/

/-- The namespace's own entries, newest first. -/
def listed (s : Namespaces) (l : SpaceId) : List EntryId := (s.space l).entries

/-- Entries are listed where they belong, and those of one namespace have different names. -/
structure Listed (s : Namespaces) : Prop where
  space : ∀ l, ∀ e ∈ s.listed l, ∃ x, s.entries[e]? = some x ∧ x.space = l
  names : ∀ l, (s.listed l).Pairwise fun e e' =>
    (s.entries[e]?).map Entry.name ≠ (s.entries[e']?).map Entry.name

theorem Listed.congr (h : Listed s) (hlisted : ∀ l, s'.listed l = s.listed l)
    (hkeys : ∀ e : EntryId, (s'.entries[e]?).map (fun x => (x.space, x.name)) =
      (s.entries[e]?).map fun x => (x.space, x.name)) : Listed s' := by
  have hname (e : EntryId) :
      (s'.entries[e]?).map Entry.name = (s.entries[e]?).map Entry.name := by
    have := congrArg (Option.map Prod.snd) (hkeys e)
    rwa [Option.map_map, Option.map_map] at this
  refine ⟨fun l e he => ?_, fun l => ?_⟩
  · rw [hlisted] at he
    obtain ⟨x, hx, hspace⟩ := h.space l e he
    have hkey := hkeys e
    rw [hx, Option.map_some, Option.map_eq_some_iff] at hkey
    obtain ⟨y, hy, hkey⟩ := hkey
    exact ⟨y, hy, (congrArg Prod.fst hkey).trans hspace⟩
  · rw [hlisted]
    simpa only [hname] using h.names l

theorem Listed.grows (h : Listed s) (hgrows : Grows s s') : Listed s' := by
  refine h.congr (fun l => ?_) fun e => by rw [hgrows.entries]
  exact hgrows.core_eq Namespace.entries (fun _ => rfl) (fun _ _ => rfl) l

theorem Listed.define (h : Listed s) (hid : id < s.spaces.size) (body : EntryBody) (usage : Text)
    (minArgs maxArgs : Int) : Listed (s.define id name body usage minArgs maxArgs).2.2 := by
  unfold Namespaces.define
  split
  · rename_i e hfound
    refine h.congr (fun l => rfl) fun e' => ?_
    obtain ⟨x, hx, hspace⟩ := h.space id e (List.mem_of_find?_eq_some hfound)
    have hname := List.find?_some hfound
    rw [hx, Option.any_some, beq_iff_eq] at hname
    rw [entries_outdate, Array.getElem?_setIfInBounds]
    split
    · rename_i he
      subst he
      rw [if_pos (Array.getElem?_eq_some_iff.mp hx).1, hx, Option.map_some, Option.map_some, hspace,
        hname]
    · rfl
  · rename_i hnew
    have hold {l : SpaceId} {e : EntryId} (he : e ∈ s.listed l) : e ≠ s.entries.size := by
      obtain ⟨x, hx, -⟩ := h.space l e he
      exact Nat.ne_of_lt (Array.getElem?_eq_some_iff.mp hx).1
    let x : Entry := {
      space := id, name := name, body := body, package := (s.space id).package
      minArgs := minArgs, maxArgs := maxArgs, usage := usage }
    let s₁ : Namespaces := { s with entries := s.entries.push x }
    have hself : (s₁.modify id fun n => { n with entries := s.entries.size :: n.entries }).listed id =
        s.entries.size :: s.listed id := congrArg Namespace.entries (space_modify_self (s := s₁) hid)
    have hother {l : SpaceId} (hl : l ≠ id) :
        (s₁.modify id fun n => { n with entries := s.entries.size :: n.entries }).listed l =
          s.listed l := congrArg Namespace.entries (space_modify_ne (s := s₁) hl)
    have hkept {l : SpaceId} {e : EntryId} (he : e ∈ s.listed l) :
        (s.entries.push x)[e]? = s.entries[e]? := by
      rw [Array.getElem?_push, if_neg (hold he)]
    have hnames (l : SpaceId) : (s.listed l).Pairwise fun e e' =>
        ((s.entries.push x)[e]?).map Entry.name ≠ ((s.entries.push x)[e']?).map Entry.name := by
      refine (h.names l).imp_of_mem fun he he' hne => ?_
      rwa [hkept he, hkept he']
    refine ⟨fun l e he => ?_, fun l => ?_⟩
    · by_cases hl : l = id
      · subst hl
        obtain rfl | he := List.mem_cons.mp (hself ▸ he)
        · exact ⟨x, Array.getElem?_push_size, rfl⟩
        · obtain ⟨y, hy, hspace⟩ := h.space l e he
          exact ⟨y, (hkept he).trans hy, hspace⟩
      · have he : e ∈ s.listed l := hother hl ▸ he
        obtain ⟨y, hy, hspace⟩ := h.space l e he
        exact ⟨y, (hkept he).trans hy, hspace⟩
    · by_cases hl : l = id
      · subst hl
        refine (hself ▸ List.pairwise_cons.mpr ⟨fun e he => ?_, hnames l⟩ : List.Pairwise _ _)
        obtain ⟨y, hy, -⟩ := h.space l e he
        have hnone := List.find?_eq_none.mp hnew e he
        rw [hy, Option.any_some, beq_iff_eq] at hnone
        rw [hkept he, hy, Array.getElem?_push_size]
        exact fun heq => hnone (Option.some.inj heq).symm
      · exact (hother hl ▸ hnames l : List.Pairwise _ _)

/-- A change of the links of a namespace leaves its entries alone. -/
theorem Listed.relink {f : Namespace → Namespace} (h : Listed s)
    (hf : ∀ n, (f n).entries = n.entries) : Listed (s.modify id f) :=
  h.congr (space_modify_same Namespace.entries hf) fun _ => rfl

theorem Listed.outdate (h : Listed s) : Listed s.outdate := ⟨h.space, h.names⟩

theorem Listed.link (h : Listed s) : Listed (s.link id b).2 := by
  unfold Namespaces.link
  split
  · split
    · exact h.relink fun _ => rfl
    · exact h
  · split
    · exact h
    · apply Listed.outdate
      exact h.relink fun _ => rfl

theorem Listed.unlink (h : Listed s) : Listed (s.unlink id b).2 := by
  unfold Namespaces.unlink
  split
  · exact h
  · have hcounted : Listed (s.modify id fun n =>
        { n with linkCount := (s.space id).linkCount - 1 }) := h.relink fun _ => rfl
    dsimp only
    split
    · apply Listed.outdate
      exact hcounted.relink fun _ => rfl
    · exact hcounted

theorem Listed.step (h : Listed s) (hstep : Step s s') : Listed s' := by
  cases hstep with
  | obtain name package => exact h.grows grows_obtain
  | define hid name body usage minArgs maxArgs => exact h.define hid body usage minArgs maxArgs
  | link _ _ => exact h.link
  | unlink _ _ => exact h.unlink
  | activate package => exact h.grows grows_activate
  | deactivate package => exact h.grows grows_deactivate
  | lookup _ found =>
    obtain rfl | ⟨table, arena, -, rfl⟩ := lookup_eq_ok found
    · exact h
    · have h₁ : Listed { s with arena := arena } := ⟨h.space, h.names⟩
      exact h₁.relink fun _ => rfl

theorem Reachable.listed (h : Reachable size s) : Listed s :=
  Reachable.invariant ⟨fun _ _ he => (List.not_mem_nil he).elim, fun _ => List.Pairwise.nil⟩
    (fun h hstep => h.step hstep) h

/-! ## Stops of a walk -/

/-- The namespaces whose entries a walk meets at a namespace: the layers, newest first, and the
namespace itself. -/
def stopsAt (s : Namespaces) (j : SpaceId) : List SpaceId := (s.space j).layers.reverse ++ [j]

/-- The namespaces whose entries a walk through namespaces meets. -/
def stops (s : Namespaces) (ids : List SpaceId) : List SpaceId := ids.flatMap s.stopsAt

theorem flatMap_stopsAt (s : Namespaces) (j : SpaceId) :
    (s.stopsAt j).flatMap s.listed = s.ownVisible j := by
  rw [stopsAt, List.flatMap_append, List.flatMap_singleton]
  rfl

theorem flatMap_stops (s : Namespaces) (ids : List SpaceId) :
    (s.stops ids).flatMap s.listed = s.met ids := by
  rw [stops, List.flatMap_assoc]
  exact List.flatMap_congr fun j _ => flatMap_stopsAt s j

theorem stops_cons (s : Namespaces) (j : SpaceId) (ids : List SpaceId) :
    s.stops (j :: ids) = s.stopsAt j ++ s.stops ids := rfl

/-- Each stop of a walk is a stop at one of its namespaces, and the walk goes on behind it. -/
theorem Lineage.stop (h : Lineage s id ids) {before : List SpaceId}
    (hstops : s.stops ids = before ++ l :: after) :
    ∃ j ancestors start rest, j ∈ ids ∧ Lineage s j (j :: ancestors) ∧
      s.stopsAt j = start ++ l :: rest ∧ after = rest ++ s.stops ancestors := by
  induction h generalizing before with
  | @root id hroot =>
    rw [stops, List.flatMap_singleton] at hstops
    exact ⟨id, [], before, after, List.mem_singleton_self id, .root hroot, hstops,
      (List.append_nil after).symm⟩
  | @child id p ids hchild hrest ih =>
    rw [stops_cons, List.append_eq_append_iff] at hstops
    obtain ⟨start, rfl, hrest'⟩ | ⟨rest, hstart, hrest'⟩ := hstops
    · obtain ⟨j, ancestors, start, rest, hj, hlineage, hstop, hafter⟩ := ih hrest'
      exact ⟨j, ancestors, start, rest, List.mem_cons_of_mem id hj, hlineage, hstop, hafter⟩
    · cases rest with
      | nil =>
        -- The stop is the first of the ancestors'.
        have hfirst : s.stops ids = [] ++ l :: after := hrest'.symm
        obtain ⟨j, ancestors, start, rest, hj, hlineage, hstop, hafter⟩ := ih hfirst
        exact ⟨j, ancestors, start, rest, List.mem_cons_of_mem id hj, hlineage, hstop, hafter⟩
      | cons l' rest =>
        obtain ⟨rfl, rfl⟩ := List.cons_eq_cons.mp hrest'
        exact ⟨id, ids, before, rest, List.mem_cons_self, .child hchild hrest, hstart, rfl⟩

theorem Stacked.nodup_layers (h : Stacked s) (hl : l ∈ (s.space b).layers) :
    (s.space b).layers.Nodup ∧ (s.space l).base = some b := by
  have hpackage : (s.space b).package = none := by
    by_contra hsome
    rw [h.plain b hsome] at hl
    cases hl
  have hb : b < s.spaces.size := by
    apply Nat.lt_of_not_le
    intro hle
    rw [space_of_le hle] at hl
    cases hl
  rw [h.layers_eq hb hpackage] at hl ⊢
  obtain ⟨-, hname, hactive⟩ := (mem_overlaysIn h.distinct).mp hl
  obtain ⟨-, -, b', hfind, hbase⟩ := h.based l (covered_eq_true.mpr hactive)
  rw [hname, (find?_eq_some_iff h.distinct).mpr ⟨hb, rfl, hpackage⟩] at hfind
  exact ⟨nodup_overlaysIn h.nodup, hbase.trans hfind.symm⟩

theorem Stacked.base_eq_none (h : Stacked s) (hpackage : (s.space b).package = none) :
    (s.space b).base = none :=
  h.loose b (by rw [covered, hpackage]; rfl)

/-! ## Searching beneath a stop -/

/-- Is the entry one of the name that can be called? -/
def callable (entries : Array Entry) (n : Name) (e : EntryId) : Bool :=
  entries[e]?.any fun x => !x.body.isGroup && x.name == some n

def heading (entries : Array Entry) (n : Name) (e : EntryId) : Bool :=
  entries[e]?.any fun x => x.body.isGroup && x.name == some n

theorem firstNamed_eq (entries : Array Entry) (met : List EntryId) (n : Name) :
    firstNamed entries met n = met.find? (callable entries n) := rfl

/-- What a look-up in the parent of a namespace finds, which is nothing if there is no parent. -/
def fromParent (s : Namespaces) (id : SpaceId) (name : Option Name) :
    Except Fault (Option EntryId × Namespaces) :=
  match (s.space id).parent with
  | none => .ok (none, s)
  | some p => s.lookup p name

theorem lookupBelow_of_base_eq_none (h : (s.space b).base = none) :
    s.lookupBelow (some b) name = s.fromParent b name := by
  rw [lookupBelow.eq_def]
  dsimp only
  rw [h]
  rfl

/-- Beneath a layer, the entries of the older layers and of the base are searched first, the
headings among them included. -/
theorem Stacked.lookupBelow_layer (h : Stacked s) {older newer : List SpaceId}
    (hlayers : (s.space b).layers = older ++ l :: newer) (name : Option Name) :
    s.lookupBelow (some l) name =
      match ((older.reverse ++ [b]).flatMap s.listed).find?
        fun e => s.entries[e]?.any (·.name == name) with
      | some e => .ok (some e, s)
      | none => s.fromParent b name := by
  obtain ⟨hnodup, hbase⟩ := h.nodup_layers (b := b) (l := l) (by simp [hlayers])
  have hbefore : (s.space b).layers.takeWhile (· != l) = older := by
    rw [hlayers] at hnodup ⊢
    obtain ⟨-, -, hdisjoint⟩ := List.nodup_append.mp hnodup
    rw [List.takeWhile_append_of_pos]
    · simp
    · intro k hk
      exact bne_iff_ne.mpr (hdisjoint k hk l List.mem_cons_self)
  rw [lookupBelow.eq_def]
  dsimp only
  rw [hbase]
  dsimp only
  rw [hbefore, List.find?_flatMap]
  rfl

theorem Indexed.fromParent_first (h : Indexed s) (hids : Lineage s id (id :: ids))
    (hnamed : (s.met ids).any (nameless s.entries) = false) (n : Name) :
    ∃ s', s.fromParent id (some n) = .ok (firstNamed s.entries (s.met ids) n, s') := by
  unfold fromParent
  cases hids with
  | root hroot => exact ⟨s, by rw [hroot]; rfl⟩
  | child hchild hrest =>
    rw [hchild]
    exact h.lookup_first (h.rooted.parent _ _ hchild) hrest hnamed n

theorem named_eq (entries : Array Entry) (n : Name) (e : EntryId) :
    entries[e]?.any (·.name == some n) = (callable entries n e || heading entries n e) := by
  unfold callable heading
  cases entries[e]? with
  | none => rfl
  | some x => cases hbody : x.body.isGroup <;> simp [hbody]

theorem find?_named {entries : Array Entry} {met : List EntryId}
    (h : met.any (heading entries n) = false) :
    met.find? (fun e => entries[e]?.any (·.name == some n)) = firstNamed entries met n := by
  rw [firstNamed_eq]
  apply List.find?_congr
  intro e he
  have hnot := Bool.eq_false_iff.mpr (List.any_eq_false.mp h e he)
  rw [named_eq, hnot, Bool.or_false]

theorem firstNamed_append (entries : Array Entry) (met met' : List EntryId) (n : Name) :
    firstNamed entries (met ++ met') n =
      (firstNamed entries met n).or (firstNamed entries met' n) :=
  List.find?_append

/-- Beneath a stop of a walk, a search finds what the walk meets behind it. -/
theorem Reachable.lookupBelow_stop (hs : Reachable size s) {start rest : List SpaceId}
    (hids : Lineage s j (j :: ids)) (hbase : (s.space j).base = none)
    (hstop : s.stopsAt j = start ++ l :: rest)
    (hheading : (rest.flatMap s.listed).any (heading s.entries n) = false)
    (hnamed : (s.met ids).any (nameless s.entries) = false) :
    ∃ s', s.lookupBelow (some l) (some n) =
      .ok (firstNamed s.entries (rest.flatMap s.listed ++ s.met ids) n, s') := by
  obtain ⟨s', hparent⟩ := hs.indexed.fromParent_first hids hnamed n
  rw [firstNamed_append]
  unfold stopsAt at hstop
  rcases List.eq_nil_or_concat rest with rfl | ⟨older, k, rfl⟩
  · -- The last stop at a namespace is the namespace itself.
    obtain ⟨-, hlast⟩ := List.append_inj' hstop rfl
    obtain rfl : j = l := List.singleton_inj.mp hlast
    exact ⟨s', (lookupBelow_of_base_eq_none hbase).trans hparent⟩
  · rw [List.concat_eq_append, ← List.cons_append, ← List.append_assoc] at hstop
    obtain ⟨hlayers, hlast⟩ := List.append_inj' hstop rfl
    obtain rfl : j = k := List.singleton_inj.mp hlast
    have hlayers : (s.space j).layers = older.reverse ++ l :: start.reverse := by
      rw [← List.reverse_inj, hlayers]
      simp
    rw [List.concat_eq_append] at hheading ⊢
    have hbelow := hs.stacked.lookupBelow_layer hlayers (some n)
    rw [List.reverse_reverse, find?_named hheading] at hbelow
    rw [hbelow]
    cases firstNamed s.entries ((older ++ [j]).flatMap s.listed) n with
    | some e => exact ⟨s, rfl⟩
    | none => exact ⟨s', hparent⟩

/-! ## Chains of calls -/

/-- Walks meet the same, as they do after a look-up, which may only build a table. -/
structure SameWalks (s s' : Namespaces) : Prop where
  entries : s'.entries = s.entries
  parent : ∀ i, (s'.space i).parent = (s.space i).parent
  listed : s'.listed = s.listed
  stopsAt : s'.stopsAt = s.stopsAt
  base : ∀ i, (s'.space i).base = (s.space i).base

theorem SameWalks.refl (s : Namespaces) : SameWalks s s :=
  ⟨rfl, fun _ => rfl, rfl, rfl, fun _ => rfl⟩

theorem sameWalks_lookup {e : Option EntryId} (h : s.lookup id name = .ok (e, s')) :
    SameWalks s s' := by
  obtain rfl | ⟨table, arena, -, rfl⟩ := lookup_eq_ok h
  · exact .refl s'
  · have hkept {β : Type} (g : Namespace → β)
        (hg : ∀ n, g { n with cache := some table, cacheStamp := s.stamp } = g n) (i : SpaceId) :=
      @space_modify_same { s with arena := arena } id _ β g hg i
    refine ⟨rfl, hkept Namespace.parent fun _ => rfl,
      funext (hkept Namespace.entries fun _ => rfl), ?_, hkept Namespace.base fun _ => rfl⟩
    funext i
    exact congrArg (·.reverse ++ [i]) (hkept Namespace.layers (fun _ => rfl) i)

theorem Reachable.lookup {e : Option EntryId} (hs : Reachable size s) (hid : id < s.spaces.size)
    (h : s.lookup id name = .ok (e, s')) : Reachable size s' ∧ SameWalks s s' :=
  ⟨hs.tail (.lookup hid h), sameWalks_lookup h⟩

theorem Reachable.lookupBelow {e : Option EntryId} (hs : Reachable size s)
    (h : s.lookupBelow (some l) name = .ok (e, s')) : Reachable size s' ∧ SameWalks s s' := by
  obtain rfl | ⟨i, p, hparent, hlookup⟩ := lookupBelow_eq_ok h
  · exact ⟨hs, .refl s'⟩
  · exact hs.lookup (hs.indexed.rooted.parent i p hparent) hlookup

/-- The entries that are called one after the other when each of them calls what it hides. -/
inductive Chain (n : Name) : Namespaces → Option EntryId → List EntryId → Prop
  | done {s : Namespaces} : Chain n s none []
  | call {s s' : Namespaces} {e : EntryId} {x : Entry} {next : Option EntryId}
      {called : List EntryId} (hentry : s.entries[e]? = some x)
      (hbelow : s.lookupBelow (some x.space) (some n) = .ok (next, s'))
      (rest : Chain n s' next called) : Chain n s (some e) (e :: called)

/-- A walk without headings of the name, without callable entries that have no name, and through
namespaces that are not layers themselves. -/
structure Clear (s : Namespaces) (n : Name) (ids : List SpaceId) : Prop where
  base : ∀ j ∈ ids, (s.space j).base = none
  named : (s.met ids).any (nameless s.entries) = false
  heading : (s.met ids).any (heading s.entries n) = false

theorem SameWalks.met (h : SameWalks s s') (ids : List SpaceId) : s'.met ids = s.met ids := by
  rw [← flatMap_stops, ← flatMap_stops, stops, stops, h.stopsAt, h.listed]

theorem Clear.congr (h : Clear s n ids) (hsame : SameWalks s s') : Clear s' n ids where
  base j hj := (hsame.base j).trans (h.base j hj)
  named := by
    rw [hsame.met, hsame.entries]
    exact h.named
  heading := by
    rw [hsame.met, hsame.entries]
    exact h.heading

/-- Of different elements that exclude each other, at most one passes. -/
theorem filter_eq_toList_find? {α : Type} {R : α → α → Prop} {q : α → Bool} {xs : List α}
    (hx : xs.Pairwise R) (hq : ∀ x y, q x = true → q y = true → ¬ R x y) :
    xs.filter q = (xs.find? q).toList := by
  induction hx with
  | nil => rfl
  | @cons x xs hxs _ ih =>
    cases hqx : q x with
    | false =>
      have hneg : ¬ q x = true := by simp [hqx]
      rw [List.filter_cons_of_neg hneg, List.find?_cons_of_neg hneg, ih]
    | true =>
      rw [List.filter_cons_of_pos hqx, List.find?_cons_of_pos hqx, List.filter_eq_nil_iff.mpr]
      · rfl
      · exact fun y hy hqy => hq x y hqx hqy (hxs y hy)

theorem callable_name {entries : Array Entry} {e : EntryId} (h : callable entries n e = true) :
    (entries[e]?).map Entry.name = some (some n) := by
  obtain ⟨x, hx, hcall⟩ := (Option.any_eq_true _ _).mp h
  rw [Bool.and_eq_true, beq_iff_eq] at hcall
  rw [hx, Option.map_some, hcall.2]

/-- From any stop on, a chain of calls goes through the entries of the name that the walk meets, all
of them and in this order. -/
theorem Clear.chain (h : Clear s n ids) (hs : Reachable size s) (hids : Lineage s id ids)
    (before : List SpaceId) (hstops : s.stops ids = before ++ after) :
    Chain n s (firstNamed s.entries (after.flatMap s.listed) n)
      ((after.flatMap s.listed).filter (callable s.entries n)) := by
  induction after generalizing s before with
  | nil => exact .done
  | cons l after ih =>
    have hnext {s' : Namespaces} (hs' : Reachable size s') (hsame : SameWalks s s') :
        Chain n s' (firstNamed s.entries (after.flatMap s.listed) n)
          ((after.flatMap s.listed).filter (callable s.entries n)) := by
      have := ih (h.congr hsame) hs' (hids.congr fun j _ => hsame.parent j)
        (before ++ [l]) (by simp [stops, hsame.stopsAt, ← hstops])
      rwa [hsame.entries, hsame.listed] at this
    rw [List.flatMap_cons, firstNamed_append, List.filter_append,
      filter_eq_toList_find? (hs.listed.names l) fun e e' he he' hne =>
        hne ((callable_name he).trans (callable_name he').symm), firstNamed_eq]
    cases hfound : (s.listed l).find? (callable s.entries n) with
    | none => exact hnext hs (.refl s)
    | some e =>
      obtain ⟨x, hx, hspace⟩ := hs.listed.space l e (List.mem_of_find?_eq_some hfound)
      obtain ⟨j, ancestors, start, rest, hj, hlineage, hstop, rfl⟩ := hids.stop hstops
      have hmet : s.met ids = before.flatMap s.listed ++ (s.listed l ++
          (rest.flatMap s.listed ++ s.met ancestors)) := by
        rw [← flatMap_stops, hstops, List.flatMap_append, List.flatMap_cons, List.flatMap_append,
          flatMap_stops]
      have hheading := h.heading
      have hnamed := h.named
      rw [hmet, List.any_append, List.any_append, List.any_append] at hheading hnamed
      simp only [Bool.or_eq_false_iff] at hheading hnamed
      obtain ⟨s', hbelow⟩ := hs.lookupBelow_stop hlineage (h.base j hj) hstop hheading.2.2.1
        hnamed.2.2.2
      obtain ⟨hs', hsame⟩ := hs.lookupBelow hbelow
      rw [← hspace, ← flatMap_stops, ← List.flatMap_append] at hbelow
      exact .call hx hbelow (hnext hs' hsame)

/-- In every history, beneath an overlay of an active package a search goes on with the older layers
of its base, newest first, then with the base, and then with whatever a look-up in the base's parent
searches; beneath a base it is a look-up in the parent. It differs from the walk where a heading of
the name comes in the layers or the base, since it does not pass over that. On a clear walk, the
entry that a look-up finds, what that one finds beneath itself, and so on, are the callable entries
of the name that the walk meets, each of them once and in its order. -/
theorem lookupBelow_continues_walk (hs : Reachable size s) (n : Name) :
    (∀ o p, (s.space o).package = some p → p ∈ s.active →
      ∃ b older newer ids, s.find? (s.space o).name none = some b ∧
        (s.space b).layers = older ++ o :: newer ∧ Lineage s b (b :: ids) ∧
        (((older.reverse ++ [b]).flatMap s.listed).any (heading s.entries n) = false →
          s.lookupBelow (some o) (some n) =
            (match firstNamed s.entries ((older.reverse ++ [b]).flatMap s.listed) n with
            | some e => .ok (some e, s)
            | none => s.fromParent b (some n)) ∧
          ((s.met ids).any (nameless s.entries) = false → ∃ s', s.lookupBelow (some o) (some n) =
            .ok (firstNamed s.entries
              ((older.reverse ++ [b]).flatMap s.listed ++ s.met ids) n, s')))) ∧
    (∀ b, (s.space b).package = none →
      s.lookupBelow (some b) (some n) = s.fromParent b (some n)) ∧
    ∀ id < s.spaces.size, ∃ ids, Lineage s id ids ∧ (Clear s n ids →
      ∃ first s', s.lookup id (some n) = .ok (first, s') ∧
        Chain n s' first ((s.met ids).filter (callable s.entries n))) := by
  have hstacked := hs.stacked
  refine ⟨?layer, fun b hb => lookupBelow_of_base_eq_none (hstacked.base_eq_none hb), ?chain⟩
  case layer =>
    intro o p hpackage hp
    obtain ⟨ho, -, b, hfind, -⟩ := hstacked.based o (covered_eq_true.mpr ⟨p, hp, hpackage⟩)
    obtain ⟨hb, hname, hbase⟩ := find?_some hfind
    have hmem : o ∈ (s.space b).layers := by
      rw [hstacked.layers_eq hb hbase]
      exact (mem_overlaysIn hstacked.distinct).mpr ⟨ho, hname.symm, p, hp, hpackage⟩
    obtain ⟨older, newer, hlayers⟩ := List.append_of_mem hmem
    obtain ⟨ids, hids⟩ : ∃ ids, Lineage s b (b :: ids) := by
      obtain ⟨ids, hids⟩ := hs.indexed.rooted.lineage b
      cases hids with
      | root hroot => exact ⟨[], .root hroot⟩
      | child hchild hrest => exact ⟨_, .child hchild hrest⟩
    refine ⟨b, older, newer, ids, hfind, hlayers, hids, fun hheading => ⟨?_, fun hnamed => ?_⟩⟩
    · rw [hstacked.lookupBelow_layer hlayers (some n), find?_named hheading]
    · have hstop : s.stopsAt b = newer.reverse ++ o :: (older.reverse ++ [b]) := by
        rw [stopsAt, hlayers]
        simp
      exact hs.lookupBelow_stop hids (hstacked.base_eq_none hbase) hstop hheading hnamed
  case chain =>
    intro id hid
    obtain ⟨ids, hids⟩ := hs.indexed.rooted.lineage id
    refine ⟨ids, hids, fun hclear => ?_⟩
    obtain ⟨s', hlookup⟩ := hs.indexed.lookup_first hid hids hclear.named n
    obtain ⟨hs', hsame⟩ := hs.lookup hid hlookup
    have hstops : s'.stops ids = [] ++ s'.stops ids := rfl
    have hchain := (hclear.congr hsame).chain hs' (hids.congr fun j _ => hsame.parent j) [] hstops
    rw [flatMap_stops, hsame.met, hsame.entries] at hchain
    exact ⟨_, s', hlookup, hchain⟩

/-- A class inherits from another and has a layer, and all three have an entry of a name. Beneath
the layer the class itself comes next, and a chain of calls goes through all three. -/
theorem lookupBelow_continues_walk_three :
    let s₁ := ((start 1).obtain none none).2
    let s₂ := (s₁.obtain (some ⟨0⟩) none).2
    let s₃ := (s₂.obtain (some ⟨0⟩) (some ⟨1⟩)).2
    let s₄ := (s₃.link 1 0).2
    let s₅ := (s₄.define 0 (some ⟨2⟩) .callback [] 0 0).2.2
    let s₆ := (s₅.define 1 (some ⟨2⟩) .callback [] 0 0).2.2
    let s₇ := (s₆.define 2 (some ⟨2⟩) .callback [] 0 0).2.2
    let s := (s₇.activate (some ⟨1⟩)).2
    (∃ s', s.lookupBelow (some 2) (some ⟨2⟩) = .ok (some 1, s')) ∧
      ∃ first s', s.lookup 1 (some ⟨2⟩) = .ok (first, s') ∧ Chain ⟨2⟩ s' first [2, 1, 0] := by
  intro s₁ s₂ s₃ s₄ s₅ s₆ s₇ s
  have h₃ : Reachable 1 s₃ :=
    ((Relation.ReflTransGen.single (.obtain _ _ _)).tail (.obtain _ _ _)).tail (.obtain _ _ _)
  have h₄ : Reachable 1 s₄ := h₃.tail (.link (by decide +kernel) (by decide +kernel))
  have h₅ : Reachable 1 s₅ := h₄.tail (.define (by decide +kernel) _ _ _ _ _)
  have h₆ : Reachable 1 s₆ := h₅.tail (.define (by decide +kernel) _ _ _ _ _)
  have h₇ : Reachable 1 s₇ := h₆.tail (.define (by decide +kernel) _ _ _ _ _)
  have hs : Reachable 1 s := h₇.tail (.activate _ _)
  obtain ⟨hlayer, -, hchain⟩ := lookupBelow_continues_walk hs ⟨2⟩
  have hlineage : Lineage s 1 [1, 0] := .child (by decide +kernel) (.root (by decide +kernel))
  constructor
  · obtain ⟨b, older, newer, ids, hfind, hlayers, hids, hbelow⟩ :=
      hlayer 2 ⟨1⟩ (by decide +kernel) (by decide +kernel)
    have hb : s.find? (s.space 2).name none = some 1 := by decide +kernel
    obtain rfl : b = 1 := Option.some.inj (hfind.symm.trans hb)
    have holder : (s.space 1).layers = [2] := by decide +kernel
    obtain ⟨rfl, -⟩ : older = [] ∧ newer = [] := by
      have hlength := congrArg List.length (hlayers.symm.trans holder)
      simp only [List.length_append, List.length_cons, List.length_nil] at hlength
      exact ⟨List.length_eq_zero_iff.mp (by omega), List.length_eq_zero_iff.mp (by omega)⟩
    obtain ⟨-, rfl⟩ := List.cons_eq_cons.mp (hids.unique hlineage)
    obtain ⟨s', hfound⟩ := (hbelow (by decide +kernel)).2 (by decide +kernel)
    refine ⟨s', hfound.trans ?_⟩
    have hfirst : firstNamed s.entries (([].reverse ++ [1]).flatMap s.listed ++ s.met [0]) ⟨2⟩ =
        some 1 := by decide +kernel
    rw [hfirst]
  · obtain ⟨ids, hids, hcalls⟩ := hchain 1 (by decide +kernel)
    obtain rfl := hids.unique hlineage
    have hcalled : (s.met [1, 0]).filter (callable s.entries ⟨2⟩) = [2, 1, 0] := by decide +kernel
    rw [hcalled] at hcalls
    exact hcalls ⟨by decide +kernel, by decide +kernel, by decide +kernel⟩

end ConsoleScript.Namespaces
