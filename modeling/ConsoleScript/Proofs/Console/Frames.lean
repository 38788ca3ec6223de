import ConsoleScript.Proofs.Console.Generations

/-!
# The stack of frames

Frames are slots that are used again, with tables that are kept, lent and emptied. None of this
shows: the stack behaves like one of references to maps on a heap. Pushing a frame pushes a
reference to a new and empty map, or a second reference to the map of a live frame, and popping a
frame drops a reference.
-/

namespace ConsoleScript

structure FrameRef extends label : FrameLabel where
  map : Nat

/-- Maps that are never freed, and the stack of references to them. The globals are the first. -/
structure Heap where
  maps : Array Bindings := #[{}]
  frames : Array FrameRef := #[]

/-- An operation on the stack of frames, or on the variables of the globals or of a frame. -/
inductive StackOp where
  | push (name : Option Name) (ns : Option Nat)
  | pushShared (i : Int)
  | pop
  | setCode (i : Int) (code : Nat) (ip : UInt32)
  | onGlobals (op : VarOp)
  | onFrame (i : Int) (op : VarOp)

namespace Heap

variable {h : Heap} {a a' : Nat} {b : Bindings} {id : ScopeId} {r : FrameRef}

def read (h : Heap) (a : Nat) : Bindings := (h.maps[a]?).getD {}

def write (h : Heap) (a : Nat) (b : Bindings) : Heap :=
  { h with maps := h.maps.setIfInBounds a b }

/-- The map of a live scope. -/
def addr? (h : Heap) : ScopeId → Option Nat
  | .globals => some 0
  | .frame i => (h.frames[i]?).map (·.map)

/-- The frame at a stack position, if it is live. -/
def frame? (h : Heap) (i : Int) : Option FrameRef := if 0 ≤ i then h.frames[i.toNat]? else none

/-- Pushes a reference to a new map. -/
def push (h : Heap) (name : Option Name) (ns : Option Nat) : Heap :=
  { maps := h.maps.push {}
    frames := h.frames.push { map := h.maps.size, name := name, ns := ns } }

/-- Pushes a reference to the map of the live frame at a stack position, or to a new map. The same
code runs in both frames, and has yet to start in the new one. -/
def pushShared (h : Heap) (i : Int) : Heap :=
  match h.frame? i with
  | some r => { h with frames := h.frames.push { r with ip := 0 } }
  | none => h.push none none

def performAt (a : Nat) (names : NameTable) (h : Heap) (op : VarOp) : Answer × NameTable × Heap :=
  let (answer, names, b) := Bindings.perform names (h.read a) op
  (answer, names, h.write a b)

/-- Carries out an operation on the stack. -/
def perform (names : NameTable) (h : Heap) : StackOp → Answer × NameTable × Heap
  | .push name ns => (.done, names, h.push name ns)
  | .pushShared i => (.done, names, h.pushShared i)
  | .pop => (.done, names, { h with frames := h.frames.pop })
  | .setCode i code ip =>
    match h.frame? i with
    | some r => (.done, names, { h with
        frames := h.frames.setIfInBounds i.toNat { r with code := some code, ip := ip } })
    | none => (.refused, names, h)
  | .onGlobals op => performAt 0 names h op
  | .onFrame i op =>
    match h.frame? i with
    | some r => performAt r.map names h op
    | none => (.refused, names, h)

theorem read_write_self (ha : a < h.maps.size) : (h.write a b).read a = b := by
  simp [read, write, ha]

theorem read_write_ne (hne : a' ≠ a) : (h.write a b).read a' = h.read a' := by
  simp [read, write, Array.getElem?_setIfInBounds_ne (Ne.symm hne)]

theorem write_read (ha : a < h.maps.size) : h.write a (h.read a) = h := by
  have hread : h.read a = h.maps[a] := by simp [read, ha]
  have hset : h.maps.setIfInBounds a h.maps[a] = h.maps := by simp [Array.setIfInBounds, ha]
  rw [write, hread, hset]

@[simp] theorem addr?_write : (h.write a b).addr? id = h.addr? id := by
  cases id <;> rfl

theorem read_push {name : Option Name} {ns : Option Nat} (ha : a < h.maps.size) :
    (h.push name ns).read a = h.read a := by
  simp [read, push, Array.getElem?_push, Nat.ne_of_lt ha]

theorem read_push_self {name : Option Name} {ns : Option Nat} :
    (h.push name ns).read h.maps.size = {} := by
  simp [read, push]

theorem addr?_push (maps : Array Bindings) : Heap.addr? ⟨maps, h.frames.push r⟩ id =
    if id = .frame h.frames.size then some r.map else h.addr? id := by
  cases id with
  | globals => rfl
  | frame i =>
    show ((h.frames.push r)[i]?).map (·.map) = _
    rw [Array.getElem?_push]
    by_cases hi : i = h.frames.size
    · simp [hi]
    · simp [hi, addr?]

theorem addr?_pop : Heap.addr? { h with frames := h.frames.pop } id = some a ↔
    h.addr? id = some a ∧ id ≠ .frame (h.frames.size - 1) := by
  cases id with
  | globals => simp [addr?]
  | frame i =>
    show (h.frames.pop[i]?).map (·.map) = some a ↔ _
    rw [Array.getElem?_pop]
    by_cases hi : i < h.frames.size - 1
    · have hne : i ≠ h.frames.size - 1 := Nat.ne_of_lt hi
      simp [hi, hne, addr?]
    · rw [if_neg hi]
      constructor
      · intro hnone
        cases hnone
      · rintro ⟨ha, hne⟩
        have hlt : i < h.frames.size := by
          apply Nat.lt_of_not_le
          intro hle
          rw [addr?, Array.getElem?_eq_none hle] at ha
          cases ha
        exact absurd (congrArg ScopeId.frame (show i = h.frames.size - 1 by omega)) hne

theorem addr?_frame {i : Nat} (hr : h.frames[i]? = some r) : h.addr? (.frame i) = some r.map := by
  rw [addr?, hr]
  rfl

theorem addr?_eq_none {i : Nat} (hi : h.frames.size ≤ i) : h.addr? (.frame i) = none := by
  rw [addr?, Array.getElem?_eq_none hi]
  rfl

end Heap

/-- Where a scope stands: the globals beneath all frames. -/
def ScopeId.level : ScopeId → Nat
  | .globals => 0
  | .frame i => i + 1

namespace Scopes

variable {s s' : Scopes} {h : Heap} {id j o : ScopeId} {a : Nat} {b : Bindings} {sc : Scope}
  {r : FrameRef}

/-- Carries out an operation on the stack. -/
def performStack (names : NameTable) (s : Scopes) : StackOp → Answer × NameTable × Scopes
  | .push name ns => (.done, names, (s.push name ns).2)
  | .pushShared i =>
    match s.tryPushShared i with
    | (.ok _, s) => (.done, names, s)
    | (.error fault, s) => (.faulted fault, names, s)
  | .pop => (.done, names, s.pop)
  | .setCode i code ip =>
    match s.frame? i with
    | some id => (.done, names, s.setCode id code ip)
    | none => (.refused, names, s)
  | .onGlobals op => perform .globals names s op
  | .onFrame i op =>
    match s.frame? i with
    | some id => perform id names s op
    | none => (.refused, names, s)

/-- The stack behaves like one of references. The owner of a table in use is a live scope of the
same map that stands no higher; scopes with the same map use the same table; tables that are not in
use are empty, and so are the labels of free slots. -/
structure Models (s : Scopes) (h : Heap) : Prop where
  initial : 0 < s.initial
  depth : h.frames.size = s.depth
  room : s.depth ≤ s.frames.size
  shows : ∀ id a, h.addr? id = some a → s.Shows id (h.read a)
  valid : ∀ id a, h.addr? id = some a → a < h.maps.size
  owner : ∀ id a o, h.addr? id = some a → (s.get id).table = some o →
    h.addr? o = some a ∧ (s.get o).table = some o ∧ o.level ≤ id.level
  joint : ∀ id j a, h.addr? id = some a → h.addr? j = some a → id ≠ j →
    ∃ o, (s.get id).table = some o ∧ (s.get j).table = some o
  label : ∀ i r, h.frames[i]? = some r → (s.get (.frame i)).label = r.label
  spare : ∀ id, (s.get id).table ≠ some id → ∀ t, (s.get id).own = some t → t.Holds {}
  free : ∀ i, s.depth ≤ i → (s.get (.frame i)).table = none ∧ (s.get (.frame i)).label = {}

theorem get_ofBuckets (buckets : Int) (id : ScopeId) : (ofBuckets buckets).get id = {} := by
  cases id with
  | globals => rfl
  | frame i => simp [get, ofBuckets]

theorem models_ofBuckets (buckets : Int) : Models (ofBuckets buckets) {} where
  initial := initial_ofBuckets buckets
  depth := rfl
  room := Nat.le_refl _
  shows id a ha := by
    cases id with
    | globals =>
      cases ha
      exact .unused trivial rfl fun t ht => by cases ht
    | frame i => cases ha
  valid id a ha := by
    cases id with
    | globals =>
      cases ha
      exact Nat.zero_lt_one
    | frame i => cases ha
  owner id a o _ ho := by
    rw [get_ofBuckets] at ho
    cases ho
  joint id j a ha hj hne := by
    cases id with
    | globals =>
      cases j with
      | globals => exact absurd rfl hne
      | frame i => cases hj
    | frame i => cases ha
  label i r hr := by cases hr
  spare id _ t ht := by
    rw [get_ofBuckets] at ht
    cases ht
  free i _ := by
    rw [get_ofBuckets]
    exact ⟨rfl, rfl⟩

/-! ## Changing variables -/

theorem has_mono (hsize : s.frames.size ≤ s'.frames.size) (has : s.Has j) : s'.Has j := by
  cases j with
  | globals => trivial
  | frame i => exact Nat.lt_of_lt_of_le has hsize

theorem Shows.congr (hshows : s.Shows id b) (hsize : s.frames.size ≤ s'.frames.size)
    (hget : s'.get id = s.get id)
    (howner : ∀ o, (s.get id).table = some o → s'.get o = s.get o) : s'.Shows id b := by
  cases hshows with
  | used has table own holds =>
    refine .used (has_mono hsize has) ?_ ?_ holds
    · rw [hget, table]
    · rw [howner _ table, own]
  | unused has table own =>
    refine .unused (has_mono hsize has) ?_ ?_
    · rw [hget, table]
    · rw [hget]
      exact own

theorem Shows.of_table (hshows : s.Shows id b) (ho : (s.get id).table = some o)
    (hj : (s.get j).table = some o) : s.Shows j b := by
  cases hshows with
  | used has table own holds =>
    rw [ho] at table
    cases table
    exact .used has hj own holds
  | unused has table own =>
    rw [ho] at table
    cases table

theorem Changes.table_eq (hchanges : Changes s id s') (ho : (s.get j).table = some o) :
    (s'.get j).table = some o := by
  rcases hchanges.table j with he | ⟨rfl, hnone, -⟩
  · rw [he, ho]
  · rw [ho] at hnone
    cases hnone

theorem Models.not_owner (hm : Models s h) (ha : h.addr? id = some a) (hj : h.addr? j ≠ some a) :
    j ≠ (s.ref id 0).owner := by
  rintro rfl
  apply hj
  cases htable : (s.get id).table with
  | none => rwa [ref_of_no_table htable]
  | some o =>
    rw [ref_of_table htable]
    exact (hm.owner id a o ha htable).1

theorem Models.shows_other (hm : Models s h) (ha : h.addr? id = some a) (hchanges : Changes s id s')
    {a' : Nat} (ha' : h.addr? j = some a') (hne : a' ≠ a) : s'.Shows j (h.read a') := by
  have hapart {k : ScopeId} (hk : h.addr? k = some a') : k ≠ (s.ref id 0).owner := by
    apply hm.not_owner ha
    rw [hk]
    exact fun he => hne (Option.some.inj he)
  apply (hm.shows j a' ha').congr (Nat.le_of_eq hchanges.size.symm)
  · exact hchanges.other j (hapart ha')
  · intro o ho
    exact hchanges.other o (hapart (hm.owner j a' o ha' ho).1)

theorem Models.shows_same (hm : Models s h) (ha : h.addr? id = some a) (hchanges : Changes s id s')
    (hshows : s'.Shows id b) (hj : h.addr? j = some a) : s'.Shows j b := by
  by_cases he : id = j
  · rwa [← he]
  · obtain ⟨o, ho, ho'⟩ := hm.joint id j a ha hj he
    exact hshows.of_table (hchanges.table_eq ho) (hchanges.table_eq ho')

theorem Models.change (hm : Models s h) (ha : h.addr? id = some a) (hshows : s'.Shows id b)
    (hchanges : Changes s id s') : Models s' (h.write a b) where
  initial := hchanges.initial.symm ▸ hm.initial
  depth := hm.depth.trans hchanges.depth.symm
  room := by
    rw [hchanges.depth, hchanges.size]
    exact hm.room
  shows j a' hj := by
    rw [Heap.addr?_write] at hj
    by_cases he : a' = a
    · subst he
      rw [Heap.read_write_self (hm.valid id a' ha)]
      exact hm.shows_same ha hchanges hshows hj
    · rw [Heap.read_write_ne he]
      exact hm.shows_other ha hchanges hj he
  valid j a' hj := by
    rw [Heap.addr?_write] at hj
    show a' < (h.maps.setIfInBounds a b).size
    rw [Array.size_setIfInBounds]
    exact hm.valid j a' hj
  owner j a' o hj ho := by
    rw [Heap.addr?_write] at hj ⊢
    rcases hchanges.table j with he | ⟨rfl, -, hsome⟩
    · rw [he] at ho
      obtain ⟨haddr, hown, hlevel⟩ := hm.owner j a' o hj ho
      exact ⟨haddr, hchanges.table_eq hown, hlevel⟩
    · rw [hsome] at ho
      cases ho
      exact ⟨hj, hsome, Nat.le_refl _⟩
  joint i j a' hi hj hne := by
    rw [Heap.addr?_write] at hi hj
    obtain ⟨o, ho, ho'⟩ := hm.joint i j a' hi hj hne
    exact ⟨o, hchanges.table_eq ho, hchanges.table_eq ho'⟩
  label i r hr := by
    rw [hchanges.label]
    exact hm.label i r hr
  spare j hj t ht := by
    by_cases he : j = (s.ref id 0).owner
    · -- The owner uses its table, unless the scope has none: then it shows nothing yet.
      cases htable : (s.get id).table with
      | some o =>
        have howned := hchanges.table_eq (hm.owner id a o ha htable).2.1
        rw [he, ref_of_table htable] at hj
        exact absurd howned hj
      | none =>
        rw [ref_of_no_table htable] at he
        subst he
        cases hshows with
        | used has table own holds =>
          rcases hchanges.table j with hsame | ⟨-, -, hsome⟩
          · rw [hsame, htable] at table
            cases table
          · exact absurd hsome hj
        | unused has table own => exact own t ht
    · rw [hchanges.other j he] at hj ht
      exact hm.spare j hj t ht
  free i hi := by
    rw [hchanges.depth] at hi
    have hdead : h.addr? (.frame i) ≠ some a := by
      rw [Heap.addr?_eq_none (hm.depth ▸ hi)]
      exact fun he => by cases he
    rw [hchanges.other _ (hm.not_owner ha hdead)]
    exact hm.free i hi

/-! ## Pushing frames -/

/-- A slot was taken and filled; all else is as it was. -/
structure Pushed (s : Scopes) (sc : Scope) (s' : Scopes) : Prop where
  initial : s'.initial = s.initial
  depth : s'.depth = s.depth + 1
  size : s.frames.size ≤ s'.frames.size
  room : s.depth < s'.frames.size
  top : s'.get (.frame s.depth) = sc
  other : ∀ j, j ≠ .frame s.depth → s'.get j = s.get j

theorem pushed_nextSlot (hroom : s.depth ≤ s.frames.size) (f : Scope → Scope) :
    Pushed s (f (s.get (.frame s.depth))) (s.nextSlot.2.modify (.frame s.depth) f) := by
  have hhas : s.depth < s.nextSlot.2.frames.size := by
    unfold nextSlot
    dsimp only
    split
    · rw [Array.size_push]
      omega
    · omega
  have hsize : s.frames.size ≤ s.nextSlot.2.frames.size := by
    unfold nextSlot
    dsimp only
    split
    · rw [Array.size_push]
      omega
    · exact Nat.le_refl _
  refine ⟨by rw [initial_modify]; rfl, by rw [depth_modify]; rfl, ?_, ?_, ?_, ?_⟩
  · rwa [size_modify]
  · rwa [size_modify]
  · have hself : s.nextSlot.2.Has (.frame s.depth) := hhas
    rw [get_modify_self hself, get_nextSlot]
  · intro j hj
    rw [get_modify_ne hj, get_nextSlot]

theorem Models.live_ne (hm : Models s h) (ha : h.addr? id = some a) : id ≠ .frame s.depth := by
  rintro rfl
  rw [Heap.addr?_eq_none (Nat.le_of_eq hm.depth)] at ha
  cases ha

theorem Models.get_pushed (hm : Models s h) (hp : Pushed s sc s') (ha : h.addr? id = some a) :
    s'.get id = s.get id := hp.other id (hm.live_ne ha)

theorem Models.shows_pushed (hm : Models s h) (hp : Pushed s sc s') (ha : h.addr? id = some a) :
    s'.Shows id (h.read a) := by
  apply (hm.shows id a ha).congr hp.size (hm.get_pushed hp ha)
  intro o ho
  exact hm.get_pushed hp (hm.owner id a o ha ho).1

theorem Models.lt_depth (hm : Models s h) {i : Nat} (ha : h.addr? (.frame i) = some a) :
    i < s.depth := by
  apply Nat.lt_of_not_le
  intro hle
  rw [Heap.addr?_eq_none (hm.depth ▸ hle)] at ha
  cases ha

theorem Models.level_le (hm : Models s h) (ha : h.addr? id = some a) : id.level ≤ s.depth := by
  cases id with
  | globals => exact Nat.zero_le _
  | frame i => exact hm.lt_depth ha

theorem Models.addr?_push (hm : Models s h) (maps : Array Bindings) :
    Heap.addr? ⟨maps, h.frames.push r⟩ j = some a ↔
      j = .frame s.depth ∧ r.map = a ∨ h.addr? j = some a := by
  rw [Heap.addr?_push, hm.depth]
  by_cases hj : j = .frame s.depth
  · subst hj
    have hdead : h.addr? (.frame s.depth) ≠ some a := fun ha => hm.live_ne ha rfl
    simp [hdead]
  · simp [hj]

theorem Models.extend (hm : Models s h) (hp : Pushed s sc s') {maps : Array Bindings}
    (hsize : h.maps.size ≤ maps.size)
    (hread : ∀ a < h.maps.size, Heap.read ⟨maps, h.frames.push r⟩ a = h.read a)
    (hlabel : sc.label = r.label) (hvalid : r.map < maps.size)
    (hshows : s'.Shows (.frame s.depth) (Heap.read ⟨maps, h.frames.push r⟩ r.map))
    (howner : ∀ o, sc.table = some o → o = .frame s.depth ∨
      h.addr? o = some r.map ∧ (s.get o).table = some o)
    (hjoint : ∀ j, h.addr? j = some r.map → ∃ o, sc.table = some o ∧ (s.get j).table = some o)
    (hspare : sc.table ≠ some (.frame s.depth) → ∀ t, sc.own = some t → t.Holds {}) :
    Models s' ⟨maps, h.frames.push r⟩ := by
  constructor
  case initial => exact hp.initial.symm ▸ hm.initial
  case depth =>
    show (h.frames.push r).size = s'.depth
    rw [Array.size_push, hm.depth, hp.depth]
  case room =>
    rw [hp.depth]
    exact hp.room
  case shows =>
    intro j a ha
    rcases (hm.addr?_push maps).mp ha with ⟨rfl, rfl⟩ | ha
    · exact hshows
    · rw [hread a (hm.valid j a ha)]
      exact hm.shows_pushed hp ha
  case valid =>
    intro j a ha
    rcases (hm.addr?_push maps).mp ha with ⟨-, rfl⟩ | ha
    · exact hvalid
    · exact Nat.lt_of_lt_of_le (hm.valid j a ha) hsize
  case owner =>
    intro j a o ha ho
    rcases (hm.addr?_push maps).mp ha with ⟨rfl, rfl⟩ | ha'
    · -- The new frame uses its own table or borrows one from below.
      rw [hp.top] at ho
      rcases howner o ho with rfl | ⟨hlive, hown⟩
      · exact ⟨ha, by rw [hp.top, ho], Nat.le_refl _⟩
      · exact ⟨(hm.addr?_push maps).mpr (.inr hlive), by rw [hm.get_pushed hp hlive, hown],
          Nat.le_succ_of_le (hm.level_le hlive)⟩
    · rw [hm.get_pushed hp ha'] at ho
      obtain ⟨hlive, hown, hlevel⟩ := hm.owner j a o ha' ho
      exact ⟨(hm.addr?_push maps).mpr (.inr hlive), by rw [hm.get_pushed hp hlive, hown], hlevel⟩
  case joint =>
    intro i j a hi hj hne
    rcases (hm.addr?_push maps).mp hi with ⟨rfl, rfl⟩ | hi
    · rcases (hm.addr?_push maps).mp hj with ⟨rfl, -⟩ | hj
      · exact absurd rfl hne
      · obtain ⟨o, ho, ho'⟩ := hjoint j hj
        exact ⟨o, by rw [hp.top, ho], by rw [hm.get_pushed hp hj, ho']⟩
    · rcases (hm.addr?_push maps).mp hj with ⟨rfl, rfl⟩ | hj
      · obtain ⟨o, ho, ho'⟩ := hjoint i hi
        exact ⟨o, by rw [hm.get_pushed hp hi, ho'], by rw [hp.top, ho]⟩
      · rw [hm.get_pushed hp hi, hm.get_pushed hp hj]
        exact hm.joint i j a hi hj hne
  case label =>
    intro i r' hr'
    have hread' : (h.frames.push r)[i]? = some r' := hr'
    rw [Array.getElem?_push, hm.depth] at hread'
    split at hread'
    · next hi =>
      cases hread'
      rw [hi, hp.top]
      exact hlabel
    · next hi =>
      rw [hp.other _ fun he => hi (ScopeId.frame.inj he)]
      exact hm.label i r' hread'
  case spare =>
    intro j hj t ht
    by_cases he : j = .frame s.depth
    · subst he
      rw [hp.top] at hj ht
      exact hspare hj t ht
    · rw [hp.other j he] at hj ht
      exact hm.spare j hj t ht
  case free =>
    intro i hi
    rw [hp.depth] at hi
    have hne : i ≠ s.depth := Nat.ne_of_gt hi
    rw [hp.other _ fun he => hne (ScopeId.frame.inj he)]
    exact hm.free i (Nat.le_of_succ_le hi)

theorem Models.push (hm : Models s h) (name : Option Name) (ns : Option Nat)
    (hp : Pushed s { s.get (.frame s.depth) with
      table := if (s.get (.frame s.depth)).own.isSome then some (.frame s.depth) else none
      name := name, ns := ns } s') : Models s' (h.push name ns) := by
  obtain ⟨htable, hlabel⟩ := hm.free s.depth (Nat.le_refl _)
  have hempty : ∀ t, (s.get (.frame s.depth)).own = some t → t.Holds {} := by
    apply hm.spare
    rw [htable]
    exact fun he => by cases he
  refine hm.extend hp ?_ (fun a ha => Heap.read_push ha) ?_ ?_ ?_ ?_ ?_ ?_
  · rw [Array.size_push]
    exact Nat.le_succ _
  · show FrameLabel.mk name ns (s.get (.frame s.depth)).label.code _ = _
    rw [hlabel]
  · rw [Array.size_push]
    exact Nat.lt_succ_self _
  · have hread : Heap.read (h.push name ns) h.maps.size = {} := Heap.read_push_self
    show s'.Shows (.frame s.depth) (Heap.read (h.push name ns) h.maps.size)
    rw [hread]
    cases hown : (s.get (.frame s.depth)).own with
    | none =>
      refine .unused hp.room ?_ ?_
      · rw [hp.top, hown]
        rfl
      · rw [hp.top, hown]
        intro t ht
        cases ht
    | some t =>
      have hroom : s'.Has (.frame s.depth) := hp.room
      refine .used hroom ?_ ?_ (hempty t hown)
      · rw [hp.top, hown]
        rfl
      · rw [hp.top, hown]
  · intro o ho
    left
    dsimp only at ho
    split at ho
    · exact (Option.some.inj ho).symm
    · cases ho
  · intro j hj
    exact absurd (hm.valid j _ hj) (Nat.lt_irrefl _)
  · intro _ t ht
    exact hempty t ht

theorem Models.borrow (hm : Models s h) {i : Nat} (hr : h.frames[i]? = some r)
    (ho : (s.get (.frame i)).table = some o)
    (hp : Pushed s { s.get (.frame s.depth) with
      table := some o, name := (s.get (.frame i)).name, ns := (s.get (.frame i)).ns
      code := (s.get (.frame i)).code } s') :
    Models s' { h with frames := h.frames.push { r with ip := 0 } } := by
  have ha := Heap.addr?_frame hr
  obtain ⟨hlive, hown, -⟩ := hm.owner _ _ o ha ho
  have hlabel := hm.label i r hr
  have hfree := (hm.free s.depth (Nat.le_refl _)).2
  refine hm.extend hp (Nat.le_refl _) (fun _ _ => rfl) ?_ (hm.valid _ _ ha) ?_ ?_ ?_ ?_
  · show FrameLabel.mk _ _ _ (s.get (.frame s.depth)).label.ip = _
    rw [hlabel, hfree]
  · apply (hm.shows_pushed hp ha).of_table (o := o)
    · rw [hm.get_pushed hp ha, ho]
    · rw [hp.top]
  · intro o' ho'
    cases ho'
    exact .inr ⟨hlive, hown⟩
  · intro j hj
    refine ⟨o, rfl, ?_⟩
    by_cases he : .frame i = j
    · rw [← he, ho]
    · obtain ⟨o', ho', hj'⟩ := hm.joint _ j _ ha hj he
      rw [ho] at ho'
      cases ho'
      exact hj'
  · intro _ t ht
    refine hm.spare (.frame s.depth) ?_ t ht
    rw [(hm.free s.depth (Nat.le_refl _)).1]
    exact fun he => by cases he

theorem Models.frame?_eq (hm : Models s h) (i : Int) :
    (s.frame? i = none ∧ h.frame? i = none) ∨
      ∃ r, s.frame? i = some (.frame i.toNat) ∧ h.frame? i = some r ∧
        h.frames[i.toNat]? = some r := by
  unfold frame? Heap.frame?
  by_cases hi : 0 ≤ i ∧ i < s.depth
  · have hk : i.toNat < h.frames.size := by
      have hdepth := hm.depth
      omega
    refine .inr ⟨h.frames[i.toNat], ?_, ?_, ?_⟩
    · rw [if_pos hi]
    · rw [if_pos hi.1, Array.getElem?_eq_getElem hk]
    · rw [Array.getElem?_eq_getElem hk]
  · refine .inl ⟨if_neg hi, ?_⟩
    by_cases hpos : 0 ≤ i
    · have hk : h.frames.size ≤ i.toNat := by
        have hdepth := hm.depth
        omega
      rw [if_pos hpos, Array.getElem?_eq_none hk]
    · rw [if_neg hpos]

theorem Models.pushShared (hm : Models s h) (i : Int) :
    Models (s.pushShared i).2 (h.pushShared i) := by
  unfold Scopes.pushShared Heap.pushShared
  rcases hm.frame?_eq i with ⟨hs, hh⟩ | ⟨r, hs, hh, hr⟩
  · rw [hs, hh]
    have hlabel := (hm.free s.depth (Nat.le_refl _)).2
    apply hm.push
    have hp := pushed_nextSlot hm.room fun sc =>
      { sc with table := if sc.own.isSome then some (.frame s.depth) else none }
    revert hp hlabel
    generalize s.get (.frame s.depth) = sc
    obtain ⟨label, own, table⟩ := sc
    rintro rfl hp
    exact hp
  · rw [hs, hh]
    have ha := Heap.addr?_frame hr
    obtain ⟨hshows, hchanges, htable⟩ := (hm.shows _ _ ha).ensureTable hm.initial
    have hm₁ := hm.change ha hshows hchanges
    rw [Heap.write_read (hm.valid _ _ ha)] at hm₁
    refine hm₁.borrow hr htable ?_
    exact pushed_nextSlot hm₁.room fun sc => { sc with
      table := some (s.ensureTable (.frame i.toNat)).1
      name := ((s.ensureTable (.frame i.toNat)).2.get (.frame i.toNat)).name
      ns := ((s.ensureTable (.frame i.toNat)).2.get (.frame i.toNat)).ns
      code := ((s.ensureTable (.frame i.toNat)).2.get (.frame i.toNat)).code }

/-! ## Popping frames -/

theorem Models.live (hm : Models s h) {i : Nat} (hi : i < s.depth) :
    ∃ a, h.addr? (.frame i) = some a :=
  ⟨_, Heap.addr?_frame (Array.getElem?_eq_getElem (hm.depth.symm ▸ hi))⟩

theorem Models.owner_ne_top (hm : Models s h) (ha : h.addr? id = some a)
    (hne : id ≠ .frame (s.depth - 1)) (ho : (s.get id).table = some o) :
    o ≠ .frame (s.depth - 1) := by
  rintro rfl
  obtain ⟨-, -, hlevel⟩ := hm.owner id a _ ha ho
  cases id with
  | globals => exact Nat.not_succ_le_zero _ hlevel
  | frame i =>
    have hi := hm.lt_depth ha
    have hle : s.depth - 1 + 1 ≤ i + 1 := hlevel
    exact hne (congrArg ScopeId.frame (by omega))

/-- The slot of the innermost frame was emptied; all else is as it was. -/
structure Popped (s s' : Scopes) : Prop where
  initial : s'.initial = s.initial
  depth : s'.depth = s.depth - 1
  size : s'.frames.size = s.frames.size
  top : s'.get (.frame (s.depth - 1)) = (s.reset (.frame (s.depth - 1))).get (.frame (s.depth - 1))
  other : ∀ j, j ≠ .frame (s.depth - 1) → s'.get j = s.get j

theorem popped_pop (hpos : s.depth ≠ 0) : Popped s s.pop := by
  have hpop : s.pop = { s.reset (.frame (s.depth - 1)) with depth := s.depth - 1 } := by
    rw [Scopes.pop, if_neg hpos]
  rw [hpop]
  refine ⟨initial_modify, rfl, size_modify, rfl, ?_⟩
  intro j hj
  have hreset : (s.reset (.frame (s.depth - 1))).get j = s.get j := get_modify_ne hj
  rw [← hreset]
  cases j <;> rfl

theorem Models.own_holds (hm : Models s h) (ha : h.addr? id = some a) {t : Table}
    (ht : (s.get id).own = some t) : ∃ b, t.Holds b := by
  by_cases htable : (s.get id).table = some id
  · have hshows := hm.shows id a ha
    generalize h.read a = b at hshows
    cases hshows with
    | used has table own holds =>
      rw [htable] at table
      cases table
      rw [ht] at own
      cases own
      exact ⟨b, holds⟩
    | unused has table own => exact ⟨_, own t ht⟩
  · exact ⟨{}, hm.spare id htable t ht⟩

theorem Models.popped (hm : Models s h) (hpos : s.depth ≠ 0) (hp : Popped s s') :
    Models s' { h with frames := h.frames.pop } := by
  have htop : h.frames.size - 1 = s.depth - 1 := by rw [hm.depth]
  have hroom := hm.room
  have hhas : s.Has (.frame (s.depth - 1)) := by
    show s.depth - 1 < s.frames.size
    omega
  have haddr (j : ScopeId) (a : Nat) : Heap.addr? { h with frames := h.frames.pop } j = some a ↔
      h.addr? j = some a ∧ j ≠ .frame (s.depth - 1) := by
    rw [Heap.addr?_pop, htop]
  constructor
  case initial => exact hp.initial.symm ▸ hm.initial
  case depth =>
    show h.frames.pop.size = s'.depth
    rw [Array.size_pop, htop, hp.depth]
  case room =>
    rw [hp.depth, hp.size]
    omega
  case shows =>
    intro j a ha
    obtain ⟨ha, hj⟩ := (haddr j a).mp ha
    apply (hm.shows j a ha).congr (Nat.le_of_eq hp.size.symm) (hp.other j hj)
    intro o ho
    exact hp.other o (hm.owner_ne_top ha hj ho)
  case valid =>
    intro j a ha
    exact hm.valid j a ((haddr j a).mp ha).1
  case owner =>
    intro j a o ha ho
    obtain ⟨ha, hj⟩ := (haddr j a).mp ha
    rw [hp.other j hj] at ho
    obtain ⟨hlive, hown, hlevel⟩ := hm.owner j a o ha ho
    have ho' := hm.owner_ne_top ha hj ho
    exact ⟨(haddr o a).mpr ⟨hlive, ho'⟩, by rw [hp.other o ho', hown], hlevel⟩
  case joint =>
    intro i j a hi hj hne
    obtain ⟨hi, hi'⟩ := (haddr i a).mp hi
    obtain ⟨hj, hj'⟩ := (haddr j a).mp hj
    rw [hp.other i hi', hp.other j hj']
    exact hm.joint i j a hi hj hne
  case label =>
    intro i r hr
    have hread : h.frames.pop[i]? = some r := hr
    rw [Array.getElem?_pop, htop] at hread
    split at hread
    · next hi =>
      rw [hp.other _ fun he => Nat.ne_of_lt hi (ScopeId.frame.inj he)]
      exact hm.label i r hread
    · cases hread
  case spare =>
    intro j hj t ht
    by_cases he : j = .frame (s.depth - 1)
    · -- Nobody else uses the table of the popped frame any more, so it could be emptied.
      subst he
      rw [hp.top] at ht
      obtain ⟨a, hlive⟩ := hm.live (i := s.depth - 1) (by omega)
      exact own_reset hhas (fun t ht => hm.own_holds hlive ht) (hm.spare _) t ht
    · rw [hp.other j he] at hj ht
      exact hm.spare j hj t ht
  case free =>
    intro i hi
    rw [hp.depth] at hi
    by_cases he : i = s.depth - 1
    · rw [he, hp.top, get_reset s _ hhas]
      exact ⟨rfl, rfl⟩
    · rw [hp.other _ fun hi => he (ScopeId.frame.inj hi)]
      exact hm.free i (by omega)

theorem Models.pop (hm : Models s h) : Models s.pop { h with frames := h.frames.pop } := by
  by_cases hzero : s.depth = 0
  · have hempty : h.frames = #[] := Array.eq_empty_of_size_eq_zero (hm.depth.trans hzero)
    have hpop : h.frames.pop = h.frames := by rw [hempty]; rfl
    rw [Scopes.pop, if_pos hzero, hpop]
    exact hm
  · exact hm.popped hzero (popped_pop hzero)

/-! ## Labels -/

theorem own_setCode (s : Scopes) (id : ScopeId) (code : Nat) (ip : UInt32) (j : ScopeId) :
    ((s.setCode id code ip).get j).own = (s.get j).own := by
  rcases get_modify_cases s id (fun sc => { sc with code := some code, ip := ip }) j with he | ⟨-, he⟩
  · rw [Scopes.setCode, he]
  · rw [Scopes.setCode, he]

theorem table_setCode (s : Scopes) (id : ScopeId) (code : Nat) (ip : UInt32) (j : ScopeId) :
    ((s.setCode id code ip).get j).table = (s.get j).table := by
  rcases get_modify_cases s id (fun sc => { sc with code := some code, ip := ip }) j with he | ⟨-, he⟩
  · rw [Scopes.setCode, he]
  · rw [Scopes.setCode, he]

theorem Shows.setCode (hshows : s.Shows j b) (id : ScopeId) (code : Nat) (ip : UInt32) :
    (s.setCode id code ip).Shows j b := by
  cases hshows with
  | used has table own holds =>
    exact .used ((has_congr size_modify).mpr has) ((table_setCode ..).trans table)
      ((own_setCode ..).trans own) holds
  | unused has table own =>
    refine .unused ((has_congr size_modify).mpr has) ((table_setCode ..).trans table) ?_
    rw [own_setCode]
    exact own

/-- A reference that is written anew still refers to its map. -/
theorem Heap.addr?_relabel {k : Nat} {r' : FrameRef} (hr : h.frames[k]? = some r)
    (hmap : r'.map = r.map) (j : ScopeId) :
    Heap.addr? { h with frames := h.frames.setIfInBounds k r' } j = h.addr? j := by
  cases j with
  | globals => rfl
  | frame i =>
    show ((h.frames.setIfInBounds k r')[i]?).map (·.map) = (h.frames[i]?).map (·.map)
    rw [Array.getElem?_setIfInBounds]
    split
    · next hi =>
      rw [← hi, hr, if_pos (Array.getElem?_eq_some_iff.mp hr).1]
      exact congrArg some hmap
    · rfl

theorem Models.setCode (hm : Models s h) {k : Nat} (hr : h.frames[k]? = some r) (code : Nat)
    (ip : UInt32) : Models (s.setCode (.frame k) code ip)
      { h with frames := h.frames.setIfInBounds k { r with code := some code, ip := ip } } := by
  have haddr : ∀ j, Heap.addr? { h with
      frames := h.frames.setIfInBounds k { r with code := some code, ip := ip } } j = h.addr? j :=
    Heap.addr?_relabel hr rfl
  have hlt : k < h.frames.size := (Array.getElem?_eq_some_iff.mp hr).1
  have hk : k < s.depth := hm.depth ▸ hlt
  have hhas : s.Has (.frame k) := Nat.lt_of_lt_of_le hk hm.room
  constructor
  case initial => exact hm.initial
  case depth =>
    show (h.frames.setIfInBounds k _).size = s.depth
    rw [Array.size_setIfInBounds, hm.depth]
  case room =>
    show s.depth ≤ (s.frames.modify k _).size
    rw [Array.size_modify]
    exact hm.room
  case shows =>
    intro j a ha
    exact (hm.shows j a ((haddr j).symm.trans ha)).setCode ..
  case valid =>
    intro j a ha
    exact hm.valid j a ((haddr j).symm.trans ha)
  case owner =>
    intro j a o ha ho
    rw [haddr] at ha ⊢
    rw [table_setCode] at ho ⊢
    exact hm.owner j a o ha ho
  case joint =>
    intro i j a hi hj hne
    rw [haddr] at hi hj
    rw [table_setCode, table_setCode]
    exact hm.joint i j a hi hj hne
  case label =>
    intro i r' hr'
    have hread : (h.frames.setIfInBounds k _)[i]? = some r' := hr'
    rw [Array.getElem?_setIfInBounds] at hread
    split at hread
    · next hi =>
      subst hi
      cases hread
      rw [Scopes.setCode, get_modify_self hhas]
      have hlabel := hm.label k r hr
      show FrameLabel.mk (s.get (.frame k)).label.name (s.get (.frame k)).label.ns _ _ = _
      rw [hlabel]
    · next hi =>
      have hne : ScopeId.frame i ≠ .frame k := fun he => hi (ScopeId.frame.inj he).symm
      rw [Scopes.setCode, get_modify_ne hne]
      exact hm.label i r' hread
  case spare =>
    intro j hj t ht
    rw [table_setCode] at hj
    rw [own_setCode] at ht
    exact hm.spare j hj t ht
  case free =>
    intro i hi
    have hi : s.depth ≤ i := hi
    have hne : ScopeId.frame i ≠ .frame k := fun he =>
      Nat.not_le_of_lt hk (ScopeId.frame.inj he ▸ hi)
    rw [Scopes.setCode, get_modify_ne hne]
    exact hm.free i hi

/-! ## Histories -/

theorem Models.performAt (hm : Models s h) (hs : s.Usable) (ha : h.addr? id = some a)
    (names : NameTable) (op : VarOp) :
    (Scopes.perform id names s op).1 = (Heap.performAt a names h op).1 ∧
      (Scopes.perform id names s op).2.1 = (Heap.performAt a names h op).2.1 ∧
      Models (Scopes.perform id names s op).2.2 (Heap.performAt a names h op).2.2 := by
  obtain ⟨hanswer, hnames, hshows, hchanges⟩ := (hm.shows id a ha).perform hm.initial names op
    fun _ _ => hs.addFault?_eq id
  exact ⟨hanswer, hnames, hm.change ha hshows hchanges⟩

theorem Models.push_eq (hm : Models s h) (name : Option Name) (ns : Option Nat) :
    Models (s.push name ns).2 (h.push name ns) :=
  hm.push name ns (pushed_nextSlot hm.room fun sc => { sc with
    table := if sc.own.isSome then some (.frame s.depth) else none, name := name, ns := ns })

theorem Models.shows_new (hm : Models s h) (name : Option Name) (ns : Option Nat) :
    (s.push name ns).2.Shows (.frame s.depth) {} := by
  have haddr : (h.push name ns).addr? (.frame s.depth) = some h.maps.size := by
    rw [Heap.push, Heap.addr?_push, hm.depth, if_pos rfl]
  have hshows := (hm.push_eq name ns).shows _ _ haddr
  rwa [Heap.read_push_self] at hshows

theorem Models.pop_keeps (hm : Models s h) (ha : h.addr? id = some a)
    (hne : id ≠ .frame (s.depth - 1)) : s.pop.get id = s.get id ∧ s.pop.Shows id (h.read a) := by
  by_cases hzero : s.depth = 0
  · rw [Scopes.pop, if_pos hzero]
    exact ⟨rfl, hm.shows id a ha⟩
  · refine ⟨(popped_pop hzero).other id hne, hm.pop.shows id a (Heap.addr?_pop.mpr ⟨ha, ?_⟩)⟩
    rwa [hm.depth]

theorem Usable.tryPushShared_eq (hs : s.Usable) (i : Int) :
    s.tryPushShared i = (.ok (s.pushShared i).1, (s.pushShared i).2) := by
  have hfault : (s.frame? i).bind s.tableFault? = none :=
    Option.bind_eq_none_iff.mpr fun id _ => hs.tableFault?_eq id
  rw [tryPushShared, hfault]

theorem Models.perform (hm : Models s h) (hs : s.Usable) (names : NameTable) (op : StackOp) :
    (performStack names s op).1 = (Heap.perform names h op).1 ∧
      (performStack names s op).2.1 = (Heap.perform names h op).2.1 ∧
      Models (performStack names s op).2.2 (Heap.perform names h op).2.2 := by
  cases op with
  | push name ns => exact ⟨rfl, rfl, hm.push_eq name ns⟩
  | pushShared i =>
    unfold performStack
    dsimp only
    rw [hs.tryPushShared_eq]
    exact ⟨rfl, rfl, hm.pushShared i⟩
  | pop => exact ⟨rfl, rfl, hm.pop⟩
  | setCode i code ip =>
    unfold performStack Heap.perform
    dsimp only
    rcases hm.frame?_eq i with ⟨hs, hh⟩ | ⟨r, hs, hh, hr⟩
    · rw [hs, hh]
      exact ⟨rfl, rfl, hm⟩
    · rw [hs, hh]
      exact ⟨rfl, rfl, hm.setCode hr code ip⟩
  | onGlobals op => exact hm.performAt hs rfl names op
  | onFrame i op =>
    unfold performStack Heap.perform
    dsimp only
    rcases hm.frame?_eq i with ⟨hi, hh⟩ | ⟨r, hi, hh, hr⟩
    · rw [hi, hh]
      exact ⟨rfl, rfl, hm⟩
    · rw [hi, hh]
      exact hm.performAt hs (Heap.addr?_frame hr) names op

theorem Usable.performStack (hs : s.Usable) (names : NameTable) (op : StackOp) :
    (performStack names s op).2.2.Usable := by
  cases op with
  | push name ns => exact hs.later (s.steady_push name ns)
  | pushShared i =>
    unfold Scopes.performStack
    dsimp only
    rw [hs.tryPushShared_eq]
    exact hs.later (s.steady_pushShared i)
  | pop => exact hs.later s.later_pop
  | setCode i code ip =>
    unfold Scopes.performStack
    dsimp only
    split
    · exact hs.later (s.steady_setCode _ code ip)
    · exact hs
  | onGlobals op => exact hs.later (s.steady_perform .globals names op)
  | onFrame i op =>
    unfold Scopes.performStack
    dsimp only
    split
    · exact hs.later (s.steady_perform _ names op)
    · exact hs

theorem models_runAll {buckets : Int} (hbuckets : Table.Makeable (ofBuckets buckets).initial)
    (history : List StackOp) :
    (runAll performStack {} (ofBuckets buckets) history).answers =
      (runAll Heap.perform {} {} history).answers ∧
    (runAll performStack {} (ofBuckets buckets) history).names =
      (runAll Heap.perform {} {} history).names ∧
    Models (runAll performStack {} (ofBuckets buckets) history).state
      (runAll Heap.perform {} {} history).state := by
  have hstep : ∀ names s h op, Models s h ∧ s.Usable →
      (performStack names s op).1 = (Heap.perform names h op).1 ∧
      (performStack names s op).2.1 = (Heap.perform names h op).2.1 ∧
      Models (performStack names s op).2.2 (Heap.perform names h op).2.2 ∧
        (performStack names s op).2.2.Usable := by
    rintro names s h op ⟨hm, hs⟩
    obtain ⟨hanswer, hnames, hm'⟩ := hm.perform hs names op
    exact ⟨hanswer, hnames, hm', hs.performStack names op⟩
  obtain ⟨hanswers, hnames, hm, -⟩ := @runAll_simulates _ _ _ _ _
    (fun _ s h => Models s h ∧ s.Usable) hstep {} _ _
    ⟨models_ofBuckets buckets, usable_ofBuckets hbuckets⟩ history
  exact ⟨hanswers, hnames, hm⟩

theorem Models.shares_iff (hm : Models s h) {a' : Nat} (ha : h.addr? id = some a)
    (hj : h.addr? j = some a') (hne : id ≠ j) : s.shares id j = true ↔ a = a' := by
  unfold shares
  rw [Bool.and_eq_true, beq_iff_eq, Option.isSome_iff_exists]
  constructor
  · rintro ⟨⟨o, ho⟩, hsame⟩
    have haddr := (hm.owner id a o ha ho).1
    rw [(hm.owner j a' o hj (hsame ▸ ho)).1] at haddr
    exact (Option.some.inj haddr).symm
  · rintro rfl
    obtain ⟨o, ho, ho'⟩ := hm.joint id j a ha hj hne
    exact ⟨⟨o, ho⟩, ho.trans ho'.symm⟩

/-- With any number of buckets that can be made and counted, and after any history, the globals and
the live frames are references to maps on a heap: all operations answer as on the heap, every scope
shows the map it refers to, every frame has the label that was written on its reference, and two
scopes share a table when they refer to one map. A new frame shows nothing and has no label but that
of the push, and popping a frame leaves all others as they are. -/
theorem frames_refine_heap {buckets : Int}
    (hbuckets : Table.Makeable (ofBuckets buckets).initial) (history : List StackOp) :
    let run := runAll performStack {} (ofBuckets buckets) history
    let spec := runAll Heap.perform {} {} history
    run.answers = spec.answers ∧ run.names = spec.names ∧
    run.state.depth = spec.state.frames.size ∧
    (∀ id a, spec.state.addr? id = some a →
      (∀ n, run.state.find? id (some n) =
        ((spec.state.read a).bound[n]?).map (run.state.ref id)) ∧
      (∀ c, run.state.var? (run.state.ref id c) = (spec.state.read a).vars[c]?) ∧
      run.state.count id = (spec.state.read a).bound.size ∧
      ∀ pattern r v, (r, v) ∈ run.state.matching run.names id pattern ↔
        ∃ c, r = run.state.ref id c ∧ (spec.state.read a).vars[c]? = some v ∧
          (spec.state.read a).bound[v.name]? = some c ∧
          Glob.matches? pattern (run.names.text v.name) = true) ∧
    (∀ i r, spec.state.frames[i]? = some r → (run.state.get (.frame i)).label = r.label) ∧
    (∀ id j a a', spec.state.addr? id = some a → spec.state.addr? j = some a' → id ≠ j →
      (run.state.shares id j = true ↔ a = a')) ∧
    (∀ name ns, (∀ n, (run.state.push name ns).2.find? (run.state.push name ns).1 (some n) = none) ∧
      ((run.state.push name ns).2.get (run.state.push name ns).1).label =
        { name := name, ns := ns }) ∧
    ∀ id a, spec.state.addr? id = some a → id ≠ .frame (run.state.depth - 1) →
      (run.state.pop.get id).label = (run.state.get id).label ∧
      ∀ n c, run.state.pop.find? id (some n) = run.state.find? id (some n) ∧
        run.state.pop.var? (run.state.ref id c) = run.state.var? (run.state.ref id c) := by
  intro run spec
  obtain ⟨hanswers, hnames, hm⟩ := models_runAll hbuckets history
  refine ⟨hanswers, hnames, hm.depth.symm, ?_, hm.label, ?_, ?_, ?_⟩
  · intro id a ha
    have hshows := hm.shows id a ha
    exact ⟨hshows.find?_eq, hshows.var?_eq, hshows.count_eq,
      fun pattern _ _ => hshows.mem_matching pattern⟩
  · intro id j a a' ha hj hne
    exact hm.shares_iff ha hj hne
  · intro name ns
    refine ⟨fun n => ((hm.shows_new name ns).find?_eq n).trans ?_, ?_⟩
    · rw [Std.ExtTreeMap.getElem?_empty]
      rfl
    · refine (hm.push_eq name ns).label run.state.depth
        { map := spec.state.maps.size, name := name, ns := ns } ?_
      show (spec.state.frames.push _)[run.state.depth]? = _
      rw [← hm.depth, Array.getElem?_push_size]
  · intro id a ha hne
    obtain ⟨hget, hshows⟩ := hm.pop_keeps ha hne
    refine ⟨by rw [hget], fun n c => ?_⟩
    have href : run.state.pop.ref id = run.state.ref id := by
      funext c
      rw [ref, ref, hget]
    refine ⟨?_, ?_⟩
    · rw [hshows.find?_eq, (hm.shows id a ha).find?_eq, href]
    · rw [← href, hshows.var?_eq, href, (hm.shows id a ha).var?_eq]

/-- A function with a local, and a frame that borrows its table. The slot of the one is used again
for another function, which sees neither the locals nor the code of the first. -/
theorem frames_refine_heap_reused :
    let history : List StackOp := [.push (some ⟨1⟩) none, .onFrame 0 (.add "a"), .setCode 0 5 9,
      .pushShared 0, .onFrame 1 (.add "b"), .pop, .pop, .push (some ⟨2⟩) (some 3)]
    let run := runAll performStack {} (ofBuckets 1) history
    Table.Makeable (ofBuckets 1).initial ∧
      run.answers = [.done, .cell 0, .done, .done, .cell 1, .done, .done, .done] ∧
      (run.state.get (.frame 0)).label = { name := some ⟨2⟩, ns := some 3 } ∧
      run.state.count (.frame 0) = 0 := by
  intro history run
  have hbuckets : Table.Makeable (ofBuckets 1).initial := by decide
  obtain ⟨hanswers, -, -, hshows, hlabel, -⟩ := frames_refine_heap hbuckets history
  have hspec : (runAll Heap.perform {} {} history).state.frames =
      #[{ map := 2, name := some ⟨2⟩, ns := some 3 }] := by rfl
  refine ⟨hbuckets, hanswers.trans (by decide +kernel), hlabel 0 _ (by rw [hspec]; rfl), ?_⟩
  refine (hshows (.frame 0) 2 ?_).2.2.1.trans (by decide)
  rw [Heap.addr?, hspec]
  rfl

/-- Of some numbers of buckets no table can be made, and some are zero in 32 bits: then a frame can
have no variables, and its table cannot be shared. -/
theorem frames_refine_heap_too_many :
    (runAll performStack {} (ofBuckets 0x4000000000000000)
      [.push none none, .onFrame 0 (.add "a"), .pushShared 0]).answers =
      [.done, .faulted .tooLarge, .faulted .tooLarge] ∧
    (runAll performStack {} (ofBuckets UInt32.size) [.onGlobals (.add "a")]).answers =
      [.faulted .zeroDivide] ∧
    (runAll Heap.perform {} {} [.push none none, .onFrame 0 (.add "a"), .pushShared 0]).answers =
      [.done, .cell 0, .done] ∧
    (runAll Heap.perform {} {} [.onGlobals (.add "a")]).answers = [.cell 0] := by
  have hintern : ({} : NameTable).intern "a" = (some ⟨1⟩, (({} : NameTable).intern "a").2) :=
    Prod.ext (by decide) rfl
  have hfault : (ofBuckets UInt32.size).addFault? .globals = some .zeroDivide := by decide
  exact ⟨by decide, congrArg (fun x => [x]) (answer_add_faulted hintern hfault), by decide, by decide⟩

end Scopes
end ConsoleScript
