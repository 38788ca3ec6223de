import ConsoleScript.Proofs.Console.Stages

/-!
# Sessions

A session is what happens to a console from its making on. Whoever uses the console waits until a run
is at its end, and then changes the console, pushes and pops frames, registers classes, loads code or
asks for the next run. A session also keeps account of what the console itself has no record of: the
links that were made between the namespaces of classes, and the blocks that were loaded and not run.

`Session.Reachable.invariant` is how something is proved of all points of all sessions.
-/

namespace ConsoleScript

open Console

namespace Console

def blank (buckets callDepth arena : Int) : Console where
  scopes := Scopes.ofBuckets buckets
  spaces := { arena := Arena.ofSize arena }
  maxCallDepth := if callDepth ≤ 0 then defaultCallDepth else callDepth.toNat

/-- A console with some commands and no classes. -/
def equipped (buckets callDepth arena : Int) (commands : List Registration) : Console :=
  let (globals, c) := (blank buckets callDepth arena).obtain none none
  c.registerAll globals commands

/-- The link between namespaces that registering a class makes, if it is made. -/
def classLink (c : Console) (cls parent : Text) : List (SpaceId × SpaceId) :=
  let (k, c) := c.intern cls
  let (p, c) := c.intern parent
  let (id, c) := c.obtain k none
  match p with
  | none => []
  | some p =>
    let (parentId, c) := c.obtain (some p) none
    if (c.spaces.link id parentId).1 then [(id, parentId)] else []

theorem registerClass_links (c : Console) (strict : Prop) (cls parent : Text) : ∃ c₁,
    Changes 0 strict none c c₁ ∧ Links c₁ (c.classLink cls parent) (c.registerClass cls parent).2 := by
  refine ⟨{ ((c.intern cls).2.intern parent).2 with
    classes := c.classes.register (c.intern cls).1 ((c.intern cls).2.intern parent).1 },
    .elsewhere ((NameTable.grows_intern _ cls).trans (NameTable.grows_intern _ parent))
      rfl rfl rfl rfl rfl rfl, ?_⟩
  rw [classLink, registerClass]
  dsimp only
  refine .obtain (c.intern cls).1 ?_
  cases ((c.intern cls).2.intern parent).1 with
  | none => exact .done _
  | some p =>
    refine .obtain (some p) (links_link ?_ ?_)
    · exact Nat.lt_of_lt_of_le (Namespaces.fst_obtain_lt _ _ _) Namespaces.grows_obtain.size
    · exact Namespaces.fst_obtain_lt _ _ _

end Console

namespace Process

/-- A process at its end. -/
def rest (c : Console) : Process := ⟨.give .nothing, [], c⟩

end Process

/-- May the job be asked for from outside? To run a block has its own step. -/
def Job.Public (strict : Prop) (c : Console) : Job → Prop
  | .eval _ _ | .evalLocal _ _ | .execFile _ | .delete _ => True
  | .call ⟨_, receiver, _⟩ => strict → ∀ r, receiver = some r → c.objects.Known r
  | .method r _ _ => strict → c.objects.Known r
  | .register r => r < c.objects.store.size ∧ (c.objects.get r).registered = false
  | _ => False

/-- A console in use. -/
structure Session where
  process : Process
  /-- The links that were made between the namespaces of classes. -/
  links : List (SpaceId × SpaceId)
  /-- The blocks that were loaded and not run. -/
  unrun : List BlockId

namespace Session

abbrev console (s : Session) : Console := s.process.console

/-- One step of a run, or something that is done from outside. -/
inductive Step (strict : Prop) : Session → Session → Prop
  | go {p q : Process} {links : List (SpaceId × SpaceId)} {unrun : List BlockId}
    (next : p.next = some q) : Step strict ⟨p, links, unrun⟩ ⟨q, links, unrun⟩
  | change {p : Process} {c : Console} {links : List (SpaceId × SpaceId)} {unrun : List BlockId}
    (idle : p.next = none) (h : Changes 0 strict none p.console c) :
    Step strict ⟨p, links, unrun⟩ ⟨.rest c, links, unrun⟩
  | pushFrame {p : Process} {links : List (SpaceId × SpaceId)} {unrun : List BlockId}
    (idle : p.next = none) (name : Option Name) (ns : Option SpaceId) :
    Step strict ⟨p, links, unrun⟩ ⟨.rest (p.console.pushFrame name ns).2, links, unrun⟩
  | pushShared {p : Process} {links : List (SpaceId × SpaceId)} {unrun : List BlockId}
    (idle : p.next = none) (i : Int) :
    Step strict ⟨p, links, unrun⟩ ⟨.rest (p.console.pushShared i).2, links, unrun⟩
  | popFrame {p : Process} {links : List (SpaceId × SpaceId)} {unrun : List BlockId}
    (idle : p.next = none) : Step strict ⟨p, links, unrun⟩ ⟨.rest p.console.popFrame, links, unrun⟩
  | registerClass {p : Process} {links : List (SpaceId × SpaceId)} {unrun : List BlockId}
    (idle : p.next = none) (cls parent : Text) : Step strict ⟨p, links, unrun⟩
      ⟨.rest (p.console.registerClass cls parent).2, p.console.classLink cls parent ++ links, unrun⟩
  | load {p : Process} {links : List (SpaceId × SpaceId)} {unrun : List BlockId}
    (idle : p.next = none) (u : CodeUnit) : Step strict ⟨p, links, unrun⟩
      ⟨.rest (p.console.load u).2, links, (p.console.load u).1 :: unrun⟩
  | exec {p : Process} {links : List (SpaceId × SpaceId)} {unrun : List BlockId}
    (idle : p.next = none) {b : BlockId} (h : b ∈ unrun) : Step strict ⟨p, links, unrun⟩
      ⟨⟨.start (.exec b), [], p.console⟩, links, unrun.erase b⟩
  | ask {p : Process} {links : List (SpaceId × SpaceId)} {unrun : List BlockId}
    (idle : p.next = none) {j : Job} (h : j.Public strict p.console) : Step strict ⟨p, links, unrun⟩
      ⟨⟨.start j, [], p.console⟩, links, unrun⟩

/-- The session of a console that was just made. -/
def start (buckets callDepth arena : Int) : Session := ⟨.rest (blank buckets callDepth arena), [], []⟩

/-- The points that sessions come to. -/
def Reachable (strict : Prop) (s : Session) : Prop :=
  ∃ buckets callDepth arena, Relation.ReflTransGen (Step strict) (start buckets callDepth arena) s

variable {strict : Prop} {s s' : Session} {p : Process} {c c' : Console}

theorem Reachable.step (h : s.Reachable strict) (hstep : Step strict s s') : s'.Reachable strict := by
  obtain ⟨buckets, callDepth, arena, h⟩ := h
  exact ⟨buckets, callDepth, arena, h.tail hstep⟩

theorem Reachable.reaches {q : Process} {links : List (SpaceId × SpaceId)} {unrun : List BlockId}
    (h : Reachable strict ⟨p, links, unrun⟩) (hreaches : p.Reaches q) :
    Reachable strict ⟨q, links, unrun⟩ :=
  hreaches.invariant (P := fun p => Reachable strict ⟨p, links, unrun⟩)
    (fun _ _ hp next => hp.step (.go next)) h

theorem reachable_start (buckets callDepth arena : Int) :
    (start buckets callDepth arena).Reachable strict :=
  ⟨buckets, callDepth, arena, .refl⟩

/-- A console that a session comes to, with nothing loaded. -/
def Comes (strict : Prop) (c : Console) : Prop := ∃ links, Reachable strict ⟨.rest c, links, []⟩

theorem Comes.change (h : Comes strict c) (hchanges : Changes 0 strict none c c') : Comes strict c' := by
  obtain ⟨links, h⟩ := h
  exact ⟨links, h.step (.change rfl hchanges)⟩

theorem Comes.registerClass (h : Comes strict c) (cls parent : Text) :
    Comes strict (c.registerClass cls parent).2 := by
  obtain ⟨links, h⟩ := h
  exact ⟨_, h.step (.registerClass rfl cls parent)⟩

theorem comes_equipped (buckets callDepth arena : Int) (commands : List Registration) :
    Comes strict (equipped buckets callDepth arena commands) := by
  have hblank : Comes strict (blank buckets callDepth arena) := ⟨[], reachable_start buckets callDepth arena⟩
  exact (hblank.change (.obtain _ none none)).change (.registerAll _ _ commands)

theorem Reachable.eval {links : List (SpaceId × SpaceId)} {unrun : List BlockId}
    (h : Reachable strict ⟨.rest c, links, unrun⟩) (source filename : Text) (n : Nat) :
    Reachable strict ⟨.runFor n ⟨.start (.eval source filename), [], c⟩, links, unrun⟩ := by
  have hasked : Reachable strict ⟨⟨.start (.eval source filename), [], c⟩, links, unrun⟩ :=
    h.step (.ask rfl trivial)
  exact hasked.reaches (Process.reaches_runFor n _)

theorem Reachable.compile {links : List (SpaceId × SpaceId)} {unrun : List BlockId} {b : BlockId}
    {source filename : Text} (h : Reachable strict ⟨.rest c, links, unrun⟩)
    (hcompile : c.compile source filename = (.ok b, c')) :
    Reachable strict ⟨.rest c', links, b :: unrun⟩ := by
  rw [Console.compile] at hcompile
  split at hcompile
  · cases hcompile
  · rename_i u hu
    cases hcompile
    exact (h.step (.change rfl (.fold Changes.printLine u.warnings c))).step (.load rfl u)

/-! ## What holds in every session -/

theorem stage_of_idle (h : p.next = none) : p.stage = ⟨none, [], p.console⟩ := by
  obtain ⟨focus, stack, c⟩ := p
  cases focus with
  | start j => cases h
  | give a =>
    cases stack with
    | nil => rfl
    | cons w stack => cases h
  | fail f =>
    cases stack with
    | nil => rfl
    | cons w stack => cases h

/-- Whatever job is begun at the end of a run, its frames start where the stack of frames is. -/
theorem fits_start {j : Job} (hclosed : c.scopes.Closed 0)
    (hj : j.Fits 0 c.scopes.depth strict [] c) :
    Process.Fits 0 c.scopes.depth strict ⟨.start j, [], c⟩ where
  low := Nat.zero_le _
  closed := hclosed
  deep := rfl
  formed := trivial
  focus := by
    rintro _ ⟨⟩
    exact hj

theorem fits_rest (hclosed : c.scopes.Closed 0) : Process.Fits 0 c.scopes.depth strict (.rest c) where
  low := Nat.zero_le _
  closed := hclosed
  deep := rfl
  formed := trivial
  focus := by rintro _ ⟨⟩

theorem grounded_zero (floor : Nat) (stack : List Pending) : Grounded 0 floor stack :=
  fun h => absurd h (Nat.lt_irrefl 0)

theorem opens_nil : Opens [] := by rintro _ ⟨⟩

theorem fits_of_public {j : Job} {floor : Nat} (h : j.Public strict c) : j.Fits 0 floor strict [] c := by
  cases j with
  | eval source filename => exact opens_nil
  | execFile path => exact opens_nil
  | evalLocal source filename => exact ⟨opens_nil, grounded_zero _ _⟩
  | delete r => exact grounded_zero _ _
  | call target => exact ⟨grounded_zero _ _, h⟩
  | method r name args => exact ⟨grounded_zero _ _, h⟩
  | register r => exact ⟨grounded_zero _ _, h⟩
  | _ => cases h

theorem awaits_of_public {j : Job} (h : j.Public strict c) : (Focus.start j).awaits = none := by
  cases j <;> first | rfl | cases h

theorem closed_registerClass (hclosed : c.scopes.Closed 0) (cls parent : Text) :
    (c.registerClass cls parent).2.scopes.Closed 0 := by
  obtain ⟨c₁, hchanges, hlinks⟩ := c.registerClass_links False cls parent
  rw [hlinks.sameSetting.scopes]
  exact hchanges.closed hclosed

theorem Step.fits (h : Step strict s s') (hfits : ∃ floor, s.process.Fits 0 floor strict) :
    ∃ floor, s'.process.Fits 0 floor strict := by
  obtain ⟨floor, hfits⟩ := hfits
  cases h with
  | go next => exact ⟨floor, (hfits.next next).2⟩
  | change idle h => exact ⟨_, fits_rest (h.closed hfits.closed)⟩
  | pushFrame idle name ns => exact ⟨_, fits_rest (hfits.closed.push name ns)⟩
  | pushShared idle i => exact ⟨_, fits_rest (hfits.closed.pushShared fun _ => Nat.zero_le _)⟩
  | popFrame idle => exact ⟨_, fits_rest hfits.closed.pop⟩
  | registerClass idle cls parent => exact ⟨_, fits_rest (closed_registerClass hfits.closed cls parent)⟩
  | @load p links unrun idle u => exact ⟨_, fits_rest (c := (p.console.load u).2) hfits.closed⟩
  | exec idle h => exact ⟨_, fits_start hfits.closed opens_nil⟩
  | ask idle h => exact ⟨_, fits_start hfits.closed (fits_of_public h)⟩

/-- Something said of a stage, of the links between the namespaces of classes and of the blocks that
were not run, which holds at first and is kept by all that happens. -/
structure Invariant (strict : Prop)
    (P : Stage → List (SpaceId × SpaceId) → List BlockId → Prop) : Prop where
  start : ∀ buckets callDepth arena, P ⟨none, [], blank buckets callDepth arena⟩ [] []
  move : ∀ {s s' links unrun}, P s links unrun → Move 0 strict s s' → P s' links unrun
  scopes : ∀ {c links unrun} (s : Scopes), c.scopes.SameGlobals s → P ⟨none, [], c⟩ links unrun →
    P ⟨none, [], { c with scopes := s }⟩ links unrun
  link : ∀ {c c' new links unrun}, P ⟨none, [], c⟩ links unrun → Links c new c' →
    P ⟨none, [], c'⟩ (new ++ links) unrun
  load : ∀ {c links unrun} (u : CodeUnit), P ⟨none, [], c⟩ links unrun →
    P ⟨none, [], (c.load u).2⟩ links ((c.load u).1 :: unrun)
  exec : ∀ {c links unrun b}, b ∈ unrun → P ⟨none, [], c⟩ links unrun →
    P ⟨some b, [], c⟩ links (unrun.erase b)

variable {P : Stage → List (SpaceId × SpaceId) → List BlockId → Prop}

theorem Invariant.step (h : Invariant strict P) (hfits : ∃ floor, s.process.Fits 0 floor strict)
    (hp : P s.process.stage s.links s.unrun) (hstep : Step strict s s') :
    P s'.process.stage s'.links s'.unrun := by
  have hidle (idle : s.process.next = none) : P ⟨none, [], s.process.console⟩ s.links s.unrun :=
    stage_of_idle idle ▸ hp
  cases hstep with
  | go next =>
    obtain ⟨floor, hfits⟩ := hfits
    exact h.move hp (hfits.next next).1
  | change idle hchanges => exact h.move (hidle idle) (.plain hchanges)
  | pushFrame idle name ns => exact h.scopes _ (Scopes.sameGlobals_push _ name ns) (hidle idle)
  | pushShared idle i => exact h.scopes _ (Scopes.sameGlobals_pushShared _ i) (hidle idle)
  | popFrame idle => exact h.scopes _ (Scopes.sameGlobals_pop _) (hidle idle)
  | @registerClass p links unrun idle cls parent =>
    obtain ⟨c₁, hchanges, hlinks⟩ := p.console.registerClass_links strict cls parent
    exact h.link (h.move (hidle idle) (.plain hchanges)) hlinks
  | load idle u => exact h.load u (hidle idle)
  | exec idle hb => exact h.exec hb (hidle idle)
  | ask idle hj =>
    rw [Process.stage, awaits_of_public hj]
    exact hidle idle

theorem Reachable.fits (h : s.Reachable strict) : ∃ floor, s.process.Fits 0 floor strict := by
  obtain ⟨buckets, callDepth, arena, h⟩ := h
  induction h with
  | refl => exact ⟨_, fits_rest (Scopes.closed_ofBuckets buckets)⟩
  | tail _ hstep ih => exact hstep.fits ih

theorem Invariant.holds (h : Invariant strict P) (hs : s.Reachable strict) :
    P s.process.stage s.links s.unrun := by
  obtain ⟨buckets, callDepth, arena, hs⟩ := hs
  induction hs with
  | refl => exact h.start buckets callDepth arena
  | tail hs hstep ih => exact h.step (Reachable.fits ⟨buckets, callDepth, arena, hs⟩) ih hstep

end Session

end ConsoleScript
