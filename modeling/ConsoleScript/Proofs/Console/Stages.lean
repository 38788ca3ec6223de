import ConsoleScript.Proofs.Console.Effects
import ConsoleScript.Proofs.Console.Process
import ConsoleScript.Proofs.Console.Registration

/-!
# Stages

Of what waits in a process only some shows in its console: frames, active functions, references to
blocks. The stage of a process is its console with the list of these, and `Move` says all that one
step of a process can do to it. What holds in every stage is proved from the moves alone.

A run leaves alone the frames beneath `base`. Its frames start at `floor`, which is where the stack of
frames was when the run began; a run that shares the variables of the innermost frame there has a
`base` beneath it. If `strict` holds, the receivers of methods are known.
-/

namespace ConsoleScript

open Console Run

/-! ## What shows in the console -/

/-- Something that waits and shows in the console. -/
inductive Hold where
  | frame
  | function (block : BlockId)
  | block (block : BlockId)
  /-- A command that runs a file or a text. -/
  | command
  deriving DecidableEq

namespace Hold

def block? : Hold → Option BlockId
  | .function b | .block b => some b
  | .frame | .command => none

end Hold

/-- What of something that waits shows in the console. -/
def Pending.hold? : Pending → Option Hold
  | .frame => some .frame
  | .function b => some (.function b)
  | .block b => some (.block b)
  | .ranFile | .ranText => some .command
  | _ => none

/-- What of a stack shows in the console, the innermost first. -/
def holds (stack : List Pending) : List Hold := stack.filterMap Pending.hold?

/-- The block that is about to be run for the first time. -/
def Focus.awaits : Focus → Option BlockId
  | .start (.exec b) | .start (.execLocal b) => some b
  | _ => none

structure Stage where
  awaits : Option BlockId
  holds : List Hold
  console : Console

def Process.stage (p : Process) : Stage := ⟨p.focus.awaits, ConsoleScript.holds p.stack, p.console⟩

inductive Move (base : Nat) (strict : Prop) : Stage → Stage → Prop
  | change {holds : List Hold} {c c' : Console} (block : Option BlockId)
    (held : ∀ b, block = some b → ∃ h ∈ holds, h.block? = some b) (h : Changes base strict block c c') :
    Move base strict ⟨none, holds, c⟩ ⟨none, holds, c'⟩
  | command {holds : List Hold} {c c' : Console} (h : Changes base strict none c c') :
    Move base strict ⟨none, holds, c⟩ ⟨none, .command :: holds, c'⟩
  | answer {holds : List Hold} {c c' : Console} (h : Changes base strict none c c') :
    Move base strict ⟨none, .command :: holds, c⟩ ⟨none, holds, c'⟩
  | push {hold : Hold} {holds : List Hold} {c : Console} (owner : hold.block?.isSome)
    (name : Option Name) (ns : Option SpaceId) :
    Move base strict ⟨none, hold :: holds, c⟩ ⟨none, .frame :: hold :: holds, (c.pushFrame name ns).2⟩
  | share {hold : Hold} {holds : List Hold} {c : Console} (owner : hold.block?.isSome) (i : Nat)
    (lender : base ≤ i) :
    Move base strict ⟨none, hold :: holds, c⟩ ⟨none, .frame :: hold :: holds, (c.pushShared i).2⟩
  | pop {holds : List Hold} {c : Console} : Move base strict ⟨none, .frame :: holds, c⟩ ⟨none, holds, c.popFrame⟩
  | enter {holds : List Hold} {c : Console} {b : BlockId} {e : Entry} (entry : e ∈ c.spaces.entries)
    (body : blockOf? e.body = some b) (limit : c.callDepth < c.maxCallDepth) :
    Move base strict ⟨none, holds, c⟩ ⟨none, .function b :: holds, c.enterFunction b⟩
  | leave {holds : List Hold} {c : Console} {b : BlockId} :
    Move base strict ⟨none, .function b :: holds, c⟩ ⟨none, holds, c.leaveFunction b⟩
  | hold {holds : List Hold} {c : Console} {b : BlockId}
    (below : ∀ h, holds.head? = some h → h = .command) :
    Move base strict ⟨some b, holds, c⟩ ⟨none, .block b :: holds, c.retain b⟩
  | drop {holds : List Hold} {c : Console} {b : BlockId} :
    Move base strict ⟨none, .block b :: holds, c⟩ ⟨none, holds, c.release b⟩
  | load {holds : List Hold} {c c' : Console} (u : CodeUnit) (h : Changes base strict none c c') :
    Move base strict ⟨none, holds, c⟩ ⟨some (c'.load u).1, holds, (c'.load u).2⟩
  | publish {holds : List Hold} {c : Console} {r : ObjectRef} (made : r < c.objects.store.size)
    (fresh : (c.objects.get r).registered = false) :
    Move base strict ⟨none, holds, c⟩ ⟨none, holds, c.publish r⟩
  | place {holds : List Hold} {c : Console} {group r : ObjectRef} (known : c.objects.Known group)
    (made : r < c.objects.store.size) : Move base strict ⟨none, holds, c⟩
      ⟨none, holds, { c with objects := (c.objects.addChild group r).2 }⟩
  | detach {holds : List Hold} {c : Console} (r : ObjectRef) :
    Move base strict ⟨none, holds, c⟩ ⟨none, holds, c.takeChildren r⟩
  | orphan {holds : List Hold} {c : Console} {r child : ObjectRef}
    (owned : (c.objects.get child).group = some r) :
    Move base strict ⟨none, holds, c⟩ ⟨none, holds, c.leaveGroup child⟩
  | withdraw {holds : List Hold} {c : Console} (r : ObjectRef) :
    Move base strict ⟨none, holds, c⟩ ⟨none, holds, c.withdraw r⟩

theorem Move.plain {base : Nat} {strict : Prop} {holds : List Hold} {c c' : Console}
    (h : Changes base strict none c c') : Move base strict ⟨none, holds, c⟩ ⟨none, holds, c'⟩ :=
  .change none (by rintro _ ⟨⟩) h

/-- How many frames wait to be popped. -/
def frames : List Hold → Nat
  | [] => 0
  | .frame :: hs => frames hs + 1
  | .function _ :: hs | .block _ :: hs | .command :: hs => frames hs

namespace Move

variable {base floor : Nat} {strict : Prop} {s s' : Stage}

theorem deep (h : Move base strict s s') (hdeep : s.console.scopes.depth = floor + frames s.holds) :
    s'.console.scopes.depth = floor + frames s'.holds := by
  have hsame {c c' : Console} (h : SameSetting c c') : c'.scopes.depth = c.scopes.depth := by
    rw [h.scopes]
  cases h with
  | change block held h => exact h.edits.depth.trans hdeep
  | command h => exact h.edits.depth.trans hdeep
  | answer h => exact h.edits.depth.trans hdeep
  | push owner name ns =>
    exact (Scopes.depth_push _ name ns).trans (congrArg Nat.succ hdeep)
  | share owner i lender => exact (Scopes.depth_pushShared _ i).trans (congrArg Nat.succ hdeep)
  | pop =>
    have hpos := Nat.ne_of_gt (Nat.lt_of_lt_of_eq (Nat.succ_pos _) hdeep.symm)
    exact (Scopes.popped_pop hpos).depth.trans (congrArg Nat.pred hdeep)
  | load u h => exact h.edits.depth.trans hdeep
  | publish made fresh => exact (hsame (sameSetting_publish _ _)).trans hdeep
  | withdraw r => exact (hsame (sameSetting_withdraw _ _)).trans hdeep
  | enter | leave | hold | drop | place | detach | orphan => exact hdeep

theorem size_le (h : Move base strict s s') :
    s.console.objects.store.size ≤ s'.console.objects.store.size := by
  cases h with
  | change block held h => exact h.keeps.size
  | command h => exact h.keeps.size
  | answer h => exact h.keeps.size
  | load u h => exact h.keeps.size
  | @publish holds c r made fresh => exact Nat.le_of_eq (size_publish c r).symm
  | place known made => exact (Objects.Keeps.addChild _ _ _).size
  | detach r => exact Nat.le_of_eq Objects.size_modify.symm
  | orphan owned => exact Nat.le_of_eq Objects.size_modify.symm
  | withdraw r => exact size_withdraw _ r
  | push | share | pop | enter | leave | hold | drop => exact Nat.le_refl _

theorem closed (h : Move base strict s s') (hclosed : s.console.scopes.Closed base) :
    s'.console.scopes.Closed base := by
  have hsame {c c' : Console} (h : SameSetting c c') (hclosed : c.scopes.Closed base) :
      c'.scopes.Closed base := h.scopes ▸ hclosed
  cases h with
  | change block held h => exact h.closed hclosed
  | command h => exact h.closed hclosed
  | answer h => exact h.closed hclosed
  | load u h => exact h.closed hclosed
  | push owner name ns => exact hclosed.push name ns
  | share owner i lender => exact hclosed.pushShared fun _ => lender
  | pop => exact hclosed.pop
  | publish made fresh => exact hsame (sameSetting_publish _ _) hclosed
  | withdraw r => exact hsame (sameSetting_withdraw _ _) hclosed
  | enter | leave | hold | drop | place | detach | orphan => exact hclosed

theorem tabled (h : Move base strict s s') (hs : Scopes.Tabled s.console.names s.console.scopes) :
    Scopes.Tabled s'.console.names s'.console.scopes := by
  have hsame {c c' : Console} (h : SameSetting c c') (hc : Scopes.Tabled c.names c.scopes) :
      Scopes.Tabled c'.names c'.scopes := by
    rw [h.scopes]
    exact hc.grow h.names
  cases h with
  | change block held h => exact h.tabled hs
  | command h => exact h.tabled hs
  | answer h => exact h.tabled hs
  | load u h => exact h.tabled hs
  | push owner name ns => exact hs.same (Scopes.sameGlobals_push _ name ns)
  | share owner i lender => exact hs.same (Scopes.sameGlobals_pushShared _ i)
  | pop => exact hs.same (Scopes.sameGlobals_pop _)
  | publish made fresh => exact hsame (sameSetting_publish _ _) hs
  | withdraw r => exact hsame (sameSetting_withdraw _ _) hs
  | enter | leave | hold | drop | place | detach | orphan => exact hs

end Move

/-! ## What jobs and what waits need -/

/-- The stack is that of an activation of a block: a frame, and beneath it a reference. -/
def Activates (b : BlockId) (stack : List Pending) : Prop :=
  ∃ rest, stack = .frame :: .function b :: rest ∨ stack = .frame :: .block b :: rest

/-- A block may be run here: at the bottom, or for a command. -/
def Opens (stack : List Pending) : Prop :=
  ∀ h, (holds stack).head? = some h → h = .command

/-- The innermost frame, if there is one, is none beneath `base`. -/
def Grounded (base floor : Nat) (stack : List Pending) : Prop :=
  0 < base → base < floor + frames (holds stack)

/-- What waits can go on: its activation is there, and it refers to what is there. -/
def Pending.Fits (base floor size : Nat) (stack : List Pending) : Pending → Prop
  | .call _ b _ m => Activates b stack ∧ m.Refers base (floor + frames (holds stack)) size
  | .place _ b _ m r _ => Activates b stack ∧ m.Refers base (floor + frames (holds stack)) size ∧ r < size
  | .remove _ | .children _ _ => Grounded base floor stack
  | _ => True

def Formed (base floor size : Nat) : List Pending → Prop
  | [] => True
  | w :: stack => w.Fits base floor size stack ∧ Formed base floor size stack

def Job.Fits (base floor : Nat) (strict : Prop) (stack : List Pending) (c : Console) : Job → Prop
  | .proceed _ b m => Activates b stack ∧ m.Refers base c.scopes.depth c.objects.store.size
  | .enter b _ _ _ => ∃ rest, stack = .function b :: rest
  | .bind _ b scope _ _ _ _ => Activates b stack ∧ scope.In base c.scopes.depth
  | .top b shared => (∃ rest, stack = .block b :: rest) ∧ (0 ≤ shared → base ≤ shared.toNat)
  | .call ⟨_, receiver, _⟩ | .command _ receiver _ =>
    Grounded base floor stack ∧ (strict → ∀ r, receiver = some r → c.objects.Known r)
  | .method r _ _ => Grounded base floor stack ∧ (strict → c.objects.Known r)
  | .register r => Grounded base floor stack ∧ r < c.objects.store.size ∧
      (c.objects.get r).registered = false
  | .delete _ => Grounded base floor stack
  | .exec _ | .eval _ _ | .execFile _ => Opens stack
  | .execLocal _ | .evalLocal _ _ => Opens stack ∧ Grounded base floor stack

structure Process.Fits (base floor : Nat) (strict : Prop) (p : Process) : Prop where
  low : base ≤ floor
  closed : p.console.scopes.Closed base
  deep : p.console.scopes.depth = floor + frames (holds p.stack)
  formed : Formed base floor p.console.objects.store.size p.stack
  focus : ∀ j, p.focus = .start j → j.Fits base floor strict p.stack p.console

section Fits

variable {base floor size size' : Nat} {strict : Prop} {stack : List Pending} {w : Pending} {c c' : Console}
  {block : Option BlockId}

theorem Pending.Fits.mono (h : w.Fits base floor size stack) (hsize : size ≤ size') :
    w.Fits base floor size' stack := by
  cases w with
  | call u b ip m => exact ⟨h.1, h.2.of_le hsize rfl⟩
  | place u b ip m r root => exact ⟨h.1, h.2.1.of_le hsize rfl, Nat.lt_of_lt_of_le h.2.2 hsize⟩
  | remove r => exact h
  | children r rest => exact h
  | _ => trivial

theorem Formed.mono (h : Formed base floor size stack) (hsize : size ≤ size') :
    Formed base floor size' stack := by
  induction stack with
  | nil => trivial
  | cons w stack ih => exact ⟨h.1.mono hsize, ih h.2⟩

theorem Grounded.cons (h : Grounded base floor stack) (w : Pending) :
    Grounded base floor (w :: stack) := by
  intro hbase
  refine Nat.lt_of_lt_of_le (h hbase) (Nat.add_le_add_left ?_ floor)
  cases w <;> first | exact Nat.le_refl _ | exact Nat.le_succ _

theorem Activates.held {b : BlockId} (h : Activates b stack) :
    ∃ h ∈ holds stack, h.block? = some b := by
  obtain ⟨rest, rfl | rfl⟩ := h
  · exact ⟨.function b, List.mem_cons_of_mem _ List.mem_cons_self, rfl⟩
  · exact ⟨.block b, List.mem_cons_of_mem _ List.mem_cons_self, rfl⟩

theorem Activates.grounded {b : BlockId} (h : Activates b stack) (hlow : base ≤ floor) :
    Grounded base floor stack := by
  intro _
  obtain ⟨rest, rfl | rfl⟩ := h
  · exact Nat.lt_of_le_of_lt hlow (Nat.lt_add_of_pos_right (Nat.succ_pos _))
  · exact Nat.lt_of_le_of_lt hlow (Nat.lt_add_of_pos_right (Nat.succ_pos _))

structure NextFits (base floor : Nat) (strict : Prop) (stack : List Pending) (n : Onward) (c : Console) : Prop where
  above : ∀ w above, n.2 = w :: above →
    above = [] ∧ w.Fits base floor c.objects.store.size stack
  focus : ∀ j, n.1 = .start j → j.Fits base floor strict (n.2 ++ stack) c

theorem NextFits.give (a : Response) : NextFits base floor strict stack (.give a, []) c := by
  refine ⟨?_, ?_⟩
  · rintro _ _ ⟨⟩
  · rintro _ ⟨⟩

theorem NextFits.hand {a : Response} {w : Pending} (hw : w.Fits base floor c.objects.store.size stack) :
    NextFits base floor strict stack (.give a, [w]) c := by
  refine ⟨?_, ?_⟩
  · rintro _ _ ⟨⟩
    exact ⟨rfl, hw⟩
  · rintro _ ⟨⟩

theorem NextFits.start {j : Job} (h : j.Fits base floor strict stack c) :
    NextFits base floor strict stack (.start j, []) c := by
  refine ⟨?_, ?_⟩
  · rintro _ _ ⟨⟩
  · rintro _ ⟨⟩
    exact h

theorem NextFits.wait {j : Job} {w : Pending} (hw : w.Fits base floor c.objects.store.size stack)
    (h : j.Fits base floor strict (w :: stack) c) : NextFits base floor strict stack (.start j, [w]) c := by
  refine ⟨?_, ?_⟩
  · rintro _ _ ⟨⟩
    exact ⟨rfl, hw⟩
  · rintro _ ⟨⟩
    exact h

/-- A step is a move, and what follows it can go on. -/
def Lands (base floor : Nat) (strict : Prop) (stack : List Pending) (s : Stage) :
    EStateM.Result Fault Console Onward → Prop
  | .ok n c => Move base strict s ⟨n.1.awaits, holds (n.2 ++ stack), c⟩ ∧ NextFits base floor strict stack n c
  | .error _ c => Move base strict s ⟨none, holds stack, c⟩

theorem Lands.fits {s : Stage} {x : EStateM.Result Fault Console Onward}
    (h : Lands base floor strict stack s x) (hlow : base ≤ floor) (hclosed : s.console.scopes.Closed base)
    (hdeep : s.console.scopes.depth = floor + frames s.holds)
    (hformed : Formed base floor s.console.objects.store.size stack) :
    Move base strict s (Process.after stack x).stage ∧ (Process.after stack x).Fits base floor strict := by
  cases x with
  | error f c =>
    refine ⟨h, hlow, h.closed hclosed, h.deep hdeep, hformed.mono h.size_le, ?_⟩
    rintro _ ⟨⟩
  | ok n c =>
    obtain ⟨hmove, hnext⟩ := h
    refine ⟨hmove, hlow, hmove.closed hclosed, hmove.deep hdeep, ?_, hnext.focus⟩
    have hrest := hformed.mono hmove.size_le
    obtain ⟨focus, above⟩ := n
    cases above with
    | nil => exact hrest
    | cons w above =>
      obtain ⟨rfl, hw⟩ := hnext.above w above rfl
      exact ⟨hw, hrest⟩

/-- Nothing that shows in the console begins or ends. -/
structure Calm (base floor : Nat) (strict : Prop) (stack : List Pending) (n : Onward) (c : Console) : Prop where
  awaits : n.1.awaits = none
  holds : ConsoleScript.holds n.2 = []
  fits : NextFits base floor strict stack n c

theorem Calm.give (a : Response) : Calm base floor strict stack (.give a, []) c := ⟨rfl, rfl, .give a⟩

/-- A computation that makes changes only, with nothing that shows beginning or ending. -/
theorem Lands.calm (block : Option BlockId) {act : Run Onward} (held : ∀ b, block = some b → ∃ h ∈ holds stack, h.block? = some b)
    (h : Makes base strict block c act (Calm base floor strict stack)) :
    Lands base floor strict stack ⟨none, holds stack, c⟩ (act c) := by
  rw [Makes] at h
  cases hact : act c with
  | ok n c' =>
    rw [hact] at h
    obtain ⟨hchanges, hawaits, hholds, hfits⟩ := h
    refine ⟨?_, hfits⟩
    have hstack : holds (n.2 ++ stack) = holds stack := by
      rw [holds, List.filterMap_append]
      exact congrArg (· ++ holds stack) hholds
    rw [hawaits, hstack]
    exact .change block held hchanges
  | error f c' =>
    rw [hact] at h
    exact .change block held h

theorem Lands.plain {act : Run Onward} (h : Makes base strict none c act (Calm base floor strict stack)) :
    Lands base floor strict stack ⟨none, holds stack, c⟩ (act c) :=
  .calm none (by rintro _ ⟨⟩) h

/-! ## Jobs -/

theorem proceed_lands {u : CodeUnit} {b : BlockId} {m : Machine} (hlow : base ≤ floor)
    (hclosed : c.scopes.Closed base) (hdeep : c.scopes.depth = floor + frames (holds stack))
    (hj : (Job.proceed u b m).Fits base floor strict stack c) :
    Lands base floor strict stack ⟨none, holds stack, c⟩ ((Job.proceed u b m).begin c) := by
  obtain ⟨hruns, hrefers⟩ := hj
  have hgrounded := hruns.grounded hlow
  refine Lands.calm (some b) ?_ ?_
  · rintro _ ⟨⟩
    exact hruns.held
  · refine (Machine.step_makes ⟨hclosed, hrefers⟩).attempt.bind fun p c₁ h₁ hp => ?_
    have htop : c₁.scopes.depth = floor + frames (holds stack) := h₁.edits.depth.trans hdeep
    cases p with
    | none => exact .pure (.give _)
    | some p =>
      have hfits := hp p rfl
      cases p with
      | next m' => exact .pure ⟨rfl, rfl, .start ⟨hruns, hfits.refers⟩⟩
      | done t => exact .pure (.give _)
      | call m' due =>
        obtain ⟨hm', hreceiver⟩ := hfits
        refine .pure ⟨rfl, rfl, .wait ⟨hruns, htop ▸ hm'.refers⟩ ⟨hgrounded.cons _, fun _ => hreceiver⟩⟩
      | register m' r root =>
        obtain ⟨hm', hr, hfresh⟩ := hfits
        exact .pure ⟨rfl, rfl, .wait ⟨hruns, htop ▸ hm'.refers, hr⟩ ⟨hgrounded.cons _, hr, hfresh⟩⟩

theorem enter_lands {b : BlockId} {ip : UInt32} {e : Entry} {argv : List Text}
    (hlow : base ≤ floor) (hdeep : c.scopes.depth = floor + frames (holds stack))
    (hj : (Job.enter b ip e argv).Fits base floor strict stack c) :
    Lands base floor strict stack ⟨none, holds stack, c⟩ ((Job.enter b ip e argv).begin c) := by
  obtain ⟨rest, rfl⟩ := hj
  have hfault (f : Fault) : Lands base floor strict (.function b :: rest)
      ⟨none, holds (.function b :: rest), c⟩ (.error f c) :=
    .plain (.refl c)
  rw [Job.begin, bind_apply]
  show Lands base floor strict _ _ ((Run.ofExcept ((c.blocks.unit b).word (ip + 6)) >>= _) c)
  cases (c.blocks.unit b).word (ip + 6) with
  | error f => exact hfault f
  | ok count =>
    show Lands base floor strict _ _ ((Run.ofExcept ((c.blocks.unit b).word (ip + 4)) >>= _) c)
    cases (c.blocks.unit b).word (ip + 4) with
    | error f => exact hfault f
    | ok flags =>
      refine ⟨.push rfl e.name (some e.space), .wait trivial ?_⟩
      refine ⟨⟨rest, .inl rfl⟩, hdeep ▸ Nat.le_trans hlow (Nat.le_add_right _ _), ?_⟩
      exact Nat.lt_of_lt_of_eq (Nat.lt_succ_self _) (Scopes.depth_push _ _ _).symm

theorem bind_lands {u : CodeUnit} {b : BlockId} {scope : ScopeId} {ip count flags : UInt32}
    {argv : List Text} (hclosed : c.scopes.Closed base)
    (hj : (Job.bind u b scope ip count flags argv).Fits base floor strict stack c) :
    Lands base floor strict stack ⟨none, holds stack, c⟩
      ((Job.bind u b scope ip count flags argv).begin c) := by
  obtain ⟨hruns, hscope⟩ := hj
  refine Lands.plain ?_
  refine (bindParams_makes hclosed u hscope _ _ argv).bind fun _ c₁ h₁ _ => ?_
  split
  · exact .pure (.give _)
  · refine .pure ⟨rfl, rfl, .start ⟨hruns, ?_⟩⟩
    exact .start (h₁.edits.depth ▸ hscope)

theorem top_lands {b : BlockId} {shared : Int} (hlow : base ≤ floor)
    (hdeep : c.scopes.depth = floor + frames (holds stack))
    (hj : (Job.top b shared).Fits base floor strict stack c) :
    Lands base floor strict stack ⟨none, holds stack, c⟩ ((Job.top b shared).begin c) := by
  obtain ⟨⟨rest, rfl⟩, hshared⟩ := hj
  have hbase : base ≤ c.scopes.depth := hdeep ▸ Nat.le_trans hlow (Nat.le_add_right _ _)
  have hgo {scope : ScopeId} (c' : Console) (hscope : scope = .frame c.scopes.depth)
      (hdepth : c'.scopes.depth = c.scopes.depth + 1) : NextFits base floor strict (.block b :: rest)
        (.start (.proceed (c.blocks.unit b) b { ip := 0, scope := scope }), [.frame]) c' := by
    subst hscope
    refine .wait trivial ⟨⟨rest, .inr rfl⟩, .start ⟨hbase, ?_⟩⟩
    exact Nat.lt_of_lt_of_eq (Nat.lt_succ_self _) hdepth.symm
  by_cases h : 0 ≤ shared
  · obtain ⟨i, rfl⟩ := Int.eq_ofNat_of_zero_le h
    have hmove : Move base strict ⟨none, holds (.block b :: rest), c⟩
        ⟨none, holds (.frame :: .block b :: rest), (c.pushShared i).2⟩ := .share rfl i (hshared h)
    have hnext := hgo (c.pushShared i).2 (c.scopes.fst_pushShared i) (c.scopes.depth_pushShared i)
    exact ⟨hmove, hnext⟩
  · have hbegin : (Job.top b shared).begin c = .ok (.start (.proceed (c.blocks.unit b) b
        { ip := 0, scope := (c.pushFrame none none).1 }), [.frame]) (c.pushFrame none none).2 := by
      rw [Job.begin]
      simp only [if_neg h]
      rfl
    rw [hbegin]
    exact ⟨.push rfl none none, hgo _ rfl (c.scopes.depth_push none none)⟩

theorem call_lands {target : Call} (hj : (Job.call target).Fits base floor strict stack c) :
    Lands base floor strict stack ⟨none, holds stack, c⟩ ((Job.call target).begin c) := by
  obtain ⟨id, receiver, argv⟩ := target
  obtain ⟨hgrounded, hreceiver⟩ := hj
  rw [Job.begin, bind_apply]
  dsimp only [get, getThe, MonadStateOf.get, EStateM.get]
  cases he : c.spaces.entries[id]? with
  | none => exact ⟨.plain (.refl c), .give _⟩
  | some e =>
    dsimp only
    split
    · exact ⟨.plain ((Changes.printLine c _).trans (.printLine _ _)), .give _⟩
    · cases hbody : e.body with
      | group => exact ⟨.plain (.refl c), .give _⟩
      | callback => exact ⟨.plain (.refl c), .give _⟩
      | script b offset line =>
        dsimp only
        split
        · exact ⟨.plain (.printLine c _), .give _⟩
        · rename_i hlimit
          refine ⟨.enter (Array.mem_of_getElem? he) ?_ (Nat.lt_of_not_le hlimit), ?_⟩
          · rw [hbody]
            rfl
          · exact .wait trivial ⟨stack, rfl⟩
      | native kind native =>
        exact ⟨.plain (.refl c), .wait trivial ⟨hgrounded.cons _, hreceiver⟩⟩

theorem command_lands {native : Native} {receiver : Option ObjectRef} {argv : List Text}
    (hclosed : c.scopes.Closed base)
    (hj : (Job.command native receiver argv).Fits base floor strict stack c) :
    Lands base floor strict stack ⟨none, holds stack, c⟩ ((Job.command native receiver argv).begin c) := by
  obtain ⟨hgrounded, hreceiver⟩ := hj
  cases native with
  | builtin b =>
    refine Lands.plain ?_
    exact (Builtin.run_makes hclosed hreceiver b).bind fun _ _ _ _ => .pure (.give _)
  | execFile =>
    rw [Job.begin, Builtin.arg]
    split
    · exact ⟨.command (.refl c), .wait trivial (by rintro h ⟨⟩; rfl)⟩
    · exact .plain (.refl c)
  | evalText =>
    rw [Job.begin, Builtin.arg]
    split
    · exact ⟨.command (.refl c), .wait trivial ⟨by rintro h ⟨⟩; rfl, hgrounded.cons _⟩⟩
    · exact .plain (.refl c)
  | deleteObject =>
    cases receiver with
    | some r => exact ⟨.plain (.refl c), .start hgrounded⟩
    | none => exact ⟨.plain (.refl c), .give _⟩
  | host f =>
    refine Lands.plain (.get ?_)
    dsimp only
    split
    · exact (Makes.printLine _).bind fun _ _ _ _ => .pure (.give _)
    · exact .pure (.give _)

theorem method_lands {r : ObjectRef} {name : Text} {args : List Text}
    (hj : (Job.method r name args).Fits base floor strict stack c) :
    Lands base floor strict stack ⟨none, holds stack, c⟩ ((Job.method r name args).begin c) := by
  obtain ⟨hgrounded, hr⟩ := hj
  refine Lands.plain (.get ?_)
  split
  · exact .pure (.give _)
  · refine (Makes.lookupText _ name).bind fun e c₁ h₁ _ => ?_
    cases e with
    | none => exact .pure (.give _)
    | some e =>
      refine .get (.pure ⟨rfl, rfl, .start ⟨hgrounded, ?_⟩⟩)
      rintro hstrict _ ⟨⟩
      exact h₁.known (hr hstrict)

theorem register_lands {r : ObjectRef} (hj : (Job.register r).Fits base floor strict stack c) :
    Lands base floor strict stack ⟨none, holds stack, c⟩ ((Job.register r).begin c) := by
  obtain ⟨hgrounded, hr, hfresh⟩ := hj
  exact ⟨.publish hr hfresh, .wait trivial ⟨hgrounded.cons _, fun _ => .inl (registered_publish hr)⟩⟩

theorem delete_lands {r : ObjectRef} (hj : (Job.delete r).Fits base floor strict stack c) :
    Lands base floor strict stack ⟨none, holds stack, c⟩ ((Job.delete r).begin c) := by
  have hgrounded : Grounded base floor stack := hj
  refine Lands.plain (.get ?_)
  split
  · exact .pure (.give _)
  · rename_i hregistered
    refine .pure ⟨rfl, rfl, .wait hgrounded ⟨hgrounded.cons _, fun _ => .inl ?_⟩⟩
    simpa using hregistered

theorem exec_lands {b : BlockId} (hj : (Job.exec b).Fits base floor strict stack c) :
    Lands base floor strict stack ⟨some b, holds stack, c⟩ ((Job.exec b).begin c) :=
  ⟨.hold hj, .wait trivial ⟨⟨stack, rfl⟩, fun h => absurd h (by decide)⟩⟩

theorem execLocal_lands {b : BlockId} (hdeep : c.scopes.depth = floor + frames (holds stack))
    (hj : (Job.execLocal b).Fits base floor strict stack c) :
    Lands base floor strict stack ⟨some b, holds stack, c⟩ ((Job.execLocal b).begin c) := by
  obtain ⟨hopens, hgrounded⟩ := hj
  refine ⟨.hold hopens, .wait trivial ⟨⟨stack, rfl⟩, ?_⟩⟩
  intro h
  have hdepth : c.scopes.depth - 1 = ((c.scopes.depth : Int) - 1).toNat := by omega
  show base ≤ ((c.scopes.depth : Int) - 1).toNat
  by_cases hbase : 0 < base
  · have := hgrounded hbase
    omega
  · omega

theorem compile_lands {source filename : Text} (go : BlockId → Job)
    (hawaits : ∀ b, (Focus.start (go b)).awaits = some b)
    (hgo : ∀ b c, (go b).Fits base floor strict stack c) :
    Lands base floor strict stack ⟨none, holds stack, c⟩ ((do
      match ← change (·.compile source filename) with
      | .error e => return (.give (.error e), [])
      | .ok block => return (.start (go block), []) : Run Onward) c) := by
  have hchange : change (·.compile source filename) c =
      .ok (c.compile source filename).1 (c.compile source filename).2 := rfl
  rw [bind_apply, hchange]
  cases hcompile : ConsoleScript.compile source filename with
  | error e =>
    rw [Console.compile, hcompile]
    exact ⟨.plain (.refl c), .give _⟩
  | ok u =>
    have hload : c.compile source filename =
        (.ok ((u.warnings.foldl Console.printLine c).load u).1,
          ((u.warnings.foldl Console.printLine c).load u).2) := by
      rw [Console.compile, hcompile]
      rfl
    rw [hload]
    refine ⟨?_, .start (hgo _ _)⟩
    rw [hawaits]
    exact .load u (.fold Changes.printLine u.warnings c)

theorem execFile_lands {path : Text} (hj : (Job.execFile path).Fits base floor strict stack c) :
    Lands base floor strict stack ⟨none, holds stack, c⟩ ((Job.execFile path).begin c) := by
  refine Lands.plain (.get ?_)
  split
  · exact .pure (.give _)
  · exact .pure ⟨rfl, rfl, .start hj⟩

theorem begin_lands {j : Job} (hlow : base ≤ floor) (hclosed : c.scopes.Closed base)
    (hdeep : c.scopes.depth = floor + frames (holds stack)) (hj : j.Fits base floor strict stack c) :
    Lands base floor strict stack ⟨(Focus.start j).awaits, holds stack, c⟩ (j.begin c) := by
  cases j with
  | proceed u b m => exact proceed_lands hlow hclosed hdeep hj
  | enter b ip e argv => exact enter_lands hlow hdeep hj
  | bind u b scope ip count flags argv => exact bind_lands hclosed hj
  | top b shared => exact top_lands hlow hdeep hj
  | call target => exact call_lands hj
  | command native receiver argv => exact command_lands hclosed hj
  | method r name args => exact method_lands hj
  | register r => exact register_lands hj
  | delete r => exact delete_lands hj
  | exec b => exact exec_lands hj
  | execLocal b => exact execLocal_lands hdeep hj
  | eval source filename => exact compile_lands .exec (fun _ => rfl) fun _ _ => hj
  | evalLocal source filename => exact compile_lands .execLocal (fun _ => rfl) fun _ _ => hj
  | execFile path => exact execFile_lands hj

/-! ## What waits -/

theorem resume_lands {a : Response} (hdeep : c.scopes.depth = floor + frames (holds (w :: stack)))
    (hw : w.Fits base floor c.objects.store.size stack) :
    Lands base floor strict stack ⟨none, holds (w :: stack), c⟩ (w.resume a c) := by
  cases w with
  | call u b ip m =>
    refine ⟨.plain (.refl c), .start ⟨hw.1, ?_⟩⟩
    exact hdeep ▸ hw.2.of_le (Nat.le_refl _) rfl
  | place u b ip m r root =>
    obtain ⟨hruns, hrefers, hr⟩ := hw
    have hdeep' : c.scopes.depth = floor + frames (holds stack) := hdeep
    obtain ⟨m', hrefs, he | ⟨group, hgroup, he⟩⟩ := m.placeObject_eq r root c
    · rw [Pending.resume, bind_apply, attempt, he]
      refine ⟨.plain (.refl c), .start ⟨hruns, ?_⟩⟩
      exact hdeep' ▸ hrefers.of_le (Nat.le_refl _) hrefs
    · rw [Pending.resume, bind_apply, attempt, he]
      refine ⟨.place hgroup hr, .start ⟨hruns, ?_⟩⟩
      exact hdeep' ▸ hrefers.of_le (Objects.Keeps.addChild _ _ _).size hrefs
  | frame => exact ⟨.pop, .give a⟩
  | function b => exact ⟨.leave, .give a⟩
  | block b => exact ⟨.drop, .give a⟩
  | result => exact ⟨.plain (.refl c), .give _⟩
  | ranFile =>
    cases a with
    | ok v => exact ⟨.answer (.refl c), .give _⟩
    | error e => exact ⟨.answer (.printLine c _), .give _⟩
  | ranText =>
    cases a with
    | ok v => exact ⟨.answer (.refl c), .give _⟩
    | error e => exact ⟨.answer (.printLine c _), .give _⟩
  | ignore => exact ⟨.plain (.refl c), .give _⟩
  | remove r =>
    have hgrounded : Grounded base floor stack := hw
    exact ⟨.detach r, .hand hgrounded⟩
  | children r rest =>
    have hgrounded : Grounded base floor stack := hw
    cases rest with
    | nil => exact ⟨.withdraw r, .give _⟩
    | cons child rest =>
      have hresume : (Pending.children r (child :: rest)).resume a c =
          (if (c.objects.get child).group == some r then do
            modify (·.leaveGroup child)
            return (.start (.delete child), [.children r rest])
          else return (.give .nothing, [.children r rest]) : Run Onward) c := rfl
      rw [hresume]
      split
      · rename_i howned
        exact ⟨.orphan (beq_iff_eq.mp howned), .wait hgrounded (hgrounded.cons _)⟩
      · exact ⟨.plain (.refl c), .hand hgrounded⟩

/-- What is dropped gives or lets the fault through. -/
theorem drop_moves (w : Pending) (f : Fault) :
    Move base strict ⟨none, holds (w :: stack), c⟩ ⟨none, holds stack, (w.drop f c).2⟩ ∧
      ((∃ a, (w.drop f c).1 = .give a) ∨ (w.drop f c).1 = .fail f) := by
  have hcaught (u : CodeUnit) (b : BlockId) (ip : UInt32) (m : Machine) :
      Move base strict ⟨none, holds stack, c⟩ ⟨none, holds stack, ((Pending.call u b ip m).drop f c).2⟩ ∧
        ((∃ a, ((Pending.call u b ip m).drop f c).1 = .give a) ∨
          ((Pending.call u b ip m).drop f c).1 = .fail f) := by
    cases f with
    | exhausted => exact ⟨.plain (.refl c), .inr rfl⟩
    | outOfRange index length => exact ⟨.plain (.printLine c _), .inl ⟨_, rfl⟩⟩
    | absent => exact ⟨.plain (.printLine c _), .inl ⟨_, rfl⟩⟩
  cases w with
  | call u b ip m => exact hcaught u b ip m
  | place u b ip m r root => exact hcaught u b ip m
  | frame => exact ⟨.pop, .inr rfl⟩
  | function b => exact ⟨.leave, .inr rfl⟩
  | block b => exact ⟨.drop, .inr rfl⟩
  | ranFile => exact ⟨.answer (.refl c), .inr rfl⟩
  | ranText => exact ⟨.answer (.refl c), .inr rfl⟩
  | result | ignore | remove r | children r rest => exact ⟨.plain (.refl c), .inr rfl⟩

/-- Each step is a move, after which the process can go on. -/
theorem Process.Fits.next {p q : Process} (h : p.Fits base floor strict) (hnext : p.next = some q) :
    Move base strict p.stage q.stage ∧ q.Fits base floor strict := by
  obtain ⟨focus, stack, c⟩ := p
  cases focus with
  | start j =>
    cases hnext
    exact (begin_lands h.low h.closed h.deep (h.focus j rfl)).fits h.low h.closed h.deep h.formed
  | give a =>
    cases stack with
    | nil => cases hnext
    | cons w stack =>
      cases hnext
      obtain ⟨hw, hformed⟩ := h.formed
      exact (resume_lands h.deep hw).fits h.low h.closed h.deep hformed
  | fail f =>
    cases stack with
    | nil => cases hnext
    | cons w stack =>
      cases hnext
      have hdrop : Move base strict ⟨none, holds (w :: stack), c⟩ ⟨none, holds stack, (w.drop f c).2⟩ ∧
          ((∃ a, (w.drop f c).1 = .give a) ∨ (w.drop f c).1 = .fail f) := drop_moves w f
      obtain ⟨hmove, hfocus⟩ := hdrop
      have hawaits : (w.drop f c).1.awaits = none ∧ ∀ j, (w.drop f c).1 ≠ .start j := by
        obtain ⟨a, he⟩ | he := hfocus
        · rw [he]
          exact ⟨rfl, by rintro _ ⟨⟩⟩
        · rw [he]
          exact ⟨rfl, by rintro _ ⟨⟩⟩
      refine ⟨?_, h.low, hmove.closed h.closed, hmove.deep h.deep, h.formed.2.mono hmove.size_le, ?_⟩
      · rw [Process.stage, Process.stage, hawaits.1]
        exact hmove
      · intro j hj
        exact absurd hj (hawaits.2 j)

/-- What a run keeps: what holds at its first stage and is kept by each move. -/
theorem Process.Fits.invariant {p q : Process} {P : Stage → Prop} (h : p.Fits base floor strict)
    (hreaches : Process.Reaches p q) (hp : P p.stage) (hmove : ∀ s s', P s → Move base strict s s' → P s') :
    P q.stage ∧ q.Fits base floor strict := by
  refine hreaches.invariant (P := fun p => P p.stage ∧ p.Fits base floor strict) ?_ ⟨hp, h⟩
  rintro p q ⟨hp, hfits⟩ hnext
  obtain ⟨hmoved, hfits'⟩ := hfits.next hnext
  exact ⟨hmove _ _ hp hmoved, hfits'⟩

end Fits

end ConsoleScript
