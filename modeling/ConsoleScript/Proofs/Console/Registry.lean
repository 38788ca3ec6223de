import ConsoleScript.Proofs.Console.Membership

/-!
# The registry in sessions

Deleting an object and registering one both run scripts in the middle, and these can delete, register
and move any object. Numbers and names stay right throughout. Children and groups do as well, unless a
script does one of the following: it deletes an object while that is being registered, before it is put
into the set it is declared in; or it puts an object into one whose deletion has already taken the
children. A third way is a fault in the middle of a deletion, which then ends with children left.
-/

namespace ConsoleScript

open Console Objects

/-! ## Numbers and names in all sessions -/

theorem Console.Changes.indexed {base : Nat} {strict : Prop} {block : Option BlockId} {c c' : Console}
    (h : Changes base strict block c c') (hc : c.objects.Indexed) : c'.objects.Indexed :=
  h.holds_objects (fun hchange ho => hchange.indexed ho) hc

theorem Move.indexed {base : Nat} {strict : Prop} {s s' : Stage} (h : Move base strict s s')
    (hs : s.console.objects.Indexed) : s'.console.objects.Indexed := by
  cases h with
  | change block held h => exact h.indexed hs
  | command h => exact h.indexed hs
  | answer h => exact h.indexed hs
  | load u h => exact h.indexed hs
  | publish made fresh => exact indexed_publish hs made fresh
  | @place holds c group r known made =>
    exact hs.keeps (.addChild c.objects group r) (nodup_addChild hs.nodup group r)
  | @detach holds c r => exact hs.detach r
  | @orphan holds c r child owned => exact hs.orphan child
  | withdraw r => exact indexed_withdraw hs r
  | push | share | pop | enter | leave | hold | drop => exact hs

namespace Session

theorem invariant_indexed (strict : Prop) :
    Invariant strict fun s _ _ => s.console.objects.Indexed where
  start _ _ _ := indexed_empty
  move h hmove := hmove.indexed h
  scopes _ _ h := h
  link h hlinks := by
    rw [hlinks.objects]
    exact h
  load _ h := h
  exec _ h := h

end Session

/-! ## Orderly processes -/

def Pending.deletion? : Pending → Option (ObjectRef × List ObjectRef)
  | .children r rest => some (r, rest)
  | _ => none

/-- The deletions that have taken the children of an object, the innermost first. -/
def deletions (stack : List Pending) : Deletions := stack.filterMap Pending.deletion?

namespace Process

/-- Is what happens next something that keeps children and groups right? An object is put into the set it
is declared in only while it is registered, one that goes has no children, and no fault ends a deletion
that has taken children. -/
def isOrderly : Process → Bool
  | ⟨.give _, .place _ _ _ _ r root :: _, c⟩ => root || (c.objects.get r).registered
  | ⟨.give _, .children r [] :: _, c⟩ => (c.objects.get r).children.isEmpty
  | ⟨.fail _, .children _ _ :: _, _⟩ => false
  | _ => true

end Process

namespace Console

variable {base : Nat} {block : Option BlockId} {c c' : Console} {l : Deletions}

theorem Changes.settled (h : Changes base True block c c') (hc : Settled c.objects l) :
    Settled c'.objects l :=
  h.holds_objects (P := (Settled · l)) (fun hchange ho => ho.change hchange) hc

theorem objects_compile (c : Console) (source filename : Text) :
    (c.compile source filename).2.objects = c.objects := by
  have hprint (lines : List Text) (c : Console) : (lines.foldl printLine c).objects = c.objects := by
    induction lines generalizing c with
    | nil => rfl
    | cons line lines ih => exact ih (c.printLine line)
  rw [Console.compile]
  split
  · rfl
  · exact hprint _ c

end Console

namespace Run

variable {base : Nat} {block : Option BlockId} {α β : Type} {c : Console} {act : Run α} {f : α → Run β}
  {l : Deletions} {P : α → Console → Prop} {Q : β → Console → Prop}

/-- The computation leaves members as they should be, and its result is as `P` says. -/
def Settles (l : Deletions) (c : Console) (act : Run α) (P : α → Console → Prop) : Prop :=
  match act c with
  | .ok a c' => Settled c'.objects l ∧ P a c'
  | .error _ c' => Settled c'.objects l

namespace Settles

theorem of_makes (hc : Settled c.objects l) (h : Makes base True block c act P) : Settles l c act P := by
  rw [Makes] at h
  rw [Settles]
  cases hact : act c with
  | ok a c' =>
    rw [hact] at h
    exact ⟨h.1.settled hc, h.2⟩
  | error e c' =>
    rw [hact] at h
    exact h.settled hc

theorem pure {a : α} (hc : Settled c.objects l) (h : P a c) : Settles l c (pure a) P := ⟨hc, h⟩

theorem bind (h : Settles l c act P)
    (hf : ∀ a c', Settled c'.objects l → P a c' → Settles l c' (f a) Q) : Settles l c (act >>= f) Q := by
  rw [Settles] at h ⊢
  rw [bind_apply]
  cases hact : act c with
  | ok a c' =>
    rw [hact] at h
    exact hf a c' h.1 h.2
  | error e c' =>
    rw [hact] at h
    exact h

theorem get {f : Console → Run β} (h : Settles l c (f c) Q) : Settles l c (get >>= f) Q := h

theorem ofExcept (hc : Settled c.objects l) (x : Except Fault α) :
    Settles l c (Run.ofExcept x) fun _ _ => True := by
  cases x with
  | ok a => exact ⟨hc, trivial⟩
  | error e => exact hc

theorem change {g : Console → α × Console} (h : Settled (g c).2.objects l) :
    Settles l c (Run.change g) fun _ _ => True := ⟨h, trivial⟩

theorem modify {g : Console → Console} (h : Settled (g c).objects l) :
    Settles l c (modify g) fun _ _ => True := ⟨h, trivial⟩

end Settles

end Run

/-! ## Jobs -/

/-- Nothing that is to wait is a deletion that has taken children. -/
def Onward.Plain (n : Onward) (_ : Console) : Prop := deletions n.2 = []

namespace Job

open Run

variable {base floor : Nat} {stack : List Pending} {c : Console} {l : Deletions}

theorem settles_call (hc : Settled c.objects l) (target : Call) :
    Settles l c (Job.call target).begin Onward.Plain := by
  obtain ⟨id, receiver, argv⟩ := target
  refine .get ?_
  split
  · exact .pure hc rfl
  · split
    · exact .bind (.modify hc) fun _ _ hc _ => .bind (.modify hc) fun _ _ hc _ => .pure hc rfl
    · split
      · exact .pure hc rfl
      · exact .pure hc rfl
      · split
        · exact .bind (.modify hc) fun _ _ hc _ => .pure hc rfl
        · exact .bind (.modify hc) fun _ _ hc _ => .pure hc rfl
      · exact .pure hc rfl

theorem settles_command (hc : Settled c.objects l) (hclosed : c.scopes.Closed base) {native : Native}
    {receiver : Option ObjectRef} {argv : List Text}
    (hreceiver : ∀ r, receiver = some r → c.objects.Known r) :
    Settles l c (Job.command native receiver argv).begin Onward.Plain := by
  cases native with
  | builtin b =>
    have hrun : Makes base True none c (b.run receiver argv) fun _ _ => True :=
      Builtin.run_makes hclosed (fun _ => hreceiver) b
    exact .bind (.of_makes hc hrun) fun _ _ hc _ => .pure hc rfl
  | execFile | evalText =>
    have harg : Makes base True none c (Builtin.arg argv 0) fun _ _ => True := Builtin.arg_makes argv 0
    exact .bind (.of_makes hc harg) fun _ _ hc _ => .pure hc rfl
  | deleteObject =>
    cases receiver with
    | some r => exact .pure hc rfl
    | none => exact .pure hc rfl
  | host f =>
    refine .get ?_
    dsimp only
    split
    · exact .bind (.modify hc) fun _ _ hc _ => .pure hc rfl
    · exact .pure hc rfl

theorem settles_begin {j : Job} (hc : Settled c.objects l) (hclosed : c.scopes.Closed base)
    (hj : j.Fits base floor True stack c) : Settles l c j.begin Onward.Plain := by
  cases j with
  | proceed u b m =>
    have hstep : Makes base True (some b) c (attempt u m.ip (m.step u b)) fun _ _ => True :=
      (Machine.step_makes ⟨hclosed, hj.2⟩).attempt.any
    refine .bind (.of_makes hc hstep) fun after _ hc _ => ?_
    split <;> exact .pure hc rfl
  | enter b ip e argv =>
    exact .get (.bind (.ofExcept hc _) fun _ _ hc _ => .bind (.ofExcept hc _) fun _ _ hc _ =>
      .bind (.change hc) fun _ _ hc _ => .pure hc rfl)
  | bind u b scope ip count flags argv =>
    have hbind : Makes base True none c (bindParams u scope count.toNat (ip + 7) argv) fun _ _ => True :=
      bindParams_makes hclosed u hj.2 _ _ argv
    refine .bind (.of_makes hc hbind) fun _ _ hc _ => ?_
    split <;> exact .pure hc rfl
  | top b shared =>
    refine .get (.bind (.change ?_) fun _ _ hc _ => .pure hc rfl)
    split <;> exact hc
  | call target => exact settles_call hc target
  | command native receiver argv => exact settles_command hc hclosed (hj.2 trivial)
  | method r name args =>
    refine .get ?_
    split
    · exact .pure hc rfl
    · have hlookup (space : SpaceId) : Makes base True none c (lookupText space name) fun _ _ => True :=
        .lookupText space name
      refine .bind (.of_makes hc (hlookup _)) fun e _ hc _ => ?_
      cases e with
      | none => exact .pure hc rfl
      | some e => exact .get (.pure hc rfl)
  | register r => exact .bind (.modify (settled_publish hc hj.2.1 hj.2.2)) fun _ _ hc _ => .pure hc rfl
  | delete r =>
    refine .get ?_
    split <;> exact .pure hc rfl
  | exec b => exact .bind (.modify hc) fun _ _ hc _ => .pure hc rfl
  | execLocal b => exact .bind (.modify hc) fun _ _ hc _ => .get (.pure hc rfl)
  | eval source filename | evalLocal source filename =>
    have hcompiled : Settled (c.compile source filename).2.objects l := by
      rw [objects_compile]
      exact hc
    refine .bind (.change hcompiled) fun compiled _ hc _ => ?_
    cases compiled with
    | error e => exact .pure hc rfl
    | ok b => exact .pure hc rfl
  | execFile path =>
    refine .get ?_
    split <;> exact .pure hc rfl

end Job

/-! ## What waits -/

namespace Pending

open Run

variable {base floor : Nat} {stack : List Pending} {c : Console} {w : Pending} {l : Deletions}

/-- What waits and is no deletion leaves members as they should be, if it puts only registered objects
into sets. -/
theorem settles_resume (hc : Settled c.objects (deletions stack)) (a : Response)
    (hdeletion : w.deletion? = none) (hremove : ∀ r, w ≠ .remove r)
    (horderly : Process.isOrderly ⟨.give a, w :: stack, c⟩ = true) :
    Settles (deletions stack) c (w.resume a) Onward.Plain := by
  cases w with
  | call u b ip m => exact .pure hc rfl
  | place u b ip m r root =>
    have hpresent : root = true ∨ (c.objects.get r).registered = true := by
      simpa [Process.isOrderly] using horderly
    have hplaced : ∃ m' c', m.placeObject r root c = .ok m' c' ∧ Settled c'.objects (deletions stack) := by
      cases root with
      | true => exact ⟨_, c, rfl, hc⟩
      | false =>
        obtain ⟨m', -, he | ⟨group, hgroup, he⟩⟩ := m.placeObject_eq r false c
        · exact ⟨m', c, he, hc⟩
        · refine ⟨m', _, he, hc.addChild (hc.registered_of_known hgroup) ?_⟩
          exact hpresent.resolve_left Bool.false_ne_true
    obtain ⟨m', c', he, hc'⟩ := hplaced
    rw [Settles, Pending.resume, bind_apply, attempt, he]
    exact ⟨hc', rfl⟩
  | frame | function b | block b => exact .bind (.modify hc) fun _ _ hc _ => .pure hc rfl
  | result | ignore => exact .pure hc rfl
  | ranFile | ranText =>
    cases a with
    | ok v => exact .pure hc rfl
    | error e => exact .bind (.modify hc) fun _ _ hc _ => .pure hc rfl
  | remove r => exact absurd rfl (hremove r)
  | children r rest => cases hdeletion

theorem objects_drop (w : Pending) (f : Fault) (c : Console) : (w.drop f c).2.objects = c.objects := by
  cases w with
  | call u b ip m | place u b ip m r root => cases f <;> rfl
  | _ => rfl

end Pending

/-! ## Processes -/

namespace Process

open Run

variable {base floor : Nat} {p q : Process} {stack : List Pending} {c : Console} {act : Run Onward}

theorem settled_after (h : Settles (deletions stack) c act Onward.Plain) :
    Settled (after stack (act c)).console.objects (deletions (after stack (act c)).stack) := by
  rw [Settles] at h
  cases hact : act c with
  | ok n c' =>
    rw [hact] at h
    show Settled c'.objects (deletions (n.2 ++ stack))
    rw [deletions, List.filterMap_append, show n.2.filterMap Pending.deletion? = [] from h.2]
    exact h.1
  | error f c' =>
    rw [hact] at h
    exact h

/-- The deletion of an object looks at the next one that was its child, or is done. -/
theorem settled_children {r : ObjectRef} {rest : List ObjectRef} {a : Response}
    (hc : Settled c.objects ((r, rest) :: deletions stack))
    (horderly : isOrderly ⟨.give a, .children r rest :: stack, c⟩ = true) :
    Settled (after stack ((Pending.children r rest).resume a c)).console.objects
      (deletions (after stack ((Pending.children r rest).resume a c)).stack) := by
  cases rest with
  | nil =>
    have hnone : (c.objects.get r).children = [] := List.isEmpty_iff.mp horderly
    exact settled_withdraw hc hnone
  | cons child rest =>
    have hresume : (Pending.children r (child :: rest)).resume a c =
        (if (c.objects.get child).group == some r then do
          modify (·.leaveGroup child)
          return (.start (.delete child), [.children r rest])
        else return (.give .nothing, [.children r rest]) : Run Onward) c := rfl
    rw [hresume]
    split
    · rename_i howned
      exact hc.orphan (beq_iff_eq.mp howned)
    · rename_i hfree
      exact hc.skip (by simpa using hfree)

/-- One step of a process that is orderly keeps members as they should be. -/
theorem settled_next (hfits : p.Fits base floor True) (horderly : p.isOrderly = true)
    (h : Settled p.console.objects (deletions p.stack)) (hnext : p.next = some q) :
    Settled q.console.objects (deletions q.stack) := by
  obtain ⟨focus, stack, c⟩ := p
  cases focus with
  | start j =>
    cases hnext
    exact settled_after (Job.settles_begin h hfits.closed (hfits.focus j rfl))
  | give a =>
    cases stack with
    | nil => cases hnext
    | cons w stack =>
      cases hnext
      cases w with
      | children r rest => exact settled_children h horderly
      | remove r => exact h.detach r
      | _ => exact settled_after (Pending.settles_resume h a rfl (by rintro _ ⟨⟩) horderly)
  | fail f =>
    cases stack with
    | nil => cases hnext
    | cons w stack =>
      cases hnext
      show Settled (w.drop f c).2.objects (deletions stack)
      rw [w.objects_drop]
      cases w with
      | children r rest => cases horderly
      | _ => exact h

end Process

/-! ## Sessions -/

namespace Session

variable {strict : Prop} {s s' : Session}

/-- Sessions in which all that happens is orderly. -/
def Orderly (s : Session) : Prop := ∃ buckets callDepth arena,
  Relation.ReflTransGen (fun s s' => Step True s s' ∧ s.process.isOrderly = true)
    (start buckets callDepth arena) s

theorem stack_of_idle {p : Process} (h : p.next = none) : p.stack = [] := by
  obtain ⟨focus, _ | ⟨w, stack⟩, c⟩ := p
  · rfl
  · cases focus <;> cases h

theorem Step.settled (hstep : Step True s s') (hfits : ∃ floor, s.process.Fits 0 floor True)
    (horderly : s.process.isOrderly = true) (h : Settled s.console.objects (deletions s.process.stack)) :
    Settled s'.console.objects (deletions s'.process.stack) := by
  have hidle (idle : s.process.next = none) : Settled s.console.objects [] := by
    rw [stack_of_idle idle] at h
    exact h
  cases hstep with
  | go next =>
    obtain ⟨floor, hfits⟩ := hfits
    exact Process.settled_next hfits horderly h next
  | change idle hchanges => exact hchanges.settled (hidle idle)
  | @registerClass p links unrun idle cls parent =>
    obtain ⟨c₁, hchanges, hlinks⟩ := p.console.registerClass_links True cls parent
    have hregistered := hchanges.settled (hidle idle)
    rw [← hlinks.objects] at hregistered
    exact hregistered
  | pushFrame idle name ns => exact hidle idle
  | pushShared idle i => exact hidle idle
  | popFrame idle => exact hidle idle
  | load idle u => exact hidle idle
  | exec idle hb => exact hidle idle
  | ask idle hj => exact hidle idle

theorem Orderly.reachable (h : s.Orderly) : s.Reachable True := by
  obtain ⟨buckets, callDepth, arena, h⟩ := h
  exact ⟨buckets, callDepth, arena, Relation.ReflTransGen.mono (fun _ _ h => h.1) _ _ h⟩

theorem Orderly.step (h : s.Orderly) (hs : s.process.isOrderly = true) (hstep : Step True s s') :
    s'.Orderly := by
  obtain ⟨buckets, callDepth, arena, h⟩ := h
  exact ⟨buckets, callDepth, arena, h.tail ⟨hstep, hs⟩⟩

theorem Orderly.settled (h : s.Orderly) : Settled s.console.objects (deletions s.process.stack) := by
  obtain ⟨buckets, callDepth, arena, h⟩ := h
  induction h with
  | refl => exact settled_empty
  | tail hreaches hstep ih =>
    have hreachable : Reachable True _ := Orderly.reachable ⟨buckets, callDepth, arena, hreaches⟩
    exact hstep.1.settled hreachable.fits hstep.2 ih

/-- At every point of every session, numbers and names lead to registered objects that have them and no
set has a child twice. At the end of a run, if all that happened is orderly, the children of a registered
group are the objects that belong to it, and all children and the group of a registered object are
registered. Only a set that has lost its number to another object, once all numbers have been given away,
may have children that are gone. -/
theorem registry_consistent (hs : s.Reachable strict) :
    s.console.objects.Indexed ∧ (s.Orderly → s.process.next = none →
      (∀ g c, (s.console.objects.get g).registered = true →
        (s.console.objects.get g).ownsChildren = true →
          (c ∈ (s.console.objects.get g).children ↔ (s.console.objects.get c).group = some g)) ∧
      ∀ r, (s.console.objects.get r).registered = true →
        ((s.console.objects.get r).ownsChildren = true ∨
            s.console.objects.live[(s.console.objects.get r).id]? = some r →
          ∀ c ∈ (s.console.objects.get r).children, (s.console.objects.get c).registered = true) ∧
        ∀ g, (s.console.objects.get r).group = some g → (s.console.objects.get g).registered = true) := by
  refine ⟨(invariant_indexed strict).holds hs, ?_⟩
  intro horderly hidle
  have h := horderly.settled
  rw [stack_of_idle hidle] at h
  have hawaits {g c : ObjectRef} : ¬ Awaits [] g c := by
    rintro ⟨rest, hrest, -⟩
    cases hrest
  have hemptied {r : ObjectRef} : ¬ Emptied [] r := List.not_mem_nil
  refine ⟨?_, ?_⟩
  · intro g c _ howns
    constructor
    · intro hc
      exact (h.group g c howns hc).resolve_right hemptied
    · intro hg
      exact (h.children c g hg).resolve_right hawaits
  · intro r _
    refine ⟨?_, ?_⟩
    · intro hset c hc
      obtain hc | hgone | ⟨hloose, hlost⟩ := h.members r c hc
      · exact hc
      · exact absurd hgone hemptied
      · obtain howns | hfound := hset
        · rw [hloose] at howns
          cases howns
        · exact absurd hfound hlost
    · intro g hg
      exact (h.owners r g hg).resolve_right hawaits

/-! ### A session with a group -/

section

open Run

variable {c c' : Console} {r : ObjectRef} {name : Text} {links : List (SpaceId × SpaceId)}
  {unrun : List BlockId}

theorem lookupText_eq (c : Console) (space : SpaceId) (name : Text) :
    (∃ e spaces, c.spaces.Keeps spaces ∧ lookupText space name c = .ok e { c with spaces := spaces }) ∨
      ∃ f, lookupText space name c = .error f c := by
  have hlookup : lookupText space name c =
      (Run.ofExcept (c.spaces.lookup space (c.names.find? name)) >>= fun p => do
        modify fun c => { c with spaces := p.2 }
        return p.1) c := rfl
  rw [hlookup]
  cases h : c.spaces.lookup space (c.names.find? name) with
  | ok p => exact .inl ⟨p.1, p.2, Namespaces.keeps_lookup h, rfl⟩
  | error f => exact .inr ⟨f, rfl⟩

theorem begin_call_of_entries (hnone : c.spaces.entries = #[]) (target : Call) :
    (Job.call target).begin c = .ok (.give .nothing, []) c := by
  rw [Job.begin, bind_apply]
  dsimp only [MonadState.get, getThe, MonadStateOf.get, EStateM.get]
  rw [hnone]
  rfl

theorem Orderly.change (h : Orderly ⟨.rest c, links, unrun⟩) (hchanges : Changes 0 True none c c') :
    Orderly ⟨.rest c', links, unrun⟩ :=
  h.step rfl (.change rfl hchanges)

/-- Where nothing is defined, telling an object of something changes no object. -/
theorem Orderly.tell (hnone : c.spaces.entries = #[])
    (h : Orderly ⟨⟨.start (.method r name []), [.ignore], c⟩, links, unrun⟩) :
    ∃ c', Orderly ⟨.rest c', links, unrun⟩ ∧ c'.objects = c.objects ∧ c'.spaces.entries = #[] := by
  have hgiven {c : Console} (h : Orderly ⟨⟨.give .nothing, [.ignore], c⟩, links, unrun⟩) :
      Orderly ⟨.rest c, links, unrun⟩ := h.step rfl (.go rfl)
  have hafter : Orderly ⟨.after [.ignore] ((Job.method r name []).begin c), links, unrun⟩ :=
    h.step rfl (.go rfl)
  rw [Job.begin, bind_apply] at hafter
  dsimp only [MonadState.get, getThe, MonadStateOf.get, EStateM.get] at hafter
  cases hspace : (c.objects.get r).space with
  | none =>
    rw [hspace] at hafter
    exact ⟨c, hgiven hafter, rfl, hnone⟩
  | some space =>
    rw [hspace] at hafter
    dsimp only at hafter
    rw [bind_apply] at hafter
    obtain ⟨e, spaces, hkeeps, he⟩ | ⟨f, he⟩ := lookupText_eq c space name
    · rw [he] at hafter
      have hentries : spaces.entries = #[] := hkeeps.entries.trans hnone
      cases e with
      | none => exact ⟨_, hgiven hafter, rfl, hentries⟩
      | some e =>
        have hcalled : Orderly ⟨.after [.ignore] ((Job.call
            ⟨e, some r, [idText { c with spaces := spaces } r]⟩).begin { c with spaces := spaces }),
            links, unrun⟩ := Orderly.step hafter rfl (.go rfl)
        rw [begin_call_of_entries hentries] at hcalled
        exact ⟨_, hgiven hcalled, rfl, hentries⟩
    · rw [he] at hafter
      have hfailed : Orderly ⟨⟨.fail f, [], c⟩, links, unrun⟩ := hafter.step rfl (.go rfl)
      exact ⟨c, hfailed.step rfl (.change rfl (.refl c)), rfl, hnone⟩

/-- Where nothing is defined, registering an object changes no other object. -/
theorem Orderly.register (hnone : c.spaces.entries = #[]) (h : Orderly ⟨.rest c, links, unrun⟩)
    (hr : r < c.objects.store.size) (hfresh : (c.objects.get r).registered = false) :
    ∃ c', Orderly ⟨.rest c', links, unrun⟩ ∧ c'.spaces.entries = #[] ∧
      c'.objects.store.size = c.objects.store.size ∧ (∀ s, s ≠ r → c'.objects.get s = c.objects.get s) ∧
      ∃ id space links, c'.objects.get r =
        { c.objects.get r with id := id, registered := true, space := space, links := links } := by
  have hasked : Orderly ⟨⟨.start (.register r), [], c⟩, links, unrun⟩ :=
    h.step rfl (.ask rfl ⟨hr, hfresh⟩)
  have htold : Orderly ⟨⟨.start (.method r "onAdd" []), [.ignore], c.publish r⟩, links, unrun⟩ :=
    hasked.step rfl (.go rfl)
  obtain ⟨c', hrest, hobjects, hentries⟩ := htold.tell ((sameSetting_publish c r).entries.trans hnone)
  refine ⟨c', hrest, hentries, ?_⟩
  rw [hobjects]
  exact ⟨Console.size_publish c r, fun s hs => Console.get_publish_ne hs, get_publish_self hr⟩

end

/-- A group and an object are made and registered, and the object is added to the group. -/
theorem registry_consistent_group : ∃ s : Session, s.Reachable True ∧ s.Orderly ∧
    s.process.next = none ∧ (s.console.objects.get 0).children = [1] ∧
    ∀ c, c ∈ (s.console.objects.get 0).children ↔ (s.console.objects.get c).group = some 0 := by
  let c₀ : Console := { blank 15 0 0 with
    objects := ((({} : Objects).make { cls := ⟨1⟩, isSet := true, ownsChildren := true }).2.make
      { cls := ⟨2⟩ }).2 }
  have hmade : Changes 0 True none (blank 15 0 0) c₀ :=
    .trans (.objects (.make { cls := ⟨1⟩, isSet := true, ownsChildren := true } rfl rfl rfl rfl))
      (.objects (.make { cls := ⟨2⟩ } rfl rfl rfl rfl))
  have h₀ : Orderly ⟨.rest c₀, [], []⟩ := Orderly.change ⟨15, 0, 0, .refl⟩ hmade
  obtain ⟨c₁, h₁, hnone₁, hsize₁, hother₁, id₁, space₁, links₁, hgroup⟩ :=
    h₀.register (r := 0) rfl (by decide) rfl
  have hsize : 1 < c₁.objects.store.size := by
    rw [hsize₁]
    decide
  have hobject : c₁.objects.get 1 = c₀.objects.get 1 := hother₁ 1 (by decide)
  obtain ⟨c₂, h₂, -, hsize₂, hother₂, id₂, space₂, links₂, hchild⟩ :=
    h₁.register (r := 1) hnone₁ hsize (by rw [hobject]; rfl)
  rw [hobject] at hchild
  have hset : c₂.objects.get 0 = c₁.objects.get 0 := hother₂ 0 (by decide)
  rw [hgroup] at hset
  have haccepts : c₂.objects.Accepts 0 1 := by
    rw [Accepts, hset]
    exact ⟨rfl, by decide, List.not_mem_nil⟩
  have hadd : Changes 0 True none c₂ { c₂ with objects := (c₂.objects.addChild 0 1).2 } :=
    .objects (.add (fun _ => .inl (by rw [hset])) (.inl (by rw [hchild])))
  have hkeeps := Keeps.addChild c₂.objects 0 1
  have h₃ := h₂.change hadd
  have hrules := (registry_consistent h₃.reachable).2 h₃ rfl
  refine ⟨_, h₃.reachable, h₃, rfl, ?_, fun c => hrules.1 0 c ?_ ?_⟩
  · show ((c₂.objects.addChild 0 1).2.get 0).children = [1]
    rw [children_addChild haccepts, if_pos rfl, hset]
    rfl
  · show ((c₂.objects.addChild 0 1).2.get 0).registered = true
    rw [hkeeps.registered, hset]
  · show ((c₂.objects.addChild 0 1).2.get 0).ownsChildren = true
    rw [hkeeps.ownsChildren (lt_size_of_isSet haccepts.1), hset]
    rfl

end Session

end ConsoleScript
