import ConsoleScript.Proofs.Console.Activation

/-!
# Processes

A run goes as deep as scripts call each other, and its outcome says nothing of the states it passes
through. A process takes the same run apart: it has a stack of what waits for something to be done,
and each step begins a job, hands a response to what waits for it, or drops what waits because of a
fault. The processes that follow each other are the points of a run.

`Job.run_iff_reaches` ties the two together: a run gives a response exactly when its process gets
there with an empty stack.
-/

namespace ConsoleScript

open Run

/-- What a job gives: a value, or why a script does not run. -/
abbrev Response := Except ScriptError Value

namespace Response

def text (t : Text) : Response := .ok (.text t)

def nothing : Response := text []

/-- A response read as text. -/
def toText : Response → Text
  | .ok v => v.toText
  | .error _ => []

@[simp] theorem toText_text (t : Text) : (text t).toText = t := rfl

end Response

/-- Something a console is asked to do. -/
inductive Job where
  /-- To go on with an activation. -/
  | proceed (u : CodeUnit) (block : BlockId) (m : Machine)
  /-- To enter the function of an entry, whose declaration is at `ip`. -/
  | enter (block : BlockId) (ip : UInt32) (e : Entry) (argv : List Text)
  /-- To bind the parameters of a function in its new frame and to run its body. -/
  | bind (u : CodeUnit) (block : BlockId) (scope : ScopeId) (ip count flags : UInt32)
      (argv : List Text)
  /-- To run the top level of a block, with the variables of the frame at `shared` if it is live. -/
  | top (block : BlockId) (shared : Int)
  | call (call : Call)
  | command (native : Native) (receiver : Option ObjectRef) (argv : List Text)
  | method (r : ObjectRef) (name : Text) (args : List Text)
  | register (r : ObjectRef)
  | delete (r : ObjectRef)
  | exec (block : BlockId)
  /-- To run a block with the variables of the innermost frame. -/
  | execLocal (block : BlockId)
  | eval (source filename : Text)
  | evalLocal (source filename : Text)
  | execFile (path : Text)

inductive Pending where
  /-- An activation whose call, at `ip`, is being made. -/
  | call (u : CodeUnit) (block : BlockId) (ip : UInt32) (m : Machine)
  /-- An activation whose object is being registered. -/
  | place (u : CodeUnit) (block : BlockId) (ip : UInt32) (m : Machine) (r : ObjectRef) (root : Bool)
  /-- A frame, to be popped. -/
  | frame
  /-- A function of a block, to be left. -/
  | function (block : BlockId)
  /-- A reference to a block, to be given back. -/
  | block (block : BlockId)
  /-- A native command, whose value is to be read as text. -/
  | result
  /-- The command that runs a file. -/
  | ranFile
  /-- The command that runs a text. -/
  | ranText
  /-- Somebody who does not care for the response. -/
  | ignore
  /-- The deletion of an object that is being told of it. -/
  | remove (r : ObjectRef)
  /-- The deletion of an object, of whose children some are left to look at. -/
  | children (r : ObjectRef) (rest : List ObjectRef)

inductive Focus where
  | start (j : Job)
  | give (a : Response)
  | fail (f : Fault)

/-- A point of a run. -/
structure Process where
  focus : Focus
  stack : List Pending
  console : Console

namespace Console

def enterFunction (c : Console) (b : BlockId) : Console :=
  { c.retain b with callDepth := c.callDepth + 1 }

/-- The console once a function of a block is no longer active. -/
def leaveFunction (c : Console) (b : BlockId) : Console :=
  { c.release b with callDepth := c.callDepth - 1 }

def takeChildren (c : Console) (r : ObjectRef) : Console :=
  { c with objects := c.objects.modify r fun o => { o with children := [] } }

def leaveGroup (c : Console) (r : ObjectRef) : Console :=
  { c with objects := c.objects.modify r fun o => { o with group := none } }

end Console

/-- What follows in a step, and what is to wait for it. -/
abbrev Onward := Focus × List Pending

def Job.begin : Job → Run Onward
  | .proceed u block m => do
    match ← attempt u m.ip (m.step u block) with
    | none => return (.give .nothing, [])
    | some (.next m') => return (.start (.proceed u block m'), [])
    | some (.done t) => return (.give (.text t), [])
    | some (.call m' due) => return (.start (.call due), [.call u block m.ip m'])
    | some (.register m' r root) => return (.start (.register r), [.place u block m.ip m' r root])
  | .enter block ip e argv => do
    let u := (← get).blocks.unit block
    let count ← Run.ofExcept (u.word (ip + 6))
    let flags ← Run.ofExcept (u.word (ip + 4))
    let scope ← change (·.pushFrame e.name (some e.space))
    return (.start (.bind u block scope ip count flags argv), [.frame])
  | .bind u block scope ip count flags argv => do
    bindParams u scope count.toNat (ip + 7) argv
    if flags &&& 1 == 0 then return (.give .nothing, [])
    return (.start (.proceed u block { ip := ip + 7 + count, scope := scope }), [])
  | .top block shared => do
    let u := (← get).blocks.unit block
    let scope ← change fun c => if 0 ≤ shared then c.pushShared shared else c.pushFrame none none
    return (.start (.proceed u block { ip := 0, scope := scope }), [.frame])
  | .call ⟨id, receiver, argv⟩ => do
    let c ← get
    match c.spaces.entries[id]? with
    | none => return (.give .nothing, [])
    | some e =>
      if !arityFits e argv then
        printLine (c.spaces.qualifiedName c.names e ++ Text.ofString ": wrong number of arguments.")
        printLine (Text.ofString "usage: " ++ e.usage)
        return (.give .nothing, [])
      match e.body with
      | .group | .callback => return (.give .nothing, [])
      | .script block offset _ =>
        if c.maxCallDepth ≤ c.callDepth then
          printLine (c.spaces.qualifiedName c.names e ++ Text.ofString ": call depth limit of "
            ++ Text.ofNat c.maxCallDepth ++ Text.ofString " exceeded.")
          return (.give .nothing, [])
        modify (·.enterFunction block)
        return (.start (.enter block offset e argv), [.function block])
      | .native _ native => return (.start (.command native receiver argv), [.result])
  | .command native receiver argv => do
    match native with
    | .builtin b => return (.give (.ok (← b.run receiver argv)), [])
    | .execFile => return (.start (.execFile (← Builtin.arg argv 0)), [.ranFile])
    | .evalText => return (.start (.evalLocal (← Builtin.arg argv 0) "eval"), [.ranText])
    | .deleteObject =>
      match receiver with
      | some r => return (.start (.delete r), [])
      | none => return (.give .nothing, [])
    | .host f =>
      let c ← get
      let reply := f (receiver.map fun r => (c.objects.get r).id) argv
      match reply.printed with
      | some t => printLine t
      | none => pure ()
      return (.give (.ok reply.result), [])
  | .method r name args => do
    match ((← get).objects.get r).space with
    | none => return (.give .nothing, [])
    | some space =>
      match ← lookupText space name with
      | none => return (.give .nothing, [])
      | some e => return (.start (.call ⟨e, some r, (← get).idText r :: args⟩), [])
  | .register r => do
    modify (·.publish r)
    return (.start (.method r "onAdd" []), [.ignore])
  | .delete r => do
    if !((← get).objects.get r).registered then return (.give .nothing, [])
    return (.start (.method r "onRemove" []), [.remove r])
  | .exec block => do
    modify (·.retain block)
    return (.start (.top block (-1)), [.block block])
  | .execLocal block => do
    modify (·.retain block)
    return (.start (.top block (((← get).scopes.depth : Int) - 1)), [.block block])
  | .eval source filename => do
    match ← change (·.compile source filename) with
    | .error e => return (.give (.error e), [])
    | .ok block => return (.start (.exec block), [])
  | .evalLocal source filename => do
    match ← change (·.compile source filename) with
    | .error e => return (.give (.error e), [])
    | .ok block => return (.start (.execLocal block), [])
  | .execFile path => do
    match (← get).files.read path with
    | .error e => return (.give (.error (.file path e)), [])
    | .ok source => return (.start (.eval source path), [])

def Pending.resume : Pending → Response → Run Onward
  | .call u b _ m, a => return (.start (.proceed u b (m.setText a.toText)), [])
  | .place u b ip m r root, _ => do
    match ← attempt u ip (m.placeObject r root) with
    | none => return (.give .nothing, [])
    | some m' => return (.start (.proceed u b m'), [])
  | .frame, a => do
    modify Console.popFrame
    return (.give a, [])
  | .function b, a => do
    modify (·.leaveFunction b)
    return (.give a, [])
  | .block b, a => do
    modify (·.release b)
    return (.give a, [])
  | .result, a => return (.give (.text a.toText), [])
  | .ranFile, .ok _ => return (.give (.ok (Builtin.ofBool true)), [])
  | .ranFile, .error e => do
    printLine (Text.ofString "exec: " ++ e.message)
    return (.give (.ok (Builtin.ofBool false)), [])
  | .ranText, .ok v => return (.give (.ok v), [])
  | .ranText, .error e => do
    printLine (Text.ofString "eval: " ++ e.message)
    return (.give .nothing, [])
  | .ignore, _ => return (.give .nothing, [])
  | .remove r, _ => do
    let children := ((← get).objects.get r).children
    modify (·.takeChildren r)
    return (.give .nothing, [.children r children.reverse])
  | .children r [], _ => do
    modify (·.withdraw r)
    return (.give .nothing, [])
  | .children r (child :: rest), _ => do
    if ((← get).objects.get child).group == some r then
      modify (·.leaveGroup child)
      return (.start (.delete child), [.children r rest])
    return (.give .nothing, [.children r rest])

/-- Drops what waits, because of a fault. An activation reports the fault and ends, unless the fault
is one that nothing recovers from. -/
def Pending.drop (f : Fault) (c : Console) : Pending → Focus × Console
  | .call u _ ip _ | .place u _ ip _ _ _ =>
    match f with
    | .exhausted => (.fail .exhausted, c)
    | f => (.give .nothing,
        c.printLine (u.place ip ++ Text.ofString ": runtime fault: " ++ f.message))
  | .frame => (.fail f, c.popFrame)
  | .function b => (.fail f, c.leaveFunction b)
  | .block b => (.fail f, c.release b)
  | _ => (.fail f, c)

namespace Process

/-- The process after a computation over what waits already. -/
def after (stack : List Pending) : EStateM.Result Fault Console Onward → Process
  | .ok (focus, above) c => ⟨focus, above ++ stack, c⟩
  | .error f c => ⟨.fail f, stack, c⟩

/-- One step. A process with a response or a fault and an empty stack is at its end. -/
def next : Process → Option Process
  | ⟨.start j, stack, c⟩ => some (after stack (j.begin c))
  | ⟨.give a, w :: stack, c⟩ => some (after stack (w.resume a c))
  | ⟨.fail f, w :: stack, c⟩ => some ⟨(w.drop f c).1, stack, (w.drop f c).2⟩
  | ⟨_, [], _⟩ => none

inductive Walk : Nat → Process → Process → Prop
  | stay (p : Process) : Walk 0 p p
  | step {n : Nat} {p q r : Process} (h : p.next = some q) (rest : Walk n q r) : Walk (n + 1) p r

/-- Any number of steps. -/
def Reaches (p q : Process) : Prop := ∃ n, Walk n p q

variable {p q r : Process} {n k : Nat}

theorem Reaches.refl (p : Process) : Reaches p p := ⟨0, .stay p⟩

theorem Reaches.head (h : p.next = some q) (h' : Reaches q r) : Reaches p r := by
  obtain ⟨n, hn⟩ := h'
  exact ⟨n + 1, .step h hn⟩

theorem Walk.trans (h : Walk n p q) (h' : Walk k q r) : Walk (n + k) p r := by
  induction h with
  | stay p => rwa [Nat.zero_add]
  | step h _ ih =>
    rw [Nat.add_right_comm]
    exact .step h (ih h')

theorem Reaches.trans (h : Reaches p q) (h' : Reaches q r) : Reaches p r := by
  obtain ⟨n, hn⟩ := h
  obtain ⟨k, hk⟩ := h'
  exact ⟨n + k, hn.trans hk⟩

/-- The process after that many steps, or at its end if that comes first. -/
def runFor : Nat → Process → Process
  | 0, p => p
  | n + 1, p =>
    match p.next with
    | some q => runFor n q
    | none => p

theorem reaches_runFor (n : Nat) (p : Process) : Reaches p (p.runFor n) := by
  induction n generalizing p with
  | zero => exact .refl p
  | succ n ih =>
    rw [runFor]
    split
    · next q h => exact .head h (ih q)
    · exact .refl p

/-- What one step keeps, a run keeps. -/
theorem Reaches.invariant {P : Process → Prop} (hstep : ∀ p q, P p → p.next = some q → P q)
    (h : Reaches p q) (hp : P p) : P q := by
  obtain ⟨n, hn⟩ := h
  induction hn with
  | stay p => exact hp
  | step h _ ih => exact ih (hstep _ _ hp h)

/-- The process can take that many steps. -/
def Takes (n : Nat) (p : Process) : Prop := ∃ q, Walk n p q

theorem Takes.zero (p : Process) : Takes 0 p := ⟨p, .stay p⟩

theorem Takes.step (h : p.next = some q) (h' : Takes n q) : Takes (n + 1) p := by
  obtain ⟨r, hr⟩ := h'
  exact ⟨r, .step h hr⟩

theorem Walk.take (h : Walk (n + 1) p q) : ∃ r, Walk n p r := by
  induction n generalizing p with
  | zero => exact ⟨p, .stay p⟩
  | succ n ih =>
    cases h with
    | step h rest =>
      obtain ⟨r, hr⟩ := ih rest
      exact ⟨r, .step h hr⟩

theorem Takes.mono (h : Takes n p) (hle : k ≤ n) : Takes k p := by
  obtain ⟨d, rfl⟩ := Nat.exists_eq_add_of_le hle
  clear hle
  induction d with
  | zero => exact h
  | succ d ih =>
    obtain ⟨q, hq⟩ := h
    exact ih hq.take

theorem Reaches.takes (h : Reaches p q) (h' : Takes n q) : Takes n p := by
  obtain ⟨k, hk⟩ := h
  obtain ⟨r, hr⟩ := h'
  exact Takes.mono ⟨r, hk.trans hr⟩ (Nat.le_add_left n k)

theorem Walk.le_of_end (h : Walk n p q) (hend : q.next = none) (h' : Walk k p r) : k ≤ n := by
  induction h generalizing k with
  | stay p =>
    cases h' with
    | stay => exact Nat.le_refl 0
    | step h' _ =>
      rw [hend] at h'
      cases h'
  | step h _ ih =>
    cases h' with
    | stay => exact Nat.zero_le _
    | step h' rest =>
      rw [h] at h'
      cases h'
      exact Nat.succ_le_succ (ih hend rest)

theorem Walk.end_unique {n k : Nat} {p q r : Process} (h : Walk n p q) (hq : q.next = none)
    (h' : Walk k p r) (hr : r.next = none) : q = r := by
  induction h generalizing k with
  | stay p =>
    cases h' with
    | stay => rfl
    | step h' _ =>
      rw [hq] at h'
      cases h'
  | step h _ ih =>
    cases h' with
    | stay =>
      rw [hr] at h
      cases h
    | step h' rest =>
      rw [h] at h'
      cases h'
      exact ih hq rest

/-! ## Runs -/

/-- The process does what a run says: it gets to the response or to the fault with `stack` waiting.
A run that is out of steps may also have a process that goes on for as many. -/
def Follows (fuel : Nat) (stack : List Pending) (p : Process) :
    EStateM.Result Fault Console Response → Prop
  | .ok a c => Reaches p ⟨.give a, stack, c⟩
  | .error f c => Reaches p ⟨.fail f, stack, c⟩ ∨ f = .exhausted ∧ Takes fuel p

variable {fuel : Nat} {stack : List Pending} {c : Console}
  {x y : EStateM.Result Fault Console Response}

theorem Follows.head (h : p.next = some q) (h' : Follows fuel stack q x) :
    Follows (fuel + 1) stack p x := by
  cases x with
  | ok a c => exact Reaches.head h h'
  | error f c =>
    rcases h' with h' | ⟨rfl, h'⟩
    · exact .inl (h'.head h)
    · exact .inr ⟨rfl, h'.step h⟩

theorem Follows.after (h : Reaches p q) (h' : Follows fuel stack q x) : Follows fuel stack p x := by
  cases x with
  | ok a c => exact h.trans h'
  | error f c =>
    rcases h' with h' | ⟨rfl, h'⟩
    · exact .inl (h.trans h')
    · exact .inr ⟨rfl, h.takes h'⟩

theorem Follows.exhausted (p : Process) (c : Console) :
    Follows 0 stack p (.error .exhausted c) := .inr ⟨rfl, .zero p⟩

end Process

def Job.run (fuel : Nat) : Job → Run Response
  | .proceed u b m => .text <$> loop fuel u b m
  | .enter b ip e argv => .text <$> runFunction fuel b ip e argv
  | .bind u b scope ip count flags argv => .text <$> do
    bindParams u scope count.toNat (ip + 7) argv
    if flags &&& 1 == 0 then return []
    loop fuel u b { ip := ip + 7 + count, scope := scope }
  | .top b shared => .text <$> runBlock fuel b shared
  | .call target => .text <$> callEntry fuel target
  | .command native receiver argv => .ok <$> callNative fuel native receiver argv
  | .method r name args => (fun t => .text (t.getD [])) <$> callMethod fuel r name args
  | .register r => (fun _ => .nothing) <$> registerObject fuel r
  | .delete r => (fun _ => .nothing) <$> deleteObject fuel r
  | .exec b => .text <$> execBlock fuel b
  | .execLocal b => .text <$> do
    modify (·.retain b)
    let depth := (← get).scopes.depth
    ensuring (runBlock fuel b ((depth : Int) - 1)) (·.release b)
  | .eval source filename => (·.map .text) <$> Run.eval fuel source filename
  | .evalLocal source filename => (·.map .text) <$> Run.evalLocal fuel source filename
  | .execFile path => (·.map .text) <$> Run.execFile fuel path

namespace Process

variable {fuel : Nat} {stack : List Pending} {c : Console} {w : Pending} {j : Job} {α β : Type}
  {enc : α → Response} {act : Run α} {step : Run Onward}

/-- The process that goes on after a step does what a run says. -/
def Tracks (fuel : Nat) (stack : List Pending) (enc : α → Response) (act : Run α) (step : Run Onward)
    (c : Console) : Prop :=
  Follows fuel stack (after stack (step c)) ((enc <$> act) c)

theorem Tracks.give {a : α} {b : Response} (h : enc a = b) :
    Tracks fuel stack enc (pure a) (pure (.give b, [])) c := by
  subst h
  exact Reaches.refl _

theorem Tracks.hand {a : Response} (h : Tracks fuel stack enc act (w.resume a) c) :
    Tracks fuel stack enc act (pure (.give a, [w])) c :=
  h.after (.head rfl (.refl _))

theorem Tracks.same {x : Run β} {f : β → Run α} {g : β → Run Onward}
    (h : ∀ b c', Tracks fuel stack enc (f b) (g b) c') :
    Tracks fuel stack enc (x >>= f) (x >>= g) c := by
  rw [Tracks, map_apply, bind_apply, bind_apply]
  cases x c with
  | ok b c' =>
    have hb := h b c'
    rwa [Tracks, map_apply] at hb
  | error f c' => exact .inl (.refl _)

/-- The process of a job does what its run of so many steps says. -/
def Heeds (fuel : Nat) (j : Job) : Prop :=
  ∀ stack c, Follows fuel stack ⟨.start j, stack, c⟩ (j.run fuel c)

theorem Tracks.heeds (hj : j.run (fuel + 1) = enc <$> act)
    (h : ∀ stack c, Tracks fuel stack enc act j.begin c) : Heeds (fuel + 1) j := by
  intro stack c
  rw [hj]
  exact (h stack c).head rfl

/-- A job whose first step takes no fuel is heeded if that step is. -/
theorem Tracks.heeds_same (hj : j.run fuel = enc <$> act)
    (h : ∀ stack c, Tracks fuel stack enc act j.begin c) : Heeds fuel j := by
  intro stack c
  rw [hj]
  exact (h stack c).after (.head rfl (.refl _))

theorem Heeds.tracks (h : Heeds fuel j) (hj : j.run fuel = enc <$> act) :
    Tracks fuel stack enc act (pure (.start j, [])) c := by
  have hstart := h stack c
  rwa [hj] at hstart

/-- What waits goes on where a job ends, and lets faults through. -/
theorem Heeds.then (h : Heeds fuel j) {f : α → Run β} {enc' : β → Response}
    (hj : j.run fuel = enc <$> act) (hdrop : ∀ f c, w.drop f c = (.fail f, c))
    (hf : ∀ a c', Tracks fuel stack enc' (f a) (w.resume (enc a)) c') :
    Tracks fuel stack enc' (act >>= f) (pure (.start j, [w])) c := by
  have hstart := h (w :: stack) c
  rw [hj, map_apply] at hstart
  rw [Tracks, map_apply, bind_apply]
  cases hact : act c with
  | ok a c' =>
    rw [hact] at hstart
    have hresume := hf a c'
    rw [Tracks, map_apply] at hresume
    exact hresume.after (hstart.trans (.head rfl (.refl _)))
  | error f c' =>
    rw [hact] at hstart
    rcases hstart with hstart | hstart
    · refine .inl (hstart.trans (.head ?_ (.refl _)))
      rw [next, hdrop]
    · exact .inr hstart

/-- What is put right after a job is put right after a fault too. -/
theorem Heeds.ensuring (h : Heeds fuel j) {after : Console → Console}
    (hj : j.run fuel = enc <$> act)
    (hresume : ∀ a c, w.resume a c = .ok (.give a, []) (after c))
    (hdrop : ∀ f c, w.drop f c = (.fail f, after c)) :
    Tracks fuel stack enc (Run.ensuring act after) (pure (.start j, [w])) c := by
  have hstart := h (w :: stack) c
  rw [hj, map_apply] at hstart
  rw [Tracks, map_apply, Run.ensuring]
  cases hact : act c with
  | ok a c' =>
    rw [hact] at hstart
    refine Reaches.trans hstart (.head ?_ (.refl _))
    rw [next, hresume]
    rfl
  | error f c' =>
    rw [hact] at hstart
    rcases hstart with hstart | hstart
    · refine .inl (hstart.trans (.head ?_ (.refl _)))
      rw [next, hdrop]
    · exact .inr hstart

/-! ## Jobs -/

theorem enter_heeds (h : ∀ j, Heeds fuel j) (b : BlockId) (ip : UInt32) (e : Entry)
    (argv : List Text) : Heeds (fuel + 1) (.enter b ip e argv) := by
  refine Tracks.heeds rfl fun stack c => ?_
  rw [runFunction]
  refine .same fun _ _ => .same fun count _ => .same fun flags _ => .same fun scope _ => ?_
  exact (h _).ensuring rfl (fun _ _ => rfl) (fun _ _ => rfl)

theorem top_heeds (h : ∀ j, Heeds fuel j) (b : BlockId) (shared : Int) :
    Heeds (fuel + 1) (.top b shared) := by
  refine Tracks.heeds rfl fun stack c => ?_
  rw [runBlock]
  refine .same fun _ _ => .same fun scope _ => ?_
  exact (h _).ensuring rfl (fun _ _ => rfl) (fun _ _ => rfl)

theorem call_heeds (h : ∀ j, Heeds fuel j) (target : Call) : Heeds (fuel + 1) (.call target) := by
  obtain ⟨id, receiver, argv⟩ := target
  refine Tracks.heeds rfl fun stack c => ?_
  rw [callEntry]
  refine .same fun c₀ _ => ?_
  cases c₀.spaces.entries[id]? with
  | none => exact .give rfl
  | some e =>
    dsimp only
    split
    · exact .same fun _ _ => .same fun _ _ => .give rfl
    · cases e.body with
      | group => exact .give rfl
      | callback => exact .give rfl
      | script b offset line =>
        dsimp only
        split
        · exact .same fun _ _ => .give rfl
        · exact .same fun _ _ => (h _).ensuring rfl (fun _ _ => rfl) (fun _ _ => rfl)
      | native kind native => exact (h _).then rfl (fun _ _ => rfl) fun _ _ => .give rfl

theorem command_heeds (h : ∀ j, Heeds fuel j) (native : Native) (receiver : Option ObjectRef)
    (argv : List Text) : Heeds (fuel + 1) (.command native receiver argv) := by
  refine Tracks.heeds rfl fun stack c => ?_
  unfold callNative
  cases native with
  | builtin b =>
    dsimp only
    rw [← bind_pure (b.run receiver argv)]
    exact .same fun v _ => .give rfl
  | execFile =>
    refine .same fun path _ => (h _).then rfl (fun _ _ => rfl) fun a _ => ?_
    cases a with
    | ok t => exact .give rfl
    | error e => exact .same fun _ _ => .give rfl
  | evalText =>
    refine .same fun path _ => (h _).then rfl (fun _ _ => rfl) fun a _ => ?_
    cases a with
    | ok t => exact .give rfl
    | error e => exact .same fun _ _ => .give rfl
  | deleteObject =>
    cases receiver with
    | some r => exact (h _).tracks (by simp [Job.run]; rfl)
    | none => exact .give rfl
  | host f =>
    refine .same fun c₀ _ => ?_
    dsimp only
    generalize f (receiver.map fun r => (c₀.objects.get r).id) argv = reply
    obtain ⟨printed, result⟩ := reply
    cases printed with
    | some t => exact .same fun _ _ => .give rfl
    | none => exact .give rfl

theorem method_heeds (h : ∀ j, Heeds fuel j) (r : ObjectRef) (name : Text) (args : List Text) :
    Heeds (fuel + 1) (.method r name args) := by
  refine Tracks.heeds rfl fun stack c => ?_
  rw [callMethod]
  refine .same fun c₀ _ => ?_
  cases (c₀.objects.get r).space with
  | none => exact .give rfl
  | some space =>
    refine .same fun e _ => ?_
    cases e with
    | none => exact .give rfl
    | some e => exact .same fun c₁ _ => (h _).tracks (by simp [Job.run])

theorem register_heeds (h : ∀ j, Heeds fuel j) (r : ObjectRef) :
    Heeds (fuel + 1) (.register r) := by
  refine Tracks.heeds rfl fun stack c => ?_
  rw [registerObject]
  exact .same fun _ _ => (h _).then rfl (fun _ _ => rfl) fun _ _ => .give rfl

/-- What is left of a deletion once some of the children are left to look at. -/
theorem children_tracks (h : ∀ j, Heeds fuel j) (r : ObjectRef) (rest : List ObjectRef)
    (a : Response) (c : Console) : Tracks fuel stack (fun _ : Unit => .nothing) (do
      rest.forM fun child => do
        if ((← get).objects.get child).group == some r then
          modify (·.leaveGroup child)
          deleteObject fuel child
      modify (·.withdraw r)) ((Pending.children r rest).resume a) c := by
  induction rest generalizing a c with
  | nil =>
    rw [List.forM, pure_bind, ← bind_pure (modify _)]
    exact .same fun _ _ => .give rfl
  | cons child rest ih =>
    rw [List.forM, bind_assoc, bind_assoc]
    refine .same fun c₀ _ => ?_
    split
    · rw [bind_assoc]
      exact .same fun _ _ => (h (.delete child)).then rfl (fun _ _ => rfl) fun _ _ => ih _ _
    · rw [pure_bind]
      exact .hand (ih _ _)

theorem delete_heeds (h : ∀ j, Heeds fuel j) (r : ObjectRef) : Heeds (fuel + 1) (.delete r) := by
  refine Tracks.heeds rfl fun stack c => ?_
  rw [deleteObject]
  refine .same fun c₀ _ => ?_
  split
  · exact .give rfl
  · refine (h _).then rfl (fun _ _ => rfl) fun _ _ => ?_
    exact .same fun _ _ => .same fun _ _ => .hand (children_tracks h r _ _ _)

theorem exec_heeds (h : ∀ j, Heeds fuel j) (b : BlockId) : Heeds (fuel + 1) (.exec b) := by
  refine Tracks.heeds rfl fun stack c => ?_
  rw [execBlock]
  exact .same fun _ _ => (h _).ensuring rfl (fun _ _ => rfl) (fun _ _ => rfl)

theorem execLocal_heeds {b : BlockId} (h : ∀ shared, Heeds fuel (.top b shared)) : Heeds fuel (.execLocal b) := by
  refine Tracks.heeds_same rfl fun stack c => ?_
  exact .same fun _ _ => .same fun _ _ => (h _).ensuring rfl (fun _ _ => rfl) (fun _ _ => rfl)

theorem eval_heeds (h : ∀ j, Heeds fuel j) (source filename : Text) :
    Heeds (fuel + 1) (.eval source filename) := by
  refine Tracks.heeds rfl fun stack c => ?_
  rw [Run.eval]
  refine .same fun a _ => ?_
  cases a with
  | error e => exact .give rfl
  | ok b => exact (h _).tracks (by simp [Job.run]; rfl)

theorem evalLocal_heeds (h : ∀ j, Heeds fuel j) (source filename : Text) :
    Heeds (fuel + 1) (.evalLocal source filename) := by
  refine Tracks.heeds rfl fun stack c => ?_
  rw [Run.evalLocal]
  refine .same fun a _ => ?_
  cases a with
  | error e => exact .give rfl
  | ok b => exact (h (.execLocal b)).tracks (by simp [Job.run]; rfl)

theorem execFile_heeds (h : ∀ j, Heeds fuel j) (path : Text) :
    Heeds (fuel + 1) (.execFile path) := by
  refine Tracks.heeds rfl fun stack c => ?_
  rw [Run.execFile]
  refine .same fun c₀ _ => ?_
  cases c₀.files.read path with
  | error e => exact .give rfl
  | ok source => exact (h _).tracks rfl

theorem bind_heeds (h : ∀ u b m, Heeds fuel (.proceed u b m)) (u : CodeUnit) (b : BlockId)
    (scope : ScopeId) (ip count flags : UInt32) (argv : List Text) :
    Heeds fuel (.bind u b scope ip count flags argv) := by
  refine Tracks.heeds_same rfl fun stack c => .same fun _ _ => ?_
  split
  · exact .give rfl
  · exact (h _ _ _).tracks rfl

/-! ## Activations -/

section Activations

variable {u : CodeUnit} {b : BlockId} {ip : UInt32}

theorem attempt_pure (a : α) : attempt u ip (pure a) = pure (some a) := rfl

theorem Tracks.attempt {x : Run α} {f : α → Run (Machine ⊕ Text)} {g : Option α → Run Onward}
    (hnone : g none = pure (.give .nothing, []))
    (hsome : ∀ a c', Tracks fuel stack .text (attempt u ip (f a) >>= resume fuel u b)
      (g (some a)) c') :
    Tracks fuel stack .text (attempt u ip (x >>= f) >>= resume fuel u b)
      (attempt u ip x >>= g) c := by
  rw [Tracks, map_apply, bind_apply, bind_apply, Run.attempt, Run.attempt, bind_apply]
  cases x c with
  | ok a c' =>
    have ha := hsome a c'
    rwa [Tracks, map_apply, bind_apply, Run.attempt] at ha
  | error f c' =>
    have hend (c : Console) : Follows fuel stack (after stack (g none c)) (.ok .nothing c) := by
      rw [hnone]
      exact Reaches.refl _
    cases f with
    | exhausted => exact .inl (.refl _)
    | outOfRange index length => exact hend _
    | absent => exact hend _

/-- What waits for a job goes on with the activation, or ends it at a fault. -/
theorem Heeds.pause (h : Heeds fuel j) {f : α → Run (Machine ⊕ Text)}
    (hj : j.run fuel = enc <$> act)
    (hdrop : ∀ f c, w.drop f c = (Pending.call u b ip { ip := ip, scope := .globals }).drop f c)
    (hf : ∀ a c', Tracks fuel stack .text (attempt u ip (f a) >>= resume fuel u b)
      (w.resume (enc a)) c') :
    Tracks fuel stack .text (attempt u ip (act >>= f) >>= resume fuel u b)
      (pure (.start j, [w])) c := by
  have hstart := h (w :: stack) c
  rw [hj, map_apply] at hstart
  rw [Tracks, map_apply, bind_apply, Run.attempt, bind_apply]
  cases hact : act c with
  | ok a c' =>
    rw [hact] at hstart
    have hresume := hf a c'
    rw [Tracks, map_apply, bind_apply, Run.attempt] at hresume
    exact hresume.after (hstart.trans (.head rfl (.refl _)))
  | error f c' =>
    rw [hact] at hstart
    rcases hstart with hstart | ⟨rfl, hstart⟩
    · have hnext := hstart.trans (.head rfl (.refl _))
      rw [hdrop] at hnext
      cases f with
      | exhausted => exact .inl hnext
      | outOfRange index length => exact hnext
      | absent => exact hnext
    · exact .inr ⟨rfl, hstart⟩

theorem proceed_heeds (h : ∀ j, Heeds fuel j) (u : CodeUnit) (b : BlockId) (m : Machine) :
    Heeds (fuel + 1) (.proceed u b m) := by
  have hgo (m' : Machine) {stack : List Pending} {c : Console} : Tracks fuel stack .text
      (attempt u m.ip (pure (.inl m')) >>= resume fuel u b) (pure (.start (.proceed u b m'), [])) c := by
    rw [attempt_pure, pure_bind]
    exact (h _).tracks rfl
  have hloop : loop (fuel + 1) u b m = attempt u m.ip (move fuel u b m) >>= resume fuel u b := by
    rw [loop]
    rfl
  refine Tracks.heeds rfl fun stack c => ?_
  rw [hloop, move]
  refine .attempt rfl fun p c₁ => ?_
  cases p with
  | next m' => exact hgo m'
  | done t =>
    rw [attempt_pure, pure_bind]
    exact .give rfl
  | call m' due => exact (h (.call due)).pause rfl (fun _ _ => rfl) fun t _ => hgo _
  | register m' r root =>
    refine (h (.register r)).pause rfl (fun _ _ => rfl) fun _ c₂ => ?_
    exact .attempt rfl fun m'' _ => hgo m''

end Activations

theorem heeds (fuel : Nat) (j : Job) : Heeds fuel j := by
  induction fuel generalizing j with
  | zero =>
    have hout {α : Type} (j : Job) (enc : α → Response) (hj : j.run 0 = enc <$> throw .exhausted) :
        Heeds 0 j := by
      intro stack c
      rw [hj]
      exact .exhausted _ c
    have hproceed (u : CodeUnit) (b : BlockId) (m : Machine) : Heeds 0 (.proceed u b m) :=
      hout _ .text (by rw [Job.run, loop])
    have htop (b : BlockId) (shared : Int) : Heeds 0 (.top b shared) :=
      hout _ .text (by rw [Job.run, runBlock])
    cases j with
    | proceed u b m => exact hproceed u b m
    | bind u b scope ip count flags argv => exact bind_heeds hproceed u b scope ip count flags argv
    | top b shared => exact htop b shared
    | execLocal b => exact execLocal_heeds (htop b)
    | enter b ip e argv => exact hout _ .text (by rw [Job.run, runFunction])
    | call target => exact hout _ .text (by rw [Job.run, callEntry])
    | command native receiver argv => exact hout _ .ok (by rw [Job.run, callNative])
    | method r name args => exact hout _ _ (by rw [Job.run, callMethod])
    | register r => exact hout _ _ (by rw [Job.run, registerObject])
    | delete r => exact hout _ _ (by rw [Job.run, deleteObject])
    | exec b => exact hout _ .text (by rw [Job.run, execBlock])
    | eval source filename => exact hout _ _ (by rw [Job.run, Run.eval])
    | evalLocal source filename => exact hout _ _ (by rw [Job.run, Run.evalLocal])
    | execFile path => exact hout _ _ (by rw [Job.run, Run.execFile])
  | succ fuel ih =>
    cases j with
    | proceed u b m => exact proceed_heeds ih u b m
    | enter b ip e argv => exact enter_heeds ih b ip e argv
    | bind u b scope ip count flags argv => exact bind_heeds (proceed_heeds ih) u b scope ip count flags argv
    | top b shared => exact top_heeds ih b shared
    | call target => exact call_heeds ih target
    | command native receiver argv => exact command_heeds ih native receiver argv
    | method r name args => exact method_heeds ih r name args
    | register r => exact register_heeds ih r
    | delete r => exact delete_heeds ih r
    | exec b => exact exec_heeds ih b
    | execLocal b => exact execLocal_heeds (top_heeds ih b)
    | eval source filename => exact eval_heeds ih source filename
    | evalLocal source filename => exact evalLocal_heeds ih source filename
    | execFile path => exact execFile_heeds ih path

end Process

open Process in
theorem Job.run_iff_reaches {j : Job} {c c' : Console} {a : Response} :
    (∃ fuel, j.run fuel c = .ok a c') ↔ Reaches ⟨.start j, [], c⟩ ⟨.give a, [], c'⟩ := by
  constructor
  · rintro ⟨fuel, h⟩
    have hheeds := heeds fuel j [] c
    rwa [h] at hheeds
  · rintro ⟨n, hn⟩
    -- A run that may take more steps than its process does not run out of them.
    refine ⟨n + 1, ?_⟩
    have hheeds := heeds (n + 1) j [] c
    cases hrun : j.run (n + 1) c with
    | ok a' c₁ =>
      rw [hrun] at hheeds
      obtain ⟨k, hk⟩ := hheeds
      cases hn.end_unique rfl hk rfl
      rfl
    | error f c₁ =>
      rw [hrun] at hheeds
      rcases hheeds with ⟨k, hk⟩ | ⟨-, q, hq⟩
      · cases hn.end_unique rfl hk rfl
      · exact absurd (hn.le_of_end rfl hq) (Nat.not_succ_le_self n)

end ConsoleScript
