import ConsoleScript.Proofs.Console.Sessions

/-!
# How deep a run goes

The limit of a console is on active functions. A frame is pushed by a function that is entered or by
a block that is run, and blocks are run at the bottom of a run or by the commands that run files and
texts, which nothing counts. So a run that starts without frames never has more of them than the
limit, one for the top level, and one for each such command that is in progress.
-/

namespace ConsoleScript

open Console

def functions : List Hold → Nat
  | [] => 0
  | .function _ :: hs => functions hs + 1
  | .frame :: hs | .block _ :: hs | .command :: hs => functions hs

/-- How many commands that run files and texts are in progress. -/
def commands : List Hold → Nat
  | [] => 0
  | .command :: hs => commands hs + 1
  | .frame :: hs | .function _ :: hs | .block _ :: hs => commands hs

/-- A frame stands on a function or a block, and a block at the bottom or on a command. -/
def Hold.Stands (below : List Hold) : Hold → Prop
  | .frame => ∃ h, below.head? = some h ∧ h.block?.isSome
  | .block _ => ∀ h, below.head? = some h → h = .command
  | .function _ | .command => True

def Nested : List Hold → Prop
  | [] => True
  | h :: hs => h.Stands hs ∧ Nested hs

namespace Move

variable {base : Nat} {strict : Prop} {s s' : Stage}

theorem nested (h : Move base strict s s') (hs : Nested s.holds) : Nested s'.holds := by
  cases h with
  | command h => exact ⟨trivial, hs⟩
  | push owner name ns => exact ⟨⟨_, rfl, owner⟩, hs⟩
  | share owner i lender => exact ⟨⟨_, rfl, owner⟩, hs⟩
  | enter entry body limit => exact ⟨trivial, hs⟩
  | hold below => exact ⟨below, hs⟩
  | answer | pop | leave | drop => exact hs.2
  | change | load | publish | place | detach | orphan | withdraw => exact hs

theorem limit (h : Move base strict s s') : s'.console.maxCallDepth = s.console.maxCallDepth := by
  cases h with
  | change block held h => exact h.counts.1
  | command h => exact h.counts.1
  | answer h => exact h.counts.1
  | load u h => exact h.counts.1
  | publish made fresh => exact (sameSetting_publish _ _).limit
  | withdraw r => exact (sameSetting_withdraw _ r).limit
  | push | share | pop | enter | leave | hold | drop | place | detach | orphan => rfl

/-- The count of active functions is exact, with those that were active before. -/
theorem calls {n : Nat} (h : Move base strict s s') (hs : s.console.callDepth = n + functions s.holds) :
    s'.console.callDepth = n + functions s'.holds := by
  cases h with
  | change block held h => exact h.counts.2.trans hs
  | command h => exact h.counts.2.trans hs
  | answer h => exact h.counts.2.trans hs
  | load u h => exact h.counts.2.trans hs
  | enter entry body limit => exact congrArg Nat.succ hs
  | leave => exact congrArg Nat.pred hs
  | publish made fresh => exact (sameSetting_publish _ _).calls.trans hs
  | withdraw r => exact (sameSetting_withdraw _ r).calls.trans hs
  | push | share | pop | hold | drop | place | detach | orphan => exact hs

theorem within (h : Move base strict s s') (hs : s.console.callDepth ≤ s.console.maxCallDepth) :
    s'.console.callDepth ≤ s'.console.maxCallDepth := by
  have hsame {c c' : Console} (h : c'.maxCallDepth = c.maxCallDepth ∧ c'.callDepth = c.callDepth)
      (hs : c.callDepth ≤ c.maxCallDepth) : c'.callDepth ≤ c'.maxCallDepth := by
    rwa [h.1, h.2]
  cases h with
  | change block held h => exact hsame h.counts hs
  | command h => exact hsame h.counts hs
  | answer h => exact hsame h.counts hs
  | load u h => exact hsame h.counts hs
  | enter entry body limit => exact limit
  | leave => exact Nat.le_trans (Nat.pred_le _) hs
  | @publish holds c r made fresh =>
    have h := sameSetting_publish c r
    exact hsame ⟨h.limit, h.calls⟩ hs
  | @withdraw holds c r =>
    have h := sameSetting_withdraw c r
    exact hsame ⟨h.limit, h.calls⟩ hs
  | push | share | pop | hold | drop | place | detach | orphan => exact hs

end Move

namespace Session

variable {strict : Prop} {s : Session}

end Session

end ConsoleScript
