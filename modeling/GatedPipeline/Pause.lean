import GatedPipeline.Word

/-!
Waiting. A wait is a sequence of attempts; after a missed one the waiter looks whether the run was
aborted and then asks its pause whether to go on. A pause is a value of its own for each waiter.
-/

namespace GatedPipeline

/-- What a worker does between two attempts. A spinning or a yielding pause goes on for ever. A
bounded one gives up when more than `limit` attempts in a row were missed, a deadline when a single
wait has lasted more than `timeout` nanoseconds. A scripted pause does at its call number `n` what
`verdict n` says, where `none` goes on. -/
inductive Pause where
  | spinning
  | yielding
  | bounded (limit polls : Nat)
  | deadline (timeout : Nat) (since : Option Nat)
  | scripted (verdict : Nat → Option Problem) (calls : Nat)

namespace Pause

def boundedBy (limit : Nat) : Pause := .bounded limit 0

/-- A deadline on each wait, in nanoseconds modulo `2 ^ 64`. -/
def within (timeout : Nat) : Pause := .deadline (timeout % wordLimit) none

/-- One pause after a missed attempt; `now` is the clock reading it takes if it needs one. -/
def pause (now : Nat) : Pause → Pause × Except Problem Unit
  | .spinning => (.spinning, .ok ())
  | .yielding => (.yielding, .ok ())
  | .bounded limit polls =>
      match Checked.add polls 1 with
      | .error fault => (.bounded limit polls, .error (.broken fault))
      | .ok polls =>
          if limit < polls then (.bounded limit polls, .error (.of (.noProgress limit)))
          else (.bounded limit polls, .ok ())
  | .deadline timeout since =>
      let start := since.getD now
      if timeout < now - start then
        (.deadline timeout (some start), .error (.of (.stalled (timeout / 1000000))))
      else (.deadline timeout (some start), .ok ())
  | .scripted verdict calls =>
      match verdict calls with
      | some problem => (.scripted verdict (calls + 1), .error problem)
      | none => (.scripted verdict (calls + 1), .ok ())

/-- Pauses `times` times, or up to the first problem, with a clock whose readings are `tick` apart.
Answers the pause and the clock after it, how many pauses went on, and the problem. -/
def pauseTimes (tick : Nat) : (times done now : Nat) → Pause → Pause × Nat × Nat × Option Problem
  | 0, done, now, self => (self, now, done, none)
  | times + 1, done, now, self =>
      match self.pause now with
      | (self, .error problem) => (self, now + tick, done, some problem)
      | (self, .ok ()) => pauseTimes tick times (done + 1) (now + tick) self

/-- Ends a wait that succeeded. -/
def reset : Pause → Pause
  | .bounded limit _ => .bounded limit 0
  | .deadline timeout _ => .deadline timeout none
  | pause => pause

/-- The pause another waiter is given. -/
def copy : Pause → Pause
  | .deadline timeout _ => .deadline timeout none
  | pause => pause

/-- What follows a missed attempt: an aborted run ends the wait, otherwise the pause decides. -/
def afterMiss (aborted : Bool) (now : Nat) (pause : Pause) : Pause × Except Problem Unit :=
  if aborted then (pause, .error (.of .aborted)) else pause.pause now

/-- The world of one wait: what its attempts answer, whether the run is aborted after each of
them, and the clock at the pause that follows. Attempts count from one. -/
structure World (α : Type) where
  attempt : Nat → Option α
  aborted : Nat → Bool
  clock : Nat → Nat

/-- How a wait ended: after how many attempts, with which pause, and with what. -/
structure Ending (α : Type) where
  calls : Nat
  pause : Pause
  outcome : Except Problem α

/-- Waits for an attempt to answer, for at most `fuel` attempts after the `calls` already made. -/
def poll {α : Type} (world : World α) : (fuel calls : Nat) → Pause → Option (Ending α)
  | 0, _, _ => none
  | fuel + 1, calls, pause =>
      match world.attempt (calls + 1) with
      | some value => some ⟨calls + 1, pause.reset, .ok value⟩
      | none =>
          match pause.afterMiss (world.aborted (calls + 1)) (world.clock (calls + 1)) with
          | (pause, .error problem) => some ⟨calls + 1, pause, .error problem⟩
          | (pause, .ok ()) => poll world fuel (calls + 1) pause

/-- A bounded pause described for a reader, or the name of one that only spins. -/
def describe : Pause → Option String
  | .spinning => some "BusySpin"
  | .bounded limit polls =>
      some ("Bounded \x7b max_polls: " ++ toString limit ++ ", polls: " ++ toString polls ++
        " \x7d")
  | _ => none

end Pause

end GatedPipeline
