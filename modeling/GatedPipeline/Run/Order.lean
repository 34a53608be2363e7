import GatedPipeline.Log.Tail
import GatedPipeline.Run.Config

/-!
The order in time that a finished run shows in its log. The rows are the times of the records in
the order of the log, each from production to the last stage.
-/

namespace GatedPipeline.Run.Order

def rows (log : Log) : List (List Nat) :=
  log.entries.map fun entry => (log.record entry.view).times.map UInt64.toNat

def neverFalls : List Nat → Bool
  | one :: next :: rest => decide (one ≤ next) && neverFalls (next :: rest)
  | _ => true

def allStamped (rows : List (List Nat)) : Bool := rows.all (·.all (· ≠ 0))

def slotsInOrder (rows : List (List Nat)) : Bool := rows.all neverFalls

/-- Each stage took the records in their order. -/
def recordsInOrder (stages : Nat) (rows : List (List Nat)) : Bool :=
  (List.range (stages + 1)).all fun slot => neverFalls (rows.map (·.getD slot 0))

/-- Each stage waited for the delay of the stage before it. -/
def delaysRespected (config : Config) (rows : List (List Nat)) : Bool :=
  rows.all fun row => (List.range config.stages).all fun stage =>
    stage = 0 || decide (row.getD stage 0 + (config.delayOf stage).getD 0 ≤ row.getD (stage + 1) 0)

/-- Production took its intervals, one of them less than there are for what the first may lack. -/
def paced (config : Config) (rows : List (List Nat)) : Bool :=
  let first := (rows.head?.getD []).getD 0 0
  let last := (rows.getLast?.getD []).getD 0 0
  decide (first + (config.count - 2) * (config.interval.toOption.getD 0) ≤ last)

end GatedPipeline.Run.Order
