import GatedPipeline.Latency.Histogram
import GatedPipeline.Run.Context

/-!
Collecting latencies. The log is read from its start up to the final record of the run, or to its
end if there is none.
-/

namespace GatedPipeline.Latency

/-- What the records of a run tell of its latency. A record is incomplete when one of its times was
never written, and an anomaly when its last time is before its production. The histogram is over the
times from production to the end of the last stage, and `hopSums` adds up for each stage the time
since the stage before it. -/
structure Report where
  stages : Nat
  records : Nat
  lastRemaining : Option Int
  incomplete : Nat
  anomalies : Nat
  histogram : Histogram
  hopSums : List Nat
  deriving DecidableEq, Repr

namespace Report

def start (stages : Nat) : Report := ⟨stages, 0, none, 0, 0, .empty, List.replicate stages 0⟩

/-- The hops of a record, where one that goes back counts as none. -/
def hops (record : Record) (stages : Nat) : Except Fault (List Nat) :=
  (List.range stages).mapM fun stage => do return (← record.hop (stage + 1)).toNat

def add (report : Report) (record : Record) : Except Fault Report := do
  let latency ← record.latency
  let hops ← hops record report.stages
  return ⟨report.stages, report.records + 1, some record.remaining,
    if record.isComplete then report.incomplete else report.incomplete + 1,
    if latency < 0 then report.anomalies + 1 else report.anomalies,
    report.histogram.record latency.toNat,
    List.zipWith (· + ·) report.hopSums hops⟩

def percentiles (report : Report) : List (Float × Nat) :=
  percents.map fun percent => (percent, report.histogram.percentile percent)

def worst (report : Report) : Nat := report.histogram.worst

def mean (report : Report) : Float := report.histogram.mean

def meanHops (report : Report) : List Float :=
  report.hopSums.map fun sum =>
    if 0 < report.records then Decimal.floatOfNat sum / Decimal.floatOfNat report.records else 0.0

end Report

/-- Reads on from a cursor, over at most so many records, and adds what is read. -/
def collectFrom (log : Log) : Nat → Tailer → Report → Except Fault Report
  | 0, _, report => .ok report
  | records + 1, tailer, report =>
      match tailer.read log with
      | (_, .error fault) => .error fault
      | (_, .ok none) => .ok report
      | (after, .ok (some entry)) => do
          let record := log.record entry.view
          let report ← report.add record
          if record.isLast then return report else collectFrom log records after report

def collectLog (log : Log) : Except Fault Report :=
  collectFrom log (log.capacity / 8 + 1) .start (.start log.layout.stages)

/-- The latencies of a run, with a note in its journal. -/
def collect (context : Run.Context) : Run.Context × Except Fault Report :=
  match collectLog context.log with
  | .error fault => (context, .error fault)
  | .ok report =>
      let warned := if 0 < report.incomplete then context.say (.recordsIncomplete report.incomplete)
        else context
      (warned.say (.latencyCollected report.records), .ok report)

end GatedPipeline.Latency
