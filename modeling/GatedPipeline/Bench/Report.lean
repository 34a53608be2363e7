import GatedPipeline.Bench.Table
import GatedPipeline.Decimal.Shortest
import GatedPipeline.Json
import GatedPipeline.Pipeline

/-!
What a benchmark reports of its measured run: a document with all numbers, and the tables it
prints. Times are in microseconds.
-/

namespace GatedPipeline.Bench

/-- A report with the time it was made at and the rate that was asked for. -/
structure Report where
  generatedAt : String
  target : Option Nat
  run : Run.Report

namespace Report

def microseconds (ns : Float) : Float := ns / 1000.0

def percentiles (report : Report) : List (Float × Float) :=
  report.run.latency.percentiles.map fun entry =>
    (entry.1, microseconds (Decimal.floatOfNat entry.2))

def worst (report : Report) : Float := microseconds (Decimal.floatOfNat report.run.latency.worst)

def mean (report : Report) : Float := microseconds report.run.latency.mean

def hops (report : Report) : List Float := report.run.latency.meanHops.map microseconds

/-- The gates in the order of ids, each id once with its last value. -/
def gates (report : Report) : List (String × Int) :=
  let latest := report.run.gates.foldl
    (fun kept gate => kept.filter (·.1 ≠ gate.1) ++ [gate]) []
  latest.mergeSort fun one other => one.1 ≤ other.1

/-- A number of the document; what is no number has no text there. -/
def number (x : Float) : Json :=
  match Decimal.Binary.ofFloat x with
  | .finite .. => .number (Decimal.Style.report.text x)
  | _ => .null

def document (report : Report) : Json :=
  let run := report.run
  .record ([("generated_at", .string report.generatedAt),
    ("stages", .nat run.stages),
    ("throughput_target", (report.target.map Json.nat).getD .null),
    ("records_written", .nat run.producer.written),
    ("records_collected", .nat run.latency.records),
    ("producer_elapsed_secs", number (Worker.seconds run.producer.elapsed)),
    ("producer_rate_per_sec", number run.producer.rate),
    ("percentiles", .list (report.percentiles.map fun entry =>
      .record [("percentile", number entry.1), ("latency_us", number entry.2)])),
    ("worst_us", number report.worst),
    ("mean_us", number report.mean),
    ("stage_hop_mean_us", .list (report.hops.map number)),
    ("gates", .record (report.gates.map fun gate => (gate.1, .int gate.2))),
    ("clock_anomalies", .nat run.latency.anomalies),
    ("incomplete_records", .nat run.latency.incomplete)] ++
    (run.pretouchedPages.map fun pages => ("pretouched_pages", Json.nat pages)).toList)

def summary (report : Report) (color : Bool) : List String :=
  let latency := report.run.latency
  [report.run.throughputLine, "",
    paint color .heading
      s!"End-to-end latency (µs), {report.run.stages} stages, {latency.records} records"] ++
  (report.percentiles.map fun entry =>
    row color none (Decimal.Style.full.text entry.1 ++ "%") entry.2) ++
  [row color none "worst" report.worst, row color (some .muted) "mean" report.mean, "",
    paint color .heading "Per-stage mean hop (µs)"] ++
  (report.hops.zipIdx.map fun entry =>
    row color none ("stage " ++ toString (entry.2 + 1)) entry.1) ++
  (if 0 < latency.anomalies ∨ 0 < latency.incomplete then
    ["", paint color .warning
      s!"warning: {latency.anomalies} clock anomalies, {latency.incomplete} incomplete records"]
  else [])

end Report

end GatedPipeline.Bench
