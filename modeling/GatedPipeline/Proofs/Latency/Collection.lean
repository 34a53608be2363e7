import Mathlib.Algebra.GroupWithZero.Nat
import Mathlib.Algebra.Order.BigOperators.Group.List
import GatedPipeline.Proofs.Latency
import GatedPipeline.Proofs.Run.Used

/-!
What collecting the latencies of a run answers. The records it goes through are those of the log up
to the first that announces no other, and every number of the report is read off them: how many
there are, how many have a slot without a time or end before they were produced, the time each took
and, for every stage, the time it added to all of them together. Collecting ends that way wherever
the times can be taken from one another, and it leaves the log and the gates as they are.
-/

namespace GatedPipeline

/-- Words below the bound of signed words are read alike with and without a sign. -/
theorem Word.signed_small {word : Word} (h : word.toNat < 2 ^ 63) : word.signed = word.toNat := by
  rw [Word.signed_eq, if_pos (by simp only [signedLimit]; omega)]

namespace Record

/-- The time in a slot as the word it is. -/
def nanos (record : Record) (slot : Nat) : Nat := (record.words.getD (slot + 1) 0).toNat

theorem timeAt_small {record : Record} {slot : Nat} (h : record.nanos slot < 2 ^ 63) :
    record.timeAt slot = record.nanos slot :=
  Word.signed_small h

theorem Sized.isComplete_iff {record : Record} {stages : Nat} (h : record.Sized stages) :
    record.isComplete = true ↔ ¬ ∃ slot ≤ stages, record.timeAt slot = 0 := by
  have hwords := h.words
  simp only [isComplete, times, List.all_eq_true, decide_eq_true_eq, timeAt, Word.signed_eq_zero,
    not_exists, not_and]
  constructor
  · intro hall slot hslot
    have hin : slot + 1 < record.words.length := by omega
    rw [List.getD_eq_getElem?_getD, List.getElem?_eq_getElem hin, Option.getD_some]
    apply hall
    rw [List.mem_drop_iff_getElem]
    exact ⟨slot, by omega, by simp only [Nat.add_comm]⟩
  · intro hall word hword
    obtain ⟨slot, hslot, rfl⟩ := List.mem_drop_iff_getElem.mp hword
    have hin : slot + 1 < record.words.length := by omega
    have hne := hall slot (by omega)
    rw [List.getD_eq_getElem?_getD, List.getElem?_eq_getElem hin, Option.getD_some] at hne
    simpa only [Nat.add_comm] using hne

end Record

namespace Latency

/-- The records up to the first that announces no other, that one with them; all of them if every
record announces more. -/
def upToLast : List Record → List Record
  | [] => []
  | record :: rest => if record.remaining = 0 then [record] else record :: upToLast rest

/-- The records of a log that its latencies are collected from. -/
def collected (log : Log) : List Record :=
  upToLast (log.entries.map fun entry => log.record entry.view)

theorem upToLast_initial (records : List Record) : upToLast records <+: records := by
  induction records with
  | nil => exact List.prefix_rfl
  | cons first rest ih =>
      rw [upToLast]
      split
      · exact ⟨rest, rfl⟩
      · exact List.prefix_cons_inj first |>.mpr ih

namespace Report

/-- What a report says of the records it is made of, whose times are read in one way. Each number of
the report is given by what is true of the records: there is one sample for every record, in order,
and for every stage the sum of the hops it is the end of. -/
structure Tells (report : Report) (time : Record → Nat → Int) (stages : Nat)
    (records : List Record) : Prop where
  stages_eq : report.stages = stages
  count : report.records = records.length
  lastRemaining : report.lastRemaining = records.getLast?.map Record.remaining
  incomplete : report.incomplete =
    records.countP fun record => ∃ slot ≤ stages, time record slot = 0
  anomalies : report.anomalies = records.countP fun record => time record stages < time record 0
  samples : report.histogram.samples.reverse =
    records.map fun record => elapsed (time record) 0 stages
  hopSums : report.hopSums = (List.range stages).map fun stage =>
    (records.map fun record => elapsed (time record) stage (stage + 1)).sum

theorem start_tells (time : Record → Nat → Int) (stages : Nat) :
    (start stages).Tells time stages [] := by
  refine ⟨rfl, rfl, rfl, rfl, rfl, rfl, ?_⟩
  simp [start, List.map_const']

/-- The report says the same however the times are read, as long as one is as much later than
another and the missing ones are missing. -/
theorem Tells.alike {report : Report} {time other : Record → Nat → Int} {stages : Nat}
    {records : List Record} (h : report.Tells time stages records)
    (hzero : ∀ record ∈ records, ∀ slot ≤ stages, time record slot = 0 ↔ other record slot = 0)
    (hspan : ∀ record ∈ records, ∀ first ≤ stages, ∀ last ≤ stages,
      time record last - time record first = other record last - other record first) :
    report.Tells other stages records := by
  have helapsed : ∀ record ∈ records, ∀ first ≤ stages, ∀ last ≤ stages,
      elapsed (time record) first last = elapsed (other record) first last := by
    intro record hrecord first hfirst last hlast
    rw [elapsed, elapsed, hspan record hrecord first hfirst last hlast]
  refine ⟨h.stages_eq, h.count, h.lastRemaining, h.incomplete.trans ?_, h.anomalies.trans ?_,
    h.samples.trans ?_, h.hopSums.trans ?_⟩
  · apply List.countP_congr
    intro record hrecord
    simp only [decide_eq_true_eq]
    exact exists_congr fun slot => and_congr_right (hzero record hrecord slot)
  · apply List.countP_congr
    intro record hrecord
    have hwhole := hspan record hrecord 0 (Nat.zero_le _) stages (Nat.le_refl _)
    simp only [decide_eq_true_eq]
    omega
  · apply List.map_congr_left
    intro record hrecord
    exact helapsed record hrecord 0 (Nat.zero_le _) stages (Nat.le_refl _)
  · apply List.map_congr_left
    intro stage hstage
    have hstage := List.mem_range.mp hstage
    congr 1
    apply List.map_congr_left
    intro record hrecord
    exact helapsed record hrecord stage (Nat.le_of_lt hstage) (stage + 1) hstage

theorem Tells.congr {report : Report} {time other : Record → Nat → Int} {stages : Nat}
    {records : List Record} (h : report.Tells time stages records)
    (hsame : ∀ record ∈ records, ∀ slot ≤ stages, time record slot = other record slot) :
    report.Tells other stages records := by
  refine h.alike (fun record hrecord slot hslot => ?_)
    fun record hrecord first hfirst last hlast => ?_
  · rw [hsame record hrecord slot hslot]
  · rw [hsame record hrecord first hfirst, hsame record hrecord last hlast]

/-- One record more. -/
theorem Tells.plus {report : Report} {stages : Nat} {records : List Record} {record : Record}
    (h : report.Tells Record.timeAt stages records) (hsized : record.Sized stages) :
    (report.plus record).Tells Record.timeAt stages (records ++ [record]) := by
  obtain rfl := h.stages_eq
  refine ⟨rfl, ?_, ?_, ?_, ?_, ?_, ?_⟩
  · simp [Report.plus, h.count]
  · simp [Report.plus]
  · simp only [Report.plus, hsized.isComplete_iff, h.incomplete, List.countP_append,
      List.countP_singleton, decide_eq_true_eq, ite_not]
    split_ifs <;> rfl
  · simp only [Report.plus, h.anomalies, List.countP_append, List.countP_singleton,
      decide_eq_true_eq]
    split_ifs <;> rfl
  · simp only [Report.plus, Histogram.record, List.reverse_cons, h.samples, List.map_append,
      List.map_singleton]
  · simp only [Report.plus, hopsOf, h.hopSums, List.zipWith_map, List.zipWith_self,
      List.map_append, List.map_singleton, List.sum_append, List.sum_singleton]

theorem Tells.foldl_plus {report : Report} {stages : Nat} {seen : List Record}
    (h : report.Tells Record.timeAt stages seen) {records : List Record}
    (hsized : ∀ record ∈ records, record.Sized stages) :
    (records.foldl Report.plus report).Tells Record.timeAt stages (seen ++ records) := by
  induction records generalizing report seen with
  | nil => rwa [List.append_nil]
  | cons first rest ih =>
      have hfirst := h.plus (hsized first List.mem_cons_self)
      have hrest := ih hfirst fun record hrecord =>
        hsized record (List.mem_cons_of_mem first hrecord)
      rwa [List.append_assoc, List.singleton_append] at hrest

/-- Adding records goes through exactly where the times of every record that is added can be taken
from one another. -/
theorem addUpTo_ok_iff {report after : Report} {records : List Record}
    (hsized : ∀ record ∈ records, record.Sized report.stages) :
    report.addUpTo records = .ok after ↔
      (∀ record ∈ upToLast records, record.Measured report.stages) ∧
        after = (upToLast records).foldl Report.plus report := by
  induction records generalizing report with
  | nil => simp [addUpTo, upToLast, eq_comm]
  | cons first rest ih =>
      have hfirst := hsized first List.mem_cons_self
      have hrest := @ih (report.plus first) fun record hrecord =>
        hsized record (List.mem_cons_of_mem first hrecord)
      simp only [addUpTo, upToLast, bind_ok_iff, add_ok_iff hfirst, Record.isLast,
        decide_eq_true_eq]
      by_cases hlast : first.remaining = 0
      · simp only [hlast, if_true, List.forall_mem_singleton, List.foldl_cons, List.foldl_nil]
        constructor
        · rintro ⟨_, ⟨hmeasured, rfl⟩, hdone⟩
          exact ⟨hmeasured, (Except.ok.inj hdone).symm⟩
        · rintro ⟨hmeasured, rfl⟩
          exact ⟨_, ⟨hmeasured, rfl⟩, rfl⟩
      · simp only [hlast, if_false, List.forall_mem_cons, List.foldl_cons]
        constructor
        · rintro ⟨_, ⟨hmeasured, rfl⟩, hdone⟩
          obtain ⟨hall, hafter⟩ := hrest.mp hdone
          exact ⟨⟨hmeasured, hall⟩, hafter⟩
        · rintro ⟨⟨hmeasured, hall⟩, hafter⟩
          exact ⟨_, ⟨hmeasured, rfl⟩, hrest.mpr ⟨hall, hafter⟩⟩

/-- No number overflows while the records are added one after the other: counts are words, and sums
have 128 bits. -/
structure Contained (time : Record → Nat → Int) (stages : Nat) (records : List Record) : Prop where
  count : records.length < wordLimit
  sums : ∀ stage < stages, ∀ added,
    ((records.take added).map fun record => elapsed (time record) stage (stage + 1)).sum < 2 ^ 128

end Report

section Kept

variable {log : Log} {layout : Layout} {capacity most : Nat} (h : log.Kept layout capacity most)

include h

theorem entries_sized :
    ∀ record ∈ log.entries.map fun entry => log.record entry.view, record.Sized layout.stages := by
  have hnarrow := h.sound.narrow
  rw [h.layout_eq] at hnarrow
  intro record hrecord
  rw [h.entries, List.map_map] at hrecord
  obtain ⟨index, -, rfl⟩ := List.mem_map.mp hrecord
  refine ⟨?_, hnarrow⟩
  simp only [Function.comp, Layout.entryAt, Log.record_words, List.length_map, List.length_range]
  rfl

/-- Collecting goes through exactly where the times of every record that is collected can be taken
from one another. -/
theorem collectLog_ok_iff {report : Report} : collectLog log = .ok report ↔
    (∀ record ∈ collected log, record.Measured layout.stages) ∧
      report = (collected log).foldl Report.plus (.start layout.stages) := by
  have hentries : (List.range most).map (fun index => log.record (log.layout.viewAt index)) =
      log.entries.map fun entry => log.record entry.view := by
    rw [h.entries, List.map_map, h.layout_eq]
    rfl
  rw [collectLog_stands h.sound h.framed h.fits, hentries, h.layout_eq]
  exact Report.addUpTo_ok_iff (entries_sized h)

theorem collectLog_tells {report : Report} (hcollect : collectLog log = .ok report) :
    report.Tells Record.timeAt layout.stages (collected log) := by
  obtain ⟨-, rfl⟩ := (collectLog_ok_iff h).mp hcollect
  exact (Report.start_tells _ _).foldl_plus fun record hrecord =>
    entries_sized h record ((upToLast_initial _).subset hrecord)

theorem collected_length : ((collected log).length : Int) < signedLimit := by
  have hsmall := Log.index_small h.sound h.fits
  have hlength := (upToLast_initial (log.entries.map fun entry => log.record entry.view)).length_le
  simp only [h.entries, List.length_map, List.length_range] at hlength
  rw [collected, h.entries]
  omega

end Kept

/-- However many hops of less than 65 bits are added up, the sums stay far below 128 bits. -/
theorem contained_of_hops {log : Log} {layout : Layout} {capacity most : Nat}
    (h : log.Kept layout capacity most) {time : Record → Nat → Int}
    (hhop : ∀ record : Record, ∀ stage, elapsed (time record) stage (stage + 1) ≤ 2 ^ 64) :
    Report.Contained time layout.stages (collected log) := by
  have hlength := collected_length h
  simp only [signedLimit] at hlength
  refine ⟨by simp only [wordLimit]; omega, fun stage _ added => ?_⟩
  have hhops : ∀ hop ∈ ((collected log).take added).map (fun record =>
      elapsed (time record) stage (stage + 1)), hop ≤ 2 ^ 64 := by
    intro hop hmember
    obtain ⟨record, -, rfl⟩ := List.mem_map.mp hmember
    exact hhop record stage
  have hsum := List.sum_le_card_nsmul _ _ hhops
  rw [Nat.nsmul_eq_mul, List.length_map, List.length_take] at hsum
  omega

theorem collected_contained {log : Log} {layout : Layout} {capacity most : Nat}
    (h : log.Kept layout capacity most) :
    Report.Contained (fun record slot => record.nanos slot) layout.stages (collected log) := by
  refine contained_of_hops h fun record stage => ?_
  have hword : record.nanos (stage + 1) < 2 ^ 64 := UInt64.toNat_lt _
  rw [elapsed]
  omega

section Run

open Run (Config Context)

/-- Collecting answers what its log gives. -/
theorem collect_answer (context : Context) : (collect context).2 = collectLog context.log := by
  rw [collect]
  split <;> simp [*]

/-- Collecting leaves a note in the journal of the run, and all else as it is. -/
theorem collect_leaves (context : Context) :
    (collect context).1 = { context with journal := (collect context).1.journal } := by
  rw [collect]
  split
  · rfl
  · split <;> rfl

/-- The log of a run in use keeps the frame of its records. -/
theorem used_kept {storage : Storage} {config : Config} {context : Context}
    (hcreate : Context.create storage config = .ok context) (calls : List Log.Call)
    (acts : List Gates.Act) (aborted : Bool) : ∃ capacity most,
      (context.used calls acts aborted).log.Kept ⟨config.stages⟩ capacity most := by
  obtain ⟨hholds, hlayout, huntaken⟩ := Context.create_log hcreate
  have hkept := ((Log.Sessions.begin_empty hholds huntaken).run calls).usage.log
  rw [hlayout] at hkept
  exact ⟨_, _, hkept⟩

/-- Collecting the latencies of a run, whatever its log and its gates have been through: where the
times of the records it collects are below the bound of signed words it ends with a report, and the
report tells of these records. No number overflows on the way, and but for the journal the run is
as it was. -/
theorem collect_tells {storage : Storage} {config : Config} {context : Context}
    (hcreate : Context.create storage config = .ok context) (calls : List Log.Call)
    (acts : List Gates.Act) (aborted : Bool)
    (htimes : ∀ record ∈ collected (context.used calls acts aborted).log,
      ∀ slot ≤ config.stages, record.nanos slot < 2 ^ 63) :
    let used := context.used calls acts aborted
    ∃ report, (collect used).2 = .ok report ∧
      report.Tells (fun record slot => record.nanos slot) config.stages (collected used.log) ∧
      Report.Contained (fun record slot => record.nanos slot) config.stages
        (collected used.log) ∧
      (collect used).1 = { used with journal := (collect used).1.journal } := by
  intro used
  obtain ⟨capacity, most, hkept⟩ := used_kept hcreate calls acts aborted
  have hread : ∀ record ∈ collected used.log, ∀ slot ≤ config.stages,
      record.timeAt slot = record.nanos slot := fun record hrecord slot hslot =>
    Record.timeAt_small (htimes record hrecord slot hslot)
  have hmeasured : ∀ record ∈ collected used.log, record.Measured config.stages := by
    intro record hrecord
    have hsized := entries_sized hkept record ((upToLast_initial _).subset hrecord)
    have htimely : record.Timely config.stages := by
      refine ⟨hsized, fun slot hslot => ?_⟩
      rw [hread record hrecord slot hslot]
      exact Int.natCast_nonneg _
    exact htimely.measured
  have hcollect := (collectLog_ok_iff hkept).mpr ⟨hmeasured, rfl⟩
  exact ⟨_, (collect_answer used).trans hcollect, (collectLog_tells hkept hcollect).congr hread,
    collected_contained hkept, collect_leaves used⟩

/-- Five records, of which the fourth announces no other: the second has not been through the last
stage, and the clock went back over the third. -/
theorem collect_tells_five_records :
    let calls := [.take, .use (.append [3, 1000, 2000, 4000]), .use (.append [2, 1000, 1500]),
      .use (.append [1, 8000, 6000, 5000]), .use (.append [0, 9000, 9500, 10000]),
      .use (.append [7, 1, 2, 3])]
    ∃ context, Context.create .empty (.plain 2 8 "/out") = .ok context ∧
      let used := context.used calls [] false
      (∀ record ∈ collected used.log, ∀ slot ≤ 2, record.nanos slot < 2 ^ 63) ∧
        ∃ report, (collect used).2 = .ok report ∧
          report.Tells (fun record slot => record.nanos slot) 2 (collected used.log) ∧
          report.records = 4 ∧ report.lastRemaining = some 0 ∧ report.incomplete = 1 ∧
          report.anomalies = 2 ∧ report.histogram.samples = [1000, 0, 0, 3000] ∧
          report.hopSums = [2000, 2500] := by
  intro calls
  have hshown : (Context.create .empty (.plain 2 8 "/out")).toOption.map (fun context =>
      let records := collected (context.used calls [] false).log
      (decide (∀ record ∈ records, ∀ slot ≤ 2, record.nanos slot < 2 ^ 63),
        (collect (context.used calls [] false)).2.toOption)) =
      some (true, some ⟨2, 4, some 0, 1, 2, ⟨[1000, 0, 0, 3000]⟩, [2000, 2500]⟩) := by
    decide +kernel
  cases hcreate : Context.create .empty (.plain 2 8 "/out") with
  | error problem => simp [hcreate, Except.toOption] at hshown
  | ok context =>
      simp only [hcreate, Except.toOption, Option.map_some, Option.some.injEq, Prod.mk.injEq,
        decide_eq_true_eq] at hshown
      obtain ⟨htimes, hreport⟩ := hshown
      obtain ⟨report, hcollect, htells, -⟩ := collect_tells hcreate calls [] false htimes
      rw [hcollect] at hreport
      obtain rfl := Option.some.inj hreport
      exact ⟨context, rfl, htimes, _, hcollect, htells, rfl, rfl, rfl, rfl, rfl, rfl⟩

end Run

end Latency

end GatedPipeline
