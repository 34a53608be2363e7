import Mathlib.Algebra.BigOperators.Ring.Finset
import GatedPipeline.Proofs.Latency.Collection

/-!
Hops account for the latency. What a record's times rise over its hops, less what they fall, is the
time it took in all; hops that go back count as none, so the hops of a record add up to its latency
or more, and to the latency itself where they all go one way. Summed over the records of a report
that is what its hop sums are to its samples.
-/

namespace GatedPipeline

/-- A table of numbers has the same sum by rows and by columns. -/
theorem sum_map_swap {α β : Type} (rows : List α) (columns : List β) (entry : α → β → Nat) :
    (rows.map fun row => (columns.map (entry row)).sum).sum =
      (columns.map fun column => (rows.map fun row => entry row column).sum).sum := by
  induction rows with
  | nil => simp
  | cons first rest ih =>
      simp only [List.map_cons, List.sum_cons, List.sum_map_add, ih]

/-- Sums of terms that are at most as great are equal exactly where the terms are. -/
theorem sum_eq_iff_of_le {α : Type} {list : List α} {small great : α → Nat}
    (h : ∀ one ∈ list, small one ≤ great one) :
    (list.map great).sum = (list.map small).sum ↔ ∀ one ∈ list, great one = small one := by
  constructor
  · intro hsum one hone
    apply Nat.le_antisymm _ (h one hone)
    apply Nat.le_of_not_lt
    intro hless
    have hstrict := List.sum_lt_sum small great h ⟨one, hone, hless⟩
    omega
  · intro hall
    rw [List.map_congr_left hall]

namespace Latency

/-- What times rise in all over so many hops, where a fall counts as none. -/
def rise (time : Nat → Int) (hops : Nat) : Nat :=
  ((List.range hops).map fun slot => elapsed time slot (slot + 1)).sum

/-- What they fall: what they would rise with the sign turned. -/
def fall (time : Nat → Int) (hops : Nat) : Nat := rise (fun slot => -time slot) hops

section Times

variable (time : Nat → Int) (hops : Nat)

theorem rise_eq_zero_iff :
    rise time hops = 0 ↔ ∀ slot < hops, time (slot + 1) - time slot ≤ 0 := by
  rw [rise, List.sum_eq_zero_iff_forall_eq_nat]
  simp only [List.forall_mem_map, List.mem_range, elapsed]
  refine forall_congr' fun slot => forall_congr' fun _ => ?_
  omega

theorem fall_eq_zero_iff :
    fall time hops = 0 ↔ ∀ slot < hops, 0 ≤ time (slot + 1) - time slot := by
  rw [fall, rise_eq_zero_iff]
  refine forall_congr' fun slot => forall_congr' fun _ => ?_
  omega

/-- The times in between cancel out. -/
theorem rise_sub_fall : (rise time hops : Int) - fall time hops = time hops - time 0 := by
  induction hops with
  | zero => simp [fall, rise]
  | succ hops ih =>
      simp only [fall, rise, List.sum_range_succ, elapsed] at ih ⊢
      omega

theorem elapsed_le_rise : elapsed time 0 hops ≤ rise time hops := by
  have hwhole := rise_sub_fall time hops
  rw [elapsed]
  omega

/-- Nothing is lost by counting falls as none where there are no falls, and where there is nothing
but falls. -/
theorem rise_eq_elapsed_iff : rise time hops = elapsed time 0 hops ↔
    (∀ slot < hops, 0 ≤ time (slot + 1) - time slot) ∨
      ∀ slot < hops, time (slot + 1) - time slot ≤ 0 := by
  have hwhole := rise_sub_fall time hops
  rw [← fall_eq_zero_iff, ← rise_eq_zero_iff, elapsed]
  omega

theorem rise_eq_of_forward (hforward : ∀ slot < hops, 0 ≤ time (slot + 1) - time slot) :
    (rise time hops : Int) = time hops - time 0 := by
  have hwhole := rise_sub_fall time hops
  rw [(fall_eq_zero_iff time hops).mpr hforward] at hwhole
  omega

end Times

namespace Report

/-- How the hop sums of a report relate to its samples, over the records it is made of. -/
structure Accounts (report : Report) (stages : Nat) (records : List Record) : Prop where
  tells : report.Tells Record.timeAt stages records
  covered : report.histogram.samples.sum ≤ report.hopSums.sum
  exact_iff : report.hopSums.sum = report.histogram.samples.sum ↔ ∀ record ∈ records,
    (∀ slot < stages, 0 ≤ record.timeAt (slot + 1) - record.timeAt slot) ∨
      ∀ slot < stages, record.timeAt (slot + 1) - record.timeAt slot ≤ 0
  forward : (∀ record ∈ records, ∀ slot < stages, record.timeAt slot ≤ record.timeAt (slot + 1)) →
    (report.hopSums.sum : Int) =
      (records.map fun record => record.timeAt stages - record.timeAt 0).sum

section Tells

variable {report : Report} {stages : Nat} {records : List Record}
  (h : report.Tells Record.timeAt stages records)

include h

theorem Tells.hopSums_sum :
    report.hopSums.sum = (records.map fun record => rise record.timeAt stages).sum := by
  rw [h.hopSums]
  exact (sum_map_swap records (List.range stages) fun record slot =>
    elapsed record.timeAt slot (slot + 1)).symm

theorem Tells.samples_sum : report.histogram.samples.sum =
    (records.map fun record => elapsed record.timeAt 0 stages).sum := by
  rw [← h.samples, List.sum_reverse]

theorem Tells.accounts : report.Accounts stages records := by
  have hle : ∀ record ∈ records, elapsed record.timeAt 0 stages ≤ rise record.timeAt stages :=
    fun record _ => elapsed_le_rise record.timeAt stages
  refine ⟨h, ?_, ?_, fun hforward => ?_⟩
  · rw [h.hopSums_sum, h.samples_sum]
    exact List.sum_le_sum hle
  · rw [h.hopSums_sum, h.samples_sum, sum_eq_iff_of_le hle]
    simp only [rise_eq_elapsed_iff]
  · have hrise : ∀ record ∈ records, (rise record.timeAt stages : Int) =
        record.timeAt stages - record.timeAt 0 := by
      intro record hrecord
      apply rise_eq_of_forward
      exact fun slot hslot => Int.sub_nonneg_of_le (hforward record hrecord slot hslot)
    rw [h.hopSums_sum, Nat.cast_list_sum, List.map_map]
    exact congrArg List.sum (List.map_congr_left hrise)

end Tells

end Report

section Run

open Run (Config Context)

/-- Wherever the latencies of a run can be collected, whatever its log and its gates have been
through, the hop sums of the report cover its samples, exactly so where no record has hops both
ways; if no record goes back they add up to the time that all records took. -/
theorem hops_account {storage : Storage} {config : Config} {context : Context}
    (hcreate : Context.create storage config = .ok context) (calls : List Log.Call)
    (acts : List Gates.Act) (aborted : Bool) {report : Report}
    (hcollect : (collect (context.used calls acts aborted)).2 = .ok report) :
    report.Accounts config.stages (collected (context.used calls acts aborted).log) := by
  obtain ⟨capacity, most, hkept⟩ := used_kept hcreate calls acts aborted
  rw [collect_answer] at hcollect
  exact (collectLog_tells hkept hcollect).accounts

/-- Three records: one forward, one that goes back over both stages and one that goes forward over
the first stage and has no time for the second. The last one has a hop that its latency lacks. -/
theorem hops_account_missing_time :
    let calls := [.take, .use (.append [2, 1000, 2000, 4000]),
      .use (.append [1, 8000, 6000, 5000]), .use (.append [0, 1000, 1500])]
    ∃ context, Context.create .empty (.plain 2 3 "/out") = .ok context ∧
      ∃ report, (collect (context.used calls [] false)).2 = .ok report ∧
        report.Accounts 2 (collected (context.used calls [] false).log) ∧
        report.histogram.samples.sum = 3000 ∧ report.hopSums.sum = 3500 := by
  intro calls
  have hshown : (Context.create .empty (.plain 2 3 "/out")).toOption.map (fun context =>
      (collect (context.used calls [] false)).2.toOption.map fun report =>
        (report.histogram.samples.sum, report.hopSums.sum)) = some (some (3000, 3500)) := by
    decide +kernel
  cases hcreate : Context.create .empty (.plain 2 3 "/out") with
  | error problem => simp [hcreate, Except.toOption] at hshown
  | ok context =>
      cases hcollect : (collect (context.used calls [] false)).2 with
      | error fault => simp [hcreate, hcollect, Except.toOption] at hshown
      | ok report =>
          simp only [hcreate, hcollect, Except.toOption, Option.map_some, Option.some.injEq,
            Prod.mk.injEq] at hshown
          exact ⟨context, rfl, report, hcollect, hops_account hcreate calls [] false hcollect,
            hshown⟩

end Run

end Latency

end GatedPipeline
