import Mathlib.Tactic.SplitIfs
import GatedPipeline.Proofs.Latency.Collection

/-!
Collecting over any words. Times are words of which two are taken from one another as signed
numbers. That fails for two times on the two sides of `2 ^ 63` that are near to each other, and
collecting breaks at the first record where such two are compared. In all other cases it ends with a
report, which counts a record as one that went back if it did, but if it did not where `2 ^ 63` lies
between its first time and its last.
-/

namespace GatedPipeline

/-- A computation on every element breaks in one way only if it does so on each. -/
theorem mapM_error {ε α β : Type} {work : α → Except ε β} {list : List α} {error : ε}
    (h : ∀ one ∈ list, ∀ fault, work one = .error fault → fault = error) {fault : ε}
    (hfails : list.mapM work = .error fault) : fault = error := by
  induction list with
  | nil => cases hfails
  | cons first rest ih =>
      simp only [List.mapM_cons, bind_error_iff] at hfails
      rcases hfails with hfirst | ⟨_, -, hrest | ⟨_, -, hnever⟩⟩
      · exact h first List.mem_cons_self fault hfirst
      · exact ih (fun one hone => h one (List.mem_cons_of_mem first hone)) hrest
      · cases hnever

theorem Checked.signedSub_error {a b : Int} {fault : Fault} (h : signedSub a b = .error fault) :
    fault = .subtractOverflow := by
  rw [signedSub] at h
  split at h <;> cases h
  rfl

namespace Record

/-- `2 ^ 63` lies between two times. -/
def Split (record : Record) (first last : Nat) : Prop :=
  ¬ (record.nanos first < 2 ^ 63 ↔ record.nanos last < 2 ^ 63)

instance (record : Record) (first last : Nat) : Decidable (record.Split first last) :=
  inferInstanceAs (Decidable (¬ _))

/-- `2 ^ 63` lies between two times that are nearer to each other than that, or just as far apart if
the first is the greater. -/
def Torn (record : Record) (first last : Nat) : Prop :=
  (record.nanos first < 2 ^ 63 ∧ 2 ^ 63 ≤ record.nanos last ∧
      record.nanos last < record.nanos first + 2 ^ 63) ∨
    (record.nanos last < 2 ^ 63 ∧ 2 ^ 63 ≤ record.nanos first ∧
      record.nanos first ≤ record.nanos last + 2 ^ 63)

theorem Torn.split {record : Record} {first last : Nat} (h : record.Torn first last) :
    record.Split first last := by
  simp only [Torn, Split] at h ⊢
  omega

theorem nanos_lt (record : Record) (slot : Nat) : record.nanos slot < 2 ^ 64 := UInt64.toNat_lt _

theorem timeAt_eq (record : Record) (slot : Nat) : record.timeAt slot =
    if record.nanos slot < 2 ^ 63 then (record.nanos slot : Int)
    else record.nanos slot - 2 ^ 64 := by
  have hlow : (record.nanos slot : Int) < signedLimit ↔ record.nanos slot < 2 ^ 63 := by
    simp only [signedLimit]
    omega
  rw [timeAt, Word.signed_eq]
  exact if_congr hlow rfl rfl

variable {record : Record} {stages : Nat}

/-- The times that cannot be taken from one another, as the words they are. -/
theorem comparable_iff {first last : Nat} : record.Comparable first last ↔
    ¬ record.Torn first last := by
  have hfirst := record.nanos_lt first
  have hlast := record.nanos_lt last
  simp only [Comparable, Torn, timeAt_eq, signedLimit]
  split_ifs <;> omega

theorem measured_iff : record.Measured stages ↔
    ¬ record.Torn 0 stages ∧ ∀ slot < stages, ¬ record.Torn slot (slot + 1) := by
  simp only [← comparable_iff]
  exact ⟨fun h => ⟨h.whole, h.hops⟩, fun h => ⟨h.1, h.2⟩⟩

/-- The signed comparison is the other way round where the times are on two sides. -/
theorem timeAt_lt_iff {first last : Nat} : record.timeAt last < record.timeAt first ↔
    ¬ (record.nanos last < record.nanos first ↔ record.Split first last) := by
  have hfirst := record.nanos_lt first
  have hlast := record.nanos_lt last
  simp only [Split, timeAt_eq]
  split_ifs <;> omega

theorem timeAt_eq_zero {slot : Nat} : record.timeAt slot = 0 ↔ record.nanos slot = 0 := by
  have hslot := record.nanos_lt slot
  rw [timeAt_eq]
  split_ifs <;> omega

/-- Times on one side are as far from one another with a sign as without. -/
theorem timeAt_sub {first last : Nat} (h : ¬ record.Split first last) :
    record.timeAt last - record.timeAt first = record.nanos last - record.nanos first := by
  simp only [Split, not_not] at h
  simp only [timeAt_eq, h]
  split_ifs <;> omega

end Record

namespace Latency

namespace Report

theorem hops_error {record : Record} {stages : Nat} (h : record.Sized stages) {fault : Fault}
    (hfails : Report.hops record stages = .error fault) : fault = .subtractOverflow := by
  refine mapM_error (fun slot hslot other hother => ?_) hfails
  rcases bind_error_iff.mp hother with hhop | ⟨_, -, hnever⟩
  · rw [h.hop_eq (List.mem_range.mp hslot)] at hhop
    exact Checked.signedSub_error hhop
  · cases hnever

theorem add_error {record : Record} {report : Report} (h : record.Sized report.stages)
    {fault : Fault} (hfails : report.add record = .error fault) : fault = .subtractOverflow := by
  simp only [add, bind_error_iff, h.latency_eq] at hfails
  rcases hfails with hlatency | ⟨_, -, hhops | ⟨_, -, hnever⟩⟩
  · exact Checked.signedSub_error hlatency
  · exact hops_error h hhops
  · cases hnever

theorem addUpTo_error {report : Report} {records : List Record}
    (hsized : ∀ record ∈ records, record.Sized report.stages) {fault : Fault}
    (hfails : report.addUpTo records = .error fault) : fault = .subtractOverflow := by
  induction records generalizing report with
  | nil => cases hfails
  | cons first rest ih =>
      have hfirst := hsized first List.mem_cons_self
      simp only [addUpTo, bind_error_iff] at hfails
      rcases hfails with hadd | ⟨added, hadd, hrest⟩
      · exact add_error hfirst hadd
      · obtain ⟨-, rfl⟩ := (add_ok_iff hfirst).mp hadd
        split at hrest
        · cases hrest
        · exact @ih (report.plus first)
            (fun record hrecord => hsized record (List.mem_cons_of_mem first hrecord)) hrest

end Report

/-- What collecting over records answers, whatever their words. There is a report exactly where no
two times that are compared are torn, and otherwise a subtraction overflows. The report tells of the
times as signed numbers. By `anomalies` this differs from the times as they are where `2 ^ 63` lies
between the first and the last time of a record, and by `oneSided` it does not where `2 ^ 63` lies
between no two times of a record. -/
structure Answers (stages : Nat) (records : List Record) (answer : Except Fault Report) :
    Prop where
  reports : (∃ report, answer = .ok report) ↔
    ∀ record ∈ records, ¬ record.Torn 0 stages ∧ ∀ slot < stages, ¬ record.Torn slot (slot + 1)
  breaks : ∀ fault, answer = .error fault → fault = .subtractOverflow
  contained : Report.Contained Record.timeAt stages records
  signed : ∀ report, answer = .ok report → report.Tells Record.timeAt stages records
  anomalies : ∀ report, answer = .ok report → report.anomalies = records.countP fun record =>
    ¬ (record.nanos stages < record.nanos 0 ↔ record.Split 0 stages)
  oneSided : (∀ record ∈ records, ∀ first ≤ stages, ∀ last ≤ stages, ¬ record.Split first last) →
    ∃ report, answer = .ok report ∧
      report.Tells (fun record slot => record.nanos slot) stages records

theorem collectLog_error {log : Log} {layout : Layout} {capacity most : Nat}
    (h : log.Kept layout capacity most) {fault : Fault} (hfails : collectLog log = .error fault) :
    fault = .subtractOverflow := by
  have hsized := entries_sized h
  rw [h.entries, List.map_map] at hsized
  rw [collectLog_stands h.sound h.framed h.fits, h.layout_eq] at hfails
  refine Report.addUpTo_error (fun record hrecord => hsized record ?_) hfails
  obtain ⟨index, hindex, rfl⟩ := List.mem_map.mp hrecord
  exact List.mem_map.mpr ⟨index, hindex, by simp [Layout.entryAt]⟩

theorem collectLog_answers {log : Log} {layout : Layout} {capacity most : Nat}
    (h : log.Kept layout capacity most) :
    Answers layout.stages (collected log) (collectLog log) := by
  have htells := fun report => @collectLog_tells log layout capacity most h report
  constructor
  case reports =>
    simp only [← Record.measured_iff]
    constructor
    · rintro ⟨report, hreport⟩
      exact ((collectLog_ok_iff h).mp hreport).1
    · exact fun hmeasured => ⟨_, (collectLog_ok_iff h).mpr ⟨hmeasured, rfl⟩⟩
  case breaks => exact fun fault => collectLog_error h
  case contained =>
    refine contained_of_hops h fun record stage => ?_
    have hfirst := record.nanos_lt stage
    have hlast := record.nanos_lt (stage + 1)
    rw [elapsed, Record.timeAt_eq, Record.timeAt_eq]
    split_ifs <;> omega
  case signed => exact htells
  case anomalies =>
    intro report hreport
    simpa only [Record.timeAt_lt_iff] using (htells report hreport).anomalies
  case oneSided =>
    intro hsides
    have hmeasured : ∀ record ∈ collected log, record.Measured layout.stages := by
      intro record hrecord
      have hwhole := hsides record hrecord
      exact Record.measured_iff.mpr
        ⟨fun htorn => hwhole 0 (Nat.zero_le _) _ (Nat.le_refl _) htorn.split,
          fun slot hslot htorn =>
          hwhole slot (Nat.le_of_lt hslot) (slot + 1) hslot htorn.split⟩
    have hcollect := (collectLog_ok_iff h).mpr ⟨hmeasured, rfl⟩
    exact ⟨_, hcollect, (htells _ hcollect).alike
      (fun record _ slot _ => Record.timeAt_eq_zero.trans Int.natCast_eq_zero.symm)
      fun record hrecord first hfirst last hlast =>
        Record.timeAt_sub (hsides record hrecord first hfirst last hlast)⟩

section Run

open Run (Config Context)

/-- Collecting the latencies of a run, whatever its log and its gates have been through and whatever
words its records hold. -/
theorem collect_any_words {storage : Storage} {config : Config} {context : Context}
    (hcreate : Context.create storage config = .ok context) (calls : List Log.Call)
    (acts : List Gates.Act) (aborted : Bool) :
    Answers config.stages (collected (context.used calls acts aborted).log)
      (collect (context.used calls acts aborted)).2 := by
  obtain ⟨capacity, most, hkept⟩ := used_kept hcreate calls acts aborted
  rw [collect_answer]
  exact collectLog_answers hkept

/-- Two records whose times are all beyond `2 ^ 63`, and one that comes down from there. -/
theorem collect_any_words_beyond :
    let calls := [.take, .use (.append [2, 9223372036854775808, 9223372036854776808]),
      .use (.append [1, 9223372036854779000, 9223372036854777000]),
      .use (.append [0, 18446744073709551615, 5])]
    ∃ context, Context.create .empty (.plain 1 8 "/out") = .ok context ∧
      ∃ report, (collect (context.used calls [] false)).2 = .ok report ∧ report.records = 3 ∧
        report.anomalies = 1 ∧ report.histogram.samples = [6, 0, 1000] ∧
        Answers 1 (collected (context.used calls [] false).log)
          (collect (context.used calls [] false)).2 := by
  intro calls
  have hshown : (Context.create .empty (.plain 1 8 "/out")).toOption.map (fun context =>
      (collect (context.used calls [] false)).2.toOption) =
      some (some ⟨1, 3, some 0, 0, 1, ⟨[6, 0, 1000]⟩, [1006]⟩) := by
    decide +kernel
  cases hcreate : Context.create .empty (.plain 1 8 "/out") with
  | error problem => simp [hcreate, Except.toOption] at hshown
  | ok context =>
      simp only [hcreate, Except.toOption, Option.map_some, Option.some.injEq] at hshown
      have hanswers := collect_any_words hcreate calls [] false
      cases hcollect : (collect (context.used calls [] false)).2 with
      | error fault => simp [hcollect] at hshown
      | ok report =>
          rw [hcollect] at hshown
          obtain rfl := Option.some.inj hshown
          exact ⟨context, rfl, _, hcollect, rfl, rfl, rfl, hanswers⟩

/-- A record that took `2 ^ 63 - 1` breaks the report, and one that went forward over `2 ^ 63` is
counted as one that went back. -/
theorem collect_any_words_torn :
    ∃ context, Context.create .empty (.plain 1 8 "/out") = .ok context ∧
      (collect (context.used [.take, .use (.append [0, 1, 9223372036854775808])] [] false)).2 =
        .error .subtractOverflow ∧
      let used := context.used [.take, .use (.append [0, 5, 18446744073709551615])] [] false
      ((collected used.log).map fun record => (record.nanos 0, record.nanos 1)) =
          [(5, 18446744073709551615)] ∧
        (collect used).2.toOption.map Report.anomalies = some 1 := by
  have hshown : (Context.create .empty (.plain 1 8 "/out")).toOption.map (fun context =>
      let used := context.used [.take, .use (.append [0, 5, 18446744073709551615])] [] false
      ((collect (context.used [.take, .use (.append [0, 1, 9223372036854775808])] [] false)).2,
        (collected used.log).map fun record => (record.nanos 0, record.nanos 1),
        (collect used).2.toOption.map Report.anomalies)) =
      some (.error .subtractOverflow, [(5, 18446744073709551615)], some 1) := by
    decide +kernel
  cases hcreate : Context.create .empty (.plain 1 8 "/out") with
  | error problem => simp [hcreate, Except.toOption] at hshown
  | ok context =>
      simp only [hcreate, Except.toOption, Option.map_some, Option.some.injEq,
        Prod.mk.injEq] at hshown
      exact ⟨context, rfl, hshown⟩

end Run

end Latency

end GatedPipeline
