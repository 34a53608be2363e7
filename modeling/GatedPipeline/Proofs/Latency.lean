import GatedPipeline.Latency.Report
import GatedPipeline.Proofs.Log.Contents

/-!
What the latency report says of the records it is made of. Adding a record goes through exactly
where its times are not too far apart for the report's arithmetic, and times below the bound of
signed words never are. The records of a log are added in order up to the first that announces no
other.
-/

namespace GatedPipeline

theorem Word.signed_lt (word : Word) : word.signed < signedLimit := Int64.toInt_lt word.toInt64

theorem Checked.signedSub_ok_iff {a b difference : Int} : signedSub a b = .ok difference ↔
    (-signedLimit ≤ a - b ∧ a - b < signedLimit) ∧ difference = a - b := by
  rw [signedSub]
  split
  case isTrue hfits => simp only [hfits, and_self, true_and, Except.ok.injEq, eq_comm]
  case isFalse hfits => simp only [hfits, false_and, reduceCtorEq]

/-- A computation on every element of a list goes through where each of them does. -/
theorem mapM_ok_iff {ε α β : Type} {work : α → Except ε β} {works : α → Prop} {value : α → β}
    {list : List α} {values : List β}
    (h : ∀ one ∈ list, ∀ got, work one = .ok got ↔ works one ∧ got = value one) :
    list.mapM work = .ok values ↔ (∀ one ∈ list, works one) ∧ values = list.map value := by
  induction list generalizing values with
  | nil => simp [pure, Except.pure, eq_comm]
  | cons first rest ih =>
      have hrest : ∀ others, rest.mapM work = .ok others ↔
          (∀ one ∈ rest, works one) ∧ others = rest.map value :=
        fun others => ih fun one hone => h one (List.mem_cons_of_mem first hone)
      simp only [List.mapM_cons, bind_ok_iff, h first List.mem_cons_self, hrest, pure, Except.pure,
        Except.ok.injEq, List.forall_mem_cons, List.map_cons]
      constructor
      · rintro ⟨_, ⟨hfirst, rfl⟩, _, ⟨hall, rfl⟩, rfl⟩
        exact ⟨⟨hfirst, hall⟩, rfl⟩
      · rintro ⟨⟨hfirst, hall⟩, rfl⟩
        exact ⟨_, ⟨hfirst, rfl⟩, _, ⟨hall, rfl⟩, rfl⟩

namespace Record

def timeAt (record : Record) (slot : Nat) : Int := (record.words.getD (slot + 1) 0).signed

/-- The last time minus the first is a signed word. -/
def Comparable (record : Record) (first last : Nat) : Prop :=
  -signedLimit ≤ record.timeAt last - record.timeAt first ∧
    record.timeAt last - record.timeAt first < signedLimit

/-- The times of a record can be taken from one another wherever its report does so. -/
structure Measured (record : Record) (stages : Nat) : Prop where
  whole : record.Comparable 0 stages
  hops : ∀ slot < stages, record.Comparable slot (slot + 1)

/-- A record with a time for every stage and one for its production. -/
structure Sized (record : Record) (stages : Nat) : Prop where
  words : record.words.length = stages + 2
  few : stages + 2 < wordLimit

/-- A record of so many stages with times that are not negative as signed numbers. -/
structure Timely (record : Record) (stages : Nat) : Prop extends record.Sized stages where
  past : ∀ slot ≤ stages, 0 ≤ record.timeAt slot

section Sized

variable {record : Record} {stages : Nat} (h : record.Sized stages)

include h

theorem Sized.time {slot : Nat} (hslot : slot ≤ stages) :
    record.time slot = .ok (record.words.getD (slot + 1) 0) := by
  have hfew := h.few
  have hwords := h.words
  rw [Record.time, timeWord_ok (by omega) (by omega), ok_bind]
  rfl

theorem Sized.latency_eq : record.latency =
    Checked.signedSub (record.timeAt stages) (record.timeAt 0) := by
  have hstages : record.stages = stages := by rw [Record.stages, h.words, Nat.add_sub_cancel]
  rw [Record.latency, hstages, h.time (Nat.le_refl _), ok_bind, h.time (Nat.zero_le _), ok_bind]
  rfl

theorem Sized.hop_eq {slot : Nat} (hslot : slot < stages) : record.hop (slot + 1) =
    Checked.signedSub (record.timeAt (slot + 1)) (record.timeAt slot) := by
  rw [Record.hop, h.time hslot, ok_bind, Checked.sub_ok (by omega), ok_bind, Nat.add_sub_cancel,
    h.time (Nat.le_of_lt hslot), ok_bind]
  rfl

theorem Sized.latency_ok_iff {latency : Int} : record.latency = .ok latency ↔
    record.Comparable 0 stages ∧ latency = record.timeAt stages - record.timeAt 0 := by
  rw [h.latency_eq]
  exact Checked.signedSub_ok_iff

theorem Sized.hop_ok_iff {slot : Nat} (hslot : slot < stages) {hop : Int} :
    record.hop (slot + 1) = .ok hop ↔ record.Comparable slot (slot + 1) ∧
      hop = record.timeAt (slot + 1) - record.timeAt slot := by
  rw [h.hop_eq hslot]
  exact Checked.signedSub_ok_iff

end Sized

theorem Timely.measured {record : Record} {stages : Nat} (h : record.Timely stages) :
    record.Measured stages := by
  have hall : ∀ first ≤ stages, ∀ last ≤ stages, record.Comparable first last := by
    intro first hfirst last hlast
    have hpast := h.past first hfirst
    have hpast' := h.past last hlast
    have hlt : record.timeAt first < signedLimit := Word.signed_lt _
    have hlt' : record.timeAt last < signedLimit := Word.signed_lt _
    exact ⟨by omega, by omega⟩
  exact ⟨hall 0 (Nat.zero_le _) stages (Nat.le_refl _), fun slot hslot =>
    hall slot (Nat.le_of_lt hslot) (slot + 1) hslot⟩

end Record

namespace Latency

/-- How much later the last time is than the first; nothing where it is earlier. -/
def elapsed (time : Nat → Int) (first last : Nat) : Nat := (max (time last - time first) 0).toNat

theorem toNat_elapsed (time : Nat → Int) (first last : Nat) :
    (time last - time first).toNat = elapsed time first last := by
  rw [elapsed]
  omega

namespace Report

/-- What each stage of a record added after the one before it. -/
def hopsOf (record : Record) (stages : Nat) : List Nat :=
  (List.range stages).map fun slot => elapsed record.timeAt slot (slot + 1)

/-- The report with one more record whose times can be taken from one another. -/
def plus (report : Report) (record : Record) : Report :=
  ⟨report.stages, report.records + 1, some record.remaining,
    if record.isComplete then report.incomplete else report.incomplete + 1,
    if record.timeAt report.stages < record.timeAt 0 then report.anomalies + 1
      else report.anomalies,
    report.histogram.record (elapsed record.timeAt 0 report.stages),
    List.zipWith (· + ·) report.hopSums (hopsOf record report.stages)⟩

theorem hops_ok_iff {record : Record} {stages : Nat} (h : record.Sized stages) {hops : List Nat} :
    Report.hops record stages = .ok hops ↔
      (∀ slot < stages, record.Comparable slot (slot + 1)) ∧ hops = hopsOf record stages := by
  have hall : ∀ slot ∈ List.range stages, ∀ got,
      (record.hop (slot + 1) >>= fun hop => pure hop.toNat : Except Fault Nat) = .ok got ↔
        record.Comparable slot (slot + 1) ∧ got = elapsed record.timeAt slot (slot + 1) := by
    intro slot hslot got
    simp only [bind_ok_iff, h.hop_ok_iff (List.mem_range.mp hslot), pure, Except.pure,
      Except.ok.injEq, ← toNat_elapsed]
    constructor
    · rintro ⟨_, ⟨hcomparable, rfl⟩, rfl⟩
      exact ⟨hcomparable, rfl⟩
    · rintro ⟨hcomparable, rfl⟩
      exact ⟨_, ⟨hcomparable, rfl⟩, rfl⟩
  rw [Report.hops, mapM_ok_iff hall]
  simp only [List.mem_range, hopsOf]

/-- Adding a record goes through exactly where its times can be taken from one another. -/
theorem add_ok_iff {record : Record} {report after : Report} (h : record.Sized report.stages) :
    report.add record = .ok after ↔
      record.Measured report.stages ∧ after = report.plus record := by
  have hsign : record.timeAt report.stages - record.timeAt 0 < 0 ↔
      record.timeAt report.stages < record.timeAt 0 := by omega
  simp only [add, bind_ok_iff, h.latency_ok_iff, hops_ok_iff h, pure, Except.pure,
    Except.ok.injEq]
  constructor
  · rintro ⟨_, ⟨hwhole, rfl⟩, _, ⟨hhops, rfl⟩, rfl⟩
    simp only [hsign, toNat_elapsed]
    exact ⟨⟨hwhole, hhops⟩, rfl⟩
  · rintro ⟨⟨hwhole, hhops⟩, rfl⟩
    refine ⟨_, ⟨hwhole, rfl⟩, _, ⟨hhops, rfl⟩, ?_⟩
    simp only [hsign, toNat_elapsed]
    rfl

theorem add_ok {record : Record} {report : Report} (h : record.Timely report.stages) :
    report.add record = .ok (report.plus record) :=
  (add_ok_iff h.toSized).mpr ⟨h.measured, rfl⟩

/-- Adds records up to the first that announces no other. -/
def addUpTo : List Record → Report → Except Fault Report
  | [], report => .ok report
  | record :: rest, report => do
      let report ← report.add record
      if record.isLast then return report else addUpTo rest report

end Report

section Collect

variable {log : Log} {count : Nat} (hsound : log.Sound) (hframe : log.Framed count count)
  (hroom : count ≤ log.room)

include hsound hframe hroom

/-- From a cursor on, the report adds the records behind it. -/
theorem collectFrom_stands {tailer : Tailer} {index fuel : Nat} (report : Report)
    (hindex : index ≤ count) (hstands : tailer.Stands log.layout index)
    (hfuel : count - index < fuel) : collectFrom log fuel tailer report =
      report.addUpTo ((List.range' index (count - index)).map fun index =>
        log.record (log.layout.viewAt index)) := by
  induction fuel generalizing tailer index report with
  | zero => omega
  | succ fuel ih =>
      by_cases hmore : index < count
      · have hlength : count - index = count - (index + 1) + 1 := by omega
        rw [hlength, List.range'_succ, List.map_cons, Report.addUpTo, collectFrom,
          Tailer.read_committed hsound hframe hroom hmore hstands]
        dsimp only [Layout.entryAt]
        cases report.add (log.record (log.layout.viewAt index)) with
        | error fault => rfl
        | ok added =>
            rw [ok_bind, ok_bind]
            split
            · rfl
            · exact ih added hmore (Tailer.end_stands log.layout (index + 1)) (by omega)
      · obtain rfl : index = count := by omega
        rw [collectFrom, Tailer.read_nothing hsound hframe hroom hstands]
        simp [Report.addUpTo]

/-- The whole report adds the committed records. -/
theorem collectLog_stands : collectLog log = Report.addUpTo ((List.range count).map fun index =>
    log.record (log.layout.viewAt index)) (.start log.layout.stages) := by
  have hend := Log.endAfter_le_capacity hsound hroom
  have hmul := log.layout.mul_le_endAfter count
  rw [collectLog, collectFrom_stands hsound hframe hroom _ (Nat.zero_le _)
    (Tailer.start_stands log.layout) (by omega), Nat.sub_zero, ← List.range_eq_range']

end Collect

theorem collectLog_eq {log : Log} {count : Nat} {content : Nat → Nat → Word}
    (h : log.Holds count content) :
    collectLog log = Report.addUpTo ((List.range count).map fun index =>
      ⟨(List.range log.layout.words).map (content index)⟩) (.start log.layout.stages) := by
  rw [collectLog_stands h.sound h.framed h.fits]
  simp only [Log.record_viewAt h]

/-- A record that went through: every slot has a time, and the last is not before production. -/
structure Through (record : Record) (stages : Nat) : Prop extends record.Timely stages where
  complete : record.isComplete = true
  forward : record.timeAt 0 ≤ record.timeAt stages

/-- The report after some records: so many more, none incomplete and none that went backwards. -/
structure Report.Clean (report : Report) (more : Nat) (after : Report) : Prop where
  stages : after.stages = report.stages
  records : after.records = report.records + more
  incomplete : after.incomplete = report.incomplete
  anomalies : after.anomalies = report.anomalies
  samples : after.histogram.total = report.histogram.total + more

private theorem add_clean {record : Record} {report : Report}
    (h : Through record report.stages) : ∃ after, report.add record = .ok after ∧
      report.Clean 1 after ∧ after.lastRemaining = some record.remaining := by
  exact ⟨_, Report.add_ok h.toTimely, ⟨rfl, rfl, if_pos h.complete,
    if_neg (Int.not_lt.mpr h.forward), rfl⟩, rfl⟩

/-- Records that all went through and that count down to the last one are all in the report. -/
theorem addUpTo_run {count : Nat} {record : Nat → Record} {stages : Nat}
    (hthrough : ∀ index < count, Through (record index) stages)
    (hremaining : ∀ index < count, (record index).remaining = ((count - 1 - index : Nat) : Int))
    {index : Nat} (hindex : index < count) (report : Report) (hstages : report.stages = stages) :
    ∃ after, report.addUpTo ((List.range' index (count - index)).map record) = .ok after ∧
      report.Clean (count - index) after ∧ after.lastRemaining = some 0 := by
  obtain ⟨left, hleft⟩ : ∃ left, count - index = left + 1 := ⟨count - index - 1, by omega⟩
  induction left generalizing index report with
  | zero =>
      have hfirst := hthrough index hindex
      rw [← hstages] at hfirst
      obtain ⟨after, hadd, hclean, hlast⟩ := add_clean hfirst
      have hzero : (record index).remaining = 0 := by
        rw [hremaining index hindex]
        omega
      rw [hleft, List.range'_succ, List.map_cons, Report.addUpTo, hadd, ok_bind]
      refine ⟨after, ?_, hclean, by rw [hlast, hzero]⟩
      simp only [Record.isLast, hzero, decide_true, if_true]
      rfl
  | succ left ih =>
      have hfirst := hthrough index hindex
      rw [← hstages] at hfirst
      obtain ⟨after, hadd, hclean, hlast⟩ := add_clean hfirst
      have hmore : (record index).remaining ≠ 0 := by
        rw [hremaining index hindex]
        omega
      have hnext : count - (index + 1) = left + 1 := by omega
      obtain ⟨final, hrest, hfinal, hzero⟩ := ih (show index + 1 < count by omega) after
        (hclean.stages.trans hstages) hnext
      rw [hnext] at hrest hfinal
      rw [hleft, List.range'_succ, List.map_cons, Report.addUpTo, hadd, ok_bind]
      refine ⟨final, ?_, ⟨hfinal.stages.trans hclean.stages, ?_,
        hfinal.incomplete.trans hclean.incomplete, hfinal.anomalies.trans hclean.anomalies, ?_⟩,
        hzero⟩
      · simp only [Record.isLast, hmore, decide_false, Bool.false_eq_true, if_false]
        exact hrest
      · rw [hfinal.records, hclean.records]
        omega
      · rw [hfinal.samples, hclean.samples]
        omega

end Latency

end GatedPipeline
