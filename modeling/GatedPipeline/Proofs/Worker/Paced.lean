import GatedPipeline.Proofs.Worker.Delays
import GatedPipeline.Proofs.Worker.Produced

/-!
Pacing. A paced producer waits in front of each record until the clock has come to the record's
deadline: its start and one interval for each record before. Nothing guards that sum, and a run may
have any number of records. It stays in the words because the producer has waited before: a record
is at hand only when the one in front of it was due, so no deadline is more than one interval ahead
of the clock. What the other workers do meanwhile has no part in this.
-/

namespace GatedPipeline

namespace Log

/-- A header ends on a boundary, and does not stand in front of the position it follows. -/
theorem headerAfter_exact {position header : Nat} (h : headerAfter position = .ok header) :
    position ≤ header ∧ (header + headerBytes) % alignment = 0 := by
  simp only [headerAfter, bind_ok_iff, Checked.roundUp] at h
  obtain ⟨sum, hsum, boundary, hboundary, hheader⟩ := h
  have hsum := Checked.add_exact hsum
  have hboundary := Checked.mul_exact hboundary
  have hheader := Checked.sub_exact hheader
  simp only [headerBytes, alignment] at *
  omega

/-- Whatever a log holds, a slot has its body behind its header and behind the last entry. -/
theorem slot_exact {log : Log} {appender : Appender} {slot : Slot}
    (h : log.slot appender = .ok slot) : appender.position ≤ slot.header ∧
      slot.header + headerBytes = slot.body ∧ slot.body % alignment = 0 ∧
        2 < log.layout.words := by
  simp only [Log.slot, bind_ok_iff, orBroken_ok_iff, check_ok_iff] at h
  obtain ⟨header, hheader, body, hbody, stop, -, -, hwords, -, -, -, -, -, -, -, -, hslot⟩ := h
  cases hslot
  obtain ⟨hbefore, haligned⟩ := headerAfter_exact hheader
  have hbody := Checked.add_exact hbody
  exact ⟨hbefore, hbody.symm, hbody ▸ haligned, Nat.not_le.mp hwords⟩

/-- The first time of a record is its second word. -/
theorem record_production (log : Log) {body words : Nat} (haligned : body % 8 = 0)
    (hwords : 1 < words) :
    (log.record ⟨body, words⟩).times.getD 0 0 = log.word (body + 8) := by
  have hword : (body + 8) / 8 = body / 8 + 1 := by omega
  simp only [record, Record.times, Words.slice, word, hword, List.getD_eq_getElem?_getD,
    List.getElem?_drop, List.getElem?_map, List.getElem?_range hwords, Option.map_some,
    Option.getD_some, Nat.add_zero]

/-- An append that goes through leaves the producer's clock reading in the record, in its place for
the time of production. -/
theorem appendWith_production {log after : Log} {appender later : Appender}
    {count index now written : Nat}
    (happend : log.appendWith appender (Worker.Producer.fill count index now) =
      (after, later, .ok written)) : written = appender.next ∧ later.next = appender.next + 1 ∧
        ∃ slot, log.slot appender = .ok slot ∧
          (after.record ⟨slot.body, log.layout.words⟩).times.getD 0 0 = UInt64.ofNat now := by
  cases hslot : log.slot appender with
  | error problem =>
      simp only [Log.appendWith, Log.plan, hslot, Prod.mk.injEq, reduceCtorEq, and_false] at happend
  | ok slot =>
      obtain ⟨hbefore, hbody, haligned, hwords⟩ := slot_exact hslot
      simp only [headerBytes, alignment] at hbody haligned
      have hremaining := Edit.target_remaining log.layout.words (by omega)
        (Worker.Producer.toCome count index)
      have hstamp : (Edit.stamp 0 (UInt64.ofNat now)).target log.layout.words =
          .ok (1, UInt64.ofNat now) := by
        have hone : Checked.add 1 0 = .ok 1 := Checked.add_ok (by decide)
        rw [Edit.target, timeWord, hone, ok_bind, if_pos (by omega)]
        rfl
      have hfill : fillStores slot.body log.layout.words (Worker.Producer.fill count index now) =
          ([.word (slot.body + 0 * 8) (Word.ofSigned (Worker.Producer.toCome count index)),
            .word (slot.body + 1 * 8) (UInt64.ofNat now)], .ok ()) := by
        simp only [Worker.Producer.fill, fillStores, hremaining, hstamp]
      simp only [Log.appendWith, Log.plan, hslot, hfill] at happend
      cases happend
      refine ⟨rfl, rfl, slot, rfl, ?_⟩
      rw [record_production _ (by omega) (by omega), List.append_assoc, storeAll_append,
        word_storeAll_elsewhere]
      · simp only [storeAll, List.foldl_cons, List.foldl_nil, store, word_setWord]
        exact if_pos trivial
      · -- the filler and the header go in front of the body
        intro position value hstore
        simp only [paddingStores, List.mem_append, List.mem_cons, List.not_mem_nil, or_false,
          Store.word.injEq, reduceCtorEq] at hstore
        rcases hstore with hpadding | ⟨rfl, -⟩
        · split_ifs at hpadding
          · cases hpadding
          · cases hpadding with
            | head => omega
            | tail _ hnone => cases hnone
        · omega

end Log

namespace Run.Context

/-- An appender that is taken is one that has appended nothing. -/
theorem takeAppender_next {context after : Context} {appender : Appender}
    (h : context.takeAppender = (after, .ok appender)) : appender.next = 0 := by
  have hlog := onLog_log h
  unfold Log.takeAppender at hlog
  split_ifs at hlog with htaken
  · cases congrArg (·.2) hlog
  · cases congrArg (·.2) hlog
    rfl

end Run.Context

namespace Worker.Producer

/-- Readings of a clock that never goes back. -/
structure Clocked (readings : List Nat) : Prop where
  forward : readings.Pairwise (· ≤ ·)
  words : ∀ now ∈ readings, now < wordLimit

theorem Clocked.below {readings : List Nat} {now : Nat} (h : Clocked (readings ++ [now])) :
    now < wordLimit :=
  h.words now (List.mem_append_right _ (List.mem_singleton_self now))

theorem Clocked.before {readings more : List Nat} (h : Clocked (readings ++ more)) :
    Clocked readings :=
  ⟨(List.pairwise_append.mp h.forward).1, fun now hnow => h.words now (List.mem_append_left _ hnow)⟩

/-- Readings of a clock that never goes back and stays more than a second below the words' bound. -/
structure Steady (readings : List Nat) : Prop where
  forward : readings.Pairwise (· ≤ ·)
  small : ∀ now ∈ readings, now < wordLimit - second

theorem Steady.clocked {readings : List Nat} (h : Steady readings) : Clocked readings :=
  ⟨h.forward, fun now hnow => Nat.lt_of_lt_of_le (h.small now hnow) (Nat.sub_le _ _)⟩

/-- Later readings do not change which one is the start. -/
theorem start_kept {readings : List Nat} {start : Nat} (h : readings[1]? = some start)
    (more : List Nat) : (readings ++ more)[1]? = some start := by
  obtain ⟨hlt, -⟩ := List.getElem?_eq_some_iff.mp h
  rw [List.getElem?_append_left hlt, h]

/-- A producer after turns with these clock readings, one for each turn: the first turn takes the
appender and the second reads the start. In front of every turn the others may have done anything to
the shared state of the run. -/
inductive Lives (config : Run.Config) (pause : Pause) : (readings : List Nat) → Producer → Prop
  | start : Lives config pause [] (.start pause)
  | turn {readings : List Nat} {producer : Producer} (h : Lives config pause readings producer)
      (context : Run.Context) (hconfig : context.config = config) (now : Nat) :
      Lives config pause (readings ++ [now]) (producer.turn now context).2

/-- The producer counts from its second reading, and some reading is at most so much before the
deadline of the record at hand. -/
structure Progress.Scheduled (interval ahead : Nat) (readings : List Nat) (progress : Progress) :
    Prop where
  given : progress.interval = interval
  start : readings[1]? = some progress.start
  next : progress.appender.next = progress.index
  reached : ∃ reading ∈ readings, progress.start + progress.index * interval ≤ reading + ahead

/-- The record at hand may be an interval away; a record that is to be written is due. -/
def Scheduled (interval : Nat) (readings : List Nat) (producer : Producer) : Prop :=
  match producer.phase with
  | .begin => readings = []
  | .readStart appender given => given = interval ∧ appender.next = 0 ∧ readings.length = 1
  | .ready progress | .missed progress => progress.Scheduled interval interval readings
  | .write progress => progress.Scheduled interval 0 readings
  | .over _ => True

section Scheduled

variable {config : Run.Config} {interval : Nat} {readings : List Nat} {pause : Pause}
  {producer : Producer} {progress : Progress}

theorem Progress.Scheduled.read {ahead : Nat} (h : progress.Scheduled interval ahead readings)
    (now : Nat) : progress.Scheduled interval ahead (readings ++ [now]) := by
  obtain ⟨reading, hreading, hreached⟩ := h.reached
  exact ⟨h.given, start_kept h.start [now], h.next, reading, List.mem_append_left _ hreading,
    hreached⟩

/-- A record that is written now is written at its deadline or later. -/
theorem Progress.Scheduled.since {now : Nat} (h : progress.Scheduled interval 0 readings)
    (hclocked : Clocked (readings ++ [now])) :
    progress.start + progress.index * interval ≤ now := by
  obtain ⟨reading, hreading, hreached⟩ := h.reached
  exact Nat.le_trans hreached ((List.pairwise_append.mp hclocked.forward).2.2 reading hreading now
    (List.mem_singleton_self now))

/-- A deadline that can be computed is the sum it stands for. -/
theorem due_exact {time : Nat} (h : due progress = .ok time) :
    time = progress.start + progress.index * progress.interval := by
  obtain ⟨product, hproduct, hsum⟩ := bind_ok_iff.mp h
  rw [Checked.add_exact hsum, Checked.mul_exact hproduct]

/-- Every turn keeps to the schedule: only a due record is written, and the one behind it is due one
interval later. -/
theorem Scheduled.turn (h : producer.Scheduled interval readings) {context : Run.Context}
    (hinterval : context.config.interval = .ok interval) (hpositive : 1 ≤ interval) (now : Nat) :
    (producer.turn now context).2.Scheduled interval (readings ++ [now]) := by
  have hlatest : now ∈ readings ++ [now] := List.mem_append_right _ (List.mem_singleton_self now)
  obtain ⟨pause, phase⟩ := producer
  cases phase with
  | begin =>
      obtain rfl : readings = [] := h
      simp only [Producer.turn, hinterval]
      split
      · trivial
      · rename_i after appender htake
        exact ⟨rfl, Run.Context.takeAppender_next htake, rfl⟩
  | readStart appender given =>
      obtain ⟨rfl, hnext, hlength⟩ := h
      have hstart : (readings ++ [now])[1]? = some now := by
        rw [List.getElem?_append_right (Nat.le_of_eq hlength), hlength]
        rfl
      have hreached : now + 0 * given ≤ now + given := by omega
      exact ⟨rfl, hstart, hnext, now, hlatest, hreached⟩
  | ready progress =>
      have hscheduled : progress.Scheduled interval interval readings := h
      have hread := hscheduled.read now
      have hpaced : ¬ progress.interval = 0 := by
        rw [hscheduled.given]
        omega
      simp only [Producer.turn, if_neg hpaced]
      split
      · trivial
      · split
        · trivial
        · rename_i time hdue
          have htime := due_exact hdue
          rw [hscheduled.given] at htime
          split
          · rename_i hreached
            rw [htime] at hreached
            exact ⟨hread.given, hread.start, hread.next, now, hlatest, hreached⟩
          · exact hread
  | missed progress =>
      simp only [Producer.turn]
      split
      · trivial
      · exact Progress.Scheduled.read h now
  | write progress =>
      have hread : progress.Scheduled interval 0 (readings ++ [now]) :=
        Progress.Scheduled.read h now
      obtain ⟨reading, hreading, hreached⟩ := hread.reached
      simp only [Producer.turn]
      split
      · trivial
      · rename_i after later index hwork
        obtain ⟨-, hnext, -⟩ := Log.appendWith_production (Run.Context.onLog_log hwork)
        split
        · trivial
        · rename_i hindex
          rw [Decidable.not_not] at hindex
          have hbehind : progress.start + (index + 1) * interval ≤ reading + interval := by
            rw [hindex, Nat.add_one_mul]
            omega
          have hcounted : later.next = index + 1 := by rw [hnext, hread.next, hindex]
          exact ⟨hread.given, hread.start, hcounted, reading, hreading, hbehind⟩
  | «over» outcome => trivial

theorem Lives.scheduled (h : Lives config pause readings producer)
    (hinterval : config.interval = .ok interval) (hpositive : 1 ≤ interval) :
    producer.Scheduled interval readings := by
  induction h with
  | start => rfl
  | turn _ context hconfig now ih => exact ih.turn (hconfig ▸ hinterval) hpositive now

/-- Where a paced producer has come to, against the clock. In front of every record its deadline is
in the words. Whatever the log is like, a record that is appended has a time of production, and not
one before its deadline. -/
structure OnTime (config : Run.Config) (interval : Nat) (readings : List Nat)
    (producer : Producer) : Prop where
  due : ∀ progress, producer.phase = .ready progress → progress.index ≠ config.count →
    readings[1]? = some progress.start ∧
      due progress = .ok (progress.start + progress.index * interval)
  appended : ∀ progress, producer.phase = .write progress →
    ∀ (context : Run.Context) (now : Nat), context.config = config → Steady (readings ++ [now]) →
      ∀ log later index, context.log.appendWith progress.appender
          (fill config.count progress.index now) = (log, later, .ok index) →
        (producer.turn now context).1.log = log ∧ index = progress.index ∧
          readings[1]? = some progress.start ∧
          ∃ slot, context.log.slot progress.appender = .ok slot ∧
            progress.start + index * interval ≤
              ((log.record ⟨slot.body, context.log.layout.words⟩).times.getD 0 0).toNat

theorem Scheduled.onTime (h : producer.Scheduled interval readings) (hbound : interval ≤ second)
    (hsteady : Steady readings) : producer.OnTime config interval readings := by
  obtain ⟨pause, phase⟩ := producer
  constructor
  case due =>
    rintro progress rfl -
    have hscheduled : progress.Scheduled interval interval readings := h
    obtain ⟨reading, hreading, hreached⟩ := hscheduled.reached
    have hsmall := hsteady.small reading hreading
    have hsum : progress.start + progress.index * progress.interval < wordLimit := by
      rw [hscheduled.given]
      simp only [wordLimit, second] at hsmall hbound ⊢
      omega
    refine ⟨hscheduled.start, ?_⟩
    rw [due_ok (Nat.le_refl progress.index) hsum, hscheduled.given]
  case appended =>
    rintro progress rfl context now rfl hlater log later index happend
    have hscheduled : progress.Scheduled interval 0 readings := h
    obtain ⟨hwritten, -, slot, hslot, htime⟩ := Log.appendWith_production happend
    obtain rfl : index = progress.index := hwritten.trans hscheduled.next
    have hwork : (context.onLog fun log => log.appendWith progress.appender
        (fill context.config.count progress.index now)) =
          ({ context with log := log }, later, .ok progress.index) := by
      simp only [Run.Context.onLog, happend]
    have hlog : (Producer.turn now context ⟨pause, .write progress⟩).1.log = log := by
      simp only [Producer.turn, hwork, ne_eq, not_true_eq_false, if_false]
      split <;> rfl
    refine ⟨hlog, rfl, hscheduled.start, slot, hslot, ?_⟩
    rw [htime, UInt64.toNat_ofNat_of_lt' hlater.clocked.below]
    exact hscheduled.since hlater.clocked

end Scheduled

end Worker.Producer

namespace Worker.Tally

/-- Every time of production is a word, and not before its deadline. -/
def Paced (tally : Tally) (interval : Nat) (readings : List Nat) : Prop :=
  ∀ index time, (tally.times 0)[index]? = some time → time < wordLimit ∧
    ∃ start, readings[1]? = some start ∧ start + index * interval ≤ time

/-- Nobody but the producer stamps production. -/
theorem Turn.times_production {stages count now : Nat} {role : Role} {tally after : Tally}
    (hturn : Turn stages count role now tally after) (hrole : role ≠ .producer) :
    after.times 0 = tally.times 0 := by
  cases hturn with
  | rest => rfl
  | produce producer more => exact absurd producer hrole
  | stamp worker first last own let_through => exact if_neg (by omega)
  | complete worker first last own => rfl

section Paced

variable {tally : Tally} {interval : Nat} {readings : List Nat} {config : Run.Config}
  {producer : Producer}

theorem Paced.read (h : tally.Paced interval readings) (more : List Nat) :
    tally.Paced interval (readings ++ more) := by
  intro index time htime
  obtain ⟨hsmall, start, hstart, hlate⟩ := h index time htime
  exact ⟨hsmall, start, Producer.start_kept hstart more, hlate⟩

theorem Paced.turn (h : tally.Paced interval readings)
    (hscheduled : producer.Scheduled interval readings) (hfollows : producer.Follows config tally)
    {now : Nat} (hclocked : Producer.Clocked (readings ++ [now])) :
    (producer.next now tally).Paced interval (readings ++ [now]) := by
  obtain ⟨pause, phase⟩ := producer
  cases phase with
  | begin | readStart _ _ | ready _ | missed _ | «over» _ => exact h.read [now]
  | write progress =>
      have hdue : progress.Scheduled interval 0 readings := hscheduled
      obtain ⟨halong, -⟩ := hfollows
      intro index time htime
      rcases times_stamp_cases htime with hold | ⟨-, hat, hnew⟩
      · exact h.read [now] index time hold
      · rw [hat, hnew, ← halong.index]
        exact ⟨hclocked.below, progress.start, (hdue.read now).start, hdue.since hclocked⟩

end Paced

end Worker.Tally

namespace Crew

open Worker

/-- The clock readings of one worker's turns. -/
def readingsOf (index : Nat) (steps : List Step) : List Nat :=
  steps.filterMap fun
    | .work other now => if other = index then some now else none
    | .abort => none

theorem readingsOf_cons (index : Nat) (step : Step) (rest : List Step) :
    readingsOf index (step :: rest) = readingsOf index [step] ++ readingsOf index rest :=
  List.filterMap_append (l := [step])

/-- A crew whose producer has taken turns with these readings: every record in the log has been
stamped, and not before its deadline. -/
structure OnTime (crew : Crew) (config : Run.Config) (interval : Nat) (pause : Pause)
    (readings : List Nat) : Prop where
  producer : ∃ producer, crew.workers[config.stages]? = some (.producer producer) ∧
    producer.Lives config pause readings
  stamped : ∀ index < crew.context.log.appended, ∃ start, readings[1]? = some start ∧
    start + index * interval ≤ crew.time index 0

structure Paced (crew : Crew) (config : Run.Config) (interval : Nat) (pause : Pause)
    (readings : List Nat) (tally : Tally) : Prop where
  producer : ∃ producer, crew.workers[config.stages]? = some (.producer producer) ∧
    producer.Lives config pause readings
  times : tally.Paced interval readings

section Paced

variable {crew : Crew} {config : Run.Config} {interval : Nat} {pause : Pause}
  {readings : List Nat} {place : Storage.Place} {tally : Tally}

theorem start_paced (context : Run.Context) (pause : Role → Pause) :
    (start context pause).Paced context.config interval (pause .producer) [] .start := by
  refine ⟨⟨.start (pause .producer), ?_, .start⟩, nofun⟩
  simp [start, roles, Worker.start]

variable (h : crew.Paced config interval pause readings tally)
  (hstep : crew.InStep config place tally)

include h hstep

theorem Paced.step (hinterval : config.interval = .ok interval) (hpositive : 1 ≤ interval)
    {step : Step} (hclocked : Producer.Clocked (readings ++ readingsOf config.stages [step])) :
    (crew.step step).Paced config interval pause (readings ++ readingsOf config.stages [step])
      (crew.next tally step) := by
  obtain ⟨producer, hproducer, hlives⟩ := h.producer
  have hstay : ∀ after : Crew, after.workers[config.stages]? = crew.workers[config.stages]? →
      ∀ next : Tally, next.times 0 = tally.times 0 → readingsOf config.stages [step] = [] →
        after.Paced config interval pause (readings ++ readingsOf config.stages [step]) next := by
    intro after hsame next htimes hnone
    rw [hnone, List.append_nil]
    exact ⟨⟨producer, hsame.trans hproducer, hlives⟩, fun index time htime =>
      h.times index time (htimes ▸ htime)⟩
  obtain ⟨context, workers⟩ := crew
  cases step with
  | abort => exact hstay ⟨context.abort, workers⟩ rfl tally rfl rfl
  | work index now =>
      by_cases hindex : index = config.stages
      · subst hindex
        have hread : readingsOf config.stages [.work config.stages now] = [now] := by
          simp [readingsOf]
        obtain ⟨hlt, -⟩ := List.getElem?_eq_some_iff.mp hproducer
        have hfollows : producer.Follows config tally :=
          hstep.follows _ (List.mem_of_getElem? hproducer)
        rw [hread] at hclocked ⊢
        simp only [Crew.step, Crew.next, hproducer]
        exact ⟨⟨(producer.turn now context).2, List.getElem?_set_self hlt,
          hlives.turn context hstep.shows.config now⟩,
          h.times.turn (hlives.scheduled hinterval hpositive) hfollows hclocked⟩
      · have hnone : readingsOf config.stages [.work index now] = [] := by
          simp [readingsOf, hindex]
        cases hworker : workers[index]? with
        | none =>
            simp only [Crew.step, Crew.next, hworker]
            exact hstay _ rfl _ rfl hnone
        | some worker =>
            have hrole : worker.role ≠ .producer := hstep.role_ne hworker hproducer hindex
            have hturn := ((hstep.follows worker (List.mem_of_getElem? hworker)).turn now
              hstep.count hstep.layout hstep.valid hstep.shows).turn
            simp only [Crew.step, Crew.next, hworker]
            exact hstay _ (List.getElem?_set_ne hindex) _ (hturn.times_production hrole) hnone

theorem Paced.run (hinterval : config.interval = .ok interval) (hpositive : 1 ≤ interval)
    (steps : List Step)
    (hclocked : Producer.Clocked (readings ++ readingsOf config.stages steps)) :
    (crew.run steps).Paced config interval pause (readings ++ readingsOf config.stages steps)
      (crew.tally tally steps) := by
  induction steps generalizing crew tally readings with
  | nil =>
      rw [readingsOf, List.filterMap_nil, List.append_nil]
      exact h
  | cons step rest ih =>
      rw [readingsOf_cons, ← List.append_assoc] at hclocked ⊢
      exact ih (h.step hstep hinterval hpositive hclocked.before) (hstep.step step) hclocked

theorem Paced.onTime : crew.OnTime config interval pause readings := by
  refine ⟨h.producer, fun index hindex => ?_⟩
  rw [hstep.shows.log.appended] at hindex
  have hproduced : (tally.times 0)[index]? = some (tally.times 0)[index] :=
    List.getElem?_eq_getElem hindex
  obtain ⟨hsmall, start, hstart, hlate⟩ := h.times index _ hproduced
  refine ⟨start, hstart, ?_⟩
  rw [hstep.time_eq (Nat.zero_le _) hproduced hsmall]
  exact hlate

end Paced

/-- What pacing at one record each `interval` keeps, for a producer among any other workers and for
the producer of a run with all its stages. -/
structure PacingLaw (config : Run.Config) (interval : Nat) : Prop where
  given : config.interval = .ok interval
  bounds : 1 ≤ interval ∧ interval ≤ second
  producer : ∀ pause readings producer, Producer.Lives config pause readings producer →
    Producer.Steady readings → producer.OnTime config interval readings
  crew : ∀ storage context, storage.IsTree → Run.Context.create storage config = .ok context →
    ∀ (pause : Role → Pause) (steps : List Step),
      Producer.Steady (readingsOf config.stages steps) →
        ((start context pause).run steps).OnTime config interval (pause .producer)
          (readingsOf config.stages steps)

/-- Every accepted rate keeps the law of its interval: with any pause, and clock readings that never
go back and stay a second below the bound of the words, no deadline overflows, and no record is
stamped before its own. -/
theorem pacing_law {config : Run.Config} {rate : Nat} (hvalid : config.validate = .ok ())
    (hrate : config.throughput = some rate) : PacingLaw config (second / rate) := by
  obtain ⟨hinterval, hpositive, hbound⟩ :=
    (Run.Config.validate_ok_iff.mp hvalid).interval_bounds hrate
  refine ⟨hinterval, ⟨hpositive, hbound⟩, ?_, ?_⟩
  · intro pause readings producer hlives hsteady
    exact (hlives.scheduled hinterval hpositive).onTime hbound hsteady
  · intro storage context htree hcreate pause steps hsteady
    obtain ⟨place, hfresh⟩ := Run.Context.create_fresh htree hcreate
    have hstart := start_inStep hfresh pause
    have hpaced : (start context pause).Paced context.config (second / rate) (pause .producer) []
        .start := start_paced context pause
    rw [hfresh.config] at hpaced
    exact (hpaced.run hstart hinterval hpositive steps hsteady.clocked).onTime (hstart.run steps)

/-- One record each millisecond, of which the second is not due when the first attempt is made. The
stages take no turns. -/
theorem pacing_law_two_records :
    let config : Run.Config := ⟨2, 3, some 1000, "/out", 0, 500000, 1000000000, [], []⟩
    let steps := [100, 100, 100, 105, 200, 200, 1000100, 1000150].map (Step.work 2)
    ∃ context, Run.Context.create .empty config = .ok context ∧
      let crew := (start context fun _ => .spinning).run steps
      crew.OnTime config 1000000 .spinning (readingsOf 2 steps) ∧
        (List.range crew.context.log.appended).map (crew.time · 0) = [105, 1000150] ∧
        ∃ producer, crew.workers[2]? = some (.producer producer) ∧
          producer.OnTime config 1000000 (readingsOf 2 steps) := by
  intro config steps
  have hlaw : PacingLaw config 1000000 :=
    pacing_law (show config.validate = .ok () by decide)
      (show config.throughput = some 1000 from rfl)
  have hsteady : Producer.Steady (readingsOf 2 steps) := ⟨by decide +kernel, by decide +kernel⟩
  have hshown : (Run.Context.create .empty config).toOption.map (fun context =>
      let crew := (start context fun _ => .spinning).run steps
      (List.range crew.context.log.appended).map (crew.time · 0)) = some [105, 1000150] := by
    decide +kernel
  cases hcreate : Run.Context.create .empty config with
  | error problem => simp [hcreate, Except.toOption] at hshown
  | ok context =>
      simp only [hcreate, Except.toOption, Option.map_some, Option.some.injEq] at hshown
      have honTime := hlaw.crew _ context Storage.empty_isTree hcreate (fun _ => .spinning) steps
        hsteady
      obtain ⟨producer, hproducer, hlives⟩ := honTime.producer
      exact ⟨context, rfl, honTime, hshown, producer, hproducer,
        hlaw.producer .spinning _ producer hlives hsteady⟩

end Crew

end GatedPipeline
