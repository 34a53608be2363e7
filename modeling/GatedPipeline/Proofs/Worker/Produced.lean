import GatedPipeline.Proofs.Log.Sessions
import GatedPipeline.Proofs.Worker.Aborted

/-!
A producer whose log nobody else writes. At every moment the log holds the records produced so far
and nothing behind them, whether the producer is still at work, done, or has given up; it gives up
for no reasons but an aborted run and its own pause, and it never keeps the appender.
-/

namespace GatedPipeline

/-- The pauses that a waiter may come to hold when it starts with this one. -/
inductive Pause.Becomes (pause : Pause) : Pause → Prop
  | start : Becomes pause pause
  | missed {held : Pause} (now : Nat) (hheld : Becomes pause held) :
      Becomes pause (held.pause now).1
  | reset {held : Pause} (hheld : Becomes pause held) : Becomes pause held.reset

theorem Pause.Becomes.afterMiss {pause held : Pause} (h : pause.Becomes held) (aborted : Bool)
    (now : Nat) : pause.Becomes (held.afterMiss aborted now).1 := by
  unfold Pause.afterMiss
  split_ifs
  · exact h
  · exact .missed now h

namespace Log

/-- The log holds so many records of a run and nothing behind them. Their production is stamped and
their stages are not. -/
structure Written (log : Log) (stages count written : Nat) (reading : Nat → Prop) : Prop where
  appended : log.appended = written
  entries : log.entries = (List.range written).map (Layout.entryAt ⟨stages⟩)
  records : ∀ index < written, ∃ now, reading now ∧
    log.record (Layout.viewAt ⟨stages⟩ index) =
      ⟨Word.ofSigned ((count : Int) - 1 - index) :: UInt64.ofNat now :: List.replicate stages 0⟩
  remaining : ∀ index < written,
    (log.record (Layout.viewAt ⟨stages⟩ index)).remaining = (count : Int) - 1 - index
  blank : ∀ position, position % 8 = 0 → Layout.endAfter ⟨stages⟩ written ≤ position →
    log.word position = 0

/-- Behind its last record a log is blank where no body has words. -/
theorem Holds.blank {log : Log} {count : Nat} {content : Nat → Nat → Word}
    (h : log.Holds count content)
    (hcontent : ∀ index word, count ≤ index → content index word = 0) {position : Nat}
    (haligned : position % 8 = 0) (hbehind : log.layout.endAfter count ≤ position) :
    log.word position = 0 := by
  by_cases hplace : ∃ place : Layout.Place,
      place.Real log.layout ∧ place.position log.layout = position
  · obtain ⟨place, hreal, rfl⟩ := hplace
    have hrecord : count ≤ place.record := by
      by_contra hbefore
      have hwithin := (place.position_within log.layout hreal).2
      have hmono := log.layout.endAfter_mono (show place.record + 1 ≤ count by omega)
      omega
    cases place with
    | filler index =>
        have hbeyond : ¬ index < count := Nat.not_lt.mpr hrecord
        have hword := h.framed.filler index hreal
        rw [if_neg hbeyond] at hword
        exact hword
    | header index =>
        have hbeyond : ¬ index < count := Nat.not_lt.mpr hrecord
        have hword := h.framed.header index
        rw [if_neg hbeyond] at hword
        exact hword
    | body index word => exact (h.content index word hreal).trans (hcontent index word hrecord)
  · apply h.framed.blank position haligned
    intro place hreal hat
    exact hplace ⟨place, hreal, hat⟩

end Log

namespace Worker.Producer

def holds (producer : Producer) : Bool :=
  match producer.phase with
  | .begin | .over _ => false
  | .readStart .. | .ready _ | .missed _ | .write _ => true

/-- Why a producer gives up in front of record `index`: the run is aborted or, if the producer is
paced, its pause ends the wait until the record is due. -/
inductive GivesUp (interval : Nat) (pause : Pause) (reading : Nat → Prop) (aborted : Bool)
    (index : Nat) : Problem → Prop
  | unpaced (hinterval : interval = 0) (haborted : aborted) :
      GivesUp interval pause reading aborted index (.of .aborted)
  | paced (held : Pause) (now : Nat) (raised : Bool) (answer : Problem) (hinterval : 0 < interval)
      (hheld : pause.Becomes held) (hnow : reading now) (hraised : raised → aborted)
      (hanswer : (held.afterMiss raised now).2 = .error answer) :
      GivesUp interval pause reading aborted index (answer.within (.pacing index))

/-- The producer keeps to the interval of its run, counted from a clock reading. -/
def Paced (interval count : Nat) (reading : Nat → Prop) (producer : Producer) : Prop :=
  match producer.phase with
  | .readStart _ given => given = interval
  | .ready progress | .write progress => progress.interval = interval ∧ reading progress.start
  | .missed progress => progress.interval = interval ∧ reading progress.start ∧ 0 < interval ∧
      progress.index < count
  | .begin | .over _ => True

/-- What holds of a producer that works alone, beside what holds of it in a crew. -/
structure Alone (config : Run.Config) (interval : Nat) (pause : Pause) (reading : Nat → Prop)
    (context : Run.Context) (tally : Tally) (producer : Producer) : Prop where
  only : ∀ slot, 1 ≤ slot → tally.times slot = []
  read : ∀ time ∈ tally.times 0, reading time
  becomes : pause.Becomes producer.pause
  taken : context.log.appenderTaken = producer.holds
  paced : producer.Paced interval config.count reading
  gaveUp : ∀ problem, producer.phase = .over (.error problem) →
    tally.stamped 0 < config.count ∧
      GivesUp interval pause reading context.aborted (tally.stamped 0) problem

/-- No deadline overflows if that behind the last record does not. -/
theorem due_ok {progress : Progress} {count : Nat} (hindex : progress.index ≤ count)
    (hsmall : progress.start + count * progress.interval < wordLimit) :
    due progress = .ok (progress.start + progress.index * progress.interval) := by
  have hmul : progress.index * progress.interval ≤ count * progress.interval :=
    Nat.mul_le_mul_right progress.interval hindex
  unfold due
  rw [Checked.mul_ok (by omega), ok_bind, Checked.add_ok (by omega)]

/-- Who appends keeps the appender. -/
theorem taken_append {context after : Run.Context} {appender later : Appender} {fill : List Edit}
    {result : Except Problem Nat}
    (hwork : context.onLog (fun log => log.appendWith appender fill) = (after, later, result)) :
    after.log.appenderTaken = context.log.appenderTaken := by
  have htaken := Log.taken_appendWith context.log appender fill
  rwa [Run.Context.onLog_log hwork] at htaken

section Alone

variable {config : Run.Config} {interval : Nat} {pause : Pause} {reading : Nat → Prop}
  {context : Run.Context} {place : Storage.Place} {tally : Tally} {producer : Producer} {now : Nat}

section Later

variable (h : Alone config interval pause reading context tally producer)
  {after : Run.Context} {later : Producer} (hbecomes : pause.Becomes later.pause)

include h hbecomes

/-- The producer ends with a failure. -/
theorem Alone.fails {problem : Problem} (hphase : later.phase = .over (.error problem))
    (hmore : tally.stamped 0 < config.count)
    (hgives : GivesUp interval pause reading context.aborted (tally.stamped 0) problem) :
    Alone config interval pause reading context.releaseAppender tally later := by
  obtain ⟨held, phase⟩ := later
  obtain rfl : phase = .over (.error problem) := hphase
  refine ⟨h.only, h.read, hbecomes, rfl, trivial, ?_⟩
  rintro other ⟨⟩
  exact ⟨hmore, hgives⟩

variable (htaken : after.log.appenderTaken = later.holds)
  (hpaced : later.Paced interval config.count reading)
  (hphase : ∀ problem, later.phase ≠ .over (.error problem))

include htaken hpaced hphase

/-- A turn that stamps nothing and does not end the producer with a failure. -/
theorem Alone.goes : Alone config interval pause reading after tally later :=
  ⟨h.only, h.read, hbecomes, htaken, hpaced, fun problem hover => absurd hover (hphase problem)⟩

/-- A turn that stamps the next record. -/
theorem Alone.stamps (hnow : reading now) :
    Alone config interval pause reading after (tally.stamp 0 now) later := by
  refine ⟨fun slot hslot => ?_, fun time htime => ?_, hbecomes, htaken, hpaced,
    fun problem hover => absurd hover (hphase problem)⟩
  · simp only [Tally.stamp, if_neg (show slot ≠ 0 by omega)]
    exact h.only slot hslot
  · simp only [Tally.stamp, if_true, List.mem_append, List.mem_singleton] at htime
    rcases htime with hold | rfl
    · exact h.read time hold
    · exact hnow

end Later

variable (hinterval : config.interval = .ok interval) (hnow : reading now)
  (hclock : ∀ now, reading now → now + config.count * interval < wordLimit)
  (hlayout : (Layout.mk config.stages).Valid) (hshows : context.Shows config place tally)
  (hvalid : tally.Valid config.stages config.count)

include hinterval hnow hclock hlayout hshows hvalid

theorem Alone.turn (h : Alone config interval pause reading context tally producer)
    (hfollows : producer.Follows config tally) :
    Alone config interval pause reading (producer.turn now context).1 (producer.next now tally)
      (producer.turn now context).2 := by
  obtain ⟨held, phase⟩ := producer
  have hbecomes : pause.Becomes held := h.becomes
  have htaken := h.taken
  have hpaced := h.paced
  cases phase with
  | begin =>
      have htake : context.takeAppender =
          ({ context with log := { context.log with appenderTaken := true } }, .ok ⟨0, 0⟩) := by
        have hfree : context.log.appenderTaken = false := htaken
        simp only [Run.Context.takeAppender, Run.Context.onLog, Log.takeAppender, hfree]
        rfl
      simp only [turn, hshows.config, hinterval, htake]
      exact h.goes hbecomes rfl rfl (by rintro _ ⟨⟩)
  | readStart appender given =>
      obtain rfl : given = interval := hpaced
      exact h.goes hbecomes htaken ⟨rfl, hnow⟩ (by rintro _ ⟨⟩)
  | ready progress =>
      obtain ⟨rfl, hstart⟩ := hpaced
      have hindex := hfollows.index
      have hproduced := hvalid.produced
      have hdue := due_ok (show progress.index ≤ config.count by omega) (hclock _ hstart)
      simp only [turn, hshows.config]
      split
      · exact h.goes hbecomes rfl trivial (by rintro _ ⟨⟩)
      · rename_i hmore
        split
        · rename_i hunpaced
          split
          · rename_i haborted
            exact h.fails hbecomes rfl (by omega) (.unpaced hunpaced haborted)
          · exact h.goes hbecomes htaken ⟨rfl, hstart⟩ (by rintro _ ⟨⟩)
        · simp only [hdue]
          split
          · exact h.goes (.reset hbecomes) htaken ⟨rfl, hstart⟩ (by rintro _ ⟨⟩)
          · exact h.goes hbecomes htaken ⟨rfl, hstart, by omega, by omega⟩ (by rintro _ ⟨⟩)
  | missed progress =>
      obtain ⟨rfl, hstart, hpositive, hless⟩ := hpaced
      have hindex := hfollows.index
      have hafter := hbecomes.afterMiss context.aborted now
      simp only [turn]
      split
      · rename_i later problem hmiss
        rw [hmiss] at hafter
        rw [hindex] at hless ⊢
        apply h.fails hafter rfl hless
        exact .paced held now context.aborted problem hpositive hbecomes hnow id
          (congrArg Prod.snd hmiss)
      · rename_i later hmiss
        rw [hmiss] at hafter
        exact h.goes hafter htaken ⟨rfl, hstart⟩ (by rintro _ ⟨⟩)
  | write progress =>
      obtain ⟨rfl, hstart⟩ := hpaced
      obtain ⟨halong, hmore⟩ := hfollows
      obtain ⟨after, hwork, -⟩ := hshows.produce hlayout now hmore
      have hkept : after.log.appenderTaken = true := (taken_append hwork).trans htaken
      simp only [turn, hshows.config, halong.index, halong.appender, hwork, ne_eq,
        not_true_eq_false, if_false]
      split <;> exact h.stamps hbecomes hkept ⟨rfl, hstart⟩ (by rintro _ ⟨⟩) hnow
  | «over» outcome =>
      refine ⟨h.only, h.read, hbecomes, htaken, trivial, h.gaveUp⟩

end Alone

theorem GivesUp.raised {interval index : Nat} {pause : Pause} {reading : Nat → Prop}
    {aborted : Bool} {problem : Problem}
    (h : GivesUp interval pause reading aborted index problem) :
    GivesUp interval pause reading true index problem := by
  cases h with
  | unpaced hinterval haborted => exact .unpaced hinterval rfl
  | paced held now raised answer hinterval hheld hnow hraised hanswer =>
      exact .paced held now raised answer hinterval hheld hnow (fun _ => rfl) hanswer

/-- The producer and the shared state, when no other worker takes a turn. -/
structure Lone (config : Run.Config) (place : Storage.Place) (interval : Nat) (pause : Pause)
    (reading : Nat → Prop) (context : Run.Context) (producer : Producer) (tally : Tally) :
    Prop where
  shows : context.Shows config place tally
  valid : tally.Valid config.stages config.count
  follows : producer.Follows config tally
  alone : Alone config interval pause reading context tally producer

section Lone

variable {config : Run.Config} {place : Storage.Place} {interval : Nat} {pause : Pause}
  {reading : Nat → Prop} {context : Run.Context} {producer : Producer} {tally : Tally}

theorem lone_of_fresh (h : context.Fresh config place) :
    Lone config place interval pause reading context (.start pause) .start :=
  ⟨h.shows, Tally.start_valid _ _, rfl, fun _ _ => rfl, nofun, .start, h.untaken, trivial, nofun⟩

variable (h : Lone config place interval pause reading context producer tally)

include h

theorem Lone.abort : Lone config place interval pause reading context.abort producer tally := by
  refine ⟨h.shows.abort, h.valid, h.follows, h.alone.only, h.alone.read, h.alone.becomes,
    h.alone.taken, h.alone.paced, fun problem hover => ?_⟩
  obtain ⟨hless, hgives⟩ := h.alone.gaveUp problem hover
  exact ⟨hless, hgives.raised⟩

theorem Lone.turn {now : Nat} (hinterval : config.interval = .ok interval) (hnow : reading now)
    (hclock : ∀ now, reading now → now + config.count * interval < wordLimit)
    (hlayout : (Layout.mk config.stages).Valid) :
    Lone config place interval pause reading (producer.turn now context).1
      (producer.turn now context).2 (producer.next now tally) := by
  have hadvances := h.follows.turn h.valid hlayout h.shows now
  exact ⟨hadvances.shows, h.valid.turn hadvances.turn, hadvances.follows,
    h.alone.turn hinterval hnow hclock hlayout h.shows h.valid h.follows⟩

theorem Lone.run (hinterval : config.interval = .ok interval)
    (hclock : ∀ now, reading now → now + config.count * interval < wordLimit)
    (hlayout : (Layout.mk config.stages).Valid) {steps : List Crew.Step}
    (hsteps : ∀ now, .work 0 now ∈ steps → reading now) :
    ∃ after later next, Crew.run ⟨context, [.producer producer]⟩ steps =
        ⟨after, [.producer later]⟩ ∧
      Lone config place interval pause reading after later next := by
  unfold Crew.run
  induction steps generalizing context producer tally with
  | nil => exact ⟨context, producer, tally, rfl, h⟩
  | cons step rest ih =>
      have hrest := fun now hmember => hsteps now (List.mem_cons_of_mem step hmember)
      rw [List.foldl_cons]
      cases step with
      | abort => exact ih h.abort hrest
      | work index now =>
          cases index with
          | zero => exact ih (h.turn hinterval (hsteps now List.mem_cons_self) hclock hlayout) hrest
          | succ index => exact ih h hrest

/-- No stage has a time in any record. -/
theorem Lone.unstamped (index slot : Nat) :
    tally.content config.count index (slot + 2) = 0 := by
  have hnone := h.alone.only (slot + 1) (by omega)
  simp only [Tally.content, hnone, List.getD_nil]
  rfl

/-- The log that a producer alone has written. -/
theorem Lone.written :
    context.log.Written config.stages config.count (tally.stamped 0) reading := by
  have hproduced := h.valid.produced
  have hlog := h.shows.log
  have hsmall : (config.count : Int) < signedLimit := by
    have hend := Log.endAfter_le_capacity hlog.sound h.shows.room
    have hmul := context.log.layout.mul_le_endAfter config.count
    have hcapacity := hlog.sound.small
    omega
  have htoCome : ∀ index < tally.stamped 0,
      toCome config.count index = (config.count : Int) - 1 - index := by
    intro index hindex
    have hless : config.count - 1 - index < config.count := by omega
    unfold toCome
    rw [Word.signed_ofNat (by omega)]
    omega
  constructor
  case appended => exact hlog.appended
  case entries =>
    rw [Tailer.entries_eq hlog.sound hlog.framed hlog.fits, h.shows.layout]
  case records =>
    intro index hindex
    have hstamped : index < (tally.times 0).length := hindex
    refine ⟨(tally.times 0)[index], h.alone.read _ (List.getElem_mem hstamped), ?_⟩
    have hslots : (List.range config.stages).map
        (fun slot => tally.content config.count index (slot + 2)) =
          List.replicate config.stages 0 := by
      rw [List.map_congr_left fun slot _ => h.unstamped index slot, List.map_const',
        List.length_range]
    rw [h.shows.record, List.range_succ_eq_map, List.range_succ_eq_map]
    simp only [List.map_cons, List.map_map, Record.mk.injEq, List.cons.injEq]
    refine ⟨?_, ?_, hslots⟩
    · simp only [Tally.content, if_pos hindex, htoCome index hindex]
    · simp only [Tally.content, List.getD_eq_getElem?_getD, List.getElem?_eq_getElem hstamped,
        Option.getD_some]
  case remaining =>
    intro index hindex
    rw [h.shows.remaining hindex, htoCome index hindex]
  case blank =>
    intro position haligned hbehind
    rw [← h.shows.layout] at hbehind
    refine hlog.blank (fun index word hbeyond => ?_) haligned hbehind
    rcases word with _ | _ | slot
    · exact if_neg (Nat.not_lt.mpr hbeyond)
    · have hnone : (tally.times 0).length ≤ index := hbeyond
      simp only [Tally.content, List.getD_eq_getElem?_getD, List.getElem?_eq_none hnone,
        Option.getD_none]
      rfl
    · exact h.unstamped index slot

end Lone

/-- Where a producer that works alone has come to. The log has the records that it has written. If
it has returned they are all the records of the run, or it has given up on the next one with a
reason, and in both cases the appender can be taken again. -/
structure Produces (config : Run.Config) (interval : Nat) (pause : Pause) (reading : Nat → Prop)
    (context : Run.Context) (producer : Producer) (written : Nat) : Prop where
  few : written ≤ config.count
  log : context.log.Written config.stages config.count written reading
  ok : ∀ stats, producer.outcome = some (.ok stats) →
    stats.written = config.count ∧ written = config.count
  error : ∀ problem, producer.outcome = some (.error problem) →
    written < config.count ∧ GivesUp interval pause reading context.aborted written problem
  released : producer.outcome.isSome → context.log.takeAppender =
    .ok ({ context.log with appenderTaken := true }, ⟨0, 0⟩)

theorem outcome_over {producer : Producer} {result : Except Problem Stats}
    (h : producer.outcome = some result) : producer.phase = .over result := by
  unfold outcome at h
  split at h
  · rename_i hphase
    cases h
    exact hphase
  · cases h

theorem Lone.produces {config : Run.Config} {place : Storage.Place} {interval : Nat}
    {pause : Pause} {reading : Nat → Prop} {context : Run.Context} {producer : Producer}
    {tally : Tally} (h : Lone config place interval pause reading context producer tally) :
    Produces config interval pause reading context producer (tally.stamped 0) := by
  have hfollows := h.follows
  have htaken := h.alone.taken
  constructor
  case few => exact h.valid.produced
  case log => exact h.written
  case ok =>
    intro stats hok
    unfold Follows at hfollows
    rw [outcome_over hok] at hfollows
    exact hfollows
  case error =>
    intro problem herror
    exact h.alone.gaveUp problem (outcome_over herror)
  case released =>
    intro hover
    obtain ⟨result, hresult⟩ := Option.isSome_iff_exists.mp hover
    unfold holds at htaken
    rw [outcome_over hresult] at htaken
    unfold Log.takeAppender
    rw [htaken]
    rfl

/-- A producer whose log nobody else writes, on a run that has just been created: at every moment,
with the flag raised at any moments, the log holds the records produced so far and nothing else. A
producer that is done has written them all; one that fails does so for an aborted run or by its
pause, never for a full log, and both leave the appender to be taken. Where the appender is out
already the producer fails and changes nothing. -/
theorem run_alone {storage : Storage} {config : Run.Config} {context : Run.Context}
    (htree : storage.IsTree) (hcreate : Run.Context.create storage config = .ok context)
    (pause : Pause) (steps : List Crew.Step)
    (hclock : ∀ now interval, Crew.Step.work 0 now ∈ steps → config.interval = .ok interval →
      now + config.count * interval < wordLimit) :
    (∃ interval after producer written, config.interval = .ok interval ∧
      Crew.run ⟨context, [.producer (.start pause)]⟩ steps = ⟨after, [.producer producer]⟩ ∧
      Produces config interval pause (fun now => .work 0 now ∈ steps) after producer written) ∧
    ∀ other : Run.Context, other.config = config → other.log.appenderTaken →
      ∀ now, (start pause).turn now other =
        (other, ⟨pause, .over (.error (.of (.appenderTaken other.log.name)))⟩) := by
  obtain ⟨place, hfresh⟩ := Run.Context.create_fresh htree hcreate
  obtain ⟨interval, hinterval⟩ := (Run.Context.create_accepted hcreate).interval_ok
  constructor
  · obtain ⟨after, producer, tally, hrun, hlone⟩ := (lone_of_fresh hfresh).run hinterval
      (fun now hnow => hclock now interval hnow hinterval) hfresh.valid (fun now hnow => hnow)
    exact ⟨interval, after, producer, tally.stamped 0, hinterval, hrun, hlone.produces⟩
  · rintro other rfl hout now
    have htake : other.takeAppender = (other, .error (.of (.appenderTaken other.log.name))) := by
      simp only [Run.Context.takeAppender, Run.Context.onLog, Log.takeAppender, hout]
      rfl
    simp only [start, turn, hinterval, htake]
    rfl

/-- A producer of three records that is paced and whose pause lets it miss one attempt: it gives up
in front of its second record. -/
theorem run_alone_gives_up :
    let config : Run.Config := ⟨2, 3, some 1000, "/out", 0, 500000, 1000000000, [], []⟩
    let steps := [100, 100, 100, 105, 200, 300, 400, 500, 600].map (Crew.Step.work 0)
    ∃ context after producer, Run.Context.create .empty config = .ok context ∧
      Crew.run ⟨context, [.producer (.start (.boundedBy 1))]⟩ steps =
        ⟨after, [.producer producer]⟩ ∧
      (Worker.producer producer).outcome =
        some (.error (.failed ⟨[.pacing 1], .noProgress 1⟩)) ∧
      Produces config 1000000 (.boundedBy 1) (fun now => .work 0 now ∈ steps) after producer 1 := by
  intro config steps
  have hshown : (Run.Context.create .empty config).toOption.map (fun context =>
      let crew := Crew.run ⟨context, [.producer (.start (.boundedBy 1))]⟩ steps
      (crew.context.log.appended, crew.workers.map Worker.outcome)) =
        some (1, [some (.error (.failed ⟨[.pacing 1], .noProgress 1⟩))]) := by
    decide +kernel
  have hclock : ∀ now interval, Crew.Step.work 0 now ∈ steps → config.interval = .ok interval →
      now + config.count * interval < wordLimit := by
    intro now interval hstep hinterval
    obtain rfl : 1000000 = interval := Except.ok.inj hinterval
    have hreadings : ∀ now ∈ [100, 100, 100, 105, 200, 300, 400, 500, 600], now ≤ 600 := by
      decide
    simp only [steps, List.mem_map, Crew.Step.work.injEq, true_and, exists_eq_right] at hstep
    have hlate := hreadings now hstep
    simp only [config, wordLimit]
    omega
  cases hcreate : Run.Context.create .empty config with
  | error problem => simp [hcreate, Except.toOption] at hshown
  | ok context =>
      obtain ⟨⟨interval, after, producer, written, hinterval, hrun, hproduces⟩, -⟩ :=
        run_alone Storage.empty_isTree hcreate (.boundedBy 1) steps hclock
      obtain rfl : 1000000 = interval := Except.ok.inj hinterval
      simp only [hcreate, Except.toOption, Option.map_some, hrun, Option.some.injEq,
        Prod.mk.injEq, List.map_cons, List.map_nil, List.cons.injEq, and_true] at hshown
      obtain ⟨hcount, houtcome⟩ := hshown
      obtain rfl : written = 1 := hproduces.log.appended.symm.trans hcount
      exact ⟨context, after, producer, rfl, hrun, houtcome, hproduces⟩

end Worker.Producer

end GatedPipeline
