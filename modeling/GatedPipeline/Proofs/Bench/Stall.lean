import GatedPipeline.Bench.Session
import GatedPipeline.Proofs.Worker.Waiting

/-!
The stall time of a benchmark. Settings are accepted with it if it is longer than the interval of
their run, so that no producer gives up before its next record is due. How long the stages spin is
not looked at: a stage may make the one behind it wait for longer than the stall time, and then a
run fails in which nothing has gone wrong.
-/

namespace GatedPipeline

/-- The waits that a configuration forces on its run one by one. A producer waits from one deadline
to the next, and a stage waits while the stage before it spins on a record. A stage further down can
be kept waiting for longer, by the delays of several stages before it one after the other. -/
inductive Run.Config.Forces (config : Config) : Nat → Prop
  | pacing {interval : Nat} (h : config.interval = .ok interval) : config.Forces interval
  | delay {stage wait : Nat} (hnext : stage < config.stages)
      (h : config.delayOf stage = some wait) : config.Forces wait

namespace Bench

namespace Settings

/-- The run of so many records, whether it is accepted or not. -/
def outline (settings : Settings) (count : Nat) : Run.Config :=
  ⟨settings.stages, count, if settings.unpaced then none else some settings.throughput,
    settings.outputDirectory, settings.progressEvery, settings.pretouchPeriod * 1000,
    settings.pretouchPatience * 1000000, settings.delays, settings.cores⟩

/-- All that is asked of a run, and of a stall time with it. -/
theorem build_ok_iff {settings : Settings} {count : Nat} {config : Run.Config} :
    settings.build count = .ok config ↔ config = settings.outline count ∧ config.Accepted ∧
      ∀ timeout, settings.stallTime = some timeout →
        ∀ interval, config.interval = .ok interval → interval < timeout := by
  generalize hgiven : settings.outline count = given
  unfold outline at hgiven
  rw [build, hgiven, bind_ok_iff, stallTime]
  simp only [mapError_ok_iff]
  constructor
  · rintro ⟨⟨⟩, hvalid, hrest⟩
    have haccepted := Run.Config.validate_ok_iff.mp hvalid
    obtain ⟨interval, hinterval⟩ := haccepted.interval_ok
    cases hstall : settings.stall with
    | none =>
        simp only [hstall] at hrest
        cases hrest
        refine ⟨rfl, haccepted, ?_⟩
        rintro timeout ⟨⟩
    | some milliseconds =>
        simp only [hstall] at hrest
        rw [hinterval, orBroken_ok, ok_bind] at hrest
        obtain ⟨hlonger, hsame⟩ := check_ok_iff.mp hrest
        cases hsame
        refine ⟨rfl, haccepted, ?_⟩
        rintro timeout ⟨⟩ other hother
        obtain rfl := Except.ok.inj (hinterval.symm.trans hother)
        exact Nat.lt_of_not_le hlonger
  · rintro ⟨rfl, haccepted, hlonger⟩
    obtain ⟨interval, hinterval⟩ := haccepted.interval_ok
    refine ⟨(), Run.Config.validate_ok_iff.mpr haccepted, ?_⟩
    cases hstall : settings.stall with
    | none => rfl
    | some milliseconds =>
        have hless := hlonger (milliseconds * 1000000) (by rw [hstall]; rfl) interval hinterval
        simp only
        rw [hinterval, orBroken_ok, ok_bind]
        exact check_ok_iff.mpr ⟨Nat.not_le.mpr hless, rfl⟩

end Settings

/-- What a stall time means for the run that it was accepted with. It exceeds the interval of the
producer. By `forced` it exceeds every forced wait just when it exceeds the delays of the stages
below the last one, and by `unseen` the same stall time is accepted whatever these delays are. By
`producer` a paced producer that gives up on a record has looked at the clock after the record was
due, and later by more than the stall time exceeds the interval. -/
structure StallLaw (settings : Settings) (count : Nat) (config : Run.Config) (timeout : Nat) :
    Prop where
  interval : ∀ interval, config.interval = .ok interval → interval < timeout
  forced : (∀ wait, config.Forces wait → wait < timeout) ↔
    ∀ stage wait, stage < config.stages → config.delayOf stage = some wait → wait < timeout
  unseen : ∀ delays : List Nat, delays.length ≤ config.stages →
    { settings with delays := delays }.build count = .ok { config with delays := delays }
  producer : timeout < wordLimit → ∀ interval, config.interval = .ok interval → 1 ≤ interval →
    ∀ readings producer,
      Worker.Producer.Lives config (Session.pause settings) readings producer →
      ∀ progress now, producer.phase = .missed progress →
        (readings ++ [now]).Pairwise (· ≤ ·) →
        ∀ after problem, producer.pause.afterMiss false now = (after, .error problem) →
          progress.start + progress.index * interval + (timeout - interval) < now

/-- A stall time is accepted if it is longer than the interval, whatever the delays. -/
theorem build_stall {settings : Settings} {count : Nat} {config : Run.Config} {timeout : Nat}
    (h : settings.build count = .ok config) (hstall : settings.stallTime = some timeout) :
    StallLaw settings count config timeout := by
  obtain ⟨houtline, haccepted, hlonger⟩ := Settings.build_ok_iff.mp h
  have hinterval := hlonger timeout hstall
  constructor
  case interval => exact hinterval
  case forced =>
    constructor
    · intro hforced stage wait hnext hdelay
      exact hforced wait (.delay hnext hdelay)
    · rintro hdelays wait (hpacing | ⟨hnext, hdelay⟩)
      · exact hinterval wait hpacing
      · exact hdelays _ wait hnext hdelay
  case unseen =>
    intro delays hfew
    refine Settings.build_ok_iff.mpr ⟨by rw [houtline]; rfl, ?_, hlonger⟩
    exact { haccepted with delays_le := hfew }
  case producer =>
    intro hsmall interval hgiven hpositive readings producer hlives progress now hphase hforward
      after problem hfails
    have hpause : Session.pause settings = .deadline timeout none := by
      rw [Session.pause, hstall]
      exact congrArg (Pause.deadline · none) (Nat.mod_eq_of_lt hsmall)
    have hlate := hlives.gives_up hpause hgiven hpositive hforward hphase hfails
    have hless := hinterval interval hgiven
    omega

/-- One record each millisecond, a stage that spins for half a millisecond, and waits of up to two
milliseconds. -/
theorem build_stall_paced :
    let settings : Settings := { Settings.defaults "/tmp" with
      stages := 2, throughput := 1000, stall := some 2, delays := [500000] }
    settings.runConfig = .ok (settings.outline 1000000) ∧ settings.stallTime = some 2000000 ∧
      ∀ wait, (settings.outline 1000000).Forces wait → wait < 2000000 := by
  intro settings
  have hbuild : settings.runConfig = .ok (settings.outline 1000000) := by decide
  refine ⟨hbuild, rfl, (build_stall hbuild rfl).forced.mpr fun stage wait hnext hdelay => ?_⟩
  obtain rfl | rfl : stage = 0 ∨ stage = 1 := by
    change stage < 2 at hnext
    omega
  · cases hdelay
  · obtain rfl : wait = 500000 := (Option.some.inj hdelay).symm
    decide

/-- Turns of a producer, of the first stage up to its delay of five milliseconds, of the second
stage for a millisecond in which it waits on the first, and then of both to their end. -/
def slowTurns : List Crew.Step :=
  [(2, [0, 1, 2, 3, 4]), (1, [5, 6, 7, 8]), (0, [9, 10, 11, 12, 13, 14, 1000020]),
    (1, [5000020, 5000021, 5000022]), (0, [5000023, 5000024, 5000025, 5000026])].flatMap
      fun (worker, readings) => readings.map (.work worker)

/-- A stage that spins for five milliseconds is accepted with waits of up to one. The stage behind
it gives up in a run that it would have completed. -/
theorem build_stall_spinning :
    let settings : Settings := { Settings.defaults "/tmp" with
      stages := 2, unpaced := true, count := 1, stall := some 1, delays := [5000000] }
    let config := settings.outline 1
    let outcomes := fun context pause =>
      ((Crew.start context fun _ => pause).run slowTurns).workers.map Worker.outcome
    let produced := some (.ok (.produced ⟨1, 3⟩))
    let staged := fun number => some (.ok (.staged ⟨number, 1, 0⟩))
    settings.runConfig = .ok config ∧ settings.stallTime = some 1000000 ∧
      config.Forces 5000000 ∧ ¬ 5000000 < 1000000 ∧ ∃ context,
        Run.Context.create .empty config = .ok context ∧
          outcomes context (Session.pause settings) =
            [some (.error (.failed ⟨[.awaitingGate 2 "stage-1" 0], .stalled 1⟩)), staged 1,
              produced] ∧
          outcomes context .yielding = [staged 2, staged 1, produced] := by
  intro settings config outcomes produced staged
  have hshown : (Run.Context.create .empty config).toOption.map (fun context =>
      (outcomes context (Session.pause settings), outcomes context .yielding)) =
        some ([some (.error (.failed ⟨[.awaitingGate 2 "stage-1" 0], .stalled 1⟩)), staged 1,
          produced], [staged 2, staged 1, produced]) := by
    decide +kernel
  refine ⟨by decide, rfl, .delay (show 1 < config.stages by decide) rfl, by decide, ?_⟩
  cases hcreate : Run.Context.create .empty config with
  | error problem => simp [hcreate, Except.toOption] at hshown
  | ok context =>
      simp only [hcreate, Except.toOption, Option.map_some, Option.some.injEq,
        Prod.mk.injEq] at hshown
      exact ⟨context, rfl, hshown⟩

end Bench

end GatedPipeline
