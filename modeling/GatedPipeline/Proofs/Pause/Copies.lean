import GatedPipeline.Proofs.Arithmetic
import GatedPipeline.Proofs.Pause.Deadline
import GatedPipeline.Proofs.Worker.Causes

/-!
Copies of pauses. A copy starts with what its kind keeps of the pause it is made of. Pauses that
only spin or yield have nothing to keep, and a copied deadline has not begun to wait. A bounded
pause keeps its count: its copy has only those misses left that the pause had before it gives up. So
a copy is as good as new unless it is made of a bounded pause that has missed since its last reset.
-/

namespace GatedPipeline.Pause

/-- How a pause is made, with what it is made of. -/
inductive Made where
  | spinning
  | yielding
  | bounded (limit : Nat)
  | deadline (timeout : Nat)
  deriving DecidableEq, Repr

def Made.pause : Made → Pause
  | .spinning => .spinning
  | .yielding => .yielding
  | .bounded limit => boundedBy limit
  | .deadline timeout => within timeout

/-! ### What a life leaves -/

theorem after_append (held : Pause) (first second : List Use) :
    held.after (first ++ second) = (held.after first).after second := by
  simp only [after, List.foldl_append]

/-- The misses since the last reset. A copy goes on with those of the pause it is made of. -/
def misses (life : List Use) : Nat :=
  life.foldl (fun count next =>
    match next with
    | .pause _ => count + 1
    | .reset => 0
    | .copy => count) 0

theorem misses_pause (life : List Use) (now : Nat) :
    misses (life ++ [.pause now]) = misses life + 1 := by
  simp only [misses, List.foldl_append, List.foldl_cons, List.foldl_nil]

theorem misses_reset (life : List Use) : misses (life ++ [.reset]) = 0 := by
  simp only [misses, List.foldl_append, List.foldl_cons, List.foldl_nil]

theorem misses_copy (life : List Use) : misses (life ++ [.copy]) = misses life := by
  simp only [misses, List.foldl_append, List.foldl_cons, List.foldl_nil]

theorem misses_pauses (life : List Use) (now times : Nat) :
    misses (life ++ List.replicate times (.pause now)) = misses life + times := by
  induction times with
  | zero => rw [List.replicate_zero, List.append_nil, Nat.add_zero]
  | succ times ih => rw [List.replicate_succ', ← List.append_assoc, misses_pause, ih, Nat.add_assoc]

/-- A bounded pause counts its misses as far as a word goes. -/
theorem after_boundedBy (limit : Nat) (life : List Use) :
    (boundedBy limit).after life = .bounded limit (min (misses life) (wordLimit - 1)) := by
  induction life using List.reverseRecOn with
  | nil => rfl
  | append_singleton life last ih =>
      rw [after_snoc, ih]
      cases last with
      | pause now =>
          rw [misses_pause, use, pause]
          by_cases hsmall : misses life + 1 < wordLimit
          · rw [Nat.min_eq_left (by omega), Nat.min_eq_left (by omega), Checked.add_ok hsmall]
            simp only
            split <;> rfl
          · have hfull : min (misses life) (wordLimit - 1) = wordLimit - 1 :=
              Nat.min_eq_right (by omega)
            rw [hfull, Nat.min_eq_right (by omega), Checked.add_over (by decide)]
      | reset =>
          rw [misses_reset]
          rfl
      | copy =>
          rw [misses_copy]
          rfl

/-- A pause that nothing changes. -/
theorem after_steady {held : Pause} (hsteady : ∀ next, held.use next = held) (life : List Use) :
    held.after life = held := by
  induction life with
  | nil => rfl
  | cons first rest ih => rwa [after, List.foldl_cons, hsteady]

theorem spinning_steady (next : Use) : spinning.use next = .spinning := by cases next <;> rfl

theorem yielding_steady (next : Use) : yielding.use next = .yielding := by cases next <;> rfl

/-! ### Copies -/

/-- A bounded pause that has missed since its last reset. -/
def Made.Spent (made : Made) (life : List Use) : Prop :=
  (∃ limit, made = .bounded limit) ∧ misses life ≠ 0

/-- A copy of any other pause is as it was made. -/
theorem copy_unspent {made : Made} {before : List Use} (h : ¬ made.Spent before) :
    (made.pause.after before).copy = made.pause := by
  cases made with
  | spinning => exact congrArg copy (after_steady spinning_steady before)
  | yielding => exact congrArg copy (after_steady yielding_steady before)
  | deadline timeout => exact congrArg copy (after_within timeout before)
  | bounded limit =>
      have hnone : misses before = 0 := Decidable.not_not.mp fun hsome => h ⟨⟨limit, rfl⟩, hsome⟩
      rw [Made.pause, after_boundedBy, hnone]
      rfl

/-- A copy of a bounded pause has its count. -/
theorem copy_bounded (limit : Nat) (before : List Use) :
    ((boundedBy limit).after before).copy =
      .bounded limit (min (misses before) (wordLimit - 1)) :=
  congrArg copy (after_boundedBy limit before)

theorem copy_eq_iff (made : Made) (before : List Use) :
    (made.pause.after before).copy = made.pause ↔ ¬ made.Spent before := by
  refine ⟨?_, copy_unspent⟩
  rintro hsame ⟨⟨limit, rfl⟩, hsome⟩
  rw [Made.pause, copy_bounded, boundedBy, Pause.bounded.injEq] at hsame
  simp only [wordLimit] at hsame
  omega

/-- A copy that is reset is as it was made. -/
theorem reset_copy (made : Made) (before : List Use) :
    (made.pause.after before).copy.reset = made.pause := by
  cases made with
  | spinning => exact congrArg (reset ∘ copy) (after_steady spinning_steady before)
  | yielding => exact congrArg (reset ∘ copy) (after_steady yielding_steady before)
  | deadline timeout => exact congrArg (reset ∘ copy) (after_within timeout before)
  | bounded limit => exact congrArg reset (copy_bounded limit before)

/-- A bounded pause goes on as often as its count is below its limit. -/
theorem pauseTimes_bounded {limit : Nat} (hlimit : limit < wordLimit)
    (tick times done now polls : Nat) :
    (pauseTimes tick times done now (.bounded limit polls)).2.2.1 =
      done + min times (limit - polls) := by
  induction times generalizing done now polls with
  | zero => simp [pauseTimes]
  | succ times ih =>
      simp only [pauseTimes, pause]
      by_cases hsmall : polls + 1 < wordLimit
      · simp only [Checked.add_ok hsmall]
        by_cases hover : limit < polls + 1
        · rw [if_pos hover]
          change done = _
          omega
        · rw [if_neg hover]
          simp only [ih]
          omega
      · simp only [Checked.add_over hsmall]
        omega

/-! ### Lives -/

/-- There are pauses of every life. -/
theorem lives_reach (life : List Use) :
    ∃ (acts : List Act) (number : Nat), (lives acts)[number]? = some life := by
  induction life using List.reverseRecOn with
  | nil => exact ⟨[], 0, rfl⟩
  | append_singleton life last ih =>
      obtain ⟨acts, number, hlife⟩ := ih
      have hsnoc : ∀ act, lives (acts ++ [act]) =
          act.on (fun life use => life ++ [use]) (lives acts) := by
        intro act
        simp only [lives, List.foldl_append, List.foldl_cons, List.foldl_nil]
      cases last with
      | pause now =>
          refine ⟨acts ++ [.pause number now], number, ?_⟩
          rw [hsnoc, Act.on, List.getElem?_modify_eq, hlife]
          rfl
      | reset =>
          refine ⟨acts ++ [.reset number], number, ?_⟩
          rw [hsnoc, Act.on, List.getElem?_modify_eq, hlife]
          rfl
      | copy =>
          refine ⟨acts ++ [.copy number], (lives acts).length, ?_⟩
          rw [hsnoc, Act.on, hlife, List.getElem?_append_right (Nat.le_refl _), Nat.sub_self]
          rfl

/-- Whichever of several pauses it is, a copy made of a pause with that life answers from then on
what a pause just made would answer to the same calls. -/
def StartsFresh (made : Made) (before : List Use) : Prop :=
  ∀ acts number later, (lives acts)[number]? = some (before ++ .copy :: later) →
    ∀ now, answerOf (manyAfter made.pause acts) number now =
      some ((made.pause.after later).pause now).2

theorem startsFresh_iff (made : Made) (before : List Use) :
    StartsFresh made before ↔ ¬ made.Spent before := by
  constructor
  · rintro hfresh ⟨⟨limit, rfl⟩, hsome⟩
    -- so many misses later the copy has counted all that a word holds, a new pause one less
    obtain ⟨later, hlater⟩ : ∃ later, later = List.replicate (wordLimit - 2) (Use.pause 0) :=
      ⟨_, rfl⟩
    obtain ⟨acts, number, hlife⟩ := lives_reach (before ++ .copy :: later)
    have hmany : misses (before ++ .copy :: later) = misses before + (wordLimit - 2) := by
      rw [hlater, ← List.singleton_append, ← List.append_assoc, misses_pauses, misses_copy]
    have hfew : misses later = wordLimit - 2 := by
      have h := misses_pauses [] 0 (wordLimit - 2)
      rwa [List.nil_append, ← hlater, show misses [] = 0 from rfl, Nat.zero_add] at h
    have hsame := hfresh acts number later hlife 0
    rw [answerOf_life hlife] at hsame
    simp only [Made.pause, after_boundedBy, hmany, hfew] at hsame
    rw [Nat.min_eq_right (by omega), Nat.min_eq_left (by omega)] at hsame
    simp only [pause, Checked.add_over (show ¬ wordLimit - 1 + 1 < wordLimit by decide),
      Checked.add_ok (show wordLimit - 2 + 1 < wordLimit by decide)] at hsame
    split at hsame <;> cases hsame
  · intro hunspent acts number later hlife now
    rw [answerOf_life hlife, ← List.singleton_append, after_append, after_append]
    exact congrArg (fun held => some ((after held later).pause now).2) (copy_unspent hunspent)

/-- Each worker has the pause it is given. -/
theorem forall_pause (context : Run.Context) (given held : Pause) :
    (∀ worker ∈ (Crew.start context fun _ => given).workers, worker.pause = held) ↔
      given = held := by
  have hpause : ∀ role, (Worker.start given role).pause = given := by
    intro role
    cases role <;> rfl
  simp only [Crew.start, List.forall_mem_map, hpause]
  exact ⟨fun h => h .producer (List.mem_append_right _ (List.mem_singleton_self _)), fun h _ _ => h⟩

/-- What a copy is worth that is made of a pause with that life. It goes on like a new pause exactly
where the pause is not spent, and after a reset in every case. A copy of a bounded pause goes on as
often as the pause itself would have. By `workers` the workers of a run, each with a copy of its
own, all start with a new pause in the cases of `fresh`. -/
structure Copies (made : Made) (before : List Use) : Prop where
  fresh : StartsFresh made before ↔ ¬ made.Spent before
  budget : ∀ limit, made = .bounded limit → limit < wordLimit → ∀ tick times now,
    (pauseTimes tick times 0 now (made.pause.after before).copy).2.2.1 =
      min times (limit - misses before)
  reset : (made.pause.after before).copy.reset = made.pause
  workers : ∀ context : Run.Context,
    (∀ worker ∈ (Crew.start context fun _ => (made.pause.after before).copy).workers,
      worker.pause = made.pause) ↔ ¬ made.Spent before

/-- A copy starts a wait of its own, unless it is made of a bounded pause in the middle of a wait.
-/
theorem copies_start_fresh (made : Made) (before : List Use) : Copies made before where
  fresh := startsFresh_iff made before
  budget := by
    rintro limit rfl hlimit tick times now
    rw [Made.pause, copy_bounded, pauseTimes_bounded hlimit]
    omega
  reset := reset_copy made before
  workers context := by rw [forall_pause, copy_eq_iff]

/-- A pause of one miss that has been made has none left for its copy. -/
theorem copies_start_fresh_spent :
    let acts : List Act := [.pause 0 0, .copy 0]
    (lives acts)[1]? = some [.pause 0, .copy] ∧
      answerOf (manyAfter (boundedBy 1) acts) 1 0 = some (.error (.of (.noProgress 1))) ∧
      ((boundedBy 1).pause 0).2 = .ok () := by
  exact ⟨rfl, rfl, rfl⟩

end GatedPipeline.Pause
