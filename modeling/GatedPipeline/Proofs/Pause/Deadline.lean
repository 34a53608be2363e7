import GatedPipeline.Proofs.Pause.Lives

/-!
Deadlines. A wait begins with the first pause behind the making of the deadline, its copying or its
last reset, and the deadline gives up at a reading that lies behind that first one by more than its
timeout. A timeout is kept as a word of nanoseconds: one that does not fit loses whole multiples of
`2 ^ 64`, and the deadline gives up that much too early.
-/

namespace GatedPipeline.Pause

/-- The readings of the wait that is under way, in order. -/
def waiting (life : List Use) : List Nat :=
  life.foldl (fun readings next =>
    match next with
    | .pause now => readings ++ [now]
    | .reset | .copy => []) []

theorem waiting_pause (life : List Use) (now : Nat) :
    waiting (life ++ [.pause now]) = waiting life ++ [now] := by
  simp only [waiting, List.foldl_append, List.foldl_cons, List.foldl_nil]

theorem waiting_reset (life : List Use) : waiting (life ++ [.reset]) = [] := by
  simp only [waiting, List.foldl_append, List.foldl_cons, List.foldl_nil]

theorem waiting_copy (life : List Use) : waiting (life ++ [.copy]) = [] := by
  simp only [waiting, List.foldl_append, List.foldl_cons, List.foldl_nil]

/-- A deadline counts from the first reading of its wait, which may be this one. -/
theorem pause_deadline (timeout : Nat) (since : Option Nat) (now : Nat) :
    (deadline timeout since).pause now = (.deadline timeout (some (since.getD now)),
      if since.getD now + timeout < now then .error (.of (.stalled (timeout / 1000000)))
      else .ok ()) := by
  simp only [pause, Nat.lt_sub_iff_add_lt']
  split <;> rfl

/-- It remembers that reading, whatever it answered since. -/
theorem after_within (timeout : Nat) (life : List Use) :
    (within timeout).after life = .deadline (timeout % wordLimit) (waiting life).head? := by
  induction life using List.reverseRecOn with
  | nil => rfl
  | append_singleton life last ih =>
      rw [after_snoc, ih]
      cases last with
      | pause now =>
          rw [waiting_pause, List.head?_append, List.head?_singleton, use, pause_deadline]
          cases (waiting life).head? <;> rfl
      | reset => rw [waiting_reset]; rfl
      | copy => rw [waiting_copy]; rfl

/-- What a deadline answers at a reading when its wait began at another one. The timeout that counts
is the one that was given reduced to a word, so that one below `wordLimit` is the one that is kept.
By `overrun` no timeout is overrun without an error, whatever its size. -/
structure Stalls (timeout first now : Nat) (answer : Option (Except Problem Unit)) : Prop where
  answered : answer = some (
    if first + timeout % wordLimit < now then
      .error (.of (.stalled (timeout % wordLimit / 1000000)))
    else .ok ())
  kept : timeout < wordLimit →
    ((∃ problem, answer = some (.error problem)) ↔ first + timeout < now)
  overrun : first + timeout < now → ∃ problem, answer = some (.error problem)

/-- In whatever way deadlines are paused, reset and copied, each of them counts from the first
reading of its own wait. -/
theorem deadline_stalls (timeout : Nat) (acts : List Act) {number : Nat} {life : List Use}
    (hlife : (lives acts)[number]? = some life) (now : Nat) :
    ∃ first, (waiting (life ++ [.pause now])).head? = some first ∧
      Stalls timeout first now (answerOf (manyAfter (within timeout) acts) number now) := by
  obtain ⟨first, hfirst⟩ : ∃ first, (waiting life).head?.getD now = first := ⟨_, rfl⟩
  have hhead : (waiting (life ++ [.pause now])).head? = some first := by
    rw [waiting_pause, List.head?_append, List.head?_singleton, ← hfirst]
    cases (waiting life).head? <;> rfl
  have hanswer : answerOf (manyAfter (within timeout) acts) number now = some (
      if first + timeout % wordLimit < now then
        .error (.of (.stalled (timeout % wordLimit / 1000000)))
      else .ok ()) := by
    rw [answerOf_life hlife, after_within, pause_deadline, hfirst]
  have hfails : (∃ problem, answerOf (manyAfter (within timeout) acts) number now =
      some (.error problem)) ↔ first + timeout % wordLimit < now := by
    rw [hanswer]
    split
    case isTrue hlate => exact ⟨fun _ => hlate, fun _ => ⟨_, rfl⟩⟩
    case isFalse hearly => exact ⟨nofun, fun hlate => absurd hlate hearly⟩
  refine ⟨first, hhead, hanswer, fun hfits => ?_, fun hover => hfails.mpr ?_⟩
  · rw [hfails, Nat.mod_eq_of_lt hfits]
  · exact Nat.lt_of_le_of_lt (Nat.add_le_add_left (Nat.mod_le timeout wordLimit) first) hover

/-- A deadline of five waits from ten on and its copy from fourteen on. They give up at sixteen and
at twenty; then the copy is reset and waits anew, the other has not begun a new wait. -/
theorem deadline_stalls_copied :
    let acts : List Act := [.pause 0 10, .copy 0, .pause 1 14, .pause 0 16, .pause 1 20, .reset 1]
    Stalls 5 10 17 (answerOf (manyAfter (within 5) acts) 0 17) ∧
      Stalls 5 30 30 (answerOf (manyAfter (within 5) acts) 1 30) := by
  intro acts
  have hlife : (lives acts)[0]? = some [.pause 10, .pause 16] := by decide
  have hother : (lives acts)[1]? = some [.pause 10, .copy, .pause 14, .pause 20, .reset] := by
    decide
  obtain ⟨first, hfirst, hstalls⟩ := deadline_stalls 5 acts hlife 17
  obtain rfl : first = 10 := (Option.some.inj hfirst).symm
  obtain ⟨fresh, hfresh, hgoes⟩ := deadline_stalls 5 acts hother 30
  obtain rfl : fresh = 30 := (Option.some.inj hfresh).symm
  exact ⟨hstalls, hgoes⟩

/-- A deadline of `2 ^ 64` nanoseconds, some five hundred and eighty-four years, gives up after the
first of them. -/
theorem deadline_stalls_early :
    let timeout := 18446744073 * 1000000000 + 709551616
    let acts : List Act := [.pause 0 1000]
    (lives acts)[0]? = some [.pause 1000] ∧ (waiting [.pause 1000, .pause 1001]).head? = some 1000 ∧
      answerOf (manyAfter (within timeout) acts) 0 1001 = some (.error (.of (.stalled 0))) ∧
      ¬ 1000 + timeout < 1001 := by
  refine ⟨rfl, rfl, rfl, ?_⟩
  decide

end GatedPipeline.Pause
