import Mathlib.Data.List.Induction
import GatedPipeline.Pause

/-!
Pauses in use. Each waiter has a pause of its own, and may give others a copy of it. What a pause
has come to depends on its own life alone: on what was done with it and, if it is a copy, with the
one it was copied from before that.
-/

namespace GatedPipeline.Pause

/-- What is done with one pause. After `copy` it is a copy of what it was. -/
inductive Use where
  | pause (now : Nat)
  | reset
  | copy
  deriving DecidableEq, Repr

def use (held : Pause) : Use → Pause
  | .pause now => (held.pause now).1
  | .reset => held.reset
  | .copy => held.copy

def after (held : Pause) (life : List Use) : Pause := life.foldl use held

/-- What is done with several pauses, numbered in the order in which they are made. `copy` makes one
more, a copy of the one it names. -/
inductive Act where
  | pause (number now : Nat)
  | reset (number : Nat)
  | copy (number : Nat)
  deriving DecidableEq, Repr

/-- Does what an act does to each pause to something that is kept for each of them. -/
def Act.on {α : Type} (step : α → Use → α) (all : List α) : Act → List α
  | .pause number now => all.modify number (step · (.pause now))
  | .reset number => all.modify number (step · .reset)
  | .copy number => all ++ all[number]?.toList.map (step · .copy)

/-- The pauses there are when one has been made and all others are copies. -/
def manyAfter (first : Pause) (acts : List Act) : List Pause := acts.foldl (Act.on use) [first]

def lives (acts : List Act) : List (List Use) :=
  acts.foldl (Act.on fun life use => life ++ [use]) [[]]

def answerOf (pauses : List Pause) (number now : Nat) : Option (Except Problem Unit) :=
  pauses[number]?.map fun held => (held.pause now).2

theorem after_snoc (held : Pause) (life : List Use) (next : Use) :
    held.after (life ++ [next]) = (held.after life).use next := by
  simp only [after, List.foldl_append, List.foldl_cons, List.foldl_nil]

/-- An act does the same to what is kept and to what is computed from it. -/
theorem Act.on_map {α β : Type} {step : α → Use → α} {keep : β → Use → β} {value : β → α}
    (hstep : ∀ kept next, value (keep kept next) = step (value kept) next) (all : List β)
    (act : Act) : act.on step (all.map value) = (act.on keep all).map value := by
  have hmodify : ∀ number next, (all.map value).modify number (step · next) =
      (all.modify number (keep · next)).map value := by
    intro number next
    apply List.ext_getElem?
    intro index
    simp only [List.getElem?_modify, List.getElem?_map]
    cases all[index]? with
    | none => rfl
    | some kept =>
        simp only [Option.map_some, Option.map_eq_map]
        split_ifs
        · simp only [hstep]
        · rfl
  cases act with
  | pause number now => exact hmodify number (.pause now)
  | reset number => exact hmodify number .reset
  | copy number =>
      simp only [on, List.map_append, List.getElem?_map]
      cases all[number]? with
      | none => rfl
      | some kept =>
          simp only [Option.map_some, Option.toList_some, List.map_cons, List.map_nil, hstep]

/-- Each pause is what its life has made of the first one. -/
theorem manyAfter_eq (first : Pause) (acts : List Act) :
    manyAfter first acts = (lives acts).map first.after := by
  induction acts using List.reverseRecOn with
  | nil => rfl
  | append_singleton acts last ih =>
      simp only [manyAfter, lives, List.foldl_append, List.foldl_cons, List.foldl_nil] at ih ⊢
      rw [ih]
      exact Act.on_map (after_snoc first) _ last

theorem answerOf_life {acts : List Act} {number : Nat} {life : List Use}
    (hlife : (lives acts)[number]? = some life) (first : Pause) (now : Nat) :
    answerOf (manyAfter first acts) number now = some ((first.after life).pause now).2 := by
  rw [answerOf, manyAfter_eq, List.getElem?_map, hlife]
  rfl

end GatedPipeline.Pause
