import GatedPipeline.Word

/-!
Computations that go through: how an `Except` block goes on behind a step that gave a value or
ended, checked arithmetic on numbers that stay in bounds, and words as signed numbers.
-/

namespace GatedPipeline

theorem ok_bind {ε α β : Type} (a : α) (f : α → Except ε β) : (Except.ok a >>= f) = f a := rfl

theorem error_bind {ε α β : Type} (e : ε) (f : α → Except ε β) :
    (Except.error e >>= f) = .error e := rfl

theorem bind_ok_iff {ε α β : Type} {first : Except ε α} {next : α → Except ε β} {result : β} :
    (first >>= next) = .ok result ↔ ∃ value, first = .ok value ∧ next value = .ok result := by
  cases first <;> simp [ok_bind, error_bind]

theorem bind_error_iff {ε α β : Type} {first : Except ε α} {next : α → Except ε β} {error : ε} :
    (first >>= next) = .error error ↔
      first = .error error ∨ ∃ value, first = .ok value ∧ next value = .error error := by
  cases first <;> simp [ok_bind, error_bind]

/-- Nothing comes after a check that refuses. -/
theorem check_ok_iff {ε α : Type} {refused : Prop} [Decidable refused] {error : ε}
    {rest : PUnit → Except ε α} {result : α} :
    (if refused then throw error >>= rest else rest ⟨⟩) = .ok result ↔
      ¬ refused ∧ rest ⟨⟩ = .ok result := by
  by_cases hrefused : refused
  · rw [if_pos hrefused]
    constructor
    · rintro ⟨⟩
    · exact fun h => absurd hrefused h.1
  · rw [if_neg hrefused]
    exact ⟨fun h => ⟨hrefused, h⟩, And.right⟩

theorem mapError_ok_iff {ε δ α : Type} {result : Except ε α} {other : ε → δ} {value : α} :
    result.mapError other = .ok value ↔ result = .ok value := by
  cases result with
  | ok given => exact ⟨fun h => by cases h; rfl, fun h => by cases h; rfl⟩
  | error problem => exact ⟨nofun, nofun⟩

theorem orBroken_ok {α : Type} (value : α) : orBroken (.ok value) = .ok value := rfl

theorem orBroken_ok_iff {α : Type} {result : Except Fault α} {value : α} :
    orBroken result = .ok value ↔ result = .ok value := by
  cases result with
  | ok given => exact ⟨fun h => by cases h; rfl, fun h => by cases h; rfl⟩
  | error fault => exact ⟨nofun, nofun⟩

namespace Checked

theorem add_ok {a b : Nat} (h : a + b < wordLimit) : add a b = .ok (a + b) := if_pos h

theorem mul_ok {a b : Nat} (h : a * b < wordLimit) : mul a b = .ok (a * b) := if_pos h

theorem add_over {a b : Nat} (h : ¬ a + b < wordLimit) : add a b = .error .addOverflow := if_neg h

theorem mul_over {a b : Nat} (h : ¬ a * b < wordLimit) : mul a b = .error .multiplyOverflow :=
  if_neg h

theorem sub_ok {a b : Nat} (h : b ≤ a) : sub a b = .ok (a - b) := if_pos h

/-! A result that is given at all is exact. -/

theorem add_exact {a b sum : Nat} (h : add a b = .ok sum) : sum = a + b := by
  unfold add at h
  split at h <;> cases h
  rfl

theorem mul_exact {a b product : Nat} (h : mul a b = .ok product) : product = a * b := by
  unfold mul at h
  split at h <;> cases h
  rfl

theorem sub_exact {a b difference : Nat} (h : sub a b = .ok difference) : difference + b = a := by
  unfold sub at h
  split at h <;> cases h
  omega

end Checked

namespace Word

theorem ofSigned_signed (word : Word) : ofSigned word.signed = word := by
  simp [ofSigned, signed]

theorem ofSigned_natCast (n : Nat) : ofSigned (n : Int) = UInt64.ofNat n := by
  apply UInt64.toBitVec_inj.mp
  simp only [ofSigned, Int64.ofInt, BitVec.ofInt_natCast]
  rfl

/-- Numbers below the bound of signed words are read as they are. -/
theorem signed_ofNat {n : Nat} (h : (n : Int) < signedLimit) : signed (UInt64.ofNat n) = n := by
  rw [← ofSigned_natCast, signed_ofSigned _ (by simp only [signedLimit]; omega) h]

/-- Other words are read as negative. -/
theorem signed_eq (word : Word) : word.signed =
    if (word.toNat : Int) < signedLimit then (word.toNat : Int) else word.toNat - wordLimit := by
  have hread : word.signed = word.toBitVec.toInt := rfl
  rw [hread, BitVec.toInt_eq_toNat_cond, UInt64.toNat_toBitVec]
  by_cases hlow : (word.toNat : Int) < signedLimit
  · rw [if_pos hlow, if_pos (by simp only [signedLimit] at hlow; omega)]
  · rw [if_neg hlow, if_neg (by simp only [signedLimit] at hlow; omega)]
    rfl

theorem signed_eq_zero (word : Word) : word.signed = 0 ↔ word = 0 := by
  refine ⟨fun h => ?_, fun h => h ▸ rfl⟩
  rw [← ofSigned_signed word, h]
  rfl

theorem ofNat_eq_zero {n : Nat} (h : n < wordLimit) : UInt64.ofNat n = 0 ↔ n = 0 := by
  rw [← UInt64.toNat_inj, UInt64.toNat_ofNat']
  simp only [wordLimit] at h
  simp only [UInt64.toNat_zero]
  omega

end Word

end GatedPipeline
