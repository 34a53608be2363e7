import GatedPipeline.Word

/-!
Header words. A header says what follows it in the log: nothing yet, a filler to skip, or a
committed record. The top bit marks a record, the bit below it a filler, the rest is a length in
bytes. A word with both bits counts as a filler.
-/

namespace GatedPipeline.Log

def committedMark : Nat := 9223372036854775808

def paddingMark : Nat := 4611686018427387904

/-- What a header word stands for. An empty one is not written yet. The next header is `skip` bytes
behind a filler, and a record has a body of `length` bytes. -/
inductive Header where
  | empty
  | padding (skip : Nat)
  | record (length : Nat)
  | malformed
  deriving DecidableEq, Repr

namespace Header

def ofWord (word : Word) : Header :=
  if word = 0 then .empty
  else if word.toNat / paddingMark % 2 = 1 then .padding (word.toNat % paddingMark)
  else if word.toNat / committedMark = 1 then .record (word.toNat % paddingMark)
  else .malformed

def paddingWord (skip : Nat) : Word := UInt64.ofNat (paddingMark + skip)

def recordWord (length : Nat) : Word := UInt64.ofNat (committedMark + length)

theorem ofWord_zero : ofWord 0 = .empty := rfl

theorem ofWord_padding (skip : Nat) (small : skip < paddingMark) :
    ofWord (paddingWord skip) = .padding skip := by
  have value : (paddingWord skip).toNat = paddingMark + skip := by
    simp only [paddingWord, UInt64.toNat_ofNat', paddingMark] at *
    omega
  have nonzero : paddingWord skip ≠ 0 := by
    intro zero
    rw [zero] at value
    simp only [paddingMark, UInt64.toNat_zero] at value
    omega
  rw [ofWord, if_neg nonzero, value, if_pos (by simp only [paddingMark] at *; omega)]
  congr 1
  simp only [paddingMark] at *
  omega

theorem ofWord_record (length : Nat) (small : length < paddingMark) :
    ofWord (recordWord length) = .record length := by
  have value : (recordWord length).toNat = committedMark + length := by
    simp only [recordWord, UInt64.toNat_ofNat', paddingMark, committedMark] at *
    omega
  have nonzero : recordWord length ≠ 0 := by
    intro zero
    rw [zero] at value
    simp only [committedMark, UInt64.toNat_zero] at value
    omega
  rw [ofWord, if_neg nonzero, value, if_neg (by simp only [paddingMark, committedMark] at *; omega),
    if_pos (by simp only [paddingMark, committedMark] at *; omega)]
  congr 1
  simp only [paddingMark, committedMark] at *
  omega

end Header

end GatedPipeline.Log
