import GraphTensor.Word
import Mathlib.Algebra.Group.Int.Defs
import Mathlib.Algebra.Group.Nat.Defs
set_option autoImplicit false

/-! # Counts of cells and counts as signed words

A buffer that can be addressed has the cells that were asked for (`Word.cells?_eq_some`). A count
below `2 ^ 63` reads as itself (`SignedWord.ofCount_of_lt`), larger ones read as negative, and no
two words read as the same, so a signed word that is not negative still tells which count it came
from. -/

namespace GraphTensor

theorem Word.cells?_eq_some {count width n : Nat} (h : cells? count width = some n) :
    n = count ∧ count * width < 2 ^ 63 := by
  unfold cells? at h
  split at h
  · next hlt => exact ⟨(Option.some.inj h).symm, hlt⟩
  · cases h

namespace SignedWord

theorem fits_iff {n : Int} : fits n = true ↔ -2 ^ 63 ≤ n ∧ n < 2 ^ 63 := by
  simp only [fits, Bool.and_eq_true, decide_eq_true_eq]

theorem ofInt?_eq_some_iff {n k : Int} : ofInt? n = some k ↔ fits n = true ∧ n = k := by
  by_cases h : fits n = true <;> simp [ofInt?, h]

theorem fits_ofCount (n : Nat) : fits (ofCount n) = true := by
  have h : -2 ^ 63 ≤ ofCount n ∧ ofCount n < 2 ^ 63 := by
    simp only [ofCount, wrap, Word.bound, Int.bmod_def]
    omega
  exact fits_iff.2 h

theorem ofCount_of_lt {n : Nat} (h : n < 2 ^ 63) : ofCount n = n :=
  wrap_of_fits (by simp only [fits, Bool.and_eq_true, decide_eq_true_eq]; omega)

theorem ofCount_le (n : Nat) : ofCount n ≤ n := by
  simp only [ofCount, wrap, Word.bound, Int.bmod_def]
  omega

/-- A word that reads as a number that is not negative is that number. -/
theorem eq_of_ofCount_eq {n k : Nat} (hn : n < Word.bound) (h : ofCount n = k) : k = n := by
  simp only [ofCount, wrap, Word.bound, Int.bmod_def] at hn h
  omega

theorem ofCount_inj {n k : Nat} (hn : n < Word.bound) (hk : k < Word.bound)
    (h : ofCount n = ofCount k) : n = k := by
  simp only [ofCount, wrap, Word.bound, Int.bmod_def] at hn hk h
  omega

end SignedWord

end GraphTensor
