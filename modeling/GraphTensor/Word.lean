set_option autoImplicit false

/-! # Machine words

Sizes, positions and counts are unsigned words of 64 bits, and the integers of a program are signed
words of 64 bits. Both are held as unbounded numbers, and the functions here say where a result
leaves the word: the checked operations (`Word.add?`, `Word.mul?`, `SignedWord.ofInt?`) answer
`none` there, `SignedWord.saturate` goes to the nearest word, and `SignedWord.wrap` is the one
reading that keeps the low bits.

A count reaches the integers of a program by `SignedWord.ofCount`, which does not check: from
`2 ^ 63` on it reads as negative. `Word.cells?` is the bound on what can be allocated, which is
lower than that on what can be counted. -/

namespace GraphTensor

-- powers are those of numbers alone, whatever else has powers
attribute [local instance (high)] instPowNat

namespace Word

/-- The first number past an unsigned word. -/
def bound : Nat := 2 ^ (64 : Nat)

/-- A number, if it is an unsigned word. -/
def ofNat? (n : Nat) : Option Nat :=
  if n < bound then some n else none

/-- The sum of two words, if it is a word. -/
def add? (a b : Nat) : Option Nat :=
  ofNat? (a + b)

/-- The product of two words, if it is a word. -/
def mul? (a b : Nat) : Option Nat :=
  ofNat? (a * b)

/-- The number of cells of `width` bytes, if a buffer of that many cells can be addressed: it has
    to take up fewer than `2 ^ 63` bytes. -/
def cells? (count width : Nat) : Option Nat :=
  if count * width < 2 ^ (63 : Nat) then some count else none

theorem ofNat?_eq_some_iff {n m : Nat} : ofNat? n = some m ↔ n < bound ∧ n = m := by
  by_cases h : n < bound <;> simp [ofNat?, h]

theorem ofNat?_eq_none_iff {n : Nat} : ofNat? n = none ↔ bound ≤ n := by
  by_cases h : n < bound
  · simp [ofNat?, h]
  · simp only [ofNat?, h, if_false, true_iff]
    omega

end Word

namespace SignedWord

/-- An integer lies within a signed word. -/
def fits (n : Int) : Bool :=
  -(2 ^ (63 : Nat)) ≤ n && n < 2 ^ (63 : Nat)

/-- An integer, if it is a signed word. -/
def ofInt? (n : Int) : Option Int :=
  if fits n then some n else none

/-- The signed word with the same low 64 bits. -/
def wrap (n : Int) : Int :=
  n.bmod Word.bound

/-- The signed word nearest to an integer. -/
def saturate (n : Int) : Int :=
  max (-(2 ^ (63 : Nat))) (min n (2 ^ (63 : Nat) - 1))

/-- The signed word that stands for a count; a count from `2 ^ 63` on reads as negative. -/
def ofCount (n : Nat) : Int :=
  wrap n

/-- The unsigned word that a non-negative integer stands for. -/
def toCount? (n : Int) : Option Nat :=
  if 0 ≤ n then some n.toNat else none

theorem wrap_of_fits {n : Int} (h : fits n = true) : wrap n = n := by
  simp only [fits, Bool.and_eq_true, decide_eq_true_eq] at h
  rw [wrap, Word.bound, Int.bmod_def]
  omega

end SignedWord

end GraphTensor
