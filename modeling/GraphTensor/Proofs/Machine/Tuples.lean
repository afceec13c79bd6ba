import GraphTensor.Proofs.Machine.Entries
import Mathlib.Algebra.BigOperators.Group.List.Lemmas
set_option autoImplicit false

/-! # The tuples of a dense tensor

Row-major order numbers the index tuples of a tensor without gaps: every number below the product
of the extents is the place of just one tuple (`tupleAt`). The place that is computed for integers
which are no such tuple need not lie outside these numbers, since an index past its extent runs on
into the next row.

`OffPlace` is the condition that the check of a dense access really makes. `offsetWord?` computes
the offset as a run does, each step in signed words, and fails with the first step that leaves
them. -/

namespace GraphTensor

variable {extents indices : List Nat} {place : Nat}

/-! ## The tuple at a place -/

/-- The index tuple at a row-major place. -/
def tupleAt : List Nat → Nat → List Nat
  | [], _ => []
  | _ :: extents, place => place / extents.prod :: tupleAt extents (place % extents.prod)

theorem withinExtents_tupleAt (h : place < extents.prod) :
    WithinExtents extents (tupleAt extents place) := by
  induction extents generalizing place with
  | nil => exact .nil
  | cons extent extents ih =>
      rw [List.prod_cons] at h
      have hpos : 0 < extents.prod := Nat.pos_of_ne_zero fun hzero => by simp [hzero] at h
      exact .cons (Nat.div_lt_of_lt_mul (by rwa [Nat.mul_comm])) (ih (Nat.mod_lt place hpos))

theorem flatPlace_tupleAt (h : place < extents.prod) :
    flatPlace extents (tupleAt extents place) = place := by
  induction extents generalizing place with
  | nil =>
      obtain rfl : place = 0 := by simpa using h
      rfl
  | cons extent extents ih =>
      rw [List.prod_cons] at h
      have hpos : 0 < extents.prod := Nat.pos_of_ne_zero fun hzero => by simp [hzero] at h
      have hmod := Nat.mod_lt place hpos
      rw [tupleAt, flatPlace_cons (withinExtents_tupleAt hmod).length_eq, ih hmod, Nat.mul_comm,
        Nat.div_add_mod]

theorem existsUnique_tuple (h : place < extents.prod) :
    ∃! indices, WithinExtents extents indices ∧ flatPlace extents indices = place :=
  ⟨tupleAt extents place, ⟨withinExtents_tupleAt h, flatPlace_tupleAt h⟩, fun _ hother =>
    flatPlace_inj hother.1 (withinExtents_tupleAt h)
      (hother.2.trans (flatPlace_tupleAt h).symm)⟩

/-! ## Integers that are no tuple -/

/-- The place that integers are computed to have lies outside the tensor. -/
def OffPlace (extents : List Nat) (xs : List Int) : Prop :=
  rowMajorPlace extents xs < 0 ∨ extents.prod ≤ rowMajorPlace extents xs

/-! ## Places in signed words -/

/-- The row-major place of the tuple that starts with an index at place `start`, computed in signed
    words; there is none if a step leaves them. -/
def rowMajorWord? (start : Int) : List Int → List Nat → Option Int
  | x :: xs, extent :: extents => do
    let scaled ← SignedWord.ofInt? (start * SignedWord.ofCount extent)
    let next ← SignedWord.ofInt? (scaled + x)
    rowMajorWord? next xs extents
  | [], _ => some start
  | _, [] => some start

/-- The row-major place of integer indices, computed in signed words. -/
def placeWord? : List Int → List Nat → Option Int
  | x :: xs, _ :: extents => rowMajorWord? x xs extents
  | [], _ => some 0
  | _, [] => some 0

/-- The offset of the block at integer indices, computed in signed words. -/
def offsetWord? (extents : List Nat) (length : Nat) (xs : List Int) : Option Int :=
  (placeWord? xs extents).bind fun place =>
    if length = 1 then some place else SignedWord.ofInt? (place * SignedWord.ofCount length)

theorem fits_of_rowMajorWord? {start place : Int} {xs : List Int}
    (hstart : SignedWord.fits start = true) (h : rowMajorWord? start xs extents = some place) :
    SignedWord.fits place = true := by
  induction xs generalizing start extents with
  | nil =>
      simp only [rowMajorWord?, Option.some.injEq] at h
      exact h ▸ hstart
  | cons x xs ih =>
      cases extents with
      | nil =>
          simp only [rowMajorWord?, Option.some.injEq] at h
          exact h ▸ hstart
      | cons extent extents =>
          obtain ⟨scaled, _, h⟩ := Option.bind_eq_some_iff.1 h
          obtain ⟨next, hnext, h⟩ := Option.bind_eq_some_iff.1 h
          obtain ⟨hfits, rfl⟩ := SignedWord.ofInt?_eq_some_iff.1 hnext
          exact ih hfits h

theorem fits_of_offsetWord? {length : Nat} {xs : List Int} {offset : Int}
    (hxs : ∀ x ∈ xs, SignedWord.fits x = true) (h : offsetWord? extents length xs = some offset) :
    SignedWord.fits offset = true := by
  obtain ⟨place, hplace, h⟩ := Option.bind_eq_some_iff.1 h
  split at h
  · obtain rfl := Option.some.inj h
    unfold placeWord? at hplace
    split at hplace
    · exact fits_of_rowMajorWord? (hxs _ (List.mem_cons_self ..)) hplace
    · obtain rfl := Option.some.inj hplace
      decide
    · obtain rfl := Option.some.inj hplace
      decide
  · obtain ⟨hfits, rfl⟩ := SignedWord.ofInt?_eq_some_iff.1 h
    exact hfits

/-- The place of a tuple is computed without leaving the signed words if the number of tuples is
    one. -/
theorem rowMajorWord?_of_within {start : Nat} (h : WithinExtents extents indices)
    (hsmall : ∀ n ∈ extents, n < 2 ^ 63)
    (hroom : start * extents.prod + flatPlace extents indices < 2 ^ 63) :
    rowMajorWord? start (indices.map Nat.cast) extents =
      some ((start * extents.prod + flatPlace extents indices : Nat) : Int) := by
  induction h generalizing start with
  | nil => simp [rowMajorWord?, flatPlace]
  | @cons index extent indices extents hlt hrest ih =>
      have hpos : 0 < extents.prod := Nat.zero_lt_of_lt (flatPlace_lt hrest)
      have hsame : start * (extent :: extents).prod + flatPlace (extent :: extents) (index :: indices) =
          (start * extent + index) * extents.prod + flatPlace extents indices := by
        rw [flatPlace_cons hrest.length_eq, List.prod_cons, Nat.add_mul, Nat.mul_assoc,
          Nat.add_assoc]
      rw [hsame] at hroom ⊢
      -- no step is larger than the place of the tuple
      have hnext : start * extent + index ≤ (start * extent + index) * extents.prod :=
        Nat.le_mul_of_pos_right _ hpos
      have hscaled : SignedWord.ofInt? ((start : Int) * SignedWord.ofCount extent) =
          some ((start * extent : Nat) : Int) := by
        rw [SignedWord.ofCount_of_lt (hsmall _ (List.mem_cons_self ..)),
          SignedWord.ofInt?_eq_some_iff]
        refine ⟨?_, by push_cast; rfl⟩
        simp only [SignedWord.fits, Bool.and_eq_true, decide_eq_true_eq]
        have : ((start * extent : Nat) : Int) = (start : Int) * extent := Nat.cast_mul ..
        omega
      have hsum : SignedWord.ofInt? (((start * extent : Nat) : Int) + (index : Int)) =
          some ((start * extent + index : Nat) : Int) := by
        rw [SignedWord.ofInt?_eq_some_iff]
        refine ⟨?_, by push_cast; rfl⟩
        simp only [SignedWord.fits, Bool.and_eq_true, decide_eq_true_eq]
        omega
      rw [List.map_cons, rowMajorWord?, hscaled, Option.bind_eq_bind, Option.bind_some, hsum,
        Option.bind_some, ih (fun n hn => hsmall n (List.mem_cons_of_mem _ hn)) hroom]

/-- The offset of a tuple is computed without leaving the signed words if these count the tuples and
    the numbers of their blocks. -/
theorem offsetWord?_of_within {length : Nat} (h : WithinExtents extents indices)
    (hprod : extents.prod < 2 ^ 63) (hroom : extents.prod * length < 2 ^ 63) :
    offsetWord? extents length (indices.map Nat.cast) =
      some ((flatPlace extents indices * length : Nat) : Int) := by
  have hplace := flatPlace_lt h
  have hsmall : ∀ n ∈ extents, n < 2 ^ 63 := by
    intro n hn
    have := Nat.le_of_dvd (Nat.zero_lt_of_lt hplace) (List.dvd_prod hn)
    omega
  have hstart : placeWord? (indices.map Nat.cast) extents =
      some ((flatPlace extents indices : Nat) : Int) := by
    cases h with
    | nil => rfl
    | @cons index extent indices extents hlt hrest =>
        have hflat := flatPlace_cons hrest.length_eq extent index
        rw [hflat] at hplace ⊢
        exact rowMajorWord?_of_within hrest (fun n hn => hsmall n (List.mem_cons_of_mem _ hn))
          (by omega)
  have hoffset : flatPlace extents indices * length ≤ extents.prod * length :=
    Nat.mul_le_mul_right _ hplace.le
  have hword : length < 2 ^ 63 := by
    have := Nat.le_mul_of_pos_left length (Nat.zero_lt_of_lt hplace)
    omega
  rw [offsetWord?, hstart, Option.bind_some]
  split
  · next hone => rw [hone, Nat.mul_one]
  · rw [SignedWord.ofCount_of_lt hword, SignedWord.ofInt?_eq_some_iff]
    refine ⟨?_, by push_cast; rfl⟩
    simp only [SignedWord.fits, Bool.and_eq_true, decide_eq_true_eq]
    have : ((flatPlace extents indices * length : Nat) : Int) =
        (flatPlace extents indices : Int) * length := Nat.cast_mul ..
    omega

end GraphTensor
