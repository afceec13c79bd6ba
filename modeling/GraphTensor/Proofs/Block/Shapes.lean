import GraphTensor.Block.Value
import Mathlib.Algebra.Group.Nat.Defs
set_option autoImplicit false

/-! # Shapes of results

An operation on blocks whose shapes fit has a result, and the shapes tell its shape, whatever the
numbers are. A shape may ask for more numbers than there can be; `BlockShape.HasRoom` says that it
does not, which is what the allocation of a block needs.

`BlockShape.product` goes by the cases of both shapes. Each of the inversions below starts from the
shape of one side and says what the other side has to be, so that proofs on products need not go
through all of them. -/

namespace GraphTensor

/-- A block of the shape can be addressed: its numbers, of eight bytes each, take up fewer than
    `2 ^ 63` bytes. -/
def BlockShape.HasRoom (shape : BlockShape) : Prop :=
  (Word.cells? shape.length 8).isSome = true

instance (shape : BlockShape) : Decidable shape.HasRoom :=
  inferInstanceAs (Decidable (_ = _))

namespace BlockShape.HasRoom

variable {shape : BlockShape}

theorem length_lt (h : shape.HasRoom) : shape.length < 2 ^ (60 : Nat) := by
  obtain ⟨n, hn⟩ := Option.isSome_iff_exists.1 h
  simp only [Word.cells?, Option.ite_none_right_eq_some] at hn
  omega

theorem length?_eq (h : shape.HasRoom) : shape.length? = some shape.length :=
  Word.ofNat?_eq_some_iff.2 ⟨Nat.lt_trans h.length_lt (by decide), rfl⟩

theorem exists_zeros? {α : Type} [Scalar α] (h : shape.HasRoom) :
    ∃ zeros : BlockValue α, BlockValue.zeros? shape = some zeros := by
  obtain ⟨n, hn⟩ := Option.isSome_iff_exists.1 h
  exact ⟨_, congrArg (Option.map _) hn⟩

end BlockShape.HasRoom

/-! ## Products of shapes -/

namespace BlockShape

variable {x z shape : BlockShape} {n k r c : Nat}

theorem product_vector_vector_eq_some_iff :
    (vector n).product (vector k) = some shape ↔ n = k ∧ scalar = shape := by
  simp [product]

theorem product_vector_matrix_eq_some_iff :
    (vector n).product (matrix k c) = some shape ↔ n = k ∧ vector c = shape := by
  simp [product]

/-- A matrix takes a column of the length of its rows, or another matrix with as many rows. -/
theorem product_matrix_left_eq_some (h : (matrix r k).product z = some shape) (hz : z ≠ scalar) :
    (z = vector k ∧ shape = vector r) ∨ ∃ c, z = matrix k c ∧ shape = matrix r c := by
  cases z with
  | scalar => exact absurd rfl hz
  | vector n =>
      obtain ⟨rfl, rfl⟩ : k = n ∧ vector r = shape := by simpa [product] using h
      exact .inl ⟨rfl, rfl⟩
  | matrix l c =>
      obtain ⟨rfl, rfl⟩ : k = l ∧ matrix r c = shape := by simpa [product] using h
      exact .inr ⟨c, rfl, rfl⟩

/-- On the left of a matrix a vector is a row. -/
theorem product_matrix_right_eq_some (h : x.product (matrix r k) = some shape) (hx : x ≠ scalar) :
    (x = vector r ∧ shape = vector k) ∨ ∃ n, x = matrix n r ∧ shape = matrix n k := by
  cases x with
  | scalar => exact absurd rfl hx
  | vector n =>
      obtain ⟨rfl, rfl⟩ := product_vector_matrix_eq_some_iff.1 h
      exact .inl ⟨rfl, rfl⟩
  | matrix n m =>
      obtain ⟨rfl, rfl⟩ : m = r ∧ matrix n k = shape := by simpa [product] using h
      exact .inr ⟨n, rfl, rfl⟩

end BlockShape

/-! ## Blocks -/

namespace BlockValue

variable {α : Type} {a b : BlockValue α}

theorem ofArray?_of_size {shape : BlockShape} {data : Array α} (h : data.size = shape.length) :
    ∃ b, ofArray? shape data = some b ∧ b.shape = shape :=
  ⟨⟨shape, data, h⟩, dif_pos h, rfl⟩

theorem asScalar?_of_shape (h : b.shape = .scalar) : ∃ x, b.asScalar? = some x := by
  obtain ⟨shape, data, hsize⟩ := b
  obtain rfl : shape = .scalar := h
  exact ⟨_, Array.getElem?_eq_getElem (i := 0) (by simp [hsize, BlockShape.length])⟩

variable [Scalar α]

theorem add?_of_shape (h : a.shape = b.shape) : ∃ c, a.add? b = some c ∧ c.shape = a.shape :=
  ⟨_, dif_pos h, rfl⟩

theorem sub?_of_shape (h : a.shape = b.shape) : ∃ c, a.sub? b = some c ∧ c.shape = a.shape :=
  ⟨_, dif_pos h, rfl⟩

theorem div?_of_shape (h : b.shape = .scalar) : ∃ c, a.div? b = some c ∧ c.shape = a.shape := by
  obtain ⟨x, hx⟩ := asScalar?_of_shape h
  exact ⟨a.map (· / x), by rw [div?, hx]; rfl, rfl⟩

theorem size_mul (x y : DenseMatrix α) : (x.mul y).data.size = x.rows * y.cols := by
  simp [DenseMatrix.mul, DenseMatrix.ofFn]

theorem mul?_of_product {shape : BlockShape} (h : a.shape.product b.shape = some shape) :
    ∃ c, a.mul? b = some c ∧ c.shape = shape := by
  unfold mul?
  rw [h]
  dsimp only
  split
  · next ha =>
      rw [ha, BlockShape.product_scalar_left] at h
      exact ⟨_, rfl, Option.some.inj h⟩
  · next hb _ =>
      rw [hb, BlockShape.product_scalar_right] at h
      exact ⟨_, rfl, Option.some.inj h⟩
  · next ha hb =>
      rw [ha, hb] at h
      exact ⟨_, rfl, (BlockShape.product_vector_vector_eq_some_iff.1 h).2⟩
  · next n k c ha hb =>
      rw [ha, hb] at h
      obtain ⟨rfl, rfl⟩ := BlockShape.product_vector_matrix_eq_some_iff.1 h
      refine ofArray?_of_size ((size_mul ..).trans ?_)
      show b.shape.cols * a.shape.cols = c
      rw [ha, hb]
      exact Nat.mul_one c
  · next r k ha hb =>
      rw [ha] at h
      refine ofArray?_of_size ((size_mul ..).trans ?_)
      show a.shape.rows * b.shape.cols = shape.length
      rw [ha]
      obtain ⟨hs, rfl⟩ | ⟨c, hs, rfl⟩ := BlockShape.product_matrix_left_eq_some h hb <;> rw [hs]
      · exact Nat.mul_one r
      · rfl

end BlockValue

end GraphTensor
