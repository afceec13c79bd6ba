import GraphTensor.Proofs.Block.Algebra
import Mathlib.Algebra.BigOperators.Fin
import Mathlib.Data.Matrix.Mul
set_option autoImplicit false

/-! # Blocks and linear algebra

Every block is a number, a vector or a matrix of linear algebra, written down row after row
(`BlockValue.scalar`, `BlockValue.ofVector`, `BlockValue.ofMatrix`). The product of two blocks is
the product that linear algebra has for what they are: a multiple, an inner product, a vector before
a matrix, a matrix before a vector, or a product of matrices (`BlockValue.IsProduct`, with one
constructor for each, stated with Mathlib's operations).

The product is additive on both sides, and a sign may be drawn out of it. Both hold as computations:
there is a product of a sum just if there is a sum of products, since what there is, is a question
of the shapes alone. -/

namespace GraphTensor

namespace BlockValue

open Matrix

/-! ## Vectors and matrices as blocks -/

section

variable {K : Type} {n r c : Nat}

/-- The block of a vector. -/
def ofVector (v : Fin n → K) : BlockValue K :=
  ⟨.vector n, Array.ofFn v, Array.size_ofFn⟩

/-- The block of a matrix, row after row. -/
def ofMatrix (m : Matrix (Fin r) (Fin c) K) : BlockValue K :=
  ⟨.matrix r c, Array.ofFn fun k => m k.divNat k.modNat, Array.size_ofFn⟩

variable [Scalar K]

theorem entry_ofVector (v : Fin n → K) (i : Fin n) : (ofVector v).entry i 0 = v i := by
  simp [entry, toMatrix, DenseMatrix.get, ofVector, BlockShape.rows, BlockShape.cols]

theorem entry_ofMatrix (m : Matrix (Fin r) (Fin c) K) (i : Fin r) (j : Fin c) :
    (ofMatrix m).entry i j = m i j := by
  have hplace : (i : Nat) * c + j < r * c := DenseMatrix.place_lt i.isLt j.isLt
  have hdiv : (⟨i * c + j, hplace⟩ : Fin (r * c)).divNat = i :=
    Fin.ext (DenseMatrix.place_div j.isLt)
  have hmod : (⟨i * c + j, hplace⟩ : Fin (r * c)).modNat = j :=
    Fin.ext (DenseMatrix.place_mod j.isLt)
  simp [entry, toMatrix, DenseMatrix.get, ofMatrix, BlockShape.rows, BlockShape.cols, hplace, hdiv,
    hmod]

theorem exists_scalar {b : BlockValue K} (h : b.shape = .scalar) : ∃ x, b = scalar x := by
  refine ⟨b.entry 0 0, ext_entry h fun i hi j hj => ?_⟩
  rw [h] at hi hj
  obtain ⟨rfl, rfl⟩ : i = 0 ∧ j = 0 := ⟨Nat.lt_one_iff.1 hi, Nat.lt_one_iff.1 hj⟩
  rfl

theorem exists_ofVector {b : BlockValue K} (h : b.shape = .vector n) :
    ∃ v : Fin n → K, b = ofVector v := by
  refine ⟨fun i => b.entry i 0, ext_entry h fun i hi j hj => ?_⟩
  rw [h] at hi hj
  obtain rfl : j = 0 := Nat.lt_one_iff.1 hj
  exact (entry_ofVector (fun i : Fin n => b.entry i 0) ⟨i, hi⟩).symm

theorem exists_ofMatrix {b : BlockValue K} (h : b.shape = .matrix r c) :
    ∃ m : Matrix (Fin r) (Fin c) K, b = ofMatrix m := by
  refine ⟨fun i j => b.entry i j, ext_entry h fun i hi j hj => ?_⟩
  rw [h] at hi hj
  exact (entry_ofMatrix (fun (i : Fin r) (j : Fin c) => b.entry i j) ⟨i, hi⟩ ⟨j, hj⟩).symm

end

/-! ## Products -/

variable {K : Type} [Field K]

/-- A block is the product that linear algebra has for two blocks. -/
inductive IsProduct : BlockValue K → BlockValue K → BlockValue K → Prop
  /-- Two numbers. -/
  | numbers (x y : K) : IsProduct (scalar x) (scalar y) (scalar (x * y))
  /-- A multiple of a vector. -/
  | numberVector {n : Nat} (x : K) (v : Fin n → K) :
      IsProduct (scalar x) (ofVector v) (ofVector (x • v))
  /-- A multiple of a matrix. -/
  | numberMatrix {r c : Nat} (x : K) (m : Matrix (Fin r) (Fin c) K) :
      IsProduct (scalar x) (ofMatrix m) (ofMatrix (x • m))
  /-- A multiple of a vector, with the number on the right. -/
  | vectorNumber {n : Nat} (v : Fin n → K) (x : K) :
      IsProduct (ofVector v) (scalar x) (ofVector (x • v))
  /-- A multiple of a matrix, with the number on the right. -/
  | matrixNumber {r c : Nat} (m : Matrix (Fin r) (Fin c) K) (x : K) :
      IsProduct (ofMatrix m) (scalar x) (ofMatrix (x • m))
  /-- The inner product. -/
  | vectors {n : Nat} (v w : Fin n → K) : IsProduct (ofVector v) (ofVector w) (scalar (v ⬝ᵥ w))
  /-- A vector before a matrix, as a row. -/
  | vectorMatrix {n c : Nat} (v : Fin n → K) (m : Matrix (Fin n) (Fin c) K) :
      IsProduct (ofVector v) (ofMatrix m) (ofVector (v ᵥ* m))
  /-- A matrix before a vector, as a column. -/
  | matrixVector {r n : Nat} (m : Matrix (Fin r) (Fin n) K) (v : Fin n → K) :
      IsProduct (ofMatrix m) (ofVector v) (ofVector (m *ᵥ v))
  /-- Two matrices. -/
  | matrices {r n c : Nat} (m : Matrix (Fin r) (Fin n) K) (m' : Matrix (Fin n) (Fin c) K) :
      IsProduct (ofMatrix m) (ofMatrix m') (ofMatrix (m * m'))

variable [LinearOrder K] {a b c : BlockValue K}

/-- A product is known by its shape and its entries. -/
theorem mul?_eq_of_entry (hshape : a.shape.product b.shape = some c.shape)
    (h : ∀ i < c.shape.rows, ∀ j < c.shape.cols,
      productEntry a.shape b.shape a.entry b.entry i j = c.entry i j) : a.mul? b = some c := by
  obtain ⟨product, hproduct, hproductShape⟩ := mul?_of_product hshape
  rw [hproduct]
  refine congrArg some (ext_entry hproductShape fun i hi j hj => ?_)
  rw [hproductShape] at hi hj
  rw [(mul?_spec hproduct).2, h i hi j hj]

theorem mul?_eq_ofVector {n : Nat} {v : Fin n → K}
    (hshape : a.shape.product b.shape = some (.vector n))
    (h : ∀ i : Fin n, productEntry a.shape b.shape a.entry b.entry i 0 = v i) :
    a.mul? b = some (ofVector v) := by
  refine mul?_eq_of_entry hshape fun i hi j hj => ?_
  obtain rfl : j = 0 := Nat.lt_one_iff.1 hj
  exact (h ⟨i, hi⟩).trans (entry_ofVector v ⟨i, hi⟩).symm

theorem mul?_eq_ofMatrix {r k : Nat} {m : Matrix (Fin r) (Fin k) K}
    (hshape : a.shape.product b.shape = some (.matrix r k))
    (h : ∀ (i : Fin r) (j : Fin k), productEntry a.shape b.shape a.entry b.entry i j = m i j) :
    a.mul? b = some (ofMatrix m) :=
  mul?_eq_of_entry hshape fun i hi j hj =>
    (h ⟨i, hi⟩ ⟨j, hj⟩).trans (entry_ofMatrix m ⟨i, hi⟩ ⟨j, hj⟩).symm

/-- The product of linear algebra is the one that is computed. -/
theorem IsProduct.mul? (h : IsProduct a b c) : a.mul? b = some c := by
  cases h with
  | numbers x y =>
      refine mul?_eq_of_entry rfl fun i hi j hj => ?_
      obtain ⟨rfl, rfl⟩ : i = 0 ∧ j = 0 := ⟨Nat.lt_one_iff.1 hi, Nat.lt_one_iff.1 hj⟩
      exact mul_comm y x
  | numberVector x v =>
      refine mul?_eq_ofVector rfl fun i => ?_
      change (ofVector v).entry i 0 * x = x * v i
      rw [entry_ofVector, mul_comm]
  | numberMatrix x m =>
      refine mul?_eq_ofMatrix rfl fun i j => ?_
      change (ofMatrix m).entry i j * x = x * m i j
      rw [entry_ofMatrix, mul_comm]
  | vectorNumber v x =>
      refine mul?_eq_ofVector rfl fun i => ?_
      change (ofVector v).entry i 0 * x = x * v i
      rw [entry_ofVector, mul_comm]
  | matrixNumber m x =>
      refine mul?_eq_ofMatrix rfl fun i j => ?_
      change (ofMatrix m).entry i j * x = x * m i j
      rw [entry_ofMatrix, mul_comm]
  | vectors v w =>
      refine mul?_eq_of_entry (if_pos rfl) fun i hi j hj => ?_
      obtain ⟨rfl, rfl⟩ : i = 0 ∧ j = 0 := ⟨Nat.lt_one_iff.1 hi, Nat.lt_one_iff.1 hj⟩
      change ∑ l ∈ Finset.range _, (ofVector v).entry l 0 * (ofVector w).entry l 0 = v ⬝ᵥ w
      rw [Finset.sum_range]
      exact Finset.sum_congr rfl fun l _ => by rw [entry_ofVector, entry_ofVector]
  | vectorMatrix v m =>
      refine mul?_eq_ofVector (if_pos rfl) fun j => ?_
      change ∑ l ∈ Finset.range _, (ofMatrix m).entry l j * (ofVector v).entry l 0 = ∑ l, v l * m l j
      rw [Finset.sum_range]
      exact Finset.sum_congr rfl fun l _ => by rw [entry_ofMatrix, entry_ofVector, mul_comm]
  | matrixVector m v =>
      refine mul?_eq_ofVector (if_pos rfl) fun i => ?_
      change ∑ l ∈ Finset.range _, (ofMatrix m).entry i l * (ofVector v).entry l 0 = ∑ l, m i l * v l
      rw [Finset.sum_range]
      exact Finset.sum_congr rfl fun l _ => by rw [entry_ofMatrix, entry_ofVector]
  | matrices m m' =>
      refine mul?_eq_ofMatrix (if_pos rfl) fun i j => ?_
      change ∑ l ∈ Finset.range _, (ofMatrix m).entry i l * (ofMatrix m').entry l j = _
      rw [Finset.sum_range, Matrix.mul_apply]
      exact Finset.sum_congr rfl fun l _ => by rw [entry_ofMatrix, entry_ofMatrix]

/-- Blocks whose shapes have a product have one in linear algebra. -/
theorem exists_isProduct {shape : BlockShape} (h : a.shape.product b.shape = some shape) :
    ∃ c, IsProduct a b c := by
  cases ha : a.shape with
  | scalar =>
      obtain ⟨x, rfl⟩ := exists_scalar ha
      cases hb : b.shape with
      | scalar =>
          obtain ⟨y, rfl⟩ := exists_scalar hb
          exact ⟨_, .numbers x y⟩
      | vector n =>
          obtain ⟨v, rfl⟩ := exists_ofVector hb
          exact ⟨_, .numberVector x v⟩
      | matrix r k =>
          obtain ⟨m, rfl⟩ := exists_ofMatrix hb
          exact ⟨_, .numberMatrix x m⟩
  | vector n =>
      obtain ⟨v, rfl⟩ := exists_ofVector ha
      cases hb : b.shape with
      | scalar =>
          obtain ⟨x, rfl⟩ := exists_scalar hb
          exact ⟨_, .vectorNumber v x⟩
      | vector n' =>
          obtain ⟨w, rfl⟩ := exists_ofVector hb
          obtain ⟨rfl, _⟩ := Option.ite_none_right_eq_some.1 h
          exact ⟨_, .vectors v w⟩
      | matrix r k =>
          obtain ⟨m, rfl⟩ := exists_ofMatrix hb
          obtain ⟨rfl, _⟩ := Option.ite_none_right_eq_some.1 h
          exact ⟨_, .vectorMatrix v m⟩
  | matrix r k =>
      obtain ⟨m, rfl⟩ := exists_ofMatrix ha
      cases hb : b.shape with
      | scalar =>
          obtain ⟨x, rfl⟩ := exists_scalar hb
          exact ⟨_, .matrixNumber m x⟩
      | vector n =>
          obtain ⟨v, rfl⟩ := exists_ofVector hb
          obtain ⟨rfl, _⟩ := Option.ite_none_right_eq_some.1 h
          exact ⟨_, .matrixVector m v⟩
      | matrix r' k' =>
          obtain ⟨m', rfl⟩ := exists_ofMatrix hb
          obtain ⟨rfl, _⟩ := Option.ite_none_right_eq_some.1 h
          exact ⟨_, .matrices m m'⟩

/-- **The product of blocks** is that of linear algebra. -/
theorem mul?_eq_some_iff : a.mul? b = some c ↔ IsProduct a b c := by
  refine ⟨fun h => ?_, IsProduct.mul?⟩
  obtain ⟨product, hproduct⟩ := exists_isProduct (mul?_spec h).1
  obtain rfl := Option.some.inj (h.symm.trans hproduct.mul?)
  exact hproduct

/-! ## Sums and signs -/

variable {s x y : BlockValue K}

theorem mul?_add? (hs : b.add? c = some s) (hx : a.mul? b = some x) (hy : a.mul? c = some y) :
    a.mul? s = x.add? y := by
  obtain ⟨hsShape, hbc, hsEntry⟩ := entry_add? hs
  obtain ⟨hxShape, hxEntry⟩ := mul?_spec hx
  obtain ⟨hyShape, hyEntry⟩ := mul?_spec hy
  rw [← hbc] at hyShape hyEntry
  have hxy : x.shape = y.shape := Option.some.inj (hxShape.symm.trans hyShape)
  obtain ⟨z, hz, hzShape⟩ := add?_of_shape hxy
  rw [hz]
  refine mul?_eq_of_entry (by rw [hsShape, hzShape, hxShape]) fun i _ j _ => ?_
  rw [(entry_add? hz).2.2, hxEntry, hyEntry, hsShape, funext₂ hsEntry, productEntry_add_right]

theorem add?_mul? (hs : a.add? b = some s) (hx : a.mul? c = some x) (hy : b.mul? c = some y) :
    s.mul? c = x.add? y := by
  obtain ⟨hsShape, hab, hsEntry⟩ := entry_add? hs
  obtain ⟨hxShape, hxEntry⟩ := mul?_spec hx
  obtain ⟨hyShape, hyEntry⟩ := mul?_spec hy
  rw [← hab] at hyShape hyEntry
  have hxy : x.shape = y.shape := Option.some.inj (hxShape.symm.trans hyShape)
  obtain ⟨z, hz, hzShape⟩ := add?_of_shape hxy
  rw [hz]
  refine mul?_eq_of_entry (by rw [hsShape, hzShape, hxShape]) fun i _ j _ => ?_
  rw [(entry_add? hz).2.2, hxEntry, hyEntry, hsShape, funext₂ hsEntry, productEntry_add_left]

theorem entry_neg_eq (b : BlockValue K) : b.neg.entry = fun i j => b.entry i j * -1 :=
  funext₂ fun i j => (entry_neg b i j).trans (mul_neg_one _).symm

theorem mul?_neg (hx : a.mul? b = some x) : a.mul? b.neg = some x.neg := by
  obtain ⟨hshape, hentry⟩ := mul?_spec hx
  refine mul?_eq_of_entry hshape fun i _ j _ => ?_
  rw [entry_neg x, ← mul_neg_one, hentry, entry_neg_eq]
  exact productEntry_mul_right ..

theorem neg_mul? (hx : a.mul? b = some x) : a.neg.mul? b = some x.neg := by
  obtain ⟨hshape, hentry⟩ := mul?_spec hx
  refine mul?_eq_of_entry hshape fun i _ j _ => ?_
  rw [entry_neg x, ← mul_neg_one, hentry, entry_neg_eq]
  exact productEntry_mul_left ..

theorem mul?_sub? (hs : b.sub? c = some s) (hx : a.mul? b = some x) (hy : a.mul? c = some y) :
    a.mul? s = x.sub? y := by
  rw [← add?_neg] at hs ⊢
  exact mul?_add? hs hx (mul?_neg hy)

theorem sub?_mul? (hs : a.sub? b = some s) (hx : a.mul? c = some x) (hy : b.mul? c = some y) :
    s.mul? c = x.sub? y := by
  rw [← add?_neg] at hs ⊢
  exact add?_mul? hs hx (neg_mul? hy)

end BlockValue

end GraphTensor
