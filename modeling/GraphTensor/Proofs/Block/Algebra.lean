import GraphTensor.Proofs.Block.Shapes
import GraphTensor.Proofs.Block.Zeros
import GraphTensor.Proofs.Matrix.Dense
import Mathlib.Algebra.BigOperators.Ring.Finset
import Mathlib.Algebra.BigOperators.Group.Finset.Sigma
import Mathlib.Tactic.Ring
set_option autoImplicit false

/-! # The algebra of blocks

Over exact numbers the product of blocks is additive and homogeneous on both sides. It is
associative as well, except that a vector between two blocks that are not numbers may be taken as a
column by one of them and as a row by the other.

A block is told by its shape and its entries (`BlockValue.entry`, where a vector is a column and a
number stands alone), and so is a product: `BlockValue.productEntry` gives the entries of a product
from the shapes and the entries of its sides, and the numbers themselves play no part in what
follows. Its laws are those of finite sums, one for each way in which two shapes combine; regrouping
(`BlockValue.productEntry_assoc`) needs the case of a matrix between two blocks as its only exchange
of sums. -/

namespace GraphTensor

/-- The shape of a product of three blocks does not depend on its grouping, unless a vector stands
    between two blocks that are not numbers. -/
theorem BlockShape.product_assoc {x y z yz : BlockShape} (h : y.product z = some yz)
    (hgroup : y.rank = 1 → x = .scalar ∨ z = .scalar) :
    (x.product y).bind (fun xy => xy.product z) = x.product yz := by
  cases y with
  | scalar =>
      obtain rfl : z = yz := by simpa [product] using h
      rw [product_scalar_right, Option.bind_some]
  | vector n =>
      rcases hgroup rfl with rfl | rfl
      · rw [product_scalar_left, product_scalar_left, Option.bind_some, h]
      · obtain rfl : BlockShape.vector n = yz := by simpa [product] using h
        simp [product_scalar_right]
  | matrix r k =>
      cases x <;> cases z <;> simp [product] at h ⊢ <;> grind

namespace BlockValue

/-! ## Entries -/

section

variable {α : Type} [Scalar α]

/-- An entry of a block, a vector being a column and a number standing alone. -/
def entry (b : BlockValue α) (i j : Nat) : α :=
  b.toMatrix.get i j

theorem ext_entry {a b : BlockValue α} (hshape : a.shape = b.shape)
    (h : ∀ i < a.shape.rows, ∀ j < a.shape.cols, a.entry i j = b.entry i j) : a = b := by
  have hmatrix : a.toMatrix = b.toMatrix :=
    DenseMatrix.ext_get (a.size_data.trans a.shape.length_eq_rows_mul_cols)
      (b.size_data.trans b.shape.length_eq_rows_mul_cols) (congrArg BlockShape.rows hshape)
      (congrArg BlockShape.cols hshape) h
  obtain ⟨shape, xs, _⟩ := a
  obtain ⟨_, ys, _⟩ := b
  obtain rfl : shape = _ := hshape
  obtain rfl : xs = ys := congrArg DenseMatrix.data hmatrix
  rfl

theorem entry_of_not_lt {b : BlockValue α} {i j : Nat}
    (h : ¬ (i < b.shape.rows ∧ j < b.shape.cols)) : b.entry i j = 0 :=
  DenseMatrix.get_of_not_lt h

theorem entry_map {f : α → α} (hf : f 0 = 0) (b : BlockValue α) (i j : Nat) :
    (b.map f).entry i j = f (b.entry i j) := by
  by_cases h : i < b.shape.rows ∧ j < b.shape.cols
  · have hplace : i * b.shape.cols + j < b.data.size := by
      rw [b.size_data, BlockShape.length_eq_rows_mul_cols]
      exact DenseMatrix.place_lt h.1 h.2
    simp [entry, toMatrix, DenseMatrix.get, map, h, hplace]
  · rw [entry_of_not_lt h, hf]
    exact entry_of_not_lt (b := b.map f) h

theorem entry_zipWith? {f : α → α → α} (hf : f 0 0 = 0) {a b c : BlockValue α}
    (h : zipWith? f a b = some c) :
    c.shape = a.shape ∧ a.shape = b.shape ∧ ∀ i j, c.entry i j = f (a.entry i j) (b.entry i j) := by
  unfold zipWith? at h
  split at h
  · next hshape =>
      obtain rfl := Option.some.inj h
      refine ⟨rfl, hshape, fun i j => ?_⟩
      by_cases hij : i < a.shape.rows ∧ j < a.shape.cols
      · have hplace := DenseMatrix.place_lt hij.1 hij.2
        rw [← BlockShape.length_eq_rows_mul_cols] at hplace
        have ha : i * a.shape.cols + j < a.data.size := by rw [a.size_data]; exact hplace
        have hb : i * a.shape.cols + j < b.data.size := by rw [b.size_data, ← hshape]; exact hplace
        simp [entry, toMatrix, DenseMatrix.get, hij, ← hshape, ha, hb]
      · rw [entry_of_not_lt hij, entry_of_not_lt (b := b) (hshape ▸ hij), hf]
        exact entry_of_not_lt hij
  · cases h

end

/-! ## Products of entries -/

variable {K : Type} [Field K]

/-- The entries of a product, from the shapes and the entries of its sides. -/
def productEntry (s t : BlockShape) (f g : Nat → Nat → K) (i j : Nat) : K :=
  match s, t with
  | .scalar, _ => g i j * f 0 0
  | _, .scalar => f i j * g 0 0
  | .vector n, .vector _ => ∑ l ∈ Finset.range n, f l i * g l j
  | .vector n, .matrix _ _ => ∑ l ∈ Finset.range n, g l i * f l j
  | .matrix _ k, _ => ∑ l ∈ Finset.range k, f i l * g l j

section

variable (s t : BlockShape) (f f' g g' : Nat → Nat → K) (x : K) (i j : Nat)

theorem productEntry_add_left :
    productEntry s t (fun i j => f i j + f' i j) g i j =
      productEntry s t f g i j + productEntry s t f' g i j := by
  cases s <;> cases t <;> simp [productEntry, add_mul, mul_add, Finset.sum_add_distrib]

theorem productEntry_add_right :
    productEntry s t f (fun i j => g i j + g' i j) i j =
      productEntry s t f g i j + productEntry s t f g' i j := by
  cases s <;> cases t <;> simp [productEntry, add_mul, mul_add, Finset.sum_add_distrib]

theorem productEntry_zero_left : productEntry s t (fun _ _ => 0) g i j = 0 := by
  cases s <;> cases t <;> simp [productEntry]

theorem productEntry_zero_right : productEntry s t f (fun _ _ => 0) i j = 0 := by
  cases s <;> cases t <;> simp [productEntry]

theorem productEntry_mul_left :
    productEntry s t (fun i j => f i j * x) g i j = productEntry s t f g i j * x := by
  cases s <;> cases t <;> simp only [productEntry, Finset.sum_mul] <;>
    first | exact Finset.sum_congr rfl fun l _ => by ring | ring

theorem productEntry_mul_right :
    productEntry s t f (fun i j => g i j * x) i j = productEntry s t f g i j * x := by
  cases s <;> cases t <;> simp only [productEntry, Finset.sum_mul] <;>
    first | exact Finset.sum_congr rfl fun l _ => by ring | ring

theorem productEntry_sum_left {ι : Type} (ls : List ι) (F : ι → Nat → Nat → K) :
    productEntry s t (fun i j => (ls.map fun l => F l i j).sum) g i j =
      (ls.map fun l => productEntry s t (F l) g i j).sum := by
  induction ls with
  | nil => exact productEntry_zero_left s t g i j
  | cons l ls ih =>
      simp only [List.map_cons, List.sum_cons, productEntry_add_left]
      rw [ih]

theorem productEntry_sum_right {ι : Type} (rs : List ι) (G : ι → Nat → Nat → K) :
    productEntry s t f (fun i j => (rs.map fun r => G r i j).sum) i j =
      (rs.map fun r => productEntry s t f (G r) i j).sum := by
  induction rs with
  | nil => exact productEntry_zero_right s t f i j
  | cons r rs ih =>
      simp only [List.map_cons, List.sum_cons, productEntry_add_right]
      rw [ih]

theorem productEntry_scalar_right {i j : Nat} (hi : i < s.rows) (hj : j < s.cols) :
    productEntry s .scalar f g i j = f i j * g 0 0 := by
  cases s with
  | scalar =>
      obtain ⟨rfl, rfl⟩ : i = 0 ∧ j = 0 := ⟨Nat.lt_one_iff.1 hi, Nat.lt_one_iff.1 hj⟩
      exact mul_comm _ _
  | vector n => rfl
  | matrix r k => rfl

end

theorem sum_sum_comm {n m : Nat} {f g : Nat → Nat → K} (h : ∀ k l, f k l = g l k) :
    ∑ k ∈ Finset.range n, ∑ l ∈ Finset.range m, f k l =
      ∑ l ∈ Finset.range m, ∑ k ∈ Finset.range n, g l k := by
  rw [Finset.sum_comm]
  exact Finset.sum_congr rfl fun l _ => Finset.sum_congr rfl fun k _ => h k l

section

variable {x y z xy yz w : BlockShape} (f g h : Nat → Nat → K) {i j : Nat}

theorem productEntry_assoc_scalar (hx : x ≠ .scalar) :
    productEntry x z (productEntry x .scalar f g) h i j =
      productEntry x z f (productEntry .scalar z g h) i j := by
  have hscaled : productEntry x .scalar f g = fun i j => f i j * g 0 0 := by
    cases x with
    | scalar => exact absurd rfl hx
    | vector n => rfl
    | matrix r k => rfl
  rw [hscaled, productEntry_mul_left]
  exact (productEntry_mul_right x z f h (g 0 0) i j).symm

theorem productEntry_assoc_scalar_right (hxy : x.product y = some xy) (hi : i < xy.rows)
    (hj : j < xy.cols) :
    productEntry xy .scalar (productEntry x y f g) h i j =
      productEntry x y f (productEntry y .scalar g h) i j := by
  rw [productEntry_scalar_right _ _ _ hi hj]
  cases y with
  | scalar =>
      obtain rfl : x = xy := by simpa [BlockShape.product_scalar_right] using hxy
      rw [productEntry_scalar_right _ _ _ hi hj, productEntry_scalar_right _ _ _ hi hj, mul_assoc]
      congr 1
      exact mul_comm _ _
  | vector n => exact (productEntry_mul_right x _ f g (h 0 0) i j).symm
  | matrix r k => exact (productEntry_mul_right x _ f g (h 0 0) i j).symm

/-- Both groupings sum over the rows and over the columns of a matrix between two blocks. -/
theorem productEntry_assoc_matrix {r k : Nat} (hxy : x.product (.matrix r k) = some xy)
    (hyz : (BlockShape.matrix r k).product z = some yz) (hx : x ≠ .scalar) (hz : z ≠ .scalar) :
    productEntry xy z (productEntry x (.matrix r k) f g) h i j =
      productEntry x yz f (productEntry (.matrix r k) z g h) i j := by
  obtain ⟨rfl, rfl⟩ | ⟨n, rfl, rfl⟩ := BlockShape.product_matrix_right_eq_some hxy hx <;>
    obtain ⟨rfl, rfl⟩ | ⟨c, rfl, rfl⟩ := BlockShape.product_matrix_left_eq_some hyz hz <;>
    simp only [productEntry, Finset.sum_mul, Finset.mul_sum] <;>
    exact sum_sum_comm fun _ _ => by ring

/-- The products of entries on both sides of a block may be regrouped. -/
theorem productEntry_assoc (hxy : x.product y = some xy) (hyz : y.product z = some yz)
    (hgroup : y.rank = 1 → x = .scalar ∨ z = .scalar) (hw : x.product yz = some w)
    (hi : i < w.rows) (hj : j < w.cols) :
    productEntry xy z (productEntry x y f g) h i j =
      productEntry x yz f (productEntry y z g h) i j := by
  by_cases hx : x = .scalar
  · subst hx
    obtain rfl : y = xy := by simpa [BlockShape.product_scalar_left] using hxy
    exact productEntry_mul_left y z g h (f 0 0) i j
  by_cases hz : z = .scalar
  · subst hz
    obtain rfl : y = yz := by simpa [BlockShape.product_scalar_right] using hyz
    obtain rfl : xy = w := Option.some.inj (hxy.symm.trans hw)
    exact productEntry_assoc_scalar_right f g h hxy hi hj
  cases y with
  | scalar =>
      obtain rfl : x = xy := by simpa [BlockShape.product_scalar_right] using hxy
      obtain rfl : z = yz := by simpa [BlockShape.product_scalar_left] using hyz
      exact productEntry_assoc_scalar f g h hx
  | vector n => exact absurd (hgroup rfl) (not_or.2 ⟨hx, hz⟩)
  | matrix r k => exact productEntry_assoc_matrix f g h hxy hyz hx hz

end

/-! ## Products -/

variable [LinearOrder K]

theorem entry_scale (b : BlockValue K) (factor : K) (i j : Nat) :
    (b.scale factor).entry i j = b.entry i j * factor :=
  entry_map (zero_mul factor) b i j

theorem getD_eq_entry (b : BlockValue K) {i : Nat} (hi : i < b.shape.rows)
    (hcols : b.shape.cols = 1) : b.data.getD i 0 = b.entry i 0 := by
  simp [entry, toMatrix, DenseMatrix.get, hi, hcols]

theorem dot_eq (a b : BlockValue K) {n : Nat} (ha : a.shape = .vector n)
    (hb : b.shape = .vector n) :
    dot a.data b.data = ∑ l ∈ Finset.range n, a.entry l 0 * b.entry l 0 := by
  have hsizes : a.data.size = n ∧ b.data.size = n := by
    rw [a.size_data, b.size_data, ha, hb]
    exact ⟨rfl, rfl⟩
  have hlist : (a.data.zipWith (· * ·) b.data).toList =
      (List.range n).map fun l => a.entry l 0 * b.entry l 0 := by
    refine List.ext_getElem (by simp [hsizes.1, hsizes.2]) fun l hl hl' => ?_
    have hl : l < n := by simpa using hl'
    simp [entry, toMatrix, DenseMatrix.get, ha, hb, BlockShape.rows, BlockShape.cols, hl,
      hsizes.1, hsizes.2]
  rw [dot, hlist, Scalar.sum_map_range]

theorem entry_ofArray? {shape : BlockShape} {m : DenseMatrix K} {c : BlockValue K}
    (hrows : m.rows = shape.rows) (hcols : m.cols = shape.cols)
    (h : ofArray? shape m.data = some c) :
    c.shape = shape ∧ ∀ i j, c.entry i j = m.get i j := by
  obtain ⟨hshape, hdata⟩ := ofArray?_eq_some h
  refine ⟨hshape, fun i j => ?_⟩
  rw [entry, toMatrix, hshape, hdata, ← hrows, ← hcols]

/-- The inner product stands alone: its other entries are products with zeros. -/
theorem entry_dot {a b : BlockValue K} {n : Nat} (ha : a.shape = .vector n) (hb : b.shape = .vector n)
    (i j : Nat) :
    (scalar (dot a.data b.data)).entry i j =
      ∑ l ∈ Finset.range n, a.entry l i * b.entry l j := by
  by_cases hij : i < 1 ∧ j < 1
  · obtain ⟨rfl, rfl⟩ : i = 0 ∧ j = 0 := by omega
    rw [← dot_eq a b ha hb]
    rfl
  · rw [entry_of_not_lt hij]
    refine (Finset.sum_eq_zero fun l _ => ?_).symm
    by_cases hi : i < 1
    · rw [entry_of_not_lt (b := b) fun h => hij ⟨hi, by rw [hb] at h; exact h.2⟩, mul_zero]
    · rw [entry_of_not_lt (b := a) fun h => hi (by rw [ha] at h; exact h.2), zero_mul]

/-- A matrix times a block is the product of two matrices, the block being columns. -/
theorem mul_matrix_spec {a b c : BlockValue K} {r k : Nat} {shape : BlockShape}
    (ha : a.shape = .matrix r k) (hb : b.shape ≠ .scalar)
    (hshape : (BlockShape.matrix r k).product b.shape = some shape)
    (h : ofArray? shape (a.toMatrix.mul b.toMatrix).data = some c) :
    c.shape = shape ∧
      ∀ i j, c.entry i j = productEntry (.matrix r k) b.shape a.entry b.entry i j := by
  have hdims : r = shape.rows ∧ b.shape.cols = shape.cols := by
    obtain ⟨hs, rfl⟩ | ⟨c', hs, rfl⟩ := BlockShape.product_matrix_left_eq_some hshape hb <;>
      exact ⟨rfl, by rw [hs]; rfl⟩
  obtain ⟨hc, hentry⟩ := entry_ofArray?
    (show a.shape.rows = shape.rows by rw [ha]; exact hdims.1)
    (show b.shape.cols = shape.cols from hdims.2) h
  refine ⟨hc, fun i j => ?_⟩
  rw [hentry, DenseMatrix.get_mul]
  have hk : a.toMatrix.cols = k := congrArg BlockShape.cols ha
  rw [hk]
  cases hs : b.shape with
  | scalar => exact absurd hs hb
  | vector n => rfl
  | matrix l c' => rfl

/-- A vector times a matrix is a row, and the result is written as a column. -/
theorem mul_vector_matrix_spec {a b c : BlockValue K} {n k m : Nat} {shape : BlockShape}
    (ha : a.shape = .vector n) (hb : b.shape = .matrix k m)
    (hshape : (BlockShape.vector n).product (.matrix k m) = some shape)
    (h : ofArray? shape (b.toMatrix.transpose.mul a.toMatrix).data = some c) :
    c.shape = shape ∧
      ∀ i j, c.entry i j = productEntry (.vector n) (.matrix k m) a.entry b.entry i j := by
  obtain ⟨rfl, rfl⟩ := BlockShape.product_vector_matrix_eq_some_iff.1 hshape
  obtain ⟨hc, hentry⟩ := entry_ofArray?
    (show b.shape.cols = (BlockShape.vector m).rows by rw [hb]; rfl)
    (show a.shape.cols = (BlockShape.vector m).cols by rw [ha]; rfl) h
  refine ⟨hc, fun i j => ?_⟩
  rw [hentry, DenseMatrix.get_mul, productEntry]
  simp only [DenseMatrix.get_transpose]
  have hn : b.toMatrix.transpose.cols = n := congrArg BlockShape.rows hb
  rw [hn]
  rfl

/-- **A product** has the shape that the shapes of its sides have, and the entries that their entries
    give. -/
theorem mul?_spec {a b c : BlockValue K} (h : a.mul? b = some c) :
    a.shape.product b.shape = some c.shape ∧
      ∀ i j, c.entry i j = productEntry a.shape b.shape a.entry b.entry i j := by
  unfold mul? at h
  split at h
  · cases h
  next shape hshape =>
  rw [hshape]
  split at h
  · next ha =>
      obtain rfl := Option.some.inj h
      rw [ha, BlockShape.product_scalar_left] at hshape
      refine ⟨hshape.symm, fun i j => ?_⟩
      rw [entry_scale, getD_eq_entry a (by rw [ha]; exact Nat.one_pos) (by rw [ha]; rfl), ha]
      rfl
  · next hb ha =>
      obtain rfl := Option.some.inj h
      rw [hb, BlockShape.product_scalar_right] at hshape
      refine ⟨hshape.symm, fun i j => ?_⟩
      rw [entry_scale, getD_eq_entry b (by rw [hb]; exact Nat.one_pos) (by rw [hb]; rfl), hb]
      cases hs : a.shape with
      | scalar => exact absurd hs ha
      | vector n => rfl
      | matrix r k => rfl
  · next n m ha hb =>
      obtain rfl := Option.some.inj h
      rw [ha, hb] at hshape ⊢
      obtain ⟨rfl, rfl⟩ := BlockShape.product_vector_vector_eq_some_iff.1 hshape
      exact ⟨rfl, entry_dot ha hb⟩
  · next n k m ha hb =>
      rw [ha, hb] at hshape ⊢
      obtain ⟨rfl, hentry⟩ := mul_vector_matrix_spec ha hb hshape h
      exact ⟨rfl, hentry⟩
  · next r k ha hb =>
      rw [ha] at hshape ⊢
      obtain ⟨rfl, hentry⟩ := mul_matrix_spec ha hb hshape h
      exact ⟨rfl, hentry⟩

theorem mul?_eq_none {a b : BlockValue K} (h : a.shape.product b.shape = none) :
    a.mul? b = none := by
  unfold mul?
  rw [h]

/-- **Products may be regrouped** unless a vector stands between two blocks that are not numbers: it
    is a row to the one and a column to the other. -/
theorem mul?_assoc {x y z yz : BlockValue K} (h : y.mul? z = some yz)
    (hgroup : y.shape.rank = 1 → x.shape = .scalar ∨ z.shape = .scalar) :
    (x.mul? y).bind (fun xy => xy.mul? z) = x.mul? yz := by
  obtain ⟨hyz, hyzEntry⟩ := mul?_spec h
  have hshapes := BlockShape.product_assoc hyz hgroup
  cases hw : x.shape.product yz.shape with
  | none =>
      have hright : x.mul? yz = none := mul?_eq_none hw
      rw [hright]
      refine Option.eq_none_iff_forall_ne_some.2 fun w hw' => ?_
      obtain ⟨xy, hxy, hxyz⟩ := Option.bind_eq_some_iff.1 hw'
      simp [(mul?_spec hxy).1, (mul?_spec hxyz).1, hw] at hshapes
  | some shape =>
      obtain ⟨right, hright, hrightShape⟩ := mul?_of_product hw
      rw [hw] at hshapes
      obtain ⟨xyShape, hxyShape, hxyz⟩ := Option.bind_eq_some_iff.1 hshapes
      obtain ⟨xy, hxy, rfl⟩ := mul?_of_product hxyShape
      obtain ⟨left, hleft, hleftShape⟩ := mul?_of_product hxyz
      rw [hxy, Option.bind_some, hleft, hright]
      refine congrArg some (ext_entry (hleftShape.trans hrightShape.symm) fun i hi j hj => ?_)
      rw [hleftShape] at hi hj
      rw [(mul?_spec hleft).2, (mul?_spec hright).2,
        funext₂ (mul?_spec hxy).2, funext₂ hyzEntry]
      exact productEntry_assoc _ _ _ hxyShape hyz hgroup hw hi hj

/-! ## Sums and multiples -/

theorem entry_zeros (shape : BlockShape) (i j : Nat) :
    (zeros shape : BlockValue K).entry i j = 0 :=
  (isZero_zeros shape).get_toMatrix i j

theorem entry_scalar (x : K) : (scalar x).entry 0 0 = x :=
  rfl

theorem eq_scalar_of_shape {b : BlockValue K} (h : b.shape = .scalar) :
    b = scalar (b.entry 0 0) := by
  refine ext_entry h fun i hi j hj => ?_
  rw [h] at hi hj
  obtain ⟨rfl, rfl⟩ : i = 0 ∧ j = 0 := ⟨Nat.lt_one_iff.1 hi, Nat.lt_one_iff.1 hj⟩
  rfl

theorem entry_add? {a b c : BlockValue K} (h : a.add? b = some c) :
    c.shape = a.shape ∧ a.shape = b.shape ∧ ∀ i j, c.entry i j = a.entry i j + b.entry i j :=
  entry_zipWith? (add_zero 0) h

theorem entry_sub? {a b c : BlockValue K} (h : a.sub? b = some c) :
    c.shape = a.shape ∧ a.shape = b.shape ∧ ∀ i j, c.entry i j = a.entry i j - b.entry i j :=
  entry_zipWith? (sub_zero 0) h

theorem entry_neg (b : BlockValue K) (i j : Nat) : b.neg.entry i j = -b.entry i j := by
  rw [neg, entry_scale, mul_neg_one]

theorem add?_neg (a b : BlockValue K) : a.add? b.neg = a.sub? b := by
  by_cases h : a.shape = b.shape
  · obtain ⟨c, hc, _⟩ := add?_of_shape (b := b.neg) h
    obtain ⟨d, hd, _⟩ := sub?_of_shape h
    obtain ⟨hcshape, _, hcentry⟩ := entry_add? hc
    obtain ⟨hdshape, _, hdentry⟩ := entry_sub? hd
    rw [hc, hd]
    refine congrArg some (ext_entry (hcshape.trans hdshape.symm) fun i _ j _ => ?_)
    rw [hcentry, hdentry, entry_neg, sub_eq_add_neg]
  · have hadd : a.add? b.neg = none := dif_neg h
    have hsub : a.sub? b = none := dif_neg h
    rw [hadd, hsub]

theorem eq_scalar_of_div? {a b c : BlockValue K} (h : a.div? b = some c) : ∃ x, b = scalar x := by
  obtain ⟨x, hx, _⟩ := Option.map_eq_some_iff.1 h
  have hshape : b.shape = .scalar := by
    unfold asScalar? at hx
    split at hx
    · assumption
    · cases hx
    · cases hx
  exact ⟨_, eq_scalar_of_shape hshape⟩

theorem div?_scalar (b : BlockValue K) (x : K) :
    b.div? (scalar x) = b.mul? (scalar (1 / x)) := by
  obtain ⟨c, hc, hshape⟩ := mul?_of_product (a := b) (b := scalar (1 / x))
    (BlockShape.product_scalar_right b.shape)
  rw [hc]
  refine congrArg some (ext_entry hshape.symm fun i hi j hj => ?_)
  rw [(mul?_spec hc).2]
  refine (entry_map (f := (· / x)) (zero_div x) b i j).trans ?_
  exact (div_eq_mul_one_div _ x).trans
    (productEntry_scalar_right b.shape b.entry (scalar (1 / x)).entry hi hj).symm

end BlockValue

end GraphTensor
