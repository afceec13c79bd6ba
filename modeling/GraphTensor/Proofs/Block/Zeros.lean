import GraphTensor.Block.Value
import GraphTensor.Proofs.Scalar
set_option autoImplicit false

/-! # Blocks of zeros

Where zero is neutral for sums and absorbs products (`Scalar.ZeroLaws`), a block of zeros
(`BlockValue.IsZero`) adds nothing to a block of its shape, and a product with a block of zeros is
one again. Entries that a sparse tensor does not store are blocks of zeros, so this is why a loop
may pass over them. Nothing more is asked of the numbers. -/

namespace GraphTensor

variable {α : Type} [Scalar α]

namespace BlockValue

/-- All numbers of a block are zero. -/
def IsZero (b : BlockValue α) : Prop :=
  ∀ x ∈ b.data, x = 0

theorem isZero_zeros (shape : BlockShape) : (zeros shape : BlockValue α).IsZero := by
  intro x hx
  exact (Array.mem_replicate.1 hx).2

theorem IsZero.eq_zeros {b : BlockValue α} (h : b.IsZero) : b = zeros b.shape := by
  obtain ⟨shape, data, hsize⟩ := b
  obtain rfl : data = Array.replicate shape.length 0 := Array.eq_replicate_iff.2 ⟨hsize, h⟩
  rfl

omit [Scalar α] in
theorem ofArray?_eq_some {shape : BlockShape} {data : Array α} {b : BlockValue α}
    (h : ofArray? shape data = some b) : b.shape = shape ∧ b.data = data := by
  unfold ofArray? at h
  split at h
  · obtain rfl := Option.some.inj h
    exact ⟨rfl, rfl⟩
  · cases h

theorem IsZero.ofArray? {b c : BlockValue α} {shape : BlockShape} (h : b.IsZero)
    (hc : BlockValue.ofArray? shape b.data = some c) : c = zeros shape := by
  obtain ⟨rfl, hdata⟩ := ofArray?_eq_some hc
  exact IsZero.eq_zeros fun x hx => h x (hdata ▸ hx)

theorem IsZero.getD {b : BlockValue α} (h : b.IsZero) (k : Nat) : b.data.getD k 0 = 0 := by
  rw [Array.getD_eq_getD_getElem?]
  cases hk : b.data[k]? with
  | none => rfl
  | some x => exact h x (Array.mem_of_getElem? hk)

theorem IsZero.get_toMatrix {b : BlockValue α} (h : b.IsZero) (i j : Nat) :
    b.toMatrix.get i j = 0 := by
  unfold DenseMatrix.get
  split
  · exact h.getD _
  · rfl

theorem get_transpose_eq_zero {a : DenseMatrix α} (h : ∀ i j, a.get i j = 0) (i j : Nat) :
    a.transpose.get i j = 0 := by
  unfold DenseMatrix.get
  split
  · rw [Array.getD_eq_getD_getElem?]
    cases hk : a.transpose.data[i * a.transpose.cols + j]? with
    | none => rfl
    | some x =>
        obtain ⟨k, _, rfl⟩ := Array.mem_map.1 (Array.mem_of_getElem? hk)
        exact h _ _
  · rfl

variable [Scalar.ZeroLaws α]

open Scalar (ZeroLaws)

theorem add?_zeros (b : BlockValue α) : b.add? (zeros b.shape) = some b := by
  obtain ⟨shape, data, hsize⟩ := b
  have hdata : data.zipWith (· + ·) (Array.replicate shape.length 0) = data := by
    apply Array.ext
    · simp [hsize]
    · intro i hi hi'
      simp [ZeroLaws.add_zero]
  refine (dif_pos rfl).trans (congrArg some ?_)
  simp only [zeros, hdata]

/-! ## Products -/

theorem IsZero.scale {b : BlockValue α} (h : b.IsZero) (factor : α) : (b.scale factor).IsZero := by
  intro x hx
  obtain ⟨y, hy, rfl⟩ := Array.mem_map.1 hx
  rw [h y hy, ZeroLaws.zero_mul]

theorem isZero_scale_zero (b : BlockValue α) : (b.scale 0).IsZero := by
  intro x hx
  obtain ⟨y, _, rfl⟩ := Array.mem_map.1 hx
  exact ZeroLaws.mul_zero y

theorem IsZero.neg {b : BlockValue α} (h : b.IsZero) : b.neg.IsZero :=
  h.scale _

theorem isZero_of_mul {a b : DenseMatrix α} {shape : BlockShape} {p : BlockValue α}
    (h : (∀ i j, a.get i j = 0) ∨ ∀ i j, b.get i j = 0)
    (hp : BlockValue.ofArray? shape (a.mul b).data = some p) : p.IsZero := by
  obtain ⟨_, hdata⟩ := ofArray?_eq_some hp
  intro x hx
  rw [hdata] at hx
  obtain ⟨k, _, rfl⟩ := Array.mem_map.1 hx
  refine Scalar.sum_eq_zero fun y hy => ?_
  obtain ⟨l, _, rfl⟩ := List.mem_map.1 hy
  rcases h with ha | hb
  · rw [ha, ZeroLaws.zero_mul]
  · rw [hb, ZeroLaws.mul_zero]

theorem dot_eq_zero {xs ys : Array α} (h : (∀ x ∈ xs, x = 0) ∨ ∀ y ∈ ys, y = 0) :
    dot xs ys = 0 := by
  refine Scalar.sum_eq_zero fun x hx => ?_
  obtain ⟨k, hk, rfl⟩ := List.mem_iff_getElem.1 hx
  rw [Array.getElem_toList, Array.getElem_zipWith]
  rcases h with hxs | hys
  · rw [hxs _ (Array.getElem_mem _), ZeroLaws.zero_mul]
  · rw [hys _ (Array.getElem_mem _), ZeroLaws.mul_zero]

/-- **A product with a block of zeros** is a block of zeros. -/
theorem isZero_of_mul? {a b p : BlockValue α} (h : a.IsZero ∨ b.IsZero)
    (hp : a.mul? b = some p) : p.IsZero := by
  have hscale : ∀ {x y : BlockValue α}, x.IsZero ∨ y.IsZero →
      (x.scale (y.data.getD 0 0)).IsZero := by
    intro x y hxy
    rcases hxy with hx | hy
    · exact hx.scale _
    · rw [hy.getD]
      exact isZero_scale_zero x
  unfold mul? at hp
  split at hp
  · cases hp
  · split at hp
    · obtain rfl := Option.some.inj hp
      exact hscale h.symm
    · obtain rfl := Option.some.inj hp
      exact hscale h
    · obtain rfl := Option.some.inj hp
      intro x hx
      have hdot : dot a.data b.data = 0 := dot_eq_zero h
      rw [scalar, hdot] at hx
      exact List.mem_singleton.1 (Array.mem_toList_iff.2 hx)
    · exact isZero_of_mul (h.symm.imp (fun hb => get_transpose_eq_zero hb.get_toMatrix)
        IsZero.get_toMatrix) hp
    · exact isZero_of_mul (h.imp IsZero.get_toMatrix IsZero.get_toMatrix) hp

end BlockValue

end GraphTensor
