import GraphTensor.Proofs.Block.LinearAlgebra
import GraphTensor.Proofs.Machine.Typing
set_option autoImplicit false

/-! # Operations of a run

An operation on two blocks succeeds just if their shapes fit, and it gives what linear algebra
gives. The one exception is a product, which can have far more numbers than its sides and even comes
from blocks without numbers: where it has no room, the run aborts.

Each of `Value.blockOperation`'s cases is described by the shape of its result, if there is one. The
laws compare computations as a whole, with their errors and aborts, so that a law about sums of
products holds of operands whose shapes do not fit too. -/

namespace GraphTensor

namespace Value

open BlockValue

theorem blockOperation_of_none {α : Type} [Scalar α] {op : BinaryOp} {a b : BlockValue α}
    (h : op.blockShape? a.shape b.shape = none) :
    blockOperation op a b =
      Outcome.fail (.typeMismatch (.operation op) .conforming (.shapes a.shape b.shape)) := by
  have hnone : blockOperation? op a b = none := by
    cases op with
    | add => exact dif_neg fun hsame => by simp [BinaryOp.blockShape?, BlockShape.sum, hsame] at h
    | sub => exact dif_neg fun hsame => by simp [BinaryOp.blockShape?, BlockShape.sum, hsame] at h
    | mul =>
        have hproduct : a.shape.product b.shape = none := h
        change a.mul? b = none
        rw [BlockValue.mul?, hproduct]
    | div =>
        have hscalar : b.shape ≠ .scalar := fun hs => by simp [BinaryOp.blockShape?, hs] at h
        change (b.asScalar?.map _) = none
        rw [Option.map_eq_none_iff, BlockValue.asScalar?]
        cases hs : b.shape with
        | scalar => exact absurd hs hscalar
        | vector n => rfl
        | matrix r c => rfl
  have hroom : (op != .mul || productHasRoom a.shape b.shape) = true := by
    cases op with
    | mul =>
        have hproduct : a.shape.product b.shape = none := h
        simp [productHasRoom, hproduct]
    | add => rfl
    | sub => rfl
    | div => rfl
  rw [blockOperation, hroom, hnone]
  rfl

section

variable {α : Type} [Scalar α] {op : BinaryOp} {a b c : BlockValue α} {shape : BlockShape}

/-- An operation on two blocks whose shapes fit comes to its result, if a product has room. -/
theorem blockOperation_of_some (h : op.blockShape? a.shape b.shape = some shape)
    (hroom : op = .mul → shape.HasRoom) :
    ∃ c, blockOperation? op a b = some c ∧ c.shape = shape ∧ blockOperation op a b = .ok c := by
  obtain ⟨c, hc, hshape⟩ := exists_blockOperation? h
  have hrequire : (op != .mul || productHasRoom a.shape b.shape) = true := by
    cases op with
    | mul =>
        have hproduct : a.shape.product b.shape = some shape := h
        simpa [productHasRoom, hproduct, BlockShape.HasRoom] using hroom rfl
    | add => rfl
    | sub => rfl
    | div => rfl
  refine ⟨c, hc, hshape, ?_⟩
  rw [blockOperation, hrequire, hc]
  rfl

theorem blockOperation_of_noRoom (h : a.shape.product b.shape = some shape)
    (hroom : ¬ shape.HasRoom) : blockOperation .mul a b = .error .abort := by
  have hrequire : productHasRoom a.shape b.shape = false := by
    simpa [productHasRoom, h, BlockShape.HasRoom] using hroom
  rw [blockOperation, hrequire]
  rfl

/-- What comes out of an operation, and its shape. -/
theorem blockOperation_eq_ok (h : blockOperation op a b = .ok c) :
    blockOperation? op a b = some c ∧ op.blockShape? a.shape b.shape = some c.shape ∧
      (op = .mul → c.shape.HasRoom) := by
  cases hshape : op.blockShape? a.shape b.shape with
  | none =>
      rw [blockOperation_of_none hshape] at h
      cases h
  | some shape =>
      by_cases hroom : op = .mul → shape.HasRoom
      · obtain ⟨found, hfound, rfl, hop⟩ := blockOperation_of_some hshape hroom
        obtain rfl := Except.ok.inj (hop.symm.trans h)
        exact ⟨hfound, rfl, hroom⟩
      · obtain ⟨rfl, hnone⟩ := Classical.not_imp.1 hroom
        rw [blockOperation_of_noRoom hshape hnone] at h
        cases h

theorem exists_blockOperation_iff :
    (∃ c, blockOperation op a b = .ok c) ↔
      ∃ shape, op.blockShape? a.shape b.shape = some shape ∧ (op = .mul → shape.HasRoom) := by
  constructor
  · rintro ⟨c, hc⟩
    exact ⟨c.shape, (blockOperation_eq_ok hc).2⟩
  · rintro ⟨shape, hshape, hroom⟩
    obtain ⟨c, _, _, hc⟩ := blockOperation_of_some hshape hroom
    exact ⟨c, hc⟩

/-- A product aborts just if its shape has no room. -/
theorem blockOperation_mul_eq_abort_iff :
    blockOperation .mul a b = .error .abort ↔
      ∃ shape, a.shape.product b.shape = some shape ∧ ¬ shape.HasRoom := by
  refine ⟨fun h => ?_, fun ⟨shape, hshape, hroom⟩ => blockOperation_of_noRoom hshape hroom⟩
  cases hshape : BinaryOp.mul.blockShape? a.shape b.shape with
  | none =>
      rw [blockOperation_of_none hshape] at h
      cases h
  | some shape =>
      refine ⟨shape, hshape, fun hroom => ?_⟩
      obtain ⟨x, _, _, hx⟩ := blockOperation_of_some hshape fun _ => hroom
      cases hx.symm.trans h

/-- Products of blocks of the same shapes all succeed, all fail alike or all abort. So if the
    third is the sum or the difference of the others as blocks, it is so as a computation. -/
theorem blockOperation_mul_eq {a' b' a'' b'' : BlockValue α} (ha : a.shape = a'.shape)
    (hb : b.shape = b'.shape) (ha' : a.shape = a''.shape) (hb' : b.shape = b''.shape)
    (hop : op = .add ∨ op = .sub)
    (h : ∀ x y, a.mul? b = some x → a'.mul? b' = some y → a''.mul? b'' = blockOperation? op x y) :
    blockOperation .mul a'' b'' = (do
      let x ← blockOperation .mul a b
      let y ← blockOperation .mul a' b'
      blockOperation op x y) := by
  cases hshape : BinaryOp.mul.blockShape? a.shape b.shape with
  | none =>
      rw [blockOperation_of_none hshape, blockOperation_of_none (ha' ▸ hb' ▸ hshape), ← ha', ← hb']
      rfl
  | some shape =>
      have hshape' : BinaryOp.mul.blockShape? a'.shape b'.shape = some shape := ha ▸ hb ▸ hshape
      have hshape'' : BinaryOp.mul.blockShape? a''.shape b''.shape = some shape :=
        ha' ▸ hb' ▸ hshape
      by_cases hroom : shape.HasRoom
      · obtain ⟨x, hx, hxshape, hxop⟩ := blockOperation_of_some hshape fun _ => hroom
        obtain ⟨y, hy, hyshape, hyop⟩ := blockOperation_of_some hshape' fun _ => hroom
        obtain ⟨z, hz, _, hzop⟩ := blockOperation_of_some hshape'' fun _ => hroom
        have hsum : op.blockShape? x.shape y.shape = some shape := by
          rcases hop with rfl | rfl <;>
            exact BlockShape.sum_eq_some_iff.2 ⟨hxshape.trans hyshape.symm, hxshape⟩
        obtain ⟨w, hw, _, hwop⟩ := blockOperation_of_some hsum fun _ => hroom
        obtain rfl : z = w := Option.some.inj (hz.symm.trans ((h x y hx hy).trans hw))
        rw [hxop, hyop, hzop]
        exact hwop.symm
      · rw [blockOperation_of_noRoom hshape hroom, blockOperation_of_noRoom hshape'' hroom]
        rfl

theorem blockOperation_mul_map {a' b' : BlockValue α} {f : BlockValue α → BlockValue α}
    (ha : a.shape = a'.shape) (hb : b.shape = b'.shape)
    (h : ∀ x, a.mul? b = some x → a'.mul? b' = some (f x)) :
    blockOperation .mul a' b' = (blockOperation .mul a b).map f := by
  cases hshape : BinaryOp.mul.blockShape? a.shape b.shape with
  | none =>
      rw [blockOperation_of_none hshape, blockOperation_of_none (ha ▸ hb ▸ hshape), ← ha, ← hb]
      rfl
  | some shape =>
      have hshape' : BinaryOp.mul.blockShape? a'.shape b'.shape = some shape := ha ▸ hb ▸ hshape
      by_cases hroom : shape.HasRoom
      · obtain ⟨x, hx, _, hxop⟩ := blockOperation_of_some hshape fun _ => hroom
        obtain ⟨y, hy, _, hyop⟩ := blockOperation_of_some hshape' fun _ => hroom
        obtain rfl := Option.some.inj (hy.symm.trans (h x hx))
        rw [hxop, hyop]
        rfl
      · rw [blockOperation_of_noRoom hshape hroom, blockOperation_of_noRoom hshape' hroom]
        rfl

end

/-! ## Laws -/

variable {K : Type} [Field K] [LinearOrder K] {op : BinaryOp} {a b c s : BlockValue K}

theorem exists_sum_iff (hop : op = .add ∨ op = .sub) :
    (∃ x, blockOperation op a b = .ok x) ↔ a.shape = b.shape := by
  rw [exists_blockOperation_iff]
  constructor
  · rintro ⟨shape, hshape, _⟩
    rcases hop with rfl | rfl <;> exact (BlockShape.sum_eq_some_iff.1 hshape).1
  · intro hshape
    refine ⟨a.shape, ?_, ?_⟩ <;> rcases hop with rfl | rfl
    · exact BlockShape.sum_eq_some_iff.2 ⟨hshape, rfl⟩
    · exact BlockShape.sum_eq_some_iff.2 ⟨hshape, rfl⟩
    · exact nofun
    · exact nofun

theorem shapes_of_sum (hop : op = .add ∨ op = .sub) (hs : blockOperation op b c = .ok s) :
    b.shape = c.shape ∧ b.shape = s.shape := by
  obtain ⟨_, hsum, _⟩ := blockOperation_eq_ok hs
  rcases hop with rfl | rfl <;> exact BlockShape.sum_eq_some_iff.1 hsum

/-- A product with a sum or a difference. -/
theorem mul_blockOperation (hop : op = .add ∨ op = .sub) (hs : blockOperation op b c = .ok s) :
    blockOperation .mul a s = (do
      let x ← blockOperation .mul a b
      let y ← blockOperation .mul a c
      blockOperation op x y) := by
  obtain ⟨hbc, hbs⟩ := shapes_of_sum hop hs
  have hsum := (blockOperation_eq_ok hs).1
  refine blockOperation_mul_eq rfl hbc rfl hbs hop fun x y hx hy => ?_
  rcases hop with rfl | rfl
  · exact mul?_add? hsum hx hy
  · exact mul?_sub? hsum hx hy

/-- The product of a sum or a difference. -/
theorem blockOperation_mul (hop : op = .add ∨ op = .sub) (hs : blockOperation op a b = .ok s) :
    blockOperation .mul s c = (do
      let x ← blockOperation .mul a c
      let y ← blockOperation .mul b c
      blockOperation op x y) := by
  obtain ⟨hab, has⟩ := shapes_of_sum hop hs
  have hsum := (blockOperation_eq_ok hs).1
  refine blockOperation_mul_eq hab rfl has rfl hop fun x y hx hy => ?_
  rcases hop with rfl | rfl
  · exact add?_mul? hsum hx hy
  · exact sub?_mul? hsum hx hy

/-- **Arithmetic of blocks.** Sums and differences succeed just if the shapes are equal, quotients
    just if the divisor is a number, and products just if the shapes have a product with room;
    without room the run aborts. The result has the shape that these shapes tell, and as many
    numbers as it takes. A product is that of linear algebra. It distributes over sums and
    differences on both sides, and a sign may be taken out of either side. -/
theorem blockOperation_laws (a b c : BlockValue K) :
    ((∃ x, blockOperation .add a b = .ok x) ↔ a.shape = b.shape) ∧
    ((∃ x, blockOperation .sub a b = .ok x) ↔ a.shape = b.shape) ∧
    ((∃ x, blockOperation .div a b = .ok x) ↔ b.shape = .scalar) ∧
    ((∃ x, blockOperation .mul a b = .ok x) ↔
      ∃ shape, a.shape.product b.shape = some shape ∧ shape.HasRoom) ∧
    (blockOperation .mul a b = .error .abort ↔
      ∃ shape, a.shape.product b.shape = some shape ∧ ¬ shape.HasRoom) ∧
    (∀ op x, blockOperation op a b = .ok x →
      op.blockShape? a.shape b.shape = some x.shape ∧ x.data.size = x.shape.length) ∧
    (∀ x, blockOperation .mul a b = .ok x → IsProduct a b x) ∧
    (∀ op s, op = .add ∨ op = .sub → blockOperation op b c = .ok s →
      blockOperation .mul a s = (do
        let x ← blockOperation .mul a b
        let y ← blockOperation .mul a c
        blockOperation op x y) ∧
      blockOperation .mul s a = (do
        let x ← blockOperation .mul b a
        let y ← blockOperation .mul c a
        blockOperation op x y)) ∧
    blockOperation .mul a.neg b = (blockOperation .mul a b).map BlockValue.neg ∧
    blockOperation .mul a b.neg = (blockOperation .mul a b).map BlockValue.neg := by
  refine ⟨exists_sum_iff (Or.inl rfl), exists_sum_iff (Or.inr rfl), ?_, ?_,
    blockOperation_mul_eq_abort_iff, ?_, ?_, ?_, ?_, ?_⟩
  · simp [exists_blockOperation_iff, BinaryOp.blockShape?]
  · simp [exists_blockOperation_iff, BinaryOp.blockShape?]
  · exact fun op x hx => ⟨(blockOperation_eq_ok hx).2.1, x.size_data⟩
  · exact fun x hx => mul?_eq_some_iff.1 (blockOperation_eq_ok hx).1
  · exact fun op s hop hs => ⟨mul_blockOperation hop hs, blockOperation_mul hop hs⟩
  · exact blockOperation_mul_map rfl rfl fun x hx => neg_mul? hx
  · exact blockOperation_mul_map rfl rfl fun x hx => mul?_neg hx

/-- Two matrices without numbers have a product in linear algebra, and none in a run: it has
    `2 ^ 60` numbers, which take up `2 ^ 63` bytes. -/
theorem emptyMatrices_noProduct :
    let a : BlockValue ℚ := ⟨.matrix 1 0, #[], rfl⟩
    let b : BlockValue ℚ := ⟨.matrix 0 (2 ^ 60), #[], rfl⟩
    a.shape.product b.shape = some (.matrix 1 (2 ^ 60)) ∧
      blockOperation .mul a b = .error .abort :=
  ⟨rfl, blockOperation_of_noRoom rfl (by decide)⟩

end Value

end GraphTensor
