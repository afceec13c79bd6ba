import GraphTensor.Proofs.Solve.Factorization
import GraphTensor.Solve.Schur
import Mathlib.Algebra.Order.Ring.Rat
set_option autoImplicit false

/-! # Solutions of systems of two blocks

Both orders of elimination end in a solution of the full system (`SchurSystem.SolvedBy`), if every
matrix that they factorize (`SchurSystem.Factorizes`) is inverted exactly. What carries the proof is
one fact about back substitution: with factors of `M`, the solution of `M y = a - B x` is
`M⁻¹ a - (M⁻¹ B) x`, so that the block solved last agrees with what the complement was built from.

The sizes are checked before anything is computed, and from then on all operands conform:
`SchurSystem.solveStrict`, whose products and differences abort on operands of unequal sizes, comes
to the same. A check that tells whether a condition holds (`Solved.Tells`) is put together from
checks that do. -/

namespace GraphTensor

/-! ## Back substitution -/

/-- The sum of two vectors. -/
def addVec {α : Type} [Scalar α] (x y : Array α) : Array α :=
  x.zipWith (· + ·) y

theorem size_addVec {α : Type} [Scalar α] {x y : Array α} (h : y.size = x.size) :
    (addVec x y).size = x.size := by
  simp [addVec, h]

section

variable {K : Type} [Field K] [LinearOrder K]

theorem getD_addVec {x y : Array K} (h : y.size = x.size) (i : Nat) :
    (addVec x y).getD i 0 = x.getD i 0 + y.getD i 0 := by
  by_cases hi : i < x.size
  · simp [addVec, hi, h]
  · simp [addVec, hi, h]

theorem addVec_subVec {x y : Array K} (h : y.size = x.size) :
    addVec (subVec x y) y = x ∧ addVec y (subVec x y) = x := by
  have hsize := size_subVec h
  refine ⟨ext_getD ((size_addVec (h.trans hsize.symm)).trans hsize) fun i => ?_,
    ext_getD ((size_addVec (hsize.trans h.symm)).trans h) fun i => ?_⟩
  · rw [getD_addVec (h.trans hsize.symm), getD_subVec h]
    exact sub_add_cancel _ _
  · rw [getD_addVec (hsize.trans h.symm), getD_subVec h]
    exact add_sub_cancel _ _

theorem subVec_subVec {x y : Array K} (h : y.size = x.size) : subVec x (subVec x y) = y := by
  have hsize := size_subVec h
  refine ext_getD ((size_subVec hsize).trans h.symm) fun i => ?_
  rw [getD_subVec hsize, getD_subVec h]
  exact sub_sub_cancel _ _

theorem addVec_subVec_of_eq {x y z f : Array K} (hy : y.size = x.size) (hz : z.size = x.size)
    (hf : f.size = x.size) (h : subVec x z = subVec f y) : addVec x (subVec y z) = f := by
  have hsize : (subVec y z).size = x.size := (size_subVec (hz.trans hy.symm)).trans hy
  refine ext_getD ((size_addVec hsize).trans hf.symm) fun i => ?_
  have hi := congrArg (·.getD i 0) h
  simp only [getD_subVec hz, getD_subVec (hy.trans hf.symm)] at hi
  rw [getD_addVec hsize, getD_subVec (hz.trans hy.symm)]
  linear_combination hi

namespace DenseMatrix

variable {m b inverse : DenseMatrix K} {config : SolverConfig K} {factors : Factors K}

theorem mulVec_solveMatrix (hexact : m.InvertedExactly config)
    (hfactors : m.factorize config = .ok factors) (h : factors.solveMatrix b = .ok inverse)
    (x : Array K) : m.mulVec (inverse.mulVec x) = b.mulVec x := by
  obtain ⟨hsquare, hdim⟩ := dim_of_factorize hfactors
  obtain ⟨hrows, _, hcols, hcol⟩ := Factors.solveMatrix_spec h
  have hentry : ∀ i, ∀ j ∈ Finset.range b.cols, (m.mul inverse).get i j = b.get i j := by
    intro i j hj
    obtain ⟨y, hy, hget⟩ := hcol j (Finset.mem_range.1 hj)
    have hsolved := (hexact.solvedExactly) factors _ y hfactors hy
    simp only [get_mul, hget]
    rw [← getD_mulVec, hsolved]
    by_cases hi : i < b.rows
    · simp [col, hi]
    · rw [get_of_not_lt fun hij => hi hij.1]
      simp [col, hi]
  rw [← mulVec_mul]
  refine ext_getD (by rw [size_mulVec, size_mulVec, hrows]; exact hdim.symm) fun i => ?_
  have hcols' : (m.mul inverse).cols = b.cols := hcols
  rw [getD_mulVec, getD_mulVec, hcols']
  exact Finset.sum_congr rfl fun j hj => congrArg (· * x.getD j 0) (hentry i j hj)

theorem addVec_mulVec_zeros {rows cols : Nat} {x y : Array K} (h : x.size = rows) :
    addVec x ((zeros rows cols).mulVec y) = x := by
  have hsize : ((zeros rows cols).mulVec y).size = x.size := (size_mulVec ..).trans h.symm
  refine ext_getD (size_addVec hsize) fun i => ?_
  rw [getD_addVec hsize, getD_mulVec, Finset.sum_eq_zero fun k _ => by rw [get_zeros, zero_mul],
    add_zero]

/-- **Back substitution** with the factors that gave a right-hand side and the columns of a matrix:
    the solution is the difference of what they gave. -/
theorem backSubstitute (hexact : m.InvertedExactly config)
    (hfactors : m.factorize config = .ok factors) (hinverse : factors.solveMatrix b = .ok inverse)
    {a u x y : Array K} (hu : factors.solve a = .ok u)
    (hy : factors.solve (subVec a (b.mulVec x)) = .ok y) : y = subVec u (inverse.mulVec x) := by
  obtain ⟨hsquare, hdim⟩ := dim_of_factorize hfactors
  have husize := (Factors.size_of_solve hu).2
  obtain ⟨_, hrows, _, _⟩ := Factors.solveMatrix_spec hinverse
  have hsize : (inverse.mulVec x).size = u.size := by
    rw [size_mulVec, hrows, husize]
  refine (((hexact factors _ y hfactors hy).2 _ ?_).1 ?_).symm
  · rw [size_subVec hsize, husize, hdim, hsquare]
  · rw [mulVec_subVec m hsize, hexact.solvedExactly factors _ u hfactors hu,
      mulVec_solveMatrix hexact hfactors hinverse]

end DenseMatrix

end

/-! ## Sizes -/

namespace Solved

/-- A check tells whether a condition holds: it succeeds if it does, else it names two sizes that
    disagree. -/
def Tells (check : Solved Unit) (condition : Prop) : Prop :=
  check = .ok () ∧ condition ∨
    ¬ condition ∧ ∃ extent expected found, expected ≠ found ∧
      check = Outcome.fail (.dimensionMismatch extent expected found)

theorem tells_expectSize (extent : Extent) (expected found : Nat) :
    Tells (expectSize extent expected found) (expected = found) := by
  by_cases h : expected = found
  · exact .inl ⟨if_pos h, h⟩
  · exact .inr ⟨h, extent, expected, found, h, if_neg h⟩

variable {check check' : Solved Unit} {condition condition' : Prop}

theorem Tells.bind (h : Tells check condition) (h' : Tells check' condition') :
    Tells (do check; check') (condition ∧ condition') := by
  rcases h with ⟨rfl, hc⟩ | ⟨hc, extent, expected, found, hne, rfl⟩
  · rcases h' with ⟨rfl, hc'⟩ | ⟨hc', hmismatch⟩
    · exact .inl ⟨rfl, hc, hc'⟩
    · exact .inr ⟨fun h => hc' h.2, hmismatch⟩
  · exact .inr ⟨fun h => hc h.1, extent, expected, found, hne, rfl⟩

theorem Tells.of_ok (h : Tells check condition) (hok : check = .ok ()) : condition := by
  rcases h with ⟨_, hc⟩ | ⟨_, _, _, _, _, hmismatch⟩
  · exact hc
  · rw [hok] at hmismatch
    cases hmismatch

theorem Tells.iff (h : Tells check condition) (hiff : condition ↔ condition') :
    Tells check condition' :=
  propext hiff ▸ h

end Solved

section

variable {α : Type} [Scalar α]

/-- The product of two matrices that conform. -/
def DenseMatrix.mul? (a b : DenseMatrix α) : Option (DenseMatrix α) :=
  if a.cols = b.rows then some (a.mul b) else none

/-- The difference of two matrices of one size. -/
def DenseMatrix.sub? (a b : DenseMatrix α) : Option (DenseMatrix α) :=
  if b.rows = a.rows ∧ b.cols = a.cols then some (a.sub b) else none

/-- The product of a matrix and a vector that conform. -/
def DenseMatrix.mulVec? (m : DenseMatrix α) (x : Array α) : Option (Array α) :=
  if m.cols = x.size then some (m.mulVec x) else none

/-- The difference of two vectors of one size. -/
def subVec? (x y : Array α) : Option (Array α) :=
  if y.size = x.size then some (subVec x y) else none

namespace SchurSystem

/-- The sizes of the operands agree. -/
structure Fits (s : SchurSystem α) : Prop where
  /-- The matrix of the primary unknowns is square. -/
  primary : s.primary.cols = s.primary.rows
  /-- The coupling has a column for each primary unknown. -/
  coupling : s.coupling.cols = s.primary.rows
  /-- The right-hand side of the primary rows. -/
  rhsPrimary : s.rhsPrimary.size = s.primary.rows
  /-- The right-hand side of the derived rows. -/
  rhsDerived : s.rhsDerived.size = s.coupling.rows
  /-- The matrix of the derived unknowns is square, with a row for each row of the coupling. -/
  derived : ∀ d, s.derived = some d → d.rows = s.coupling.rows ∧ d.cols = s.coupling.rows

/-- Solves with the derived unknowns eliminated, where operands that do not conform are an abort. -/
def solveByDerivedStrict (s : SchurSystem α) (d : DenseMatrix α) (config : SolverConfig α) :
    Solved (SchurSolution α) := do
  let c := s.coupling
  let ct := c.transpose
  let factors ← d.factorize config
  let inverseC ← factors.solveMatrix c
  let inverseG ← factors.solve s.rhsDerived
  let product ← Outcome.orAbort (ct.mul? inverseC)
  let difference ← Outcome.orAbort (s.primary.sub? product)
  let known ← Outcome.orAbort (ct.mulVec? inverseG)
  let rhs ← Outcome.orAbort (subVec? s.rhsPrimary known)
  let complement ← difference.factorize config
  let primary ← complement.solve rhs
  let coupled ← Outcome.orAbort (c.mulVec? primary)
  let rest ← Outcome.orAbort (subVec? s.rhsDerived coupled)
  let derived ← factors.solve rest
  return ⟨primary, derived⟩

/-- Solves with the primary unknowns eliminated, where operands that do not conform are an abort. -/
def solveByPrimaryStrict (s : SchurSystem α) (config : SolverConfig α) :
    Solved (SchurSolution α) := do
  let c := s.coupling
  let ct := c.transpose
  let factors ← s.primary.factorize config
  let inverseCt ← factors.solveMatrix ct
  let inverseF ← factors.solve s.rhsPrimary
  let product ← Outcome.orAbort (c.mul? inverseCt)
  let known ← Outcome.orAbort (c.mulVec? inverseF)
  let rhs ← Outcome.orAbort (subVec? known s.rhsDerived)
  let complement ← product.factorize config
  let derived ← complement.solve rhs
  let coupled ← Outcome.orAbort (ct.mulVec? derived)
  let rest ← Outcome.orAbort (subVec? s.rhsPrimary coupled)
  let primary ← factors.solve rest
  return ⟨primary, derived⟩

/-- Solves a system of two blocks, where operands that do not conform are an abort. -/
def solveStrict (s : SchurSystem α) (config : SolverConfig α) : Solved (SchurSolution α) := do
  s.check
  s.derived.elim (s.solveByPrimaryStrict config) (s.solveByDerivedStrict · config)

variable {s : SchurSystem α} {config : SolverConfig α}

omit [Scalar α] in
theorem check_tells (s : SchurSystem α) : Solved.Tells s.check s.Fits := by
  cases hderived : s.derived with
  | none =>
      have hnone : Solved.Tells (.ok ()) True := .inl ⟨rfl, trivial⟩
      rw [check, hderived]
      refine ((Solved.tells_expectSize ..).bind ((Solved.tells_expectSize ..).bind
        ((Solved.tells_expectSize ..).bind ((Solved.tells_expectSize ..).bind hnone)))).iff ?_
      exact ⟨fun ⟨hprimary, hcoupling, hf, hg, _⟩ =>
          ⟨hprimary.symm, hcoupling.symm, hf.symm, hg.symm, by simp [hderived]⟩,
        fun ⟨hprimary, hcoupling, hf, hg, _⟩ =>
          ⟨hprimary.symm, hcoupling.symm, hf.symm, hg.symm, trivial⟩⟩
  | some d =>
      rw [check, hderived]
      refine ((Solved.tells_expectSize ..).bind ((Solved.tells_expectSize ..).bind
        ((Solved.tells_expectSize ..).bind ((Solved.tells_expectSize ..).bind
          ((Solved.tells_expectSize ..).bind (Solved.tells_expectSize ..)))))).iff ?_
      exact ⟨fun ⟨hprimary, hcoupling, hf, hg, hrows, hcols⟩ =>
          ⟨hprimary.symm, hcoupling.symm, hf.symm, hg.symm, by
            simp [hderived, ← hrows, ← hcols]⟩,
        fun ⟨hprimary, hcoupling, hf, hg, hd⟩ =>
          ⟨hprimary.symm, hcoupling.symm, hf.symm, hg.symm, (hd d hderived).1.symm,
            (hd d hderived).2.symm⟩⟩

/-- Every product and difference of an elimination of the derived unknowns conforms. -/
theorem solveByDerivedStrict_eq {d : DenseMatrix α} (hfits : s.Fits) (hd : s.derived = some d) :
    s.solveByDerivedStrict d config = s.solveByDerived d config := by
  obtain ⟨hdrows, _⟩ := hfits.derived d hd
  refine Except.bind_congr fun factors hfactors => ?_
  obtain ⟨_, hdim⟩ := DenseMatrix.dim_of_factorize hfactors
  refine Except.bind_congr fun inverseC hC => Except.bind_congr fun inverseG hG => ?_
  obtain ⟨_, hCrows, hCcols, _⟩ := Factors.solveMatrix_spec hC
  have hGsize := (Factors.size_of_solve hG).2
  have hproduct : s.coupling.transpose.mul? inverseC = some (s.coupling.transpose.mul inverseC) :=
    if_pos (hdrows.symm.trans (hdim.symm.trans hCrows.symm))
  have hdifference : s.primary.sub? (s.coupling.transpose.mul inverseC) =
      some (s.primary.sub (s.coupling.transpose.mul inverseC)) :=
    if_pos ⟨hfits.coupling, hCcols.trans (hfits.coupling.trans hfits.primary.symm)⟩
  have hknown : s.coupling.transpose.mulVec? inverseG =
      some (s.coupling.transpose.mulVec inverseG) :=
    if_pos (hdrows.symm.trans (hdim.symm.trans hGsize.symm))
  have hrhs : subVec? s.rhsPrimary (s.coupling.transpose.mulVec inverseG) =
      some (subVec s.rhsPrimary (s.coupling.transpose.mulVec inverseG)) :=
    if_pos ((DenseMatrix.size_mulVec ..).trans (hfits.coupling.trans hfits.rhsPrimary.symm))
  refine (Outcome.orAbort_bind hproduct).trans <| (Outcome.orAbort_bind hdifference).trans <|
    (Outcome.orAbort_bind hknown).trans <| (Outcome.orAbort_bind hrhs).trans ?_
  refine Except.bind_congr fun complement hcomplement => Except.bind_congr fun primary hprimary => ?_
  obtain ⟨_, hcdim⟩ := DenseMatrix.dim_of_factorize hcomplement
  have hsize := (Factors.size_of_solve hprimary).2
  have hcoupled : s.coupling.mulVec? primary = some (s.coupling.mulVec primary) :=
    if_pos (hfits.coupling.trans (hcdim.symm.trans hsize.symm))
  have hrest : subVec? s.rhsDerived (s.coupling.mulVec primary) =
      some (subVec s.rhsDerived (s.coupling.mulVec primary)) :=
    if_pos ((DenseMatrix.size_mulVec ..).trans hfits.rhsDerived.symm)
  exact (Outcome.orAbort_bind hcoupled).trans (Outcome.orAbort_bind hrest)

/-- Every product and difference of an elimination of the primary unknowns conforms. -/
theorem solveByPrimaryStrict_eq (hfits : s.Fits) :
    s.solveByPrimaryStrict config = s.solveByPrimary config := by
  refine Except.bind_congr fun factors hfactors => ?_
  obtain ⟨_, hdim⟩ := DenseMatrix.dim_of_factorize hfactors
  refine Except.bind_congr fun inverseCt hCt => Except.bind_congr fun inverseF hF => ?_
  obtain ⟨_, hCtrows, _, _⟩ := Factors.solveMatrix_spec hCt
  have hFsize := (Factors.size_of_solve hF).2
  have hproduct : s.coupling.mul? inverseCt = some (s.coupling.mul inverseCt) :=
    if_pos (hfits.coupling.trans (hdim.symm.trans hCtrows.symm))
  have hknown : s.coupling.mulVec? inverseF = some (s.coupling.mulVec inverseF) :=
    if_pos (hfits.coupling.trans (hdim.symm.trans hFsize.symm))
  have hrhs : subVec? (s.coupling.mulVec inverseF) s.rhsDerived =
      some (subVec (s.coupling.mulVec inverseF) s.rhsDerived) :=
    if_pos (hfits.rhsDerived.trans (DenseMatrix.size_mulVec ..).symm)
  refine (Outcome.orAbort_bind hproduct).trans <| (Outcome.orAbort_bind hknown).trans <|
    (Outcome.orAbort_bind hrhs).trans ?_
  refine Except.bind_congr fun complement hcomplement => Except.bind_congr fun derived hderived => ?_
  obtain ⟨_, hcdim⟩ := DenseMatrix.dim_of_factorize hcomplement
  have hsize := (Factors.size_of_solve hderived).2
  have hcoupled : s.coupling.transpose.mulVec? derived =
      some (s.coupling.transpose.mulVec derived) :=
    if_pos (hcdim.symm.trans hsize.symm)
  have hrest : subVec? s.rhsPrimary (s.coupling.transpose.mulVec derived) =
      some (subVec s.rhsPrimary (s.coupling.transpose.mulVec derived)) :=
    if_pos ((DenseMatrix.size_mulVec ..).trans (hfits.coupling.trans hfits.rhsPrimary.symm))
  exact (Outcome.orAbort_bind hcoupled).trans (Outcome.orAbort_bind hrest)

/-- **All operands conform** once the sizes have been checked. -/
theorem solveStrict_eq (s : SchurSystem α) (config : SolverConfig α) :
    s.solveStrict config = s.solve config := by
  refine Except.bind_congr fun _ hcheck => ?_
  have hfits := s.check_tells.of_ok hcheck
  cases hderived : s.derived with
  | none => exact solveByPrimaryStrict_eq hfits
  | some d => exact solveByDerivedStrict_eq hfits hderived

end SchurSystem

end

/-! ## Solutions -/

namespace SchurSystem

variable {K : Type} [Field K] [LinearOrder K] {s : SchurSystem K} {config : SolverConfig K}
  {x : SchurSolution K}

/-- A solution satisfies `K x + Cᵀ y = f` and `C x + D y = g`, where `D` is zero if it is not
    given. -/
structure SolvedBy (s : SchurSystem K) (x : SchurSolution K) : Prop where
  /-- There is a component for each primary unknown. -/
  sizePrimary : x.primary.size = s.primary.rows
  /-- There is a component for each derived unknown. -/
  sizeDerived : x.derived.size = s.coupling.rows
  /-- The primary rows. -/
  primary : addVec (s.primary.mulVec x.primary) (s.coupling.transpose.mulVec x.derived) =
    s.rhsPrimary
  /-- The derived rows. -/
  derived : addVec (s.coupling.mulVec x.primary)
    ((s.derived.getD (.zeros s.coupling.rows s.coupling.rows)).mulVec x.derived) = s.rhsDerived

/-- The matrices that a solve factorizes: the one of the unknowns that are eliminated, and the
    complement that this leaves. -/
inductive Factorizes (s : SchurSystem K) (config : SolverConfig K) : DenseMatrix K → Prop
  /-- The matrix of the derived unknowns, where it is given. -/
  | derived {d : DenseMatrix K} (hd : s.derived = some d) : Factorizes s config d
  /-- What is left of the primary unknowns. -/
  | primaryComplement {d inverseC : DenseMatrix K} {factors : Factors K} (hd : s.derived = some d)
      (hfactors : d.factorize config = .ok factors)
      (hinverse : factors.solveMatrix s.coupling = .ok inverseC) :
      Factorizes s config (s.primary.sub (s.coupling.transpose.mul inverseC))
  /-- The matrix of the primary unknowns otherwise. -/
  | primary (hd : s.derived = none) : Factorizes s config s.primary
  /-- What is left of the derived unknowns. -/
  | derivedComplement {inverseCt : DenseMatrix K} {factors : Factors K} (hd : s.derived = none)
      (hfactors : s.primary.factorize config = .ok factors)
      (hinverse : factors.solveMatrix s.coupling.transpose = .ok inverseCt) :
      Factorizes s config (s.coupling.mul inverseCt)

theorem solvedBy_of_solveByDerived {d : DenseMatrix K} (hfits : s.Fits) (hd : s.derived = some d)
    (hexact : ∀ m, s.Factorizes config m → m.InvertedExactly config)
    (h : s.solveByDerived d config = .ok x) : s.SolvedBy x := by
  obtain ⟨factors, hfactors, h⟩ := Outcome.bind_eq_ok_iff.1 h
  obtain ⟨inverseC, hC, h⟩ := Outcome.bind_eq_ok_iff.1 h
  obtain ⟨u, hu, h⟩ := Outcome.bind_eq_ok_iff.1 h
  obtain ⟨complement, hcomplement, h⟩ := Outcome.bind_eq_ok_iff.1 h
  obtain ⟨primary, hprimary, h⟩ := Outcome.bind_eq_ok_iff.1 h
  obtain ⟨derived, hderived, h⟩ := Outcome.bind_eq_ok_iff.1 h
  obtain rfl := Except.ok.inj h
  have hdexact := hexact d (.derived hd)
  have hback := DenseMatrix.backSubstitute hdexact hfactors hC hu hderived
  have hsolved := (hexact _ (.primaryComplement hd hfactors hC)).solvedExactly complement _ primary
    hcomplement hprimary
  have hrow := hdexact.solvedExactly factors _ derived hfactors hderived
  obtain ⟨_, hdim⟩ := DenseMatrix.dim_of_factorize hfactors
  obtain ⟨_, hcdim⟩ := DenseMatrix.dim_of_factorize hcomplement
  obtain ⟨_, hrows, hcols, _⟩ := Factors.solveMatrix_spec hC
  have husize := (Factors.size_of_solve hu).2
  have hct : ∀ y : Array K, (s.coupling.transpose.mulVec y).size = s.primary.rows := fun y =>
    (DenseMatrix.size_mulVec ..).trans hfits.coupling
  have hproduct : (s.coupling.transpose.mul inverseC).rows = s.primary.rows := hfits.coupling
  refine ⟨(Factors.size_of_solve hprimary).2.trans hcdim,
    ((Factors.size_of_solve hderived).2.trans hdim).trans (hfits.derived d hd).1, ?_, ?_⟩
  · rw [DenseMatrix.mulVec_sub hproduct (hcols.trans (hfits.coupling.trans hfits.primary.symm)),
      DenseMatrix.mulVec_mul] at hsolved
    rw [hback, DenseMatrix.mulVec_subVec _ (by rw [DenseMatrix.size_mulVec, hrows, husize])]
    have hK : (s.primary.mulVec primary).size = s.primary.rows := DenseMatrix.size_mulVec ..
    exact addVec_subVec_of_eq ((hct _).trans hK.symm) ((hct _).trans hK.symm)
      (hfits.rhsPrimary.trans hK.symm) hsolved
  · rw [hd, Option.getD_some, hrow]
    exact (addVec_subVec ((DenseMatrix.size_mulVec ..).trans hfits.rhsDerived.symm)).2

theorem solvedBy_of_solveByPrimary (hfits : s.Fits) (hd : s.derived = none)
    (hexact : ∀ m, s.Factorizes config m → m.InvertedExactly config)
    (h : s.solveByPrimary config = .ok x) : s.SolvedBy x := by
  obtain ⟨factors, hfactors, h⟩ := Outcome.bind_eq_ok_iff.1 h
  obtain ⟨inverseCt, hCt, h⟩ := Outcome.bind_eq_ok_iff.1 h
  obtain ⟨u, hu, h⟩ := Outcome.bind_eq_ok_iff.1 h
  obtain ⟨complement, hcomplement, h⟩ := Outcome.bind_eq_ok_iff.1 h
  obtain ⟨derived, hderived, h⟩ := Outcome.bind_eq_ok_iff.1 h
  obtain ⟨primary, hprimary, h⟩ := Outcome.bind_eq_ok_iff.1 h
  obtain rfl := Except.ok.inj h
  have hKexact := hexact _ (.primary hd)
  have hback := DenseMatrix.backSubstitute hKexact hfactors hCt hu hprimary
  have hsolved := (hexact _ (.derivedComplement hd hfactors hCt)).solvedExactly complement _ derived
    hcomplement hderived
  have hrow := hKexact.solvedExactly factors _ primary hfactors hprimary
  obtain ⟨_, hdim⟩ := DenseMatrix.dim_of_factorize hfactors
  obtain ⟨_, hcdim⟩ := DenseMatrix.dim_of_factorize hcomplement
  obtain ⟨_, hrows, _, _⟩ := Factors.solveMatrix_spec hCt
  have husize := (Factors.size_of_solve hu).2
  have hct : (s.coupling.transpose.mulVec derived).size = s.rhsPrimary.size :=
    (DenseMatrix.size_mulVec ..).trans (hfits.coupling.trans hfits.rhsPrimary.symm)
  refine ⟨(Factors.size_of_solve hprimary).2.trans hdim,
    (Factors.size_of_solve hderived).2.trans hcdim, ?_, ?_⟩
  · rw [hrow]
    exact (addVec_subVec hct).1
  · rw [DenseMatrix.mulVec_mul] at hsolved
    have hC : (s.coupling.mulVec u).size = s.rhsDerived.size :=
      (DenseMatrix.size_mulVec ..).trans hfits.rhsDerived.symm
    rw [hback, DenseMatrix.mulVec_subVec _ (by rw [DenseMatrix.size_mulVec, hrows, husize]), hsolved,
      subVec_subVec hC.symm, hd, Option.getD_none]
    exact DenseMatrix.addVec_mulVec_zeros hfits.rhsDerived

/-- **Solutions of systems of two blocks.** Where every matrix that a solve factorizes is inverted
    exactly, what it returns solves the full system, in both orders of elimination. If the sizes do
    not agree it fails with the mismatch, and otherwise it never multiplies or subtracts operands
    that do not conform: it is the solve in which that would be an abort. -/
theorem solve_solves (s : SchurSystem K) (config : SolverConfig K)
    (hexact : ∀ m, s.Factorizes config m → m.InvertedExactly config) :
    (∀ x, s.solve config = .ok x → s.SolvedBy x) ∧
      (¬ s.Fits → ∃ extent expected found, expected ≠ found ∧
        s.solve config = Outcome.fail (.dimensionMismatch extent expected found)) ∧
      s.solve config = s.solveStrict config := by
  refine ⟨fun x hx => ?_, fun hmisfit => ?_, (s.solveStrict_eq config).symm⟩
  · obtain ⟨_, hcheck, h⟩ := Outcome.bind_eq_ok_iff.1 hx
    have hfits := s.check_tells.of_ok hcheck
    cases hd : s.derived with
    | none =>
        rw [hd] at h
        exact solvedBy_of_solveByPrimary hfits hd hexact h
    | some d =>
        rw [hd] at h
        exact solvedBy_of_solveByDerived hfits hd hexact h
  · rcases s.check_tells with ⟨_, hfits⟩ | ⟨_, extent, expected, found, hne, hcheck⟩
    · exact absurd hfits hmisfit
    · refine ⟨extent, expected, found, hne, ?_⟩
      rw [solve, hcheck]
      rfl

/-- Three primary unknowns, of which the first and the last are constrained. -/
def constrainedEnds : SchurSystem ℚ where
  primary := ⟨3, 3, #[1, 1 / 2, 0, 1 / 2, 2, 1 / 2, 0, 1 / 2, 1]⟩
  coupling := ⟨2, 3, #[1, 0, 0, 0, 0, 1]⟩
  derived := none
  rhsPrimary := #[10, 20, 30]
  rhsDerived := #[100, -100]

/-- The constraints are met with the multipliers as forces. -/
theorem constrainedEnds_solves :
    constrainedEnds.solve ⟨.lu, 0⟩ = .ok ⟨#[100, 10, -100], #[-95, 125]⟩ ∧
      constrainedEnds.SolvedBy ⟨#[100, 10, -100], #[-95, 125]⟩ := by
  obtain ⟨x, hx, rfl⟩ : ∃ x, constrainedEnds.solve ⟨.lu, 0⟩ = .ok x ∧
      x = ⟨#[100, 10, -100], #[-95, 125]⟩ := by
    decide +kernel
  exact ⟨hx, (solve_solves constrainedEnds ⟨.lu, 0⟩ fun m _ =>
    m.invertedExactly_lu rfl).1 _ hx⟩

end SchurSystem

end GraphTensor
