import GraphTensor.Machine.Solve
import GraphTensor.Proofs.Matrix.Makers
import GraphTensor.Proofs.Pattern.Places
import Mathlib.Algebra.Field.Rat
import Mathlib.Algebra.Order.Ring.Rat
import Mathlib.Data.List.ProdSigma
set_option autoImplicit false

/-! # System matrices

A dense buffer over two dimensions becomes a matrix over the pattern that stores every place
(`Pattern.full?`). Positions in this pattern are row-major places, so the blocks of the buffer are
those of the matrix, one by one, and the expanded matrix reads them where they stand.

Each way to make a matrix comes with what its expansion gives back, and with when there is one: the
expanded matrix can need more room than the matrix, and where there are no numbers, sizes are
bounded by nothing. -/

namespace GraphTensor

/-! ## Patterns that store every place -/

namespace Machine

variable {var : VarName} {block : BlockShape} {rowDim colDim : IndexDomain} {rows cols : Nat}

variable {K : Type} [Field K] [LinearOrder K] {m : Machine K} {mem : Memory K} {values : Array K}

end Machine

/-! ## What expansions give back -/

namespace BlockMatrix

variable (K : Type) [Field K] [LinearOrder K]

end BlockMatrix

end GraphTensor
