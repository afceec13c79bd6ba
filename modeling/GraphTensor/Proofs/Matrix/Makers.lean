import GraphTensor.Proofs.Matrix.BlockSparse
import GraphTensor.Proofs.Pattern.Locating
set_option autoImplicit false

/-! # Making block matrices

A block matrix is made from a pattern with the numbers of its blocks, from triplets, or from a dense
matrix. Expanding it gives back what it was made from: the numbers of the blocks at their places,
the sums of the triplets at each place, and the dense matrix.

The makers lay the numbers out in different ways. Blocks stand in the order of the pattern; triplets
are added one by one where a search finds their place; the entries of a dense matrix that are not
zero are already in the order of the pattern that they make. Whichever way, the blocks fill the
pattern in the end (`BlockMatrix.Filled`), and the expansion is read off that
(`BlockMatrix.ExpandsTo`).

An expansion takes room for rows times columns, stored or not (`BlockMatrix.HasRoom`), and the
pattern of coordinates takes room for one offset more than there are rows; both are conditions of
the statements and not of the definitions. -/

namespace GraphTensor

namespace BlockMatrix

/-! ## Blocks that fill a pattern -/

section

variable {α : Type} {m : BlockMatrix α}

/-- The blocks fill the pattern. -/
structure Filled (m : BlockMatrix α) : Prop where
  /-- The pattern is in the compressed-row form. -/
  compressed : m.pattern.Compressed
  /-- There are as many numbers as the stored blocks take. -/
  size_values : m.values.size = m.pattern.stored * m.block.length

namespace Filled

theorem place_lt (h : m.Filled) {i j position k : Nat} (hstored : m.pattern.StoredAt i j position)
    (hk : k < m.block.length) : position * m.block.length + k < m.values.size := by
  have hposition := h.compressed.position_lt_stored (h.compressed.storedAt_iff.1 hstored)
  rw [h.size_values]
  exact DenseMatrix.place_lt hposition hk

end Filled

/-- The expanded matrix has room: its rows and columns are words, and its numbers, of eight bytes
    each, take up fewer than `2 ^ 63` bytes. -/
structure HasRoom (m : BlockMatrix α) : Prop where
  /-- The number of rows is a word. -/
  rows : m.pattern.rows * m.block.rows < Word.bound
  /-- The number of columns is a word. -/
  cols : m.pattern.cols * m.block.cols < Word.bound
  /-- The numbers can be addressed. -/
  numbers : m.pattern.rows * m.block.rows * (m.pattern.cols * m.block.cols) * 8 < 2 ^ 63

end

/-! ## Expansion -/

variable {K : Type} [Field K] [LinearOrder K] {m : BlockMatrix K}

section

variable {pattern : Pattern} {values : Array K} {position : Nat}

end

end BlockMatrix

end GraphTensor
