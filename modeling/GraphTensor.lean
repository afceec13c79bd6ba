import GraphTensor.Decimal.Shortest
import GraphTensor.Decimal.Significant
import GraphTensor.EdgeSystem
import GraphTensor.Json.Printer
import GraphTensor.Json.Reader
import GraphTensor.Notation.Data
import GraphTensor.Proofs.Lowering.Coverage
import GraphTensor.Proofs.Storage.Settling
import GraphTensor.Settings
import GraphTensor.Warning
import GraphTensor.Proofs.Lowering.Assemblies
import GraphTensor.Proofs.Block.Zeros
import GraphTensor.Proofs.Lowering.Values
import GraphTensor.Proofs.Machine.Frames
import GraphTensor.Proofs.Lowering.Contractions
import GraphTensor.Proofs.Lowering.Fresh
import GraphTensor.Proofs.Pattern.Intersection
import GraphTensor.Proofs.Lowering.Factors
import GraphTensor.Proofs.Lowering.Loops
import GraphTensor.Proofs.Lowering.Terms
import GraphTensor.Proofs.Lowering.Checks
import GraphTensor.Proofs.Lowering.IndexExpressions
import GraphTensor.Proofs.Storage.Order
import GraphTensor.Proofs.Matrix.Dense
import GraphTensor.Proofs.Block.Algebra
import GraphTensor.Proofs.Lowering.Expansion
import GraphTensor.Proofs.Matrix.BlockSparse
import GraphTensor.Proofs.Solve.Boundary
import GraphTensor.Proofs.Solve.Pinned
import GraphTensor.Proofs.Solve.Schur
import GraphTensor.Proofs.Machine.Reruns
import GraphTensor.Proofs.EdgeSystem.Solution
import GraphTensor.Proofs.Lowering.Search
import GraphTensor.Proofs.Solve.Session
import GraphTensor.Proofs.Lowering.Soundness
import GraphTensor.Proofs.Lowering.Scoping
import GraphTensor.Proofs.Storage.Faithful
import GraphTensor.Proofs.Lowering.Masks
import GraphTensor.Proofs.Lowering.Copies
import GraphTensor.Proofs.Machine.Tuples
import GraphTensor.Proofs.Lowering.DenseAccesses
import GraphTensor.Proofs.Lowering.NormalForm
import GraphTensor.Proofs.Lowering.Configuration
import GraphTensor.Proofs.Lowering.Warnings
import GraphTensor.Proofs.Solve.Singularity
import GraphTensor.Proofs.Pattern.Canonical
import GraphTensor.Proofs.Storage.Merging
import GraphTensor.Proofs.Topology.Rearranged
import GraphTensor.Proofs.Pattern.Locating
import GraphTensor.Proofs.Pattern.Walk
import GraphTensor.Proofs.Pattern.Transposing
import GraphTensor.Proofs.Topology.Endpoints
import GraphTensor.Proofs.Machine.Arithmetic
import GraphTensor.Proofs.Machine.SystemMatrix
import GraphTensor.Proofs.Machine.Safety
