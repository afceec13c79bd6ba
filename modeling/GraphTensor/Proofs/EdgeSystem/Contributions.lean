import GraphTensor.EdgeSystem
import GraphTensor.Proofs.Lowering.Assemblies
import GraphTensor.Proofs.Scalar
import Mathlib.Algebra.BigOperators.Fin
set_option autoImplicit false

/-! # What the edges of a graph add up to

Each edge contributes four numbers, its weight times an entry of the kernel at two of its ends
(`EdgeSystem.contributions_edgeBody`). An entry of the matrix (`EdgeSystem.entry`) is the sum of
what all edges contribute there; parallel edges add up, and an edge from a vertex to itself
contributes all four numbers to one entry.

The sum of a list of contributions is defined for blocks that may be missing (`sumAt?`). For blocks
that are numbers and always there it is a sum of numbers, and the rest is about sums over edges and
over the four pairs of ends. -/

namespace GraphTensor

/-! ## Sums of numbers -/

theorem sumAt?_scalars {K : Type} [Field K] [LinearOrder K] (indices : List Nat)
    (cs : List (List Int × K)) :
    sumAt? .scalar indices (cs.map fun c => some (c.1, BlockValue.scalar c.2)) =
      some (.scalar
        (cs.map fun c => if c.1 = indices.map SignedWord.ofCount then c.2 else 0).sum) := by
  induction cs using List.reverseRecOn with
  | nil => rfl
  | append_singleton rest c ih =>
      rw [List.map_append, sumAt?, List.foldlM_append, ← sumAt?, ih, List.map_append, List.sum_append]
      simp only [Option.bind_eq_bind, Option.bind_some, List.map_cons, List.map_nil,
        List.foldlM_cons, List.foldlM_nil, Option.pure_def, List.sum_cons, List.sum_nil, add_zero]
      split <;> simp [BlockValue.add?, BlockValue.zipWith?, BlockValue.scalar]

theorem Value.operate_mul_scalars {α : Type} [Scalar α] (x y : α) :
    Value.operate .mul (.scalar x) (.scalar y) = .ok (.scalar (y * x)) := by
  have hproduct : (BlockValue.scalar x).mul? (.scalar y) = some (.scalar (y * x)) := by
    simp [BlockValue.mul?, BlockValue.scalar, BlockShape.product, BlockValue.scale, BlockValue.map]
  have hoperation : blockOperation .mul (BlockValue.scalar x) (.scalar y) =
      .ok (.scalar (y * x)) :=
    Outcome.bind_eq_ok_iff.2 ⟨(), rfl, Outcome.orFail_eq_ok_iff.2 hproduct⟩
  exact congrArg (Except.map Value.block) hoperation

theorem Machine.fieldValue_scalars {α : Type} {place : Place} {values : Array α} {e : Nat}
    (he : e < values.size) (hwords : values.size < Word.bound) :
    fieldValue place (.float .scalar values) e = .ok (.scalar values[e]) := by
  have hlength : BlockShape.scalar.length? = some 1 := rfl
  have hstart : Word.mul? e 1 = some e := by
    rw [Word.mul?, Nat.mul_one]
    exact Word.ofNat?_eq_some_iff.2 ⟨Nat.lt_trans he hwords, rfl⟩
  have hstop : Word.mul? (e + 1) 1 = some (e + 1) := by
    rw [Word.mul?, Nat.mul_one]
    exact Word.ofNat?_eq_some_iff.2 ⟨Nat.lt_of_le_of_lt he hwords, rfl⟩
  have hslot : values.extract e (e + 1) = #[values[e]] := by
    refine Array.ext (by simp; omega) fun k hk hk' => ?_
    obtain rfl : k = 0 := Nat.lt_one_iff.1 hk'
    simp
  rw [fieldValue, blockOfField, hlength]
  refine Outcome.bind_eq_ok_iff.2 ⟨1, rfl, Outcome.bind_eq_ok_iff.2 ⟨e, ?_,
    Outcome.bind_eq_ok_iff.2 ⟨e + 1, ?_, Outcome.bind_eq_ok_iff.2 ⟨(), ?_, ?_⟩⟩⟩⟩
  · rw [hstart]
    rfl
  · rw [hstop]
    rfl
  · exact Outcome.failIf_eq_ok_iff.2 (decide_eq_false (Nat.not_lt.2 he))
  · rw [hslot]
    rfl

namespace EdgeSystem

/-! ## Contributions of an edge -/

/-- An end of an edge. -/
def endOf (edge : Nat × Nat) (p : Fin 2) : Nat :=
  if p.val = 0 then edge.1 else edge.2

/-- The entry of the matrix at two vertices: the sum of the weights of all edges, each multiplied by
    the entries of the kernel for the ends at which the edge meets the two. -/
def entry {K : Type} [Field K] (kernel : Fin 2 → Fin 2 → K) (ends : List (Nat × Nat))
    (weights : Array K) (v u : Nat) : K :=
  ((ends.zip weights.toList).map fun edge => ∑ p, ∑ q,
    if endOf edge.1 p = v ∧ endOf edge.1 q = u then edge.2 * kernel p q else 0).sum

section

variable {α : Type} [Scalar α]

/-- What an edge contributes, row after row. -/
theorem contributions_edgeBody (kernel : Fin 2 → Fin 2 → α) (k : KernelVars) {v : ElementView α}
    {t : Topology} {weight : α} {edge : Nat × Nat} (names : Names α) (hset : v.set = edges)
    (ht : v.machine.resolution.topology edges = .ok t)
    (hends : t.endpoints v.element = [edge.1, edge.2]) {data : FieldData α}
    (hdata : v.machine.bindings.field edges "a" = .ok data)
    (hweight : Machine.fieldValue (.field edges "a") data v.element = .ok (.scalar weight)) :
    v.contributions "A" .scalar names (edgeBody kernel k) =
      ([(0, 0), (0, 1), (1, 0), (1, 1)] : List (Fin 2 × Fin 2)).map fun pq =>
        some ([SignedWord.ofCount (endOf edge pq.1), SignedWord.ofCount (endOf edge pq.2)],
          .scalar (weight * kernel pq.1 pq.2)) := by
  have hend : ∀ p : Fin 2,
      v.value? names (k.endpointExpr p) = some (.ofCount (endOf edge p)) := by
    intro p
    rw [KernelVars.endpointExpr, ElementView.value?, hset, ht]
    simp only [Except.toOption, Option.bind_eq_bind, Option.bind_some, hends]
    revert p
    exact Fin.forall_fin_two.2 ⟨rfl, rfl⟩
  have hindices : ∀ p q : Fin 2, v.values? names [k.endpointExpr p, k.endpointExpr q] =
      some [SignedWord.ofCount (endOf edge p), SignedWord.ofCount (endOf edge q)] := by
    intro p q
    rw [ElementView.values?, hend, ElementView.values?, hend, ElementView.values?]
    rfl
  have hfield : v.value? names (k.fieldExpr "a") = some (.scalar weight) := by
    rw [KernelVars.fieldExpr, ElementView.value?, hset, hdata]
    simp only [Except.toOption, Option.bind_eq_bind, Option.bind_some, hweight]
  have hvalue : ∀ p q : Fin 2,
      v.written? names (.binary .mul (.literal (.float (kernel p q))) (k.fieldExpr "a")) =
        some (.scalar (weight * kernel p q)) := by
    intro p q
    change v.value? names _ = _
    rw [ElementView.value?, hfield, ElementView.value?]
    exact congrArg Except.toOption (Value.operate_mul_scalars (kernel p q) weight)
  have hwrite : ∀ (p q : Fin 2) (rest : List (Stmt α)),
      v.contributions "A" .scalar names (contribution kernel k p q :: rest) =
        some ([SignedWord.ofCount (endOf edge p), SignedWord.ofCount (endOf edge q)],
          .scalar (weight * kernel p q)) :: v.contributions "A" .scalar names rest := by
    intro p q rest
    rw [contribution, Stmt.contribute, ElementView.contributions, if_pos rfl, hindices, hvalue]
    rfl
  change v.contributions "A" .scalar names [contribution kernel k 0 0, contribution kernel k 0 1,
    contribution kernel k 1 0, contribution kernel k 1 1] = _
  rw [hwrite, hwrite, hwrite, hwrite]
  rfl

end

/-! ## Sums over all edges -/

variable {K : Type} [Field K] [LinearOrder K]

theorem endOf_lt {bound : Nat} {edge : Nat × Nat} (h : edge.1 < bound ∧ edge.2 < bound)
    (p : Fin 2) : endOf edge p < bound := by
  rw [endOf]
  split
  · exact h.1
  · exact h.2

omit [LinearOrder K] in
theorem sum_contributions (kernel : Fin 2 → Fin 2 → K) {edge : Nat × Nat} (weight : K) {v u : Nat}
    (hedge : edge.1 < Word.bound ∧ edge.2 < Word.bound) (hv : v < Word.bound)
    (hu : u < Word.bound) :
    (([(0, 0), (0, 1), (1, 0), (1, 1)] : List (Fin 2 × Fin 2)).map fun pq =>
      if [SignedWord.ofCount (endOf edge pq.1), SignedWord.ofCount (endOf edge pq.2)] =
          [v, u].map SignedWord.ofCount then weight * kernel pq.1 pq.2 else 0).sum =
      ∑ p, ∑ q, if endOf edge p = v ∧ endOf edge q = u then weight * kernel p q else 0 := by
  have hplace : ∀ p q : Fin 2,
      [SignedWord.ofCount (endOf edge p), SignedWord.ofCount (endOf edge q)] =
        [SignedWord.ofCount v, SignedWord.ofCount u] ↔ endOf edge p = v ∧ endOf edge q = u := by
    intro p q
    simp only [List.cons.injEq, and_true]
    constructor
    · rintro ⟨hp, hq⟩
      exact ⟨SignedWord.ofCount_inj (endOf_lt hedge p) hv hp,
        SignedWord.ofCount_inj (endOf_lt hedge q) hu hq⟩
    · rintro ⟨rfl, rfl⟩
      exact ⟨rfl, rfl⟩
  simp only [hplace, List.map_cons, List.map_nil, List.sum_cons, List.sum_nil, Fin.sum_univ_two]
  ring

/-- **All edges together** contribute the entries of the matrix. -/
theorem sumAt?_edges (kernel : Fin 2 → Fin 2 → K) {ends : List (Nat × Nat)} {weights : Array K}
    {m : Machine K} {t : Topology} (k : KernelVars) (before : Memory K) (targets : List VarName)
    (hsize : m.resolution.size edges = .ok ends.length)
    (ht : m.resolution.topology edges = .ok t)
    (hends : ∀ e (he : e < ends.length), t.endpoints e = [ends[e].1, ends[e].2])
    (hrange : ∀ edge ∈ ends, edge.1 < Word.bound ∧ edge.2 < Word.bound)
    (hdata : m.bindings.field edges "a" = .ok (.float .scalar weights))
    (hweights : weights.size = ends.length) (hcount : ends.length < Word.bound) {v u : Nat}
    (hv : v < Word.bound) (hu : u < Word.bound) :
    sumAt? .scalar [v, u]
        (m.contributionsOf "A" .scalar before (.assemble targets edges k (edgeBody kernel k))) =
      some (.scalar (entry kernel ends weights v u)) := by
  let places (edge : (Nat × Nat) × K) : List (List Int × K) :=
    ([(0, 0), (0, 1), (1, 0), (1, 1)] : List (Fin 2 × Fin 2)).map fun pq =>
      ([SignedWord.ofCount (endOf edge.1 pq.1), SignedWord.ofCount (endOf edge.1 pq.2)],
        edge.2 * kernel pq.1 pq.2)
  have hall : m.contributionsOf "A" .scalar before (.assemble targets edges k (edgeBody kernel k)) =
      ((ends.zip weights.toList).flatMap places).map fun c => some (c.1, .scalar c.2) := by
    rw [Machine.contributionsOf, hsize, List.map_flatMap]
    refine congrArg List.flatten (List.ext_getElem (by simp [hweights]) fun e he he' => ?_)
    have hlt : e < ends.length := by simpa using he
    have hlt' : e < weights.size := hweights ▸ hlt
    simp only [List.getElem_map, List.getElem_range, List.getElem_zip]
    rw [contributions_edgeBody kernel k _ rfl ht (hends e hlt) hdata
      (Machine.fieldValue_scalars hlt' (hweights ▸ hcount))]
    rfl
  rw [hall, sumAt?_scalars, entry]
  refine congrArg (some ∘ BlockValue.scalar) ?_
  rw [List.map_flatMap, List.flatMap_def, List.sum_flatten, List.map_map]
  refine congrArg List.sum (List.map_congr_left fun edge hedge => ?_)
  exact sum_contributions kernel edge.2 (hrange edge.1 (List.of_mem_zip hedge).1) hv hu

end EdgeSystem

end GraphTensor
