import GraphTensor.Proofs.Machine.Accesses
import GraphTensor.Proofs.Matrix.BlockSparse
set_option autoImplicit false

/-! # Whole vectors and matrices in a run

A vector has a number for each element of its set, and the entries of a sparse matrix are those of
the block matrix that a solve expands. Assigning a field to a vector copies its numbers, and a
direct solve (`Machine.solveDirect`) reads a matrix, a right-hand side and what is fixed
(`Machine.boundary`) and replaces the numbers of its result by the solution. Each of these steps
changes one buffer. -/

namespace GraphTensor

variable {α : Type} [Scalar α]

/-! ## Copies -/

namespace Slot

theorem toList_write {values data : Array α} {start : Nat} (h : start + data.size ≤ values.size) :
    (write values start data false).toList =
      values.toList.take start ++ data.toList ++ values.toList.drop (start + data.size) := by
  obtain ⟨xs⟩ := data
  simp only [write, List.size_toArray] at h ⊢
  induction xs generalizing values start with
  | nil => simp
  | cons x rest ih =>
      have hstart : start < values.toList.length := by
        rw [Array.length_toList]
        exact Nat.lt_of_lt_of_le (Nat.lt_add_of_pos_right (Nat.succ_pos _)) h
      have hsize : start + 1 + rest.length ≤ (values.setIfInBounds start x).size := by
        rw [Array.size_setIfInBounds, Nat.add_assoc, Nat.add_comm 1]
        exact h
      rw [List.zipIdx_cons, List.foldl_cons]
      refine (ih hsize).trans ?_
      have hdrop : start + 1 + rest.length = start + (x :: rest).length := by
        rw [List.length_cons, Nat.add_assoc, Nat.add_comm 1]
      rw [Array.toList_setIfInBounds, hdrop, List.drop_set_of_lt (by simp),
        List.take_succ_eq_append_getElem (by simpa using hstart), List.take_set_of_le (Nat.le_refl _)]
      simp

/-- Numbers that are as many as a buffer holds replace all of them. -/
theorem write_all {values data : Array α} (h : data.size = values.size) :
    write values 0 data false = data := by
  have hroom : 0 + data.size ≤ values.size := by omega
  have hlist := toList_write hroom
  rw [Nat.zero_add, h, ← Array.length_toList, List.drop_length] at hlist
  exact Array.toList_inj.1 (by simpa using hlist)

end Slot

namespace Machine

variable {m : Machine α} {mem mem' : Memory α}

/-! ## Layouts -/

namespace Laid

variable {storages : Storages} {var : VarName}

/-- A vector of numbers has one for each element of its set. -/
theorem vector (h : m.Laid storages mem) (hdescribes : m.Describes storages) {set : SetName}
    {n : Nat} (htype : m.func.varType? var = some (.tensor (.vector set .scalar)))
    (hs : storages.get? var = some ⟨.dense, .scalar⟩) (hn : m.resolution.size set = .ok n) :
    n < 2 ^ 60 ∧
      ∃ values, mem.buffers.get? var = some (.dense .scalar values) ∧ values.size = n := by
  obtain ⟨s, b, hs', _, hb, hshaped⟩ := h.shaped hdescribes htype
  obtain rfl := Option.some.inj (hs.symm.trans hs')
  have hlt := hshaped.size_lt
  obtain ⟨values, extents, rfl, hextents, hsize⟩ := hshaped.of_dense rfl
  obtain rfl := hextents.unique (.cons hn .nil)
  have hsize : values.size = n := by simpa [BlockShape.length] using hsize
  exact ⟨hsize ▸ hlt, values, hb, hsize⟩

theorem matrix (h : m.Laid storages mem) (hdescribes : m.Describes storages) {type : TensorType}
    {p : PatternRef} (htype : m.func.varType? var = some (.tensor type))
    (hs : storages.get? var = some ⟨.sparse p, .scalar⟩) :
    ∃ q values, mem.buffers.get? var = some (.sparse ⟨q, values, .scalar⟩) ∧ q.Valid := by
  obtain ⟨s, b, hs', _, hb, hshaped⟩ := h.shaped hdescribes htype
  obtain rfl := Option.some.inj (hs.symm.trans hs')
  obtain ⟨q, values, rfl, _, _, hvalid⟩ := hshaped.of_sparse rfl
  exact ⟨q, values, hb, hvalid⟩

end Laid

/-! ## Steps -/

/-- **Assigning a field** to a tensor copies the numbers of the field. -/
theorem exec_assign_field {var : VarName} {set : SetName} {field : FieldName} {b : Buffer α}
    (hb : mem.buffers.get? var = some b)
    (h : m.exec (.assign var (.field set field)) mem = .ok mem') :
    ∃ block values, m.bindings.field set field = .ok (.float block values) ∧
      values.size = b.values.size ∧ mem' = mem.withBuffer var (b.withValues values) := by
  rw [exec, assign, hb] at h
  obtain ⟨values, hvalues, hsize, rfl⟩ := fill_eq_ok_iff.1 h
  obtain ⟨data, hdata, hvalues⟩ := Outcome.bind_eq_ok_iff.1 hvalues
  cases data with
  | bool flags => cases hvalues
  | float block found =>
      obtain rfl := Except.ok.inj hvalues
      exact ⟨block, found, hdata, hsize.symm, by rw [Slot.write_all hsize.symm]⟩

omit [Scalar α] in
/-- What is fixed are the vertices that a field marks, or none if it is not bound. -/
theorem boundary_eq_ok {condition : BoundaryCondition} {boundary : Option (Boundary α)}
    (h : m.boundary mem condition = .ok boundary) :
    ∃ data, m.bindings.set condition.set = .ok data ∧
      (data.fields.get? condition.marker = none ∧ boundary = none ∨
        ∃ marks values, data.fields.get? condition.marker = some (.bool marks) ∧
          mem.vector condition.values = .ok values ∧ boundary = some ⟨marks, values⟩) := by
  obtain ⟨data, hdata, h⟩ := Outcome.bind_eq_ok_iff.1 h
  refine ⟨data, hdata, ?_⟩
  split at h
  · next hnone => exact .inl ⟨hnone, (Except.ok.inj h).symm⟩
  · next marks hmarks =>
      obtain ⟨values, hvalues, h⟩ := Outcome.bind_eq_ok_iff.1 h
      exact .inr ⟨marks, values, hmarks, hvalues, (Except.ok.inj h).symm⟩
  · cases h

/-- **A direct solve** with a sparse matrix replaces the numbers of its result by the solution. -/
theorem exec_direct {matrix rhs result : VarName} {condition : BoundaryCondition}
    {system : BlockMatrix α} (hsystem : mem.buffers.get? matrix = some (.sparse system))
    (h : m.exec (.solve (.direct ⟨matrix, rhs, result, some condition⟩)) mem = .ok mem') :
    ∃ values boundary solution block old, mem.vector rhs = .ok values ∧
      m.boundary mem condition = .ok boundary ∧
      system.solveDirect values boundary m.config = .ok solution ∧
      mem.buffers.get? result = some (.dense block old) ∧ old.size = solution.size ∧
      mem' = mem.withBuffer result (.dense block solution) := by
  rw [exec] at h
  obtain ⟨found, values, boundary, solution, hfound, hvalues, hboundary, hsolution, h⟩ :=
    solve_direct_eq_ok_iff.1 h
  obtain rfl : system = found := by
    rw [systemMatrix, Memory.buffer, hsystem] at hfound
    exact Except.ok.inj hfound
  obtain ⟨block, old, hbuffer, hsize, rfl⟩ := Memory.withSolution_eq_ok_iff.1 h
  exact ⟨values, boundary, solution, block, old, hvalues, hboundary, hsolution, hbuffer, hsize, rfl⟩

end Machine

/-! ## Entries -/

theorem BlockMatrix.entry_of_entryAt? {K : Type} [Field K] [LinearOrder K] {q : Pattern}
    {values : Array K} {extents : List Nat} {i j : Nat} {x : K}
    (h : (Buffer.sparse ⟨q, values, .scalar⟩).entryAt? extents [(i : Int), (j : Int)] =
      some (.scalar x)) :
    (BlockMatrix.mk q values .scalar).entry i j = x := by
  have hplace : q.positionAt? [(i : Int), (j : Int)] = q.locate .linear i j := by
    simp [Pattern.positionAt?, SignedWord.toCount?]
  rw [Buffer.entryAt?, Buffer.place?, hplace] at h
  rw [entry, BlockShape.rows, BlockShape.cols, Nat.div_one, Nat.div_one]
  cases hposition : q.locate .linear i j with
  | some position =>
      have hread : Slot.read values (position * 1) 1 = #[x] := by
        rw [hposition] at h
        change (if hsize : _ then some (BlockValue.mk .scalar _ hsize) else none) = _ at h
        split at h
        · exact congrArg BlockValue.data (Option.some.inj h)
        · cases h
      have hvalue : values[position]? = some x := by
        have hfirst := Slot.getElem?_read values (position * 1) 1 0
        rw [hread] at hfirst
        simpa using hfirst.symm
      simp [BlockShape.length, Nat.mod_one, hvalue]
  | none =>
      have hzero : #[(0 : K)] = #[x] := by
        rw [hposition] at h
        exact congrArg BlockValue.data (Option.some.inj h)
      simpa using hzero

end GraphTensor
