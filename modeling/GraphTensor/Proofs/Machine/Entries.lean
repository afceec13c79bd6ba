import GraphTensor.Proofs.Machine.Blocks
import GraphTensor.Proofs.Machine.Start
import GraphTensor.Proofs.Pattern.Rows
import GraphTensor.Proofs.Word
import Mathlib.Algebra.BigOperators.Group.List.Basic
set_option autoImplicit false

/-! # Entries of tensors

A tensor has a block at each tuple of indices in its dimensions (`Buffer.entryAt?`). In a dense
buffer that is the block at the tuple's row-major place (`flatPlace`), in a sparse one the block at
its position in the pattern, or zeros if it has none, and in a register the only block. Different
tuples have different places, so adding to one entry leaves the others as they are.

How a buffer is laid out is told by the descriptor of its tensor (`Machine.Shaped`), and this is
kept by every statement. Indices are integers here, as in a run; `rowMajorPlace` is the place that a
program computes from them, whether they are a tuple or not. -/

namespace GraphTensor

variable {α : Type}

/-! ## Row-major places -/

/-- The row-major place of an index tuple. -/
def flatPlace (extents indices : List Nat) : Nat :=
  (indices.zip extents).foldl (fun place (index, extent) => place * extent + index) 0

/-- The tuple lies within the extents. -/
def WithinExtents (extents indices : List Nat) : Prop :=
  List.Forall₂ (· < ·) indices extents

/-- Indices below extents that signed words count read as themselves. -/
theorem WithinExtents.map_ofCount {extents indices : List Nat} (h : WithinExtents extents indices)
    (hsmall : ∀ n ∈ extents, n < 2 ^ 63) :
    indices.map SignedWord.ofCount = indices.map Nat.cast := by
  induction h with
  | nil => simp
  | @cons index extent indices extents hlt _ ih =>
      have hextent := hsmall extent (List.mem_cons_self ..)
      have hread : SignedWord.ofCount index = index :=
        SignedWord.ofCount_of_lt (Nat.lt_trans hlt hextent)
      rw [List.map_cons, List.map_cons, hread, ih fun n hn => hsmall n (List.mem_cons_of_mem _ hn)]

/-- Index tuples of words read differently. -/
theorem WithinExtents.map_ofCount_inj {extents indices indices' : List Nat}
    (h : WithinExtents extents indices) (h' : WithinExtents extents indices')
    (hwords : ∀ n ∈ extents, n < Word.bound)
    (heq : indices.map SignedWord.ofCount = indices'.map SignedWord.ofCount) :
    indices = indices' := by
  induction h generalizing indices' with
  | nil =>
      cases h'
      rfl
  | cons hlt hrest ih =>
      cases h' with
      | cons hlt' hrest' =>
          obtain ⟨hindex, heq⟩ := List.cons.inj heq
          have hextent := hwords _ (List.mem_cons_self ..)
          rw [SignedWord.ofCount_inj (hlt.trans hextent) (hlt'.trans hextent) hindex,
            ih hrest' (fun n hn => hwords n (List.mem_cons_of_mem _ hn)) heq]

theorem flatPlace_cons {extents indices : List Nat} (hlength : indices.length = extents.length)
    (extent index : Nat) :
    flatPlace (extent :: extents) (index :: indices) =
      index * extents.prod + flatPlace extents indices := by
  have hfold : ∀ (extents indices : List Nat) (start : Nat), indices.length = extents.length →
      (indices.zip extents).foldl (fun place (index, extent) => place * extent + index) start =
        start * extents.prod + flatPlace extents indices := by
    intro extents
    induction extents with
    | nil =>
        intro indices start h
        obtain rfl := List.length_eq_zero_iff.1 h
        simp [flatPlace]
    | cons n extents ih =>
        intro indices start h
        cases indices with
        | nil => cases h
        | cons i indices =>
            have h := Nat.succ.inj h
            simp only [flatPlace, List.zip_cons_cons, List.foldl_cons, List.prod_cons]
            rw [ih indices _ h, ih indices _ h, Nat.add_mul, Nat.zero_mul, Nat.zero_add,
              Nat.mul_assoc, Nat.add_assoc]
  simp only [flatPlace, List.zip_cons_cons, List.foldl_cons, Nat.zero_mul, Nat.zero_add]
  exact hfold extents indices index hlength

theorem flatPlace_lt {extents indices : List Nat} (h : WithinExtents extents indices) :
    flatPlace extents indices < extents.prod := by
  induction h with
  | nil => exact Nat.one_pos
  | @cons index extent indices extents hlt hrest ih =>
      rw [flatPlace_cons hrest.length_eq, List.prod_cons]
      calc index * extents.prod + flatPlace extents indices
          < index * extents.prod + extents.prod := Nat.add_lt_add_left ih _
        _ = (index + 1) * extents.prod := (Nat.succ_mul _ _).symm
        _ ≤ extent * extents.prod := Nat.mul_le_mul_right _ hlt

theorem flatPlace_inj {extents indices indices' : List Nat} (h : WithinExtents extents indices)
    (h' : WithinExtents extents indices')
    (heq : flatPlace extents indices = flatPlace extents indices') : indices = indices' := by
  induction h generalizing indices' with
  | nil =>
      cases h'
      rfl
  | @cons index extent indices extents hlt hrest ih =>
      cases h' with
      | @cons index' _ indices' _ hlt' hrest' =>
          rw [flatPlace_cons hrest.length_eq, flatPlace_cons hrest'.length_eq] at heq
          have hplace := flatPlace_lt hrest
          have hplace' := flatPlace_lt hrest'
          have hpos : 0 < extents.prod := Nat.zero_lt_of_lt hplace
          have hindex : index = index' := by
            have h := congrArg (· / extents.prod) heq
            simpa only [Nat.mul_comm _ extents.prod, Nat.mul_add_div hpos,
              Nat.div_eq_of_lt hplace, Nat.div_eq_of_lt hplace', Nat.add_zero] using h
          subst hindex
          rw [ih hrest' (Nat.add_left_cancel heq)]

/-- The row-major place of integers, as a program computes it: an index past its extent runs on into
    the next row. -/
def rowMajorPlace (extents : List Nat) (indices : List Int) : Int :=
  (indices.zip extents).foldl (fun place (index, extent) => place * extent + index) 0

/-- The place of an index tuple is the one that a program computes. -/
theorem rowMajorPlace_natCast (extents indices : List Nat) :
    rowMajorPlace extents (indices.map Nat.cast) = flatPlace extents indices := by
  have hfold : ∀ (pairs : List (Nat × Nat)) (start : Nat),
      (pairs.map fun (index, extent) => ((index : Int), extent)).foldl
          (fun place (index, extent) => place * extent + index) (start : Int) =
        (pairs.foldl (fun place (index, extent) => place * extent + index) start : Nat) := by
    intro pairs
    induction pairs with
    | nil => exact fun start => rfl
    | cons pair pairs ih =>
        intro start
        rw [List.map_cons, List.foldl_cons, List.foldl_cons, ← ih]
        push_cast
        rfl
  rw [rowMajorPlace, flatPlace, List.zip_map_left]
  exact hfold _ 0

/-! ## Layouts -/

/-- The extents of dimensions. -/
def Machine.Extents (m : Machine α) (dims : List IndexDomain) (extents : List Nat) : Prop :=
  List.Forall₂ (fun dim n => m.resolution.extent dim = .ok n) dims extents

theorem Machine.Extents.unique {m : Machine α} {dims : List IndexDomain} {extents extents' : List Nat}
    (h : m.Extents dims extents) (h' : m.Extents dims extents') : extents = extents' := by
  induction h generalizing extents' with
  | nil =>
      cases h'
      rfl
  | cons hdim _ ih =>
      cases h' with
      | cons hdim' hrest' =>
          rw [ih hrest']
          rw [Except.ok.inj (hdim.symm.trans hdim')]

/-- The buffer of a tensor is laid out as its descriptor says. -/
inductive Machine.Shaped (m : Machine α) (dims : List IndexDomain) (s : TensorStorage) :
    Buffer α → Prop where
  /-- A block for each tuple of indices. -/
  | dense {values : Array α} {extents : List Nat} (hkind : s.kind = .dense)
      (hextents : m.Extents dims extents) (hsize : values.size = extents.prod * s.block.length)
      (hroom : values.size * 8 < 2 ^ 63) : Shaped m dims s (.dense s.block values)
  /-- A block for each entry of the pattern. -/
  | sparse {p : PatternRef} {q : Pattern} {values : Array α} (hkind : s.kind = .sparse p)
      (hdims : dims = [.set p.rows, .set p.cols]) (hq : m.resolution.pattern p = .ok q)
      (hvalid : q.Valid) (hsize : values.size = q.stored * s.block.length)
      (hroom : values.size * 8 < 2 ^ 63) : Shaped m dims s (.sparse ⟨q, values, s.block⟩)
  /-- One block. -/
  | register {value : BlockValue α} (hkind : s.kind = .register) (hdims : dims = [])
      (hshape : value.shape = s.block) (hroom : value.data.size * 8 < 2 ^ 63) :
      Shaped m dims s (.register value)

namespace Machine.Shaped

variable {m : Machine α} {dims : List IndexDomain} {s : TensorStorage} {b b' : Buffer α}

theorem block_eq (h : m.Shaped dims s b) : b.block = s.block := by
  cases h with
  | dense => rfl
  | sparse => rfl
  | register _ _ hshape => exact hshape

theorem size_lt (h : m.Shaped dims s b) : b.values.size < 2 ^ 60 := by
  cases h with
  | @dense values extents hkind hextents hsize hroom =>
      have hlt : values.size < 2 ^ 60 := by omega
      exact hlt
  | @sparse p q values hkind hdims hq hvalid hsize hroom =>
      have hlt : values.size < 2 ^ 60 := by omega
      exact hlt
  | @register value hkind hdims hshape hroom =>
      have hlt : value.data.size < 2 ^ 60 := by omega
      exact hlt

theorem sameLayout (h : m.Shaped dims s b) (hlayout : b.SameLayout b') : m.Shaped dims s b' := by
  obtain ⟨values, hvalues, rfl⟩ := hlayout
  cases h with
  | dense hkind hextents hsize hroom =>
      have hvalues : values.size = _ := hvalues.trans rfl
      exact .dense hkind hextents (hvalues.trans hsize) (by rw [hvalues]; exact hroom)
  | sparse hkind hdims hq hvalid hsize hroom =>
      have hvalues : values.size = _ := hvalues.trans rfl
      exact .sparse hkind hdims hq hvalid (hvalues.trans hsize) (by rw [hvalues]; exact hroom)
  | @register value hkind hdims hshape hroom =>
      have hvalues : values.size = value.data.size := hvalues
      have hfits : values.size = value.shape.length := hvalues.trans value.size_data
      simp only [Buffer.withValues, BlockValue.ofArray?, dif_pos hfits, Option.getD_some]
      exact .register hkind hdims hshape (by rw [hvalues]; exact hroom)

theorem of_dense (h : m.Shaped dims s b) (hkind : s.kind = .dense) :
    ∃ values extents, b = .dense s.block values ∧ m.Extents dims extents ∧
      values.size = extents.prod * s.block.length := by
  cases h with
  | dense _ hextents hsize _ => exact ⟨_, _, rfl, hextents, hsize⟩
  | sparse hkind' => rw [hkind] at hkind'; cases hkind'
  | register hkind' => rw [hkind] at hkind'; cases hkind'

theorem of_sparse {p : PatternRef} (h : m.Shaped dims s b) (hkind : s.kind = .sparse p) :
    ∃ q values, b = .sparse ⟨q, values, s.block⟩ ∧ dims = [.set p.rows, .set p.cols] ∧
      m.resolution.pattern p = .ok q ∧ q.Valid := by
  cases h with
  | dense hkind' => rw [hkind] at hkind'; cases hkind'
  | sparse hkind' hdims hq hvalid _ _ =>
      obtain rfl := StorageKind.sparse.inj (hkind.symm.trans hkind')
      exact ⟨_, _, rfl, hdims, hq, hvalid⟩
  | register hkind' => rw [hkind] at hkind'; cases hkind'

theorem of_register (h : m.Shaped dims s b) (hkind : s.kind = .register) :
    ∃ value, b = .register value ∧ dims = [] ∧ value.shape = s.block := by
  cases h with
  | dense hkind' => rw [hkind] at hkind'; cases hkind'
  | sparse hkind' => rw [hkind] at hkind'; cases hkind'
  | register _ hdims hshape _ => exact ⟨_, rfl, hdims, hshape⟩

end Machine.Shaped

namespace Machine

variable {m : Machine α}

theorem denseSize_eq_ok {dims : List IndexDomain} {block : BlockShape} {size : Nat}
    (h : m.denseSize dims block = .ok size) :
    ∃ extents, m.Extents dims extents ∧ size = extents.prod * block.length := by
  obtain ⟨length, hlength, h⟩ := Outcome.bind_eq_ok_iff.1 h
  obtain ⟨_, rfl⟩ := Word.ofNat?_eq_some_iff.1 (Outcome.orAbort_eq_ok_iff.1 hlength)
  have hfold : ∀ (dims : List IndexDomain) (start size : Nat),
      dims.foldlM (fun size dim => do
        let extent ← m.resolution.extent dim
        Outcome.orAbort (Word.mul? size extent)) start = .ok size →
      ∃ extents, m.Extents dims extents ∧ size = extents.prod * start := by
    intro dims
    induction dims with
    | nil =>
        intro start size h
        cases h
        exact ⟨[], .nil, by simp⟩
    | cons dim dims ih =>
        intro start size h
        rw [List.foldlM_cons] at h
        obtain ⟨next, hnext, h⟩ := Outcome.bind_eq_ok_iff.1 h
        obtain ⟨extent, hextent, hnext⟩ := Outcome.bind_eq_ok_iff.1 hnext
        obtain ⟨_, rfl⟩ := Word.ofNat?_eq_some_iff.1 (Outcome.orAbort_eq_ok_iff.1 hnext)
        obtain ⟨extents, hextents, rfl⟩ := ih _ _ h
        refine ⟨extent :: extents, .cons hextent hextents, ?_⟩
        rw [List.prod_cons, Nat.mul_comm start, ← Nat.mul_assoc, Nat.mul_comm extents.prod]
  exact hfold dims _ size h

theorem shaped_of_allocate_dense [Scalar α] {dims : List IndexDomain} {s : TensorStorage}
    {b : Buffer α} (hkind : s.kind = .dense) (h : m.allocate dims s = .ok b) : m.Shaped dims s b := by
  rw [allocate, hkind] at h
  obtain ⟨size, hsize, h⟩ := Outcome.bind_eq_ok_iff.1 h
  obtain ⟨cells, hcells, h⟩ := Outcome.bind_eq_ok_iff.1 h
  obtain rfl := Except.ok.inj h
  obtain ⟨rfl, hroom⟩ := Word.cells?_eq_some (Outcome.orAbort_eq_ok_iff.1 hcells)
  obtain ⟨extents, hextents, hsize⟩ := denseSize_eq_ok hsize
  exact .dense hkind hextents (by rw [Array.size_replicate, hsize])
    (by rw [Array.size_replicate]; exact hroom)

/-- A buffer is allocated as its descriptor says, if the descriptor can lie on the dimensions. -/
theorem shaped_of_allocate [Scalar α] {dims : List IndexDomain} {s : TensorStorage} {b : Buffer α}
    (hpatterns : m.resolution.PatternsFit)
    (hsparse : ∀ p, s.kind = .sparse p → dims = [.set p.rows, .set p.cols])
    (hregister : s.kind = .register → dims = []) (h : m.allocate dims s = .ok b) :
    m.Shaped dims s b := by
  cases hkind : s.kind with
  | dense => exact shaped_of_allocate_dense hkind h
  | sparse p =>
      rw [allocate, hkind] at h
      obtain ⟨q, hq, h⟩ := Outcome.bind_eq_ok_iff.1 h
      obtain ⟨matrix, hmatrix, h⟩ := Outcome.bind_eq_ok_iff.1 h
      obtain rfl := Except.ok.inj h
      have hvalid := hpatterns.valid hq
      obtain ⟨count, hcount, hrest⟩ := Option.bind_eq_some_iff.1 (Outcome.orAbort_eq_ok_iff.1 hmatrix)
      obtain ⟨cells, hcells, hresult⟩ := Option.bind_eq_some_iff.1 hrest
      obtain rfl := Option.some.inj hresult
      obtain ⟨rfl, hroom⟩ := Word.cells?_eq_some hcells
      obtain ⟨length, hlength, hcount⟩ := Option.bind_eq_some_iff.1 hcount
      obtain ⟨_, rfl⟩ := Word.ofNat?_eq_some_iff.1 hlength
      obtain ⟨_, rfl⟩ := Word.ofNat?_eq_some_iff.1 hcount
      exact .sparse hkind (hsparse p hkind) hq hvalid Array.size_replicate
        (by rw [Array.size_replicate]; exact hroom)
  | register =>
      rw [allocate, hkind] at h
      obtain ⟨block, hblock, h⟩ := Outcome.bind_eq_ok_iff.1 h
      obtain rfl := Except.ok.inj h
      obtain ⟨cells, hcells, hblock⟩ := Option.map_eq_some_iff.1 (Outcome.orAbort_eq_ok_iff.1 hblock)
      obtain ⟨rfl, hroom⟩ := Word.cells?_eq_some hcells
      subst hblock
      exact .register hkind (hregister hkind) rfl
        (by rw [BlockValue.zeros, Array.size_replicate]; exact hroom)

end Machine

/-! ## Entries -/

/-- The position at integer indices. A negative index is nowhere. -/
def Pattern.positionAt? (p : Pattern) : List Int → Option Nat
  | [row, col] => do
    let row ← SignedWord.toCount? row
    let col ← SignedWord.toCount? col
    p.locate .linear row col
  | _ => none

theorem Pattern.Valid.positionAt?_eq_some_iff {p : Pattern} (h : p.Valid) {row col position : Nat} :
    p.positionAt? [(row : Int), (col : Int)] = some position ↔ (row, col, position) ∈ p.entries := by
  rw [← h.locate_eq_some_iff .linear]
  simp [positionAt?, SignedWord.toCount?]

theorem Pattern.Valid.lt_stored_of_positionAt? {p : Pattern} (h : p.Valid) {row col : Int}
    {position : Nat} (hposition : p.positionAt? [row, col] = some position) : position < p.stored := by
  obtain ⟨i, _, hposition⟩ := Option.bind_eq_some_iff.1 hposition
  obtain ⟨j, _, hposition⟩ := Option.bind_eq_some_iff.1 hposition
  exact h.position_lt_stored ((h.locate_eq_some_iff .linear).1 hposition)

/-- Words that have a position as signed words give them read as themselves. -/
theorem Pattern.map_ofCount_of_positionAt? {p : Pattern} {indices : List Nat} {place : Nat}
    (hwords : ∀ i ∈ indices, i < Word.bound)
    (h : p.positionAt? (indices.map SignedWord.ofCount) = some place) :
    indices.map SignedWord.ofCount = indices.map Nat.cast := by
  have hread : ∀ i ∈ indices, ∀ k, SignedWord.toCount? (SignedWord.ofCount i) = some k →
      SignedWord.ofCount i = i := by
    intro i hi k hk
    unfold SignedWord.toCount? at hk
    split at hk
    · next hnonneg =>
        obtain ⟨n, hn⟩ := Int.eq_ofNat_of_zero_le hnonneg
        rw [hn, SignedWord.eq_of_ofCount_eq (hwords i hi) hn]
    · cases hk
  obtain ⟨i, j, rfl⟩ : ∃ i j, indices = [i, j] := by
    rcases indices with _ | ⟨i, _ | ⟨j, _ | ⟨k, rest⟩⟩⟩
    · simp [positionAt?] at h
    · simp [positionAt?] at h
    · exact ⟨i, j, rfl⟩
    · simp [positionAt?] at h
  simp only [List.map_cons, List.map_nil, positionAt?, Option.bind_eq_bind] at h
  obtain ⟨row, hrow, h⟩ := Option.bind_eq_some_iff.1 h
  obtain ⟨col, hcol, _⟩ := Option.bind_eq_some_iff.1 h
  simp [hread i (by simp) row hrow, hread j (by simp) col hcol]

theorem Machine.locateValue_eq {p : Pattern} (h : p.Valid) (search : Search) (row col : Int) :
    (locateValue p search row col : Value α) =
      match p.positionAt? [row, col] with
      | some position => .ofCount position
      | none => .miss := by
  have hsearch : ∀ row col : Nat, p.locate search row col = p.locate .linear row col := by
    intro row col
    refine Option.ext fun position => ?_
    rw [h.locate_eq_some_iff, h.locate_eq_some_iff]
  have hposition : (do
      let row ← SignedWord.toCount? row
      let col ← SignedWord.toCount? col
      p.locate search row col) = p.positionAt? [row, col] := by
    simp only [Pattern.positionAt?, hsearch]
  let ofPosition : Option Nat → Value α
    | some position => .ofCount position
    | none => .miss
  exact congrArg ofPosition hposition

/-- The place of the block at integer indices. A sparse buffer has one only where its pattern stores
    the indices, and a register has the same for all. -/
def Buffer.place? (extents : List Nat) (b : Buffer α) (indices : List Int) : Option Nat :=
  match b with
  | .dense _ _ => some (rowMajorPlace extents indices).toNat
  | .sparse matrix => matrix.pattern.positionAt? indices
  | .register _ => some 0

theorem Buffer.SameLayout.place?_eq {b b' : Buffer α} (h : b.SameLayout b') (extents : List Nat)
    (indices : List Int) : b'.place? extents indices = b.place? extents indices := by
  obtain ⟨values, _, rfl⟩ := h
  cases b <;> rfl

namespace Machine.Shaped

variable {m : Machine α} {dims : List IndexDomain} {s : TensorStorage} {b : Buffer α}
  {extents indices indices' : List Nat} {place : Nat}

theorem pair_of_withinExtents {rows cols : SetName} (hextents : m.Extents [.set rows, .set cols] extents)
    (hwithin : WithinExtents extents indices) : ∃ i j, indices = [i, j] := by
  have hlength : indices.length = 2 := by
    rw [hwithin.length_eq, ← hextents.length_eq]
    rfl
  exact List.length_eq_two.1 hlength

/-- The place of an index tuple lies inside the buffer. -/
theorem hasRoom_of_place? (h : m.Shaped dims s b) (hextents : m.Extents dims extents)
    (hwithin : WithinExtents extents indices)
    (hplace : b.place? extents (indices.map Nat.cast) = some place) : b.HasRoom place := by
  cases h with
  | @dense values extents' hkind hextents' hsize hroom =>
      obtain rfl := hextents'.unique hextents
      obtain rfl := Option.some.inj hplace
      rw [rowMajorPlace_natCast, Int.toNat_natCast]
      show flatPlace extents' indices * s.block.length + s.block.length ≤ values.size
      rw [hsize, ← Nat.succ_mul]
      exact Nat.mul_le_mul_right _ (flatPlace_lt hwithin)
  | @sparse p q values hkind hdims hq hvalid hsize hroom =>
      subst hdims
      obtain ⟨i, j, rfl⟩ := pair_of_withinExtents hextents hwithin
      show place * s.block.length + s.block.length ≤ values.size
      rw [hsize, ← Nat.succ_mul]
      exact Nat.mul_le_mul_right _
        (hvalid.position_lt_stored (hvalid.positionAt?_eq_some_iff.1 hplace))
  | @register value hkind hdims hshape hroom =>
      obtain rfl := Option.some.inj hplace
      show 0 * value.shape.length + value.shape.length ≤ value.data.size
      rw [value.size_data]
      omega

theorem place?_inj (h : m.Shaped dims s b) (hextents : m.Extents dims extents)
    (hwithin : WithinExtents extents indices) (hwithin' : WithinExtents extents indices')
    (hplace : b.place? extents (indices.map Nat.cast) = some place)
    (hplace' : b.place? extents (indices'.map Nat.cast) = some place) : indices = indices' := by
  cases h with
  | @dense values extents' hkind hextents' hsize hroom =>
      refine flatPlace_inj hwithin hwithin' ?_
      have heq := hplace.trans hplace'.symm
      simpa only [Buffer.place?, rowMajorPlace_natCast, Int.toNat_natCast, Option.some.injEq] using heq
  | @sparse p q values hkind hdims hq hvalid hsize hroom =>
      subst hdims
      obtain ⟨i, j, rfl⟩ := pair_of_withinExtents hextents hwithin
      obtain ⟨i', j', rfl⟩ := pair_of_withinExtents hextents hwithin'
      obtain ⟨rfl, rfl⟩ := hvalid.place_of_position (hvalid.positionAt?_eq_some_iff.1 hplace)
        (hvalid.positionAt?_eq_some_iff.1 hplace')
      rfl
  | @register value hkind hdims hshape hroom =>
      subst hdims
      cases hextents
      cases hwithin
      cases hwithin'
      rfl

end Machine.Shaped

section

variable [Scalar α]

/-- The block at integer indices, zero where nothing is stored. -/
def Buffer.entryAt? (extents : List Nat) (b : Buffer α) (indices : List Int) : Option (BlockValue α) :=
  match b.place? extents indices with
  | some place => b.blockAt? place
  | none => some (.zeros b.block)

namespace Machine.Shaped

variable {m : Machine α} {dims : List IndexDomain} {s : TensorStorage} {b : Buffer α}
  {extents indices indices' : List Nat} {place : Nat} {value : BlockValue α}

theorem exists_entryAt? (h : m.Shaped dims s b) (hextents : m.Extents dims extents)
    (hwithin : WithinExtents extents indices) :
    ∃ value, b.entryAt? extents (indices.map Nat.cast) = some value ∧ value.shape = s.block := by
  unfold Buffer.entryAt?
  split
  · next place hplace =>
      obtain ⟨value, hvalue, hshape, _⟩ :=
        Buffer.blockAt?_of_hasRoom (h.hasRoom_of_place? hextents hwithin hplace)
      exact ⟨value, hvalue, hshape.trans h.block_eq⟩
  · exact ⟨_, rfl, h.block_eq⟩

/-- Adding to the block at an index tuple adds to that entry and to no other. -/
theorem entryAt?_addAt (h : m.Shaped dims s b) (hextents : m.Extents dims extents)
    (hwithin : WithinExtents extents indices) (hwithin' : WithinExtents extents indices')
    (hplace : b.place? extents (indices.map Nat.cast) = some place) (hshape : value.shape = s.block) :
    (b.addAt place value).entryAt? extents (indices'.map Nat.cast) =
      if indices' = indices then (b.entryAt? extents (indices.map Nat.cast)).bind (·.add? value)
      else b.entryAt? extents (indices'.map Nat.cast) := by
  have hlayout := b.sameLayout_addAt place value
  have hadd := Buffer.blockAt?_addAt (hshape.trans h.block_eq.symm)
    (h.hasRoom_of_place? hextents hwithin hplace)
  by_cases heq : indices' = indices
  · subst heq
    simp only [Buffer.entryAt?, hlayout.place?_eq, hplace, hadd, if_true]
  · rw [if_neg heq]
    unfold Buffer.entryAt?
    rw [hlayout.place?_eq, hlayout.block_eq]
    cases hplace' : b.place? extents (indices'.map Nat.cast) with
    | none => rfl
    | some place' =>
        have hne : place' ≠ place := by
          rintro rfl
          exact heq (h.place?_inj hextents hwithin' hwithin hplace' hplace)
        simp only [hadd, if_neg hne]

theorem entryAt?_cleared (h : m.Shaped dims s b) (hextents : m.Extents dims extents)
    (hwithin : WithinExtents extents indices) :
    b.cleared.entryAt? extents (indices.map Nat.cast) = some (.zeros s.block) := by
  have hlayout : b.SameLayout b.cleared := ⟨_, Array.size_replicate, rfl⟩
  unfold Buffer.entryAt?
  rw [hlayout.place?_eq, hlayout.block_eq, h.block_eq]
  split
  · next place hplace =>
      rw [Buffer.blockAt?_cleared (h.hasRoom_of_place? hextents hwithin hplace), h.block_eq]
  · rfl

end Machine.Shaped

end

end GraphTensor
