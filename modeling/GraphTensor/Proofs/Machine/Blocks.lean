import GraphTensor.Machine.Buffer
import GraphTensor.Proofs.Machine.Changes
import GraphTensor.Proofs.Word
import Mathlib.Algebra.Order.Ring.Nat
set_option autoImplicit false

/-! # Blocks in buffers

The numbers of a buffer are blocks, one after another (`Buffer.blockAt?`). Adding to the block at a
place (`Buffer.addAt`) adds to that block alone; every load and store of a run is at some place.

The offset of a place can be cut off to a word, and it is compared with the length of the numbers
only then. A slot that lies inside the buffer (`Buffer.HasRoom`) has an offset that is a word, so
where a load or a store succeeds, nothing has been cut off. -/

namespace GraphTensor

variable {α : Type}

namespace Slot

theorem locate_eq_ok {var : VarName} {size start length : Nat} {offset : Int}
    (h : locate var size offset length = .ok start) : offset = start ∧ start + length ≤ size := by
  unfold locate at h
  split at h
  · cases h
  · next hnonneg =>
      obtain ⟨stop, hstop, h⟩ := Outcome.bind_eq_ok_iff.1 h
      obtain ⟨_, hinside, h⟩ := Outcome.bind_eq_ok_iff.1 h
      obtain rfl := Except.ok.inj h
      have hstop := (Word.ofNat?_eq_some_iff.1 (Outcome.orAbort_eq_ok_iff.1 hstop)).2
      have hinside : ¬ size < stop := by simpa using Outcome.failIf_eq_ok_iff.1 hinside
      omega

theorem locate_inside {var : VarName} {size start length : Nat} (hstop : start + length < Word.bound)
    (h : start + length ≤ size) : locate var size start length = .ok start := by
  have hstop : Word.add? start length = some (start + length) :=
    Word.ofNat?_eq_some_iff.2 ⟨hstop, rfl⟩
  have hinside : decide (size < start + length) = false := by simpa using h
  unfold locate
  rw [if_neg (by omega), Int.toNat_natCast, Outcome.orAbort_bind hstop]
  exact Outcome.bind_eq_ok_iff.2 ⟨(), Outcome.failIf_eq_ok_iff.2 hinside, rfl⟩

/-- A slot that does not lie inside a buffer is out of bounds, if its ends are signed words. -/
theorem locate_outside {var : VarName} {size length : Nat} {offset : Int}
    (hoffset : offset < 2 ^ 63) (hlength : length < 2 ^ 63)
    (h : offset < 0 ∨ (size : Int) < offset + length) :
    locate var size offset length = Outcome.fail (.indexOutOfBounds (.buffer var) offset size) := by
  unfold locate
  by_cases hneg : offset < 0
  · exact if_pos hneg
  · have hstop : Word.add? offset.toNat length = some (offset.toNat + length) :=
      Word.ofNat?_eq_some_iff.2 ⟨by rw [Word.bound]; omega, rfl⟩
    have houtside : decide (size < offset.toNat + length) = true := by
      rw [decide_eq_true_eq]
      omega
    rw [if_neg hneg, Outcome.orAbort_bind hstop, Outcome.failIf, houtside]
    rfl

/-- The offset of a position, where numbers begin that lie inside a buffer, is not cut off. -/
theorem offsetOf_of_locate {var : VarName} {size start length : Nat} {position : Int}
    (hsize : size < 2 ^ 63) (hlength : length ≠ 0)
    (h : locate var size (offsetOf position length) length = .ok start) :
    offsetOf position length = position * length := by
  obtain ⟨hoffset, hinside⟩ := locate_eq_ok h
  rw [offsetOf, SignedWord.ofCount_of_lt (by omega), SignedWord.saturate] at hoffset ⊢
  omega

theorem size_read {values : Array α} {start length : Nat} (h : start + length ≤ values.size) :
    (read values start length).size = length := by
  simp only [read, Array.size_extract]
  omega

theorem read_zero (values : Array α) (start : Nat) : read values start 0 = #[] :=
  Array.eq_empty_of_size_eq_zero (by simp [read])

theorem getElem?_read (values : Array α) (start length k : Nat) :
    (read values start length)[k]? = if k < length then values[start + k]? else none := by
  simp only [read, Array.getElem?_extract]
  by_cases hk : k < length
  · by_cases hsize : start + k < values.size
    · rw [if_pos (by omega), if_pos hk]
    · rw [if_neg (by omega), if_pos hk, Array.getElem?_eq_none (by omega)]
  · rw [if_neg (by omega), if_neg hk]

variable [Scalar α]

/-- Numbers written from a place on come each to its own place, or are added there. -/
theorem getElem?_write (values data : Array α) (start k : Nat) (accumulate : Bool) :
    (write values start data accumulate)[k]? =
      if start ≤ k then
        match data[k - start]? with
        | some x => values[k]?.map fun old => if accumulate then old + x else x
        | none => values[k]?
      else values[k]? := by
  obtain ⟨xs⟩ := data
  simp only [write, List.getElem?_toArray]
  induction xs generalizing values start with
  | nil => simp
  | cons x rest ih =>
      have hone : (writeOne accumulate values (x, start))[k]? =
          if start = k then values[k]?.map fun old => if accumulate then old + x else x
          else values[k]? := by
        cases accumulate with
        | true => simp [writeOne, Array.getElem?_modify]
        | false =>
            by_cases heq : start = k
            · subst heq
              by_cases hk : start < values.size <;> simp [writeOne, hk]
            · simp [writeOne, heq]
      rw [List.zipIdx_cons, List.foldl_cons, ih]
      by_cases hlt : start + 1 ≤ k
      · have hne : start ≠ k := by omega
        rw [if_pos hlt, if_pos (by omega), show k - start = (k - (start + 1)) + 1 by omega,
          List.getElem?_cons_succ, hone, if_neg hne]
      · rw [if_neg hlt]
        by_cases heq : start = k
        · subst heq
          simp [hone]
        · rw [if_neg (by omega), hone, if_neg heq]

theorem read_write_self {values data : Array α} {start : Nat}
    (h : start + data.size ≤ values.size) :
    read (write values start data true) start data.size =
      (read values start data.size).zipWith (· + ·) data := by
  refine Array.ext_getElem? fun k => ?_
  rw [getElem?_read, getElem?_write, if_pos (Nat.le_add_right _ _), Nat.add_sub_cancel_left,
    Array.getElem?_zipWith, getElem?_read]
  by_cases hk : k < data.size
  · rw [if_pos hk, if_pos hk, Array.getElem?_eq_getElem hk,
      Array.getElem?_eq_getElem (show start + k < values.size by omega)]
    rfl
  · rw [if_neg hk, if_neg hk]

theorem read_write_over {values data : Array α} {start : Nat}
    (h : start + data.size ≤ values.size) :
    read (write values start data false) start data.size = data := by
  refine Array.ext_getElem? fun k => ?_
  rw [getElem?_read, getElem?_write, if_pos (Nat.le_add_right _ _), Nat.add_sub_cancel_left]
  by_cases hk : k < data.size
  · rw [if_pos hk, Array.getElem?_eq_getElem hk,
      Array.getElem?_eq_getElem (show start + k < values.size by omega)]
    rfl
  · rw [if_neg hk, Array.getElem?_eq_none (Nat.le_of_not_lt hk)]

theorem read_write_other {values data : Array α} {start start' length : Nat} {accumulate : Bool}
    (h : start' + length ≤ start ∨ start + data.size ≤ start') :
    read (write values start data accumulate) start' length = read values start' length := by
  refine Array.ext_getElem? fun k => ?_
  rw [getElem?_read, getElem?_read]
  by_cases hk : k < length
  · rw [if_pos hk, if_pos hk, getElem?_write]
    split
    · rw [Array.getElem?_eq_none (by omega)]
    · rfl
  · rw [if_neg hk, if_neg hk]

theorem write_over_all {values data : Array α} (h : data.size = values.size) :
    write values 0 data false = data := by
  have hread : read (write values 0 data false) 0 data.size = data := read_write_over (by omega)
  have hsize := size_write values 0 data false
  rwa [read, Nat.zero_add, Array.extract_eq_self_of_le (by omega)] at hread

end Slot

namespace Buffer

/-- The block at a place, the blocks of a buffer standing one after another. -/
def blockAt? (b : Buffer α) (place : Nat) : Option (BlockValue α) :=
  BlockValue.ofArray? b.block (Slot.read b.values (place * b.block.length) b.block.length)

/-- The buffer holds a block at a place. -/
def HasRoom (b : Buffer α) (place : Nat) : Prop :=
  place * b.block.length + b.block.length ≤ b.values.size

variable {b b' : Buffer α} {var : VarName} {place place' : Nat} {value : BlockValue α}

theorem block_withValues (b : Buffer α) (values : Array α) : (b.withValues values).block = b.block := by
  cases b with
  | dense block old => rfl
  | sparse matrix => rfl
  | register value =>
      simp only [withValues, block, BlockValue.ofArray?]
      split <;> rfl

theorem blockAt?_of_hasRoom (h : b.HasRoom place) :
    ∃ value, b.blockAt? place = some value ∧ value.shape = b.block ∧
      value.data = Slot.read b.values (place * b.block.length) b.block.length := by
  refine ⟨⟨b.block, Slot.read b.values (place * b.block.length) b.block.length,
    Slot.size_read h⟩, ?_, rfl, rfl⟩
  rw [blockAt?, BlockValue.ofArray?, dif_pos (Slot.size_read h)]

/-- A block of the buffer's shape with the numbers of a slot is the block at the slot's place. -/
theorem blockAt?_eq_some (hshape : value.shape = b.block)
    (hdata : value.data = Slot.read b.values (place * b.block.length) b.block.length) :
    b.blockAt? place = some value := by
  obtain ⟨shape, data, hsize⟩ := value
  subst hshape
  subst hdata
  rw [blockAt?, BlockValue.ofArray?, dif_pos hsize]

theorem blockAt?_of_empty (hempty : b.block.length = 0) (place place' : Nat) :
    b.blockAt? place = b.blockAt? place' := by
  simp [blockAt?, hempty]

theorem SameLayout.block_eq (h : b.SameLayout b') : b'.block = b.block := by
  obtain ⟨values, _, rfl⟩ := h
  exact b.block_withValues values

variable [Scalar α]

/-- The buffer with a block at a place written, or added to. -/
def writeAt (b : Buffer α) (place : Nat) (value : BlockValue α) (accumulate : Bool) : Buffer α :=
  b.withValues (Slot.write b.values (place * b.block.length) value.data accumulate)

/-- The buffer with a block added to the one at a place. -/
def addAt (b : Buffer α) (place : Nat) (value : BlockValue α) : Buffer α :=
  b.withValues (Slot.write b.values (place * b.block.length) value.data true)

theorem sameLayout_writeAt (b : Buffer α) (place : Nat) (value : BlockValue α)
    (accumulate : Bool) : b.SameLayout (b.writeAt place value accumulate) :=
  ⟨_, Slot.size_write .., rfl⟩

theorem sameLayout_addAt (b : Buffer α) (place : Nat) (value : BlockValue α) :
    b.SameLayout (b.addAt place value) :=
  b.sameLayout_writeAt place value true

/-- Writing the block at a place, or adding to it, leaves the others as they are. -/
theorem blockAt?_writeAt (hshape : value.shape = b.block) (hroom : b.HasRoom place)
    (accumulate : Bool) (place' : Nat) :
    (b.writeAt place value accumulate).blockAt? place' =
      if place' = place then
        if accumulate then (b.blockAt? place).bind (·.add? value) else some value
      else b.blockAt? place' := by
  have hsize : value.data.size = b.block.length := by rw [value.size_data, hshape]
  have hvalues : (b.writeAt place value accumulate).values =
      Slot.write b.values (place * b.block.length) value.data accumulate :=
    values_withValues (Slot.size_write ..)
  have hblock : (b.writeAt place value accumulate).block = b.block := b.block_withValues _
  by_cases heq : place' = place
  · subst heq
    rw [if_pos rfl]
    cases accumulate with
    | true =>
        obtain ⟨old, hold, holdShape, holdData⟩ := blockAt?_of_hasRoom hroom
        rw [if_pos rfl, hold, Option.bind_some, BlockValue.add?, BlockValue.zipWith?,
          dif_pos (holdShape.trans hshape.symm)]
        refine blockAt?_eq_some (holdShape.trans hblock.symm) ?_
        show old.data.zipWith _ value.data = _
        rw [hvalues, hblock, holdData, ← hsize,
          Slot.read_write_self (by rw [hsize]; exact hroom)]
    | false =>
        refine blockAt?_eq_some (hshape.trans hblock.symm) ?_
        rw [hvalues, hblock, ← hsize, Slot.read_write_over (by rw [hsize]; exact hroom)]
  · rw [if_neg heq, blockAt?, blockAt?, hvalues, hblock, Slot.read_write_other]
    -- the two slots stand apart
    rw [hsize]
    rcases Nat.lt_or_gt_of_ne heq with hlt | hlt
    · left
      have := Nat.mul_le_mul_right b.block.length (Nat.succ_le_of_lt hlt)
      rwa [Nat.succ_mul] at this
    · right
      have := Nat.mul_le_mul_right b.block.length (Nat.succ_le_of_lt hlt)
      rwa [Nat.succ_mul] at this

/-- Adding to the block at a place adds to that block and leaves the others as they are. -/
theorem blockAt?_addAt (hshape : value.shape = b.block) (hroom : b.HasRoom place) (place' : Nat) :
    (b.addAt place value).blockAt? place' =
      if place' = place then (b.blockAt? place).bind (·.add? value) else b.blockAt? place' :=
  blockAt?_writeAt hshape hroom true place'

theorem blockAt?_cleared (hroom : b.HasRoom place) :
    b.cleared.blockAt? place = some (BlockValue.zeros b.block) := by
  have hvalues : b.cleared.values = Array.replicate b.values.size 0 :=
    values_withValues Array.size_replicate
  have hblock : b.cleared.block = b.block := b.block_withValues _
  refine blockAt?_eq_some hblock.symm ?_
  rw [hvalues, hblock]
  refine Array.ext_getElem? fun k => ?_
  simp only [BlockValue.zeros, Slot.getElem?_read, Array.getElem?_replicate]
  by_cases hk : k < b.block.length
  · have hroom : place * b.block.length + b.block.length ≤ b.values.size := hroom
    rw [if_pos hk, if_pos hk, if_pos (by omega)]
  · rw [if_neg hk, if_neg hk]

/-! ## Loads and stores -/

omit [Scalar α] in
theorem load_of_hasRoom (var : VarName) (hroom : b.HasRoom place) (hsize : b.values.size < Word.bound) :
    ∃ value, b.load var ((place * b.block.length : Nat) : Int) b.block = .ok value ∧
      b.blockAt? place = some value := by
  obtain ⟨value, hvalue, _, _⟩ := blockAt?_of_hasRoom hroom
  have hinside : place * b.block.length + b.block.length ≤ b.values.size := hroom
  have hlength : b.block.length? = some b.block.length :=
    Word.ofNat?_eq_some_iff.2 ⟨by omega, rfl⟩
  refine ⟨value, ?_, hvalue⟩
  rw [load, Outcome.orAbort_bind hlength, Slot.locate_inside (Nat.lt_of_le_of_lt hroom hsize) hroom]
  exact (Outcome.orAbort_bind hlength).trans (Outcome.orFail_eq_ok_iff.2 hvalue)

theorem store_of_hasRoom (hshape : value.shape = b.block) (hroom : b.HasRoom place)
    (hsize : b.values.size < Word.bound) (accumulate : Bool) :
    b.store var ((place * b.block.length : Nat) : Int) value accumulate =
      .ok (b.writeAt place value accumulate) := by
  rw [store, hshape, Slot.locate_inside (Nat.lt_of_le_of_lt hroom hsize) hroom]
  rfl

omit [Scalar α] in
theorem load_outside {offset : Int} (hoffset : offset < 2 ^ 63) (hlength : b.block.length < 2 ^ 63)
    (h : offset < 0 ∨ (b.values.size : Int) < offset + b.block.length) :
    b.load var offset b.block =
      Outcome.fail (.indexOutOfBounds (.buffer var) offset b.values.size) := by
  have hword : b.block.length? = some b.block.length :=
    Word.ofNat?_eq_some_iff.2 ⟨hlength.trans (by decide), rfl⟩
  rw [load, Outcome.orAbort_bind hword, Slot.locate_outside hoffset hlength h]
  rfl

theorem store_outside {offset : Int} {accumulate : Bool} (hoffset : offset < 2 ^ 63)
    (hlength : b.block.length < 2 ^ 63) (hshape : value.shape = b.block)
    (h : offset < 0 ∨ (b.values.size : Int) < offset + b.block.length) :
    b.store var offset value accumulate =
      Outcome.fail (.indexOutOfBounds (.buffer var) offset b.values.size) := by
  rw [store, hshape, Slot.locate_outside hoffset hlength h]
  rfl

omit [Scalar α] in
/-- A load at the offset of a place gives the block there. -/
theorem blockAt?_of_load (place : Int) {offset : Int}
    (hoffset : b.block.length ≠ 0 → offset = place * b.block.length)
    (h : b.load var offset b.block = .ok value) : b.blockAt? place.toNat = some value := by
  obtain ⟨length, hlength, h⟩ := Outcome.bind_eq_ok_iff.1 h
  obtain ⟨_, rfl⟩ := Word.ofNat?_eq_some_iff.1 (Outcome.orAbort_eq_ok_iff.1 hlength)
  obtain ⟨start, hstart, h⟩ := Outcome.bind_eq_ok_iff.1 h
  obtain ⟨hstartOffset, hinside⟩ := Slot.locate_eq_ok hstart
  obtain ⟨_, _, h⟩ := Outcome.bind_eq_ok_iff.1 h
  have hvalue := Outcome.orFail_eq_ok_iff.1 h
  by_cases hempty : b.block.length = 0
  · rw [blockAt?, ← hvalue, hempty, Slot.read_zero, Slot.read_zero]
  · have hoffset := hoffset hempty
    have hnonneg : 0 ≤ place := by
      by_contra hneg
      have : place * b.block.length < 0 :=
        Int.mul_neg_of_neg_of_pos (by omega) (by omega)
      omega
    obtain ⟨k, rfl⟩ := Int.eq_ofNat_of_zero_le hnonneg
    have hstart : k * b.block.length = start := by
      rw [hoffset] at hstartOffset
      exact_mod_cast hstartOffset
    rw [Int.toNat_natCast, blockAt?, hstart]
    exact hvalue

omit [Scalar α] in
/-- A load at a position gives the block there, signed words reaching every number of the buffer. -/
theorem blockAt?_of_loadAt {position : Int} (hsize : b.values.size < 2 ^ 63)
    (h : b.loadAt var position b.block = .ok value) : b.blockAt? position.toNat = some value := by
  obtain ⟨length, hlength, h⟩ := Outcome.bind_eq_ok_iff.1 h
  obtain ⟨_, rfl⟩ := Word.ofNat?_eq_some_iff.1 (Outcome.orAbort_eq_ok_iff.1 hlength)
  refine blockAt?_of_load position (fun hempty => ?_) h
  obtain ⟨_, hlength', h⟩ := Outcome.bind_eq_ok_iff.1 h
  obtain ⟨_, rfl⟩ := Word.ofNat?_eq_some_iff.1 (Outcome.orAbort_eq_ok_iff.1 hlength')
  obtain ⟨start, hstart, _⟩ := Outcome.bind_eq_ok_iff.1 h
  exact Slot.offsetOf_of_locate hsize hempty hstart

/-- A store that adds at the offset of a place adds to the block there. -/
theorem eq_addAt_of_store {offset : Int} (hshape : value.shape = b.block)
    (hoffset : b.block.length ≠ 0 → offset = (place : Int) * b.block.length)
    (h : b.store var offset value true = .ok b') : b.HasRoom place ∧ b' = b.addAt place value := by
  obtain ⟨start, hstart, h⟩ := Outcome.bind_eq_ok_iff.1 h
  obtain rfl := Except.ok.inj h
  obtain ⟨hstartOffset, hinside⟩ := Slot.locate_eq_ok hstart
  by_cases hempty : b.block.length = 0
  · have hdata : value.data = #[] :=
      Array.eq_empty_of_size_eq_zero (by rw [value.size_data, hshape, hempty])
    refine ⟨?_, ?_⟩
    · rw [HasRoom, hempty]
      omega
    · rw [addAt, hdata]
      rfl
  · have hstart : place * b.block.length = start := by
      rw [hoffset hempty] at hstartOffset
      exact_mod_cast hstartOffset
    rw [hshape, ← hstart] at hinside
    exact ⟨hinside, by rw [addAt, hstart]⟩

theorem eq_addAt_of_storeAt (hsize : b.values.size < 2 ^ 63) (hshape : value.shape = b.block)
    (hplace : b.block.length ≠ 0 → place < 2 ^ 63)
    (h : b.storeAt var (SignedWord.ofCount place) value true = .ok b') :
    b.HasRoom place ∧ b' = b.addAt place value := by
  refine eq_addAt_of_store hshape (fun hempty => ?_) h
  obtain ⟨start, hstart, _⟩ := Outcome.bind_eq_ok_iff.1 h
  rw [← hshape] at hempty
  rw [Slot.offsetOf_of_locate hsize hempty hstart, SignedWord.ofCount_of_lt (hplace (hshape ▸ hempty)),
    hshape]

end Buffer

end GraphTensor
