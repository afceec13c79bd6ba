import GraphTensor.Proofs.Scalar
import GraphTensor.Solve.Elimination
set_option autoImplicit false

/-! # Pivots

A step of elimination brings to the top the first row whose entry in the first column has the
largest magnitude (`largest`, `exchange`). What the other steps rely on is said once, as `Pivoted`:
the rows below are the other rows, and no first entry among them exceeds the pivot. Every list of
rows has such an arrangement, and the next step starts from it (`eliminate_of_exchange`). -/

namespace GraphTensor

/-! ## Exchanges -/

section

variable {α β : Type}

theorem exchange_map (f : α → β) (xs : List α) (k : Nat) :
    exchange (xs.map f) k = (exchange xs k).map f := by
  cases xs with
  | nil => rfl
  | cons x rest =>
      cases k with
      | zero => rfl
      | succ k =>
          simp only [List.map_cons, exchange, List.getElem?_map]
          cases rest[k]? with
          | none => rfl
          | some y => simp [List.map_set]

theorem exchange_exchange (xs : List α) (k : Nat) : exchange (exchange xs k) k = xs := by
  cases xs with
  | nil => rfl
  | cons x rest =>
      cases k with
      | zero => rfl
      | succ k =>
          cases hy : rest[k]? with
          | none => simp [exchange, hy]
          | some y =>
              obtain ⟨hk, rfl⟩ := List.getElem?_eq_some_iff.1 hy
              simp [exchange, hk]

theorem exchange_inj {xs ys : List α} {k : Nat} : exchange xs k = exchange ys k ↔ xs = ys := by
  refine ⟨fun h => ?_, fun h => h ▸ rfl⟩
  rw [← exchange_exchange xs k, h, exchange_exchange]

theorem length_exchange (xs : List α) (k : Nat) : (exchange xs k).length = xs.length := by
  cases xs with
  | nil => rfl
  | cons x rest =>
      cases k with
      | zero => rfl
      | succ k =>
          rw [exchange]
          cases rest[k]? <;> simp

theorem mem_of_mem_exchange {xs : List α} {k : Nat} {x : α} (h : x ∈ exchange xs k) : x ∈ xs := by
  cases xs with
  | nil => exact h
  | cons first rest =>
      cases k with
      | zero => exact h
      | succ k =>
          rw [exchange] at h
          cases hy : rest[k]? with
          | none =>
              rw [hy] at h
              exact h
          | some y =>
              rw [hy] at h
              rcases List.mem_cons.1 h with rfl | hmem
              · exact List.mem_cons_of_mem _ (List.mem_of_getElem? hy)
              · rcases List.mem_or_eq_of_mem_set hmem with hmem | rfl
                · exact List.mem_cons_of_mem _ hmem
                · exact List.mem_cons_self ..

theorem exists_exchange_eq_cons {n : Nat} {xs : List α} (h : xs.length = n + 1) (k : Nat) :
    ∃ y rest, exchange xs k = y :: rest ∧ rest.length = n ∧ ∀ x ∈ y :: rest, x ∈ xs := by
  obtain ⟨y, rest, hexchange⟩ :=
    List.exists_cons_of_length_eq_add_one ((length_exchange xs k).trans h)
  have hlength := length_exchange xs k
  rw [hexchange, h] at hlength
  exact ⟨y, rest, hexchange, Nat.succ.inj hlength, fun x hx =>
    mem_of_mem_exchange (hexchange ▸ hx)⟩

theorem getElem?_exchange {xs : List α} {k : Nat} (hk : k < xs.length) (i : Nat) :
    (exchange xs k)[i]? = xs[if i = 0 then k else if i = k then 0 else i]? := by
  cases xs with
  | nil => cases hk
  | cons x rest =>
      cases k with
      | zero => cases i <;> simp [exchange]
      | succ k =>
          have hk' : k < rest.length := Nat.lt_of_succ_lt_succ hk
          rw [exchange, List.getElem?_eq_getElem hk']
          cases i with
          | zero => simp [hk']
          | succ i =>
              by_cases hik : i = k
              · simp [hik, hk']
              · simp [hik, List.getElem?_set_ne (Ne.symm hik)]

end

variable {K : Type} [Field K] [LinearOrder K]

/-! ## The pivot -/

/-- The search keeps the place of the largest magnitude so far, or finds a larger one that nothing
    exceeds. -/
theorem largestFrom_spec (best : K) (bestPlace place : Nat) (xs : List K) :
    (largestFrom best bestPlace place xs = bestPlace ∧ ∀ x ∈ xs, |x| ≤ best) ∨
      ∃ i y, largestFrom best bestPlace place xs = place + i ∧ xs[i]? = some y ∧ best < |y| ∧
        ∀ x ∈ xs, |x| ≤ |y| := by
  induction xs generalizing best bestPlace place with
  | nil => exact .inl ⟨rfl, nofun⟩
  | cons x rest ih =>
      by_cases hless : best < |x|
      · have hstep : largestFrom best bestPlace place (x :: rest) =
            largestFrom |x| place (place + 1) rest := if_pos (decide_eq_true hless)
        rw [hstep]
        refine .inr ?_
        obtain ⟨hplace, hrest⟩ | ⟨i, y, hplace, hy, hxy, hrest⟩ := ih |x| place (place + 1)
        · exact ⟨0, x, hplace, rfl, hless, List.forall_mem_cons.2 ⟨le_rfl, hrest⟩⟩
        · exact ⟨i + 1, y, by rw [hplace]; omega, hy, hless.trans hxy,
            List.forall_mem_cons.2 ⟨hxy.le, hrest⟩⟩
      · have hstep : largestFrom best bestPlace place (x :: rest) =
            largestFrom best bestPlace (place + 1) rest :=
          if_neg fun h => hless (of_decide_eq_true h)
        rw [hstep]
        obtain ⟨hplace, hrest⟩ | ⟨i, y, hplace, hy, hbest, hrest⟩ := ih best bestPlace (place + 1)
        · exact .inl ⟨hplace, List.forall_mem_cons.2 ⟨not_lt.1 hless, hrest⟩⟩
        · exact .inr ⟨i + 1, y, by rw [hplace]; omega, hy, hbest,
            List.forall_mem_cons.2 ⟨(not_lt.1 hless).trans hbest.le, hrest⟩⟩

/-- Nothing in a list exceeds the number at the place of the largest magnitude. -/
theorem largest_spec {xs : List K} (h : xs ≠ []) :
    ∃ y, xs[largest xs]? = some y ∧ ∀ x ∈ xs, |x| ≤ |y| := by
  cases xs with
  | nil => exact absurd rfl h
  | cons x rest =>
      obtain ⟨hplace, hrest⟩ | ⟨i, y, hplace, hy, hxy, hrest⟩ := largestFrom_spec |x| 0 1 rest
      · exact ⟨x, congrArg ((x :: rest)[·]?) hplace, List.forall_mem_cons.2 ⟨le_rfl, hrest⟩⟩
      · refine ⟨y, ?_, List.forall_mem_cons.2 ⟨hxy.le, hrest⟩⟩
        rw [Nat.add_comm] at hplace
        exact (congrArg ((x :: rest)[·]?) hplace).trans hy

theorem largest_lt {xs : List K} (h : xs ≠ []) : largest xs < xs.length := by
  obtain ⟨y, hy, _⟩ := largest_spec h
  exact (List.getElem?_eq_some_iff.1 hy).1

/-- What an exchange brings to the top has the largest magnitude. -/
theorem abs_le_of_exchange_largest {xs rest : List K} {y : K}
    (h : exchange xs (largest xs) = y :: rest) {x : K} (hx : x ∈ rest) : |x| ≤ |y| := by
  have hne : xs ≠ [] := by
    rintro rfl
    cases h
  obtain ⟨y', hy', hmax⟩ := largest_spec hne
  have htop := getElem?_exchange (largest_lt hne) 0
  rw [h, if_pos rfl, hy'] at htop
  obtain rfl : y = y' := Option.some.inj htop
  exact hmax x (mem_of_mem_exchange (h ▸ List.mem_cons_of_mem _ hx))

/-! ## The pivot row -/

/-- The rows of an elimination, once the pivot row is at the top. -/
structure Pivoted (n : Nat) (rows : List (List K)) (diagonal : K) (upper : List K)
    (below : List (List K)) : Prop where
  /-- The pivot row is at the top. -/
  exchanged : exchange rows (largest (heads rows)) = (diagonal :: upper) :: below
  /-- It comes from one of the rows. -/
  place : largest (heads rows) < n + 1
  /-- It has as many entries as there are rows. -/
  upper_length : upper.length = n
  /-- The other rows are below it. -/
  below_length : below.length = n
  /-- So have they. -/
  row_length : ∀ row ∈ below, row.length = n + 1
  /-- Nothing in the column exceeds the pivot. -/
  head_le : ∀ row ∈ below, |row.headD 0| ≤ |diagonal|

theorem heads_exchange (rows : List (List K)) (k : Nat) :
    exchange (heads rows) k = heads (exchange rows k) :=
  exchange_map ..

theorem exists_pivoted {n : Nat} {rows : List (List K)} (hrows : rows.length = n + 1)
    (hcols : ∀ row ∈ rows, row.length = n + 1) :
    ∃ diagonal upper below, Pivoted n rows diagonal upper below := by
  obtain ⟨top, below, hexchange, hlength, hmem⟩ :=
    exists_exchange_eq_cons hrows (largest (heads rows))
  have hrow : ∀ row ∈ top :: below, row.length = n + 1 := fun row h => hcols row (hmem row h)
  obtain ⟨diagonal, upper, rfl⟩ :=
    List.exists_cons_of_length_eq_add_one (hrow top (List.mem_cons_self ..))
  have hheads : exchange (heads rows) (largest (heads rows)) = diagonal :: heads below := by
    rw [heads_exchange, hexchange]
    rfl
  have hplace : largest (heads rows) < (heads rows).length :=
    largest_lt fun h => by rw [List.map_eq_nil_iff.1 h] at hrows; cases hrows
  refine ⟨diagonal, upper, below, hexchange, ?_, Nat.succ.inj (hrow _ (List.mem_cons_self ..)),
    hlength, fun row h => hrow row (List.mem_cons_of_mem _ h),
    fun row h => abs_le_of_exchange_largest hheads (List.mem_map_of_mem h)⟩
  rwa [heads, List.length_map, hrows] at hplace

theorem eliminate_of_exchange {n : Nat} {rows : List (List K)} {diagonal : K} {upper : List K}
    {below : List (List K)}
    (h : exchange rows (largest (heads rows)) = (diagonal :: upper) :: below) :
    eliminate (n + 1) rows =
      ⟨largest (heads rows), diagonal, upper, (clearColumn diagonal upper below).1⟩ ::
        eliminate n (clearColumn diagonal upper below).2 := by
  rw [eliminate]
  simp only [h, List.headD_cons, List.tail_cons]

end GraphTensor
