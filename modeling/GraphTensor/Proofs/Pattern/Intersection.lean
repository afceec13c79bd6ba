import GraphTensor.Pattern.Intersection
set_option autoImplicit false

/-! # Shared columns

Walking two rows together (`intersectFrom`) reports the columns of the first row that the second one
has too, in their order, each with its index in either row. That what is reported is shared holds of
any two lists; that nothing is left out takes ascending ones, since the cursor at the smaller column
moves past it for good. Both are inductions along the recursion of the walk. -/

namespace GraphTensor

variable {left right : List Nat}

/-- A reported column stands at the reported indices. -/
theorem getElem?_of_mem_intersectFrom {i j : Nat} {s : SharedColumn}
    (h : s ∈ intersectFrom left right i j) :
    ∃ a b, s.left = i + a ∧ s.right = j + b ∧ left[a]? = some s.col ∧ right[b]? = some s.col := by
  induction left, right, i, j using intersectFrom.induct with
  | case1 a left b right i j hlt ih =>
      rw [intersectFrom, if_pos hlt] at h
      obtain ⟨k, l, hk, hl, hleft, hright⟩ := ih h
      exact ⟨k + 1, l, by omega, hl, hleft, hright⟩
  | case2 a left b right i j hlt hgt ih =>
      rw [intersectFrom, if_neg hlt, if_pos hgt] at h
      obtain ⟨k, l, hk, hl, hleft, hright⟩ := ih h
      exact ⟨k, l + 1, hk, by omega, hleft, hright⟩
  | case3 a left b right i j hlt hgt ih =>
      rw [intersectFrom, if_neg hlt, if_neg hgt] at h
      rcases List.mem_cons.1 h with rfl | h
      · exact ⟨0, 0, rfl, rfl, rfl, by rw [Nat.le_antisymm (Nat.not_lt.1 hgt) (Nat.not_lt.1 hlt)]; rfl⟩
      · obtain ⟨k, l, hk, hl, hleft, hright⟩ := ih h
        exact ⟨k + 1, l + 1, by omega, by omega, hleft, hright⟩
  | case4 => simp [intersectFrom] at h
  | case5 => simp [intersectFrom] at h

/-- On ascending rows every shared column is reported, once and in order. -/
theorem map_col_intersectFrom (hleft : left.Pairwise (· < ·)) (hright : right.Pairwise (· < ·))
    (i j : Nat) : (intersectFrom left right i j).map SharedColumn.col = left.filter (· ∈ right) := by
  induction left, right, i, j using intersectFrom.induct with
  | case1 a left b right i j hlt ih =>
      obtain ⟨_, hleft⟩ := List.pairwise_cons.1 hleft
      have habove := (List.pairwise_cons.1 hright).1
      have hnot : a ∉ b :: right := by
        intro hmem
        rcases List.mem_cons.1 hmem with rfl | hmem
        · exact Nat.lt_irrefl _ hlt
        · exact Nat.lt_asymm hlt (habove a hmem)
      rw [intersectFrom, if_pos hlt, ih hleft hright, List.filter_cons_of_neg (by simpa using hnot)]
  | case2 a left b right i j hlt hgt ih =>
      have habove := (List.pairwise_cons.1 hleft).1
      rw [intersectFrom, if_neg hlt, if_pos hgt, ih hleft (List.pairwise_cons.1 hright).2]
      refine List.filter_congr fun c hc => ?_
      have hne : c ≠ b := by
        rcases List.mem_cons.1 hc with rfl | hc
        · exact (Nat.ne_of_lt hgt).symm
        · exact (Nat.ne_of_lt (Nat.lt_trans hgt (habove c hc))).symm
      simp [hne]
  | case3 a left b right i j hlt hgt ih =>
      obtain rfl : a = b := Nat.le_antisymm (Nat.not_lt.1 hgt) (Nat.not_lt.1 hlt)
      obtain ⟨habove, hleft⟩ := List.pairwise_cons.1 hleft
      rw [intersectFrom, if_neg hlt, if_neg hgt, List.map_cons,
        ih hleft (List.pairwise_cons.1 hright).2, List.filter_cons_of_pos (by simp)]
      refine congrArg (a :: ·) (List.filter_congr fun c hc => ?_)
      simp [(Nat.ne_of_lt (habove c hc)).symm]
  | case4 => simp [intersectFrom]
  | case5 => simp [intersectFrom]

end GraphTensor
