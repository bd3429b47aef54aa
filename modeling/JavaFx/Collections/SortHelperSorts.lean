/-
`SortHelper.sort` as a statement about arrays.

`SortsBy` says of the array and the positions that `sort` returns that the range
is permuted by the positions, is sorted afterwards, and that equal elements kept
their order. It holds for every range that starts at 0, for every short one and
for every one that is sorted already (`sort_sortsBy`). A stable sort has one
result only, so a sorted range comes back as it is, with the identity
(`SortsBy.eq_of_sorted`).
-/
import JavaFx.Collections.SortHelperSpec

set_option autoImplicit false

namespace JavaFx.Collections.SortHelper

open JavaFx.Lib

variable {T : Type}

/-- The elements of `a` in `[fromIndex, toIndex)`. -/
def range (a : List T) (fromIndex toIndex : ℕ) : List T :=
  (a.drop fromIndex).take (toIndex - fromIndex)

/-- `r` is `a` with the range sorted stably, and the positions its elements went to. -/
structure SortsBy (compare : T → T → ℤ) (a : List T) (fromIndex toIndex : ℕ)
    (r : List T × List ℕ) : Prop where
  length_eq : r.2.length = toIndex - fromIndex
  permutes : PermutesRange fromIndex r.2 a.length
  permuted : r.1 = permuteRange fromIndex r.2 a
  sorted : SortedBy compare (range r.1 fromIndex toIndex)
  stable : ∀ (i j : ℕ) (hj : j < r.2.length) (hij : i < j) (x y : T),
    a[fromIndex + i]? = some x → a[fromIndex + j]? = some y → compare x y ≤ 0 → r.2[i] < r.2[j]

section SortsBy

variable {compare : T → T → ℤ} {a : List T} {fromIndex toIndex : ℕ}

/-- The conditions under which the recorded permutation is the one that was made:
on other ranges the levels of the recursion disagree about the indices. -/
def RangeFits (compare : T → T → ℤ) (a : List T) (fromIndex toIndex : ℕ) : Prop :=
  fromIndex = 0 ∨ toIndex - fromIndex < INSERTIONSORT_THRESHOLD
    ∨ SortedBy compare (range a fromIndex toIndex)

/-- The stable order of a window, with the positions that an inverse pair of arrays
records for it, sorts the window. -/
theorem sortsBy_of_stableSorted {A xs B : List T} {w : List (T × ℕ)} {R₁ R₂ perm : List ℕ}
    (hlen : A.length = R₁.length) (hperm : w.Perm (xs.zipIdx A.length))
    (hsorted : StableSorted compare w) (hinv : Inverse ⟨perm, R₁ ++ (w.map Prod.snd ++ R₂)⟩) :
    SortsBy compare (A ++ (xs ++ B)) A.length (A.length + xs.length)
      (A ++ (w.map Prod.fst ++ B), (perm.drop A.length).take xs.length) := by
  have hw : w.length = xs.length := by rw [hperm.length_eq, List.length_zipIdx]
  have hplen : A.length + xs.length ≤ perm.length := by
    have := hinv.length_eq
    simp only [List.length_append, List.length_map] at this
    omega
  -- the element at `k` of the window, its place in `w` and its recorded position
  have hplace : ∀ k (hk : k < xs.length), ∃ j, w[j]? = some (xs[k], A.length + k) ∧
      ((perm.drop A.length).take xs.length)[k]? = some (A.length + j) := by
    intro k hk
    have hmem : (xs[k], A.length + k) ∈ xs.zipIdx A.length := by
      rw [List.mem_zipIdx_iff_le_and_getElem?_sub]
      exact ⟨Nat.le_add_right _ _, by rw [Nat.add_sub_cancel_left, List.getElem?_eq_getElem hk]⟩
    obtain ⟨j, hj⟩ := List.getElem?_of_mem (hperm.mem_iff.mpr hmem)
    refine ⟨j, hj, ?_⟩
    have hjlt : j < (w.map Prod.snd).length := by
      rw [List.length_map]
      exact (List.getElem?_eq_some_iff.mp hj).1
    have hrev : (R₁ ++ (w.map Prod.snd ++ R₂))[A.length + j]? = some (A.length + k) := by
      rw [hlen, List.getElem?_append_right (Nat.le_add_right _ _), Nat.add_sub_cancel_left,
        List.getElem?_append_left hjlt, List.getElem?_map, hj, Option.map_some, hlen]
    rw [List.getElem?_take_of_lt hk, List.getElem?_drop]
    exact hinv.apply _ _ hrev
  generalize hts : (perm.drop A.length).take xs.length = ts at hplace
  have hlength : ts.length = xs.length := by
    rw [← hts, List.length_take, List.length_drop]
    omega
  have hmoved : ∀ k (hk : k < ts.length) (hk' : k < xs.length), ∃ j, j < w.length
      ∧ w[j]? = some (xs[k], A.length + k) ∧ ts[k] = A.length + j := by
    intro k hk hk'
    obtain ⟨j, hj, ht⟩ := hplace k hk'
    rw [List.getElem?_eq_getElem hk, Option.some_inj] at ht
    exact ⟨j, (List.getElem?_eq_some_iff.mp hj).1, hj, ht⟩
  have hget : ∀ (l : List T) k, k < l.length → (A ++ (l ++ B))[A.length + k]? = l[k]? := by
    intro l k hk
    rw [List.getElem?_append_right (Nat.le_add_right _ _), Nat.add_sub_cancel_left,
      List.getElem?_append_left hk]
  have hpermutes : PermutesRange A.length ts (A ++ (xs ++ B)).length := by
    refine PermutesRange.of_nodup (List.nodup_iff_injective_getElem.mpr ?_) ?_ ?_
    · intro ⟨k, hk⟩ ⟨k', hk'⟩ heq
      obtain ⟨j, -, hj, ht⟩ := hmoved k hk (by omega)
      obtain ⟨j', -, hj', ht'⟩ := hmoved k' hk' (by omega)
      dsimp only at heq
      obtain rfl : j = j' := by omega
      rw [hj, Option.some_inj, Prod.mk.injEq] at hj'
      exact Fin.ext (by simp only; omega)
    · simp only [List.length_append]
      omega
    · intro t ht
      obtain ⟨k, hk, rfl⟩ := List.getElem_of_mem ht
      obtain ⟨j, hjlt, -, ht⟩ := hmoved k hk (by omega)
      omega
  refine ⟨by simpa using hlength, hpermutes, ?_, ?_, ?_⟩
  · refine eq_permuteRange hpermutes (by simp [hw]) (fun j hj => ?_) (fun k hk => ?_)
    · dsimp only at hj
      by_cases hlt : j < A.length
      · rw [List.getElem?_append_left hlt, List.getElem?_append_left hlt]
      · have hj' : xs.length ≤ j - A.length := by omega
        rw [List.getElem?_append_right (by omega),
          List.getElem?_append_right (by rwa [List.length_map, hw]),
          List.getElem?_append_right (by omega), List.getElem?_append_right hj',
          List.length_map, hw]
    · have hk' : k < xs.length := by
        rw [← hlength]
        exact hk
      obtain ⟨j, hjlt, hj, ht⟩ := hmoved k hk hk'
      dsimp only
      rw [ht, hget _ j (by simpa using hjlt), hget _ k hk', List.getElem?_map, hj,
        Option.map_some, List.getElem?_eq_getElem hk']
  · have hrange : range (A ++ (w.map Prod.fst ++ B)) A.length (A.length + xs.length)
        = w.map Prod.fst := by
      rw [range, List.drop_left, Nat.add_sub_cancel_left, List.take_left' (by simp [hw])]
    rw [hrange]
    exact hsorted.sortedBy
  · intro i k hk hik x y hx hy hxy
    have hk' : k < xs.length := by
      rw [← hlength]
      exact hk
    dsimp only
    obtain ⟨j, -, hj, ht⟩ := hmoved i (by omega) (by omega)
    obtain ⟨j', -, hj', ht'⟩ := hmoved k hk hk'
    rw [hget _ _ (by omega), List.getElem?_eq_getElem (by omega), Option.some_inj] at hx hy
    rw [ht, ht']
    -- were the later element in front, it would be strictly smaller
    by_contra hle
    have hne : j ≠ j' := by
      rintro rfl
      rw [hj, Option.some_inj, Prod.mk.injEq] at hj'
      omega
    have hlt : j' < j := by omega
    obtain ⟨hjlt, hjget⟩ := List.getElem?_eq_some_iff.mp hj
    obtain ⟨hjlt', hjget'⟩ := List.getElem?_eq_some_iff.mp hj'
    have hbefore := List.pairwise_iff_getElem.mp hsorted j' j hjlt' hjlt hlt
    rw [hjget, hjget'] at hbefore
    have := hbefore.2 (by rw [hx, hy]; exact hxy)
    simp only at this
    omega

/-- An array cut at the bounds of a range. -/
theorem split_range (hfrom : fromIndex ≤ toIndex) (hto : toIndex ≤ a.length) :
    ∃ A xs B, a = A ++ (xs ++ B) ∧ A.length = fromIndex ∧ A.length + xs.length = toIndex
      ∧ xs = range a fromIndex toIndex := by
  refine ⟨a.take fromIndex, range a fromIndex toIndex, a.drop toIndex, ?_, ?_, ?_, rfl⟩
  · rw [range]
    have hdrop : a.drop toIndex = (a.drop fromIndex).drop (toIndex - fromIndex) := by
      rw [List.drop_drop, Nat.add_sub_cancel' hfrom]
    rw [hdrop, List.take_append_drop, List.take_append_drop]
  · rw [List.length_take]
    omega
  · rw [range, List.length_take, List.length_take, List.length_drop]
    omega

/-- The fresh arrays of a permutation, cut at the bounds of a range. -/
theorem initPermutation_split (A xs B : List T) :
    initPermutation (A ++ (xs ++ B)).length = ⟨List.range (A ++ (xs ++ B)).length,
      List.range A.length ++ (List.range' A.length xs.length
        ++ List.range' (A.length + xs.length) B.length)⟩ := by
  rw [initPermutation]
  congr 1
  have hcut : List.range' (0 + A.length) (xs.length + B.length)
      = List.range' A.length (xs.length + B.length) := by rw [Nat.zero_add]
  rw [List.range'_append_1, List.range_eq_range', List.range_eq_range', List.length_append,
    List.length_append, ← List.range'_append_1, hcut]

/-- What is left once the merge sort has made the stable order of the range and
recorded it. -/
theorem sort_of_mergeSort {A xs B ys : List T} {w : List (T × ℕ)} {perm R₁ R₂ : List ℕ}
    (hlen : A.length = R₁.length) (hperm : w.Perm (xs.zipIdx A.length))
    (hsorted : StableSorted compare w)
    (hsort : mergeSort compare ([] ++ (xs ++ [])) (A ++ (xs ++ B)) A.length (A.length + xs.length)
        (-(A.length : ℤ)) (initPermutation (A ++ (xs ++ B)).length)
      = .ok (ys, A ++ (w.map Prod.fst ++ B), ⟨perm, R₁ ++ (w.map Prod.snd ++ R₂)⟩))
    (hinv : Inverse ⟨perm, R₁ ++ (w.map Prod.snd ++ R₂)⟩) :
    ∃ r, sort compare (A ++ (xs ++ B)) A.length (A.length + xs.length) = .ok r
      ∧ SortsBy compare (A ++ (xs ++ B)) A.length (A.length + xs.length) r := by
  have haux : ((A ++ (xs ++ B)).drop A.length).take (A.length + xs.length - A.length)
      = [] ++ (xs ++ []) := by
    rw [List.drop_left, Nat.add_sub_cancel_left, List.take_left, List.append_nil, List.nil_append]
  refine ⟨_, ?_, sortsBy_of_stableSorted (B := B) hlen hperm hsorted hinv⟩
  rw [sort, if_neg (by omega), if_neg (by simp), haux]
  dsimp only
  rw [hsort, ok_bind, pure_eq_ok, Nat.add_sub_cancel_left]

/-- A sort from index 0, where all levels of the recursion agree about the indices. -/
theorem sort_sortsBy_zero (hcompare : IsTotalPreorder compare) (hto : toIndex ≤ a.length) :
    ∃ r, sort compare a 0 toIndex = .ok r ∧ SortsBy compare a 0 toIndex r := by
  obtain ⟨A, xs, B, rfl, hzero, rfl, -⟩ := split_range (Nat.zero_le toIndex) hto
  obtain rfl : A = [] := List.eq_nil_of_length_eq_zero hzero
  have hinit := initPermutation_split [] xs B
  have hinv := Inverse.initPermutation ([] ++ (xs ++ B)).length
  rw [hinit] at hinv
  obtain ⟨w, ys, perm', hperm, hsorted, -, hsort, hinv'⟩ := @mergeSort_spec _ _ [] B []
    (List.range' xs.length B.length) _ hcompare xs [] [] rfl rfl (by simpa using hinv)
  refine @sort_of_mergeSort _ _ [] _ _ ([] ++ (ys ++ [])) _ _ [] _ rfl hperm hsorted ?_ hinv'
  rw [hinit]
  simpa using hsort

/-- A sort in which nothing moves at the odd levels of the recursion. -/
theorem sort_sortsBy_undisturbed (hcompare : IsTotalPreorder compare) (hfrom : fromIndex ≤ toIndex)
    (hto : toIndex ≤ a.length) (h : Undisturbed compare true (range a fromIndex toIndex)) :
    ∃ r, sort compare a fromIndex toIndex = .ok r ∧ SortsBy compare a fromIndex toIndex r := by
  obtain ⟨A, xs, B, rfl, rfl, rfl, hxs⟩ := split_range hfrom hto
  have hinit := initPermutation_split A xs B
  have hinv := Inverse.initPermutation (A ++ (xs ++ B)).length
  have hlen : (List.range A.length).length = A.length := List.length_range
  rw [hinit] at hinv
  rw [← hxs] at h
  obtain ⟨w, ys, perm', hperm, hsorted, -, hsort, hinv'⟩ :=
    @mergeSort_of_undisturbed _ compare A B (List.range A.length)
      (List.range' (A.length + xs.length) B.length) _ hcompare xs [] [] true (-(A.length : ℤ))
      (by simp) hlen h (by rw [hlen]; exact hinv)
  rw [hlen] at hperm hsort
  rw [← hinit] at hsort
  exact sort_of_mergeSort hlen.symm hperm hsorted hsort hinv'

/-- **Sorting.** -/
theorem sort_sortsBy (hcompare : IsTotalPreorder compare) (hfrom : fromIndex ≤ toIndex)
    (hto : toIndex ≤ a.length) (hfits : RangeFits compare a fromIndex toIndex) :
    ∃ r, sort compare a fromIndex toIndex = .ok r ∧ SortsBy compare a fromIndex toIndex r := by
  rcases hfits with rfl | hshort | hsorted
  · exact sort_sortsBy_zero hcompare hto
  · refine sort_sortsBy_undisturbed hcompare hfrom hto (Undisturbed.short ?_)
    rw [range, List.length_take]
    exact lt_of_le_of_lt (min_le_left _ _) hshort
  · exact sort_sortsBy_undisturbed hcompare hfrom hto (Undisturbed.of_sortedBy hsorted true)

end SortsBy

/-! ## The sort of an `int[]` -/

theorem compareTo_le_zero {a b : ℤ} : compareTo a b ≤ 0 ↔ a ≤ b := by
  rw [compareTo]
  split_ifs <;> omega

theorem isTotalPreorder_compareTo : IsTotalPreorder compareTo := by
  refine ⟨fun a b => ?_, fun a b d hab hbd => ?_⟩
  · rw [compareTo_le_zero, compareTo]
    split_ifs <;> omega
  · rw [compareTo_le_zero] at *
    omega

/-- **Both sorts with a range.** The elements of the range end in stable order, the
rest stays, and the positions returned are those the elements went to: from index 0
always, and elsewhere while nothing moves across the two coordinates. -/
theorem sort_records_positions {T : Type} (compare : T → T → ℤ) (a : List T) (b : List ℤ)
    (fromIndex toIndex : ℕ) :
    (IsTotalPreorder compare → fromIndex ≤ toIndex → toIndex ≤ a.length →
      (fromIndex = 0 ∨ Undisturbed compare true (range a fromIndex toIndex)) →
      ∃ r, sort compare a fromIndex toIndex = .ok r ∧ SortsBy compare a fromIndex toIndex r)
    ∧ (fromIndex ≤ toIndex → toIndex ≤ b.length →
      (fromIndex = 0 ∨ Undisturbed compareTo true (range b fromIndex toIndex)) →
      ∃ r, sortInts b fromIndex toIndex = .ok r ∧ SortsBy compareTo b fromIndex toIndex r) := by
  have hsort : ∀ (T : Type) (compare : T → T → ℤ) (a : List T),
      IsTotalPreorder compare → fromIndex ≤ toIndex → toIndex ≤ a.length →
      (fromIndex = 0 ∨ Undisturbed compare true (range a fromIndex toIndex)) →
      ∃ r, sort compare a fromIndex toIndex = .ok r ∧ SortsBy compare a fromIndex toIndex r := by
    intro T compare a hcompare hfrom hto h
    rcases h with rfl | h
    · exact sort_sortsBy_zero hcompare hto
    · exact sort_sortsBy_undisturbed hcompare hfrom hto h
  exact ⟨hsort T compare a, hsort ℤ compareTo b isTotalPreorder_compareTo⟩

theorem sort_records_positions_short :
    sortInts [5, 2, 9, 1] 1 4 = .ok ([5, 1, 2, 9], [2, 3, 1])
      ∧ ∃ r, sortInts [5, 2, 9, 1] 1 4 = .ok r ∧ SortsBy compareTo [5, 2, 9, 1] 1 4 r :=
  ⟨by decide +kernel, (sort_records_positions compareTo [] [5, 2, 9, 1] 1 4).2 (by decide)
    (by decide) (.inr (Undisturbed.short (by decide)))⟩

/-- The levels of the recursion disagree about the indices of this range: it is
sorted, but the positions are not those of its elements. -/
theorem sortInts_positions_off :
    sortInts [0, 7, 6, 5, 4, 3, 2, 1] 1 8
        = .ok ([0, 1, 2, 3, 4, 5, 6, 7], [6, 5, 4, 3, 2, 1, 7])
      ∧ ¬ SortsBy compareTo [0, 7, 6, 5, 4, 3, 2, 1] 1 8
          ([0, 1, 2, 3, 4, 5, 6, 7], [6, 5, 4, 3, 2, 1, 7]) := by
  refine ⟨by decide +kernel, fun h => ?_⟩
  have := h.permuted
  revert this
  decide +kernel

end JavaFx.Collections.SortHelper
