/-
Permutations of the source, the list without a comparator, and the way back to the
order of the source.

With a comparator the loop of `updatePermutationIndexes` asks the change for the new
index of every element. That is right for a permutation of the whole source and throws
for any other (`updatePermutationIndexes_spec`, `updatePermutationIndexes_throws`).
Without one, the arrays are those of the source at any time (`InOrder`).

Going back to the order of the source follows the cycles of the permutation. Every
exchange puts one more element at its place, which is the measure of the loop
(`unplaced`); `perm` is only right for the elements at their places while it runs
(`Scrambled`).
-/
import Mathlib
import JavaFx.Collections.SortedListSpec

set_option autoImplicit false

namespace JavaFx.Collections.SortedList

open JavaFx.Lib JavaFx.ListChange

variable {E : Type} {s : SortedList E} {source : List E} {i : ℕ} {perm : List ℕ}

/-! ## Permutations, with a comparator -/

/-- An element after a permutation of the whole source. -/
def moved (perm : List ℕ) (x : Element E) : Element E :=
  { x with index := (perm.getD x.index.toNat 0 : ℕ) }

theorem getPermutation_ok {k : ℕ} (hik : i ≤ k) (hk : k < i + perm.length) :
    getPermutation (.permuted i perm : SubChange E) k = .ok ((perm.getD (k - i) 0 : ℕ) : ℤ) := by
  have hne : perm ≠ [] := List.ne_nil_of_length_pos (by omega)
  have hlt : k - i < perm.length := by omega
  rw [getPermutation, SubChange.permuted_wasPermutated, if_pos (decide_eq_true hne),
    SubChange.permuted_permutation, SubChange.permuted_fromIdx, ← Nat.cast_sub hik,
    aget_ok (List.getElem?_eq_getElem hlt), ok_bind, pure_eq_ok, List.getD_eq_getElem _ _ hlt]

/-- Outside its range a permutation knows no new index. -/
theorem getPermutation_throws {k : ℕ} (hk : ¬ (i ≤ k ∧ k < i + perm.length)) :
    ∃ e, getPermutation (.permuted i perm : SubChange E) k = .error e := by
  rw [getPermutation]
  split_ifs
  · refine ⟨.indexOutOfBounds, ?_⟩
    rw [SubChange.permuted_permutation, SubChange.permuted_fromIdx, aget]
    split_ifs with hnonneg
    · rw [List.getElem?_eq_none (by omega)]
      rfl
    · rfl
  · exact ⟨_, rfl⟩

/-- **A permutation of the whole source**: every element keeps its place in the view and
has its new index. -/
theorem updatePermutationIndexes_spec (h : Maps s source)
    (hpermutes : PermutesRange 0 perm source.length) (hwhole : perm.length = source.length) :
    ∃ s', s.updatePermutationIndexes (.permuted 0 perm) = .ok s'
      ∧ s'.sorted = s.sorted.map (moved perm) ∧ s'.calls = s.calls
      ∧ s'.elementComparator = s.elementComparator
      ∧ Maps s' (permuteRange 0 perm source) := by
  have hindex : ∀ x ∈ s.sorted, ∃ k : ℕ, x.index = k ∧ k < perm.length
      ∧ source[k]? = some x.e := by
    intro x hx
    obtain ⟨j, hj⟩ := List.getElem?_of_mem hx
    obtain ⟨k, hk, hsource, -⟩ := h.element j x hj
    refine ⟨k, hk, ?_, hsource⟩
    rw [hwhole]
    exact (List.getElem?_eq_some_iff.mp hsource).1
  have htarget : ∀ p ∈ perm, p < source.length := by
    intro p hp
    have := hpermutes.2.mem_iff.mp hp
    rw [List.mem_range'_1] at this
    omega
  -- by induction on what the loop has still to read
  have hloop : ∀ (B A : List (Element E)) (q : List ℤ), s.sorted = A ++ B →
      q.length = source.length →
      run (fun (s : SortedList E) i => s.updatePermutationIndex (.permuted 0 perm) i)
        { s with sorted := A.map (moved perm) ++ B, perm := q } (List.range' A.length B.length)
      = .ok { s with
          sorted := (A ++ B).map (moved perm)
          perm := scatter q (backWrites (B.map (moved perm)) A.length) } := by
    intro B
    induction B with
    | nil =>
      intro A q _ _
      simp [backWrites]
    | cons x B ih =>
      intro A q hsplit hlen
      obtain ⟨k, hk, hklt, -⟩ := hindex x (by rw [hsplit]; simp)
      have hget := List.getD_eq_getElem perm 0 hklt
      have hmoved : moved perm x = { x with index := (perm.getD k 0 : ℕ) } := by
        rw [moved, hk, Int.toNat_natCast]
      have hlt : perm.getD k 0 < q.length := by
        rw [hlen, hget]
        exact htarget _ (List.getElem_mem hklt)
      have hA : A.length = (A.map (moved perm)).length := (List.length_map _).symm
      have hsub := @getPermutation_ok E 0 perm k (Nat.zero_le k)
        (by rwa [Nat.zero_add])
      rw [Nat.sub_zero] at hsub
      have hstep : updatePermutationIndex
          { s with sorted := A.map (moved perm) ++ x :: B, perm := q } (.permuted 0 perm) A.length
          = .ok { s with
              sorted := (A ++ [x]).map (moved perm) ++ B
              perm := q.set (perm.getD k 0) (A.length : ℤ) } := by
        rw [updatePermutationIndex]
        rw [aget_mid hA, throwing_ok, ok_bind, hk, hsub, throwing_ok, ok_bind, aset_mid _ hA,
          throwing_ok, ok_bind]
        dsimp only
        rw [aset_ok _ hlt, throwing_ok, ok_bind, pure_eq_ok, List.map_append,
          List.map_singleton, hmoved, List.append_assoc, List.singleton_append]
      rw [List.length_cons, List.range'_succ, run_cons_ok hstep]
      have hih := ih (A ++ [x]) (q.set (perm.getD k 0) (A.length : ℤ)) (by rw [hsplit]; simp)
        (by rw [List.length_set, hlen])
      rw [List.length_append, List.length_singleton] at hih
      rw [hih, backWrites, backWrites, List.map_cons, List.zipIdx_cons, List.map_cons,
        scatter_cons, hmoved, Int.toNat_natCast, ← List.append_cons]
  have hrun := hloop s.sorted [] s.perm rfl h.perm_length
  rw [List.map_nil, List.nil_append, List.length_nil, ← List.range_eq_range'] at hrun
  refine ⟨_, hrun, rfl, rfl, rfl, Maps.of_backWrites ?_ ?_ ?_ h.arrays ?_ (fun y hy => ?_)⟩
  · rw [List.length_map, h.size_eq, length_permuteRange hpermutes]
  · rw [h.perm_length, length_permuteRange hpermutes]
  · rw [length_permuteRange hpermutes]
    exact h.fits
  · -- distinct elements have distinct new indices
    rw [List.map_map]
    have hkeys : s.sorted.map ((fun x => x.index.toNat) ∘ moved perm)
        = (s.sorted.map (fun x => x.index.toNat)).map (fun k => perm.getD k 0) := by
      rw [List.map_map]
      rfl
    rw [hkeys]
    refine List.Nodup.map_on (fun k hk k' hk' heq => ?_) h.order.nodup
    rw [h.order.mem_iff, ← hwhole] at hk hk'
    rw [List.getD_eq_getElem _ _ hk, List.getD_eq_getElem _ _ hk'] at heq
    have hnodup : perm.Nodup := hpermutes.2.nodup_iff.mpr (List.nodup_range' _)
    exact (hnodup.getElem_inj_iff).mp heq
  · obtain ⟨x, hx, rfl⟩ := List.mem_map.mp hy
    obtain ⟨k, hk, hklt, hsource⟩ := hindex x hx
    refine ⟨perm.getD k 0, by rw [moved, hk, Int.toNat_natCast], ?_⟩
    rw [List.getD_eq_getElem _ _ hklt, getElem?_permuteRange_mid hpermutes hklt, Nat.zero_add,
      hsource]
    rfl

/-- A round writes the element it is about and `perm`. -/
theorem updatePermutationIndex_rest {c : SubChange E} {s' : SortedList E} {n m : ℕ}
    (h : s.updatePermutationIndex c n = .ok s') (hm : m ≠ n) : s'.sorted[m]? = s.sorted[m]? := by
  have hthrowing : ∀ {α : Type} {t : SortedList E} {y : Except Exn α} {a : α},
      t.throwing y = .ok a → y = .ok a := by
    intro α t y a hy
    cases y with
    | ok b => simpa using hy
    | error e => cases hy
  simp only [updatePermutationIndex, bind_eq_ok, pure_eq_ok, Except.ok.injEq] at h
  obtain ⟨x, -, p, -, sorted, hsorted, q, -, rfl⟩ := h
  have := hthrowing hsorted
  rw [aset] at this
  split_ifs at this with hn
  rw [Except.ok.injEq] at this
  rw [← this, Int.toNat_natCast]
  exact List.getElem?_set_ne (Ne.symm hm)

/-- **Any other permutation throws**, at the first element outside its range. -/
theorem updatePermutationIndexes_throws (h : Maps s source)
    (hpermutes : PermutesRange i perm source.length) (hne : source ≠ [])
    (hpart : ¬ (i = 0 ∧ perm.length = source.length)) :
    ∃ e, s.updatePermutationIndexes (.permuted i perm) = .error e := by
  have hlen := hpermutes.1
  have hpos : 0 < source.length := List.length_pos_of_ne_nil hne
  obtain ⟨k, hk, hout⟩ : ∃ k, k < source.length ∧ ¬ (i ≤ k ∧ k < i + perm.length) := by
    by_cases hi : i = 0
    · exact ⟨perm.length, by omega, by omega⟩
    · exact ⟨0, hpos, by omega⟩
  obtain ⟨j, x, -, hx, hxk, -⟩ := h.place hk
  have hj : j < s.size := (List.getElem?_eq_some_iff.mp hx).1
  obtain ⟨e, he⟩ := getPermutation_throws (E := E) hout
  -- what the loop has not reached is as it was
  have hrest : ∀ (n : ℕ) (s' : SortedList E),
      run (fun (s : SortedList E) i_1 => s.updatePermutationIndex (.permuted i perm) i_1) s
        (List.range n) = .ok s' → ∀ m, n ≤ m → s'.sorted[m]? = s.sorted[m]? := by
    intro n
    induction n with
    | zero =>
      intro s' hs' m _
      rw [List.range_zero, run_nil, Except.ok.injEq] at hs'
      rw [hs']
    | succ n ih =>
      intro s' hs' m hm
      rw [List.range_succ] at hs'
      cases hn : run (fun (s : SortedList E) i_1 => s.updatePermutationIndex (.permuted i perm) i_1)
          s (List.range n) with
      | error e => rw [run_append_error hn] at hs'; cases hs'
      | ok t =>
        rw [run_append_ok hn, run_singleton] at hs'
        rw [← ih t hn m (by omega)]
        exact updatePermutationIndex_rest hs' (by omega)
  have hsplit : List.range s.size = List.range j ++ List.range' j (s.size - j) := by
    rw [List.range_eq_range', List.range_eq_range']
    have hcut := List.range'_append_1 (s := 0) (m := j) (n := s.size - j)
    rw [Nat.zero_add, Nat.add_sub_cancel' hj.le] at hcut
    exact hcut.symm
  rw [updatePermutationIndexes, hsplit]
  cases hrun : run (fun (s : SortedList E) i_1 => s.updatePermutationIndex (.permuted i perm) i_1)
      s (List.range j) with
  | error e => exact ⟨e, run_append_error hrun⟩
  | ok t =>
    have hxt : t.sorted[j]? = some x := (hrest j t hrun j (le_refl j)).trans hx
    have hthrow : t.updatePermutationIndex (.permuted i perm) j = .error (e, t) := by
      rw [updatePermutationIndex, aget_ok hxt, throwing_ok, ok_bind, hxk, he]
      rfl
    obtain ⟨m, hm⟩ : ∃ m, s.size - j = m + 1 := ⟨s.size - j - 1, by omega⟩
    refine ⟨(e, t), ?_⟩
    rw [run_append_ok hrun, hm, List.range'_succ, run, hthrow]

/-! ## Without a comparator -/

/-- The arrays are those of the source. -/
structure InOrder (s : SortedList E) (source : List E) : Prop where
  sorted : s.sorted = elements source 0
  perm : s.perm = indices 0 source.length
  fits : source.length ≤ s.arrayLength
  arrays : 0 < s.arrayLength

theorem elements_append (l r : List E) (n : ℕ) :
    elements (l ++ r) n = elements l n ++ elements r (n + l.length) := by
  rw [elements, List.zipIdx_append, List.map_append]
  rfl

theorem indices_append (n k m : ℕ) : indices n (k + m) = indices n k ++ indices (n + k) m := by
  rw [indices, ← List.range'_append_1, List.map_append]
  rfl

namespace InOrder

theorem maps (h : InOrder s source) : Maps s source := by
  refine ⟨by rw [h.sorted, length_elements], by rw [h.perm, length_indices], h.fits, h.arrays,
    fun j x hx => ?_⟩
  rw [h.sorted] at hx
  obtain ⟨e, he, rfl⟩ := getElem?_elements.mp hx
  have hj : j < source.length := (List.getElem?_eq_some_iff.mp he).1
  refine ⟨0 + j, rfl, by rwa [Nat.zero_add], ?_⟩
  rw [h.perm, Nat.zero_add, getElem?_indices hj, Nat.zero_add]

theorem view_eq (h : InOrder s source) : s.view = source := by
  rw [view, h.sorted, map_e_elements]

theorem new (source : List E) : InOrder (SortedList.new source) source :=
  ⟨rfl, rfl, by simp only [SortedList.new]; omega, by simp only [SortedList.new]; omega⟩

/-- Arrays in which every element stands at its index are those of the source. -/
theorem of_maps (h : Maps s source) (hfixed : ∀ (j : ℕ) x, s.sorted[j]? = some x → x.index = j) :
    InOrder s source := by
  have hplace : ∀ j (hj : j < source.length), ∃ x, s.sorted[j]? = some x ∧ x.index = j
      ∧ source[j]? = some x.e ∧ s.perm[j]? = some (j : ℤ) := by
    intro j hj
    have hjs : j < s.sorted.length := by rwa [h.size_eq]
    have hx := List.getElem?_eq_getElem hjs
    obtain ⟨k, hk, hsource, hperm⟩ := h.element j _ hx
    have hkj := hk.symm.trans (hfixed j _ hx)
    obtain rfl : k = j := by exact_mod_cast hkj
    exact ⟨_, hx, hk, hsource, hperm⟩
  refine ⟨List.ext_getElem? (fun j => ?_), List.ext_getElem? (fun j => ?_), h.fits, h.arrays⟩
  · by_cases hj : j < source.length
    · obtain ⟨x, hx, hxj, hsource, -⟩ := hplace j hj
      rw [hx, eq_comm, getElem?_elements]
      refine ⟨x.e, hsource, ?_⟩
      rw [Nat.zero_add, ← hxj]
    · rw [List.getElem?_eq_none (by rw [h.size_eq]; omega),
        List.getElem?_eq_none (by rw [length_elements]; omega)]
  · by_cases hj : j < source.length
    · obtain ⟨x, -, -, -, hperm⟩ := hplace j hj
      rw [hperm, getElem?_indices hj, Nat.zero_add]
    · rw [List.getElem?_eq_none (by rw [h.perm_length]; omega),
        List.getElem?_eq_none (by rw [length_indices]; omega)]

end InOrder

/-- The write for the element `e` of the source at `j`, which moves to `ts[j]`. -/
def placed (ts : List ℕ) (j : ℕ) (e : E) : ℕ × Option (Element E) :=
  (ts.getD j 0, some ⟨e, (ts.getD j 0 : ℕ)⟩)

/-- **A permutation of any range.** -/
theorem permuteUnsorted_spec (h : InOrder s source)
    (hpermutes : PermutesRange i perm source.length) :
    ∃ s', s.permuteUnsorted (.permuted i perm) = .ok s' ∧ InOrder s' (permuteRange i perm source)
      ∧ s'.elementComparator = s.elementComparator := by
  have htargets := isPermutation_rangeTargets hpermutes
  have hlen := rangeTargets_length hpermutes
  have hsize : s.size = source.length := h.maps.size_eq
  -- the writes to `sortedTmp`, by the target of each element
  have hloop : ∀ (js : List ℕ) (tmp : List (Option (Element E))),
      (∀ j ∈ js, j < source.length) → tmp.length = source.length →
      ∃ writes : List (ℕ × Option (Element E)),
        writes.map Prod.fst = js.map (fun j => (rangeTargets i perm source.length).getD j 0)
        ∧ (∀ j ∈ js, ∀ e, source[j]? = some e →
            placed (rangeTargets i perm source.length) j e ∈ writes)
        ∧ run (permuteUnsortedAt (.permuted i perm)) (tmp, s) js = .ok (scatter tmp writes, s) := by
    intro js
    induction js with
    | nil =>
      intro tmp _ _
      exact ⟨[], rfl, fun j hj => absurd hj (by simp), rfl⟩
    | cons j js ih =>
      intro tmp hjs htmp
      have hj := hjs j List.mem_cons_self
      have hjt : j < (rangeTargets i perm source.length).length := by rwa [hlen]
      have hlt := htargets.lt hjt
      have hread : s.sorted[j]? = some ⟨source[j], (j : ℤ)⟩ := by
        rw [h.sorted, getElem?_elements]
        exact ⟨_, List.getElem?_eq_getElem hj, by rw [Nat.zero_add]⟩
      have hperm : s.perm[j]? = some (j : ℤ) := by
        rw [h.perm, getElem?_indices hj, Nat.zero_add]
      have hpermlt : j < s.perm.length := (List.getElem?_eq_some_iff.mp hperm).1
      have hset : s.perm.set j (j : ℤ) = s.perm := by
        rw [List.getElem?_eq_getElem hpermlt, Option.some_inj] at hperm
        rw [← hperm]
        exact List.set_getElem_self hpermlt
      have hstep : permuteUnsortedAt (.permuted i perm) (tmp, s) j
          = .ok (tmp.set (placed (rangeTargets i perm source.length) j source[j]).1
              (placed (rangeTargets i perm source.length) j source[j]).2, s) := by
        rw [placed, List.getD_eq_getElem _ _ hjt]
        rw [permuteUnsortedAt]
        dsimp only
        rw [aget_ok hread, throwing_ok, ok_bind, SubChange.permuted_fromIdx,
          SubChange.permuted_toIdx]
        by_cases hin : i ≤ j ∧ j < i + perm.length
        · obtain ⟨k, rfl⟩ : ∃ k, j = i + k := ⟨j - i, by omega⟩
          have hk : k < perm.length := by omega
          rw [getElem_rangeTargets_mid hk hjt] at hlt ⊢
          rw [if_pos hin, getPermutation_ok hin.1 hin.2, throwing_ok, ok_bind,
            Nat.add_sub_cancel_left, List.getD_eq_getElem _ _ hk, aset_ok _ (by rwa [htmp]),
            throwing_ok, ok_bind, aset_ok _ hpermlt, throwing_ok, ok_bind, pure_eq_ok, hset]
        · have hself : (rangeTargets i perm source.length)[j] = j := by
            by_cases hjlt : j < i
            · exact getElem_rangeTargets_left hjlt hjt
            · exact getElem_rangeTargets_right (by omega) hjt
          rw [hself] at hlt ⊢
          rw [if_neg hin, aset_ok _ (by rwa [htmp]), throwing_ok, ok_bind, pure_eq_ok]
      obtain ⟨writes, hfst, hmem, hrun⟩ := ih
        (tmp.set (placed (rangeTargets i perm source.length) j source[j]).1
          (placed (rangeTargets i perm source.length) j source[j]).2)
        (fun m hm => hjs m (List.mem_cons_of_mem _ hm)) (by rw [List.length_set, htmp])
      refine ⟨placed (rangeTargets i perm source.length) j source[j] :: writes, ?_, ?_, ?_⟩
      · rw [List.map_cons, List.map_cons, hfst, placed]
      · intro m hm e he
        rcases List.mem_cons.mp hm with rfl | hm
        · rw [List.getElem?_eq_getElem hj, Option.some_inj] at he
          rw [he]
          exact List.mem_cons_self
        · exact List.mem_cons_of_mem _ (hmem m hm e he)
      · rw [run_cons_ok hstep, hrun, scatter_cons]
  obtain ⟨writes, hfst, hmem, hrun⟩ := hloop (List.range source.length)
    (List.replicate source.length none) (fun j hj => List.mem_range.mp hj) List.length_replicate
  have hkeys : (List.range source.length).map (fun j => (rangeTargets i perm source.length).getD j 0)
      = rangeTargets i perm source.length := by
    refine List.ext_getElem (by rw [List.length_map, List.length_range, hlen]) (fun j hj hj' => ?_)
    rw [List.getElem_map, List.getElem_range, List.getD_eq_getElem _ _ hj']
  rw [hkeys] at hfst
  have htmp : scatter (List.replicate source.length none) writes
      = (elements (permuteRange i perm source) 0).map some := by
    refine List.ext_getElem? (fun k => ?_)
    by_cases hk : k < source.length
    · obtain ⟨j, hj, rfl⟩ := List.getElem_of_mem (htargets.mem_iff.mpr hk)
      have hjs : j < source.length := by rwa [hlen] at hj
      have hwrite := hmem j (List.mem_range.mpr hjs) _ (List.getElem?_eq_getElem hjs)
      rw [placed, List.getD_eq_getElem _ _ hj] at hwrite
      have hscatter := getElem?_scatter_of_mem (l := List.replicate source.length none)
        (by rw [hfst]; exact htargets.nodup) hwrite (by rw [List.length_replicate]; exact hk)
      rw [hscatter, List.getElem?_map, eq_comm, Option.map_eq_some_iff]
      refine ⟨⟨source[j], ((rangeTargets i perm source.length)[j] : ℕ)⟩,
        getElem?_elements.mpr ⟨source[j], ?_, by rw [Nat.zero_add]⟩, rfl⟩
      rw [permuteRange, getElem?_permuteBy_target htargets hj, List.getElem?_eq_getElem hjs]
    · rw [List.getElem?_eq_none (by rw [length_scatter, List.length_replicate]; omega),
        List.getElem?_eq_none (by rw [List.length_map, length_elements,
          length_permuteRange hpermutes]; omega)]
  refine ⟨{ s with sorted := elements (permuteRange i perm source) 0 }, ?_,
    ⟨rfl, by rw [length_permuteRange hpermutes]; exact h.perm,
      by rw [length_permuteRange hpermutes]; exact h.fits, h.arrays⟩, rfl⟩
  · rw [permuteUnsorted, hsize, hrun, ok_bind, pure_eq_ok, htmp, List.reduceOption,
      List.filterMap_map]
    simp

/-- Indices from `n` on shifted by `d`, where the shift begins at `n` or in front of it. -/
theorem shift_elements {l : List E} {n m : ℕ} {fromIdx d : ℤ} (hfrom : fromIdx ≤ n)
    (hm : (n : ℤ) + d = m) :
    (elements l n).map (fun x => if fromIdx ≤ x.index then { x with index := x.index + d } else x)
      = elements l m := by
  refine List.ext_getElem? (fun j => ?_)
  rw [List.getElem?_map, elements, elements, List.getElem?_map, List.getElem?_map,
    List.getElem?_zipIdx, List.getElem?_zipIdx]
  cases l[j]? with
  | none => rfl
  | some e =>
    have hle : fromIdx ≤ ((n + j : ℕ) : ℤ) := by omega
    have hadd : ((n + j : ℕ) : ℤ) + d = ((m + j : ℕ) : ℤ) := by omega
    simp only [Option.map_some, hadd, if_pos hle]

/-- Indices below the shift stay. -/
theorem keep_elements {l : List E} {n : ℕ} {fromIdx d : ℤ} (hfrom : (n + l.length : ℕ) ≤ fromIdx) :
    (elements l n).map (fun x => if fromIdx ≤ x.index then { x with index := x.index + d } else x)
      = elements l n := by
  refine List.ext_getElem? (fun j => ?_)
  rw [List.getElem?_map]
  cases hj : (elements l n)[j]? with
  | none => rfl
  | some x =>
    obtain ⟨e, he, rfl⟩ := getElem?_elements.mp hj
    have hlt : j < l.length := (List.getElem?_eq_some_iff.mp he).1
    have hnot : ¬ fromIdx ≤ ((n + j : ℕ) : ℤ) := by omega
    simp only [Option.map_some, if_neg hnot]

theorem shift_indices {k n m : ℕ} {fromIdx d : ℤ} (hfrom : fromIdx ≤ n) (hm : (n : ℤ) + d = m) :
    (indices n k).map (fun p => if fromIdx ≤ p then p + d else p) = indices m k := by
  refine List.ext_getElem? (fun j => ?_)
  rw [List.getElem?_map]
  by_cases hj : j < k
  · have hle : fromIdx ≤ ((n + j : ℕ) : ℤ) := by omega
    have hadd : ((n + j : ℕ) : ℤ) + d = ((m + j : ℕ) : ℤ) := by omega
    rw [getElem?_indices hj, getElem?_indices hj, Option.map_some, if_pos hle, hadd]
  · rw [List.getElem?_eq_none (by rw [length_indices]; omega),
      List.getElem?_eq_none (by rw [length_indices]; omega)]
    rfl

theorem keep_indices {k n : ℕ} {fromIdx d : ℤ} (hfrom : (n + k : ℕ) ≤ fromIdx) :
    (indices n k).map (fun p => if fromIdx ≤ p then p + d else p) = indices n k := by
  refine List.ext_getElem? (fun j => ?_)
  rw [List.getElem?_map]
  by_cases hj : j < k
  · have hnot : ¬ fromIdx ≤ ((n + j : ℕ) : ℤ) := by omega
    rw [getElem?_indices hj, Option.map_some, if_neg hnot]
  · rw [List.getElem?_eq_none (by rw [length_indices]; omega)]
    rfl

/-- Elements of the source are removed. -/
theorem removeUnsorted_spec (L R rest : List E) {b : ℕ} (h : InOrder s (L ++ (R ++ rest))) :
    ∃ s', s.removeUnsorted (.addRemove L.length b R) = .ok s' ∧ InOrder s' (L ++ rest)
      ∧ s'.elementComparator = s.elementComparator := by
  have hsize := h.maps.size_eq
  have hsorted : s.sorted = elements L 0
      ++ (elements R L.length ++ elements rest (L.length + R.length)) := by
    rw [h.sorted, elements_append, elements_append, Nat.zero_add]
  have hperm : s.perm = indices 0 L.length
      ++ (indices L.length R.length ++ indices (L.length + R.length) rest.length) := by
    rw [h.perm, List.length_append, List.length_append, indices_append, indices_append,
      Nat.zero_add]
  have hdrop : s.sorted.drop (L.length + R.length) = elements rest (L.length + R.length) := by
    rw [hsorted, ← List.append_assoc, List.drop_left' (by simp)]
  have htake : s.sorted.take L.length = elements L 0 := by
    rw [hsorted, List.take_left' (by simp)]
  have hdrop' : s.perm.drop (L.length + R.length)
      = indices (L.length + R.length) rest.length := by
    rw [hperm, ← List.append_assoc, List.drop_left' (by simp)]
  have htake' : s.perm.take L.length = indices 0 L.length := by
    rw [hperm, List.take_left' (by simp)]
  have hfits := h.fits
  simp only [List.length_append] at hsize hfits
  refine ⟨updateIndices { s with
      sorted := elements L 0 ++ elements rest (L.length + R.length)
      perm := indices 0 L.length ++ indices (L.length + R.length) rest.length }
      (L.length + R.length : ℕ) (L.length + R.length : ℕ) (-(R.length : ℤ)), ?_, ?_, rfl⟩
  · rw [removeUnsorted, SubChange.addRemove_fromIdx, SubChange.addRemove_removedSize]
    dsimp only
    rw [if_neg (by rw [size]; omega), htake, hdrop, htake', hdrop']
  · refine ⟨?_, ?_, ?_, h.arrays⟩
    · rw [updateIndices, List.map_append, keep_elements (by simp),
        shift_elements (m := L.length) (le_refl _) (by omega), elements_append, Nat.zero_add]
    · rw [updateIndices]
      dsimp only
      rw [List.map_append, keep_indices (by simp),
        shift_indices (m := L.length) (le_refl _) (by omega), List.length_append, indices_append,
        Nat.zero_add]
    · simp only [updateIndices, List.length_append]
      omega

/-- Elements of the source are added. -/
theorem addUnsorted_spec (L A rest rest' R : List E) (hA : A ≠ []) (h : InOrder s (L ++ rest)) :
    ∃ s', s.addUnsorted (L ++ (A ++ rest')) (.addRemove L.length (L.length + A.length) R) = .ok s'
      ∧ InOrder s' (L ++ (A ++ rest)) ∧ s'.elementComparator = s.elementComparator := by
  have hpos := List.length_pos_of_ne_nil hA
  have hadded : (SubChange.addRemove L.length (L.length + A.length) R).addedSize = A.length := by
    rw [SubChange.addedSize, SubChange.addRemove_wasAdded, if_pos (decide_eq_true (by omega)),
      SubChange.addRemove_toIdx, SubChange.addRemove_fromIdx, Nat.add_sub_cancel_left]
  have hsize : s.size = (L ++ rest).length := h.maps.size_eq
  obtain ⟨-, hfits, hsorted, hperm, -, hcomparator⟩ := h.maps.ensureSize (s.size + A.length)
  rw [addUnsorted, hadded]
  generalize s.ensureSize (s.size + A.length) = t at hfits hsorted hperm hcomparator ⊢
  rw [hsize, List.length_append] at hfits
  have htsorted : (t.updateIndices L.length L.length A.length).sorted
      = elements L 0 ++ elements rest (L.length + A.length) := by
    rw [updateIndices, hsorted, h.sorted, elements_append, List.map_append, keep_elements (by simp),
      shift_elements (m := L.length + A.length) (by simp) (by omega)]
  have htperm : (t.updateIndices L.length L.length A.length).perm
      = indices 0 L.length ++ indices (L.length + A.length) rest.length := by
    rw [updateIndices, hperm, h.perm, List.length_append, indices_append, List.map_append,
      keep_indices (by simp), shift_indices (m := L.length + A.length) (by simp) (by omega)]
  have hlist : ((L ++ (A ++ rest')).take (L.length + A.length)).drop L.length = A := by
    rw [← List.append_assoc, ← List.length_append, List.take_left, List.drop_left]
  have hguard : ¬ ((t.updateIndices L.length L.length A.length).size < L.length
      ∨ (L ++ (A ++ rest')).length < L.length + A.length) := by
    rw [size, htsorted]
    simp only [List.length_append, length_elements]
    omega
  refine ⟨_, if_neg hguard, ⟨?_, ?_, ?_, ?_⟩, hcomparator⟩
  · dsimp only [SubChange.addRemove_fromIdx, SubChange.addRemove_toIdx]
    rw [hlist, htsorted, List.take_left' (by simp), List.drop_left' (by simp), elements_append,
      elements_append, Nat.zero_add]
  · dsimp only [SubChange.addRemove_fromIdx, SubChange.addRemove_toIdx]
    rw [hlist, htperm, List.take_left' (by simp), List.drop_left' (by simp), List.length_append,
      List.length_append, indices_append, indices_append, Nat.zero_add]
  · simp only [updateIndices, List.length_append]
    omega
  · simp only [updateIndices]
    omega

/-- **An add/remove sub-change** without a comparator. -/
theorem updateUnsorted_addRemove_spec (L R A rest rest' : List E)
    (h : InOrder s (L ++ (R ++ rest))) :
    ∃ s', s.updateUnsorted (L ++ (A ++ rest'))
        (.addRemove L.length (L.length + A.length) R) = .ok s'
      ∧ InOrder s' (L ++ (A ++ rest)) ∧ s'.elementComparator = s.elementComparator := by
  obtain ⟨s₁, hremove, h₁, hcomparator₁⟩ : ∃ s₁,
      (if (SubChange.addRemove L.length (L.length + A.length) R).wasRemoved
        then s.removeUnsorted (.addRemove L.length (L.length + A.length) R) else .ok s) = .ok s₁
      ∧ InOrder s₁ (L ++ rest) ∧ s₁.elementComparator = s.elementComparator := by
    rw [SubChange.addRemove_wasRemoved]
    cases R with
    | nil => exact ⟨s, rfl, h, rfl⟩
    | cons r R => exact removeUnsorted_spec L (r :: R) rest h
  rw [updateUnsorted, SubChange.addRemove_wasPermutated, if_neg Bool.false_ne_true, ok_bind,
    hremove, ok_bind, SubChange.addRemove_wasAdded]
  by_cases hA : A = []
  · subst hA
    refine ⟨s₁, if_neg (by simp), ?_, hcomparator₁⟩
    rwa [List.nil_append]
  · have hpos := List.length_pos_of_ne_nil hA
    obtain ⟨s₂, hadd, h₂, hcomparator₂⟩ := addUnsorted_spec L A rest rest' R hA h₁
    refine ⟨s₂, ?_, h₂, hcomparator₂.trans hcomparator₁⟩
    rw [if_pos (decide_eq_true (by omega))]
    exact hadd

end JavaFx.Collections.SortedList
