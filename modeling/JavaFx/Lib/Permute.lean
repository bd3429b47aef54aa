/-
Permuting a list by an array of target positions.

A permutation array `ts` says where each element goes: the one at `j` moves to
`ts[j]`. `permuteBy ts l` is the list afterwards. All that is ever used of it is
that it is the only list with the element `l[j]` at `ts[j]` for every `j`
(`eq_permuteBy`); maps, compositions and identities follow from that.

`scatter` writes values to positions one after the other, which is how code
builds such a list, and builds `permuteBy` when the positions are a permutation.
-/
import JavaFx.Lib.Java
import Mathlib.Data.List.GetD
import Mathlib.Data.List.Perm.Basic

set_option autoImplicit false

namespace JavaFx.Lib

variable {α β : Type}

/-- The list in which the element `l[j]` stands at `ts[j]`. -/
def permuteBy (ts : List ℕ) (l : List α) : List α :=
  (List.range l.length).filterMap (fun k => l[ts.idxOf k]?)

section PermuteBy

variable {ts us : List ℕ} {l r : List α}

/-- The positions are those of a list of length `n`, each once. -/
def IsPermutation (ts : List ℕ) (n : ℕ) : Prop := ts.Perm (List.range n)

theorem IsPermutation.length {n : ℕ} (h : IsPermutation ts n) : ts.length = n := by
  rw [List.Perm.length_eq h, List.length_range]

theorem IsPermutation.nodup {n : ℕ} (h : IsPermutation ts n) : ts.Nodup :=
  (List.Perm.nodup_iff h).mpr List.nodup_range

theorem IsPermutation.mem_iff {n k : ℕ} (h : IsPermutation ts n) : k ∈ ts ↔ k < n := by
  rw [List.Perm.mem_iff h, List.mem_range]

theorem IsPermutation.lt {n j : ℕ} (h : IsPermutation ts n) (hj : j < ts.length) : ts[j] < n :=
  h.mem_iff.mp (List.getElem_mem hj)

theorem IsPermutation.of_nodup {n : ℕ} (hnodup : ts.Nodup) (hlen : ts.length = n)
    (hlt : ∀ k ∈ ts, k < n) : IsPermutation ts n := by
  refine (List.subperm_of_subset hnodup (fun k hk => ?_)).perm_of_length_le ?_
  · exact List.mem_range.mpr (hlt k hk)
  · rw [List.length_range, hlen]

theorem idxOf_lt {n k : ℕ} (h : IsPermutation ts n) (hk : k < n) : ts.idxOf k < n := by
  rw [← h.length]
  exact List.idxOf_lt_length_of_mem (h.mem_iff.mpr hk)

theorem permuteBy_eq_map (h : IsPermutation ts l.length) :
    (permuteBy ts l).map some = (List.range l.length).map (fun k => l[ts.idxOf k]?) := by
  rw [permuteBy]
  have hsome : ∀ k ∈ List.range l.length, ∃ x, l[ts.idxOf k]? = some x := by
    intro k hk
    have := idxOf_lt h (List.mem_range.mp hk)
    exact ⟨_, List.getElem?_eq_getElem this⟩
  generalize List.range l.length = ks at hsome
  induction ks with
  | nil => rfl
  | cons k ks ih =>
    obtain ⟨x, hx⟩ := hsome k List.mem_cons_self
    rw [List.filterMap_cons_some (f := fun k => l[ts.idxOf k]?) hx, List.map_cons,
      List.map_cons, hx, ih (fun j hj => hsome j (List.mem_cons_of_mem _ hj))]

@[simp] theorem length_permuteBy (h : IsPermutation ts l.length) :
    (permuteBy ts l).length = l.length := by
  simpa using congrArg List.length (permuteBy_eq_map h)

theorem getElem?_permuteBy (h : IsPermutation ts l.length) {k : ℕ} (hk : k < l.length) :
    (permuteBy ts l)[k]? = l[ts.idxOf k]? := by
  have hmap := congrArg (fun r => r[k]?) (permuteBy_eq_map h)
  simp only [List.getElem?_map, List.getElem?_range hk, Option.map_some] at hmap
  have hlt : k < (permuteBy ts l).length := by rwa [length_permuteBy h]
  rw [List.getElem?_eq_getElem hlt, Option.map_some, Option.some_inj] at hmap
  rw [List.getElem?_eq_getElem hlt, hmap]

/-- The element at `j` stands at `ts[j]` afterwards. -/
theorem getElem?_permuteBy_target (h : IsPermutation ts l.length) {j : ℕ} (hj : j < ts.length) :
    (permuteBy ts l)[ts[j]]? = l[j]? := by
  rw [getElem?_permuteBy h (h.lt hj), List.Nodup.idxOf_getElem h.nodup]

/-- **The permuted list is the one with every element at its target.** -/
theorem eq_permuteBy (h : IsPermutation ts l.length) (hlen : r.length = l.length)
    (htarget : ∀ j (hj : j < ts.length), r[ts[j]]? = l[j]?) : r = permuteBy ts l := by
  refine List.ext_getElem? (fun k => ?_)
  by_cases hk : k < l.length
  · have hidx : ts.idxOf k < ts.length := List.idxOf_lt_length_of_mem (h.mem_iff.mpr hk)
    have := htarget _ hidx
    rw [List.getElem_idxOf hidx] at this
    rw [this, getElem?_permuteBy h hk]
  · rw [List.getElem?_eq_none (by omega), List.getElem?_eq_none (by rw [length_permuteBy h]; omega)]

theorem permuteBy_map (f : α → β) (h : IsPermutation ts l.length) :
    permuteBy ts (l.map f) = (permuteBy ts l).map f := by
  refine (eq_permuteBy (by rwa [List.length_map]) (by simp [h]) (fun j hj => ?_)).symm
  rw [List.getElem?_map, getElem?_permuteBy_target h hj, List.getElem?_map]

theorem map_getElem?_range (l : List α) :
    (List.range l.length).map (fun j => l[j]?) = l.map some := by
  refine List.ext_getElem (by simp) (fun j hj _ => ?_)
  simp only [List.length_map, List.length_range] at hj
  rw [List.getElem_map, List.getElem_range, List.getElem_map, List.getElem?_eq_getElem hj]

theorem permuteBy_perm (h : IsPermutation ts l.length) : (permuteBy ts l).Perm l := by
  have hidx : ts.map (fun k => ts.idxOf k) = List.range l.length := by
    refine List.ext_getElem (by simp [h.length]) (fun j hj _ => ?_)
    simp only [List.length_map] at hj
    rw [List.getElem_map, List.Nodup.idxOf_getElem h.nodup, List.getElem_range]
  refine (List.map_perm_map_iff (Option.some_injective α)).mp ?_
  have hperm : ((permuteBy ts l).map some).Perm (ts.map (fun k => l[ts.idxOf k]?)) := by
    rw [permuteBy_eq_map h]
    exact (List.Perm.map _ h).symm
  have hself : ts.map (fun k => l[ts.idxOf k]?) = l.map some := by
    rw [← map_getElem?_range, ← hidx, List.map_map]
    rfl
  rwa [hself] at hperm

end PermuteBy

/-! ## Permuting a range -/

section Range

variable {i n : ℕ} {perm : List ℕ} {l : List α}

/-- The target positions of a list of length `n` in which only
`[i, i + perm.length)` is permuted: the element at `i + k` moves to `perm[k]`. -/
def rangeTargets (i : ℕ) (perm : List ℕ) (n : ℕ) : List ℕ :=
  List.range i ++ (perm ++ List.range' (i + perm.length) (n - (i + perm.length)))

/-- `perm` permutes the positions `[i, i + perm.length)` of a list of length `n`. -/
def PermutesRange (i : ℕ) (perm : List ℕ) (n : ℕ) : Prop :=
  i + perm.length ≤ n ∧ perm.Perm (List.range' i perm.length)

instance : Decidable (PermutesRange i perm n) :=
  inferInstanceAs (Decidable (i + perm.length ≤ n ∧ perm.Perm (List.range' i perm.length)))

/-- The list with the elements of `[i, i + perm.length)` permuted. -/
def permuteRange (i : ℕ) (perm : List ℕ) (l : List α) : List α :=
  permuteBy (rangeTargets i perm l.length) l

theorem isPermutation_rangeTargets (h : PermutesRange i perm n) :
    IsPermutation (rangeTargets i perm n) n := by
  have hrange : List.range n = List.range i
      ++ (List.range' i perm.length ++ List.range' (i + perm.length) (n - (i + perm.length))) := by
    rw [List.range_eq_range', List.range_eq_range', List.range'_append_1,
      show List.range' i (perm.length + (n - (i + perm.length)))
        = List.range' (0 + i) (perm.length + (n - (i + perm.length))) by rw [Nat.zero_add],
      List.range'_append_1]
    congr 1
    have := h.1
    omega
  rw [IsPermutation, hrange]
  exact (h.2.append_right _).append_left _

theorem rangeTargets_length (h : PermutesRange i perm n) :
    (rangeTargets i perm n).length = n := (isPermutation_rangeTargets h).length

theorem getElem_rangeTargets_left {j : ℕ} (hj : j < i) (hlt : j < (rangeTargets i perm n).length) :
    (rangeTargets i perm n)[j] = j := by
  simp only [rangeTargets]
  rw [List.getElem_append_left (by simpa using hj), List.getElem_range]

theorem getElem_rangeTargets_mid {k : ℕ} (hk : k < perm.length)
    (hlt : i + k < (rangeTargets i perm n).length) : (rangeTargets i perm n)[i + k] = perm[k] := by
  simp only [rangeTargets]
  rw [List.getElem_append_right (by simp), List.getElem_append_left (by simpa using hk)]
  simp

theorem getElem_rangeTargets_right {j : ℕ} (hj : i + perm.length ≤ j)
    (hlt : j < (rangeTargets i perm n).length) : (rangeTargets i perm n)[j] = j := by
  simp only [rangeTargets]
  rw [List.getElem_append_right (by simp; omega), List.getElem_append_right (by simp; omega),
    List.getElem_range']
  simp only [List.length_range]
  omega

@[simp] theorem length_permuteRange (h : PermutesRange i perm l.length) :
    (permuteRange i perm l).length = l.length :=
  length_permuteBy (isPermutation_rangeTargets h)

theorem getElem?_permuteRange_left (h : PermutesRange i perm l.length) {j : ℕ} (hj : j < i) :
    (permuteRange i perm l)[j]? = l[j]? := by
  have hlt : j < (rangeTargets i perm l.length).length := by
    rw [rangeTargets_length h]
    have := h.1
    omega
  have := getElem?_permuteBy_target (isPermutation_rangeTargets h) hlt
  rwa [getElem_rangeTargets_left hj hlt] at this

theorem getElem?_permuteRange_right (h : PermutesRange i perm l.length) {j : ℕ}
    (hj : i + perm.length ≤ j) : (permuteRange i perm l)[j]? = l[j]? := by
  by_cases hjl : j < l.length
  · have hlt : j < (rangeTargets i perm l.length).length := by rwa [rangeTargets_length h]
    have := getElem?_permuteBy_target (isPermutation_rangeTargets h) hlt
    rwa [getElem_rangeTargets_right hj hlt] at this
  · rw [List.getElem?_eq_none (by rw [length_permuteRange h]; omega),
      List.getElem?_eq_none (by omega)]

theorem getElem?_permuteRange_mid (h : PermutesRange i perm l.length) {k : ℕ}
    (hk : k < perm.length) : (permuteRange i perm l)[perm[k]]? = l[i + k]? := by
  have hlt : i + k < (rangeTargets i perm l.length).length := by
    rw [rangeTargets_length h]
    have := h.1
    omega
  have := getElem?_permuteBy_target (isPermutation_rangeTargets h) hlt
  rwa [getElem_rangeTargets_mid hk hlt] at this

theorem permuteRange_map (f : α → β) (h : PermutesRange i perm l.length) :
    permuteRange i perm (l.map f) = (permuteRange i perm l).map f := by
  rw [permuteRange, List.length_map, permuteBy_map f (isPermutation_rangeTargets h), permuteRange]

theorem permuteRange_perm (h : PermutesRange i perm l.length) :
    (permuteRange i perm l).Perm l := permuteBy_perm (isPermutation_rangeTargets h)

theorem PermutesRange.of_nodup (hnodup : perm.Nodup) (hlen : i + perm.length ≤ n)
    (hmem : ∀ k ∈ perm, i ≤ k ∧ k < i + perm.length) : PermutesRange i perm n := by
  refine ⟨hlen, (List.subperm_of_subset hnodup (fun k hk => ?_)).perm_of_length_le ?_⟩
  · exact List.mem_range'_1.mpr (hmem k hk)
  · rw [List.length_range']

/-- The permuted list is the one that is the same outside the range and has every
element of it at its target. -/
theorem eq_permuteRange {r : List α} (h : PermutesRange i perm l.length)
    (hlen : r.length = l.length)
    (hout : ∀ j, ¬ (i ≤ j ∧ j < i + perm.length) → r[j]? = l[j]?)
    (htarget : ∀ k (hk : k < perm.length), r[perm[k]]? = l[i + k]?) :
    r = permuteRange i perm l := by
  refine eq_permuteBy (isPermutation_rangeTargets h) hlen (fun j hj => ?_)
  by_cases hin : i ≤ j ∧ j < i + perm.length
  · obtain ⟨k, rfl⟩ : ∃ k, j = i + k := ⟨j - i, by omega⟩
    rw [getElem_rangeTargets_mid (by omega) hj]
    exact htarget k (by omega)
  · by_cases hlt : j < i
    · rw [getElem_rangeTargets_left hlt hj, hout j hin]
    · rw [getElem_rangeTargets_right (by omega) hj, hout j hin]

end Range

/-! ## Writing values to positions -/

section Scatter

variable {ps : List (ℕ × α)} {l : List α}

/-- The list after the writes `l[p.1] = p.2`, one after the other. -/
def scatter (l : List α) (ps : List (ℕ × α)) : List α := ps.foldl (fun r p => r.set p.1 p.2) l

@[simp] theorem scatter_nil : scatter l [] = l := rfl

@[simp] theorem scatter_cons (p : ℕ × α) : scatter l (p :: ps) = scatter (l.set p.1 p.2) ps := rfl

@[simp] theorem length_scatter : (scatter l ps).length = l.length := by
  induction ps generalizing l with
  | nil => rfl
  | cons p ps ih => rw [scatter_cons, ih, List.length_set]

/-- A position that is not written keeps its value. -/
theorem getElem?_scatter_of_notMem {k : ℕ} (hk : k ∉ ps.map Prod.fst) :
    (scatter l ps)[k]? = l[k]? := by
  induction ps generalizing l with
  | nil => rfl
  | cons p ps ih =>
    rw [List.map_cons, List.mem_cons, not_or] at hk
    rw [scatter_cons, ih hk.2, List.getElem?_set_ne (Ne.symm hk.1)]

/-- A position written once has the value written. -/
theorem getElem?_scatter_of_mem {p : ℕ × α} (hnodup : (ps.map Prod.fst).Nodup) (hp : p ∈ ps)
    (hlt : p.1 < l.length) : (scatter l ps)[p.1]? = some p.2 := by
  induction ps generalizing l with
  | nil => simp at hp
  | cons q ps ih =>
    rw [List.map_cons, List.nodup_cons] at hnodup
    rw [scatter_cons]
    rcases List.mem_cons.mp hp with rfl | hp
    · -- later writes go elsewhere
      rw [getElem?_scatter_of_notMem hnodup.1, List.getElem?_set_self hlt]
    · exact ih hnodup.2 hp (by rwa [List.length_set])

end Scatter

end JavaFx.Lib
