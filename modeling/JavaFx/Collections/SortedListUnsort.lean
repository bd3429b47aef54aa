/-
The loop of `SortedList` that puts the elements back in the order of the source.

`Scrambled` is what the loop keeps: the elements are those of the source, and `perm`
is right where an element stands at its index. `Origins` says where each element was
when the loop began, in the terms of `SortHelper`. Every round that exchanges leaves
one more element at its index (`unplaced`), every other one goes on to the next, so
the loop ends (`unsort_spec`).
-/
import JavaFx.Collections.SortedListOrder

set_option autoImplicit false

namespace JavaFx.Collections.SortedList

open JavaFx.Lib SortHelper

variable {E : Type} {s : SortedList E} {source : List E} {h : SortHelper} {idx : ℕ}

/-- The element at `j` stands at its index. -/
def Placed (s : SortedList E) (j : ℕ) : Prop := s.sorted[j]?.map Element.index = some (j : ℤ)

instance (j : ℕ) : Decidable (Placed s j) :=
  inferInstanceAs (Decidable (s.sorted[j]?.map Element.index = some (j : ℤ)))

/-- How many elements do not. -/
def unplaced (s : SortedList E) : ℕ := ((Finset.range s.size).filter (fun j => ¬ Placed s j)).card

theorem placed_iff {j : ℕ} {x : Element E} (hx : s.sorted[j]? = some x) :
    Placed s j ↔ x.index = j := by
  rw [Placed, hx, Option.map_some, Option.some_inj]

/-- The elements of the source in some order, with `perm` right where they are placed. -/
structure Scrambled (s : SortedList E) (source : List E) : Prop where
  size_eq : s.sorted.length = source.length
  perm_length : s.perm.length = source.length
  fits : source.length ≤ s.arrayLength
  arrays : 0 < s.arrayLength
  element : ∀ (i : ℕ) (x : Element E), s.sorted[i]? = some x →
    ∃ k : ℕ, x.index = k ∧ source[k]? = some x.e
  distinct : ∀ (i j : ℕ) (x y : Element E), s.sorted[i]? = some x → s.sorted[j]? = some y →
    x.index = y.index → i = j
  placed : ∀ j, Placed s j → s.perm[j]? = some (j : ℤ)

theorem Maps.scrambled (hs : Maps s source) : Scrambled s source := by
  refine ⟨hs.size_eq, hs.perm_length, hs.fits, hs.arrays, fun i x hx => ?_,
    fun i j x y hx hy hxy => ?_, fun j hj => ?_⟩
  · obtain ⟨k, hk, hsource, -⟩ := hs.element i x hx
    exact ⟨k, hk, hsource⟩
  · obtain ⟨k, hk, -, hperm⟩ := hs.element i x hx
    obtain ⟨k', hk', -, hperm'⟩ := hs.element j y hy
    obtain rfl : k = k' := by omega
    rw [hperm, Option.some_inj] at hperm'
    omega
  · obtain ⟨x, hx, hxj⟩ := Option.map_eq_some_iff.mp hj
    obtain ⟨k, hk, -, hperm⟩ := hs.element j x hx
    obtain rfl : k = j := by omega
    exact hperm

/-- Once all elements stand at their indices, the arrays are those of the source. -/
theorem Scrambled.inOrder (hs : Scrambled s source) (hall : ∀ j < s.size, Placed s j) :
    InOrder s source := by
  have hindex : ∀ (j : ℕ) (x : Element E), s.sorted[j]? = some x → x.index = j := fun j x hx =>
    (placed_iff hx).mp (hall j (List.getElem?_eq_some_iff.mp hx).1)
  refine InOrder.of_maps ⟨hs.size_eq, hs.perm_length, hs.fits, hs.arrays, fun j x hx => ?_⟩ hindex
  obtain ⟨k, hk, hsource⟩ := hs.element j x hx
  have hkj := hk.symm.trans (hindex j x hx)
  obtain rfl : k = j := by exact_mod_cast hkj
  exact ⟨k, hk, hsource, hs.placed k (hall k (List.getElem?_eq_some_iff.mp hx).1)⟩

/-- Where the elements were in `old`, by the arrays of a `SortHelper`. -/
structure Origins (old : List (Element E)) (s : SortedList E) (h : SortHelper) : Prop where
  inverse : Inverse h
  length_eq : h.reversePermutation.length = s.size
  origin : ∀ j r : ℕ, h.reversePermutation[j]? = some r → s.sorted[j]? = old[r]?

theorem Origins.init (s : SortedList E) : Origins s.sorted s (initPermutation s.size) := by
  refine ⟨Inverse.initPermutation _, by simp [initPermutation], fun j r hr => ?_⟩
  obtain ⟨hj, rfl⟩ := List.getElem?_eq_some_iff.mp hr
  simp [initPermutation]

/-- An element at its index is left alone. -/
theorem unsortStep_placed (hidx : idx < s.size) (hplaced : Placed s idx) :
    s.unsortStep idx h = .ok none := by
  have hx := List.getElem?_eq_getElem hidx
  rw [unsortStep, aget_ok hx, throwing_ok, ok_bind, if_pos ((placed_iff hx).mp hplaced), pure_eq_ok]

/-- **A round that exchanges** puts the element at `idx` at its index. -/
theorem unsortStep_unplaced {old : List (Element E)} (hs : Scrambled s source)
    (ho : Origins old s h) (hidx : idx < s.size) (hunplaced : ¬ Placed s idx) :
    ∃ s' h', s.unsortStep idx h = .ok (some (s', h')) ∧ Scrambled s' source ∧ Origins old s' h'
      ∧ unplaced s' < unplaced s ∧ (∀ j, Placed s j → Placed s' j)
      ∧ s'.elementComparator = s.elementComparator ∧ s'.size = s.size := by
  have hx := List.getElem?_eq_getElem hidx
  generalize s.sorted[idx] = x at hx
  rw [placed_iff hx] at hunplaced
  obtain ⟨k, hk, hsource⟩ := hs.element idx x hx
  have hkidx : k ≠ idx := by
    rintro rfl
    exact hunplaced hk
  have hklt : k < s.size := by
    rw [size, hs.size_eq]
    exact (List.getElem?_eq_some_iff.mp hsource).1
  have hy := List.getElem?_eq_getElem hklt
  generalize s.sorted[k] = y at hy
  have hyk : y.index ≠ k := fun hyk => hkidx (hs.distinct k idx y x hy hx (hyk.trans hk.symm))
  -- the exchange, and the two writes to `perm`
  obtain ⟨r, hr⟩ : ∃ r, h.reversePermutation[idx]? = some r :=
    ⟨_, List.getElem?_eq_getElem (by rwa [ho.length_eq])⟩
  obtain ⟨q, hq⟩ : ∃ q, h.reversePermutation[k]? = some q :=
    ⟨_, List.getElem?_eq_getElem (by rwa [ho.length_eq])⟩
  obtain ⟨perm', hswap, hinv'⟩ := swap_spec (Ne.symm hkidx) hx hy hr hq ho.inverse
  have hpidx : idx < s.perm.length := by rwa [hs.perm_length, ← hs.size_eq]
  have hpk : k < (s.perm.set idx (idx : ℤ)).length := by
    rw [List.length_set, hs.perm_length, ← hs.size_eq]
    exact hklt
  have hget : ∀ j : ℕ, ((s.sorted.set idx y).set k x)[j]?
      = s.sorted[if j = idx then k else if j = k then idx else j]? := getElem?_exchange hx hy
  -- what was placed stays placed
  have hkeep : ∀ j, Placed s j → Placed { s with
      sorted := (s.sorted.set idx y).set k x
      perm := (s.perm.set idx (idx : ℤ)).set k (k : ℤ) } j := by
    intro j hplaced
    obtain ⟨z, hz, hzj⟩ := Option.map_eq_some_iff.mp hplaced
    have hjidx : j ≠ idx := by
      rintro rfl
      rw [hx, Option.some_inj] at hz
      rw [← hz] at hzj
      exact hunplaced hzj
    have hjk : j ≠ k := by
      rintro rfl
      rw [hy, Option.some_inj] at hz
      rw [← hz] at hzj
      exact hyk hzj
    rw [Placed, hget, if_neg hjidx, if_neg hjk, hz, Option.map_some, hzj]
  refine ⟨{ s with
      sorted := (s.sorted.set idx y).set k x
      perm := (s.perm.set idx (idx : ℤ)).set k (k : ℤ) },
    ⟨perm', (h.reversePermutation.set idx q).set k r⟩, ?_, ?_, ?_, ?_, hkeep, rfl, ?_⟩
  · rw [unsortStep, aget_ok hx, throwing_ok, ok_bind, if_neg hunplaced]
    dsimp only
    rw [hk, aget_ok hy, throwing_ok, ok_bind, Int.toNat_natCast, hswap, throwing_ok, ok_bind,
      aset_ok _ hpidx, throwing_ok, ok_bind, aset_ok _ hpk, throwing_ok, ok_bind, pure_eq_ok]
  · refine ⟨?_, ?_, hs.fits, hs.arrays, fun j z hz => ?_, fun i j z w hz hw hzw => ?_,
      fun j hj => ?_⟩
    · rw [List.length_set, List.length_set, hs.size_eq]
    · rw [List.length_set, List.length_set, hs.perm_length]
    · rw [hget] at hz
      exact hs.element _ z hz
    · rw [hget] at hz hw
      have heq := hs.distinct _ _ z w hz hw hzw
      split_ifs at heq <;> omega
    · -- `perm` is written where an element may have come to its index
      have hplen := hs.perm_length
      have hslen := hs.size_eq
      by_cases hjk : j = k
      · rw [hjk, List.getElem?_set_self hpk]
      by_cases hjidx : j = idx
      · rw [List.getElem?_set_ne (Ne.symm hjk), hjidx, List.getElem?_set_self hpidx]
      · rw [List.getElem?_set_ne (Ne.symm hjk), List.getElem?_set_ne (Ne.symm hjidx)]
        refine hs.placed j ?_
        rw [Placed] at hj ⊢
        dsimp only at hj
        rwa [hget, if_neg hjidx, if_neg hjk] at hj
  · refine ⟨hinv', ?_, fun j r' hr' => ?_⟩
    · rw [List.length_set, List.length_set, ho.length_eq, size, size, List.length_set,
        List.length_set]
    · dsimp only at hr' ⊢
      rw [getElem?_exchange hr hq] at hr'
      rw [hget]
      exact ho.origin _ r' hr'
  · -- one more element is placed
    have hsize : size { s with
        sorted := (s.sorted.set idx y).set k x
        perm := (s.perm.set idx (idx : ℤ)).set k (k : ℤ) } = s.size := by
      rw [size, size, List.length_set, List.length_set]
    refine Finset.card_lt_card ⟨fun j hj => ?_, fun hsub => ?_⟩
    · rw [Finset.mem_filter, Finset.mem_range] at hj ⊢
      rw [hsize] at hj
      exact ⟨hj.1, fun hplaced => hj.2 (hkeep j hplaced)⟩
    · have hmem : k ∈ (Finset.range s.size).filter (fun j => ¬ Placed s j) := by
        rw [Finset.mem_filter, Finset.mem_range, placed_iff hy]
        exact ⟨hklt, hyk⟩
      have hnot := (Finset.mem_filter.mp (hsub hmem)).2
      refine hnot ?_
      rw [Placed]
      dsimp only
      rw [hget, if_neg hkidx, if_pos rfl, hx, Option.map_some, hk]
  · rw [size, size, List.length_set, List.length_set]

/-- Two elements with the same index, one of them at it, change places for ever. -/
theorem unsort_forever {k : ℕ} {x y : Element E} {changed : Bool} (hne : idx ≠ k)
    (hx : s.sorted[idx]? = some x) (hy : s.sorted[k]? = some y) (hxk : x.index = k)
    (hyk : y.index = k) (hperm : s.perm.length = s.size) (hinv : Inverse h)
    (hlength : h.reversePermutation.length = s.size) (fuel : ℕ) :
    unsort fuel idx s h changed = none := by
  induction fuel generalizing s h x y changed with
  | zero => rfl
  | succ fuel ih =>
    have hidx : idx < s.size := (List.getElem?_eq_some_iff.mp hx).1
    have hklt : k < s.size := (List.getElem?_eq_some_iff.mp hy).1
    have hpidx : idx < s.perm.length := by rwa [hperm]
    have hpk : k < (s.perm.set idx (idx : ℤ)).length := by rwa [List.length_set, hperm]
    obtain ⟨r, hr⟩ : ∃ r, h.reversePermutation[idx]? = some r :=
      ⟨_, List.getElem?_eq_getElem (by rwa [hlength])⟩
    obtain ⟨q, hq⟩ : ∃ q, h.reversePermutation[k]? = some q :=
      ⟨_, List.getElem?_eq_getElem (by rwa [hlength])⟩
    obtain ⟨perm', hswap, hinv'⟩ := swap_spec hne hx hy hr hq hinv
    have hstep : s.unsortStep idx h = .ok (some ({ s with
        sorted := (s.sorted.set idx y).set k x
        perm := (s.perm.set idx (idx : ℤ)).set k (k : ℤ) },
        ⟨perm', (h.reversePermutation.set idx q).set k r⟩)) := by
      rw [unsortStep, aget_ok hx, throwing_ok, ok_bind, if_neg (by omega)]
      dsimp only
      rw [hxk, aget_ok hy, throwing_ok, ok_bind, Int.toNat_natCast, hswap, throwing_ok, ok_bind,
        aset_ok _ hpidx, throwing_ok, ok_bind, aset_ok _ hpk, throwing_ok, ok_bind, pure_eq_ok]
    rw [unsort, if_pos hidx, hstep]
    -- the two have changed places, and each still names the place `k`
    refine ih (x := y) (y := x) ?_ ?_ hyk hxk ?_ hinv' ?_
    · dsimp only
      rw [getElem?_exchange hx hy, if_pos rfl, hy]
    · dsimp only
      rw [getElem?_exchange hx hy, if_neg (Ne.symm hne), if_pos rfl, hx]
    · rw [size, List.length_set, List.length_set, List.length_set, List.length_set, hperm, size]
    · rw [size, List.length_set, List.length_set, List.length_set, List.length_set, hlength, size]

/-- **The loop** ends with all elements at their indices, and has changed something
unless they were there from the start. -/
theorem unsort_spec {old : List (Element E)} {fuel : ℕ} {changed : Bool} (hs : Scrambled s source)
    (ho : Origins old s h) (hfixed : ∀ j < idx, Placed s j)
    (hfuel : unplaced s + (s.size - idx) < fuel) :
    ∃ s' h' changed', unsort fuel idx s h changed = some (.ok (s', h', changed'))
      ∧ InOrder s' source ∧ Origins old s' h' ∧ s'.elementComparator = s.elementComparator
      ∧ (changed' = false ↔ changed = false ∧ ∀ j < s.size, Placed s j) := by
  induction fuel generalizing idx s h changed with
  | zero => omega
  | succ fuel ih =>
    rw [unsort]
    by_cases hidx : idx < s.size
    · rw [if_pos hidx]
      by_cases hplaced : Placed s idx
      · rw [unsortStep_placed hidx hplaced]
        refine ih hs ho (fun j hj => ?_) (by omega)
        rcases Nat.lt_succ_iff_lt_or_eq.mp hj with hj | rfl
        · exact hfixed j hj
        · exact hplaced
      · obtain ⟨s₁, h₁, hstep, hs₁, ho₁, hless, hkeep, hcomparator, hsize⟩ :=
          unsortStep_unplaced hs ho hidx hplaced
        rw [hstep]
        obtain ⟨s', h', changed', hrun, hinOrder, ho', hcomparator', hchanged⟩ := @ih
          _ _ _ true hs₁ ho₁ (fun j hj => hkeep j (hfixed j hj)) (by omega)
        refine ⟨s', h', changed', hrun, hinOrder, ho', hcomparator'.trans hcomparator, ?_⟩
        constructor
        · intro hfalse
          exact absurd (hchanged.mp hfalse).1 (by simp)
        · intro hall
          exact absurd (hall.2 idx hidx) hplaced
    · rw [if_neg hidx]
      have hall : ∀ j < s.size, Placed s j := fun j hj => hfixed j (by omega)
      exact ⟨s, h, changed, rfl, hs.inOrder hall, ho, rfl, ⟨fun hc => ⟨hc, hall⟩, fun hc => hc.1⟩⟩

/-- More rounds change nothing once the loop has ended. -/
theorem unsort_mono {fuel fuel' : ℕ} {changed : Bool}
    {r : Throwing E (SortedList E × SortHelper × Bool)} (hle : fuel ≤ fuel')
    (hr : unsort fuel idx s h changed = some r) : unsort fuel' idx s h changed = some r := by
  induction fuel generalizing fuel' idx s h changed with
  | zero => cases hr
  | succ fuel ih =>
    obtain ⟨fuel'', rfl⟩ : ∃ n, fuel' = n + 1 := ⟨fuel' - 1, by omega⟩
    rw [unsort] at hr ⊢
    by_cases hidx : idx < s.size
    · rw [if_pos hidx] at hr ⊢
      cases hstep : s.unsortStep idx h with
      | error e => rwa [hstep] at hr
      | ok o =>
        rw [hstep] at hr
        cases o with
        | none => exact ih (by omega) hr
        | some p => exact ih (by omega) hr
    · rwa [if_neg hidx] at hr ⊢

end JavaFx.Collections.SortedList
