/-
A full `DirtyRegionContainer` makes room.

While regions are merged every point stays in a region that has not gone into another
(`Merging`), and the first pair that is taken is merged in any case. Then these regions are
moved to the front (`Compacting`). So no point is lost, and there is room for one more
region (`compressHeap_spec`), provided the number of pairs is an `int`; if it is not, the
array of the heap has a negative length or is too short (`compressHeap_error`).
-/
import JavaFx.Geom.DirtyRegionHeap
import Mathlib.Order.Interval.Finset.Fin
import Mathlib.Algebra.BigOperators.Fin

set_option autoImplicit false

namespace JavaFx.Geom.DirtyRegionContainer

open JavaFx.Lib

variable {K : Type} {n : ℕ} {s s' s₀ : Container K n} {map : Fin n → Fin n} {i j : Fin n}
  {r other : RectBounds K}

/-! ## Rectangles -/

section RectBounds

variable [LinearOrder K]

theorem points_of_isEmpty (h : r.isEmpty = true) {p : K × K} : p ∉ r.points := by
  rintro ⟨hminX, hmaxX, hminY, hmaxY⟩
  unfold RectBounds.isEmpty at h
  rw [decide_eq_true (hminX.trans hmaxX), decide_eq_true (hminY.trans hmaxY)] at h
  cases h

theorem points_unionWith_left {p : K × K} (h : p ∈ r.points) : p ∈ (r.unionWith other).points := by
  unfold RectBounds.unionWith
  split
  · exact h
  · split
    · rename_i hempty
      exact absurd h (points_of_isEmpty hempty)
    · obtain ⟨hminX, hmaxX, hminY, hmaxY⟩ := h
      exact ⟨min_le_of_left_le hminX, le_max_of_le_left hmaxX, min_le_of_left_le hminY,
        le_max_of_le_left hmaxY⟩

theorem points_unionWith_right {p : K × K} (h : p ∈ other.points) :
    p ∈ (r.unionWith other).points := by
  unfold RectBounds.unionWith
  split
  · rename_i hempty
    exact absurd h (points_of_isEmpty hempty)
  · split
    · exact h
    · obtain ⟨hminX, hmaxX, hminY, hmaxY⟩ := h
      exact ⟨min_le_of_right_le hminX, le_max_of_le_right hmaxX, min_le_of_right_le hminY,
        le_max_of_le_right hmaxY⟩

theorem points_deriveWithNewBounds [Field K] {p : K × K} (h : p ∈ r.points) :
    p ∈ (RectBounds.deriveWithNewBounds r).points := by
  unfold RectBounds.deriveWithNewBounds
  split
  · rename_i hempty
    exact absurd h (points_of_isEmpty hempty)
  · exact h

end RectBounds

theorem rect_setRect_self (s : Container K n) (o : Option (Fin n)) (r : RectBounds K) :
    (s.setRect o r).rect o = r :=
  Function.update_self _ _ _

theorem region_setRect_none (s : Container K n) (i : Fin n) (r : RectBounds K) :
    (s.setRect none r).region i = s.region i :=
  Function.update_of_ne (Option.some_ne_none _) r s.rect

theorem region_setRect_self (s : Container K n) (i : Fin n) (r : RectBounds K) :
    (s.setRect (some (s.dirtyRegions i)) r).region i = r :=
  Function.update_self _ _ _

theorem region_setRect_of_ne (s : Container K n) (h : j ≠ i) (r : RectBounds K) :
    (s.setRect (some (s.dirtyRegions i)) r).region j = s.region j := by
  apply Function.update_of_ne
  intro heq
  exact h (s.dirtyRegions.injective (Option.some_inj.mp heq))

/-! ## Merging -/

theorem argument_setRect (s : Container K n) (k : Fin n) (r : RectBounds K) :
    (s.setRect (some k) r).rect none = s.rect none :=
  Function.update_of_ne (Option.some_ne_none k).symm r s.rect

variable [LinearOrder K]

/-- Regions are being merged. -/
structure Merging (s₀ s : Container K n) (map : Fin n → Fin n) : Prop where
  acyclic : Acyclic (into map)
  dirtyRegions : s.dirtyRegions = s₀.dirtyRegions
  emptyIndex : s.emptyIndex = s₀.emptyIndex
  heapLength : s.heapLength = s₀.heapLength
  argument : s.rect none = s₀.rect none
  heaped : Heaped s
  root : ∃ i, map i = i
  cover : ∀ i, ∀ p ∈ (s₀.region i).points, ∃ j, map j = j ∧ p ∈ (s.region j).points

/-- Two regions are merged. -/
theorem Merging.update (h : Merging s₀ s map) (hi : map i = i) (hj : map j = j) (hij : i ≠ j)
    (mask : BitVec 64) :
    Merging s₀ { s.setRect (some (s.dirtyRegions i)) ((s.region i).unionWith (s.region j)) with
      invalidMask := mask } (Function.update map j i) := by
  have hkeep : ∀ {k}, map k = k → k ≠ j → Function.update map j i k = k := by
    intro k hk hkj
    rw [Function.update_of_ne hkj, hk]
  refine ⟨acyclic_into_update h.acyclic hi hij, h.dirtyRegions, h.emptyIndex, h.heapLength, ?_,
    h.heaped, ⟨i, hkeep hi hij⟩, ?_⟩
  · exact (argument_setRect s (s.dirtyRegions i) ((s.region i).unionWith (s.region j))).trans
      h.argument
  · intro k p hp
    change ∃ l, Function.update map j i l = l ∧ p ∈
      ((s.setRect (some (s.dirtyRegions i)) ((s.region i).unionWith (s.region j))).region l).points
    obtain ⟨l, hl, hpl⟩ := h.cover k p hp
    by_cases hlj : l = j
    · subst hlj
      refine ⟨i, hkeep hi hij, ?_⟩
      rw [region_setRect_self]
      exact points_unionWith_right hpl
    · refine ⟨l, hkeep hl hlj, ?_⟩
      by_cases hli : l = i
      · subst hli
        rw [region_setRect_self]
        exact points_unionWith_left hpl
      · rw [region_setRect_of_ne s hli]
        exact hpl

variable [Field K] [FloorRing K]

/-- The merged regions: some are if some have been before, or if there is a pair to merge. -/
theorem mergeLoop_spec (count : ℕ) : ∀ {s : Container K n} {map : Fin n → Fin n},
    Merging s₀ s map → count ≤ s.heapSize →
    ∃ s' map', Container.mergeLoop count s map = .ok (s', map') ∧ Merging s₀ s' map'
      ∧ ((∃ i, map i ≠ i) ∨ 0 < count ∧ map = id → ∃ i, map' i ≠ i) := by
  induction count with
  | zero =>
    intro s map h _
    refine ⟨s, map, rfl, h, ?_⟩
    rintro (hmerged | ⟨hpos, -⟩)
    · exact hmerged
    · exact absurd hpos (lt_irrefl 0)
  | succ count ih =>
    intro s map h hsize
    obtain ⟨min, s₁, hs₁, hne, hsame, hheaped⟩ :=
      takeMinWithMap_spec h.acyclic (by omega) h.heaped
    have hsize₁ : s₁.heapSize = s.heapSize - 1 := by rw [hsame]
    have h₁ : Merging s₀ s₁ map := by
      rw [hsame] at hheaped ⊢
      exact ⟨h.acyclic, h.dirtyRegions, h.emptyIndex, h.heapLength, h.argument, hheaped, h.root,
        h.cover⟩
    obtain ⟨i, hi, hiroot⟩ := resolveMap_ok h.acyclic min.fst
    obtain ⟨j, hj, hjroot⟩ := resolveMap_ok h.acyclic min.snd
    unfold Container.mergeLoop
    rw [hs₁]
    change ∃ s' map', (resolveMap map n min.fst >>= fun idx0 =>
      resolveMap map n min.snd >>= fun idx1 => _) = _ ∧ _
    rw [hi, hj]
    change ∃ s' map', (if i = j then Container.mergeLoop count s₁ map
      else Container.mergeLoop count _ (Function.update map j i)) = .ok (s', map') ∧ _
    split
    · rename_i heq
      obtain ⟨s', map', hs', h', hmerged⟩ := ih h₁ (by omega)
      refine ⟨s', map', hs', h', ?_⟩
      rintro (hbefore | ⟨-, hid⟩)
      · exact hmerged (Or.inl hbefore)
      · -- at first no region has gone into another, so the pair is one of different regions
        exfalso
        subst hid
        have hfst := resolveMap_id hi
        have hsnd := resolveMap_id hj
        exact hne (hfst.symm.trans (heq.trans hsnd))
    · rename_i hij
      obtain ⟨s', map', hs', h', hmerged⟩ := ih (h₁.update hiroot hjroot hij _) (by
        change count ≤ s₁.heapSize
        omega)
      refine ⟨s', map', hs', h', ?_⟩
      intro _
      apply hmerged
      left
      refine ⟨j, ?_⟩
      rw [Function.update_self]
      exact hij

/-! ## Moving to the front -/

section Compact

omit [Field K] [LinearOrder K] [FloorRing K]

/-- Unused regions at the end are left off. -/
structure Trimmed (map : Fin n → Fin n) (e e' : ℕ) : Prop where
  le : e' ≤ e
  last : ∃ last : Fin n, last + 1 = e' ∧ map last = last
  keep : ∀ j : Fin n, j < e → map j = j → j < e'

theorem trim_spec (map : Fin n → Fin n) (e : ℕ) (he : e ≤ n)
    (hroot : ∃ j : Fin n, j < e ∧ map j = j) : ∃ e', trim map e = .ok e' ∧ Trimmed map e e' := by
  induction e with
  | zero =>
    obtain ⟨j, hj, -⟩ := hroot
    exact absurd hj (Nat.not_lt_zero _)
  | succ e ih =>
    have hlast : place n e = .ok ⟨e, he⟩ := dif_pos he
    rw [trim, hlast]
    change ∃ e', (if map ⟨e, he⟩ = ⟨e, he⟩ then .ok (e + 1) else trim map e) = .ok e' ∧ _
    split
    · rename_i hmap
      exact ⟨e + 1, rfl, le_refl _, ⟨⟨e, he⟩, rfl, hmap⟩, fun j hj _ => hj⟩
    · rename_i hmap
      have hbelow : ∀ j : Fin n, j < e + 1 → map j = j → j < e := by
        intro j hj hjroot
        refine lt_of_le_of_ne (Nat.lt_succ_iff.mp hj) (fun heq => hmap ?_)
        rwa [show (⟨e, he⟩ : Fin n) = j from Fin.ext heq.symm]
      obtain ⟨j, hj, hjroot⟩ := hroot
      obtain ⟨e', he', htrim⟩ := ih (Nat.le_of_succ_le he) ⟨j, hbelow j hj hjroot, hjroot⟩
      exact ⟨e', he', Nat.le_succ_of_le htrim.le, htrim.last,
        fun j hj hjroot => htrim.keep j (hbelow j hj hjroot) hjroot⟩

/-- The regions `G` are being moved to the front, and the first `i` places are done. -/
structure Compacting (G : Set (Fin n)) (s : Container K n) (map : Fin n → Fin n) (i : ℕ) : Prop where
  here : ∀ o ∈ G, ∃ j : Fin n, j < s.emptyIndex ∧ map j = j ∧ s.dirtyRegions j = o
  done : ∀ j : Fin n, j < i → j < s.emptyIndex → map j = j
  le : s.emptyIndex ≤ n
  fewer : s.emptyIndex < n ∨ ∃ j, map j ≠ j

/-- A place is filled with the last region. -/
theorem Compacting.fillPlace {G : Set (Fin n)} {i e : ℕ} (h : Compacting G s map i) (hi : i < n)
    (hnot : map ⟨i, hi⟩ ≠ ⟨i, hi⟩) (htrim : Trimmed map s.emptyIndex e) {last : Fin n}
    (hlast : last + 1 = e) (hlt : i < last) :
    Compacting G { s.swap ⟨i, hi⟩ last with emptyIndex := e - 1 }
      (Function.update map ⟨i, hi⟩ ⟨i, hi⟩) (i + 1) := by
  have hle := htrim.le
  refine ⟨?_, ?_, ?_, ?_⟩
  · intro o ho
    obtain ⟨j, hj, hjroot, hjo⟩ := h.here o ho
    have hje := htrim.keep j hj hjroot
    change ∃ k : Fin n, k < e - 1 ∧ Function.update map ⟨i, hi⟩ ⟨i, hi⟩ k = k
      ∧ s.dirtyRegions (Equiv.swap ⟨i, hi⟩ last k) = o
    by_cases hjl : j = last
    · refine ⟨⟨i, hi⟩, ?_, Function.update_self _ _ _, ?_⟩
      · dsimp only
        omega
      · rw [Equiv.swap_apply_left, ← hjl, hjo]
    · have hji : j ≠ ⟨i, hi⟩ := by
        rintro rfl
        exact hnot hjroot
      refine ⟨j, ?_, ?_, ?_⟩
      · have hne : (j : ℕ) ≠ last := fun heq => hjl (Fin.ext heq)
        omega
      · rw [Function.update_of_ne hji, hjroot]
      · rw [Equiv.swap_apply_of_ne_of_ne hji hjl, hjo]
  · intro j hj hje
    change j < e - 1 at hje
    by_cases hji : j = ⟨i, hi⟩
    · rw [hji, Function.update_self]
    · rw [Function.update_of_ne hji]
      have hne : (j : ℕ) ≠ i := fun heq => hji (Fin.ext heq)
      exact h.done j (by omega) (by omega)
  · change e - 1 ≤ n
    have := h.le
    omega
  · left
    change e - 1 < n
    have := last.isLt
    omega

/-- There is nothing left to fill a place with. -/
theorem Compacting.leaveOff {G : Set (Fin n)} {i e : ℕ} (h : Compacting G s map i) (hi : i < n)
    (hnot : map ⟨i, hi⟩ ≠ ⟨i, hi⟩) (htrim : Trimmed map s.emptyIndex e) {last : Fin n}
    (hlast : last + 1 = e) (hroot : map last = last) (hle : last ≤ i) :
    Compacting G { s with emptyIndex := e } map (i + 1) := by
  have hne : (last : ℕ) ≠ i := by
    intro heq
    apply hnot
    rwa [show (⟨i, hi⟩ : Fin n) = last from Fin.ext heq.symm]
  refine ⟨?_, ?_, ?_, ?_⟩
  · intro o ho
    obtain ⟨j, hj, hjroot, hjo⟩ := h.here o ho
    exact ⟨j, htrim.keep j hj hjroot, hjroot, hjo⟩
  · intro j hj hje
    change j < e at hje
    exact h.done j (by omega) (lt_of_lt_of_le hje htrim.le)
  · exact htrim.le.trans h.le
  · left
    change e < n
    omega

theorem compact_spec {G : Set (Fin n)} (hG : G.Nonempty) (k : ℕ) :
    ∀ {s : Container K n} {map : Fin n → Fin n} {i : ℕ}, n - i ≤ k → Compacting G s map i →
      ∃ s', s.compact map i = .ok s' ∧ s'.emptyIndex < n ∧ s'.rect = s.rect
        ∧ s'.heapLength = s.heapLength ∧ ∀ o ∈ G, ∃ j : Fin n, j < s'.emptyIndex ∧ s'.dirtyRegions j = o := by
  have hend : ∀ {s : Container K n} {map : Fin n → Fin n} {i : ℕ}, Compacting G s map i →
      ¬ i < s.emptyIndex → s.emptyIndex < n ∧
        ∀ o ∈ G, ∃ j : Fin n, j < s.emptyIndex ∧ s.dirtyRegions j = o := by
    intro s map i h hi
    refine ⟨?_, fun o ho => ?_⟩
    · rcases h.fewer with hlt | ⟨j, hj⟩
      · exact hlt
      · by_contra hge
        have hjlt := j.isLt
        exact hj (h.done j (by omega) (by omega))
    · obtain ⟨j, hj, -, hjo⟩ := h.here o ho
      exact ⟨j, hj, hjo⟩
  induction k with
  | zero =>
    intro s map i hk h
    have hle := h.le
    have hi : ¬ i < s.emptyIndex := by omega
    rw [Container.compact, if_neg hi]
    exact ⟨s, rfl, (hend h hi).1, rfl, rfl, (hend h hi).2⟩
  | succ k ih =>
    intro s map i hk h
    rw [Container.compact]
    split
    · rename_i hi
      have hin : i < n := lt_of_lt_of_le hi h.le
      rw [dif_pos hin]
      split
      · rename_i hroot
        apply ih (by omega)
        refine ⟨h.here, ?_, h.le, h.fewer⟩
        intro j hj hje
        by_cases hji : (j : ℕ) = i
        · rwa [show j = (⟨i, hin⟩ : Fin n) from Fin.ext hji]
        · exact h.done j (by omega) hje
      · rename_i hnot
        obtain ⟨o, ho⟩ := hG
        obtain ⟨j, hj, hjroot, -⟩ := h.here o ho
        obtain ⟨e, he, htrim⟩ := trim_spec map s.emptyIndex h.le ⟨j, hj, hjroot⟩
        obtain ⟨last, hlast, hlastroot⟩ := htrim.last
        rw [he]
        dsimp only
        split
        · have hplace : placeBefore n e = .ok last := by
            rw [← hlast]
            exact dif_pos last.isLt
          rw [hplace]
          exact ih (by omega) (h.fillPlace hin hnot htrim hlast (by omega))
        · exact ih (by omega) (h.leaveOff hin hnot htrim hlast hlastroot (by omega))
    · rename_i hi
      exact ⟨s, rfl, (hend h hi).1, rfl, rfl, (hend h hi).2⟩

end Compact

/-! ## Filling the heap -/

theorem length_pairs (n : ℕ) : (pairs n).length = n * (n - 1) / 2 := by
  have hlength : ∀ i : Fin n, (((List.finRange n).filter (i < ·)).map fun j => (i, j)).length =
      n - 1 - i := by
    intro i
    have hfinset : ((List.finRange n).filter (i < ·)).toFinset = Finset.Ioi i := by
      ext j
      rw [List.mem_toFinset, List.mem_filter, Finset.mem_Ioi, decide_eq_true_iff]
      exact ⟨fun h => h.2, fun h => ⟨List.mem_finRange j, h⟩⟩
    rw [List.length_map, ← List.toFinset_card_of_nodup ((List.nodup_finRange n).filter _), hfinset,
      Fin.card_Ioi]
  unfold pairs
  rw [List.length_flatMap, List.map_congr_left (fun i _ => hlength i), ← Fin.sum_univ_def,
    Fin.sum_univ_eq_sum_range (fun i => n - 1 - i) n, Finset.sum_range_reflect (fun j => j) n,
    Finset.sum_range_id]

theorem mem_pairs {p : Fin n × Fin n} (h : p ∈ pairs n) : p.1 ≠ p.2 := by
  obtain ⟨i, -, hp⟩ := List.mem_flatMap.mp h
  obtain ⟨j, hj, rfl⟩ := List.mem_map.mp hp
  exact ne_of_lt (of_decide_eq_true (List.mem_filter.mp hj).2)

/-- The places that have been written are right, even if one array is in two of them. -/
def Filled (s : Container K n) (k : ℕ) : Prop := ∀ p < k, EntryOk (s.entry (s.heap p))

theorem fill_spec (rest : List (Fin n × Fin n)) : ∀ {k : ℕ} {s : Container K n},
    (∀ p ∈ rest, p.1 ≠ p.2) → s.heapLength.getD 0 = k + rest.length → Filled s k →
    ∃ s', Container.fill rest k s = .ok s' ∧ s' = { s with entry := s'.entry }
      ∧ Filled s' (k + rest.length) := by
  induction rest with
  | nil => exact fun _ _ h => ⟨_, rfl, rfl, h⟩
  | cons p rest ih =>
    intro k s hne hlength h
    obtain ⟨i, j⟩ := p
    rw [List.length_cons] at hlength
    rw [Container.fill, if_pos (by omega)]
    have hok : EntryOk (⟨s.unifiedRegionArea i j, i, j⟩ : Entry n) :=
      ⟨toInt_low _, toInt_high _, hne (i, j) List.mem_cons_self⟩
    obtain ⟨s', hs', hsame, hfilled⟩ := ih (k := k + 1)
      (s := s.setEntry (s.heap k) ⟨s.unifiedRegionArea i j, i, j⟩)
      (fun p hp => hne p (List.mem_cons_of_mem _ hp))
      (by change s.heapLength.getD 0 = _; omega) (by
        intro p hp
        change EntryOk (Function.update s.entry (s.heap k) _ (s.heap p))
        by_cases hpk : s.heap p = s.heap k
        · rw [hpk, Function.update_self]
          exact hok
        · rw [Function.update_of_ne hpk]
          apply h
          refine lt_of_le_of_ne (Nat.lt_succ_iff.mp hp) ?_
          rintro rfl
          exact hpk rfl)
    refine ⟨s', hs', ?_, ?_⟩
    · rw [hsame]
      rfl
    · rw [List.length_cons, Nat.add_comm rest.length 1, ← Nat.add_assoc]
      exact hfilled

/-- The array is too short. -/
theorem fill_error (rest : List (Fin n × Fin n)) : ∀ {k : ℕ} {s : Container K n},
    s.heapLength.getD 0 < k + rest.length → k ≤ s.heapLength.getD 0 →
    ∃ e, Container.fill rest k s = .error e := by
  induction rest with
  | nil =>
    intro k s hlt hle
    rw [List.length_nil] at hlt
    omega
  | cons p rest ih =>
    intro k s hlt hle
    obtain ⟨i, j⟩ := p
    rw [List.length_cons] at hlt
    rw [Container.fill]
    split
    · apply ih
      · change s.heapLength.getD 0 < _
        omega
      · change k + 1 ≤ s.heapLength.getD 0
        omega
    · exact ⟨_, rfl⟩

omit [LinearOrder K] [Field K] [FloorRing K] in
theorem heapify_spec (h : Heaped s) : Sifted s s.heapify := by
  unfold Container.heapify
  generalize (List.range (s.heapSize / 2 + 1)).reverse = places
  induction places using List.reverseRecOn with
  | nil => exact ⟨rfl, h⟩
  | append_singleton places i ih =>
    rw [List.foldl_append]
    exact ih.trans ⟨rfl, heaped_siftDown ih.heaped i⟩

/-! ## Compression -/

/-- The number of pairs is an `int` up to here. -/
def maxRegions : ℕ := 46341

/-- `n * (n-1)`. -/
theorem cast_pairs (hn : 1 ≤ n) : (n : ℤ) * ((n : ℤ) - 1) = (n * (n - 1) : ℕ) := by
  rw [Nat.cast_mul, Nat.cast_sub hn, Nat.cast_one]

/-- The length of the heap. -/
theorem tdiv_bmod_pairs (hn : 1 ≤ n) (hmax : n ≤ maxRegions) :
    (Int.bmod ((n : ℤ) * ((n : ℤ) - 1)) (2 ^ 32)).tdiv 2 = (n * (n - 1) / 2 : ℕ) := by
  have hle : n * (n - 1) ≤ 46341 * 46340 := Nat.mul_le_mul hmax (Nat.sub_le_sub_right hmax 1)
  have hbmod : Int.bmod ((n * (n - 1) : ℕ) : ℤ) (2 ^ 32) = (n * (n - 1) : ℕ) := by
    apply Int.bmod_eq_of_le
    · omega
    · omega
  rw [cast_pairs hn, hbmod, Int.ofNat_tdiv]
  rfl

/-- It is too small if the product does not fit. -/
theorem tdiv_bmod_pairs_lt (hn : maxRegions < n) :
    (Int.bmod ((n : ℤ) * ((n : ℤ) - 1)) (2 ^ 32)).tdiv 2 < (n * (n - 1) / 2 : ℕ) := by
  have hle : 46342 * 46341 ≤ n * (n - 1) := Nat.mul_le_mul hn (Nat.sub_le_sub_right hn 1)
  have hlt : Int.bmod ((n : ℤ) * ((n : ℤ) - 1)) (2 ^ 32) < ((2 ^ 32 : ℕ) + 1) / 2 :=
    Int.bmod_lt (by norm_num)
  rw [Int.tdiv_eq_ediv]
  split
  · omega
  · have hsign : Int.sign 2 = 1 := rfl
    omega

omit [LinearOrder K] [Field K] [FloorRing K] in
/-- The heap has a place for each pair. -/
theorem newHeap_spec [NeZero n] (hmax : n ≤ maxRegions)
    (hheap : s.heapLength = none ∨ s.heapLength = some (n * (n - 1) / 2)) :
    ∃ s', s.newHeap = .ok s' ∧ s'.heapLength = some (n * (n - 1) / 2) ∧ s'.emptyIndex = s.emptyIndex
      ∧ s'.rect = s.rect ∧ s'.dirtyRegions = s.dirtyRegions := by
  have hn : 1 ≤ n := Nat.pos_of_neZero n
  unfold Container.newHeap
  rw [tdiv_bmod_pairs hn hmax]
  dsimp only
  rcases hheap with hnone | hsome
  · rw [hnone, if_neg (by decide), if_neg (by omega), Int.toNat_natCast]
    exact ⟨_, rfl, rfl, rfl, rfl, rfl⟩
  · rw [if_pos (by rw [hsome]; rfl)]
    exact ⟨s, rfl, hsome, rfl, rfl, rfl⟩

theorem compressHeap_error [NeZero n] (hmax : maxRegions < n) (hheap : s.heapLength = none) :
    ∃ e, s.compressHeap = .error e := by
  have hlt := tdiv_bmod_pairs_lt hmax
  unfold Container.compressHeap Container.newHeap
  dsimp only
  rw [hheap, if_neg (by decide)]
  split
  · exact ⟨_, rfl⟩
  · rename_i hpos
    obtain ⟨e, he⟩ := fill_error (pairs n) (k := 0)
      (s := { s with
        heapLength := some ((Int.bmod ((n : ℤ) * ((n : ℤ) - 1)) (2 ^ 32)).tdiv 2).toNat
        heap := id
        entry := fun _ => ⟨0, 0, 0⟩
        heapSize := ((Int.bmod ((n : ℤ) * ((n : ℤ) - 1)) (2 ^ 32)).tdiv 2).toNat })
      (by
        rw [length_pairs]
        change ((Int.bmod ((n : ℤ) * ((n : ℤ) - 1)) (2 ^ 32)).tdiv 2).toNat < _
        omega)
      (Nat.zero_le _)
    refine ⟨e, ?_⟩
    change (Container.fill (pairs n) 0 _ >>= _) = _
    erw [he]
    rfl

/-- `heapCompress` of a full container whose heap is filled. -/
theorem heapCompress_spec (hn : 2 ≤ n) (hfull : s.emptyIndex = n)
    (hsize : s.heapSize = n * (n - 1) / 2) (h : Heaped s) :
    ∃ s', s.heapCompress = .ok s' ∧ s'.emptyIndex < n ∧ s'.heapLength = s.heapLength
      ∧ s'.rect none = s.rect none
      ∧ ∀ i, ∀ p ∈ (s.region i).points, ∃ j : Fin n, j < s'.emptyIndex ∧ p ∈ (s'.region j).points := by
  have hmerging : Merging s { s with invalidMask := 0 } id :=
    ⟨acyclic_into_id, rfl, rfl, rfl, rfl, h, ⟨(⟨0, by omega⟩ : Fin n), rfl⟩,
      fun i p hp => ⟨i, rfl, hp⟩⟩
  have hcount : n / 2 ≤ s.heapSize := by
    have hle : n * 1 ≤ n * (n - 1) := Nat.mul_le_mul_left n (by omega)
    omega
  obtain ⟨s₁, map, hs₁, hmerged, hsome⟩ := mergeLoop_spec (n / 2) hmerging hcount
  have hcompacting : Compacting {o | ∃ i, map i = i ∧ s₁.dirtyRegions i = o} s₁ map 0 := by
    have hempty : s₁.emptyIndex = n := hmerged.emptyIndex.trans hfull
    refine ⟨?_, fun j hj => absurd hj (Nat.not_lt_zero _), le_of_eq hempty,
      Or.inr (hsome (Or.inr ⟨by omega, rfl⟩))⟩
    rintro o ⟨i, hi, ho⟩
    refine ⟨i, ?_, hi, ho⟩
    rw [hempty]
    exact i.isLt
  obtain ⟨i₀, hi₀⟩ := hmerged.root
  have hG : {o | ∃ i, map i = i ∧ s₁.dirtyRegions i = o}.Nonempty :=
    ⟨s₁.dirtyRegions i₀, i₀, hi₀, rfl⟩
  obtain ⟨s', hs', hlt, hrect, hlength, hkeep⟩ := compact_spec hG n (Nat.sub_le n 0) hcompacting
  refine ⟨s', ?_, hlt, hlength.trans hmerged.heapLength, ?_, ?_⟩
  · unfold Container.heapCompress
    rw [hs₁]
    exact hs'
  · rw [hrect]
    exact hmerged.argument
  · intro i p hp
    obtain ⟨k, hk, hpk⟩ := hmerged.cover i p hp
    obtain ⟨j, hj, hjk⟩ := hkeep (s₁.dirtyRegions k) ⟨k, hk, rfl⟩
    refine ⟨j, hj, ?_⟩
    unfold Container.region at hpk ⊢
    rwa [hjk, hrect]

theorem compressHeap_spec [NeZero n] (hn : 2 ≤ n) (hmax : n ≤ maxRegions) (hfull : s.emptyIndex = n)
    (hheap : s.heapLength = none ∨ s.heapLength = some (n * (n - 1) / 2)) :
    ∃ s', s.compressHeap = .ok s' ∧ s'.emptyIndex < n ∧ s'.heapLength = some (n * (n - 1) / 2)
      ∧ s'.rect none = s.rect none
      ∧ ∀ i, ∀ p ∈ (s.region i).points, ∃ j : Fin n, j < s'.emptyIndex ∧ p ∈ (s'.region j).points := by
  obtain ⟨s₁, hs₁, hlength, hempty, hrect, hregions⟩ := newHeap_spec hmax hheap
  obtain ⟨s₂, hs₂, hsame, hfilled⟩ := fill_spec (pairs n) (k := 0)
    (s := { s₁ with heapSize := s₁.heapLength.getD 0 }) (fun p hp => mem_pairs hp)
    (by rw [length_pairs, Nat.zero_add]; dsimp only; rw [hlength]; rfl) (fun p hp => absurd hp (Nat.not_lt_zero p))
  have hsize₂ : s₂.heapSize = n * (n - 1) / 2 := by
    rw [hsame]
    dsimp only
    rw [hlength]
    rfl
  have hheaped : Heaped s₂ := by
    intro p hp
    apply hfilled
    rwa [length_pairs, Nat.zero_add, ← hsize₂]
  have hsifted := heapify_spec hheaped
  obtain ⟨s', hs', hlt, hlength', hrect', hcover⟩ := heapCompress_spec (s := s₂.heapify) hn
    (by rw [hsifted.same, hsame]; exact hempty.trans hfull) (by rw [hsifted.same]; exact hsize₂) hsifted.heaped
  refine ⟨s', ?_, hlt, ?_, ?_, ?_⟩
  · unfold Container.compressHeap
    rw [hs₁]
    change (Container.fill (pairs n) 0 _ >>= _) = _
    rw [hs₂]
    exact hs'
  · rw [hlength', hsifted.same, hsame]
    exact hlength
  · rw [hrect', hsifted.same, hsame]
    exact congrFun hrect none
  · intro i p hp
    apply hcover i p
    rw [hsifted.same, hsame]
    unfold Container.region at hp ⊢
    dsimp only
    rw [hrect, hregions]
    exact hp

end JavaFx.Geom.DirtyRegionContainer
