/-
What a compression of a `DirtyRegionContainer` does.

The heap is filled with a pair in each array and put in order, so that the least of its
pairs is at the top, and that pair is taken first. `takeMinWithMap` writes what it takes
to the last place and sifts; it does not write the last one to the top, as `takeMin` does.
So what has been taken stays at the top. Its two regions have become one, whose area is
the area of the pair, and so nothing moves when the area is computed again: every later
turn takes the same pair, and merges nothing.

So a compression makes one union, whatever the number of regions (`compressHeap_once`).
-/
import JavaFx.Geom.DirtyRegionRun

set_option autoImplicit false

namespace JavaFx.Geom.DirtyRegionContainer

open JavaFx.Lib

variable {K : Type} {n : ℕ} {s s' : Container K n} {map : Fin n → Fin n} {i j : Fin n}

/-! ## The heap in order -/

theorem heapify_fold (m : ℕ) : ∀ {s : Container K n}, Ordered s.area s.heapSize s.heap m →
    ∃ heap, (List.range m).reverse.foldl Container.siftDown s = { s with heap := heap }
      ∧ Ordered s.area s.heapSize heap 0
      ∧ ∃ σ, Within s.heapSize σ ∧ ∀ p, heap p = s.heap (σ p) := by
  induction m with
  | zero => exact fun h => ⟨_, rfl, h, Equiv.refl ℕ, fun _ _ => rfl, fun _ => rfl⟩
  | succ m ih =>
    intro s h
    rw [List.range_succ, List.reverse_append, List.reverse_singleton, List.singleton_append,
      List.foldl_cons]
    obtain ⟨σ, hσ, heq⟩ := siftDown_perm s.area s.heapSize s.heap m
    obtain ⟨heap, hfold, hordered, τ, hτ, heq'⟩ := @ih (s.siftDown m)
      (h.sifting.siftDown_ordered (le_refl m))
    refine ⟨heap, hfold, hordered, τ.trans σ, ?_, ?_⟩
    · intro p hp
      rw [Equiv.trans_apply, hτ p hp, hσ p hp]
    · intro p
      rw [heq' p, Equiv.trans_apply]
      exact heq (τ p)

/-- `heapify` puts the heap in order, and only moves its arrays. -/
theorem heapify_ordered (s : Container K n) :
    ∃ heap, s.heapify = { s with heap := heap } ∧ Ordered s.area s.heapSize heap 0
      ∧ ∃ σ, Within s.heapSize σ ∧ ∀ p, heap p = s.heap (σ p) := by
  refine heapify_fold (s.heapSize / 2 + 1) ?_
  intro p c hp hc hlt
  exact ordered_half p c (by omega) hc hlt

/-! ## What is taken -/

/-- The array at the top of the heap. -/
def Container.top (s : Container K n) : Entry n := s.entry (s.heap 0)

/-- No array of the heap has a smaller area than the one at the top. -/
def TopLeast (s : Container K n) : Prop := ∀ p < s.heapSize, s.area (s.heap 0) ≤ s.area (s.heap p)

/-- The top is written to the last place, which is left off. -/
def Container.dropLast (s : Container K n) : Container K n :=
  { s with
    heap := Function.update s.heap (s.heapSize - 1) (s.heap 0)
    heapSize := s.heapSize - 1 }

theorem heap_dropLast_zero (s : Container K n) : s.dropLast.heap 0 = s.heap 0 := by
  change Function.update s.heap (s.heapSize - 1) (s.heap 0) 0 = s.heap 0
  by_cases hzero : s.heapSize - 1 = 0
  · rw [hzero, Function.update_self]
  · exact Function.update_of_ne (Ne.symm hzero) _ _

theorem top_dropLast (s : Container K n) : s.dropLast.top = s.top :=
  congrArg s.entry (heap_dropLast_zero s)

theorem TopLeast.update (h : TopLeast s) :
    ∀ p < s.heapSize, s.area (Function.update s.heap (s.heapSize - 1) (s.heap 0) 0)
      ≤ s.area (Function.update s.heap (s.heapSize - 1) (s.heap 0) p) := by
  intro p hp
  have hzero : Function.update s.heap (s.heapSize - 1) (s.heap 0) 0 = s.heap 0 :=
    heap_dropLast_zero s
  rw [hzero]
  by_cases hlast : p = s.heapSize - 1
  · rw [hlast, Function.update_self]
  · rw [Function.update_of_ne hlast]
    exact h p hp

theorem TopLeast.dropLast (h : TopLeast s) : TopLeast s.dropLast := by
  intro p hp
  exact h.update p (by change p < s.heapSize - 1 at hp; omega)

variable [Field K] [LinearOrder K] [FloorRing K]

/-- Where the loop changes nothing, the top is taken and stays. -/
theorem takeMinWithMap_top (hsize : 0 < s.heapSize) (htop : TopLeast s)
    (hloop : Container.takeMinLoop map (turns s.heapSize) s = .ok s) :
    s.takeMinWithMap map = .ok (s.top, s.dropLast) := by
  have hstay : JavaFx.Lib.siftDown s.area s.heapSize
      (Function.update s.heap (s.heapSize - 1) (s.heap 0)) 0
        = Function.update s.heap (s.heapSize - 1) (s.heap 0) :=
    siftDown_of_least htop.update
  unfold Container.takeMinWithMap
  rw [if_neg (by omega), hloop]
  change Except.ok (s.top, ({ s with
    heap := JavaFx.Lib.siftDown s.area s.heapSize
      (Function.update s.heap (s.heapSize - 1) (s.heap 0)) 0
    heapSize := s.heapSize - 1 } : Container K n)) = _
  rw [hstay]
  rfl

theorem turns_pos (size : ℕ) : ∃ t, turns size = t + 1 :=
  ⟨turns size - 1, (Nat.succ_pred_eq_of_pos (Nat.mul_pos (Nat.succ_pos _) (Nat.succ_pos _))).symm⟩

omit [Field K] [LinearOrder K] [FloorRing K] in
/-- At first no region has been merged. -/
theorem invalid_of_zero (hmask : s.invalidMask = 0) (a : ℕ) : s.invalid a = false := by
  unfold Container.invalid
  rw [hmask]
  exact decide_eq_false (by rw [show (0 : BitVec 64) = 0#64 from rfl, BitVec.and_zero]; decide)

theorem takeMinLoop_first (hmask : s.invalidMask = 0) :
    Container.takeMinLoop map (turns s.heapSize) s = .ok s := by
  obtain ⟨t, ht⟩ := turns_pos s.heapSize
  rw [ht, Container.takeMinLoop, invalid_of_zero hmask]
  rfl

/-- The pair at the top is one region, and has the area of that. -/
structure Settled (s : Container K n) (map : Fin n → Fin n) (i : Fin n) : Prop where
  fst : resolveMap map n s.top.fst = .ok i
  snd : resolveMap map n s.top.snd = .ok i
  area : s.top.area = s.unifiedRegionArea i i

/-- Computing the area again changes nothing. -/
theorem takeMinLoop_again (htop : TopLeast s) (h : Settled s map i) :
    Container.takeMinLoop map (turns s.heapSize) s = .ok s := by
  obtain ⟨t, ht⟩ := turns_pos s.heapSize
  have hentry : { s.entry (s.heap 0) with area := s.unifiedRegionArea i i } = s.entry (s.heap 0) := by
    rw [← h.area]
    rfl
  have hset : s.setEntry (s.heap 0) (s.entry (s.heap 0)) = s := by
    unfold Container.setEntry
    rw [Function.update_eq_self]
  have hsift : s.siftDown 0 = s := by
    have hkept : JavaFx.Lib.siftDown (fun a => (s.entry a).area) s.heapSize s.heap 0 = s.heap :=
      siftDown_of_least htop
    unfold Container.siftDown
    rw [hkept]
  have hfst : resolveMap map n (s.entry (s.heap 0)).fst = .ok i := h.fst
  have hsnd : resolveMap map n (s.entry (s.heap 0)).snd = .ok i := h.snd
  rw [ht, Container.takeMinLoop, hfst, hsnd]
  split
  · simp only [ok_bind, hentry, hset, hsift, if_true]
    rfl
  · rfl

/-! ## One turn of `heapCompress` -/

/-- A turn of the first loop of `heapCompress`. -/
def Container.mergeTurn (s : Container K n) (map : Fin n → Fin n) :
    Except Ending (Container K n × (Fin n → Fin n)) := do
  let (min, s') ← s.takeMinWithMap map
  let idx0 ← resolveMap map n min.fst
  let idx1 ← resolveMap map n min.snd
  if idx0 = idx1 then .ok (s', map)
  else
    let merged := s'.setRect (some (s'.dirtyRegions idx0))
      ((s'.region idx0).unionWith (s'.region idx1))
    .ok ({ merged with
        invalidMask := merged.invalidMask ||| (bit idx0).signExtend 64 ||| (bit idx1).signExtend 64 },
      Function.update map idx1 idx0)

theorem mergeLoop_succ (count : ℕ) (s : Container K n) (map : Fin n → Fin n) :
    Container.mergeLoop (count + 1) s map
      = s.mergeTurn map >>= fun t => Container.mergeLoop count t.1 t.2 := by
  rw [Container.mergeLoop, Container.mergeTurn]
  cases s.takeMinWithMap map with
  | error e => rfl
  | ok t =>
    cases hfst : resolveMap map n t.1.fst with
    | error e => simp only [ok_bind, hfst, error_bind]
    | ok idx0 =>
      cases hsnd : resolveMap map n t.1.snd with
      | error e => simp only [ok_bind, hfst, hsnd, error_bind]
      | ok idx1 =>
        simp only [ok_bind, hfst, hsnd]
        split <;> rfl

/-- The union of two regions, as the loop makes it. -/
def Container.union (s : Container K n) (i j : Fin n) : Container K n :=
  let merged := s.setRect (some (s.dirtyRegions i)) ((s.region i).unionWith (s.region j))
  { merged with
    invalidMask := merged.invalidMask ||| (bit i).signExtend 64 ||| (bit j).signExtend 64 }

theorem resolveMap_of_root {turns : ℕ} (h : map i = i) : resolveMap map (turns + 1) i = .ok i := by
  rw [resolveMap, if_pos h]

/-- The first turn merges the pair at the top. -/
theorem mergeTurn_first (hn : 2 ≤ n) (hsize : 0 < s.heapSize) (htop : TopLeast s)
    (hmask : s.invalidMask = 0) (hne : s.top.fst ≠ s.top.snd) :
    s.mergeTurn id = .ok (s.dropLast.union s.top.fst s.top.snd,
      Function.update id s.top.snd s.top.fst) := by
  obtain ⟨t, rfl⟩ : ∃ t, n = t + 1 := ⟨n - 1, by omega⟩
  have hresolve : ∀ k : Fin (t + 1), resolveMap id (t + 1) k = .ok k :=
    fun k => resolveMap_of_root (id_eq k)
  rw [Container.mergeTurn, takeMinWithMap_top hsize htop (takeMinLoop_first hmask)]
  simp only [ok_bind, hresolve, if_neg hne]
  rfl

/-- A turn with a settled pair merges nothing. -/
theorem mergeTurn_again (hsize : 0 < s.heapSize) (htop : TopLeast s) (h : Settled s map i) :
    s.mergeTurn map = .ok (s.dropLast, map) := by
  rw [Container.mergeTurn, takeMinWithMap_top hsize htop (takeMinLoop_again htop h)]
  simp only [ok_bind, h.fst, h.snd, if_true]

theorem Settled.dropLast (h : Settled s map i) : Settled s.dropLast map i := by
  refine ⟨?_, ?_, ?_⟩
  · rw [top_dropLast]
    exact h.fst
  · rw [top_dropLast]
    exact h.snd
  · rw [top_dropLast, h.area]
    rfl

/-- All later turns merge nothing. -/
theorem mergeLoop_again (count : ℕ) : ∀ {s : Container K n}, count ≤ s.heapSize → TopLeast s →
    Settled s map i →
    Container.mergeLoop count s map = .ok (Container.dropLast^[count] s, map) := by
  induction count with
  | zero => exact fun _ _ _ => rfl
  | succ count ih =>
    intro s hcount htop h
    rw [mergeLoop_succ, mergeTurn_again (by omega) htop h]
    exact @ih s.dropLast (by change count ≤ s.heapSize - 1; omega) htop.dropLast h.dropLast

omit [Field K] [LinearOrder K] [FloorRing K] in
/-- Only the heap is touched by turns that merge nothing. -/
theorem dropLast_iterate (count : ℕ) : ∀ s : Container K n, ∃ heap size,
    Container.dropLast^[count] s = { s with heap := heap, heapSize := size } := by
  induction count with
  | zero => exact fun s => ⟨_, _, rfl⟩
  | succ count ih =>
    intro s
    obtain ⟨heap, size, heq⟩ := ih s.dropLast
    exact ⟨heap, size, heq⟩

/-! ## Areas of unions -/

omit [FloorRing K] [Field K] in
theorem isEmpty_iff {r : RectBounds K} :
    r.isEmpty = false ↔ r.minX ≤ r.maxX ∧ r.minY ≤ r.maxY := by
  rw [RectBounds.isEmpty, Bool.not_eq_false', Bool.and_eq_true, decide_eq_true_iff,
    decide_eq_true_iff]

omit [FloorRing K] [Field K] in
theorem unionWith_eq {r other : RectBounds K} (hr : r.isEmpty = false)
    (hother : other.isEmpty = false) :
    r.unionWith other = ⟨min r.minX other.minX, min r.minY other.minY, max r.maxX other.maxX,
      max r.maxY other.maxY⟩ := by
  rw [RectBounds.unionWith, if_neg (by rw [hother]; decide), if_neg (by rw [hr]; decide)]

omit [FloorRing K] [Field K] in
theorem isEmpty_unionWith {r other : RectBounds K} (hr : r.isEmpty = false)
    (hother : other.isEmpty = false) : (r.unionWith other).isEmpty = false := by
  rw [unionWith_eq hr hother, isEmpty_iff]
  have hle := isEmpty_iff.mp hr
  exact ⟨(min_le_left _ _).trans (hle.1.trans (le_max_left _ _)),
    (min_le_left _ _).trans (hle.2.trans (le_max_left _ _))⟩

/-- `unifiedRegionArea` with the minima and maxima by name. -/
theorem unifiedRegionArea_eq (s : Container K n) (i j : Fin n) :
    s.unifiedRegionArea i j =
      toInt ((max (s.region i).maxX (s.region j).maxX - min (s.region i).minX (s.region j).minX)
        * (max (s.region i).maxY (s.region j).maxY - min (s.region i).minY (s.region j).minY)) := by
  have hmin : ∀ a b : K, (if a < b then a else b) = min a b := by
    intro a b
    rw [min_comm, min_def]
    by_cases hab : a < b
    · rw [if_pos hab, if_neg (not_le.mpr hab)]
    · rw [if_neg hab, if_pos (not_lt.mp hab)]
  have hmax : ∀ a b : K, (if b < a then a else b) = max a b := by
    intro a b
    rw [max_comm, max_def]
    by_cases hab : b < a
    · rw [if_pos hab, if_pos (le_of_lt hab)]
    · rw [if_neg hab]
      split
      · rename_i hle
        exact le_antisymm hle (not_lt.mp hab)
      · rfl
  unfold Container.unifiedRegionArea
  simp only [hmin, hmax]

theorem unifiedRegionArea_comm (s : Container K n) (i j : Fin n) :
    s.unifiedRegionArea i j = s.unifiedRegionArea j i := by
  rw [unifiedRegionArea_eq, unifiedRegionArea_eq, max_comm (s.region i).maxX,
    max_comm (s.region i).maxY, min_comm (s.region i).minX, min_comm (s.region i).minY]

/-- The region a union leaves has the area of the pair. -/
theorem unifiedRegionArea_union (hi : (s.region i).isEmpty = false)
    (hj : (s.region j).isEmpty = false) :
    (s.union i j).unifiedRegionArea i i = s.unifiedRegionArea i j := by
  have hregion : (s.union i j).region i = (s.region i).unionWith (s.region j) :=
    region_setRect_self s i ((s.region i).unionWith (s.region j))
  rw [unifiedRegionArea_eq, unifiedRegionArea_eq, hregion, unionWith_eq hi hj]
  simp only [max_self, min_self]

/-! ## All turns -/

/-- A pair of regions at the top, with its area. -/
structure Topped (s : Container K n) : Prop where
  pos : 0 < s.heapSize
  least : TopLeast s
  ne : s.top.fst ≠ s.top.snd
  area : s.top.area = s.unifiedRegionArea s.top.fst s.top.snd

/-- After the first turn the pair is settled. -/
theorem settled_union (hn : 2 ≤ n) (h : Topped s) (hfst : (s.region s.top.fst).isEmpty = false)
    (hsnd : (s.region s.top.snd).isEmpty = false) :
    Settled (s.dropLast.union s.top.fst s.top.snd)
      (Function.update id s.top.snd s.top.fst) s.top.fst := by
  obtain ⟨t, rfl⟩ : ∃ t, n = t + 2 := ⟨n - 2, by omega⟩
  have htop : (s.dropLast.union s.top.fst s.top.snd).top = s.top := top_dropLast s
  have hroot : Function.update id s.top.snd s.top.fst s.top.fst = s.top.fst :=
    Function.update_of_ne h.ne _ _
  refine ⟨?_, ?_, ?_⟩
  · rw [htop]
    exact resolveMap_of_root hroot
  · rw [htop, resolveMap, Function.update_self, if_neg h.ne]
    exact resolveMap_of_root hroot
  · rw [htop, h.area]
    exact (unifiedRegionArea_union (s := s.dropLast) hfst hsnd).symm

/-- The first loop of `heapCompress` makes one union, of the pair at the top. -/
theorem mergeLoop_once (hn : 2 ≤ n) (count : ℕ) (hcount : count < s.heapSize) (h : Topped s)
    (hmask : s.invalidMask = 0) (hfst : (s.region s.top.fst).isEmpty = false)
    (hsnd : (s.region s.top.snd).isEmpty = false) :
    Container.mergeLoop (count + 1) s id
      = .ok (Container.dropLast^[count] (s.dropLast.union s.top.fst s.top.snd),
        Function.update id s.top.snd s.top.fst) := by
  rw [mergeLoop_succ, mergeTurn_first hn h.pos h.least hmask h.ne]
  exact mergeLoop_again (s := s.dropLast.union s.top.fst s.top.snd) count
    (by change count ≤ s.heapSize - 1; omega) h.least.dropLast (settled_union hn h hfst hsnd)

/-! ## Moving to the front -/

section Compact

omit [Field K] [LinearOrder K] [FloorRing K]

theorem compact_fixed (k : ℕ) : ∀ {t : ℕ}, n - t ≤ k → s.emptyIndex ≤ n →
    (∀ l : Fin n, t ≤ l → l < s.emptyIndex → map l = l) → s.compact map t = .ok s := by
  induction k with
  | zero =>
    intro t hk hle _
    rw [Container.compact, if_neg (by omega)]
  | succ k ih =>
    intro t hk hle hmap
    rw [Container.compact]
    split
    · rename_i ht
      rw [dif_pos (by omega), if_pos (hmap ⟨t, by omega⟩ (le_refl t) ht)]
      exact ih (by omega) hle (fun l hl => hmap l (by omega))
    · rfl

/-- With one region gone, the last one comes to its place. -/
theorem compact_once (hij : i ≠ j) (hfull : s.emptyIndex = n) {last : Fin n}
    (hlast : last.val + 1 = n) (k : ℕ) : ∀ {t : ℕ}, j.val - t = k → t ≤ j →
      s.compact (Function.update id j i) t
        = .ok { s.swap j last with emptyIndex := n - 1 } := by
  have hroot : ∀ l : Fin n, l ≠ j → Function.update id j i l = l :=
    fun l hl => Function.update_of_ne hl _ _
  have hgone : Function.update id j i j ≠ j := by
    rw [Function.update_self]
    exact hij
  induction k with
  | zero =>
    intro t hk hle
    have ht : t = j := by omega
    subst ht
    have hj := j.isLt
    rw [Container.compact, if_pos (by omega), dif_pos hj, if_neg hgone, hfull]
    by_cases hjl : j = last
    · -- the last one is gone, and left off
      subst hjl
      have hi := i.isLt
      have hne : (i : ℕ) ≠ j := fun heq => hij (Fin.ext heq)
      obtain ⟨m, rfl⟩ : ∃ m, n = m + 2 := ⟨n - 2, by omega⟩
      have hj1 : j = ⟨m + 1, Nat.lt_succ_self _⟩ := Fin.ext (by dsimp only; omega)
      have htrim : trim (Function.update id j i) (m + 2) = .ok (m + 1) := by
        have hroot' := hroot ⟨m, by omega⟩ (by rw [hj1]; simp)
        rw [trim, place, dif_pos (Nat.lt_succ_self _)]
        simp only [ok_bind, ← hj1, if_neg hgone]
        rw [trim, place, dif_pos (by omega)]
        simp only [ok_bind, hroot', if_true]
        rfl
      rw [htrim]
      dsimp only
      rw [if_neg (by omega), Container.compact, if_neg (by dsimp only; omega)]
      have hswap : s.swap j j = s := by
        unfold Container.swap
        rw [Equiv.swap_self, Equiv.refl_trans]
      rw [hswap]
      rfl
    · have hne : (j : ℕ) ≠ last := fun heq => hjl (Fin.ext heq)
      obtain ⟨m, rfl⟩ : ∃ m, n = m + 1 := ⟨n - 1, by omega⟩
      have hlast' : (⟨m, Nat.lt_succ_self _⟩ : Fin (m + 1)) = last :=
        Fin.ext (by dsimp only; omega)
      have htrim : trim (Function.update id j i) (m + 1) = .ok (m + 1) := by
        rw [trim, place, dif_pos (Nat.lt_succ_self _)]
        simp only [ok_bind, hlast', hroot last (Ne.symm hjl), if_true]
        rfl
      rw [htrim]
      dsimp only
      rw [if_pos (by omega), placeBefore, place, dif_pos (Nat.lt_succ_self _), hlast']
      dsimp only
      refine compact_fixed (m + 1) (by omega) (by dsimp only; omega) (fun l _ _ => ?_)
      by_cases hl : l = j
      · rw [hl, Function.update_self]
      · exact (Function.update_of_ne hl _ _).trans (hroot l hl)
  | succ k ih =>
    intro t hk hle
    have hj := j.isLt
    have hne : (⟨t, by omega⟩ : Fin n) ≠ j := by
      intro heq
      have := congrArg Fin.val heq
      dsimp only at this
      omega
    rw [Container.compact, if_pos (by omega), dif_pos (by omega), if_pos (hroot _ hne)]
    exact ih (by omega) (by omega)

end Compact

/-! ## Filling the heap -/

/-- The array for a pair. -/
def Container.row (s : Container K n) (p : Fin n × Fin n) : Entry n :=
  ⟨s.unifiedRegionArea p.1 p.2, p.1, p.2⟩

/-- Whatever is in the heap when it has been filled is the array for a pair. -/
theorem fill_row {P : List (Fin n × Fin n)} (rest : List (Fin n × Fin n)) :
    ∀ {k : ℕ} {s s' : Container K n}, (∀ p ∈ rest, p ∈ P) →
      Container.fill rest k s = .ok s' → (∀ q < k, ∃ p ∈ P, s.entry (s.heap q) = s.row p) →
      ∀ q < k + rest.length, ∃ p ∈ P, s'.entry (s.heap q) = s.row p := by
  induction rest with
  | nil =>
    intro k s s' _ hs' h
    cases hs'
    exact h
  | cons p rest ih =>
    intro k s s' hP hs' h
    obtain ⟨i, j⟩ := p
    rw [Container.fill] at hs'
    split at hs'
    · have hnext := @ih (k + 1) (s.setEntry (s.heap k) (s.row (i, j))) s'
        (fun p hp => hP p (List.mem_cons_of_mem _ hp)) hs' ?_
      · intro q hq
        rw [List.length_cons] at hq
        exact hnext q (by omega)
      · intro q hq
        change ∃ p ∈ P, Function.update s.entry (s.heap k) (s.row (i, j)) (s.heap q) = s.row p
        by_cases hqk : s.heap q = s.heap k
        · rw [hqk, Function.update_self]
          exact ⟨(i, j), hP _ List.mem_cons_self, rfl⟩
        · rw [Function.update_of_ne hqk]
          refine h q (lt_of_le_of_ne (Nat.lt_succ_iff.mp hq) ?_)
          rintro rfl
          exact hqk rfl
    · cases hs'

/-- Arrays that are in no place to be written keep what they have. -/
theorem fill_keep (rest : List (Fin n × Fin n)) : ∀ {k : ℕ} {s s' : Container K n} {a : ℕ},
    Container.fill rest k s = .ok s' → (∀ q < rest.length, s.heap (k + q) ≠ a) →
    s'.entry a = s.entry a := by
  induction rest with
  | nil =>
    intro k s s' a hs' _
    cases hs'
    rfl
  | cons p rest ih =>
    intro k s s' a hs' h
    rw [Container.fill] at hs'
    split at hs'
    · have hkeep := @ih (k + 1) (s.setEntry (s.heap k) (s.row p)) s' a hs' (fun q hq => by
        have hne := h (q + 1) (by rw [List.length_cons]; omega)
        rwa [show k + (q + 1) = k + 1 + q by omega] at hne)
      rw [hkeep]
      refine Function.update_of_ne ?_ _ _
      exact Ne.symm (h 0 (by rw [List.length_cons]; omega))
    · cases hs'

/-- The last place an array is in decides which pair it is for. -/
theorem fill_last (rest : List (Fin n × Fin n)) : ∀ {k : ℕ} {s s' : Container K n},
    Container.fill rest k s = .ok s' → ∀ {q : ℕ} (hq : q < rest.length),
      (∀ q', q < q' → q' < rest.length → s.heap (k + q') ≠ s.heap (k + q)) →
      s'.entry (s.heap (k + q)) = s.row rest[q] := by
  induction rest with
  | nil =>
    intro k s s' _ q hq
    cases hq
  | cons p rest ih =>
    intro k s s' hs' q hq h
    rw [Container.fill] at hs'
    split at hs'
    · cases q with
      | zero =>
        have hkeep := fill_keep (s := s.setEntry (s.heap k) (s.row p)) rest hs'
          (a := s.heap k) (fun q hq' => by
            have hne := h (q + 1) (Nat.succ_pos q) (by rw [List.length_cons]; omega)
            rwa [show k + (q + 1) = k + 1 + q by omega] at hne)
        exact hkeep.trans (Function.update_self _ _ _)
      | succ q =>
        have hnext := @ih (k + 1) (s.setEntry (s.heap k) (s.row p)) s' hs' q
          (by rw [List.length_cons] at hq; omega) (fun q' hlt hlt' => by
            have hne := h (q' + 1) (by omega) (by rw [List.length_cons]; omega)
            rwa [show k + (q' + 1) = k + 1 + q' by omega,
              show k + (q + 1) = k + 1 + q by omega] at hne)
        rw [show k + (q + 1) = k + 1 + q by omega]
        exact hnext
    · cases hs'

/-! ## Compression -/

/-- `compress_heap` up to the call of `heapCompress`. -/
def Container.prepared [NeZero n] (s : Container K n) : Except Ending (Container K n) := do
  let s' ← s.newHeap
  let filled ← Container.fill (pairs n) 0 { s' with heapSize := s'.heapLength.getD 0 }
  .ok filled.heapify

theorem compressHeap_eq [NeZero n] (s : Container K n) :
    s.compressHeap = s.prepared >>= fun p => p.heapCompress := by
  unfold Container.compressHeap Container.prepared
  cases s.newHeap with
  | error e => rfl
  | ok s' =>
    simp only [ok_bind]
    cases Container.fill (pairs n) 0 { s' with heapSize := s'.heapLength.getD 0 } <;> rfl

/-- The number of pairs. -/
def size (n : ℕ) : ℕ := n * (n - 1) / 2

/-- The places of the arrays before the heap is filled. -/
def Container.places (s : Container K n) : ℕ → ℕ := if s.heapLength.isSome then s.heap else id

/-- The heap has been filled and put in order. -/
structure Prepared (s p : Container K n) : Prop where
  same : p = { s with
    heap := p.heap, entry := p.entry, heapLength := some (size n), heapSize := size n }
  row : ∀ q < size n, ∃ pair ∈ pairs n, p.entry (s.places q) = s.row pair
  last : ∀ {q : ℕ} (hq : q < (pairs n).length),
    (∀ q', q < q' → q' < size n → s.places q' ≠ s.places q) →
      p.entry (s.places q) = s.row (pairs n)[q]
  heap : ∃ filled : Container K n, p = filled.heapify ∧ filled.heap = s.places
    ∧ filled.heapSize = size n ∧ filled.entry = p.entry
  ordered : Ordered p.area (size n) p.heap 0
  perm : ∃ σ, Within (size n) σ ∧ ∀ q, p.heap q = s.places (σ q)

/-- The heap is created for all pairs, or is there for all of them. -/
def HeapFits (s : Container K n) : Prop :=
  n ≤ maxRegions ∧ (s.heapLength = none ∨ s.heapLength = some (size n))

omit [Field K] [LinearOrder K] [FloorRing K] in
theorem newHeap_eq [NeZero n] (h : HeapFits s) :
    ∃ entry, s.newHeap = .ok { s with
      heapLength := some (size n), heap := s.places, entry := entry } := by
  have hn : 1 ≤ n := Nat.pos_of_neZero n
  unfold Container.newHeap Container.places
  rw [tdiv_bmod_pairs hn h.1]
  dsimp only
  rcases h.2 with hnone | hsome
  · rw [hnone, if_neg (by decide), if_neg (by omega), Int.toNat_natCast]
    exact ⟨_, rfl⟩
  · rw [if_pos (by rw [hsome]; rfl), if_pos (by rw [hsome]; rfl), ← hsome]
    exact ⟨s.entry, rfl⟩

theorem prepared_spec [NeZero n] (h : HeapFits s) : ∃ p, s.prepared = .ok p ∧ Prepared s p := by
  obtain ⟨entry, hnew⟩ := newHeap_eq h
  have hlength : (pairs n).length = size n := length_pairs n
  obtain ⟨filled, hfill, hsame, -⟩ := fill_spec (pairs n) (k := 0)
    (s := { s with
      heapLength := some (size n), heap := s.places, entry := entry, heapSize := size n })
    (fun p hp => mem_pairs hp) (by rw [hlength, Nat.zero_add]; rfl)
    (fun p hp => absurd hp (Nat.not_lt_zero p))
  obtain ⟨heap, hheapify, hordered, hperm⟩ := heapify_ordered filled
  have hplaces : filled.heap = s.places := by rw [hsame]
  have hsize : filled.heapSize = size n := by rw [hsame]
  have hprepared : s.prepared = .ok filled.heapify := by
    unfold Container.prepared
    rw [hnew]
    refine (congrArg (· >>= fun filled : Container K n => Except.ok filled.heapify) hfill).trans ?_
    rfl
  refine ⟨filled.heapify, hprepared, ?_, ?_, ?_, ⟨filled, rfl, hplaces, hsize, ?_⟩, ?_, ?_⟩
  · rw [hheapify, hsame]
  · intro q hq
    rw [hheapify]
    exact fill_row (pairs n) (fun p hp => hp) hfill (fun q hq => absurd hq (Nat.not_lt_zero q)) q
      (by rw [hlength]; omega)
  · intro q hq hlast
    rw [hheapify]
    have hrow := fill_last (pairs n) hfill hq (fun q' hlt hlt' => by
      rw [Nat.zero_add, Nat.zero_add]
      exact hlast q' hlt (hlength ▸ hlt'))
    rw [Nat.zero_add] at hrow
    exact hrow
  · rw [hheapify]
  · rw [hheapify, ← hsize]
    exact hordered
  · rw [hheapify, ← hsize, ← hplaces]
    exact hperm

/-- The pair at the top is of two regions, and has the area of their union. -/
theorem Prepared.top_row {p : Container K n} (h : Prepared s p) (hpos : 0 < size n) :
    ∃ pair ∈ pairs n, p.top = s.row pair := by
  obtain ⟨σ, hσ, hheap⟩ := h.perm
  obtain ⟨pair, hpair, hrow⟩ := h.row (σ 0) (hσ.lt hpos)
  refine ⟨pair, hpair, ?_⟩
  rw [← hrow, ← hheap 0]
  rfl

/-- What `heapCompress` begins with. -/
def Container.begin (p : Container K n) : Container K n := { p with invalidMask := 0 }

theorem Prepared.region {p : Container K n} (h : Prepared s p) (i : Fin n) :
    p.begin.region i = s.region i := by
  rw [h.same]
  rfl

theorem Prepared.topped {p : Container K n} (h : Prepared s p) (hpos : 0 < size n) :
    Topped p.begin := by
  obtain ⟨pair, hpair, hrow⟩ := h.top_row hpos
  have hsize : p.begin.heapSize = size n := by
    rw [h.same]
    rfl
  have htop : p.begin.top = s.row pair := hrow
  refine ⟨hsize ▸ hpos, ?_, ?_, ?_⟩
  · intro q hq
    exact h.ordered.top_le (hsize ▸ hq)
  · rw [htop]
    exact mem_pairs hpair
  · rw [htop, h.same]
    rfl

theorem half_le_size (hn : 2 ≤ n) : n / 2 ≤ size n := by
  have hle : n * 1 ≤ n * (n - 1) := Nat.mul_le_mul_left n (by omega)
  unfold size
  omega

/-- What a compression leaves, when `p` is the container with the heap in order. -/
def Container.compressed (p : Container K n) (last : Fin n) : Container K n :=
  { (Container.dropLast^[n / 2 - 1] (p.begin.dropLast.union p.top.fst p.top.snd)).swap p.top.snd last
    with emptyIndex := n - 1 }

/-- **A compression makes one union**, of the pair at the top of the heap; the last region
comes to the place of the one that has gone into the other. -/
theorem compressHeap_once [NeZero n] (hn : 2 ≤ n) (h : HeapFits s) (hfull : s.emptyIndex = n)
    (hregions : ∀ i, (s.region i).isEmpty = false) {last : Fin n} (hlast : last.val + 1 = n) :
    ∃ p, s.prepared = .ok p ∧ Prepared s p ∧ s.compressHeap = .ok (p.compressed last) := by
  obtain ⟨p, hp, hprepared⟩ := prepared_spec h
  have hhalf := half_le_size hn
  have htopped := hprepared.topped (by omega)
  have hsize : p.begin.heapSize = size n := by
    rw [hprepared.same]
    rfl
  have hmerge : Container.mergeLoop (n / 2) p.begin id
      = .ok (Container.dropLast^[n / 2 - 1] (p.begin.dropLast.union p.top.fst p.top.snd),
        Function.update id p.top.snd p.top.fst) := by
    have honce := mergeLoop_once hn (n / 2 - 1) (by rw [hsize]; omega) htopped rfl
      (by rw [hprepared.region]; exact hregions _) (by rw [hprepared.region]; exact hregions _)
    rwa [show n / 2 - 1 + 1 = n / 2 by omega] at honce
  refine ⟨p, hp, hprepared, ?_⟩
  rw [compressHeap_eq, hp]
  change (Container.mergeLoop (n / 2) p.begin id >>= _) = _
  rw [hmerge]
  have hempty : (Container.dropLast^[n / 2 - 1]
      (p.begin.dropLast.union p.top.fst p.top.snd)).emptyIndex = n := by
    obtain ⟨heap, size, heq⟩ := dropLast_iterate (n / 2 - 1)
      (p.begin.dropLast.union p.top.fst p.top.snd)
    rw [heq]
    change p.emptyIndex = n
    rw [hprepared.same]
    exact hfull
  exact compact_once htopped.ne hempty hlast _ rfl (Nat.zero_le _)

/-! ## The regions afterwards -/

omit [Field K] [FloorRing K] in
theorem region_union (s : Container K n) (i j k : Fin n) :
    (s.union i j).region k
      = if k = i then (s.region i).unionWith (s.region j) else s.region k := by
  split
  · rename_i hk
    rw [hk]
    exact region_setRect_self s i ((s.region i).unionWith (s.region j))
  · rename_i hk
    exact region_setRect_of_ne s hk _

omit [Field K] [FloorRing K] in
/-- Only the heap tells the turns without a union. -/
theorem compressed_eq (p : Container K n) (last : Fin n) : ∃ heap size, p.compressed last
    = { (p.begin.union p.top.fst p.top.snd).swap p.top.snd last with
        heap := heap, heapSize := size, emptyIndex := n - 1 } := by
  obtain ⟨heap, size, heq⟩ := dropLast_iterate (n / 2 - 1)
    (p.begin.dropLast.union p.top.fst p.top.snd)
  refine ⟨heap, size, ?_⟩
  unfold Container.compressed
  rw [heq]
  rfl

omit [Field K] [FloorRing K] in
theorem region_compressed (p : Container K n) (last k : Fin n) :
    (p.compressed last).region k
      = (p.union p.top.fst p.top.snd).region (Equiv.swap p.top.snd last k) := by
  obtain ⟨heap, size, heq⟩ := compressed_eq p last
  rw [heq]
  rfl

end JavaFx.Geom.DirtyRegionContainer
