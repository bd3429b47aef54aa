/-
The heap of a `DirtyRegionContainer`.

An array of the heap may be in several places, and then writing its area puts the heap out
of order. So nothing is known of what is at the top; but the loop of `takeMinWithMap` ends
all the same (`takeMinLoop_spec`): a turn of it computes an area that was not up to date,
or else the sift makes the heap lighter, and areas are bounded.
-/
import JavaFx.Geom.DirtyRegionContainer
import JavaFx.Lib.Forest
import Mathlib.Algebra.Order.BigOperators.Group.Finset

set_option autoImplicit false

namespace JavaFx.Geom.DirtyRegionContainer

open JavaFx.Lib

variable {n : ℕ} {map : Fin n → Fin n} {i j : Fin n}

/-! ## The map -/

/-- The region a region has gone into. -/
def into (map : Fin n → Fin n) (i : Fin n) : Option (Fin n) :=
  if map i = i then none else some (map i)

theorem resolveMap_spec (turns : ℕ) : ∀ {i : Fin n}, Rises (into map) turns i →
    ∃ r, resolveMap map turns i = .ok r ∧ map r = r := by
  induction turns with
  | zero => exact fun h => h.elim
  | succ turns ih =>
    intro i h
    rw [resolveMap]
    split
    · rename_i hroot
      exact ⟨i, rfl, hroot⟩
    · rename_i hroot
      exact ih (h (map i) (if_neg hroot))

/-- With `n` turns every region is resolved. -/
theorem resolveMap_ok (h : Acyclic (into map)) (i : Fin n) :
    ∃ r, resolveMap map n i = .ok r ∧ map r = r := by
  have hrises := h.rises i
  rw [Nat.card_eq_fintype_card, Fintype.card_fin] at hrises
  exact resolveMap_spec n hrises

/-- Where no region has gone anywhere there is nothing to resolve. -/
theorem resolveMap_id {turns : ℕ} {r : Fin n} (h : resolveMap id turns i = .ok r) : r = i := by
  cases turns with
  | zero => cases h
  | succ turns =>
    rw [resolveMap, if_pos (id_eq i)] at h
    exact (Except.ok.inj h).symm

theorem acyclic_into_id : Acyclic (into (id : Fin n → Fin n)) := by
  intro i p hp
  have hnone : into (id : Fin n → Fin n) i = none := if_pos rfl
  rw [hnone] at hp
  cases hp

/-- A region goes into another that has not gone anywhere. -/
theorem acyclic_into_update (h : Acyclic (into map)) (hi : map i = i) (hij : i ≠ j) :
    Acyclic (into (Function.update map j i)) := by
  have heq : into (Function.update map j i) = Function.update (into map) j (some i) := by
    funext k
    unfold into
    by_cases hk : k = j
    · rw [hk, Function.update_self, Function.update_self, if_neg hij]
    · rw [Function.update_of_ne hk, Function.update_of_ne hk]
  rw [heq]
  apply h.attach
  intro hunder
  exact hij (under_of_none (if_pos hi) hunder)

/-! ## Areas -/

variable {K : Type} {s s' : Container K n}

/-- An area that fits in an `int`, of two regions. -/
structure EntryOk (e : Entry n) : Prop where
  low : -2 ^ 31 ≤ e.area
  high : e.area ≤ 2 ^ 31
  ne : e.fst ≠ e.snd

/-- What is in the heap. -/
def Heaped (s : Container K n) : Prop := ∀ p < s.heapSize, EntryOk (s.entry (s.heap p))

/-- The key of an array of the heap. -/
def Container.area (s : Container K n) (a : ℕ) : ℤ := (s.entry a).area

theorem weight_le (h : Heaped s) :
    weight s.area s.heapSize s.heap ≤ s.heapSize * s.heapSize * 2 ^ 31 := by
  have hterm : ∀ p ∈ Finset.range s.heapSize,
      ((s.heapSize : ℤ) - p) * s.area (s.heap p) ≤ s.heapSize * 2 ^ 31 := by
    intro p hp
    have hp' := Finset.mem_range.mp hp
    have hhigh : s.area (s.heap p) ≤ 2 ^ 31 := (h p hp').high
    have hfac : (0 : ℤ) ≤ (s.heapSize : ℤ) - p := by omega
    calc ((s.heapSize : ℤ) - p) * s.area (s.heap p)
        ≤ ((s.heapSize : ℤ) - p) * 2 ^ 31 := mul_le_mul_of_nonneg_left hhigh hfac
      _ ≤ s.heapSize * 2 ^ 31 := mul_le_mul_of_nonneg_right (by omega) (by norm_num)
  have hsum := Finset.sum_le_card_nsmul _ _ _ hterm
  rw [Finset.card_range, nsmul_eq_mul, ← mul_assoc] at hsum
  exact hsum

theorem le_weight (h : Heaped s) :
    -(s.heapSize * s.heapSize * 2 ^ 31) ≤ weight s.area s.heapSize s.heap := by
  have hterm : ∀ p ∈ Finset.range s.heapSize,
      -(s.heapSize * 2 ^ 31 : ℤ) ≤ ((s.heapSize : ℤ) - p) * s.area (s.heap p) := by
    intro p hp
    have hp' := Finset.mem_range.mp hp
    have hlow : -2 ^ 31 ≤ s.area (s.heap p) := (h p hp').low
    have hfac : (0 : ℤ) ≤ (s.heapSize : ℤ) - p := by omega
    calc -(s.heapSize * 2 ^ 31 : ℤ)
        ≤ ((s.heapSize : ℤ) - p) * (-2 ^ 31) := by
          have := mul_nonneg (Int.natCast_nonneg p) (by norm_num : (0 : ℤ) ≤ 2 ^ 31)
          linarith
      _ ≤ ((s.heapSize : ℤ) - p) * s.area (s.heap p) := mul_le_mul_of_nonneg_left hlow hfac
  have hsum := Finset.card_nsmul_le_sum _ _ _ hterm
  rw [Finset.card_range, nsmul_eq_mul, mul_neg, ← mul_assoc] at hsum
  exact hsum

/-- What is sifted is still there. -/
theorem heaped_siftDown (h : Heaped s) (i : ℕ) : Heaped (s.siftDown i) := by
  obtain ⟨σ, hσ, heq⟩ := siftDown_perm (fun a => (s.entry a).area) s.heapSize s.heap i
  intro p hp
  change EntryOk (s.entry (JavaFx.Lib.siftDown (fun a => (s.entry a).area) s.heapSize s.heap i p))
  rw [heq p]
  exact h (σ p) (hσ.lt hp)

theorem heaped_setEntry (h : Heaped s) {e : Entry n} (he : EntryOk e) (a : ℕ) :
    Heaped (s.setEntry a e) := by
  intro p hp
  change EntryOk (Function.update s.entry a e (s.heap p))
  by_cases hp' : s.heap p = a
  · rw [hp', Function.update_self]
    exact he
  · rw [Function.update_of_ne hp']
    exact h p hp

/-- Only the heap and its arrays have changed. -/
structure Sifted (s s' : Container K n) : Prop where
  same : s' = { s with heap := s'.heap, entry := s'.entry }
  heaped : Heaped s'

theorem Sifted.trans {s'' : Container K n} (h : Sifted s s') (h' : Sifted s' s'') : Sifted s s'' := by
  refine ⟨?_, h'.heaped⟩
  rw [h'.same, h.same]

variable [Field K] [LinearOrder K] [FloorRing K]

theorem toInt_low (x : K) : -2 ^ 31 ≤ toInt x := le_max_left _ _

theorem toInt_high (x : K) : toInt x ≤ 2 ^ 31 :=
  max_le (by norm_num) ((min_le_left _ _).trans (by norm_num))

/-- The area of a pair as it is now, where the regions have gone. -/
def Container.current (s : Container K n) (root : Fin n → Fin n) (e : Entry n) : ℤ :=
  s.unifiedRegionArea (root e.fst) (root e.snd)

/-- How many places have an area that is not up to date. -/
def Container.stale (s : Container K n) (root : Fin n → Fin n) : ℕ :=
  ∑ p ∈ Finset.range s.heapSize,
    if s.area (s.heap p) = s.current root (s.entry (s.heap p)) then 0 else 1

theorem stale_le (s : Container K n) (root : Fin n → Fin n) : s.stale root ≤ s.heapSize := by
  have hterm : ∀ p ∈ Finset.range s.heapSize,
      (if s.area (s.heap p) = s.current root (s.entry (s.heap p)) then 0 else 1) ≤ 1 := by
    intro p _
    split <;> omega
  have hsum := Finset.sum_le_card_nsmul _ _ _ hterm
  rwa [Finset.card_range, nsmul_eq_mul, mul_one] at hsum

theorem stale_siftDown (s : Container K n) (root : Fin n → Fin n) (i : ℕ) :
    (s.siftDown i).stale root = s.stale root := by
  obtain ⟨σ, hσ, heq⟩ := siftDown_perm (fun a => (s.entry a).area) s.heapSize s.heap i
  rw [Container.stale, Container.stale, ← hσ.sum_comp]
  apply Finset.sum_congr rfl
  intro p _
  have hp : (s.siftDown i).heap p = s.heap (σ p) := heq p
  rw [hp]
  rfl

/-- The area at the top is brought up to date. -/
def Container.recompute (s : Container K n) (root : Fin n → Fin n) : Container K n :=
  s.setEntry (s.heap 0)
    { s.entry (s.heap 0) with area := s.current root (s.entry (s.heap 0)) }

theorem recompute_of_current {root : Fin n → Fin n}
    (h : s.area (s.heap 0) = s.current root (s.entry (s.heap 0))) : s.recompute root = s := by
  unfold Container.recompute Container.setEntry
  rw [← h]
  exact congrArg (fun entry => { s with entry := entry }) (Function.update_eq_self (s.heap 0) s.entry)

theorem stale_recompute_lt {root : Fin n → Fin n} (hsize : 0 < s.heapSize)
    (h : s.area (s.heap 0) ≠ s.current root (s.entry (s.heap 0))) :
    (s.recompute root).stale root < s.stale root := by
  have hentry : ∀ a, a ≠ s.heap 0 → (s.recompute root).entry a = s.entry a :=
    fun a ha => Function.update_of_ne ha _ _
  have htop : (s.recompute root).area (s.heap 0) =
      (s.recompute root).current root ((s.recompute root).entry (s.heap 0)) := by
    unfold Container.area Container.recompute Container.setEntry
    dsimp only
    rw [Function.update_self]
    rfl
  apply Finset.sum_lt_sum
  · intro p _
    change (if (s.recompute root).area (s.heap p) =
      (s.recompute root).current root ((s.recompute root).entry (s.heap p)) then 0 else 1) ≤ _
    by_cases hp : s.heap p = s.heap 0
    · rw [hp, if_pos htop]
      exact Nat.zero_le _
    · unfold Container.area
      rw [hentry _ hp]
      exact le_of_eq rfl
  · refine ⟨0, Finset.mem_range.mpr hsize, ?_⟩
    change (if (s.recompute root).area (s.heap 0) =
      (s.recompute root).current root ((s.recompute root).entry (s.heap 0)) then 0 else 1) < _
    rw [if_pos htop, if_neg h]
    exact Nat.one_pos

/-- What a turn of the loop has done with. -/
def Container.measure (s : Container K n) (root : Fin n → Fin n) : ℤ :=
  s.stale root * (s.heapSize * s.heapSize * 2 ^ 32 + 1)
    + (weight s.area s.heapSize s.heap + s.heapSize * s.heapSize * 2 ^ 31)

omit [Field K] [LinearOrder K] [FloorRing K] in
theorem heapSize_nonneg (s : Container K n) : (0 : ℤ) ≤ s.heapSize * s.heapSize * 2 ^ 32 + 1 :=
  add_nonneg (mul_nonneg (mul_nonneg (Int.natCast_nonneg _) (Int.natCast_nonneg _)) (by norm_num))
    zero_le_one

theorem measure_lt {root : Fin n → Fin n} (hsize : 0 < s.heapSize) (hheap : Heaped s)
    (hheap' : Heaped ((s.recompute root).siftDown 0))
    (htop : ((s.recompute root).siftDown 0).heap 0 ≠ s.heap 0) :
    ((s.recompute root).siftDown 0).measure root < s.measure root := by
  have hsize' : ((s.recompute root).siftDown 0).heapSize = s.heapSize := rfl
  have hlow := le_weight hheap
  have hhigh := weight_le hheap'
  rw [Container.measure, Container.measure, stale_siftDown, hsize']
  rw [hsize'] at hhigh
  by_cases hcurrent : s.area (s.heap 0) = s.current root (s.entry (s.heap 0))
  · -- nothing new, so the heap has become lighter
    rw [recompute_of_current hcurrent] at htop ⊢
    have hlighter : weight s.area s.heapSize (s.siftDown 0).heap < weight s.area s.heapSize s.heap := by
      rcases siftDown_eq_or_lighter (fun a => (s.entry a).area) s.heapSize s.heap 0 with heq | hlt
      · exact absurd (congrFun heq 0) htop
      · exact hlt
    exact add_lt_add_right (add_lt_add_left hlighter _) _
  · have hstale := stale_recompute_lt hsize hcurrent
    have hstale' : ((s.recompute root).stale root : ℤ) + 1 ≤ s.stale root := by omega
    have hprod := mul_le_mul_of_nonneg_right hstale'
      (heapSize_nonneg s)
    linarith

theorem takeMinLoop_spec {root : Fin n → Fin n} (hroot : ∀ i, resolveMap map n i = .ok (root i))
    (turns : ℕ) : ∀ {s : Container K n}, 0 < s.heapSize → Heaped s → s.measure root < turns →
      ∃ s', Container.takeMinLoop map turns s = .ok s' ∧ Sifted s s' := by
  induction turns with
  | zero =>
    intro s _ hheap hmeasure
    have hlow := le_weight hheap
    have hstale : (0 : ℤ) ≤ s.stale root * (s.heapSize * s.heapSize * 2 ^ 32 + 1) := 
      mul_nonneg (Int.natCast_nonneg _) (heapSize_nonneg s)
    unfold Container.measure at hmeasure
    rw [Nat.cast_zero] at hmeasure
    linarith
  | succ turns ih =>
    intro s hsize hheap hmeasure
    rw [Container.takeMinLoop]
    split
    · rw [hroot, hroot]
      have hok : EntryOk { s.entry (s.heap 0) with
          area := s.current root (s.entry (s.heap 0)) } :=
        ⟨toInt_low _, toInt_high _, (hheap 0 hsize).ne⟩
      have hheap₁ : Heaped (s.recompute root) := heaped_setEntry hheap hok _
      have hheap₂ := heaped_siftDown hheap₁ 0
      have hsifted : Sifted s ((s.recompute root).siftDown 0) := ⟨rfl, hheap₂⟩
      change ∃ s', (if ((s.recompute root).siftDown 0).heap 0 = s.heap 0 then
          .ok ((s.recompute root).siftDown 0)
        else Container.takeMinLoop map turns ((s.recompute root).siftDown 0)) = .ok s' ∧ _
      split
      · exact ⟨_, rfl, hsifted⟩
      · rename_i htop
        have hsize₂ : 0 < ((s.recompute root).siftDown 0).heapSize := hsize
        have hless := measure_lt hsize hheap hheap₂ htop
        rw [Nat.cast_succ] at hmeasure
        obtain ⟨s', hs', hsifted'⟩ := ih hsize₂ hheap₂ (by omega)
        exact ⟨s', hs', hsifted.trans hsifted'⟩
    · exact ⟨s, rfl, rfl, hheap⟩

/-- The turns of `takeMinWithMap` do. -/
theorem measure_lt_turns (h : Heaped s) (root : Fin n → Fin n) :
    s.measure root < turns s.heapSize := by
  have hhigh := weight_le h
  have hstale : (s.stale root : ℤ) ≤ s.heapSize := Int.ofNat_le.mpr (stale_le s root)
  have hprod := mul_le_mul_of_nonneg_right hstale
    (heapSize_nonneg s)
  have hturns : (turns s.heapSize : ℤ) =
      (s.heapSize + 1) * (s.heapSize * s.heapSize * 2 ^ 32 + 1) := by
    unfold turns
    rw [Nat.cast_mul, Nat.cast_succ, Nat.cast_succ, Nat.cast_mul, Nat.cast_mul, Nat.cast_pow]
    rfl
  rw [hturns, Container.measure]
  linarith

theorem takeMinWithMap_spec (hmap : Acyclic (into map)) (hsize : 0 < s.heapSize) (h : Heaped s) :
    ∃ min s', s.takeMinWithMap map = .ok (min, s') ∧ min.fst ≠ min.snd
      ∧ s' = { s with heap := s'.heap, entry := s'.entry, heapSize := s.heapSize - 1 }
      ∧ Heaped s' := by
  choose root hroot using fun i => (resolveMap_ok hmap i).imp fun _ hr => hr.1
  obtain ⟨s₁, hs₁, hsame, hheap⟩ := takeMinLoop_spec hroot (turns s.heapSize) hsize h
    (measure_lt_turns h root)
  have hsize₁ : s₁.heapSize = s.heapSize := by rw [hsame]
  have hpos₁ : 0 < s₁.heapSize := by rw [hsize₁]; exact hsize
  have hheap₂ : Heaped
      { s₁ with heap := Function.update s₁.heap (s₁.heapSize - 1) (s₁.heap 0) } := by
    intro p hp
    change EntryOk (s₁.entry (Function.update s₁.heap (s₁.heapSize - 1) (s₁.heap 0) p))
    by_cases hlast : p = s₁.heapSize - 1
    · rw [hlast, Function.update_self]
      exact hheap 0 hpos₁
    · rw [Function.update_of_ne hlast]
      exact hheap p hp
  have hheap₃ := heaped_siftDown hheap₂ 0
  unfold Container.takeMinWithMap
  rw [if_neg (by omega), hs₁]
  refine ⟨_, _, rfl, (hheap 0 hpos₁).ne, ?_, ?_⟩
  · rw [hsame]
    rfl
  · intro p hp
    exact hheap₃ p (by change p < s₁.heapSize - 1 at hp; change p < s₁.heapSize; omega)

end JavaFx.Geom.DirtyRegionContainer
