/-
Runs of additions to a `DirtyRegionContainer`.

An addition ends in a state that covers what was covered before and what is added, or in an
exception of `compress_heap`, and that only where the number of pairs of regions is no
`int` (`addDirtyRegion_outcome`). There it does come to that: one point more than there is
room for is enough (`points_run`).
-/
import JavaFx.Geom.DirtyRegionCompress
import Mathlib.Data.Rat.Floor

set_option autoImplicit false

namespace JavaFx.Geom.DirtyRegionContainer

open JavaFx.Lib

variable {K : Type} {n : ℕ} {s s' : Container K n} {region : Option (Fin n)} {p : K × K}

/-! ## Overlapping regions -/

section Absorb

variable [LinearOrder K]

/-- A point is in the region that is added, or in one that is there. -/
def CoveredWith (s : Container K n) (region : Option (Fin n)) (p : K × K) : Prop :=
  p ∈ (s.rect region).points ∨ ∃ j : Fin n, j < s.emptyIndex ∧ p ∈ (s.region j).points

/-- Overlapping regions have been taken over by the region that is added. -/
structure Absorbed (region : Option (Fin n)) (s s' : Container K n) : Prop where
  le : s'.emptyIndex ≤ s.emptyIndex
  heapLength : s'.heapLength = s.heapLength
  cover : ∀ p, CoveredWith s region p → CoveredWith s' region p

theorem Absorbed.refl (region : Option (Fin n)) (s : Container K n) : Absorbed region s s :=
  ⟨le_refl _, rfl, fun _ hp => hp⟩

theorem Absorbed.trans {s'' : Container K n} (h : Absorbed region s s') (h' : Absorbed region s' s'') :
    Absorbed region s s'' :=
  ⟨h'.le.trans h.le, h'.heapLength.trans h.heapLength, fun p hp => h'.cover p (h.cover p hp)⟩

/-- An object that grows. -/
theorem points_setRect {r : RectBounds K} (hgrow : ∀ q ∈ (s.rect region).points, q ∈ r.points)
    {o : Option (Fin n)} (hp : p ∈ (s.rect o).points) : p ∈ ((s.setRect region r).rect o).points := by
  unfold Container.setRect
  dsimp only
  by_cases ho : o = region
  · rw [ho, Function.update_self]
    rw [ho] at hp
    exact hgrow p hp
  · rw [Function.update_of_ne ho]
    exact hp

/-- One region is taken over; the last one comes to its place. -/
theorem absorbed_one {temp last : Fin n} (hlast : last + 1 = s.emptyIndex) (hle : temp ≤ last) :
    Absorbed region s
      { (s.setRect region ((s.rect region).unionWith (s.region temp))).swap temp last with
        emptyIndex := s.emptyIndex - 1 } := by
  have hgrow : ∀ q ∈ (s.rect region).points,
      q ∈ ((s.rect region).unionWith (s.region temp)).points := fun _ => points_unionWith_left
  have hself := rect_setRect_self s region ((s.rect region).unionWith (s.region temp))
  refine ⟨Nat.sub_le _ _, rfl, ?_⟩
  rintro q (hq | ⟨j, hj, hq⟩)
  · left
    change q ∈ ((s.setRect region ((s.rect region).unionWith (s.region temp))).rect region).points
    rw [hself]
    exact hgrow q hq
  · by_cases hjt : j = temp
    · left
      change q ∈ ((s.setRect region ((s.rect region).unionWith (s.region temp))).rect region).points
      rw [hself]
      rw [hjt] at hq
      exact points_unionWith_right hq
    · right
      have hkept := points_setRect hgrow hq
      by_cases hjl : j = last
      · have hne : (temp : ℕ) ≠ last := fun heq => hjt (hjl.trans (Fin.ext heq).symm)
        have hle' : (temp : ℕ) ≤ last := hle
        refine ⟨temp, ?_, ?_⟩
        · dsimp only
          omega
        · change q ∈ ((s.setRect region _).rect (some (s.dirtyRegions (Equiv.swap temp last temp)))).points
          rw [Equiv.swap_apply_left, ← hjl]
          exact hkept
      · have hne : (j : ℕ) ≠ last := fun heq => hjl (Fin.ext heq)
        refine ⟨j, ?_, ?_⟩
        · dsimp only
          omega
        · change q ∈ ((s.setRect region _).rect (some (s.dirtyRegions (Equiv.swap temp last j)))).points
          rw [Equiv.swap_apply_of_ne_of_ne hjt hjl]
          exact hkept

/-- The loop has met all the regions. If there are as many as before it has changed nothing. -/
theorem absorb_spec (region : Option (Fin n)) (count : ℕ) : ∀ {s : Container K n} {temp : ℕ},
    temp + count = s.emptyIndex → s.emptyIndex ≤ n →
    ∃ s', Container.absorb region count temp s = .ok s' ∧ Absorbed region s s'
      ∧ (s' = s ∧ (∀ j : Fin n, temp ≤ j → j < s.emptyIndex →
            (s.rect region).intersects (s.region j) = false)
          ∨ s'.emptyIndex < s.emptyIndex) := by
  induction count with
  | zero =>
    intro s temp hcount _
    refine ⟨s, rfl, Absorbed.refl region s, Or.inl ⟨rfl, ?_⟩⟩
    intro j hj hje
    omega
  | succ count ih =>
    intro s temp hcount hle
    have htemp : temp < n := by omega
    obtain ⟨e, he⟩ : ∃ e, s.emptyIndex = e + 1 := ⟨temp + count, by omega⟩
    have hlast : e < n := by omega
    have hplace : place n temp = .ok ⟨temp, htemp⟩ := dif_pos htemp
    have hbefore : placeBefore n s.emptyIndex = .ok ⟨e, hlast⟩ := by
      rw [he]
      exact dif_pos hlast
    rw [Container.absorb, hplace, hbefore]
    change ∃ s', (if (s.rect region).intersects (s.region ⟨temp, htemp⟩) then
        Container.absorb region count temp _
      else Container.absorb region count (temp + 1) s) = .ok s' ∧ _
    split
    · have hone : Absorbed region s _ :=
        absorbed_one (he.symm : ((⟨e, hlast⟩ : Fin n) : ℕ) + 1 = s.emptyIndex)
          (show (⟨temp, htemp⟩ : Fin n) ≤ ⟨e, hlast⟩ by change temp ≤ e; omega)
      obtain ⟨s', hs', habsorbed, -⟩ := @ih { (s.setRect region
          ((s.rect region).unionWith (s.region ⟨temp, htemp⟩))).swap ⟨temp, htemp⟩ ⟨e, hlast⟩ with
        emptyIndex := s.emptyIndex - 1 } temp (by dsimp only; omega) (by dsimp only; omega)
      refine ⟨s', hs', hone.trans habsorbed, Or.inr ?_⟩
      have hfewer := habsorbed.le
      dsimp only at hfewer
      omega
    · rename_i hdisjoint
      obtain ⟨s', hs', habsorbed, hsame⟩ := @ih s (temp + 1) (by omega) hle
      refine ⟨s', hs', habsorbed, hsame.imp_left ?_⟩
      rintro ⟨heq, hrest⟩
      refine ⟨heq, fun j hj hje => ?_⟩
      by_cases hjt : (j : ℕ) = temp
      · rw [show j = ⟨temp, htemp⟩ from Fin.ext hjt]
        exact eq_false_of_ne_true hdisjoint
      · exact hrest j (by omega) hje

/-- Where nothing overlaps the loop changes nothing. -/
theorem absorb_of_disjoint (hle : s.emptyIndex ≤ n)
    (h : ∀ j : Fin n, j < s.emptyIndex → (s.rect region).intersects (s.region j) = false)
    (count : ℕ) : ∀ {temp : ℕ}, temp + count = s.emptyIndex →
      Container.absorb region count temp s = .ok s := by
  induction count with
  | zero => exact fun _ => rfl
  | succ count ih =>
    intro temp hcount
    have htemp : temp < n := by omega
    have hplace : place n temp = .ok ⟨temp, htemp⟩ := dif_pos htemp
    rw [Container.absorb, hplace]
    change (if (s.rect region).intersects (s.region ⟨temp, htemp⟩) then _
      else Container.absorb region count (temp + 1) s) = _
    rw [h ⟨temp, htemp⟩ (by change temp < s.emptyIndex; omega), if_neg (by decide)]
    exact ih (by omega)

end Absorb

/-! ## Additions -/

/-- The heap is there for each pair, if it is there. -/
def HeapOk (s : Container K n) : Prop :=
  s.heapLength = none ∨ n ≤ maxRegions ∧ s.heapLength = some (n * (n - 1) / 2)

variable [LinearOrder K]

/-- A region has been stored. -/
structure Stored (region : Option (Fin n)) (s s' : Container K n) : Prop where
  le : s'.emptyIndex ≤ n
  heapOk : HeapOk s'
  cover : ∀ p, CoveredWith s region p → ∃ j : Fin n, j < s'.emptyIndex ∧ p ∈ (s'.region j).points

variable [Field K]

/-- There is a place for the region. -/
theorem stored_free (hheap : HeapOk s) {free : Fin n} (hfree : (free : ℕ) = s.emptyIndex) :
    Stored region s
      { s.setRect (some (s.dirtyRegions free)) (RectBounds.deriveWithNewBounds (s.rect region)) with
        emptyIndex := s.emptyIndex + 1 } := by
  have hlt := free.isLt
  refine ⟨by dsimp only; omega, hheap, ?_⟩
  rintro p (hp | ⟨j, hj, hp⟩)
  · refine ⟨free, by dsimp only; omega, ?_⟩
    change p ∈ ((s.setRect (some (s.dirtyRegions free)) _).region free).points
    rw [region_setRect_self]
    exact points_deriveWithNewBounds hp
  · refine ⟨j, by dsimp only; omega, ?_⟩
    have hne : j ≠ free := by
      rintro rfl
      omega
    change p ∈ ((s.setRect (some (s.dirtyRegions free)) _).region j).points
    rw [region_setRect_of_ne s hne]
    exact hp

omit [Field K] in
/-- The only region there can be is made larger. -/
theorem stored_single [NeZero n] (hheap : HeapOk s) (hfull : s.emptyIndex = n) (hn : n = 1) :
    Stored region s
      (s.setRect (some (s.dirtyRegions 0)) ((s.region 0).unionWith (s.rect region))) := by
  have hpos : ((0 : Fin n) : ℕ) < s.emptyIndex := by
    rw [hfull]
    exact (0 : Fin n).isLt
  refine ⟨le_of_eq hfull, hheap, ?_⟩
  rintro p (hp | ⟨j, hj, hp⟩)
  · refine ⟨0, hpos, ?_⟩
    rw [region_setRect_self]
    exact points_unionWith_right hp
  · have hj0 : j = 0 := by
      apply Fin.ext
      have := j.isLt
      rw [Fin.val_zero]
      omega
    refine ⟨0, hpos, ?_⟩
    rw [region_setRect_self]
    rw [hj0] at hp
    exact points_unionWith_left hp

variable [FloorRing K] [NeZero n]

/-- With room there is no compression. -/
theorem addDirtyRegion_of_room (hheap : HeapOk s) (hroom : s.emptyIndex < n) (calls : ℕ) :
    ∃ s', Container.addDirtyRegion region (calls + 1) s = .ok s' ∧ Stored region s s' := by
  rw [Container.addDirtyRegion]
  split
  · rename_i hempty
    refine ⟨s, rfl, le_of_lt hroom, hheap, ?_⟩
    rintro p (hp | hp)
    · exact absurd hp (points_of_isEmpty hempty)
    · exact hp
  · obtain ⟨s₁, hs₁, habsorbed, -⟩ := absorb_spec region s.emptyIndex (Nat.zero_add _) (le_of_lt hroom)
    have hroom₁ : s₁.emptyIndex < n := lt_of_le_of_lt habsorbed.le hroom
    have hheap₁ : HeapOk s₁ := by
      unfold HeapOk
      rw [habsorbed.heapLength]
      exact hheap
    have hplace : place n s₁.emptyIndex = .ok ⟨s₁.emptyIndex, hroom₁⟩ := dif_pos hroom₁
    have hstored : Stored region s₁ _ :=
      stored_free hheap₁ (show ((⟨s₁.emptyIndex, hroom₁⟩ : Fin n) : ℕ) = s₁.emptyIndex from rfl)
    rw [hs₁]
    refine ⟨_, ?_, hstored.le, hstored.heapOk, fun p hp => hstored.cover p (habsorbed.cover p hp)⟩
    change (if s₁.emptyIndex < n then place n s₁.emptyIndex >>= _ else _) = _
    rw [if_pos hroom₁, hplace]
    rfl

omit [Field K] [FloorRing K] [NeZero n] in
/-- A region overlaps itself. -/
theorem intersects_self {r : RectBounds K} (h : r.isEmpty = false) : r.intersects r = true := by
  have hle : r.minX ≤ r.maxX ∧ r.minY ≤ r.maxY := by
    unfold RectBounds.isEmpty at h
    rw [Bool.not_eq_false', Bool.and_eq_true] at h
    exact ⟨of_decide_eq_true h.1, of_decide_eq_true h.2⟩
  unfold RectBounds.intersects
  rw [h, decide_eq_true hle.1, decide_eq_true hle.2]
  rfl

/-- A call that makes room first. -/
theorem addDirtyRegion_compress (hempty : (s.rect region).isEmpty = false) (hfull : s.emptyIndex = n)
    (hn : n ≠ 1) (hsame : Container.absorb region s.emptyIndex 0 s = .ok s) :
    Container.addDirtyRegion region 2 s =
      s.compressHeap >>= fun compressed => Container.addDirtyRegion region 1 compressed := by
  rw [Container.addDirtyRegion, if_neg (by rw [hempty]; decide), hsame]
  change (if s.emptyIndex < n then _ else if n = 1 then _ else _) = _
  rw [if_neg (by omega), if_neg hn]

theorem addDirtyRegion_outcome (hle : s.emptyIndex ≤ n) (hheap : HeapOk s) :
    (∃ s', Container.addDirtyRegion region 2 s = .ok s' ∧ Stored region s s')
      ∨ maxRegions < n ∧ ∃ e, Container.addDirtyRegion region 2 s = .error e := by
  rcases lt_or_eq_of_le hle with hroom | hfull
  · exact Or.inl (addDirtyRegion_of_room hheap hroom 1)
  cases hempty : (s.rect region).isEmpty with
  | true =>
    left
    refine ⟨s, ?_, hle, hheap, ?_⟩
    · rw [Container.addDirtyRegion, if_pos hempty]
    · rintro p (hp | hp)
      · exact absurd hp (points_of_isEmpty hempty)
      · exact hp
  | false =>
    obtain ⟨s₁, hs₁, habsorbed, hsame⟩ := absorb_spec region s.emptyIndex (Nat.zero_add _) hle
    have hheap₁ : HeapOk s₁ := by
      unfold HeapOk
      rw [habsorbed.heapLength]
      exact hheap
    rcases hsame with ⟨rfl, hdisjoint⟩ | hfewer
    · by_cases hn : n = 1
      · left
        have hstored : Stored region s₁ _ := stored_single hheap hfull hn
        refine ⟨_, ?_, hstored⟩
        rw [Container.addDirtyRegion, if_neg (by rw [hempty]; decide), hs₁]
        change (if s₁.emptyIndex < n then _ else if n = 1 then _ else _) = _
        rw [if_neg (by omega), if_pos hn]
        rfl
      · -- a region of the container would have met itself
        have hforeign : region = none := by
          cases region with
          | none => rfl
          | some o =>
            exfalso
            have hself := hdisjoint (s₁.dirtyRegions.symm o) (Nat.zero_le _) (by
              rw [hfull]
              exact (s₁.dirtyRegions.symm o).isLt)
            unfold Container.region at hself
            rw [Equiv.apply_symm_apply, intersects_self hempty] at hself
            cases hself
        subst hforeign
        rw [addDirtyRegion_compress hempty hfull hn hs₁]
        rcases Nat.lt_or_ge maxRegions n with hmax | hmax
        · right
          have hnone : s₁.heapLength = none := hheap.resolve_right fun h => by omega
          obtain ⟨e, he⟩ := compressHeap_error hmax hnone
          rw [he]
          exact ⟨hmax, e, rfl⟩
        · left
          have hn1 : 1 ≤ n := Nat.pos_of_neZero n
          obtain ⟨s₂, hs₂, hroom, hlength, harg, hcover⟩ := compressHeap_spec (by omega) hmax hfull
            (hheap.imp_right fun h => h.2)
          obtain ⟨s₃, hs₃, hstored⟩ : ∃ s₃, Container.addDirtyRegion none 1 s₂ = .ok s₃
              ∧ Stored none s₂ s₃ := addDirtyRegion_of_room (Or.inr ⟨hmax, hlength⟩) hroom 0
          refine ⟨s₃, ?_, hstored.le, hstored.heapOk, ?_⟩
          · rw [hs₂]
            exact hs₃
          · rintro p (hp | ⟨j, -, hp⟩)
            · apply hstored.cover
              left
              rwa [harg]
            · exact hstored.cover p (Or.inr (hcover j p hp))
    · left
      have hroom : s₁.emptyIndex < n := lt_of_lt_of_le hfewer hle
      have hplace : place n s₁.emptyIndex = .ok ⟨s₁.emptyIndex, hroom⟩ := dif_pos hroom
      have hstored : Stored region s₁ _ :=
        stored_free hheap₁ (show ((⟨s₁.emptyIndex, hroom⟩ : Fin n) : ℕ) = s₁.emptyIndex from rfl)
      refine ⟨_, ?_, hstored.le, hstored.heapOk, fun p hp => hstored.cover p (habsorbed.cover p hp)⟩
      rw [Container.addDirtyRegion, if_neg (by rw [hempty]; decide), hs₁]
      change (if s₁.emptyIndex < n then place n s₁.emptyIndex >>= _ else _) = _
      rw [if_pos hroom, hplace]
      rfl

/-! ## Runs -/

/-- What holds between calls. -/
structure Good (w : World K n) : Prop where
  heapOk : HeapOk w.container
  covered : Covered w

/-- A call returns in a good state, unless there are too many regions. -/
def Outcome : Except Ending (World K n) → Prop
  | .ok w => Good w
  | .error _ => maxRegions < n

theorem addObject_outcome {w : World K n} (h : Good w) (o : Option (Fin n)) :
    Outcome (w.addObject o) := by
  unfold World.addObject
  have houtcome : (∃ s', Container.addDirtyRegion o 2 w.container = .ok s' ∧ Stored o w.container s')
      ∨ _ := addDirtyRegion_outcome h.covered.1 h.heapOk
  rcases houtcome with ⟨s', hs', hstored⟩ | ⟨hmax, e, he⟩
  · rw [hs']
    refine ⟨hstored.heapOk, hstored.le, ?_⟩
    rintro p (hp | hp)
    · exact hstored.cover p (Or.inr (h.covered.2 p hp))
    · exact hstored.cover p (Or.inl hp)
  · rw [he]
    exact hmax

theorem addRect_outcome {w : World K n} (h : Good w) (r : RectBounds K) : Outcome (w.addRect r) := by
  apply addObject_outcome
  refine ⟨h.heapOk, h.covered.1, ?_⟩
  intro p hp
  obtain ⟨i, hi, hpi⟩ := h.covered.2 p hp
  refine ⟨i, hi, ?_⟩
  change p ∈ ((w.container.setRect none r).region i).points
  rw [region_setRect_none]
  exact hpi

theorem addPlace_outcome {w : World K n} (h : Good w) {i : ℕ} (hi : i < n) :
    Outcome (w.addPlace i) := by
  have hplace : place n i = .ok ⟨i, hi⟩ := dif_pos hi
  unfold World.addPlace
  rw [hplace]
  exact addObject_outcome h _

omit [Field K] [FloorRing K] [NeZero n] in
/-- Calls one after the other. -/
theorem foldlM_outcome {A : Type} {f : World K n → A → Except Ending (World K n)} (l : List A)
    (hf : ∀ a ∈ l, ∀ w, Good w → Outcome (f w a)) :
    ∀ {w : World K n}, Good w → Outcome (l.foldlM f w) := by
  induction l with
  | nil => exact fun h => h
  | cons a l ih =>
    intro w h
    have hfirst := hf a List.mem_cons_self w h
    rw [List.foldlM_cons]
    cases hw : f w a with
    | error e =>
      rw [hw] at hfirst
      exact hfirst
    | ok w' =>
      rw [hw] at hfirst
      exact ih (fun b hb => hf b (List.mem_cons_of_mem _ hb)) hfirst

theorem step_outcome {w : World K n} (h : Good w) (a : Action K n) : Outcome (step w a) := by
  cases a with
  | addDirtyRegion r => exact addRect_outcome h r
  | addOwnRegion i => exact addPlace_outcome h i.isLt
  | merge other => exact foldlM_outcome other (fun r _ w hw => addRect_outcome hw r) h
  | mergeItself =>
    refine foldlM_outcome _ (fun i hi w hw => addPlace_outcome hw ?_) h
    exact lt_of_lt_of_le (List.mem_range.mp hi) h.covered.1
  | reset =>
    refine ⟨h.heapOk, Nat.zero_le n, ?_⟩
    intro p hp
    cases hp

theorem run_outcome (actions : List (Action K n)) :
    ∀ {w : World K n}, Good w → Outcome (run step w actions) := by
  induction actions with
  | nil => exact fun h => h
  | cons a actions ih =>
    intro w h
    have hstep := step_outcome h a
    cases hw : step w a with
    | error e =>
      rw [hw] at hstep
      rw [run, hw]
      exact hstep
    | ok w' =>
      rw [hw] at hstep
      rw [run_cons_ok hw]
      exact ih hstep

theorem good_start (K : Type) [Field K] [LinearOrder K] (n : ℕ) [NeZero n] : Good (start K n) := by
  refine ⟨Or.inl rfl, Nat.zero_le n, ?_⟩
  intro p hp
  cases hp

/-! ## Too many regions -/

/-- A point on the first axis. -/
def point (K : Type) [Field K] (k : ℕ) : RectBounds K := ⟨k, 0, k, 0⟩

omit [FloorRing K] [NeZero n] in
theorem point_isEmpty (k : ℕ) : (point K k).isEmpty = false := by
  unfold RectBounds.isEmpty point
  rw [decide_eq_true (le_refl _), decide_eq_true (le_refl _)]
  rfl

omit [FloorRing K] [NeZero n] in
theorem point_intersects [IsStrictOrderedRing K] {j k : ℕ} (h : j ≠ k) :
    (point K k).intersects (point K j) = false := by
  have hcast : ¬ ((k : K) ≤ j ∧ (j : K) ≤ k) := by
    rintro ⟨hkj, hjk⟩
    exact h (le_antisymm (Nat.cast_le.mp hjk) (Nat.cast_le.mp hkj))
  apply eq_false_of_ne_true
  intro htrue
  unfold RectBounds.intersects at htrue
  simp only [Bool.and_eq_true, decide_eq_true_eq] at htrue
  exact hcast ⟨htrue.1.1.1.2, htrue.1.2⟩

/-- The first points have been added, and stand side by side. -/
structure Spread (s : Container K n) (k : ℕ) : Prop where
  emptyIndex : s.emptyIndex = k
  heapLength : s.heapLength = none
  region : ∀ j : Fin n, j < k → s.region j = point K j

omit [FloorRing K] [NeZero n] [LinearOrder K] in
theorem Spread.setRect_none {k : ℕ} (h : Spread s k) (r : RectBounds K) :
    Spread (s.setRect none r) k := by
  refine ⟨h.emptyIndex, h.heapLength, ?_⟩
  intro j hj
  rw [region_setRect_none]
  exact h.region j hj

omit [FloorRing K] [NeZero n] in
theorem Spread.absorb [IsStrictOrderedRing K] {k : ℕ} (h : Spread s k) (hle : k ≤ n)
    (harg : s.rect none = point K k) : Container.absorb none s.emptyIndex 0 s = .ok s := by
  refine absorb_of_disjoint (by rw [h.emptyIndex]; exact hle) ?_ _ (Nat.zero_add _)
  intro j hj
  rw [h.emptyIndex] at hj
  rw [harg, h.region j hj]
  exact point_intersects (Nat.ne_of_lt hj)

theorem Spread.addDirtyRegion [IsStrictOrderedRing K] {k : ℕ} (h : Spread s k) (hk : k < n)
    (harg : s.rect none = point K k) :
    ∃ s', Container.addDirtyRegion none 2 s = .ok s' ∧ Spread s' (k + 1) := by
  have hlt : s.emptyIndex < n := by
    rw [h.emptyIndex]
    exact hk
  have hplace : place n s.emptyIndex = .ok ⟨k, hk⟩ := by
    rw [h.emptyIndex]
    exact dif_pos hk
  have hderive : RectBounds.deriveWithNewBounds (s.rect none) = point K k := by
    rw [harg]
    exact if_neg (by rw [point_isEmpty]; decide)
  refine ⟨{ s.setRect (some (s.dirtyRegions ⟨k, hk⟩))
      (RectBounds.deriveWithNewBounds (s.rect none)) with emptyIndex := s.emptyIndex + 1 }, ?_, ?_⟩
  · rw [Container.addDirtyRegion, if_neg (by rw [harg, point_isEmpty]; decide),
      h.absorb (le_of_lt hk) harg]
    change (if s.emptyIndex < n then place n s.emptyIndex >>= _ else _) = _
    rw [if_pos hlt, hplace]
    rfl
  · refine ⟨congrArg (· + 1) h.emptyIndex, h.heapLength, ?_⟩
    intro j hj
    by_cases hjk : j = ⟨k, hk⟩
    · rw [hjk]
      exact (region_setRect_self s ⟨k, hk⟩ _).trans hderive
    · refine (region_setRect_of_ne s hjk _).trans (h.region j ?_)
      have hne : (j : ℕ) ≠ k := fun heq => hjk (Fin.ext heq)
      omega

theorem Spread.add [IsStrictOrderedRing K] {w : World K n} {k : ℕ} (h : Spread w.container k)
    (hk : k < n) :
    ∃ w', step w (.addDirtyRegion (point K k)) = .ok w' ∧ Spread w'.container (k + 1) := by
  obtain ⟨s', hs', hspread⟩ := (h.setRect_none (point K k)).addDirtyRegion hk
    (rect_setRect_self w.container none (point K k))
  refine ⟨⟨s', w.added ∪ ((w.container.setRect none (point K k)).rect none).points⟩, ?_, hspread⟩
  change (Container.addDirtyRegion none 2 (w.container.setRect none (point K k)) >>= _) = _
  rw [hs']
  rfl

/-- As many points as there is room for. -/
theorem points_run [IsStrictOrderedRing K] (k : ℕ) (hk : k ≤ n) :
    ∃ w, run step (start K n) ((List.range k).map fun i => .addDirtyRegion (point K i)) = .ok w
      ∧ Spread w.container k := by
  induction k with
  | zero =>
    refine ⟨start K n, rfl, rfl, rfl, ?_⟩
    intro j hj
    omega
  | succ k ih =>
    obtain ⟨w, hw, hspread⟩ := ih (Nat.le_of_succ_le hk)
    obtain ⟨w', hw', hspread'⟩ := hspread.add hk
    refine ⟨w', ?_, hspread'⟩
    rw [List.range_succ, List.map_append, run_append_ok hw, List.map_singleton, run_singleton]
    exact hw'

/-- One more. -/
theorem points_run_error [IsStrictOrderedRing K] (hmax : maxRegions < n) :
    ∃ e, run step (start K n) ((List.range (n + 1)).map fun i => .addDirtyRegion (point K i))
      = .error e := by
  obtain ⟨w, hw, hspread⟩ := points_run (K := K) n (le_refl n)
  have h' := hspread.setRect_none (point K n)
  have harg := rect_setRect_self w.container none (point K n)
  have hne : n ≠ 1 := by
    unfold maxRegions at hmax
    omega
  obtain ⟨e, he⟩ := compressHeap_error hmax h'.heapLength
  refine ⟨e, ?_⟩
  rw [List.range_succ, List.map_append, run_append_ok hw, List.map_singleton, run_singleton]
  change (Container.addDirtyRegion none 2 (w.container.setRect none (point K n)) >>= _) = _
  rw [addDirtyRegion_compress (by rw [harg]; exact point_isEmpty n) h'.emptyIndex hne
    (h'.absorb (le_refl n) harg), he]
  rfl

/-- Whatever is added, and however regions have been merged for it, every point added lies in
a region; and every call returns, exactly if the number of pairs of regions is an `int`. -/
theorem dirtyRegions_run_covered (K : Type) [Field K] [LinearOrder K] [IsStrictOrderedRing K]
    [FloorRing K] (n : ℕ) [NeZero n] :
    (∀ actions w, run step (start K n) actions = .ok w → Covered w)
      ∧ ((∀ actions, ∃ w, run step (start K n) actions = .ok w ∧ Covered w) ↔ n ≤ maxRegions) := by
  refine ⟨?_, ?_, ?_⟩
  · intro actions w hw
    have houtcome := run_outcome actions (good_start K n)
    rw [hw] at houtcome
    exact houtcome.covered
  · intro h
    by_contra hmax
    obtain ⟨e, he⟩ := points_run_error (K := K) (not_le.mp hmax)
    obtain ⟨w, hw, -⟩ := h ((List.range (n + 1)).map fun i => .addDirtyRegion (point K i))
    rw [he] at hw
    cases hw
  · intro hmax actions
    have houtcome := run_outcome actions (good_start K n)
    cases hrun : run step (start K n) actions with
    | ok w =>
      rw [hrun] at houtcome
      exact ⟨w, rfl, houtcome.covered⟩
    | error e =>
      rw [hrun] at houtcome
      exact absurd houtcome (not_lt.mpr hmax)

/-- Six regions, as many as there are by default. -/
theorem dirtyRegions_run_covered_six :
    (∀ actions w, run step (start ℚ 6) actions = .ok w → Covered w)
      ∧ ((∀ actions, ∃ w, run step (start ℚ 6) actions = .ok w ∧ Covered w) ↔ 6 ≤ maxRegions) :=
  dirtyRegions_run_covered ℚ 6

/-- There is no room for as many regions as this. -/
theorem dirtyRegions_run_too_many :
    ∃ e, run step (start ℚ 46342)
      ((List.range 46343).map fun i => .addDirtyRegion (point ℚ i)) = .error e :=
  points_run_error (by decide)

end JavaFx.Geom.DirtyRegionContainer
