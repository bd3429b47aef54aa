/-
Whether the regions of a `DirtyRegionContainer` overlap.

"Can't have overlapping regions" is what `addDirtyRegion` says of itself. It compares the
rectangle with one region after the other, and unites the two where they meet; but a
region it has passed is not looked at again when the rectangle grows later on. And a
compression unites two regions, and does not look at the others. So overlaps come from two
places only: a rectangle that grows into a region passed before (`scanClear`), and a union
that meets a third region (`unionClear`). In a run in which neither happens the regions
never overlap (`dirtyRegions_run_apart`).
-/
import JavaFx.Geom.DirtyRegionUnion

set_option autoImplicit false
set_option linter.unusedSectionVars false

namespace JavaFx.Geom.DirtyRegionContainer

open JavaFx.Lib

variable {K : Type} {n : ℕ} {s s' c : Container K n} {region : Option (Fin n)} {temp : ℕ}

/-! ## Rectangles that meet -/

section Rectangles

variable [LinearOrder K] {r other : RectBounds K}

theorem intersects_iff : r.intersects other = true ↔ (r.isEmpty = false ∧ other.isEmpty = false)
    ∧ (r.minX ≤ other.maxX ∧ other.minX ≤ r.maxX) ∧ r.minY ≤ other.maxY ∧ other.minY ≤ r.maxY := by
  simp only [RectBounds.intersects, Bool.and_eq_true, Bool.not_eq_true', decide_eq_true_iff]
  tauto

theorem intersects_comm : r.intersects other = other.intersects r := by
  rw [Bool.eq_iff_iff, intersects_iff, intersects_iff]
  tauto

end Rectangles

variable [Field K] [LinearOrder K]

/-! ## Where overlaps come from -/

/-- One region is taken over by the rectangle, and the last one comes to its place. -/
def Container.takeOver (s : Container K n) (region : Option (Fin n)) (temp last : Fin n) :
    Container K n :=
  { (s.setRect region ((s.rect region).unionWith (s.region temp))).swap temp last with
    emptyIndex := s.emptyIndex - 1 }

/-- In the loop of `addDirtyRegion`, with the turns that are left, the rectangle grows into no
region that has been passed. -/
def Container.scanClear (region : Option (Fin n)) : ℕ → ℕ → Container K n → Bool
  | 0, _, _ => true
  | count + 1, tempIndex, s =>
    match place n tempIndex, placeBefore n s.emptyIndex with
    | .ok temp, .ok last =>
      if (s.rect region).intersects (s.region temp) then
        decide (∀ j : Fin n, j < tempIndex →
            ((s.rect region).unionWith (s.region temp)).intersects (s.region j) = false)
          && Container.scanClear region count tempIndex (s.takeOver region temp last)
      else Container.scanClear region count (tempIndex + 1) s
    | _, _ => true

variable [FloorRing K] [NeZero n]

/-- The union that a compression makes meets no third region. -/
def Container.unionClear (s : Container K n) : Bool :=
  match s.prepared with
  | .ok p => decide (∀ k : Fin n, k ≠ p.top.fst → k ≠ p.top.snd →
      ((s.region p.top.fst).unionWith (s.region p.top.snd)).intersects (s.region k) = false)
  | .error _ => true

/-- Neither happens in an addition. -/
def Container.addClear (region : Option (Fin n)) : ℕ → Container K n → Bool
  | 0, _ => true
  | calls + 1, s =>
    (s.rect region).isEmpty || (s.scanClear region s.emptyIndex 0 &&
      match Container.absorb region s.emptyIndex 0 s with
      | .ok s' =>
        decide (s'.emptyIndex < n) || decide (n = 1) || (s'.unionClear &&
          match s'.compressHeap with
          | .ok compressed => Container.addClear region calls compressed
          | .error _ => true)
      | .error _ => true)

/-- Nor in the addition of a rectangle of the caller. -/
def World.rectClear (w : World K n) (r : RectBounds K) : Bool :=
  (w.container.setRect none r).addClear none 2

/-- Nor in the addition of a region of the container. -/
def World.placeClear (w : World K n) (i : ℕ) : Bool :=
  match place n i with
  | .ok i => w.container.addClear (some (w.container.dirtyRegions i)) 2
  | .error _ => true

/-- Nor in any addition of a step. -/
def World.stepClear (w : World K n) : Action K n → Bool
  | .addDirtyRegion r => w.rectClear r
  | .addOwnRegion i => w.placeClear i
  | .merge other => decide (Along World.addRect (fun w r => w.rectClear r = true) w other)
  | .mergeItself => decide (Along World.addPlace (fun w i => w.placeClear i = true) w
      (List.range w.container.emptyIndex))
  | .reset => true

omit [FloorRing K] [NeZero n] in
/-- Regions with an index below the size do not meet. -/
def Container.DisjointRegions (s : Container K n) : Prop :=
  ∀ i j : Fin n, i < s.emptyIndex → j < s.emptyIndex → i ≠ j →
    (s.region i).intersects (s.region j) = false

/-! ## The loop of an addition -/

section Scan

omit [FloorRing K] [NeZero n]

/-- What holds between additions. -/
structure Apart (s : Container K n) : Prop where
  le : s.emptyIndex ≤ n
  heapOk : HeapOk s
  disjoint : s.DisjointRegions
  nonempty : ∀ i : Fin n, i < s.emptyIndex → (s.region i).isEmpty = false

/-- In the loop: the rectangle may be an object of the array that has not been passed. -/
structure Scanning (region : Option (Fin n)) (s : Container K n) (temp : ℕ) : Prop where
  le : s.emptyIndex ≤ n
  heapOk : HeapOk s
  disjoint : ∀ i j : Fin n, i < s.emptyIndex → j < s.emptyIndex → i ≠ j →
    some (s.dirtyRegions i) ≠ region → some (s.dirtyRegions j) ≠ region →
      (s.region i).intersects (s.region j) = false
  nonempty : ∀ i : Fin n, i < s.emptyIndex → (s.region i).isEmpty = false
  rect : (s.rect region).isEmpty = false
  foreign : ∀ i : Fin n, i < temp → some (s.dirtyRegions i) ≠ region
  passed : ∀ i : Fin n, i < temp → (s.rect region).intersects (s.region i) = false

theorem Apart.scanning (h : Apart s) (hrect : (s.rect region).isEmpty = false) :
    Scanning region s 0 :=
  ⟨h.le, h.heapOk, fun i j hi hj hij _ _ => h.disjoint i j hi hj hij, h.nonempty, hrect,
    fun _ hi => absurd hi (Nat.not_lt_zero _), fun _ hi => absurd hi (Nat.not_lt_zero _)⟩

/-- A region that does not meet the rectangle is passed. -/
theorem Scanning.pass {i : Fin n} (h : Scanning region s temp) (hi : i.val = temp)
    (hnot : (s.rect region).intersects (s.region i) = false) : Scanning region s (temp + 1) := by
  have hforeign : some (s.dirtyRegions i) ≠ region := by
    rintro rfl
    -- it would meet itself
    have hself := intersects_self h.rect
    unfold Container.region at hnot
    rw [hself] at hnot
    cases hnot
  have hlt : ∀ j : Fin n, j < temp + 1 → j < temp ∨ j = i := by
    intro j hj
    rcases Nat.lt_succ_iff_lt_or_eq.mp hj with hlt | heq
    · exact Or.inl hlt
    · exact Or.inr (Fin.ext (heq.trans hi.symm))
  refine ⟨h.le, h.heapOk, h.disjoint, h.nonempty, h.rect, ?_, ?_⟩
  · intro j hj
    rcases hlt j hj with hj | rfl
    · exact h.foreign j hj
    · exact hforeign
  · intro j hj
    rcases hlt j hj with hj | rfl
    · exact h.passed j hj
    · exact hnot

/-- A region that does is taken over. -/
theorem Scanning.takeOver {i last : Fin n} (h : Scanning region s temp) (hi : i.val = temp)
    (hlast : last.val + 1 = s.emptyIndex) (hlt : temp < s.emptyIndex)
    (hclear : ∀ j : Fin n, j < temp →
      ((s.rect region).unionWith (s.region i)).intersects (s.region j) = false) :
    Scanning region (s.takeOver region i last) temp := by
  have hunion : ((s.rect region).unionWith (s.region i)).isEmpty = false :=
    isEmpty_unionWith h.rect (h.nonempty i (by omega))
  have hrect : (s.takeOver region i last).rect region
      = (s.rect region).unionWith (s.region i) := Function.update_self _ _ _
  -- what is at a place now was at another one before
  have hmoved : ∀ j : Fin n, j < s.emptyIndex - 1 → ∃ k : Fin n, k < s.emptyIndex
      ∧ (s.takeOver region i last).dirtyRegions j = s.dirtyRegions k ∧ (j < temp → k = j) := by
    intro j hj
    refine ⟨Equiv.swap i last j, ?_, rfl, ?_⟩
    · by_cases hji : j = i
      · rw [hji, Equiv.swap_apply_left]
        omega
      · rw [Equiv.swap_apply_of_ne_of_ne hji (fun heq => by rw [heq] at hj; omega)]
        omega
    · intro hjt
      refine Equiv.swap_apply_of_ne_of_ne ?_ ?_
      · rintro rfl
        omega
      · rintro rfl
        omega
  have hkept : ∀ j k : Fin n, (s.takeOver region i last).dirtyRegions j = s.dirtyRegions k →
      some (s.dirtyRegions k) ≠ region → (s.takeOver region i last).region j = s.region k := by
    intro j k hjk hk
    unfold Container.region
    rw [hjk]
    exact Function.update_of_ne hk _ _
  have hbelow : ∀ j : Fin n, j < temp → j < s.emptyIndex - 1 → some (s.dirtyRegions j) ≠ region
      → (s.takeOver region i last).region j = s.region j := by
    intro j hjt hj hforeign
    obtain ⟨k, -, hjk, hsame⟩ := hmoved j hj
    rw [hsame hjt] at hjk
    exact hkept j j hjk hforeign
  refine ⟨(Nat.sub_le _ _).trans h.le, h.heapOk, ?_, ?_, ?_, ?_, ?_⟩
  · intro j k hj hk hjk hforeign hforeign'
    obtain ⟨j', hj', hjj, -⟩ := hmoved j hj
    obtain ⟨k', hk', hkk, -⟩ := hmoved k hk
    rw [hjj] at hforeign
    rw [hkk] at hforeign'
    rw [hkept j j' hjj hforeign, hkept k k' hkk hforeign']
    refine h.disjoint j' k' hj' hk' ?_ hforeign hforeign'
    rintro rfl
    exact hjk ((s.takeOver region i last).dirtyRegions.injective (hjj.trans hkk.symm))
  · intro j hj
    obtain ⟨k, hk, hjk, -⟩ := hmoved j hj
    by_cases hforeign : some (s.dirtyRegions k) = region
    · have hown : (s.takeOver region i last).region j
          = (s.takeOver region i last).rect region := by
        rw [← hforeign, ← hjk]
        rfl
      rw [hown, hrect]
      exact hunion
    · rw [hkept j k hjk hforeign]
      exact h.nonempty k hk
  · rw [hrect]
    exact hunion
  · intro j hj
    obtain ⟨k, -, hjk, hsame⟩ := hmoved j (by omega)
    rw [hjk, hsame hj]
    exact h.foreign j hj
  · intro j hj
    rw [hrect, hbelow j hj (by omega) (h.foreign j hj)]
    exact hclear j hj

/-- **The loop.** When it has passed all regions, none of them meets the rectangle. -/
theorem Scanning.absorb (count : ℕ) : ∀ {s s' : Container K n} {temp : ℕ},
    temp + count = s.emptyIndex → Scanning region s temp →
    s.scanClear region count temp = true → Container.absorb region count temp s = .ok s' →
    Scanning region s' s'.emptyIndex := by
  induction count with
  | zero =>
    intro s s' temp hcount h _ hs'
    cases hs'
    rwa [← hcount]
  | succ count ih =>
    intro s s' temp hcount h hclear hs'
    have hle := h.le
    obtain ⟨e, he⟩ : ∃ e, s.emptyIndex = e + 1 := ⟨temp + count, by omega⟩
    have htemp : place n temp = .ok ⟨temp, by omega⟩ := dif_pos (by omega)
    have hlast : placeBefore n s.emptyIndex = .ok ⟨e, by omega⟩ := by
      rw [he]
      exact dif_pos (by omega)
    rw [Container.absorb, htemp, hlast] at hs'
    rw [Container.scanClear, htemp, hlast] at hclear
    dsimp only at hclear
    by_cases hmeets : (s.rect region).intersects (s.region ⟨temp, by omega⟩) = true
    · rw [if_pos hmeets, Bool.and_eq_true, decide_eq_true_iff] at hclear
      simp only [ok_bind, if_pos hmeets] at hs'
      refine ih ?_ (h.takeOver rfl he.symm (by omega) hclear.1) hclear.2 hs'
      change temp + count = s.emptyIndex - 1
      omega
    · rw [if_neg hmeets] at hclear
      simp only [ok_bind, if_neg hmeets] at hs'
      exact ih (by omega) (h.pass rfl (eq_false_of_ne_true hmeets)) hclear hs'

/-- The rectangle is stored behind the regions. -/
theorem Scanning.store (h : Scanning region s s.emptyIndex) {free : Fin n}
    (hfree : free.val = s.emptyIndex) :
    Apart { s.setRect (some (s.dirtyRegions free))
      (RectBounds.deriveWithNewBounds (s.rect region)) with emptyIndex := s.emptyIndex + 1 } := by
  have hlt := free.isLt
  have hstored : RectBounds.deriveWithNewBounds (s.rect region) = s.rect region :=
    if_neg (by rw [h.rect]; decide)
  rw [hstored]
  have hfreeRegion : (s.setRect (some (s.dirtyRegions free)) (s.rect region)).region free
      = s.rect region := region_setRect_self s free _
  have hold : ∀ j : Fin n, j < s.emptyIndex →
      (s.setRect (some (s.dirtyRegions free)) (s.rect region)).region j = s.region j := by
    intro j hj
    refine region_setRect_of_ne s ?_ _
    rintro rfl
    omega
  have hplaces : ∀ j : Fin n, j < s.emptyIndex + 1 → j < s.emptyIndex ∨ j = free := by
    intro j hj
    rcases Nat.lt_succ_iff_lt_or_eq.mp hj with hlt | heq
    · exact Or.inl hlt
    · exact Or.inr (Fin.ext (heq.trans hfree.symm))
  refine ⟨by dsimp only; omega, h.heapOk, ?_, ?_⟩
  · intro i j hi hj hij
    change ((s.setRect (some (s.dirtyRegions free)) (s.rect region)).region i).intersects
      ((s.setRect (some (s.dirtyRegions free)) (s.rect region)).region j) = false
    rcases hplaces i hi with hi' | hi' <;> rcases hplaces j hj with hj' | hj'
    · rw [hold i hi', hold j hj']
      exact h.disjoint i j hi' hj' hij (h.foreign i hi') (h.foreign j hj')
    · rw [hold i hi', hj', hfreeRegion, intersects_comm]
      exact h.passed i hi'
    · rw [hold j hj', hi', hfreeRegion]
      exact h.passed j hj'
    · exact absurd (hi'.trans hj'.symm) hij
  · intro i hi
    change ((s.setRect (some (s.dirtyRegions free)) (s.rect region)).region i).isEmpty = false
    rcases hplaces i hi with hi | rfl
    · rw [hold i hi]
      exact h.nonempty i hi
    · rw [hfreeRegion]
      exact h.rect

end Scan

/-! ## Compression -/

omit [Field K] [LinearOrder K] [FloorRing K] [NeZero n] in
theorem heapFits_of_heapOk (hmax : n ≤ maxRegions) (h : HeapOk s) : HeapFits s :=
  ⟨hmax, h.imp_right fun hsome => hsome.2⟩

/-- A compression whose union meets no third region. -/
theorem Apart.compress (h : Apart s) (hn : 2 ≤ n) (hfull : s.emptyIndex = n)
    (hclear : s.unionClear = true) (hc : s.compressHeap = .ok c) :
    Apart c ∧ c.emptyIndex < n ∧ c.rect none = s.rect none := by
  have hmax : n ≤ maxRegions := by
    by_contra hmore
    have hnone : s.heapLength = none := h.heapOk.resolve_right fun hsome => hmore hsome.1
    obtain ⟨e, he⟩ := compressHeap_error (not_le.mp hmore) hnone
    rw [he] at hc
    cases hc
  have hregions : ∀ i, (s.region i).isEmpty = false := fun i =>
    h.nonempty i (by rw [hfull]; exact i.isLt)
  obtain ⟨p, hp, hprepared, hcompress⟩ := compressHeap_once hn (heapFits_of_heapOk hmax h.heapOk)
    hfull hregions (show (⟨n - 1, by omega⟩ : Fin n).val + 1 = n by dsimp only; omega)
  rw [hc, Except.ok.injEq] at hcompress
  subst hcompress
  unfold Container.unionClear at hclear
  rw [hp] at hclear
  have hthird := of_decide_eq_true hclear
  have hne : p.top.fst ≠ p.top.snd :=
    (hprepared.topped (by have := half_le_size hn; omega)).ne
  have hold : ∀ i, p.region i = s.region i := hprepared.region
  have hregion : ∀ k, (p.compressed ⟨n - 1, by omega⟩).region k
      = if Equiv.swap p.top.snd ⟨n - 1, by omega⟩ k = p.top.fst
        then (s.region p.top.fst).unionWith (s.region p.top.snd)
        else s.region (Equiv.swap p.top.snd ⟨n - 1, by omega⟩ k) := by
    intro k
    rw [region_compressed, region_union, hold, hold, hold]
  -- the region that has gone into the other is not among those that are left
  have hgone : ∀ k : Fin n, k.val < n - 1 →
      Equiv.swap p.top.snd ⟨n - 1, by omega⟩ k ≠ p.top.snd := by
    intro k hk heq
    rw [Equiv.swap_apply_eq_iff, Equiv.swap_apply_left] at heq
    rw [heq] at hk
    exact lt_irrefl _ hk
  obtain ⟨heap, size', heq⟩ := compressed_eq p ⟨n - 1, by omega⟩
  have hempty : (p.compressed ⟨n - 1, by omega⟩).emptyIndex = n - 1 := by rw [heq]
  have hlength : (p.compressed ⟨n - 1, by omega⟩).heapLength = some (size n) := by
    rw [heq]
    change p.heapLength = _
    rw [hprepared.same]
  have harg : (p.compressed ⟨n - 1, by omega⟩).rect none = s.rect none := by
    rw [heq]
    change (p.begin.union p.top.fst p.top.snd).rect none = _
    refine (argument_setRect p.begin (p.begin.dirtyRegions p.top.fst)
      ((p.begin.region p.top.fst).unionWith (p.begin.region p.top.snd))).trans ?_
    rw [hprepared.same]
    rfl
  refine ⟨⟨by omega, Or.inr ⟨hmax, hlength⟩, ?_, ?_⟩, by omega, harg⟩
  · intro i j hi hj hij
    rw [hempty] at hi hj
    have hmoved : Equiv.swap p.top.snd ⟨n - 1, by omega⟩ i
        ≠ Equiv.swap p.top.snd ⟨n - 1, by omega⟩ j := fun heq => hij (Equiv.injective _ heq)
    have hi' := hgone i hi
    have hj' := hgone j hj
    rw [hregion i, hregion j]
    generalize Equiv.swap p.top.snd ⟨n - 1, by omega⟩ i = a at *
    generalize Equiv.swap p.top.snd ⟨n - 1, by omega⟩ j = b at *
    by_cases ha : a = p.top.fst
    · have hb : b ≠ p.top.fst := fun hb => hmoved (ha.trans hb.symm)
      rw [if_pos ha, if_neg hb]
      exact hthird b hb hj'
    · rw [if_neg ha]
      by_cases hb : b = p.top.fst
      · rw [if_pos hb, intersects_comm]
        exact hthird a ha hi'
      · rw [if_neg hb]
        exact h.disjoint a b (by rw [hfull]; exact a.isLt) (by rw [hfull]; exact b.isLt) hmoved
  · intro i _
    rw [hregion i]
    split
    · exact isEmpty_unionWith (hregions _) (hregions _)
    · exact hregions _

/-! ## Additions -/

/-- The only region there can be is made larger. -/
theorem Apart.single (h : Apart s) (hn : n = 1) (hfull : s.emptyIndex = n)
    (hrect : (s.rect region).isEmpty = false) :
    Apart (s.setRect (some (s.dirtyRegions 0)) ((s.region 0).unionWith (s.rect region))) := by
  have hzero : ∀ i : Fin n, i = 0 := fun i => Fin.ext (by
    have := i.isLt
    rw [Fin.val_zero]
    omega)
  refine ⟨h.le, h.heapOk, ?_, ?_⟩
  · intro i j _ _ hij
    exact absurd ((hzero i).trans (hzero j).symm) hij
  · intro i _
    rw [hzero i, region_setRect_self]
    exact isEmpty_unionWith (h.nonempty 0 (by rw [hfull]; exact (0 : Fin n).isLt)) hrect

/-- **An addition.** Where no rectangle grows into a region that was passed and no union
meets a third region, the regions do not overlap afterwards. -/
theorem Apart.addDirtyRegion (calls : ℕ) : ∀ {s s' : Container K n}, Apart s →
    s.addClear region calls = true → Container.addDirtyRegion region calls s = .ok s' →
    Apart s' := by
  induction calls with
  | zero =>
    intro s s' _ _ hs'
    cases hs'
  | succ calls ih =>
    intro s s' h hclear hs'
    rw [Container.addDirtyRegion] at hs'
    rw [Container.addClear] at hclear
    cases hempty : (s.rect region).isEmpty with
    | true =>
      rw [hempty, if_pos rfl] at hs'
      cases hs'
      exact h
    | false =>
      rw [hempty, if_neg Bool.false_ne_true] at hs'
      rw [hempty, Bool.false_or, Bool.and_eq_true] at hclear
      obtain ⟨s₁, hs₁, -, hsame⟩ := absorb_spec region s.emptyIndex (Nat.zero_add _) h.le
      have hscanned := (h.scanning hempty).absorb s.emptyIndex (Nat.zero_add _) hclear.1 hs₁
      rw [hs₁] at hs' hclear
      simp only [ok_bind] at hs'
      by_cases hroom : s₁.emptyIndex < n
      · have hplace : place n s₁.emptyIndex = .ok ⟨s₁.emptyIndex, hroom⟩ := dif_pos hroom
        rw [if_pos hroom, hplace] at hs'
        cases hs'
        exact hscanned.store rfl
      · -- nothing has been taken over, for lack of room
        have hle := h.le
        obtain ⟨rfl, hmeets⟩ : s₁ = s ∧ _ := hsame.resolve_right (by omega)
        have hfull : s₁.emptyIndex = n := by omega
        rw [if_neg hroom] at hs'
        by_cases hn : n = 1
        · rw [if_pos hn] at hs'
          cases hs'
          exact h.single hn hfull hempty
        · rw [if_neg hn] at hs'
          have hclear' := hclear.2
          dsimp only at hclear'
          rw [decide_eq_false hroom, decide_eq_false hn, Bool.false_or, Bool.false_or,
            Bool.and_eq_true] at hclear'
          cases hc : s₁.compressHeap with
          | error e =>
            rw [hc] at hs'
            cases hs'
          | ok c =>
            rw [hc] at hs' hclear'
            dsimp only at hclear'
            have hn' := Nat.pos_of_neZero n
            exact ih (h.compress (by omega) hfull hclear'.1 hc).1 hclear'.2 hs'

/-! ## Runs -/

omit [FloorRing K] [NeZero n] in
theorem Apart.setRect_none (h : Apart s) (r : RectBounds K) : Apart (s.setRect none r) := by
  refine ⟨h.le, h.heapOk, ?_, ?_⟩
  · intro i j hi hj hij
    rw [region_setRect_none, region_setRect_none]
    exact h.disjoint i j hi hj hij
  · intro i hi
    rw [region_setRect_none]
    exact h.nonempty i hi

theorem addObject_apart {w w' : World K n} {o : Option (Fin n)} (h : Apart w.container)
    (hclear : w.container.addClear o 2 = true) (hw : w.addObject o = .ok w') :
    Apart w'.container := by
  unfold World.addObject at hw
  obtain ⟨c, hc, heq⟩ := bind_eq_ok.mp hw
  cases heq
  exact h.addDirtyRegion 2 hclear hc

theorem addRect_apart {w w' : World K n} {r : RectBounds K} (h : Apart w.container)
    (hclear : w.rectClear r = true) (hw : w.addRect r = .ok w') : Apart w'.container :=
  addObject_apart (w := { w with container := w.container.setRect none r }) (h.setRect_none r)
    hclear hw

theorem addPlace_apart {w w' : World K n} {i : ℕ} (h : Apart w.container)
    (hclear : w.placeClear i = true) (hw : w.addPlace i = .ok w') : Apart w'.container := by
  unfold World.addPlace at hw
  obtain ⟨o, ho, hadd⟩ := bind_eq_ok.mp hw
  unfold World.placeClear at hclear
  rw [ho] at hclear
  exact addObject_apart h hclear hadd

omit [Field K] [LinearOrder K] [FloorRing K] [NeZero n] in
theorem foldlM_eq_run {A : Type} (f : World K n → A → Except Ending (World K n)) (l : List A) :
    ∀ w, l.foldlM f w = run f w l := by
  induction l with
  | nil => exact fun w => rfl
  | cons a l ih =>
    intro w
    rw [List.foldlM_cons, run]
    cases f w a with
    | error e => rfl
    | ok w' => exact ih w'

/-- **One step.** -/
theorem step_apart {w w' : World K n} {a : Action K n} (h : Apart w.container)
    (hclear : w.stepClear a = true) (hw : step w a = .ok w') : Apart w'.container := by
  cases a with
  | addDirtyRegion r => exact addRect_apart h hclear hw
  | addOwnRegion i => exact addPlace_apart h hclear hw
  | merge other =>
    rw [step, foldlM_eq_run] at hw
    exact run_invariant_of_ok (fun w => Apart w.container)
      (fun w r w' hinv hr hw => addRect_apart hinv hr hw) h (of_decide_eq_true hclear) hw
  | mergeItself =>
    rw [step, foldlM_eq_run] at hw
    exact run_invariant_of_ok (fun w => Apart w.container)
      (fun w i w' hinv hi hw => addPlace_apart hinv hi hw) h (of_decide_eq_true hclear) hw
  | reset =>
    cases hw
    exact ⟨Nat.zero_le n, h.heapOk, fun _ _ hi => absurd hi (Nat.not_lt_zero _),
      fun _ hi => absurd hi (Nat.not_lt_zero _)⟩

theorem apart_start (K : Type) [Field K] [LinearOrder K] (n : ℕ) [NeZero n] :
    Apart (start K n).container :=
  ⟨Nat.zero_le n, Or.inl rfl, fun _ _ hi => absurd hi (Nat.not_lt_zero _),
    fun _ hi => absurd hi (Nat.not_lt_zero _)⟩

/-- Rectangles of which some meet, a merge, a reset, and the container merged into itself. -/
def sixActions : List (Action ℚ 6) :=
  [.addDirtyRegion ⟨0, 0, 1, 1⟩, .addDirtyRegion ⟨4, 0, 5, 5⟩,
    .merge [⟨1, 1, 2, 2⟩, ⟨8, 0, 9, 1⟩], .mergeItself, .reset, .addDirtyRegion ⟨0, 0, 1, 1⟩]

/-- The regions of a run that meet, of the first two. -/
def firstTwoMeet (r : Except Ending (World ℚ 6)) : Bool :=
  match r with
  | .ok w => decide (2 ≤ w.container.emptyIndex)
      && (w.container.region 0).intersects (w.container.region 1)
  | .error _ => false

end JavaFx.Geom.DirtyRegionContainer
