/-
What a packer has placed since the last `clear`.

`PlacedIn` is where a level has put a rectangle: in the level's band, before the place
where the next one goes. `Inv` keeps every placed rectangle in some level, the bands of
the levels apart and the levels sorted by size; the last needs `searchLoop_spec`, which
finds the gap where the key `k + 1` would be, and `firstIndex_spec`, by which both
insertion positions of `add` are that gap.
-/
import JavaFx.Prism.RectanglePacker

set_option autoImplicit false

namespace JavaFx.Prism

open JavaFx.Lib

/-! ## Areas -/

/-- The part of the backing store a packer fills. -/
structure Area where
  x : ℤ
  y : ℤ
  width : ℕ
  height : ℕ

/-- Where a rectangle lies from the corner of the area. -/
def Area.left (a : Area) (r : Rectangle) : ℤ := toInt (r.x - a.x)

def Area.top (a : Area) (r : Rectangle) : ℤ := toInt (r.y - a.y)

/-- The rectangle lies completely inside the area. -/
def Area.Inside (a : Area) (r : Rectangle) : Prop :=
  0 ≤ a.left r ∧ a.left r + r.width ≤ a.width ∧ 0 ≤ a.top r ∧ a.top r + r.height ≤ a.height

/-- A line separates the rectangles. -/
def Area.Disjoint (a : Area) (r s : Rectangle) : Prop :=
  a.left r + r.width ≤ a.left s ∨ a.left s + s.width ≤ a.left r ∨
    a.top r + r.height ≤ a.top s ∨ a.top s + s.height ≤ a.top r

theorem toInt_of_lt {i : ℤ} (h : 0 ≤ i) (hlt : i < 2 ^ 31) : toInt i = i := by
  unfold toInt
  rw [Int.bmod_eq_of_le] <;> omega

/-- An overflow of the offset is undone by the difference. -/
theorem toInt_add_sub {i x : ℤ} (h : 0 ≤ i) (hlt : i < 2 ^ 31) : toInt (toInt (i + x) - x) = i := by
  have hsub : toInt (toInt (i + x) - x) = toInt (i + x - x) := Int.bmod_sub_bmod
  rw [hsub, add_sub_cancel_right, toInt_of_lt h hlt]

namespace RectanglePacker

def area (p : RectanglePacker) : Area :=
  ⟨p.x, p.y, if p.vertical then p.size else p.length, if p.vertical then p.length else p.size⟩

theorem area_new (x y : ℤ) (width height : ℕ) (vertical : Bool) :
    (new x y width height vertical).area = ⟨x, y, width, height⟩ := by
  cases vertical <;> rfl

/-- The rectangle exceeds the area. -/
def Exceeds (p : RectanglePacker) (r : Rectangle) : Prop :=
  p.length < p.requestedLength r ∨ p.size < p.requestedSize r

/-- There is no space left for a level of the rounded size. -/
def NoLevel (p : RectanglePacker) (r : Rectangle) : Prop :=
  p.size < p.sizeOffset + roundUp (p.requestedSize r)

/-! ## Searching -/

section Search

variable {levels : List Level} {k : ℕ}

/-- The levels below `gap` have at most the size `k`, the others more. -/
structure Gap (levels : List Level) (k gap : ℕ) : Prop where
  le_length : gap ≤ levels.length
  below : ∀ j level, j < gap → levels[j]? = some level → level.size ≤ k
  above : ∀ j level, gap ≤ j → levels[j]? = some level → k ≤ level.size

theorem getElem?_of_lt {i : ℕ} (h : i < levels.length) : ∃ level, levels[i]? = some level :=
  ⟨_, List.getElem?_eq_getElem h⟩

/-- The sizes are sorted, read by place. -/
theorem size_le_of_sorted (hsorted : levels.Pairwise fun a b => a.size ≤ b.size) {i j : ℕ}
    {a b : Level} (hij : i ≤ j) (ha : levels[i]? = some a) (hb : levels[j]? = some b) :
    a.size ≤ b.size := by
  obtain ⟨hi, rfl⟩ := List.getElem?_eq_some_iff.mp ha
  obtain ⟨hj, rfl⟩ := List.getElem?_eq_some_iff.mp hb
  rcases Nat.eq_or_lt_of_le hij with rfl | hlt
  · exact le_refl _
  · exact List.pairwise_iff_getElem.mp hsorted i j hi hj hlt

/-- The levels before `start` are low enough, those behind `stop` too high, and the last
level looked at is next to `start` where the range is used up. -/
structure Searching (levels : List Level) (k : ℕ) (start stop mid : ℤ) (midSize : ℕ) : Prop where
  nonneg : 0 ≤ start
  le : start ≤ stop + 1
  lt : stop < levels.length
  below : ∀ (j : ℕ) level, (j : ℤ) < start → levels[j]? = some level → level.size ≤ k
  above : ∀ (j : ℕ) level, stop < (j : ℤ) → levels[j]? = some level → k < level.size
  last : start ≤ stop ∨ (mid = start ∨ mid + 1 = start) ∧
    ∃ m level, mid = (m : ℕ) ∧ levels[m]? = some level ∧ level.size = midSize

/-- The last level looked at, on one of the sides of the gap. -/
structure Found (levels : List Level) (k gap : ℕ) (result : ℤ × ℕ) : Prop where
  le_length : gap ≤ levels.length
  below : ∀ j level, j < gap → levels[j]? = some level → level.size ≤ k
  above : ∀ j level, gap ≤ j → levels[j]? = some level → k < level.size
  last : ∃ m level, (m = gap ∨ m + 1 = gap) ∧ levels[m]? = some level ∧ result = ((m : ℤ), level.size)

/-- The range is used up where the gap is. -/
theorem Searching.found {start stop mid : ℤ} {midSize : ℕ}
    (h : Searching levels k start stop mid midSize) (hrange : ¬start ≤ stop) :
    ∃ gap, Found levels k gap (mid, midSize) := by
  obtain ⟨hmid, m, level, rfl, hlevel, rfl⟩ := h.last.resolve_left hrange
  have hnonneg := h.nonneg
  have hle := h.le
  have hlt := h.lt
  refine ⟨start.toNat, by omega, ?_, ?_, m, level, by omega, hlevel, rfl⟩
  · exact fun j level hj => h.below j level (by omega)
  · exact fun j level hj => h.above j level (by omega)

/-- The search ends at the gap. -/
theorem searchLoop_spec (hsorted : levels.Pairwise fun a b => a.size ≤ b.size)
    (hsizes : ∀ level ∈ levels, 4 ∣ level.size) (hk : 4 ∣ k) (fuel : ℕ) :
    ∀ (start stop mid : ℤ) (midSize : ℕ), stop - start + 1 ≤ fuel →
      Searching levels k start stop mid midSize →
      ∃ result gap, searchLoop levels (k + 1) fuel start stop mid midSize = .ok result ∧
        Found levels k gap result := by
  induction fuel with
  | zero =>
    intro start stop mid midSize hfuel h
    obtain ⟨gap, hgap⟩ := h.found (by omega)
    exact ⟨_, gap, rfl, hgap⟩
  | succ fuel ih =>
    intro start stop mid midSize hfuel h
    unfold searchLoop
    by_cases hrange : start ≤ stop
    · rw [if_pos hrange]
      have hnonneg := h.nonneg
      have hlt := h.lt
      obtain ⟨m, hm⟩ : ∃ m : ℕ, (start + stop) / 2 = m := ⟨((start + stop) / 2).toNat, by omega⟩
      obtain ⟨level, hlevel⟩ := getElem?_of_lt (show m < levels.length by omega)
      dsimp only
      rw [hm, aget_ok hlevel, ok_bind]
      split_ifs with hkey
      · refine ih start (m - 1) m level.size (by omega) ⟨hnonneg, by omega, by omega, h.below, ?_, ?_⟩
        · intro j level' hj hlevel'
          have := size_le_of_sorted hsorted (show m ≤ j by omega) hlevel hlevel'
          omega
        · by_cases hnext : start ≤ (m : ℤ) - 1
          · exact .inl hnext
          · exact .inr ⟨.inl (by omega), m, level, rfl, hlevel, rfl⟩
      · -- a size is a multiple of 4, so it is not `k + 1`
        have hsize : level.size ≤ k := by
          have := hsizes level (List.mem_of_getElem? hlevel)
          omega
        refine ih (m + 1) stop m level.size (by omega) ⟨by omega, by omega, hlt, ?_, h.above, ?_⟩
        · intro j level' hj hlevel'
          exact (size_le_of_sorted hsorted (show j ≤ m by omega) hlevel' hlevel).trans hsize
        · by_cases hnext : (m : ℤ) + 1 ≤ stop
          · exact .inl hnext
          · exact .inr ⟨.inr rfl, m, level, rfl, hlevel, rfl⟩
    · rw [if_neg hrange]
      obtain ⟨gap, hgap⟩ := h.found hrange
      exact ⟨_, gap, rfl, hgap⟩

/-- An index next to a gap; at the gap itself the sizes are greater than `k`. -/
def AtGap (levels : List Level) (k index : ℕ) : Prop :=
  ∃ gap, Gap levels k gap ∧
    ((index = gap ∧ ∀ level, levels[gap]? = some level → k < level.size) ∨
      (index + 1 = gap ∧ ∀ level, levels[index]? = some level → level.size ≤ k))

theorem binarySearch_spec (hsorted : levels.Pairwise fun a b => a.size ≤ b.size)
    (hsizes : ∀ level ∈ levels, 4 ∣ level.size) (hk : 4 ∣ k) :
    ∃ index, binarySearch levels k = .ok index ∧ AtGap levels k index := by
  unfold binarySearch
  dsimp only
  split_ifs with hempty
  · obtain rfl : levels = [] := by
      rw [← List.length_eq_zero_iff]
      omega
    exact ⟨0, rfl, 0, ⟨le_refl _, by simp, by simp⟩, .inl ⟨rfl, by simp⟩⟩
  have hstart : Searching levels k 0 (levels.length - 1) 0 0 := by
    refine ⟨le_refl _, by omega, by omega, fun j level hj => by omega, ?_, .inl (by omega)⟩
    intro j level hj hlevel
    have := (List.getElem?_eq_some_iff.mp hlevel).1
    omega
  obtain ⟨result, gap, hsearch, hgap, hbelow, habove, m, level, hm, hlevel, rfl⟩ :=
    searchLoop_spec hsorted hsizes hk levels.length 0 (levels.length - 1) 0 0 (by omega) hstart
  rw [hsearch, ok_bind]
  have hgap' : Gap levels k gap := ⟨hgap, hbelow, fun j l hj hl => (habove j l hj hl).le⟩
  dsimp only
  rcases hm with rfl | rfl
  · -- the last level looked at is the first that is too high
    have hhigh := habove m level (le_refl _) hlevel
    rw [if_neg (by omega), if_pos hhigh]
    by_cases hpos : 0 < m
    · rw [if_pos (by omega)]
      refine ⟨m - 1, congrArg Except.ok (by omega), m, hgap', .inr ⟨by omega, fun l hl => ?_⟩⟩
      exact hbelow (m - 1) l (by omega) hl
    · obtain rfl : m = 0 := by omega
      exact ⟨0, rfl, 0, hgap', .inl ⟨rfl, fun l hl => habove 0 l (le_refl _) hl⟩⟩
  · have hlow := hbelow m level (Nat.lt_succ_self m) hlevel
    rw [if_neg (show ¬k < level.size by omega)]
    split_ifs with hlt
    · exact ⟨m + 1, rfl, m + 1, hgap', .inl ⟨rfl, fun l hl => habove (m + 1) l (le_refl _) hl⟩⟩
    · refine ⟨m, rfl, m + 1, hgap', .inr ⟨rfl, fun l hl => ?_⟩⟩
      exact hbelow m l (Nat.lt_succ_self m) hl

theorem four_dvd_roundUp (n : ℕ) : 4 ∣ roundUp n := by
  unfold roundUp MIN_SIZE ROUND_UP
  dsimp only
  split_ifs <;> omega

theorem le_roundUp (n : ℕ) : n ≤ roundUp n := by
  unfold roundUp MIN_SIZE ROUND_UP
  dsimp only
  split_ifs <;> omega

end Search

/-! ## The invariant -/

/-- The band of a level, and its size: what an addition to it leaves alone. -/
def band (level : Level) : ℕ × ℕ := (level.sizeOffset, level.size)

/-- The bands lie beside each other. -/
def Apart (a b : ℕ × ℕ) : Prop := a.1 + a.2 ≤ b.1 ∨ b.1 + b.2 ≤ a.1

/-- Where a rectangle lies along the levels, and across. -/
def lengthAt (p : RectanglePacker) (r : Rectangle) : ℤ := if p.vertical then p.area.top r else p.area.left r

def sizeAt (p : RectanglePacker) (r : Rectangle) : ℤ := if p.vertical then p.area.left r else p.area.top r

/-- The level has placed the rectangle. -/
structure PlacedIn (p : RectanglePacker) (level : Level) (r : Rectangle) : Prop where
  size_eq : p.sizeAt r = level.sizeOffset
  size_le : p.requestedSize r ≤ level.size
  length_nonneg : 0 ≤ p.lengthAt r
  length_le : p.lengthAt r + p.requestedLength r ≤ level.lengthOffset

structure Inv (p : RectanglePacker) (rects : List Rectangle) : Prop where
  length_lt : p.length < 2 ^ 30
  size_lt : p.size < 2 ^ 30
  used : p.sizeOffset ≤ p.size
  levels : ∀ level ∈ p.levels, level.length = p.length ∧ 4 ∣ level.size ∧
    level.lengthOffset ≤ level.length ∧ level.sizeOffset + level.size ≤ p.sizeOffset
  bands : (p.levels.map band).Pairwise Apart
  sorted : p.levels.Pairwise fun a b => a.size ≤ b.size
  recent : p.recentUsedLevelIndex < p.levels.length ∨ p.levels = [] ∧ p.recentUsedLevelIndex = 0
  placed : ∀ r ∈ rects, ∃ level ∈ p.levels, p.PlacedIn level r
  disjoint : rects.Pairwise p.area.Disjoint

section Step

variable {p : RectanglePacker} {placed : List Rectangle} {rect : Rectangle}

theorem inside_iff (r : Rectangle) :
    p.area.Inside r ↔ 0 ≤ p.lengthAt r ∧ p.lengthAt r + p.requestedLength r ≤ p.length ∧
      0 ≤ p.sizeAt r ∧ p.sizeAt r + p.requestedSize r ≤ p.size := by
  unfold Area.Inside lengthAt sizeAt requestedLength requestedSize
  cases hvertical : p.vertical <;> simp only [area, hvertical, if_true, if_false, Bool.false_eq_true]
  constructor
  · exact fun ⟨h₁, h₂, h₃, h₄⟩ => ⟨h₃, h₄, h₁, h₂⟩
  · exact fun ⟨h₁, h₂, h₃, h₄⟩ => ⟨h₃, h₄, h₁, h₂⟩

theorem disjoint_of_length {r s : Rectangle} (h : p.lengthAt r + p.requestedLength r ≤ p.lengthAt s) :
    p.area.Disjoint r s := by
  unfold lengthAt requestedLength at h
  unfold Area.Disjoint
  cases hvertical : p.vertical <;> simp only [hvertical, if_true, if_false, Bool.false_eq_true] at h
  · exact .inl h
  · exact .inr (.inr (.inl h))

theorem disjoint_of_size {r s : Rectangle}
    (h : p.sizeAt r + p.requestedSize r ≤ p.sizeAt s ∨ p.sizeAt s + p.requestedSize s ≤ p.sizeAt r) :
    p.area.Disjoint r s := by
  unfold sizeAt requestedSize at h
  unfold Area.Disjoint
  cases hvertical : p.vertical <;> simp only [hvertical, if_true, if_false, Bool.false_eq_true] at h
  · exact .inr (.inr h)
  · rcases h with h | h
    · exact .inl h
    · exact .inr (.inl h)

/-- Every placed rectangle is inside the area. -/
theorem Inv.inside (h : Inv p placed) : ∀ r ∈ placed, p.area.Inside r := by
  intro r hr
  obtain ⟨level, hlevel, hin⟩ := h.placed r hr
  obtain ⟨hlength, -, hoffset, hband⟩ := h.levels level hlevel
  have hused := h.used
  have hsize := hin.size_le
  have hend := hin.length_le
  rw [inside_iff, hin.size_eq]
  exact ⟨hin.length_nonneg, by omega, by omega, by omega⟩

/-- What an addition to a level does. -/
structure LevelAdds (p : RectanglePacker) (level level' : Level) (rect rect' : Rectangle) : Prop where
  room : level.lengthOffset + p.requestedLength rect ≤ level.length ∧ p.requestedSize rect ≤ level.size
  level_eq : level' = { level with lengthOffset := level.lengthOffset + p.requestedLength rect }
  width_eq : rect'.width = rect.width
  height_eq : rect'.height = rect.height
  length_eq : p.lengthAt rect' = level.lengthOffset
  size_eq : p.sizeAt rect' = level.sizeOffset

theorem LevelAdds.requested {level level' : Level} {rect' : Rectangle} (h : LevelAdds p level level' rect rect') :
    p.requestedLength rect' = p.requestedLength rect ∧ p.requestedSize rect' = p.requestedSize rect := by
  unfold requestedLength requestedSize
  rw [h.width_eq, h.height_eq]
  exact ⟨rfl, rfl⟩

theorem add_some {level level' : Level} {rect' : Rectangle} (hlength : level.length < 2 ^ 30)
    (hsize : level.sizeOffset < 2 ^ 30)
    (h : level.add rect p.x p.y (p.requestedLength rect) (p.requestedSize rect) p.vertical
      = some (level', rect')) : LevelAdds p level level' rect rect' := by
  unfold Level.add at h
  split_ifs at h with hroom hvertical
  · have hy : toInt (toInt (level.lengthOffset + p.y) - p.y) = level.lengthOffset :=
      toInt_add_sub (Int.natCast_nonneg _) (by omega)
    have hx : toInt (toInt (level.sizeOffset + p.x) - p.x) = level.sizeOffset :=
      toInt_add_sub (Int.natCast_nonneg _) (by omega)
    cases h
    exact ⟨hroom, rfl, rfl, rfl, (if_pos hvertical).trans hy, (if_pos hvertical).trans hx⟩
  · have hx : toInt (toInt (level.lengthOffset + p.x) - p.x) = level.lengthOffset :=
      toInt_add_sub (Int.natCast_nonneg _) (by omega)
    have hy : toInt (toInt (level.sizeOffset + p.y) - p.y) = level.sizeOffset :=
      toInt_add_sub (Int.natCast_nonneg _) (by omega)
    cases h
    exact ⟨hroom, rfl, rfl, rfl, (if_neg hvertical).trans hx, (if_neg hvertical).trans hy⟩

/-- A level takes a rectangle: it is placed beside all the others. -/
theorem Inv.setLevel (h : Inv p placed) {i : ℕ} {level level' : Level} {rect' : Rectangle}
    (hlevel : p.levels[i]? = some level) (hadds : LevelAdds p level level' rect rect') :
    Inv { p with levels := p.levels.set i level', recentUsedLevelIndex := i } (placed ++ [rect']) := by
  obtain ⟨hi, hget⟩ := List.getElem?_eq_some_iff.mp hlevel
  have hmem : level ∈ p.levels := List.mem_of_getElem? hlevel
  obtain ⟨hrequestedLength, hrequestedSize⟩ := hadds.requested
  have hband : band level' = band level := by rw [hadds.level_eq]; rfl
  have hbands : (p.levels.set i level').map band = p.levels.map band := by
    apply List.ext_getElem?
    intro j
    rw [List.getElem?_map, List.getElem?_map]
    by_cases hj : i = j
    · subst hj
      rw [List.getElem?_set_self hi, hlevel, Option.map_some, Option.map_some, hband]
    · rw [List.getElem?_set_ne hj]
  -- the rectangles placed before stay in their levels
  have hkeeps : ∀ r ∈ placed, ∃ (j : ℕ) (l : Level), (p.levels.set i level')[j]? = some l ∧ p.PlacedIn l r ∧
      p.area.Disjoint r rect' := by
    intro r hr
    obtain ⟨l, hl, hin⟩ := h.placed r hr
    obtain ⟨j, hj, rfl⟩ := List.getElem_of_mem hl
    by_cases hji : j = i
    · subst hji
      rw [hget] at hin
      refine ⟨j, level', List.getElem?_set_self hi, ⟨?_, ?_, hin.length_nonneg, ?_⟩, ?_⟩
      · rw [hin.size_eq, hadds.level_eq]
      · rw [hadds.level_eq]
        exact hin.size_le
      · rw [hadds.level_eq]
        have := hin.length_le
        push_cast
        omega
      · apply disjoint_of_length
        rw [hadds.length_eq]
        exact hin.length_le
    · refine ⟨j, _, ?_, hin, ?_⟩
      · rw [List.getElem?_set_ne (Ne.symm hji), List.getElem?_eq_getElem hj]
      · have hapart : Apart (band p.levels[j]) (band level) := by
          have hpair := List.pairwise_iff_getElem.mp h.bands
          rw [← hget]
          rcases Nat.lt_or_gt_of_ne hji with hlt | hlt
          · have hij := hpair j i (by rwa [List.length_map]) (by rwa [List.length_map]) hlt
            rwa [List.getElem_map, List.getElem_map] at hij
          · have hij := hpair i j (by rwa [List.length_map]) (by rwa [List.length_map]) hlt
            rw [List.getElem_map, List.getElem_map] at hij
            exact hij.symm
        apply disjoint_of_size
        rw [hin.size_eq, hadds.size_eq, hrequestedSize]
        have hsize := hin.size_le
        have hroom := hadds.room.2
        unfold Apart band at hapart
        dsimp only at hapart
        omega
  refine ⟨h.length_lt, h.size_lt, h.used, ?_, ?_, ?_, .inl (by rwa [List.length_set]), ?_, ?_⟩
  · intro l hl
    rcases List.mem_or_eq_of_mem_set hl with hl | rfl
    · exact h.levels l hl
    · obtain ⟨h₁, h₂, h₃, h₄⟩ := h.levels level hmem
      rw [hadds.level_eq]
      exact ⟨h₁, h₂, hadds.room.1, h₄⟩
  · rw [hbands]
    exact h.bands
  · have hsizes : ∀ ls : List Level, (ls.Pairwise fun a b => a.size ≤ b.size) ↔
        (ls.map band).Pairwise fun a b => a.2 ≤ b.2 := fun ls => by
      rw [List.pairwise_map]
      rfl
    rw [hsizes, hbands, ← hsizes]
    exact h.sorted
  · intro r hr
    rcases List.mem_append.mp hr with hr | hr
    · obtain ⟨j, l, hl, hin, -⟩ := hkeeps r hr
      exact ⟨l, List.mem_of_getElem? hl, hin.size_eq, hin.size_le, hin.length_nonneg, hin.length_le⟩
    · obtain rfl := List.mem_singleton.mp hr
      refine ⟨level', List.mem_of_getElem? (List.getElem?_set_self hi), ?_, ?_, ?_, ?_⟩
      · exact hadds.size_eq.trans (by rw [hadds.level_eq])
      · exact hrequestedSize.trans_le (by rw [hadds.level_eq]; exact hadds.room.2)
      · exact hadds.length_eq.symm ▸ Int.natCast_nonneg _
      · refine le_of_eq ?_
        change p.lengthAt r + p.requestedLength r = _
        rw [hadds.length_eq, hrequestedLength, hadds.level_eq]
        push_cast
        rfl
  · rw [List.pairwise_append]
    refine ⟨h.disjoint, List.pairwise_singleton _ _, fun r hr s hs => ?_⟩
    obtain rfl := List.mem_singleton.mp hs
    obtain ⟨-, -, -, -, hdisjoint⟩ := hkeeps r hr
    exact hdisjoint

theorem insertIdx_split {A B : List Level} {level : Level} :
    (A ++ B).insertIdx A.length level = A ++ level :: B := by
  induction A with
  | nil => rfl
  | cons a A ih => exact congrArg (a :: ·) ih

/-- A new level in the gap keeps the levels sorted; its band is behind all the others. -/
theorem Inv.insertLevel (h : Inv p placed) {k index : ℕ} (hindex : Gap p.levels k index) (hk : 4 ∣ k)
    (hroom : p.sizeOffset + k ≤ p.size) :
    Inv { p with
      levels := p.levels.insertIdx index (Level.new p.length k p.sizeOffset)
      recentUsedLevelIndex := index
      sizeOffset := p.sizeOffset + k } placed := by
  set newLevel := Level.new p.length k p.sizeOffset with hnew
  have hperm := List.perm_insertIdx newLevel p.levels hindex.le_length
  have hmem : ∀ l ∈ p.levels.insertIdx index newLevel, l = newLevel ∨ l ∈ p.levels := fun l hl =>
    List.mem_cons.mp (hperm.mem_iff.mp hl)
  refine ⟨h.length_lt, h.size_lt, hroom, ?_, ?_, ?_, .inl ?_, ?_, h.disjoint⟩
  · intro l hl
    rcases hmem l hl with rfl | hl
    · exact ⟨rfl, hk, Nat.zero_le _, le_refl _⟩
    · obtain ⟨h₁, h₂, h₃, h₄⟩ := h.levels l hl
      exact ⟨h₁, h₂, h₃, h₄.trans (Nat.le_add_right _ _)⟩
  · have hsymm : ∀ {a b : ℕ × ℕ}, Apart a b → Apart b a := fun hab => hab.symm
    rw [(hperm.map band).pairwise_iff hsymm, List.map_cons, List.pairwise_cons]
    refine ⟨fun b hb => ?_, h.bands⟩
    obtain ⟨l, hl, rfl⟩ := List.mem_map.mp hb
    exact .inr (h.levels l hl).2.2.2
  · obtain ⟨A, B, hsplit, hA⟩ : ∃ A B, p.levels = A ++ B ∧ A.length = index :=
      ⟨p.levels.take index, p.levels.drop index, (List.take_append_drop _ _).symm,
        by rw [List.length_take]; exact Nat.min_eq_left hindex.le_length⟩
    have hsorted := h.sorted
    rw [hsplit, List.pairwise_append] at hsorted
    obtain ⟨hsortedA, hsortedB, hAB⟩ := hsorted
    have hbelow : ∀ a ∈ A, a.size ≤ k := by
      intro a ha
      obtain ⟨j, hj, rfl⟩ := List.getElem_of_mem ha
      apply hindex.below j _ (by omega)
      rw [hsplit, List.getElem?_append_left hj, List.getElem?_eq_getElem hj]
    have habove : ∀ b ∈ B, k ≤ b.size := by
      intro b hb
      obtain ⟨j, hj, rfl⟩ := List.getElem_of_mem hb
      apply hindex.above (index + j) _ (Nat.le_add_right _ _)
      rw [hsplit, ← hA, List.getElem?_append_right (Nat.le_add_right _ _), Nat.add_sub_cancel_left,
        List.getElem?_eq_getElem hj]
    dsimp only
    rw [hsplit, ← hA, insertIdx_split, List.pairwise_append, List.pairwise_cons]
    refine ⟨hsortedA, ⟨fun b hb => habove b hb, hsortedB⟩, fun a ha b hb => ?_⟩
    rcases List.mem_cons.mp hb with rfl | hb
    · exact hbelow a ha
    · exact hAB a ha b hb
  · dsimp only
    rw [hperm.length_eq, List.length_cons]
    exact Nat.lt_succ_of_le hindex.le_length
  · intro r hr
    obtain ⟨l, hl, hin⟩ := h.placed r hr
    exact ⟨l, hperm.mem_iff.mpr (List.mem_cons_of_mem _ hl), hin.size_eq, hin.size_le,
      hin.length_nonneg, hin.length_le⟩

theorem firstIndex_spec (h : Inv p placed) {k : ℕ} (hk : 4 ∣ k) :
    ∃ index, p.firstIndex k = .ok index ∧ index ≤ p.levels.length ∧ AtGap p.levels k index := by
  have hsearch : ∃ index, binarySearch p.levels k = .ok index ∧ index ≤ p.levels.length ∧
      AtGap p.levels k index := by
    obtain ⟨index, hindex, gap, hgap, hat⟩ :=
      binarySearch_spec h.sorted (fun l hl => (h.levels l hl).2.1) hk
    exact ⟨index, hindex, by have := hgap.le_length; omega, gap, hgap, hat⟩
  unfold firstIndex
  rcases h.recent with hrecent | ⟨hempty, hrecent⟩
  · obtain ⟨level, hlevel⟩ := getElem?_of_lt hrecent
    rw [if_pos hrecent, aget_ok hlevel, ok_bind]
    split_ifs with hsize
    · exact hsearch
    · -- a level of the size itself: all those behind it are at least as high
      rw [not_not] at hsize
      refine ⟨_, rfl, hrecent.le, _, ⟨hrecent, ?_, ?_⟩, .inr ⟨rfl, ?_⟩⟩
      · intro j l hj hl
        exact (size_le_of_sorted h.sorted (Nat.le_of_lt_succ hj) hl hlevel).trans hsize.le
      · intro j l hj hl
        exact hsize.ge.trans (size_le_of_sorted h.sorted (Nat.le_of_succ_le hj) hlevel hl)
      · intro l hl
        rw [hlevel] at hl
        cases hl
        exact hsize.le
  · rw [if_neg (by rw [hempty]; exact Nat.not_lt_zero _), hrecent]
    refine ⟨0, rfl, Nat.zero_le _, 0, ⟨Nat.zero_le _, fun j _ hj => absurd hj (Nat.not_lt_zero j), ?_⟩,
      .inl ⟨rfl, ?_⟩⟩
    · intro j l _ hl
      rw [hempty] at hl
      exact absurd hl (by simp)
    · intro l hl
      rw [hempty] at hl
      exact absurd hl (by simp)

theorem addToLevel_spec (rect : Rectangle) (h : Inv p placed) (newSize : ℕ) (newLevelFlag : Bool) (left : ℕ) :
    ∀ i, i + left = p.levels.length →
      p.addToLevel rect (p.requestedLength rect) (p.requestedSize rect) newSize newLevelFlag left i
          = .ok none ∨
        ∃ j level level' rect', p.levels[j]? = some level ∧ LevelAdds p level level' rect rect' ∧
          p.addToLevel rect (p.requestedLength rect) (p.requestedSize rect) newSize newLevelFlag left i
            = .ok (some (rect', { p with levels := p.levels.set j level', recentUsedLevelIndex := j })) := by
  induction left with
  | zero => exact fun i _ => .inl rfl
  | succ left ih =>
    intro i hi
    obtain ⟨level, hlevel⟩ := getElem?_of_lt (show i < p.levels.length by omega)
    unfold addToLevel
    rw [aget_ok hlevel, ok_bind]
    split_ifs with hhigh
    · exact .inl rfl
    · obtain ⟨hlength, -, -, hband⟩ := h.levels level (List.mem_of_getElem? hlevel)
      have hlengthLt := h.length_lt
      have hsizeLt := h.size_lt
      have hused := h.used
      cases hadd : level.add rect p.x p.y (p.requestedLength rect) (p.requestedSize rect)
          p.vertical with
      | some added =>
        exact .inr ⟨i, level, added.1, added.2, hlevel, add_some (by omega) (by omega) hadd, rfl⟩
      | none => exact ih (i + 1) (by omega)

/-- What an addition answers. -/
structure Answers (p : RectanglePacker) (placed : List Rectangle) (rect : Rectangle)
    (result : Bool × Rectangle × RectanglePacker) : Prop where
  added : result.1 = true → result.2.1.width = rect.width ∧ result.2.1.height = rect.height ∧
    Inv result.2.2 (placed ++ [result.2.1]) ∧ result.2.2.area = p.area
  refused : result.1 = false → (p.Exceeds rect ∨ p.NoLevel rect) ∧ result.2 = (rect, p)

theorem addNewLevel_spec (h : Inv p placed) {newSize newIndex : ℕ} (hsize : 4 ∣ newSize)
    (hat : AtGap p.levels newSize newIndex) (hindex : newIndex ≤ p.levels.length)
    (hroom : p.sizeOffset + newSize ≤ p.size) (hlength : p.requestedLength rect ≤ p.length)
    (hfits : p.requestedSize rect ≤ newSize) :
    ∃ result, p.addNewLevel rect (p.requestedLength rect) (p.requestedSize rect) newSize newIndex
      = .ok result ∧ Answers p placed rect result := by
  obtain ⟨gap, hgap, hat⟩ := hat
  have hinsert := h.insertLevel hgap hsize hroom
  -- both insertion positions are the gap
  have hplace : p.insertionIndex newIndex newSize = .ok gap := by
    unfold insertionIndex
    by_cases hlt : newIndex < p.levels.length
    · obtain ⟨level, hlevel⟩ := getElem?_of_lt hlt
      rw [if_pos hlt, aget_ok hlevel, ok_bind]
      rcases hat with ⟨rfl, hhigh⟩ | ⟨rfl, hlow⟩
      · rw [if_neg (not_le.mpr (hhigh level hlevel))]
      · rw [if_pos (hlow level hlevel)]
    · rw [if_neg hlt]
      rcases hat with ⟨rfl, -⟩ | ⟨rfl, -⟩
      · rfl
      · have := hgap.le_length
        omega
  have hget : (p.levels.insertIdx gap (Level.new p.length newSize p.sizeOffset))[gap]?
      = some (Level.new p.length newSize p.sizeOffset) := by
    rw [List.getElem?_insertIdx_self, if_pos hgap.le_length]
  have hlengthLt := h.length_lt
  have hsizeLt := h.size_lt
  have hused := h.used
  have hplace' : { p with sizeOffset := p.sizeOffset + newSize }.insertionIndex newIndex newSize
      = .ok gap := hplace
  unfold addNewLevel
  dsimp only
  rw [hplace', ok_bind]
  unfold insertLevel
  rw [if_pos hgap.le_length, ok_bind]
  dsimp only
  cases hadd : (Level.new p.length newSize p.sizeOffset).add rect p.x p.y (p.requestedLength rect)
      (p.requestedSize rect) p.vertical with
  | some added =>
    have hadds : LevelAdds p _ added.1 rect added.2 :=
      add_some (show p.length < 2 ^ 30 from hlengthLt) (show p.sizeOffset < 2 ^ 30 by omega) hadd
    refine ⟨_, rfl, fun _ => ⟨hadds.width_eq, hadds.height_eq, ?_, rfl⟩, nofun⟩
    exact hinsert.setLevel hget ⟨hadds.room, hadds.level_eq, hadds.width_eq, hadds.height_eq,
      hadds.length_eq, hadds.size_eq⟩
  | none =>
    unfold Level.add at hadd
    rw [if_pos ⟨(Nat.zero_add _).trans_le hlength, hfits⟩] at hadd
    cases hadd

theorem add_spec (h : Inv p placed) (rect : Rectangle) :
    ∃ result, p.add rect = .ok result ∧ Answers p placed rect result := by
  unfold add
  dsimp only
  by_cases hlength : p.length < p.requestedLength rect
  · rw [if_pos hlength]
    exact ⟨_, rfl, nofun, fun _ => ⟨.inl (.inl hlength), rfl⟩⟩
  rw [if_neg hlength]
  by_cases hsize : p.size < p.requestedSize rect
  · rw [if_pos hsize]
    exact ⟨_, rfl, nofun, fun _ => ⟨.inl (.inr hsize), rfl⟩⟩
  rw [if_neg hsize]
  have hfour := four_dvd_roundUp (p.requestedSize rect)
  obtain ⟨newIndex, hindex, hle, hat⟩ := firstIndex_spec h hfour
  rw [hindex, ok_bind]
  rcases addToLevel_spec rect h (roundUp (p.requestedSize rect))
      (p.sizeOffset + roundUp (p.requestedSize rect) ≤ p.size) (p.levels.length - newIndex) newIndex
      (by omega) with hnone | ⟨j, level, level', rect', hlevel, hadds, hsome⟩
  · rw [hnone, ok_bind]
    dsimp only
    split_ifs with hroom
    · exact addNewLevel_spec h hfour hat hle (by simpa using hroom) (by omega) (le_roundUp _)
    · refine ⟨_, rfl, nofun, fun _ => ⟨.inr ?_, rfl⟩⟩
      unfold NoLevel
      simpa using hroom
  · rw [hsome, ok_bind]
    exact ⟨_, rfl, fun _ => ⟨hadds.width_eq, hadds.height_eq, h.setLevel hlevel hadds, rfl⟩, nofun⟩

end Step

/-! ## Runs -/

inductive Action
  | add (rect : Rectangle)
  | clear

/-- A packer with the rectangles placed since the last `clear`. -/
structure Session where
  packer : RectanglePacker
  placed : List Rectangle

def step (s : Session) : Action → Except Exn Session
  | .add rect => do
      let (added, rect, packer) ← s.packer.add rect
      .ok ⟨packer, if added then s.placed ++ [rect] else s.placed⟩
  | .clear => .ok ⟨s.packer.clear, []⟩

/-- What a run keeps, with the area the packer was made for. -/
structure Packs (area : Area) (s : Session) : Prop where
  inside : ∀ r ∈ s.placed, area.Inside r
  disjoint : s.placed.Pairwise area.Disjoint
  sorted : s.packer.levels.Pairwise fun a b => a.size ≤ b.size
  /-- Every further addition: one that is taken has kept the extents, one that is refused has
  changed nothing. -/
  answers : ∀ rect, ∃ added rect' packer', s.packer.add rect = .ok (added, rect', packer') ∧
    (added = true → rect'.width = rect.width ∧ rect'.height = rect.height) ∧
    (added = false → (s.packer.Exceeds rect ∨ s.packer.NoLevel rect) ∧ rect' = rect ∧
      packer' = s.packer)

theorem inv_new (x y : ℤ) {width height : ℕ} (vertical : Bool) (hwidth : width < 2 ^ 30)
    (hheight : height < 2 ^ 30) : Inv (new x y width height vertical) [] := by
  refine ⟨?_, ?_, Nat.zero_le _, nofun, .nil, .nil, .inr ⟨rfl, rfl⟩, nofun, .nil⟩
  · cases vertical
    · exact hwidth
    · exact hheight
  · cases vertical
    · exact hheight
    · exact hwidth

theorem Inv.clear {p : RectanglePacker} {placed : List Rectangle} (h : Inv p placed) : Inv p.clear [] :=
  ⟨h.length_lt, h.size_lt, Nat.zero_le _, nofun, .nil, .nil, .inr ⟨rfl, rfl⟩, nofun, .nil⟩

theorem step_inv {area : Area} {s : Session} (h : Inv s.packer s.placed ∧ s.packer.area = area)
    (a : Action) : ∃ s', step s a = .ok s' ∧ Inv s'.packer s'.placed ∧ s'.packer.area = area := by
  cases a with
  | add rect =>
    obtain ⟨⟨added, rect', packer⟩, hadd, hanswers⟩ := add_spec h.1 rect
    refine ⟨⟨packer, if added then s.placed ++ [rect'] else s.placed⟩, ?_, ?_⟩
    · unfold step
      dsimp only
      rw [hadd, ok_bind]
    cases added with
    | true =>
      obtain ⟨-, -, hinv, harea⟩ := hanswers.added rfl
      exact ⟨hinv, harea.trans h.2⟩
    | false =>
      obtain ⟨-, heq⟩ := hanswers.refused rfl
      obtain ⟨rfl, rfl⟩ := Prod.mk.inj heq
      exact h
  | clear => exact ⟨_, rfl, h.1.clear, h.2⟩

end RectanglePacker

end JavaFx.Prism
