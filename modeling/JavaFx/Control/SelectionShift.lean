/-
What a change of the items does to the selection.

A change of pure insertions and removals ends in one `shiftSelection`, by the growth of
the whole list and at the last sub-change. `mem_shiftBits_up_iff` and `mem_shiftBits_down_iff`
say which bits are set after its loops, `Shifted` where one selected index should have gone for the loops to have
moved it there. A model follows the change (`Follows`) when every selected index is `Shifted` to
its image, and only then, as long as no sub-change makes the selection leave its item
(`Leaves`).
-/
import JavaFx.Collections.ListChangeImage
import JavaFx.Control.SelectedIndicesView

set_option autoImplicit false

namespace JavaFx.Control

open JavaFx.ListChange

namespace SelectionModel

/-! ## The loops over the bits -/

section Loops

variable {bitset : BitSet} {position size : ℕ}

theorem indices_of_le (h : size ≤ position) : indices position size = [] := by
  unfold indices
  rw [Nat.sub_eq_zero_of_le h]
  rfl

theorem indices_succ (h : position ≤ size) :
    indices position (size + 1) = indices position size ++ [size] := by
  unfold indices
  rw [Nat.succ_sub h, List.range_succ, List.map_append, List.map_singleton,
    Nat.add_sub_cancel' h]

theorem indices_cons (h : position < size) :
    indices position size = position :: indices (position + 1) size := by
  unfold indices
  obtain ⟨left, rfl⟩ : ∃ left, size = position + 1 + left := ⟨size - position - 1, by omega⟩
  rw [show position + 1 + left - position = left + 1 by omega, List.range_succ_eq_map,
    Nat.add_sub_cancel_left, List.map_cons, List.map_map]
  congr 1
  apply List.map_congr_left
  intro i _
  exact (Nat.add_right_comm position 1 i).symm

/-- The bits after the loop for a positive shift, down to `position`. -/
theorem shiftUp_loop {shift : ℕ} (hshift : 0 < shift) (left : ℕ) :
    ∀ position, position + left = bitset.size →
      (∀ j, j ∈ ((indices position bitset.size).reverse.foldl (shiftUp shift) (bitset, false)).1.bits ↔
        (j < position ∧ j ∈ bitset.bits) ∨ ∃ b ∈ bitset.bits, position ≤ b ∧ j = b + shift) ∧
      (((indices position bitset.size).reverse.foldl (shiftUp shift) (bitset, false)).2 = true ↔
        ∃ b ∈ bitset.bits, position ≤ b) := by
  induction left with
  | zero =>
    intro position hposition
    have hbelow : ∀ b ∈ bitset.bits, b < position := fun b hb => by
      have := bitset.lt b hb
      unfold BitSet.size at hposition
      omega
    rw [indices_of_le (by omega)]
    refine ⟨fun j => ⟨fun hj => .inl ⟨hbelow j hj, hj⟩, ?_⟩, ?_⟩
    · rintro (⟨-, hj⟩ | ⟨b, hb, hle, -⟩)
      · exact hj
      · exact absurd (hbelow b hb) (not_lt.mpr hle)
    · refine iff_of_false (by simp) ?_
      rintro ⟨b, hb, hle⟩
      exact absurd (hbelow b hb) (not_lt.mpr hle)
  | succ left ih =>
    intro position hposition
    obtain ⟨hbits, hflag⟩ := ih (position + 1) (by omega)
    rw [indices_cons (by omega), List.reverse_cons, List.foldl_append]
    generalize (indices (position + 1) bitset.size).reverse.foldl _ _ = acc at hbits hflag
    have hselected : acc.1.get position = true ↔ position ∈ bitset.bits := by
      rw [BitSet.get_eq_true, hbits]
      constructor
      · rintro (⟨-, h⟩ | ⟨b, -, hle, heq⟩)
        · exact h
        · omega
      · exact fun h => .inl ⟨Nat.lt_succ_self position, h⟩
    unfold shiftUp
    simp only [List.foldl_cons, List.foldl_nil]
    constructor
    · intro j
      rw [BitSet.mem_setTo, hselected]
      split_ifs with hj
      · constructor
        · exact fun h => .inr ⟨position, h, le_rfl, hj⟩
        · rintro (⟨hlt, -⟩ | ⟨b, hb, -, heq⟩)
          · omega
          · rwa [show position = b by omega]
      · rw [BitSet.clear_bits, Finset.mem_erase, hbits]
        constructor
        · rintro ⟨hne, ⟨hlt, h⟩ | ⟨b, hb, hle, heq⟩⟩
          · exact .inl ⟨by omega, h⟩
          · exact .inr ⟨b, hb, by omega, heq⟩
        · rintro (⟨hlt, h⟩ | ⟨b, hb, hle, heq⟩)
          · exact ⟨by omega, .inl ⟨by omega, h⟩⟩
          · exact ⟨by omega, .inr ⟨b, hb, by omega, heq⟩⟩
    · rw [Bool.or_eq_true, hflag, hselected]
      constructor
      · rintro (⟨b, hb, hle⟩ | h)
        · exact ⟨b, hb, by omega⟩
        · exact ⟨position, h, le_rfl⟩
      · rintro ⟨b, hb, hle⟩
        rcases Nat.eq_or_lt_of_le hle with rfl | hlt
        · exact .inr hb
        · exact .inl ⟨b, hb, hlt⟩

/-- The first bit that a negative shift moves. -/
def firstMoved (position shift : ℕ) : ℕ := max (position + shift) (shift + 1)

/-- The bits after the loop for a negative shift, up to the bit `last`. -/
theorem shiftDown_loop {shift : ℕ} (hshift : 0 < shift) (steps : ℕ) :
    let acc := (indices position (position + steps)).foldl (shiftDown position (-shift)) (bitset, false)
    (∀ j, j ∈ acc.1.bits ↔
      (∃ b ∈ bitset.bits, firstMoved position shift ≤ b ∧ b ≤ position + steps ∧ b = j + shift) ∨
        (j ∈ bitset.bits ∧ ¬(firstMoved position shift ≤ j ∧ j ≤ position + steps) ∧
          ¬(firstMoved position shift ≤ j + shift ∧ j + shift ≤ position + steps))) ∧
      (acc.2 = true ↔
        ∃ b ∈ bitset.bits, firstMoved position shift ≤ b ∧ b ≤ position + steps) := by
  have hfirst : position < firstMoved position shift := by
    unfold firstMoved
    omega
  induction steps with
  | zero =>
    rw [Nat.add_zero, indices_of_le le_rfl]
    refine ⟨fun j => ⟨fun hj => .inr ⟨hj, by omega, by omega⟩, ?_⟩, ?_⟩
    · rintro (⟨b, -, hle, hb, -⟩ | ⟨hj, -⟩)
      · omega
      · exact hj
    · refine iff_of_false (by simp) ?_
      rintro ⟨b, -, hle, hb⟩
      omega
  | succ steps ih =>
    dsimp only at ih ⊢
    rw [← Nat.add_assoc, indices_succ (Nat.le_add_right _ _), List.foldl_append]
    generalize (indices position (position + steps)).foldl _ _ = acc at ih
    obtain ⟨hbits, hflag⟩ := ih
    simp only [List.foldl_cons, List.foldl_nil]
    generalize position + steps = i at hbits hflag
    by_cases hmoved : firstMoved position shift ≤ i + 1
    · have hselected : acc.1.get (i + 1) = true ↔ i + 1 ∈ bitset.bits := by
        rw [BitSet.get_eq_true, hbits]
        constructor
        · rintro (⟨b, -, -, hle, heq⟩ | ⟨h, -⟩)
          · omega
          · exact h
        · exact fun h => .inr ⟨h, by omega, by omega⟩
      have hstep : shiftDown position (-shift) acc i = ((acc.1.clear (i + 1)).setTo
          (i + 1 - shift) (acc.1.get (i + 1)), acc.2 || acc.1.get (i + 1)) := by
        unfold firstMoved at hmoved
        unfold shiftDown
        rw [if_neg (by omega), if_neg (by omega),
          show ((i : ℤ) + 1 + -shift).toNat = i + 1 - shift by omega]
      have hle : shift ≤ i + 1 := by
        unfold firstMoved at hmoved
        omega
      rw [hstep]
      constructor
      · intro j
        dsimp only
        rw [BitSet.mem_setTo, hselected]
        split_ifs with hj
        · constructor
          · exact fun h => .inl ⟨i + 1, h, hmoved, le_rfl, by omega⟩
          · rintro (⟨b, hb, -, -, heq⟩ | ⟨-, -, h⟩)
            · rwa [show i + 1 = b by omega]
            · omega
        · rw [BitSet.clear_bits, Finset.mem_erase, hbits]
          constructor
          · rintro ⟨hne, ⟨b, hb, h, hbi, heq⟩ | ⟨h, hj₁, hj₂⟩⟩
            · exact .inl ⟨b, hb, h, by omega, heq⟩
            · exact .inr ⟨h, by omega, by omega⟩
          · rintro (⟨b, hb, h, hbi, heq⟩ | ⟨h, hj₁, hj₂⟩)
            · exact ⟨by omega, .inl ⟨b, hb, h, by omega, heq⟩⟩
            · exact ⟨by omega, .inr ⟨h, by omega, by omega⟩⟩
      · dsimp only
        rw [Bool.or_eq_true, hflag, hselected]
        constructor
        · rintro (⟨b, hb, h, hbi⟩ | h)
          · exact ⟨b, hb, h, by omega⟩
          · exact ⟨i + 1, h, hmoved, le_rfl⟩
        · rintro ⟨b, hb, h, hbi⟩
          rcases Nat.eq_or_lt_of_le hbi with rfl | hlt
          · exact .inr hb
          · exact .inl ⟨b, hb, h, by omega⟩
    · -- the loop skips the bit
      have hstep : shiftDown position (-shift) acc i = acc := by
        unfold firstMoved at hmoved
        unfold shiftDown
        split_ifs with h₁ h₂
        · rfl
        · rfl
        · omega
      rw [hstep]
      constructor
      · intro j
        rw [hbits]
        constructor
        · rintro (⟨b, hb, h, hbi, heq⟩ | ⟨h, hj₁, hj₂⟩)
          · omega
          · exact .inr ⟨h, by omega, by omega⟩
        · rintro (⟨b, hb, h, hbi, heq⟩ | ⟨h, hj₁, hj₂⟩)
          · omega
          · exact .inr ⟨h, by omega, by omega⟩
      · rw [hflag]
        constructor
        · rintro ⟨b, -, h, hbi⟩
          omega
        · rintro ⟨b, -, h, hbi⟩
          omega

/-- The bits of `shiftBits` for a positive shift. -/
theorem mem_shiftBits_up_iff {shift : ℕ} (hshift : 0 < shift) (j : ℕ) :
    j ∈ (shiftBits bitset position shift).1.bits ↔
      (j < position ∧ j ∈ bitset.bits) ∨ ∃ b ∈ bitset.bits, position ≤ b ∧ j = b + shift := by
  unfold shiftBits
  rw [if_pos (by omega), Int.toNat_natCast]
  dsimp only
  rw [BitSet.clear_bits, Finset.mem_erase]
  rcases Nat.le_total position bitset.size with hposition | hposition
  · rw [(shiftUp_loop hshift (bitset.size - position) position (by omega)).1]
    constructor
    · exact fun h => h.2
    · refine fun h => ⟨?_, h⟩
      rcases h with ⟨hlt, -⟩ | ⟨b, -, hle, heq⟩
      · omega
      · omega
  · have hbelow : ∀ b ∈ bitset.bits, b < position := fun b hb =>
      Nat.lt_of_lt_of_le (bitset.lt b hb) hposition
    rw [indices_of_le hposition]
    constructor
    · exact fun ⟨_, hj⟩ => .inl ⟨hbelow j hj, hj⟩
    · rintro (⟨hlt, hj⟩ | ⟨b, hb, hle, -⟩)
      · exact ⟨hlt.ne, hj⟩
      · exact absurd (hbelow b hb) (not_lt.mpr hle)

/-- The bits of `shiftBits` for a negative shift. A bit that is not moved is left alone
only where no bit of the reserved ones is moved to. -/
theorem mem_shiftBits_down_iff {shift : ℕ} (hshift : 0 < shift) (j : ℕ) :
    j ∈ (shiftBits bitset position (-shift)).1.bits ↔
      (∃ b ∈ bitset.bits, firstMoved position shift ≤ b ∧ b = j + shift) ∨
        (j ∈ bitset.bits ∧ j < firstMoved position shift ∧
          (j + shift < firstMoved position shift ∨ bitset.size < j + shift)) := by
  unfold shiftBits
  rw [if_neg (by omega)]
  rcases Nat.le_total position bitset.size with hposition | hposition
  · have hbound : ∀ b ∈ bitset.bits, b < bitset.size := bitset.lt
    obtain ⟨steps, hsteps⟩ := Nat.exists_eq_add_of_le hposition
    rw [hsteps, (shiftDown_loop hshift steps).1, ← hsteps]
    constructor
    · rintro (⟨b, hb, hle, -, heq⟩ | ⟨hj, hj₁, hj₂⟩)
      · exact .inl ⟨b, hb, hle, heq⟩
      · have := hbound j hj
        exact .inr ⟨hj, by omega, by omega⟩
    · rintro (⟨b, hb, hle, heq⟩ | ⟨hj, hj₁, hj₂⟩)
      · exact .inl ⟨b, hb, hle, (hbound b hb).le, heq⟩
      · exact .inr ⟨hj, by omega, by omega⟩
  · have hfirst : bitset.size < firstMoved position shift := by
      unfold firstMoved
      omega
    have hbelow : ∀ b ∈ bitset.bits, b < bitset.size := bitset.lt
    rw [indices_of_le hposition]
    constructor
    · intro hj
      have := hbelow j hj
      exact .inr ⟨hj, by omega, by omega⟩
    · rintro (⟨b, hb, hle, -⟩ | ⟨hj, -⟩)
      · have := hbelow b hb
        omega
      · exact hj

theorem shiftBits_down_moved_iff {shift : ℕ} (hshift : 0 < shift) :
    (shiftBits bitset position (-shift)).2 = true ↔
      ∃ b ∈ bitset.bits, firstMoved position shift ≤ b := by
  have hbound : ∀ b ∈ bitset.bits, b < bitset.size := bitset.lt
  unfold shiftBits
  rw [if_neg (by omega)]
  rcases Nat.le_total position bitset.size with hposition | hposition
  · obtain ⟨steps, hsteps⟩ := Nat.exists_eq_add_of_le hposition
    rw [hsteps, (shiftDown_loop hshift steps).2, ← hsteps]
    constructor
    · exact fun ⟨b, hb, hle, _⟩ => ⟨b, hb, hle⟩
    · exact fun ⟨b, hb, hle⟩ => ⟨b, hb, hle, (hbound b hb).le⟩
  · rw [indices_of_le hposition]
    refine iff_of_false (by simp) ?_
    rintro ⟨b, hb, hle⟩
    have := hbound b hb
    unfold firstMoved at hle
    omega

end Loops

/-! ## `shiftSelection` -/

section Shift

variable {T : Type} {s : SelectionModel T} {position lead : ℕ}

theorem setSelectedIndex_bits (s : SelectionModel T) (value : ℤ) :
    (s.setSelectedIndex value).selectedIndices = s.selectedIndices := by
  unfold setSelectedIndex
  split_ifs <;> rfl

theorem setSelectedIndex_selectedIndex (s : SelectionModel T) (value : ℤ) :
    (s.setSelectedIndex value).selectedIndex = value := by
  unfold setSelectedIndex
  split_ifs with h
  · exact h
  · rfl

theorem setSelectedIndex_itemCount (s : SelectionModel T) (value : ℤ) :
    (s.setSelectedIndex value).itemCount = s.itemCount := by
  unfold setSelectedIndex
  split_ifs <;> rfl

theorem setSelectedIndex_selectionMode (s : SelectionModel T) (value : ℤ) :
    (s.setSelectedIndex value).selectionMode = s.selectionMode := by
  unfold setSelectedIndex
  split_ifs <;> rfl

theorem indexOfFrom_frame (o : ℤ) (left : ℕ) (i : ℤ) (s : SelectionModel T) :
    (indexOfFrom o left i s).2.selectedIndices = s.selectedIndices ∧
      (indexOfFrom o left i s).2.selectedIndex = s.selectedIndex := by
  induction left generalizing i s with
  | zero => exact ⟨rfl, rfl⟩
  | succ left ih =>
    unfold indexOfFrom
    dsimp only
    split_ifs
    · exact ⟨rfl, rfl⟩
    · exact ih (i + 1) (s.get i).2

variable [DecidableEq T]

/-- In multiple mode `select` adds a row of the list. -/
theorem select_spec (hmultiple : s.selectionMode = .multiple) {row : ℕ} (hrow : (row : ℤ) < s.itemCount) :
    (s.select row).selectedIndices.bits = insert row s.selectedIndices.bits ∧
      (s.select row).selectedIndex = row := by
  have hset : ((s.startAtomic.setRow row).selectedIndices.bits = insert row s.selectedIndices.bits) := by
    unfold setRow
    split_ifs with hget hsingle
    · exact (Finset.insert_eq_of_mem (BitSet.get_eq_true.mp hget)).symm
    · exact absurd (hsingle.symm.trans hmultiple) (by decide)
    · rfl
  unfold select
  rw [if_neg (by omega), if_neg (by omega)]
  dsimp only
  rw [Int.toNat_natCast]
  set s₁ := ((s.startAtomic.setRow row).setSelectedIndex row).stopAtomic with hs₁
  have hbits : s₁.selectedIndices.bits = insert row s.selectedIndices.bits := by
    rw [← hset]
    exact congrArg BitSet.bits (setSelectedIndex_bits (s.startAtomic.setRow row) row)
  have hindex : s₁.selectedIndex = row := setSelectedIndex_selectedIndex (s.startAtomic.setRow row) row
  have hquiet : (if s₁.isAtomic = true then s₁ else (s₁.indexOf row).2).selectedIndices.bits
      = insert row s.selectedIndices.bits ∧
      (if s₁.isAtomic = true then s₁ else (s₁.indexOf row).2).selectedIndex = row := by
    split_ifs
    · exact ⟨hbits, hindex⟩
    · have hframe := indexOfFrom_frame row s₁.selectedIndices.cardinality 0 s₁
      exact ⟨(congrArg BitSet.bits hframe.1).trans hbits, hframe.2.trans hindex⟩
  split_ifs at hquiet ⊢ <;> exact hquiet

theorem select_of_le {row : ℕ} (hrow : s.itemCount ≤ row) : s.select row = s := by
  unfold select
  rw [if_neg (by omega), if_pos (.inr hrow)]

/-- The end of a shift that has the selected index to move. -/
theorem shiftLead_spec (hmultiple : s.selectionMode = .multiple) (hlead : s.selectedIndex = lead)
    (hposition : position ≤ lead) (shift : ℤ) (moved : Bool) :
    (∀ j, j ∈ (s.shiftLead position shift moved).selectedIndices.bits ↔ j ∈ s.selectedIndices.bits ∨
      (j = (lead + shift).toNat ∧ (moved = true ∨ (j : ℤ) < s.itemCount))) ∧
      (s.shiftLead position shift moved).selectedIndex = (lead + shift).toNat := by
  have hmax : max 0 ((lead : ℤ) + shift) = ((lead + shift).toNat : ℤ) := by omega
  unfold shiftLead
  rw [hlead, if_pos (by omega)]
  dsimp only
  rw [hmax]
  generalize (lead + shift).toNat = row
  set s₁ := s.setSelectedIndex row with hs₁
  have hbits : s₁.selectedIndices = s.selectedIndices := setSelectedIndex_bits s row
  have hindex : s₁.selectedIndex = row := setSelectedIndex_selectedIndex s row
  cases moved with
  | true =>
    rw [if_pos rfl]
    refine ⟨fun j => ?_, hindex⟩
    change j ∈ (s₁.selectedIndices.set _).bits ↔ _
    rw [Int.toNat_natCast, hbits, BitSet.set_bits, Finset.mem_insert]
    tauto
  | false =>
    rw [if_neg Bool.false_ne_true]
    have hcount : s₁.itemCount = s.itemCount := setSelectedIndex_itemCount s row
    rcases lt_or_ge (row : ℤ) s.itemCount with hrow | hrow
    · have hselect := select_spec ((setSelectedIndex_selectionMode s row).trans hmultiple)
        (hcount.symm ▸ hrow)
      refine ⟨fun j => ?_, hselect.2⟩
      rw [hselect.1, hbits, Finset.mem_insert]
      constructor
      · rintro (rfl | hj)
        · exact .inr ⟨rfl, .inr hrow⟩
        · exact .inl hj
      · rintro (hj | ⟨rfl, -⟩)
        · exact .inr hj
        · exact .inl rfl
    · rw [select_of_le (hcount.symm ▸ hrow)]
      refine ⟨fun j => ?_, hindex⟩
      rw [hbits]
      constructor
      · exact .inl
      · rintro (hj | ⟨rfl, h | h⟩)
        · exact hj
        · exact absurd h Bool.false_ne_true
        · omega

theorem shiftSelection_eq (hlead : lead ∈ s.selectedIndices.bits) {shift : ℤ} (hshift : shift ≠ 0) :
    s.shiftSelection position shift =
      (s.setBits (shiftBits s.selectedIndices position shift).1).shiftLead position shift
        (shiftBits s.selectedIndices position shift).2 := by
  have hcardinality : s.selectedIndices.cardinality ≠ 0 := Finset.card_ne_zero_of_mem hlead
  unfold shiftSelection
  rw [if_neg (by omega), if_neg hshift, if_neg hcardinality, Int.toNat_natCast]

theorem shiftLead_of_lt (hlead : s.selectedIndex = lead) (hposition : lead < position) (shift : ℤ)
    (moved : Bool) : s.shiftLead position shift moved = s := by
  unfold shiftLead
  rw [hlead]
  exact if_neg (by omega)

/-- Selected indices behind the position move up, the selected index with them. -/
theorem shiftSelection_up (position : ℕ) (hmultiple : s.selectionMode = .multiple) (hindex : s.selectedIndex = lead)
    (hlead : lead ∈ s.selectedIndices.bits) {shift : ℕ} (hshift : 0 < shift) :
    (∀ j, j ∈ (s.shiftSelection position shift).selectedIndices.bits ↔
      (j < position ∧ j ∈ s.selectedIndices.bits) ∨
        ∃ b ∈ s.selectedIndices.bits, position ≤ b ∧ j = b + shift) ∧
      (s.shiftSelection position shift).selectedIndex
        = if lead < position then (lead : ℤ) else lead + shift := by
  have hbits : ∀ j, j ∈ (shiftBits s.selectedIndices position shift).1.bits ↔ _ :=
    mem_shiftBits_up_iff hshift
  rw [shiftSelection_eq hlead (by omega)]
  set bits := shiftBits s.selectedIndices position shift
  split_ifs with hposition
  · rw [shiftLead_of_lt (s := s.setBits bits.1) hindex hposition]
    exact ⟨hbits, hindex⟩
  · obtain ⟨hset, hvalue⟩ := shiftLead_spec (s := s.setBits bits.1) hmultiple hindex
      (not_lt.mp hposition) shift bits.2
    refine ⟨fun j => ?_, by rw [hvalue]; omega⟩
    rw [hset]
    change j ∈ bits.1.bits ∨ _ ↔ _
    rw [hbits]
    constructor
    · rintro (h | ⟨hj, -⟩)
      · exact h
      · exact .inr ⟨lead, hlead, not_lt.mp hposition, by omega⟩
    · exact .inl

/-- Selected indices from the first moved on move down; the selected index does so from the
position on, and stops at 0. -/
theorem shiftSelection_down (position : ℕ) (hmultiple : s.selectionMode = .multiple)
    (hindex : s.selectedIndex = lead) (hlead : lead ∈ s.selectedIndices.bits) {shift : ℕ}
    (hshift : 0 < shift) :
    (∀ j, j ∈ (s.shiftSelection position (-shift)).selectedIndices.bits ↔
      (∃ b ∈ s.selectedIndices.bits, firstMoved position shift ≤ b ∧ b = j + shift) ∨
        (j ∈ s.selectedIndices.bits ∧ j < firstMoved position shift ∧
          (j + shift < firstMoved position shift ∨ s.selectedIndices.size < j + shift)) ∨
        (position ≤ lead ∧ j = lead - shift ∧
          ((∃ b ∈ s.selectedIndices.bits, firstMoved position shift ≤ b) ∨ (j : ℤ) < s.itemCount))) ∧
      (s.shiftSelection position (-shift)).selectedIndex
        = if lead < position then (lead : ℤ) else (lead - shift : ℕ) := by
  have hbits : ∀ j, j ∈ (shiftBits s.selectedIndices position (-shift)).1.bits ↔ _ :=
    mem_shiftBits_down_iff hshift
  have hmoved : (shiftBits s.selectedIndices position (-shift)).2 = true ↔ _ :=
    shiftBits_down_moved_iff hshift
  rw [shiftSelection_eq hlead (by omega)]
  set bits := shiftBits s.selectedIndices position (-shift)
  split_ifs with hposition
  · rw [shiftLead_of_lt (s := s.setBits bits.1) hindex hposition]
    refine ⟨fun j => (hbits j).trans ?_, hindex⟩
    constructor
    · rintro (h | h)
      · exact .inl h
      · exact .inr (.inl h)
    · rintro (h | h | ⟨h, -⟩)
      · exact .inl h
      · exact .inr h
      · omega
  · obtain ⟨hset, hvalue⟩ := shiftLead_spec (s := s.setBits bits.1) hmultiple hindex
      (not_lt.mp hposition) (-shift) bits.2
    have hrow : ((lead : ℤ) + -shift).toNat = lead - shift := by omega
    refine ⟨fun j => ?_, by rw [hvalue, hrow]⟩
    rw [hset, hrow, hmoved]
    change j ∈ bits.1.bits ∨ _ ↔ _
    rw [hbits, or_assoc]
    constructor
    · rintro (h | h | h)
      · exact .inl h
      · exact .inr (.inl h)
      · exact .inr (.inr ⟨not_lt.mp hposition, h⟩)
    · rintro (h | h | ⟨-, h⟩)
      · exact .inl h
      · exact .inr (.inl h)
      · exact .inr (.inr h)

end Shift

/-! ## Where the selected indices should have gone -/

section Shifted

variable {T : Type} {s : SelectionModel T} {position lead : ℕ} {img : ℕ → ℕ}

/-- `shiftSelection` has taken the selected index `b` to `b'`. Between the position and the
first bit that is moved only the selected index itself is taken along, and only where its
old bit is overwritten. -/
def Shifted (s : SelectionModel T) (position : ℕ) (shift : ℤ) (b b' : ℕ) : Prop :=
  if b < position ∨ shift = 0 then b' = b
  else if 0 < shift ∨ firstMoved position shift.natAbs ≤ b then (b' : ℤ) = b + shift
  else s.selectedIndex = b ∧ b + shift.natAbs ≤ s.selectedIndices.size ∧ b' = b - shift.natAbs

instance (s : SelectionModel T) (position : ℕ) (shift : ℤ) (b b' : ℕ) :
    Decidable (s.Shifted position shift b b') := by
  unfold Shifted
  infer_instance

theorem shifted_up_iff {shift b b' : ℕ} :
    s.Shifted position shift b b' ↔ (b < position ∧ b' = b) ∨ (position ≤ b ∧ b' = b + shift) := by
  unfold Shifted
  split_ifs <;> omega

theorem shifted_down_iff {shift b b' : ℕ} (hshift : 0 < shift) (hindex : s.selectedIndex = lead) :
    s.Shifted position (-shift) b b' ↔ (b < position ∧ b' = b) ∨
      (firstMoved position shift ≤ b ∧ b = b' + shift) ∨
      (position ≤ b ∧ b < firstMoved position shift ∧ b = lead ∧
        b + shift ≤ s.selectedIndices.size ∧ b' = b - shift) := by
  have hfirst : position < firstMoved position shift := by
    unfold firstMoved
    omega
  unfold Shifted
  rw [hindex, Int.natAbs_neg, Int.natAbs_natCast]
  split_ifs <;> omega

/-- A map of the selected indices that keeps their order, and moves each by the whole shift
or to below the position. -/
structure Moves (bits : Finset ℕ) (position : ℕ) (shift : ℤ) (img : ℕ → ℕ) : Prop where
  lt : ∀ b₁ ∈ bits, ∀ b₂ ∈ bits, b₁ < b₂ → img b₁ < img b₂
  grown : ∀ b ∈ bits, img b < position ∨ (img b : ℤ) = b + shift

theorem Moves.cases {bits : Finset ℕ} {shift : ℤ} (h : Moves bits position shift img) {b b₁ : ℕ}
    (hb : b ∈ bits) (hb₁ : b₁ ∈ bits) :
    (b < b₁ ∧ img b < img b₁) ∨ (b = b₁ ∧ img b = img b₁) ∨ (b₁ < b ∧ img b₁ < img b) := by
  rcases Nat.lt_trichotomy b b₁ with hlt | rfl | hlt
  · exact .inl ⟨hlt, h.lt b hb b₁ hb₁ hlt⟩
  · exact .inr (.inl ⟨rfl, rfl⟩)
  · exact .inr (.inr ⟨hlt, h.lt b₁ hb₁ b hb hlt⟩)

/-- After a shift up exactly the images are selected when each index went to its image. -/
theorem shifted_up_of_image {shift : ℕ} (h : Moves s.selectedIndices.bits position shift img)
    (himage : ∀ j, (∃ b ∈ s.selectedIndices.bits, img b = j) ↔
      (j < position ∧ j ∈ s.selectedIndices.bits) ∨
        ∃ b ∈ s.selectedIndices.bits, position ≤ b ∧ j = b + shift) :
    ∀ b ∈ s.selectedIndices.bits, s.Shifted position shift b (img b) := by
  intro b
  -- from the lowest index up: what is below `b` fits, so nothing but `b` can have gone to its place
  induction b using Nat.strong_induction_on with
  | h b ih =>
    intro hb
    simp only [shifted_up_iff] at ih ⊢
    have hat := (himage (img b)).mp ⟨b, hb, rfl⟩
    have hplace : ∃ b₁ ∈ s.selectedIndices.bits, img b₁ = if b < position then b else b + shift := by
      split_ifs with hlt
      · exact (himage b).mpr (.inl ⟨hlt, hb⟩)
      · exact (himage (b + shift)).mpr (.inr ⟨b, hb, by omega, rfl⟩)
    obtain ⟨b₁, hb₁, heq⟩ := hplace
    have hgrown := h.grown b hb
    rcases h.cases hb hb₁ with ⟨hlt, himg⟩ | ⟨rfl, -⟩ | ⟨hlt, -⟩
    · rcases hat with ⟨hbelow, hmem⟩ | ⟨b₂, -, hle, heq₂⟩
      · have hbelow_b : img b < b := by split_ifs at heq <;> omega
        have hfix := ih (img b) hbelow_b hmem
        have := h.lt (img b) hmem b hb hbelow_b
        omega
      · split_ifs at heq <;> omega
    · split_ifs at heq <;> omega
    · have := ih b₁ hlt hb₁
      split_ifs at heq <;> omega

theorem image_of_shifted_up {shift : ℕ}
    (h : ∀ b ∈ s.selectedIndices.bits, s.Shifted position shift b (img b)) (j : ℕ) :
    (∃ b ∈ s.selectedIndices.bits, img b = j) ↔
      (j < position ∧ j ∈ s.selectedIndices.bits) ∨
        ∃ b ∈ s.selectedIndices.bits, position ≤ b ∧ j = b + shift := by
  simp only [shifted_up_iff] at h
  constructor
  · rintro ⟨b, hb, rfl⟩
    rcases h b hb with ⟨hlt, heq⟩ | ⟨hle, heq⟩
    · rw [heq]
      exact .inl ⟨hlt, hb⟩
    · exact .inr ⟨b, hb, hle, heq⟩
  · rintro (⟨hlt, hj⟩ | ⟨b, hb, hle, rfl⟩)
    · exact ⟨j, hj, by have := h j hj; omega⟩
    · exact ⟨b, hb, by have := h b hb; omega⟩

/-- After a shift down exactly the images are selected, and the selected index is at its
own, when each index went to its image. -/
theorem shifted_down_of_image {shift : ℕ} (hshift : 0 < shift) (hindex : s.selectedIndex = lead)
    (hlead : lead ∈ s.selectedIndices.bits) {extra : ℕ → Prop}
    (h : Moves s.selectedIndices.bits position (-shift) img)
    (himage : ∀ j, (∃ b ∈ s.selectedIndices.bits, img b = j) ↔
      (∃ b ∈ s.selectedIndices.bits, firstMoved position shift ≤ b ∧ b = j + shift) ∨
        (j ∈ s.selectedIndices.bits ∧ j < firstMoved position shift ∧
          (j + shift < firstMoved position shift ∨ s.selectedIndices.size < j + shift)) ∨
        (position ≤ lead ∧ j = lead - shift ∧ extra j))
    (himgLead : position ≤ lead → img lead = lead - shift) :
    ∀ b ∈ s.selectedIndices.bits, s.Shifted position (-shift) b (img b) := by
  have hfirst : firstMoved position shift = max (position + shift) (shift + 1) := rfl
  intro b
  induction b using Nat.strong_induction_on with
  | h b ih =>
    intro hb
    simp only [shifted_down_iff hshift hindex] at ih ⊢
    have hgrown := h.grown b hb
    have hsame : position ≤ lead → img b = lead - shift → b = lead := fun hle heq => by
      have := h.cases hb hlead
      have := himgLead hle
      omega
    -- an index below stays where it is, so no other goes there
    have hnot : img b < position → img b < b → img b ∉ s.selectedIndices.bits :=
      fun hlt hlt' hmem => by
        have := ih (img b) hlt' hmem
        have := h.lt (img b) hmem b hb hlt'
        omega
    by_cases hbelow : b < position
    · obtain ⟨b₁, hb₁, heq⟩ := (himage b).mpr (.inr (.inl ⟨hb, by omega, by omega⟩))
      rcases h.cases hb hb₁ with ⟨hlt, himg⟩ | ⟨rfl, -⟩ | ⟨hlt, -⟩
      · rcases (himage (img b)).mp ⟨b, hb, rfl⟩ with ⟨b₂, -, hle, heq₂⟩ | ⟨hmem, -⟩ | ⟨hle, heq₂, -⟩
        · omega
        · exact absurd hmem (hnot (by omega) (by omega))
        · have := hsame hle heq₂
          omega
      · omega
      · have := ih b₁ hlt hb₁
        omega
    by_cases hmoved : firstMoved position shift ≤ b
    · obtain ⟨b₁, hb₁, heq⟩ := (himage (b - shift)).mpr (.inl ⟨b, hb, hmoved, by omega⟩)
      rcases h.cases hb hb₁ with ⟨hlt, himg⟩ | ⟨rfl, -⟩ | ⟨hlt, -⟩
      · rcases (himage (img b)).mp ⟨b, hb, rfl⟩ with ⟨b₂, -, hle, heq₂⟩ | ⟨hmem, -⟩ | ⟨hle, heq₂, -⟩
        · omega
        · exact absurd hmem (hnot (by omega) (by omega))
        · have := hsame hle heq₂
          omega
      · omega
      · have := ih b₁ hlt hb₁
        omega
    · -- the gap: only the selected index can be taken out of it
      have hpos : 0 < b := by omega
      have heq : b = lead ∧ img b = b - shift := by
        rcases (himage (img b)).mp ⟨b, hb, rfl⟩ with ⟨b₂, -, hle, heq₂⟩ | ⟨hmem, -⟩ | ⟨hle, heq₂, -⟩
        · omega
        · rcases Nat.lt_or_ge (img b) position with hlt | hge
          · exact absurd hmem (hnot hlt (by omega))
          · have := h.lt (img b) hmem b hb (by omega)
            omega
        · have := hsame hle heq₂
          omega
      refine .inr (.inr ⟨by omega, by omega, heq.1, not_lt.mp fun hstale => ?_, heq.2⟩)
      obtain ⟨b₁, hb₁, heq₁⟩ := (himage b).mpr (.inr (.inl ⟨hb, by omega, .inr hstale⟩))
      have hsize : b₁ < s.selectedIndices.size := s.selectedIndices.lt b₁ hb₁
      have hgrown₁ := h.grown b₁ hb₁
      rcases h.cases hb hb₁ with ⟨hlt, himg⟩ | ⟨rfl, -⟩ | ⟨hlt, -⟩
      · omega
      · omega
      · have := ih b₁ hlt hb₁
        omega

theorem image_of_shifted_down {shift : ℕ} (hshift : 0 < shift) (hindex : s.selectedIndex = lead)
    (hlead : lead ∈ s.selectedIndices.bits) (extra : ℕ → Prop)
    (hextra : ∀ b ∈ s.selectedIndices.bits, extra (img b))
    (h : ∀ b ∈ s.selectedIndices.bits, s.Shifted position (-shift) b (img b)) (j : ℕ) :
    (∃ b ∈ s.selectedIndices.bits, img b = j) ↔
      (∃ b ∈ s.selectedIndices.bits, firstMoved position shift ≤ b ∧ b = j + shift) ∨
        (j ∈ s.selectedIndices.bits ∧ j < firstMoved position shift ∧
          (j + shift < firstMoved position shift ∨ s.selectedIndices.size < j + shift)) ∨
        (position ≤ lead ∧ j = lead - shift ∧ extra j) := by
  have hfirst : firstMoved position shift = max (position + shift) (shift + 1) := rfl
  simp only [shifted_down_iff hshift hindex] at h
  constructor
  · rintro ⟨b, hb, rfl⟩
    rcases h b hb with ⟨hlt, heq⟩ | ⟨hle, heq⟩ | ⟨hle, -, rfl, -, heq⟩
    · rw [heq]
      exact .inr (.inl ⟨hb, by omega, by omega⟩)
    · exact .inl ⟨b, hb, hle, heq⟩
    · exact .inr (.inr ⟨hle, heq, hextra b hb⟩)
  · rintro (⟨b, hb, hle, heq⟩ | ⟨hj, hlt, hleft⟩ | ⟨hle, rfl, -⟩)
    · exact ⟨b, hb, by have := h b hb; omega⟩
    · exact ⟨j, hj, by have := h j hj; omega⟩
    · exact ⟨lead, hlead, by have := h lead hlead; omega⟩

end Shifted

/-! ## A change of insertions and removals -/

section Change

variable {T : Type} [DecidableEq T] {s : SelectionModel T} {final : List (Option T)}
  {cs : List (SubChange (Option T))} {lead : ℕ}

/-- The model once `updateItemCount` has run. -/
def updateItemCount (s : SelectionModel T) (final : List (Option T)) : SelectionModel T :=
  { s with items := final, itemCount := final.length }

/-- At this sub-change the selection leaves its item: the one removed item equals the
selected one, and the row before the selected index has another. -/
def Leaves (s : SelectionModel T) (c : SubChange (Option T)) : Prop :=
  (c.wasRemoved ∧ c.removedSize = 1 ∧ ¬c.wasAdded ∧ s.selectedItem ≠ none ∧
      c.removed.head? = some s.selectedItem) ∧
    s.selectedIndex < s.itemCount ∧
    s.selectedItem ≠ s.getModelItem (if s.selectedIndex = 0 then 0 else s.selectedIndex - 1)

instance (s : SelectionModel T) (c : SubChange (Option T)) : Decidable (s.Leaves c) := by
  unfold Leaves
  infer_instance

/-- The position of the shift: the change is left standing at its last sub-change. -/
def shiftPosition (cs : List (SubChange (Option T))) : ℕ := (cs.getLast?.map SubChange.fromIdx).getD 0

/-- What the result is about: insertions and removals that remove no selected item. -/
structure Keeps (s : SelectionModel T) (final : List (Option T)) (cs : List (SubChange (Option T))) :
    Prop where
  multiple : s.selectionMode = .multiple
  lead : ∃ b ∈ s.selectedIndices.bits, s.selectedIndex = b
  edits : Edits 0 s.items final cs
  pure : ∀ c ∈ cs, c.Pure
  kept : ∀ b ∈ s.selectedIndices.bits, b < s.items.length ∧ (image cs b).isSome

/-- The selection has followed the items: the same occurrences are selected, the selected
index is at the same item, and no index outside of the list is selected. -/
structure Follows (s s' : SelectionModel T) (final : List (Option T))
    (cs : List (SubChange (Option T))) : Prop where
  bits : ∀ j, j ∈ s'.selectedIndices.bits ↔ ∃ b ∈ s.selectedIndices.bits, image cs b = some j
  lead : ∃ b b' : ℕ, s.selectedIndex = b ∧ image cs b = some b' ∧ s'.selectedIndex = b'
  inside : ∀ j ∈ s'.selectedIndices.bits, j < final.length

/-- Every selected index has gone to its image. -/
def Fits (s : SelectionModel T) (cs : List (SubChange (Option T))) : Prop :=
  ∀ b ∈ s.selectedIndices.bits, ∀ b', image cs b = some b' →
    s.Shifted (shiftPosition cs) (growth cs) b b'

theorem onSubChange_eq (hindex : s.selectedIndex = lead) (hitems : s.items ≠ [])
    {c : SubChange (Option T)} (h : ¬s.Leaves c) : s.onSubChange c = s := by
  unfold onSubChange
  rw [if_neg (by simpa using hitems), if_neg (by omega)]
  split_ifs with hremoved
  · -- the sub-change removes an item that equals the selected one
    unfold leaveRemoved
    by_cases hcount : s.selectedIndex < s.itemCount
    · have hitem : ¬s.selectedItem ≠
          s.getModelItem (if s.selectedIndex = 0 then 0 else s.selectedIndex - 1) :=
        fun hitem => h ⟨hremoved, hcount, hitem⟩
      rw [if_pos hcount, if_neg hitem]
    · rw [if_neg hcount]
  · rfl

theorem foldl_onSubChange (hindex : s.selectedIndex = lead) (hitems : s.items ≠ [])
    (h : ∀ c ∈ cs, ¬s.Leaves c) : cs.foldl onSubChange s = s := by
  induction cs with
  | nil => rfl
  | cons c cs ih =>
    rw [List.foldl_cons, onSubChange_eq hindex hitems (h c List.mem_cons_self)]
    exact ih fun d hd => h d (List.mem_cons_of_mem c hd)

theorem updateSubChange_pure {c : SubChange (Option T)} (h : c.Pure) (s : SelectionModel T) (shift : ℤ) :
    updateSubChange (s, shift) c = (s, shift + (c.addedSize - c.removedSize)) := by
  unfold SubChange.Pure at h
  unfold updateSubChange SubChange.wasReplaced
  dsimp only
  cases hadded : c.wasAdded with
  | true =>
    have hremoved : c.wasRemoved = false := h.mp hadded
    have hempty : c.removed = [] := by simpa [SubChange.wasRemoved] using hremoved
    simp [hremoved, SubChange.removedSize, hempty]
  | false =>
    have hremoved : c.wasRemoved = true := by
      rw [hadded] at h
      simpa using h
    simp [hremoved, SubChange.addedSize, hadded]

theorem foldl_updateSubChange (h : ∀ c ∈ cs, c.Pure) (s : SelectionModel T) (shift : ℤ) :
    cs.foldl updateSubChange (s, shift) = (s, shift + growth cs) := by
  induction cs generalizing shift with
  | nil => simp [growth]
  | cons c cs ih =>
    rw [List.foldl_cons, updateSubChange_pure (h c List.mem_cons_self),
      ih fun d hd => h d (List.mem_cons_of_mem c hd), growth_cons, add_assoc]

/-- The whole observer: one shift, by the growth of the list and at the last sub-change. -/
theorem onChanged_eq (hindex : s.selectedIndex = lead) (hfinal : final ≠ [])
    (hpure : ∀ c ∈ cs, c.Pure) (hstays : ∀ c ∈ cs, ¬(s.updateItemCount final).Leaves c) :
    s.onChanged final cs =
      let s := s.updateItemCount final
      let s := if growth cs = 0 then s else s.shiftSelection (shiftPosition cs) (growth cs)
      { s with previousModelSize := s.itemCount } := by
  have hobserved := foldl_onSubChange (s := s.updateItemCount final) hindex hfinal hstays
  unfold updateItemCount at hobserved
  unfold onChanged updateSelection
  dsimp only
  rw [hobserved, foldl_updateSubChange hpure, zero_add]
  unfold shiftPosition
  cases hlast : cs.getLast? with
  | none =>
    rw [List.getLast?_eq_none_iff.mp hlast]
    rfl
  | some c =>
    by_cases hgrowth : growth cs = 0
    · simp only [hgrowth, ne_eq, not_true_eq_false, if_false, if_true]
      rfl
    · simp only [hgrowth, ne_eq, not_false_eq_true, if_false, if_true]
      rfl

omit [DecidableEq T] in
/-- The image as a function, on the selected indices. -/
theorem Keeps.image_eq (h : s.Keeps final cs) :
    ∃ img : ℕ → ℕ, (∀ b ∈ s.selectedIndices.bits, image cs b = some (img b)) ∧
      Moves s.selectedIndices.bits (shiftPosition cs) (growth cs) img ∧
      ∀ b ∈ s.selectedIndices.bits, img b < final.length := by
  have himage : ∀ b ∈ s.selectedIndices.bits, image cs b = some ((image cs b).getD 0) :=
    fun b hb => by
      obtain ⟨b', hb'⟩ := Option.isSome_iff_exists.mp (h.kept b hb).2
      rw [hb', Option.getD_some]
  refine ⟨fun b => (image cs b).getD 0, himage, ⟨?_, ?_⟩, ?_⟩
  · exact fun b₁ hb₁ b₂ hb₂ hlt => image_lt hlt (himage b₁ hb₁) (himage b₂ hb₂)
  · intro b hb
    have hb' := himage b hb
    unfold shiftPosition
    cases hlast : cs.getLast? with
    | none =>
      rw [List.getLast?_eq_none_iff.mp hlast]
      exact .inr (Int.add_zero _).symm
    | some last => exact image_below_or_grown h.edits hlast hb'
  · exact fun b hb => image_lt_length h.edits (h.kept b hb).1 (himage b hb)

/-- The selection follows a change of insertions and removals exactly when every selected
index has gone to its image. -/
theorem onChanged_follows_iff (h : s.Keeps final cs)
    (hstays : ∀ c ∈ cs, ¬(s.updateItemCount final).Leaves c) :
    Follows s (s.onChanged final cs) final cs ↔ s.Fits cs := by
  obtain ⟨lead, hlead, hindex⟩ := h.lead
  obtain ⟨img, himg, hmoves, hinside⟩ := h.image_eq
  have hfinal : final ≠ [] := by
    rintro rfl
    exact absurd (hinside lead hlead) (Nat.not_lt_zero _)
  have hfits : s.Fits cs ↔
      ∀ b ∈ s.selectedIndices.bits, s.Shifted (shiftPosition cs) (growth cs) b (img b) := by
    constructor
    · exact fun h b hb => h b hb (img b) (himg b hb)
    · intro h b hb b' hb'
      rw [himg b hb] at hb'
      cases hb'
      exact h b hb
  have hfollows : ∀ s' : SelectionModel T, Follows s s' final cs ↔
      (∀ j, (∃ b ∈ s.selectedIndices.bits, img b = j) ↔ j ∈ s'.selectedIndices.bits) ∧
        s'.selectedIndex = img lead := by
    intro s'
    have himage : ∀ j, (∃ b ∈ s.selectedIndices.bits, image cs b = some j) ↔
        ∃ b ∈ s.selectedIndices.bits, img b = j := fun j => by
      constructor
      · rintro ⟨b, hb, heq⟩
        rw [himg b hb] at heq
        exact ⟨b, hb, Option.some.inj heq⟩
      · rintro ⟨b, hb, rfl⟩
        exact ⟨b, hb, himg b hb⟩
    constructor
    · rintro ⟨hbits, ⟨b, b', hb, hb', hindex'⟩, -⟩
      obtain rfl : lead = b := by omega
      rw [himg lead hlead] at hb'
      cases hb'
      exact ⟨fun j => (himage j).symm.trans (hbits j).symm, hindex'⟩
    · rintro ⟨hbits, hindex'⟩
      refine ⟨fun j => ((himage j).trans (hbits j)).symm, ⟨lead, _, hindex, himg lead hlead, hindex'⟩,
        fun j hj => ?_⟩
      obtain ⟨b, hb, rfl⟩ := (hbits j).mpr hj
      exact hinside b hb
  rw [hfits, hfollows, onChanged_eq hindex hfinal h.pure hstays]
  dsimp only
  generalize growth cs = shift at hmoves
  generalize shiftPosition cs = position at hmoves
  rcases lt_trichotomy shift 0 with hneg | rfl | hpos
  · obtain ⟨n, hn, rfl⟩ : ∃ n : ℕ, 0 < n ∧ shift = -n := ⟨shift.natAbs, by omega, by omega⟩
    rw [if_neg (by omega)]
    obtain ⟨hbits, hvalue⟩ := shiftSelection_down (s := s.updateItemCount final) position
      h.multiple hindex hlead hn
    rw [hvalue]
    constructor
    · rintro ⟨himage, hvalue'⟩
      refine shifted_down_of_image hn hindex hlead hmoves (fun j => (himage j).trans (hbits j)) ?_
      intro hle
      rw [if_neg (by omega)] at hvalue'
      omega
    · intro hshifted
      refine ⟨fun j => (image_of_shifted_down hn hindex hlead
        (fun j => (∃ b ∈ s.selectedIndices.bits, firstMoved position n ≤ b) ∨ (j : ℤ) < final.length)
        (fun b hb => .inr (Int.ofNat_lt.mpr (hinside b hb))) hshifted j).trans (hbits j).symm, ?_⟩
      have hat := (shifted_down_iff hn hindex).mp (hshifted lead hlead)
      have hfirst : firstMoved position n = max (position + n) (n + 1) := rfl
      split_ifs <;> omega
  · rw [if_pos rfl]
    have hbits : ∀ j, j ∈ s.selectedIndices.bits ↔ (j < position ∧ j ∈ s.selectedIndices.bits) ∨
        ∃ b ∈ s.selectedIndices.bits, position ≤ b ∧ j = b + 0 := fun j => by
      constructor
      · intro hj
        rcases Nat.lt_or_ge j position with hlt | hge
        · exact .inl ⟨hlt, hj⟩
        · exact .inr ⟨j, hj, hge, rfl⟩
      · rintro (⟨-, hj⟩ | ⟨b, hb, -, rfl⟩)
        · exact hj
        · exact hb
    constructor
    · rintro ⟨himage, -⟩
      exact shifted_up_of_image hmoves fun j => (himage j).trans (hbits j)
    · intro hshifted
      refine ⟨fun j => (image_of_shifted_up hshifted j).trans (hbits j).symm, ?_⟩
      have hat : lead < position ∧ img lead = lead ∨ position ≤ lead ∧ img lead = lead + 0 :=
        shifted_up_iff.mp (hshifted lead hlead)
      exact hindex.trans (by omega)
  · obtain ⟨n, rfl⟩ := Int.eq_ofNat_of_zero_le hpos.le
    rw [if_neg (by omega)]
    obtain ⟨hbits, hvalue⟩ := shiftSelection_up (s := s.updateItemCount final) position
      h.multiple hindex hlead (Int.ofNat_lt.mp hpos)
    rw [hvalue]
    constructor
    · rintro ⟨himage, -⟩
      exact shifted_up_of_image hmoves fun j => (himage j).trans (hbits j)
    · intro hshifted
      refine ⟨fun j => (image_of_shifted_up hshifted j).trans (hbits j).symm, ?_⟩
      have := shifted_up_iff.mp (hshifted lead hlead)
      split_ifs <;> omega

/-- Three items, the second and the third selected. -/
def lastTwoSelected : SelectionModel ℕ :=
  ((new .multiple [some 0, some 1, some 2]).select 1).select 2

theorem onChanged_follows_insert :
    Follows lastTwoSelected (lastTwoSelected.onChanged [some 9, some 0, some 1, some 2]
      [.addRemove 0 1 []]) [some 9, some 0, some 1, some 2] [.addRemove 0 1 []] := by
  refine (onChanged_follows_iff ⟨rfl, ⟨2, by decide, rfl⟩, ?_, by decide, by decide⟩ (by decide)).mpr ?_
  · exact .cons [] [] [some 9] (.nil _ _)
  · intro b hb b' hb'
    rw [show lastTwoSelected.selectedIndices.bits = {2, 1} from rfl] at hb
    rcases Finset.mem_insert.mp hb with rfl | hb
    · cases hb'
      decide
    · obtain rfl := Finset.mem_singleton.mp hb
      cases hb'
      decide

/-- Removing the first item takes the second out of the selection: its bit would have to
move to 0, and the loop begins with the one that moves to 1. -/
theorem onChanged_loses_second :
    lastTwoSelected.Keeps [some 1, some 2] [.addRemove 0 0 [some 0]] ∧
      (lastTwoSelected.onChanged [some 1, some 2] [.addRemove 0 0 [some 0]]).selectedIndices.bits
        = {1} ∧
      ¬Follows lastTwoSelected (lastTwoSelected.onChanged [some 1, some 2]
        [.addRemove 0 0 [some 0]]) [some 1, some 2] [.addRemove 0 0 [some 0]] := by
  have hbits : (lastTwoSelected.onChanged [some 1, some 2]
      [.addRemove 0 0 [some 0]]).selectedIndices.bits = {1} := by decide +kernel
  refine ⟨⟨rfl, ⟨2, by decide, rfl⟩, ?_, by decide, by decide⟩, hbits, fun h => ?_⟩
  · exact .cons [] [some 0] [] (.nil _ _)
  · have hzero := h.bits 0
    rw [hbits] at hzero
    exact absurd (hzero.mpr ⟨1, by decide, rfl⟩) (by decide)

end Change

end SelectionModel

end JavaFx.Control
