/-
Where the elements of the old list stand after a change.

`image cs` walks through add/remove sub-changes, each of which has its positions in the
list as the sub-changes before it left it, and takes an index of the old list along; an
index in a removed range has no image. `image_spec` says that it is the same element at
the image.
-/
import JavaFx.Collections.ListChange

set_option autoImplicit false

namespace JavaFx.ListChange

variable {E : Type} {cs : List (SubChange E)} {c : SubChange E} {old new : List E}

/-- The image of an index under add/remove sub-changes. -/
def image : List (SubChange E) → ℕ → Option ℕ
  | [], b => some b
  | c :: cs, b =>
    if b < c.fromIdx then image cs b
    else if b < c.fromIdx + c.removedSize then none
    else image cs (b - c.removedSize + c.addedSize)

/-- By how much the list has grown. -/
def growth : List (SubChange E) → ℤ
  | [] => 0
  | c :: cs => (c.addedSize - c.removedSize : ℤ) + growth cs

@[simp] theorem growth_nil : growth ([] : List (SubChange E)) = 0 := rfl

theorem growth_cons : growth (c :: cs) = (c.addedSize - c.removedSize : ℤ) + growth cs := rfl

/-- An insertion that removes nothing, or a removal that adds nothing. -/
def SubChange.Pure (c : SubChange E) : Prop := c.wasAdded = true ↔ c.wasRemoved = false

instance (c : SubChange E) : Decidable c.Pure := by unfold SubChange.Pure; infer_instance

theorem image_below {b : ℕ} (h : b < c.fromIdx) : image (c :: cs) b = image cs b := if_pos h

/-- An index with an image is below the first sub-change or behind what it removed. -/
theorem image_cases {b b' : ℕ} (h : image (c :: cs) b = some b') :
    (b < c.fromIdx ∧ image cs b = some b') ∨
      (c.fromIdx + c.removedSize ≤ b ∧ image cs (b - c.removedSize + c.addedSize) = some b') := by
  unfold image at h
  split_ifs at h with hbelow hremoved
  · exact .inl ⟨hbelow, h⟩
  · exact .inr ⟨by omega, h⟩

/-- Images keep the order. -/
theorem image_lt {b₁ b₂ b₁' b₂' : ℕ} (hlt : b₁ < b₂) (h₁ : image cs b₁ = some b₁')
    (h₂ : image cs b₂ = some b₂') : b₁' < b₂' := by
  induction cs generalizing b₁ b₂ with
  | nil =>
    cases h₁
    cases h₂
    exact hlt
  | cons c cs ih =>
    rcases image_cases h₁ with ⟨hb₁, h₁⟩ | ⟨hb₁, h₁⟩ <;>
      rcases image_cases h₂ with ⟨hb₂, h₂⟩ | ⟨hb₂, h₂⟩
    · exact ih hlt h₁ h₂
    · exact ih (by omega) h₁ h₂
    · omega
    · exact ih (by omega) h₁ h₂

/-- What comes before all the sub-changes stays. -/
theorem image_of_forall_lt {b : ℕ} (h : ∀ c ∈ cs, b < c.fromIdx) : image cs b = some b := by
  induction cs with
  | nil => rfl
  | cons c cs ih =>
    rw [image_below (h c List.mem_cons_self)]
    exact ih fun d hd => h d (List.mem_cons_of_mem c hd)

/-- The positions of edits begin where the edits do. -/
theorem Edits.le_fromIdx {off : ℕ} (h : Edits off old new cs) : ∀ c ∈ cs, off ≤ c.fromIdx := by
  induction h with
  | nil off K => simp
  | cons K R A tail ih =>
    intro c hc
    rcases List.mem_cons.mp hc with rfl | hc
    · exact Nat.le_add_right _ _
    · have := ih c hc
      omega

theorem addedSize_addRemove {a : ℕ} (A R : List E) :
    (SubChange.addRemove a (a + A.length) R).addedSize = A.length := by
  unfold SubChange.addedSize
  split_ifs with h
  · exact Nat.add_sub_cancel_left a A.length
  · simp only [SubChange.addRemove_wasAdded, decide_eq_true_eq] at h
    omega

/-- The image of an index is where the change took the element. -/
theorem image_spec {off b b' : ℕ} (h : Edits off old new cs) (himage : image cs (off + b) = some b') :
    off ≤ b' ∧ new[b' - off]? = old[b]? := by
  induction h generalizing b b' with
  | nil off K =>
    cases himage
    rw [Nat.add_sub_cancel_left]
    exact ⟨Nat.le_add_right _ _, rfl⟩
  | @cons off K R A old new cs tail ih =>
    rcases image_cases himage with ⟨hb, himage⟩ | ⟨hb, himage⟩
    · have hbK : b < K.length := Nat.lt_of_add_lt_add_left hb
      -- the element is kept and all the other sub-changes come behind it
      have hstay : image cs (off + b) = some (off + b) :=
        image_of_forall_lt fun c hc => by
          have := tail.le_fromIdx c hc
          omega
      rw [hstay] at himage
      cases himage
      rw [Nat.add_sub_cancel_left, List.getElem?_append_left hbK,
        List.getElem?_append_left hbK]
      exact ⟨Nat.le_add_right _ _, rfl⟩
    · rw [addedSize_addRemove] at himage
      rw [SubChange.addRemove_fromIdx] at hb
      rw [SubChange.addRemove_removedSize] at hb himage
      have hsplit : off + b - R.length + A.length
          = off + K.length + A.length + (b - (K.length + R.length)) := by omega
      rw [hsplit] at himage
      obtain ⟨hle, helem⟩ := ih himage
      refine ⟨by omega, ?_⟩
      rw [← List.append_assoc, ← List.append_assoc, List.getElem?_append_right (by simp; omega),
        List.getElem?_append_right (by simp; omega), List.length_append, List.length_append,
        show b' - off - (K.length + A.length) = b' - (off + K.length + A.length) by omega]
      exact helem

/-- The images lie in the new list. -/
theorem image_lt_length {b b' : ℕ} (h : Edits 0 old new cs) (hb : b < old.length)
    (himage : image cs b = some b') : b' < new.length := by
  have helem := (image_spec h ((Nat.zero_add b).symm ▸ himage)).2
  rw [List.getElem?_eq_getElem hb] at helem
  exact (List.getElem?_eq_some_iff.mp helem).1

/-- An image is below the last sub-change, or the whole growth has moved it. -/
theorem image_below_or_grown {off b b' : ℕ} (h : Edits off old new cs) {last : SubChange E}
    (hlast : cs.getLast? = some last) (himage : image cs b = some b') :
    b' < last.fromIdx ∨ (b' : ℤ) = b + growth cs := by
  induction h generalizing b with
  | nil off K => simp at hlast
  | @cons off K R A old new cs tail ih =>
    rcases image_cases himage with ⟨hb, himage⟩ | ⟨hb, himage⟩
    · rw [SubChange.addRemove_fromIdx] at hb
      have hstay : image cs b = some b :=
        image_of_forall_lt fun c hc => by
          have := tail.le_fromIdx c hc
          omega
      rw [hstay] at himage
      cases himage
      left
      rcases List.mem_cons.mp (List.mem_of_getLast? hlast) with rfl | hmem
      · exact hb
      · have := tail.le_fromIdx last hmem
        omega
    · rw [SubChange.addRemove_fromIdx] at hb
      rw [SubChange.addRemove_removedSize] at hb himage
      rw [addedSize_addRemove] at himage
      rw [growth_cons, addedSize_addRemove, SubChange.addRemove_removedSize]
      cases cs with
      | nil =>
        cases himage
        right
        rw [growth_nil]
        omega
      | cons d ds =>
        rw [List.getLast?_cons_cons] at hlast
        rcases ih hlast himage with hlt | hgrown
        · exact .inl hlt
        · right
          omega

end JavaFx.ListChange
