/-
`ArrayLinkedList` against the mathematical list.

The array from `firstIndex` to `lastIndex` is the list (`Holds`). If it is empty, `get` sees
no difference between index 0 and the only index of a list of one: its bound is
`lastIndex - firstIndex`. It reads the array at -1, which throws. All other calls do what
they do on the mathematical list (`results_eq_iff`).
-/
import JavaFx.Control.ArrayLinkedList
import Mathlib.Data.List.GetD

set_option autoImplicit false

namespace JavaFx.Control

open JavaFx.Lib

namespace ArrayLinkedList

variable {T : Type} {s : ArrayLinkedList T} {l A B : List (Option T)} {cell : Option T}

/-! ## Where the list stands -/

/-- The array from `firstIndex` to `lastIndex` is `l`. -/
inductive Holds : ArrayLinkedList T → List (Option T) → Prop
  | empty {array : List (Option T)} : 0 < array.length → Holds ⟨array, -1, -1⟩ []
  | between {A l B : List (Option T)} : l ≠ [] →
      Holds ⟨A ++ (l ++ B), A.length, (A.length : ℤ) + l.length - 1⟩ l

theorem holds_new : Holds (new : ArrayLinkedList T) [] := .empty (by simp)

/-- A list whose array and indices are known to be of the right form. -/
theorem Holds.of_eq {array : List (Option T)} {first last : ℤ} (hne : l ≠ [])
    (harray : array = A ++ (l ++ B)) (hfirst : first = A.length)
    (hlast : last = (A.length : ℤ) + l.length - 1) : Holds ⟨array, first, last⟩ l := by
  subst harray hfirst hlast
  exact .between hne

theorem Holds.length_pos (h : Holds s l) : 0 < s.array.length := by
  cases h with
  | empty hpos => exact hpos
  | between hne =>
    have := List.length_pos_of_ne_nil hne
    simp only [List.length_append]
    omega

theorem Holds.exists_between (h : Holds s l) (hne : l ≠ []) :
    ∃ A B, s = ⟨A ++ (l ++ B), A.length, (A.length : ℤ) + l.length - 1⟩ := by
  cases h with
  | empty => exact absurd rfl hne
  | @between A _ B => exact ⟨A, B, rfl⟩

/-- Both indices, and the list in terms of them. -/
theorem Holds.span (h : Holds s l) (hne : l ≠ []) :
    0 ≤ s.firstIndex ∧ s.lastIndex = s.firstIndex + l.length - 1
      ∧ ∀ k < l.length, aget s.array (s.firstIndex + k) = .ok (l.getD k none) := by
  obtain ⟨A, B, rfl⟩ := h.exists_between hne
  refine ⟨Int.natCast_nonneg _, rfl, ?_⟩
  intro k hk
  rw [← Nat.cast_add]
  apply aget_ok
  rw [List.getElem?_append_right (Nat.le_add_right _ _), Nat.add_sub_cancel_left,
    List.getElem?_append_left hk, List.getD_eq_getElem?_getD, List.getElem?_eq_getElem hk,
    Option.getD_some]

theorem Holds.firstIndex_eq_iff (h : Holds s l) : s.firstIndex = -1 ↔ l = [] := by
  constructor
  · intro hfirst
    by_contra hne
    have := (h.span hne).1
    omega
  · rintro rfl
    cases h with
    | empty => rfl
    | between hne => exact absurd rfl hne

theorem Holds.lastIndex_eq_iff (h : Holds s l) : s.lastIndex = -1 ↔ l = [] := by
  constructor
  · intro hlast
    by_contra hne
    obtain ⟨hfirst, hspan, -⟩ := h.span hne
    have := List.length_pos_of_ne_nil hne
    omega
  · rintro rfl
    cases h with
    | empty => rfl
    | between hne => exact absurd rfl hne

/-! ## The array -/

section Array

variable {index : ℤ} {Q : Option T → ArrayLinkedList T → Prop}
  {Q' : Unit → ArrayLinkedList T → Prop} {E : Exn → ArrayLinkedList T → Prop}

theorem wp_arrayGet (h : aget s.array index = .ok cell) (hQ : Q cell s) :
    Wp (arrayGet index) s Q E := by
  simp only [arrayGet, wp_bind, wp_get, wp_liftExcept, h]
  refine ⟨?_, fun _ he => by cases he⟩
  rintro _ ⟨⟩
  exact hQ

theorem wp_arraySet {array : List (Option T)} (h : aset s.array index cell = .ok array)
    (hQ : Q' () { s with array }) : Wp (arraySet index cell) s Q' E := by
  simp only [arraySet, wp_bind, wp_get, wp_liftExcept, h, wp_set]
  refine ⟨?_, fun _ he => by cases he⟩
  rintro _ ⟨⟩
  exact hQ

theorem wp_arrayAdd (h : 0 ≤ index ∧ index ≤ s.array.length)
    (hQ : Q' () { s with array := s.array.insertIdx index.toNat cell }) :
    Wp (arrayAdd index cell) s Q' E := by
  simp only [arrayAdd, wp_bind, wp_get, if_pos h, wp_set]
  exact hQ

end Array

/-! ## Additions -/

/-- The first cell stands in the middle. -/
theorem wp_first (s : ArrayLinkedList T) {array : List (Option T)} (hpos : 0 < array.length) :
    Wp (do
      set (ArrayLinkedList.mk array (array.length / 2 : ℕ) (array.length / 2 : ℕ))
      arraySet (array.length / 2 : ℕ) cell) s (fun _ s' => Holds s' [cell])
      (fun _ _ => False) := by
  have hlt : array.length / 2 < array.length := Nat.div_lt_self hpos (by decide)
  simp only [wp_bind, wp_set]
  apply wp_arraySet (aset_ok cell hlt)
  apply Holds.of_eq (A := array.take (array.length / 2)) (B := array.drop (array.length / 2 + 1))
  · exact List.cons_ne_nil _ _
  · rw [List.set_eq_take_append_cons_drop, if_pos hlt, List.singleton_append]
  · rw [List.length_take_of_le (by omega)]
  · rw [List.length_take_of_le (by omega), List.length_singleton]
    push_cast
    ring

theorem addFirst_spec (h : Holds s l) :
    Wp (addFirst cell) s (fun _ s' => Holds s' (cell :: l)) (fun _ _ => False) := by
  unfold addFirst
  simp only [wp_bind, wp_get, wp_ite]
  refine ⟨fun hfirst => ?_, fun hfirst => ⟨fun hhead => ?_, fun hhead => ?_⟩⟩
  · cases h with
    | @empty array hpos => exact wp_first ⟨array, -1, -1⟩ hpos
    | between hne => exact absurd (Holds.between hne |>.firstIndex_eq_iff.mp hfirst) hne
  · cases h with
    | empty => exact absurd rfl hfirst
    | between hne =>
      rename_i A B
      obtain rfl := List.length_eq_zero_iff.mp (Int.natCast_eq_zero.mp hhead)
      apply wp_arrayAdd ⟨le_refl _, Int.natCast_nonneg _⟩
      rw [wp_modify]
      apply Holds.of_eq (A := []) (B := B) (List.cons_ne_nil _ _) rfl rfl
      rw [List.length_cons]
      push_cast
      ring
  · cases h with
    | empty => exact absurd rfl hfirst
    | between hne =>
      rename_i A B
      have hA : A ≠ [] := fun hnil => hhead (by rw [hnil]; rfl)
      rw [wp_set, ← List.dropLast_append_getLast hA, List.append_assoc, List.singleton_append]
      have hlen : ((A.dropLast ++ [A.getLast hA]).length : ℤ) - 1 = A.dropLast.length := by
        rw [List.length_append, List.length_singleton]
        push_cast
        ring
      dsimp only
      rw [hlen]
      apply wp_arraySet (aset_mid cell rfl)
      apply Holds.of_eq (A := A.dropLast) (B := B) (List.cons_ne_nil _ _) rfl rfl
      rw [List.length_cons]
      simp only [List.length_append, List.length_singleton]
      push_cast
      ring

theorem addLast_spec (h : Holds s l) :
    Wp (addLast cell) s (fun _ s' => Holds s' (l ++ [cell])) (fun _ _ => False) := by
  have hne' : l ++ [cell] ≠ [] := List.append_ne_nil_of_right_ne_nil _ (List.cons_ne_nil _ _)
  unfold addLast
  simp only [wp_bind, wp_get, wp_ite]
  refine ⟨fun hfirst => ?_, fun hfirst => ⟨fun hend => ?_, fun hend => ?_⟩⟩
  · cases h with
    | @empty array hpos => exact wp_first ⟨array, -1, -1⟩ hpos
    | between hne => exact absurd (Holds.between hne |>.firstIndex_eq_iff.mp hfirst) hne
  · cases h with
    | empty => exact absurd rfl hfirst
    | between hne =>
      rename_i A B
      have hlen : (A.length : ℤ) + l.length - 1 + 1 = ((A ++ l).length : ℕ) := by
        rw [List.length_append]
        push_cast
        ring
      dsimp only at hend ⊢
      have hB : B = [] := by
        apply List.length_eq_zero_iff.mp
        simp only [List.length_append] at hend
        omega
      subst hB
      rw [wp_set, hlen]
      apply wp_arrayAdd ⟨Int.natCast_nonneg _, by simp⟩
      apply Holds.of_eq (A := A) (B := []) hne'
      · rw [Int.toNat_natCast, List.append_nil, List.insertIdx_length_self, List.append_nil,
          List.append_assoc]
      · rfl
      · rw [List.length_append, List.length_append, List.length_singleton]
        push_cast
        ring
  · cases h with
    | empty => exact absurd rfl hfirst
    | between hne =>
      rename_i A B
      have hlen : (A.length : ℤ) + l.length - 1 + 1 = ((A ++ l).length : ℕ) := by
        rw [List.length_append]
        push_cast
        ring
      dsimp only at hend ⊢
      cases B with
      | nil =>
        refine absurd ?_ hend
        simp only [List.append_nil, List.length_append]
        push_cast
        ring
      | cons b B =>
        rw [wp_set, hlen, ← List.append_assoc]
        apply wp_arraySet (aset_mid cell rfl)
        apply Holds.of_eq (A := A) (B := B) hne'
        · simp only [List.append_assoc, List.singleton_append]
        · rfl
        · rw [List.length_append, List.length_append, List.length_singleton]
          push_cast
          ring

/-! ## Reading -/

theorem size_eq (h : Holds s l) : s.size = l.length := by
  unfold size
  split
  · rename_i hfirst
    rw [h.firstIndex_eq_iff.mp hfirst]
    rfl
  · rename_i hfirst
    have hspan := (h.span fun hnil => hfirst (h.firstIndex_eq_iff.mpr hnil)).2.1
    omega

theorem isEmpty_eq (h : Holds s l) : s.isEmpty = l.isEmpty := by
  rw [Bool.eq_iff_iff, List.isEmpty_iff, ← h.firstIndex_eq_iff]
  exact decide_eq_true_iff

theorem getFirst_spec (h : Holds s l) :
    Wp getFirst s (fun cell s' => s' = s ∧ cell = l.head?.getD none) (fun _ _ => False) := by
  unfold getFirst
  simp only [wp_bind, wp_get, wp_ite]
  refine ⟨fun hfirst => ?_, fun hfirst => ?_⟩
  · rw [h.firstIndex_eq_iff.mp hfirst]
    exact ⟨rfl, rfl⟩
  · have hne : l ≠ [] := fun hnil => hfirst (h.firstIndex_eq_iff.mpr hnil)
    obtain ⟨-, -, hget⟩ := h.span hne
    have hzero := hget 0 (List.length_pos_of_ne_nil hne)
    rw [Nat.cast_zero, add_zero] at hzero
    refine wp_arrayGet hzero ⟨rfl, ?_⟩
    rw [List.head?_eq_getElem?, List.getD_eq_getElem?_getD]

theorem getLast_spec (h : Holds s l) :
    Wp getLast s (fun cell s' => s' = s ∧ cell = l.getLast?.getD none) (fun _ _ => False) := by
  unfold getLast
  simp only [wp_bind, wp_get, wp_ite]
  refine ⟨fun hlast => ?_, fun hlast => ?_⟩
  · rw [h.lastIndex_eq_iff.mp hlast]
    exact ⟨rfl, rfl⟩
  · have hne : l ≠ [] := fun hnil => hlast (h.lastIndex_eq_iff.mpr hnil)
    have hpos := List.length_pos_of_ne_nil hne
    obtain ⟨-, hspan, hget⟩ := h.span hne
    have hend := hget (l.length - 1) (by omega)
    have hindex : s.firstIndex + ((l.length - 1 : ℕ) : ℤ) = s.lastIndex := by omega
    rw [hindex] at hend
    refine wp_arrayGet hend ⟨rfl, ?_⟩
    rw [List.getLast?_eq_getElem?, List.getD_eq_getElem?_getD]

/-- In an empty list, index 0 is not out of the bounds that are tested. -/
theorem getAt_spec (h : Holds s l) {index : ℤ} (hmet : ¬ (l = [] ∧ index = 0)) :
    Wp (getAt index) s
      (fun cell s' => s' = s
        ∧ cell = if 0 ≤ index ∧ index < l.length then l.getD index.toNat none else none)
      (fun _ _ => False) := by
  unfold getAt
  simp only [wp_bind, wp_get, wp_ite]
  by_cases hne : l = []
  · subst hne
    have hindex : index ≠ 0 := fun hzero => hmet ⟨rfl, hzero⟩
    have hfirst := h.firstIndex_eq_iff.mpr rfl
    have hlast := h.lastIndex_eq_iff.mpr rfl
    refine ⟨fun _ => ⟨rfl, ?_⟩, fun hin => absurd (by omega) hin⟩
    rw [if_neg]
    rintro ⟨h0, hlt⟩
    rw [List.length_nil] at hlt
    omega
  · obtain ⟨-, hspan, hget⟩ := h.span hne
    refine ⟨fun hout => ⟨rfl, (if_neg (by omega)).symm⟩, fun hin => ?_⟩
    have hat := hget index.toNat (by omega)
    rw [Int.toNat_of_nonneg (by omega)] at hat
    exact wp_arrayGet hat ⟨rfl, (if_pos (by omega)).symm⟩

theorem getAt_empty (h : Holds s ([] : List (Option T))) :
    Wp (getAt 0) s (fun _ _ => False) (fun _ s' => s' = s) := by
  have hfirst := h.firstIndex_eq_iff.mpr rfl
  have hlast := h.lastIndex_eq_iff.mpr rfl
  unfold getAt
  simp only [wp_bind, wp_get, wp_ite]
  refine ⟨fun hout => by omega, fun _ => ?_⟩
  simp [arrayGet, aget, hfirst]

theorem iterate_spec (h : Holds s l) :
    Wp iterate s (fun cells s' => s' = s ∧ cells = l) (fun _ _ => False) := by
  have hsteps : ∀ n ≤ l.length, Wp ((upTo (l.length - n : ℕ) l.length).mapM getAt) s
      (fun cells s' => s' = s ∧ cells = l.drop (l.length - n)) (fun _ _ => False) := by
    intro n
    induction n with
    | zero =>
      intro _
      rw [Nat.sub_zero, upTo_of_le (le_refl _), List.mapM_nil, wp_pure, List.drop_length]
      exact ⟨rfl, rfl⟩
    | succ n ih =>
      intro hn
      have hstep : l.length - (n + 1) + 1 = l.length - n := by omega
      rw [upTo_cons (by omega), List.mapM_cons, wp_bind]
      have hne : l ≠ [] := List.ne_nil_of_length_pos (by omega)
      apply (getAt_spec h fun hmet => hne hmet.1).mono _ (fun _ _ hfalse => hfalse)
      rintro cell _ ⟨rfl, rfl⟩
      rw [wp_bind, ← Nat.cast_succ, Nat.succ_eq_add_one, hstep]
      apply (ih (by omega)).mono _ (fun _ _ hfalse => hfalse)
      rintro cells _ ⟨rfl, rfl⟩
      refine ⟨rfl, ?_⟩
      have hlt : l.length - (n + 1) < l.length := by omega
      rw [if_pos ⟨Int.natCast_nonneg _, by omega⟩, Int.toNat_natCast,
        List.drop_eq_getElem_cons hlt, hstep, List.getD_eq_getElem _ _ hlt]
  unfold iterate
  simp only [wp_bind, wp_get, size_eq h]
  have hall := hsteps l.length (le_refl _)
  rwa [Nat.sub_self, Nat.cast_zero, List.drop_zero] at hall

/-! ## Removals -/

theorem clear_spec (h : Holds s l) :
    Wp clear s (fun _ s' => Holds s' []) (fun _ _ => False) := by
  unfold clear
  rw [wp_modify]
  exact .empty (by rw [List.length_map]; exact h.length_pos)

/-- The loop moves the cells behind the gap down by one. -/
theorem shift_spec (P Q : List (Option T)) (gap : Option T) {first last : ℤ} :
    Wp (forM (upTo ((P.length : ℤ) + 1) ((P.length : ℤ) + Q.length + 1)) fun i => do
        arraySet (i - 1) (← arrayGet i)) ⟨P ++ gap :: (Q ++ B), first, last⟩
      (fun _ s' => ∃ y, s' = ⟨P ++ (Q ++ y :: B), first, last⟩) (fun _ _ => False) := by
  induction Q generalizing P gap with
  | nil =>
    rw [List.length_nil, Nat.cast_zero, add_zero, upTo_of_le (le_refl _)]
    exact ⟨gap, rfl⟩
  | cons x Q ih =>
    have hcast : (P.length : ℤ) + 1 = ((P ++ [gap]).length : ℕ) := by
      rw [List.length_append, List.length_singleton]
      push_cast
      ring
    rw [upTo_cons (by rw [List.length_cons]; push_cast; omega), List.forM_cons, wp_bind, wp_bind]
    have hget : aget (P ++ gap :: (x :: Q ++ B)) ((P.length : ℤ) + 1) = .ok x := by
      rw [hcast, List.append_cons, List.cons_append]
      exact aget_mid rfl
    apply wp_arrayGet hget
    rw [add_sub_cancel_right]
    apply wp_arraySet (aset_mid x rfl)
    have hrest := ih (P ++ [x]) x
    rw [List.length_append, List.length_singleton, Nat.cast_add, Nat.cast_one] at hrest
    rw [List.length_cons, Nat.cast_add, Nat.cast_one]
    have hend : (P.length : ℤ) + ((Q.length : ℤ) + 1) + 1 = (P.length : ℤ) + 1 + Q.length + 1 := by
      ring
    rw [hend]
    simpa only [List.append_assoc, List.cons_append, List.nil_append] using hrest

theorem remove_head (x : Option T) (Q : List (Option T)) :
    Wp (remove 0) ⟨A ++ (x :: Q ++ B), A.length, (A.length : ℤ) + (x :: Q).length - 1⟩
      (fun cell s' => Holds s' Q ∧ cell = x) (fun _ _ => False) := by
  have hlen : ((x :: Q).length : ℤ) = Q.length + 1 := by
    rw [List.length_cons]
    push_cast
    ring
  unfold remove
  simp only [wp_bind, wp_get, wp_ite]
  refine ⟨fun hout => by omega, fun _ => ⟨fun _ => ?_, fun hpos => absurd trivial hpos⟩⟩
  apply wp_arrayGet (aget_mid rfl)
  apply wp_arraySet (aset_mid none rfl)
  refine ⟨fun hone => ?_, fun hmore => ?_⟩
  · have hQ : Q = [] := List.length_eq_zero_iff.mp (by omega)
    subst hQ
    rw [wp_modify]
    exact ⟨.empty (by simp), rfl⟩
  · have hQ : Q ≠ [] := fun hnil => hmore (by rw [hlen, hnil, List.length_nil]; ring)
    rw [wp_modify]
    refine ⟨Holds.of_eq (A := A ++ [none]) (B := B) hQ ?_ ?_ ?_, rfl⟩
    · rw [List.append_assoc]
      rfl
    · rw [List.length_append, List.length_singleton]
      push_cast
      ring
    · rw [List.length_append, List.length_singleton, hlen]
      push_cast
      ring

theorem remove_end (x : Option T) (P : List (Option T)) (hP : P ≠ []) :
    Wp (remove P.length) ⟨A ++ (P ++ [x] ++ B), A.length,
        (A.length : ℤ) + (P ++ [x]).length - 1⟩
      (fun cell s' => Holds s' P ∧ cell = x) (fun _ _ => False) := by
  have hlast : (A.length : ℤ) + (P ++ [x]).length - 1 = ((A ++ P).length : ℕ) := by
    simp only [List.length_append, List.length_singleton]
    push_cast
    ring
  have hpos := List.length_pos_of_ne_nil hP
  have harray : A ++ (P ++ [x] ++ B) = (A ++ P) ++ x :: B := by
    simp only [List.append_assoc, List.singleton_append]
  unfold remove
  simp only [wp_bind, wp_get, wp_ite]
  rw [hlast, harray, List.length_append]
  refine ⟨fun hout => by omega, fun _ => ⟨fun hzero => by omega, fun _ =>
    ⟨fun _ => ?_, fun hne => by omega⟩⟩⟩
  rw [← List.length_append]
  apply wp_arrayGet (aget_mid rfl)
  rw [wp_modify]
  apply wp_arraySet (aset_mid none rfl)
  refine ⟨Holds.of_eq (A := A) (B := none :: B) hP ?_ rfl ?_, rfl⟩
  · rw [List.append_assoc]
  · rw [List.length_append]
    push_cast
    ring

theorem remove_between (x : Option T) (P Q : List (Option T)) (hP : P ≠ []) (hQ : Q ≠ []) :
    Wp (remove P.length) ⟨A ++ (P ++ x :: Q ++ B), A.length,
        (A.length : ℤ) + (P ++ x :: Q).length - 1⟩
      (fun cell s' => Holds s' (P ++ Q) ∧ cell = x) (fun _ _ => False) := by
  have hlast : (A.length : ℤ) + (P ++ x :: Q).length - 1 = ((A ++ P).length : ℤ) + Q.length := by
    simp only [List.length_append, List.length_cons]
    push_cast
    ring
  have hindex : (A.length : ℤ) + P.length = ((A ++ P).length : ℕ) := by
    rw [List.length_append]
    push_cast
    ring
  have hpos := List.length_pos_of_ne_nil hP
  have hrest := List.length_pos_of_ne_nil hQ
  have harray : A ++ (P ++ x :: Q ++ B) = (A ++ P) ++ x :: (Q ++ B) := by
    simp only [List.append_assoc, List.cons_append]
  unfold remove
  simp only [wp_bind, wp_get, wp_ite]
  rw [hlast, harray, hindex]
  refine ⟨fun hout => by omega, fun _ => ⟨fun hzero => by omega, fun _ =>
    ⟨fun heq => by omega, fun _ => ?_⟩⟩⟩
  apply wp_arrayGet (aget_mid rfl)
  apply wp_arraySet (aset_mid none rfl)
  apply (shift_spec (A ++ P) Q none).mono _ (fun _ _ hfalse => hfalse)
  rintro - _ ⟨y, rfl⟩
  rw [wp_modify]
  have hend : ((A ++ P).length : ℤ) + Q.length = ((A ++ P ++ Q).length : ℕ) := by
    rw [@List.length_append _ (A ++ P) Q]
    push_cast
    ring
  dsimp only
  rw [hend, ← List.append_assoc]
  apply wp_arraySet (aset_mid none rfl)
  refine ⟨Holds.of_eq (A := A) (B := none :: B) (List.append_ne_nil_of_left_ne_nil hP _) ?_ rfl ?_, rfl⟩
  · simp only [List.append_assoc]
  · simp only [List.length_append]
    push_cast
    ring

theorem remove_spec (h : Holds s l) {index : ℤ} (hin : 0 ≤ index ∧ index < l.length) :
    Wp (remove index) s
      (fun cell s' => Holds s' (l.eraseIdx index.toNat) ∧ cell = l.getD index.toNat none)
      (fun _ _ => False) := by
  obtain ⟨k, rfl⟩ := Int.eq_ofNat_of_zero_le hin.1
  have hk : k < l.length := by omega
  have hsplit : l = l.take k ++ l[k] :: l.drop (k + 1) := by
    rw [← List.drop_eq_getElem_cons hk, List.take_append_drop]
  have hlen : (l.take k).length = k := List.length_take_of_le (by omega)
  rw [Int.toNat_natCast, List.getD_eq_getElem _ _ hk, List.eraseIdx_eq_take_drop_succ]
  generalize l.take k = P at *
  generalize l.drop (k + 1) = Q at *
  generalize l[k] = x at *
  subst hsplit hlen
  obtain ⟨A, B, rfl⟩ := h.exists_between (List.append_ne_nil_of_right_ne_nil _ (List.cons_ne_nil _ _))
  by_cases hP : P = []
  · subst hP
    exact remove_head x Q
  · by_cases hQ : Q = []
    · subst hQ
      rw [List.append_nil]
      exact remove_end x P hP
    · exact remove_between x P Q hP hQ

theorem remove_outside (h : Holds s l) {index : ℤ} (hout : ¬ (0 ≤ index ∧ index < l.length)) :
    Wp (remove index) s (fun _ _ => False) (fun _ s' => s' = s) := by
  unfold remove
  simp only [wp_bind, wp_get, wp_ite]
  by_cases hne : l = []
  · subst hne
    have hfirst := h.firstIndex_eq_iff.mpr rfl
    have hlast := h.lastIndex_eq_iff.mpr rfl
    refine ⟨fun _ => rfl, fun hin => ⟨fun _ => ?_, fun hpos => by omega⟩⟩
    simp [arrayGet, aget, hfirst]
  · obtain ⟨-, hspan, -⟩ := h.span hne
    exact ⟨fun _ => rfl, fun hin => absurd (by omega) hin⟩

theorem removeFirst_spec (h : Holds s l) :
    Wp removeFirst s (fun cell s' => Holds s' l.tail ∧ cell = l.head?.getD none)
      (fun _ _ => False) := by
  unfold removeFirst
  simp only [wp_bind, wp_get, wp_ite, isEmpty_eq h]
  refine ⟨fun hempty => ?_, fun hne => ?_⟩
  · rw [List.isEmpty_iff.mp hempty] at h ⊢
    exact ⟨h, rfl⟩
  · have hpos : 0 < l.length := List.length_pos_of_ne_nil fun hnil => hne (List.isEmpty_iff.mpr hnil)
    apply (remove_spec h ⟨le_refl _, by omega⟩).mono _ (fun _ _ hfalse => hfalse)
    rintro cell s' ⟨hs', rfl⟩
    refine ⟨?_, ?_⟩
    · rw [← List.eraseIdx_zero]
      exact hs'
    · rw [List.head?_eq_getElem?, ← List.getD_eq_getElem?_getD]
      rfl

theorem removeLast_spec (h : Holds s l) :
    Wp removeLast s (fun cell s' => Holds s' l.dropLast ∧ cell = l.getLast?.getD none)
      (fun _ _ => False) := by
  unfold removeLast
  simp only [wp_bind, wp_get, wp_ite, isEmpty_eq h]
  refine ⟨fun hempty => ?_, fun hne => ?_⟩
  · rw [List.isEmpty_iff.mp hempty] at h ⊢
    exact ⟨h, rfl⟩
  · have hne' : l ≠ [] := fun hnil => hne (List.isEmpty_iff.mpr hnil)
    have hpos := List.length_pos_of_ne_nil hne'
    obtain ⟨-, hspan, -⟩ := h.span hne'
    have hindex : s.lastIndex - s.firstIndex = (l.length - 1 : ℕ) := by omega
    rw [hindex]
    apply (remove_spec h ⟨Int.natCast_nonneg _, by omega⟩).mono _ (fun _ _ hfalse => hfalse)
    rintro cell s' ⟨hs', rfl⟩
    rw [Int.toNat_natCast] at hs' ⊢
    refine ⟨?_, ?_⟩
    · rwa [List.eraseIdx_length_sub_one] at hs'
    · rw [List.getLast?_eq_getElem?, ← List.getD_eq_getElem?_getD]

/-! ## Calls -/

section Respond

variable {α : Type} {method : Method (ArrayLinkedList T) α} {result : α → Result T}

theorem respond_holds {r : Result T}
    (h : Wp method s (fun a s' => Holds s' l ∧ result a = r) (fun _ _ => False)) :
    Holds (respond result method s).1 l ∧ (respond result method s).2 = r := by
  obtain ⟨a, s', hrun, hs', rfl⟩ := h.returns
  rw [respond, hrun]
  exact ⟨hs', rfl⟩

theorem respond_thrown (h : Wp method s (fun _ _ => False) (fun _ s' => s' = s)) :
    respond result method s = (s, .thrown) := by
  rw [Wp] at h
  rw [respond]
  cases hrun : method.run s with
  | ok a s' =>
    rw [hrun] at h
    exact h.elim
  | error e s' =>
    rw [hrun] at h
    rw [h]

end Respond

/-- A call that is not `get(0)` of an empty list. -/
def Met (l : List (Option T)) (c : Call T) : Prop := ¬ (l = [] ∧ c = .get 0)

/-- Any other call does and returns what it does to the list. -/
theorem call_met (h : Holds s l) {c : Call T} (hmet : Met l c) :
    Holds (call s c).1 (Deque.call l c).1 ∧ (call s c).2 = (Deque.call l c).2 := by
  have hfalse : ∀ (e : Exn) (s' : ArrayLinkedList T), False → False := fun _ _ hf => hf
  cases c with
  | addFirst cell => exact respond_holds ((addFirst_spec h).mono (fun _ _ hs' => ⟨hs', rfl⟩) hfalse)
  | addLast cell => exact respond_holds ((addLast_spec h).mono (fun _ _ hs' => ⟨hs', rfl⟩) hfalse)
  | removeFirst =>
    apply respond_holds ((removeFirst_spec h).mono _ hfalse)
    rintro cell s' ⟨hs', rfl⟩
    exact ⟨hs', rfl⟩
  | removeLast =>
    apply respond_holds ((removeLast_spec h).mono _ hfalse)
    rintro cell s' ⟨hs', rfl⟩
    exact ⟨hs', rfl⟩
  | remove index =>
    unfold call Deque.call
    dsimp only
    split
    · rename_i hin
      apply respond_holds ((remove_spec h hin).mono _ hfalse)
      rintro cell s' ⟨hs', rfl⟩
      exact ⟨hs', rfl⟩
    · rename_i hout
      rw [respond_thrown (remove_outside h hout)]
      exact ⟨h, rfl⟩
  | clear => exact respond_holds ((clear_spec h).mono (fun _ _ hs' => ⟨hs', rfl⟩) hfalse)
  | size => exact ⟨h, congrArg Result.number (size_eq h)⟩
  | isEmpty => exact ⟨h, congrArg Result.bool (isEmpty_eq h)⟩
  | getFirst =>
    apply respond_holds ((getFirst_spec h).mono _ hfalse)
    rintro cell s' ⟨rfl, rfl⟩
    exact ⟨h, rfl⟩
  | getLast =>
    apply respond_holds ((getLast_spec h).mono _ hfalse)
    rintro cell s' ⟨rfl, rfl⟩
    exact ⟨h, rfl⟩
  | get index =>
    have hindex : ¬ (l = [] ∧ index = 0) := fun hempty => hmet ⟨hempty.1, by rw [hempty.2]⟩
    apply respond_holds ((getAt_spec h hindex).mono _ hfalse)
    rintro cell s' ⟨rfl, rfl⟩
    exact ⟨h, rfl⟩
  | iterate =>
    apply respond_holds ((iterate_spec h).mono _ hfalse)
    rintro cells s' ⟨rfl, rfl⟩
    exact ⟨h, rfl⟩

/-- `get(0)` of an empty list throws. -/
theorem call_not_met (h : Holds s l) {c : Call T} (hmet : ¬ Met l c) :
    (call s c).2 ≠ (Deque.call l c).2 := by
  obtain ⟨rfl, rfl⟩ := not_not.mp hmet
  unfold call
  dsimp only
  rw [respond_thrown (getAt_empty h)]
  rintro ⟨⟩

/-- A call of the mathematical list, as a step. -/
def step (l : List (Option T)) (c : Call T) : Except Exn (List (Option T)) := .ok (Deque.call l c).1

theorem results_eq_iff_of_holds (calls : List (Call T)) (h : Holds s l) :
    results s calls = Deque.results l calls ↔ Along step Met l calls := by
  induction calls generalizing s l with
  | nil => exact iff_of_true rfl trivial
  | cons c calls ih =>
    rw [results, Deque.results, List.cons.injEq, along_cons_ok (show step l c = .ok _ from rfl)]
    by_cases hmet : Met l c
    · obtain ⟨hholds, hresult⟩ := call_met h hmet
      rw [ih hholds]
      exact and_congr_left' (iff_of_true hresult hmet)
    · exact iff_of_false (fun heq => call_not_met h hmet heq.1) fun hall => hmet hall.1

/-! ## The result -/

/-- **When the list is a deque.** A sequence of calls returns what it does on the
mathematical list, exactly if `get(0)` is not called while that is empty. -/
theorem results_eq_iff (T : Type) (calls : List (Call T)) :
    results new calls = Deque.results [] calls ↔ Along step Met [] calls :=
  results_eq_iff_of_holds calls holds_new

/-- A new list throws at `get(0)`. -/
theorem results_ne :
    ¬ ∀ calls : List (Call ℕ), results new calls = Deque.results [] calls := by
  intro h
  have hget := (results_eq_iff_of_holds [.get 0] holds_new).mp (h [.get 0])
  exact hget.1 ⟨rfl, rfl⟩

end ArrayLinkedList

end JavaFx.Control
