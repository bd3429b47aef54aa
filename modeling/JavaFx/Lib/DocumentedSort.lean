/-
`java.util.Collections.sort`, as it is documented.

The sort is stable, and what it does with a comparator that breaks its contract on the
elements of the list is not said; `TimSort` may throw then. So a sort is a function for
which `SortsStably` holds. `checkedSort` is one that always throws.

Stability is told by pairs: what stands before something it is not greater than stays
before it.
-/
import JavaFx.Lib.Java
import JavaFx.Lib.PriorityQueue

set_option autoImplicit false

namespace JavaFx.Lib

variable {T : Type} {compare : T → T → ℤ} {l : List T} {a b : T}

/-! ## Pairs of a list -/

theorem pair_sublist_or (ha : a ∈ l) (hb : b ∈ l) (hne : a ≠ b) :
    [a, b].Sublist l ∨ [b, a].Sublist l := by
  induction l with
  | nil => cases ha
  | cons x l ih =>
    rcases List.mem_cons.mp ha with rfl | ha'
    · have hb' := (List.mem_cons.mp hb).resolve_left hne.symm
      exact Or.inl ((List.singleton_sublist.mpr hb').cons_cons a)
    rcases List.mem_cons.mp hb with rfl | hb'
    · exact Or.inr ((List.singleton_sublist.mpr ha').cons_cons b)
    · exact (ih ha' hb').imp (List.Sublist.cons x) (List.Sublist.cons x)

theorem not_pair_sublist (hl : l.Nodup) (h : [a, b].Sublist l) : ¬ [b, a].Sublist l := by
  induction l with
  | nil => exact nofun
  | cons x l ih =>
    intro h'
    obtain ⟨hx, hl⟩ := List.nodup_cons.mp hl
    -- of two different elements one is not the first
    cases h with
    | cons _ h =>
      cases h' with
      | cons _ h' => exact ih hl h h'
      | cons_cons _ h' => exact hx (h.subset (List.mem_cons_of_mem a List.mem_cons_self))
    | cons_cons _ h =>
      cases h' with
      | cons _ h' => exact hx (h'.subset (List.mem_cons_of_mem b List.mem_cons_self))
      | cons_cons _ h' => exact hx (h.subset List.mem_cons_self)

/-! ## Sorting -/

/-- The documented behaviour of `Collections.sort`. -/
def SortsStably (sort : (T → T → ℤ) → List T → Except Exn (List T)) : Prop :=
  ∀ compare l, OrdersOn compare l → ∃ r, sort compare l = .ok r ∧ r.Perm l ∧ SortedBy compare r
    ∧ ∀ a b, compare a b ≤ 0 → [a, b].Sublist l → [a, b].Sublist r

theorem ordersOn_iff : OrdersOn compare l
    ↔ (∀ a ∈ l, ∀ b ∈ l, compare a b ≤ 0 ↔ 0 ≤ compare b a)
      ∧ ∀ a ∈ l, ∀ b ∈ l, ∀ c ∈ l, compare a b ≤ 0 → compare b c ≤ 0 → compare a c ≤ 0 :=
  ⟨fun h => ⟨h.swap, h.trans⟩, fun h => ⟨h.1, h.2⟩⟩

instance : Decidable (OrdersOn compare l) := decidable_of_iff' _ ordersOn_iff

/-- A merge sort that throws if the comparator breaks its contract. -/
def checkedSort (compare : T → T → ℤ) (l : List T) : Except Exn (List T) :=
  if OrdersOn compare l then
    .ok ((l.attach.mergeSort (fun a b => decide (compare a.1 b.1 ≤ 0))).map Subtype.val)
  else .error .illegalArgument

theorem checkedSort_perm (compare : T → T → ℤ) (l r : List T)
    (h : checkedSort compare l = .ok r) : r.Perm l := by
  rw [checkedSort] at h
  split_ifs at h
  cases h
  have hperm := (List.mergeSort_perm l.attach (fun a b => decide (compare a.1 b.1 ≤ 0))).map
    Subtype.val
  rwa [List.attach_map_subtype_val] at hperm

theorem sortsStably_checkedSort : SortsStably (checkedSort (T := T)) := by
  intro compare l hl
  have hord := hl.attach
  have htrans : ∀ a b c : {a // a ∈ l}, decide (compare a.1 b.1 ≤ 0) = true →
      decide (compare b.1 c.1 ≤ 0) = true → decide (compare a.1 c.1 ≤ 0) = true := by
    intro a b c hab hbc
    rw [decide_eq_true_iff] at hab hbc ⊢
    exact hord.trans a b c hab hbc
  have htotal : ∀ a b : {a // a ∈ l},
      (decide (compare a.1 b.1 ≤ 0) || decide (compare b.1 a.1 ≤ 0)) = true := by
    intro a b
    rw [Bool.or_eq_true, decide_eq_true_iff, decide_eq_true_iff]
    exact hord.total a b
  have hsort : checkedSort compare l = .ok _ := if_pos hl
  refine ⟨_, hsort, checkedSort_perm compare l _ hsort, ?_, fun a b hab hsub => ?_⟩
  · rw [SortedBy, List.pairwise_map]
    exact (List.pairwise_mergeSort htrans htotal l.attach).imp (fun h => of_decide_eq_true h)
  · rw [← List.attach_map_subtype_val l, List.sublist_map_iff] at hsub
    obtain ⟨pair, hpair, heq⟩ := hsub
    match pair, heq with
    | [x, y], heq =>
      cases heq
      exact (List.pair_sublist_mergeSort htrans htotal (decide_eq_true hab) hpair).map
        Subtype.val

end JavaFx.Lib
