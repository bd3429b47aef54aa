/-
`java.util.PriorityQueue`, filled and then emptied.

The library promises no more than that the head is a least element, and only of a
comparator that keeps its contract on the elements. So a queue is a function that gives
the order of the removals: always the elements that were added, and sorted where the
comparator orders them.
-/
import JavaFx.Lib.StableSort
import Mathlib.Data.List.Sort

set_option autoImplicit false

namespace JavaFx.Lib

variable {T : Type} {compare : T → T → ℤ} {l : List T}

/-- The comparator keeps its contract on the elements of a list. -/
structure OrdersOn (compare : T → T → ℤ) (l : List T) : Prop where
  swap : ∀ a ∈ l, ∀ b ∈ l, compare a b ≤ 0 ↔ 0 ≤ compare b a
  trans : ∀ a ∈ l, ∀ b ∈ l, ∀ c ∈ l, compare a b ≤ 0 → compare b c ≤ 0 → compare a c ≤ 0

/-- The order in which the elements of a list leave a queue they were added to. -/
structure PriorityQueue (T : Type) where
  removals : (T → T → ℤ) → List T → List T
  perm : ∀ compare l, (removals compare l).Perm l
  sorted : ∀ compare l, OrdersOn compare l → SortedBy compare (removals compare l)

/-- A comparator that keeps its contract on a list keeps it on the elements of the list. -/
theorem OrdersOn.attach (h : OrdersOn compare l) :
    IsTotalPreorder (fun a b : {a // a ∈ l} => compare a.1 b.1) where
  swap a b := h.swap a.1 a.2 b.1 b.2
  trans a b c := h.trans a.1 a.2 b.1 b.2 c.1 c.2

/-- A queue kept in order by insertion. -/
def PriorityQueue.insertion (T : Type) : PriorityQueue T where
  removals compare l :=
    (l.attach.insertionSort (fun a b => compare a.1 b.1 ≤ 0)).map Subtype.val
  perm compare l := by
    have h := (List.perm_insertionSort
      (fun a b : {a // a ∈ l} => compare a.1 b.1 ≤ 0) l.attach).map Subtype.val
    rwa [List.attach_map_subtype_val] at h
  sorted compare l h := by
    have hord := h.attach
    have : Std.Total (fun a b : {a // a ∈ l} => compare a.1 b.1 ≤ 0) := ⟨hord.total⟩
    have : IsTrans {a // a ∈ l} (fun a b => compare a.1 b.1 ≤ 0) := ⟨hord.trans⟩
    rw [SortedBy, List.pairwise_map]
    exact List.pairwise_insertionSort _ _

end JavaFx.Lib
