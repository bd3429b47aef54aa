/-
`ListChangeListener.Change` as a listener reads it.

A change is a sequence of sub-changes in the documented order: a permutation of
a range, then add/remove sub-changes sorted by position, then updated ranges.
`Composite` is a change in these three parts, `subChanges` what `next()` walks
through, and `WellFormed old final` says that the change is one from the list
`old` to the list `final`: the permutation is of `old`, and between the permuted
list and `final` stand the same kept elements, `Edits` telling what stands
between those.

`Edits` is to a listener what `Tracks` is to the builder.
-/
import JavaFx.Collections.ListChangeTracks
import JavaFx.Lib.Permute

set_option autoImplicit false

namespace JavaFx.ListChange

open JavaFx.Lib

/-- One sub-change: what the methods of `Change` answer after `next()`. -/
structure SubChange (E : Type) where
  fromIdx : ℕ
  toIdx : ℕ
  removed : List E
  permutation : List ℕ
  updated : Bool
  deriving DecidableEq, Repr

variable {E : Type}

namespace SubChange

def wasPermutated (c : SubChange E) : Bool := c.permutation.length ≠ 0

def wasUpdated (c : SubChange E) : Bool := c.updated

def wasAdded (c : SubChange E) : Bool := !c.wasPermutated && !c.wasUpdated && c.fromIdx < c.toIdx

def wasRemoved (c : SubChange E) : Bool := !c.removed.isEmpty

def wasReplaced (c : SubChange E) : Bool := c.wasAdded && c.wasRemoved

def removedSize (c : SubChange E) : ℕ := c.removed.length

def addedSize (c : SubChange E) : ℕ := if c.wasAdded then c.toIdx - c.fromIdx else 0

/-- `getAddedSubList`, read from the list the change is fired for. -/
def addedSubList (c : SubChange E) (list : List E) : List E :=
  if c.wasAdded then (list.take c.toIdx).drop c.fromIdx else []

/-- An add/remove sub-change. -/
def addRemove (fromIdx toIdx : ℕ) (removed : List E) : SubChange E :=
  ⟨fromIdx, toIdx, removed, [], false⟩

/-- A permutation of `[i, i + perm.length)`. -/
def permuted (i : ℕ) (perm : List ℕ) : SubChange E := ⟨i, i + perm.length, [], perm, false⟩

/-- An updated range. -/
def update (fromIdx toIdx : ℕ) : SubChange E := ⟨fromIdx, toIdx, [], [], true⟩

section Reading

variable {a b i : ℕ} {R l : List E} {perm : List ℕ}

@[simp] theorem addRemove_fromIdx : (addRemove a b R).fromIdx = a := rfl
@[simp] theorem addRemove_toIdx : (addRemove a b R).toIdx = b := rfl
@[simp] theorem addRemove_removed : (addRemove a b R).removed = R := rfl
@[simp] theorem addRemove_wasPermutated : (addRemove a b R).wasPermutated = false := rfl
@[simp] theorem addRemove_wasUpdated : (addRemove a b R).wasUpdated = false := rfl

@[simp] theorem addRemove_wasAdded : (addRemove a b R).wasAdded = decide (a < b) := rfl

@[simp] theorem addRemove_wasRemoved : (addRemove a b R).wasRemoved = !R.isEmpty := rfl

@[simp] theorem addRemove_removedSize : (addRemove a b R).removedSize = R.length := rfl

@[simp] theorem permuted_fromIdx : (permuted i perm : SubChange E).fromIdx = i := rfl
@[simp] theorem permuted_toIdx : (permuted i perm : SubChange E).toIdx = i + perm.length := rfl

@[simp] theorem permuted_wasPermutated :
    (permuted i perm : SubChange E).wasPermutated = decide (perm ≠ []) := by
  simp [wasPermutated, permuted]

@[simp] theorem permuted_permutation : (permuted i perm : SubChange E).permutation = perm := rfl

@[simp] theorem update_wasPermutated : (update a b : SubChange E).wasPermutated = false := rfl
@[simp] theorem update_wasUpdated : (update a b : SubChange E).wasUpdated = true := rfl
@[simp] theorem update_wasAdded : (update a b : SubChange E).wasAdded = false := rfl
@[simp] theorem update_wasRemoved : (update a b : SubChange E).wasRemoved = false := rfl
@[simp] theorem update_fromIdx : (update a b : SubChange E).fromIdx = a := rfl
@[simp] theorem update_toIdx : (update a b : SubChange E).toIdx = b := rfl

end Reading

end SubChange

/-! ## Well-formed changes -/

/-- `old` became `new` by the add/remove sub-changes `cs`: the same elements are
kept, and at each sub-change its removed elements gave way to those `new` has in
its range. Positions in `new` count from `off`. -/
inductive Edits : ℕ → List E → List E → List (SubChange E) → Prop
  | nil (off : ℕ) (K : List E) : Edits off K K []
  | cons {off : ℕ} (K R A : List E) {old new : List E} {cs : List (SubChange E)}
      (tail : Edits (off + K.length + A.length) old new cs) :
      Edits off (K ++ (R ++ old)) (K ++ (A ++ new))
        (SubChange.addRemove (off + K.length) (off + K.length + A.length) R :: cs)

/-- A change in its three documented parts. -/
structure Composite (E : Type) where
  /-- The start of the permuted range and its permutation. -/
  permutation : Option (ℕ × List ℕ)
  addRemoves : List (SubChange E)
  updates : List (ℕ × ℕ)

namespace Composite

/-- The sub-changes in the order in which `next()` reaches them. -/
def subChanges (c : Composite E) : List (SubChange E) :=
  c.permutation.toList.map (fun p => SubChange.permuted p.1 p.2)
    ++ (c.addRemoves ++ c.updates.map (fun u => SubChange.update u.1 u.2))

/-- The list after the permutation. -/
def permuted (c : Composite E) (old : List E) : List E :=
  match c.permutation with
  | some (i, perm) => permuteRange i perm old
  | none => old

/-- The change leads from `old` to `final`. -/
structure WellFormed (old final : List E) (c : Composite E) : Prop where
  permutes : ∀ p ∈ c.permutation, p.2 ≠ [] ∧ PermutesRange p.1 p.2 old.length
  edits : Edits 0 (c.permuted old) final c.addRemoves
  updates : ∀ u ∈ c.updates, u.1 ≤ u.2 ∧ u.2 ≤ final.length

theorem WellFormed.length_permuted {old final : List E} {c : Composite E}
    (h : c.WellFormed old final) : (c.permuted old).length = old.length := by
  unfold permuted
  cases hp : c.permutation with
  | none => rfl
  | some p => exact length_permuteRange (h.permutes p (by simp [hp])).2

/-- What a listener collects from `getRemoved()` of all sub-changes. -/
def removed (c : Composite E) : List E := c.subChanges.flatMap SubChange.removed

/-- What a listener collects from `getAddedSubList()` of all sub-changes. -/
def added (c : Composite E) (final : List E) : List E :=
  c.subChanges.flatMap (·.addedSubList final)

theorem removed_eq (c : Composite E) : c.removed = c.addRemoves.flatMap SubChange.removed := by
  have hperm : c.permutation.toList.flatMap
      (fun p => (SubChange.permuted p.1 p.2 : SubChange E).removed) = [] :=
    List.flatMap_eq_nil_iff.mpr fun _ _ => rfl
  have hupd : c.updates.flatMap (fun u => (SubChange.update u.1 u.2 : SubChange E).removed) = [] :=
    List.flatMap_eq_nil_iff.mpr fun _ _ => rfl
  simp only [removed, subChanges, List.flatMap_append, List.flatMap_map, hperm, hupd,
    List.nil_append, List.append_nil]

theorem added_eq {old final : List E} {c : Composite E} (h : c.WellFormed old final) :
    c.added final = c.addRemoves.flatMap (·.addedSubList final) := by
  have hperm : c.permutation.toList.flatMap
      (fun p => (SubChange.permuted p.1 p.2).addedSubList final) = [] := by
    refine List.flatMap_eq_nil_iff.mpr fun p hp => ?_
    have hne := (h.permutes p (Option.mem_toList.mp hp)).1
    simp [SubChange.addedSubList, SubChange.wasAdded, hne]
  have hupd : c.updates.flatMap
      (fun u => (SubChange.update u.1 u.2).addedSubList final) = [] :=
    List.flatMap_eq_nil_iff.mpr fun _ _ => rfl
  simp only [added, subChanges, List.flatMap_append, List.flatMap_map, hperm, hupd,
    List.nil_append, List.append_nil]

end Composite

theorem SubChange.addedSubList_addRemove (L A R S : List E) :
    (addRemove L.length (L.length + A.length) R).addedSubList (L ++ (A ++ S)) = A := by
  unfold addedSubList
  cases A with
  | nil => simp
  | cons a A =>
    rw [if_pos (by simp), addRemove_toIdx, addRemove_fromIdx, ← List.append_assoc,
      ← List.length_append, List.take_left, List.drop_left]

/-- What came and what went make up the difference between the lists, and what came is
in the new list. -/
theorem Edits.perm {off : ℕ} {old new : List E} {cs : List (SubChange E)}
    (h : Edits off old new cs) (L : List E) (hoff : off = L.length) :
    (new ++ cs.flatMap SubChange.removed).Perm (old ++ cs.flatMap (·.addedSubList (L ++ new))) ∧
      cs.flatMap (·.addedSubList (L ++ new)) ⊆ new := by
  induction h generalizing L with
  | nil off K => simp
  | @cons off K R A old new cs tail ih =>
    have hlist : L ++ (K ++ (A ++ new)) = (L ++ K ++ A) ++ new := by simp
    have hadded := SubChange.addedSubList_addRemove (L ++ K) A R new
    obtain ⟨hperm, hsub⟩ := ih (L ++ K ++ A) (by simp [hoff]; omega)
    rw [← hlist] at hperm hsub
    rw [List.append_assoc, List.length_append, ← hoff] at hadded
    simp only [List.flatMap_cons, hadded, SubChange.addRemove_removed]
    constructor
    · -- both sides are `K`, `A`, `R` and what the tail makes equal
      have hleft : (K ++ (A ++ new) ++ (R ++ cs.flatMap SubChange.removed)).Perm
          (K ++ (A ++ (R ++ (new ++ cs.flatMap SubChange.removed)))) := by
        simp only [List.append_assoc]
        refine ((List.perm_append_comm_assoc new R _).append_left A).append_left K
      have hright : (K ++ (R ++ old) ++ (A ++ cs.flatMap (·.addedSubList (L ++ (K ++ (A ++ new)))))).Perm
          (K ++ (A ++ (R ++ (old ++ cs.flatMap (·.addedSubList (L ++ (K ++ (A ++ new)))))))) := by
        simp only [List.append_assoc]
        refine List.Perm.append_left K ?_
        refine ((List.perm_append_comm_assoc old A _).append_left R).trans ?_
        exact List.perm_append_comm_assoc R A _
      exact hleft.trans ((((hperm.append_left R).append_left A).append_left K).trans hright.symm)
    · intro x hx
      rcases List.mem_append.mp hx with hA | hrest
      · exact List.mem_append_right K (List.mem_append_left new hA)
      · exact List.mem_append_right K (List.mem_append_right A (hsub hrest))

namespace Composite

variable {old final : List E} {c : Composite E}

theorem WellFormed.perm (h : c.WellFormed old final) :
    (final ++ c.removed).Perm (old ++ c.added final) := by
  have hpermuted : (c.permuted old).Perm old := by
    unfold permuted
    cases hp : c.permutation with
    | none => exact List.Perm.refl _
    | some p => exact permuteRange_perm (h.permutes p (by simp [hp])).2
  rw [removed_eq, added_eq h]
  exact (h.edits.perm [] rfl).1.trans (hpermuted.append_right _)

theorem WellFormed.added_subset (h : c.WellFormed old final) : c.added final ⊆ final := by
  rw [added_eq h]
  exact (h.edits.perm [] rfl).2

theorem WellFormed.mem_of_not_removed (h : c.WellFormed old final) {x : E} (hx : x ∈ old)
    (hremoved : x ∉ c.removed) : x ∈ final :=
  (List.mem_append.mp (h.perm.mem_iff.mpr (List.mem_append_left _ hx))).resolve_right hremoved

theorem WellFormed.mem_or_added (h : c.WellFormed old final) {x : E} (hx : x ∈ final) :
    x ∈ old ∨ x ∈ c.added final :=
  List.mem_append.mp (h.perm.mem_iff.mp (List.mem_append_left _ hx))

end Composite

/-! ## The builder's sub-changes -/

/-- A finished sub-change of a builder, as `Change` shows it. -/
def SubChange.ofBuilder (c : ListChangeBuilder.SubChange E) : SubChange E :=
  ⟨c.fromIdx.toNat, c.toIdx.toNat, c.removed.getD [], c.perm, c.updated⟩

end JavaFx.ListChange
