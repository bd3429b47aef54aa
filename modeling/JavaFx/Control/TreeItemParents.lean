/-
The parents of `TreeItem`s over a run.

`parentLinkCount` goes up when an item is added to its parent once more. It was meant
to come down again when one of the two is removed, but a removal passes `null` for the
new parent and the test `currentParent.equals(newParent)` never holds: an item with a
positive count keeps its parent for good. An item with count zero loses its parent
with the first of its occurrences that goes.

`Linked` is what the links say in every state of a run that has no such removal: the
parent of an item holds it in its list, and an item without a parent is in no list.
With it, an item that occurs once has the right parent.
-/
import JavaFx.Control.TreeItem

set_option autoImplicit false

namespace JavaFx.Control

open JavaFx.Lib JavaFx.ListChange

namespace TreeItems

variable {ι : Type} [DecidableEq ι] {s : TreeItems ι} {x y p : ι} {items : List (Option ι)}

/-! ## What the methods leave alone -/

theorem itemListener_field {α : Type} (g : TreeItem ι → α)
    (hg : ∀ item, g { item with expandedDescendentCountDirty := true } = g item)
    (s : TreeItems ι) (x y : ι) : g (s.itemListener x y) = g (s y) :=
  modify_field g hg s x y

theorem fireEvent_field [Fintype ι] {α : Type} (g : TreeItem ι → α)
    (hg : ∀ item, g { item with expandedDescendentCountDirty := true } = g item)
    (s : TreeItems ι) (x y : ι) : g (s.fireEvent x y) = g (s y) := by
  unfold fireEvent
  cases s.buildEventDispatchChain (Fintype.card ι) x with
  | none => rfl
  | some chain =>
    induction chain with
    | nil => rfl
    | cons z chain ih =>
      rw [← ih]
      exact itemListener_field g hg _ z y

theorem setLeaf_field {α : Type} (g : TreeItem ι → α)
    (hg : ∀ item leaf, g { item with leaf := leaf } = g item)
    (s : TreeItems ι) (x : ι) (value : Bool) (y : ι) : g (s.setLeaf x value y) = g (s y) := by
  unfold setLeaf
  split_ifs
  · rfl
  · exact modify_field g (fun item => hg item _) s x y

theorem updateParent_field {α : Type} (g : TreeItem ι → α)
    (hg : ∀ item parent count, g { item with parent := parent, parentLinkCount := count } = g item)
    (newParent : Option ι) (s : TreeItems ι) (o : Option ι) (y : ι) :
    g (s.updateParent newParent o y) = g (s y) := by
  cases o with
  | none => rfl
  | some x =>
    have hset : ∀ y, g ((if (s x).parentLinkCount = 0 then s.setParent x newParent else s) y) =
        g (s y) := by
      intro y
      split_ifs
      · exact modify_field g (fun item => hg item newParent item.parentLinkCount) s x y
      · rfl
    simp only [updateParent]
    generalize (if (s x).parentLinkCount = 0 then s.setParent x newParent else s) = s' at hset ⊢
    rw [← hset y]
    split_ifs
    · exact modify_field g (fun item => hg item item.parent _) s' x y
    · exact modify_field g (fun item => hg item item.parent _) s' x y
    · rfl

theorem updateChildrenParent_field {α : Type} (g : TreeItem ι → α)
    (hg : ∀ item parent count, g { item with parent := parent, parentLinkCount := count } = g item)
    (s : TreeItems ι) (items : List (Option ι)) (newParent : Option ι) (y : ι) :
    g (s.updateChildrenParent items newParent y) = g (s y) := by
  unfold updateChildrenParent
  induction items generalizing s with
  | nil => rfl
  | cons o items ih => rw [List.foldl_cons, ih, updateParent_field g hg]

@[simp] theorem changeChildren_children [Fintype ι] (s : TreeItems ι) (x : ι)
    (final : List (Option ι)) (c : Composite (Option ι)) (y : ι) :
    (s.changeChildren x final c y).children = if y = x then final else (s y).children := by
  unfold changeChildren childrenListener updateChildren
  rw [fireEvent_field TreeItem.children (fun _ => rfl),
    updateChildrenParent_field TreeItem.children (fun _ _ _ => rfl),
    updateChildrenParent_field TreeItem.children (fun _ _ _ => rfl),
    setLeaf_field TreeItem.children (fun _ _ => rfl),
    itemListener_field TreeItem.children (fun _ => rfl)]
  split_ifs with h
  · rw [h, modify_self]
  · rw [modify_of_ne s _ h]

/-! ## What `updateChildrenParent` does to one item -/

theorem updateParent_parent (newParent : Option ι) (s : TreeItems ι) (o : Option ι) (y : ι) :
    (s.updateParent newParent o y).parent =
      if o = some y ∧ (s y).parentLinkCount = 0 then newParent else (s y).parent := by
  cases o with
  | none => simp [updateParent]
  | some x =>
    have hcount := fun (s : TreeItems ι) (count : TreeItem ι → ℤ) =>
      modify_field TreeItem.parent
        (f := fun item => { item with parentLinkCount := count item }) (fun _ => rfl) s x y
    have hset : (s.updateParent newParent (some x) y).parent =
        ((if (s x).parentLinkCount = 0 then s.setParent x newParent else s) y).parent := by
      simp only [updateParent]
      generalize (if (s x).parentLinkCount = 0 then s.setParent x newParent else s) = s'
      split_ifs
      · exact hcount s' _
      · exact hcount s' _
      · rfl
    rw [hset]
    by_cases hxy : x = y
    · subst hxy
      simp only [true_and]
      split_ifs
      · rw [setParent, modify_self]
      · rfl
    · rw [if_neg (c := some x = some y ∧ (s y).parentLinkCount = 0)
        (fun h => hxy (Option.some_inj.mp h.1))]
      split_ifs
      · rw [setParent, modify_of_ne s _ (Ne.symm hxy)]
      · rfl

/-- The counter of an item goes up when the item has the new parent already, and never
comes down. -/
theorem updateParent_parentLinkCount (newParent : Option ι) (s : TreeItems ι) (o : Option ι)
    (y : ι) :
    (s.updateParent newParent o y).parentLinkCount = (s y).parentLinkCount ∨
      newParent ≠ none ∧ (s y).parent = newParent := by
  cases o with
  | none => exact .inl rfl
  | some x =>
    have hset : ((if (s x).parentLinkCount = 0 then s.setParent x newParent else s) y).parentLinkCount
        = (s y).parentLinkCount := by
      split_ifs
      · exact modify_field TreeItem.parentLinkCount
          (f := fun item => { item with parent := newParent }) (fun _ => rfl) s x y
      · rfl
    simp only [updateParent]
    generalize (if (s x).parentLinkCount = 0 then s.setParent x newParent else s) = s' at hset ⊢
    by_cases hmatch : (s x).parent ≠ none ∧ (s x).parent = newParent
    · rw [if_pos hmatch, if_neg (hmatch.2 ▸ hmatch.1)]
      by_cases hxy : y = x
      · exact .inr (hxy ▸ ⟨hmatch.2 ▸ hmatch.1, hmatch.2⟩)
      · rw [modify_of_ne s' _ hxy]
        exact .inl hset
    · rw [if_neg hmatch]
      exact .inl hset

/-- Removed items: the branch that decrements the counter is never taken. -/
theorem updateChildrenParent_none (s : TreeItems ι) (items : List (Option ι)) (y : ι) :
    (s.updateChildrenParent items none y).parent =
        (if some y ∈ items ∧ (s y).parentLinkCount = 0 then none else (s y).parent) ∧
      (s.updateChildrenParent items none y).parentLinkCount = (s y).parentLinkCount := by
  unfold updateChildrenParent
  induction items generalizing s with
  | nil => simp
  | cons o items ih =>
    have hcount : (s.updateParent none o y).parentLinkCount = (s y).parentLinkCount :=
      (updateParent_parentLinkCount none s o y).resolve_right fun h => h.1 rfl
    rw [List.foldl_cons, (ih _).1, (ih _).2, updateParent_parent, hcount]
    refine ⟨?_, rfl⟩
    simp only [List.mem_cons]
    by_cases hzero : (s y).parentLinkCount = 0
    · by_cases ho : o = some y
      · simp [hzero, ho]
      · simp [hzero, ho, Ne.symm ho]
    · simp [hzero]

/-- Added items. -/
theorem updateChildrenParent_some (s : TreeItems ι) (items : List (Option ι)) (p y : ι) :
    (s.updateChildrenParent items (some p) y).parent =
        (if some y ∈ items ∧ (s y).parentLinkCount = 0 then some p else (s y).parent) ∧
      ((s.updateChildrenParent items (some p) y).parentLinkCount = (s y).parentLinkCount ∨
        (s.updateChildrenParent items (some p) y).parent = some p) := by
  unfold updateChildrenParent
  induction items generalizing s with
  | nil => simp
  | cons o items ih =>
    obtain ⟨ihparent, ihcount⟩ := ih (s.updateParent (some p) o)
    rw [List.foldl_cons]
    rcases updateParent_parentLinkCount (some p) s o y with hcount | ⟨-, hparent⟩
    · rw [hcount, updateParent_parent] at ihparent
      rw [hcount] at ihcount
      refine ⟨?_, ihcount⟩
      simp only [ihparent, List.mem_cons]
      by_cases hzero : (s y).parentLinkCount = 0
      · by_cases ho : o = some y
        · simp [hzero, ho]
        · simp [hzero, ho, Ne.symm ho]
      · simp [hzero]
    · -- the item has the new parent before, and so at the end
      have hend : ((items.foldl (updateParent (some p)) (s.updateParent (some p) o)) y).parent =
          some p := by
        rw [ihparent, updateParent_parent, hparent]
        split_ifs <;> rfl
      refine ⟨?_, .inr hend⟩
      rw [hend, hparent]
      split_ifs <;> rfl

/-- **A change of a list.** The parent that each item has afterwards. -/
theorem changeChildren_parent [Fintype ι] (s : TreeItems ι) (x : ι) (final : List (Option ι))
    (c : Composite (Option ι)) (y : ι) :
    (s.changeChildren x final c y).parent =
        (if (s y).parentLinkCount = 0 then
          if some y ∈ c.added final then some x
          else if some y ∈ c.removed then none else (s y).parent
        else (s y).parent) ∧
      ((s.changeChildren x final c y).parentLinkCount = (s y).parentLinkCount ∨
        (s.changeChildren x final c y).parent = some x) := by
  unfold changeChildren childrenListener updateChildren
  generalize hs' : ((s.modify x fun item => { item with children := final }).itemListener x).setLeaf x
    ((((s.modify x fun item => { item with children := final }).itemListener x) x).children.isEmpty) = s'
  have hchildren : (s' x).children = final := by
    rw [← hs', setLeaf_field TreeItem.children (fun _ _ => rfl),
      itemListener_field TreeItem.children (fun _ => rfl), modify_self]
  have hparent : (s' y).parent = (s y).parent := by
    rw [← hs', setLeaf_field TreeItem.parent (fun _ _ => rfl),
      itemListener_field TreeItem.parent (fun _ => rfl)]
    exact modify_field TreeItem.parent (f := fun item => { item with children := final })
      (fun _ => rfl) s x y
  have hcount : (s' y).parentLinkCount = (s y).parentLinkCount := by
    rw [← hs', setLeaf_field TreeItem.parentLinkCount (fun _ _ => rfl),
      itemListener_field TreeItem.parentLinkCount (fun _ => rfl)]
    exact modify_field TreeItem.parentLinkCount (f := fun item => { item with children := final })
      (fun _ => rfl) s x y
  obtain ⟨hrp, hrc⟩ := updateChildrenParent_none s' c.removed y
  obtain ⟨hap, hac⟩ := updateChildrenParent_some (s'.updateChildrenParent c.removed none)
    (c.added final) x y
  rw [hrc, hcount] at hac
  rw [hrc, hrp, hparent, hcount] at hap
  simp only [hchildren, fireEvent_field TreeItem.parent (fun _ => rfl),
    fireEvent_field TreeItem.parentLinkCount (fun _ => rfl)]
  refine ⟨?_, hac⟩
  rw [hap]
  by_cases hzero : (s y).parentLinkCount = 0
  · simp [hzero]
  · simp [hzero]

/-! ## The other calls keep the links -/

theorem isExpanded_field {α : Type} (g : TreeItem ι → α)
    (hg : ∀ item expanded, g { item with expanded := expanded } = g item)
    (s : TreeItems ι) (x y : ι) : g ((s.isExpanded x).2 y) = g (s y) := by
  unfold isExpanded
  cases (s x).expanded with
  | none => rfl
  | some property => exact modify_field g (fun item => hg item _) s x y

theorem setExpanded_field [Fintype ι] {α : Type} (g : TreeItem ι → α)
    (hexpanded : ∀ item expanded, g { item with expanded := expanded } = g item)
    (hdirty : ∀ item, g { item with expandedDescendentCountDirty := true } = g item)
    (s : TreeItems ι) (x : ι) (value : Bool) (y : ι) : g (s.setExpanded x value y) = g (s y) := by
  have hassign := fun expanded => modify_field g (f := fun item => { item with expanded := expanded })
    (fun item => hexpanded item _) s x y
  unfold setExpanded
  dsimp only
  split_ifs
  · rfl
  · exact hassign _
  · unfold invalidated
    split_ifs
    · exact hassign _
    · rw [fireEvent_field g hdirty, isExpanded_field g hexpanded]
      exact hassign _
  · exact hassign _

section Read

variable {α : Type} {g : TreeItem ι → α}
  (hg : ∀ item expanded count previous dirty, g { item with
    expanded := expanded, expandedDescendentCount := count
    previousExpandedDescendentCount := previous, expandedDescendentCountDirty := dirty } = g item)

include hg

theorem updateExpandedDescendentCount_field
    {count : TreeItems ι → ι → Except TreeError (ℕ × TreeItems ι)}
    (hcount : ∀ s x n s', count s x = .ok (n, s') → ∀ y, g (s' y) = g (s y))
    {s s' : TreeItems ι} (h : s.updateExpandedDescendentCount count x = .ok s') (y : ι) :
    g (s' y) = g (s y) := by
  have hexpanded : ∀ (item : TreeItem ι) expanded, g { item with expanded := expanded } = g item :=
    fun item expanded => hg item expanded _ _ _
  have hn : ∀ (s : TreeItems ι) (n : ℕ) (y : ι),
      g (s.modify x (fun item => { item with expandedDescendentCount := n }) y) = g (s y) :=
    fun s n y => modify_field g (fun item => hg item item.expanded n _ _) s x y
  unfold updateExpandedDescendentCount at h
  have hstart := modify_field g (f := fun item => { item with
    previousExpandedDescendentCount := item.expandedDescendentCount, expandedDescendentCount := 1 })
    (fun item => hg item item.expanded 1 item.expandedDescendentCount _) s x
  generalize s.modify x _ = s₁ at h hstart
  dsimp only at h
  rw [← hstart y]
  clear hstart
  split_ifs at h with hleaf hopen
  · cases h
    rfl
  · rw [← isExpanded_field g hexpanded s₁ x y]
    generalize (s₁.isExpanded x).2 = s₂ at h ⊢
    generalize (s₂ x).children = children at h
    -- the loop over the children
    induction children generalizing s₂ with
    | nil =>
      cases h
      rfl
    | cons o children ih =>
      rw [List.foldlM_cons, bind_eq_ok] at h
      obtain ⟨s₃, hbody, hrest⟩ := h
      rw [ih s₃ hrest]
      cases o with
      | none =>
        cases hbody
        rfl
      | some child =>
        rw [← isExpanded_field g hexpanded s₂ child y]
        simp only [addChildCount, bind_eq_ok] at hbody
        obtain ⟨⟨n, s₄⟩, hchild, hbody⟩ := hbody
        cases hbody
        rw [hn]
        split_ifs at hchild
        · exact hcount _ _ _ _ hchild y
        · cases hchild
          rfl
  · cases h
    exact isExpanded_field g hexpanded s₁ x y

/-- A read changes the counts, the marks and the validity of properties. -/
theorem getExpandedDescendentCount_field (reset : Bool) (fuel : ℕ) (s : TreeItems ι) (x : ι)
    (n : ℕ) (s' : TreeItems ι) (h : getExpandedDescendentCount reset fuel s x = .ok (n, s'))
    (y : ι) : g (s' y) = g (s y) := by
  induction fuel generalizing s x n s' y with
  | zero => cases h
  | succ fuel ih =>
    unfold getExpandedDescendentCount at h
    split_ifs at h
    · simp only [bind_eq_ok] at h
      obtain ⟨s₁, hupdate, h⟩ := h
      cases h
      rw [modify_field g (fun item => hg item item.expanded item.expandedDescendentCount _ false)]
      exact updateExpandedDescendentCount_field hg (fun s x n s' h y => ih s x n s' h y) hupdate y
    · cases h
      rfl

end Read

/-! ## The links of a state -/

/-- An item occurs at most once in all lists of children together. -/
def OccursOnce [Fintype ι] (s : TreeItems ι) : Prop :=
  ∀ x, ∑ p, (s p).children.count (some x) ≤ 1

instance [Fintype ι] (s : TreeItems ι) : Decidable s.OccursOnce :=
  inferInstanceAs (Decidable (∀ x, ∑ p, (s p).children.count (some x) ≤ 1))

/-- The parent of an item is the item whose list contains it, or `null`. -/
def ParentsRight (s : TreeItems ι) : Prop :=
  ∀ x, (∀ p, some x ∈ (s p).children → (s x).parent = some p) ∧
    ((∀ p, some x ∉ (s p).children) → (s x).parent = none)

/-- What holds of the links while items occur several times. -/
structure Linked (s : TreeItems ι) : Prop where
  linked : ∀ x p, (s x).parent = some p → some x ∈ (s p).children
  unlinked : ∀ x, (s x).parent = none → ∀ p, some x ∉ (s p).children
  counted : ∀ x, (s x).parent = none → (s x).parentLinkCount = 0

theorem Linked.parentsRight [Fintype ι] (h : s.Linked) (honce : s.OccursOnce) :
    s.ParentsRight := by
  refine fun x => ⟨fun p hp => ?_, fun hnone => ?_⟩
  · cases hparent : (s x).parent with
    | none => exact absurd hp (h.unlinked x hparent p)
    | some q =>
      have hq := h.linked x q hparent
      by_contra hne
      have hpq : q ≠ p := fun heq => hne (by rw [heq])
      have htwo : 2 ≤ ∑ r ∈ {q, p}, (s r).children.count (some x) := by
        rw [Finset.sum_pair hpq]
        exact Nat.add_le_add (List.count_pos_iff.mpr hq) (List.count_pos_iff.mpr hp)
      have hle := Finset.sum_le_sum_of_subset (f := fun r => (s r).children.count (some x))
        (Finset.subset_univ {q, p})
      have := honce x
      omega
  · cases hparent : (s x).parent with
    | none => rfl
    | some p => exact absurd (h.linked x p hparent) (hnone p)

omit [DecidableEq ι] in
theorem new_linked : (new : TreeItems ι).Linked where
  linked x p h := by cases h
  unlinked x _ p := by simp [new, TreeItem.new]
  counted x _ := rfl

/-- The lists after a change. -/
def childrenAfter (s : TreeItems ι) (x : ι) (final : List (Option ι)) (q : ι) : List (Option ι) :=
  if q = x then final else (s q).children

/-- The removals that the links survive: an item with count zero that goes is added
again by the same change or is in no list any more, and an item with another count is
still in the list of its parent. -/
def Action.Fits (s : TreeItems ι) : Action ι → Prop
  | .changeChildren x final c =>
    ∀ y, some y ∈ c.removed →
      ((s y).parentLinkCount = 0 →
        some y ∈ c.added final ∨ ∀ q, some y ∉ s.childrenAfter x final q) ∧
      ((s y).parentLinkCount ≠ 0 →
        ∀ q, (s y).parent = some q → some y ∈ s.childrenAfter x final q)
  | _ => True

instance [Fintype ι] (s : TreeItems ι) : (a : Action ι) → Decidable (a.Fits s)
  | .changeChildren x final c =>
    inferInstanceAs (Decidable (∀ y, some y ∈ c.removed →
      ((s y).parentLinkCount = 0 →
        some y ∈ c.added final ∨ ∀ q, some y ∉ s.childrenAfter x final q) ∧
      ((s y).parentLinkCount ≠ 0 →
        ∀ q, (s y).parent = some q → some y ∈ s.childrenAfter x final q)))
  | .setExpanded .. => .isTrue trivial
  | .getExpandedDescendentCount _ => .isTrue trivial

section Change

variable [Fintype ι] {final : List (Option ι)} {c : Composite (Option ι)}

omit [Fintype ι] in
/-- An item that is not removed stays where its parent has it. -/
theorem Linked.stays (h : s.Linked) (hc : c.WellFormed (s x).children final) {q : ι}
    (hremoved : some y ∉ c.removed) (hparent : (s y).parent = some q) :
    some y ∈ s.childrenAfter x final q := by
  have hq := h.linked y q hparent
  unfold childrenAfter
  split_ifs with heq
  · exact hc.mem_of_not_removed (heq ▸ hq) hremoved
  · exact hq

/-- **One change of a list** keeps the links exactly when its removals do. -/
theorem changeChildren_linked_iff (h : s.Linked) (hc : c.WellFormed (s x).children final) :
    (s.changeChildren x final c).Linked ↔ Action.Fits s (.changeChildren x final c) := by
  have hchildren (q : ι) : (s.changeChildren x final c q).children = s.childrenAfter x final q :=
    changeChildren_children s x final c q
  have hparent (y : ι) := (changeChildren_parent s x final c y).1
  have hcount (y : ι) := (changeChildren_parent s x final c y).2
  constructor
  · intro h' y hy
    refine ⟨fun hzero => or_iff_not_imp_left.mpr fun hadded q => ?_, fun hzero q hq => ?_⟩
    · rw [← hchildren]
      refine h'.unlinked y ?_ q
      rw [hparent, if_pos hzero, if_neg hadded, if_pos hy]
    · rw [← hchildren]
      refine h'.linked y q ?_
      rw [hparent, if_neg hzero, hq]
  · intro hfits
    refine ⟨fun y q hq => ?_, fun y hnone q => ?_, fun y hnone => ?_⟩
    · rw [hchildren]
      rw [hparent] at hq
      split_ifs at hq with hzero hadded hremoved
      · cases hq
        rw [childrenAfter, if_pos rfl]
        exact hc.added_subset hadded
      · exact h.stays hc hremoved hq
      · by_cases hremoved : some y ∈ c.removed
        · exact (hfits y hremoved).2 hzero q hq
        · exact h.stays hc hremoved hq
    · rw [hchildren]
      rw [hparent] at hnone
      split_ifs at hnone with hzero hadded hremoved
      · exact ((hfits y hremoved).1 hzero).resolve_left hadded q
      · have hnot := h.unlinked y hnone
        unfold childrenAfter
        split_ifs with heq
        · intro hfinal
          rcases hc.mem_or_added hfinal with hold | hnew
          · exact hnot x hold
          · exact hadded hnew
        · exact hnot q
      · exact absurd (h.counted y hnone) hzero
    · rw [(hcount y).resolve_right (by rw [hnone]; exact nofun)]
      by_contra hzero
      rw [hparent, if_neg hzero] at hnone
      exact hzero (h.counted y hnone)

end Change

/-! ## Runs -/

section Run

variable [Fintype ι]

omit [DecidableEq ι] [Fintype ι] in
theorem Linked.congr {s' : TreeItems ι} (h : s.Linked)
    (hchildren : ∀ y, (s' y).children = (s y).children) (hparent : ∀ y, (s' y).parent = (s y).parent)
    (hcount : ∀ y, (s' y).parentLinkCount = (s y).parentLinkCount) : s'.Linked where
  linked y q hq := by
    rw [hchildren]
    exact h.linked y q (by rw [← hparent, hq])
  unlinked y hnone q := by
    rw [hchildren]
    exact h.unlinked y (by rw [← hparent, hnone]) q
  counted y hnone := by
    rw [hcount]
    exact h.counted y (by rw [← hparent, hnone])

theorem step_linked_iff {s' : TreeItems ι} {a : Action ι} (h : s.Linked) (ha : a.WellFormed s)
    (hstep : step s a = .ok s') : s'.Linked ↔ a.Fits s := by
  cases a with
  | changeChildren x final c =>
    cases hstep
    exact changeChildren_linked_iff h ha
  | setExpanded x value =>
    cases hstep
    refine iff_of_true (h.congr (fun y => ?_) (fun y => ?_) (fun y => ?_)) trivial
    · exact setExpanded_field TreeItem.children (fun _ _ => rfl) (fun _ => rfl) s x value y
    · exact setExpanded_field TreeItem.parent (fun _ _ => rfl) (fun _ => rfl) s x value y
    · exact setExpanded_field TreeItem.parentLinkCount (fun _ _ => rfl) (fun _ => rfl) s x value y
  | getExpandedDescendentCount x =>
    simp only [step, bind_eq_ok] at hstep
    obtain ⟨⟨n, s₁⟩, hread, hs'⟩ := hstep
    cases hs'
    have hfield := fun {α : Type} (g : TreeItem ι → α) hg =>
      getExpandedDescendentCount_field (g := g) hg false (Fintype.card ι) s x n s₁ hread
    refine iff_of_true (h.congr ?_ ?_ ?_) trivial
    · exact hfield TreeItem.children fun _ _ _ _ _ => rfl
    · exact hfield TreeItem.parent fun _ _ _ _ _ => rfl
    · exact hfield TreeItem.parentLinkCount fun _ _ _ _ _ => rfl

end Run

/-! ## Two items -/

/-- One place of a list of children changes from `removed` to `added`. -/
def splice (x : ι) (pre removed added post : List (Option ι)) : Action ι :=
  .changeChildren x (pre ++ (added ++ post))
    ⟨none, [.addRemove (0 + pre.length) (0 + pre.length + added.length) removed], []⟩

omit [DecidableEq ι] in
theorem splice_wellFormed {x : ι} {pre removed added post : List (Option ι)}
    (h : (s x).children = pre ++ (removed ++ post)) :
    (splice x pre removed added post).WellFormed s where
  permutes := nofun
  edits := by
    rw [h]
    exact .cons pre removed added (.nil _ post)
  updates := nofun

/-- The second item is added to the first, once more, and taken out again. -/
def addedTwice : List (Action (Fin 2)) :=
  [splice 0 [] [] [some 1] [], splice 0 [some 1] [] [some 1] [], splice 0 [] [some 1] [] [some 1]]

theorem addedTwice_fits :
    Along step (fun s a => a.WellFormed s ∧ a.Fits s) new addedTwice := by
  refine (along_cons_ok rfl).mpr ⟨⟨splice_wellFormed rfl, ?_⟩, ?_⟩
  · exact nofun
  refine (along_cons_ok rfl).mpr ⟨⟨splice_wellFormed (by decide), ?_⟩, ?_⟩
  · exact nofun
  refine (along_cons_ok rfl).mpr ⟨⟨splice_wellFormed (by decide), ?_⟩, along_nil⟩
  decide

end TreeItems

end JavaFx.Control
