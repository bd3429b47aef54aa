/-
The cached counts of `TreeItem`s over a run.

A count is cached with a mark, and every event marks the item it is fired at and all
items above it. Two things could leave an unmarked item with an old count. A property
that was not read since it changed tells nobody of its next change, and `invalidated`
tells nobody while the item is a leaf. Neither does harm, as an unmarked item has read
what its count depends on: `Fresh` says of it that its own property and those of its
children are valid, and that its open children are unmarked too.

So the marks are closed upwards along open items, and a change at one item, which marks
all that is above it, leaves unmarked only items whose subtree it is not in.
-/
import Mathlib.Algebra.BigOperators.Group.List.Basic
import JavaFx.Control.TreeItemParents
import JavaFx.Lib.Forest

set_option autoImplicit false

namespace JavaFx.Control

open JavaFx.Lib JavaFx.ListChange

/-! ## Counts from scratch -/

/-- The value of the property, without a read of it. -/
def TreeItem.expandedValue {ι : Type} (item : TreeItem ι) : Bool :=
  item.expanded.elim false BooleanProperty.value

/-- The property is valid, if it is there. -/
def TreeItem.Told {ι : Type} (item : TreeItem ι) : Prop :=
  ∀ property, item.expanded = some property → property.valid = true

/-- An expanded non-leaf. -/
def TreeItem.Open {ι : Type} (item : TreeItem ι) : Prop :=
  item.expandedValue = true ∧ item.children ≠ []

namespace TreeItems

variable {ι : Type} {s s' : TreeItems ι} {x y c : ι}

instance (item : TreeItem ι) : Decidable item.Open :=
  inferInstanceAs (Decidable (_ ∧ _))

/-- The count of an item, down to a depth. -/
def countFrom (s : TreeItems ι) : (depth : ℕ) → ι → ℕ
  | 0, _ => 0
  | depth + 1, x =>
    1 + if (s x).Open then
      ((s x).children.map fun o => o.elim 0 (countFrom s depth)).sum else 0

/-- The count computed from scratch. -/
def trueCount [Fintype ι] (s : TreeItems ι) (x : ι) : ℕ := s.countFrom (Fintype.card ι) x

/-- The parent links. -/
def parentOf (s : TreeItems ι) (x : ι) : Option ι := (s x).parent

/-- A tree whose parent links are correct. -/
structure Tree (s : TreeItems ι) : Prop where
  links : ∀ x p, (s x).parent = some p ↔ some x ∈ (s p).children
  acyclic : Acyclic s.parentOf

/-- Two states with the same items in the same places; the second has been read more. -/
structure Reads (s s' : TreeItems ι) : Prop where
  children : ∀ y, (s' y).children = (s y).children
  parent : ∀ y, (s' y).parent = (s y).parent
  leaf : ∀ y, (s' y).leaf = (s y).leaf
  value : ∀ y, (s' y).expandedValue = (s y).expandedValue
  clean : ∀ y, (s y).expandedDescendentCountDirty = false →
    (s' y).expandedDescendentCountDirty = false
  told : ∀ y, (s y).Told → (s' y).Told

theorem Reads.refl (s : TreeItems ι) : Reads s s :=
  ⟨fun _ => rfl, fun _ => rfl, fun _ => rfl, fun _ => rfl, fun _ h => h, fun _ h => h⟩

theorem Reads.trans {s'' : TreeItems ι} (h : Reads s s') (h' : Reads s' s'') : Reads s s'' where
  children y := (h'.children y).trans (h.children y)
  parent y := (h'.parent y).trans (h.parent y)
  leaf y := (h'.leaf y).trans (h.leaf y)
  value y := (h'.value y).trans (h.value y)
  clean y hy := h'.clean y (h.clean y hy)
  told y hy := h'.told y (h.told y hy)

theorem Reads.open_iff (h : Reads s s') (y : ι) : (s' y).Open ↔ (s y).Open := by
  unfold TreeItem.Open
  rw [h.value, h.children]

theorem Reads.parentOf (h : Reads s s') : s'.parentOf = s.parentOf := funext h.parent

theorem Reads.tree (h : Reads s s') (htree : s.Tree) : s'.Tree where
  links x p := by rw [h.parent, h.children, htree.links]
  acyclic := by
    rw [h.parentOf]
    exact htree.acyclic

/-- A count depends on the subtree of its item only: as long as open children are in
`P` again, the states may differ outside. -/
theorem countFrom_congr {P : ι → Prop} (hchildren : ∀ y, P y → (s' y).children = (s y).children)
    (hopen : ∀ y, P y → ((s' y).Open ↔ (s y).Open))
    (hdown : ∀ y c, P y → (s y).Open → some c ∈ (s y).children →
      P c ∨ ¬(s c).Open ∧ ¬(s' c).Open) (depth : ℕ) (y : ι) (hy : P y) :
    s'.countFrom depth y = s.countFrom depth y := by
  induction depth generalizing y with
  | zero => rfl
  | succ depth ih =>
    simp only [countFrom, hopen y hy, hchildren y hy]
    split_ifs with hyopen
    · congr 2
      refine List.map_congr_left fun o ho => ?_
      cases o with
      | none => rfl
      | some c =>
        rcases hdown y c hy hyopen ho with hc | ⟨hclosed, hclosed'⟩
        · exact ih c hc
        · -- closed items count one, whatever is below
          cases depth with
          | zero => rfl
          | succ depth => simp only [Option.elim_some, countFrom, if_neg hclosed, if_neg hclosed']
    · rfl

theorem Reads.trueCount [Fintype ι] (h : Reads s s') (y : ι) : s'.trueCount y = s.trueCount y :=
  countFrom_congr (P := fun _ => True) (fun y _ => h.children y) (fun y _ => h.open_iff y)
    (fun _ _ _ _ _ => .inl trivial) _ y trivial

/-- Below an item of depth `depth` nothing is cut off. -/
theorem Tree.countFrom_stable (h : s.Tree) (depth : ℕ) (x : ι)
    (hdepth : Sinks s.parentOf depth x) :
    s.countFrom (depth + 1) x = s.countFrom depth x := by
  induction depth generalizing x with
  | zero => exact hdepth.elim
  | succ depth ih =>
    rw [countFrom.eq_def s (depth + 1 + 1), countFrom.eq_def s (depth + 1)]
    dsimp only
    split_ifs
    · congr 2
      refine List.map_congr_left fun o ho => ?_
      cases o with
      | none => rfl
      | some c => exact ih c (hdepth c ((h.links c x).mpr ho))
    · rfl

/-- **The count from scratch**: one, and for an expanded non-leaf the counts of the
children. -/
theorem Tree.trueCount_eq [Fintype ι] (h : s.Tree) (x : ι) :
    s.trueCount x =
      1 + if (s x).Open then ((s x).children.map fun o => o.elim 0 s.trueCount).sum else 0 := by
  have hdepth := h.acyclic.sinks x
  rw [Nat.card_eq_fintype_card] at hdepth
  rw [trueCount, ← h.countFrom_stable _ x hdepth, countFrom]
  rfl

theorem trueCount_of_not_open [Fintype ι] (h : s.Tree) (hx : ¬(s x).Open) : s.trueCount x = 1 := by
  rw [h.trueCount_eq, if_neg hx]

/-! ## What an unmarked item has read -/

structure Fresh [Fintype ι] (s : TreeItems ι) : Prop where
  leaf : ∀ x, (s x).isLeaf = true ↔ (s x).children = []
  count : ∀ x, (s x).expandedDescendentCountDirty = false →
    (s x).expandedDescendentCount = s.trueCount x
  told : ∀ x, (s x).expandedDescendentCountDirty = false → (s x).children ≠ [] → (s x).Told
  child : ∀ x c, (s x).expandedDescendentCountDirty = false → (s x).Open →
    some c ∈ (s x).children →
    ((s c).children ≠ [] → (s c).Told) ∧ ((s c).Open → (s c).expandedDescendentCountDirty = false)

/-- A state that agrees with a fresh one on its unmarked items and their children. -/
theorem Fresh.of_reads [Fintype ι] (h : s.Fresh) (hreads : Reads s s')
    (hmark : ∀ y, (s' y).expandedDescendentCountDirty = false →
      (s y).expandedDescendentCountDirty = false)
    (hcount : ∀ y, (s' y).expandedDescendentCountDirty = false →
      (s' y).expandedDescendentCount = (s y).expandedDescendentCount) : s'.Fresh where
  leaf y := by
    unfold TreeItem.isLeaf
    rw [hreads.leaf, hreads.children]
    exact h.leaf y
  count y hy := by
    rw [hcount y hy, hreads.trueCount, h.count y (hmark y hy)]
  told y hy hchildren := hreads.told y (h.told y (hmark y hy) (by rwa [← hreads.children]))
  child y c hy hopen hc := by
    rw [hreads.children] at hc
    obtain ⟨htold, hclean⟩ := h.child y c (hmark y hy) ((hreads.open_iff y).mp hopen) hc
    exact ⟨fun hne => hreads.told c (htold (by rwa [← hreads.children])),
      fun hcopen => hreads.clean c (hclean ((hreads.open_iff c).mp hcopen))⟩

/-! ## A read -/

section Read

variable [DecidableEq ι]

theorem reads_modify {f : TreeItem ι → TreeItem ι} (s : TreeItems ι) (x : ι)
    (hchildren : ∀ item, (f item).children = item.children)
    (hparent : ∀ item, (f item).parent = item.parent) (hleaf : ∀ item, (f item).leaf = item.leaf)
    (hvalue : (f (s x)).expandedValue = (s x).expandedValue)
    (hclean : (s x).expandedDescendentCountDirty = false → (f (s x)).expandedDescendentCountDirty = false)
    (htold : (s x).Told → (f (s x)).Told) : Reads s (s.modify x f) where
  children y := modify_field TreeItem.children hchildren s x y
  parent y := modify_field TreeItem.parent hparent s x y
  leaf y := modify_field TreeItem.leaf hleaf s x y
  value y := by
    by_cases h : y = x
    · rw [h, modify_self, hvalue]
    · rw [modify_of_ne s f h]
  clean y := by
    by_cases h : y = x
    · rw [h, modify_self]
      exact hclean
    · rw [modify_of_ne s f h]
      exact id
  told y := by
    by_cases h : y = x
    · rw [h, modify_self]
      exact htold
    · rw [modify_of_ne s f h]
      exact id

theorem isExpanded_fst (s : TreeItems ι) (x : ι) : (s.isExpanded x).1 = (s x).expandedValue := by
  unfold isExpanded TreeItem.expandedValue
  cases (s x).expanded <;> rfl

theorem isExpanded_of_ne (s : TreeItems ι) (h : y ≠ x) : (s.isExpanded x).2 y = s y := by
  unfold isExpanded
  cases (s x).expanded with
  | none => rfl
  | some property =>
    dsimp only
    exact modify_of_ne s _ h

theorem isExpanded_told (s : TreeItems ι) (x : ι) : ((s.isExpanded x).2 x).Told := by
  unfold isExpanded
  cases h : (s x).expanded with
  | none =>
    intro property hproperty
    rw [h] at hproperty
    cases hproperty
  | some property =>
    intro property' hproperty
    dsimp only at hproperty
    rw [modify_self] at hproperty
    cases hproperty
    rfl

theorem isExpanded_reads (s : TreeItems ι) (x : ι) : Reads s (s.isExpanded x).2 := by
  have htold := isExpanded_told s x
  unfold isExpanded at htold ⊢
  cases h : (s x).expanded with
  | none => exact Reads.refl s
  | some property =>
    rw [h] at htold
    dsimp only at htold ⊢
    rw [modify_self] at htold
    refine reads_modify s x (fun _ => rfl) (fun _ => rfl) (fun _ => rfl) ?_ id fun _ => htold
    simp only [TreeItem.expandedValue, h]
    rfl

theorem Fresh.isExpanded [Fintype ι] (h : s.Fresh) (x : ι) : (s.isExpanded x).2.Fresh := by
  refine h.of_reads (isExpanded_reads s x) (fun y => ?_) (fun y _ => ?_)
  · rw [isExpanded_field TreeItem.expandedDescendentCountDirty (fun _ _ => rfl)]
    exact id
  · exact isExpanded_field TreeItem.expandedDescendentCount (fun _ _ => rfl) s x y

/-- The counts of a marked item may be anything. -/
theorem reads_setCount (s : TreeItems ι) (x : ι) (n previous : TreeItem ι → ℕ) :
    Reads s (s.modify x fun item => { item with
      expandedDescendentCount := n item, previousExpandedDescendentCount := previous item }) :=
  reads_modify s x (fun _ => rfl) (fun _ => rfl) (fun _ => rfl) rfl id id

theorem Fresh.setCount [Fintype ι] (h : s.Fresh) (hx : (s x).expandedDescendentCountDirty = true)
    (n previous : TreeItem ι → ℕ) :
    (s.modify x fun item => { item with
      expandedDescendentCount := n item
      previousExpandedDescendentCount := previous item }).Fresh := by
  have hmark : ∀ y, (s.modify x (fun item => { item with
      expandedDescendentCount := n item
      previousExpandedDescendentCount := previous item }) y).expandedDescendentCountDirty =
        (s y).expandedDescendentCountDirty := fun y =>
    modify_field TreeItem.expandedDescendentCountDirty
      (f := fun item => { item with
        expandedDescendentCount := n item
        previousExpandedDescendentCount := previous item }) (fun _ => rfl) s x y
  refine h.of_reads (reads_setCount s x n previous) (fun y hy => by rwa [hmark] at hy)
    (fun y hy => ?_)
  rw [hmark] at hy
  rw [modify_of_ne]
  rintro rfl
  rw [hx] at hy
  cases hy

/-- The mark of an item that has read what it depends on is cleared. -/
theorem Fresh.clear [Fintype ι] (h : s.Fresh)
    (hcount : (s x).expandedDescendentCount = s.trueCount x)
    (htold : (s x).children ≠ [] → (s x).Told)
    (hchild : (s x).Open → ∀ c, some c ∈ (s x).children → ((s c).children ≠ [] → (s c).Told) ∧
      ((s c).Open → (s c).expandedDescendentCountDirty = false)) :
    (s.modify x fun item => { item with expandedDescendentCountDirty := false }).Fresh := by
  have hreads : Reads s (s.modify x fun item => { item with expandedDescendentCountDirty := false }) :=
    reads_modify s x (fun _ => rfl) (fun _ => rfl) (fun _ => rfl) rfl (fun _ => rfl) id
  generalize hs' : (s.modify x fun item => { item with expandedDescendentCountDirty := false }) = s'
    at hreads
  have hself : ∀ y, y = x ∨ s' y = s y := fun y => by
    rw [← hs']
    exact or_iff_not_imp_left.mpr (modify_of_ne s _)
  have hselfcount : (s' x).expandedDescendentCount = (s x).expandedDescendentCount := by
    rw [← hs', modify_self]
  refine ⟨fun y => ?_, fun y hy => ?_, fun y hy hne => ?_, fun y c hy hopen hc => ?_⟩
  · unfold TreeItem.isLeaf
    rw [hreads.leaf, hreads.children]
    exact h.leaf y
  · rw [hreads.trueCount]
    rcases hself y with rfl | heq
    · rw [hselfcount, hcount]
    · rw [heq] at hy ⊢
      exact h.count y hy
  · rw [hreads.children] at hne
    refine hreads.told y ?_
    rcases hself y with rfl | heq
    · exact htold hne
    · rw [heq] at hy
      exact h.told y hy hne
  · rw [hreads.children] at hc
    rw [hreads.open_iff] at hopen
    have hseen : ((s c).children ≠ [] → (s c).Told) ∧
        ((s c).Open → (s c).expandedDescendentCountDirty = false) := by
      rcases hself y with rfl | heq
      · exact hchild hopen c hc
      · rw [heq] at hy
        exact h.child y c hy hopen hc
    exact ⟨fun hne => hreads.told c (hseen.1 (by rwa [← hreads.children])),
      fun hcopen => hreads.clean c (hseen.2 ((hreads.open_iff c).mp hcopen))⟩

/-- What a read of an item does. -/
structure ReadOf [Fintype ι] (s s' : TreeItems ι) (x : ι) : Prop where
  fresh : s'.Fresh
  reads : Reads s s'
  clean : (s' x).expandedDescendentCountDirty = false
  frame : ∀ y, ¬Under s.parentOf y x →
    (s' y).expandedDescendentCountDirty = (s y).expandedDescendentCountDirty

/-- The loop over the children of `x`, after those in `seen`. -/
structure Counting [Fintype ι] (s s' : TreeItems ι) (x : ι) (seen : List (Option ι)) : Prop where
  fresh : s'.Fresh
  reads : Reads s s'
  marked : (s' x).expandedDescendentCountDirty = true
  told : (s' x).Told
  count : (s' x).expandedDescendentCount = 1 + (seen.map fun o => o.elim 0 s.trueCount).sum
  child : ∀ c, some c ∈ seen → ((s' c).children ≠ [] → (s' c).Told) ∧
    ((s' c).Open → (s' c).expandedDescendentCountDirty = false)
  frame : ∀ y, ¬Under s.parentOf y x →
    (s' y).expandedDescendentCountDirty = (s y).expandedDescendentCountDirty

variable [Fintype ι]

/-- One child: its property is read, and its count if it is expanded. -/
theorem addChildCount_spec {count : TreeItems ι → ι → Except TreeError (ℕ × TreeItems ι)}
    (htree : s.Tree)
    (hcount : ∀ s₁ c, Reads s s₁ → s₁.Fresh → s.parentOf c = some x →
      ∃ s₂, count s₁ c = .ok (s₁.trueCount c, s₂) ∧ ReadOf s₁ s₂ c)
    {s' : TreeItems ι} {seen : List (Option ι)} (h : Counting s s' x seen) {o : Option ι}
    (ho : o ∈ (s x).children) :
    ∃ s'', addChildCount count x s' o = .ok s'' ∧ Counting s s'' x (seen ++ [o]) := by
  cases o with
  | none =>
    refine ⟨s', rfl, h.fresh, h.reads, h.marked, h.told, ?_, fun c hc => h.child c ?_, h.frame⟩
    · rw [h.count]
      simp
    · simpa using hc
  | some c =>
    have hparent : s.parentOf c = some x := (htree.links c x).mpr ho
    -- the child is not above its parent
    have hxc : ¬Under s.parentOf x c := htree.acyclic c x hparent
    have hreads₁ := h.reads.trans (isExpanded_reads s' c)
    have hdirty₁ : ∀ y, ((s'.isExpanded c).2 y).expandedDescendentCountDirty =
        (s' y).expandedDescendentCountDirty :=
      isExpanded_field TreeItem.expandedDescendentCountDirty (fun _ _ => rfl) s' c
    have htold₁ := isExpanded_told s' c
    have hfresh₁ := h.fresh.isExpanded c
    have hcall : ∃ s₂, (if (s'.isExpanded c).1 = true then count (s'.isExpanded c).2 c
          else .ok (1, (s'.isExpanded c).2)) = .ok (s.trueCount c, s₂) ∧
        s₂.Fresh ∧ Reads (s'.isExpanded c).2 s₂ ∧
        ((s₂ c).Open → (s₂ c).expandedDescendentCountDirty = false) ∧
        ∀ y, ¬Under s.parentOf y c →
          (s₂ y).expandedDescendentCountDirty = (s' y).expandedDescendentCountDirty := by
      rw [isExpanded_fst, h.reads.value]
      split_ifs with hvalue
      · obtain ⟨s₂, hs₂, hread⟩ := hcount _ c hreads₁ hfresh₁ hparent
        rw [hreads₁.trueCount] at hs₂
        refine ⟨s₂, hs₂, hread.fresh, hread.reads, fun _ => hread.clean, fun y hy => ?_⟩
        rw [hread.frame y (by rwa [hreads₁.parentOf]), hdirty₁]
      · have hclosed : ¬(s c).Open := fun hopen => hvalue hopen.1
        refine ⟨_, by rw [trueCount_of_not_open htree hclosed], hfresh₁, Reads.refl _, fun hopen => ?_,
          fun y _ => hdirty₁ y⟩
        exact absurd ((hreads₁.open_iff c).mp hopen) hclosed
    obtain ⟨s₂, hs₂, hfresh₂, hreads₂, hopen₂, hframe₂⟩ := hcall
    have hmarked₂ : (s₂ x).expandedDescendentCountDirty = true := by
      rw [hframe₂ x hxc, h.marked]
    have hreads₃ := reads_setCount s₂ x
      (fun _ => (s' x).expandedDescendentCount + s.trueCount c)
      TreeItem.previousExpandedDescendentCount
    have hfresh₃ := hfresh₂.setCount hmarked₂
      (fun _ => (s' x).expandedDescendentCount + s.trueCount c)
      TreeItem.previousExpandedDescendentCount
    have hdirty₃ : ∀ y, (s₂.modify x (fun item => { item with
        expandedDescendentCount := (s' x).expandedDescendentCount + s.trueCount c
        }) y).expandedDescendentCountDirty = (s₂ y).expandedDescendentCountDirty := fun y =>
      modify_field TreeItem.expandedDescendentCountDirty (f := fun item => { item with
        expandedDescendentCount := (s' x).expandedDescendentCount + s.trueCount c }) (fun _ => rfl) s₂ x y
    refine ⟨s₂.modify x fun item => { item with
        expandedDescendentCount := (s' x).expandedDescendentCount + s.trueCount c },
      ?_, hfresh₃, (hreads₁.trans hreads₂).trans hreads₃, ?_, ?_, ?_, fun d hd => ?_, fun y hy => ?_⟩
    · simp only [addChildCount, hs₂, ok_bind]
    · rw [hdirty₃, hmarked₂]
    · exact (((isExpanded_reads s' c).trans hreads₂).trans hreads₃).told x h.told
    · rw [modify_self, h.count]
      simp [Nat.add_assoc]
    · rcases List.mem_append.mp hd with hseen | hlast
      · obtain ⟨htold, hclean⟩ := h.child d hseen
        have hup := ((isExpanded_reads s' c).trans hreads₂).trans hreads₃
        refine ⟨fun hne => hup.told d (htold ?_), fun hopen => hup.clean d (hclean ?_)⟩
        · rwa [← hup.children]
        · exact (hup.open_iff d).mp hopen
      · cases List.mem_singleton.mp hlast
        have hup := hreads₂.trans hreads₃
        refine ⟨fun _ => hup.told c htold₁, fun hopen => ?_⟩
        rw [hdirty₃]
        exact hopen₂ ((hreads₃.open_iff c).mp hopen)
    · rw [hdirty₃, hframe₂ y fun hyc => hy (hyc.trans (under_parent hparent)), h.frame y hy]

theorem foldlM_addChildCount_spec
    {count : TreeItems ι → ι → Except TreeError (ℕ × TreeItems ι)} (htree : s.Tree)
    (hcount : ∀ s₁ c, Reads s s₁ → s₁.Fresh → s.parentOf c = some x →
      ∃ s₂, count s₁ c = .ok (s₁.trueCount c, s₂) ∧ ReadOf s₁ s₂ c)
    {s' : TreeItems ι} {seen : List (Option ι)} (h : Counting s s' x seen)
    (rest : List (Option ι)) (hrest : ∀ o ∈ rest, o ∈ (s x).children) :
    ∃ s'', rest.foldlM (addChildCount count x) s' = .ok s'' ∧ Counting s s'' x (seen ++ rest) := by
  induction rest generalizing s' seen with
  | nil => exact ⟨s', rfl, by rwa [List.append_nil]⟩
  | cons o rest ih =>
    obtain ⟨s₁, hs₁, h₁⟩ := addChildCount_spec htree hcount h (hrest o List.mem_cons_self)
    obtain ⟨s₂, hs₂, h₂⟩ := ih h₁ fun o' ho' => hrest o' (List.mem_cons_of_mem o ho')
    refine ⟨s₂, by rw [List.foldlM_cons, hs₁, ok_bind, hs₂], ?_⟩
    rwa [List.append_assoc] at h₂

/-- A marked item: its count is right, and it has read what the count depends on. -/
theorem updateExpandedDescendentCount_spec
    {count : TreeItems ι → ι → Except TreeError (ℕ × TreeItems ι)} (htree : s.Tree) (h : s.Fresh)
    (hmarked : (s x).expandedDescendentCountDirty = true)
    (hcount : ∀ s₁ c, Reads s s₁ → s₁.Fresh → s.parentOf c = some x →
      ∃ s₂, count s₁ c = .ok (s₁.trueCount c, s₂) ∧ ReadOf s₁ s₂ c) :
    ∃ s', s.updateExpandedDescendentCount count x = .ok s' ∧ s'.Fresh ∧ Reads s s' ∧
      (s' x).expandedDescendentCount = s.trueCount x ∧
      ((s x).children ≠ [] → (s' x).Told) ∧
      ((s x).Open → ∀ c, some c ∈ (s x).children → ((s' c).children ≠ [] → (s' c).Told) ∧
        ((s' c).Open → (s' c).expandedDescendentCountDirty = false)) ∧
      ∀ y, ¬Under s.parentOf y x →
        (s' y).expandedDescendentCountDirty = (s y).expandedDescendentCountDirty := by
  have hreads₁ := reads_setCount s x (fun _ => 1) TreeItem.expandedDescendentCount
  have hfresh₁ := h.setCount hmarked (fun _ => 1) TreeItem.expandedDescendentCount
  have hone : (s.modify x (fun item => { item with
      previousExpandedDescendentCount := item.expandedDescendentCount
      expandedDescendentCount := 1 }) x).expandedDescendentCount = 1 := by rw [modify_self]
  have hdirty₁ : ∀ y, (s.modify x (fun item => { item with
      previousExpandedDescendentCount := item.expandedDescendentCount
      expandedDescendentCount := 1 }) y).expandedDescendentCountDirty =
        (s y).expandedDescendentCountDirty := fun y =>
    modify_field TreeItem.expandedDescendentCountDirty (f := fun item => { item with
      previousExpandedDescendentCount := item.expandedDescendentCount
      expandedDescendentCount := 1 }) (fun _ => rfl) s x y
  unfold updateExpandedDescendentCount
  generalize (s.modify x fun item => { item with
      previousExpandedDescendentCount := item.expandedDescendentCount
      expandedDescendentCount := 1 }) = s₁ at hreads₁ hfresh₁ hone hdirty₁
  dsimp only
  by_cases hleaf : (s₁ x).isLeaf = true
  · have hnil : (s x).children = [] := by rw [← hreads₁.children, (hfresh₁.leaf x).mp hleaf]
    have hclosed : ¬(s x).Open := fun hopen => hopen.2 hnil
    rw [if_pos hleaf]
    exact ⟨s₁, rfl, hfresh₁, hreads₁, by rw [hone, trueCount_of_not_open htree hclosed],
      fun hne => absurd hnil hne, fun hopen => absurd hopen hclosed, fun y _ => hdirty₁ y⟩
  · rw [if_neg hleaf, isExpanded_fst]
    have hne : (s x).children ≠ [] := by
      rw [← hreads₁.children]
      exact fun hnil => hleaf ((hfresh₁.leaf x).mpr hnil)
    have hreads₂ := hreads₁.trans (isExpanded_reads s₁ x)
    have hfresh₂ := hfresh₁.isExpanded x
    have htold₂ := isExpanded_told s₁ x
    have hone₂ : ((s₁.isExpanded x).2 x).expandedDescendentCount = 1 := by
      rw [isExpanded_field TreeItem.expandedDescendentCount (fun _ _ => rfl), hone]
    have hdirty₂ : ∀ y, ((s₁.isExpanded x).2 y).expandedDescendentCountDirty =
        (s y).expandedDescendentCountDirty := fun y => by
      rw [isExpanded_field TreeItem.expandedDescendentCountDirty (fun _ _ => rfl), hdirty₁]
    by_cases hvalue : (s₁ x).expandedValue = true
    · rw [if_pos hvalue]
      have hopen : (s x).Open := ⟨by rw [← hreads₁.value, hvalue], hne⟩
      have hstart : Counting s (s₁.isExpanded x).2 x [] :=
        ⟨hfresh₂, hreads₂, by rw [hdirty₂, hmarked], htold₂, by rw [hone₂]; rfl, nofun,
          fun y _ => hdirty₂ y⟩
      rw [hreads₂.children]
      obtain ⟨s₃, hs₃, h₃⟩ := foldlM_addChildCount_spec htree hcount hstart _ fun o ho => ho
      refine ⟨s₃, hs₃, h₃.fresh, h₃.reads, ?_, fun _ => h₃.told, fun _ => h₃.child, h₃.frame⟩
      rw [h₃.count, htree.trueCount_eq, if_pos hopen]
      rfl
    · rw [if_neg hvalue]
      have hclosed : ¬(s x).Open := fun hopen => hvalue (by rw [hreads₁.value, hopen.1])
      exact ⟨_, rfl, hfresh₂, hreads₂, by rw [hone₂, trueCount_of_not_open htree hclosed],
        fun _ => htold₂, fun hopen => absurd hopen hclosed, fun y _ => hdirty₂ y⟩

/-- **A read**: the count from scratch, and a state that has read it. -/
theorem getExpandedDescendentCount_spec (fuel : ℕ) (s : TreeItems ι) (x : ι) (htree : s.Tree)
    (h : s.Fresh) (hfuel : Sinks s.parentOf fuel x) :
    ∃ s', getExpandedDescendentCount false fuel s x = .ok (s.trueCount x, s') ∧ ReadOf s s' x := by
  induction fuel generalizing s x with
  | zero => exact hfuel.elim
  | succ fuel ih =>
    unfold getExpandedDescendentCount
    by_cases hmarked : (s x).expandedDescendentCountDirty = true
    · have hcount : ∀ s₁ c, Reads s s₁ → s₁.Fresh → s.parentOf c = some x →
          ∃ s₂, getExpandedDescendentCount false fuel s₁ c = .ok (s₁.trueCount c, s₂) ∧
            ReadOf s₁ s₂ c := by
        intro s₁ c hreads hfresh hparent
        refine ih s₁ c (hreads.tree htree) hfresh ?_
        rw [hreads.parentOf]
        exact hfuel c hparent
      obtain ⟨s₁, hs₁, hfresh, hreads, hn, htold, hchild, hframe⟩ :=
        updateExpandedDescendentCount_spec htree h hmarked hcount
      rw [if_pos (.inr hmarked), hs₁, ok_bind]
      refine ⟨s₁.modify x fun item => { item with expandedDescendentCountDirty := false },
        by dsimp only; rw [modify_self, hn], ?_, ?_, ?_, fun y hy => ?_⟩
      · refine hfresh.clear (by rw [hn, hreads.trueCount]) (fun hne => htold ?_) fun hopen c hc => ?_
        · rwa [← hreads.children]
        · exact hchild ((hreads.open_iff x).mp hopen) c (by rwa [← hreads.children])
      · refine hreads.trans ?_
        exact reads_modify s₁ x (fun _ => rfl) (fun _ => rfl) (fun _ => rfl) rfl (fun _ => rfl) id
      · rw [modify_self]
      · rw [modify_of_ne, hframe y hy]
        rintro rfl
        exact hy (under_refl _)
    · rw [if_neg (by simpa using hmarked)]
      have hclean := Bool.eq_false_of_not_eq_true hmarked
      exact ⟨s, by rw [h.count x hclean], h, Reads.refl s, hclean, fun _ _ => rfl⟩

end Read

/-! ## Events -/

section Events

variable [DecidableEq ι]

omit [DecidableEq ι] in
/-- The chain of an item is the item and all items above it. -/
theorem buildEventDispatchChain_spec (fuel : ℕ) (x : ι) (hfuel : Rises s.parentOf fuel x) :
    ∃ chain, s.buildEventDispatchChain fuel x = some chain ∧
      ∀ y, y ∈ chain ↔ Under s.parentOf x y := by
  induction fuel generalizing x with
  | zero => exact hfuel.elim
  | succ fuel ih =>
    unfold buildEventDispatchChain
    cases hparent : (s x).parent with
    | none =>
      refine ⟨[x], rfl, fun y => ?_⟩
      rw [List.mem_singleton]
      constructor
      · rintro rfl
        exact under_refl _
      · exact fun h => (under_of_none hparent h).symm
    | some p =>
      obtain ⟨chain, hchain, hmem⟩ := ih p (hfuel p hparent)
      refine ⟨chain ++ [x], by dsimp only; rw [hchain]; rfl, fun y => ?_⟩
      rw [List.mem_append, List.mem_singleton, hmem]
      constructor
      · rintro (hup | rfl)
        · exact (under_parent hparent).trans hup
        · exact under_refl _
      · intro hup
        rcases hup.cases_head with rfl | ⟨q, hq, hqy⟩
        · exact .inr rfl
        · obtain rfl : p = q := Option.some_inj.mp (hparent.symm.trans hq)
          exact .inl hqy

theorem itemListener_dirty (s : TreeItems ι) (x y : ι) :
    (s.itemListener x y).expandedDescendentCountDirty = true ↔
      (s y).expandedDescendentCountDirty = true ∨ y = x := by
  unfold itemListener
  by_cases h : y = x
  · rw [h, modify_self]
    simp
  · rw [modify_of_ne s _ h]
    simp [h]

/-- An event marks the items of its chain. -/
theorem fireEvent_dirty [Fintype ι] (hacyclic : Acyclic s.parentOf) (x y : ι) :
    (s.fireEvent x y).expandedDescendentCountDirty = true ↔
      (s y).expandedDescendentCountDirty = true ∨ Under s.parentOf x y := by
  have hrises := hacyclic.rises x
  rw [Nat.card_eq_fintype_card] at hrises
  obtain ⟨chain, hchain, hmem⟩ := buildEventDispatchChain_spec _ x hrises
  unfold fireEvent
  rw [hchain, ← hmem y]
  clear hchain hmem
  dsimp only
  induction chain with
  | nil => simp
  | cons z chain ih =>
    rw [List.foldr_cons, itemListener_dirty, List.mem_cons, or_comm (a := y = z), ← or_assoc]
    exact or_congr_left ih

end Events

/-! ## Changes -/

section Changes

variable [Fintype ι]

/-- **A change that is told.** One item changes, and the items above it are marked: what
is left unmarked does not have that item below it. -/
theorem Fresh.told_change (h : s.Fresh) (htree : s'.Tree)
    (hchildren : ∀ y, y ≠ x → (s' y).children = (s y).children)
    (hexpanded : ∀ y, y ≠ x → (s' y).expanded = (s y).expanded)
    (hleaf : ∀ y, (s' y).isLeaf = true ↔ (s' y).children = [])
    (hcount : ∀ y, (s' y).expandedDescendentCount = (s y).expandedDescendentCount)
    (hdirty : ∀ y, (s' y).expandedDescendentCountDirty = true ↔
      (s y).expandedDescendentCountDirty = true ∨ Under s'.parentOf x y) : s'.Fresh := by
  have hclean : ∀ y, (s' y).expandedDescendentCountDirty = false ↔
      (s y).expandedDescendentCountDirty = false ∧ ¬Under s'.parentOf x y := fun y => by
    rw [← Bool.not_eq_true, hdirty, not_or, Bool.not_eq_true]
  have hne : ∀ y, ¬Under s'.parentOf x y → y ≠ x := by
    rintro y hy rfl
    exact hy (under_refl _)
  have hopen : ∀ y, ¬Under s'.parentOf x y → ((s' y).Open ↔ (s y).Open) := fun y hy => by
    unfold TreeItem.Open TreeItem.expandedValue
    rw [hchildren y (hne y hy), hexpanded y (hne y hy)]
  have hdown : ∀ y c, ¬Under s'.parentOf x y → some c ∈ (s' y).children →
      ¬Under s'.parentOf x c :=
    fun y c hy hc hxc => hy (hxc.trans (under_parent ((htree.links c y).mpr hc)))
  refine ⟨hleaf, fun y hy => ?_, fun y hy hchild => ?_, fun y c hy hyopen hc => ?_⟩
  · obtain ⟨hy, hxy⟩ := (hclean y).mp hy
    rw [hcount, h.count y hy]
    refine (countFrom_congr (P := fun y => ¬Under s'.parentOf x y)
      (fun y hy => hchildren y (hne y hy)) hopen (fun y c hy _ hc => .inl ?_) _ y hxy).symm
    exact hdown y c hy (by rwa [hchildren y (hne y hy)])
  · obtain ⟨hy, hxy⟩ := (hclean y).mp hy
    unfold TreeItem.Told
    rw [hexpanded y (hne y hxy)]
    exact h.told y hy (by rwa [← hchildren y (hne y hxy)])
  · obtain ⟨hy, hxy⟩ := (hclean y).mp hy
    have hxc := hdown y c hxy hc
    rw [hchildren y (hne y hxy)] at hc
    obtain ⟨htold, hcclean⟩ := h.child y c hy ((hopen y hxy).mp hyopen) hc
    refine ⟨fun hcne => ?_, fun hcopen => ?_⟩
    · unfold TreeItem.Told
      rw [hexpanded c (hne c hxc)]
      exact htold (by rwa [← hchildren c (hne c hxc)])
    · exact (hclean c).mpr ⟨hcclean ((hopen c hxc).mp hcopen), hxc⟩

variable [DecidableEq ι]

/-- **A change nobody is told of.** The property of a leaf changes, or one that was not
read since its last change: no unmarked item depends on it. -/
theorem Fresh.silent_change (h : s.Fresh) (hx : (s x).children = [] ∨ ¬(s x).Told)
    (expanded : Option BooleanProperty) :
    (s.modify x fun item => { item with expanded := expanded }).Fresh := by
  have hfield := fun {α : Type} (g : TreeItem ι → α) hg =>
    modify_field g (f := fun item => { item with expanded := expanded }) hg s x
  have hchildren := hfield TreeItem.children fun _ => rfl
  have hdirty := hfield TreeItem.expandedDescendentCountDirty fun _ => rfl
  have hleaf := hfield TreeItem.isLeaf fun _ => rfl
  have hcount := hfield TreeItem.expandedDescendentCount fun _ => rfl
  have hother : ∀ y, y ≠ x → (s.modify x fun item => { item with expanded := expanded }) y = s y :=
    fun y hy => modify_of_ne s _ hy
  generalize (s.modify x fun item => { item with expanded := expanded }) = s'
    at hchildren hdirty hleaf hcount hother
  -- an item that an unmarked one has read is not this one, unless it is a leaf
  have hread : ∀ y, ((s y).children ≠ [] → (s y).Told) → (s y).children = [] ∨ s' y = s y := by
    intro y htold
    by_cases hyx : y = x
    · subst hyx
      exact .inl (hx.elim id fun hnot => by_contra fun hne => hnot (htold hne))
    · exact .inr (hother y hyx)
  have hopen : ∀ y, ((s y).children ≠ [] → (s y).Told) → ((s' y).Open ↔ (s y).Open) := by
    intro y htold
    rcases hread y htold with hnil | heq
    · exact iff_of_false (fun hopen => hopen.2 ((hchildren y).trans hnil)) fun hopen => hopen.2 hnil
    · rw [heq]
  have htold' : ∀ y, ((s y).children ≠ [] → (s y).Told) → (s' y).children ≠ [] → (s' y).Told := by
    intro y htold hne
    rw [hchildren] at hne
    rcases hread y htold with hnil | heq
    · exact absurd hnil hne
    · rw [heq]
      exact htold hne
  refine ⟨fun y => by rw [hleaf, hchildren, h.leaf], fun y hy => ?_, fun y hy => ?_,
    fun y c hy hyopen hc => ?_⟩
  · rw [hdirty] at hy
    rw [hcount, h.count y hy]
    refine (countFrom_congr (P := fun y => (s y).expandedDescendentCountDirty = false)
      (fun y _ => hchildren y) (fun y hy => hopen y (h.told y hy)) (fun y c hy hyopen hc => ?_) _ y
      hy).symm
    obtain ⟨htold, hclean⟩ := h.child y c hy hyopen hc
    by_cases hcopen : (s c).Open
    · exact .inl (hclean hcopen)
    · exact .inr ⟨hcopen, fun hcopen' => hcopen ((hopen c htold).mp hcopen')⟩
  · rw [hdirty] at hy
    exact htold' y (h.told y hy)
  · rw [hdirty] at hy
    rw [hchildren] at hc
    obtain ⟨htold, hclean⟩ := h.child y c hy ((hopen y (h.told y hy)).mp hyopen) hc
    refine ⟨htold' c htold, fun hcopen => ?_⟩
    rw [hdirty]
    exact hclean ((hopen c htold).mp hcopen)

omit [Fintype ι] in
theorem setLeaf_isLeaf (s : TreeItems ι) (x : ι) (value : Bool) :
    (s.setLeaf x value x).isLeaf = value := by
  unfold setLeaf TreeItem.isLeaf
  split_ifs with h
  · rw [h.1, h.2]
    rfl
  · rw [modify_self]
    rfl

/-- A change of a list of children. -/
theorem changeChildren_fresh (h : s.Fresh) {final : List (Option ι)} {c : Composite (Option ι)}
    (htree : (s.changeChildren x final c).Tree) : (s.changeChildren x final c).Fresh := by
  have hchildren := changeChildren_children s x final c
  have hexpanded : ∀ y, (s.changeChildren x final c y).expanded = (s y).expanded := fun y => by
    unfold changeChildren childrenListener updateChildren
    rw [fireEvent_field TreeItem.expanded (fun _ => rfl),
      updateChildrenParent_field TreeItem.expanded (fun _ _ _ => rfl),
      updateChildrenParent_field TreeItem.expanded (fun _ _ _ => rfl),
      setLeaf_field TreeItem.expanded (fun _ _ => rfl),
      itemListener_field TreeItem.expanded (fun _ => rfl)]
    exact modify_field TreeItem.expanded (f := fun item => { item with children := final })
      (fun _ => rfl) s x y
  have hcount : ∀ y, (s.changeChildren x final c y).expandedDescendentCount =
      (s y).expandedDescendentCount := fun y => by
    unfold changeChildren childrenListener updateChildren
    rw [fireEvent_field TreeItem.expandedDescendentCount (fun _ => rfl),
      updateChildrenParent_field TreeItem.expandedDescendentCount (fun _ _ _ => rfl),
      updateChildrenParent_field TreeItem.expandedDescendentCount (fun _ _ _ => rfl),
      setLeaf_field TreeItem.expandedDescendentCount (fun _ _ => rfl),
      itemListener_field TreeItem.expandedDescendentCount (fun _ => rfl)]
    exact modify_field TreeItem.expandedDescendentCount
      (f := fun item => { item with children := final }) (fun _ => rfl) s x y
  refine h.told_change (x := x) htree (fun y hy => ?_) (fun y _ => hexpanded y) (fun y => ?_) hcount
    fun y => ?_
  · rw [hchildren, if_neg hy]
  · rw [hchildren]
    unfold changeChildren childrenListener updateChildren
    rw [fireEvent_field TreeItem.isLeaf (fun _ => rfl),
      updateChildrenParent_field TreeItem.isLeaf (fun _ _ _ => rfl),
      updateChildrenParent_field TreeItem.isLeaf (fun _ _ _ => rfl)]
    by_cases hyx : y = x
    · rw [hyx, setLeaf_isLeaf, itemListener_field TreeItem.children (fun _ => rfl), modify_self,
        if_pos rfl, List.isEmpty_iff]
    · rw [if_neg hyx, ← h.leaf]
      have hother : ∀ (s : TreeItems ι) value, (s.setLeaf x value y) = s y := by
        intro s value
        unfold setLeaf
        split_ifs
        · rfl
        · exact modify_of_ne s _ hyx
      rw [hother, itemListener_field TreeItem.isLeaf (fun _ => rfl), modify_of_ne s _ hyx]
  · -- the listener marks the item itself, the event all that is above it
    have hlast : ∃ s₁ : TreeItems ι, s.changeChildren x final c = s₁.fireEvent x ∧
        ∀ y, (s₁ y).expandedDescendentCountDirty =
          ((s.modify x fun item => { item with children := final }).itemListener x
            y).expandedDescendentCountDirty := by
      refine ⟨_, rfl, fun y => ?_⟩
      rw [updateChildrenParent_field TreeItem.expandedDescendentCountDirty (fun _ _ _ => rfl),
        updateChildrenParent_field TreeItem.expandedDescendentCountDirty (fun _ _ _ => rfl),
        setLeaf_field TreeItem.expandedDescendentCountDirty (fun _ _ => rfl)]
    obtain ⟨s₁, hs₁, hdirty₁⟩ := hlast
    have hparent : (s₁.fireEvent x).parentOf = s₁.parentOf :=
      funext fun y => fireEvent_field TreeItem.parent (fun _ => rfl) s₁ x y
    have hacyclic := htree.acyclic
    rw [hs₁, hparent] at hacyclic
    rw [hs₁, hparent, fireEvent_dirty hacyclic, hdirty₁, itemListener_dirty,
      modify_field TreeItem.expandedDescendentCountDirty (f := fun item => { item with children := final })
        (fun _ => rfl)]
    constructor
    · rintro ((hy | rfl) | hup)
      · exact .inl hy
      · exact .inr (under_refl _)
      · exact .inr hup
    · rintro (hy | hup)
      · exact .inl (.inl hy)
      · exact .inr hup

theorem setExpanded_tree (h : s.Tree) (x : ι) (value : Bool) : (s.setExpanded x value).Tree := by
  have hparent := setExpanded_field TreeItem.parent (fun _ _ => rfl) (fun _ => rfl) s x value
  have hchildren := setExpanded_field TreeItem.children (fun _ _ => rfl) (fun _ => rfl) s x value
  constructor
  · intro y p
    rw [hparent, hchildren, h.links]
  · have heq : (s.setExpanded x value).parentOf = s.parentOf := funext hparent
    rw [heq]
    exact h.acyclic

/-- The event of a changed property. -/
theorem fireEvent_expanded_fresh (h : s.Fresh) (htree : s.Tree) (x : ι)
    (expanded : Option BooleanProperty) :
    ((((s.modify x fun item => { item with expanded := expanded }).isExpanded x).2).fireEvent
      x).Fresh := by
  have hfield : ∀ {α : Type} (g : TreeItem ι → α),
      (∀ item expanded, g { item with expanded := expanded } = g item) → ∀ y,
      g (((s.modify x fun item => { item with expanded := expanded }).isExpanded x).2 y) = g (s y) := by
    intro α g hg y
    rw [isExpanded_field g hg]
    exact modify_field g (fun item => hg item expanded) s x y
  have hother : ∀ y, y ≠ x →
      ((s.modify x fun item => { item with expanded := expanded }).isExpanded x).2 y = s y := by
    intro y hy
    rw [← modify_of_ne s (fun item => { item with expanded := expanded }) hy]
    exact isExpanded_of_ne _ hy
  generalize ((s.modify x fun item => { item with expanded := expanded }).isExpanded x).2 = s₁
    at hfield hother
  have hchildren : ∀ y, (s₁.fireEvent x y).children = (s y).children := fun y => by
    rw [fireEvent_field TreeItem.children (fun _ => rfl), hfield TreeItem.children fun _ _ => rfl]
  have hparent₁ : s₁.parentOf = s.parentOf := funext (hfield TreeItem.parent fun _ _ => rfl)
  have hparent : (s₁.fireEvent x).parentOf = s₁.parentOf :=
    funext fun y => fireEvent_field TreeItem.parent (fun _ => rfl) s₁ x y
  have hacyclic : Acyclic s₁.parentOf := by
    rw [hparent₁]
    exact htree.acyclic
  refine h.told_change (x := x) ⟨fun y p => ?_, ?_⟩ (fun y _ => hchildren y) (fun y hy => ?_)
    (fun y => ?_) (fun y => ?_) fun y => ?_
  · rw [hchildren, ← htree.links, fireEvent_field TreeItem.parent (fun _ => rfl),
      hfield TreeItem.parent fun _ _ => rfl]
  · rwa [hparent]
  · rw [fireEvent_field TreeItem.expanded (fun _ => rfl), hother y hy]
  · rw [hchildren, fireEvent_field TreeItem.isLeaf (fun _ => rfl), ← h.leaf,
      hfield TreeItem.isLeaf fun _ _ => rfl]
  · rw [fireEvent_field TreeItem.expandedDescendentCount (fun _ => rfl),
      hfield TreeItem.expandedDescendentCount fun _ _ => rfl]
  · rw [hparent, fireEvent_dirty hacyclic, hfield TreeItem.expandedDescendentCountDirty fun _ _ => rfl]

/-- A change of an expanded property: an invalid one, and one of a leaf, tell nobody. -/
theorem setExpanded_fresh (h : s.Fresh) (htree : s.Tree) (x : ι) (value : Bool) :
    (s.setExpanded x value).Fresh := by
  unfold setExpanded
  by_cases hnone : value = false ∧ (s x).expanded = none
  · rw [if_pos hnone]
    exact h
  rw [if_neg hnone]
  dsimp only
  generalize hproperty : (s x).expanded.getD ⟨false, true⟩ = property
  by_cases hsame : property.value = value
  · -- then the property was there
    rw [if_pos hsame]
    have hsome : (s x).expanded = some property := by
      cases hexpanded : (s x).expanded with
      | none =>
        rw [hexpanded] at hproperty
        subst hproperty
        exact absurd ⟨hsame.symm, hexpanded⟩ hnone
      | some q =>
        rw [hexpanded] at hproperty
        exact congrArg some hproperty
    have hself : s.modify x (fun item => { item with expanded := some property }) = s := by
      unfold modify
      rw [← hsome]
      exact Function.update_eq_self x s
    rwa [hself]
  rw [if_neg hsame]
  by_cases hvalid : property.valid = true
  · rw [if_pos hvalid]
    unfold invalidated
    have hleaf := modify_field TreeItem.isLeaf
      (f := fun item => { item with expanded := some ⟨value, false⟩ }) (fun _ => rfl) s x x
    rw [hleaf]
    split_ifs with hx
    · exact h.silent_change (.inl ((h.leaf x).mp hx)) _
    · exact fireEvent_expanded_fresh h htree x _
  · rw [if_neg hvalid]
    refine h.silent_change (.inr fun htold => ?_) _
    cases hexpanded : (s x).expanded with
    | none =>
      rw [hexpanded] at hproperty
      subst hproperty
      exact hvalid rfl
    | some q =>
      rw [hexpanded] at hproperty
      subst hproperty
      exact hvalid (htold q hexpanded)

end Changes

/-! ## Runs -/

section Run

variable [DecidableEq ι] [Fintype ι]

/-- The parent links are correct after the call. -/
def Action.KeepsTree (s : TreeItems ι) : Action ι → Prop
  | .changeChildren x final c => (s.changeChildren x final c).Tree
  | _ => True

theorem step_fresh {a : Action ι} (htree : s.Tree) (h : s.Fresh) (ha : a.KeepsTree s) :
    ∃ s', step s a = .ok s' ∧ s'.Tree ∧ s'.Fresh := by
  cases a with
  | changeChildren x final c => exact ⟨_, rfl, ha, changeChildren_fresh h ha⟩
  | setExpanded x value =>
    exact ⟨_, rfl, setExpanded_tree htree x value, setExpanded_fresh h htree x value⟩
  | getExpandedDescendentCount x =>
    have hdepth := htree.acyclic.sinks x
    rw [Nat.card_eq_fintype_card] at hdepth
    obtain ⟨s', hs', hread⟩ := getExpandedDescendentCount_spec _ s x htree h hdepth
    exact ⟨s', by rw [step, hs', ok_bind], hread.reads.tree htree, hread.fresh⟩

/-- A tree of items none of which has been asked for its count. -/
structure Unread (s : TreeItems ι) : Prop where
  tree : s.Tree
  leaf : ∀ x, (s x).isLeaf = true ↔ (s x).children = []
  marked : ∀ x, (s x).expandedDescendentCountDirty = true

omit [DecidableEq ι] in
theorem Unread.fresh (h : s.Unread) : s.Fresh where
  leaf := h.leaf
  count x hx := absurd ((h.marked x).symm.trans hx) (by decide)
  told x hx := absurd ((h.marked x).symm.trans hx) (by decide)
  child x _ hx := absurd ((h.marked x).symm.trans hx) (by decide)

/-- **Counts over runs.** While the parent links are correct, every read in every run
returns the count computed from scratch. -/
theorem treeItem_run_counts {start : TreeItems ι} (hstart : start.Unread)
    {actions : List (Action ι)}
    (hactions : Along step (fun s a => a.KeepsTree s) start actions) :
    ∃ s, run step start actions = .ok s ∧ ∀ x,
      (∃ s', getExpandedDescendentCount false (Fintype.card ι) s x = .ok (s.trueCount x, s')) ∧
      s.trueCount x =
        1 + if (s x).Open then ((s x).children.map fun o => o.elim 0 s.trueCount).sum else 0 := by
  have hstep : ∀ (s : TreeItems ι) (a : Action ι), s.Tree ∧ s.Fresh → a.KeepsTree s →
      ∃ s', step s a = .ok s' ∧ s'.Tree ∧ s'.Fresh :=
    fun s a hs ha => step_fresh hs.1 hs.2 ha
  obtain ⟨s, hs, htree, hfresh⟩ := run_invariant _ hstep ⟨hstart.tree, hstart.fresh⟩ hactions
  refine ⟨s, hs, fun x => ⟨?_, htree.trueCount_eq x⟩⟩
  have hdepth := htree.acyclic.sinks x
  rw [Nat.card_eq_fintype_card] at hdepth
  obtain ⟨s', hs', -⟩ := getExpandedDescendentCount_spec _ s x htree hfresh hdepth
  exact ⟨s', hs'⟩

end Run

/-- A state over three items whose links go down from the first. -/
theorem Tree.of_fin {s : TreeItems (Fin 3)}
    (hlinks : ∀ x p, (s x).parent = some p ↔ some x ∈ (s p).children)
    (hdown : ∀ x p, (s x).parent = some p → p < x) : s.Tree :=
  ⟨hlinks, .of_rank Fin.val hdown⟩

/-- A leaf is expanded, gets a child after its parent was read, and is collapsed again;
the last assignment is one nobody is told of. -/
def leafExpanded : List (Action (Fin 3)) :=
  [splice 0 [] [] [some 1] [], .setExpanded 0 true, .setExpanded 1 true, splice 1 [] [] [some 2] [],
    .setExpanded 1 false]

theorem treeItem_run_counts_leafExpanded :
    ∃ s, run step new leafExpanded = .ok s ∧ ∀ x,
      (∃ s', getExpandedDescendentCount false 3 s x = .ok (s.trueCount x, s')) ∧
      s.trueCount x =
        1 + if (s x).Open then ((s x).children.map fun o => o.elim 0 s.trueCount).sum else 0 := by
  refine treeItem_run_counts ⟨.of_fin (by decide) (by decide), by decide, fun _ => rfl⟩ ?_
  refine (along_cons_ok rfl).mpr ⟨.of_fin (by decide) (by decide), ?_⟩
  refine (along_cons_ok rfl).mpr ⟨trivial, ?_⟩
  refine (along_cons_ok rfl).mpr ⟨trivial, ?_⟩
  refine (along_cons_ok rfl).mpr ⟨.of_fin (by decide) (by decide), ?_⟩
  exact (along_cons_ok rfl).mpr ⟨trivial, along_nil⟩

end TreeItems

end JavaFx.Control
