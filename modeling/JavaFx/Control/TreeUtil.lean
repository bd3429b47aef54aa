/-
`TreeUtil`: the rows of a tree of `TreeItem`s.

The rows under a root are the items that are shown, in pre-order. `getItem` goes down to
the item of a row and skips whole subtrees by their counts; `getRow` goes up from an item
and adds the counts of what stands before it. Both read counts on their way, and a read
changes what is cached, so a call hands on a state.

`treeItemCountDirty` makes every count be computed again. The index that `getItem` is
given is not negative; its callers see to that.
-/
import JavaFx.Control.TreeItemCounts

set_option autoImplicit false

namespace JavaFx.Control

open JavaFx.Lib

/-! ## The rows -/

namespace TreeItems

variable {ι : Type} {s s' : TreeItems ι} {x y root : ι}

/-- The items shown at and under an item, down to a depth. -/
def shownFrom (s : TreeItems ι) : (depth : ℕ) → ι → List ι
  | 0, _ => []
  | depth + 1, x =>
    x :: if (s x).Open then (s x).children.flatMap fun o => o.elim [] (shownFrom s depth) else []

/-- The items shown at and under an item. -/
def shown [Fintype ι] (s : TreeItems ι) (x : ι) : List ι := s.shownFrom (Fintype.card ι) x

/-- The rows of children. -/
def shownIn [Fintype ι] (s : TreeItems ι) (children : List (Option ι)) : List ι :=
  children.flatMap fun o => o.elim [] s.shown

theorem length_shownFrom (s : TreeItems ι) (depth : ℕ) (x : ι) :
    (s.shownFrom depth x).length = s.countFrom depth x := by
  induction depth generalizing x with
  | zero => rfl
  | succ depth ih =>
    rw [shownFrom, countFrom, List.length_cons, Nat.add_comm]
    congr 1
    split_ifs
    · rw [List.length_flatMap]
      congr 1
      refine List.map_congr_left fun o _ => ?_
      cases o with
      | none => rfl
      | some c => exact ih c
    · rfl

theorem length_shown [Fintype ι] (s : TreeItems ι) (x : ι) :
    (s.shown x).length = s.trueCount x :=
  length_shownFrom s _ x

theorem Tree.shownFrom_stable (h : s.Tree) (depth : ℕ) (x : ι)
    (hdepth : Sinks s.parentOf depth x) :
    s.shownFrom (depth + 1) x = s.shownFrom depth x := by
  induction depth generalizing x with
  | zero => exact hdepth.elim
  | succ depth ih =>
    rw [shownFrom.eq_def s (depth + 1 + 1), shownFrom.eq_def s (depth + 1)]
    dsimp only
    split_ifs
    · congr 1
      refine List.flatMap_congr fun o ho => ?_
      cases o with
      | none => rfl
      | some c => exact ih c (hdepth c ((h.links c x).mpr ho))
    · rfl

theorem Tree.shown_eq [Fintype ι] (h : s.Tree) (x : ι) :
    s.shown x = x :: if (s x).Open then s.shownIn (s x).children else [] := by
  have hdepth := h.acyclic.sinks x
  rw [Nat.card_eq_fintype_card] at hdepth
  rw [shown, ← h.shownFrom_stable _ x hdepth, shownFrom]
  rfl

theorem Tree.shown_of_not_open [Fintype ι] (h : s.Tree) (hx : ¬(s x).Open) : s.shown x = [x] := by
  rw [h.shown_eq, if_neg hx]

/-- What is shown under a root hangs from an open item that is shown. -/
theorem Tree.parent_of_mem_shown [Fintype ι] (h : s.Tree) (hx : x ∈ s.shown root) :
    x = root ∨ ∃ p, (s x).parent = some p ∧ (s p).Open ∧ p ∈ s.shown root := by
  unfold shown at hx ⊢
  generalize Fintype.card ι = depth at hx ⊢
  induction depth generalizing root with
  | zero => exact absurd hx List.not_mem_nil
  | succ depth ih =>
    rw [shownFrom] at hx ⊢
    rcases List.mem_cons.mp hx with rfl | hbelow
    · exact .inl rfl
    · split_ifs at hbelow with hopen
      · rw [if_pos hopen]
        obtain ⟨o, ho, hmem⟩ := List.mem_flatMap.mp hbelow
        cases o with
        | none => exact absurd hmem List.not_mem_nil
        | some c =>
          rcases ih hmem with rfl | ⟨p, hp, hpopen, hpmem⟩
          · exact .inr ⟨root, (h.links x root).mpr ho, hopen, List.mem_cons_self⟩
          · exact .inr ⟨p, hp, hpopen,
              List.mem_cons_of_mem _ (List.mem_flatMap.mpr ⟨some c, ho, hpmem⟩)⟩
      · exact absurd hbelow List.not_mem_nil

/-- The rows of a child stand among those of its parent. -/
theorem Tree.shown_child [Fintype ι] (h : s.Tree) {p : ι} {before after : List (Option ι)}
    (hchildren : (s p).children = before ++ some x :: after)
    (hopen : (s p).Open) :
    s.shown p = p :: (s.shownIn before ++ (s.shown x ++ s.shownIn after)) := by
  rw [h.shown_eq, if_pos hopen, hchildren, shownIn, List.flatMap_append, List.flatMap_cons]
  rfl

/-! ## Counting again -/

section Reset

variable [DecidableEq ι] [Fintype ι]

/-- The marks of leaves are right. -/
def LeavesRight (s : TreeItems ι) : Prop := ∀ y, (s y).isLeaf = true ↔ (s y).children = []

omit [DecidableEq ι] [Fintype ι] in
theorem Reads.leavesRight (h : Reads s s') (hleaf : s.LeavesRight) : s'.LeavesRight := by
  intro y
  unfold TreeItem.isLeaf
  rw [h.leaf, h.children]
  exact hleaf y

/-- One turn of the loop, if the call for a child counts from scratch. -/
theorem addChildCount_reset {count : TreeItems ι → ι → Except TreeError (ℕ × TreeItems ι)}
    (htree : s.Tree) {o : Option ι}
    (hcount : ∀ c, o = some c → ∀ s₁, Reads s s₁ →
      ∃ s₂, count s₁ c = .ok (s.trueCount c, s₂) ∧ Reads s s₂)
    {s₁ : TreeItems ι} (h : Reads s s₁) :
    ∃ s₂, addChildCount count x s₁ o = .ok s₂ ∧ Reads s s₂ ∧
      (s₂ x).expandedDescendentCount =
        (s₁ x).expandedDescendentCount + o.elim 0 s.trueCount := by
  cases o with
  | none => exact ⟨s₁, rfl, h, rfl⟩
  | some c =>
    have hread := h.trans (isExpanded_reads s₁ c)
    have hone : ∃ s₂, (if (s₁.isExpanded c).1 then count (s₁.isExpanded c).2 c
        else .ok (1, (s₁.isExpanded c).2)) = .ok (s.trueCount c, s₂) ∧ Reads s s₂ := by
      rw [isExpanded_fst, h.value]
      split_ifs with hvalue
      · exact hcount c rfl _ hread
      · exact ⟨_, by rw [trueCount_of_not_open htree fun hc => hvalue hc.1], hread⟩
    obtain ⟨s₂, hs₂, h₂⟩ := hone
    refine ⟨_, ?_, h₂.trans (reads_setCount s₂ x
      (fun _ => (s₁ x).expandedDescendentCount + s.trueCount c)
      TreeItem.previousExpandedDescendentCount), by rw [modify_self]; rfl⟩
    rw [addChildCount]
    dsimp only
    rw [hs₂]
    rfl

theorem foldlM_addChildCount_reset
    {count : TreeItems ι → ι → Except TreeError (ℕ × TreeItems ι)} (htree : s.Tree)
    (children : List (Option ι))
    (hcount : ∀ c, some c ∈ children → ∀ s₁, Reads s s₁ →
      ∃ s₂, count s₁ c = .ok (s.trueCount c, s₂) ∧ Reads s s₂)
    {s₁ : TreeItems ι} (h : Reads s s₁) :
    ∃ s₂, children.foldlM (addChildCount count x) s₁ = .ok s₂ ∧ Reads s s₂ ∧
      (s₂ x).expandedDescendentCount = (s₁ x).expandedDescendentCount +
        (children.map fun o => o.elim 0 s.trueCount).sum := by
  induction children generalizing s₁ with
  | nil => exact ⟨s₁, rfl, h, rfl⟩
  | cons o children ih =>
    obtain ⟨s₂, hs₂, h₂, hadded⟩ := addChildCount_reset (x := x) htree
      (fun c hc => hcount c (hc ▸ List.mem_cons_self)) h
    obtain ⟨s₃, hs₃, h₃, hsum⟩ := ih (fun c hc => hcount c (List.mem_cons_of_mem _ hc)) h₂
    refine ⟨s₃, ?_, h₃, ?_⟩
    · rw [List.foldlM_cons, hs₂]
      exact hs₃
    · rw [hsum, hadded, List.map_cons, List.sum_cons, Nat.add_assoc]

/-- With `reset` every count is computed from scratch, whatever is cached. -/
theorem getExpandedDescendentCount_reset (fuel : ℕ) (s : TreeItems ι) (x : ι) (htree : s.Tree)
    (hleaf : s.LeavesRight) (hfuel : Sinks s.parentOf fuel x) :
    ∃ s', getExpandedDescendentCount true fuel s x = .ok (s.trueCount x, s') ∧ Reads s s' := by
  induction fuel generalizing s x with
  | zero => exact hfuel.elim
  | succ fuel ih =>
    have hbegin : Reads s (s.modify x fun item => { item with
        previousExpandedDescendentCount := item.expandedDescendentCount
        expandedDescendentCount := 1 }) :=
      reads_setCount s x (fun _ => 1) TreeItem.expandedDescendentCount
    have hupdate : ∃ s₁, s.updateExpandedDescendentCount (getExpandedDescendentCount true fuel) x
        = .ok s₁ ∧ Reads s s₁ ∧ (s₁ x).expandedDescendentCount = s.trueCount x := by
      unfold updateExpandedDescendentCount
      dsimp only
      generalize hs₀ : (s.modify x fun item => { item with
        previousExpandedDescendentCount := item.expandedDescendentCount
        expandedDescendentCount := 1 }) = s₀ at hbegin ⊢
      have hone : (s₀ x).expandedDescendentCount = 1 := by rw [← hs₀, modify_self]
      have hread := hbegin.trans (isExpanded_reads s₀ x)
      have hone' : ((s₀.isExpanded x).2 x).expandedDescendentCount = 1 := by
        rw [isExpanded_field TreeItem.expandedDescendentCount (fun _ _ => rfl), hone]
      split_ifs with hleaf₀ hvalue
      · have hnil := (hbegin.leavesRight hleaf x).mp hleaf₀
        rw [hbegin.children] at hnil
        exact ⟨s₀, rfl, hbegin, by
          rw [hone, trueCount_of_not_open htree fun hopen => hopen.2 hnil]⟩
      · rw [isExpanded_fst, hbegin.value] at hvalue
        have hne : (s x).children ≠ [] := by
          rw [← hbegin.children]
          exact fun hnil => hleaf₀ ((hbegin.leavesRight hleaf x).mpr hnil)
        have hcount : ∀ c, some c ∈ ((s₀.isExpanded x).2 x).children → ∀ s₁, Reads s s₁ →
            ∃ s₂, getExpandedDescendentCount true fuel s₁ c = .ok (s.trueCount c, s₂) ∧
              Reads s s₂ := by
          intro c hc s₁ h₁
          rw [hread.children] at hc
          obtain ⟨s₂, hs₂, h₂⟩ := ih s₁ c (h₁.tree htree) (h₁.leavesRight hleaf) (by
            rw [h₁.parentOf]
            exact hfuel c ((htree.links c x).mpr hc))
          exact ⟨s₂, by rw [hs₂, h₁.trueCount], h₁.trans h₂⟩
        obtain ⟨s₂, hs₂, h₂, hsum⟩ := foldlM_addChildCount_reset (x := x) htree _ hcount hread
        refine ⟨s₂, hs₂, h₂, ?_⟩
        rw [hsum, hone', hread.children, htree.trueCount_eq, if_pos ⟨hvalue, hne⟩]
      · rw [isExpanded_fst, hbegin.value] at hvalue
        exact ⟨_, rfl, hread, by
          rw [hone', trueCount_of_not_open htree fun hopen => hvalue hopen.1]⟩
    obtain ⟨s₁, hs₁, h₁, hcount⟩ := hupdate
    unfold getExpandedDescendentCount
    rw [if_pos (.inl rfl), hs₁, ok_bind]
    refine ⟨_, by dsimp only; rw [modify_self, hcount], h₁.trans ?_⟩
    exact reads_modify s₁ x (fun _ => rfl) (fun _ => rfl) (fun _ => rfl) rfl (fun _ => rfl) id

end Reset

end TreeItems

/-! ## `TreeUtil` -/

namespace TreeUtil

open TreeItems

/-- What a call may throw. -/
inductive Exn
  | tree (e : TreeError)
  | nullPointer

variable {ι : Type} [DecidableEq ι] [Fintype ι]

def getExpandedDescendantCount (treeItemCountDirty : Bool) (s : TreeItems ι) (node : ι) :
    Except Exn (ℕ × TreeItems ι) :=
  if (s node).isLeaf then .ok (1, s)
  else (getExpandedDescendentCount treeItemCountDirty (Fintype.card ι) s node).mapError .tree

/-- The loop of `getItem`; `getItem` is the call for a child. -/
def getItemIn (treeItemCountDirty : Bool) (getItem : TreeItems ι → ι → ℕ → Except Exn (Option ι × TreeItems ι)) :
    List (Option ι) → TreeItems ι → (idx : ℕ) → Except Exn (Option ι × TreeItems ι)
  | [], s, _ => .ok (none, s)
  | child :: _, s, 0 => .ok (child, s)
  | none :: _, _, _ + 1 => .error .nullPointer
  | some child :: children, s, idx + 1 => do
    let (expanded, s) := if (s child).isLeaf then (false, s) else s.isExpanded child
    if expanded then
      let (expandedChildCount, s) ← getExpandedDescendantCount treeItemCountDirty s child
      if expandedChildCount ≤ idx + 1 then
        getItemIn treeItemCountDirty getItem children s (idx + 1 - expandedChildCount)
      else
        let (result, s) ← getItem s child (idx + 1)
        match result with
        | some item => .ok (some item, s)
        | none => getItemIn treeItemCountDirty getItem children s idx
    else getItemIn treeItemCountDirty getItem children s idx

def getItem (treeItemCountDirty : Bool) :
    (fuel : ℕ) → TreeItems ι → (parent : ι) → (itemIndex : ℕ) → Except Exn (Option ι × TreeItems ι)
  | 0, _, _, _ => .error (.tree .stackOverflow)
  | _ + 1, s, parent, 0 => .ok (some parent, s)
  | fuel + 1, s, parent, idx + 1 => do
    let (count, s) ← getExpandedDescendantCount treeItemCountDirty s parent
    if count ≤ idx + 1 then .ok (none, s)
    else getItemIn treeItemCountDirty (getItem treeItemCountDirty fuel) (s parent).children s idx

/-- The loop of `getRow` over the siblings before an item, the nearest first; the answer is
the number of rows, or one that the method returns at once. -/
def addSiblings (treeItemCountDirty isShowRoot : Bool) (root : ι) :
    List (Option ι) → TreeItems ι → (row : ℕ) → Except Exn ((ℕ ⊕ ℤ) × TreeItems ι)
  | [], s, row => .ok (.inl row, s)
  | none :: siblings, s, row => addSiblings treeItemCountDirty isShowRoot root siblings s row
  | some sibling :: siblings, s, row => do
    let (count, s) ← getExpandedDescendantCount treeItemCountDirty s sibling
    if sibling = root then .ok (.inr (if isShowRoot then row + count else -1), s)
    else addSiblings treeItemCountDirty isShowRoot root siblings s (row + count)

/-- What `getRow` returns after its loop. -/
def rowOf (isShowRoot : Bool) (p : Option ι) (row : ℕ) : ℤ :=
  if p = none ∧ row = 0 then -1 else if isShowRoot then row else row - 1

/-- The outer loop of `getRow`. -/
def climb (treeItemCountDirty isShowRoot : Bool) (root : ι) :
    (fuel : ℕ) → TreeItems ι → (i : ι) → (row : ℕ) → Except Exn (ℤ × TreeItems ι)
  | 0, _, _, _ => .error (.tree .stackOverflow)
  | fuel + 1, s, i, row =>
    if i = root then .ok (rowOf isShowRoot (s i).parent row, s)
    else
      match (s i).parent with
      | none => .ok (rowOf isShowRoot (s i).parent row, s)
      | some p => do
        let (expanded, s) := s.isExpanded p
        if expanded then
          -- `indexOf`, and from there to the front
          let before := ((s p).children.takeWhile (· ≠ some i)).reverse
          let (rows, s) ← addSiblings treeItemCountDirty isShowRoot root before s row
          match rows with
          | .inl row => climb treeItemCountDirty isShowRoot root fuel s p (row + 1)
          | .inr row => .ok (row, s)
        else .ok (-1, s)

def getRow (treeItemCountDirty isShowRoot : Bool) (s : TreeItems ι) (item root : ι) : Except Exn (ℤ × TreeItems ι) :=
  if isShowRoot = true ∧ item = root then .ok (0, s)
  else climb treeItemCountDirty isShowRoot root (Fintype.card ι) s item 0

/-! ## What the calls need and keep -/

/-- The links, the leaves and, if they are used, the cached counts are right. -/
structure Ready (treeItemCountDirty : Bool) (s : TreeItems ι) : Prop where
  tree : s.Tree
  leaf : s.LeavesRight
  fresh : treeItemCountDirty = false → s.Fresh

/-- The state after some reads. -/
structure Kept (treeItemCountDirty : Bool) (s s' : TreeItems ι) : Prop where
  reads : Reads s s'
  ready : Ready treeItemCountDirty s'

variable {treeItemCountDirty isShowRoot : Bool} {s s₁ : TreeItems ι} {x root : ι}

omit [DecidableEq ι] in
theorem Ready.kept (h : Ready treeItemCountDirty s) : Kept treeItemCountDirty s s :=
  ⟨Reads.refl s, h⟩

theorem Kept.isExpanded (h : Kept treeItemCountDirty s s₁) (x : ι) :
    Kept treeItemCountDirty s (s₁.isExpanded x).2 := by
  have hreads := isExpanded_reads s₁ x
  exact ⟨h.reads.trans hreads, hreads.tree h.ready.tree, hreads.leavesRight h.ready.leaf,
    fun hd => (h.ready.fresh hd).isExpanded x⟩

theorem Kept.getExpandedDescendantCount (h : Kept treeItemCountDirty s s₁) (x : ι) :
    ∃ s₂, getExpandedDescendantCount treeItemCountDirty s₁ x = .ok (s.trueCount x, s₂) ∧
      Kept treeItemCountDirty s s₂ := by
  unfold TreeUtil.getExpandedDescendantCount
  rw [← h.reads.trueCount]
  split_ifs with hleaf
  · have hnil := (h.ready.leaf x).mp hleaf
    exact ⟨s₁, by rw [trueCount_of_not_open h.ready.tree fun hopen => hopen.2 hnil], h⟩
  · have hdepth := h.ready.tree.acyclic.sinks x
    rw [Nat.card_eq_fintype_card] at hdepth
    cases treeItemCountDirty with
    | false =>
      obtain ⟨s₂, hs₂, hread⟩ :=
        getExpandedDescendentCount_spec _ s₁ x h.ready.tree (h.ready.fresh rfl) hdepth
      exact ⟨s₂, by rw [hs₂]; rfl, h.reads.trans hread.reads, hread.reads.tree h.ready.tree,
        hread.reads.leavesRight h.ready.leaf, fun _ => hread.fresh⟩
    | true =>
      obtain ⟨s₂, hs₂, hreads⟩ :=
        getExpandedDescendentCount_reset _ s₁ x h.ready.tree h.ready.leaf hdepth
      exact ⟨s₂, by rw [hs₂]; rfl, h.reads.trans hreads, hreads.tree h.ready.tree,
        hreads.leavesRight h.ready.leaf, fun hd => absurd hd (by decide)⟩

/-- Is a child expanded, and no leaf? -/
theorem Kept.asked (h : Kept treeItemCountDirty s s₁) (x : ι) :
    ∃ s₂, (if (s₁ x).isLeaf then (false, s₁) else s₁.isExpanded x) =
      (decide (s x).Open, s₂) ∧ Kept treeItemCountDirty s s₂ := by
  have hopen : (s x).Open ↔ (s₁ x).Open := (h.reads.open_iff x).symm
  split_ifs with hleaf
  · refine ⟨s₁, ?_, h⟩
    rw [decide_eq_false fun hx => (hopen.mp hx).2 ((h.ready.leaf x).mp hleaf)]
  · refine ⟨_, Prod.ext ?_ rfl, h.isExpanded x⟩
    rw [isExpanded_fst, Bool.eq_iff_iff, decide_eq_true_iff, hopen]
    exact ⟨fun hx => ⟨hx, fun hnil => hleaf ((h.ready.leaf x).mpr hnil)⟩, fun hx => hx.1⟩

/-! ## `getItem` -/

theorem Kept.getItemIn (hready : Ready treeItemCountDirty s)
    {getItem : TreeItems ι → ι → ℕ → Except Exn (Option ι × TreeItems ι)}
    (children : List (Option ι)) (hnull : none ∉ children)
    (hget : ∀ c, some c ∈ children → ∀ s₁ i, Kept treeItemCountDirty s s₁ →
      ∃ s₂, getItem s₁ c i = .ok ((s.shown c)[i]?, s₂) ∧ Kept treeItemCountDirty s s₂)
    (h : Kept treeItemCountDirty s s₁) (idx : ℕ) :
    ∃ s₂, getItemIn treeItemCountDirty getItem children s₁ idx =
      .ok ((s.shownIn children)[idx]?, s₂) ∧ Kept treeItemCountDirty s s₂ := by
  induction children generalizing s₁ idx with
  | nil => exact ⟨s₁, rfl, h⟩
  | cons o children ih =>
    cases o with
    | none => exact absurd List.mem_cons_self hnull
    | some child =>
      have ih : ∀ t, Kept treeItemCountDirty s t → ∀ idx, ∃ s₂,
          getItemIn treeItemCountDirty getItem children t idx =
            .ok ((s.shownIn children)[idx]?, s₂) ∧ Kept treeItemCountDirty s s₂ :=
        fun _ h idx => ih (List.not_mem_of_not_mem_cons hnull)
          (fun c hc => hget c (List.mem_cons_of_mem _ hc)) h idx
      have hrows : s.shownIn (some child :: children) = s.shown child ++ s.shownIn children :=
        List.flatMap_cons
      rw [hrows]
      cases idx with
      | zero =>
        refine ⟨s₁, ?_, h⟩
        rw [hready.tree.shown_eq]
        rfl
      | succ idx =>
        obtain ⟨s₂, hs₂, h₂⟩ := h.asked child
        rw [TreeUtil.getItemIn, hs₂]
        dsimp only
        by_cases hopen : (s child).Open
        · obtain ⟨s₃, hs₃, h₃⟩ := h₂.getExpandedDescendantCount child
          rw [if_pos (decide_eq_true hopen), hs₃, ok_bind]
          dsimp only
          rw [← length_shown]
          by_cases hskip : (s.shown child).length ≤ idx + 1
          · rw [if_pos hskip, List.getElem?_append_right hskip]
            exact ih _ h₃ _
          · -- the row is one of the child's, so its call finds an item
            have hlt := not_le.mp hskip
            obtain ⟨s₄, hs₄, h₄⟩ := hget child List.mem_cons_self s₃ (idx + 1) h₃
            rw [if_neg hskip, hs₄, ok_bind, List.getElem?_append_left hlt,
              List.getElem?_eq_getElem hlt]
            exact ⟨s₄, rfl, h₄⟩
        · rw [if_neg (by simpa using hopen), hready.tree.shown_of_not_open hopen]
          exact ih _ h₂ _

/-- `getItem` gives the item of a row. -/
theorem Kept.getItem (hready : Ready treeItemCountDirty s) (hnull : ∀ y, none ∉ (s y).children)
    {fuel : ℕ} (hfuel : Sinks s.parentOf fuel x) (h : Kept treeItemCountDirty s s₁) (i : ℕ) :
    ∃ s₂, getItem treeItemCountDirty fuel s₁ x i = .ok ((s.shown x)[i]?, s₂) ∧
      Kept treeItemCountDirty s s₂ := by
  induction fuel generalizing x s₁ i with
  | zero => exact hfuel.elim
  | succ fuel ih =>
    cases i with
    | zero =>
      refine ⟨s₁, ?_, h⟩
      rw [hready.tree.shown_eq]
      rfl
    | succ idx =>
      obtain ⟨s₂, hs₂, h₂⟩ := h.getExpandedDescendantCount x
      rw [TreeUtil.getItem, hs₂, ok_bind]
      dsimp only
      rw [← length_shown]
      by_cases hout : (s.shown x).length ≤ idx + 1
      · rw [if_pos hout, List.getElem?_eq_none hout]
        exact ⟨s₂, rfl, h₂⟩
      · have hopen : (s x).Open := by
          by_contra hclosed
          rw [hready.tree.shown_of_not_open hclosed] at hout
          exact hout (Nat.succ_le_succ (Nat.zero_le idx))
        rw [if_neg hout, h₂.reads.children, hready.tree.shown_eq, if_pos hopen,
          List.getElem?_cons_succ]
        exact h₂.getItemIn hready _ (hnull x)
          (fun c hc s₃ i h₃ => ih (hfuel c ((hready.tree.links c x).mpr hc)) h₃ i) idx

/-! ## `getRow` -/

theorem Kept.addSiblings (isShowRoot : Bool) (siblings : List (Option ι)) (hroot : some root ∉ siblings)
    (h : Kept treeItemCountDirty s s₁) (row : ℕ) :
    ∃ s₂, addSiblings treeItemCountDirty isShowRoot root siblings s₁ row =
      .ok (.inl (row + (s.shownIn siblings).length), s₂) ∧ Kept treeItemCountDirty s s₂ := by
  induction siblings generalizing s₁ row with
  | nil => exact ⟨s₁, rfl, h⟩
  | cons o siblings ih =>
    have hrest := List.not_mem_of_not_mem_cons hroot
    cases o with
    | none => exact ih hrest h row
    | some sibling =>
      have hne : sibling ≠ root := fun heq => hroot (heq ▸ List.mem_cons_self)
      obtain ⟨s₂, hs₂, h₂⟩ := h.getExpandedDescendantCount sibling
      obtain ⟨s₃, hs₃, h₃⟩ := ih hrest h₂ (row + s.trueCount sibling)
      refine ⟨s₃, ?_, h₃⟩
      rw [TreeUtil.addSiblings, hs₂, ok_bind]
      dsimp only
      rw [if_neg hne, hs₃, ← length_shown, shownIn, shownIn, List.flatMap_cons,
        List.length_append, Nat.add_assoc]
      rfl

omit [DecidableEq ι] in
theorem length_shownIn_reverse (s : TreeItems ι) (children : List (Option ι)) :
    (s.shownIn children.reverse).length = (s.shownIn children).length :=
  ((List.reverse_perm children).flatMap_right _).length_eq

/-- What stands before the first occurrence. -/
theorem exists_split {α : Type} [DecidableEq α] {a : α} {l : List α} (h : a ∈ l) :
    ∃ after, l = l.takeWhile (· ≠ a) ++ a :: after := by
  induction l with
  | nil => exact absurd h List.not_mem_nil
  | cons b l ih =>
    by_cases hb : b = a
    · exact ⟨l, by rw [List.takeWhile_cons_of_neg (by simpa using hb), hb]; rfl⟩
    · obtain ⟨after, hafter⟩ := ih ((List.mem_cons.mp h).resolve_left (Ne.symm hb))
      exact ⟨after, by rw [List.takeWhile_cons_of_pos (by simpa using hb), List.cons_append, ← hafter]⟩

/-- What `getRow` says of an item: its row, or that it is not shown. -/
def Answers (s : TreeItems ι) (isShowRoot : Bool) (root x : ι) (r : ℤ) : Prop :=
  (∃ n : ℕ, (s.shown root)[n]? = some x ∧ r = n - if isShowRoot then 0 else 1) ∨
    x ∉ s.shown root ∧ r = -1

theorem Kept.climb (hready : Ready treeItemCountDirty s) {fuel : ℕ} {i : ι} {row : ℕ}
    (hfuel : Rises s.parentOf fuel i) (hunder : Under s.parentOf i root)
    (hrow : (s.shown i)[row]? = some x) (hback : x ∈ s.shown root → i ∈ s.shown root)
    (hitem : isShowRoot = true → x ≠ root) (h : Kept treeItemCountDirty s s₁) :
    ∃ r s₂, climb treeItemCountDirty isShowRoot root fuel s₁ i row = .ok (r, s₂) ∧
      Kept treeItemCountDirty s s₂ ∧ Answers s isShowRoot root x r := by
  induction fuel generalizing s₁ i row with
  | zero => exact hfuel.elim
  | succ fuel ih =>
    rw [TreeUtil.climb]
    by_cases hi : i = root
    · rw [if_pos hi]
      subst hi
      refine ⟨_, s₁, rfl, h, .inl ⟨row, hrow, ?_⟩⟩
      unfold rowOf
      split_ifs with hnone hshow
      · -- the root itself has a row only if it is shown
        rw [hnone.2, hready.tree.shown_eq] at hrow
        exact absurd (Option.some.inj hrow).symm (hitem hshow)
      · rw [hnone.2]
        rfl
      · exact (sub_zero _).symm
      · rfl
    · rcases hunder.cases_head with heq | ⟨p, hp, hunder⟩
      · exact absurd heq hi
      have hp : (s i).parent = some p := hp
      have hmem : some i ∈ (s p).children := (hready.tree.links i p).mp hp
      have h₂ := h.isExpanded p
      rw [if_neg hi, h.reads.parent, hp]
      dsimp only
      rw [isExpanded_fst, h.reads.value, h₂.reads.children]
      by_cases hopen : (s p).expandedValue = true
      · rw [if_pos hopen]
        obtain ⟨after, hsplit⟩ := exists_split hmem
        have hroot : some root ∉ ((s p).children.takeWhile (· ≠ some i)).reverse := by
          rw [List.mem_reverse]
          intro hmem
          have hchild := (hready.tree.links root p).mpr (List.takeWhile_subset _ hmem)
          exact hready.tree.acyclic root p hchild hunder
        obtain ⟨s₃, hs₃, h₃⟩ := h₂.addSiblings isShowRoot _ hroot row
        rw [hs₃, ok_bind]
        refine ih (hfuel p hp) hunder ?_ (fun hx => ?_) h₃
        · have hlt := (List.getElem?_eq_some_iff.mp hrow).1
          rw [hready.tree.shown_child hsplit ⟨hopen, List.ne_nil_of_mem hmem⟩,
            List.getElem?_cons_succ, length_shownIn_reverse,
            List.getElem?_append_right (Nat.le_add_left _ _), Nat.add_sub_cancel,
            List.getElem?_append_left hlt]
          exact hrow
        · rcases hready.tree.parent_of_mem_shown (hback hx) with heq | ⟨q, hq, -, hmemq⟩
          · exact absurd heq hi
          · rw [hp, Option.some_inj] at hq
            exact hq ▸ hmemq
      · rw [if_neg hopen]
        refine ⟨_, _, rfl, h₂, .inr ⟨fun hx => ?_, rfl⟩⟩
        rcases hready.tree.parent_of_mem_shown (hback hx) with heq | ⟨q, hq, hqopen, -⟩
        · exact hi heq
        · rw [hp, Option.some_inj] at hq
          exact hopen (hq ▸ hqopen.1)

theorem Kept.getRow (hready : Ready treeItemCountDirty s) (hunder : Under s.parentOf x root)
    (h : Kept treeItemCountDirty s s₁) :
    ∃ r s₂, getRow treeItemCountDirty isShowRoot s₁ x root = .ok (r, s₂) ∧
      Kept treeItemCountDirty s s₂ ∧ Answers s isShowRoot root x r := by
  unfold TreeUtil.getRow
  by_cases hitem : isShowRoot = true ∧ x = root
  · rw [if_pos hitem]
    refine ⟨0, s₁, rfl, h, .inl ⟨0, ?_, ?_⟩⟩
    · rw [hready.tree.shown_eq, hitem.2]
      rfl
    · rw [if_pos hitem.1]
      rfl
  · have hheight := hready.tree.acyclic.rises x
    rw [Nat.card_eq_fintype_card] at hheight
    rw [if_neg hitem]
    refine Kept.climb hready hheight hunder ?_ id (fun hshow heq => hitem ⟨hshow, heq⟩) h
    rw [hready.tree.shown_eq]
    rfl

/-- The two directions are inverse under every root. -/
def RowsRight (s : TreeItems ι) : Prop :=
  ∀ (treeItemCountDirty isShowRoot : Bool) (root : ι),
    (∀ i, ∃ s', getItem treeItemCountDirty (Fintype.card ι) s root i =
      .ok ((s.shown root)[i]?, s')) ∧
    ∀ x, Under s.parentOf x root →
      ∃ r s', getRow treeItemCountDirty isShowRoot s x root = .ok (r, s') ∧
        if x ∈ s.shown root then
          ∃ (n : ℕ) (s'' : TreeItems ι), r = n - (if isShowRoot then 0 else 1) ∧
            getItem treeItemCountDirty (Fintype.card ι) s' root n = .ok (some x, s'')
        else r = -1

end TreeUtil

end JavaFx.Control
