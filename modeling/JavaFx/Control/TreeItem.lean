/-
`TreeItem`: the items of a tree, their parents and their cached counts.

The items are the elements of a finite type, and a state gives each of them its
fields. A list of children may hold `null` and, for a while, one item twice. A
change of a list comes as the list afterwards with the `Change` that its listener
is handed; `updateChildren` keeps the parents by it, and a counter of links that is
there for the items that occur twice.

Sorting is one more change of a list. Values, graphics and the handlers an
application adds are left out, and so are `lastComparator` and `ignoreSortUpdate`:
without a comparator `getChildren` is the list.
-/
import Mathlib.Algebra.BigOperators.Group.Finset.Basic
import Mathlib.Algebra.Order.BigOperators.Group.Finset
import JavaFx.Collections.ListChange
import JavaFx.Lib.Run

set_option autoImplicit false

namespace JavaFx.Control

open JavaFx.Lib JavaFx.ListChange

/-! ## The fields -/

/-- `BooleanPropertyBase`, not bound. -/
structure BooleanProperty where
  value : Bool
  valid : Bool
deriving DecidableEq, Repr

structure TreeItem (ι : Type) where
  children : List (Option ι)
  parent : Option ι
  parentLinkCount : ℤ
  leaf : Option Bool
  expanded : Option BooleanProperty
  expandedDescendentCount : ℕ
  previousExpandedDescendentCount : ℕ
  expandedDescendentCountDirty : Bool

/-- The constructor. -/
def TreeItem.new {ι : Type} : TreeItem ι := ⟨[], none, 0, none, none, 1, 1, true⟩

/-- `isLeaf`. -/
def TreeItem.isLeaf {ι : Type} (item : TreeItem ι) : Bool := item.leaf.getD true

/-- All items of a program. -/
abbrev TreeItems (ι : Type) := ι → TreeItem ι

/-- What a call may throw. -/
inductive TreeError
  | stackOverflow
deriving DecidableEq, Repr

namespace TreeItems

variable {ι : Type} [DecidableEq ι]

/-- All items are new. -/
def new : TreeItems ι := fun _ => TreeItem.new

/-- An assignment to fields of one item. -/
def modify (s : TreeItems ι) (x : ι) (f : TreeItem ι → TreeItem ι) : TreeItems ι :=
  Function.update s x (f (s x))

@[simp] theorem modify_self (s : TreeItems ι) (x : ι) (f : TreeItem ι → TreeItem ι) :
    s.modify x f x = f (s x) := Function.update_self ..

theorem modify_of_ne (s : TreeItems ι) {x y : ι} (f : TreeItem ι → TreeItem ι) (h : y ≠ x) :
    s.modify x f y = s y := Function.update_of_ne h ..

/-- A field that the assignment leaves alone. -/
theorem modify_field {α : Type} (g : TreeItem ι → α) {f : TreeItem ι → TreeItem ι}
    (hf : ∀ item, g (f item) = g item) (s : TreeItems ι) (x y : ι) :
    g (s.modify x f y) = g (s y) := by
  by_cases h : y = x
  · rw [h, modify_self, hf]
  · rw [modify_of_ne s f h]

/-! ## Events -/

/-- `buildEventDispatchChain`, the root first; no chain when the parents go round. -/
def buildEventDispatchChain (s : TreeItems ι) : (fuel : ℕ) → ι → Option (List ι)
  | 0, _ => none
  | fuel + 1, x =>
    match (s x).parent with
    | some p => (buildEventDispatchChain s fuel p).map (· ++ [x])
    | none => some [x]

/-- `itemListener`. -/
def itemListener (s : TreeItems ι) (x : ι) : TreeItems ι :=
  s.modify x fun item => { item with expandedDescendentCountDirty := true }

/-- `fireEvent` with an event of a type under `expandedItemCountChangeEvent()`: the
handlers of the chain run from its end. The error of a chain without an end comes
before any of them and changes no field. -/
def fireEvent [Fintype ι] (s : TreeItems ι) (x : ι) : TreeItems ι :=
  match s.buildEventDispatchChain (Fintype.card ι) x with
  | some chain => chain.foldr (fun y s => s.itemListener y) s
  | none => s

/-! ## Children and parents -/

def setParent (s : TreeItems ι) (x : ι) (value : Option ι) : TreeItems ι :=
  s.modify x fun item => { item with parent := value }

def setLeaf (s : TreeItems ι) (x : ι) (value : Bool) : TreeItems ι :=
  if value = true ∧ (s x).leaf = none then s
  else s.modify x fun item => { item with leaf := some value }

/-- The body of the loop of `updateChildrenParent`. -/
def updateParent (newParent : Option ι) (s : TreeItems ι) : Option ι → TreeItems ι
  | none => s
  | some treeItem =>
    let currentParent := (s treeItem).parent
    let s := if (s treeItem).parentLinkCount = 0 then s.setParent treeItem newParent else s
    let parentMatch := currentParent ≠ none ∧ currentParent = newParent
    if parentMatch then
      if newParent = none then
        s.modify treeItem fun item => { item with parentLinkCount := item.parentLinkCount - 1 }
      else
        s.modify treeItem fun item => { item with parentLinkCount := item.parentLinkCount + 1 }
    else s

def updateChildrenParent (s : TreeItems ι) (treeItems : List (Option ι)) (newParent : Option ι) :
    TreeItems ι :=
  treeItems.foldl (updateParent newParent) s

def updateChildren [Fintype ι] (s : TreeItems ι) (x : ι) (c : Composite (Option ι)) :
    TreeItems ι :=
  let s := s.setLeaf x (s x).children.isEmpty
  let added := c.added (s x).children
  let removed := c.removed
  let s := s.updateChildrenParent removed none
  let s := s.updateChildrenParent added (some x)
  s.fireEvent x

/-- `childrenListener`. -/
def childrenListener [Fintype ι] (s : TreeItems ι) (x : ι) (c : Composite (Option ι)) :
    TreeItems ι :=
  (s.itemListener x).updateChildren x c

/-- The list of children becomes `final`. -/
def changeChildren [Fintype ι] (s : TreeItems ι) (x : ι) (final : List (Option ι))
    (c : Composite (Option ι)) : TreeItems ι :=
  (s.modify x fun item => { item with children := final }).childrenListener x c

/-! ## Expanding -/

/-- `isExpanded`; `get` makes the property valid. -/
def isExpanded (s : TreeItems ι) (x : ι) : Bool × TreeItems ι :=
  match (s x).expanded with
  | none => (false, s)
  | some property =>
    (property.value, s.modify x fun item => { item with expanded := some { property with valid := true } })

/-- `expandedProperty().invalidated()`. -/
def invalidated [Fintype ι] (s : TreeItems ι) (x : ι) : TreeItems ι :=
  if (s x).isLeaf then s
  else (s.isExpanded x).2.fireEvent x

def setExpanded [Fintype ι] (s : TreeItems ι) (x : ι) (value : Bool) : TreeItems ι :=
  if value = false ∧ (s x).expanded = none then s
  else
    let property := (s x).expanded.getD ⟨false, true⟩
    if property.value = value then
      s.modify x fun item => { item with expanded := some property }
    else
      let s := s.modify x fun item => { item with expanded := some ⟨value, false⟩ }
      -- only a valid property tells anyone
      if property.valid then s.invalidated x else s

/-! ## Counting -/

/-- The body of the loop of `updateExpandedDescendentCount`; `count` is
`getExpandedDescendentCount`. -/
def addChildCount (count : TreeItems ι → ι → Except TreeError (ℕ × TreeItems ι)) (x : ι)
    (s : TreeItems ι) : Option ι → Except TreeError (TreeItems ι)
  | none => .ok s
  | some child => do
      -- `+=` reads the field before it calls
      let old := (s x).expandedDescendentCount
      let (childExpanded, s) := s.isExpanded child
      let (n, s) ← (if childExpanded then count s child else .ok (1, s))
      .ok (s.modify x fun item => { item with expandedDescendentCount := old + n })

def updateExpandedDescendentCount
    (count : TreeItems ι → ι → Except TreeError (ℕ × TreeItems ι)) (s : TreeItems ι) (x : ι) :
    Except TreeError (TreeItems ι) :=
  let s := s.modify x fun item =>
    { item with
      previousExpandedDescendentCount := item.expandedDescendentCount
      expandedDescendentCount := 1 }
  if (s x).isLeaf then .ok s
  else
    let (expanded, s) := s.isExpanded x
    if expanded then (s x).children.foldlM (addChildCount count x) s
    else .ok s

def getExpandedDescendentCount (reset : Bool) :
    (fuel : ℕ) → TreeItems ι → ι → Except TreeError (ℕ × TreeItems ι)
  | 0, _, _ => .error .stackOverflow
  | fuel + 1, s, x =>
    if reset = true ∨ (s x).expandedDescendentCountDirty then do
      let s ← s.updateExpandedDescendentCount (getExpandedDescendentCount reset fuel) x
      let s := s.modify x fun item => { item with expandedDescendentCountDirty := false }
      .ok ((s x).expandedDescendentCount, s)
    else .ok ((s x).expandedDescendentCount, s)

/-! ## Runs -/

inductive Action (ι : Type) where
  | changeChildren (x : ι) (final : List (Option ι)) (c : Composite (Option ι))
  | setExpanded (x : ι) (value : Bool)
  | getExpandedDescendentCount (x : ι)

/-- One call. -/
def step [Fintype ι] (s : TreeItems ι) : Action ι → Except TreeError (TreeItems ι)
  | .changeChildren x final c => .ok (s.changeChildren x final c)
  | .setExpanded x value => .ok (s.setExpanded x value)
  | .getExpandedDescendentCount x => do
      let (_, s) ← getExpandedDescendentCount false (Fintype.card ι) s x
      .ok s

/-- The change of a list is one from the list as it is. -/
def Action.WellFormed (s : TreeItems ι) : Action ι → Prop
  | .changeChildren x final c => c.WellFormed (s x).children final
  | _ => True

end TreeItems

end JavaFx.Control
