/-
Cached bounds of `javafx.scene.Parent`.

A parent keeps the union of the bounds of its visible children, and for each edge of it a
child that touches it. A child that is added, becomes visible or has new bounds is dirty
until the next query; one that is removed or becomes invisible is no longer an edge. A
query takes the dirty children to the cached bounds and their edges; where that leaves an
edge without a child it begins from scratch. With many children the dirty ones are listed.

Coordinates are from any linear order, empty bounds are `⊥`. The six edges are treated
alike by the code, and are one here. Nothing is reported in a query, so there is no
`currentlyProcessedChild`; `childSet` holds the children.
-/
import JavaFx.Lib.Boxes
import JavaFx.Lib.Java
import Mathlib.Logic.Function.Basic

set_option autoImplicit false

namespace JavaFx.Scene.ParentBounds

open JavaFx.Lib

/-- `DIRTY_CHILDREN_THRESHOLD`. -/
def DIRTY_CHILDREN_THRESHOLD : ℕ := 10

variable {N L : Type} [LinearOrder L]

/-- A parent, and what the nodes say of themselves: `isVisible` and the bounds of
`getTransformedBounds` without a transform. -/
structure Parent (N L : Type) [LinearOrder L] where
  visible : N → Bool
  bounds : N → Bounds L
  boundsChanged : N → Bool
  children : List N
  cachedBounds : Bounds L
  cachedBoundsInvalid : Bool
  dirtyChildrenCount : ℤ
  dirtyChildren : Option (List N)
  edge : Edge → Option N

/-- A new parent. -/
def start (visible : N → Bool) (bounds : N → Bounds L) : Parent N L where
  visible := visible
  bounds := bounds
  boundsChanged := fun _ => false
  children := []
  cachedBounds := ⊥
  cachedBoundsInvalid := false
  dirtyChildrenCount := 0
  dirtyChildren := none
  edge := fun _ => none

section Parent

variable [DecidableEq N] (s : Parent N L)

/-! ## Children that change -/

/-- `setChildDirty`. -/
def Parent.setChildDirty (node : N) (dirty : Bool) : Parent N L :=
  if s.boundsChanged node = dirty then s
  else
    { s with
      boundsChanged := Function.update s.boundsChanged node dirty
      dirtyChildren := s.dirtyChildren.map fun l => if dirty then l ++ [node] else l.erase node
      dirtyChildrenCount := if dirty then s.dirtyChildrenCount + 1 else s.dirtyChildrenCount - 1 }

/-- `childIncluded`. -/
def Parent.childIncluded (node : N) : Parent N L :=
  Parent.setChildDirty { s with cachedBoundsInvalid := true } node true

/-- `childExcluded`. -/
def Parent.childExcluded (node : N) : Parent N L :=
  Parent.setChildDirty
    { s with
      edge := fun e => if s.edge e = some node then none else s.edge e
      cachedBoundsInvalid := s.cachedBoundsInvalid
        || [.left, .top, .near, .right, .bottom, .far].any fun e => s.edge e = some node }
    node false

/-- `childBoundsChanged`. -/
def Parent.childBoundsChanged (node : N) : Parent N L :=
  Parent.setChildDirty { s with cachedBoundsInvalid := true } node true

/-- `childVisibilityChanged`. -/
def Parent.childVisibilityChanged (node : N) : Parent N L :=
  if s.visible node then s.childIncluded node else s.childExcluded node

/-! ## The cached bounds -/

/-- The union that `createCachedBounds` has come to, with a node at each edge. -/
abbrev Outline (N L : Type) := Edge → L × N

/-- A turn of the loops of `createCachedBounds`: the first until there is an outline, and
then the second. -/
def Parent.createStep (o : Option (Outline N L)) (node : N) : Option (Outline N L) :=
  if s.visible node then
    match s.bounds node with
    | ⊥ => o
    | some tmp =>
      match o with
      | none => some fun e => (Box.coord tmp e, node)
      | some o => some fun e => if e.Out (o e).1 (Box.coord tmp e) then o e else (Box.coord tmp e, node)
  else o

/-- `createCachedBounds`. -/
def Parent.createCachedBounds (fromNodes : List N) : Parent N L :=
  let cleared := { s with
    boundsChanged := fun n => if n ∈ fromNodes then false else s.boundsChanged n }
  match fromNodes.foldl s.createStep none with
  | none => { cleared with edge := fun _ => none, cachedBounds := ⊥ }
  | some o =>
    { cleared with
      edge := fun e => some (o e).2
      cachedBounds := Bounds.ofCoords fun e => (o e).1 }

/-- The variables of `updateCachedBounds`, and what it writes to on the way. -/
structure Update (N L : Type) where
  coord : Edge → L
  edge : Edge → Option N
  invalidEdges : Edge → Bool
  boundsChanged : N → Bool

/-- A dirty node is taken in. -/
def Update.take (u : Update N L) (node : N) (tmp : Bounds L) : Update N L :=
  let clean := { u with boundsChanged := Function.update u.boundsChanged node false }
  match tmp with
  | ⊥ => clean
  | some b =>
    { clean with
      coord := fun e => if e.Out (Box.coord b e) (u.coord e) then Box.coord b e else u.coord e
      edge := fun e => if e.Out (Box.coord b e) (u.coord e) then some node else u.edge e
      invalidEdges := fun e => if e.Out (Box.coord b e) (u.coord e) then false else u.invalidEdges e }

/-- The loop of `updateCachedBounds`. The nodes are in the order of the loop, the last
first. -/
def Parent.updateLoop : List N → ℤ → Update N L → Except Exn (Update N L)
  | [], remaining, u => if 0 < remaining then .error .indexOutOfBounds else .ok u
  | node :: nodes, remaining, u =>
    if 0 < remaining then
      if u.boundsChanged node then
        Parent.updateLoop nodes (remaining - 1) (u.take node (s.bounds node))
      else Parent.updateLoop nodes remaining u
    else .ok u

/-- `updateCachedBounds`. -/
def Parent.updateCachedBounds (dirtyNodes : List N) (remainingDirtyNodes : ℤ) :
    Except Exn (Bool × Parent N L) :=
  match s.cachedBounds with
  | ⊥ => .ok (true, s.createCachedBounds dirtyNodes)
  | some b => do
      let u ← s.updateLoop dirtyNodes.reverse remainingDirtyNodes
        { coord := Box.coord b
          edge := s.edge
          invalidEdges := fun e => (s.edge e).all s.boundsChanged
          boundsChanged := s.boundsChanged }
      let updated := { s with edge := u.edge, boundsChanged := u.boundsChanged }
      if [.left, .top, .near, .right, .bottom, .far].any u.invalidEdges then return (false, updated)
      else return (true, { updated with cachedBounds := Bounds.ofCoords u.coord })

/-- `recomputeBounds`. -/
def Parent.recomputeBounds : Except Exn (Parent N L) :=
  match s.children with
  | [] => .ok { s with cachedBounds := ⊥ }
  | [node] =>
    let clean := { s with boundsChanged := Function.update s.boundsChanged node false }
    if s.visible node then
      .ok { clean with cachedBounds := s.bounds node, edge := fun _ => some node }
    else .ok { clean with cachedBounds := ⊥ }
  | children =>
    if s.dirtyChildrenCount = 0 then .ok (s.createCachedBounds children)
    else do
      let (updated, s') ← s.updateCachedBounds (s.dirtyChildren.getD children) s.dirtyChildrenCount
      if updated then return s' else return s'.createCachedBounds children

/-- A transform: none, a translation, or one that has to be applied to each child. -/
inductive Transform (N L : Type) [LinearOrder L]
  | identity
  | translate (move : Box L → Box L)
  | general (transformedBounds : N → Bounds L)

/-- The loop of `impl_computeGeomBounds` over the visible children. -/
def Parent.transformedUnion (transformedBounds : N → Bounds L) : Bounds L :=
  s.children.foldl (fun b node => if s.visible node then b ⊔ transformedBounds node else b) ⊥

/-- The cached bounds are made valid. -/
def Parent.validate : Except Exn (Parent N L) :=
  if s.cachedBoundsInvalid then do
    let s' ← s.recomputeBounds
    return { s' with
      dirtyChildren := s'.dirtyChildren.map fun _ => []
      cachedBoundsInvalid := false
      dirtyChildrenCount := 0 }
  else .ok s

/-- `impl_computeGeomBounds`. -/
def Parent.computeGeomBounds (tx : Transform N L) : Except Exn (Bounds L × Parent N L) :=
  if s.children = [] then .ok (⊥, s)
  else
    match tx with
    | .general transformedBounds => .ok (s.transformedUnion transformedBounds, s)
    | .identity => do
        let s' ← s.validate
        return (s'.cachedBounds, s')
    | .translate move => do
        let s' ← s.validate
        return (s'.cachedBounds.map move, s')

/-! ## The list of children -/

/-- A child is removed from the list: what `onProposedChange` does. -/
def Parent.excludeOld (old : N) : Parent N L :=
  let listed := { s with dirtyChildren := s.dirtyChildren.map fun l => l.erase old }
  if s.visible old then listed.childExcluded old else listed

/-- A node is new in the list: what `onChanged` does. -/
def Parent.includeNew (node : N) : Parent N L :=
  if s.visible node then s.childIncluded node else s

/-- The list of dirty children is created when there are many. -/
def Parent.createDirtyChildren : Parent N L :=
  if s.dirtyChildren.isNone ∧ DIRTY_CHILDREN_THRESHOLD < s.children.length then
    let populated :=
      if 0 < s.dirtyChildrenCount then s.children.filter fun ch => s.visible ch && s.boundsChanged ch
      else []
    { s with dirtyChildren := some populated }
  else s

/-- A change of the list, from what is removed, what is new and the list there will be. -/
def Parent.changeChildren (toBeRemoved newNodes children : List N) : Parent N L :=
  if children.Nodup then
    if children.length = s.children.length ∧ ∀ n ∈ newNodes, n ∈ s.children then
      { s with children := children }
    else
      let proposed := toBeRemoved.foldl Parent.excludeOld s
      Parent.createDirtyChildren (newNodes.foldl Parent.includeNew { proposed with children := children })
  else s

end Parent

/-! ## Steps -/

/-- What is done to a parent and its children. `replace` is an addition, a removal of
neighbours, `set` or `setAll`, `removeIf` is `removeAll` and `retainAll`. -/
inductive Action (N L : Type) [LinearOrder L]
  | replace (start stop : ℕ) (newNodes : List N)
  | removeIf (p : N → Bool)
  | toFront (node : N)
  | toBack (node : N)
  | setVisible (node : N) (value : Bool)
  | setBounds (node : N) (bounds : Bounds L)
  | computeGeomBounds (tx : Transform N L)

/-- A step. -/
def step [DecidableEq N] (s : Parent N L) : Action N L → Except Exn (Parent N L)
  | .replace start stop newNodes =>
    if start ≤ stop ∧ stop ≤ s.children.length then
      .ok (s.changeChildren ((s.children.take stop).drop start) newNodes
        (s.children.take start ++ newNodes ++ s.children.drop stop))
    else .ok s
  | .removeIf p =>
    .ok (s.changeChildren (s.children.filter p) [] (s.children.filter fun n => !p n))
  | .toFront node =>
    .ok { s with children := if node ∈ s.children then s.children.erase node ++ [node] else s.children }
  | .toBack node =>
    .ok { s with children := if node ∈ s.children then node :: s.children.erase node else s.children }
  | .setVisible node value =>
    if s.visible node = value then .ok s
    else
      let changed := { s with visible := Function.update s.visible node value }
      .ok (if node ∈ s.children then changed.childVisibilityChanged node else changed)
  | .setBounds node bounds =>
    let changed := { s with bounds := Function.update s.bounds node bounds }
    .ok (if node ∈ s.children ∧ s.visible node then changed.childBoundsChanged node else changed)
  | .computeGeomBounds tx => do
      let (_, s') ← s.computeGeomBounds tx
      return s'

/-- The union of the bounds of the visible children. -/
def Parent.union (s : Parent N L) : Bounds L :=
  Multiset.sup ((s.children.filter s.visible).map s.bounds : Multiset (Bounds L))

end JavaFx.Scene.ParentBounds
