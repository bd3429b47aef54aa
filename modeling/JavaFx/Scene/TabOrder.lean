/-
`com.sun.javafx.scene.traversal`: the order in which the focus is traversed.

A tree of nodes stands for a scene. A node is known by its `id`, and its parents are the
nodes on the way from the root of the scene to it (`pathTo`). `disabled` and `treeVisible`
are what `isDisabled()` and `impl_isTreeVisible()` return. The algorithm of a traversal
engine is a parameter; the directions on the plane, and the focus and the listeners that
`trav` tells of its result, are left out.
-/
import Mathlib.Data.List.Basic

set_option autoImplicit false

namespace JavaFx.Scene

inductive Direction
  | NEXT
  | NEXT_IN_LINE
  | PREVIOUS
  deriving DecidableEq, Repr

variable {N : Type}

structure Algorithm (N : Type) where
  select : N → Direction → Option N
  selectFirst : Option N
  selectLast : Option N

/-- An engine without an algorithm is there for its listeners. -/
structure ParentTraversalEngine (N : Type) where
  algorithm : Option (Algorithm N)
  overridenTraversability : Option Bool

/-- What a node says of itself. -/
structure NodeFlags where
  disabled : Bool
  treeVisible : Bool
  focusTraversable : Bool
  deriving DecidableEq, Repr

inductive Node (N : Type)
  | leaf (id : N) (flags : NodeFlags)
  | parent (id : N) (flags : NodeFlags) (engine : Option (ParentTraversalEngine N))
      (children : List (Node N))

namespace Node

def id : Node N → N
  | leaf id _ => id
  | parent id _ _ _ => id

def flags : Node N → NodeFlags
  | leaf _ flags => flags
  | parent _ flags _ _ => flags

def engine : Node N → Option (ParentTraversalEngine N)
  | leaf _ _ => none
  | parent _ _ engine _ => engine

/-- `getChildrenUnmodifiable`, of a parent. -/
def children : Node N → List (Node N)
  | leaf _ _ => []
  | parent _ _ _ children => children

/-- The algorithm of an engine that `canTraverse`. -/
def algorithm (n : Node N) : Option (Algorithm N) := n.engine.bind (·.algorithm)

def isDisabledOrInvisible (n : Node N) : Bool := n.flags.disabled || !n.flags.treeVisible

/-- `isParentTraversable` of the engine of a parent that has one, else `isFocusTraversable`. -/
def isTraversable (n : Node N) : Bool :=
  match n.engine.bind (·.overridenTraversability) with
  | some value => n.flags.focusTraversable && value
  | none => n.flags.focusTraversable

mutual

/-- The node and its parents up to the root, for the node with an `id`. -/
def pathTo [DecidableEq N] (id : N) : Node N → Option (List (Node N))
  | leaf i flags => if i = id then some [leaf i flags] else none
  | parent i flags engine children =>
    if i = id then some [parent i flags engine children]
    else (pathToIn id children).map (· ++ [parent i flags engine children])

def pathToIn [DecidableEq N] (id : N) : List (Node N) → Option (List (Node N))
  | [] => none
  | n :: ns =>
    match n.pathTo id with
    | some path => some path
    | none => pathToIn id ns

end

end Node

namespace TabOrderHelper

/-! ## Backward -/

mutual

/-- What `findPreviousFocusableInList` finds at one node: something in it, or itself. -/
def findPreviousFocusableAt : Node N → Option N
  | .leaf id flags =>
    if (Node.leaf id flags).isDisabledOrInvisible then none
    else if (Node.leaf id flags).isTraversable then some id else none
  | .parent id flags engine children =>
    if (Node.parent id flags engine children).isDisabledOrInvisible then none
    else
      let selected :=
        match (Node.parent id flags engine children).algorithm with
        | some algorithm => algorithm.selectLast
        | none => findPreviousFocusableInList children
      match selected with
      | some node => some node
      | none => if (Node.parent id flags engine children).isTraversable then some id else none

/-- `findPreviousFocusableInList(nodeList, nodeList.size() - 1)`. -/
def findPreviousFocusableInList : List (Node N) → Option N
  | [] => none
  | n :: ns =>
    match findPreviousFocusableInList ns with
    | some node => some node
    | none => findPreviousFocusableAt n

end

section

variable [DecidableEq N]

/-- `peerNodes.indexOf(node)`. -/
def indexOf (node : Node N) (peerNodes : List (Node N)) : ℕ :=
  peerNodes.findIdx fun peer => decide (peer.id = node.id)

/-- `findPreviousFocusableInList(findPeers(node), index - 1)`. -/
def findPreviousPeer (node : Node N) : List (Node N) → Option N
  | [] => none
  | p :: _ => findPreviousFocusableInList (p.children.take (indexOf node p.children))

/-- The loop that climbs over the parents of `startNode`. -/
def climbPrevious (root : N) : (newNode : Option N) → (parents : List (Node N)) → Option N
  | some node, _ => some node
  | none, [] => none
  | none, p :: parents =>
    if p.id = root then none
    else
      climbPrevious root
        (if p.isTraversable then some p.id else findPreviousPeer p parents) parents

def findPreviousFocusablePeer (node : Node N) (root : N) (parents : List (Node N)) : Option N :=
  if parents.isEmpty then findPreviousFocusableInList node.children
  else climbPrevious root (findPreviousPeer node parents) parents

end

/-! ## Forward -/

mutual

/-- What `findNextFocusableInList` finds at one node: itself, or something in it. -/
def findNextFocusableAt : Node N → Option N
  | .leaf id flags =>
    if (Node.leaf id flags).isDisabledOrInvisible then none
    else if (Node.leaf id flags).isTraversable then some id else none
  | .parent id flags engine children =>
    if (Node.parent id flags engine children).isDisabledOrInvisible then none
    else if (Node.parent id flags engine children).isTraversable then some id
    else
      match (Node.parent id flags engine children).algorithm with
      | some algorithm => algorithm.selectFirst
      | none => findNextFocusableInList children

/-- `findNextFocusableInList(nodeList, 0)`. -/
def findNextFocusableInList : List (Node N) → Option N
  | [] => none
  | n :: ns =>
    match findNextFocusableAt n with
    | some node => some node
    | none => findNextFocusableInList ns

end

section

variable [DecidableEq N]

/-- `findNextFocusableInList(findPeers(node), index + 1)`. -/
def findNextPeer (node : Node N) : List (Node N) → Option N
  | [] => none
  | p :: _ =>
    findNextFocusableInList (p.children.drop (indexOf node p.children + 1))

/-- The loop that climbs over the parents of `startNode`. -/
def climbNext (root : N) : (newNode : Option N) → (parents : List (Node N)) → Option N
  | some node, _ => some node
  | none, [] => none
  | none, p :: parents =>
    if p.id = root then none
    else climbNext root (findNextPeer p parents) parents

def findNextFocusablePeer (node : Node N) (root : N) (parents : List (Node N))
    (traverseIntoCurrent : Bool) : Option N :=
  match if traverseIntoCurrent then findNextFocusableInList node.children else none with
  | some newNode => some newNode
  | none => climbNext root (findNextPeer node parents) parents

end

/-! ## The first and the last node -/

mutual

/-- For a node that is not a parent, the call that is not made. -/
def getFirstTargetNode : Node N → Option N
  | .leaf _ _ => none
  | .parent id flags engine children =>
    if (Node.parent id flags engine children).isDisabledOrInvisible then none
    else
      match (Node.parent id flags engine children).algorithm.bind (·.selectFirst) with
      | some selected => some selected
      | none => getFirstTargetNodeIn children

def getFirstTargetNodeIn : List (Node N) → Option N
  | [] => none
  | n :: ns =>
    if n.isDisabledOrInvisible then getFirstTargetNodeIn ns
    else if n.isTraversable then some n.id
    else
      match getFirstTargetNode n with
      | some result => some result
      | none => getFirstTargetNodeIn ns

end

mutual

def getLastTargetNode : Node N → Option N
  | .leaf _ _ => none
  | .parent id flags engine children =>
    if (Node.parent id flags engine children).isDisabledOrInvisible then none
    else
      match (Node.parent id flags engine children).algorithm.bind (·.selectLast) with
      | some selected => some selected
      | none => getLastTargetNodeIn children

/-- The loop runs from the last child to the first. -/
def getLastTargetNodeIn : List (Node N) → Option N
  | [] => none
  | n :: ns =>
    match getLastTargetNodeIn ns with
    | some result => some result
    | none =>
      if n.isDisabledOrInvisible then none
      else
        match getLastTargetNode n with
        | some result => some result
        | none => if n.isTraversable then some n.id else none

end

end TabOrderHelper

namespace TopMostTraversalEngine

open TabOrderHelper

variable [DecidableEq N]

/-- `select` of `ContainerTabOrder`. -/
def select (root : Node N) (path : List (Node N)) : Direction → Option N
  | .NEXT => path.head?.bind fun node => findNextFocusablePeer node root.id path.tail true
  | .NEXT_IN_LINE => path.head?.bind fun node => findNextFocusablePeer node root.id path.tail false
  | .PREVIOUS => path.head?.bind fun node => findPreviousFocusablePeer node root.id path.tail

/-- The loop over the parents with an algorithm of their own: what they select, else where
to traverse from, as a path, and in which direction. -/
def selectInParents (node : N) : (traversePath parents : List (Node N)) → Direction →
    Option N × List (Node N) × Direction
  | traversePath, [], dir => (none, traversePath, dir)
  | traversePath, p :: parents, dir =>
    match p.algorithm with
    | some algorithm =>
      match algorithm.select node dir with
      | some newNode => (some newNode, traversePath, dir)
      | none =>
        selectInParents node (p :: parents) parents
          (if dir = .NEXT then .NEXT_IN_LINE else dir)
    | none => selectInParents node traversePath parents dir

/-- The new focus owner, if there is one. -/
def trav (root : Node N) (node : N) (dir : Direction) : Option N :=
  match root.pathTo node with
  | none => none
  | some path =>
    let (selected, traversePath, dir) := selectInParents node path path.tail dir
    match selected with
    | some newNode => some newNode
    | none =>
      match select root traversePath dir with
      | some newNode => some newNode
      | none =>
        match dir with
        | .NEXT | .NEXT_IN_LINE => getFirstTargetNode root
        | .PREVIOUS => getLastTargetNode root

end TopMostTraversalEngine

end JavaFx.Scene
