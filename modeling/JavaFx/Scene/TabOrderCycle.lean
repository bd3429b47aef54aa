/-
The tab order is one cycle.

The order is that of the nodes below the root, parents first (`below`), of which the
focusable ones are the stops. Each search of the helper finds the first or the last stop of
the nodes it looks through (`findNextFocusableInList_eq` and its siblings), and the nodes
after and before a node in the order are those that the climb over its parents looks
through (`below_eq`). The root is where the searches begin and where the climbs end; it is
no stop itself.
-/
import JavaFx.Scene.TabOrder
import Mathlib.Data.List.Nodup
import Mathlib.Data.List.Chain
import Mathlib.Tactic.Common

set_option autoImplicit false

namespace JavaFx.Scene

variable {N : Type}

namespace Node

/-! ## The order of the nodes -/

mutual

/-- A node and the nodes in it, parents first. -/
def preorder : Node N → List (Node N)
  | leaf i flags => [leaf i flags]
  | parent i flags engine children => parent i flags engine children :: preorderIn children

def preorderIn : List (Node N) → List (Node N)
  | [] => []
  | n :: ns => n.preorder ++ preorderIn ns

end

/-- A node that can be focused. -/
def isFocusable (n : Node N) : Bool := !n.isDisabledOrInvisible && n.isTraversable

/-- The focusable ones of some nodes. -/
def stops (ns : List (Node N)) : List N := (ns.filter isFocusable).map id

/-- The stops of a scene: the focusable nodes below its root. -/
def focusableNodes (root : Node N) : List N := stops (preorderIn root.children)

/-- What is in a disabled node is disabled, and what is in an invisible one invisible. -/
structure Inherited (ns : List (Node N)) : Prop where
  disabled : ∀ n ∈ ns, ∀ c ∈ n.children, n.flags.disabled = true → c.flags.disabled = true
  invisible : ∀ n ∈ ns, ∀ c ∈ n.children, n.flags.treeVisible = false → c.flags.treeVisible = false

/-- No node has a traversal algorithm of its own. -/
def NoAlgorithm (ns : List (Node N)) : Prop := ∀ n ∈ ns, n.algorithm = none

theorem preorder_eq (n : Node N) : n.preorder = n :: preorderIn n.children := by
  cases n with
  | leaf i flags => simp [preorder, children, preorderIn]
  | parent i flags engine cs => rw [preorder, children]

theorem preorderIn_append (ns ms : List (Node N)) :
    preorderIn (ns ++ ms) = preorderIn ns ++ preorderIn ms := by
  induction ns with
  | nil => rfl
  | cons n ns ih => rw [List.cons_append, preorderIn, preorderIn, ih, List.append_assoc]

@[simp] theorem stops_nil : stops ([] : List (Node N)) = [] := rfl

@[simp] theorem stops_append (ns ms : List (Node N)) : stops (ns ++ ms) = stops ns ++ stops ms := by
  simp [stops]

theorem stops_cons (n : Node N) (ns : List (Node N)) :
    stops (n :: ns) = (if n.isFocusable then [n.id] else []) ++ stops ns := by
  cases h : n.isFocusable <;> simp [stops, h]

/-- The conditions on the nodes of a tree, which hold of each part of it. -/
structure Plain (ns : List (Node N)) : Prop where
  inherited : Inherited ns
  noAlgorithm : NoAlgorithm ns

theorem Plain.mono {ns ms : List (Node N)} (h : Plain ns) (hsub : ∀ n ∈ ms, n ∈ ns) : Plain ms where
  inherited :=
    ⟨fun n hn => h.inherited.disabled n (hsub n hn), fun n hn => h.inherited.invisible n (hsub n hn)⟩
  noAlgorithm n hn := h.noAlgorithm n (hsub n hn)

theorem Plain.left {ns ms : List (Node N)} (h : Plain (ns ++ ms)) : Plain ns :=
  h.mono fun _ hn => List.mem_append_left _ hn

theorem Plain.right {ns ms : List (Node N)} (h : Plain (ns ++ ms)) : Plain ms :=
  h.mono fun _ hn => List.mem_append_right _ hn

theorem Plain.children {n : Node N} (h : Plain n.preorder) : Plain (preorderIn n.children) := by
  rw [preorder_eq] at h
  exact h.mono fun _ hm => List.mem_cons_of_mem _ hm

theorem mem_preorderIn {n m : Node N} {ns : List (Node N)} (hn : n ∈ ns) (hm : m ∈ n.preorder) :
    m ∈ preorderIn ns := by
  induction ns with
  | nil => cases hn
  | cons a ns ih =>
    rw [preorderIn, List.mem_append]
    rcases List.mem_cons.1 hn with rfl | hn
    · exact .inl hm
    · exact .inr (ih hn)

theorem mem_preorder_self (n : Node N) : n ∈ n.preorder := by
  rw [preorder_eq]
  exact List.mem_cons_self

mutual

/-- A node that is disabled or invisible has no stops in it. -/
theorem stops_eq_nil : (n : Node N) → Inherited n.preorder → n.isDisabledOrInvisible = true →
    stops n.preorder = []
  | leaf i flags, _, h => by
    simp [preorder, stops_cons, isFocusable, h]
  | parent i flags engine cs, hinh, h => by
    rw [preorder] at hinh ⊢
    have hcs : ∀ c ∈ cs, c.isDisabledOrInvisible = true := by
      intro c hc
      have hd := hinh.disabled _ List.mem_cons_self c hc
      have hv := hinh.invisible _ List.mem_cons_self c hc
      simp only [isDisabledOrInvisible, Bool.or_eq_true, Bool.not_eq_true'] at h ⊢
      exact h.imp hd hv
    have htail : Inherited (preorderIn cs) :=
      ⟨fun n hn => hinh.disabled n (List.mem_cons_of_mem _ hn),
        fun n hn => hinh.invisible n (List.mem_cons_of_mem _ hn)⟩
    rw [stops_cons, stopsIn_eq_nil cs htail hcs]
    simp [isFocusable, h]

theorem stopsIn_eq_nil : (ns : List (Node N)) → Inherited (preorderIn ns) →
    (∀ n ∈ ns, n.isDisabledOrInvisible = true) → stops (preorderIn ns) = []
  | [], _, _ => rfl
  | n :: ns, hinh, h => by
    rw [preorderIn] at hinh ⊢
    have hhead : Inherited n.preorder :=
      ⟨fun m hm => hinh.disabled m (List.mem_append_left _ hm),
        fun m hm => hinh.invisible m (List.mem_append_left _ hm)⟩
    have htail : Inherited (preorderIn ns) :=
      ⟨fun m hm => hinh.disabled m (List.mem_append_right _ hm),
        fun m hm => hinh.invisible m (List.mem_append_right _ hm)⟩
    rw [stops_append, stops_eq_nil n hhead (h n List.mem_cons_self),
      stopsIn_eq_nil ns htail fun m hm => h m (List.mem_cons_of_mem _ hm), List.append_nil]

end

end Node

namespace TabOrderHelper

open Node

/-! ## What the searches find -/

mutual

theorem findNextFocusableAt_eq : (n : Node N) → Plain n.preorder →
    findNextFocusableAt n = (stops n.preorder).head?
  | .leaf i flags, _ => by
    rw [findNextFocusableAt, preorder, stops_cons, isFocusable]
    cases (Node.leaf i flags).isDisabledOrInvisible <;>
      cases (Node.leaf i flags).isTraversable <;> simp [Node.id]
  | .parent i flags engine cs, h => by
    have hcs := h.children
    have halg : (Node.parent i flags engine cs).algorithm = none :=
      h.noAlgorithm _ (mem_preorder_self _)
    rw [findNextFocusableAt, halg]
    by_cases hdisabled : (Node.parent i flags engine cs).isDisabledOrInvisible = true
    · rw [if_pos hdisabled, stops_eq_nil _ h.inherited hdisabled]
      rfl
    · rw [if_neg hdisabled, preorder, stops_cons, isFocusable, findNextFocusableInList_eq cs hcs,
        Bool.eq_false_iff.2 hdisabled]
      cases (Node.parent i flags engine cs).isTraversable <;> simp [Node.id]

theorem findNextFocusableInList_eq : (ns : List (Node N)) → Plain (preorderIn ns) →
    findNextFocusableInList ns = (stops (preorderIn ns)).head?
  | [], _ => rfl
  | n :: ns, h => by
    rw [findNextFocusableInList, preorderIn, stops_append, List.head?_append,
      findNextFocusableAt_eq n h.left, findNextFocusableInList_eq ns h.right]
    cases (stops n.preorder).head? <;> rfl

end

mutual

theorem findPreviousFocusableAt_eq : (n : Node N) → Plain n.preorder →
    findPreviousFocusableAt n = (stops n.preorder).getLast?
  | .leaf i flags, _ => by
    rw [findPreviousFocusableAt, preorder, stops_cons, isFocusable]
    cases (Node.leaf i flags).isDisabledOrInvisible <;>
      cases (Node.leaf i flags).isTraversable <;> simp [Node.id]
  | .parent i flags engine cs, h => by
    have hcs := h.children
    have halg : (Node.parent i flags engine cs).algorithm = none :=
      h.noAlgorithm _ (mem_preorder_self _)
    rw [findPreviousFocusableAt, halg]
    by_cases hdisabled : (Node.parent i flags engine cs).isDisabledOrInvisible = true
    · rw [if_pos hdisabled, stops_eq_nil _ h.inherited hdisabled]
      rfl
    · rw [if_neg hdisabled, preorder, stops_cons, isFocusable, List.getLast?_append,
        Bool.eq_false_iff.2 hdisabled]
      simp only [findPreviousFocusableInList_eq cs hcs]
      cases (stops (preorderIn cs)).getLast? <;>
        cases (Node.parent i flags engine cs).isTraversable <;> simp [Node.id]

theorem findPreviousFocusableInList_eq : (ns : List (Node N)) → Plain (preorderIn ns) →
    findPreviousFocusableInList ns = (stops (preorderIn ns)).getLast?
  | [], _ => rfl
  | n :: ns, h => by
    rw [findPreviousFocusableInList, preorderIn, stops_append, List.getLast?_append,
      findPreviousFocusableAt_eq n h.left, findPreviousFocusableInList_eq ns h.right]
    cases (stops (preorderIn ns)).getLast? <;> rfl

end

mutual

/-- The first stop in a node, itself left out. -/
theorem getFirstTargetNode_eq : (n : Node N) → Plain n.preorder →
    getFirstTargetNode n = (focusableNodes n).head?
  | .leaf i flags, _ => rfl
  | .parent i flags engine cs, h => by
    have hcs := h.children
    have halg : (Node.parent i flags engine cs).algorithm = none :=
      h.noAlgorithm _ (mem_preorder_self _)
    rw [getFirstTargetNode, halg, focusableNodes, Node.children]
    by_cases hdisabled : (Node.parent i flags engine cs).isDisabledOrInvisible = true
    · have hnil := stops_eq_nil _ h.inherited hdisabled
      rw [preorder, stops_cons] at hnil
      rw [if_pos hdisabled, (List.append_eq_nil_iff.1 hnil).2]
      rfl
    · rw [if_neg hdisabled, ← getFirstTargetNodeIn_eq cs hcs]
      rfl

theorem getFirstTargetNodeIn_eq : (ns : List (Node N)) → Plain (preorderIn ns) →
    getFirstTargetNodeIn ns = (stops (preorderIn ns)).head?
  | [], _ => rfl
  | n :: ns, h => by
    rw [getFirstTargetNodeIn, preorderIn, stops_append, List.head?_append,
      getFirstTargetNode_eq n h.left, getFirstTargetNodeIn_eq ns h.right]
    by_cases hdisabled : n.isDisabledOrInvisible = true
    · rw [if_pos hdisabled, stops_eq_nil n h.left.inherited hdisabled]
      rfl
    · rw [if_neg hdisabled, preorder_eq, stops_cons, isFocusable, Bool.eq_false_iff.2 hdisabled,
        focusableNodes]
      cases n.isTraversable
      · simp only [Bool.not_false, Bool.and_false, Bool.false_eq_true, if_false, List.nil_append]
        cases (stops (preorderIn n.children)).head? <;> simp
      · simp

end

mutual

/-- The last stop in a node, itself left out. -/
theorem getLastTargetNode_eq : (n : Node N) → Plain n.preorder →
    getLastTargetNode n = (focusableNodes n).getLast?
  | .leaf i flags, _ => rfl
  | .parent i flags engine cs, h => by
    have hcs := h.children
    have halg : (Node.parent i flags engine cs).algorithm = none :=
      h.noAlgorithm _ (mem_preorder_self _)
    rw [getLastTargetNode, halg, focusableNodes, Node.children]
    by_cases hdisabled : (Node.parent i flags engine cs).isDisabledOrInvisible = true
    · have hnil := stops_eq_nil _ h.inherited hdisabled
      rw [preorder, stops_cons] at hnil
      rw [if_pos hdisabled, (List.append_eq_nil_iff.1 hnil).2]
      rfl
    · rw [if_neg hdisabled, ← getLastTargetNodeIn_eq cs hcs]
      rfl

theorem getLastTargetNodeIn_eq : (ns : List (Node N)) → Plain (preorderIn ns) →
    getLastTargetNodeIn ns = (stops (preorderIn ns)).getLast?
  | [], _ => rfl
  | n :: ns, h => by
    rw [getLastTargetNodeIn, preorderIn, stops_append, List.getLast?_append,
      getLastTargetNode_eq n h.left, getLastTargetNodeIn_eq ns h.right]
    cases (stops (preorderIn ns)).getLast? with
    | some r => rfl
    | none =>
      by_cases hdisabled : n.isDisabledOrInvisible = true
      · rw [if_pos hdisabled, stops_eq_nil n h.left.inherited hdisabled]
        rfl
      · rw [if_neg hdisabled, preorder_eq, stops_cons, isFocusable,
          Bool.eq_false_iff.2 hdisabled, focusableNodes, List.getLast?_append]
        cases (stops (preorderIn n.children)).getLast? <;> cases n.isTraversable <;> simp

end

end TabOrderHelper

/-! ## The way to a node -/

namespace Node

/-- A node with its parents up to the root. -/
def IsPath (root : Node N) (n : Node N) (parents : List (Node N)) : Prop :=
  (n :: parents).IsChain (fun c p => c ∈ p.children) ∧ (n :: parents).getLast? = some root

section

variable [DecidableEq N]

mutual

theorem pathTo_some (id : N) : (n : Node N) → {path : List (Node N)} → n.pathTo id = some path →
    ∃ m parents, path = m :: parents ∧ m.id = id ∧ IsPath n m parents
  | leaf i flags, path, h => by
    rw [pathTo] at h
    split at h
    · rename_i hid
      cases h
      exact ⟨_, [], rfl, hid, by simp, rfl⟩
    · cases h
  | parent i flags engine cs, path, h => by
    rw [pathTo] at h
    split at h
    · rename_i hid
      cases h
      exact ⟨_, [], rfl, hid, by simp, rfl⟩
    · obtain ⟨path', hpath', rfl⟩ := Option.map_eq_some_iff.1 h
      obtain ⟨c, hc, m, parents, rfl, hid, hchain, hlast⟩ := pathToIn_some id cs hpath'
      refine ⟨m, parents ++ [parent i flags engine cs], rfl, hid, ?_, ?_⟩
      swap
      · rw [← List.cons_append, List.getLast?_append]
        rfl
      rw [← List.cons_append, List.isChain_append]
      refine ⟨hchain, by simp, ?_⟩
      intro x hx y hy
      rw [hlast] at hx
      cases hx
      cases hy
      exact hc

theorem pathToIn_some (id : N) : (ns : List (Node N)) → {path : List (Node N)} →
    pathToIn id ns = some path →
    ∃ c ∈ ns, ∃ m parents, path = m :: parents ∧ m.id = id ∧ IsPath c m parents
  | n :: ns, path, h => by
    rw [pathToIn] at h
    cases hn : n.pathTo id with
    | some path' =>
      rw [hn] at h
      cases h
      exact ⟨n, List.mem_cons_self, pathTo_some id n hn⟩
    | none =>
      rw [hn] at h
      obtain ⟨c, hc, hpath⟩ := pathToIn_some id ns h
      exact ⟨c, List.mem_cons_of_mem _ hc, hpath⟩

end

mutual

theorem pathTo_isSome (id : N) : (n : Node N) → {m : Node N} → m ∈ n.preorder → m.id = id →
    (n.pathTo id).isSome
  | leaf i flags, m, hm, hid => by
    rw [preorder, List.mem_singleton] at hm
    subst hm
    rw [pathTo, if_pos (show i = id from hid)]
    rfl
  | parent i flags engine cs, m, hm, hid => by
    rw [pathTo]
    split
    · rfl
    · rename_i hne
      rw [preorder, List.mem_cons] at hm
      rcases hm with rfl | hm
      · exact absurd hid hne
      · rw [Option.isSome_map]
        exact pathToIn_isSome id cs hm hid

theorem pathToIn_isSome (id : N) : (ns : List (Node N)) → {m : Node N} → m ∈ preorderIn ns →
    m.id = id → (pathToIn id ns).isSome
  | n :: ns, m, hm, hid => by
    rw [pathToIn]
    rw [preorderIn, List.mem_append] at hm
    cases hn : n.pathTo id with
    | some path => rfl
    | none =>
      rcases hm with hm | hm
      · have hsome := pathTo_isSome id n hm hid
        rw [hn] at hsome
        cases hsome
      · exact pathToIn_isSome id ns hm hid

end

end

/-! ## The nodes in a tree -/

mutual

theorem preorder_sublist : (n : Node N) → {m : Node N} → m ∈ n.preorder →
    m.preorder.Sublist n.preorder
  | leaf i flags, m, hm => by
    rw [preorder, List.mem_singleton] at hm
    subst hm
    exact List.Sublist.refl _
  | parent i flags engine cs, m, hm => by
    rw [preorder] at hm ⊢
    rcases List.mem_cons.1 hm with rfl | hm
    · rw [preorder]
    · exact (preorderIn_sublist cs hm).cons _

theorem preorderIn_sublist : (ns : List (Node N)) → {m : Node N} → m ∈ preorderIn ns →
    m.preorder.Sublist (preorderIn ns)
  | n :: ns, m, hm => by
    rw [preorderIn] at hm ⊢
    rcases List.mem_append.1 hm with hm | hm
    · exact (preorder_sublist n hm).trans (List.sublist_append_left _ _)
    · exact (preorderIn_sublist ns hm).trans (List.sublist_append_right _ _)

end

theorem sublist_preorderIn (ns : List (Node N)) : ns.Sublist (preorderIn ns) := by
  induction ns with
  | nil => exact List.Sublist.refl _
  | cons n ns ih =>
    rw [preorderIn, preorder_eq, List.cons_append]
    exact (ih.trans (List.sublist_append_right _ _)).cons_cons n

/-- The nodes of a scene are known by their ids. -/
theorem eq_of_id {ns : List (Node N)} (hnodup : (ns.map id).Nodup) {n m : Node N} (hn : n ∈ ns)
    (hm : m ∈ ns) (h : n.id = m.id) : n = m :=
  List.inj_on_of_nodup_map hnodup hn hm h

/-- The nodes on a path are in the tree. -/
theorem IsPath.mem {root n : Node N} {parents : List (Node N)} (h : IsPath root n parents) :
    ∀ m ∈ n :: parents, m ∈ root.preorder := by
  induction parents generalizing n with
  | nil =>
    intro m hm
    obtain rfl := List.mem_singleton.1 hm
    obtain rfl : m = root := by simpa using h.2
    exact mem_preorder_self m
  | cons p ps ih =>
    obtain ⟨hchild, hchain⟩ := List.isChain_cons_cons.1 h.1
    have hp : IsPath root p ps := ⟨hchain, by rw [← h.2, List.getLast?_cons_cons]⟩
    intro m hm
    rcases List.mem_cons.1 hm with rfl | hm
    · refine (preorder_sublist root (ih hp p List.mem_cons_self)).mem ?_
      rw [preorder_eq]
      exact List.mem_cons_of_mem _ ((sublist_preorderIn _).mem hchild)
    · exact ih hp m hm

theorem IsPath.tail {root n p : Node N} {ps : List (Node N)} (h : IsPath root n (p :: ps)) :
    n ∈ p.children ∧ IsPath root p ps := by
  obtain ⟨hchild, hchain⟩ := List.isChain_cons_cons.1 h.1
  exact ⟨hchild, hchain, by rw [← h.2, List.getLast?_cons_cons]⟩

theorem children_nodup {root p : Node N} (hnodup : (root.preorder.map id).Nodup)
    (hp : p ∈ root.preorder) : (p.children.map id).Nodup := by
  have hsub := preorder_sublist root hp
  rw [preorder_eq p] at hsub
  have hchildren := (sublist_preorderIn p.children).trans ((List.sublist_cons_self p _).trans hsub)
  exact hnodup.sublist (hchildren.map id)

theorem Plain.peers {root n : Node N} (hplain : Plain root.preorder) (hn : n ∈ root.preorder)
    {peers : List (Node N)} (hpeers : ∀ c ∈ peers, c ∈ n.children) : Plain (preorderIn peers) := by
  refine hplain.mono fun m hm => (preorder_sublist root hn).mem ?_
  rw [preorder_eq]
  refine List.mem_cons_of_mem _ ?_
  induction peers with
  | nil => cases hm
  | cons c peers ih =>
    rw [preorderIn] at hm
    rcases List.mem_append.1 hm with hm | hm
    · exact mem_preorderIn (hpeers c List.mem_cons_self) hm
    · exact ih (fun c' hc' => hpeers c' (List.mem_cons_of_mem _ hc')) hm

end Node

namespace TabOrderHelper

open Node

variable [DecidableEq N]

/-- The peers before a node, and those after it. -/
theorem indexOf_split {n : Node N} {peers : List (Node N)} (hn : n ∈ peers)
    (hnodup : (peers.map Node.id).Nodup) :
    peers = peers.take (indexOf n peers) ++ n :: peers.drop (indexOf n peers + 1) := by
  induction peers with
  | nil => cases hn
  | cons m peers ih =>
    rw [List.map_cons, List.nodup_cons] at hnodup
    rw [indexOf, List.findIdx_cons]
    rcases List.mem_cons.1 hn with rfl | hn
    · simp
    · have hne : m.id ≠ n.id := by
        intro heq
        exact hnodup.1 (heq ▸ List.mem_map_of_mem hn)
      have hrest := ih hn hnodup.2
      rw [indexOf] at hrest
      simp only [hne, decide_false, cond_false, List.take_succ_cons, List.drop_succ_cons,
        List.cons_append]
      rw [← hrest]

/-- The nodes that the order has after those of a node. -/
def afterPath : Node N → List (Node N) → List (Node N)
  | _, [] => []
  | n, p :: ps => preorderIn (p.children.drop (indexOf n p.children + 1)) ++ afterPath p ps

/-- The nodes below the root that the order has before a node. -/
def beforePath : Node N → List (Node N) → List (Node N)
  | _, [] => []
  | n, [p] => preorderIn (p.children.take (indexOf n p.children))
  | n, p :: q :: ps =>
    beforePath p (q :: ps) ++ p :: preorderIn (p.children.take (indexOf n p.children))

/-- The nodes below the root are those before a node, those of the node and those after. -/
theorem below_eq {root : Node N} (hnodup : (root.preorder.map Node.id).Nodup) {n p : Node N}
    {ps : List (Node N)} (h : IsPath root n (p :: ps)) :
    preorderIn root.children = beforePath n (p :: ps) ++ n.preorder ++ afterPath n (p :: ps) := by
  induction ps generalizing n p with
  | nil =>
    obtain ⟨hchild, hpath⟩ := h.tail
    obtain rfl : p = root := by simpa using hpath.2
    have hsplit := indexOf_split hchild (children_nodup hnodup (mem_preorder_self p))
    calc preorderIn p.children = _ := congrArg preorderIn hsplit
      _ = _ := by simp [preorderIn_append, preorderIn, beforePath, afterPath]
  | cons q ps ih =>
    obtain ⟨hchild, hpath⟩ := h.tail
    have hsplit := indexOf_split hchild
      (children_nodup hnodup (hpath.mem p List.mem_cons_self))
    have hp : p.preorder = p :: preorderIn (p.children.take (indexOf n p.children)) ++ n.preorder ++
        preorderIn (p.children.drop (indexOf n p.children + 1)) := by
      calc p.preorder = p :: preorderIn p.children := preorder_eq p
        _ = _ := by
          rw [congrArg preorderIn hsplit, preorderIn_append, preorderIn]
          simp
    rw [ih hpath, hp]
    simp only [beforePath, afterPath, List.append_assoc, List.cons_append]

/-- A path does not lead over the root. -/
theorem ne_root_of_isPath {root : Node N} (hnodup : (root.preorder.map Node.id).Nodup) {n p : Node N}
    {ps : List (Node N)} (h : IsPath root n (p :: ps)) : n.id ≠ root.id := by
  have hmem : n ∈ preorderIn root.children := by
    rw [below_eq hnodup h]
    exact List.mem_append_left _ (List.mem_append_right _ (mem_preorder_self n))
  rw [preorder_eq, List.map_cons, List.nodup_cons] at hnodup
  intro heq
  exact hnodup.1 (heq ▸ List.mem_map_of_mem hmem)

/-- The climb looks for the first stop after a node. -/
theorem climbNext_eq {root : Node N} (hplain : Plain root.preorder)
    (hnodup : (root.preorder.map Node.id).Nodup) {n : Node N} {parents : List (Node N)}
    (h : IsPath root n parents) :
    climbNext root.id (findNextPeer n parents) parents = (stops (afterPath n parents)).head? := by
  induction parents generalizing n with
  | nil => rfl
  | cons p ps ih =>
    obtain ⟨hchild, hpath⟩ := h.tail
    have hpeers : Plain (preorderIn (p.children.drop (indexOf n p.children + 1))) :=
      hplain.peers (hpath.mem p List.mem_cons_self) fun c hc => List.mem_of_mem_drop hc
    rw [findNextPeer, findNextFocusableInList_eq _ hpeers, afterPath, stops_append,
      List.head?_append]
    cases (stops (preorderIn (p.children.drop (indexOf n p.children + 1)))).head? with
    | some r => rfl
    | none =>
      rw [climbNext]
      cases ps with
      | nil =>
        obtain rfl : p = root := by simpa using hpath.2
        rw [if_pos rfl]
        rfl
      | cons q ps =>
        rw [if_neg (ne_root_of_isPath hnodup hpath), ih hpath]
        rfl

/-- The climb looks for the last stop before a node. -/
theorem climbPrevious_eq {root : Node N} (hplain : Plain root.preorder)
    (hnodup : (root.preorder.map Node.id).Nodup) {n : Node N} {parents : List (Node N)}
    (h : IsPath root n parents) (henabled : ∀ q ∈ parents, q.isDisabledOrInvisible = false) :
    climbPrevious root.id (findPreviousPeer n parents) parents =
      (stops (beforePath n parents)).getLast? := by
  induction parents generalizing n with
  | nil => rfl
  | cons p ps ih =>
    obtain ⟨hchild, hpath⟩ := h.tail
    have hpeers : Plain (preorderIn (p.children.take (indexOf n p.children))) :=
      hplain.peers (hpath.mem p List.mem_cons_self) fun c hc => List.mem_of_mem_take hc
    rw [findPreviousPeer, findPreviousFocusableInList_eq _ hpeers]
    cases ps with
    | nil =>
      obtain rfl : p = root := by simpa using hpath.2
      rw [beforePath]
      cases (stops (preorderIn (p.children.take (indexOf n p.children)))).getLast? with
      | some r => rfl
      | none => rw [climbPrevious, if_pos rfl]
    | cons q ps =>
      rw [beforePath, stops_append, stops_cons, List.getLast?_append, List.getLast?_append]
      cases (stops (preorderIn (p.children.take (indexOf n p.children)))).getLast? with
      | some r => rfl
      | none =>
        have hfocusable : p.isFocusable = p.isTraversable := by
          rw [isFocusable, henabled p List.mem_cons_self]
          rfl
        rw [climbPrevious, if_neg (ne_root_of_isPath hnodup hpath), hfocusable]
        cases p.isTraversable
        · have hrest := ih hpath fun q hq => henabled q (List.mem_cons_of_mem _ hq)
          simpa using hrest
        · rfl

end TabOrderHelper

namespace TopMostTraversalEngine

open Node TabOrderHelper

variable [DecidableEq N]

/-! ## `trav` -/

omit [DecidableEq N] in
/-- No parent has an algorithm of its own, so `trav` starts from the node. -/
theorem selectInParents_eq (node : N) (path : List (Node N)) {parents : List (Node N)}
    (h : NoAlgorithm parents) (dir : Direction) :
    selectInParents node path parents dir = (none, path, dir) := by
  induction parents with
  | nil => rfl
  | cons p ps ih =>
    rw [selectInParents, h p List.mem_cons_self]
    exact ih fun q hq => h q (List.mem_cons_of_mem _ hq)

variable {root : Node N}

/-- What the theorems about a scene share: its nodes are known by their ids, pass on that
they are disabled or invisible, and have no algorithm of their own. -/
structure IsScene (root : Node N) : Prop where
  nodup : (root.preorder.map Node.id).Nodup
  plain : Plain root.preorder

theorem exists_path (h : IsScene root) {n : Node N} (hn : n ∈ root.preorder) :
    ∃ parents, root.pathTo n.id = some (n :: parents) ∧ IsPath root n parents := by
  obtain ⟨path, hpath⟩ := Option.isSome_iff_exists.1 (pathTo_isSome n.id root hn rfl)
  obtain ⟨m, parents, rfl, hid, hm⟩ := pathTo_some n.id root hpath
  obtain rfl : m = n := eq_of_id h.nodup (hm.mem m List.mem_cons_self) hn hid
  exact ⟨parents, hpath, hm⟩

omit [DecidableEq N] in
/-- The parents of a node that can be focused are neither disabled nor invisible. -/
theorem parents_enabled (h : IsScene root) {n : Node N} {parents : List (Node N)}
    (hpath : IsPath root n parents) (hn : n.isDisabledOrInvisible = false) :
    ∀ q ∈ parents, q.isDisabledOrInvisible = false := by
  induction parents generalizing n with
  | nil => intro q hq; cases hq
  | cons p ps ih =>
    obtain ⟨hchild, hp⟩ := hpath.tail
    have hmem := hp.mem p List.mem_cons_self
    have hdisabled := h.plain.inherited.disabled p hmem n hchild
    have hinvisible := h.plain.inherited.invisible p hmem n hchild
    have henabled : p.isDisabledOrInvisible = false := by
      simp only [isDisabledOrInvisible, Bool.or_eq_false_iff, Bool.not_eq_false'] at hn ⊢
      exact ⟨by simpa [hn.1] using hdisabled, by simpa [hn.2] using hinvisible⟩
    intro q hq
    rcases List.mem_cons.1 hq with rfl | hq
    · exact henabled
    · exact ih hp henabled q hq

theorem trav_next (h : IsScene root) {n p : Node N} {ps : List (Node N)}
    (hpath : root.pathTo n.id = some (n :: p :: ps)) (hp : IsPath root n (p :: ps)) :
    trav root n.id .NEXT =
      ((stops (preorderIn n.children) ++ stops (afterPath n (p :: ps))).head?.or
        (focusableNodes root).head?) := by
  have hmem := hp.mem n List.mem_cons_self
  have hchildren := h.plain.peers hmem fun c hc => hc
  have halg : NoAlgorithm (p :: ps) := fun q hq =>
    h.plain.noAlgorithm q (hp.mem q (List.mem_cons_of_mem _ hq))
  simp only [trav, hpath, List.tail_cons, selectInParents_eq n.id _ halg, select, List.head?_cons,
    Option.bind_some, findNextFocusablePeer, if_true, findNextFocusableInList_eq _ hchildren,
    climbNext_eq h.plain h.nodup hp, getFirstTargetNode_eq root h.plain, List.head?_append]
  cases (stops (preorderIn n.children)).head? with
  | some r => rfl
  | none => cases (stops (afterPath n (p :: ps))).head? <;> rfl

theorem trav_previous (h : IsScene root) {n p : Node N} {ps : List (Node N)}
    (hpath : root.pathTo n.id = some (n :: p :: ps)) (hp : IsPath root n (p :: ps))
    (hn : n.isDisabledOrInvisible = false) :
    trav root n.id .PREVIOUS =
      ((stops (beforePath n (p :: ps))).getLast?.or (focusableNodes root).getLast?) := by
  have halg : NoAlgorithm (p :: ps) := fun q hq =>
    h.plain.noAlgorithm q (hp.mem q (List.mem_cons_of_mem _ hq))
  simp only [trav, hpath, List.tail_cons, selectInParents_eq n.id _ halg, select, List.head?_cons,
    Option.bind_some, findPreviousFocusablePeer, List.isEmpty_cons, Bool.false_eq_true, if_false,
    climbPrevious_eq h.plain h.nodup hp (parents_enabled h hp hn),
    getLastTargetNode_eq root h.plain]
  cases (stops (beforePath n (p :: ps))).getLast? <;> rfl

omit [DecidableEq N] in
/-- What comes after an element, in a cycle. -/
theorem head?_after (before after : List N) (x : N) :
    after.head?.or (before ++ x :: after).head? =
      (before ++ x :: after)[(before.length + 1) % (before ++ x :: after).length]? := by
  cases after with
  | nil => cases before <;> simp
  | cons y after =>
    have hlt : before.length + 1 < (before ++ x :: y :: after).length := by simp
    rw [Nat.mod_eq_of_lt hlt]
    simp

omit [DecidableEq N] in
/-- What comes before an element, in a cycle. -/
theorem getLast?_before (before after : List N) (x : N) :
    before.getLast?.or (before ++ x :: after).getLast? =
      (before ++ x :: after)[(before.length + ((before ++ x :: after).length - 1)) %
        (before ++ x :: after).length]? := by
  rcases List.eq_nil_or_concat' before with rfl | ⟨l, y, rfl⟩
  · rw [List.nil_append, List.getLast?_nil, Option.none_or, List.getLast?_eq_getElem?,
      List.length_nil, Nat.zero_add, Nat.mod_eq_of_lt (by simp)]
  · have hlen : (l ++ [y]).length + ((l ++ [y] ++ x :: after).length - 1) =
        l.length + (l ++ [y] ++ x :: after).length := by
      simp only [List.length_append, List.length_cons, List.length_nil]
      omega
    have hlt : l.length < (l ++ [y] ++ x :: after).length := by
      simp only [List.length_append, List.length_cons, List.length_nil]
      omega
    rw [hlen, Nat.add_mod_right, Nat.mod_eq_of_lt hlt]
    simp

omit [DecidableEq N] in
theorem focusableNodes_nodup (h : IsScene root) : (focusableNodes root).Nodup := by
  have hsub : (focusableNodes root).Sublist (root.preorder.map Node.id) := by
    rw [preorder_eq, List.map_cons]
    exact (List.filter_sublist.map _).trans (List.sublist_cons_self _ _)
  exact h.nodup.sublist hsub

/-- A stop is a node with parents, between the stops before and after it. -/
theorem exists_of_stop (h : IsScene root) {i : ℕ} {x : N} (hx : (focusableNodes root)[i]? = some x) :
    ∃ n p ps, n.id = x ∧ n.isDisabledOrInvisible = false ∧
      root.pathTo n.id = some (n :: p :: ps) ∧ IsPath root n (p :: ps) ∧
      focusableNodes root = stops (beforePath n (p :: ps)) ++
        x :: (stops (preorderIn n.children) ++ stops (afterPath n (p :: ps))) ∧
      (stops (beforePath n (p :: ps))).length = i := by
  obtain ⟨n, hn, rfl⟩ := List.mem_map.1 (List.mem_of_getElem? hx)
  obtain ⟨hbelow, hfocusable⟩ := List.mem_filter.1 hn
  have hmem : n ∈ root.preorder := by
    rw [preorder_eq]
    exact List.mem_cons_of_mem _ hbelow
  obtain ⟨parents, hpathTo, hpath⟩ := exists_path h hmem
  cases parents with
  | nil =>
    -- the root is not below itself
    obtain rfl : n = root := by simpa using hpath.2
    have hids := h.nodup
    rw [preorder_eq, List.map_cons, List.nodup_cons] at hids
    exact absurd (List.mem_map_of_mem hbelow) hids.1
  | cons p ps =>
    have henabled : n.isDisabledOrInvisible = false := by
      rw [isFocusable, Bool.and_eq_true, Bool.not_eq_true'] at hfocusable
      exact hfocusable.1
    have hstops : focusableNodes root = stops (beforePath n (p :: ps)) ++
        n.id :: (stops (preorderIn n.children) ++ stops (afterPath n (p :: ps))) := by
      rw [focusableNodes, below_eq h.nodup hpath, stops_append, stops_append, preorder_eq n,
        stops_cons, if_pos hfocusable]
      simp [List.append_assoc]
    refine ⟨n, p, ps, rfl, henabled, hpathTo, hpath, hstops, ?_⟩
    have hi := (List.getElem?_eq_some_iff.1 hx).1
    refine ((List.getElem?_inj hi (focusableNodes_nodup h)).1 ?_).symm
    rw [hx, hstops]
    simp

theorem trav_next_eq (h : IsScene root) {i : ℕ} {x : N} (hx : (focusableNodes root)[i]? = some x) :
    trav root x .NEXT = (focusableNodes root)[(i + 1) % (focusableNodes root).length]? := by
  obtain ⟨n, p, ps, rfl, _, hpathTo, hpath, hstops, rfl⟩ := exists_of_stop h hx
  rw [trav_next h hpathTo hpath, hstops]
  exact head?_after _ _ _

theorem trav_previous_eq (h : IsScene root) {i : ℕ} {x : N}
    (hx : (focusableNodes root)[i]? = some x) :
    trav root x .PREVIOUS =
      (focusableNodes root)[(i + ((focusableNodes root).length - 1)) %
        (focusableNodes root).length]? := by
  obtain ⟨n, p, ps, rfl, henabled, hpathTo, hpath, hstops, rfl⟩ := exists_of_stop h hx
  rw [trav_previous h hpathTo hpath henabled, hstops]
  exact getLast?_before _ _ _

/-- Where repeated calls with `NEXT` lead. -/
def travs (root : Node N) (x : N) : ℕ → Option N
  | 0 => some x
  | k + 1 => (travs root x k).bind fun y => trav root y .NEXT

theorem travs_eq (h : IsScene root) {i : ℕ} {x : N} (hx : (focusableNodes root)[i]? = some x)
    (k : ℕ) : travs root x k = (focusableNodes root)[(i + k) % (focusableNodes root).length]? := by
  have hi := (List.getElem?_eq_some_iff.1 hx).1
  induction k with
  | zero => rw [travs, Nat.add_zero, Nat.mod_eq_of_lt hi, hx]
  | succ k ih =>
    have hlt := Nat.mod_lt (i + k) (Nat.zero_lt_of_lt hi)
    obtain ⟨y, hy⟩ : ∃ y, (focusableNodes root)[(i + k) % (focusableNodes root).length]? = some y :=
      ⟨_, List.getElem?_eq_getElem hlt⟩
    rw [travs, ih, hy, Option.bind_some, trav_next_eq h hy, Nat.mod_add_mod, Nat.add_assoc]

/-- From the root, the searches look through all nodes below it. -/
theorem trav_root (h : IsScene root) :
    trav root root.id .NEXT = (focusableNodes root).head? ∧
      trav root root.id .PREVIOUS = (focusableNodes root).getLast? := by
  obtain ⟨parents, hpathTo, hpath⟩ := exists_path h (mem_preorder_self root)
  cases parents with
  | cons p ps => exact absurd rfl (ne_root_of_isPath h.nodup hpath)
  | nil =>
    have hchildren := h.plain.children
    constructor
    · simp only [trav, hpathTo, List.tail_cons, selectInParents, select, List.head?_cons,
        Option.bind_some, findNextFocusablePeer, if_true, findNextFocusableInList_eq _ hchildren,
        climbNext, findNextPeer, getFirstTargetNode_eq root h.plain, focusableNodes]
      cases (stops (preorderIn root.children)).head? <;> rfl
    · simp only [trav, hpathTo, List.tail_cons, selectInParents, select, List.head?_cons,
        Option.bind_some, findPreviousFocusablePeer, List.isEmpty_nil, if_true,
        findPreviousFocusableInList_eq _ hchildren, getLastTargetNode_eq root h.plain,
        focusableNodes]
      cases (stops (preorderIn root.children)).getLast? <;> rfl

/-- **The tab order is one cycle** of the focusable nodes below the root, each there once. -/
theorem trav_cycle (h : IsScene root) :
    (focusableNodes root).Nodup ∧
    (∀ i x, (focusableNodes root)[i]? = some x →
      trav root x .NEXT = (focusableNodes root)[(i + 1) % (focusableNodes root).length]? ∧
      trav root x .PREVIOUS = (focusableNodes root)[(i + ((focusableNodes root).length - 1)) %
        (focusableNodes root).length]? ∧
      (∃ y, trav root x .NEXT = some y ∧ trav root y .PREVIOUS = some x) ∧
      ∀ k, travs root x k = (focusableNodes root)[(i + k) % (focusableNodes root).length]?) ∧
    (root.isFocusable = true →
      trav root root.id .NEXT = (focusableNodes root).head? ∧
      trav root root.id .PREVIOUS = (focusableNodes root).getLast?) := by
  refine ⟨focusableNodes_nodup h, ?_, fun _ => trav_root h⟩
  intro i x hx
  refine ⟨trav_next_eq h hx, trav_previous_eq h hx, ?_, travs_eq h hx⟩
  have hi := (List.getElem?_eq_some_iff.1 hx).1
  have hlt := Nat.mod_lt (i + 1) (Nat.zero_lt_of_lt hi)
  obtain ⟨y, hy⟩ : ∃ y, (focusableNodes root)[(i + 1) % (focusableNodes root).length]? = some y :=
    ⟨_, List.getElem?_eq_getElem hlt⟩
  refine ⟨y, by rw [trav_next_eq h hx, hy], ?_⟩
  have hback : i + 1 + ((focusableNodes root).length - 1) = i + (focusableNodes root).length := by
    omega
  rw [trav_previous_eq h hy, Nat.mod_add_mod, hback, Nat.add_mod_right, Nat.mod_eq_of_lt hi, hx]

/-! ## Scenes -/

instance (ns : List (Node N)) : Decidable (NoAlgorithm ns) :=
  decidable_of_iff (∀ n ∈ ns, n.algorithm.isNone = true) (by simp [NoAlgorithm])

omit [DecidableEq N] in
theorem isScene_iff : IsScene root ↔
    (root.preorder.map Node.id).Nodup ∧
      (∀ n ∈ root.preorder, ∀ c ∈ n.children, n.flags.disabled = true → c.flags.disabled = true) ∧
      (∀ n ∈ root.preorder, ∀ c ∈ n.children,
        n.flags.treeVisible = false → c.flags.treeVisible = false) ∧
      NoAlgorithm root.preorder :=
  ⟨fun h => ⟨h.nodup, h.plain.inherited.disabled, h.plain.inherited.invisible, h.plain.noAlgorithm⟩,
    fun ⟨hnodup, hdisabled, hinvisible, halg⟩ => ⟨hnodup, ⟨⟨hdisabled, hinvisible⟩, halg⟩⟩⟩

instance : Decidable (IsScene root) := decidable_of_iff _ isScene_iff.symm

/-- Two groups, the first with an invisible node and the second a stop itself. -/
def twoGroups : Node ℕ :=
  .parent 0 ⟨false, true, false⟩ none
    [.parent 1 ⟨false, true, true⟩ (some ⟨none, some false⟩)
      [.leaf 2 ⟨false, true, true⟩, .leaf 3 ⟨false, false, true⟩],
    .parent 4 ⟨false, true, true⟩ none [.leaf 5 ⟨false, true, true⟩]]

theorem trav_cycle_twoGroups :
    focusableNodes twoGroups = [2, 4, 5] ∧
    (∀ i x, (focusableNodes twoGroups)[i]? = some x →
      trav twoGroups x .NEXT =
        (focusableNodes twoGroups)[(i + 1) % (focusableNodes twoGroups).length]?) := by
  have h : IsScene twoGroups := by decide
  exact ⟨by decide, fun i x hx => ((trav_cycle h).2.1 i x hx).1⟩

/-- A root that can be focused is never the next node. -/
theorem trav_not_to_root :
    let root : Node ℕ := .parent 0 ⟨false, true, true⟩ none [.leaf 1 ⟨false, true, true⟩]
    IsScene root ∧ stops root.preorder = [0, 1] ∧
      trav root 1 .NEXT = some 1 ∧ trav root 1 .PREVIOUS = some 1 := by
  decide

end TopMostTraversalEngine

end JavaFx.Scene
