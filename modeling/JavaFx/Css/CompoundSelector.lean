/-
`CompoundSelector.stateMatches` against the CSS standard.

A compound selector matches a node if its simple selectors can be given to the node
and to ancestors of it, as the combinators demand, so that every one of them applies
to its node and finds its pseudo-classes among that node's states: `Assignment`.

`stateMatches` walks up from the node. For a descendant combinator it takes the
nearest ancestor the next simple selector applies to and never comes back to a
further one, although its comment says that it tries the next parent (and `applies`
does). So it decides whether the assignment to the nearest ancestors is one, and agrees
with the standard on the nodes where that one is as good as any.
-/
import JavaFx.Css.Selector

set_option autoImplicit false

namespace JavaFx.Css.CompoundSelector

variable (reg : Registry) (sel : CompoundSelector)

/-! ## The methods -/

/-- The loop over the parents: the first for which `test` holds is given to `next`. -/
def firstParent (test : Styleable → Bool) (next : Styleable → List Styleable → Bool) :
    List Styleable → Bool
  | [] => false
  | parent :: parents =>
    if test parent then next parent parents else firstParent test next parents

/-- The loop over the parents that tries every one of them. -/
def anyParent (next : Styleable → List Styleable → Bool) : List Styleable → Bool
  | [] => false
  | parent :: parents => if next parent parents then true else anyParent next parents

/-- `selectors.get(index).applies(styleable)`. -/
def selectorApplies (index : ℕ) (styleable : Styleable) : Bool :=
  match sel.selectors[index]? with
  | some s => s.applies reg styleable
  | none => false

/-- `selectors.get(index).stateMatches(styleable, states)`. -/
def selectorStateMatches (index : ℕ) (states : Option BitSet) : Bool :=
  match sel.selectors[index]? with
  | some s => s.stateMatches states
  | none => false

/-- `applies(Styleable, int)`: `parents` are the ancestors of `styleable`. -/
def appliesAt : (index : ℕ) → Styleable → List Styleable → Bool
  | 0, styleable, _ => sel.selectorApplies reg 0 styleable
  | index + 1, styleable, parents =>
    if !sel.selectorApplies reg (index + 1) styleable then false
    else match sel.relationships[index]? with
      | some .child =>
        match parents with
        | [] => false
        | parent :: parents => appliesAt index parent parents
      | _ => anyParent (appliesAt index) parents

/-- `applies(Styleable)`. -/
def applies (styleable : Styleable) (parents : List Styleable) : Bool :=
  sel.appliesAt reg (sel.selectors.length - 1) styleable parents

/-- `stateMatches(Styleable, Set, int)`. -/
def stateMatchesAt : (index : ℕ) → Styleable → List Styleable → Option BitSet → Bool
  | 0, _, _, states => sel.selectorStateMatches 0 states
  | index + 1, _, parents, states =>
    if !sel.selectorStateMatches (index + 1) states then false
    else match sel.relationships[index]? with
      | some .child =>
        match parents with
        | [] => false
        | parent :: parents =>
          if sel.selectorApplies reg index parent then
            stateMatchesAt index parent parents (some parent.pseudoClassStates)
          else false
      | _ =>
        firstParent (sel.selectorApplies reg index)
          (fun parent parents =>
            stateMatchesAt index parent parents (some parent.pseudoClassStates)) parents

/-- `stateMatches(Styleable, Set)`. -/
def stateMatches (styleable : Styleable) (parents : List Styleable) (states : Option BitSet) :
    Bool :=
  sel.stateMatchesAt reg (sel.selectors.length - 1) styleable parents states

/-! ## Assignments -/

/-- Places for the simple selectors up to `index`: `place i` is how far above the
first node of the chain the node of selector `i` stands. The combinators are
respected. -/
structure Placement (index : ℕ) (place : ℕ → ℕ) : Prop where
  start : place index = 0
  child : ∀ i < index, sel.relationships[i]? = some .child → place i = place (i + 1) + 1
  descendant : ∀ i < index, sel.relationships[i]? ≠ some .child → place (i + 1) < place i

/-- The states of the node at a place: those given for the first node, its own for an
ancestor. -/
def statesAt (chain : List Styleable) (states : Option BitSet) (k : ℕ) : Option BitSet :=
  if k = 0 then states else (chain[k]?).map Styleable.pseudoClassStates

/-- Every simple selector up to `index` applies to its node and finds its
pseudo-classes in that node's states. -/
structure Assignment (chain : List Styleable) (states : Option BitSet) (index : ℕ)
    (place : ℕ → ℕ) : Prop extends sel.Placement index place where
  applies : ∀ i ≤ index, ∃ s node, sel.selectors[i]? = some s ∧ chain[place i]? = some node
    ∧ s.applies reg node = true
  states : ∀ i ≤ index, ∃ s t, sel.selectors[i]? = some s ∧ t ∈ statesAt chain states (place i)
    ∧ BitSet.members s.pseudoClassState.bits ⊆ BitSet.members t.bits

/-- Below a descendant combinator the nearest ancestor is taken to which the simple
selector applies. -/
def Nearest (chain : List Styleable) (index : ℕ) (place : ℕ → ℕ) : Prop :=
  ∀ i < index, sel.relationships[i]? ≠ some .child → ∀ k, place (i + 1) < k → k < place i →
    ∀ node ∈ chain[k]?, sel.selectorApplies reg i node = false

/-! ## One step up -/

variable {reg sel} {chain : List Styleable} {states : Option BitSet} {index d : ℕ} {place : ℕ → ℕ}

theorem selectorApplies_iff {i : ℕ} {node : Styleable} : sel.selectorApplies reg i node = true
    ↔ ∃ s, sel.selectors[i]? = some s ∧ s.applies reg node = true := by
  rw [selectorApplies]
  cases sel.selectors[i]? with
  | none => simp
  | some s => simp

theorem selectorStateMatches_iff {i : ℕ} : sel.selectorStateMatches i states = true
    ↔ ∃ s t, sel.selectors[i]? = some s ∧ t ∈ states
      ∧ BitSet.members s.pseudoClassState.bits ⊆ BitSet.members t.bits := by
  rw [selectorStateMatches]
  cases sel.selectors[i]? with
  | none => simp
  | some s => simp [s.stateMatches_iff]

theorem statesAt_drop (hd : 0 < d) (k : ℕ) :
    statesAt (chain.drop d) ((chain[d]?).map Styleable.pseudoClassStates) k
      = statesAt chain states (d + k) := by
  simp only [statesAt, List.getElem?_drop]
  rw [if_neg (show ¬ d + k = 0 by omega)]
  split_ifs with hk
  · rw [hk, Nat.add_zero]
  · rfl

/-- The places go up as the selectors go to the left. -/
theorem Placement.le (h : sel.Placement index place) {i j : ℕ} (hij : i ≤ j) (hj : j ≤ index) :
    place j ≤ place i := by
  obtain ⟨m, rfl⟩ := Nat.exists_eq_add_of_le hij
  clear hij
  induction m with
  | zero => exact le_refl _
  | succ m ih =>
    have hstep : place (i + m + 1) ≤ place (i + m) := by
      by_cases hchild : sel.relationships[i + m]? = some .child
      · rw [h.child (i + m) (by omega) hchild]
        omega
      · exact (h.descendant (i + m) (by omega) hchild).le
    exact hstep.trans (ih (by omega))

/-- The ancestors up to that of the last selector but one are above the node. -/
theorem Placement.pos (h : sel.Placement (index + 1) place) : 0 < place index := by
  by_cases hchild : sel.relationships[index]? = some .child
  · rw [h.child index (Nat.lt_succ_self index) hchild]
    exact Nat.succ_pos _
  · have := h.descendant index (Nat.lt_succ_self index) hchild
    omega

theorem Placement.drop (h : sel.Placement (index + 1) place) (hd : place index = d) :
    sel.Placement index (fun i => place i - d) := by
  have hle : ∀ i ≤ index, d ≤ place i := by
    intro i hi
    rw [← hd]
    exact h.le hi (by omega)
  refine ⟨?_, fun i hi hchild => ?_, fun i hi hchild => ?_⟩
  · rw [hd, Nat.sub_self]
  · have hplace := h.child i (by omega) hchild
    have := hle (i + 1) (by omega)
    omega
  · have hplace := h.descendant i (by omega) hchild
    have := hle (i + 1) (by omega)
    omega

theorem Placement.extend (h : sel.Placement index place) (hpos : 0 < d)
    (hchild : sel.relationships[index]? = some .child → d = 1) :
    sel.Placement (index + 1) (fun i => if i = index + 1 then 0 else d + place i) := by
  refine ⟨?_, fun i hi hc => ?_, fun i hi hc => ?_⟩
  · rw [if_pos rfl]
  · rw [if_neg (by omega)]
    by_cases hlast : i = index
    · rw [if_pos (by omega), hlast, h.start, hchild (by rwa [← hlast])]
    · rw [if_neg (by omega), h.child i (by omega) hc]
      omega
  · rw [if_neg (show ¬ i = index + 1 by omega)]
    by_cases hlast : i = index
    · rw [if_pos (by omega)]
      omega
    · rw [if_neg (by omega)]
      have := h.descendant i (by omega) hc
      omega

/-- An assignment whose last selector but one stands `d` above the node is one for
that ancestor. -/
theorem Assignment.drop (h : sel.Assignment reg chain states (index + 1) place)
    (hd : place index = d) :
    sel.Assignment reg (chain.drop d) ((chain[d]?).map Styleable.pseudoClassStates) index
      (fun i => place i - d) := by
  have hle : ∀ i ≤ index, d ≤ place i := by
    intro i hi
    rw [← hd]
    exact h.toPlacement.le hi (by omega)
  have hpos : 0 < d := hd ▸ h.toPlacement.pos
  refine ⟨h.toPlacement.drop hd, fun i hi => ?_, fun i hi => ?_⟩
  · obtain ⟨s, node, hs, hnode, happlies⟩ := h.applies i (by omega)
    refine ⟨s, node, hs, ?_, happlies⟩
    rw [List.getElem?_drop, Nat.add_sub_cancel' (hle i hi)]
    exact hnode
  · obtain ⟨s, t, hs, ht, hsub⟩ := h.states i (by omega)
    refine ⟨s, t, hs, ?_, hsub⟩
    rw [statesAt_drop hpos, Nat.add_sub_cancel' (hle i hi)]
    exact ht

/-- An assignment for an ancestor, continued down to the node. -/
theorem Assignment.extend {node : Styleable} {s : SimpleSelector} {t : BitSet}
    (h : sel.Assignment reg (chain.drop d) ((chain[d]?).map Styleable.pseudoClassStates) index place)
    (hpos : 0 < d) (hchild : sel.relationships[index]? = some .child → d = 1)
    (hs : sel.selectors[index + 1]? = some s) (hnode : chain[0]? = some node)
    (happlies : s.applies reg node = true) (ht : t ∈ states)
    (hsub : BitSet.members s.pseudoClassState.bits ⊆ BitSet.members t.bits) :
    sel.Assignment reg chain states (index + 1)
      (fun i => if i = index + 1 then 0 else d + place i) := by
  refine ⟨h.toPlacement.extend hpos hchild, fun i hi => ?_, fun i hi => ?_⟩
  · by_cases hlast : i = index + 1
    · rw [if_pos hlast, hlast]
      exact ⟨s, node, hs, hnode, happlies⟩
    · rw [if_neg hlast]
      obtain ⟨s', node', hs', hnode', happlies'⟩ := h.applies i (by omega)
      rw [List.getElem?_drop] at hnode'
      exact ⟨s', node', hs', hnode', happlies'⟩
  · by_cases hlast : i = index + 1
    · rw [if_pos hlast, hlast, statesAt, if_pos rfl]
      exact ⟨s, t, hs, ht, hsub⟩
    · rw [if_neg hlast, ← statesAt_drop hpos]
      exact h.states i (by omega)

theorem Nearest.drop (h : sel.Nearest reg chain (index + 1) place)
    (hplace : sel.Placement (index + 1) place) (hd : place index = d) :
    sel.Nearest reg (chain.drop d) index (fun i => place i - d) := by
  have hle : ∀ i ≤ index, d ≤ place i := by
    intro i hi
    rw [← hd]
    exact hplace.le hi (by omega)
  intro i hi hchild k hk hk' node hnode
  have h1 := hle i (by omega)
  have h2 := hle (i + 1) (by omega)
  dsimp only at hk hk'
  rw [List.getElem?_drop] at hnode
  exact h i (by omega) hchild (d + k) (by omega) (by omega) node hnode

theorem Nearest.extend (h : sel.Nearest reg (chain.drop d) index place)
    (hplace : sel.Placement index place)
    (hfirst : sel.relationships[index]? ≠ some .child → ∀ k, 0 < k → k < d →
      ∀ node ∈ chain[k]?, sel.selectorApplies reg index node = false) :
    sel.Nearest reg chain (index + 1) (fun i => if i = index + 1 then 0 else d + place i) := by
  intro i hi hchild k hk hk' node hnode
  dsimp only at hk hk'
  rw [if_neg (show ¬ i = index + 1 by omega)] at hk'
  by_cases hlast : i = index
  · subst hlast
    rw [if_pos rfl] at hk
    rw [hplace.start] at hk'
    exact hfirst hchild k hk (by omega) node hnode
  · rw [if_neg (by omega)] at hk
    refine h i (by omega) hchild (k - d) (by omega) (by omega) node ?_
    rw [List.getElem?_drop, Nat.add_sub_cancel' (by omega)]
    exact hnode

/-! ## What `stateMatches` decides -/

theorem firstParent_iff {test : Styleable → Bool} {next : Styleable → List Styleable → Bool}
    {parents : List Styleable} : firstParent test next parents = true
    ↔ ∃ d parent rest, parents.drop d = parent :: rest ∧ test parent = true
      ∧ next parent rest = true ∧ ∀ k < d, ∀ node ∈ parents[k]?, test node = false := by
  induction parents with
  | nil => simp [firstParent]
  | cons p ps ih =>
    rw [firstParent]
    by_cases hp : test p = true
    · rw [if_pos hp]
      constructor
      · exact fun h => ⟨0, p, ps, rfl, hp, h, fun k hk => absurd hk (Nat.not_lt_zero k)⟩
      · rintro ⟨d, parent, rest, hdrop, -, hnext, hbefore⟩
        cases d with
        | zero =>
          rw [List.drop_zero, List.cons.injEq] at hdrop
          rw [hdrop.1, hdrop.2]
          exact hnext
        | succ d =>
          have hskipped := hbefore 0 (Nat.succ_pos d) p rfl
          rw [hp] at hskipped
          contradiction
    · rw [if_neg hp, ih]
      constructor
      · rintro ⟨d, parent, rest, hdrop, htest, hnext, hbefore⟩
        refine ⟨d + 1, parent, rest, hdrop, htest, hnext, ?_⟩
        intro k hk node hnode
        cases k with
        | zero =>
          rw [List.getElem?_cons_zero, Option.mem_some_iff] at hnode
          rw [← hnode]
          exact Bool.eq_false_iff.mpr hp
        | succ k => exact hbefore k (by omega) node hnode
      · rintro ⟨d, parent, rest, hdrop, htest, hnext, hbefore⟩
        cases d with
        | zero =>
          rw [List.drop_zero, List.cons.injEq] at hdrop
          rw [hdrop.1] at hp
          exact absurd htest hp
        | succ d =>
          exact ⟨d, parent, rest, hdrop, htest, hnext,
            fun k hk node hnode => hbefore (k + 1) (by omega) node hnode⟩

/-- One call: the pseudo-classes of the node itself, and the ancestor the walk stops at. -/
theorem stateMatchesAt_succ {node : Styleable} {parents : List Styleable} :
    sel.stateMatchesAt reg (index + 1) node parents states = true
    ↔ sel.selectorStateMatches (index + 1) states = true
      ∧ ∃ d parent rest, parents.drop d = parent :: rest
        ∧ sel.selectorApplies reg index parent = true
        ∧ sel.stateMatchesAt reg index parent rest (some parent.pseudoClassStates) = true
        ∧ (sel.relationships[index]? = some .child → d = 0)
        ∧ (sel.relationships[index]? ≠ some .child →
            ∀ k < d, ∀ node ∈ parents[k]?, sel.selectorApplies reg index node = false) := by
  rw [stateMatchesAt.eq_def]
  dsimp only
  by_cases hstates : sel.selectorStateMatches (index + 1) states = true
  swap
  · simp [hstates]
  rw [hstates, Bool.not_true, if_neg Bool.false_ne_true]
  by_cases hchild : sel.relationships[index]? = some .child
  · rw [hchild]
    cases parents with
    | nil => simp
    | cons parent rest =>
      by_cases happlies : sel.selectorApplies reg index parent = true
      · simp [happlies]
      · simp [happlies]
  · have hwalk := @firstParent_iff (sel.selectorApplies reg index)
      (fun parent parents =>
        sel.stateMatchesAt reg index parent parents (some parent.pseudoClassStates)) parents
    split
    · contradiction
    · rw [hwalk]
      simp [hchild]

/-- `stateMatches`, for a node the last selector applies to, decides whether the
assignment to the nearest ancestors is one. -/
theorem stateMatchesAt_iff {node : Styleable} {parents : List Styleable} :
    sel.selectorApplies reg index node = true
      ∧ sel.stateMatchesAt reg index node parents states = true
    ↔ ∃ place, sel.Assignment reg (node :: parents) states index place
      ∧ sel.Nearest reg (node :: parents) index place := by
  induction index generalizing node parents states with
  | zero =>
    rw [stateMatchesAt, selectorApplies_iff, selectorStateMatches_iff]
    constructor
    · rintro ⟨⟨s, hs, happlies⟩, s', t, hs', ht, hsub⟩
      refine ⟨fun _ => 0, ⟨⟨rfl, fun i hi => absurd hi (Nat.not_lt_zero i),
        fun i hi => absurd hi (Nat.not_lt_zero i)⟩, fun i hi => ?_, fun i hi => ?_⟩,
        fun i hi => absurd hi (Nat.not_lt_zero i)⟩
      · rw [Nat.le_zero.mp hi]
        exact ⟨s, node, hs, rfl, happlies⟩
      · rw [Nat.le_zero.mp hi]
        exact ⟨s', t, hs', ht, hsub⟩
    · rintro ⟨place, h, -⟩
      obtain ⟨s, node', hs, hnode', happlies⟩ := h.applies 0 (le_refl 0)
      obtain ⟨s', t, hs', ht, hsub⟩ := h.states 0 (le_refl 0)
      rw [h.start, List.getElem?_cons_zero, Option.some.injEq] at hnode'
      rw [h.start] at ht
      rw [hnode']
      exact ⟨⟨s, hs, happlies⟩, s', t, hs', ht, hsub⟩
  | succ index ih =>
    rw [stateMatchesAt_succ, selectorApplies_iff, selectorStateMatches_iff]
    constructor
    · rintro ⟨⟨s, hs, happlies⟩, ⟨s', t, hs', ht, hsub⟩,
        d, parent, rest, hdrop, hparent, hrest, hchild, hfirst⟩
      obtain rfl : s = s' := Option.some.inj (hs.symm.trans hs')
      have hchain : (node :: parents).drop (d + 1) = parent :: rest := hdrop
      have hhead : (node :: parents)[d + 1]? = some parent := by
        rw [← List.head?_drop, hchain, List.head?_cons]
      obtain ⟨place, hplace, hnearest⟩ := ih.mp ⟨hparent, hrest⟩
      rw [← hchain] at hplace hnearest
      have hstates : some parent.pseudoClassStates
          = ((node :: parents)[d + 1]?).map Styleable.pseudoClassStates := by
        rw [hhead, Option.map_some]
      rw [hstates] at hplace
      refine ⟨_, hplace.extend (Nat.succ_pos d) (fun h => by rw [hchild h]) hs rfl happlies ht
        hsub, hnearest.extend hplace.toPlacement ?_⟩
      intro hne k hk hk' node' hnode'
      obtain ⟨k, rfl⟩ := Nat.exists_eq_succ_of_ne_zero hk.ne'
      exact hfirst hne k (by omega) node' hnode'
    · rintro ⟨place, h, hnearest⟩
      obtain ⟨s, node', hs, hnode', happlies⟩ := h.applies (index + 1) (le_refl _)
      obtain ⟨s', t, hs', ht, hsub⟩ := h.states (index + 1) (le_refl _)
      rw [h.start, List.getElem?_cons_zero, Option.some.injEq] at hnode'
      rw [h.start] at ht
      rw [hnode']
      refine ⟨⟨s, hs, happlies⟩, ⟨s', t, hs', ht, hsub⟩, ?_⟩
      -- the ancestor that the selector next to the left is assigned to
      obtain ⟨s₁, parent, -, hparent, -⟩ := h.applies index (Nat.le_succ index)
      obtain ⟨d, hd⟩ := Nat.exists_eq_succ_of_ne_zero h.toPlacement.pos.ne'
      rw [hd, List.getElem?_cons_succ] at hparent
      obtain ⟨hlt, hget⟩ := List.getElem?_eq_some_iff.mp hparent
      have hdrop : parents.drop d = parent :: parents.drop (d + 1) := by
        rw [List.drop_eq_getElem_cons hlt, hget]
      have hassigned := h.drop hd
      rw [List.getElem?_cons_succ, hparent, Option.map_some, List.drop_succ_cons, hdrop]
        at hassigned
      have hnear := hnearest.drop h.toPlacement hd
      rw [List.drop_succ_cons, hdrop] at hnear
      obtain ⟨h1, h2⟩ := ih.mpr ⟨_, hassigned, hnear⟩
      refine ⟨d, parent, _, hdrop, h1, h2, ?_, ?_⟩
      · intro hc
        have := h.child index (Nat.lt_succ_self index) hc
        rw [h.start] at this
        omega
      · intro hc k hk node'' hnode''
        refine hnearest index (Nat.lt_succ_self index) hc (k + 1) ?_ ?_ node'' hnode''
        · rw [h.start]
          exact Nat.succ_pos k
        · omega

theorem appliesAt_selectorApplies {node : Styleable} {parents : List Styleable}
    (h : sel.appliesAt reg index node parents = true) :
    sel.selectorApplies reg index node = true := by
  cases index with
  | zero => exact h
  | succ index =>
    by_contra hnot
    rw [appliesAt.eq_def] at h
    dsimp only at h
    rw [Bool.eq_false_iff.mpr hnot] at h
    exact Bool.false_ne_true h

/-- `stateMatches` is right about the nodes the selector applies to exactly when an
assignment, if there is one, can be had from the nearest ancestors. -/
theorem stateMatches_iff_assignment (reg : Registry) (sel : CompoundSelector) (node : Styleable)
    (parents : List Styleable) (states : Option BitSet) :
    (sel.applies reg node parents = true →
      (sel.stateMatches reg node parents states = true
        ↔ ∃ place, sel.Assignment reg (node :: parents) states (sel.selectors.length - 1) place))
    ↔ (sel.applies reg node parents = true →
        (∃ place, sel.Assignment reg (node :: parents) states (sel.selectors.length - 1) place) →
        ∃ place, sel.Assignment reg (node :: parents) states (sel.selectors.length - 1) place
          ∧ sel.Nearest reg (node :: parents) (sel.selectors.length - 1) place) := by
  refine forall_congr' fun happlies => ?_
  have hdecides : sel.stateMatches reg node parents states = true
      ↔ ∃ place, sel.Assignment reg (node :: parents) states (sel.selectors.length - 1) place
        ∧ sel.Nearest reg (node :: parents) (sel.selectors.length - 1) place := by
    rw [← stateMatchesAt_iff, stateMatches]
    exact (and_iff_right (appliesAt_selectorApplies happlies)).symm
  rw [hdecides]
  constructor
  · exact fun h => h.mpr
  · exact fun h => ⟨fun ⟨place, hplace, _⟩ => ⟨place, hplace⟩, h⟩

/-- `A:hover B` on a `B` in an `A` that is not hovered, which is in an `A` that is. -/
theorem stateMatches_misses : ¬ ∀ (reg : Registry) (sel : CompoundSelector) (node : Styleable)
    (parents : List Styleable) (states : Option BitSet), sel.applies reg node parents = true →
      (sel.stateMatches reg node parents states = true
        ↔ ∃ place,
            sel.Assignment reg (node :: parents) states (sel.selectors.length - 1) place) := by
  intro h
  let simple (name : String) (states : List ℕ) : SimpleSelector :=
    { name, styleClassSet := .ofList [], id := "", pseudoClassState := .ofList states
      nodeOrientation := .inherit, styleClassSet_canonical := BitSet.canonical_ofList _
      pseudoClassState_canonical := BitSet.canonical_ofList _ }
  let styleable (typeSelector : String) (states : List ℕ) : Styleable :=
    { id := none, typeSelector, styleClass := [], pseudoClassStates := .ofList states
      orientations := none }
  let sel : CompoundSelector :=
    { selectors := [simple "A" [0], simple "B" []], relationships := [.descendant], length_eq := rfl }
  have hsel := h default sel (styleable "B" []) [styleable "A" [], styleable "A" [0]]
    (some (.ofList [])) (by decide)
  have hfalse : sel.stateMatches default (styleable "B" []) [styleable "A" [], styleable "A" [0]]
      (some (.ofList [])) = false := by
    decide
  rw [hfalse] at hsel
  refine Bool.false_ne_true (hsel.mpr ⟨fun i => if i = 0 then 2 else 0, ⟨⟨rfl, ?_, ?_⟩, ?_, ?_⟩⟩)
  · intro i hi hchild
    obtain rfl : i = 0 := Nat.lt_one_iff.mp hi
    cases hchild
  · intro i hi _
    obtain rfl : i = 0 := Nat.lt_one_iff.mp hi
    exact Nat.zero_lt_two
  · intro i hi
    obtain rfl | rfl : i = 0 ∨ i = 1 := Nat.le_one_iff_eq_zero_or_eq_one.mp hi
    · exact ⟨simple "A" [0], styleable "A" [0], rfl, rfl, by decide⟩
    · exact ⟨simple "B" [], styleable "B" [], rfl, rfl, by decide⟩
  · intro i hi
    obtain rfl | rfl : i = 0 ∨ i = 1 := Nat.le_one_iff_eq_zero_or_eq_one.mp hi
    · exact ⟨simple "A" [0], .ofList [0], rfl, rfl, subset_refl _⟩
    · exact ⟨simple "B" [], .ofList [], rfl, rfl, subset_refl _⟩

end JavaFx.Css.CompoundSelector
