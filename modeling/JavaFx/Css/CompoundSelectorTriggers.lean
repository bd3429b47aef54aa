/-
`CompoundSelector.applies` with trigger states.

The caller hands in an array with an entry for the node and each of its ancestors,
and wants to find in entry `d` the pseudo-classes on which it depends, at the ancestor
`d` above the node, whether the selector matches. Whether a compound selector applies
is known only at the end of a search that may have to come back from an ancestor, so
the search writes to an array of its own, which is copied back if it succeeds.

The search finds the assignment that comes first in its order (`First`). What it wrote
on paths that failed stays in the array, so the entries hold at least the
pseudo-classes of that assignment (`applies_collects`).
-/
import JavaFx.Css.CompoundSelector
import JavaFx.Css.Match

set_option autoImplicit false

namespace JavaFx.Css

/-! ## The methods -/

/-- `Set<PseudoClass>[]`: an entry is `null` or a set. -/
abbrev TriggerStates := List (Option BitSet)

/-- `if (pseudoClasses[depth] == null) ...; pseudoClasses[depth].addAll(states)`. -/
def TriggerStates.collect (t : TriggerStates) (depth : ℕ) (states : BitSet) : TriggerStates :=
  t.modify depth (fun entry => some ((entry.getD (.new false)).addAll (some states.bits)).set)

/-- One entry copied back. -/
def TriggerStates.copyBack (pseudoClassOut pseudoClassIn : Option BitSet) : Option BitSet :=
  match pseudoClassOut with
  | some s => some (s.addAll (pseudoClassIn.map BitSet.bits)).set
  | none => pseudoClassIn

/-- `SimpleSelector.applies(Styleable, Set[], int)`. -/
def SimpleSelector.appliesWith (s : SimpleSelector) (reg : Registry) (styleable : Styleable)
    (pseudoClasses : Option TriggerStates) (depth : ℕ) : Bool × Option TriggerStates :=
  let applies := s.applies reg styleable
  match pseudoClasses with
  | none => (applies, none)
  | some t =>
    if applies && decide (depth < t.length) then
      (applies, some (t.collect depth s.pseudoClassState))
    else (applies, some t)

namespace CompoundSelector

variable (reg : Registry) (sel : CompoundSelector)

/-- `selectors.get(index).applies(styleable, triggerStates, depth)`. -/
def selectorAppliesWith (index : ℕ) (styleable : Styleable) (triggerStates : Option TriggerStates)
    (depth : ℕ) : Bool × Option TriggerStates :=
  match sel.selectors[index]? with
  | some s => s.appliesWith reg styleable triggerStates depth
  | none => (false, triggerStates)

/-- The loop over the parents: what one of them that fails has written stays. -/
def anyParentWith
    (next : Styleable → List Styleable → Option TriggerStates → ℕ → Bool × Option TriggerStates) :
    List Styleable → Option TriggerStates → ℕ → Bool × Option TriggerStates
  | [], triggerStates, _ => (false, triggerStates)
  | parent :: parents, triggerStates, depth =>
    let answer := next parent parents triggerStates (depth + 1)
    if answer.1 then (true, answer.2) else anyParentWith next parents answer.2 (depth + 1)

/-- `applies(Styleable, int, Set[], int)`: `parents` are the ancestors of `styleable`. -/
def appliesWithAt : (index : ℕ) → Styleable → List Styleable → Option TriggerStates → (depth : ℕ) →
    Bool × Option TriggerStates
  | 0, styleable, _, triggerStates, depth =>
    sel.selectorAppliesWith reg 0 styleable triggerStates depth
  | index + 1, styleable, parents, triggerStates, depth =>
    let own := sel.selectorAppliesWith reg (index + 1) styleable triggerStates depth
    if !own.1 then (false, own.2)
    else match sel.relationships[index]? with
      | some .child =>
        match parents with
        | [] => (false, own.2)
        | parent :: parents => appliesWithAt index parent parents own.2 (depth + 1)
      | _ => anyParentWith (appliesWithAt index) parents own.2 depth

/-- `applies(Styleable, Set[], int)`. -/
def appliesWith (styleable : Styleable) (parents : List Styleable)
    (triggerStates : Option TriggerStates) (depth : ℕ) : Bool × Option TriggerStates :=
  match triggerStates with
  | none => sel.appliesWithAt reg (sel.selectors.length - 1) styleable parents none depth
  | some t =>
    if t.length ≤ depth then (false, some t)
    else
      let tempStates : TriggerStates := List.replicate t.length none
      match sel.appliesWithAt reg (sel.selectors.length - 1) styleable parents (some tempStates)
        depth with
      | (true, some temp) => (true, some (List.zipWith TriggerStates.copyBack t temp))
      | (applies, _) => (applies, some t)

/-! ## What is to be found -/

/-- An assignment of the simple selectors up to `index` to the nodes of a chain: the
combinators are respected and every simple selector applies to its node. -/
structure Applicable (chain : List Styleable) (index : ℕ) (place : ℕ → ℕ) : Prop
    extends sel.Placement index place where
  applies : ∀ i ≤ index, ∃ s node, sel.selectors[i]? = some s ∧ chain[place i]? = some node
    ∧ s.applies reg node = true

/-- Of the assignments that agree with this one on the selectors to the right, none
has a nearer ancestor for the next selector. -/
def First (chain : List Styleable) (index : ℕ) (place : ℕ → ℕ) : Prop :=
  ∀ place', sel.Applicable reg chain index place' → ∀ i ≤ index,
    (∀ j ≤ index, i < j → place' j = place j) → place i ≤ place' i

/-- The pseudo-classes of the simple selectors up to `index` are in the entries of the
nodes they are assigned to. -/
def Collected (depth index : ℕ) (place : ℕ → ℕ) (t : TriggerStates) : Prop :=
  ∀ i ≤ index, ∀ s ∈ sel.selectors[i]?, ∀ p ∈ BitSet.members s.pseudoClassState.bits,
    ∃ states : BitSet, t[depth + place i]? = some (some states) ∧ p ∈ BitSet.members states.bits

end CompoundSelector

/-! ## Entries -/

namespace TriggerStates

variable {t t' t'' : TriggerStates} {states : BitSet} {depth d : ℕ}

/-- What the set at `d` contains. -/
def entry (t : TriggerStates) (d : ℕ) : Set ℕ :=
  {i | ∃ s : BitSet, t[d]? = some (some s) ∧ i ∈ BitSet.members s.bits}

/-- `t'` is `t` with more in its sets. -/
structure Grows (t t' : TriggerStates) : Prop where
  length : t'.length = t.length
  entry : ∀ d, t.entry d ⊆ t'.entry d

theorem Grows.refl (t : TriggerStates) : Grows t t := ⟨rfl, fun _ => subset_rfl⟩

theorem Grows.trans (h : Grows t t') (h' : Grows t' t'') : Grows t t'' where
  length := h'.length.trans h.length
  entry d := (h.entry d).trans (h'.entry d)

theorem entry_collect_self (h : depth < t.length) :
    (t.collect depth states).entry depth = t.entry depth ∪ BitSet.members states.bits := by
  ext i
  simp only [entry, collect, List.getElem?_modify_eq, List.getElem?_eq_getElem h, Set.mem_ofPred_eq,
    Option.some.injEq, Set.mem_union]
  cases t[depth] with
  | none =>
    have hnew : BitSet.members (BitSet.new false).bits = ∅ := BitSet.members_nil
    simp [BitSet.members_addAll, hnew]
  | some s => simp [BitSet.members_addAll]

theorem entry_collect_of_ne (h : d ≠ depth) : (t.collect depth states).entry d = t.entry d := by
  have hsame : (t.collect depth states)[d]? = t[d]? := by
    rw [collect, List.getElem?_modify_ne _ _ h.symm]
  simp only [entry, hsame]

theorem grows_collect : Grows t (t.collect depth states) where
  length := List.length_modify _ _ _
  entry d := by
    by_cases hd : d = depth
    · by_cases hlt : depth < t.length
      · rw [hd, entry_collect_self hlt]
        exact Set.subset_union_left
      · rintro i ⟨s, hs, -⟩
        have := (List.getElem?_eq_some_iff.mp hs).1
        omega
    · exact (entry_collect_of_ne hd).ge

theorem entry_zipWith_copyBack (h : t'.length = t.length) (d : ℕ) :
    entry (List.zipWith copyBack t t') d = t.entry d ∪ t'.entry d := by
  by_cases hlt : d < t.length
  · ext i
    simp only [entry, List.getElem?_zipWith, List.getElem?_eq_getElem hlt,
      List.getElem?_eq_getElem (h.symm ▸ hlt), Set.mem_ofPred_eq, Set.mem_union, copyBack]
    cases t[d] with
    | none => simp
    | some s =>
      cases t'[d] with
      | none => simp [BitSet.addAll]
      | some s' => simp [BitSet.members_addAll]
  · have hnone : t[d]? = none := List.getElem?_eq_none_iff.mpr (not_lt.mp hlt)
    have hnone' : t'[d]? = none := List.getElem?_eq_none_iff.mpr (h ▸ not_lt.mp hlt)
    simp [entry, List.getElem?_zipWith, hnone, hnone']

end TriggerStates

namespace CompoundSelector

open TriggerStates

variable {reg : Registry} {sel : CompoundSelector} {chain : List Styleable} {index d : ℕ}
  {place : ℕ → ℕ} {node : Styleable} {parents : List Styleable} {depth : ℕ}
  {t t' : TriggerStates}

/-! ## Assignments, one step up -/

theorem Applicable.drop (h : sel.Applicable reg chain (index + 1) place) (hd : place index = d) :
    sel.Applicable reg (chain.drop d) index (fun i => place i - d) := by
  refine ⟨h.toPlacement.drop hd, fun i hi => ?_⟩
  have hle : d ≤ place i := by
    rw [← hd]
    exact h.toPlacement.le hi (by omega)
  obtain ⟨s, node, hs, hnode, happlies⟩ := h.applies i (by omega)
  refine ⟨s, node, hs, ?_, happlies⟩
  rw [List.getElem?_drop, Nat.add_sub_cancel' hle]
  exact hnode

theorem Applicable.extend (h : sel.Applicable reg (chain.drop d) index place) (hpos : 0 < d)
    (hchild : sel.relationships[index]? = some .child → d = 1) (hnode : chain[0]? = some node)
    (happlies : sel.selectorApplies reg (index + 1) node = true) :
    sel.Applicable reg chain (index + 1) (fun i => if i = index + 1 then 0 else d + place i) := by
  refine ⟨h.toPlacement.extend hpos hchild, fun i hi => ?_⟩
  by_cases hlast : i = index + 1
  · obtain ⟨s, hs, hself⟩ := selectorApplies_iff.mp happlies
    rw [if_pos hlast, hlast]
    exact ⟨s, node, hs, hnode, hself⟩
  · rw [if_neg hlast]
    obtain ⟨s, node', hs, hnode', hself⟩ := h.applies i (by omega)
    rw [List.getElem?_drop] at hnode'
    exact ⟨s, node', hs, hnode', hself⟩

/-- The ancestor of the last selector but one, and the assignment for it. -/
theorem Applicable.parent (h : sel.Applicable reg (node :: parents) (index + 1) place) :
    ∃ d parent rest, place index = d + 1 ∧ parents.drop d = parent :: rest
      ∧ sel.Applicable reg (parent :: rest) index (fun i => place i - (d + 1)) := by
  obtain ⟨d, hd⟩ := Nat.exists_eq_succ_of_ne_zero h.toPlacement.pos.ne'
  obtain ⟨s, parent, -, hparent, -⟩ := h.applies index (Nat.le_succ index)
  rw [hd, List.getElem?_cons_succ] at hparent
  obtain ⟨hlt, hget⟩ := List.getElem?_eq_some_iff.mp hparent
  have hdrop : parents.drop d = parent :: parents.drop (d + 1) := by
    rw [List.drop_eq_getElem_cons hlt, hget]
  have hassigned := h.drop hd
  rw [List.drop_succ_cons, hdrop] at hassigned
  exact ⟨d, parent, _, hd, hdrop, hassigned⟩

/-- The first assignment takes the nearest ancestor for which there is one, and the
first one for that. -/
theorem First.extend (h : sel.First reg (chain.drop d) index place)
    (hstart : place index = 0)
    (hbefore : ∀ place', sel.Applicable reg chain (index + 1) place' → d ≤ place' index) :
    sel.First reg chain (index + 1) (fun i => if i = index + 1 then 0 else d + place i) := by
  intro place' happlicable i hi hagree
  dsimp only at hagree ⊢
  by_cases hlast : i = index + 1
  · rw [if_pos hlast]
    exact Nat.zero_le _
  rw [if_neg hlast]
  by_cases hindex : i = index
  · rw [hindex, hstart]
    exact hbefore place' happlicable
  have hd : place' index = d := by
    rw [hagree index (Nat.le_succ index) (by omega), if_neg (by omega), hstart, Nat.add_zero]
  have hle := h _ (happlicable.drop hd) i (by omega) (fun j hj hij => ?_)
  · have hpos : d ≤ place' i := by
      rw [← hd]
      exact happlicable.toPlacement.le (by omega) (by omega)
    omega
  · rw [hagree j (by omega) hij, if_neg (by omega)]
    omega

/-! ## The search -/

theorem anyParent_iff {next : Styleable → List Styleable → Bool} :
    anyParent next parents = true
    ↔ ∃ d parent rest, parents.drop d = parent :: rest ∧ next parent rest = true := by
  induction parents with
  | nil => simp [anyParent]
  | cons p ps ih =>
    rw [anyParent]
    by_cases hp : next p ps = true
    · rw [if_pos hp]
      exact ⟨fun _ => ⟨0, p, ps, rfl, hp⟩, fun _ => rfl⟩
    · rw [if_neg hp, ih]
      constructor
      · rintro ⟨d, parent, rest, hdrop, hnext⟩
        exact ⟨d + 1, parent, rest, hdrop, hnext⟩
      · rintro ⟨d, parent, rest, hdrop, hnext⟩
        cases d with
        | zero =>
          rw [List.drop_zero, List.cons.injEq] at hdrop
          rw [hdrop.1, hdrop.2] at hp
          exact absurd hnext hp
        | succ d => exact ⟨d, parent, rest, hdrop, hnext⟩

theorem appliesAt_succ : sel.appliesAt reg (index + 1) node parents = true
    ↔ sel.selectorApplies reg (index + 1) node = true
      ∧ ∃ d parent rest, parents.drop d = parent :: rest
        ∧ sel.appliesAt reg index parent rest = true
        ∧ (sel.relationships[index]? = some .child → d = 0) := by
  rw [appliesAt.eq_def]
  dsimp only
  by_cases happlies : sel.selectorApplies reg (index + 1) node = true
  swap
  · simp [happlies]
  rw [happlies, Bool.not_true, if_neg Bool.false_ne_true]
  by_cases hchild : sel.relationships[index]? = some .child
  · rw [hchild]
    cases parents with
    | nil => simp
    | cons parent rest => simp
  · split
    · contradiction
    · rw [anyParent_iff]
      simp [hchild]

/-- The search succeeds if there is an assignment to be found. -/
theorem appliesAt_iff : sel.appliesAt reg index node parents = true
    ↔ ∃ place, sel.Applicable reg (node :: parents) index place := by
  induction index generalizing node parents with
  | zero =>
    rw [appliesAt, selectorApplies_iff]
    constructor
    · rintro ⟨s, hs, happlies⟩
      refine ⟨fun _ => 0, ⟨rfl, fun i hi => absurd hi (Nat.not_lt_zero i),
        fun i hi => absurd hi (Nat.not_lt_zero i)⟩, fun i hi => ?_⟩
      rw [Nat.le_zero.mp hi]
      exact ⟨s, node, hs, rfl, happlies⟩
    · rintro ⟨place, h⟩
      obtain ⟨s, node', hs, hnode', happlies⟩ := h.applies 0 (le_refl 0)
      rw [h.start, List.getElem?_cons_zero, Option.some.injEq] at hnode'
      rw [hnode']
      exact ⟨s, hs, happlies⟩
  | succ index ih =>
    rw [appliesAt_succ]
    constructor
    · rintro ⟨happlies, d, parent, rest, hdrop, hrest, hchild⟩
      obtain ⟨place, hplace⟩ := ih.mp hrest
      have hchain : (node :: parents).drop (d + 1) = parent :: rest := hdrop
      rw [← hchain] at hplace
      exact ⟨_, hplace.extend (Nat.succ_pos d) (fun hc => by rw [hchild hc]) rfl happlies⟩
    · rintro ⟨place, h⟩
      obtain ⟨s, node', hs, hnode', happlies⟩ := h.applies (index + 1) (le_refl _)
      rw [h.start, List.getElem?_cons_zero, Option.some.injEq] at hnode'
      obtain ⟨d, parent, rest, hd, hdrop, hparent⟩ := h.parent
      refine ⟨selectorApplies_iff.mpr ⟨s, hs, hnode' ▸ happlies⟩, d, parent, rest, hdrop,
        ih.mpr ⟨_, hparent⟩, fun hc => ?_⟩
      have := h.child index (Nat.lt_succ_self index) hc
      rw [h.start] at this
      omega

/-! ## What the search writes -/

theorem Collected.grow (h : sel.Collected depth index place t) (hgrows : Grows t t') :
    sel.Collected depth index place t' :=
  fun i hi s hs p hp => hgrows.entry _ (h i hi s hs p hp)

/-- What is collected for an ancestor, with what is collected for the node. -/
theorem Collected.extend (h : sel.Collected (depth + d) index place t)
    (hself : ∀ s ∈ sel.selectors[index + 1]?,
      BitSet.members s.pseudoClassState.bits ⊆ t.entry depth) :
    sel.Collected depth (index + 1) (fun i => if i = index + 1 then 0 else d + place i) t := by
  intro i hi s hs p hp
  dsimp only
  by_cases hlast : i = index + 1
  · rw [if_pos hlast]
    rw [hlast] at hs
    exact hself s hs hp
  · rw [if_neg hlast, ← Nat.add_assoc]
    exact h i (by omega) s hs p hp

theorem selectorAppliesWith_spec (node : Styleable) (t : TriggerStates) (depth : ℕ) : ∃ t',
    sel.selectorAppliesWith reg index node (some t) depth
      = (sel.selectorApplies reg index node, some t')
    ∧ Grows t t'
    ∧ (sel.selectorApplies reg index node = true → depth < t.length →
        ∀ s ∈ sel.selectors[index]?,
          BitSet.members s.pseudoClassState.bits ⊆ t'.entry depth) := by
  rw [selectorAppliesWith, selectorApplies]
  cases sel.selectors[index]? with
  | none => exact ⟨t, rfl, Grows.refl t, by rintro ⟨⟩⟩
  | some s =>
    by_cases hcollects : (s.applies reg node && decide (depth < t.length)) = true
    · have happlies := (Bool.and_eq_true_iff.mp hcollects).1
      refine ⟨t.collect depth s.pseudoClassState, ?_, grows_collect, fun _ hlt s' hs' => ?_⟩
      · simp only [SimpleSelector.appliesWith, hcollects, if_true]
      · obtain rfl : s = s' := Option.some.inj hs'
        rw [entry_collect_self hlt]
        exact Set.subset_union_right
    · refine ⟨t, ?_, Grows.refl t, fun happlies hlt => ?_⟩
      · simp only [SimpleSelector.appliesWith, hcollects, Bool.false_eq_true, if_false]
      · exact absurd (by simp [happlies, hlt]) hcollects

/-- The loop stops at the nearest ancestor for which the search succeeds, and keeps
depth and ancestor in step. -/
theorem anyParentWith_spec
    {next : Styleable → List Styleable → Option TriggerStates → ℕ → Bool × Option TriggerStates}
    {next' : Styleable → List Styleable → Bool}
    (hnext : ∀ parent rest t depth, ∃ t',
      next parent rest (some t) depth = (next' parent rest, some t') ∧ Grows t t')
    (parents : List Styleable) (t : TriggerStates) (depth : ℕ) : ∃ t',
    anyParentWith next parents (some t) depth = (anyParent next' parents, some t') ∧ Grows t t'
    ∧ (anyParent next' parents = true → ∃ d parent rest t₁, parents.drop d = parent :: rest
        ∧ Grows t t₁ ∧ next parent rest (some t₁) (depth + (d + 1)) = (true, some t')
        ∧ ∀ k < d, ∀ p r, parents.drop k = p :: r → next' p r = false) := by
  induction parents generalizing t depth with
  | nil => exact ⟨t, rfl, Grows.refl t, nofun⟩
  | cons parent parents ih =>
    obtain ⟨t₁, heq, hgrows⟩ := hnext parent parents t (depth + 1)
    by_cases hfound : next' parent parents = true
    · refine ⟨t₁, ?_, hgrows, fun _ => ⟨0, parent, parents, t, rfl, Grows.refl t, ?_,
        fun k hk => absurd hk (Nat.not_lt_zero k)⟩⟩
      · simp only [anyParentWith, anyParent, heq, hfound, if_true]
      · rw [heq, hfound]
    · obtain ⟨t', heq', hgrows', hstop⟩ := ih t₁ (depth + 1)
      refine ⟨t', ?_, hgrows.trans hgrows', fun h => ?_⟩
      · simp only [anyParentWith, anyParent, heq, hfound, Bool.false_eq_true, if_false, heq']
      · rw [anyParent, if_neg hfound] at h
        obtain ⟨d, p, r, t₂, hdrop, hgrows₂, hlast, hbefore⟩ := hstop h
        refine ⟨d + 1, p, r, t₂, hdrop, hgrows.trans hgrows₂, ?_, ?_⟩
        · rw [← hlast, Nat.add_assoc depth 1, Nat.add_comm 1]
        · intro k hk p' r' hdrop'
          cases k with
          | zero =>
            rw [List.drop_zero, List.cons.injEq] at hdrop'
            rw [← hdrop'.1, ← hdrop'.2]
            exact Bool.eq_false_iff.mpr hfound
          | succ k => exact hbefore k (by omega) p' r' hdrop'

/-- The search from the ancestor it stops at, seen from the node. -/
theorem found_step {t₁ : TriggerStates} {parent : Styleable} {rest : List Styleable}
    (happlies : sel.selectorApplies reg (index + 1) node = true)
    (hself : depth < t₁.length → ∀ s ∈ sel.selectors[index + 1]?,
      BitSet.members s.pseudoClassState.bits ⊆ t₁.entry depth)
    (hgrows : Grows t₁ t') (hdrop : parents.drop d = parent :: rest)
    (hchild : sel.relationships[index]? = some .child → d = 0)
    (hbefore : sel.relationships[index]? ≠ some .child →
      ∀ k < d, ∀ p r, parents.drop k = p :: r → sel.appliesAt reg index p r = false)
    (hparent : ∃ place, sel.Applicable reg (parent :: rest) index place
      ∧ sel.First reg (parent :: rest) index place
      ∧ (depth + (d + 1) + (parent :: rest).length ≤ t₁.length →
          sel.Collected (depth + (d + 1)) index place t')) :
    ∃ place, sel.Applicable reg (node :: parents) (index + 1) place
      ∧ sel.First reg (node :: parents) (index + 1) place
      ∧ (depth + (node :: parents).length ≤ t₁.length →
          sel.Collected depth (index + 1) place t') := by
  obtain ⟨place, hplace, hfirst, hcollected⟩ := hparent
  have hchain : (node :: parents).drop (d + 1) = parent :: rest := hdrop
  have hlength : (parent :: rest).length = parents.length - d := by
    rw [← hdrop, List.length_drop]
  have hlt : d < parents.length := by
    rw [List.length_cons] at hlength
    omega
  rw [← hchain] at hplace hfirst
  refine ⟨_, hplace.extend (Nat.succ_pos d) (fun hc => by rw [hchild hc]) rfl happlies,
    hfirst.extend hplace.start (fun place' hplace' => ?_), fun hlen => ?_⟩
  · -- a nearer ancestor would have been found before
    obtain ⟨d', p, r, hd', hdrop', happlicable⟩ := hplace'.parent
    by_contra hnearer
    by_cases hc : sel.relationships[index]? = some .child
    · have := hchild hc
      omega
    · have hfound := appliesAt_iff.mpr ⟨_, happlicable⟩
      rw [hbefore hc d' (by omega) p r hdrop'] at hfound
      exact Bool.false_ne_true hfound
  · rw [List.length_cons] at hlen
    exact (hcollected (by omega)).extend
      (fun s hs => (hself (by omega) s hs).trans (hgrows.entry depth))

/-- The search with trigger states: it decides what the search without them does, only
adds to the entries, and if it succeeds, has collected the pseudo-classes of the first
assignment. -/
theorem appliesWithAt_spec (node : Styleable) (parents : List Styleable) (t : TriggerStates)
    (depth : ℕ) : ∃ t',
    sel.appliesWithAt reg index node parents (some t) depth
      = (sel.appliesAt reg index node parents, some t')
    ∧ Grows t t'
    ∧ (sel.appliesAt reg index node parents = true →
        ∃ place, sel.Applicable reg (node :: parents) index place
          ∧ sel.First reg (node :: parents) index place
          ∧ (depth + (node :: parents).length ≤ t.length →
              sel.Collected depth index place t')) := by
  induction index generalizing node parents t depth with
  | zero =>
    obtain ⟨t', heq, hgrows, hself⟩ := @selectorAppliesWith_spec reg sel 0 node t depth
    refine ⟨t', heq, hgrows, fun happlies => ?_⟩
    obtain ⟨place, hplace⟩ := (@appliesAt_iff reg sel 0 node parents).mp happlies
    refine ⟨place, hplace, fun place' hplace' i hi _ => ?_, fun hlen i hi s hs p hp => ?_⟩
    · rw [Nat.le_zero.mp hi, hplace.start]
      exact Nat.zero_le _
    · rw [Nat.le_zero.mp hi] at hs ⊢
      rw [hplace.start]
      rw [List.length_cons] at hlen
      exact hself happlies (by omega) s hs hp
  | succ index ih =>
    obtain ⟨t₁, heq, hgrows₁, hself⟩ := @selectorAppliesWith_spec reg sel (index + 1) node t depth
    rw [appliesWithAt.eq_def, appliesAt.eq_def]
    simp only [heq]
    by_cases happlies : sel.selectorApplies reg (index + 1) node = true
    swap
    · rw [Bool.eq_false_iff.mpr happlies]
      exact ⟨t₁, rfl, hgrows₁, by rintro ⟨⟩⟩
    rw [happlies, Bool.not_true, if_neg Bool.false_ne_true, if_neg Bool.false_ne_true]
    have hself₁ := hself happlies
    rw [← hgrows₁.length] at hself₁ ⊢
    by_cases hchild : sel.relationships[index]? = some .child
    · rw [hchild]
      cases parents with
      | nil => exact ⟨t₁, rfl, hgrows₁, by rintro ⟨⟩⟩
      | cons parent rest =>
        obtain ⟨t', heq', hgrows, hfound⟩ := ih parent rest t₁ (depth + 1)
        exact ⟨t', heq', hgrows₁.trans hgrows, fun h => found_step happlies hself₁ hgrows
          (d := 0) rfl (fun _ => rfl) (fun hc => absurd hchild hc) (hfound h)⟩
    · obtain ⟨t', heq', hgrows, hstop⟩ := anyParentWith_spec
        (fun parent rest t depth => (ih parent rest t depth).imp fun _ h => ⟨h.1, h.2.1⟩)
        parents t₁ depth
      -- both sides look at the relationship
      split
      · contradiction
      try split
      all_goals try contradiction
      refine ⟨t', heq', hgrows₁.trans hgrows, fun h => ?_⟩
      obtain ⟨d, parent, rest, t₂, hdrop, hgrows₂, hlast, hbefore⟩ := hstop h
      obtain ⟨t₃, heq₃, hgrows₃, hfound⟩ := ih parent rest t₂ (depth + (d + 1))
      rw [heq₃, Prod.mk.injEq, Option.some.injEq] at hlast
      rw [← hlast.2, ← hgrows₂.length]
      refine found_step happlies (fun hlt s hs => ?_) hgrows₃ hdrop
        (fun hc => absurd hc hchild) (fun _ => hbefore) (hfound hlast.1)
      exact (hself₁ (hgrows₂.length ▸ hlt) s hs).trans (hgrows₂.entry depth)

/-! ## `applies` -/

/-- **Trigger states.** `applies` succeeds exactly if there is an assignment; if it does
not, the trigger states are left alone; if it does, they keep what they had, and entry
`d`, counted from `depth`, holds the pseudo-classes of the simple selectors that the
assignment found puts on the ancestor at distance `d`. -/
theorem applies_collects (reg : Registry) (sel : CompoundSelector) (node : Styleable)
    (parents : List Styleable) (t : TriggerStates) (depth : ℕ)
    (hlength : depth + (node :: parents).length ≤ t.length) :
    ∃ applies t', sel.appliesWith reg node parents (some t) depth = (applies, some t')
      ∧ (applies = true
          ↔ ∃ place, sel.Applicable reg (node :: parents) (sel.selectors.length - 1) place)
      ∧ (applies = false → t' = t)
      ∧ (applies = true → Grows t t'
          ∧ ∃ place, sel.Applicable reg (node :: parents) (sel.selectors.length - 1) place
            ∧ sel.First reg (node :: parents) (sel.selectors.length - 1) place
            ∧ sel.Collected depth (sel.selectors.length - 1) place t') := by
  let tempStates : TriggerStates := List.replicate t.length none
  obtain ⟨temp, heq, hgrows, hfound⟩ := @appliesWithAt_spec reg sel
    (sel.selectors.length - 1) node parents tempStates depth
  have hlen : temp.length = t.length := hgrows.length.trans (List.length_replicate ..)
  have hlt : ¬ t.length ≤ depth := by
    rw [List.length_cons] at hlength
    omega
  rw [appliesWith]
  simp only [hlt, if_false, tempStates] at heq ⊢
  rw [heq]
  by_cases happlies : sel.appliesAt reg (sel.selectors.length - 1) node parents = true
  · rw [happlies]
    obtain ⟨place, hplace, hfirst, hcollected⟩ := hfound happlies
    have hcopy : ∀ d, entry (List.zipWith copyBack t temp) d = t.entry d ∪ temp.entry d :=
      entry_zipWith_copyBack hlen
    refine ⟨true, _, rfl, ⟨fun _ => ⟨place, hplace⟩, fun _ => rfl⟩, nofun, fun _ => ⟨⟨?_, ?_⟩,
      place, hplace, hfirst, ?_⟩⟩
    · rw [List.length_zipWith, hlen, Nat.min_self]
    · intro d
      rw [hcopy]
      exact Set.subset_union_left
    · apply (hcollected (by rw [List.length_replicate]; exact hlength)).grow
      refine ⟨by rw [List.length_zipWith, hlen, Nat.min_self], fun d => ?_⟩
      rw [hcopy]
      exact Set.subset_union_right
  · rw [Bool.eq_false_iff.mpr happlies]
    refine ⟨false, t, rfl, ⟨nofun, fun h => ?_⟩, fun _ => rfl, nofun⟩
    exact absurd (appliesAt_iff.mpr h) happlies

/-- `A:hover B`, where `hover` has index 0. -/
def hoverSelector : CompoundSelector :=
  let simple (name : String) (states : List ℕ) : SimpleSelector :=
    { name, styleClassSet := .ofList [], id := "", pseudoClassState := .ofList states
      nodeOrientation := .inherit, styleClassSet_canonical := BitSet.canonical_ofList _
      pseudoClassState_canonical := BitSet.canonical_ofList _ }
  { selectors := [simple "A" [0], simple "B" []], relationships := [.descendant], length_eq := rfl }

/-- A node of this type in no state. -/
def plainNode (typeSelector : String) : Styleable :=
  { id := none, typeSelector, styleClass := [], pseudoClassStates := .ofList []
    orientations := none }

/-- On a `B` in a `C` in an `A`, with fresh trigger states. -/
theorem applies_collects_hover : ∃ applies t',
    hoverSelector.appliesWith default (plainNode "B") [plainNode "C", plainNode "A"]
        (some [none, none, none]) 0 = (applies, some t')
      ∧ (applies = true ↔ ∃ place, hoverSelector.Applicable default
          [plainNode "B", plainNode "C", plainNode "A"] 1 place)
      ∧ (applies = false → t' = [none, none, none])
      ∧ (applies = true → Grows [none, none, none] t'
          ∧ ∃ place, hoverSelector.Applicable default
              [plainNode "B", plainNode "C", plainNode "A"] 1 place
            ∧ hoverSelector.First default [plainNode "B", plainNode "C", plainNode "A"] 1 place
            ∧ hoverSelector.Collected 0 1 place t') :=
  applies_collects default hoverSelector (plainNode "B") [plainNode "C", plainNode "A"]
    [none, none, none] 0 (by decide)

/-- The entry of the `A` gets `hover`, that of the `B` the empty set. -/
example : (hoverSelector.appliesWith default (plainNode "B") [plainNode "C", plainNode "A"]
    (some [none, none, none]) 0).2 = some [some (.ofList []), none, some (.ofList [0])] := by
  decide

end CompoundSelector

end JavaFx.Css
