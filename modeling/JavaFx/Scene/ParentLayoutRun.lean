/-
Runs of layout requests, additions, removals and passes.

Between the operations nobody is being laid out, the lists of children are those of a
forest, and the marks have marks above them (`Settled`). A pass keeps it if layout is not
asked for where the pass has been (`settled_layout`); everything else keeps it anyway.
-/
import JavaFx.Scene.ParentLayoutPass
import Mathlib.Data.Fintype.Basic

set_option autoImplicit false

namespace JavaFx.Scene.ParentLayout

open JavaFx.Lib

variable {P : Type} {w w' : World P} {v x p : P}

/-- Between the operations. -/
structure Settled (w : World P) : Prop where
  tree : Tree w
  raised : Raised w
  idle : ∀ x, w.performingLayout x = false

theorem performing_of_idle (h : ∀ x, w.performingLayout x = false) : Performing w := by
  intro p hp
  rw [h p] at hp
  cases hp

theorem settled_start (managed sceneRoot : P → Bool) : Settled (start managed sceneRoot) := by
  refine ⟨⟨⟨?_, fun _ _ => rfl⟩, ?_, fun _ => List.nodup_nil⟩, ?_, fun _ => rfl⟩
  · intro x p hp
    cases hp
  · intro p v
    constructor
    · intro hv
      cases hv
    · intro hp
      cases hp
  · intro v p hp
    cases hp

theorem SameTree.settled (h : SameTree w w') (hw : Settled w) (hraised : Raised w') :
    Settled w' := by
  refine ⟨h.tree hw.tree, hraised, ?_⟩
  rw [h.performing]
  exact hw.idle

variable [DecidableEq P]

/-! ## Lists and parents -/

/-- `children.remove(v)` without the request. -/
def World.removed (w : World P) (p v : P) : World P :=
  { w with
    sceneRoot := Function.update w.sceneRoot v false
    parent := Function.update w.parent v none
    children := Function.update w.children p ((w.children p).erase v) }

/-- Nobody has got a parent. -/
theorem parent_of_detach {q : P} (h : Function.update w.parent v none x = some q) :
    x ≠ v ∧ w.parent x = some q := by
  by_cases hx : x = v
  · rw [hx, Function.update_self] at h
    cases h
  · rw [Function.update_of_ne hx] at h
    exact ⟨hx, h⟩

theorem Up.removed (h : Up w) (p v : P) : Up (w.removed p v) := by
  refine ⟨h.acyclic.detach v, ?_⟩
  intro x hx
  change Function.update w.sceneRoot v false x = true at hx
  change Function.update w.parent v none x = none
  by_cases hxv : x = v
  · rw [hxv, Function.update_self]
  · rw [Function.update_of_ne hxv] at hx ⊢
    exact h.root x hx

theorem Raised.removed (h : Raised w) (p v : P) : Raised (w.removed p v) := by
  intro x q hq hx
  exact h x q (parent_of_detach hq).2 hx

theorem Tree.removed (ht : Tree w) (hv : v ∈ w.children p) : Tree (w.removed p v) := by
  refine ⟨ht.toUp.removed p v, ?_, ?_⟩
  · intro q x
    change x ∈ Function.update w.children p ((w.children p).erase v) q ↔
      Function.update w.parent v none x = some q
    by_cases hq : q = p
    · subst hq
      rw [Function.update_self, (ht.nodup q).mem_erase_iff, ht.child]
      constructor
      · rintro ⟨hx, hp⟩
        rwa [Function.update_of_ne hx]
      · exact parent_of_detach
    · rw [Function.update_of_ne hq, ht.child]
      constructor
      · intro hp
        rw [Function.update_of_ne]
        · exact hp
        · rintro rfl
          rw [(ht.child p x).mp hv, Option.some_inj] at hp
          exact hq hp.symm
      · exact fun hp => (parent_of_detach hp).2
  · intro q
    change (Function.update w.children p ((w.children p).erase v) q).Nodup
    by_cases hq : q = p
    · subst hq
      rw [Function.update_self]
      exact (ht.nodup q).erase v
    · rw [Function.update_of_ne hq]
      exact ht.nodup q

/-- The walk up finds the node if it is there. -/
theorem not_under_of_wouldCreateCycle (n : ℕ) :
    ∀ {x : P}, w.wouldCreateCycle n x v = false → ¬ Under w.parent x v := by
  induction n with
  | zero =>
    intro x h
    cases h
  | succ n ih =>
    intro x h hunder
    rw [World.wouldCreateCycle] at h
    split at h
    · cases h
    · rename_i hxv
      obtain ⟨q, hq, hrest⟩ := hunder.cases_head.resolve_left hxv
      rw [hq] at h
      exact ih h hrest

/-- The list has changed, and the node has left the parent it had. -/
structure Moved (w w' : World P) (p v : P) : Prop where
  managed : w'.managed = w.managed
  up : Up w'
  parent : w'.parent = Function.update w.parent v none
  child : ∀ q x, x ∈ w'.children q ↔ q = p ∧ x = v ∨ x ≠ v ∧ w.parent x = some q
  nodup : ∀ q, (w'.children q).Nodup
  raised : Raised w'
  idle : ∀ x, w'.performingLayout x = false

theorem SameTree.moved {w'' : World P} (h : SameTree w' w'') (hw : Moved w w' p v)
    (hraised : Raised w'') : Moved w w'' p v := by
  have hup := h.up hw.up
  rw [h] at hraised hup ⊢
  exact ⟨hw.managed, hup, hw.parent, hw.child, hw.nodup, hraised, hw.idle⟩

/-- The list of the new parent with the node in it. -/
def World.listed (w : World P) (p : P) (i : ℕ) (v : P) : World P :=
  { w with children := Function.update w.children p ((w.children p).insertIdx i v) }

section Listed

variable {i : ℕ}

theorem mem_listed (h : Tree w) (hi : i ≤ (w.children p).length) (q : P) :
    x ∈ (w.listed p i v).children q ↔ q = p ∧ x = v ∨ w.parent x = some q := by
  change x ∈ Function.update w.children p ((w.children p).insertIdx i v) q ↔ _
  by_cases hq : q = p
  · subst hq
    rw [Function.update_self, (List.perm_insertIdx v _ hi).mem_iff, List.mem_cons, h.child]
    constructor
    · rintro (hx | hx)
      · exact Or.inl ⟨rfl, hx⟩
      · exact Or.inr hx
    · rintro (⟨-, hx⟩ | hx)
      · exact Or.inl hx
      · exact Or.inr hx
  · rw [Function.update_of_ne hq, h.child]
    constructor
    · exact Or.inr
    · rintro (⟨hqp, -⟩ | hx)
      · exact absurd hqp hq
      · exact hx

theorem nodup_listed (h : Tree w) (hi : i ≤ (w.children p).length) (hv : v ∉ w.children p) (q : P) :
    ((w.listed p i v).children q).Nodup := by
  change (Function.update w.children p ((w.children p).insertIdx i v) q).Nodup
  by_cases hq : q = p
  · subst hq
    rw [Function.update_self, (List.perm_insertIdx v _ hi).nodup_iff]
    exact List.nodup_cons.mpr ⟨hv, h.nodup q⟩
  · rw [Function.update_of_ne hq]
    exact h.nodup q

/-- A node without a parent. -/
theorem moved_listed (h : Settled w) (hi : i ≤ (w.children p).length) (hv : v ∉ w.children p)
    (hparent : w.parent v = none) : Moved w (w.listed p i v) p v := by
  refine ⟨rfl, ⟨h.tree.acyclic, h.tree.root⟩, ?_, ?_, nodup_listed h.tree hi hv, h.raised, h.idle⟩
  · rw [← hparent]
    exact (Function.update_eq_self v w.parent).symm
  · intro q x
    rw [mem_listed h.tree hi]
    constructor
    · rintro (hx | hx)
      · exact Or.inl hx
      · refine Or.inr ⟨?_, hx⟩
        rintro rfl
        rw [hparent] at hx
        cases hx
    · rintro (hx | ⟨-, hx⟩)
      · exact Or.inl hx
      · exact Or.inr hx

/-- A node leaves its parent. -/
theorem moved_removed (h : Settled w) (hi : i ≤ (w.children p).length) (hv : v ∉ w.children p)
    {q : P} (hparent : w.parent v = some q) : Moved w ((w.listed p i v).removed q v) p v := by
  have hqp : q ≠ p := by
    rintro rfl
    exact hv ((h.tree.child q v).mpr hparent)
  have hup : Up (w.listed p i v) := ⟨h.tree.acyclic, h.tree.root⟩
  have hraised : Raised (w.listed p i v) := h.raised
  refine ⟨rfl, hup.removed q v, rfl, ?_, ?_, hraised.removed q v, h.idle⟩
  · intro r x
    change x ∈ Function.update (w.listed p i v).children q (((w.listed p i v).children q).erase v) r
      ↔ _
    by_cases hr : r = q
    · subst hr
      rw [Function.update_self, (nodup_listed h.tree hi hv r).mem_erase_iff, mem_listed h.tree hi]
      constructor
      · rintro ⟨hx, (⟨hrp, -⟩ | hx')⟩
        · exact absurd hrp hqp
        · exact Or.inr ⟨hx, hx'⟩
      · rintro (⟨hrp, -⟩ | ⟨hx, hx'⟩)
        · exact absurd hrp hqp
        · exact ⟨hx, Or.inr hx'⟩
    · rw [Function.update_of_ne hr, mem_listed h.tree hi]
      constructor
      · rintro (hx | hx)
        · exact Or.inl hx
        · refine Or.inr ⟨?_, hx⟩
          rintro rfl
          rw [hparent, Option.some_inj] at hx
          exact hr hx.symm
      · rintro (hx | ⟨-, hx⟩)
        · exact Or.inl hx
        · exact Or.inr hx
  · intro r
    change (Function.update (w.listed p i v).children q
      (((w.listed p i v).children q).erase v) r).Nodup
    by_cases hr : r = q
    · subst hr
      rw [Function.update_self]
      exact (nodup_listed h.tree hi hv r).erase v
    · rw [Function.update_of_ne hr]
      exact nodup_listed h.tree hi hv r

end Listed

/-- The node with its parent. -/
def World.attached (w : World P) (p v : P) : World P :=
  { w with
    sceneRoot := Function.update w.sceneRoot v false
    parent := Function.update w.parent v (some p) }

theorem Moved.tree (h : Moved w w' p v) (hw : Settled w) (hpv : ¬ Under w.parent p v) :
    Tree (w'.attached p v) := by
  have hparent : (w'.attached p v).parent = Function.update w.parent v (some p) := by
    change Function.update w'.parent v (some p) = _
    rw [h.parent, Function.update_idem]
  refine ⟨⟨?_, ?_⟩, ?_, h.nodup⟩
  · rw [hparent]
    exact hw.tree.acyclic.attach hpv
  · intro x hx
    change Function.update w'.sceneRoot v false x = true at hx
    change Function.update w'.parent v (some p) x = none
    by_cases hxv : x = v
    · rw [hxv, Function.update_self] at hx
      cases hx
    · rw [Function.update_of_ne hxv] at hx ⊢
      exact h.up.root x hx
  · intro q x
    rw [hparent]
    change x ∈ w'.children q ↔ _
    rw [h.child]
    by_cases hxv : x = v
    · rw [hxv, Function.update_self, Option.some_inj]
      constructor
      · rintro (⟨hq, -⟩ | ⟨hne, -⟩)
        · exact hq.symm
        · exact absurd rfl hne
      · exact fun hq => Or.inl ⟨hq.symm, rfl⟩
    · rw [Function.update_of_ne hxv]
      constructor
      · rintro (⟨-, hx⟩ | ⟨-, hx⟩)
        · exact absurd hx hxv
        · exact hx
      · exact fun hx => Or.inr ⟨hxv, hx⟩

/-- Only the new parent may want a mark. -/
theorem Moved.but (h : Moved w w' p v) : RaisedBut (w'.attached p v) (some p) := by
  intro x q hq hx
  change Function.update w'.parent v (some p) x = some q at hq
  by_cases hxv : x = v
  · rw [hxv, Function.update_self] at hq
    exact Or.inr hq
  · rw [Function.update_of_ne hxv] at hq
    exact Or.inl (h.raised x q hq hx)

/-- And not even that if the node has none. -/
theorem Moved.raised_of_clean (h : Moved w w' p v) (hclean : w'.layoutFlag v = .clean) :
    Raised (w'.attached p v) := by
  intro x q hq hx
  change Function.update w'.parent v (some p) x = some q at hq
  by_cases hxv : x = v
  · rw [hxv] at hx
    exact absurd hclean hx
  · rw [Function.update_of_ne hxv] at hq
    exact h.raised x q hq hx

variable [Fintype P]

/-! ## Requests and passes -/

theorem settled_requestLayout (h : Settled w) (v : P) :
    ∃ w', w.requestLayout v = some w' ∧ Settled w' := by
  obtain ⟨w', hw', hasks⟩ := requestLayout_spec h.tree.toUp (h.raised.but (some v))
    (performing_of_idle h.idle)
  exact ⟨w', hw', hasks.marks.same.settled h hasks.raised⟩

theorem settled_setNeedsLayout (h : Settled w) (v : P) (value : Bool) :
    ∃ w', w.setNeedsLayout v value = some w' ∧ Settled w' := by
  cases value with
  | true =>
    obtain ⟨w', hw', hasks⟩ := setNeedsLayout_true_spec (v := v) h.tree.toUp h.raised
    exact ⟨w', hw', hasks.marks.same.settled h hasks.raised⟩
  | false =>
    unfold World.setNeedsLayout
    rw [if_neg (by decide)]
    split
    · rename_i hneeds
      dsimp only
      split
      · have hbut := h.raised.but (some v)
        have hflag : LayoutFlags.dirtyBranch ≠ .clean := by decide
        have hmarks := marks_setLayoutFlag (w := w) hflag (@under_refl _ w.parent v)
        refine ⟨_, rfl, hmarks.same.settled h ?_⟩
        intro x p hp hx
        refine hmarks.dirty (h.raised x p hp ?_)
        intro hclean
        rcases hmarks.flag x with heq | ⟨hvx, -⟩
        · exact hx (heq.trans hclean)
        · exact h.raised.marked v x hvx (by rw [hneeds]; decide) hclean
      · -- no child has a mark, so the parent needs none
        rename_i hbranch
        have hsame : SameTree w (w.setLayoutFlag v .clean) := rfl
        refine ⟨_, rfl, hsame.settled h ?_⟩
        intro x p hp hx
        by_cases hxv : x = v
        · rw [hxv, setLayoutFlag_self] at hx
          exact absurd rfl hx
        · have hflag : ∀ y, y ≠ v → (w.setLayoutFlag v .clean).layoutFlag y = w.layoutFlag y :=
            fun y hy => Function.update_of_ne hy _ _
          rw [hflag x hxv] at hx
          by_cases hpv : p = v
          · rw [hpv] at hp
            exfalso
            apply hbranch
            rw [List.any_eq_true]
            exact ⟨x, (h.tree.child v x).mpr hp, decide_eq_true hx⟩
          · rw [hflag p hpv]
            exact h.raised x p hp hx
    · exact ⟨w, rfl, h⟩

theorem settled_layout (h : Settled w) {root : P} {requests : P → List (Request P)}
    (htimely : Timely w (.layout root requests)) :
    ∃ w', World.layout requests (Fintype.card P) w root = some w' ∧ Settled w' := by
  have hsinks := h.tree.acyclic.sinks root
  rw [Nat.card_eq_fintype_card] at hsinks
  obtain ⟨w', hw', hlaid⟩ := layout_spec (Fintype.card P) hsinks
    ⟨h.tree, h.raised, performing_of_idle h.idle, fun x _ => h.idle x, under_refl root, htimely⟩
  exact ⟨w', hw', hlaid.same.settled h hlaid.raised⟩

/-! ## Additions and removals -/

theorem settled_remove (h : Settled w) (p v : P) : ∃ w', w.remove p v = some w' ∧ Settled w' := by
  unfold World.remove
  by_cases hv : v ∈ w.children p
  · rw [if_pos hv]
    change ∃ w', (if w.managed v then (w.removed p v).requestLayout p else some (w.removed p v))
      = some w' ∧ Settled w'
    have hremoved : Settled (w.removed p v) := ⟨h.tree.removed hv, h.raised.removed p v, h.idle⟩
    split
    · exact settled_requestLayout hremoved p
    · exact ⟨_, rfl, hremoved⟩
  · rw [if_neg hv]
    exact ⟨w, rfl, h⟩

/-- A request after something else has changed. -/
theorem settled_requestLayout_of (ht : Tree w) (hbut : RaisedBut w (some p))
    (hidle : ∀ x, w.performingLayout x = false) :
    ∃ w', w.requestLayout p = some w' ∧ Settled w' := by
  obtain ⟨w', hw', hasks⟩ := requestLayout_spec ht.toUp hbut (performing_of_idle hidle)
  refine ⟨w', hw', hasks.marks.same.tree ht, hasks.raised, ?_⟩
  rw [hasks.marks.same.performing]
  exact hidle

/-- The node leaves the parent it has. -/
theorem moved_remove (h : Settled w) {i : ℕ} (hi : i ≤ (w.children p).length)
    (hv : v ∉ w.children p) {q : P} (hparent : w.parent v = some q) :
    ∃ w', (w.listed p i v).remove q v = some w' ∧ Moved w w' p v := by
  have hmoved := moved_removed h hi hv hparent
  have hmem : v ∈ (w.listed p i v).children q := (mem_listed h.tree hi q).mpr (Or.inr hparent)
  unfold World.remove
  rw [if_pos hmem]
  change ∃ w', (if w.managed v then ((w.listed p i v).removed q v).requestLayout q
    else some ((w.listed p i v).removed q v)) = some w' ∧ Moved w w' p v
  split
  · obtain ⟨w', hw', hasks⟩ := requestLayout_spec (v := q) hmoved.up (hmoved.raised.but _)
      (performing_of_idle hmoved.idle)
    exact ⟨w', hw', hasks.marks.same.moved hmoved hasks.raised⟩
  · exact ⟨_, rfl, hmoved⟩

/-- An addition that passes its checks. -/
theorem add_eq (h : Settled w) {i : ℕ} (hi : i ≤ (w.children p).length) (hv : v ∉ w.children p)
    (hcycle : w.wouldCreateCycle (Fintype.card P) p v = false) :
    ∃ w', Moved w w' p v ∧ w.add p i v =
      if w.managed v ∨ w'.layoutFlag v ≠ .clean then (w'.attached p v).requestLayout p
      else some (w'.attached p v) := by
  have hchecks : ¬ (v ∈ w.children p ∨ w.wouldCreateCycle (Fintype.card P) p v
      ∨ (w.children p).length < i) := by
    rw [not_or, not_or, Bool.not_eq_true, Nat.not_lt]
    exact ⟨hv, hcycle, hi⟩
  unfold World.add
  rw [if_neg hchecks]
  cases hparent : w.parent v with
  | none => exact ⟨w.listed p i v, moved_listed h hi hv hparent, rfl⟩
  | some q =>
    obtain ⟨w', hw', hmoved⟩ := moved_remove h hi hv hparent
    refine ⟨w', hmoved, ?_⟩
    change ((w.listed p i v).remove q v >>= _) = _
    rw [hw']
    rfl

theorem settled_add (h : Settled w) (p : P) (i : ℕ) (v : P) :
    ∃ w', w.add p i v = some w' ∧ Settled w' := by
  by_cases hchecks : v ∈ w.children p ∨ w.wouldCreateCycle (Fintype.card P) p v
      ∨ (w.children p).length < i
  · unfold World.add
    rw [if_pos hchecks]
    exact ⟨w, rfl, h⟩
  · rw [not_or, not_or, Bool.not_eq_true, Nat.not_lt] at hchecks
    obtain ⟨hv, hcycle, hi⟩ := hchecks
    obtain ⟨w', hmoved, heq⟩ := add_eq h hi hv hcycle
    have htree := hmoved.tree h (not_under_of_wouldCreateCycle _ hcycle)
    rw [heq]
    split
    · exact settled_requestLayout_of htree hmoved.but hmoved.idle
    · rename_i hclean
      rw [not_or, not_not] at hclean
      exact ⟨_, rfl, htree, hmoved.raised_of_clean hclean.2, hmoved.idle⟩

/-! ## Runs -/

theorem settled_step {a : Action P} (h : Settled w) (htimely : Timely w a) :
    ∃ w', step w a = .ok w' ∧ Settled w' := by
  have hnext : ∃ w', next w a = some w' ∧ Settled w' := by
    cases a with
    | requestLayout v => exact settled_requestLayout h v
    | setNeedsLayout v value => exact settled_setNeedsLayout h v value
    | add p i v => exact settled_add h p i v
    | remove p v => exact settled_remove h p v
    | layout root requests => exact settled_layout h htimely
  obtain ⟨w', hw', hsettled⟩ := hnext
  refine ⟨w', ?_, hsettled⟩
  unfold step
  rw [hw']

/-- In every run in which no pass is asked to lay out where it has been, every operation
comes to its end and leaves marks above the marks. -/
theorem parentLayout_run_marked (managed sceneRoot : P → Bool) (actions : List (Action P))
    (htimely : Along step Timely (start managed sceneRoot) actions) :
    ∃ w, run step (start managed sceneRoot) actions = .ok w ∧ Marked w := by
  obtain ⟨w, hw, hsettled⟩ := run_invariant Settled (fun _ _ => settled_step)
    (settled_start managed sceneRoot) htimely
  exact ⟨w, hw, hsettled.raised.marked⟩

/-- Additions and a pass that nobody asks anything in. -/
theorem parentLayout_run_marked_additions : ∃ w,
    run step (start (fun _ => true) (fun v : Fin 3 => v == 0))
      [.add 0 0 1, .add 1 0 2, .layout 0 (fun _ => []), .requestLayout 2] = .ok w ∧ Marked w := by
  apply parentLayout_run_marked
  refine ⟨trivial, fun _ _ => ⟨trivial, fun _ _ => ⟨?_, fun _ _ => ⟨trivial, fun _ _ => trivial⟩⟩⟩⟩
  intro y _ r hr
  cases hr

/-- The second child asks the first to be laid out again, while their parent is performing
layout and then takes its mark away. -/
theorem parentLayout_asks_behind :
    ∃ w, run step (start (fun _ => true) (fun v : Fin 3 => v == 0))
        [.add 0 0 1, .add 0 1 2,
          .layout 0 (fun v => if v = 2 then [.requestLayout 1] else [])] = .ok w
      ∧ ¬ Marked w := by
  refine ⟨_, rfl, ?_⟩
  intro hmarked
  exact hmarked 1 0 (under_parent rfl) (by decide) rfl

end JavaFx.Scene.ParentLayout
