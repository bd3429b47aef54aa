/-
Runs of changes and queries.

`Kept` holds after every step (`kept_step`), and a query makes the cached bounds valid; so
at any time they are the union of the bounds of the visible children when they are asked
for.
-/
import JavaFx.Scene.ParentBoundsUpdate

set_option autoImplicit false

namespace JavaFx.Scene.ParentBounds

open JavaFx.Lib

variable {N L : Type} [LinearOrder L] {s s' : Parent N L} {ms : List N} {n : N}

/-! ## Nodes that do not count -/

/-- What a node says of itself is only heard if it is a child. -/
theorem Kept.frame {visible : N → Bool} {bounds : N → Bounds L} (h : Kept ms s)
    (hvisible : ∀ m ∈ ms, visible m = s.visible m) (hbounds : ∀ m ∈ ms, bounds m = s.bounds m) :
    Kept ms { s with visible := visible, bounds := bounds } := by
  refine ⟨⟨h.nodup, ?_, h.count, h.listed, ?_⟩, ?_, h.clean, h.edges⟩
  · intro m hm
    obtain ⟨hmem, hv⟩ := h.dirty m hm
    exact ⟨hmem, (hvisible m hmem).trans hv⟩
  · intro e m hm
    obtain ⟨hmem, hv⟩ := h.edge e m hm
    exact ⟨hmem, (hvisible m hmem).trans hv⟩
  · intro m hm
    constructor
    · dsimp only
      rw [hvisible m hm, hbounds m hm]
      exact (h.fits m hm).inside
    · dsimp only
      rw [hbounds m hm]
      exact (h.fits m hm).touches

/-! ## Lists of dirty children -/

/-- The new list has the dirty children, all of which are visible. -/
theorem kept_createDirtyChildren (h : Kept s.children s) :
    Kept s.createDirtyChildren.children s.createDirtyChildren := by
  unfold Parent.createDirtyChildren
  split
  · refine ⟨⟨h.nodup, h.dirty, h.count, ?_, h.edge⟩,
      fun n hn => ⟨(h.fits n hn).inside, (h.fits n hn).touches⟩, h.clean, h.edges⟩
    intro l hl
    dsimp only at hl ⊢
    rw [Option.some_inj] at hl
    rw [← hl]
    split
    · have hfilter : (s.children.filter fun ch => s.visible ch && s.boundsChanged ch) =
          s.children.filter s.boundsChanged := by
        apply List.filter_congr
        intro ch _
        cases hch : s.boundsChanged ch with
        | false => exact Bool.and_false _
        | true => rw [(h.dirty ch hch).2]; rfl
      rw [hfilter]
    · rename_i hzero
      have hcount := h.count
      have hempty : s.children.filter s.boundsChanged = [] := by
        apply List.eq_nil_of_length_eq_zero
        omega
      rw [hempty]
  · exact h

theorem Clean.kept (h : Clean s) (hnodup : s.children.Nodup) :
    Kept s.children { s with
      dirtyChildren := s.dirtyChildren.map fun _ => []
      cachedBoundsInvalid := false
      dirtyChildrenCount := 0 } := by
  have hempty : s.children.filter s.boundsChanged = [] := by
    rw [List.filter_eq_nil_iff]
    intro n _
    rw [h.clean n]
    decide
  refine ⟨⟨hnodup, ?_, ?_, ?_, h.tight.edge⟩, ?_, fun _ => h.clean, ?_⟩
  · intro n hn
    dsimp only at hn
    rw [h.clean n] at hn
    cases hn
  · dsimp only
    rw [hempty]
    rfl
  · intro l hl
    dsimp only at hl ⊢
    obtain ⟨l', -, rfl⟩ := Option.map_eq_some_iff.mp hl
    rw [hempty]
  · intro n hn
    refine ⟨fun hvisible _ => h.tight.inside n hn hvisible, ?_⟩
    intro e b hb he _
    obtain ⟨m, hm, c, hc, hcoord⟩ := h.tight.touches b hb e
    rw [show s.edge e = some n from he, Option.some_inj] at hm
    subst hm
    exact ⟨c, hc, hcoord⟩
  · intro _ b hb e
    obtain ⟨m, hm, -⟩ := h.tight.touches b hb e
    exact ⟨m, hm⟩

variable [DecidableEq N]

/-! ## Visibility and bounds -/

theorem Kept.setVisible_of_notMem (h : Kept ms s) (hn : n ∉ ms) (value : Bool) :
    Kept ms { s with visible := Function.update s.visible n value } := by
  refine h.frame ?_ (fun _ _ => rfl)
  intro m hm
  rw [Function.update_of_ne]
  rintro rfl
  exact hn hm

theorem Kept.setBounds_of_notMem (h : Kept ms s) (hn : n ∉ ms) (bounds : Bounds L) :
    Kept ms { s with bounds := Function.update s.bounds n bounds } := by
  refine h.frame (fun _ _ => rfl) ?_
  intro m hm
  rw [Function.update_of_ne]
  rintro rfl
  exact hn hm

theorem kept_setVisible (h : Kept s.children s) (hn : n ∈ s.children) {value : Bool}
    (hvalue : s.visible n ≠ value) :
    Kept s.children
      (Parent.childVisibilityChanged { s with visible := Function.update s.visible n value } n) := by
  have hperm := List.perm_cons_erase hn
  have hcons := h.perm hperm
  have hnot := (List.nodup_cons.mp hcons.nodup).1
  have hself : Function.update s.visible n value n = value := Function.update_self _ _ _
  unfold Parent.childVisibilityChanged
  dsimp only
  cases value with
  | true =>
    rw [if_pos hself]
    have hrest := hcons.of_cons (eq_false_of_ne_true hvalue)
    have hkept := (hrest.setVisible_of_notMem hnot true).includeNew hnot
    unfold Parent.includeNew at hkept
    rw [if_pos hself] at hkept
    exact hkept.perm hperm.symm
  | false =>
    have hhidden : ¬ Function.update s.visible n false n = true := by
      rw [hself]
      decide
    rw [if_neg hhidden]
    have hrest := hcons.childExcluded.setVisible_of_notMem hnot false
    have hkept := hrest.includeNew hnot
    unfold Parent.includeNew at hkept
    have hvisible : (s.childExcluded n).visible = s.visible := setChildDirty_visible _ _ _
    rw [if_neg (by rw [hvisible]; exact hhidden)] at hkept
    have heq : Parent.childExcluded { s with visible := Function.update s.visible n false } n =
        { s.childExcluded n with
          visible := Function.update (s.childExcluded n).visible n false } := by
      unfold Parent.childExcluded Parent.setChildDirty
      dsimp only
      split <;> rfl
    rw [heq]
    exact hkept.perm hperm.symm

theorem childVisibilityChanged_children (s : Parent N L) (n : N) :
    (s.childVisibilityChanged n).children = s.children := by
  unfold Parent.childVisibilityChanged
  split <;> exact setChildDirty_children _ _ _

theorem kept_setBounds (h : Kept s.children s) (hn : n ∈ s.children) (hvisible : s.visible n = true)
    (bounds : Bounds L) :
    Kept s.children
      (Parent.childBoundsChanged { s with bounds := Function.update s.bounds n bounds } n) := by
  have hbooks : Books s.children { s with bounds := Function.update s.bounds n bounds } :=
    ⟨h.nodup, h.dirty, h.count, h.listed, h.edge⟩
  apply hbooks.kept_dirty hn hvisible
  intro m hm hmn
  constructor
  · dsimp only
    rw [Function.update_of_ne hmn]
    exact (h.fits m hm).inside
  · dsimp only
    rw [Function.update_of_ne hmn]
    exact (h.fits m hm).touches

/-! ## The list of children -/

theorem kept_excludeOld (toBeRemoved : List N) :
    ∀ {ms : List N} {s : Parent N L}, Kept (toBeRemoved ++ ms) s →
      Kept ms (toBeRemoved.foldl Parent.excludeOld s) := by
  induction toBeRemoved with
  | nil => exact fun h => h
  | cons n toBeRemoved ih => exact fun h => ih h.excludeOld

theorem kept_includeNew (newNodes : List N) :
    ∀ {ms : List N} {s : Parent N L}, Kept ms s → (newNodes ++ ms).Nodup →
      Kept (newNodes ++ ms) (newNodes.foldl Parent.includeNew s) := by
  induction newNodes with
  | nil => exact fun h _ => h
  | cons n newNodes ih =>
    intro ms s h hnodup
    have hperm : (newNodes ++ n :: ms).Perm (n :: newNodes ++ ms) := List.perm_middle
    have hn : n ∉ ms := by
      intro hmem
      exact (List.nodup_cons.mp hnodup).1 (List.mem_append_right _ hmem)
    exact (ih (h.includeNew hn) (hperm.nodup_iff.mpr hnodup)).perm hperm

theorem includeNew_children (s : Parent N L) (n : N) : (s.includeNew n).children = s.children := by
  unfold Parent.includeNew
  split
  · exact setChildDirty_children _ _ _
  · rfl

theorem foldl_includeNew_children (newNodes : List N) :
    ∀ s : Parent N L, (newNodes.foldl Parent.includeNew s).children = s.children := by
  induction newNodes with
  | nil => exact fun _ => rfl
  | cons n newNodes ih => exact fun s => (ih _).trans (includeNew_children s n)

/-- A change of the list: some children are removed, some nodes are new, and the rest
stays. -/
theorem kept_changeChildren (h : Kept s.children s) {toBeRemoved newNodes kept children : List N}
    (hold : s.children.Perm (toBeRemoved ++ kept)) (hnew : children.Perm (newNodes ++ kept)) :
    Kept (s.changeChildren toBeRemoved newNodes children).children
      (s.changeChildren toBeRemoved newNodes children) := by
  unfold Parent.changeChildren
  split
  · rename_i hnodup
    split
    · -- as many nodes as before, and no others
      rename_i hsame
      have hsub : children ⊆ s.children := by
        intro n hn
        rcases List.mem_append.mp (hnew.mem_iff.mp hn) with hn | hn
        · exact hsame.2 n hn
        · exact hold.mem_iff.mpr (List.mem_append_right _ hn)
      have hperm : children.Perm s.children :=
        (hnodup.subperm hsub).perm_of_length_le (le_of_eq hsame.1.symm)
      exact (h.perm hperm.symm).withChildren children
    · apply kept_createDirtyChildren
      rw [foldl_includeNew_children]
      have hrest := (kept_excludeOld toBeRemoved (h.perm hold)).withChildren children
      exact (kept_includeNew newNodes hrest (hnew.nodup_iff.mp hnodup)).perm hnew.symm
  · exact h

/-! ## Queries -/

theorem validate_spec (h : Kept s.children s) (hchildren : s.children ≠ []) :
    ∃ s', s.validate = .ok s' ∧ SameNodes s s' ∧ Kept s'.children s'
      ∧ s'.cachedBoundsInvalid = false := by
  unfold Parent.validate
  split
  · obtain ⟨s', hs', hsame, hclean⟩ := recomputeBounds_spec h hchildren
    rw [hs', ok_bind]
    have hnodup : s'.children.Nodup := by
      rw [hsame.children]
      exact h.nodup
    exact ⟨_, rfl, ⟨hsame.visible, hsame.bounds, hsame.children⟩, hclean.kept hnodup, rfl⟩
  · rename_i hvalid
    exact ⟨s, rfl, ⟨rfl, rfl, rfl⟩, h, eq_false_of_ne_true hvalid⟩

/-- A query keeps the invariant; without a transform it returns the union. -/
theorem computeGeomBounds_spec (h : Kept s.children s) (tx : Transform N L) :
    ∃ b s', s.computeGeomBounds tx = .ok (b, s') ∧ Kept s'.children s'
      ∧ (tx = .identity → b = s.union) := by
  unfold Parent.computeGeomBounds
  split
  · rename_i hnil
    refine ⟨⊥, s, rfl, h, ?_⟩
    intro _
    unfold Parent.union
    rw [hnil]
    rfl
  · rename_i hchildren
    cases tx with
    | general transformedBounds =>
      exact ⟨_, s, rfl, h, fun htx => by cases htx⟩
    | translate move =>
      obtain ⟨s', hs', -, hkept, -⟩ := validate_spec h hchildren
      dsimp only
      rw [hs', ok_bind]
      exact ⟨_, s', rfl, hkept, fun htx => by cases htx⟩
    | identity =>
      obtain ⟨s', hs', hsame, hkept, hvalid⟩ := validate_spec h hchildren
      dsimp only
      rw [hs', ok_bind]
      refine ⟨_, s', rfl, hkept, ?_⟩
      intro _
      rw [hkept.cachedBounds_eq hvalid, hsame.children, hsame.visible, hsame.bounds]
      rfl

/-! ## Runs -/

theorem kept_step (h : Kept s.children s) (a : Action N L) :
    ∃ s', step s a = .ok s' ∧ Kept s'.children s' := by
  cases a with
  | replace start stop newNodes =>
    simp only [step]
    split
    · refine ⟨_, rfl, ?_⟩
      have hsplit : s.children = s.children.take start ++ (s.children.take stop).drop start
          ++ s.children.drop stop := by
        rename_i hrange
        have htake : (s.children.take stop).take start = s.children.take start := by
          rw [List.take_take, Nat.min_eq_left hrange.1]
        rw [← htake, List.take_append_drop, List.take_append_drop]
      refine @kept_changeChildren _ _ _ _ _ h _ _ (s.children.take start ++ s.children.drop stop) _ ?_ ?_
      · nth_rewrite 1 [hsplit]
        rw [← List.append_assoc]
        exact List.perm_append_comm.append_right _
      · rw [← List.append_assoc]
        exact List.perm_append_comm.append_right _
    · exact ⟨s, rfl, h⟩
  | removeIf p =>
    refine ⟨s.changeChildren (s.children.filter p) [] (s.children.filter fun n => !p n), rfl, ?_⟩
    refine @kept_changeChildren _ _ _ _ _ h _ _ (s.children.filter fun n => !p n) _ ?_ ?_
    · exact (List.filter_append_perm p s.children).symm
    · exact List.Perm.refl _
  | toFront node =>
    refine ⟨_, rfl, ?_⟩
    split
    · rename_i hn
      have hperm : s.children.Perm (s.children.erase node ++ [node]) :=
        (List.perm_cons_erase hn).trans (List.perm_append_singleton _ _).symm
      exact (h.perm hperm).withChildren _
    · exact h
  | toBack node =>
    refine ⟨_, rfl, ?_⟩
    split
    · rename_i hn
      exact (h.perm (List.perm_cons_erase hn)).withChildren _
    · exact h
  | setVisible node value =>
    simp only [step]
    split
    · exact ⟨s, rfl, h⟩
    · rename_i hvalue
      refine ⟨_, rfl, ?_⟩
      split
      · rename_i hn
        have hkept := kept_setVisible h hn hvalue
        rwa [childVisibilityChanged_children]
      · rename_i hn
        exact h.setVisible_of_notMem hn value
  | setBounds node bounds =>
    refine ⟨_, rfl, ?_⟩
    split
    · rename_i hn
      have hkept := kept_setBounds h hn.1 hn.2 bounds
      rwa [show (Parent.childBoundsChanged
          { s with bounds := Function.update s.bounds node bounds } node).children = s.children
        from setChildDirty_children _ _ _]
    · rename_i hn
      dsimp only
      by_cases hmem : node ∈ s.children
      · -- what a hidden child says does not matter
        have hhidden : s.visible node = false := eq_false_of_ne_true fun hv => hn ⟨hmem, hv⟩
        have hperm := List.perm_cons_erase hmem
        have hcons := h.perm hperm
        have hnot := (List.nodup_cons.mp hcons.nodup).1
        have hkept := ((hcons.of_cons hhidden).setBounds_of_notMem hnot bounds).includeNew hnot
        unfold Parent.includeNew at hkept
        rw [if_neg (by dsimp only; rw [hhidden]; decide)] at hkept
        exact hkept.perm hperm.symm
      · exact h.setBounds_of_notMem hmem bounds
  | computeGeomBounds tx =>
    obtain ⟨b, s', hs', hkept, -⟩ := computeGeomBounds_spec h tx
    refine ⟨s', ?_, hkept⟩
    simp only [step]
    rw [hs', ok_bind]
    rfl

/-- In every run no step fails, and the bounds a query without a transform returns after it
are the union of those of the visible children. -/
theorem parentBounds_run_union (visible : N → Bool) (bounds : N → Bounds L)
    (actions : List (Action N L)) :
    ∃ s, run step (start visible bounds) actions = .ok s
      ∧ ∃ s', s.computeGeomBounds .identity = .ok (s.union, s') := by
  have hinit : Kept (start visible bounds).children (start visible bounds) := kept_start visible bounds
  obtain ⟨s, hs, hkept⟩ := run_invariant (P := fun _ _ => True)
    (fun s : Parent N L => Kept s.children s) (fun s a h _ => kept_step h a) hinit
    (Along.of_forall fun _ _ => trivial)
  obtain ⟨b, s', hs', -, hb⟩ := computeGeomBounds_spec hkept .identity
  rw [hb rfl] at hs'
  exact ⟨s, hs, s', hs'⟩

end JavaFx.Scene.ParentBounds
