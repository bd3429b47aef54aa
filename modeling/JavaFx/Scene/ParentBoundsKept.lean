/-
What is kept of the cached bounds between queries.

The children that count are a list of their own (`Kept ms s`), since a change of the list
of children first takes out what is removed and then takes in what is new, one node at a
time. The dirty ones are in the books, and only children are edges (`Books`); and a child
that is not dirty is inside the cached bounds, and touches them where it is an edge
(`Fits`).
-/
import JavaFx.Scene.ParentBounds
import Mathlib.Data.List.Perm.Subperm

set_option autoImplicit false

namespace JavaFx.Scene.ParentBounds

open JavaFx.Lib

variable {N L : Type} [LinearOrder L] {s s' : Parent N L} {ms ms' : List N} {n m : N}

/-- The dirty children are counted and listed. -/
structure Books (ms : List N) (s : Parent N L) : Prop where
  nodup : ms.Nodup
  dirty : ∀ n, s.boundsChanged n = true → n ∈ ms ∧ s.visible n = true
  count : s.dirtyChildrenCount = (ms.filter s.boundsChanged).length
  listed : ∀ l, s.dirtyChildren = some l → l.Perm (ms.filter s.boundsChanged)
  edge : ∀ e n, s.edge e = some n → n ∈ ms ∧ s.visible n = true

/-- A child that is not dirty is inside the cached bounds, and touches them at its edges. -/
structure Fits (s : Parent N L) (n : N) : Prop where
  inside : s.visible n = true → s.boundsChanged n = false → s.bounds n ≤ s.cachedBounds
  touches : ∀ e (b : Box L), s.cachedBounds = b → s.edge e = some n → s.boundsChanged n = false →
    ∃ c : Box L, s.bounds n = c ∧ c.coord e = b.coord e

/-- When the cached bounds are valid there is no dirty child and no edge without a child. -/
structure Kept (ms : List N) (s : Parent N L) : Prop extends Books ms s where
  fits : ∀ n ∈ ms, Fits s n
  clean : s.cachedBoundsInvalid = false → ∀ n, s.boundsChanged n = false
  edges : s.cachedBoundsInvalid = false → ∀ b : Box L, s.cachedBounds = b → ∀ e, ∃ n, s.edge e = some n

theorem kept_start (visible : N → Bool) (bounds : N → Bounds L) : Kept [] (start visible bounds) := by
  refine ⟨⟨List.nodup_nil, ?_, rfl, ?_, ?_⟩, ?_, fun _ _ => rfl, ?_⟩
  · intro n hn
    cases hn
  · intro l hl
    cases hl
  · intro e n hn
    cases hn
  · intro n hn
    cases hn
  · intro _ b hb
    cases hb

theorem Books.perm (h : Books ms s) (hperm : ms.Perm ms') : Books ms' s := by
  refine ⟨hperm.nodup_iff.mp h.nodup, ?_, ?_, ?_, ?_⟩
  · intro n hn
    rw [← hperm.mem_iff]
    exact h.dirty n hn
  · rw [h.count, (hperm.filter _).length_eq]
  · intro l hl
    exact (h.listed l hl).trans (hperm.filter _)
  · intro e n hn
    rw [← hperm.mem_iff]
    exact h.edge e n hn

theorem Kept.perm (h : Kept ms s) (hperm : ms.Perm ms') : Kept ms' s := by
  refine ⟨h.toBooks.perm hperm, ?_, h.clean, h.edges⟩
  intro n hn
  exact h.fits n (hperm.mem_iff.mpr hn)

/-- The list of children is not read. -/
theorem Kept.withChildren (h : Kept ms s) (children : List N) :
    Kept ms { s with children := children } :=
  ⟨⟨h.nodup, h.dirty, h.count, h.listed, h.edge⟩,
    fun n hn => ⟨(h.fits n hn).inside, (h.fits n hn).touches⟩, h.clean, h.edges⟩

/-- Valid cached bounds are the union of those of the visible children. -/
theorem Kept.cachedBounds_eq (h : Kept ms s) (hvalid : s.cachedBoundsInvalid = false) :
    s.cachedBounds = Multiset.sup ((ms.filter s.visible).map s.bounds : Multiset (Bounds L)) := by
  apply eq_sup_of_touches
  · intro b hb
    obtain ⟨n, hn, rfl⟩ := List.mem_map.mp hb
    obtain ⟨hmem, hvisible⟩ := List.mem_filter.mp hn
    exact (h.fits n hmem).inside hvisible (h.clean hvalid n)
  · intro b hb e
    obtain ⟨n, hn⟩ := h.edges hvalid b hb e
    obtain ⟨hmem, hvisible⟩ := h.edge e n hn
    obtain ⟨c, hc, hcoord⟩ := (h.fits n hmem).touches e b hb hn (h.clean hvalid n)
    refine ⟨c, ?_, hcoord⟩
    rw [← hc]
    exact List.mem_map.mpr ⟨n, List.mem_filter.mpr ⟨hmem, hvisible⟩, rfl⟩

/-! ## One child more or less -/

/-- A node that does not count is not dirty. -/
theorem Books.not_dirty (h : Books ms s) (hn : n ∉ ms) : s.boundsChanged n = false := by
  by_contra hdirty
  exact hn (h.dirty n (eq_true_of_ne_false hdirty)).1

theorem Books.clean_of_not_visible (h : Books ms s) (hvisible : s.visible n = false) :
    s.boundsChanged n = false := by
  by_contra hdirty
  rw [(h.dirty n (eq_true_of_ne_false hdirty)).2] at hvisible
  cases hvisible

theorem Books.not_edge (h : Books ms s) (hn : n ∉ ms) (e : Edge) : s.edge e ≠ some n :=
  fun hedge => hn (h.edge e n hedge).1

theorem Books.cons (h : Books ms s) (hn : n ∉ ms) : Books (n :: ms) s := by
  have hfilter : (n :: ms).filter s.boundsChanged = ms.filter s.boundsChanged := by
    rw [List.filter_cons_of_neg]
    rw [h.not_dirty hn]
    decide
  refine ⟨List.nodup_cons.mpr ⟨hn, h.nodup⟩, ?_, ?_, ?_, ?_⟩
  · intro m hm
    exact ⟨List.mem_cons_of_mem _ (h.dirty m hm).1, (h.dirty m hm).2⟩
  · rw [hfilter, h.count]
  · rw [hfilter]
    exact h.listed
  · intro e m hm
    exact ⟨List.mem_cons_of_mem _ (h.edge e m hm).1, (h.edge e m hm).2⟩

theorem Books.of_cons (h : Books (n :: ms) s) (hclean : s.boundsChanged n = false)
    (hedge : ∀ e, s.edge e ≠ some n) : Books ms s := by
  have hfilter : (n :: ms).filter s.boundsChanged = ms.filter s.boundsChanged := by
    rw [List.filter_cons_of_neg]
    rw [hclean]
    decide
  refine ⟨(List.nodup_cons.mp h.nodup).2, ?_, ?_, ?_, ?_⟩
  · intro m hm
    refine ⟨(List.mem_cons.mp (h.dirty m hm).1).resolve_left ?_, (h.dirty m hm).2⟩
    rintro rfl
    rw [hclean] at hm
    cases hm
  · rw [← hfilter, h.count]
  · rw [← hfilter]
    exact h.listed
  · intro e m hm
    refine ⟨(List.mem_cons.mp (h.edge e m hm).1).resolve_left ?_, (h.edge e m hm).2⟩
    rintro rfl
    exact hedge e hm

/-- A child that nobody sees. -/
theorem Kept.of_cons (h : Kept (n :: ms) s) (hvisible : s.visible n = false) : Kept ms s := by
  have hclean := h.clean_of_not_visible hvisible
  have hedge : ∀ e, s.edge e ≠ some n := by
    intro e he
    rw [(h.edge e n he).2] at hvisible
    cases hvisible
  exact ⟨h.toBooks.of_cons hclean hedge, fun m hm => h.fits m (List.mem_cons_of_mem _ hm), h.clean,
    h.edges⟩

variable [DecidableEq N]

/-! ## One node more or less is dirty -/

theorem filter_update_true {p : N → Bool} (hms : ms.Nodup) (hn : n ∈ ms) (hp : p n = false) :
    (ms.filter (Function.update p n true)).Perm (n :: ms.filter p) := by
  have hnot : n ∉ ms.filter p := by
    rw [List.mem_filter, hp]
    rintro ⟨-, h⟩
    cases h
  rw [List.perm_ext_iff_of_nodup (hms.filter _) (List.nodup_cons.mpr ⟨hnot, hms.filter p⟩)]
  intro m
  rw [List.mem_filter, List.mem_cons, List.mem_filter]
  by_cases hm : m = n
  · subst hm
    rw [Function.update_self]
    exact ⟨fun _ => Or.inl rfl, fun _ => ⟨hn, rfl⟩⟩
  · rw [Function.update_of_ne hm]
    exact ⟨Or.inr, fun h => h.resolve_left hm⟩

theorem filter_update_false {p : N → Bool} (hms : ms.Nodup) :
    (ms.filter (Function.update p n false)).Perm ((ms.filter p).erase n) := by
  rw [List.perm_ext_iff_of_nodup (hms.filter _) ((hms.filter p).erase n)]
  intro m
  rw [List.mem_filter, (hms.filter p).mem_erase_iff, List.mem_filter]
  by_cases hm : m = n
  · subst hm
    rw [Function.update_self]
    constructor
    · rintro ⟨-, h⟩
      cases h
    · rintro ⟨h, -⟩
      exact absurd rfl h
  · rw [Function.update_of_ne hm]
    exact ⟨fun h => ⟨hm, h⟩, fun h => h.2⟩

/-- `setChildDirty` writes its fields only. -/
theorem setChildDirty_eq (s : Parent N L) (n : N) (dirty : Bool) :
    ∃ count list, s.setChildDirty n dirty = { s with
      boundsChanged := Function.update s.boundsChanged n dirty
      dirtyChildrenCount := count
      dirtyChildren := list } := by
  unfold Parent.setChildDirty
  split
  · rename_i h
    refine ⟨s.dirtyChildrenCount, s.dirtyChildren, ?_⟩
    rw [← h, Function.update_eq_self]
  · exact ⟨_, _, rfl⟩

@[simp] theorem setChildDirty_boundsChanged (s : Parent N L) (n : N) (dirty : Bool) :
    (s.setChildDirty n dirty).boundsChanged = Function.update s.boundsChanged n dirty := by
  obtain ⟨count, list, heq⟩ := setChildDirty_eq s n dirty
  rw [heq]

@[simp] theorem setChildDirty_visible (s : Parent N L) (n : N) (dirty : Bool) :
    (s.setChildDirty n dirty).visible = s.visible := by
  obtain ⟨count, list, heq⟩ := setChildDirty_eq s n dirty
  rw [heq]

@[simp] theorem setChildDirty_bounds (s : Parent N L) (n : N) (dirty : Bool) :
    (s.setChildDirty n dirty).bounds = s.bounds := by
  obtain ⟨count, list, heq⟩ := setChildDirty_eq s n dirty
  rw [heq]

@[simp] theorem setChildDirty_edge (s : Parent N L) (n : N) (dirty : Bool) :
    (s.setChildDirty n dirty).edge = s.edge := by
  obtain ⟨count, list, heq⟩ := setChildDirty_eq s n dirty
  rw [heq]

@[simp] theorem setChildDirty_children (s : Parent N L) (n : N) (dirty : Bool) :
    (s.setChildDirty n dirty).children = s.children := by
  obtain ⟨count, list, heq⟩ := setChildDirty_eq s n dirty
  rw [heq]

@[simp] theorem setChildDirty_cachedBounds (s : Parent N L) (n : N) (dirty : Bool) :
    (s.setChildDirty n dirty).cachedBounds = s.cachedBounds := by
  obtain ⟨count, list, heq⟩ := setChildDirty_eq s n dirty
  rw [heq]

@[simp] theorem setChildDirty_invalid (s : Parent N L) (n : N) (dirty : Bool) :
    (s.setChildDirty n dirty).cachedBoundsInvalid = s.cachedBoundsInvalid := by
  obtain ⟨count, list, heq⟩ := setChildDirty_eq s n dirty
  rw [heq]

/-- The books are right after a child has become dirty. -/
theorem Books.setChildDirty_true (h : Books ms s) (hn : n ∈ ms) (hvisible : s.visible n = true) :
    Books ms (s.setChildDirty n true) := by
  by_cases hdirty : s.boundsChanged n = true
  · unfold Parent.setChildDirty
    rw [if_pos hdirty]
    exact h
  · have hperm := filter_update_true h.nodup hn (eq_false_of_ne_true hdirty)
    unfold Parent.setChildDirty
    rw [if_neg hdirty]
    refine ⟨h.nodup, ?_, ?_, ?_, h.edge⟩
    · intro m hm
      dsimp only at hm
      by_cases hmn : m = n
      · rw [hmn]
        exact ⟨hn, hvisible⟩
      · rw [Function.update_of_ne hmn] at hm
        exact h.dirty m hm
    · dsimp only
      rw [if_pos rfl, hperm.length_eq, List.length_cons, h.count, Nat.cast_succ]
    · intro l hl
      dsimp only at hl ⊢
      obtain ⟨l', hl', rfl⟩ := Option.map_eq_some_iff.mp hl
      rw [if_pos rfl]
      apply (List.perm_append_singleton n l').trans
      exact ((h.listed l' hl').cons n).trans hperm.symm

/-- And after one has ceased to be. -/
theorem Books.setChildDirty_false (h : Books ms s) (n : N) : Books ms (s.setChildDirty n false) := by
  by_cases hdirty : s.boundsChanged n = false
  · unfold Parent.setChildDirty
    rw [if_pos hdirty]
    exact h
  · have hperm := filter_update_false (n := n) (p := s.boundsChanged) h.nodup
    have hchanged := eq_true_of_ne_false hdirty
    have hmem : n ∈ ms.filter s.boundsChanged := List.mem_filter.mpr ⟨(h.dirty n hchanged).1, hchanged⟩
    unfold Parent.setChildDirty
    rw [if_neg hdirty]
    refine ⟨h.nodup, ?_, ?_, ?_, h.edge⟩
    · intro m hm
      dsimp only at hm
      by_cases hmn : m = n
      · rw [hmn, Function.update_self] at hm
        cases hm
      · rw [Function.update_of_ne hmn] at hm
        exact h.dirty m hm
    · have hpos := List.length_pos_of_mem hmem
      dsimp only
      rw [if_neg (by decide), hperm.length_eq, List.length_erase_of_mem hmem, h.count]
      omega
    · intro l hl
      dsimp only at hl ⊢
      obtain ⟨l', hl', rfl⟩ := Option.map_eq_some_iff.mp hl
      rw [if_neg (by decide)]
      exact ((h.listed l' hl').erase n).trans hperm.symm

/-! ## A child that has to be looked at -/

/-- Whatever has happened to a child: `childIncluded` and `childBoundsChanged`. -/
theorem Books.kept_dirty (h : Books ms s) (hn : n ∈ ms) (hvisible : s.visible n = true)
    (hfits : ∀ m ∈ ms, m ≠ n → Fits s m) : Kept ms (s.childIncluded n) := by
  unfold Parent.childIncluded
  have hbooks : Books ms { s with cachedBoundsInvalid := true } :=
    ⟨h.nodup, h.dirty, h.count, h.listed, h.edge⟩
  refine ⟨hbooks.setChildDirty_true hn hvisible, ?_, ?_, ?_⟩
  · intro m hm
    by_cases hmn : m = n
    · subst hmn
      constructor
      · intro _ hclean
        rw [setChildDirty_boundsChanged, Function.update_self] at hclean
        cases hclean
      · intro e b _ _ hclean
        rw [setChildDirty_boundsChanged, Function.update_self] at hclean
        cases hclean
    · have hm' := hfits m hm hmn
      constructor
      · rw [setChildDirty_boundsChanged, Function.update_of_ne hmn, setChildDirty_visible,
          setChildDirty_bounds, setChildDirty_cachedBounds]
        exact hm'.inside
      · rw [setChildDirty_boundsChanged, Function.update_of_ne hmn, setChildDirty_edge,
          setChildDirty_bounds, setChildDirty_cachedBounds]
        exact hm'.touches
  · intro hvalid
    rw [setChildDirty_invalid] at hvalid
    cases hvalid
  · intro hvalid
    rw [setChildDirty_invalid] at hvalid
    cases hvalid

/-- A node becomes a child. -/
theorem Kept.includeNew (h : Kept ms s) (hn : n ∉ ms) : Kept (n :: ms) (s.includeNew n) := by
  unfold Parent.includeNew
  split
  · rename_i hvisible
    apply (h.toBooks.cons hn).kept_dirty List.mem_cons_self hvisible
    intro m hm hmn
    exact h.fits m ((List.mem_cons.mp hm).resolve_left hmn)
  · rename_i hvisible
    refine ⟨h.toBooks.cons hn, ?_, h.clean, h.edges⟩
    intro m hm
    rcases List.mem_cons.mp hm with rfl | hm
    · exact ⟨fun hv => absurd hv hvisible, fun e _ _ hedge => absurd hedge (h.not_edge hn e)⟩
    · exact h.fits m hm

/-! ## A child that no longer counts -/

/-- `childExcluded`. -/
theorem Kept.childExcluded (h : Kept (n :: ms) s) : Kept ms (s.childExcluded n) := by
  have hn := (List.nodup_cons.mp h.nodup).1
  unfold Parent.childExcluded
  set cut : Parent N L := { s with
    edge := fun e => if s.edge e = some n then none else s.edge e
    cachedBoundsInvalid := s.cachedBoundsInvalid
      || [.left, .top, .near, .right, .bottom, .far].any fun e => s.edge e = some n } with hcut
  have hedge : ∀ {e m}, cut.edge e = some m → s.edge e = some m ∧ m ≠ n := by
    intro e m he
    change (if s.edge e = some n then none else s.edge e) = some m at he
    split at he
    · cases he
    · rename_i hne
      refine ⟨he, ?_⟩
      rintro rfl
      exact hne he
  have hbooks : Books (n :: ms) cut :=
    ⟨h.nodup, h.dirty, h.count, h.listed, fun e m he => h.edge e m (hedge he).1⟩
  have hvalid : cut.cachedBoundsInvalid = false → s.cachedBoundsInvalid = false ∧
      ∀ e, s.edge e ≠ some n := by
    intro hfalse
    obtain ⟨hs, hany⟩ := Bool.or_eq_false_iff.mp hfalse
    refine ⟨hs, ?_⟩
    intro e he
    have hnot := List.any_eq_false.mp hany e (by cases e <;> decide)
    exact hnot (decide_eq_true he)
  refine ⟨(hbooks.setChildDirty_false n).of_cons ?_ ?_, ?_, ?_, ?_⟩
  · rw [setChildDirty_boundsChanged, Function.update_self]
  · intro e he
    rw [setChildDirty_edge] at he
    exact (hedge he).2 rfl
  · intro m hm
    have hmn : m ≠ n := fun heq => hn (heq ▸ hm)
    have hm' := h.fits m (List.mem_cons_of_mem _ hm)
    constructor
    · rw [setChildDirty_boundsChanged, Function.update_of_ne hmn, setChildDirty_visible,
        setChildDirty_bounds, setChildDirty_cachedBounds]
      exact hm'.inside
    · rw [setChildDirty_boundsChanged, Function.update_of_ne hmn, setChildDirty_edge,
        setChildDirty_bounds, setChildDirty_cachedBounds]
      intro e b hb he
      exact hm'.touches e b hb (hedge he).1
  · rw [setChildDirty_invalid, setChildDirty_boundsChanged]
    intro hfalse m
    by_cases hmn : m = n
    · rw [hmn, Function.update_self]
    · rw [Function.update_of_ne hmn]
      exact h.clean (hvalid hfalse).1 m
  · rw [setChildDirty_invalid, setChildDirty_cachedBounds, setChildDirty_edge]
    intro hfalse b hb e
    obtain ⟨m, hm⟩ := h.edges (hvalid hfalse).1 b hb e
    refine ⟨m, ?_⟩
    change (if s.edge e = some n then none else s.edge e) = some m
    rw [if_neg ((hvalid hfalse).2 e), hm]

/-- A node that is not dirty is not listed. -/
theorem Books.erase_of_clean (h : Books ms s) (hclean : s.boundsChanged n = false) :
    s.dirtyChildren.map (fun l => l.erase n) = s.dirtyChildren := by
  cases hd : s.dirtyChildren with
  | none => rfl
  | some l =>
    have hnot : n ∉ l := by
      rw [(h.listed l hd).mem_iff, List.mem_filter, hclean]
      rintro ⟨-, hn⟩
      cases hn
    rw [Option.map_some, List.erase_of_not_mem hnot]

/-- A child is taken out of the list. -/
theorem Kept.excludeOld (h : Kept (n :: ms) s) : Kept ms (s.excludeOld n) := by
  have hlisted : ∀ l, s.dirtyChildren = some l → l.Nodup := by
    intro l hl
    exact (h.listed l hl).nodup_iff.mpr (h.nodup.filter _)
  unfold Parent.excludeOld
  split
  · -- the node is taken from the list of dirty children twice
    have heq : Parent.childExcluded
        { s with dirtyChildren := s.dirtyChildren.map fun l => l.erase n } n = s.childExcluded n := by
      unfold Parent.childExcluded Parent.setChildDirty
      dsimp only
      split
      · rename_i hclean
        have hlist : s.dirtyChildren.map (fun l => l.erase n) = s.dirtyChildren :=
          h.toBooks.erase_of_clean hclean
        rw [hlist]
      · cases hd : s.dirtyChildren with
        | none => rfl
        | some l =>
          have hnot : n ∉ l.erase n := by
            rw [(hlisted l hd).mem_erase_iff]
            exact fun hn => hn.1 rfl
          simp only [Option.map_some, Bool.false_eq_true, if_false, List.erase_of_not_mem hnot]
    rw [heq]
    exact h.childExcluded
  · rename_i hvisible
    have hvisible' := eq_false_of_ne_true hvisible
    have hlist : s.dirtyChildren.map (fun l => l.erase n) = s.dirtyChildren :=
      h.toBooks.erase_of_clean (h.clean_of_not_visible hvisible')
    rw [hlist]
    exact h.of_cons hvisible'

end JavaFx.Scene.ParentBounds
