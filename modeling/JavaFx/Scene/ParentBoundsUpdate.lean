/-
The cached bounds are computed.

`createCachedBounds` goes over its nodes with the outline of those it has seen
(`Outlines`); `updateCachedBounds` over the dirty nodes, with the cached bounds grown so
far and the edges of them that have a child (`Taking`). Either way nothing is dirty
afterwards and the bounds are tight (`Clean`), or there is an edge left without a child,
and they are created again.
-/
import JavaFx.Scene.ParentBoundsKept

set_option autoImplicit false

namespace JavaFx.Scene.ParentBounds

open JavaFx.Lib

variable {N L : Type} [LinearOrder L] {s s' : Parent N L} {ms nodes : List N} {n m : N}

/-! ## Creation -/

/-- A visible node with a box. -/
def Shows (s : Parent N L) (n : N) (b : Box L) : Prop := s.visible n = true ∧ s.bounds n = b

/-- The outline of some nodes: each edge is of a visible one of them, and as far out as
all of them. -/
structure Outlines (s : Parent N L) (nodes : List N) (o : Outline N L) : Prop where
  out : ∀ n ∈ nodes, ∀ b, Shows s n b → ∀ e : Edge, e.Out (o e).1 (b.coord e)
  node : ∀ e, (o e).2 ∈ nodes ∧ ∃ b, Shows s (o e).2 b ∧ b.coord e = (o e).1

/-- The outline of the nodes seen, if one of them has a box. -/
def Seen (s : Parent N L) (nodes : List N) : Option (Outline N L) → Prop
  | none => ∀ n ∈ nodes, ∀ b, ¬ Shows s n b
  | some o => Outlines s nodes o

theorem Seen.snoc_of_not_shows {o : Option (Outline N L)} (h : Seen s nodes o)
    (hn : ∀ b, ¬ Shows s n b) : Seen s (nodes ++ [n]) o := by
  cases o with
  | none =>
    intro m hm
    rcases List.mem_append.mp hm with hm | hm
    · exact h m hm
    · rw [List.mem_singleton.mp hm]
      exact hn
  | some o =>
    refine ⟨?_, ?_⟩
    · intro m hm b hb
      rcases List.mem_append.mp hm with hm | hm
      · exact h.out m hm b hb
      · rw [List.mem_singleton.mp hm] at hb
        exact absurd hb (hn b)
    · intro e
      exact ⟨List.mem_append_left _ (h.node e).1, (h.node e).2⟩

/-- The first node with a box. -/
theorem Seen.snoc_first {b : Box L} (h : Seen s nodes none) (hn : Shows s n b) :
    Seen s (nodes ++ [n]) (some fun e => (b.coord e, n)) := by
  refine ⟨?_, ?_⟩
  · intro m hm c hc e
    rcases List.mem_append.mp hm with hm | hm
    · exact absurd hc (h m hm c)
    · rw [List.mem_singleton.mp hm] at hc
      have heq : b = c := WithBot.coe_injective (hn.2.symm.trans hc.2)
      rw [heq]
      exact Edge.Out.refl e _
  · intro e
    exact ⟨List.mem_append_right _ (List.mem_singleton.mpr rfl), b, hn, rfl⟩

/-- Another one. -/
theorem Outlines.snoc {o : Outline N L} {b : Box L} (h : Outlines s nodes o) (hn : Shows s n b) :
    Outlines s (nodes ++ [n])
      fun e => if e.Out (o e).1 (b.coord e) then o e else (b.coord e, n) := by
  refine ⟨?_, ?_⟩
  · intro m hm c hc e
    rcases List.mem_append.mp hm with hm | hm
    · split
      · exact h.out m hm c hc e
      · rename_i hout
        exact (Edge.out_of_not_out hout).trans (h.out m hm c hc e)
    · rw [List.mem_singleton.mp hm] at hc
      have heq : b = c := WithBot.coe_injective (hn.2.symm.trans hc.2)
      rw [← heq]
      split
      · assumption
      · exact Edge.Out.refl e _
  · intro e
    split
    · exact ⟨List.mem_append_left _ (h.node e).1, (h.node e).2⟩
    · exact ⟨List.mem_append_right _ (List.mem_singleton.mpr rfl), b, hn, rfl⟩

theorem Seen.createStep {o : Option (Outline N L)} (h : Seen s nodes o) (n : N) :
    Seen s (nodes ++ [n]) (s.createStep o n) := by
  unfold Parent.createStep
  split
  · rename_i hvisible
    split
    · rename_i hbounds
      apply h.snoc_of_not_shows
      rintro b ⟨-, hb⟩
      rw [hbounds] at hb
      cases hb
    · rename_i b hbounds
      have hn : Shows s n b := ⟨hvisible, hbounds⟩
      cases o with
      | none => exact h.snoc_first hn
      | some o => exact Outlines.snoc h hn
  · rename_i hvisible
    apply h.snoc_of_not_shows
    rintro b ⟨hv, -⟩
    exact hvisible hv

theorem seen_foldl (fromNodes : List N) :
    ∀ {nodes : List N} {o : Option (Outline N L)}, Seen s nodes o →
      Seen s (nodes ++ fromNodes) (fromNodes.foldl s.createStep o) := by
  induction fromNodes with
  | nil =>
    intro nodes o h
    rwa [List.append_nil]
  | cons n fromNodes ih =>
    intro nodes o h
    have := ih (h.createStep n)
    rwa [List.append_assoc] at this

/-- Bounds that are tight around some nodes. -/
structure Tight (s : Parent N L) (nodes : List N) : Prop where
  inside : ∀ n ∈ nodes, s.visible n = true → s.bounds n ≤ s.cachedBounds
  edge : ∀ e n, s.edge e = some n → n ∈ nodes ∧ s.visible n = true
  touches : ∀ b : Box L, s.cachedBounds = b → ∀ e, ∃ n, s.edge e = some n
    ∧ ∃ c : Box L, s.bounds n = c ∧ c.coord e = b.coord e

/-- The bounds of nodes none of which has a box. -/
theorem tight_of_empty (hempty : ∀ n ∈ nodes, ∀ b, ¬ Shows s n b) (hcached : s.cachedBounds = ⊥)
    (hedge : ∀ e, s.edge e = none) : Tight s nodes := by
  refine ⟨?_, ?_, ?_⟩
  · intro n hn hvisible
    induction hb : s.bounds n using WithBot.recBotCoe with
    | bot => exact bot_le
    | coe b => exact absurd ⟨hvisible, hb⟩ (hempty n hn b)
  · intro e n he
    rw [hedge e] at he
    cases he
  · intro b hb
    rw [hcached] at hb
    cases hb

/-- The bounds of an outline. -/
theorem Outlines.tight {o : Outline N L} (h : Outlines s nodes o)
    (hcached : s.cachedBounds = Bounds.ofCoords fun e => (o e).1)
    (hedge : ∀ e, s.edge e = some (o e).2) : Tight s nodes := by
  obtain ⟨hmem, b₀, hb₀, -⟩ := h.node .left
  obtain ⟨c, hc, hcoord⟩ := Bounds.ofCoords_of_out (h.out _ hmem b₀ hb₀)
  rw [hc] at hcached
  refine ⟨?_, ?_, ?_⟩
  · intro n hn hvisible
    rw [hcached]
    induction hb : s.bounds n using WithBot.recBotCoe with
    | bot => exact bot_le
    | coe b =>
      rw [WithBot.coe_le_coe, Box.le_iff]
      intro e
      rw [hcoord e]
      exact h.out n hn b ⟨hvisible, hb⟩ e
  · intro e n he
    rw [hedge e, Option.some_inj] at he
    obtain ⟨hmem, b, hb, -⟩ := h.node e
    rw [← he]
    exact ⟨hmem, hb.1⟩
  · intro b hb e
    rw [hcached] at hb
    rw [← WithBot.coe_injective hb, hcoord e]
    obtain ⟨-, d, hd, hde⟩ := h.node e
    exact ⟨_, hedge e, d, hd.2, hde⟩

/-- What does not change. -/
structure SameNodes (s s' : Parent N L) : Prop where
  visible : s'.visible = s.visible
  bounds : s'.bounds = s.bounds
  children : s'.children = s.children

theorem SameNodes.trans {s'' : Parent N L} (h : SameNodes s s') (h' : SameNodes s' s'') :
    SameNodes s s'' :=
  ⟨h'.visible.trans h.visible, h'.bounds.trans h.bounds, h'.children.trans h.children⟩

/-- Nothing is dirty, and the bounds are tight around the children. -/
structure Clean (s : Parent N L) : Prop where
  clean : ∀ n, s.boundsChanged n = false
  tight : Tight s s.children

/-! ## Update -/

/-- The loop has the nodes of the list to come: only they are dirty, all others are inside,
and an edge that is valid has a child that touches it. -/
structure Taking (s : Parent N L) (nodes : List N) (u : Update N L) : Prop where
  dirty : ∀ n, u.boundsChanged n = true ↔ s.boundsChanged n = true ∧ n ∈ nodes
  inside : ∀ n ∈ s.children, u.boundsChanged n = false → ∀ c, Shows s n c →
    ∀ e : Edge, e.Out (u.coord e) (c.coord e)
  edge : ∀ e, u.invalidEdges e = false → ∃ n, u.edge e = some n ∧ n ∈ s.children
    ∧ u.boundsChanged n = false ∧ ∃ c, Shows s n c ∧ c.coord e = u.coord e

/-- The loop begins. -/
theorem Kept.taking (h : Kept s.children s) {b : Box L} (hb : s.cachedBounds = b)
    (hnodes : ∀ n, s.boundsChanged n = true → n ∈ nodes) :
    Taking s nodes
      { coord := b.coord
        edge := s.edge
        invalidEdges := fun e => (s.edge e).all s.boundsChanged
        boundsChanged := s.boundsChanged } := by
  refine ⟨fun n => ⟨fun hn => ⟨hn, hnodes n hn⟩, fun hn => hn.1⟩, ?_, ?_⟩
  · intro n hn hclean c hc e
    have hle := (h.fits n hn).inside hc.1 hclean
    rw [hb, hc.2, WithBot.coe_le_coe, Box.le_iff] at hle
    exact hle e
  · intro e he
    dsimp only at he
    cases hedge : s.edge e with
    | none =>
      rw [hedge] at he
      cases he
    | some n =>
      rw [hedge, Option.all_some] at he
      obtain ⟨hmem, hvisible⟩ := h.edge e n hedge
      obtain ⟨c, hc, hcoord⟩ := (h.fits n hmem).touches e b hb hedge he
      exact ⟨n, hedge, hmem, he, c, ⟨hvisible, hc⟩, hcoord⟩

/-- A node that is not dirty, or no longer. -/
theorem Taking.skip {u : Update N L} (h : Taking s (n :: nodes) u) (hn : u.boundsChanged n = false) :
    Taking s nodes u := by
  refine ⟨?_, h.inside, h.edge⟩
  intro m
  rw [h.dirty m]
  constructor
  · rintro ⟨hm, hmem⟩
    refine ⟨hm, (List.mem_cons.mp hmem).resolve_left ?_⟩
    rintro rfl
    rw [(h.dirty m).mpr ⟨hm, hmem⟩] at hn
    cases hn
  · exact fun ⟨hm, hmem⟩ => ⟨hm, List.mem_cons_of_mem _ hmem⟩

/-- When the loop has left no edge without a child the bounds are tight. -/
theorem Taking.tight {u : Update N L} (h : Taking s [] u) (hvalid : ∀ e, u.invalidEdges e = false) :
    Clean { s with
      edge := u.edge
      boundsChanged := u.boundsChanged
      cachedBounds := Bounds.ofCoords u.coord } := by
  have hclean : ∀ n, u.boundsChanged n = false := by
    intro n
    by_contra hdirty
    have := ((h.dirty n).mp (eq_true_of_ne_false hdirty)).2
    cases this
  obtain ⟨n₀, -, hmem₀, -, c₀, hc₀, -⟩ := h.edge .left (hvalid .left)
  obtain ⟨b, hb, hcoord⟩ := Bounds.ofCoords_of_out (h.inside n₀ hmem₀ (hclean n₀) c₀ hc₀)
  refine ⟨hclean, ?_, ?_, ?_⟩
  · intro n hn hvisible
    dsimp only
    rw [hb]
    induction hbounds : s.bounds n using WithBot.recBotCoe with
    | bot => exact bot_le
    | coe c =>
      rw [WithBot.coe_le_coe, Box.le_iff]
      intro e
      rw [hcoord e]
      exact h.inside n hn (hclean n) c ⟨hvisible, hbounds⟩ e
  · intro e n hn
    obtain ⟨m, hm, hmem, -, c, hc, -⟩ := h.edge e (hvalid e)
    dsimp only at hn
    rw [hm, Option.some_inj] at hn
    rw [← hn]
    exact ⟨hmem, hc.1⟩
  · intro b' hb' e
    dsimp only at hb'
    rw [hb] at hb'
    rw [← WithBot.coe_injective hb', hcoord e]
    obtain ⟨m, hm, -, -, c, hc, hce⟩ := h.edge e (hvalid e)
    exact ⟨m, hm, c, hc.2, hce⟩

variable [DecidableEq N]

/-- The flags after a dirty node has been taken in. -/
theorem Taking.dirty_update {u : Update N L} (h : Taking s (n :: nodes) u)
    (hnodup : (n :: nodes).Nodup) (m : N) :
    Function.update u.boundsChanged n false m = true ↔ s.boundsChanged m = true ∧ m ∈ nodes := by
  by_cases hm : m = n
  · rw [hm, Function.update_self]
    constructor
    · intro hfalse
      cases hfalse
    · exact fun hmem => absurd hmem.2 (List.nodup_cons.mp hnodup).1
  · rw [Function.update_of_ne hm, h.dirty m, List.mem_cons]
    exact ⟨fun hmem => ⟨hmem.1, hmem.2.resolve_left hm⟩, fun hmem => ⟨hmem.1, Or.inr hmem.2⟩⟩

/-- A dirty node with a box. -/
theorem Taking.take {u : Update N L} {b : Box L} (h : Taking s (n :: nodes) u)
    (hnodup : (n :: nodes).Nodup) (hmem : n ∈ s.children) (hn : Shows s n b) :
    Taking s nodes (u.take n (b : Bounds L)) := by
  have hclean : Function.update u.boundsChanged n false n = false := Function.update_self _ _ _
  refine ⟨h.dirty_update hnodup, ?_, ?_⟩
  · intro m hm hmclean c hc e
    change e.Out (if e.Out (b.coord e) (u.coord e) then b.coord e else u.coord e) _
    by_cases hmn : m = n
    · subst hmn
      have heq : b = c := WithBot.coe_injective (hn.2.symm.trans hc.2)
      rw [← heq]
      split
      · exact Edge.Out.refl e _
      · rename_i hout
        exact Edge.out_of_not_out hout
    · have hm' : Function.update u.boundsChanged n false m = false := hmclean
      rw [Function.update_of_ne hmn] at hm'
      have hin := h.inside m hm hm' c hc e
      split
      · rename_i hout
        exact hout.trans hin
      · exact hin
  · intro e he
    change (if e.Out (b.coord e) (u.coord e) then false else u.invalidEdges e) = false at he
    change ∃ m, (if e.Out (b.coord e) (u.coord e) then some n else u.edge e) = some m ∧ _ ∧ _ ∧
      ∃ c : Box L, _ ∧ c.coord e = if e.Out (b.coord e) (u.coord e) then b.coord e else u.coord e
    split
    · exact ⟨n, rfl, hmem, hclean, b, hn, rfl⟩
    · rename_i hout
      rw [if_neg hout] at he
      obtain ⟨m, hm, hmchildren, hmclean, c, hc, hcoord⟩ := h.edge e he
      refine ⟨m, hm, hmchildren, ?_, c, hc, hcoord⟩
      by_cases hmn : m = n
      · rw [hmn]
        exact hclean
      · exact (Function.update_of_ne hmn _ _).trans hmclean

/-- A dirty node without one. -/
theorem Taking.take_bot {u : Update N L} (h : Taking s (n :: nodes) u)
    (hnodup : (n :: nodes).Nodup) (hn : s.bounds n = ⊥) : Taking s nodes (u.take n ⊥) := by
  refine ⟨h.dirty_update hnodup, ?_, ?_⟩
  · intro m hm hmclean c hc e
    have hmn : m ≠ n := by
      rintro rfl
      have hbounds := hc.2
      rw [hn] at hbounds
      cases hbounds
    have hm' : Function.update u.boundsChanged n false m = false := hmclean
    rw [Function.update_of_ne hmn] at hm'
    exact h.inside m hm hm' c hc e
  · intro e he
    obtain ⟨m, hm, hmchildren, hmclean, hmshows⟩ := h.edge e he
    refine ⟨m, hm, hmchildren, ?_, hmshows⟩
    change Function.update u.boundsChanged n false m = false
    by_cases hmn : m = n
    · rw [hmn, Function.update_self]
    · rw [Function.update_of_ne hmn]
      exact hmclean

/-- The loop comes to an end when it has met all the dirty nodes. -/
theorem updateLoop_spec (hbooks : Books s.children s) (nodes : List N) :
    ∀ {remaining : ℤ} {u : Update N L}, Taking s nodes u → nodes.Nodup →
      remaining = (nodes.filter u.boundsChanged).length →
      ∃ u', s.updateLoop nodes remaining u = .ok u' ∧ Taking s [] u' := by
  induction nodes with
  | nil =>
    intro remaining u h _ hremaining
    refine ⟨u, ?_, h⟩
    rw [Parent.updateLoop, if_neg]
    rw [hremaining]
    exact lt_irrefl 0
  | cons n nodes ih =>
    intro remaining u h hnodup hremaining
    have hnotmem := (List.nodup_cons.mp hnodup).1
    rw [Parent.updateLoop]
    split
    · split
      · rename_i hdirty
        obtain ⟨hs, -⟩ := (h.dirty n).mp hdirty
        obtain ⟨hmem, hvisible⟩ := hbooks.dirty n hs
        have hcount : remaining - 1 =
            (nodes.filter (Function.update u.boundsChanged n false)).length := by
          have hfilter : nodes.filter (Function.update u.boundsChanged n false) =
              nodes.filter u.boundsChanged := by
            apply List.filter_congr
            intro m hm
            rw [Function.update_of_ne]
            rintro rfl
            exact hnotmem hm
          rw [hfilter, hremaining, List.filter_cons_of_pos hdirty, List.length_cons]
          omega
        have htaken : Taking s nodes (u.take n (s.bounds n))
            ∧ (u.take n (s.bounds n)).boundsChanged = Function.update u.boundsChanged n false := by
          induction hb : s.bounds n using WithBot.recBotCoe with
          | bot => exact ⟨h.take_bot hnodup hb, rfl⟩
          | coe b => exact ⟨h.take hnodup hmem ⟨hvisible, hb⟩, rfl⟩
        apply ih htaken.1 (List.nodup_cons.mp hnodup).2
        rw [htaken.2]
        exact hcount
      · rename_i hclean
        apply ih (h.skip (eq_false_of_ne_true hclean)) (List.nodup_cons.mp hnodup).2
        rwa [List.filter_cons_of_neg hclean] at hremaining
    · -- all of the dirty nodes have been met already
      rename_i hzero
      refine ⟨u, rfl, ?_, h.inside, h.edge⟩
      have hempty : (n :: nodes).filter u.boundsChanged = [] := by
        apply List.eq_nil_of_length_eq_zero
        omega
      intro m
      rw [h.dirty m]
      constructor
      · intro hm
        have hin := List.mem_filter.mpr ⟨hm.2, (h.dirty m).mpr hm⟩
        rw [hempty] at hin
        cases hin
      · rintro ⟨-, hm⟩
        cases hm


/-! ## Recomputation -/

theorem createCachedBounds_spec (s : Parent N L) (fromNodes : List N) :
    SameNodes s (s.createCachedBounds fromNodes)
    ∧ Tight (s.createCachedBounds fromNodes) fromNodes
    ∧ ∀ n, (s.createCachedBounds fromNodes).boundsChanged n =
        if n ∈ fromNodes then false else s.boundsChanged n := by
  have hnone : Seen s [] none := fun n hn => by cases hn
  have hseen := seen_foldl fromNodes hnone
  rw [List.nil_append] at hseen
  unfold Parent.createCachedBounds
  dsimp only
  cases ho : fromNodes.foldl s.createStep none with
  | none =>
    rw [ho] at hseen
    exact ⟨⟨rfl, rfl, rfl⟩, tight_of_empty hseen rfl (fun _ => rfl), fun _ => rfl⟩
  | some o =>
    rw [ho] at hseen
    have hout : Outlines s fromNodes o := hseen
    exact ⟨⟨rfl, rfl, rfl⟩, Outlines.tight ⟨hout.out, hout.node⟩ rfl (fun _ => rfl), fun _ => rfl⟩

/-- From all children. -/
theorem createCachedBounds_children (h : ∀ n, s.boundsChanged n = true → n ∈ s.children) :
    SameNodes s (s.createCachedBounds s.children) ∧ Clean (s.createCachedBounds s.children) := by
  obtain ⟨hsame, htight, hchanged⟩ := createCachedBounds_spec s s.children
  refine ⟨hsame, ?_, ?_⟩
  · intro n
    rw [hchanged n]
    split
    · rfl
    · rename_i hn
      exact eq_false_of_ne_true fun hdirty => hn (h n hdirty)
  · rwa [hsame.children]

/-- From the dirty ones, when no other has a box. -/
theorem createCachedBounds_dirty (h : Kept s.children s) (hb : s.cachedBounds = ⊥)
    (hnodes : ∀ n, s.boundsChanged n = true → n ∈ nodes) (hsub : ∀ n ∈ nodes, n ∈ s.children) :
    SameNodes s (s.createCachedBounds nodes) ∧ Clean (s.createCachedBounds nodes) := by
  obtain ⟨hsame, htight, hchanged⟩ := createCachedBounds_spec s nodes
  refine ⟨hsame, ?_, ?_, ?_, ?_⟩
  · intro n
    rw [hchanged n]
    split
    · rfl
    · rename_i hn
      exact eq_false_of_ne_true fun hdirty => hn (hnodes n hdirty)
  · intro n hn hvisible
    by_cases hmem : n ∈ nodes
    · exact htight.inside n hmem hvisible
    · rw [hsame.children] at hn
      rw [hsame.visible] at hvisible
      have hclean : s.boundsChanged n = false :=
        eq_false_of_ne_true fun hdirty => hmem (hnodes n hdirty)
      have hle := (h.fits n hn).inside hvisible hclean
      rw [hb] at hle
      rw [hsame.bounds]
      exact hle.trans bot_le
  · intro e n hn
    rw [hsame.children]
    exact ⟨hsub n (htight.edge e n hn).1, (htight.edge e n hn).2⟩
  · exact htight.touches

/-- `updateCachedBounds` makes all clean, or does not do. -/
theorem updateCachedBounds_spec (h : Kept s.children s) (hnodup : nodes.Nodup)
    (hnodes : (nodes.filter s.boundsChanged).Perm (s.children.filter s.boundsChanged))
    (hsub : ∀ n ∈ nodes, n ∈ s.children) :
    ∃ updated s', s.updateCachedBounds nodes s.dirtyChildrenCount = .ok (updated, s')
      ∧ SameNodes s s' ∧ (∀ n, s'.boundsChanged n = true → n ∈ s.children)
      ∧ (updated = true → Clean s') := by
  have hdirty : ∀ n, s.boundsChanged n = true → n ∈ nodes := by
    intro n hn
    have hmem : n ∈ s.children.filter s.boundsChanged := List.mem_filter.mpr ⟨(h.dirty n hn).1, hn⟩
    exact (List.mem_filter.mp (hnodes.mem_iff.mpr hmem)).1
  unfold Parent.updateCachedBounds
  split
  · rename_i hb
    obtain ⟨hsame, hclean⟩ := createCachedBounds_dirty h hb hdirty hsub
    refine ⟨true, _, rfl, hsame, ?_, fun _ => hclean⟩
    intro n hn
    rw [hclean.clean n] at hn
    cases hn
  · rename_i b hb
    have hcount : s.dirtyChildrenCount = (nodes.reverse.filter s.boundsChanged).length := by
      rw [h.count, List.filter_reverse, List.length_reverse, hnodes.length_eq]
    obtain ⟨u, hu, htaking⟩ := updateLoop_spec h.toBooks nodes.reverse
      (h.taking hb fun n hn => List.mem_reverse.mpr (hdirty n hn))
      (List.nodup_reverse.mpr hnodup) hcount
    rw [hu, ok_bind]
    dsimp only
    split
    · refine ⟨false, _, rfl, ⟨rfl, rfl, rfl⟩, ?_, fun hfalse => by cases hfalse⟩
      intro n hn
      have := ((htaking.dirty n).mp hn).2
      cases this
    · rename_i hany
      have hvalid : ∀ e, u.invalidEdges e = false := by
        intro e
        have hnot := List.any_eq_false.mp (eq_false_of_ne_true hany) e (by cases e <;> decide)
        exact eq_false_of_ne_true hnot
      refine ⟨true, _, rfl, ⟨rfl, rfl, rfl⟩, ?_, fun _ => htaking.tight hvalid⟩
      intro n hn
      have := ((htaking.dirty n).mp hn).2
      cases this

theorem Books.clean_of_singleton (h : Books s.children s) (hchildren : s.children = [n]) (m : N) :
    Function.update s.boundsChanged n false m = false := by
  by_cases hm : m = n
  · rw [hm, Function.update_self]
  · rw [Function.update_of_ne hm]
    apply h.not_dirty
    rw [hchildren, List.mem_singleton]
    exact hm

/-- A single child. -/
theorem clean_singleton (h : Kept s.children s) (hchildren : s.children = [n])
    (hvisible : s.visible n = true) :
    Clean { s with
      boundsChanged := Function.update s.boundsChanged n false
      cachedBounds := s.bounds n
      edge := fun _ => some n } := by
  refine ⟨?_, ?_, ?_, ?_⟩
  · exact h.toBooks.clean_of_singleton hchildren
  · intro m hm _
    dsimp only at hm ⊢
    rw [hchildren, List.mem_singleton] at hm
    rw [hm]
  · intro e m hm
    cases hm
    refine ⟨?_, hvisible⟩
    dsimp only
    rw [hchildren]
    exact List.mem_singleton.mpr rfl
  · intro b hb e
    exact ⟨n, rfl, b, hb, rfl⟩

/-- A single child that nobody sees. -/
theorem clean_singleton_hidden (h : Kept s.children s) (hchildren : s.children = [n])
    (hvisible : s.visible n = false) :
    Clean { s with
      boundsChanged := Function.update s.boundsChanged n false
      cachedBounds := ⊥ } := by
  refine ⟨?_, ?_, ?_, ?_⟩
  · exact h.toBooks.clean_of_singleton hchildren
  · intro m hm hv
    dsimp only at hm hv
    rw [hchildren, List.mem_singleton] at hm
    rw [hm, hvisible] at hv
    cases hv
  · exact h.edge
  · intro b hb
    cases hb

theorem recomputeBounds_spec (h : Kept s.children s) (hchildren : s.children ≠ []) :
    ∃ s', s.recomputeBounds = .ok s' ∧ SameNodes s s' ∧ Clean s' := by
  unfold Parent.recomputeBounds
  split
  · rename_i hnil
    exact absurd hnil hchildren
  · rename_i n hsingle
    dsimp only
    split
    · rename_i hvisible
      exact ⟨_, rfl, ⟨rfl, rfl, rfl⟩, clean_singleton h hsingle hvisible⟩
    · rename_i hvisible
      exact ⟨_, rfl, ⟨rfl, rfl, rfl⟩, clean_singleton_hidden h hsingle (eq_false_of_ne_true hvisible)⟩
  · split
    · obtain ⟨hsame, hclean⟩ := createCachedBounds_children fun n hn => (h.dirty n hn).1
      exact ⟨_, rfl, hsame, hclean⟩
    · have hnodes : (s.dirtyChildren.getD s.children).Nodup
          ∧ ((s.dirtyChildren.getD s.children).filter s.boundsChanged).Perm
            (s.children.filter s.boundsChanged)
          ∧ ∀ n ∈ s.dirtyChildren.getD s.children, n ∈ s.children := by
        cases hlist : s.dirtyChildren with
        | none => exact ⟨h.nodup, List.Perm.refl _, fun n hn => hn⟩
        | some l =>
          have hperm := h.listed l hlist
          rw [Option.getD_some]
          refine ⟨hperm.nodup_iff.mpr (h.nodup.filter _), ?_, ?_⟩
          · have hfilter := hperm.filter s.boundsChanged
            simp only [List.filter_filter, Bool.and_self] at hfilter
            exact hfilter
          · intro n hn
            exact (List.mem_filter.mp (hperm.mem_iff.mp hn)).1
      obtain ⟨updated, s', hs', hsame, hdirty, hclean⟩ :=
        updateCachedBounds_spec h hnodes.1 hnodes.2.1 hnodes.2.2
      rw [hs', ok_bind]
      dsimp only
      cases updated with
      | true => exact ⟨s', rfl, hsame, hclean rfl⟩
      | false =>
        rw [← hsame.children] at hdirty ⊢
        obtain ⟨hsame', hclean'⟩ := createCachedBounds_children hdirty
        exact ⟨_, rfl, hsame.trans hsame', hclean'⟩

end JavaFx.Scene.ParentBounds
