/-
Layout passes.

A pass leaves nothing marked where it has been, unless layout is asked for there when its
turn is over; and then it takes the mark from the parents in front of it (`layout_spec`).
-/
import JavaFx.Scene.ParentLayout

set_option autoImplicit false

namespace JavaFx.Scene.ParentLayout

open JavaFx.Lib

variable {P : Type} {w w' w₀ w₁ : World P} {root v x p : P} {requests : P → List (Request P)}

/-! ## What is under a parent -/

theorem Tree.child_under (ht : Tree w) {c : P} (hc : c ∈ w.children v) : Under w.parent c v :=
  under_parent ((ht.child v c).mp hc)

/-- What is under a parent, without itself, is under a child. -/
theorem Tree.under_cases (ht : Tree w) (hx : Under w.parent x v) :
    x = v ∨ ∃ c ∈ w.children v, Under w.parent x c := by
  rcases hx.cases_tail with heq | ⟨c, hxc, hc⟩
  · exact Or.inl heq
  · exact Or.inr ⟨c, (ht.child v c).mpr hc, hxc⟩

theorem Tree.not_under_child (ht : Tree w) {c : P} (hc : c ∈ w.children v) :
    ¬ Under w.parent v c :=
  ht.acyclic c v ((ht.child v c).mp hc)

/-- Where the pass has been before a parent it has been before what is under it. -/
theorem Passed.of_under {y : P} (h : Passed w root x v) (hy : Under w.parent y v) :
    Passed w root x y := by
  obtain ⟨a, c, c', ha, hsub, hx, hv⟩ := h
  exact ⟨a, c, c', ha, hsub, hx, hy.trans hv⟩

/-- And where it has been it has been below as well. -/
theorem Passed.under {y : P} (h : Passed w root x v) (hy : Under w.parent y x) :
    Passed w root y v := by
  obtain ⟨a, c, c', ha, hsub, hx, hv⟩ := h
  exact ⟨a, c, c', ha, hsub, hy.trans hx, hv⟩

theorem Tree.not_passed_self (ht : Tree w) : ¬ Passed w root x x := by
  rintro ⟨a, c, c', -, hsub, hxc, hxc'⟩
  have hc : w.parent c = some a := (ht.child a c).mp (hsub.subset List.mem_cons_self)
  have hc' : w.parent c' = some a :=
    (ht.child a c').mp (hsub.subset (List.mem_cons_of_mem _ List.mem_cons_self))
  have hnodup := hsub.nodup (ht.nodup a)
  rw [ht.acyclic.siblings hc hc' hxc hxc'] at hnodup
  exact absurd List.mem_cons_self (List.nodup_cons.mp hnodup).1

theorem SameTree.passed (h : SameTree w w') {y : P} : Passed w' root x y ↔ Passed w root x y := by
  unfold Passed
  rw [h.parent, h.children]

/-! ## Before and after -/

/-- What is asked for under a parent is not where the pass has been. -/
def TimelyUnder (w : World P) (root v : P) (requests : P → List (Request P)) : Prop :=
  ∀ y, Under w.parent y v → ∀ r ∈ requests y, ¬ Passed w root r.target y

/-- A parent's turn has come. -/
structure Turn (w : World P) (root v : P) (requests : P → List (Request P)) : Prop where
  tree : Tree w
  raised : Raised w
  performing : Performing w
  idle : ∀ x, Under w.parent x v → w.performingLayout x = false
  under : Under w.parent v root
  timely : TimelyUnder w root v requests

/-- A parent's turn is over. -/
structure Laid (w w' : World P) (root v : P) : Prop where
  same : SameTree w w'
  raised : Raised w'
  clean : ∀ x, Under w.parent x v → w'.layoutFlag x = .clean
  dirty : ∀ x, ¬ Under w.parent x v → w.layoutFlag x ≠ .clean → w'.layoutFlag x ≠ .clean
  passed : ∀ x, Passed w root x v → w'.layoutFlag x = w.layoutFlag x

/-- Some children of a parent have had their turn. -/
structure Half (w w' : World P) (root v : P) (done : List P) : Prop where
  same : SameTree w w'
  raised : Raised w'
  mark : w'.layoutFlag v ≠ .clean
  clean : ∀ d ∈ done, ∀ x, Under w.parent x d → w'.layoutFlag x = .clean
  dirty : ∀ x, ¬ Under w.parent x v → w.layoutFlag x ≠ .clean → w'.layoutFlag x ≠ .clean
  passed : ∀ x, Passed w root x v → w'.layoutFlag x = w.layoutFlag x

theorem Half.turn {done rest : List P} {c : P} (h : Half w w' root v done)
    (ht : Tree w) (hchildren : w.children v = done ++ c :: rest) (hunder : Under w.parent v root)
    (hidle : ∀ x, Under w.parent x v → x ≠ v → w.performingLayout x = false)
    (hperforming : Performing w) (htimely : TimelyUnder w root v requests) :
    Turn w' root c requests := by
  have hc : c ∈ w.children v := by
    rw [hchildren]
    exact List.mem_append_right _ List.mem_cons_self
  have hcv := ht.child_under hc
  refine ⟨h.same.tree ht, h.raised, ?_, ?_, ?_, ?_⟩
  · intro p hp
    rw [h.same.performing] at hp
    by_cases hpv : p = v
    · rw [hpv]
      exact h.mark
    · refine h.dirty p (fun hunder => ?_) (hperforming p hp)
      rw [hidle p hunder hpv] at hp
      cases hp
  · intro x hx
    rw [h.same.parent] at hx
    rw [h.same.performing]
    apply hidle x (hx.trans hcv)
    rintro rfl
    exact ht.not_under_child hc hx
  · rw [h.same.parent]
    exact hcv.trans hunder
  · intro y hy r hr hpassed
    rw [h.same.parent] at hy
    exact htimely y (hy.trans hcv) r hr (h.same.passed.mp hpassed)

/-- A child has had its turn; what is under the children before it has not been asked to be
laid out again. -/
theorem Half.snoc {done rest : List P} {c : P} (h : Half w w₀ root v done)
    (ht : Tree w) (hchildren : w.children v = done ++ c :: rest) (hunder : Under w.parent v root)
    (hlaid : Laid w₀ w₁ root c) : Half w w₁ root v (done ++ [c]) := by
  have hc : c ∈ w.children v := by
    rw [hchildren]
    exact List.mem_append_right _ List.mem_cons_self
  have hclean := hlaid.clean
  have hdirty := hlaid.dirty
  rw [h.same.parent] at hclean hdirty
  have hpassed : ∀ x, Passed w root x c → w₁.layoutFlag x = w₀.layoutFlag x :=
    fun x hx => hlaid.passed x (h.same.passed.mpr hx)
  refine ⟨h.same.trans hlaid.same, hlaid.raised, ?_, ?_, ?_, ?_⟩
  · exact hdirty v (ht.not_under_child hc) h.mark
  · intro d hd x hx
    rcases List.mem_append.mp hd with hd | hd
    · have hsub : [d, c].Sublist (w.children v) := by
        rw [hchildren]
        exact (List.singleton_sublist.mpr hd).append
          (List.singleton_sublist.mpr List.mem_cons_self)
      rw [hpassed x ⟨v, d, c, hunder, hsub, hx, under_refl c⟩]
      exact h.clean d hd x hx
    · rw [List.mem_singleton.mp hd] at hx
      exact hclean x hx
  · intro x hx hflag
    exact hdirty x (fun hxc => hx (hxc.trans (ht.child_under hc))) (h.dirty x hx hflag)
  · intro x hx
    rw [hpassed x (hx.of_under (ht.child_under hc)), h.passed x hx]

/-! ## The pass -/

/-- The rest of the children have their turns. -/
theorem children_spec {layout : World P → P → Option (World P)} (ht : Tree w)
    (hlayout : ∀ w' c, SameTree w w' → c ∈ w.children v → Turn w' root c requests →
      ∃ w'', layout w' c = some w'' ∧ Laid w' w'' root c)
    (hunder : Under w.parent v root)
    (hidle : ∀ x, Under w.parent x v → x ≠ v → w.performingLayout x = false)
    (hperforming : Performing w) (htimely : TimelyUnder w root v requests) (rest : List P) :
    ∀ {done : List P} {w' : World P}, w.children v = done ++ rest → Half w w' root v done →
      ∃ w'', rest.foldlM layout w' = some w'' ∧ Half w w'' root v (w.children v) := by
  induction rest with
  | nil =>
    intro done w' hchildren h
    rw [List.append_nil] at hchildren
    rw [hchildren]
    exact ⟨w', rfl, h⟩
  | cons c rest ih =>
    intro done w' hchildren h
    have hc : c ∈ w.children v := by
      rw [hchildren]
      exact List.mem_append_right _ List.mem_cons_self
    obtain ⟨w₁, hw₁, hlaid⟩ := hlayout w' c h.same hc
      (h.turn ht hchildren hunder hidle hperforming htimely)
    obtain ⟨w₂, hw₂, hhalf⟩ := ih (by rw [hchildren, List.append_assoc]; rfl)
      (h.snoc ht hchildren hunder hlaid)
    refine ⟨w₂, ?_, hhalf⟩
    rw [List.foldlM_cons, hw₁]
    exact hw₂

variable [DecidableEq P]

/-- The parent is clean when its children are. -/
theorem Half.laid {b : Bool} (h : Half (w.setPerforming v b) w' root v (w.children v))
    (ht : Tree w) (hidle : w.performingLayout v = false) :
    Laid w ((w'.setLayoutFlag v .clean).setPerforming v false) root v := by
  have hparent : w'.parent = w.parent := h.same.parent
  have hperforming : Function.update w'.performingLayout v false = w.performingLayout := by
    have hsame : w'.performingLayout = Function.update w.performingLayout v b := h.same.performing
    rw [hsame, Function.update_idem, ← hidle, Function.update_eq_self]
  have hflag : ∀ x, x ≠ v → (w'.setLayoutFlag v .clean).layoutFlag x = w'.layoutFlag x :=
    fun x hx => Function.update_of_ne hx _ _
  have hclean : ∀ x, Under w.parent x v → (w'.setLayoutFlag v .clean).layoutFlag x = .clean := by
    intro x hx
    by_cases hxv : x = v
    · rw [hxv, setLayoutFlag_self]
    · rw [hflag x hxv]
      obtain ⟨c, hc, hxc⟩ := (ht.under_cases hx).resolve_left hxv
      exact h.clean c hc x hxc
  refine ⟨?_, ?_, hclean, ?_, ?_⟩
  · have hsame : w' = { w.setPerforming v b with layoutFlag := w'.layoutFlag } := h.same
    unfold SameTree World.setPerforming
    rw [hsame] at hperforming ⊢
    dsimp only [World.setLayoutFlag, World.setPerforming] at hperforming ⊢
    rw [hperforming]
  · intro x p hp hx
    have hp' : w'.parent x = some p := hp
    by_cases hpv : p = v
    · rw [hparent, hpv] at hp'
      exact absurd (hclean x (under_parent hp')) hx
    · by_cases hxv : x = v
      · rw [hxv] at hx
        exact absurd (setLayoutFlag_self w' v .clean) hx
      · have hxflag : w'.layoutFlag x ≠ .clean := by
          rw [← hflag x hxv]
          exact hx
        change (w'.setLayoutFlag v .clean).layoutFlag p ≠ .clean
        rw [hflag p hpv]
        exact h.raised x p hp' hxflag
  · intro x hx hdirty
    change (w'.setLayoutFlag v .clean).layoutFlag x ≠ .clean
    have hxv : x ≠ v := by
      rintro rfl
      exact hx (under_refl x)
    rw [hflag x hxv]
    exact h.dirty x hx hdirty
  · intro x hx
    change (w'.setLayoutFlag v .clean).layoutFlag x = w.layoutFlag x
    have hxv : x ≠ v := by
      rintro rfl
      exact ht.not_passed_self hx
    rw [hflag x hxv]
    exact h.passed x hx

theorem Tree.setPerforming (ht : Tree w) (v : P) (b : Bool) : Tree (w.setPerforming v b) :=
  ⟨⟨ht.acyclic, ht.root⟩, ht.child, ht.nodup⟩

theorem Performing.setPerforming (h : Performing w) (hdirty : w.layoutFlag v ≠ .clean) (b : Bool) :
    Performing (w.setPerforming v b) := by
  intro p hp
  change Function.update w.performingLayout v b p = true at hp
  by_cases hpv : p = v
  · rw [hpv]
    exact hdirty
  · rw [Function.update_of_ne hpv] at hp
    exact h p hp

variable [Fintype P]

/-- `layoutChildren` of a parent whose turn has come. -/
theorem Turn.asked (h : Turn w root v requests) (hdirty : w.layoutFlag v ≠ .clean) :
    ∃ w', (w.setPerforming v true).layoutChildren (requests v) = some w'
      ∧ Half (w.setPerforming v true) w' root v [] := by
  obtain ⟨w', hw', hraised, hmarks⟩ := layoutChildren_spec (requests v)
    (h.tree.setPerforming v true).toUp h.raised (h.performing.setPerforming hdirty true)
  refine ⟨w', hw', hmarks.same, hraised, hmarks.dirty hdirty, ?_, ?_, ?_⟩
  · intro d hd
    cases hd
  · exact fun x _ hx => hmarks.dirty hx
  · intro x hx
    rcases hmarks.flag x with heq | ⟨⟨r, hr, hrx⟩, -⟩
    · exact heq
    · exact absurd (Passed.under hx hrx) (h.timely v (under_refl v) r hr)

theorem layout_spec (n : ℕ) : ∀ {w : World P} {v : P}, Sinks w.parent n v →
    Turn w root v requests → ∃ w', World.layout requests n w v = some w' ∧ Laid w w' root v := by
  induction n with
  | zero => exact fun hsinks => hsinks.elim
  | succ n ih =>
    intro w v hsinks h
    have hidle := h.idle v (under_refl v)
    -- the turns of the children, in whatever state the parent has come to
    have hbranch : ∀ {b : Bool} {w₁ : World P}, w.layoutFlag v ≠ .clean →
        Half (w.setPerforming v b) w₁ root v [] →
        ∃ w₂, (w₁.children v).foldlM (World.layout requests n) w₁ = some w₂
          ∧ Laid w ((w₂.setLayoutFlag v .clean).setPerforming v false) root v := by
      intro b w₁ hdirty hhalf
      have hidle' : ∀ x, Under w.parent x v → x ≠ v →
          (w.setPerforming v b).performingLayout x = false := by
        intro x hx hxv
        change Function.update w.performingLayout v b x = false
        rw [Function.update_of_ne hxv]
        exact h.idle x hx
      obtain ⟨w₂, hw₂, hlaid⟩ := children_spec (h.tree.setPerforming v b)
        (fun w' c hsame hc hturn => ih
          (by rw [hsame.parent]; exact hsinks c ((h.tree.child v c).mp hc)) hturn)
        h.under hidle' (h.performing.setPerforming hdirty b) h.timely (w.children v) rfl hhalf
      have hchildren : w₁.children v = w.children v := by rw [hhalf.same.children]; rfl
      rw [hchildren]
      exact ⟨w₂, hw₂, hlaid.laid h.tree hidle⟩
    rw [World.layout]
    dsimp only
    cases hflag : w.layoutFlag v with
    | clean =>
      refine ⟨w, rfl, SameTree.refl w, h.raised, ?_, fun _ _ hx => hx, fun _ _ => rfl⟩
      intro x hx
      by_contra hdirty
      exact h.raised.marked x v hx hdirty hflag
    | needsLayout =>
      have hdirty : w.layoutFlag v ≠ .clean := by rw [hflag]; decide
      dsimp only
      rw [if_neg (by rw [hidle]; decide)]
      obtain ⟨w₁, hw₁, hhalf⟩ := h.asked hdirty
      obtain ⟨w₂, hw₂, hlaid⟩ := hbranch hdirty hhalf
      refine ⟨_, ?_, hlaid⟩
      rw [hw₁]
      change ((w₁.children v).foldlM (World.layout requests n) w₁ >>= _) = _
      rw [hw₂]
      rfl
    | dirtyBranch =>
      have hdirty : w.layoutFlag v ≠ .clean := by rw [hflag]; decide
      have hsame : w.setPerforming v false = w := by
        unfold World.setPerforming
        rw [← hidle, Function.update_eq_self]
      have hhalf : Half (w.setPerforming v false) w root v [] := by
        rw [hsame]
        exact ⟨SameTree.refl w, h.raised, hdirty, (fun d hd => by cases hd),
          fun _ _ hx => hx, fun _ _ => rfl⟩
      obtain ⟨w₂, hw₂, hlaid⟩ := hbranch hdirty hhalf
      refine ⟨_, ?_, hlaid⟩
      dsimp only
      rw [hw₂]
      rfl

end JavaFx.Scene.ParentLayout
