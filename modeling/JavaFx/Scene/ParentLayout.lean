/-
Layout flags of `javafx.scene.Parent`.

A parent that needs layout is marked, and so is the way up to the root, for the next pass
to find it: by `requestLayout`, which goes up as long as the parents are to be laid out as
well, and from a layout root by `markDirtyLayoutBranch`. A pass takes the marks away.
`layoutChildren` may ask for layout again, of any parent; what it asks for in a pass is
given with the pass.

There are finitely many parents, detached at first and marked by their constructor. Going
up or down is given fuel, one more than there are parents at most.
-/
import JavaFx.Lib.Forest
import JavaFx.Lib.Run

set_option autoImplicit false

namespace JavaFx.Scene.ParentLayout

open JavaFx.Lib

/-! ## The state -/

/-- `LayoutFlags`. -/
inductive LayoutFlags
  | clean
  | needsLayout
  | dirtyBranch
  deriving DecidableEq

variable {P : Type} [DecidableEq P] [Fintype P]

/-- The parents. Whether one is managed does not change; that it is the root of a scene
ends when it is added to another. -/
structure World (P : Type) where
  managed : P → Bool
  sceneRoot : P → Bool
  parent : P → Option P
  children : P → List P
  layoutFlag : P → LayoutFlags
  performingLayout : P → Bool

/-- New parents. -/
def start (managed sceneRoot : P → Bool) : World P :=
  ⟨managed, sceneRoot, fun _ => none, fun _ => [], fun _ => .needsLayout, fun _ => false⟩

section World

variable (w : World P)

/-- The field `layoutRoot`. -/
def World.layoutRoot (v : P) : Bool := !w.managed v || w.sceneRoot v

/-- `setLayoutFlag`. -/
def World.setLayoutFlag (v : P) (flag : LayoutFlags) : World P :=
  { w with layoutFlag := Function.update w.layoutFlag v flag }

/-- The field `performingLayout` is set. -/
def World.setPerforming (v : P) (value : Bool) : World P :=
  { w with performingLayout := Function.update w.performingLayout v value }

/-! ## Requests -/

/-- The loop of `markDirtyLayoutBranch`. -/
def World.markBranch : ℕ → World P → Option P → Option (World P)
  | 0, _, _ => none
  | _ + 1, w, none => some w
  | n + 1, w, some p =>
    if w.layoutFlag p = .clean then World.markBranch n (w.setLayoutFlag p .dirtyBranch) (w.parent p)
    else some w

/-- `markDirtyLayoutBranch`. -/
def World.markDirtyLayoutBranch (v : P) : Option (World P) :=
  w.markBranch (Fintype.card P + 1) (w.parent v)

/-- `requestLayout`: `markDirtyLayout(false)` and, in it, `requestParentLayout`. -/
def World.requestUp : ℕ → World P → P → Option (World P)
  | 0, _, _ => none
  | n + 1, w, v =>
    let marked := w.setLayoutFlag v .needsLayout
    if w.layoutRoot v then
      if w.sceneRoot v then some marked else marked.markDirtyLayoutBranch v
    else
      match w.parent v with
      | none => some marked
      | some p => if w.performingLayout p then some marked else World.requestUp n marked p

/-- `requestLayout`. -/
def World.requestLayout (v : P) : Option (World P) := w.requestUp (Fintype.card P) v

/-- `setNeedsLayout`: `markDirtyLayout(true)`, or what the children say. -/
def World.setNeedsLayout (v : P) (value : Bool) : Option (World P) :=
  if value then
    let marked := w.setLayoutFlag v .needsLayout
    if w.sceneRoot v then some marked else marked.markDirtyLayoutBranch v
  else if w.layoutFlag v = .needsLayout then
    let hasBranch := (w.children v).any (fun c => w.layoutFlag c ≠ .clean)
    some (w.setLayoutFlag v (if hasBranch then .dirtyBranch else .clean))
  else some w

/-- How `layoutChildren` may ask for layout. -/
inductive Request (P : Type)
  | requestLayout (v : P)
  | setNeedsLayout (v : P)

/-- The parent that is to be laid out. -/
def Request.target : Request P → P
  | .requestLayout v | .setNeedsLayout v => v

/-- A request is made. -/
def World.request : Request P → Option (World P)
  | .requestLayout v => w.requestLayout v
  | .setNeedsLayout v => w.setNeedsLayout v true

/-! ## The pass -/

/-- `layoutChildren`, which makes its requests. -/
def World.layoutChildren (requests : List (Request P)) : Option (World P) :=
  requests.foldlM World.request w

/-- `layout`. -/
def World.layout (requests : P → List (Request P)) : ℕ → World P → P → Option (World P)
  | 0, _, _ => none
  | n + 1, w, v =>
    let branch (w : World P) : Option (World P) := do
      let laidOut ← (w.children v).foldlM (World.layout requests n) w
      return (laidOut.setLayoutFlag v .clean).setPerforming v false
    match w.layoutFlag v with
    | .clean => some w
    | .needsLayout =>
      if w.performingLayout v then some w
      else do
        let asked ← (w.setPerforming v true).layoutChildren (requests v)
        branch asked
    | .dirtyBranch => branch w

/-! ## Additions and removals -/

/-- `wouldCreateCycle`: the walk up from a parent meets the node. -/
def World.wouldCreateCycle : ℕ → World P → P → P → Bool
  | 0, _, _, _ => true
  | n + 1, w, n', v =>
    if n' = v then true
    else match w.parent n' with
      | some p => World.wouldCreateCycle n w p v
      | none => false

/-- `children.remove(v)`. The node leaves its scene. -/
def World.remove (p v : P) : Option (World P) :=
  if v ∈ w.children p then
    let removed :=
      { w with
        sceneRoot := Function.update w.sceneRoot v false
        parent := Function.update w.parent v none
        children := Function.update w.children p ((w.children p).erase v) }
    if w.managed v then removed.requestLayout p else some removed
  else some w

/-- `children.add(i, v)`. If the node has another parent it is removed there when the list
has changed. -/
def World.add (p : P) (i : ℕ) (v : P) : Option (World P) :=
  if v ∈ w.children p ∨ w.wouldCreateCycle (Fintype.card P) p v ∨ (w.children p).length < i then some w
  else do
    let added := { w with
      children := Function.update w.children p ((w.children p).insertIdx i v) }
    let moved ← match w.parent v with
      | some q => added.remove q v
      | none => some added
    let attached := { moved with
      sceneRoot := Function.update moved.sceneRoot v false
      parent := Function.update moved.parent v (some p) }
    if w.managed v ∨ moved.layoutFlag v ≠ .clean then attached.requestLayout p else some attached

end World

/-! ## Steps -/

/-- What is done to the tree. -/
inductive Action (P : Type)
  | requestLayout (v : P)
  | setNeedsLayout (v : P) (value : Bool)
  | add (p : P) (i : ℕ) (v : P)
  | remove (p v : P)
  | layout (root : P) (requests : P → List (Request P))

/-- An operation; nothing if the fuel does not do. -/
def next (w : World P) : Action P → Option (World P)
  | .requestLayout v => w.requestLayout v
  | .setNeedsLayout v value => w.setNeedsLayout v value
  | .add p i v => w.add p i v
  | .remove p v => w.remove p v
  | .layout root requests => World.layout requests (Fintype.card P) w root

/-- A step, with an error if the fuel does not do. -/
def step (w : World P) (a : Action P) : Except Unit (World P) :=
  match next w a with
  | some w' => .ok w'
  | none => .error ()

/-! ## What is right -/

/-- A parent with a mark has ancestors with marks only. -/
def Marked (w : World P) : Prop :=
  ∀ v a, Under w.parent v a → w.layoutFlag v ≠ .clean → w.layoutFlag a ≠ .clean

/-- In a pass from a root the turn of one comes before that of the other, and it is not an
ancestor of it: they are under different children of some parent. -/
def Passed (w : World P) (root x y : P) : Prop :=
  ∃ a c c', Under w.parent a root ∧ [c, c'].Sublist (w.children a) ∧ Under w.parent x c
    ∧ Under w.parent y c'

/-- In a pass layout is not asked for where the pass has been. -/
def Timely (w : World P) : Action P → Prop
  | .layout root requests => ∀ y, Under w.parent y root → ∀ r ∈ requests y,
      ¬ Passed w root r.target y
  | _ => True

end JavaFx.Scene.ParentLayout

/-!
Layout requests.

A request marks the way up until it comes to a parent that is marked already, or is just
being laid out; so marks have marks above them (`Raised`), at any time in a pass too.
-/

namespace JavaFx.Scene.ParentLayout

open JavaFx.Lib

variable {P : Type} {w w' w'' : World P} {v x p : P}

/-! ## What is kept -/

/-- The ways up end. -/
structure Up (w : World P) : Prop where
  acyclic : Acyclic w.parent
  root : ∀ v, w.sceneRoot v = true → w.parent v = none

/-- The parents and the lists of children are a forest. -/
structure Tree (w : World P) : Prop extends Up w where
  child : ∀ p v, v ∈ w.children p ↔ w.parent v = some p
  nodup : ∀ p, (w.children p).Nodup

/-- The parent of one with a mark has a mark. -/
def Raised (w : World P) : Prop :=
  ∀ v p, w.parent v = some p → w.layoutFlag v ≠ .clean → w.layoutFlag p ≠ .clean

/-- Who is being laid out has a mark. -/
def Performing (w : World P) : Prop :=
  ∀ p, w.performingLayout p = true → w.layoutFlag p ≠ .clean

theorem Raised.marked (h : Raised w) : Marked w := by
  intro v a hunder hv
  induction hunder using Relation.ReflTransGen.head_induction_on with
  | refl => exact hv
  | head hp _ ih => exact ih (h _ _ hp hv)

/-- Only marks have changed. -/
def SameTree (w w' : World P) : Prop := w' = { w with layoutFlag := w'.layoutFlag }

theorem SameTree.refl (w : World P) : SameTree w w := rfl

theorem SameTree.trans (h : SameTree w w') (h' : SameTree w' w'') : SameTree w w'' := by
  unfold SameTree at h h' ⊢
  rw [h', h]

theorem SameTree.parent (h : SameTree w w') : w'.parent = w.parent := by rw [h]

theorem SameTree.children (h : SameTree w w') : w'.children = w.children := by rw [h]

theorem SameTree.performing (h : SameTree w w') : w'.performingLayout = w.performingLayout := by
  rw [h]

theorem SameTree.up (h : SameTree w w') (ht : Up w) : Up w' := by
  rw [h]
  exact ⟨ht.acyclic, ht.root⟩

theorem SameTree.tree (h : SameTree w w') (ht : Tree w) : Tree w' := by
  rw [h]
  exact ⟨⟨ht.acyclic, ht.root⟩, ht.child, ht.nodup⟩

/-- Marks have been made at some parents, and nothing else has changed. -/
structure Marks (S : P → Prop) (w w' : World P) : Prop where
  same : SameTree w w'
  flag : ∀ x, w'.layoutFlag x = w.layoutFlag x ∨ S x ∧ w'.layoutFlag x ≠ .clean

theorem Marks.refl (S : P → Prop) (w : World P) : Marks S w w := ⟨rfl, fun _ => Or.inl rfl⟩

theorem Marks.trans {S : P → Prop} (h : Marks S w w') (h' : Marks S w' w'') : Marks S w w'' := by
  refine ⟨h.same.trans h'.same, ?_⟩
  intro x
  rcases h'.flag x with heq | hx
  · rw [heq]
    exact h.flag x
  · exact Or.inr hx

theorem Marks.mono {S T : P → Prop} (h : Marks S w w') (hST : ∀ x, S x → T x) : Marks T w w' := by
  refine ⟨h.same, ?_⟩
  intro x
  rcases h.flag x with heq | ⟨hx, hflag⟩
  · exact Or.inl heq
  · exact Or.inr ⟨hST x hx, hflag⟩

/-- A mark stays. -/
theorem Marks.dirty {S : P → Prop} (h : Marks S w w') (hx : w.layoutFlag x ≠ .clean) :
    w'.layoutFlag x ≠ .clean := by
  rcases h.flag x with heq | ⟨-, hflag⟩
  · rwa [heq]
  · exact hflag

theorem Marks.performing {S : P → Prop} (h : Marks S w w') (hw : Performing w) : Performing w' := by
  intro p hp
  rw [h.same.performing] at hp
  exact h.dirty (hw p hp)

/-- Marks have marks above them, but perhaps not at some parent. -/
def RaisedBut (w : World P) (o : Option P) : Prop :=
  ∀ v p, w.parent v = some p → w.layoutFlag v ≠ .clean → w.layoutFlag p ≠ .clean ∨ o = some p

theorem Raised.but (h : Raised w) (o : Option P) : RaisedBut w o :=
  fun v p hp hv => Or.inl (h v p hp hv)

theorem RaisedBut.raised_of_none (h : RaisedBut w none) : Raised w := by
  intro x p hp hx
  exact (h x p hp hx).resolve_right (fun heq => by cases heq)

theorem RaisedBut.raised (h : RaisedBut w (some v)) (hv : w.layoutFlag v ≠ .clean) : Raised w := by
  intro x p hp hx
  rcases h x p hp hx with hp' | hp'
  · exact hp'
  · cases hp'
    exact hv

variable [DecidableEq P]

theorem marks_setLayoutFlag {flag : LayoutFlags} (hflag : flag ≠ .clean) {S : P → Prop} (hv : S v) :
    Marks S w (w.setLayoutFlag v flag) := by
  refine ⟨rfl, ?_⟩
  intro x
  unfold World.setLayoutFlag
  by_cases hx : x = v
  · subst hx
    refine Or.inr ⟨hv, ?_⟩
    dsimp only
    rw [Function.update_self]
    exact hflag
  · refine Or.inl ?_
    dsimp only
    rw [Function.update_of_ne hx]

theorem setLayoutFlag_self (w : World P) (v : P) (flag : LayoutFlags) :
    (w.setLayoutFlag v flag).layoutFlag v = flag := Function.update_self _ _ _

/-! ## Requests -/

/-- When the exception is marked, its parent is the only one left. -/
theorem RaisedBut.setLayoutFlag {flag : LayoutFlags} (h : RaisedBut w (some v)) (hflag : flag ≠ .clean) :
    RaisedBut (w.setLayoutFlag v flag) (w.parent v) := by
  intro x p hp hx
  by_cases hxv : x = v
  · subst hxv
    exact Or.inr hp
  · have hdirty : w.layoutFlag x ≠ .clean := by
      unfold World.setLayoutFlag at hx
      dsimp only at hx
      rwa [Function.update_of_ne hxv] at hx
    rcases h x p hp hdirty with hp' | hp'
    · exact Or.inl ((marks_setLayoutFlag hflag (S := fun _ => True) trivial).dirty hp')
    · cases hp'
      left
      rw [setLayoutFlag_self]
      exact hflag

theorem markBranch_spec (n : ℕ) : ∀ {w : World P} {o : Option P}, RaisedBut w o →
    (∀ p, o = some p → Rises w.parent n p) →
    ∃ w', w.markBranch (n + 1) o = some w' ∧ Raised w'
      ∧ Marks (fun x => ∃ p, o = some p ∧ Under w.parent p x) w w' := by
  induction n with
  | zero =>
    intro w o hbut hrises
    cases o with
    | none => exact ⟨w, rfl, hbut.raised_of_none, Marks.refl _ w⟩
    | some p => exact (hrises p rfl).elim
  | succ n ih =>
    intro w o hbut hrises
    cases o with
    | none => exact ⟨w, rfl, hbut.raised_of_none, Marks.refl _ w⟩
    | some p =>
      rw [World.markBranch]
      by_cases hclean : w.layoutFlag p = .clean
      · rw [if_pos hclean]
        have hflag : LayoutFlags.dirtyBranch ≠ .clean := by decide
        obtain ⟨w', hw', hraised, hmarks⟩ := ih (hbut.setLayoutFlag hflag)
          (fun q hq => hrises p rfl q hq)
        refine ⟨w', hw', hraised, ?_⟩
        apply (marks_setLayoutFlag hflag ⟨p, rfl, under_refl p⟩).trans
        apply hmarks.mono
        rintro x ⟨q, hq, hx⟩
        exact ⟨p, rfl, (under_parent hq).trans hx⟩
      · rw [if_neg hclean]
        exact ⟨w, rfl, hbut.raised hclean, Marks.refl _ w⟩

/-- What a request does: it marks a parent and some above it. -/
structure Asks (w w' : World P) (v : P) : Prop where
  raised : Raised w'
  marks : Marks (Under w.parent v) w w'

variable [Fintype P]

theorem markDirtyLayoutBranch_spec (ht : Up w) {flag : LayoutFlags} (hflag : flag ≠ .clean)
    (hbut : RaisedBut w (some v)) :
    ∃ w', (w.setLayoutFlag v flag).markDirtyLayoutBranch v = some w' ∧ Asks w w' v := by
  have hrises : ∀ p, w.parent v = some p → Rises w.parent (Fintype.card P) p := by
    intro p _
    have h := ht.acyclic.rises p
    rwa [Nat.card_eq_fintype_card] at h
  obtain ⟨w', hw', hraised, hmarks⟩ := markBranch_spec (Fintype.card P) (hbut.setLayoutFlag hflag)
    hrises
  refine ⟨w', hw', hraised, ?_⟩
  apply (marks_setLayoutFlag hflag (under_refl v)).trans
  apply hmarks.mono
  rintro x ⟨p, hp, hx⟩
  exact (under_parent hp).trans hx

theorem requestUp_spec (n : ℕ) : ∀ {w : World P} {v : P}, Up w → RaisedBut w (some v) →
    Performing w → Rises w.parent n v → ∃ w', w.requestUp n v = some w' ∧ Asks w w' v := by
  induction n with
  | zero => exact fun _ _ _ hrises => hrises.elim
  | succ n ih =>
    intro w v ht hbut hperforming hrises
    have hflag : LayoutFlags.needsLayout ≠ .clean := by decide
    have hmarks := marks_setLayoutFlag (w := w) hflag (@under_refl _ w.parent v)
    have hbut' := hbut.setLayoutFlag hflag
    rw [World.requestUp]
    split
    · split
      · rename_i hroot
        rw [ht.root v hroot] at hbut'
        exact ⟨_, rfl, hbut'.raised_of_none, hmarks⟩
      · exact markDirtyLayoutBranch_spec ht hflag hbut
    · cases hp : w.parent v with
      | none =>
        rw [hp] at hbut'
        exact ⟨_, rfl, hbut'.raised_of_none, hmarks⟩
      | some p =>
        rw [hp] at hbut'
        dsimp only
        split
        · -- the parent is being laid out, and has its mark
          rename_i hlayout
          exact ⟨_, rfl, hbut'.raised (hmarks.dirty (hperforming p hlayout)), hmarks⟩
        · obtain ⟨w', hw', hasks⟩ := ih (hmarks.same.up ht) hbut' (hmarks.performing hperforming)
            (hrises p hp)
          refine ⟨w', hw', hasks.raised, hmarks.trans (hasks.marks.mono ?_)⟩
          intro x hx
          exact (under_parent hp).trans hx

theorem requestLayout_spec (ht : Up w) (hbut : RaisedBut w (some v)) (hperforming : Performing w) :
    ∃ w', w.requestLayout v = some w' ∧ Asks w w' v := by
  apply requestUp_spec _ ht hbut hperforming
  have h := ht.acyclic.rises v
  rwa [Nat.card_eq_fintype_card] at h

theorem setNeedsLayout_true_spec (ht : Up w) (hraised : Raised w) :
    ∃ w', w.setNeedsLayout v true = some w' ∧ Asks w w' v := by
  have hflag : LayoutFlags.needsLayout ≠ .clean := by decide
  unfold World.setNeedsLayout
  rw [if_pos rfl]
  split
  · rename_i hroot
    have hbut := (hraised.but (some v)).setLayoutFlag hflag
    rw [ht.root v hroot] at hbut
    exact ⟨_, rfl, hbut.raised_of_none, marks_setLayoutFlag hflag (under_refl v)⟩
  · exact markDirtyLayoutBranch_spec ht hflag (hraised.but _)

theorem request_spec (ht : Up w) (hraised : Raised w) (hperforming : Performing w) (r : Request P) :
    ∃ w', w.request r = some w' ∧ Asks w w' r.target := by
  cases r with
  | requestLayout v => exact requestLayout_spec ht (hraised.but _) hperforming
  | setNeedsLayout v => exact setNeedsLayout_true_spec ht hraised

/-- The requests of `layoutChildren` mark what they are for and some above. -/
theorem layoutChildren_spec (requests : List (Request P)) : ∀ {w : World P}, Up w → Raised w →
    Performing w → ∃ w', w.layoutChildren requests = some w' ∧ Raised w'
      ∧ Marks (fun x => ∃ r ∈ requests, Under w.parent r.target x) w w' := by
  induction requests with
  | nil => exact fun _ hraised _ => ⟨_, rfl, hraised, Marks.refl _ _⟩
  | cons r requests ih =>
    intro w ht hraised hperforming
    obtain ⟨w₁, hw₁, hasks⟩ := request_spec ht hraised hperforming r
    obtain ⟨w', hw', hraised', hmarks⟩ := ih (hasks.marks.same.up ht) hasks.raised
      (hasks.marks.performing hperforming)
    refine ⟨w', ?_, hraised', ?_⟩
    · unfold World.layoutChildren at hw' ⊢
      rw [List.foldlM_cons, hw₁]
      exact hw'
    · apply (hasks.marks.mono (fun x hx => ⟨r, List.mem_cons_self, hx⟩)).trans
      apply hmarks.mono
      rintro x ⟨r', hr', hx⟩
      rw [hasks.marks.same.parent] at hx
      exact ⟨r', List.mem_cons_of_mem _ hr', hx⟩

end JavaFx.Scene.ParentLayout
