/-
Forests by their parents.

A forest is a map that gives a node its parent, if it has one. What is under a node are
the node and its descendants. A forest is acyclic when no parent is under its child; it
stays so when a node is detached, and when a node is attached to one that is not under it
(`Acyclic.attach`).

Among finitely many nodes both ways end: there are numbers of steps that take every node
to the top (`Acyclic.rises`) and to the bottom (`Acyclic.sinks`) of its tree, whatever
the shape. A recursion along parents or along children needs no more fuel.
-/
import Mathlib.Data.Fintype.Card
import Mathlib.Data.Set.Card
import Mathlib.Logic.Relation
import Mathlib.Logic.Function.Basic

set_option autoImplicit false

namespace JavaFx.Lib

variable {P : Type*}

/-- `x` is `y` or a descendant of it. -/
def Under (parent : P → Option P) (x y : P) : Prop :=
  Relation.ReflTransGen (fun a b => parent a = some b) x y

/-- No node is its own ancestor. -/
def Acyclic (parent : P → Option P) : Prop := ∀ x p, parent x = some p → ¬ Under parent p x

section Under

variable {parent : P → Option P} {x y z p : P}

theorem under_refl (x : P) : Under parent x x := Relation.ReflTransGen.refl

theorem Under.trans (h : Under parent x y) (h' : Under parent y z) : Under parent x z :=
  Relation.ReflTransGen.trans h h'

theorem under_parent (h : parent x = some p) : Under parent x p := Relation.ReflTransGen.single h

/-- The way up begins with the parent. -/
theorem Under.cases_head (h : Under parent x y) :
    x = y ∨ ∃ p, parent x = some p ∧ Under parent p y :=
  (Relation.ReflTransGen.cases_head_iff.mp h)

/-- The way up ends with a child. -/
theorem Under.cases_tail (h : Under parent x y) :
    x = y ∨ ∃ c, Under parent x c ∧ parent c = some y := by
  rcases Relation.ReflTransGen.cases_tail h with h | ⟨c, hc, hy⟩
  · exact Or.inl h.symm
  · exact Or.inr ⟨c, hc, hy⟩

theorem under_of_none (h : parent x = none) (hunder : Under parent x y) : x = y := by
  rcases hunder.cases_head with heq | ⟨p, hp, -⟩
  · exact heq
  · rw [h] at hp
    cases hp

/-- There is one way up. -/
theorem Under.linear (h : Under parent x y) (h' : Under parent x z) :
    Under parent y z ∨ Under parent z y := by
  induction h using Relation.ReflTransGen.head_induction_on with
  | refl => exact Or.inl h'
  | head hp htail ih =>
    rcases Under.cases_head h' with rfl | ⟨q, hq, hrest⟩
    · exact Or.inr (Relation.ReflTransGen.head hp htail)
    · rw [hp, Option.some_inj] at hq
      subst hq
      exact ih hrest

/-- A forest in which parents have a smaller rank. -/
theorem Acyclic.of_rank (rank : P → ℕ) (h : ∀ x p, parent x = some p → rank p < rank x) :
    Acyclic parent := by
  have hle : ∀ {a b : P}, Under parent a b → rank b ≤ rank a := by
    intro a b hab
    induction hab with
    | refl => exact le_refl _
    | tail _ hbc ih => exact (h _ _ hbc).le.trans ih
  intro x p hp hunder
  exact absurd (hle hunder) (not_le.mpr (h x p hp))

/-- Different children of a node have nothing in common. -/
theorem Acyclic.siblings (h : Acyclic parent) {c c' : P} (hc : parent c = some p)
    (hc' : parent c' = some p) (hx : Under parent x c) (hx' : Under parent x c') : c = c' := by
  have hup : ∀ {a b : P}, parent a = some p → parent b = some p → Under parent a b → a = b := by
    intro a b ha hb hab
    rcases hab.cases_head with heq | ⟨q, hq, hqb⟩
    · exact heq
    · rw [ha, Option.some_inj] at hq
      subst hq
      exact absurd hqb (h b p hb)
  rcases hx.linear hx' with hab | hba
  · exact hup hc hc' hab
  · exact (hup hc' hc hba).symm

end Under

/-! ## Attaching and detaching -/

section Update

variable [DecidableEq P] {parent : P → Option P} {v p : P}

/-- Without the node on the way nothing has changed. -/
theorem under_update_of_not_under {q : Option P} {x y : P} (h : ¬ Under parent x v) :
    Under (Function.update parent v q) x y ↔ Under parent x y := by
  have hne : ∀ {a b : P}, ¬ Under parent a v → (Function.update parent v q a = some b ↔
      parent a = some b) := by
    intro a b ha
    rw [Function.update_of_ne]
    rintro rfl
    exact ha (under_refl _)
  constructor
  · intro hxy
    induction hxy using Relation.ReflTransGen.head_induction_on with
    | refl => exact under_refl _
    | head hab _ ih =>
      have hp := (hne h).mp hab
      exact Relation.ReflTransGen.head hp (ih (fun hb => h (Relation.ReflTransGen.head hp hb)))
  · intro hxy
    induction hxy using Relation.ReflTransGen.head_induction_on with
    | refl => exact under_refl _
    | head hab _ ih =>
      exact Relation.ReflTransGen.head ((hne h).mpr hab)
        (ih (fun hb => h (Relation.ReflTransGen.head hab hb)))

theorem under_of_detach {x y : P} (h : Under (Function.update parent v none) x y) :
    Under parent x y := by
  refine Relation.ReflTransGen.mono ?_ x y h
  intro a b hab
  by_cases ha : a = v
  · rw [ha, Function.update_self] at hab
    cases hab
  · rwa [Function.update_of_ne ha] at hab

theorem Acyclic.detach (h : Acyclic parent) (v : P) : Acyclic (Function.update parent v none) := by
  intro x p hp hunder
  by_cases hx : x = v
  · rw [hx, Function.update_self] at hp
    cases hp
  · rw [Function.update_of_ne hx] at hp
    exact h x p hp (under_of_detach hunder)

/-- A node is attached to one that is not under it. -/
theorem Acyclic.attach (h : Acyclic parent) (hp : ¬ Under parent p v) :
    Acyclic (Function.update parent v (some p)) := by
  intro x q hq hunder
  by_cases hx : x = v
  · subst hx
    rw [Function.update_self, Option.some_inj] at hq
    subst hq
    exact hp ((under_update_of_not_under hp).mp hunder)
  · rw [Function.update_of_ne hx] at hq
    by_cases hqv : Under parent q v
    · -- the way from `q` goes through `v`, and from there to `p`, from which it does not return
      have hvp : Under (Function.update parent v (some p)) v p :=
        under_parent (Function.update_self _ _ _)
      have hstop : ∀ {a b : P}, Under (Function.update parent v (some p)) a b → Under parent b v →
          Under parent a b := by
        intro a b hab hb
        induction hab using Relation.ReflTransGen.head_induction_on with
        | refl => exact under_refl _
        | head hac hcb ih =>
          rename_i a c
          by_cases ha : a = v
          · subst ha
            rw [Function.update_self, Option.some_inj] at hac
            subst hac
            exact absurd (ih.trans hb) hp
          · rw [Function.update_of_ne ha] at hac
            exact Relation.ReflTransGen.head hac ih
      have hxv : Under parent x v := Relation.ReflTransGen.head hq hqv
      exact h x q hq (hstop hunder hxv)
    · exact h x q hq ((under_update_of_not_under hqv).mp hunder)

end Update

/-! ## Fuel -/

/-- The way up from a node is not longer. -/
def Rises (parent : P → Option P) : ℕ → P → Prop
  | 0, _ => False
  | n + 1, x => ∀ p, parent x = some p → Rises parent n p

/-- The ways down from a node are not longer. -/
def Sinks (parent : P → Option P) : ℕ → P → Prop
  | 0, _ => False
  | n + 1, x => ∀ c, parent c = some x → Sinks parent n c

section Fuel

variable {parent : P → Option P} [Finite P]

theorem Acyclic.rises_of_card (h : Acyclic parent) (n : ℕ) :
    ∀ x, {y | Under parent x y}.ncard ≤ n → Rises parent n x := by
  induction n with
  | zero =>
    intro x hcard
    have hempty := (Set.ncard_eq_zero (Set.toFinite _)).mp (Nat.le_zero.mp hcard)
    exact Set.eq_empty_iff_forall_notMem.mp hempty x (under_refl x)
  | succ n ih =>
    intro x hcard p hp
    apply ih
    have hsub : {y | Under parent p y} ⊂ {y | Under parent x y} := by
      refine ⟨fun y hy => (under_parent hp).trans hy, fun hsub => ?_⟩
      exact h x p hp (hsub (under_refl x))
    have := Set.ncard_lt_ncard hsub (Set.toFinite _)
    omega

theorem Acyclic.sinks_of_card (h : Acyclic parent) (n : ℕ) :
    ∀ x, {y | Under parent y x}.ncard ≤ n → Sinks parent n x := by
  induction n with
  | zero =>
    intro x hcard
    have hempty := (Set.ncard_eq_zero (Set.toFinite _)).mp (Nat.le_zero.mp hcard)
    exact Set.eq_empty_iff_forall_notMem.mp hempty x (under_refl x)
  | succ n ih =>
    intro x hcard c hc
    apply ih
    have hsub : {y | Under parent y c} ⊂ {y | Under parent y x} := by
      refine ⟨fun y hy => hy.trans (under_parent hc), fun hsub => ?_⟩
      exact h c x hc (hsub (under_refl x))
    have := Set.ncard_lt_ncard hsub (Set.toFinite _)
    omega

theorem Acyclic.rises (h : Acyclic parent) (x : P) : Rises parent (Nat.card P) x :=
  h.rises_of_card _ x (Set.ncard_le_card _)

theorem Acyclic.sinks (h : Acyclic parent) (x : P) : Sinks parent (Nat.card P) x :=
  h.sinks_of_card _ x (Set.ncard_le_card _)

end Fuel

end JavaFx.Lib
