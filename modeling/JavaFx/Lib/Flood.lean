/-
Floods over a graph.

Something spreads from a node to its neighbours, and every node that it comes to for the
first time passes it on to all of its own. In the middle of it some nodes are waiting for
calls to come back; what can be said of any part of it is `Flood`: no node is lost, what is
new hangs together with the source, and the neighbours of what is new are reached as well.

A flood that begins where nothing is reached reaches exactly the component of its source
(`Flood.mem_iff`).
-/
import Mathlib.Data.Set.Insert
import Mathlib.Logic.Relation

set_option autoImplicit false

namespace JavaFx.Lib

variable {P : Type*} {adj : P → P → Prop} {a b : P} {V W X : Set P}

/-- What a part of a flood from `a` does to the set of reached nodes. -/
structure Flood (adj : P → P → Prop) (a : P) (V W : Set P) : Prop where
  grows : V ⊆ W
  reached : ∀ b ∈ W, b ∉ V → Relation.ReflTransGen adj a b
  closed : ∀ b ∈ W, b ∉ V → ∀ c, adj b c → c ∈ W

theorem Flood.refl (a : P) (V : Set P) : Flood adj a V V :=
  ⟨Set.Subset.rfl, fun _ hb hn => absurd hb hn, fun _ hb hn => absurd hb hn⟩

theorem Flood.trans (h : Flood adj a V W) (h' : Flood adj a W X) : Flood adj a V X where
  grows := h.grows.trans h'.grows
  reached b hb hn := by
    by_cases hbW : b ∈ W
    · exact h.reached b hbW hn
    · exact h'.reached b hb hbW
  closed b hb hn c hc := by
    by_cases hbW : b ∈ W
    · exact h'.grows (h.closed b hbW hn c hc)
    · exact h'.closed b hb hbW c hc

/-- A flood from a neighbour is one from the node. -/
theorem Flood.of_adj (hadj : adj a b) (h : Flood adj b V W) : Flood adj a V W :=
  ⟨h.grows, fun c hc hn => (h.reached c hc hn).head hadj, h.closed⟩

/-- A node is reached, and then everything around it. -/
theorem Flood.visit (h : Flood adj a (insert a V) W) (haround : ∀ c, adj a c → c ∈ W) :
    Flood adj a V W where
  grows := (Set.subset_insert a V).trans h.grows
  reached b hb hn := by
    by_cases heq : b = a
    · rw [heq]
    · exact h.reached b hb fun hmem => hmem.elim heq hn
  closed b hb hn c hc := by
    by_cases heq : b = a
    · exact haround c (heq ▸ hc)
    · exact h.closed b hb (fun hmem => hmem.elim heq hn) c hc

/-- **A whole flood** reaches the component of its source. -/
theorem Flood.mem_iff (h : Flood adj a V W) (ha : a ∈ W)
    (hfresh : ∀ c, Relation.ReflTransGen adj a c → c ∉ V) :
    b ∈ W ↔ b ∈ V ∨ Relation.ReflTransGen adj a b := by
  constructor
  · intro hb
    exact or_iff_not_imp_left.mpr (h.reached b hb)
  · rintro (hb | hb)
    · exact h.grows hb
    · induction hb with
      | refl => exact ha
      | tail hreach hadj ih => exact h.closed _ ih (hfresh _ hreach) _ hadj

end JavaFx.Lib
