/-
Boxes by their edges.

A box has a lower and an upper coordinate on each of three axes. It has six edges, and at
each of them one box may be as far out as another (`Edge.Out`). A box contains another if
it is as far out at every edge, so a union of boxes is known by its edges: it contains
all of them, and every edge of it is an edge of one of them (`eq_sup_of_touches`).

Bounds are a box, or are empty. They are a lattice, in which the union is the supremum.
-/
import Mathlib.Order.Interval.Basic
import Mathlib.Data.Multiset.Lattice

set_option autoImplicit false

namespace JavaFx.Lib

/-- The edges of a box. -/
inductive Edge
  | left
  | top
  | near
  | right
  | bottom
  | far
  deriving DecidableEq

variable {L : Type*} [LinearOrder L]

/-- A coordinate is as far out as another. -/
def Edge.Out : Edge → L → L → Prop
  | .left, x, y | .top, x, y | .near, x, y => x ≤ y
  | .right, x, y | .bottom, x, y | .far, x, y => y ≤ x

instance (e : Edge) (x y : L) : Decidable (e.Out x y) := by
  cases e <;> exact inferInstanceAs (Decidable (_ ≤ _))

section Out

variable {e : Edge} {x y z : L}

theorem Edge.Out.refl (e : Edge) (x : L) : e.Out x x := by cases e <;> exact le_refl x

theorem Edge.Out.trans (h : e.Out x y) (h' : e.Out y z) : e.Out x z := by
  cases e
  case left | top | near => exact le_trans h h'
  case right | bottom | far => exact le_trans h' h

theorem Edge.out_of_not_out (h : ¬ e.Out x y) : e.Out y x := by
  cases e <;> exact le_of_not_ge h

end Out

/-- A box. -/
abbrev Box (L : Type*) [LinearOrder L] : Type _ := NonemptyInterval (L × L × L)

/-- A box, or none. -/
abbrev Bounds (L : Type*) [LinearOrder L] : Type _ := WithBot (Box L)

/-- Where an edge is. -/
def Box.coord (b : Box L) : Edge → L
  | .left => b.fst.1
  | .top => b.fst.2.1
  | .near => b.fst.2.2
  | .right => b.snd.1
  | .bottom => b.snd.2.1
  | .far => b.snd.2.2

/-- The box with these edges, if they are in order. -/
def Bounds.ofCoords (f : Edge → L) : Bounds L :=
  if h : f .left ≤ f .right ∧ f .top ≤ f .bottom ∧ f .near ≤ f .far then
    ((⟨((f .left, f .top, f .near), (f .right, f .bottom, f .far)), ⟨h.1, h.2.1, h.2.2⟩⟩ : Box L) :
      Bounds L)
  else ⊥

/-- A box contains another if it is as far out everywhere. -/
theorem Box.le_iff {b c : Box L} : b ≤ c ↔ ∀ e : Edge, e.Out (c.coord e) (b.coord e) := by
  rw [NonemptyInterval.le_def]
  constructor
  · rintro ⟨hfst, hsnd⟩ e
    cases e
    · exact hfst.1
    · exact hfst.2.1
    · exact hfst.2.2
    · exact hsnd.1
    · exact hsnd.2.1
    · exact hsnd.2.2
  · intro h
    exact ⟨⟨h .left, h .top, h .near⟩, ⟨h .right, h .bottom, h .far⟩⟩

/-- Coordinates that are as far out as a box are those of a box. -/
theorem Bounds.ofCoords_of_out {f : Edge → L} {b : Box L} (h : ∀ e : Edge, e.Out (f e) (b.coord e)) :
    ∃ c : Box L, Bounds.ofCoords f = c ∧ ∀ e, c.coord e = f e := by
  have hle : f .left ≤ f .right ∧ f .top ≤ f .bottom ∧ f .near ≤ f .far := by
    obtain ⟨hx, hy, hz⟩ := b.fst_le_snd
    exact ⟨(h .left).trans (hx.trans (h .right)), (h .top).trans (hy.trans (h .bottom)),
      (h .near).trans (hz.trans (h .far))⟩
  refine ⟨⟨((f .left, f .top, f .near), (f .right, f .bottom, f .far)),
    ⟨hle.1, hle.2.1, hle.2.2⟩⟩, dif_pos hle, ?_⟩
  intro e
  cases e <;> rfl

/-- Bounds that contain all of the list, and touch one of it at every edge, are its union. -/
theorem eq_sup_of_touches {l : Multiset (Bounds L)} {r : Bounds L} (hle : ∀ b ∈ l, b ≤ r)
    (htouch : ∀ c : Box L, r = c → ∀ e, ∃ d : Box L, (d : Bounds L) ∈ l ∧ d.coord e = c.coord e) :
    r = l.sup := by
  apply le_antisymm
  · induction r using WithBot.recBotCoe with
    | bot => exact bot_le
    | coe c =>
      obtain ⟨d, hd, -⟩ := htouch c rfl .left
      obtain ⟨u, hu, -⟩ := WithBot.coe_le_iff.mp (Multiset.le_sup hd)
      rw [hu, WithBot.coe_le_coe, Box.le_iff]
      intro e
      obtain ⟨d', hd', hcoord⟩ := htouch c rfl e
      have hle' := Multiset.le_sup hd'
      rw [hu, WithBot.coe_le_coe, Box.le_iff] at hle'
      rw [← hcoord]
      exact hle' e
  · exact Multiset.sup_le.mpr hle

end JavaFx.Lib
