/-
Sifting in a binary heap.

The heap is an array of references, the keys are kept elsewhere, so that one reference may
be at several places and its key may be out of order everywhere. A sift only exchanges
places (`siftDown_perm`), and whatever the order is, it either leaves the heap alone or
makes it lighter (`siftDown_eq_or_lighter`): a key weighs the more the nearer it is to the
top, and exchanges take smaller keys up.
-/
import Mathlib.Algebra.BigOperators.Intervals
import Mathlib.Logic.Equiv.Basic
import Mathlib.Tactic.Ring
import Mathlib.Tactic.Linarith

set_option autoImplicit false

namespace JavaFx.Lib

variable {R : Type*}

section Sift

variable (key : R → ℤ) (size : ℕ)

/-- The child of a place with the smaller key. -/
def smallerChild (heap : ℕ → R) (i : ℕ) : ℕ :=
  if 2 * i + 2 < size ∧ key (heap (2 * i + 2)) < key (heap (2 * i + 1)) then 2 * i + 2
  else 2 * i + 1

variable {size} in
theorem lt_smallerChild (heap : ℕ → R) (i : ℕ) : i < smallerChild key size heap i := by
  unfold smallerChild
  split <;> omega

variable {size} in
theorem smallerChild_lt (heap : ℕ → R) {i : ℕ} (hi : i < size / 2) :
    smallerChild key size heap i < size := by
  unfold smallerChild
  split
  · rename_i h
    exact h.1
  · omega

/-- What is at a place is exchanged with a smaller child as long as there is one. -/
def siftDown (heap : ℕ → R) (i : ℕ) : ℕ → R :=
  if i < size / 2 then
    let child := smallerChild key size heap i
    if key (heap i) ≤ key (heap child) then heap
    else siftDown (fun p => heap (Equiv.swap i child p)) child
  else heap
termination_by size - i
decreasing_by
  have : i < smallerChild key size heap i := lt_smallerChild key heap i
  omega

/-- The weight of a heap. -/
def weight (heap : ℕ → R) : ℤ := ∑ p ∈ Finset.range size, ((size : ℤ) - p) * key (heap p)

end Sift

section Perm

variable {key : R → ℤ} {size : ℕ} {heap : ℕ → R} {i j : ℕ}

/-- A permutation of the places of the heap. -/
def Within (size : ℕ) (σ : Equiv.Perm ℕ) : Prop := ∀ p, size ≤ p → σ p = p

theorem Within.lt {σ : Equiv.Perm ℕ} (h : Within size σ) {p : ℕ} (hp : p < size) : σ p < size := by
  by_contra hge
  have hfix : σ p = p := σ.injective (h (σ p) (not_lt.mp hge))
  rw [hfix] at hge
  exact hge hp

theorem within_swap (hi : i < size) (hj : j < size) : Within size (Equiv.swap i j) := by
  intro p hp
  exact Equiv.swap_apply_of_ne_of_ne (by omega) (by omega)

/-- Sums over the heap do not change. -/
theorem Within.sum_comp {σ : Equiv.Perm ℕ} (h : Within size σ) {M : Type*} [AddCommMonoid M]
    (g : ℕ → M) : ∑ p ∈ Finset.range size, g (σ p) = ∑ p ∈ Finset.range size, g p := by
  apply Finset.sum_equiv σ
  · intro p
    rw [Finset.mem_range, Finset.mem_range]
    constructor
    · exact h.lt
    · intro hp
      by_contra hge
      rw [h p (not_lt.mp hge)] at hp
      exact hge hp
  · exact fun _ _ => rfl

theorem siftDown_perm (key : R → ℤ) (size : ℕ) (heap : ℕ → R) (i : ℕ) :
    ∃ σ, Within size σ ∧ ∀ p, siftDown key size heap i p = heap (σ p) := by
  induction heap, i using siftDown.induct key size with
  | case1 heap i hi child hle =>
    rw [siftDown, if_pos hi, if_pos hle]
    exact ⟨Equiv.refl ℕ, fun _ _ => rfl, fun _ => rfl⟩
  | case2 heap i hi child hlt ih =>
    rw [siftDown, if_pos hi, if_neg hlt]
    obtain ⟨σ, hσ, heq⟩ := ih
    have hswap : Within size (Equiv.swap i child) :=
      within_swap (by omega) (smallerChild_lt key heap hi)
    refine ⟨σ.trans (Equiv.swap i child), ?_, heq⟩
    intro p hp
    rw [Equiv.trans_apply, hσ p hp, hswap p hp]
  | case3 heap i hi =>
    rw [siftDown, if_neg hi]
    exact ⟨Equiv.refl ℕ, fun _ _ => rfl, fun _ => rfl⟩

/-- The smaller key goes up. -/
theorem weight_swap_lt (hij : i < j) (hj : j < size) (hkey : key (heap j) < key (heap i)) :
    weight key size (fun p => heap (Equiv.swap i j p)) < weight key size heap := by
  have hmem : i ∈ Finset.range size := Finset.mem_range.mpr (by omega)
  have hmem' : j ∈ (Finset.range size).erase i :=
    Finset.mem_erase.mpr ⟨by omega, Finset.mem_range.mpr hj⟩
  unfold weight
  rw [← Finset.add_sum_erase _ _ hmem, ← Finset.add_sum_erase _ _ hmem',
    ← Finset.add_sum_erase (Finset.range size) _ hmem, ← Finset.add_sum_erase _ _ hmem']
  have hrest : ∑ p ∈ ((Finset.range size).erase i).erase j,
        ((size : ℤ) - p) * key (heap (Equiv.swap i j p))
      = ∑ p ∈ ((Finset.range size).erase i).erase j, ((size : ℤ) - p) * key (heap p) := by
    apply Finset.sum_congr rfl
    intro p hp
    obtain ⟨hpj, hp⟩ := Finset.mem_erase.mp hp
    rw [Equiv.swap_apply_of_ne_of_ne (Finset.mem_erase.mp hp).1 hpj]
  rw [hrest]
  dsimp only
  rw [Equiv.swap_apply_left, Equiv.swap_apply_right]
  have hij' : (i : ℤ) < j := Int.ofNat_lt.mpr hij
  nlinarith [mul_pos (sub_pos.mpr hij') (sub_pos.mpr hkey)]

/-- A sift changes nothing, or makes the heap lighter. -/
theorem siftDown_eq_or_lighter (key : R → ℤ) (size : ℕ) (heap : ℕ → R) (i : ℕ) :
    siftDown key size heap i = heap ∨ weight key size (siftDown key size heap i) < weight key size heap := by
  induction heap, i using siftDown.induct key size with
  | case1 heap i hi child hle =>
    rw [siftDown, if_pos hi, if_pos hle]
    exact Or.inl rfl
  | case2 heap i hi child hlt ih =>
    rw [siftDown, if_pos hi, if_neg hlt]
    have hswap := weight_swap_lt (lt_smallerChild key heap i)
      (smallerChild_lt key heap hi) (not_le.mp hlt)
    right
    rcases ih with heq | hlighter
    · rw [heq]
      exact hswap
    · exact hlighter.trans hswap
  | case3 heap i hi =>
    rw [siftDown, if_neg hi]
    exact Or.inl rfl

end Perm

/-! ## The order of the heap -/

section Ordered

variable {key : R → ℤ} {size : ℕ} {heap : ℕ → R} {lo i p c : ℕ}

/-- `c` is a child of `p`. -/
def IsChild (p c : ℕ) : Prop := c = 2 * p + 1 ∨ c = 2 * p + 2

/-- From `lo` on no place has a child with a smaller key. -/
def Ordered (key : R → ℤ) (size : ℕ) (heap : ℕ → R) (lo : ℕ) : Prop :=
  ∀ p c, lo ≤ p → IsChild p c → c < size → key (heap p) ≤ key (heap c)

/-- The order but for the place `i`, whose children are below what is above it. -/
structure Sifting (key : R → ℤ) (size : ℕ) (heap : ℕ → R) (lo i : ℕ) : Prop where
  order : ∀ p c, lo ≤ p → p ≠ i → IsChild p c → c < size → key (heap p) ≤ key (heap c)
  across : ∀ p c, lo ≤ p → IsChild p i → IsChild i c → c < size → key (heap p) ≤ key (heap c)

/-- The lower half has no children. -/
theorem ordered_half : Ordered key size heap (size / 2) := by
  rintro p c hp (rfl | rfl) hc <;> omega

theorem Ordered.sifting (h : Ordered key size heap (i + 1)) : Sifting key size heap i i := by
  refine ⟨fun p c hp hne hc hlt => h p c (by omega) hc hlt, ?_⟩
  rintro p c hp (hi | hi) <;> omega

theorem smallerChild_le (hc : IsChild i c) (hlt : c < size) :
    key (heap (smallerChild key size heap i)) ≤ key (heap c) := by
  unfold smallerChild
  split
  · rename_i h
    rcases hc with rfl | rfl
    · exact le_of_lt h.2
    · exact le_refl _
  · rename_i h
    rcases hc with rfl | rfl
    · exact le_refl _
    · by_contra hgt
      exact h ⟨hlt, not_le.mp hgt⟩

theorem isChild_smallerChild : IsChild i (smallerChild key size heap i) := by
  unfold smallerChild
  split
  · exact Or.inr rfl
  · exact Or.inl rfl

/-- The child that goes up is in order; what goes down is being sifted. -/
theorem Sifting.swap (h : Sifting key size heap lo i) (hlo : lo ≤ i) (hi : i < size / 2)
    (hlt : key (heap (smallerChild key size heap i)) < key (heap i)) :
    Sifting key size (fun p => heap (Equiv.swap i (smallerChild key size heap i) p)) lo
      (smallerChild key size heap i) := by
  have hchild : IsChild i (smallerChild key size heap i) := isChild_smallerChild
  have hbelow : ∀ c, IsChild i c → c < size →
      key (heap (smallerChild key size heap i)) ≤ key (heap c) := fun c => smallerChild_le
  have hchildLt := smallerChild_lt key heap hi
  generalize smallerChild key size heap i = child at *
  have hne : child ≠ i := by
    rcases hchild with rfl | rfl <;> omega
  -- places that are no part of the exchange
  have hfix : ∀ p, p ≠ i → p ≠ child → Equiv.swap i child p = p :=
    fun p => Equiv.swap_apply_of_ne_of_ne
  refine ⟨?_, ?_⟩
  · intro p c hp hpc hc hcs
    by_cases hpi : p = i
    · subst hpi
      rw [Equiv.swap_apply_left]
      by_cases hcc : c = child
      · rw [hcc, Equiv.swap_apply_right]
        exact le_of_lt hlt
      · rw [hfix c (by rcases hc with rfl | rfl <;> omega) hcc]
        exact hbelow c hc hcs
    · rw [hfix p hpi hpc]
      by_cases hci : c = i
      · subst hci
        rw [Equiv.swap_apply_left]
        exact h.across p child hp hc hchild hchildLt
      · rw [hfix c hci (by rcases hc with rfl | rfl <;> rcases hchild with rfl | rfl <;> omega)]
        exact h.order p c hp hpi hc hcs
  · intro p c hp hpc hc hcs
    have hpi : p = i := by
      rcases hpc with hpc | hpc <;> rcases hchild with hchild | hchild <;> omega
    subst hpi
    have hchild' : p < child := by rcases hchild with rfl | rfl <;> omega
    have hc' : child < c := by rcases hc with rfl | rfl <;> omega
    rw [Equiv.swap_apply_left, hfix c (by omega) (by omega)]
    exact h.order child c (by rcases hchild with rfl | rfl <;> omega) hne hc hcs

/-- **A sift restores the order.** -/
theorem Sifting.siftDown_ordered (h : Sifting key size heap lo i) (hlo : lo ≤ i) :
    Ordered key size (siftDown key size heap i) lo := by
  induction heap, i using siftDown.induct key size with
  | case1 heap i hi child hle =>
    rw [siftDown, if_pos hi, if_pos hle]
    intro p c hp hc hlt
    by_cases hpi : p = i
    · subst hpi
      exact hle.trans (smallerChild_le hc hlt)
    · exact h.order p c hp hpi hc hlt
  | case2 heap i hi child hlt ih =>
    rw [siftDown, if_pos hi, if_neg hlt]
    exact ih (h.swap hlo hi (not_le.mp hlt))
      (hlo.trans (le_of_lt (lt_smallerChild key heap i)))
  | case3 heap i hi =>
    rw [siftDown, if_neg hi]
    intro p c hp hc hlt
    refine h.order p c hp ?_ hc hlt
    rintro rfl
    rcases hc with rfl | rfl <;> omega

/-- The top of an ordered heap is the least. -/
theorem Ordered.top_le (h : Ordered key size heap 0) (hp : p < size) :
    key (heap 0) ≤ key (heap p) := by
  induction p using Nat.strong_induction_on with
  | _ p ih =>
    rcases Nat.eq_zero_or_pos p with rfl | hpos
    · exact le_refl _
    · have hparent : IsChild ((p - 1) / 2) p := by
        unfold IsChild
        omega
      exact (ih ((p - 1) / 2) (by omega) (by omega)).trans
        (h _ p (Nat.zero_le _) hparent hp)

/-- What is least stays where it is. -/
theorem siftDown_of_least (h : ∀ p < size, key (heap i) ≤ key (heap p)) :
    siftDown key size heap i = heap := by
  rw [siftDown]
  split
  · rename_i hi
    exact if_pos (h _ (smallerChild_lt key heap hi))
  · rfl

end Ordered

end JavaFx.Lib
