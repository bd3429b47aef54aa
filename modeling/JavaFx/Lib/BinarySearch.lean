/-
`java.util.Arrays.binarySearch`.

The search compares elements with a key; here the comparison with the key is one
function `cmp`, whose sign says on which side of the key an element belongs. The
result is the index of an element that compares equal, or `~i` for the index `i`
at which the key would go. `place` is that index in both cases.

Whatever the array holds, the place is within the range that is searched
(`binarySearch.loop_bounds`). When the range is ordered by `cmp`, no element in front of
the place is above the key and none behind it below (`binarySearch.loop_splits`).
-/
import JavaFx.Lib.Java

set_option autoImplicit false

namespace JavaFx.Lib

variable {α : Type} {cmp : α → ℤ} {a : List α} {lo hi fuel : ℕ} {r : ℤ}

/-- The loop, on the indices from `lo` up to `hi`, which is one above `high`. A round
takes at least one index off the range. -/
def binarySearch.loop (cmp : α → ℤ) (a : List α) : (fuel lo hi : ℕ) → ℤ
  | 0, lo, _ => compl lo
  | fuel + 1, lo, hi =>
    if lo < hi then
      let mid := (lo + (hi - 1)) / 2
      match a[mid]? with
      | some midVal =>
        if cmp midVal < 0 then binarySearch.loop cmp a fuel (mid + 1) hi
        else if 0 < cmp midVal then binarySearch.loop cmp a fuel lo mid
        else mid
      | none => compl lo
    else compl lo

/-- `Arrays.binarySearch(a, fromIndex, toIndex, key)`. -/
def binarySearch (cmp : α → ℤ) (a : List α) (fromIndex toIndex : ℤ) : Except Exn ℤ :=
  if toIndex < fromIndex then .error .illegalArgument
  else if fromIndex < 0 ∨ (a.length : ℤ) < toIndex then .error .indexOutOfBounds
  else .ok (binarySearch.loop cmp a (toIndex - fromIndex).toNat fromIndex.toNat toIndex.toNat)

/-- The index found, or the one at which the key would go. -/
def place (r : ℤ) : ℤ := if r < 0 then compl r else r

theorem place_compl (n : ℕ) : place (compl n) = n := by
  have hneg : compl (n : ℤ) < 0 := (compl_neg_iff _).mpr (by omega)
  rw [place, if_pos hneg, compl_compl]

theorem place_natCast (n : ℕ) : place (n : ℤ) = n := by
  rw [place, if_neg (by omega)]

theorem binarySearch_eq {fromIndex toIndex : ℕ} (hfrom : fromIndex ≤ toIndex)
    (hto : toIndex ≤ a.length) :
    binarySearch cmp a fromIndex toIndex
      = .ok (binarySearch.loop cmp a (toIndex - fromIndex) fromIndex toIndex) := by
  rw [binarySearch, if_neg (by omega), if_neg (by omega), Int.toNat_natCast, Int.toNat_natCast]
  congr 2
  omega

/-- What is found compares equal to the key, and the place is within the range. -/
theorem binarySearch.loop_bounds (hlo : lo ≤ hi) (hhi : hi ≤ a.length) :
    ∃ p : ℕ, place (loop cmp a fuel lo hi) = p ∧ lo ≤ p ∧ p ≤ hi
      ∧ (0 ≤ loop cmp a fuel lo hi →
          loop cmp a fuel lo hi = p ∧ p < hi ∧ ∃ x, a[p]? = some x ∧ cmp x = 0) := by
  have hmissing : ∀ n : ℕ, ¬ 0 ≤ compl (n : ℤ) := fun n => by
    rw [compl]
    omega
  induction fuel generalizing lo hi with
  | zero => exact ⟨lo, place_compl lo, le_refl _, hlo, fun h => absurd h (hmissing lo)⟩
  | succ fuel ih =>
    rw [loop]
    by_cases hlt : lo < hi
    · have hmid : (lo + (hi - 1)) / 2 < a.length := by omega
      rw [if_pos hlt]
      simp only [List.getElem?_eq_getElem hmid]
      split_ifs with hless hgreater
      · obtain ⟨p, hp, h1, h2, h3⟩ := @ih ((lo + (hi - 1)) / 2 + 1) hi (by omega) hhi
        exact ⟨p, hp, by omega, h2, h3⟩
      · obtain ⟨p, hp, h1, h2, h3⟩ := @ih lo ((lo + (hi - 1)) / 2) (by omega) (by omega)
        refine ⟨p, hp, h1, by omega, fun h => ?_⟩
        obtain ⟨heq, hp', hx⟩ := h3 h
        exact ⟨heq, by omega, hx⟩
      · refine ⟨(lo + (hi - 1)) / 2, place_natCast _, by omega, by omega, fun _ => ?_⟩
        refine ⟨rfl, by omega, _, List.getElem?_eq_getElem hmid, ?_⟩
        omega
    · rw [if_neg hlt]
      exact ⟨lo, place_compl lo, le_refl _, hlo, fun h => absurd h (hmissing lo)⟩

/-- The elements from `lo` up to `hi` are ordered: below the key, equal to it, above it. -/
structure OrderedBy (cmp : α → ℤ) (a : List α) (lo hi : ℕ) : Prop where
  below : ∀ i j x y, lo ≤ i → i ≤ j → j < hi → a[i]? = some x → a[j]? = some y →
    cmp y < 0 → cmp x < 0
  above : ∀ i j x y, lo ≤ i → i ≤ j → j < hi → a[i]? = some x → a[j]? = some y →
    0 < cmp x → 0 < cmp y

/-- Around `p` the elements are on their sides of the key. -/
structure Splits (cmp : α → ℤ) (a : List α) (lo hi p : ℕ) : Prop where
  left : ∀ i x, lo ≤ i → i < p → a[i]? = some x → cmp x ≤ 0
  right : ∀ i x, p ≤ i → i < hi → a[i]? = some x → 0 ≤ cmp x

/-- Where the range has shrunk to nothing, the key is not in the array. -/
theorem splits_compl {lo₀ hi₀ : ℕ}
    (hleft : ∀ i x, lo₀ ≤ i → i < lo → a[i]? = some x → cmp x < 0)
    (hright : ∀ i x, lo ≤ i → i < hi₀ → a[i]? = some x → 0 < cmp x) :
    ∃ p : ℕ, place (compl lo) = p ∧ Splits cmp a lo₀ hi₀ p
      ∧ (compl lo < 0 → ∀ i x, lo₀ ≤ i → i < hi₀ → a[i]? = some x → cmp x ≠ 0) := by
  refine ⟨lo, place_compl lo, ⟨fun i x h1 h2 hx => (hleft i x h1 h2 hx).le,
    fun i x h1 h2 hx => (hright i x h1 h2 hx).le⟩, fun _ i x h1 h2 hx => ?_⟩
  rcases Nat.lt_or_ge i lo with hi | hi
  · exact (hleft i x h1 hi hx).ne
  · exact (hright i x hi h2 hx).ne'

/-- The search splits an ordered range, and finds the key if it is there. -/
theorem binarySearch.loop_splits {lo₀ hi₀ : ℕ} (hordered : OrderedBy cmp a lo₀ hi₀)
    (hlo₀ : lo₀ ≤ lo) (hlo : lo ≤ hi) (hhi : hi ≤ hi₀) (hlen : hi₀ ≤ a.length)
    (hfuel : hi - lo ≤ fuel)
    (hleft : ∀ i x, lo₀ ≤ i → i < lo → a[i]? = some x → cmp x < 0)
    (hright : ∀ i x, hi ≤ i → i < hi₀ → a[i]? = some x → 0 < cmp x) :
    ∃ p : ℕ, place (loop cmp a fuel lo hi) = p ∧ Splits cmp a lo₀ hi₀ p
      ∧ (loop cmp a fuel lo hi < 0 → ∀ i x, lo₀ ≤ i → i < hi₀ → a[i]? = some x → cmp x ≠ 0) := by
  induction fuel generalizing lo hi with
  | zero =>
    obtain rfl : lo = hi := by omega
    exact splits_compl hleft hright
  | succ fuel ih =>
    rw [loop]
    by_cases hlt : lo < hi
    · have hmid : (lo + (hi - 1)) / 2 < a.length := by omega
      have hget := List.getElem?_eq_getElem hmid
      rw [if_pos hlt]
      simp only [hget]
      split_ifs with hless hgreater
      · exact ih (by omega) (by omega) hhi (by omega)
          (fun i x h1 h2 hx => hordered.below i _ x _ h1 (by omega) (by omega) hx hget hless)
          hright
      · exact ih hlo₀ (by omega) (by omega) (by omega) hleft
          (fun i x h1 h2 hx => hordered.above _ i _ x (by omega) h1 h2 hget hx hgreater)
      · -- the key is found at the middle
        refine ⟨(lo + (hi - 1)) / 2, place_natCast _, ⟨fun i x h1 h2 hx => ?_,
          fun i x h1 h2 hx => ?_⟩, fun h => by omega⟩
        · exact not_lt.mp (fun hpos =>
            hgreater (hordered.above i _ x _ h1 h2.le (by omega) hx hget hpos))
        · exact not_lt.mp (fun hneg =>
            hless (hordered.below _ i _ x (by omega) h1 h2 hget hx hneg))
    · obtain rfl : lo = hi := by omega
      rw [if_neg hlt]
      exact splits_compl hleft hright

end JavaFx.Lib
