/-
`com.sun.javafx.collections.SortHelper`: the merge sort of the JDK that records
where every element went.

While a sort is running, `permutation[k]` is the position of the element that was
at `k`, and `reversePermutation` is its inverse. Every exchange and every merge
writes both. The bounds of `mergeSort` are those of `dest`; the range of `src` is
`off` further, and the two change places with every level of the recursion. The
arrays of the permutation are as long as the array that is sorted and are indexed
by the bounds of whatever `dest` is at that level.

That goes well as long as the bounds are the same at every level, so for a sort
from index 0 and for a range too short to recurse.
-/
import JavaFx.Lib.StableSort
import JavaFx.Lib.Permute
import Mathlib.Data.List.Induction

set_option autoImplicit false

namespace JavaFx.Collections

open JavaFx.Lib

variable {T : Type}

/-- The fields of the helper, while a sort is running. -/
structure SortHelper where
  permutation : List ℕ
  reversePermutation : List ℕ
  deriving DecidableEq, Repr

namespace SortHelper

def INSERTIONSORT_THRESHOLD : ℕ := 7

/-- `initPermutation`. -/
def initPermutation (length : ℕ) : SortHelper := ⟨List.range length, List.range length⟩

/-- `swap`. -/
def swap (x : List T) (a b : ℕ) (h : SortHelper) : Except Exn (List T × SortHelper) := do
  let t ← aget x a
  let u ← aget x b
  let x ← aset x a u
  let x ← aset x b t
  let ra ← aget h.reversePermutation a
  let permutation ← aset h.permutation ra b
  let rb ← aget h.reversePermutation b
  let permutation ← aset permutation rb a
  let reversePermutation ← aset h.reversePermutation a rb
  let reversePermutation ← aset reversePermutation b ra
  return (x, ⟨permutation, reversePermutation⟩)

section Sorting

variable (compare : T → T → ℤ)

/-- The inner loop of the insertion sort:
`for (int j = i; j > low && c.compare(dest[j-1], dest[j]) > 0; j--) swap(dest, j, j-1)`. -/
def sink (low : ℕ) : ℕ → List T → SortHelper → Except Exn (List T × SortHelper)
  | 0, dest, h => .ok (dest, h)
  | j + 1, dest, h =>
    if low < j + 1 then do
      let x ← aget dest j
      let y ← aget dest (j + 1 : ℕ)
      if 0 < compare x y then do
        let r ← swap dest (j + 1) j h
        sink low j r.1 r.2
      else return (dest, h)
    else .ok (dest, h)

/-- The insertion sort on `[low, high)`. -/
def insertionSort (low high : ℕ) (dest : List T) (h : SortHelper) :
    Except Exn (List T × SortHelper) :=
  run (fun s i => sink compare low i s.1 s.2) (dest, h) (List.range' low (high - low))

/-- The condition under which the merge takes the next element from the left run. -/
def takesLeft (src : List T) (mid high p q : ℕ) : Except Exn Bool :=
  if high ≤ q then .ok true
  else if p < mid then do
    let x ← aget src p
    let y ← aget src q
    return decide (compare x y ≤ 0)
  else .ok false

/-- The merge loop, with `n` elements left to be written from `i` on. -/
def mergeLoop (src : List T) (mid high : ℕ) : (n i p q : ℕ) → List T → SortHelper →
    Except Exn (List T × SortHelper)
  | 0, _, _, _, dest, h => .ok (dest, h)
  | n + 1, i, p, q, dest, h => do
      let left ← takesLeft compare src mid high p q
      let k := if left then p else q
      let x ← aget src k
      let dest ← aset dest i x
      let r ← aget h.reversePermutation k
      let permutation ← aset h.permutation r i
      let h := { h with permutation := permutation }
      if left then mergeLoop src mid high n (i + 1) (p + 1) q dest h
      else mergeLoop src mid high n (i + 1) p (q + 1) dest h

/-- The loop after the merge, which makes `reversePermutation` the inverse again. -/
def reindex (destLow destHigh : ℕ) (h : SortHelper) : Except Exn SortHelper :=
  run (fun (h : SortHelper) (i : ℕ) => do
      let p ← aget h.permutation i
      let reversePermutation ← aset h.reversePermutation p i
      return { h with reversePermutation := reversePermutation })
    h (List.range' destLow (destHigh - destLow))

/-- `mergeSort`: sorts `[low, high)` of `dest`, whose contents are also in `src`,
`off` further. The result is `src`, `dest` and the helper afterwards. -/
def mergeSort (src dest : List T) (destLow destHigh : ℕ) (off : ℤ) (h : SortHelper) :
    Except Exn (List T × List T × SortHelper) :=
  if destHigh - destLow < INSERTIONSORT_THRESHOLD then do
    -- Insertion sort on smallest arrays
    let r ← insertionSort compare destLow destHigh dest h
    return (src, r.1, r.2)
  else do
    let low := (destLow + off).toNat
    let high := (destHigh + off).toNat
    let mid := (low + high) / 2
    -- Recursively sort halves of dest into src
    let r ← mergeSort dest src low mid (-off) h
    let r ← mergeSort r.1 r.2.1 mid high (-off) r.2.2
    let x ← aget r.2.1 (mid - 1 : ℤ)
    let y ← aget r.2.1 mid
    if compare x y ≤ 0 then do
      -- If list is already sorted, just copy from src to dest.
      let dest ← arraycopy r.2.1 low r.1 destLow (destHigh - destLow)
      return (r.2.1, dest, r.2.2)
    else do
      -- Merge sorted halves (now in src) into dest
      let m ← mergeLoop compare r.2.1 mid high (destHigh - destLow) destLow low mid r.1 r.2.2
      let h ← reindex destLow destHigh m.2
      return (r.2.1, m.1, h)
termination_by destHigh - destLow
decreasing_by all_goals (simp only [INSERTIONSORT_THRESHOLD] at *; omega)

/-- `sort(T[] a, int fromIndex, int toIndex, Comparator c)`: the array afterwards and
the positions to which the elements of the range went. -/
def sort (a : List T) (fromIndex toIndex : ℕ) : Except Exn (List T × List ℕ) :=
  if toIndex < fromIndex then .error .illegalArgument
  else if a.length < toIndex then .error .indexOutOfBounds
  else do
    let aux := (a.drop fromIndex).take (toIndex - fromIndex)
    let r ← mergeSort compare aux a fromIndex toIndex (-fromIndex) (initPermutation a.length)
    return (r.2.1, (r.2.2.permutation.drop fromIndex).take (toIndex - fromIndex))

end Sorting

/-- `Integer.compareTo`. -/
def compareTo (a b : ℤ) : ℤ := if a < b then -1 else if a = b then 0 else 1

/-- `sort(int[] a, int fromIndex, int toIndex)`. -/
def sortInts (a : List ℤ) (fromIndex toIndex : ℕ) : Except Exn (List ℤ × List ℕ) :=
  sort compareTo a fromIndex toIndex

end SortHelper

end JavaFx.Collections
