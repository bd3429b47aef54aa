/-
`javafx.collections.transformation.SortedList`: a sorted view of a source list.

`sorted[i]` is the element at `i` of the view with its index in the source, and
`perm` is the way back: `perm[k]` is where the source's element `k` stands in the
view. With a comparator the two are kept while changes of the source come in; without
one the view is the source, and the arrays are kept for the next comparator.

`sorted` and `perm` below are what the arrays hold in front of `size`; `arrayLength`
is how long the arrays are. The `next*` calls a change makes are collected in `calls`.
An exception leaves the object as it is at that moment, and the lists of listeners
catch what a listener throws, so an error comes with the object that is left.
-/
import JavaFx.Collections.ListChange
import JavaFx.Collections.SortHelper
import JavaFx.Lib.BinarySearch

set_option autoImplicit false

namespace JavaFx.Collections

open JavaFx.Lib JavaFx.ListChange

variable {E : Type}

/-- `SortedList.Element`. -/
structure Element (E : Type) where
  e : E
  index : ℤ
  deriving DecidableEq, Repr

/-- The elements of a source list from the index `n` on, each with its index. -/
def elements (l : List E) (n : ℕ) : List (Element E) :=
  (l.zipIdx n).map (fun p => ⟨p.1, (p.2 : ℕ)⟩)

/-- The `int`s `n, n + 1, …`, `k` of them. -/
def indices (n k : ℕ) : List ℤ := (List.range' n k).map (fun (i : ℕ) => (i : ℤ))

/-- What a list tells its `ListChangeBuilder` in the course of a change. -/
inductive Call (E : Type)
  | nextAdd (fromIdx toIdx : ℤ)
  | nextRemove (idx : ℤ) (removed : E)
  | nextRemoveAll (idx : ℤ) (removed : List E)
  | nextPermutation (fromIdx toIdx : ℤ) (perm : List ℕ)
  | nextUpdate (pos : ℤ)
  deriving DecidableEq, Repr

structure SortedList (E : Type) where
  /-- The comparator, `none` for an unsorted list. -/
  elementComparator : Option (E → E → ℤ)
  sorted : List (Element E)
  perm : List ℤ
  /-- `sorted.length`, which is `perm.length` as well. -/
  arrayLength : ℕ
  calls : List (Call E)

/-- `System.arraycopy(a, i, a, i + 1, size - i); a[i] = x`, in arrays of the given length. -/
def insertAt {α : Type} (arrayLength : ℕ) (a : List α) (i : ℤ) (x : α) : Except Exn (List α) :=
  if 0 ≤ i ∧ i ≤ a.length ∧ a.length + 1 ≤ arrayLength then .ok (a.insertIdx i.toNat x)
  else .error .indexOutOfBounds

/-- `System.arraycopy(a, i + 1, a, i, size - i - 1)`. -/
def eraseAt {α : Type} (a : List α) (i : ℤ) : Except Exn (List α) :=
  if 0 ≤ i ∧ i < a.length then .ok (a.eraseIdx i.toNat) else .error .indexOutOfBounds

/-- `Change.getPermutation(int)`. -/
def getPermutation (c : SubChange E) (i : ℤ) : Except Exn ℤ :=
  if c.wasPermutated then do
    let p ← aget c.permutation (i - c.fromIdx)
    return (p : ℤ)
  else .error .illegalState

/-- `ElementComparator.compare`. -/
def elementCompare (compare : E → E → ℤ) (o1 o2 : Element E) : ℤ := compare o1.e o2.e

namespace SortedList

/-- A method of the list: the object it leaves, also when it throws. -/
abbrev Throwing (E α : Type) := Except (Exn × SortedList E) α

/-- An operation that throws leaves the object as it is. -/
def throwing {α : Type} (s : SortedList E) (x : Except Exn α) : Throwing E α :=
  match x with
  | .ok a => .ok a
  | .error e => .error (e, s)

variable (s : SortedList E)

def size : ℕ := s.sorted.length

/-- The list as its users see it, `get(0), get(1), …`. -/
def view : List E := s.sorted.map Element.e

def call (c : Call E) : SortedList E := { s with calls := s.calls ++ [c] }

def ensureSize (size : ℕ) : SortedList E :=
  if s.arrayLength < size then { s with arrayLength := size * 3 / 2 + 1 } else s

def updateIndices (fromIdx viewFrom difference : ℤ) : SortedList E :=
  { s with
    sorted := s.sorted.map (fun x =>
      if fromIdx ≤ x.index then { x with index := x.index + difference } else x)
    perm := s.perm.map (fun p => if viewFrom ≤ p then p + difference else p) }

/-- `this.perm[sorted[i].index] = i`, for all `i`. -/
def reversePerm : Throwing E (SortedList E) :=
  run (fun (s : SortedList E) (i : ℕ) => do
      let x ← s.throwing (aget s.sorted i)
      let perm ← s.throwing (aset s.perm x.index i)
      return { s with perm := perm })
    s (List.range s.size)

/-! ## Changes of the source, with a comparator -/

section Sorted

variable (compare : E → E → ℤ)

def findPosition (e : E) : Except Exn ℤ :=
  if s.arrayLength = 0 then .ok 0
  else binarySearch (fun x => elementCompare compare x ⟨e, -1⟩) s.sorted 0 s.size

def insertToMapping (e : E) (idx : ℤ) : Throwing E (SortedList E) := do
  let pos ← s.throwing (s.findPosition compare e)
  let pos := if pos < 0 then compl pos else pos
  let s := s.ensureSize (s.size + 1)
  let s := s.updateIndices idx pos 1
  let sorted ← s.throwing (insertAt s.arrayLength s.sorted pos ⟨e, idx⟩)
  let perm ← s.throwing (insertAt s.arrayLength s.perm idx pos)
  return { s with sorted := sorted, perm := perm }.call (.nextAdd pos (pos + 1))

def setAllToMapping (list : List E) (toIdx : ℕ) : Throwing E (SortedList E) :=
  let s := s.ensureSize toIdx
  if list.length < toIdx then .error (.indexOutOfBounds, s)
  else do
    let s := { s with sorted := elements (list.take toIdx) 0 }
    let r ← s.throwing (SortHelper.sort (elementCompare compare) s.sorted 0 s.size)
    let s := { s with sorted := r.1, perm := r.2.map (fun (p : ℕ) => (p : ℤ)) }
    return s.call (.nextAdd 0 s.size)

def removeFromMapping (idx : ℤ) (e : E) : Throwing E (SortedList E) := do
  let pos ← s.throwing (aget s.perm idx)
  let sorted ← s.throwing (eraseAt s.sorted pos)
  let perm ← s.throwing (eraseAt s.perm idx)
  let s := { s with sorted := sorted, perm := perm }
  return (s.updateIndices (idx + 1) pos (-1)).call (.nextRemove pos e)

def removeAllFromMapping : SortedList E :=
  { s with sorted := [], perm := [] }.call (.nextRemoveAll 0 s.view)

/-- `update`: everything is sorted again. -/
def update (c : SubChange E) : Throwing E (SortedList E) := do
  let r ← s.throwing (SortHelper.sort (elementCompare compare) s.sorted 0 s.size)
  let s ← { s with sorted := r.1 }.reversePerm
  let s := s.call (.nextPermutation 0 s.size r.2)
  run (fun (s : SortedList E) (i : ℕ) => do
      let p ← s.throwing (aget s.perm i)
      return s.call (.nextUpdate p))
    s (List.range' c.fromIdx (c.toIdx - c.fromIdx))

/-- The removals of `addRemove`. -/
def removeChanged (c : SubChange E) : Throwing E (SortedList E) :=
  if c.fromIdx = 0 ∧ c.removedSize = s.size then .ok s.removeAllFromMapping
  else run (fun (s : SortedList E) e => s.removeFromMapping c.fromIdx e) s c.removed

/-- `addRemove`; `list` is the source after all its changes. -/
def addRemove (list : List E) (c : SubChange E) : Throwing E (SortedList E) := do
  let s ← s.removeChanged c
  if s.size = 0 then s.setAllToMapping compare list c.toIdx
  else
    run (fun (s : SortedList E) (i : ℕ) => do
        let e ← s.throwing (aget list i)
        s.insertToMapping compare e i)
      s (List.range' c.fromIdx (c.toIdx - c.fromIdx))

/-- The body of the loop of `updatePermutationIndexes`. -/
def updatePermutationIndex (c : SubChange E) (i : ℕ) : Throwing E (SortedList E) := do
  let x ← s.throwing (aget s.sorted i)
  let p ← s.throwing (getPermutation c x.index)
  let sorted ← s.throwing (aset s.sorted i { x with index := p })
  let s := { s with sorted := sorted }
  let perm ← s.throwing (aset s.perm p i)
  return { s with perm := perm }

def updatePermutationIndexes (c : SubChange E) : Throwing E (SortedList E) :=
  run (fun (s : SortedList E) i => s.updatePermutationIndex c i) s (List.range s.size)

/-- The body of the loop of `sourceChanged`. -/
def nextChange (list : List E) (c : SubChange E) : Throwing E (SortedList E) :=
  if c.wasPermutated then s.updatePermutationIndexes c
  else if c.wasUpdated then s.update compare c
  else s.addRemove compare list c

end Sorted

/-! ## Changes of the source, without a comparator -/

/-- The body of the loop of `updateUnsorted` over a permutation, with `sortedTmp`. -/
def permuteUnsortedAt (c : SubChange E) (r : List (Option (Element E)) × SortedList E) (i : ℕ) :
    Throwing E (List (Option (Element E)) × SortedList E) := do
  let s := r.2
  let x ← s.throwing (aget s.sorted i)
  if c.fromIdx ≤ i ∧ i < c.toIdx then do
    let p ← s.throwing (getPermutation c i)
    let sortedTmp ← s.throwing (aset r.1 p (some { x with index := p }))
    let perm ← s.throwing (aset s.perm i i)
    return (sortedTmp, { s with perm := perm })
  else do
    let sortedTmp ← s.throwing (aset r.1 i (some x))
    return (sortedTmp, s)

/-- `updateUnsorted`, a permutation. No slot of a permuted range stays `null`. -/
def permuteUnsorted (c : SubChange E) : Throwing E (SortedList E) := do
  let r ← run (permuteUnsortedAt c) (List.replicate s.size none, s) (List.range s.size)
  return { r.2 with sorted := r.1.reduceOption }

/-- `updateUnsorted`, a removal. -/
def removeUnsorted (c : SubChange E) : Throwing E (SortedList E) :=
  let removedTo := c.fromIdx + c.removedSize
  if s.size < removedTo then .error (.indexOutOfBounds, s)
  else
    let s := { s with
      sorted := s.sorted.take c.fromIdx ++ s.sorted.drop removedTo
      perm := s.perm.take c.fromIdx ++ s.perm.drop removedTo }
    .ok (s.updateIndices removedTo removedTo (-c.removedSize))

/-- `updateUnsorted`, an addition. -/
def addUnsorted (list : List E) (c : SubChange E) : Throwing E (SortedList E) :=
  let s := s.ensureSize (s.size + c.addedSize)
  let s := s.updateIndices c.fromIdx c.fromIdx c.addedSize
  if s.size < c.fromIdx ∨ list.length < c.toIdx then .error (.indexOutOfBounds, s)
  else
    let added := (list.take c.toIdx).drop c.fromIdx
    .ok { s with
      sorted := s.sorted.take c.fromIdx ++ (elements added c.fromIdx ++ s.sorted.drop c.fromIdx)
      perm := s.perm.take c.fromIdx
        ++ (indices c.fromIdx added.length ++ s.perm.drop c.fromIdx) }

/-- The body of the loop of `updateUnsorted`. -/
def updateUnsorted (list : List E) (c : SubChange E) : Throwing E (SortedList E) := do
  let s ← (if c.wasPermutated then s.permuteUnsorted c else .ok s : Throwing E (SortedList E))
  let s ← (if c.wasRemoved then s.removeUnsorted c else .ok s : Throwing E (SortedList E))
  if c.wasAdded then s.addUnsorted list c else .ok s

/-- `sourceChanged`; `list` is the source afterwards. -/
def sourceChanged (c : Composite E) (list : List E) : Throwing E (SortedList E) :=
  match s.elementComparator with
  | some compare =>
    run (fun (s : SortedList E) c => s.nextChange compare list c) { s with calls := [] }
      c.subChanges
  | none => run (fun (s : SortedList E) c => s.updateUnsorted list c) { s with calls := [] }
      c.subChanges

/-! ## Another comparator -/

/-- A round of the loop that puts the elements back in the order of the source; `none`
where the element at `idx` is at its place. The exchange in `sorted`, `perm` and `rperm`
is that of `SortHelper.swap`. -/
def unsortStep (idx : ℕ) (h : SortHelper) : Throwing E (Option (SortedList E × SortHelper)) := do
  let x ← s.throwing (aget s.sorted idx)
  if x.index = idx then return none
  else do
    let otherIdx := x.index
    let _ ← s.throwing (aget s.sorted otherIdx)
    let r ← s.throwing (SortHelper.swap s.sorted idx otherIdx.toNat h)
    let s := { s with sorted := r.1 }
    let perm ← s.throwing (aset s.perm idx idx)
    let s := { s with perm := perm }
    let perm ← s.throwing (aset s.perm otherIdx otherIdx)
    return some ({ s with perm := perm }, r.2)

/-- The loop, for at most `fuel` rounds; `none` where it has not ended then. -/
def unsort : (fuel : ℕ) → (idx : ℕ) → SortedList E → SortHelper → (changed : Bool) →
    Option (Throwing E (SortedList E × SortHelper × Bool))
  | 0, _, _, _, _ => none
  | fuel + 1, idx, s, h, changed =>
    if idx < s.size then
      match s.unsortStep idx h with
      | .ok none => unsort fuel (idx + 1) s h changed
      | .ok (some (s', h')) => unsort fuel idx s' h' true
      | .error e => some (.error e)
    else some (.ok (s, h, changed))

/-- `doSortWithPermutationChange`: the list and the permutation that is fired. -/
def doSortWithPermutationChange (fuel : ℕ) : Option (Throwing E (SortedList E × Option (List ℕ))) :=
  match s.elementComparator with
  | some compare => some (do
      let r ← s.throwing (SortHelper.sort (elementCompare compare) s.sorted 0 s.size)
      let s ← { s with sorted := r.1 }.reversePerm
      return (s, some r.2))
  | none =>
    match unsort fuel 0 s (SortHelper.initPermutation s.size) false with
    | some (.ok (s, h, changed)) => some (.ok (s, if changed then some h.permutation else none))
    | some (.error e) => some (.error e)
    | none => none

/-- `setComparator`, with a comparator that is not the current one. -/
def setComparator (fuel : ℕ) (comparator : Option (E → E → ℤ)) :
    Option (Throwing E (SortedList E × Option (List ℕ))) :=
  { s with elementComparator := comparator }.doSortWithPermutationChange fuel

/-- The constructor, without a comparator; with one, `setComparator` follows. -/
def new (source : List E) : SortedList E where
  elementComparator := none
  sorted := elements source 0
  perm := indices 0 source.length
  arrayLength := source.length * 3 / 2 + 1
  calls := []

end SortedList

end JavaFx.Collections
