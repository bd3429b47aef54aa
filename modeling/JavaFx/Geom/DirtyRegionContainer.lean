/-
`DirtyRegionContainer`.

A container has room for `n` regions and merges those that overlap. When it is full it
makes room: for each pair of regions a heap has the area of their union, the pairs that
take least are merged, and a map says into which region a region has gone; then what is
left is moved to the front.

The regions are objects. A caller's rectangle is another one, `none`, and may grow; it can
be a region of the container as well. So can the arrays of the heap be in two places: the
last one is overwritten by the one that is taken. Coordinates are exact, from any ordered
field with a floor; an area is an `int`, and so is the number of pairs. A loop that has no
counter is given a number of turns, and is `endless` when they do not do.
-/
import JavaFx.Lib.Java
import JavaFx.Lib.Sift
import Mathlib.Algebra.Order.Floor.Ring
import Mathlib.Data.BitVec
import Mathlib.Data.Fintype.Basic
import Mathlib.Data.List.FinRange

set_option autoImplicit false

namespace JavaFx.Geom.DirtyRegionContainer

open JavaFx.Lib

/-! ## Rectangles -/

/-- `RectBounds`. -/
structure RectBounds (K : Type) where
  minX : K
  minY : K
  maxX : K
  maxY : K
  deriving DecidableEq

section RectBounds

variable {K : Type} [Field K] [LinearOrder K]

/-- `makeEmpty`. -/
def RectBounds.makeEmpty : RectBounds K := ⟨0, 0, -1, -1⟩

variable (r other : RectBounds K)

/-- `isEmpty`. -/
def RectBounds.isEmpty : Bool := !(decide (r.minX ≤ r.maxX) && decide (r.minY ≤ r.maxY))

/-- `intersects`. -/
def RectBounds.intersects : Bool :=
  !other.isEmpty && !r.isEmpty
    && decide (r.minX ≤ other.maxX) && decide (r.minY ≤ other.maxY)
    && decide (other.minX ≤ r.maxX) && decide (other.minY ≤ r.maxY)

/-- `unionWith`, or `deriveWithUnion`. -/
def RectBounds.unionWith : RectBounds K :=
  if other.isEmpty then r
  else if r.isEmpty then other
  else ⟨min r.minX other.minX, min r.minY other.minY, max r.maxX other.maxX, max r.maxY other.maxY⟩

/-- `deriveWithNewBounds`. -/
def RectBounds.deriveWithNewBounds (other : RectBounds K) : RectBounds K :=
  if other.isEmpty then RectBounds.makeEmpty else other

/-- The points of a rectangle. -/
def RectBounds.points : Set (K × K) :=
  {p | r.minX ≤ p.1 ∧ p.1 ≤ r.maxX ∧ r.minY ≤ p.2 ∧ p.2 ≤ r.maxY}

end RectBounds

/-! ## The container -/

/-- How a call can end other than by returning. -/
inductive Ending
  | threw (e : Exn)
  | endless

/-- An array of the heap: an area and two regions. -/
structure Entry (n : ℕ) where
  area : ℤ
  fst : Fin n
  snd : Fin n

/-- A container. The regions are numbered, and may change their places; so are the arrays
of the heap. -/
structure Container (K : Type) (n : ℕ) where
  rect : Option (Fin n) → RectBounds K
  dirtyRegions : Equiv.Perm (Fin n)
  emptyIndex : ℕ
  heapLength : Option ℕ
  heap : ℕ → ℕ
  entry : ℕ → Entry n
  heapSize : ℕ
  invalidMask : BitVec 64

variable {K : Type} [Field K] [LinearOrder K] {n : ℕ}

/-- A place in an array of length `n`. -/
def place (n i : ℕ) : Except Ending (Fin n) :=
  if h : i < n then .ok ⟨i, h⟩ else .error (.threw .indexOutOfBounds)

/-- The place before one in an array of length `n`. -/
def placeBefore (n : ℕ) : ℕ → Except Ending (Fin n)
  | 0 => .error (.threw .indexOutOfBounds)
  | i + 1 => place n i

section Container

variable (s : Container K n)

/-- `dirtyRegions[i]`. -/
def Container.region (i : Fin n) : RectBounds K := s.rect (some (s.dirtyRegions i))

/-- An object is changed. -/
def Container.setRect (o : Option (Fin n)) (r : RectBounds K) : Container K n :=
  { s with rect := Function.update s.rect o r }

/-- An array of the heap is written. -/
def Container.setEntry (a : ℕ) (e : Entry n) : Container K n :=
  { s with entry := Function.update s.entry a e }

/-- Two regions change places. -/
def Container.swap (i j : Fin n) : Container K n :=
  { s with dirtyRegions := (Equiv.swap i j).trans s.dirtyRegions }

/-! ## Compression -/

/-- A cast to `int`. -/
def toInt [FloorRing K] (x : K) : ℤ := max (-2 ^ 31) (min (2 ^ 31 - 1) (if 0 ≤ x then ⌊x⌋ else ⌈x⌉))

/-- `unifiedRegionArea`. -/
def Container.unifiedRegionArea [FloorRing K] (i0 i1 : Fin n) : ℤ :=
  let r0 := s.region i0
  let r1 := s.region i1
  let minX := if r0.minX < r1.minX then r0.minX else r1.minX
  let minY := if r0.minY < r1.minY then r0.minY else r1.minY
  let maxX := if r1.maxX < r0.maxX then r0.maxX else r1.maxX
  let maxY := if r1.maxY < r0.maxY then r0.maxY else r1.maxY
  toInt ((maxX - minX) * (maxY - minY))

/-- `siftDown` in the heap of the container. -/
def Container.siftDown (i : ℕ) : Container K n :=
  { s with heap := JavaFx.Lib.siftDown (fun a => (s.entry a).area) s.heapSize s.heap i }

/-- `heapify`. -/
def Container.heapify : Container K n :=
  (List.range (s.heapSize / 2 + 1)).reverse.foldl Container.siftDown s

/-- The turns of the loops of `compress_heap`. -/
def pairs (n : ℕ) : List (Fin n × Fin n) :=
  (List.finRange n).flatMap fun i => ((List.finRange n).filter (i < ·)).map fun j => (i, j)

/-- The loops of `compress_heap`, from the turn `k`. -/
def Container.fill [FloorRing K] : List (Fin n × Fin n) → ℕ → Container K n →
    Except Ending (Container K n)
  | [], _, s => .ok s
  | (i, j) :: rest, k, s =>
    if k < s.heapLength.getD 0 then
      Container.fill rest (k + 1) (s.setEntry (s.heap k) ⟨s.unifiedRegionArea i j, i, j⟩)
    else .error (.threw .indexOutOfBounds)

/-- `resolveMap`. There are `n` regions to go through at most. -/
def resolveMap (map : Fin n → Fin n) : ℕ → Fin n → Except Ending (Fin n)
  | 0, _ => .error .endless
  | turns + 1, idx => if map idx = idx then .ok idx else resolveMap map turns (map idx)

/-- `1 << i`. -/
def bit (i : Fin n) : BitVec 32 := 1#32 <<< (i.val % 32)

/-- The condition of the loop of `takeMinWithMap`. -/
def Container.invalid (a : ℕ) : Bool :=
  0 < ((bit (s.entry a).fst ||| bit (s.entry a).snd).signExtend 64 &&& s.invalidMask).toInt

/-- The loop of `takeMinWithMap`. What is taken is at the top of the heap at the end. -/
def Container.takeMinLoop [FloorRing K] (map : Fin n → Fin n) :
    ℕ → Container K n → Except Ending (Container K n)
  | 0, _ => .error .endless
  | turns + 1, s =>
    if s.invalid (s.heap 0) then do
      let fst ← resolveMap map n (s.entry (s.heap 0)).fst
      let snd ← resolveMap map n (s.entry (s.heap 0)).snd
      let recomputed := { s.entry (s.heap 0) with area := s.unifiedRegionArea fst snd }
      let sifted := (s.setEntry (s.heap 0) recomputed).siftDown 0
      if sifted.heap 0 = s.heap 0 then return sifted
      else Container.takeMinLoop map turns sifted
    else .ok s

/-- As many turns as the loop of `takeMinWithMap` can take: each recomputes the area of one
of the arrays, or takes a smaller area up. -/
def turns (heapSize : ℕ) : ℕ := (heapSize + 1) * (heapSize * heapSize * 2 ^ 32 + 1)

/-- `takeMinWithMap`. -/
def Container.takeMinWithMap [FloorRing K] (map : Fin n → Fin n) :
    Except Ending (Entry n × Container K n) :=
  if s.heapSize = 0 then .error (.threw .indexOutOfBounds)
  else do
    let s' ← Container.takeMinLoop map (turns s.heapSize) s
    let written := { s' with heap := Function.update s'.heap (s'.heapSize - 1) (s'.heap 0) }
    let sifted := written.siftDown 0
    return (sifted.entry (s'.heap 0), { sifted with heapSize := s'.heapSize - 1 })

/-- The first loop of `heapCompress`. -/
def Container.mergeLoop [FloorRing K] :
    ℕ → Container K n → (Fin n → Fin n) → Except Ending (Container K n × (Fin n → Fin n))
  | 0, s, map => .ok (s, map)
  | count + 1, s, map => do
      let (min, s') ← s.takeMinWithMap map
      let idx0 ← resolveMap map n min.fst
      let idx1 ← resolveMap map n min.snd
      if idx0 = idx1 then Container.mergeLoop count s' map
      else
        let merged := s'.setRect (some (s'.dirtyRegions idx0))
          ((s'.region idx0).unionWith (s'.region idx1))
        Container.mergeLoop count
          { merged with
            invalidMask := merged.invalidMask ||| (bit idx0).signExtend 64 ||| (bit idx1).signExtend 64 }
          (Function.update map idx1 idx0)

/-- The inner loop that leaves off unused regions at the end, from `emptyIndex`. -/
def trim (map : Fin n → Fin n) : ℕ → Except Ending ℕ
  | 0 => .error (.threw .indexOutOfBounds)
  | e + 1 => do
      let last ← place n e
      if map last = last then return e + 1 else trim map e

/-- The second loop of `heapCompress`, from the turn `i`. -/
def Container.compact (s : Container K n) (map : Fin n → Fin n) (i : ℕ) :
    Except Ending (Container K n) :=
  if i < s.emptyIndex then
    if h : i < n then
      if map ⟨i, h⟩ = ⟨i, h⟩ then s.compact map (i + 1)
      else
        match trim map s.emptyIndex with
        | .error e => .error e
        | .ok e =>
          if i < e - 1 then
            match placeBefore n e with
            | .error e => .error e
            | .ok last =>
              Container.compact { s.swap ⟨i, h⟩ last with emptyIndex := e - 1 }
                (Function.update map ⟨i, h⟩ ⟨i, h⟩) (i + 1)
          else Container.compact { s with emptyIndex := e } map (i + 1)
    else .error (.threw .indexOutOfBounds)
  else .ok s
termination_by n - i

/-- `heapCompress`. -/
def Container.heapCompress [FloorRing K] : Except Ending (Container K n) := do
  let (s', map) ← Container.mergeLoop (n / 2) { s with invalidMask := 0 } id
  s'.compact map 0

/-- The heap is created when there is none: `new int[n * (n-1) / 2][3]`. -/
def Container.newHeap [NeZero n] : Except Ending (Container K n) :=
  let length := (Int.bmod (n * (n - 1)) (2 ^ 32)).tdiv 2
  if s.heapLength.isSome then .ok s
  else if length < 0 then .error (.threw .negativeArraySize)
  else .ok { s with heapLength := some length.toNat, heap := id, entry := fun _ => ⟨0, 0, 0⟩ }

/-- `compress_heap`. -/
def Container.compressHeap [FloorRing K] [NeZero n] : Except Ending (Container K n) := do
  let s' ← s.newHeap
  let filled ← Container.fill (pairs n) 0 { s' with heapSize := s'.heapLength.getD 0 }
  filled.heapify.heapCompress

/-! ## Additions -/

/-- The loop of `addDirtyRegion`, with the turns that are left. -/
def Container.absorb (region : Option (Fin n)) :
    ℕ → ℕ → Container K n → Except Ending (Container K n)
  | 0, _, s => .ok s
  | count + 1, tempIndex, s => do
      let temp ← place n tempIndex
      if (s.rect region).intersects (s.region temp) then
        let last ← placeBefore n s.emptyIndex
        let merged := s.setRect region ((s.rect region).unionWith (s.region temp))
        Container.absorb region count tempIndex
          { merged.swap temp last with emptyIndex := s.emptyIndex - 1 }
      else Container.absorb region count (tempIndex + 1) s

/-- `addDirtyRegion`. It calls itself through `compress`, which has made room. -/
def Container.addDirtyRegion [FloorRing K] [NeZero n] (region : Option (Fin n)) :
    ℕ → Container K n → Except Ending (Container K n)
  | 0, _ => .error .endless
  | calls + 1, s =>
    if (s.rect region).isEmpty then .ok s
    else do
      let s' ← Container.absorb region s.emptyIndex 0 s
      if s'.emptyIndex < n then
        let free ← place n s'.emptyIndex
        return { s'.setRect (some (s'.dirtyRegions free))
          (RectBounds.deriveWithNewBounds (s'.rect region)) with emptyIndex := s'.emptyIndex + 1 }
      else if n = 1 then
        return s'.setRect (some (s'.dirtyRegions 0)) ((s'.region 0).unionWith (s'.rect region))
      else do
        let compressed ← s'.compressHeap
        Container.addDirtyRegion region calls compressed

end Container

/-! ## Steps -/

/-- A container, and what has been added to it since the last `reset`. -/
structure World (K : Type) (n : ℕ) where
  container : Container K n
  added : Set (K × K)

/-- A new container. -/
def start (K : Type) [Field K] [LinearOrder K] (n : ℕ) [NeZero n] : World K n where
  container :=
    { rect := fun _ => RectBounds.makeEmpty
      dirtyRegions := Equiv.refl (Fin n)
      emptyIndex := 0
      heapLength := none
      heap := id
      entry := fun _ => ⟨0, 0, 0⟩
      heapSize := 0
      invalidMask := 0 }
  added := ∅

/-- What is called, with a rectangle of the caller or one that `getDirtyRegion` returns,
and with another container, given by its regions, or with the container itself. -/
inductive Action (K : Type) (n : ℕ)
  | addDirtyRegion (r : RectBounds K)
  | addOwnRegion (i : Fin n)
  | merge (other : List (RectBounds K))
  | mergeItself
  | reset

section Step

variable [FloorRing K] [NeZero n]

/-- An object is added. -/
def World.addObject (w : World K n) (o : Option (Fin n)) : Except Ending (World K n) := do
  let container ← Container.addDirtyRegion o 2 w.container
  return ⟨container, w.added ∪ (w.container.rect o).points⟩

/-- A rectangle of the caller is added. -/
def World.addRect (w : World K n) (r : RectBounds K) : Except Ending (World K n) :=
  World.addObject { w with container := w.container.setRect none r } none

/-- What `getDirtyRegion` returns is added. -/
def World.addPlace (w : World K n) (i : ℕ) : Except Ending (World K n) := do
  let i ← place n i
  w.addObject (some (w.container.dirtyRegions i))

/-- A step. -/
def step (w : World K n) : Action K n → Except Ending (World K n)
  | .addDirtyRegion r => w.addRect r
  | .addOwnRegion i => w.addPlace i
  | .merge other => other.foldlM World.addRect w
  | .mergeItself => (List.range w.container.emptyIndex).foldlM World.addPlace w
  | .reset => .ok ⟨{ w.container with emptyIndex := 0 }, ∅⟩

end Step

/-- Every point added lies in a region, and there are no more regions than places. -/
def Covered (w : World K n) : Prop :=
  w.container.emptyIndex ≤ n
    ∧ ∀ p ∈ w.added, ∃ i : Fin n, i < w.container.emptyIndex ∧ p ∈ (w.container.region i).points

end JavaFx.Geom.DirtyRegionContainer
