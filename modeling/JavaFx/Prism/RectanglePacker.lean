/-
`RectanglePacker` and its `Level`s.

The area is cut across into levels, bands of the full length; a rectangle goes to the end
of the first level that is high enough, looked for from the level that fits best. What
runs along a level is the length, what runs across is the size, `vertical` says which of
width and height is which.

Sides are below `2 ^ 30`, so of all the sums only those with the offsets `x` and `y` can
overflow; these two go through `toInt`. The backing store is left out. A method that
answers `false` leaves its rectangle alone: `add` returns the rectangle as it then is.
-/
import JavaFx.Lib.Java

set_option autoImplicit false

namespace JavaFx.Prism

open JavaFx.Lib

/-- The value of a sum kept in an `int`. -/
def toInt (i : ℤ) : ℤ := Int.bmod i (2 ^ 32)

structure Rectangle where
  x : ℤ
  y : ℤ
  width : ℕ
  height : ℕ
deriving DecidableEq, Repr

structure Level where
  length : ℕ
  size : ℕ
  sizeOffset : ℕ
  lengthOffset : ℕ
deriving DecidableEq, Repr

namespace Level

/-- `new Level(length, size, sizeOffset)`. -/
def new (length size sizeOffset : ℕ) : Level := ⟨length, size, sizeOffset, 0⟩

/-- `Level.add`: the level and the rectangle after an addition at the end, `none` where
there is no place. -/
def add (level : Level) (rect : Rectangle) (x y : ℤ) (requestedLength requestedSize : ℕ)
    (vertical : Bool) : Option (Level × Rectangle) :=
  if level.lengthOffset + requestedLength ≤ level.length ∧ requestedSize ≤ level.size then
    let rect :=
      if vertical then { rect with x := level.sizeOffset, y := level.lengthOffset }
      else { rect with x := level.lengthOffset, y := level.sizeOffset }
    some ({ level with lengthOffset := level.lengthOffset + requestedLength },
      { rect with x := toInt (rect.x + x), y := toInt (rect.y + y) })
  else none

end Level

/-- The minimum size of a level. -/
def MIN_SIZE : ℕ := 8

/-- Sizes are rounded up to a multiple of it. -/
def ROUND_UP : ℕ := 4

structure RectanglePacker where
  levels : List Level
  recentUsedLevelIndex : ℕ
  length : ℕ
  size : ℕ
  sizeOffset : ℕ
  x : ℤ
  y : ℤ
  vertical : Bool
deriving DecidableEq, Repr

namespace RectanglePacker

/-- `new RectanglePacker(backingStore, x, y, width, height, vertical)`. -/
def new (x y : ℤ) (width height : ℕ) (vertical : Bool) : RectanglePacker where
  levels := []
  recentUsedLevelIndex := 0
  length := if vertical then height else width
  size := if vertical then width else height
  sizeOffset := 0
  x := x
  y := y
  vertical := vertical

/-! ## Searching -/

/-- The loop of `binarySearch` for `key`: the last index it looks at and the size there.
Each round halves the range, so there are no more rounds than levels. -/
def searchLoop (levels : List Level) (key : ℕ) :
    (fuel : ℕ) → (start stop : ℤ) → (mid : ℤ) → (midSize : ℕ) → Except Exn (ℤ × ℕ)
  | 0, _, _, mid, midSize => .ok (mid, midSize)
  | fuel + 1, start, stop, mid, midSize =>
    if start ≤ stop then do
      let mid := (start + stop) / 2
      let level ← aget levels mid
      if key < level.size then searchLoop levels key fuel start (mid - 1) mid level.size
      else searchLoop levels key fuel (mid + 1) stop mid level.size
    else .ok (mid, midSize)

/-- `binarySearch(levels, k)`. -/
def binarySearch (levels : List Level) (k : ℕ) : Except Exn ℕ :=
  let stop : ℤ := levels.length - 1
  if stop < 0 then .ok 0
  else do
    let (mid, midSize) ← searchLoop levels (k + 1) levels.length 0 stop 0 0
    if midSize < k then .ok (mid + 1).toNat
    else if k < midSize then .ok (if 0 < mid then mid - 1 else 0).toNat
    else .ok mid.toNat

/-! ## Adding -/

/-- The requested size rounded up. -/
def roundUp (requestedSize : ℕ) : ℕ :=
  let newSize := if requestedSize < MIN_SIZE then MIN_SIZE else requestedSize
  (newSize + ROUND_UP - 1) - (newSize - 1) % ROUND_UP

/-- The level the search for a place begins with. -/
def firstIndex (p : RectanglePacker) (newSize : ℕ) : Except Exn ℕ := do
  if p.recentUsedLevelIndex < p.levels.length then
    let level ← aget p.levels p.recentUsedLevelIndex
    if level.size ≠ newSize then binarySearch p.levels newSize else .ok p.recentUsedLevelIndex
  else .ok p.recentUsedLevelIndex

/-- The loop over the levels from `i` on, with the number of levels left; `none` where
it ends without a place. -/
def addToLevel (p : RectanglePacker) (rect : Rectangle) (requestedLength requestedSize newSize : ℕ)
    (newLevelFlag : Bool) : (left : ℕ) → (i : ℕ) → Except Exn (Option (Rectangle × RectanglePacker))
  | 0, _ => .ok none
  | left + 1, i => do
      let level ← aget p.levels i
      if newSize + ROUND_UP * 2 < level.size ∧ newLevelFlag = true then .ok none
      else
        match level.add rect p.x p.y requestedLength requestedSize p.vertical with
        | some (level, rect) =>
          .ok (some (rect, { p with levels := p.levels.set i level, recentUsedLevelIndex := i }))
        | none => addToLevel p rect requestedLength requestedSize newSize newLevelFlag left (i + 1)

/-- `levels.add(index, level)`, with the index remembered. -/
def insertLevel (p : RectanglePacker) (index : ℕ) (level : Level) : Except Exn RectanglePacker :=
  if index ≤ p.levels.length then
    .ok { p with levels := p.levels.insertIdx index level, recentUsedLevelIndex := index }
  else .error .indexOutOfBounds

/-- Where a new level goes: behind the levels of the same size. -/
def insertionIndex (p : RectanglePacker) (newIndex newSize : ℕ) : Except Exn ℕ :=
  if newIndex < p.levels.length then do
    let level ← aget p.levels newIndex
    .ok (if level.size ≤ newSize then newIndex + 1 else newIndex)
  else .ok newIndex

/-- The part of `add` that makes a new level. -/
def addNewLevel (p : RectanglePacker) (rect : Rectangle) (requestedLength requestedSize newSize : ℕ)
    (newIndex : ℕ) : Except Exn (Bool × Rectangle × RectanglePacker) := do
  let newLevel := Level.new p.length newSize p.sizeOffset
  let p := { p with sizeOffset := p.sizeOffset + newSize }
  let index ← p.insertionIndex newIndex newSize
  let p ← p.insertLevel index newLevel
  match newLevel.add rect p.x p.y requestedLength requestedSize p.vertical with
  | some (level, rect) => .ok (true, rect, { p with levels := p.levels.set index level })
  | none => .ok (false, rect, p)

/-- The extent of a rectangle along the levels. -/
def requestedLength (p : RectanglePacker) (rect : Rectangle) : ℕ :=
  if p.vertical then rect.height else rect.width

/-- Its extent across the levels. -/
def requestedSize (p : RectanglePacker) (rect : Rectangle) : ℕ :=
  if p.vertical then rect.width else rect.height

/-- `add(rect)`: the answer, the rectangle and the packer after the call. -/
def add (p : RectanglePacker) (rect : Rectangle) : Except Exn (Bool × Rectangle × RectanglePacker) := do
  let requestedLength := p.requestedLength rect
  let requestedSize := p.requestedSize rect
  if p.length < requestedLength then .ok (false, rect, p)
  else if p.size < requestedSize then .ok (false, rect, p)
  else
    let newSize := roundUp requestedSize
    let newIndex ← p.firstIndex newSize
    let newLevelFlag : Bool := p.sizeOffset + newSize ≤ p.size
    let added ← p.addToLevel rect requestedLength requestedSize newSize newLevelFlag
      (p.levels.length - newIndex) newIndex
    match added with
    | some (rect, p) => .ok (true, rect, p)
    | none =>
      if newLevelFlag then p.addNewLevel rect requestedLength requestedSize newSize newIndex
      else .ok (false, rect, p)

/-- `clear()`. -/
def clear (p : RectanglePacker) : RectanglePacker :=
  { p with levels := [], sizeOffset := 0, recentUsedLevelIndex := 0 }

end RectanglePacker

end JavaFx.Prism
