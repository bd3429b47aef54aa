/-
`SmoothMinifier` of `com.sun.javafx.iio.common`.

An image is scaled down as its lines are pushed. Each line is averaged over the box of
each destination column at once; the averages of the last `boxHeight` lines are kept in
an array that is used as a ring. When the line at the bottom of the box of the next
destination line has come, the lines of that box are averaged.

The scale factors are exact quotients here, so that `(int) (dx * scaleX)` is a quotient of
integers; and what the constructor computes is exact. The sums are `int`s. A byte is
taken by its value `& 0xff`, and the array of bytes of a line is read at the places it
must have; `off` is not negative.
-/
import JavaFx.Lib.Java
import Mathlib.Data.BitVec

set_option autoImplicit false

namespace JavaFx.Iio.SmoothMinifier

open JavaFx.Lib

abbrev Byte := BitVec 8

/-- `(byte) val`. -/
def toByte (val : ℤ) : Byte := BitVec.ofInt 8 val

/-- An `int` addition. -/
def addInt (a b : ℤ) : ℤ := Int.bmod (a + b) (2 ^ 32)

/-! ## The constructor -/

/-- The arguments that the constructor accepts. -/
structure Sizes where
  sourceWidth : ℕ
  sourceHeight : ℕ
  numBands : ℕ
  destWidth : ℕ
  destHeight : ℕ
  numBands_pos : 0 < numBands
  destWidth_pos : 0 < destWidth
  destHeight_pos : 0 < destHeight
  destWidth_le : destWidth ≤ sourceWidth
  destHeight_le : destHeight ≤ sourceHeight
  sourceWidth_lt : sourceWidth < 2 ^ 31
  sourceHeight_lt : sourceHeight < 2 ^ 31

namespace Sizes

variable (z : Sizes)

def boxWidth : ℕ := (z.sourceWidth + z.destWidth - 1) / z.destWidth

def boxHeight : ℕ := (z.sourceHeight + z.destHeight - 1) / z.destHeight

def boxLeft : ℕ := z.boxWidth / 2

def boxRight : ℕ := z.boxWidth - z.boxLeft - 1

def boxTop : ℕ := z.boxHeight / 2

def boxBottom : ℕ := z.boxHeight - z.boxTop - 1

/-- `leftPoints[dx]`. -/
def leftPoints (dx : ℕ) : ℤ := (dx * z.sourceWidth / z.destWidth : ℕ) - (z.boxLeft : ℤ)

/-- `rightPoints[dx]`. -/
def rightPoints (dx : ℕ) : ℤ := (dx * z.sourceWidth / z.destWidth : ℕ) + (z.boxRight : ℤ)

/-- `topPoints[dy]`. -/
def topPoints (dy : ℕ) : ℤ := (dy * z.sourceHeight / z.destHeight : ℕ) - (z.boxTop : ℤ)

/-- `bottomPoints[dy]`. -/
def bottomPoints (dy : ℕ) : ℤ := (dy * z.sourceHeight / z.destHeight : ℕ) + (z.boxBottom : ℤ)

end Sizes

/-- The fields that change: the ring and the destination, both by index, and the three
line numbers. -/
structure State where
  sourceData : ℕ → ℕ → Byte
  dest : ℕ → Byte
  sourceLine : ℕ
  sourceDataLine : ℕ
  destLine : ℕ

/-- A new scaler. -/
def start : State := ⟨fun _ _ => 0, fun _ => 0, 0, 0, 0⟩

/-- A line that is pushed: the array, and where it begins in it. -/
structure Scanline where
  scanline : ℕ → Byte
  off : ℕ

variable (z : Sizes)

/-! ## `putSourceScanline` -/

/-- A loop that adds up. -/
def sumInt (samples : List ℤ) : ℤ := samples.foldl addInt 0

/-- The average of a line over the box of column `i`, with one band. -/
def averageOne (l : Scanline) (i : ℕ) : Byte :=
  let leftSample := (l.scanline l.off).toNat
  let rightSample := (l.scanline (l.off + z.sourceWidth - 1)).toNat
  let val := sumInt ((upTo (z.leftPoints i) (z.rightPoints i + 1)).map fun j =>
    if j < 0 then (leftSample : ℤ)
    else if (z.sourceWidth : ℤ) ≤ j then (rightSample : ℤ)
    else ((l.scanline (l.off + j.toNat)).toNat : ℤ))
  toByte (val.tdiv (z.rightPoints i - z.leftPoints i + 1))

/-- The average of a line over the box of column `i`, in the band `k`. -/
def averageBand (l : Scanline) (i k : ℕ) : Byte :=
  let rightOff := l.off + (z.sourceWidth - 1) * z.numBands
  let leftBound := z.leftPoints i
  let rightBound := z.rightPoints i
  let numPoints := rightBound - leftBound + 1
  let leftSample := (l.scanline (l.off + k)).toNat
  let rightSample := (l.scanline (rightOff + k)).toNat
  let val := sumInt ((upTo leftBound (rightBound + 1)).map fun j =>
    if j < 0 then (leftSample : ℤ)
    else if (z.sourceWidth : ℤ) ≤ j then (rightSample : ℤ)
    else ((l.scanline (l.off + j.toNat * z.numBands + k)).toNat : ℤ))
  toByte (val.tdiv numPoints)

/-- The intermediate line, by the index of its samples. -/
def averages (l : Scanline) (x : ℕ) : Byte :=
  if z.numBands = 1 then averageOne z l x
  else averageBand z l (x / z.numBands) (x % z.numBands)

/-- The row of the ring for the line `y` of the source, when `sourceLine` is in the row
`sourceDataLine`. -/
def rowIndex (s : State) (y : ℤ) : ℤ :=
  let index :=
    if y < 0 then 0 - (s.sourceLine : ℤ) + s.sourceDataLine
    else if (z.sourceHeight : ℤ) ≤ y then
      ((z.sourceHeight : ℤ) - 1 - s.sourceLine + s.sourceDataLine).tmod z.boxHeight
    else (y - s.sourceLine + s.sourceDataLine).tmod z.boxHeight
  if index < 0 then index + z.boxHeight else index

/-- `sourceData[index]`. -/
def row (s : State) (index : ℤ) : Except Exn (ℕ → Byte) :=
  if 0 ≤ index ∧ index < z.boxHeight then .ok (s.sourceData index.toNat)
  else .error .indexOutOfBounds

/-- The line that `destLine` is set to. -/
def destRow (s : State) : Except Exn (ℕ → Byte) := do
  let rows ← (upTo (z.topPoints s.destLine) (z.bottomPoints s.destLine + 1)).mapM
    fun y => row z s (rowIndex z s y)
  .ok (fun x => toByte ((sumInt (rows.map fun b => ((b x).toNat : ℤ))).tdiv z.boxHeight))

/-- The number of samples in a destination line. -/
def destLength : ℕ := z.destWidth * z.numBands

/-- A destination line is written. -/
def writeRow (dest : ℕ → Byte) (destLine : ℕ) (b : ℕ → Byte) : ℕ → Byte := fun index =>
  let destOffset := destLine * z.destWidth * z.numBands
  if destOffset ≤ index ∧ index < destOffset + destLength z then b (index - destOffset)
  else dest index

/-- A destination line is computed now. -/
def due (s : State) : Prop :=
  (s.sourceLine : ℤ) = z.bottomPoints s.destLine
    ∨ s.destLine = z.destHeight - 1 ∧ s.sourceLine = z.sourceHeight - 1

instance (s : State) : Decidable (due z s) := inferInstanceAs (Decidable (_ ∨ _))

/-- `putSourceScanline`. -/
def putSourceScanline (s : State) (l : Scanline) : Except Exn (State × Bool) := do
  let pushed := { s with
    sourceData := Function.update s.sourceData s.sourceDataLine fun x =>
      if x < destLength z then averages z l x else s.sourceData s.sourceDataLine x }
  let written ←
    if due z pushed then do
      let b ← destRow z pushed
      .ok { pushed with
        dest := writeRow z pushed.dest pushed.destLine b
        destLine :=
          if pushed.destLine < z.destHeight - 1 then pushed.destLine + 1 else pushed.destLine }
    else .ok pushed
  let next := { written with
    sourceLine := written.sourceLine + 1
    sourceDataLine :=
      if written.sourceLine + 1 ≠ z.sourceHeight then (written.sourceDataLine + 1) % z.boxHeight
      else written.sourceDataLine }
  .ok (next, next.destLine = z.destHeight)

/-- A push, without the answer. -/
def push (s : State) (l : Scanline) : Except Exn State := do
  .ok (← putSourceScanline z s l).1

/-- The lines of a source are pushed, the first `count` of them. -/
def pushLines (source : ℕ → Scanline) (count : ℕ) : Except Exn State :=
  run (push z) start ((List.range count).map source)

/-! ## What is meant -/

/-- An index clamped to `0..size-1`. -/
def clamp (size : ℕ) (j : ℤ) : ℕ := (max 0 (min j ((size : ℤ) - 1))).toNat

/-- The samples of a line in the box of column `i`, in the band `k`. -/
def lineBox (l : Scanline) (i k : ℕ) : List ℕ :=
  (upTo (z.leftPoints i) (z.rightPoints i + 1)).map fun j =>
    (l.scanline (l.off + clamp z.sourceWidth j * z.numBands + k)).toNat

/-- The integer average of a line over the box of a sample of the destination. -/
def lineAverage (l : Scanline) (x : ℕ) : ℕ :=
  (lineBox z l (x / z.numBands) (x % z.numBands)).sum / z.boxWidth

/-- The averages of the lines in the box of the destination line `dy`. -/
def box (source : ℕ → Scanline) (dy x : ℕ) : List ℕ :=
  (upTo (z.topPoints dy) (z.bottomPoints dy + 1)).map fun y =>
    lineAverage z (source (clamp z.sourceHeight y)) x

/-- The integer average of them. -/
def average (source : ℕ → Scanline) (dy x : ℕ) : ℕ := (box z source dy x).sum / z.boxHeight

/-- All sums fit in an `int`. They do whatever the source is, as long as a box has no more
than 8421504 samples in a row and in a column. -/
structure SumsFit (source : ℕ → Scanline) : Prop where
  lines : ∀ y < z.sourceHeight, ∀ x < destLength z,
    (lineBox z (source y) (x / z.numBands) (x % z.numBands)).sum < 2 ^ 31
  boxes : ∀ dy < z.destHeight, ∀ x < destLength z, (box z source dy x).sum < 2 ^ 31

/-- When all lines have been pushed, every sample of the destination is the average over
its box. -/
def Right (source : ℕ → Scanline) : Prop :=
  ∃ s, pushLines z source z.sourceHeight = .ok s
    ∧ ∀ dy < z.destHeight, ∀ x < destLength z,
        (s.dest (dy * z.destWidth * z.numBands + x)).toNat = average z source dy x

end JavaFx.Iio.SmoothMinifier
