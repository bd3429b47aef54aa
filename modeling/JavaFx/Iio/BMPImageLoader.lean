/-
`com.sun.javafx.iio.bmp.BMPImageLoader`, from the bitmap bits on.

The stream is the bytes that are left of it. An image is a list of bytes, red, green and blue
of each pixel, the upper rows first. An `int` is an integer, and what may be too large for one
goes through `toInt`.
-/
import JavaFx.Lib.DataStream

set_option autoImplicit false

namespace JavaFx.Iio.BMP

open JavaFx.Lib

/-- An integer as an `int`. -/
def toInt (i : ℤ) : ℤ := Int.bmod i (2 ^ 32)

/-- What an array access throws. -/
def exn {α : Type} (r : Except Exn α) : Except Failure α := r.mapError Failure.exception

/-- `ImageTools.readFully` of `n` bytes: what was read and what is left. -/
def readFully (stream : List Byte) (n : ℤ) : Except Failure (List Byte × List Byte) :=
  if n < 0 then .error (.exception .negativeArraySize)
  else if n ≤ stream.length then .ok (stream.take n.toNat, stream.drop n.toNat)
  else .error .io

structure BitmapInfoHeader where
  biWidth : ℤ
  biHeight : ℤ
  biBitCount : ℤ
  biCompression : ℤ
  biSizeImage : ℤ

structure BMPImageLoader where
  bfSize : ℤ
  bfOffBits : ℤ
  bgra_palette : List Byte
  bih : BitmapInfoHeader

/-- A pixel of the palette: the image, and the offset behind the pixel. -/
def setRGBFromPalette (bgra_palette image : List Byte) (dstOffset : ℤ) (index : ℕ) :
    Except Failure (List Byte × ℤ) := do
  let red ← exn (aget bgra_palette (4 * index + 2 : ℕ))
  let image ← exn (aset image dstOffset red)
  let dstOffset := toInt (dstOffset + 1)
  let green ← exn (aget bgra_palette (4 * index + 1 : ℕ))
  let image ← exn (aset image dstOffset green)
  let dstOffset := toInt (dstOffset + 1)
  let blue ← exn (aget bgra_palette (4 * index : ℕ))
  let image ← exn (aset image dstOffset blue)
  .ok (image, toInt (dstOffset + 1))

/-! ## `readRLE` -/

section RLE

variable (bgra_palette : List Byte) (isRLE4 isBottomUp : Bool) (rowLength : ℤ)

/-- The loop over an encoded run, of which `n` pixels from pixel `p` on are left. -/
def encodedRun (b2 : Byte) : (n p : ℕ) → List Byte × ℤ → Except Failure (List Byte × ℤ)
  | 0, _, s => .ok s
  | n + 1, p, s => do
      let index := if isRLE4 then if p % 2 = 0 then b2.val / 16 else b2.val % 16 else b2.val
      let s ← setRGBFromPalette bgra_palette s.1 s.2 index
      encodedRun b2 n (p + 1) s

/-- The loop over an absolute run, with the bytes that are left. -/
def absoluteRun : (n p indexData : ℕ) → List Byte → List Byte × ℤ →
    Except Failure (List Byte × (List Byte × ℤ))
  | 0, _, _, data, s => .ok (data, s)
  | n + 1, p, indexData, data, s =>
    if isRLE4 ∧ p % 2 = 1 then do
      let s ← setRGBFromPalette bgra_palette s.1 s.2 (indexData % 16)
      absoluteRun n (p + 1) indexData data s
    else
      match data with
      | [] => .error (.exception .indexOutOfBounds)
      | b :: data => do
          let index := if isRLE4 then b.val / 16 else b.val
          let s ← setRGBFromPalette bgra_palette s.1 s.2 index
          absoluteRun n (p + 1) b.val data s

/-- The loop over the records. Every round takes two bytes, so there are enough rounds when
there are as many as bytes. -/
def records : ℕ → List Byte → ℤ → List Byte × ℤ → Except Failure (List Byte)
  | _, [], _, s => .ok s.1
  | 0, _ :: _, _, _ => .error .error
  | _ + 1, [_], _, _ => .error (.exception .indexOutOfBounds)
  | rounds + 1, b1 :: b2 :: data, line, s =>
    if b1 = 0 then
      if b2 = 0 then
        let line := toInt (line + if isBottomUp then -1 else 1)
        records rounds data line (s.1, toInt (line * rowLength))
      else if b2 = 1 then .ok s.1
      else if b2 = 2 then
        match data with
        | deltaX :: deltaY :: data =>
          records rounds data (toInt (line + deltaY.val))
            (s.1, toInt (toInt (s.2 + toInt (deltaY.val * rowLength)) + deltaX.val * 3))
        | _ => .error (.exception .indexOutOfBounds)
      else do
        let (data, s) ← absoluteRun bgra_palette isRLE4 b2.val 0 0 data s
        let padding :=
          if isRLE4 then b2.val % 4 = 1 ∨ b2.val % 4 = 2 else b2.val % 2 = 1
        records rounds (if padding then data.drop 1 else data) line s
    else do
      let s ← encodedRun bgra_palette isRLE4 b2 b1.val 0 s
      records rounds data line s

end RLE

def BMPImageLoader.readRLE (loader : BMPImageLoader) (stream image : List Byte)
    (rowLength hght : ℤ) (isRLE4 : Bool) : Except Failure (List Byte) := do
  let imgSize :=
    if loader.bih.biSizeImage = 0 then toInt (loader.bfSize - loader.bfOffBits)
    else loader.bih.biSizeImage
  let (imgData, _) ← readFully stream imgSize
  let isBottomUp : Bool := 0 < loader.bih.biHeight
  let line := if isBottomUp then toInt (hght - 1) else 0
  records loader.bgra_palette isRLE4 isBottomUp rowLength imgData.length imgData line
    (image, toInt (line * rowLength))

end JavaFx.Iio.BMP
