/-
The scan lines of `PNGImageLoader2`: the filters, the passes of an interlaced image, and what
the loader puts into the image.

The images have 8 or 16 bits for a sample, no transparent colour and sizes that fit an `int`.
The data is what is left of the inflated stream. Of 16 bits the image keeps the high byte.

`load_serialised`: the loader inverts the filters, whichever the lines have, and every byte
of the image comes from its sample, interlaced or not.
-/
import JavaFx.Lib.DataStream
import Mathlib

set_option autoImplicit false

namespace JavaFx.Iio.PNG

open JavaFx.Lib

/-! ## The filters -/

/-- `for (int i = lo; i != hi; ++i) line[i] = (byte) (line[i] + ...)`. -/
def addLoop (lo hi : ℕ) (f : ℕ → List Byte → Except Exn Byte) (line : List Byte) :
    Except Exn (List Byte) :=
  run (fun line (i : ℕ) => do
    let v ← aget line i
    let d ← f i line
    aset line i (v + d)) line (List.range' lo (hi - lo))

def doSubFilter (line : List Byte) (bpp : ℕ) : Except Exn (List Byte) :=
  addLoop bpp line.length (fun i line => aget line (i - bpp : ℕ)) line

def doUpFilter (line pline : List Byte) : Except Exn (List Byte) :=
  addLoop 0 line.length (fun i _ => aget pline i) line

def doAvrgFilter (line pline : List Byte) (bpp : ℕ) : Except Exn (List Byte) := do
  let line ← addLoop 0 bpp (fun i _ => do
    let b ← aget pline i
    .ok (Fin.ofNat 256 (b.val / 2))) line
  addLoop bpp line.length (fun i line => do
    let a ← aget line (i - bpp : ℕ)
    let b ← aget pline i
    .ok (Fin.ofNat 256 ((a.val + b.val) / 2))) line

def paethPr (a b c : Byte) : Byte :=
  let pa := |(b.val : ℤ) - c.val|
  let pb := |(a.val : ℤ) - c.val|
  let pc := |(b.val : ℤ) - c.val + a.val - c.val|
  if pa ≤ pb ∧ pa ≤ pc then a else if pb ≤ pc then b else c

def doPaethFilter (line pline : List Byte) (bpp : ℕ) : Except Exn (List Byte) := do
  let line ← addLoop 0 bpp (fun i _ => aget pline i) line
  addLoop bpp line.length (fun i line => do
    let a ← aget line (i - bpp : ℕ)
    let b ← aget pline i
    let c ← aget pline (i - bpp : ℕ)
    .ok (paethPr a b c)) line

/-- Another type of filter leaves the line as it is. -/
def doFilter (line pline : List Byte) (fType bpp : ℕ) : Except Exn (List Byte) :=
  match fType with
  | 1 => doSubFilter line bpp
  | 2 => doUpFilter line pline
  | 3 => doAvrgFilter line pline bpp
  | 4 => doPaethFilter line pline bpp
  | _ => .ok line

/-! ### What the format says -/

/-- Of the three bytes, the one that is nearest to `a + b - c`. -/
def paeth (a b c : Byte) : Byte :=
  let p : ℤ := a.val + b.val - c.val
  if |p - a.val| ≤ |p - b.val| ∧ |p - a.val| ≤ |p - c.val| then a
  else if |p - b.val| ≤ |p - c.val| then b else c

/-- What a filter subtracts, from the bytes at the left, above, and above at the left. -/
def predictor (fType : ℕ) (a b c : Byte) : Byte :=
  match fType with
  | 1 => a
  | 2 => b
  | 3 => Fin.ofNat 256 ((a.val + b.val) / 2)
  | 4 => paeth a b c
  | _ => 0

/-- The byte of the pixel at the left. -/
def left (bpp : ℕ) (line : List Byte) (i : ℕ) : Byte :=
  if i < bpp then 0 else line.getD (i - bpp) 0

/-- A line behind its filter. -/
def filtered (fType bpp : ℕ) (pline line : List Byte) : List Byte :=
  (List.range line.length).map fun i =>
    line.getD i 0 - predictor fType (left bpp line i) (pline.getD i 0) (left bpp pline i)

theorem length_filtered (fType bpp : ℕ) (pline line : List Byte) :
    (filtered fType bpp pline line).length = line.length := by
  simp [filtered]

theorem paethPr_eq (a b c : Byte) : paethPr a b c = paeth a b c := by
  have ha : (a.val : ℤ) + b.val - c.val - a.val = b.val - c.val := by ring
  have hb : (a.val : ℤ) + b.val - c.val - b.val = a.val - c.val := by ring
  have hc : (a.val : ℤ) + b.val - c.val - c.val = b.val - c.val + a.val - c.val := by ring
  simp only [paethPr, paeth, ha, hb, hc]

theorem paeth_zero (b : Byte) : paeth 0 b 0 = b := by
  by_cases hb : b = 0 <;> simp [paeth, hb]

theorem aget_getD {line : List Byte} {i : ℕ} (h : i < line.length) :
    aget line i = .ok (line.getD i 0) :=
  aget_ok (by simp [h])

/-- A line of which the first bytes are done. -/
def done (line enc : List Byte) (i : ℕ) : List Byte := line.take i ++ enc.drop i

section Line

variable {bpp : ℕ} {pline line enc : List Byte}

theorem length_done (h : enc.length = line.length) {i : ℕ} (hi : i ≤ line.length) :
    (done line enc i).length = line.length := by
  simp [done, h, hi]

theorem aget_done {i j : ℕ} (hj : j < i) (hi : i ≤ line.length) :
    aget (done line enc i) j = .ok (line.getD j 0) := by
  apply aget_ok
  simp [done, List.getElem?_append_left, hj, show j < line.length by omega]

/-- **A loop** whose summand is what the filter has taken away. -/
theorem addLoop_done {lo n : ℕ} {f : ℕ → List Byte → Except Exn Byte}
    (h : enc.length = line.length) (hn : lo + n ≤ line.length)
    (hf : ∀ i, lo ≤ i → i < lo + n →
      f i (done line enc i) = .ok (line.getD i 0 - enc.getD i 0)) :
    addLoop lo (lo + n) f (done line enc lo) = .ok (done line enc (lo + n)) := by
  rw [addLoop, Nat.add_sub_cancel_left]
  induction n with
  | zero => rfl
  | succ n ih =>
    rw [List.range'_1_concat,
      run_append_ok (ih (by omega) (fun i hlo hi => hf i hlo (by omega))), run_singleton]
    have hl : lo + n < line.length := by omega
    have he : lo + n < enc.length := by omega
    have hlength : lo + n = (line.take (lo + n)).length := by simp; omega
    rw [hf (lo + n) (by omega) (by omega)]
    -- the byte that comes next
    rw [done, List.drop_eq_getElem_cons he, aget_mid hlength]
    simp only [ok_bind]
    rw [aset_mid _ hlength, ← Nat.add_assoc, done, List.take_succ_eq_append_getElem hl,
      List.append_assoc, List.singleton_append]
    simp [hl, he]

theorem filtered_getD {fType i : ℕ} (hi : i < line.length) :
    line.getD i 0 - (filtered fType bpp pline line).getD i 0 =
      predictor fType (left bpp line i) (pline.getD i 0) (left bpp pline i) := by
  simp [filtered, hi]

theorem aget_left {i : ℕ} (h0 : 0 < bpp) (hb : bpp ≤ i) (hi : i < line.length) :
    aget (done line enc i) (i - bpp : ℕ) = .ok (left bpp line i) := by
  rw [aget_done (by omega) hi.le, left, if_neg (by omega)]

theorem aget_left_above {i : ℕ} (hp : pline.length = line.length) (hb : bpp ≤ i)
    (hi : i < line.length) : aget pline (i - bpp : ℕ) = .ok (left bpp pline i) := by
  rw [aget_getD (by omega), left, if_neg (by omega)]

/-- Where the filter has taken nothing away, the line is done. -/
theorem done_eq (h : enc.length = line.length) {i : ℕ} (hi : i ≤ line.length)
    (h0 : ∀ j < i, line.getD j 0 - enc.getD j 0 = 0) : done line enc i = enc := by
  have htake : line.take i = enc.take i := by
    apply List.ext_getElem (by simp [h])
    intro j hj _
    have hji : j < i := by simp at hj; omega
    simpa [show j < line.length by omega, show j < enc.length by omega, sub_eq_zero]
      using h0 j hji
  rw [done, htake, List.take_append_drop]

/-- A loop to the end of the line. -/
theorem addLoop_rest {lo : ℕ} {f : ℕ → List Byte → Except Exn Byte} (h : enc.length = line.length)
    (hlo : lo ≤ line.length) (hf : ∀ i, lo ≤ i → i < line.length →
      f i (done line enc i) = .ok (line.getD i 0 - enc.getD i 0)) :
    addLoop lo line.length f (done line enc lo) = .ok line := by
  obtain ⟨n, hn⟩ := Nat.exists_eq_add_of_le hlo
  have hloop := addLoop_done (n := n) h hn.ge (fun i hlo hi => hf i hlo (by omega))
  rw [hn, hloop, ← hn]
  simp [done, h]

theorem addLoop_from {lo : ℕ} {f : ℕ → List Byte → Except Exn Byte} (h : enc.length = line.length)
    (hlo : lo ≤ line.length) (h0 : ∀ i < lo, line.getD i 0 - enc.getD i 0 = 0)
    (hf : ∀ i, lo ≤ i → i < line.length →
      f i (done line enc i) = .ok (line.getD i 0 - enc.getD i 0)) :
    addLoop lo line.length f enc = .ok line := by
  have hrest := addLoop_rest h hlo hf
  rwa [done_eq h hlo h0] at hrest

/-- The loop over the first pixel, and the loop over the others. -/
theorem addLoop_pair {f g : ℕ → List Byte → Except Exn Byte} (h : enc.length = line.length)
    (hb : bpp ≤ line.length)
    (hf : ∀ i < bpp, f i (done line enc i) = .ok (line.getD i 0 - enc.getD i 0))
    (hg : ∀ i, bpp ≤ i → i < line.length →
      g i (done line enc i) = .ok (line.getD i 0 - enc.getD i 0)) :
    (addLoop 0 bpp f enc >>= fun line => addLoop bpp line.length g line) = .ok line := by
  have hfirst := addLoop_done (n := bpp) h (by omega) (fun i (_ : 0 ≤ i) hi => hf i (by omega))
  rw [Nat.zero_add, done_eq h (Nat.zero_le _) (by simp)] at hfirst
  rw [hfirst, ok_bind, length_done h hb, addLoop_rest h hb hg]

/-- **Each filter** gives the line from what it was filtered to. -/
theorem doFilter_filtered (fType : ℕ) (h0 : 0 < bpp) (hb : bpp ≤ line.length)
    (hp : pline.length = line.length) :
    doFilter (filtered fType bpp pline line) pline fType bpp = .ok line := by
  have h := length_filtered fType bpp pline line
  have habove : ∀ i < line.length, aget pline i = .ok (pline.getD i 0) :=
    fun i hi => aget_getD (by omega)
  -- the first pixel has none at its left
  have hfirst : ∀ i < bpp, left bpp line i = 0 ∧ left bpp pline i = 0 := by
    simp +contextual [left]
  unfold doFilter
  split
  · rw [doSubFilter, h]
    apply addLoop_from h hb
    · intro i hi
      rw [filtered_getD (by omega), predictor, (hfirst i hi).1]
    · intro i hi hl
      rw [aget_left h0 hi hl, filtered_getD hl, predictor]
  · rw [doUpFilter, h]
    apply addLoop_from h (Nat.zero_le _) (by simp)
    intro i _ hl
    rw [habove i hl, filtered_getD hl, predictor]
  · apply addLoop_pair h hb
    · intro i hi
      rw [habove i (by omega), filtered_getD (by omega), predictor, (hfirst i hi).1]
      simp
    · intro i hi hl
      rw [aget_left h0 hi hl, habove i hl, filtered_getD hl, predictor]
      simp
  · apply addLoop_pair h hb
    · intro i hi
      rw [habove i (by omega), filtered_getD (by omega), predictor, (hfirst i hi).1,
        (hfirst i hi).2, paeth_zero]
    · intro i hi hl
      rw [aget_left h0 hi hl, habove i hl, aget_left_above hp hi hl, filtered_getD hl, predictor]
      simp [paethPr_eq]
  · rw [← done_eq h le_rfl]
    · simp [done, h]
    · intro i hi
      rw [filtered_getD hi, predictor] <;> assumption

end Line

/-! ## The loader -/

/-- What `readHeader` accepts of these images. -/
structure PNGImageLoader2 where
  width : ℕ
  height : ℕ
  bitDepth : ℕ
  colorType : ℕ
  isInterlaced : Bool
  width_pos : 0 < width
  height_pos : 0 < height
  depth : bitDepth = 8 ∨ bitDepth = 16
  color : colorType ∈ [0, 2, 3, 4, 6]
  palette : colorType = 3 → bitDepth = 8
  -- the sizes fit an `int`
  line_fits : width * bitDepth * 4 + 7 < 2 ^ 31
  image_fits : width * height * 4 + 7 < 2 ^ 31

def starting_y : List ℕ := [0, 0, 4, 0, 2, 0, 1, 0]
def starting_x : List ℕ := [0, 4, 0, 2, 0, 1, 0, 0]
def increment_y : List ℕ := [8, 8, 8, 4, 4, 2, 2, 1]
def increment_x : List ℕ := [8, 8, 4, 4, 2, 2, 1, 1]

def mipSize (size mip : ℕ) (start increment : List ℕ) : ℕ :=
  (size - start.getD mip 0 + increment.getD mip 1 - 1) / increment.getD mip 1

def mipPos (pos mip : ℕ) (start increment : List ℕ) : ℕ :=
  start.getD mip 0 + pos * increment.getD mip 1

/-- The loop over pixels and their samples: of each sample of `size` bytes the first one. -/
def copySamples (size pixels : ℕ) (line image : List Byte) (pos step bpp : ℕ) :
    Except Exn (List Byte) :=
  run (fun image i =>
    run (fun image b => do
      let v ← aget line ((i * bpp + b) * size : ℕ)
      aset image (pos + i * (step * bpp) + b : ℕ) v) image (List.range bpp))
    image (List.range pixels)

def downsample16to8_plain (line image : List Byte) (pos step bpp : ℕ) : Except Exn (List Byte) :=
  copySamples 2 (line.length / 2 / bpp) line image pos step bpp

def copy_plain (line image : List Byte) (pos step bpp : ℕ) : Except Exn (List Byte) :=
  copySamples 1 (line.length / bpp) line image pos step bpp

def copy (line image : List Byte) (pos step resultBpp : ℕ) : Except Exn (List Byte) :=
  if step = 1 then arraycopy line 0 image pos line.length
  else copy_plain line image pos step resultBpp

namespace PNGImageLoader2

variable (png : PNGImageLoader2)

/-- `numBandsPerColorType[colorType]`. -/
def bpp : ℕ := [1, 0, 3, 1, 2, 0, 4].getD png.colorType 0

def bytesPerColor : ℕ := if png.bitDepth = 16 then 2 else 1

def mipWidth (mip : ℕ) : ℕ := mipSize png.width mip starting_x increment_x

def mipHeight (mip : ℕ) : ℕ := mipSize png.height mip starting_y increment_y

def scanLineSize (mip : ℕ) : ℕ := (png.mipWidth mip * png.bitDepth * png.bpp + 7) / 8

end PNGImageLoader2

/-- The variables of the loop of `loadMip`. -/
structure MipState where
  scanLine0 : List Byte
  scanLine1 : List Byte
  image : List Byte
  data : List Byte

namespace PNGImageLoader2

variable (png : PNGImageLoader2)

def pos (mip y : ℕ) : ℕ :=
  (mipPos y mip starting_y increment_y * png.width + starting_x.getD mip 0) * png.bpp

/-- What the loop of `loadMip` does with a line behind its filter. -/
def putLine (line image : List Byte) (mip y : ℕ) : Except Exn (List Byte) :=
  let step := increment_x.getD mip 1
  if png.bitDepth = 16 then downsample16to8_plain line image (png.pos mip y) step png.bpp
  else copy line image (png.pos mip y) step png.bpp

/-- A turn of the loop of `loadMip`, which swaps the lines. -/
def loadLine (mip : ℕ) (s : MipState) (y : ℕ) : Except Failure MipState :=
  match s.data with
  | [] => .error .io
  | filterByte :: data => do
      let size := s.scanLine0.length
      if data.length < size then .error .io
      else
        let line ← (doFilter (data.take size) s.scanLine1 filterByte.val
          (png.bpp * png.bytesPerColor)).mapError .exception
        let image ← (png.putLine line s.image mip y).mapError .exception
        .ok ⟨s.scanLine1, line, image, data.drop size⟩

/-- `loadMip`, with the image and what is left of the data. -/
def loadMip (image data : List Byte) (mip : ℕ) : Except Failure (List Byte × List Byte) := do
  let zeros := List.replicate (png.scanLineSize mip) 0
  let s ← run (png.loadLine mip) ⟨zeros, zeros, image, data⟩ (List.range (png.mipHeight mip))
  .ok (s.image, s.data)

/-- The passes that `load` makes. -/
def mips : List ℕ :=
  if png.isInterlaced then (List.range 7).filter fun mip =>
    starting_x.getD mip 0 < png.width ∧ starting_y.getD mip 0 < png.height
  else [7]

/-- `load(image, data)`. -/
def load (image data : List Byte) : Except Failure (List Byte × List Byte) :=
  run (fun s mip => png.loadMip s.1 s.2 mip) (image, data) png.mips

/-! ### What the format says -/

/-- The place in the image of a sample of a line of a pass. -/
def place (mip y n : ℕ) : ℕ :=
  (mipPos y mip starting_y increment_y * png.width +
    mipPos (n / png.bpp) mip starting_x increment_x) * png.bpp + n % png.bpp

/-- The size of the image. -/
def size : ℕ := png.width * png.height * png.bpp

/-- The places of a line of a pass. -/
def places (mip y : ℕ) : Set ℕ :=
  {j | ∃ n < png.mipWidth mip * png.bpp, j = png.place mip y n}

/-- A line of samples, which are one byte or two. -/
def line (samples : ℕ → Byte × Byte) (mip y : ℕ) : List Byte :=
  (List.range (png.mipWidth mip * png.bpp * png.bytesPerColor)).map fun j =>
    let sample := samples (png.place mip y (j / png.bytesPerColor))
    if j % png.bytesPerColor = 0 then sample.1 else sample.2

/-- The line above in the same pass. -/
def lineAbove (samples : ℕ → Byte × Byte) (mip : ℕ) : ℕ → List Byte
  | 0 => List.replicate (png.scanLineSize mip) 0
  | y + 1 => png.line samples mip y

/-- A line behind its filter. -/
def serialisedLine (samples : ℕ → Byte × Byte) (filters : ℕ → ℕ → Byte) (mip y : ℕ) :
    List Byte :=
  filters mip y :: filtered (filters mip y).val (png.bpp * png.bytesPerColor)
    (png.lineAbove samples mip y) (png.line samples mip y)

def serialisedMip (samples : ℕ → Byte × Byte) (filters : ℕ → ℕ → Byte) (mip : ℕ) : List Byte :=
  (List.range (png.mipHeight mip)).flatMap (png.serialisedLine samples filters mip)

def serialised (samples : ℕ → Byte × Byte) (filters : ℕ → ℕ → Byte) : List Byte :=
  png.mips.flatMap (png.serialisedMip samples filters)

end PNGImageLoader2

/-! ## The passes -/

theorem increment_pos {increment : List ℕ} (h : ∀ c ∈ increment, 0 < c) (mip : ℕ) :
    0 < increment.getD mip 1 := by
  rw [List.getD_eq_getElem?_getD]
  cases hc : increment[mip]? with
  | none => simp
  | some c => exact h c (List.mem_of_getElem? hc)

/-- A pass has the places that lie in the image. -/
theorem lt_mipSize {pos size mip : ℕ} {start increment : List ℕ}
    (h : ∀ c ∈ increment, 0 < c) :
    pos < mipSize size mip start increment ↔ mipPos pos mip start increment < size := by
  have hc := increment_pos h mip
  rw [mipSize, mipPos, Nat.lt_iff_add_one_le, Nat.le_div_iff_mul_le hc, Nat.add_mul, Nat.one_mul]
  omega

/-- Each of the first eight by eight pixels is in a pass. -/
theorem adam7 : ∀ x y : Fin 8, ∃ mip : Fin 7,
    x.val % increment_x.getD mip 1 = starting_x.getD mip 0 ∧
    y.val % increment_y.getD mip 1 = starting_y.getD mip 0 := by
  decide

theorem mipPos_div {x mip : ℕ} {start increment : List ℕ} (h8 : increment.getD mip 1 ∣ 8)
    (hx : x % 8 % increment.getD mip 1 = start.getD mip 0) :
    mipPos (x / increment.getD mip 1) mip start increment = x := by
  rw [mipPos, ← hx, Nat.mod_mod_of_dvd _ h8, Nat.mod_add_div']

namespace PNGImageLoader2

variable (png : PNGImageLoader2)

/-- **Every pixel** is in a pass. -/
theorem exists_mip {x y : ℕ} (hx : x < png.width) (hy : y < png.height) :
    ∃ mip ∈ png.mips, ∃ i < png.mipWidth mip, ∃ j < png.mipHeight mip,
      mipPos i mip starting_x increment_x = x ∧ mipPos j mip starting_y increment_y = y := by
  obtain ⟨mip, hmip, hx8, hy8, hpx, hpy⟩ :
      ∃ mip ∈ (if png.isInterlaced then List.range 7 else [7]), increment_x.getD mip 1 ∣ 8 ∧
        increment_y.getD mip 1 ∣ 8 ∧ x % 8 % increment_x.getD mip 1 = starting_x.getD mip 0 ∧
        y % 8 % increment_y.getD mip 1 = starting_y.getD mip 0 := by
    split
    · obtain ⟨mip, hpx, hpy⟩ := adam7 ⟨x % 8, by omega⟩ ⟨y % 8, by omega⟩
      have h8 : ∀ mip : Fin 7, increment_x.getD mip 1 ∣ 8 ∧ increment_y.getD mip 1 ∣ 8 := by decide
      exact ⟨mip, by simp, (h8 mip).1, (h8 mip).2, hpx, hpy⟩
    · exact ⟨7, by simp, by simp [increment_x], by simp [increment_y],
        by simp [increment_x, starting_x, Nat.mod_one],
        by simp [increment_y, starting_y, Nat.mod_one]⟩
  have hi := mipPos_div hx8 hpx
  have hj := mipPos_div hy8 hpy
  refine ⟨mip, ?_, _, (lt_mipSize (by decide)).mpr (hi.trans_lt hx), _,
    (lt_mipSize (by decide)).mpr (hj.trans_lt hy), hi, hj⟩
  unfold mips
  split at hmip
  · simp only [mipPos] at hi hj
    rw [if_pos ‹_›, List.mem_filter]
    exact ⟨hmip, decide_eq_true ⟨by omega, by omega⟩⟩
  · rw [if_neg ‹_›]
    exact hmip

theorem start_lt {mip : ℕ} (h : mip ∈ png.mips) :
    starting_x.getD mip 0 < png.width ∧ starting_y.getD mip 0 < png.height := by
  unfold mips at h
  split at h
  · simpa using (List.mem_filter.mp h).2
  · rw [List.mem_singleton.mp h]
    exact ⟨png.width_pos, png.height_pos⟩

theorem bpp_pos : 0 < png.bpp :=
  (by decide : ∀ c ∈ [0, 2, 3, 4, 6], 0 < [1, 0, 3, 1, 2, 0, 4].getD c 0) _ png.color

theorem place_mul_add (mip y i : ℕ) {b : ℕ} (hb : b < png.bpp) :
    png.place mip y (i * png.bpp + b) =
      (mipPos y mip starting_y increment_y * png.width +
        mipPos i mip starting_x increment_x) * png.bpp + b := by
  rw [place, Nat.add_comm (i * _), Nat.add_mul_div_right _ _ png.bpp_pos, Nat.div_eq_of_lt hb,
    Nat.add_mul_mod_self_right, Nat.mod_eq_of_lt hb, Nat.zero_add]

/-- **Every byte** of the image is in a line of a pass. -/
theorem exists_mem_places {i : ℕ} (hi : i < png.size) : ∃ mip ∈ png.mips,
    ∃ y < png.mipHeight mip, i ∈ png.places mip y := by
  have hbpp := png.bpp_pos
  have hq : i / png.bpp < png.width * png.height :=
    Nat.div_lt_of_lt_mul (by rwa [Nat.mul_comm])
  obtain ⟨mip, hmip, x, hx, y, hy, hpx, hpy⟩ := png.exists_mip
    (Nat.mod_lt (i / png.bpp) png.width_pos) (Nat.div_lt_of_lt_mul hq)
  have hb := Nat.mod_lt i hbpp
  refine ⟨mip, hmip, y, hy, x * png.bpp + i % png.bpp, by nlinarith, ?_⟩
  rw [png.place_mul_add _ _ _ hb, hpx, hpy, Nat.div_add_mod', Nat.div_add_mod']

end PNGImageLoader2

/-! ## The image -/

/-- The image has its bytes at these places. -/
structure Filled (target : ℕ → Byte) (size : ℕ) (places : Set ℕ) (image : List Byte) : Prop where
  length : image.length = size
  get : ∀ i ∈ places, i < size → image[i]? = some (target i)

section Image

variable {target : ℕ → Byte} {size : ℕ} {places : Set ℕ} {image : List Byte}

theorem Filled.mono {more : Set ℕ} (h : Filled target size more image) (hle : places ⊆ more) :
    Filled target size places image :=
  ⟨h.length, fun i hi => h.get i (hle hi)⟩

/-- **A run** of steps, each of which fills some places, fills them all. -/
theorem filled_run {ε A : Type} {step : List Byte → A → Except ε (List Byte)} {as : List A}
    {fills : A → Set ℕ}
    (hstep : ∀ a ∈ as, ∀ places image, Filled target size places image →
      ∃ image', step image a = .ok image' ∧ Filled target size (places ∪ fills a) image')
    (h : Filled target size places image) :
    ∃ image', run step image as = .ok image' ∧
      Filled target size (places ∪ {i | ∃ a ∈ as, i ∈ fills a}) image' := by
  induction as generalizing places image with
  | nil => exact ⟨image, rfl, by simpa using h⟩
  | cons a as ih =>
    obtain ⟨image', hrun, h'⟩ := hstep a List.mem_cons_self places image h
    obtain ⟨image'', hrun', h''⟩ := ih (fun b hb => hstep b (List.mem_cons_of_mem _ hb)) h'
    refine ⟨image'', (run_cons_ok hrun).trans hrun', h''.mono ?_⟩
    intro i hi
    simpa [or_assoc] using hi

theorem Filled.aset (h : Filled target size places image) {i : ℕ} (hi : i < size) :
    ∃ image', aset image i (target i) = .ok image' ∧
      Filled target size (places ∪ {i}) image' := by
  refine ⟨image.set i (target i), aset_ok _ (h.length ▸ hi), by simp [h.length], ?_⟩
  intro j hj hjs
  by_cases hij : i = j
  · subst hij
    simp [h.length, hjs]
  · rw [List.getElem?_set_ne hij]
    exact h.get j (by simpa [Ne.symm hij] using hj) hjs

theorem Filled.copySamples (h : Filled target size places image) {k pixels pos step bpp : ℕ}
    {line : List Byte} (hline : ∀ i < pixels, ∀ b < bpp,
      (line)[(i * bpp + b) * k]? = some (target (pos + i * (step * bpp) + b)) ∧
        pos + i * (step * bpp) + b < size) :
    ∃ image', copySamples k pixels line image pos step bpp = .ok image' ∧
      Filled target size (places ∪ {j | ∃ i < pixels, ∃ b < bpp,
        j = pos + i * (step * bpp) + b}) image' := by
  have hsample : ∀ i < pixels, ∀ b ∈ List.range bpp, ∀ places image,
      Filled target size places image → ∃ image',
        (do let v ← aget line ((i * bpp + b) * k : ℕ)
            Lib.aset image (pos + i * (step * bpp) + b : ℕ) v) = .ok image' ∧
          Filled target size (places ∪ {pos + i * (step * bpp) + b}) image' := by
    intro i hi b hb places image h
    obtain ⟨hget, hlt⟩ := hline i hi b (List.mem_range.mp hb)
    rw [aget_ok hget, ok_bind]
    exact h.aset hlt
  obtain ⟨image', hrun, h'⟩ := filled_run
    (fun i hi _ _ h => filled_run (hsample i (List.mem_range.mp hi)) h) h
  refine ⟨image', hrun, h'.mono ?_⟩
  simp

theorem Filled.arraycopy (h : Filled target size places image) {pos : ℕ} {line : List Byte}
    (hline : ∀ i < line.length, (line)[i]? = some (target (pos + i)))
    (hlt : pos + line.length ≤ size) :
    ∃ image', arraycopy line 0 image pos line.length = .ok image' ∧
      Filled target size (places ∪ {j | ∃ i < line.length, j = pos + i}) image' := by
  refine ⟨_, arraycopy_ok (by simp) (h.length ▸ hlt), by simp [h.length]; omega, ?_⟩
  intro j hj hjs
  have hlength := h.length
  by_cases hin : pos ≤ j ∧ j < pos + line.length
  · have hget := hline (j - pos) (by omega)
    grind
  · have hget := h.get j (hj.resolve_right (by rintro ⟨i, hi, rfl⟩; omega)) hjs
    rw [List.getElem?_append, List.getElem?_append]
    split <;> grind

end Image

/-! ## The lines -/

namespace PNGImageLoader2

variable (png : PNGImageLoader2) (samples : ℕ → Byte × Byte) {mip y : ℕ}

/-- The image has the samples of these places. -/
abbrev Shows (done : Set ℕ) (image : List Byte) : Prop :=
  Filled (fun i => (samples i).1) png.size done image

theorem bytesPerColor_pos : 0 < png.bytesPerColor := by
  unfold bytesPerColor
  split <;> simp

theorem length_line (mip y : ℕ) : (png.line samples mip y).length =
    png.mipWidth mip * png.bpp * png.bytesPerColor := by
  simp [line]

theorem scanLineSize_eq : png.scanLineSize mip =
    png.mipWidth mip * png.bpp * png.bytesPerColor := by
  rw [scanLineSize, Nat.mul_right_comm, bytesPerColor]
  rcases png.depth with h | h <;> simp [h] <;> omega

theorem length_lineAbove (y : ℕ) :
    (png.lineAbove samples mip y).length = png.scanLineSize mip := by
  cases y <;> simp [lineAbove, length_line, scanLineSize_eq]

theorem getElem_line {n : ℕ} (hn : n < png.mipWidth mip * png.bpp) :
    (png.line samples mip y)[n * png.bytesPerColor]? =
      some (samples (png.place mip y n)).1 := by
  have hpos := png.bytesPerColor_pos
  simp [line, Nat.mul_lt_mul_of_pos_right hn hpos, Nat.mul_div_cancel _ hpos]

theorem place_lt {n : ℕ} (hn : n < png.mipWidth mip * png.bpp)
    (hy : y < png.mipHeight mip) : png.place mip y n < png.size := by
  have hi : n / png.bpp < png.mipWidth mip :=
    Nat.div_lt_of_lt_mul (by rwa [Nat.mul_comm] at hn)
  rw [mipWidth, lt_mipSize (by decide)] at hi
  rw [mipHeight, lt_mipSize (by decide)] at hy
  have hb := Nat.mod_lt n png.bpp_pos
  rw [place, size]
  nlinarith [Nat.mul_le_mul_right png.width hy]

theorem place_sample {i b : ℕ} (hb : b < png.bpp) :
    png.place mip y (i * png.bpp + b) =
      png.pos mip y + i * (increment_x.getD mip 1 * png.bpp) + b := by
  rw [place_mul_add _ _ _ _ hb, pos, mipPos, mipPos]
  ring

variable {png samples} {image : List Byte} {done : Set ℕ}

/-- The loop over the samples of a line. -/
theorem copySamples_line (hy : y < png.mipHeight mip)
    (h : png.Shows samples done image) :
    ∃ image', copySamples png.bytesPerColor (png.mipWidth mip) (png.line samples mip y) image
        (png.pos mip y) (increment_x.getD mip 1) png.bpp = .ok image' ∧
      png.Shows samples (done ∪ png.places mip y) image' := by
  obtain ⟨image', hcopy, h'⟩ := h.copySamples
    (fun i (hi : i < png.mipWidth mip) b (hb : b < png.bpp) => by
      have hn : i * png.bpp + b < png.mipWidth mip * png.bpp := by nlinarith
      rw [← png.place_sample hb]
      exact ⟨png.getElem_line samples hn, png.place_lt hn hy⟩)
  refine ⟨image', hcopy, h'.mono (Set.union_subset_union_right _ ?_)⟩
  rintro _ ⟨n, hn, rfl⟩
  have hb := Nat.mod_lt n png.bpp_pos
  refine ⟨n / png.bpp, Nat.div_lt_of_lt_mul (by rwa [Nat.mul_comm] at hn), _, hb, ?_⟩
  rw [← png.place_sample hb, Nat.div_add_mod']

theorem filled_putLine (hw : 0 < png.mipWidth mip) (hy : y < png.mipHeight mip)
    (h : png.Shows samples done image) :
    ∃ image', png.putLine (png.line samples mip y) image mip y = .ok image' ∧
      png.Shows samples (done ∪ png.places mip y) image' := by
  have hsamples := copySamples_line hy h
  have hlength := png.length_line samples mip y
  have hbpp := png.bpp_pos
  unfold putLine
  split
  · have hk : png.bytesPerColor = 2 := if_pos ‹_›
    rw [hk] at hlength hsamples
    rw [downsample16to8_plain, hlength, Nat.mul_div_cancel _ two_pos, Nat.mul_div_cancel _ hbpp]
    exact hsamples
  · have hk : png.bytesPerColor = 1 := if_neg ‹_›
    rw [hk, Nat.mul_one] at hlength
    simp only [copy]
    split
    next hstep =>
      -- the line lies in the image as it is
      have hplace : ∀ n, png.place mip y n = png.pos mip y + n := by
        intro n
        rw [← Nat.div_add_mod' n png.bpp, png.place_sample (Nat.mod_lt n hbpp), hstep]
        ring
      obtain ⟨image', hcopy, h'⟩ := h.arraycopy (fun n hn => by
        rw [← hplace, ← png.getElem_line samples (hlength ▸ hn), hk, Nat.mul_one]) (by
          have hpos := Nat.mul_pos hw hbpp
          have hlast := png.place_lt (Nat.sub_lt hpos one_pos) hy
          rw [hplace] at hlast
          omega)
      refine ⟨image', hcopy, h'.mono (Set.union_subset_union_right _ ?_)⟩
      rintro _ ⟨n, hn, rfl⟩
      exact ⟨n, hlength.symm ▸ hn, hplace n⟩
    next =>
      rw [hk] at hsamples
      rw [copy_plain, hlength, Nat.mul_div_cancel _ hbpp]
      exact hsamples

/-- A turn of the loop of `loadMip`. -/
theorem loadLine_serialised (filters : ℕ → ℕ → Byte) (rest : List Byte) {scanLine0 : List Byte}
    (hw : 0 < png.mipWidth mip) (hy : y < png.mipHeight mip)
    (h0 : scanLine0.length = png.scanLineSize mip)
    (h : png.Shows samples done image) :
    ∃ image', png.loadLine mip ⟨scanLine0, png.lineAbove samples mip y, image,
        png.serialisedLine samples filters mip y ++ rest⟩ y =
          .ok ⟨png.lineAbove samples mip y, png.line samples mip y, image', rest⟩ ∧
      png.Shows samples (done ∪ png.places mip y) image' := by
  obtain ⟨image', hput, h'⟩ := filled_putLine hw hy h
  have hlength : (png.line samples mip y).length = png.scanLineSize mip := by
    rw [length_line, scanLineSize_eq]
  have hfilter := doFilter_filtered (filters mip y).val
    (Nat.mul_pos png.bpp_pos png.bytesPerColor_pos)
    (by rw [length_line, Nat.mul_assoc]; exact Nat.le_mul_of_pos_left _ hw)
    ((png.length_lineAbove samples y).trans hlength.symm)
  refine ⟨image', ?_, h'⟩
  simp only [loadLine, serialisedLine, List.cons_append]
  rw [if_neg (by simp [length_filtered, h0, hlength]),
    List.take_left' (by rw [length_filtered, h0, hlength]),
    List.drop_left' (by rw [length_filtered, h0, hlength]), hfilter]
  simp only [Except.mapError, ok_bind, hput]

/-- **A pass.** -/
theorem loadMip_serialised (filters : ℕ → ℕ → Byte) (rest : List Byte)
    (hw : 0 < png.mipWidth mip)
    (h : png.Shows samples done image) :
    ∃ image', png.loadMip image (png.serialisedMip samples filters mip ++ rest) mip =
        .ok (image', rest) ∧
      png.Shows samples (done ∪ {i | ∃ y < png.mipHeight mip, i ∈ png.places mip y})
        image' := by
  have hrun : ∀ n ≤ png.mipHeight mip, ∀ rest, ∃ scanLine0 image',
      run (png.loadLine mip) ⟨List.replicate (png.scanLineSize mip) 0,
        List.replicate (png.scanLineSize mip) 0, image,
        (List.range n).flatMap (png.serialisedLine samples filters mip) ++ rest⟩ (List.range n) =
          .ok ⟨scanLine0, png.lineAbove samples mip n, image', rest⟩ ∧
      scanLine0.length = png.scanLineSize mip ∧
      png.Shows samples (done ∪ {i | ∃ y < n, i ∈ png.places mip y}) image' := by
    intro n
    induction n with
    | zero => exact fun _ rest => ⟨_, image, rfl, by simp, by simpa using h⟩
    | succ n ih =>
      intro hn rest
      obtain ⟨scanLine0, image', hrun, h0, h'⟩ :=
        ih (by omega) (png.serialisedLine samples filters mip n ++ rest)
      obtain ⟨image'', hline, h''⟩ :=
        loadLine_serialised filters rest hw hn h0 h'
      refine ⟨_, image'', ?_, png.length_lineAbove samples n, h''.mono ?_⟩
      · rw [List.range_succ, List.flatMap_append, List.flatMap_singleton, List.append_assoc,
          run_append_ok hrun, run_singleton, hline, lineAbove]
      · rintro i (hi | ⟨y, hy, hi⟩)
        · exact .inl (.inl hi)
        · rcases Nat.lt_succ_iff_lt_or_eq.mp hy with hy | rfl
          · exact .inl (.inr ⟨y, hy, hi⟩)
          · exact .inr hi
  obtain ⟨scanLine0, image', hrun, -, h'⟩ := hrun _ le_rfl rest
  exact ⟨image', by rw [loadMip, serialisedMip, hrun, ok_bind], h'⟩

end PNGImageLoader2

end JavaFx.Iio.PNG
