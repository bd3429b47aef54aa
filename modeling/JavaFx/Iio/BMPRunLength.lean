/-
Run-length encoded bitmaps.

A bitmap is a sequence of records that move a position and paint pixels from it on (`plots`).
`readRLE` paints the same indices in the same order, but a delta moves it the wrong way: after
deltas of `d` rows in all it is `2 * d` rows further up (`records_eq`).
-/
import JavaFx.Iio.BMPImageLoader
import Mathlib.Data.List.Induction
import Mathlib.Tactic.Linarith

set_option autoImplicit false

namespace JavaFx.Iio.BMP

open JavaFx.Lib

/-! ## Records -/

/-- The number of bytes of an absolute run of `n` pixels. -/
def packed (isRLE4 : Bool) (n : ℕ) : ℕ := if isRLE4 then (n + 1) / 2 else n

/-- A record; an absolute run is padded to words. -/
inductive Record (isRLE4 : Bool)
  | encoded (n b : Byte) (h : n ≠ 0)
  | absolute (n : Byte) (bytes pad : List Byte)
      (h : 3 ≤ n.val ∧ bytes.length = packed isRLE4 n.val ∧ pad.length = bytes.length % 2)
  | endOfLine
  | delta (dx dy : Byte)

/-- The records of a bitmap, and perhaps the end of the bitmap with what follows it. -/
structure Bitmap (isRLE4 : Bool) where
  records : List (Record isRLE4)
  ending : Option (List Byte)

variable {isRLE4 : Bool}

def Record.bytes : Record isRLE4 → List Byte
  | .encoded n b _ => [n, b]
  | .absolute n bytes pad _ => 0 :: n :: (bytes ++ pad)
  | .endOfLine => [0, 0]
  | .delta dx dy => [0, 2, dx, dy]

def Bitmap.bytes (b : Bitmap isRLE4) : List Byte :=
  b.records.flatMap Record.bytes ++ b.ending.elim [] fun junk => 0 :: 1 :: junk

/-- The palette index of pixel `p` in the bytes of a run. -/
def indexAt (isRLE4 : Bool) (bytes : List Byte) (p : ℕ) : ℕ :=
  if isRLE4 then
    if p % 2 = 0 then (bytes.getD (p / 2) 0).val / 16 else (bytes.getD (p / 2) 0).val % 16
  else (bytes.getD p 0).val

/-- The palette indices that a record paints. -/
def Record.indices : Record isRLE4 → List ℕ
  | .encoded n b _ => (List.range n.val).map fun p =>
    if isRLE4 then if p % 2 = 0 then b.val / 16 else b.val % 16 else b.val
  | .absolute n bytes _ _ => (List.range n.val).map (indexAt isRLE4 bytes)
  | .endOfLine => []
  | .delta _ _ => []

/-- Where the records are: `x` pixels from the left, `k` rows in the direction of decoding,
`d` of them by deltas. -/
structure Cursor where
  x : ℕ
  k : ℕ
  d : ℕ

def Record.move (c : Cursor) : Record isRLE4 → Cursor
  | .encoded n _ _ => { c with x := c.x + n.val }
  | .absolute n _ _ _ => { c with x := c.x + n.val }
  | .endOfLine => ⟨0, c.k + 1, c.d⟩
  | .delta dx dy => ⟨c.x + dx.val, c.k + dy.val, c.d + dy.val⟩

/-- A pixel that is painted, and what it is painted with. -/
structure Plot where
  at_ : Cursor
  index : ℕ

/-- The pixels of a run. -/
def runFrom (c : Cursor) : List ℕ → List Plot
  | [] => []
  | i :: is => ⟨c, i⟩ :: runFrom { c with x := c.x + 1 } is

/-- The pixels that the records describe, in turn. -/
def plots : Cursor → List (Record isRLE4) → List Plot
  | _, [] => []
  | c, r :: rs => runFrom c r.indices ++ plots (r.move c) rs

/-! ## Runs -/

section Runs

variable (palette : List Byte)

/-- The pixels of a run, one after the other. -/
def paintRun (is : List ℕ) (s : List Byte × ℤ) : Except Failure (List Byte × ℤ) :=
  is.foldlM (fun s i => setRGBFromPalette palette s.1 s.2 i) s

theorem encodedRun_eq (isRLE4 : Bool) (b : Byte) (n p : ℕ) (s : List Byte × ℤ) :
    encodedRun palette isRLE4 b n p s = paintRun palette ((List.range' p n).map fun p =>
      if isRLE4 then if p % 2 = 0 then b.val / 16 else b.val % 16 else b.val) s := by
  induction n generalizing p s with
  | zero => rfl
  | succ n ih =>
    rw [encodedRun, List.range'_succ, List.map_cons, paintRun, List.foldlM_cons]
    exact congrArg _ (funext fun s => ih (p + 1) s)

/-- The bytes of an absolute run are read as far as its pixels go. -/
theorem absoluteRun_eq (isRLE4 : Bool) (bytes rest : List Byte) (n p indexData : ℕ) (data : List Byte)
    (s : List Byte × ℤ)
    (hlength : bytes.length = packed isRLE4 (p + n))
    (hdata : data = bytes.drop (packed isRLE4 p) ++ rest)
    (hindex : isRLE4 = true → p % 2 = 1 → indexData = (bytes.getD (p / 2) 0).val) :
    absoluteRun palette isRLE4 n p indexData data s
      = (paintRun palette ((List.range' p n).map (indexAt isRLE4 bytes)) s).map (rest, ·) := by
  induction n generalizing p indexData data s with
  | zero =>
    rw [Nat.add_zero] at hlength
    rw [hdata, ← hlength, List.drop_length, List.nil_append]
    rfl
  | succ n ih =>
    have hlength' : bytes.length = packed isRLE4 (p + 1 + n) := by
      rw [hlength]
      congr 1
      omega
    have hrest : ∀ (indexData : ℕ) (data : List Byte),
        data = bytes.drop (packed isRLE4 (p + 1)) ++ rest →
        (isRLE4 = true → (p + 1) % 2 = 1 → indexData = (bytes.getD ((p + 1) / 2) 0).val) →
        (setRGBFromPalette palette s.1 s.2 (indexAt isRLE4 bytes p) >>= fun s =>
            absoluteRun palette isRLE4 n (p + 1) indexData data s)
          = (paintRun palette ((List.range' p (n + 1)).map (indexAt isRLE4 bytes)) s).map
            (rest, ·) := by
      intro indexData data hdata hindex
      rw [List.range'_succ, List.map_cons, paintRun, List.foldlM_cons]
      cases hset : setRGBFromPalette palette s.1 s.2 (indexAt isRLE4 bytes p) with
      | error e => rfl
      | ok s' => exact ih (p + 1) indexData data s' hlength' hdata hindex
    by_cases hodd : isRLE4 ∧ p % 2 = 1
    · -- the second pixel of a byte
      have hat : indexAt isRLE4 bytes p = indexData % 16 := by
        rw [indexAt, if_pos hodd.1, if_neg (by omega), hindex hodd.1 hodd.2]
      rw [← hrest indexData data, hat, absoluteRun.eq_def]
      · exact if_pos hodd
      · rw [hdata]
        congr 2
        rw [packed, packed, if_pos hodd.1, if_pos hodd.1]
        omega
      · intro _ hodd'
        omega
    · -- the first pixel of a byte, or the only one
      have heven : isRLE4 = true → p % 2 = 0 := by
        intro h4
        by_contra hne
        exact hodd ⟨h4, by omega⟩
      have hpacked : packed isRLE4 p < bytes.length := by
        rw [hlength, packed, packed]
        split
        · next h4 =>
          have := heven h4
          omega
        · omega
      have hnext : packed isRLE4 (p + 1) = packed isRLE4 p + 1 := by
        rw [packed, packed]
        split
        · next h4 =>
          have := heven h4
          omega
        · rfl
      have hget : bytes.getD (packed isRLE4 p) 0 = bytes[packed isRLE4 p] := by simp [hpacked]
      rw [hdata, List.drop_eq_getElem_cons hpacked, List.cons_append, absoluteRun.eq_def]
      dsimp only
      rw [if_neg hodd, ← hget]
      have hat : (if isRLE4 then (bytes.getD (packed isRLE4 p) 0).val / 16
          else (bytes.getD (packed isRLE4 p) 0).val) = indexAt isRLE4 bytes p := by
        rw [indexAt, packed]
        split
        · next h4 =>
          have hhalf : (p + 1) / 2 = p / 2 := by
            have := heven h4
            omega
          rw [if_pos (heven h4), hhalf]
        · rfl
      rw [hat]
      apply hrest
      · rw [hnext]
      · intro h4 _
        have hhalf : packed isRLE4 p = (p + 1) / 2 := if_pos h4
        rw [hhalf]

end Runs

/-! ## Where the pixels are painted -/

theorem toInt_toInt_add (i j : ℤ) : toInt (toInt i + j) = toInt (i + j) := Int.bmod_add_bmod

theorem toInt_add_toInt (i j : ℤ) : toInt (i + toInt j) = toInt (i + j) := Int.add_bmod_bmod

theorem toInt_mul (i j : ℤ) : toInt (toInt i * j) = toInt (i * j) := Int.bmod_mul_bmod

theorem toInt_of_lt {i : ℤ} (h0 : 0 ≤ i) (h : i < 2 ^ 31) : toInt i = i :=
  Int.bmod_eq_of_le (by norm_num; omega) (by norm_num; omega)

section Painting

variable (palette : List Byte) (w h : ℕ)

/-- The row of the position as `readRLE` has it. -/
def lineOf (c : Cursor) : ℤ := h - 1 - c.k + 2 * c.d

/-- The offset of the position as `readRLE` has it. -/
def offsetOf (c : Cursor) : ℤ := 3 * (c.x + w * lineOf h c)

/-- A pixel is painted. -/
def plot (image : List Byte) (q : Plot) : Except Failure (List Byte) :=
  (setRGBFromPalette palette image (toInt (offsetOf w h q.at_)) q.index).map Prod.fst

theorem setRGBFromPalette_eq (image : List Byte) (dstOffset : ℤ) (index : ℕ) :
    setRGBFromPalette palette image dstOffset index
      = ((setRGBFromPalette palette image dstOffset index).map Prod.fst).map
        (·, toInt (dstOffset + 3)) := by
  have hthree : toInt (toInt (toInt (dstOffset + 1) + 1) + 1) = toInt (dstOffset + 3) := by
    rw [toInt_toInt_add, add_assoc, toInt_toInt_add, add_assoc]
    rfl
  rw [setRGBFromPalette]
  dsimp only
  rw [hthree]
  cases exn (aget palette (4 * index + 2 : ℕ)) with
  | error e => rfl
  | ok red =>
    simp only [ok_bind]
    cases exn (aset image dstOffset red) with
    | error e => rfl
    | ok image =>
      simp only [ok_bind]
      cases exn (aget palette (4 * index + 1 : ℕ)) with
      | error e => rfl
      | ok green =>
        simp only [ok_bind]
        cases exn (aset image (toInt (dstOffset + 1)) green) with
        | error e => rfl
        | ok image =>
          simp only [ok_bind]
          cases exn (aget palette (4 * index : ℕ)) with
          | error e => rfl
          | ok blue =>
            simp only [ok_bind]
            cases exn (aset image (toInt (toInt (dstOffset + 1) + 1)) blue) <;> rfl

theorem paintRun_eq (is : List ℕ) (c : Cursor) (image : List Byte) :
    paintRun palette is (image, toInt (offsetOf w h c))
      = ((runFrom c is).foldlM (plot palette w h) image).map
        (·, toInt (offsetOf w h { c with x := c.x + is.length })) := by
  induction is generalizing c image with
  | nil => rfl
  | cons i is ih =>
    have hnext : toInt (toInt (offsetOf w h c) + 3) = toInt (offsetOf w h { c with x := c.x + 1 }) := by
      rw [toInt_toInt_add, offsetOf, offsetOf, lineOf, lineOf]
      congr 1
      push_cast
      ring
    have hlength : c.x + 1 + is.length = c.x + (i :: is).length := by
      rw [List.length_cons]
      omega
    rw [paintRun, List.foldlM_cons, runFrom, List.foldlM_cons, setRGBFromPalette_eq, hnext]
    change ((plot palette w h image ⟨c, i⟩).map _ >>= _) = _
    cases plot palette w h image ⟨c, i⟩ with
    | error e => rfl
    | ok image' =>
      have hrest := ih { c with x := c.x + 1 } image'
      rw [hlength] at hrest
      exact hrest

/-- A run, of which the offset behind it is known. -/
theorem paintRun_bind {α : Type} (is : List ℕ) (c : Cursor) (image : List Byte)
    (next : List Byte × ℤ → Except Failure α) :
    (paintRun palette is (image, toInt (offsetOf w h c)) >>= next)
      = (runFrom c is).foldlM (plot palette w h) image >>= fun image =>
        next (image, toInt (offsetOf w h { c with x := c.x + is.length })) := by
  rw [paintRun_eq]
  cases (runFrom c is).foldlM (plot palette w h) image <;> rfl

theorem indices_length (r : Record isRLE4) (c : Cursor) (hrun : r.indices ≠ []) :
    r.move c = { c with x := c.x + r.indices.length } := by
  cases r with
  | encoded n b hn => simp [Record.move, Record.indices]
  | absolute n bytes pad hn => simp [Record.move, Record.indices]
  | endOfLine => exact absurd rfl hrun
  | delta dx dy => exact absurd rfl hrun

theorem two_le_length (r : Record isRLE4) : 2 ≤ r.bytes.length := by
  cases r <;> simp [Record.bytes]

/-- **The records** are decoded as what they describe, but at the rows of `lineOf`. -/
theorem records_eq (b : Bitmap isRLE4) (c : Cursor) (image : List Byte) {rounds : ℕ}
    (hrounds : b.bytes.length ≤ rounds) :
    records palette isRLE4 true (3 * w) rounds b.bytes (toInt (lineOf h c))
        (image, toInt (offsetOf w h c))
      = (plots c b.records).foldlM (plot palette w h) image := by
  obtain ⟨rs, ending⟩ := b
  induction rs generalizing c image rounds with
  | nil =>
    cases ending with
    | none => cases rounds <;> rfl
    | some junk =>
      cases rounds with
      | zero => exact absurd hrounds (Nat.not_succ_le_zero _)
      | succ rounds => rfl
  | cons r rs ih =>
    have hbytes : (⟨r :: rs, ending⟩ : Bitmap isRLE4).bytes
        = r.bytes ++ (⟨rs, ending⟩ : Bitmap isRLE4).bytes := by
      rw [Bitmap.bytes, List.flatMap_cons, List.append_assoc]
      rfl
    have htwo := two_le_length r
    rw [hbytes, List.length_append] at hrounds
    obtain ⟨rounds, rfl⟩ : ∃ rounds', rounds = rounds' + 1 := ⟨rounds - 1, by omega⟩
    have hrest : (⟨rs, ending⟩ : Bitmap isRLE4).bytes.length ≤ rounds := by omega
    rw [hbytes, plots, List.foldlM_append]
    cases r with
    | encoded n b hn =>
      have hindices := encodedRun_eq palette isRLE4 b n.val 0
        (image, toInt (offsetOf w h c))
      rw [← List.range_eq_range'] at hindices
      simp only [Record.bytes, List.cons_append, List.nil_append, records, if_neg hn]
      rw [hindices]
      refine (paintRun_bind palette w h _ c image _).trans ?_
      refine congrArg _ (funext fun image' => ?_)
      rw [List.length_map, List.length_range]
      exact ih { c with x := c.x + n.val } image' hrest
    | absolute n bytes pad hn =>
      obtain ⟨hthree, hlength, hpad⟩ := hn
      have hne : ∀ i : Byte, i.val < 3 → n ≠ i := by
        rintro i hi rfl
        omega
      have hindices := absoluteRun_eq palette isRLE4 bytes
        (pad ++ (⟨rs, ending⟩ : Bitmap isRLE4).bytes) n.val 0 0 _
        (image, toInt (offsetOf w h c)) (by rw [hlength, Nat.zero_add]) rfl nofun
      have hzero : packed isRLE4 0 = 0 := by
        rw [packed]
        split <;> rfl
      rw [hzero, List.drop_zero, ← List.range_eq_range'] at hindices
      -- the padding is skipped
      have hskip : (if (if isRLE4 then n.val % 4 = 1 ∨ n.val % 4 = 2 else n.val % 2 = 1)
          then (pad ++ (⟨rs, ending⟩ : Bitmap isRLE4).bytes).drop 1
          else pad ++ (⟨rs, ending⟩ : Bitmap isRLE4).bytes)
            = (⟨rs, ending⟩ : Bitmap isRLE4).bytes := by
        have hodd : bytes.length % 2 = 1
            ↔ if isRLE4 then n.val % 4 = 1 ∨ n.val % 4 = 2 else n.val % 2 = 1 := by
          rw [hlength, packed]
          split
          · omega
          · rfl
        by_cases hpadded : bytes.length % 2 = 1
        · rw [if_pos (hodd.mp hpadded)]
          rw [hpadded] at hpad
          obtain ⟨b, rfl⟩ := List.length_eq_one_iff.mp hpad
          rfl
        · rw [if_neg (mt hodd.mpr hpadded), List.length_eq_zero_iff.mp (by omega : pad.length = 0),
            List.nil_append]
      simp only [Record.bytes, List.cons_append, records, if_true, if_neg (hne 0 (by decide)),
        if_neg (hne 1 (by decide)), if_neg (hne 2 (by decide)), List.append_assoc]
      rw [hindices, paintRun_eq palette w h, List.length_map, List.length_range]
      change _ = (runFrom c ((List.range n.val).map (indexAt isRLE4 bytes))).foldlM _ _ >>= _
      cases (runFrom c ((List.range n.val).map (indexAt isRLE4 bytes))).foldlM
        (plot palette w h) image with
      | error e => rfl
      | ok image' =>
        have hnext := ih { c with x := c.x + n.val } image' hrest
        rw [← hskip] at hnext
        exact hnext
    | endOfLine =>
      have hline : toInt (toInt (lineOf h c) + -1) = toInt (lineOf h ⟨0, c.k + 1, c.d⟩) := by
        rw [toInt_toInt_add, lineOf, lineOf]
        congr 1
        push_cast
        ring
      have hoffset : toInt (toInt (lineOf h ⟨0, c.k + 1, c.d⟩) * (3 * w))
          = toInt (offsetOf w h ⟨0, c.k + 1, c.d⟩) := by
        rw [toInt_mul, offsetOf]
        congr 1
        push_cast
        ring
      have hnext := ih ⟨0, c.k + 1, c.d⟩ image hrest
      rw [← hoffset, ← hline] at hnext
      exact hnext
    | delta dx dy =>
      have hline : toInt (toInt (lineOf h c) + dy.val)
          = toInt (lineOf h ⟨c.x + dx.val, c.k + dy.val, c.d + dy.val⟩) := by
        rw [toInt_toInt_add, lineOf, lineOf]
        congr 1
        push_cast
        ring
      have hoffset : toInt (toInt (toInt (offsetOf w h c) + toInt (dy.val * (3 * w))) + dx.val * 3)
          = toInt (offsetOf w h ⟨c.x + dx.val, c.k + dy.val, c.d + dy.val⟩) := by
        rw [toInt_add_toInt, toInt_toInt_add, add_assoc, toInt_toInt_add, offsetOf, offsetOf, lineOf,
          lineOf]
        congr 1
        push_cast
        ring
      have hnext := ih ⟨c.x + dx.val, c.k + dy.val, c.d + dy.val⟩ image hrest
      rw [← hoffset, ← hline] at hnext
      exact hnext

end Painting

end JavaFx.Iio.BMP
