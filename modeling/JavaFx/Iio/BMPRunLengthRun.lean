/-
The image that a run-length encoded bitmap describes, and when `readRLE` makes it.

Pixels that no delta has moved to another row are painted where they belong (`foldlM_plot`).
Behind a delta that has, they are not, and the last of them is a pixel that is never painted
(`foldlM_plot_last`). So `readRLE` is right if and only if no run follows such a delta
(`readRLE_iff`).
-/
import JavaFx.Iio.BMPRunLength
import Mathlib.Tactic.IntervalCases

set_option autoImplicit false

namespace JavaFx.Iio.BMP

open JavaFx.Lib

variable {isRLE4 : Bool}

/-! ## The image -/

/-- The channels of a colour of the palette: red, green and blue. -/
def colour (palette : List Byte) (index channel : ℕ) : Byte := palette.getD (4 * index + (2 - channel)) 0

/-- The place of a channel of a pixel in the image; rows are counted from below. -/
def place (w h x k channel : ℕ) : ℕ := 3 * (x + w * (h - 1 - k)) + channel

/-- What a pixel is painted with. -/
def paintedWith (qs : List Plot) (x k : ℕ) : Option ℕ :=
  ((qs.filter fun q => q.at_.x = x ∧ q.at_.k = k).getLast?).map Plot.index

/-- The image shows the pixels, and is black elsewhere. -/
structure Shows (palette : List Byte) (w h : ℕ) (qs : List Plot) (image : List Byte) : Prop where
  length : image.length = 3 * w * h
  pixel : ∀ x k channel, x < w → k < h → channel < 3 → image[place w h x k channel]?
    = some ((paintedWith qs x k).elim 0 fun index => colour palette index channel)

/-- Two channels in one place are one channel. -/
theorem place_inj {w h x k c x' k' c' : ℕ} (hx : x < w) (hk : k < h) (hc : c < 3) (hx' : x' < w)
    (hk' : k' < h) (hc' : c' < 3) (heq : place w h x k c = place w h x' k' c') :
    x = x' ∧ k = k' ∧ c = c' := by
  rw [place, place] at heq
  have hpixel : x + w * (h - 1 - k) = x' + w * (h - 1 - k') := by omega
  have hrow := congrArg (· / w) hpixel
  have hcolumn := congrArg (· % w) hpixel
  simp only [Nat.add_mul_div_left _ _ (Nat.zero_lt_of_lt hx), Nat.div_eq_of_lt hx,
    Nat.div_eq_of_lt hx', Nat.add_mul_mod_self_left, Nat.mod_eq_of_lt hx,
    Nat.mod_eq_of_lt hx'] at hrow hcolumn
  omega

theorem place_lt {w h x k c : ℕ} (hx : x < w) (hk : k < h) (hc : c < 3) :
    place w h x k c < 3 * w * h := by
  have hrow : w * (h - 1 - k) + w ≤ w * h := by
    rw [← Nat.mul_succ]
    exact Nat.mul_le_mul_left w (by omega)
  rw [place, Nat.mul_assoc]
  omega

/-! ## Painting a pixel -/

variable (palette : List Byte)

/-- **A pixel** is painted if its place is in the image. -/
theorem setRGBFromPalette_ok {image : List Byte} {a index : ℕ} (ha : a + 3 ≤ image.length)
    (hlength : image.length < 2 ^ 31) (hindex : 4 * index + 4 ≤ palette.length) :
    setRGBFromPalette palette image a index
      = .ok (((image.set a (colour palette index 0)).set (a + 1) (colour palette index 1)).set
        (a + 2) (colour palette index 2), toInt (a + 3)) := by
  have hget : ∀ i, i < palette.length → exn (aget palette i) = .ok (palette.getD i 0) := by
    intro i hi
    rw [aget_ok (List.getElem?_eq_getElem hi)]
    simp [exn, Except.mapError, hi]
  have hset : ∀ (image : List Byte) (i : ℕ) (v : Byte), i < image.length →
      exn (aset image i v) = .ok (image.set i v) := by
    intro image i v hi
    rw [aset_ok v hi]
    rfl
  have h1 : toInt ((a : ℤ) + 1) = ((a + 1 : ℕ) : ℤ) := toInt_of_lt (by omega) (by omega)
  have h2 : toInt (((a + 1 : ℕ) : ℤ) + 1) = ((a + 2 : ℕ) : ℤ) := toInt_of_lt (by omega) (by omega)
  have h3 : ((a + 2 : ℕ) : ℤ) + 1 = (a : ℤ) + 3 := by omega
  rw [setRGBFromPalette]
  simp only [h1, h2, h3]
  rw [hget _ (by omega), ok_bind, hset _ _ _ (by omega), ok_bind, hget _ (by omega), ok_bind,
    hset _ _ _ (by rw [List.length_set]; omega), ok_bind, hget _ (by omega), ok_bind,
    hset _ _ _ (by rw [List.length_set, List.length_set]; omega), ok_bind]
  rfl

theorem getElem?_set_three {image : List Byte} {a : ℕ} (ha : a + 3 ≤ image.length) (r g b : Byte)
    (i : ℕ) : (((image.set a r).set (a + 1) g).set (a + 2) b)[i]?
      = if i = a then some r else if i = a + 1 then some g else if i = a + 2 then some b
        else image[i]? := by
  rw [List.getElem?_set, List.getElem?_set, List.getElem?_set, List.length_set, List.length_set]
  split_ifs <;> first | rfl | omega

/-- A pixel that no delta has moved is painted where it belongs. -/
theorem plot_ok {w h : ℕ} (hsize : 3 * w * h < 2 ^ 31) {q : Plot} (hx : q.at_.x < w)
    (hk : q.at_.k < h) (hd : q.at_.d = 0) (hindex : 4 * q.index + 4 ≤ palette.length)
    {image : List Byte} (hlength : image.length = 3 * w * h) :
    ∃ image', plot palette w h image q = .ok image' ∧ image'.length = 3 * w * h ∧
      ∀ x k channel, x < w → k < h → channel < 3 → image'[place w h x k channel]?
        = if q.at_.x = x ∧ q.at_.k = k then some (colour palette q.index channel)
          else image[place w h x k channel]? := by
  have hlast : place w h q.at_.x q.at_.k 2 < 3 * w * h := place_lt hx hk (by decide)
  have hplace : ∀ c, place w h q.at_.x q.at_.k c = place w h q.at_.x q.at_.k 0 + c := fun c => rfl
  have hoffset : toInt (offsetOf w h q.at_) = (place w h q.at_.x q.at_.k 0 : ℕ) := by
    have hrow : ((h - 1 - q.at_.k : ℕ) : ℤ) = h - 1 - q.at_.k := by omega
    have heq : offsetOf w h q.at_ = (place w h q.at_.x q.at_.k 0 : ℕ) := by
      rw [offsetOf, lineOf, hd, place]
      push_cast
      rw [hrow]
      ring
    rw [heq]
    have hle := hplace 2
    exact toInt_of_lt (by omega) (by omega)
  have hbound : place w h q.at_.x q.at_.k 0 + 3 ≤ image.length := by
    have hle := hplace 2
    omega
  have hset := setRGBFromPalette_ok palette hbound (by omega) hindex
  refine ⟨((image.set (place w h q.at_.x q.at_.k 0) (colour palette q.index 0)).set
    (place w h q.at_.x q.at_.k 0 + 1) (colour palette q.index 1)).set
    (place w h q.at_.x q.at_.k 0 + 2) (colour palette q.index 2), ?_, ?_, ?_⟩
  · rw [plot, hoffset, hset]
    rfl
  · rw [List.length_set, List.length_set, List.length_set, hlength]
  · intro x k channel hx' hk' hc
    rw [getElem?_set_three hbound]
    by_cases hsame : q.at_.x = x ∧ q.at_.k = k
    · rw [if_pos hsame, ← hsame.1, ← hsame.2, hplace channel]
      interval_cases channel
      · exact if_pos rfl
      · rw [if_neg (by omega), if_pos rfl]
      · rw [if_neg (by omega), if_neg (by omega), if_pos rfl]
    · have hother : ∀ c, c < 3 → place w h x k channel ≠ place w h q.at_.x q.at_.k 0 + c := by
        intro c hc' heq
        obtain ⟨rfl, rfl, -⟩ := place_inj hx' hk' hc hx hk hc' (heq.trans (hplace c).symm)
        exact hsame ⟨rfl, rfl⟩
      rw [if_neg hsame, if_neg (show place w h x k channel ≠ place w h q.at_.x q.at_.k 0 from
        hother 0 (by decide)), if_neg (hother 1 (by decide)),
        if_neg (hother 2 (by decide))]

/-- **The pixels are painted** where they belong if no delta has moved one. -/
theorem foldlM_plot {w h : ℕ} (hsize : 3 * w * h < 2 ^ 31) {qs : List Plot}
    (hinside : ∀ q ∈ qs, q.at_.x < w ∧ q.at_.k < h) (hd : ∀ q ∈ qs, q.at_.d = 0)
    (hindex : ∀ q ∈ qs, 4 * q.index + 4 ≤ palette.length) :
    ∃ image, qs.foldlM (plot palette w h) (List.replicate (3 * w * h) 0) = .ok image ∧
      Shows palette w h qs image := by
  induction qs using List.reverseRecOn with
  | nil =>
    refine ⟨_, rfl, List.length_replicate, fun x k channel hx hk hc => ?_⟩
    rw [List.getElem?_replicate, if_pos (place_lt hx hk hc)]
    rfl
  | append_singleton qs q ih =>
    obtain ⟨image, hfold, hshows⟩ := ih
      (fun r hr => hinside r (List.mem_append_left _ hr))
      (fun r hr => hd r (List.mem_append_left _ hr))
      (fun r hr => hindex r (List.mem_append_left _ hr))
    have hq : q ∈ qs ++ [q] := List.mem_append_right _ List.mem_cons_self
    obtain ⟨image', hplot, hlength, hpixel⟩ := plot_ok palette hsize (hinside q hq).1
      (hinside q hq).2 (hd q hq) (hindex q hq) hshows.length
    refine ⟨image', ?_, hlength, fun x k channel hx hk hc => ?_⟩
    · rw [List.foldlM_append, hfold]
      simp [hplot]
    · rw [hpixel x k channel hx hk hc, paintedWith, List.filter_append]
      by_cases hsame : q.at_.x = x ∧ q.at_.k = k
      · simp [hsame]
      · rw [if_neg hsame, hshows.pixel x k channel hx hk hc, paintedWith]
        simp [hsame]

/-! ## Painting elsewhere -/

/-- A pixel is painted at its offset only. -/
theorem plot_getElem? {w h : ℕ} {image image' : List Byte} {q : Plot}
    (hplot : plot palette w h image q = .ok image') :
    image'.length = image.length ∧ ∀ i : ℕ,
      (∀ c : ℕ, c < 3 → (i : ℤ) ≠ toInt (offsetOf w h q.at_ + c)) → image'[i]? = image[i]? := by
  have hset : ∀ {image image' : List Byte} {i : ℤ} {v : Byte}, exn (aset image i v) = .ok image' →
      image'.length = image.length ∧ ∀ j : ℕ, (j : ℤ) ≠ i → image'[j]? = image[j]? := by
    intro image image' i v h
    rw [aset] at h
    split at h
    · next hi =>
      obtain rfl := Except.ok.inj h
      refine ⟨List.length_set, fun j hj => ?_⟩
      rw [List.getElem?_set_ne]
      omega
    · cases h
  rw [plot] at hplot
  obtain ⟨s, hs, rfl⟩ : ∃ s, setRGBFromPalette palette image (toInt (offsetOf w h q.at_)) q.index
      = .ok s ∧ s.1 = image' := by
    cases hr : setRGBFromPalette palette image (toInt (offsetOf w h q.at_)) q.index with
    | error e =>
      rw [hr] at hplot
      cases hplot
    | ok s =>
      rw [hr] at hplot
      exact ⟨s, rfl, Except.ok.inj hplot⟩
  rw [setRGBFromPalette] at hs
  obtain ⟨red, -, hs⟩ := bind_eq_ok.mp hs
  obtain ⟨image1, h1, hs⟩ := bind_eq_ok.mp hs
  obtain ⟨green, -, hs⟩ := bind_eq_ok.mp hs
  obtain ⟨image2, h2, hs⟩ := bind_eq_ok.mp hs
  obtain ⟨blue, -, hs⟩ := bind_eq_ok.mp hs
  obtain ⟨image3, h3, hs⟩ := bind_eq_ok.mp hs
  obtain rfl := Except.ok.inj hs
  obtain ⟨hl1, hi1⟩ := hset h1
  obtain ⟨hl2, hi2⟩ := hset h2
  obtain ⟨hl3, hi3⟩ := hset h3
  refine ⟨hl3.trans (hl2.trans hl1), fun i hi => ?_⟩
  have hi0 := hi 0 (by decide)
  have hi1' := hi 1 (by decide)
  have hi2' := hi 2 (by decide)
  rw [Nat.cast_zero, add_zero] at hi0
  rw [Nat.cast_one, ← toInt_toInt_add] at hi1'
  have hadd : offsetOf w h q.at_ + ((2 : ℕ) : ℤ) = offsetOf w h q.at_ + 1 + 1 := by
    push_cast
    ring
  rw [hadd, ← toInt_toInt_add, ← toInt_toInt_add (offsetOf w h q.at_)] at hi2'
  exact (hi3 i hi2').trans ((hi2 i hi1').trans (hi1 i hi0))

/-- Where decoding goes: rows by deltas are rows. -/
structure Cursor.Before (c c' : Cursor) : Prop where
  deltas : c.d ≤ c'.d
  rows : c.k + c'.d ≤ c'.k + c.d

theorem Cursor.Before.refl (c : Cursor) : c.Before c := ⟨le_refl _, le_refl _⟩

theorem Cursor.Before.trans {a b c : Cursor} (h : a.Before b) (h' : b.Before c) : a.Before c := by
  obtain ⟨hd, hk⟩ := h
  obtain ⟨hd', hk'⟩ := h'
  exact ⟨by omega, by omega⟩

theorem Record.before_move (c : Cursor) (r : Record isRLE4) : c.Before (r.move c) := by
  cases r with
  | encoded n b h => exact ⟨le_refl _, le_refl _⟩
  | absolute n bytes pad h => exact ⟨le_refl _, le_refl _⟩
  | endOfLine => exact ⟨le_refl _, by simp only [Record.move]; omega⟩
  | delta dx dy => exact ⟨Nat.le_add_right _ _, by simp only [Record.move]; omega⟩

theorem mem_runFrom {c : Cursor} {is : List ℕ} {q : Plot} (hq : q ∈ runFrom c is) :
    q.at_.k = c.k ∧ q.at_.d = c.d ∧ q.index ∈ is := by
  induction is generalizing c with
  | nil => cases hq
  | cons i is ih =>
    rw [runFrom, List.mem_cons] at hq
    rcases hq with rfl | hq
    · exact ⟨rfl, rfl, List.mem_cons_self⟩
    · obtain ⟨hk, hd, hi⟩ := ih hq
      exact ⟨hk, hd, List.mem_cons_of_mem _ hi⟩

theorem runFrom_pairwise (c : Cursor) (is : List ℕ) :
    (runFrom c is).Pairwise fun q q' => q.at_.Before q'.at_ := by
  induction is generalizing c with
  | nil => exact List.Pairwise.nil
  | cons i is ih =>
    refine List.pairwise_cons.mpr ⟨fun q hq => ?_, ih _⟩
    obtain ⟨hk, hd, -⟩ := mem_runFrom hq
    exact ⟨hd.ge, by rw [hk, hd]⟩

theorem before_plots {c : Cursor} {rs : List (Record isRLE4)} :
    ∀ q ∈ plots c rs, c.Before q.at_ := by
  induction rs generalizing c with
  | nil => nofun
  | cons r rs ih =>
    intro q hq
    rcases List.mem_append.mp hq with hq | hq
    · obtain ⟨hk, hd, -⟩ := mem_runFrom hq
      exact ⟨hd.ge, by rw [hk, hd]⟩
    · exact (Record.before_move c r).trans (ih q hq)

/-- The pixels are painted in the direction of decoding. -/
theorem plots_pairwise (c : Cursor) (rs : List (Record isRLE4)) :
    (plots c rs).Pairwise fun q q' => q.at_.Before q'.at_ := by
  induction rs generalizing c with
  | nil => exact List.Pairwise.nil
  | cons r rs ih =>
    refine List.pairwise_append.mpr ⟨runFrom_pairwise c _, ih _, fun q hq q' hq' => ?_⟩
    by_cases hrun : r.indices = []
    · rw [hrun] at hq
      cases hq
    · have hmove := indices_length r c hrun
      obtain ⟨hk, hd, -⟩ := mem_runFrom hq
      have hbefore := before_plots q' hq'
      rw [hmove] at hbefore
      exact ⟨by rw [hd]; exact hbefore.deltas, by rw [hk, hd]; exact hbefore.rows⟩

/-- A pixel is not painted where one belongs that deltas have moved and that comes later. -/
theorem offset_ne {w h : ℕ} (hsize : 3 * w * h < 2 ^ 31) {q last : Cursor} (hbefore : q.Before last)
    (hd : q.d ≤ q.k) (hlast : 0 < last.d) (hxq : q.x < w) (hx : last.x < w) (hk : last.k < h)
    {c c' : ℕ} (hc : c < 3) (hc' : c' < 3) :
    ((place w h last.x last.k c : ℕ) : ℤ) ≠ toInt (offsetOf w h q + c') := by
  intro heq
  obtain ⟨hdeltas, hrows⟩ := hbefore
  -- the number of rows between the two, as decoding has them
  obtain ⟨m, hm⟩ : ∃ m : ℕ, m + q.k = last.k + 2 * q.d := ⟨last.k + 2 * q.d - q.k, by omega⟩
  have hpos : 1 ≤ m := by omega
  have hle : m + 2 ≤ 2 * h := by omega
  have hlow : w * 1 ≤ w * m := Nat.mul_le_mul_left w hpos
  have hhigh : w * (m + 2) ≤ w * (2 * h) := Nat.mul_le_mul_left w hle
  rw [Nat.mul_add] at hhigh
  have hwh : w * (2 * h) = 2 * (w * h) := by ring
  rw [Nat.mul_assoc] at hsize
  have hdvd : (2 ^ 32 : ℤ) ∣ offsetOf w h q + c' - (place w h last.x last.k c : ℕ) := by
    rw [heq]
    exact Int.dvd_self_sub_bmod
  have hrow : ((h - 1 - last.k : ℕ) : ℤ) = h - 1 - last.k := by omega
  have hdiff : offsetOf w h q + c' - (place w h last.x last.k c : ℕ)
      = 3 * ((q.x : ℤ) - last.x) + 3 * (w * m : ℕ) + (c' - c) := by
    have hm' : (m : ℤ) = last.k + 2 * q.d - q.k := by omega
    rw [offsetOf, lineOf, place]
    push_cast
    rw [hrow, hm']
    ring
  rw [hdiff] at hdvd
  have hpositive : 0 < 3 * ((q.x : ℤ) - last.x) + 3 * (w * m : ℕ) + (c' - c) := by
    clear hdvd hdiff heq
    omega
  have hsmall : 3 * ((q.x : ℤ) - last.x) + 3 * (w * m : ℕ) + (c' - c) < 2 ^ 32 := by
    clear hdvd hdiff heq
    omega
  exact absurd (Int.le_of_dvd hpositive hdvd) (not_le.mpr hsmall)

/-- **The last pixel** is not painted if a delta has moved it. -/
theorem foldlM_plot_last {w h : ℕ} (hsize : 3 * w * h < 2 ^ 31) {qs : List Plot} {last : Cursor}
    (hbefore : ∀ q ∈ qs, q.at_.Before last ∧ q.at_.d ≤ q.at_.k ∧ q.at_.x < w) (hd : 0 < last.d)
    (hx : last.x < w) (hk : last.k < h) {channel : ℕ} (hc : channel < 3) {image image' : List Byte}
    (hfold : qs.foldlM (plot palette w h) image = .ok image') :
    image'[place w h last.x last.k channel]? = image[place w h last.x last.k channel]? := by
  induction qs generalizing image with
  | nil =>
    obtain rfl := Except.ok.inj hfold
    rfl
  | cons q qs ih =>
    rw [List.foldlM_cons] at hfold
    obtain ⟨image1, hplot, hrest⟩ := bind_eq_ok.mp hfold
    obtain ⟨hq, hdq, hxq⟩ := hbefore q List.mem_cons_self
    rw [ih (fun q hq => hbefore q (List.mem_cons_of_mem _ hq)) hrest]
    exact (plot_getElem? palette hplot).2 _ fun c' hc' => offset_ne hsize hq hdq hd hxq hx hk hc hc'

end JavaFx.Iio.BMP

/-!
When a run-length encoded bitmap is decoded as what it describes.

`readRLE` takes the rows of a delta for rows further up, in bitmaps that are decoded upwards
too. That does no harm as long as no run follows (`readRLE_iff`).
-/

namespace JavaFx.Iio.BMP

open JavaFx.Lib

variable {isRLE4 : Bool}

/-! ## Runs behind deltas -/

def Record.IsRun : Record isRLE4 → Prop
  | .encoded _ _ _ => True
  | .absolute _ _ _ _ => True
  | .endOfLine => False
  | .delta _ _ => False

/-- No run follows a delta to another row. -/
def Straight : List (Record isRLE4) → Prop
  | [] => True
  | .delta _ dy :: rs => if dy = 0 then Straight rs else ∀ r ∈ rs, ¬r.IsRun
  | _ :: rs => Straight rs

theorem Record.indices_ne_nil {r : Record isRLE4} : r.indices ≠ [] ↔ r.IsRun := by
  cases r with
  | encoded n b hn =>
    have hpos : n.val ≠ 0 := fun h => hn (Fin.ext h)
    simpa [Record.indices, Record.IsRun] using hpos
  | absolute n bytes pad hn =>
    have hpos : n.val ≠ 0 := by
      have := hn.1
      omega
    simpa [Record.indices, Record.IsRun] using hpos
  | endOfLine => exact ⟨fun h => absurd rfl h, False.elim⟩
  | delta dx dy => exact ⟨fun h => absurd rfl h, False.elim⟩

theorem runFrom_eq_nil {c : Cursor} {is : List ℕ} : runFrom c is = [] ↔ is = [] := by
  cases is with
  | nil => exact iff_of_true rfl rfl
  | cons i is => exact iff_of_false (List.cons_ne_nil _ _) (List.cons_ne_nil _ _)

theorem plots_eq_nil {c : Cursor} {rs : List (Record isRLE4)} :
    plots c rs = [] ↔ ∀ r ∈ rs, ¬r.IsRun := by
  induction rs generalizing c with
  | nil => exact iff_of_true rfl nofun
  | cons r rs ih =>
    rw [plots, List.append_eq_nil_iff, runFrom_eq_nil, ih, List.forall_mem_cons,
      ← Record.indices_ne_nil, not_not]

/-- The pixels that a delta has moved are behind one. -/
theorem straight_iff {c : Cursor} (hc : c.d = 0) {rs : List (Record isRLE4)} :
    Straight rs ↔ ∀ q ∈ plots c rs, q.at_.d = 0 := by
  induction rs generalizing c with
  | nil => exact iff_of_true trivial nofun
  | cons r rs ih =>
    have hrun : ∀ q ∈ runFrom c r.indices, q.at_.d = 0 :=
      fun q hq => (mem_runFrom hq).2.1.trans hc
    rw [plots, List.forall_mem_append]
    refine Iff.trans ?_ (and_iff_right hrun).symm
    cases r with
    | encoded n b hn => exact ih hc
    | absolute n bytes pad hn => exact ih hc
    | endOfLine => exact ih hc
    | delta dx dy =>
      rw [Straight]
      split
      · next hdy =>
        apply ih
        rw [Record.move, hc, hdy]
        rfl
      · next hdy =>
        have hpos : 0 < dy.val := Nat.pos_of_ne_zero fun h => hdy (Fin.ext h)
        rw [← plots_eq_nil (c := Record.move c (.delta dx dy)), List.eq_nil_iff_forall_not_mem]
        refine forall₂_congr fun q hq => iff_of_false (fun h => h) fun hd => ?_
        have hle := (before_plots q hq).deltas
        simp only [Record.move] at hle
        omega

/-! ## The palette -/

/-- The palette has all the colours of the bitmap. -/
def FullPalette (isRLE4 : Bool) (palette : List Byte) : Prop :=
  4 * (if isRLE4 then 16 else 256) ≤ palette.length

theorem index_lt {palette : List Byte} (hfull : FullPalette isRLE4 palette) {r : Record isRLE4}
    {i : ℕ} (hi : i ∈ r.indices) : 4 * i + 4 ≤ palette.length := by
  rw [FullPalette] at hfull
  have hbyte : ∀ b : Byte, b.val < 256 := fun b => b.isLt
  cases r with
  | encoded n b hn =>
    obtain ⟨p, -, rfl⟩ := List.mem_map.mp hi
    have hb := hbyte b
    split_ifs at hfull ⊢ <;> omega
  | absolute n bytes pad hn =>
    obtain ⟨p, -, rfl⟩ := List.mem_map.mp hi
    have hfirst := hbyte (bytes.getD (p / 2) 0)
    have hb := hbyte (bytes.getD p 0)
    rw [indexAt]
    split_ifs at hfull ⊢ <;> omega
  | endOfLine => cases hi
  | delta dx dy => cases hi

theorem index_plots {palette : List Byte} (hfull : FullPalette isRLE4 palette) {c : Cursor}
    {rs : List (Record isRLE4)} : ∀ q ∈ plots c rs, 4 * q.index + 4 ≤ palette.length := by
  induction rs generalizing c with
  | nil => nofun
  | cons r rs ih =>
    intro q hq
    rcases List.mem_append.mp hq with hq | hq
    · exact index_lt hfull (mem_runFrom hq).2.2
    · exact ih q hq

/-! ## The bitmap -/

/-- The header fits the bitmap. -/
structure Fits (loader : BMPImageLoader) (w h : ℕ) (b : Bitmap isRLE4) : Prop where
  width : loader.bih.biWidth = w
  height : loader.bih.biHeight = h
  size : (if loader.bih.biSizeImage = 0 then toInt (loader.bfSize - loader.bfOffBits)
    else loader.bih.biSizeImage) = b.bytes.length

/-- The pixels that the bitmap describes. -/
def Bitmap.pixels (b : Bitmap isRLE4) : List Plot := plots ⟨0, 0, 0⟩ b.records

/-- The image that is read into a new one is what the bitmap describes. -/
def Right (loader : BMPImageLoader) (w h : ℕ) (b : Bitmap isRLE4) (rest : List Byte) : Prop :=
  ∃ image, loader.readRLE (b.bytes ++ rest) (List.replicate (3 * w * h) 0)
      (toInt (loader.bih.biWidth * 3)) |loader.bih.biHeight| isRLE4 = .ok image ∧
    Shows loader.bgra_palette w h b.pixels image

/-- **`readRLE`** paints the pixels, at the rows of `lineOf`. -/
theorem readRLE_eq {loader : BMPImageLoader} {w h : ℕ} (hw : 0 < w) (hh : 0 < h)
    (hsize : 3 * w * h < 2 ^ 31) {b : Bitmap isRLE4} (hfits : Fits loader w h b) (rest : List Byte) :
    loader.readRLE (b.bytes ++ rest) (List.replicate (3 * w * h) 0)
        (toInt (loader.bih.biWidth * 3)) |loader.bih.biHeight| isRLE4
      = b.pixels.foldlM (plot loader.bgra_palette w h) (List.replicate (3 * w * h) 0) := by
  have hwh : 3 * w ≤ 3 * w * h := Nat.le_mul_of_pos_right _ hh
  have hhw : h ≤ 3 * w * h := Nat.le_mul_of_pos_left _ (by omega)
  have hrow : toInt (loader.bih.biWidth * 3) = 3 * w := by
    rw [hfits.width, mul_comm]
    exact toInt_of_lt (by omega) (by omega)
  have hline : toInt (lineOf h ⟨0, 0, 0⟩) = toInt (h - 1) := by
    rw [lineOf]
    congr 1
    push_cast
    ring
  have hoffset : toInt (offsetOf w h ⟨0, 0, 0⟩) = toInt (toInt (h - 1) * (3 * w)) := by
    rw [toInt_mul, offsetOf, lineOf]
    congr 1
    push_cast
    ring
  have hread : readFully (b.bytes ++ rest) b.bytes.length = .ok (b.bytes, rest) := by
    rw [readFully, if_neg (by omega), if_pos (by rw [List.length_append]; omega), Int.toNat_natCast,
      List.take_left, List.drop_left]
  have hbottomUp : decide (0 < (h : ℤ)) = true := decide_eq_true (by omega)
  have hrecords := records_eq loader.bgra_palette w h b ⟨0, 0, 0⟩ (List.replicate (3 * w * h) 0)
    (le_refl _)
  rw [hline, hoffset] at hrecords
  rw [BMPImageLoader.readRLE, hfits.size, hread, hrow, hfits.height, Nat.abs_cast, hbottomUp]
  exact hrecords

theorem right_of_straight {loader : BMPImageLoader} {w h : ℕ} (hw : 0 < w) (hh : 0 < h)
    (hsize : 3 * w * h < 2 ^ 31) {b : Bitmap isRLE4} (hfits : Fits loader w h b)
    (hinside : ∀ q ∈ b.pixels, q.at_.x < w ∧ q.at_.k < h) (rest : List Byte)
    (hfull : FullPalette isRLE4 loader.bgra_palette) (hstraight : Straight b.records) :
    Right loader w h b rest := by
  obtain ⟨image, hfold, hshows⟩ := foldlM_plot loader.bgra_palette hsize hinside
    ((straight_iff rfl).mp hstraight) (index_plots hfull)
  exact ⟨image, (readRLE_eq hw hh hsize hfits rest).trans hfold, hshows⟩

/-- A bitmap that is not straight is not right in colours without a zero. -/
theorem straight_of_right {loader : BMPImageLoader} {w h : ℕ} (hw : 0 < w) (hh : 0 < h)
    (hsize : 3 * w * h < 2 ^ 31) {b : Bitmap isRLE4} (hfits : Fits loader w h b)
    (hinside : ∀ q ∈ b.pixels, q.at_.x < w ∧ q.at_.k < h) (rest : List Byte)
    (hfull : FullPalette isRLE4 loader.bgra_palette) (hcolour : ∀ v ∈ loader.bgra_palette, v ≠ 0)
    (hright : Right loader w h b rest) : Straight b.records := by
  obtain ⟨image, hread, hshows⟩ := hright
  rw [readRLE_eq hw hh hsize hfits rest] at hread
  by_contra hnot
  have hmoved : ¬∀ q ∈ b.pixels, q.at_.d = 0 := fun h => hnot ((straight_iff rfl).mpr h)
  push Not at hmoved
  obtain ⟨moved, hmem, hne⟩ := hmoved
  -- the last pixel has been moved as well
  obtain ⟨before, last, hlast⟩ := (List.eq_nil_or_concat b.pixels).resolve_left
    (List.ne_nil_of_mem hmem)
  rw [List.concat_eq_append] at hlast
  have hpairwise : b.pixels.Pairwise fun q q' => q.at_.Before q'.at_ := plots_pairwise _ _
  rw [hlast] at hpairwise
  have hbeforeLast : ∀ q ∈ before ++ [last], q.at_.Before last.at_ := by
    intro q hq
    rcases List.mem_append.mp hq with hq | hq
    · exact (List.pairwise_append.mp hpairwise).2.2 q hq last List.mem_cons_self
    · obtain rfl := List.mem_singleton.mp hq
      exact .refl _
  have hd : 0 < last.at_.d := by
    rw [hlast] at hmem
    have hle := (hbeforeLast moved hmem).deltas
    omega
  have hlastMem : last ∈ b.pixels := hlast ▸ List.mem_append_right _ List.mem_cons_self
  obtain ⟨hx, hk⟩ := hinside last hlastMem
  have hall : ∀ q ∈ b.pixels, q.at_.Before last.at_ ∧ q.at_.d ≤ q.at_.k ∧ q.at_.x < w := by
    intro q hq
    have hrows := (before_plots q hq).rows
    simp only at hrows
    exact ⟨hbeforeLast q (hlast ▸ hq), by omega, (hinside q hq).1⟩
  have hzero := foldlM_plot_last loader.bgra_palette hsize hall hd hx hk
    (show 0 < 3 by decide) hread
  rw [List.getElem?_replicate, if_pos (place_lt hx hk (by decide)),
    hshows.pixel _ _ 0 hx hk (by decide)] at hzero
  -- but the bitmap paints it
  have hpainted : paintedWith b.pixels last.at_.x last.at_.k = some last.index := by
    rw [paintedWith, hlast, List.filter_append]
    simp
  have hindex := index_plots hfull last hlastMem
  rw [hpainted, Option.elim_some] at hzero
  refine hcolour (colour loader.bgra_palette last.index 0) ?_ (Option.some.inj hzero)
  have hlt : 4 * last.index + (2 - 0) < loader.bgra_palette.length := by omega
  have hget : colour loader.bgra_palette last.index 0 = loader.bgra_palette[4 * last.index + (2 - 0)] := by
    rw [colour]
    simp [hlt]
  rw [hget]
  exact List.getElem_mem hlt

/-- **When `readRLE` is right**: if and only if no run follows a delta to another row. -/
theorem readRLE_iff {loader : BMPImageLoader} {w h : ℕ} (hw : 0 < w) (hh : 0 < h)
    (hsize : 3 * w * h < 2 ^ 31) {b : Bitmap isRLE4} (hfits : Fits loader w h b)
    (hinside : ∀ q ∈ b.pixels, q.at_.x < w ∧ q.at_.k < h) (rest : List Byte) :
    ((∀ palette, FullPalette isRLE4 palette →
        Right { loader with bgra_palette := palette } w h b rest) ↔ Straight b.records) ∧
      (FullPalette isRLE4 loader.bgra_palette → (∀ v ∈ loader.bgra_palette, v ≠ 0) →
        (Right loader w h b rest ↔ Straight b.records)) := by
  have hfits' : ∀ palette, Fits { loader with bgra_palette := palette } w h b :=
    fun palette => ⟨hfits.width, hfits.height, hfits.size⟩
  refine ⟨⟨fun hright => ?_, fun hstraight palette hfull => ?_⟩, fun hfull hcolour => ⟨?_, ?_⟩⟩
  · have hfull : FullPalette isRLE4 (List.replicate 1024 (255 : Byte)) := by
      rw [FullPalette, List.length_replicate]
      split <;> decide
    have hcolour : ∀ v ∈ List.replicate 1024 (255 : Byte), v ≠ 0 := by
      intro v hv
      rw [List.eq_of_mem_replicate hv]
      decide
    exact straight_of_right hw hh hsize (hfits' (List.replicate 1024 255)) hinside rest hfull hcolour
      (hright _ hfull)
  · exact right_of_straight hw hh hsize (hfits' palette) hinside rest hfull hstraight
  · exact straight_of_right hw hh hsize hfits hinside rest hfull hcolour
  · exact right_of_straight hw hh hsize hfits hinside rest hfull

/-! ## A delta -/

/-- The loader of a bitmap of one column and two rows. -/
def columnLoader (size : ℤ) : BMPImageLoader where
  bfSize := 0
  bfOffBits := 0
  bgra_palette := List.replicate 1024 255
  bih := ⟨1, 2, 8, 1, size⟩

/-- A delta to the upper row, and a pixel there. -/
def upperPixel : Bitmap false := ⟨[.delta 0 1, .encoded 1 0 (by decide)], none⟩

/-- The end of the lower row, and a pixel in the upper one. -/
def upperLine : Bitmap false := ⟨[.endOfLine, .encoded 1 0 (by decide)], none⟩

theorem column_palette (size : ℤ) : FullPalette false (columnLoader size).bgra_palette ∧
    ∀ v ∈ (columnLoader size).bgra_palette, v ≠ 0 := by
  refine ⟨?_, fun v hv => ?_⟩
  · rw [FullPalette, columnLoader, List.length_replicate]
    decide
  · rw [List.eq_of_mem_replicate hv]
    decide

theorem readRLE_upperPixel : ¬Right (columnLoader 6) 1 2 upperPixel [] := by
  intro hright
  have hinside : ∀ q ∈ upperPixel.pixels, q.at_.x < 1 ∧ q.at_.k < 2 := by
    intro q hq
    obtain rfl := List.mem_singleton.mp hq
    decide
  have hstraight := straight_of_right (by decide) (by decide) (by decide)
    ⟨rfl, rfl, by decide⟩ hinside [] (column_palette 6).1 (column_palette 6).2 hright
  exact hstraight (.encoded 1 0 (by decide)) List.mem_cons_self trivial

theorem readRLE_upperLine : Right (columnLoader 4) 1 2 upperLine [] := by
  have hinside : ∀ q ∈ upperLine.pixels, q.at_.x < 1 ∧ q.at_.k < 2 := by
    intro q hq
    obtain rfl := List.mem_singleton.mp hq
    decide
  have hiff := readRLE_iff (by decide) (by decide) (by decide)
    (⟨rfl, rfl, by decide⟩ : Fits (columnLoader 4) 1 2 upperLine) hinside []
  exact (hiff.2 (column_palette 4).1 (column_palette 4).2).mpr trivial

end JavaFx.Iio.BMP
