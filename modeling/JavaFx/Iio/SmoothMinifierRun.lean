/-
The destination of a `SmoothMinifier` when all lines have been pushed.

The ring has the last `boxHeight` lines, each in the row of its number modulo `boxHeight`
(`Inv`). A destination line is computed right when the line at the bottom of its box comes
(`destRow_eq`), since the box is as high as the ring. But the last destination line is not
left behind: it is computed once more when the last line of the source comes, from the
same rows of the ring, which have newer lines then. That does no harm only if the last box
ends with the last line, or if the ring has room for all lines. The boxes are centered, and
so the first is the case only for boxes of one line, that is, if the heights are equal; the
second only for a single destination line (`right_iff`).
-/
import JavaFx.Iio.SmoothMinifier
import Mathlib.Algebra.Order.BigOperators.Group.List

set_option autoImplicit false

namespace JavaFx.Iio.SmoothMinifier

open JavaFx.Lib

/-! ## Sums and averages -/

/-- A sum below `2 ^ 31` is right on the way, too. -/
theorem foldl_addInt (xs : List ℕ) : ∀ acc : ℕ, acc + xs.sum < 2 ^ 31 →
    (xs.map (Nat.cast : ℕ → ℤ)).foldl addInt acc = (acc + xs.sum : ℕ) := by
  induction xs with
  | nil => exact fun acc _ => rfl
  | cons x xs ih =>
    intro acc h
    rw [List.sum_cons] at h
    have hadd : addInt acc x = (acc + x : ℕ) := by
      rw [addInt, ← Nat.cast_add]
      apply Int.bmod_eq_of_le <;> omega
    rw [List.map_cons, List.foldl_cons, hadd, ih (acc + x) (by omega), List.sum_cons,
      Nat.add_assoc]

theorem sumInt_eq {xs : List ℕ} (h : xs.sum < 2 ^ 31) :
    sumInt (xs.map (Nat.cast : ℕ → ℤ)) = xs.sum := by
  have hfold := foldl_addInt xs 0 (by omega)
  rw [Nat.zero_add] at hfold
  exact hfold

theorem toByte_natCast (a : ℕ) : (toByte a).toNat = a % 256 := by
  rw [toByte, BitVec.ofInt_natCast, BitVec.toNat_ofNat]

/-- The average of bytes is a byte. -/
theorem average_le {xs : List ℕ} {n : ℕ} (hlength : xs.length = n) (h : ∀ x ∈ xs, x < 256) :
    xs.sum / n < 256 := by
  have hsum : xs.sum ≤ n * 255 := by
    have hle := List.sum_le_card_nsmul xs 255 (fun x hx => Nat.le_of_lt_succ (h x hx))
    rwa [hlength, nsmul_eq_mul, Nat.cast_id] at hle
  rcases Nat.eq_zero_or_pos n with rfl | hpos
  · rw [Nat.div_zero]
    decide
  · exact Nat.lt_succ_of_le (Nat.div_le_of_le_mul hsum)

/-- What a loop over a box leaves. -/
theorem toByte_average {xs : List ℕ} {n : ℕ} (hlength : xs.length = n) (h : ∀ x ∈ xs, x < 256)
    (hsum : xs.sum < 2 ^ 31) :
    (toByte ((sumInt (xs.map (Nat.cast : ℕ → ℤ))).tdiv n)).toNat = xs.sum / n := by
  rw [sumInt_eq hsum, ← Int.ofNat_tdiv, toByte_natCast, Nat.mod_eq_of_lt (average_le hlength h)]

/-! ## Boxes -/

variable (z : Sizes)

namespace Sizes

theorem sourceHeight_pos : 0 < z.sourceHeight := Nat.lt_of_lt_of_le z.destHeight_pos z.destHeight_le

theorem sourceWidth_pos : 0 < z.sourceWidth := Nat.lt_of_lt_of_le z.destWidth_pos z.destWidth_le

theorem boxWidth_pos : 0 < z.boxWidth := by
  have := z.sourceWidth_pos
  exact Nat.div_pos (by omega) z.destWidth_pos

theorem boxHeight_pos : 0 < z.boxHeight := by
  have := z.sourceHeight_pos
  exact Nat.div_pos (by omega) z.destHeight_pos

theorem rightPoints_eq (dx : ℕ) : z.rightPoints dx + 1 = z.leftPoints dx + z.boxWidth := by
  have := z.boxWidth_pos
  unfold rightPoints leftPoints boxRight boxLeft
  omega

theorem bottomPoints_eq (dy : ℕ) : z.bottomPoints dy + 1 = z.topPoints dy + z.boxHeight := by
  have := z.boxHeight_pos
  unfold bottomPoints topPoints boxBottom boxTop
  omega

theorem bottomPoints_nonneg (dy : ℕ) : 0 ≤ z.bottomPoints dy :=
  add_nonneg (Int.natCast_nonneg _) (Int.natCast_nonneg _)

/-- `boxHeight` is the height of the source over that of the destination, rounded up. -/
theorem boxHeight_spec : z.sourceHeight ≤ z.boxHeight * z.destHeight
    ∧ z.boxHeight * z.destHeight < z.sourceHeight + z.destHeight := by
  have hpos := z.destHeight_pos
  have hmod := Nat.div_add_mod (z.sourceHeight + z.destHeight - 1) z.destHeight
  have hlt := Nat.mod_lt (z.sourceHeight + z.destHeight - 1) hpos
  have hcomm : z.boxHeight * z.destHeight
      = z.destHeight * ((z.sourceHeight + z.destHeight - 1) / z.destHeight) := Nat.mul_comm _ _
  omega

theorem ceil_le {a b : ℕ} (ha : 0 < a) (hb : 0 < b) : (a + b - 1) / b ≤ a := by
  apply Nat.div_le_of_le_mul
  have hprod := Nat.mul_le_mul (Nat.sub_le_sub_right hb 1) (Nat.sub_le_sub_right ha 1)
  obtain ⟨a, rfl⟩ : ∃ k, a = k + 1 := ⟨a - 1, by omega⟩
  obtain ⟨b, rfl⟩ : ∃ k, b = k + 1 := ⟨b - 1, by omega⟩
  rw [Nat.succ_mul, Nat.mul_succ]
  omega

theorem boxHeight_le : z.boxHeight ≤ z.sourceHeight := ceil_le z.sourceHeight_pos z.destHeight_pos

theorem boxWidth_le : z.boxWidth ≤ z.sourceWidth := ceil_le z.sourceWidth_pos z.destWidth_pos

/-- Each box ends below the one before. -/
theorem bottomPoints_lt {d d' : ℕ} (h : d < d') : z.bottomPoints d < z.bottomPoints d' := by
  have hstep : ∀ d, z.bottomPoints d < z.bottomPoints (d + 1) := by
    intro d
    have hle : d * z.sourceHeight / z.destHeight + 1
        ≤ (d + 1) * z.sourceHeight / z.destHeight := by
      rw [← Nat.add_div_right _ z.destHeight_pos, Nat.add_mul, Nat.one_mul]
      exact Nat.div_le_div_right (Nat.add_le_add_left z.destHeight_le _)
    unfold bottomPoints
    omega
  induction h with
  | refl => exact hstep d
  | step _ ih => exact ih.trans (hstep _)

/-- The last box ends half a box before the last line. -/
theorem bottomPoints_last :
    z.bottomPoints (z.destHeight - 1) = (z.sourceHeight : ℤ) - 1 - z.boxTop := by
  have hpos := z.boxHeight_pos
  have hspec := z.boxHeight_spec
  have hle := z.boxHeight_le
  have hdest := z.destHeight_pos
  have hquot : (z.destHeight - 1) * z.sourceHeight / z.destHeight
      = z.sourceHeight - z.boxHeight := by
    have hmul : (z.destHeight - 1) * z.sourceHeight + z.sourceHeight
        = z.destHeight * z.sourceHeight := by
      rw [← Nat.succ_mul, Nat.succ_eq_add_one, Nat.sub_add_cancel hdest]
    have hsub : (z.sourceHeight - z.boxHeight) * z.destHeight + z.boxHeight * z.destHeight
        = z.destHeight * z.sourceHeight := by
      rw [← Nat.add_mul, Nat.sub_add_cancel hle, Nat.mul_comm]
    apply Nat.div_eq_of_lt_le
    · omega
    · rw [Nat.succ_mul]
      omega
  unfold bottomPoints boxBottom
  rw [hquot]
  have htop : z.boxTop < z.boxHeight := Nat.div_lt_self hpos (by decide)
  omega

end Sizes

/-- A box of columns has as many samples as it is wide. -/
theorem length_lineBox (l : Scanline) (i k : ℕ) : (lineBox z l i k).length = z.boxWidth := by
  have := z.rightPoints_eq i
  rw [lineBox, List.length_map, upTo, List.length_map, List.length_range]
  omega

theorem lineBox_lt {l : Scanline} {i k x : ℕ} (h : x ∈ lineBox z l i k) : x < 256 := by
  obtain ⟨j, -, rfl⟩ := List.mem_map.mp h
  exact BitVec.isLt _

theorem lineAverage_lt (l : Scanline) (x : ℕ) : lineAverage z l x < 256 :=
  average_le (length_lineBox z l _ _) (fun _ => lineBox_lt z)

theorem length_box (source : ℕ → Scanline) (dy x : ℕ) : (box z source dy x).length = z.boxHeight := by
  have := z.bottomPoints_eq dy
  rw [box, List.length_map, upTo, List.length_map, List.length_range]
  omega

theorem box_lt {source : ℕ → Scanline} {dy x a : ℕ} (h : a ∈ box z source dy x) : a < 256 := by
  obtain ⟨y, -, rfl⟩ := List.mem_map.mp h
  exact lineAverage_lt z _ x

/-- Clamping is what the loop over a line does at the ends. -/
theorem clamp_cases {size : ℕ} (hpos : 0 < size) (j : ℤ) :
    j < 0 ∧ clamp size j = 0 ∨ (size : ℤ) ≤ j ∧ ¬ j < 0 ∧ clamp size j = size - 1
      ∨ ¬ j < 0 ∧ ¬ (size : ℤ) ≤ j ∧ clamp size j = j.toNat := by
  unfold clamp
  omega

/-- **A line.** The loops average over its boxes. -/
theorem averages_eq {l : Scanline} {x : ℕ}
    (h : (lineBox z l (x / z.numBands) (x % z.numBands)).sum < 2 ^ 31) :
    (averages z l x).toNat = lineAverage z l x := by
  have hwidth := z.sourceWidth_pos
  have hpoints : ∀ i, z.rightPoints i - z.leftPoints i + 1 = (z.boxWidth : ℤ) := by
    intro i
    have := z.rightPoints_eq i
    omega
  rw [averages, lineAverage, ← toByte_average (length_lineBox z l _ _) (fun _ => lineBox_lt z) h]
  split
  · -- one band, and no band to skip to
    rename_i hone
    have hdiv : x / z.numBands = x := by rw [hone, Nat.div_one]
    have hmod : x % z.numBands = 0 := by rw [hone, Nat.mod_one]
    rw [hdiv, hmod, averageOne, lineBox, hpoints, List.map_map]
    congr 4
    refine List.map_congr_left (fun j _ => ?_)
    rw [Function.comp_apply, hone, Nat.mul_one, Nat.add_zero]
    rcases clamp_cases hwidth j with ⟨hneg, hc⟩ | ⟨hge, hneg, hc⟩ | ⟨hneg, hge, hc⟩
    · rw [if_pos hneg, hc, Nat.add_zero]
    · rw [if_neg hneg, if_pos hge, hc, Nat.add_sub_assoc hwidth]
    · rw [if_neg hneg, if_neg hge, hc]
  · rw [averageBand, lineBox, hpoints, List.map_map]
    congr 4
    refine List.map_congr_left (fun j _ => ?_)
    rw [Function.comp_apply]
    rcases clamp_cases hwidth j with ⟨hneg, hc⟩ | ⟨hge, hneg, hc⟩ | ⟨hneg, hge, hc⟩
    · rw [if_pos hneg, hc, Nat.zero_mul, Nat.add_zero]
    · rw [if_neg hneg, if_pos hge, hc]
    · rw [if_neg hneg, if_neg hge, hc]

/-! ## The ring -/

/-- Where a line is in a ring of `b` rows, that has got as far as the line `t`. -/
theorem mod_of_window {b t q : ℕ} (hle : q ≤ t) (hlt : t < q + b) :
    q % b = if t - q ≤ t % b then t % b - (t - q) else t % b + b - (t - q) := by
  have hsplit := Nat.div_add_mod t b
  split
  · rename_i h
    have hq : q = b * (t / b) + (t % b - (t - q)) := by omega
    have hmod := Nat.mod_lt t (by omega : 0 < b)
    conv_lhs => rw [hq]
    rw [Nat.mul_add_mod, Nat.mod_eq_of_lt (by omega)]
  · rename_i h
    -- the ring has been gone round at least once
    obtain ⟨k, hk⟩ : ∃ k, t / b = k + 1 := by
      refine ⟨t / b - 1, (Nat.succ_pred_eq_of_pos (Nat.pos_of_ne_zero fun hzero => ?_)).symm⟩
      rw [hzero, Nat.mul_zero] at hsplit
      omega
    rw [hk, Nat.mul_add, Nat.mul_one] at hsplit
    have hq : q = b * k + (t % b + b - (t - q)) := by omega
    conv_lhs => rw [hq]
    rw [Nat.mul_add_mod, Nat.mod_eq_of_lt (by omega)]

/-- The remainder of what is smaller than the divisor, on both sides of zero. -/
theorem tmod_of_lt {v : ℤ} {b : ℕ} (hlo : -(b : ℤ) < v) (hhi : v < b) : v.tmod b = v := by
  rcases lt_or_ge v 0 with hneg | hpos
  · rw [← neg_neg v, Int.neg_tmod, Int.tmod_eq_of_lt (by omega) (by omega)]
  · exact Int.tmod_eq_of_lt hpos hhi

/-- The ring has the averages of the last lines, up to the line `t`. -/
structure Ring (source : ℕ → Scanline) (s : State) (t : ℕ) : Prop where
  sourceLine : s.sourceLine = t
  sourceDataLine : s.sourceDataLine = t % z.boxHeight
  rows : ∀ y ≤ t, t < y + z.boxHeight → ∀ x < destLength z,
    s.sourceData (y % z.boxHeight) x = averages z (source y) x

variable {z} {source : ℕ → Scanline} {s s' : State} {t : ℕ}

/-- A line of the source that the ring has is in the row that is read for it. -/
theorem Ring.rowIndex_eq (h : Ring z source s t) (ht : t < z.sourceHeight) {y : ℤ}
    (hle : clamp z.sourceHeight y ≤ t) (hlt : t < clamp z.sourceHeight y + z.boxHeight) :
    rowIndex z s y = (clamp z.sourceHeight y % z.boxHeight : ℕ) := by
  have hpos := z.boxHeight_pos
  have hmod := Nat.mod_lt t hpos
  unfold rowIndex
  rw [h.sourceLine, h.sourceDataLine]
  rcases clamp_cases z.sourceHeight_pos y with ⟨hneg, hc⟩ | ⟨hge, hneg, hc⟩ | ⟨hneg, hge, hc⟩
  · -- above the source; the ring has not been gone round
    rw [hc] at hlt ⊢
    rw [if_pos hneg, Nat.mod_eq_of_lt (by omega : t < z.boxHeight), Nat.zero_mod]
    dsimp only
    rw [if_neg (by omega)]
    omega
  · rw [hc] at hle ⊢
    have hlast : t = z.sourceHeight - 1 := by omega
    rw [if_neg hneg, if_pos hge, ← hlast]
    have hindex : ((z.sourceHeight : ℤ) - 1 - t + (t % z.boxHeight : ℕ)).tmod z.boxHeight
        = (t % z.boxHeight : ℕ) := by
      rw [tmod_of_lt (by omega) (by omega)]
      omega
    dsimp only
    rw [hindex, if_neg (by omega)]
  · rw [hc] at hle hlt ⊢
    rw [if_neg hneg, if_neg hge, mod_of_window hle hlt]
    have hindex : (y - t + (t % z.boxHeight : ℕ)).tmod z.boxHeight
        = y - t + (t % z.boxHeight : ℕ) := tmod_of_lt (by omega) (by omega)
    dsimp only
    rw [hindex]
    split <;> split <;> omega

theorem mapM_ok {A B : Type} {f : A → Except Exn B} {g : A → B} {l : List A}
    (h : ∀ a ∈ l, f a = .ok (g a)) : l.mapM f = .ok (l.map g) := by
  induction l with
  | nil => rfl
  | cons a l ih =>
    rw [List.mapM_cons, h a List.mem_cons_self,
      ih (fun b hb => h b (List.mem_cons_of_mem _ hb))]
    rfl

/-- The ring has all lines of the box. -/
def HasBox (z : Sizes) (dy t : ℕ) : Prop :=
  ∀ y : ℤ, z.topPoints dy ≤ y → y ≤ z.bottomPoints dy →
    clamp z.sourceHeight y ≤ t ∧ t < clamp z.sourceHeight y + z.boxHeight

/-- What is computed from a box that the ring has. -/
theorem Ring.destRow_ok (h : Ring z source s t) (ht : t < z.sourceHeight)
    (hbox : HasBox z s.destLine t) :
    ∃ b, destRow z s = .ok b ∧ ∀ x < destLength z, b x = toByte ((sumInt
      ((upTo (z.topPoints s.destLine) (z.bottomPoints s.destLine + 1)).map fun y =>
        ((averages z (source (clamp z.sourceHeight y)) x).toNat : ℤ))).tdiv z.boxHeight) := by
  have hpos := z.boxHeight_pos
  have hrow : ∀ y ∈ upTo (z.topPoints s.destLine) (z.bottomPoints s.destLine + 1),
      row z s (rowIndex z s y)
        = .ok (s.sourceData (clamp z.sourceHeight y % z.boxHeight)) := by
    intro y hy
    obtain ⟨hlo, hhi⟩ := mem_upTo.mp hy
    obtain ⟨hle, hlt⟩ := hbox y hlo (by omega)
    have hmod := Nat.mod_lt (clamp z.sourceHeight y) hpos
    rw [row, h.rowIndex_eq ht hle hlt, if_pos (by omega), Int.toNat_natCast]
  refine ⟨_, by rw [destRow, mapM_ok hrow]; rfl, fun x hx => ?_⟩
  rw [List.map_map]
  congr 3
  refine List.map_congr_left (fun y hy => ?_)
  obtain ⟨hlo, hhi⟩ := mem_upTo.mp hy
  obtain ⟨hle, hlt⟩ := hbox y hlo (by omega)
  rw [Function.comp_apply, h.rows _ hle hlt x hx]

theorem clamp_lt (hpos : 0 < z.sourceHeight) (y : ℤ) : clamp z.sourceHeight y < z.sourceHeight := by
  rcases clamp_cases hpos y with ⟨-, hc⟩ | ⟨-, -, hc⟩ | ⟨-, hge, hc⟩ <;> omega

/-- **A destination line.** It is right if the ring has all lines of its box. -/
theorem Ring.destRow_eq (h : Ring z source s t) (ht : t < z.sourceHeight)
    (hbox : HasBox z s.destLine t) (hdest : s.destLine < z.destHeight)
    (hfit : SumsFit z source) :
    ∃ b, destRow z s = .ok b
      ∧ ∀ x < destLength z, (b x).toNat = average z source s.destLine x := by
  obtain ⟨b, hb, heq⟩ := h.destRow_ok ht hbox
  refine ⟨b, hb, fun x hx => ?_⟩
  have hlist : (upTo (z.topPoints s.destLine) (z.bottomPoints s.destLine + 1)).map
      (fun y => ((averages z (source (clamp z.sourceHeight y)) x).toNat : ℤ))
        = (box z source s.destLine x).map (Nat.cast : ℕ → ℤ) := by
    rw [box, List.map_map]
    refine List.map_congr_left (fun y _ => ?_)
    have hline := hfit.lines _ (clamp_lt z.sourceHeight_pos y) x hx
    rw [Function.comp_apply, averages_eq z hline]
  rw [heq x hx, hlist, toByte_average (length_box z source _ x) (fun _ => box_lt z)
    (hfit.boxes _ hdest x hx)]
  rfl

/-! ## One push -/

/-- The line is averaged into the ring. -/
def pushed (z : Sizes) (s : State) (l : Scanline) : State :=
  { s with
    sourceData := Function.update s.sourceData s.sourceDataLine fun x =>
      if x < destLength z then averages z l x else s.sourceData s.sourceDataLine x }

/-- The destination line is written. -/
def written (z : Sizes) (s : State) (b : ℕ → Byte) : State :=
  { s with
    dest := writeRow z s.dest s.destLine b
    destLine := if s.destLine < z.destHeight - 1 then s.destLine + 1 else s.destLine }

/-- The counters go on. -/
def next (z : Sizes) (s : State) : State :=
  { s with
    sourceLine := s.sourceLine + 1
    sourceDataLine :=
      if s.sourceLine + 1 ≠ z.sourceHeight then (s.sourceDataLine + 1) % z.boxHeight
      else s.sourceDataLine }

theorem push_of_not_due {l : Scanline} (h : ¬ due z (pushed z s l)) :
    push z s l = .ok (next z (pushed z s l)) := by
  rw [push, putSourceScanline]
  dsimp only
  split
  · rename_i hdue
    exact absurd hdue h
  · rfl

theorem push_of_due {l : Scanline} (h : due z (pushed z s l)) :
    push z s l = destRow z (pushed z s l) >>= fun b => .ok (next z (written z (pushed z s l) b)) := by
  rw [push, putSourceScanline]
  dsimp only
  split
  · change ((destRow z (pushed z s l) >>= _) >>= _) = _
    cases destRow z (pushed z s l) <;> rfl
  · rename_i hdue
    exact absurd h hdue

/-- Between pushes: `t` lines have been pushed. The destination lines before `destLine` have
been left behind, and `destLine` is still to come, unless it is the last one. -/
structure Inv (source : ℕ → Scanline) (z : Sizes) (s : State) (t : ℕ) : Prop where
  sourceLine : s.sourceLine = t
  sourceDataLine : t < z.sourceHeight → s.sourceDataLine = t % z.boxHeight
  rows : ∀ y < t, t ≤ y + z.boxHeight → ∀ x < destLength z,
    s.sourceData (y % z.boxHeight) x = averages z (source y) x
  destLine : s.destLine < z.destHeight
  waiting : (t : ℤ) ≤ z.bottomPoints s.destLine ∨ s.destLine = z.destHeight - 1
  past : ∀ d < s.destLine, z.bottomPoints d < t

theorem inv_start : Inv source z start 0 := by
  refine ⟨rfl, fun _ => (Nat.zero_mod _).symm, fun y hy => absurd hy (Nat.not_lt_zero y),
    z.destHeight_pos, ?_, fun d hd => absurd hd (Nat.not_lt_zero d)⟩
  exact Or.inl (z.bottomPoints_nonneg _)

theorem Inv.ring (h : Inv source z s t) (ht : t < z.sourceHeight) :
    Ring z source (pushed z s (source t)) t := by
  have hline := h.sourceDataLine ht
  refine ⟨h.sourceLine, hline, ?_⟩
  intro y hle hlt x hx
  rcases Nat.lt_or_eq_of_le hle with hyt | rfl
  · -- another row
    have hne : y % z.boxHeight ≠ s.sourceDataLine := by
      have hmod := Nat.mod_lt t z.boxHeight_pos
      rw [hline, mod_of_window hle hlt]
      split <;> omega
    change Function.update s.sourceData s.sourceDataLine _ (y % z.boxHeight) x = _
    rw [Function.update_of_ne hne]
    exact h.rows y hyt (by omega) x hx
  · change Function.update s.sourceData s.sourceDataLine _ (y % z.boxHeight) x = _
    rw [← hline, Function.update_self, if_pos hx]

theorem Inv.due_iff (h : Inv source z s t) : due z (pushed z s (source t))
    ↔ (t : ℤ) = z.bottomPoints s.destLine
      ∨ s.destLine = z.destHeight - 1 ∧ t = z.sourceHeight - 1 := by
  unfold due
  change ((s.sourceLine : ℤ) = z.bottomPoints s.destLine
    ∨ s.destLine = z.destHeight - 1 ∧ s.sourceLine = z.sourceHeight - 1) ↔ _
  rw [h.sourceLine]

/-- The counters after a push, and the rows of the ring. -/
theorem Ring.next (h : Ring z source s t) :
    (next z s).sourceLine = t + 1
      ∧ (t + 1 < z.sourceHeight → (next z s).sourceDataLine = (t + 1) % z.boxHeight)
      ∧ ∀ y < t + 1, t + 1 ≤ y + z.boxHeight → ∀ x < destLength z,
        (next z s).sourceData (y % z.boxHeight) x = averages z (source y) x := by
  refine ⟨congrArg (· + 1) h.sourceLine, fun ht => ?_, fun y hy hlt => h.rows y (by omega) (by omega)⟩
  change (if s.sourceLine + 1 ≠ z.sourceHeight then (s.sourceDataLine + 1) % z.boxHeight
    else s.sourceDataLine) = _
  rw [h.sourceLine, h.sourceDataLine, if_pos (by omega), Nat.mod_add_mod]

theorem Inv.next_of_not_due (h : Inv source z s t) (ht : t < z.sourceHeight)
    (hdue : ¬ due z (pushed z s (source t))) : Inv source z (next z (pushed z s (source t))) (t + 1) := by
  obtain ⟨hline, hdata, hrows⟩ := (h.ring ht).next
  rw [h.due_iff, not_or] at hdue
  refine ⟨hline, hdata, hrows, h.destLine, ?_, fun d hd => (h.past d hd).trans (by omega)⟩
  change ((t + 1 : ℕ) : ℤ) ≤ z.bottomPoints s.destLine ∨ s.destLine = z.destHeight - 1
  refine h.waiting.imp_left fun hle => ?_
  have hne := hdue.1
  omega

theorem Inv.next_of_due (h : Inv source z s t) (ht : t < z.sourceHeight)
    (hdue : due z (pushed z s (source t))) (b : ℕ → Byte) :
    Inv source z (next z (written z (pushed z s (source t)) b)) (t + 1) := by
  have hring : Ring z source (written z (pushed z s (source t)) b) t :=
    ⟨(h.ring ht).sourceLine, (h.ring ht).sourceDataLine, (h.ring ht).rows⟩
  obtain ⟨hline, hdata, hrows⟩ := hring.next
  rw [h.due_iff] at hdue
  have hdest := h.destLine
  have hdestLine : (next z (written z (pushed z s (source t)) b)).destLine
      = if s.destLine < z.destHeight - 1 then s.destLine + 1 else s.destLine := rfl
  by_cases hmore : s.destLine < z.destHeight - 1
  · -- a destination line is left behind
    rw [if_pos hmore] at hdestLine
    have hbottom : (t : ℤ) = z.bottomPoints s.destLine := hdue.resolve_right (by omega)
    have hlt := z.bottomPoints_lt (Nat.lt_succ_self s.destLine)
    refine ⟨hline, hdata, hrows, by omega, ?_, ?_⟩
    · left
      rw [hdestLine]
      change ((t + 1 : ℕ) : ℤ) ≤ z.bottomPoints s.destLine.succ
      omega
    · intro d hd
      rw [hdestLine] at hd
      rcases Nat.lt_succ_iff_lt_or_eq.mp hd with hd | rfl
      · exact (h.past d hd).trans (by omega)
      · omega
  · rw [if_neg hmore] at hdestLine
    refine ⟨hline, hdata, hrows, by omega, ?_, ?_⟩
    · right
      omega
    · intro d hd
      rw [hdestLine] at hd
      exact (h.past d hd).trans (by omega)

/-! ## The destination -/

theorem writeRow_self (dest b : ℕ → Byte) (dy : ℕ) {x : ℕ} (hx : x < destLength z) :
    writeRow z dest dy b (dy * z.destWidth * z.numBands + x) = b x := by
  rw [writeRow]
  rw [if_pos ⟨by omega, by omega⟩, Nat.add_sub_cancel_left]

theorem writeRow_other (dest b : ℕ → Byte) {dy d : ℕ} (hd : d ≠ dy) {x : ℕ}
    (hx : x < destLength z) :
    writeRow z dest dy b (d * z.destWidth * z.numBands + x)
      = dest (d * z.destWidth * z.numBands + x) := by
  have hoffset : ∀ d, d * z.destWidth * z.numBands = d * destLength z := fun d => Nat.mul_assoc ..
  have hapart : ∀ {a c : ℕ}, a < c → a * destLength z + destLength z ≤ c * destLength z := by
    intro a c hac
    rw [← Nat.succ_mul]
    exact Nat.mul_le_mul_right _ hac
  rw [writeRow]
  refine if_neg ?_
  rw [hoffset, hoffset]
  rintro ⟨hle, hlt⟩
  rcases Nat.lt_or_gt_of_ne hd with hd | hd
  · have := hapart hd
    omega
  · have := hapart hd
    omega

/-- The destination lines whose boxes have ended are right. -/
def Done (source : ℕ → Scanline) (z : Sizes) (s : State) (t : ℕ) : Prop :=
  ∀ d < z.destHeight, z.bottomPoints d < t → ∀ x < destLength z,
    (s.dest (d * z.destWidth * z.numBands + x)).toNat = average z source d x

/-- The destination line whose box ends with the line that comes is the next one. -/
theorem Inv.eq_destLine (h : Inv source z s t) {d : ℕ} (hd : d < z.destHeight)
    (hbottom : (t : ℤ) = z.bottomPoints d) : d = s.destLine := by
  rcases Nat.lt_trichotomy d s.destLine with hlt | heq | hgt
  · have := h.past d hlt
    omega
  · exact heq
  · have := z.bottomPoints_lt hgt
    rcases h.waiting with hle | hlast <;> omega

/-- A box that ends with the line is in the ring. -/
theorem hasBox_bottom {dy : ℕ} (ht : t < z.sourceHeight) (h : (t : ℤ) = z.bottomPoints dy) :
    HasBox z dy t := by
  have hbox := z.bottomPoints_eq dy
  intro y hlo hhi
  rcases clamp_cases z.sourceHeight_pos y with ⟨hneg, hc⟩ | ⟨hge, hneg, hc⟩ | ⟨hneg, hge, hc⟩ <;>
    omega

/-- A ring with room for all lines has them all at the end. -/
theorem hasBox_all (dy : ℕ) (hroom : z.boxHeight = z.sourceHeight) :
    HasBox z dy (z.sourceHeight - 1) := by
  intro y _ _
  have hlt := clamp_lt z.sourceHeight_pos y
  omega

/-- **A push.** A destination line that is computed is right, if the ring has its box. -/
theorem Inv.push (h : Inv source z s t) (ht : t < z.sourceHeight)
    (hbox : due z (pushed z s (source t)) → HasBox z s.destLine t) :
    ∃ s', push z s (source t) = .ok s' ∧ Inv source z s' (t + 1)
      ∧ (SumsFit z source → Done source z s t → Done source z s' (t + 1)) := by
  by_cases hdue : due z (pushed z s (source t))
  · have hring := h.ring ht
    have hdest : (pushed z s (source t)).destLine < z.destHeight := h.destLine
    obtain ⟨b, hb, -⟩ := hring.destRow_ok ht (hbox hdue)
    refine ⟨_, by rw [push_of_due hdue, hb]; rfl, h.next_of_due ht hdue b, ?_⟩
    intro hfit hdone d hd hbottom x hx
    change (writeRow z s.dest s.destLine b (d * z.destWidth * z.numBands + x)).toNat = _
    by_cases hds : d = s.destLine
    · obtain ⟨b', hb', heq⟩ := hring.destRow_eq ht (hbox hdue) hdest hfit
      rw [hb, Except.ok.injEq] at hb'
      rw [hds, writeRow_self _ _ _ hx, hb']
      exact heq x hx
    · rw [writeRow_other _ _ hds hx]
      -- the line that comes ends no other box
      exact hdone d hd (lt_of_le_of_ne (by omega) fun heq =>
        hds (h.eq_destLine hd heq.symm)) x hx
  · refine ⟨_, push_of_not_due hdue, h.next_of_not_due ht hdue, ?_⟩
    intro _ hdone d hd hbottom x hx
    refine hdone d hd (lt_of_le_of_ne (by omega) fun heq => ?_) x hx
    rw [h.eq_destLine hd heq.symm] at heq
    exact hdue (h.due_iff.mpr (Or.inl heq.symm))

/-! ## All pushes -/

/-- The lines that have been pushed, when the ring has the box of the last destination
line at the end, or the end is still to come. -/
theorem pushLines_inv (source : ℕ → Scanline) (count : ℕ) : count ≤ z.sourceHeight →
    (count = z.sourceHeight → HasBox z (z.destHeight - 1) (z.sourceHeight - 1)) →
    ∃ s, pushLines z source count = .ok s ∧ Inv source z s count
      ∧ (SumsFit z source → Done source z s count) := by
  induction count with
  | zero =>
    intro _ _
    refine ⟨start, rfl, inv_start, fun _ d _ hbottom => ?_⟩
    have := z.bottomPoints_nonneg d
    omega
  | succ t ih =>
    intro hle hend
    obtain ⟨s, hs, hinv, hdone⟩ := ih (by omega) (fun heq => by omega)
    have hbox : due z (pushed z s (source t)) → HasBox z s.destLine t := by
      intro hdue
      rcases hinv.due_iff.mp hdue with hbottom | ⟨hlast, ht⟩
      · exact hasBox_bottom hle hbottom
      · rw [hlast, ht]
        exact hend (by omega)
    obtain ⟨s', hs', hinv', hdone'⟩ := hinv.push hle hbox
    refine ⟨s', ?_, hinv', fun hfit => hdone' hfit (hdone hfit)⟩
    rw [pushLines, List.range_succ, List.map_append, run_append_ok hs]
    exact (run_singleton ..).trans hs'

/-- The heights for which the ring has the last box at the end. -/
theorem hasBox_last (h : z.destHeight = 1 ∨ z.destHeight = z.sourceHeight) :
    HasBox z (z.destHeight - 1) (z.sourceHeight - 1) := by
  have hsource := z.sourceHeight_pos
  rcases h with hone | hsame
  · apply hasBox_all
    rw [Sizes.boxHeight, hone, Nat.div_one, Nat.add_sub_cancel]
  · apply hasBox_bottom (by omega)
    have hheight : z.boxHeight = 1 := by
      have hspec := z.boxHeight_spec
      have hpos := z.boxHeight_pos
      rw [hsame] at hspec
      by_contra hne
      have hmul : 2 * z.sourceHeight ≤ z.boxHeight * z.sourceHeight :=
        Nat.mul_le_mul_right _ (by omega)
      omega
    rw [z.bottomPoints_last, Sizes.boxTop, hheight]
    omega

/-- For these heights the whole destination is right. -/
theorem right_of_heights (h : z.destHeight = 1 ∨ z.destHeight = z.sourceHeight)
    {source : ℕ → Scanline} (hfit : SumsFit z source) : Right z source := by
  obtain ⟨s, hs, -, hdone⟩ := pushLines_inv source z.sourceHeight (Nat.le_refl _)
    (fun _ => hasBox_last h)
  refine ⟨s, hs, fun d hd => hdone hfit d hd ?_⟩
  have hlast := z.bottomPoints_last
  rcases Nat.lt_or_ge d (z.destHeight - 1) with hlt | hge
  · have := z.bottomPoints_lt hlt
    omega
  · rw [show d = z.destHeight - 1 by omega, hlast]
    omega

/-! ## The last destination line -/

/-- Lines of ones as far as the last box goes, and of zeros below it. -/
def onesAndZeros (z : Sizes) (y : ℕ) : Scanline :=
  ⟨fun _ => if (y : ℤ) ≤ z.bottomPoints (z.destHeight - 1) then 1 else 0, 0⟩

/-- The sample everywhere in such a line. -/
def sampleOf (z : Sizes) (y : ℕ) : ℕ :=
  if (y : ℤ) ≤ z.bottomPoints (z.destHeight - 1) then 1 else 0

theorem sampleOf_le (y : ℕ) : sampleOf z y ≤ 1 := by
  unfold sampleOf
  split <;> decide

theorem sum_of_forall_eq {xs : List ℕ} {v : ℕ} (h : ∀ x ∈ xs, x = v) :
    xs.sum = xs.length * v := by
  rw [List.eq_replicate_of_mem h, List.sum_replicate, List.length_replicate, nsmul_eq_mul,
    Nat.cast_id]

theorem sum_lineBox (y i k : ℕ) :
    (lineBox z (onesAndZeros z y) i k).sum = z.boxWidth * sampleOf z y := by
  rw [sum_of_forall_eq (v := sampleOf z y), length_lineBox]
  intro x hx
  obtain ⟨j, -, rfl⟩ := List.mem_map.mp hx
  unfold onesAndZeros sampleOf
  dsimp only
  split <;> rfl

theorem lineAverage_onesAndZeros (y x : ℕ) :
    lineAverage z (onesAndZeros z y) x = sampleOf z y := by
  rw [lineAverage, sum_lineBox, Nat.mul_div_cancel_left _ z.boxWidth_pos]

theorem sum_le_length {xs : List ℕ} (h : ∀ x ∈ xs, x ≤ 1) : xs.sum ≤ xs.length := by
  have hle := List.sum_le_card_nsmul xs 1 h
  rwa [nsmul_eq_mul, Nat.cast_id, Nat.mul_one] at hle

/-- Nothing overflows. -/
theorem sumsFit_onesAndZeros : SumsFit z (onesAndZeros z) := by
  have hwidth := z.boxWidth_le
  have hheight := z.boxHeight_le
  have hltWidth := z.sourceWidth_lt
  have hltHeight := z.sourceHeight_lt
  refine ⟨fun y _ x _ => ?_, fun dy _ x _ => ?_⟩
  · rw [sum_lineBox]
    have hle := Nat.mul_le_mul_left z.boxWidth (sampleOf_le (z := z) y)
    omega
  · have hle : (box z (onesAndZeros z) dy x).sum ≤ (box z (onesAndZeros z) dy x).length := by
      refine sum_le_length fun a ha => ?_
      obtain ⟨y, -, rfl⟩ := List.mem_map.mp ha
      rw [lineAverage_onesAndZeros]
      exact sampleOf_le _
    rw [length_box] at hle
    omega

/-- The last box is of ones only. -/
theorem average_onesAndZeros (x : ℕ) :
    average z (onesAndZeros z) (z.destHeight - 1) x = 1 := by
  have hones : ∀ a ∈ box z (onesAndZeros z) (z.destHeight - 1) x, a = 1 := by
    intro a ha
    obtain ⟨y, hy, rfl⟩ := List.mem_map.mp ha
    have hbottom := z.bottomPoints_nonneg (z.destHeight - 1)
    have hlast := z.bottomPoints_last
    rw [lineAverage_onesAndZeros]
    refine if_pos ?_
    rcases clamp_cases z.sourceHeight_pos y with ⟨-, hc⟩ | ⟨hge, -, hc⟩ | ⟨hneg, -, hc⟩
    · rw [hc]
      exact hbottom
    · have := (mem_upTo.mp hy).2
      omega
    · have := (mem_upTo.mp hy).2
      omega
  rw [average, sum_of_forall_eq hones, length_box, Nat.mul_one, Nat.div_self z.boxHeight_pos]

theorem averages_onesAndZeros {x : ℕ} (hx : x < destLength z) {y : ℕ} (hy : y < z.sourceHeight) :
    (averages z (onesAndZeros z y) x).toNat = sampleOf z y := by
  rw [averages_eq z (sumsFit_onesAndZeros.lines y hy x hx), lineAverage_onesAndZeros]

/-- With as many rows as lines at most, every row has a line. -/
theorem exists_line {b t q : ℕ} (hq : q < b) (hb : b ≤ t + 1) :
    ∃ y ≤ t, t < y + b ∧ y % b = q := by
  have hmod := Nat.mod_lt t (by omega : 0 < b)
  refine ⟨t - (if q ≤ t % b then t % b - q else t % b + b - q), by omega, ?_, ?_⟩
  · split <;> omega
  · rw [mod_of_window (t := t) (by omega) (by split <;> omega)]
    split <;> split <;> omega

theorem of_mapM_ok {A B : Type} {f : A → Except Exn B} {l : List A} :
    ∀ {rs : List B}, l.mapM f = .ok rs → rs.length = l.length
      ∧ (∀ b ∈ rs, ∃ a ∈ l, f a = .ok b) ∧ ∀ a ∈ l, ∃ b ∈ rs, f a = .ok b := by
  induction l with
  | nil =>
    intro rs h
    cases h
    exact ⟨rfl, fun b hb => absurd hb List.not_mem_nil, fun a ha => absurd ha List.not_mem_nil⟩
  | cons a l ih =>
    intro rs h
    rw [List.mapM_cons] at h
    obtain ⟨b, hb, h⟩ := bind_eq_ok.mp h
    obtain ⟨bs, hbs, h⟩ := bind_eq_ok.mp h
    cases h
    obtain ⟨hlength, hfrom, hto⟩ := ih hbs
    refine ⟨congrArg (· + 1) hlength, ?_, ?_⟩
    · intro c hc
      rcases List.mem_cons.mp hc with rfl | hc
      · exact ⟨a, List.mem_cons_self, hb⟩
      · obtain ⟨a', ha', heq⟩ := hfrom c hc
        exact ⟨a', List.mem_cons_of_mem _ ha', heq⟩
    · intro a' ha'
      rcases List.mem_cons.mp ha' with rfl | ha'
      · exact ⟨b, List.mem_cons_self, hb⟩
      · obtain ⟨c, hc, heq⟩ := hto a' ha'
        exact ⟨c, List.mem_cons_of_mem _ hc, heq⟩

/-- A zero among ones. -/
theorem sum_lt_length {xs : List ℕ} (h : ∀ x ∈ xs, x ≤ 1) (hzero : 0 ∈ xs) :
    xs.sum < xs.length := by
  obtain ⟨as, bs, rfl⟩ := List.append_of_mem hzero
  have has := sum_le_length fun x hx => h x (List.mem_append_left _ hx)
  have hbs := sum_le_length fun x hx =>
    h x (List.mem_append_right _ (List.mem_cons_of_mem _ hx))
  rw [List.sum_append, List.sum_cons, List.length_append, List.length_cons]
  omega

/-- The heights of the other sizes. -/
structure Between (z : Sizes) : Prop where
  top_pos : 0 < z.boxTop
  boxHeight_lt : z.boxHeight < z.sourceHeight

theorem between (h : ¬ (z.destHeight = 1 ∨ z.destHeight = z.sourceHeight)) : Between z := by
  obtain ⟨hone, hsame⟩ := not_or.mp h
  have hpos := z.destHeight_pos
  have hle := z.destHeight_le
  have hspec := z.boxHeight_spec
  have htwo : 2 ≤ z.boxHeight := by
    by_contra hlt
    have hmul : z.boxHeight * z.destHeight ≤ 1 * z.destHeight :=
      Nat.mul_le_mul_right _ (by omega)
    omega
  refine ⟨Nat.div_pos htwo (by decide), ?_⟩
  by_contra hge
  have hmul : z.sourceHeight * 2 ≤ z.sourceHeight * z.destHeight :=
    Nat.mul_le_mul_left _ (by omega)
  have hmul' : z.sourceHeight * z.destHeight ≤ z.boxHeight * z.destHeight :=
    Nat.mul_le_mul_right _ (by omega)
  omega

/-- A line below the box is in a row of the ring when the last line has come. -/
theorem Ring.destRow_zero (h : Ring z (onesAndZeros z) s (z.sourceHeight - 1))
    (hz : Between z) (hline : s.destLine = z.destHeight - 1) {b : ℕ → Byte}
    (hb : destRow z s = .ok b) : (b 0).toNat = 0 := by
  have hheight := z.boxHeight_pos
  have hsource := z.sourceHeight_pos
  have hlt := hz.boxHeight_lt
  have htop := hz.top_pos
  have htop' : z.boxTop < z.boxHeight := Nat.div_lt_self hheight (by decide)
  have hlen : 0 < destLength z := Nat.mul_pos z.destWidth_pos z.numBands_pos
  have hlast := z.bottomPoints_last
  have hbox := z.bottomPoints_eq (z.destHeight - 1)
  obtain ⟨rows, hrows, hb⟩ := bind_eq_ok.mp hb
  cases hb
  obtain ⟨hlength, hfrom, hto⟩ := of_mapM_ok hrows
  rw [hline] at hlength hfrom hto
  have hrow : ∀ {index : ℤ} {r : ℕ → Byte}, row z s index = .ok r →
      0 ≤ index ∧ index < z.boxHeight ∧ r = s.sourceData index.toNat := by
    intro index r hr
    unfold row at hr
    split at hr
    · rename_i hindex
      cases hr
      exact ⟨hindex.1, hindex.2, rfl⟩
    · cases hr
  have hle : ∀ a ∈ rows.map (fun r => (r 0).toNat), a ≤ 1 := by
    intro a ha
    obtain ⟨r, hr, rfl⟩ := List.mem_map.mp ha
    obtain ⟨y, -, hy⟩ := hfrom r hr
    obtain ⟨hlo, hhi, rfl⟩ := hrow hy
    obtain ⟨line, hline, hwindow, hmod⟩ := exists_line (b := z.boxHeight)
      (t := z.sourceHeight - 1) (q := (rowIndex z s y).toNat) (by omega) (by omega)
    rw [← hmod, h.rows line hline hwindow 0 hlen, averages_onesAndZeros hlen (by omega)]
    exact sampleOf_le line
  have hzero : 0 ∈ rows.map (fun r => (r 0).toNat) := by
    -- a whole turn of the ring before the last line
    obtain ⟨r, hr, hy⟩ := hto ((z.sourceHeight : ℤ) - 1 - z.boxHeight)
      (mem_upTo.mpr ⟨by omega, by omega⟩)
    obtain ⟨-, -, rfl⟩ := hrow hy
    refine List.mem_map.mpr ⟨_, hr, ?_⟩
    have hmod := Nat.mod_lt (z.sourceHeight - 1) hheight
    have hindex : rowIndex z s ((z.sourceHeight : ℤ) - 1 - z.boxHeight)
        = ((z.sourceHeight - 1) % z.boxHeight : ℕ) := by
      have hnonneg : ¬ (z.sourceHeight : ℤ) - 1 - z.boxHeight < 0 := by omega
      have hinside : ¬ (z.sourceHeight : ℤ) ≤ (z.sourceHeight : ℤ) - 1 - z.boxHeight := by omega
      unfold rowIndex
      rw [h.sourceLine, h.sourceDataLine, if_neg hnonneg, if_neg hinside]
      generalize (z.sourceHeight - 1) % z.boxHeight = m at *
      have hv : (z.sourceHeight : ℤ) - 1 - z.boxHeight - ((z.sourceHeight - 1 : ℕ) : ℤ) + m
          = m - z.boxHeight := by omega
      rw [hv]
      rcases Nat.eq_zero_or_pos m with rfl | hpos
      · have htmod : ((0 : ℕ) - (z.boxHeight : ℤ)).tmod z.boxHeight = 0 := by
          rw [Nat.cast_zero, zero_sub, Int.neg_tmod, Int.tmod_self, neg_zero]
        rw [htmod, if_neg (by decide)]
        rfl
      · rw [tmod_of_lt (by omega) (by omega), if_pos (by omega)]
        omega
    rw [hindex, Int.toNat_natCast, h.rows _ (Nat.le_refl _) (by omega) 0 hlen,
      averages_onesAndZeros hlen (by omega)]
    exact if_neg (by omega)
  have hcount : (rows.map (fun r => (r 0).toNat)).length = z.boxHeight := by
    rw [List.length_map, hlength, upTo, List.length_map, List.length_range]
    omega
  have hsum := sum_lt_length hle hzero
  rw [hcount] at hsum
  have hbound := z.sourceHeight_lt
  have hlist : (rows.map fun r => ((r 0).toNat : ℤ))
      = (rows.map fun r => (r 0).toNat).map (Nat.cast : ℕ → ℤ) := by
    rw [List.map_map]
    rfl
  change (toByte ((sumInt (rows.map fun r => ((r 0).toNat : ℤ))).tdiv z.boxHeight)).toNat = 0
  rw [hlist, toByte_average hcount (fun a ha => Nat.lt_of_le_of_lt (hle a ha) (by decide))
    (by omega), Nat.div_eq_of_lt hsum]

/-- The last destination line is wrong. -/
theorem not_right_onesAndZeros (hz : Between z) : ¬ Right z (onesAndZeros z) := by
  rintro ⟨s', hs', hright⟩
  have hsource := z.sourceHeight_pos
  have hdest := z.destHeight_pos
  have hlen : 0 < destLength z := Nat.mul_pos z.destWidth_pos z.numBands_pos
  obtain ⟨s, hs, hinv, -⟩ := pushLines_inv (onesAndZeros z) (z.sourceHeight - 1) (Nat.sub_le _ _)
    (fun heq => by omega)
  have hlast : s.destLine = z.destHeight - 1 := by
    have hbottom := z.bottomPoints_last
    have hlt := hinv.destLine
    by_contra hne
    have hless := z.bottomPoints_lt (show s.destLine < z.destHeight - 1 by omega)
    have hle := hinv.waiting.resolve_right hne
    omega
  have hdue : due z (pushed z s (onesAndZeros z (z.sourceHeight - 1))) :=
    hinv.due_iff.mpr (Or.inr ⟨hlast, rfl⟩)
  have hpush : push z s (onesAndZeros z (z.sourceHeight - 1)) = .ok s' := by
    rw [pushLines, ← Nat.sub_add_cancel hsource, List.range_succ, List.map_append,
      run_append_ok hs] at hs'
    exact (run_singleton ..).symm.trans hs'
  rw [push_of_due hdue] at hpush
  obtain ⟨b, hb, hnext⟩ := bind_eq_ok.mp hpush
  cases hnext
  have hvalue := hright (z.destHeight - 1) (by omega) 0 hlen
  rw [average_onesAndZeros] at hvalue
  change (writeRow z s.dest s.destLine b ((z.destHeight - 1) * z.destWidth * z.numBands + 0)).toNat
    = 1 at hvalue
  rw [hlast, writeRow_self _ _ _ hlen,
    (hinv.ring (by omega)).destRow_zero hz hlast hb] at hvalue
  cases hvalue

/-! ## The result -/

/-- **When the destination is right.** For every source whose sums fit in an `int`, exactly
if there is one destination line, or as many as lines of the source. -/
theorem smoothMinifier_right_iff (z : Sizes) :
    (∀ source, SumsFit z source → Right z source)
      ↔ z.destHeight = 1 ∨ z.destHeight = z.sourceHeight := by
  constructor
  · intro h
    by_contra hheights
    exact not_right_onesAndZeros (between hheights) (h _ sumsFit_onesAndZeros)
  · exact fun h source hfit => right_of_heights h hfit

/-- Three lines to two. -/
def threeToTwo : Sizes where
  sourceWidth := 1
  sourceHeight := 3
  numBands := 1
  destWidth := 1
  destHeight := 2
  numBands_pos := by decide
  destWidth_pos := by decide
  destHeight_pos := by decide
  destWidth_le := by decide
  destHeight_le := by decide
  sourceWidth_lt := by decide
  sourceHeight_lt := by decide

/-- The second destination line is of the first two lines, but has the third one in it. -/
theorem smoothMinifier_not_right :
    ¬ ∀ (z : Sizes) (source : ℕ → Scanline), SumsFit z source → Right z source := by
  intro h
  exact not_right_onesAndZeros (z := threeToTwo) (between (by decide))
    (h threeToTwo _ sumsFit_onesAndZeros)

end JavaFx.Iio.SmoothMinifier
