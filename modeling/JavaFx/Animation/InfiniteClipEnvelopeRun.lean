/-
Where `jumpTo` of an `InfiniteClipEnvelope` leads.

A jump folds its time into two cycles and does nothing where the ticks are the same already.
It then relies on a play head that is in step with the ticks: `InStep`. A pulse at a positive
rate keeps step, one at a negative rate does not, and after an inversion of the rate the
ticks are beyond two cycles, where no jump finds them. So a run stays `Safe` unless a pulse
leads back, or leads on at a negative rate, to ticks within two cycles.
-/
import JavaFx.Animation.PulseFrequency
import JavaFx.Animation.FiniteClipEnvelope

set_option autoImplicit false

namespace JavaFx.Animation

open JavaFx.Lib

open FiniteClipEnvelope (Action Progress forwardCycle forwardCycle_succ posIn ahead RateOrOpposite)

open FiniteClipEnvelope.Progress

namespace InfiniteClipEnvelope

/-! ## Places -/

/-- The cycle position of `t`: that of a cycle that `t` belongs to. -/
def Placed (a : Bool) (c t pos : ℤ) : Prop :=
  ∃ k, k * c ≤ t ∧ t ≤ (k + 1) * c ∧ pos = posIn (forwardCycle a k) c t k

/-- The current rate has the sign in which the animation runs through `t`. -/
def Directed (a : Bool) (c t : ℤ) (rate currentRate : ℚ) : Prop :=
  ¬ c ∣ t → 0 < currentRate * if forwardCycle a (t / c) then rate else -rate

/-- The play head is where time `t` has it. -/
def Lands (w : InfiniteClipEnvelope) (t : ℤ) : Prop :=
  Placed w.autoReverse w.cycleTicks t w.pos ∧
    Directed w.autoReverse w.cycleTicks t w.rate w.currentRate

/-- The play head is where the ticks have it. -/
def InStep (w : InfiniteClipEnvelope) : Prop := w.Lands w.ticks

variable {d : Arithmetic} {a : Bool} {c t pos k : ℤ} {r rate currentRate : ℚ}
  {w w' : InfiniteClipEnvelope}

theorem forwardCycle_add (a : Bool) (k m : ℤ) : forwardCycle a (k + 2 * m) = forwardCycle a k := by
  rw [forwardCycle, forwardCycle, show (k + 2 * m) % 2 = k % 2 by omega]

theorem placed_add (m : ℤ) : Placed a c (t + m * (2 * c)) pos ↔ Placed a c t pos := by
  constructor
  · rintro ⟨k, hlo, hhi, hpos⟩
    refine ⟨k - 2 * m, by linarith, by linarith, ?_⟩
    rw [hpos, show k = k - 2 * m + 2 * m by ring, forwardCycle_add, posIn, posIn,
      show k - 2 * m + 2 * m - 2 * m = k - 2 * m by ring]
    split_ifs <;> ring
  · rintro ⟨k, hlo, hhi, hpos⟩
    refine ⟨k + 2 * m, by linarith, by linarith, ?_⟩
    rw [hpos, forwardCycle_add, posIn, posIn]
    split_ifs <;> ring

theorem directed_add (hc : 0 < c) (m : ℤ) :
    Directed a c (t + m * (2 * c)) rate currentRate ↔ Directed a c t rate currentRate := by
  have hdvd : c ∣ t + m * (2 * c) ↔ c ∣ t := by
    rw [show m * (2 * c) = c * (2 * m) by ring, Int.dvd_add_self_mul]
  have hdiv : (t + m * (2 * c)) / c = t / c + 2 * m := by
    rw [show m * (2 * c) = c * (2 * m) by ring, Int.add_mul_ediv_left t (2 * m) hc.ne']
  rw [Directed, Directed, hdvd, hdiv, forwardCycle_add]

/-- Only the place in two cycles counts. -/
theorem lands_emod (hc : 0 < w.cycleTicks) : w.Lands (t % (2 * w.cycleTicks)) ↔ w.Lands t := by
  have ht : t = t % (2 * w.cycleTicks) + t / (2 * w.cycleTicks) * (2 * w.cycleTicks) := by
    rw [mul_comm (t / (2 * w.cycleTicks))]
    exact (Int.emod_add_mul_ediv t (2 * w.cycleTicks)).symm
  rw [Lands, Lands]
  constructor
  · rintro ⟨hplaced, hdirected⟩
    rw [ht]
    exact ⟨(placed_add _).2 hplaced, (directed_add hc _).2 hdirected⟩
  · rintro ⟨hplaced, hdirected⟩
    rw [ht] at hplaced hdirected
    exact ⟨(placed_add _).1 hplaced, (directed_add hc _).1 hdirected⟩

/-! ## The invariant -/

/-- The envelope of a running animation. -/
structure Inv (a : Bool) (c : ℤ) (w : InfiniteClipEnvelope) : Prop where
  ranged : ClipEnvelope.Ranged c (.infinite w)
  autoReverse : w.autoReverse = a
  current : RateOrOpposite a w.rate w.currentRate

theorem Inv.cycleTicks (h : Inv a c w) : w.cycleTicks = c := h.ranged.cycleTicks

theorem Inv.rate_ne (h : Inv a c w) : w.rate ≠ 0 := h.ranged.rate

theorem Inv.fits (h : Inv a c w) : 2 * c < 2 ^ 63 := h.ranged.fits w rfl

theorem Inv.toLong (h : Inv a c w) (hc : 0 < c) : toLong (2 * w.cycleTicks) = 2 * c := by
  have hfits := h.fits
  rw [h.cycleTicks]
  exact toLong_of_lt (by omega) hfits

/-! ## `jumpTo` -/

theorem div_first (ht : 0 ≤ t) (hlt : t < c) : t / c = 0 := Int.ediv_eq_zero_of_lt ht hlt

theorem div_second (hle : c ≤ t) (hlt : t < 2 * c) (hc : 0 < c) : t / c = 1 := by
  rw [show t = t - c + c * 1 by ring, Int.add_mul_ediv_left _ _ hc.ne',
    Int.ediv_eq_zero_of_lt (by omega) (by omega), zero_add]

theorem forwardCycle_zero (a : Bool) : forwardCycle a 0 = true := by
  cases a <;> rfl

theorem forwardCycle_one : forwardCycle true 1 = false := rfl

/-- A jump that moves leads where its time is. -/
theorem jumpTo_moves (h : Inv a c w) (hc : 0 < c) (ht : 0 ≤ t) (hmoves : t % (2 * c) ≠ w.ticks) :
    (w.jumpTo .RUNNING t).1.Lands t := by
  have hcycle := h.cycleTicks
  have hlong := h.toLong hc
  have hsquare : 0 < w.rate * w.rate := mul_self_pos.2 h.rate_ne
  have hfold : (max 0 t).tmod (2 * c) = t % (2 * c) := by
    rw [max_eq_right ht, Int.tmod_eq_emod_of_nonneg ht]
  have hlo : 0 ≤ t % (2 * c) := Int.emod_nonneg _ (by omega)
  have hhi : t % (2 * c) < 2 * c := Int.emod_lt_of_pos _ (by omega)
  have hjump : ∀ w' : InfiniteClipEnvelope, w'.cycleTicks = c → w'.Lands (t % (2 * c)) →
      w'.Lands t := by
    rintro w' hcycle' hlands
    rw [← hcycle'] at hlands
    exact (lands_emod (by rw [hcycle']; exact hc)).1 hlands
  rw [jumpTo, if_neg (by rw [hcycle]; exact hc.ne'), hlong, hfold, hcycle]
  dsimp only
  generalize t % (2 * c) = ticks at *
  rw [if_neg (by omega)]
  cases a with
  | true =>
    rw [if_pos h.autoReverse]
    refine hjump _ rfl ⟨?_, ?_⟩
    · dsimp only
      rw [h.autoReverse]
      by_cases hsecond : ticks > c
      · rw [if_pos hsecond]
        refine ⟨1, by omega, by omega, ?_⟩
        rw [forwardCycle_one, posIn, if_neg Bool.false_ne_true]
        ring
      · rw [if_neg hsecond]
        refine ⟨0, by omega, by omega, ?_⟩
        rw [forwardCycle_zero, posIn, if_pos rfl]
        ring
    · dsimp only
      rw [h.autoReverse]
      intro hinside
      rw [if_pos rfl]
      by_cases hsecond : ticks > c
      · rw [if_pos hsecond, div_second hsecond.le hhi hc, forwardCycle_one,
          if_neg Bool.false_ne_true, neg_mul_neg]
        exact hsquare
      · have hne : ticks ≠ c := fun heq => hinside (by rw [heq])
        rw [if_neg hsecond, div_first hlo (by omega), forwardCycle_zero, if_pos rfl]
        exact hsquare
  | false =>
    have ha : ¬ w.autoReverse = true := by rw [h.autoReverse]; exact Bool.false_ne_true
    rw [if_neg ha]
    refine hjump _ rfl ⟨?_, ?_⟩
    · dsimp only
      rw [h.autoReverse, Int.tmod_eq_emod_of_nonneg hlo]
      have hforward : ∀ k, forwardCycle false k = true := fun _ => rfl
      rcases lt_trichotomy ticks c with hfirst | hborder | hsecond
      · rw [Int.emod_eq_of_lt hlo hfirst]
        refine ⟨0, by omega, by omega, ?_⟩
        rw [hforward, posIn, if_pos rfl]
        split_ifs <;> omega
      · rw [hborder, Int.emod_self, if_pos rfl]
        refine ⟨0, by omega, by omega, ?_⟩
        rw [hforward, posIn, if_pos rfl]
        ring
      · have hmod : ticks % c = ticks - c := by
          rw [Int.emod_def, div_second hsecond.le hhi hc, mul_one]
        rw [hmod, if_neg (by omega)]
        refine ⟨1, by omega, by omega, ?_⟩
        rw [hforward, posIn, if_pos rfl]
        ring
    · dsimp only
      intro _
      have hcurrent : w.currentRate = w.rate := by
        rcases h.current with hcurrent | ⟨hfalse, _⟩
        · exact hcurrent
        · cases hfalse
      rw [h.autoReverse, hcurrent]
      exact hsquare

theorem jumpTo_still (h : Inv a c w) (hc : 0 < c) (ht : 0 ≤ t) (hstill : t % (2 * c) = w.ticks) :
    (w.jumpTo .RUNNING t).1 = w := by
  rw [jumpTo, if_neg (by rw [h.cycleTicks]; exact hc.ne'), h.toLong hc, max_eq_right ht,
    Int.tmod_eq_emod_of_nonneg ht, hstill]
  dsimp only
  rw [if_pos (sub_self _)]

/-- **A jump** leads where its time is, unless it finds the ticks that it should set, and they
are out of step. -/
theorem jumpTo_lands_iff (h : Inv a c w) (hc : 0 < c) (ht : 0 ≤ t) :
    (w.jumpTo .RUNNING t).1.Lands t ↔ (t % (2 * c) = w.ticks → w.InStep) := by
  by_cases hstill : t % (2 * c) = w.ticks
  · have hfold := lands_emod (w := w) (t := t) (by rw [h.cycleTicks]; exact hc)
    rw [h.cycleTicks, hstill] at hfold
    rw [jumpTo_still h hc ht hstill, ← hfold, InStep]
    exact ⟨fun hlands _ => hlands, fun hlands => hlands hstill⟩
  · exact iff_of_true (jumpTo_moves h hc ht hstill) fun heq => absurd heq hstill

/-! ## The steps -/

/-- A call. The animation is running. -/
def step (d : Arithmetic) (w : InfiniteClipEnvelope) : Action → Except Thrown InfiniteClipEnvelope
  | .start => w.start.map Prod.fst
  | .setRate rate => .ok (w.setRate d .RUNNING rate).1
  | .jumpTo time => .ok (w.jumpTo .RUNNING time).1
  | .timePulse currentTick => .ok (w.timePulse d currentTick).1

/-- A rate is not zero. -/
def Nonzero : Action → Prop
  | .setRate rate => rate ≠ 0
  | _ => True

/-- The ticks that a pulse leads to. -/
def pulseTo (d : Arithmetic) (w : InfiniteClipEnvelope) (currentTick : ℤ) : ℤ :=
  max 0 (w.deltaTicks + d.pulseTicks currentTick w.rate)

/-- The calls that go right. A pulse leads on at a positive rate, or out of the first two
cycles, or changes nothing. The arithmetic on doubles keeps the sign of the product of two
rates, and `setRate` can tell the current rate from the rate. -/
def ActionOk (d : Arithmetic) (w : InfiniteClipEnvelope) : Action → Prop
  | .setRate rate =>
    rate ≠ 0 ∧ (d.product rate w.rate < 0 ↔ rate * w.rate < 0) ∧
      (w.currentRate ≠ w.rate → EPSILON ≤ |w.currentRate - w.rate|)
  | .timePulse currentTick =>
    2 * w.cycleTicks ≤ w.pulseTo d currentTick ∨ w.pulseTo d currentTick = w.ticks ∨
      0 < w.rate ∧ w.ticks ≤ w.pulseTo d currentTick
  | _ => True

/-- A jump finds the play head in step. -/
structure Safe (a : Bool) (c : ℤ) (w : InfiniteClipEnvelope) : Prop extends Inv a c w where
  inStep : w.ticks < 2 * c → 0 ≤ w.ticks ∧ (w.ticks = 0 → w.pos = 0) ∧ w.InStep

theorem start_eq (h : Inv a c w) (hc : 0 < c) :
    w.start = .ok ({ w with currentRate := w.calculateCurrentRate, deltaTicks := w.ticks },
      [.setCurrentRate w.calculateCurrentRate]) := by
  have hticks : ¬ (w.autoReverse && w.cycleTicks == 0) = true := by
    rw [h.cycleTicks]
    simp [hc.ne']
  rw [start, if_neg hticks]

theorem calculateCurrentRate_or (h : Inv a c w) :
    RateOrOpposite a w.rate w.calculateCurrentRate := by
  rw [calculateCurrentRate, h.autoReverse]
  cases a with
  | false => exact .inl rfl
  | true =>
    rw [Bool.not_true, if_neg Bool.false_ne_true]
    split_ifs
    · exact .inl rfl
    · exact .inr ⟨rfl, rfl⟩

theorem start_inv (h : Inv a c w) (hc : 0 < c) {res : InfiniteClipEnvelope × List Call}
    (hres : w.start = .ok res) : Inv a c res.1 := by
  have hkind : (ClipEnvelope.infinite w).start = .ok (.infinite res.1, res.2) := by
    rw [ClipEnvelope.start, hres]
    rfl
  have hranged := ClipEnvelope.start_ranged h.ranged hkind
  rw [start_eq h hc, Except.ok.injEq] at hres
  subst hres
  have hcurrent : RateOrOpposite a w.rate w.calculateCurrentRate := calculateCurrentRate_or h
  exact ⟨hranged, h.autoReverse, hcurrent⟩

/-- `start` goes by the ticks. -/
theorem start_safe (h : Safe a c w) (hc : 0 < c) {res : InfiniteClipEnvelope × List Call}
    (hres : w.start = .ok res) : Safe a c res.1 := by
  refine ⟨start_inv h.toInv hc hres, ?_⟩
  have hcycle := h.cycleTicks
  have hlong := h.toLong hc
  rw [start_eq h.toInv hc, Except.ok.injEq] at hres
  subst hres
  intro hlt
  obtain ⟨hlo, hzero, hplaced, _⟩ := h.inStep hlt
  refine ⟨hlo, hzero, hplaced, fun hinside => ?_⟩
  dsimp only at hinside ⊢
  have hsquare : 0 < w.rate * w.rate := mul_self_pos.2 h.rate_ne
  rw [calculateCurrentRate, hlong, Int.tmod_eq_emod_of_nonneg hlo, Int.emod_eq_of_lt hlo hlt,
    h.autoReverse, hcycle]
  rw [hcycle] at hinside
  cases a with
  | false => exact hsquare
  | true =>
    rw [Bool.not_true, if_neg Bool.false_ne_true]
    by_cases hfirst : w.ticks < c
    · rw [if_pos hfirst, div_first hlo hfirst, forwardCycle_zero, if_pos rfl]
      exact hsquare
    · rw [if_neg hfirst, div_second (not_lt.1 hfirst) hlt hc, forwardCycle_one,
        if_neg Bool.false_ne_true, neg_mul_neg]
      exact hsquare

theorem setRate_inv (h : Inv a c w) {rate : ℚ} (hrate : rate ≠ 0) :
    Inv a c (w.setRate d .RUNNING rate).1 := by
  refine ⟨ClipEnvelope.setRate_ranged (w := .infinite w) h.ranged .RUNNING hrate, h.autoReverse, ?_⟩
  show RateOrOpposite a rate (if |w.currentRate - w.rate| < EPSILON then rate else -rate)
  rcases h.current with hcurrent | ⟨ha, _⟩
  · rw [hcurrent, sub_self, abs_zero, if_pos (by rw [EPSILON]; norm_num)]
    exact .inl rfl
  · split_ifs
    · exact .inl rfl
    · exact .inr ⟨ha, rfl⟩

/-- A rate of the other sign leads the ticks out of the first two cycles. -/
theorem setRate_safe (h : Safe a c w) (hc : 0 < c) {rate : ℚ} (hrate : rate ≠ 0)
    (hproduct : d.product rate w.rate < 0 ↔ rate * w.rate < 0)
    (hclear : w.currentRate ≠ w.rate → EPSILON ≤ |w.currentRate - w.rate|) :
    Safe a c (w.setRate d .RUNNING rate).1 := by
  refine ⟨setRate_inv h.toInv hrate, ?_⟩
  have hpos : 0 ≤ w.pos ∧ w.pos ≤ c := h.ranged.pos
  have hlong := h.toLong hc
  have hticks : (w.setRate d .RUNNING rate).1.ticks =
      w.ticks + if rate * w.rate < 0 then 2 * c - w.pos else 0 := by
    rw [← hlong]
    exact congrArg (w.ticks + ·) (if_congr ((and_iff_right (by decide)).trans hproduct) rfl rfl)
  have hplace : (w.setRate d .RUNNING rate).1.pos = w.pos := rfl
  intro hlt
  rw [hticks] at hlt ⊢
  by_cases hturned : rate * w.rate < 0
  · -- in step the play head is not beyond the ticks
    rw [if_pos hturned] at hlt
    obtain ⟨hlo, hzero, ⟨k, hk, hk', hplaced⟩, _⟩ := h.inStep (by omega)
    exfalso
    rw [h.cycleTicks] at hk hk' hplaced
    have hkc : -1 ≤ k := by
      by_contra hneg
      have : (k + 1) * c ≤ -1 * c := mul_le_mul_of_nonneg_right (by omega) hc.le
      omega
    rcases hkc.eq_or_lt with rfl | hkc
    · have hzero' := hzero (by omega)
      omega
    · have hkc0 : 0 * c ≤ k * c := mul_le_mul_of_nonneg_right (by omega) hc.le
      rw [posIn] at hplaced
      by_cases hforward : forwardCycle w.autoReverse k = true
      · rw [if_pos hforward] at hplaced
        omega
      · have hk1 : 1 ≤ k := by
          by_contra hk1
          obtain rfl : k = 0 := by omega
          exact hforward (forwardCycle_zero _)
        have hkc1 : 1 * c ≤ k * c := mul_le_mul_of_nonneg_right hk1 hc.le
        rw [if_neg hforward, add_mul] at hplaced
        omega
  · rw [if_neg hturned, add_zero] at hlt ⊢
    obtain ⟨hlo, hzero, hplaced, hdirected⟩ := h.inStep hlt
    refine ⟨hlo, hzero, ?_, ?_⟩
    · rw [hticks, if_neg hturned, add_zero]
      exact hplaced
    · rw [hticks, if_neg hturned, add_zero]
      intro hinside
      have hsame := hdirected hinside
      have hpositive : 0 < rate * w.rate :=
        lt_of_le_of_ne (not_lt.1 hturned) (mul_ne_zero hrate h.rate_ne).symm
      show 0 < (if |w.currentRate - w.rate| < EPSILON then rate else -rate) *
        if forwardCycle w.autoReverse (w.ticks / w.cycleTicks) then rate else -rate
      have hsquare : 0 < rate * rate := mul_self_pos.2 hrate
      rcases h.current with hcurrent | ⟨_, hcurrent⟩
      · rw [hcurrent, sub_self, abs_zero, if_pos (by rw [EPSILON]; norm_num)]
        rw [hcurrent] at hsame
        split_ifs at hsame ⊢
        · exact hsquare
        · have hnegative := mul_self_nonneg w.rate
          rw [mul_neg] at hsame
          linarith
      · have hne : w.currentRate ≠ w.rate := by
          rw [hcurrent]
          exact fun heq => h.rate_ne (self_eq_neg.1 heq.symm)
        rw [if_neg (not_lt.2 (hclear hne))]
        rw [hcurrent] at hsame
        split_ifs at hsame ⊢
        · have hnegative := mul_self_nonneg w.rate
          rw [neg_mul] at hsame
          linarith
        · rw [neg_mul_neg]
          exact hsquare

theorem jumpTo_inv (h : Inv a c w) (hc : 0 < c) (t : ℤ) : Inv a c (w.jumpTo .RUNNING t).1 := by
  have hranged := ClipEnvelope.jumpTo_ranged h.ranged hc .RUNNING t
  refine ⟨hranged, ?_, ?_⟩
  · rw [jumpTo]
    dsimp only
    split_ifs <;> exact h.autoReverse
  · rw [jumpTo]
    dsimp only
    by_cases hticks : w.cycleTicks = 0
    · rw [if_pos hticks]
      exact h.current
    rw [if_neg hticks]
    by_cases hdelta : (max 0 t).tmod (JavaFx.Lib.toLong (2 * w.cycleTicks)) - w.ticks = 0
    · rw [if_pos hdelta]
      exact h.current
    rw [if_neg hdelta]
    by_cases ha : w.autoReverse = true
    · rw [if_pos ha, if_pos rfl]
      dsimp only
      split_ifs
      · exact .inr ⟨h.autoReverse ▸ ha, rfl⟩
      · exact .inl rfl
    · rw [if_neg ha]
      exact h.current

theorem jumpTo_max (t : ℤ) : w.jumpTo .RUNNING t = w.jumpTo .RUNNING (max 0 t) := by
  rw [jumpTo, jumpTo, max_eq_right (le_max_left 0 t)]

/-- The ticks after a jump that moves. -/
theorem jumpTo_ticks (h : Inv a c w) (hc : 0 < c) (ht : 0 ≤ t) (hmoves : t % (2 * c) ≠ w.ticks) :
    (w.jumpTo .RUNNING t).1.ticks = t % (2 * c) ∧
      (t % (2 * c) = 0 → (w.jumpTo .RUNNING t).1.pos = 0) := by
  rw [jumpTo, if_neg (by rw [h.cycleTicks]; exact hc.ne'), h.toLong hc, max_eq_right ht,
    Int.tmod_eq_emod_of_nonneg ht]
  dsimp only
  rw [if_neg (by omega)]
  by_cases ha : w.autoReverse = true
  · rw [if_pos ha]
    refine ⟨rfl, fun hzero => ?_⟩
    dsimp only
    rw [hzero, if_neg (by rw [h.cycleTicks]; omega)]
  · rw [if_neg ha]
    refine ⟨rfl, fun hzero => ?_⟩
    dsimp only
    rw [hzero, Int.zero_tmod, if_pos rfl]

theorem jumpTo_safe (h : Safe a c w) (hc : 0 < c) (t : ℤ) : Safe a c (w.jumpTo .RUNNING t).1 := by
  refine ⟨jumpTo_inv h.toInv hc t, ?_⟩
  rw [jumpTo_max]
  have ht : 0 ≤ max 0 t := le_max_left 0 t
  by_cases hstill : max 0 t % (2 * c) = w.ticks
  · rw [jumpTo_still h.toInv hc ht hstill]
    exact h.inStep
  · have hlands := jumpTo_moves h.toInv hc ht hstill
    have hcycle := (jumpTo_inv h.toInv hc (max 0 t)).cycleTicks
    obtain ⟨hticks, hzero⟩ := jumpTo_ticks h.toInv hc ht hstill
    rw [InStep, hticks]
    refine fun _ => ⟨Int.emod_nonneg _ (by omega), hzero, ?_⟩
    rw [← lands_emod (by rw [hcycle]; exact hc), hcycle] at hlands
    exact hlands

/-! ## Pulses -/

theorem loops_current {e : Bool} {p q : Progress} {calls : List Call}
    (h : Loops c a e p q calls) (hcurrent : RateOrOpposite a rate p.currentRate) :
    RateOrOpposite a rate q.currentRate := by
  induction h with
  | done _ => exact hcurrent
  | @turn p q _ _ _ ih =>
    refine ih ?_
    have hturn : (p.turn c a e).currentRate = p.currentRate ∨
        a = true ∧ (p.turn c a e).currentRate = -p.currentRate := by
      simp only [Progress.turn, apply_ite Progress.currentRate, apply_ite Progress.overallDelta,
        ite_self]
      cases a with
      | false => simp
      | true =>
        simp only [if_true, true_and]
        split_ifs <;> simp
    rcases hturn with heq | ⟨ha, heq⟩
    · rwa [heq]
    · rw [heq]
      rcases hcurrent with hcurrent | ⟨_, hcurrent⟩
      · exact .inr ⟨ha, by rw [hcurrent]⟩
      · exact .inl (by rw [hcurrent, neg_neg])

theorem Inv.pulsed (h : Inv a c w) (hc : 0 < c) (t : ℤ) :
    Pulsed c a false w.pos w.currentRate (w.pulseTo d t - w.ticks) (w.timePulse d t).1.pos
      (w.timePulse d t).1.currentRate (w.timePulse d t).2 := by
  obtain rfl := h.cycleTicks
  obtain rfl := h.autoReverse
  exact InfiniteClipEnvelope.pulsed d w hc h.ranged.pos h.ranged.currentRate t

theorem timePulse_inv (h : Inv a c w) (hc : 0 < c) (t : ℤ) : Inv a c (w.timePulse d t).1 := by
  have hrate := (ClipEnvelope.infinite_timePulse d w (by rw [h.cycleTicks]; exact hc.ne') t).1
  refine ⟨ClipEnvelope.timePulse_ranged (w := .infinite w) h.ranged hc t, ?_, ?_⟩
  · exact (ClipEnvelope.timePulse_autoReverse (w := .infinite w) t).trans h.autoReverse
  · rw [hrate]
    have hpulsed := h.pulsed (d := d) hc t
    rw [Pulsed] at hpulsed
    split_ifs at hpulsed
    · rw [hpulsed.2.1]
      exact h.current
    · obtain ⟨q, k, hq, _, hcurrent, _⟩ := hpulsed
      rw [hcurrent]
      exact loops_current hq h.current

/-- A play head in step is in a cycle of the ticks, in the direction that it moves in. -/
theorem exists_cycle (h : Inv a c w) (hc : 0 < c) (hrate : 0 < w.rate) (hstep : w.InStep) :
    ∃ j, j * c ≤ w.ticks ∧ w.ticks ≤ (j + 1) * c ∧ (0 < w.currentRate ↔ forwardCycle a j = true) ∧
      w.pos = posIn (forwardCycle a j) c w.ticks j := by
  obtain ⟨⟨k, hlo, hhi, hpos⟩, hdirected⟩ := hstep
  rw [h.cycleTicks] at hlo hhi hpos hdirected
  rw [h.autoReverse] at hpos hdirected
  by_cases hmatch : 0 < w.currentRate ↔ forwardCycle a k = true
  · exact ⟨k, hlo, hhi, hmatch, hpos⟩
  -- at the border of two cycles it moves in the other one
  have hborder : c ∣ w.ticks := by
    by_contra hinside
    have hproduct := hdirected hinside
    have hlt : w.ticks < (k + 1) * c :=
      lt_of_le_of_ne hhi fun heq => hinside ⟨k + 1, by rw [heq, mul_comm]⟩
    rw [FiniteClipEnvelope.ediv_eq_of_inside hc hlo hlt] at hproduct
    refine hmatch ?_
    by_cases hforward : forwardCycle a k = true
    · rw [if_pos hforward] at hproduct
      exact iff_of_true ((pos_iff_pos_of_mul_pos hproduct).2 hrate) hforward
    · rw [if_neg hforward, mul_neg, ← neg_mul] at hproduct
      have hback := (pos_iff_pos_of_mul_pos hproduct).2 hrate
      exact iff_of_false (not_lt_of_gt (neg_pos.1 hback)) hforward
  obtain rfl : a = true := by
    rcases h.current with hcurrent | ⟨ha, _⟩
    · cases a with
      | true => rfl
      | false => exact absurd (iff_of_true (by rw [hcurrent]; exact hrate) rfl) hmatch
    · exact ha
  obtain ⟨m, hm⟩ := hborder
  have hmk : m = k ∨ m = k + 1 := by
    have h1 : k * c ≤ m * c := by rw [mul_comm m, ← hm]; exact hlo
    have h2 : m * c ≤ (k + 1) * c := by rw [mul_comm m, ← hm]; exact hhi
    have h1' := le_of_mul_le_mul_right h1 hc
    have h2' := le_of_mul_le_mul_right h2 hc
    omega
  rcases hmk with rfl | rfl
  · have hflip := forwardCycle_succ (m - 1)
    rw [sub_add_cancel] at hflip
    refine ⟨m - 1, by linarith, by linarith, ?_, ?_⟩
    · rw [hflip] at hmatch
      cases hforward : forwardCycle true (m - 1) <;> rw [hforward] at hmatch <;> simp at hmatch ⊢ <;>
        assumption
    · rw [hpos, hflip, posIn, posIn, hm]
      cases forwardCycle true (m - 1)
      · simp only [Bool.not_false, if_true, Bool.false_eq_true, if_false]
        ring
      · simp only [Bool.not_true, if_true, Bool.false_eq_true, if_false]
        ring
  · have hflip := forwardCycle_succ k
    refine ⟨k + 1, by linarith, by linarith, ?_, ?_⟩
    · rw [hflip]
      cases hforward : forwardCycle true k <;> rw [hforward] at hmatch <;> simp at hmatch ⊢ <;>
        assumption
    · rw [hpos, hflip, posIn, posIn, hm]
      cases forwardCycle true k
      · simp only [Bool.not_false, if_true, Bool.false_eq_true, if_false]
        ring
      · simp only [Bool.not_true, if_true, Bool.false_eq_true, if_false]
        ring

theorem ahead_eq (hrate : 0 < rate) (j : ℤ) : ahead a 0 rate j = forwardCycle a j := by
  rw [ahead, if_pos hrate]

theorem loops_in (hc : 0 < c) (hrate : rate ≠ 0) {target j : ℤ} {p q : Progress} {calls : List Call}
    (h : Loops c a false p q calls) (hp : In a c 0 rate target j p) :
    ∃ j', In a c 0 rate target j' q ∧ q.overallDelta < q.cycleDelta := by
  induction h generalizing j with
  | done hlt => exact ⟨j, hp, hlt⟩
  | turn hle _ ih => exact ih (hp.turn hc hrate hle).1

/-- A pulse at a positive rate keeps step. -/
theorem timePulse_inStep (h : Inv a c w) (hc : 0 < c) (hrate : 0 < w.rate) (hstep : w.InStep)
    (hlt : w.ticks < w.pulseTo d t) : (w.timePulse d t).1.InStep := by
  have hnext := timePulse_inv (d := d) h hc t
  obtain ⟨hrate', _, hticks⟩ :=
    ClipEnvelope.infinite_timePulse d w (by rw [h.cycleTicks]; exact hc.ne') t
  obtain ⟨j, hlo, hhi, hmatch, hpos⟩ := exists_cycle h hc hrate hstep
  have hpulsed := h.pulsed (d := d) hc t
  rw [Pulsed, if_neg (by omega)] at hpulsed
  obtain ⟨q, k, hq, hplace, hcurrent, _⟩ := hpulsed
  have hto : (w.timePulse d t).1.ticks = w.pulseTo d t := hticks
  have hdelta : toEnd c w.pos w.currentRate = (j + 1) * c - w.ticks := by
    rw [toEnd, hpos, posIn]
    by_cases hforward : forwardCycle a j = true
    · rw [if_pos (hmatch.2 hforward), if_pos hforward]
      ring
    · rw [if_neg (mt hmatch.1 hforward), if_neg hforward]
  have hin : In a c 0 w.rate (w.pulseTo d t) j
      (way c w.pos w.currentRate (w.pulseTo d t - w.ticks)) := by
    refine ⟨?_, ?_, ?_, ?_, h.current, ?_⟩
    · show 0 ≤ toEnd c w.pos w.currentRate ∧ toEnd c w.pos w.currentRate ≤ c
      rw [hdelta]
      exact ⟨by omega, by linarith⟩
    · show 0 ≤ w.pulseTo d t - w.ticks
      omega
    · show (j + 1) * c = w.pulseTo d t - (w.pulseTo d t - w.ticks) + toEnd c w.pos w.currentRate
      rw [hdelta]
      ring
    · show w.pos = if ahead a 0 w.rate j then c - toEnd c w.pos w.currentRate
        else toEnd c w.pos w.currentRate
      rw [ahead_eq hrate, hdelta, hpos, posIn]
      split_ifs
      · ring
      · rfl
    · rw [ahead_eq hrate]
      exact hmatch
  obtain ⟨j', hin', hover⟩ := loops_in hc hrate.ne' hq hin
  obtain ⟨⟨hcd, hcd'⟩, hod, hends, hpos', _, hmatch'⟩ := hin'
  rw [ahead_eq hrate] at hpos' hmatch'
  have hplaced : place false q = posIn (forwardCycle a j') c (w.pulseTo d t) j' := by
    rw [place, Progress.moved, posIn, hpos']
    by_cases hforward : forwardCycle a j' = true
    · rw [if_pos hforward, if_pos (hmatch'.2 hforward), if_pos hforward]
      split_ifs with hgone
      · linarith
      · have hzero : ¬ 0 < q.overallDelta := fun h => hgone ⟨h, rfl⟩
        linarith
    · rw [if_neg hforward, if_neg (mt hmatch'.1 hforward), if_neg hforward]
      split_ifs with hgone
      · linarith
      · have hzero : ¬ 0 < q.overallDelta := fun h => hgone ⟨h, rfl⟩
        linarith
  refine ⟨⟨j', ?_, ?_, ?_⟩, ?_⟩
  · rw [hnext.cycleTicks, hto]
    linarith
  · rw [hnext.cycleTicks, hto]
    linarith
  · rw [hnext.cycleTicks, hnext.autoReverse, hto, hplace]
    exact hplaced
  · rw [hnext.cycleTicks, hnext.autoReverse, hto, hrate']
    intro _
    rw [FiniteClipEnvelope.ediv_eq_of_inside hc (show j' * c ≤ _ by linarith) (by linarith), hcurrent]
    have hmoving : (w.timePulse d t).1.currentRate ≠ 0 := hnext.ranged.currentRate
    rw [hcurrent] at hmoving
    by_cases hforward : forwardCycle a j' = true
    · rw [if_pos hforward]
      exact mul_pos (hmatch'.2 hforward) hrate
    · rw [if_neg hforward]
      have hback : q.currentRate < 0 :=
        lt_of_le_of_ne (not_lt.1 (mt hmatch'.1 hforward)) hmoving
      exact mul_pos_of_neg_of_neg hback (neg_neg_of_pos hrate)

theorem timePulse_safe (h : Safe a c w) (hc : 0 < c)
    (hok : 2 * w.cycleTicks ≤ w.pulseTo d t ∨ w.pulseTo d t = w.ticks ∨
      0 < w.rate ∧ w.ticks ≤ w.pulseTo d t) : Safe a c (w.timePulse d t).1 := by
  refine ⟨timePulse_inv h.toInv hc t, ?_⟩
  have hcycle : w.cycleTicks ≠ 0 := by
    rw [h.cycleTicks]
    exact hc.ne'
  have hto : (w.timePulse d t).1.ticks = w.pulseTo d t :=
    (ClipEnvelope.infinite_timePulse d w hcycle t).2.2
  rw [h.cycleTicks] at hok
  intro hlt
  rw [hto] at hlt ⊢
  by_cases hstill : w.pulseTo d t = w.ticks
  · have hsame : (w.timePulse d t).1 = w := by
      have hdelta : max 0 (w.deltaTicks + d.pulseTicks t w.rate) = w.ticks := hstill
      rw [timePulse, if_neg hcycle]
      dsimp only
      rw [hdelta, if_pos (sub_self _)]
    rw [hsame, hstill]
    exact h.inStep (by omega)
  · obtain ⟨hrate, hle⟩ : 0 < w.rate ∧ w.ticks ≤ w.pulseTo d t := by
      rcases hok with hbeyond | heq | hforward
      · omega
      · exact absurd heq hstill
      · exact hforward
    obtain ⟨hlo, _, hstep⟩ := h.inStep (by omega)
    have hmoves : w.ticks < w.pulseTo d t := by omega
    exact ⟨by omega, by omega, timePulse_inStep h.toInv hc hrate hstep hmoves⟩

/-! ## Runs -/

theorem step_inv (hc : 0 < c) (w : InfiniteClipEnvelope) (action : Action) (h : Inv a c w)
    (hvalid : Nonzero action) : ∃ w', step d w action = .ok w' ∧ Inv a c w' := by
  cases action with
  | start =>
    have hstart := start_eq h hc
    exact ⟨_, by rw [step, hstart]; rfl, start_inv h hc hstart⟩
  | setRate rate => exact ⟨_, rfl, setRate_inv h hvalid⟩
  | jumpTo time => exact ⟨_, rfl, jumpTo_inv h hc time⟩
  | timePulse currentTick => exact ⟨_, rfl, timePulse_inv h hc currentTick⟩

theorem step_safe (hc : 0 < c) (w : InfiniteClipEnvelope) (action : Action) (h : Safe a c w)
    (hok : ActionOk d w action) : ∃ w', step d w action = .ok w' ∧ Safe a c w' := by
  cases action with
  | start =>
    have hstart := start_eq h.toInv hc
    exact ⟨_, by rw [step, hstart]; rfl, start_safe h hc hstart⟩
  | setRate rate => exact ⟨_, rfl, setRate_safe h hc hok.1 hok.2.1 hok.2.2⟩
  | jumpTo time => exact ⟨_, rfl, jumpTo_safe h hc time⟩
  | timePulse currentTick => exact ⟨_, rfl, timePulse_safe h hc hok⟩

/-- The envelope of an animation that has just been started. -/
def started (d : Arithmetic) (s : Settings) : InfiniteClipEnvelope :=
  { new d s with currentRate := (new d s).calculateCurrentRate }

theorem started_safe (d : Arithmetic) {s : Settings} (hrate : s.rate ≠ 0)
    (hc : 0 < d.fromDuration s.cycleDuration)
    (hfit : 2 * d.fromDuration s.cycleDuration < 2 ^ 63) :
    Safe s.autoReverse (d.fromDuration s.cycleDuration) (started d s) := by
  have hcurrent : (new d s).calculateCurrentRate = s.rate := by
    rw [calculateCurrentRate]
    have hzero : (new d s).ticks = 0 := rfl
    rw [hzero, Int.zero_tmod]
    have hcycle : (0 : ℤ) < (new d s).cycleTicks := hc
    rw [if_pos hcycle]
    exact ite_self _
  refine ⟨⟨⟨by rintro _ ⟨⟩, rfl, ⟨le_rfl, hc.le⟩, ?_, hrate, by rintro _ ⟨⟩, fun _ _ => hfit⟩, rfl,
    .inl hcurrent⟩, ?_⟩
  · show (new d s).calculateCurrentRate ≠ 0
    rw [hcurrent]
    exact hrate
  · intro _
    refine ⟨le_rfl, fun _ => rfl, ⟨0, by simp [started, new], ?_, ?_⟩, ?_⟩
    · show (0 : ℤ) ≤ (0 + 1) * d.fromDuration s.cycleDuration
      linarith
    · rw [forwardCycle_zero, posIn, if_pos rfl]
      simp [started, new]
    · exact fun hinside => absurd (dvd_zero _) hinside

/-- **Jumps.** In every state that a running animation brings its envelope to, a jump leads where
its time is exactly if it does not find its ticks out of step; it never does so in a run whose
calls all go right. -/
theorem run_jumpTo_lands (d : Arithmetic) {s : Settings} (hrate : s.rate ≠ 0)
    (hc : 0 < d.fromDuration s.cycleDuration)
    (hfit : 2 * d.fromDuration s.cycleDuration < 2 ^ 63) {actions : List Action}
    (hvalid : ∀ action ∈ actions, Nonzero action) :
    ∃ w, run (step d) (started d s) actions = .ok w ∧
      (∀ t, 0 ≤ t → ((w.jumpTo .RUNNING t).1.Lands t ↔
        (t % (2 * w.cycleTicks) = w.ticks → w.InStep))) ∧
      (Along (step d) (ActionOk d) (started d s) actions →
        ∀ t, 0 ≤ t → (w.jumpTo .RUNNING t).1.Lands t) := by
  have hstart := started_safe d hrate hc hfit
  obtain ⟨w, hrun, hinv⟩ := run_invariant (Inv s.autoReverse (d.fromDuration s.cycleDuration))
    (step_inv hc) hstart.toInv (Along.of_forall hvalid)
  refine ⟨w, hrun, fun t ht => ?_, fun halong t ht => ?_⟩
  · rw [hinv.cycleTicks]
    exact jumpTo_lands_iff hinv hc ht
  · obtain ⟨w', hrun', hsafe⟩ := run_invariant
      (Safe s.autoReverse (d.fromDuration s.cycleDuration)) (step_safe hc) hstart halong
    rw [hrun, Except.ok.injEq] at hrun'
    subst hrun'
    refine (jumpTo_lands_iff hinv hc ht).2 fun hstill => (hsafe.inStep ?_).2.2
    rw [← hstill]
    exact Int.emod_lt_of_pos _ (by omega)

/-- Cycles of 60 ticks without end. -/
def endless (rate : ℚ) : Settings := ⟨INDEFINITE, .millis 10, rate, false⟩

/-- A pulse, an inversion of the rate and a jump back to tick 30. -/
theorem run_jumpTo_lands_inverted :
    ∃ w, run (step exact) (started exact (endless 1)) [.timePulse 30, .setRate (-1)] = .ok w ∧
      (∀ t, 0 ≤ t → ((w.jumpTo .RUNNING t).1.Lands t ↔
        (t % (2 * w.cycleTicks) = w.ticks → w.InStep))) ∧
      (Along (step exact) (ActionOk exact) (started exact (endless 1))
          [.timePulse 30, .setRate (-1)] →
        ∀ t, 0 ≤ t → (w.jumpTo .RUNNING t).1.Lands t) :=
  run_jumpTo_lands exact (by norm_num [endless]) (by decide +kernel) (by decide +kernel)
    (by simp [Nonzero])

theorem not_lands (hcycle : w.cycleTicks = 60) (ha : w.autoReverse = false) (hpos : w.pos = 57) :
    ¬ w.Lands 3 := by
  rintro ⟨⟨k, hlo, hhi, hplace⟩, _⟩
  rw [hcycle] at hlo hhi hplace
  rw [hpos, ha, show forwardCycle false k = true from rfl, posIn, if_pos rfl] at hplace
  omega

/-- At rate -1 a pulse of 3 ticks leads to position 57, and a jump to tick 3 leaves it there. -/
theorem jumpTo_not_lands :
    ∃ w, run (step exact) (started exact (endless (-1))) [.timePulse 3] = .ok w ∧
      (w.jumpTo .RUNNING 3).1.pos = 57 ∧ ¬ (w.jumpTo .RUNNING 3).1.Lands 3 := by
  exact ⟨_, rfl, by decide +kernel,
    not_lands (by decide +kernel) (by decide +kernel) (by decide +kernel)⟩

end InfiniteClipEnvelope

end JavaFx.Animation
