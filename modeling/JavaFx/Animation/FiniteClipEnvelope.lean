/-
`com.sun.scenario.animation.shared.FiniteClipEnvelope`: the cycles of an animation.

Ticks are integers; the two products that could leave the range of a `long` wrap
(`toLong`). A rate is the number that its `double` stands for. What comes out of the
arithmetic on doubles is an argument, `Doubles`: it decides only the sign of the product of
two rates, and how many ticks a pulse counts for. The animation is there with its status;
the calls of its play head have no effect here, since no pulse is aborted.
-/
import JavaFx.Lib.Java
import Mathlib.Data.Rat.Defs
import Mathlib.Algebra.Order.Ring.Rat
import Mathlib.Algebra.Order.Group.Unbundled.Abs
import Mathlib.Tactic.Ring
import Mathlib.Tactic.Linarith

set_option autoImplicit false

namespace JavaFx.Animation

open JavaFx.Lib

/-- The arithmetic on doubles. -/
structure Doubles where
  /-- `rate * this.rate`. -/
  product : ℚ → ℚ → ℚ
  /-- `Math.round(currentTick * Math.abs(rate))`. -/
  pulseTicks : ℤ → ℚ → ℤ
  /-- `Math.round((ticks - deltaTicks) * Math.abs(rate / this.rate))`. -/
  rescale : ℤ → ℚ → ℚ → ℤ

/-- `EPSILON` of `ClipEnvelope`. -/
def EPSILON : ℚ := 1 / 10 ^ 12

inductive Status
  | STOPPED
  | PAUSED
  | RUNNING
  deriving DecidableEq, Repr

/-- The fields of the envelope, with the status of its animation. -/
structure FiniteClipEnvelope where
  status : Status
  rate : ℚ
  cycleTicks : ℤ
  deltaTicks : ℤ
  ticks : ℤ
  currentRate : ℚ
  autoReverse : Bool
  cycleCount : ℤ
  totalTicks : ℤ
  pos : ℤ
  deriving DecidableEq, Repr

/-- `checkBounds`. -/
def checkBounds (value max_ : ℤ) : ℤ := max 0 (min value max_)

namespace FiniteClipEnvelope

/-- `new FiniteClipEnvelope(animation)`. -/
def new (autoReverse : Bool) (cycleTicks cycleCount : ℤ) (rate : ℚ) : FiniteClipEnvelope where
  status := .STOPPED
  rate := rate
  cycleTicks := cycleTicks
  deltaTicks := 0
  ticks := 0
  currentRate := 1
  autoReverse := autoReverse
  cycleCount := cycleCount
  totalTicks := toLong (cycleCount * cycleTicks)
  pos := 0

variable (d : Doubles) (w : FiniteClipEnvelope)

/-- `ticks % (2 * cycleTicks) < cycleTicks`. -/
def isForward : Bool := w.ticks.tmod (toLong (2 * w.cycleTicks)) < w.cycleTicks

def calculateCurrentRate : ℚ :=
  if !w.autoReverse then w.rate
  else if w.isForward == decide (w.rate > 0) then w.rate else -w.rate

/-- `start`, when the animation starts to run. -/
def start : FiniteClipEnvelope :=
  { w with status := .RUNNING, currentRate := w.calculateCurrentRate, deltaTicks := w.ticks }

def setRate (rate : ℚ) : FiniteClipEnvelope :=
  let newTicks := if d.product rate w.rate < 0 then w.totalTicks - w.ticks else w.ticks
  { w with
    currentRate :=
      if w.status = .RUNNING then if |w.currentRate - w.rate| < EPSILON then rate else -rate
      else w.currentRate
    deltaTicks :=
      if w.status ≠ .STOPPED then newTicks - d.rescale (w.ticks - w.deltaTicks) rate w.rate
      else w.deltaTicks
    ticks := newTicks
    rate := rate }

/-- What the loop of `timePulse` changes. -/
structure Progress where
  pos : ℤ
  currentRate : ℚ
  overallDelta : ℤ
  cycleDelta : ℤ

/-- One turn of the loop: to the end of the cycle, and to the next cycle. -/
def Progress.turn (cycleTicks : ℤ) (autoReverse reachedEnd : Bool) (p : Progress) : Progress :=
  let p :=
    if p.cycleDelta > 0 then
      { p with
        pos := if p.currentRate > 0 then cycleTicks else 0
        overallDelta := p.overallDelta - p.cycleDelta }
    else p
  let p :=
    if !reachedEnd || p.overallDelta > 0 then
      if autoReverse then { p with currentRate := -p.currentRate }
      else { p with pos := if p.currentRate > 0 then 0 else cycleTicks }
    else p
  { p with cycleDelta := cycleTicks }

/-- The loop of `timePulse`. Every turn but the first takes a cycle of ticks. -/
def Progress.loop (cycleTicks : ℤ) (autoReverse reachedEnd : Bool) : ℕ → Progress → Progress
  | 0, p => p
  | fuel + 1, p =>
    if p.overallDelta ≥ p.cycleDelta then
      loop cycleTicks autoReverse reachedEnd fuel (p.turn cycleTicks autoReverse reachedEnd)
    else p

def timePulse (currentTick : ℤ) : FiniteClipEnvelope :=
  if w.cycleTicks = 0 then w
  else
    let ticks := checkBounds (w.deltaTicks + d.pulseTicks currentTick w.rate) w.totalTicks
    let reachedEnd := decide (ticks ≥ w.totalTicks)
    let overallDelta := ticks - w.ticks
    if overallDelta = 0 then { w with ticks := ticks }
    else
      let cycleDelta := if w.currentRate > 0 then w.cycleTicks - w.pos else w.pos
      let p := Progress.loop w.cycleTicks w.autoReverse reachedEnd (overallDelta.toNat + 2)
        ⟨w.pos, w.currentRate, overallDelta, cycleDelta⟩
      { w with
        ticks := ticks
        currentRate := p.currentRate
        pos :=
          if p.overallDelta > 0 && !reachedEnd then
            if p.currentRate > 0 then p.pos + p.overallDelta else p.pos - p.overallDelta
          else p.pos }

def jumpTo (newTicks : ℤ) : FiniteClipEnvelope :=
  if w.cycleTicks = 0 then w
  else
    let newTicks := if w.rate < 0 then w.totalTicks - newTicks else newTicks
    let ticks := checkBounds newTicks w.totalTicks
    let delta := ticks - w.ticks
    if delta = 0 then { w with ticks := ticks }
    else
      let w := { w with ticks := ticks, deltaTicks := w.deltaTicks + delta }
      if w.autoReverse then
        if w.isForward == decide (w.rate > 0) then
          { w with
            pos := ticks.tmod w.cycleTicks
            currentRate := if w.status = .RUNNING then |w.rate| else w.currentRate }
        else
          { w with
            pos := w.cycleTicks - ticks.tmod w.cycleTicks
            currentRate := if w.status = .RUNNING then -|w.rate| else w.currentRate }
      else
        let pos := ticks.tmod w.cycleTicks
        let pos := if w.rate < 0 then w.cycleTicks - pos else pos
        { w with pos := if pos = 0 && ticks > 0 then w.cycleTicks else pos }

inductive Action
  | start
  | setRate (rate : ℚ)
  | jumpTo (time : ℤ)
  | timePulse (currentTick : ℤ)

/-- A call. The animation passes pulses on only while it runs. -/
def step : Action → Except Unit FiniteClipEnvelope
  | .start => .ok w.start
  | .setRate rate => .ok (w.setRate d rate)
  | .jumpTo time => .ok (w.jumpTo time)
  | .timePulse currentTick => .ok (if w.status = .RUNNING then w.timePulse d currentTick else w)

end FiniteClipEnvelope

end JavaFx.Animation

/-!
Where the play head of an envelope is.

The overall time of an animation is `ticks` while its rate is positive, and what is left of
`totalTicks` while it is negative. A negative rate runs through the cycles from the last
one down, so a cycle of the ticks and a cycle of the overall time have different numbers;
`ahead` says of a cycle of the ticks whether the play head moves forward in it, and the
invariant is stated over the ticks (`Inv`). `jumpTo` and `calculateCurrentRate` decide this
from the parity of the ticks' cycle alone: with a negative rate the first is right for odd
counts of cycles, and the second for even ones.
-/

namespace JavaFx.Animation

open JavaFx.Lib

namespace FiniteClipEnvelope

/-! ## The cycles -/

/-- Whether cycle `k` of the overall time is a forward cycle. -/
def forwardCycle (autoReverse : Bool) (k : ℤ) : Bool := !autoReverse || k % 2 = 0

/-- The overall time. -/
def overallTime (w : FiniteClipEnvelope) : ℤ :=
  if w.rate > 0 then w.ticks else w.totalTicks - w.ticks

/-- The play head is where cycle `k` has it at the overall time, for a cycle `k` that this
time belongs to. -/
def Positioned (w : FiniteClipEnvelope) : Prop :=
  ∃ k, 0 ≤ k ∧ k < w.cycleCount ∧
    k * w.cycleTicks ≤ w.overallTime ∧ w.overallTime ≤ (k + 1) * w.cycleTicks ∧
    w.pos =
      if forwardCycle w.autoReverse k then w.overallTime - k * w.cycleTicks
      else (k + 1) * w.cycleTicks - w.overallTime

/-- Whether the play head moves forward in cycle `j` of the ticks. -/
def ahead (autoReverse : Bool) (cycleCount : ℤ) (rate : ℚ) (j : ℤ) : Bool :=
  if rate > 0 then forwardCycle autoReverse j
  else !forwardCycle autoReverse (cycleCount - 1 - j)

/-- The position in cycle `j` of the ticks. -/
def posIn (ahead : Bool) (cycleTicks ticks j : ℤ) : ℤ :=
  if ahead then ticks - j * cycleTicks else (j + 1) * cycleTicks - ticks

variable {d : Doubles} {a : Bool} {c n : ℤ} {r rate : ℚ} {w : FiniteClipEnvelope}

theorem forwardCycle_succ (k : ℤ) : forwardCycle true (k + 1) = !forwardCycle true k := by
  simp only [forwardCycle, Bool.not_true, Bool.false_or, ← decide_not, decide_eq_decide]
  omega

theorem ahead_false (n : ℤ) (rate : ℚ) (j : ℤ) : ahead false n rate j = decide (rate > 0) := by
  simp [ahead, forwardCycle]

theorem ahead_succ (n : ℤ) (rate : ℚ) (j : ℤ) :
    ahead true n rate (j + 1) = !ahead true n rate j := by
  have hback := forwardCycle_succ (n - 1 - (j + 1))
  rw [show n - 1 - (j + 1) + 1 = n - 1 - j by ring] at hback
  simp only [ahead, forwardCycle_succ, hback]
  split <;> simp

theorem ahead_pred (n : ℤ) (rate : ℚ) (j : ℤ) :
    ahead true n rate (j - 1) = !ahead true n rate j := by
  have h := ahead_succ n rate (j - 1)
  rw [sub_add_cancel] at h
  rw [h, Bool.not_not]

/-- A rate of the other sign runs through the cycles from the other end. -/
theorem ahead_toggle (a : Bool) (n j : ℤ) (h : r * rate < 0) :
    ahead a n r (n - 1 - j) = !ahead a n rate j := by
  rcases mul_neg_iff.1 h with ⟨hr, hrate⟩ | ⟨hr, hrate⟩
  · simp [ahead, hr, not_lt_of_gt hrate]
  · simp [ahead, not_lt_of_gt hr, hrate, show n - 1 - (n - 1 - j) = j by ring]

theorem ahead_same (a : Bool) (n j : ℤ) (h : 0 < r * rate) : ahead a n r j = ahead a n rate j := by
  rcases mul_pos_iff.1 h with ⟨hr, hrate⟩ | ⟨hr, hrate⟩
  · simp [ahead, hr, hrate]
  · simp [ahead, not_lt_of_gt hr, not_lt_of_gt hrate]

/-- With a negative rate the parity of the ticks' cycle is that of the overall time's
cycle exactly for odd counts. -/
theorem ahead_eq_parity (n j : ℤ) (hne : rate ≠ 0) :
    ahead true n rate j =
      (decide (j % 2 = 0) == decide (0 < rate) ^^ (decide (rate < 0) && decide (n % 2 = 0))) := by
  rcases lt_or_gt_of_ne hne with hneg | hpos
  · have hrate : ¬ 0 < rate := not_lt_of_gt hneg
    rcases Int.emod_two_eq_zero_or_one j with hj | hj <;>
      rcases Int.emod_two_eq_zero_or_one n with hn | hn
    · simp [ahead, forwardCycle, hrate, hneg, hj, hn, show (n - 1 - j) % 2 = 1 by omega]
    · simp [ahead, forwardCycle, hrate, hneg, hj, hn, show (n - 1 - j) % 2 = 0 by omega]
    · simp [ahead, forwardCycle, hrate, hneg, hj, hn, show (n - 1 - j) % 2 = 0 by omega]
    · simp [ahead, forwardCycle, hrate, hneg, hj, hn, show (n - 1 - j) % 2 = 1 by omega]
  · simp [ahead, forwardCycle, hpos, not_lt_of_gt hpos]

/-- The half of a double cycle that a time is in. -/
theorem emod_two_mul_lt_iff (t : ℤ) (hc : 0 < c) : t % (2 * c) < c ↔ t / c % 2 = 0 := by
  have hdiv := Int.mul_ediv_add_emod t c
  have hmod : 0 ≤ t % c ∧ t % c < c := ⟨Int.emod_nonneg t hc.ne', Int.emod_lt_of_pos t hc⟩
  have hsplit : t % (2 * c) = c * (t / c % 2) + t % c := by
    have hhalf := Int.mul_ediv_add_emod (t / c) 2
    have ht : t = c * (t / c % 2) + t % c + 2 * c * (t / c / 2) := by
      calc t = c * (t / c) + t % c := hdiv.symm
        _ = c * (2 * (t / c / 2) + t / c % 2) + t % c := by rw [hhalf]
        _ = _ := by ring
    rw [ht, Int.add_mul_emod_self_left]
    rcases Int.emod_two_eq_zero_or_one (t / c) with h | h
    · rw [← ht, h]
      exact Int.emod_eq_of_lt (by omega) (by omega)
    · rw [← ht, h]
      exact Int.emod_eq_of_lt (by omega) (by omega)
  rw [hsplit]
  rcases Int.emod_two_eq_zero_or_one (t / c) with h | h <;> rw [h] <;> constructor <;> omega

/-! ## The invariant -/

/-- The current rate is the rate, or in an animation that reverses the opposite. -/
def RateOrOpposite (a : Bool) (rate currentRate : ℚ) : Prop :=
  currentRate = rate ∨ a = true ∧ currentRate = -rate

/-- The envelope of an animation with `n` cycles of `c` ticks. -/
structure Inv (a : Bool) (c n : ℤ) (w : FiniteClipEnvelope) : Prop where
  autoReverse : w.autoReverse = a
  cycleTicks : w.cycleTicks = c
  cycleCount : w.cycleCount = n
  totalTicks : w.totalTicks = n * c
  rate_ne : w.rate ≠ 0
  within : 0 ≤ w.ticks ∧ w.ticks ≤ n * c
  /-- The play head is where a cycle of the ticks has it. -/
  pos : ∃ j, 0 ≤ j ∧ j < n ∧ j * c ≤ w.ticks ∧ w.ticks ≤ (j + 1) * c ∧
    w.pos = posIn (ahead a n w.rate j) c w.ticks j
  current : w.status = .RUNNING → RateOrOpposite a w.rate w.currentRate
  /-- Inside a cycle the animation runs in the direction of the cycle. -/
  directed : w.status = .RUNNING → ∀ j, j * c < w.ticks → w.ticks < (j + 1) * c →
    (0 < w.currentRate ↔ ahead a n w.rate j = true)

/-- The invariant says of the overall time what it says of the ticks. -/
theorem Inv.positioned (h : Inv a c n w) : w.Positioned := by
  obtain ⟨j, hj0, hjn, hlo, hhi, hpos⟩ := h.pos
  rw [Positioned, overallTime, h.autoReverse, h.cycleTicks, h.cycleCount, h.totalTicks, hpos]
  by_cases hrate : w.rate > 0
  · refine ⟨j, hj0, hjn, ?_⟩
    simp only [hrate, if_true, ahead, posIn]
    exact ⟨hlo, hhi, trivial⟩
  · refine ⟨n - 1 - j, by omega, by omega, ?_⟩
    simp only [hrate, if_false, ahead, posIn]
    refine ⟨by linarith, by linarith, ?_⟩
    cases forwardCycle a (n - 1 - j)
    · simp only [Bool.not_false, if_true, Bool.false_eq_true, if_false]
      ring
    · simp only [Bool.not_true, if_true, Bool.false_eq_true, if_false]
      ring

/-- Only one cycle has a time in its inside. -/
theorem cycle_unique {j k t : ℤ} (hc : 0 < c) (hj : j * c ≤ t) (hj' : t < (j + 1) * c)
    (hk : k * c ≤ t) (hk' : t < (k + 1) * c) : j = k := by
  have h1 : j < k + 1 := lt_of_mul_lt_mul_right (lt_of_le_of_lt hj hk') hc.le
  have h2 : k < j + 1 := lt_of_mul_lt_mul_right (lt_of_le_of_lt hk hj') hc.le
  omega

/-! ## Creation -/

theorem new_inv (a : Bool) (hc : 0 < c) (hn : 2 ≤ n) (hfit : n * c < 2 ^ 63) (hrate : 0 < rate) :
    Inv a c n (new a c n rate) where
  autoReverse := rfl
  cycleTicks := rfl
  cycleCount := rfl
  totalTicks := toLong_of_nonneg (by positivity) hfit
  rate_ne := hrate.ne'
  within := ⟨le_rfl, by show 0 ≤ n * c; positivity⟩
  pos := by
    refine ⟨0, le_rfl, by omega, by simp [new], by simp [new, hc.le], ?_⟩
    have hahead : ahead a n (new a c n rate).rate 0 = true := by
      simp [ahead, new, hrate, forwardCycle]
    rw [hahead]
    simp [new, posIn]
  current h := by cases h
  directed h := by cases h

/-! ## `start` -/

theorem isForward_eq (hc : 0 < w.cycleTicks) (hfit : 2 * w.cycleTicks < 2 ^ 63)
    (ht : 0 ≤ w.ticks) : w.isForward = decide (w.ticks / w.cycleTicks % 2 = 0) := by
  rw [isForward, toLong_of_nonneg (by omega) hfit, Int.tmod_eq_emod_of_nonneg ht]
  exact decide_eq_decide.2 (emod_two_mul_lt_iff w.ticks hc)

theorem two_mul_lt (hc : 0 < c) (hn : 2 ≤ n) (hfit : n * c < 2 ^ 63) : 2 * c < 2 ^ 63 :=
  lt_of_le_of_lt (mul_le_mul_of_nonneg_right hn hc.le) hfit

/-- The cycle of the ticks, when they are inside it. -/
theorem ediv_eq_of_inside {j t : ℤ} (hc : 0 < c) (hlo : j * c ≤ t) (hhi : t < (j + 1) * c) :
    t / c = j :=
  (Int.ediv_eq_iff_of_pos hc).2 ⟨by linarith, by linarith⟩

theorem calculateCurrentRate_or (w : FiniteClipEnvelope) :
    RateOrOpposite w.autoReverse w.rate w.calculateCurrentRate := by
  rw [RateOrOpposite, calculateCurrentRate]
  cases w.autoReverse
  · exact .inl rfl
  · by_cases h : (w.isForward == decide (w.rate > 0)) = true
    · exact .inl (by simp [h])
    · exact .inr ⟨rfl, by simp [h]⟩

/-- Inside a cycle, `calculateCurrentRate` is right except for a negative rate, an odd
count and an animation that reverses. -/
theorem calculateCurrentRate_pos_iff (h : Inv a c n w) (hc : 0 < c) (hn : 2 ≤ n)
    (hfit : n * c < 2 ^ 63) {j : ℤ} (hlo : j * c ≤ w.ticks) (hhi : w.ticks < (j + 1) * c) :
    (0 < w.calculateCurrentRate ↔ ahead a n w.rate j = true) ↔
      ¬ (a = true ∧ w.rate < 0 ∧ n % 2 = 1) := by
  rw [calculateCurrentRate, h.autoReverse]
  cases a with
  | false => simp [ahead_false]
  | true =>
    have hforward : w.isForward = decide (j % 2 = 0) := by
      rw [isForward_eq (by rwa [h.cycleTicks])
        (by rw [h.cycleTicks]; exact two_mul_lt hc hn hfit) h.within.1, h.cycleTicks,
        ediv_eq_of_inside hc hlo hhi]
    rw [hforward, ahead_eq_parity n j h.rate_ne]
    rcases lt_or_gt_of_ne h.rate_ne with hneg | hpos
    · have hrate : ¬ 0 < w.rate := not_lt_of_gt hneg
      rcases Int.emod_two_eq_zero_or_one j with hj | hj <;>
        rcases Int.emod_two_eq_zero_or_one n with hn' | hn' <;>
        simp [hj, hn', hneg, hrate]
    · rcases Int.emod_two_eq_zero_or_one j with hj | hj <;>
        simp [hj, hpos, not_lt_of_gt hpos]

/-- `start` sets a current rate that is right. -/
theorem start_inv (h : Inv a c n w) (hc : 0 < c) (hn : 2 ≤ n) (hfit : n * c < 2 ^ 63)
    (hok : a = true → w.rate < 0 → n % 2 = 0 ∨ c ∣ w.ticks) : Inv a c n w.start where
  autoReverse := h.autoReverse
  cycleTicks := h.cycleTicks
  cycleCount := h.cycleCount
  totalTicks := h.totalTicks
  rate_ne := h.rate_ne
  within := h.within
  pos := h.pos
  current _ := by
    have hor := calculateCurrentRate_or w
    rwa [h.autoReverse] at hor
  directed _ j hlo hhi := by
    refine (calculateCurrentRate_pos_iff h hc hn hfit hlo.le hhi).2 ?_
    rintro ⟨ha, hneg, hodd⟩
    rcases hok ha hneg with heven | ⟨i, hi⟩
    · omega
    · -- a multiple of the cycle is not inside a cycle
      have hstart : w.start.ticks = c * i := hi
      have h1 : j < i := lt_of_mul_lt_mul_right (by linarith) hc.le
      have h2 : i < j + 1 := lt_of_mul_lt_mul_right (by linarith) hc.le
      omega

/-! ## `setRate` -/

/-- The current rate after `setRate`, and its sign. -/
theorem rateOrOpposite_setRate {currentRate : ℚ} (h : RateOrOpposite a rate currentRate)
    (heps : currentRate ≠ rate → EPSILON ≤ |currentRate - rate|) :
    RateOrOpposite a r (if |currentRate - rate| < EPSILON then r else -r) ∧
      (if |currentRate - rate| < EPSILON then r else -r) * rate = r * currentRate := by
  by_cases heq : currentRate = rate
  · have hlt : |currentRate - rate| < EPSILON := by rw [heq, sub_self, abs_zero, EPSILON]; norm_num
    rw [if_pos hlt, heq]
    exact ⟨.inl rfl, rfl⟩
  · rw [if_neg (not_lt.2 (heps heq))]
    rcases h with h | ⟨ha, h⟩
    · exact absurd h heq
    · exact ⟨.inr ⟨ha, rfl⟩, by rw [h]; ring⟩

theorem RateOrOpposite.ne_zero {currentRate : ℚ} (h : RateOrOpposite a rate currentRate)
    (hrate : rate ≠ 0) : currentRate ≠ 0 := by
  rcases h with rfl | ⟨_, rfl⟩
  · exact hrate
  · exact neg_ne_zero.2 hrate

theorem setRate_ticks (hprod : d.product r w.rate < 0 ↔ r * w.rate < 0) :
    (w.setRate d r).ticks = if r * w.rate < 0 then w.totalTicks - w.ticks else w.ticks := by
  simp only [setRate, hprod]

theorem setRate_inv (h : Inv a c n w) (hr : r ≠ 0)
    (hprod : d.product r w.rate < 0 ↔ r * w.rate < 0)
    (heps : w.status = .RUNNING → w.currentRate ≠ w.rate → EPSILON ≤ |w.currentRate - w.rate|) :
    Inv a c n (w.setRate d r) := by
  have hticks := setRate_ticks hprod
  have hwithin := h.within
  have hrunning : w.status = .RUNNING → RateOrOpposite a r (w.setRate d r).currentRate ∧
      (w.setRate d r).currentRate * (w.rate * w.rate) = r * w.rate * w.currentRate := by
    intro hs
    obtain ⟨hor, hmul⟩ := rateOrOpposite_setRate (r := r) (h.current hs) (heps hs)
    have hcur : (w.setRate d r).currentRate =
        if |w.currentRate - w.rate| < EPSILON then r else -r := by simp only [setRate, hs, if_true]
    rw [hcur]
    refine ⟨hor, ?_⟩
    rw [← mul_assoc, hmul]
    ring
  have hsquare : 0 < w.rate * w.rate := mul_self_pos.2 h.rate_ne
  rcases lt_or_gt_of_ne (mul_ne_zero hr h.rate_ne) with hneg | hpos
  · rw [if_pos hneg, h.totalTicks] at hticks
    exact {
      autoReverse := h.autoReverse
      cycleTicks := h.cycleTicks
      cycleCount := h.cycleCount
      totalTicks := h.totalTicks
      rate_ne := hr
      within := by rw [hticks]; omega
      pos := by
        obtain ⟨j, hj0, hjn, hlo, hhi, hpos⟩ := h.pos
        refine ⟨n - 1 - j, by omega, by omega, by rw [hticks]; linarith,
          by rw [hticks]; linarith, ?_⟩
        rw [hticks]
        show w.pos = posIn (ahead a n r (n - 1 - j)) c _ _
        rw [hpos, ahead_toggle a n j hneg]
        cases ahead a n w.rate j <;> simp only [posIn, Bool.not_true, Bool.not_false, if_true,
          Bool.false_eq_true, if_false] <;> ring
      current := fun hs => (hrunning hs).1
      directed := by
        intro hs j hlo hhi
        rw [hticks] at hlo hhi
        have hold := h.directed hs (n - 1 - j) (by linarith) (by linarith)
        have htoggle := ahead_toggle a n (n - 1 - j) hneg
        rw [show n - 1 - (n - 1 - j) = j by ring] at htoggle
        -- the current rate has changed its sign
        have hsign : 0 < (w.setRate d r).currentRate ↔ w.currentRate < 0 := by
          rw [← mul_pos_iff_of_pos_right hsquare, (hrunning hs).2, mul_pos_iff]
          simp [hneg, not_lt_of_gt hneg]
        have hcur := (h.current hs).ne_zero h.rate_ne
        show _ ↔ ahead a n r j = true
        rw [htoggle, hsign, Bool.not_eq_true', ← Bool.not_eq_true, ← hold, not_lt]
        exact ⟨le_of_lt, fun hle => lt_of_le_of_ne hle hcur⟩ }
  · rw [if_neg (not_lt_of_gt hpos)] at hticks
    exact {
      autoReverse := h.autoReverse
      cycleTicks := h.cycleTicks
      cycleCount := h.cycleCount
      totalTicks := h.totalTicks
      rate_ne := hr
      within := by rw [hticks]; exact hwithin
      pos := by
        obtain ⟨j, hj0, hjn, hlo, hhi, hpos'⟩ := h.pos
        rw [hticks]
        refine ⟨j, hj0, hjn, hlo, hhi, ?_⟩
        show w.pos = posIn (ahead a n r j) c _ _
        rw [hpos', ahead_same a n j hpos]
      current := fun hs => (hrunning hs).1
      directed := by
        intro hs j hlo hhi
        rw [hticks] at hlo hhi
        have hsign : 0 < (w.setRate d r).currentRate ↔ 0 < w.currentRate := by
          rw [← mul_pos_iff_of_pos_right hsquare, (hrunning hs).2, mul_pos_iff_of_pos_left hpos]
        show _ ↔ ahead a n r j = true
        rw [hsign, ahead_same a n j hpos]
        exact h.directed hs j hlo hhi }

/-! ## `jumpTo` -/

/-- The ticks that a jump leads to. -/
def jumpTicks (w : FiniteClipEnvelope) (time : ℤ) : ℤ :=
  checkBounds (if w.rate < 0 then w.totalTicks - time else time) w.totalTicks

theorem jumpTicks_bounds (h : Inv a c n w) (time : ℤ) :
    0 ≤ w.jumpTicks time ∧ w.jumpTicks time ≤ n * c := by
  have hwithin := h.within
  simp only [jumpTicks, checkBounds, h.totalTicks]
  omega

theorem jumpTo_eq_self (time : ℤ) (hsame : w.jumpTicks time = w.ticks) : w.jumpTo time = w := by
  have hbounds : checkBounds (if w.rate < 0 then w.totalTicks - time else time) w.totalTicks =
    w.ticks := hsame
  rw [jumpTo]
  simp only [hbounds, sub_self, if_true, ite_self]

/-- A jump in an animation that reverses goes by the parity of the ticks' cycle. -/
theorem jumpTo_reverse (hc : 0 < w.cycleTicks) (hfit : 2 * w.cycleTicks < 2 ^ 63)
    (ha : w.autoReverse = true) (time t : ℤ) (ht : w.jumpTicks time = t) (h0 : 0 ≤ t)
    (hmoved : t ≠ w.ticks) (b : Bool)
    (hb : (decide (t / w.cycleTicks % 2 = 0) == decide (w.rate > 0)) = b) :
    w.jumpTo time = { w with
      ticks := t
      deltaTicks := w.deltaTicks + (t - w.ticks)
      pos := if b then t % w.cycleTicks else w.cycleTicks - t % w.cycleTicks
      currentRate :=
        if w.status = .RUNNING then if b then |w.rate| else -|w.rate| else w.currentRate } := by
  have hbounds : checkBounds (if w.rate < 0 then w.totalTicks - time else time) w.totalTicks = t :=
    ht
  have hforward : isForward { w with ticks := t, deltaTicks := w.deltaTicks + (t - w.ticks) } =
      decide (t / w.cycleTicks % 2 = 0) := isForward_eq hc hfit h0
  rw [jumpTo, if_neg hc.ne']
  simp only [hbounds, if_neg (sub_ne_zero.2 hmoved), ha, if_true] at hforward ⊢
  rw [hforward, hb, Int.tmod_eq_emod_of_nonneg h0]
  cases b <;> rfl

/-- A jump in an animation that does not reverse. -/
theorem jumpTo_repeat (hc : 0 < w.cycleTicks) (ha : w.autoReverse = false) (time t : ℤ)
    (ht : w.jumpTicks time = t) (h0 : 0 ≤ t) (hmoved : t ≠ w.ticks) :
    w.jumpTo time = { w with
      ticks := t
      deltaTicks := w.deltaTicks + (t - w.ticks)
      pos :=
        if w.rate < 0 then w.cycleTicks - t % w.cycleTicks
        else if t % w.cycleTicks = 0 ∧ t > 0 then w.cycleTicks else t % w.cycleTicks } := by
  have hbounds : checkBounds (if w.rate < 0 then w.totalTicks - time else time) w.totalTicks = t :=
    ht
  have hmod := Int.emod_lt_of_pos t hc
  rw [jumpTo, if_neg hc.ne']
  simp only [hbounds, if_neg (sub_ne_zero.2 hmoved), ha, Bool.false_eq_true, if_false,
    Int.tmod_eq_emod_of_nonneg h0]
  by_cases hrate : w.rate < 0
  · have hpos : w.cycleTicks - t % w.cycleTicks ≠ 0 := by omega
    simp only [hrate, if_true, hpos, decide_false, Bool.false_and, Bool.false_eq_true, if_false]
  · simp only [hrate, if_false, Bool.and_eq_true, decide_eq_true_eq]

/-- The time of a cycle that a time inside the cycles, or their end, belongs to. -/
theorem mem_cycle (t : ℤ) (hc : 0 < c) : t / c * c ≤ t ∧ t < (t / c + 1) * c := by
  have hdiv := Int.mul_ediv_add_emod t c
  have hmod : 0 ≤ t % c ∧ t % c < c := ⟨Int.emod_nonneg t hc.ne', Int.emod_lt_of_pos t hc⟩
  constructor
  · linarith
  · linarith

/-- An animation that reverses is at the same place at the end of a cycle and at the start
of the next one. -/
theorem posIn_pred (n j : ℤ) (rate : ℚ) (c : ℤ) :
    posIn (ahead true n rate (j - 1)) c (j * c) (j - 1) = posIn (ahead true n rate j) c (j * c) j := by
  rw [ahead_pred]
  cases ahead true n rate j <;> simp only [posIn, Bool.not_true, Bool.not_false, if_true,
    Bool.false_eq_true, if_false] <;> ring

/-- A place in the cycle of a time is a place in one of the `n` cycles. -/
theorem exists_cycle_reverse (n : ℤ) (rate : ℚ) {t : ℤ} (hc : 0 < c) (hn : 2 ≤ n) (h0 : 0 ≤ t)
    (hle : t ≤ n * c) :
    ∃ j, 0 ≤ j ∧ j < n ∧ j * c ≤ t ∧ t ≤ (j + 1) * c ∧
      posIn (ahead true n rate (t / c)) c t (t / c) = posIn (ahead true n rate j) c t j := by
  have hcycle := mem_cycle t hc
  have hdiv : 0 ≤ t / c := Int.ediv_nonneg h0 hc.le
  rcases lt_or_eq_of_le hle with hlt | rfl
  · have hj : t / c < n := lt_of_mul_lt_mul_right (lt_of_le_of_lt hcycle.1 hlt) hc.le
    exact ⟨t / c, hdiv, hj, hcycle.1, hcycle.2.le, rfl⟩
  · refine ⟨n - 1, by omega, by omega, by linarith, by linarith, ?_⟩
    rw [Int.mul_ediv_cancel n hc.ne', posIn_pred]

/-- At the end of a cycle a jump takes this end, and not the start of the next cycle. -/
theorem exists_cycle_repeat {t : ℤ} (hc : 0 < c) (hn : 2 ≤ n) (h0 : 0 ≤ t) (hle : t ≤ n * c) :
    ∃ j, 0 ≤ j ∧ j < n ∧ j * c ≤ t ∧ t ≤ (j + 1) * c ∧
      (if t % c = 0 ∧ t > 0 then c else t % c) = t - j * c := by
  have hcycle := mem_cycle t hc
  have hdiv : 0 ≤ t / c := Int.ediv_nonneg h0 hc.le
  have hmod := Int.mul_ediv_add_emod t c
  by_cases hend : t % c = 0 ∧ t > 0
  · rw [if_pos hend]
    rw [hend.1, add_zero] at hmod
    have hpos : 0 < t / c := pos_of_mul_pos_right (by omega) hc.le
    have hn' : t / c ≤ n := le_of_mul_le_mul_right (hcycle.1.trans hle) hc
    exact ⟨t / c - 1, by omega, by omega, by linarith, by linarith, by linarith⟩
  · rw [if_neg hend]
    refine ⟨t / c, hdiv, ?_, hcycle.1, hcycle.2.le, by linarith⟩
    have hne : t ≠ n * c := by
      rintro rfl
      exact hend ⟨Int.mul_emod_left n c, by positivity⟩
    exact lt_of_mul_lt_mul_right (lt_of_le_of_lt hcycle.1 (lt_of_le_of_ne hle hne)) hc.le

/-- The current rate that a jump sets. -/
theorem abs_rate_or (rate : ℚ) (b : Bool) :
    RateOrOpposite true rate (if b then |rate| else -|rate|) := by
  rcases le_total 0 rate with h | h
  · rw [abs_of_nonneg h]
    cases b
    · exact .inr ⟨rfl, rfl⟩
    · exact .inl rfl
  · rw [abs_of_nonpos h, neg_neg]
    cases b
    · exact .inl rfl
    · exact .inr ⟨rfl, rfl⟩

theorem abs_rate_pos_iff (hne : rate ≠ 0) (b : Bool) :
    0 < (if b then |rate| else -|rate|) ↔ b = true := by
  have habs := abs_pos.2 hne
  cases b
  · simp
  · simp [hne]

theorem posIn_eq_emod (b : Bool) (c t : ℤ) :
    posIn b c t (t / c) = if b then t % c else c - t % c := by
  have hmod := Int.mul_ediv_add_emod t c
  cases b
  · simp only [posIn, Bool.false_eq_true, if_false]
    linarith
  · simp only [posIn, if_true]
    linarith

/-- A jump in an animation that reverses sets a position and a current rate that are right
unless the rate is negative and the count even. -/
theorem jumpTo_inv_reverse (h : Inv true c n w) (hc : 0 < c) (hn : 2 ≤ n) (hfit : n * c < 2 ^ 63)
    (time : ℤ) (hok : w.rate < 0 → w.jumpTicks time ≠ w.ticks → n % 2 = 1) :
    Inv true c n (w.jumpTo time) := by
  by_cases hmoved : w.jumpTicks time = w.ticks
  · rwa [jumpTo_eq_self time hmoved]
  obtain ⟨h0, hle⟩ := jumpTicks_bounds h time
  obtain rfl := h.cycleTicks
  have hb : (decide (w.jumpTicks time / w.cycleTicks % 2 = 0) == decide (w.rate > 0)) =
      ahead true n w.rate (w.jumpTicks time / w.cycleTicks) := by
    have hodd : (decide (w.rate < 0) && decide (n % 2 = 0)) = false := by
      by_cases hneg : w.rate < 0
      · have hn' := hok hneg hmoved
        simp [hneg, hn']
      · simp [hneg]
    rw [ahead_eq_parity n _ h.rate_ne, hodd, Bool.xor_false]
  rw [jumpTo_reverse hc (two_mul_lt hc hn hfit) h.autoReverse time _ rfl h0 hmoved _ hb]
  exact {
    autoReverse := h.autoReverse
    cycleTicks := rfl
    cycleCount := h.cycleCount
    totalTicks := h.totalTicks
    rate_ne := h.rate_ne
    within := ⟨h0, hle⟩
    pos := by
      obtain ⟨j, hj0, hjn, hlo, hhi, hpos⟩ := exists_cycle_reverse n w.rate hc hn h0 hle
      exact ⟨j, hj0, hjn, hlo, hhi, by rw [← hpos, posIn_eq_emod]⟩
    current := by
      intro hs
      show RateOrOpposite true w.rate (if w.status = .RUNNING then _ else w.currentRate)
      rw [if_pos hs]
      exact abs_rate_or w.rate _
    directed := by
      intro hs j hlo hhi
      show 0 < (if w.status = .RUNNING then _ else w.currentRate) ↔ _
      rw [if_pos hs, abs_rate_pos_iff h.rate_ne, ediv_eq_of_inside hc hlo.le hhi] }

/-- A jump in an animation that does not reverse sets a position that is right, except with
a negative rate at the start, where it takes the end of the cycle. -/
theorem jumpTo_inv_repeat (h : Inv false c n w) (hc : 0 < c) (hn : 2 ≤ n) (time : ℤ)
    (hok : w.rate < 0 → w.jumpTicks time ≠ w.ticks → 0 < time) :
    Inv false c n (w.jumpTo time) := by
  by_cases hmoved : w.jumpTicks time = w.ticks
  · rwa [jumpTo_eq_self time hmoved]
  obtain ⟨h0, hle⟩ := jumpTicks_bounds h time
  obtain rfl := h.cycleTicks
  have hcycle := mem_cycle (w.jumpTicks time) hc
  have hdiv : 0 ≤ w.jumpTicks time / w.cycleTicks := Int.ediv_nonneg h0 hc.le
  rw [jumpTo_repeat hc h.autoReverse time _ rfl h0 hmoved]
  exact {
    autoReverse := h.autoReverse
    cycleTicks := rfl
    cycleCount := h.cycleCount
    totalTicks := h.totalTicks
    rate_ne := h.rate_ne
    within := ⟨h0, hle⟩
    pos := by
      simp only [ahead_false]
      rcases lt_or_gt_of_ne h.rate_ne with hneg | hpos
      · -- the ticks are not at their end
        have hlt : w.jumpTicks time < n * w.cycleTicks := by
          have htime := hok hneg hmoved
          have htotal := h.totalTicks
          have htwo : 0 < n * w.cycleTicks := by positivity
          simp only [jumpTicks, checkBounds, hneg, if_true, htotal]
          omega
        have hj := lt_of_mul_lt_mul_right (lt_of_le_of_lt hcycle.1 hlt) hc.le
        refine ⟨_, hdiv, hj, hcycle.1, hcycle.2.le, ?_⟩
        simp [posIn_eq_emod, hneg, not_lt_of_gt hneg]
      · obtain ⟨j, hj0, hjn, hlo, hhi, hplace⟩ := exists_cycle_repeat hc hn h0 hle
        refine ⟨j, hj0, hjn, hlo, hhi, ?_⟩
        simp only [not_lt_of_gt hpos, if_false, hpos, decide_true, posIn, if_true]
        exact hplace
    current := h.current
    directed := by
      intro hs j _ _
      have hcur : w.currentRate = w.rate := by
        rcases h.current hs with hcur | ⟨hcur, _⟩
        · exact hcur
        · cases hcur
      show 0 < w.currentRate ↔ _
      rw [hcur, ahead_false, decide_eq_true_iff] }

/-! ## `timePulse` -/

namespace Progress

/-- What holds before each turn of a pulse that ends at tick `target`: the play head is in
cycle `j` of the ticks, `cycleDelta` before its end. -/
structure In (a : Bool) (c n : ℤ) (rate : ℚ) (target : ℤ) (j : ℤ) (p : Progress) : Prop where
  within : 0 ≤ p.cycleDelta ∧ p.cycleDelta ≤ c
  overall : 0 ≤ p.overallDelta
  ends : (j + 1) * c = target - p.overallDelta + p.cycleDelta
  pos : p.pos = if ahead a n rate j then c - p.cycleDelta else p.cycleDelta
  current : RateOrOpposite a rate p.currentRate
  directed : 0 < p.currentRate ↔ ahead a n rate j = true

variable {target j : ℤ} {p : Progress}

/-- A turn of a pulse that does not reach the end. -/
theorem turn_running (c : ℤ) (a : Bool) (p : Progress) :
    p.turn c a false =
      { pos :=
          if a then if p.cycleDelta > 0 then if p.currentRate > 0 then c else 0 else p.pos
          else if p.currentRate > 0 then 0 else c
        currentRate := if a then -p.currentRate else p.currentRate
        overallDelta :=
          if p.cycleDelta > 0 then p.overallDelta - p.cycleDelta else p.overallDelta
        cycleDelta := c } := by
  rw [turn]
  cases a <;> by_cases h : p.cycleDelta > 0 <;> simp [h]

/-- A turn leads to the start of the next cycle. -/
theorem In.turn (h : In a c n rate target j p) (hc : 0 < c) (hrate : rate ≠ 0)
    (hle : p.cycleDelta ≤ p.overallDelta) :
    In a c n rate target (j + 1) (p.turn c a false) ∧
      (p.turn c a false).overallDelta = p.overallDelta - p.cycleDelta := by
  obtain ⟨hcd, hcd'⟩ := h.within
  have hends := h.ends
  have hover : (if p.cycleDelta > 0 then p.overallDelta - p.cycleDelta else p.overallDelta) =
      p.overallDelta - p.cycleDelta := by omega
  rw [turn_running, hover]
  refine ⟨?_, rfl⟩
  exact {
    within := ⟨hc.le, le_rfl⟩
    overall := by show 0 ≤ p.overallDelta - p.cycleDelta; omega
    ends := by show (j + 1 + 1) * c = target - (p.overallDelta - p.cycleDelta) + c; linarith
    pos := by
      cases a with
      | false =>
        have hdirected := h.directed
        simp only [ahead_false, decide_eq_true_eq] at hdirected
        simp [ahead_false, hdirected]
      | true =>
        -- the end of a cycle is the start of the next one
        have hend : (if p.cycleDelta > 0 then if p.currentRate > 0 then c else 0 else p.pos) =
            if ahead true n rate j then c else 0 := by
          by_cases hpositive : p.cycleDelta > 0
          · simp only [hpositive, if_true, gt_iff_lt, h.directed]
          · rw [if_neg hpositive, h.pos, show p.cycleDelta = 0 by omega, sub_zero]
        simp only [if_true, hend, ahead_succ]
        cases ahead true n rate j <;> simp
    current := by
      cases a with
      | false => exact h.current
      | true =>
        rcases h.current with hcur | ⟨_, hcur⟩
        · exact .inr ⟨rfl, by simp [hcur]⟩
        · exact .inl (by simp [hcur])
    directed := by
      have hdirected := h.directed
      cases a with
      | false => simpa [ahead_false] using hdirected
      | true =>
        have hne := h.current.ne_zero hrate
        simp only [if_true, ahead_succ, Bool.not_eq_true', ← Bool.not_eq_true, ← hdirected, neg_pos,
          not_lt]
        exact ⟨le_of_lt, fun hle' => lt_of_le_of_ne hle' hne⟩ }

/-- The loop ends in the cycle of the target. -/
theorem In.loop (hc : 0 < c) (hrate : rate ≠ 0) (fuel : ℕ) {j : ℤ} {p : Progress}
    (h : In a c n rate target j p) (hfuel : p.overallDelta + (if p.cycleDelta = 0 then 1 else 0) < fuel) :
    ∃ j', In a c n rate target j' (Progress.loop c a false fuel p) ∧
      (Progress.loop c a false fuel p).overallDelta < (Progress.loop c a false fuel p).cycleDelta := by
  induction fuel generalizing j p with
  | zero =>
    have hover := h.overall
    split at hfuel <;> omega
  | succ fuel ih =>
    rw [Progress.loop]
    split
    · rename_i hle
      obtain ⟨hturn, hover⟩ := h.turn hc hrate hle
      refine ih hturn ?_
      have hdelta : (p.turn c a false).cycleDelta = c := by rw [turn_running]
      have hwithin := h.within
      rw [hover, hdelta, if_neg hc.ne']
      split at hfuel <;> omega
    · exact ⟨j, h, by omega⟩

end Progress

/-- A pulse starts in one of the cycles that the ticks belong to: at the border of two
cycles, in the one whose direction the animation runs in. -/
theorem exists_in (h : Inv a c n w) (hrun : w.status = .RUNNING) (hc : 0 < c) {target : ℤ}
    (hle : w.ticks ≤ target) :
    ∃ j, Progress.In a c n w.rate target j
      ⟨w.pos, w.currentRate, target - w.ticks, if w.currentRate > 0 then c - w.pos else w.pos⟩ := by
  obtain ⟨j, _, _, hlo, hhi, hpos⟩ := h.pos
  have hcurrent := h.current hrun
  by_cases hdir : 0 < w.currentRate ↔ ahead a n w.rate j = true
  · -- the cycle of the position
    have hdelta : (if w.currentRate > 0 then c - w.pos else w.pos) = (j + 1) * c - w.ticks := by
      rw [hpos, posIn]
      by_cases hahead : ahead a n w.rate j = true
      · rw [if_pos (hdir.2 hahead), if_pos hahead]
        ring
      · rw [if_neg (mt hdir.1 hahead), if_neg hahead]
    rw [hdelta]
    exact ⟨j, {
      within := ⟨by show 0 ≤ (j + 1) * c - w.ticks; omega,
        by show (j + 1) * c - w.ticks ≤ c; linarith⟩
      overall := by show 0 ≤ target - w.ticks; omega
      ends := by show (j + 1) * c = target - (target - w.ticks) + ((j + 1) * c - w.ticks); ring
      pos := by
        show w.pos = if _ then c - ((j + 1) * c - w.ticks) else (j + 1) * c - w.ticks
        rw [hpos, posIn]
        congr 1
        ring
      current := hcurrent
      directed := hdir }⟩
  · cases a with
    | false =>
      rcases hcurrent with hcur | ⟨hcur, _⟩
      · exact absurd (by rw [hcur, ahead_false, decide_eq_true_iff]) hdir
      · cases hcur
    | true =>
      have hdir' : 0 < w.currentRate ↔ ahead true n w.rate j = false := by
        rw [← Bool.not_eq_true]
        tauto
      rcases lt_or_eq_of_le hlo with hlo' | hlo'
      · rcases lt_or_eq_of_le hhi with hhi' | hhi'
        · exact absurd (h.directed hrun j hlo' hhi') hdir
        · -- the cycle after
          have hdelta : (if w.currentRate > 0 then c - w.pos else w.pos) = c := by
            rw [hpos, hhi']
            by_cases hahead : ahead true n w.rate j = true
            · simp [posIn, hdir', hahead]
              ring
            · simp [posIn, hdir', hahead]
          rw [hdelta]
          exact ⟨j + 1, {
            within := ⟨hc.le, le_rfl⟩
            overall := by show 0 ≤ target - w.ticks; omega
            ends := by show (j + 1 + 1) * c = target - (target - w.ticks) + c; linarith
            pos := by
              show w.pos = if _ then c - c else c
              rw [hpos, hhi', ahead_succ]
              by_cases hahead : ahead true n w.rate j = true
              · simp [posIn, hahead]
                ring
              · simp [posIn, hahead]
            current := hcurrent
            directed := by
              rw [ahead_succ, Bool.not_eq_true']
              exact hdir' }⟩
      · -- the cycle before
        have hdelta : (if w.currentRate > 0 then c - w.pos else w.pos) = 0 := by
          rw [hpos, ← hlo']
          by_cases hahead : ahead true n w.rate j = true
          · simp [posIn, hdir', hahead]
          · simp [posIn, hdir', hahead]
            ring
        rw [hdelta]
        exact ⟨j - 1, {
          within := ⟨le_rfl, hc.le⟩
          overall := by show 0 ≤ target - w.ticks; omega
          ends := by show (j - 1 + 1) * c = target - (target - w.ticks) + 0; linarith
          pos := by
            show w.pos = if _ then c - 0 else 0
            rw [hpos, ← hlo', ahead_pred]
            by_cases hahead : ahead true n w.rate j = true
            · simp [posIn, hahead]
            · simp [posIn, hahead]
              ring
          current := hcurrent
          directed := by
            rw [ahead_pred, Bool.not_eq_true']
            exact hdir' }⟩

/-- A pulse that does not reach the end. -/
theorem timePulse_inv (h : Inv a c n w) (hrun : w.status = .RUNNING) (hc : 0 < c)
    (currentTick : ℤ) (hle : w.ticks ≤ w.deltaTicks + d.pulseTicks currentTick w.rate)
    (hlt : w.deltaTicks + d.pulseTicks currentTick w.rate < w.totalTicks) :
    Inv a c n (w.timePulse d currentTick) := by
  obtain rfl := h.autoReverse
  obtain rfl := h.cycleTicks
  obtain rfl := h.cycleCount
  obtain ⟨target, htarget⟩ : ∃ t, w.deltaTicks + d.pulseTicks currentTick w.rate = t := ⟨_, rfl⟩
  rw [htarget] at hle hlt
  have hwithin := h.within
  have htotal := h.totalTicks
  have hbounds : checkBounds target w.totalTicks = target := by
    rw [checkBounds]
    omega
  have hreached : decide (target ≥ w.totalTicks) = false := decide_eq_false (by omega)
  rw [timePulse, if_neg hc.ne']
  simp only [htarget, hbounds, hreached, Bool.not_false, Bool.and_true, decide_eq_true_eq]
  by_cases hsame : target - w.ticks = 0
  · rw [if_pos hsame, show target = w.ticks by omega]
    exact h
  · rw [if_neg hsame]
    obtain ⟨j₀, hstart⟩ := exists_in h hrun hc hle
    obtain ⟨j, hin, hend⟩ := hstart.loop hc h.rate_ne ((target - w.ticks).toNat + 2)
      (by show target - w.ticks + _ < _; split <;> omega)
    obtain ⟨q, hq⟩ : ∃ q, Progress.loop w.cycleTicks w.autoReverse false
      ((target - w.ticks).toNat + 2) ⟨w.pos, w.currentRate, target - w.ticks,
        if w.currentRate > 0 then w.cycleTicks - w.pos else w.pos⟩ = q := ⟨_, rfl⟩
    rw [hq] at hin hend
    rw [hq]
    have hover := hin.overall
    have hdelta := hin.within
    have hends := hin.ends
    have hlo : j * w.cycleTicks ≤ target := by linarith
    have hhi : target < (j + 1) * w.cycleTicks := by linarith
    exact {
      autoReverse := rfl
      cycleTicks := rfl
      cycleCount := rfl
      totalTicks := h.totalTicks
      rate_ne := h.rate_ne
      within := ⟨by show 0 ≤ target; omega, by show target ≤ _; omega⟩
      pos := by
        have hj0 : 0 < j + 1 := pos_of_mul_pos_left (lt_of_le_of_lt (by omega) hhi) hc.le
        have hjn : j < w.cycleCount := lt_of_mul_lt_mul_right (by omega) hc.le
        refine ⟨j, by omega, hjn, hlo, hhi.le, ?_⟩
        show (if q.overallDelta > 0 then _ else _) = posIn _ _ target j
        rw [hin.pos]
        by_cases hahead : ahead w.autoReverse w.cycleCount w.rate j = true
        · rw [if_pos hahead, if_pos (hin.directed.2 hahead), posIn, if_pos hahead]
          split
          · linarith
          · rw [show q.overallDelta = 0 by omega] at hends
            linarith
        · rw [if_neg hahead, if_neg (mt hin.directed.1 hahead), posIn, if_neg hahead]
          split
          · linarith
          · rw [show q.overallDelta = 0 by omega] at hends
            linarith
      current := fun _ => hin.current
      directed := by
        intro _ i hi hi'
        rw [cycle_unique hc hi.le hi' hlo hhi]
        exact hin.directed }

/-! ## Runs -/

/-- The calls that go right. The rate is not zero; a pulse leads on, and not to the end. The
arithmetic on doubles keeps the sign of the product of two rates, and `setRate` can tell the
current rate of a running animation from its rate. With a negative rate, `start` and
`jumpTo` go by the wrong parity. -/
def ActionOk (d : Doubles) (w : FiniteClipEnvelope) : Action → Prop
  | .start =>
    w.autoReverse = true → w.rate < 0 → w.cycleCount % 2 = 0 ∨ w.cycleTicks ∣ w.ticks
  | .setRate rate =>
    rate ≠ 0 ∧ (d.product rate w.rate < 0 ↔ rate * w.rate < 0) ∧
      (w.status = .RUNNING → w.currentRate ≠ w.rate → EPSILON ≤ |w.currentRate - w.rate|)
  | .jumpTo time =>
    w.rate < 0 → w.jumpTicks time ≠ w.ticks →
      (w.autoReverse = true → w.cycleCount % 2 = 1) ∧ (w.autoReverse = false → 0 < time)
  | .timePulse currentTick =>
    w.status = .RUNNING → w.ticks ≤ w.deltaTicks + d.pulseTicks currentTick w.rate ∧
      w.deltaTicks + d.pulseTicks currentTick w.rate < w.totalTicks

theorem step_inv (hc : 0 < c) (hn : 2 ≤ n) (hfit : n * c < 2 ^ 63) (w : FiniteClipEnvelope)
    (action : Action) (h : Inv a c n w) (hok : ActionOk d w action) :
    ∃ w', step d w action = .ok w' ∧ Inv a c n w' := by
  cases action with
  | start =>
    rw [ActionOk, h.autoReverse, h.cycleTicks, h.cycleCount] at hok
    exact ⟨_, rfl, start_inv h hc hn hfit hok⟩
  | setRate rate => exact ⟨_, rfl, setRate_inv h hok.1 hok.2.1 hok.2.2⟩
  | jumpTo time =>
    rw [ActionOk, h.autoReverse, h.cycleCount] at hok
    cases a with
    | false =>
      exact ⟨_, rfl, jumpTo_inv_repeat h hc hn time fun hneg hmoved => (hok hneg hmoved).2 rfl⟩
    | true =>
      exact ⟨_, rfl, jumpTo_inv_reverse h hc hn hfit time
        fun hneg hmoved => (hok hneg hmoved).1 rfl⟩
  | timePulse currentTick =>
    refine ⟨_, rfl, ?_⟩
    by_cases hrun : w.status = .RUNNING
    · rw [if_pos hrun]
      exact timePulse_inv h hrun hc currentTick (hok hrun).1 (hok hrun).2
    · rwa [if_neg hrun]

theorem jumpTo_fields (h : Inv a c n w) (hc : 0 < c) (hn : 2 ≤ n) (hfit : n * c < 2 ^ 63)
    (time : ℤ) :
    (w.jumpTo time).ticks = w.jumpTicks time ∧ (w.jumpTo time).rate = w.rate ∧
      (w.jumpTo time).totalTicks = w.totalTicks := by
  by_cases hmoved : w.jumpTicks time = w.ticks
  · rw [jumpTo_eq_self time hmoved]
    exact ⟨hmoved.symm, rfl, rfl⟩
  obtain ⟨h0, _⟩ := jumpTicks_bounds h time
  obtain rfl := h.cycleTicks
  cases a with
  | false =>
    rw [jumpTo_repeat hc h.autoReverse time _ rfl h0 hmoved]
    exact ⟨rfl, rfl, rfl⟩
  | true =>
    rw [jumpTo_reverse hc (two_mul_lt hc hn hfit) h.autoReverse time _ rfl h0 hmoved _ rfl]
    exact ⟨rfl, rfl, rfl⟩

/-- The overall time after a jump. -/
theorem overallTime_jumpTo (h : Inv a c n w) (hc : 0 < c) (hn : 2 ≤ n) (hfit : n * c < 2 ^ 63)
    {time : ℤ} (h0 : 0 ≤ time) (hle : time ≤ n * c) : (w.jumpTo time).overallTime = time := by
  obtain ⟨hticks, hrate, htotal⟩ := jumpTo_fields h hc hn hfit time
  rw [overallTime, hticks, hrate, htotal, jumpTicks, checkBounds, h.totalTicks]
  rcases lt_or_gt_of_ne h.rate_ne with hneg | hpos
  · rw [if_neg (not_lt_of_gt hneg), if_pos hneg]
    omega
  · rw [if_pos hpos, if_neg (not_lt_of_gt hpos)]
    omega

/-- Away from the borders of the cycles, the current rate that is calculated has the sign of
the direction that the overall time's cycle runs in. -/
def CalculatesCurrentRate (w : FiniteClipEnvelope) : Prop :=
  ¬ w.cycleTicks ∣ w.overallTime →
    (0 < w.calculateCurrentRate ↔
      0 < if forwardCycle w.autoReverse (w.overallTime / w.cycleTicks) then w.rate else -w.rate)

theorem Inv.calculatesCurrentRate_iff (h : Inv a c n w) (hc : 0 < c) (hn : 2 ≤ n)
    (hfit : n * c < 2 ^ 63) :
    w.CalculatesCurrentRate ↔ (a = true → w.rate < 0 → n % 2 = 1 → c ∣ w.overallTime) := by
  by_cases hinside : c ∣ w.overallTime
  · rw [CalculatesCurrentRate, h.cycleTicks]
    simp only [hinside, not_true_eq_false, false_imp_iff, imp_true_iff]
  have hcycle := mem_cycle w.ticks hc
  have hsign := calculateCurrentRate_pos_iff h hc hn hfit hcycle.1 hcycle.2
  simp only [not_and] at hsign
  rw [CalculatesCurrentRate, h.cycleTicks, h.autoReverse]
  simp only [hinside, not_false_eq_true, true_imp_iff, imp_false]
  rw [← hsign]
  -- the direction of the cycle of the ticks is that of the overall time's cycle
  have hahead : ahead a n w.rate (w.ticks / c) = true ↔
      0 < if forwardCycle a (w.overallTime / c) then w.rate else -w.rate := by
    rw [overallTime, h.totalTicks] at hinside ⊢
    rcases lt_or_gt_of_ne h.rate_ne with hneg | hpos
    · have hrate : ¬ w.rate > 0 := not_lt_of_gt hneg
      rw [if_neg hrate] at hinside ⊢
      have hborder : w.ticks / c * c ≠ w.ticks := by
        intro heq
        exact hinside ⟨n - w.ticks / c, by linarith⟩
      have hdiv : (n * c - w.ticks) / c = n - 1 - w.ticks / c := by
        have hlo := lt_of_le_of_ne hcycle.1 hborder
        exact ediv_eq_of_inside hc (by linarith) (by linarith)
      rw [hdiv, ahead, if_neg hrate]
      cases forwardCycle a (n - 1 - w.ticks / c) <;> simp [hneg, le_of_lt]
    · rw [if_pos hpos, ahead, if_pos hpos]
      cases forwardCycle a (w.ticks / c) <;> simp [hpos, le_of_lt]
  rw [hahead]

/-- **The place of the play head over whole runs.** -/
theorem run_positioned (d : Doubles) (a : Bool) {c n : ℤ} {rate : ℚ} (hc : 0 < c) (hn : 2 ≤ n)
    (hfit : n * c < 2 ^ 63) (hrate : 0 < rate) {actions : List Action}
    (h : Along (step d) (ActionOk d) (new a c n rate) actions) :
    ∃ w, run (step d) (new a c n rate) actions = .ok w ∧ w.Positioned ∧
      (∀ before time, actions = before ++ [.jumpTo time] → 0 ≤ time → time ≤ n * c →
        w.overallTime = time) ∧
      (w.CalculatesCurrentRate ↔
        (a = true → w.rate < 0 → n % 2 = 1 → c ∣ w.overallTime)) := by
  obtain ⟨w, hrun, hinv⟩ := run_invariant (Inv a c n) (step_inv hc hn hfit)
    (new_inv a hc hn hfit hrate) h
  refine ⟨w, hrun, hinv.positioned, ?_, hinv.calculatesCurrentRate_iff hc hn hfit⟩
  intro before time heq h0 hle
  subst heq
  obtain ⟨w', hrun', hinv'⟩ := run_invariant (Inv a c n) (step_inv hc hn hfit)
    (new_inv a hc hn hfit hrate) h.prefix
  rw [run_append_ok hrun', run_singleton, step, Except.ok.injEq] at hrun
  rw [← hrun]
  exact overallTime_jumpTo hinv' hc hn hfit h0 hle

/-- The operations on doubles, on rates that they do not round. -/
def exactDoubles : Doubles where
  product r s := r * s
  pulseTicks t r := (t * |r| + 1 / 2).floor
  rescale t r s := (t * |r / s| + 1 / 2).floor

instance (d : Doubles) (w : FiniteClipEnvelope) : (action : Action) →
    Decidable (ActionOk d w action)
  | .start => inferInstanceAs (Decidable (_ → _ → _ ∨ _))
  | .setRate _ => inferInstanceAs (Decidable (_ ∧ _ ∧ (_ → _ → _)))
  | .jumpTo _ => inferInstanceAs (Decidable (_ → _ → _ ∧ _))
  | .timePulse _ => inferInstanceAs (Decidable (_ → _ ∧ _))

/-- Three cycles, with a pulse, and with a jump while they run backward. -/
theorem run_positioned_backward :
    Along (step exactDoubles) (ActionOk exactDoubles) (new true 10 3 1)
      [.start, .timePulse 25, .setRate (-2), .timePulse 28, .jumpTo 12] ∧
    ∃ w, run (step exactDoubles) (new true 10 3 1)
      [.start, .timePulse 25, .setRate (-2), .timePulse 28, .jumpTo 12] = .ok w ∧ w.Positioned ∧
      (∀ before time, [Action.start, .timePulse 25, .setRate (-2), .timePulse 28, .jumpTo 12] =
        before ++ [.jumpTo time] → 0 ≤ time → time ≤ 3 * 10 → w.overallTime = time) ∧
      (w.CalculatesCurrentRate ↔
        (true = true → w.rate < 0 → (3 : ℤ) % 2 = 1 → (10 : ℤ) ∣ w.overallTime)) := by
  have h : Along (step exactDoubles) (ActionOk exactDoubles) (new true 10 3 1)
      [.start, .timePulse 25, .setRate (-2), .timePulse 28, .jumpTo 12] := by decide +kernel
  exact ⟨h, run_positioned exactDoubles true (by norm_num) (by norm_num) (by norm_num) (by norm_num) h⟩

/-- With two cycles, a jump to tick 3 while they run backward leads to position 7. -/
theorem jumpTo_not_positioned :
    ∃ w, run (step exactDoubles) (new true 10 2 1) [.setRate (-1), .jumpTo 3] = .ok w ∧
      w.overallTime = 3 ∧ w.pos = 7 ∧ ¬ w.Positioned := by
  refine ⟨((new true 10 2 1).setRate exactDoubles (-1)).jumpTo 3, rfl, by decide +kernel,
    by decide +kernel, ?_⟩
  obtain ⟨w, hw⟩ : ∃ w, ((new true 10 2 1).setRate exactDoubles (-1)).jumpTo 3 = w := ⟨_, rfl⟩
  have hfields : w.overallTime = 3 ∧ w.pos = 7 ∧ w.cycleTicks = 10 ∧ w.cycleCount = 2 ∧
      w.autoReverse = true := by
    rw [← hw]
    decide +kernel
  rw [hw]
  rintro ⟨k, hk0, _, hlo, hhi, hpos⟩
  obtain ⟨htime, hpos', hc, hn, ha⟩ := hfields
  rw [htime, hc] at hlo hhi
  obtain rfl : k = 0 := by omega
  rw [hpos', htime, hc, ha] at hpos
  simp [forwardCycle] at hpos

end FiniteClipEnvelope

end JavaFx.Animation
