/-
The length of a `SequentialTransition`: `computeCycleDuration` and `impl_sync`.

The duration of a cycle is the sum of the delays and the durations of the children, and its
ticks are rounded once. `startTimes` adds up the ticks of each delay and each duration, which
are rounded one by one. The two agree exactly if what the rounding leaves over adds up to less
than half a tick (`cycleTicks_eq_iff`).

The arithmetic on doubles is exact. A number of ticks is a `long`; its greatest value stands
for no end, and sums stay at it.
-/
import JavaFx.Lib.Java
import Mathlib.Algebra.Order.BigOperators.Group.List
import Mathlib.Data.List.GetD
import Mathlib.Data.Rat.Floor
import Mathlib.Tactic.Linarith

set_option autoImplicit false

namespace JavaFx.Animation.SequentialTransition

open JavaFx.Lib

/-- `Long.MAX_VALUE`. -/
def LONG_MAX : ℤ := 2 ^ 63 - 1

/-! ## `TickCalculation` -/

def TICKS_PER_MILI : ℚ := 6000 / 1000

/-- `Math.round`. -/
def round (x : ℚ) : ℤ := max (-2 ^ 63) (min LONG_MAX ⌊x + 1 / 2⌋)

def add (op1 op2 : ℤ) : ℤ :=
  if op1 = LONG_MAX ∨ op2 = LONG_MAX then LONG_MAX
  else if op2 = -2 ^ 63 then 0
  else if 0 ≤ op2 then
    let result := toLong (op1 + op2)
    if result < 0 then LONG_MAX else result
  else max 0 (toLong (op1 + op2))

/-- `fromDuration(duration)`, of its milliseconds. -/
def fromDuration (millis : ℚ) : ℤ := round (TICKS_PER_MILI * millis)

/-- `fromDuration(duration, rate)`. -/
def fromDurationAt (millis rate : ℚ) : ℤ := round (TICKS_PER_MILI * millis / |rate|)

/-! ## The transition -/

def EPSILON : ℚ := 1 / 10 ^ 12

/-- A child: its delay, its total duration, both in milliseconds and finite, and its rate. -/
structure Child where
  delay : ℚ
  totalDuration : ℚ
  rate : ℚ
  delay_nonneg : 0 ≤ delay
  totalDuration_nonneg : 0 ≤ totalDuration
  rate_ne : rate ≠ 0

/-- The milliseconds of `computeCycleDuration`. -/
def computeCycleDuration (children : List Child) : ℚ :=
  children.foldl (fun currentDur animation =>
    let currentDur := currentDur + animation.delay
    let absRate := |animation.rate|
    currentDur + (if absRate < EPSILON then animation.totalDuration
      else animation.totalDuration / absRate)) 0

/-- The arrays that `impl_sync` fills. -/
structure Schedule where
  startTimes : List ℤ
  durations : List ℤ
  delays : List ℤ
  rates : List ℚ
  cycleTicks : ℤ

/-- `rates[i]`; a rate that is too low counts as 1. -/
def playRate (animation : Child) : ℚ := if |animation.rate| < EPSILON then 1 else |animation.rate|

/-- A round of the loop. -/
def syncChild (s : Schedule) (animation : Child) : Schedule :=
  let rate := playRate animation
  let duration := fromDurationAt animation.totalDuration rate
  let delay := fromDuration animation.delay
  { startTimes := s.startTimes ++ [s.cycleTicks]
    durations := s.durations ++ [duration]
    delays := s.delays ++ [delay]
    rates := s.rates ++ [rate]
    cycleTicks :=
      if duration = LONG_MAX ∨ delay = LONG_MAX ∨ s.cycleTicks = LONG_MAX then LONG_MAX
      else add s.cycleTicks (add duration delay) }

/-- `impl_sync`. -/
def impl_sync (children : List Child) : Schedule :=
  let s := children.foldl syncChild ⟨[], [], [], [], 0⟩
  { s with startTimes := s.startTimes ++ [s.cycleTicks] }

/-- The ticks that `impl_playTo` plays to. -/
def cycleTicks (children : List Child) : ℤ := fromDuration (computeCycleDuration children)

/-- `startTimes[end]`. -/
def endTime (children : List Child) : ℤ := (impl_sync children).startTimes.getD children.length 0

/-! ## The parts of a transition -/

/-- The ticks of the duration of a child, not rounded. -/
def durationTicks (animation : Child) : ℚ :=
  TICKS_PER_MILI * animation.totalDuration / playRate animation

/-- The ticks of its delay. -/
def delayTicks (animation : Child) : ℚ := TICKS_PER_MILI * animation.delay

/-- The parts of all children. -/
def parts (children : List Child) : List ℚ :=
  children.flatMap fun animation => [durationTicks animation, delayTicks animation]

/-- The whole number of ticks that is nearest. -/
def nearest (x : ℚ) : ℤ := ⌊x + 1 / 2⌋

/-- What rounding leaves over of a number of ticks. -/
def rest (x : ℚ) : ℚ := x - nearest x

variable {children : List Child} {animation : Child} {ps : List ℚ} {x : ℚ} {a b : ℤ}

theorem round_eq (hx : 0 ≤ x) : round x = min LONG_MAX (nearest x) := by
  have hfloor : 0 ≤ ⌊x + 1 / 2⌋ := Int.floor_nonneg.mpr (by linarith)
  unfold round nearest LONG_MAX
  omega

theorem nearest_nonneg (hx : 0 ≤ x) : 0 ≤ nearest x := Int.floor_nonneg.mpr (by linarith)

/-- A sum of numbers of ticks stays at the greatest one. -/
theorem add_eq (ha : 0 ≤ a) (hb : 0 ≤ b) :
    add (min LONG_MAX a) (min LONG_MAX b) = min LONG_MAX (a + b) := by
  unfold add
  by_cases hmax : LONG_MAX ≤ a ∨ LONG_MAX ≤ b
  · rw [if_pos (by omega)]
    unfold LONG_MAX at *
    omega
  · rw [if_neg (by omega), if_neg (by unfold LONG_MAX at *; omega),
      if_pos (by unfold LONG_MAX at *; omega)]
    rw [not_or, not_le, not_le] at hmax
    rw [min_eq_right (Int.le_of_lt hmax.1), min_eq_right (Int.le_of_lt hmax.2)]
    dsimp only
    by_cases hfit : a + b ≤ LONG_MAX
    · have hlong : toLong (a + b) = a + b := toLong_of_nonneg (by omega) (by unfold LONG_MAX at *; omega)
      rw [hlong, if_neg (by omega), min_eq_right hfit]
    · have hlong : toLong (a + b) = a + b - 2 ^ 64 := by
        unfold toLong LONG_MAX at *
        rw [Int.bmod_eq_iff] <;> omega
      rw [hlong, if_pos (by unfold LONG_MAX at *; omega), min_eq_left (by omega)]

theorem playRate_pos (animation : Child) : 0 < playRate animation := by
  unfold playRate
  split
  · exact one_pos
  · exact abs_pos.mpr animation.rate_ne

theorem ticksPerMili_nonneg : 0 ≤ TICKS_PER_MILI := by norm_num [TICKS_PER_MILI]

theorem durationTicks_nonneg (animation : Child) : 0 ≤ durationTicks animation :=
  div_nonneg (mul_nonneg ticksPerMili_nonneg animation.totalDuration_nonneg)
    (playRate_pos animation).le

theorem delayTicks_nonneg (animation : Child) : 0 ≤ delayTicks animation :=
  mul_nonneg ticksPerMili_nonneg animation.delay_nonneg

theorem parts_nonneg (children : List Child) : ∀ x ∈ parts children, 0 ≤ x := by
  intro x hx
  obtain ⟨animation, -, hx⟩ := List.mem_flatMap.mp hx
  rcases List.mem_pair.mp hx with rfl | rfl
  · exact durationTicks_nonneg animation
  · exact delayTicks_nonneg animation

/-! ## `startTimes[end]` -/

/-- One child adds the ticks of its parts. -/
theorem syncChild_cycleTicks (animation : Child) {s : Schedule} (ha : 0 ≤ a) (hs : s.cycleTicks = min LONG_MAX a) :
    (syncChild s animation).cycleTicks
      = min LONG_MAX (a + (nearest (durationTicks animation) + nearest (delayTicks animation))) := by
  have hd := nearest_nonneg (durationTicks_nonneg animation)
  have hl := nearest_nonneg (delayTicks_nonneg animation)
  have hduration : fromDurationAt animation.totalDuration (playRate animation)
      = min LONG_MAX (nearest (durationTicks animation)) := by
    unfold fromDurationAt
    rw [abs_of_pos (playRate_pos animation)]
    exact round_eq (durationTicks_nonneg animation)
  have hdelay : fromDuration animation.delay = min LONG_MAX (nearest (delayTicks animation)) :=
    round_eq (delayTicks_nonneg animation)
  change (if fromDurationAt animation.totalDuration (playRate animation) = LONG_MAX
    ∨ fromDuration animation.delay = LONG_MAX ∨ s.cycleTicks = LONG_MAX then LONG_MAX
    else _) = _
  split
  · omega
  · rw [hduration, hdelay, hs, add_eq hd hl, add_eq ha (by omega)]

theorem foldl_syncChild (children : List Child) {s : Schedule} (ha : 0 ≤ a)
    (hs : s.cycleTicks = min LONG_MAX a) :
    (children.foldl syncChild s).cycleTicks
        = min LONG_MAX (a + ((parts children).map nearest).sum)
      ∧ (children.foldl syncChild s).startTimes.length
        = s.startTimes.length + children.length := by
  induction children generalizing s a with
  | nil => simp [parts, hs]
  | cons animation children ih =>
    have hd := nearest_nonneg (durationTicks_nonneg animation)
    have hl := nearest_nonneg (delayTicks_nonneg animation)
    obtain ⟨hticks, hlength⟩ := ih (by omega) (syncChild_cycleTicks animation ha hs)
    rw [List.foldl_cons, hticks, hlength]
    constructor
    · simp [parts, add_assoc]
    · simp [syncChild]
      omega

theorem endTime_eq (children : List Child) :
    endTime children = min LONG_MAX ((parts children).map nearest).sum := by
  obtain ⟨hticks, hlength⟩ := foldl_syncChild children (s := ⟨[], [], [], [], 0⟩) (le_refl 0)
    (by decide)
  rw [zero_add] at hticks
  rw [List.length_nil, Nat.zero_add] at hlength
  unfold endTime impl_sync
  dsimp only
  rw [← hlength, List.getD_append_right _ _ _ _ (le_refl _), Nat.sub_self, hticks]
  rfl

/-! ## The cycle duration -/

theorem ticks_computeCycleDuration (children : List Child) :
    TICKS_PER_MILI * computeCycleDuration children = (parts children).sum := by
  have hfold : ∀ (children : List Child) (d : ℚ),
      TICKS_PER_MILI * children.foldl (fun currentDur animation =>
        let currentDur := currentDur + animation.delay
        let absRate := |animation.rate|
        currentDur + (if absRate < EPSILON then animation.totalDuration
          else animation.totalDuration / absRate)) d
        = TICKS_PER_MILI * d + (parts children).sum := by
    intro children
    induction children with
    | nil => simp [parts]
    | cons animation children ih =>
      intro d
      have hpart : (if |animation.rate| < EPSILON then animation.totalDuration
          else animation.totalDuration / |animation.rate|)
          = animation.totalDuration / playRate animation := by
        unfold playRate
        split
        · rw [div_one]
        · rfl
      rw [List.foldl_cons, ih]
      dsimp only
      rw [hpart]
      simp only [parts, List.flatMap_cons, List.sum_append, List.sum_cons, List.sum_nil,
        durationTicks, delayTicks]
      ring
  unfold computeCycleDuration
  rw [hfold children 0, mul_zero, zero_add]

theorem cycleTicks_eq (children : List Child) :
    cycleTicks children = min LONG_MAX (nearest (parts children).sum) := by
  unfold cycleTicks fromDuration
  rw [ticks_computeCycleDuration]
  exact round_eq (List.sum_nonneg (parts_nonneg children))

/-! ## The result -/

theorem sum_rest (ps : List ℚ) : (ps.map rest).sum = ps.sum - ((ps.map nearest).sum : ℤ) := by
  induction ps with
  | nil => simp
  | cons x ps ih =>
    simp only [List.map_cons, List.sum_cons, ih, rest]
    push_cast
    ring

/-- A sum is rounded to the sum of what its parts are rounded to, if less than half is left
over. -/
theorem nearest_sum_iff (ps : List ℚ) : nearest ps.sum = (ps.map nearest).sum
    ↔ -(1 / 2) ≤ (ps.map rest).sum ∧ (ps.map rest).sum < 1 / 2 := by
  unfold nearest at *
  rw [Int.floor_eq_iff, sum_rest]
  constructor
  · rintro ⟨hlo, hhi⟩
    exact ⟨by unfold nearest; linarith, by unfold nearest; linarith⟩
  · rintro ⟨hlo, hhi⟩
    exact ⟨by unfold nearest at hlo; linarith, by unfold nearest at hhi; linarith⟩

/-- **When a sequence is as long as its parts.** The rests of the parts, in ticks, add up to
less than half a tick, or both lengths are too great for a `long`. -/
theorem cycleTicks_eq_iff (children : List Child) :
    cycleTicks children = endTime children
      ↔ (-(1 / 2) ≤ ((parts children).map rest).sum ∧ ((parts children).map rest).sum < 1 / 2)
        ∨ LONG_MAX ≤ nearest (parts children).sum
          ∧ LONG_MAX ≤ ((parts children).map nearest).sum := by
  rw [cycleTicks_eq, endTime_eq, ← nearest_sum_iff]
  omega

/-- A duration of 0.6 ticks, without a delay. -/
def shortChild : Child where
  delay := 0
  totalDuration := 1 / 10
  rate := 1
  delay_nonneg := by norm_num
  totalDuration_nonneg := by norm_num
  rate_ne := by norm_num

/-- Two of them are 2 ticks long, and their sum is 1. -/
theorem cycleTicks_ne : ¬ ∀ children : List Child, cycleTicks children = endTime children := by
  intro h
  have hlong := h [shortChild, shortChild]
  revert hlong
  decide +kernel

end JavaFx.Animation.SequentialTransition
