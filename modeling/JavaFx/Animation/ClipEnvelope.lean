/-
`com.sun.scenario.animation.shared.ClipEnvelope`: the three kinds of envelopes.

An animation of one cycle has a `SingleLoopClipEnvelope`, one without end an
`InfiniteClipEnvelope`, every other one a `FiniteClipEnvelope`. What an envelope asks its
animation for is in `Settings`, with the status that a method reads as an argument, and
what it tells the animation comes back as a list of `Call`s, in their order. No call has
an effect on the envelope: no pulse is aborted.
-/
import JavaFx.Animation.FiniteClipEnvelope

set_option autoImplicit false

namespace JavaFx.Animation

open JavaFx.Lib

/-- `Animation.INDEFINITE`, as a cycle count. -/
def INDEFINITE : ℤ := -1

/-- `Long.MAX_VALUE`, which is `INDEFINITE` as a number of ticks. -/
def MAX_TICKS : ℤ := 2 ^ 63 - 1

/-- `javafx.util.Duration`, without `UNKNOWN`. -/
inductive Duration
  | millis (m : ℚ)
  | indefinite
  deriving DecidableEq, Repr

namespace Duration

def ZERO : Duration := .millis 0

def lessThan : Duration → Duration → Bool
  | .millis m, .millis n => m < n
  | .millis _, .indefinite => true
  | .indefinite, _ => false

end Duration

/-- The arithmetic on doubles of all envelopes and of durations. -/
structure Arithmetic extends Doubles where
  /-- `Math.round(currentTick * currentRate)`. -/
  signedTicks : ℤ → ℚ → ℤ
  /-- `Math.round((ticks - deltaTicks) * rate / this.rate)`. -/
  signedRescale : ℤ → ℚ → ℚ → ℤ
  /-- `TickCalculation.fromMillis`. -/
  fromMillis : ℚ → ℤ
  /-- `TickCalculation.toMillis`. -/
  toMillis : ℤ → ℚ
  /-- `Duration.multiply`, of the milliseconds. -/
  multiply : ℚ → ℤ → ℚ

/-- `TickCalculation.fromDuration`. -/
def Arithmetic.fromDuration (d : Arithmetic) : Duration → ℤ
  | .millis m => d.fromMillis m
  | .indefinite => MAX_TICKS

/-- What an envelope asks its animation for when it is created. -/
structure Settings where
  cycleCount : ℤ
  cycleDuration : Duration
  rate : ℚ
  autoReverse : Bool

/-- What an envelope tells its animation, through the `AnimationAccessor`. -/
inductive Call
  | setCurrentRate (currentRate : ℚ)
  | playTo (ticks : ℤ)
  | jumpTo (ticks : ℤ)
  | finished
  deriving DecidableEq, Repr

/-- What goes wrong in an animation. -/
inductive Thrown
  /-- `ArithmeticException`, a division by zero. -/
  | arithmetic
  /-- `IllegalArgumentException`. -/
  | illegalArgument
  deriving DecidableEq, Repr

variable (d : Arithmetic)

/-! ## One cycle -/

structure SingleLoopClipEnvelope where
  rate : ℚ
  cycleTicks : ℤ
  deltaTicks : ℤ
  ticks : ℤ
  currentRate : ℚ
  cycleCount : ℤ
  deriving DecidableEq, Repr

namespace SingleLoopClipEnvelope

variable (w : SingleLoopClipEnvelope)

def new (s : Settings) : SingleLoopClipEnvelope where
  rate := s.rate
  cycleTicks := d.fromDuration s.cycleDuration
  deltaTicks := 0
  ticks := 0
  currentRate := 1
  cycleCount := s.cycleCount

def start : SingleLoopClipEnvelope × List Call :=
  ({ w with currentRate := w.rate, deltaTicks := w.ticks }, [.setCurrentRate w.rate])

def setRate (status : Status) (rate : ℚ) : SingleLoopClipEnvelope × List Call :=
  let currentRate := if |w.currentRate - w.rate| < EPSILON then rate else -rate
  ({ w with
      currentRate := if status = .RUNNING then currentRate else w.currentRate
      deltaTicks :=
        if status ≠ .STOPPED then
          w.ticks - d.signedRescale (w.ticks - w.deltaTicks) rate w.rate
        else w.deltaTicks
      rate := rate },
    if status = .RUNNING then [.setCurrentRate currentRate] else [])

def timePulse (currentTick : ℤ) : SingleLoopClipEnvelope × List Call :=
  if w.cycleTicks = 0 then (w, [])
  else
    let ticks := checkBounds (w.deltaTicks + d.signedTicks currentTick w.currentRate) w.cycleTicks
    let reachedEnd := if w.currentRate > 0 then ticks = w.cycleTicks else ticks = 0
    ({ w with ticks := ticks }, .playTo ticks :: if reachedEnd then [.finished] else [])

def jumpTo (ticks : ℤ) : SingleLoopClipEnvelope × List Call :=
  if w.cycleTicks = 0 then (w, [])
  else
    let newTicks := checkBounds ticks w.cycleTicks
    ({ w with deltaTicks := w.deltaTicks + (newTicks - w.ticks), ticks := newTicks },
      [.jumpTo newTicks])

end SingleLoopClipEnvelope

/-! ## The loop of `timePulse` with its calls -/

/-- What a turn of the loop tells the animation. -/
def FiniteClipEnvelope.Progress.turnCalls (cycleTicks : ℤ) (autoReverse reachedEnd : Bool)
    (p : FiniteClipEnvelope.Progress) : List Call :=
  let overallDelta := if p.cycleDelta > 0 then p.overallDelta - p.cycleDelta else p.overallDelta
  (if p.cycleDelta > 0 then [.playTo (if p.currentRate > 0 then cycleTicks else 0)] else [])
    ++ if !reachedEnd || overallDelta > 0 then
        if autoReverse then [.setCurrentRate (-p.currentRate)]
        else [.jumpTo (if p.currentRate > 0 then 0 else cycleTicks)]
      else []

/-- What the loop tells the animation. -/
def FiniteClipEnvelope.Progress.loopCalls (cycleTicks : ℤ) (autoReverse reachedEnd : Bool) :
    ℕ → FiniteClipEnvelope.Progress → List Call
  | 0, _ => []
  | fuel + 1, p =>
    if p.overallDelta ≥ p.cycleDelta then
      p.turnCalls cycleTicks autoReverse reachedEnd
        ++ loopCalls cycleTicks autoReverse reachedEnd fuel
          (p.turn cycleTicks autoReverse reachedEnd)
    else []

/-! ## Cycles without end -/

structure InfiniteClipEnvelope where
  rate : ℚ
  cycleTicks : ℤ
  deltaTicks : ℤ
  ticks : ℤ
  currentRate : ℚ
  autoReverse : Bool
  pos : ℤ
  deriving DecidableEq, Repr

namespace InfiniteClipEnvelope

open FiniteClipEnvelope (Progress)

variable (w : InfiniteClipEnvelope)

def new (s : Settings) : InfiniteClipEnvelope where
  rate := s.rate
  cycleTicks := d.fromDuration s.cycleDuration
  deltaTicks := 0
  ticks := 0
  currentRate := 1
  autoReverse := s.autoReverse
  pos := 0

def calculateCurrentRate : ℚ :=
  if !w.autoReverse then w.rate
  else if w.ticks.tmod (toLong (2 * w.cycleTicks)) < w.cycleTicks then w.rate else -w.rate

/-- `start`; its remainder is that of a division by zero where there are no ticks. -/
def start : Except Thrown (InfiniteClipEnvelope × List Call) :=
  if w.autoReverse && w.cycleTicks == 0 then .error .arithmetic
  else .ok ({ w with currentRate := w.calculateCurrentRate, deltaTicks := w.ticks },
    [.setCurrentRate w.calculateCurrentRate])

def setRate (status : Status) (rate : ℚ) : InfiniteClipEnvelope × List Call :=
  let currentRate := if |w.currentRate - w.rate| < EPSILON then rate else -rate
  let delta :=
    if status ≠ .STOPPED ∧ d.product rate w.rate < 0 then toLong (2 * w.cycleTicks) - w.pos else 0
  ({ w with
      currentRate := if status = .RUNNING then currentRate else w.currentRate
      deltaTicks :=
        if status ≠ .STOPPED then
          w.ticks - d.rescale (w.ticks - w.deltaTicks) rate w.rate + delta
        else w.deltaTicks
      ticks := w.ticks + delta
      rate := rate },
    if status = .RUNNING then [.setCurrentRate currentRate] else [])

/-- `timePulse`; its loop is that of a finite envelope that does not reach the end. -/
def timePulse (currentTick : ℤ) : InfiniteClipEnvelope × List Call :=
  if w.cycleTicks = 0 then (w, [])
  else
    let ticks := max 0 (w.deltaTicks + d.pulseTicks currentTick w.rate)
    let overallDelta := ticks - w.ticks
    if overallDelta = 0 then ({ w with ticks := ticks }, [])
    else
      let cycleDelta := if w.currentRate > 0 then w.cycleTicks - w.pos else w.pos
      let p : Progress := ⟨w.pos, w.currentRate, overallDelta, cycleDelta⟩
      let q := p.loop w.cycleTicks w.autoReverse false (overallDelta.toNat + 2)
      let pos :=
        if q.overallDelta > 0 then
          if q.currentRate > 0 then q.pos + q.overallDelta else q.pos - q.overallDelta
        else q.pos
      ({ w with ticks := ticks, currentRate := q.currentRate, pos := pos },
        p.loopCalls w.cycleTicks w.autoReverse false (overallDelta.toNat + 2)
          ++ if q.overallDelta > 0 then [.playTo pos] else [])

def jumpTo (status : Status) (newTicks : ℤ) : InfiniteClipEnvelope × List Call :=
  if w.cycleTicks = 0 then (w, [])
  else
    let ticks := (max 0 newTicks).tmod (toLong (2 * w.cycleTicks))
    let delta := ticks - w.ticks
    if delta = 0 then ({ w with ticks := ticks }, [])
    else if w.autoReverse then
      let pos := if ticks > w.cycleTicks then toLong (2 * w.cycleTicks) - ticks else ticks
      let currentRate := if ticks > w.cycleTicks then -w.rate else w.rate
      ({ w with
          ticks := ticks
          deltaTicks := w.deltaTicks + delta
          pos := pos
          currentRate := if status = .RUNNING then currentRate else w.currentRate },
        (if status = .RUNNING then [.setCurrentRate currentRate] else []) ++ [.jumpTo pos])
    else
      let pos := ticks.tmod w.cycleTicks
      let pos := if pos = 0 then ticks else pos
      ({ w with ticks := ticks, deltaTicks := w.deltaTicks + delta, pos := pos }, [.jumpTo pos])

end InfiniteClipEnvelope

/-! ## A number of cycles -/

namespace FiniteClipEnvelope

variable (w : FiniteClipEnvelope)

/-- What `setRate` tells the animation. -/
def setRateCalls (rate : ℚ) : List Call :=
  if w.status = .RUNNING then [.setCurrentRate (w.setRate d.toDoubles rate).currentRate] else []

/-- What `timePulse` tells the animation. -/
def timePulseCalls (currentTick : ℤ) : List Call :=
  if w.cycleTicks = 0 then []
  else
    let ticks := checkBounds (w.deltaTicks + d.pulseTicks currentTick w.rate) w.totalTicks
    let reachedEnd := decide (ticks ≥ w.totalTicks)
    let overallDelta := ticks - w.ticks
    if overallDelta = 0 then []
    else
      let cycleDelta := if w.currentRate > 0 then w.cycleTicks - w.pos else w.pos
      let p : Progress := ⟨w.pos, w.currentRate, overallDelta, cycleDelta⟩
      let q := p.loop w.cycleTicks w.autoReverse reachedEnd (overallDelta.toNat + 2)
      p.loopCalls w.cycleTicks w.autoReverse reachedEnd (overallDelta.toNat + 2)
        ++ (if q.overallDelta > 0 && !reachedEnd then
            [.playTo (if q.currentRate > 0 then q.pos + q.overallDelta else q.pos - q.overallDelta)]
          else [])
        ++ if reachedEnd then [.finished] else []

/-- What `jumpTo` tells the animation. -/
def jumpToCalls (newTicks : ℤ) : List Call :=
  let w' := w.jumpTo newTicks
  if w.cycleTicks = 0 ∨ w'.ticks - w.ticks = 0 then []
  else (if w.autoReverse ∧ w.status = .RUNNING then [.setCurrentRate w'.currentRate] else [])
    ++ [.jumpTo w'.pos]

end FiniteClipEnvelope

/-! ## The three kinds -/

inductive ClipEnvelope
  | singleLoop (w : SingleLoopClipEnvelope)
  | infinite (w : InfiniteClipEnvelope)
  | finite (w : FiniteClipEnvelope)
  deriving DecidableEq, Repr

namespace ClipEnvelope

/-- `create`. -/
def create (s : Settings) : ClipEnvelope :=
  if s.cycleCount = 1 ∨ s.cycleDuration = .indefinite then
    .singleLoop (SingleLoopClipEnvelope.new d s)
  else if s.cycleCount = INDEFINITE then .infinite (InfiniteClipEnvelope.new d s)
  else .finite (FiniteClipEnvelope.new s.autoReverse (d.fromDuration s.cycleDuration)
    s.cycleCount s.rate)

def rate : ClipEnvelope → ℚ
  | .singleLoop w => w.rate
  | .infinite w => w.rate
  | .finite w => w.rate

def currentRate : ClipEnvelope → ℚ
  | .singleLoop w => w.currentRate
  | .infinite w => w.currentRate
  | .finite w => w.currentRate

def cycleTicks : ClipEnvelope → ℤ
  | .singleLoop w => w.cycleTicks
  | .infinite w => w.cycleTicks
  | .finite w => w.cycleTicks

def ticks : ClipEnvelope → ℤ
  | .singleLoop w => w.ticks
  | .infinite w => w.ticks
  | .finite w => w.ticks

def deltaTicks : ClipEnvelope → ℤ
  | .singleLoop w => w.deltaTicks
  | .infinite w => w.deltaTicks
  | .finite w => w.deltaTicks

/-- `setCycleCount`, with the envelope that it returns. -/
def setCycleCount (s : Settings) (cycleCount : ℤ) : ClipEnvelope → ClipEnvelope
  | .singleLoop w =>
    if cycleCount ≠ 1 ∧ w.cycleTicks ≠ MAX_TICKS then create d s
    else .singleLoop { w with cycleCount := cycleCount }
  | .infinite w => if cycleCount ≠ INDEFINITE then create d s else .infinite w
  | .finite w =>
    if cycleCount = 1 ∨ cycleCount = INDEFINITE then create d s
    else .finite { w with
      cycleCount := cycleCount, totalTicks := toLong (cycleCount * w.cycleTicks) }

/-- `setCycleDuration`: the envelope afterwards, and the one that it returns. -/
def setCycleDuration (s : Settings) (cycleDuration : Duration) :
    ClipEnvelope → ClipEnvelope × ClipEnvelope
  | .singleLoop w =>
    if w.cycleCount ≠ 1 ∧ cycleDuration ≠ .indefinite then (.singleLoop w, create d s)
    else
      let this := .singleLoop { w with cycleTicks := d.fromDuration cycleDuration }
      (this, this)
  | .infinite w =>
    if cycleDuration = .indefinite then (.infinite w, create d s)
    else
      let this := .infinite { w with cycleTicks := d.fromDuration cycleDuration }
      (this, this)
  | .finite w =>
    if cycleDuration = .indefinite then (.finite w, create d s)
    else
      let this := .finite { w with
        cycleTicks := d.fromDuration cycleDuration
        totalTicks := toLong (w.cycleCount * d.fromDuration cycleDuration) }
      (this, this)

def setAutoReverse (autoReverse : Bool) : ClipEnvelope → ClipEnvelope
  | .singleLoop w => .singleLoop w
  | .infinite w => .infinite { w with autoReverse := autoReverse }
  | .finite w => .finite { w with autoReverse := autoReverse }

/-- `start`, of an animation that is running. -/
def start : ClipEnvelope → Except Thrown (ClipEnvelope × List Call)
  | .singleLoop w => .ok (.singleLoop w.start.1, w.start.2)
  | .infinite w => w.start.map (fun r => (.infinite r.1, r.2))
  | .finite w =>
    if w.autoReverse && w.cycleTicks == 0 then .error .arithmetic
    else .ok (.finite w.start, [.setCurrentRate w.start.currentRate])

def setRate (status : Status) (rate : ℚ) : ClipEnvelope → ClipEnvelope × List Call
  | .singleLoop w => (.singleLoop (w.setRate d status rate).1, (w.setRate d status rate).2)
  | .infinite w => (.infinite (w.setRate d status rate).1, (w.setRate d status rate).2)
  | .finite w =>
    let w := { w with status := status }
    (.finite (w.setRate d.toDoubles rate), w.setRateCalls d rate)

/-- `timePulse`, of an animation that is running. -/
def timePulse (currentTick : ℤ) : ClipEnvelope → ClipEnvelope × List Call
  | .singleLoop w => (.singleLoop (w.timePulse d currentTick).1, (w.timePulse d currentTick).2)
  | .infinite w => (.infinite (w.timePulse d currentTick).1, (w.timePulse d currentTick).2)
  | .finite w => (.finite (w.timePulse d.toDoubles currentTick), w.timePulseCalls d currentTick)

def jumpTo (status : Status) (ticks : ℤ) : ClipEnvelope → ClipEnvelope × List Call
  | .singleLoop w => (.singleLoop (w.jumpTo ticks).1, (w.jumpTo ticks).2)
  | .infinite w => (.infinite (w.jumpTo status ticks).1, (w.jumpTo status ticks).2)
  | .finite w =>
    let w := { w with status := status }
    (.finite (w.jumpTo ticks), w.jumpToCalls ticks)

end ClipEnvelope

end JavaFx.Animation
