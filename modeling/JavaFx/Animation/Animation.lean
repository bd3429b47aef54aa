/-
`javafx.animation.Animation`, outside of any other animation.

The status, the two rates and the clip envelope, with the receiver of the pulses of the
timer. A method that looks at the clock has the time as an argument, in ticks. What an
animation does at a place in its cycle is left to its subclasses; of `impl_playTo` and
`impl_jumpTo` only what all of them do is here, the current ticks. Handlers are not called.
-/
import JavaFx.Animation.ClipEnvelope
import JavaFx.Lib.ExactDouble

set_option autoImplicit false
set_option linter.dupNamespace false

namespace JavaFx.Animation

open JavaFx.Lib

structure Animation where
  /-- The property, `none` as long as nobody has needed it; so below. -/
  rate : Option ℚ
  oldRate : ℚ
  currentRate : Option ℚ
  cycleCount : ℤ
  cycleDuration : Option Duration
  totalDuration : Duration
  autoReverse : Bool
  delay : Duration
  status : Status
  currentTicks : ℤ
  lastPlayedFinished : Bool
  lastPlayedForward : Bool
  clipEnvelope : ClipEnvelope
  resolution : ℤ
  lastPulse : ℤ
  startTime : ℤ
  pauseTime : ℤ
  paused : Bool
  /-- The timer has the receiver of the pulses. -/
  registered : Bool

namespace Animation

variable (d : Arithmetic) (a : Animation)

def getRate : ℚ := a.rate.getD 1

def getCurrentRate : ℚ := a.currentRate.getD 0

def getCycleDuration : Duration := a.cycleDuration.getD .ZERO

def settings : Settings where
  cycleCount := a.cycleCount
  cycleDuration := a.getCycleDuration
  rate := a.getRate
  autoReverse := a.autoReverse

/-- The constructor, with the delay that is set afterwards. -/
def new (resolution : ℤ) (delay : Duration) : Animation where
  rate := none
  oldRate := 1
  currentRate := none
  cycleCount := 1
  cycleDuration := none
  totalDuration := .ZERO
  autoReverse := false
  delay := delay
  status := .STOPPED
  currentTicks := 0
  lastPlayedFinished := false
  lastPlayedForward := true
  clipEnvelope := ClipEnvelope.create d ⟨1, .ZERO, 1, false⟩
  resolution := resolution
  lastPulse := 0
  startTime := 0
  pauseTime := 0
  paused := false
  registered := false

/-! ## The receiver of the pulses -/

def startReceiver (now delay : ℤ) : Animation :=
  { a with paused := false, startTime := now + delay, registered := true }

def pauseReceiver (now : ℤ) : Animation :=
  if !a.paused then { a with pauseTime := now, paused := true, registered := false } else a

def resumeReceiver (now : ℤ) : Animation :=
  if a.paused then
    { a with startTime := a.startTime + (now - a.pauseTime), paused := false, registered := true }
  else a

/-! ## What the envelope tells the animation -/

def setCurrentRate (value : ℚ) : Animation :=
  if a.currentRate.isSome ∨ |value - 0| > EPSILON then { a with currentRate := some value } else a

def implStop : Animation :=
  { a with
    registered := a.registered && a.paused
    status := .STOPPED }.setCurrentRate 0

def implFinished : Animation := { a with lastPlayedFinished := true }.implStop

def accept : Call → Animation
  | .setCurrentRate currentRate => a.setCurrentRate currentRate
  | .playTo ticks => { a with currentTicks := ticks }
  | .jumpTo ticks => { a with currentTicks := ticks }
  | .finished => a.implFinished

/-- The animation after a method of its envelope. -/
def tell (r : ClipEnvelope × List Call) : Animation :=
  r.2.foldl accept { a with clipEnvelope := r.1 }

/-! ## The settings -/

def syncClipEnvelope : Animation :=
  let internalCycleCount :=
    if a.cycleCount ≤ 0 ∧ a.cycleCount ≠ INDEFINITE then 1 else a.cycleCount
  let clipEnvelope := a.clipEnvelope.setCycleCount d a.settings internalCycleCount
  -- the envelope that `setCycleDuration` returns is dropped
  let clipEnvelope := (clipEnvelope.setCycleDuration d a.settings a.getCycleDuration).1
  { a with clipEnvelope := clipEnvelope.setAutoReverse a.autoReverse }

def newTotalDuration : Duration :=
  if a.getCycleDuration = .ZERO then .ZERO
  else if a.cycleCount = INDEFINITE then .indefinite
  else if a.cycleCount ≤ 1 then a.getCycleDuration
  else
    match a.getCycleDuration with
    | .millis m => .millis (d.multiply m a.cycleCount)
    | .indefinite => .indefinite

def updateTotalDuration : Animation :=
  let newTotalDuration := a.newTotalDuration d
  let a := { a with totalDuration := newTotalDuration }
  if a.status = .STOPPED then
    let a := a.syncClipEnvelope d
    if newTotalDuration.lessThan (.millis (d.toMillis a.currentTicks)) then
      a.tell (a.clipEnvelope.jumpTo a.status (d.fromDuration newTotalDuration))
    else a
  else a

def setCycleDuration (value : Duration) : Except Thrown Animation :=
  if a.cycleDuration.isSome ∨ value ≠ .ZERO then
    if value.lessThan .ZERO then .error .illegalArgument
    else .ok ({ a with cycleDuration := some value }.updateTotalDuration d)
  else .ok a

/-- `setCycleCount`; the property is invalidated by another value only. -/
def setCycleCount (value : ℤ) : Animation :=
  if value = a.cycleCount then a else { a with cycleCount := value }.updateTotalDuration d

def setAutoReverse (value : Bool) : Animation := { a with autoReverse := value }

/-- `rateProperty().invalidated()`. -/
def rateInvalidated (now : ℤ) (newRate : ℚ) : Animation :=
  let a :=
    if |newRate| < EPSILON then
      let a :=
        if a.status = .RUNNING then
          { a with lastPlayedForward := |a.getCurrentRate - a.oldRate| < EPSILON }
        else a
      (a.setCurrentRate 0).pauseReceiver now
    else
      let a :=
        if a.status = .RUNNING then
          if |a.getCurrentRate| < EPSILON then
            (a.setCurrentRate (if a.lastPlayedForward then newRate else -newRate)).resumeReceiver
              now
          else
            a.setCurrentRate
              (if |a.getCurrentRate - a.oldRate| < EPSILON then newRate else -newRate)
        else a
      { a with oldRate := newRate }
  a.tell (a.clipEnvelope.setRate d a.status newRate)

def setRate (now : ℤ) (value : ℚ) : Animation :=
  if a.rate.isSome ∨ |value - 1| > EPSILON then
    if value = a.getRate then { a with rate := some value }
    else { a with rate := some value }.rateInvalidated d now value
  else a

/-! ## Playing -/

def jumpTo (time : Duration) : Animation :=
  let time :=
    if time.lessThan .ZERO then .ZERO
    else if a.totalDuration.lessThan time then a.totalDuration
    else time
  let a := { a with lastPlayedFinished := false }
  let a := if a.status = .STOPPED then a.syncClipEnvelope d else a
  a.tell (a.clipEnvelope.jumpTo a.status (d.fromDuration time))

def implStart : Except Thrown Animation := do
  let a := { a.syncClipEnvelope d with status := .RUNNING }
  let r ← a.clipEnvelope.start
  let a := a.tell r
  return { a.setCurrentRate a.clipEnvelope.currentRate with lastPulse := 0 }

def implPause : Animation :=
  let a :=
    if |a.getCurrentRate| ≥ EPSILON then
      { a with lastPlayedForward := |a.getCurrentRate - a.getRate| < EPSILON }
    else a
  { a.setCurrentRate 0 with status := .PAUSED }

def implResume : Animation :=
  { a with status := .RUNNING }.setCurrentRate
    (if a.lastPlayedForward then a.getRate else -a.getRate)

def play (now : ℤ) : Except Thrown Animation :=
  match a.status with
  | .STOPPED =>
    if d.fromDuration a.getCycleDuration > 0 then do
      let rate := a.getRate
      let a :=
        if a.lastPlayedFinished then a.jumpTo d (if rate < 0 then a.totalDuration else .ZERO)
        else a
      let a ← a.implStart d
      let a := a.startReceiver now (d.fromDuration a.delay)
      return if |rate| < EPSILON then a.pauseReceiver now else a
    else .ok a
  | .PAUSED =>
    let a := a.implResume
    .ok (if |a.getRate| ≥ EPSILON then a.resumeReceiver now else a)
  | .RUNNING => .ok a

def stop : Animation := if a.status ≠ .STOPPED then a.implStop.jumpTo d .ZERO else a

def pause (now : ℤ) : Animation :=
  if a.status = .RUNNING then (a.pauseReceiver now).implPause else a

def implTimePulse (elapsedTime : ℤ) : Animation :=
  if a.resolution = 1 then a.tell (a.clipEnvelope.timePulse d elapsedTime)
  else if elapsedTime - a.lastPulse ≥ a.resolution then
    { a with lastPulse := elapsedTime.tdiv a.resolution * a.resolution }.tell
      (a.clipEnvelope.timePulse d elapsedTime)
  else a

/-- A pulse of the timer. -/
def timePulse (now : ℤ) : Animation :=
  if a.registered then
    if now - a.startTime < 0 then a else a.implTimePulse d (now - a.startTime)
  else a

end Animation

end JavaFx.Animation

/-!
The arithmetic of animations with exact numbers.
-/

namespace JavaFx.Animation

open JavaFx.Lib JavaFx.Lib.ExactDouble

/-- The arithmetic as the source writes it, on exact numbers. -/
def exact : Arithmetic where
  product rate rate' := rate * rate'
  pulseTicks currentTick rate := (mul (number currentTick) (abs (number rate))).round
  rescale ticks rate rate' := (mul (number ticks) (abs (div (number rate) (number rate')))).round
  signedTicks currentTick currentRate := (mul (number currentTick) (number currentRate)).round
  signedRescale ticks rate rate' :=
    (div (mul (number ticks) (number rate)) (number rate')).round
  fromMillis millis := (mul (number 6) (number millis)).round
  toMillis ticks := ticks / 6
  multiply millis n := millis * n

end JavaFx.Animation
