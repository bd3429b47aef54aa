/-
The position of a running animation through pulses and changes of its rate.

`Playing` follows an animation from its start with the elapsed time of the last pulse its
envelope got, and the clock. While the rate is zero the receiver is paused, and the time
of the pause is taken from the elapsed time of what comes after it. But the envelope has
forgotten by then which part of the elapsed time its position stands for, so that a change
away from zero is right only before the first pulse (`careful`).
-/
import JavaFx.Animation.AnimationRates
import JavaFx.Animation.ClipEnvelopePulses

set_option autoImplicit false
set_option linter.dupNamespace false

namespace JavaFx.Animation

open JavaFx.Lib
open ClipEnvelope (Affine Within Inside InCycle Tells)

namespace Animation

variable {a a' : Animation} {E clock now : ℤ} {r : ℚ}

/-- The envelope gets a pulse that comes at the given time. -/
def Pulses (a : Animation) (now : ℤ) : Prop :=
  a.registered = true ∧ 0 ≤ now - a.startTime
    ∧ (a.resolution = 1 ∨ a.resolution ≤ now - a.startTime - a.lastPulse)

instance (a : Animation) (now : ℤ) : Decidable (Pulses a now) :=
  inferInstanceAs (Decidable (a.registered = true ∧ 0 ≤ now - a.startTime
    ∧ (a.resolution = 1 ∨ a.resolution ≤ now - a.startTime - a.lastPulse)))

/-- The animations that pulses and changes of the rate lead to after a start, with the elapsed
time of the last pulse and the clock. Rates are changed to ones of the same sign, to zero or
from zero. -/
inductive Playing (careful : Prop) : Animation → ℤ → ℤ → Prop
  | start {a a' : Animation} (now : ℤ) (hstopped : a.status = .STOPPED)
      (hcount : 0 < a.cycleCount ∨ a.cycleCount = INDEFINITE)
      (hrate : a.clipEnvelope.rate = a.getRate) (hplay : a.play exact now = .ok a')
      (hrunning : a'.status = .RUNNING) (hcycle : 0 < a'.clipEnvelope.cycleTicks)
      (hwithin : Within a'.clipEnvelope) : Playing careful a' 0 now
  | setRate {a : Animation} {E clock : ℤ} (now : ℤ) (r : ℚ) (h : Playing careful a E clock)
      (hclock : clock ≤ now) (hsign : 0 ≤ r * a.getRate) (hintegral : Integral E r)
      (hzero : careful → a.getRate = 0 → r ≠ 0 → E = 0) :
      Playing careful (a.setRate exact now r) E now
  | timePulse {a : Animation} {E clock : ℤ} (now : ℤ) (h : Playing careful a E clock)
      (hclock : clock ≤ now) (hintegral : Integral (now - a.startTime) a.getRate) :
      Playing careful (a.timePulse exact now) (if a.Pulses now then now - a.startTime else E) now

/-! ## The receiver -/

/-- The last pulse came before the clock, or before the pause. -/
def Clocked (a : Animation) (E clock : ℤ) : Prop :=
  (a.paused = true → a.pauseTime ≤ clock)
    ∧ (E = 0 ∨ E ≤ (if a.paused then a.pauseTime else clock) - a.startTime)

theorem Clocked.mono (h : Clocked a E clock) (hclock : clock ≤ now) : Clocked a E now := by
  obtain ⟨hpause, hlast⟩ := h
  refine ⟨fun hpaused => (hpause hpaused).trans hclock, hlast.imp_right (fun hle => ?_)⟩
  split_ifs at hle ⊢ <;> omega

theorem Clocked.pauseReceiver (h : Clocked a E clock) (hclock : clock ≤ now) :
    Clocked (a.pauseReceiver now) E now := by
  obtain ⟨hpause, hlast⟩ := h.mono hclock
  rw [Animation.pauseReceiver]
  cases hpaused : a.paused with
  | true => exact ⟨hpause, hlast⟩
  | false =>
    rw [hpaused] at hlast
    exact ⟨fun _ => le_refl now, hlast⟩

theorem Clocked.resumeReceiver (h : Clocked a E clock) (hclock : clock ≤ now) :
    Clocked (a.resumeReceiver now) E now := by
  obtain ⟨hpause, hlast⟩ := h.mono hclock
  rw [Animation.resumeReceiver]
  by_cases hpaused : a.paused = true
  · rw [if_pos hpaused] at hlast ⊢
    refine ⟨by rintro ⟨⟩, hlast.imp_right (fun hle => ?_)⟩
    simp only [Bool.false_eq_true, if_false]
    omega
  · rw [if_neg hpaused]
    exact ⟨hpause, hlast⟩

/-- What calls of the envelope leave alone in the receiver. -/
structure SameClock (a a' : Animation) : Prop where
  paused : a'.paused = a.paused
  pauseTime : a'.pauseTime = a.pauseTime
  startTime : a'.startTime = a.startTime

theorem SameClock.clocked (h : SameClock a a') (hclocked : Clocked a E clock) :
    Clocked a' E clock := by
  rw [Clocked, h.paused, h.pauseTime, h.startTime]
  exact hclocked

theorem setCurrentRate_sameClock (value : ℚ) : SameClock a (a.setCurrentRate value) := by
  obtain ⟨c, hc⟩ := setCurrentRate_eq a value
  rw [hc]
  exact ⟨rfl, rfl, rfl⟩

theorem accept_sameClock (c : Call) : SameClock a (a.accept c) := by
  cases c with
  | setCurrentRate q => exact setCurrentRate_sameClock q
  | playTo ticks => exact ⟨rfl, rfl, rfl⟩
  | jumpTo ticks => exact ⟨rfl, rfl, rfl⟩
  | finished =>
    have h := setCurrentRate_sameClock (a := { a with
      lastPlayedFinished := true
      registered := a.registered && a.paused
      status := .STOPPED }) 0
    exact ⟨h.paused, h.pauseTime, h.startTime⟩

theorem foldl_accept_sameClock (calls : List Call) : SameClock a (calls.foldl accept a) := by
  induction calls generalizing a with
  | nil => exact ⟨rfl, rfl, rfl⟩
  | cons c calls ih =>
    have h := accept_sameClock (a := a) c
    have h' := ih (a := a.accept c)
    exact ⟨h'.paused.trans h.paused, h'.pauseTime.trans h.pauseTime,
      h'.startTime.trans h.startTime⟩

theorem tell_sameClock (res : ClipEnvelope × List Call) : SameClock a (a.tell res) := by
  have h := foldl_accept_sameClock (a := { a with clipEnvelope := res.1 }) res.2
  exact ⟨h.paused, h.pauseTime, h.startTime⟩

/-- An animation that runs after calls was running before, and has not come to its end. -/
theorem running_of_tell {res : ClipEnvelope × List Call} (h : (a.tell res).status = .RUNNING) :
    a.status = .RUNNING ∧ .finished ∉ res.2 := by
  have hend : .finished ∉ res.2 := by
    intro hmem
    rw [tell, foldl_accept_finished hmem] at h
    cases h
  have hstatus := foldl_accept_status (a := { a with clipEnvelope := res.1 }) hend
  exact ⟨hstatus.symm.trans h, hend⟩

/-! ## The invariant -/

structure PlayInv (a : Animation) (E clock : ℤ) : Prop where
  elapsed : 0 ≤ E
  envelope : a.clipEnvelope.rate = a.getRate
  receives : a.registered = true → a.paused = false
  clocked : Clocked a E clock
  running : a.status = .RUNNING → 0 < a.clipEnvelope.cycleTicks ∧ Affine E a.clipEnvelope

/-- A change of the rate: what is done to the receiver, and then the call of the envelope. -/
theorem rateInvalidated_eq (a : Animation) (d : Arithmetic) (now : ℤ) (r : ℚ) :
    ∃ b, a.rateInvalidated d now r = b.tell (b.clipEnvelope.setRate d b.status r)
      ∧ b.status = a.status ∧ b.clipEnvelope = a.clipEnvelope ∧ b.rate = a.rate
      ∧ ((a.registered = true → a.paused = false) → b.registered = true → b.paused = false)
      ∧ ∀ E clock, Clocked a E clock → clock ≤ now → Clocked b E now := by
  -- the receiver is paused, goes on, or is left alone
  have hpause : ∀ b : Animation, (b.pauseReceiver now).status = b.status
      ∧ (b.pauseReceiver now).clipEnvelope = b.clipEnvelope ∧ (b.pauseReceiver now).rate = b.rate
      ∧ ((b.registered = true → b.paused = false) →
        (b.pauseReceiver now).registered = true → (b.pauseReceiver now).paused = false) := by
    intro b
    rw [pauseReceiver]
    split_ifs
    · exact ⟨rfl, rfl, rfl, fun _ => by rintro ⟨⟩⟩
    · exact ⟨rfl, rfl, rfl, id⟩
  have hresume : ∀ b : Animation, (b.resumeReceiver now).status = b.status
      ∧ (b.resumeReceiver now).clipEnvelope = b.clipEnvelope ∧ (b.resumeReceiver now).rate = b.rate
      ∧ ((b.registered = true → b.paused = false) →
        (b.resumeReceiver now).registered = true → (b.resumeReceiver now).paused = false) := by
    intro b
    rw [resumeReceiver]
    split_ifs
    · exact ⟨rfl, rfl, rfl, fun _ _ => rfl⟩
    · exact ⟨rfl, rfl, rfl, id⟩
  rw [rateInvalidated]
  refine ⟨_, rfl, ?_⟩
  by_cases htiny : |r| < EPSILON
  · rw [if_pos htiny]
    by_cases hrunning : a.status = .RUNNING
    · rw [if_pos hrunning]
      dsimp only
      obtain ⟨c, hc⟩ := setCurrentRate_eq
        { a with lastPlayedForward := |a.getCurrentRate - a.oldRate| < EPSILON } 0
      rw [hc]
      obtain ⟨hstatus, hclip, hrate, hreceives⟩ := hpause { a with
        lastPlayedForward := |a.getCurrentRate - a.oldRate| < EPSILON, currentRate := c }
      refine ⟨hstatus, hclip, hrate, hreceives, fun E clock hclocked hle => ?_⟩
      exact Clocked.pauseReceiver (a := { a with
        lastPlayedForward := |a.getCurrentRate - a.oldRate| < EPSILON, currentRate := c })
        hclocked hle
    · rw [if_neg hrunning]
      dsimp only
      obtain ⟨c, hc⟩ := setCurrentRate_eq a 0
      rw [hc]
      obtain ⟨hstatus, hclip, hrate, hreceives⟩ := hpause { a with currentRate := c }
      exact ⟨hstatus, hclip, hrate, hreceives, fun E clock hclocked hle =>
        Clocked.pauseReceiver (a := { a with currentRate := c }) hclocked hle⟩
  · rw [if_neg htiny]
    by_cases hrunning : a.status = .RUNNING
    · rw [if_pos hrunning]
      by_cases hzero : |a.getCurrentRate| < EPSILON
      · rw [if_pos hzero]
        obtain ⟨c, hc⟩ := setCurrentRate_eq a (if a.lastPlayedForward then r else -r)
        rw [hc]
        obtain ⟨hstatus, hclip, hrate, hreceives⟩ := hresume { a with currentRate := c }
        exact ⟨hstatus, hclip, hrate, hreceives, fun E clock hclocked hle =>
          Clocked.resumeReceiver (a := { a with currentRate := c }) hclocked hle⟩
      · rw [if_neg hzero]
        obtain ⟨c, hc⟩ := setCurrentRate_eq a
          (if |a.getCurrentRate - a.oldRate| < EPSILON then r else -r)
        rw [hc]
        exact ⟨rfl, rfl, rfl, id, fun E clock hclocked hle => hclocked.mono hle⟩
    · rw [if_neg hrunning]
      exact ⟨rfl, rfl, rfl, id, fun E clock hclocked hle => hclocked.mono hle⟩

/-- Calls do not make the timer have a receiver that is paused. -/
theorem tell_receiver (h : a.registered = true → a.paused = false)
    (res : ClipEnvelope × List Call) :
    (a.tell res).registered = true → (a.tell res).paused = false := by
  have hfold : ∀ (calls : List Call) (b : Animation), (b.registered = true → b.paused = false) →
      (calls.foldl accept b).registered = true → (calls.foldl accept b).paused = false := by
    intro calls
    induction calls with
    | nil => exact fun b hb => hb
    | cons c calls ih =>
      intro b hb
      refine ih _ ?_
      cases c with
      | setCurrentRate q =>
        obtain ⟨c, hc⟩ := setCurrentRate_eq b q
        rw [accept, hc]
        exact hb
      | playTo ticks => exact hb
      | jumpTo ticks => exact hb
      | finished =>
        obtain ⟨c, hc⟩ := setCurrentRate_eq { b with
          lastPlayedFinished := true
          registered := b.registered && b.paused
          status := .STOPPED } 0
        rw [accept, implFinished, implStop, hc]
        intro hboth
        obtain ⟨hreg, -⟩ := Bool.and_eq_true_iff.mp hboth
        exact hb hreg
  exact hfold res.2 _ h

/-- **A change of the rate** of a playing animation. -/
theorem PlayInv.setRate (h : PlayInv a E clock) (hclock : clock ≤ now)
    (hsign : 0 ≤ r * a.getRate) (hintegral : Integral E r)
    (hzero : a.getRate = 0 → r ≠ 0 → E = 0) : PlayInv (a.setRate exact now r) E now := by
  rw [Animation.setRate]
  split_ifs with hproperty hsame
  · subst hsame
    exact ⟨h.elapsed, h.envelope, h.receives, h.clocked.mono hclock, h.running⟩
  · obtain ⟨b, hb, hstatus, hclip, hrate, hreceives, hclocked⟩ :=
      rateInvalidated_eq { a with rate := some r } exact now r
    rw [hb]
    have hsameClock := tell_sameClock (a := b) (b.clipEnvelope.setRate exact b.status r)
    have hkept := tell_same (a := b) (b.clipEnvelope.setRate exact b.status r)
    refine ⟨h.elapsed, ?_, tell_receiver (hreceives h.receives) _,
      hsameClock.clocked (hclocked E clock h.clocked hclock), fun hrunning => ?_⟩
    · rw [tell_clipEnvelope, hkept.settings.1, getRate, hrate]
      by_cases hrunning : b.status = .RUNNING
      · rw [hrunning]
        obtain ⟨c, -, htells, -⟩ := ClipEnvelope.setRate_running (d := exact) (w := b.clipEnvelope) r
        exact htells.rate_eq
      · exact (ClipEnvelope.setRate_quiet hrunning r).2.rate_eq
    · obtain ⟨hbrunning, -⟩ := running_of_tell hrunning
      have harunning : a.status = .RUNNING := hstatus.symm.trans hbrunning
      obtain ⟨hcycle, haffine⟩ := h.running harunning
      obtain ⟨c, -, htells, -⟩ := ClipEnvelope.setRate_running (d := exact) (w := b.clipEnvelope) r
      rw [tell_clipEnvelope, hbrunning, htells.cycleTicks]
      rw [hclip]
      refine ⟨hcycle, ClipEnvelope.setRate_affine haffine h.elapsed ?_ hintegral ?_⟩
      · rw [h.envelope]
        exact hsign
      · rw [h.envelope]
        exact hzero
  · exact ⟨h.elapsed, h.envelope, h.receives, h.clocked.mono hclock, h.running⟩

/-- The elapsed time of a pulse is no less than that of the last. -/
theorem PlayInv.elapsed_le (h : PlayInv a E clock) (hclock : clock ≤ now) (hpulses : a.Pulses now) :
    E ≤ now - a.startTime := by
  obtain ⟨hregistered, helapsed, -⟩ := hpulses
  obtain ⟨-, hlast⟩ := h.clocked.mono hclock
  rw [if_neg (by rw [h.receives hregistered]; exact Bool.false_ne_true)] at hlast
  omega

/-- The pulses that the envelope does not get, and the one that it gets. -/
theorem timePulse_eq (a : Animation) (d : Arithmetic) (now : ℤ) :
    (¬ a.Pulses now → a.timePulse d now = a)
      ∧ (a.Pulses now → ∃ lastPulse, a.timePulse d now = Animation.tell
        { a with lastPulse := lastPulse } (a.clipEnvelope.timePulse d (now - a.startTime))) := by
  rw [Animation.timePulse, implTimePulse, Pulses]
  split_ifs with hregistered helapsed hfull hresolution
  · exact ⟨fun _ => rfl, fun h => absurd h.2.1 (not_le.mpr helapsed)⟩
  · exact ⟨fun h => absurd ⟨hregistered, not_lt.mp helapsed, .inl hfull⟩ h,
      fun _ => ⟨a.lastPulse, rfl⟩⟩
  · exact ⟨fun h => absurd ⟨hregistered, not_lt.mp helapsed, .inr hresolution⟩ h,
      fun _ => ⟨_, rfl⟩⟩
  · exact ⟨fun _ => rfl, fun h => h.2.2.elim (absurd · hfull) (absurd · hresolution)⟩
  · exact ⟨fun _ => rfl, fun h => absurd h.1 hregistered⟩

/-- **A pulse** of a playing animation. -/
theorem PlayInv.timePulse (h : PlayInv a E clock) (hclock : clock ≤ now)
    (hintegral : Integral (now - a.startTime) a.getRate) :
    PlayInv (a.timePulse exact now) (if a.Pulses now then now - a.startTime else E) now := by
  obtain ⟨hskip, hpulse⟩ := timePulse_eq a exact now
  by_cases hpulses : a.Pulses now
  · obtain ⟨lastPulse, heq⟩ := hpulse hpulses
    have hle := h.elapsed_le hclock hpulses
    have hunpaused := h.receives hpulses.1
    rw [if_pos hpulses, heq]
    have hsameClock := tell_sameClock (a := { a with lastPulse := lastPulse })
      (a.clipEnvelope.timePulse exact (now - a.startTime))
    have hkept := tell_same (a := { a with lastPulse := lastPulse })
      (a.clipEnvelope.timePulse exact (now - a.startTime))
    have hreceiver := tell_receiver (a := { a with lastPulse := lastPulse }) h.receives
      (a.clipEnvelope.timePulse exact (now - a.startTime))
    refine ⟨hpulses.2.1, ?_, hreceiver, hsameClock.clocked ?_, fun hrunning => ?_⟩
    · rw [tell_clipEnvelope, hkept.settings.1, ClipEnvelope.timePulse_rate]
      exact h.envelope
    · refine ⟨fun hpaused => ?_, .inr ?_⟩
      · exact absurd (hunpaused.symm.trans hpaused) Bool.false_ne_true
      · dsimp only
        rw [hunpaused]
        exact le_refl _
    · obtain ⟨harunning, hend⟩ := running_of_tell hrunning
      obtain ⟨hcycle, haffine⟩ := h.running harunning
      rw [tell_clipEnvelope, ClipEnvelope.timePulse_cycleTicks]
      refine ⟨hcycle, (ClipEnvelope.timePulse_affine haffine h.elapsed hle hcycle ?_).1 hend⟩
      rw [h.envelope]
      exact hintegral
  · rw [if_neg hpulses, hskip hpulses]
    exact ⟨h.elapsed, h.envelope, h.receives, h.clocked.mono hclock, h.running⟩

/-- An animation that was stopped, and now runs. -/
theorem PlayInv.start (hstopped : a.status = .STOPPED)
    (hcount : 0 < a.cycleCount ∨ a.cycleCount = INDEFINITE)
    (hrate : a.clipEnvelope.rate = a.getRate) (hplay : a.play exact now = .ok a')
    (hrunning : a'.status = .RUNNING) (hcycle : 0 < a'.clipEnvelope.cycleTicks)
    (hwithin : Within a'.clipEnvelope) : PlayInv a' 0 now := by
  rw [Animation.play, hstopped] at hplay
  dsimp only at hplay
  by_cases hticks : exact.fromDuration a.getCycleDuration > 0
  swap
  · rw [if_neg hticks] at hplay
    obtain rfl := Except.ok.inj hplay
    exact absurd (hstopped.symm.trans hrunning) (by simp)
  rw [if_pos hticks] at hplay
  -- the animation may begin again from its start
  obtain ⟨b, hb, hbcount, hbget, hbrate⟩ : ∃ b,
      (if a.lastPlayedFinished then
        a.jumpTo exact (if a.getRate < 0 then a.totalDuration else .ZERO) else a) = b
      ∧ (0 < b.cycleCount ∨ b.cycleCount = INDEFINITE) ∧ b.getRate = a.getRate
      ∧ b.clipEnvelope.rate = b.getRate := by
    have hjump : ∀ time, (0 < (a.jumpTo exact time).cycleCount
        ∨ (a.jumpTo exact time).cycleCount = INDEFINITE)
        ∧ (a.jumpTo exact time).getRate = a.getRate
        ∧ (a.jumpTo exact time).clipEnvelope.rate = (a.jumpTo exact time).getRate := by
      intro time
      obtain ⟨-, hsettings, hjumped⟩ := jumpTo_stopped (d := exact) hstopped hcount time
      have hsync : (a.clipEnvelope.sync exact a.settings).rate = a.getRate :=
        ClipEnvelope.sync_rate hrate
      have hget : (a.jumpTo exact time).getRate = a.getRate := congrArg Settings.rate hsettings
      refine ⟨?_, hget, hjumped.keeps.2.2.trans (hsync.trans hget.symm)⟩
      rw [← settings_cycleCount, hsettings]
      exact hcount
    split_ifs
    · exact ⟨_, rfl, hjump _⟩
    · exact ⟨_, rfl, hjump _⟩
    · exact ⟨a, rfl, hcount, rfl, hrate⟩
  rw [hb] at hplay
  obtain ⟨c, hc, ha'⟩ := bind_eq_ok.mp hplay
  rw [implStart] at hc
  dsimp only at hc
  obtain ⟨res, hstart, hc⟩ := bind_eq_ok.mp hc
  have hsync := syncClipEnvelope_clipEnvelope (d := exact) hbcount
  have hresRate : res.1.rate = b.getRate := by
    rw [ClipEnvelope.start_rate hstart, hsync]
    exact ClipEnvelope.sync_rate hbrate
  have hclip : c.clipEnvelope = res.1 := by
    rw [← Except.ok.inj hc]
    dsimp only
    rw [setCurrentRate_clipEnvelope, tell_clipEnvelope]
  have hget : c.getRate = b.getRate := by
    have hsettings := tell_settings (a := { b.syncClipEnvelope exact with status := .RUNNING }) res
    rw [← Except.ok.inj hc]
    exact (congrArg Settings.rate (setCurrentRate_settings _)).trans
      (congrArg Settings.rate hsettings)
  -- the receiver is registered, and paused where the rate is zero
  obtain ⟨hclip', hget', hreceives, hpaused⟩ : a'.clipEnvelope = res.1 ∧ a'.getRate = b.getRate
      ∧ (a'.registered = true → a'.paused = false) ∧ (a'.paused = true → a'.pauseTime = now) := by
    rw [pure_eq_ok, Except.ok.injEq] at ha'
    split_ifs at ha'
    · subst ha'
      exact ⟨hclip, hget, by rintro ⟨⟩, fun _ => rfl⟩
    · subst ha'
      exact ⟨hclip, hget, fun _ => rfl, by rintro ⟨⟩⟩
  refine ⟨le_refl 0, ?_, hreceives, ⟨fun h => (hpaused h).le, .inl rfl⟩, fun _ => ⟨hcycle, ?_⟩⟩
  · rw [hclip', hget', hresRate]
  · rw [hclip'] at hwithin ⊢
    exact ClipEnvelope.start_affine hstart hwithin

theorem Playing.inv (h : Playing True a E clock) : PlayInv a E clock := by
  induction h with
  | start now hstopped hcount hrate hplay hrunning hcycle hwithin =>
    exact PlayInv.start hstopped hcount hrate hplay hrunning hcycle hwithin
  | setRate now r _ hclock hsign hintegral hzero ih =>
    exact ih.setRate hclock hsign hintegral (hzero trivial)
  | timePulse now _ hclock hintegral ih => exact ih.timePulse hclock hintegral

/-! ## Main result -/

/-- A change of the rate to one of the same sign, to zero or from zero leaves the position. -/
theorem setRate_ticks (now : ℤ) (hrate : a.clipEnvelope.rate = a.getRate)
    (hsign : 0 ≤ r * a.getRate) :
    (a.setRate exact now r).clipEnvelope.ticks = a.clipEnvelope.ticks := by
  rw [setRate]
  split_ifs
  · rfl
  · obtain ⟨b, hb, -, hclip, -⟩ := rateInvalidated_eq { a with rate := some r } exact now r
    rw [hb, tell_clipEnvelope, ClipEnvelope.setRate_ticks, hclip]
    rw [hclip]
    exact hrate.symm ▸ hsign
  · rfl

/-- **The position is continuous**: right after a change of the rate it is what it was, and a
pulse moves it by the time since the last one at the present rate, as long as the
animation does not end. While no cycle ends the play head moves by as much. -/
theorem position_continuous (h : Playing True a E clock) (hrunning : a.status = .RUNNING) :
    (∀ now r, 0 ≤ r * a.getRate →
        (a.setRate exact now r).clipEnvelope.ticks = a.clipEnvelope.ticks)
      ∧ ∀ now, clock ≤ now → a.Pulses now → Integral (now - a.startTime) a.getRate →
        E ≤ now - a.startTime
          ∧ (Inside (((now - a.startTime : ℤ) - E) * a.getRate) a.clipEnvelope →
            |((a.timePulse exact now).clipEnvelope.ticks - a.clipEnvelope.ticks : ℚ)|
              = ((now - a.startTime : ℤ) - E) * |a.getRate|)
          ∧ (InCycle (((now - a.startTime : ℤ) - E) * a.getRate) a.clipEnvelope →
            |((a.timePulse exact now).clipEnvelope.head - a.clipEnvelope.head : ℚ)|
              = ((now - a.startTime : ℤ) - E) * |a.getRate|) := by
  have hinv := h.inv
  obtain ⟨hcycle, haffine⟩ := hinv.running hrunning
  refine ⟨fun now r hsign => setRate_ticks now hinv.envelope hsign,
    fun now hclock hpulses hintegral => ⟨hinv.elapsed_le hclock hpulses, ?_⟩⟩
  obtain ⟨-, hpulse⟩ := timePulse_eq a exact now
  obtain ⟨lastPulse, heq⟩ := hpulse hpulses
  rw [← hinv.envelope] at hintegral ⊢
  rw [heq, tell_clipEnvelope]
  exact (ClipEnvelope.timePulse_affine haffine hinv.elapsed (hinv.elapsed_le hclock hpulses) hcycle
    hintegral).2

/-! ## An animation of a second -/

/-- It is started at the time zero. -/
theorem exists_playing (careful : Prop) :
    ∃ a, second.play exact 0 = .ok a ∧ Playing careful a 0 0 ∧ a.status = .RUNNING
      ∧ a.clipEnvelope = .singleLoop ⟨1, 6000, 0, 0, 1, 1⟩ ∧ a.getRate = 1 ∧ a.startTime = 0
      ∧ a.Pulses 100 := by
  have hrun : (second.play exact 0).toOption.map (fun a => (a.status, a.clipEnvelope, a.getRate,
      a.startTime, decide (a.Pulses 100)))
      = some (.RUNNING, .singleLoop ⟨1, 6000, 0, 0, 1, 1⟩, 1, 0, true) := by decide +kernel
  cases hplay : second.play exact 0 with
  | error e =>
    rw [hplay] at hrun
    cases hrun
  | ok a =>
    rw [hplay] at hrun
    simp only [Except.toOption, Option.map_some, Option.some.injEq, Prod.mk.injEq,
      decide_eq_true_eq] at hrun
    obtain ⟨hrunning, hclip, hrate, hstart, hpulses⟩ := hrun
    refine ⟨a, rfl, .start 0 ?_ ?_ ?_ hplay hrunning ?_ ?_, hrunning, hclip, hrate, hstart,
      hpulses⟩
    · decide +kernel
    · decide +kernel
    · decide +kernel
    · rw [hclip]
      decide
    · rw [hclip]
      exact ⟨by decide, by decide⟩

theorem integral_one (n : ℤ) (hn : n < 2 ^ 63) : Integral n 1 := ⟨n, by rw [abs_one, mul_one], hn⟩

theorem position_continuous_second :
    ∃ a : Animation, a.status = .RUNNING
      ∧ |((a.timePulse exact 100).clipEnvelope.ticks - a.clipEnvelope.ticks : ℚ)| = 100
      ∧ ∀ now, (a.setRate exact now 2).clipEnvelope.ticks = a.clipEnvelope.ticks := by
  obtain ⟨a, -, h, hrunning, hclip, hrate, hstart, hpulses⟩ := exists_playing True
  obtain ⟨hset, hpulse⟩ := position_continuous h hrunning
  refine ⟨a, hrunning, ?_, fun now => hset now 2 (by rw [hrate]; norm_num)⟩
  have hintegral : Integral (100 - a.startTime) a.getRate := by
    rw [hstart, hrate]
    exact integral_one _ (by decide)
  have hinside : Inside (((100 - a.startTime : ℤ) - (0 : ℤ)) * a.getRate) a.clipEnvelope := by
    rw [hclip, hstart, hrate]
    exact ⟨by norm_num, by norm_num⟩
  rw [(hpulse 100 (by decide) hpulses hintegral).2.1 hinside, hstart, hrate]
  norm_num

/-- The animation after a pulse, and a while with the rate zero. -/
def rested (a : Animation) : Animation :=
  ((a.timePulse exact 100).setRate exact 110 0).setRate exact 200 1

/-- The rate is zero for a while after a pulse: the next pulse moves the position by all of
the elapsed time, as if there had been none before. -/
theorem not_position_continuous :
    ∃ (a : Animation) (E clock now : ℤ), Playing False a E clock ∧ a.status = .RUNNING
      ∧ clock ≤ now ∧ a.Pulses now ∧ Integral (now - a.startTime) a.getRate
      ∧ InCycle (((now - a.startTime : ℤ) - E) * a.getRate) a.clipEnvelope
      ∧ |((a.timePulse exact now).clipEnvelope.ticks - a.clipEnvelope.ticks : ℚ)|
        ≠ ((now - a.startTime : ℤ) - E) * |a.getRate| := by
  obtain ⟨a, hplay, h, -, -, hrate, hstart, hpulses⟩ := exists_playing False
  have hrun : (second.play exact 0).toOption.map (fun a =>
      (((a.timePulse exact 100).setRate exact 110 0).getRate, (rested a).status,
        (rested a).clipEnvelope, (rested a).getRate))
      = some (0, .RUNNING, .singleLoop ⟨1, 6000, 100, 100, 1, 1⟩, 1) := by decide +kernel
  have hnext : (second.play exact 0).toOption.map (fun a => ((rested a).startTime,
      decide ((rested a).Pulses 210), ((rested a).timePulse exact 210).clipEnvelope.ticks))
      = some (90, true, 220) := by decide +kernel
  rw [hplay] at hrun hnext
  simp only [Except.toOption, Option.map_some, Option.some.injEq, Prod.mk.injEq,
    decide_eq_true_eq] at hrun hnext
  obtain ⟨hrate₂, hrunning, hclip, hrate₃⟩ := hrun
  obtain ⟨hstart₃, hpulses₃, hticks⟩ := hnext
  have h₁ : Playing False (a.timePulse exact 100) 100 100 := by
    have h₁ := h.timePulse 100 (by decide) (by
      rw [hstart, hrate]
      exact integral_one _ (by decide))
    rwa [if_pos hpulses, hstart, sub_zero] at h₁
  have h₂ := h₁.setRate 110 0 (by decide) (by rw [zero_mul]) ⟨0, by simp, by decide⟩
    (fun hf => hf.elim)
  have h₃ : Playing False (rested a) 100 200 := h₂.setRate 200 1 (by decide) (by rw [hrate₂, mul_zero]) (integral_one _ (by decide))
    (fun hf => hf.elim)
  refine ⟨_, 100, 200, 210, h₃, hrunning, by decide, hpulses₃, ?_, ?_, ?_⟩
  · rw [hstart₃, hrate₃]
    exact integral_one _ (by decide)
  · rw [hclip, hstart₃, hrate₃]
    exact ⟨by norm_num, by norm_num⟩
  · rw [hticks, hclip, hstart₃, hrate₃]
    norm_num [ClipEnvelope.ticks]

end Animation

end JavaFx.Animation
