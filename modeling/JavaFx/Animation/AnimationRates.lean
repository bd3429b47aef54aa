/-
The current rate of an animation and that of its envelope.

Both are kept while the animation runs. While it is paused the public one is zero and the
envelope keeps the one it had, which a change of the rate does not touch. So when the
animation goes on the two agree exactly if the rate is the one with which it was paused;
`Reached` carries that rate along. Rates not above `EPSILON` count as zero in parts of the
code, and are left out where a run is `careful`.
-/
import JavaFx.Animation.ClipEnvelopeCalls
import JavaFx.Animation.Animation

set_option autoImplicit false
set_option linter.dupNamespace false

namespace JavaFx.Animation

open JavaFx.Lib
open ClipEnvelope (OfKind Renews Tells)

variable {d : Arithmetic} {a a' : Animation} {pausedRate : ℚ}

/-! ## Envelopes -/

namespace ClipEnvelope

variable {s : Settings} {w w' : ClipEnvelope}

theorem create_rate (s : Settings) : (create d s).rate = s.rate := by
  rw [create]
  split_ifs <;> rfl

theorem setCycleDuration_rate (c : Duration) : (w.setCycleDuration d s c).1.rate = w.rate := by
  cases w <;>
  · rw [setCycleDuration]
    split_ifs <;> rfl

/-- An envelope with the rate of the animation gives way to another one with it. -/
theorem sync_rate (hrate : w.rate = s.rate) : (w.sync d s).rate = s.rate := by
  have hreverse : ∀ (w : ClipEnvelope) (b : Bool), (w.setAutoReverse b).rate = w.rate := by
    intro w b
    cases w <;> rfl
  rw [sync, hreverse, setCycleDuration_rate]
  cases w with
  | singleLoop w =>
    rw [setCycleCount]
    split_ifs
    · exact create_rate s
    · exact hrate
  | infinite w =>
    rw [setCycleCount]
    split_ifs
    · exact create_rate s
    · exact hrate
  | finite w =>
    rw [setCycleCount]
    split_ifs
    · exact create_rate s
    · exact hrate

theorem Jumped.keeps (h : w.Jumped w') :
    (∀ s, OfKind s w' ↔ OfKind s w) ∧ w'.cycleTicks = w.cycleTicks ∧ w'.rate = w.rate := by
  rcases h with rfl | ⟨status, t, rfl⟩
  · exact ⟨fun _ => Iff.rfl, rfl, rfl⟩
  · obtain ⟨htells, -⟩ := jumpTo_tells (w := w) status t
    exact ⟨htells.kind, htells.cycleTicks, htells.rate_eq⟩

end ClipEnvelope

namespace Animation

/-! ## What calls of the envelope do -/

/-- What calls leave alone. -/
structure Same (a a' : Animation) : Prop where
  rate : a'.rate = a.rate
  oldRate : a'.oldRate = a.oldRate
  lastPlayedForward : a'.lastPlayedForward = a.lastPlayedForward
  cycleCount : a'.cycleCount = a.cycleCount
  cycleDuration : a'.cycleDuration = a.cycleDuration

theorem Same.settings (h : Same a a') : a'.getRate = a.getRate
    ∧ a'.getCycleDuration = a.getCycleDuration := by
  rw [getRate, h.rate, getCycleDuration, h.cycleDuration]
  exact ⟨rfl, rfl⟩

theorem Same.trans {a'' : Animation} (h : Same a a') (h' : Same a' a'') : Same a a'' :=
  ⟨h'.rate.trans h.rate, h'.oldRate.trans h.oldRate,
    h'.lastPlayedForward.trans h.lastPlayedForward, h'.cycleCount.trans h.cycleCount,
    h'.cycleDuration.trans h.cycleDuration⟩

/-- The timer has the receiver of a running animation only, and not while it is paused. -/
def Receives (a : Animation) : Prop := a.registered = true → a.status = .RUNNING ∧ a.paused = false

theorem setCurrentRate_eq (a : Animation) (value : ℚ) :
    ∃ c, a.setCurrentRate value = { a with currentRate := c } := by
  rw [setCurrentRate]
  split_ifs
  · exact ⟨_, rfl⟩
  · exact ⟨a.currentRate, rfl⟩

theorem setCurrentRate_same (value : ℚ) : Same a (a.setCurrentRate value) := by
  rw [setCurrentRate]
  split_ifs <;> exact ⟨rfl, rfl, rfl, rfl, rfl⟩

theorem setCurrentRate_receives (h : Receives a) (value : ℚ) :
    Receives (a.setCurrentRate value) := by
  rw [setCurrentRate]
  split_ifs <;> exact h

theorem getCurrentRate_setCurrentRate {value : ℚ} (hvalue : EPSILON < |value|) :
    (a.setCurrentRate value).getCurrentRate = value := by
  rw [setCurrentRate, sub_zero, if_pos (.inr hvalue)]
  rfl

theorem implStop_receives (h : Receives a) : Receives a.implStop := by
  refine setCurrentRate_receives (fun hregistered => ?_) 0
  obtain ⟨hreg, hpaused⟩ := Bool.and_eq_true_iff.mp hregistered
  rw [(h hreg).2] at hpaused
  cases hpaused

theorem accept_same (c : Call) : Same a (a.accept c) := by
  cases c with
  | setCurrentRate currentRate => exact setCurrentRate_same currentRate
  | playTo ticks => exact ⟨rfl, rfl, rfl, rfl, rfl⟩
  | jumpTo ticks => exact ⟨rfl, rfl, rfl, rfl, rfl⟩
  | finished =>
    have h := setCurrentRate_same (a := { a with
      lastPlayedFinished := true
      registered := a.registered && a.paused
      status := .STOPPED }) 0
    exact ⟨h.rate, h.oldRate, h.lastPlayedForward, h.cycleCount, h.cycleDuration⟩

theorem accept_receives (h : Receives a) (c : Call) : Receives (a.accept c) := by
  cases c with
  | setCurrentRate currentRate => exact setCurrentRate_receives h currentRate
  | playTo ticks => exact h
  | jumpTo ticks => exact h
  | finished => exact implStop_receives h

theorem foldl_accept_same (calls : List Call) : Same a (calls.foldl accept a) := by
  induction calls generalizing a with
  | nil => exact ⟨rfl, rfl, rfl, rfl, rfl⟩
  | cons c calls ih => exact (accept_same c).trans ih

theorem foldl_accept_receives (h : Receives a) (calls : List Call) :
    Receives (calls.foldl accept a) := by
  induction calls generalizing a with
  | nil => exact h
  | cons c calls ih => exact ih (accept_receives h c)

theorem tell_same (r : ClipEnvelope × List Call) : Same a (a.tell r) := by
  have h := foldl_accept_same (a := { a with clipEnvelope := r.1 }) r.2
  exact ⟨h.rate, h.oldRate, h.lastPlayedForward, h.cycleCount, h.cycleDuration⟩

theorem tell_receives (h : Receives a) (r : ClipEnvelope × List Call) : Receives (a.tell r) :=
  foldl_accept_receives (a := { a with clipEnvelope := r.1 }) h r.2

/-- Calls that end nothing keep the status, and the animation hears of the current rate. -/
theorem foldl_accept_running {r : ℚ} {calls : List Call} (hsize : OfSize r calls)
    (hr : EPSILON < r) (hend : .finished ∉ calls) :
    (calls.foldl accept a).status = a.status
      ∧ (calls.foldl accept a).getCurrentRate = heard a.getCurrentRate calls := by
  induction calls generalizing a with
  | nil => exact ⟨rfl, rfl⟩
  | cons c calls ih =>
    have hsize' : OfSize r calls := fun q hq => hsize q (List.mem_cons_of_mem _ hq)
    obtain ⟨hstatus, hcurrent⟩ := ih (a := a.accept c) hsize'
      (fun hmem => hend (List.mem_cons_of_mem _ hmem))
    rw [List.foldl_cons]
    cases c with
    | setCurrentRate q =>
      have hq : EPSILON < |q| := by rwa [hsize q List.mem_cons_self]
      refine ⟨hstatus.trans (setCurrentRate_status q), ?_⟩
      rw [hcurrent, accept, getCurrentRate_setCurrentRate hq, heard]
    | playTo ticks => exact ⟨hstatus, hcurrent⟩
    | jumpTo ticks => exact ⟨hstatus, hcurrent⟩
    | finished => exact absurd List.mem_cons_self hend

/-- Calls that end nothing keep the status, whatever they say of the current rate. -/
theorem foldl_accept_status {calls : List Call} (hend : .finished ∉ calls) :
    (calls.foldl accept a).status = a.status := by
  induction calls generalizing a with
  | nil => rfl
  | cons c calls ih =>
    refine (ih (a := a.accept c) (fun hmem => hend (List.mem_cons_of_mem _ hmem))).trans ?_
    cases c with
    | setCurrentRate q => exact setCurrentRate_status q
    | playTo ticks => rfl
    | jumpTo ticks => rfl
    | finished => exact absurd List.mem_cons_self hend

/-- An animation that is told of its end is stopped. -/
theorem foldl_accept_finished {calls : List Call} (hend : .finished ∈ calls) :
    (calls.foldl accept a).status = .STOPPED := by
  induction calls generalizing a with
  | nil => cases hend
  | cons c calls ih =>
    rw [List.foldl_cons]
    by_cases hmem : .finished ∈ calls
    · exact ih hmem
    · obtain rfl := (List.mem_cons.mp hend).resolve_right hmem
      have hstopped : (a.accept .finished).status = .STOPPED := setCurrentRate_status 0
      exact tell_stopped (a := a.accept .finished) hstopped ((a.accept .finished).clipEnvelope, calls)

/-! ## The invariant -/

/-- Whether an envelope is of a kind depends on two of the settings. -/
theorem ofKind_congr {s s' : Settings} {w : ClipEnvelope} (hcount : s'.cycleCount = s.cycleCount)
    (hduration : s'.cycleDuration = s.cycleDuration) : OfKind s' w ↔ OfKind s w := by
  cases w <;>
  · rw [OfKind, OfKind, ClipEnvelope.Single, ClipEnvelope.Single, hcount, hduration]

/-- What an animation keeps; `pausedRate` is the rate with which it was last paused. -/
structure Inv (d : Arithmetic) (a : Animation) (pausedRate : ℚ) : Prop where
  count : 0 < a.cycleCount ∨ a.cycleCount = INDEFINITE
  kind : OfKind a.settings a.clipEnvelope
  cycleTicks : a.clipEnvelope.cycleTicks = d.fromDuration a.getCycleDuration
  envelope : a.clipEnvelope.rate = a.getRate
  oldRate : a.oldRate = a.getRate
  rate : EPSILON < |a.getRate|
  receives : Receives a
  running : a.status = .RUNNING →
    a.getCurrentRate = a.clipEnvelope.currentRate ∧ |a.clipEnvelope.currentRate| = |a.getRate|
  paused : a.status = .PAUSED →
    a.clipEnvelope.currentRate = if a.lastPlayedForward then pausedRate else -pausedRate

theorem epsilon_lt_one : EPSILON < |(1 : ℚ)| := by
  rw [EPSILON]
  norm_num

theorem Inv.new (resolution : ℤ) (delay : Duration) (pausedRate : ℚ) :
    Inv d (Animation.new d resolution delay) pausedRate :=
  ⟨.inl Int.one_pos, .inl rfl, rfl, rfl, rfl, epsilon_lt_one, nofun, nofun, nofun⟩

/-- A method of the envelope that keeps the rate. -/
theorem Inv.tell (h : Inv d a pausedRate) {r : ClipEnvelope × List Call}
    (hr : Tells a.clipEnvelope a.clipEnvelope.rate r)
    (hquiet : a.status ≠ .RUNNING → .finished ∉ r.2 ∧ ∀ q, .setCurrentRate q ∉ r.2) :
    Inv d (a.tell r) pausedRate := by
  have hsame := tell_same (a := a) r
  obtain ⟨hrate, hduration⟩ := hsame.settings
  have hsize := hr.size
  rw [h.envelope] at hsize
  refine ⟨?_, ?_, ?_, ?_, ?_, ?_, tell_receives h.receives r, fun hrunning => ?_,
    fun hpaused => ?_⟩
  · rw [hsame.cycleCount]
    exact h.count
  · rw [tell_settings, tell_clipEnvelope, hr.kind]
    exact h.kind
  · rw [tell_clipEnvelope, hr.cycleTicks, hduration, h.cycleTicks]
  · rw [tell_clipEnvelope, hr.rate_eq, hrate, h.envelope]
  · rw [hsame.oldRate, hrate, h.oldRate]
  · rw [hrate]
    exact h.rate
  · -- no call has ended the animation, so that it ran before
    have hend : .finished ∉ r.2 := by
      intro hmem
      rw [Animation.tell, foldl_accept_finished hmem] at hrunning
      cases hrunning
    obtain ⟨hstatus, hcurrent⟩ := foldl_accept_running (a := { a with clipEnvelope := r.1 })
      hsize h.rate hend
    obtain ⟨heq, habs⟩ := h.running (hstatus.symm.trans hrunning)
    rw [tell_clipEnvelope, hrate]
    refine ⟨?_, ?_⟩
    · calc (a.tell r).getCurrentRate = heard a.getCurrentRate r.2 := hcurrent
        _ = heard a.clipEnvelope.currentRate r.2 := by rw [heq]
        _ = r.1.currentRate := hr.heard.symm
    · rw [hr.heard]
      exact hsize.heard habs
  · have hend : .finished ∉ r.2 := by
      intro hmem
      rw [Animation.tell, foldl_accept_finished hmem] at hpaused
      cases hpaused
    obtain ⟨hstatus, -⟩ := foldl_accept_running (a := { a with clipEnvelope := r.1 })
      hsize h.rate hend
    have hpaused' : a.status = .PAUSED := hstatus.symm.trans hpaused
    have hne : a.status ≠ .RUNNING := by
      rw [hpaused']
      exact fun h => by cases h
    rw [tell_clipEnvelope, hr.heard, heard_of_forall (hquiet hne).2, hsame.lastPlayedForward]
    exact h.paused hpaused'

/-- A stopped animation with another envelope. -/
theorem Inv.renewed (h : Inv d a pausedRate) (hstopped : a'.status = .STOPPED)
    (hcount : 0 < a'.cycleCount ∨ a'.cycleCount = INDEFINITE) (hrate : a'.getRate = a.getRate)
    (hold : a'.oldRate = a.oldRate) (hreceives : Receives a')
    (hrenews : Renews a'.settings a.clipEnvelope)
    (hjumped : (a.clipEnvelope.sync d a'.settings).Jumped a'.clipEnvelope) :
    Inv d a' pausedRate := by
  obtain ⟨hkind, hticks, hjrate⟩ := hjumped.keeps
  obtain ⟨hofKind, hcycleTicks, -⟩ := hrenews.renewed (d := d)
  have hsync : (a.clipEnvelope.sync d a'.settings).rate = a'.settings.rate := by
    apply ClipEnvelope.sync_rate
    rw [settings_rate, hrate]
    exact h.envelope
  refine ⟨hcount, (hkind _).mpr hofKind, hticks.trans hcycleTicks, hjrate.trans hsync, ?_, ?_,
    hreceives, fun hrunning => ?_, fun hpaused => ?_⟩
  · rw [hold, hrate, h.oldRate]
  · rw [hrate]
    exact h.rate
  · rw [hstopped] at hrunning
    cases hrunning
  · rw [hstopped] at hpaused
    cases hpaused

/-! ## The operations -/

theorem updateTotalDuration_keeps (a : Animation) :
    (a.updateTotalDuration d).oldRate = a.oldRate
      ∧ (Receives a → Receives (a.updateTotalDuration d)) := by
  rw [updateTotalDuration]
  dsimp only
  split_ifs
  · refine ⟨(tell_same _).oldRate, fun h => ?_⟩
    apply tell_receives
    exact h
  · exact ⟨rfl, id⟩
  · exact ⟨rfl, id⟩

theorem jumpTo_keeps (a : Animation) (time : Duration) :
    (a.jumpTo d time).oldRate = a.oldRate ∧ (Receives a → Receives (a.jumpTo d time)) := by
  rw [jumpTo]
  dsimp only
  split_ifs
  all_goals
    refine ⟨(tell_same _).oldRate, fun h => ?_⟩
    apply tell_receives
    exact h

theorem change_keeps {c : Change} (hchange : a.change d c = .ok a') :
    a'.oldRate = a.oldRate ∧ (Receives a → Receives a') := by
  cases c with
  | cycleCount value =>
    obtain rfl := Except.ok.inj hchange
    rw [setCycleCount]
    split_ifs
    · exact ⟨rfl, id⟩
    · exact updateTotalDuration_keeps _
  | cycleDuration value =>
    rw [change, setCycleDuration] at hchange
    split_ifs at hchange
    · obtain rfl := Except.ok.inj hchange
      exact updateTotalDuration_keeps _
    · obtain rfl := Except.ok.inj hchange
      exact ⟨rfl, id⟩
  | autoReverse value =>
    obtain rfl := Except.ok.inj hchange
    exact ⟨rfl, id⟩
  | jumpTo time =>
    obtain rfl := Except.ok.inj hchange
    exact jumpTo_keeps a time
  | sync =>
    obtain rfl := Except.ok.inj hchange
    exact ⟨rfl, id⟩

theorem Inv.change (h : Inv d a pausedRate) (hstopped : a.status = .STOPPED) {c : Change}
    (hvalid : c.Valid) (hchange : a.change d c = .ok a')
    (hrenews : c.Syncs a → Renews a'.settings a.clipEnvelope) : Inv d a' pausedRate := by
  obtain ⟨hstatus, hcount, hrate, hsyncs, hsame⟩ := change_spec hstopped h.count hvalid hchange
  obtain ⟨hold, hreceives⟩ := change_keeps hchange
  by_cases hsync : c.Syncs a
  · exact h.renewed hstatus hcount hrate hold (hreceives h.receives) (hrenews hsync) (hsyncs hsync)
  · obtain ⟨henvelope, hcycles, hduration⟩ := hsame hsync
    have hkind : OfKind a'.settings a.clipEnvelope ↔ OfKind a.settings a.clipEnvelope :=
      ofKind_congr hcycles hduration
    refine ⟨hcount, ?_, ?_, ?_, ?_, ?_, hreceives h.receives, fun hrunning => ?_, fun hpaused => ?_⟩
    · rw [henvelope, hkind]
      exact h.kind
    · rw [henvelope, hduration, h.cycleTicks]
    · rw [henvelope, hrate, h.envelope]
    · rw [hold, hrate, h.oldRate]
    · rw [hrate]
      exact h.rate
    · rw [hstatus] at hrunning
      cases hrunning
    · rw [hstatus] at hpaused
      cases hpaused

theorem Inv.jumpTo (h : Inv d a pausedRate) (time : Duration) :
    Inv d (a.jumpTo d time) pausedRate := by
  by_cases hstopped : a.status = .STOPPED
  · obtain ⟨hstatus, hsettings, hjumped⟩ := jumpTo_stopped (d := d) hstopped h.count time
    obtain ⟨hold, hreceives⟩ := jumpTo_keeps (d := d) a time
    rw [← hsettings] at hjumped
    refine h.renewed hstatus ?_ ?_ hold (hreceives h.receives) ?_ hjumped
    · rw [← settings_cycleCount, hsettings]
      exact h.count
    · rw [← settings_rate, hsettings]
      rfl
    · rw [hsettings]
      exact h.kind.renews
  · have h₀ : Inv d { a with lastPlayedFinished := false } pausedRate :=
      ⟨h.count, h.kind, h.cycleTicks, h.envelope, h.oldRate, h.rate, h.receives, h.running,
        h.paused⟩
    rw [Animation.jumpTo]
    dsimp only
    rw [if_neg hstopped]
    obtain ⟨htells, hend, hquiet⟩ := ClipEnvelope.jumpTo_tells (w := a.clipEnvelope) a.status
      (d.fromDuration (if time.lessThan .ZERO then .ZERO
        else if a.totalDuration.lessThan time then a.totalDuration else time))
    exact h₀.tell htells (fun hne => ⟨hend, hquiet hne⟩)

/-- The envelope gets the new rate of the animation. -/
theorem Inv.tell_setRate {r : ℚ} (hcount : 0 < a.cycleCount ∨ a.cycleCount = INDEFINITE)
    (hkind : OfKind a.settings a.clipEnvelope)
    (hticks : a.clipEnvelope.cycleTicks = d.fromDuration a.getCycleDuration)
    (hrate : a.getRate = r) (hold : a.oldRate = r) (hr : EPSILON < |r|) (hreceives : Receives a)
    (hpaused : a.status = .PAUSED →
      a.clipEnvelope.currentRate = if a.lastPlayedForward then pausedRate else -pausedRate) :
    Inv d (a.tell (a.clipEnvelope.setRate d a.status r)) pausedRate := by
  have hsame := tell_same (a := a) (a.clipEnvelope.setRate d a.status r)
  obtain ⟨hrate', hduration⟩ := hsame.settings
  have htells : Tells a.clipEnvelope r (a.clipEnvelope.setRate d a.status r) := by
    by_cases hrunning : a.status = .RUNNING
    · obtain ⟨c, -, htells, -⟩ := ClipEnvelope.setRate_running (d := d) (w := a.clipEnvelope) r
      rw [hrunning]
      exact htells
    · exact (ClipEnvelope.setRate_quiet hrunning r).2
  refine ⟨?_, ?_, ?_, ?_, ?_, ?_, tell_receives hreceives _, fun hrunning' => ?_,
    fun hpaused' => ?_⟩
  · rw [hsame.cycleCount]
    exact hcount
  · rw [tell_settings, tell_clipEnvelope, htells.kind]
    exact hkind
  · rw [tell_clipEnvelope, htells.cycleTicks, hduration, hticks]
  · rw [tell_clipEnvelope, htells.rate_eq, hrate', hrate]
  · rw [hsame.oldRate, hrate', hold, hrate]
  · rw [hrate', hrate]
    exact hr
  · by_cases hrunning : a.status = .RUNNING
    · obtain ⟨c, hcalls, htells', -⟩ :=
        ClipEnvelope.setRate_running (d := d) (w := a.clipEnvelope) r
      rw [← hrunning] at hcalls htells'
      have hc : |c| = |r| := htells'.size c (by rw [hcalls]; exact List.mem_singleton_self _)
      have hcurrent : (a.clipEnvelope.setRate d a.status r).1.currentRate = c := by
        rw [htells'.heard, hcalls]
        rfl
      rw [tell_clipEnvelope, hcurrent, hrate', hrate]
      refine ⟨?_, hc⟩
      rw [Animation.tell, hcalls]
      exact getCurrentRate_setCurrentRate (hc ▸ hr)
    · -- no call has started the animation
      obtain ⟨hcalls, -⟩ := ClipEnvelope.setRate_quiet (d := d) (w := a.clipEnvelope) hrunning r
      rw [Animation.tell, hcalls] at hrunning'
      exact absurd hrunning' hrunning
  · by_cases hrunning : a.status = .RUNNING
    · obtain ⟨c, hcalls, -⟩ := ClipEnvelope.setRate_running (d := d) (w := a.clipEnvelope) r
      rw [← hrunning] at hcalls
      rw [Animation.tell, hcalls] at hpaused'
      have hstatus := (setCurrentRate_status (a := { a with
        clipEnvelope := (a.clipEnvelope.setRate d a.status r).1 }) c).symm.trans hpaused'
      exact absurd (hrunning.symm.trans hstatus) (by simp)
    · obtain ⟨hcalls, htells'⟩ :=
        ClipEnvelope.setRate_quiet (d := d) (w := a.clipEnvelope) hrunning r
      rw [Animation.tell, hcalls] at hpaused'
      rw [tell_clipEnvelope, htells'.heard, hcalls, hsame.lastPlayedForward]
      exact hpaused hpaused'

theorem Inv.setRate (h : Inv d a pausedRate) (now : ℤ) {r : ℚ} (hr : EPSILON < |r|) :
    Inv d (a.setRate d now r) pausedRate := by
  rw [Animation.setRate]
  split_ifs with hproperty hsame
  · subst hsame
    exact ⟨h.count, h.kind, h.cycleTicks, h.envelope, h.oldRate, h.rate, h.receives, h.running,
      h.paused⟩
  · rw [rateInvalidated]
    dsimp only
    rw [if_neg (not_lt_of_gt hr)]
    by_cases hrunning : a.status = .RUNNING
    · -- a running animation has a current rate that is not zero
      obtain ⟨heq, habs⟩ := h.running hrunning
      have hcurrent : ¬ |Animation.getCurrentRate { a with rate := some r }| < EPSILON := by
        have : |a.getCurrentRate| = |a.getRate| := by rw [heq, habs]
        exact not_lt_of_gt (this ▸ h.rate)
      rw [if_pos hrunning, if_neg hcurrent]
      obtain ⟨c, hc⟩ := setCurrentRate_eq { a with rate := some r }
        (if |Animation.getCurrentRate { a with rate := some r } - a.oldRate| < EPSILON then r else -r)
      rw [hc]
      exact Inv.tell_setRate h.count h.kind h.cycleTicks rfl rfl hr h.receives h.paused
    · rw [if_neg hrunning]
      exact Inv.tell_setRate h.count h.kind h.cycleTicks rfl rfl hr h.receives h.paused
  · exact h

/-- Other fields of a receiver. -/
theorem Inv.received (h : Inv d a pausedRate) {lastPulse startTime pauseTime : ℤ}
    {paused registered : Bool} (hreceives : registered = true → a.status = .RUNNING ∧ paused = false) :
    Inv d { a with
      lastPulse := lastPulse
      startTime := startTime
      pauseTime := pauseTime
      paused := paused
      registered := registered } pausedRate :=
  ⟨h.count, h.kind, h.cycleTicks, h.envelope, h.oldRate, h.rate, hreceives, h.running, h.paused⟩

/-- A stopped animation keeps the invariant through `syncClipEnvelope`. -/
theorem Inv.syncClipEnvelope (h : Inv d a pausedRate) (hstopped : a.status = .STOPPED) :
    Inv d (a.syncClipEnvelope d) pausedRate :=
  h.renewed hstopped h.count rfl rfl h.receives h.kind.renews
    (.inl (syncClipEnvelope_clipEnvelope h.count))

/-- The envelope of an animation that now runs is started. -/
theorem Inv.started (h : Inv d a pausedRate) {r : ClipEnvelope × List Call}
    (hr : Tells a.clipEnvelope a.clipEnvelope.rate r)
    (hcurrent : |r.1.currentRate| = |a.clipEnvelope.rate|) (hend : .finished ∉ r.2) :
    ∃ a', { (Animation.tell { a with status := .RUNNING } r).setCurrentRate r.1.currentRate with
        lastPulse := 0 } = a' ∧ a'.status = .RUNNING ∧ a'.getCycleDuration = a.getCycleDuration
      ∧ Inv d a' pausedRate := by
  have hreceives : Receives { a with status := .RUNNING } :=
    fun hregistered => ⟨rfl, (h.receives hregistered).2⟩
  have hsize := hr.size
  rw [h.envelope] at hsize hcurrent
  have hsame := tell_same (a := { a with status := .RUNNING }) r
  obtain ⟨hrate, hduration⟩ := hsame.settings
  obtain ⟨hstatus, -⟩ := foldl_accept_running
    (a := { a with status := .RUNNING, clipEnvelope := r.1 }) hsize h.rate hend
  have hsettings := tell_settings (a := { a with status := .RUNNING }) r
  have hclip := tell_clipEnvelope (a := { a with status := .RUNNING }) r
  have hreceives' := tell_receives hreceives r
  generalize hb : Animation.tell { a with status := .RUNNING } r = b
    at hsame hrate hduration hsettings hclip hreceives'
  have hbstatus : b.status = .RUNNING := by
    rw [← hb]
    exact hstatus
  have hget := getCurrentRate_setCurrentRate (a := b) (hcurrent.symm ▸ h.rate)
  obtain ⟨c, hc⟩ := setCurrentRate_eq b r.1.currentRate
  rw [hc] at hget ⊢
  refine ⟨_, rfl, hbstatus, hduration, ?_, ?_, ?_, ?_, ?_, ?_, hreceives', fun _ => ⟨?_, ?_⟩,
    fun hpaused => ?_⟩
  · exact (hsame.cycleCount ▸ h.count : 0 < b.cycleCount ∨ b.cycleCount = INDEFINITE)
  · change OfKind b.settings b.clipEnvelope
    rw [hsettings, hclip, hr.kind]
    exact h.kind
  · exact (congrArg ClipEnvelope.cycleTicks hclip).trans
      (hr.cycleTicks.trans (h.cycleTicks.trans (congrArg d.fromDuration hduration.symm)))
  · exact (congrArg ClipEnvelope.rate hclip).trans (hr.rate_eq.trans (h.envelope.trans hrate.symm))
  · exact hsame.oldRate.trans (h.oldRate.trans hrate.symm)
  · exact (hrate.symm ▸ h.rate : EPSILON < |b.getRate|)
  · exact hget.trans (congrArg ClipEnvelope.currentRate hclip).symm
  · exact (congrArg (fun w => |ClipEnvelope.currentRate w|) hclip).trans
      (hcurrent.trans (congrArg abs hrate.symm))
  · exact absurd (hbstatus.symm.trans hpaused) (by simp)

/-- **A stopped animation is started.** -/
theorem Inv.implStart (h : Inv d a pausedRate) (hstopped : a.status = .STOPPED)
    (hticks : 0 < d.fromDuration a.getCycleDuration) :
    ∃ a', a.implStart d = .ok a' ∧ a'.status = .RUNNING ∧ Inv d a' pausedRate := by
  have hsync := h.syncClipEnvelope hstopped
  obtain ⟨r, hstart, htells, habs, hend⟩ := ClipEnvelope.start_spec
    (w := (a.syncClipEnvelope d).clipEnvelope) (by rw [hsync.cycleTicks]; exact hticks)
  obtain ⟨a', ha', hrunning, -, hinv⟩ := hsync.started htells habs hend
  refine ⟨a', ?_, hrunning, hinv⟩
  rw [Animation.implStart]
  dsimp only
  rw [hstart, ok_bind, pure_eq_ok, tell_clipEnvelope, ← ha']

/-- **A paused animation goes on**: its current rate is the rate, or the opposite, and the
envelope stays as it is. -/
theorem Inv.play_paused (h : Inv d a pausedRate) (hpaused : a.status = .PAUSED) (now : ℤ) :
    ∃ c startTime paused registered,
      a.play d now = .ok { a with
        status := .RUNNING
        currentRate := c
        startTime := startTime
        paused := paused
        registered := registered }
      ∧ c.getD 0 = (if a.lastPlayedForward then a.getRate else -a.getRate)
      ∧ (registered = true → paused = false) := by
  have hrate := h.rate
  have hsize : EPSILON < |if a.lastPlayedForward then a.getRate else -a.getRate| := by
    split_ifs
    · exact hrate
    · rwa [abs_neg]
  have hget := getCurrentRate_setCurrentRate (a := { a with status := .RUNNING }) hsize
  obtain ⟨c, hc⟩ := setCurrentRate_eq { a with status := .RUNNING }
    (if a.lastPlayedForward then a.getRate else -a.getRate)
  rw [hc] at hget
  have hresume : a.implResume = { a with status := .RUNNING, currentRate := c } := hc
  rw [Animation.play, hpaused]
  dsimp only
  rw [hresume]
  have hcurrent : c.getD 0 = (if a.lastPlayedForward then a.getRate else -a.getRate) := hget
  have hpositive : |getRate { a with status := .RUNNING, currentRate := c }| ≥ EPSILON := hrate.le
  rw [if_pos hpositive, resumeReceiver]
  by_cases hwaits : a.paused = true
  · rw [if_pos hwaits]
    exact ⟨c, _, _, _, rfl, hcurrent, fun _ => rfl⟩
  · rw [if_neg hwaits]
    refine ⟨c, a.startTime, a.paused, a.registered, rfl, hcurrent, fun hregistered => ?_⟩
    exact (h.receives hregistered).2

/-- `play`, which does not throw; `pausedRate` is the rate with which the animation was
paused. -/
theorem Inv.play (h : Inv d a pausedRate) (now : ℤ)
    (hresume : a.status = .PAUSED → a.getRate = pausedRate) :
    ∃ a', a.play d now = .ok a' ∧ Inv d a' pausedRate := by
  have hrate := not_lt_of_gt h.rate
  cases hstatus : a.status with
  | RUNNING =>
    rw [Animation.play, hstatus]
    exact ⟨a, rfl, h⟩
  | STOPPED =>
    rw [Animation.play, hstatus]
    dsimp only
    by_cases hticks : d.fromDuration a.getCycleDuration > 0
    · rw [if_pos hticks]
      -- the animation may begin again from its start
      obtain ⟨b, hb, hbstatus, hbduration, hbinv⟩ : ∃ b,
          (if a.lastPlayedFinished then
            a.jumpTo d (if a.getRate < 0 then a.totalDuration else .ZERO) else a) = b
          ∧ b.status = .STOPPED ∧ b.getCycleDuration = a.getCycleDuration
          ∧ Inv d b pausedRate := by
        split_ifs
        · obtain ⟨hs, hsettings, -⟩ := jumpTo_stopped (d := d) hstatus h.count a.totalDuration
          exact ⟨_, rfl, hs, congrArg Settings.cycleDuration hsettings, h.jumpTo _⟩
        · obtain ⟨hs, hsettings, -⟩ := jumpTo_stopped (d := d) hstatus h.count .ZERO
          exact ⟨_, rfl, hs, congrArg Settings.cycleDuration hsettings, h.jumpTo _⟩
        · exact ⟨a, rfl, hstatus, rfl, h⟩
      obtain ⟨c, hc, hrunning, hinv⟩ := hbinv.implStart hbstatus (by rw [hbduration]; exact hticks)
      rw [hb, hc, ok_bind, if_neg hrate, pure_eq_ok]
      exact ⟨_, rfl, hinv.received (fun _ => ⟨hrunning, rfl⟩)⟩
    · rw [if_neg hticks]
      exact ⟨a, rfl, h⟩
  | PAUSED =>
    obtain ⟨c, startTime, paused, registered, hplay, hc, hreceives⟩ := h.play_paused hstatus now
    refine ⟨_, hplay, h.count, h.kind, h.cycleTicks, h.envelope, h.oldRate, h.rate,
      fun hregistered => ⟨rfl, hreceives hregistered⟩, fun _ => ?_, nofun⟩
    have hcurrent := h.paused hstatus
    rw [← hresume hstatus] at hcurrent
    refine ⟨hc.trans hcurrent.symm, ?_⟩
    dsimp only
    rw [hcurrent]
    split_ifs
    · rfl
    · exact abs_neg _

/-- `pause`, which remembers the direction, and so the current rate of the envelope. -/
theorem Inv.pause (h : Inv d a pausedRate) (now : ℤ) :
    Inv d (a.pause now) (if a.status = .RUNNING then a.getRate else pausedRate) := by
  rw [Animation.pause]
  split_ifs with hrunning
  · obtain ⟨heq, habs⟩ := h.running hrunning
    obtain ⟨pauseTime, hpause⟩ : ∃ pauseTime, a.pauseReceiver now
        = { a with pauseTime := pauseTime, paused := true, registered := false } := by
      cases hpaused : a.paused with
      | false =>
        rw [pauseReceiver, hpaused]
        exact ⟨now, rfl⟩
      | true =>
        have hregistered : a.registered = false := by
          by_contra hregistered
          rw [(h.receives (Bool.eq_true_of_not_eq_false hregistered)).2] at hpaused
          cases hpaused
        refine ⟨a.pauseTime, ?_⟩
        rw [pauseReceiver, if_neg (by rw [hpaused]; simp), ← hpaused, ← hregistered]
    obtain ⟨c, hc⟩ := setCurrentRate_eq { a with
      pauseTime := pauseTime
      paused := true
      registered := false
      lastPlayedForward := |a.getCurrentRate - a.getRate| < EPSILON } 0
    have hpositive : |getCurrentRate { a with
        pauseTime := pauseTime, paused := true, registered := false }| ≥ EPSILON := by
      change EPSILON ≤ |a.getCurrentRate|
      rw [heq, habs]
      exact h.rate.le
    rw [hpause, implPause]
    dsimp only
    rw [if_pos hpositive]
    change Inv d { setCurrentRate { a with
      pauseTime := pauseTime
      paused := true
      registered := false
      lastPlayedForward := |a.getCurrentRate - a.getRate| < EPSILON } 0 with status := .PAUSED } _
    rw [hc]
    refine ⟨h.count, h.kind, h.cycleTicks, h.envelope, h.oldRate, h.rate, nofun, nofun, fun _ => ?_⟩
    dsimp only
    rw [heq]
    -- the current rate is the rate or the opposite, which are not near each other
    rcases abs_eq_abs.mp habs with hforward | hbackward
    · rw [hforward, sub_self, abs_zero, decide_eq_true (by rw [EPSILON]; norm_num)]
      rfl
    · have hfar : ¬ |-a.getRate - a.getRate| < EPSILON := by
        have hdouble : |-a.getRate - a.getRate| = 2 * |a.getRate| := by
          rw [← neg_add', abs_neg, ← two_mul, abs_mul, abs_two]
        have := h.rate
        have hpos := abs_nonneg a.getRate
        rw [hdouble]
        linarith
      rw [hbackward, decide_eq_false hfar]
      rfl
  · exact h

theorem Inv.stop (h : Inv d a pausedRate) : Inv d (a.stop d) pausedRate := by
  rw [Animation.stop]
  split_ifs with hstatus
  · refine Inv.jumpTo ?_ _
    obtain ⟨c, hc⟩ := setCurrentRate_eq
      { a with registered := a.registered && a.paused, status := .STOPPED } 0
    have hreceives := implStop_receives h.receives
    rw [implStop, hc] at hreceives ⊢
    exact ⟨h.count, h.kind, h.cycleTicks, h.envelope, h.oldRate, h.rate, hreceives,
      by rintro ⟨⟩, by rintro ⟨⟩⟩
  · exact h

theorem Inv.timePulse (h : Inv d a pausedRate) (now : ℤ) :
    Inv d (a.timePulse d now) pausedRate := by
  rw [Animation.timePulse]
  split_ifs with hregistered helapsed
  · exact h
  · obtain ⟨hrunning, -⟩ := h.receives hregistered
    have hquiet : ∀ {P : Prop}, a.status ≠ .RUNNING → P := fun hne => absurd hrunning hne
    have habs : |a.clipEnvelope.currentRate| = |a.clipEnvelope.rate| := by
      rw [h.envelope]
      exact (h.running hrunning).2
    have htells := ClipEnvelope.timePulse_tells (d := d) habs (now - a.startTime)
    rw [implTimePulse]
    split_ifs
    · exact h.tell htells hquiet
    · have h₀ := @Inv.received d a pausedRate h ((now - a.startTime).tdiv a.resolution * a.resolution)
        a.startTime a.pauseTime a.paused a.registered h.receives
      exact h₀.tell htells hquiet
    · exact h
  · exact h

/-! ## Runs -/

/-- The animations that calls lead to, each with the rate with which it was last paused. In a
`careful` run no rate is within `EPSILON` of zero, the settings of the stopped animation
renew its envelope, and it goes on with the rate with which it was paused. -/
inductive Reached (d : Arithmetic) (careful : Prop) : Animation → ℚ → Prop
  | new (resolution : ℤ) (delay : Duration) : Reached d careful (Animation.new d resolution delay) 1
  | change {a a' : Animation} {pausedRate : ℚ} {c : Change} (h : Reached d careful a pausedRate)
      (hstopped : a.status = .STOPPED) (hvalid : c.Valid) (hchange : a.change d c = .ok a')
      (hrenews : careful → c.Syncs a → Renews a'.settings a.clipEnvelope) :
      Reached d careful a' pausedRate
  | jumpTo {a : Animation} {pausedRate : ℚ} (time : Duration) (h : Reached d careful a pausedRate) :
      Reached d careful (a.jumpTo d time) pausedRate
  | setRate {a : Animation} {pausedRate : ℚ} (now : ℤ) (rate : ℚ)
      (h : Reached d careful a pausedRate) (hrate : rate ≠ 0)
      (hlarge : careful → EPSILON < |rate|) : Reached d careful (a.setRate d now rate) pausedRate
  | play {a a' : Animation} {pausedRate : ℚ} (now : ℤ) (h : Reached d careful a pausedRate)
      (hresume : careful → a.status = .PAUSED → a.getRate = pausedRate)
      (hplay : a.play d now = .ok a') : Reached d careful a' pausedRate
  | pause {a : Animation} {pausedRate : ℚ} (now : ℤ) (h : Reached d careful a pausedRate) :
      Reached d careful (a.pause now) (if a.status = .RUNNING then a.getRate else pausedRate)
  | stop {a : Animation} {pausedRate : ℚ} (h : Reached d careful a pausedRate) :
      Reached d careful (a.stop d) pausedRate
  | timePulse {a : Animation} {pausedRate : ℚ} (now : ℤ) (h : Reached d careful a pausedRate) :
      Reached d careful (a.timePulse d now) pausedRate

theorem Reached.inv (h : Reached d True a pausedRate) : Inv d a pausedRate := by
  induction h with
  | new resolution delay => exact Inv.new resolution delay 1
  | change _ hstopped hvalid hchange hrenews ih =>
    exact ih.change hstopped hvalid hchange (hrenews trivial)
  | jumpTo time _ ih => exact ih.jumpTo time
  | setRate now rate _ _ hlarge ih => exact ih.setRate now (hlarge trivial)
  | play now _ hresume hplay ih =>
    obtain ⟨b, hb, hinv⟩ := ih.play now (hresume trivial)
    obtain rfl := Except.ok.inj (hplay.symm.trans hb)
    exact hinv
  | pause now _ ih => exact ih.pause now
  | stop _ ih => exact ih.stop
  | timePulse now _ ih => exact ih.timePulse now

/-! ## Main result -/

/-- **The two current rates agree** while an animation runs, in every careful run; and they
agree after a pause exactly if the animation goes on with the rate it was paused with. -/
theorem currentRate_agrees (h : Reached d True a pausedRate) :
    (a.status = .RUNNING → a.clipEnvelope.currentRate = a.getCurrentRate)
      ∧ (a.status = .PAUSED → ∀ now, ∃ a', a.play d now = .ok a' ∧ a'.status = .RUNNING
        ∧ (a'.clipEnvelope.currentRate = a'.getCurrentRate ↔ a.getRate = pausedRate)) := by
  have hinv := h.inv
  refine ⟨fun hrunning => (hinv.running hrunning).1.symm, fun hpaused now => ?_⟩
  obtain ⟨c, startTime, paused, registered, hplay, hc, -⟩ := hinv.play_paused hpaused now
  refine ⟨_, hplay, rfl, ?_⟩
  change a.clipEnvelope.currentRate = c.getD 0 ↔ a.getRate = pausedRate
  rw [hinv.paused hpaused, hc]
  split_ifs
  · exact eq_comm
  · rw [neg_inj, eq_comm]

/-- An animation that lasts a second. -/
def second : Animation :=
  Animation.updateTotalDuration exact
    { Animation.new exact 1 .ZERO with cycleDuration := some (.millis 1000) }

theorem second_reached (careful : Prop) : Reached exact careful second 1 :=
  .change (c := .cycleDuration (.millis 1000)) (.new 1 .ZERO) rfl trivial rfl
    (fun _ _ => by decide +kernel)

theorem currentRate_agrees_paused :
    ∃ a : Animation, a.status = .PAUSED ∧ ∀ now, ∃ a', a.play exact now = .ok a'
      ∧ a'.status = .RUNNING ∧ a'.clipEnvelope.currentRate = a'.getCurrentRate := by
  have hrun : (second.play exact 0).toOption.map (fun a => (a.status, (a.pause 1).status,
      a.getRate, (a.pause 1).getRate)) = some (.RUNNING, .PAUSED, 1, 1) := by decide +kernel
  cases hplay : second.play exact 0 with
  | error e =>
    rw [hplay] at hrun
    cases hrun
  | ok a =>
    rw [hplay] at hrun
    obtain ⟨hrunning, hpaused, hrate, hrate'⟩ :
        a.status = .RUNNING ∧ (a.pause 1).status = .PAUSED ∧ a.getRate = 1
          ∧ (a.pause 1).getRate = 1 := by
      simpa [Except.toOption] using hrun
    have hreached : Reached exact True (a.pause 1) 1 := by
      have h := Reached.pause 1 (.play 0 (second_reached True)
        (fun _ h => absurd h (by decide +kernel)) hplay)
      rwa [if_pos hrunning, hrate] at h
    refine ⟨a.pause 1, hpaused, fun now => ?_⟩
    obtain ⟨a', hresumed, hrunning', hiff⟩ := (currentRate_agrees hreached).2 hpaused now
    exact ⟨a', hresumed, hrunning', hiff.mpr hrate'⟩

/-- The rate is inverted while the animation is paused: its envelope goes on forwards. -/
theorem currentRate_disagrees :
    ∃ a pausedRate, Reached exact False a pausedRate ∧ a.status = .RUNNING
      ∧ a.clipEnvelope.currentRate = 1 ∧ a.getCurrentRate = -1 := by
  have hrun : (second.play exact 0).toOption.bind (fun a =>
      (((a.pause 1).setRate exact 2 (-1)).play exact 3).toOption.map (fun b =>
        (b.status, b.clipEnvelope.currentRate, b.getCurrentRate))) = some (.RUNNING, 1, -1) := by
    decide +kernel
  cases hplay : second.play exact 0 with
  | error e =>
    rw [hplay] at hrun
    cases hrun
  | ok a =>
    rw [hplay] at hrun
    dsimp only [Except.toOption, Option.bind_some] at hrun
    cases hplay' : ((a.pause 1).setRate exact 2 (-1)).play exact 3 with
    | error e =>
      rw [hplay'] at hrun
      cases hrun
    | ok b =>
      rw [hplay'] at hrun
      refine ⟨b, _, .play 3 (.setRate 2 (-1) (.pause 1 (.play 0 (second_reached False)
        (fun h => h.elim) hplay)) (by norm_num) (fun h => h.elim)) (fun h => h.elim) hplay', ?_⟩
      simpa using hrun

end Animation

end JavaFx.Animation
