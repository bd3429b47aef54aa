/-
The envelope that `syncClipEnvelope` gives a stopped animation.

`Fits` says which envelope an animation should have. The envelope that `setCycleDuration`
returns is dropped, so a call leaves the old envelope where the new duration asks for
another kind; `Renews` says of the envelope before the call when this does not happen.
-/
import JavaFx.Animation.Animation

set_option autoImplicit false
set_option linter.dupNamespace false

namespace JavaFx.Animation

open JavaFx.Lib

variable {d : Arithmetic} {a a' : Animation} {s : Settings}

/-- Jumping keeps the cycles and the rate. -/
theorem FiniteClipEnvelope.jumpTo_keeps (w : FiniteClipEnvelope) (newTicks : ℤ) :
    (w.jumpTo newTicks).cycleTicks = w.cycleTicks
      ∧ (w.jumpTo newTicks).totalTicks = w.totalTicks ∧ (w.jumpTo newTicks).rate = w.rate := by
  rw [FiniteClipEnvelope.jumpTo]
  dsimp only
  split_ifs
  all_goals first | exact ⟨rfl, rfl, rfl⟩ | split <;> exact ⟨rfl, rfl, rfl⟩

namespace ClipEnvelope

variable {w : ClipEnvelope}

/-- One cycle is enough for the settings. -/
def Single (s : Settings) : Prop := s.cycleCount = 1 ∨ s.cycleDuration = .indefinite

instance (s : Settings) : Decidable (Single s) :=
  inferInstanceAs (Decidable (s.cycleCount = 1 ∨ s.cycleDuration = .indefinite))

/-- The kind of the envelope is that which the settings ask for. -/
def OfKind (s : Settings) : ClipEnvelope → Prop
  | .singleLoop _ => Single s
  | .infinite _ => ¬ Single s ∧ s.cycleCount = INDEFINITE
  | .finite _ => ¬ Single s ∧ s.cycleCount ≠ INDEFINITE

instance (s : Settings) : (w : ClipEnvelope) → Decidable (OfKind s w)
  | .singleLoop _ => inferInstanceAs (Decidable (Single s))
  | .infinite _ => inferInstanceAs (Decidable (¬ Single s ∧ s.cycleCount = INDEFINITE))
  | .finite _ => inferInstanceAs (Decidable (¬ Single s ∧ s.cycleCount ≠ INDEFINITE))

/-- The ticks of all cycles, of an envelope that has them. -/
def totalTicks : ClipEnvelope → Option ℤ
  | .finite w => some w.totalTicks
  | _ => none

/-- The envelope is the one that the settings ask for. -/
def Fits (d : Arithmetic) (s : Settings) (w : ClipEnvelope) : Prop :=
  OfKind s w ∧ w.cycleTicks = d.fromDuration s.cycleDuration
    ∧ ∀ t ∈ w.totalTicks, t = s.cycleCount * w.cycleTicks

instance (d : Arithmetic) (s : Settings) (w : ClipEnvelope) : Decidable (Fits d s w) :=
  inferInstanceAs (Decidable (OfKind s w ∧ w.cycleTicks = d.fromDuration s.cycleDuration
    ∧ ∀ t ∈ w.totalTicks, t = s.cycleCount * w.cycleTicks))

/-- The total ticks of a finite number of cycles are a `long`. -/
def TotalFits (d : Arithmetic) (s : Settings) : Prop :=
  ¬ Single s → s.cycleCount ≠ INDEFINITE →
    toLong (s.cycleCount * d.fromDuration s.cycleDuration)
      = s.cycleCount * d.fromDuration s.cycleDuration

/-- The envelope is replaced by one of another kind, if the settings ask for it: an envelope
of one cycle because of its cycle count, with a cycle that was not indefinite until now,
and every other envelope because of its cycle count as well. -/
def Renews (s : Settings) : ClipEnvelope → Prop
  | .singleLoop w => Single s ∨ w.cycleTicks ≠ MAX_TICKS
  | .infinite _ => s.cycleDuration = .indefinite → s.cycleCount ≠ INDEFINITE
  | .finite _ => s.cycleDuration = .indefinite → s.cycleCount = 1 ∨ s.cycleCount = INDEFINITE

instance (s : Settings) : (w : ClipEnvelope) → Decidable (Renews s w)
  | .singleLoop w => inferInstanceAs (Decidable (Single s ∨ w.cycleTicks ≠ MAX_TICKS))
  | .infinite _ =>
    inferInstanceAs (Decidable (s.cycleDuration = .indefinite → s.cycleCount ≠ INDEFINITE))
  | .finite _ =>
    inferInstanceAs (Decidable (s.cycleDuration = .indefinite →
      s.cycleCount = 1 ∨ s.cycleCount = INDEFINITE))

/-- An envelope of the right kind stays one. -/
theorem OfKind.renews (h : OfKind s w) : Renews s w := by
  cases w with
  | singleLoop w => exact .inl h
  | infinite w => exact fun hindefinite => absurd (.inr hindefinite) h.1
  | finite w => exact fun hindefinite => absurd (.inr hindefinite) h.1

/-- The envelope with the ticks of the settings: what is left to say of it. -/
def Renewed (d : Arithmetic) (s : Settings) (w : ClipEnvelope) : Prop :=
  OfKind s w ∧ w.cycleTicks = d.fromDuration s.cycleDuration
    ∧ ∀ t ∈ w.totalTicks, t = toLong (s.cycleCount * d.fromDuration s.cycleDuration)

/-- What `syncClipEnvelope` makes of an envelope, for a count that is one. -/
def sync (d : Arithmetic) (s : Settings) (w : ClipEnvelope) : ClipEnvelope :=
  ((w.setCycleCount d s s.cycleCount).setCycleDuration d s s.cycleDuration).1.setAutoReverse
    s.autoReverse

theorem renewed_setAutoReverse (b : Bool) : Renewed d s (w.setAutoReverse b) ↔ Renewed d s w := by
  cases w <;> rfl

theorem ofKind_setAutoReverse (b : Bool) : OfKind s (w.setAutoReverse b) ↔ OfKind s w := by
  cases w <;> rfl

theorem renewed_singleLoop {w : SingleLoopClipEnvelope} (hsingle : Single s) :
    Renewed d s (.singleLoop { w with cycleTicks := d.fromDuration s.cycleDuration }) :=
  ⟨hsingle, rfl, fun t ht => by cases ht⟩

/-- After `create`, the new duration is that of the envelope already. -/
theorem renewed_create (s : Settings) :
    Renewed d s ((create d s).setCycleDuration d s s.cycleDuration).1 := by
  rw [create]
  split_ifs with hsingle hcount
  · have hkeep : ¬ (s.cycleCount ≠ 1 ∧ s.cycleDuration ≠ .indefinite) := by
      rw [not_and_or, not_not, not_not]
      exact hsingle
    rw [setCycleDuration, SingleLoopClipEnvelope.new, if_neg hkeep]
    exact renewed_singleLoop hsingle
  · rw [setCycleDuration, if_neg (fun h => hsingle (.inr h))]
    exact ⟨⟨hsingle, hcount⟩, rfl, fun t ht => by cases ht⟩
  · rw [setCycleDuration, if_neg (fun h => hsingle (.inr h))]
    refine ⟨⟨hsingle, hcount⟩, rfl, fun t ht => ?_⟩
    exact (Option.mem_some_iff.mp ht).symm

/-- **An envelope that is renewed** is of the right kind, with the ticks of the settings. -/
theorem Renews.renewed (h : Renews s w) : Renewed d s (w.sync d s) := by
  rw [sync, renewed_setAutoReverse]
  cases w with
  | singleLoop w =>
    rw [setCycleCount]
    by_cases hcreate : s.cycleCount ≠ 1 ∧ w.cycleTicks ≠ MAX_TICKS
    · rw [if_pos hcreate]
      exact renewed_create s
    · have hsingle : Single s :=
        h.elim id (fun hticks => .inl (not_not.mp (fun hne => hcreate ⟨hne, hticks⟩)))
      have hkeep : ¬ (s.cycleCount ≠ 1 ∧ s.cycleDuration ≠ .indefinite) := by
        rw [not_and_or, not_not, not_not]
        exact hsingle
      rw [if_neg hcreate, setCycleDuration, if_neg hkeep]
      exact renewed_singleLoop hsingle
  | infinite w =>
    rw [setCycleCount]
    by_cases hcreate : s.cycleCount ≠ INDEFINITE
    · rw [if_pos hcreate]
      exact renewed_create s
    · have hdefinite : s.cycleDuration ≠ .indefinite := fun hdrop => hcreate (h hdrop)
      rw [if_neg hcreate, setCycleDuration, if_neg hdefinite]
      rw [not_not] at hcreate
      refine ⟨⟨fun hsingle => ?_, hcreate⟩, rfl, fun t ht => by cases ht⟩
      rw [Single, hcreate] at hsingle
      exact hsingle.elim (by decide) hdefinite
  | finite w =>
    rw [setCycleCount]
    by_cases hcreate : s.cycleCount = 1 ∨ s.cycleCount = INDEFINITE
    · rw [if_pos hcreate]
      exact renewed_create s
    · have hdefinite : s.cycleDuration ≠ .indefinite := fun hdrop => hcreate (h hdrop)
      rw [if_neg hcreate, setCycleDuration, if_neg hdefinite]
      rw [not_or] at hcreate
      refine ⟨⟨fun hsingle => hsingle.elim hcreate.1 hdefinite, hcreate.2⟩, rfl, fun t ht => ?_⟩
      exact (Option.mem_some_iff.mp ht).symm

/-- An envelope that is not renewed stays of the wrong kind: the one that `setCycleDuration`
creates is dropped. -/
theorem renews_of_ofKind_sync (h : OfKind s (w.sync d s)) : Renews s w := by
  rw [sync, ofKind_setAutoReverse] at h
  cases w with
  | singleLoop w =>
    by_contra hnot
    obtain ⟨hsingle, hticks⟩ := not_or.mp hnot
    have hdrop : s.cycleCount ≠ 1 ∧ s.cycleDuration ≠ .indefinite := not_or.mp hsingle
    rw [setCycleCount, if_neg (fun hcreate => hticks hcreate.2), setCycleDuration,
      if_pos hdrop] at h
    exact hsingle h
  | infinite w =>
    intro hdrop hcount
    rw [setCycleCount, if_neg (not_not.mpr hcount), setCycleDuration, if_pos hdrop] at h
    exact h.1 (.inr hdrop)
  | finite w =>
    intro hdrop
    by_contra hcount
    rw [setCycleCount, if_neg hcount, setCycleDuration, if_pos hdrop] at h
    exact h.1 (.inr hdrop)

/-- **The envelope after a call** fits exactly if the one before is renewed, and the total
ticks are a `long`. -/
theorem fits_sync_iff (s : Settings) (w : ClipEnvelope) :
    Fits d s (w.sync d s) ↔ Renews s w ∧ TotalFits d s := by
  constructor
  · rintro ⟨hkind, hticks, htotal⟩
    have hrenews := renews_of_ofKind_sync hkind
    obtain ⟨-, -, hwrapped⟩ := hrenews.renewed (d := d)
    refine ⟨hrenews, fun hsingle hcount => ?_⟩
    cases hw : w.sync d s with
    | singleLoop w' =>
      rw [hw] at hkind
      exact absurd hkind hsingle
    | infinite w' =>
      rw [hw] at hkind
      exact absurd hkind.2 hcount
    | finite w' =>
      rw [hw] at htotal hwrapped hticks
      rw [← hwrapped _ rfl, ← hticks]
      exact htotal _ rfl
  · rintro ⟨hrenews, hlong⟩
    obtain ⟨hkind, hticks, hwrapped⟩ := hrenews.renewed (d := d)
    refine ⟨hkind, hticks, fun t ht => ?_⟩
    rw [hwrapped t ht, hticks]
    cases hw : w.sync d s with
    | singleLoop w' =>
      rw [hw] at ht
      cases ht
    | infinite w' =>
      rw [hw] at ht
      cases ht
    | finite w' =>
      rw [hw] at hkind
      exact hlong hkind.1 hkind.2

/-- Jumping keeps the kind of the envelope and its cycles. -/
theorem fits_jumpTo (status : Status) (ticks : ℤ) :
    Fits d s (w.jumpTo status ticks).1 ↔ Fits d s w := by
  cases w with
  | singleLoop w =>
    rw [jumpTo, SingleLoopClipEnvelope.jumpTo]
    split_ifs <;> rfl
  | infinite w =>
    rw [jumpTo, InfiniteClipEnvelope.jumpTo]
    dsimp only
    split_ifs <;> rfl
  | finite w =>
    obtain ⟨hcycle, htotal, -⟩ :=
      FiniteClipEnvelope.jumpTo_keeps { w with status := status } ticks
    rw [jumpTo]
    dsimp only
    rw [Fits, cycleTicks, totalTicks, hcycle, htotal]
    rfl

/-- The envelope after a jump, or after none. -/
def Jumped (w w' : ClipEnvelope) : Prop := w' = w ∨ ∃ status t, w' = (w.jumpTo status t).1

theorem Jumped.fits_iff {w' : ClipEnvelope} (h : w.Jumped w') (s : Settings) :
    Fits d s w' ↔ Fits d s w := by
  rcases h with rfl | ⟨status, t, rfl⟩
  · exact Iff.rfl
  · exact fits_jumpTo status t

end ClipEnvelope

namespace Animation

/-! ## What a call of the envelope leaves alone -/

@[simp] theorem setCurrentRate_clipEnvelope (value : ℚ) :
    (a.setCurrentRate value).clipEnvelope = a.clipEnvelope := by
  rw [setCurrentRate]
  split_ifs <;> rfl

@[simp] theorem setCurrentRate_settings (value : ℚ) :
    (a.setCurrentRate value).settings = a.settings := by
  rw [setCurrentRate]
  split_ifs <;> rfl

@[simp] theorem accept_clipEnvelope (c : Call) : (a.accept c).clipEnvelope = a.clipEnvelope := by
  cases c <;> simp [accept, implFinished, implStop]

@[simp] theorem accept_settings (c : Call) : (a.accept c).settings = a.settings := by
  cases c with
  | setCurrentRate currentRate => exact setCurrentRate_settings currentRate
  | playTo ticks => rfl
  | jumpTo ticks => rfl
  | finished =>
    rw [accept, implFinished, implStop, setCurrentRate_settings]
    rfl

theorem foldl_accept_clipEnvelope (calls : List Call) :
    (calls.foldl accept a).clipEnvelope = a.clipEnvelope := by
  induction calls generalizing a with
  | nil => rfl
  | cons c calls ih => rw [List.foldl_cons, ih, accept_clipEnvelope]

theorem foldl_accept_settings (calls : List Call) :
    (calls.foldl accept a).settings = a.settings := by
  induction calls generalizing a with
  | nil => rfl
  | cons c calls ih => rw [List.foldl_cons, ih, accept_settings]

@[simp] theorem tell_clipEnvelope (r : ClipEnvelope × List Call) :
    (a.tell r).clipEnvelope = r.1 := foldl_accept_clipEnvelope r.2

@[simp] theorem tell_settings (r : ClipEnvelope × List Call) : (a.tell r).settings = a.settings :=
  foldl_accept_settings r.2

/-! ## Runs -/

/-- What can be done to a stopped animation, short of playing it. -/
inductive Change
  | cycleCount (value : ℤ)
  | cycleDuration (value : Duration)
  | autoReverse (value : Bool)
  | jumpTo (time : Duration)
  | sync

def change (d : Arithmetic) (a : Animation) : Change → Except Thrown Animation
  | .cycleCount value => .ok (a.setCycleCount d value)
  | .cycleDuration value => a.setCycleDuration d value
  | .autoReverse value => .ok (a.setAutoReverse value)
  | .jumpTo time => .ok (a.jumpTo d time)
  | .sync => .ok (a.syncClipEnvelope d)

/-- Cycle counts are positive or `INDEFINITE`. -/
def Change.Valid : Change → Prop
  | .cycleCount value => 0 < value ∨ value = INDEFINITE
  | _ => True

/-- The change calls `syncClipEnvelope`. -/
def Change.Syncs (a : Animation) : Change → Prop
  | .cycleCount value => value ≠ a.cycleCount
  | .cycleDuration value => a.cycleDuration.isSome ∨ value ≠ .ZERO
  | .autoReverse _ => False
  | .jumpTo _ => True
  | .sync => True

/-- The stopped animations that changes lead to. -/
inductive Configured (d : Arithmetic) : Animation → Prop
  | new (resolution : ℤ) (delay : Duration) : Configured d (Animation.new d resolution delay)
  | change {a a' : Animation} {c : Change} (h : Configured d a) (hvalid : c.Valid)
      (hchange : a.change d c = .ok a') : Configured d a'

theorem syncClipEnvelope_clipEnvelope (hcount : 0 < a.cycleCount ∨ a.cycleCount = INDEFINITE) :
    (a.syncClipEnvelope d).clipEnvelope = a.clipEnvelope.sync d a.settings := by
  have hinternal : ¬ (a.cycleCount ≤ 0 ∧ a.cycleCount ≠ INDEFINITE) := by
    rintro ⟨hle, hne⟩
    exact hcount.elim (by omega) hne
  rw [syncClipEnvelope, if_neg hinternal]
  rfl

theorem syncClipEnvelope_settings : (a.syncClipEnvelope d).settings = a.settings := rfl

theorem setCurrentRate_status (value : ℚ) : (a.setCurrentRate value).status = a.status := by
  rw [setCurrentRate]
  split_ifs <;> rfl

/-- An animation that is stopped stays so. -/
theorem tell_stopped (hstopped : a.status = .STOPPED) (r : ClipEnvelope × List Call) :
    (a.tell r).status = .STOPPED := by
  have hfold : ∀ (calls : List Call) (b : Animation), b.status = .STOPPED →
      (calls.foldl accept b).status = .STOPPED := by
    intro calls
    induction calls with
    | nil => exact fun b hb => hb
    | cons c calls ih =>
      intro b hb
      refine ih _ ?_
      cases c with
      | setCurrentRate currentRate => exact (setCurrentRate_status currentRate).trans hb
      | playTo ticks => exact hb
      | jumpTo ticks => exact hb
      | finished => exact setCurrentRate_status 0
  exact hfold r.2 _ hstopped

theorem settings_cycleCount : a.settings.cycleCount = a.cycleCount := rfl

theorem settings_rate : a.settings.rate = a.getRate := rfl

/-- Setting the total duration of a stopped animation. -/
theorem updateTotalDuration_spec (hstopped : a.status = .STOPPED)
    (hcount : 0 < a.cycleCount ∨ a.cycleCount = INDEFINITE) :
    (a.updateTotalDuration d).status = .STOPPED
      ∧ (a.updateTotalDuration d).settings = a.settings
      ∧ (a.clipEnvelope.sync d a.settings).Jumped (a.updateTotalDuration d).clipEnvelope := by
  have hsync : ({ a with totalDuration := a.newTotalDuration d }.syncClipEnvelope d).clipEnvelope
      = a.clipEnvelope.sync d a.settings := syncClipEnvelope_clipEnvelope hcount
  rw [updateTotalDuration]
  dsimp only
  rw [if_pos hstopped]
  split_ifs
  · refine ⟨?_, ?_, .inr ⟨.STOPPED, d.fromDuration (a.newTotalDuration d), ?_⟩⟩
    · apply tell_stopped
      exact hstopped
    · rw [tell_settings]
      rfl
    · have hstatus : ({ a with totalDuration := a.newTotalDuration d }.syncClipEnvelope d).status
          = .STOPPED := hstopped
      rw [tell_clipEnvelope, hsync, hstatus]
  · exact ⟨hstopped, rfl, .inl hsync⟩

/-- Jumping with a stopped animation. -/
theorem jumpTo_stopped (hstopped : a.status = .STOPPED)
    (hcount : 0 < a.cycleCount ∨ a.cycleCount = INDEFINITE) (time : Duration) :
    (a.jumpTo d time).status = .STOPPED ∧ (a.jumpTo d time).settings = a.settings
      ∧ (a.clipEnvelope.sync d a.settings).Jumped (a.jumpTo d time).clipEnvelope := by
  have hsync : ({ a with lastPlayedFinished := false }.syncClipEnvelope d).clipEnvelope
      = a.clipEnvelope.sync d a.settings := syncClipEnvelope_clipEnvelope hcount
  have hstatus : ({ a with lastPlayedFinished := false }.syncClipEnvelope d).status = .STOPPED :=
    hstopped
  rw [jumpTo]
  dsimp only
  rw [if_pos hstopped]
  refine ⟨?_, ?_, ?_⟩
  · apply tell_stopped
    exact hstopped
  · rw [tell_settings]
    rfl
  · rw [tell_clipEnvelope, hsync, hstatus]
    exact .inr ⟨_, _, rfl⟩

/-- A change of a stopped animation. -/
theorem change_spec {c : Change} (hstopped : a.status = .STOPPED)
    (hcount : 0 < a.cycleCount ∨ a.cycleCount = INDEFINITE) (hvalid : c.Valid)
    (hchange : a.change d c = .ok a') :
    a'.status = .STOPPED ∧ (0 < a'.cycleCount ∨ a'.cycleCount = INDEFINITE)
      ∧ a'.getRate = a.getRate
      ∧ (c.Syncs a → (a.clipEnvelope.sync d a'.settings).Jumped a'.clipEnvelope)
      ∧ (¬ c.Syncs a → a'.clipEnvelope = a.clipEnvelope ∧ a'.cycleCount = a.cycleCount
        ∧ a'.getCycleDuration = a.getCycleDuration) := by
  cases c with
  | cycleCount value =>
    obtain rfl := Except.ok.inj hchange
    rw [setCycleCount]
    by_cases hvalue : value = a.cycleCount
    · rw [if_pos hvalue]
      exact ⟨hstopped, hcount, rfl, fun hsyncs => absurd hvalue hsyncs, fun _ => ⟨rfl, rfl, rfl⟩⟩
    · obtain ⟨hstatus, hsettings, hjumped⟩ := updateTotalDuration_spec (d := d)
        (a := { a with cycleCount := value }) hstopped hvalid
      rw [if_neg hvalue]
      refine ⟨hstatus, ?_, ?_, fun _ => ?_, fun hsyncs => absurd hvalue hsyncs⟩
      · rw [← settings_cycleCount, hsettings]
        exact hvalid
      · rw [← settings_rate, hsettings]
        rfl
      · rw [hsettings]
        exact hjumped
  | cycleDuration value =>
    rw [change, setCycleDuration] at hchange
    split_ifs at hchange with hset
    · obtain rfl := Except.ok.inj hchange
      obtain ⟨hstatus, hsettings, hjumped⟩ := updateTotalDuration_spec (d := d)
        (a := { a with cycleDuration := some value }) hstopped hcount
      refine ⟨hstatus, ?_, ?_, fun _ => ?_, fun hsyncs => absurd hset hsyncs⟩
      · rw [← settings_cycleCount, hsettings]
        exact hcount
      · rw [← settings_rate, hsettings]
        rfl
      · rw [hsettings]
        exact hjumped
    · obtain rfl := Except.ok.inj hchange
      exact ⟨hstopped, hcount, rfl, fun hsyncs => absurd hsyncs hset, fun _ => ⟨rfl, rfl, rfl⟩⟩
  | autoReverse value =>
    obtain rfl := Except.ok.inj hchange
    exact ⟨hstopped, hcount, rfl, fun hsyncs => hsyncs.elim, fun _ => ⟨rfl, rfl, rfl⟩⟩
  | jumpTo time =>
    obtain rfl := Except.ok.inj hchange
    obtain ⟨hstatus, hsettings, hjumped⟩ := jumpTo_stopped (d := d) hstopped hcount time
    refine ⟨hstatus, ?_, ?_, fun _ => ?_, fun hsyncs => absurd trivial hsyncs⟩
    · rw [← settings_cycleCount, hsettings]
      exact hcount
    · rw [← settings_rate, hsettings]
      rfl
    · rw [hsettings]
      exact hjumped
  | sync =>
    obtain rfl := Except.ok.inj hchange
    exact ⟨hstopped, hcount, rfl, fun _ => .inl (syncClipEnvelope_clipEnvelope hcount),
      fun hsyncs => absurd trivial hsyncs⟩

theorem Configured.stopped (h : Configured d a) :
    a.status = .STOPPED ∧ (0 < a.cycleCount ∨ a.cycleCount = INDEFINITE) := by
  induction h with
  | new resolution delay => exact ⟨rfl, .inl Int.one_pos⟩
  | change _ hvalid hchange ih =>
    obtain ⟨hstatus, hcount, -⟩ := change_spec ih.1 ih.2 hvalid hchange
    exact ⟨hstatus, hcount⟩

/-! ## Main result -/

/-- **The envelope after `syncClipEnvelope`**, in every run of changes: it fits the
settings exactly if the envelope before was renewed, and the total ticks are a `long`. -/
theorem clipEnvelope_fits_iff {c : Change} (h : Configured d a) (hvalid : c.Valid)
    (hchange : a.change d c = .ok a') (hsyncs : c.Syncs a) :
    ClipEnvelope.Fits d a'.settings a'.clipEnvelope
      ↔ ClipEnvelope.Renews a'.settings a.clipEnvelope ∧ ClipEnvelope.TotalFits d a'.settings := by
  obtain ⟨hstopped, hcount⟩ := h.stopped
  obtain ⟨-, -, -, hjumped, -⟩ := change_spec hstopped hcount hvalid hchange
  exact ((hjumped hsyncs).fits_iff _).trans (ClipEnvelope.fits_sync_iff _ _)

theorem clipEnvelope_fits_twice :
    ∃ a : Animation, a.cycleCount = 2 ∧ ClipEnvelope.Fits exact a.settings a.clipEnvelope := by
  have h : Configured exact (({ Animation.new exact 1 .ZERO with
      cycleDuration := some (.millis 1000) }).updateTotalDuration exact) :=
    .change (c := .cycleDuration (.millis 1000)) (.new 1 .ZERO) trivial rfl
  refine ⟨_, ?_, (clipEnvelope_fits_iff (c := .cycleCount 2) h (.inl (by decide)) rfl ?_).mpr
    ⟨?_, fun _ _ => ?_⟩⟩
  · decide +kernel
  · exact show (2 : ℤ) ≠ _ by decide +kernel
  · decide +kernel
  · decide +kernel

/-- A cycle that was indefinite gets an end, while there are two: the envelope is still
the one of a single cycle without end. -/
theorem clipEnvelope_not_fits :
    ∃ (a a' : Animation) (c : Change), Configured exact a ∧ c.Valid ∧ a.change exact c = .ok a'
      ∧ c.Syncs a ∧ ¬ ClipEnvelope.Fits exact a'.settings a'.clipEnvelope :=
  ⟨_, _, .cycleDuration (.millis 1000),
    .change (c := .cycleCount 2)
      (.change (c := .cycleDuration .indefinite) (.new 1 .ZERO) trivial rfl) (.inl (by decide)) rfl,
    trivial, rfl, .inr (by decide), by decide +kernel⟩

end Animation

end JavaFx.Animation
