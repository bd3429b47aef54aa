/-
What the methods of a clip envelope tell its animation of the current rate.

`heard` is the current rate after some calls. A method tells the animation all that it
does to its own current rate (`Tells`), and leaves the kind of the envelope and its cycle
alone. `FiniteClipEnvelope.Progress.loop` is the part where more than one call is made.
-/
import JavaFx.Animation.ClipEnvelope
import JavaFx.Animation.AnimationSync

set_option autoImplicit false
set_option linter.dupNamespace false

namespace JavaFx.Animation

open JavaFx.Lib
open FiniteClipEnvelope (Progress)

variable {d : Arithmetic}

/-- The current rate after some calls. -/
def heard (currentRate : ℚ) : List Call → ℚ
  | [] => currentRate
  | .setCurrentRate r :: calls => heard r calls
  | _ :: calls => heard currentRate calls

theorem heard_append (c : ℚ) (calls calls' : List Call) :
    heard c (calls ++ calls') = heard (heard c calls) calls' := by
  induction calls generalizing c with
  | nil => rfl
  | cons call calls ih => cases call <;> exact ih _

/-- The calls set no current rate but one of the given size. -/
def OfSize (r : ℚ) (calls : List Call) : Prop := ∀ q, .setCurrentRate q ∈ calls → |q| = r

theorem OfSize.append {r : ℚ} {calls calls' : List Call} (h : OfSize r calls)
    (h' : OfSize r calls') : OfSize r (calls ++ calls') :=
  fun q hq => (List.mem_append.mp hq).elim (h q) (h' q)

theorem OfSize.heard {r c : ℚ} {calls : List Call} (h : OfSize r calls) (hc : |c| = r) :
    |Animation.heard c calls| = r := by
  induction calls generalizing c with
  | nil => exact hc
  | cons call calls ih =>
    have htail : OfSize r calls := fun q hq => h q (List.mem_cons_of_mem _ hq)
    cases call with
    | setCurrentRate q => exact ih htail (h q List.mem_cons_self)
    | playTo ticks => exact ih htail hc
    | jumpTo ticks => exact ih htail hc
    | finished => exact ih htail hc

theorem ofSize_of_forall {r : ℚ} {calls : List Call}
    (h : ∀ q, .setCurrentRate q ∉ calls) : OfSize r calls := fun q hq => absurd hq (h q)

theorem heard_of_forall {c : ℚ} {calls : List Call} (h : ∀ q, .setCurrentRate q ∉ calls) :
    heard c calls = c := by
  induction calls with
  | nil => rfl
  | cons call calls ih =>
    have htail := ih (fun q hq => h q (List.mem_cons_of_mem _ hq))
    cases call with
    | setCurrentRate q => exact absurd List.mem_cons_self (h q)
    | playTo ticks => exact htail
    | jumpTo ticks => exact htail
    | finished => exact htail

/-! ## The loop of `timePulse` -/

section Loop

variable {c : ℤ} {autoReverse reachedEnd : Bool}

/-- One turn: the animation hears of the current rate, and of no end. -/
theorem turn_heard (p : Progress) :
    heard p.currentRate (p.turnCalls c autoReverse reachedEnd)
        = (p.turn c autoReverse reachedEnd).currentRate
      ∧ OfSize |p.currentRate| (p.turnCalls c autoReverse reachedEnd)
      ∧ .finished ∉ p.turnCalls c autoReverse reachedEnd := by
  rw [Progress.turn, Progress.turnCalls]
  dsimp only
  by_cases hdelta : p.cycleDelta > 0
  · simp only [if_pos hdelta]
    split_ifs <;> simp [heard, OfSize, abs_neg]
  · simp only [if_neg hdelta]
    split_ifs <;> simp [heard, OfSize, abs_neg]

theorem loop_heard (fuel : ℕ) (p : Progress) :
    heard p.currentRate (p.loopCalls c autoReverse reachedEnd fuel)
        = (p.loop c autoReverse reachedEnd fuel).currentRate
      ∧ OfSize |p.currentRate| (p.loopCalls c autoReverse reachedEnd fuel)
      ∧ .finished ∉ p.loopCalls c autoReverse reachedEnd fuel := by
  induction fuel generalizing p with
  | zero => exact ⟨rfl, ofSize_of_forall (fun q hq => by cases hq), fun h => by cases h⟩
  | succ fuel ih =>
    rw [Progress.loopCalls, Progress.loop]
    split_ifs
    · obtain ⟨hturn, hsize, hend⟩ := @turn_heard c autoReverse reachedEnd p
      obtain ⟨hloop, hsize', hend'⟩ := ih (p.turn c autoReverse reachedEnd)
      have hkeep : |(p.turn c autoReverse reachedEnd).currentRate| = |p.currentRate| := by
        rw [← hturn]
        exact hsize.heard rfl
      rw [hkeep] at hsize'
      refine ⟨?_, hsize.append hsize', fun h => (List.mem_append.mp h).elim hend hend'⟩
      rw [heard_append, hturn, hloop]
    · exact ⟨rfl, ofSize_of_forall (fun q hq => by cases hq), fun h => by cases h⟩

end Loop

/-! ## The methods -/

/-- A jump sets the current rate of an animation that runs, reverses, and is moved. -/
theorem FiniteClipEnvelope.jumpTo_currentRate (w : FiniteClipEnvelope) (t : ℤ) :
    (¬ (¬ (w.cycleTicks = 0 ∨ (w.jumpTo t).ticks - w.ticks = 0) ∧ w.autoReverse = true
        ∧ w.status = .RUNNING) → (w.jumpTo t).currentRate = w.currentRate)
      ∧ (¬ (w.cycleTicks = 0 ∨ (w.jumpTo t).ticks - w.ticks = 0) ∧ w.autoReverse = true
        ∧ w.status = .RUNNING → |(w.jumpTo t).currentRate| = |w.rate|) := by
  by_cases hzero : w.cycleTicks = 0
  · rw [jumpTo, if_pos hzero]
    exact ⟨fun _ => rfl, fun h => absurd (.inl hzero) h.1⟩
  rw [jumpTo]
  simp only [if_neg hzero]
  generalize checkBounds (if w.rate < 0 then w.totalTicks - t else t) w.totalTicks = ticks
  by_cases hsame : ticks - w.ticks = 0
  · simp only [if_pos hsame]
    exact ⟨fun _ => trivial, fun h => absurd (.inr hsame) h.1⟩
  simp only [if_neg hsame]
  by_cases hreverse : w.autoReverse = true
  · simp only [if_pos hreverse]
    split
    · dsimp only
      exact ⟨fun h => if_neg (fun hrun => h ⟨fun h => h.elim hzero hsame, hreverse, hrun⟩),
        fun h => by rw [if_pos h.2.2, abs_abs]⟩
    · dsimp only
      exact ⟨fun h => if_neg (fun hrun => h ⟨fun h => h.elim hzero hsame, hreverse, hrun⟩),
        fun h => by rw [if_pos h.2.2, abs_neg, abs_abs]⟩
  · simp only [if_neg hreverse]
    exact ⟨fun _ => trivial, fun h => absurd h.2.1 hreverse⟩

namespace ClipEnvelope

/-- The envelope after a method, for the given rate. -/
structure Tells (w : ClipEnvelope) (rate : ℚ) (r : ClipEnvelope × List Call) : Prop where
  kind : ∀ s, OfKind s r.1 ↔ OfKind s w
  cycleTicks : r.1.cycleTicks = w.cycleTicks
  rate_eq : r.1.rate = rate
  heard : r.1.currentRate = heard w.currentRate r.2
  size : OfSize |rate| r.2

variable {w : ClipEnvelope}

theorem Tells.refl (w : ClipEnvelope) : Tells w w.rate (w, []) :=
  ⟨fun _ => Iff.rfl, rfl, rfl, rfl, ofSize_of_forall (fun q hq => by cases hq)⟩

/-- A method that says nothing of the current rate. -/
theorem Tells.quiet {w' : ClipEnvelope} {calls : List Call} (hkind : ∀ s, OfKind s w' ↔ OfKind s w)
    (hticks : w'.cycleTicks = w.cycleTicks) (hrate : w'.rate = w.rate)
    (hcurrent : w'.currentRate = w.currentRate) (hcalls : ∀ q, .setCurrentRate q ∉ calls) :
    Tells w w.rate (w', calls) :=
  ⟨hkind, hticks, hrate, hcurrent.trans (heard_of_forall hcalls).symm, ofSize_of_forall hcalls⟩

/-- `setRate` of a running animation. -/
theorem setRate_running (rate : ℚ) :
    ∃ c, (w.setRate d .RUNNING rate).2 = [.setCurrentRate c]
      ∧ Tells w rate (w.setRate d .RUNNING rate)
      ∧ c = if |w.currentRate - w.rate| < EPSILON then rate else -rate := by
  have hsize : ∀ b : Prop, [Decidable b] → |if b then rate else -rate| = |rate| := by
    intro b _
    split_ifs
    · rfl
    · exact abs_neg rate
  have htells : ∀ q, Call.setCurrentRate q ∈ [Call.setCurrentRate
      (if |w.currentRate - w.rate| < EPSILON then rate else -rate)] → |q| = |rate| := by
    intro q hq
    rw [List.mem_singleton, Call.setCurrentRate.injEq] at hq
    rw [hq]
    exact hsize _
  cases w with
  | singleLoop w => exact ⟨_, rfl, ⟨fun _ => Iff.rfl, rfl, rfl, rfl, htells⟩, rfl⟩
  | infinite w => exact ⟨_, rfl, ⟨fun _ => Iff.rfl, rfl, rfl, rfl, htells⟩, rfl⟩
  | finite w => exact ⟨_, rfl, ⟨fun _ => Iff.rfl, rfl, rfl, rfl, htells⟩, rfl⟩

/-- `setRate` of an animation that does not run. -/
theorem setRate_quiet {status : Status} (hstatus : status ≠ .RUNNING) (rate : ℚ) :
    (w.setRate d status rate).2 = [] ∧ Tells w rate (w.setRate d status rate) := by
  have hempty : OfSize |rate| [] := ofSize_of_forall (fun q hq => by cases hq)
  cases w with
  | singleLoop w =>
    refine ⟨if_neg hstatus, fun _ => Iff.rfl, rfl, rfl, ?_, ?_⟩
    all_goals
      rw [setRate, SingleLoopClipEnvelope.setRate]
      dsimp only
      rw [if_neg hstatus]
    · rw [currentRate, if_neg hstatus]
      rfl
    · exact hempty
  | infinite w =>
    refine ⟨if_neg hstatus, fun _ => Iff.rfl, rfl, rfl, ?_, ?_⟩
    all_goals
      rw [setRate, InfiniteClipEnvelope.setRate]
      dsimp only
      rw [if_neg hstatus]
    · rw [currentRate, if_neg hstatus]
      rfl
    · exact hempty
  | finite w =>
    refine ⟨if_neg hstatus, fun _ => Iff.rfl, rfl, rfl, ?_, ?_⟩
    all_goals
      rw [setRate, FiniteClipEnvelope.setRateCalls]
      dsimp only
      rw [if_neg hstatus]
    · rw [currentRate, FiniteClipEnvelope.setRate]
      dsimp only
      rw [if_neg hstatus]
      rfl
    · exact hempty

/-- `start`, which throws only where an envelope that reverses has no ticks. -/
theorem start_spec (hticks : 0 < w.cycleTicks) :
    ∃ r, w.start = .ok r ∧ Tells w w.rate r ∧ |r.1.currentRate| = |w.rate|
      ∧ .finished ∉ r.2 := by
  have hend : ∀ c : ℚ, Call.finished ∉ [Call.setCurrentRate c] := fun c h => by simp at h
  have hsize : ∀ {c : ℚ}, |c| = |w.rate| → OfSize |w.rate| [.setCurrentRate c] := by
    intro c hc q hq
    rw [List.mem_singleton, Call.setCurrentRate.injEq] at hq
    rw [hq, hc]
  cases w with
  | singleLoop w =>
    exact ⟨_, rfl, ⟨fun _ => Iff.rfl, rfl, rfl, rfl, hsize rfl⟩, rfl, hend _⟩
  | infinite w =>
    have hthrow : ¬ (w.autoReverse && w.cycleTicks == 0) = true := by
      rw [Bool.and_eq_true, beq_iff_eq]
      exact fun h => hticks.ne' h.2
    have hc : |w.calculateCurrentRate| = |w.rate| := by
      rw [InfiniteClipEnvelope.calculateCurrentRate]
      split_ifs
      · rfl
      · rfl
      · exact abs_neg _
    rw [start, InfiniteClipEnvelope.start, if_neg hthrow]
    exact ⟨_, rfl, ⟨fun _ => Iff.rfl, rfl, rfl, rfl, hsize hc⟩, hc, hend _⟩
  | finite w =>
    have hthrow : ¬ (w.autoReverse && w.cycleTicks == 0) = true := by
      rw [Bool.and_eq_true, beq_iff_eq]
      exact fun h => hticks.ne' h.2
    have hc : |w.calculateCurrentRate| = |w.rate| := by
      rw [FiniteClipEnvelope.calculateCurrentRate]
      split_ifs
      · rfl
      · rfl
      · exact abs_neg _
    rw [start, if_neg hthrow]
    exact ⟨_, rfl, ⟨fun _ => Iff.rfl, rfl, rfl, rfl, hsize hc⟩, hc, hend _⟩

/-- A method that calls what the loop calls, and says no more of the current rate. -/
theorem Tells.of_loop {w' : ClipEnvelope} {p : Progress} {c : ℤ} {autoReverse reachedEnd : Bool}
    {fuel : ℕ} {rest : List Call} (hp : p.currentRate = w.currentRate)
    (hrate : |w.currentRate| = |w.rate|) (hkind : ∀ s, OfKind s w' ↔ OfKind s w)
    (hticks : w'.cycleTicks = w.cycleTicks) (hsame : w'.rate = w.rate)
    (hcurrent : w'.currentRate = (p.loop c autoReverse reachedEnd fuel).currentRate)
    (hrest : ∀ q, .setCurrentRate q ∉ rest) :
    Tells w w.rate (w', p.loopCalls c autoReverse reachedEnd fuel ++ rest) := by
  obtain ⟨hheard, hsize, -⟩ := @loop_heard c autoReverse reachedEnd fuel p
  rw [hp, hrate] at hsize
  refine ⟨hkind, hticks, hsame, ?_, hsize.append (ofSize_of_forall hrest)⟩
  rw [hcurrent, heard_append, heard_of_forall hrest, ← hp, hheard]

theorem playTo_quiet (b : Prop) [Decidable b] (t : ℤ) (q : ℚ) :
    Call.setCurrentRate q ∉ if b then [Call.playTo t] else [] := by
  split_ifs <;> simp

theorem finished_quiet (b : Prop) [Decidable b] (q : ℚ) :
    Call.setCurrentRate q ∉ if b then [Call.finished] else [] := by
  split_ifs <;> simp

/-- `timePulse`, of an envelope that plays with its rate or with the opposite. -/
theorem timePulse_tells (hrate : |w.currentRate| = |w.rate|) (currentTick : ℤ) :
    Tells w w.rate (w.timePulse d currentTick) := by
  cases w with
  | singleLoop w =>
    rw [timePulse, SingleLoopClipEnvelope.timePulse]
    by_cases hzero : w.cycleTicks = 0
    · rw [if_pos hzero]
      exact Tells.refl _
    · rw [if_neg hzero]
      refine Tells.quiet (fun _ => Iff.rfl) rfl rfl rfl (fun q hq => ?_)
      rcases List.mem_cons.mp hq with heq | hmem
      · cases heq
      · exact finished_quiet _ q hmem
  | infinite w =>
    rw [timePulse, InfiniteClipEnvelope.timePulse]
    dsimp only
    by_cases hzero : w.cycleTicks = 0
    · simp only [if_pos hzero]
      exact Tells.refl _
    simp only [if_neg hzero]
    by_cases hdelta : max 0 (w.deltaTicks + d.pulseTicks currentTick w.rate) - w.ticks = 0
    · simp only [if_pos hdelta]
      exact Tells.quiet (fun _ => Iff.rfl) rfl rfl rfl (fun q hq => by simp at hq)
    · simp only [if_neg hdelta]
      exact Tells.of_loop rfl hrate (fun _ => Iff.rfl) rfl rfl rfl (playTo_quiet _ _)
  | finite w =>
    rw [timePulse, FiniteClipEnvelope.timePulse, FiniteClipEnvelope.timePulseCalls]
    dsimp only
    by_cases hzero : w.cycleTicks = 0
    · simp only [if_pos hzero]
      exact Tells.refl _
    simp only [if_neg hzero]
    by_cases hdelta :
        checkBounds (w.deltaTicks + d.pulseTicks currentTick w.rate) w.totalTicks - w.ticks = 0
    · simp only [if_pos hdelta]
      exact Tells.quiet (fun _ => Iff.rfl) rfl rfl rfl (fun q hq => by simp at hq)
    · simp only [if_neg hdelta, List.append_assoc]
      refine Tells.of_loop rfl hrate (fun _ => Iff.rfl) rfl rfl rfl (fun q hq => ?_)
      rcases List.mem_append.mp hq with hplay | hend
      · exact playTo_quiet _ _ q hplay
      · exact finished_quiet _ q hend

/-- What a jump says of the current rate of a running animation. -/
def jumpCalls (status : Status) (c : ℚ) (p : ℤ) : List Call :=
  (if status = .RUNNING then [.setCurrentRate c] else []) ++ [.jumpTo p]

theorem Tells.jump {w' : ClipEnvelope} {status : Status} {p : ℤ} {c : ℚ}
    (hkind : ∀ s, OfKind s w' ↔ OfKind s w) (hticks : w'.cycleTicks = w.cycleTicks)
    (hsame : w'.rate = w.rate) (hc : |c| = |w.rate|)
    (hcurrent : w'.currentRate = if status = .RUNNING then c else w.currentRate) :
    Tells w w.rate (w', jumpCalls status c p) ∧ .finished ∉ jumpCalls status c p
      ∧ (status ≠ .RUNNING → ∀ q, .setCurrentRate q ∉ jumpCalls status c p) := by
  rw [jumpCalls]
  by_cases hrunning : status = .RUNNING
  · rw [if_pos hrunning] at hcurrent ⊢
    refine ⟨⟨hkind, hticks, hsame, hcurrent, fun q hq => ?_⟩, by simp, fun hne =>
      absurd hrunning hne⟩
    rw [List.mem_append, List.mem_singleton, List.mem_singleton, Call.setCurrentRate.injEq] at hq
    rcases hq with rfl | hq
    · exact hc
    · cases hq
  · rw [if_neg hrunning] at hcurrent ⊢
    exact ⟨Tells.quiet hkind hticks hsame hcurrent (fun q => by simp), by simp, fun _ q => by simp⟩

/-- A jump that says nothing of the current rate. -/
theorem Tells.quietJump {w' : ClipEnvelope} {status : Status} {calls : List Call}
    (hkind : ∀ s, OfKind s w' ↔ OfKind s w) (hticks : w'.cycleTicks = w.cycleTicks)
    (hsame : w'.rate = w.rate) (hcurrent : w'.currentRate = w.currentRate)
    (hcalls : ∀ c ∈ calls, ∃ p, c = .jumpTo p) :
    Tells w w.rate (w', calls) ∧ .finished ∉ calls
      ∧ (status ≠ .RUNNING → ∀ q, .setCurrentRate q ∉ calls) := by
  have hquiet : ∀ q, .setCurrentRate q ∉ calls := by
    intro q hq
    obtain ⟨p, hp⟩ := hcalls _ hq
    cases hp
  refine ⟨Tells.quiet hkind hticks hsame hcurrent hquiet, fun hend => ?_, fun _ => hquiet⟩
  obtain ⟨p, hp⟩ := hcalls _ hend
  cases hp

/-- `jumpTo`, which ends nothing. -/
theorem jumpTo_tells (status : Status) (t : ℤ) :
    Tells w w.rate (w.jumpTo status t) ∧ .finished ∉ (w.jumpTo status t).2
      ∧ (status ≠ .RUNNING → ∀ q, .setCurrentRate q ∉ (w.jumpTo status t).2) := by
  have hnone : ∀ c ∈ ([] : List Call), ∃ p, c = .jumpTo p := fun c hc => by cases hc
  have hone : ∀ (p : ℤ), ∀ c ∈ [Call.jumpTo p], ∃ p, c = .jumpTo p := fun p c hc =>
    ⟨p, List.mem_singleton.mp hc⟩
  cases w with
  | singleLoop w =>
    rw [jumpTo, SingleLoopClipEnvelope.jumpTo]
    by_cases hzero : w.cycleTicks = 0
    · rw [if_pos hzero]
      exact Tells.quietJump (fun _ => Iff.rfl) rfl rfl rfl hnone
    · rw [if_neg hzero]
      exact Tells.quietJump (fun _ => Iff.rfl) rfl rfl rfl (hone _)
  | infinite w =>
    rw [jumpTo, InfiniteClipEnvelope.jumpTo]
    dsimp only
    by_cases hzero : w.cycleTicks = 0
    · simp only [if_pos hzero]
      exact Tells.quietJump (fun _ => Iff.rfl) rfl rfl rfl hnone
    simp only [if_neg hzero]
    by_cases hsame : (max 0 t).tmod (toLong (2 * w.cycleTicks)) - w.ticks = 0
    · simp only [if_pos hsame]
      exact Tells.quietJump (fun _ => Iff.rfl) rfl rfl rfl hnone
    simp only [if_neg hsame]
    by_cases hreverse : w.autoReverse
    · simp only [if_pos hreverse]
      refine Tells.jump (fun _ => Iff.rfl) rfl rfl ?_ rfl
      split_ifs
      · exact abs_neg _
      · rfl
    · simp only [if_neg hreverse]
      exact Tells.quietJump (fun _ => Iff.rfl) rfl rfl rfl (hone _)
  | finite w =>
    obtain ⟨hcycle, -, hrate⟩ := FiniteClipEnvelope.jumpTo_keeps { w with status := status } t
    obtain ⟨hquiet, hturned⟩ := FiniteClipEnvelope.jumpTo_currentRate
      { w with status := status } t
    rw [jumpTo]
    dsimp only
    rw [FiniteClipEnvelope.jumpToCalls]
    dsimp only at hcycle hrate hquiet hturned ⊢
    by_cases hsame : w.cycleTicks = 0
        ∨ (FiniteClipEnvelope.jumpTo { w with status := status } t).ticks - w.ticks = 0
    · rw [if_pos hsame]
      exact Tells.quietJump (fun _ => Iff.rfl) hcycle hrate (hquiet (fun h => h.1 hsame)) hnone
    rw [if_neg hsame]
    by_cases hboth : w.autoReverse = true ∧ status = .RUNNING
    · have hjump := @Tells.jump (.finite w)
        (.finite (FiniteClipEnvelope.jumpTo { w with status := status } t)) status
        (FiniteClipEnvelope.jumpTo { w with status := status } t).pos _
        (fun _ => Iff.rfl) hcycle hrate (hturned ⟨hsame, hboth⟩) (if_pos hboth.2).symm
      rw [jumpCalls, if_pos hboth.2] at hjump
      rw [if_pos hboth]
      exact hjump
    · rw [if_neg hboth]
      exact Tells.quietJump (fun _ => Iff.rfl) hcycle hrate (hquiet (fun h => hboth h.2)) (hone _)

end ClipEnvelope

end JavaFx.Animation
