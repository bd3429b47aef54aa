/-
Whether the frequency of the pulses matters.

`PulsesCompose` says that a pulse on the way to another one makes no difference. A repeating
envelope meets it in every state that it comes to, if the first pulse does not lead back:
where the ticks of a pulse are below those of the envelope, the ticks follow and the play
head does not. A finite envelope that is not in step with its ticks may also come to its last
tick inside a cycle; it then finishes without the rest of the way.
-/
import Mathlib
import JavaFx.Animation.PulseLoop
import JavaFx.Animation.ClipEnvelopePulses
import JavaFx.Lib.Run

set_option autoImplicit false

namespace JavaFx.Animation

open JavaFx.Lib

open FiniteClipEnvelope (Progress)

open FiniteClipEnvelope.Progress

/-! ## One pulse -/

variable {c pos pos' pos₁ pos₂ pos₃ δ o n₁ n₂ : ℤ} {a e : Bool}
  {currentRate currentRate' rate₁ rate₂ rate₃ : ℚ} {calls calls₁ calls₂ calls₃ : List Call}

/-- A pulse of `δ` ticks takes the play head to `pos'`. -/
def Pulsed (c : ℤ) (a e : Bool) (pos : ℤ) (currentRate : ℚ) (δ pos' : ℤ) (currentRate' : ℚ)
    (calls : List Call) : Prop :=
  if δ = 0 then pos' = pos ∧ currentRate' = currentRate ∧ calls = []
  else
    ∃ q loopCalls, Loops c a e (way c pos currentRate δ) q loopCalls ∧ pos' = place e q ∧
      currentRate' = q.currentRate ∧ cycleEnds c calls = cycleEnds c loopCalls ∧
      (.finished ∈ calls ↔ e = true)

theorem toEnd_bounds (hpos : 0 ≤ pos ∧ pos ≤ c) (currentRate : ℚ) :
    0 ≤ toEnd c pos currentRate ∧ toEnd c pos currentRate ≤ c := by
  rw [toEnd]
  split_ifs <;> omega

/-- The loop of a pulse, as `timePulse` runs it. -/
theorem loops_pulse (a e : Bool) (hc : 0 < c) (hpos : 0 ≤ pos ∧ pos ≤ c) (currentRate : ℚ) (δ : ℤ) :
    Loops c a e (way c pos currentRate δ)
      ((way c pos currentRate δ).loop c a e (δ.toNat + 2))
      ((way c pos currentRate δ).loopCalls c a e (δ.toNat + 2)) := by
  have hbounds := toEnd_bounds hpos currentRate
  by_cases hδ : 0 ≤ δ
  · refine loops_loop hc _ hbounds.1 hδ ?_
    have hover : (way c pos currentRate δ).overallDelta = δ := rfl
    rw [hover]
    split <;> omega
  · have hless : (way c pos currentRate δ).overallDelta < (way c pos currentRate δ).cycleDelta := by
      show δ < toEnd c pos currentRate
      omega
    rw [Progress.loop, Progress.loopCalls, if_neg (not_le.2 hless), if_neg (not_le.2 hless)]
    exact .done hless

theorem finished_notMem_turnCalls (p : Progress) : .finished ∉ p.turnCalls c a e := by
  rw [Progress.turnCalls]
  split_ifs <;> simp

theorem finished_notMem_loopCalls (fuel : ℕ) (p : Progress) :
    .finished ∉ p.loopCalls c a e fuel := by
  induction fuel generalizing p with
  | zero => exact List.not_mem_nil
  | succ fuel ih =>
    rw [Progress.loopCalls]
    split_ifs
    · rw [List.mem_append, not_or]
      exact ⟨finished_notMem_turnCalls p, ih _⟩
    · exact List.not_mem_nil

/-- A play to the inside of a cycle ends none. -/
theorem place_inside (hc : 0 < c) (hpos : 0 ≤ pos ∧ pos ≤ c) (hmoving : currentRate ≠ 0)
    {q : Progress} (h : Loops c a false (way c pos currentRate δ) q calls)
    (hover : 0 < q.overallDelta) : 0 < q.moved ∧ q.moved < c := by
  have hq : Coherent c q ∧ q.overallDelta < q.cycleDelta := by
    by_cases hδ : 0 ≤ δ
    · exact h.coherent hc (way_coherent hpos hmoving hδ)
    · cases h with
      | done _ => exact absurd hover (by show ¬ 0 < δ; omega)
      | turn hle _ =>
        have hbounds := toEnd_bounds hpos currentRate
        have hle' : toEnd c pos currentRate ≤ δ := hle
        omega
  obtain ⟨⟨⟨hlo, hhi⟩, _, hdelta, _⟩, hlt⟩ := hq
  rw [hdelta, toEnd] at hlt
  rw [Progress.moved]
  split_ifs at hlt ⊢ <;> omega

theorem cycleEnds_playTo (h : 0 < pos ∧ pos < c) : cycleEnds c [.playTo pos] = [] := by
  have hzero : ¬ pos = 0 := by omega
  have hc : ¬ pos = c := by omega
  simp [cycleEnds, Call.endsCycle, hzero, hc]

/-- The pulse of both envelopes, behind its loop. -/
theorem Pulsed.of_loops (hc : 0 < c) (hpos : 0 ≤ pos ∧ pos ≤ c) (hmoving : currentRate ≠ 0)
    (hδ : δ ≠ 0) {q : Progress} {rest : List Call}
    (h : Loops c a e (way c pos currentRate δ) q calls) (hcalls : .finished ∉ calls)
    (hpos' : pos' = place e q)
    (hrest : rest = (if q.overallDelta > 0 && !e then [.playTo q.moved] else []) ++
      if e then [.finished] else []) :
    Pulsed c a e pos currentRate δ pos' q.currentRate (calls ++ rest) := by
  rw [Pulsed, if_neg hδ]
  refine ⟨q, calls, h, hpos', rfl, ?_, ?_⟩
  · rw [cycleEnds_append, List.append_right_eq_self, hrest]
    cases e with
    | true => simp [cycleEnds, Call.endsCycle]
    | false =>
      by_cases hover : 0 < q.overallDelta
      · simp only [gt_iff_lt, hover, decide_true, Bool.not_false, Bool.and_self, if_true,
          Bool.false_eq_true, if_false, List.append_nil]
        exact cycleEnds_playTo (place_inside hc hpos hmoving h hover)
      · simp [hover, cycleEnds]
  · rw [List.mem_append, hrest]
    cases e <;> simp [hcalls]

theorem playTo_moved (q : Progress) :
    (if q.overallDelta > 0 then [Call.playTo (if q.overallDelta > 0 then q.moved else q.pos)]
      else []) =
    (if q.overallDelta > 0 && !false then [.playTo q.moved] else []) ++
      if false then [.finished] else [] := by
  by_cases hover : q.overallDelta > 0
  · simp [hover]
  · simp [hover]

theorem InfiniteClipEnvelope.pulsed (d : Arithmetic) (w : InfiniteClipEnvelope)
    (hc : 0 < w.cycleTicks) (hpos : 0 ≤ w.pos ∧ w.pos ≤ w.cycleTicks) (hmoving : w.currentRate ≠ 0)
    (t : ℤ) :
    Pulsed w.cycleTicks w.autoReverse false w.pos w.currentRate
      (max 0 (w.deltaTicks + d.pulseTicks t w.rate) - w.ticks) (w.timePulse d t).1.pos
      (w.timePulse d t).1.currentRate (w.timePulse d t).2 := by
  rw [InfiniteClipEnvelope.timePulse, if_neg hc.ne']
  dsimp only
  generalize max 0 (w.deltaTicks + d.pulseTicks t w.rate) = ticks
  by_cases hzero : ticks - w.ticks = 0
  · rw [if_pos hzero, Pulsed, if_pos hzero]
    exact ⟨rfl, rfl, rfl⟩
  · rw [if_neg hzero]
    have hloops := loops_pulse w.autoReverse false hc hpos w.currentRate (ticks - w.ticks)
    refine Pulsed.of_loops hc hpos hmoving hzero hloops (finished_notMem_loopCalls _ _) ?_ ?_
    · rw [place]
      exact if_congr (and_iff_left rfl).symm rfl rfl
    · exact playTo_moved _

theorem FiniteClipEnvelope.pulsed (d : Arithmetic) (w : FiniteClipEnvelope)
    (hc : 0 < w.cycleTicks) (hpos : 0 ≤ w.pos ∧ w.pos ≤ w.cycleTicks) (hmoving : w.currentRate ≠ 0)
    (t : ℤ) :
    Pulsed w.cycleTicks w.autoReverse
      (decide (w.totalTicks ≤
        checkBounds (w.deltaTicks + d.pulseTicks t w.rate) w.totalTicks))
      w.pos w.currentRate
      (checkBounds (w.deltaTicks + d.pulseTicks t w.rate) w.totalTicks - w.ticks)
      (w.timePulse d.toDoubles t).pos (w.timePulse d.toDoubles t).currentRate
      (w.timePulseCalls d t) := by
  rw [FiniteClipEnvelope.timePulse, FiniteClipEnvelope.timePulseCalls, if_neg hc.ne',
    if_neg hc.ne']
  dsimp only
  generalize checkBounds (w.deltaTicks + d.pulseTicks t w.rate) w.totalTicks = ticks
  by_cases hzero : ticks - w.ticks = 0
  · rw [if_pos hzero, if_pos hzero, Pulsed, if_pos hzero]
    exact ⟨rfl, rfl, rfl⟩
  · rw [if_neg hzero, if_neg hzero, List.append_assoc]
    have hloops := loops_pulse w.autoReverse (decide (ticks ≥ w.totalTicks)) hc hpos w.currentRate
      (ticks - w.ticks)
    refine Pulsed.of_loops hc hpos hmoving hzero hloops (finished_notMem_loopCalls _ _) ?_ rfl
    rw [place]
    refine if_congr ?_ rfl rfl
    rw [Bool.and_eq_true, decide_eq_true_eq, Bool.not_eq_true']

/-! ## Two pulses -/

/-- **When a pulse on the way makes no difference**: for an envelope that is at tick `o`, with
pulses to the ticks `n₁` and `n₂`, of which the second one ends the animation if `e`. -/
def Composes (c : ℤ) (e : Bool) (pos : ℤ) (currentRate : ℚ) (o n₁ n₂ : ℤ) : Prop :=
  n₁ = n₂ ∨ o = n₁ ∨
    o < n₁ ∧ (e = true → (toEnd c pos currentRate - (n₁ - o)) % c ≤ n₂ - n₁) ∨
    n₁ < o ∧ e = true ∧ o < n₂ ∧ o - n₁ < (toEnd c pos currentRate - (n₂ - o)) % c

theorem Pulsed.unique (h : Pulsed c a e pos currentRate δ pos₁ rate₁ calls₁)
    (h' : Pulsed c a e pos currentRate δ pos₂ rate₂ calls₂) :
    pos₁ = pos₂ ∧ rate₁ = rate₂ ∧ cycleEnds c calls₁ = cycleEnds c calls₂ ∧
      (.finished ∈ calls₁ ↔ .finished ∈ calls₂) := by
  rw [Pulsed] at h h'
  split_ifs at h h'
  · obtain ⟨rfl, rfl, rfl⟩ := h
    obtain ⟨rfl, rfl, rfl⟩ := h'
    exact ⟨rfl, rfl, rfl, Iff.rfl⟩
  · obtain ⟨q, k, hq, rfl, rfl, hk, hfinished⟩ := h
    obtain ⟨q', k', hq', rfl, rfl, hk', hfinished'⟩ := h'
    obtain ⟨rfl, rfl⟩ := hq.unique hq'
    exact ⟨rfl, rfl, hk.trans hk'.symm, hfinished.trans hfinished'.symm⟩

/-- A pulse that leads back leaves the play head alone. -/
theorem Pulsed.back (hpos : 0 ≤ pos ∧ pos ≤ c) (hδ : δ < 0)
    (h : Pulsed c a false pos currentRate δ pos₁ rate₁ calls₁) :
    pos₁ = pos ∧ rate₁ = currentRate ∧ cycleEnds c calls₁ = [] ∧ .finished ∉ calls₁ := by
  rw [Pulsed, if_neg hδ.ne] at h
  obtain ⟨q, k, hq, rfl, rfl, hk, hfinished⟩ := h
  have hbounds := toEnd_bounds hpos currentRate
  obtain ⟨rfl, rfl⟩ := hq.unique (.done (by
    show δ < toEnd c pos currentRate
    omega))
  refine ⟨if_neg fun h => ?_, rfl, hk, fun h => absurd (hfinished.1 h) Bool.false_ne_true⟩
  have hover : 0 < δ := h.1
  omega

theorem place_bounds (e : Bool) {q : Progress} (hq : Coherent c q)
    (hin : q.overallDelta < q.cycleDelta) : 0 ≤ place e q ∧ place e q ≤ c := by
  obtain ⟨⟨hlo, hhi⟩, _, hdelta, hover⟩ := hq
  rw [hdelta, toEnd] at hin
  rw [place, Progress.moved]
  split_ifs at hin ⊢ <;> omega

theorem composes_iff (hc : 0 < c) (hpos : 0 ≤ pos ∧ pos ≤ c) (hmoving : currentRate ≠ 0)
    (hle : n₁ ≤ n₂) (hend : e = true → n₁ < n₂ ∧ o ≤ n₂)
    (h₁ : Pulsed c a false pos currentRate (n₁ - o) pos₁ rate₁ calls₁)
    (h₂ : Pulsed c a e pos₁ rate₁ (n₂ - n₁) pos₂ rate₂ calls₂)
    (h₃ : Pulsed c a e pos currentRate (n₂ - o) pos₃ rate₃ calls₃) :
    (pos₂ = pos₃ ∧ rate₂ = rate₃ ∧ (.finished ∈ calls₁ ++ calls₂ ↔ .finished ∈ calls₃) ∧
        cycleEnds c (calls₁ ++ calls₂) = cycleEnds c calls₃) ↔
      Composes c e pos currentRate o n₁ n₂ := by
  rw [cycleEnds_append, List.mem_append]
  rcases hle.eq_or_lt with rfl | hlt
  · -- the second pulse finds nothing to do
    obtain rfl : e = false := by
      cases e with
      | false => rfl
      | true => exact absurd (hend rfl).1 (lt_irrefl _)
    rw [Pulsed, if_pos (sub_self _)] at h₂
    obtain ⟨rfl, rfl, rfl⟩ := h₂
    obtain ⟨hp, hr, hk, hf⟩ := h₁.unique h₃
    refine iff_of_true ⟨hp, hr, ?_, ?_⟩ (.inl rfl)
    · simpa using hf
    · rw [hk]
      exact List.append_nil _
  rcases lt_trichotomy o n₁ with hgo | rfl | hback
  · rw [Pulsed, if_neg (by omega)] at h₁ h₂ h₃
    obtain ⟨q₁, k₁, hq₁, rfl, rfl, hk₁, hf₁⟩ := h₁
    obtain ⟨q₂, k₂, hq₂, rfl, rfl, hk₂, hf₂⟩ := h₂
    obtain ⟨q₃, k₃, hq₃, rfl, rfl, hk₃, hf₃⟩ := h₃
    rw [show n₂ - o = (n₁ - o) + (n₂ - n₁) by ring] at hq₃
    obtain ⟨hk, hr, hplace⟩ := pulses_add hc hpos hmoving (by omega) (by omega) hq₁ hq₂ hq₃
    have hf : .finished ∉ calls₁ := fun h => absurd (hf₁.1 h) Bool.false_ne_true
    have hcalls : cycleEnds c calls₁ ++ cycleEnds c calls₂ = cycleEnds c calls₃ := by
      rw [hk₁, hk₂, hk₃, hk, cycleEnds_append]
    have hcomposes : Composes c e pos currentRate o n₁ n₂ ↔
        (e = true → (toEnd c pos currentRate - (n₁ - o)) % c ≤ n₂ - n₁) := by
      rw [Composes, or_iff_right hlt.ne, or_iff_right hgo.ne,
        or_iff_left (fun h => absurd h.1 (not_lt_of_gt hgo)), and_iff_right hgo]
    rw [hcomposes, ← hplace]
    exact ⟨fun h => h.1.symm, fun h => ⟨h.symm, hr.symm, by rw [hf₂, hf₃, or_iff_right hf], hcalls⟩⟩
  · rw [Pulsed, if_pos (sub_self _)] at h₁
    obtain ⟨rfl, rfl, rfl⟩ := h₁
    obtain ⟨hp, hr, hk, hf⟩ := h₂.unique h₃
    refine iff_of_true ⟨hp, hr, ?_, hk⟩ (.inr (.inl rfl))
    simpa using hf
  · obtain ⟨rfl, rfl, hk₁, hf₁⟩ := h₁.back hpos (by omega)
    rw [hk₁, List.nil_append, or_iff_right hf₁]
    rw [Pulsed, if_neg (by omega)] at h₂
    obtain ⟨q₂, k₂, hq₂, rfl, rfl, hk₂, hf₂⟩ := h₂
    have hcomposes : Composes c e pos₁ rate₁ o n₁ n₂ ↔
        e = true ∧ o < n₂ ∧ o - n₁ < (toEnd c pos₁ rate₁ - (n₂ - o)) % c := by
      rw [Composes, or_iff_right hlt.ne, or_iff_right hback.ne',
        or_iff_right (fun h => absurd h.1 (not_lt_of_gt hback)), and_iff_right hback]
    rw [hcomposes]
    rcases lt_or_ge o n₂ with hon | hno
    · rw [Pulsed, if_neg (by omega)] at h₃
      obtain ⟨q₃, k₃, hq₃, rfl, rfl, hk₃, hf₃⟩ := h₃
      rw [show n₂ - n₁ = (n₂ - o) + (o - n₁) by ring] at hq₂
      cases e with
      | true =>
        rw [← ends_longer hc hpos hmoving (by omega) (by omega) hq₃ hq₂, hk₂, hk₃, hf₂, hf₃]
        have hplace : ∀ q : Progress, place true q = q.pos := fun q => if_neg (by simp)
        rw [hplace, hplace]
        constructor
        · rintro ⟨hp, hr, _, hk⟩
          exact ⟨rfl, hon, hk, hr, hp⟩
        · rintro ⟨_, _, hk, hr, hp⟩
          exact ⟨hp, hr, Iff.rfl, hk⟩
      | false =>
        -- the way that is made twice would have to do nothing
        refine iff_of_false ?_ (fun h => absurd h.1 Bool.false_ne_true)
        rintro ⟨hp, hr, _, hk⟩
        obtain ⟨hq, hin⟩ := hq₃.coherent hc (way_coherent hpos hmoving (by omega))
        have hplace := place_bounds false hq hin
        obtain ⟨q, k, hloops⟩ := exists_loops a false hc
          (way_coherent hplace hq.moving (show 0 ≤ o - n₁ by omega))
        obtain ⟨hk', hr', hp'⟩ := pulses_add hc hpos hmoving (by omega) (by omega) hq₃ hloops hq₂
        rw [hk₂, hk₃, hk', cycleEnds_append, List.append_right_eq_self] at hk
        refine pulse_moves hc hplace hq.moving (by omega) hloops hk (hr'.symm.trans hr) ?_
        rw [← hp, hp'.2 nofun]
    · have hstill : pos₃ = pos₁ ∧ rate₃ = rate₁ ∧ cycleEnds c calls₃ = [] ∧
          .finished ∉ calls₃ := by
        cases e with
        | true =>
          rw [Pulsed, if_pos (by have := (hend rfl).2; omega)] at h₃
          obtain ⟨rfl, rfl, rfl⟩ := h₃
          exact ⟨rfl, rfl, rfl, List.not_mem_nil⟩
        | false =>
          rcases hno.eq_or_lt with rfl | hless
          · rw [Pulsed, if_pos (sub_self _)] at h₃
            obtain ⟨rfl, rfl, rfl⟩ := h₃
            exact ⟨rfl, rfl, rfl, List.not_mem_nil⟩
          · exact h₃.back hpos (by omega)
      obtain ⟨rfl, rfl, hk₃, hf₃⟩ := hstill
      refine iff_of_false ?_ (fun h => absurd h.2.1 (not_lt_of_ge hno))
      rintro ⟨hp, hr, hf, hk⟩
      cases e with
      | true => exact hf₃ (hf.1 (hf₂.2 rfl))
      | false =>
        rw [hk₂, hk₃] at hk
        exact pulse_moves hc hpos hmoving (by omega) hq₂ hk hr hp

/-! ## Runs -/

theorem turn_range (a e : Bool) (hc : 0 < c) {p : Progress} (hpos : 0 ≤ p.pos ∧ p.pos ≤ c)
    (hmoving : p.currentRate ≠ 0) :
    (0 ≤ (p.turn c a e).pos ∧ (p.turn c a e).pos ≤ c) ∧ (p.turn c a e).currentRate ≠ 0 := by
  have hstart : 0 ≤ (0 : ℤ) ∧ 0 ≤ c := ⟨le_rfl, hc.le⟩
  have hend : 0 ≤ c ∧ c ≤ c := ⟨hc.le, le_rfl⟩
  have hback : -p.currentRate ≠ 0 := neg_ne_zero.2 hmoving
  simp only [Progress.turn, apply_ite Progress.pos, apply_ite Progress.currentRate,
    apply_ite Progress.overallDelta, ite_self]
  constructor
  · split_ifs <;> assumption
  · split_ifs <;> assumption

theorem loops_range {p q : Progress} (h : Loops c a e p q calls) (hc : 0 < c)
    (hpos : 0 ≤ p.pos ∧ p.pos ≤ c) (hmoving : p.currentRate ≠ 0) :
    (0 ≤ q.pos ∧ q.pos ≤ c) ∧ q.currentRate ≠ 0 := by
  induction h with
  | done _ => exact ⟨hpos, hmoving⟩
  | turn _ _ ih =>
    obtain ⟨hpos', hmoving'⟩ := turn_range a e hc hpos hmoving
    exact ih hpos' hmoving'

theorem Pulsed.range (h : Pulsed c a e pos currentRate δ pos₁ rate₁ calls₁) (hc : 0 < c)
    (hpos : 0 ≤ pos ∧ pos ≤ c) (hmoving : currentRate ≠ 0) :
    (0 ≤ pos₁ ∧ pos₁ ≤ c) ∧ rate₁ ≠ 0 := by
  rw [Pulsed] at h
  split_ifs at h with hzero
  · obtain ⟨rfl, rfl, _⟩ := h
    exact ⟨hpos, hmoving⟩
  · obtain ⟨q, k, hq, rfl, rfl, _⟩ := h
    obtain ⟨hpos', hmoving'⟩ := loops_range hq hc hpos hmoving
    refine ⟨?_, hmoving'⟩
    rw [place]
    split_ifs with hover
    · obtain ⟨hover, rfl⟩ := hover
      have hinside := place_inside hc hpos hmoving hq hover
      omega
    · exact hpos'

namespace ClipEnvelope

/-- The ticks that a pulse leads to. -/
def pulseTo (d : Arithmetic) (t : ℤ) : ClipEnvelope → ℤ
  | .singleLoop w => checkBounds (w.deltaTicks + d.signedTicks t w.currentRate) w.cycleTicks
  | .infinite w => max 0 (w.deltaTicks + d.pulseTicks t w.rate)
  | .finite w => checkBounds (w.deltaTicks + d.pulseTicks t w.rate) w.totalTicks

/-- `reachedEnd` of a pulse. -/
def reachedEnd (d : Arithmetic) (t : ℤ) : ClipEnvelope → Bool
  | .finite w => decide (w.totalTicks ≤ (ClipEnvelope.finite w).pulseTo d t)
  | _ => false

/-- A pulse at `t₁` makes no difference to the one at `t₂`. -/
def PulsesCompose (d : Arithmetic) (w : ClipEnvelope) (t₁ t₂ : ℤ) : Prop :=
  let first := w.timePulse d t₁
  let second := first.1.timePulse d t₂
  let alone := w.timePulse d t₂
  second.1.ticks = alone.1.ticks ∧ second.1.head = alone.1.head ∧
    second.1.currentRate = alone.1.currentRate ∧
    (.finished ∈ first.2 ++ second.2 ↔ .finished ∈ alone.2) ∧
    cycleEnds w.cycleTicks (first.2 ++ second.2) = cycleEnds w.cycleTicks alone.2

inductive EnvelopeAction
  | start
  | setRate (status : Status) (rate : ℚ)
  | jumpTo (status : Status) (ticks : ℤ)
  | timePulse (currentTick : ℤ)
  | setAutoReverse (autoReverse : Bool)

/-- A rate is not zero: at rate zero an animation has no pulses. -/
def EnvelopeAction.Valid : EnvelopeAction → Prop
  | .setRate _ rate => rate ≠ 0
  | _ => True

/-- A call of the animation. -/
def act (d : Arithmetic) (w : ClipEnvelope) : EnvelopeAction → Except Thrown ClipEnvelope
  | .start => w.start.map Prod.fst
  | .setRate status rate => .ok (w.setRate d status rate).1
  | .jumpTo status ticks => .ok (w.jumpTo status ticks).1
  | .timePulse currentTick => .ok (w.timePulse d currentTick).1
  | .setAutoReverse autoReverse => .ok (w.setAutoReverse autoReverse)

/-- The play head of a repeating envelope is in its cycle, and moves. -/
structure Ranged (c : ℤ) (w : ClipEnvelope) : Prop where
  repeats : ∀ v, w ≠ .singleLoop v
  cycleTicks : w.cycleTicks = c
  pos : 0 ≤ w.head ∧ w.head ≤ c
  currentRate : w.currentRate ≠ 0
  rate : w.rate ≠ 0
  ticks : ∀ v, w = .finite v → 0 ≤ v.totalTicks → 0 ≤ v.ticks ∧ v.ticks ≤ v.totalTicks
  fits : ∀ v, w = .infinite v → 2 * c < 2 ^ 63

variable {d : Arithmetic} {w w' : ClipEnvelope}

theorem checkBounds_within {max_ : ℤ} (value : ℤ) (h : 0 ≤ max_) :
    0 ≤ checkBounds value max_ ∧ checkBounds value max_ ≤ max_ := by
  rw [checkBounds]
  omega

theorem create_ranged (d : Arithmetic) {s : Settings}
    (hs : s.cycleCount ≠ 1 ∧ s.cycleDuration ≠ .indefinite)
    (hrate : s.rate ≠ 0) (hc : 0 < d.fromDuration s.cycleDuration)
    (hfit : s.cycleCount = INDEFINITE → 2 * d.fromDuration s.cycleDuration < 2 ^ 63) :
    Ranged (d.fromDuration s.cycleDuration) (create d s) := by
  rw [create, if_neg (not_or.2 hs)]
  split_ifs with hindefinite
  · exact ⟨by rintro _ ⟨⟩, rfl, ⟨le_rfl, hc.le⟩, one_ne_zero, hrate, by rintro _ ⟨⟩,
      fun _ _ => hfit hindefinite⟩
  · refine ⟨by rintro _ ⟨⟩, rfl, ⟨le_rfl, hc.le⟩, one_ne_zero, hrate, ?_, by rintro _ ⟨⟩⟩
    rintro v ⟨⟩ htotal
    exact ⟨le_rfl, htotal⟩

theorem tmod_range {t : ℤ} (ht : 0 ≤ t) (hc : 0 < c) : 0 ≤ t.tmod c ∧ t.tmod c ≤ c := by
  rw [Int.tmod_eq_emod_of_nonneg ht]
  exact ⟨Int.emod_nonneg t hc.ne', (Int.emod_lt_of_pos t hc).le⟩

theorem rate_ne_zero {p : Prop} [Decidable p] {rate : ℚ} (h : rate ≠ 0) :
    (if p then rate else -rate) ≠ 0 := by
  split_ifs
  · exact h
  · exact neg_ne_zero.2 h

theorem start_ranged (h : Ranged c w) {res : ClipEnvelope × List Call} (hres : w.start = .ok res) :
    Ranged c res.1 := by
  cases w with
  | singleLoop v => exact absurd rfl (h.repeats v)
  | infinite v =>
    rw [start, InfiniteClipEnvelope.start] at hres
    split_ifs at hres
    · cases hres
    · cases hres
      refine ⟨by rintro _ ⟨⟩, h.cycleTicks, h.pos, ?_, h.rate, by rintro _ ⟨⟩,
        fun _ _ => h.fits v rfl⟩
      show v.calculateCurrentRate ≠ 0
      rw [InfiniteClipEnvelope.calculateCurrentRate]
      split_ifs <;> first | exact h.rate | exact neg_ne_zero.2 h.rate
  | finite v =>
    rw [start] at hres
    split_ifs at hres
    cases hres
    refine ⟨by rintro _ ⟨⟩, h.cycleTicks, h.pos, ?_, h.rate, ?_, by rintro _ ⟨⟩⟩
    · show v.calculateCurrentRate ≠ 0
      rw [FiniteClipEnvelope.calculateCurrentRate]
      split_ifs <;> first | exact h.rate | exact neg_ne_zero.2 h.rate
    · rintro _ ⟨⟩ htotal
      exact h.ticks v rfl htotal

theorem setRate_ranged (h : Ranged c w) (status : Status) {rate : ℚ} (hrate : rate ≠ 0) :
    Ranged c (w.setRate d status rate).1 := by
  cases w with
  | singleLoop v => exact absurd rfl (h.repeats v)
  | infinite v =>
    refine ⟨nofun, h.cycleTicks, h.pos, ?_, hrate, nofun, fun _ _ => h.fits v rfl⟩
    show (if status = .RUNNING then
      if |v.currentRate - v.rate| < EPSILON then rate else -rate else v.currentRate) ≠ 0
    by_cases hrun : status = .RUNNING
    · rw [if_pos hrun]
      exact rate_ne_zero hrate
    · rw [if_neg hrun]
      exact h.currentRate
  | finite v =>
    refine ⟨nofun, h.cycleTicks, h.pos, ?_, hrate, ?_, nofun⟩
    · show (if status = .RUNNING then
        if |v.currentRate - v.rate| < EPSILON then rate else -rate else v.currentRate) ≠ 0
      by_cases hrun : status = .RUNNING
      · rw [if_pos hrun]
        exact rate_ne_zero hrate
      · rw [if_neg hrun]
        exact h.currentRate
    · rintro _ ⟨⟩ htotal
      have hticks := h.ticks v rfl htotal
      show 0 ≤ (if d.product rate v.rate < 0 then v.totalTicks - v.ticks else v.ticks) ∧
        (if d.product rate v.rate < 0 then v.totalTicks - v.ticks else v.ticks) ≤ v.totalTicks
      split_ifs <;> omega

theorem timePulse_ranged (h : Ranged c w) (hc : 0 < c) (t : ℤ) :
    Ranged c (w.timePulse d t).1 := by
  have hcycle := h.cycleTicks
  have hrate := timePulse_rate d w t
  have hcycle' := timePulse_cycleTicks d w t
  cases w with
  | singleLoop v => exact absurd rfl (h.repeats v)
  | infinite v =>
    subst hcycle
    obtain ⟨hpos, hmoving⟩ := (v.pulsed d hc h.pos h.currentRate t).range hc h.pos h.currentRate
    refine ⟨nofun, hcycle', hpos, hmoving, ?_, nofun, fun _ _ => h.fits v rfl⟩
    rw [hrate]
    exact h.rate
  | finite v =>
    subst hcycle
    obtain ⟨hpos, hmoving⟩ := (v.pulsed d hc h.pos h.currentRate t).range hc h.pos h.currentRate
    obtain ⟨_, _, htotal, hticks⟩ := finite_timePulse d.toDoubles v hc.ne' t
    refine ⟨nofun, hcycle', hpos, hmoving, ?_, ?_, nofun⟩
    · rw [hrate]
      exact h.rate
    · rintro _ ⟨⟩ htotal'
      rw [htotal] at htotal' ⊢
      rw [hticks]
      exact checkBounds_within _ htotal'

theorem jumpTo_infinite_ranged {v : InfiniteClipEnvelope} (h : Ranged c (.infinite v)) (hc : 0 < c)
    (status : Status) (t : ℤ) : Ranged c (.infinite (v.jumpTo status t).1) := by
  have hfits := h.fits v rfl
  obtain rfl : v.cycleTicks = c := h.cycleTicks
  have hlong : toLong (2 * v.cycleTicks) = 2 * v.cycleTicks :=
    toLong_of_lt (by omega) (by omega)
  rw [InfiniteClipEnvelope.jumpTo, if_neg hc.ne', hlong]
  dsimp only
  have hticks : 0 ≤ (max 0 t).tmod (2 * v.cycleTicks) ∧
      (max 0 t).tmod (2 * v.cycleTicks) < 2 * v.cycleTicks := by
    rw [Int.tmod_eq_emod_of_nonneg (le_max_left 0 t)]
    exact ⟨Int.emod_nonneg _ (by omega), Int.emod_lt_of_pos _ (by omega)⟩
  generalize (max 0 t).tmod (2 * v.cycleTicks) = ticks at hticks ⊢
  have hrange : ∀ w' : InfiniteClipEnvelope, w'.cycleTicks = v.cycleTicks → w'.rate = v.rate →
      0 ≤ w'.pos ∧ w'.pos ≤ v.cycleTicks → w'.currentRate ≠ 0 →
      Ranged v.cycleTicks (.infinite w') := by
    intro w' hcycle' hrate' hpos' hmoving'
    refine ⟨by rintro _ ⟨⟩, hcycle', hpos', hmoving', ?_, by rintro _ ⟨⟩, fun _ _ => hfits⟩
    show w'.rate ≠ 0
    rw [hrate']
    exact h.rate
  by_cases hdelta : ticks - v.ticks = 0
  · rw [if_pos hdelta]
    exact hrange _ rfl rfl h.pos h.currentRate
  rw [if_neg hdelta]
  by_cases ha : v.autoReverse = true
  · rw [if_pos ha]
    refine hrange _ rfl rfl ?_ ?_
    · dsimp only
      split_ifs <;> omega
    · dsimp only
      have hrate : v.rate ≠ 0 := h.rate
      have hmoving : v.currentRate ≠ 0 := h.currentRate
      have hback := neg_ne_zero.2 hrate
      split_ifs <;> assumption
  · rw [if_neg ha]
    refine hrange _ rfl rfl ?_ h.currentRate
    have hmod := tmod_range hticks.1 hc
    dsimp only
    split_ifs with hzero
    · rw [Int.tmod_eq_emod_of_nonneg hticks.1] at hzero
      have hdvd := Int.dvd_of_emod_eq_zero hzero
      obtain ⟨k, hk⟩ := hdvd
      have hk' : k < 2 := by
        by_contra hge
        have hle : v.cycleTicks * 2 ≤ v.cycleTicks * k :=
          mul_le_mul_of_nonneg_left (not_lt.1 hge) hc.le
        omega
      have hle : v.cycleTicks * k ≤ v.cycleTicks * 1 :=
        mul_le_mul_of_nonneg_left (by omega) hc.le
      omega
    · exact hmod

theorem jumpTo_finite_ranged {v : FiniteClipEnvelope} (h : Ranged c (.finite v)) (hc : 0 < c)
    (t : ℤ) : Ranged c (.finite (v.jumpTo t)) := by
  obtain rfl : v.cycleTicks = c := h.cycleTicks
  rw [FiniteClipEnvelope.jumpTo, if_neg hc.ne']
  dsimp only
  have hticks : 0 ≤ checkBounds (if v.rate < 0 then v.totalTicks - t else t) v.totalTicks := by
    rw [checkBounds]
    exact le_max_left _ _
  have hwithin := @checkBounds_within v.totalTicks (if v.rate < 0 then v.totalTicks - t else t)
  generalize checkBounds (if v.rate < 0 then v.totalTicks - t else t) v.totalTicks = ticks at *
  have hrange : ∀ w' : FiniteClipEnvelope, w'.cycleTicks = v.cycleTicks → w'.rate = v.rate →
      w'.totalTicks = v.totalTicks → w'.ticks = ticks → 0 ≤ w'.pos ∧ w'.pos ≤ v.cycleTicks →
      w'.currentRate ≠ 0 → Ranged v.cycleTicks (.finite w') := by
    intro w' hcycle' hrate' htotal' hticks' hpos' hmoving'
    refine ⟨by rintro _ ⟨⟩, hcycle', hpos', hmoving', ?_, ?_, by rintro _ ⟨⟩⟩
    · show w'.rate ≠ 0
      rw [hrate']
      exact h.rate
    · rintro _ ⟨⟩ hnonneg
      rw [htotal'] at hnonneg ⊢
      rw [hticks']
      exact hwithin hnonneg
  have hmod := tmod_range hticks hc
  have hrate : v.rate ≠ 0 := h.rate
  have hmoving : v.currentRate ≠ 0 := h.currentRate
  by_cases hdelta : ticks - v.ticks = 0
  · rw [if_pos hdelta]
    exact hrange _ rfl rfl rfl rfl h.pos hmoving
  rw [if_neg hdelta]
  by_cases ha : v.autoReverse = true
  · rw [if_pos ha]
    have habs := abs_ne_zero.2 hrate
    have hback := neg_ne_zero.2 habs
    split_ifs <;> refine hrange _ rfl rfl rfl rfl ?_ ?_ <;> dsimp only <;>
      first | assumption | omega
  · rw [if_neg ha]
    refine hrange _ rfl rfl rfl rfl ?_ hmoving
    dsimp only
    split_ifs <;> omega

theorem jumpTo_ranged (h : Ranged c w) (hc : 0 < c) (status : Status) (t : ℤ) :
    Ranged c (w.jumpTo status t).1 := by
  cases w with
  | singleLoop v => exact absurd rfl (h.repeats v)
  | infinite v => exact jumpTo_infinite_ranged h hc status t
  | finite v =>
    have hstatus : Ranged c (.finite { v with status := status }) := by
      refine ⟨nofun, h.cycleTicks, h.pos, h.currentRate, h.rate, ?_, nofun⟩
      rintro _ ⟨⟩ htotal
      exact h.ticks v rfl htotal
    exact jumpTo_finite_ranged hstatus hc t

theorem setAutoReverse_ranged (h : Ranged c w) (autoReverse : Bool) :
    Ranged c (w.setAutoReverse autoReverse) := by
  cases w with
  | singleLoop v => exact absurd rfl (h.repeats v)
  | infinite v =>
    exact ⟨nofun, h.cycleTicks, h.pos, h.currentRate, h.rate, nofun, fun _ _ => h.fits v rfl⟩
  | finite v =>
    refine ⟨nofun, h.cycleTicks, h.pos, h.currentRate, h.rate, ?_, nofun⟩
    rintro _ ⟨⟩ htotal
    exact h.ticks v rfl htotal

/-- Each call of the animation keeps the play head in its cycle. -/
theorem act_ranged (hc : 0 < c) (w : ClipEnvelope) (action : EnvelopeAction) (w' : ClipEnvelope)
    (h : Ranged c w) (hvalid : action.Valid) (hact : act d w action = .ok w') : Ranged c w' := by
  cases action with
  | start =>
    rw [act] at hact
    cases hstart : w.start with
    | error e =>
      rw [hstart] at hact
      cases hact
    | ok res =>
      rw [hstart] at hact
      cases hact
      exact start_ranged h hstart
  | setRate status rate =>
    cases hact
    exact setRate_ranged h status hvalid
  | jumpTo status t =>
    cases hact
    exact jumpTo_ranged h hc status t
  | timePulse t =>
    cases hact
    exact timePulse_ranged h hc t
  | setAutoReverse autoReverse =>
    cases hact
    exact setAutoReverse_ranged h autoReverse

/-- What a pulse leaves alone. -/
theorem timePulse_keeps (h : Ranged c w) (hc : 0 < c) (t t' : ℤ) :
    (w.timePulse d t).1.ticks = w.pulseTo d t ∧
      (w.timePulse d t).1.pulseTo d t' = w.pulseTo d t' ∧
      (w.timePulse d t).1.reachedEnd d t' = w.reachedEnd d t' := by
  have hcycle := h.cycleTicks
  cases w with
  | singleLoop v => exact absurd rfl (h.repeats v)
  | infinite v =>
    subst hcycle
    obtain ⟨hrate, hdelta, hticks⟩ := infinite_timePulse d v hc.ne' t
    refine ⟨hticks, ?_, rfl⟩
    rw [timePulse, pulseTo, pulseTo, hrate, hdelta]
  | finite v =>
    subst hcycle
    obtain ⟨hrate, hdelta, htotal, hticks⟩ := finite_timePulse d.toDoubles v hc.ne' t
    refine ⟨hticks, ?_, ?_⟩
    · rw [timePulse, pulseTo, pulseTo, hrate, hdelta, htotal]
    · rw [timePulse, reachedEnd, reachedEnd, pulseTo, pulseTo, hrate, hdelta, htotal]

def autoReverse : ClipEnvelope → Bool
  | .singleLoop _ => false
  | .infinite w => w.autoReverse
  | .finite w => w.autoReverse

theorem timePulse_autoReverse (t : ℤ) : (w.timePulse d t).1.autoReverse = w.autoReverse := by
  cases w with
  | singleLoop v => rfl
  | infinite v =>
    rw [timePulse, InfiniteClipEnvelope.timePulse]
    dsimp only
    split_ifs <;> rfl
  | finite v =>
    rw [timePulse, FiniteClipEnvelope.timePulse]
    dsimp only
    split_ifs <;> rfl

theorem Ranged.pulsed (h : Ranged c w) (hc : 0 < c) (t : ℤ) :
    Pulsed c w.autoReverse (w.reachedEnd d t) w.head w.currentRate (w.pulseTo d t - w.ticks)
      (w.timePulse d t).1.head (w.timePulse d t).1.currentRate (w.timePulse d t).2 := by
  have hcycle := h.cycleTicks
  cases w with
  | singleLoop v => exact absurd rfl (h.repeats v)
  | infinite v =>
    subst hcycle
    exact v.pulsed d hc h.pos h.currentRate t
  | finite v =>
    subst hcycle
    exact v.pulsed d hc h.pos h.currentRate t

/-- A later pulse leads further, and to the end only from the inside. -/
theorem Ranged.pulseTo_mono (h : Ranged c w) (hmono : ∀ r, Monotone fun t => d.pulseTicks t r)
    {t₁ t₂ : ℤ} (hle : t₁ ≤ t₂) (hend : w.reachedEnd d t₁ = false) :
    w.pulseTo d t₁ ≤ w.pulseTo d t₂ ∧
      (w.reachedEnd d t₂ = true → w.pulseTo d t₁ < w.pulseTo d t₂ ∧ w.ticks ≤ w.pulseTo d t₂) := by
  cases w with
  | singleLoop v => exact absurd rfl (h.repeats v)
  | infinite v =>
    have hticks := hmono v.rate hle
    dsimp only at hticks
    refine ⟨?_, nofun⟩
    rw [pulseTo, pulseTo]
    omega
  | finite v =>
    have hticks := hmono v.rate hle
    dsimp only at hticks
    rw [reachedEnd, decide_eq_false_iff_not, not_le] at hend
    rw [reachedEnd, decide_eq_true_eq]
    rw [pulseTo] at hend ⊢
    rw [pulseTo]
    have hnonneg : 0 ≤ v.totalTicks := by
      rw [checkBounds] at hend
      omega
    have hwithin := h.ticks v rfl hnonneg
    have hv : (ClipEnvelope.finite v).ticks = v.ticks := rfl
    rw [hv]
    rw [checkBounds] at hend ⊢
    rw [checkBounds]
    refine ⟨by omega, fun htotal => ⟨by omega, by omega⟩⟩

theorem Ranged.composes_iff (h : Ranged c w) (hc : 0 < c)
    (hmono : ∀ r, Monotone fun t => d.pulseTicks t r) {t₁ t₂ : ℤ} (hle : t₁ ≤ t₂)
    (hend : w.reachedEnd d t₁ = false) :
    PulsesCompose d w t₁ t₂ ↔
      Composes c (w.reachedEnd d t₂) w.head w.currentRate w.ticks (w.pulseTo d t₁)
        (w.pulseTo d t₂) := by
  have h₁ := h.pulsed (d := d) hc t₁
  have hnext := timePulse_ranged (d := d) h hc t₁
  have h₂ := hnext.pulsed (d := d) hc t₂
  have h₃ := h.pulsed (d := d) hc t₂
  obtain ⟨hticks₁, hto, hreached⟩ := timePulse_keeps (d := d) h hc t₁ t₂
  obtain ⟨hticks₂, _, _⟩ := timePulse_keeps (d := d) hnext hc t₂ t₂
  obtain ⟨hticks₃, _, _⟩ := timePulse_keeps (d := d) h hc t₂ t₂
  obtain ⟨hgo, hlast⟩ := h.pulseTo_mono hmono hle hend
  rw [hend] at h₁
  rw [timePulse_autoReverse, hreached, hto, hticks₁] at h₂
  rw [← JavaFx.Animation.composes_iff hc h.pos h.currentRate hgo hlast h₁ h₂ h₃, PulsesCompose,
    h.cycleTicks]
  rw [hticks₂, hto, hticks₃]
  exact and_iff_right rfl

/-- **Pulse frequency.** In every state that a repeating envelope comes to, a pulse that does
not reach the end makes no difference to a later one exactly if it lies on its way. -/
theorem pulses_compose_iff (d : Arithmetic) (hmono : ∀ r, Monotone fun t => d.pulseTicks t r)
    {s : Settings} (hs : s.cycleCount ≠ 1 ∧ s.cycleDuration ≠ .indefinite) (hrate : s.rate ≠ 0)
    (hc : 0 < d.fromDuration s.cycleDuration)
    (hfit : s.cycleCount = INDEFINITE → 2 * d.fromDuration s.cycleDuration < 2 ^ 63)
    {actions : List EnvelopeAction} (hvalid : ∀ action ∈ actions, action.Valid)
    (hrun : run (act d) (create d s) actions = .ok w) {t₁ t₂ : ℤ} (hle : t₁ ≤ t₂)
    (hend : w.reachedEnd d t₁ = false) :
    PulsesCompose d w t₁ t₂ ↔
      Composes (d.fromDuration s.cycleDuration) (w.reachedEnd d t₂) w.head w.currentRate w.ticks
        (w.pulseTo d t₁) (w.pulseTo d t₂) :=
  (run_invariant_of_ok (Ranged (d.fromDuration s.cycleDuration))
    (fun w action w' h hv => act_ranged hc w action w' h hv)
    (create_ranged d hs hrate hc hfit) (Along.of_forall hvalid) hrun).composes_iff hc hmono hle hend

theorem exact_pulseTicks_mono (r : ℚ) : Monotone fun t => exact.pulseTicks t r := by
  intro t t' hle
  have hmul : (t : ℚ) * |r| + 1 / 2 ≤ t' * |r| + 1 / 2 := by
    have hcast : (t : ℚ) ≤ t' := by exact_mod_cast hle
    exact add_le_add_left (mul_le_mul_of_nonneg_right hcast (abs_nonneg r)) _
  exact max_le_max_left _ (min_le_min_left _ (Int.floor_le_floor hmul))

/-- Cycles of 60 ticks without end, at an eighth of the speed. -/
def slow : Settings := ⟨INDEFINITE, .millis 10, 1 / 8, false⟩

/-- The pulse at 7 is on the way to that at 2000, over some cycles. -/
theorem pulses_compose_slow :
    ∃ w, run (act exact) (create exact slow) [.start, .timePulse 5] = .ok w ∧
      (PulsesCompose exact w 7 2000 ↔
        Composes (exact.fromDuration slow.cycleDuration) (w.reachedEnd exact 2000) w.head
          w.currentRate w.ticks (w.pulseTo exact 7) (w.pulseTo exact 2000)) := by
  have hvalid : ∀ action ∈ [EnvelopeAction.start, .timePulse 5], action.Valid := by
    simp [EnvelopeAction.Valid]
  exact ⟨_, rfl, pulses_compose_iff exact exact_pulseTicks_mono ⟨by decide, by decide⟩
    (by rw [slow]; norm_num) (by decide +kernel) (fun _ => by decide +kernel) hvalid rfl
    (by norm_num) rfl⟩

/-- At the speed of 1, set behind tick 1 at time 5, the ticks of a pulse at time 6 are 0 again,
but the play head stays at 1: a pulse at time 20 comes to 14 then, and alone to 13. -/
theorem pulses_not_compose :
    ∃ w, run (act exact) (create exact slow) [.start, .timePulse 5, .setRate .RUNNING 1] = .ok w ∧
      w.reachedEnd exact 6 = false ∧ ¬ PulsesCompose exact w 6 20 := by
  refine ⟨_, rfl, rfl, fun h => ?_⟩
  exact absurd h.2.1 (by decide +kernel)

end ClipEnvelope

end JavaFx.Animation
