/-
The ticks of a clip envelope between two pulses, with exact numbers.

While an animation runs, its overall position is the elapsed time times the rate, after an
offset (`Affine`): `deltaTicks` is moved at a change of the rate so that the position stays
and the new rate counts from the last pulse. A finite envelope that has come to its end
stays there.
-/
import JavaFx.Animation.ClipEnvelopeCalls
import JavaFx.Animation.Animation
import Mathlib.Tactic.FieldSimp

set_option autoImplicit false
set_option linter.dupNamespace false

namespace JavaFx.Animation

open JavaFx.Lib JavaFx.Lib.ExactDouble

/-! ## Exact products -/

/-- The product of an elapsed time and a rate is an integer, of type `long`. -/
def Integral (elapsed : ℤ) (rate : ℚ) : Prop := ∃ k : ℤ, (elapsed : ℚ) * |rate| = k ∧ k < 2 ^ 63

section Products

variable {E n k : ℤ} {r old : ℚ}

theorem Integral.signed (h : Integral E r) (hE : 0 ≤ E) :
    ∃ j : ℤ, (E : ℚ) * r = j ∧ -2 ^ 63 ≤ j ∧ j < 2 ^ 63 := by
  obtain ⟨k, hk, hlt⟩ := h
  have hk0 : (0 : ℚ) ≤ k := by
    rw [← hk]
    exact mul_nonneg (by exact_mod_cast hE) (abs_nonneg r)
  have hk0' : 0 ≤ k := by exact_mod_cast hk0
  rcases abs_choice r with hr | hr
  · exact ⟨k, by rw [← hk, hr], by omega, hlt⟩
  · refine ⟨-k, ?_, by omega, by omega⟩
    rw [Int.cast_neg, ← hk, hr, mul_neg, neg_neg]

theorem exact_pulseTicks (hk : (E : ℚ) * |r| = k) (hE : 0 ≤ E) (hlt : k < 2 ^ 63) :
    exact.pulseTicks E r = k := by
  have hk0 : (0 : ℚ) ≤ k := by
    rw [← hk]
    exact mul_nonneg (by exact_mod_cast hE) (abs_nonneg r)
  have hk0' : 0 ≤ k := by exact_mod_cast hk0
  rw [exact]
  dsimp only
  rw [abs_number, mul_number, hk]
  exact round_intCast (by omega) hlt

theorem exact_signedTicks (hk : (E : ℚ) * r = k) (hlo : -2 ^ 63 ≤ k) (hhi : k < 2 ^ 63) :
    exact.signedTicks E r = k := by
  rw [exact]
  dsimp only
  rw [mul_number, hk]
  exact round_intCast hlo hhi

/-- Ticks that came with the old rate, in the new one. -/
theorem exact_signedRescale (hn : (n : ℚ) = E * old) (hk : (E : ℚ) * r = k) (hlo : -2 ^ 63 ≤ k)
    (hhi : k < 2 ^ 63) (hzero : old = 0 → r ≠ 0 → E = 0) : exact.signedRescale n r old = k := by
  rw [exact]
  dsimp only
  rw [mul_number]
  by_cases hold : old = 0
  · have hk0 : (k : ℚ) = 0 := by
      rw [← hk]
      by_cases hr : r = 0
      · rw [hr, mul_zero]
      · rw [hzero hold hr, Int.cast_zero, zero_mul]
    have hk0' : k = 0 := by exact_mod_cast hk0
    rw [hn, hold, mul_zero, zero_mul, round_zero_div, hk0']
  · rw [div_number hold, hn, show (E : ℚ) * old * r / old = E * r by field_simp, hk]
    exact round_intCast hlo hhi

theorem exact_rescale (hn : (n : ℚ) = E * |old|) (hk : (E : ℚ) * |r| = k) (hE : 0 ≤ E)
    (hhi : k < 2 ^ 63) (hzero : old = 0 → r ≠ 0 → E = 0) : exact.rescale n r old = k := by
  have hk0 : (0 : ℚ) ≤ k := by
    rw [← hk]
    exact mul_nonneg (by exact_mod_cast hE) (abs_nonneg r)
  have hk0' : 0 ≤ k := by exact_mod_cast hk0
  rw [exact]
  dsimp only
  by_cases hold : old = 0
  · have hkz : (k : ℚ) = 0 := by
      rw [← hk]
      by_cases hr : r = 0
      · rw [hr, abs_zero, mul_zero]
      · rw [hzero hold hr, Int.cast_zero, zero_mul]
    have hkz' : k = 0 := by exact_mod_cast hkz
    rw [hn, hold, abs_zero, mul_zero, round_zero_mul_abs_div, hkz']
  · have habs : |old| ≠ 0 := abs_ne_zero.mpr hold
    rw [div_number hold, abs_number, mul_number, hn, abs_div,
      show (E : ℚ) * |old| * (|r| / |old|) = E * |r| by field_simp, hk]
    exact round_intCast (by omega) hhi

/-- Fewer ticks are no more in the new rate. -/
theorem exact_rescale_le (hn0 : 0 ≤ n) (hn : (n : ℚ) ≤ E * |old|) (hk : (E : ℚ) * |r| = k)
    (hhi : k < 2 ^ 63) : 0 ≤ exact.rescale n r old ∧ exact.rescale n r old ≤ max 0 k := by
  rw [exact]
  dsimp only
  by_cases hold : old = 0
  · rw [hold, abs_zero, mul_zero] at hn
    have hn' : n ≤ 0 := by exact_mod_cast hn
    have hnz : n = 0 := by omega
    rw [hnz, Int.cast_zero, hold, round_zero_mul_abs_div]
    exact ⟨le_refl 0, le_max_left 0 k⟩
  · have hpos : 0 < |old| := abs_pos.mpr hold
    rw [div_number hold, abs_number, mul_number, abs_div, ExactDouble.round]
    have hx0 : 0 ≤ (n : ℚ) * (|r| / |old|) :=
      mul_nonneg (by exact_mod_cast hn0) (div_nonneg (abs_nonneg r) hpos.le)
    have hxk : (n : ℚ) * (|r| / |old|) ≤ k := by
      calc (n : ℚ) * (|r| / |old|) ≤ E * |old| * (|r| / |old|) :=
            mul_le_mul_of_nonneg_right hn (div_nonneg (abs_nonneg r) hpos.le)
        _ = E * |r| := by field_simp
        _ = k := hk
    have hfloor0 : 0 ≤ ⌊(n : ℚ) * (|r| / |old|) + 1 / 2⌋ := Int.floor_nonneg.mpr (by linarith)
    have hfloork : ⌊(n : ℚ) * (|r| / |old|) + 1 / 2⌋ ≤ k := by
      rw [← Int.lt_add_one_iff, Int.floor_lt]
      push_cast
      linarith
    omega

end Products

namespace ClipEnvelope

/-- The position after some elapsed time at the current rate. -/
def Affine (E : ℤ) : ClipEnvelope → Prop
  | .singleLoop w =>
    w.currentRate = w.rate ∧ 0 ≤ w.ticks ∧ w.ticks ≤ w.cycleTicks
      ∧ ((w.ticks - w.deltaTicks : ℤ) : ℚ) = E * w.rate
  | .infinite w => 0 ≤ w.ticks ∧ ((w.ticks - w.deltaTicks : ℤ) : ℚ) = E * |w.rate|
  | .finite w =>
    0 ≤ w.ticks ∧ w.ticks ≤ w.totalTicks ∧ w.deltaTicks ≤ w.ticks
      ∧ (((w.ticks - w.deltaTicks : ℤ) : ℚ) = E * |w.rate|
        ∨ w.ticks = w.totalTicks ∧ ((w.ticks - w.deltaTicks : ℤ) : ℚ) ≤ E * |w.rate|)

/-- The position is one of the animation. -/
def Within : ClipEnvelope → Prop
  | .singleLoop w => 0 ≤ w.ticks ∧ w.ticks ≤ w.cycleTicks
  | .infinite w => 0 ≤ w.ticks
  | .finite w => 0 ≤ w.ticks ∧ w.ticks ≤ w.totalTicks

/-- So it is when it is moved by `m`; only the size of `m` counts where there are many
cycles. -/
def Inside (m : ℚ) : ClipEnvelope → Prop
  | .singleLoop w => 0 ≤ w.ticks + m ∧ w.ticks + m ≤ w.cycleTicks
  | .infinite _ => True
  | .finite w => w.ticks + |m| ≤ w.totalTicks

variable {w : ClipEnvelope} {E E' : ℤ} {r : ℚ}

theorem start_affine {res : ClipEnvelope × List Call} (h : w.start = .ok res)
    (hwithin : Within res.1) : Affine 0 res.1 := by
  cases w with
  | singleLoop w =>
    obtain rfl := Except.ok.inj h
    exact ⟨rfl, hwithin.1, hwithin.2, by simp [SingleLoopClipEnvelope.start]⟩
  | infinite w =>
    rw [start, InfiniteClipEnvelope.start] at h
    split_ifs at h
    · cases h
    · obtain rfl := Except.ok.inj h
      exact ⟨hwithin, by simp⟩
  | finite w =>
    rw [start] at h
    split_ifs at h
    obtain rfl := Except.ok.inj h
    exact ⟨hwithin.1, hwithin.2, le_refl _, .inl (by simp [FiniteClipEnvelope.start])⟩

theorem start_rate {res : ClipEnvelope × List Call} (h : w.start = .ok res) :
    res.1.rate = w.rate := by
  cases w with
  | singleLoop w =>
    obtain rfl := Except.ok.inj h
    rfl
  | infinite w =>
    rw [start, InfiniteClipEnvelope.start] at h
    split_ifs at h
    · cases h
    · obtain rfl := Except.ok.inj h
      rfl
  | finite w =>
    rw [start] at h
    split_ifs at h
    obtain rfl := Except.ok.inj h
    rfl

/-- **A change of the rate** to one of the same sign, or from or to zero, keeps the position;
away from zero it must not come after a pulse. -/
theorem setRate_affine (h : Affine E w) (hE : 0 ≤ E) (hsign : 0 ≤ r * w.rate)
    (hintegral : Integral E r) (hzero : w.rate = 0 → r ≠ 0 → E = 0) :
    Affine E (w.setRate exact .RUNNING r).1 := by
  cases w with
  | singleLoop w =>
    obtain ⟨hcurrent, hlo, hhi, hticks⟩ := h
    obtain ⟨j, hj, hjlo, hjhi⟩ := hintegral.signed hE
    have hnear : |w.currentRate - w.rate| < EPSILON := by
      rw [hcurrent, sub_self, abs_zero, EPSILON]
      norm_num
    refine ⟨?_, hlo, hhi, ?_⟩
    · simp only [SingleLoopClipEnvelope.setRate, if_pos hnear, if_true]
    · have hrescale := exact_signedRescale hticks hj hjlo hjhi hzero
      simp only [SingleLoopClipEnvelope.setRate, ne_eq, reduceCtorEq, not_false_eq_true, if_true,
        hrescale, sub_sub_cancel]
      exact hj.symm
  | infinite w =>
    obtain ⟨hlo, hticks⟩ := h
    obtain ⟨k, hk, hlt⟩ := hintegral
    have hrescale := exact_rescale hticks hk hE hlt hzero
    have hproduct : ¬ exact.product r w.rate < 0 := not_lt.mpr hsign
    simp only [setRate, InfiniteClipEnvelope.setRate, hproduct, and_false, if_false, add_zero,
      ne_eq, reduceCtorEq, not_false_eq_true, if_true, hrescale]
    exact ⟨hlo, by rw [sub_sub_cancel, hk]⟩
  | finite w =>
    obtain ⟨hlo, hhi, hdelta, hticks⟩ := h
    obtain ⟨k, hk, hlt⟩ := hintegral
    have hproduct : ¬ exact.product r w.rate < 0 := not_lt.mpr hsign
    simp only [setRate, FiniteClipEnvelope.setRate, hproduct, if_false, ne_eq, reduceCtorEq,
      not_false_eq_true, if_true]
    rcases hticks with haligned | ⟨hend, hle⟩
    · have hrescale := exact_rescale haligned hk hE hlt hzero
      have hk0 : (0 : ℚ) ≤ k := by
        rw [← hk]
        exact mul_nonneg (by exact_mod_cast hE) (abs_nonneg r)
      have hk0' : 0 ≤ k := by exact_mod_cast hk0
      refine ⟨hlo, hhi, ?_, .inl ?_⟩
      · dsimp only
        rw [hrescale]
        omega
      · dsimp only
        rw [hrescale, sub_sub_cancel, hk]
    · obtain ⟨hr0, hrk⟩ := exact_rescale_le (by omega) hle hk hlt
      have hk0 : (0 : ℚ) ≤ k := by
        rw [← hk]
        exact mul_nonneg (by exact_mod_cast hE) (abs_nonneg r)
      have hk0' : 0 ≤ k := by exact_mod_cast hk0
      rw [max_eq_right hk0'] at hrk
      refine ⟨hlo, hhi, ?_, .inr ⟨hend, ?_⟩⟩
      · dsimp only
        omega
      · dsimp only
        rw [sub_sub_cancel, hk]
        exact_mod_cast hrk

theorem setRate_ticks (status : Status) (hsign : 0 ≤ r * w.rate) :
    (w.setRate exact status r).1.ticks = w.ticks := by
  have hproduct : ¬ exact.product r w.rate < 0 := not_lt.mpr hsign
  cases w with
  | singleLoop w => rfl
  | infinite w =>
    rw [setRate, InfiniteClipEnvelope.setRate, ticks]
    dsimp only
    rw [if_neg (fun h => hproduct h.2), add_zero]
    rfl
  | finite w =>
    rw [setRate, FiniteClipEnvelope.setRate, ticks]
    dsimp only
    exact if_neg hproduct

/-! ## Pulses -/

/-- What a pulse leaves alone, and where it leads. -/
theorem finite_timePulse (d : Doubles) (w : FiniteClipEnvelope) (hcycle : w.cycleTicks ≠ 0)
    (t : ℤ) :
    (w.timePulse d t).rate = w.rate ∧ (w.timePulse d t).deltaTicks = w.deltaTicks
      ∧ (w.timePulse d t).totalTicks = w.totalTicks
      ∧ (w.timePulse d t).ticks
        = checkBounds (w.deltaTicks + d.pulseTicks t w.rate) w.totalTicks := by
  rw [FiniteClipEnvelope.timePulse, if_neg hcycle]
  dsimp only
  split_ifs <;> exact ⟨rfl, rfl, rfl, rfl⟩

theorem infinite_timePulse (d : Arithmetic) (w : InfiniteClipEnvelope) (hcycle : w.cycleTicks ≠ 0)
    (t : ℤ) :
    (w.timePulse d t).1.rate = w.rate ∧ (w.timePulse d t).1.deltaTicks = w.deltaTicks
      ∧ (w.timePulse d t).1.ticks = max 0 (w.deltaTicks + d.pulseTicks t w.rate) := by
  rw [InfiniteClipEnvelope.timePulse, if_neg hcycle]
  dsimp only
  split_ifs <;> exact ⟨rfl, rfl, rfl⟩

theorem timePulse_rate (d : Arithmetic) (w : ClipEnvelope) (t : ℤ) :
    (w.timePulse d t).1.rate = w.rate := by
  cases w with
  | singleLoop w =>
    rw [timePulse, SingleLoopClipEnvelope.timePulse]
    split_ifs <;> rfl
  | infinite w =>
    rw [timePulse, InfiniteClipEnvelope.timePulse]
    dsimp only
    split_ifs <;> rfl
  | finite w =>
    rw [timePulse, FiniteClipEnvelope.timePulse]
    dsimp only
    split_ifs <;> rfl

theorem timePulse_cycleTicks (d : Arithmetic) (w : ClipEnvelope) (t : ℤ) :
    (w.timePulse d t).1.cycleTicks = w.cycleTicks := by
  cases w with
  | singleLoop w =>
    rw [timePulse, SingleLoopClipEnvelope.timePulse]
    split_ifs <;> rfl
  | infinite w =>
    rw [timePulse, InfiniteClipEnvelope.timePulse]
    dsimp only
    split_ifs <;> rfl
  | finite w =>
    rw [timePulse, FiniteClipEnvelope.timePulse]
    dsimp only
    split_ifs <;> rfl

/-- An envelope whose ticks come to the end, and were not there, ends the animation. -/
theorem finished_mem (d : Arithmetic) (w : FiniteClipEnvelope) (hcycle : w.cycleTicks ≠ 0) {t : ℤ}
    (hend : checkBounds (w.deltaTicks + d.pulseTicks t w.rate) w.totalTicks = w.totalTicks)
    (hmoved : w.totalTicks - w.ticks ≠ 0) : .finished ∈ w.timePulseCalls d t := by
  rw [FiniteClipEnvelope.timePulseCalls, if_neg hcycle]
  dsimp only
  rw [hend, if_neg hmoved, if_pos (decide_eq_true (le_refl _))]
  exact List.mem_append_right _ (List.mem_singleton_self _)

/-- **A pulse** of a finite envelope. -/
theorem timePulse_finite {w : FiniteClipEnvelope} (h : Affine E (.finite w)) (hE : 0 ≤ E)
    (hle : E ≤ E') (hcycle : w.cycleTicks ≠ 0) (hintegral : Integral E' w.rate) :
    (.finished ∉ w.timePulseCalls exact E' →
        Affine E' (.finite (w.timePulse exact.toDoubles E')))
      ∧ (Inside ((E' - E) * w.rate) (.finite w) →
        ((w.timePulse exact.toDoubles E').ticks - w.ticks : ℚ) = (E' - E) * |w.rate|) := by
  obtain ⟨hlo, hhi, hdelta, hticks⟩ := h
  obtain ⟨k, hk, hlt⟩ := hintegral
  obtain ⟨hrate, hdeltaTicks, htotal, hticks'⟩ :=
    finite_timePulse exact.toDoubles w hcycle E'
  have hpulse : exact.toDoubles.pulseTicks E' w.rate = k := exact_pulseTicks hk (hE.trans hle) hlt
  have hrate0 := abs_nonneg w.rate
  have hEq : (E : ℚ) ≤ E' := by exact_mod_cast hle
  have hgrow : (E : ℚ) * |w.rate| ≤ k := hk ▸ mul_le_mul_of_nonneg_right hEq hrate0
  have hnk : w.ticks - w.deltaTicks ≤ k := by
    have : ((w.ticks - w.deltaTicks : ℤ) : ℚ) ≤ k :=
      (hticks.elim (fun h => h.le) (fun h => h.2)).trans hgrow
    exact_mod_cast this
  have hnew : (w.timePulse exact.toDoubles E').ticks = min (w.deltaTicks + k) w.totalTicks := by
    rw [hticks', hpulse, checkBounds]
    omega
  constructor
  · intro hrunning
    by_cases hend : w.totalTicks < w.deltaTicks + k
    · -- the animation would have ended, had it not been at the end before
      have hsame : w.ticks = w.totalTicks := by
        by_contra hne
        refine hrunning (finished_mem exact w hcycle ?_ (by omega))
        rw [hpulse, checkBounds]
        omega
      refine ⟨?_, ?_, ?_, .inr ⟨?_, ?_⟩⟩
      all_goals simp only [hnew, htotal, hdeltaTicks, hrate]
      · omega
      · omega
      · omega
      · omega
      · rw [min_eq_right hend.le, hk, ← hsame]
        exact_mod_cast hnk
    · refine ⟨?_, ?_, ?_, .inl ?_⟩
      all_goals simp only [hnew, htotal, hdeltaTicks, hrate]
      · omega
      · omega
      · omega
      · rw [min_eq_left (by omega), add_sub_cancel_left, hk]
  · intro hinside
    have hm : (w.ticks : ℚ) + (E' - E) * |w.rate| ≤ w.totalTicks := by
      have hm := hinside
      rwa [Inside, abs_mul, abs_of_nonneg (sub_nonneg.mpr hEq)] at hm
    have hm0 : 0 ≤ ((E' : ℚ) - E) * |w.rate| := mul_nonneg (sub_nonneg.mpr hEq) hrate0
    rcases hticks with haligned | ⟨hend, -⟩
    · have hraw : ((w.deltaTicks + k : ℤ) : ℚ) = w.ticks + (E' - E) * |w.rate| := by
        push_cast at haligned ⊢
        rw [← hk]
        linarith
      have hfits : w.deltaTicks + k ≤ w.totalTicks := by
        rw [← hraw] at hm
        exact_mod_cast hm
      rw [hnew, min_eq_left hfits, hraw, add_sub_cancel_left]
    · have hzero : ((E' : ℚ) - E) * |w.rate| = 0 := by
        rw [hend] at hm
        linarith
      have hmin : min (w.deltaTicks + k) w.totalTicks = w.ticks := by omega
      rw [hnew, hmin, sub_self, hzero]

theorem timePulse_infinite {w : InfiniteClipEnvelope} (h : Affine E (.infinite w)) (hE : 0 ≤ E)
    (hle : E ≤ E') (hcycle : w.cycleTicks ≠ 0) (hintegral : Integral E' w.rate) :
    Affine E' (.infinite (w.timePulse exact E').1)
      ∧ ((w.timePulse exact E').1.ticks - w.ticks : ℚ) = (E' - E) * |w.rate| := by
  obtain ⟨hlo, haligned⟩ := h
  obtain ⟨k, hk, hlt⟩ := hintegral
  obtain ⟨hrate, hdeltaTicks, hticks'⟩ := infinite_timePulse exact w hcycle E'
  have hpulse : exact.toDoubles.pulseTicks E' w.rate = k := exact_pulseTicks hk (hE.trans hle) hlt
  have hrate0 := abs_nonneg w.rate
  have hEq : (E : ℚ) ≤ E' := by exact_mod_cast hle
  have hm0 : 0 ≤ ((E' : ℚ) - E) * |w.rate| := mul_nonneg (sub_nonneg.mpr hEq) hrate0
  have hraw : ((w.deltaTicks + k : ℤ) : ℚ) = w.ticks + (E' - E) * |w.rate| := by
    push_cast at haligned ⊢
    rw [← hk]
    linarith
  have hraw0 : 0 ≤ w.deltaTicks + k := by
    have hlo' : (0 : ℚ) ≤ w.ticks := by exact_mod_cast hlo
    have : (0 : ℚ) ≤ ((w.deltaTicks + k : ℤ) : ℚ) := by
      rw [hraw]
      linarith
    exact_mod_cast this
  have hnew : (w.timePulse exact E').1.ticks = w.deltaTicks + k := by
    rw [hticks', hpulse, max_eq_right hraw0]
  refine ⟨⟨?_, ?_⟩, ?_⟩
  · rw [hnew]
    exact hraw0
  · rw [hnew, hdeltaTicks, hrate, add_sub_cancel_left, hk]
  · rw [hnew, hraw, add_sub_cancel_left]

theorem timePulse_singleLoop {w : SingleLoopClipEnvelope} (h : Affine E (.singleLoop w))
    (hE : 0 ≤ E) (hle : E ≤ E') (hcycle : w.cycleTicks ≠ 0) (hintegral : Integral E' w.rate) :
    (.finished ∉ (w.timePulse exact E').2 → Affine E' (.singleLoop (w.timePulse exact E').1))
      ∧ (Inside ((E' - E) * w.rate) (.singleLoop w) →
        |((w.timePulse exact E').1.ticks - w.ticks : ℚ)| = (E' - E) * |w.rate|) := by
  obtain ⟨hcurrent, hlo, hhi, haligned⟩ := h
  obtain ⟨j, hj, hjlo, hjhi⟩ := hintegral.signed (hE.trans hle)
  have hpulse : exact.signedTicks E' w.currentRate = j := by
    rw [hcurrent]
    exact exact_signedTicks hj hjlo hjhi
  have hEq : (E : ℚ) ≤ E' := by exact_mod_cast hle
  have hraw : ((w.deltaTicks + j : ℤ) : ℚ) = w.ticks + (E' - E) * w.rate := by
    push_cast at haligned ⊢
    rw [← hj]
    linarith
  rw [SingleLoopClipEnvelope.timePulse, if_neg hcycle]
  dsimp only
  rw [hpulse]
  constructor
  · intro hrunning
    -- no end is reached, so that the bounds change nothing
    have hbounds : checkBounds (w.deltaTicks + j) w.cycleTicks = w.deltaTicks + j := by
      by_cases hforward : w.currentRate > 0
      · have hne : checkBounds (w.deltaTicks + j) w.cycleTicks ≠ w.cycleTicks := by
          intro hreached
          rw [if_pos (by rw [if_pos hforward]; exact hreached)] at hrunning
          exact hrunning (by simp)
        have hge : w.ticks ≤ w.deltaTicks + j := by
          have : (w.ticks : ℚ) ≤ ((w.deltaTicks + j : ℤ) : ℚ) := by
            rw [hraw]
            have := mul_nonneg (sub_nonneg.mpr hEq) (hcurrent ▸ hforward.le)
            linarith
          exact_mod_cast this
        rw [checkBounds] at hne ⊢
        omega
      · have hne : checkBounds (w.deltaTicks + j) w.cycleTicks ≠ 0 := by
          intro hreached
          rw [if_pos (by rw [if_neg hforward]; exact hreached)] at hrunning
          exact hrunning (by simp)
        have hle' : w.deltaTicks + j ≤ w.ticks := by
          have : ((w.deltaTicks + j : ℤ) : ℚ) ≤ w.ticks := by
            rw [hraw]
            have := mul_nonneg (sub_nonneg.mpr hEq) (neg_nonneg.mpr (not_lt.mp (hcurrent ▸ hforward)))
            linarith
          exact_mod_cast this
        rw [checkBounds] at hne ⊢
        omega
    rw [hbounds]
    refine ⟨hcurrent, ?_, ?_, ?_⟩
    · rw [← hbounds, checkBounds]
      dsimp only
      omega
    · rw [← hbounds, checkBounds]
      dsimp only
      omega
    · dsimp only
      rw [add_sub_cancel_left, hj]
  · rintro ⟨hm0, hm1⟩
    rw [← hraw] at hm0 hm1
    have h0 : 0 ≤ w.deltaTicks + j := by exact_mod_cast hm0
    have h1 : w.deltaTicks + j ≤ w.cycleTicks := by exact_mod_cast hm1
    have hbounds : checkBounds (w.deltaTicks + j) w.cycleTicks = w.deltaTicks + j := by
      rw [checkBounds]
      omega
    rw [hbounds, hraw, add_sub_cancel_left, abs_mul, abs_of_nonneg (sub_nonneg.mpr hEq)]

/-- The position in the cycle. -/
def head : ClipEnvelope → ℤ
  | .singleLoop w => w.ticks
  | .infinite w => w.pos
  | .finite w => w.pos

/-- A way of `m` ends no cycle, and not the last one. -/
def InCycle (m : ℚ) : ClipEnvelope → Prop
  | .singleLoop w => Inside m (.singleLoop w)
  | .infinite w => |m| < (if w.currentRate > 0 then w.cycleTicks - w.pos else w.pos : ℤ)
  | .finite w =>
    |m| < (if w.currentRate > 0 then w.cycleTicks - w.pos else w.pos : ℤ)
      ∧ w.ticks + |m| < w.totalTicks

theorem InCycle.inside {m : ℚ} (h : InCycle m w) : Inside m w := by
  cases w with
  | singleLoop w => exact h
  | infinite w => trivial
  | finite w => exact h.2.le

/-- The loop of `timePulse` has nothing to do inside a cycle. -/
theorem loop_inCycle {p : FiniteClipEnvelope.Progress} (h : p.overallDelta < p.cycleDelta) (c : ℤ)
    (autoReverse reachedEnd : Bool) (fuel : ℕ) : p.loop c autoReverse reachedEnd fuel = p := by
  cases fuel with
  | zero => rfl
  | succ fuel => exact if_neg (not_le.mpr h)

/-- A step forward or back. -/
theorem abs_step (b : Prop) [Decidable b] (pos m : ℤ) (hm : 0 ≤ m) :
    |((if b then pos + m else pos - m : ℤ) - pos : ℚ)| = m := by
  have hm' : (0 : ℚ) ≤ m := by exact_mod_cast hm
  split_ifs
  · push_cast
    rw [add_sub_cancel_left, abs_of_nonneg hm']
  · push_cast
    rw [sub_sub_cancel_left, abs_neg, abs_of_nonneg hm']

theorem head_finite {w : FiniteClipEnvelope} (d : Doubles) (hcycle : w.cycleTicks ≠ 0) {t : ℤ}
    {m : ℚ} (hm : ((w.timePulse d t).ticks - w.ticks : ℚ) = m) (hm0 : 0 ≤ m)
    (hin : InCycle m (.finite w)) : |((w.timePulse d t).pos - w.pos : ℚ)| = m := by
  obtain ⟨hleft, htotal⟩ := hin
  obtain ⟨-, -, -, hticks⟩ := finite_timePulse d w hcycle t
  rw [hticks] at hm
  rw [FiniteClipEnvelope.timePulse, if_neg hcycle]
  dsimp only
  generalize checkBounds (w.deltaTicks + d.pulseTicks t w.rate) w.totalTicks = ticks at hm ⊢
  rw [← Int.cast_sub] at hm
  rw [abs_of_nonneg hm0, ← hm] at hleft htotal
  have hend : ¬ ticks ≥ w.totalTicks := by
    have : w.ticks + (ticks - w.ticks) < w.totalTicks := by exact_mod_cast htotal
    omega
  have hdelta0 : 0 ≤ ticks - w.ticks := by
    rw [← hm] at hm0
    exact_mod_cast hm0
  have hloop : ticks - w.ticks < if w.currentRate > 0 then w.cycleTicks - w.pos else w.pos := by
    exact_mod_cast hleft
  rw [loop_inCycle hloop, ← hm]
  by_cases hzero : ticks - w.ticks = 0
  · rw [if_pos hzero, hzero, sub_self, abs_zero, Int.cast_zero]
  · rw [if_neg hzero]
    have hmoves : (decide (ticks - w.ticks > 0) && !decide (ticks ≥ w.totalTicks)) = true := by
      rw [decide_eq_true (show ticks - w.ticks > 0 by omega), decide_eq_false hend]
      rfl
    dsimp only
    rw [if_pos hmoves]
    exact abs_step _ w.pos (ticks - w.ticks) hdelta0

theorem head_infinite {w : InfiniteClipEnvelope} (d : Arithmetic) (hcycle : w.cycleTicks ≠ 0)
    {t : ℤ} {m : ℚ} (hm : ((w.timePulse d t).1.ticks - w.ticks : ℚ) = m) (hm0 : 0 ≤ m)
    (hin : InCycle m (.infinite w)) : |((w.timePulse d t).1.pos - w.pos : ℚ)| = m := by
  have hleft : |m| < (if w.currentRate > 0 then w.cycleTicks - w.pos else w.pos : ℤ) := hin
  obtain ⟨-, -, hticks⟩ := infinite_timePulse d w hcycle t
  rw [hticks] at hm
  rw [InfiniteClipEnvelope.timePulse, if_neg hcycle]
  dsimp only
  generalize max 0 (w.deltaTicks + d.pulseTicks t w.rate) = ticks at hm ⊢
  rw [← Int.cast_sub] at hm
  rw [abs_of_nonneg hm0, ← hm] at hleft
  have hdelta0 : 0 ≤ ticks - w.ticks := by
    rw [← hm] at hm0
    exact_mod_cast hm0
  have hloop : ticks - w.ticks < if w.currentRate > 0 then w.cycleTicks - w.pos else w.pos := by
    exact_mod_cast hleft
  rw [loop_inCycle hloop, ← hm]
  by_cases hzero : ticks - w.ticks = 0
  · rw [if_pos hzero, hzero, sub_self, abs_zero, Int.cast_zero]
  · rw [if_neg hzero]
    dsimp only
    rw [if_pos (show ticks - w.ticks > 0 by omega)]
    exact abs_step _ w.pos (ticks - w.ticks) hdelta0

/-- **A pulse** moves the position by the time since the last one at the present rate, unless
the animation ends; inside a cycle the play head moves by as much. -/
theorem timePulse_affine (h : Affine E w) (hE : 0 ≤ E) (hle : E ≤ E') (hcycle : 0 < w.cycleTicks)
    (hintegral : Integral E' w.rate) :
    (.finished ∉ (w.timePulse exact E').2 → Affine E' (w.timePulse exact E').1)
      ∧ (Inside ((E' - E) * w.rate) w →
        |((w.timePulse exact E').1.ticks - w.ticks : ℚ)| = (E' - E) * |w.rate|)
      ∧ (InCycle ((E' - E) * w.rate) w →
        |((w.timePulse exact E').1.head - w.head : ℚ)| = (E' - E) * |w.rate|) := by
  have hEq : (E : ℚ) ≤ E' := by exact_mod_cast hle
  have habs : |((E' : ℚ) - E) * w.rate| = (E' - E) * |w.rate| := by
    rw [abs_mul, abs_of_nonneg (sub_nonneg.mpr hEq)]
  have hm0 : 0 ≤ ((E' : ℚ) - E) * |w.rate| :=
    mul_nonneg (sub_nonneg.mpr hEq) (abs_nonneg w.rate)
  have habs' : |(((E' : ℚ) - E) * |w.rate| : ℚ)| = |((E' : ℚ) - E) * w.rate| := by
    rw [habs, abs_of_nonneg hm0]
  cases w with
  | singleLoop w =>
    obtain ⟨haffine, hmoved⟩ := timePulse_singleLoop h hE hle hcycle.ne' hintegral
    exact ⟨haffine, hmoved, hmoved⟩
  | infinite w =>
    obtain ⟨haffine, hmoved⟩ := timePulse_infinite h hE hle hcycle.ne' hintegral
    refine ⟨fun _ => haffine, fun _ => ?_, fun hin => ?_⟩
    · rw [← abs_of_nonneg hm0]
      exact congrArg (fun x : ℚ => |x|) hmoved
    · refine head_infinite exact hcycle.ne' hmoved hm0 ?_
      rw [InCycle] at hin ⊢
      exact habs'.symm ▸ hin
  | finite w =>
    obtain ⟨haffine, hmoved⟩ := timePulse_finite h hE hle hcycle.ne' hintegral
    refine ⟨haffine, fun hinside => ?_, fun hin => ?_⟩
    · rw [← abs_of_nonneg hm0]
      exact congrArg (fun x : ℚ => |x|) (hmoved hinside)
    · refine head_finite exact.toDoubles hcycle.ne' (hmoved hin.inside) hm0 ?_
      rw [InCycle] at hin ⊢
      exact habs'.symm ▸ hin

end ClipEnvelope

end JavaFx.Animation
