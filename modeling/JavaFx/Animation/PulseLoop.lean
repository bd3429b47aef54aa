/-
The loop of `timePulse`, as a way of the play head.

The loop of both repeating envelopes takes the overall delta a cycle at a time. `Loops` is
its meaning without fuel. A way that is made in two parts ends each cycle where the whole way
does (`Loops.add`), and a part that stops inside a cycle is gone on with there
(`Loops.resume`): so pulses compose. What a pulse is from outside is `play`.
-/
import JavaFx.Animation.ClipEnvelope
import Mathlib.Tactic.Linarith
import Mathlib.Tactic.Ring

set_option autoImplicit false

namespace JavaFx.Animation

open JavaFx.Lib

/-- The calls at the end of a cycle: a play to this end, or a jump to the start of the next. -/
def Call.endsCycle (c : ℤ) : Call → Bool
  | .playTo ticks => ticks = 0 || ticks = c
  | .jumpTo _ => true
  | _ => false

def cycleEnds (c : ℤ) (calls : List Call) : List Call := calls.filter (Call.endsCycle c)

theorem cycleEnds_append (c : ℤ) (calls calls' : List Call) :
    cycleEnds c (calls ++ calls') = cycleEnds c calls ++ cycleEnds c calls' := List.filter_append ..

namespace FiniteClipEnvelope.Progress

variable {c δ : ℤ} {a e : Bool} {p q s : Progress} {calls calls' : List Call}

/-- What is left of a cycle. -/
def toEnd (c pos : ℤ) (currentRate : ℚ) : ℤ := if currentRate > 0 then c - pos else pos

/-- The play head is in its cycle, and `cycleDelta` is what is left of it. -/
structure Coherent (c : ℤ) (p : Progress) : Prop where
  within : 0 ≤ p.pos ∧ p.pos ≤ c
  moving : p.currentRate ≠ 0
  cycleDelta : p.cycleDelta = toEnd c p.pos p.currentRate
  overall : 0 ≤ p.overallDelta

theorem Coherent.cycleDelta_bounds (h : Coherent c p) : 0 ≤ p.cycleDelta ∧ p.cycleDelta ≤ c := by
  obtain ⟨hlo, hhi⟩ := h.within
  rw [h.cycleDelta, toEnd]
  split_ifs <;> omega

/-- A longer way. -/
def add (p : Progress) (δ : ℤ) : Progress := { p with overallDelta := p.overallDelta + δ }

@[simp] theorem add_pos' (p : Progress) (δ : ℤ) : (p.add δ).pos = p.pos := rfl

@[simp] theorem add_currentRate (p : Progress) (δ : ℤ) :
    (p.add δ).currentRate = p.currentRate := rfl

@[simp] theorem add_overallDelta (p : Progress) (δ : ℤ) :
    (p.add δ).overallDelta = p.overallDelta + δ := rfl

@[simp] theorem add_cycleDelta (p : Progress) (δ : ℤ) : (p.add δ).cycleDelta = p.cycleDelta := rfl

theorem Coherent.add (h : Coherent c p) (hδ : 0 ≤ δ) : Coherent c (p.add δ) where
  within := h.within
  moving := h.moving
  cycleDelta := h.cycleDelta
  overall := Int.add_nonneg h.overall hδ

/-! ## Turns -/

/-- A turn that does not end the animation. -/
theorem turn_going (h : e = false ∨ p.cycleDelta < p.overallDelta) (hdelta : 0 ≤ p.cycleDelta) :
    p.turn c a e =
      { pos :=
          if a then if p.cycleDelta > 0 then if p.currentRate > 0 then c else 0 else p.pos
          else if p.currentRate > 0 then 0 else c
        currentRate := if a then -p.currentRate else p.currentRate
        overallDelta := p.overallDelta - p.cycleDelta
        cycleDelta := c } := by
  rw [turn]
  by_cases hpos : p.cycleDelta > 0
  · rcases h with rfl | h
    · cases a <;> simp [hpos]
    · cases a <;> simp [hpos, h]
  · obtain hzero : p.cycleDelta = 0 := by omega
    rcases h with rfl | h
    · cases a <;> simp [hzero]
    · have hover : 0 < p.overallDelta := by omega
      cases a <;> simp [hzero, hover]

theorem turnCalls_going (h : e = false ∨ p.cycleDelta < p.overallDelta)
    (hdelta : 0 ≤ p.cycleDelta) :
    p.turnCalls c a e =
      (if p.cycleDelta > 0 then [.playTo (if p.currentRate > 0 then c else 0)] else []) ++
        if a then [.setCurrentRate (-p.currentRate)]
        else [.jumpTo (if p.currentRate > 0 then 0 else c)] := by
  rw [turnCalls]
  by_cases hpos : p.cycleDelta > 0
  · rcases h with rfl | h
    · simp [hpos]
    · simp [hpos, h]
  · obtain hzero : p.cycleDelta = 0 := by omega
    rcases h with rfl | h
    · simp [hzero]
    · have hover : 0 < p.overallDelta := by omega
      simp [hzero, hover]

theorem turn_overallDelta (c : ℤ) (a e : Bool) (hdelta : 0 ≤ p.cycleDelta) :
    (p.turn c a e).overallDelta = p.overallDelta - p.cycleDelta := by
  rw [turn]
  by_cases hpos : p.cycleDelta > 0
  · simp only [if_pos hpos, apply_ite overallDelta, ite_self]
  · simp only [if_neg hpos, apply_ite overallDelta, ite_self]
    omega

/-- A turn leads to the start of a cycle. -/
theorem Coherent.turn (h : Coherent c p) (hc : 0 < c) (hle : p.cycleDelta ≤ p.overallDelta) :
    Coherent c (p.turn c a false) := by
  have hdelta := h.cycleDelta
  obtain ⟨hlo, hhi⟩ := h.within
  rw [turn_going (.inl rfl) h.cycleDelta_bounds.1]
  rw [toEnd] at hdelta
  have hmoving := h.moving
  cases a with
  | false =>
    refine ⟨?_, hmoving, ?_, by dsimp only; omega⟩
    · dsimp only
      simp only [Bool.false_eq_true, if_false]
      split_ifs <;> omega
    · simp only [Bool.false_eq_true, if_false, toEnd]
      split_ifs <;> omega
  | true =>
    have hsign : -p.currentRate > 0 ↔ ¬ p.currentRate > 0 := by
      rw [gt_iff_lt, neg_pos, gt_iff_lt, not_lt]
      exact ⟨le_of_lt, fun hle' => lt_of_le_of_ne hle' hmoving⟩
    refine ⟨?_, neg_ne_zero.2 hmoving, ?_, by dsimp only; omega⟩
    · simp only [if_true]
      split_ifs <;> omega
    · simp only [if_true, toEnd, hsign]
      split_ifs at hdelta ⊢ <;> omega

/-! ## Ways -/

/-- The loop leads from `p` to `q`, with its calls. -/
inductive Loops (c : ℤ) (a e : Bool) : Progress → Progress → List Call → Prop
  | done {p : Progress} (h : p.overallDelta < p.cycleDelta) : Loops c a e p p []
  | turn {p q : Progress} {calls : List Call} (h : p.cycleDelta ≤ p.overallDelta)
      (hrest : Loops c a e (p.turn c a e) q calls) :
      Loops c a e p q (p.turnCalls c a e ++ calls)

theorem Loops.unique (h : Loops c a e p q calls) (h' : Loops c a e p s calls') :
    q = s ∧ calls = calls' := by
  induction h generalizing s calls' with
  | done h =>
    cases h' with
    | done _ => exact ⟨rfl, rfl⟩
    | turn hle _ => omega
  | turn hle _ ih =>
    cases h' with
    | done h => omega
    | turn _ hrest =>
      obtain ⟨hq, hcalls⟩ := ih hrest
      exact ⟨hq, by rw [hcalls]⟩

/-- The fuel that `timePulse` has is enough. -/
theorem loops_loop (hc : 0 < c) (fuel : ℕ) (hdelta : 0 ≤ p.cycleDelta) (hover : 0 ≤ p.overallDelta)
    (hfuel : p.overallDelta + (if p.cycleDelta = 0 then 1 else 0) < fuel) :
    Loops c a e p (p.loop c a e fuel) (p.loopCalls c a e fuel) := by
  induction fuel generalizing p with
  | zero => split at hfuel <;> omega
  | succ fuel ih =>
    rw [loop, loopCalls]
    split
    · rename_i hle
      have hcycle : (p.turn c a e).cycleDelta = c := rfl
      have hrest := turn_overallDelta c a e hdelta
      refine .turn hle (ih (by omega) (by omega) ?_)
      rw [hcycle, hrest, if_neg hc.ne']
      split at hfuel <;> omega
    · rename_i hlt
      exact .done (by omega)

theorem Loops.coherent (h : Loops c a false p q calls) (hc : 0 < c) (hp : Coherent c p) :
    Coherent c q ∧ q.overallDelta < q.cycleDelta := by
  induction h with
  | done h => exact ⟨hp, h⟩
  | turn hle _ ih => exact ih (hp.turn hc hle)

/-- What the way leaves of its last cycle. -/
theorem Loops.left (h : Loops c a false p q calls) (hc : 0 < c) (hp : Coherent c p) :
    (q.cycleDelta - q.overallDelta) % c = (p.cycleDelta - p.overallDelta) % c := by
  induction h with
  | done _ => rfl
  | @turn p q calls hle _ ih =>
    rw [ih (hp.turn hc hle), turn_going (.inl rfl) hp.cycleDelta_bounds.1]
    dsimp only
    rw [show c - (p.overallDelta - p.cycleDelta) = p.cycleDelta - p.overallDelta + c by ring,
      Int.add_emod_right]

/-- **A longer way** goes on from where a part of it has led. -/
theorem Loops.add (h : Loops c a false p q calls) (hc : 0 < c) (hp : Coherent c p) (hδ : 0 ≤ δ)
    (hend : e = false ∨ 0 < δ) (hrest : Loops c a e (q.add δ) s calls') :
    Loops c a e (p.add δ) s (calls ++ calls') := by
  induction h with
  | done _ => exact hrest
  | @turn p q calls hle _ ih =>
    have hdelta := hp.cycleDelta_bounds.1
    have hgoing : e = false ∨ (p.add δ).cycleDelta < (p.add δ).overallDelta :=
      hend.imp_right fun h => by
        rw [add_cycleDelta, add_overallDelta]
        omega
    have hturn : (p.add δ).turn c a e = (p.turn c a false).add δ := by
      rw [turn_going hgoing hdelta, turn_going (.inl rfl) hdelta, add_overallDelta,
        add_cycleDelta, add_sub_right_comm]
      rfl
    have hcalls : (p.add δ).turnCalls c a e = p.turnCalls c a false := by
      rw [turnCalls_going hgoing hdelta, turnCalls_going (.inl rfl) hdelta]
      rfl
    rw [List.append_assoc, ← hcalls]
    refine .turn (by rw [add_cycleDelta, add_overallDelta]; omega) ?_
    rw [hturn]
    exact ih (hp.turn hc hle) hrest

/-- The play head moved on inside its cycle. -/
def moved (p : Progress) : ℤ :=
  if p.currentRate > 0 then p.pos + p.overallDelta else p.pos - p.overallDelta

/-- The pulse after one that stopped inside a cycle. -/
def resume (c : ℤ) (p : Progress) (δ : ℤ) : Progress :=
  ⟨p.moved, p.currentRate, δ, toEnd c p.moved p.currentRate⟩

theorem resume_cycleDelta (hp : Coherent c p) :
    (p.resume c δ).cycleDelta = p.cycleDelta - p.overallDelta := by
  rw [hp.cycleDelta]
  show toEnd c p.moved p.currentRate = _
  rw [moved, toEnd, toEnd]
  split_ifs <;> omega

/-- From the inside of a cycle the next turn is the same. -/
theorem Loops.resume (hp : Coherent c p) (hin : p.overallDelta < p.cycleDelta)
    (hout : p.cycleDelta ≤ p.overallDelta + δ) (h : Loops c a e (p.add δ) q calls) :
    Loops c a e (p.resume c δ) q calls := by
  have hdelta := @resume_cycleDelta c δ p hp
  have hover := hp.overall
  cases h with
  | done h =>
    rw [add_overallDelta, add_cycleDelta] at h
    omega
  | @turn _ _ calls _ hrest =>
    have hpos : (p.add δ).cycleDelta > 0 := by
      rw [add_cycleDelta]
      omega
    have hpos' : (p.resume c δ).cycleDelta > 0 := by omega
    have hleft : (p.resume c δ).overallDelta - (p.resume c δ).cycleDelta =
        (p.add δ).overallDelta - (p.add δ).cycleDelta := by
      rw [hdelta, add_overallDelta, add_cycleDelta]
      show δ - _ = _
      omega
    have hturn : (p.resume c δ).turn c a e = (p.add δ).turn c a e := by
      rw [Progress.turn, Progress.turn, if_pos hpos, if_pos hpos']
      have hcurrent : (p.resume c δ).currentRate = (p.add δ).currentRate := rfl
      simp only [hleft, hcurrent]
      split_ifs <;> rfl
    have hcalls : (p.resume c δ).turnCalls c a e = (p.add δ).turnCalls c a e := by
      rw [turnCalls, turnCalls]
      simp only [if_pos hpos, if_pos hpos', hleft]
      rfl
    rw [← hcalls]
    rw [← hturn] at hrest
    refine .turn ?_ hrest
    show _ ≤ δ
    omega

theorem exists_loops (a e : Bool) (hc : 0 < c) (hp : Coherent c p) :
    ∃ q calls, Loops c a e p q calls := by
  have hover := hp.overall
  refine ⟨_, _, loops_loop hc (p.overallDelta.toNat + 2) hp.cycleDelta_bounds.1 hover ?_⟩
  split <;> omega

theorem Loops.cycle (h : Loops c a e p q calls) : q = p ∨ q.cycleDelta = c := by
  induction h with
  | done _ => exact .inl rfl
  | @turn p q calls _ _ ih =>
    rcases ih with rfl | hcycle
    · exact .inr rfl
    · exact .inr hcycle

theorem Loops.overallDelta_le (h : Loops c a false p q calls) (hc : 0 < c) (hp : Coherent c p) :
    q.overallDelta ≤ p.overallDelta := by
  induction h with
  | done _ => exact le_rfl
  | @turn p q calls hle _ ih =>
    have hdelta := hp.cycleDelta_bounds.1
    have hrest := ih (hp.turn hc hle)
    rw [turn_overallDelta c a false hdelta] at hrest
    omega

/-- A way to the end of the animation that ends no cycle there. -/
theorem Loops.ends_inside (h : Loops c a false p q calls) (hc : 0 < c) (hp : Coherent c p)
    (hleft : 0 < q.overallDelta) : Loops c a true p q calls := by
  induction h with
  | done h => exact .done h
  | @turn p q calls hle hrest ih =>
    have hdelta := hp.cycleDelta_bounds.1
    have hless := hrest.overallDelta_le hc (hp.turn hc hle)
    rw [turn_overallDelta c a false hdelta] at hless
    have hgoing : true = false ∨ p.cycleDelta < p.overallDelta := .inr (by omega)
    have hturn : p.turn c a true = p.turn c a false := by
      rw [turn_going hgoing hdelta, turn_going (.inl rfl) hdelta]
    have hcalls : p.turnCalls c a true = p.turnCalls c a false := by
      rw [turnCalls_going hgoing hdelta, turnCalls_going (.inl rfl) hdelta]
    rw [← hcalls]
    refine .turn hle ?_
    rw [hturn]
    exact ih (hp.turn hc hle) hleft

/-- A way to the end of the animation that ends a cycle there: the last call is left out. -/
theorem Loops.ends_cycle (h : Loops c a false p q calls) (hc : 0 < c) (hp : Coherent c p)
    (hover : 0 < p.overallDelta) (hleft : q.overallDelta = 0) :
    ∃ q' calls' call, Loops c a true p q' calls' ∧ calls = calls' ++ [call] ∧
      (call.endsCycle c = true ∨ q'.currentRate = -q.currentRate) := by
  induction h with
  | done _ => omega
  | @turn p q calls hle hrest ih =>
    have hdelta := hp.cycleDelta_bounds.1
    have hturned := turn_overallDelta c a false hdelta
    by_cases hlast : p.overallDelta = p.cycleDelta
    · -- the last turn
      rw [hlast, sub_self] at hturned
      have hdone : (p.turn c a false).overallDelta < (p.turn c a false).cycleDelta := by
        rw [hturned]
        exact hc
      obtain ⟨rfl, rfl⟩ := hrest.unique (.done hdone)
      have hpos : p.cycleDelta > 0 := by omega
      have hzero : ¬ p.overallDelta - p.cycleDelta > 0 := by omega
      have hturn : p.turn c a true =
          ⟨if p.currentRate > 0 then c else 0, p.currentRate, 0, c⟩ := by
        rw [Progress.turn]
        simp [hpos, hlast]
      refine ⟨_, _, if a then .setCurrentRate (-p.currentRate)
        else .jumpTo (if p.currentRate > 0 then 0 else c), .turn hle (.done ?_), ?_, ?_⟩
      · rw [hturn]
        exact hc
      · rw [turnCalls_going (.inl rfl) hdelta, turnCalls]
        cases a <;> simp [hpos, hlast]
      · cases a with
        | false => exact .inl rfl
        | true =>
          rw [hturn, turn_going (.inl rfl) hdelta]
          exact .inr (neg_neg _).symm
    · have hgoing : true = false ∨ p.cycleDelta < p.overallDelta := .inr (by omega)
      have hturn : p.turn c a true = p.turn c a false := by
        rw [turn_going hgoing hdelta, turn_going (.inl rfl) hdelta]
      have hcalls : p.turnCalls c a true = p.turnCalls c a false := by
        rw [turnCalls_going hgoing hdelta, turnCalls_going (.inl rfl) hdelta]
      obtain ⟨q', calls', call, hloops, rfl, hcall⟩ := ih (hp.turn hc hle) (by omega) hleft
      refine ⟨q', p.turnCalls c a true ++ calls', call, .turn hle ?_, ?_, hcall⟩
      · rw [hturn]
        exact hloops
      · rw [hcalls, List.append_assoc]

/-- A turn over some ticks ends a cycle. -/
theorem turnCalls_ends (a e : Bool) (hpos : 0 < p.cycleDelta) :
    cycleEnds c (p.turnCalls c a e) ≠ [] := by
  have hmem : Call.playTo (if p.currentRate > 0 then c else 0) ∈ p.turnCalls c a e := by
    rw [turnCalls, if_pos hpos]
    exact List.mem_append_left _ (List.mem_singleton_self _)
  refine List.ne_nil_of_mem (List.mem_filter.2 ⟨hmem, ?_⟩)
  rw [Call.endsCycle]
  split_ifs <;> simp

/-! ## Pulses -/

/-- The way of a pulse. -/
def way (c pos : ℤ) (currentRate : ℚ) (δ : ℤ) : Progress :=
  ⟨pos, currentRate, δ, toEnd c pos currentRate⟩

/-- Where a pulse leaves the play head. -/
def place (e : Bool) (q : Progress) : ℤ := if q.overallDelta > 0 ∧ e = false then q.moved else q.pos

variable {pos δ₁ δ₂ : ℤ} {currentRate : ℚ} {q₁ q₂ q₃ : Progress} {calls₁ calls₂ calls₃ : List Call}

theorem way_coherent (hpos : 0 ≤ pos ∧ pos ≤ c) (hmoving : currentRate ≠ 0) (hδ : 0 ≤ δ) :
    Coherent c (way c pos currentRate δ) := ⟨hpos, hmoving, rfl, hδ⟩

/-- What is left of the cycle that a pulse stops in. -/
theorem left_eq (hc : 0 < c) (hpos : 0 ≤ pos ∧ pos ≤ c) (hmoving : currentRate ≠ 0) (hδ : 0 < δ)
    (h : Loops c a false (way c pos currentRate δ) q calls) :
    (toEnd c pos currentRate - δ) % c =
      if q.overallDelta = 0 then 0 else q.cycleDelta - q.overallDelta := by
  have hp := way_coherent hpos hmoving hδ.le
  obtain ⟨hq, hlt⟩ := h.coherent hc hp
  have hbounds := hq.cycleDelta_bounds
  have hover := hq.overall
  have hleft : (q.cycleDelta - q.overallDelta) % c = (toEnd c pos currentRate - δ) % c :=
    h.left hc hp
  rw [← hleft]
  by_cases hzero : q.overallDelta = 0
  · rw [if_pos hzero, hzero, sub_zero]
    rcases h.cycle with rfl | hcycle
    · exact absurd hzero hδ.ne'
    · rw [hcycle, Int.emod_self]
  · rw [if_neg hzero]
    exact Int.emod_eq_of_lt (by omega) (by omega)

/-- **Two pulses** make the way of one, and the same calls; they leave the play head in the
same place unless the animation ends before the cycle that the first one stopped in does. -/
theorem pulses_add (hc : 0 < c) (hpos : 0 ≤ pos ∧ pos ≤ c) (hmoving : currentRate ≠ 0)
    (hδ₁ : 0 < δ₁) (hδ₂ : 0 < δ₂) (h₁ : Loops c a false (way c pos currentRate δ₁) q₁ calls₁)
    (h₂ : Loops c a e (way c (place false q₁) q₁.currentRate δ₂) q₂ calls₂)
    (h₃ : Loops c a e (way c pos currentRate (δ₁ + δ₂)) q₃ calls₃) :
    calls₃ = calls₁ ++ calls₂ ∧ q₃.currentRate = q₂.currentRate ∧
      (place e q₃ = place e q₂ ↔ (e = true → (toEnd c pos currentRate - δ₁) % c ≤ δ₂)) := by
  have hp := way_coherent hpos hmoving hδ₁.le
  obtain ⟨hq, hlt⟩ := h₁.coherent hc hp
  have hover := hq.overall
  rw [left_eq hc hpos hmoving hδ₁ h₁]
  obtain ⟨s, calls, hs⟩ := exists_loops a e hc (hq.add hδ₂.le)
  obtain ⟨rfl, rfl⟩ := h₃.unique (h₁.add hc hp hδ₂.le (.inr hδ₂) hs)
  by_cases hzero : q₁.overallDelta = 0
  · -- the first pulse stops at the start of a cycle
    have hway : way c (place false q₁) q₁.currentRate δ₂ = q₁.add δ₂ := by
      have hplace : place false q₁ = q₁.pos := if_neg fun h => by omega
      rw [hplace, way, ← hq.cycleDelta, Progress.add, hzero, zero_add]
    rw [hway] at h₂
    obtain ⟨rfl, rfl⟩ := h₂.unique hs
    rw [if_pos hzero]
    exact ⟨rfl, rfl, iff_of_true rfl fun _ => hδ₂.le⟩
  · have hway : way c (place false q₁) q₁.currentRate δ₂ = q₁.resume c δ₂ := by
      have hplace : place false q₁ = q₁.moved := if_pos ⟨by omega, rfl⟩
      rw [hplace, way, Progress.resume]
    rw [hway] at h₂
    rw [if_neg hzero]
    by_cases hout : q₁.cycleDelta ≤ q₁.overallDelta + δ₂
    · obtain ⟨rfl, rfl⟩ := h₂.unique (hs.resume hq hlt hout)
      exact ⟨rfl, rfl, iff_of_true rfl fun _ => by omega⟩
    · -- both stay in the cycle
      obtain ⟨rfl, rfl⟩ := hs.unique (.done (by
        rw [add_overallDelta, add_cycleDelta]
        omega))
      obtain ⟨rfl, rfl⟩ := h₂.unique (.done (by
        rw [resume_cycleDelta hq]
        show δ₂ < _
        omega))
      refine ⟨rfl, rfl, ?_⟩
      have hmoved : q₁.moved ≠ q₁.pos := by
        rw [Progress.moved]
        split_ifs <;> omega
      cases e with
      | true =>
        refine iff_of_false (fun heq => ?_) (fun hle => hout (by have := hle rfl; omega))
        rw [place, place, if_neg (by simp), if_neg (by simp)] at heq
        exact hmoved heq.symm
      | false =>
        refine iff_of_true ?_ nofun
        have hpos₂ : 0 < (q₁.add δ₂).overallDelta := by
          rw [add_overallDelta]
          omega
        rw [place, place, if_pos ⟨hpos₂, rfl⟩, if_pos ⟨hδ₂, rfl⟩, Progress.moved, Progress.moved]
        show _ = if q₁.currentRate > 0 then q₁.moved + δ₂ else q₁.moved - δ₂
        rw [Progress.moved, add_currentRate, add_overallDelta, add_pos']
        split_ifs <;> omega

/-- A pulse of some ticks does something. -/
theorem pulse_moves (hc : 0 < c) (hpos : 0 ≤ pos ∧ pos ≤ c) (hmoving : currentRate ≠ 0)
    (hδ : 0 < δ) (h : Loops c a false (way c pos currentRate δ) q calls)
    (hends : cycleEnds c calls = []) (hcurrent : q.currentRate = currentRate) :
    place false q ≠ pos := by
  have hp := way_coherent hpos hmoving hδ.le
  cases h with
  | done _ =>
    rw [place, if_pos ⟨hδ, rfl⟩, moved]
    show (if currentRate > 0 then pos + δ else pos - δ) ≠ pos
    split_ifs <;> omega
  | turn hle hrest =>
    have hdelta := hp.cycleDelta_bounds.1
    rw [cycleEnds_append, List.append_eq_nil_iff] at hends
    by_cases hcycle : 0 < (way c pos currentRate δ).cycleDelta
    · exact absurd hends.1 (turnCalls_ends a false hcycle)
    have hzero : (way c pos currentRate δ).cycleDelta = 0 := by omega
    cases a with
    | false =>
      rw [turnCalls_going (.inl rfl) hdelta, if_neg hcycle] at hends
      exact absurd hends.1 (by simp [cycleEnds, Call.endsCycle])
    | true =>
      cases hrest with
      | done _ =>
        rw [turn_going (.inl rfl) hdelta] at hcurrent
        have hflip : -currentRate = currentRate := hcurrent
        exact absurd (self_eq_neg.1 hflip.symm) hmoving
      | turn _ _ =>
        rw [cycleEnds_append, List.append_eq_nil_iff] at hends
        exact absurd hends.2.1 (turnCalls_ends true false hc)

/-- A longer way to the end of the animation does the same exactly if no cycle ends on what
it is longer by. -/
theorem ends_longer (hc : 0 < c) (hpos : 0 ≤ pos ∧ pos ≤ c) (hmoving : currentRate ≠ 0)
    (hδ₁ : 0 < δ₁) (hδ₂ : 0 < δ₂) (h₁ : Loops c a true (way c pos currentRate δ₁) q₁ calls₁)
    (h₂ : Loops c a true (way c pos currentRate (δ₁ + δ₂)) q₂ calls₂) :
    (cycleEnds c calls₂ = cycleEnds c calls₁ ∧ q₂.currentRate = q₁.currentRate ∧
        q₂.pos = q₁.pos) ↔ δ₂ < (toEnd c pos currentRate - δ₁) % c := by
  have hp := way_coherent hpos hmoving hδ₁.le
  obtain ⟨q, calls, hq⟩ := exists_loops a false hc hp
  obtain ⟨hcoherent, hlt⟩ := hq.coherent hc hp
  have hover := hcoherent.overall
  rw [left_eq hc hpos hmoving hδ₁ hq]
  obtain ⟨s, calls', hs⟩ := exists_loops a true hc (hcoherent.add hδ₂.le)
  obtain ⟨rfl, rfl⟩ := h₂.unique (hq.add hc hp hδ₂.le (.inr hδ₂) hs)
  -- one more turn ends one more cycle
  have hmore : q.cycleDelta ≤ q.overallDelta + δ₂ → cycleEnds c calls' ≠ [] := by
    intro hout hnil
    cases hs with
    | done hin =>
      rw [add_overallDelta, add_cycleDelta] at hin
      omega
    | turn _ _ =>
      rw [cycleEnds_append, List.append_eq_nil_iff] at hnil
      refine turnCalls_ends a true ?_ hnil.1
      rw [add_cycleDelta]
      omega
  by_cases hzero : q.overallDelta = 0
  · obtain ⟨q', calls'', call, hq', hcalls, hcall⟩ := hq.ends_cycle hc hp hδ₁ hzero
    obtain ⟨rfl, rfl⟩ := h₁.unique hq'
    rw [if_pos hzero]
    refine iff_of_false ?_ (not_lt_of_gt hδ₂)
    rintro ⟨hends, hcurrent, _⟩
    rw [hcalls, cycleEnds_append, cycleEnds_append, List.append_assoc, List.append_right_eq_self,
      List.append_eq_nil_iff] at hends
    rcases hcall with hcall | hflip
    · rw [cycleEnds, List.filter_cons_of_pos hcall] at hends
      exact absurd hends.1 nofun
    · by_cases hout : q.cycleDelta ≤ q.overallDelta + δ₂
      · exact hmore hout hends.2
      · obtain ⟨rfl, rfl⟩ := hs.unique (.done (by
          rw [add_overallDelta, add_cycleDelta]
          omega))
        rw [hflip, add_currentRate] at hcurrent
        exact hcoherent.moving (self_eq_neg.1 hcurrent)
  · obtain ⟨rfl, rfl⟩ := h₁.unique (hq.ends_inside hc hp (by omega))
    rw [if_neg hzero]
    by_cases hout : q₁.cycleDelta ≤ q₁.overallDelta + δ₂
    · refine iff_of_false ?_ (by omega)
      rintro ⟨hends, _, _⟩
      rw [cycleEnds_append, List.append_right_eq_self] at hends
      exact hmore hout hends
    · obtain ⟨rfl, rfl⟩ := hs.unique (.done (by
        rw [add_overallDelta, add_cycleDelta]
        omega))
      exact iff_of_true ⟨by rw [List.append_nil], rfl, rfl⟩ (by omega)

end FiniteClipEnvelope.Progress

end JavaFx.Animation
