/-
The limits of a pool, and what `prepareForAllocation` does with them.

The passes of a request only take away from what is used, so the sums that fit in a `long` at
first fit after each pass (`Prunes`). What is left to go wrong is the target that `cleanup`
grows to when the amount that it hoped for does not fit below `max` and the needed one does:
nothing keeps it from being less than the first target, and `setTarget` throws
(`growOrPrune_within_iff`).
-/
import JavaFx.Prism.BaseResourcePoolRun
import Mathlib.Tactic.Common

set_option autoImplicit false

namespace JavaFx.Prism

open JavaFx.Lib

namespace BaseResourcePool

open ManagedResource

variable {p p' q : BaseResourcePool} {links rest : List (ℕ × ℕ)} {i size : ℕ} {mr : ManagedResource}
  {needed wanted : ℤ} {effects : ℕ → List Effect}

/-! ## What a pass leaves -/

def InLimits (p : BaseResourcePool) : Prop := p.origTarget ≤ p.target ∧ p.target ≤ p.max

/-- Nothing that is neither locked nor permanent is left. -/
def AllPruned (p : BaseResourcePool) : Prop :=
  ∀ i < p.allocated, p.isOutstanding i = true →
    (p.resources i).isLocked = true ∨ (p.resources i).permanent = true

/-- What a pass does to the amounts of a pool. -/
structure Prunes (p p' : BaseResourcePool) : Prop where
  origTarget : p'.origTarget = p.origTarget
  target : p'.target = p.target
  max : p'.max = p.max
  used : p'.used ≤ p.used

theorem Prunes.refl (p : BaseResourcePool) : p.Prunes p := ⟨rfl, rfl, rfl, le_rfl⟩

theorem Prunes.trans (h : p.Prunes q) (h' : q.Prunes p') : p.Prunes p' :=
  ⟨h'.origTarget.trans h.origTarget, h'.target.trans h.target, h'.max.trans h.max,
    h'.used.trans h.used⟩

theorem Prunes.inLimits (h : p.Prunes p') (hp : p.InLimits) : p'.InLimits := by
  unfold InLimits
  rw [h.origTarget, h.target, h.max]
  exact hp

theorem prunes_set (p : BaseResourcePool) (i : ℕ) (mr : ManagedResource) : p.Prunes (p.set i mr) :=
  ⟨rfl, rfl, rfl, le_rfl⟩

theorem prunes_links (p : BaseResourcePool) (links : List (ℕ × ℕ)) :
    p.Prunes { p with links := links } := ⟨rfl, rfl, rfl, le_rfl⟩

theorem prunes_call (p : BaseResourcePool) (i : ℕ) (f : ManagedResource → ManagedResource) :
    p.Prunes (p.call i f) := by
  unfold call
  split
  · exact prunes_set p i _
  · exact .refl p

theorem recordFree_prunes (h : p.recordFree size = .ok p') : p.Prunes p' := by
  unfold recordFree at h
  split at h
  · simp at h
  · obtain rfl := Except.ok.inj h
    refine ⟨rfl, rfl, rfl, ?_⟩
    unfold used
    cases p.sharedParent with
    | none =>
      simp only
      omega
    | some amount => exact le_rfl

theorem scan_prunes {visit : ManagedResource → ManagedResource × Bool}
    (h : scan visit p links = .ok (p', rest)) : p.Prunes p' := by
  induction links generalizing p rest with
  | nil =>
    cases h
    exact .refl _
  | cons link links ih =>
    obtain ⟨i, size⟩ := link
    simp only [scan] at h
    split at h
    · obtain ⟨q, hq, h⟩ := bind_eq_ok.1 h
      exact ((prunes_set p i _).trans (recordFree_prunes hq)).trans (ih h)
    · obtain ⟨⟨q, rest'⟩, hq, h⟩ := bind_eq_ok.1 h
      cases h
      exact (prunes_set p i _).trans (ih hq)

theorem cleanup_prunes {test : ManagedResource → Bool} (h : p.cleanup test = .ok p') :
    p.Prunes p' := by
  obtain ⟨⟨q, rest⟩, hq, h⟩ := bind_eq_ok.1 h
  cases h
  exact (scan_prunes hq).trans (prunes_links q rest)

theorem unlinkFreed_prunes {freed : ℕ} (h : unlinkFreed freed p links = .ok (p', rest)) :
    p.Prunes p' := by
  induction links generalizing p rest with
  | nil => simp [unlinkFreed] at h
  | cons link links ih =>
    obtain ⟨i, size⟩ := link
    simp only [unlinkFreed] at h
    split at h
    · obtain ⟨q, hq, h⟩ := bind_eq_ok.1 h
      exact (recordFree_prunes hq).trans (ih h)
    · split at h
      · obtain ⟨q, hq, h⟩ := bind_eq_ok.1 h
        cases h
        exact recordFree_prunes hq
      · obtain ⟨⟨q, rest'⟩, hq, h⟩ := bind_eq_ok.1 h
        cases h
        exact ih hq

theorem dispose_prunes (h : p.dispose i = .ok p') : p.Prunes p' := by
  unfold dispose at h
  split at h
  · obtain ⟨⟨q, rest⟩, hq, h⟩ := bind_eq_ok.1 h
    cases h
    exact ((prunes_set p i _).trans (unlinkFreed_prunes hq)).trans (prunes_links q rest)
  · cases h
    exact .refl p

theorem applyEffect_prunes {effect : Effect} (h : p.applyEffect effect = .ok p') :
    p.Prunes p' := by
  cases effect with
  | dispose i => exact dispose_prunes h
  | requestDisposal i =>
    cases h
    exact prunes_call p i _
  | disappear i =>
    cases h
    exact prunes_call p i _
  | sharedFreed amount =>
    obtain rfl := Except.ok.inj h
    refine ⟨rfl, rfl, rfl, ?_⟩
    unfold used
    cases p.sharedParent with
    | none => exact le_rfl
    | some used => exact Int.ofNat_le.2 (min_le_right amount used)

theorem applyEffects_prunes {effects : List Effect} (h : p.applyEffects effects = .ok p') :
    p.Prunes p' := by
  induction effects generalizing p with
  | nil =>
    cases h
    exact .refl _
  | cons effect effects ih =>
    obtain ⟨q, hq, h⟩ := bind_eq_ok.1 h
    exact (applyEffect_prunes hq).trans (ih h)

theorem pass_prunes {effects : List Effect} {test : ManagedResource → Bool}
    (h : p.pass effects test = .ok p') : p.Prunes p' := by
  obtain ⟨q, hq, h⟩ := bind_eq_ok.1 h
  exact (applyEffects_prunes hq).trans (cleanup_prunes h)

/-! ## A pass that prunes everything -/

/-- What a visit leaves linked is as the last visit left it. -/
theorem scan_visited {visit : ManagedResource → ManagedResource × Bool}
    (hnodup : (links.map Prod.fst).Nodup) (h : scan visit p links = .ok (p', rest)) :
    (∀ j, j ∉ links.map Prod.fst → p'.resources j = p.resources j) ∧
      ∀ l ∈ rest, l ∈ links ∧ ∃ mr, (visit mr).2 = false ∧ p'.resources l.1 = (visit mr).1 := by
  induction links generalizing p rest with
  | nil =>
    cases h
    exact ⟨fun _ _ => rfl, by simp⟩
  | cons link links ih =>
    obtain ⟨i, size⟩ := link
    obtain ⟨hi, hnodup⟩ := List.nodup_cons.1 hnodup
    simp only [scan] at h
    split at h
    · obtain ⟨q, hq, h⟩ := bind_eq_ok.1 h
      have hres : q.resources = (p.set i (visit (p.resources i)).1).resources := by
        unfold recordFree at hq
        split at hq
        · simp at hq
        · cases hq
          rfl
      obtain ⟨hother, hrest⟩ := ih hnodup h
      refine ⟨fun j hj => ?_, fun l hl => ⟨List.mem_cons_of_mem _ (hrest l hl).1, (hrest l hl).2⟩⟩
      simp only [List.map_cons, List.mem_cons, not_or] at hj
      rw [hother j hj.2, hres, set_resources_of_ne hj.1]
    · rename_i hkept
      obtain ⟨⟨q, rest'⟩, hq, h⟩ := bind_eq_ok.1 h
      cases h
      obtain ⟨hother, hrest⟩ := ih hnodup hq
      constructor
      · intro j hj
        simp only [List.map_cons, List.mem_cons, not_or] at hj
        rw [hother j hj.2, set_resources_of_ne hj.1]
      · intro l hl
        rcases List.mem_cons.1 hl with rfl | hl
        · refine ⟨List.mem_cons_self, p.resources i, by simpa using hkept, ?_⟩
          rw [hother i hi, set_resources_self]
        · exact ⟨List.mem_cons_of_mem _ (hrest l hl).1, (hrest l hl).2⟩

theorem prune_all_kept (h : (prune (fun _ => true) mr).2 = false) :
    (prune (fun _ => true) mr).1.isLocked = true ∨
      (prune (fun _ => true) mr).1.permanent = true := by
  unfold prune at h ⊢
  rcases mr._isgone_cases with ⟨hc, hg⟩ | hg | ⟨hc, hd, hg⟩ <;> rw [hg] at h ⊢
  · simp at h
  · simp at h
  · cases hv : mr.isValid <;> cases hl : mr.isLocked <;> cases hp : mr.permanent <;>
      simp_all

/-- After the last chance, what is left is locked or permanent. -/
theorem pass_allPruned {effects : List Effect} (hp : p.Sound)
    (h : p.pass effects (fun _ => true) = .ok p') : p'.AllPruned := by
  obtain ⟨q, hq, h⟩ := bind_eq_ok.1 h
  obtain ⟨q', hq', hsound⟩ := hp.applyEffects effects
  rw [hq] at hq'
  cases hq'
  obtain ⟨p'', hp'', hsound'⟩ := hsound.cleanup fun _ => true
  rw [h] at hp''
  cases hp''
  obtain ⟨⟨r, rest⟩, hscan, h⟩ := bind_eq_ok.1 h
  cases h
  intro i hi hout
  have hmem : i ∈ rest.map Prod.fst := hsound'.linked hi hout
  obtain ⟨l, hl, rfl⟩ := List.mem_map.1 hmem
  obtain ⟨-, mr, hkept, hres⟩ := (scan_visited hsound.nodup hscan).2 l hl
  change (r.resources l.1).isLocked = true ∨ (r.resources l.1).permanent = true
  rw [hres]
  exact prune_all_kept hkept

/-! ## The sums -/

theorem toLong_le_iff {x t : ℤ} (h0 : 0 ≤ x) (hx : x < 2 ^ 64) (ht : 0 ≤ t) (ht' : t < 2 ^ 63) :
    toLong x ≤ t ↔ x ≤ t ∨ 2 ^ 63 ≤ x := by
  norm_num at hx ht' ⊢
  unfold toLong Int.bmod
  norm_num
  omega

/-- What a request comes to: a pool within its limits, and a sum that fits. -/
structure Request (p : BaseResourcePool) (needed : ℤ) : Prop where
  sound : p.Sound
  inLimits : p.InLimits
  origTarget : 0 ≤ p.origTarget
  max : p.max < 2 ^ 63
  nonneg : 0 ≤ needed
  fits : p.used + needed < 2 ^ 63

/-- A call that throws nothing, leaves the limits, and has room where it says so. -/
def Within (needed : ℤ) (o : Except PoolError Outcome) : Prop :=
  ∃ p' r, o = .ok (p', .ok r) ∧ p'.InLimits ∧ (r = true → p'.used + needed ≤ p'.target) ∧
    (r = false → p'.max < p'.used + needed ∧ p'.AllPruned)

theorem Sound.used_nonneg (h : p.Sound) : 0 ≤ p.used := by
  unfold used
  cases p.sharedParent with
  | none =>
    rw [h.amount]
    exact Int.natCast_nonneg _
  | some amount => exact Int.natCast_nonneg amount

theorem Request.of_prunes (h : p.Request needed) (hp : p.Prunes p') (hsound : p'.Sound) :
    p'.Request needed where
  sound := hsound
  inLimits := hp.inLimits h.inLimits
  origTarget := by rw [hp.origTarget]; exact h.origTarget
  max := by rw [hp.max]; exact h.max
  nonneg := h.nonneg
  fits := (Int.add_le_add_right hp.used needed).trans_lt h.fits

theorem Request.toLong_used (h : p.Request needed) : toLong (p.used + needed) = p.used + needed :=
  toLong_of_nonneg (Int.add_nonneg h.sound.used_nonneg h.nonneg) h.fits

theorem setTarget_ok {target : ℤ} (h : p.origTarget ≤ target) (h' : target ≤ p.max) :
    p.setTarget target = .ok { p with curTarget := target } := by
  have hmax : ¬target > p.maxSize := not_lt.2 h'
  rw [setTarget, if_neg hmax, if_neg (not_lt.2 h)]

theorem setTarget_error {target : ℤ} (h : target < p.origTarget) :
    p.setTarget target = .error .illegalArgument := by
  unfold setTarget
  split
  · rfl
  · rfl

theorem within_true {target : ℤ} (h : p.origTarget ≤ target) (h' : target ≤ p.max)
    (hroom : p.used + needed ≤ target) :
    Within needed (.ok ({ p with curTarget := target }, .ok true)) :=
  ⟨_, true, rfl, ⟨h, h'⟩, fun _ => hroom, nofun⟩

theorem not_within_error {e : Exn} : ¬Within needed (.ok (p, .error e)) := by
  rintro ⟨p', r, h, -⟩
  simp at h

/-! ## The stages -/

theorem pruneStages_prunes {tests : List (ManagedResource → Bool)} {k : ℕ} {enough : Bool}
    (h : pruneStages wanted effects p k tests = .ok (p', enough)) : p.Prunes p' := by
  induction tests generalizing p k with
  | nil =>
    cases h
    exact .refl _
  | cons test tests ih =>
    obtain ⟨q, hq, h⟩ := bind_eq_ok.1 h
    split at h
    · cases h
      exact pass_prunes hq
    · exact (pass_prunes hq).trans (ih h)

/-- The answer of the stages is that of their last test. -/
theorem pruneStages_enough_iff {test : ManagedResource → Bool}
    {tests : List (ManagedResource → Bool)} {k : ℕ} {enough : Bool}
    (h : pruneStages wanted effects p k (test :: tests) = .ok (p', enough)) :
    enough = true ↔ toLong (p'.used + wanted) ≤ p'.target := by
  induction tests generalizing p k test with
  | nil =>
    obtain ⟨q, hq, h⟩ := bind_eq_ok.1 h
    split at h
    case isTrue hroom =>
      cases h
      simpa using hroom
    case isFalse hroom =>
      cases h
      simpa using hroom
  | cons test' tests ih =>
    obtain ⟨q, hq, h⟩ := bind_eq_ok.1 h
    split at h
    case isTrue hroom =>
      cases h
      simpa using hroom
    case isFalse hroom => exact ih h

/-! ## The last chances -/

theorem pruneLastChances_within {chances k : ℕ} (h : p.Request needed)
    (hfull : p.max < p.used + needed) (hpruned : chances = 0 → p.AllPruned) :
    Within needed (pruneLastChances needed effects p k chances) := by
  induction chances generalizing p k with
  | zero => exact ⟨p, false, rfl, h.inLimits, by rintro ⟨⟩, fun _ => ⟨hfull, hpruned rfl⟩⟩
  | succ chances ih =>
    obtain ⟨q, hq, hsound⟩ := h.sound.pass (effects k) fun _ => true
    have hrequest := h.of_prunes (pass_prunes hq) hsound
    rw [pruneLastChances, hq, ok_bind, hrequest.toLong_used]
    split
    case isTrue hroom =>
      split
      case isTrue hgrow =>
        have horig : q.origTarget ≤ q.used + needed := hrequest.inLimits.1.trans hgrow.le
        rw [setTarget_ok horig hroom]
        exact within_true horig hroom le_rfl
      case isFalse hgrow =>
        exact ⟨q, true, rfl, hrequest.inLimits, fun _ => not_lt.1 hgrow, by rintro ⟨⟩⟩
    case isFalse hroom =>
      exact ih hrequest (not_le.1 hroom) fun _ => pass_allPruned h.sound hq

/-! ## Growing -/

/-- The target that `cleanup` grows to, where the amount it hoped for does not fit, is less
than the first one. -/
def GrowsBelow (p : BaseResourcePool) (needed wanted : ℤ) : Prop :=
  p.max < p.used + wanted ∧ p.used + needed ≤ p.max ∧ p.used + needed < p.origTarget ∧
    p.used + (p.max - p.origTarget) / 32 < p.origTarget

/-- What the target grows by. -/
def growth (p : BaseResourcePool) (wanted : ℤ) : ℤ :=
  if (p.max - p.origTarget) / 32 < wanted then wanted
  else if (p.max - p.origTarget) / 32 > p.max - p.used then p.max - p.used
  else (p.max - p.origTarget) / 32

theorem growth_bounds (h : wanted ≤ p.max - p.used) :
    wanted ≤ p.growth wanted ∧ p.growth wanted ≤ p.max - p.used := by
  unfold growth
  omega

/-- The amount that is wanted, as far as it fits. -/
def wantedWithin (p : BaseResourcePool) (needed wanted : ℤ) : ℤ :=
  if wanted > p.max - p.used then needed else wanted

/-- `growOrPrune`, where no sum overflows. -/
theorem growOrPrune_eq (h : p.Request needed) (hwanted : needed ≤ wanted) :
    p.growOrPrune needed wanted effects =
      if p.wantedWithin needed wanted ≤ p.max - p.used then
        match p.setTarget (p.used + p.growth (p.wantedWithin needed wanted)) with
        | .ok p => .ok (p, .ok true)
        | .error e => .ok (p, .error e)
      else pruneLastChances needed effects p (stageTesters.length + 1) 2 := by
  have hused := h.sound.used_nonneg
  have hfits := h.fits
  have hnonneg := h.nonneg
  have horig := h.origTarget
  have hmax := h.max
  obtain ⟨hlo, hhi⟩ := h.inLimits
  have hrem : toLong (p.max - p.used) = p.max - p.used :=
    toLong_of_lt (by norm_num at hfits ⊢; omega) (by omega)
  have hspan : (toLong (p.max - p.origTarget)).tdiv 32 = (p.max - p.origTarget) / 32 := by
    rw [toLong_of_nonneg (by omega) (by omega), Int.tdiv_eq_ediv_of_nonneg (by omega)]
  have hw : needed ≤ p.wantedWithin needed wanted := by
    unfold wantedWithin
    omega
  simp only [growOrPrune, hrem, hspan]
  change (if p.wantedWithin needed wanted ≤ _ then
    match p.setTarget (toLong (p.used + p.growth (p.wantedWithin needed wanted))) with
    | Except.ok p => Except.ok (p, Except.ok true)
    | Except.error e => Except.ok (p, Except.error e)
    else _) = _
  split
  case isTrue hroom =>
    obtain ⟨hlow, hhigh⟩ := growth_bounds hroom
    rw [toLong_of_nonneg (by omega) (by omega)]
  case isFalse hroom => rfl

theorem growOrPrune_within_iff (h : p.Request needed) (hwanted : needed ≤ wanted)
    (hfull : p.target < p.used + wanted) :
    Within needed (p.growOrPrune needed wanted effects) ↔ ¬p.GrowsBelow needed wanted := by
  obtain ⟨hlo, hhi⟩ := h.inLimits
  rw [growOrPrune_eq h hwanted]
  split
  case isTrue hroom =>
    obtain ⟨hlow, hhigh⟩ := growth_bounds hroom
    have hneeded : needed ≤ p.wantedWithin needed wanted := by
      unfold wantedWithin
      omega
    have hgrows : p.origTarget ≤ p.used + p.growth (p.wantedWithin needed wanted) ↔
        ¬p.GrowsBelow needed wanted := by
      unfold GrowsBelow
      unfold growth wantedWithin at *
      omega
    rw [← hgrows]
    by_cases htarget : p.origTarget ≤ p.used + p.growth (p.wantedWithin needed wanted)
    · rw [setTarget_ok htarget (by omega)]
      exact iff_of_true (within_true htarget (by omega) (by omega)) htarget
    · rw [setTarget_error (not_le.1 htarget)]
      exact iff_of_false not_within_error htarget
  case isFalse hroom =>
    have hfull' : p.max < p.used + needed := by
      unfold wantedWithin at hroom
      omega
    refine iff_of_true (pruneLastChances_within h hfull' nofun) ?_
    rintro ⟨-, hfits, -⟩
    omega

/-! ## The call -/

/-- A pool and a size for which the sums of `cleanup` fit where they matter, and the target
does not grow to less than the first one. -/
def Fits (p : BaseResourcePool) (needed : ℤ) (effects : ℕ → List Effect) : Prop :=
  p.used + needed < 2 ^ 63 ∧
    (p.target < p.used + needed → ∀ q enough,
      pruneStages (p.hopingFor needed) effects p 0 ((fun _ => false) :: stageTesters) =
        .ok (q, enough) →
      (enough = true → q.used + p.hopingFor needed < 2 ^ 63 ∨ q.used + needed ≤ q.target) ∧
      (enough = false → ¬q.GrowsBelow needed (p.hopingFor needed)))

theorem needed_le_hopingFor (p : BaseResourcePool) (needed : ℤ) : needed ≤ p.hopingFor needed := by
  unfold hopingFor
  omega

/-- The stages find room exactly where no sum misleads them. -/
theorem Request.stages_within_iff (h : p.Request needed) (hused : p.used < 2 ^ 63)
    (hwanted : needed ≤ wanted) (hwanted' : wanted < 2 ^ 63)
    (hroom : toLong (p.used + wanted) ≤ p.target) :
    Within needed (.ok (p, .ok true)) ↔ p.used + wanted < 2 ^ 63 ∨ p.used + needed ≤ p.target := by
  have hlow := h.sound.used_nonneg
  have hnonneg := h.nonneg
  obtain ⟨hlo, hhi⟩ := h.inLimits
  have horig := h.origTarget
  have hmax := h.max
  rw [toLong_le_iff (by omega) (by norm_num at hused hwanted' ⊢; omega) (by omega)
    (by omega)] at hroom
  constructor
  · rintro ⟨p', r, heq, -, htrue, -⟩
    cases heq
    exact .inr (htrue rfl)
  · intro hfits
    exact ⟨p, true, rfl, h.inLimits, fun _ => by omega, nofun⟩

theorem Request.within_iff (h : p.Request needed) :
    Within needed (p.prepareForAllocation needed effects) ↔ p.Fits needed effects := by
  have hused := h.sound.used_nonneg
  have hfits := h.fits
  have hnonneg := h.nonneg
  have horig := h.origTarget
  have hmax := h.max
  obtain ⟨hlo, hhi⟩ := h.inLimits
  unfold prepareForAllocation
  rw [h.toLong_used]
  split
  case isTrue hroom =>
    exact iff_of_true ⟨p, true, rfl, h.inLimits, fun _ => hroom, nofun⟩
      ⟨hfits, fun hn => absurd hroom (not_le.2 hn)⟩
  case isFalse hroom =>
    have hwanted := needed_le_hopingFor p needed
    have hwanted' : p.hopingFor needed < 2 ^ 63 := by
      unfold hopingFor
      rw [Int.tdiv_eq_ediv_of_nonneg (by omega)]
      omega
    obtain ⟨q, enough, hq, hsound⟩ :=
      h.sound.pruneStages (p.hopingFor needed) effects ((fun _ => false) :: stageTesters) 0
    have hprunes := pruneStages_prunes hq
    have hrequest := h.of_prunes hprunes hsound
    have henough := pruneStages_enough_iff hq
    rw [hq, ok_bind]
    have hfitsIff : p.Fits needed effects ↔
        (enough = true → q.used + p.hopingFor needed < 2 ^ 63 ∨ q.used + needed ≤ q.target) ∧
        (enough = false → ¬q.GrowsBelow needed (p.hopingFor needed)) := by
      constructor
      · exact fun hf => hf.2 (not_le.1 hroom) q enough hq
      · refine fun hf => ⟨hfits, fun _ q' enough' hq' => ?_⟩
        rw [hq] at hq'
        cases hq'
        exact hf
    rw [hfitsIff]
    have hqused : q.used < 2 ^ 63 := by
      have := hprunes.used
      omega
    cases enough with
    | true =>
      simpa using hrequest.stages_within_iff hqused hwanted hwanted' (henough.1 rfl)
    | false =>
      have hfull : q.target < q.used + p.hopingFor needed := by
        have hn := mt henough.2 Bool.false_ne_true
        have := hsound.used_nonneg
        obtain ⟨hlo', hhi'⟩ := hrequest.inLimits
        have := hrequest.origTarget
        have := hrequest.max
        rw [toLong_le_iff (by omega) (by norm_num at hqused hwanted' ⊢; omega) (by omega)
          (by omega)] at hn
        omega
      simpa using growOrPrune_within_iff hrequest hwanted hfull

/-! ## Every reachable pool -/

/-- What no call changes, and what each of them keeps. -/
structure Bounds (p p' : BaseResourcePool) : Prop where
  origTarget : p'.origTarget = p.origTarget
  max : p'.max = p.max
  inLimits : p.InLimits → p'.InLimits

theorem Bounds.trans (h : p.Bounds q) (h' : q.Bounds p') : p.Bounds p' :=
  ⟨h'.origTarget.trans h.origTarget, h'.max.trans h.max, fun hp => h'.inLimits (h.inLimits hp)⟩

theorem Prunes.bounds (h : p.Prunes p') : p.Bounds p' := ⟨h.origTarget, h.max, h.inLimits⟩

theorem Bounds.refl (p : BaseResourcePool) : p.Bounds p := (Prunes.refl p).bounds

theorem setTarget_bounds {target : ℤ} (h : p.setTarget target = .ok p') : p.Bounds p' := by
  unfold setTarget at h
  split at h
  case isTrue => simp at h
  case isFalse hmax =>
    split at h
    case isTrue => simp at h
    case isFalse horig =>
      obtain rfl := Except.ok.inj h
      exact ⟨rfl, rfl, fun _ => ⟨not_lt.1 horig, not_lt.1 hmax⟩⟩

theorem pruneLastChances_bounds {chances k : ℕ} {r : Except Exn Bool}
    (h : pruneLastChances needed effects p k chances = .ok (p', r)) : p.Bounds p' := by
  induction chances generalizing p k with
  | zero =>
    cases h
    exact .refl _
  | succ chances ih =>
    obtain ⟨q, hq, h⟩ := bind_eq_ok.1 h
    have hpass := (pass_prunes hq).bounds
    split at h
    · split at h
      · split at h
        case h_1 q' hset =>
          cases h
          exact hpass.trans (setTarget_bounds hset)
        case h_2 e hset =>
          cases h
          exact hpass
      · cases h
        exact hpass
    · exact hpass.trans (ih h)

theorem growOrPrune_bounds {r : Except Exn Bool}
    (h : p.growOrPrune needed wanted effects = .ok (p', r)) : p.Bounds p' := by
  simp only [growOrPrune] at h
  generalize (if wanted > toLong (p.max - p.used) then needed else wanted) = wanted at h
  generalize toLong (p.used + _) = target at h
  split at h
  · split at h
    case h_1 q hset =>
      cases h
      exact setTarget_bounds hset
    case h_2 e hset =>
      cases h
      exact .refl _
  · exact pruneLastChances_bounds h

theorem prepareForAllocation_bounds {r : Except Exn Bool}
    (h : p.prepareForAllocation needed effects = .ok (p', r)) : p.Bounds p' := by
  unfold prepareForAllocation at h
  split at h
  · cases h
    exact .refl _
  · obtain ⟨⟨q, enough⟩, hq, h⟩ := bind_eq_ok.1 h
    have hstages := (pruneStages_prunes hq).bounds
    cases enough with
    | true =>
      cases h
      exact hstages
    | false => exact hstages.trans (growOrPrune_bounds h)

theorem step_bounds {a : Action} (h : p.step a = .ok p') : p.Bounds p' := by
  cases a with
  | prepareForAllocation needed effects =>
    obtain ⟨⟨q, r⟩, hq, h⟩ := bind_eq_ok.1 h
    cases h
    exact prepareForAllocation_bounds hq
  | freeDisposalRequestedAndCheckResources forgive =>
    obtain ⟨⟨q, rest⟩, hq, h⟩ := bind_eq_ok.1 h
    cases h
    exact ((scan_prunes hq).trans (prunes_links q rest)).bounds
  | effect effect => exact (applyEffect_prunes h).bounds
  | allocate size =>
    cases h
    exact ⟨rfl, rfl, id⟩
  | sharedUsed amount =>
    cases h
    exact ⟨rfl, rfl, id⟩
  | lock i | unlock i | makePermanent i | contentsUseful i | contentsNotUseful i =>
    cases h
    exact (prunes_call p i _).bounds

theorem run_bounds {sharedParent : Option ℕ} {target max : ℤ} {as : List Action}
    (hle : target ≤ max) (hrun : run step (new sharedParent target max) as = .ok p) :
    p.origTarget = target ∧ p.max = max ∧ p.InLimits := by
  have hnew : (new sharedParent target max).InLimits := And.intro (Int.le_refl target) hle
  refine run_invariant_of_ok (P := fun _ _ => True)
    (fun p : BaseResourcePool => p.origTarget = target ∧ p.max = max ∧ p.InLimits) ?_
    ⟨rfl, rfl, hnew⟩ (Along.of_forall fun _ _ => trivial) hrun
  rintro p a p' ⟨horig, hmax, hlimits⟩ - hstep
  have h := step_bounds hstep
  exact ⟨h.origTarget.trans horig, h.max.trans hmax, h.inLimits hlimits⟩

/-- **The limits of a request.** Of a pool in any state that can be reached, whatever is freed
in the course of the call: it throws nothing, leaves the target within its limits and answers
as it should exactly if the sums fit and the target does not grow to less than the first. -/
theorem prepareForAllocation_within_iff {sharedParent : Option ℕ} {target max : ℤ}
    (h0 : 0 ≤ target) (hle : target ≤ max) (hmax : max < 2 ^ 63) (as : List Action)
    (hrun : run step (new sharedParent target max) as = .ok p) (hused : p.used < 2 ^ 63)
    (hneeded : 0 ≤ needed) (hneeded' : needed < 2 ^ 63) (effects : ℕ → List Effect) :
    Within needed (p.prepareForAllocation needed effects) ↔ p.Fits needed effects := by
  obtain ⟨p', hrun', hsound⟩ := run_sound sharedParent target max as
  rw [hrun] at hrun'
  cases hrun'
  obtain ⟨rfl, rfl, hlimits⟩ := run_bounds hle hrun
  by_cases hfits : p.used + needed < 2 ^ 63
  · exact Request.within_iff ⟨hsound, hlimits, h0, hmax, hneeded, hfits⟩
  · obtain ⟨hlo, hhi⟩ := hlimits
    have hover : toLong (p.used + needed) ≤ p.target := by
      rw [toLong_le_iff (Int.add_nonneg hsound.used_nonneg hneeded)
        (by norm_num at hused hneeded' ⊢; omega) (by omega) (by omega)]
      exact .inr (not_lt.1 hfits)
    unfold prepareForAllocation
    rw [if_pos hover]
    refine iff_of_false ?_ fun hf => hfits hf.1
    rintro ⟨p', r, heq, -, htrue, -⟩
    cases heq
    have := htrue rfl
    omega

theorem prepareForAllocation_within_three :
    Within 3 (((new none 160 320).resourceManaged (.new 155)).prepareForAllocation 3 fun _ => []) ↔
      ((new none 160 320).resourceManaged (.new 155)).Fits 3 fun _ => [] :=
  prepareForAllocation_within_iff (by decide) (by decide) (by decide) [.allocate 155] rfl
    (by decide) (by decide) (by decide) _

/-- A full pool: 155 of 160 are locked, and 3 more can be freed. With the 3 freed, the hoped
for 10 do not fit below the maximum and the needed 3 do, so that the target should be 158. -/
theorem prepareForAllocation_not_within :
    ¬∀ (sharedParent : Option ℕ) (target max : ℤ) (as : List Action) (p : BaseResourcePool)
      (needed : ℤ) (effects : ℕ → List Effect), target ≤ max →
      run step (new sharedParent target max) as = .ok p → 0 ≤ needed →
      Within needed (p.prepareForAllocation needed effects) := by
  intro h
  obtain ⟨p, hrun, -⟩ := run_sound none 160 160
    [.allocate 155, .allocate 3, .effect (.requestDisposal 1)]
  obtain ⟨p', r, hcall, -⟩ := h none 160 160 _ p 3 (fun _ => []) le_rfl hrun (by decide)
  have houtcome : (run step (new none 160 160)
      [.allocate 155, .allocate 3, .effect (.requestDisposal 1)] >>=
        fun p => p.prepareForAllocation 3 fun _ => []).map Prod.snd =
      .ok (.error .illegalArgument) := by
    decide +kernel
  rw [hrun, ok_bind, hcall] at houtcome
  simp [Except.map] at houtcome

end BaseResourcePool

end JavaFx.Prism
