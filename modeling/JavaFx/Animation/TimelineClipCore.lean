/-
`com.sun.scenario.animation.shared.TimelineClipCore`: the key frames that a timeline visits.

A key frame is there with its ticks and with whether it has an `onFinished` handler. The two
loops of `playTo` are one, `scan`, over the key frames in the order of travel. What a call
does besides comes back as a list of `ClipCall`s, in their order. Handlers do not touch the
timeline, so nothing is aborted; an exception of a handler goes to the thread's own handler
of uncaught exceptions, and `playTo` goes on.
-/
import JavaFx.Lib.Run
import Mathlib.Data.List.Basic
import Mathlib.Data.List.Nodup
import Mathlib.Data.Int.Basic
import Mathlib.Tactic.Common
import Mathlib.Data.List.Enum
import Mathlib.Tactic.Ring

set_option autoImplicit false

namespace JavaFx.Animation

structure KeyFrame where
  ticks : ℤ
  /-- There is an `onFinished` handler. -/
  handled : Bool
  deriving DecidableEq, Repr

/-- `UNDEFINED_KEYFRAME`. -/
def UNDEFINED_KEYFRAME : ℤ := -1

/-- What the clip core tells the timeline, its interpolator and the handlers. -/
inductive ClipCall
  | setCurrentTicks (ticks : ℤ)
  | interpolate (ticks : ℤ)
  | handle (kfIndex : ℕ)
  deriving DecidableEq, Repr

/-- `ArrayIndexOutOfBoundsException`. -/
inductive OutOfBounds
  | mk
  deriving DecidableEq, Repr

structure TimelineClipCore where
  keyFrames : List KeyFrame
  /-- The index of the key frame that was visited last. -/
  lastKF : ℤ
  curTicks : ℤ
  deriving DecidableEq, Repr

/-- `x` is beyond `y` for one who travels forward, or backward. -/
def beyond (forward : Bool) (x y : ℤ) : Bool := if forward then y < x else x < y

namespace TimelineClipCore

variable (c : TimelineClipCore)

/-- `canSkipFrames`: no key frame has a handler. -/
def canSkipFrames : Bool := c.keyFrames.all (fun kf => !kf.handled)

/-- `keyFrames[index]`. -/
def keyFrame? (index : ℤ) : Option KeyFrame :=
  if 0 ≤ index then c.keyFrames[index.toNat]? else none

def clearLastKeyFrame : TimelineClipCore := { c with lastKF := UNDEFINED_KEYFRAME }

def start : TimelineClipCore := c.clearLastKeyFrame

/-- The key frames with their indices, in the order of travel. -/
def travel (forward : Bool) : List (KeyFrame × ℕ) :=
  if forward then c.keyFrames.zipIdx else c.keyFrames.zipIdx.reverse

def visitKeyFrame (kfIndex : ℕ) (kf : KeyFrame) : TimelineClipCore × List ClipCall :=
  if (kfIndex : ℤ) ≠ c.lastKF then
    if kf.handled then
      ({ c with lastKF := kfIndex, curTicks := kf.ticks },
        [.setCurrentTicks kf.ticks, .interpolate kf.ticks, .handle kfIndex])
    else ({ c with lastKF := kfIndex }, [])
  else (c, [])

/-- The loop of `playTo`, over the key frames from `fromKF` on. -/
def scan (forward : Bool) (ticks : ℤ) :
    List (KeyFrame × ℕ) → TimelineClipCore → TimelineClipCore × List ClipCall
  | [], c => (c, [])
  | (kf, fi) :: rest, c =>
    if beyond forward kf.ticks ticks then
      ({ c with lastKF := if forward then (fi : ℤ) - 1 else fi + 1 }, [])
    else if beyond forward c.curTicks kf.ticks then scan forward ticks rest c
    else
      let r := c.visitKeyFrame fi kf
      ((scan forward ticks rest r.1).1, r.2 ++ (scan forward ticks rest r.1).2)

/-- The key frames that the loop starts with. -/
def upcoming (forward : Bool) : Except OutOfBounds (List (KeyFrame × ℕ)) :=
  if c.lastKF = UNDEFINED_KEYFRAME then .ok (c.travel forward)
  else
    match c.keyFrame? c.lastKF with
    | none => .error .mk
    | some kf =>
      -- the last key frame itself is left out where it is not ahead
      if beyond forward kf.ticks c.curTicks then
        .ok ((c.travel forward).filter (fun x => !beyond forward c.lastKF x.2))
      else .ok ((c.travel forward).filter (fun x => beyond forward x.2 c.lastKF))

def setTime (ticks : ℤ) : TimelineClipCore × List ClipCall :=
  ({ c with curTicks := ticks }, [.setCurrentTicks ticks, .interpolate ticks])

def playTo (ticks : ℤ) : Except OutOfBounds (TimelineClipCore × List ClipCall) :=
  if c.canSkipFrames then .ok (c.clearLastKeyFrame.setTime ticks)
  else do
    let forward := decide (c.curTicks ≤ ticks)
    let frames ← c.upcoming forward
    let (c, calls) := scan forward ticks frames c
    if c.lastKF = UNDEFINED_KEYFRAME then
      return ((c.setTime ticks).1, calls ++ (c.setTime ticks).2)
    else
      match c.keyFrame? c.lastKF with
      | none => throw .mk
      | some kf =>
        if kf.ticks ≠ ticks ∨ kf.handled = false then
          return ((c.setTime ticks).1, calls ++ (c.setTime ticks).2)
        else return (c, calls)

/-- The handlers among the calls. -/
def handlers (calls : List ClipCall) : List ℕ :=
  calls.filterMap fun
    | .handle kfIndex => some kfIndex
    | _ => none

/-- A number of moves, with the handlers that each of them calls. -/
def plays (c : TimelineClipCore) : List ℤ → Except OutOfBounds (List (List ℕ))
  | [] => .ok []
  | ticks :: moves =>
    match c.playTo ticks with
    | .error e => .error e
    | .ok (c', calls) => (c'.plays moves).map (handlers calls :: ·)

end TimelineClipCore

end JavaFx.Animation

/-!
What a run of `playTo` calls visits.

A move is right if it calls, in the order of travel, the handlers of the key frames strictly
between the two positions or at the new one; the first move after `start` also calls those at
its position. After a right move the last key frame is the one that the move came to last,
seen in its direction, and a move in the same direction goes on behind it. A move that turns
round is right unless it meets this key frame again, or others at the turning point: the
exact condition is `Clear`.
-/

namespace JavaFx.Animation

open JavaFx.Lib

/-! ## The order of travel -/

/-- The sign of a direction. -/
def side (forward : Bool) : ℤ := if forward then 1 else -1

variable {f : Bool} {x y ticks : ℤ}

theorem beyond_iff : beyond f x y = true ↔ side f * y < side f * x := by
  cases f
  · simp [beyond, side]
  · simp [beyond, side]

theorem beyond_not : beyond (!f) x y = beyond f y x := by
  cases f <;> rfl

theorem eq_of_not_beyond (hxy : ¬ beyond f x y = true) (hyx : ¬ beyond f y x = true) : x = y := by
  cases f
  · simp only [beyond, Bool.false_eq_true, if_false, decide_eq_true_eq] at hxy hyx
    omega
  · simp only [beyond, if_true, decide_eq_true_eq] at hxy hyx
    omega

theorem not_beyond_of_beyond (h : beyond f x y = true) : ¬ beyond f y x = true := by
  rw [beyond_iff] at h ⊢
  omega

theorem not_beyond_self : ¬ beyond f x x = true := by
  rw [beyond_iff]
  exact lt_irrefl _

namespace TimelineClipCore

variable {c c' : TimelineClipCore} {l : List (KeyFrame × ℕ)}

theorem mem_travel {p : KeyFrame × ℕ} : p ∈ c.travel f ↔ c.keyFrames[p.2]? = some p.1 := by
  cases f
  · rw [travel, if_neg Bool.false_ne_true, List.mem_reverse, List.mem_zipIdx_iff_getElem?]
  · rw [travel, if_pos rfl, List.mem_zipIdx_iff_getElem?]

theorem keyFrame?_natCast (i : ℕ) : c.keyFrame? i = c.keyFrames[i]? := by
  rw [keyFrame?, if_pos (Int.natCast_nonneg i), Int.toNat_natCast]

theorem mem_travel_of_keyFrame? {i : ℤ} {kf : KeyFrame} (h : c.keyFrame? i = some kf) :
    ∃ k : ℕ, i = k ∧ (kf, k) ∈ c.travel f := by
  rw [keyFrame?] at h
  split at h
  · rename_i hi
    exact ⟨i.toNat, (Int.toNat_of_nonneg hi).symm, mem_travel.2 h⟩
  · cases h

theorem eq_of_mem_travel {p q : KeyFrame × ℕ} (hp : p ∈ c.travel f) (hq : q ∈ c.travel f)
    (h : p.2 = q.2) : p = q := by
  rw [mem_travel] at hp hq
  rw [h, hq, Option.some.injEq] at hp
  exact Prod.ext hp.symm h

theorem travel_pairwise (c : TimelineClipCore) (f : Bool) :
    (c.travel f).Pairwise (fun p q => beyond f q.2 p.2 = true) := by
  have hidx : c.keyFrames.zipIdx.Pairwise (fun p q => p.2 < q.2) := by
    have h := @List.pairwise_lt_range' 0 c.keyFrames.length 1 Nat.one_pos
    rw [← List.zipIdx_map_snd 0 c.keyFrames, List.pairwise_map] at h
    exact h
  cases f
  · rw [travel, if_neg Bool.false_ne_true, List.pairwise_reverse]
    refine hidx.imp fun h => ?_
    simpa [beyond] using h
  · rw [travel, if_pos rfl]
    refine hidx.imp fun h => ?_
    simpa [beyond] using h

/-- The key frames are sorted. -/
def Sorted (c : TimelineClipCore) : Prop :=
  c.keyFrames.Pairwise (fun kf kf' => kf.ticks ≤ kf'.ticks)

theorem Sorted.le (h : Sorted c) {p q : KeyFrame × ℕ} (hp : p ∈ c.travel f) (hq : q ∈ c.travel f)
    (hbeyond : ¬ beyond f p.2 q.2 = true) : ¬ beyond f p.1.ticks q.1.ticks = true := by
  rcases eq_or_ne p.2 q.2 with heq | hne
  · rw [eq_of_mem_travel hp hq heq]
    exact not_beyond_self
  have hle : ∀ {i j : ℕ} {kf kf' : KeyFrame}, c.keyFrames[i]? = some kf →
      c.keyFrames[j]? = some kf' → i < j → kf.ticks ≤ kf'.ticks := by
    intro i j kf kf' hi hj hij
    obtain ⟨hi', rfl⟩ := List.getElem?_eq_some_iff.1 hi
    obtain ⟨hj', rfl⟩ := List.getElem?_eq_some_iff.1 hj
    exact List.pairwise_iff_getElem.1 h i j hi' hj' hij
  rw [mem_travel] at hp hq
  cases f
  · simp only [beyond, Bool.false_eq_true, if_false, decide_eq_true_eq] at hbeyond ⊢
    exact not_lt_of_ge (hle hq hp (by omega))
  · simp only [beyond, if_true, decide_eq_true_eq] at hbeyond ⊢
    exact not_lt_of_ge (hle hp hq (by omega))

/-! ## The loop -/

theorem visitKeyFrame_keyFrames (fi : ℕ) (kf : KeyFrame) :
    (c.visitKeyFrame fi kf).1.keyFrames = c.keyFrames := by
  rw [visitKeyFrame]
  split
  · split <;> rfl
  · rfl

theorem visitKeyFrame_lastKF (fi : ℕ) (kf : KeyFrame) : (c.visitKeyFrame fi kf).1.lastKF = fi := by
  rw [visitKeyFrame]
  split
  · split <;> rfl
  · rename_i h
    exact (not_not.1 h).symm

/-- Whether a visit of a key frame calls its handler. -/
def calls (c : TimelineClipCore) (p : KeyFrame × ℕ) : Bool :=
  p.1.handled && decide ((p.2 : ℤ) ≠ c.lastKF)

theorem visitKeyFrame_curTicks (fi : ℕ) (kf : KeyFrame) :
    (c.visitKeyFrame fi kf).1.curTicks = if c.calls (kf, fi) then kf.ticks else c.curTicks := by
  rw [visitKeyFrame, calls]
  by_cases hlast : (fi : ℤ) = c.lastKF
  · simp [hlast]
  · by_cases hkf : kf.handled = true
    · simp [hlast, hkf]
    · simp [hlast, hkf]

theorem handlers_append (calls calls' : List ClipCall) :
    handlers (calls ++ calls') = handlers calls ++ handlers calls' :=
  List.filterMap_append

theorem handlers_visitKeyFrame (fi : ℕ) (kf : KeyFrame) :
    handlers (c.visitKeyFrame fi kf).2 = if c.calls (kf, fi) then [fi] else [] := by
  rw [visitKeyFrame, calls]
  by_cases hlast : (fi : ℤ) = c.lastKF
  · simp [hlast, handlers]
  · by_cases hkf : kf.handled = true
    · simp [hlast, hkf, handlers]
    · simp [hlast, hkf, handlers]

/-- What the loop calls of the key frames that it meets. -/
def hears (c : TimelineClipCore) (f : Bool) (ticks : ℤ) (p : KeyFrame × ℕ) : Bool :=
  c.calls p && !beyond f c.curTicks p.1.ticks && !beyond f p.1.ticks ticks

/-- Key frames in the order of travel. -/
structure InOrder (f : Bool) (l : List (KeyFrame × ℕ)) : Prop where
  index : l.Pairwise (fun p q => beyond f q.2 p.2 = true)
  ticks : l.Pairwise (fun p q => ¬ beyond f p.1.ticks q.1.ticks = true)

theorem InOrder.tail {p : KeyFrame × ℕ} (h : InOrder f (p :: l)) : InOrder f l :=
  ⟨h.index.of_cons, h.ticks.of_cons⟩

theorem Sorted.inOrder (h : Sorted c) : InOrder f (c.travel f) where
  index := travel_pairwise c f
  ticks := by
    refine List.Pairwise.imp_of_mem (fun {p q} hp hq hpq => h.le hp hq ?_) (travel_pairwise c f)
    rw [beyond_iff] at hpq ⊢
    omega

theorem InOrder.filter (h : InOrder f l) (P : KeyFrame × ℕ → Bool) : InOrder f (l.filter P) :=
  ⟨h.index.filter P, h.ticks.filter P⟩

/-- The loop calls the handlers of the key frames on its way, in order. -/
theorem handlers_scan (h : InOrder f l) (htail : ∀ p ∈ l.tail, (p.2 : ℤ) ≠ c.lastKF) :
    handlers (scan f ticks l c).2 = (l.filter (c.hears f ticks)).map Prod.snd := by
  induction l generalizing c with
  | nil => rfl
  | cons p rest ih =>
    obtain ⟨kf, fi⟩ := p
    rw [List.tail_cons] at htail
    have hahead : ∀ q ∈ rest, ¬ beyond f kf.ticks q.1.ticks = true :=
      (List.pairwise_cons.1 h.ticks).1
    have hindex : ∀ q ∈ rest, beyond f q.2 fi = true := (List.pairwise_cons.1 h.index).1
    rw [scan]
    by_cases hstop : beyond f kf.ticks ticks = true
    · -- the key frames behind it are not reached either
      have hnone : ((kf, fi) :: rest).filter (c.hears f ticks) = [] := by
        rw [List.filter_eq_nil_iff]
        intro q hq
        have hq' : beyond f q.1.ticks ticks = true := by
          rcases List.mem_cons.1 hq with rfl | hq
          · exact hstop
          · have := hahead q hq
            rw [beyond_iff] at this hstop ⊢
            omega
        simp [hears, hq']
      rw [if_pos hstop, hnone]
      rfl
    rw [if_neg hstop]
    by_cases hpast : beyond f c.curTicks kf.ticks = true
    · rw [if_pos hpast, ih h.tail (fun q hq => htail q (List.mem_of_mem_tail hq)),
        List.filter_cons_of_neg (by simp [hears, hpast])]
    rw [if_neg hpast]
    simp only [handlers_append, handlers_visitKeyFrame]
    have hlast := visitKeyFrame_lastKF (c := c) fi kf
    have hcur := visitKeyFrame_curTicks (c := c) fi kf
    have hne : ∀ q ∈ rest, (q.2 : ℤ) ≠ fi := by
      intro q hq heq
      have := hindex q hq
      rw [heq] at this
      exact not_beyond_self this
    rw [ih h.tail (fun q hq => by rw [hlast]; exact hne q (List.mem_of_mem_tail hq))]
    have hrest : rest.filter ((c.visitKeyFrame fi kf).1.hears f ticks)
        = rest.filter (c.hears f ticks) := by
      refine List.filter_congr fun q hq => ?_
      have hq' := hahead q hq
      have hcalls : (c.visitKeyFrame fi kf).1.calls q = c.calls q := by
        rw [calls, calls, hlast, decide_eq_true (hne q hq), decide_eq_true (htail q hq)]
      have hcurq : beyond f (c.visitKeyFrame fi kf).1.curTicks q.1.ticks = false := by
        rw [hcur, Bool.eq_false_iff]
        split
        · exact hq'
        · rw [Ne, beyond_iff] at *
          omega
      have hcurq' : beyond f c.curTicks q.1.ticks = false := by
        rw [Bool.eq_false_iff]
        rw [Ne, beyond_iff] at *
        omega
      rw [hears, hears, hcalls, hcurq, hcurq']
    rw [hrest]
    have hhead : c.hears f ticks (kf, fi) = c.calls (kf, fi) := by
      simp [hears, hpast, hstop]
    by_cases hcall : c.calls (kf, fi) = true
    · rw [if_pos hcall, List.filter_cons_of_pos (by rw [hhead]; exact hcall)]
      rfl
    · rw [if_neg hcall, List.filter_cons_of_neg (by rw [hhead]; exact hcall)]
      rfl

/-- How the loop ends: at a key frame that is not reached, or behind all of them. -/
inductive Ends (f : Bool) (ticks cur lastKF lastKF' : ℤ) (l : List (KeyFrame × ℕ)) : Prop
  | stops (p : KeyFrame × ℕ) (hp : p ∈ l) (hstop : beyond f p.1.ticks ticks = true)
      (hbefore : ∀ q ∈ l, beyond f p.2 q.2 = true → ¬ beyond f q.1.ticks ticks = true)
      (hlast : lastKF' = if f then (p.2 : ℤ) - 1 else p.2 + 1)
  | visits (p : KeyFrame × ℕ) (hp : p ∈ l) (hall : ∀ q ∈ l, ¬ beyond f q.1.ticks ticks = true)
      (hafter : ∀ q ∈ l, ¬ beyond f q.2 p.2 = true) (hlast : lastKF' = p.2)
  | skips (hall : ∀ q ∈ l, beyond f cur q.1.ticks = true) (hlast : lastKF' = lastKF)

/-- The state behind the loop. -/
structure Scanned (c c' : TimelineClipCore) (f : Bool) (ticks : ℤ) (l : List (KeyFrame × ℕ)) :
    Prop where
  keyFrames : c'.keyFrames = c.keyFrames
  from_le : ¬ beyond f c.curTicks c'.curTicks = true
  le_ticks : ¬ beyond f c'.curTicks ticks = true
  heard : ∀ p ∈ l, c.hears f ticks p = true → ¬ beyond f p.1.ticks c'.curTicks = true
  ends : Ends f ticks c.curTicks c.lastKF c'.lastKF l

/-- A key frame that is passed. -/
theorem Scanned.pass {kf : KeyFrame} {fi : ℕ} (h : Scanned c c' f ticks l)
    (hord : InOrder f ((kf, fi) :: l)) (hgo : ¬ beyond f c.curTicks ticks = true)
    (hpast : beyond f c.curTicks kf.ticks = true) : Scanned c c' f ticks ((kf, fi) :: l) where
  keyFrames := h.keyFrames
  from_le := h.from_le
  le_ticks := h.le_ticks
  heard := by
    intro p hp hhears
    rcases List.mem_cons.1 hp with rfl | hp
    · simp [hears, hpast] at hhears
    · exact h.heard p hp hhears
  ends := by
    have hindex : ∀ q ∈ l, beyond f q.2 fi = true := (List.pairwise_cons.1 hord.index).1
    have hkf : ¬ beyond f kf.ticks ticks = true := by
      rw [beyond_iff] at hgo hpast ⊢
      omega
    cases h.ends with
    | stops p hp hstop hbefore hlast =>
      refine .stops p (List.mem_cons_of_mem _ hp) hstop (fun q hq => ?_) hlast
      rcases List.mem_cons.1 hq with rfl | hq
      · exact fun _ => hkf
      · exact hbefore q hq
    | visits p hp hall hafter hlast =>
      refine .visits p (List.mem_cons_of_mem _ hp) (fun q hq => ?_) (fun q hq => ?_) hlast
      · rcases List.mem_cons.1 hq with rfl | hq
        · exact hkf
        · exact hall q hq
      · rcases List.mem_cons.1 hq with rfl | hq
        · exact not_beyond_of_beyond (hindex p hp)
        · exact hafter q hq
    | skips hall hlast =>
      refine .skips (fun q hq => ?_) hlast
      rcases List.mem_cons.1 hq with rfl | hq
      · exact hpast
      · exact hall q hq

/-- A key frame that is visited. -/
theorem Scanned.visit {kf : KeyFrame} {fi : ℕ}
    (h : Scanned (c.visitKeyFrame fi kf).1 c' f ticks l) (hord : InOrder f ((kf, fi) :: l))
    (htail : ∀ p ∈ l, (p.2 : ℤ) ≠ c.lastKF) (hkf : ¬ beyond f kf.ticks ticks = true)
    (hpast : ¬ beyond f c.curTicks kf.ticks = true) : Scanned c c' f ticks ((kf, fi) :: l) := by
  have hahead : ∀ q ∈ l, ¬ beyond f kf.ticks q.1.ticks = true := (List.pairwise_cons.1 hord.ticks).1
  have hindex : ∀ q ∈ l, beyond f q.2 fi = true := (List.pairwise_cons.1 hord.index).1
  have hlast := visitKeyFrame_lastKF (c := c) fi kf
  have hcur := visitKeyFrame_curTicks (c := c) fi kf
  have hcur_le : ¬ beyond f (c.visitKeyFrame fi kf).1.curTicks kf.ticks = true := by
    rw [hcur]
    split
    · exact not_beyond_self
    · exact hpast
  have hle_cur : ¬ beyond f c.curTicks (c.visitKeyFrame fi kf).1.curTicks = true := by
    rw [hcur]
    split
    · exact hpast
    · exact not_beyond_self
  exact {
    keyFrames := by rw [h.keyFrames, visitKeyFrame_keyFrames]
    from_le := by
      have := h.from_le
      rw [beyond_iff] at *
      omega
    le_ticks := h.le_ticks
    heard := by
      intro p hp hhears
      rcases List.mem_cons.1 hp with rfl | hp
      · have hcall : c.calls (kf, fi) = true := by
          rw [hears, Bool.and_eq_true, Bool.and_eq_true] at hhears
          exact hhears.1.1
        have := h.from_le
        rwa [hcur, if_pos hcall] at this
      · refine h.heard p hp ?_
        rw [hears, Bool.and_eq_true, Bool.and_eq_true] at hhears ⊢
        have hne : (p.2 : ℤ) ≠ fi := by
          intro heq
          have := hindex p hp
          rw [heq] at this
          exact not_beyond_self this
        refine ⟨⟨?_, ?_⟩, hhears.2⟩
        · have hcalls := hhears.1.1
          rw [calls, decide_eq_true (htail p hp)] at hcalls
          rw [calls, hlast, decide_eq_true hne]
          exact hcalls
        · have := hahead p hp
          rw [Bool.not_eq_true', Bool.eq_false_iff, Ne, beyond_iff]
          rw [beyond_iff] at this hcur_le
          omega
    ends := by
      cases h.ends with
      | stops p hp hstop hbefore hlast' =>
        refine .stops p (List.mem_cons_of_mem _ hp) hstop (fun q hq => ?_) hlast'
        rcases List.mem_cons.1 hq with rfl | hq
        · exact fun _ => hkf
        · exact hbefore q hq
      | visits p hp hall hafter hlast' =>
        refine .visits p (List.mem_cons_of_mem _ hp) (fun q hq => ?_) (fun q hq => ?_) hlast'
        · rcases List.mem_cons.1 hq with rfl | hq
          · exact hkf
          · exact hall q hq
        · rcases List.mem_cons.1 hq with rfl | hq
          · exact not_beyond_of_beyond (hindex p hp)
          · exact hafter q hq
      | skips hall hlast' =>
        -- behind a key frame that is visited nothing is passed
        have hnil : l = [] := by
          rw [List.eq_nil_iff_forall_not_mem]
          intro q hq
          have hq' := hall q hq
          have := hahead q hq
          rw [beyond_iff] at *
          omega
        subst hnil
        refine .visits (kf, fi) List.mem_cons_self ?_ ?_ (hlast'.trans hlast)
        · intro q hq
          rw [List.mem_singleton] at hq
          subst hq
          exact hkf
        · intro q hq
          rw [List.mem_singleton] at hq
          subst hq
          exact not_beyond_self }

theorem scanned (h : InOrder f l) (htail : ∀ p ∈ l.tail, (p.2 : ℤ) ≠ c.lastKF)
    (hgo : ¬ beyond f c.curTicks ticks = true) : Scanned c (scan f ticks l c).1 f ticks l := by
  induction l generalizing c with
  | nil =>
    exact {
      keyFrames := rfl
      from_le := not_beyond_self
      le_ticks := hgo
      heard := nofun
      ends := .skips nofun rfl }
  | cons p rest ih =>
    obtain ⟨kf, fi⟩ := p
    rw [List.tail_cons] at htail
    rw [scan]
    by_cases hstop : beyond f kf.ticks ticks = true
    · have hindex : ∀ q ∈ rest, beyond f q.2 fi = true := (List.pairwise_cons.1 h.index).1
      have hahead : ∀ q ∈ rest, ¬ beyond f kf.ticks q.1.ticks = true :=
        (List.pairwise_cons.1 h.ticks).1
      rw [if_pos hstop]
      exact {
        keyFrames := rfl
        from_le := not_beyond_self
        le_ticks := hgo
        heard := by
          intro q hq hhears
          have hq' : beyond f q.1.ticks ticks = true := by
            rcases List.mem_cons.1 hq with rfl | hq
            · exact hstop
            · have := hahead q hq
              rw [beyond_iff] at *
              omega
          simp [hears, hq'] at hhears
        ends := by
          refine .stops (kf, fi) List.mem_cons_self hstop ?_ rfl
          intro q hq hbefore
          rcases List.mem_cons.1 hq with rfl | hq
          · exact absurd hbefore not_beyond_self
          · exact absurd hbefore (not_beyond_of_beyond (hindex q hq)) }
    rw [if_neg hstop]
    by_cases hpast : beyond f c.curTicks kf.ticks = true
    · rw [if_pos hpast]
      exact (ih h.tail (fun q hq => htail q (List.mem_of_mem_tail hq)) hgo).pass h hgo hpast
    rw [if_neg hpast]
    refine Scanned.visit (ih h.tail ?_ ?_) h htail hstop hpast
    · intro q hq heq
      rw [visitKeyFrame_lastKF] at heq
      have := (List.pairwise_cons.1 h.index).1 q (List.mem_of_mem_tail hq)
      rw [heq] at this
      exact not_beyond_self this
    · rw [visitKeyFrame_curTicks]
      split
      · exact hstop
      · exact hgo

/-! ## Where the loop starts -/

/-- The key frame that is marked is the one that a move in the direction came to last. -/
def Marked (c : TimelineClipCore) (f : Bool) : Prop :=
  ∃ kf, c.keyFrame? c.lastKF = some kf ∧ ¬ beyond f kf.ticks c.curTicks = true ∧
    ∀ p ∈ c.travel f, beyond f p.2 c.lastKF = true → beyond f p.1.ticks c.curTicks = true

/-- The state after `start`, and the states between moves. -/
def Settled (c : TimelineClipCore) (fresh : Bool) : Prop :=
  c.lastKF = UNDEFINED_KEYFRAME ∧ (fresh = false → ∀ kf ∈ c.keyFrames, kf.ticks ≠ c.curTicks) ∨
    fresh = false ∧ ∃ g, Marked c g

/-- A key frame with a handler between two positions; a fresh move also has its first. -/
def lies (fresh f : Bool) (a b : ℤ) (kf : KeyFrame) : Bool :=
  kf.handled && (if fresh then !beyond f a kf.ticks else beyond f kf.ticks a) &&
    !beyond f kf.ticks b

/-- The marked key frame is not met with its handler. -/
def Unmet (c : TimelineClipCore) (f : Bool) (ticks : ℤ) : Prop :=
  ∀ kf, c.keyFrame? c.lastKF = some kf → kf.handled = true →
    beyond f kf.ticks c.curTicks = true → beyond f kf.ticks ticks = true

/-- Where the marked key frame is at the position, no handler behind it is there too. -/
def Alone (c : TimelineClipCore) (f : Bool) : Prop :=
  ∀ kf, c.keyFrame? c.lastKF = some kf → kf.ticks = c.curTicks →
    ∀ p ∈ c.travel f, p.1.handled = true → beyond f p.2 c.lastKF = true → p.1.ticks ≠ c.curTicks

/-- The key frames that the loop meets, as those that meet `P`. -/
structure Upcoming (c : TimelineClipCore) (f fresh : Bool) (P : KeyFrame × ℕ → Bool) : Prop where
  upcoming : c.upcoming f = .ok ((c.travel f).filter P)
  behind : ∀ p ∈ c.travel f, P p = false → ¬ beyond f p.1.ticks c.curTicks = true
  upward : ∀ p q : KeyFrame × ℕ, P p = true → beyond f q.2 p.2 = true → P q = true
  unmarked : ∀ p q : KeyFrame × ℕ, P p = true → beyond f q.2 p.2 = true → (q.2 : ℤ) ≠ c.lastKF
  rest : (∀ p ∈ c.travel f, P p = true → beyond f c.curTicks p.1.ticks = true) →
    c.lastKF = UNDEFINED_KEYFRAME ∧ (∀ p, P p = true) ∨
      ∃ kf, c.keyFrame? c.lastKF = some kf ∧ ¬ beyond f kf.ticks c.curTicks = true ∧
        ∀ p ∈ c.travel f, ¬ beyond f p.2 c.lastKF = true
  calls_iff : ∀ ticks, ¬ beyond f c.curTicks ticks = true →
    ((∀ p ∈ c.travel f, (P p && c.hears f ticks p) = lies fresh f c.curTicks ticks p.1) ↔
      Unmet c f ticks ∧ Alone c f)

theorem keyFrame?_undefined {kf : KeyFrame} (h : c.lastKF = UNDEFINED_KEYFRAME) :
    c.keyFrame? c.lastKF ≠ some kf := by
  rw [h, keyFrame?, if_neg (by decide)]
  exact nofun

theorem calls_of_ne {p : KeyFrame × ℕ} (h : (p.2 : ℤ) ≠ c.lastKF) : c.calls p = p.1.handled := by
  rw [calls, decide_eq_true h, Bool.and_true]

/-- No key frame is marked: the loop meets them all. -/
theorem upcoming_undefined {fresh : Bool} (hlast : c.lastKF = UNDEFINED_KEYFRAME)
    (hfresh : fresh = false → ∀ kf ∈ c.keyFrames, kf.ticks ≠ c.curTicks) (f : Bool) :
    Upcoming c f fresh (fun _ => true) where
  upcoming := by
    rw [TimelineClipCore.upcoming, if_pos hlast, List.filter_true]
  behind := nofun
  upward := fun _ _ _ _ => rfl
  unmarked := by
    intro _ q _ _
    rw [hlast, UNDEFINED_KEYFRAME]
    omega
  rest := fun _ => .inl ⟨hlast, fun _ => rfl⟩
  calls_iff := by
    intro ticks _
    have hunmet : Unmet c f ticks := fun kf hkf => absurd hkf (keyFrame?_undefined hlast)
    have halone : Alone c f := fun kf hkf => absurd hkf (keyFrame?_undefined hlast)
    refine iff_of_true (fun p hp => ?_) ⟨hunmet, halone⟩
    have hne : (p.2 : ℤ) ≠ c.lastKF := by
      rw [hlast, UNDEFINED_KEYFRAME]
      omega
    rw [Bool.true_and, hears, calls_of_ne hne, lies]
    cases fresh with
    | true => rfl
    | false =>
      have hkf : p.1.ticks ≠ c.curTicks :=
        hfresh rfl p.1 (List.mem_of_getElem? (mem_travel.1 hp))
      have hside : (!beyond f c.curTicks p.1.ticks) = beyond f p.1.ticks c.curTicks := by
        by_cases hpast : beyond f c.curTicks p.1.ticks = true
        · rw [hpast, Bool.eq_false_iff.2 (not_beyond_of_beyond hpast)]
          rfl
        · by_cases hahead : beyond f p.1.ticks c.curTicks = true
          · rw [hahead, Bool.eq_false_iff.2 hpast]
            rfl
          · exact absurd (eq_of_not_beyond hahead hpast) hkf
      rw [hside]
      rfl

/-- The direction of the last move, kept: the loop goes on behind the marked key frame. -/
theorem upcoming_same (hs : Sorted c) {kf : KeyFrame} (hkf : c.keyFrame? c.lastKF = some kf)
    (hle : ¬ beyond f kf.ticks c.curTicks = true)
    (hahead : ∀ p ∈ c.travel f, beyond f p.2 c.lastKF = true →
      beyond f p.1.ticks c.curTicks = true) :
    Upcoming c f false (fun p => beyond f p.2 c.lastKF) := by
  obtain ⟨m, hm, hmem⟩ := mem_travel_of_keyFrame? (f := f) hkf
  have hbehind : ∀ p ∈ c.travel f, beyond f p.2 c.lastKF = false →
      ¬ beyond f p.1.ticks c.curTicks = true := by
    intro p hp hnot
    rw [hm, Bool.eq_false_iff, Ne] at hnot
    have hkf_le : ¬ beyond f p.1.ticks kf.ticks = true := hs.le hp hmem hnot
    rw [beyond_iff] at hle hkf_le ⊢
    omega
  exact {
    upcoming := by
      rw [TimelineClipCore.upcoming, if_neg (fun h => keyFrame?_undefined h hkf), hkf]
      exact if_neg hle
    behind := hbehind
    upward := by
      intro p q hp hq
      rw [beyond_iff] at *
      omega
    unmarked := by
      intro p q hp hq heq
      rw [heq] at hq
      exact not_beyond_of_beyond hq hp
    rest := by
      refine fun hall => .inr ⟨kf, hkf, hle, fun p hp hbeyond => ?_⟩
      exact not_beyond_of_beyond (hahead p hp hbeyond) (hall p hp hbeyond)
    calls_iff := by
      intro ticks _
      refine iff_of_true (fun p hp => ?_) ⟨?_, ?_⟩
      · by_cases hbeyond : beyond f p.2 c.lastKF = true
        · have hcur := hahead p hp hbeyond
          have hne : (p.2 : ℤ) ≠ c.lastKF := by
            intro heq
            rw [heq] at hbeyond
            exact not_beyond_self hbeyond
          rw [hbeyond, Bool.true_and, hears, calls_of_ne hne, lies, hcur,
            Bool.eq_false_iff.2 (not_beyond_of_beyond hcur)]
          rfl
        · rw [Bool.eq_false_iff.2 hbeyond, Bool.false_and, lies,
            Bool.eq_false_iff.2 (hbehind p hp (Bool.eq_false_iff.2 hbeyond))]
          simp
      · intro kf' hkf' _ hbeyond
        rw [hkf, Option.some.injEq] at hkf'
        subst hkf'
        exact absurd hbeyond hle
      · intro kf' hkf' heq p hp _ hbeyond htick
        have := hahead p hp hbeyond
        rw [htick] at this
        exact not_beyond_self this }

/-- A move that turns round, with the marked key frame ahead: the loop meets it again. -/
theorem upcoming_ahead (hs : Sorted c) {kf : KeyFrame} (hkf : c.keyFrame? c.lastKF = some kf)
    (hle : beyond f kf.ticks c.curTicks = true)
    (hahead : ∀ p ∈ c.travel f, beyond f c.lastKF p.2 = true →
      beyond f c.curTicks p.1.ticks = true) :
    Upcoming c f false (fun p => !beyond f c.lastKF p.2) := by
  obtain ⟨m, hm, hmem⟩ := mem_travel_of_keyFrame? (f := f) hkf
  have hfront : ∀ p ∈ c.travel f, ¬ beyond f c.lastKF p.2 = true →
      beyond f p.1.ticks c.curTicks = true := by
    intro p hp hnot
    rw [hm] at hnot
    have hkf_le : ¬ beyond f kf.ticks p.1.ticks = true := hs.le hmem hp hnot
    rw [beyond_iff] at hle hkf_le ⊢
    omega
  exact {
    upcoming := by
      rw [TimelineClipCore.upcoming, if_neg (fun h => keyFrame?_undefined h hkf), hkf]
      exact if_pos hle
    behind := by
      intro p hp hnot
      rw [Bool.not_eq_false'] at hnot
      exact not_beyond_of_beyond (hahead p hp hnot)
    upward := by
      intro p q hp hq
      rw [Bool.not_eq_true', Bool.eq_false_iff, Ne, beyond_iff] at hp ⊢
      rw [beyond_iff] at hq
      omega
    unmarked := by
      intro p q hp hq heq
      rw [heq] at hq
      rw [hq] at hp
      cases hp
    rest := by
      intro hall
      have hself : (!beyond f c.lastKF (kf, m).2) = true := by
        rw [hm, Bool.eq_false_iff.2 not_beyond_self]
        rfl
      exact absurd (hall (kf, m) hmem hself) (not_beyond_of_beyond hle)
    calls_iff := by
      intro ticks _
      have halone : Alone c f := by
        intro kf' hkf' heq
        rw [hkf, Option.some.injEq] at hkf'
        subst hkf'
        rw [heq] at hle
        exact absurd hle not_beyond_self
      have hother : ∀ p ∈ c.travel f, (p.2 : ℤ) ≠ c.lastKF →
          ((!beyond f c.lastKF p.2) && c.hears f ticks p) = lies false f c.curTicks ticks p.1 := by
        intro p hp hne
        by_cases hbehind : beyond f c.lastKF p.2 = true
        · rw [hbehind, lies, Bool.eq_false_iff.2 (not_beyond_of_beyond (hahead p hp hbehind))]
          simp
        · have hfront' := hfront p hp hbehind
          rw [Bool.eq_false_iff.2 hbehind, hears, calls_of_ne hne, lies, hfront',
            Bool.eq_false_iff.2 (not_beyond_of_beyond hfront')]
          rfl
      -- the two sides differ at the marked key frame only
      constructor
      · refine fun hall => ⟨fun kf' hkf' hhandled hbeyond => ?_, halone⟩
        rw [hkf, Option.some.injEq] at hkf'
        subst hkf'
        have hmark := hall (kf, m) hmem
        have hnot : c.calls (kf, m) = false := by
          rw [calls, hm]
          simp
        rw [hears, hnot, lies, hhandled, hbeyond] at hmark
        simpa using hmark.symm
      · rintro ⟨hunmet, _⟩ p hp
        by_cases hne : (p.2 : ℤ) = c.lastKF
        · have hpk : p = (kf, m) := eq_of_mem_travel hp hmem (by
            rw [hm] at hne
            exact Int.natCast_inj.1 hne)
          subst hpk
          have hnot : c.calls (kf, m) = false := by
            rw [calls, hm]
            simp
          rw [hears, hnot, lies]
          by_cases hhandled : kf.handled = true
          · rw [hunmet kf hkf hhandled hle]
            simp
          · rw [Bool.eq_false_iff.2 hhandled]
            simp
        · exact hother p hp hne }

/-- A move that turns round at the marked key frame: the loop starts behind it. -/
theorem upcoming_here (hs : Sorted c) {kf : KeyFrame} (hkf : c.keyFrame? c.lastKF = some kf)
    (hcur : kf.ticks = c.curTicks) :
    Upcoming c f false (fun p => beyond f p.2 c.lastKF) := by
  obtain ⟨m, hm, hmem⟩ := mem_travel_of_keyFrame? (f := f) hkf
  have hfront : ∀ p ∈ c.travel f, ¬ beyond f c.lastKF p.2 = true →
      ¬ beyond f c.curTicks p.1.ticks = true := by
    intro p hp hnot
    rw [hm] at hnot
    have hkf_le : ¬ beyond f kf.ticks p.1.ticks = true := hs.le hmem hp hnot
    rwa [hcur] at hkf_le
  have hbehind : ∀ p ∈ c.travel f, ¬ beyond f p.2 c.lastKF = true →
      ¬ beyond f p.1.ticks c.curTicks = true := by
    intro p hp hnot
    rw [hm] at hnot
    have hkf_le : ¬ beyond f p.1.ticks kf.ticks = true := hs.le hp hmem hnot
    rwa [hcur] at hkf_le
  have hself : ¬ beyond f kf.ticks c.curTicks = true := by
    rw [hcur]
    exact not_beyond_self
  exact {
    upcoming := by
      rw [TimelineClipCore.upcoming, if_neg (fun h => keyFrame?_undefined h hkf), hkf]
      exact if_neg hself
    behind := fun p hp hnot => hbehind p hp (Bool.eq_false_iff.1 hnot)
    upward := by
      intro p q hp hq
      rw [beyond_iff] at *
      omega
    unmarked := by
      intro p q hp hq heq
      rw [heq] at hq
      exact not_beyond_of_beyond hq hp
    rest := by
      refine fun hall => .inr ⟨kf, hkf, hself, fun p hp hbeyond => ?_⟩
      exact hfront p hp (not_beyond_of_beyond hbeyond) (hall p hp hbeyond)
    calls_iff := by
      intro ticks hgo
      have hunmet : Unmet c f ticks := by
        intro kf' hkf' _ hbeyond
        rw [hkf, Option.some.injEq] at hkf'
        subst hkf'
        exact absurd hbeyond hself
      have hne : ∀ p : KeyFrame × ℕ, beyond f p.2 c.lastKF = true → (p.2 : ℤ) ≠ c.lastKF := by
        intro p hbeyond heq
        rw [heq] at hbeyond
        exact not_beyond_self hbeyond
      constructor
      · refine fun hall => ⟨hunmet, fun kf' hkf' _ p hp hhandled hbeyond htick => ?_⟩
        have hp' := hall p hp
        rw [hbeyond, hears, calls_of_ne (hne p hbeyond), lies, hhandled, htick,
          Bool.eq_false_iff.2 hgo, Bool.eq_false_iff.2 (not_beyond_self (f := f) (x := c.curTicks))]
          at hp'
        cases hp'
      · rintro ⟨_, halone⟩ p hp
        by_cases hbeyond : beyond f p.2 c.lastKF = true
        · rw [hbeyond, hears, calls_of_ne (hne p hbeyond), lies]
          have hfront' := hfront p hp (not_beyond_of_beyond hbeyond)
          by_cases hhandled : p.1.handled = true
          · have htick := halone kf hkf hcur p hp hhandled hbeyond
            have hstrict : beyond f p.1.ticks c.curTicks = true := by
              by_contra hnot
              exact htick (eq_of_not_beyond hnot hfront')
            rw [hhandled, hstrict, Bool.eq_false_iff.2 hfront']
            rfl
          · rw [Bool.eq_false_iff.2 hhandled]
            simp
        · rw [Bool.eq_false_iff.2 hbeyond, lies, Bool.eq_false_iff.2 (hbehind p hp hbeyond)]
          simp }

/-- Where the loop starts. -/
theorem exists_upcoming (hs : Sorted c) {fresh : Bool} (h : Settled c fresh) (f : Bool) :
    ∃ P, Upcoming c f fresh P := by
  rcases h with ⟨hlast, hfresh⟩ | ⟨rfl, g, kf, hkf, hle, hahead⟩
  · exact ⟨_, upcoming_undefined hlast hfresh f⟩
  by_cases hg : g = f
  · subst hg
    exact ⟨_, upcoming_same hs hkf hle hahead⟩
  · obtain rfl : g = !f := by
      cases g <;> cases f <;> simp_all
    rw [beyond_not] at hle
    have hahead' : ∀ p ∈ c.travel f, beyond f c.lastKF p.2 = true →
        beyond f c.curTicks p.1.ticks = true := by
      intro p hp hbeyond
      have hp' : p ∈ c.travel (!f) := mem_travel.2 (mem_travel.1 hp)
      have := hahead p hp'
      rw [beyond_not, beyond_not] at this
      exact this hbeyond
    by_cases hstrict : beyond f kf.ticks c.curTicks = true
    · exact ⟨_, upcoming_ahead hs hkf hstrict hahead'⟩
    · exact ⟨_, upcoming_here hs hkf (eq_of_not_beyond hstrict hle)⟩

/-! ## Where the loop ends -/

/-- The last key frame behind the loop: none, the one that it came to last, or an index
behind the array, where all key frames are below a backward move. -/
theorem Upcoming.lastKF (hs : Sorted c) {fresh : Bool} {P : KeyFrame × ℕ → Bool}
    (hup : Upcoming c f fresh P) (h : Scanned c c' f ticks ((c.travel f).filter P))
    (hgo : ¬ beyond f c.curTicks ticks = true) :
    (c'.lastKF = UNDEFINED_KEYFRAME ∧
      ∀ kf ∈ c.keyFrames, kf.ticks ≠ ticks ∧ (f = false → c.curTicks < kf.ticks)) ∨
    (∃ kf, c.keyFrame? c'.lastKF = some kf ∧ ¬ beyond f kf.ticks ticks = true ∧
      ∀ p ∈ c.travel f, beyond f p.2 c'.lastKF = true → beyond f p.1.ticks ticks = true) ∨
    (f = false ∧ (∀ kf ∈ c.keyFrames, kf.ticks < ticks) ∧ c'.lastKF = c.keyFrames.length) := by
  have hmem : ∀ kf ∈ c.keyFrames, ∃ i : ℕ, (kf, i) ∈ c.travel f := by
    intro kf hkf
    obtain ⟨i, hi⟩ := List.mem_iff_getElem?.1 hkf
    exact ⟨i, mem_travel.2 hi⟩
  cases h.ends with
  | stops p hp hstop hbefore hlast =>
    obtain ⟨hp, hP⟩ := List.mem_filter.1 hp
    have hpre : ∀ q ∈ c.travel f, beyond f p.2 q.2 = true → ¬ beyond f q.1.ticks ticks = true := by
      intro q hq hbeyond
      by_cases hPq : P q = true
      · exact hbefore q (List.mem_filter.2 ⟨hq, hPq⟩) hbeyond
      · have := hup.behind q hq (Bool.eq_false_iff.2 hPq)
        rw [beyond_iff] at this hgo ⊢
        omega
    have hpost : ∀ q ∈ c.travel f, ¬ beyond f p.2 q.2 = true → beyond f q.1.ticks ticks = true := by
      intro q hq hbeyond
      have := hs.le hp hq hbeyond
      rw [beyond_iff] at this hstop ⊢
      omega
    have hlt : p.2 < c.keyFrames.length :=
      (List.getElem?_eq_some_iff.1 (mem_travel.1 hp)).1
    -- the key frame before it, where there is one
    have hbetween : ∀ i : ℕ, c'.lastKF = i → i < c.keyFrames.length →
        (beyond f p.2 i = true) → (∀ k : ℕ, beyond f k i = true → ¬ beyond f p.2 k = true) →
        ∃ kf, c.keyFrame? c'.lastKF = some kf ∧ ¬ beyond f kf.ticks ticks = true ∧
          ∀ p ∈ c.travel f, beyond f p.2 c'.lastKF = true → beyond f p.1.ticks ticks = true := by
      intro i hi hlen hbeyond hnext
      have hget : c.keyFrames[i]? = some (c.keyFrames[i]) := List.getElem?_eq_getElem hlen
      refine ⟨c.keyFrames[i], by rw [hi, keyFrame?_natCast, hget], ?_, ?_⟩
      · exact hpre (c.keyFrames[i], i) (mem_travel.2 hget) hbeyond
      · intro q hq hq'
        rw [hi] at hq'
        exact hpost q hq (hnext q.2 hq')
    cases f with
    | true =>
      rw [if_pos rfl] at hlast
      by_cases hzero : p.2 = 0
      · refine .inl ⟨by rw [hlast, hzero]; rfl, fun kf hkf => ⟨fun heq => ?_, nofun⟩⟩
        obtain ⟨i, hi⟩ := hmem kf hkf
        have := hpost (kf, i) hi (by rw [hzero]; simp [beyond])
        rw [heq] at this
        exact not_beyond_self this
      · refine .inr (.inl (hbetween (p.2 - 1) (by omega) (by omega) ?_ ?_))
        · simp only [beyond, if_true, decide_eq_true_eq]
          omega
        · intro k hk
          simp only [beyond, if_true, decide_eq_true_eq] at hk ⊢
          omega
    | false =>
      rw [if_neg Bool.false_ne_true] at hlast
      by_cases hlen : p.2 + 1 < c.keyFrames.length
      · refine .inr (.inl (hbetween (p.2 + 1) (by omega) hlen ?_ ?_))
        · simp only [beyond, Bool.false_eq_true, if_false, decide_eq_true_eq]
          omega
        · intro k hk
          simp only [beyond, Bool.false_eq_true, if_false, decide_eq_true_eq] at hk ⊢
          omega
      · refine .inr (.inr ⟨rfl, fun kf hkf => ?_, by omega⟩)
        obtain ⟨i, hi⟩ := hmem kf hkf
        have hi' : i < c.keyFrames.length := (List.getElem?_eq_some_iff.1 (mem_travel.1 hi)).1
        have := hpost (kf, i) hi (by
          simp only [beyond, Bool.false_eq_true, if_false, decide_eq_true_eq]
          omega)
        simpa only [beyond, Bool.false_eq_true, if_false, decide_eq_true_eq] using this
  | visits p hp hall hafter hlast =>
    obtain ⟨hp, hP⟩ := List.mem_filter.1 hp
    refine .inr (.inl ⟨p.1, ?_, hall p (List.mem_filter.2 ⟨hp, hP⟩), fun q hq hbeyond => ?_⟩)
    · rw [hlast, keyFrame?_natCast]
      exact mem_travel.1 hp
    · rw [hlast] at hbeyond
      exact absurd hbeyond
        (hafter q (List.mem_filter.2 ⟨hq, hup.upward p q hP hbeyond⟩))
  | skips hall hlast =>
    have hall' : ∀ p ∈ c.travel f, P p = true → beyond f c.curTicks p.1.ticks = true :=
      fun p hp hP => hall p (List.mem_filter.2 ⟨hp, hP⟩)
    rw [hlast]
    rcases hup.rest hall' with ⟨hundef, hP⟩ | ⟨kf, hkf, hle, hnone⟩
    · refine .inl ⟨hundef, fun kf hkf => ?_⟩
      obtain ⟨i, hi⟩ := hmem kf hkf
      have hpast : beyond f c.curTicks kf.ticks = true := hall' (kf, i) hi (hP _)
      refine ⟨fun heq => ?_, fun hf => ?_⟩
      · rw [heq] at hpast
        exact hgo hpast
      · subst hf
        simpa only [beyond, Bool.false_eq_true, if_false, decide_eq_true_eq] using hpast
    · refine .inr (.inl ⟨kf, hkf, ?_, fun p hp hbeyond => absurd hbeyond (hnone p hp)⟩)
      rw [beyond_iff] at hle hgo ⊢
      omega

/-! ## A move -/

/-- The handlers between two positions, in the order of travel. -/
def crossed (keyFrames : List KeyFrame) (fresh : Bool) (a b : ℤ) : List ℕ :=
  if a ≤ b then
    (keyFrames.zipIdx.filter fun p => p.1.handled &&
      (if fresh then decide (a ≤ p.1.ticks) else decide (a < p.1.ticks)) &&
      decide (p.1.ticks ≤ b)).map Prod.snd
  else
    (keyFrames.zipIdx.reverse.filter fun p => p.1.handled &&
      (if fresh then decide (p.1.ticks ≤ a) else decide (p.1.ticks < a)) &&
      decide (b ≤ p.1.ticks)).map Prod.snd

/-- A move that goes right. It does not meet the key frame that is marked, if that has a
handler and lies ahead; where it turns round at this key frame, no other handler is there; and
a backward move does not end above all key frames. -/
structure Clear (c : TimelineClipCore) (ticks : ℤ) : Prop where
  unmet : Unmet c (decide (c.curTicks ≤ ticks)) ticks
  alone : Alone c (decide (c.curTicks ≤ ticks))
  within : ticks < c.curTicks → ∃ kf ∈ c.keyFrames, ticks ≤ kf.ticks

theorem crossed_eq (fresh : Bool) (a b : ℤ) (c : TimelineClipCore) :
    crossed c.keyFrames fresh a b =
      ((c.travel (decide (a ≤ b))).filter fun p => lies fresh (decide (a ≤ b)) a b p.1).map
        Prod.snd := by
  rw [crossed]
  by_cases hle : a ≤ b
  · rw [if_pos hle, decide_eq_true hle, travel, if_pos rfl]
    congr 2
    funext p
    cases fresh <;> simp [lies, beyond, ← decide_not]
  · rw [if_neg hle, decide_eq_false hle, travel, if_neg Bool.false_ne_true]
    congr 2
    funext p
    cases fresh <;> simp [lies, beyond, ← decide_not]

theorem Upcoming.inOrder (hs : Sorted c) (P : KeyFrame × ℕ → Bool) :
    InOrder f ((c.travel f).filter P) := hs.inOrder.filter P

theorem Upcoming.tail {fresh : Bool} {P : KeyFrame × ℕ → Bool} (hup : Upcoming c f fresh P) :
    ∀ p ∈ ((c.travel f).filter P).tail, (p.2 : ℤ) ≠ c.lastKF := by
  intro p hp
  cases hl : (c.travel f).filter P with
  | nil =>
    rw [hl] at hp
    cases hp
  | cons q rest =>
    rw [hl, List.tail_cons] at hp
    have hpair := (travel_pairwise c f).filter P
    rw [hl] at hpair
    have hq : q ∈ (c.travel f).filter P := by
      rw [hl]
      exact List.mem_cons_self
    exact hup.unmarked q p (List.mem_filter.1 hq).2 ((List.pairwise_cons.1 hpair).1 p hp)

/-- The loop calls what it should exactly if nothing is suppressed and nothing repeated. -/
theorem Upcoming.handlers_iff (hs : Sorted c) {fresh : Bool} {P : KeyFrame × ℕ → Bool}
    (hf : decide (c.curTicks ≤ ticks) = f) (hup : Upcoming c f fresh P)
    (hgo : ¬ beyond f c.curTicks ticks = true) :
    handlers (scan f ticks ((c.travel f).filter P) c).2 =
        crossed c.keyFrames fresh c.curTicks ticks ↔ Unmet c f ticks ∧ Alone c f := by
  rw [handlers_scan (Upcoming.inOrder hs P) hup.tail, crossed_eq, hf, List.filter_filter,
    ← hup.calls_iff ticks hgo]
  constructor
  · intro heq p hp
    have hindex : ∀ Q : KeyFrame × ℕ → Bool, p.2 ∈ ((c.travel f).filter Q).map Prod.snd ↔ Q p = true := by
      intro Q
      rw [List.mem_map]
      constructor
      · rintro ⟨q, hq, hqp⟩
        obtain ⟨hq, hQ⟩ := List.mem_filter.1 hq
        rwa [eq_of_mem_travel hq hp hqp] at hQ
      · exact fun hQ => ⟨p, List.mem_filter.2 ⟨hp, hQ⟩, rfl⟩
    rw [Bool.eq_iff_iff, Bool.and_comm, ← hindex (fun p => lies fresh f c.curTicks ticks p.1), ← heq,
      hindex]
  · intro hall
    congr 1
    refine List.filter_congr fun p hp => ?_
    rw [Bool.and_comm, hall p hp]

/-- `playTo`, from the loop on. -/
theorem playTo_eq (hskip : c.canSkipFrames = false) (hf : decide (c.curTicks ≤ ticks) = f)
    {frames : List (KeyFrame × ℕ)} (hup : c.upcoming f = .ok frames) {res : TimelineClipCore}
    {calls : List ClipCall} (hres : scan f ticks frames c = (res, calls)) :
    c.playTo ticks =
      if res.lastKF = UNDEFINED_KEYFRAME then
        .ok ((res.setTime ticks).1, calls ++ (res.setTime ticks).2)
      else
        match res.keyFrame? res.lastKF with
        | none => .error .mk
        | some kf =>
          if kf.ticks ≠ ticks ∨ kf.handled = false then
            .ok ((res.setTime ticks).1, calls ++ (res.setTime ticks).2)
          else .ok (res, calls) := by
  rw [playTo, if_neg (by rw [hskip]; exact Bool.false_ne_true), hf]
  simp only [hup, bind, Except.bind, hres, pure, Except.pure]
  rfl

theorem handlers_setTime (calls : List ClipCall) :
    handlers (calls ++ (c.setTime ticks).2) = handlers calls := by
  rw [handlers_append, setTime]
  exact List.append_nil _

/-- **A move.** It calls the handlers that it crosses exactly if it is clear. -/
theorem playTo_iff (hs : Sorted c) (hskip : c.canSkipFrames = false) {fresh : Bool}
    (h : Settled c fresh) (ticks : ℤ) :
    (∃ c' calls, c.playTo ticks = .ok (c', calls) ∧
        handlers calls = crossed c.keyFrames fresh c.curTicks ticks ∧
        (Clear c ticks → c'.keyFrames = c.keyFrames ∧ c'.curTicks = ticks ∧ Settled c' false)) ↔
      Clear c ticks := by
  obtain ⟨f, hf⟩ : ∃ f, decide (c.curTicks ≤ ticks) = f := ⟨_, rfl⟩
  have hgo : ¬ beyond f c.curTicks ticks = true := by
    rw [← hf]
    by_cases hle : c.curTicks ≤ ticks
    · simp [hle, beyond]
    · simp only [beyond, hle, decide_false, Bool.false_eq_true, if_false, decide_eq_true_eq]
      omega
  obtain ⟨P, hup⟩ := exists_upcoming hs h f
  obtain ⟨⟨res, calls⟩, hres⟩ : ∃ r, scan f ticks ((c.travel f).filter P) c = r := ⟨_, rfl⟩
  have hscan := scanned (Upcoming.inOrder hs P) hup.tail hgo
  have hhandlers := hup.handlers_iff hs hf hgo
  rw [hres] at hscan hhandlers
  have hkeyFrame : ∀ i, res.keyFrame? i = c.keyFrame? i := by
    intro i
    rw [keyFrame?, keyFrame?, hscan.keyFrames]
  have heq := playTo_eq hskip hf hup.upcoming hres
  rw [hkeyFrame] at heq
  rcases hup.lastKF hs hscan hgo with ⟨hundef, hnone⟩ | ⟨kf, hkf, hle, hahead⟩ | ⟨hback, hall, hlen⟩
  · -- no key frame is marked
    rw [if_pos hundef] at heq
    have hwithin : ticks < c.curTicks → ∃ kf ∈ c.keyFrames, ticks ≤ kf.ticks := by
      intro hlt
      rw [decide_eq_false (not_le_of_gt hlt)] at hf
      rw [canSkipFrames, Bool.eq_false_iff, Ne, List.all_eq_true] at hskip
      push Not at hskip
      obtain ⟨kf, hkf, _⟩ := hskip
      exact ⟨kf, hkf, (hlt.trans ((hnone kf hkf).2 hf.symm)).le⟩
    rw [heq]
    constructor
    · rintro ⟨c', calls', hc', hright, _⟩
      cases hc'
      rw [handlers_setTime] at hright
      obtain ⟨hunmet, halone⟩ := hhandlers.1 hright
      subst hf
      exact ⟨hunmet, halone, hwithin⟩
    · intro hclear
      refine ⟨_, _, rfl, ?_, fun _ => ⟨hscan.keyFrames, rfl, .inl ⟨hundef, fun _ kf' hkf' => ?_⟩⟩⟩
      · rw [handlers_setTime]
        subst hf
        exact hhandlers.2 ⟨hclear.unmet, hclear.alone⟩
      · exact (hnone kf' (hscan.keyFrames ▸ hkf')).1
  · -- a key frame is marked
    have hdefined : res.lastKF ≠ UNDEFINED_KEYFRAME := by
      intro hundef
      rw [hundef, keyFrame?, if_neg (by decide)] at hkf
      cases hkf
    rw [if_neg hdefined, hkf] at heq
    have hwithin : ticks < c.curTicks → ∃ kf ∈ c.keyFrames, ticks ≤ kf.ticks := by
      intro hlt
      rw [decide_eq_false (not_le_of_gt hlt)] at hf
      obtain ⟨m, _, hmem⟩ := mem_travel_of_keyFrame? (f := f) hkf
      refine ⟨kf, List.mem_of_getElem? (mem_travel.1 hmem), ?_⟩
      subst hf
      simpa only [beyond, Bool.false_eq_true, if_false, decide_eq_true_eq, not_lt] using hle
    have hmarked : ∀ c' : TimelineClipCore, c'.keyFrames = res.keyFrames → c'.lastKF = res.lastKF →
        c'.curTicks = ticks → Settled c' false := by
      intro c' hframes hlast hcur
      refine .inr ⟨rfl, f, kf, ?_, by rw [hcur]; exact hle, ?_⟩
      · rw [hlast, ← hkf, keyFrame?, keyFrame?, hframes, hscan.keyFrames]
      · intro p hp
        rw [hlast, hcur]
        refine hahead p (mem_travel.2 ?_)
        rw [← hscan.keyFrames, ← hframes]
        exact mem_travel.1 hp
    by_cases htime : kf.ticks ≠ ticks ∨ kf.handled = false
    · rw [heq]
      simp only [if_pos htime]
      constructor
      · rintro ⟨c', calls', hc', hright, _⟩
        cases hc'
        rw [handlers_setTime] at hright
        obtain ⟨hunmet, halone⟩ := hhandlers.1 hright
        subst hf
        exact ⟨hunmet, halone, hwithin⟩
      · intro hclear
        refine ⟨_, _, rfl, ?_, fun _ => ⟨hscan.keyFrames, rfl, hmarked _ rfl rfl rfl⟩⟩
        rw [handlers_setTime]
        subst hf
        exact hhandlers.2 ⟨hclear.unmet, hclear.alone⟩
    · rw [heq]
      simp only [if_neg htime]
      constructor
      · rintro ⟨c', calls', hc', hright, _⟩
        cases hc'
        obtain ⟨hunmet, halone⟩ := hhandlers.1 hright
        subst hf
        exact ⟨hunmet, halone, hwithin⟩
      · intro hclear
        subst hf
        have hright := hhandlers.2 ⟨hclear.unmet, hclear.alone⟩
        -- its handler has been called, so that the time is set
        have hcur : res.curTicks = ticks := by
          rw [not_or, ne_eq, not_not, Bool.not_eq_false] at htime
          obtain ⟨htick, hhandled⟩ := htime
          have hfrom := hscan.from_le
          have hto := hscan.le_ticks
          by_cases hhere : c.curTicks = ticks
          · exact eq_of_not_beyond hto (fun h => hfrom (by rw [← hhere] at h ⊢; exact h))
          obtain ⟨m, _, hmem⟩ := mem_travel_of_keyFrame? hkf
          have hlies : lies fresh (decide (c.curTicks ≤ ticks)) c.curTicks ticks kf = true := by
            have hstrict : beyond (decide (c.curTicks ≤ ticks)) ticks c.curTicks = true := by
              by_contra hnot
              exact hhere (eq_of_not_beyond hgo hnot)
            rw [lies, hhandled, htick, hstrict, Bool.eq_false_iff.2 hgo,
              Bool.eq_false_iff.2 not_beyond_self]
            cases fresh <;> rfl
          have hhears := (hup.calls_iff ticks hgo).2 ⟨hclear.unmet, hclear.alone⟩ _ hmem
          rw [hlies, Bool.and_eq_true] at hhears
          have hheard := hscan.heard _ (List.mem_filter.2 ⟨hmem, hhears.1⟩) hhears.2
          rw [htick] at hheard
          exact eq_of_not_beyond hto hheard
        exact ⟨_, _, rfl, hright, fun _ => ⟨hscan.keyFrames, hcur, hmarked _ rfl rfl hcur⟩⟩
  · -- the mark is behind the array
    have hdefined : res.lastKF ≠ UNDEFINED_KEYFRAME := by
      rw [hlen, UNDEFINED_KEYFRAME]
      omega
    have hnone : c.keyFrame? res.lastKF = none := by
      rw [hlen, keyFrame?_natCast]
      exact List.getElem?_eq_none le_rfl
    rw [if_neg hdefined, hnone] at heq
    rw [heq]
    constructor
    · rintro ⟨_, _, hc', _⟩
      cases hc'
    · intro hclear
      obtain ⟨kf, hkf, hle⟩ := hclear.within (by
        subst hback
        exact not_le.1 (of_decide_eq_false hf))
      exact absurd (hall kf hkf) (not_lt_of_ge hle)

/-! ## Runs -/

/-- The handlers that a number of moves should call. -/
def fires (keyFrames : List KeyFrame) : Bool → ℤ → List ℤ → List (List ℕ)
  | _, _, [] => []
  | fresh, a, b :: moves => crossed keyFrames fresh a b :: fires keyFrames false b moves

/-- A move as a step. -/
def moveTo (c : TimelineClipCore) (ticks : ℤ) : Except OutOfBounds TimelineClipCore :=
  (c.playTo ticks).map Prod.fst

theorem plays_iff (hs : Sorted c) (hskip : c.canSkipFrames = false) {fresh : Bool}
    (h : Settled c fresh) (moves : List ℤ) :
    c.plays moves = .ok (fires c.keyFrames fresh c.curTicks moves) ↔
      Along moveTo Clear c moves := by
  induction moves generalizing c fresh with
  | nil => exact iff_of_true rfl trivial
  | cons ticks moves ih =>
    have hmove := playTo_iff hs hskip h ticks
    by_cases hclear : Clear c ticks
    · obtain ⟨c', calls, hc', hright, hnext⟩ := hmove.2 hclear
      obtain ⟨hframes, hcur, hsettled⟩ := hnext hclear
      have hskip' : c'.canSkipFrames = false := by
        rw [canSkipFrames, hframes]
        exact hskip
      have hrest := ih (c := c') (by rw [Sorted, hframes]; exact hs) hskip' hsettled
      rw [hframes, hcur] at hrest
      have hstep : moveTo c ticks = .ok c' := by
        rw [moveTo, hc']
        rfl
      rw [along_cons_ok hstep, and_iff_right hclear, ← hrest, plays, hc', fires, ← hright]
      simp only [Except.map]
      cases c'.plays moves with
      | error e => simp
      | ok calls' => simp
    · refine iff_of_false (fun heq => hclear (hmove.1 ?_)) (fun halong => hclear halong.1)
      rw [plays] at heq
      cases hc' : c.playTo ticks with
      | error e =>
        rw [hc'] at heq
        cases heq
      | ok res =>
        obtain ⟨c', calls⟩ := res
        rw [hc'] at heq
        refine ⟨c', calls, rfl, ?_, fun h => absurd h hclear⟩
        simp only [Except.map, fires] at heq
        cases hrest : c'.plays moves with
        | error e =>
          rw [hrest] at heq
          cases heq
        | ok calls' =>
          rw [hrest, Except.ok.injEq, List.cons.injEq] at heq
          exact heq.1

/-- **Key frames fire once per crossing.** The moves after a start all call the handlers that
they should exactly if they are all clear. -/
theorem plays_start_iff (c : TimelineClipCore) (hs : Sorted c)
    (hhandler : ∃ kf ∈ c.keyFrames, kf.handled = true) (moves : List ℤ) :
    c.start.plays moves = .ok (fires c.keyFrames true c.curTicks moves) ↔
      Along moveTo Clear c.start moves := by
  have hfresh : Settled c.start true := .inl ⟨rfl, fun h => Bool.noConfusion h⟩
  refine plays_iff (c := c.start) hs ?_ hfresh moves
  rw [canSkipFrames, Bool.eq_false_iff, Ne, List.all_eq_true]
  obtain ⟨kf, hkf, hhandled⟩ := hhandler
  intro hall
  have := hall kf hkf
  rw [hhandled] at this
  cases this

/-- Two key frames with handlers, at 10 and at 20. -/
def twoFrames : TimelineClipCore := ⟨[⟨10, true⟩, ⟨20, true⟩], UNDEFINED_KEYFRAME, 0⟩

/-- A small move back first, and the first key frame is met again. -/
theorem plays_start_small :
    twoFrames.start.plays [15, 12, 5] = .ok (fires twoFrames.keyFrames true 0 [15, 12, 5]) ↔
      Along moveTo Clear twoFrames.start [15, 12, 5] :=
  plays_start_iff twoFrames (by simp [Sorted, twoFrames]) ⟨⟨10, true⟩, by decide, rfl⟩ [15, 12, 5]

/-- From 15 back to 5 the key frame at 10 is not called again. -/
theorem plays_start_suppressed :
    twoFrames.start.plays [15, 5] = .ok [[0], []] ∧
      twoFrames.start.plays [15, 5] ≠
        .ok (fires twoFrames.keyFrames true twoFrames.curTicks [15, 5]) := by
  refine ⟨rfl, ?_⟩
  rw [show twoFrames.start.plays [15, 5] = .ok [[0], []] from rfl, Ne, Except.ok.injEq]
  decide

end TimelineClipCore

end JavaFx.Animation
