/-
`javafx.concurrent.Task`: the updates of message, title, value and progress.

The worker thread leaves a value in an `AtomicReference` and, if the reference was
`null`, queues a runnable for the FX thread. The runnable takes the value, leaves
`null`, and sets the property. Updates are coalesced: a value that is still in the
reference when the next comes is never shown.

`null` in a reference means that nothing is pending, and it is a value as well. What
the two threads do is cut where the other can come in between: an update into the
exchange and the `runLater`, a runnable into the exchange and the setting of the
property. The arithmetic of `double` is a parameter.
-/
import JavaFx.Lib.Java

set_option autoImplicit false

namespace JavaFx.Concurrent.TaskUpdates

open JavaFx.Lib

/-- What `updateProgress` does with numbers of type `double`. -/
structure Doubles (D : Type) where
  ofInt : ℤ → D
  isInfinite : D → Bool
  isNaN : D → Bool
  lt : D → D → Bool
  eq : D → D → Bool
  div : D → D → D

/-- `ProgressUpdate`. -/
structure ProgressUpdate (D : Type) where
  workDone : D
  totalWork : D
  deriving DecidableEq

/-- The three properties of progress. -/
structure Progress (D : Type) where
  totalWork : D
  workDone : D
  progress : D
  deriving DecidableEq

/-- What is updated. -/
inductive Kind
  | message
  | title
  | value
  | progress
  deriving DecidableEq

variable {V D : Type}

/-- What the reference of a kind holds. -/
abbrev Content (V D : Type) : Kind → Type
  | .message => String
  | .title => String
  | .value => V
  | .progress => ProgressUpdate D

/-- What the property of a kind shows. -/
abbrev Shown (V D : Type) : Kind → Type
  | .message => Option String
  | .title => Option String
  | .value => Option V
  | .progress => Progress D

/-- A reference and its property. Noted besides are the values the property was set to
and the updates made, both in order. `taken` is what a runnable has taken and not
set yet. -/
structure Channel (C S : Type) where
  slot : Option C
  taken : Option (Option C)
  values : List S
  updates : List (Option C)

/-- The four references, the queue of the FX thread, the runnable that the worker
thread is about to queue and the one that the FX thread is running. -/
structure World (V D : Type) where
  channel : (k : Kind) → Channel (Content V D k) (Shown V D k)
  queue : List Kind
  worker : Option Kind
  fx : Option Kind

section Calls

variable (doubles : Doubles D)

/-- The properties of a new task. -/
def initial : (k : Kind) → Shown V D k
  | .message => some ""
  | .title => some ""
  | .value => none
  | .progress => ⟨doubles.ofInt (-1), doubles.ofInt (-1), doubles.ofInt (-1)⟩

/-- The value a property has. -/
def property (k : Kind) (w : World V D) : Shown V D k :=
  ((w.channel k).values.getLast?).getD (initial doubles k)

/-- `_updateProgress`. -/
def _updateProgress (workDone max : D) : Progress D :=
  ⟨max, workDone,
    if doubles.eq workDone (doubles.ofInt (-1)) then doubles.ofInt (-1)
    else doubles.div workDone max⟩

/-- What a runnable sets the property to. That of `updateProgress` reads the fields of
what it has taken. -/
def shown : (k : Kind) → Option (Content V D k) → Except Exn (Shown V D k)
  | .message, message => .ok message
  | .title, title => .ok title
  | .value, value => .ok value
  | .progress, some update => .ok (_updateProgress doubles update.workDone update.totalWork)
  | .progress, none => .error .nullPointer

/-- `updateProgress` puts the arguments in order. -/
def progressUpdate (workDone max : D) : ProgressUpdate D :=
  let workDone := if doubles.isInfinite workDone || doubles.isNaN workDone
    then doubles.ofInt (-1) else workDone
  let max := if doubles.isInfinite max || doubles.isNaN max then doubles.ofInt (-1) else max
  let workDone := if doubles.lt workDone (doubles.ofInt 0) then doubles.ofInt (-1) else workDone
  let max := if doubles.lt max (doubles.ofInt 0) then doubles.ofInt (-1) else max
  let workDone := if doubles.lt max workDone then max else workDone
  ⟨workDone, max⟩

/-- What happens next: the worker thread calls a method, or queues the runnable of the
call it is in; the FX thread begins the next runnable, or ends the one it has begun. -/
inductive Action (V D : Type)
  | updateMessage (message : Option String)
  | updateTitle (title : Option String)
  | updateValue (value : Option V)
  | updateProgress (workDone max : D)
  | updateProgressLong (workDone max : ℤ)
  | runLater
  | begin
  | finish

/-- A channel is assigned. -/
def World.assign (w : World V D) (k : Kind) (c : Channel (Content V D k) (Shown V D k)) :
    World V D :=
  { w with channel := Function.update w.channel k c }

/-- `getAndSet` of the worker thread. In the middle of a call it does not call. -/
def update (w : World V D) (k : Kind) (x : Option (Content V D k)) : World V D :=
  match w.worker with
  | some _ => w
  | none =>
    let c := w.channel k
    { w.assign k { c with slot := x, updates := c.updates ++ [x] } with
      worker := if c.slot.isNone then some k else none }

/-- The kind of an update, and what it leaves in the reference. -/
def Action.content : Action V D → Option ((k : Kind) × Option (Content V D k))
  | .updateMessage message => some ⟨.message, message⟩
  | .updateTitle title => some ⟨.title, title⟩
  | .updateValue value => some ⟨.value, value⟩
  | .updateProgress workDone max => some ⟨.progress, some (progressUpdate doubles workDone max)⟩
  | .updateProgressLong workDone max =>
    some ⟨.progress,
      some (progressUpdate doubles (doubles.ofInt workDone) (doubles.ofInt max))⟩
  | _ => none

/-- The worker thread queues the runnable. -/
def runLater (w : World V D) : World V D :=
  match w.worker with
  | some k => { w with queue := w.queue ++ [k], worker := none }
  | none => w

/-- The FX thread begins a runnable: `getAndSet(null)`. -/
def begin (w : World V D) : World V D :=
  match w.fx, w.queue with
  | none, k :: queue =>
    { w.assign k { w.channel k with slot := none, taken := some (w.channel k).slot } with
      queue := queue, fx := some k }
  | _, _ => w

/-- The FX thread sets the property, unless the runnable throws. -/
def finish (w : World V D) : Except Exn (World V D) :=
  match w.fx with
  | none => .ok w
  | some k =>
    match (w.channel k).taken with
    | none => .ok w
    | some x => do
        let v ← shown doubles k x
        return { w.assign k { w.channel k with taken := none
                                               values := (w.channel k).values ++ [v] } with
          fx := none }

/-- A step of one of the threads. -/
def step (w : World V D) (a : Action V D) : Except Exn (World V D) :=
  match a.content doubles with
  | some ⟨k, x⟩ => .ok (update w k x)
  | none =>
    match a with
    | .runLater => .ok (runLater w)
    | .begin => .ok (begin w)
    | .finish => finish doubles w
    | _ => .ok w

/-- A new task. -/
def start : World V D := ⟨fun _ => ⟨none, none, [], []⟩, [], none, none⟩

/-! ## What is right

The property of a kind shows values of updates, in the order of the updates, and when
nothing is under way it shows the last. -/

/-- Nothing is queued, and neither thread is in the middle of anything. -/
def Idle (w : World V D) : Prop := w.queue = [] ∧ w.worker = none ∧ w.fx = none

/-- What holds of a kind. -/
structure Right (w : World V D) (k : Kind) : Prop where
  inOrder : ((w.channel k).values.map .ok).Sublist ((w.channel k).updates.map (shown doubles k))
  last : Idle w → ∀ x ∈ (w.channel k).updates.getLast?,
    shown doubles k x = .ok (property doubles k w)
  initial : (w.channel k).updates = [] → property doubles k w = initial doubles k

/-- No update with a value is made while one with `null` is queued. -/
def Prompt (w : World V D) (a : Action V D) : Prop :=
  ∀ p ∈ a.content doubles, p.2.isSome → (w.channel p.1).slot = none → p.1 ∉ w.queue

instance (w : World V D) (a : Action V D) : Decidable (Prompt doubles w a) :=
  inferInstanceAs (Decidable (∀ p ∈ a.content doubles, _))

end Calls

end JavaFx.Concurrent.TaskUpdates

/-!
What a run of the two threads keeps, and that no update is lost.

For each kind there are the updates that have been shown, the one a runnable has taken
and the one in the reference. In this order they are some of the updates made, and end
with the last. A runnable that finds `null` shows `null`, so while the reference holds
`null` every runnable that is queued stands for an update with `null`. That is where
the condition comes from: a value that is put into the reference then is taken by the
first of these runnables, and the next shows `null` again.
-/

namespace JavaFx.Concurrent.TaskUpdates

open JavaFx.Lib

/-! ## One reference -/

section Channel

variable {C S : Type} {f : Option C → Except Exn S} {c : Channel C S} {n : ℕ}

/-- What `n` runnables will take if nothing comes in between. -/
def inSlot (slot : Option C) (n : ℕ) : List (Option C) :=
  match slot with
  | some v => [some v]
  | none => List.replicate n none

/-- The updates that are shown, then the one taken, then what the runnables will take. -/
structure Channel.Inv (f : Option C → Except Exn S) (c : Channel C S) (n : ℕ)
    (done : List (Option C)) : Prop where
  values : done.map f = c.values.map .ok
  order : (done ++ c.taken.toList ++ inSlot c.slot n).Sublist c.updates
  last : (done ++ c.taken.toList ++ inSlot c.slot n).getLast? = c.updates.getLast?
  one : c.slot.isSome → n = 1
  sane : ∀ x ∈ c.updates, ∃ v, f x = .ok v

/-- What was to be taken is replaced, or `null` joins the `null`s. -/
theorem inSlot_update {slot x : Option C} (hone : slot.isSome → n = 1)
    (hprompt : x.isSome → slot = none → n = 0) :
    ∃ l, l.Sublist (inSlot slot n)
      ∧ inSlot x (if slot.isNone then n + 1 else n) = l ++ [x] := by
  cases slot with
  | some v =>
    have hn := hone rfl
    refine ⟨[], List.nil_sublist _, ?_⟩
    cases x with
    | some y => rfl
    | none =>
      rw [hn]
      rfl
  | none =>
    cases x with
    | some y => exact ⟨[], List.nil_sublist _, rfl⟩
    | none =>
      refine ⟨List.replicate n none, List.Sublist.refl _, ?_⟩
      rw [← List.replicate_succ']
      rfl

theorem Channel.Inv.update {done : List (Option C)} (h : c.Inv f n done) {x : Option C} {v : S}
    (hv : f x = .ok v) (hprompt : x.isSome → c.slot = none → n = 0) :
    Channel.Inv f { c with slot := x, updates := c.updates ++ [x] }
      (if c.slot.isNone then n + 1 else n) done := by
  obtain ⟨l, hl, hslot⟩ := inSlot_update h.one hprompt
  have hkept : (done ++ c.taken.toList ++ l).Sublist c.updates :=
    (hl.append_left _).trans h.order
  refine ⟨h.values, ?_, ?_, ?_, ?_⟩
  · rw [hslot, ← List.append_assoc]
    exact hkept.append (List.Sublist.refl _)
  · rw [hslot, ← List.append_assoc, List.getLast?_append_of_ne_nil _ (List.cons_ne_nil _ _),
      List.getLast?_append_of_ne_nil _ (List.cons_ne_nil _ _)]
  · intro hx
    cases hslot' : c.slot with
    | none => simp [hprompt hx hslot']
    | some u => simp [h.one (by rw [hslot']; rfl)]
  · intro y hy
    rcases List.mem_append.mp hy with hy | hy
    · exact h.sane y hy
    · rw [List.mem_singleton.mp hy]
      exact ⟨v, hv⟩

theorem Channel.Inv.begin {done : List (Option C)} (h : c.Inv f (n + 1) done)
    (htaken : c.taken = none) :
    Channel.Inv f { c with slot := none, taken := some c.slot } n done := by
  have hsame : done ++ [c.slot] ++ List.replicate n none
      = done ++ c.taken.toList ++ inSlot c.slot (n + 1) := by
    rw [htaken, Option.toList_none, List.append_nil]
    cases hslot : c.slot with
    | none => simp [inSlot, List.replicate_succ]
    | some v =>
      have hn := h.one (by rw [hslot]; rfl)
      have hzero : n = 0 := by omega
      simp [inSlot, hzero]
  refine ⟨h.values, ?_, ?_, fun hnone => absurd hnone Bool.false_ne_true, h.sane⟩
  · have horder := h.order
    rw [← hsame] at horder
    exact horder
  · exact (congrArg List.getLast? hsame).trans h.last

theorem Channel.Inv.finish {done : List (Option C)} (h : c.Inv f n done) {x : Option C} {v : S}
    (htaken : c.taken = some x) (hv : f x = .ok v) :
    Channel.Inv f { c with taken := none, values := c.values ++ [v] } n (done ++ [x]) := by
  have hsame : done ++ [x] ++ (none : Option (Option C)).toList ++ inSlot c.slot n
      = done ++ c.taken.toList ++ inSlot c.slot n := by
    rw [htaken]
    simp
  refine ⟨?_, hsame ▸ h.order, (congrArg List.getLast? hsame).trans h.last, h.one, h.sane⟩
  rw [List.map_append, List.map_append, h.values]
  simp [hv]

/-- What has been taken can be shown. -/
theorem Channel.Inv.shows {done : List (Option C)} (h : c.Inv f n done) {x : Option C}
    (htaken : c.taken = some x) : ∃ v, f x = .ok v := by
  apply h.sane x
  apply h.order.subset
  simp [htaken]

end Channel

/-! ## The task -/

variable {V D : Type} {doubles : Doubles D}

/-- The runnables of a kind that are queued or about to be. -/
def outstanding (w : World V D) (k : Kind) : ℕ :=
  w.queue.count k + if w.worker = some k then 1 else 0

/-- What a run keeps. -/
structure Inv (doubles : Doubles D) (w : World V D) : Prop where
  channel : ∀ k, ∃ done, (w.channel k).Inv (shown doubles k) (outstanding w k) done
  taken : ∀ k, (w.channel k).taken.isSome ↔ w.fx = some k

theorem inv_start : Inv doubles (start : World V D) where
  channel k := ⟨[], rfl, List.nil_sublist _, rfl, fun h => absurd h Bool.false_ne_true,
    fun _ hx => absurd hx List.not_mem_nil⟩
  taken k := by simp [start]

/-- An update can be shown. -/
theorem content_shown {a : Action V D} {k : Kind} {x : Option (Content V D k)}
    (h : a.content doubles = some ⟨k, x⟩) : ∃ v, shown doubles k x = .ok v := by
  cases a with
  | updateMessage message =>
    cases h
    exact ⟨_, rfl⟩
  | updateTitle title =>
    cases h
    exact ⟨_, rfl⟩
  | updateValue value =>
    cases h
    exact ⟨_, rfl⟩
  | updateProgress workDone max =>
    cases h
    exact ⟨_, rfl⟩
  | updateProgressLong workDone max =>
    cases h
    exact ⟨_, rfl⟩
  | runLater => cases h
  | begin => cases h
  | finish => cases h

theorem update_inv {w : World V D} (h : Inv doubles w) {k : Kind} {x : Option (Content V D k)}
    {v : Shown V D k} (hv : shown doubles k x = .ok v)
    (hprompt : x.isSome → (w.channel k).slot = none → k ∉ w.queue) :
    Inv doubles (update w k x) := by
  unfold update
  cases hworker : w.worker with
  | some k' => exact h
  | none =>
    dsimp only
    refine ⟨fun k' => ?_, fun k' => ?_⟩
    · by_cases hk : k' = k
      · subst hk
        obtain ⟨done, hdone⟩ := h.channel k'
        refine ⟨done, ?_⟩
        have hout : outstanding w k' = w.queue.count k' := by simp [outstanding, hworker]
        have hnew := hdone.update hv (fun hx hnone => by
          rw [hout]
          exact List.count_eq_zero.mpr (hprompt hx hnone))
        rw [hout] at hnew
        simp only [World.assign, Function.update_self]
        convert hnew using 1
        cases hslot : (w.channel k').slot with
        | none => simp [outstanding]
        | some u => simp [outstanding]
      · obtain ⟨done, hdone⟩ := h.channel k'
        refine ⟨done, ?_⟩
        simp only [World.assign, Function.update_of_ne hk]
        convert hdone using 1
        have hother : ¬ k = k' := fun h => hk h.symm
        cases hslot : (w.channel k).slot with
        | none => simp [outstanding, hworker, hother]
        | some u => simp [outstanding, hworker]
    · by_cases hk : k' = k
      · subst hk
        simpa [World.assign] using h.taken k'
      · simpa [World.assign, Function.update_of_ne hk] using h.taken k'

theorem runLater_inv {w : World V D} (h : Inv doubles w) : Inv doubles (runLater w) := by
  unfold runLater
  cases hworker : w.worker with
  | none => exact h
  | some k =>
    refine ⟨fun k' => ?_, h.taken⟩
    obtain ⟨done, hdone⟩ := h.channel k'
    refine ⟨done, ?_⟩
    -- the runnable is counted in the queue now
    have hout : outstanding { w with queue := w.queue ++ [k], worker := none } k'
        = outstanding w k' := by
      by_cases hk : k = k'
      · simp [outstanding, hworker, hk]
      · simp [outstanding, hworker, hk]
    rwa [hout]

theorem begin_inv {w : World V D} (h : Inv doubles w) : Inv doubles (begin w) := by
  unfold begin
  split
  · rename_i k queue hfx hqueue
    have htaken : (w.channel k).taken = none := by
      by_contra hne
      have := (h.taken k).mp (Option.isSome_iff_ne_none.mpr hne)
      rw [hfx] at this
      cases this
    refine ⟨fun k' => ?_, fun k' => ?_⟩
    · by_cases hk : k' = k
      · subst hk
        obtain ⟨done, hdone⟩ := h.channel k'
        refine ⟨done, ?_⟩
        have hout : outstanding w k'
            = (queue.count k' + if w.worker = some k' then 1 else 0) + 1 := by
          simp only [outstanding, hqueue, List.count_cons_self]
          omega
        rw [hout] at hdone
        simp only [World.assign, Function.update_self]
        exact hdone.begin htaken
      · obtain ⟨done, hdone⟩ := h.channel k'
        refine ⟨done, ?_⟩
        simp only [World.assign, Function.update_of_ne hk]
        convert hdone using 1
        simp only [outstanding, hqueue, List.count_cons_of_ne (fun h => hk h.symm)]
    · by_cases hk : k' = k
      · subst hk
        simp [World.assign]
      · have hold := h.taken k'
        rw [hfx] at hold
        simp only [World.assign, Function.update_of_ne hk, Option.some_inj]
        constructor
        · intro htaken'
          cases hold.mp htaken'
        · intro heq
          exact absurd heq.symm hk
  · exact h

theorem finish_inv {w : World V D} (h : Inv doubles w) :
    ∃ w', finish doubles w = .ok w' ∧ Inv doubles w' := by
  unfold finish
  cases hfx : w.fx with
  | none => exact ⟨w, rfl, h⟩
  | some k =>
    dsimp only
    cases htaken : (w.channel k).taken with
    | none => exact ⟨w, rfl, h⟩
    | some x =>
      dsimp only
      obtain ⟨done, hdone⟩ := h.channel k
      obtain ⟨v, hv⟩ := hdone.shows htaken
      rw [hv, ok_bind, pure_eq_ok]
      refine ⟨_, rfl, fun k' => ?_, fun k' => ?_⟩
      · by_cases hk : k' = k
        · subst hk
          refine ⟨done ++ [x], ?_⟩
          simp only [World.assign, Function.update_self]
          exact hdone.finish htaken hv
        · simp only [World.assign, Function.update_of_ne hk]
          exact h.channel k'
      · by_cases hk : k' = k
        · subst hk
          simp [World.assign]
        · have hold := h.taken k'
          rw [hfx] at hold
          simp only [World.assign, Function.update_of_ne hk]
          constructor
          · intro htaken'
            exact absurd (Option.some_inj.mp (hold.mp htaken')).symm hk
          · intro hnone
            cases hnone

theorem step_inv {w : World V D} (h : Inv doubles w) (a : Action V D)
    (hprompt : Prompt doubles w a) : ∃ w', step doubles w a = .ok w' ∧ Inv doubles w' := by
  unfold step
  cases hcontent : a.content doubles with
  | some p =>
    obtain ⟨k, x⟩ := p
    obtain ⟨v, hv⟩ := content_shown hcontent
    exact ⟨_, rfl, update_inv h hv (hprompt ⟨k, x⟩ hcontent)⟩
  | none =>
    dsimp only
    split
    · exact ⟨_, rfl, runLater_inv h⟩
    · exact ⟨_, rfl, begin_inv h⟩
    · exact finish_inv h
    · exact ⟨w, rfl, h⟩

theorem Inv.right {w : World V D} (h : Inv doubles w) (k : Kind) : Right doubles w k := by
  obtain ⟨done, hdone⟩ := h.channel k
  have hmap : (w.channel k).values.map .ok = done.map (shown doubles k) := hdone.values.symm
  refine ⟨?_, ?_, ?_⟩
  · rw [hmap]
    apply List.Sublist.map
    exact (List.sublist_append_left _ _).trans ((List.sublist_append_left _ _).trans hdone.order)
  · rintro ⟨hqueue, hworker, hfx⟩ x hx
    -- nothing is taken and nothing is queued, so what is shown ends with the last update
    have htaken : (w.channel k).taken = none := by
      by_contra hne
      have := (h.taken k).mp (Option.isSome_iff_ne_none.mpr hne)
      rw [hfx] at this
      cases this
    have hout : outstanding w k = 0 := by simp [outstanding, hqueue, hworker]
    have hslot : inSlot (w.channel k).slot (outstanding w k) = [] := by
      cases hs : (w.channel k).slot with
      | none => simp [inSlot, hout]
      | some v =>
        have := hdone.one (by rw [hs]; rfl)
        omega
    have hlast := hdone.last
    rw [hslot, htaken, Option.toList_none, List.append_nil, List.append_nil,
      Option.mem_def.mp hx] at hlast
    have hvalue := congrArg List.getLast? hmap
    rw [List.getLast?_map, List.getLast?_map, hlast, Option.map_some] at hvalue
    obtain ⟨v, hv, hxv⟩ := Option.map_eq_some_iff.mp hvalue
    rw [property, hv, Option.getD_some, hxv]
  · intro hnil
    have horder := hdone.order
    rw [hnil, List.sublist_nil, List.append_eq_nil_iff, List.append_eq_nil_iff] at horder
    have hvalues : (w.channel k).values = [] := by
      rw [horder.1.1] at hmap
      exact List.map_eq_nil_iff.mp hmap
    rw [property, hvalues]
    rfl

/-! ## The result -/

/-- **Updates are not lost.** When no update with a value is made while one with `null`
is queued, no runnable throws, each property shows values of updates in their order, and
when nothing is under way it shows the last. -/
theorem taskUpdates_run_right (as : List (Action V D))
    (h : Along (step doubles) (Prompt doubles) start as) :
    ∃ w, run (step doubles) start as = .ok w ∧ ∀ k, Right doubles w k := by
  obtain ⟨w, hrun, hinv⟩ := run_invariant (Inv doubles)
    (fun w a hw hp => step_inv hw a hp) inv_start h
  exact ⟨w, hrun, hinv.right⟩

/-- Numbers that are exact. -/
def exact : Doubles ℤ :=
  ⟨id, fun _ => false, fun _ => false, fun a b => decide (a < b), fun a b => decide (a = b),
    fun a b => a / b⟩

/-- A message, coalesced with another, and then none. -/
theorem taskUpdates_run_right_coalesced :
    ∃ w : World Unit ℤ, run (step exact) start
        [.updateMessage (some "a"), .runLater, .updateMessage (some "b"), .begin,
          .updateMessage none, .finish, .runLater, .begin, .finish] = .ok w
      ∧ ∀ k, Right exact w k :=
  taskUpdates_run_right _ (by decide)

/-- `updateMessage(null)` and then `updateMessage("a")` leave `null`. -/
theorem taskUpdates_run_lost :
    ∃ w : World Unit ℤ, run (step exact) start
        [.updateMessage none, .runLater, .updateMessage (some "a"), .runLater, .begin, .finish,
          .begin, .finish] = .ok w
      ∧ Idle w ∧ (w.channel .message).updates = [none, some "a"]
      ∧ (w.channel .message).values = [some "a", none] ∧ property exact .message w = none
      ∧ ¬ Right exact w .message := by
  refine ⟨_, rfl, ⟨rfl, rfl, rfl⟩, rfl, rfl, rfl, ?_⟩
  intro hright
  have hlast := hright.last ⟨rfl, rfl, rfl⟩ (some "a") rfl
  cases hlast

end JavaFx.Concurrent.TaskUpdates
