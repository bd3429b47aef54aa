/-
`javafx.concurrent.Task`: the state property and the `FutureTask` beneath it.

A task has two states. The `FutureTask` is new until its result or its exception is set
or it is cancelled, which happens on any thread; the property is set on the FX thread
only, mostly by runnables that other threads have queued. The worker thread queues the
runnable with the final state before the `FutureTask` has its result, and a cancel on
another thread has succeeded before its runnable is queued.

`FutureTask` is assumed to be right: `run` calls a new task only, and `cancel` succeeds
exactly until the result or the exception is set. What the threads do is cut where
another can come in between. Handlers of the FX thread may cancel in the middle of a
runnable.
-/
import JavaFx.Lib.Java
import Mathlib.Data.List.Chain

set_option autoImplicit false

namespace JavaFx.Concurrent

open JavaFx.Lib

/-- `Worker.State`. -/
inductive State
  | ready
  | scheduled
  | running
  | succeeded
  | cancelled
  | failed
  deriving DecidableEq, Repr

namespace TaskState

/-- A `FutureTask`: not completed, completed with a result or an exception, cancelled. -/
inductive Future
  | new
  | completed
  | cancelled
  deriving DecidableEq

/-- Where the worker thread is. `call` ends with a value, for which `isCancelled` is
asked, or with an exception, for which it is not. -/
inductive Phase
  | idle
  | calling
  | returned
  | toQueue (final : State)
  | queued
  | ended
  deriving DecidableEq

/-- The `FutureTask` and the worker thread; whether another thread has cancelled and not
queued its runnable yet; the state, the values it has been set to, and the states that
the runnables will set, of the one the FX thread is running and of those queued. -/
structure World where
  future : Future
  worker : Phase
  cancelling : Bool
  state : State
  values : List State
  running : List State
  queue : List (List State)
  deriving DecidableEq

/-- `setState`. -/
def setState (value : State) (w : World) : World :=
  if w.state ≠ .cancelled then { w with state := value, values := w.values ++ [value] } else w

/-- `runLater`. -/
def runLater (states : List State) (w : World) : World :=
  { w with queue := w.queue ++ [states] }

/-- What happens next. `schedule` is what a `Service` does before it executes the task. -/
inductive Action
  | schedule
  | run
  | callReturns
  | callThrows
  | isCancelled
  | queueFinal
  | complete
  | begin
  | perform
  | cancelOnFx
  | cancelOther
  | queueCancelled
  deriving DecidableEq

/-- A step of one of the threads, if it can take it. -/
def next (w : World) : Action → World
  | .schedule => if w.worker = .idle then setState .scheduled w else w
  -- `FutureTask.run`, and the beginning of `TaskCallable.call`
  | .run =>
    if w.worker = .idle then
      if w.future = .new then runLater [.scheduled, .running] { w with worker := .calling }
      else { w with worker := .ended }
    else w
  | .callReturns => if w.worker = .calling then { w with worker := .returned } else w
  | .callThrows => if w.worker = .calling then { w with worker := .toQueue .failed } else w
  | .isCancelled =>
    if w.worker = .returned then
      if w.future ≠ .cancelled then { w with worker := .toQueue .succeeded }
      else { w with worker := .queued }
    else w
  | .queueFinal =>
    match w.worker with
    | .toQueue final => runLater [final] { w with worker := .queued }
    | _ => w
  -- `FutureTask.set` and `setException`
  | .complete =>
    if w.worker = .queued then
      { w with worker := .ended
               future := if w.future = .new then .completed else w.future }
    else w
  | .begin =>
    match w.running, w.queue with
    | [], states :: queue => { w with running := states, queue := queue }
    | _, _ => w
  | .perform =>
    match w.running with
    | value :: rest => setState value { w with running := rest }
    | [] => w
  -- `cancel` on the FX thread, also in a handler
  | .cancelOnFx =>
    if w.future = .new then setState .cancelled { w with future := .cancelled } else w
  | .cancelOther =>
    if w.future = .new then { w with future := .cancelled, cancelling := true } else w
  | .queueCancelled =>
    if w.cancelling then runLater [.cancelled] { w with cancelling := false } else w

/-- A step. None fails. -/
def step (w : World) (a : Action) : Except Exn World := .ok (next w a)

/-- A new task. -/
def start : World := ⟨.new, .idle, false, .ready, [.ready], [], []⟩

/-- `SUCCEEDED`, `FAILED` and `CANCELLED`. -/
def State.isFinal : State → Prop
  | .succeeded | .failed | .cancelled => True
  | _ => False

instance (s : State) : Decidable (State.isFinal s) := by
  unfold State.isFinal
  split <;> infer_instance

/-- From one value of the property to the next: a final one is not left, and `RUNNING`
is entered from `SCHEDULED`. -/
def Allowed (s s' : State) : Prop :=
  (State.isFinal s → s' = s) ∧ (s' = .running → s ≠ .running → s = .scheduled)

instance (s s' : State) : Decidable (Allowed s s') := inferInstanceAs (Decidable (_ ∧ _))

/-- The property has been through allowed values only. -/
def Orderly (w : World) : Prop := w.values.IsChain Allowed

/-- The step does not fall between the final state and the completion. While the
runnable with the final state is queued and the `FutureTask` has no result yet, no
other thread cancels, and the FX thread does only if the runnable has not been run; and
that runnable is not queued while another thread is about to queue `CANCELLED`. -/
def Clear (w : World) : Action → Prop
  | .cancelOther => w.worker = .queued → w.future ≠ .new
  | .cancelOnFx => w.worker = .queued → w.future = .new →
      w.state ≠ .succeeded ∧ w.state ≠ .failed
  | .queueFinal => w.cancelling = false
  | _ => True

instance (w : World) (a : Action) : Decidable (Clear w a) := by
  cases a <;> unfold Clear <;> infer_instance

/-! ## What a run keeps -/

/-- The states that the FX thread will set. -/
def ahead (w : World) : List State := w.running ++ w.queue.flatten

/-- The state after `setState` with all of these. -/
def after (s : State) (states : List State) : State :=
  states.foldl (fun s value => if s ≠ .cancelled then value else s) s

/-- `setState` with these takes the property through allowed values. -/
def Leads : State → List State → Prop
  | _, [] => True
  | s, value :: states =>
    if s ≠ .cancelled then Allowed s value ∧ Leads value states else Leads s states

theorem after_cancelled (states : List State) : after .cancelled states = .cancelled := by
  induction states with
  | nil => rfl
  | cons value states ih => exact ih

theorem leads_cancelled (states : List State) : Leads .cancelled states := by
  induction states with
  | nil => trivial
  | cons value states ih => exact ih

theorem after_append (s : State) (states states' : List State) :
    after s (states ++ states') = after (after s states) states' := List.foldl_append

theorem Leads.append {s : State} {states states' : List State} (h : Leads s states)
    (h' : Leads (after s states) states') : Leads s (states ++ states') := by
  induction states generalizing s with
  | nil => exact h'
  | cons value states ih =>
    rw [List.cons_append, Leads]
    rw [Leads] at h
    by_cases hs : s = .cancelled
    · rw [if_neg (not_not.mpr hs)] at h ⊢
      subst hs
      exact ih h h'
    · rw [if_pos hs] at h ⊢
      refine ⟨h.1, ih h.2 ?_⟩
      have hafter : after s (value :: states) = after value states := by simp [after, hs]
      rwa [hafter] at h'

/-- A final state stays. -/
theorem Leads.after_final {s : State} {states : List State} (h : Leads s states)
    (hs : State.isFinal s) : after s states = s := by
  induction states with
  | nil => rfl
  | cons value states ih =>
    by_cases hc : s = .cancelled
    · rw [hc]
      exact after_cancelled _
    · rw [Leads, if_pos hc] at h
      have hvalue := h.1.1 hs
      subst hvalue
      have hafter : after value (value :: states) = after value states := by simp [after, hc]
      rw [hafter]
      exact ih h.2

/-- The state a task ends with when it is not cancelled. -/
def Settled (s : State) : Prop := s = .succeeded ∨ s = .failed

instance (s : State) : Decidable (Settled s) := inferInstanceAs (Decidable (_ ∨ _))

theorem Settled.isFinal {s : State} (h : Settled s) : State.isFinal s := by
  rcases h with rfl | rfl
  · trivial
  · trivial

/-- A final state may follow, whatever comes before, if that is not settled. -/
theorem leads_final {s value : State} (hs : ¬ Settled s) (hvalue : State.isFinal value) :
    Leads s [value] := by
  rw [Leads]
  split
  · rename_i hc
    refine ⟨⟨?_, ?_⟩, trivial⟩
    · intro hfinal
      cases s with
      | succeeded => exact absurd (Or.inl rfl) hs
      | failed => exact absurd (Or.inr rfl) hs
      | cancelled => exact absurd rfl hc
      | ready => exact hfinal.elim
      | scheduled => exact hfinal.elim
      | running => exact hfinal.elim
    · rintro rfl
      exact hvalue.elim
  · trivial

/-- What the runnables will set is allowed, and leads to `SUCCEEDED` or `FAILED` only when
the worker thread has queued that and no `CANCELLED` can be queued behind it. -/
structure Inv (w : World) : Prop where
  values : ∃ before, w.values = before ++ [w.state]
  orderly : Orderly w
  leads : Leads w.state (ahead w)
  settled : Settled (after w.state (ahead w)) →
    (w.worker = .queued ∨ w.worker = .ended) ∧ w.cancelling = false
  ended : w.worker = .ended → w.future ≠ .new
  cancelling : w.cancelling = true → w.future ≠ .new
  toQueue : ∀ final, w.worker = .toQueue final → Settled final
  idle : w.worker = .idle → (w.state = .ready ∨ w.state = .scheduled ∨ w.state = .cancelled)
    ∧ (∀ value ∈ ahead w, value = .cancelled)
    ∧ (w.future = .new → ahead w = [] ∧ w.state ≠ .cancelled)

theorem inv_start : Inv start where
  values := ⟨[], rfl⟩
  orderly := List.IsChain.singleton _
  leads := trivial
  settled h := absurd h (by decide)
  ended h := by cases h
  cancelling h := by cases h
  toQueue _ h := by cases h
  idle _ := ⟨Or.inl rfl, fun _ h => absurd h List.not_mem_nil, fun _ => ⟨rfl, fun h => by cases h⟩⟩

/-! ## The steps -/

/-- The property may take an allowed value. -/
theorem Inv.orderly_set {w : World} (h : Inv w) {value : State} (hallowed : Allowed w.state value) :
    (w.values ++ [value]).IsChain Allowed := by
  obtain ⟨before, hvalues⟩ := h.values
  have horderly := h.orderly
  unfold Orderly at horderly
  rw [List.isChain_append]
  refine ⟨horderly, List.IsChain.singleton _, ?_⟩
  intro x hx y hy
  rw [hvalues, List.getLast?_append_of_ne_nil _ (List.cons_ne_nil _ _)] at hx
  cases hx
  cases hy
  exact hallowed

/-- A step that only moves the worker thread on. -/
theorem Inv.move {w : World} (h : Inv w) {phase : Phase} (hidle : phase ≠ .idle)
    (hsettled : w.worker = .queued ∨ w.worker = .ended → phase = .queued ∨ phase = .ended)
    (hended : phase = .ended → w.future ≠ .new)
    (htoQueue : ∀ final, phase = .toQueue final → Settled final) :
    Inv { w with worker := phase } where
  values := h.values
  orderly := h.orderly
  leads := h.leads
  settled hs := ⟨hsettled (h.settled hs).1, (h.settled hs).2⟩
  ended := hended
  cancelling := h.cancelling
  toQueue := htoQueue
  idle hi := absurd hi hidle

/-- The property is set to an allowed value, and what the runnables will set still is. -/
theorem Inv.set {w : World} (h : Inv w) {value : State} (hallowed : Allowed w.state value)
    (hleads : Leads value (ahead w))
    (hsettled : Settled (after value (ahead w)) → Settled (after w.state (ahead w)))
    (hidle : w.worker = .idle → (value = .ready ∨ value = .scheduled ∨ value = .cancelled)
      ∧ (w.future = .new → value ≠ .cancelled)) :
    Inv { w with state := value, values := w.values ++ [value] } where
  values := ⟨w.values, rfl⟩
  orderly := h.orderly_set hallowed
  leads := hleads
  settled hs := h.settled (hsettled hs)
  ended := h.ended
  cancelling := h.cancelling
  toQueue := h.toQueue
  idle hi := ⟨(hidle hi).1, (h.idle hi).2.1, fun hnew => ⟨((h.idle hi).2.2 hnew).1, (hidle hi).2 hnew⟩⟩

theorem ahead_runLater (states : List State) (w : World) :
    ahead (runLater states w) = ahead w ++ states := by
  simp [ahead, runLater]

/-- A runnable is queued. -/
theorem Inv.runLater {w : World} (h : Inv w) {states : List State}
    (hleads : Leads (after w.state (ahead w)) states)
    (hsettled : Settled (after (after w.state (ahead w)) states) →
      (w.worker = .queued ∨ w.worker = .ended) ∧ w.cancelling = false)
    (hidle : w.worker = .idle → (∀ value ∈ states, value = .cancelled) ∧ w.future ≠ .new) :
    Inv (runLater states w) where
  values := h.values
  orderly := h.orderly
  leads := by
    rw [ahead_runLater]
    exact h.leads.append hleads
  settled := by
    rw [ahead_runLater]
    intro hs
    apply hsettled
    rwa [← after_append]
  ended := h.ended
  cancelling := h.cancelling
  toQueue := h.toQueue
  idle := by
    intro hi
    rw [ahead_runLater]
    refine ⟨(h.idle hi).1, ?_, fun hnew => absurd hnew (hidle hi).2⟩
    intro value hvalue
    rcases List.mem_append.mp hvalue with hvalue | hvalue
    · exact (h.idle hi).2.1 value hvalue
    · exact (hidle hi).1 value hvalue

theorem after_of_cancelled {s : State} {states : List State}
    (h : ∀ value ∈ states, value = .cancelled) : after s states = s ∨ after s states = .cancelled := by
  cases states with
  | nil => exact Or.inl rfl
  | cons value states =>
    right
    rw [h value List.mem_cons_self]
    by_cases hs : s = .cancelled
    · rw [hs]
      exact after_cancelled _
    · have hafter : after s (.cancelled :: states) = after .cancelled states := by
        simp [after, hs]
      rw [hafter]
      exact after_cancelled _

theorem leads_of_cancelled {s : State} {states : List State} (hs : ¬ Settled s)
    (h : ∀ value ∈ states, value = .cancelled) : Leads s states := by
  cases states with
  | nil => trivial
  | cons value states =>
    rw [h value List.mem_cons_self]
    have hfirst := @leads_final s .cancelled hs trivial
    rw [Leads] at hfirst ⊢
    split
    · rename_i hc
      rw [if_pos hc] at hfirst
      exact ⟨hfirst.1, leads_cancelled _⟩
    · rename_i hc
      rw [not_not.mp hc]
      exact leads_cancelled _

theorem schedule_inv {w : World} (h : Inv w) : Inv (next w .schedule) := by
  unfold next
  dsimp only
  split
  · rename_i hi
    obtain ⟨hstate, hahead, hnew⟩ := h.idle hi
    unfold setState
    split
    · rename_i hc
      have hnot : ¬ Settled .scheduled := by decide
      refine h.set ?_ (leads_of_cancelled hnot hahead) ?_
        (fun _ => ⟨Or.inr (Or.inl rfl), fun _ h => by cases h⟩)
      · rcases hstate with hs | hs | hs
        · rw [hs]
          decide
        · rw [hs]
          decide
        · exact absurd hs hc
      · intro hs
        rcases after_of_cancelled (s := .scheduled) hahead with ha | ha
        · rw [ha] at hs
          exact absurd hs hnot
        · rw [ha] at hs
          exact absurd hs (by decide)
    · exact h
  · exact h

theorem run_inv {w : World} (h : Inv w) : Inv (next w .run) := by
  unfold next
  dsimp only
  split
  · rename_i hi
    obtain ⟨hstate, hahead, hnew⟩ := h.idle hi
    have hnotQueued : ¬ (w.worker = .queued ∨ w.worker = .ended) := by
      rw [hi]
      rintro (h | h)
      · cases h
      · cases h
    split
    · rename_i hfuture
      obtain ⟨hnil, hc⟩ := hnew hfuture
      have hmoved := @Inv.move _ h .calling (by decide) (fun hq => absurd hq hnotQueued)
        (fun h => by cases h) (fun _ h => by cases h)
      have hback : ahead { w with worker := .calling } = [] := hnil
      apply hmoved.runLater
      · rw [hback]
        rcases hstate with hs | hs | hs
        · rw [hs]
          simp [after, Leads, Allowed, State.isFinal]
        · rw [hs]
          simp [after, Leads, Allowed, State.isFinal]
        · exact absurd hs hc
      · rw [hback]
        intro hs
        have hrunning : after (after w.state []) [.scheduled, .running] = .running := by
          simp [after, hc]
        rw [hrunning] at hs
        exact absurd hs (by decide)
      · intro hi'
        cases hi'
    · rename_i hfuture
      exact h.move (by decide) (fun hq => absurd hq hnotQueued) (fun _ => hfuture)
        (fun _ h => by cases h)
  · exact h

theorem queueFinal_inv {w : World} (h : Inv w) (hclear : Clear w .queueFinal) :
    Inv (next w .queueFinal) := by
  unfold next
  dsimp only
  split
  · rename_i final hworker
    have hfinal := h.toQueue final hworker
    have hnot : ¬ (w.worker = .queued ∨ w.worker = .ended) := by
      rw [hworker]
      rintro (h | h)
      · cases h
      · cases h
    have hmoved := @Inv.move _ h .queued (by decide) (fun hq => absurd hq hnot)
      (fun h => by cases h) (fun _ h => by cases h)
    refine hmoved.runLater ?_ (fun _ => ⟨Or.inl rfl, hclear⟩) (fun hi => by cases hi)
    exact leads_final (fun hs => hnot (h.settled hs).1) hfinal.isFinal
  · exact h

theorem complete_inv {w : World} (h : Inv w) : Inv (next w .complete) := by
  unfold next
  dsimp only
  split
  · rename_i hworker
    refine ⟨h.values, h.orderly, h.leads, fun hs => ⟨Or.inr rfl, (h.settled hs).2⟩, ?_, ?_,
      fun _ hfinal => (by cases hfinal), fun hi => (by cases hi)⟩
    · intro _
      dsimp only
      split
      · decide
      · assumption
    · intro hc
      dsimp only
      split
      · decide
      · assumption
  · exact h

theorem begin_inv {w : World} (h : Inv w) : Inv (next w .begin) := by
  unfold next
  dsimp only
  split
  · rename_i states queue hrunning hqueue
    have hahead : ahead { w with running := states, queue := queue } = ahead w := by
      simp [ahead, hrunning, hqueue]
    refine ⟨h.values, h.orderly, ?_, ?_, h.ended, h.cancelling, h.toQueue, ?_⟩
    · rw [hahead]
      exact h.leads
    · rw [hahead]
      exact h.settled
    · rw [hahead]
      exact h.idle
  · exact h

theorem perform_inv {w : World} (h : Inv w) : Inv (next w .perform) := by
  unfold next
  dsimp only
  split
  · rename_i value rest hrunning
    have hahead : ahead w = value :: ahead { w with running := rest } := by
      simp [ahead, hrunning]
    have hleads := h.leads
    rw [hahead, Leads] at hleads
    -- the state is set, or the task is cancelled and it is not
    have hafter : ∀ s, after s (ahead w) = after (if s ≠ .cancelled then value else s)
        (ahead { w with running := rest }) := by
      intro s
      rw [hahead]
      rfl
    have hidle : w.worker = .idle → value = .cancelled ∧ w.future ≠ .new := by
      intro hi
      obtain ⟨-, hall, hnew⟩ := h.idle hi
      refine ⟨hall value (by rw [hahead]; exact List.mem_cons_self), ?_⟩
      intro hfuture
      rw [(hnew hfuture).1] at hahead
      cases hahead
    have hidle' : ∀ s : State, (s = .ready ∨ s = .scheduled ∨ s = .cancelled) → w.worker = .idle →
        (s = .ready ∨ s = .scheduled ∨ s = .cancelled)
          ∧ (∀ v ∈ ahead { w with running := rest }, v = .cancelled)
          ∧ (w.future = .new → ahead { w with running := rest } = [] ∧ s ≠ .cancelled) := by
      intro s hs hi
      refine ⟨hs, ?_, fun hfuture => absurd hfuture (hidle hi).2⟩
      intro v hv
      exact (h.idle hi).2.1 v (by rw [hahead]; exact List.mem_cons_of_mem _ hv)
    unfold setState
    dsimp only
    split
    · rename_i hc
      rw [if_pos hc] at hleads
      have hthen := hafter w.state
      rw [if_pos hc] at hthen
      refine ⟨⟨w.values, rfl⟩, ?_, hleads.2, ?_, h.ended, h.cancelling, h.toQueue, ?_⟩
      · exact h.orderly_set hleads.1
      · intro hs
        apply h.settled
        rw [hthen]
        exact hs
      · intro hi
        exact hidle' value (Or.inr (Or.inr (hidle hi).1)) hi
    · rename_i hc
      rw [if_neg hc] at hleads
      have hthen := hafter w.state
      rw [if_neg hc] at hthen
      refine ⟨h.values, h.orderly, hleads, ?_, h.ended, h.cancelling, h.toQueue, ?_⟩
      · intro hs
        apply h.settled
        rw [hthen]
        exact hs
      · intro hi
        exact hidle' w.state (h.idle hi).1 hi
  · exact h

theorem cancelOnFx_inv {w : World} (h : Inv w) (hclear : Clear w .cancelOnFx) :
    Inv (next w .cancelOnFx) := by
  unfold next
  dsimp only
  split
  · rename_i hfuture
    -- the final state is not there yet
    have hnot : ¬ Settled w.state := by
      intro hs
      have hafter := h.leads.after_final hs.isFinal
      rcases (h.settled (by rw [hafter]; exact hs)).1 with hq | he
      · have := hclear hq hfuture
        rcases hs with hs | hs
        · exact this.1 hs
        · exact this.2 hs
      · exact h.ended he hfuture
    unfold setState
    dsimp only
    split
    · rename_i hc
      have hallowed := @leads_final _ .cancelled hnot trivial
      rw [Leads, if_pos hc] at hallowed
      have hafter := after_cancelled (ahead w)
      refine ⟨⟨w.values, rfl⟩, ?_, leads_cancelled _, ?_, ?_, ?_, h.toQueue, ?_⟩
      · exact h.orderly_set hallowed.1
      · intro hs
        have hsame : after State.cancelled (ahead w) = .cancelled := hafter
        change Settled (after .cancelled (ahead w)) at hs
        rw [hsame] at hs
        exact absurd hs (by decide)
      · intro _ hnew
        cases hnew
      · intro _ hnew
        cases hnew
      · intro hi
        exact ⟨Or.inr (Or.inr rfl), (h.idle hi).2.1, fun hnew => by cases hnew⟩
    · refine ⟨h.values, h.orderly, h.leads, h.settled, ?_, ?_, h.toQueue, ?_⟩
      · intro _ hnew
        cases hnew
      · intro _ hnew
        cases hnew
      · intro hi
        exact ⟨(h.idle hi).1, (h.idle hi).2.1, fun hnew => by cases hnew⟩
  · exact h

theorem cancelOther_inv {w : World} (h : Inv w) (hclear : Clear w .cancelOther) :
    Inv (next w .cancelOther) := by
  unfold next
  dsimp only
  split
  · rename_i hfuture
    refine ⟨h.values, h.orderly, h.leads, ?_, ?_, ?_, h.toQueue, ?_⟩
    · intro hs
      rcases (h.settled hs).1 with hq | he
      · exact absurd hfuture (hclear hq)
      · exact absurd hfuture (h.ended he)
    · intro _ hnew
      cases hnew
    · intro _ hnew
      cases hnew
    · intro hi
      exact ⟨(h.idle hi).1, (h.idle hi).2.1, fun hnew => by cases hnew⟩
  · exact h

theorem queueCancelled_inv {w : World} (h : Inv w) : Inv (next w .queueCancelled) := by
  unfold next
  dsimp only
  split
  · rename_i hcancelling
    have hnot : ¬ Settled (after w.state (ahead w)) := by
      intro hs
      rw [(h.settled hs).2] at hcancelling
      cases hcancelling
    have hcleared : Inv { w with cancelling := false } :=
      ⟨h.values, h.orderly, h.leads, fun hs => absurd hs hnot, h.ended,
        fun hc => absurd hc Bool.false_ne_true, h.toQueue, h.idle⟩
    refine hcleared.runLater (leads_final hnot trivial) ?_ ?_
    · intro hs
      have hafter : after (after w.state (ahead w)) [.cancelled] = .cancelled := by
        by_cases hc : after w.state (ahead w) = .cancelled
        · rw [hc]
          rfl
        · simp [after] at hc ⊢
      change Settled (after (after w.state (ahead w)) [.cancelled]) at hs
      rw [hafter] at hs
      exact absurd hs (by decide)
    · intro _
      exact ⟨fun value hvalue => List.mem_singleton.mp hvalue, h.cancelling hcancelling⟩
  · exact h

theorem next_inv {w : World} (h : Inv w) (a : Action) (hclear : Clear w a) : Inv (next w a) := by
  cases a with
  | schedule => exact schedule_inv h
  | run => exact run_inv h
  | callReturns =>
    unfold next
    dsimp only
    split
    · rename_i hw
      exact h.move (by decide) (fun hq => by rw [hw] at hq; rcases hq with hq | hq <;> cases hq)
        (fun h => by cases h) (fun _ h => by cases h)
    · exact h
  | callThrows =>
    unfold next
    dsimp only
    split
    · rename_i hw
      exact h.move (by simp) (fun hq => by rw [hw] at hq; rcases hq with hq | hq <;> cases hq)
        (fun h => by cases h) (fun _ h => by cases h; exact Or.inr rfl)
    · exact h
  | isCancelled =>
    unfold next
    dsimp only
    split
    · rename_i hw
      split
      · exact h.move (by simp) (fun hq => by rw [hw] at hq; rcases hq with hq | hq <;> cases hq)
          (fun h => by cases h) (fun _ h => by cases h; exact Or.inl rfl)
      · exact h.move (by decide) (fun _ => Or.inl rfl) (fun h => by cases h)
          (fun _ h => by cases h)
    · exact h
  | queueFinal => exact queueFinal_inv h hclear
  | complete => exact complete_inv h
  | begin => exact begin_inv h
  | perform => exact perform_inv h
  | cancelOnFx => exact cancelOnFx_inv h hclear
  | cancelOther => exact cancelOther_inv h hclear
  | queueCancelled => exact queueCancelled_inv h

/-! ## The result -/

/-- **A task ends once**, in every run in which no step falls between the final state
and the completion. -/
theorem taskState_run_orderly (as : List Action) (h : Along step Clear start as) :
    ∃ w, Lib.run step start as = .ok w ∧ Orderly w := by
  obtain ⟨w, hrun, hinv⟩ := run_invariant Inv
    (fun w a hw hclear => ⟨next w a, rfl, next_inv hw a hclear⟩) inv_start h
  exact ⟨w, hrun, hinv.orderly⟩

/-- A task that is cancelled by another thread while `call` is running. -/
theorem taskState_run_orderly_cancelled :
    ∃ w, Lib.run step start
        [.run, .begin, .perform, .perform, .perform, .cancelOther, .queueCancelled, .callThrows,
          .queueFinal, .complete, .begin, .perform, .begin, .perform] = .ok w ∧ Orderly w :=
  taskState_run_orderly _ (by decide)

/-- The FX thread has set `SUCCEEDED`, the `FutureTask` has no result yet, and `cancel`
succeeds. -/
theorem taskState_run_disorderly :
    ∃ w, Lib.run step start
        [.run, .callReturns, .isCancelled, .queueFinal, .begin, .perform, .perform, .begin,
          .perform, .cancelOnFx] = .ok w
      ∧ w.values = [.ready, .scheduled, .running, .succeeded, .cancelled] ∧ ¬ Orderly w :=
  ⟨_, rfl, rfl, by unfold Orderly; decide⟩

end TaskState

end JavaFx.Concurrent
