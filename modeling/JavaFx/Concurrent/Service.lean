/-
`javafx.concurrent.Service`: start, cancel, restart and reset.

A `Service` has at most one task, in the field `task`, and its properties are bound to
those of the task. Every assignment to a property calls listeners and event handlers, and
`createTask` is a subclass's: calls of the service come in the middle of others. So the
FX thread has a stack of what it is in the middle of, and a call can come at any point,
which is more than there are listeners for. An exception ends the call that throws it; a
handler, or what calls it, catches it.

The first start may be on another thread. It queues a runnable that reads the field
`task` when it is run.

Of a worker thread all that matters is that it may queue any assignments to its task's
properties, from when the task has been handed to the executor.
-/
import JavaFx.Concurrent.TaskState
import JavaFx.Lib.Double
import JavaFx.Lib.Run
import Mathlib.Logic.Function.Basic

set_option autoImplicit false

namespace JavaFx.Concurrent.Service

open JavaFx.Lib TaskState

/-! ## Properties -/

/-- The properties that a service has from its task. -/
inductive Property
  | state
  | value
  | exception
  | workDone
  | totalWorkToBeDone
  | progress
  | running
  | message
  | title
  deriving DecidableEq

variable (V Throwable : Type)

/-- The values of a property. -/
def Property.Value : Property → Type
  | .state => State
  | .value => Option V
  | .exception => Option Throwable
  | .workDone | .totalWorkToBeDone | .progress => Double
  | .running => Bool
  | .message | .title => String

/-- The value of a property in a new task, and what `reset` sets it to. -/
def Property.initial : (p : Property) → p.Value V Throwable
  | .state => State.ready
  | .value => (none : Option V)
  | .exception => (none : Option Throwable)
  -- the bits of -1
  | .workDone | .totalWorkToBeDone | .progress => longBitsToDouble 0xbff0000000000000
  | .running => false
  | .message | .title => ""

/-- The properties after the state, in the order of `start` and `reset`. -/
def afterState : List Property :=
  [.value, .exception, .workDone, .totalWorkToBeDone, .progress, .running, .message, .title]

/-- A value for a property. -/
structure Assignment where
  property : Property
  value : property.Value V Throwable

variable {V Throwable}

/-! ## Tasks -/

variable (V Throwable) in
/-- A task, with how often the service has set it to `SCHEDULED` and how often it has
executed it. -/
structure Task where
  future : Future
  values : (p : Property) → p.Value V Throwable
  scheduled : ℕ
  executed : ℕ

/-- A new one. -/
def Task.new : Task V Throwable := ⟨.new, Property.initial V Throwable, 0, 0⟩

/-- `Task.getState`. -/
def Task.state (t : Task V Throwable) : State := t.values .state

/-- `Task.setState`. -/
def Task.setState (value : State) (t : Task V Throwable) : Task V Throwable :=
  if t.state ≠ .cancelled then
    let running : Bool := value = .scheduled ∨ value = .running
    { t with
      values := Function.update (Function.update t.values .state value) .running running }
  else t

/-- An assignment that a worker thread has queued. -/
def Task.assign (a : Assignment V Throwable) (t : Task V Throwable) : Task V Throwable :=
  match a with
  | ⟨.state, value⟩ => t.setState value
  | ⟨p, value⟩ => { t with values := Function.update t.values p value }

/-- `Task.cancel`. -/
def Task.cancel (t : Task V Throwable) : Task V Throwable :=
  if t.future = .new then Task.setState .cancelled { t with future := .cancelled } else t

/-- `setState(SCHEDULED)` by the service. -/
def Task.schedule (t : Task V Throwable) : Task V Throwable :=
  { t.setState .scheduled with scheduled := t.scheduled + 1 }

/-- The task is handed to the executor. -/
def Task.execute (t : Task V Throwable) : Task V Throwable := { t with executed := t.executed + 1 }

/-! ## The service -/

variable (V Throwable) in
/-- Where a property has its value from: it is the service's own or that of a task. -/
inductive Source (p : Property)
  | own (value : p.Value V Throwable)
  | bound (task : ℕ)

variable (V Throwable) in
/-- What the FX thread is in the middle of. `start` creates the task, binds the properties,
schedules and executes; `restart` has cancelled the task, then resets, then starts. -/
inductive Frame
  | create
  | bind (properties : List Property)
  | schedule (queued : Bool)
  | execute
  | cancelled
  | resetting
  | unset (properties : List Property) (restart : Bool)
  | assign (task : ℕ) (assignments : List (Assignment V Throwable))

variable (V Throwable) in
/-- A queued runnable, of `start` or of a worker thread. -/
inductive Runnable
  | start
  | assign (task : ℕ) (assignments : List (Assignment V Throwable))

variable (V Throwable) in
/-- The tasks, in the order of their creation; the fields of the service; the FX thread
and its queue; and whether a queued runnable has thrown. -/
structure World where
  tasks : List (Task V Throwable)
  task : Option ℕ
  properties : (p : Property) → Source V Throwable p
  startedOnce : Bool
  stack : List (Frame V Throwable)
  queue : List (Runnable V Throwable)
  threw : Bool

/-- A new service. -/
def start : World V Throwable :=
  ⟨[], none, fun p => .own (p.initial V Throwable), false, [], [], false⟩

section World

variable (w : World V Throwable)

/-- `get` of a property. -/
def World.get (p : Property) : p.Value V Throwable :=
  match w.properties p with
  | .own value => value
  | .bound t => ((w.tasks[t]?).map (fun task => task.values p)).getD (p.initial V Throwable)

/-- `getState`. -/
def World.state : State := w.get .state

/-- The call is on the FX thread, in the middle of the others. -/
def World.push (frame : Frame V Throwable) : World V Throwable :=
  { w with stack := frame :: w.stack }

/-- Something happens to a task. -/
def World.update (t : ℕ) (f : Task V Throwable → Task V Throwable) : World V Throwable :=
  { w with tasks := w.tasks.modify t f }

/-- `task = createTask()`. -/
def World.createTask : World V Throwable :=
  { w with tasks := w.tasks ++ [Task.new], task := some w.tasks.length }

/-- `bind` of a property. -/
def World.bind (p : Property) (t : ℕ) : World V Throwable :=
  { w with properties := Function.update w.properties p (.bound t) }

/-- `unbind` and `set` of a property. -/
def World.set (p : Property) (value : p.Value V Throwable) : World V Throwable :=
  { w with properties := Function.update w.properties p (.own value) }

/-- `reset` does not throw. -/
def World.Resettable : Prop := w.state ≠ .scheduled ∧ w.state ≠ .running

instance : Decidable w.Resettable := inferInstanceAs (Decidable (_ ∧ _))

/-- `reset`, up to the first handlers. -/
def World.reset (restart : Bool) : World V Throwable :=
  if w.Resettable then
    World.push (World.set { w with task := none } .state State.ready) (.unset afterState restart)
  else w

/-- `start`, up to `createTask`. -/
def World.start : World V Throwable := if w.state = .ready then w.push .create else w

/-- `cancel`. Setting a bound property throws. -/
def World.cancel : World V Throwable :=
  match w.task with
  | some t => w.update t Task.cancel
  | none =>
    if w.state = .cancelled ∨ w.state = .succeeded then w
    else match w.properties .state with
      | .own _ => w.set .state State.cancelled
      | .bound _ => w

/-- `restart`, up to the first handlers. -/
def World.restart : World V Throwable :=
  match w.task with
  | some t => (w.update t Task.cancel).push .cancelled
  | none => w.push .resetting

/-- The FX thread goes on with a frame, which has been taken from the stack. -/
def World.go : Frame V Throwable → World V Throwable
  | .create => w.createTask.push (.bind (.state :: afterState))
  | .bind [] => { w with startedOnce := true }.push (.schedule false)
  | .bind (p :: properties) =>
    match w.task with
    | some t => (w.bind p t).push (.bind properties)
    | none => w
  | .schedule queued =>
    match w.task with
    | some t => (w.update t Task.schedule).push .execute
    -- a `NullPointerException`
    | none => { w with threw := w.threw || queued }
  | .execute =>
    match w.task with
    | some t => w.update t Task.execute
    | none => w
  | .cancelled => (World.set { w with task := none } .state State.cancelled).push .resetting
  | .resetting => w.reset true
  | .unset [] restart => if restart then w.start else w
  | .unset (p :: properties) restart =>
    (w.set p (p.initial V Throwable)).push (.unset properties restart)
  | .assign _ [] => w
  | .assign t (a :: assignments) => (w.update t (Task.assign a)).push (.assign t assignments)

end World

variable (V Throwable) in
/-- What happens next: a call on the FX thread, on its own or in the middle of another;
the first start on another thread; the FX thread goes on, or takes a runnable from the
queue; a worker thread queues assignments, or `FutureTask` completes. -/
inductive Action
  | start
  | reset
  | restart
  | cancel
  | startOffThread
  | go
  | dequeue
  | assign (task : ℕ) (assignments : List (Assignment V Throwable))
  | complete (task : ℕ)

/-- A step, if it can be taken. -/
def next (w : World V Throwable) : Action V Throwable → World V Throwable
  | .start => w.start
  | .reset => w.reset false
  | .restart => w.restart
  | .cancel => w.cancel
  | .startOffThread =>
    if w.startedOnce = false ∧ w.stack.isEmpty ∧ w.state = .ready then
      { w.createTask with
        properties := fun _ => .bound w.tasks.length
        startedOnce := true
        queue := w.queue ++ [.start] }
    else w
  | .go =>
    match w.stack with
    | frame :: stack => World.go { w with stack := stack } frame
    | [] => w
  | .dequeue =>
    match w.stack, w.queue with
    | [], .start :: queue => World.push { w with queue := queue } (.schedule true)
    | [], .assign t assignments :: queue => World.push { w with queue := queue } (.assign t assignments)
    | _, _ => w
  | .assign t assignments =>
    if (w.tasks[t]?).any (fun task => 0 < task.executed) then
      { w with queue := w.queue ++ [.assign t assignments] }
    else w
  | .complete t =>
    w.update t (fun task =>
      if 0 < task.executed ∧ task.future = .new then { task with future := .completed } else task)

/-- A step. None fails. -/
def step (w : World V Throwable) (a : Action V Throwable) : Except Exn (World V Throwable) :=
  .ok (next w a)

/-! ## What is right -/

/-- A start that has created its task and not executed it. -/
def Frame.isStart : Frame V Throwable → Bool
  | .bind _ | .schedule _ | .execute => true
  | _ => false

/-- A reset that has properties left. -/
def Frame.isReset : Frame V Throwable → Bool
  | .unset (_ :: _) _ => true
  | _ => false

/-- The runnable of a start. -/
def Runnable.isStart : Runnable V Throwable → Bool
  | .start => true
  | .assign _ _ => false

/-- A start that is binding the properties. -/
def Frame.isBind : Frame V Throwable → Bool
  | .bind _ => true
  | _ => false

/-- No queued runnable has thrown; tasks have been scheduled and executed by the service
once at most; and the properties are bound to the service's task, the last one created,
unless it is just being started. -/
structure Right (w : World V Throwable) : Prop where
  quiet : w.threw = false
  once : ∀ t ∈ w.tasks, t.scheduled ≤ 1 ∧ t.executed ≤ 1
  reflects : ∀ t, w.task = some t → w.stack.all (fun f => !f.isBind) →
    t + 1 = w.tasks.length ∧ ∀ p, w.properties p = .bound t

/-- No start is unfinished: none of those on the stack has created its task, and none is
queued. -/
def NoStart (stack : List (Frame V Throwable)) (queue : List (Runnable V Throwable)) : Prop :=
  (∀ f ∈ stack, f.isStart = false) ∧ ∀ r ∈ queue, r.isStart = false

instance (stack : List (Frame V Throwable)) (queue : List (Runnable V Throwable)) :
    Decidable (NoStart stack queue) := inferInstanceAs (Decidable (_ ∧ _))

/-- The step does not take the task from an unfinished start, and does not create one
while a reset has properties left. -/
def Undisturbed (w : World V Throwable) : Action V Throwable → Prop
  | .reset => w.Resettable → NoStart w.stack w.queue
  | .go =>
    match w.stack with
    | .create :: stack => NoStart stack w.queue ∧ ∀ f ∈ stack, f.isReset = false
    | .cancelled :: stack => NoStart stack w.queue
    | .resetting :: stack => w.Resettable → NoStart stack w.queue
    | _ => True
  | _ => True

instance (w : World V Throwable) (a : Action V Throwable) : Decidable (Undisturbed w a) := by
  unfold Undisturbed
  split
  · infer_instance
  · split <;> infer_instance
  · infer_instance

end JavaFx.Concurrent.Service
