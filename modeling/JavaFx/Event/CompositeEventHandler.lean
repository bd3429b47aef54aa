/-
`com.sun.javafx.event.CompositeEventHandler`: the handlers and filters of an event type.

The records stand in a doubly linked list, and a dispatch goes along it while the handlers
it calls put records in and take records out. `remove` leaves the links of the record it
takes out as they are, so that a dispatch that stands at it can go on.

Records are numbered as they are made. When a weak handler is found to be gone is not up to
the program: every walk along the list is told by `collected` for which records it is so.
-/
import JavaFx.Lib.DoublyLinked

set_option autoImplicit false

namespace JavaFx.Event

open JavaFx.Lib

/-- A handler; whether it is a `WeakEventHandler` decides which record is made for it. -/
inductive EventHandler
  | normal (id : ℕ)
  | weak (id : ℕ)
  deriving Repr, DecidableEq

/-- `instanceof WeakEventHandler`. -/
def EventHandler.isWeak : EventHandler → Bool
  | .normal _ => false
  | .weak _ => true

/-- The four classes of records. -/
structure EventProcessorRecord where
  nextRecord : Option ℕ
  prevRecord : Option ℕ
  eventProcessor : EventHandler
  isFilter : Bool
  deriving Repr, DecidableEq

/-- The fields, the records made so far, and a history that no method reads. -/
structure CompositeEventHandler where
  firstRecord : Option ℕ
  lastRecord : Option ℕ
  eventHandler : Option EventHandler
  records : ℕ → EventProcessorRecord
  count : ℕ
  /-- The records `remove` was called for. -/
  removed : List ℕ

namespace CompositeEventHandler

/-! ## The methods -/

/-- The constructor. -/
def new : CompositeEventHandler where
  firstRecord := none
  lastRecord := none
  eventHandler := none
  records := fun _ => ⟨none, none, .normal 0, false⟩
  count := 0
  removed := []

/-- `setEventHandler`. -/
def setEventHandler (s : CompositeEventHandler) (eventHandler : Option EventHandler) :
    CompositeEventHandler :=
  { s with eventHandler }

/-- `record.nextRecord`, or `firstRecord`. -/
def nextOf (s : CompositeEventHandler) : Option ℕ → Option ℕ
  | some r => (s.records r).nextRecord
  | none => s.firstRecord

/-- `record.nextRecord = nextRecord`, or `firstRecord = nextRecord`. -/
def setNext (s : CompositeEventHandler) (record nextRecord : Option ℕ) : CompositeEventHandler :=
  match record with
  | some r => { s with records := Function.update s.records r { s.records r with nextRecord } }
  | none => { s with firstRecord := nextRecord }

/-- `record.prevRecord = prevRecord`, or `lastRecord = prevRecord`. -/
def setPrev (s : CompositeEventHandler) (record prevRecord : Option ℕ) : CompositeEventHandler :=
  match record with
  | some r => { s with records := Function.update s.records r { s.records r with prevRecord } }
  | none => { s with lastRecord := prevRecord }

/-- `remove`. -/
def remove (s : CompositeEventHandler) (record : ℕ) : CompositeEventHandler :=
  let prevRecord := (s.records record).prevRecord
  let nextRecord := (s.records record).nextRecord
  let s := (s.setNext prevRecord nextRecord).setPrev nextRecord prevRecord
  { s with removed := record :: s.removed }

/-- `append`, of a record made for the handler. -/
def append (s : CompositeEventHandler) (prevRecord : Option ℕ) (eventProcessor : EventHandler)
    (isFilter : Bool) : CompositeEventHandler :=
  let newRecord := s.count
  let nextRecord := s.nextOf prevRecord
  let s := (s.setNext prevRecord newRecord).setPrev nextRecord newRecord
  { s with
    records :=
      Function.update s.records newRecord ⟨nextRecord, prevRecord, eventProcessor, isFilter⟩
    count := newRecord + 1 }

/-- `isDisconnected`. -/
def isDisconnected (s : CompositeEventHandler) (collected : ℕ → Bool) (record : ℕ) : Bool :=
  (s.records record).eventProcessor.isWeak && collected record

/-- `stores`. -/
def stores (s : CompositeEventHandler) (record : ℕ) (eventProcessor : EventHandler)
    (isFilter : Bool) : Bool :=
  isFilter == (s.records record).isFilter && (s.records record).eventProcessor == eventProcessor

/-- The loop of `find`. -/
def find.loop (collected : ℕ → Bool) (eventProcessor : EventHandler) (isFilter : Bool) :
    (fuel : ℕ) → Option ℕ → CompositeEventHandler → CompositeEventHandler × Option ℕ
  | _, none, s => (s, none)
  | 0, some _, s => (s, none)
  | fuel + 1, some r, s =>
    if s.isDisconnected collected r then
      let s := s.remove r
      loop collected eventProcessor isFilter fuel (s.records r).nextRecord s
    else if s.stores r eventProcessor isFilter then (s, some r)
    else loop collected eventProcessor isFilter fuel (s.records r).nextRecord s

/-- `find`; the list has no more records than were made. -/
def find (s : CompositeEventHandler) (collected : ℕ → Bool) (eventProcessor : EventHandler)
    (isFilter : Bool) : CompositeEventHandler × Option ℕ :=
  find.loop collected eventProcessor isFilter s.count s.firstRecord s

/-- What `addEventHandler` and `addEventFilter` do. -/
def add (s : CompositeEventHandler) (collected : ℕ → Bool) (eventProcessor : EventHandler)
    (isFilter : Bool) : CompositeEventHandler :=
  match s.find collected eventProcessor isFilter with
  | (s, none) => s.append s.lastRecord eventProcessor isFilter
  | (s, some _) => s

/-- What `removeEventHandler` and `removeEventFilter` do. -/
def drop (s : CompositeEventHandler) (collected : ℕ → Bool) (eventProcessor : EventHandler)
    (isFilter : Bool) : CompositeEventHandler :=
  match s.find collected eventProcessor isFilter with
  | (s, some record) => s.remove record
  | (s, none) => s

/-- `addEventHandler`. -/
def addEventHandler (s : CompositeEventHandler) (collected : ℕ → Bool)
    (eventHandler : EventHandler) : CompositeEventHandler :=
  s.add collected eventHandler false

/-- `removeEventHandler`. -/
def removeEventHandler (s : CompositeEventHandler) (collected : ℕ → Bool)
    (eventHandler : EventHandler) : CompositeEventHandler :=
  s.drop collected eventHandler false

/-- `addEventFilter`. -/
def addEventFilter (s : CompositeEventHandler) (collected : ℕ → Bool)
    (eventFilter : EventHandler) : CompositeEventHandler :=
  s.add collected eventFilter true

/-- `removeEventFilter`. -/
def removeEventFilter (s : CompositeEventHandler) (collected : ℕ → Bool)
    (eventFilter : EventHandler) : CompositeEventHandler :=
  s.drop collected eventFilter true

/-! ## What a program does with it -/

/-- A call of a method that edits the list, or sets the handler that is called last. -/
inductive Action
  | addEventHandler (collected : ℕ → Bool) (eventHandler : EventHandler)
  | removeEventHandler (collected : ℕ → Bool) (eventHandler : EventHandler)
  | addEventFilter (collected : ℕ → Bool) (eventFilter : EventHandler)
  | removeEventFilter (collected : ℕ → Bool) (eventFilter : EventHandler)
  | setEventHandler (eventHandler : Option EventHandler)

def perform (s : CompositeEventHandler) : Action → CompositeEventHandler
  | .addEventHandler collected eventHandler => s.addEventHandler collected eventHandler
  | .removeEventHandler collected eventHandler => s.removeEventHandler collected eventHandler
  | .addEventFilter collected eventFilter => s.addEventFilter collected eventFilter
  | .removeEventFilter collected eventFilter => s.removeEventFilter collected eventFilter
  | .setEventHandler eventHandler => s.setEventHandler eventHandler

def performAll (s : CompositeEventHandler) (actions : List Action) : CompositeEventHandler :=
  actions.foldl perform s

end CompositeEventHandler

open CompositeEventHandler

/-- One round of a dispatch: which weak handlers are gone when it begins, and what the
handler does if one is called. -/
structure Turn where
  collected : ℕ → Bool
  actions : List Action

/-- A dispatch under way: the variable `record`, and the records whose handlers were called. -/
structure Dispatch where
  handler : CompositeEventHandler
  record : Option ℕ
  calls : List ℕ

namespace Dispatch

/-- Before the loop. -/
def start (s : CompositeEventHandler) : Dispatch := ⟨s, s.firstRecord, []⟩

/-- The body of the loop. `handleBubblingEvent` does nothing for a filter, and
`handleCapturingEvent` nothing for a handler. -/
def turn (isFilter : Bool) (d : Dispatch) (t : Turn) : Dispatch :=
  match d.record with
  | none => d
  | some r =>
    if d.handler.isDisconnected t.collected r then
      let s := d.handler.remove r
      ⟨s, (s.records r).nextRecord, d.calls⟩
    else if (d.handler.records r).isFilter = isFilter then
      let s := d.handler.performAll t.actions
      ⟨s, (s.records r).nextRecord, d.calls ++ [r]⟩
    else ⟨d.handler, (d.handler.records r).nextRecord, d.calls⟩

/-- The loop, as far as the turns go. -/
def run (isFilter : Bool) (d : Dispatch) (turns : List Turn) : Dispatch :=
  turns.foldl (turn isFilter) d

end Dispatch

namespace CompositeEventHandler

/-- `dispatchCapturingEvent`. With too few turns to come to the end of the list it is one
that was left when a handler threw. -/
def dispatchCapturingEvent (s : CompositeEventHandler) (turns : List Turn) : Dispatch :=
  (Dispatch.start s).run true turns

/-- The loop of `dispatchBubblingEvent`. -/
def dispatchToHandlers (s : CompositeEventHandler) (turns : List Turn) : Dispatch :=
  (Dispatch.start s).run false turns

/-- `dispatchBubblingEvent`; `actions` is what `eventHandler` does. -/
def dispatchBubblingEvent (s : CompositeEventHandler) (turns : List Turn)
    (actions : List Action) : CompositeEventHandler :=
  let d := s.dispatchToHandlers turns
  if d.record = none ∧ d.handler.eventHandler ≠ none then d.handler.performAll actions
  else d.handler

/-- A call from outside. -/
inductive Call
  | perform (action : Action)
  | dispatchBubblingEvent (turns : List Turn) (actions : List Action)
  | dispatchCapturingEvent (turns : List Turn)

def call (s : CompositeEventHandler) : Call → CompositeEventHandler
  | .perform action => s.perform action
  | .dispatchBubblingEvent turns actions => s.dispatchBubblingEvent turns actions
  | .dispatchCapturingEvent turns => (s.dispatchCapturingEvent turns).handler

def callAll (s : CompositeEventHandler) (calls : List Call) : CompositeEventHandler :=
  calls.foldl call s

/-! ## The records that are registered -/

/-- The records that were made and not removed, in the order of their registration. -/
def registered (s : CompositeEventHandler) : List ℕ :=
  (List.range s.count).filter (· ∉ s.removed)

/-- The links of the records. -/
def links (s : CompositeEventHandler) : Links ℕ where
  after := fun record => record.elim s.firstRecord (fun r => (s.records r).nextRecord)
  before := fun record => record.elim s.lastRecord (fun r => (s.records r).prevRecord)

/-- The list holds exactly the registered records, forward and backward. -/
def Linked (s : CompositeEventHandler) : Prop := s.links.Holds s.registered

end CompositeEventHandler

end JavaFx.Event
