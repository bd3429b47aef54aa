/-
`ExpressionHelper` of `com.sun.javafx.binding`, with notifications that are still
running.

A notification calls one listener after the other, and every listener may add and
remove listeners and fire again before it returns. So a step of the machine is one
thing a listener (or the program, when none is running) does, `ret` included, and
the state has the stack of the notifications that are running. What they share is
the heap: a notification of a `Generic` helper holds on to the two arrays it found,
and the helper edits them in place unless it is `locked`.

The arrays of one kind are one heap, since Java's two array types have no array in
common. `registered`, and the `Record` of a notification, are there to say what the
code should do; the code does not have them.
-/
import JavaFx.Binding.ListenerArray

set_option autoImplicit false
set_option linter.unusedSectionVars false

namespace JavaFx.Binding.ExpressionHelper

open JavaFx.Lib Listeners

/-! ## The state -/

inductive Kind
  | invalidation
  | change
  deriving DecidableEq, Repr

def Kind.other : Kind → Kind
  | .invalidation => .change
  | .change => .invalidation

/-- A reference to a listener array (`none` for `null`), with the size. -/
structure Slot where
  array : Option ℕ
  size : ℕ

def Slot.empty : Slot := ⟨none, 0⟩

/-- A `Generic` object. -/
structure Generic (V : Type) where
  slots : Kind → Slot
  locked : Bool
  currentValue : Option V

/-- A helper; a `Generic` object is given by its number. `SingleInvalidation` has no
`currentValue`, and none is read there. -/
inductive Helper (L V : Type)
  | null
  | single (kind : Kind) (listener : L) (currentValue : Option V)
  | generic (id : ℕ)

/-- What a notification should do and what it has done: the listeners registered
when it started, the calls it made (`none` is a call on a `null` entry), and whether
it found the value changed. -/
structure Record (L : Type) where
  registered : Kind → List L
  calls : Kind → List (Option L)
  changed : Bool

/-- Where a notification stands while one of its listeners is running: in one of the
two loops, which goes on at `next`, or in the only call of a `Single*` object. -/
inductive Phase
  | invalidations (next : ℕ)
  | changes (next : ℕ)
  | last

/-- A running notification. `slots` are the arrays and sizes the `Generic` object
`owner` had when it started; a `Single*` object captures none, and its owner is not
used. -/
structure Frame (L : Type) where
  owner : ℕ
  slots : Kind → Slot
  phase : Phase
  record : Record L

/-- An observable value with its helper. The first frame is the innermost. -/
structure State (L V : Type) where
  arrays : Kind → List (Listeners L)
  generics : List (Generic V)
  helper : Helper L V
  value : Option V
  collected : List L
  frames : List (Frame L)
  registered : Kind → List L
  finished : List (Record L)

/-- A loop over entries of an array, up to the next one that is a listener: the
calls, and how many entries they used up when a listener is running now. A call on
`null` throws, and the loop catches that and goes on. -/
def callFrom {L : Type} : Listeners L → List (Option L) × Option ℕ
  | [] => ([], none)
  | some l :: _ => ([some l], some 1)
  | none :: rest => (none :: (callFrom rest).1, (callFrom rest).2.map (· + 1))

def Record.log {L : Type} (r : Record L) (kind : Kind) (calls : List (Option L)) : Record L :=
  { r with calls := Function.update r.calls kind (r.calls kind ++ calls) }

/-- What a listener, or the program, can do. -/
inductive Action (L V : Type)
  | addListener (kind : Kind) (listener : L)
  | removeListener (kind : Kind) (listener : L)
  | setValue (value : Option V)
  | fireValueChangedEvent
  | ret
  | collect (listener : L)

namespace State

variable {L V : Type} [BEq L] [BEq V]

/-! ## The heap -/

/-- The contents of an array. -/
def read (s : State L V) (kind : Kind) (id : ℕ) : Listeners L := ((s.arrays kind)[id]?).getD []

/-- The heap of the arrays of one kind is replaced. -/
def setArrays (s : State L V) (kind : Kind) (arrays : List (Listeners L)) : State L V :=
  { s with arrays := Function.update s.arrays kind arrays }

/-- A `Generic` object. -/
def object (s : State L V) (id : ℕ) : Generic V :=
  (s.generics[id]?).getD ⟨fun _ => Slot.empty, false, none⟩

/-- An assignment to fields of a `Generic` object. -/
def modify (s : State L V) (id : ℕ) (f : Generic V → Generic V) : State L V :=
  { s with generics := s.generics.set id (f (s.object id)) }

/-- `wasGarbageCollected`. -/
def gone (s : State L V) : L → Bool := isGone s.collected

/-! ## `addListener` -/

/-- `new Single*(observable, listener)`. -/
def newSingle (s : State L V) (kind : Kind) (listener : L) : Helper L V :=
  .single kind listener (if kind = .invalidation then none else s.value)

/-- `new Generic(observable, listener0, listener1)`, which becomes the helper. -/
def newGeneric (s : State L V) (kind0 : Kind) (listener0 : L) (kind1 : Kind) (listener1 : L) :
    State L V :=
  let listeners : Kind → List L := fun kind =>
    (if kind = kind0 then [listener0] else []) ++ (if kind = kind1 then [listener1] else [])
  let slots : Kind → Slot := fun kind =>
    if listeners kind = [] then Slot.empty
    else ⟨some (s.arrays kind).length, (listeners kind).length⟩
  { s with
    arrays := fun kind =>
      if listeners kind = [] then s.arrays kind else s.arrays kind ++ [(listeners kind).map some]
    generics := s.generics
      ++ [⟨slots, false, if kind0 = .invalidation ∧ kind1 = .invalidation then none else s.value⟩]
    helper := .generic s.generics.length }

/-- The array part of `addListener`: the heap and the slot it leaves. -/
def grow (s : State L V) (locked : Bool) (kind : Kind) (slot : Slot) (listener : L) :
    List (Listeners L) × Slot :=
  match slot.array with
  | none => (s.arrays kind ++ [[some listener]], ⟨some (s.arrays kind).length, 1⟩)
  | some aid =>
    let added := addTo s.gone locked (s.read kind aid) slot.size listener
    if added.copied then
      (s.arrays kind ++ [added.array], ⟨some (s.arrays kind).length, added.size⟩)
    else ((s.arrays kind).set aid added.array, ⟨some aid, added.size⟩)

/-- `Generic.addListener`. -/
def addToGeneric (s : State L V) (id : ℕ) (kind : Kind) (listener : L) : State L V :=
  let g := s.object id
  let r := s.grow g.locked kind (g.slots kind) listener
  (s.setArrays kind r.1).modify id (fun g =>
    { g with
      slots := Function.update g.slots kind r.2
      -- only the method for change listeners does this
      currentValue := if kind = .change ∧ r.2.size = 1 then s.value else g.currentValue })

/-- `addListener(helper, observable, listener)`. -/
def addListener (s : State L V) (kind : Kind) (listener : L) : State L V :=
  match s.helper with
  | .null => { s with helper := s.newSingle kind listener }
  | .single kind0 listener0 _ => s.newGeneric kind0 listener0 kind listener
  | .generic id => s.addToGeneric id kind listener

/-! ## `removeListener` -/

/-- An entry that becomes the listener of a `Single*` object. A `null` entry would be
called, and throw, at the next notification. -/
def entry (a : Listeners L) (i : ℕ) : Except Exn L :=
  match a[i]? with
  | some (some l) => .ok l
  | _ => .error .nullPointer

/-- The shifting branch of `removeListener`: the heap and the slot it leaves. -/
def shrink (s : State L V) (locked : Bool) (kind : Kind) (aid size index : ℕ) :
    List (Listeners L) × Slot :=
  let a := removeFrom index locked (s.read kind aid) size index
  if locked then (s.arrays kind ++ [a], ⟨some (s.arrays kind).length, size - 1⟩)
  else ((s.arrays kind).set aid a, ⟨some aid, size - 1⟩)

/-- `Generic.removeListener`, from where the listener was found in the array. -/
def removeAt (s : State L V) (id : ℕ) (kind : Kind) (aid index : ℕ) :
    Except Exn (State L V) :=
  let g := s.object id
  let size := (g.slots kind).size
  let other := g.slots kind.other
  if size = 1 then
    if other.size = 1 then do
      match other.array with
      | some aid' =>
        .ok { s with helper := s.newSingle kind.other (← entry (s.read kind.other aid') 0) }
      | none => .error .nullPointer
    else
      .ok (s.modify id (fun g => { g with slots := Function.update g.slots kind Slot.empty }))
  else if size = 2 ∧ other.size = 0 then do
    .ok { s with helper := s.newSingle kind (← entry (s.read kind aid) (1 - index)) }
  else
    let r := s.shrink g.locked kind aid size index
    .ok ((s.setArrays kind r.1).modify id (fun g =>
      { g with slots := Function.update g.slots kind r.2 }))

/-- Where `Generic.removeListener` finds its argument: the array and the index. -/
def findIn (s : State L V) (id : ℕ) (kind : Kind) (listener : L) : Option (ℕ × ℕ) :=
  let slot := (s.object id).slots kind
  slot.array.bind (fun aid =>
    (Listeners.find listener (s.read kind aid) slot.size).map (fun index => (aid, index)))

/-- `removeListener(helper, listener)`. -/
def removeListener (s : State L V) (kind : Kind) (listener : L) : Except Exn (State L V) :=
  match s.helper with
  | .null => .ok s
  | .single kind0 listener0 _ =>
    .ok (if kind0 = kind ∧ listener == listener0 then { s with helper := .null } else s)
  | .generic id =>
    match s.findIn id kind listener with
    | some (aid, index) => s.removeAt id kind aid index
    | none => .ok s

/-! ## `fireValueChangedEvent` -/

/-- The entries of a captured array from `i` on. -/
def rest (s : State L V) (f : Frame L) (kind : Kind) (i : ℕ) : Listeners L :=
  match (f.slots kind).array with
  | none => []
  | some aid => ((s.read kind aid).take (f.slots kind).size).drop i

/-- The `finally` block of a notification. -/
def finish (s : State L V) (f : Frame L) : State L V :=
  { s.modify f.owner (fun g => { g with locked := false }) with
    finished := f.record :: s.finished }

/-- The loop over the change listeners. -/
def runChanges (s : State L V) (f : Frame L) (next : ℕ) : State L V :=
  let r := callFrom (s.rest f .change next)
  let f' := { f with record := f.record.log .change r.1 }
  match r.2 with
  | some n => { s with frames := { f' with phase := .changes (next + n) } :: s.frames }
  | none => s.finish f'

/-- `changed`, with the `null` test it has. -/
def isChanged (currentValue oldValue : Option V) : Bool :=
  match currentValue with
  | none => oldValue.isSome
  | some v => !(oldValue.any (fun v' => v == v'))

/-- What follows the loop over the invalidation listeners. -/
def endInvalidations (s : State L V) (f : Frame L) : State L V :=
  if (f.slots .change).size = 0 then s.finish f
  else
    let oldValue := (s.object f.owner).currentValue
    let s' := s.modify f.owner (fun g => { g with currentValue := s.value })
    if isChanged s.value oldValue then
      s'.runChanges { f with record := { f.record with changed := true } } 0
    else s'.finish f

/-- The loop over the invalidation listeners. -/
def runInvalidations (s : State L V) (f : Frame L) (next : ℕ) : State L V :=
  let r := callFrom (s.rest f .invalidation next)
  let f' := { f with record := f.record.log .invalidation r.1 }
  match r.2 with
  | some n => { s with frames := { f' with phase := .invalidations (next + n) } :: s.frames }
  | none => s.endInvalidations f'

/-- The record of a notification that starts now. -/
def newRecord (s : State L V) : Record L := ⟨s.registered, fun _ => [], false⟩

/-- The notification of a `Single*` object that calls its listener. It has captured
nothing, and there is nothing to do after the call. -/
def callSingle (s : State L V) (kind : Kind) (listener : L) (changed : Bool) : State L V :=
  let record := ({ s.newRecord with changed := changed } : Record L).log kind [some listener]
  { s with frames := ⟨s.generics.length, fun _ => Slot.empty, .last, record⟩ :: s.frames }

/-- `fireValueChangedEvent(helper)`, up to the first call. -/
def fireValueChangedEvent (s : State L V) : State L V :=
  match s.helper with
  | .null => { s with finished := s.newRecord :: s.finished }
  | .single .invalidation l _ => s.callSingle .invalidation l false
  | .single .change l v =>
    let s' := { s with helper := .single .change l s.value }
    if isChanged s.value v then s'.callSingle .change l true
    else { s' with finished := s.newRecord :: s.finished }
  | .generic id =>
    let f : Frame L := ⟨id, (s.object id).slots, .invalidations 0, s.newRecord⟩
    (s.modify id (fun g => { g with locked := true })).runInvalidations f 0

/-- The running listener returns, and its notification goes on; outside of all
notifications there is nothing to return from. -/
def ret (s : State L V) : State L V :=
  match s.frames with
  | [] => s
  | f :: frames =>
    let s' := { s with frames := frames }
    match f.phase with
    | .invalidations next => s'.runInvalidations f next
    | .changes next => s'.runChanges f next
    | .last => { s' with finished := f.record :: s.finished }

/-- One step. -/
def step (s : State L V) : Action L V → Except Exn (State L V)
  | .addListener kind l =>
    let s' := s.addListener kind l
    .ok { s' with registered := Function.update s.registered kind (s.registered kind ++ [l]) }
  | .removeListener kind l => do
      let s' ← s.removeListener kind l
      .ok { s' with
        registered :=
          Function.update s.registered kind ((s.registered kind).eraseP (fun l' => l == l')) }
  | .setValue value => .ok { s with value := value }
  | .fireValueChangedEvent => .ok s.fireValueChangedEvent
  | .ret => .ok s.ret
  | .collect l => .ok { s with collected := l :: s.collected }

/-- An observable without listeners. -/
def start (value : Option V) : State L V :=
  ⟨fun _ => [], [], .null, value, [], [], fun _ => [], []⟩

end State

end JavaFx.Binding.ExpressionHelper
