/-
`com.sun.javafx.fxml.expression.ExpressionValue` over a variable expression.

The objects of the namespace are observable lists, observable maps and beans with
observable properties; what is none of them is data without properties. The monitors of the
key path form a chain, and the listener of a monitor is known by its depth in the chain. A
listener that throws does so to the handler of uncaught exceptions, so the next one is
called. `Integer.parseInt`, `equals` and `BeanAdapter.coerce` are arguments.
-/
import JavaFx.Lib.Run
import Mathlib.Data.Int.Notation
import Mathlib.Data.Nat.Notation
import Mathlib.Logic.Function.Basic

set_option autoImplicit false

namespace JavaFx.Fxml

/-! ## The object graph -/

/-- A value other than `null`. -/
inductive Value (D : Type)
  | ref (id : ℕ)
  | data (d : D)
  deriving DecidableEq, Repr

inductive Obj (K D : Type)
  | list (items : List (Option (Value D)))
  /-- What a key is mapped to, if it is contained. -/
  | map (entries : K → Option (Option (Value D)))
  /-- What a property holds, if there is one of the name. -/
  | bean (properties : K → Option (Option (Value D)))

abbrev Heap (K D : Type) := ℕ → Obj K D

inductive GetError
  | numberFormat
  | indexOutOfBounds
  | cannotCoerce
  deriving DecidableEq, Repr

/-- The library that the code runs on. -/
structure Platform (K D : Type) where
  parseInt : K → Option ℤ
  equals : Heap K D → Option (Value D) → Option (Value D) → Bool
  /-- `BeanAdapter.coerce` to the type of the expression value. -/
  coerce : Option (Value D) → Except GetError (Option (Value D))

variable {K D : Type} (java : Platform K D)

/-- `list.get(i)`. -/
def getItem (items : List (Option (Value D))) (i : ℤ) : Except GetError (Option (Value D)) :=
  if 0 ≤ i then
    match items[i.toNat]? with
    | some v => .ok v
    | none => .error .indexOutOfBounds
  else .error .indexOutOfBounds

/-- `Expression.get(Object, String)`. -/
def Expression.get (heap : Heap K D) (namespace_ : Option (Value D)) (key : K) :
    Except GetError (Option (Value D)) :=
  match namespace_ with
  | some (.ref id) =>
    match heap id with
    | .list items =>
      match java.parseInt key with
      | some i => getItem items i
      | none => .error .numberFormat
    | .map entries => .ok (entries key).join
    | .bean properties => .ok (properties key).join
  | _ => .ok none

/-- `Expression.get(Object, KeyPath)`. -/
def Expression.getPath (heap : Heap K D) : Option (Value D) → List K → Except GetError (Option (Value D))
  | v, [] => .ok v
  | v, k :: ks =>
    match Expression.get java heap v k with
    | .ok v' => Expression.getPath heap v' ks
    | .error e => .error e

/-! ## The monitors -/

structure KeyPathMonitor (K D : Type) where
  key : K
  namespace_ : Option (Value D)

/-- The listeners of each object, by the depths of their monitors, in the order in which
they were added. Those of a bean are on the property that has the key of the monitor. -/
abbrev Listeners := ℕ → List ℕ

/-- The object that has the listener of a monitor, or a property that has it. -/
def target (heap : Heap K D) (namespace_ : Option (Value D)) (key : K) : Option ℕ :=
  match namespace_ with
  | some (.ref id) =>
    match heap id with
    | .bean properties => if (properties key).isSome then some id else none
    | _ => some id
  | _ => none

def attach (depth : ℕ) (target : Option ℕ) (listeners : Listeners) : Listeners :=
  match target with
  | some id => Function.update listeners id (listeners id ++ [depth])
  | none => listeners

def detach (depth : ℕ) (target : Option ℕ) (listeners : Listeners) : Listeners :=
  match target with
  | some id => Function.update listeners id ((listeners id).erase depth)
  | none => listeners

/-- The monitors of a part of the chain and all listeners, and whether the method ended
without an exception. -/
abbrev Monitored (K D : Type) :=
  List (KeyPathMonitor K D) × Listeners × Except GetError Unit

/-- `monitor` of the monitor at the depth, with those after it. -/
def monitor (heap : Heap K D) (v : Value D) :
    ℕ → List (KeyPathMonitor K D) → Listeners → Monitored K D
  | _, [], listeners => ([], listeners, .ok ())
  | depth, [m], listeners =>
    ([{ m with namespace_ := some v }], attach depth (target heap (some v) m.key) listeners, .ok ())
  | depth, m :: next :: ms, listeners =>
    let listeners := attach depth (target heap (some v) m.key) listeners
    let m := { m with namespace_ := some v }
    match Expression.get java heap (some v) m.key with
    | .error e => (m :: next :: ms, listeners, .error e)
    | .ok none => (m :: next :: ms, listeners, .ok ())
    | .ok (some v) =>
      let rest := monitor heap v (depth + 1) (next :: ms) listeners
      (m :: rest.1, rest.2)

/-- `unmonitor`. -/
def unmonitor (heap : Heap K D) :
    ℕ → List (KeyPathMonitor K D) → Listeners → List (KeyPathMonitor K D) × Listeners
  | _, [], listeners => ([], listeners)
  | depth, m :: ms, listeners =>
    let rest := unmonitor heap (depth + 1) ms
      (detach depth (target heap m.namespace_ m.key) listeners)
    ({ m with namespace_ := none } :: rest.1, rest.2)

/-- `remonitor` of a monitor: what it does to those after it, of which the first has the
depth. -/
def remonitor (heap : Heap K D) (m : KeyPathMonitor K D) (depth : ℕ)
    (ms : List (KeyPathMonitor K D)) (listeners : Listeners) : Monitored K D :=
  match ms with
  | [] => ([], listeners, .ok ())
  | ms =>
    let rest := unmonitor heap depth ms listeners
    match Expression.get java heap m.namespace_ m.key with
    | .error e => (rest.1, rest.2, .error e)
    | .ok none => (rest.1, rest.2, .ok ())
    | .ok (some v) => monitor java heap v depth rest.1 rest.2

/-- `remonitor` of the monitor `i` places after the depth. -/
def remonitorAt (heap : Heap K D) :
    ℕ → ℕ → List (KeyPathMonitor K D) → Listeners → Monitored K D
  | _, _, [], listeners => ([], listeners, .ok ())
  | depth, 0, m :: ms, listeners =>
    let rest := remonitor java heap m (depth + 1) ms listeners
    (m :: rest.1, rest.2)
  | depth, i + 1, m :: ms, listeners =>
    let rest := remonitorAt heap (depth + 1) i ms listeners
    (m :: rest.1, rest.2)

/-! ## Changes -/

variable [DecidableEq K]

/-- What the listeners of an object are told. -/
inductive Event (K : Type)
  | listChange (from_ to_ : ℕ)
  | mapChange (key : K)
  | propertyChange (key : K)

/-- Whether the listener of a monitor takes the event for a change of its value. One that
cannot read its key as an index throws. A property tells only the listeners on it. -/
def Event.isFor : Event K → K → Bool
  | .listChange from_ to_, key =>
    match java.parseInt key with
    | some i => from_ ≤ i && i < to_
    | none => false
  | .mapChange k, key | .propertyChange k, key => key = k

inductive Change (K D : Type)
  /-- Elements of a list are replaced by others. -/
  | replace (id from_ removed : ℕ) (added : List (Option (Value D)))
  | put (id : ℕ) (key : K) (value : Option (Value D))
  | remove (id : ℕ) (key : K)
  | setProperty (id : ℕ) (key : K) (value : Option (Value D))

namespace Change

/-- The object that is changed. -/
def object : Change K D → ℕ
  | .replace id _ _ _ | .put id _ _ | .remove id _ | .setProperty id _ _ => id

/-- The object after the change, and the event, if there is one. A change that is not of
its kind does nothing. -/
def outcome (heap : Heap K D) (c : Change K D) : Obj K D × Option (Event K) :=
  match c, heap c.object with
  | .replace _ from_ removed added, .list items =>
    if from_ + removed ≤ items.length ∧ (removed ≠ 0 ∨ added ≠ []) then
      (.list (items.take from_ ++ added ++ items.drop (from_ + removed)),
        some (.listChange from_ (from_ + added.length)))
    else (.list items, none)
  | .put _ key value, .map entries =>
    (.map (Function.update entries key (some value)),
      match entries key with
      | some old => if java.equals heap old value then none else some (.mapChange key)
      | none => some (.mapChange key))
  | .remove _ key, .map entries =>
    (.map (Function.update entries key none),
      match entries key with
      | some _ => some (.mapChange key)
      | none => none)
  | .setProperty _ key value, .bean properties =>
    match properties key with
    | some old =>
      (.bean (Function.update properties key (some value)),
        if java.equals heap old value then none else some (.propertyChange key))
    | none => (.bean properties, none)
  | _, obj => (obj, none)

/-- The heap after the change. -/
def apply (heap : Heap K D) (c : Change K D) : Heap K D :=
  Function.update heap c.object (c.outcome java heap).1

/-- The change has an event, and it is for the key. -/
def tells (heap : Heap K D) (c : Change K D) (key : K) : Bool :=
  (c.outcome java heap).2.any fun e => e.isFor java key

end Change

/-! ## The expression value -/

/-- An expression value with the objects it reads. The log holds the values that a change
listener was given. -/
structure ExpressionValue (K D : Type) where
  heap : Heap K D
  namespace_ : Value D
  monitors : List (KeyPathMonitor K D)
  listeners : Listeners
  fired : List (Option (Value D))

namespace ExpressionValue

/-- `new ExpressionValue(namespace, new VariableExpression(keyPath), type)`. -/
def new (heap : Heap K D) (namespace_ : Value D) (keyPath : List K) : ExpressionValue K D :=
  ⟨heap, namespace_, keyPath.map (fun k => ⟨k, none⟩), fun _ => [], []⟩

/-- The key path. -/
def keyPath (w : ExpressionValue K D) : List K := w.monitors.map KeyPathMonitor.key

/-- The value at the key path. -/
def value (w : ExpressionValue K D) : Except GetError (Option (Value D)) :=
  Expression.getPath java w.heap (some w.namespace_) w.keyPath

/-- `getValue`. -/
def getValue (w : ExpressionValue K D) : Except GetError (Option (Value D)) :=
  match w.value java with
  | .ok v => java.coerce v
  | .error e => .error e

/-- `addListener` of the first change listener. -/
def addListener (w : ExpressionValue K D) : ExpressionValue K D :=
  let monitored := monitor java w.heap w.namespace_ 0 w.monitors w.listeners
  { w with monitors := monitored.1, listeners := monitored.2.1 }

/-- `onChanged` or `changed` of the listener of the monitor at the depth. The listener on
the expression value asks for its value. -/
def onChanged (event : Event K) (w : ExpressionValue K D) (depth : ℕ) : ExpressionValue K D :=
  match w.monitors[depth]? with
  | none => w
  | some m =>
    if event.isFor java m.key then
      match w.getValue java with
      | .error _ => w
      | .ok v =>
        let monitored := remonitorAt java w.heap 0 depth w.monitors w.listeners
        { w with
          monitors := monitored.1
          listeners := monitored.2.1
          fired := w.fired ++ [v] }
    else w

/-- A change of an object, and the calls of its listeners. -/
def change (w : ExpressionValue K D) (c : Change K D) : ExpressionValue K D :=
  let w' := { w with heap := c.apply java w.heap }
  match (c.outcome java w.heap).2 with
  | none => w'
  | some event => (w.listeners c.object).foldl (onChanged java event) w'

def step (w : ExpressionValue K D) (c : Change K D) : Except GetError (ExpressionValue K D) :=
  .ok (w.change java c)

end ExpressionValue

end JavaFx.Fxml
