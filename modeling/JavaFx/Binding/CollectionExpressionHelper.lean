/-
`MapExpressionHelper` and `SetExpressionHelper` of `com.sun.javafx.binding`.

A helper keeps the invalidation, the change and the map (or set) change listeners
of one observable. It is `null` while there are none, a `Single*` object while
there is one, and a `Generic` object with three listener arrays after that. The
two classes have one text but for the listeners and the elements of a change, and
for the places where a removal takes one from the size: `removeListener` of a
`Generic` helper counts `size` down and then, to clear the last entry, once more
(`array[--size] = null`). `MapExpressionHelper` does so in all three of its
methods, `SetExpressionHelper` in the one for invalidation listeners. The model
has this as a parameter, and so the two classes are two instances of it.

No notification runs while listeners are added or removed here, so `locked` is
`false` whenever a method is called; it is kept because the methods read it.
-/
import JavaFx.Binding.ListenerArray

set_option autoImplicit false
set_option linter.unusedSectionVars false

namespace JavaFx.Binding.CollectionExpressionHelper

open JavaFx.Lib Listeners

/-! ## The classes -/

/-- The three kinds of listeners; `content` is the map or set change listener. -/
inductive Kind
  | invalidation
  | change
  | content
  deriving DecidableEq, Repr

/-- The other two kinds, in the order a removal asks for them. -/
def Kind.others : Kind → Kind × Kind
  | .invalidation => (.change, .content)
  | .change => (.invalidation, .content)
  | .content => (.invalidation, .change)

/-- A listener array (`none` for `null`) with its size. -/
structure Slot (L : Type) where
  array : Option (Listeners L)
  size : ℕ

def Slot.empty (L : Type) : Slot L := ⟨none, 0⟩

/-- `Generic`: the three arrays with their sizes, and the other two fields. `R` are
the maps or sets the observable may have as its value, up to identity. -/
structure Generic (L R : Type) where
  slots : Kind → Slot L
  locked : Bool
  currentValue : Option R

/-- A helper. `SingleInvalidation` has no `currentValue`, and none is read there. -/
inductive Helper (L R : Type)
  | null
  | single (kind : Kind) (listener : L) (currentValue : Option R)
  | generic (g : Generic L R)

/-- A call of a listener: `invalidated`, `changed(oldValue, newValue)`, or
`onChanged` with a change of type `D`. -/
inductive Call (L R D : Type)
  | invalidated (listener : L)
  | changed (listener : L) (oldValue newValue : Option R)
  | onChanged (listener : L) (change : D)
  deriving DecidableEq

def Call.listener {L R D : Type} : Call L R D → L
  | .invalidated l => l
  | .changed l _ _ => l
  | .onChanged l _ => l

section Methods

variable {L R D : Type} [BEq L] [DecidableEq R]

/-! ## `addListener` -/

/-- The constructors of `Generic`, which all take two listeners. -/
def Generic.new (kind0 : Kind) (listener0 : L) (kind1 : Kind) (listener1 : L)
    (value : Option R) : Generic L R where
  slots :=
    if kind0 = kind1 then
      Function.update (fun _ => Slot.empty L) kind0 ⟨some [some listener0, some listener1], 2⟩
    else
      Function.update (Function.update (fun _ => Slot.empty L) kind0 ⟨some [some listener0], 1⟩)
        kind1 ⟨some [some listener1], 1⟩
  locked := false
  currentValue := if kind0 = .invalidation ∧ kind1 = .invalidation then none else value

/-- The array and the size `addListener` leaves. -/
def Slot.addListener (wasGarbageCollected : L → Bool) (locked : Bool) (s : Slot L)
    (listener : L) : Slot L :=
  match s.array with
  | none => ⟨some [some listener], 1⟩
  | some a =>
    let added := addTo wasGarbageCollected locked a s.size listener
    ⟨some added.array, added.size⟩

/-- `Generic.addListener`. -/
def Generic.addListener (wasGarbageCollected : L → Bool) (value : Option R) (kind : Kind)
    (listener : L) (g : Generic L R) : Generic L R :=
  let slot := (g.slots kind).addListener wasGarbageCollected g.locked listener
  { g with
    slots := Function.update g.slots kind slot
    -- the method for invalidation listeners does not have this test
    currentValue := if kind ≠ .invalidation ∧ slot.size = 1 then value else g.currentValue }

/-- A `Single*` object; the ones for change listeners read the value. -/
def Helper.newSingle (value : Option R) (kind : Kind) (listener : L) : Helper L R :=
  .single kind listener (if kind = .invalidation then none else value)

/-- `addListener(helper, observable, listener)`. -/
def Helper.addListener (wasGarbageCollected : L → Bool) (value : Option R) (kind : Kind)
    (listener : L) : Helper L R → Helper L R
  | .null => .newSingle value kind listener
  | .single kind0 listener0 _ => .generic (.new kind0 listener0 kind listener value)
  | .generic g => .generic (g.addListener wasGarbageCollected value kind listener)

/-! ## `removeListener` -/

/-- `array[0]`, for a new `Single*` object. A `null` entry would be called, and
throw, at the next notification. -/
def Slot.first (s : Slot L) : Except Exn L :=
  match s.array.bind (fun a => a[0]?) with
  | some (some l) => .ok l
  | _ => .error .nullPointer

/-- The array and the size after the shifting branch of a removal.
`decrementsTwice` says that the method clears `array[--size]` after it has counted
`size` down. -/
def Slot.shiftOut (decrementsTwice locked : Bool) (a : Listeners L) (size index : ℕ) : Slot L :=
  if decrementsTwice ∧ !locked then
    ⟨some ((shiftInto a a index size).set (size - 2) none), size - 2⟩
  else ⟨some (removeFrom (index + 1) locked a size index), size - 1⟩

/-- `Generic.removeListener`, from where the listener was found. -/
def Generic.removeAt (decrementsTwice : Kind → Bool) (value : Option R) (kind : Kind)
    (a : Listeners L) (index : ℕ) (g : Generic L R) : Except Exn (Helper L R) :=
  let size := (g.slots kind).size
  let other := kind.others.1
  let another := kind.others.2
  if size = 1 then
    if (g.slots other).size = 1 ∧ (g.slots another).size = 0 then do
      .ok (.newSingle value other (← (g.slots other).first))
    else if (g.slots other).size = 0 ∧ (g.slots another).size = 1 then do
      .ok (.newSingle value another (← (g.slots another).first))
    else .ok (.generic { g with slots := Function.update g.slots kind (Slot.empty L) })
  else
    .ok (.generic { g with
      slots := Function.update g.slots kind
        (Slot.shiftOut (decrementsTwice kind) g.locked a size index) })

/-- Where `removeListener` finds its argument in a slot: the array and the index. -/
def Slot.find (listener : L) (s : Slot L) : Option (Listeners L × ℕ) :=
  s.array.bind (fun a => (Listeners.find listener a s.size).map (fun index => (a, index)))

/-- `removeListener(helper, listener)`. -/
def Helper.removeListener (decrementsTwice : Kind → Bool) (value : Option R) (kind : Kind)
    (listener : L) : Helper L R → Except Exn (Helper L R)
  | .null => .ok .null
  | .single kind0 listener0 v =>
    if kind0 = kind ∧ listener == listener0 then .ok .null else .ok (.single kind0 listener0 v)
  | .generic g =>
    match (g.slots kind).find listener with
    | some (a, index) => g.removeAt decrementsTwice value kind a index
    | none => .ok (.generic g)

/-! ## `fireValueChangedEvent` -/

/-- The listeners a loop over the first `size` entries calls. -/
def Slot.called (s : Slot L) : Except Exn (List L) :=
  match s.array with
  | none => if s.size = 0 then .ok [] else .error .nullPointer
  | some a =>
    if s.size ≤ a.length then
      (a.take s.size).mapM (fun entry => entry.elim (.error .nullPointer) .ok)
    else .error .indexOutOfBounds

/-- The calls of the change listeners and, for each element, of the content
listeners. -/
def changeCalls (changeListeners contentListeners : List L) (oldValue newValue : Option R)
    (elements : List D) : List (Call L R D) :=
  changeListeners.map (fun l => .changed l oldValue newValue)
    ++ elements.flatMap (fun d => contentListeners.map (fun l => .onChanged l d))

/-- What the content listeners are told. Without a change it is one change for each
element the old and the new value differ in; to find them can throw. -/
def Generic.changes (elements : Option R → Option R → Except Exn (List D)) (g : Generic L R)
    (oldValue : Option R) (change : Option D) : Except Exn (List D) :=
  match change with
  | some d => .ok [d]
  | none => if (g.slots .content).size = 0 then .ok [] else elements oldValue g.currentValue

/-- `Generic.notifyListeners`. When it throws, the calls made so far are not
recorded. -/
def Generic.notifyListeners (elements : Option R → Option R → Except Exn (List D))
    (g : Generic L R) (oldValue : Option R) (change : Option D) :
    Except Exn (List (Call L R D)) := do
  let curInvalidationList ← (g.slots .invalidation).called
  let curChangeList ← (g.slots .change).called
  let curContentList ← (g.slots .content).called
  let invalidations := curInvalidationList.map Call.invalidated
  if g.currentValue ≠ oldValue ∨ change.isSome then
    let ds ← g.changes elements oldValue change
    .ok (invalidations ++ changeCalls curChangeList curContentList oldValue g.currentValue ds)
  else .ok invalidations

/-- `fireValueChangedEvent(helper)`: the helper after it, and the calls. -/
def Helper.fireValueChangedEvent (elements : Option R → Option R → Except Exn (List D))
    (value : Option R) : Helper L R → Except Exn (Helper L R × List (Call L R D))
  | .null => .ok (.null, [])
  | .single .invalidation l v => .ok (.single .invalidation l v, [.invalidated l])
  | .single .change l v =>
    .ok (.single .change l value, if value ≠ v then [.changed l v value] else [])
  | .single .content l v =>
    if value ≠ v then do
      .ok (.single .content l value, (← elements v value).map (fun d => .onChanged l d))
    else .ok (.single .content l value, [])
  | .generic g =>
    if (g.slots .change).size = 0 ∧ (g.slots .content).size = 0 then do
      .ok (.generic g, ← g.notifyListeners elements g.currentValue none)
    else do
      let g' := { g with currentValue := value }
      .ok (.generic g', ← g'.notifyListeners elements g.currentValue none)

/-- `fireValueChangedEvent(helper, change)`. A `Generic` helper drops the change
when it has no content listener. -/
def Helper.fireChange (elements : Option R → Option R → Except Exn (List D)) (change : D) :
    Helper L R → Except Exn (List (Call L R D))
  | .null => .ok []
  | .single .invalidation l _ => .ok [.invalidated l]
  | .single .change l v => .ok [.changed l v v]
  | .single .content l _ => .ok [.onChanged l change]
  | .generic g =>
    let mappedChange := if (g.slots .content).size = 0 then none else some change
    g.notifyListeners elements g.currentValue mappedChange

end Methods

/-! ## The two classes -/

/-- What tells `MapExpressionHelper` and `SetExpressionHelper` apart. `elements` gets
the contents `C` of the values at the time of the notification. -/
structure Variant (R C D : Type) where
  decrementsTwice : Kind → Bool
  elements : (R → C) → Option R → Option R → Except Exn (List D)

/-- `MapExpressionHelper.SimpleChange`, without the map. -/
structure MapSimpleChange (K V : Type) where
  key : K
  old : Option V
  added : Option V
  removeOp : Bool
  addOp : Bool
  deriving DecidableEq

def MapSimpleChange.setRemoved {K V : Type} (key : K) (old : Option V) : MapSimpleChange K V :=
  ⟨key, old, none, true, false⟩

def MapSimpleChange.setAdded {K V : Type} (key : K) (added : Option V) : MapSimpleChange K V :=
  ⟨key, none, added, false, true⟩

def MapSimpleChange.setPut {K V : Type} (key : K) (old added : Option V) : MapSimpleChange K V :=
  ⟨key, old, added, true, true⟩

section Map

variable {R K V : Type} [DecidableEq K] [BEq V]

/-- `oldEntry == null ? newEntry != null : !newEntry.equals(oldEntry)`. -/
def entryDiffers (oldEntry newEntry : Option V) : Except Exn Bool :=
  match oldEntry, newEntry with
  | none, newEntry => .ok newEntry.isSome
  | some _, none => .error .nullPointer
  | some old, some new => .ok !(new == old)

/-- The first loop over two maps: the entries of the old one. -/
def removedOrPut (currentValue : List (K × Option V)) :
    List (K × Option V) → Except Exn (List (MapSimpleChange K V))
  | [] => .ok []
  | (key, oldEntry) :: rest => do
      let here ←
        match currentValue.lookup key with
        | some newEntry => do
            if ← entryDiffers oldEntry newEntry then
              .ok [MapSimpleChange.setPut key oldEntry newEntry]
            else .ok []
        | none => .ok [.setRemoved key oldEntry]
      .ok (here ++ (← removedOrPut currentValue rest))

/-- The changes for the entries two values differ in. The values are different
references; both are not `null`. -/
def mapElements (entries : R → List (K × Option V)) (oldValue currentValue : Option R) :
    Except Exn (List (MapSimpleChange K V)) :=
  match currentValue, oldValue with
  | none, none => .ok []
  | none, some old => .ok ((entries old).map (fun e => .setRemoved e.1 e.2))
  | some new, none => .ok ((entries new).map (fun e => .setAdded e.1 e.2))
  | some new, some old => do
      let fromOld ← removedOrPut (entries new) (entries old)
      let added := (entries new).filter (fun e => ((entries old).lookup e.1).isNone)
      .ok (fromOld ++ added.map (fun e => .setAdded e.1 e.2))

/-- `MapExpressionHelper`: `array[--size] = null` in all three methods. -/
def mapExpressionHelper : Variant R (List (K × Option V)) (MapSimpleChange K V) where
  decrementsTwice := fun _ => true
  elements := mapElements

end Map

/-- `SetExpressionHelper.SimpleChange`, without the set. -/
structure SetSimpleChange (E : Type) where
  old : Option E
  added : Option E
  addOp : Bool
  deriving DecidableEq

def SetSimpleChange.setRemoved {E : Type} (old : Option E) : SetSimpleChange E :=
  ⟨old, none, false⟩

def SetSimpleChange.setAdded {E : Type} (added : Option E) : SetSimpleChange E :=
  ⟨none, added, true⟩

section Set

variable {R E : Type} [DecidableEq E]

/-- The changes for the elements two values differ in. -/
def setElements (contents : R → List (Option E)) (oldValue currentValue : Option R) :
    Except Exn (List (SetSimpleChange E)) :=
  match currentValue, oldValue with
  | none, none => .ok []
  | none, some old => .ok ((contents old).map .setRemoved)
  | some new, none => .ok ((contents new).map .setAdded)
  | some new, some old =>
    let removed := (contents old).filter (fun e => e ∉ contents new)
    let added := (contents new).filter (fun e => e ∉ contents old)
    .ok (removed.map .setRemoved ++ added.map .setAdded)

/-- `SetExpressionHelper`: the two methods for change and set change listeners have
`array[size] = null`, the one for invalidation listeners `array[--size] = null`. -/
def setExpressionHelper : Variant R (List (Option E)) (SetSimpleChange E) where
  decrementsTwice := fun kind => kind = .invalidation
  elements := setElements

end Set

end JavaFx.Binding.CollectionExpressionHelper
