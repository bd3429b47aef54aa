/-
`com.sun.javafx.collections.ObservableMapWrapper`: a map that reports every
change of the map it wraps.

The backing map is modelled the way `HashMap` and `LinkedHashMap` work: each
mapping is an entry object, `live` are the entries that are in the map in the
order in which they are walked, and an entry that was taken out stays what it
was for whoever still holds it. Where a new entry lands in that order is not
specified and is the parameter `place`. Values can be `null`, which is `none`;
two values are compared with `equals` only, and `equals` is an equivalence
relation. Keys are compared with `equals` throughout, so equal keys are one key.

An operation gives back the wrapper afterwards together with what it returned or
threw. No operation changes the map before it throws.
-/
import JavaFx.Lib.Java

set_option autoImplicit false

namespace JavaFx.ObservableMap

open JavaFx.Lib

variable {K V : Type} [DecidableEq K] [BEq V]

/-! ## The backing map -/

/-- `Map.Entry` of the backing map. -/
structure Entry (K V : Type) where
  key : K
  value : Option V

/-- The backing map: all entries ever made, the ones in the map in the order of
iteration, and the counter of structural changes its iterators look at. -/
structure Backing (K V : Type) where
  entries : List (Entry K V)
  live : List ℕ
  modCount : ℕ

/-- Where a new entry goes in the order of iteration; growing can rearrange all. -/
structure Placing (K V : Type) where
  place : List (Entry K V) → List ℕ → ℕ → List ℕ
  perm : ∀ es live n, (place es live n).Perm (n :: live)

/-- New entries come last, as in `LinkedHashMap`. -/
def Placing.last (K V : Type) : Placing K V :=
  ⟨fun _ live n => live ++ [n], fun _ live n => (List.perm_append_singleton n live)⟩

namespace Backing

/-- The entry in the map that has the key. -/
def find (b : Backing K V) (key : K) : Option ℕ :=
  b.live.find? (fun n => (b.entries[n]?).any (fun e => e.key = key))

/-- `containsKey`. -/
def containsKey (b : Backing K V) (key : K) : Bool := (b.find key).isSome

/-- The mapping of a key: no mapping, or its value. -/
def contents (b : Backing K V) (key : K) : Option (Option V) :=
  (b.find key).bind (fun n => (b.entries[n]?).map Entry.value)

/-- `backingEntry.setValue`, with the old value. -/
def setValue (b : Backing K V) (n : ℕ) (value : Option V) : Backing K V × Option V :=
  match b.entries[n]? with
  | some e => ({ b with entries := b.entries.set n { e with value } }, e.value)
  | none => (b, none)

/-- `put`, with the old value. -/
def put (place : Placing K V) (b : Backing K V) (key : K) (value : Option V) :
    Backing K V × Option V :=
  match b.find key with
  | some n => b.setValue n value
  | none =>
    (⟨b.entries ++ [⟨key, value⟩], place.place b.entries b.live b.entries.length, b.modCount + 1⟩,
      none)

/-- An entry is taken out of the map. -/
def removeEntry (b : Backing K V) (n : ℕ) : Backing K V :=
  { b with live := b.live.filter (· ≠ n), modCount := b.modCount + 1 }

/-- `remove(key)`, with the old value. -/
def remove (b : Backing K V) (key : K) : Backing K V × Option V :=
  match b.find key with
  | some n => (b.removeEntry n, (b.entries[n]?).bind Entry.value)
  | none => (b, none)

end Backing

/-- `entrySet().iterator()` of the backing map. -/
structure EntryIterator where
  remaining : List ℕ
  lastReturned : Option ℕ
  expectedModCount : ℕ
  deriving DecidableEq

namespace EntryIterator

/-- A new iterator. -/
def new (b : Backing K V) : EntryIterator := ⟨b.live, none, b.modCount⟩

/-- `next()`. -/
def next (it : EntryIterator) (b : Backing K V) : Except Exn (ℕ × EntryIterator) :=
  if b.modCount ≠ it.expectedModCount then .error .concurrentModification
  else
    match it.remaining with
    | n :: rest => .ok (n, { it with remaining := rest, lastReturned := some n })
    | [] => .error .noSuchElement

/-- `remove()`. -/
def remove (it : EntryIterator) (b : Backing K V) : Except Exn (EntryIterator × Backing K V) :=
  match it.lastReturned with
  | none => .error .illegalState
  | some n =>
    if b.modCount ≠ it.expectedModCount then .error .concurrentModification
    else
      let b' := b.removeEntry n
      .ok ({ it with lastReturned := none, expectedModCount := b'.modCount }, b')

end EntryIterator

/-! ## The wrapper -/

/-- `SimpleChange`. -/
structure Change (K V : Type) where
  key : K
  old : Option V
  added : Option V
  wasAdded : Bool
  wasRemoved : Bool

/-- The three views of the map. -/
inductive View
  | keySet
  | values
  | entrySet
  deriving DecidableEq

/-- An iterator of one of the views. The three classes differ in what `next`
gives back only. -/
structure ViewIterator (K V : Type) where
  view : View
  entryIt : EntryIterator
  lastKey : Option K
  lastValue : Option V

/-- The wrapper, the iterators clients got from its views, and the changes it
has reported so far. -/
structure Wrapper (K V : Type) where
  backingMap : Backing K V
  iterators : List (ViewIterator K V)
  fired : List (Change K V)

/-- What an operation returns. -/
inductive Ret (K V : Type)
  | void
  | bool (b : Bool)
  | key (k : K)
  | value (v : Option V)
  | entry (n : ℕ)

/-- `x.equals(o)`. -/
def jequals (x : V) (o : Option V) : Bool :=
  match o with
  | some y => x == y
  | none => false

/-- `ret == null && value != null || ret != null && !ret.equals(value)`. -/
def differs (ret value : Option V) : Bool :=
  match ret with
  | none => value.isSome
  | some r => !jequals r value

theorem differs_eq (ret value : Option V) : differs ret value = !(ret == value) := by
  cases ret <;> cases value <;> rfl

/-- The operations of the map, its views, their iterators and entries. -/
inductive Op (K V : Type)
  | put (key : K) (value : Option V)
  | remove (key : K)
  | putAll (m : List (K × Option V))
  | clear
  /-- `keySet().remove(o)` -/
  | keySetRemove (key : K)
  /-- `values().remove(o)` -/
  | valuesRemove (o : Option V)
  /-- `entrySet().remove(o)` for an entry `o` -/
  | entrySetRemove (key : K) (value : Option V)
  /-- `removeAll(c)` (`remove = true`) or `retainAll(c)` of a view; `contains` is
  `c.contains` on what the view shows of an entry. -/
  | removeRetain (view : View) (contains : K → Option V → Bool) (remove : Bool)
  /-- `clear()` of a view -/
  | viewClear (view : View)
  /-- `add` and `addAll` of a view -/
  | viewAdd (view : View)
  | iterator (view : View)
  /-- `next()` of the `i`-th iterator -/
  | next (i : ℕ)
  /-- `remove()` of the `i`-th iterator -/
  | iteratorRemove (i : ℕ)
  /-- `setValue` on an entry some iterator or array of the entry set gave out -/
  | setValue (entry : ℕ) (value : Option V)

namespace Wrapper

/-- `callObservers`. -/
def callObservers (s : Wrapper K V) (change : Change K V) : Wrapper K V :=
  { s with fired := s.fired ++ [change] }

/-- `put`. -/
def put (place : Placing K V) (s : Wrapper K V) (key : K) (value : Option V) :
    Wrapper K V × Option V :=
  if s.backingMap.containsKey key then
    let (backingMap, ret) := s.backingMap.put place key value
    let s' := { s with backingMap }
    if differs ret value then (s'.callObservers ⟨key, ret, value, true, true⟩, ret) else (s', ret)
  else
    let (backingMap, ret) := s.backingMap.put place key value
    ({ s with backingMap }.callObservers ⟨key, ret, value, true, false⟩, ret)

/-- `remove(Object)`. -/
def remove (s : Wrapper K V) (key : K) : Wrapper K V × Option V :=
  if s.backingMap.containsKey key then
    let (backingMap, ret) := s.backingMap.remove key
    ({ s with backingMap }.callObservers ⟨key, ret, none, false, true⟩, ret)
  else (s, none)

/-- `putAll`. -/
def putAll (place : Placing K V) (s : Wrapper K V) (m : List (K × Option V)) : Wrapper K V :=
  m.foldl (fun s e => (s.put place e.1 e.2).1) s

/-- One round of a loop over the entries that takes out the current one and
reports it with the key and the value read before. -/
def removeCurrent (s : Wrapper K V) (n : ℕ) : Wrapper K V :=
  match s.backingMap.entries[n]? with
  | some e => { s with backingMap := s.backingMap.removeEntry n }.callObservers
      ⟨e.key, e.value, none, false, true⟩
  | none => s

/-- `clear`: a loop over the entries that removes each. -/
def clear (s : Wrapper K V) : Wrapper K V := s.backingMap.live.foldl removeCurrent s

/-- `removeRetain` of the three views: a loop over the entries that removes those
the test picks. -/
def removeRetain (contains : K → Option V → Bool) (remove : Bool) (s : Wrapper K V) :
    Wrapper K V × Bool :=
  s.backingMap.live.foldl (fun r n =>
    match r.1.backingMap.entries[n]? with
    | some e => if remove = contains e.key e.value then (r.1.removeCurrent n, true) else r
    | none => r) (s, false)

/-- `ObservableKeySet.remove`. -/
def keySetRemove (s : Wrapper K V) (key : K) : Wrapper K V × Bool :=
  let (s', ret) := s.remove key
  (s', ret.isSome)

/-- The loop of `ObservableValues.remove` from some entry on: a `null` value has
no `equals` to call. -/
def valuesRemove.loop (s : Wrapper K V) (o : Option V) :
    List ℕ → Except Exn (Wrapper K V × Bool)
  | [] => .ok (s, false)
  | n :: rest =>
    match s.backingMap.entries[n]? with
    | some e =>
      match e.value with
      | some v => if jequals v o then .ok (s.removeCurrent n, true) else loop s o rest
      | none => .error .nullPointer
    | none => loop s o rest

/-- `ObservableValues.remove`. -/
def valuesRemove (s : Wrapper K V) (o : Option V) : Except Exn (Wrapper K V × Bool) :=
  valuesRemove.loop s o s.backingMap.live

/-- `ObservableEntrySet.remove`: the backing map takes the mapping out if it has
the key with this value. -/
def entrySetRemove (s : Wrapper K V) (key : K) (value : Option V) : Wrapper K V × Bool :=
  match s.backingMap.contents key with
  | some v =>
    if v == value then
      ({ s with backingMap := (s.backingMap.remove key).1 }.callObservers
        ⟨key, value, none, false, true⟩, true)
    else (s, false)
  | none => (s, false)

/-- `next()` of a view's iterator. -/
def next (s : Wrapper K V) (i : ℕ) : Except Exn (Wrapper K V × Ret K V) :=
  match s.iterators[i]? with
  | none => .error .noSuchElement
  | some it => do
      let (n, entryIt) ← it.entryIt.next s.backingMap
      match s.backingMap.entries[n]? with
      | none => .error .noSuchElement
      | some e =>
        let it' := { it with entryIt, lastKey := some e.key, lastValue := e.value }
        let ret := match it.view with
          | .keySet => Ret.key e.key
          | .values => Ret.value e.value
          | .entrySet => Ret.entry n
        return ({ s with iterators := s.iterators.set i it' }, ret)

/-- `remove()` of a view's iterator. -/
def iteratorRemove (s : Wrapper K V) (i : ℕ) : Except Exn (Wrapper K V) :=
  match s.iterators[i]? with
  | none => .error .noSuchElement
  | some it => do
      let (entryIt, backingMap) ← it.entryIt.remove s.backingMap
      let s' := { s with backingMap, iterators := s.iterators.set i { it with entryIt } }
      match it.lastKey with
      | some key => return s'.callObservers ⟨key, it.lastValue, none, false, true⟩
      | none => return s'

/-- `ObservableEntry.setValue`. -/
def setValue (s : Wrapper K V) (n : ℕ) (value : Option V) : Wrapper K V × Option V :=
  match s.backingMap.entries[n]? with
  | some e =>
    let (backingMap, oldValue) := s.backingMap.setValue n value
    ({ s with backingMap }.callObservers ⟨e.key, oldValue, value, true, true⟩, oldValue)
  | none => (s, none)

/-- An operation: the wrapper afterwards and what the caller gets. -/
def perform (place : Placing K V) (s : Wrapper K V) :
    Op K V → Wrapper K V × Except Exn (Ret K V)
  | .put key value =>
    let (s', ret) := s.put place key value
    (s', .ok (.value ret))
  | .remove key =>
    let (s', ret) := s.remove key
    (s', .ok (.value ret))
  | .putAll m => (s.putAll place m, .ok .void)
  | .clear => (s.clear, .ok .void)
  | .keySetRemove key =>
    let (s', ret) := s.keySetRemove key
    (s', .ok (.bool ret))
  | .valuesRemove o =>
    match s.valuesRemove o with
    | .ok (s', ret) => (s', .ok (.bool ret))
    | .error e => (s, .error e)
  | .entrySetRemove key value =>
    let (s', ret) := s.entrySetRemove key value
    (s', .ok (.bool ret))
  | .removeRetain _ contains remove =>
    let (s', ret) := s.removeRetain contains remove
    (s', .ok (.bool ret))
  | .viewClear _ => (s.clear, .ok .void)
  | .viewAdd _ => (s, .error .unsupportedOperation)
  | .iterator view =>
    ({ s with iterators := s.iterators ++ [⟨view, .new s.backingMap, none, none⟩] }, .ok .void)
  | .next i =>
    match s.next i with
    | .ok (s', ret) => (s', .ok ret)
    | .error e => (s, .error e)
  | .iteratorRemove i =>
    match s.iteratorRemove i with
    | .ok s' => (s', .ok .void)
    | .error e => (s, .error e)
  | .setValue n value =>
    let (s', ret) := s.setValue n value
    (s', .ok (.value ret))

/-- The exception the same call on the backing map's own views ends with. -/
def backingThrows (s : Wrapper K V) : Op K V → Option Exn
  | .viewAdd _ => some .unsupportedOperation
  | .next i => do
      let it ← s.iterators[i]?
      match it.entryIt.next s.backingMap with
      | .ok _ => none
      | .error e => some e
  | .iteratorRemove i => do
      let it ← s.iterators[i]?
      match it.entryIt.remove s.backingMap with
      | .ok _ => none
      | .error e => some e
  | _ => none

end Wrapper

end JavaFx.ObservableMap
