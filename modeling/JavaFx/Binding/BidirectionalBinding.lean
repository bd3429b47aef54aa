/-
`BidirectionalBinding` of `com.sun.javafx.binding`, with the properties it binds.

A property is an `ObjectPropertyBase` that is not itself bound: a value, a `valid`
flag, and an expression helper with the change listeners. All listeners here are
bidirectional bindings. None is added or removed while a notification runs, so the
arrays of `ExpressionHelper` are lists here, and its `locked` flag plays no part.

To set a property is to notify its bindings, each of which sets the property on its
other side. The source recurses without a measure; the model counts the nesting of
`set` down, and `BidirectionalCascade` shows that it never reaches the end.
-/
import JavaFx.Lib.Run
import Mathlib.Data.Fintype.Card
import Mathlib.Logic.Function.Basic
import Mathlib.Logic.Relation

set_option autoImplicit false

namespace JavaFx.Binding.BidirectionalBinding

open JavaFx.Lib

/-! ## Values -/

/-- `equals` on the values, with what its contract promises. Two references are the
same value object when they are equal as elements of `V`. -/
structure Equality (V : Type) where
  equals : V → V → Bool
  refl : ∀ v, equals v v = true
  symm : ∀ v w, equals v w = true → equals w v = true
  trans : ∀ u v w, equals u v = true → equals v w = true → equals u w = true

/-- The test `changed` of `ExpressionHelper`; a value may be `null`. -/
def Equality.changed {V : Type} (E : Equality V) (currentValue oldValue : Option V) : Bool :=
  match currentValue with
  | none => oldValue.isSome
  | some v => !(oldValue.any (fun w => E.equals v w))

/-! ## The state -/

/-- An `ExpressionHelper` with change listeners, which are given by their numbers. -/
inductive Helper (V : Type)
  | null
  | single (listener : ℕ) (currentValue : Option V)
  | generic (listeners : List ℕ) (currentValue : Option V)

def Helper.listeners {V : Type} : Helper V → List ℕ
  | .null => []
  | .single b _ => [b]
  | .generic bs _ => bs

def Helper.currentValue {V : Type} : Helper V → Option V
  | .null => none
  | .single _ v => v
  | .generic _ v => v

/-- An `ObjectPropertyBase` with no `observable`. -/
structure Property (V : Type) where
  value : Option V
  valid : Bool
  helper : Helper V

/-- The properties, and the `BidirectionalBinding` objects made so far: of the
binding with number `b`, `pairs[b]` are the two properties and `updating b` is the
flag. `bound` are the bindings in force, in the order they were made; the code does
not have it. -/
structure System (P V : Type) where
  property : P → Property V
  pairs : List (P × P)
  updating : ℕ → Bool
  bound : List ℕ

/-- The operations. -/
inductive Op (P V : Type)
  | bind (property1 property2 : P)
  | unbind (property1 property2 : P)
  | set (property : P) (value : Option V)

namespace System

variable {P V : Type} [DecidableEq P] [DecidableEq V]

/-! ## Properties -/

def value (s : System P V) (p : P) : Option V := (s.property p).value

/-- An assignment to fields of a property. -/
def modify (s : System P V) (p : P) (u : Property V → Property V) : System P V :=
  { s with property := Function.update s.property p (u (s.property p)) }

/-- What `get` does to the property; the value it returns is the field. -/
def get (s : System P V) (p : P) : System P V := s.modify p (fun x => { x with valid := true })

/-- `addListener`. The value is read for a new `SingleChange` or `Generic` object, and
when the listener is the first one of a `Generic` object. -/
def addListener (s : System P V) (p : P) (b : ℕ) : System P V :=
  match (s.property p).helper with
  | .null => (s.get p).modify p (fun x => { x with helper := .single b (s.value p) })
  | .single b0 _ => (s.get p).modify p (fun x => { x with helper := .generic [b0, b] (s.value p) })
  | .generic [] _ => (s.get p).modify p (fun x => { x with helper := .generic [b] (s.value p) })
  | .generic bs v => s.modify p (fun x => { x with helper := .generic (bs ++ [b]) v })

/-- `removeListener`, for an argument that equals the bindings in `same`. -/
def removeListener (s : System P V) (p : P) (same : ℕ → Bool) : System P V :=
  match (s.property p).helper with
  | .null => s
  | .single b _ => if same b then s.modify p (fun x => { x with helper := .null }) else s
  | .generic [b0, b1] _ =>
    if same b0 then (s.get p).modify p (fun x => { x with helper := .single b1 (s.value p) })
    else if same b1 then
      (s.get p).modify p (fun x => { x with helper := .single b0 (s.value p) })
    else s
  | .generic bs v => s.modify p (fun x => { x with helper := .generic (bs.eraseP same) v })

/-! ## The cascade -/

/-- `BidirectionalBinding.changed`, where both properties are still there and no
setter throws. -/
def changed (setValue : System P V → P → Option V → Option (System P V)) (s : System P V)
    (b : ℕ) (sourceProperty : P) (newValue : Option V) : Option (System P V) :=
  if s.updating b then some s
  else
    match s.pairs[b]? with
    | none => some s
    | some (property1, property2) =>
      let other := if property1 = sourceProperty then property2 else property1
      let s' := { s with updating := Function.update s.updating b true }
      -- the `finally` block
      (setValue s' other newValue).map (fun s =>
        { s with updating := Function.update s.updating b false })

/-- The loop of a `Generic` helper over its change listeners. It reads the field
`currentValue` in every round. -/
def callAll (setValue : System P V → P → Option V → Option (System P V)) (p : P) :
    List ℕ → System P V → Option (System P V)
  | [], s => some s
  | b :: bs, s =>
    (s.changed setValue b p (s.property p).helper.currentValue).bind (callAll setValue p bs)

/-- `ExpressionHelper.fireValueChangedEvent`. -/
def fireValueChangedEvent (E : Equality V)
    (setValue : System P V → P → Option V → Option (System P V)) (s : System P V) (p : P) :
    Option (System P V) :=
  match (s.property p).helper with
  | .null => some s
  | .single b oldValue =>
    let currentValue := s.value p
    let s' := (s.get p).modify p (fun x => { x with helper := .single b currentValue })
    if E.changed currentValue oldValue then s'.changed setValue b p currentValue else some s'
  | .generic bs oldValue =>
    let currentValue := s.value p
    let s' := (s.get p).modify p (fun x => { x with helper := .generic bs currentValue })
    if E.changed currentValue oldValue then callAll setValue p bs s' else some s'

/-- `ObjectPropertyBase.set` with `markInvalid`. The result is `none` when more than
`fuel` calls of `set` are nested. -/
def set (E : Equality V) : ℕ → System P V → P → Option V → Option (System P V)
  | 0, _, _, _ => none
  | fuel + 1, s, p, newValue =>
    if s.value p = newValue then some s
    else
      let s' := s.modify p (fun x => { x with value := newValue })
      if (s.property p).valid then
        fireValueChangedEvent E (set E fuel) (s'.modify p (fun x => { x with valid := false })) p
      else some s'

/-! ## The operations -/

/-- `new UntypedGenericBidirectionalBinding(property1, property2).equals`. -/
def samePair (s : System P V) (property1 property2 : P) (b : ℕ) : Bool :=
  match s.pairs[b]? with
  | none => false
  | some (p, q) => (property1 = p ∧ property2 = q) ∨ (property1 = q ∧ property2 = p)

/-- `BidirectionalBinding.bind`. It throws for two times the same property. -/
def bind (E : Equality V) (fuel : ℕ) (s : System P V) (property1 property2 : P) :
    Option (System P V) :=
  if property1 = property2 then some s
  else
    let b := s.pairs.length
    let s' := { s with
      pairs := s.pairs ++ [(property1, property2)]
      updating := Function.update s.updating b false }
    (set E fuel (s'.get property2) property1 (s.value property2)).map (fun s =>
      { (s.addListener property1 b).addListener property2 b with bound := s.bound ++ [b] })

/-- `BidirectionalBinding.unbind`. It throws for two times the same property. -/
def unbind (s : System P V) (property1 property2 : P) : System P V :=
  if property1 = property2 then s
  else
    let same := s.samePair property1 property2
    { (s.removeListener property1 same).removeListener property2 same with
      bound := s.bound.eraseP same }

/-- A finite set of properties does not nest more calls of `set` than this. -/
def depth (P : Type) [Fintype P] : ℕ := Fintype.card P + 1

/-- One operation; the error is that the cascade did not end within `depth`. -/
def step [Fintype P] (E : Equality V) (s : System P V) (op : Op P V) :
    Except Unit (System P V) :=
  let result :=
    match op with
    | .bind p q => s.bind E (depth P) p q
    | .unbind p q => some (s.unbind p q)
    | .set p v => s.set E (depth P) p v
  result.elim (.error ()) .ok

/-- Properties with these values, and no binding. -/
def start (values : P → Option V) : System P V :=
  ⟨fun p => ⟨values p, true, .null⟩, [], fun _ => false, []⟩

/-- The binding `b` is in force between `x` and `y`. -/
def Edge (s : System P V) (b : ℕ) (x y : P) : Prop :=
  b ∈ s.bound ∧ (s.pairs[b]? = some (x, y) ∨ s.pairs[b]? = some (y, x))

/-- There is a path of bound pairs from `x` to `y`. -/
def Connected (s : System P V) : P → P → Prop :=
  Relation.ReflTransGen (fun x y => ∃ b, s.Edge b x y)

end System

end JavaFx.Binding.BidirectionalBinding
