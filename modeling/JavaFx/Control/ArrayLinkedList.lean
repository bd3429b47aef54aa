/-
`VirtualFlow.ArrayLinkedList`: the cells of a virtual flow, in the middle of an array.

The list stands between `firstIndex` and `lastIndex`, which are both -1 if it is empty. The
array it stands in is an `ArrayList`, which throws outside its bounds. A method that throws
leaves what it did before.
-/
import JavaFx.Lib.Method

set_option autoImplicit false

namespace JavaFx.Control

open JavaFx.Lib

/-- The fields. A cell may be `null`. -/
structure ArrayLinkedList (T : Type) where
  array : List (Option T)
  firstIndex : ℤ
  lastIndex : ℤ

namespace ArrayLinkedList

variable {T : Type}

/-- The constructor. -/
def new : ArrayLinkedList T := ⟨List.replicate 50 none, -1, -1⟩

/-! ## The methods -/

/-- `array.get(index)`. -/
def arrayGet (index : ℤ) : Method (ArrayLinkedList T) (Option T) := do
  let s ← get
  liftExcept (aget s.array index)

/-- `array.set(index, cell)`. -/
def arraySet (index : ℤ) (cell : Option T) : Method (ArrayLinkedList T) Unit := do
  let s ← get
  let array ← liftExcept (aset s.array index cell)
  set { s with array }

/-- `array.add(index, cell)`. -/
def arrayAdd (index : ℤ) (cell : Option T) : Method (ArrayLinkedList T) Unit := do
  let s ← get
  if 0 ≤ index ∧ index ≤ s.array.length then
    set { s with array := s.array.insertIdx index.toNat cell }
  else throw .indexOutOfBounds

def getFirst : Method (ArrayLinkedList T) (Option T) := do
  let s ← get
  if s.firstIndex = -1 then return none
  arrayGet s.firstIndex

def getLast : Method (ArrayLinkedList T) (Option T) := do
  let s ← get
  if s.lastIndex = -1 then return none
  arrayGet s.lastIndex

def addFirst (cell : Option T) : Method (ArrayLinkedList T) Unit := do
  let s ← get
  if s.firstIndex = -1 then
    let middle : ℤ := (s.array.length / 2 : ℕ)
    set { s with firstIndex := middle, lastIndex := middle }
    arraySet middle cell
  else if s.firstIndex = 0 then
    -- already at the head of the array
    arrayAdd 0 cell
    modify fun s => { s with lastIndex := s.lastIndex + 1 }
  else
    set { s with firstIndex := s.firstIndex - 1 }
    arraySet (s.firstIndex - 1) cell

def addLast (cell : Option T) : Method (ArrayLinkedList T) Unit := do
  let s ← get
  if s.firstIndex = -1 then
    let middle : ℤ := (s.array.length / 2 : ℕ)
    set { s with firstIndex := middle, lastIndex := middle }
    arraySet middle cell
  else if s.lastIndex = (s.array.length : ℤ) - 1 then
    -- at the end of the array
    set { s with lastIndex := s.lastIndex + 1 }
    arrayAdd (s.lastIndex + 1) cell
  else
    set { s with lastIndex := s.lastIndex + 1 }
    arraySet (s.lastIndex + 1) cell

def size (s : ArrayLinkedList T) : ℤ :=
  if s.firstIndex = -1 then 0 else s.lastIndex - s.firstIndex + 1

def isEmpty (s : ArrayLinkedList T) : Bool := s.firstIndex = -1

/-- `get(index)`. -/
def getAt (index : ℤ) : Method (ArrayLinkedList T) (Option T) := do
  let s ← get
  if s.lastIndex - s.firstIndex < index ∨ index < 0 then return none
  arrayGet (s.firstIndex + index)

def clear : Method (ArrayLinkedList T) Unit :=
  modify fun s => ⟨s.array.map fun _ => none, -1, -1⟩

/-- `remove(index)`. -/
def remove (index : ℤ) : Method (ArrayLinkedList T) (Option T) := do
  let s ← get
  if s.lastIndex - s.firstIndex < index ∨ index < 0 then throw .indexOutOfBounds
  if index = 0 then
    let cell ← arrayGet s.firstIndex
    arraySet s.firstIndex none
    if s.firstIndex = s.lastIndex then modify fun s => { s with firstIndex := -1, lastIndex := -1 }
    else modify fun s => { s with firstIndex := s.firstIndex + 1 }
    return cell
  else if index = s.lastIndex - s.firstIndex then
    let cell ← arrayGet s.lastIndex
    modify fun s => { s with lastIndex := s.lastIndex - 1 }
    arraySet s.lastIndex none
    return cell
  else
    let cell ← arrayGet (s.firstIndex + index)
    arraySet (s.firstIndex + index) none
    forM (upTo (s.firstIndex + index + 1) (s.lastIndex + 1)) fun i => do
      arraySet (i - 1) (← arrayGet i)
    modify fun s => { s with lastIndex := s.lastIndex - 1 }
    arraySet s.lastIndex none
    return cell

def removeFirst : Method (ArrayLinkedList T) (Option T) := do
  let s ← get
  if s.isEmpty then return none
  remove 0

def removeLast : Method (ArrayLinkedList T) (Option T) := do
  let s ← get
  if s.isEmpty then return none
  remove (s.lastIndex - s.firstIndex)

/-- The iterator of `AbstractList`, to its end. -/
def iterate : Method (ArrayLinkedList T) (List (Option T)) := do
  let s ← get
  (upTo 0 s.size).mapM getAt

/-! ## Calls -/

/-- The calls of a client. -/
inductive Call (T : Type)
  | addFirst (cell : Option T)
  | addLast (cell : Option T)
  | removeFirst
  | removeLast
  | remove (index : ℤ)
  | clear
  | size
  | isEmpty
  | getFirst
  | getLast
  | get (index : ℤ)
  | iterate

/-- What a call returns. -/
inductive Result (T : Type)
  | done
  | cell (cell : Option T)
  | number (n : ℤ)
  | bool (b : Bool)
  | cells (cells : List (Option T))
  | thrown
  deriving DecidableEq

/-- A method as a call. -/
def respond {α : Type} (result : α → Result T) (method : Method (ArrayLinkedList T) α)
    (s : ArrayLinkedList T) : ArrayLinkedList T × Result T :=
  match method.run s with
  | .ok a s => (s, result a)
  | .error _ s => (s, .thrown)

/-- A call, with the list after it. -/
def call (s : ArrayLinkedList T) : Call T → ArrayLinkedList T × Result T
  | .addFirst cell => respond (fun _ => .done) (addFirst cell) s
  | .addLast cell => respond (fun _ => .done) (addLast cell) s
  | .removeFirst => respond .cell removeFirst s
  | .removeLast => respond .cell removeLast s
  | .remove index => respond .cell (remove index) s
  | .clear => respond (fun _ => .done) clear s
  | .size => (s, .number s.size)
  | .isEmpty => (s, .bool s.isEmpty)
  | .getFirst => respond .cell getFirst s
  | .getLast => respond .cell getLast s
  | .get index => respond .cell (getAt index) s
  | .iterate => respond .cells iterate s

/-- What a sequence of calls returns. -/
def results (s : ArrayLinkedList T) : List (Call T) → List (Result T)
  | [] => []
  | c :: calls => (call s c).2 :: results (call s c).1 calls

end ArrayLinkedList

/-! ## The mathematical list -/

namespace Deque

variable {T : Type}

open ArrayLinkedList (Call Result)

/-- A call on the list itself. -/
def call (l : List (Option T)) : Call T → List (Option T) × Result T
  | .addFirst cell => (cell :: l, .done)
  | .addLast cell => (l ++ [cell], .done)
  | .removeFirst => (l.tail, .cell (l.head?.getD none))
  | .removeLast => (l.dropLast, .cell (l.getLast?.getD none))
  | .remove index =>
    if 0 ≤ index ∧ index < l.length then
      (l.eraseIdx index.toNat, .cell (l.getD index.toNat none))
    else (l, .thrown)
  | .clear => ([], .done)
  | .size => (l, .number l.length)
  | .isEmpty => (l, .bool l.isEmpty)
  | .getFirst => (l, .cell (l.head?.getD none))
  | .getLast => (l, .cell (l.getLast?.getD none))
  | .get index => (l, .cell (if 0 ≤ index ∧ index < l.length then l.getD index.toNat none else none))
  | .iterate => (l, .cells l)

def results (l : List (Option T)) : List (Call T) → List (Result T)
  | [] => []
  | c :: calls => (call l c).2 :: results (call l c).1 calls

end Deque

end JavaFx.Control
