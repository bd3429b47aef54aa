/-
`VetoableListDecorator`, its sublists and its iterators.

The decorated list is outside: `Decorated` is whatever answers the questions and
performs the commands that are put to it or to one of its own sublists and iterators,
which go by number, the list itself being number 0. Any of these may throw. So may
`onProposedChange`, which is a parameter too. What a call has seen thrown by either is
noted in the state, `vetoed` and `failed`.

A sublist or an iterator asks for the modification count of what it was made from, and
counts up and down, through an accessor. All accessors are alike: they lead through
the enclosing sublists, the innermost first, to the decorator. An accessor is the list
of these sublists.
-/
import JavaFx.Lib.Method

set_option autoImplicit false

namespace JavaFx.Collections.VetoableList

open JavaFx.Lib

/-! ## The decorated list -/

/-- What is passed on to the decorated list unchanged and asks only. -/
inductive Query (E : Type)
  | size
  | isEmpty
  | contains (o : E)
  | toArray
  | containsAll (c : Option (List E))
  | get (index : ℤ)
  | indexOf (o : E)
  | lastIndexOf (o : E)
  | hasNext
  | hasPrevious
  | nextIndex
  | previousIndex
  | toString
  | hashCode

/-- What is asked of the decorated list, or of a sublist or an iterator of it. -/
inductive Command (E : Type)
  | setAll (col : Option (List E))
  | removeRange (start stop : ℤ)
  | add (e : E)
  | addAll (c : Option (List E))
  | addAllAt (index : ℤ) (c : Option (List E))
  | removeAll (c : Option (List E))
  | retainAll (c : Option (List E))
  | clear
  | set (index : ℤ) (element : E)
  | addAt (index : ℤ) (element : E)
  | removeAt (index : ℤ)
  | next
  | previous
  | iteratorRemove
  | iteratorSet (e : E)
  | iteratorAdd (e : E)

/-- What is made of it. -/
inductive View
  | iterator
  | listIterator
  | listIteratorAt (index : ℤ)
  | subList (fromIndex toIndex : ℤ)

/-- The results of queries and commands. -/
inductive Answer (E : Type)
  | none
  | bool (b : Bool)
  | int (i : ℤ)
  | element (e : E)
  | elements (l : List E)

/-- The decorated list in a state `L`. -/
structure Decorated (E L : Type) where
  size : L → ℕ → Except Exn ℤ
  get : L → ℕ → ℤ → Except Exn E
  indexOf : L → ℕ → E → Except Exn ℤ
  query : L → ℕ → Query E → Except Exn (Answer E)
  perform : L → ℕ → Command E → Except Exn (Answer E) × L
  view : L → ℕ → View → Except Exn ℕ × L

/-! ## The state -/

/-- A `VetoableSubListDecorator`. -/
structure SubList where
  accessor : List ℕ
  modCount : ℤ
  subList : ℕ
  offset : ℤ
  deriving DecidableEq

/-- A `VetoableIteratorDecorator` or `VetoableListIteratorDecorator`. -/
structure Iter where
  accessor : List ℕ
  modCount : ℤ
  it : ℕ
  offset : ℤ
  cursor : ℤ
  lastReturned : ℤ
  deriving DecidableEq

/-- The decorator, its sublists and iterators and the decorated list. -/
structure World (L : Type) where
  modCount : ℤ
  sublists : List SubList
  iterators : List Iter
  list : L
  vetoed : Option Exn
  failed : Option Exn

variable {E L : Type}

/-! ## What is called -/

section Environment

variable (D : Decorated E L) (veto : List E → List ℤ → Option Exn)

/-- An exception of the decorated list is noted. -/
def noted {α : Type} : Except Exn α → Method (World L) α
  | .ok a => pure a
  | .error e => do
      modify fun w => { w with failed := some e }
      throw e

/-- A command for the list with this number. -/
def perform (h : ℕ) (c : Command E) : Method (World L) (Answer E) := do
  let w ← get
  modify fun w' => { w' with list := (D.perform w.list h c).2 }
  noted (D.perform w.list h c).1

/-- `onProposedChange`. -/
def onProposedChange (toBeAdded : List E) (indexes : List ℤ) : Method (World L) PUnit :=
  match veto toBeAdded indexes with
  | none => pure ⟨⟩
  | some e => do
      modify fun w => { w with vetoed := some e }
      throw e

/-! ## Modification counts -/

/-- `get` of an accessor. -/
def accessorGet : List ℕ → Method (World L) ℤ
  | [] => do
      let w ← get
      return w.modCount
  | v :: _ => do
      let w ← get
      match w.sublists[v]? with
      | some s => pure s.modCount
      | none => throw .illegalState

/-- The modification count of a sublist is assigned. -/
def assignSubList (v : ℕ) (n : ℤ) : Method (World L) PUnit :=
  modify fun w => { w with sublists := w.sublists.modify v (fun s => { s with modCount := n }) }

/-- `incrementAndGet` of an accessor. -/
def incrementAndGet : List ℕ → Method (World L) ℤ
  | [] => do
      modify fun w => { w with modCount := w.modCount + 1 }
      let w ← get
      return w.modCount
  | v :: outer => do
      let n ← incrementAndGet outer
      assignSubList v n
      return n

/-- `decrementAndGet` of an accessor. -/
def decrementAndGet : List ℕ → Method (World L) ℤ
  | [] => do
      modify fun w => { w with modCount := w.modCount - 1 }
      let w ← get
      return w.modCount
  | v :: outer => do
      let n ← decrementAndGet outer
      assignSubList v n
      return n

/-- A sublist. -/
def subListOf (v : ℕ) : Method (World L) SubList := do
  let w ← get
  match w.sublists[v]? with
  | some s => pure s
  | none => throw .illegalState

/-- An iterator. -/
def iteratorOf (i : ℕ) : Method (World L) Iter := do
  let w ← get
  match w.iterators[i]? with
  | some it => pure it
  | none => throw .illegalState

/-- The fields of an iterator are assigned. -/
def assignIterator (i : ℕ) (f : Iter → Iter) : Method (World L) PUnit :=
  modify fun w => { w with iterators := w.iterators.modify i f }

/-! ## The decorator and its sublists

The methods of the two classes differ in that those of a sublist begin with
`checkForComodification` and have an offset. `this` is a sublist, or `none` for the
decorator. -/

/-- The number of the list that is decorated, and the offset in the decorated list. -/
def target (this : Option ℕ) : Method (World L) (ℕ × ℤ) :=
  match this with
  | none => pure (0, 0)
  | some v => do
      let s ← subListOf v
      return (s.subList, s.offset)

/-- `checkForComodification` of a sublist. -/
def checkForComodification (this : Option ℕ) : Method (World L) PUnit :=
  match this with
  | none => pure ⟨⟩
  | some v => do
      let s ← subListOf v
      let n ← accessorGet s.accessor
      if s.modCount ≠ n then
        throw .concurrentModification

/-- The accessor that is handed to what is made from the list. -/
def accessorOf (this : Option ℕ) : Method (World L) (List ℕ) :=
  match this with
  | none => pure []
  | some v => do
      let s ← subListOf v
      return v :: s.accessor

/-- `incrementModCount`, or `modCount++`. -/
def incrementModCount (this : Option ℕ) : Method (World L) PUnit := do
  let accessor ← accessorOf this
  let _ ← incrementAndGet accessor
  return ⟨⟩

/-- `decrementModCount`, or `modCount--`. -/
def decrementModCount (this : Option ℕ) : Method (World L) PUnit := do
  let accessor ← accessorOf this
  let _ ← decrementAndGet accessor
  return ⟨⟩

/-- `size`. -/
def size (this : Option ℕ) : Method (World L) ℤ := do
  checkForComodification this
  let (h, _) ← target this
  let w ← get
  noted (D.size w.list h)

/-- `get(int)`. -/
def getAt (this : Option ℕ) (index : ℤ) : Method (World L) E := do
  checkForComodification this
  let (h, _) ← target this
  let w ← get
  noted (D.get w.list h index)

/-- `indexOf`. -/
def indexOf (this : Option ℕ) (o : E) : Method (World L) ℤ := do
  checkForComodification this
  let (h, _) ← target this
  let w ← get
  noted (D.indexOf w.list h o)

/-- The other methods that only ask. -/
def ask (this : Option ℕ) (q : Query E) : Method (World L) (Answer E) := do
  checkForComodification this
  let (h, _) ← target this
  let w ← get
  noted (D.query w.list h q)

/-- Puts an index behind the ranges of indexes found so far. -/
def addIndex (ranges : List (ℤ × ℤ)) (i : ℤ) : List (ℤ × ℤ) :=
  match ranges.getLast? with
  | some (start, stop) =>
    -- `toBeRemoved[pointer - 1]` is where the last range starts, not where it stops
    if start = i then ranges.dropLast ++ [(i + 1, stop)] else ranges ++ [(i, i + 1)]
  | none => [(i, i + 1)]

variable [DecidableEq E]

/-- The loop of `removeFromList`. The counter is an `int` and below a size that is an
`int`, so `fuel` does not run out. -/
def toBeRemoved (this : Option ℕ) (offset : ℤ) (col : Option (List E)) (complement : Bool) :
    (fuel : ℕ) → (i : ℤ) → List (ℤ × ℤ) → Method (World L) (List (ℤ × ℤ))
  | 0, _, ranges => pure ranges
  | fuel + 1, i, ranges => do
      let n ← size D this
      if i < n then
        let el ← getAt D this i
        match col with
        | none => throw .nullPointer
        | some col =>
          toBeRemoved this offset (some col) complement fuel (i + 1)
            (if xor (decide (el ∈ col)) complement then addIndex ranges (offset + i) else ranges)
      else pure ranges

/-- `removeFromList`. -/
def removeFromList (this : Option ℕ) (offset : ℤ) (col : Option (List E)) (complement : Bool) :
    Method (World L) PUnit := do
  let ranges ← toBeRemoved D this offset col complement (2 ^ 31) 0 []
  if ranges ≠ [] then
    onProposedChange veto [] (ranges.flatMap (fun r => [r.1, r.2]))

/-- `Collections.unmodifiableList(new ArrayList(c))`. -/
def newArrayList (c : Option (List E)) : Method (World L) (List E) :=
  match c with
  | some c => pure c
  | none => throw .nullPointer

/-- The mutators. -/
inductive Mutator (E : Type)
  | add (e : E)
  | remove (o : E)
  | addAll (c : Option (List E))
  | addAllAt (index : ℤ) (c : Option (List E))
  | removeAll (c : Option (List E))
  | retainAll (c : Option (List E))
  | clear
  | addAt (index : ℤ) (element : E)
  | removeAt (index : ℤ)

/-- What a mutator does before its `try`, and the command inside it. `remove(Object)`
may find nothing to remove. -/
def beforeTry (this : Option ℕ) : Mutator E → Method (World L) (Option (Command E))
  | .add e => do
      checkForComodification this
      let (_, offset) ← target this
      let start ← size D this
      let stop ← size D this
      onProposedChange veto [e] [offset + start, offset + stop]
      return some (.add e)
  | .remove o => do
      checkForComodification this
      let i ← indexOf D this o
      if i ≠ -1 then
        checkForComodification this
        let (_, offset) ← target this
        onProposedChange veto [] [offset + i, offset + i + 1]
        return some (.removeAt i)
      else
        return none
  | .addAll c => do
      checkForComodification this
      let (_, offset) ← target this
      let added ← newArrayList c
      let start ← size D this
      let stop ← size D this
      onProposedChange veto added [offset + start, offset + stop]
      return some (.addAll c)
  | .addAllAt index c => do
      checkForComodification this
      let (_, offset) ← target this
      let added ← newArrayList c
      onProposedChange veto added [offset + index, offset + index]
      return some (.addAllAt index c)
  | .removeAll c => do
      checkForComodification this
      let (_, offset) ← target this
      removeFromList D veto this offset c false
      return some (.removeAll c)
  | .retainAll c => do
      checkForComodification this
      let (_, offset) ← target this
      removeFromList D veto this offset c true
      return some (.retainAll c)
  | .clear => do
      checkForComodification this
      let (_, offset) ← target this
      let n ← size D this
      onProposedChange veto [] [offset, offset + n]
      return some .clear
  | .addAt index element => do
      checkForComodification this
      let (_, offset) ← target this
      onProposedChange veto [element] [offset + index, offset + index]
      return some (.addAt index element)
  | .removeAt index => do
      checkForComodification this
      let (_, offset) ← target this
      onProposedChange veto [] [offset + index, offset + index + 1]
      return some (.removeAt index)

/-- The commands whose result says whether anything has changed; if not, the mutator
takes the modification count back. -/
def Command.takesBack : Command E → Bool
  | .addAll _ | .addAllAt _ _ | .removeAll _ | .retainAll _ => true
  | _ => false

/-- `try { increment; command } catch (Exception e) { decrement; throw e; }`. -/
def guarded (increment decrement : Method (World L) PUnit) (h : ℕ) (c : Command E) :
    Method (World L) (Answer E) :=
  catchException
    (do
      increment
      let ret ← perform D h c
      if c.takesBack then
        match ret with
        | .bool false => decrement
        | _ => pure ⟨⟩
      return ret)
    (fun e => do
      decrement
      throw e)

/-- The mutators of the decorator and of its sublists. -/
def mutate (this : Option ℕ) (m : Mutator E) : Method (World L) (Answer E) := do
  let command ← beforeTry D veto this m
  match command with
  | none => return .bool false
  | some c => do
      let (h, _) ← target this
      guarded D (incrementModCount this) (decrementModCount this) h c

/-- `set(int, E)`, which does not count. -/
def setAt (this : Option ℕ) (index : ℤ) (element : E) : Method (World L) (Answer E) := do
  checkForComodification this
  let (h, offset) ← target this
  onProposedChange veto [element] [offset + index, offset + index + 1]
  perform D h (.set index element)

/-- `setAll` of the decorator. -/
def setAll (col : Option (List E)) : Method (World L) (Answer E) := do
  let added ← newArrayList col
  let n ← size D none
  onProposedChange veto added [0, n]
  guarded D (incrementModCount none) (decrementModCount none) 0 (.setAll col)

/-- `remove(int, int)` of the decorator. The exception is not thrown again. -/
def removeRange (start stop : ℤ) : Method (World L) (Answer E) := do
  onProposedChange veto ([] : List E) [start, stop]
  catchException
    (do
      incrementModCount none
      let _ ← perform D 0 (.removeRange start stop)
      return .none)
    (fun _ => do
      decrementModCount none
      return .none)

/-- `iterator`, `listIterator` and `subList`. -/
def newView (this : Option ℕ) (v : View) : Method (World L) (Answer E) := do
  checkForComodification this
  let (h, offset) ← target this
  let accessor ← accessorOf this
  let w ← get
  modify fun w' => { w' with list := (D.view w.list h v).2 }
  let made ← noted (D.view w.list h v).1
  let modCount ← accessorGet accessor
  match v with
  | .iterator | .listIterator =>
    modify fun w => { w with iterators := w.iterators ++ [⟨accessor, modCount, made, offset, 0, 0⟩] }
  | .listIteratorAt index =>
    modify fun w =>
      { w with iterators := w.iterators ++ [⟨accessor, modCount, made, offset + index, 0, 0⟩] }
  | .subList fromIndex _ =>
    modify fun w =>
      { w with sublists := w.sublists ++ [⟨accessor, modCount, made, offset + fromIndex⟩] }
  return .none

/-! ## The iterators -/

/-- `checkForComodification` of an iterator. -/
def iteratorCheck (it : Iter) : Method (World L) PUnit := do
  let n ← accessorGet it.accessor
  if it.modCount ≠ n then
    throw .concurrentModification

/-- `incrementModCount` of an iterator. -/
def iteratorIncrement (i : ℕ) (accessor : List ℕ) : Method (World L) PUnit := do
  let n ← incrementAndGet accessor
  assignIterator i (fun it => { it with modCount := n })

/-- `decrementModCount` of an iterator. -/
def iteratorDecrement (i : ℕ) (accessor : List ℕ) : Method (World L) PUnit := do
  let n ← decrementAndGet accessor
  assignIterator i (fun it => { it with modCount := n })

/-- The methods of an iterator. -/
inductive IteratorOp (E : Type)
  | ask (q : Query E)
  | next
  | previous
  | remove
  | set (e : E)
  | add (e : E)

/-- What `remove` and `add` do before their `try`, and the command inside it. -/
def iteratorBeforeTry (it : Iter) : IteratorOp E → Method (World L) (Option (Command E))
  | .remove => do
      iteratorCheck it
      if it.lastReturned = -1 then
        throw .illegalState
      onProposedChange veto ([] : List E)
        [it.offset + it.lastReturned, it.offset + it.lastReturned + 1]
      return some .iteratorRemove
  | .add e => do
      iteratorCheck it
      onProposedChange veto [e] [it.offset + it.cursor, it.offset + it.cursor]
      return some (.iteratorAdd e)
  | _ => return none

/-- A method of an iterator. -/
def iterate (i : ℕ) (op : IteratorOp E) : Method (World L) (Answer E) := do
  let it ← iteratorOf i
  match op with
  | .ask q => do
      iteratorCheck it
      let w ← get
      noted (D.query w.list it.it q)
  | .next => do
      iteratorCheck it
      let e ← perform D it.it .next
      assignIterator i (fun it => { it with lastReturned := it.cursor, cursor := it.cursor + 1 })
      return e
  | .previous => do
      iteratorCheck it
      let e ← perform D it.it .previous
      assignIterator i (fun it => { it with lastReturned := it.cursor - 1, cursor := it.cursor - 1 })
      return e
  | .set e => do
      iteratorCheck it
      if it.lastReturned = -1 then
        throw .illegalState
      onProposedChange veto [e] [it.offset + it.lastReturned, it.offset + it.lastReturned + 1]
      perform D it.it (.iteratorSet e)
  | .remove => do
      let _ ← iteratorBeforeTry veto it (.remove : IteratorOp E)
      let _ ← guarded D (iteratorIncrement i it.accessor) (iteratorDecrement i it.accessor) it.it
        .iteratorRemove
      assignIterator i (fun it => { it with lastReturned := -1, cursor := it.cursor - 1 })
      return .none
  | .add e => do
      let _ ← iteratorBeforeTry veto it (.add e)
      let _ ← guarded D (iteratorIncrement i it.accessor) (iteratorDecrement i it.accessor) it.it
        (.iteratorAdd e)
      assignIterator i (fun it => { it with cursor := it.cursor + 1 })
      return .none

/-- The calls. -/
inductive Call (E : Type)
  | ask (this : Option ℕ) (q : Query E)
  | mutate (this : Option ℕ) (m : Mutator E)
  | setAt (this : Option ℕ) (index : ℤ) (element : E)
  | newView (this : Option ℕ) (v : View)
  | setAll (col : Option (List E))
  | removeRange (start stop : ℤ)
  | iterate (i : ℕ) (op : IteratorOp E)

/-- A call. -/
def call : Call E → Method (World L) (Answer E)
  | .ask this q => ask D this q
  | .mutate this m => mutate D veto this m
  | .setAt this index element => setAt D veto this index element
  | .newView this v => newView D this v
  | .setAll col => setAll D veto col
  | .removeRange start stop => removeRange D veto start stop
  | .iterate i op => iterate D veto i op

end Environment

end JavaFx.Collections.VetoableList
