/-
What `VetoableListDecorator` does when something throws.

A call is right if an exception of `onProposedChange` or of the decorated list reaches
the caller and leaves the counters as they were: `Right`. Some calls whose command the
decorated list refuses are not. `remove(int, int)` takes the count back and keeps the
exception. A method of a sublist or an iterator compares its count only with that of
the list around it; if that one is itself out of step with the decorator, counting up
and down again leaves the count of the decorator in all the lists on the way. And an
`Error` is not caught, so the count is not taken back: `Misses`.
-/
import JavaFx.Collections.VetoableList

set_option autoImplicit false

namespace JavaFx.Collections.VetoableList

open JavaFx.Lib

variable {E L : Type}

/-! ## Right calls -/

/-- The modification counters, and what else the lists and iterators keep, are the
same. -/
structure SameCounters (w w' : World L) : Prop where
  modCount : w'.modCount = w.modCount
  sublists : w'.sublists = w.sublists
  iterators : w'.iterators = w.iterators

/-- Nothing has been thrown yet. -/
def World.cleared (w : World L) : World L := { w with vetoed := none, failed := none }

/-- A call that has thrown `x` was right to. -/
structure Excused (w : World L) (x : Exn) (w' : World L) : Prop where
  vetoed : ∀ e, w'.vetoed = some e → x = e ∧ w'.list = w.list ∧ SameCounters w w'
  failed : ∀ e, w'.failed = some e → x = e ∧ SameCounters w w'

/-- A call that has returned has seen no exception. -/
def Calm (w' : World L) : Prop := w'.vetoed = none ∧ w'.failed = none

section Environment

variable [DecidableEq E] (D : Decorated E L) (veto : List E → List ℤ → Option Exn)

/-- The call is right. -/
def Right (w : World L) (c : Call E) : Prop :=
  Wp (call D veto c) w.cleared (fun _ w' => Calm w') (Excused w)

/-! ## Calls that are not -/

/-- The method returns this. -/
def Returns {α : Type} (x : Method (World L) α) (w : World L) (a : α) : Prop :=
  Wp x w (fun b _ => b = a) (fun _ _ => False)

/-- The decorated list throws this. -/
def Refused (w : World L) (h : ℕ) (c : Command E) (e : Exn) : Prop :=
  (D.perform w.list h c).1 = .error e

/-- The lists on the way to the decorator have its count. -/
def InStep (w : World L) (accessor : List ℕ) : Prop :=
  ∀ v ∈ accessor, ∀ s, w.sublists[v]? = some s → s.modCount = w.modCount

/-- The counts are not restored after this. -/
def Spoils (w : World L) (accessor : List ℕ) (e : Exn) : Prop :=
  e.isException = true → ¬ InStep w accessor

/-- The call goes wrong: its command is refused, and it is `remove(int, int)`, or a list
on the way to the decorator is out of step, or what is thrown is an `Error`. -/
def Misses (w : World L) : Call E → Prop
  | .mutate this m => ∃ c p accessor e,
      Returns (beforeTry D veto this m) w.cleared (some c) ∧ Returns (target this) w.cleared p
        ∧ Returns (accessorOf this) w.cleared accessor
        ∧ Refused D w p.1 c e ∧ Spoils w accessor e
  | .iterate i op => ∃ it c e, w.iterators[i]? = some it
      ∧ Returns (iteratorBeforeTry veto it op) w.cleared (some c)
      ∧ Refused D w it.it c e ∧ Spoils w it.accessor e
  | .setAll col => ∃ added n e,
      Returns (newArrayList col) w.cleared added ∧ Returns (size D none) w.cleared n
        ∧ veto added [0, n] = none ∧ Refused D w 0 (.setAll col) e ∧ Spoils w [] e
  | .removeRange start stop => veto [] [start, stop] = none
      ∧ ∃ e, Refused D w 0 (.removeRange start stop) e
  | _ => False

end Environment

/-! ## Methods that only ask -/

/-- The exception is all that is left of the method. -/
inductive Noted (w : World L) (x : Exn) : World L → Prop
  | thrown : Noted w x w
  | vetoed : Noted w x { w with vetoed := some x }
  | failed : Noted w x { w with failed := some x }

/-- The method asks, and changes nothing. -/
def Quiet {α : Type} (x : Method (World L) α) : Prop :=
  ∀ w, Wp x w (fun _ w' => w' = w) (Noted w)

section Quiet

variable {α β : Type} {x y : Method (World L) α} {f : α → Method (World L) β} {w : World L}

theorem Quiet.pure (a : α) : Quiet (Pure.pure a : Method (World L) α) := fun _ => rfl

theorem Quiet.throw (e : Exn) : Quiet (MonadExcept.throw e : Method (World L) α) :=
  fun _ => .thrown

theorem Quiet.bind (hx : Quiet x) (hf : ∀ a, Quiet (f a)) : Quiet (x >>= f) := by
  intro w
  rw [wp_bind]
  apply (hx w).mono
  · rintro a w' rfl
    exact hf a w'
  · exact fun _ _ h => h

theorem Quiet.get_bind {f : World L → Method (World L) β} (hf : ∀ w, Quiet (f w)) :
    Quiet (get >>= f) := by
  intro w
  rw [wp_bind, wp_get]
  exact hf w w

theorem Quiet.ite (p : Prop) [Decidable p] (hx : Quiet x) (hy : Quiet y) :
    Quiet (if p then x else y) := by
  intro w
  rw [wp_ite]
  exact ⟨fun _ => hx w, fun _ => hy w⟩

theorem Quiet.noted (y : Except Exn α) : Quiet (noted y : Method (World L) α) := by
  intro w
  cases y with
  | ok a => exact rfl
  | error e => exact Noted.failed

theorem Quiet.subListOf (v : ℕ) : Quiet (subListOf v : Method (World L) SubList) := by
  apply Quiet.get_bind
  intro w
  cases w.sublists[v]? with
  | none => exact Quiet.throw _
  | some s => exact Quiet.pure s

theorem Quiet.iteratorOf (i : ℕ) : Quiet (iteratorOf i : Method (World L) Iter) := by
  apply Quiet.get_bind
  intro w
  cases w.iterators[i]? with
  | none => exact Quiet.throw _
  | some it => exact Quiet.pure it

theorem accessorGet_ends (w : World L) (accessor : List ℕ) :
    Wp (accessorGet accessor) w (fun n w' => w' = w ∧ (InStep w accessor → n = w.modCount))
      (fun _ w' => w' = w) := by
  cases accessor with
  | nil => exact ⟨rfl, fun _ => rfl⟩
  | cons v outer =>
    rw [VetoableList.accessorGet, wp_bind, wp_get]
    cases hs : w.sublists[v]? with
    | none => exact rfl
    | some s => exact ⟨rfl, fun hstep => hstep v List.mem_cons_self s hs⟩

theorem Quiet.accessorGet (accessor : List ℕ) :
    Quiet (accessorGet accessor : Method (World L) ℤ) := by
  intro w
  apply (accessorGet_ends w accessor).mono
  · exact fun _ _ h => h.1
  · rintro _ _ rfl
    exact .thrown

theorem Quiet.target (this : Option ℕ) : Quiet (target this : Method (World L) (ℕ × ℤ)) := by
  cases this with
  | none => exact Quiet.pure _
  | some v => exact (Quiet.subListOf v).bind (fun s => Quiet.pure _)

theorem Quiet.accessorOf (this : Option ℕ) :
    Quiet (accessorOf this : Method (World L) (List ℕ)) := by
  cases this with
  | none => exact Quiet.pure _
  | some v => exact (Quiet.subListOf v).bind (fun s => Quiet.pure _)

theorem Quiet.check (this : Option ℕ) :
    Quiet (checkForComodification this : Method (World L) PUnit) := by
  cases this with
  | none => exact Quiet.pure _
  | some v =>
    refine (Quiet.subListOf v).bind (fun s => (Quiet.accessorGet s.accessor).bind (fun n => ?_))
    exact Quiet.ite _ (Quiet.throw _) (Quiet.pure _)

theorem Quiet.iteratorCheck (it : Iter) :
    Quiet (iteratorCheck it : Method (World L) PUnit) := by
  refine (Quiet.accessorGet it.accessor).bind (fun n => ?_)
  exact Quiet.ite _ (Quiet.throw _) (Quiet.pure _)

theorem Quiet.newArrayList (c : Option (List E)) :
    Quiet (newArrayList c : Method (World L) (List E)) := by
  cases c with
  | none => exact Quiet.throw _
  | some c => exact Quiet.pure c

variable (D : Decorated E L) (veto : List E → List ℤ → Option Exn)

theorem Quiet.onProposedChange (toBeAdded : List E) (indexes : List ℤ) :
    Quiet (onProposedChange veto toBeAdded indexes : Method (World L) PUnit) := by
  intro w
  rw [VetoableList.onProposedChange]
  cases veto toBeAdded indexes with
  | none => exact rfl
  | some e => exact Noted.vetoed

/-- The methods of the lists that ask the decorated list something. -/
theorem Quiet.asking (this : Option ℕ) (y : World L → ℕ → Except Exn α) :
    Quiet (do
      checkForComodification this
      let (h, _) ← VetoableList.target this
      let w ← get
      VetoableList.noted (y w h) : Method (World L) α) :=
  (Quiet.check this).bind (fun _ => (Quiet.target this).bind (fun p =>
    Quiet.get_bind (fun w => Quiet.noted (y w p.1))))

theorem Quiet.size (this : Option ℕ) : Quiet (size D this) :=
  Quiet.asking this (fun w h => D.size w.list h)

theorem Quiet.getAt (this : Option ℕ) (index : ℤ) : Quiet (getAt D this index) :=
  Quiet.asking this (fun w h => D.get w.list h index)

theorem Quiet.indexOf (this : Option ℕ) (o : E) : Quiet (indexOf D this o) :=
  Quiet.asking this (fun w h => D.indexOf w.list h o)

theorem Quiet.ask (this : Option ℕ) (q : Query E) : Quiet (ask D this q) :=
  Quiet.asking this (fun w h => D.query w.list h q)

variable [DecidableEq E]

theorem Quiet.toBeRemoved (this : Option ℕ) (offset : ℤ) (col : Option (List E))
    (complement : Bool) (fuel : ℕ) (i : ℤ) (ranges : List (ℤ × ℤ)) :
    Quiet (toBeRemoved D this offset col complement fuel i ranges) := by
  induction fuel generalizing i ranges with
  | zero => exact Quiet.pure ranges
  | succ fuel ih =>
    refine (Quiet.size D this).bind (fun n => Quiet.ite _ ?_ (Quiet.pure ranges))
    refine (Quiet.getAt D this i).bind (fun el => ?_)
    cases col with
    | none => exact Quiet.throw _
    | some col => exact ih _ _

theorem Quiet.removeFromList (this : Option ℕ) (offset : ℤ) (col : Option (List E))
    (complement : Bool) : Quiet (removeFromList D veto this offset col complement) :=
  (Quiet.toBeRemoved D this offset col complement _ 0 []).bind (fun _ =>
    Quiet.ite _ (Quiet.onProposedChange veto [] _) (Quiet.pure _))

/-- Up to its `try` a mutator only asks. -/
theorem Quiet.beforeTry (this : Option ℕ) (m : Mutator E) : Quiet (beforeTry D veto this m) := by
  -- every method begins with the check and the offset
  have hbegin {γ : Type} (g : ℕ × ℤ → Method (World L) γ) (hg : ∀ p, Quiet (g p)) :
      Quiet (checkForComodification this >>= fun _ => VetoableList.target this >>= g) :=
    (Quiet.check this).bind (fun _ => (Quiet.target this).bind hg)
  have hpropose (l : List E) (indexes : List ℤ) (c : Option (Command E)) :
      Quiet (VetoableList.onProposedChange (L := L) veto l indexes >>= fun _ => Pure.pure c) :=
    (Quiet.onProposedChange veto l indexes).bind (fun _ => Quiet.pure _)
  cases m with
  | add e =>
    exact hbegin _ (fun _ => (Quiet.size D this).bind (fun _ =>
      (Quiet.size D this).bind (fun _ => hpropose _ _ _)))
  | remove o =>
    refine (Quiet.check this).bind (fun _ => (Quiet.indexOf D this o).bind (fun i => ?_))
    exact Quiet.ite _ (hbegin _ (fun _ => hpropose _ _ _)) (Quiet.pure _)
  | addAll c =>
    exact hbegin _ (fun _ => (Quiet.newArrayList c).bind (fun _ => (Quiet.size D this).bind
      (fun _ => (Quiet.size D this).bind (fun _ => hpropose _ _ _))))
  | addAllAt index c =>
    exact hbegin _ (fun _ => (Quiet.newArrayList c).bind (fun _ => hpropose _ _ _))
  | removeAll c | retainAll c =>
    exact hbegin _ (fun _ => (Quiet.removeFromList D veto this _ c _).bind (fun _ =>
      Quiet.pure _))
  | clear => exact hbegin _ (fun _ => (Quiet.size D this).bind (fun _ => hpropose _ _ _))
  | addAt index element => exact hbegin _ (fun _ => hpropose _ _ _)
  | removeAt index => exact hbegin _ (fun _ => hpropose _ _ _)

omit [DecidableEq E] in
theorem Quiet.iteratorBeforeTry (it : Iter) (op : IteratorOp E) :
    Quiet (iteratorBeforeTry veto it op : Method (World L) (Option (Command E))) := by
  cases op with
  | remove =>
    refine (Quiet.iteratorCheck it).bind (fun _ => ?_)
    refine Quiet.ite (it.lastReturned = -1) ((Quiet.throw _).bind (fun _ => ?_)) ?_
    all_goals exact (Quiet.onProposedChange veto [] _).bind (fun _ => Quiet.pure _)
  | add e =>
    refine (Quiet.iteratorCheck it).bind (fun _ => ?_)
    exact (Quiet.onProposedChange veto [e] _).bind (fun _ => Quiet.pure _)
  | ask q => exact Quiet.pure _
  | next => exact Quiet.pure _
  | previous => exact Quiet.pure _
  | set e => exact Quiet.pure _

end Quiet

/-! ## Counting up and down -/

/-- The counts of all the lists on the way are assigned. -/
def sync (n : ℤ) (accessor : List ℕ) (sublists : List SubList) : List SubList :=
  accessor.foldr (fun v l => l.modify v (fun s => { s with modCount := n })) sublists

theorem getElem?_sync (n : ℤ) (accessor : List ℕ) (sublists : List SubList) (k : ℕ) :
    (sync n accessor sublists)[k]?
      = sublists[k]?.map (fun s => if k ∈ accessor then { s with modCount := n } else s) := by
  induction accessor with
  | nil => simp [sync]
  | cons v outer ih =>
    rw [sync] at ih
    rw [sync, List.foldr_cons, List.getElem?_modify, ih]
    cases sublists[k]? with
    | none => simp
    | some s =>
      by_cases hv : v = k
      · subst hv
        by_cases hk : v ∈ outer
        · simp [hk]
        · simp [hk]
      · simp [hv, Ne.symm hv]

/-- The last assignment counts. -/
theorem sync_sync (m n : ℤ) (accessor : List ℕ) (sublists : List SubList) :
    sync n accessor (sync m accessor sublists) = sync n accessor sublists := by
  apply List.ext_getElem?
  intro k
  rw [getElem?_sync, getElem?_sync, getElem?_sync, Option.map_map]
  congr 1
  funext s
  by_cases hk : k ∈ accessor
  · simp [hk]
  · simp [hk]

/-- The assignments change nothing if the counts are right already. -/
theorem sync_eq_iff (w : World L) (accessor : List ℕ) :
    sync w.modCount accessor w.sublists = w.sublists ↔ InStep w accessor := by
  constructor
  · intro h v hv s hs
    have hget := getElem?_sync w.modCount accessor w.sublists v
    rw [h, hs, Option.map_some, if_pos hv] at hget
    exact congrArg SubList.modCount (Option.some.inj hget)
  · intro h
    apply List.ext_getElem?
    intro k
    rw [getElem?_sync]
    cases hs : w.sublists[k]? with
    | none => rfl
    | some s =>
      by_cases hk : k ∈ accessor
      · have hcount := h k hk s hs
        simp [hk, ← hcount]
      · simp [hk]

/-- The state after counting. `own` assigns the count of the iterator that counts, if
it is one. -/
def World.counted (w : World L) (n : ℤ) (accessor : List ℕ) (own : ℤ → List Iter → List Iter) :
    World L :=
  { w with
    modCount := n
    sublists := sync n accessor w.sublists
    iterators := own n w.iterators }

/-- A list has no count among the iterators. -/
def noIterator (_ : ℤ) (l : List Iter) : List Iter := l

/-- The count of this iterator. -/
def iteratorCount (i : ℕ) (n : ℤ) (l : List Iter) : List Iter :=
  l.modify i (fun it => { it with modCount := n })

theorem iteratorCount_twice (i : ℕ) (m n : ℤ) (l : List Iter) :
    iteratorCount i n (iteratorCount i m l) = iteratorCount i n l := by
  rw [iteratorCount, iteratorCount, List.modify_modify_eq]
  rfl

section Counting

variable {w : World L} {accessor : List ℕ}

theorem run_incrementAndGet (w : World L) (accessor : List ℕ) :
    (incrementAndGet accessor).run w
      = .ok (w.modCount + 1) (w.counted (w.modCount + 1) accessor noIterator) := by
  induction accessor with
  | nil => rfl
  | cons v outer ih =>
    rw [incrementAndGet, EStateM.run_bind, ih]
    rfl

theorem run_decrementAndGet (w : World L) (accessor : List ℕ) :
    (decrementAndGet accessor).run w
      = .ok (w.modCount - 1) (w.counted (w.modCount - 1) accessor noIterator) := by
  induction accessor with
  | nil => rfl
  | cons v outer ih =>
    rw [decrementAndGet, EStateM.run_bind, ih]
    rfl

/-- The lists on the way to the decorator, the list itself first. -/
def way (w : World L) : Option ℕ → Option (List ℕ)
  | none => some []
  | some v => w.sublists[v]?.map (fun s => v :: s.accessor)

/-- Counting does not change which lists are on the way. -/
theorem way_sync {w' : World L} {n : ℤ} (h : w'.sublists = sync n accessor w.sublists)
    (this : Option ℕ) : way w' this = way w this := by
  cases this with
  | none => rfl
  | some v =>
    simp only [way, h, getElem?_sync, Option.map_map]
    congr 1
    funext s
    by_cases hv : v ∈ accessor
    · simp [hv]
    · simp [hv]

theorem run_accessorOf {this : Option ℕ} (h : way w this = some accessor) :
    (accessorOf this).run w = .ok accessor w := by
  cases this with
  | none =>
    cases h
    rfl
  | some v =>
    rw [way, Option.map_eq_some_iff] at h
    obtain ⟨s, hs, rfl⟩ := h
    simp [accessorOf, subListOf, hs]

theorem run_incrementModCount {this : Option ℕ} (h : way w this = some accessor) :
    (incrementModCount this).run w
      = .ok ⟨⟩ (w.counted (w.modCount + 1) accessor noIterator) := by
  rw [incrementModCount, EStateM.run_bind, run_accessorOf h]
  simp only [EStateM.run_bind, run_incrementAndGet]
  rfl

theorem run_decrementModCount {this : Option ℕ} (h : way w this = some accessor) :
    (decrementModCount this).run w
      = .ok ⟨⟩ (w.counted (w.modCount - 1) accessor noIterator) := by
  rw [decrementModCount, EStateM.run_bind, run_accessorOf h]
  simp only [EStateM.run_bind, run_decrementAndGet]
  rfl

theorem run_iteratorIncrement (w : World L) (i : ℕ) (accessor : List ℕ) :
    (iteratorIncrement i accessor).run w
      = .ok ⟨⟩ (w.counted (w.modCount + 1) accessor (iteratorCount i)) := by
  rw [iteratorIncrement, EStateM.run_bind, run_incrementAndGet]
  rfl

theorem run_iteratorDecrement (w : World L) (i : ℕ) (accessor : List ℕ) :
    (iteratorDecrement i accessor).run w
      = .ok ⟨⟩ (w.counted (w.modCount - 1) accessor (iteratorCount i)) := by
  rw [iteratorDecrement, EStateM.run_bind, run_decrementAndGet]
  rfl

end Counting

/-! ## The `try` -/

/-- The method is right if and only if `p`. -/
def Settles {α : Type} (w : World L) (p : Prop) (x : Method (World L) α) : Prop :=
  Wp x w.cleared (fun _ w' => Calm w' ↔ p) (fun e w' => Excused w e w' ↔ p)

/-- A counting pair of methods, for the commands of one list or iterator. -/
structure Counts (w : World L) (increment decrement : Method (World L) PUnit)
    (accessor : List ℕ) (own : ℤ → List Iter → List Iter) : Prop where
  up : increment.run w = .ok ⟨⟩ (w.counted (w.modCount + 1) accessor own)
  down : ∀ w' n, w'.sublists = sync n accessor w.sublists →
    decrement.run w' = .ok ⟨⟩ (w'.counted (w'.modCount - 1) accessor own)
  twice : ∀ m n l, own n (own m l) = own n l

theorem counts_list {w : World L} {this : Option ℕ} {accessor : List ℕ}
    (h : way w this = some accessor) :
    Counts w (incrementModCount this) (decrementModCount this) accessor noIterator where
  up := run_incrementModCount h
  down _ _ hw' := run_decrementModCount ((way_sync hw' this).trans h)
  twice _ _ _ := rfl

theorem counts_iterator (w : World L) (i : ℕ) (accessor : List ℕ) :
    Counts w (iteratorIncrement i accessor) (iteratorDecrement i accessor) accessor
      (iteratorCount i) where
  up := run_iteratorIncrement w i accessor
  down _ _ _ := run_iteratorDecrement _ i accessor
  twice := iteratorCount_twice i

section Guarded

variable {D : Decorated E L} {w : World L} {increment decrement : Method (World L) PUnit}
  {accessor : List ℕ} {own : ℤ → List Iter → List Iter}

/-- A command either succeeds or is refused and noted. -/
theorem perform_ends (w : World L) (h : ℕ) (c : Command E) :
    Wp (perform D h c) w
      (fun _ w' => (∀ e, ¬ Refused D w h c e) ∧ ∃ l, w' = { w with list := l })
      (fun x w' => Refused D w h c x ∧ ∃ l, w' = { w with list := l, failed := some x }) := by
  rw [perform, wp_bind, wp_get, wp_bind, wp_modify]
  cases hc : (D.perform w.list h c).1 with
  | ok ret =>
    refine ⟨?_, _, rfl⟩
    intro e he
    rw [Refused, hc] at he
    exact nomatch he
  | error e => exact ⟨hc, _, rfl⟩

theorem Refused.unique {h : ℕ} {c : Command E} {x y : Exn} (hx : Refused D w h c x)
    (hy : Refused D w h c y) : x = y := by
  rw [Refused, hx] at hy
  exact Except.error.inj hy

/-- A refused command leaves the count of the decorator in all lists on the way, or one
more. -/
theorem guarded_ends (hcounts : Counts w increment decrement accessor own) (hw : Calm w) (h : ℕ)
    (c : Command E) :
    Wp (guarded D increment decrement h c) w
      (fun _ w' => (∀ e, ¬ Refused D w h c e) ∧ Calm w')
      (fun x w' => Refused D w h c x ∧ ∃ l, w'
        = { w.counted (if x.isException then w.modCount else w.modCount + 1) accessor own with
              list := l, failed := some x }) := by
  rw [guarded, wp_catchException, wp_bind]
  refine Wp.of_ok hcounts.up ?_
  rw [wp_bind]
  apply (perform_ends _ h c).mono
  · rintro ret w' ⟨hrefused, l, rfl⟩
    have hrefused' : ∀ e, ¬ Refused D w h c e := hrefused
    -- taking the count back does not throw
    have hdown := hcounts.down
      { w.counted (w.modCount + 1) accessor own with list := l } (w.modCount + 1) rfl
    refine (wp_ite _ _).mpr ⟨fun _ => ?_, fun _ => ⟨hrefused', hw⟩⟩
    cases ret with
    | bool b =>
      cases b with
      | false => exact wp_bind.mpr (Wp.of_ok hdown ⟨hrefused', hw⟩)
      | true => exact ⟨hrefused', hw⟩
    | none | int _ | element _ | elements _ => exact ⟨hrefused', hw⟩
  · rintro x w' ⟨hrefused, l, rfl⟩
    have hdown := hcounts.down
      { w.counted (w.modCount + 1) accessor own with list := l, failed := some x }
      (w.modCount + 1) rfl
    cases hexc : x.isException with
    | true =>
      rw [if_pos rfl, wp_bind]
      refine Wp.of_ok hdown ⟨hrefused, l, ?_⟩
      simp only [World.counted, sync_sync, hcounts.twice, add_sub_cancel_right, if_pos hexc]
    | false =>
      refine ⟨hrefused, l, ?_⟩
      simp only [Bool.false_eq_true, if_false]

/-- A refused command is excused if the counts have been restored. -/
theorem guarded_excused (hcounts : Counts w.cleared increment decrement accessor own)
    (hown : InStep w accessor → own w.modCount w.iterators = w.iterators) (h : ℕ)
    (c : Command E) :
    Wp (guarded D increment decrement h c) w.cleared
      (fun _ w' => (∀ e, ¬ Refused D w h c e) ∧ Calm w')
      (fun x w' => Refused D w h c x ∧ (Excused w x w' ↔ ¬ Spoils w accessor x)) := by
  apply (guarded_ends (D := D) hcounts ⟨rfl, rfl⟩ h c).mono
  · exact fun _ _ h => h
  · rintro x w' ⟨hrefused, l, rfl⟩
    refine ⟨hrefused, ?_⟩
    cases hexc : x.isException with
    | true =>
      rw [Spoils, hexc, Classical.not_imp, not_not]
      constructor
      · intro hexcused
        exact ⟨rfl, (sync_eq_iff w accessor).mp (hexcused.failed x rfl).2.sublists⟩
      · rintro ⟨-, hstep⟩
        refine ⟨nofun, ?_⟩
        rintro e ⟨⟩
        exact ⟨rfl, rfl, (sync_eq_iff w accessor).mpr hstep, hown hstep⟩
    | false =>
      refine iff_of_false ?_ ?_
      · intro hexcused
        have hcount : w.modCount + 1 = w.modCount := (hexcused.failed x rfl).2.modCount
        omega
      · intro hspoils
        exact hspoils (fun h => Bool.noConfusion (hexc.symm.trans h))

/-- What is left to say of a call that has come to its command. -/
theorem guarded_settles {p : Prop} {h : ℕ} {c : Command E} {f : Answer E → Method (World L) (Answer E)}
    (hcounts : Counts w.cleared increment decrement accessor own)
    (hown : InStep w accessor → own w.modCount w.iterators = w.iterators)
    (hp : ¬ p ↔ ∃ e, Refused D w h c e ∧ Spoils w accessor e)
    (hf : ∀ a w', Calm w' → Wp (f a) w' (fun _ w'' => Calm w'') (fun _ _ => False)) :
    Settles w p (guarded D increment decrement h c >>= f) := by
  rw [Settles, wp_bind]
  apply (guarded_excused (D := D) hcounts hown h c).mono
  · rintro a w' ⟨hrefused, hcalm⟩
    have hp' : p := by
      by_contra hnot
      obtain ⟨e, he, -⟩ := hp.mp hnot
      exact hrefused e he
    apply (hf a w' hcalm).mono
    · exact fun _ _ hcalm' => iff_of_true hcalm' hp'
    · exact fun _ _ h => h.elim
  · rintro x w' ⟨hrefused, hexcused⟩
    rw [hexcused, ← not_iff_not, not_not, hp]
    constructor
    · exact fun hspoils => ⟨x, hrefused, hspoils⟩
    · rintro ⟨e, he, hspoils⟩
      rwa [hrefused.unique he]

end Guarded

/-! ## The calls -/

section Settles

variable {α β : Type} {w : World L} {p : Prop} {x : Method (World L) α}
  {f : α → Method (World L) β} {D : Decorated E L} {veto : List E → List ℤ → Option Exn}

theorem Settles.iff (h : Settles w p x) :
    Wp x w.cleared (fun _ w' => Calm w') (Excused w) ↔ p := by
  rw [Settles, Wp] at h
  rw [Wp]
  cases hx : x.run w.cleared with
  | ok a w' =>
    rw [hx] at h
    exact h
  | error e w' =>
    rw [hx] at h
    exact h

theorem Settles.of_true (h : Settles w True x) (hp : p) : Settles w p x := by
  rwa [iff_true_intro hp]

/-- What is noted by a method that only asks is excused. -/
theorem Noted.excused {e : Exn} {w' : World L} (h : Noted w.cleared e w') : Excused w e w' := by
  cases h with
  | thrown => exact ⟨nofun, nofun⟩
  | vetoed =>
    refine ⟨?_, nofun⟩
    rintro _ ⟨⟩
    exact ⟨rfl, rfl, rfl, rfl, rfl⟩
  | failed =>
    refine ⟨nofun, ?_⟩
    rintro _ ⟨⟩
    exact ⟨rfl, rfl, rfl, rfl⟩

/-- A method that asks goes first: it returns, or the call ends with it. -/
theorem Quiet.bind_settles (hx : Quiet x)
    (hreturns : ∀ a, Returns x w.cleared a → Settles w p (f a))
    (hthrows : (∀ a, ¬ Returns x w.cleared a) → p) : Settles w p (x >>= f) := by
  have hquiet := hx w.cleared
  rw [Settles, wp_bind]
  rw [Wp] at hquiet ⊢
  cases hrun : x.run w.cleared with
  | ok a w' =>
    rw [hrun] at hquiet
    have hw' : w' = w.cleared := hquiet
    subst hw'
    exact hreturns a (Wp.of_ok hrun rfl)
  | error e w' =>
    rw [hrun] at hquiet
    refine iff_of_true hquiet.excused (hthrows ?_)
    intro a ha
    rw [Returns, Wp, hrun] at ha
    exact ha

/-- If there is nothing to miss later, the method that asks does not matter. -/
theorem Quiet.bind_right (hx : Quiet x) (hf : ∀ a, Settles w True (f a)) :
    Settles w True (x >>= f) :=
  hx.bind_settles (fun a _ => hf a) (fun _ => trivial)

theorem Quiet.right (hx : Quiet x) : Settles w True x := by
  apply (hx w.cleared).mono
  · rintro a w' rfl
    exact iff_of_true ⟨rfl, rfl⟩ trivial
  · exact fun e w' h => iff_of_true h.excused trivial

/-- So does one command outside a `try`. -/
theorem perform_right (h : ℕ) (c : Command E) {f : Answer E → Method (World L) β}
    (hf : ∀ a w', Calm w' → Wp (f a) w' (fun _ w'' => Calm w'') (fun _ _ => False)) :
    Settles w True (perform D h c >>= f) := by
  rw [Settles, wp_bind]
  apply (perform_ends w.cleared h c).mono
  · rintro a w' ⟨-, l, rfl⟩
    apply (hf a _ ⟨rfl, rfl⟩).mono
    · exact fun _ _ hcalm => iff_of_true hcalm trivial
    · exact fun _ _ h => h.elim
  · rintro e w' ⟨-, l, rfl⟩
    refine iff_of_true ⟨nofun, ?_⟩ trivial
    rintro _ ⟨⟩
    exact ⟨rfl, rfl, rfl, rfl⟩

theorem perform_only_right (h : ℕ) (c : Command E) : Settles w True (perform D h c) := by
  have hperform := perform_right (w := w) (D := D) h c (f := pure) (fun _ _ hcalm => hcalm)
  rwa [bind_pure] at hperform

/-- Returning is deterministic, and goes through what is returned before. -/
theorem Returns.unique {a b : α} (ha : Returns x w a) (hb : Returns x w b) : a = b := by
  rw [Returns, Wp] at ha hb
  cases hx : x.run w with
  | ok c w' =>
    rw [hx] at ha hb
    exact ha.symm.trans hb
  | error e w' =>
    rw [hx] at ha
    exact ha.elim

theorem Returns.of_wp {a : α} {P : α → Prop} (h : Returns x w a)
    (hx : Wp x w (fun b _ => P b) (fun _ _ => True)) : P a := by
  rw [Returns, Wp] at h
  rw [Wp] at hx
  cases hrun : x.run w with
  | ok b w' =>
    rw [hrun] at h hx
    exact h ▸ hx
  | error e w' =>
    rw [hrun] at h
    exact h.elim

theorem Returns.of_bind {b : β} (hx : Quiet x) (h : Returns (x >>= f) w b) :
    ∃ a, Returns x w a ∧ Returns (f a) w b := by
  have hquiet := hx w
  rw [Returns, wp_bind, Wp] at h
  rw [Wp] at hquiet
  cases hrun : x.run w with
  | ok a w' =>
    rw [hrun] at h hquiet
    have hw' : w' = w := hquiet
    subst hw'
    exact ⟨a, Wp.of_ok hrun rfl, h⟩
  | error e w' =>
    rw [hrun] at h
    exact h.elim

theorem iterator_of_returns {i : ℕ} {it : Iter} (h : Returns (iteratorOf i) w it) :
    w.iterators[i]? = some it := by
  rw [Returns, iteratorOf, wp_bind, wp_get] at h
  cases hi : w.iterators[i]? with
  | none =>
    rw [hi] at h
    exact h.elim
  | some it' =>
    rw [hi] at h
    exact congrArg some h

theorem returns_iteratorOf {i : ℕ} {it : Iter} (h : w.iterators[i]? = some it) :
    Returns (iteratorOf i) w it := by
  rw [Returns, iteratorOf, wp_bind, wp_get, h]
  exact rfl

theorem onProposedChange_returns {l : List E} {indexes : List ℤ} {u : PUnit}
    (h : Returns (onProposedChange veto l indexes) w u) : veto l indexes = none := by
  rw [Returns, onProposedChange] at h
  cases hveto : veto l indexes with
  | none => rfl
  | some e =>
    rw [hveto] at h
    exact h.elim

theorem returns_onProposedChange {l : List E} {indexes : List ℤ} (h : veto l indexes = none) :
    Returns (onProposedChange veto l indexes) w ⟨⟩ := by
  rw [Returns, onProposedChange, h]
  exact rfl

/-- A list that has a target has a way to the decorator. -/
theorem way_of_target {this : Option ℕ} {q : ℕ × ℤ} (h : Returns (target this) w q) :
    ∃ accessor, way w this = some accessor := by
  cases this with
  | none => exact ⟨[], rfl⟩
  | some v =>
    obtain ⟨s, hs, -⟩ := h.of_bind (Quiet.subListOf v)
    rw [Returns, VetoableList.subListOf, wp_bind, wp_get] at hs
    cases hv : w.sublists[v]? with
    | none =>
      rw [hv] at hs
      exact hs.elim
    | some s => exact ⟨v :: s.accessor, by rw [way, hv, Option.map_some]⟩

variable [DecidableEq E]

theorem mutate_settles (this : Option ℕ) (m : Mutator E) :
    Settles w (¬ Misses D veto w (.mutate this m)) (call D veto (.mutate this m)) := by
  apply (Quiet.beforeTry D veto this m).bind_settles
  · intro c hc
    cases c with
    | none =>
      refine iff_of_true ⟨rfl, rfl⟩ ?_
      rintro ⟨c, q, accessor, e, hc', -⟩
      exact nomatch hc.unique hc'
    | some c =>
      apply (Quiet.target this).bind_settles
      · rintro q hq
        obtain ⟨accessor, hway⟩ := way_of_target hq
        have haccessor : Returns (accessorOf this) w.cleared accessor :=
          Wp.of_ok (run_accessorOf hway) rfl
        -- nothing in the condition is left open but the refusal and the counts
        have hmisses : Misses D veto w (.mutate this m)
            ↔ ∃ e, Refused D w q.1 c e ∧ Spoils w accessor e := by
          constructor
          · rintro ⟨c', q', accessor', e, hc', hq', haccessor', h⟩
            cases hc.unique hc'
            cases hq.unique hq'
            cases haccessor.unique haccessor'
            exact ⟨e, h⟩
          · exact fun ⟨e, h⟩ => ⟨c, q, accessor, e, hc, hq, haccessor, h⟩
        have hends := guarded_settles (D := D) (w := w) (f := pure) (counts_list hway)
          (fun _ => rfl) (not_not.trans hmisses) (fun _ _ hcalm => hcalm)
        rwa [bind_pure] at hends
      · rintro hnone ⟨_, q, _, _, _, hq, _⟩
        exact hnone q hq
  · rintro hnone ⟨c, _, _, _, hc, _⟩
    exact hnone (some c) hc

theorem setAt_settles (this : Option ℕ) (index : ℤ) (element : E) :
    Settles w True (call D veto (.setAt this index element)) := by
  refine (Quiet.check this).bind_right (fun _ => (Quiet.target this).bind_right (fun q => ?_))
  exact (Quiet.onProposedChange veto _ _).bind_right (fun _ => perform_only_right _ _)

theorem newView_settles (this : Option ℕ) (v : View) :
    Settles w True (call D veto (.newView this v)) := by
  refine (Quiet.check this).bind_right (fun _ => (Quiet.target this).bind_right (fun q => ?_))
  refine (Quiet.accessorOf this).bind_right (fun accessor => ?_)
  rw [Settles, wp_bind, wp_get, wp_bind, wp_modify, wp_bind]
  cases (D.view w.cleared.list q.1 v).1 with
  | error e =>
    refine iff_of_true ⟨nofun, ?_⟩ trivial
    rintro _ ⟨⟩
    exact ⟨rfl, rfl, rfl, rfl⟩
  | ok made =>
    refine wp_bind.mpr ?_
    apply (accessorGet_ends _ accessor).mono
    · rintro n _ ⟨rfl, -⟩
      cases v with
      | iterator | listIterator | listIteratorAt _ | subList _ _ =>
        exact iff_of_true ⟨rfl, rfl⟩ trivial
    · rintro e _ rfl
      exact iff_of_true ⟨nofun, nofun⟩ trivial

theorem setAll_settles (col : Option (List E)) :
    Settles w (¬ Misses D veto w (.setAll col)) (call D veto (.setAll col)) := by
  apply (Quiet.newArrayList col).bind_settles
  · intro added hadded
    apply (Quiet.size D none).bind_settles
    · intro n hn
      apply (Quiet.onProposedChange veto added [0, n]).bind_settles
      · intro _ hproposed
        have hveto := onProposedChange_returns hproposed
        have hmisses : Misses D veto w (.setAll col)
            ↔ ∃ e, Refused D w 0 (.setAll col) e ∧ Spoils w [] e := by
          constructor
          · rintro ⟨_, _, e, _, _, _, h⟩
            exact ⟨e, h⟩
          · exact fun ⟨e, h⟩ => ⟨added, n, e, hadded, hn, hveto, h⟩
        have hends := guarded_settles (D := D) (w := w) (f := pure)
          (@counts_list _ _ none _ rfl) (fun _ => rfl) (not_not.trans hmisses)
          (fun _ _ hcalm => hcalm)
        rwa [bind_pure] at hends
      · rintro hnone ⟨added', n', _, hadded', hn', hveto, _⟩
        cases hadded.unique hadded'
        cases hn.unique hn'
        exact hnone _ (returns_onProposedChange hveto)
    · rintro hnone ⟨_, n, _, _, hn, _⟩
      exact hnone n hn
  · rintro hnone ⟨added, _, _, hadded, _⟩
    exact hnone added hadded

theorem removeRange_settles (start stop : ℤ) :
    Settles w (¬ Misses D veto w (.removeRange start stop))
      (call D veto (.removeRange start stop)) := by
  apply (Quiet.onProposedChange veto [] [start, stop]).bind_settles
  · intro _ hproposed
    have hveto := onProposedChange_returns hproposed
    rw [Settles, wp_catchException, wp_bind]
    refine Wp.of_ok (@run_incrementModCount _ _ [] none rfl) ?_
    rw [wp_bind]
    apply (perform_ends _ 0 _).mono
    · rintro _ w' ⟨hrefused, l, rfl⟩
      exact iff_of_true ⟨rfl, rfl⟩ (fun ⟨_, e, he⟩ => hrefused e he)
    · rintro x w' ⟨hrefused, l, rfl⟩
      have hmisses : Misses D veto w (.removeRange start stop) := ⟨hveto, x, hrefused⟩
      cases hexc : x.isException with
      | true =>
        -- the handler returns, with the exception noted
        rw [if_pos rfl, wp_bind]
        refine Wp.of_ok (@run_decrementModCount _ _ [] none rfl) ?_
        exact iff_of_false (fun h => nomatch h.2) (fun h => h hmisses)
      | false =>
        refine iff_of_false ?_ (fun h => h hmisses)
        intro hexcused
        have hcount : w.modCount + 1 = w.modCount := (hexcused.failed x rfl).2.modCount
        omega
  · rintro hnone ⟨hveto, -⟩
    exact hnone _ (returns_onProposedChange hveto)

/-- An iterator whose check has passed is in step with the lists around it. -/
theorem iteratorCheck_ends (w : World L) (it : Iter) :
    Wp (iteratorCheck it) w (fun _ _ => InStep w it.accessor → it.modCount = w.modCount)
      (fun _ _ => True) := by
  rw [iteratorCheck, wp_bind]
  apply (accessorGet_ends w it.accessor).mono
  · rintro n _ ⟨rfl, hn⟩
    refine (wp_ite _ _).mpr ⟨fun _ => trivial, fun hcount hstep => ?_⟩
    exact (not_not.mp hcount).trans (hn hstep)
  · exact fun _ _ _ => trivial

omit [DecidableEq E] in
/-- Up to its `try` a counting method of an iterator checks, and then asks for its
command. -/
theorem iteratorBeforeTry_ends (w : World L) (it : Iter) {op : IteratorOp E} {c : Command E}
    (hop : op = .remove ∧ c = .iteratorRemove ∨ ∃ e, op = .add e ∧ c = .iteratorAdd e) :
    Wp (iteratorBeforeTry veto it op) w
      (fun c' _ => c' = some c ∧ (InStep w it.accessor → it.modCount = w.modCount))
      (fun _ _ => True) := by
  have hpropose {w' : World L} (l : List E) (indexes : List ℤ) (c' : Option (Command E))
      {Q : Option (Command E) → World L → Prop} (hQ : ∀ w'', Q c' w'') :
      Wp (onProposedChange veto l indexes >>= fun _ => pure c') w' Q (fun _ _ => True) := by
    rw [wp_bind]
    apply (Quiet.onProposedChange veto l indexes w').mono
    · exact fun _ w'' _ => hQ w''
    · exact fun _ _ _ => trivial
  obtain ⟨rfl, rfl⟩ | ⟨e, rfl, rfl⟩ := hop
  · rw [iteratorBeforeTry, wp_bind]
    apply (iteratorCheck_ends w it).mono
    · intro _ _ hcount
      refine (wp_ite _ _).mpr ⟨fun _ => trivial, fun _ => ?_⟩
      exact hpropose _ _ _ (fun _ => ⟨rfl, hcount⟩)
    · exact fun _ _ _ => trivial
  · rw [iteratorBeforeTry, wp_bind]
    apply (iteratorCheck_ends w it).mono
    · exact fun _ _ hcount => hpropose _ _ _ (fun _ => ⟨rfl, hcount⟩)
    · exact fun _ _ _ => trivial

/-- The methods of an iterator that count. -/
theorem counting_settles {i : ℕ} {it : Iter} (hit : w.iterators[i]? = some it)
    {op : IteratorOp E} {c : Command E} (f : Iter → Iter)
    (hop : op = .remove ∧ c = .iteratorRemove ∨ ∃ e, op = .add e ∧ c = .iteratorAdd e) :
    Settles w (¬ Misses D veto w (.iterate i op)) (do
      let _ ← iteratorBeforeTry veto it op
      let _ ← guarded D (iteratorIncrement i it.accessor) (iteratorDecrement i it.accessor) it.it c
      assignIterator i f
      return .none : Method (World L) (Answer E)) := by
  have hends {c' : Option (Command E)} (hc' : Returns (iteratorBeforeTry veto it op) w.cleared c') :
      c' = some c ∧ (InStep w it.accessor → it.modCount = w.modCount) :=
    hc'.of_wp (iteratorBeforeTry_ends w.cleared it hop)
  apply (Quiet.iteratorBeforeTry veto it op).bind_settles
  · intro c' hc'
    obtain ⟨rfl, hcheck⟩ := hends hc'
    have hmisses : Misses D veto w (.iterate i op)
        ↔ ∃ e, Refused D w it.it c e ∧ Spoils w it.accessor e := by
      constructor
      · rintro ⟨it', c', e, hit', hc'', h⟩
        cases hit.symm.trans hit'
        cases (hends hc'').1
        exact ⟨e, h⟩
      · exact fun ⟨e, h⟩ => ⟨it, c, e, hit, hc', h⟩
    -- assigning the count of the iterator again changes nothing
    have hown (hstep : InStep w it.accessor) :
        iteratorCount i w.modCount w.iterators = w.iterators := by
      apply List.ext_getElem?
      intro k
      rw [iteratorCount, List.getElem?_modify]
      by_cases hk : i = k
      · subst hk
        simp [hit, ← hcheck hstep]
      · simp [hk]
    exact guarded_settles (D := D) (w := w) (counts_iterator w.cleared i it.accessor) hown
      (not_not.trans hmisses) (fun _ _ hcalm => hcalm)
  · rintro hnone ⟨it', c', e, hit', hc', -⟩
    cases hit.symm.trans hit'
    exact hnone _ hc'

theorem iterate_settles (i : ℕ) (op : IteratorOp E) :
    Settles w (¬ Misses D veto w (.iterate i op)) (call D veto (.iterate i op)) := by
  have hmissesNot (hop : ∀ it, iteratorBeforeTry (L := L) veto it op = pure none) :
      ¬ Misses D veto w (.iterate i op) := by
    rintro ⟨it, c, e, -, hc, -⟩
    rw [hop it] at hc
    exact nomatch hc
  -- the methods that do not count begin with the check
  have hcheck {g : Iter → Method (World L) (Answer E)} (hg : ∀ it, Settles w True (g it)) :
      Settles w True (iteratorOf i >>= fun it => iteratorCheck it >>= fun _ => g it) :=
    (Quiet.iteratorOf i).bind_right (fun it => (Quiet.iteratorCheck it).bind_right (fun _ => hg it))
  have hmoves (it : Iter) (c : Command E) (f : Iter → Iter) :
      Settles w True (do
        let e ← perform D it.it c
        assignIterator i f
        return e : Method (World L) (Answer E)) :=
    perform_right it.it c (fun _ _ hcalm => hcalm)
  have hcounts (c : Command E) (f : Iter → Iter)
      (hop : op = .remove ∧ c = .iteratorRemove ∨ ∃ e, op = .add e ∧ c = .iteratorAdd e) :
      Settles w (¬ Misses D veto w (.iterate i op)) (iteratorOf i >>= fun it => (do
        let _ ← iteratorBeforeTry veto it op
        let _ ← guarded D (iteratorIncrement i it.accessor) (iteratorDecrement i it.accessor)
          it.it c
        assignIterator i f
        return .none : Method (World L) (Answer E))) := by
    apply (Quiet.iteratorOf i).bind_settles
    · exact fun it hit => counting_settles (w := w) (iterator_of_returns (w := w.cleared) hit) f hop
    · rintro hnone ⟨it, _, _, hit, -⟩
      exact hnone it (returns_iteratorOf hit)
  cases op with
  | ask q =>
    exact (hcheck (fun it => (Quiet.get_bind (fun w => Quiet.noted _)).right)).of_true
      (hmissesNot (fun _ => rfl))
  | next => exact (hcheck (fun it => hmoves it _ _)).of_true (hmissesNot (fun _ => rfl))
  | previous => exact (hcheck (fun it => hmoves it _ _)).of_true (hmissesNot (fun _ => rfl))
  | set e =>
    refine (hcheck (fun it => ?_)).of_true (hmissesNot (fun _ => rfl))
    have hset : Settles w True (onProposedChange veto [e]
        [it.offset + it.lastReturned, it.offset + it.lastReturned + 1] >>= fun _ =>
        perform D it.it (.iteratorSet e)) :=
      (Quiet.onProposedChange veto _ _).bind_right (fun _ => perform_only_right _ _)
    refine (wp_ite _ _).mpr ⟨fun _ => ?_, fun _ => hset⟩
    exact (Quiet.throw (α := PUnit) Exn.illegalState).bind_right (fun _ => hset)
  | remove => exact hcounts _ _ (Or.inl ⟨rfl, rfl⟩)
  | add e => exact hcounts _ _ (Or.inr ⟨e, rfl, rfl⟩)

end Settles

/-! ## The condition -/

section Main

variable [DecidableEq E]

/-- Whatever the decorated list and `onProposedChange` throw, a call is right unless its
command is refused and it is `remove(int, int)`, or a list around it is out of step. -/
theorem vetoableList_right_iff (D : Decorated E L) (veto : List E → List ℤ → Option Exn)
    (w : World L) (c : Call E) : Right D veto w c ↔ ¬ Misses D veto w c := by
  apply Settles.iff
  cases c with
  | ask this q => exact (Quiet.ask D this q).right.of_true not_false
  | mutate this m => exact mutate_settles this m
  | setAt this index element => exact (setAt_settles this index element).of_true not_false
  | newView this v => exact (newView_settles this v).of_true not_false
  | setAll col => exact setAll_settles col
  | removeRange start stop => exact removeRange_settles start stop
  | iterate i op => exact iterate_settles i op

/-- A decorated list that cannot be changed. -/
def unmodifiable : Decorated E Unit where
  size _ _ := .ok 0
  get _ _ _ := .error .indexOutOfBounds
  indexOf _ _ _ := .ok (-1)
  query _ _ _ := .ok .none
  perform _ _ _ := (.error .unsupportedOperation, ())
  view _ _ _ := (.error .unsupportedOperation, ())

/-- A decorator nothing has been done with. -/
def World.new (list : L) : World L := ⟨0, [], [], list, none, none⟩

/-- `remove(0, 0)` of a decorated list that refuses it returns. -/
theorem vetoableList_removeRange_returns :
    ¬ ∀ c : Call ℕ, Right unmodifiable (fun _ _ => none) (World.new ()) c := by
  intro h
  have hcalm : (some Exn.unsupportedOperation : Option Exn) = none := (h (.removeRange 0 0)).2
  exact nomatch hcalm

end Main

end JavaFx.Collections.VetoableList
