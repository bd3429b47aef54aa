/-
`ObservableSequentialListWrapper.listIterator`: what its calls report.

The iterator moves over the backing list with the backing list's own iterator, changes
the list through it, and reports the change with `nextSet`, `nextAdd` or `nextRemove`. It
takes the index of a `set` or `remove` from `previousIndex`, which is the element's index
after `next` but one too low after `previous`, and the element that was there before from
the last move, which a `set` since then has replaced.

`listIterator_reports_iff` says which sequences of calls report what they do.

`beginChange` and `endChange` stand around every change; nothing is read from them here.
-/
import JavaFx.Lib.Java

set_option autoImplicit false

namespace JavaFx.Collections

open JavaFx.Lib

/-- `java.util.ListIterator`: the list it changes, the index of the next element and that
of the element last returned, which is lost when that element is removed or another one
is added. -/
structure BackingIterator (E : Type) where
  list : List E
  cursor : ℕ
  lastRet : Option ℕ

namespace BackingIterator

variable {E : Type} (it : BackingIterator E)

def nextIndex : ℤ := it.cursor

def previousIndex : ℤ := it.cursor - 1

def next : Except Exn (BackingIterator E × E) :=
  match it.list[it.cursor]? with
  | some e => .ok ({ it with cursor := it.cursor + 1, lastRet := some it.cursor }, e)
  | none => .error .noSuchElement

def previous : Except Exn (BackingIterator E × E) :=
  if it.cursor = 0 then .error .noSuchElement
  else match it.list[it.cursor - 1]? with
    | some e => .ok ({ it with cursor := it.cursor - 1, lastRet := some (it.cursor - 1) }, e)
    | none => .error .noSuchElement

def set (e : E) : Except Exn (BackingIterator E) :=
  match it.lastRet with
  | some i => .ok { it with list := it.list.set i e }
  | none => .error .illegalState

def remove : Except Exn (BackingIterator E) :=
  match it.lastRet with
  | some i => .ok
      { list := it.list.eraseIdx i
        cursor := if i < it.cursor then it.cursor - 1 else it.cursor
        lastRet := none }
  | none => .error .illegalState

def add (e : E) : BackingIterator E where
  list := it.list.insertIdx it.cursor e
  cursor := it.cursor + 1
  lastRet := none

end BackingIterator

/-- The calls of the iterator. -/
inductive IteratorCall (E : Type)
  | next
  | previous
  | remove
  | set (e : E)
  | add (e : E)

/-- What is reported to the list; a `null` element is `none`. -/
inductive IteratorReport (E : Type)
  | nextSet (idx : ℤ) (old : Option E)
  | nextAdd (fromIdx toIdx : ℤ)
  | nextRemove (idx : ℤ) (removed : Option E)
  deriving DecidableEq

/-- The iterator that `listIterator` returns. -/
structure SequentialListIterator (E : Type) where
  backingIt : BackingIterator E
  lastReturned : Option E

namespace SequentialListIterator

variable {E : Type}

/-- `listIterator`. -/
def listIterator (backingList : List E) (index : ℤ) : Except Exn (SequentialListIterator E) :=
  if 0 ≤ index ∧ index ≤ backingList.length then
    .ok ⟨⟨backingList, index.toNat, none⟩, none⟩
  else .error .indexOutOfBounds

variable (it : SequentialListIterator E)

def next : Except Exn (SequentialListIterator E × List (IteratorReport E)) := do
  let (backingIt, e) ← it.backingIt.next
  return (⟨backingIt, some e⟩, [])

def previous : Except Exn (SequentialListIterator E × List (IteratorReport E)) := do
  let (backingIt, e) ← it.backingIt.previous
  return (⟨backingIt, some e⟩, [])

def remove : Except Exn (SequentialListIterator E × List (IteratorReport E)) := do
  let idx := it.backingIt.previousIndex
  let backingIt ← it.backingIt.remove
  return ({ it with backingIt }, [.nextRemove idx it.lastReturned])

def set (e : E) : Except Exn (SequentialListIterator E × List (IteratorReport E)) := do
  let idx := it.backingIt.previousIndex
  let backingIt ← it.backingIt.set e
  return ({ it with backingIt }, [.nextSet idx it.lastReturned])

def add (e : E) : Except Exn (SequentialListIterator E × List (IteratorReport E)) := do
  let idx := it.backingIt.nextIndex
  let backingIt := it.backingIt.add e
  return ({ it with backingIt }, [.nextAdd idx (idx + 1)])

def call : IteratorCall E → Except Exn (SequentialListIterator E × List (IteratorReport E))
  | .next => it.next
  | .previous => it.previous
  | .remove => it.remove
  | .set e => it.set e
  | .add e => it.add e

/-- The calls in turn, with all that they report. -/
def run (it : SequentialListIterator E) :
    List (IteratorCall E) → Except Exn (SequentialListIterator E × List (IteratorReport E))
  | [] => .ok (it, [])
  | c :: calls => do
      let (it₁, reports) ← it.call c
      let (it₂, reports') ← it₁.run calls
      return (it₂, reports ++ reports')

/-! ## What should be reported -/

/-- The change that a call makes in the backing list: the index it is made at and the
element that was there before. -/
def changed : IteratorCall E → List (IteratorReport E)
  | .next | .previous => []
  | .remove => match it.backingIt.lastRet with
      | some i => [.nextRemove i it.backingIt.list[i]?]
      | none => []
  | .set _ => match it.backingIt.lastRet with
      | some i => [.nextSet i it.backingIt.list[i]?]
      | none => []
  | .add _ => [.nextAdd it.backingIt.cursor (it.backingIt.cursor + 1)]

/-- The changes that the calls make in turn. -/
def changes (it : SequentialListIterator E) : List (IteratorCall E) → List (IteratorReport E)
  | [] => []
  | c :: calls =>
    it.changed c ++ match it.call c with
      | .ok (it₁, _) => it₁.changes calls
      | .error _ => []

/-- The last move, and what has been put in the place of its element by a `set` since. -/
structure Past (E : Type) where
  forward : Option Bool
  put : Option E

/-- The past, one call later. -/
def Past.after (p : Past E) : IteratorCall E → Past E
  | .next => ⟨some true, none⟩
  | .previous => ⟨some false, none⟩
  | .set e => { p with put := some e }
  | .remove | .add _ => p

/-- A `set` or `remove` comes after `next`, and no `set` in between has put another
element in the place of the one that `next` returned. -/
def Forward (p : Past E) : IteratorCall E → Prop
  | .remove | .set _ => p.forward = some true ∧ ∀ e ∈ p.put, it.lastReturned = some e
  | .next | .previous | .add _ => True

/-- All the calls are such calls. -/
def AllForward (it : SequentialListIterator E) (p : Past E) : List (IteratorCall E) → Prop
  | [] => True
  | c :: calls => Forward it p c ∧ ∀ it₁ reports, it.call c = .ok (it₁, reports) →
      AllForward it₁ (p.after c) calls

/-! ## One call -/

/-- Where the element last returned stands, as long as it can be set or removed. -/
structure Knows (p : Past E) : Prop where
  after_next : ∀ i, it.backingIt.lastRet = some i → p.forward = some true →
    i + 1 = it.backingIt.cursor
  after_previous : ∀ i, it.backingIt.lastRet = some i → p.forward ≠ some true →
    i = it.backingIt.cursor
  element : ∀ i, it.backingIt.lastRet = some i → i < it.backingIt.list.length
    ∧ it.backingIt.list[i]? = p.put.or it.lastReturned

variable {it} {it' : SequentialListIterator E} {p : Past E} {c : IteratorCall E}
  {reports : List (IteratorReport E)}

/-- Nothing is known of a last element, and nothing need be. -/
theorem knows_of_lastRet_none (h : it.backingIt.lastRet = none) : it.Knows p := by
  have hno : ∀ i, it.backingIt.lastRet ≠ some i := fun i => by
    rw [h]
    exact nofun
  exact ⟨fun i hi => absurd hi (hno i), fun i hi => absurd hi (hno i),
    fun i hi => absurd hi (hno i)⟩

theorem knows_listIterator {backingList : List E} {index : ℤ}
    (h : listIterator backingList index = .ok it) : it.Knows ⟨none, none⟩ := by
  apply knows_of_lastRet_none
  rw [listIterator] at h
  split_ifs at h
  rw [← Except.ok.inj h]

/-- The index and the element that a `set` or `remove` reports. -/
theorem Knows.reported_iff (h : it.Knows p) {i : ℕ} (hi : it.backingIt.lastRet = some i) :
    it.backingIt.previousIndex = i ∧ it.lastReturned = it.backingIt.list[i]?
      ↔ p.forward = some true ∧ ∀ e ∈ p.put, it.lastReturned = some e := by
  have helement := (h.element i hi).2
  rw [BackingIterator.previousIndex, helement]
  by_cases hforward : p.forward = some true
  · have hcursor := h.after_next i hi hforward
    rw [and_iff_right hforward, and_iff_right (by omega)]
    cases hput : p.put <;> simp
  · have hcursor := h.after_previous i hi hforward
    constructor
    · rintro ⟨hindex, -⟩
      omega
    · exact fun hp => absurd hp.1 hforward

/-- One call: what is known afterwards, and when it reports the change it makes. -/
theorem call_spec (h : it.Knows p) (hcall : it.call c = .ok (it', reports)) :
    it'.Knows (p.after c) ∧ reports.length = (it.changed c).length
      ∧ (reports = it.changed c ↔ it.Forward p c) := by
  cases c with
  | next =>
    rw [call, next, BackingIterator.next] at hcall
    cases hget : it.backingIt.list[it.backingIt.cursor]? with
    | none => simp [hget] at hcall
    | some e =>
      simp only [hget, ok_bind, pure_eq_ok, Except.ok.injEq, Prod.mk.injEq] at hcall
      obtain ⟨rfl, rfl⟩ := hcall
      refine ⟨⟨?_, ?_, ?_⟩, rfl, iff_of_true rfl trivial⟩
      · rintro i ⟨⟩ -
        rfl
      · exact fun i _ hnot => absurd rfl hnot
      · rintro i ⟨⟩
        exact ⟨(List.getElem?_eq_some_iff.mp hget).1, hget⟩
  | previous =>
    rw [call, previous, BackingIterator.previous] at hcall
    split_ifs at hcall with hzero
    · cases hcall
    · cases hget : it.backingIt.list[it.backingIt.cursor - 1]? with
      | none => simp [hget] at hcall
      | some e =>
        simp only [hget, ok_bind, pure_eq_ok, Except.ok.injEq, Prod.mk.injEq] at hcall
        obtain ⟨rfl, rfl⟩ := hcall
        refine ⟨⟨?_, ?_, ?_⟩, rfl, iff_of_true rfl trivial⟩
        · rintro i - ⟨⟩
        · rintro i ⟨⟩ -
          rfl
        · rintro i ⟨⟩
          exact ⟨(List.getElem?_eq_some_iff.mp hget).1, hget⟩
  | remove =>
    rw [call, remove, BackingIterator.remove] at hcall
    cases hlast : it.backingIt.lastRet with
    | none => simp [hlast] at hcall
    | some i =>
      simp only [hlast, ok_bind, pure_eq_ok, Except.ok.injEq, Prod.mk.injEq] at hcall
      obtain ⟨rfl, rfl⟩ := hcall
      have hchanged : it.changed .remove = [.nextRemove i it.backingIt.list[i]?] := by
        rw [changed, hlast]
      refine ⟨knows_of_lastRet_none rfl, ?_, ?_⟩
      · rw [hchanged]
        rfl
      · rw [Forward, ← h.reported_iff hlast, hchanged, List.cons.injEq,
          IteratorReport.nextRemove.injEq]
        simp
  | set e =>
    rw [call, set, BackingIterator.set] at hcall
    cases hlast : it.backingIt.lastRet with
    | none => simp [hlast] at hcall
    | some i =>
      simp only [hlast, ok_bind, pure_eq_ok, Except.ok.injEq, Prod.mk.injEq] at hcall
      obtain ⟨rfl, rfl⟩ := hcall
      have hchanged : it.changed (.set e) = [.nextSet i it.backingIt.list[i]?] := by
        rw [changed, hlast]
      refine ⟨⟨fun j hj => h.after_next j (hlast.trans hj),
        fun j hj => h.after_previous j (hlast.trans hj), ?_⟩, ?_, ?_⟩
      · rintro j ⟨⟩
        have hlt := (h.element i hlast).1
        refine ⟨?_, ?_⟩
        · rwa [List.length_set]
        · rw [List.getElem?_set_self hlt]
          rfl
      · rw [hchanged]
        rfl
      · rw [Forward, ← h.reported_iff hlast, hchanged, List.cons.injEq,
          IteratorReport.nextSet.injEq]
        simp
  | add e =>
    rw [call, add] at hcall
    obtain ⟨rfl, rfl⟩ := Prod.mk.inj (Except.ok.inj hcall)
    exact ⟨knows_of_lastRet_none rfl, rfl, iff_of_true rfl trivial⟩

/-! ## Runs -/

theorem run_reports_iff {calls : List (IteratorCall E)} (h : it.Knows p)
    (hrun : it.run calls = .ok (it', reports)) :
    reports = it.changes calls ↔ it.AllForward p calls := by
  induction calls generalizing it p reports with
  | nil =>
    obtain ⟨-, rfl⟩ := Prod.mk.inj (Except.ok.inj hrun)
    exact iff_of_true rfl trivial
  | cons c calls ih =>
    rw [run] at hrun
    cases hcall : it.call c with
    | error e => simp [hcall] at hrun
    | ok r =>
      obtain ⟨it₁, reports₁⟩ := r
      simp only [hcall, ok_bind] at hrun
      cases hrest : it₁.run calls with
      | error e => simp [hrest] at hrun
      | ok r =>
        obtain ⟨it₂, reports₂⟩ := r
        simp only [hrest, ok_bind, pure_eq_ok, Except.ok.injEq, Prod.mk.injEq] at hrun
        obtain ⟨hknows, hlength, hreports⟩ := call_spec h hcall
        obtain ⟨rfl, rfl⟩ := hrun
        rw [changes, hcall, AllForward, ← hreports]
        constructor
        · intro heq
          obtain ⟨h₁, h₂⟩ := List.append_inj heq hlength
          refine ⟨h₁, fun it₃ reports₃ hcall₃ => ?_⟩
          obtain ⟨rfl, rfl⟩ := Prod.mk.inj (Except.ok.inj (hcall.symm.trans hcall₃))
          exact (ih hknows hrest).mp h₂
        · rintro ⟨h₁, h₂⟩
          have h₂ := (ih hknows hrest).mpr (h₂ it₁ reports₁ hcall)
          dsimp only
          rw [h₁, h₂]

/-- **The list iterator.** A legal sequence of calls reports exactly the changes it makes
if and only if every `set` and `remove` in it comes after `next`, with no other element
set in the meantime. -/
theorem listIterator_reports_iff {backingList : List E} {index : ℤ} {calls : List (IteratorCall E)}
    (hit : listIterator backingList index = .ok it) (hrun : it.run calls = .ok (it', reports)) :
    reports = it.changes calls ↔ it.AllForward ⟨none, none⟩ calls :=
  run_reports_iff (knows_listIterator hit) hrun

theorem listIterator_reports_twice :
    ([.nextRemove 0 (some 5), .nextAdd 0 1] : List (IteratorReport ℕ))
        = changes ⟨⟨[5, 7], 0, none⟩, none⟩ [.next, .remove, .add 3]
      ↔ AllForward ⟨⟨[5, 7], 0, none⟩, none⟩ ⟨none, none⟩ [.next, .remove, .add 3] :=
  @listIterator_reports_iff ℕ _ ⟨⟨[3, 7], 1, none⟩, some 5⟩ _ [5, 7] 0 _ rfl rfl

/-- After `previous` the second of two elements is removed, and the removal of the first
one is reported. -/
theorem listIterator_not_reports :
    ¬ ∀ (backingList : List ℕ) (index : ℤ) (calls : List (IteratorCall ℕ))
      (it it' : SequentialListIterator ℕ) (reports : List (IteratorReport ℕ)),
      listIterator backingList index = .ok it → it.run calls = .ok (it', reports) →
        reports = it.changes calls := by
  intro h
  have hreports := h [5, 7] 2 [.previous, .remove] ⟨⟨[5, 7], 2, none⟩, none⟩
    ⟨⟨[5], 1, none⟩, some 7⟩ [.nextRemove 0 (some 7)] rfl rfl
  revert hreports
  decide

end SequentialListIterator

end JavaFx.Collections
