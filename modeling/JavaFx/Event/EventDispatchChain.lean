/-
What an `EventDispatcher` may do, and what is expected of the tail it does it to.

`dispatchEvent(event, tail)` of a dispatcher is any program that appends and prepends
dispatchers to the tail, dispatches events on it, and at last returns an event. Which
program it is may depend on everything that happened before, so a call is given the
program of whichever dispatcher the tail turns out to call: `callee`. What it does
next depends on the event it got back: `rest`.

The tail of a chain is, for those who use it, a list of dispatchers, and `onList` says
what the program does to it and which calls are made meanwhile.
-/
import JavaFx.Lib.Java
import Mathlib.Tactic.Common
import Mathlib.Data.List.Chain

set_option autoImplicit false

namespace JavaFx.Event

/-- A program on the tail; `D` are the dispatchers and `E` the events. -/
inductive Program (D E : Type)
  | done (result : E)
  | append (eventDispatcher : D) (rest : Program D E)
  | prepend (eventDispatcher : D) (rest : Program D E)
  | dispatchEvent (event : E) (callee : D → E → Program D E) (rest : E → Program D E)

/-- A call of a dispatcher, with the event and the tail it is given. -/
structure Call (D E T : Type) where
  dispatcher : D
  event : E
  tail : T
  deriving Repr, DecidableEq

/-- What a program leaves behind: the tail, the event returned and the calls made. -/
structure Outcome (D E T : Type) where
  tail : T
  result : E
  calls : List (Call D E T)
  deriving Repr, DecidableEq

variable {D E : Type}

/-- The program on a list of dispatchers. To dispatch is to call the first with the
others as its tail, whatever it does with them. -/
def Program.onList : Program D E → List D → Outcome D E (List D)
  | .done result, tail => ⟨tail, result, []⟩
  | .append d rest, tail => rest.onList (tail ++ [d])
  | .prepend d rest, tail => rest.onList (d :: tail)
  | .dispatchEvent event _ rest, [] => (rest event).onList []
  | .dispatchEvent event callee rest, d :: tail =>
    let called := (callee d event).onList tail
    let after := (rest called.result).onList (d :: tail)
    ⟨after.tail, after.result, ⟨d, event, tail⟩ :: called.calls ++ after.calls⟩

end JavaFx.Event

/-!
`EventDispatchChainImpl`: a list of dispatchers in two arrays that grow.

A dispatcher stands in a slot, and the slot of the next one is its link. Slots are
taken in turn and given back all at once: `dispatchEvent` lets the dispatcher work on
the same arrays with the rest of the list and afterwards puts back four numbers. So
the arrays are full of what earlier calls have left behind, among it links of slots
still in use: appending to the tail sets the link of the last slot of the list.

That is no harm, as no one looks at the link of the last slot. `Frame` says what a
program on the tail leaves alone, `Holds` which list the arrays stand for, and
`Holds.run` that every program does to the arrays what it does to the list.
-/

namespace JavaFx.Event

open JavaFx.Lib

/-- The fields of a chain; an array that is `null` has no elements. -/
structure EventDispatchChain (D : Type) where
  dispatchers : List (Option D)
  nextLinks : List ℕ
  reservedCount : ℕ
  activeCount : ℕ
  headIndex : ℕ
  tailIndex : ℕ
  deriving Repr, DecidableEq

namespace EventDispatchChain

variable {D E : Type}

/-! ## The methods -/

/-- The constructor. -/
def new : EventDispatchChain D := ⟨[], [], 0, 0, 0, 0⟩

/-- `reset`. -/
def reset (c : EventDispatchChain D) : EventDispatchChain D :=
  ⟨List.replicate c.reservedCount none ++ c.dispatchers.drop c.reservedCount, c.nextLinks, 0, 0, 0, 0⟩

/-- `ensureCapacity`; the capacity is the size rounded up to the next multiple of
`CAPACITY_GROWTH_FACTOR`. -/
def ensureCapacity (c : EventDispatchChain D) (size : ℕ) : Except Exn (EventDispatchChain D) := do
  let newCapacity := (size + 8 - 1) / 8 * 8
  if newCapacity = 0 then
    return c
  if c.dispatchers.length < newCapacity then
    let newDispatchers ←
      arraycopy c.dispatchers 0 (List.replicate newCapacity none) 0 c.reservedCount
    let newLinks ← arraycopy c.nextLinks 0 (List.replicate newCapacity 0) 0 c.reservedCount
    return { c with dispatchers := newDispatchers, nextLinks := newLinks }
  return c

/-- `insertFirst`. -/
def insertFirst (c : EventDispatchChain D) (d : D) : Except Exn (EventDispatchChain D) := do
  let dispatchers ← aset c.dispatchers c.reservedCount (some d)
  return { c with
    dispatchers, headIndex := c.reservedCount, tailIndex := c.reservedCount, activeCount := 1
    reservedCount := c.reservedCount + 1 }

/-- `append`. -/
def append (c : EventDispatchChain D) (d : D) : Except Exn (EventDispatchChain D) := do
  let c ← c.ensureCapacity (c.reservedCount + 1)
  if c.activeCount = 0 then
    c.insertFirst d
  else
    let dispatchers ← aset c.dispatchers c.reservedCount (some d)
    let nextLinks ← aset c.nextLinks c.tailIndex c.reservedCount
    return { c with
      dispatchers, nextLinks, tailIndex := c.reservedCount, activeCount := c.activeCount + 1
      reservedCount := c.reservedCount + 1 }

/-- `prepend`. -/
def prepend (c : EventDispatchChain D) (d : D) : Except Exn (EventDispatchChain D) := do
  let c ← c.ensureCapacity (c.reservedCount + 1)
  if c.activeCount = 0 then
    c.insertFirst d
  else
    let dispatchers ← aset c.dispatchers c.reservedCount (some d)
    let nextLinks ← aset c.nextLinks c.reservedCount c.headIndex
    return { c with
      dispatchers, nextLinks, headIndex := c.reservedCount, activeCount := c.activeCount + 1
      reservedCount := c.reservedCount + 1 }

/-- The dispatchers from a slot on. -/
def follow (c : EventDispatchChain D) : (count index : ℕ) → Option (List D)
  | 0, _ => some []
  | count + 1, index => do
      let d ← (c.dispatchers[index]?).join
      let next ← c.nextLinks[index]?
      let ds ← c.follow count next
      return d :: ds

/-- The list of dispatchers that the arrays stand for. -/
def toList (c : EventDispatchChain D) : Option (List D) := c.follow c.activeCount c.headIndex

/-- `dispatchEvent`; `call` is what the dispatcher does. The calls made are recorded
with the list in the arrays at that moment. -/
def dispatchEvent (c : EventDispatchChain D) (event : E)
    (call : D → EventDispatchChain D →
      Except Exn (EventDispatchChain D × E × List (Call D E (Option (List D))))) :
    Except Exn (EventDispatchChain D × E × List (Call D E (Option (List D)))) := do
  if c.activeCount = 0 then
    return (c, event, [])
  let some nextEventDispatcher ← aget c.dispatchers c.headIndex | throw .nullPointer
  let headIndex ← aget c.nextLinks c.headIndex
  let tail := { c with headIndex, activeCount := c.activeCount - 1 }
  let (called, returnEvent, calls) ← call nextEventDispatcher tail
  -- pop saved state
  return ({ called with
      headIndex := c.headIndex, tailIndex := c.tailIndex, activeCount := c.activeCount
      reservedCount := c.reservedCount },
    returnEvent, ⟨nextEventDispatcher, event, tail.toList⟩ :: calls)

/-- A program on the chain. -/
def run : Program D E → EventDispatchChain D →
    Except Exn (EventDispatchChain D × E × List (Call D E (Option (List D))))
  | .done result, c => .ok (c, result, [])
  | .append d rest, c => do
      let c ← c.append d
      run rest c
  | .prepend d rest, c => do
      let c ← c.prepend d
      run rest c
  | .dispatchEvent event callee rest, c => do
      let (c, returnEvent, calls) ← c.dispatchEvent event (fun d tail => run (callee d event) tail)
      let (c, result, later) ← run (rest returnEvent) c
      return (c, result, calls ++ later)

/-! ## What the arrays stand for -/

/-- The list `ds` is in the arrays, in these slots. -/
structure Holds (c : EventDispatchChain D) (slots : List ℕ) (ds : List D) : Prop where
  activeCount : c.activeCount = slots.length
  dispatchers : slots.map (fun i => c.dispatchers[i]?) = ds.map (fun d => some (some d))
  links : slots.IsChain (fun i j => c.nextLinks[i]? = some j)
  nodup : slots.Nodup
  reserved : ∀ i ∈ slots, i < c.reservedCount
  head : ∀ i ∈ slots.head?, c.headIndex = i
  tail : ∀ i ∈ slots.getLast?, c.tailIndex = i
  capacity : c.reservedCount ≤ c.dispatchers.length
  length_eq : c.nextLinks.length = c.dispatchers.length

/-- What programs on the chain leave alone: the slots taken before, except for the
link of the slot that was the last one. -/
structure Frame (c c' : EventDispatchChain D) : Prop where
  reserved : c.reservedCount ≤ c'.reservedCount
  capacity : c'.reservedCount ≤ c'.dispatchers.length
  length_eq : c'.nextLinks.length = c'.dispatchers.length
  dispatchers : ∀ i < c.reservedCount, c'.dispatchers[i]? = c.dispatchers[i]?
  links : ∀ i < c.reservedCount, i ≠ c.tailIndex → c'.nextLinks[i]? = c.nextLinks[i]?
  tail : c'.tailIndex = c.tailIndex ∨ c.reservedCount ≤ c'.tailIndex

variable {c c' c'' : EventDispatchChain D} {slots : List ℕ} {ds : List D} {d : D} {i : ℕ}

theorem Frame.trans (h : Frame c c') (h' : Frame c' c'') : Frame c c'' := by
  refine ⟨h.reserved.trans h'.reserved, h'.capacity, h'.length_eq, fun i hi => ?_,
    fun i hi hne => ?_, ?_⟩
  · rw [h'.dispatchers i (by have := h.reserved; omega), h.dispatchers i hi]
  · have hne' : i ≠ c'.tailIndex := by
      rcases h.tail with htail | htail
      · rwa [htail]
      · omega
    rw [h'.links i (by have := h.reserved; omega) hne', h.links i hi hne]
  · rcases h'.tail with htail' | htail'
    · rw [htail']
      exact h.tail
    · exact .inr (h.reserved.trans htail')

theorem Holds.frame_refl (h : Holds c slots ds) : Frame c c :=
  ⟨le_refl _, h.capacity, h.length_eq, fun _ _ => rfl, fun _ _ _ => rfl, .inl rfl⟩

/-- A chain is a path of links. -/
theorem follow_of_links (hlength : c.nextLinks.length = c.dispatchers.length)
    (hds : slots.map (fun i => c.dispatchers[i]?) = ds.map (fun d => some (some d)))
    (hlinks : slots.IsChain (fun i j => c.nextLinks[i]? = some j))
    (hhead : ∀ j ∈ slots.head?, i = j) : c.follow slots.length i = some ds := by
  induction slots generalizing i ds with
  | nil =>
    rw [List.map_nil, eq_comm, List.map_eq_nil_iff] at hds
    rw [hds]
    rfl
  | cons j slots ih =>
    obtain rfl : i = j := hhead j rfl
    cases ds with
    | nil => simp at hds
    | cons d ds =>
      rw [List.map_cons, List.map_cons, List.cons.injEq] at hds
      obtain ⟨hlt, -⟩ := List.getElem?_eq_some_iff.mp hds.1
      rw [← hlength] at hlt
      obtain ⟨hlink, hlinks⟩ := List.isChain_cons.mp hlinks
      have hrest : ∀ j ∈ slots.head?, c.nextLinks[i] = j := by
        intro j hj
        have := hlink j hj
        rw [List.getElem?_eq_getElem hlt] at this
        exact Option.some.inj this
      rw [List.length_cons, follow, hds.1, List.getElem?_eq_getElem hlt]
      simp only [Option.join_some, Option.bind_eq_bind, Option.bind_some, ih hds.2 hlinks hrest,
        Option.pure_def]

theorem Holds.toList (h : Holds c slots ds) : c.toList = some ds := by
  rw [EventDispatchChain.toList, h.activeCount]
  exact follow_of_links h.length_eq h.dispatchers h.links h.head

theorem holds_new : Holds (new : EventDispatchChain D) [] [] := by
  constructor <;> simp [new]

/-- `reset` makes any chain an empty one. -/
theorem Holds.reset (h : Holds c slots ds) : Holds c.reset [] [] := by
  have hcapacity := h.capacity
  have hlength := h.length_eq
  constructor <;> simp [EventDispatchChain.reset]
  omega

/-! ## The specifications of the methods -/

/-- Growing an array keeps what stands in the part copied. -/
theorem getElem?_grow {α : Type} {a b : List α} {n i : ℕ} (hi : i < n) (hn : n ≤ a.length) :
    (b.take 0 ++ (a.drop 0).take n ++ b.drop (0 + n))[i]? = a[i]? := by
  rw [List.take_zero, List.nil_append, List.drop_zero,
    List.getElem?_append_left (by rw [List.length_take]; omega), List.getElem?_take_of_lt hi]

/-- There is room for one more dispatcher, and nothing that is in use has changed. -/
theorem ensureCapacity_spec (hcapacity : c.reservedCount ≤ c.dispatchers.length)
    (hlength : c.nextLinks.length = c.dispatchers.length) :
    ∃ dispatchers nextLinks, c.ensureCapacity (c.reservedCount + 1)
        = .ok { c with dispatchers, nextLinks }
      ∧ nextLinks.length = dispatchers.length ∧ c.reservedCount < dispatchers.length
      ∧ (∀ i < c.reservedCount, dispatchers[i]? = c.dispatchers[i]?)
      ∧ ∀ i < c.reservedCount, nextLinks[i]? = c.nextLinks[i]? := by
  have hpos : (c.reservedCount + 1 + 8 - 1) / 8 * 8 ≠ 0 := by omega
  have hle : c.reservedCount < (c.reservedCount + 1 + 8 - 1) / 8 * 8 := by omega
  rw [EventDispatchChain.ensureCapacity, if_neg hpos]
  generalize (c.reservedCount + 1 + 8 - 1) / 8 * 8 = newCapacity at hle
  by_cases hgrow : c.dispatchers.length < newCapacity
  · rw [if_pos hgrow, arraycopy_ok (by omega) (by rw [List.length_replicate]; omega), ok_bind,
      arraycopy_ok (by omega) (by rw [List.length_replicate]; omega), ok_bind]
    refine ⟨_, _, rfl, ?_, ?_, fun i hi => getElem?_grow hi hcapacity,
      fun i hi => getElem?_grow hi (by omega)⟩
    · simp only [List.length_append, List.length_take, List.length_drop, List.length_replicate]
      omega
    · simp only [List.length_append, List.length_take, List.length_drop, List.length_replicate]
      omega
  · rw [if_neg hgrow]
    exact ⟨_, _, rfl, hlength, by omega, fun _ _ => rfl, fun _ _ => rfl⟩

/-- The link of the last slot does not matter. -/
theorem Holds.links_of_agree (h : Holds c slots ds) (nextLinks : List ℕ)
    (hlinks : ∀ i ∈ slots, i ≠ c.tailIndex → nextLinks[i]? = c.nextLinks[i]?) :
    slots.IsChain (fun i j => nextLinks[i]? = some j) := by
  rw [List.isChain_iff_forall_rel_of_append_cons_cons]
  intro i j before after hslots
  have hlink := List.isChain_iff_forall_rel_of_append_cons_cons.mp h.links hslots
  -- `i` is not the last slot, as the last one comes after `j`
  obtain ⟨last, hlast⟩ : ∃ last, (j :: after).getLast? = some last := ⟨_, List.getLast?_cons⟩
  have htail : c.tailIndex = last := by
    refine h.tail last ?_
    rw [hslots, List.getLast?_append, List.getLast?_cons_cons, hlast]
    rfl
  have hne : i ≠ c.tailIndex := by
    rintro rfl
    have hnodup := h.nodup
    rw [hslots, List.nodup_append] at hnodup
    have hmem := List.mem_of_getLast? hlast
    rw [← htail] at hmem
    exact (List.nodup_cons.mp hnodup.2.1).1 hmem
  rw [hlinks i (by rw [hslots]; simp) hne]
  exact hlink

/-- The list is still there when only slots not in use and the last link changed. -/
theorem Holds.transport (h : Holds c slots ds) (hactive : c'.activeCount = c.activeCount)
    (hhead : c'.headIndex = c.headIndex) (htail : c'.tailIndex = c.tailIndex)
    (hreserved : c'.reservedCount = c.reservedCount)
    (hcapacity : c'.reservedCount ≤ c'.dispatchers.length)
    (hlength : c'.nextLinks.length = c'.dispatchers.length)
    (hdispatchers : ∀ i < c.reservedCount, c'.dispatchers[i]? = c.dispatchers[i]?)
    (hlinks : ∀ i < c.reservedCount, i ≠ c.tailIndex → c'.nextLinks[i]? = c.nextLinks[i]?) :
    Holds c' slots ds where
  activeCount := hactive.trans h.activeCount
  dispatchers := by
    rw [← h.dispatchers]
    exact List.map_congr_left fun i hi => hdispatchers i (h.reserved i hi)
  links := h.links_of_agree _ fun i hi => hlinks i (h.reserved i hi)
  nodup := h.nodup
  reserved := by rw [hreserved]; exact h.reserved
  head := by rw [hhead]; exact h.head
  tail := by rw [htail]; exact h.tail
  capacity := hcapacity
  length_eq := hlength

/-- Writing to the first free slot does not change the slots in use. -/
theorem Holds.map_set (h : Holds c slots ds) (v : Option D) :
    slots.map (fun i => (c.dispatchers.set c.reservedCount v)[i]?)
      = ds.map (fun d => some (some d)) := by
  rw [← h.dispatchers]
  refine List.map_congr_left fun i hi => ?_
  have := h.reserved i hi
  rw [List.getElem?_set_ne (by omega)]

/-- A list without elements is anywhere. -/
theorem insertFirst_spec (hcapacity : c.reservedCount < c.dispatchers.length)
    (hlength : c.nextLinks.length = c.dispatchers.length) (d : D) :
    ∃ c', c.insertFirst d = .ok c' ∧ Holds c' [c.reservedCount] [d] ∧ Frame c c' := by
  rw [insertFirst, aset_ok _ hcapacity]
  refine ⟨_, rfl, ⟨rfl, ?_, List.isChain_singleton _, List.nodup_singleton _, ?_, ?_, ?_, ?_, ?_⟩,
    ⟨Nat.le_succ _, ?_, ?_, fun i hi => ?_, fun _ _ _ => rfl, .inr (le_refl _)⟩⟩
  · simp [hcapacity]
  · simp
  · simp
  · simp
  · simpa [Nat.succ_le_iff] using hcapacity
  · simpa using hlength
  · simpa [Nat.succ_le_iff] using hcapacity
  · simpa using hlength
  · rw [List.getElem?_set_ne (by omega)]

/-- The last slot of a list is linked to the first free one. -/
theorem Holds.link_last (h : Holds c slots ds) (hne : slots ≠ [])
    (hcapacity : c.reservedCount < c.dispatchers.length) (d : D) :
    let c' : EventDispatchChain D :=
      { c with
        dispatchers := c.dispatchers.set c.reservedCount (some d)
        nextLinks := c.nextLinks.set c.tailIndex c.reservedCount
        tailIndex := c.reservedCount, activeCount := c.activeCount + 1
        reservedCount := c.reservedCount + 1 }
    Holds c' (slots ++ [c.reservedCount]) (ds ++ [d]) ∧ Frame c c' := by
  have hlast := List.getLast?_eq_some_getLast hne
  have htail := h.tail _ hlast
  have hlt := h.reserved _ (List.getLast_mem hne)
  have hlinks := h.links_of_agree (c.nextLinks.set c.tailIndex c.reservedCount)
    (fun i _ hi => List.getElem?_set_ne (Ne.symm hi))
  refine ⟨⟨?_, ?_, ?_, ?_, ?_, ?_, ?_, ?_, ?_⟩, ⟨Nat.le_succ _, ?_, ?_, fun i hi => ?_,
    fun i hi hi' => ?_, .inr (le_refl _)⟩⟩
  · rw [List.length_append, List.length_singleton, ← h.activeCount]
  · rw [List.map_append, List.map_append, h.map_set, List.map_singleton, List.map_singleton,
      List.getElem?_set_self hcapacity]
  · refine hlinks.append (List.isChain_singleton _) ?_
    intro i hi j hj
    obtain rfl : c.reservedCount = j := Option.some.inj hj
    rw [hlast] at hi
    obtain rfl : slots.getLast hne = i := Option.some.inj hi
    rw [htail]
    exact List.getElem?_set_self (by have := h.length_eq; omega)
  · refine List.nodup_append.mpr ⟨h.nodup, List.nodup_singleton _, ?_⟩
    intro i hi j hj
    rw [List.mem_singleton.mp hj]
    exact (h.reserved i hi).ne
  · intro i hi
    rcases List.mem_append.mp hi with hi | hi
    · exact (h.reserved i hi).trans (Nat.lt_succ_self _)
    · rw [List.mem_singleton.mp hi]
      exact Nat.lt_succ_self _
  · rw [List.head?_append_of_ne_nil _ hne]
    exact h.head
  · intro i hi
    rw [List.getLast?_concat] at hi
    exact Option.some.inj hi
  · rw [List.length_set]
    exact hcapacity
  · rw [List.length_set, List.length_set]
    exact h.length_eq
  · rw [List.length_set]
    exact hcapacity
  · rw [List.length_set, List.length_set]
    exact h.length_eq
  · rw [List.getElem?_set_ne (by omega)]
  · rw [List.getElem?_set_ne (Ne.symm hi')]

/-- The first free slot is linked to the first slot of a list. -/
theorem Holds.link_first (h : Holds c slots ds) (hne : slots ≠ [])
    (hcapacity : c.reservedCount < c.dispatchers.length) (d : D) :
    let c' : EventDispatchChain D :=
      { c with
        dispatchers := c.dispatchers.set c.reservedCount (some d)
        nextLinks := c.nextLinks.set c.reservedCount c.headIndex
        headIndex := c.reservedCount, activeCount := c.activeCount + 1
        reservedCount := c.reservedCount + 1 }
    Holds c' (c.reservedCount :: slots) (d :: ds) ∧ Frame c c' := by
  have hfree : ∀ i ∈ slots, c.reservedCount ≠ i := fun i hi => (h.reserved i hi).ne'
  have hlinks := h.links_of_agree (c.nextLinks.set c.reservedCount c.headIndex)
    (fun i hi _ => List.getElem?_set_ne (hfree i hi))
  refine ⟨⟨?_, ?_, ?_, ?_, ?_, ?_, ?_, ?_, ?_⟩, ⟨Nat.le_succ _, ?_, ?_, fun i hi => ?_,
    fun i hi hi' => ?_, .inl rfl⟩⟩
  · rw [List.length_cons, ← h.activeCount]
  · rw [List.map_cons, List.map_cons, h.map_set, List.getElem?_set_self hcapacity]
  · refine hlinks.cons fun i hi => ?_
    rw [← h.head i hi]
    exact List.getElem?_set_self (by have := h.length_eq; omega)
  · exact List.nodup_cons.mpr ⟨fun hmem => hfree _ hmem rfl, h.nodup⟩
  · intro i hi
    rcases List.mem_cons.mp hi with rfl | hi
    · exact Nat.lt_succ_self _
    · exact (h.reserved i hi).trans (Nat.lt_succ_self _)
  · intro i hi
    exact Option.some.inj hi
  · intro i hi
    rw [List.getLast?_cons, List.getLast?_eq_some_getLast hne, Option.getD_some] at hi
    exact h.tail i ((List.getLast?_eq_some_getLast hne).trans hi)
  · rw [List.length_set]
    exact hcapacity
  · rw [List.length_set, List.length_set]
    exact h.length_eq
  · rw [List.length_set]
    exact hcapacity
  · rw [List.length_set, List.length_set]
    exact h.length_eq
  · rw [List.getElem?_set_ne (by omega)]
  · rw [List.getElem?_set_ne (by omega)]

/-- The list in the arrays that `ensureCapacity` has provided. -/
theorem Holds.ensureCapacity (h : Holds c slots ds) :
    ∃ c', c.ensureCapacity (c.reservedCount + 1) = .ok c' ∧ Holds c' slots ds ∧ Frame c c'
      ∧ c'.reservedCount < c'.dispatchers.length := by
  obtain ⟨dispatchers, nextLinks, hensure, hlength, hcapacity, hdispatchers, hlinks⟩ :=
    ensureCapacity_spec h.capacity h.length_eq
  exact ⟨_, hensure,
    h.transport rfl rfl rfl rfl hcapacity.le hlength hdispatchers (fun i hi _ => hlinks i hi),
    ⟨le_refl _, hcapacity.le, hlength, hdispatchers, fun i hi _ => hlinks i hi, .inl rfl⟩,
    hcapacity⟩

theorem Holds.eq_nil (h : Holds c slots ds) (hactive : c.activeCount = 0) :
    slots = [] ∧ ds = [] := by
  have hslots : slots = [] := List.eq_nil_of_length_eq_zero (h.activeCount ▸ hactive)
  have hds := h.dispatchers
  rw [hslots, List.map_nil, eq_comm, List.map_eq_nil_iff] at hds
  exact ⟨hslots, hds⟩

theorem Holds.ne_nil (h : Holds c slots ds) (hactive : c.activeCount ≠ 0) : slots ≠ [] := by
  rintro rfl
  exact hactive h.activeCount

theorem Holds.append (h : Holds c slots ds) (d : D) :
    ∃ c' slots', c.append d = .ok c' ∧ Holds c' slots' (ds ++ [d]) ∧ Frame c c' := by
  obtain ⟨c₁, hensure, h₁, hframe, hcapacity⟩ := h.ensureCapacity
  rw [EventDispatchChain.append, hensure, ok_bind]
  by_cases hactive : c₁.activeCount = 0
  · obtain ⟨rfl, rfl⟩ := h₁.eq_nil hactive
    obtain ⟨c', hc', hholds, hinsert⟩ := insertFirst_spec hcapacity h₁.length_eq d
    rw [if_pos hactive]
    exact ⟨c', _, hc', hholds, hframe.trans hinsert⟩
  · have hne := h₁.ne_nil hactive
    have htail := h₁.tail _ (List.getLast?_eq_some_getLast hne)
    have hlt := h₁.reserved _ (List.getLast_mem hne)
    have hlength := h₁.length_eq
    obtain ⟨hholds, hlink⟩ := h₁.link_last hne hcapacity d
    rw [if_neg hactive, aset_ok _ hcapacity, ok_bind, aset_ok _ (by omega), ok_bind]
    exact ⟨_, _, rfl, hholds, hframe.trans hlink⟩

theorem Holds.prepend (h : Holds c slots ds) (d : D) :
    ∃ c' slots', c.prepend d = .ok c' ∧ Holds c' slots' (d :: ds) ∧ Frame c c' := by
  obtain ⟨c₁, hensure, h₁, hframe, hcapacity⟩ := h.ensureCapacity
  rw [EventDispatchChain.prepend, hensure, ok_bind]
  by_cases hactive : c₁.activeCount = 0
  · obtain ⟨rfl, rfl⟩ := h₁.eq_nil hactive
    obtain ⟨c', hc', hholds, hinsert⟩ := insertFirst_spec hcapacity h₁.length_eq d
    rw [if_pos hactive]
    exact ⟨c', _, hc', hholds, hframe.trans hinsert⟩
  · have hlength := h₁.length_eq
    obtain ⟨hholds, hlink⟩ := h₁.link_first (h₁.ne_nil hactive) hcapacity d
    rw [if_neg hactive, aset_ok _ hcapacity, ok_bind, aset_ok _ (by omega), ok_bind]
    exact ⟨_, _, rfl, hholds, hframe.trans hlink⟩

/-- The tail that the first dispatcher is given. -/
theorem Holds.pop (h : Holds c (i :: slots) (d :: ds)) :
    c.headIndex = i ∧ aget c.dispatchers i = .ok (some d)
      ∧ ∃ next, aget c.nextLinks i = .ok next
        ∧ Holds { c with headIndex := next, activeCount := c.activeCount - 1 } slots ds := by
  have hdispatchers := h.dispatchers
  rw [List.map_cons, List.map_cons, List.cons.injEq] at hdispatchers
  obtain ⟨hlinks, hrest⟩ := List.isChain_cons.mp h.links
  obtain ⟨hlt, -⟩ := List.getElem?_eq_some_iff.mp hdispatchers.1
  rw [← h.length_eq] at hlt
  have hnext := List.getElem?_eq_getElem hlt
  refine ⟨h.head i rfl, aget_ok hdispatchers.1, _, aget_ok hnext,
    ⟨?_, hdispatchers.2, hrest, (List.nodup_cons.mp h.nodup).2,
      fun j hj => h.reserved j (List.mem_cons_of_mem i hj), fun j hj => ?_, fun j hj => ?_,
      h.capacity, h.length_eq⟩⟩
  · rw [h.activeCount, List.length_cons, Nat.add_sub_cancel]
  · have hlink := hlinks j hj
    rw [hnext] at hlink
    exact Option.some.inj hlink
  · refine h.tail j ?_
    rw [List.getLast?_cons, hj]
    rfl

/-! ## Programs -/

theorem Holds.dispatchEvent_nil (h : Holds c slots []) (event : E)
    (call : D → EventDispatchChain D →
      Except Exn (EventDispatchChain D × E × List (Call D E (Option (List D))))) :
    c.dispatchEvent event call = .ok (c, event, []) := by
  have hslots : slots = [] := by simpa using h.dispatchers
  have hactive : c.activeCount = 0 := by rw [h.activeCount, hslots, List.length_nil]
  rw [dispatchEvent, if_pos hactive]
  rfl

/-- The first dispatcher is called with the others, and whatever it leaves behind in
the arrays, the list is there again when the saved state is popped. -/
theorem Holds.dispatchEvent_cons (h : Holds c slots (d :: ds)) (event : E)
    {call : D → EventDispatchChain D →
      Except Exn (EventDispatchChain D × E × List (Call D E (Option (List D))))}
    {result : E} {calls : List (Call D E (Option (List D)))}
    (hcall : ∀ tail slots, Holds tail slots ds →
      ∃ tail', call d tail = .ok (tail', result, calls) ∧ Frame tail tail') :
    ∃ c', c.dispatchEvent event call = .ok (c', result, ⟨d, event, some ds⟩ :: calls)
      ∧ Holds c' slots (d :: ds) ∧ Frame c c' := by
  cases slots with
  | nil => exact absurd h.dispatchers (by simp)
  | cons i slots =>
    obtain ⟨hhead, hdispatcher, next, hnext, htail⟩ := h.pop
    have hactive : c.activeCount ≠ 0 := by
      rw [h.activeCount, List.length_cons]
      exact Nat.succ_ne_zero _
    obtain ⟨tail', htail', hframe⟩ := hcall _ _ htail
    have hcapacity := hframe.reserved.trans hframe.capacity
    rw [dispatchEvent, if_neg hactive, hhead, hdispatcher]
    simp only [ok_bind, hnext, htail', htail.toList]
    exact ⟨_, rfl, h.transport rfl hhead.symm rfl rfl hcapacity hframe.length_eq
        hframe.dispatchers hframe.links,
      ⟨le_refl _, hcapacity, hframe.length_eq, hframe.dispatchers, hframe.links, .inl rfl⟩⟩

theorem Holds.dispatchEvent_run (h : Holds c slots (d :: ds)) (event : E)
    (callee : D → E → Program D E)
    (hrun : ∀ {c slots ds}, Holds c slots ds → ∃ c' slots', run (callee d event) c
        = .ok (c', ((callee d event).onList ds).result, ((callee d event).onList ds).calls.map
          (fun call => ⟨call.dispatcher, call.event, some call.tail⟩))
      ∧ Holds c' slots' ((callee d event).onList ds).tail ∧ Frame c c') :
    ∃ c', c.dispatchEvent event (fun d tail => run (callee d event) tail)
        = .ok (c', ((callee d event).onList ds).result, ⟨d, event, some ds⟩
          :: ((callee d event).onList ds).calls.map
            (fun call => ⟨call.dispatcher, call.event, some call.tail⟩))
      ∧ Holds c' slots (d :: ds) ∧ Frame c c' := by
  refine h.dispatchEvent_cons event fun tail slots htail => ?_
  obtain ⟨tail', slots', hrun, -, hframe⟩ := hrun htail
  exact ⟨tail', hrun, hframe⟩

/-- **A program does to the arrays what it does to the list.** -/
theorem Holds.run (program : Program D E) (h : Holds c slots ds) :
    ∃ c' slots', run program c = .ok (c', (program.onList ds).result,
        (program.onList ds).calls.map (fun call => ⟨call.dispatcher, call.event, some call.tail⟩))
      ∧ Holds c' slots' (program.onList ds).tail ∧ Frame c c' := by
  induction program generalizing c slots ds with
  | done result => exact ⟨c, slots, rfl, h, h.frame_refl⟩
  | append d rest ih =>
    obtain ⟨c₁, slots₁, happend, h₁, hframe₁⟩ := h.append d
    obtain ⟨c₂, slots₂, hrest, h₂, hframe₂⟩ := ih h₁
    refine ⟨c₂, slots₂, ?_, h₂, hframe₁.trans hframe₂⟩
    rw [EventDispatchChain.run, happend, ok_bind, hrest]
    rfl
  | prepend d rest ih =>
    obtain ⟨c₁, slots₁, hprepend, h₁, hframe₁⟩ := h.prepend d
    obtain ⟨c₂, slots₂, hrest, h₂, hframe₂⟩ := ih h₁
    refine ⟨c₂, slots₂, ?_, h₂, hframe₁.trans hframe₂⟩
    rw [EventDispatchChain.run, hprepend, ok_bind, hrest]
    rfl
  | dispatchEvent event callee rest ihcallee ihrest =>
    rw [EventDispatchChain.run]
    cases ds with
    | nil =>
      obtain ⟨c', slots', hrest, h', hframe⟩ := ihrest event h
      refine ⟨c', slots', ?_, h', hframe⟩
      rw [h.dispatchEvent_nil, ok_bind]
      dsimp only
      rw [hrest]
      rfl
    | cons d ds =>
      obtain ⟨c₁, hdispatch, h₁, hframe₁⟩ := h.dispatchEvent_run event callee (ihcallee d event)
      obtain ⟨c₂, slots₂, hrest, h₂, hframe₂⟩ := ihrest _ h₁
      refine ⟨c₂, slots₂, ?_, h₂, hframe₁.trans hframe₂⟩
      rw [hdispatch, ok_bind]
      dsimp only
      rw [hrest, ok_bind]
      simp [Program.onList]

/-! ## Chains as they are built and used -/

/-- The calls that build a chain. -/
inductive Op (D : Type)
  | append (eventDispatcher : D)
  | prepend (eventDispatcher : D)

/-- What a call does to the list. -/
def Op.onList (ds : List D) : Op D → List D
  | .append d => ds ++ [d]
  | .prepend d => d :: ds

/-- What it does to the chain. -/
def build (c : EventDispatchChain D) : Op D → Except Exn (EventDispatchChain D)
  | .append d => c.append d
  | .prepend d => c.prepend d

theorem Holds.run_build (ops : List (Op D)) (h : Holds c slots ds) :
    ∃ c' slots', JavaFx.Lib.run build c ops = .ok c' ∧ Holds c' slots' (ops.foldl Op.onList ds) := by
  induction ops generalizing c slots ds with
  | nil => exact ⟨c, slots, rfl, h⟩
  | cons op ops ih =>
    obtain ⟨c₁, slots₁, hbuild, h₁⟩ : ∃ c₁ slots₁, build c op = .ok c₁
        ∧ Holds c₁ slots₁ (op.onList ds) := by
      cases op with
      | append d =>
        obtain ⟨c₁, slots₁, happend, h₁, -⟩ := h.append d
        exact ⟨c₁, slots₁, happend, h₁⟩
      | prepend d =>
        obtain ⟨c₁, slots₁, hprepend, h₁, -⟩ := h.prepend d
        exact ⟨c₁, slots₁, hprepend, h₁⟩
    rw [run_cons_ok hbuild]
    exact ih h₁

/-- **On a chain that was built in any way, `dispatchEvent` makes the calls that are
made on the list, each dispatcher getting the rest of the list as its tail, and
leaves the list as it was.** -/
theorem dispatchEvent_eq_onList (ops : List (Op D)) (event : E) (callee : D → E → Program D E) :
    ∃ c c', JavaFx.Lib.run build new ops = .ok c ∧ c.toList = some (ops.foldl Op.onList [])
      ∧ c.dispatchEvent event (fun d tail => run (callee d event) tail)
        = .ok (c',
            ((Program.dispatchEvent event callee .done).onList (ops.foldl Op.onList [])).result,
            ((Program.dispatchEvent event callee .done).onList (ops.foldl Op.onList [])).calls.map
              (fun call => ⟨call.dispatcher, call.event, some call.tail⟩))
      ∧ c'.toList = some (ops.foldl Op.onList []) := by
  obtain ⟨c, slots, hbuild, h⟩ := holds_new.run_build ops
  generalize ops.foldl Op.onList [] = ds at h
  cases ds with
  | nil =>
    refine ⟨c, c, hbuild, h.toList, ?_, h.toList⟩
    rw [h.dispatchEvent_nil]
    rfl
  | cons d ds =>
    obtain ⟨c', hdispatch, h', -⟩ := h.dispatchEvent_run event callee (Holds.run (callee d event))
    refine ⟨c, c', hbuild, h.toList, ?_, h'.toList⟩
    rw [hdispatch]
    simp [Program.onList]

end EventDispatchChain

end JavaFx.Event
