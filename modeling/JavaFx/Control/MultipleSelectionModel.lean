/-
`java.util.BitSet`, as far as the selection models use it.

The bits are a finite set. Beside it stand the words the object has reserved, as
`size()` answers with them: they grow, at least to the double, when a bit is set behind
them, and `clone()` cuts them down to those in use.

`rank` counts the bits below a number. The `i`-th smallest bit is the one of rank `i`,
and the two searches are read through their ranks.
-/
import Mathlib
import JavaFx.Collections.ListChange

set_option autoImplicit false

namespace JavaFx.Control

structure BitSet where
  bits : Finset ℕ
  words : ℕ
  lt : ∀ b ∈ bits, b < 64 * words

namespace BitSet

variable {s : BitSet} {i : ℕ} {b : ℕ}

/-! ## The methods -/

def new : BitSet := ⟨∅, 1, by simp⟩

def get (s : BitSet) (i : ℕ) : Bool := i ∈ s.bits

def size (s : BitSet) : ℕ := 64 * s.words

def cardinality (s : BitSet) : ℕ := s.bits.card

def isEmpty (s : BitSet) : Bool := s.bits = ∅

/-- `length()`: the place behind the last bit. -/
def length (s : BitSet) : ℕ := s.bits.sup Nat.succ

theorem lt_length (hb : b ∈ s.bits) : b < s.length := Finset.le_sup (f := Nat.succ) hb

/-- `expandTo`, for a number of bits. -/
def expandTo (s : BitSet) (n : ℕ) : BitSet :=
  let wordsRequired := (n + 63) / 64
  ⟨s.bits, if s.words < wordsRequired then max (2 * s.words) wordsRequired else s.words, by
    intro b hb
    have := s.lt b hb
    split_ifs <;> omega⟩

theorem le_size_expandTo (s : BitSet) (n : ℕ) : n ≤ (s.expandTo n).size := by
  unfold expandTo size
  dsimp only
  split_ifs <;> omega

/-- `set(i)`. -/
def set (s : BitSet) (i : ℕ) : BitSet :=
  let t := s.expandTo (i + 1)
  ⟨insert i s.bits, t.words, by
    intro b hb
    rcases Finset.mem_insert.mp hb with rfl | hb
    · exact s.le_size_expandTo (b + 1)
    · exact t.lt b hb⟩

/-- `clear(i)`. -/
def clear (s : BitSet) (i : ℕ) : BitSet :=
  ⟨s.bits.erase i, s.words, fun b hb => s.lt b (Finset.mem_of_mem_erase hb)⟩

/-- `set(i, value)`. -/
def setTo (s : BitSet) (i : ℕ) (value : Bool) : BitSet := if value then s.set i else s.clear i

/-- `set(0, n, true)`. -/
def setUpTo (s : BitSet) (n : ℕ) : BitSet :=
  let t := s.expandTo n
  ⟨s.bits ∪ Finset.range n, t.words, by
    intro b hb
    rcases Finset.mem_union.mp hb with hb | hb
    · exact t.lt b hb
    · exact (Finset.mem_range.mp hb).trans_le (s.le_size_expandTo n)⟩

/-- `clear()`. -/
def clearAll (s : BitSet) : BitSet := ⟨∅, s.words, by simp⟩

/-- What `clone()` does to the set it copies. -/
def trimToSize (s : BitSet) : BitSet :=
  ⟨s.bits, (s.length + 63) / 64, fun b hb => by
    have := lt_length hb
    omega⟩

/-- `nextSetBit`. -/
def nextSetBit (s : BitSet) (fromIndex : ℤ) : ℤ :=
  if h : (s.bits.filter fun b : ℕ => fromIndex ≤ b).Nonempty then
    ((s.bits.filter fun b : ℕ => fromIndex ≤ b).min' h : ℕ)
  else -1

/-- `previousSetBit`. -/
def previousSetBit (s : BitSet) (fromIndex : ℤ) : ℤ :=
  if h : (s.bits.filter fun b : ℕ => b ≤ fromIndex).Nonempty then
    ((s.bits.filter fun b : ℕ => b ≤ fromIndex).max' h : ℕ)
  else -1

@[simp] theorem new_bits : new.bits = ∅ := rfl

@[simp] theorem set_bits : (s.set i).bits = insert i s.bits := rfl

@[simp] theorem clear_bits : (s.clear i).bits = s.bits.erase i := rfl

@[simp] theorem clearAll_bits : s.clearAll.bits = ∅ := rfl

@[simp] theorem trimToSize_bits : s.trimToSize.bits = s.bits := rfl

@[simp] theorem setUpTo_bits {n : ℕ} : (s.setUpTo n).bits = s.bits ∪ Finset.range n := rfl

@[simp] theorem get_eq_true : s.get i = true ↔ i ∈ s.bits := decide_eq_true_iff

theorem mem_setTo {j : ℕ} {value : Bool} :
    j ∈ (s.setTo i value).bits ↔ if j = i then value = true else j ∈ s.bits := by
  cases value with
  | false =>
    simp only [setTo, Bool.false_eq_true, if_false, clear_bits, Finset.mem_erase]
    split_ifs with h <;> simp [h]
  | true =>
    simp only [setTo, if_true, set_bits, Finset.mem_insert]
    split_ifs with h <;> simp [h]

/-! ## Ranks -/

/-- How many bits are below. -/
def rank (s : BitSet) (v : ℤ) : ℕ := (s.bits.filter fun b : ℕ => (b : ℤ) < v).card

/-- `v` is the `i`-th smallest bit, counted from zero. -/
def IsNth (s : BitSet) (i : ℕ) (v : ℤ) : Prop := ∃ b ∈ s.bits, v = b ∧ s.rank b = i

instance (s : BitSet) (i : ℕ) (v : ℤ) : Decidable (s.IsNth i v) :=
  inferInstanceAs (Decidable (∃ b ∈ s.bits, v = b ∧ s.rank b = i))

/-- Nothing stands between two numbers of the same rank. -/
theorem rank_eq_of_between {v w : ℤ} (hle : v ≤ w) (h : ∀ b ∈ s.bits, v ≤ (b : ℕ) → w ≤ (b : ℕ)) :
    s.rank v = s.rank w := by
  unfold rank
  congr 1
  refine Finset.filter_congr fun b hb => ⟨fun hv => by omega, fun hw => ?_⟩
  by_contra hv
  have := h b hb (by omega)
  omega

/-- Behind a bit the rank is one more. -/
theorem rank_succ (hb : b ∈ s.bits) : s.rank (b + 1) = s.rank b + 1 := by
  have hins : (s.bits.filter fun c : ℕ => (c : ℤ) < b + 1) =
      insert b (s.bits.filter fun c : ℕ => (c : ℤ) < b) := by
    ext c
    simp only [Finset.mem_filter, Finset.mem_insert]
    constructor
    · rintro ⟨hc, hlt⟩
      by_cases hcb : c = b
      · exact .inl hcb
      · exact .inr ⟨hc, by omega⟩
    · rintro (rfl | ⟨hc, hlt⟩)
      · exact ⟨hb, by omega⟩
      · exact ⟨hc, by omega⟩
  unfold rank
  rw [hins, Finset.card_insert_of_notMem (by simp)]

theorem rank_eq_cardinality {v : ℤ} (h : ∀ b ∈ s.bits, (b : ℤ) < v) : s.rank v = s.cardinality := by
  unfold rank cardinality
  rw [Finset.filter_true_of_mem h]

theorem rank_eq_zero {v : ℤ} (h : ∀ b ∈ s.bits, v ≤ (b : ℤ)) : s.rank v = 0 := by
  unfold rank
  rw [Finset.filter_false_of_mem fun b hb => not_lt.mpr (h b hb), Finset.card_empty]

theorem nextSetBit_cases (s : BitSet) (v : ℤ) :
    (s.nextSetBit v = -1 ∧ ∀ b ∈ s.bits, (b : ℤ) < v) ∨
      ∃ b ∈ s.bits, s.nextSetBit v = b ∧ v ≤ b ∧ ∀ c ∈ s.bits, v ≤ c → b ≤ c := by
  unfold nextSetBit
  split_ifs with h
  · right
    have hmem := Finset.min'_mem _ h
    refine ⟨_, (Finset.mem_filter.mp hmem).1, rfl, (Finset.mem_filter.mp hmem).2, fun c hc hvc => ?_⟩
    exact Finset.min'_le _ c (Finset.mem_filter.mpr ⟨hc, hvc⟩)
  · left
    refine ⟨rfl, fun b hb => not_le.mp fun hle => h ⟨b, Finset.mem_filter.mpr ⟨hb, hle⟩⟩⟩

theorem previousSetBit_cases (s : BitSet) (v : ℤ) :
    (s.previousSetBit v = -1 ∧ ∀ b ∈ s.bits, v < b) ∨
      ∃ b ∈ s.bits, s.previousSetBit v = b ∧ b ≤ v ∧ ∀ c ∈ s.bits, c ≤ v → c ≤ b := by
  unfold previousSetBit
  split_ifs with h
  · right
    have hmem := Finset.max'_mem _ h
    refine ⟨_, (Finset.mem_filter.mp hmem).1, rfl, (Finset.mem_filter.mp hmem).2, fun c hc hcv => ?_⟩
    exact Finset.le_max' _ c (Finset.mem_filter.mpr ⟨hc, hcv⟩)
  · left
    refine ⟨rfl, fun b hb => not_le.mp fun hle => h ⟨b, Finset.mem_filter.mpr ⟨hb, hle⟩⟩⟩

/-- The next bit from a number on has the rank of that number. -/
theorem nextSetBit_isNth_iff {v : ℤ} (hi : i < s.cardinality) :
    s.IsNth i (s.nextSetBit v) ↔ s.rank v = i := by
  rcases nextSetBit_cases s v with ⟨hnone, hall⟩ | ⟨b, hb, heq, hvb, hleast⟩
  · rw [hnone, rank_eq_cardinality hall]
    constructor
    · rintro ⟨c, -, hc, -⟩
      omega
    · intro h
      omega
  · rw [heq, rank_eq_of_between hvb fun c hc hvc => by exact_mod_cast hleast c hc hvc]
    constructor
    · rintro ⟨c, -, hc, hrank⟩
      rw [hc]
      exact hrank
    · exact fun hrank => ⟨b, hb, rfl, hrank⟩

/-- The last bit below a number has the rank before that of the number. -/
theorem previousSetBit_isNth_iff {v : ℤ} :
    s.IsNth i (s.previousSetBit (v - 1)) ↔ s.rank v = i + 1 := by
  rcases previousSetBit_cases s (v - 1) with ⟨hnone, hall⟩ | ⟨b, hb, heq, hbv, hgreatest⟩
  · rw [hnone, rank_eq_zero fun b hb => by have := hall b hb; omega]
    constructor
    · rintro ⟨c, -, hc, -⟩
      omega
    · intro h
      omega
  · have hrank : s.rank v = s.rank b + 1 := by
      rw [← rank_succ hb]
      refine (rank_eq_of_between (by omega) fun c hc hbc => ?_).symm
      by_contra hcv
      have := hgreatest c hc (by omega)
      omega
    rw [heq, hrank, Nat.add_right_cancel_iff]
    constructor
    · rintro ⟨c, -, hc, hrank⟩
      rw [hc]
      exact hrank
    · exact fun hrank => ⟨b, hb, rfl, hrank⟩

end BitSet

end JavaFx.Control

/-!
`MultipleSelectionModelBase`, with the parts that `ListView` gives it.

The selected indices are a bit set. `getSelectedIndices()` is a view of it that keeps a
cursor, the index and the value of its last `get`, so that reading it in order is cheap;
the methods of the model read the view too. A change of the items list arrives in
`itemsContentObserver`, which moves the selection along with the items.

The focus model is another component: `focus` is left out, and `selectAll`, which asks
for the focused index, is given it. Of the listeners of the selection there is the one
of the constructor, which sets the selected item and walks through the change it is
handed. Items are compared with `equals`; an item may be `null`. `reads` is a record for
the statements, which no method reads.
-/

namespace JavaFx.Control

open JavaFx.ListChange

inductive SelectionMode
  | single
  | multiple
deriving DecidableEq, Repr

/-- A call of `get` on the view: what it saw and what it answered. -/
structure ViewRead where
  bitset : BitSet
  itemCount : ℤ
  lastGetIndex : ℤ
  lastGetValue : ℤ
  index : ℤ
  result : ℤ

structure SelectionModel (T : Type) where
  items : List (Option T)
  itemCount : ℤ
  previousModelSize : ℤ
  selectionMode : SelectionMode
  selectedIndices : BitSet
  lastGetIndex : ℤ
  lastGetValue : ℤ
  selectedIndex : ℤ
  selectedItem : Option T
  atomicityCount : ℕ
  reads : List ViewRead

namespace SelectionModel

variable {T : Type}

/-- A model nothing is selected in. -/
def new (selectionMode : SelectionMode) (items : List (Option T)) : SelectionModel T :=
  ⟨items, items.length, items.length, selectionMode, BitSet.new, -1, -1, -1, none, 0, []⟩

/-! ## Properties -/

/-- `getModelItem`. -/
def getModelItem (s : SelectionModel T) (index : ℤ) : Option T :=
  if index < 0 ∨ s.itemCount ≤ index then none else (s.items[index.toNat]?).join

/-- `setSelectedIndex`, with the listener of the constructor. -/
def setSelectedIndex (s : SelectionModel T) (value : ℤ) : SelectionModel T :=
  if s.selectedIndex = value then s
  else { s with selectedIndex := value, selectedItem := s.getModelItem value }

def setSelectedItem (s : SelectionModel T) (item : Option T) : SelectionModel T :=
  { s with selectedItem := item }

def isAtomic (s : SelectionModel T) : Bool := 0 < s.atomicityCount

def startAtomic (s : SelectionModel T) : SelectionModel T :=
  { s with atomicityCount := s.atomicityCount + 1 }

def stopAtomic (s : SelectionModel T) : SelectionModel T :=
  { s with atomicityCount := s.atomicityCount - 1 }

/-- An assignment to the bits. -/
def setBits (s : SelectionModel T) (bitset : BitSet) : SelectionModel T :=
  { s with selectedIndices := bitset }

/-! ## The view -/

/-- The loop of `get` for an index that is not next to the last one; the index and the
value it stops at. -/
def scan (bitset : BitSet) (index : ℤ) : (fuel : ℕ) → ℤ → ℤ → ℤ × ℤ × ℤ
  | 0, lastGetIndex, lastGetValue => (-1, lastGetIndex, lastGetValue)
  | fuel + 1, lastGetIndex, lastGetValue =>
    if 0 ≤ lastGetValue ∨ lastGetIndex = index then
      if lastGetIndex = index then (lastGetValue, lastGetIndex, lastGetValue)
      else scan bitset index fuel (lastGetIndex + 1) (bitset.nextSetBit (lastGetValue + 1))
    else (-1, lastGetIndex, lastGetValue)

/-- `get`: the answer and the cursor after it. There is one bit for each round of the
loop but the last. -/
def viewGet (bitset : BitSet) (itemCount lastGetIndex lastGetValue index : ℤ) : ℤ × ℤ × ℤ :=
  if index < 0 ∨ itemCount ≤ index then (-1, lastGetIndex, lastGetValue)
  else if index = lastGetIndex + 1 ∧ lastGetValue < itemCount then
    let lastGetValue := bitset.nextSetBit (lastGetValue + 1)
    (lastGetValue, lastGetIndex + 1, lastGetValue)
  else if index = lastGetIndex - 1 ∧ 0 < lastGetValue then
    let lastGetValue := bitset.previousSetBit (lastGetValue - 1)
    (lastGetValue, lastGetIndex - 1, lastGetValue)
  else scan bitset index (bitset.cardinality + 1) 0 (bitset.nextSetBit 0)

/-- `selectedIndicesSeq.get(index)`. -/
def get (s : SelectionModel T) (index : ℤ) : ℤ × SelectionModel T :=
  let (result, lastGetIndex, lastGetValue) :=
    viewGet s.selectedIndices s.itemCount s.lastGetIndex s.lastGetValue index
  (result, { s with
    lastGetIndex, lastGetValue
    reads :=
      ⟨s.selectedIndices, s.itemCount, s.lastGetIndex, s.lastGetValue, index, result⟩ :: s.reads })

/-- The loop of `indexOf`, with the number of indices left. -/
def indexOfFrom (o : ℤ) : (left : ℕ) → ℤ → SelectionModel T → ℤ × SelectionModel T
  | 0, _, s => (-1, s)
  | left + 1, i, s =>
    let (obj, s) := s.get i
    if o = obj then (i, s) else indexOfFrom o left (i + 1) s

/-- `selectedIndicesSeq.indexOf(o)`. -/
def indexOf (s : SelectionModel T) (o : ℤ) : ℤ × SelectionModel T :=
  indexOfFrom o s.selectedIndices.cardinality 0 s

def toArrayFrom : (left : ℕ) → ℤ → SelectionModel T → List ℤ × SelectionModel T
  | 0, _, s => ([], s)
  | left + 1, i, s =>
    let (obj, s) := s.get i
    let (rest, s) := toArrayFrom left (i + 1) s
    (obj :: rest, s)

/-- `selectedIndicesSeq.toArray()`, and an iteration over the whole view. -/
def toArray (s : SelectionModel T) : List ℤ × SelectionModel T :=
  toArrayFrom s.selectedIndices.cardinality 0 s

/-! ## Selecting -/

/-- `isSelected(index)`. -/
def isSelected (s : SelectionModel T) (index : ℤ) : Bool :=
  0 ≤ index ∧ index < s.selectedIndices.length ∧ s.selectedIndices.get index.toNat = true

/-- `quietClearSelection`. -/
def quietClearSelection (s : SelectionModel T) : SelectionModel T :=
  s.setBits s.selectedIndices.clearAll

/-- `clearSelection()`; the removed indices are a clone of the bits. -/
def clearSelection (s : SelectionModel T) : SelectionModel T :=
  let s := s.setBits s.selectedIndices.trimToSize
  let s := s.quietClearSelection
  if s.isAtomic then s else s.setSelectedIndex (-1)

/-- `clearSelection(index)`. -/
def clearSelectionAt (s : SelectionModel T) (index : ℤ) : SelectionModel T :=
  if index < 0 then s
  else
    let wasEmpty := s.selectedIndices.isEmpty
    let s := s.setBits (s.selectedIndices.clear index.toNat)
    if !wasEmpty && s.selectedIndices.isEmpty then s.clearSelection else s

/-- The assignment to the bits in `select(row)`. -/
def setRow (s : SelectionModel T) (row : ℕ) : SelectionModel T :=
  if s.selectedIndices.get row then s
  else
    let s := if s.selectionMode = .single then s.quietClearSelection else s
    s.setBits (s.selectedIndices.set row)

/-- `select(row)`. -/
def select [DecidableEq T] (s : SelectionModel T) (row : ℤ) : SelectionModel T :=
  if row = -1 then s.clearSelection
  else if row < 0 ∨ s.itemCount ≤ row then s
  else
    let isSameRow := row = s.selectedIndex
    let currentItem := s.selectedItem
    let newItem := s.getModelItem row
    let isSameItem := newItem ≠ none ∧ newItem = currentItem
    let fireUpdatedItemEvent := isSameRow ∧ ¬isSameItem
    let s := ((s.startAtomic.setRow row.toNat).setSelectedIndex row).stopAtomic
    let s := if s.isAtomic then s else (s.indexOf row).2
    if fireUpdatedItemEvent then s.setSelectedItem newItem else s

/-- The loop of `select(obj)` over the model items: the first row with an equal item. -/
def rowOf [DecidableEq T] (s : SelectionModel T) (obj : Option T) : Option ℕ :=
  (List.range s.itemCount.toNat).find? fun i => s.getModelItem i ≠ none ∧ s.getModelItem i = obj

/-- `select(obj)`. -/
def selectItem [DecidableEq T] (s : SelectionModel T) (obj : Option T) : SelectionModel T :=
  if obj = none ∧ s.selectionMode = .single then s.clearSelection
  else
    match s.rowOf obj with
    | some i =>
      if s.isSelected i then s
      else
        let s := if s.selectionMode = .single then s.quietClearSelection else s
        s.select i
    | none => (s.setSelectedIndex (-1)).setSelectedItem obj

/-- The loop of `selectIndices` in multiple mode over the rows; the bits are set, the
last row and the rows newly selected are collected. -/
def selectRows (rowCount : ℤ) : List ℤ → ℤ × List ℤ × BitSet → ℤ × List ℤ × BitSet
  | [], acc => acc
  | index :: rows, (lastIndex, actualSelectedRows, bitset) =>
    if index < 0 ∨ rowCount ≤ index then selectRows rowCount rows (lastIndex, actualSelectedRows, bitset)
    else if bitset.get index.toNat then
      selectRows rowCount rows (index, actualSelectedRows, bitset)
    else
      selectRows rowCount rows (index, actualSelectedRows ++ [index], bitset.set index.toNat)

/-- The loop of `selectIndices` in single mode: the last row that is there. -/
def selectLastRow [DecidableEq T] (s : SelectionModel T) (rows : List ℤ) : SelectionModel T :=
  match rows.reverse.find? fun index => 0 ≤ index ∧ index < s.itemCount with
  | some index => (s.setBits (s.selectedIndices.set index.toNat)).select index
  | none => s

/-- `selectIndices(row, rows)` in single mode. -/
def selectLastOf [DecidableEq T] (s : SelectionModel T) (row : ℤ) (rows : List ℤ) :
    SelectionModel T :=
  let s := s.quietClearSelection.selectLastRow rows
  if s.selectedIndices.isEmpty ∧ 0 < row ∧ row < s.itemCount then
    (s.setBits (s.selectedIndices.set row.toNat)).select row
  else s

/-- `selectIndices(row, rows)` in multiple mode; the row is treated like the others. -/
def selectAllOf (s : SelectionModel T) (row : ℤ) (rows : List ℤ) : SelectionModel T :=
  let (lastIndex, actualSelectedRows, bitset) :=
    selectRows s.itemCount (row :: rows) (-1, [], s.selectedIndices)
  let s := s.setBits bitset
  let s :=
    if lastIndex ≠ -1 then
      let s := s.setSelectedIndex lastIndex
      s.setSelectedItem (s.getModelItem lastIndex)
    else s
  -- `next()` of the range change looks for the first of the sorted rows
  match actualSelectedRows.mergeSort with
  | startValue :: _ => (s.indexOf startValue).2
  | [] => s

/-- `selectIndices(row, rows)`. -/
def selectIndices [DecidableEq T] (s : SelectionModel T) (row : ℤ) (rows : List ℤ) :
    SelectionModel T :=
  if rows = [] then s.select row
  else if s.selectionMode = .single then s.selectLastOf row rows
  else s.selectAllOf row rows

/-- `selectAll()`; the focused index is `focusedIndex`. -/
def selectAll (s : SelectionModel T) (focusedIndex : ℤ) : SelectionModel T :=
  if s.selectionMode = .single then s
  else if s.itemCount ≤ 0 then s
  else
    let rowCount := s.itemCount
    let s := s.clearSelection
    let s := s.setBits (s.selectedIndices.setUpTo rowCount.toNat)
    if focusedIndex = -1 then s.setSelectedIndex (rowCount - 1) else s.setSelectedIndex focusedIndex

/-! ## Shifting -/

/-- The body of the loop of `shiftSelection` for a positive shift: the bit at `i`. The
second component is `hasPermutated`. -/
def shiftUp (shift : ℕ) (acc : BitSet × Bool) (i : ℕ) : BitSet × Bool :=
  let selected := acc.1.get i
  ((acc.1.clear i).setTo (i + shift) selected, acc.2 || selected)

/-- The body of the loop for a negative shift: the bit behind `i`. -/
def shiftDown (position shift : ℤ) (acc : BitSet × Bool) (i : ℕ) : BitSet × Bool :=
  if i + shift < 0 then acc
  else if i + 1 + shift < position then acc
  else
    let selected := acc.1.get (i + 1)
    ((acc.1.clear (i + 1)).setTo (i + 1 + shift).toNat selected, acc.2 || selected)

/-- The indices from `from` below `size`, in order. -/
def indices (start size : ℕ) : List ℕ := (List.range (size - start)).map (start + ·)

/-- The loops of `shiftSelection` over the reserved bits. -/
def shiftBits (bitset : BitSet) (position : ℕ) (shift : ℤ) : BitSet × Bool :=
  if 0 < shift then
    let (bitset, hasPermutated) :=
      (indices position bitset.size).reverse.foldl (shiftUp shift.toNat) (bitset, false)
    (bitset.clear position, hasPermutated)
  else (indices position bitset.size).foldl (shiftDown position shift) (bitset, false)

/-- The end of `shiftSelection`: the selected index moves. -/
def shiftLead [DecidableEq T] (s : SelectionModel T) (position shift : ℤ) (hasPermutated : Bool) :
    SelectionModel T :=
  let selectedIndex := s.selectedIndex
  if position ≤ selectedIndex ∧ -1 < selectedIndex then
    let newSelectionLead := max 0 (selectedIndex + shift)
    let s := s.setSelectedIndex newSelectionLead
    if hasPermutated then s.setBits (s.selectedIndices.set newSelectionLead.toNat)
    else s.select newSelectionLead
  else s

/-- `shiftSelection(position, shift, null)`. -/
def shiftSelection [DecidableEq T] (s : SelectionModel T) (position shift : ℤ) : SelectionModel T :=
  if position < 0 then s
  else if shift = 0 then s
  else if s.selectedIndices.cardinality = 0 then s
  else
    let (bitset, hasPermutated) := shiftBits s.selectedIndices position.toNat shift
    (s.setBits bitset).shiftLead position shift hasPermutated

/-! ## A change of the items -/

/-- The selection leaves a removed item for the row before it (RT-28637). -/
def leaveRemoved [DecidableEq T] (s : SelectionModel T) : SelectionModel T :=
  let selectedItem := s.selectedItem
  let selectedIndex := s.selectedIndex
  if selectedIndex < s.itemCount then
    let previousRow := if selectedIndex = 0 then 0 else selectedIndex - 1
    let newSelectedItem := s.getModelItem previousRow
    if selectedItem ≠ newSelectedItem then
      ((s.startAtomic.clearSelectionAt selectedIndex).stopAtomic).selectItem newSelectedItem
    else s
  else s

/-- The body of the loop of `itemsContentObserver.onChanged`. -/
def onSubChange [DecidableEq T] (s : SelectionModel T) (c : SubChange (Option T)) :
    SelectionModel T :=
  let selectedItem := s.selectedItem
  if s.items.isEmpty then s.clearSelection
  else if s.selectedIndex = -1 ∧ selectedItem ≠ none then
    match s.items.findIdx? (· = selectedItem) with
    | some newIndex => s.setSelectedIndex newIndex
    | none => s
  else if c.wasRemoved ∧ c.removedSize = 1 ∧ ¬c.wasAdded ∧ selectedItem ≠ none ∧
      c.removed.head? = some selectedItem then
    s.leaveRemoved
  else s

/-- A replaced range in `updateSelection`. -/
def onReplaced [DecidableEq T] (s : SelectionModel T) (removedSize : ℕ) : SelectionModel T :=
  if s.items.isEmpty then s.clearSelection
  else
    let index := s.selectedIndex
    if s.previousModelSize = removedSize then s.clearSelection
    else if index < s.itemCount ∧ 0 ≤ index then
      ((s.startAtomic.clearSelectionAt index).stopAtomic).select index
    else s.clearSelection

/-- A permutation in `updateSelection`. -/
def onPermutated [DecidableEq T] (s : SelectionModel T) (c : SubChange (Option T)) :
    SelectionModel T :=
  let (selectedIndices, s) := s.toArray
  let s := s.clearSelection
  let newIndices := selectedIndices.filterMap fun oldIndex : ℤ =>
    if c.fromIdx ≤ oldIndex ∧ oldIndex < c.toIdx then
      (c.permutation[(oldIndex - c.fromIdx).toNat]?).map fun newIndex : ℕ => (newIndex : ℤ)
    else none
  match newIndices with
  | [] => s
  | [row] => s.select row
  | row :: rows => s.selectIndices row rows

/-- The body of the loop of `updateSelection`, with the accumulated shift. -/
def updateSubChange [DecidableEq T] (acc : SelectionModel T × ℤ) (c : SubChange (Option T)) :
    SelectionModel T × ℤ :=
  let (s, shift) := acc
  if c.wasReplaced then (s.onReplaced c.removedSize, shift)
  else if c.wasAdded ∨ c.wasRemoved then
    (s, shift + if c.wasAdded then (c.addedSize : ℤ) else -c.removedSize)
  else if c.wasPermutated then (s.onPermutated c, shift)
  else (s, shift)

/-- `updateSelection(c)`; after the loop the change stands at its last sub-change. -/
def updateSelection [DecidableEq T] (s : SelectionModel T) (cs : List (SubChange (Option T))) :
    SelectionModel T :=
  let (s, shift) := cs.foldl updateSubChange (s, 0)
  let s :=
    match cs.getLast? with
    | some c => if shift ≠ 0 then s.shiftSelection c.fromIdx shift else s
    | none => s
  { s with previousModelSize := s.itemCount }

/-- `itemsContentObserver.onChanged(c)`, when the items have become `final`. -/
def onChanged [DecidableEq T] (s : SelectionModel T) (final : List (Option T))
    (cs : List (SubChange (Option T))) : SelectionModel T :=
  -- `updateItemCount`
  let s := { s with items := final, itemCount := final.length }
  let s := cs.foldl onSubChange s
  s.updateSelection cs

end SelectionModel

end JavaFx.Control
