/-
`SelectedCellsMap`: the selected cells of a table, kept twice.

The list holds the positions in the order of their selection. The map has a bit
set for each row with a selected position, with one bit for each selected column;
an empty bit set says that the row is selected and none of its columns.

The columns of the table do not move here, so a column is its index among the
visible leaf columns. The sorted view of the list and its listener are left out:
nothing below reads them.
-/
import Mathlib.Data.Finset.Basic
import Mathlib.Data.List.Nodup
import Mathlib.Logic.Function.Basic
import JavaFx.Lib.Java
import JavaFx.Lib.Run

set_option autoImplicit false

namespace JavaFx.Control

open JavaFx.Lib

/-! ## Positions and bit sets -/

/-- A row and a column; no column stands for the whole row. `equals` compares both. -/
structure TablePosition where
  row : ℤ
  tableColumn : Option ℕ
deriving DecidableEq, Repr

/-- `TablePosition.getColumn`. -/
def TablePosition.getColumn (tp : TablePosition) : ℤ :=
  match tp.tableColumn with
  | some column => column
  | none => -1

@[simp] theorem TablePosition.getColumn_some (row : ℤ) (c : ℕ) :
    TablePosition.getColumn ⟨row, some c⟩ = c := rfl

@[simp] theorem TablePosition.getColumn_none (row : ℤ) :
    TablePosition.getColumn ⟨row, none⟩ = -1 := rfl

theorem TablePosition.getColumn_nonneg {tp : TablePosition} :
    0 ≤ tp.getColumn ↔ ∃ c, tp.tableColumn = some c := by
  unfold getColumn
  cases tp.tableColumn with
  | none => simp
  | some c => simp

/-- `Map<Integer, BitSet>`. -/
abbrev BitSetMap := ℤ → Option (Finset ℕ)

namespace BitSetMap

def containsKey (map : BitSetMap) (row : ℤ) : Bool := (map row).isSome

def put (map : BitSetMap) (row : ℤ) (bitset : Finset ℕ) : BitSetMap :=
  Function.update map row (some bitset)

def remove (map : BitSetMap) (row : ℤ) : BitSetMap := Function.update map row none

/-- The bit set of a row, a new one where the row has none. -/
def bitset (map : BitSetMap) (row : ℤ) : Finset ℕ := (map row).getD ∅

/-- The part that `add`, `addAll` and `setAll` have in common. -/
def setColumn (map : BitSetMap) (tp : TablePosition) : BitSetMap :=
  map.put tp.row
    (if tp.getColumn < 0 then map.bitset tp.row
      else insert tp.getColumn.toNat (map.bitset tp.row))

end BitSetMap

/-! ## The class -/

structure SelectedCellsMap where
  selectedCells : List TablePosition
  selectedCellBitSetMap : BitSetMap

namespace SelectedCellsMap

variable {m : SelectedCellsMap} {tp : TablePosition} {cells : List TablePosition}

/-- The constructor. -/
def new : SelectedCellsMap := ⟨[], fun _ => none⟩

def add (isCellSelectionEnabled : Bool) (m : SelectedCellsMap) (tp : TablePosition) :
    SelectedCellsMap :=
  let row := tp.row
  let columnIndex := tp.getColumn
  let isNewBitSet := !m.selectedCellBitSetMap.containsKey row
  let bitset := m.selectedCellBitSetMap.bitset row
  let map := m.selectedCellBitSetMap.put row bitset
  if isCellSelectionEnabled then
    if 0 ≤ columnIndex then
      if columnIndex.toNat ∈ bitset then ⟨m.selectedCells, map⟩
      else ⟨m.selectedCells ++ [tp], map.put row (insert columnIndex.toNat bitset)⟩
    else if tp ∈ m.selectedCells then ⟨m.selectedCells, map⟩
    else ⟨m.selectedCells ++ [tp], map⟩
  else if isNewBitSet then
    ⟨m.selectedCells ++ [tp],
      if 0 ≤ columnIndex then map.put row (insert columnIndex.toNat bitset) else map⟩
  else ⟨m.selectedCells, map⟩

def addAll (m : SelectedCellsMap) (cells : List TablePosition) : SelectedCellsMap :=
  ⟨m.selectedCells ++ cells, cells.foldl BitSetMap.setColumn m.selectedCellBitSetMap⟩

def setAll (_ : SelectedCellsMap) (cells : List TablePosition) : SelectedCellsMap :=
  ⟨cells, cells.foldl BitSetMap.setColumn fun _ => none⟩

def remove (m : SelectedCellsMap) (tp : TablePosition) : SelectedCellsMap :=
  let row := tp.row
  let columnIndex := tp.getColumn
  let map := m.selectedCellBitSetMap
  let map :=
    if map.containsKey row then
      let bitset := map.bitset row
      let bitset := if 0 ≤ columnIndex then bitset.erase columnIndex.toNat else bitset
      if bitset = ∅ then map.remove row else map.put row bitset
    else map
  ⟨m.selectedCells.erase tp, map⟩

def clear (_ : SelectedCellsMap) : SelectedCellsMap := ⟨[], fun _ => none⟩

def isSelected (m : SelectedCellsMap) (row columnIndex : ℤ) : Bool :=
  if columnIndex < 0 then m.selectedCellBitSetMap.containsKey row
  else columnIndex.toNat ∈ m.selectedCellBitSetMap.bitset row

/-! ## Runs -/

inductive Action where
  | add (tp : TablePosition)
  | addAll (cells : List TablePosition)
  | setAll (cells : List TablePosition)
  | remove (tp : TablePosition)
  | clear
deriving DecidableEq, Repr

/-- One call; none of them throws. -/
def step (isCellSelectionEnabled : Bool) (m : SelectedCellsMap) : Action → Except Exn SelectedCellsMap
  | .add tp => .ok (m.add isCellSelectionEnabled tp)
  | .addAll cells => .ok (m.addAll cells)
  | .setAll cells => .ok (m.setAll cells)
  | .remove tp => .ok (m.remove tp)
  | .clear => .ok m.clear

/-- The two sides say the same. -/
structure InStep (m : SelectedCellsMap) : Prop where
  once : m.selectedCells.Nodup
  cell : ∀ row column, 0 ≤ column →
    (m.isSelected row column = true ↔ ∃ tp ∈ m.selectedCells, tp.row = row ∧ tp.getColumn = column)
  row : ∀ row, m.isSelected row (-1) = true ↔ ∃ tp ∈ m.selectedCells, tp.row = row

end SelectedCellsMap

/-- The map holds the rows and the cells of a collection of positions. -/
structure Marks (map : BitSetMap) (P : TablePosition → Prop) : Prop where
  row : ∀ row, map.containsKey row = true ↔ ∃ tp, P tp ∧ tp.row = row
  bit : ∀ row column, column ∈ map.bitset row ↔ P ⟨row, some column⟩

namespace Marks

variable {map : BitSetMap} {P Q : TablePosition → Prop} {tp : TablePosition}

theorem congr (h : Marks map P) (hPQ : ∀ tp, P tp ↔ Q tp) : Marks map Q where
  row row := by simpa only [hPQ] using h.row row
  bit row column := (h.bit row column).trans (hPQ _)

theorem empty : Marks (fun _ => none) fun _ => False where
  row row := by simp [BitSetMap.containsKey]
  bit row column := by simp [BitSetMap.bitset]

theorem containsKey_put {row row' : ℤ} {bitset : Finset ℕ} :
    (map.put row bitset).containsKey row' = true ↔ row' = row ∨ map.containsKey row' = true := by
  unfold BitSetMap.containsKey BitSetMap.put
  by_cases h : row' = row
  · subst h
    simp
  · simp [h]

theorem bitset_put {row row' : ℤ} {bitset : Finset ℕ} :
    (map.put row bitset).bitset row' = if row' = row then bitset else map.bitset row' := by
  unfold BitSetMap.bitset BitSetMap.put
  by_cases h : row' = row
  · subst h
    simp
  · simp [h]

/-- A position joins the collection. -/
theorem setColumn (h : Marks map P) (tp : TablePosition) :
    Marks (map.setColumn tp) fun q => P q ∨ q = tp where
  row row := by
    rw [BitSetMap.setColumn, containsKey_put, h.row row]
    constructor
    · rintro (rfl | ⟨q, hq, hrow⟩)
      · exact ⟨tp, .inr rfl, rfl⟩
      · exact ⟨q, .inl hq, hrow⟩
    · rintro ⟨q, hq | rfl, hrow⟩
      · exact .inr ⟨q, hq, hrow⟩
      · exact .inl hrow.symm
  bit row column := by
    rw [BitSetMap.setColumn, bitset_put]
    obtain ⟨r, c⟩ := tp
    by_cases hr : row = r
    · subst hr
      rw [if_pos rfl]
      cases c with
      | none => simp [h.bit]
      | some c =>
        rw [TablePosition.getColumn_some, if_neg (by omega), Int.toNat_natCast, Finset.mem_insert,
          h.bit]
        simp [or_comm]
    · rw [if_neg hr, h.bit]
      simp [hr]

/-- The bulk updates: a list of positions joins. -/
theorem foldl_setColumn (cells : List TablePosition) (h : Marks map P) :
    Marks (cells.foldl BitSetMap.setColumn map) fun q => P q ∨ q ∈ cells := by
  induction cells generalizing map P with
  | nil => exact h.congr fun q => by simp
  | cons tp cells ih => exact (ih (h.setColumn tp)).congr fun q => by simp [or_assoc]

end Marks

namespace SelectedCellsMap

variable {m : SelectedCellsMap} {tp : TablePosition} {cells : List TablePosition}

theorem inStep_iff : m.InStep ↔
    m.selectedCells.Nodup ∧ Marks m.selectedCellBitSetMap (· ∈ m.selectedCells) := by
  have hcell (row : ℤ) (c : ℕ) :
      (∃ tp ∈ m.selectedCells, tp.row = row ∧ tp.getColumn = c) ↔
        ⟨row, some c⟩ ∈ m.selectedCells := by
    constructor
    · rintro ⟨⟨r, column⟩, htp, rfl, hcolumn⟩
      obtain ⟨c', rfl⟩ := TablePosition.getColumn_nonneg.1 (hcolumn ▸ Int.natCast_nonneg c)
      have hc : c' = c := by simpa [TablePosition.getColumn] using hcolumn
      exact hc ▸ htp
    · intro htp
      exact ⟨_, htp, rfl, rfl⟩
  have hbit (row : ℤ) (c : ℕ) : m.isSelected row c = true ↔
      c ∈ m.selectedCellBitSetMap.bitset row := by
    rw [isSelected, if_neg (by omega), decide_eq_true_eq, Int.toNat_natCast]
  constructor
  · intro h
    refine ⟨h.once, h.row, fun row c => ?_⟩
    rw [← hbit, h.cell row c (Int.natCast_nonneg c), hcell]
  · rintro ⟨hnodup, hmarks⟩
    refine ⟨hnodup, fun row column hcolumn => ?_, hmarks.row⟩
    obtain ⟨c, rfl⟩ := Int.eq_ofNat_of_zero_le hcolumn
    rw [hbit, hmarks.bit, hcell]

/-! ## What each call does -/

/-- A position with a column is in the list when its bit is set, one without when
`contains` finds it: both branches of `add` decide by membership. -/
theorem add_inStep (h : m.InStep) (tp : TablePosition) : (m.add true tp).InStep := by
  rw [inStep_iff] at h ⊢
  obtain ⟨hnodup, hmarks⟩ := h
  have hset := hmarks.setColumn tp
  have hnew (hmem : tp ∉ m.selectedCells) : (m.selectedCells ++ [tp]).Nodup :=
    List.nodup_append.2 ⟨hnodup, List.nodup_singleton tp, fun a ha b hb hab =>
      hmem (List.mem_singleton.1 hb ▸ hab ▸ ha)⟩
  obtain ⟨row, column⟩ := tp
  cases column with
  | none =>
    have hc : ¬(0 : ℤ) ≤ -1 := by decide
    have hmap : m.selectedCellBitSetMap.setColumn ⟨row, none⟩ =
        m.selectedCellBitSetMap.put row (m.selectedCellBitSetMap.bitset row) := by
      rw [BitSetMap.setColumn, TablePosition.getColumn_none, if_pos (by decide)]
    rw [hmap] at hset
    by_cases hmem : (⟨row, none⟩ : TablePosition) ∈ m.selectedCells
    · simp only [add, if_true, TablePosition.getColumn_none, if_neg hc, if_pos hmem]
      exact ⟨hnodup, hset.congr fun q => or_iff_left_of_imp fun hq => hq ▸ hmem⟩
    · simp only [add, if_true, TablePosition.getColumn_none, if_neg hc, if_neg hmem]
      exact ⟨hnew hmem, hset.congr fun q => by simp⟩
  | some c =>
    have hc : (0 : ℤ) ≤ c := Int.natCast_nonneg c
    have hmap : m.selectedCellBitSetMap.setColumn ⟨row, some c⟩ =
        m.selectedCellBitSetMap.put row (insert c (m.selectedCellBitSetMap.bitset row)) := by
      rw [BitSetMap.setColumn, TablePosition.getColumn_some, if_neg (not_lt.2 hc),
        Int.toNat_natCast]
    rw [hmap] at hset
    by_cases hmem : c ∈ m.selectedCellBitSetMap.bitset row
    · have hcell := (hmarks.bit row c).1 hmem
      rw [Finset.insert_eq_of_mem hmem] at hset
      simp only [add, if_true, TablePosition.getColumn_some, if_pos hc, Int.toNat_natCast, hmem]
      exact ⟨hnodup, hset.congr fun q => or_iff_left_of_imp fun hq => hq ▸ hcell⟩
    · have hput (bits bits' : Finset ℕ) :
          (m.selectedCellBitSetMap.put row bits).put row bits' =
            m.selectedCellBitSetMap.put row bits' := Function.update_idem ..
      simp only [add, if_true, TablePosition.getColumn_some, if_pos hc, Int.toNat_natCast,
        if_neg hmem, hput]
      exact ⟨hnew fun h => hmem ((hmarks.bit row c).2 h), hset.congr fun q => by simp⟩

/-- `addAll` appends without looking: the map is right in every case, the list only
when nothing comes twice. -/
theorem addAll_inStep_iff (h : m.InStep) (cells : List TablePosition) :
    (m.addAll cells).InStep ↔ cells.Nodup ∧ ∀ tp ∈ cells, tp ∉ m.selectedCells := by
  rw [inStep_iff] at h ⊢
  obtain ⟨hnodup, hmarks⟩ := h
  have hmap : Marks (m.addAll cells).selectedCellBitSetMap (· ∈ (m.addAll cells).selectedCells) :=
    (hmarks.foldl_setColumn cells).congr fun q => by simp [addAll]
  have hlist : (m.addAll cells).selectedCells.Nodup ↔
      cells.Nodup ∧ ∀ tp ∈ cells, tp ∉ m.selectedCells := by
    simp only [addAll, List.nodup_append, hnodup, true_and]
    refine and_congr_right fun _ => ⟨fun hne tp htp hin => hne tp hin tp htp rfl, ?_⟩
    rintro hnew a ha b hb rfl
    exact hnew a hb ha
  rw [hlist, and_iff_left hmap]

theorem setAll_inStep_iff (m : SelectedCellsMap) (cells : List TablePosition) :
    (m.setAll cells).InStep ↔ cells.Nodup := by
  rw [inStep_iff]
  have hmap : Marks (m.setAll cells).selectedCellBitSetMap (· ∈ (m.setAll cells).selectedCells) :=
    (Marks.empty.foldl_setColumn cells).congr fun q => by simp [setAll]
  exact and_iff_left hmap

theorem clear_inStep (m : SelectedCellsMap) : m.clear.InStep := by
  rw [inStep_iff]
  exact ⟨List.nodup_nil, Marks.empty.congr fun q => by simp [clear]⟩

/-- The bits that `remove` leaves in the row of the position. -/
def bitsLeft (m : SelectedCellsMap) (tp : TablePosition) : Finset ℕ :=
  if 0 ≤ tp.getColumn then (m.selectedCellBitSetMap.bitset tp.row).erase tp.getColumn.toNat
  else m.selectedCellBitSetMap.bitset tp.row

theorem bitset_remove (m : SelectedCellsMap) (tp : TablePosition) (row : ℤ) :
    (m.remove tp).selectedCellBitSetMap.bitset row =
      if row = tp.row then m.bitsLeft tp else m.selectedCellBitSetMap.bitset row := by
  unfold remove bitsLeft
  dsimp only
  by_cases hkey : m.selectedCellBitSetMap.containsKey tp.row = true
  · rw [if_pos hkey]
    split_ifs with hrow hcolumn hbits hcolumn hbits hbits
    all_goals simp_all [BitSetMap.remove, BitSetMap.put, BitSetMap.bitset]
  · -- a row the map does not have has no bits either
    have hnone : m.selectedCellBitSetMap.bitset tp.row = ∅ := by
      unfold BitSetMap.containsKey at hkey
      rw [BitSetMap.bitset, Option.not_isSome_iff_eq_none.1 hkey]
      rfl
    rw [if_neg hkey, hnone]
    split_ifs with hrow hcolumn
    · rw [hrow, hnone, Finset.erase_empty]
    · rw [hrow, hnone]
    · rfl

theorem containsKey_remove (m : SelectedCellsMap) (tp : TablePosition) (row : ℤ) :
    (m.remove tp).selectedCellBitSetMap.containsKey row = true ↔
      m.selectedCellBitSetMap.containsKey row = true ∧ (row = tp.row → m.bitsLeft tp ≠ ∅) := by
  unfold remove bitsLeft
  dsimp only
  by_cases hrow : row = tp.row
  · subst hrow
    by_cases hkey : m.selectedCellBitSetMap.containsKey tp.row = true
    · rw [if_pos hkey]
      split_ifs with hcolumn hbits hbits
      all_goals simp_all [BitSetMap.remove, BitSetMap.put, BitSetMap.containsKey]
    · rw [if_neg hkey]
      simp [hkey]
  · split_ifs
    all_goals simp [BitSetMap.remove, BitSetMap.put, BitSetMap.containsKey, hrow]

/-- Whether `remove` keeps the two sides in step: it takes the row out of the map with
the last bit of the row, and the list may still hold the row as a whole. -/
def RowStays (m : SelectedCellsMap) (tp : TablePosition) : Prop :=
  tp.tableColumn ≠ none → ⟨tp.row, none⟩ ∈ m.selectedCells →
    ∃ c, some c ≠ tp.tableColumn ∧ ⟨tp.row, some c⟩ ∈ m.selectedCells

theorem mem_bitsLeft (h : m.InStep) (tp : TablePosition) (c : ℕ) :
    c ∈ m.bitsLeft tp ↔ some c ≠ tp.tableColumn ∧ ⟨tp.row, some c⟩ ∈ m.selectedCells := by
  have hbit := (inStep_iff.1 h).2.bit
  unfold bitsLeft
  obtain ⟨row, column⟩ := tp
  cases column with
  | none => simp [hbit]
  | some c' =>
    rw [TablePosition.getColumn_some, if_pos (Int.natCast_nonneg c'), Int.toNat_natCast,
      Finset.mem_erase, hbit]
    simp

/-- The bits of the map are right after every `remove`; its rows are when `RowStays`. -/
theorem remove_inStep_iff (h : m.InStep) (tp : TablePosition) :
    (m.remove tp).InStep ↔ m.RowStays tp := by
  have hleft := mem_bitsLeft h tp
  obtain ⟨hnodup, hmarks⟩ := inStep_iff.1 h
  have herase (q : TablePosition) :
      q ∈ (m.remove tp).selectedCells ↔ q ≠ tp ∧ q ∈ m.selectedCells := hnodup.mem_erase_iff
  rw [inStep_iff]
  constructor
  · rintro ⟨-, hmarks'⟩ htp hwhole
    have hkey : (m.remove tp).selectedCellBitSetMap.containsKey tp.row = true := by
      refine (hmarks'.row tp.row).2 ⟨⟨tp.row, none⟩, (herase _).2 ⟨?_, hwhole⟩, rfl⟩
      exact fun heq => htp (by rw [← heq])
    obtain ⟨c, hc⟩ := Finset.nonempty_iff_ne_empty.2
      (((containsKey_remove m tp tp.row).1 hkey).2 rfl)
    exact ⟨c, (hleft c).1 hc⟩
  · intro hstays
    refine ⟨hnodup.erase tp, fun row => ?_, fun row c => ?_⟩
    · rw [containsKey_remove, hmarks.row]
      constructor
      · rintro ⟨⟨q, hq, rfl⟩, hbits⟩
        by_cases hrow : q.row = tp.row
        · obtain ⟨c, hc⟩ := Finset.nonempty_iff_ne_empty.2 (hbits hrow)
          obtain ⟨hne, hmem⟩ := (hleft c).1 hc
          exact ⟨_, (herase _).2 ⟨fun heq => hne (by rw [← heq]), hmem⟩, hrow.symm⟩
        · exact ⟨q, (herase q).2 ⟨fun heq => hrow (by rw [heq]), hq⟩, rfl⟩
      · rintro ⟨q, hq, rfl⟩
        obtain ⟨hne, hmem⟩ := (herase q).1 hq
        refine ⟨⟨q, hmem, rfl⟩, fun hrow => ?_⟩
        obtain ⟨row, column⟩ := q
        obtain rfl : row = tp.row := hrow
        have hcolumn : column ≠ tp.tableColumn := fun heq => hne (by rw [heq])
        suffices hex : ∃ c, some c ≠ tp.tableColumn ∧ ⟨tp.row, some c⟩ ∈ m.selectedCells by
          obtain ⟨c, hc⟩ := hex
          exact Finset.nonempty_iff_ne_empty.1 ⟨c, (hleft c).2 hc⟩
        cases column with
        | none => exact hstays (Ne.symm hcolumn) hmem
        | some c => exact ⟨c, hcolumn, hmem⟩
    · rw [bitset_remove, herase]
      by_cases hrow : row = tp.row
      · subst hrow
        rw [if_pos rfl, hleft]
        refine and_congr_left fun _ => not_congr ⟨fun heq => ?_, fun heq => ?_⟩
        · rw [heq]
        · rw [← heq]
      · rw [if_neg hrow, hmarks.bit]
        exact (and_iff_right fun heq => hrow (by rw [← heq])).symm

/-! ## Runs -/

/-- The calls after which the two sides still say the same. -/
def Fits (m : SelectedCellsMap) : Action → Prop
  | .add _ => True
  | .addAll cells => cells.Nodup ∧ ∀ tp ∈ cells, tp ∉ m.selectedCells
  | .setAll cells => cells.Nodup
  | .remove tp => m.RowStays tp
  | .clear => True

theorem step_inStep_iff {m' : SelectedCellsMap} {a : Action} (h : m.InStep)
    (hstep : step true m a = .ok m') : m'.InStep ↔ m.Fits a := by
  cases a with
  | add tp =>
    cases hstep
    exact iff_true_intro (add_inStep h tp)
  | addAll cells =>
    cases hstep
    exact addAll_inStep_iff h cells
  | setAll cells =>
    cases hstep
    exact setAll_inStep_iff m cells
  | remove tp =>
    cases hstep
    exact remove_inStep_iff h tp
  | clear =>
    cases hstep
    exact iff_true_intro (clear_inStep m)

theorem new_inStep : new.InStep := clear_inStep new

example : ((new.add true ⟨0, some 0⟩).addAll [⟨0, some 0⟩]).selectedCells =
    [⟨0, some 0⟩, ⟨0, some 0⟩] := by decide

end SelectedCellsMap

end JavaFx.Control
