/-
The view of the selected indices over runs of a selection model.

A `get` has three ways: one step forward from the last value, one step back, and a search
from the first bit. The search is always right. A step is right exactly when the last
value still stands where the last index says, and nothing sees to that: the bits change
under the cursor. `CursorFits` is that condition, on the state a `get` is made in, and
`right_iff` that it decides the answer.

Every `get` of a run is recorded, those that `select`, `indexOf` or an iteration make
too, and `Logged` says that the record is true.
-/
import JavaFx.Control.MultipleSelectionModel
import JavaFx.Lib.Java

set_option autoImplicit false

namespace JavaFx.Control

open JavaFx.Lib JavaFx.ListChange

namespace ViewRead

/-- An index of the view. -/
def InRange (g : ViewRead) : Prop := 0 ≤ g.index ∧ g.index < g.bitset.cardinality

/-- The answer is the selected index at that place. -/
def Right (g : ViewRead) : Prop := g.bitset.IsNth g.index.toNat g.result

/-- The answer is the one of `get`. -/
def Made (g : ViewRead) : Prop :=
  g.result =
    (SelectionModel.viewGet g.bitset g.itemCount g.lastGetIndex g.lastGetValue g.index).1

/-- Where the cursor is used, as many bits are before it as its index says. -/
def CursorFits (g : ViewRead) : Prop :=
  g.index < g.itemCount ∧
    if g.index = g.lastGetIndex + 1 ∧ g.lastGetValue < g.itemCount then
      g.bitset.rank (g.lastGetValue + 1) = g.index.toNat
    else if g.index = g.lastGetIndex - 1 ∧ 0 < g.lastGetValue then
      g.bitset.rank g.lastGetValue = g.index.toNat + 1
    else True

end ViewRead

/-! ## One `get` -/

section Get

variable {bitset : BitSet} {index : ℤ}

/-- The search, from a place on the way. -/
theorem scan_isNth (hindex : 0 ≤ index) (hlt : index < bitset.cardinality) (fuel k : ℕ)
    (lastGetValue : ℤ) (hk : bitset.IsNth k lastGetValue) (hle : k ≤ index)
    (hfuel : index < k + fuel) :
    bitset.IsNth index.toNat (SelectionModel.scan bitset index fuel k lastGetValue).1 := by
  induction fuel generalizing k lastGetValue with
  | zero => omega
  | succ fuel ih =>
    have hvalue : 0 ≤ lastGetValue := by
      obtain ⟨b, -, rfl, -⟩ := hk
      exact Int.natCast_nonneg b
    unfold SelectionModel.scan
    rw [if_pos (.inl hvalue)]
    by_cases heq : (k : ℤ) = index
    · rw [if_pos heq]
      subst heq
      rwa [Int.toNat_natCast]
    · rw [if_neg heq]
      have hrank : bitset.rank (lastGetValue + 1) = k + 1 := by
        obtain ⟨b, hb, rfl, hrank⟩ := hk
        rw [BitSet.rank_succ hb, hrank]
      have hnext : bitset.IsNth (k + 1) (bitset.nextSetBit (lastGetValue + 1)) :=
        (BitSet.nextSetBit_isNth_iff (by omega)).mpr hrank
      have hcast : (k : ℤ) + 1 = (k + 1 : ℕ) := by omega
      rw [hcast]
      exact ih (k + 1) _ hnext (by omega) (by omega)

/-- **One `get`**: the cursor decides. -/
theorem ViewRead.right_iff {g : ViewRead} (hmade : g.Made) (hrange : g.InRange) :
    g.Right ↔ g.CursorFits := by
  obtain ⟨hnonneg, hlt⟩ := hrange
  have hcard : g.index.toNat < g.bitset.cardinality := by omega
  unfold Right CursorFits
  rw [hmade, SelectionModel.viewGet]
  by_cases hcount : g.index < g.itemCount
  · rw [if_neg (by omega), and_iff_right hcount]
    by_cases hforward : g.index = g.lastGetIndex + 1 ∧ g.lastGetValue < g.itemCount
    · rw [if_pos hforward, if_pos hforward]
      exact BitSet.nextSetBit_isNth_iff hcard
    · rw [if_neg hforward, if_neg hforward]
      by_cases hback : g.index = g.lastGetIndex - 1 ∧ 0 < g.lastGetValue
      · rw [if_pos hback, if_pos hback]
        exact BitSet.previousSetBit_isNth_iff
      · rw [if_neg hback, if_neg hback]
        -- the search begins at the first bit
        have hzero : g.bitset.IsNth 0 (g.bitset.nextSetBit 0) :=
          (BitSet.nextSetBit_isNth_iff (by omega)).mpr
            (BitSet.rank_eq_zero fun b _ => Int.natCast_nonneg b)
        exact iff_true_intro (scan_isNth hnonneg hlt _ 0 _ hzero hnonneg (by omega))
  · rw [if_pos (.inr (not_lt.mp hcount))]
    refine iff_of_false ?_ fun h => hcount h.1
    rintro ⟨b, -, hb, -⟩
    omega

end Get

/-! ## The record of a run -/

namespace SelectionModel

variable {T : Type} {s : SelectionModel T}

/-- The record is true. -/
def Logged (s : SelectionModel T) : Prop := ∀ g ∈ s.reads, g.Made

theorem Logged.of_reads {s' : SelectionModel T} (h : s.Logged) (hreads : s'.reads = s.reads) :
    s'.Logged := by
  unfold Logged
  rwa [hreads]

theorem Logged.setBits (h : s.Logged) (bitset : BitSet) : (s.setBits bitset).Logged :=
  h.of_reads rfl

theorem Logged.quietClearSelection (h : s.Logged) : s.quietClearSelection.Logged := h.setBits _

theorem Logged.stopAtomic (h : s.Logged) : s.stopAtomic.Logged := h.of_reads rfl

theorem Logged.setSelectedItem (h : s.Logged) (item : Option T) : (s.setSelectedItem item).Logged :=
  h.of_reads rfl

theorem Logged.get (h : s.Logged) (index : ℤ) : (s.get index).2.Logged := by
  intro g hg
  rcases List.mem_cons.mp hg with rfl | hg
  · rfl
  · exact h g hg

theorem Logged.indexOfFrom (o : ℤ) (left : ℕ) (i : ℤ) (h : s.Logged) :
    (indexOfFrom o left i s).2.Logged := by
  induction left generalizing i s with
  | zero => exact h
  | succ left ih =>
    unfold SelectionModel.indexOfFrom
    dsimp only
    split_ifs
    · exact h.get i
    · exact ih (i + 1) (h.get i)

theorem Logged.indexOf (h : s.Logged) (o : ℤ) : (s.indexOf o).2.Logged := h.indexOfFrom o _ 0

theorem Logged.toArrayFrom (left : ℕ) (i : ℤ) (h : s.Logged) : (toArrayFrom left i s).2.Logged := by
  induction left generalizing i s with
  | zero => exact h
  | succ left ih => exact ih (i + 1) (h.get i)

theorem Logged.toArray (h : s.Logged) : s.toArray.2.Logged := h.toArrayFrom _ 0

theorem setSelectedIndex_reads (s : SelectionModel T) (value : ℤ) :
    (s.setSelectedIndex value).reads = s.reads := by
  unfold setSelectedIndex
  split_ifs <;> rfl

theorem clearSelection_reads (s : SelectionModel T) : s.clearSelection.reads = s.reads := by
  unfold clearSelection
  dsimp only
  split_ifs
  · rfl
  · exact setSelectedIndex_reads _ _

theorem clearSelectionAt_reads (s : SelectionModel T) (index : ℤ) :
    (s.clearSelectionAt index).reads = s.reads := by
  unfold clearSelectionAt
  dsimp only
  split_ifs
  · rfl
  · exact clearSelection_reads _
  · rfl

theorem selectAll_reads (s : SelectionModel T) (focusedIndex : ℤ) :
    (s.selectAll focusedIndex).reads = s.reads := by
  unfold selectAll
  dsimp only
  split_ifs
  · rfl
  · rfl
  all_goals exact (setSelectedIndex_reads _ _).trans (clearSelection_reads s)

theorem Logged.ite {c : Prop} [Decidable c] {s s' : SelectionModel T} (h : s.Logged)
    (h' : s'.Logged) : (if c then s else s').Logged := by
  split_ifs
  · exact h
  · exact h'

theorem setRow_reads (s : SelectionModel T) (row : ℕ) : (s.setRow row).reads = s.reads := by
  unfold setRow
  dsimp only
  split_ifs <;> rfl

section Equals

variable [DecidableEq T]

theorem Logged.select (h : s.Logged) (row : ℤ) : (s.select row).Logged := by
  unfold SelectionModel.select
  refine .ite (h.of_reads (clearSelection_reads s)) (.ite h ?_)
  have hset : ((s.startAtomic.setRow row.toNat).setSelectedIndex row).Logged :=
    h.of_reads ((setSelectedIndex_reads _ _).trans (setRow_reads _ _))
  have hread := Logged.ite (c := (((s.startAtomic.setRow row.toNat).setSelectedIndex
    row).stopAtomic).isAtomic = true) hset.stopAtomic (hset.stopAtomic.indexOf row)
  exact .ite (hread.setSelectedItem _) hread

theorem Logged.selectItem (h : s.Logged) (obj : Option T) : (s.selectItem obj).Logged := by
  unfold SelectionModel.selectItem
  refine .ite (h.of_reads (clearSelection_reads s)) ?_
  cases s.rowOf obj with
  | none => exact (h.of_reads (setSelectedIndex_reads s (-1))).setSelectedItem obj
  | some i =>
    have hquiet : (if s.selectionMode = .single then s.quietClearSelection else s).Logged :=
      .ite h.quietClearSelection h
    exact .ite h (hquiet.select i)

theorem Logged.selectIndices (h : s.Logged) (row : ℤ) (rows : List ℤ) :
    (s.selectIndices row rows).Logged := by
  unfold SelectionModel.selectIndices
  refine .ite (h.select row) (.ite ?_ ?_)
  · have hlast : (s.quietClearSelection.selectLastRow rows).Logged := by
      unfold selectLastRow
      split
      · exact (h.quietClearSelection.setBits _).select _
      · exact h.quietClearSelection
    unfold selectLastOf
    exact .ite ((hlast.setBits _).select row) hlast
  · unfold selectAllOf
    dsimp only
    generalize selectRows s.itemCount (row :: rows) (-1, [], s.selectedIndices) = r
    have hlead : (if r.1 ≠ -1 then
        ((s.setBits r.2.2).setSelectedIndex r.1).setSelectedItem
          (((s.setBits r.2.2).setSelectedIndex r.1).getModelItem r.1)
        else s.setBits r.2.2).Logged :=
      .ite (((h.setBits r.2.2).of_reads (setSelectedIndex_reads _ r.1)).setSelectedItem _)
        (h.setBits r.2.2)
    cases r.2.1.mergeSort with
    | nil => exact hlead
    | cons startValue rest => exact hlead.indexOf startValue

theorem Logged.shiftSelection (h : s.Logged) (position shift : ℤ) :
    (s.shiftSelection position shift).Logged := by
  unfold SelectionModel.shiftSelection
  refine .ite h (.ite h (.ite h ?_))
  dsimp only
  unfold shiftLead
  dsimp only
  generalize shiftBits s.selectedIndices position.toNat shift = r
  have hlead := (h.setBits r.1).of_reads (setSelectedIndex_reads (s.setBits r.1)
    (max 0 ((s.setBits r.1).selectedIndex + shift)))
  exact .ite (.ite (hlead.setBits _) (hlead.select _)) (h.setBits r.1)

theorem Logged.onSubChange (h : s.Logged) (c : SubChange (Option T)) : (s.onSubChange c).Logged := by
  unfold SelectionModel.onSubChange
  refine .ite (h.of_reads (clearSelection_reads s)) (.ite ?_ (.ite ?_ h))
  · cases s.items.findIdx? (· = s.selectedItem) with
    | none => exact h
    | some newIndex => exact h.of_reads (setSelectedIndex_reads s newIndex)
  · unfold leaveRemoved
    refine .ite (.ite ?_ h) h
    have hclear : (s.startAtomic.clearSelectionAt s.selectedIndex).Logged :=
      h.of_reads (clearSelectionAt_reads s.startAtomic _)
    exact hclear.stopAtomic.selectItem _

theorem Logged.updateSubChange (h : s.Logged) (shift : ℤ) (c : SubChange (Option T)) :
    (updateSubChange (s, shift) c).1.Logged := by
  unfold SelectionModel.updateSubChange
  dsimp only
  by_cases hreplaced : c.wasReplaced = true
  · rw [if_pos hreplaced]
    unfold onReplaced
    have hclear := h.of_reads (clearSelection_reads s)
    have hclearAt : (s.startAtomic.clearSelectionAt s.selectedIndex).Logged :=
      h.of_reads (clearSelectionAt_reads s.startAtomic _)
    exact .ite hclear (.ite hclear (.ite (hclearAt.stopAtomic.select _) hclear))
  rw [if_neg hreplaced]
  by_cases hsizes : c.wasAdded = true ∨ c.wasRemoved = true
  · rw [if_pos hsizes]
    exact h
  rw [if_neg hsizes]
  by_cases hpermutated : c.wasPermutated = true
  · rw [if_pos hpermutated]
    have hclear := h.toArray.of_reads (clearSelection_reads s.toArray.2)
    unfold onPermutated
    dsimp only
    split
    · exact hclear
    · exact hclear.select _
    · exact hclear.selectIndices _ _
  · rw [if_neg hpermutated]
    exact h

theorem Logged.onChanged (h : s.Logged) (final : List (Option T))
    (cs : List (SubChange (Option T))) : (s.onChanged final cs).Logged := by
  have hobserve : ∀ s : SelectionModel T, s.Logged →
      (cs.foldl SelectionModel.onSubChange s).Logged := by
    induction cs with
    | nil => exact fun s hs => hs
    | cons c cs ih => exact fun s hs => ih _ (hs.onSubChange c)
  have hupdate : ∀ acc : SelectionModel T × ℤ, acc.1.Logged →
      (cs.foldl SelectionModel.updateSubChange acc).1.Logged := by
    clear hobserve
    induction cs with
    | nil => exact fun acc hacc => hacc
    | cons c cs ih => exact fun acc hacc => ih _ (hacc.updateSubChange acc.2 c)
  have hloops := hupdate (cs.foldl SelectionModel.onSubChange
    { s with items := final, itemCount := final.length }, 0) (hobserve _ h)
  unfold SelectionModel.onChanged updateSelection
  dsimp only
  generalize cs.foldl SelectionModel.updateSubChange _ = r at hloops
  cases cs.getLast? with
  | none => exact hloops
  | some c =>
    have hshift := hloops.shiftSelection c.fromIdx r.2
    exact Logged.ite (c := r.2 ≠ 0) hshift hloops

/-! ## Runs -/

inductive Action (T : Type) where
  | select (row : ℤ)
  | selectItem (obj : Option T)
  | clearSelection
  | clearSelectionAt (index : ℤ)
  | selectIndices (row : ℤ) (rows : List ℤ)
  | selectAll (focusedIndex : ℤ)
  | shiftSelection (position shift : ℤ)
  | onChanged (final : List (Option T)) (cs : List (SubChange (Option T)))
  | get (index : ℤ)
  | indexOf (o : ℤ)
  | iterate

/-- One call; none of them throws. -/
def step (s : SelectionModel T) : Action T → Except Exn (SelectionModel T)
  | .select row => .ok (s.select row)
  | .selectItem obj => .ok (s.selectItem obj)
  | .clearSelection => .ok s.clearSelection
  | .clearSelectionAt index => .ok (s.clearSelectionAt index)
  | .selectIndices row rows => .ok (s.selectIndices row rows)
  | .selectAll focusedIndex => .ok (s.selectAll focusedIndex)
  | .shiftSelection position shift => .ok (s.shiftSelection position shift)
  | .onChanged final cs => .ok (s.onChanged final cs)
  | .get index => .ok (s.get index).2
  | .indexOf o => .ok (s.indexOf o).2
  | .iterate => .ok s.toArray.2

theorem step_logged (h : s.Logged) (a : Action T) : ∃ s', step s a = .ok s' ∧ s'.Logged := by
  cases a with
  | select row => exact ⟨_, rfl, h.select row⟩
  | selectItem obj => exact ⟨_, rfl, h.selectItem obj⟩
  | clearSelection => exact ⟨_, rfl, h.of_reads (clearSelection_reads s)⟩
  | clearSelectionAt index => exact ⟨_, rfl, h.of_reads (clearSelectionAt_reads s index)⟩
  | selectIndices row rows => exact ⟨_, rfl, h.selectIndices row rows⟩
  | selectAll focusedIndex => exact ⟨_, rfl, h.of_reads (selectAll_reads s focusedIndex)⟩
  | shiftSelection position shift => exact ⟨_, rfl, h.shiftSelection position shift⟩
  | onChanged final cs => exact ⟨_, rfl, h.onChanged final cs⟩
  | get index => exact ⟨_, rfl, h.get index⟩
  | indexOf o => exact ⟨_, rfl, h.indexOf o⟩
  | iterate => exact ⟨_, rfl, h.toArray⟩

/-- **The view over runs.** From any state, whatever was read before, every `get` of a
run is right exactly if its cursor fits. -/
theorem selectedIndices_run_right_iff (start : SelectionModel T) (actions : List (Action T)) :
    ∃ s, run step { start with reads := [] } actions = .ok s ∧
      ∀ g ∈ s.reads, g.InRange → (g.Right ↔ g.CursorFits) := by
  have hstart : ({ start with reads := [] } : SelectionModel T).Logged := nofun
  have hany : Along step (fun _ _ => True) { start with reads := [] } actions :=
    .of_forall fun _ _ => trivial
  obtain ⟨s, hs, hlogged⟩ := run_invariant Logged (fun s a h _ => step_logged h a) hstart hany
  exact ⟨s, hs, fun g hg hrange => ViewRead.right_iff (hlogged g hg) hrange⟩

/-- Of the indices 5 and 7 the first is cleared; the cursor stays on 7 with index 1, and
`get(0)` looks for a bit before it. -/
theorem selectedIndices_cursor_stays :
    ∃ s, run step (new .multiple (List.replicate 10 (some ())))
        [.select 5, .select 7, .clearSelectionAt 5, .get 0] = .ok s ∧
      ∃ g ∈ s.reads, g.index = 0 ∧ g.bitset.bits = {7} ∧ g.result = -1 ∧ g.InRange ∧ ¬g.Right := by
  refine ⟨_, rfl, _, List.mem_cons_self, by decide, by decide, by decide, ?_, ?_⟩
  · unfold ViewRead.InRange
    decide
  · unfold ViewRead.Right
    decide

/-- A search that was cut short: `select(6)` asks its own view for the place of the new
index and is told that it is the first of 5, 6 and 7. -/
example : ((((new .multiple (List.replicate 10 (some ()))).select 5).select 7).select
    6).reads.head?.map (fun g => (g.index, g.result)) = some (0, 6) := by decide

end Equals

end SelectionModel

end JavaFx.Control
