/-
What the calls of a text input control do to a control whose history is in order.

`Sound` is the invariant: the length is known or will be computed from the text,
the flags are those of the present record, and the chain of records leads back to
the text the control was given and forward over the edits that were taken back.
The private methods come first, each with one specification, and the calls are put
together from them.
-/
import JavaFx.Control.TextInputControl

set_option autoImplicit false

namespace JavaFx.Control.TextInputControl

open JavaFx.Lib

variable {kind : ContentKind} {s s' : TextInputControl} {A B C t text value base : Text}
  {start stop index : ℕ} {Q : Unit → TextInputControl → Prop} {E : Exn → TextInputControl → Prop}

/-! ## The content -/

/-- The length that is known is that of the text. -/
structure Steady (s : TextInputControl) : Prop where
  null : s.textIsNull = true → s.characters = []
  length : ∀ n, s.cachedLength = some n → n = s.characters.length

theorem Steady.length_eq (h : Steady s) : s.length = s.characters.length := by
  unfold TextInputControl.length
  cases hn : s.cachedLength with
  | some n => exact h.length n hn
  | none =>
    rw [Option.getD_none]
    split
    · rename_i hnull
      rw [h.null hnull, List.length_nil]
    · rfl

/-- The two states have one history. -/
structure Kept (s s' : TextInputControl) : Prop where
  changes : s'.changes = s.changes
  fresh : s'.fresh = s.fresh
  undoChange : s'.undoChange = s.undoChange
  createNewUndoRecord : s'.createNewUndoRecord = s.createNewUndoRecord
  undoable : s'.undoable = s.undoable
  redoable : s'.redoable = s.redoable
  textIsNull : s.textIsNull = false → s'.textIsNull = false

theorem Kept.refl (s : TextInputControl) : Kept s s := ⟨rfl, rfl, rfl, rfl, rfl, rfl, id⟩

theorem Kept.trans {s'' : TextInputControl} (h : Kept s s') (h' : Kept s' s'') : Kept s s'' :=
  ⟨h'.changes.trans h.changes, h'.fresh.trans h.fresh, h'.undoChange.trans h.undoChange,
    h'.createNewUndoRecord.trans h.createNewUndoRecord, h'.undoable.trans h.undoable,
    h'.redoable.trans h.redoable, fun hn => h'.textIsNull (h.textIsNull hn)⟩

/-- The state when the length was asked for. -/
def measured (s : TextInputControl) : TextInputControl := { s with cachedLength := some s.length }

theorem kept_measured (s : TextInputControl) : Kept s s.measured := ⟨rfl, rfl, rfl, rfl, rfl, rfl, id⟩

@[simp] theorem characters_measured (s : TextInputControl) :
    s.measured.characters = s.characters := rfl

@[simp] theorem length_measured (s : TextInputControl) : s.measured.length = s.length := rfl

theorem Steady.measured (h : Steady s) : Steady s.measured := by
  refine ⟨h.null, fun n hn => ?_⟩
  have heq : some s.length = some n := hn
  rw [← Option.some.inj heq]
  exact h.length_eq

@[simp] theorem wp_getLength {Q : ℕ → TextInputControl → Prop} :
    Wp getLength s Q E ↔ Q s.length s.measured := by
  simp only [getLength, wp_bind, wp_get, wp_set, wp_pure]
  rfl

/-- The state when the content has a new text. -/
def told (s : TextInputControl) (t : Text) (notifyListeners : Bool) : TextInputControl :=
  if notifyListeners then
    { s with
      characters := t
      textIsNull := if t.length > 0 then false else s.textIsNull
      cachedLength := none }
  else { s with characters := t }

@[simp] theorem characters_told (t : Text) (notifyListeners : Bool) :
    (s.told t notifyListeners).characters = t := by
  cases notifyListeners <;> rfl

theorem kept_told (t : Text) (notifyListeners : Bool) : Kept s (s.told t notifyListeners) := by
  cases notifyListeners with
  | false => exact ⟨rfl, rfl, rfl, rfl, rfl, rfl, id⟩
  | true =>
    refine ⟨rfl, rfl, rfl, rfl, rfl, rfl, fun hnull => ?_⟩
    change (if t.length > 0 then false else s.textIsNull) = false
    rw [hnull, ite_self]

/-- A text that was told is known. -/
theorem steady_told (s : TextInputControl) (t : Text) : Steady (s.told t true) := by
  constructor
  · intro h
    by_contra hne
    have hpos : t.length > 0 := List.length_pos_of_ne_nil hne
    have hfalse : (s.told t true).textIsNull = false := if_pos hpos
    rw [hfalse] at h
    cases h
  · intro n hn
    cases hn

theorem wp_contentHasChanged {o : Option Text} {notifyListeners : Bool} :
    Wp (contentHasChanged o notifyListeners) s Q E
      ↔ Q () (match o with | none => s | some t => s.told t notifyListeners) := by
  cases o with
  | none => rfl
  | some t => rfl

theorem wp_insertContent (hchars : s.characters = A ++ C) (hindex : index = A.length)
    {notifyListeners : Bool} : Wp (insertContent kind index text notifyListeners) s Q E
      ↔ Q () (if kind.filterInput text = [] then s
          else s.told (A ++ kind.filterInput text ++ C) notifyListeners) := by
  unfold insertContent
  rw [wp_bind, wp_get, hchars, ContentKind.insert_mid hindex, wp_bind, wp_liftExcept]
  simp only [Except.ok.injEq, forall_eq', reduceCtorEq, false_implies, implies_true, and_true,
    wp_contentHasChanged]
  by_cases hnil : kind.filterInput text = []
  · rw [if_pos hnil, if_pos hnil]
  · rw [if_neg hnil, if_neg hnil]

theorem wp_deleteContent (hchars : s.characters = A ++ B ++ C) (hstart : start = A.length)
    (hstop : stop = A.length + B.length) {notifyListeners : Bool} :
    Wp (deleteContent kind start stop notifyListeners) s Q E
      ↔ Q () (if B = [] then s else s.told (A ++ C) notifyListeners) := by
  unfold deleteContent
  rw [wp_bind, wp_get, hchars, ContentKind.delete_mid hstart hstop, wp_bind, wp_liftExcept]
  simp only [Except.ok.injEq, forall_eq', reduceCtorEq, false_implies, implies_true, and_true,
    wp_contentHasChanged]
  by_cases hnil : B = []
  · rw [if_pos hnil, if_pos hnil]
  · rw [if_neg hnil, if_neg hnil]

/-- The state when a piece of the text was taken out and, after that, another one
was put in. Only the last of the two tells the listeners. -/
def exchanged (s : TextInputControl) (A B C value inserted : Text) : TextInputControl :=
  let s := if B = [] then s else s.told (A ++ C) value.isEmpty
  if inserted = [] then s else s.told (A ++ inserted ++ C) true

theorem characters_deleted (hchars : s.characters = A ++ B ++ C) (n : Bool) :
    (if B = [] then s else s.told (A ++ C) n).characters = A ++ C := by
  split
  · rename_i hB
    rw [hchars, hB, List.append_nil]
  · exact characters_told _ _

theorem kept_exchanged (A B C value inserted : Text) :
    Kept s (s.exchanged A B C value inserted) := by
  have hdeleted : Kept s (if B = [] then s else s.told (A ++ C) value.isEmpty) := by
    split
    · exact Kept.refl s
    · exact kept_told _ _
  unfold exchanged
  dsimp only
  split
  · exact hdeleted
  · exact hdeleted.trans (kept_told _ _)

theorem characters_exchanged (hchars : s.characters = A ++ B ++ C) (value inserted : Text) :
    (s.exchanged A B C value inserted).characters = A ++ inserted ++ C := by
  unfold exchanged
  dsimp only
  split
  · rename_i hinserted
    rw [characters_deleted hchars, hinserted, List.append_nil]
  · exact characters_told _ _

/-- The listeners know the text, unless the deletion was kept from them for the
sake of an insertion that did not come. -/
theorem Steady.exchanged (h : Steady s) {inserted : Text}
    (htold : B = [] ∨ value = [] ∨ inserted ≠ []) : Steady (s.exchanged A B C value inserted) := by
  unfold TextInputControl.exchanged
  dsimp only
  split
  · rename_i hinserted
    split
    · exact h
    · rename_i hB
      have hvalue : value = [] := by
        rcases htold with h | h | h
        · exact absurd h hB
        · exact h
        · exact absurd hinserted h
      rw [hvalue]
      exact steady_told _ _
  · exact steady_told _ _

theorem wp_getText (h : Steady s) (hchars : s.characters = A ++ B ++ C) {start stop : ℤ}
    (hstart : start = A.length) (hstop : stop = A.length + B.length)
    {Q : Text → TextInputControl → Prop} :
    Wp (getText start stop) s Q E ↔ Q B s.measured := by
  have hlen : s.length = A.length + B.length + C.length := by
    rw [h.length_eq, hchars, List.length_append, List.length_append]
  have hget : ContentKind.get (A ++ B ++ C) start.toNat stop.toNat = .ok B :=
    ContentKind.get_mid (by omega) (by omega)
  unfold getText
  rw [if_neg (by omega), if_neg (by omega)]
  simp only [wp_bind, wp_getLength]
  rw [if_neg (by omega)]
  simp only [wp_bind, wp_get, characters_measured, hchars, hget, wp_liftExcept, Except.ok.injEq,
    forall_eq', reduceCtorEq, false_implies, implies_true, and_true]

/-! ## The private methods -/

theorem wp_doSelectRange {anchor caretPosition : ℤ} :
    Wp (doSelectRange anchor caretPosition) s Q E
      ↔ Q () { s.measured with
          caretPosition := clamp 0 caretPosition s.length
          anchor := clamp 0 anchor s.length } := by
  simp only [doSelectRange, wp_bind, wp_getLength, wp_modify]
  rfl

/-- The selection is not part of the history, nor of the text. -/
theorem kept_select (s : TextInputControl) (anchor caretPosition : ℤ) :
    Kept s { s.measured with caretPosition := caretPosition, anchor := anchor } :=
  ⟨rfl, rfl, rfl, rfl, rfl, rfl, id⟩

theorem Steady.select (h : Steady s) (anchor caretPosition : ℤ) :
    Steady { s.measured with caretPosition := caretPosition, anchor := anchor } :=
  ⟨h.null, h.measured.length⟩

theorem replaceContent_spec (h : Steady s) (hchars : s.characters = A ++ B ++ C)
    (hstart : start = A.length) (hstop : stop = A.length + B.length)
    (htold : B = [] ∨ value = [] ∨ kind.filterInput value ≠ []) (anchor caretPosition : ℤ) :
    Wp (replaceContent kind start stop value anchor caretPosition) s
      (fun adjustmentAmount s' => adjustmentAmount = value.length - (kind.filterInput value).length
        ∧ s'.characters = A ++ kind.filterInput value ++ C ∧ Steady s' ∧ Kept s s')
      (fun _ _ => False) := by
  have hempty : stop = start ↔ B = [] := by
    rw [← List.length_eq_zero_iff]
    omega
  have hmeasured : s.measured.characters = A ++ B ++ C := hchars
  have hlen : s.length = A.length + B.length + C.length := by
    rw [h.length_eq, hchars, List.length_append, List.length_append]
  have hsteady := @Steady.exchanged _ A B C _ h.measured _ htold
  have hafter := characters_exchanged hmeasured value (kind.filterInput value)
  have hkept := (kept_measured s).trans
    (@kept_exchanged s.measured A B C value (kind.filterInput value))
  have hlen' : (s.measured.exchanged A B C value (kind.filterInput value)).length
      = A.length + (kind.filterInput value).length + C.length := by
    rw [hsteady.length_eq, hafter, List.length_append, List.length_append]
  have htail : ∀ L : ℤ, L = A.length + C.length → Wp (do
      let newLength ← getLength
      doSelectRange (anchor - (value.length - (newLength - L)))
        (caretPosition - (value.length - (newLength - L)))
      pure ((value.length : ℤ) - (newLength - L)))
      (s.measured.exchanged A B C value (kind.filterInput value))
      (fun adjustmentAmount s' => adjustmentAmount = value.length - (kind.filterInput value).length
        ∧ s'.characters = A ++ kind.filterInput value ++ C ∧ Steady s' ∧ Kept s s')
      (fun _ _ => False) := by
    intro L hL
    rw [wp_bind, wp_getLength, wp_bind, wp_doSelectRange, wp_pure]
    refine ⟨?_, hafter, hsteady.measured.select _ _, (hkept.trans (kept_measured _)).trans
      (kept_select _ _ _)⟩
    rw [hlen', hL]
    push_cast
    ring
  unfold replaceContent
  rw [wp_bind, wp_getLength]
  by_cases hB : B = []
  · rw [if_neg (not_not.mpr (hempty.mpr hB)), wp_bind]
    have hrest : s.measured.characters = A ++ C := by rw [hmeasured, hB, List.append_nil]
    rw [wp_insertContent hrest hstart]
    have hL : (if stop ≠ start then (s.length : ℤ) - (stop - start) else s.length)
        = A.length + C.length := by
      rw [if_neg (not_not.mpr (hempty.mpr hB)), hlen, hB, List.length_nil]
      push_cast
      ring
    have hdone := htail _ hL
    unfold exchanged at hdone
    rw [if_pos hB] at hdone
    exact hdone
  · rw [if_pos (mt hempty.mp hB), wp_bind, wp_deleteContent hmeasured hstart hstop, wp_bind,
      wp_insertContent (characters_deleted hmeasured _) hstart]
    refine htail _ ?_
    rw [if_pos (mt hempty.mp hB), hlen, hstart, hstop]
    push_cast
    ring

/-! ## The history -/

/-- The records describe how the control came to `t` from `base`, and what was
taken back since. -/
structure History (kind : ContentKind) (base : Text) (s : TextInputControl) (t : Text) : Prop where
  present : s.undoChange < s.fresh
  past : Past kind s.changes base s.undoChange t
  future : Future kind s.changes s.fresh s.undoChange t

theorem History.kept (h : History kind base s t) (hkept : Kept s s') : History kind base s' t := by
  obtain ⟨hpresent, hpast, hfuture⟩ := h
  constructor
  · rw [hkept.undoChange, hkept.fresh]
    exact hpresent
  · rw [hkept.changes, hkept.undoChange]
    exact hpast
  · rw [hkept.changes, hkept.fresh, hkept.undoChange]
    exact hfuture

/-- A new record: what was taken back is forgotten. -/
theorem History.add (h : History kind base s t) {oldText newText after : Text}
    (hedits : (UndoRedoChange.mk start oldText newText s.undoChange none).Edits kind t after) :
    History kind base (s.add start oldText newText) after := by
  have hne : s.undoChange ≠ s.fresh := ne_of_lt h.present
  have hnew : (s.add start oldText newText).changes s.fresh
      = ⟨start, oldText, newText, s.undoChange, none⟩ := Function.update_self ..
  have hold : (s.add start oldText newText).changes s.undoChange
      = { s.current with next := some s.fresh } := by
    unfold TextInputControl.add
    dsimp only
    rw [Function.update_of_ne hne, Function.update_self]
  have hpast : Past kind (s.add start oldText newText).changes base s.undoChange t := by
    refine h.past.congr ?_ hold
    intro j hj
    have hfresh := hj.trans h.present
    unfold TextInputControl.add
    dsimp only
    rw [Function.update_of_ne (ne_of_lt hfresh), Function.update_of_ne (ne_of_lt hj)]
  refine ⟨Nat.lt_succ_self _, ?_, Future.last (congrArg UndoRedoChange.next hnew)⟩
  have hprev : ((s.add start oldText newText).changes s.fresh).prev = s.undoChange := by rw [hnew]
  change Past kind _ base s.fresh after
  refine @Past.record _ _ _ _ t _ ?_ ?_ ?_ ?_
  · exact lt_of_eq_of_lt hprev h.present
  · rw [hprev, hold]
  · rw [hnew]
    exact hedits
  · rw [hprev]
    exact hpast

@[simp] theorem current_setCurrent (s : TextInputControl) (c : UndoRedoChange) :
    (s.setCurrent c).current = c := Function.update_self ..

/-- The last record is written over, with nothing to redo behind it. -/
theorem History.setCurrent (h : History kind base s t) (hhead : s.undoChange ≠ undoChangeHead)
    {c : UndoRedoChange} {after : Text}
    (hprev : c.prev = s.current.prev) (hnext : c.next = none)
    (hedits : ∀ before, s.current.Edits kind before t → c.Edits kind before after) :
    History kind base (s.setCurrent c) after := by
  obtain ⟨before, hlt, hlink, hbefore, hpast⟩ := h.past.cases_head hhead
  have hself : (s.setCurrent c).changes s.undoChange = c := Function.update_self ..
  have hother : ∀ j < s.undoChange, (s.setCurrent c).changes j = s.changes j := by
    intro j hj
    exact Function.update_of_ne (ne_of_lt hj) _ _
  have hback : ((s.setCurrent c).changes s.undoChange).prev = s.current.prev := by rw [hself, hprev]
  have hsame : (s.setCurrent c).changes s.current.prev = s.changes s.current.prev := hother _ hlt
  refine ⟨h.present, ?_, Future.last ((congrArg UndoRedoChange.next hself).trans hnext)⟩
  change Past kind _ base s.undoChange after
  refine @Past.record _ _ _ _ before _ ?_ ?_ ?_ ?_
  · exact lt_of_eq_of_lt hback hlt
  · rw [hback, hsame]
    exact hlink
  · rw [hself]
    exact hedits before hbefore
  · rw [hback]
    exact hpast.congr (fun j hj => hother j (hj.trans hlt)) hsame

/-- The last record is thrown away when it says nothing. -/
theorem History.discard (h : History kind base s t) (hhead : s.undoChange ≠ undoChangeHead)
    (hlast : s.current.next = none) (hold : s.current.oldText = []) (hnew : s.current.newText = []) :
    History kind base s.discard t := by
  obtain ⟨before, hlt, -, hbefore, hpast⟩ := h.past.cases_head hhead
  have heq : t = before := hbefore.eq_of_nil hold hnew
  have hself : s.discard.changes s.current.prev
      = { s.changes s.current.prev with next := none } := by
    rw [← hlast]
    exact Function.update_self ..
  refine ⟨hlt.trans h.present, ?_, Future.last (congrArg UndoRedoChange.next hself)⟩
  rw [heq]
  exact hpast.congr (fun j hj => Function.update_of_ne (ne_of_lt hj) _ _) hself

/-- The invariant of a control. -/
structure Sound (kind : ContentKind) (base : Text) (s : TextInputControl) : Prop where
  steady : Steady s
  legal : kind.Legal s.characters
  history : History kind base s s.characters
  undoable : s.undoable = true ↔ s.undoChange ≠ undoChangeHead
  redoable : s.redoable = s.current.next.isSome

theorem sound_updateUndoRedoState (hsteady : Steady s) (hlegal : kind.Legal s.characters)
    (hhistory : History kind base s s.characters) : Sound kind base s.updateUndoRedoState :=
  ⟨⟨hsteady.null, hsteady.length⟩, hlegal, ⟨hhistory.present, hhistory.past, hhistory.future⟩,
    decide_eq_true_iff, rfl⟩

/-! ## `updateContent` -/

/-- `updateContent` will make a new record. -/
def NeedsRecord (s : TextInputControl) (start stop : ℕ) (forceNewUndoRecord : Bool) : Prop :=
  s.createNewUndoRecord = true ∨ s.selectionLength > 0 ∨ s.endOfUndoChange = -1
    ∨ forceNewUndoRecord = true
    ∨ (s.endOfUndoChange ≠ start ∧ s.endOfUndoChange ≠ stop)

instance (s : TextInputControl) (start stop : ℕ) (forceNewUndoRecord : Bool) :
    Decidable (s.NeedsRecord start stop forceNewUndoRecord) := by
  unfold NeedsRecord
  infer_instance

/-- The edit finds a history it can go into. -/
def Recordable (s : TextInputControl) (change : Change) (forceNewUndoRecord : Bool) : Prop :=
  s.NeedsRecord change.start change.stop forceNewUndoRecord
    ∨ s.current.Merges change.start change.stop change.text
      ∧ (s.redoable = false ∨ change.start = change.stop ∧ change.text = [])

/-- A control with the history and the text it had: the edit is a record of its own. -/
theorem sound_add (hhistory : History kind base s (A ++ B ++ C)) (hsteady : Steady s)
    (hchars : s.characters = A ++ text ++ C) (hlegal : kind.Legal (A ++ B ++ C))
    (hlegal' : kind.Legal (A ++ text ++ C)) :
    Sound kind base (s.add A.length B text).updateUndoRedoState := by
  have hadd : History kind base (s.add A.length B text) (A ++ text ++ C) := hhistory.add
    ⟨⟨A, C, rfl, rfl, rfl⟩, hlegal, hlegal'⟩
  rw [← hchars] at hadd hlegal'
  exact sound_updateUndoRedoState ⟨hsteady.null, hsteady.length⟩ hlegal' hadd

theorem redoable_add (start : ℕ) (oldText newText : Text) :
    (s.add start oldText newText).updateUndoRedoState.redoable = false := by
  have hnew : (s.add start oldText newText).current = ⟨start, oldText, newText, s.undoChange, none⟩ :=
    Function.update_self ..
  change (s.add start oldText newText).current.next.isSome = false
  rw [hnew]
  rfl

/-- The edit goes into the last record. -/
theorem sound_setCurrent (hhistory : History kind base s t) (hsteady : Steady s)
    (hlegal : kind.Legal s.characters) (hhead : s.undoChange ≠ undoChangeHead)
    {c : UndoRedoChange} (hprev : c.prev = s.current.prev) (hnext : c.next = none)
    (hedits : ∀ before, s.current.Edits kind before t → c.Edits kind before s.characters) :
    Sound kind base (s.setCurrent c).updateUndoRedoState :=
  sound_updateUndoRedoState ⟨hsteady.null, hsteady.length⟩ hlegal
    (hhistory.setCurrent hhead hprev hnext hedits)

theorem redoable_setCurrent {c : UndoRedoChange} (hnext : c.next = none) :
    (s.setCurrent c).updateUndoRedoState.redoable = false := by
  change (s.setCurrent c).current.next.isSome = false
  rw [current_setCurrent, hnext]
  rfl

theorem redoable_discard (hlast : s.current.next = none) :
    s.discard.updateUndoRedoState.redoable = false := by
  have hnew : s.discard.current = { s.changes s.current.prev with next := s.current.next } :=
    Function.update_self ..
  change s.discard.current.next.isSome = false
  rw [hnew, hlast]
  rfl

/-- What a call promises of the state it leaves. -/
structure Edited (kind : ContentKind) (base : Text) (s s' : TextInputControl) (t : Text) : Prop where
  sound : Sound kind base s'
  characters : s'.characters = t
  createNewUndoRecord : s'.createNewUndoRecord = s.createNewUndoRecord
  textIsNull : s.textIsNull = false → s'.textIsNull = false

/-- The edit that goes into the record it touches. -/
theorem extendUndoChange_spec (hhistory : History kind base s (A ++ B ++ C)) (hsteady : Steady s)
    (hchars : s.characters = A ++ text ++ C) (hlegal : kind.Legal s.characters)
    (hhead : s.undoChange ≠ undoChangeHead) {change : Change} (hstart : change.start = A.length)
    (hstop : change.stop = A.length + B.length)
    (hend : s.endOfUndoChange = change.start ∨ s.endOfUndoChange = change.stop)
    (hmerges : s.current.Merges change.start change.stop change.text)
    (hnothing : change.text = [] → text = [])
    (hnext : s.current.next = none ∨ change.start = change.stop ∧ change.text = []) :
    Wp (extendUndoChange change s.endOfUndoChange B text) s
      (fun _ s' => Sound kind base s'.updateUndoRedoState ∧ s'.characters = s.characters
        ∧ s'.createNewUndoRecord = s.createNewUndoRecord ∧ s'.textIsNull = s.textIsNull
        ∧ (s.current.next = none → s'.updateUndoRedoState.redoable = false))
      (fun _ _ => False) := by
  have hplace : s.endOfUndoChange = s.current.start + s.current.newText.length := if_neg hhead
  rw [hplace] at hend
  unfold extendUndoChange
  rw [wp_bind, wp_get]
  unfold UndoRedoChange.Merges at hmerges
  by_cases hrange : change.start = change.stop
  · rw [if_neg (fun h => h.1 hrange), wp_set]
    have hB : B = [] := List.length_eq_zero_iff.mp (by omega)
    rw [hB, List.append_nil] at hhistory
    by_cases hlast : s.current.next = none
    · -- typing
      refine ⟨sound_setCurrent hhistory hsteady hlegal hhead rfl hlast fun before hbefore => ?_,
        rfl, rfl, rfl, fun _ => redoable_setCurrent hlast⟩
      rw [hchars] at hlegal ⊢
      exact hbefore.type (by omega) hlegal
    · -- nothing was typed
      have hnil : text = [] := hnothing (hnext.resolve_left hlast).2
      have hsame : s.setCurrent { s.current with newText := s.current.newText ++ text } = s := by
        unfold setCurrent current
        rw [hnil, List.append_nil, Function.update_eq_self]
      rw [hsame]
      refine ⟨sound_updateUndoRedoState hsteady hlegal ?_, rfl, rfl, rfl, fun h => absurd h hlast⟩
      rwa [hchars, hnil, List.append_nil]
  · have hlast : s.current.next = none := hnext.resolve_right fun h => hrange h.1
    rw [if_neg hrange] at hmerges
    have hempty : change.text = [] := by
      split at hmerges <;> exact hmerges.1
    have htext : text = [] := hnothing hempty
    rw [htext, List.append_nil] at hchars
    rw [if_pos ⟨hrange, hempty⟩]
    by_cases hnew : s.current.newText = []
    · -- the record only deleted
      rw [if_pos hnew] at hmerges
      rw [hnew, List.length_nil] at hend
      rw [if_neg (by rw [hnew]; exact Nat.lt_irrefl 0), hplace, hnew, List.length_nil]
      by_cases hbehind : change.start = s.current.start
      · rw [if_pos (by omega), wp_set]
        refine ⟨sound_setCurrent hhistory hsteady hlegal hhead rfl hlast fun before hbefore => ?_,
          rfl, rfl, rfl, fun _ => redoable_setCurrent hlast⟩
        rw [hchars] at hlegal ⊢
        exact hbefore.deleteBehind hnew (by omega) hlegal
      · rw [if_neg (by omega), wp_set]
        refine ⟨sound_setCurrent hhistory hsteady hlegal hhead rfl hlast fun before hbefore => ?_,
          rfl, rfl, rfl, fun _ => redoable_setCurrent hlast⟩
        have hone := hmerges.2.resolve_left hbehind
        rw [hchars] at hlegal ⊢
        exact hbefore.deleteBefore hnew (by omega) (by omega) hlegal
    · -- the end of the record's text
      rw [if_neg hnew] at hmerges
      obtain ⟨-, hsuffix, hle, hdiscard⟩ := hmerges
      have hcut : substringTo s.current.newText (change.start - s.current.start)
          = .ok (s.current.newText.take (A.length - s.current.start)) := by
        unfold substringTo
        rw [if_pos (by omega)]
        congr 2
        omega
      rw [if_pos (List.length_pos_of_ne_nil hnew), hcut, wp_bind, wp_liftExcept]
      refine ⟨?_, fun e he => by cases he⟩
      rintro _ ⟨rfl⟩
      have hset : History kind base (s.setCurrent { s.current with
          newText := s.current.newText.take (A.length - s.current.start) }) s.characters := by
        refine hhistory.setCurrent hhead rfl hlast fun before hbefore => ?_
        rw [hchars] at hlegal ⊢
        exact hbefore.backspace (by omega) (by omega) hlegal
      rw [wp_set]
      split
      · rename_i hgone
        have hall : change.start = s.current.start := by
          have hzero := (List.take_eq_nil_iff.mp hgone).resolve_right hnew
          omega
        have hdiscarded := hset.discard hhead (by rw [current_setCurrent]; exact hlast)
          (by rw [current_setCurrent]; exact hdiscard hall) (by rw [current_setCurrent]; exact hgone)
        refine ⟨sound_updateUndoRedoState ⟨hsteady.null, hsteady.length⟩ hlegal hdiscarded, rfl, rfl,
          rfl, fun _ => redoable_discard ?_⟩
        rw [current_setCurrent]
        exact hlast
      · exact ⟨sound_updateUndoRedoState ⟨hsteady.null, hsteady.length⟩ hlegal hset, rfl, rfl, rfl,
          fun _ => redoable_setCurrent hlast⟩

theorem updateContent_spec (h : Sound kind base s) (hchars : s.characters = A ++ B ++ C)
    {change : Change} (hstart : change.start = A.length) (hstop : change.stop = A.length + B.length)
    (htold : B = [] ∨ change.text = [] ∨ kind.filterInput change.text ≠ [])
    {forceNewUndoRecord : Bool} (hrecordable : s.Recordable change forceNewUndoRecord) :
    Wp (updateContent kind change forceNewUndoRecord) s
      (fun _ s' => Edited kind base s s' (A ++ kind.filterInput change.text ++ C)
        ∧ (s.NeedsRecord change.start change.stop forceNewUndoRecord ∨ s.redoable = false
            → s'.redoable = false))
      (fun _ _ => False) := by
  unfold updateContent
  rw [wp_bind, wp_get, wp_bind, wp_getText h.steady hchars (by rw [hstart]) (by rw [hstop]; rfl),
    wp_bind]
  apply (replaceContent_spec h.steady.measured hchars hstart hstop htold _ _).mono
  swap
  · exact fun _ _ hfalse => hfalse
  rintro adjustmentAmount s₁ ⟨hadj, hchars₁, hsteady₁, hkept₁⟩
  rw [wp_bind, wp_get, wp_bind, wp_getText hsteady₁ hchars₁ (by rw [hstart]) (by
    rw [hadj, hstart]
    ring), wp_bind, wp_get]
  generalize htext : kind.filterInput change.text = inserted at *
  have hkept : Kept s s₁.measured :=
    ((kept_measured s).trans hkept₁).trans (kept_measured s₁)
  have hsteady := hsteady₁.measured
  have hchars' : s₁.measured.characters = A ++ inserted ++ C := hchars₁
  have hend : s₁.endOfUndoChange = s.endOfUndoChange := by
    unfold endOfUndoChange current
    rw [hkept₁.undoChange, hkept₁.changes]
    rfl
  have hlegal : kind.Legal (A ++ B ++ C) := hchars ▸ h.legal
  have hlegal' : kind.Legal (A ++ inserted ++ C) := by
    rw [← htext]
    rw [ContentKind.legal_append, ContentKind.legal_append] at hlegal ⊢
    exact ⟨⟨hlegal.1.1, ContentKind.legal_filterInput _⟩, hlegal.2⟩
  have hhistory : History kind base s₁.measured (A ++ B ++ C) := (hchars ▸ h.history).kept hkept
  have hneeds : (s₁.measured.createNewUndoRecord = true ∨ s.selectionLength > 0
      ∨ s₁.endOfUndoChange = -1 ∨ forceNewUndoRecord = true
      ∨ (s₁.endOfUndoChange ≠ change.start ∧ s₁.endOfUndoChange ≠ change.stop)
      ∨ (change.start : ℤ) - change.stop > 1)
      ↔ s.NeedsRecord change.start change.stop forceNewUndoRecord := by
    have hnot : ¬ (change.start : ℤ) - change.stop > 1 := by omega
    unfold NeedsRecord
    rw [hend, hkept.createNewUndoRecord]
    simp only [hnot, or_false]
  generalize s₁.measured = s₂ at *
  by_cases hn : s.NeedsRecord change.start change.stop forceNewUndoRecord
  · rw [if_pos (hneeds.mpr hn)]
    simp only [wp_bind, wp_set, wp_modify]
    rw [hstart]
    refine ⟨⟨sound_add hhistory hsteady hchars' hlegal hlegal', hchars',
      hkept.createNewUndoRecord, hkept.textIsNull⟩, fun _ => redoable_add _ _ _⟩
  · rw [if_neg (mt hneeds.mp hn)]
    obtain ⟨hmerges, hredo⟩ := hrecordable.resolve_left hn
    have hsame : s₂.current = s.current := by
      unfold current
      rw [hkept.changes, hkept.undoChange]
    have hend₂ : s₁.endOfUndoChange = s₂.endOfUndoChange := by
      rw [hend]
      unfold endOfUndoChange
      rw [hkept.undoChange, hsame]
    have hlast : s.redoable = false ↔ s₂.current.next = none := by
      rw [h.redoable, hsame, Option.isSome_eq_false_iff, Option.isNone_iff_eq_none]
    have hnot := hn
    unfold NeedsRecord at hn
    push Not at hn
    rw [hend₂, wp_bind]
    have hhead : s₂.undoChange ≠ undoChangeHead := by
      intro hhead
      rw [hkept.undoChange] at hhead
      exact hn.2.2.1 (if_pos hhead)
    have htouches : s₂.endOfUndoChange = change.start ∨ s₂.endOfUndoChange = change.stop := by
      rw [← hend₂, hend]
      by_contra hne
      push Not at hne
      exact hne.2 (hn.2.2.2.2 hne.1)
    have hnothing : change.text = [] → inserted = [] := by
      intro hempty
      rw [← htext, hempty, ContentKind.filterInput_nil]
    have hextended := extendUndoChange_spec hhistory hsteady hchars' (hchars' ▸ hlegal') hhead hstart
      hstop htouches (hsame ▸ hmerges) hnothing (hredo.imp_left hlast.mp)
    apply hextended.mono
    · rintro - s₃ ⟨hsound, hcharacters, hcreate, hnull, hredoable⟩
      rw [wp_modify]
      refine ⟨⟨hsound, hcharacters.trans hchars', hcreate.trans hkept.createNewUndoRecord,
        fun hs => hnull.trans (hkept.textIsNull hs)⟩, ?_⟩
      rintro (hneeded | hnone)
      · exact absurd hneeded hnot
      · exact hredoable (hlast.mp hnone)
    · exact fun _ _ hfalse => hfalse

end JavaFx.Control.TextInputControl
