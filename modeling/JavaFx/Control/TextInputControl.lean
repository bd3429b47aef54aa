/-
`javafx.scene.control.TextInputControl`: its edits, its selection and its undo
history, without a text formatter and with an unbound text.

Three things are kept apart as the code keeps them apart. The text is in the
content. Its length is a binding on the text property and is computed anew only
after the content has told its listeners of a change, which it does not do for the
deletion in front of an insertion. The undo history is a chain of records linked
in both directions, with one record (`undoChange`) as the present; records are
never freed, so a link to a record that was thrown away can be followed.

An exception leaves what was done before it, so a call is a `Method`.
-/
import JavaFx.Control.TextContent
import JavaFx.Lib.Method
import Mathlib.Logic.Function.Basic

set_option autoImplicit false

namespace JavaFx.Control

open JavaFx.Lib

/-- `Utils.clamp`. -/
def clamp (min value max : ℤ) : ℤ :=
  if value < min then min else if max < value then max else value

/-- `UndoRedoChange`. The texts of the first record and its `prev` are null and
never read; all other records get theirs from `add`. -/
structure UndoRedoChange where
  start : ℕ
  oldText : Text
  newText : Text
  prev : ℕ
  next : Option ℕ

/-- `TextFormatter.Change`. -/
structure Change where
  start : ℕ
  stop : ℕ
  text : Text
  anchor : ℤ
  caret : ℤ

/-- The fields of a `TextInputControl`. Records have numbers, in the order in which
they were made; `fresh` is the number of the next one. -/
structure TextInputControl where
  /-- What is in `content`. -/
  characters : Text
  textIsNull : Bool
  /-- The value of the `length` property, none when it has to be computed. -/
  cachedLength : Option ℕ
  anchor : ℤ
  caretPosition : ℤ
  changes : ℕ → UndoRedoChange
  fresh : ℕ
  undoChange : ℕ
  createNewUndoRecord : Bool
  undoable : Bool
  redoable : Bool

namespace TextInputControl

/-- `undoChangeHead`. -/
def undoChangeHead : ℕ := 0

/-- A control that was just made. -/
def new : TextInputControl where
  characters := []
  textIsNull := false
  cachedLength := none
  anchor := 0
  caretPosition := 0
  changes := fun _ => ⟨0, [], [], 0, none⟩
  fresh := 1
  undoChange := undoChangeHead
  createNewUndoRecord := false
  undoable := false
  redoable := false

/-- `getText()`. -/
def text (s : TextInputControl) : Option Text := if s.textIsNull then none else some s.characters

/-- `getSelection()`, by its start and its length. -/
def selectionStart (s : TextInputControl) : ℤ := min s.anchor s.caretPosition

def selectionLength (s : TextInputControl) : ℤ :=
  max s.anchor s.caretPosition - min s.anchor s.caretPosition

/-- The record that an undo would take back. -/
def current (s : TextInputControl) : UndoRedoChange := s.changes s.undoChange

/-- The fields of the current record are written. -/
def setCurrent (s : TextInputControl) (c : UndoRedoChange) : TextInputControl :=
  { s with changes := Function.update s.changes s.undoChange c }

/-- `undoChange = undoChange.add(start, oldText, newText)`. -/
def add (s : TextInputControl) (start : ℕ) (oldText newText : Text) : TextInputControl :=
  { s with
    changes := Function.update
      (Function.update s.changes s.undoChange { s.current with next := some s.fresh })
      s.fresh ⟨start, oldText, newText, s.undoChange, none⟩
    undoChange := s.fresh
    fresh := s.fresh + 1 }

/-- `undoChange = undoChange.discard()`. The record behind keeps its `prev`. -/
def discard (s : TextInputControl) : TextInputControl :=
  { s with
    changes := Function.update s.changes s.current.prev
      { s.changes s.current.prev with next := s.current.next }
    undoChange := s.current.prev }

def updateUndoRedoState (s : TextInputControl) : TextInputControl :=
  { s with
    undoable := s.undoChange ≠ undoChangeHead
    redoable := s.current.next.isSome }

def resetUndoRedoState (s : TextInputControl) : TextInputControl :=
  let s := { s with undoChange := undoChangeHead }
  (s.setCurrent { s.current with next := none }).updateUndoRedoState

/-! ## The content and its length -/

/-- What the length is when it is asked for. -/
def length (s : TextInputControl) : ℕ :=
  s.cachedLength.getD (if s.textIsNull then 0 else s.characters.length)

def getLength : Method TextInputControl ℕ := do
  let s ← get
  set { s with cachedLength := some s.length }
  return s.length

/-- The content has a new text and tells its listeners, if it is to. -/
def contentHasChanged (characters : Option Text) (notifyListeners : Bool) :
    Method TextInputControl Unit :=
  match characters with
  | none => pure ()
  | some t => modify fun s =>
    if notifyListeners then
      { s with
        characters := t
        textIsNull := if t.length > 0 then false else s.textIsNull
        cachedLength := none }
    else { s with characters := t }

variable (kind : ContentKind)

/-- `getContent().insert(index, text, notifyListeners)`. -/
def insertContent (index : ℕ) (text : Text) (notifyListeners : Bool) :
    Method TextInputControl Unit := do
  let s ← get
  contentHasChanged (← liftExcept (kind.insert s.characters index text)) notifyListeners

/-- `getContent().delete(start, end, notifyListeners)`. -/
def deleteContent (start stop : ℕ) (notifyListeners : Bool) : Method TextInputControl Unit := do
  let s ← get
  contentHasChanged (← liftExcept (kind.delete s.characters start stop)) notifyListeners

/-- `getText(start, end)`. -/
def getText (start stop : ℤ) : Method TextInputControl Text := do
  if stop < start then throw Exn.illegalArgument
  if start < 0 then throw Exn.indexOutOfBounds
  if (← getLength) < stop then throw Exn.indexOutOfBounds
  let s ← get
  liftExcept (ContentKind.get s.characters start.toNat stop.toNat)

/-! ## Edits -/

def doSelectRange (anchor caretPosition : ℤ) : Method TextInputControl Unit := do
  let length ← getLength
  modify fun s => { s with caretPosition := clamp 0 caretPosition length }
  let length ← getLength
  modify fun s => { s with anchor := clamp 0 anchor length }

/-- The private `replaceText`, which every change of the content but undo and redo
goes through. -/
def replaceContent (start stop : ℕ) (value : Text) (anchor caretPosition : ℤ) :
    Method TextInputControl ℤ := do
  let length ← getLength
  if stop ≠ start then deleteContent kind start stop value.isEmpty
  let length : ℤ := if stop ≠ start then length - (stop - start) else length
  insertContent kind start value true
  let adjustmentAmount : ℤ := value.length - ((← getLength) - length)
  doSelectRange (anchor - adjustmentAmount) (caretPosition - adjustmentAmount)
  return adjustmentAmount

/-- `String.substring(0, stop)`. -/
def substringTo (t : Text) (stop : ℤ) : Except Exn Text :=
  if 0 ≤ stop ∧ stop ≤ t.length then .ok (t.take stop.toNat) else .error .indexOutOfBounds

/-- Where the text of the current record ends, `-1` when there is none. -/
def endOfUndoChange (s : TextInputControl) : ℤ :=
  if s.undoChange = undoChangeHead then -1 else s.current.start + s.current.newText.length

/-- The edit goes into the current record: the second half of `updateContent`. -/
def extendUndoChange (change : Change) (endOfUndoChange : ℤ) (oldText newText : Text) :
    Method TextInputControl Unit := do
  let s ← get
  if change.start ≠ change.stop ∧ change.text = [] then
    -- deleting, at the end of the range of the record
    if s.current.newText.length > 0 then
      let newText ← liftExcept
        (substringTo s.current.newText (change.start - s.current.start))
      let s := s.setCurrent { s.current with newText := newText }
      set (if newText = [] then s.discard else s)
    else if (change.start : ℤ) = endOfUndoChange then
      set (s.setCurrent { s.current with oldText := s.current.oldText ++ oldText })
    else
      set (s.setCurrent { s.current with
        oldText := oldText ++ s.current.oldText
        start := s.current.start - 1 })
  else set (s.setCurrent { s.current with newText := s.current.newText ++ newText })

def updateContent (change : Change) (forceNewUndoRecord : Bool) :
    Method TextInputControl Unit := do
  let nonEmptySelection := (← get).selectionLength > 0
  let oldText ← getText change.start change.stop
  let adjustmentAmount ←
    replaceContent kind change.start change.stop change.text change.anchor change.caret
  let endOfUndoChange := (← get).endOfUndoChange
  let newText ← getText change.start (change.start + change.text.length - adjustmentAmount)
  let s ← get
  if s.createNewUndoRecord ∨ nonEmptySelection ∨ endOfUndoChange = -1 ∨ forceNewUndoRecord
      ∨ (endOfUndoChange ≠ change.start ∧ endOfUndoChange ≠ change.stop)
      ∨ (change.start : ℤ) - change.stop > 1 then
    set (s.add change.start oldText newText)
  else extendUndoChange change endOfUndoChange oldText newText
  modify updateUndoRedoState

/-! ## The calls -/

def replaceText (start stop : ℤ) (text : Text) : Method TextInputControl Unit := do
  if stop < start then throw Exn.illegalArgument
  if start < 0 then throw Exn.indexOutOfBounds
  if (← getLength) < stop then throw Exn.indexOutOfBounds
  let oldLength ← getLength
  updateContent kind
    ⟨start.toNat, stop.toNat, text, start + text.length, start + text.length⟩ (oldLength = 0)

def insertText (index : ℤ) (text : Text) : Method TextInputControl Unit :=
  replaceText kind index index text

def deleteText (start stop : ℤ) : Method TextInputControl Unit := replaceText kind start stop []

def replaceSelection (replacement : Text) : Method TextInputControl Unit := do
  let s ← get
  replaceText kind s.selectionStart (s.selectionStart + s.selectionLength) replacement

/-- `paste()`, with the string on the clipboard. -/
def paste (text : Text) : Method TextInputControl Unit := do
  modify fun s => { s with createNewUndoRecord := true }
  tryCatch (replaceSelection kind text) fun e => do
    -- the `finally` block
    modify fun s => { s with createNewUndoRecord := false }
    throw e
  modify fun s => { s with createNewUndoRecord := false }

def selectRange (anchor caretPosition : ℤ) : Method TextInputControl Unit := do
  let caretPosition := clamp 0 caretPosition (← getLength)
  let anchor := clamp 0 anchor (← getLength)
  updateContent kind ⟨caretPosition.toNat, caretPosition.toNat, [], anchor, caretPosition⟩ false

def undo : Method TextInputControl Unit := do
  let s ← get
  if s.undoable then
    let start := s.current.start
    let newText := s.current.newText
    let oldText := s.current.oldText
    deleteContent kind start (start + newText.length) oldText.isEmpty
    insertContent kind start oldText true
    doSelectRange start (start + oldText.length)
    modify fun s => { s with undoChange := s.current.prev }
  modify updateUndoRedoState

def redo : Method TextInputControl Unit := do
  let s ← get
  if s.redoable then
    match s.current.next with
    | none => throw Exn.nullPointer
    | some next =>
      set { s with undoChange := next }
      let start := (s.changes next).start
      let newText := (s.changes next).newText
      let oldText := (s.changes next).oldText
      deleteContent kind start (start + oldText.length) newText.isEmpty
      insertContent kind start newText true
      doSelectRange (start + newText.length) (start + newText.length)
  modify updateUndoRedoState

/-- `setText(value)`: `doSet`, and then the listeners of the property are told. -/
def setText (value : Option Text) : Method TextInputControl Unit := do
  modify fun s => { s with textIsNull := value.isNone }
  let s ← get
  let _ ← replaceContent kind 0 s.characters.length (value.getD []) 0 0
  modify resetUndoRedoState
  modify fun s => { s with cachedLength := none }

/-- A call on the control, `setText` apart. -/
inductive Call
  | replaceText (start stop : ℤ) (text : Text)
  | insertText (index : ℤ) (text : Text)
  | deleteText (start stop : ℤ)
  | paste (text : Text)
  | undo
  | redo
  | selectRange (anchor caretPosition : ℤ)

def perform : Call → Method TextInputControl Unit
  | .replaceText start stop text => replaceText kind start stop text
  | .insertText index text => insertText kind index text
  | .deleteText start stop => deleteText kind start stop
  | .paste text => paste kind text
  | .undo => undo kind
  | .redo => redo kind
  | .selectRange anchor caretPosition => selectRange kind anchor caretPosition

/-- A call that returns. -/
def step (s : TextInputControl) (call : Call) : Except Exn TextInputControl :=
  match (perform kind call).run s with
  | .ok _ s' => .ok s'
  | .error e _ => .error e

/-- The state a call leaves, whether it returns or throws. -/
def after {α : Type} (x : Method TextInputControl α) (s : TextInputControl) : TextInputControl :=
  match x.run s with
  | .ok _ s' => s'
  | .error _ s' => s'

/-- A control that was made and used, whatever the calls on it did. -/
inductive Reachable : TextInputControl → Prop
  | new : Reachable new
  | call {s : TextInputControl} (h : Reachable s) (call : Call) :
      Reachable (after (perform kind call) s)
  | setText {s : TextInputControl} (h : Reachable s) (value : Option Text) :
      Reachable (after (setText kind value) s)

end TextInputControl

end JavaFx.Control

/-!
The undo history as a chain of edits.

A record describes one edit: the text before it and the text after it are one
text, up to what is at the place of the record. `Past` follows the records back
to the text the control was given, `Future` follows them to the last edit that was
taken back. The four ways in which the control makes one record of two edits keep
the record's description only for some edits, and these are the lemmas of the
middle section. The last section is what a change of the records keeps of a chain.
-/

namespace JavaFx.Control

open JavaFx.Lib

/-! ## One record -/

/-- The record takes the text `before` to the text `after`. -/
structure UndoRedoChange.Edits (kind : ContentKind) (c : UndoRedoChange) (before after : Text) :
    Prop where
  places : ∃ A C, before = A ++ c.oldText ++ C ∧ after = A ++ c.newText ++ C ∧ c.start = A.length
  legalBefore : kind.Legal before
  legalAfter : kind.Legal after

namespace UndoRedoChange

variable {kind : ContentKind} {c : UndoRedoChange} {before A B C text : Text}

/-- Typing at the end of the record. -/
theorem Edits.type (h : c.Edits kind before (A ++ C)) (hend : A.length = c.start + c.newText.length)
    (hlegal : kind.Legal (A ++ text ++ C)) :
    Edits kind { c with newText := c.newText ++ text } before (A ++ text ++ C) := by
  obtain ⟨A', C', hbefore, hafter, hstart⟩ := h.places
  have hlen : A.length = (A' ++ c.newText).length := by
    rw [List.length_append, ← hstart, hend]
  obtain ⟨rfl, rfl⟩ := List.append_inj hafter hlen
  exact ⟨⟨A', C, hbefore, by simp only [List.append_assoc], hstart⟩, h.legalBefore, hlegal⟩

/-- Deleting the end of what the record put there. -/
theorem Edits.backspace (h : c.Edits kind before (A ++ B ++ C))
    (hend : A.length + B.length = c.start + c.newText.length) (hstart : c.start ≤ A.length)
    (hlegal : kind.Legal (A ++ C)) :
    Edits kind { c with newText := c.newText.take (A.length - c.start) } before (A ++ C) := by
  obtain ⟨A', C', hbefore, hafter, hplace⟩ := h.places
  have hlen : (A ++ B).length = (A' ++ c.newText).length := by
    rw [List.length_append, List.length_append, ← hplace, hend]
  obtain ⟨hfront, rfl⟩ := List.append_inj hafter hlen
  have hA : A = A' ++ c.newText.take (A.length - c.start) := by
    have htake : A = (A' ++ c.newText).take A.length := by rw [← hfront, List.take_left]
    rw [List.take_append, List.take_of_length_le (by omega), ← hplace] at htake
    exact htake
  refine ⟨⟨A', C, hbefore, ?_, hplace⟩, h.legalBefore, hlegal⟩
  dsimp only
  rw [← hA]

/-- Deleting behind a record that only deleted. -/
theorem Edits.deleteBehind (h : c.Edits kind before (A ++ B ++ C)) (hnew : c.newText = [])
    (hstart : A.length = c.start) (hlegal : kind.Legal (A ++ C)) :
    Edits kind { c with oldText := c.oldText ++ B } before (A ++ C) := by
  obtain ⟨A', C', hbefore, hafter, hplace⟩ := h.places
  rw [hnew, List.append_nil, List.append_assoc] at hafter
  obtain ⟨rfl, rfl⟩ := List.append_inj hafter (hstart.trans hplace)
  refine ⟨⟨A, C, ?_, ?_, hplace⟩, h.legalBefore, hlegal⟩
  · rw [hbefore]
    simp only [List.append_assoc]
  · dsimp only
    rw [hnew, List.append_nil]

/-- Deleting in front of a record that only deleted: its place moves by one. -/
theorem Edits.deleteBefore (h : c.Edits kind before (A ++ B ++ C)) (hnew : c.newText = [])
    (hend : A.length + B.length = c.start) (hone : B.length = 1) (hlegal : kind.Legal (A ++ C)) :
    Edits kind { c with oldText := B ++ c.oldText, start := c.start - 1 } before (A ++ C) := by
  obtain ⟨A', C', hbefore, hafter, hplace⟩ := h.places
  rw [hnew, List.append_nil] at hafter
  have hlen : (A ++ B).length = A'.length := by
    rw [List.length_append, hend, hplace]
  obtain ⟨rfl, rfl⟩ := List.append_inj hafter hlen
  refine ⟨⟨A, C, ?_, ?_, ?_⟩, h.legalBefore, hlegal⟩
  · rw [hbefore]
    simp only [List.append_assoc]
  · dsimp only
    rw [hnew, List.append_nil]
  · dsimp only
    omega

/-- A record says what there was before and what there is after. -/
theorem Edits.after_unique {after after' : Text} (h : c.Edits kind before after)
    (h' : c.Edits kind before after') : after' = after := by
  obtain ⟨A, C, hbefore, hafter, hplace⟩ := h.places
  obtain ⟨A', C', hbefore', hafter', hplace'⟩ := h'.places
  rw [hbefore, List.append_assoc, List.append_assoc] at hbefore'
  obtain ⟨rfl, hrest⟩ := List.append_inj hbefore' (hplace.symm.trans hplace')
  rw [hafter, hafter', List.append_cancel_left hrest]

theorem Edits.before_unique {before' after : Text} (h : c.Edits kind before after)
    (h' : c.Edits kind before' after) : before' = before := by
  obtain ⟨A, C, hbefore, hafter, hplace⟩ := h.places
  obtain ⟨A', C', hbefore', hafter', hplace'⟩ := h'.places
  rw [hafter, List.append_assoc, List.append_assoc] at hafter'
  obtain ⟨rfl, hrest⟩ := List.append_inj hafter' (hplace.symm.trans hplace')
  rw [hbefore, hbefore', List.append_cancel_left hrest]

/-- A record that changes nothing. -/
theorem Edits.eq_of_nil (h : c.Edits kind before text) (hold : c.oldText = [])
    (hnew : c.newText = []) : text = before := by
  obtain ⟨A', C', hbefore, hafter, -⟩ := h.places
  rw [hbefore, hafter, hold, hnew]

/-- The record can take the edit in: text typed at its end; the end of its new text
deleted, and all of it only when it replaced nothing; or, when it has no new text,
text deleted behind it or one character in front of it. -/
def Merges (c : UndoRedoChange) (start stop : ℕ) (text : Text) : Prop :=
  if start = stop then True
  else if c.newText = [] then text = [] ∧ (start = c.start ∨ stop = start + 1)
  else text = [] ∧ stop = c.start + c.newText.length ∧ c.start ≤ start
    ∧ (start = c.start → c.oldText = [])

instance (c : UndoRedoChange) (start stop : ℕ) (text : Text) :
    Decidable (c.Merges start stop text) := by
  unfold Merges
  infer_instance

theorem merges_of_eq (c : UndoRedoChange) (place : ℕ) (text : Text) : c.Merges place place text := by
  unfold Merges
  rw [if_pos rfl]
  trivial

end UndoRedoChange

/-! ## The chain -/

section Chain

open TextInputControl

variable {kind : ContentKind} {changes changes' : ℕ → UndoRedoChange} {base t : Text}
  {fresh i : ℕ}

/-- Undone one after the other, the records from `i` on take `t` to `base`. -/
inductive Past (kind : ContentKind) (changes : ℕ → UndoRedoChange) (base : Text) :
    ℕ → Text → Prop
  | head : Past kind changes base undoChangeHead base
  | record {i : ℕ} {before t : Text} (hprev : (changes i).prev < i)
      (hnext : (changes (changes i).prev).next = some i) (hedits : (changes i).Edits kind before t)
      (hpast : Past kind changes base (changes i).prev before) : Past kind changes base i t

/-- The records behind `i` can be redone, one after the other, from `t` on. -/
inductive Future (kind : ContentKind) (changes : ℕ → UndoRedoChange) (fresh : ℕ) :
    ℕ → Text → Prop
  | last {i : ℕ} {t : Text} (hnext : (changes i).next = none) : Future kind changes fresh i t
  | record {i j : ℕ} {t after : Text} (hnext : (changes i).next = some j) (hlt : i < j)
      (hfresh : j < fresh) (hprev : (changes j).prev = i) (hedits : (changes j).Edits kind t after)
      (hfuture : Future kind changes fresh j after) : Future kind changes fresh i t

/-- A past has an older record, or it is over. -/
theorem Past.cases_head (h : Past kind changes base i t) (hi : i ≠ undoChangeHead) :
    ∃ before, (changes i).prev < i ∧ (changes (changes i).prev).next = some i
      ∧ (changes i).Edits kind before t ∧ Past kind changes base (changes i).prev before := by
  cases h with
  | head => exact absurd rfl hi
  | record hprev hnext hedits hpast => exact ⟨_, hprev, hnext, hedits, hpast⟩

/-- The past of a record does not depend on newer records, nor on what is behind it. -/
theorem Past.congr (h : Past kind changes base i t) (hlt : ∀ j < i, changes' j = changes j)
    {next : Option ℕ} (hi : changes' i = { changes i with next := next }) :
    Past kind changes' base i t := by
  induction h generalizing next with
  | head => exact Past.head
  | @record i before t hprev hnext hedits hpast ih =>
    have hback : (changes' i).prev = (changes i).prev := by rw [hi]
    have hsame : changes' (changes i).prev = changes (changes i).prev := hlt _ hprev
    refine @Past.record _ _ _ _ before _ ?_ ?_ ?_ ?_
    · rwa [hback]
    · rw [hback, hsame, hnext]
    · rw [hi]
      exact ⟨hedits.places, hedits.legalBefore, hedits.legalAfter⟩
    · rw [hback]
      exact ih (fun j hj => hlt j (hj.trans hprev)) hsame

end Chain

end JavaFx.Control
