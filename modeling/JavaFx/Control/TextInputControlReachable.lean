/-
What holds of every control, whatever was done with it.

Here nothing is assumed of the calls: ranges may be wrong, records may have been
mixed up, and a call may have thrown half way. What is left are the links of the
history: `prev` leads to older records and `next` to newer ones, so that a sequence
of undos or of redos comes to an end.
-/
import JavaFx.Control.TextInputControlSpec

set_option autoImplicit false

namespace JavaFx.Control.TextInputControl

open JavaFx.Lib

variable {kind : ContentKind} {s s' : TextInputControl}

/-! ## Methods that leave the history alone -/

/-- However it ends, the method leaves the history and the flags. -/
def Frames {α : Type} (x : Method TextInputControl α) : Prop :=
  ∀ s, Wp x s (fun _ s' => Kept s s') (fun _ s' => Kept s s')

section Frames

variable {α β : Type} {x : Method TextInputControl α} {f : α → Method TextInputControl β}

theorem frames_pure (a : α) : Frames (pure a : Method TextInputControl α) := fun s => Kept.refl s

theorem frames_throw (e : Exn) : Frames (throw e : Method TextInputControl α) := fun s => Kept.refl s

theorem frames_get : Frames (get : Method TextInputControl TextInputControl) := fun s => Kept.refl s

theorem frames_liftExcept (y : Except Exn α) : Frames (liftExcept y : Method TextInputControl α) := by
  intro s
  rw [wp_liftExcept]
  exact ⟨fun _ _ => Kept.refl s, fun _ _ => Kept.refl s⟩

theorem Frames.bind (hx : Frames x) (hf : ∀ a, Frames (f a)) : Frames (x >>= f) := by
  intro s
  rw [wp_bind]
  apply (hx s).mono
  · intro a s₁ h₁
    exact (hf a s₁).mono (fun _ _ h => h₁.trans h) (fun _ _ h => h₁.trans h)
  · exact fun _ _ h => h

theorem Frames.ite {p : Prop} [Decidable p] {y : Method TextInputControl α} (hx : Frames x)
    (hy : Frames y) : Frames (if p then x else y) := by
  split
  · exact hx
  · exact hy

/-- `if (p) throw e; rest`. -/
theorem Frames.guard {p : Prop} [Decidable p] {e : Exn} {rest : PUnit → Method TextInputControl α}
    (hrest : ∀ u, Frames (rest u)) : Frames (if p then throw e >>= rest else rest ⟨⟩) :=
  Frames.ite ((frames_throw e).bind hrest) (hrest _)

theorem frames_getLength : Frames getLength := fun s => by
  rw [wp_getLength]
  exact kept_measured s

theorem frames_contentHasChanged (o : Option Text) (notifyListeners : Bool) :
    Frames (contentHasChanged o notifyListeners) := by
  intro s
  rw [wp_contentHasChanged]
  cases o with
  | none => exact Kept.refl s
  | some t => exact kept_told t notifyListeners

theorem frames_insertContent (index : ℕ) (text : Text) (notifyListeners : Bool) :
    Frames (insertContent kind index text notifyListeners) :=
  frames_get.bind fun _ => (frames_liftExcept _).bind fun _ => frames_contentHasChanged _ _

theorem frames_deleteContent (start stop : ℕ) (notifyListeners : Bool) :
    Frames (deleteContent kind start stop notifyListeners) :=
  frames_get.bind fun _ => (frames_liftExcept _).bind fun _ => frames_contentHasChanged _ _

theorem frames_getText (start stop : ℤ) : Frames (getText start stop) := by
  unfold getText
  refine Frames.guard fun _ => Frames.guard fun _ => frames_getLength.bind fun _ =>
    Frames.guard fun _ => frames_get.bind fun _ => frames_liftExcept _

theorem frames_doSelectRange (anchor caretPosition : ℤ) :
    Frames (doSelectRange anchor caretPosition) := by
  intro s
  rw [wp_doSelectRange]
  exact kept_select _ _ _

theorem frames_replaceContent (start stop : ℕ) (value : Text) (anchor caretPosition : ℤ) :
    Frames (replaceContent kind start stop value anchor caretPosition) := by
  unfold replaceContent
  refine frames_getLength.bind fun _ => Frames.ite ((frames_deleteContent _ _ _).bind fun _ => ?_) ?_
  all_goals
    exact (frames_insertContent _ _ _).bind fun _ => frames_getLength.bind fun _ =>
      (frames_doSelectRange _ _).bind fun _ => frames_pure _

end Frames

/-! ## The links of the history -/

/-- What the links and the flags are like, always. -/
structure WellFormed (s : TextInputControl) : Prop where
  fresh : undoChangeHead < s.fresh
  present : s.undoChange < s.fresh
  prev : ∀ i, (s.changes i).prev ≤ i - 1
  next : ∀ i j, (s.changes i).next = some j → i < j ∧ j < s.fresh
  undoable : s.undoable = true → s.undoChange ≠ undoChangeHead

theorem WellFormed.kept (h : WellFormed s) (hkept : Kept s s') : WellFormed s' := by
  constructor
  · rw [hkept.fresh]
    exact h.fresh
  · rw [hkept.undoChange, hkept.fresh]
    exact h.present
  · rw [hkept.changes]
    exact h.prev
  · rw [hkept.changes, hkept.fresh]
    exact h.next
  · rw [hkept.undoable, hkept.undoChange]
    exact h.undoable

theorem wellFormed_new : WellFormed new :=
  ⟨Nat.zero_lt_one, Nat.zero_lt_one, fun _ => Nat.zero_le _, fun _ _ h => (nomatch h),
    fun h => (nomatch h)⟩

theorem WellFormed.updateUndoRedoState (h : WellFormed s) : WellFormed s.updateUndoRedoState :=
  ⟨h.fresh, h.present, h.prev, h.next, decide_eq_true_iff.mp⟩

/-- A record that keeps its links is written. -/
theorem WellFormed.setCurrent (h : WellFormed s) {c : UndoRedoChange}
    (hprev : c.prev = s.current.prev) (hnext : c.next = s.current.next) :
    WellFormed (s.setCurrent c) := by
  have hat : ∀ i, (s.setCurrent c).changes i = if i = s.undoChange then c else s.changes i := by
    intro i
    exact Function.update_apply ..
  refine ⟨h.fresh, h.present, fun i => ?_, fun i j hij => ?_, h.undoable⟩
  · rw [hat]
    split
    · rename_i hi
      rw [hprev, hi]
      exact h.prev _
    · exact h.prev i
  · rw [hat] at hij
    split at hij
    · rename_i hi
      rw [hnext] at hij
      exact h.next i j (hi ▸ hij)
    · exact h.next i j hij

theorem WellFormed.add (h : WellFormed s) (start : ℕ) (oldText newText : Text) :
    WellFormed (s.add start oldText newText).updateUndoRedoState := by
  have hat : ∀ i, (s.add start oldText newText).changes i
      = if i = s.fresh then ⟨start, oldText, newText, s.undoChange, none⟩
        else if i = s.undoChange then { s.current with next := some s.fresh } else s.changes i := by
    intro i
    unfold TextInputControl.add
    dsimp only
    rw [Function.update_apply, Function.update_apply]
  have hpresent := h.present
  refine ⟨Nat.succ_pos _, Nat.lt_succ_self _, fun i => ?_, fun i j hij => ?_, decide_eq_true_iff.mp⟩
  · change ((s.add start oldText newText).changes i).prev ≤ i - 1
    rw [hat]
    split
    · dsimp only
      omega
    · split
      · rename_i hi
        rw [hi]
        exact h.prev _
      · exact h.prev i
  · change ((s.add start oldText newText).changes i).next = some j at hij
    change i < j ∧ j < s.fresh + 1
    rw [hat] at hij
    split at hij
    · cases hij
    · split at hij
      · have hj := Option.some.inj hij
        omega
      · have hnext := h.next i j hij
        omega

/-- The record behind a record that is thrown away is still newer. -/
theorem WellFormed.discard (h : WellFormed s) : WellFormed s.discard.updateUndoRedoState := by
  have hprev : s.current.prev ≤ s.undoChange - 1 := h.prev _
  have hpresent := h.present
  have hat : ∀ i, s.discard.changes i = if i = s.current.prev then
      { s.changes s.current.prev with next := s.current.next } else s.changes i := by
    intro i
    exact Function.update_apply ..
  refine ⟨h.fresh, ?_, fun i => ?_, fun i j hij => ?_, decide_eq_true_iff.mp⟩
  · change s.current.prev < s.fresh
    omega
  · change (s.discard.changes i).prev ≤ i - 1
    rw [hat]
    split
    · rename_i hi
      rw [hi]
      exact h.prev _
    · exact h.prev i
  · change (s.discard.changes i).next = some j at hij
    rw [hat] at hij
    split at hij
    · have hnext := h.next s.undoChange j hij
      exact ⟨by omega, hnext.2⟩
    · exact h.next i j hij

/-! ## The calls -/

/-- However it ends, the method keeps the links in order. -/
def Keeps {α : Type} (x : Method TextInputControl α) : Prop :=
  ∀ s, WellFormed s →
    Wp x s (fun _ s' => WellFormed s' ∧ s'.createNewUndoRecord = s.createNewUndoRecord)
      (fun _ s' => WellFormed s' ∧ s'.createNewUndoRecord = s.createNewUndoRecord)

section Keeps

variable {α β : Type} {x : Method TextInputControl α} {f : α → Method TextInputControl β}

theorem Frames.keeps (hx : Frames x) : Keeps x := by
  intro s h
  exact (hx s).mono (fun _ _ hkept => ⟨h.kept hkept, hkept.createNewUndoRecord⟩)
    (fun _ _ hkept => ⟨h.kept hkept, hkept.createNewUndoRecord⟩)

theorem Keeps.bind (hx : Keeps x) (hf : ∀ a, Keeps (f a)) : Keeps (x >>= f) := by
  intro s h
  rw [wp_bind]
  apply (hx s h).mono
  · rintro a s₁ ⟨h₁, hcreate⟩
    exact (hf a s₁ h₁).mono (fun _ _ h => ⟨h.1, h.2.trans hcreate⟩)
      (fun _ _ h => ⟨h.1, h.2.trans hcreate⟩)
  · exact fun _ _ h => h

/-- A method that goes on with the state it is in. -/
theorem keeps_get_bind {f : TextInputControl → Method TextInputControl α}
    (hf : ∀ s, WellFormed s → Wp (f s) s
      (fun _ s' => WellFormed s' ∧ s'.createNewUndoRecord = s.createNewUndoRecord)
      (fun _ s' => WellFormed s' ∧ s'.createNewUndoRecord = s.createNewUndoRecord)) :
    Keeps (get >>= f) := by
  intro s h
  rw [wp_bind, wp_get]
  exact hf s h

theorem keeps_extendUndoChange (change : Change) (endOfUndoChange : ℤ) (oldText newText : Text) :
    Keeps (do
      extendUndoChange change endOfUndoChange oldText newText
      modify updateUndoRedoState) := by
  intro s h
  have hset : ∀ start oldText newText, WellFormed (s.setCurrent
      ⟨start, oldText, newText, s.current.prev, s.current.next⟩) :=
    fun _ _ _ => h.setCurrent rfl rfl
  unfold extendUndoChange
  rw [wp_bind, wp_bind, wp_get]
  split
  · split
    · rw [wp_bind, wp_liftExcept]
      refine ⟨fun t _ => ?_, fun e _ => ⟨h, rfl⟩⟩
      rw [wp_set, wp_modify]
      split
      · exact ⟨(hset _ _ _).discard, rfl⟩
      · exact ⟨(hset _ _ _).updateUndoRedoState, rfl⟩
    · split
      · exact ⟨(hset _ _ _).updateUndoRedoState, rfl⟩
      · exact ⟨(hset _ _ _).updateUndoRedoState, rfl⟩
  · exact ⟨(hset _ _ _).updateUndoRedoState, rfl⟩

theorem keeps_updateContent (change : Change) (forceNewUndoRecord : Bool) :
    Keeps (updateContent kind change forceNewUndoRecord) := by
  unfold updateContent
  apply frames_get.keeps.bind
  intro s₀
  apply (frames_getText _ _).keeps.bind
  intro oldText
  apply (frames_replaceContent _ _ _ _ _).keeps.bind
  intro adjustmentAmount
  apply frames_get.keeps.bind
  intro s₁
  apply (frames_getText _ _).keeps.bind
  intro newText
  apply keeps_get_bind
  intro s h
  split
  · rw [wp_bind, wp_set, wp_modify]
    exact ⟨h.add _ _ _, rfl⟩
  · exact keeps_extendUndoChange change _ oldText newText s h

theorem keeps_guard {p : Prop} [Decidable p] {e : Exn} {rest : PUnit → Method TextInputControl α}
    (hrest : ∀ u, Keeps (rest u)) : Keeps (if p then throw e >>= rest else rest ⟨⟩) := by
  split
  · exact (frames_throw e).keeps.bind hrest
  · exact hrest _

theorem keeps_replaceText (start stop : ℤ) (text : Text) :
    Keeps (replaceText kind start stop text) := by
  unfold replaceText
  exact keeps_guard fun _ => keeps_guard fun _ => frames_getLength.keeps.bind fun _ =>
    keeps_guard fun _ => frames_getLength.keeps.bind fun _ => keeps_updateContent _ _

theorem keeps_selectRange (anchor caretPosition : ℤ) :
    Keeps (selectRange kind anchor caretPosition) := by
  unfold selectRange
  exact frames_getLength.keeps.bind fun _ => frames_getLength.keeps.bind fun _ =>
    keeps_updateContent _ _

theorem WellFormed.back (h : WellFormed s) :
    WellFormed ({ s with undoChange := s.current.prev }).updateUndoRedoState := by
  have hprev : s.current.prev ≤ s.undoChange - 1 := h.prev _
  have hpresent := h.present
  have hlt : s.current.prev < s.fresh := by omega
  exact ⟨h.fresh, hlt, h.prev, h.next, decide_eq_true_iff.mp⟩

theorem WellFormed.forth (h : WellFormed s) {j : ℕ} (hnext : s.current.next = some j) :
    WellFormed { s with undoChange := j } := by
  obtain ⟨hlt, hfresh⟩ := h.next _ _ hnext
  exact ⟨h.fresh, hfresh, h.prev, h.next, fun _ => Nat.ne_of_gt (Nat.zero_lt_of_lt hlt)⟩

theorem keeps_undo : Keeps (undo kind) := by
  unfold undo
  apply keeps_get_bind
  intro s h
  split
  · refine ((frames_deleteContent _ _ _).keeps.bind fun _ => (frames_insertContent _ _ _).keeps.bind
      fun _ => (frames_doSelectRange _ _).keeps.bind fun _ => ?_) s h
    intro s₁ h₁
    rw [wp_bind, wp_modify, wp_modify]
    exact ⟨h₁.back, rfl⟩
  · exact ⟨h.updateUndoRedoState, rfl⟩

theorem keeps_redo : Keeps (redo kind) := by
  unfold redo
  apply keeps_get_bind
  intro s h
  have hupdate : Keeps (modify updateUndoRedoState) := fun s h => ⟨h.updateUndoRedoState, rfl⟩
  split
  · split
    · exact ((frames_throw _).keeps.bind fun _ => hupdate) s h
    · rename_i j hnext
      rw [wp_bind, wp_set]
      exact ((frames_deleteContent _ _ _).keeps.bind fun _ =>
        (frames_insertContent _ _ _).keeps.bind fun _ =>
        (frames_doSelectRange _ _).keeps.bind fun _ => hupdate) _ (h.forth hnext)
  · exact ⟨h.updateUndoRedoState, rfl⟩

/-- The flag of a paste is gone when the paste is over, however it ended. -/
theorem paste_keeps (text : Text) (h : WellFormed s) :
    Wp (paste kind text) s (fun _ s' => WellFormed s' ∧ s'.createNewUndoRecord = false)
      (fun _ s' => WellFormed s' ∧ s'.createNewUndoRecord = false) := by
  have hflag : ∀ {s : TextInputControl} (b : Bool), WellFormed s →
      WellFormed { s with createNewUndoRecord := b } :=
    fun _ h => ⟨h.fresh, h.present, h.prev, h.next, h.undoable⟩
  unfold paste replaceSelection
  rw [wp_bind, wp_modify, wp_bind, wp_tryCatch, wp_bind, wp_get]
  apply (keeps_replaceText _ _ _ _ (hflag true h)).mono
  · rintro - s' ⟨h', -⟩
    rw [wp_modify]
    exact ⟨hflag false h', rfl⟩
  · rintro e s' ⟨h', -⟩
    rw [wp_bind, wp_modify, wp_throw]
    exact ⟨hflag false h', rfl⟩

theorem perform_keeps (h : WellFormed s) (hcreate : s.createNewUndoRecord = false) (call : Call) :
    Wp (perform kind call) s (fun _ s' => WellFormed s' ∧ s'.createNewUndoRecord = false)
      (fun _ s' => WellFormed s' ∧ s'.createNewUndoRecord = false) := by
  have hkeeps : ∀ {x : Method TextInputControl Unit}, Keeps x →
      Wp x s (fun _ s' => WellFormed s' ∧ s'.createNewUndoRecord = false)
        (fun _ s' => WellFormed s' ∧ s'.createNewUndoRecord = false) := by
    intro x hx
    exact (hx s h).mono (fun _ _ h => ⟨h.1, h.2.trans hcreate⟩)
      (fun _ _ h => ⟨h.1, h.2.trans hcreate⟩)
  cases call with
  | replaceText start stop text => exact hkeeps (keeps_replaceText _ _ _)
  | insertText index text => exact hkeeps (keeps_replaceText _ _ _)
  | deleteText start stop => exact hkeeps (keeps_replaceText _ _ _)
  | paste text => exact paste_keeps text h
  | undo => exact hkeeps keeps_undo
  | redo => exact hkeeps keeps_redo
  | selectRange anchor caretPosition => exact hkeeps (keeps_selectRange _ _)

theorem WellFormed.reset (h : WellFormed s) : WellFormed s.resetUndoRedoState := by
  have hat : ∀ i, s.resetUndoRedoState.changes i = if i = undoChangeHead then
      { s.changes undoChangeHead with next := none } else s.changes i := by
    intro i
    exact Function.update_apply ..
  refine ⟨h.fresh, h.fresh, fun i => ?_, fun i j hij => ?_,
    of_decide_eq_true (p := undoChangeHead ≠ undoChangeHead)⟩
  · rw [hat]
    split
    · rename_i hi
      rw [hi]
      exact h.prev _
    · exact h.prev i
  · rw [hat] at hij
    split at hij
    · cases hij
    · exact h.next i j hij

theorem setText_keeps (h : WellFormed s) (value : Option Text) :
    Wp (setText kind value) s
      (fun _ s' => WellFormed s' ∧ s'.createNewUndoRecord = s.createNewUndoRecord)
      (fun _ s' => WellFormed s' ∧ s'.createNewUndoRecord = s.createNewUndoRecord) := by
  unfold setText
  rw [wp_bind, wp_modify, wp_bind, wp_get]
  have hnull : WellFormed { s with textIsNull := value.isNone } :=
    ⟨h.fresh, h.present, h.prev, h.next, h.undoable⟩
  refine ((frames_replaceContent _ _ _ _ _).keeps.bind fun _ => ?_) _ hnull
  intro s₁ h₁
  rw [wp_bind, wp_modify, wp_modify]
  exact ⟨⟨h₁.reset.fresh, h₁.reset.present, h₁.reset.prev, h₁.reset.next, h₁.reset.undoable⟩, rfl⟩

end Keeps

/-- What a predicate says of the state after a call, from what it says of both ends. -/
theorem Wp.after {α : Type} {x : Method TextInputControl α} {P : TextInputControl → Prop}
    (h : Wp x s (fun _ s' => P s') (fun _ s' => P s')) : P (after x s) := by
  unfold TextInputControl.after
  rw [Wp] at h
  cases hx : x.run s with
  | ok a s' =>
    rw [hx] at h
    exact h
  | error e s' =>
    rw [hx] at h
    exact h

theorem Reachable.wellFormed (h : Reachable kind s) :
    WellFormed s ∧ s.createNewUndoRecord = false := by
  induction h with
  | new => exact ⟨wellFormed_new, rfl⟩
  | call h call ih => exact Wp.after (perform_keeps ih.1 ih.2 call)
  | setText h value ih =>
    obtain ⟨hwellFormed, hcreate⟩ := Wp.after (setText_keeps ih.1 value)
    exact ⟨hwellFormed, hcreate.trans ih.2⟩

end JavaFx.Control.TextInputControl
