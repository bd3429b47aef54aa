/-
Undo and redo over a run of calls on a text input control.

Between two calls the control is `Sound`. Each call has a specification, and from
these the run theorem is put together: as long as every edit either gets a record
of its own or is one the last record can take in, undoing leads back to the text
that was set, and undo and redo take each other back.
-/
import JavaFx.Control.TextInputControlReachable

set_option autoImplicit false

namespace JavaFx.Control.TextInputControl

open JavaFx.Lib

variable {kind : ContentKind} {s s' s₁ : TextInputControl} {A B C t text base : Text}
  {E : Exn → TextInputControl → Prop}

theorem Sound.measured (h : Sound kind base s) : Sound kind base s.measured :=
  ⟨h.steady.measured, h.legal, h.history.kept (kept_measured s), h.undoable, h.redoable⟩

theorem Sound.withCreateNewUndoRecord (h : Sound kind base s) (b : Bool) :
    Sound kind base { s with createNewUndoRecord := b } :=
  ⟨⟨h.steady.null, h.steady.length⟩, h.legal,
    ⟨h.history.present, h.history.past, h.history.future⟩, h.undoable, h.redoable⟩

/-! ## Undo and redo -/

/-- An undo and a redo exchange two texts, go to another record and leave the records. -/
structure Moved (kind : ContentKind) (base : Text) (s s' : TextInputControl) (c : UndoRedoChange)
    (before after : Text) : Prop where
  sound : Sound kind base s'
  changes : s'.changes = s.changes
  createNewUndoRecord : s'.createNewUndoRecord = s.createNewUndoRecord
  textIsNull : s.textIsNull = false → s'.textIsNull = false
  edits : c.Edits kind before after

/-- Taking a piece out of the text, putting another one in and selecting: what undo
and redo have in common. -/
theorem exchange_spec (h : Steady s) {value : Text} (hchars : s.characters = A ++ B ++ C)
    (hvalue : kind.filterInput value = value) (anchor caretPosition : ℤ) {start : ℕ}
    (hstart : start = A.length) {rest : Method TextInputControl Unit}
    {Q : Unit → TextInputControl → Prop}
    (hrest : ∀ s', s'.characters = A ++ value ++ C → Steady s' → Kept s s' → Wp rest s' Q E) :
    Wp (do
      deleteContent kind start (start + B.length) value.isEmpty
      insertContent kind start value true
      doSelectRange anchor caretPosition
      rest) s Q E := by
  have htold : B = [] ∨ value = [] ∨ value ≠ [] := Or.inr (em _)
  have hsteady : Steady (s.exchanged A B C value value) := h.exchanged htold
  rw [wp_bind, wp_deleteContent hchars hstart (by rw [hstart]), wp_bind,
    wp_insertContent (characters_deleted hchars _) hstart, wp_bind, wp_doSelectRange, hvalue]
  change Wp rest { (s.exchanged A B C value value).measured with caretPosition := _, anchor := _ } _ _
  apply hrest
  · exact characters_exchanged hchars value value
  · exact hsteady.select _ _
  · exact (kept_exchanged A B C value value).trans (kept_select _ _ _)

theorem undo_spec (h : Sound kind base s) (hundoable : s.undoable = true) :
    Wp (undo kind) s (fun _ s' => s'.undoChange = s.current.prev ∧ s'.redoable = true
      ∧ (s.changes s'.undoChange).next = some s.undoChange
      ∧ Moved kind base s s' s.current s'.characters s.characters) E := by
  have hhead := h.undoable.mp hundoable
  obtain ⟨before, hlt, hlink, hedits, hpast⟩ := h.history.past.cases_head hhead
  obtain ⟨A, C, hbefore, hafter, hstart⟩ := hedits.places
  have hold : kind.filterInput s.current.oldText = s.current.oldText := by
    have hlegal := hedits.legalBefore
    rw [hbefore, ContentKind.legal_append, ContentKind.legal_append] at hlegal
    exact hlegal.1.2
  unfold undo
  rw [wp_bind, wp_get, if_pos hundoable]
  apply exchange_spec h.steady hafter hold _ _ hstart
  intro s₁ hchars hsteady hkept
  have hprev : s₁.current.prev = s.current.prev := by
    unfold current
    rw [hkept.changes, hkept.undoChange]
  have hlink₁ : (s₁.changes s₁.current.prev).next = some s.undoChange := by
    rw [hprev, hkept.changes]
    exact hlink
  have hbefore₁ : s₁.characters = before := hchars.trans hbefore.symm
  rw [wp_bind, wp_modify, wp_modify]
  refine ⟨hprev, ?_, ?_, ?_⟩
  · change (s₁.changes s₁.current.prev).next.isSome = true
    rw [hlink₁]
    rfl
  · change (s.changes s₁.current.prev).next = some s.undoChange
    rw [hprev]
    exact hlink
  · have hhistory : History kind base { s₁ with undoChange := s₁.current.prev } before := by
      constructor
      · change s₁.current.prev < s₁.fresh
        rw [hprev, hkept.fresh]
        exact hlt.trans h.history.present
      · change Past kind s₁.changes base s₁.current.prev before
        rw [hprev, hkept.changes]
        exact hpast
      · change Future kind s₁.changes s₁.fresh s₁.current.prev before
        rw [hprev, hkept.changes, hkept.fresh]
        exact Future.record hlink hlt h.history.present rfl hedits h.history.future
    have hmoved : Steady { s₁ with undoChange := s₁.current.prev } :=
      ⟨hsteady.null, hsteady.length⟩
    refine ⟨?_, hkept.changes, hkept.createNewUndoRecord, hkept.textIsNull, ?_⟩
    · apply sound_updateUndoRedoState hmoved
      · change kind.Legal s₁.characters
        rw [hbefore₁]
        exact hedits.legalBefore
      · rw [← hbefore₁] at hhistory
        exact hhistory
    · change s.current.Edits kind s₁.characters s.characters
      rw [hbefore₁]
      exact hedits

theorem redo_spec (h : Sound kind base s) (hredoable : s.redoable = true) :
    Wp (redo kind) s (fun _ s' => (s.changes s'.undoChange).prev = s.undoChange
      ∧ s'.undoable = true ∧ s.current.next = some s'.undoChange
      ∧ Moved kind base s s' s'.current s.characters s'.characters) E := by
  have hsome : s.current.next.isSome = true := h.redoable ▸ hredoable
  obtain ⟨hpresent, hpast, hfuture⟩ := h.history
  cases hfuture with
  | last hnext =>
    unfold current at hsome
    rw [hnext] at hsome
    cases hsome
  | @record _ j _ after hnext hlt hfresh hprev hedits hfuture =>
    obtain ⟨A, C, hbefore, hafter, hstart⟩ := hedits.places
    have hnew : kind.filterInput (s.changes j).newText = (s.changes j).newText := by
      have hlegal := hedits.legalAfter
      rw [hafter, ContentKind.legal_append, ContentKind.legal_append] at hlegal
      exact hlegal.1.2
    unfold redo
    rw [wp_bind, wp_get, if_pos hredoable]
    have hnext' : s.current.next = some j := hnext
    rw [hnext']
    rw [wp_bind, wp_set]
    have hsteady₀ : Steady { s with undoChange := j } := ⟨h.steady.null, h.steady.length⟩
    apply exchange_spec (s := { s with undoChange := j }) hsteady₀ hbefore hnew _ _ hstart
    intro s₁ hchars hsteady hkept
    have hafter₁ : s₁.characters = after := hchars.trans hafter.symm
    have hundo : s₁.undoChange = j := hkept.undoChange
    have hchanges : s₁.changes = s.changes := hkept.changes
    have hcurrent : s₁.current = s.changes j := by
      unfold current
      rw [hundo, hchanges]
    rw [wp_modify]
    refine ⟨?_, ?_, ?_, ?_⟩
    · change (s.changes s₁.undoChange).prev = s.undoChange
      rw [hundo]
      exact hprev
    · change decide (s₁.undoChange ≠ undoChangeHead) = true
      rw [hundo, decide_eq_true_iff]
      exact Nat.ne_of_gt (Nat.zero_lt_of_lt hlt)
    · change some j = some s₁.undoChange
      rw [hundo]
    · have hhistory : History kind base s₁ after := by
        constructor
        · rw [hundo, hkept.fresh]
          exact hfresh
        · rw [hundo, hchanges]
          refine Past.record (by rwa [hprev]) (by rwa [hprev]) hedits ?_
          rwa [hprev]
        · rw [hundo, hchanges, hkept.fresh]
          exact hfuture
      refine ⟨?_, hchanges, hkept.createNewUndoRecord, hkept.textIsNull, ?_⟩
      · apply sound_updateUndoRedoState hsteady
        · rw [hafter₁]
          exact hedits.legalAfter
        · rwa [hafter₁]
      · change s₁.current.Edits kind s.characters s₁.characters
        rw [hcurrent, hafter₁]
        exact hedits

theorem wp_undo_idle {Q : Unit → TextInputControl → Prop} (hundoable : s.undoable = false) :
    Wp (undo kind) s Q E ↔ Q () s.updateUndoRedoState := by
  unfold undo
  rw [wp_bind, wp_get, hundoable]
  exact wp_modify _

theorem wp_redo_idle {Q : Unit → TextInputControl → Prop} (hredoable : s.redoable = false) :
    Wp (redo kind) s Q E ↔ Q () s.updateUndoRedoState := by
  unfold redo
  rw [wp_bind, wp_get, hredoable]
  exact wp_modify _

/-! ## Undoing and redoing again -/

/-- `x` is called `n` times, each time when the control says that it can be. -/
inductive Repeated (can : TextInputControl → Bool) (x : Method TextInputControl Unit) :
    ℕ → TextInputControl → TextInputControl → Prop
  | zero (s : TextInputControl) : Repeated can x 0 s s
  | succ {n : ℕ} {s s₁ s' : TextInputControl} (hcan : can s = true) (hx : x.run s = .ok () s₁)
      (hrest : Repeated can x n s₁ s') : Repeated can x (n + 1) s s'

theorem Repeated.snoc {can : TextInputControl → Bool} {x : Method TextInputControl Unit} {n : ℕ}
    (h : Repeated can x n s s₁) (hcan : can s₁ = true) (hx : x.run s₁ = .ok () s') :
    Repeated can x (n + 1) s s' := by
  induction h with
  | zero s => exact Repeated.succ hcan hx (Repeated.zero s')
  | succ hcan' hx' hrest ih => exact Repeated.succ hcan' hx' (ih hcan hx)

/-- `n` undos, each of a control that is undoable. -/
abbrev Undone (kind : ContentKind) : ℕ → TextInputControl → TextInputControl → Prop :=
  Repeated undoable (undo kind)

/-- `n` redos, each of a control that is redoable. -/
abbrev Redone (kind : ContentKind) : ℕ → TextInputControl → TextInputControl → Prop :=
  Repeated redoable (redo kind)

/-- The second control shows what the first one shows. -/
def SameText (s s' : TextInputControl) : Prop :=
  s'.characters = s.characters ∧ (s.textIsNull = false → s'.text = s.text)

/-- The text `installed` comes back when everything is undone; what was undone is
redone exactly, and what was redone is undone exactly. -/
structure Restores (kind : ContentKind) (installed s : TextInputControl) : Prop where
  installed : ∃ n s', Undone kind n s s' ∧ s'.undoable = false ∧ SameText installed s'
  redone : ∀ n s', Undone kind n s s' → ∃ s'', Redone kind n s' s'' ∧ SameText s s''
  undone : ∀ n s', Redone kind n s s' → ∃ s'', Undone kind n s' s'' ∧ SameText s s''

/-- Two states of one control at one place of its history. -/
structure Alike (kind : ContentKind) (base : Text) (s s' : TextInputControl) : Prop where
  sound : Sound kind base s'
  changes : s'.changes = s.changes
  undoChange : s'.undoChange = s.undoChange
  characters : s'.characters = s.characters
  textIsNull : s.textIsNull = false → s'.textIsNull = false

theorem Alike.refl (h : Sound kind base s) : Alike kind base s s := ⟨h, rfl, rfl, rfl, id⟩

theorem Alike.current (h : Alike kind base s s') : s'.current = s.current := by
  unfold TextInputControl.current
  rw [h.changes, h.undoChange]

theorem sameText_of (hcharacters : s'.characters = s.characters)
    (hnull : s.textIsNull = false → s'.textIsNull = false) : SameText s s' := by
  refine ⟨hcharacters, fun h => ?_⟩
  unfold TextInputControl.text
  rw [h, hnull h, hcharacters]

theorem Alike.sameText (h : Alike kind base s s') : SameText s s' :=
  sameText_of h.characters h.textIsNull

/-- Undos are taken back by as many redos. -/
theorem redone_of_undone {n : ℕ} (h : Undone kind n s s') (hs : Sound kind base s) :
    ∃ s'', Redone kind n s' s'' ∧ Alike kind base s s'' := by
  induction h with
  | zero s => exact ⟨s, Repeated.zero s, Alike.refl hs⟩
  | @succ n s s₁ s' hcan hx hrest ih =>
    obtain ⟨_, t, ht, hback, hredoable, hlink, hmoved⟩ :=
      (undo_spec (E := fun _ _ => False) hs hcan).returns
    obtain rfl : s₁ = t := by
      rw [hx] at ht
      injection ht
    obtain ⟨s₂, hs₂, halike⟩ := ih hmoved.sound
    have hcan₂ : s₂.redoable = true := by
      rw [halike.sound.redoable, halike.current, ← hmoved.sound.redoable]
      exact hredoable
    obtain ⟨_, s₃, hs₃, -, -, hnext, hmoved₃⟩ :=
      (redo_spec (E := fun _ _ => False) halike.sound hcan₂).returns
    have hplace : s₃.undoChange = s.undoChange := by
      rw [halike.current, TextInputControl.current, hmoved.changes, hlink] at hnext
      exact (Option.some.inj hnext).symm
    have hchanges : s₃.changes = s.changes :=
      hmoved₃.changes.trans (halike.changes.trans hmoved.changes)
    have hcurrent : s₃.current = s.current := by
      unfold TextInputControl.current
      rw [hchanges, hplace]
    have hedits := hmoved₃.edits
    rw [hcurrent, halike.characters] at hedits
    exact ⟨s₃, hs₂.snoc hcan₂ hs₃, hmoved₃.sound, hchanges, hplace,
      hmoved.edits.after_unique hedits,
      fun hnull => hmoved₃.textIsNull (halike.textIsNull (hmoved.textIsNull hnull))⟩

/-- Redos are taken back by as many undos. -/
theorem undone_of_redone {n : ℕ} (h : Redone kind n s s') (hs : Sound kind base s) :
    ∃ s'', Undone kind n s' s'' ∧ Alike kind base s s'' := by
  induction h with
  | zero s => exact ⟨s, Repeated.zero s, Alike.refl hs⟩
  | @succ n s s₁ s' hcan hx hrest ih =>
    obtain ⟨_, t, ht, hback, hundoable, -, hmoved⟩ :=
      (redo_spec (E := fun _ _ => False) hs hcan).returns
    obtain rfl : s₁ = t := by
      rw [hx] at ht
      injection ht
    obtain ⟨s₂, hs₂, halike⟩ := ih hmoved.sound
    have hcan₂ : s₂.undoable = true := by
      rw [halike.sound.undoable, halike.undoChange, ← hmoved.sound.undoable]
      exact hundoable
    obtain ⟨_, s₃, hs₃, hplace₃, -, -, hmoved₃⟩ :=
      (undo_spec (E := fun _ _ => False) halike.sound hcan₂).returns
    have hplace : s₃.undoChange = s.undoChange := by
      rw [hplace₃, halike.current, TextInputControl.current, hmoved.changes, hback]
    have hchanges : s₃.changes = s.changes :=
      hmoved₃.changes.trans (halike.changes.trans hmoved.changes)
    have hedits := hmoved₃.edits
    rw [halike.current, halike.characters] at hedits
    exact ⟨s₃, hs₂.snoc hcan₂ hs₃, hmoved₃.sound, hchanges, hplace,
      hmoved.edits.before_unique hedits,
      fun hnull => hmoved₃.textIsNull (halike.textIsNull (hmoved.textIsNull hnull))⟩

/-- Undoing ends at the text the history began with. -/
theorem undone_to_base (n : ℕ) : ∀ {s : TextInputControl}, s.undoChange < n → Sound kind base s →
    ∃ m s', Undone kind m s s' ∧ s'.undoable = false ∧ s'.characters = base
      ∧ (s.textIsNull = false → s'.textIsNull = false) := by
  induction n with
  | zero =>
    intro s hlt
    exact absurd hlt (Nat.not_lt_zero _)
  | succ n ih =>
    intro s hlt hs
    cases hcan : s.undoable with
    | false =>
      have hhead : s.undoChange = undoChangeHead := by
        by_contra hne
        rw [hs.undoable.mpr hne] at hcan
        cases hcan
      have hpast := hs.history.past
      rw [hhead] at hpast
      refine ⟨0, s, Repeated.zero s, hcan, ?_, id⟩
      cases hpast with
      | head => rfl
      | record hprev => exact absurd hprev (Nat.not_lt_zero _)
    | true =>
      obtain ⟨_, s₁, hs₁, hplace, -, -, hmoved⟩ :=
        (undo_spec (E := fun _ _ => False) hs hcan).returns
      obtain ⟨_, hprev, -⟩ := hs.history.past.cases_head (hs.undoable.mp hcan)
      have hback : s₁.undoChange < s.undoChange := hplace ▸ hprev
      obtain ⟨m, s', hundone, hend, hbase, hnull⟩ := ih (by omega) hmoved.sound
      exact ⟨m + 1, s', Repeated.succ hcan hs₁ hundone, hend, hbase,
        fun h => hnull (hmoved.textIsNull h)⟩

/-- What the invariant is for. -/
theorem Sound.restores (h : Sound kind base s) (hbase : s₁.characters = base)
    (hnull : s₁.textIsNull = false → s.textIsNull = false) : Restores kind s₁ s := by
  constructor
  · obtain ⟨n, s', hundone, hend, hcharacters, hnull'⟩ :=
      undone_to_base (s.undoChange + 1) (Nat.lt_succ_self _) h
    exact ⟨n, s', hundone, hend, sameText_of (hcharacters.trans hbase.symm)
      fun h => hnull' (hnull h)⟩
  · intro n s' hundone
    obtain ⟨s'', hredone, halike⟩ := redone_of_undone hundone h
    exact ⟨s'', hredone, halike.sameText⟩
  · intro n s' hredone
    obtain ⟨s'', hundone, halike⟩ := undone_of_redone hredone h
    exact ⟨s'', hundone, halike.sameText⟩

/-! ## The edits -/

/-- A range of the text. -/
def ValidRange (s : TextInputControl) (start stop : ℤ) : Prop :=
  0 ≤ start ∧ start ≤ stop ∧ stop ≤ s.characters.length

instance (s : TextInputControl) (start stop : ℤ) : Decidable (s.ValidRange start stop) := by
  unfold ValidRange
  infer_instance

/-- The edit has a valid range, does not put a text in the place of another one that
the content then filters out altogether, and gets a record of its own or is one that
the last record, with nothing to redo, can take in. -/
def EditRecorded (kind : ContentKind) (s : TextInputControl) (start stop : ℤ) (text : Text) :
    Prop :=
  s.ValidRange start stop
    ∧ (start = stop ∨ text = [] ∨ kind.filterInput text ≠ [])
    ∧ (s.NeedsRecord start.toNat stop.toNat s.characters.isEmpty
      ∨ s.current.Merges start.toNat stop.toNat text ∧ s.redoable = false)

instance (kind : ContentKind) (s : TextInputControl) (start stop : ℤ) (text : Text) :
    Decidable (EditRecorded kind s start stop text) := by
  unfold EditRecorded
  infer_instance

theorem replaceText_spec (h : Sound kind base s) {start stop : ℤ}
    (hrecorded : EditRecorded kind s start stop text) :
    Wp (replaceText kind start stop text) s
      (fun _ s' => (∃ t, Edited kind base s s' t) ∧ s'.redoable = false) (fun _ _ => False) := by
  obtain ⟨⟨hpos, hle, hlength⟩, htold, hrecord⟩ := hrecorded
  have hlen : s.length = s.characters.length := h.steady.length_eq
  obtain ⟨A, B, C, hchars, hstart, hstop⟩ : ∃ A B C, s.characters = A ++ B ++ C ∧
      A.length = start.toNat ∧ A.length + B.length = stop.toNat :=
    cut s.characters (by omega) (by omega)
  have hB : start = stop → B = [] := by
    intro heq
    rw [← List.length_eq_zero_iff]
    omega
  have hforce : decide (s.length = 0) = s.characters.isEmpty := by
    rw [hlen, Bool.eq_iff_iff, decide_eq_true_iff, List.isEmpty_iff_length_eq_zero]
  unfold replaceText
  rw [if_neg (by omega), if_neg (by omega), wp_bind, wp_getLength, if_neg (by omega), wp_bind,
    wp_getLength]
  have hrecordable : s.measured.measured.Recordable
      ⟨start.toNat, stop.toNat, text, start + text.length, start + text.length⟩
      (decide (s.measured.length = 0)) := by
    rw [length_measured, hforce]
    exact hrecord.imp id fun hmerges => ⟨hmerges.1, Or.inl hmerges.2⟩
  apply (updateContent_spec h.measured.measured hchars hstart.symm hstop.symm (htold.imp_left hB)
    hrecordable).mono
  · rintro - s' ⟨hedited, hredoable⟩
    refine ⟨⟨_, hedited.sound, hedited.characters, hedited.createNewUndoRecord,
      hedited.textIsNull⟩, hredoable ?_⟩
    rw [length_measured, hforce]
    exact hrecord.imp id fun hmerges => hmerges.2
  · exact fun _ _ hfalse => hfalse

theorem paste_spec (h : Sound kind base s) (hrecorded : EditRecorded kind
      { s with createNewUndoRecord := true } s.selectionStart
      (s.selectionStart + s.selectionLength) text) :
    Wp (paste kind text) s
      (fun _ s' => Sound kind base s' ∧ s'.createNewUndoRecord = false
        ∧ (s.textIsNull = false → s'.textIsNull = false) ∧ s'.redoable = false)
      (fun _ _ => False) := by
  unfold paste
  rw [wp_bind, wp_modify, wp_bind, wp_tryCatch]
  unfold replaceSelection
  rw [wp_bind, wp_get]
  apply (replaceText_spec (h.withCreateNewUndoRecord true) hrecorded).mono
  · rintro - s' ⟨⟨t, hedited⟩, hredoable⟩
    rw [wp_modify]
    exact ⟨hedited.sound.withCreateNewUndoRecord false, rfl, hedited.textIsNull, hredoable⟩
  · exact fun _ _ hfalse => hfalse.elim

theorem clamp_mem (value : ℤ) {max : ℤ} (hmax : 0 ≤ max) :
    0 ≤ clamp 0 value max ∧ clamp 0 value max ≤ max := by
  unfold clamp
  split
  · omega
  · split <;> omega

/-- A selection is recorded as an edit of nothing, and the last record can always
take that in. -/
theorem selectRange_spec (h : Sound kind base s) (anchor caretPosition : ℤ) :
    Wp (selectRange kind anchor caretPosition) s (fun _ s' => Edited kind base s s' s.characters)
      (fun _ _ => False) := by
  have hclamp := clamp_mem caretPosition (show (0 : ℤ) ≤ s.length by omega)
  have hlen : s.length = s.characters.length := h.steady.length_eq
  obtain ⟨A, B, C, hchars, hstart, hstop⟩ : ∃ A B C, s.characters = A ++ B ++ C ∧
      A.length = (clamp 0 caretPosition s.length).toNat ∧
      A.length + B.length = (clamp 0 caretPosition s.length).toNat :=
    cut s.characters (le_refl _) (by omega)
  have hB : B = [] := by
    rw [← List.length_eq_zero_iff]
    omega
  unfold selectRange
  rw [wp_bind, wp_getLength, wp_bind, wp_getLength]
  apply (updateContent_spec h.measured.measured hchars hstart.symm hstop.symm (Or.inl hB) ?_).mono
  · rintro - s' ⟨hedited, -⟩
    refine ⟨hedited.sound, ?_, hedited.createNewUndoRecord, hedited.textIsNull⟩
    rw [hedited.characters, ContentKind.filterInput_nil, hchars, hB]
  · exact fun _ _ hfalse => hfalse
  · exact Or.inr ⟨UndoRedoChange.merges_of_eq _ _ _, Or.inr ⟨rfl, rfl⟩⟩

/-! ## `setText` -/

/-- All of the text is replaced, whatever the state was. -/
theorem replaceContent_all (s : TextInputControl) (value : Text) :
    Wp (replaceContent kind 0 s.characters.length value 0 0) s
      (fun _ s' => s'.characters = kind.filterInput value ∧ Kept s s') (fun _ _ => False) := by
  have hchars : s.measured.characters = [] ++ s.characters ++ [] := by
    rw [List.append_nil, List.nil_append, characters_measured]
  have hafter := characters_exchanged hchars value (kind.filterInput value)
  have hkept := (kept_measured s).trans
    (kept_exchanged [] s.characters [] value (kind.filterInput value))
  rw [List.nil_append, List.append_nil] at hafter
  have hzero : 0 = ([] : Text).length := rfl
  have hall : s.characters.length = ([] : Text).length + s.characters.length :=
    (Nat.zero_add _).symm
  unfold replaceContent
  rw [wp_bind, wp_getLength]
  by_cases hempty : s.characters = []
  · have hnothing : s.measured.characters = [] ++ [] := hempty
    rw [if_neg (by rw [hempty, List.length_nil]; simp), wp_bind, wp_insertContent hnothing hzero,
      wp_bind, wp_getLength, wp_bind, wp_doSelectRange, wp_pure]
    unfold exchanged at hafter hkept
    rw [if_pos hempty] at hafter hkept
    exact ⟨hafter, (hkept.trans (kept_measured _)).trans (kept_select _ _ _)⟩
  · rw [if_pos (by rwa [Ne, List.length_eq_zero_iff]), wp_bind,
      wp_deleteContent hchars hzero hall, wp_bind,
      wp_insertContent (characters_deleted hchars _) hzero, wp_bind, wp_getLength, wp_bind,
      wp_doSelectRange, wp_pure]
    exact ⟨hafter, (hkept.trans (kept_measured _)).trans (kept_select _ _ _)⟩

/-- A control that forgets its history is in order. -/
theorem sound_resetUndoRedoState (hsteady : Steady s) (hlegal : kind.Legal s.characters)
    (hfresh : undoChangeHead < s.fresh) : Sound kind s.characters s.resetUndoRedoState := by
  unfold resetUndoRedoState
  refine sound_updateUndoRedoState ⟨hsteady.null, hsteady.length⟩ hlegal ⟨hfresh, Past.head, ?_⟩
  exact Future.last (congrArg UndoRedoChange.next (current_setCurrent _ _))

theorem setText_spec (hfresh : undoChangeHead < s.fresh) (value : Option Text) :
    Wp (setText kind value) s
      (fun _ s' => Sound kind (kind.filterInput (value.getD [])) s'
        ∧ s'.characters = kind.filterInput (value.getD [])
        ∧ s'.createNewUndoRecord = s.createNewUndoRecord
        ∧ (value.isSome = true → s'.textIsNull = false)) (fun _ _ => False) := by
  unfold setText
  rw [wp_bind, wp_modify, wp_bind, wp_get, wp_bind]
  apply (replaceContent_all _ _).mono
  · rintro - s₁ ⟨hchars, hkept⟩
    rw [wp_bind, wp_modify, wp_modify]
    have hnull : value.isSome = true → s₁.textIsNull = false := by
      intro hsome
      apply hkept.textIsNull
      cases value with
      | none => cases hsome
      | some t => rfl
    have hlegal : kind.Legal s₁.characters := hchars ▸ ContentKind.legal_filterInput _
    have hempty : s₁.textIsNull = true → s₁.characters = [] := by
      intro hn
      cases value with
      | none => rw [hchars, Option.getD_none, ContentKind.filterInput_nil]
      | some t =>
        rw [hnull rfl] at hn
        cases hn
    have hfresh₁ : undoChangeHead < s₁.fresh := lt_of_lt_of_eq hfresh hkept.fresh.symm
    have hreset := sound_resetUndoRedoState (s := { s₁ with cachedLength := none })
      ⟨hempty, fun n hn => by cases hn⟩ hlegal hfresh₁
    rw [← hchars]
    exact ⟨hreset, rfl, hkept.createNewUndoRecord, hnull⟩
  · exact fun _ _ hfalse => hfalse

/-! ## Runs -/

/-- An edit is one of these. -/
def Call.isEdit : Call → Bool
  | .replaceText _ _ _ => true
  | .insertText _ _ => true
  | .deleteText _ _ => true
  | .paste _ => true
  | .undo => false
  | .redo => false
  | .selectRange _ _ => false

/-- The history can record the call. -/
def Recorded (kind : ContentKind) (s : TextInputControl) : Call → Prop
  | .replaceText start stop text => EditRecorded kind s start stop text
  | .insertText index text => EditRecorded kind s index index text
  | .deleteText start stop => EditRecorded kind s start stop []
  | .paste text => EditRecorded kind { s with createNewUndoRecord := true } s.selectionStart
      (s.selectionStart + s.selectionLength) text
  | .undo => True
  | .redo => True
  | .selectRange _ _ => True

instance (kind : ContentKind) (s : TextInputControl) (call : Call) :
    Decidable (Recorded kind s call) := by
  cases call <;> unfold Recorded <;> infer_instance

/-- What every call keeps: `installed` is the control after `setText`. -/
structure InOrder (kind : ContentKind) (installed s : TextInputControl) : Prop where
  sound : Sound kind installed.characters s
  createNewUndoRecord : s.createNewUndoRecord = false
  textIsNull : installed.textIsNull = false → s.textIsNull = false

theorem perform_spec {installed : TextInputControl} (h : InOrder kind installed s) {call : Call}
    (hrecorded : Recorded kind s call) :
    Wp (perform kind call) s
      (fun _ s' => InOrder kind installed s' ∧ (call.isEdit = true → s'.redoable = false))
      (fun _ _ => False) := by
  have hedit : ∀ {start stop text}, EditRecorded kind s start stop text →
      Wp (replaceText kind start stop text) s
        (fun _ s' => InOrder kind installed s' ∧ s'.redoable = false) (fun _ _ => False) := by
    intro start stop text hrecorded
    apply (replaceText_spec h.sound hrecorded).mono
    · rintro - s' ⟨⟨t, hedited⟩, hredoable⟩
      exact ⟨⟨hedited.sound, hedited.createNewUndoRecord.trans h.createNewUndoRecord,
        fun hnull => hedited.textIsNull (h.textIsNull hnull)⟩, hredoable⟩
    · exact fun _ _ hfalse => hfalse
  have hcall : ∀ {x : Method TextInputControl Unit} {b : Bool},
      Wp x s (fun _ s' => InOrder kind installed s' ∧ s'.redoable = false) (fun _ _ => False) →
      Wp x s (fun _ s' => InOrder kind installed s' ∧ (b = true → s'.redoable = false))
        (fun _ _ => False) :=
    fun hx => hx.mono (fun _ _ hs' => ⟨hs'.1, fun _ => hs'.2⟩) (fun _ _ hfalse => hfalse)
  have hidle : InOrder kind installed s.updateUndoRedoState :=
    ⟨sound_updateUndoRedoState h.sound.steady h.sound.legal h.sound.history, h.createNewUndoRecord,
      h.textIsNull⟩
  cases call with
  | replaceText start stop text => exact hcall (hedit hrecorded)
  | insertText index text => exact hcall (hedit hrecorded)
  | deleteText start stop => exact hcall (hedit hrecorded)
  | paste text =>
    apply (paste_spec h.sound hrecorded).mono
    · rintro - s' ⟨hsound, hcreate, hnull, hredoable⟩
      exact ⟨⟨hsound, hcreate, fun hs => hnull (h.textIsNull hs)⟩, fun _ => hredoable⟩
    · exact fun _ _ hfalse => hfalse
  | undo =>
    change Wp (undo kind) s _ _
    cases hcan : s.undoable with
    | true =>
      apply (undo_spec h.sound hcan).mono
      · rintro - s' ⟨-, -, -, hmoved⟩
        exact ⟨⟨hmoved.sound, hmoved.createNewUndoRecord.trans h.createNewUndoRecord,
          fun hs => hmoved.textIsNull (h.textIsNull hs)⟩, fun hedit => by cases hedit⟩
      · exact fun _ _ hfalse => hfalse
    | false =>
      rw [wp_undo_idle hcan]
      exact ⟨hidle, fun hedit => by cases hedit⟩
  | redo =>
    change Wp (redo kind) s _ _
    cases hcan : s.redoable with
    | true =>
      apply (redo_spec h.sound hcan).mono
      · rintro - s' ⟨-, -, -, hmoved⟩
        exact ⟨⟨hmoved.sound, hmoved.createNewUndoRecord.trans h.createNewUndoRecord,
          fun hs => hmoved.textIsNull (h.textIsNull hs)⟩, fun hedit => by cases hedit⟩
      · exact fun _ _ hfalse => hfalse
    | false =>
      rw [wp_redo_idle hcan]
      exact ⟨hidle, fun hedit => by cases hedit⟩
  | selectRange anchor caretPosition =>
    apply (selectRange_spec h.sound anchor caretPosition).mono
    · intro _ s' hedited
      exact ⟨⟨hedited.sound, hedited.createNewUndoRecord.trans h.createNewUndoRecord,
        fun hs => hedited.textIsNull (h.textIsNull hs)⟩, fun hedit => by cases hedit⟩
    · exact fun _ _ hfalse => hfalse

theorem step_spec {installed : TextInputControl} (h : InOrder kind installed s) {call : Call}
    (hrecorded : Recorded kind s call) : ∃ s', step kind s call = .ok s'
      ∧ InOrder kind installed s' ∧ (call.isEdit = true → s'.redoable = false) := by
  obtain ⟨_, s', hs', hinOrder, hredoable⟩ := (perform_spec h hrecorded).returns
  refine ⟨s', ?_, hinOrder, hredoable⟩
  unfold step
  rw [hs']

/-- **Undo and redo.** `setText` puts its text, without the characters the content
refuses, into any control. From then on, as long as each edit is one that the history
can record, no call throws; in every state that is reached, undoing until the control
is not undoable restores the text that was set, undos are taken back by redos and
redos by undos; and after an edit there is nothing to redo. -/
theorem textInput_run_restores (hs : Reachable kind s) (value : Option Text) :
    ∃ installed, (setText kind value).run s = .ok () installed
      ∧ installed.characters = kind.filterInput (value.getD [])
      ∧ (value.isSome = true → installed.textIsNull = false)
      ∧ ∀ calls, Along (step kind) (Recorded kind) installed calls →
          ∃ s', run (step kind) installed calls = .ok s' ∧ Restores kind installed s'
            ∧ ∀ call ∈ calls.getLast?, call.isEdit = true → s'.redoable = false := by
  obtain ⟨hwellFormed, hcreate⟩ := hs.wellFormed
  obtain ⟨_, installed, hset, hsound, hchars, hcreate', hnull⟩ :=
    (setText_spec hwellFormed.fresh value).returns
  have hinitial : InOrder kind installed installed :=
    ⟨hchars ▸ hsound, hcreate'.trans hcreate, id⟩
  have hstep : ∀ s call, InOrder kind installed s → Recorded kind s call →
      ∃ s', step kind s call = .ok s' ∧ InOrder kind installed s' := by
    intro s call hinOrder hrecorded
    obtain ⟨s', hs', hinOrder', -⟩ := step_spec hinOrder hrecorded
    exact ⟨s', hs', hinOrder'⟩
  refine ⟨installed, hset, hchars, hnull, fun calls hcalls => ?_⟩
  obtain ⟨s', hs', hinOrder⟩ := run_invariant (InOrder kind installed) hstep hinitial hcalls
  refine ⟨s', hs', hinOrder.sound.restores rfl hinOrder.textIsNull, ?_⟩
  intro call hlast hedit
  obtain ⟨earlier, rfl⟩ := List.getLast?_eq_some_iff.mp hlast
  obtain ⟨s₁, hs₁, hinOrder₁⟩ :=
    run_invariant (InOrder kind installed) hstep hinitial hcalls.prefix
  obtain ⟨s₂, hs₂, -, hredoable⟩ := step_spec hinOrder₁ (hcalls.at_end earlier hs₁)
  rw [run_append_ok hs₁, run_singleton, hs₂] at hs'
  obtain rfl : s₂ = s' := Except.ok.inj hs'
  exact hredoable hedit

/-- Typing, an undo that is redone, a paste behind it and a backspace. -/
theorem textInput_run_restores_typing : ∃ installed s',
    (setText .textField (some [97, 98])).run new = .ok () installed
      ∧ run (step .textField) installed [.insertText 2 [99], .insertText 3 [100], .undo, .redo,
          .paste [101, 102], .deleteText 5 6] = .ok s'
      ∧ Restores .textField installed s' := by
  obtain ⟨installed, hset, -, -, hrun⟩ :=
    @textInput_run_restores .textField _ Reachable.new (some [97, 98])
  have hinstalled : after (setText .textField (some [97, 98])) new = installed := by
    unfold after
    rw [hset]
  subst hinstalled
  obtain ⟨s', hs', hrestores, -⟩ := hrun [.insertText 2 [99], .insertText 3 [100], .undo, .redo,
    .paste [101, 102], .deleteText 5 6] (by decide)
  exact ⟨_, s', hset, hs', hrestores⟩

/-- The ranges of a call are ranges of the text. -/
def Call.Valid (s : TextInputControl) : Call → Prop
  | .replaceText start stop _ => s.ValidRange start stop
  | .insertText index _ => s.ValidRange index index
  | .deleteText start stop => s.ValidRange start stop
  | .paste _ => s.ValidRange s.selectionStart (s.selectionStart + s.selectionLength)
  | .undo => True
  | .redo => True
  | .selectRange _ _ => True

instance (s : TextInputControl) (call : Call) : Decidable (call.Valid s) := by
  cases call <;> unfold Call.Valid <;> infer_instance

/-- A deletion that ends where the typed text ends and begins in front of it throws. -/
theorem textInput_deletion_throws : ∃ installed,
    (setText .textField (some [97, 98, 99])).run new = .ok () installed
      ∧ Along (step .textField) (fun s call => call.Valid s) installed
          [.insertText 1 [120], .deleteText 0 2]
      ∧ run (step .textField) installed [.insertText 1 [120], .deleteText 0 2]
          = .error .indexOutOfBounds :=
  ⟨after (setText .textField (some [97, 98, 99])) new, rfl, by decide, rfl⟩

end JavaFx.Control.TextInputControl
