/-
What a selection does to the undo history.

`selectRange` goes through `updateContent` as an edit of nothing at the caret. The
sequences of the texts that undos and redos would show are functions of the state;
this file says for which states a selection leaves them alone. It is about every
state a control can get into, also those in which a record does not fit the text,
so undos may throw, and then the sequence ends with the exception.
-/
import JavaFx.Control.TextInputControlRun

set_option autoImplicit false

namespace JavaFx.Control.TextInputControl

open JavaFx.Lib

variable {kind : ContentKind} {s s' t : TextInputControl} {E : Exn → TextInputControl → Prop}

/-! ## The texts of successive undos and redos -/

/-- The texts that at most `n` undos show, one after the other. -/
def undoTextsFrom (kind : ContentKind) : ℕ → TextInputControl → List (Except Exn (Option Text))
  | 0, _ => []
  | n + 1, s =>
    if s.undoable then
      match (undo kind).run s with
      | .ok _ s' => .ok s'.text :: undoTextsFrom kind n s'
      | .error e _ => [.error e]
    else []

/-- The texts that at most `n` redos show, one after the other. -/
def redoTextsFrom (kind : ContentKind) : ℕ → TextInputControl → List (Except Exn (Option Text))
  | 0, _ => []
  | n + 1, s =>
    if s.redoable then
      match (redo kind).run s with
      | .ok _ s' => .ok s'.text :: redoTextsFrom kind n s'
      | .error e _ => [.error e]
    else []

/-- All of them: an undo leads to an older record. -/
def undoTexts (kind : ContentKind) (s : TextInputControl) : List (Except Exn (Option Text)) :=
  undoTextsFrom kind s.undoChange s

/-- All of them: a redo leads to a newer record. -/
def redoTexts (kind : ContentKind) (s : TextInputControl) : List (Except Exn (Option Text)) :=
  redoTextsFrom kind (s.fresh - s.undoChange) s

/-! ## One undo, one redo -/

/-- What is shown after the content was told of a new text. -/
def shown (characters : Text) (textIsNull : Bool) (o : Option Text) (notifyListeners : Bool) :
    Text × Bool :=
  match o with
  | none => (characters, textIsNull)
  | some t => (t, if notifyListeners ∧ t.length > 0 then false else textIsNull)

/-- What is shown when a piece of the text was exchanged. -/
def exchangeContent (kind : ContentKind) (characters : Text) (textIsNull : Bool) (start stop : ℕ)
    (value : Text) : Except Exn (Text × Bool) := do
  let deleted ← kind.delete characters start stop
  let between := shown characters textIsNull deleted value.isEmpty
  let inserted ← kind.insert between.1 start value
  return shown between.1 between.2 inserted true

/-- The state when the content has told of what it did. -/
def tell (s : TextInputControl) (o : Option Text) (notifyListeners : Bool) : TextInputControl :=
  match o with
  | none => s
  | some t => s.told t notifyListeners

theorem shown_tell (s : TextInputControl) (o : Option Text) (notifyListeners : Bool) :
    shown s.characters s.textIsNull o notifyListeners
      = ((s.tell o notifyListeners).characters, (s.tell o notifyListeners).textIsNull) := by
  cases o with
  | none => rfl
  | some u => cases notifyListeners <;> simp [tell, told, shown]

theorem kept_tell (s : TextInputControl) (o : Option Text) (notifyListeners : Bool) :
    Kept s (s.tell o notifyListeners) := by
  cases o with
  | none => exact Kept.refl s
  | some u => exact kept_told u notifyListeners

theorem exchange_outcome {start stop : ℕ} {value : Text} (anchor caretPosition : ℤ)
    {rest : Method TextInputControl Unit} {Q : Unit → TextInputControl → Prop}
    (hok : ∀ p, exchangeContent kind s.characters s.textIsNull start stop value = .ok p →
      ∀ s', s'.characters = p.1 → s'.textIsNull = p.2 → Kept s s' → Wp rest s' Q E)
    (herror : ∀ e, exchangeContent kind s.characters s.textIsNull start stop value = .error e →
      ∀ s', E e s') :
    Wp (do
      deleteContent kind start stop value.isEmpty
      insertContent kind start value true
      doSelectRange anchor caretPosition
      rest) s Q E := by
  unfold exchangeContent at hok herror
  rw [wp_bind]
  unfold deleteContent
  rw [wp_bind, wp_get, wp_bind, wp_liftExcept]
  refine ⟨fun o ho => ?_, fun e he => herror e (by rw [he]; rfl) s⟩
  rw [ho] at hok herror
  simp only [ok_bind, shown_tell] at hok herror
  rw [wp_contentHasChanged, wp_bind]
  change Wp (insertContent kind start value true) (s.tell o value.isEmpty) _ E
  unfold insertContent
  rw [wp_bind, wp_get, wp_bind, wp_liftExcept]
  refine ⟨fun o' ho' => ?_, fun e he => herror e (by rw [he]; rfl) _⟩
  rw [ho'] at hok
  simp only [ok_bind, pure_eq_ok, Except.ok.injEq, forall_eq'] at hok
  rw [wp_contentHasChanged, wp_bind, wp_doSelectRange]
  change Wp rest { ((s.tell o value.isEmpty).tell o' true).measured with
    caretPosition := _, anchor := _ } Q E
  exact hok _ rfl rfl (((kept_tell s o _).trans (kept_tell _ o' true)).trans (kept_select _ _ _))

theorem undo_outcome (kind : ContentKind) (hundoable : s.undoable = true) :
    match exchangeContent kind s.characters s.textIsNull s.current.start
        (s.current.start + s.current.newText.length) s.current.oldText with
    | .ok p => ∃ s', (undo kind).run s = .ok () s' ∧ s'.characters = p.1 ∧ s'.textIsNull = p.2
        ∧ s'.changes = s.changes ∧ s'.undoChange = s.current.prev
        ∧ s'.undoable = decide (s.current.prev ≠ undoChangeHead)
    | .error e => ∃ s', (undo kind).run s = .error e s' := by
  have hwp : Wp (undo kind) s (fun _ s' => ∃ p, exchangeContent kind s.characters s.textIsNull
        s.current.start (s.current.start + s.current.newText.length) s.current.oldText = .ok p
        ∧ s'.characters = p.1 ∧ s'.textIsNull = p.2 ∧ s'.changes = s.changes
        ∧ s'.undoChange = s.current.prev
        ∧ s'.undoable = decide (s.current.prev ≠ undoChangeHead))
      (fun e _ => exchangeContent kind s.characters s.textIsNull
        s.current.start (s.current.start + s.current.newText.length) s.current.oldText = .error e) := by
    unfold undo
    rw [wp_bind, wp_get, if_pos hundoable]
    apply exchange_outcome
    · intro p hp s₁ hchars hnull hkept
      have hprev : s₁.current.prev = s.current.prev := by
        unfold current
        rw [hkept.changes, hkept.undoChange]
      rw [wp_bind, wp_modify, wp_modify]
      refine ⟨p, hp, hchars, hnull, hkept.changes, hprev, ?_⟩
      rw [← hprev]
      rfl
    · exact fun e he _ => he
  rw [Wp] at hwp
  cases hrun : (undo kind).run s with
  | ok a s' =>
    rw [hrun] at hwp
    obtain ⟨p, hp, hrest⟩ := hwp
    rw [hp]
    exact ⟨s', rfl, hrest⟩
  | error e s' =>
    rw [hrun] at hwp
    rw [hwp]
    exact ⟨s', rfl⟩

theorem redo_outcome (kind : ContentKind) (hredoable : s.redoable = true) {j : ℕ}
    (hnext : s.current.next = some j) :
    match exchangeContent kind s.characters s.textIsNull (s.changes j).start
        ((s.changes j).start + (s.changes j).oldText.length) (s.changes j).newText with
    | .ok p => ∃ s', (redo kind).run s = .ok () s' ∧ s'.characters = p.1 ∧ s'.textIsNull = p.2
        ∧ s'.changes = s.changes ∧ s'.undoChange = j ∧ s'.redoable = (s.changes j).next.isSome
    | .error e => ∃ s', (redo kind).run s = .error e s' := by
  have hwp : Wp (redo kind) s (fun _ s' => ∃ p, exchangeContent kind s.characters s.textIsNull
        (s.changes j).start ((s.changes j).start + (s.changes j).oldText.length)
        (s.changes j).newText = .ok p
        ∧ s'.characters = p.1 ∧ s'.textIsNull = p.2 ∧ s'.changes = s.changes
        ∧ s'.undoChange = j ∧ s'.redoable = (s.changes j).next.isSome)
      (fun e _ => exchangeContent kind s.characters s.textIsNull
        (s.changes j).start ((s.changes j).start + (s.changes j).oldText.length)
        (s.changes j).newText = .error e) := by
    unfold redo
    rw [wp_bind, wp_get, if_pos hredoable, hnext]
    rw [wp_bind, wp_set]
    apply exchange_outcome (s := { s with undoChange := j })
    · intro p hp s₁ hchars hnull hkept
      have hj : s₁.undoChange = j := hkept.undoChange
      have hchanges : s₁.changes = s.changes := hkept.changes
      rw [wp_modify]
      refine ⟨p, hp, hchars, hnull, hchanges, hj, ?_⟩
      change (s₁.changes s₁.undoChange).next.isSome = _
      rw [hj, hchanges]
    · exact fun e he _ => he
  rw [Wp] at hwp
  cases hrun : (redo kind).run s with
  | ok a s' =>
    rw [hrun] at hwp
    obtain ⟨p, hp, hrest⟩ := hwp
    rw [hp]
    exact ⟨s', rfl, hrest⟩
  | error e s' =>
    rw [hrun] at hwp
    rw [hwp]
    exact ⟨s', rfl⟩

/-- A flag that is out of date, after an exception. -/
theorem redo_nowhere (hredoable : s.redoable = true) (hnext : s.current.next = none) :
    (redo kind).run s = .error .nullPointer s := by
  have hwp : Wp (redo kind) s (fun _ _ => False) (fun e s' => e = .nullPointer ∧ s' = s) := by
    unfold redo
    rw [wp_bind, wp_get, if_pos hredoable, hnext]
    exact ⟨rfl, rfl⟩
  rw [Wp] at hwp
  cases hrun : (redo kind).run s with
  | ok a s' =>
    rw [hrun] at hwp
    exact hwp.elim
  | error e s' =>
    rw [hrun] at hwp
    rw [hwp.1, hwp.2]

/-! ## States with the same texts -/

/-- What the undos depend on. -/
structure UndoAlike (s t : TextInputControl) : Prop where
  characters : t.characters = s.characters
  textIsNull : t.textIsNull = s.textIsNull
  undoChange : t.undoChange = s.undoChange
  undoable : t.undoable = s.undoable
  older : ∀ i, (s.changes i).prev ≤ i
  records : ∀ i ≤ s.undoChange, (t.changes i).start = (s.changes i).start
    ∧ (t.changes i).oldText = (s.changes i).oldText ∧ (t.changes i).newText = (s.changes i).newText
    ∧ (t.changes i).prev = (s.changes i).prev

theorem undoTextsFrom_congr (n : ℕ) : ∀ {s t : TextInputControl}, UndoAlike s t →
    undoTextsFrom kind n t = undoTextsFrom kind n s := by
  induction n with
  | zero =>
    intro s t _
    rfl
  | succ n ih =>
    intro s t h
    rw [undoTextsFrom, undoTextsFrom, h.undoable]
    split
    · rename_i hcan
      obtain ⟨hstart, hold, hnew, hprev⟩ := h.records s.undoChange (le_refl _)
      rw [← h.undoChange] at hstart hold hnew hprev
      have hs := undo_outcome kind hcan
      have ht := undo_outcome kind (h.undoable.trans hcan)
      unfold current at hs ht
      rw [hstart, hold, hnew, hprev, h.characters, h.textIsNull, h.undoChange] at ht
      split at hs
      · rename_i p hp
        rw [hp] at ht
        obtain ⟨s', hs', hchars, hnull, hchanges, hplace, hundoable⟩ := hs
        obtain ⟨t', ht', hchars', hnull', hchanges', hplace', hundoable'⟩ := ht
        have halike : UndoAlike s' t' := by
          refine ⟨hchars'.trans hchars.symm, hnull'.trans hnull.symm, hplace'.trans hplace.symm,
            hundoable'.trans hundoable.symm, hchanges ▸ h.older, fun i hi => ?_⟩
          rw [hchanges, hchanges']
          exact h.records i (hi.trans (hplace ▸ h.older _))
        have htext : t'.text = s'.text := by
          unfold text
          rw [halike.textIsNull, halike.characters]
        rw [hs', ht']
        dsimp only
        rw [ih halike, htext]
      · rename_i e he
        rw [he] at ht
        obtain ⟨s', hs'⟩ := hs
        obtain ⟨t', ht'⟩ := ht
        rw [hs', ht']
    · rfl

/-- What the redos depend on. -/
structure RedoAlike (s t : TextInputControl) : Prop where
  characters : t.characters = s.characters
  textIsNull : t.textIsNull = s.textIsNull
  undoChange : t.undoChange = s.undoChange
  redoable : t.redoable = s.redoable
  changes : t.changes = s.changes

theorem redoTextsFrom_congr (n : ℕ) : ∀ {s t : TextInputControl}, RedoAlike s t →
    redoTextsFrom kind n t = redoTextsFrom kind n s := by
  induction n with
  | zero =>
    intro s t _
    rfl
  | succ n ih =>
    intro s t h
    rw [redoTextsFrom, redoTextsFrom, h.redoable]
    split
    · rename_i hcan
      have hcurrent : t.current = s.current := by
        unfold current
        rw [h.changes, h.undoChange]
      cases hnext : s.current.next with
      | none =>
        rw [redo_nowhere hcan hnext, redo_nowhere (h.redoable.trans hcan) (hcurrent ▸ hnext)]
      | some j =>
        have hs := redo_outcome kind hcan hnext
        have ht := redo_outcome kind (h.redoable.trans hcan) (hcurrent ▸ hnext)
        rw [h.changes, h.characters, h.textIsNull] at ht
        split at hs
        · rename_i p hp
          rw [hp] at ht
          obtain ⟨s', hs', hchars, hnull, hchanges, hplace, hredoable⟩ := hs
          obtain ⟨t', ht', hchars', hnull', hchanges', hplace', hredoable'⟩ := ht
          have halike : RedoAlike s' t' :=
            ⟨hchars'.trans hchars.symm, hnull'.trans hnull.symm, hplace'.trans hplace.symm,
              hredoable'.trans hredoable.symm, hchanges'.trans hchanges.symm⟩
          have htext : t'.text = s'.text := by
            unfold text
            rw [halike.textIsNull, halike.characters]
          rw [hs', ht']
          dsimp only
          rw [ih halike, htext]
        · rename_i e he
          rw [he] at ht
          obtain ⟨s', hs'⟩ := hs
          obtain ⟨t', ht'⟩ := ht
          rw [hs', ht']
    · rfl

/-- Once there are enough undos for the way back, more of them show nothing new. -/
theorem undoTextsFrom_enough (n : ℕ) : ∀ {m : ℕ} {s : TextInputControl}, WellFormed s →
    s.undoChange ≤ n → s.undoChange ≤ m → undoTextsFrom kind n s = undoTextsFrom kind m s := by
  have hover : ∀ {m : ℕ} {s : TextInputControl}, WellFormed s → s.undoChange ≤ 0 →
      undoTextsFrom kind m s = [] := by
    intro m s h hzero
    have hcan : ¬ s.undoable = true := fun hcan => h.undoable hcan (Nat.le_zero.mp hzero)
    cases m with
    | zero => rfl
    | succ m => rw [undoTextsFrom, if_neg hcan]
  induction n with
  | zero =>
    intro m s h hn _
    rw [hover h hn, hover h hn]
  | succ n ih =>
    intro m s h hn hm
    cases m with
    | zero => rw [hover h hm, hover h hm]
    | succ m =>
      rw [undoTextsFrom, undoTextsFrom]
      split
      · rename_i hcan
        cases hrun : (undo kind).run s with
        | error e s' => rfl
        | ok a s' =>
          have hkept : WellFormed s' := by
            have hkeeps := (keeps_undo : Keeps (undo kind)) s h
            rw [Wp, hrun] at hkeeps
            exact hkeeps.1
          have hplace : s'.undoChange ≤ s.undoChange - 1 := by
            have houtcome := undo_outcome kind hcan
            split at houtcome
            · obtain ⟨t, ht, -, -, -, hplace, -⟩ := houtcome
              rw [hrun] at ht
              injection ht with _ hst
              rw [hst, hplace]
              exact h.prev _
            · obtain ⟨t, ht⟩ := houtcome
              rw [hrun] at ht
              cases ht
          dsimp only
          rw [@ih m s' hkept (by omega) (by omega)]
      · rfl

/-! ## `selectRange` -/

/-- The call leaves the history, as far as undo and redo show it. -/
structure Untouched (kind : ContentKind) (s s' : TextInputControl) : Prop where
  text : s'.text = s.text
  undoTexts : undoTexts kind s' = undoTexts kind s
  redoTexts : redoTexts kind s' = redoTexts kind s
  undoable : s'.undoable = s.undoable
  redoable : s'.redoable = s.redoable

/-- The flags are those of the current record. They are not after an undo or a redo
that threw half way. -/
def FlagsUpToDate (s : TextInputControl) : Prop :=
  s.undoable = decide (s.undoChange ≠ undoChangeHead) ∧ s.redoable = s.current.next.isSome

/-- When nothing is selected and the caret goes to the end of the last record, the
edit of nothing goes into that record. When the length the control knows is not up to
date and the caret goes behind the text, the call throws before it does anything. -/
def SelectsQuietly (s : TextInputControl) (caretPosition : ℤ) : Prop :=
  s.characters.length < clamp 0 caretPosition s.length
    ∨ s.selectionLength = 0 ∧ s.undoChange ≠ undoChangeHead
      ∧ s.endOfUndoChange = clamp 0 caretPosition s.length ∧ FlagsUpToDate s

/-- The two states differ in the selection and in what is known of the length. -/
structure SameHistory (s s' : TextInputControl) : Prop extends Kept s s' where
  characters : s'.characters = s.characters
  sameNull : s'.textIsNull = s.textIsNull

theorem replaceContent_nothing {place : ℕ} (hplace : place ≤ s.characters.length)
    (anchor caretPosition : ℤ) {Q : ℤ → TextInputControl → Prop} :
    Wp (replaceContent kind place place [] anchor caretPosition) s Q E
      ↔ Q 0 { s.measured with
          caretPosition := clamp 0 caretPosition s.length, anchor := clamp 0 anchor s.length } := by
  obtain ⟨A, B, C, hchars, hstart, hstop⟩ := cut s.characters (le_refl place) hplace
  have hB : B = [] := by
    rw [← List.length_eq_zero_iff]
    omega
  have hmeasured : s.measured.characters = A ++ C := by
    rw [characters_measured, hchars, hB, List.append_nil]
  unfold replaceContent
  rw [wp_bind, wp_getLength, if_neg (not_not.mpr rfl), wp_bind,
    wp_insertContent hmeasured hstart.symm, if_pos ContentKind.filterInput_nil, wp_bind, wp_getLength,
    wp_bind, wp_doSelectRange, wp_pure]
  have hsum : ((([] : Text).length : ℤ) - ((s.measured.length : ℤ)
      - (if place ≠ place then (s.length : ℤ) - (place - place) else s.length))) = 0 := by
    rw [if_neg (not_not.mpr rfl), length_measured, List.length_nil]
    simp
  rw [hsum, sub_zero, sub_zero]
  rfl

/-- The end of `updateContent` for an edit of nothing. -/
theorem record_nothing {s₂ : TextInputControl} (h : SameHistory s s₂) {place : ℕ} {change : Change}
    (hrange : change.start = change.stop) {e : ℤ} (he : e = s.endOfUndoChange) :
    Wp (if s₂.createNewUndoRecord = true ∨ s.selectionLength > 0 ∨ e = -1 ∨ false = true
          ∨ (e ≠ place ∧ e ≠ place) ∨ (place : ℤ) - place > 1 then do
        set (s₂.add place [] [])
        modify updateUndoRedoState
      else do
        extendUndoChange change e [] []
        modify updateUndoRedoState) s₂
      (fun _ s' => (s.NeedsRecord place place false ∧ s' = (s₂.add place [] []).updateUndoRedoState)
        ∨ (¬ s.NeedsRecord place place false ∧ s' = s₂.updateUndoRedoState)) E := by
  have hneeds : (s₂.createNewUndoRecord = true ∨ s.selectionLength > 0 ∨ e = -1 ∨ false = true
      ∨ (e ≠ place ∧ e ≠ place) ∨ (place : ℤ) - place > 1) ↔ s.NeedsRecord place place false := by
    have hnot : ¬ (place : ℤ) - place > 1 := by omega
    unfold NeedsRecord
    rw [he, h.createNewUndoRecord]
    simp only [hnot, or_false]
  split
  · rename_i hcond
    exact Or.inl ⟨hneeds.mp hcond, rfl⟩
  · rename_i hcond
    have hsame : s₂.setCurrent { s₂.current with newText := s₂.current.newText ++ [] } = s₂ := by
      unfold setCurrent current
      rw [List.append_nil, Function.update_eq_self]
    unfold extendUndoChange
    rw [wp_bind, wp_bind, wp_get, if_neg (fun h => h.1 hrange), wp_set, wp_modify, hsame]
    exact Or.inr ⟨mt hneeds.mpr hcond, rfl⟩

theorem selectRange_outcome (anchor caretPosition : ℤ) {place : ℕ}
    (hplace : clamp 0 caretPosition s.length = place) :
    Wp (selectRange kind anchor caretPosition) s
      (fun _ s' => place ≤ s.characters.length ∧ ∃ s₂, SameHistory s s₂
        ∧ ((s.NeedsRecord place place false ∧ s' = (s₂.add place [] []).updateUndoRedoState)
          ∨ (¬ s.NeedsRecord place place false ∧ s' = s₂.updateUndoRedoState)))
      (fun _ s' => s.characters.length < place ∧ SameHistory s s') := by
  have hle : (place : ℤ) ≤ s.length :=
    hplace ▸ (clamp_mem caretPosition (show (0 : ℤ) ≤ s.length by omega)).2
  have htoNat : (clamp 0 caretPosition s.length).toNat = place := by omega
  have hmeasured : SameHistory s s.measured := ⟨kept_measured s, rfl, rfl⟩
  have hgetText : ∀ (s₁ : TextInputControl) {E' : Exn → TextInputControl → Prop}
      {Q : Text → TextInputControl → Prop}, s₁.characters = s.characters → s₁.length = s.length →
      (place ≤ s.characters.length → Q [] s₁.measured) →
      (s.characters.length < place → E' .indexOutOfBounds s₁.measured) →
      Wp (getText place place) s₁ Q E' := by
    intro s₁ E' Q hchars hlength hok herror
    unfold getText
    rw [if_neg (lt_irrefl _), if_neg (by omega)]
    simp only [wp_bind, wp_getLength]
    rw [if_neg (by omega), wp_bind, wp_get, wp_liftExcept]
    unfold ContentKind.get
    rw [characters_measured, hchars, Int.toNat_natCast]
    have hnil : slice s.characters place place = [] := by
      rw [← List.length_eq_zero_iff, slice, List.length_drop, List.length_take]
      omega
    constructor
    · intro a ha
      split at ha
      · rename_i hin
        rw [← Except.ok.inj ha, hnil]
        exact hok hin
      · cases ha
    · intro e he
      split at he
      · cases he
      · rename_i hout
        rw [← Except.error.inj he]
        exact herror (by omega)
  unfold selectRange
  rw [wp_bind, wp_getLength, wp_bind, wp_getLength, htoNat]
  unfold updateContent
  rw [wp_bind, wp_get, wp_bind]
  dsimp only
  refine hgetText s.measured.measured rfl rfl (fun hin => ?_) (fun hout => ⟨hout, hmeasured⟩)
  have hin' : place ≤ s.measured.measured.measured.characters.length := hin
  rw [wp_bind, replaceContent_nothing hin', wp_bind, wp_get, wp_bind, List.length_nil, Nat.cast_zero,
    add_zero, sub_zero]
  refine hgetText _ rfl rfl (fun _ => ?_) (fun hout => absurd hin (by omega))
  rw [wp_bind, wp_get]
  refine Wp.mono (record_nothing ?_ rfl rfl) (fun _ s' hs' => ⟨hin, _, ?_, hs'⟩) (fun _ _ h => h)
  · exact ⟨⟨rfl, rfl, rfl, rfl, rfl, rfl, id⟩, rfl, rfl⟩
  · exact ⟨⟨rfl, rfl, rfl, rfl, rfl, rfl, id⟩, rfl, rfl⟩

theorem WellFormed.older (h : WellFormed s) (i : ℕ) : (s.changes i).prev ≤ i :=
  (h.prev i).trans (Nat.sub_le _ _)

/-- States with one history and equal flags show the same. -/
theorem SameHistory.untouched (h : SameHistory s s') (hs : WellFormed s) : Untouched kind s s' := by
  have hundo : UndoAlike s s' := by
    refine ⟨h.characters, h.sameNull, h.undoChange, h.undoable, hs.older, fun i _ => ?_⟩
    rw [h.changes]
    exact ⟨rfl, rfl, rfl, rfl⟩
  have hredo : RedoAlike s s' :=
    ⟨h.characters, h.sameNull, h.undoChange, h.redoable, h.changes⟩
  refine ⟨?_, ?_, ?_, h.undoable, h.redoable⟩
  · unfold TextInputControl.text
    rw [h.sameNull, h.characters]
  · unfold TextInputControl.undoTexts
    rw [h.undoChange, undoTextsFrom_congr _ hundo]
  · unfold TextInputControl.redoTexts
    rw [h.undoChange, h.fresh, redoTextsFrom_congr _ hredo]

theorem exchangeContent_nothing {characters : Text} {textIsNull : Bool} {place : ℕ}
    (hplace : place ≤ characters.length) :
    exchangeContent kind characters textIsNull place place [] = .ok (characters, textIsNull) := by
  obtain ⟨A, B, C, hchars, hstart, hstop⟩ := cut characters (le_refl place) hplace
  have hB : B = [] := by
    rw [← List.length_eq_zero_iff]
    omega
  have hdelete : kind.delete characters place place = .ok none := by
    rw [hchars, ContentKind.delete_mid hstart.symm hstop.symm, if_pos hB]
  have hinsert : kind.insert characters place [] = .ok none := by
    rw [hchars, hB, List.append_nil, ContentKind.insert_mid hstart.symm,
      if_pos ContentKind.filterInput_nil]
  unfold exchangeContent
  rw [hdelete]
  simp only [ok_bind, shown]
  rw [hinsert]
  rfl

/-- A new record leaves what the others say. -/
theorem records_add (start : ℕ) (oldText newText : Text) {i : ℕ} (hi : i < s.fresh) :
    ((s.add start oldText newText).changes i).start = (s.changes i).start
      ∧ ((s.add start oldText newText).changes i).oldText = (s.changes i).oldText
      ∧ ((s.add start oldText newText).changes i).newText = (s.changes i).newText
      ∧ ((s.add start oldText newText).changes i).prev = (s.changes i).prev := by
  have hat : (s.add start oldText newText).changes i
      = if i = s.undoChange then { s.current with next := some s.fresh } else s.changes i := by
    unfold TextInputControl.add
    dsimp only
    rw [Function.update_of_ne (ne_of_lt hi), Function.update_apply]
  rw [hat]
  split
  · rename_i hpresent
    rw [hpresent]
    exact ⟨rfl, rfl, rfl, rfl⟩
  · exact ⟨rfl, rfl, rfl, rfl⟩

/-- The edit of nothing in a record of its own: there is one more undo. -/
theorem not_untouched_add {s₂ : TextInputControl} (h : SameHistory s s₂) (hs : WellFormed s)
    {place : ℕ} (hplace : place ≤ s.characters.length) :
    ¬ Untouched kind s (s₂.add place [] []).updateUndoRedoState := by
  intro huntouched
  have hpresent := hs.present
  obtain ⟨f, hf⟩ : ∃ f, s.fresh = f + 1 := ⟨s.fresh - 1, by omega⟩
  have hcan : (s₂.add place [] []).updateUndoRedoState.undoable = true := by
    apply decide_eq_true (p := s₂.fresh ≠ undoChangeHead)
    rw [h.fresh, hf]
    exact Nat.succ_ne_zero f
  have hundoable : s.undoable = true := huntouched.undoable.symm.trans hcan
  -- an undo of the new record leads to where the history was
  have hcurrent : (s₂.add place [] []).updateUndoRedoState.current
      = ⟨place, [], [], s₂.undoChange, none⟩ := Function.update_self ..
  have hnothing : exchangeContent kind (s₂.add place [] []).updateUndoRedoState.characters
      (s₂.add place [] []).updateUndoRedoState.textIsNull place place []
        = .ok (s₂.characters, s₂.textIsNull) :=
    exchangeContent_nothing (by rw [← h.characters] at hplace; exact hplace)
  have houtcome := undo_outcome kind hcan
  rw [hcurrent] at houtcome
  dsimp only [List.length_nil, Nat.add_zero] at houtcome
  rw [hnothing] at houtcome
  obtain ⟨t, ht, hchars, hnull, hchanges, hback, hundoable'⟩ := houtcome
  have halike : UndoAlike s t := by
    refine ⟨hchars.trans h.characters, hnull.trans h.sameNull, hback.trans h.undoChange, ?_,
      hs.older, fun i hi => ?_⟩
    · rw [hundoable', hundoable, h.undoChange]
      exact decide_eq_true (hs.undoable hundoable)
    · have hrecords := @records_add s₂ place [] [] i (by rw [h.fresh]; omega)
      rw [h.changes] at hrecords
      rw [hchanges]
      exact hrecords
  have htexts := huntouched.undoTexts
  unfold TextInputControl.undoTexts at htexts
  have hplace' : (s₂.add place [] []).updateUndoRedoState.undoChange = f + 1 := h.fresh.trans hf
  rw [hplace', undoTextsFrom, if_pos hcan, ht] at htexts
  dsimp only at htexts
  rw [undoTextsFrom_congr f halike, undoTextsFrom_enough f hs (by omega) (le_refl _)] at htexts
  exact List.cons_ne_self _ _ htexts

end JavaFx.Control.TextInputControl
