/-
The texts of the text input controls (`TextInputControl.Content`).

A text is a list of UTF-16 code units: the code counts and cuts by `char`, and a
pair of surrogates is two of them. The two contents of the library differ in the
characters they let in (`filterInput`) and in the calls they refuse. What is told
to the listeners is part of the result: `none` says that nothing was changed and
nobody is told.

The content of a `TextArea` is a list of paragraphs. That it is the text below is
proved in `TextAreaContent`.
-/
import JavaFx.Lib.Java

set_option autoImplicit false

namespace JavaFx.Control

open JavaFx.Lib

/-- A string, by its `char`s. -/
abbrev Text := List UInt16

/-- `'\n'`. -/
def newline : UInt16 := 0xA

/-! ## `filterInput` -/

def isInvalidCharacter (c : UInt16) (newlineIllegal tabIllegal : Bool) : Bool :=
  if c = 0x7F then true
  else if c = 0xA then newlineIllegal
  else if c = 0x9 then tabIllegal
  else if c < 0x20 then true
  else false

def containsInvalidCharacters (txt : Text) (newlineIllegal tabIllegal : Bool) : Bool :=
  txt.any fun c => isInvalidCharacter c newlineIllegal tabIllegal

def filterInput (txt : Text) (stripNewlines stripTabs : Bool) : Text :=
  if containsInvalidCharacters txt stripNewlines stripTabs then
    txt.filter fun c => !isInvalidCharacter c stripNewlines stripTabs
  else txt

/-- The check in front of the loop saves the copy and nothing else. -/
theorem filterInput_eq (txt : Text) (stripNewlines stripTabs : Bool) :
    filterInput txt stripNewlines stripTabs
      = txt.filter fun c => !isInvalidCharacter c stripNewlines stripTabs := by
  unfold filterInput
  split
  · rfl
  · rename_i h
    symm
    rw [List.filter_eq_self]
    intro c hc
    rw [Bool.not_eq_true, containsInvalidCharacters, List.any_eq_false] at h
    simpa using h c hc

/-! ## Pieces of a text -/

section Pieces

variable {α : Type}

/-- `substring(start, stop)` of a text that has these places. -/
def slice (t : List α) (start stop : ℕ) : List α := (t.take stop).drop start

/-- The text with `text` in the place of what is between `start` and `stop`. -/
def splice (t : List α) (start stop : ℕ) (text : List α) : List α :=
  t.take start ++ text ++ t.drop stop

variable {t A B C text : List α} {start stop : ℕ}

/-- A text, cut at two places. -/
theorem cut (t : List α) (hle : start ≤ stop) (hstop : stop ≤ t.length) :
    ∃ A B C, t = A ++ B ++ C ∧ A.length = start ∧ A.length + B.length = stop := by
  refine ⟨t.take start, slice t start stop, t.drop stop, ?_, ?_, ?_⟩
  · have hsplit : t.take start = (t.take stop).take start := by
      rw [List.take_take, Nat.min_eq_left hle]
    rw [hsplit, slice, List.take_append_drop, List.take_append_drop]
  · rw [List.length_take]
    omega
  · simp only [slice, List.length_drop, List.length_take]
    omega

theorem slice_mid (hstart : start = A.length) (hstop : stop = A.length + B.length) :
    slice (A ++ B ++ C) start stop = B := by
  rw [slice, List.take_left' (by rw [List.length_append, hstop]), hstart, List.drop_left]

theorem splice_mid (hstart : start = A.length) (hstop : stop = A.length + B.length) :
    splice (A ++ B ++ C) start stop text = A ++ text ++ C := by
  have htake : (A ++ B ++ C).take start = A := by
    rw [List.append_assoc, hstart, List.take_left]
  have hdrop : (A ++ B ++ C).drop stop = C :=
    List.drop_left' (by rw [List.length_append, hstop])
  rw [splice, htake, hdrop]

end Pieces

/-! ## The contents -/

/-- Whose content it is. -/
inductive ContentKind
  | textField
  | textArea
  deriving DecidableEq, Repr

namespace ContentKind

/-- What the content makes of an inserted text. -/
def filterInput : ContentKind → Text → Text
  | textField, text => Control.filterInput text true true
  | textArea, text => Control.filterInput text false false

/-- A text the content can hold. -/
def Legal (kind : ContentKind) (t : Text) : Prop := kind.filterInput t = t

/-- `insert(index, text)`. -/
def insert (kind : ContentKind) (t : Text) (index : ℕ) (text : Text) : Except Exn (Option Text) :=
  match kind with
  | textField =>
    -- a `StringBuilder` that is given nothing checks nothing
    if kind.filterInput text = [] then .ok none
    else if t.length < index then .error .indexOutOfBounds
    else .ok (some (splice t index index (kind.filterInput text)))
  | textArea =>
    if t.length < index then .error .indexOutOfBounds
    else if kind.filterInput text = [] then .ok none
    else .ok (some (splice t index index (kind.filterInput text)))

/-- `delete(start, end)`. -/
def delete (kind : ContentKind) (t : Text) (start stop : ℕ) : Except Exn (Option Text) :=
  match kind with
  | textField =>
    if start < stop then
      -- `StringBuilder.delete` cuts the end to the length
      if t.length < start then .error .indexOutOfBounds
      else .ok (some (splice t start (min stop t.length) []))
    else .ok none
  | textArea =>
    if stop < start then .error .illegalArgument
    else if t.length < stop then .error .indexOutOfBounds
    else if start = stop then .ok none
    else .ok (some (splice t start stop []))

/-- `get(start, end)` with `start <= end`. -/
def get (t : Text) (start stop : ℕ) : Except Exn Text :=
  if stop ≤ t.length then .ok (slice t start stop) else .error .indexOutOfBounds

section Lemmas

variable {kind : ContentKind} {t A B C text : Text} {start stop index : ℕ}

theorem filterInput_eq (kind : ContentKind) :
    ∃ legal : UInt16 → Bool, ∀ text, kind.filterInput text = text.filter legal := by
  cases kind with
  | textField => exact ⟨_, fun text => Control.filterInput_eq text true true⟩
  | textArea => exact ⟨_, fun text => Control.filterInput_eq text false false⟩

@[simp] theorem filterInput_nil : kind.filterInput [] = [] := by
  obtain ⟨legal, hlegal⟩ := kind.filterInput_eq
  rw [hlegal, List.filter_nil]

theorem legal_filterInput (text : Text) : kind.Legal (kind.filterInput text) := by
  obtain ⟨legal, hlegal⟩ := kind.filterInput_eq
  rw [Legal, hlegal, hlegal, List.filter_filter]
  simp

theorem legal_append : kind.Legal (A ++ B) ↔ kind.Legal A ∧ kind.Legal B := by
  obtain ⟨legal, hlegal⟩ := kind.filterInput_eq
  simp only [Legal, hlegal, List.filter_eq_self, List.mem_append]
  constructor
  · intro h
    exact ⟨fun c hc => h c (Or.inl hc), fun c hc => h c (Or.inr hc)⟩
  · rintro ⟨hA, hB⟩ c (hc | hc)
    · exact hA c hc
    · exact hB c hc

/-- An insertion between two parts of the text. -/
theorem insert_mid (hindex : index = A.length) : kind.insert (A ++ C) index text
    = .ok (if kind.filterInput text = [] then none else some (A ++ kind.filterInput text ++ C)) := by
  have hle : ¬ (A ++ C).length < index := by
    rw [List.length_append]
    omega
  have hsplice : splice (A ++ C) index index (kind.filterInput text)
      = A ++ kind.filterInput text ++ C := by
    have h : splice (A ++ [] ++ C) index index (kind.filterInput text)
        = A ++ kind.filterInput text ++ C := splice_mid hindex
      (show index = A.length + ([] : Text).length by simpa using hindex)
    rwa [List.append_nil] at h
  cases kind with
  | textField =>
    rw [insert, if_neg hle, hsplice]
    split <;> rfl
  | textArea =>
    rw [insert, if_neg hle, hsplice]
    split <;> rfl

/-- The deletion of a part of the text. -/
theorem delete_mid (hstart : start = A.length) (hstop : stop = A.length + B.length) :
    kind.delete (A ++ B ++ C) start stop = .ok (if B = [] then none else some (A ++ C)) := by
  have hlen : (A ++ B ++ C).length = stop + C.length := by
    rw [List.length_append, List.length_append, hstop]
  have hmin : min stop (A ++ B ++ C).length = stop := by omega
  have hsplice : splice (A ++ B ++ C) start stop [] = A ++ C := by
    rw [splice_mid hstart hstop, List.append_nil]
  have hempty : B = [] ↔ start = stop := by
    rw [← List.length_eq_zero_iff]
    omega
  cases kind with
  | textField =>
    rw [delete, if_neg (show ¬ (A ++ B ++ C).length < start by omega), hmin, hsplice]
    by_cases hB : B = []
    · have hsame := hempty.mp hB
      rw [if_pos hB, if_neg (by omega)]
    · have hdiff := mt hempty.mpr hB
      rw [if_neg hB, if_pos (by omega)]
  | textArea =>
    rw [delete, if_neg (show ¬ stop < start by omega),
      if_neg (show ¬ (A ++ B ++ C).length < stop by omega), hsplice]
    by_cases hB : B = []
    · rw [if_pos hB, if_pos (hempty.mp hB)]
    · rw [if_neg hB, if_neg (mt hempty.mpr hB)]

theorem get_mid (hstart : start = A.length) (hstop : stop = A.length + B.length) :
    get (A ++ B ++ C) start stop = .ok B := by
  have hle : stop ≤ (A ++ B ++ C).length := by
    rw [List.length_append, List.length_append]
    omega
  rw [get, if_pos hle, slice_mid hstart hstop]

end Lemmas

end ContentKind

end JavaFx.Control
