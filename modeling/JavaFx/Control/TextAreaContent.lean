/-
`TextArea.TextAreaContent`: a text kept as a list of paragraphs.

A position of the text is found by walking over the paragraphs, from the front to
read and from the back to write, with an offset that counts one newline for each
paragraph that was passed. All of the arithmetic is about the text in which every
paragraph, the last one too, ends with a newline (`terminated`), and the content
represents `t` when its terminated text is `t` and one newline.

The listeners of the paragraph list are told in the middle of an edit; nothing is
modelled of them.
-/
import JavaFx.Control.TextContent

set_option autoImplicit false

namespace JavaFx.Control

open JavaFx.Lib

/-! ## `StringBuilder` -/

/-- `sb.insert(offset, str)`. -/
def sbInsert (sb : Text) (offset : ℤ) (str : Text) : Except Exn Text :=
  if 0 ≤ offset ∧ offset ≤ sb.length then .ok (splice sb offset.toNat offset.toNat str)
  else .error .indexOutOfBounds

/-- `sb.delete(start, end)`, with the end cut to the length. -/
def sbDelete (sb : Text) (start stop : ℤ) : Except Exn Text :=
  if 0 ≤ start ∧ start ≤ min stop sb.length then
    .ok (splice sb start.toNat (min stop sb.length).toNat [])
  else .error .indexOutOfBounds

/-- `sb.subSequence(start, end)`. -/
def subSequence (sb : Text) (start stop : ℤ) : Except Exn Text :=
  if 0 ≤ start ∧ start ≤ stop ∧ stop ≤ sb.length then .ok (slice sb start.toNat stop.toNat)
  else .error .indexOutOfBounds

section StringBuilder

variable {P D R str : Text} {start stop : ℤ}

theorem sbInsert_mid (hstart : start = P.length) : sbInsert (P ++ R) start str = .ok (P ++ str ++ R) := by
  have hsplice : splice (P ++ R) start.toNat start.toNat str = P ++ str ++ R := by
    have h : splice (P ++ [] ++ R) start.toNat start.toNat str = P ++ str ++ R :=
      splice_mid (show start.toNat = P.length by omega)
      (show start.toNat = P.length + ([] : Text).length by rw [List.length_nil]; omega)
    rwa [List.append_nil] at h
  rw [sbInsert, if_pos (by rw [List.length_append]; omega), hsplice]

theorem sbDelete_mid (hstart : start = P.length) (hstop : stop = P.length + D.length) :
    sbDelete (P ++ D ++ R) start stop = .ok (P ++ R) := by
  have hlen : (P ++ D ++ R).length = P.length + D.length + R.length := by
    rw [List.length_append, List.length_append]
  have hmin : min stop (P ++ D ++ R).length = stop := min_eq_left (by omega)
  rw [sbDelete, hmin, if_pos (by omega),
    splice_mid (show start.toNat = P.length by omega)
      (show stop.toNat = P.length + D.length by omega), List.append_nil]

theorem subSequence_mid (hstart : start = P.length) (hstop : stop = P.length + D.length) :
    subSequence (P ++ D ++ R) start stop = .ok D := by
  have hlen : (P ++ D ++ R).length = P.length + D.length + R.length := by
    rw [List.length_append, List.length_append]
  rw [subSequence, if_pos (by omega), slice_mid (show start.toNat = P.length by omega)
    (show stop.toNat = P.length + D.length by omega)]

end StringBuilder

/-! ## The content -/

structure TextAreaContent where
  paragraphs : List Text
  contentLength : ℤ
  deriving DecidableEq

namespace TextAreaContent

def new : TextAreaContent where
  paragraphs := [[]]
  contentLength := 0

/-- The loop of `get` that looks for a position: the paragraph it is in and the
place there. -/
def locate (offset : ℤ) (paragraphIndex : ℕ) : List Text → ℕ × ℤ
  | [] => (paragraphIndex, offset)
  | paragraph :: paragraphs =>
    if offset < paragraph.length + 1 then (paragraphIndex, offset)
    else locate (offset - (paragraph.length + 1)) (paragraphIndex + 1) paragraphs

/-- The loop of `get` that reads: `n` more characters after the first `i`. -/
def read (s : TextAreaContent) : (n : ℕ) → (i : ℤ) → (paragraphIndex : ℕ) → Text → ℤ →
    Except Exn Text
  | 0, _, _, _, _ => .ok []
  | n + 1, i, paragraphIndex, paragraph, offset =>
    if offset = paragraph.length ∧ i < s.contentLength then do
      let paragraph ← aget s.paragraphs (paragraphIndex + 1 : ℕ)
      return newline :: (← read s n (i + 1) (paragraphIndex + 1) paragraph 0)
    else do
      let c ← aget paragraph offset
      return c :: (← read s n (i + 1) paragraphIndex paragraph (offset + 1))

/-- `get(start, end)`. -/
def get (s : TextAreaContent) (start stop : ℤ) : Except Exn Text := do
  let length := stop - start
  -- the capacity of the `StringBuilder`
  if length < 0 then throw .negativeArraySize
  let (paragraphIndex, offset) := locate start 0 s.paragraphs
  let paragraph ← aget s.paragraphs paragraphIndex
  read s length.toNat 0 paragraphIndex paragraph offset

/-- `length()`. -/
def length (s : TextAreaContent) : ℤ := s.contentLength

/-- `get()`. -/
def getAll (s : TextAreaContent) : Except Exn Text := s.get 0 s.length

/-- The loop that cuts an inserted text into lines: those that are complete, and the
one that is being read. -/
def splitLines (lines : List Text) (line : Text) : Text → List Text × Text
  | [] => (lines, line)
  | c :: text =>
    if c = newline then splitLines (lines ++ [line]) [] text
    else splitLines lines (line ++ [c]) text

/-- The loop of `insert` and `delete` that looks for a position, backwards from the
paragraph behind `paragraphIndex`, which begins at `offset`. -/
def locateBack (paragraphs : List Text) (index : ℤ) : (paragraphIndex : ℕ) → (offset : ℤ) →
    Except Exn (ℕ × ℤ × Text)
  | 0, _ => .error .indexOutOfBounds
  | paragraphIndex + 1, offset => do
      let paragraph ← aget paragraphs paragraphIndex
      let offset := offset - (paragraph.length + 1)
      if index < offset then locateBack paragraphs index paragraphIndex offset
      else return (paragraphIndex, offset, paragraph)

/-- `insert(index, text)`. -/
def insert (s : TextAreaContent) (index : ℤ) (text : Text) : Except Exn TextAreaContent := do
  if index < 0 ∨ s.contentLength < index then throw .indexOutOfBounds
  let text := filterInput text false false
  let length := text.length
  if length = 0 then return s
  let (lines, line) := splitLines [] [] text
  -- the intersecting paragraph
  let (paragraphIndex, offset, paragraph) ←
    locateBack s.paragraphs index s.paragraphs.length (s.contentLength + 1)
  let start := index - offset
  let contentLength := s.contentLength + length
  match lines with
  | [] =>
    -- the text contains only a single line
    let paragraph ← sbInsert paragraph start line
    return ⟨s.paragraphs.set paragraphIndex paragraph, contentLength⟩
  | first :: lines =>
    -- the text contains multiple lines; split the intersecting paragraph
    let stop := paragraph.length
    let trailingText ← subSequence paragraph start stop
    let paragraph ← sbDelete paragraph start stop
    let paragraph ← sbInsert paragraph start first
    let line := line ++ trailingText
    let paragraphs := s.paragraphs.set paragraphIndex paragraph
    -- insert the remaining lines into the paragraph list
    return ⟨paragraphs.take (paragraphIndex + 1) ++ (lines ++ [line])
      ++ paragraphs.drop (paragraphIndex + 1), contentLength⟩

/-- `delete(start, end)`. -/
def delete (s : TextAreaContent) (start stop : ℤ) : Except Exn TextAreaContent := do
  if stop < start then throw .illegalArgument
  if start < 0 ∨ s.contentLength < stop then throw .indexOutOfBounds
  let length := stop - start
  if length = 0 then return s
  -- identify the trailing paragraph
  let (trailingParagraphIndex, trailingOffset, trailingParagraph) ←
    locateBack s.paragraphs stop s.paragraphs.length (s.contentLength + 1)
  -- identify the leading paragraph
  let (leadingParagraphIndex, leadingOffset, leadingParagraph) ←
    locateBack s.paragraphs start (trailingParagraphIndex + 1)
      (trailingOffset + (trailingParagraph.length + 1))
  let contentLength := s.contentLength - length
  if leadingParagraphIndex = trailingParagraphIndex then
    -- the removal affects only a single paragraph
    let paragraph ← sbDelete leadingParagraph (start - leadingOffset) (stop - leadingOffset)
    return ⟨s.paragraphs.set leadingParagraphIndex paragraph, contentLength⟩
  else
    -- remove any intervening paragraphs and merge the leading and trailing segments
    let leadingSegment ← subSequence leadingParagraph 0 (start - leadingOffset)
    let trailingSegmentLength := start + length - trailingOffset
    let paragraph ← sbDelete trailingParagraph 0 trailingSegmentLength
    let paragraphs := s.paragraphs.set trailingParagraphIndex paragraph
    let paragraphs := paragraphs.take leadingParagraphIndex ++ paragraphs.drop trailingParagraphIndex
    -- the trailing paragraph is now at the former leading paragraph's index
    let paragraph ← sbInsert paragraph 0 leadingSegment
    return ⟨paragraphs.set leadingParagraphIndex paragraph, contentLength⟩

/-! ## The text the paragraphs are -/

/-- The paragraphs, each with a newline behind it. -/
def terminated (ps : List Text) : Text := ps.flatMap (· ++ [newline])

section Terminated

variable {ps A B : List Text} {p t X D Y text : Text} {start stop : ℕ}

@[simp] theorem terminated_nil : terminated [] = [] := rfl

@[simp] theorem terminated_cons : terminated (p :: ps) = p ++ newline :: terminated ps := by
  unfold terminated
  rw [List.flatMap_cons, List.append_assoc, List.singleton_append]

@[simp] theorem terminated_append : terminated (A ++ B) = terminated A ++ terminated B :=
  List.flatMap_append

/-- Apart from the newline at the end it is the text that the paragraphs are the pieces of. -/
theorem terminated_eq_intercalate (hne : ps ≠ []) :
    terminated ps = [newline].intercalate ps ++ [newline] := by
  induction ps with
  | nil => exact absurd rfl hne
  | cons p ps ih =>
    cases ps with
    | nil => rw [terminated_cons, terminated_nil, List.intercalate_singleton]
    | cons q ps =>
      rw [terminated_cons, ih (List.cons_ne_nil _ _), List.intercalate_cons_cons,
        List.append_assoc, List.append_assoc]
      rfl

/-- An edit of the text, seen on the text with a newline behind it. -/
theorem splice_snoc (ht : t ++ [newline] = X ++ D ++ Y) (hstart : start = X.length)
    (hstop : stop = X.length + D.length) (hle : stop ≤ t.length) :
    splice t start stop text ++ [newline] = X ++ text ++ Y := by
  have hX : t.take start = X := by
    have htake : (t ++ [newline]).take start = X := by
      rw [ht, hstart, List.append_assoc, List.take_left]
    rwa [List.take_append_of_le_length (by omega)] at htake
  have hY : t.drop stop ++ [newline] = Y := by
    have hdrop : (t ++ [newline]).drop stop = Y := by
      rw [ht, List.drop_left' (by rw [List.length_append, hstop])]
    rwa [List.drop_append_of_le_length hle] at hdrop
  rw [splice, hX, List.append_assoc, hY]

/-- An insertion, seen on the text with a newline behind it. -/
theorem splice_insert_snoc (ht : t ++ [newline] = X ++ Y) (hstart : start = X.length)
    (hle : start ≤ t.length) : splice t start start text ++ [newline] = X ++ text ++ Y := by
  apply splice_snoc (D := []) _ hstart _ hle
  · rw [List.append_nil, ht]
  · rw [hstart, List.length_nil, Nat.add_zero]

end Terminated

/-- The content is the text `t`. -/
structure Represents (s : TextAreaContent) (t : Text) : Prop where
  ends : terminated s.paragraphs = t ++ [newline]
  plain : ∀ p ∈ s.paragraphs, newline ∉ p
  lengthOk : s.contentLength = t.length

theorem represents_new : Represents new [] :=
  ⟨rfl, fun p hp => by rw [List.mem_singleton.mp hp]; exact List.not_mem_nil, rfl⟩

section Represents

variable {s s' : TextAreaContent} {t text line : Text} {ps A B lines : List Text} {p P R : Text}

theorem Represents.ne_nil (h : Represents s t) : s.paragraphs ≠ [] := by
  intro hnil
  have hterminated := h.ends
  rw [hnil, terminated_nil] at hterminated
  exact absurd hterminated.symm (List.append_ne_nil_of_right_ne_nil _ (List.cons_ne_nil _ _))

/-- The paragraphs are the pieces of the text between the newlines. -/
theorem Represents.paragraphs (h : Represents s t) : s.paragraphs = t.splitOn newline := by
  have hintercalate : [newline].intercalate s.paragraphs = t := by
    have hterminated := h.ends
    rw [terminated_eq_intercalate h.ne_nil] at hterminated
    exact List.append_cancel_right hterminated
  rw [← hintercalate]
  exact (List.splitOn_intercalate newline h.plain h.ne_nil).symm

/-! ## The loops -/

theorem splitLines_spec (text : Text) : ∀ (lines : List Text) (line : Text),
    (∀ p ∈ lines, newline ∉ p) → newline ∉ line →
    terminated (splitLines lines line text).1 ++ (splitLines lines line text).2
        = terminated lines ++ line ++ text
      ∧ (∀ p ∈ (splitLines lines line text).1, newline ∉ p)
      ∧ newline ∉ (splitLines lines line text).2 := by
  induction text with
  | nil =>
    intro lines line hlines hline
    rw [List.append_nil]
    exact ⟨rfl, hlines, hline⟩
  | cons c text ih =>
    intro lines line hlines hline
    rw [splitLines]
    split
    · rename_i hc
      have hlines' : ∀ p ∈ lines ++ [line], newline ∉ p := by
        intro p hp
        rcases List.mem_append.mp hp with hp | hp
        · exact hlines p hp
        · rwa [List.mem_singleton.mp hp]
      obtain ⟨hterminated, hplain⟩ := ih (lines ++ [line]) [] hlines' List.not_mem_nil
      refine ⟨?_, hplain⟩
      rw [hterminated, hc]
      simp
    · rename_i hc
      have hline' : newline ∉ line ++ [c] := by
        rw [List.mem_append, List.mem_singleton]
        rintro (h | h)
        · exact hline h
        · exact hc h.symm
      obtain ⟨hterminated, hplain⟩ := ih lines (line ++ [c]) hlines hline'
      refine ⟨?_, hplain⟩
      rw [hterminated]
      simp

/-- A position is in the paragraph that begins at or in front of it and ends at or
behind it. -/
theorem locateBack_spec {index : ℕ} (k : ℕ) : k ≤ ps.length →
    index < (terminated (ps.take k)).length →
    ∃ A p B, ps = A ++ p :: B ∧ A.length < k
      ∧ locateBack ps index k (terminated (ps.take k)).length
        = .ok (A.length, (terminated A).length, p)
      ∧ (terminated A).length ≤ index ∧ index ≤ (terminated A).length + p.length := by
  induction k with
  | zero =>
    intro _ hindex
    rw [List.take_zero, terminated_nil] at hindex
    exact absurd hindex (Nat.not_lt_zero _)
  | succ k ih =>
    intro hk hindex
    have hlt : k < ps.length := hk
    have htake : ps.take (k + 1) = ps.take k ++ [ps[k]] := (List.take_append_getElem hlt).symm
    have hlength : (terminated (ps.take (k + 1))).length
        = (terminated (ps.take k)).length + (ps[k].length + 1) := by
      rw [htake, terminated_append, List.length_append, terminated_cons, terminated_nil,
        List.length_append]
      rfl
    have hget : aget ps k = .ok ps[k] := aget_ok (List.getElem?_eq_getElem hlt)
    have hoffset : ((terminated (ps.take (k + 1))).length : ℤ) - (ps[k].length + 1)
        = (terminated (ps.take k)).length := by
      rw [hlength]
      push_cast
      ring
    rw [locateBack, hget, ok_bind]
    dsimp only
    rw [hoffset]
    split
    · obtain ⟨A, p, B, hps, hA, hlocate, hbounds⟩ := ih (le_of_lt hlt) (by omega)
      exact ⟨A, p, B, hps, by omega, hlocate, hbounds⟩
    · refine ⟨ps.take k, ps[k], ps.drop (k + 1), ?_, ?_, ?_, by omega, by omega⟩
      · rw [List.getElem_cons_drop, List.take_append_drop]
      · rw [List.length_take]
        omega
      · rw [List.length_take, Nat.min_eq_left (le_of_lt hlt)]
        rfl

/-! ## The edits -/

/-- The paragraph of a position, cut at the position. -/
theorem Represents.located (h : Represents s t) {index : ℕ} (hindex : index ≤ t.length) :
    ∃ A P R B, s.paragraphs = A ++ (P ++ R) :: B
      ∧ index = (terminated A).length + P.length
      ∧ locateBack s.paragraphs index s.paragraphs.length (s.contentLength + 1)
        = .ok (A.length, (terminated A).length, P ++ R) := by
  have hlength : s.contentLength + 1 = (terminated s.paragraphs).length := by
    rw [h.ends, h.lengthOk, List.length_append]
    rfl
  have hlt : index < (terminated s.paragraphs).length := by
    rw [h.ends, List.length_append, List.length_singleton]
    omega
  obtain ⟨A, p, B, hps, -, hlocate, hle, hle'⟩ :=
    @locateBack_spec s.paragraphs index s.paragraphs.length (le_refl _) (by rwa [List.take_length])
  rw [List.take_length, ← hlength] at hlocate
  refine ⟨A, p.take (index - (terminated A).length), p.drop (index - (terminated A).length), B, ?_,
    ?_, ?_⟩
  · rwa [List.take_append_drop]
  · rw [List.length_take]
    omega
  · rwa [List.take_append_drop]

/-- The text around a paragraph that is cut in two. -/
theorem Represents.around (h : Represents s t) (hps : s.paragraphs = A ++ (P ++ R) :: B) :
    t ++ [newline] = (terminated A ++ P) ++ (R ++ newline :: terminated B) := by
  rw [← h.ends, hps, terminated_append, terminated_cons]
  simp only [List.append_assoc]

theorem Represents.plain_parts (h : Represents s t) (hps : s.paragraphs = A ++ (P ++ R) :: B) :
    (∀ p ∈ A, newline ∉ p) ∧ newline ∉ P ∧ newline ∉ R ∧ ∀ p ∈ B, newline ∉ p := by
  have hplain := h.plain
  rw [hps] at hplain
  have hcut := hplain (P ++ R) (List.mem_append_right _ List.mem_cons_self)
  rw [List.mem_append, not_or] at hcut
  exact ⟨fun p hp => hplain p (List.mem_append_left _ hp), hcut.1, hcut.2,
    fun p hp => hplain p (List.mem_append_right _ (List.mem_cons_of_mem _ hp))⟩

theorem plain_around (hA : ∀ p ∈ A, newline ∉ p) (hp : ∀ p ∈ ps, newline ∉ p)
    (hB : ∀ p ∈ B, newline ∉ p) : ∀ p ∈ A ++ ps ++ B, newline ∉ p := by
  intro p hmem
  rcases List.mem_append.mp hmem with hmem | hmem
  · rcases List.mem_append.mp hmem with hmem | hmem
    · exact hA p hmem
    · exact hp p hmem
  · exact hB p hmem

theorem not_mem_append (hP : newline ∉ P) (hR : newline ∉ R) : newline ∉ P ++ R := by
  rw [List.mem_append]
  exact not_or.mpr ⟨hP, hR⟩

theorem insert_spec (h : Represents s t) {index : ℕ} (hindex : index ≤ t.length) (text : Text) :
    ∃ s', s.insert index text = .ok s'
      ∧ Represents s' (splice t index index (filterInput text false false)) := by
  have hlength := h.lengthOk
  have hrange : ¬ ((index : ℤ) < 0 ∨ s.contentLength < index) := by omega
  unfold insert
  rw [if_neg hrange]
  generalize filterInput text false false = text
  by_cases hempty : text.length = 0
  · have hnil : text = [] := List.length_eq_zero_iff.mp hempty
    have hsame : splice t index index ([] : Text) = t := by
      rw [splice, List.append_nil, List.take_append_drop]
    refine ⟨s, if_pos hempty, ?_⟩
    rw [hnil, hsame]
    exact h
  change ∃ s', (if text.length = 0 then _ else _) = _ ∧ _
  rw [if_neg hempty]
  obtain ⟨A, P, R, B, hps, hplace, hlocate⟩ := h.located hindex
  obtain ⟨hA, hP, hR, hB⟩ := h.plain_parts hps
  have hsplice : splice t index index text ++ [newline] = _ ++ text ++ _ :=
    splice_insert_snoc (h.around hps)
    (by rw [List.length_append, hplace]) hindex
  have hlength' : ((splice t index index text).length : ℤ) = s.contentLength + text.length := by
    have hlen := congrArg List.length hsplice
    have hlen₀ := congrArg List.length (h.around hps)
    simp only [List.length_append, List.length_cons, List.length_nil] at hlen hlen₀
    omega
  have hoffset : (index : ℤ) - (terminated A).length = P.length := by omega
  obtain ⟨hlines, hplain, hlinePlain⟩ :=
    splitLines_spec text [] [] (fun _ hp => absurd hp List.not_mem_nil) List.not_mem_nil
  revert hlines hplain hlinePlain
  generalize splitLines [] [] text = split
  obtain ⟨lines, line⟩ := split
  intro hlines hplain hlinePlain
  dsimp only at hlines hplain hlinePlain ⊢
  rw [hlocate, ok_bind]
  dsimp only
  rw [hoffset]
  have hset : ∀ p, s.paragraphs.set A.length p = A ++ p :: B := by
    intro p
    rw [hps, List.set_append_right _ _ (le_refl _), Nat.sub_self, List.set_cons_zero]
  cases lines with
  | nil =>
    rw [terminated_nil, List.nil_append, List.append_nil, List.nil_append] at hlines
    dsimp only
    rw [sbInsert_mid rfl, ok_bind, hset]
    refine ⟨_, rfl, ?_, ?_, hlength'.symm⟩
    · rw [hsplice, hlines]
      simp
    · have hplain' : ∀ p ∈ [P ++ line ++ R], newline ∉ p := by
        intro p hp
        rw [List.mem_singleton.mp hp]
        exact not_mem_append (not_mem_append hP hlinePlain) hR
      have hall := plain_around hA hplain' hB
      rwa [List.append_assoc] at hall
  | cons first lines =>
    have htrailing : subSequence (P ++ R) P.length (P ++ R).length = .ok R := by
      have hmid := subSequence_mid (P := P) (D := R) (R := []) rfl rfl
      rw [List.append_nil] at hmid
      rw [List.length_append]
      exact_mod_cast hmid
    have hdelete : sbDelete (P ++ R) P.length (P ++ R).length = .ok P := by
      have hmid := sbDelete_mid (P := P) (D := R) (R := []) rfl rfl
      rw [List.append_nil, List.append_nil] at hmid
      rw [List.length_append]
      exact_mod_cast hmid
    have hinsert : sbInsert P P.length first = .ok (P ++ first) := by
      have hmid : sbInsert (P ++ []) P.length first = .ok (P ++ first ++ []) := sbInsert_mid rfl
      rwa [List.append_nil, List.append_nil] at hmid
    dsimp only
    rw [htrailing, ok_bind, hdelete, ok_bind, hinsert, ok_bind, hset]
    have hsplit : A ++ (P ++ first) :: B = (A ++ [P ++ first]) ++ B := by simp
    have hlen : (A ++ [P ++ first]).length = A.length + 1 := by simp
    rw [hsplit, List.take_left' hlen, List.drop_left' hlen]
    rw [terminated_nil, List.nil_append, List.nil_append, terminated_cons] at hlines
    refine ⟨_, rfl, ?_, ?_, hlength'.symm⟩
    · rw [hsplice, ← hlines]
      simp
    · have hplain' : ∀ p ∈ (P ++ first) :: (lines ++ [line ++ R]), newline ∉ p := by
        intro p hp
        rcases List.mem_cons.mp hp with rfl | hp
        · exact not_mem_append hP (hplain first List.mem_cons_self)
        · rcases List.mem_append.mp hp with hp | hp
          · exact hplain p (List.mem_cons_of_mem _ hp)
          · rw [List.mem_singleton.mp hp]
            exact not_mem_append hlinePlain hR
      have hall := plain_around hA hplain' hB
      simpa using hall

/-- Deleting what is between two positions. -/
theorem delete_spec (h : Represents s t) {start stop : ℕ} (hle : start ≤ stop)
    (hstop : stop ≤ t.length) :
    ∃ s', s.delete start stop = .ok s' ∧ Represents s' (splice t start stop []) := by
  have hlength := h.lengthOk
  unfold delete
  rw [if_neg (by omega)]
  change ∃ s', (if (start : ℤ) < 0 ∨ s.contentLength < stop then _ else _) = _ ∧ _
  rw [if_neg (by omega)]
  by_cases hempty : (stop : ℤ) - start = 0
  · have hsame : splice t start stop [] = t := by
      have heq : start = stop := by omega
      rw [heq, splice, List.append_nil, List.take_append_drop]
    refine ⟨s, if_pos hempty, ?_⟩
    rw [hsame]
    exact h
  change ∃ s', (if (stop : ℤ) - start = 0 then _ else _) = _ ∧ _
  rw [if_neg hempty]
  obtain ⟨A, P, R, B, hps, hplace, hlocate⟩ := h.located hstop
  obtain ⟨hA, hP, hR, hB⟩ := h.plain_parts hps
  -- the second search begins behind the paragraph the first one found
  have htake : s.paragraphs.take (A.length + 1) = A ++ [P ++ R] := by
    have hsplit : A ++ (P ++ R) :: B = (A ++ [P ++ R]) ++ B := by simp
    rw [hps, hsplit, List.take_left' (by simp)]
  have hbehind : (terminated (s.paragraphs.take (A.length + 1))).length
      = (terminated A).length + ((P ++ R).length + 1) := by
    rw [htake, terminated_append, List.length_append, terminated_cons, List.length_append]
    rfl
  obtain ⟨A', p', B', hps', hlt, hlocate', hle', hge'⟩ :=
    @locateBack_spec s.paragraphs start (A.length + 1) (by rw [hps]; simp)
      (by rw [hbehind, List.length_append]; omega)
  rw [hbehind] at hlocate'
  push_cast at hlocate'
  dsimp only
  rw [hlocate, ok_bind]
  dsimp only
  rw [hlocate', ok_bind]
  dsimp only
  have hset : ∀ p, s.paragraphs.set A.length p = A ++ p :: B := by
    intro p
    rw [hps, List.set_append_right _ _ (le_refl _), Nat.sub_self, List.set_cons_zero]
  have hlengthOf : ∀ {X D Y : Text}, t ++ [newline] = X ++ D ++ Y → start = X.length →
      stop = X.length + D.length →
      ((splice t start stop []).length : ℤ) = s.contentLength - (stop - start) := by
    intro X D Y ht hX hD
    have hsplice : splice t start stop [] ++ [newline] = X ++ [] ++ Y := splice_snoc ht hX hD hstop
    have hlen := congrArg List.length hsplice
    have hlen₀ := congrArg List.length ht
    simp only [List.length_append, List.length_cons, List.length_nil] at hlen hlen₀
    omega
  by_cases hone : A'.length = A.length
  · -- a single paragraph
    rw [if_pos hone]
    obtain ⟨rfl, hrest⟩ := List.append_inj (hps'.symm.trans hps) hone
    obtain ⟨rfl, rfl⟩ := List.cons.inj hrest
    obtain ⟨P₁, D, hP₁, hlen⟩ : ∃ P₁ D, P = P₁ ++ D ∧ P₁.length = start - (terminated A').length :=
      ⟨P.take (start - (terminated A').length), P.drop (start - (terminated A').length),
        (List.take_append_drop _ _).symm, by rw [List.length_take]; omega⟩
    subst hP₁
    rw [List.length_append] at hplace
    rw [sbDelete_mid (by omega) (by omega), ok_bind, hset]
    have haround : t ++ [newline] = (terminated A' ++ P₁) ++ D ++ (R ++ newline :: terminated B') := by
      rw [h.around hps]
      simp only [List.append_assoc]
    have hX : start = (terminated A' ++ P₁).length := by
      rw [List.length_append]
      omega
    refine ⟨_, rfl, ?_, ?_, (hlengthOf haround hX (by omega)).symm⟩
    · rw [splice_snoc haround hX (by omega) hstop]
      simp
    · have hplain' : ∀ p ∈ [P₁ ++ R], newline ∉ p := by
        intro p hp
        rw [List.mem_append, not_or] at hP
        rw [List.mem_singleton.mp hp]
        exact not_mem_append hP.1 hR
      have hall := plain_around hA hplain' hB
      simpa using hall
  · -- several paragraphs
    rw [if_neg hone]
    obtain ⟨M, hM⟩ : ∃ M, A = A' ++ p' :: M := by
      have hleading : A' ++ [p'] = A.take (A'.length + 1) := by
        have heq : (A' ++ p' :: B').take (A'.length + 1)
            = (A ++ (P ++ R) :: B).take (A'.length + 1) := by rw [← hps', hps]
        rw [show (A ++ (P ++ R) :: B).take (A'.length + 1) = A.take (A'.length + 1) from
          List.take_append_of_le_length (by omega)] at heq
        rw [← heq]
        have hsplit : A' ++ p' :: B' = (A' ++ [p']) ++ B' := by simp
        rw [hsplit, List.take_left' (by simp)]
      refine ⟨A.drop (A'.length + 1), ?_⟩
      calc A = A.take (A'.length + 1) ++ A.drop (A'.length + 1) := (List.take_append_drop _ _).symm
        _ = A' ++ [p'] ++ A.drop (A'.length + 1) := by rw [hleading]
        _ = A' ++ p' :: A.drop (A'.length + 1) := by simp
    subst hM
    obtain ⟨P', R', hp', hlen⟩ : ∃ P' R', p' = P' ++ R' ∧ P'.length = start - (terminated A').length :=
      ⟨p'.take (start - (terminated A').length), p'.drop (start - (terminated A').length),
        (List.take_append_drop _ _).symm, by rw [List.length_take]; omega⟩
    subst hp'
    have hsegment : subSequence (P' ++ R') 0 (start - (terminated A').length) = .ok P' := by
      have hmid : subSequence ([] ++ P' ++ R') 0 P'.length = .ok P' :=
        subSequence_mid rfl (by simp)
      rw [List.nil_append] at hmid
      have hstart : (start : ℤ) - (terminated A').length = P'.length := by omega
      rw [hstart]
      exact hmid
    have hcut : sbDelete (P ++ R) 0
        (start + (stop - start) - (terminated (A' ++ (P' ++ R') :: M)).length) = .ok R := by
      have hmid : sbDelete ([] ++ P ++ R) 0 P.length = .ok ([] ++ R) := sbDelete_mid rfl (by simp)
      rw [List.nil_append, List.nil_append] at hmid
      have hend : (start : ℤ) + (stop - start) - (terminated (A' ++ (P' ++ R') :: M)).length
          = P.length := by omega
      rw [hend]
      exact hmid
    have hinsert : sbInsert R 0 P' = .ok (P' ++ R) := by
      have hmid : sbInsert ([] ++ R) 0 P' = .ok ([] ++ P' ++ R) := sbInsert_mid rfl
      rwa [List.nil_append, List.nil_append] at hmid
    rw [hsegment, ok_bind, hcut, ok_bind, hinsert, ok_bind, hset]
    have htakeSet : (A' ++ (P' ++ R') :: M ++ R :: B).take A'.length = A' := by
      rw [List.append_assoc, List.take_left]
    have hdropSet : (A' ++ (P' ++ R') :: M ++ R :: B).drop (A' ++ (P' ++ R') :: M).length = R :: B :=
      List.drop_left
    rw [htakeSet, hdropSet, List.set_append_right _ _ (le_refl _), Nat.sub_self, List.set_cons_zero]
    have haround : t ++ [newline] = (terminated A' ++ P')
        ++ (R' ++ newline :: (terminated M ++ P)) ++ (R ++ newline :: terminated B) := by
      rw [h.around hps]
      simp
    have hX : start = (terminated A' ++ P').length := by
      rw [List.length_append]
      omega
    have hD : stop = (terminated A' ++ P').length + (R' ++ newline :: (terminated M ++ P)).length := by
      rw [hplace]
      simp only [terminated_append, terminated_cons, List.length_append, List.length_cons]
      omega
    refine ⟨_, rfl, ?_, ?_, (hlengthOf haround hX hD).symm⟩
    · rw [splice_snoc haround hX hD hstop]
      simp
    · have hlead := hA (P' ++ R') (List.mem_append_right _ List.mem_cons_self)
      rw [List.mem_append, not_or] at hlead
      have hplain' : ∀ p ∈ [P' ++ R], newline ∉ p := by
        intro p hp
        rw [List.mem_singleton.mp hp]
        exact not_mem_append hlead.1 hR
      have hall := plain_around (fun p hp => hA p (List.mem_append_left _ hp)) hplain' hB
      simpa using hall

/-! ## Reading -/

theorem locate_spec (ps : List Text) : ∀ {offset : ℕ} (k : ℕ),
    offset < (terminated ps).length → ∃ A P R B, ps = A ++ (P ++ R) :: B
      ∧ offset = (terminated A).length + P.length
      ∧ locate offset k ps = (k + A.length, (P.length : ℤ)) := by
  induction ps with
  | nil =>
    intro offset k hlt
    exact absurd hlt (Nat.not_lt_zero _)
  | cons p ps ih =>
    intro offset k hlt
    rw [terminated_cons, List.length_append, List.length_cons] at hlt
    rw [locate]
    split
    · refine ⟨[], p.take offset, p.drop offset, ps, ?_, ?_, ?_⟩
      · rw [List.take_append_drop]
        rfl
      · rw [List.length_take, terminated_nil, List.length_nil]
        omega
      · rw [List.length_take, Nat.min_eq_left (by omega)]
        rfl
    · obtain ⟨A, P, R, B, hps, hoffset, hlocate⟩ :=
        @ih (offset - (p.length + 1)) (k + 1) (by omega)
      refine ⟨p :: A, P, R, B, by rw [hps]; rfl, ?_, ?_⟩
      · rw [terminated_cons, List.length_append, List.length_cons]
        omega
      · have hcast : (offset : ℤ) - (p.length + 1) = (offset - (p.length + 1) : ℕ) := by omega
        rw [hcast, hlocate, List.length_cons, Nat.add_assoc, Nat.add_comm 1]

/-- Reading goes over the ends of the paragraphs, and there it reads a newline. -/
theorem read_spec (n : ℕ) : ∀ {i : ℕ} {A : List Text} {P R : Text} {B : List Text},
    s.paragraphs = A ++ (P ++ R) :: B → n < (R ++ newline :: terminated B).length →
    (i : ℤ) + n ≤ s.contentLength →
    s.read n i A.length (P ++ R) P.length = .ok ((R ++ newline :: terminated B).take n) := by
  induction n with
  | zero =>
    intro i A P R B _ _ _
    rfl
  | succ n ih =>
    intro i A P R B hps hn hi
    push_cast at hi
    rw [read]
    cases R with
    | nil =>
      rw [List.append_nil, if_pos ⟨rfl, by omega⟩]
      rw [List.nil_append, List.length_cons] at hn
      cases B with
      | nil =>
        rw [terminated_nil, List.length_nil] at hn
        omega
      | cons q B =>
        have hsplit : A ++ (P ++ []) :: q :: B = (A ++ [P]) ++ ([] ++ q) :: B := by simp
        have hnext : aget s.paragraphs (A.length + 1 : ℕ) = .ok q := by
          rw [hps, hsplit]
          exact aget_mid (by simp)
        rw [terminated_cons] at hn
        have hrest := @ih (i + 1) (A ++ [P]) [] q B (by rw [hps, hsplit]) (by omega)
          (by push_cast; omega)
        rw [List.nil_append, List.length_append, List.length_nil] at hrest
        rw [hnext, ok_bind]
        rw [show ((i : ℤ) + 1) = ((i + 1 : ℕ) : ℤ) by push_cast; rfl]
        rw [Nat.cast_zero] at hrest
        change s.read n _ (A.length + 1) q 0 = _ at hrest
        rw [hrest, ok_bind, terminated_cons]
        rfl
    | cons c R =>
      have hin : ¬ ((P.length : ℤ) = (P ++ c :: R).length ∧ (i : ℤ) < s.contentLength) := by
        rw [List.length_append, List.length_cons]
        omega
      have hchar : aget (P ++ c :: R) P.length = .ok c := aget_mid rfl
      have hsplit : P ++ c :: R = (P ++ [c]) ++ R := by simp
      rw [List.cons_append, List.length_cons] at hn
      have hrest := @ih (i + 1) A (P ++ [c]) R B (by rw [hps, hsplit]) (by omega)
        (by push_cast; omega)
      rw [if_neg hin, hchar, ok_bind]
      rw [← hsplit, List.length_append, List.length_singleton] at hrest
      push_cast at hrest
      rw [hrest]
      rfl

theorem get_spec (h : Represents s t) {start stop : ℕ} (hle : start ≤ stop)
    (hstop : stop ≤ t.length) : s.get start stop = .ok (slice t start stop) := by
  have hlength := h.lengthOk
  have hlt : start < (terminated s.paragraphs).length := by
    rw [h.ends, List.length_append, List.length_singleton]
    omega
  obtain ⟨A, P, R, B, hps, hplace, hlocate⟩ := locate_spec s.paragraphs 0 hlt
  have hpresent : aget s.paragraphs (A.length : ℕ) = .ok (P ++ R) := by
    rw [hps]
    exact aget_mid rfl
  have haround := h.around hps
  have hrest : t.drop start ++ [newline] = R ++ newline :: terminated B := by
    have hdrop : (t ++ [newline]).drop start = R ++ newline :: terminated B := by
      rw [haround, List.drop_left' (by rw [List.length_append, hplace])]
    rwa [List.drop_append_of_le_length (by omega)] at hdrop
  have hn : stop - start < (R ++ newline :: terminated B).length := by
    rw [← hrest, List.length_append, List.length_drop, List.length_singleton]
    omega
  have hread := @read_spec s (stop - start) 0 A P R B hps hn (by omega)
  have hcount : ((stop : ℤ) - start).toNat = stop - start := by omega
  unfold get
  rw [if_neg (by omega), hlocate]
  dsimp only
  rw [Nat.zero_add, hpresent, hcount]
  change s.read (stop - start) 0 A.length (P ++ R) P.length = _
  rw [Nat.cast_zero] at hread
  rw [hread, ← hrest, List.take_append_of_le_length (by rw [List.length_drop]; omega), slice,
    List.drop_take]

/-! ## The content of the control

The text input controls are modelled over the text itself (`ContentKind.textArea`);
the paragraphs do what is done there, also where they refuse. -/

theorem insert_refines (h : Represents s t) (index : ℕ) (text : Text) :
    match ContentKind.textArea.insert t index text with
    | .ok none => s.insert index text = .ok s
    | .ok (some t') => ∃ s', s.insert index text = .ok s' ∧ Represents s' t'
    | .error e => s.insert index text = .error e := by
  have hlength := h.lengthOk
  unfold ContentKind.insert
  dsimp only
  by_cases hout : t.length < index
  · rw [if_pos hout, insert, if_pos (by omega)]
    rfl
  · rw [if_neg hout]
    by_cases hempty : ContentKind.textArea.filterInput text = []
    · rw [if_pos hempty]
      dsimp only
      have hnothing : filterInput text false false = [] := hempty
      rw [insert, if_neg (by omega), hnothing]
      rfl
    · rw [if_neg hempty]
      exact insert_spec h (by omega) text

theorem delete_refines (h : Represents s t) (start stop : ℕ) :
    match ContentKind.textArea.delete t start stop with
    | .ok none => s.delete start stop = .ok s
    | .ok (some t') => ∃ s', s.delete start stop = .ok s' ∧ Represents s' t'
    | .error e => s.delete start stop = .error e := by
  have hlength := h.lengthOk
  unfold ContentKind.delete
  dsimp only
  by_cases hback : stop < start
  · rw [if_pos hback, delete, if_pos (by omega)]
    rfl
  · rw [if_neg hback]
    by_cases hout : t.length < stop
    · rw [if_pos hout, delete, if_neg (by omega)]
      exact if_pos (by omega)
    · rw [if_neg hout]
      by_cases hempty : start = stop
      · rw [if_pos hempty, delete, if_neg (by omega)]
        dsimp only
        rw [if_neg (by omega)]
        exact if_pos (by omega)
      · rw [if_neg hempty]
        exact delete_spec h (by omega) (by omega)

end Represents

/-! ## Runs -/

/-- An edit of the content. -/
inductive Edit
  | insert (index : ℤ) (text : Text)
  | delete (start stop : ℤ)

/-- The edit of a plain string. -/
def Edit.apply (t : Text) : Edit → Text
  | .insert index text => splice t index.toNat index.toNat (filterInput text false false)
  | .delete start stop => splice t start.toNat stop.toNat []

/-- The positions are positions of the string. -/
def Edit.Valid (t : Text) : Edit → Prop
  | .insert index _ => 0 ≤ index ∧ index ≤ t.length
  | .delete start stop => 0 ≤ start ∧ start ≤ stop ∧ stop ≤ t.length

instance (t : Text) (e : Edit) : Decidable (e.Valid t) := by
  cases e <;> unfold Edit.Valid <;> infer_instance

def step (s : TextAreaContent) : Edit → Except Exn TextAreaContent
  | .insert index text => s.insert index text
  | .delete start stop => s.delete start stop

/-- A plain string never refuses. -/
def stepText (t : Text) (e : Edit) : Except Exn Text := .ok (e.apply t)

theorem step_represents {s : TextAreaContent} {t : Text} (h : Represents s t) {e : Edit}
    (hvalid : e.Valid t) : ∃ s', step s e = .ok s' ∧ Represents s' (e.apply t) := by
  cases e with
  | insert index text =>
    obtain ⟨hpos, hle⟩ := hvalid
    obtain ⟨index, rfl⟩ := Int.eq_ofNat_of_zero_le hpos
    exact insert_spec h (by omega) text
  | delete start stop =>
    obtain ⟨hpos, hle, hstop⟩ := hvalid
    obtain ⟨start, rfl⟩ := Int.eq_ofNat_of_zero_le hpos
    obtain ⟨stop, rfl⟩ := Int.eq_ofNat_of_zero_le (hpos.trans hle)
    exact delete_spec h (by omega) (by omega)

theorem run_represents (edits : List Edit) : ∀ {s : TextAreaContent} {t : Text},
    Represents s t → Along stepText (fun t e => e.Valid t) t edits →
    ∃ s', run step s edits = .ok s' ∧ Represents s' (edits.foldl Edit.apply t) := by
  induction edits with
  | nil =>
    intro s t h _
    exact ⟨s, rfl, h⟩
  | cons e edits ih =>
    intro s t h hvalid
    obtain ⟨s₁, hs₁, h₁⟩ := step_represents h hvalid.1
    obtain ⟨s', hs', h'⟩ := ih h₁ (hvalid.2 _ rfl)
    exact ⟨s', by rw [run_cons_ok hs₁, hs'], h'⟩

/-- **`TextAreaContent` is a string.** After any edits with valid positions, none of
which throws, the content is the plain string after the same edits: its characters, its
length, its paragraphs, which are the pieces between the newlines, and its substrings. -/
theorem textAreaContent_run_string (edits : List Edit)
    (hvalid : Along stepText (fun t e => e.Valid t) [] edits) :
    ∃ s, run step new edits = .ok s
      ∧ s.getAll = .ok (edits.foldl Edit.apply [])
      ∧ s.length = (edits.foldl Edit.apply []).length
      ∧ s.paragraphs = (edits.foldl Edit.apply []).splitOn newline
      ∧ s.paragraphs ≠ [] ∧ (∀ p ∈ s.paragraphs, newline ∉ p)
      ∧ ∀ start stop : ℤ, 0 ≤ start → start ≤ stop → stop ≤ (edits.foldl Edit.apply []).length →
          s.get start stop = .ok (slice (edits.foldl Edit.apply []) start.toNat stop.toNat) := by
  obtain ⟨s, hs, h⟩ := run_represents edits represents_new hvalid
  generalize edits.foldl Edit.apply [] = t at h ⊢
  have hget : ∀ start stop : ℤ, 0 ≤ start → start ≤ stop → stop ≤ t.length →
      s.get start stop = .ok (slice t start.toNat stop.toNat) := by
    intro start stop hpos hle hstop
    obtain ⟨start, rfl⟩ := Int.eq_ofNat_of_zero_le hpos
    obtain ⟨stop, rfl⟩ := Int.eq_ofNat_of_zero_le (hpos.trans hle)
    exact get_spec h (by omega) (by omega)
  refine ⟨s, hs, ?_, h.lengthOk, h.paragraphs, h.ne_nil, h.plain, hget⟩
  have hall := hget 0 t.length (le_refl _) (by omega) (le_refl _)
  have hslice : slice t (0 : ℤ).toNat (t.length : ℤ).toNat = t := by
    rw [slice, Int.toNat_natCast, List.take_length]
    rfl
  unfold getAll length
  rw [h.lengthOk, hall, hslice]

/-- Three paragraphs, the middle one empty, and a deletion over its borders. -/
theorem textAreaContent_run_string_paragraphs :
    ∃ s, run step new [.insert 0 [97, 98, 10, 99, 100], .insert 2 [10], .delete 1 4] = .ok s
      ∧ s.paragraphs = [[97, 99, 100]] := by
  obtain ⟨s, hs, -, -, hparagraphs, -⟩ := textAreaContent_run_string
    [.insert 0 [97, 98, 10, 99, 100], .insert 2 [10], .delete 1 4] (by decide)
  refine ⟨s, hs, hparagraphs.trans ?_⟩
  decide

end TextAreaContent

end JavaFx.Control
