/-
The text of an expression, and its tokens.

An operand is written as the tokenizer expects it: a number with its digits, a string in
quotes with what it may not hold escaped, a key path with dots and brackets. Where no
character that goes on with it follows, the tokenizer reads it back (`readToken_operand`);
the same for the operators (`readToken_binary`, `readToken_unary`).
-/
import JavaFx.Fxml.Expression
import JavaFx.Lib.Java
import JavaFx.Lib.OperatorStack
import Mathlib.Data.List.TakeWhile

set_option autoImplicit false

namespace JavaFx.Fxml

open JavaFx.Lib

variable {D : Type} {kinds : Code → CharKind} {parseDouble : Str → Option D}

/-! ## Characters -/

theorem kind_ascii {c : Code} (h : c < 160) : kind kinds c = asciiKind c := if_pos h

theorem part_of_digit {c : Code} (h : isDigit kinds c = true) :
    isJavaIdentifierPart kinds c = true := by
  unfold isDigit at h
  unfold isJavaIdentifierPart
  split at h
  · next v hv => rw [hv]
  · cases h

theorem part_of_start {c : Code} (h : isJavaIdentifierStart kinds c = true) :
    isJavaIdentifierPart kinds c = true := by
  rw [isJavaIdentifierStart, beq_iff_eq] at h
  rw [isJavaIdentifierPart, h]

theorem not_digit_of_start {c : Code} (h : isJavaIdentifierStart kinds c = true) :
    isDigit kinds c = false := by
  rw [isJavaIdentifierStart, beq_iff_eq] at h
  rw [isDigit, h]

theorem not_whitespace_of_part {c : Code} (h : isJavaIdentifierPart kinds c = true) :
    isWhitespace kinds c = false := by
  rw [isWhitespace, beq_eq_false_iff_ne]
  intro hw
  rw [isJavaIdentifierPart, hw] at h
  cases h

theorem not_part_of_whitespace {c : Code} (h : isWhitespace kinds c = true) :
    isJavaIdentifierPart kinds c = false := by
  rw [isWhitespace, beq_iff_eq] at h
  rw [isJavaIdentifierPart, h]

theorem asciiKind_digit {c : Code} {v : ℕ} (h : asciiKind c = .digit v) :
    48 ≤ c.val ∧ c.val ≤ 57 := by
  unfold asciiKind at h
  split_ifs at h with h₁ h₂
  simp only [Bool.and_eq_true, decide_eq_true_eq] at h₂
  exact h₂

theorem isISOControl_eq_false {c : Code} (h : 32 ≤ c.val) (h' : c.val < 127 ∨ 160 ≤ c.val) :
    isISOControl c = false := by
  simp only [isISOControl, Bool.or_eq_false_iff, Bool.and_eq_false_iff, decide_eq_false_iff_not,
    Fin.le_def]
  change ¬ c.val ≤ 31 ∧ (¬ 127 ≤ c.val ∨ ¬ c.val ≤ 159)
  omega

theorem not_control_of_digit {c : Code} (h : isDigit kinds c = true) : isISOControl c = false := by
  by_cases hc : c < 160
  · unfold isDigit at h
    split at h
    · next v hv =>
      rw [kind_ascii hc] at hv
      have hrange := asciiKind_digit hv
      exact isISOControl_eq_false (by omega) (.inl (by omega))
    · cases h
  · have hval : 160 ≤ c.val := Nat.not_lt.1 hc
    exact isISOControl_eq_false (by omega) (.inr hval)

theorem kind_digitCode {d : ℕ} (h : d < 10) : kind kinds (digitCode d) = .digit d := by
  have hall : ∀ d : Fin 10, digitCode d < 160 ∧ asciiKind (digitCode d) = .digit d := by decide
  rw [kind_ascii (hall ⟨d, h⟩).1]
  exact (hall ⟨d, h⟩).2

/-- The character that comes next goes on with no operand. -/
def Breaks (kinds : Code → CharKind) (rest : List Code) : Prop :=
  ∀ c ∈ rest.head?, isJavaIdentifierPart kinds c = false ∧ c ≠ ch '.' ∧ c ≠ ch '['

theorem breaks_nil (kinds : Code → CharKind) : Breaks kinds [] := nofun

theorem breaks_of_whitespace {rest : List Code}
    (h : ∀ c ∈ rest.head?, isWhitespace kinds c = true) : Breaks kinds rest := by
  intro c hc
  have hw := h c hc
  refine ⟨not_part_of_whitespace hw, ?_, ?_⟩
  · rintro rfl
    cases (hw : isWhitespace kinds (ch '.') = true)
  · rintro rfl
    cases (hw : isWhitespace kinds (ch '[') = true)

/-- What the characters before it are not. -/
def Stopped (p : Code → Bool) (rest : List Code) : Prop := ∀ c ∈ rest.head?, p c = false

theorem takeWhile_stopped {p : Code → Bool} {l rest : List Code} (hl : ∀ c ∈ l, p c = true)
    (hrest : Stopped p rest) :
    (l ++ rest).takeWhile p = l ∧ (l ++ rest).dropWhile p = rest := by
  have hstop : rest.takeWhile p = [] ∧ rest.dropWhile p = rest := by
    cases rest with
    | nil => exact ⟨rfl, rfl⟩
    | cons c rest =>
      have hc := hrest c rfl
      exact ⟨by simp [hc], by simp [hc]⟩
  rw [List.takeWhile_append_of_pos hl, List.dropWhile_append_of_pos hl, hstop.1, hstop.2]
  exact ⟨List.append_nil l, rfl⟩

/-! ## Key paths -/

/-- An element of a key path, as it is written. -/
inductive Segment
  | name (s : Str)
  | index (s : Str)
  | quoted (quote : Code) (s : Str)

def IsName (kinds : Code → CharKind) (s : Str) : Prop :=
  (∃ c ∈ s.head?, isJavaIdentifierStart kinds c = true) ∧
    ∀ c ∈ s, isJavaIdentifierPart kinds c = true

/-- The quotes of strings and of keys. -/
def IsQuote (c : Code) : Prop := c = ch '"' ∨ c = 0x27

namespace Segment

def key : Segment → Str
  | .name s | .index s | .quoted _ s => s

def Valid (kinds : Code → CharKind) : Segment → Prop
  | .name s => IsName kinds s
  | .index s => s ≠ [] ∧ ∀ c ∈ s, isDigit kinds c = true
  | .quoted q s => IsQuote q ∧ s ≠ [] ∧ ∀ c ∈ s, isISOControl c = false ∧ c ≠ q ∧ c ≠ ch ']'

/-- A key holds anything but control characters and its quote. -/
def Written (kinds : Code → CharKind) : Segment → Prop
  | .name s => IsName kinds s
  | .index s => s ≠ [] ∧ ∀ c ∈ s, isDigit kinds c = true
  | .quoted q s => IsQuote q ∧ ∀ c ∈ s, isISOControl c = false ∧ c ≠ q

/-- What the reader of key paths takes: a key may hold a `]`, but only as its first
character. -/
def Readable (kinds : Code → CharKind) : Segment → Prop
  | .name s => IsName kinds s
  | .index s => s ≠ [] ∧ ∀ c ∈ s, isDigit kinds c = true
  | .quoted q s => IsQuote q ∧ s ≠ [] ∧ (∀ c ∈ s, isISOControl c = false ∧ c ≠ q) ∧
      ∀ c ∈ s.tail, c ≠ ch ']'

theorem Readable.written {s : Segment} (h : s.Readable kinds) : s.Written kinds := by
  cases s with
  | name s => exact h
  | index s => exact h
  | quoted q s => exact ⟨h.1, h.2.2.1⟩

theorem Valid.readable {s : Segment} (h : s.Valid kinds) : s.Readable kinds := by
  cases s with
  | name s => exact h
  | index s => exact h
  | quoted q s =>
    obtain ⟨hquote, hne, hchars⟩ := h
    exact ⟨hquote, hne, fun c hc => ⟨(hchars c hc).1, (hchars c hc).2.1⟩,
      fun c hc => (hchars c (List.mem_of_mem_tail hc)).2.2⟩

/-- The text of an element without the dot before it. -/
def text : Segment → Str
  | .name s => s
  | .index s => ch '[' :: s ++ [ch ']']
  | .quoted q s => ch '[' :: q :: s ++ [q, ch ']']

def isName : Segment → Bool
  | .name _ => true
  | _ => false

/-- The text of the elements after another one. -/
def textAfter (segments : List Segment) : Str :=
  segments.flatMap fun s => if s.isName then ch '.' :: s.text else s.text

/-- The text of the elements at the start of a path. -/
def textOf : List Segment → Str
  | [] => []
  | s :: segments => s.text ++ textAfter segments

end Segment

theorem IsName.ne_nil {s : Str} (h : IsName kinds s) : s ≠ [] := by
  obtain ⟨⟨c, hc, -⟩, -⟩ := h
  rintro rfl
  cases hc

theorem Segment.Readable.key_ne_nil {s : Segment} (h : s.Readable kinds) : s.key ≠ [] := by
  cases s with
  | name s => exact IsName.ne_nil h
  | index s => exact h.1
  | quoted q s => exact h.2.1

namespace KeyPath

/-- The digits of an index. -/
theorem readBracketed_index {s : Str} (key rest : Str) (hs : ∀ c ∈ s, isDigit kinds c = true)
    (hne : s ≠ []) :
    readBracketed kinds none (s ++ ch ']' :: rest) key = .ok (key ++ s, rest) := by
  induction s generalizing key with
  | nil => exact absurd rfl hne
  | cons c s ih =>
    have hc := hs c List.mem_cons_self
    have hs' : ∀ c ∈ s, isDigit kinds c = true := fun d hd => hs d (List.mem_cons_of_mem _ hd)
    cases s with
    | nil =>
      rw [List.singleton_append, readBracketed.eq_def]
      simp [not_control_of_digit hc, hc]
    | cons d s =>
      have hd : d ≠ ch ']' := by
        rintro rfl
        have hfalse : isDigit kinds (ch ']') = false := rfl
        rw [hs' _ List.mem_cons_self] at hfalse
        cases hfalse
      rw [List.cons_append, readBracketed.eq_def]
      simp only [not_control_of_digit hc, hc, Bool.false_eq_true, if_false, Option.isNone_none, Bool.not_true,
        Bool.and_false, List.cons_append, reduceCtorEq, hd]
      rw [← List.cons_append, ih _ hs' (List.cons_ne_nil _ _), List.append_assoc]
      rfl

variable (kinds) in
/-- A key in quotes. -/
theorem readBracketed_quoted {q : Code} {s : Str} (key rest : Str)
    (hs : ∀ c ∈ s, isISOControl c = false ∧ c ≠ q) (htail : ∀ c ∈ s.tail, c ≠ ch ']')
    (hne : s ≠ []) :
    readBracketed kinds (some q) (s ++ q :: ch ']' :: rest) key = .ok (key ++ s, rest) := by
  induction s generalizing key with
  | nil => exact absurd rfl hne
  | cons c s ih =>
    have hc := hs c List.mem_cons_self
    have hs' : ∀ c ∈ s, isISOControl c = false ∧ c ≠ q :=
      fun d hd => hs d (List.mem_cons_of_mem _ hd)
    cases s with
    | nil =>
      rw [List.singleton_append, readBracketed.eq_def]
      simp [hc.1]
    | cons d s =>
      have hd := hs' d List.mem_cons_self
      have hbracket : d ≠ ch ']' := htail d List.mem_cons_self
      have hq : some q ≠ some d := fun h => hd.2 (Option.some.inj h).symm
      rw [List.cons_append, readBracketed.eq_def]
      simp only [hc.1, Bool.false_eq_true, if_false, Option.isNone_some, Bool.false_and,
        List.cons_append, hq, hbracket]
      rw [← List.cons_append, ih _ hs' (fun e he => htail e (List.mem_of_mem_tail he))
        (List.cons_ne_nil _ _), List.append_assoc]
      rfl

theorem readElement_segment {s : Segment} (hs : s.Readable kinds) {rest : List Code}
    (hrest : Stopped (isNamePart kinds) rest) :
    readElement kinds (s.text ++ rest) = .ok (s.key, rest) := by
  cases s with
  | name s =>
    obtain ⟨hstart, hpart⟩ := hs
    have hall : ∀ c ∈ s, isNamePart kinds c = true := by
      intro c hc
      have hp := hpart c hc
      have hdot : c ≠ ch '.' := by
        rintro rfl
        cases (hp : isJavaIdentifierPart kinds (ch '.') = true)
      have hbracket : c ≠ ch '[' := by
        rintro rfl
        cases (hp : isJavaIdentifierPart kinds (ch '[') = true)
      simp [isNamePart, hp, hdot, hbracket]
    obtain ⟨htake, hdrop⟩ := takeWhile_stopped hall hrest
    cases s with
    | nil => exact absurd rfl (IsName.ne_nil ⟨hstart, hpart⟩)
    | cons c s =>
      have hc := hall c List.mem_cons_self
      simp only [isNamePart, Bool.and_eq_true, bne_iff_ne] at hc
      simp only [Segment.text, Segment.key, List.cons_append, readElement, if_neg hc.1.2]
      exact congrArg Except.ok (Prod.ext htake hdrop)
  | index s =>
    obtain ⟨hne, hdigit⟩ := hs
    cases s with
    | nil => exact absurd rfl hne
    | cons c s =>
      have hc := hdigit c List.mem_cons_self
      have hq : (decide (c = ch '"') || decide (c = 0x27)) = false := by
        simp only [Bool.or_eq_false_iff, decide_eq_false_iff_not]
        constructor
        · rintro rfl
          cases (hc : isDigit kinds (ch '"') = true)
        · rintro rfl
          cases (hc : isDigit kinds 0x27 = true)
      have hread := readBracketed_index [] rest hdigit hne
      simp only [Segment.text, Segment.key, List.cons_append, List.append_assoc,
        List.nil_append, readElement, if_pos, hq, Bool.false_eq_true, if_false]
      exact hread
  | quoted q s =>
    obtain ⟨hquote, hne, hchars, htail⟩ := hs
    have hq : (decide (q = ch '"') || decide (q = 0x27)) = true := by
      simpa [IsQuote] using hquote
    have hread := readBracketed_quoted kinds [] rest hchars htail hne
    simp only [Segment.text, Segment.key, List.cons_append, List.append_assoc,
      List.nil_append, readElement, if_pos, hq]
    exact hread

/-- What follows an element ends it. -/
theorem stopped_textAfter (segments : List Segment) {rest : List Code} (hrest : Breaks kinds rest) :
    Stopped (isNamePart kinds) (Segment.textAfter segments ++ rest) := by
  intro c hc
  cases segments with
  | nil =>
    have hbreak := hrest c hc
    simp [isNamePart, hbreak.1]
  | cons s segments =>
    cases s with
    | name s =>
      cases hc
      rfl
    | index s =>
      cases hc
      rfl
    | quoted q s =>
      cases hc
      rfl

theorem readDot_textAfter {segments : List Segment} (hs : ∀ s ∈ segments, s.Written kinds)
    {rest : List Code} (hrest : Breaks kinds rest) :
    readDot (Segment.textAfter segments ++ rest) = .ok (Segment.textOf segments ++ rest) := by
  cases segments with
  | nil =>
    cases rest with
    | nil => rfl
    | cons c rest =>
      have hdot := (hrest c rfl).2.1
      simp [Segment.textAfter, Segment.textOf, readDot, hdot]
  | cons s segments =>
    cases s with
    | name s =>
      have hne := IsName.ne_nil (hs _ List.mem_cons_self)
      simp [Segment.textAfter, Segment.textOf, Segment.isName, Segment.text, readDot, hne]
    | index s => rfl
    | quoted q s => rfl

/-- An element starts as the loop expects it. -/
theorem text_starts {s : Segment} (hs : s.Written kinds) :
    ∃ c cs, s.text = c :: cs ∧ (isJavaIdentifierStart kinds c || decide (c = ch '[')) = true := by
  cases s with
  | name s =>
    obtain ⟨⟨c, hc, hstart⟩, -⟩ := hs
    cases s with
    | nil => cases hc
    | cons d s =>
      cases hc
      exact ⟨c, s, rfl, by simp [hstart]⟩
  | index s => exact ⟨_, _, rfl, by simp⟩
  | quoted q s => exact ⟨_, _, rfl, by simp⟩

theorem readElements_segments {segments : List Segment} (hs : ∀ s ∈ segments, s.Readable kinds)
    {rest : List Code} (hrest : Breaks kinds rest) {fuel : ℕ} (hfuel : segments.length ≤ fuel)
    (elements : List Str) :
    readElements kinds fuel (Segment.textOf segments ++ rest) elements
      = .ok (elements ++ segments.map Segment.key, rest) := by
  induction segments generalizing fuel elements with
  | nil =>
    -- nothing that starts an element comes next
    cases fuel with
    | zero => simp [Segment.textOf, readElements]
    | succ fuel =>
      cases rest with
      | nil => simp [Segment.textOf, readElements]
      | cons c rest =>
        obtain ⟨hpart, -, hbracket⟩ := hrest c rfl
        have hstart : isJavaIdentifierStart kinds c = false := by
          by_contra h
          rw [part_of_start (by simpa using h)] at hpart
          cases hpart
        simp [Segment.textOf, readElements, hstart, hbracket]
  | cons s segments ih =>
    have hvalid := hs s List.mem_cons_self
    have hs' : ∀ s ∈ segments, s.Readable kinds := fun t ht => hs t (List.mem_cons_of_mem _ ht)
    obtain ⟨c, cs, htext, hstart⟩ := text_starts hvalid.written
    cases fuel with
    | zero => simp at hfuel
    | succ fuel =>
      have hread := readElement_segment hvalid (stopped_textAfter segments hrest)
      rw [htext] at hread
      simp only [List.cons_append] at hread
      have hhead : Segment.textOf (s :: segments) ++ rest
          = c :: (cs ++ (Segment.textAfter segments ++ rest)) := by
        simp [Segment.textOf, htext]
      rw [hhead, readElements, if_pos hstart, hread, ok_bind]
      simp only
      rw [readDot_textAfter (fun t ht => (hs' t ht).written) hrest, ok_bind]
      rw [if_neg hvalid.key_ne_nil, ih hs' (Nat.le_of_succ_le_succ hfuel), List.map_cons,
        List.append_assoc]
      rfl

/-- Every element takes a character. -/
theorem length_le_textOf {segments : List Segment} (hs : ∀ s ∈ segments, s.Written kinds)
    (rest : List Code) : segments.length ≤ (Segment.textOf segments ++ rest).length := by
  have hlength : ∀ ts : List Segment, (∀ t ∈ ts, t.Written kinds) →
      ts.length ≤ (Segment.textAfter ts).length := by
    intro ts hts
    induction ts with
    | nil => exact Nat.le_refl _
    | cons t ts ih =>
      have hle := ih (fun u hu => hts u (List.mem_cons_of_mem _ hu))
      obtain ⟨c, cs, htext, -⟩ := text_starts (hts t List.mem_cons_self)
      cases hname : t.isName <;> simp [Segment.textAfter, hname, htext] at hle ⊢ <;> omega
  cases segments with
  | nil => exact Nat.zero_le _
  | cons s segments =>
    have hle := hlength segments (fun t ht => hs t (List.mem_cons_of_mem _ ht))
    obtain ⟨c, cs, htext, -⟩ := text_starts (hs s List.mem_cons_self)
    simp only [Segment.textOf, htext, List.length_append, List.length_cons]
    omega

/-- The text of a key path. -/
theorem parse_textOf {s : Segment} {segments : List Segment}
    (hs : ∀ t ∈ s :: segments, t.Readable kinds) {rest : List Code} (hrest : Breaks kinds rest) :
    parse kinds (Segment.textOf (s :: segments) ++ rest)
      = .ok ((s :: segments).map Segment.key, rest) := by
  have hfuel := length_le_textOf (fun t ht => (hs t ht).written) rest
  rw [parse, readElements_segments hs hrest hfuel, ok_bind]
  simp

end KeyPath

/-! ## Literals -/

theorem hexDigit_hexCode {d : ℕ} (h : d < 16) : hexDigit kinds (hexCode d) = some d := by
  have hall : ∀ d : Fin 16, hexCode d < 160 ∧
      (if d.val < 10 then asciiKind (hexCode d) = .digit d
        else asciiKind (hexCode d) = .letter ∧
          (ch 'a' ≤ hexCode d && hexCode d ≤ ch 'f') = false ∧
          (ch 'A' ≤ hexCode d && hexCode d ≤ ch 'F') = true ∧ (hexCode d).val - 55 = d) := by
    decide
  obtain ⟨hascii, hkind⟩ := hall ⟨d, h⟩
  rw [hexDigit, kind_ascii hascii]
  split at hkind
  · rw [hkind]
  · simp only [hkind.1, hkind.2.1, hkind.2.2.1, hkind.2.2.2, Bool.false_eq_true, if_false, if_true]

variable (kinds) in
theorem parseHex_hex4 (c : Code) : parseHex kinds (hex4 c) = .ok c := by
  have hsign : ∀ d : Fin 16, hexCode d ≠ ch '-' ∧ hexCode d ≠ ch '+' := by decide
  have hd : ∀ d ∈ hexDigits c, d < 16 := fun d => hexDigits_lt
  have hfirst : c.val / 4096 < 16 := hd _ (by simp [hexDigits])
  have hhead := hsign ⟨_, hfirst⟩
  have hmap : (hex4 c).mapM (hexDigit kinds) = some (hexDigits c) := by
    have hall : ∀ ds : List ℕ, (∀ d ∈ ds, d < 16) →
        (ds.map hexCode).mapM (hexDigit kinds) = some ds := by
      intro ds hds
      induction ds with
      | nil => rfl
      | cons d ds ih =>
        rw [List.map_cons, List.mapM_cons, hexDigit_hexCode (hds d List.mem_cons_self),
          ih (fun e he => hds e (List.mem_cons_of_mem _ he))]
        rfl
    exact hall _ hd
  have hminus : ((hex4 c).head? = some (ch '-')) = False := by
    simpa [hex4, hexDigits] using hhead.1
  have hplus : ((hex4 c).head? = some (ch '+')) = False := by
    simpa [hex4, hexDigits] using hhead.2
  have hne : hex4 c ≠ [] := by simp [hex4, hexDigits]
  simp only [parseHex, hminus, hplus, decide_false, Bool.or_self, Bool.false_eq_true, if_false,
    hmap, hne, ofDigits_hex4]
  exact congrArg Except.ok (Fin.ofNat_val_eq_self c)

/-- A character of a string that ends with `t`, as it is written. -/
def escape (t c : Code) : Str :=
  if c = t ∨ c = ch '\\' then [ch '\\', c]
  else if isISOControl c then ch '\\' :: ch 'u' :: hex4 c
  else [c]

theorem readString_escape {t : Code} (ht : IsQuote t) (c : Code) (cs : List Code) (val : Str) :
    readString kinds t (escape t c ++ cs) val = readString kinds t cs (val ++ [c]) := by
  have hbackslash : ch '\\' ≠ t ∧ isISOControl (ch '\\') = false := by
    rcases ht with rfl | rfl <;> exact ⟨by decide, rfl⟩
  rw [escape]
  split_ifs with hc hcontrol
  · -- a quote or a backslash
    have hother : escaped c = none ∧ c ≠ ch 'u' ∧
        (decide (c = ch '\\') || decide (c = ch '/') || decide (c = ch '"') ||
          decide (c = 0x27) || decide (c = t)) = true := by
      rcases hc with rfl | rfl
      · rcases ht with rfl | rfl <;> exact ⟨by decide, by decide, by decide⟩
      · exact ⟨by decide, by decide, by simp⟩
    rw [List.cons_append, List.singleton_append, readString.eq_def]
    simp only [if_neg hbackslash.1, hbackslash.2, Bool.false_eq_true, if_false, if_true, hother.1,
      if_neg hother.2.1]
    rw [if_pos hother.2.2]
  · -- a control character
    have hhex := parseHex_hex4 kinds c
    simp only [hex4, hexDigits, List.map_cons, List.map_nil] at hhex ⊢
    rw [List.cons_append, readString.eq_def]
    simp only [List.cons_append, List.nil_append, if_neg hbackslash.1, hbackslash.2,
      Bool.false_eq_true, if_false, if_true, hhex]
    rfl
  · simp only [not_or] at hc
    rw [List.singleton_append, readString.eq_def]
    simp only [if_neg hc.1, hcontrol, Bool.false_eq_true, if_false, if_neg hc.2]

variable (kinds) in
theorem readString_text {t : Code} (ht : IsQuote t) (s : Str) (rest : List Code) (val : Str) :
    readString kinds t (s.flatMap (escape t) ++ t :: rest) val = .ok (val ++ s, rest) := by
  induction s generalizing val with
  | nil =>
    rw [List.flatMap_nil, List.nil_append, readString.eq_def]
    simp
  | cons c s ih =>
    rw [List.flatMap_cons, List.append_assoc, readString_escape ht, ih, List.append_assoc]
    rfl

/-! ## Operands -/

/-- A number, a string or a key path of an expression, with what its text does not follow
from. -/
inductive Operand (D : Type)
  | long (n : ℕ)
  | double (text : Str) (d : D)
  | string (quote : Code) (s : Str)
  | path (first : Str) (rest : List Segment)

namespace Operand

def text : Operand D → Str
  | .long n => decimal n
  | .double text _ => text
  | .string quote s => quote :: s.flatMap (escape quote) ++ [quote]
  | .path first rest => Segment.textOf (.name first :: rest)

def token : Operand D → Token D
  | .long n => .LITERAL (.long n)
  | .double _ d => .LITERAL (.double d)
  | .string _ s => .LITERAL (.string s)
  | .path first rest => .VARIABLE (first :: rest.map Segment.key)

def expression : Operand D → Expression D
  | .long n => .LiteralExpression (.long n)
  | .double _ d => .LiteralExpression (.double d)
  | .string _ s => .LiteralExpression (.string s)
  | .path first rest => .VariableExpression (first :: rest.map Segment.key)

/-- A `long` is in its range; a `double` is written with digits, with a point and perhaps
with an exponent without a sign; a key path starts with none of `n`, `t` and `f`. -/
def Valid (kinds : Code → CharKind) (parseDouble : Str → Option D) : Operand D → Prop
  | .long n => n ≤ LONG_MAX_VALUE
  | .double text d => parseDouble text = some d ∧ ch '.' ∈ text ∧
      (∀ c ∈ text, isNumberPart kinds c = true) ∧ ∃ c ∈ text.head?, isDigit kinds c = true
  | .string quote _ => IsQuote quote
  | .path first rest => IsName kinds first ∧ (∀ s ∈ rest, s.Valid kinds) ∧
      ∀ c ∈ first.head?, c ≠ ch 'n' ∧ c ≠ ch 't' ∧ c ≠ ch 'f'

end Operand

/-- A number ends where nothing that goes on with it follows. -/
theorem Breaks.stopped_number {rest : List Code} (h : Breaks kinds rest) :
    Stopped (isNumberPart kinds) rest := by
  intro c hc
  obtain ⟨hpart, hdot, -⟩ := h c hc
  have hdigit : isDigit kinds c = false := by
    by_contra hd
    rw [part_of_digit (by simpa using hd)] at hpart
    cases hpart
  have he : c ≠ ch 'e' := by
    rintro rfl
    cases (hpart : isJavaIdentifierPart kinds (ch 'e') = false)
  have hE : c ≠ ch 'E' := by
    rintro rfl
    cases (hpart : isJavaIdentifierPart kinds (ch 'E') = false)
  simp [isNumberPart, hdigit, hdot, he, hE]

theorem parseLong_decimal {n : ℕ} (h : n ≤ LONG_MAX_VALUE) :
    parseLong kinds (decimal n) = some n := by
  have hmap : (decimal n).mapM (decimalDigit kinds) = some (decimalDigits n) := by
    have hall : ∀ ds : List ℕ, (∀ d ∈ ds, d < 10) →
        (ds.map digitCode).mapM (decimalDigit kinds) = some ds := by
      intro ds hds
      induction ds with
      | nil => rfl
      | cons d ds ih =>
        rw [List.map_cons, List.mapM_cons, decimalDigit,
          kind_digitCode (hds d List.mem_cons_self),
          ih (fun e he => hds e (List.mem_cons_of_mem _ he))]
        rfl
    exact hall _ (fun d => decimalDigits_lt)
  have hne : decimal n ≠ [] := by simp [decimal, decimalDigits_ne_nil]
  simp [parseLong, hmap, hne, ofDigits_decimal, h]

theorem isDigit_digitCode {d : ℕ} (h : d < 10) : isDigit kinds (digitCode d) = true := by
  rw [isDigit, kind_digitCode h]

/-- What the first character of a number decides. -/
theorem readToken_digit {c : Code} (h : isDigit kinds c = true) (unary : Bool)
    (buffer cs : List Code) :
    readToken kinds parseDouble unary buffer c cs
      = (do
        let (value, cs) ← readNumber kinds parseDouble (c :: cs)
        .ok (.LITERAL value, cs, buffer)) := by
  have hn : c ≠ ch 'n' := by
    rintro rfl
    cases (h : isDigit kinds (ch 'n') = true)
  have hq : c ≠ ch '"' := by
    rintro rfl
    cases (h : isDigit kinds (ch '"') = true)
  have hq' : c ≠ 0x27 := by
    rintro rfl
    cases (h : isDigit kinds 0x27 = true)
  simp only [readToken, if_neg hn, hq, hq', decide_false, Bool.or_self, Bool.false_eq_true,
    if_false, h, if_true]

/-- **An operand** is read back where no character goes on with it. -/
theorem readToken_operand {o : Operand D} (ho : o.Valid kinds parseDouble) {rest : List Code}
    (hrest : Breaks kinds rest) (unary : Bool) (buffer : List Code) :
    ∃ c cs, o.text ++ rest = c :: cs ∧ isWhitespace kinds c = false ∧ c ≠ ch '=' ∧
      readToken kinds parseDouble unary buffer c cs = .ok (o.token, rest, buffer) := by
  -- what holds of a first character that an identifier can have
  have hfirst : ∀ c, isJavaIdentifierPart kinds c = true →
      isWhitespace kinds c = false ∧ c ≠ ch '=' := by
    intro c hc
    refine ⟨not_whitespace_of_part hc, ?_⟩
    rintro rfl
    cases (hc : isJavaIdentifierPart kinds (ch '=') = true)
  cases o with
  | long n =>
    have hdigits : ∀ c ∈ decimal n, isDigit kinds c = true := by
      intro c hc
      obtain ⟨d, hd, rfl⟩ := List.mem_map.1 hc
      exact isDigit_digitCode (decimalDigits_lt hd)
    have hparts : ∀ c ∈ decimal n, isNumberPart kinds c = true := by
      intro c hc
      simp [isNumberPart, hdigits c hc]
    obtain ⟨htake, hdrop⟩ := takeWhile_stopped hparts hrest.stopped_number
    have hdot : ch '.' ∉ decimal n := by
      intro hmem
      cases (hdigits _ hmem : isDigit kinds (ch '.') = true)
    have hread : readNumber kinds parseDouble (decimal n ++ rest) = .ok (.long n, rest) := by
      simp only [readNumber, htake, hdrop, if_neg hdot, parseLong_decimal ho, Option.map_some]
    cases htext : decimal n with
    | nil => simp [decimal, decimalDigits_ne_nil] at htext
    | cons c cs =>
      rw [htext] at hdigits hread
      have hc := hdigits c List.mem_cons_self
      refine ⟨c, cs ++ rest, ?_, (hfirst c (part_of_digit hc)).1,
        (hfirst c (part_of_digit hc)).2, ?_⟩
      · rw [Operand.text, htext, List.cons_append]
      · rw [readToken_digit hc, ← List.cons_append, hread]
        rfl
  | double text d =>
    obtain ⟨hparse, hdot, hparts, c, hc, hdigit⟩ := ho
    obtain ⟨htake, hdrop⟩ := takeWhile_stopped hparts hrest.stopped_number
    have hread : readNumber kinds parseDouble (text ++ rest) = .ok (.double d, rest) := by
      simp only [readNumber, htake, hdrop, if_pos hdot, hparse, Option.map_some]
    cases text with
    | nil => cases hc
    | cons c' cs =>
      cases hc
      refine ⟨c, cs ++ rest, rfl, (hfirst c (part_of_digit hdigit)).1,
        (hfirst c (part_of_digit hdigit)).2, ?_⟩
      rw [readToken_digit hdigit, ← List.cons_append, hread]
      rfl
  | string quote s =>
    have hread := readString_text kinds ho s rest []
    refine ⟨quote, s.flatMap (escape quote) ++ quote :: rest, ?_, ?_, ?_, ?_⟩
    · simp [Operand.text]
    · rcases ho with rfl | rfl <;> rfl
    · rcases ho with rfl | rfl <;> decide
    · have hquote : quote ≠ ch 'n' ∧
          (decide (quote = ch '"') || decide (quote = 0x27)) = true := by
        rcases ho with rfl | rfl <;> decide
      simp only [readToken, if_neg hquote.1, hquote.2, if_true, hread, List.nil_append]
      rfl
  | path first segments =>
    obtain ⟨hname, hsegments, hother⟩ := ho
    have hall : ∀ t ∈ .name first :: segments, Segment.Readable kinds t := by
      intro t ht
      rcases List.mem_cons.1 ht with rfl | ht
      · exact hname
      · exact (hsegments t ht).readable
    have hread := KeyPath.parse_textOf hall hrest
    obtain ⟨⟨c, hc, hstart⟩, -⟩ := id hname
    cases first with
    | nil => cases hc
    | cons c' cs =>
      cases hc
      obtain ⟨hn, ht, hf⟩ := hother c rfl
      have hpart := part_of_start hstart
      have hq : (decide (c = ch '"') || decide (c = 0x27)) = false := by
        simp only [Bool.or_eq_false_iff, decide_eq_false_iff_not]
        constructor
        · rintro rfl
          cases (hstart : isJavaIdentifierStart kinds (ch '"') = true)
        · rintro rfl
          cases (hstart : isJavaIdentifierStart kinds 0x27 = true)
      refine ⟨c, cs ++ (Segment.textAfter segments ++ rest), ?_, (hfirst c hpart).1,
        (hfirst c hpart).2, ?_⟩
      · simp [Operand.text, Segment.textOf, Segment.text]
      · have htext : Segment.textOf (.name (c :: cs) :: segments) ++ rest
            = c :: (cs ++ (Segment.textAfter segments ++ rest)) := by
          simp [Segment.textOf, Segment.text]
        rw [htext] at hread
        simp only [readToken, if_neg hn, hq, Bool.false_eq_true, if_false,
          not_digit_of_start hstart, if_neg ht, if_neg hf, hstart, if_true, readVariable, hread]
        rfl

/-! ## Operators -/

abbrev UnaryOperator := { o : Operator // o.isUnary = true }

abbrev BinaryOperator := { o : Operator // o.isUnary = false }

def Operator.text : Operator → Str
  | .NEGATE => [ch '-']
  | .NOT => [ch '!']
  | .MULTIPLY => [ch '*']
  | .DIVIDE => [ch '/']
  | .MODULO => [ch '%']
  | .ADD => [ch '+']
  | .SUBTRACT => [ch '-']
  | .GREATER_THAN => [ch '>']
  | .GREATER_THAN_OR_EQUAL_TO => [ch '>', ch '=']
  | .LESS_THAN => [ch '<']
  | .LESS_THAN_OR_EQUAL_TO => [ch '<', ch '=']
  | .EQUAL_TO => [ch '=', ch '=']
  | .NOT_EQUAL_TO => [ch '!', ch '=']
  | .AND => [ch '&', ch '&']
  | .OR => [ch '|', ch '|']

/-- No operator goes on with an operand. -/
theorem breaks_binary (b : BinaryOperator) (rest : List Code) :
    Breaks kinds (b.1.text ++ rest) := by
  obtain ⟨o, ho⟩ := b
  intro c hc
  cases o with
  | NEGATE | NOT => cases ho
  | _ =>
    cases hc
    exact ⟨rfl, by decide⟩

/-- A piece of the text of an expression. -/
abbrev Lexeme (D : Type) := Infix.Lexeme (Operand D) UnaryOperator BinaryOperator

namespace Lexeme

def text : Lexeme D → Str
  | .operand o => o.text
  | .unary u => u.1.text
  | .binary b => b.1.text
  | .opening => [ch '(']
  | .closing => [ch ')']

def token : Lexeme D → Token D
  | .operand o => o.token
  | .unary u => .UNARY_OPERATOR u.1
  | .binary b => .BINARY_OPERATOR b.1
  | .opening => .BEGIN_GROUP
  | .closing => .END_GROUP

end Lexeme

/-- What is no operand is an operator or a parenthesis. -/
theorem readToken_other {c : Code} (hascii : c < 160) (h : asciiKind c = .other)
    (hq : c ≠ ch '"' ∧ c ≠ 0x27) (unary : Bool) (buffer cs : List Code) :
    readToken kinds parseDouble unary buffer c cs
      = (do
        let (token, cs) ← readOperator unary c cs
        .ok (token, cs, buffer)) := by
  have hn : c ≠ ch 'n' := by
    rintro rfl
    cases h
  have ht : c ≠ ch 't' := by
    rintro rfl
    cases h
  have hf : c ≠ ch 'f' := by
    rintro rfl
    cases h
  have hkind : kind kinds c = .other := (kind_ascii hascii).trans h
  have hdigit : isDigit kinds c = false := by rw [isDigit, hkind]
  have hstart : isJavaIdentifierStart kinds c = false := by rw [isJavaIdentifierStart, hkind]; rfl
  simp only [readToken, if_neg hn, hq.1, hq.2, decide_false, Bool.or_self, Bool.false_eq_true,
    if_false, hdigit, if_neg ht, if_neg hf, hstart]

variable (kinds parseDouble) in
theorem readToken_unary (u : UnaryOperator) (rest buffer : List Code) :
    ∃ c cs, u.1.text ++ rest = c :: cs ∧ isWhitespace kinds c = false ∧ c ≠ ch '=' ∧
      readToken kinds parseDouble true buffer c cs = .ok (.UNARY_OPERATOR u.1, rest, buffer) := by
  obtain ⟨o, ho⟩ := u
  cases o with
  | NEGATE =>
    refine ⟨ch '-', rest, rfl, rfl, by decide, ?_⟩
    rw [readToken_other (by decide) rfl (by decide)]
    rfl
  | NOT =>
    refine ⟨ch '!', rest, rfl, rfl, by decide, ?_⟩
    rw [readToken_other (by decide) rfl (by decide)]
    rfl
  | _ => cases ho

theorem readToken_opening (rest buffer : List Code) :
    readToken kinds parseDouble true buffer (ch '(') rest = .ok (.BEGIN_GROUP, rest, buffer) := by
  rw [readToken_other (by decide) rfl (by decide)]
  rfl

theorem readToken_closing (rest buffer : List Code) :
    readToken kinds parseDouble false buffer (ch ')') rest = .ok (.END_GROUP, rest, buffer) := by
  rw [readToken_other (by decide) rfl (by decide)]
  rfl

/-- A comparison without the equality is not followed by an equality sign. -/
theorem readOperator_comparison {D : Type} (rest : List Code) (hrest : ∀ c ∈ rest.head?, c ≠ ch '=') :
    readOperator (D := D) false (ch '>') rest = .ok (.BINARY_OPERATOR .GREATER_THAN, rest) ∧
      readOperator (D := D) false (ch '<') rest = .ok (.BINARY_OPERATOR .LESS_THAN, rest) := by
  cases rest with
  | nil => exact ⟨rfl, rfl⟩
  | cons c rest =>
    have hc := hrest c rfl
    constructor
    · change (if c = ch '=' then _ else _) = _
      rw [if_neg hc]
    · change (if c = ch '=' then _ else _) = _
      rw [if_neg hc]

variable (parseDouble) in
/-- **A binary operator** is read back where no equality sign follows. -/
theorem readToken_binary (b : BinaryOperator) {rest : List Code}
    (hrest : ∀ c ∈ rest.head?, c ≠ ch '=') (buffer : List Code) :
    ∃ c cs, b.1.text ++ rest = c :: cs ∧ isWhitespace kinds c = false ∧
      readToken kinds parseDouble false buffer c cs = .ok (.BINARY_OPERATOR b.1, rest, buffer) := by
  obtain ⟨hgreater, hless⟩ := readOperator_comparison (D := D) rest hrest
  obtain ⟨o, ho⟩ := b
  cases o with
  | NEGATE | NOT => cases ho
  | GREATER_THAN =>
    refine ⟨ch '>', rest, rfl, rfl, ?_⟩
    rw [readToken_other (by decide) rfl (by decide), hgreater]
    rfl
  | LESS_THAN =>
    refine ⟨ch '<', rest, rfl, rfl, ?_⟩
    rw [readToken_other (by decide) rfl (by decide), hless]
    rfl
  | _ =>
    refine ⟨_, _, rfl, rfl, ?_⟩
    rw [readToken_other (by decide) rfl (by decide)]
    rfl

end JavaFx.Fxml
