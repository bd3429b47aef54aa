/-
Which key paths the tokenizer reads as variables.

A keyword is taken wherever its characters come, also at the start of a longer identifier. If
the text ends within one, one character too many is pushed back, which is read as a part of the
identifier. And a key in quotes may not be empty, nor hold a `]` behind its first character.
All other key paths are read, alone and before an operator (`valueOf_variable_iff`).
-/
import JavaFx.Fxml.ExpressionText

set_option autoImplicit false

namespace JavaFx.Fxml

open JavaFx.Lib

variable {D : Type} {kinds : Code → CharKind} {parseDouble : Str → Option D}

/-! ## Keywords -/

inductive Keyword
  | null
  | true
  | false

namespace Keyword

def text : Keyword → Str
  | .null => lit "null"
  | .true => lit "true"
  | .false => lit "false"

def value : Keyword → Literal D
  | .null => .null
  | .true => .boolean Bool.true
  | .false => .boolean Bool.false

/-- The keyword that a token is taken for by its first character. -/
def ofFirst (c : Code) : Option Keyword :=
  if c = ch 'n' then some .null else if c = ch 't' then some .true
  else if c = ch 'f' then some .false else none

theorem letter (k : Keyword) :
    ∀ c ∈ k.text, c < 160 ∧ asciiKind c = .letter ∧ c ≠ ch '.' ∧ c ≠ ch '[' := by
  have hmem : ∀ c ∈ k.text, c = ch 'n' ∨ c = ch 'u' ∨ c = ch 'l' ∨ c = ch 't' ∨ c = ch 'r'
      ∨ c = ch 'e' ∨ c = ch 'f' ∨ c = ch 'a' ∨ c = ch 's' := by
    have hnull : Keyword.null.text = [ch 'n', ch 'u', ch 'l', ch 'l'] := rfl
    have htrue : Keyword.true.text = [ch 't', ch 'r', ch 'u', ch 'e'] := rfl
    have hfalse : Keyword.false.text = [ch 'f', ch 'a', ch 'l', ch 's', ch 'e'] := rfl
    intro c hc
    cases k <;> simp only [hnull, htrue, hfalse, List.mem_cons, List.not_mem_nil, or_false] at hc <;>
      tauto
  intro c hc
  rcases hmem c hc with rfl | rfl | rfl | rfl | rfl | rfl | rfl | rfl | rfl <;>
    exact ⟨by decide, rfl, by decide, by decide⟩

theorem start (k : Keyword) : ∀ c ∈ k.text, isJavaIdentifierStart kinds c = Bool.true := by
  intro c hc
  obtain ⟨hlt, hletter, -⟩ := k.letter c hc
  rw [isJavaIdentifierStart, kind_ascii hlt, hletter]
  rfl

theorem namePart (k : Keyword) : ∀ c ∈ k.text, KeyPath.isNamePart kinds c = Bool.true := by
  intro c hc
  obtain ⟨-, -, hdot, hbracket⟩ := k.letter c hc
  simp [KeyPath.isNamePart, part_of_start (k.start c hc), hdot, hbracket]

theorem length_text_le (k : Keyword) : k.text.length < 6 := by
  cases k <;> decide

end Keyword

/-- Neither is the keyword at the front of the text, nor does the text end within it: the
reader has the text again. -/
theorem readKeyword_mismatch {keyword cs : Str} (read : Str) {buffer : List Code}
    (hread : buffer.take read.length = read) (hroom : read.length + keyword.length ≤ buffer.length)
    (hkeyword : ¬ keyword <+: cs) (hend : ¬ cs <+: keyword) :
    ∃ buffer', readKeyword keyword read.length buffer cs = (false, read ++ cs, buffer')
      ∧ buffer'.length = buffer.length := by
  induction keyword generalizing cs read buffer with
  | nil => exact absurd (List.nil_prefix) hkeyword
  | cons k keyword ih =>
    cases cs with
    | nil => exact absurd (List.nil_prefix) hend
    | cons c cs =>
      rw [List.length_cons] at hroom
      have hlt : read.length < buffer.length := by omega
      have htake : (buffer.set read.length c).take (read ++ [c]).length = read ++ [c] := by
        rw [List.length_append, List.length_singleton, List.take_add_one, List.take_set_of_le (le_refl _),
          hread, List.getElem?_set_self hlt]
        rfl
      rw [readKeyword]
      split
      · rename_i heq
        subst heq
        have hrec := ih (read ++ [k]) htake
          (by rw [List.length_append, List.length_singleton, List.length_set]; omega)
          (fun h => hkeyword (List.prefix_cons_inj k |>.mpr h))
          (fun h => hend (List.prefix_cons_inj k |>.mpr h))
        obtain ⟨buffer', hrec, hlength⟩ := hrec
        rw [List.length_append, List.length_singleton, List.append_assoc] at hrec
        rw [List.length_set] at hlength
        exact ⟨buffer', hrec, hlength⟩
      · refine ⟨buffer.set read.length c, ?_, List.length_set ..⟩
        rw [List.length_append, List.length_singleton] at htake
        rw [htake, List.append_assoc]
        rfl

theorem readKeyword_prefix (keyword rest : Str) (i : ℕ) (buffer : List Code) :
    ∃ buffer', readKeyword keyword i buffer (keyword ++ rest) = (true, rest, buffer')
      ∧ buffer'.length = buffer.length := by
  induction keyword generalizing i buffer with
  | nil => exact ⟨buffer, rfl, rfl⟩
  | cons k keyword ih =>
    obtain ⟨buffer', h, hlength⟩ := ih (i + 1) (buffer.set i k)
    rw [List.length_set] at hlength
    exact ⟨buffer', by rw [List.cons_append, readKeyword]; exact (if_pos rfl).trans h, hlength⟩

/-- The text ends within the keyword: a character that was not read is pushed back too. -/
theorem readKeyword_short {keyword cs : Str} (read : Str) {buffer : List Code} {x : Code}
    (hread : buffer.take read.length = read) (hx : buffer[read.length + cs.length]? = some x)
    (hlead : cs <+: keyword) (hne : cs ≠ keyword) :
    ∃ buffer', readKeyword keyword read.length buffer cs = (false, read ++ cs ++ [x], buffer')
      ∧ buffer'.length = buffer.length := by
  induction cs generalizing keyword read buffer with
  | nil =>
    obtain ⟨k, keyword, rfl⟩ := List.exists_cons_of_ne_nil hne.symm
    refine ⟨buffer, ?_, rfl⟩
    have htake : buffer.take (read.length + 1) = read ++ [x] := by
      rw [List.take_add_one, hread, ← Nat.add_zero read.length]
      exact congrArg (read ++ Option.toList ·) hx
    rw [readKeyword, htake, List.append_nil]
  | cons c cs ih =>
    obtain ⟨u, rfl⟩ := hlead
    have hlt : read.length < buffer.length := by
      have hsome := List.getElem?_eq_some_iff.mp hx
      have hbound := hsome.1
      omega
    have htake : (buffer.set read.length c).take (read ++ [c]).length = read ++ [c] := by
      rw [List.length_append, List.length_singleton, List.take_add_one,
        List.take_set_of_le (le_refl _), hread, List.getElem?_set_self hlt]
      rfl
    have hx' : (buffer.set read.length c)[(read ++ [c]).length + cs.length]? = some x := by
      rw [List.length_append, List.length_singleton, List.getElem?_set_ne (by omega), ← hx,
        List.length_cons, Nat.add_assoc, Nat.add_comm 1]
    obtain ⟨buffer', h, hlength⟩ := ih (read ++ [c]) htake hx' (List.prefix_append cs u)
      (fun heq => hne (congrArg (c :: ·) heq))
    rw [List.length_append, List.length_singleton, List.append_assoc] at h
    rw [List.length_set] at hlength
    refine ⟨buffer', ?_, hlength⟩
    rw [List.cons_append, readKeyword, if_pos rfl, h, List.append_assoc, List.append_assoc]
    rfl

/-! ## Words -/

/-- A text that goes on with what is no part of `p` has a keyword at its front only if it is
at the front before. -/
theorem prefix_of_stopped {p : Code → Bool} {keyword W T : Str} (hp : ∀ c ∈ keyword, p c = true)
    (hT : Stopped p T) (h : keyword <+: W ++ T) : keyword <+: W := by
  rcases List.prefix_or_prefix_of_prefix h (List.prefix_append W T) with hle | ⟨u, rfl⟩
  · exact hle
  · have hu : u <+: T := (List.prefix_append_right_inj W).mp h
    cases u with
    | nil => exact (List.append_nil W).symm ▸ List.prefix_refl W
    | cons c u =>
      obtain ⟨v, rfl⟩ := hu
      have hc := hT c rfl
      rw [hp c (List.mem_append_right _ List.mem_cons_self)] at hc
      cases hc

/-- And it ends within the keyword only if nothing is behind. -/
theorem end_of_stopped {p : Code → Bool} {keyword W T : Str} (hp : ∀ c ∈ keyword, p c = true)
    (hT : Stopped p T) (h : W ++ T <+: keyword) : T = [] ∧ W <+: keyword := by
  obtain ⟨u, rfl⟩ := h
  have hnil : T = [] := by
    cases T with
    | nil => rfl
    | cons c T =>
      have hc := hT c rfl
      rw [hp c (by simp)] at hc
      cases hc
  subst hnil
  exact ⟨rfl, by rw [List.append_nil]; exact List.prefix_append ..⟩

variable (parseDouble) in
/-- What a character decides that an identifier can start with. -/
theorem readToken_start {c : Code} (hc : isJavaIdentifierStart kinds c = true) (unary : Bool)
    (buffer cs : List Code) :
    readToken kinds parseDouble unary buffer c cs
      = match Keyword.ofFirst c with
        | some k => readWord kinds k.text k.value buffer (c :: cs)
        | none => (readVariable kinds (c :: cs)).bind fun r => .ok (r.1, r.2, buffer) := by
  have hq : (decide (c = ch '"') || decide (c = 0x27)) = false := by
    simp only [Bool.or_eq_false_iff, decide_eq_false_iff_not]
    constructor
    · rintro rfl
      cases (hc : isJavaIdentifierStart kinds (ch '"') = true)
    · rintro rfl
      cases (hc : isJavaIdentifierStart kinds 0x27 = true)
  unfold readToken Keyword.ofFirst
  by_cases hn : c = ch 'n'
  · rw [if_pos hn, if_pos hn]
    rfl
  · rw [if_neg hn, if_neg hn, hq, not_digit_of_start hc]
    by_cases ht : c = ch 't'
    · rw [if_pos ht, if_pos ht]
      rfl
    · rw [if_neg ht, if_neg ht]
      by_cases hf : c = ch 'f'
      · rw [if_pos hf, if_pos hf]
        rfl
      · rw [if_neg hf, if_neg hf, hc]
        rfl

variable (kinds) in
theorem ofFirst_text (k : Keyword) : ∃ c cs, k.text = c :: cs ∧ Keyword.ofFirst c = some k
    ∧ isJavaIdentifierStart kinds c = true := by
  cases k with
  | null => exact ⟨ch 'n', lit "ull", rfl, rfl, rfl⟩
  | true => exact ⟨ch 't', lit "rue", rfl, rfl, rfl⟩
  | false => exact ⟨ch 'f', lit "alse", rfl, rfl, rfl⟩

variable (kinds parseDouble) in
/-- A keyword is read wherever it comes. -/
theorem readToken_keyword (k : Keyword) (rest : List Code) (unary : Bool) (buffer : List Code) :
    ∃ c cs buffer', k.text ++ rest = c :: cs ∧ isWhitespace kinds c = false ∧
      readToken kinds parseDouble unary buffer c cs = .ok (.LITERAL k.value, rest, buffer') := by
  obtain ⟨c, cs, htext, hfirst, hstart⟩ := ofFirst_text kinds k
  obtain ⟨buffer', hread, -⟩ := readKeyword_prefix k.text rest 0 buffer
  refine ⟨c, cs ++ rest, buffer', by rw [htext, List.cons_append],
    not_whitespace_of_part (part_of_start hstart), ?_⟩
  rw [readToken_start parseDouble hstart, hfirst]
  dsimp only
  rw [← List.cons_append, ← htext, readWord, hread]

/-! ## Key paths -/

namespace KeyPath

variable (kinds) in
/-- A quoted key that is empty, or has a `]` behind its first character. -/
theorem readBracketed_fails {q : Code} (hq : IsQuote q) {s : Str} (key rest : Str)
    (hs : ∀ c ∈ s, isISOControl c = false ∧ c ≠ q) (hbad : s = [] ∨ ch ']' ∈ s.tail) :
    ∃ e, readBracketed kinds (some q) (s ++ q :: ch ']' :: rest) key = .error e := by
  induction s generalizing key with
  | nil =>
    have hquote : isISOControl q = false ∧ some q ≠ some (ch ']') := by
      rcases hq with rfl | rfl <;> decide
    refine ⟨.illegalArgument "Unterminated quoted identifier.", ?_⟩
    rw [List.nil_append, readBracketed.eq_def]
    simp only [hquote.1, Bool.false_eq_true, if_false, Option.isNone_some, Bool.false_and,
      if_neg hquote.2, if_true]
  | cons c s ih =>
    have hc := hs c List.mem_cons_self
    have hs' : ∀ c ∈ s, isISOControl c = false ∧ c ≠ q :=
      fun d hd => hs d (List.mem_cons_of_mem _ hd)
    have htail : ch ']' ∈ s := hbad.resolve_left (List.cons_ne_nil _ _)
    cases s with
    | nil => cases htail
    | cons d s =>
      have hq' : some q ≠ some d := fun h => (hs' d List.mem_cons_self).2 (Option.some.inj h).symm
      rw [List.cons_append, List.cons_append, readBracketed.eq_def]
      simp only [hc.1, Bool.false_eq_true, if_false, Option.isNone_some, Bool.false_and, hq']
      by_cases hd : d = ch ']'
      · exact ⟨_, if_pos hd⟩
      · rw [if_neg hd, ← List.cons_append]
        exact ih _ hs' (Or.inr ((List.mem_cons.mp htail).resolve_left fun h => hd h.symm))

/-- An element that is written as it should be, but not read. -/
theorem readElement_fails {s : Segment} (hs : s.Written kinds) (hbad : ¬ s.Readable kinds)
    (rest : List Code) : ∃ e, readElement kinds (s.text ++ rest) = .error e := by
  cases s with
  | name s => exact absurd hs hbad
  | index s => exact absurd hs hbad
  | quoted q s =>
    obtain ⟨hquote, hchars⟩ := hs
    have hq : (decide (q = ch '"') || decide (q = 0x27)) = true := by
      simpa [IsQuote] using hquote
    have hkey : s = [] ∨ ch ']' ∈ s.tail := by
      by_contra hgood
      rw [not_or] at hgood
      exact hbad ⟨hquote, hgood.1, hchars, fun c hc heq => hgood.2 (heq ▸ hc)⟩
    obtain ⟨e, hread⟩ := readBracketed_fails kinds hquote [] rest hchars hkey
    refine ⟨e, ?_⟩
    simp only [Segment.text, List.cons_append, List.append_assoc, List.nil_append, readElement,
      if_pos, hq]
    exact hread

theorem readElements_fails {segments : List Segment} (hs : ∀ s ∈ segments, s.Written kinds)
    (hbad : ∃ s ∈ segments, ¬ s.Readable kinds) {rest : List Code} (hrest : Breaks kinds rest)
    {fuel : ℕ} (hfuel : segments.length ≤ fuel) (elements : List Str) :
    ∃ e, readElements kinds fuel (Segment.textOf segments ++ rest) elements = .error e := by
  induction segments generalizing fuel elements with
  | nil =>
    obtain ⟨s, hs, -⟩ := hbad
    cases hs
  | cons s segments ih =>
    have hwritten := hs s List.mem_cons_self
    have hs' : ∀ s ∈ segments, s.Written kinds := fun t ht => hs t (List.mem_cons_of_mem _ ht)
    obtain ⟨c, cs, htext, hstart⟩ := text_starts hwritten
    obtain ⟨fuel, rfl⟩ := Nat.exists_eq_succ_of_ne_zero (Nat.ne_of_gt (Nat.lt_of_lt_of_le
      (Nat.succ_pos _) hfuel))
    have hhead : Segment.textOf (s :: segments) ++ rest
        = c :: (cs ++ (Segment.textAfter segments ++ rest)) := by
      simp [Segment.textOf, htext]
    have happend : s.text ++ (Segment.textAfter segments ++ rest)
        = c :: (cs ++ (Segment.textAfter segments ++ rest)) := by
      rw [htext, List.cons_append]
    rw [hhead, readElements, if_pos hstart, ← happend]
    by_cases hread : s.Readable kinds
    · have hbad' : ∃ t ∈ segments, ¬ t.Readable kinds := by
        obtain ⟨t, ht, hnot⟩ := hbad
        rcases List.mem_cons.mp ht with rfl | ht
        · exact absurd hread hnot
        · exact ⟨t, ht, hnot⟩
      rw [readElement_segment hread (stopped_textAfter segments hrest), ok_bind]
      dsimp only
      rw [readDot_textAfter hs' hrest, ok_bind, if_neg hread.key_ne_nil]
      exact ih hs' hbad' (Nat.le_of_succ_le_succ hfuel) _
    · obtain ⟨e, he⟩ := readElement_fails hwritten hread (Segment.textAfter segments ++ rest)
      exact ⟨e, by rw [he, error_bind]⟩

theorem parse_fails {s : Segment} {segments : List Segment}
    (hs : ∀ t ∈ s :: segments, t.Written kinds) (hbad : ∃ t ∈ s :: segments, ¬ t.Readable kinds)
    {rest : List Code} (hrest : Breaks kinds rest) :
    ∃ e, parse kinds (Segment.textOf (s :: segments) ++ rest) = .error e := by
  obtain ⟨e, he⟩ := readElements_fails hs hbad hrest (length_le_textOf hs rest) []
  exact ⟨e, by rw [parse, he, error_bind]⟩

end KeyPath

/-! ## The first token -/

variable (parseDouble) in
/-- A name that no keyword is at the front of, and that does not end the text within one, is
read as a part of a key path. -/
theorem readToken_name {first T : Str} (hname : IsName kinds first)
    (hT : Stopped (KeyPath.isNamePart kinds) T) (hkeyword : ∀ k : Keyword, ¬ k.text <+: first)
    (hend : T = [] → ∀ k : Keyword, ¬ first <+: k.text) (unary : Bool) {buffer : List Code}
    (hbuffer : buffer.length = 6) :
    ∃ c cs buffer', first ++ T = c :: cs ∧ isWhitespace kinds c = false ∧ buffer'.length = 6 ∧
      readToken kinds parseDouble unary buffer c cs
        = (readVariable kinds (first ++ T)).bind fun r => .ok (r.1, r.2, buffer') := by
  obtain ⟨⟨c, hc, hstart⟩, -⟩ := hname
  cases first with
  | nil => cases hc
  | cons d first =>
    cases hc
    have hw := not_whitespace_of_part (part_of_start hstart)
    rw [List.cons_append]
    cases hfirst : Keyword.ofFirst c with
    | none =>
      refine ⟨c, first ++ T, buffer, rfl, hw, hbuffer, ?_⟩
      rw [readToken_start parseDouble hstart, hfirst]
    | some k =>
      -- the keyword is looked for, and what was read of it is pushed back
      have hnot : ¬ k.text <+: c :: first ++ T :=
        fun h => hkeyword k (prefix_of_stopped k.namePart hT h)
      have hnot' : ¬ c :: first ++ T <+: k.text := by
        intro h
        obtain ⟨hnil, hlead⟩ := end_of_stopped k.namePart hT h
        exact hend hnil k hlead
      have hroom : ([] : Str).length + k.text.length ≤ buffer.length := by
        rw [hbuffer, List.length_nil, Nat.zero_add]
        exact Nat.le_of_lt k.length_text_le
      obtain ⟨buffer', hread, hlength⟩ := readKeyword_mismatch [] rfl hroom hnot hnot'
      refine ⟨c, first ++ T, buffer', rfl, hw, hlength.trans hbuffer, ?_⟩
      rw [readToken_start parseDouble hstart, hfirst]
      dsimp only
      rw [List.cons_append, List.length_nil, List.nil_append] at hread
      rw [readWord, hread]
      rfl

variable (parseDouble) in
/-- A name that the text ends within a keyword with is read with one more character. -/
theorem readToken_stale {first : Str} (hname : IsName kinds first) {k : Keyword}
    (hlead : first <+: k.text) (hne : first ≠ k.text) (unary : Bool) :
    ∃ c cs buffer', first = c :: cs ∧ isWhitespace kinds c = false ∧ buffer'.length = 6 ∧
      readToken kinds parseDouble unary (List.replicate 6 0) c cs
        = .ok (.VARIABLE [first ++ [0]], [], buffer') := by
  obtain ⟨⟨c, hc, hstart⟩, hparts⟩ := id hname
  cases first with
  | nil => cases hc
  | cons d first =>
    cases hc
    have hw := not_whitespace_of_part (part_of_start hstart)
    have hfirst : Keyword.ofFirst c = some k := by
      obtain ⟨d, cs, hcs, hd, -⟩ := ofFirst_text kinds k
      rw [hcs, List.cons_prefix_cons] at hlead
      rw [hlead.1]
      exact hd
    have hroom : (c :: first).length < 6 :=
      Nat.lt_of_le_of_lt hlead.length_le k.length_text_le
    have hx : (List.replicate 6 (0 : Code))[([] : Str).length + (c :: first).length]? = some 0 := by
      rw [List.length_nil, Nat.zero_add, List.getElem?_replicate, if_pos hroom]
    obtain ⟨buffer', hread, hlength⟩ := readKeyword_short [] rfl hx hlead hne
    rw [List.length_nil, List.nil_append] at hread
    -- the character that is pushed back too goes on with the name
    have hname' : IsName kinds (c :: first ++ [0]) := by
      refine ⟨⟨c, rfl, hstart⟩, ?_⟩
      intro d hd
      rcases List.mem_append.mp hd with hd | hd
      · exact hparts d hd
      · rw [List.mem_singleton.mp hd]
        rfl
    have hreadable : ∀ t ∈ [Segment.name (c :: first ++ [0])], t.Readable kinds :=
      fun t ht => List.mem_singleton.mp ht ▸ hname'
    have hparse := KeyPath.parse_textOf hreadable (breaks_nil kinds)
    rw [List.append_nil, Segment.textOf, Segment.textAfter, List.flatMap_nil, List.append_nil]
      at hparse
    refine ⟨c, first, buffer', rfl, hw, hlength, ?_⟩
    rw [readToken_start parseDouble hstart, hfirst]
    dsimp only
    rw [readWord, hread]
    dsimp only
    rw [readVariable, Segment.text] at *
    rw [hparse]
    rfl

/-! ## The leftmost operand -/

namespace Token

theorem prefix_popOperators (p : ℕ) (tokens stack : List (Token D)) :
    tokens <+: (popOperators p tokens stack).1 := by
  induction stack generalizing tokens with
  | nil => exact List.prefix_refl _
  | cons t stack ih =>
    cases t with
    | UNARY_OPERATOR o | BINARY_OPERATOR o =>
      rw [popOperators]
      split
      · exact (List.prefix_append ..).trans (ih _)
      · exact List.prefix_refl _
    | _ => exact List.prefix_refl _

theorem prefix_popGroup {tokens stack tokens' stack' : List (Token D)}
    (h : popGroup tokens stack = .ok (tokens', stack')) : tokens <+: tokens' := by
  induction stack generalizing tokens with
  | nil => cases h
  | cons t stack ih =>
    cases t with
    | BEGIN_GROUP =>
      cases h
      exact List.prefix_refl _
    | _ =>
      rw [popGroup] at h
      · exact (List.prefix_append ..).trans (ih h)
      · nofun

theorem prefix_process {tokens stack tokens' stack' : List (Token D)} {t : Token D}
    (h : process tokens stack t = .ok (tokens', stack')) : tokens <+: tokens' := by
  cases t with
  | LITERAL value | VARIABLE path =>
    cases h
    exact List.prefix_append ..
  | UNARY_OPERATOR o | BINARY_OPERATOR o =>
    cases h
    exact prefix_popOperators _ _ _
  | BEGIN_GROUP =>
    cases h
    exact List.prefix_refl _
  | END_GROUP => exact prefix_popGroup h

end Token

/-- The output only grows. -/
theorem prefix_tokenizeLoop {fuel : ℕ} {unary : Bool} {buffer cs : List Code}
    {tokens stack ts : List (Token D)}
    (h : tokenizeLoop kinds parseDouble fuel unary buffer cs tokens stack = .ok ts) :
    tokens <+: ts := by
  induction fuel generalizing unary buffer cs tokens stack with
  | zero => cases h
  | succ fuel ih =>
    rw [tokenizeLoop] at h
    split at h
    · cases h
      exact List.prefix_append ..
    · obtain ⟨⟨token, cs', buffer'⟩, -, h⟩ := bind_eq_ok.mp h
      obtain ⟨⟨tokens', stack'⟩, hprocess, h⟩ := bind_eq_ok.mp h
      exact (Token.prefix_process hprocess).trans (ih h)

namespace Expression

/-- The operand that comes first in the text. -/
def leaf : Expression D → Expression D
  | .LiteralExpression value => .LiteralExpression value
  | .VariableExpression path => .VariableExpression path
  | .UnaryExpression _ operand => operand.leaf
  | .BinaryExpression _ left _ => left.leaf

theorem leaf_push {es es' : List (Expression D)} {t : Token D} {e x : Expression D}
    (hpush : push (es ++ [e]) t = .ok es') (he : e.leaf = x) :
    ∃ es₁ e₁, es' = es₁ ++ [e₁] ∧ e₁.leaf = x := by
  cases t with
  | LITERAL value | VARIABLE path =>
    cases hpush
    exact ⟨_ :: es, e, rfl, he⟩
  | UNARY_OPERATOR o =>
    cases es with
    | nil =>
      rw [List.nil_append, push] at hpush
      split at hpush
      · cases hpush
        exact ⟨[], _, rfl, he⟩
      · cases hpush
    | cons operand es =>
      rw [List.cons_append, push] at hpush
      split at hpush
      · cases hpush
        exact ⟨_ :: es, e, rfl, he⟩
      · cases hpush
  | BINARY_OPERATOR o =>
    cases es with
    | nil => cases hpush
    | cons right es =>
      cases es with
      | nil =>
        rw [List.singleton_append, push] at hpush
        split at hpush
        · cases hpush
        · cases hpush
          exact ⟨[], _, rfl, he⟩
      | cons left es =>
        rw [List.cons_append, List.cons_append, push] at hpush
        split at hpush
        · cases hpush
        · cases hpush
          exact ⟨_ :: es, e, rfl, he⟩
  | BEGIN_GROUP | END_GROUP => cases hpush

theorem leaf_pushAll {ts : List (Token D)} {es es' : List (Expression D)} {e x : Expression D}
    (hpush : pushAll (es ++ [e]) ts = .ok es') (he : e.leaf = x) :
    ∃ es₁ e₁, es' = es₁ ++ [e₁] ∧ e₁.leaf = x := by
  induction ts generalizing es e with
  | nil =>
    cases hpush
    exact ⟨es, e, rfl, he⟩
  | cons t ts ih =>
    obtain ⟨es₁, hpush₁, hpush₂⟩ := bind_eq_ok.mp hpush
    obtain ⟨es₂, e₂, rfl, he₂⟩ := leaf_push hpush₁ he
    exact ih hpush₂ he₂

/-- An expression of a text that starts with a literal has the literal first. -/
theorem leaf_valueOf {c : Code} {cs text rest buffer : List Code} {value : Literal D}
    {e : Expression D} (htext : text = c :: cs) (hw : isWhitespace kinds c = false)
    (hread : readToken kinds parseDouble true (List.replicate 6 0) c cs
      = .ok (.LITERAL value, rest, buffer))
    (hvalue : valueOf kinds parseDouble text = .ok e) : e.leaf = .LiteralExpression value := by
  obtain ⟨ts, htokens, hvalue⟩ := bind_eq_ok.mp hvalue
  obtain ⟨es, hpush, hvalue⟩ := bind_eq_ok.mp hvalue
  have hdrop : text.dropWhile (isWhitespace kinds) = c :: cs := by
    rw [htext, List.dropWhile_cons_of_neg (by rw [hw]; exact Bool.false_ne_true)]
  rw [tokenize, tokenizeLoop, hdrop] at htokens
  simp only [hread, ok_bind, Token.process, List.nil_append] at htokens
  obtain ⟨ts, rfl⟩ := prefix_tokenizeLoop htokens
  have hpush' : pushAll ([] ++ [.LiteralExpression value]) ts = .ok es := hpush
  obtain ⟨es₁, e₁, rfl, he⟩ := leaf_pushAll hpush' rfl
  cases es₁ with
  | nil =>
    cases hvalue
    exact he
  | cons e' es₁ =>
    cases es₁ <;> cases hvalue

end Expression

/-! ## Variables -/

/-- The text of a key path that starts with an identifier. -/
structure VariableText (kinds : Code → CharKind) where
  first : Str
  segments : List Segment
  isName : IsName kinds first
  written : ∀ s ∈ segments, s.Written kinds

namespace VariableText

def text (v : VariableText kinds) : Str := Segment.textOf (.name v.first :: v.segments)

def path (v : VariableText kinds) : List Str := v.first :: v.segments.map Segment.key

/-- No keyword is at the front of the path, its keys can be read, and where the text ends with
it, it does not end within a keyword. -/
def Reads (v : VariableText kinds) (atEnd : Prop) : Prop :=
  (∀ k : Keyword, ¬ k.text <+: v.first) ∧ (∀ s ∈ v.segments, s.Readable kinds) ∧
    (atEnd → v.segments = [] → ∀ k : Keyword, ¬ v.first <+: k.text)

theorem text_append (v : VariableText kinds) (rest : List Code) :
    v.text ++ rest = v.first ++ (Segment.textAfter v.segments ++ rest) := by
  rw [text, Segment.textOf, Segment.text, List.append_assoc]

theorem segments_eq_nil {v : VariableText kinds} {rest : List Code}
    (h : Segment.textAfter v.segments ++ rest = []) : rest = [] ∧ v.segments = [] := by
  refine ⟨(List.append_eq_nil_iff.mp h).2, ?_⟩
  have hafter := (List.append_eq_nil_iff.mp h).1
  cases hsegments : v.segments with
  | nil => rfl
  | cons s segments =>
    obtain ⟨c, cs, htext, -⟩ := KeyPath.text_starts
      (v.written s (hsegments ▸ List.mem_cons_self))
    rw [hsegments, Segment.textAfter, List.flatMap_cons, htext] at hafter
    cases hname : s.isName <;> simp [hname] at hafter

variable (parseDouble) in
/-- The tokenizer goes on to the reader of key paths, where no keyword is found. -/
theorem readToken_text (v : VariableText kinds) {rest : List Code} (hrest : Breaks kinds rest)
    (hkeyword : ∀ k : Keyword, ¬ k.text <+: v.first)
    (hend : rest = [] → v.segments = [] → ∀ k : Keyword, ¬ v.first <+: k.text) (unary : Bool)
    {buffer : List Code} (hbuffer : buffer.length = 6) :
    ∃ c cs buffer', v.text ++ rest = c :: cs ∧ isWhitespace kinds c = false ∧
      buffer'.length = 6 ∧ readToken kinds parseDouble unary buffer c cs
        = (readVariable kinds (v.text ++ rest)).bind fun r => .ok (r.1, r.2, buffer') := by
  rw [text_append]
  apply readToken_name parseDouble v.isName (KeyPath.stopped_textAfter v.segments hrest) hkeyword _ unary hbuffer
  intro hnil
  obtain ⟨hrest, hsegments⟩ := segments_eq_nil hnil
  exact hend hrest hsegments

theorem written_name (v : VariableText kinds) :
    ∀ s ∈ .name v.first :: v.segments, s.Written kinds :=
  List.forall_mem_cons.mpr ⟨v.isName, v.written⟩

variable (parseDouble) in
/-- **A key path** that can be read is read as its token. -/
theorem Reads.readToken_path {v : VariableText kinds} {rest : List Code}
    (hv : v.Reads (rest = [])) (hrest : Breaks kinds rest) (unary : Bool) {buffer : List Code}
    (hbuffer : buffer.length = 6) :
    ∃ c cs buffer', v.text ++ rest = c :: cs ∧ isWhitespace kinds c = false ∧
      buffer'.length = 6 ∧ readToken kinds parseDouble unary buffer c cs
        = .ok (.VARIABLE v.path, rest, buffer') := by
  obtain ⟨hkeyword, hsegments, hend⟩ := hv
  obtain ⟨c, cs, buffer', htext, hw, hlength, hread⟩ :=
    v.readToken_text parseDouble hrest hkeyword hend unary hbuffer
  have hreadable : ∀ s ∈ .name v.first :: v.segments, s.Readable kinds :=
    List.forall_mem_cons.mpr ⟨v.isName, hsegments⟩
  have hparse := KeyPath.parse_textOf hreadable hrest
  refine ⟨c, cs, buffer', htext, hw, hlength, ?_⟩
  rw [hread, text, readVariable, hparse]
  rfl

end VariableText

/-- An operand that ends the text. -/
inductive LastOperand (kinds : Code → CharKind) (parseDouble : Str → Option D)
  | keyword (k : Keyword)
  | operand (o : Operand D) (valid : o.Valid kinds parseDouble)
  | keyPath (v : VariableText kinds) (reads : v.Reads True)

namespace LastOperand

def text : LastOperand kinds parseDouble → Str
  | .keyword k => k.text
  | .operand o _ => o.text
  | .keyPath v _ => v.text

def token : LastOperand kinds parseDouble → Token D
  | .keyword k => .LITERAL k.value
  | .operand o _ => o.token
  | .keyPath v _ => .VARIABLE v.path

def expression : LastOperand kinds parseDouble → Expression D
  | .keyword k => .LiteralExpression k.value
  | .operand o _ => o.expression
  | .keyPath v _ => .VariableExpression v.path

theorem head_ne (o : LastOperand kinds parseDouble) : ∀ c ∈ o.text.head?, c ≠ ch '=' := by
  cases o with
  | keyword k =>
    intro c hc
    cases k <;> cases hc <;> decide
  | operand o valid =>
    obtain ⟨c, cs, htext, -, hne, -⟩ := readToken_operand valid (breaks_nil kinds) true []
    rw [List.append_nil] at htext
    intro d hd
    rw [text, htext] at hd
    cases hd
    exact hne
  | keyPath v reads =>
    obtain ⟨⟨c, hc, hstart⟩, -⟩ := v.isName
    intro d hd
    have hfirst : v.text.head? = some c := by
      rw [VariableText.text, Segment.textOf, Segment.text, List.head?_append, hc]
      rfl
    rw [text, hfirst] at hd
    cases hd
    rintro rfl
    cases (hstart : isJavaIdentifierStart kinds (ch '=') = true)

theorem process_token (o : LastOperand kinds parseDouble) (tokens stack : List (Token D)) :
    Token.process tokens stack o.token = .ok (tokens ++ [o.token], stack) := by
  cases o with
  | operand o valid => cases o <;> rfl
  | _ => rfl

theorem push_token (o : LastOperand kinds parseDouble) (es : List (Expression D)) :
    Expression.push es o.token = .ok (o.expression :: es) := by
  cases o with
  | operand o valid => cases o <;> rfl
  | _ => rfl

theorem readToken_last (o : LastOperand kinds parseDouble) (unary : Bool) {buffer : List Code}
    (hbuffer : buffer.length = 6) :
    ∃ c cs buffer', o.text = c :: cs ∧ isWhitespace kinds c = false ∧
      readToken kinds parseDouble unary buffer c cs = .ok (o.token, [], buffer') := by
  cases o with
  | keyword k =>
    obtain ⟨c, cs, buffer', htext, hw, hread⟩ :=
      readToken_keyword kinds parseDouble k [] unary buffer
    exact ⟨c, cs, buffer', by rw [← htext, List.append_nil]; rfl, hw, hread⟩
  | operand o valid =>
    obtain ⟨c, cs, htext, hw, -, hread⟩ := readToken_operand valid (breaks_nil kinds) unary buffer
    exact ⟨c, cs, buffer, by rw [← htext, List.append_nil]; rfl, hw, hread⟩
  | keyPath v reads =>
    have hreads : v.Reads (([] : List Code) = []) := by simpa using reads
    obtain ⟨c, cs, buffer', htext, hw, -, hread⟩ :=
      hreads.readToken_path parseDouble (breaks_nil kinds) unary hbuffer
    exact ⟨c, cs, buffer', by rw [← htext, List.append_nil]; rfl, hw, hread⟩

end LastOperand

/-- An operator and another operand, behind a key path. -/
structure Continuation (kinds : Code → CharKind) (parseDouble : Str → Option D) where
  gap : Str
  operator : BinaryOperator
  gap' : Str
  operand : LastOperand kinds parseDouble
  blank : ∀ c ∈ gap, isWhitespace kinds c = true
  blank' : ∀ c ∈ gap', isWhitespace kinds c = true

namespace Continuation

def text (k : Continuation kinds parseDouble) : Str :=
  k.gap ++ (k.operator.1.text ++ (k.gap' ++ k.operand.text))

/-- What the text of the path and of the continuation stands for. -/
def expression (k : Continuation kinds parseDouble) (path : List Str) : Expression D :=
  .BinaryExpression k.operator.1 (.VariableExpression path) k.operand.expression

theorem breaks_text (k : Continuation kinds parseDouble) : Breaks kinds k.text := by
  cases hgap : k.gap with
  | nil =>
    rw [text, hgap, List.nil_append]
    exact breaks_binary k.operator _
  | cons c gap =>
    apply breaks_of_whitespace
    intro d hd
    rw [text, hgap] at hd
    cases hd
    exact k.blank c (hgap ▸ List.mem_cons_self)

theorem text_ne_nil (k : Continuation kinds parseDouble) : k.text ≠ [] := by
  intro h
  have hoperator := (List.append_eq_nil_iff.mp (List.append_eq_nil_iff.mp h).2).1
  cases ho : k.operator.1 <;> rw [ho] at hoperator <;> cases hoperator

end Continuation

theorem dropWhile_blank {gap cs : Str} {c : Code} (hgap : ∀ c ∈ gap, isWhitespace kinds c = true)
    (hw : isWhitespace kinds c = false) :
    (gap ++ c :: cs).dropWhile (isWhitespace kinds) = c :: cs := by
  rw [List.dropWhile_append_of_pos hgap, List.dropWhile_cons_of_neg]
  rw [hw]
  exact Bool.false_ne_true

/-- What a text is without the path: nothing, or a continuation. -/
def continued : Option (Continuation kinds parseDouble) → Str
  | none => []
  | some k => k.text

/-- What the whole text stands for. -/
def expected (path : List Str) : Option (Continuation kinds parseDouble) → Expression D
  | none => .VariableExpression path
  | some k => k.expression path

namespace Expression

/-- What is read after a first token that is a variable. -/
theorem valueOf_path {text : Str} {c : Code} {cs buffer : List Code} {path : List Str}
    (htext : text = c :: cs) (hw : isWhitespace kinds c = false) (hbuffer : buffer.length = 6)
    (k : Option (Continuation kinds parseDouble))
    (hread : readToken kinds parseDouble true (List.replicate 6 0) c cs
      = .ok (.VARIABLE path, continued k, buffer)) (hlength : (continued k).length ≤ cs.length) :
    valueOf kinds parseDouble text = .ok (expected path k) := by
  have hdrop : text.dropWhile (isWhitespace kinds) = c :: cs := by
    rw [htext, List.dropWhile_cons_of_neg (by rw [hw]; exact Bool.false_ne_true)]
  have hfirst : tokenize kinds parseDouble text = tokenizeLoop kinds parseDouble (cs.length + 2)
      false buffer (continued k) [.VARIABLE path] [] := by
    rw [tokenize, tokenizeLoop, hdrop, htext]
    simp only [hread, ok_bind, Token.process, List.nil_append, Token.endsOperand, Bool.not_true,
      List.length_cons]
  rw [valueOf, parse, hfirst]
  cases k with
  | none => rfl
  | some k =>
    -- the operator, and the operand that ends the text
    obtain ⟨c₂, cs₂, buffer₂, htext₂, hw₂, hread₂⟩ := k.operand.readToken_last true hbuffer
    have hequal : ∀ c ∈ (k.gap' ++ k.operand.text).head?, c ≠ ch '=' := by
      cases hgap : k.gap' with
      | nil => exact k.operand.head_ne
      | cons d gap =>
        intro c hc heq
        cases hc
        subst heq
        have hblank := k.blank' (ch '=') (hgap ▸ List.mem_cons_self)
        cases (hblank : isWhitespace kinds (ch '=') = true)
    obtain ⟨c₁, cs₁, htext₁, hw₁, hread₁⟩ :=
      readToken_binary parseDouble k.operator hequal buffer
    obtain ⟨fuel, hfuel⟩ : ∃ fuel, cs.length = fuel + 1 := by
      apply Nat.exists_eq_succ_of_ne_zero
      intro hzero
      apply k.text_ne_nil
      apply List.eq_nil_of_length_eq_zero
      exact Nat.le_zero.mp (hzero ▸ hlength)
    have hdrop₁ : k.text.dropWhile (isWhitespace kinds) = c₁ :: cs₁ := by
      rw [Continuation.text, htext₁]
      exact dropWhile_blank k.blank hw₁
    have hdrop₂ : (k.gap' ++ k.operand.text).dropWhile (isWhitespace kinds) = c₂ :: cs₂ := by
      rw [htext₂]
      exact dropWhile_blank k.blank' hw₂
    rw [hfuel, continued, tokenizeLoop, hdrop₁]
    simp only [hread₁, ok_bind, Token.process, Token.popOperators, Token.endsOperand,
      Bool.not_false]
    rw [tokenizeLoop, hdrop₂]
    simp only [hread₂, ok_bind, k.operand.process_token]
    rw [tokenizeLoop, List.dropWhile_nil]
    have hpush : pushAll [] [.VARIABLE path, k.operand.token, .BINARY_OPERATOR k.operator.1]
        = .ok [k.expression path] := by
      rw [pushAll, push, ok_bind, pushAll, k.operand.push_token, ok_bind]
      simp only [pushAll, push, ok_bind, k.operator.2, Bool.false_eq_true, if_false,
        Continuation.expression]
    simp only [ok_bind, List.cons_append, List.nil_append, hpush, expected]

/-- A text whose first token cannot be read. -/
theorem valueOf_fails {text : Str} {c : Code} {cs : List Code} {error : ParseError}
    (htext : text = c :: cs) (hw : isWhitespace kinds c = false)
    (hread : readToken kinds parseDouble true (List.replicate 6 0) c cs = .error error) :
    valueOf kinds parseDouble text = .error error := by
  have hdrop : text.dropWhile (isWhitespace kinds) = c :: cs := by
    rw [htext, List.dropWhile_cons_of_neg (by rw [hw]; exact Bool.false_ne_true)]
  rw [valueOf, parse, tokenize, tokenizeLoop, hdrop]
  simp only [hread, error_bind]

/-- A keyword alone is its literal. -/
theorem valueOf_keyword (kinds : Code → CharKind) (parseDouble : Str → Option D) (k : Keyword) :
    valueOf kinds parseDouble k.text = .ok (.LiteralExpression k.value) := by
  obtain ⟨c, cs, buffer, htext, hw, hread⟩ :=
    readToken_keyword kinds parseDouble k [] true (List.replicate 6 0)
  rw [List.append_nil] at htext
  have hdrop : k.text.dropWhile (isWhitespace kinds) = c :: cs := by
    rw [htext, List.dropWhile_cons_of_neg (by rw [hw]; exact Bool.false_ne_true)]
  rw [valueOf, parse, tokenize, tokenizeLoop, hdrop]
  simp only [hread, ok_bind, Token.process, List.nil_append]
  rw [tokenizeLoop, List.dropWhile_nil]
  rfl

/-- The literal that a keyword at the front stands for is not the variable. -/
theorem valueOf_of_keyword {v : VariableText kinds} {k : Keyword} (hk : k.text <+: v.first)
    (rest : List Code) (path : List Str) (o : Option (Continuation kinds parseDouble)) :
    valueOf kinds parseDouble (v.text ++ rest) ≠ .ok (expected path o) := by
  intro hvalue
  obtain ⟨u, hu⟩ := hk
  obtain ⟨c, cs, buffer, htext, hw, hread⟩ := readToken_keyword kinds parseDouble k
    (u ++ (Segment.textAfter v.segments ++ rest)) true (List.replicate 6 0)
  have htext' : v.text ++ rest = c :: cs := by
    rw [v.text_append, ← hu, List.append_assoc, htext]
  have hleaf := leaf_valueOf htext' hw hread hvalue
  cases o <;> cases hleaf

/-- **Variables.** A key path, alone or before an operator and an operand, is read as the
variable with that path exactly if no keyword is at its front, no key in quotes is empty or has
a `]` behind its first character, and it does not end the text within a keyword. The keywords
are read as their literals. -/
theorem valueOf_variable_iff (v : VariableText kinds)
    (o : Option (Continuation kinds parseDouble)) (k : Keyword) :
    (valueOf kinds parseDouble (v.text ++ continued o) = .ok (expected v.path o)
      ↔ v.Reads (o = none))
    ∧ valueOf kinds parseDouble k.text = .ok (.LiteralExpression k.value) := by
  refine ⟨?_, valueOf_keyword kinds parseDouble k⟩
  have hbreaks : Breaks kinds (continued o) := by
    cases o with
    | none => exact breaks_nil kinds
    | some o => exact o.breaks_text
  have hnil : continued o = [] ↔ o = none := by
    cases o with
    | none => exact ⟨fun _ => rfl, fun _ => rfl⟩
    | some o => exact ⟨fun h => absurd h o.text_ne_nil, nofun⟩
  have hbuffer : (List.replicate 6 (0 : Code)).length = 6 := List.length_replicate
  constructor
  · intro hvalue
    have hkeyword : ∀ k : Keyword, ¬ k.text <+: v.first :=
      fun k hk => valueOf_of_keyword hk (continued o) v.path o hvalue
    have hend : o = none → v.segments = [] → ∀ k : Keyword, ¬ v.first <+: k.text := by
      rintro rfl hsegments k hlead
      -- the path that is read has one character more
      have hne : v.first ≠ k.text := fun h => hkeyword k (h ▸ List.prefix_refl _)
      obtain ⟨c, cs, buffer, htext, hw, hlength, hread⟩ :=
        readToken_stale parseDouble v.isName hlead hne true
      have htext' : v.text ++ [] = c :: cs := by
        rw [v.text_append, hsegments, ← htext]
        exact List.append_nil _
      have hstale := valueOf_path htext' hw hlength
        (none : Option (Continuation kinds parseDouble)) hread (Nat.zero_le _)
      have hpath : [v.first ++ [0]] = v.path :=
        Expression.VariableExpression.inj (Except.ok.inj (hstale.symm.trans hvalue))
      have hlengths := congrArg List.length (List.cons.inj hpath).1
      rw [List.length_append, List.length_singleton] at hlengths
      exact Nat.succ_ne_self _ hlengths
    refine ⟨hkeyword, ?_, hend⟩
    by_contra hsegments
    push Not at hsegments
    obtain ⟨s, hs, hbad⟩ := hsegments
    obtain ⟨error, hparse⟩ := KeyPath.parse_fails v.written_name
      ⟨s, List.mem_cons_of_mem _ hs, hbad⟩ hbreaks
    obtain ⟨c, cs, buffer, htext, hw, -, hread⟩ := v.readToken_text parseDouble hbreaks hkeyword
      (fun h => hend (hnil.mp h)) true hbuffer
    rw [readVariable, VariableText.text, hparse] at hread
    rw [valueOf_fails htext hw hread] at hvalue
    cases hvalue
  · intro hreads
    have hreads' : v.Reads (continued o = []) := by rwa [VariableText.Reads, hnil]
    obtain ⟨c, cs, buffer, htext, hw, hlength, hread⟩ :=
      hreads'.readToken_path parseDouble hbreaks true hbuffer
    apply valueOf_path htext hw hlength o hread
    obtain ⟨d, first, hfirst⟩ := List.exists_cons_of_ne_nil v.isName.ne_nil
    have hcount := congrArg List.length htext
    rw [v.text_append, hfirst] at hcount
    simp only [List.length_append, List.length_cons] at hcount
    omega

/-- The identifier `nulls`. -/
def nulls : VariableText fun _ => .other where
  first := [ch 'n', ch 'u', ch 'l', ch 'l', ch 's']
  segments := []
  isName := by
    refine ⟨⟨ch 'n', rfl, rfl⟩, ?_⟩
    intro c hc
    simp only [List.mem_cons, List.not_mem_nil, or_false] at hc
    rcases hc with rfl | rfl | rfl | rfl | rfl <;> rfl
  written := nofun

theorem valueOf_nulls : ¬ ∀ v : VariableText fun _ => .other,
    (∀ k : Keyword, v.first ≠ k.text) →
      ∀ o : Option (Continuation (fun _ => .other) fun _ => (none : Option ℕ)),
        valueOf (fun _ => .other) (fun _ => none) (v.text ++ continued o)
          = .ok (expected v.path o) := by
  intro hclaim
  have hne : ∀ k : Keyword, nulls.first ≠ k.text := by
    intro k h
    cases k with
    | null => exact absurd (congrArg List.length h) (by decide)
    | true => exact absurd (congrArg List.length h) (by decide)
    | false => exact absurd (congrArg List.head? h) (by decide)
  have hlead : Keyword.null.text <+: nulls.first := ⟨[ch 's'], rfl⟩
  exact valueOf_of_keyword hlead [] _ none (hclaim nulls hne none)

end Expression

end JavaFx.Fxml
