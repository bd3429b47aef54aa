/-
The tokenizer comes to the end of every text.

What a token leaves is a suffix of what was there, save for a keyword that the text ends
within: then one character is left that starts no keyword. So there are at most two turns more
than characters, and `tokenize` is what the tokens that are read give, one by one.
-/
import JavaFx.Fxml.ExpressionVariables

set_option autoImplicit false

namespace JavaFx.Fxml

open JavaFx.Lib

variable {D : Type} {kinds : Code → CharKind} {parseDouble : Str → Option D}

/-- The exceptions of this class; a number format exception is one. -/
def ParseError.IsIllegalArgument : ParseError → Prop
  | .illegalArgument _ | .numberFormat => True
  | .noSuchElement | .unsupportedOperation => False

/-- What is left is a suffix, and every failure is an illegal argument. -/
def Suffixes {α : Type} (cs : List Code) : Except ParseError (α × List Code) → Prop
  | .ok r => r.2 <:+ cs
  | .error e => e.IsIllegalArgument

theorem Suffixes.trans {α : Type} {cs cs' : List Code} {r : Except ParseError (α × List Code)}
    (h : Suffixes cs r) (h' : cs <:+ cs') : Suffixes cs' r := by
  cases r with
  | ok r => exact List.IsSuffix.trans h h'
  | error e => exact h

/-- A character at least is taken. -/
def Takes {α : Type} (cs : List Code) : Except ParseError (α × List Code) → Prop
  | .ok r => r.2 <:+ cs ∧ r.2.length < cs.length
  | .error e => e.IsIllegalArgument

theorem Suffixes.takes {α : Type} {c : Code} {cs : List Code}
    {r : Except ParseError (α × List Code)} (h : Suffixes cs r) : Takes (c :: cs) r := by
  cases r with
  | ok r =>
    have hsuffix : r.2 <:+ cs := h
    exact ⟨hsuffix.trans (List.suffix_cons c cs), Nat.lt_succ_of_le hsuffix.length_le⟩
  | error e => exact h

/-! ## Key paths -/

namespace KeyPath

theorem readBracketed_suffixes (quote : Option Code) (cs : List Code) (key : Str) :
    Suffixes cs (readBracketed kinds quote cs key) := by
  fun_induction readBracketed kinds quote cs key with
  | case6 => exact ⟨[_, _, _], rfl⟩
  | case7 _ _ _ _ _ _ _ _ ih => exact ih.trans ⟨[_, _], rfl⟩
  | case9 => exact ⟨[_, _], rfl⟩
  | case10 _ _ _ _ _ _ _ _ _ ih => exact ih.trans ⟨[_], rfl⟩
  | _ => trivial

theorem readElement_takes {c : Code} (cs : List Code)
    (hstart : (isJavaIdentifierStart kinds c || decide (c = ch '[')) = true) :
    Takes (c :: cs) (readElement kinds (c :: cs)) := by
  rw [readElement.eq_def]
  by_cases hbracket : c = ch '['
  · simp only [if_pos hbracket]
    apply Suffixes.takes
    cases cs with
    | nil => exact readBracketed_suffixes ..
    | cons q rest =>
      dsimp only
      split
      · exact (readBracketed_suffixes ..).trans (List.suffix_cons q rest)
      · exact readBracketed_suffixes ..
  · simp only [if_neg hbracket]
    have hc : isNamePart kinds c = true := by
      have hs : isJavaIdentifierStart kinds c = true := by simpa [hbracket] using hstart
      have hdot : c ≠ ch '.' := by
        rintro rfl
        cases (hs : isJavaIdentifierStart kinds (ch '.') = true)
      simp [isNamePart, hdot, hbracket, part_of_start hs]
    rw [List.dropWhile_cons_of_pos hc]
    exact Suffixes.takes (r := .ok (_, cs.dropWhile (isNamePart kinds))) (List.dropWhile_suffix _)

theorem readDot_suffix (cs : List Code) :
    match readDot cs with
    | .ok rest => rest <:+ cs
    | .error e => e.IsIllegalArgument := by
  cases cs with
  | nil => exact List.suffix_refl _
  | cons c cs =>
    rw [readDot]
    by_cases hdot : c = ch '.'
    · rw [if_pos hdot]
      by_cases hnil : cs = []
      · rw [if_pos hnil]
        trivial
      · rw [if_neg hnil]
        exact List.suffix_cons c cs
    · simp only [if_neg hdot, List.suffix_refl]

variable (kinds) in
/-- The elements go on as long as one can start. -/
theorem readElements_stops {fuel : ℕ} {cs : List Code} (hfuel : cs.length ≤ fuel)
    (elements : List Str) :
    match readElements kinds fuel cs elements with
    | .ok r => r.2 <:+ cs ∧ (r.1 = elements ∨ r.2.length < cs.length) ∧
        Stopped (isJavaIdentifierStart kinds) r.2
    | .error e => e.IsIllegalArgument := by
  induction fuel generalizing cs elements with
  | zero =>
    have hnil : cs = [] := List.eq_nil_of_length_eq_zero (Nat.le_zero.mp hfuel)
    subst hnil
    exact ⟨List.suffix_refl _, .inl rfl, nofun⟩
  | succ fuel ih =>
    cases cs with
    | nil => exact ⟨List.suffix_refl _, .inl rfl, nofun⟩
    | cons c cs =>
      rw [readElements]
      by_cases hstart : (isJavaIdentifierStart kinds c || decide (c = ch '[')) = true
      · rw [if_pos hstart]
        have helement := readElement_takes cs hstart
        cases hread : readElement kinds (c :: cs) with
        | error e =>
          rw [hread] at helement
          exact helement
        | ok r =>
          obtain ⟨key, rest⟩ := r
          rw [hread] at helement
          obtain ⟨hsuffix, hlt⟩ := helement
          rw [ok_bind]
          dsimp only at hsuffix hlt ⊢
          have hdot := readDot_suffix rest
          cases hread' : readDot rest with
          | error e =>
            rw [hread'] at hdot
            exact hdot
          | ok rest' =>
            rw [hread'] at hdot
            rw [ok_bind]
            by_cases hkey : key = []
            · rw [if_pos hkey]
              trivial
            · rw [if_neg hkey]
              have hlength : rest'.length < (c :: cs).length :=
                Nat.lt_of_le_of_lt hdot.length_le hlt
              have hrest := ih (Nat.le_of_lt_succ (Nat.lt_of_lt_of_le hlength hfuel))
                (elements ++ [key])
              cases hread'' : readElements kinds fuel rest' (elements ++ [key]) with
              | error e =>
                rw [hread''] at hrest
                exact hrest
              | ok r =>
                rw [hread''] at hrest
                obtain ⟨hsuffix', -, hstop⟩ := hrest
                exact ⟨hsuffix'.trans (hdot.trans hsuffix),
                  .inr (Nat.lt_of_le_of_lt hsuffix'.length_le hlength), hstop⟩
      · rw [if_neg hstart]
        refine ⟨List.suffix_refl _, .inl rfl, ?_⟩
        intro d hd
        cases hd
        exact (Bool.or_eq_false_iff.mp (Bool.eq_false_iff.mpr hstart)).1

variable (kinds) in
theorem parse_takes (cs : List Code) : Takes cs (parse kinds cs) ∧
    ∀ r, parse kinds cs = .ok r → Stopped (isJavaIdentifierStart kinds) r.2 := by
  have helements := readElements_stops kinds (Nat.le_refl cs.length) []
  rw [parse]
  cases hread : readElements kinds cs.length cs [] with
  | error e =>
    rw [hread] at helements
    exact ⟨helements, by rintro _ ⟨⟩⟩
  | ok r =>
    obtain ⟨elements, rest⟩ := r
    rw [hread] at helements
    obtain ⟨hsuffix, hlt, hstop⟩ := helements
    rw [ok_bind]
    dsimp only at hlt ⊢
    by_cases hnil : elements = []
    · rw [if_pos hnil]
      exact ⟨trivial, by rintro _ ⟨⟩⟩
    · rw [if_neg hnil]
      refine ⟨⟨hsuffix, hlt.resolve_left hnil⟩, ?_⟩
      intro r heq
      cases heq
      exact hstop

end KeyPath

/-! ## Literals and operators -/

theorem parseHex_error {text : Str} {e : ParseError} (h : parseHex kinds text = .error e) :
    e.IsIllegalArgument := by
  rw [parseHex] at h
  split at h
  · cases h
    trivial
  · split_ifs at h
    all_goals cases h
    all_goals trivial

theorem readString_suffixes (t : Code) (cs val : List Code) :
    Suffixes cs (readString kinds t cs val) := by
  fun_induction readString kinds t cs val with
  | case2 => exact List.suffix_cons ..
  | case3 _ _ _ _ _ ih => exact ih.trans (List.suffix_cons ..)
  | case5 _ _ _ _ _ _ _ ih => exact ih.trans ⟨[_, _], rfl⟩
  | case6 _ _ _ _ _ _ _ _ _ _ _ ih => exact ih.trans ⟨[_, _, _, _, _, _], rfl⟩
  | case7 _ _ _ _ _ _ _ h => exact parseHex_error h
  | case9 _ _ _ _ _ _ _ _ ih => exact ih.trans ⟨[_, _], rfl⟩
  | case11 _ _ _ _ _ _ ih => exact ih.trans (List.suffix_cons ..)
  | _ => trivial

theorem readNumber_takes {c : Code} (cs : List Code) (hc : isDigit kinds c = true) :
    Takes (c :: cs) (readNumber kinds parseDouble (c :: cs)) := by
  have hpart : isNumberPart kinds c = true := by simp [isNumberPart, hc]
  rw [readNumber]
  split
  · rw [List.dropWhile_cons_of_pos hpart]
    exact Suffixes.takes (r := .ok (_, cs.dropWhile (isNumberPart kinds))) (List.dropWhile_suffix _)
  · trivial

namespace Token

/-- The tokens that the tokenizer makes where an operand is to come, and where not. -/
def Allowed (unary : Bool) : Token D → Prop
  | .LITERAL _ | .VARIABLE _ => True
  | .UNARY_OPERATOR o => unary = true ∧ o.isUnary = true
  | .BINARY_OPERATOR o => unary = false ∧ o.isUnary = false
  | .BEGIN_GROUP => unary = true
  | .END_GROUP => unary = false

def Chained : Bool → List (Token D) → Prop
  | _, [] => True
  | unary, t :: ts => t.Allowed unary ∧ Chained (!t.endsOperand) ts

/-- What is done with tokens in turn. -/
def processAll (tokens stack : List (Token D)) :
    List (Token D) → Except ParseError (List (Token D) × List (Token D))
  | [] => .ok (tokens, stack)
  | t :: ts => do
      let (tokens, stack) ← process tokens stack t
      processAll tokens stack ts

end Token

/-- What an operator leaves, and where it is made. -/
def Operates (unary : Bool) (cs : List Code) : Except ParseError (Token D × List Code) → Prop
  | .ok r => r.2 <:+ cs ∧ r.1.Allowed unary
  | .error e => e.IsIllegalArgument

theorem Operates.ite {unary : Bool} {cs : List Code} {p : Prop} [Decidable p]
    {r r' : Except ParseError (Token D × List Code)} (h : Operates unary cs r)
    (h' : Operates unary cs r') : Operates unary cs (if p then r else r') := by
  by_cases hp : p
  · rwa [if_pos hp]
  · rwa [if_neg hp]

theorem readOperator_operates (unary : Bool) (c : Code) (cs : List Code) :
    Operates (D := D) unary cs (readOperator unary c cs) := by
  unfold readOperator
  extract_lets unexpected followed orEqual
  have hunexpected : Operates unary cs unexpected := trivial
  cases unary with
  | true =>
    have hunary : ∀ o, o.isUnary = true →
        Operates (D := D) true cs (.ok (.UNARY_OPERATOR o, cs)) :=
      fun o ho => ⟨List.suffix_refl _, rfl, ho⟩
    rw [if_pos rfl]
    apply Operates.ite (hunary _ rfl)
    apply Operates.ite (hunary _ rfl)
    exact Operates.ite ⟨List.suffix_refl _, rfl⟩ hunexpected
  | false =>
    have hfollowed : ∀ d o, o.isUnary = false → Operates false cs (followed d o) := by
      intro d o ho
      cases cs with
      | nil => exact hunexpected
      | cons c cs => exact Operates.ite ⟨List.suffix_cons c cs, rfl, ho⟩ hunexpected
    have horEqual : ∀ o o', o.isUnary = false → o'.isUnary = false →
        Operates false cs (orEqual o o') := by
      intro o o' ho ho'
      cases cs with
      | nil => exact ⟨List.suffix_refl _, rfl, ho'⟩
      | cons c cs =>
        exact Operates.ite ⟨List.suffix_cons c cs, rfl, ho⟩ ⟨List.suffix_refl _, rfl, ho'⟩
    have hbinary : ∀ o, o.isUnary = false →
        Operates (D := D) false cs (.ok (.BINARY_OPERATOR o, cs)) :=
      fun o ho => ⟨List.suffix_refl _, rfl, ho⟩
    rw [if_neg Bool.false_ne_true]
    apply Operates.ite (hbinary _ rfl)
    apply Operates.ite (hbinary _ rfl)
    apply Operates.ite (hbinary _ rfl)
    apply Operates.ite (hbinary _ rfl)
    apply Operates.ite (hbinary _ rfl)
    apply Operates.ite (hfollowed _ _ rfl)
    apply Operates.ite (hfollowed _ _ rfl)
    apply Operates.ite (horEqual _ _ rfl rfl)
    apply Operates.ite (horEqual _ _ rfl rfl)
    apply Operates.ite (hfollowed _ _ rfl)
    apply Operates.ite (hfollowed _ _ rfl)
    exact Operates.ite ⟨List.suffix_refl _, rfl⟩ hunexpected

/-! ## Tokens -/

/-- A character that can start a keyword. -/
def startsKeyword (c : Code) : Bool := (Keyword.ofFirst c).isSome

/-- The characters that are left, and one more as long as a keyword can come. -/
def weight (cs : List Code) : ℕ := cs.length + if cs.any startsKeyword then 1 else 0

theorem weight_le_succ (cs : List Code) : weight cs ≤ cs.length + 1 := by
  unfold weight
  split <;> omega

theorem weight_suffix {rest cs : List Code} (h : rest <:+ cs) :
    weight rest + (cs.length - rest.length) ≤ weight cs := by
  have hany : rest.any startsKeyword = true → cs.any startsKeyword = true := by
    intro hrest
    obtain ⟨c, hc, hstart⟩ := List.any_eq_true.mp hrest
    exact List.any_eq_true.mpr ⟨c, h.subset hc, hstart⟩
  have hlength := h.length_le
  unfold weight
  split
  · next hrest =>
    rw [if_pos (hany hrest)]
    omega
  · omega

/-- What a turn of the tokenizer does. -/
def Turns (unary : Bool) (cs : List Code) :
    Except ParseError (Token D × List Code × List Code) → Prop
  | .ok r => r.1.Allowed unary ∧ weight r.2.1 < weight cs ∧ r.2.2.length = 6
  | .error e => e.IsIllegalArgument

theorem Takes.weight_lt {α : Type} {cs : List Code} {r : α × List Code}
    (h : Takes cs (.ok r)) : weight r.2 < weight cs := by
  obtain ⟨hsuffix, hlt⟩ := h
  have hle := weight_suffix hsuffix
  omega

/-- An operand that takes a character. -/
theorem Takes.turns {α : Type} {cs buffer : List Code} {r : Except ParseError (α × List Code)}
    (h : Takes cs r) (token : α → Token D) {unary : Bool}
    (htoken : ∀ a, r = .ok a → (token a.1).Allowed unary) (hbuffer : buffer.length = 6) :
    Turns unary cs (r.bind fun r => .ok (token r.1, r.2, buffer)) := by
  cases r with
  | error e => exact h
  | ok r => exact ⟨htoken r rfl, h.weight_lt, hbuffer⟩

variable (kinds) in
theorem readVariable_takes (cs : List Code) :
    Takes cs (readVariable (D := D) kinds cs) ∧
      ∀ r, readVariable (D := D) kinds cs = .ok r →
        (∀ unary, r.1.Allowed unary) ∧ Stopped (isJavaIdentifierStart kinds) r.2 := by
  obtain ⟨htakes, hstop⟩ := KeyPath.parse_takes kinds cs
  rw [readVariable]
  cases hparse : KeyPath.parse kinds cs with
  | error e =>
    rw [hparse] at htakes
    exact ⟨htakes, by rintro _ ⟨⟩⟩
  | ok r =>
    rw [hparse] at htakes
    refine ⟨htakes, ?_⟩
    intro r' heq
    cases heq
    exact ⟨fun _ => trivial, hstop r hparse⟩

/-- A keyword is read, or what was there is left; at the end of the text there may be one
character more. -/
theorem readKeyword_spec {keyword : Str} (cs : List Code) {buffer : List Code}
    (hroom : keyword.length < buffer.length) :
    ∃ found rest buffer', readKeyword keyword 0 buffer cs = (found, rest, buffer')
      ∧ buffer'.length = buffer.length
      ∧ (found = true ∧ cs = keyword ++ rest
        ∨ found = false ∧ (rest = cs ∨ cs <+: keyword ∧ ∃ x, rest = cs ++ [x])) := by
  by_cases hkeyword : keyword <+: cs
  · obtain ⟨rest, rfl⟩ := hkeyword
    obtain ⟨buffer', hread, hlength⟩ := readKeyword_prefix keyword rest 0 buffer
    exact ⟨true, rest, buffer', hread, hlength, .inl ⟨rfl, rfl⟩⟩
  · by_cases hend : cs <+: keyword
    · have hne : cs ≠ keyword := fun heq => hkeyword (heq ▸ List.prefix_refl _)
      have hbound : ([] : Str).length + cs.length < buffer.length := by
        rw [List.length_nil, Nat.zero_add]
        exact Nat.lt_of_le_of_lt hend.length_le hroom
      obtain ⟨buffer', hread, hlength⟩ :=
        readKeyword_short [] rfl (List.getElem?_eq_getElem hbound) hend hne
      exact ⟨false, _, buffer', hread, hlength, .inr ⟨rfl, .inr ⟨hend, _, rfl⟩⟩⟩
    · have hroom' : ([] : Str).length + keyword.length ≤ buffer.length := by
        rw [List.length_nil, Nat.zero_add]
        exact Nat.le_of_lt hroom
      obtain ⟨buffer', hread, hlength⟩ := readKeyword_mismatch [] rfl hroom' hkeyword hend
      exact ⟨false, cs, buffer', hread, hlength, .inr ⟨rfl, .inl rfl⟩⟩

theorem start_of_startsKeyword {c : Code} (hc : startsKeyword c = true) :
    isJavaIdentifierStart kinds c = true := by
  rw [startsKeyword, Keyword.ofFirst] at hc
  split_ifs at hc with hn ht hf
  · rw [hn]
    rfl
  · rw [ht]
    rfl
  · rw [hf]
    rfl
  · cases hc

/-- What a key path leaves of the letters of a keyword and one character more. -/
theorem weight_stale {k : Keyword} {cs rest : List Code} {x : Code} (hlead : cs <+: k.text)
    (hsuffix : rest <:+ cs ++ [x]) (hstop : Stopped (isJavaIdentifierStart kinds) rest) :
    weight rest ≤ 1 := by
  rcases List.suffix_concat_iff.mp hsuffix with rfl | ⟨t, rfl, ht⟩
  · exact Nat.zero_le _
  · cases t with
    | nil =>
      have hx : startsKeyword x = false := by
        by_contra hstart
        have hfalse := hstop x rfl
        rw [start_of_startsKeyword (by simpa using hstart)] at hfalse
        cases hfalse
      simp [weight, hx]
    | cons d t =>
      have hd : d ∈ k.text := hlead.subset (ht.subset List.mem_cons_self)
      have hfalse := hstop d rfl
      rw [k.start d hd] at hfalse
      cases hfalse

theorem readWord_turns (unary : Bool) {k : Keyword} {c : Code} (cs : List Code)
    (hc : Keyword.ofFirst c = some k) {buffer : List Code} (hbuffer : buffer.length = 6) :
    Turns (D := D) unary (c :: cs) (readWord kinds k.text k.value buffer (c :: cs)) := by
  have hstart : startsKeyword c = true := by
    rw [startsKeyword, hc]
    rfl
  have hweight : 2 ≤ weight (c :: cs) := by
    simp [weight, hstart]
  obtain ⟨found, rest, buffer', hread, hlength, hcase⟩ :=
    readKeyword_spec (c :: cs) (hbuffer.symm ▸ k.length_text_le)
  rw [readWord, hread]
  rcases hcase with ⟨rfl, htext⟩ | ⟨rfl, hcase⟩
  · -- the keyword is there
    refine ⟨trivial, ?_, hlength.trans hbuffer⟩
    have hsuffix : rest <:+ c :: cs := ⟨k.text, htext.symm⟩
    have hne : 0 < k.text.length := by cases k <;> decide
    have hcount := congrArg List.length htext
    rw [List.length_append] at hcount
    have hle := weight_suffix hsuffix
    dsimp only
    omega
  · obtain ⟨htakes, hpath⟩ := readVariable_takes (D := D) kinds rest
    dsimp only
    cases hvariable : readVariable (D := D) kinds rest with
    | error e =>
      rw [hvariable] at htakes
      exact htakes
    | ok r =>
      rw [hvariable] at htakes
      obtain ⟨hallowed, hstop⟩ := hpath r hvariable
      refine ⟨hallowed unary, ?_, hlength.trans hbuffer⟩
      rcases hcase with rfl | ⟨hlead, x, rfl⟩
      · exact htakes.weight_lt
      · exact Nat.lt_of_le_of_lt (weight_stale hlead htakes.1 hstop) hweight

variable (kinds parseDouble) in
theorem readToken_turns (unary : Bool) {buffer : List Code} (hbuffer : buffer.length = 6)
    (c : Code) (cs : List Code) :
    Turns unary (c :: cs) (readToken kinds parseDouble unary buffer c cs) := by
  cases hfirst : Keyword.ofFirst c with
  | some k =>
    have hstart : isJavaIdentifierStart kinds c = true :=
      start_of_startsKeyword (by rw [startsKeyword, hfirst]; rfl)
    rw [readToken_start parseDouble hstart, hfirst]
    exact readWord_turns unary cs hfirst hbuffer
  | none =>
    rw [Keyword.ofFirst] at hfirst
    split_ifs at hfirst with hn ht hf
    rw [readToken, if_neg hn]
    split
    · exact (readString_suffixes c cs []).takes.turns (fun s => .LITERAL (.string s))
        (fun _ _ => trivial) hbuffer
    · split
      · next hdigit =>
        exact (readNumber_takes cs hdigit).turns .LITERAL (fun _ _ => trivial) hbuffer
      · split
        · obtain ⟨htakes, hpath⟩ := readVariable_takes (D := D) kinds (c :: cs)
          exact htakes.turns id (fun r hr => (hpath r hr).1 unary) hbuffer
        · have hoperates := readOperator_operates (D := D) unary c cs
          cases hoperator : readOperator (D := D) unary c cs with
          | error e =>
            rw [hoperator] at hoperates
            exact hoperates
          | ok r =>
            rw [hoperator] at hoperates
            have htakes : Takes (c :: cs) (.ok r) := Suffixes.takes hoperates.1
            exact ⟨hoperates.2, htakes.weight_lt, hbuffer⟩

/-! ## The whole text -/

/-- The tokens that are read from a text in turn, and the exception that ends it if one
does. -/
inductive ReadsAs (kinds : Code → CharKind) (parseDouble : Str → Option D) :
    Bool → List Code → List Code → List (Token D) → Option ParseError → Prop
  | done {unary : Bool} {buffer cs : List Code} (h : cs.dropWhile (isWhitespace kinds) = []) :
      ReadsAs kinds parseDouble unary buffer cs [] none
  | fails {unary : Bool} {buffer cs cs' : List Code} {c : Code} {e : ParseError}
      (h : cs.dropWhile (isWhitespace kinds) = c :: cs')
      (hread : readToken kinds parseDouble unary buffer c cs' = .error e) :
      ReadsAs kinds parseDouble unary buffer cs [] (some e)
  | token {unary : Bool} {buffer buffer' cs cs' rest : List Code} {c : Code} {t : Token D}
      {ts : List (Token D)} {e : Option ParseError}
      (h : cs.dropWhile (isWhitespace kinds) = c :: cs')
      (hread : readToken kinds parseDouble unary buffer c cs' = .ok (t, rest, buffer'))
      (hrest : ReadsAs kinds parseDouble (!t.endsOperand) buffer' rest ts e) :
      ReadsAs kinds parseDouble unary buffer cs (t :: ts) e

variable (kinds parseDouble) in
/-- Every text comes to an end, after at most as many tokens as it weighs. -/
theorem exists_readsAs (n : ℕ) (unary : Bool) {buffer cs : List Code}
    (hbuffer : buffer.length = 6) (hn : weight cs ≤ n) :
    ∃ ts e, ReadsAs kinds parseDouble unary buffer cs ts e ∧ ts.length ≤ n := by
  induction n generalizing unary buffer cs with
  | zero =>
    have hnil : cs = [] := by
      apply List.eq_nil_of_length_eq_zero
      unfold weight at hn
      omega
    subst hnil
    exact ⟨[], none, .done rfl, Nat.le_refl _⟩
  | succ n ih =>
    cases hdrop : cs.dropWhile (isWhitespace kinds) with
    | nil => exact ⟨[], none, .done hdrop, Nat.zero_le _⟩
    | cons c cs' =>
      have hturns := readToken_turns kinds parseDouble unary hbuffer c cs'
      cases hread : readToken kinds parseDouble unary buffer c cs' with
      | error e => exact ⟨[], some e, .fails hdrop hread, Nat.zero_le _⟩
      | ok r =>
        obtain ⟨t, rest, buffer'⟩ := r
        rw [hread] at hturns
        obtain ⟨-, hlt, hbuffer'⟩ := hturns
        have hsuffix : c :: cs' <:+ cs := hdrop ▸ List.dropWhile_suffix _
        have hle := weight_suffix hsuffix
        dsimp only at hlt
        have hrest : weight rest ≤ n := by omega
        obtain ⟨ts, e, hreads, hlength⟩ := ih (!t.endsOperand) hbuffer' hrest
        exact ⟨t :: ts, e, .token hdrop hread hreads, Nat.succ_le_succ hlength⟩

namespace ReadsAs

theorem unique {unary : Bool} {buffer cs : List Code} {ts ts' : List (Token D)}
    {e e' : Option ParseError} (h : ReadsAs kinds parseDouble unary buffer cs ts e)
    (h' : ReadsAs kinds parseDouble unary buffer cs ts' e') : ts = ts' ∧ e = e' := by
  induction h generalizing ts' e' with
  | done hdrop =>
    cases h' with
    | done => exact ⟨rfl, rfl⟩
    | fails hdrop' | token hdrop' =>
      rw [hdrop] at hdrop'
      cases hdrop'
  | fails hdrop hread =>
    cases h' with
    | done hdrop' =>
      rw [hdrop] at hdrop'
      cases hdrop'
    | fails hdrop' hread' =>
      cases hdrop.symm.trans hdrop'
      cases hread.symm.trans hread'
      exact ⟨rfl, rfl⟩
    | token hdrop' hread' =>
      cases hdrop.symm.trans hdrop'
      cases hread.symm.trans hread'
  | token hdrop hread hrest ih =>
    cases h' with
    | done hdrop' =>
      rw [hdrop] at hdrop'
      cases hdrop'
    | fails hdrop' hread' =>
      cases hdrop.symm.trans hdrop'
      cases hread.symm.trans hread'
    | token hdrop' hread' hrest' =>
      cases hdrop.symm.trans hdrop'
      cases hread.symm.trans hread'
      obtain ⟨rfl, rfl⟩ := ih hrest'
      exact ⟨rfl, rfl⟩

/-- The tokens come where the tokenizer makes them, and every exception is an illegal
argument. -/
theorem turns {unary : Bool} {buffer cs : List Code} {ts : List (Token D)} {e : Option ParseError}
    (h : ReadsAs kinds parseDouble unary buffer cs ts e) (hbuffer : buffer.length = 6) :
    Token.Chained unary ts ∧ ∀ x ∈ e, x.IsIllegalArgument := by
  induction h with
  | done hdrop => exact ⟨trivial, nofun⟩
  | @fails unary _ _ cs' c _ hdrop hread =>
    have hturns := readToken_turns kinds parseDouble unary hbuffer c cs'
    rw [hread] at hturns
    refine ⟨trivial, ?_⟩
    rintro x ⟨⟩
    exact hturns
  | @token unary _ _ _ cs' _ c _ _ _ hdrop hread hrest ih =>
    have hturns := readToken_turns kinds parseDouble unary hbuffer c cs'
    rw [hread] at hturns
    obtain ⟨hallowed, -, hbuffer'⟩ := hturns
    exact ⟨⟨hallowed, (ih hbuffer').1⟩, (ih hbuffer').2⟩

end ReadsAs

/-- The loop of the tokenizer handles the tokens that are read, one by one. -/
theorem tokenizeLoop_readsAs {unary : Bool} {buffer cs : List Code} {ts : List (Token D)}
    {e : Option ParseError} (h : ReadsAs kinds parseDouble unary buffer cs ts e) {fuel : ℕ}
    (hfuel : ts.length < fuel) (tokens stack : List (Token D)) :
    tokenizeLoop kinds parseDouble fuel unary buffer cs tokens stack
      = (Token.processAll tokens stack ts).bind fun r =>
          match e with
          | none => .ok (r.1 ++ r.2)
          | some e => .error e := by
  induction h generalizing fuel tokens stack with
  | done hdrop =>
    obtain ⟨fuel, rfl⟩ := Nat.exists_eq_succ_of_ne_zero (Nat.ne_of_gt hfuel)
    rw [tokenizeLoop, hdrop]
    rfl
  | fails hdrop hread =>
    obtain ⟨fuel, rfl⟩ := Nat.exists_eq_succ_of_ne_zero (Nat.ne_of_gt hfuel)
    rw [tokenizeLoop, hdrop]
    simp only [hread, error_bind]
    rfl
  | token hdrop hread hrest ih =>
    obtain ⟨fuel, rfl⟩ := Nat.exists_eq_succ_of_ne_zero (Nat.ne_of_gt (Nat.zero_lt_of_lt hfuel))
    rw [tokenizeLoop, hdrop, Token.processAll]
    simp only [hread, ok_bind]
    cases hprocess : Token.process tokens stack _ with
    | error e => rfl
    | ok r =>
      rw [ok_bind, ok_bind]
      exact ih (Nat.lt_of_succ_lt_succ hfuel) r.1 r.2

end JavaFx.Fxml
