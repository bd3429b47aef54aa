/-
The loop of `JSONStreamReaderImpl.next` ends.

A nonterminal is replaced by symbols that weigh less together, or the terminal that comes
next is on top of the stack after it; a terminal is taken from the stack with a symbol of
the input. So `Processor.turns` falls with every turn, `nextWithin` never runs out, and
`loop_eq` is the loop of the source without a bound.
-/
import JavaFx.Json.JSONStreamReaderImpl

set_option autoImplicit false

namespace JavaFx.Json

open JavaFx.Lib

/-! ## The scanner goes forward -/

namespace JSONScanner

variable {s s' : JSONScanner}

theorem readChar_reader (s : JSONScanner) : s.readChar.2.reader = s.reader.tail := by
  unfold readChar
  cases s.reader with
  | nil => simp
  | cons c rest =>
    simp only
    split <;> rfl

theorem readChar_fst (s : JSONScanner) : s.readChar.1 = s.reader.head? := by
  unfold readChar
  cases h : s.reader with
  | nil => rfl
  | cons c rest =>
    simp only
    split <;> rfl

/-- The scanner after a token has been given up to its end. -/
theorem finish_pending (s : JSONScanner) (symbol : JSONSymbol) (value : Option Str) :
    (s.finish symbol value).2.pending = s.reader.length := by
  simp only [finish, pending, readChar_reader, readChar_fst, List.length_tail]
  cases s.reader with
  | nil => rfl
  | cons c rest => simp

theorem length_readChar_le (s : JSONScanner) : s.readChar.2.reader.length ≤ s.reader.length := by
  rw [readChar_reader, List.length_tail]
  exact Nat.sub_le _ _

theorem matchKeyword_le (text : Str) (s : JSONScanner) :
    (matchKeyword text s).2.reader.length ≤ s.reader.length := by
  induction text generalizing s with
  | nil => exact Nat.le_refl _
  | cons t text ih =>
    rw [matchKeyword]
    split
    · exact (ih _).trans (length_readChar_le s)
    · exact length_readChar_le s

theorem readString_le (rest : List Code) (s : JSONScanner) (state : StringState) (val : Str) :
    (readString rest s state val).2.reader.length ≤ s.reader.length := by
  induction rest generalizing s state val with
  | nil =>
    cases state with
    | plain => exact length_readChar_le s
    | escape => exact length_readChar_le s
    | unicode left code => exact length_readChar_le s
  | cons c rest ih =>
    have hread := length_readChar_le s
    have hrest : ∀ state val, (readString rest s.readChar.2 state val).2.reader.length
        ≤ s.reader.length := fun state val => (ih _ state val).trans hread
    cases state with
    | plain =>
      rw [readString]
      split_ifs
      · exact hrest _ _
      · exact hread
      · exact hread
      · exact hrest _ _
    | escape =>
      rw [readString]
      split
      · exact hrest _ _
      · split
        · exact hrest _ _
        · exact hread
    | unicode left code =>
      rw [readString]
      split
      · split
        · exact hrest _ _
        · exact hrest _ _
      · exact hread

/-! A reading of a number holds the character after those it has taken. -/

theorem appendChar_le (s : JSONScanner) (val : Str) :
    (s.appendChar val).2.2.reader.length + (if (s.appendChar val).1.isSome then 1 else 0)
      ≤ s.reader.length := by
  simp only [appendChar, readChar_reader, readChar_fst, List.length_tail]
  cases s.reader with
  | nil => simp
  | cons c rest => simp

theorem appendDigits_le (rest : List Code) (s : JSONScanner) (val : Str) :
    (appendDigits rest s val).2.2.reader.length
      + (if (appendDigits rest s val).1.isSome then 1 else 0) ≤ s.reader.length := by
  induction rest generalizing s val with
  | nil => exact appendChar_le s val
  | cons c rest ih =>
    rw [appendDigits]
    split
    · exact (ih _ _).trans (length_readChar_le s)
    · exact appendChar_le s val

/-- What a reading has still to give, with its current character. -/
def Reading.left (r : Reading) : ℕ := r.2.2.reader.length + if r.1.isSome then 1 else 0

theorem readInt_le (r : Reading) : (readInt r).left ≤ r.2.2.reader.length := by
  unfold readInt
  simp only
  split
  · exact appendChar_le _ _
  · exact appendDigits_le _ _ _

theorem readFrac_le {r r' : Reading} (h : readFrac r = (.ok r', s')) : r'.left ≤ r.left := by
  have hle : r.2.2.reader.length ≤ r.left := Nat.le_add_right _ _
  rw [readFrac] at h
  split at h
  · simp only at h
    split at h
    · simp [fail] at h
    · simp only [Prod.mk.injEq, Except.ok.injEq] at h
      rw [← h.1]
      exact (appendDigits_le _ _ _).trans hle
  · simp only [Prod.mk.injEq, Except.ok.injEq] at h
    rw [← h.1]

theorem readExpSign_le (r : Reading) : (readExpSign r).left ≤ r.left := by
  unfold readExpSign
  split
  · exact (appendChar_le _ _).trans (Nat.le_add_right _ _)
  · exact Nat.le_refl _

theorem readExp_le {r r' : Reading} (h : readExp r = (.ok r', s')) : r'.left ≤ r.left := by
  have hle : r.2.2.reader.length ≤ r.left := Nat.le_add_right _ _
  rw [readExp] at h
  split at h
  · simp only at h
    split at h
    · simp only [Prod.mk.injEq, Except.ok.injEq] at h
      rw [← h.1]
      refine (appendDigits_le _ _ _).trans ?_
      refine (Nat.le_add_right _ _).trans ((readExpSign_le _).trans ?_)
      exact (appendChar_le _ _).trans hle
    · simp [fail] at h
  · simp only [Prod.mk.injEq, Except.ok.injEq] at h
    rw [← h.1]

theorem readSign_le {prefetch : Code} {r : Reading} (h : readSign prefetch s = (.ok r, s')) :
    r.2.2.reader.length ≤ s.reader.length := by
  rw [readSign] at h
  split at h
  · simp only at h
    split at h
    · simp only [Prod.mk.injEq, Except.ok.injEq] at h
      rw [← h.1]
      exact length_readChar_le s
    · simp [fail] at h
  · simp only [Prod.mk.injEq, Except.ok.injEq] at h
    rw [← h.1]

theorem readNumber_pending {prefetch : Code} {symbol : JSONSymbol}
    (h : readNumber prefetch s = (.ok symbol, s')) : s'.pending ≤ s.reader.length := by
  rw [readNumber] at h
  split at h
  · simp at h
  · next r s₁ hsign =>
    split at h
    · simp at h
    · next r₂ s₂ hfrac =>
      split at h
      · simp at h
      · next r₃ s₃ hexp =>
        simp only [Prod.mk.injEq, Except.ok.injEq] at h
        rw [← h.2]
        have h₁ := readSign_le hsign
        have h₂ := readInt_le r
        have h₃ := readFrac_le hfrac
        have h₄ := readExp_le hexp
        simp only [pending]
        rw [Reading.left] at h₄
        omega

theorem skipSpace_le (rest : List Code) (c : Option Code) (s : JSONScanner) :
    (skipSpace rest c s).2.reader.length + (if (skipSpace rest c s).1.isSome then 1 else 0)
      ≤ s.reader.length + if c.isSome then 1 else 0 := by
  induction rest generalizing c s with
  | nil =>
    rw [skipSpace]
    split
    · exact (appendChar_le s []).trans (Nat.le_add_right _ _)
    · exact Nat.le_refl _
  | cons d rest ih =>
    rw [skipSpace]
    split
    · exact (ih _ _).trans ((appendChar_le s []).trans (Nat.le_add_right _ _))
    · exact Nat.le_refl _

/-- A symbol other than the last one takes a character at least. -/
theorem scanFrom_pending {c : Option Code} {symbol : JSONSymbol}
    (h : scanFrom c s = (.ok symbol, s')) :
    s'.pending ≤ s.reader.length ∧ (c = none → symbol = .EOS) := by
  cases c with
  | none =>
    simp only [scanFrom, Prod.mk.injEq, Except.ok.injEq] at h
    rw [← h.2, ← h.1]
    exact ⟨Nat.le_refl _, fun _ => rfl⟩
  | some c =>
    refine ⟨?_, fun hn => by cases hn⟩
    have hkeyword : ∀ text, s.readKeyword text = (.ok symbol, s') →
        s'.pending ≤ s.reader.length := by
      intro text hk
      rw [readKeyword] at hk
      split at hk
      · next s₁ hmatch =>
        have hle := matchKeyword_le text.tail s
        rw [hmatch] at hle
        have hfin := finish_pending s₁ .KEYWORD (some text)
        rw [hk] at hfin
        exact hfin.le.trans hle
      · simp at hk
    simp only [scanFrom] at h
    split at h
    · next symbol' _ =>
      have hfin := finish_pending s symbol' none
      rw [h] at hfin
      exact hfin.le
    · split_ifs at h
      · exact hkeyword _ h
      · exact hkeyword _ h
      · exact hkeyword _ h
      · split at h
        · next val s₁ hstring =>
          have hle := readString_le s.reader s .plain []
          rw [hstring] at hle
          have hfin := finish_pending s₁ .STRING (some val)
          rw [h] at hfin
          exact hfin.le.trans hle
        · simp at h
      · exact readNumber_pending h
      · simp [fail] at h

theorem nextSymbol_pending {symbol : JSONSymbol} (h : s.nextSymbol = (.ok symbol, s')) :
    s'.pending + (if symbol = .EOS then 0 else 1) ≤ s.pending := by
  rw [nextSymbol] at h
  have hskip := skipSpace_le s.reader s.prevChar s
  obtain ⟨hle, hnone⟩ := scanFrom_pending h
  simp only at hle
  have hpending : s.pending = s.reader.length + if s.prevChar.isSome then 1 else 0 := rfl
  cases hc : (skipSpace s.reader s.prevChar s).1 with
  | none =>
    rw [hnone hc, if_pos rfl]
    omega
  | some c =>
    rw [hc] at hskip
    simp only [Option.isSome_some, if_true] at hskip
    split <;> omega

end JSONScanner

/-! ## The bound falls -/

namespace JSONSymbol

theorem weight_pos (s : JSONSymbol) : 1 ≤ s.weight := by cases s <;> decide

theorem weights_cons (s : JSONSymbol) (stack : List JSONSymbol) :
    weights (s :: stack) = s.weight + weights stack := by simp [weights]

theorem weights_append (target stack : List JSONSymbol) :
    weights (target ++ stack) = weights target + weights stack := by simp [weights]

theorem weight_marker {s marker : JSONSymbol} (h : s.markerSymbol = some marker) :
    marker.weight = 1 := by
  cases s <;> simp only [markerSymbol, Option.some.injEq, reduceCtorEq] at h
  all_goals
    rw [← h]
    rfl

/-- A nonterminal is replaced by less, or by a sequence that starts with the terminal that
comes next. -/
theorem transitions_weight {s t : JSONSymbol} {target : List JSONSymbol}
    (h : s.transitions t = some target) :
    weights target + 1 < s.weight ∨ (∃ rest, target = t :: rest) ∧
      (t ≠ .EOS ∧ t.isMarker = false ∧ t.markerSymbol = none) ∧
      weights target + 1 < s.weight + 12 := by
  unfold transitions at h
  split at h
  all_goals
    cases h <;> first
    | exact .inl (by decide)
    | exact .inr ⟨⟨_, rfl⟩, by decide, by decide⟩

end JSONSymbol

namespace Processor

variable {p p' : Processor} {s : JSONSymbol}

theorem turns_le (p : Processor) : p.turns ≤ 13 * p.remaining + JSONSymbol.weights p.stack :=
  Nat.sub_le _ _

/-- Only a terminal of the input matches. -/
theorem turns_of_not_matching (h : p.matching = false) :
    p.turns = 13 * p.remaining + JSONSymbol.weights p.stack := by
  rw [turns, h]
  simp

/-- A terminal taken from the input. -/
theorem advance_remaining (h : advance p = (.ok (), p')) :
    p'.remaining ≤ p.scanner.pending ∧ p'.stack = p.stack := by
  rw [advance] at h
  split at h
  · next symbol scanner hnext =>
    simp only [Prod.mk.injEq, true_and] at h
    rw [← h]
    have hle := JSONScanner.nextSymbol_pending hnext
    refine ⟨?_, rfl⟩
    simp only [remaining, Option.any_some, bne_iff_ne]
    split at hle
    · next heos => simpa [heos] using hle
    · next hne => simpa [hne] using hle
  · simp at h

/-- **Every turn brings the end nearer.** -/
theorem turns_next (h : p.next = (.ok s, p')) : p'.turns < p.turns := by
  rw [next] at h
  cases hstack : p.stack with
  | nil => simp [hstack] at h
  | cons current stack =>
    simp only [hstack] at h
    have hpos := current.weight_pos
    have hweights := JSONSymbol.weights_cons current stack
    by_cases hmarker : current.isMarker
    · -- a marker
      rw [if_pos hmarker] at h
      simp only [Prod.mk.injEq, Except.ok.injEq] at h
      rw [← h.2, turns_of_not_matching (p := p) (by simp [matching, hstack, hmarker]), hstack,
        hweights]
      refine (turns_le _).trans_lt ?_
      simp only [remaining]
      omega
    · rw [if_neg hmarker] at h
      cases hsym : current.markerSymbol with
      | none =>
        simp only [hsym] at h
        split at h
        · next hterm =>
          -- a terminal
          have hremaining : p.remaining
              = p.scanner.pending + if current ≠ .EOS then 1 else 0 := by
            simp [remaining, hterm]
          have hmatching : p.matching = (current != .EOS) := by
            simp [matching, hstack, hterm, hmarker, hsym]
          split at h
          · next hadv =>
            simp only [Prod.mk.injEq, Except.ok.injEq] at h
            rw [← h.2]
            obtain ⟨hle, hst⟩ := advance_remaining hadv
            have hturns := turns_le (p := ‹Processor›)
            rw [hst] at hturns
            refine hturns.trans_lt ?_
            simp only at hle
            rw [turns, hstack, hweights, hmatching, hremaining]
            by_cases heos : current = .EOS
            · simp [heos] at hpos ⊢
              omega
            · simp [heos]
              omega
          · simp at h
        · simp [unexpected] at h
      | some marker =>
        simp only [hsym] at h
        split at h
        · simp [unexpected] at h
        · next target htarget =>
          -- a nonterminal
          simp only [Prod.mk.injEq, Except.ok.injEq] at h
          obtain ⟨t, hterm, htrans⟩ := Option.bind_eq_some_iff.1 htarget
          have hm := JSONSymbol.weight_marker hsym
          rw [← h.2, turns_of_not_matching (p := p) (by simp [matching, hstack, hsym]),
            hstack, hweights]
          rcases JSONSymbol.transitions_weight htrans with hless | ⟨⟨rest, hrest⟩, ht, hless⟩
          · refine (turns_le _).trans_lt ?_
            simp only [remaining, JSONSymbol.weights_append, JSONSymbol.weights_cons]
            omega
          · have hleft : 1 ≤ p.remaining := by
              simp [remaining, hterm, ht.1]
            have hmatching : ({ p with stack := target ++ marker :: stack } :
                Processor).matching = true := by
              simp [matching, hrest, hterm, ht.1, ht.2.1, ht.2.2]
            simp only [turns, hmatching, if_true, JSONSymbol.weights_append,
              JSONSymbol.weights_cons]
            have hsame : ({ p with stack := target ++ marker :: stack } :
                Processor).remaining = p.remaining := rfl
            rw [hsame]
            omega

end Processor

namespace JSONStreamReaderImpl

variable {own : JSONScanner → JSONScanner} {r r' : JSONStreamReaderImpl}

theorem onSymbol_again {s : JSONSymbol} (h : onSymbol own r s = .again r') : r' = r := by
  cases s <;> simp only [onSymbol] at h
  all_goals first
    | (cases h <;> rfl)
    | (split at h <;> cases h)

theorem onSymbol_key {s : JSONSymbol} (h : onSymbol own r s = .key r') : r' = r := by
  cases s <;> simp only [onSymbol] at h
  all_goals first
    | (cases h <;> rfl)
    | (split at h <;> cases h)

theorem turn_again (h : turn own r = .again r') :
    r'.processor.turns < r.processor.turns := by
  rw [turn] at h
  split at h
  · cases h
  · next symbol p hnext =>
    rw [onSymbol_again h]
    exact Processor.turns_next hnext

theorem turn_key (h : turn own r = .key r') : r'.processor.turns < r.processor.turns := by
  rw [turn] at h
  split at h
  · cases h
  · next symbol p hnext =>
    rw [onSymbol_key h]
    exact Processor.turns_next hnext

/-- More turns than the bound change nothing. -/
theorem nextWithin_eq {m n : ℕ} (hm : r.processor.turns < m) (hn : r.processor.turns < n) :
    nextWithin own m r = nextWithin own n r := by
  induction m generalizing n r with
  | zero => exact absurd hm (Nat.not_lt_zero _)
  | succ m ih =>
    cases n with
    | zero => exact absurd hn (Nat.not_lt_zero _)
    | succ n =>
      rw [nextWithin, nextWithin]
      cases hturn : turn own r with
      | ends out => rfl
      | again r' =>
        have hlt := turn_again hturn
        exact ih (by omega) (by omega)
      | key r' =>
        have hlt := turn_key hturn
        simp only
        rw [ih (n := n)]
        · exact (Nat.lt_of_lt_of_le hlt (Nat.le_of_lt_succ hm))
        · exact (Nat.lt_of_lt_of_le hlt (Nat.le_of_lt_succ hn))

end JSONStreamReaderImpl

end JavaFx.Json
