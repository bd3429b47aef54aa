/-
The parser of expressions and the priorities of its operators.

The tokenizer with its output and its stack of operators does step by step what the machine
of `Lib.OperatorStack` does on the lexemes of the text (`Refines`): the frames of the
machine are the operators on the stack with the expressions that the output makes of the
tokens before them. So `Expression.valueOf` reads an expression back when no binary
operator follows a unary one in its parentheses, and then only.
-/
import JavaFx.Fxml.ExpressionText

set_option autoImplicit false

namespace JavaFx.Fxml

open JavaFx.Lib

variable {D : Type} {kinds : Code → CharKind} {parseDouble : Str → Option D}

/-! ## The text of a tree -/

/-- A tree of operators over operands. -/
abbrev Tree (D : Type) := Infix.Tree (Operand D) UnaryOperator BinaryOperator

/-- The priority of a binary operator. -/
def priority (b : BinaryOperator) : ℕ := b.1.getPriority

namespace Tree

/-- The expression of the tree. -/
def expression : Tree D → Expression D
  | .atom o => o.expression
  | .unary u t => .UnaryExpression u.1 (expression t)
  | .binary b l r => .BinaryExpression b.1 (expression l) (expression r)

/-- All operands can be written. -/
def Valid (kinds : Code → CharKind) (parseDouble : Str → Option D) : Tree D → Prop
  | .atom o => o.Valid kinds parseDouble
  | .unary _ t => Valid kinds parseDouble t
  | .binary _ l r => Valid kinds parseDouble l ∧ Valid kinds parseDouble r

end Tree

/-- Texts with what stands before each of them. -/
def weave : List Str → List Str → Str
  | [], texts => texts.flatten
  | space :: _, [] => space
  | space :: spaces, t :: texts => space ++ t ++ weave spaces texts

/-- The infix text of a tree, with white space between its lexemes. -/
def Tree.text (spaces : List Str) (t : Tree D) : Str :=
  weave spaces ((Infix.lexemes priority t).map Lexeme.text)

/-- Nothing but white space. -/
def Blank (kinds : Code → CharKind) (spaces : List Str) : Prop :=
  ∀ space ∈ spaces, ∀ c ∈ space, isWhitespace kinds c = true

theorem Blank.cons {space : Str} {spaces : List Str} (h : Blank kinds (space :: spaces)) :
    (∀ c ∈ space, isWhitespace kinds c = true) ∧ Blank kinds spaces :=
  ⟨h space List.mem_cons_self, fun s hs => h s (List.mem_cons_of_mem _ hs)⟩

theorem weave_cons {spaces : List Str} (h : Blank kinds spaces) (t : Str) (texts : List Str) :
    ∃ space spaces', weave spaces (t :: texts) = space ++ (t ++ weave spaces' texts) ∧
      (∀ c ∈ space, isWhitespace kinds c = true) ∧ Blank kinds spaces' := by
  cases spaces with
  | nil => exact ⟨[], [], rfl, nofun, h⟩
  | cons space spaces =>
    exact ⟨space, spaces, by rw [weave, List.append_assoc], h.cons.1, h.cons.2⟩

theorem weave_nil {spaces : List Str} (h : Blank kinds spaces) :
    ∀ c ∈ weave spaces [], isWhitespace kinds c = true := by
  cases spaces with
  | nil => exact nofun
  | cons space spaces => exact h.cons.1

/-! ## The machine and the parser -/

/-- The token of a frame. -/
def frameToken : Infix.Frame (Operand D) UnaryOperator BinaryOperator → Token D
  | .opening => .BEGIN_GROUP
  | .unary u => .UNARY_OPERATOR u.1
  | .left _ b => .BINARY_OPERATOR b.1

/-- The left operands of the frames. -/
def lefts : List (Infix.Frame (Operand D) UnaryOperator BinaryOperator) → List (Expression D)
  | [] => []
  | .left t _ :: fs => Tree.expression t :: lefts fs
  | _ :: fs => lefts fs

/-- The parser holds what the machine holds. -/
structure Refines (tokens stack : List (Token D))
    (s : Infix.Stack (Operand D) UnaryOperator BinaryOperator) : Prop where
  stack : stack = s.1.map frameToken
  output : Expression.pushAll [] tokens
    = .ok ((s.2.map Tree.expression).toList ++ lefts s.1)

theorem pushAll_append {es es' : List (Expression D)} {ts : List (Token D)}
    (h : Expression.pushAll es ts = .ok es') (us : List (Token D)) :
    Expression.pushAll es (ts ++ us) = Expression.pushAll es' us := by
  induction ts generalizing es with
  | nil =>
    cases h
    rfl
  | cons t ts ih =>
    rw [Expression.pushAll, bind_eq_ok] at h
    obtain ⟨es₁, hpush, hrest⟩ := h
    rw [List.cons_append, Expression.pushAll, hpush, ok_bind]
    exact ih hrest

theorem pushAll_singleton (es : List (Expression D)) (t : Token D) :
    Expression.pushAll es [t] = Expression.push es t := by
  rw [Expression.pushAll]
  cases Expression.push es t <;> rfl

theorem push_unary {tokens : List (Token D)} {e : Expression D} {es : List (Expression D)}
    (h : Expression.pushAll [] tokens = .ok (e :: es)) (u : UnaryOperator) :
    Expression.pushAll [] (tokens ++ [.UNARY_OPERATOR u.1])
      = .ok (.UnaryExpression u.1 e :: es) := by
  rw [pushAll_append h, pushAll_singleton, Expression.push]
  simp only [u.2, if_true]

theorem push_binary {tokens : List (Token D)} {l r : Expression D} {es : List (Expression D)}
    (h : Expression.pushAll [] tokens = .ok (r :: l :: es)) (b : BinaryOperator) :
    Expression.pushAll [] (tokens ++ [.BINARY_OPERATOR b.1])
      = .ok (.BinaryExpression b.1 l r :: es) := by
  rw [pushAll_append h, pushAll_singleton, Expression.push]
  simp only [b.2, Bool.false_eq_true, if_false]

/-- Only unary operators have the highest priority. -/
theorem priority_lt (b : BinaryOperator) : b.1.getPriority < Operator.MAX_PRIORITY := by
  obtain ⟨o, ho⟩ := b
  change o.getPriority < Operator.MAX_PRIORITY
  cases o with
  | NEGATE | NOT => cases ho
  | _ => decide

theorem priority_unary (u : UnaryOperator) : u.1.getPriority = Operator.MAX_PRIORITY := by
  obtain ⟨o, ho⟩ := u
  cases o with
  | NEGATE | NOT => rfl
  | _ => cases ho

/-- A binary operator takes the operators that it takes from the machine. -/
theorem popOperators_reduce (p : ℕ)
    (fs : List (Infix.Frame (Operand D) UnaryOperator BinaryOperator)) (x : Tree D)
    {tokens : List (Token D)}
    (h : Expression.pushAll [] tokens = .ok (Tree.expression x :: lefts fs)) :
    ∃ tokens', Token.popOperators p tokens (fs.map frameToken)
        = (tokens', (Infix.reduce priority p fs x).1.map frameToken) ∧
      Expression.pushAll [] tokens'
        = .ok (Tree.expression (Infix.reduce priority p fs x).2 ::
          lefts (Infix.reduce priority p fs x).1) := by
  induction fs generalizing x tokens with
  | nil => exact ⟨tokens, rfl, h⟩
  | cons f fs ih =>
    cases f with
    | opening => exact ⟨tokens, rfl, h⟩
    | unary u =>
      refine ⟨tokens, ?_, h⟩
      simp [frameToken, Token.popOperators, Infix.reduce, priority_unary]
    | left t b =>
      have hne : (b.1.getPriority != Operator.MAX_PRIORITY) = true :=
        bne_iff_ne.2 (Nat.ne_of_lt (priority_lt b))
      rw [Infix.reduce, List.map_cons, frameToken, Token.popOperators, hne, Bool.and_true,
        priority]
      by_cases hp : p ≤ b.1.getPriority
      · rw [if_pos hp, if_pos (decide_eq_true hp)]
        exact ih (.binary b t x) (push_binary h b)
      · rw [if_neg hp, if_neg (by simpa using hp)]
        exact ⟨tokens, rfl, h⟩

/-- A unary operator takes none. -/
theorem popOperators_unary (tokens : List (Token D))
    (fs : List (Infix.Frame (Operand D) UnaryOperator BinaryOperator)) (u : UnaryOperator) :
    Token.popOperators u.1.getPriority tokens (fs.map frameToken)
      = (tokens, fs.map frameToken) := by
  rw [priority_unary]
  cases fs with
  | nil => rfl
  | cons f fs =>
    cases f with
    | opening => rfl
    | unary v => simp [frameToken, Token.popOperators, priority_unary]
    | left t b =>
      simp [frameToken, Token.popOperators, Nat.not_le.2 (priority_lt b)]

/-- The end of a group takes the operators of the group. -/
theorem popGroup_close (fs : List (Infix.Frame (Operand D) UnaryOperator BinaryOperator))
    (x : Tree D) {tokens : List (Token D)}
    (h : Expression.pushAll [] tokens = .ok (Tree.expression x :: lefts fs))
    {gs : List (Infix.Frame (Operand D) UnaryOperator BinaryOperator)} {y : Tree D}
    (hclose : Infix.close fs x = (.opening :: gs, y)) :
    ∃ tokens', Token.popGroup tokens (fs.map frameToken) = .ok (tokens', gs.map frameToken) ∧
      Expression.pushAll [] tokens' = .ok (Tree.expression y :: lefts gs) := by
  induction fs generalizing x tokens with
  | nil => cases hclose
  | cons f fs ih =>
    cases f with
    | opening =>
      cases hclose
      exact ⟨tokens, rfl, h⟩
    | unary u => exact ih (.unary u x) (push_unary h u) hclose
    | left t b => exact ih (.binary b t x) (push_binary h b) hclose

/-- At the end of the text all operators go to the output. -/
theorem pushAll_close (fs : List (Infix.Frame (Operand D) UnaryOperator BinaryOperator))
    (x : Tree D) {tokens : List (Token D)}
    (h : Expression.pushAll [] tokens = .ok (Tree.expression x :: lefts fs)) {y : Tree D}
    (hclose : Infix.close fs x = ([], y)) :
    Expression.pushAll [] (tokens ++ fs.map frameToken) = .ok [Tree.expression y] := by
  induction fs generalizing x tokens with
  | nil =>
    cases hclose
    rw [List.map_nil, List.append_nil]
    exact h
  | cons f fs ih =>
    have hsplit : tokens ++ (f :: fs).map frameToken
        = (tokens ++ [frameToken f]) ++ fs.map frameToken := by simp
    cases f with
    | opening => cases hclose
    | unary u =>
      rw [hsplit]
      exact ih (.unary u x) (push_unary h u) hclose
    | left t b =>
      rw [hsplit]
      exact ih (.binary b t x) (push_binary h b) hclose

/-- **A step of the machine** is what the parser does with the token. -/
theorem process_step {s s' : Infix.Stack (Operand D) UnaryOperator BinaryOperator} {l : Lexeme D}
    (hstep : Infix.step priority s l = some s') {tokens stack : List (Token D)}
    (h : Refines tokens stack s) :
    ∃ tokens' stack', Token.process tokens stack l.token = .ok (tokens', stack') ∧
      Refines tokens' stack' s' := by
  obtain ⟨fs, cur⟩ := s
  obtain ⟨rfl, houtput⟩ := h
  cases cur with
  | none =>
    cases l with
    | operand o =>
      cases hstep
      refine ⟨tokens ++ [o.token], fs.map frameToken, ?_, rfl, ?_⟩
      · cases o <;> rfl
      · rw [pushAll_append houtput, pushAll_singleton]
        cases o <;> rfl
    | unary u =>
      cases hstep
      refine ⟨tokens, .UNARY_OPERATOR u.1 :: fs.map frameToken, ?_, rfl, houtput⟩
      simp only [Lexeme.token, Token.process, popOperators_unary]
    | opening =>
      cases hstep
      exact ⟨tokens, .BEGIN_GROUP :: fs.map frameToken, rfl, rfl, houtput⟩
    | binary b => cases hstep
    | closing => cases hstep
  | some x =>
    cases l with
    | binary b =>
      cases hstep
      obtain ⟨tokens', hpop, hpush⟩ := popOperators_reduce (priority b) fs x houtput
      refine ⟨tokens', _, ?_, rfl, hpush⟩
      rw [priority] at hpop
      simp only [Lexeme.token, Token.process, hpop]
      rfl
    | closing =>
      rw [Infix.step] at hstep
      split at hstep
      · next gs y hclose =>
        cases hstep
        obtain ⟨tokens', hpop, hpush⟩ := popGroup_close fs x houtput hclose
        exact ⟨tokens', gs.map frameToken, hpop, rfl, hpush⟩
      · cases hstep
    | operand o => cases hstep
    | unary u => cases hstep
    | opening => cases hstep

/-! ## The loop over the text -/

/-- Every operand of the lexemes can be written. -/
def AllValid (kinds : Code → CharKind) (parseDouble : Str → Option D) (ls : List (Lexeme D)) :
    Prop :=
  ∀ o, .operand o ∈ ls → o.Valid kinds parseDouble

theorem allValid_lexemes {t : Tree D} (h : t.Valid kinds parseDouble) :
    AllValid kinds parseDouble (Infix.lexemes priority t) := by
  have hwrap : ∀ (c : Bool) (ls : List (Lexeme D)), AllValid kinds parseDouble ls →
      AllValid kinds parseDouble (Infix.wrap c ls) := by
    intro c ls hls o ho
    cases c with
    | false => exact hls o ho
    | true =>
      simp only [Infix.wrap, if_true, List.cons_append, List.mem_cons, reduceCtorEq, false_or,
        List.mem_append, List.not_mem_nil, or_false] at ho
      exact hls o ho
  induction t with
  | atom a =>
    intro o ho
    cases List.mem_singleton.1 ho
    exact h
  | unary u t ih =>
    intro o ho
    rw [Infix.lexemes, List.mem_cons] at ho
    rcases ho with ho | ho
    · cases ho
    · exact hwrap _ _ (ih h) o ho
  | binary b l r ihl ihr =>
    intro o ho
    rw [Infix.lexemes, List.mem_append, List.mem_cons] at ho
    rcases ho with ho | ho | ho
    · exact hwrap _ _ (ihl h.1) o ho
    · cases ho
    · exact hwrap _ _ (ihr h.2) o ho

/-- What may follow a lexeme that leaves the machine in a state. -/
def Follows (kinds : Code → CharKind) (s : Infix.Stack (Operand D) UnaryOperator BinaryOperator)
    (rest : List Code) : Prop :=
  match s.2 with
  | none => ∀ c ∈ rest.head?, c ≠ ch '='
  | some _ => Breaks kinds rest

/-- White space may follow every lexeme. -/
theorem follows_of_whitespace (s : Infix.Stack (Operand D) UnaryOperator BinaryOperator)
    {rest : List Code} (h : ∀ c ∈ rest.head?, isWhitespace kinds c = true) :
    Follows kinds s rest := by
  rw [Follows]
  split
  · intro c hc heq
    subst heq
    cases (h _ hc : isWhitespace kinds (ch '=') = true)
  · exact breaks_of_whitespace h

/-- The first character of a lexeme that the machine takes. -/
theorem follows_lexeme {s s' : Infix.Stack (Operand D) UnaryOperator BinaryOperator} {l : Lexeme D}
    (hstep : Infix.step priority s l = some s')
    (hvalid : ∀ o, l = .operand o → o.Valid kinds parseDouble) (rest : List Code) :
    Follows kinds s (l.text ++ rest) := by
  obtain ⟨fs, cur⟩ := s
  cases cur with
  | none =>
    intro c hc
    cases l with
    | operand o =>
      obtain ⟨d, ds, htext, -, hne, -⟩ :=
        readToken_operand (hvalid o rfl) (breaks_nil kinds) true []
      rw [List.append_nil] at htext
      rw [Lexeme.text, htext] at hc
      cases hc
      exact hne
    | unary u =>
      obtain ⟨d, ds, htext, -, hne, -⟩ :=
        readToken_unary kinds parseDouble u rest []
      rw [Lexeme.text, htext] at hc
      cases hc
      exact hne
    | opening =>
      cases hc
      decide
    | binary b => cases hstep
    | closing => cases hstep
  | some x =>
    cases l with
    | binary b => exact breaks_binary b rest
    | closing =>
      intro c hc
      cases hc
      exact ⟨rfl, by decide⟩
    | operand o => cases hstep
    | unary u => cases hstep
    | opening => cases hstep

/-- What follows in the text of lexemes that the machine takes. -/
theorem follows_weave {ls : List (Lexeme D)} (hvalid : AllValid kinds parseDouble ls)
    {spaces : List Str} (hblank : Blank kinds spaces)
    {s s' : Infix.Stack (Operand D) UnaryOperator BinaryOperator}
    (hsteps : Infix.steps priority s ls = some s') :
    Follows kinds s (weave spaces (ls.map Lexeme.text)) := by
  cases ls with
  | nil =>
    refine follows_of_whitespace s fun c hc => weave_nil hblank c ?_
    exact List.mem_of_mem_head? hc
  | cons l ls =>
    obtain ⟨space, spaces', htext, hspace, -⟩ :=
      weave_cons hblank l.text (ls.map Lexeme.text)
    rw [List.map_cons, htext]
    cases space with
    | nil =>
      rw [Infix.steps, Option.bind_eq_some_iff] at hsteps
      obtain ⟨s₁, hstep, -⟩ := hsteps
      exact follows_lexeme hstep (fun o ho => hvalid o (by rw [ho]; exact List.mem_cons_self)) _
    | cons c space =>
      refine follows_of_whitespace s fun d hd => ?_
      cases hd
      exact hspace c List.mem_cons_self

/-- **A lexeme** that the machine takes is read as its token. -/
theorem readToken_lexeme {s s' : Infix.Stack (Operand D) UnaryOperator BinaryOperator}
    {l : Lexeme D} (hstep : Infix.step priority s l = some s')
    (hvalid : ∀ o, l = .operand o → o.Valid kinds parseDouble) {rest : List Code}
    (hrest : Follows kinds s' rest) (buffer : List Code) :
    ∃ c cs, l.text ++ rest = c :: cs ∧ isWhitespace kinds c = false ∧
      readToken kinds parseDouble s.2.isNone buffer c cs = .ok (l.token, rest, buffer) := by
  obtain ⟨fs, cur⟩ := s
  cases cur with
  | none =>
    cases l with
    | operand o =>
      cases hstep
      obtain ⟨c, cs, htext, hw, -, hread⟩ := readToken_operand (hvalid o rfl) hrest true buffer
      exact ⟨c, cs, htext, hw, hread⟩
    | unary u =>
      obtain ⟨c, cs, htext, hw, -, hread⟩ :=
        readToken_unary kinds parseDouble u rest buffer
      exact ⟨c, cs, htext, hw, hread⟩
    | opening => exact ⟨ch '(', rest, rfl, rfl, readToken_opening rest buffer⟩
    | binary b => cases hstep
    | closing => cases hstep
  | some x =>
    cases l with
    | binary b =>
      cases hstep
      exact readToken_binary parseDouble b hrest buffer
    | closing => exact ⟨ch ')', rest, rfl, rfl, readToken_closing rest buffer⟩
    | operand o => cases hstep
    | unary u => cases hstep
    | opening => cases hstep

/-- Whether an operand is to come. -/
theorem isNone_step {s s' : Infix.Stack (Operand D) UnaryOperator BinaryOperator} {l : Lexeme D}
    (hstep : Infix.step priority s l = some s') : s'.2.isNone = !l.token.endsOperand := by
  obtain ⟨fs, cur⟩ := s
  cases cur with
  | none =>
    cases l with
    | operand o =>
      cases hstep
      cases o <;> rfl
    | unary u =>
      cases hstep
      rfl
    | opening =>
      cases hstep
      rfl
    | binary b => cases hstep
    | closing => cases hstep
  | some x =>
    cases l with
    | binary b =>
      cases hstep
      rfl
    | closing =>
      rw [Infix.step] at hstep
      split at hstep
      · cases hstep
        rfl
      · cases hstep
    | operand o => cases hstep
    | unary u => cases hstep
    | opening => cases hstep

/-- **The loop of the tokenizer** goes with the machine. -/
theorem tokenizeLoop_steps {ls : List (Lexeme D)} (hvalid : AllValid kinds parseDouble ls)
    {spaces : List Str} (hblank : Blank kinds spaces)
    {s s' : Infix.Stack (Operand D) UnaryOperator BinaryOperator}
    (hsteps : Infix.steps priority s ls = some s') {tokens stack : List (Token D)}
    (h : Refines tokens stack s) {fuel : ℕ} (hfuel : ls.length < fuel) (buffer : List Code) :
    ∃ tokens' stack', tokenizeLoop kinds parseDouble fuel s.2.isNone buffer
        (weave spaces (ls.map Lexeme.text)) tokens stack = .ok (tokens' ++ stack') ∧
      Refines tokens' stack' s' := by
  induction ls generalizing spaces s tokens stack fuel with
  | nil =>
    cases hsteps
    cases fuel with
    | zero => exact absurd hfuel (Nat.lt_irrefl _)
    | succ fuel =>
      have hdrop : (weave spaces []).dropWhile (isWhitespace kinds) = [] :=
        List.dropWhile_eq_nil_iff.2 (weave_nil hblank)
      exact ⟨tokens, stack, by rw [List.map_nil, tokenizeLoop, hdrop], h⟩
  | cons l ls ih =>
    have hl : ∀ o, l = .operand o → o.Valid kinds parseDouble :=
      fun o ho => hvalid o (by rw [ho]; exact List.mem_cons_self)
    have hls : AllValid kinds parseDouble ls := fun o ho => hvalid o (List.mem_cons_of_mem _ ho)
    rw [Infix.steps, Option.bind_eq_some_iff] at hsteps
    obtain ⟨s₁, hstep, hrest⟩ := hsteps
    obtain ⟨space, spaces', htext, hspace, hblank'⟩ :=
      weave_cons hblank l.text (ls.map Lexeme.text)
    cases fuel with
    | zero => exact absurd hfuel (Nat.not_lt_zero _)
    | succ fuel =>
      have hfollows := follows_weave hls hblank' hrest
      obtain ⟨c, cs, hcs, hw, hread⟩ := readToken_lexeme hstep hl hfollows buffer
      obtain ⟨tokens₁, stack₁, hprocess, hrefines⟩ := process_step hstep h
      obtain ⟨tokens', stack', hloop, hend⟩ :=
        ih hls hblank' hrest hrefines (Nat.lt_of_succ_lt_succ hfuel)
      refine ⟨tokens', stack', ?_, hend⟩
      have hdrop : (space ++ (c :: cs)).dropWhile (isWhitespace kinds) = c :: cs := by
        rw [List.dropWhile_append_of_pos hspace]
        simp [hw]
      rw [List.map_cons, htext, hcs, tokenizeLoop, hdrop]
      simp only [hread, ok_bind, hprocess]
      rw [← isNone_step hstep]
      exact hloop

/-! ## The priorities -/

/-- The shape of a tree is that of its expression. -/
theorem spread_eq_of_expression {t t' : Tree D} (h : t.expression = t'.expression) :
    Infix.Tree.atoms t = Infix.Tree.atoms t' ∧ Infix.Tree.spread t = Infix.Tree.spread t' := by
  induction t generalizing t' with
  | atom o =>
    cases t' with
    | atom o' => exact ⟨rfl, rfl⟩
    | unary u t' => cases o <;> cases h
    | binary b l' r' => cases o <;> cases h
  | unary u t ih =>
    cases t' with
    | atom o' => cases o' <;> cases h
    | unary u' t' =>
      simp only [Tree.expression, Expression.UnaryExpression.injEq] at h
      obtain ⟨hatoms, hspread⟩ := ih h.2
      exact ⟨hatoms, by rw [Infix.Tree.spread, Infix.Tree.spread, hatoms, hspread]⟩
    | binary b l' r' => cases h
  | binary b l r ihl ihr =>
    cases t' with
    | atom o' => cases o' <;> cases h
    | unary u' t' => cases h
    | binary b' l' r' =>
      simp only [Tree.expression, Expression.BinaryExpression.injEq] at h
      obtain ⟨hl, hl'⟩ := ihl h.2.1
      obtain ⟨hr, hr'⟩ := ihr h.2.2
      exact ⟨by rw [Infix.Tree.atoms, Infix.Tree.atoms, hl, hr],
        by rw [Infix.Tree.spread, Infix.Tree.spread, hl', hr']⟩

/-- There are no more lexemes than characters. -/
theorem length_le_weave (texts : List Str) (h : ∀ t ∈ texts, t ≠ []) (spaces : List Str) :
    texts.length ≤ (weave spaces texts).length := by
  induction texts generalizing spaces with
  | nil => exact Nat.zero_le _
  | cons t texts ih =>
    have ht : 1 ≤ t.length := List.length_pos_iff.2 (h t List.mem_cons_self)
    have ih' := ih (fun u hu => h u (List.mem_cons_of_mem _ hu))
    cases spaces with
    | nil =>
      have hle := ih' []
      rw [weave] at hle
      rw [weave, List.flatten_cons, List.length_append, List.length_cons]
      omega
    | cons space spaces =>
      have hle := ih' spaces
      simp only [weave, List.length_append, List.length_cons]
      omega

theorem text_ne_nil {l : Lexeme D} (h : ∀ o, l = .operand o → o.Valid kinds parseDouble) :
    l.text ≠ [] := by
  cases l with
  | operand o =>
    obtain ⟨c, cs, htext, -⟩ := readToken_operand (h o rfl) (breaks_nil kinds) true []
    rw [List.append_nil] at htext
    rw [Lexeme.text, htext]
    exact List.cons_ne_nil _ _
  | unary u =>
    obtain ⟨o, ho⟩ := u
    cases o <;> exact List.cons_ne_nil _ _
  | binary b =>
    obtain ⟨o, ho⟩ := b
    cases o <;> exact List.cons_ne_nil _ _
  | opening => exact List.cons_ne_nil _ _
  | closing => exact List.cons_ne_nil _ _

/-- The text of a tree gives the expression of the tree that the machine reads. -/
theorem valueOf_parse {t t' : Tree D} (hvalid : t.Valid kinds parseDouble) {spaces : List Str}
    (hblank : Blank kinds spaces)
    (hparse : Infix.parse priority (Infix.lexemes priority t) = some t') :
    Expression.valueOf kinds parseDouble (t.text spaces) = .ok t'.expression := by
  have hall := allValid_lexemes hvalid
  have hlength : (Infix.lexemes priority t).length < (t.text spaces).length + 2 := by
    have hle := length_le_weave ((Infix.lexemes priority t).map Lexeme.text)
      (fun text htext => by
        obtain ⟨l, hl, rfl⟩ := List.mem_map.1 htext
        exact text_ne_nil (fun o ho => hall o (by rw [← ho]; exact hl))) spaces
    rw [List.length_map] at hle
    exact Nat.lt_succ_of_le (hle.trans (Nat.le_succ _))
  rw [Infix.parse] at hparse
  split at hparse
  · next fs x hsteps =>
    split at hparse
    · next y hclose =>
      cases hparse
      have hstart : Refines ([] : List (Token D)) [] ([], none) := ⟨rfl, rfl⟩
      obtain ⟨tokens, stack, hloop, ⟨hstack, houtput⟩⟩ :=
        tokenizeLoop_steps hall hblank hsteps hstart hlength (List.replicate 6 0)
      have hpush := pushAll_close fs x houtput hclose
      rw [← hstack] at hpush
      have htokens : tokenize kinds parseDouble (t.text spaces) = .ok (tokens ++ stack) := hloop
      rw [Expression.valueOf, Expression.parse, htokens, ok_bind, hpush, ok_bind]
    · cases hparse
  · cases hparse

/-- **The parser respects the priorities** exactly when no binary operator follows a unary
one in its parentheses: then, and only then, `Expression.valueOf` gives the expression whose
text it is, with any white space between the lexemes. -/
theorem valueOf_text_iff (t : Tree D) (hvalid : t.Valid kinds parseDouble) (spaces : List Str)
    (hblank : Blank kinds spaces) :
    Expression.valueOf kinds parseDouble (t.text spaces) = .ok t.expression
      ↔ Infix.Tree.Settled priority t := by
  obtain ⟨t', hparse, hsettled, hspread⟩ := Infix.parse_lexemes priority t
  rw [valueOf_parse hvalid hblank hparse]
  constructor
  · intro h
    exact hspread (spread_eq_of_expression (Except.ok.inj h)).2
  · intro h
    rw [hsettled h]

/-- `2*-a.b[0]` -/
def product : Tree ℕ :=
  .binary ⟨.MULTIPLY, rfl⟩ (.atom (.long 2))
    (.unary ⟨.NEGATE, rfl⟩ (.atom (.path (lit "a") [.name (lit "b"), .index (lit "0")])))

theorem valueOf_text_iff_product : ∃ spaces, Blank (fun _ => .other) spaces ∧
    (Expression.valueOf (fun _ => .other) (fun _ => none) (product.text spaces)
      = .ok product.expression ↔ Infix.Tree.Settled priority product) := by
  have hname : ∀ c : Code, isJavaIdentifierStart (fun _ => .other) c = true →
      IsName (fun _ => .other) [c] := by
    intro c hc
    refine ⟨⟨c, rfl, hc⟩, fun d hd => ?_⟩
    rw [List.mem_singleton.1 hd]
    exact part_of_start hc
  have hvalid : product.Valid (fun _ => .other) (fun _ => none) := by
    refine ⟨?_, hname (ch 'a') rfl, ?_, ?_⟩
    · change 2 ≤ LONG_MAX_VALUE
      decide
    · intro s hs
      simp only [List.mem_cons, List.not_mem_nil, or_false] at hs
      rcases hs with rfl | rfl
      · exact hname (ch 'b') rfl
      · refine ⟨List.cons_ne_nil _ _, fun c hc => ?_⟩
        rw [List.mem_singleton.1 (hc : c ∈ [ch '0'])]
        rfl
    · rintro _ ⟨⟩
      decide
  have hblank : Blank (fun _ => .other) [[], lit " "] := by
    intro space hspace c hc
    simp only [List.mem_cons, List.not_mem_nil, or_false] at hspace
    rcases hspace with rfl | rfl
    · cases hc
    · rw [List.mem_singleton.1 (hc : c ∈ [ch ' '])]
      rfl
  exact ⟨[[], lit " "], hblank, valueOf_text_iff product hvalid _ hblank⟩

/-- `-1+2` is read as `-(1+2)`. -/
def negatedSum : Tree ℕ :=
  .binary ⟨.ADD, rfl⟩ (.unary ⟨.NEGATE, rfl⟩ (.atom (.long 1))) (.atom (.long 2))

theorem valueOf_negatedSum : ¬ ∀ t : Tree ℕ, t.Valid (fun _ => .other) (fun _ => none) →
    Expression.valueOf (fun _ => .other) (fun _ => none) (t.text []) = .ok t.expression := by
  intro h
  have hvalid : negatedSum.Valid (fun _ => .other) (fun _ => none) := by
    constructor
    · change 1 ≤ LONG_MAX_VALUE
      decide
    · change 2 ≤ LONG_MAX_VALUE
      decide
  exact absurd (h negatedSum hvalid) (by decide +kernel)

end JavaFx.Fxml
