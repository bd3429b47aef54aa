/-
Which texts the parser of expressions takes.

The parser counts: an operand on its stack is one more, a binary operator one less, and at the
end there must be one. So an operand that directly follows another makes up for an operand that
is missing at the end. A parenthesis that is closed too often empties the stack of operators,
and one that stays open comes to `parse` as a token (`valueOf_sentence_iff`).
-/
import JavaFx.Fxml.ExpressionPriorities
import JavaFx.Fxml.ExpressionReader

set_option autoImplicit false

namespace JavaFx.Fxml

open JavaFx.Lib

variable {D : Type} {kinds : Code → CharKind} {parseDouble : Str → Option D}

/-! ## Sentences -/

/-- The infix expressions: operands, unary and binary operators, and parentheses. -/
inductive Sentence : List (Token D) → Prop
  | literal (value : Literal D) : Sentence [.LITERAL value]
  | keyPath (path : List Str) : Sentence [.VARIABLE path]
  | unary (o : Operator) {ts : List (Token D)} (h : Sentence ts) :
      Sentence (.UNARY_OPERATOR o :: ts)
  | binary (o : Operator) {ts ts' : List (Token D)} (h : Sentence ts) (h' : Sentence ts') :
      Sentence (ts ++ .BINARY_OPERATOR o :: ts')
  | group {ts : List (Token D)} (h : Sentence ts) : Sentence (.BEGIN_GROUP :: ts ++ [.END_GROUP])

/-- What is counted of tokens: the parentheses that are open, the operands that directly
follow an operand or a closing parenthesis, and whether an operand is to come. -/
structure Tally where
  depth : ℕ
  juxtaposed : ℕ
  unary : Bool

namespace Tally

/-- The state before the first token. -/
def start : Tally := ⟨0, 0, true⟩

/-- There is none after a closing parenthesis that nothing opens. -/
def step (s : Tally) : Token D → Option Tally
  | .LITERAL _ | .VARIABLE _ =>
    some ⟨s.depth, if s.unary then s.juxtaposed else s.juxtaposed + 1, false⟩
  | .UNARY_OPERATOR _ | .BINARY_OPERATOR _ => some ⟨s.depth, s.juxtaposed, true⟩
  | .BEGIN_GROUP => some ⟨s.depth + 1, s.juxtaposed, true⟩
  | .END_GROUP => if s.depth = 0 then none else some ⟨s.depth - 1, s.juxtaposed, false⟩

def steps : Tally → List (Token D) → Option Tally
  | s, [] => some s
  | s, t :: ts => (s.step t).bind fun s => s.steps ts

theorem steps_append (s : Tally) (ts ts' : List (Token D)) :
    s.steps (ts ++ ts') = (s.steps ts).bind fun s => s.steps ts' := by
  induction ts generalizing s with
  | nil => rfl
  | cons t ts ih =>
    rw [List.cons_append, steps, steps, Option.bind_assoc]
    exact congrArg _ (funext fun s => ih s)

theorem unary_step {s s' : Tally} {t : Token D} (h : s.step t = some s') :
    s'.unary = !t.endsOperand := by
  cases t with
  | END_GROUP =>
    rw [step] at h
    split at h
    · cases h
    · cases h
      rfl
  | _ =>
    cases h
    rfl

theorem juxtaposed_step {s s' : Tally} {t : Token D} (h : s.step t = some s') :
    s.juxtaposed ≤ s'.juxtaposed := by
  cases t with
  | LITERAL value | VARIABLE path =>
    cases h
    dsimp only
    split <;> omega
  | END_GROUP =>
    rw [step] at h
    split at h
    · cases h
    · cases h
      exact Nat.le_refl _
  | _ =>
    cases h
    exact Nat.le_refl _

theorem juxtaposed_steps {s s' : Tally} {ts : List (Token D)} (h : s.steps ts = some s') :
    s.juxtaposed ≤ s'.juxtaposed := by
  induction ts generalizing s with
  | nil =>
    cases h
    exact Nat.le_refl _
  | cons t ts ih =>
    obtain ⟨s₁, hstep, hsteps⟩ := Option.bind_eq_some_iff.mp h
    exact (juxtaposed_step hstep).trans (ih hsteps)

/-- A sentence leaves an operand where one was to come. -/
theorem steps_sentence {ts : List (Token D)} (h : Sentence ts) {s : Tally} (hs : s.unary = true) :
    s.steps ts = some ⟨s.depth, s.juxtaposed, false⟩ := by
  induction h generalizing s with
  | literal value | keyPath path => simp [steps, step, hs]
  | unary o h ih =>
    rw [steps, step, Option.bind_some]
    exact ih rfl
  | binary o h h' ih ih' =>
    rw [steps_append, ih hs, Option.bind_some, steps, step, Option.bind_some]
    exact ih' rfl
  | group h ih =>
    rw [List.cons_append, steps, step, Option.bind_some, steps_append, ih rfl]
    simp [steps, step]

end Tally

/-- Tokens that would be a sentence if the parentheses that are open were closed. -/
def Opened : ℕ → List (Token D) → Prop
  | 0, ts => Sentence ts
  | d + 1, ts => ∃ before group, ts = before ++ .BEGIN_GROUP :: group ∧ Sentence group ∧
      ∀ operand, Sentence operand → Opened d (before ++ operand)

theorem Opened.binary {d : ℕ} {ts : List (Token D)} (h : Opened d ts) (o : Operator)
    {operand : List (Token D)} (hoperand : Sentence operand) :
    Opened d (ts ++ .BINARY_OPERATOR o :: operand) := by
  cases d with
  | zero => exact Sentence.binary o h hoperand
  | succ d =>
    obtain ⟨before, group, rfl, hgroup, hbefore⟩ := h
    exact ⟨before, group ++ .BINARY_OPERATOR o :: operand, by simp, hgroup.binary o hoperand,
      hbefore⟩

theorem Opened.closed {d : ℕ} {ts : List (Token D)} (h : Opened (d + 1) ts) :
    Opened d (ts ++ [.END_GROUP]) := by
  obtain ⟨before, group, rfl, hgroup, hbefore⟩ := h
  rw [List.append_assoc]
  exact hbefore _ hgroup.group

/-- What was read, as a state says: operands can come, or one is there. -/
def Partial (s : Tally) (ts : List (Token D)) : Prop :=
  if s.unary then ∀ operand, Sentence operand → Opened s.depth (ts ++ operand)
  else Opened s.depth ts

theorem partial_step {s s' : Tally} {ts : List (Token D)} {t : Token D} (h : Partial s ts)
    (ht : t.Allowed s.unary) (hstep : s.step t = some s') (hj : s'.juxtaposed = s.juxtaposed) :
    Partial s' (ts ++ [t]) := by
  obtain ⟨d, j, unary⟩ := s
  cases unary with
  | true =>
    cases t with
    | LITERAL value =>
      cases hstep
      exact h _ (.literal value)
    | VARIABLE path =>
      cases hstep
      exact h _ (.keyPath path)
    | UNARY_OPERATOR o =>
      cases hstep
      intro operand hoperand
      rw [List.append_assoc]
      exact h _ (hoperand.unary o)
    | BEGIN_GROUP =>
      cases hstep
      intro operand hoperand
      refine ⟨ts, operand, List.append_assoc .., hoperand, h⟩
    | BINARY_OPERATOR o => cases ht.1
    | END_GROUP => cases ht
  | false =>
    cases t with
    | LITERAL value | VARIABLE path =>
      cases hstep
      exact absurd hj (Nat.succ_ne_self j)
    | BINARY_OPERATOR o =>
      cases hstep
      intro operand hoperand
      rw [List.append_assoc]
      exact Opened.binary h o hoperand
    | END_GROUP =>
      rw [Tally.step] at hstep
      split at hstep
      · cases hstep
      · next hd =>
        cases hstep
        obtain ⟨d, rfl⟩ := Nat.exists_eq_succ_of_ne_zero hd
        exact Opened.closed h
    | UNARY_OPERATOR o => cases ht.1
    | BEGIN_GROUP => cases ht

theorem sentence_of_steps {s : Tally} {ts ts' : List (Token D)} (h : Partial s ts)
    (hchained : Token.Chained s.unary ts') (hsteps : s.steps ts' = some ⟨0, s.juxtaposed, false⟩) :
    Sentence (ts ++ ts') := by
  induction ts' generalizing s ts with
  | nil =>
    have hs : s = ⟨0, s.juxtaposed, false⟩ := Option.some.inj hsteps
    rw [hs] at h
    rw [List.append_nil]
    exact h
  | cons t ts' ih =>
    obtain ⟨s₁, hstep, hsteps⟩ := Option.bind_eq_some_iff.mp hsteps
    have hle := Tally.juxtaposed_steps hsteps
    have hj : s₁.juxtaposed = s.juxtaposed := Nat.le_antisymm hle (Tally.juxtaposed_step hstep)
    rw [← List.singleton_append, ← List.append_assoc]
    apply ih (partial_step h hchained.1 hstep hj)
    · rw [Tally.unary_step hstep]
      exact hchained.2
    · rw [hsteps, hj]

/-- **Sentences** are counted so: no parenthesis is closed too often or stays open, no operand
follows another, and one comes last. -/
theorem sentence_iff_steps {ts : List (Token D)} (h : Token.Chained true ts) :
    Sentence ts ↔ Tally.start.steps ts = some ⟨0, 0, false⟩ := by
  constructor
  · intro hsentence
    exact Tally.steps_sentence hsentence rfl
  · intro hsteps
    have hstart : Partial Tally.start ([] : List (Token D)) := fun operand hoperand => hoperand
    exact sentence_of_steps hstart h hsteps

/-! ## The stack of operators -/

namespace Token

def isBegin : Token D → Bool
  | .BEGIN_GROUP => true
  | _ => false

def isBinary : Token D → Bool
  | .BINARY_OPERATOR _ => true
  | _ => false

/-- An operator for the expression that it is in. -/
def IsOperator : Token D → Prop
  | .UNARY_OPERATOR o => o.isUnary = true
  | .BINARY_OPERATOR o => o.isUnary = false
  | _ => False

/-- What the stack of operators holds. -/
def IsPending (t : Token D) : Prop := t.IsOperator ∨ t = .BEGIN_GROUP

theorem popOperators_eq (p : ℕ) (tokens : List (Token D)) {stack : List (Token D)} (h : ∀ t ∈ stack, t.IsPending) :
    ∃ popped rest, stack = popped ++ rest ∧ popOperators p tokens stack = (tokens ++ popped, rest) ∧
      ∀ t ∈ popped, t.IsOperator := by
  induction stack generalizing tokens with
  | nil => exact ⟨[], [], rfl, by rw [List.append_nil]; rfl, by simp⟩
  | cons t stack ih =>
    have hnone : ∃ popped rest, t :: stack = popped ++ rest ∧
        (tokens, t :: stack) = (tokens ++ popped, rest) ∧ ∀ t ∈ popped, t.IsOperator :=
      ⟨[], t :: stack, rfl, by rw [List.append_nil], by simp⟩
    have ht := h t List.mem_cons_self
    cases t with
    | UNARY_OPERATOR o | BINARY_OPERATOR o =>
      rw [popOperators]
      split
      · obtain ⟨popped, rest, rfl, hpop, hall⟩ := ih _ (fun u hu => h u (List.mem_cons_of_mem _ hu))
        refine ⟨_ :: popped, rest, rfl, by rw [hpop, List.append_assoc]; rfl, ?_⟩
        intro u hu
        rcases List.mem_cons.mp hu with rfl | hu
        · exact ht.resolve_right (by rintro ⟨⟩)
        · exact hall u hu
      · exact hnone
    | _ => exact hnone

/-- A unary operator takes none. -/
theorem popOperators_max (tokens stack : List (Token D)) :
    popOperators Operator.MAX_PRIORITY tokens stack = (tokens, stack) := by
  have hmax : ∀ o : Operator,
      (decide (Operator.MAX_PRIORITY ≤ o.getPriority) && o.getPriority != Operator.MAX_PRIORITY)
        = false := by
    intro o
    cases o <;> rfl
  cases stack with
  | nil => rfl
  | cons t stack =>
    cases t with
    | UNARY_OPERATOR o | BINARY_OPERATOR o => simp [popOperators, hmax]
    | _ => rfl

theorem popGroup_eq (tokens : List (Token D)) {stack : List (Token D)} (h : ∀ t ∈ stack, t.IsPending) :
    if stack.countP isBegin = 0 then popGroup tokens stack = .error .noSuchElement
    else ∃ popped rest, stack = popped ++ .BEGIN_GROUP :: rest ∧
      popGroup tokens stack = .ok (tokens ++ popped, rest) ∧ ∀ t ∈ popped, t.IsOperator := by
  induction stack generalizing tokens with
  | nil => rfl
  | cons t stack ih =>
    have ht := h t List.mem_cons_self
    by_cases hbegin : t = .BEGIN_GROUP
    · subst hbegin
      rw [if_neg (by simp [isBegin])]
      exact ⟨[], stack, rfl, by rw [List.append_nil]; rfl, nofun⟩
    · have hoperator := ht.resolve_right hbegin
      have hcount : (t :: stack).countP isBegin = stack.countP isBegin := by
        cases t with
        | BEGIN_GROUP => exact absurd rfl hbegin
        | _ => simp [isBegin]
      have hpop : popGroup tokens (t :: stack) = popGroup (tokens ++ [t]) stack := by
        cases t with
        | BEGIN_GROUP => exact absurd rfl hbegin
        | _ => rfl
      have hrest := ih (tokens ++ [t]) (fun u hu => h u (List.mem_cons_of_mem _ hu))
      rw [hcount, hpop]
      split
      · next hzero =>
        rwa [if_pos hzero] at hrest
      · next hzero =>
        rw [if_neg hzero] at hrest
        obtain ⟨popped, rest, rfl, hpopped, hall⟩ := hrest
        refine ⟨t :: popped, rest, rfl, by rw [hpopped, List.append_assoc]; rfl, ?_⟩
        intro u hu
        rcases List.mem_cons.mp hu with rfl | hu
        · exact hoperator
        · exact hall u hu

end Token

/-! ## The stack of expressions -/

namespace Expression

/-- A binary operator makes one expression of two, a unary one of one. -/
theorem push_operator (es : List (Expression D)) {t : Token D} (ht : t.IsOperator) :
    (∃ es', push es t = .ok es' ∧ es'.length + (if t.isBinary then 1 else 0) = es.length ∧
        es' ≠ [])
      ∨ (push es t = .error .noSuchElement ∧
        es.length < 1 + if t.isBinary then 1 else 0) := by
  cases t with
  | UNARY_OPERATOR o =>
    have ho : o.isUnary = true := ht
    cases es with
    | nil => exact .inr ⟨rfl, Nat.zero_lt_one⟩
    | cons e es =>
      refine .inl ⟨.UnaryExpression o e :: es, ?_, rfl, List.cons_ne_nil _ _⟩
      rw [push, if_pos ho]
  | BINARY_OPERATOR o =>
    have ho : o.isUnary = false := ht
    cases es with
    | nil => exact .inr ⟨rfl, Nat.two_pos⟩
    | cons e es =>
      cases es with
      | nil => exact .inr ⟨rfl, Nat.one_lt_two⟩
      | cons e' es =>
        refine .inl ⟨.BinaryExpression o e' e :: es, ?_, rfl, List.cons_ne_nil _ _⟩
        rw [push, if_neg (by rw [ho]; exact Bool.false_ne_true)]
  | _ => cases ht

/-- Operators that have their operands leave one expression less for each binary one. -/
theorem pushAll_operators {es : List (Expression D)} {ts : List (Token D)}
    (hts : ∀ t ∈ ts, t.IsOperator) (hlength : 1 + ts.countP Token.isBinary ≤ es.length) :
    ∃ es', pushAll es ts = .ok es' ∧ es'.length + ts.countP Token.isBinary = es.length := by
  induction ts generalizing es with
  | nil => exact ⟨es, rfl, rfl⟩
  | cons t ts ih =>
    rw [List.countP_cons] at hlength ⊢
    rcases push_operator es (hts t List.mem_cons_self) with
      ⟨es₁, hpush, hcount, -⟩ | ⟨-, hshort⟩
    · obtain ⟨es', hpushAll, hcount'⟩ :=
        @ih es₁ (fun u hu => hts u (List.mem_cons_of_mem _ hu)) (by omega)
      refine ⟨es', by rw [pushAll, hpush, ok_bind, hpushAll], by omega⟩
    · omega

/-- Too few operands for the binary operators, with one at least. -/
theorem pushAll_short {es : List (Expression D)} {ts : List (Token D)}
    (hts : ∀ t ∈ ts, t.IsOperator) (hne : ts ≠ [])
    (hlength : es.length ≤ ts.countP Token.isBinary) :
    pushAll es ts = .error .noSuchElement := by
  induction ts generalizing es with
  | nil => exact absurd rfl hne
  | cons t ts ih =>
    rw [List.countP_cons] at hlength
    rw [pushAll]
    rcases push_operator es (hts t List.mem_cons_self) with
      ⟨es₁, hpush, hcount, hes₁⟩ | ⟨hpush, -⟩
    · rw [hpush, ok_bind]
      have hshort : es₁.length ≤ ts.countP Token.isBinary := by omega
      apply ih (fun u hu => hts u (List.mem_cons_of_mem _ hu)) _ hshort
      rintro rfl
      exact hes₁ (List.eq_nil_of_length_eq_zero (Nat.le_zero.mp hshort))
    · rw [hpush]
      rfl

/-- A parenthesis that is open is no operator. -/
theorem pushAll_begin (es : List (Expression D)) {ts : List (Token D)}
    (hts : ∀ t ∈ ts, t.IsPending) (hbegin : ts.countP Token.isBegin ≠ 0) :
    ∃ e, pushAll es ts = .error e ∧ ¬ e.IsIllegalArgument := by
  induction ts generalizing es with
  | nil => exact absurd rfl hbegin
  | cons t ts ih =>
    rw [pushAll]
    rcases hts t List.mem_cons_self with ht | rfl
    · rcases push_operator es ht with ⟨es₁, hpush, -⟩ | ⟨hpush, -⟩
      · rw [hpush, ok_bind]
        apply ih _ (fun u hu => hts u (List.mem_cons_of_mem _ hu))
        rw [List.countP_cons] at hbegin
        cases t with
        | UNARY_OPERATOR o | BINARY_OPERATOR o => simpa [Token.isBegin] using hbegin
        | _ => cases ht
      · exact ⟨.noSuchElement, by rw [hpush]; rfl, id⟩
    · exact ⟨.unsupportedOperation, rfl, id⟩

end Expression

/-! ## The counts of the parser -/

/-- What the parser holds after tokens that are counted so: an expression for each operator
that waits for its right operand, for each operand that follows another, and for the operand
that was read last. -/
structure Holds (s : Tally) (tokens stack : List (Token D)) : Prop where
  pending : ∀ t ∈ stack, t.IsPending
  depth : stack.countP Token.isBegin = s.depth
  values : ∃ es, Expression.pushAll [] tokens = .ok es ∧
    es.length = (if s.unary then 0 else 1) + s.juxtaposed + stack.countP Token.isBinary

theorem holds_start : Holds (D := D) Tally.start [] [] where
  pending := nofun
  depth := rfl
  values := ⟨[], rfl, rfl⟩

theorem countP_begin_operators {ts : List (Token D)} (h : ∀ t ∈ ts, t.IsOperator) :
    ts.countP Token.isBegin = 0 := by
  apply List.countP_eq_zero.mpr
  intro t ht
  have hoperator := h t ht
  cases t with
  | BEGIN_GROUP => cases hoperator
  | _ => exact Bool.false_ne_true

/-- Operators that go to the output, where an operand was read last. -/
theorem Holds.output {s : Tally} {tokens popped rest : List (Token D)}
    (h : Holds s tokens (popped ++ rest)) (hs : s.unary = false)
    (hpopped : ∀ t ∈ popped, t.IsOperator) : Holds s (tokens ++ popped) rest where
  pending := fun t ht => h.pending t (List.mem_append_right _ ht)
  depth := by
    rw [← h.depth, List.countP_append, countP_begin_operators hpopped, Nat.zero_add]
  values := by
    obtain ⟨es, hpush, hlength⟩ := h.values
    rw [hs, List.countP_append] at hlength
    simp only [Bool.false_eq_true, if_false] at hlength
    obtain ⟨es', hpushAll, hcount⟩ := Expression.pushAll_operators hpopped
      (show 1 + popped.countP Token.isBinary ≤ es.length by omega)
    refine ⟨es', by rw [pushAll_append hpush, hpushAll], ?_⟩
    rw [hs]
    simp only [Bool.false_eq_true, if_false]
    omega

/-- **A token** is counted as the parser handles it. -/
theorem Holds.step {s : Tally} {tokens stack : List (Token D)} (h : Holds s tokens stack)
    {t : Token D} (ht : t.Allowed s.unary) :
    match s.step t with
    | none => Token.process tokens stack t = .error .noSuchElement
    | some s' => ∃ tokens' stack', Token.process tokens stack t = .ok (tokens', stack') ∧
        Holds s' tokens' stack' ∧ (s'.unary = true → stack' ≠ []) := by
  obtain ⟨d, j, unary⟩ := s
  obtain ⟨es, hpush, hlength⟩ := h.values
  cases t with
  | LITERAL value | VARIABLE path =>
    refine ⟨_, stack, rfl, ⟨h.pending, h.depth, ?_⟩, by rintro ⟨⟩⟩
    refine ⟨_, by rw [pushAll_append hpush]; rfl, ?_⟩
    cases unary <;> simp at hlength ⊢ <;> omega
  | UNARY_OPERATOR o =>
    obtain ⟨hunary, ho⟩ := ht
    have hunary : unary = true := hunary
    subst hunary
    have hmax : o.getPriority = Operator.MAX_PRIORITY := priority_unary ⟨o, ho⟩
    refine ⟨tokens, .UNARY_OPERATOR o :: stack, ?_, ⟨?_, ?_, ?_⟩, fun _ => List.cons_ne_nil _ _⟩
    · rw [Token.process, hmax, Token.popOperators_max]
    · exact List.forall_mem_cons.mpr ⟨.inl ho, h.pending⟩
    · rw [List.countP_cons]
      exact h.depth
    · refine ⟨es, hpush, ?_⟩
      rw [List.countP_cons]
      exact hlength
  | BINARY_OPERATOR o =>
    obtain ⟨hunary, ho⟩ := ht
    have hunary : unary = false := hunary
    subst hunary
    obtain ⟨popped, rest, rfl, hpop, hpopped⟩ :=
      Token.popOperators_eq o.getPriority tokens h.pending
    have hrest := h.output rfl hpopped
    obtain ⟨es', hpush', hlength'⟩ := hrest.values
    refine ⟨tokens ++ popped, .BINARY_OPERATOR o :: rest, ?_, ⟨?_, ?_, ?_⟩,
      fun _ => List.cons_ne_nil _ _⟩
    · rw [Token.process, hpop]
    · exact List.forall_mem_cons.mpr ⟨.inl ho, hrest.pending⟩
    · rw [List.countP_cons]
      exact hrest.depth
    · refine ⟨es', hpush', ?_⟩
      rw [List.countP_cons]
      simp [Token.isBinary] at hlength' ⊢
      omega
  | BEGIN_GROUP =>
    have hunary : unary = true := ht
    subst hunary
    refine ⟨tokens, .BEGIN_GROUP :: stack, rfl, ⟨?_, ?_, ?_⟩, fun _ => List.cons_ne_nil _ _⟩
    · exact List.forall_mem_cons.mpr ⟨.inr rfl, h.pending⟩
    · rw [List.countP_cons, h.depth]
      rfl
    · refine ⟨es, hpush, ?_⟩
      rw [List.countP_cons]
      exact hlength
  | END_GROUP =>
    have hunary : unary = false := ht
    subst hunary
    have hpop := Token.popGroup_eq tokens h.pending
    rw [h.depth] at hpop
    rw [Tally.step]
    dsimp only at hpop ⊢
    by_cases hd : d = 0
    · rw [if_pos hd] at hpop
      simp only [if_pos hd]
      exact hpop
    · rw [if_neg hd] at hpop
      simp only [if_neg hd]
      obtain ⟨popped, rest, rfl, hprocess, hpopped⟩ := hpop
      have hrest := h.output rfl hpopped
      refine ⟨tokens ++ popped, rest, hprocess, ⟨?_, ?_, ?_⟩, by rintro ⟨⟩⟩
      · exact fun t ht => hrest.pending t (List.mem_cons_of_mem _ ht)
      · have hdepth := hrest.depth
        rw [List.countP_cons] at hdepth
        simp [Token.isBegin] at hdepth
        dsimp only
        omega
      · obtain ⟨es', hpush', hlength'⟩ := hrest.values
        exact ⟨es', hpush', by rw [hlength', List.countP_cons]; rfl⟩

/-- Tokens in turn. -/
theorem Holds.steps {ts : List (Token D)} {s : Tally} {tokens stack : List (Token D)}
    (h : Holds s tokens stack) (hts : Token.Chained s.unary ts) :
    match s.steps ts with
    | none => Token.processAll tokens stack ts = .error .noSuchElement
    | some s' => ∃ tokens' stack', Token.processAll tokens stack ts = .ok (tokens', stack') ∧
        Holds s' tokens' stack' ∧ (s'.unary = true → ts ≠ [] → stack' ≠ []) := by
  induction ts generalizing s tokens stack with
  | nil => exact ⟨tokens, stack, rfl, h, fun _ hne => absurd rfl hne⟩
  | cons t ts ih =>
    have hstep := h.step hts.1
    rw [Tally.steps, Token.processAll]
    cases hs : s.step t with
    | none =>
      rw [hs] at hstep
      rw [hstep]
      rfl
    | some s₁ =>
      rw [hs] at hstep
      obtain ⟨tokens₁, stack₁, hprocess, hholds, hstack⟩ := hstep
      rw [hprocess, Option.bind_some, ok_bind]
      have hchained : Token.Chained s₁.unary ts := by
        rw [Tally.unary_step hs]
        exact hts.2
      have hsteps := ih hholds hchained
      dsimp only
      cases hs' : s₁.steps ts with
      | none =>
        rw [hs'] at hsteps
        exact hsteps
      | some s' =>
        rw [hs'] at hsteps
        obtain ⟨tokens', stack', hprocessAll, hholds', hstack'⟩ := hsteps
        refine ⟨tokens', stack', hprocessAll, hholds', ?_⟩
        intro hunary _
        cases ts with
        | nil =>
          cases hs'
          cases hprocessAll
          exact hstack hunary
        | cons u ts => exact hstack' hunary (List.cons_ne_nil _ _)

/-! ## The whole text -/

variable (kinds parseDouble) in
/-- The text is a sentence of the tokens that are read from it. -/
def WellFormed (text : Str) : Prop :=
  ∃ ts, ReadsAs kinds parseDouble true (List.replicate 6 0) text ts none ∧ Sentence ts

variable (kinds parseDouble) in
/-- A tree for a sentence, an illegal argument for any other text. -/
def Answers (text : Str) : Prop :=
  match Expression.valueOf kinds parseDouble text with
  | .ok _ => WellFormed kinds parseDouble text
  | .error e => e.IsIllegalArgument ∧ ¬ WellFormed kinds parseDouble text

/-- What the parser relies on: no parenthesis is closed too often, and if nothing stops the
tokenizer, none stays open, and an operand is missing at the end only if the text has no tokens
or two operands that follow another. -/
def Tally.Fits (ts : List (Token D)) (e : Option ParseError) : Prop :=
  ∃ s, Tally.start.steps ts = some s ∧
    (e = none → s.depth = 0 ∧ (s.unary = true → ts = [] ∨ 2 ≤ s.juxtaposed))

namespace Expression

/-- What `parse` does with the tokens in postfix order. -/
def conclude (ts : List (Token D)) : Except ParseError (Expression D) := do
  match ← pushAll [] ts with
  | [expression] => .ok expression
  | _ => .error (.illegalArgument "Invalid expression.")

theorem valueOf_readsAs {text : Str} {ts : List (Token D)} {e : Option ParseError}
    (h : ReadsAs kinds parseDouble true (List.replicate 6 0) text ts e)
    (hlength : ts.length < text.length + 2) :
    valueOf kinds parseDouble text
      = (Token.processAll [] [] ts).bind fun r =>
          match e with
          | none => conclude (r.1 ++ r.2)
          | some e => .error e := by
  rw [valueOf, parse, tokenize, tokenizeLoop_readsAs h hlength]
  cases Token.processAll [] [] ts with
  | error e => rfl
  | ok r =>
    cases e with
    | none => rfl
    | some e => rfl

/-- What `parse` makes of expressions without a parenthesis that is open. -/
theorem pushAll_holds {s : Tally} {tokens stack : List (Token D)} (h : Holds s tokens stack)
    (hdepth : s.depth = 0) :
    (s.unary = false ∨ s.juxtaposed ≠ 0 →
        ∃ es, pushAll [] (tokens ++ stack) = .ok es ∧
          es.length = (if s.unary then 0 else 1) + s.juxtaposed) ∧
      (s.unary = true → s.juxtaposed = 0 → stack ≠ [] →
        pushAll [] (tokens ++ stack) = .error .noSuchElement) := by
  obtain ⟨es, hpush, hlength⟩ := h.values
  have hbegin : stack.countP Token.isBegin = 0 := h.depth.trans hdepth
  have hoperators : ∀ t ∈ stack, t.IsOperator := by
    intro t ht
    apply (h.pending t ht).resolve_right
    rintro rfl
    exact List.countP_eq_zero.mp hbegin _ ht rfl
  rw [pushAll_append hpush]
  constructor
  · intro hsome
    have hone : 1 + stack.countP Token.isBinary ≤ es.length := by
      rcases hsome with hunary | hjuxtaposed
      · rw [hunary] at hlength
        simp only [Bool.false_eq_true, if_false] at hlength
        omega
      · omega
    obtain ⟨es', hpushAll, hcount⟩ := pushAll_operators hoperators hone
    exact ⟨es', hpushAll, by omega⟩
  · intro hunary hjuxtaposed hne
    apply pushAll_short hoperators hne
    rw [hunary, hjuxtaposed] at hlength
    simp only [if_true] at hlength
    omega

/-- One expression is the result, any other number is refused. -/
theorem answer_pushAll {ts : List (Token D)} {es : List (Expression D)}
    (h : pushAll [] ts = .ok es) (p : Prop) :
    (match conclude ts with
      | .ok _ => p
      | .error e => e.IsIllegalArgument ∧ ¬ p) ↔ (es.length = 1 ↔ p) := by
  rw [conclude, h, ok_bind]
  cases es with
  | nil => exact ⟨fun hp => ⟨nofun, fun h => absurd h hp.2⟩, fun hp => ⟨trivial, fun h => nomatch hp.mpr h⟩⟩
  | cons x es =>
    cases es with
    | nil => exact ⟨fun hp => ⟨fun _ => hp, fun _ => rfl⟩, fun hp => hp.mp rfl⟩
    | cons y es =>
      exact ⟨fun hp => ⟨nofun, fun h => absurd h hp.2⟩,
        fun hp => ⟨trivial, fun h => nomatch hp.mpr h⟩⟩

/-- A failure that is no illegal argument. -/
theorem answer_error {ts : List (Token D)} {e : ParseError} (h : pushAll [] ts = .error e)
    (he : ¬ e.IsIllegalArgument) (p : Prop) :
    ¬ (match conclude ts with
      | .ok _ => p
      | .error e => e.IsIllegalArgument ∧ ¬ p) := by
  rw [conclude, h, error_bind]
  exact fun hp => he hp.1

/-- **Sentences.** The tokenizer comes to the end of every text. A text is answered with a tree
or an illegal argument, as it is a sentence or not, exactly if its tokens fit the counts. -/
theorem valueOf_sentence_iff (text : Str) : ∃ ts e,
    ReadsAs kinds parseDouble true (List.replicate 6 0) text ts e ∧
    ts.length < text.length + 2 ∧
    (Answers kinds parseDouble text ↔ Tally.Fits ts e) := by
  have hbuffer : (List.replicate 6 (0 : Code)).length = 6 := List.length_replicate
  obtain ⟨ts, e, hreads, hlength⟩ := 
    exists_readsAs kinds parseDouble (text.length + 1) true hbuffer (weight_le_succ text)
  refine ⟨ts, e, hreads, Nat.lt_succ_of_le hlength, ?_⟩
  obtain ⟨hchained, hillegal⟩ := hreads.turns hbuffer
  have hwell : WellFormed kinds parseDouble text ↔ e = none ∧ Sentence ts := by
    constructor
    · rintro ⟨ts', hreads', hsentence⟩
      obtain ⟨rfl, rfl⟩ := hreads.unique hreads'
      exact ⟨rfl, hsentence⟩
    · rintro ⟨rfl, hsentence⟩
      exact ⟨ts, hreads, hsentence⟩
  have hvalue := valueOf_readsAs hreads (Nat.lt_succ_of_le hlength)
  have hholds := (holds_start (D := D)).steps hchained
  rw [Answers, hwell, sentence_iff_steps hchained]
  cases hs : Tally.start.steps ts with
  | none =>
    rw [hs] at hholds
    rw [hvalue, hholds]
    constructor
    · intro hanswers
      exact absurd hanswers.1 id
    · rintro ⟨s, hsteps, -⟩
      rw [hs] at hsteps
      cases hsteps
  | some s =>
    rw [hs] at hholds
    obtain ⟨tokens, stack, hprocess, hholds, hstack⟩ := hholds
    have hfits : Tally.Fits ts e ↔
        (e = none → s.depth = 0 ∧ (s.unary = true → ts = [] ∨ 2 ≤ s.juxtaposed)) := by
      constructor
      · rintro ⟨s', hsteps, h⟩
        cases hs.symm.trans hsteps
        exact h
      · exact fun h => ⟨s, hs, h⟩
    rw [hfits, hvalue, hprocess]
    cases e with
    | some x => exact ⟨fun _ => nofun, fun _ => ⟨hillegal x rfl, fun h => nomatch h.1⟩⟩
    | none =>
      have hgood : (none = (none : Option ParseError) ∧ some s = some (⟨0, 0, false⟩ : Tally))
          ↔ s = ⟨0, 0, false⟩ := by
        rw [Option.some_inj]
        exact ⟨fun h => h.2, fun h => ⟨rfl, h⟩⟩
      rw [hgood]
      dsimp only [Except.bind]
      obtain ⟨es, hpush, hcount⟩ := hholds.values
      by_cases hdepth : s.depth = 0
      · obtain ⟨hvalues, hmissing⟩ := pushAll_holds hholds hdepth
        obtain ⟨d, j, unary⟩ := s
        obtain rfl : d = 0 := hdepth
        by_cases hone : unary = false ∨ j ≠ 0
        · obtain ⟨es', hpushAll, hlength⟩ := hvalues hone
          rw [answer_pushAll hpushAll, hlength]
          cases unary with
          | false =>
            -- the operand that was read last is counted too
            have hj : 1 + j = 1 ↔ (⟨0, j, false⟩ : Tally) = ⟨0, 0, false⟩ := by
              rw [Tally.mk.injEq]
              exact ⟨fun h => ⟨rfl, by omega, rfl⟩, fun h => by omega⟩
            exact ⟨fun _ _ => ⟨rfl, nofun⟩, fun _ => hj⟩
          | true =>
            have hne : ts ≠ [] := by
              rintro rfl
              cases hs
              exact hone.elim nofun fun h => h rfl
            have hj : j ≠ 0 := hone.resolve_left nofun
            have hnot : (⟨0, j, true⟩ : Tally) ≠ ⟨0, 0, false⟩ := nofun
            constructor
            · intro hanswers _
              refine ⟨rfl, fun _ => .inr ?_⟩
              by_contra hlt
              have hone : 0 + j = 1 := by
                dsimp only at hlt
                omega
              exact hnot (hanswers.mp hone)
            · intro h
              have htwo : 2 ≤ j := ((h rfl).2 rfl).resolve_left hne
              exact ⟨fun heq => absurd heq (by simp only [if_true]; omega),
                fun heq => absurd heq hnot⟩
        · obtain ⟨hunary, hj⟩ := not_or.mp hone
          obtain rfl : unary = true := by simpa using hunary
          obtain rfl : j = 0 := not_not.mp hj
          have hnot : (⟨0, 0, true⟩ : Tally) ≠ ⟨0, 0, false⟩ := nofun
          by_cases hnil : ts = []
          · subst hnil
            cases hprocess
            rw [answer_pushAll rfl]
            exact ⟨fun _ _ => ⟨rfl, fun _ => .inl rfl⟩, fun _ => ⟨nofun, fun h => absurd h hnot⟩⟩
          · have hpushAll := hmissing rfl rfl (hstack rfl hnil)
            constructor
            · intro hanswers
              exact absurd hanswers (answer_error hpushAll id _)
            · intro h
              rcases (h rfl).2 rfl with h | h
              · exact absurd h hnil
              · exact absurd h (by decide)
      · -- a parenthesis is open
        have hopen : stack.countP Token.isBegin ≠ 0 := fun h => hdepth (hholds.depth.symm.trans h)
        obtain ⟨x, hpushAll, hx⟩ := pushAll_begin es hholds.pending hopen
        rw [← pushAll_append hpush] at hpushAll
        constructor
        · intro hanswers
          exact absurd hanswers (answer_error hpushAll hx _)
        · intro h
          exact absurd (h rfl).1 hdepth

/-- The text `1)`: the stack of operators is empty. -/
theorem valueOf_closing :
    ¬ ∀ text : Str, Answers (fun _ => .other) (fun _ => (none : Option ℕ)) text := by
  intro hclaim
  have hanswers := hclaim [ch '1', ch ')']
  have hvalue : valueOf (fun _ => .other) (fun _ => (none : Option ℕ)) [ch '1', ch ')']
      = .error .noSuchElement := by decide +kernel
  rw [Answers, hvalue] at hanswers
  exact hanswers.1

end Expression

end JavaFx.Fxml
