/-
The grammar that `JSONSymbol` and its processor accept.

The table of transitions is one of a predictive parser: what is on top of the stack and the
terminal that comes next decide. `Parse` is that parser over a list of terminals. The
processor does the same over a scanner, one terminal ahead: `Takes` is a number of calls of
`next` that succeed, and the terminals they take.

A text is accepted when the calls empty the stack. They have then taken the symbols of an
object or an array, well-formed to any depth, and one more has been scanned behind it.
-/
import JavaFx.Json.JSONStreamReaderImpl

set_option autoImplicit false

namespace JavaFx.Json

/-! ## The language -/

/-- Parts with commas between them. -/
def series : List (List JSONSymbol) → List JSONSymbol
  | [] => []
  | first :: rest => first ++ rest.flatMap (.COMMA :: ·)

/-- A key and a value. -/
def member (value : List JSONSymbol) : List JSONSymbol := .STRING :: .COLON :: value

def object (values : List (List JSONSymbol)) : List JSONSymbol :=
  .CURLYOPEN :: (series (values.map member) ++ [.CURLYCLOSE])

def array (values : List (List JSONSymbol)) : List JSONSymbol :=
  .SQUAREOPEN :: (series values ++ [.SQUARECLOSE])

/-- The symbols of a value. -/
inductive IsValue : List JSONSymbol → Prop
  | keyword : IsValue [.KEYWORD]
  | string : IsValue [.STRING]
  | number : IsValue [.NUMBER]
  | object (values : List (List JSONSymbol)) (h : ∀ v ∈ values, IsValue v) :
      IsValue (object values)
  | array (values : List (List JSONSymbol)) (h : ∀ v ∈ values, IsValue v) :
      IsValue (array values)

def IsObject (ts : List JSONSymbol) : Prop :=
  ∃ values : List (List JSONSymbol), (∀ v ∈ values, IsValue v) ∧ ts = object values

def IsArray (ts : List JSONSymbol) : Prop :=
  ∃ values : List (List JSONSymbol), (∀ v ∈ values, IsValue v) ∧ ts = array values

/-- A document is an object or an array. -/
def IsDocument (ts : List JSONSymbol) : Prop := IsObject ts ∨ IsArray ts

namespace JSONSymbol

/-- Neither a nonterminal nor a marker. -/
def isTerminal (s : JSONSymbol) : Bool := !s.isMarker && s.markerSymbol.isNone

/-- What a symbol on the stack stands for. -/
def Spells : JSONSymbol → List JSONSymbol → Prop
  | .X, ts => IsDocument ts
  | .O, ts => IsObject ts
  | .A, ts => IsArray ts
  | .V, ts | .VA, ts => IsValue ts
  | .OV, ts => ∃ v, IsValue v ∧ ts = member v
  | .O1, ts =>
    ∃ values : List (List JSONSymbol), (∀ v ∈ values, IsValue v) ∧ ts = series (values.map member)
  | .O3, ts =>
    ∃ values : List (List JSONSymbol), (∀ v ∈ values, IsValue v) ∧
      ts = (values.map member).flatMap (.COMMA :: ·)
  | .A1, ts =>
    ∃ values : List (List JSONSymbol), (∀ v ∈ values, IsValue v) ∧ ts = series values
  | .A2, ts =>
    ∃ values : List (List JSONSymbol), (∀ v ∈ values, IsValue v) ∧ ts = values.flatMap (.COMMA :: ·)
  | s, ts => ts = if s.isMarker then [] else [s]

end JSONSymbol

open JSONSymbol

/-- What a stack stands for. -/
def SpellsAll : List JSONSymbol → List JSONSymbol → Prop
  | [], ts => ts = []
  | s :: stack, ts => ∃ u v, ts = u ++ v ∧ s.Spells u ∧ SpellsAll stack v

/-! ## The parser -/

/-- The parser comes from a stack and an input to others. -/
inductive Parse : (stack input stack' input' : List JSONSymbol) → Prop
  | refl (stack input : List JSONSymbol) : Parse stack input stack input
  | marker {s : JSONSymbol} {stack input stack' input' : List JSONSymbol} (hs : s.isMarker = true)
      (h : Parse stack input stack' input') : Parse (s :: stack) input stack' input'
  | terminal {s : JSONSymbol} {stack input stack' input' : List JSONSymbol}
      (hs : s.isTerminal = true) (h : Parse stack input stack' input') :
      Parse (s :: stack) (s :: input) stack' input'
  | expand {s t m : JSONSymbol} {target stack input stack' input' : List JSONSymbol}
      (ht : s.transitions t = some target) (hm : s.markerSymbol = some m)
      (h : Parse (target ++ m :: stack) (t :: input) stack' input') :
      Parse (s :: stack) (t :: input) stack' input'

theorem Parse.trans {s₁ i₁ s₂ i₂ s₃ i₃ : List JSONSymbol} (h : Parse s₁ i₁ s₂ i₂)
    (h' : Parse s₂ i₂ s₃ i₃) : Parse s₁ i₁ s₃ i₃ := by
  induction h with
  | refl => exact h'
  | marker hs _ ih => exact .marker hs (ih h')
  | terminal hs _ ih => exact .terminal hs (ih h')
  | expand ht hm _ ih => exact .expand ht hm (ih h')

theorem spellsAll_append {a b ts : List JSONSymbol} :
    SpellsAll (a ++ b) ts ↔ ∃ u v, ts = u ++ v ∧ SpellsAll a u ∧ SpellsAll b v := by
  induction a generalizing ts with
  | nil =>
    constructor
    · exact fun h => ⟨[], ts, rfl, rfl, h⟩
    · rintro ⟨u, v, rfl, rfl, h⟩
      exact h
  | cons s a ih =>
    constructor
    · rintro ⟨u, v, rfl, hu, hv⟩
      obtain ⟨v₁, v₂, rfl, h₁, h₂⟩ := ih.mp hv
      exact ⟨u ++ v₁, v₂, (List.append_assoc ..).symm, ⟨u, v₁, rfl, hu, h₁⟩, h₂⟩
    · rintro ⟨w, v₂, rfl, ⟨u, v₁, rfl, hu, h₁⟩, h₂⟩
      exact ⟨u, v₁ ++ v₂, List.append_assoc .., hu, ih.mpr ⟨v₁, v₂, rfl, h₁, h₂⟩⟩

theorem Parse.ne_nil {stack input stack' input' : List JSONSymbol}
    (h : Parse stack input stack' input') (hne : input' ≠ []) : input ≠ [] := by
  induction h with
  | refl => exact hne
  | marker _ _ ih | expand _ _ _ ih => exact ih hne
  | terminal => simp

theorem spells_terminal {s : JSONSymbol} (hs : s.isTerminal = true) : s.Spells [s] := by
  cases s <;> first | exact rfl | cases hs

theorem spells_marker {s : JSONSymbol} (hs : s.isMarker = true) {ts : List JSONSymbol} :
    s.Spells ts ↔ ts = [] := by
  cases s <;> first | exact Iff.rfl | cases hs

theorem isMarker_of_markerSymbol {s m : JSONSymbol} (h : s.markerSymbol = some m) :
    m.isMarker = true := by
  cases s <;> first | (cases h; rfl) | cases h

/-! ## What is accepted is well formed -/

theorem spellsAll_cons {s : JSONSymbol} {stack ts : List JSONSymbol} :
    SpellsAll (s :: stack) ts ↔ ∃ u v, ts = u ++ v ∧ s.Spells u ∧ SpellsAll stack v := Iff.rfl

theorem spellsAll_singleton {s : JSONSymbol} {ts : List JSONSymbol} :
    SpellsAll [s] ts ↔ s.Spells ts := by
  rw [spellsAll_cons]
  simp [SpellsAll]

/-- A first value and the rest of a series. -/
theorem spells_series {ts : List JSONSymbol} (h : SpellsAll [.VA, .A2] ts) : Spells .A1 ts := by
  obtain ⟨v, rest, rfl, hv, hrest⟩ := h
  obtain ⟨values, hvalues, rfl⟩ := spellsAll_singleton.mp hrest
  exact ⟨v :: values, List.forall_mem_cons.mpr ⟨hv, hvalues⟩, rfl⟩

/-- **The table** has only productions of the grammar. -/
theorem spells_of_transition {s t : JSONSymbol} {target ts : List JSONSymbol}
    (ht : s.transitions t = some target) (h : SpellsAll target ts) : s.Spells ts := by
  unfold JSONSymbol.transitions at ht
  split at ht <;> cases ht
  -- the lines of the table that differ in the terminal only
  all_goals try exact spells_series h
  all_goals try exact spellsAll_singleton (s := .V) |>.mp h
  · exact .inl (spellsAll_singleton.mp h)
  · exact .inr (spellsAll_singleton.mp h)
  · obtain ⟨-, -, rfl, rfl, u, v, rfl, ⟨values, hvalues, rfl⟩, hclose⟩ := h
    rw [spellsAll_singleton.mp hclose]
    exact ⟨values, hvalues, rfl⟩
  · rw [show ts = [] from h]
    exact ⟨[], by simp, rfl⟩
  · obtain ⟨-, rest, rfl, ⟨v, hv, rfl⟩, hrest⟩ := h
    obtain ⟨values, hvalues, rfl⟩ := spellsAll_singleton.mp hrest
    exact ⟨v :: values, List.forall_mem_cons.mpr ⟨hv, hvalues⟩, rfl⟩
  · rw [show ts = [] from h]
    exact ⟨[], by simp, rfl⟩
  · obtain ⟨-, -, rfl, rfl, -, rest, rfl, ⟨v, hv, rfl⟩, hrest⟩ := h
    obtain ⟨values, hvalues, rfl⟩ := spellsAll_singleton.mp hrest
    exact ⟨v :: values, List.forall_mem_cons.mpr ⟨hv, hvalues⟩, rfl⟩
  · obtain ⟨-, -, rfl, rfl, -, v, rfl, rfl, hv⟩ := h
    exact ⟨v, spellsAll_singleton.mp hv, rfl⟩
  · obtain ⟨-, -, rfl, rfl, u, v, rfl, ⟨values, hvalues, rfl⟩, hclose⟩ := h
    rw [spellsAll_singleton.mp hclose]
    exact ⟨values, hvalues, rfl⟩
  · rw [show ts = [] from h]
    exact ⟨[], by simp, rfl⟩
  · obtain ⟨-, -, rfl, rfl, v, rest, rfl, hv, hrest⟩ := h
    obtain ⟨values, hvalues, rfl⟩ := spellsAll_singleton.mp hrest
    exact ⟨v :: values, List.forall_mem_cons.mpr ⟨hv, hvalues⟩, rfl⟩
  · rw [show ts = [] from h]
    exact ⟨[], by simp, rfl⟩
  · obtain ⟨values, hvalues, rfl⟩ := spellsAll_singleton.mp h
    exact .object values hvalues
  · obtain ⟨values, hvalues, rfl⟩ := spellsAll_singleton.mp h
    exact .array values hvalues
  · rw [show ts = [.KEYWORD] from spellsAll_singleton.mp h]
    exact .keyword
  · rw [show ts = [.STRING] from spellsAll_singleton.mp h]
    exact .string
  · rw [show ts = [.NUMBER] from spellsAll_singleton.mp h]
    exact .number

/-- What the parser takes from the input is what it takes from the stack stands for. -/
theorem Parse.spells {stack input stack' input' : List JSONSymbol}
    (h : Parse stack input stack' input') {v : List JSONSymbol} (hv : SpellsAll stack' v) :
    ∃ u, input = u ++ input' ∧ SpellsAll stack (u ++ v) := by
  induction h with
  | refl => exact ⟨[], rfl, hv⟩
  | marker hs _ ih =>
    obtain ⟨u, rfl, hu⟩ := ih hv
    exact ⟨u, rfl, [], u ++ v, rfl, (spells_marker hs).mpr rfl, hu⟩
  | terminal hs _ ih =>
    obtain ⟨u, rfl, hu⟩ := ih hv
    exact ⟨_ :: u, rfl, [_], u ++ v, rfl, spells_terminal hs, hu⟩
  | expand ht hm _ ih =>
    obtain ⟨u, hu, hall⟩ := ih hv
    obtain ⟨a, b, hab, ha, m, rest, rfl, hmarker, hrest⟩ := spellsAll_append.mp hall
    rw [spells_marker (isMarker_of_markerSymbol hm)] at hmarker
    subst hmarker
    exact ⟨u, hu, a, rest, hab, spells_of_transition ht ha, hrest⟩

/-! ## What is well formed is accepted -/

/-- The terminal that a value begins with. -/
theorem IsValue.head {v : List JSONSymbol} (h : IsValue v) :
    ∃ t w, v = t :: w ∧ transitions .VA t = some [.V] ∧ transitions .A1 t = some [.VA, .A2] := by
  cases h <;> exact ⟨_, _, rfl, rfl, rfl⟩

/-- The parser goes over a value. -/
def Passes (v : List JSONSymbol) : Prop :=
  ∀ stack input, Parse (.V :: stack) (v ++ input) stack input

theorem parse_OV {v : List JSONSymbol} (h : Passes v) (stack input : List JSONSymbol) :
    Parse (.OV :: stack) (member v ++ input) stack input := by
  refine .expand (m := .OV_) rfl rfl (.terminal rfl (.terminal rfl ?_))
  exact (h _ input).trans (.marker rfl (.refl ..))

theorem parse_VA {v : List JSONSymbol} (hv : IsValue v) (h : Passes v)
    (stack input : List JSONSymbol) : Parse (.VA :: stack) (v ++ input) stack input := by
  obtain ⟨t, w, rfl, hVA, -⟩ := hv.head
  refine .expand (m := .VA_) hVA rfl ?_
  exact (h _ input).trans (.marker rfl (.refl ..))

/-- The values after the first one, up to the end of the object. -/
theorem parse_O3 (values : List (List JSONSymbol)) (h : ∀ v ∈ values, Passes v)
    (stack input : List JSONSymbol) :
    Parse (.O3 :: stack) ((values.map member).flatMap (.COMMA :: ·) ++ .CURLYCLOSE :: input) stack
      (.CURLYCLOSE :: input) := by
  induction values generalizing stack with
  | nil => exact .expand (m := .O3_) rfl rfl (.marker rfl (.refl ..))
  | cons v values ih =>
    obtain ⟨hv, hvalues⟩ := List.forall_mem_cons.mp h
    simp only [List.map_cons, List.flatMap_cons, List.cons_append, List.append_assoc]
    refine .expand (m := .O3_) rfl rfl (.terminal rfl ?_)
    apply (parse_OV hv _ _).trans
    exact (ih hvalues _).trans (.marker rfl (.refl ..))

theorem parse_A2 (values : List (List JSONSymbol)) (h : ∀ v ∈ values, IsValue v ∧ Passes v)
    (stack input : List JSONSymbol) :
    Parse (.A2 :: stack) (values.flatMap (.COMMA :: ·) ++ .SQUARECLOSE :: input) stack
      (.SQUARECLOSE :: input) := by
  induction values generalizing stack with
  | nil => exact .expand (m := .A2_) rfl rfl (.marker rfl (.refl ..))
  | cons v values ih =>
    obtain ⟨hv, hvalues⟩ := List.forall_mem_cons.mp h
    simp only [List.flatMap_cons, List.cons_append, List.append_assoc]
    refine .expand (m := .A2_) rfl rfl (.terminal rfl ?_)
    apply (parse_VA hv.1 hv.2 _ _).trans
    exact (ih hvalues _).trans (.marker rfl (.refl ..))

theorem parse_O (values : List (List JSONSymbol)) (h : ∀ v ∈ values, Passes v)
    (stack input : List JSONSymbol) : Parse (.O :: stack) (object values ++ input) stack input := by
  have hO1 : ∀ stack input, Parse (.O1 :: stack)
      (series (values.map member) ++ .CURLYCLOSE :: input) stack (.CURLYCLOSE :: input) := by
    intro stack input
    cases values with
    | nil => exact .expand (m := .O1_) rfl rfl (.marker rfl (.refl ..))
    | cons v values =>
      obtain ⟨hv, hvalues⟩ := List.forall_mem_cons.mp h
      rw [List.map_cons, series, List.append_assoc]
      refine .expand (m := .O1_) rfl rfl ?_
      apply (parse_OV hv _ _).trans
      exact (parse_O3 values hvalues _ _).trans (.marker rfl (.refl ..))
  rw [object, List.cons_append, List.append_assoc]
  refine .expand (m := .O_) rfl rfl (.terminal rfl ?_)
  exact (hO1 _ _).trans (.terminal rfl (.marker rfl (.refl ..)))

theorem parse_A (values : List (List JSONSymbol)) (h : ∀ v ∈ values, IsValue v ∧ Passes v)
    (stack input : List JSONSymbol) : Parse (.A :: stack) (array values ++ input) stack input := by
  have hA1 : ∀ stack input, Parse (.A1 :: stack) (series values ++ .SQUARECLOSE :: input) stack
      (.SQUARECLOSE :: input) := by
    intro stack input
    cases values with
    | nil => exact .expand (m := .A1_) rfl rfl (.marker rfl (.refl ..))
    | cons v values =>
      obtain ⟨hv, hvalues⟩ := List.forall_mem_cons.mp h
      rw [series, List.append_assoc]
      have hfirst := parse_VA hv.1 hv.2 (.A2 :: .A1_ :: stack)
        (values.flatMap (.COMMA :: ·) ++ .SQUARECLOSE :: input)
      obtain ⟨t, w, rfl, -, hA1⟩ := hv.1.head
      refine .expand (m := .A1_) hA1 rfl ?_
      apply hfirst.trans
      exact (parse_A2 values hvalues _ _).trans (.marker rfl (.refl ..))
  rw [array, List.cons_append, List.append_assoc]
  refine .expand (m := .A_) rfl rfl (.terminal rfl ?_)
  exact (hA1 _ _).trans (.terminal rfl (.marker rfl (.refl ..)))

theorem IsValue.passes {v : List JSONSymbol} (h : IsValue v) : Passes v := by
  intro stack input
  induction h generalizing stack input with
  | keyword | string | number =>
    exact .expand (m := .V_) rfl rfl (.terminal rfl (.marker rfl (.refl ..)))
  | object values h ih =>
    refine .expand (m := .V_) rfl rfl ?_
    exact (parse_O values ih _ input).trans (.marker rfl (.refl ..))
  | array values h ih =>
    refine .expand (m := .V_) rfl rfl ?_
    exact (parse_A values (fun v hv => ⟨h v hv, ih v hv⟩) _ input).trans (.marker rfl (.refl ..))

theorem IsDocument.parse {ts : List JSONSymbol} (h : IsDocument ts) (input : List JSONSymbol) :
    Parse [.X] (ts ++ input) [] input := by
  rcases h with ⟨values, hvalues, rfl⟩ | ⟨values, hvalues, rfl⟩
  · refine .expand (m := .X_) rfl rfl ?_
    exact (parse_O values (fun v hv => (hvalues v hv).passes) _ input).trans
      (.marker rfl (.refl ..))
  · refine .expand (m := .X_) rfl rfl ?_
    exact (parse_A values (fun v hv => ⟨hvalues v hv, (hvalues v hv).passes⟩) _ input).trans
      (.marker rfl (.refl ..))

/-! ## The processor -/

namespace Processor

/-- Calls of `next` that succeed, and the terminals they take. -/
inductive Takes : Processor → List JSONSymbol → Processor → Prop
  | refl (p : Processor) : Takes p [] p
  | step {p q r : Processor} {s : JSONSymbol} {ts : List JSONSymbol} (h : p.next = (.ok s, q))
      (h' : Takes q ts r) : Takes p (if s.isTerminal then s :: ts else ts) r

/-- The scanner gives these symbols in turn. -/
def Scans : JSONScanner → List JSONSymbol → Prop
  | _, [] => True
  | s, t :: ts => ∃ s', s.nextSymbol = (.ok t, s') ∧ Scans s' ts

/-- The processor has the first symbol, and its scanner gives the others. -/
structure Ahead (p : Processor) (input : List JSONSymbol) : Prop where
  terminal : p.terminal = input.head?
  scans : Scans p.scanner input.tail

variable {p q r : Processor} {s : JSONSymbol} {ts : List JSONSymbol}

/-- What a call of `next` that succeeds does. -/
theorem next_cases (h : p.next = (.ok s, q)) : ∃ stack, p.stack = s :: stack ∧
    ((s.isMarker = true ∧ q = { p with stack := stack }) ∨
    (s.isTerminal = true ∧ p.terminal = some s ∧ ∃ t scanner,
      p.scanner.nextSymbol = (.ok t, scanner) ∧
      q = ⟨stack, some t, p.scanner.value, scanner⟩) ∨
    ∃ t target m, p.terminal = some t ∧ s.transitions t = some target ∧
      s.markerSymbol = some m ∧ q = { p with stack := target ++ m :: stack }) := by
  unfold next at h
  split at h
  · simp at h
  next current stack hstack =>
    dsimp only at h
    split at h
    next hm =>
      simp only [Prod.mk.injEq, Except.ok.injEq] at h
      exact ⟨stack, by rw [hstack, h.1], .inl ⟨h.1 ▸ hm, h.2.symm⟩⟩
    next hm =>
      split at h
      next hnone =>
        split at h
        next hterminal =>
          unfold advance at h
          rcases hscan : p.scanner.nextSymbol with ⟨e | t, scanner⟩
          · simp [hscan] at h
          · simp only [hscan, Prod.mk.injEq, Except.ok.injEq] at h
            obtain ⟨rfl, rfl⟩ := h
            exact ⟨stack, hstack, .inr (.inl ⟨by simp [isTerminal, hm, hnone], hterminal, t,
              scanner, rfl, rfl⟩)⟩
        · simp [unexpected] at h
      next m hsome =>
        split at h
        · simp [unexpected] at h
        next target htarget =>
          simp only [Prod.mk.injEq, Except.ok.injEq] at h
          obtain ⟨rfl, rfl⟩ := h
          obtain ⟨t, ht, htarget⟩ := Option.bind_eq_some_iff.mp htarget
          exact ⟨stack, hstack, .inr (.inr ⟨t, target, m, ht, htarget, hsome, rfl⟩)⟩

theorem isTerminal_of_isMarker (hs : s.isMarker = true) : s.isTerminal = false := by
  simp [isTerminal, hs]

theorem isTerminal_of_markerSymbol {m : JSONSymbol} (hm : s.markerSymbol = some m) :
    s.isTerminal = false := by
  simp [isTerminal, hm]

theorem init_ok {scanner : JSONScanner} (h : p.init scanner = (.ok (), q)) :
    ∃ t scanner', scanner.nextSymbol = (.ok t, scanner') ∧
      q = ⟨[.X], some t, p.value, scanner'⟩ := by
  unfold init advance at h
  rcases hscan : scanner.nextSymbol with ⟨e | t, scanner'⟩
  · simp [hscan] at h
  · simp only [hscan, Prod.mk.injEq, true_and] at h
    exact ⟨t, scanner', rfl, h.symm⟩

theorem Takes.terminal_isSome (h : Takes p ts q) (hp : p.terminal.isSome = true) :
    q.terminal.isSome = true := by
  induction h with
  | refl => exact hp
  | step h _ ih =>
    apply ih
    obtain ⟨stack, -, ⟨-, rfl⟩ | ⟨-, -, t, scanner, -, rfl⟩ | ⟨t, target, m, -, -, -, rfl⟩⟩ :=
      next_cases h
    all_goals first | exact hp | rfl

theorem Ahead.cons {t : JSONSymbol} {input : List JSONSymbol} (h : Ahead p input)
    (ht : p.terminal = some t) : ∃ rest, input = t :: rest ∧ Scans p.scanner rest := by
  obtain ⟨hterminal, hscans⟩ := h
  cases input with
  | nil => simp [ht] at hterminal
  | cons t' rest =>
    obtain rfl : t = t' := by simpa [ht] using hterminal
    exact ⟨rest, rfl, hscans⟩

/-- **Calls that succeed** are moves of the parser on the terminals that the scanner gives. -/
theorem Takes.parse (h : Takes p ts q) {input : List JSONSymbol} (ha : Ahead q input) :
    Ahead p (ts ++ input) ∧ Parse p.stack (ts ++ input) q.stack input := by
  induction h with
  | refl p => exact ⟨ha, .refl ..⟩
  | step h _ ih =>
    obtain ⟨hahead, hparse⟩ := ih ha
    obtain ⟨stack, hstack, ⟨hs, rfl⟩ | ⟨hs, hterminal, t, scanner, hscan, rfl⟩ |
      ⟨t, target, m, hterminal, ht, hm, rfl⟩⟩ := next_cases h
    · rw [isTerminal_of_isMarker hs, if_neg (by simp), hstack]
      exact ⟨⟨hahead.terminal, hahead.scans⟩, .marker hs hparse⟩
    · -- the scanner is one symbol ahead of what is taken
      obtain ⟨rest, hrest, hscans⟩ := hahead.cons rfl
      rw [if_pos hs, hstack, List.cons_append]
      refine ⟨⟨hterminal, ?_⟩, .terminal hs hparse⟩
      rw [List.tail_cons, hrest]
      exact ⟨scanner, hscan, hscans⟩
    · obtain ⟨rest, hrest, hscans⟩ := hahead.cons hterminal
      rw [isTerminal_of_markerSymbol hm, if_neg (by simp), hstack]
      refine ⟨⟨hahead.terminal, hahead.scans⟩, ?_⟩
      simp only [hrest] at hparse ⊢
      exact .expand ht hm hparse

theorem next_marker {stack : List JSONSymbol} (hstack : p.stack = s :: stack)
    (hs : s.isMarker = true) : p.next = (.ok s, { p with stack := stack }) := by
  simp [next, hstack, hs]

theorem next_terminal {t : JSONSymbol} {stack : List JSONSymbol} {scanner : JSONScanner}
    (hstack : p.stack = s :: stack) (hs : s.isTerminal = true) (hterminal : p.terminal = some s)
    (hscan : p.scanner.nextSymbol = (.ok t, scanner)) :
    p.next = (.ok s, ⟨stack, some t, p.scanner.value, scanner⟩) := by
  obtain ⟨hmarker, hnone⟩ : s.isMarker = false ∧ s.markerSymbol = none := by
    simpa [isTerminal] using hs
  simp [next, advance, hstack, hmarker, hnone, hterminal, hscan]

theorem next_expand {t m : JSONSymbol} {target stack : List JSONSymbol}
    (hstack : p.stack = s :: stack) (hterminal : p.terminal = some t)
    (ht : s.transitions t = some target) (hm : s.markerSymbol = some m) :
    p.next = (.ok s, { p with stack := target ++ m :: stack }) := by
  have hmarker : s.isMarker = false := by
    cases s <;> first | rfl | cases hm
  simp [next, hstack, hmarker, hm, hterminal, ht]

/-- **The parser's moves** are calls that succeed, as long as the scanner gives the terminals
and one more. -/
theorem takes_of_parse {stack input stack' input' : List JSONSymbol}
    (h : Parse stack input stack' input') (hne : input' ≠ []) (hstack : p.stack = stack)
    (ha : Ahead p input) :
    ∃ ts q, input = ts ++ input' ∧ Takes p ts q ∧ q.stack = stack' ∧ Ahead q input' := by
  induction h generalizing p with
  | refl => exact ⟨[], p, rfl, .refl p, hstack, ha⟩
  | marker hs _ ih =>
    obtain ⟨ts, q, rfl, htakes, hq⟩ := ih hne (p := { p with stack := _ }) rfl ⟨ha.1, ha.2⟩
    refine ⟨ts, q, rfl, ?_, hq⟩
    simpa [isTerminal_of_isMarker hs] using Takes.step (next_marker hstack hs) htakes
  | terminal hs hparse ih =>
    obtain ⟨t, rest, rfl⟩ := List.exists_cons_of_ne_nil (hparse.ne_nil hne)
    obtain ⟨scanner, hscan, hscans⟩ := ha.scans
    obtain ⟨ts, q, hts, htakes, hq⟩ :=
      ih hne (p := ⟨_, some t, p.scanner.value, scanner⟩) rfl ⟨rfl, hscans⟩
    refine ⟨_ :: ts, q, congrArg _ hts, ?_, hq⟩
    simpa [hs] using Takes.step (next_terminal hstack hs ha.terminal hscan) htakes
  | expand ht hm _ ih =>
    obtain ⟨ts, q, hts, htakes, hq⟩ := ih hne (p := { p with stack := _ }) rfl ⟨ha.1, ha.2⟩
    refine ⟨ts, q, hts, ?_, hq⟩
    simpa [isTerminal_of_markerSymbol hm] using
      Takes.step (next_expand hstack ha.terminal ht hm) htakes

/-- **The processor accepts** the objects and the arrays, and one symbol must have been
scanned behind what it accepts. -/
theorem accepts_iff (p : Processor) (scanner : JSONScanner) (ts : List JSONSymbol) :
    (∃ p₀ q, p.init scanner = (.ok (), p₀) ∧ Takes p₀ ts q ∧ q.stack = []) ↔
      IsDocument ts ∧ ∃ after, Scans scanner (ts ++ [after]) := by
  constructor
  · rintro ⟨p₀, q, hinit, htakes, hq⟩
    obtain ⟨t, scanner', hscan, rfl⟩ := init_ok hinit
    obtain ⟨after, hafter⟩ := Option.isSome_iff_exists.mp (htakes.terminal_isSome rfl)
    obtain ⟨hahead, hparse⟩ := htakes.parse (show Ahead q [after] from ⟨hafter, trivial⟩)
    obtain ⟨rest, hrest, hscans⟩ := hahead.cons rfl
    refine ⟨?_, after, ?_⟩
    · rw [hq] at hparse
      obtain ⟨u, hu, hspells⟩ := hparse.spells (v := []) rfl
      rw [List.append_cancel_right hu, ← List.append_nil u]
      exact spellsAll_singleton.mp hspells
    · rw [hrest]
      exact ⟨scanner', hscan, hscans⟩
  · rintro ⟨hts, after, hscans⟩
    obtain ⟨t, rest, hrest⟩ : ∃ t rest, ts ++ [after] = t :: rest :=
      List.exists_cons_of_ne_nil (by simp)
    rw [hrest] at hscans
    obtain ⟨scanner', hscan, hscans⟩ := hscans
    obtain ⟨ts', q, hts', htakes, hq, -⟩ := takes_of_parse (hts.parse [after]) (by simp)
      (p := ⟨[.X], some t, p.value, scanner'⟩) rfl (by rw [hrest]; exact ⟨rfl, hscans⟩)
    rw [List.append_cancel_right hts']
    exact ⟨_, q, by simp [init, advance, hscan], htakes, hq⟩

end Processor

end JavaFx.Json
