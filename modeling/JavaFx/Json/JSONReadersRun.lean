/-
Several readers at once.

The processor of `JSONSymbol` is shared: the constructor of a reader sets its stack, its
terminal and its scanner anew, and takes it from whoever used it before. So a reader is on
its own as long as no other was constructed after it, or when it is at the end of its
document and does not ask the processor any more. The value that the processor holds is
the one thing a constructor leaves; `next_sameUpToValue` says that no
event that has a value reads the one that was left.
-/
import JavaFx.Json.JSONReaderTurns
import JavaFx.Lib.Run

set_option autoImplicit false

namespace JavaFx.Json

open JavaFx.Lib

/-! ## The readers -/

/-- What a caller gets. The value belongs to the events that have one. -/
inductive Output
  | constructed (result : Except ReadError Unit)
  | event (result : Except ReadError (EventType × Option Str × Option Str))
  deriving DecidableEq

/-- The events that have a value. -/
def EventType.hasValue : EventType → Bool
  | .STRING | .NUMBER | .INTEGER => true
  | _ => false

/-- What the caller of `next()` can ask for after it. -/
def output (out : JSONStreamReaderImpl.Ends EventType) : Output :=
  .event (out.1.map fun e =>
    (e, if e.hasValue then out.2.value else none, out.2.fields.key))

/-- The readers that were constructed, with their scanners, and the static fields of
`JSONSymbol`. The log holds what the callers got; a constructor that throws leaves no
reader. -/
structure Readers where
  stack : List JSONSymbol
  terminal : Option JSONSymbol
  value : Option Str
  scanner : ℕ
  scanners : List JSONScanner
  readers : List (Option ReaderFields)
  inputs : List (List Code)
  log : List (ℕ × Output)
  deriving DecidableEq

namespace Readers

def new : Readers := ⟨[], none, none, 0, [], [], [], []⟩

/-- The scanner of a reader. -/
def scannerOf (w : Readers) (i : ℕ) : JSONScanner := (w.scanners[i]?).getD (.new [])

/-- The static fields. -/
def processor (w : Readers) : Processor :=
  ⟨w.stack, w.terminal, w.value, w.scannerOf w.scanner⟩

/-- The static fields written back. -/
def withProcessor (w : Readers) (p : Processor) : Readers :=
  { w with
    stack := p.stack
    terminal := p.terminal
    value := p.value
    scanners := w.scanners.set w.scanner p.scanner }

inductive Action
  | construct (input : List Code)
  | next (i : ℕ)

/-- `new JSONStreamReaderImpl(reader)`. -/
def construct (w : Readers) (input : List Code) : Readers :=
  let i := w.inputs.length
  let out := w.processor.init (.new input)
  let w' : Readers := { w with scanner := i, scanners := w.scanners ++ [.new input] }
  { w'.withProcessor out.2 with
    readers := w.readers ++ [match out.1 with
      | .ok _ => some .new
      | .error _ => none]
    inputs := w.inputs ++ [input]
    log := w.log ++ [(i, .constructed out.1)] }

/-- The scanner of the `i`-th reader, given the one of the processor. -/
def own (w : Readers) (i : ℕ) (scanner : JSONScanner) : JSONScanner :=
  if i = w.scanner then scanner else w.scannerOf i

/-- `next()` of the `i`-th reader. -/
def next (w : Readers) (i : ℕ) : Readers :=
  match w.readers[i]? with
  | some (some fields) =>
    let out := JSONStreamReaderImpl.next (w.own i) ⟨w.processor, fields⟩
    { w.withProcessor out.2.processor with
      readers := w.readers.set i (some out.2.fields)
      log := w.log ++ [(i, output out)] }
  | _ => w

def step (w : Readers) : Action → Except Unit Readers
  | .construct input => .ok (w.construct input)
  | .next i => .ok (w.next i)

/-- What the `i`-th reader gave. -/
def outputs (w : Readers) (i : ℕ) : List Output := (w.log.filter (fun e => e.1 = i)).map Prod.snd

/-- Nobody constructed a reader after this one, or it is at the end of its document. -/
def OnItsOwn (w : Readers) (i : ℕ) : Prop :=
  i = w.scanner ∨ ∃ fields, w.readers[i]? = some (some fields) ∧ fields.eod = true

def ActionOk (w : Readers) : Action → Prop
  | .construct _ => True
  | .next i => w.OnItsOwn i

end Readers

/-! ## The value that is left -/

namespace JSONStreamReaderImpl

variable {own : JSONScanner → JSONScanner} {r : JSONStreamReaderImpl}

/-- The same reader, when the processor holds another value. -/
def withValue (v : Option Str) (r : JSONStreamReaderImpl) : JSONStreamReaderImpl :=
  { r with processor := { r.processor with value := v } }

/-- Two ends of a method that differ in the value that the processor holds, and not even in
that if the event has a value. -/
def SameUpToValue (out out' : Ends EventType) : Prop :=
  out'.1 = out.1 ∧ (∃ v, out'.2 = out.2.withValue v) ∧
    ∀ e, out.1 = .ok e → e.hasValue → out'.2 = out.2

theorem SameUpToValue.refl (out : Ends EventType) : SameUpToValue out out :=
  ⟨rfl, ⟨out.2.processor.value, rfl⟩, fun _ _ _ => rfl⟩

theorem SameUpToValue.error (e : ReadError) (r : JSONStreamReaderImpl) (v : Option Str) :
    SameUpToValue (.error e, r) (.error e, r.withValue v) :=
  ⟨rfl, ⟨v, rfl⟩, nofun⟩

theorem SameUpToValue.output_eq {out out' : Ends EventType} (h : SameUpToValue out out') :
    output out' = output out := by
  obtain ⟨hres, ⟨v, hv⟩, hvalue⟩ := h
  rw [output, output, hres]
  cases hout : out.1 with
  | error e => rfl
  | ok e =>
    have hkey : out'.2.fields.key = out.2.fields.key := by rw [hv]; rfl
    simp only [Except.map]
    by_cases he : e.hasValue
    · rw [hvalue e hout he]
    · simp [he, hkey]

variable (own r) in
/-- A turn of the loop after a symbol that is not a terminal does not read the value. -/
theorem onSymbol_withValue (s : JSONSymbol) (hs : s.isMarker ∨ s.markerSymbol ≠ none)
    (v : Option Str) : onSymbol own (r.withValue v) s = match onSymbol own r s with
      | .ends out => .ends (out.1, out.2.withValue v)
      | .again r => .again (r.withValue v)
      | .key r => .key (r.withValue v) := by
  cases s with
  | OV_ =>
    simp only [onSymbol]
    cases hstack : r.fields.stack with
    | nil => simp [withValue, hstack]
    | cons k stack => simp [withValue, hstack, event]
  | CURLYOPEN | CURLYCLOSE | COLON | COMMA | SQUAREOPEN | SQUARECLOSE | KEYWORD | STRING | NUMBER
  | EOS => simp [JSONSymbol.isMarker, JSONSymbol.markerSymbol] at hs
  | _ => rfl

/-- No event with a value comes from such a turn. -/
theorem onSymbol_hasValue (s : JSONSymbol) (hs : s.isMarker ∨ s.markerSymbol ≠ none)
    {e : EventType} {r' : JSONStreamReaderImpl} (h : onSymbol own r s = .ends (.ok e, r')) :
    e.hasValue = false := by
  cases s with
  | OV_ =>
    simp only [onSymbol] at h
    cases hstack : r.fields.stack with
    | nil => simp [hstack] at h
    | cons k stack =>
      simp only [hstack, event] at h
      cases h
      rfl
  | CURLYOPEN | CURLYCLOSE | COLON | COMMA | SQUAREOPEN | SQUARECLOSE | KEYWORD | STRING | NUMBER
  | EOS => simp [JSONSymbol.isMarker, JSONSymbol.markerSymbol] at hs
  | _ =>
    simp only [onSymbol, event] at h
    cases h <;> rfl

/-- Two turns that differ in the value that the processor holds. -/
inductive SameTurn : Turn → Turn → Prop
  | ends {out out' : Ends EventType} (h : SameUpToValue out out') : SameTurn (.ends out) (.ends out')
  | again (r : JSONStreamReaderImpl) (v : Option Str) : SameTurn (.again r) (.again (r.withValue v))
  | key (r : JSONStreamReaderImpl) (v : Option Str) : SameTurn (.key r) (.key (r.withValue v))

theorem SameTurn.refl (t : Turn) : SameTurn t t := by
  cases t with
  | ends out => exact .ends (SameUpToValue.refl out)
  | again r => exact .again r r.processor.value
  | key r => exact .key r r.processor.value

/-- A terminal brings its own value. -/
theorem next_withValue (p : Processor) (v : Option Str) :
    Processor.next { p with value := v } = p.next ∨
      Processor.next { p with value := v } = (p.next.1, { p.next.2 with value := v }) ∧
        ∀ s, p.next.1 = .ok s → s.isMarker ∨ s.markerSymbol ≠ none := by
  obtain ⟨stack, terminal, value, scanner⟩ := p
  cases stack with
  | nil => exact .inr ⟨rfl, by rintro _ ⟨⟩⟩
  | cons current stack =>
    simp only [Processor.next]
    by_cases hmarker : current.isMarker
    · rw [if_pos hmarker, if_pos hmarker]
      refine .inr ⟨rfl, fun s hs => ?_⟩
      cases hs
      exact .inl hmarker
    · rw [if_neg hmarker, if_neg hmarker]
      cases hsym : current.markerSymbol with
      | none =>
        simp only
        by_cases hterm : terminal = some current
        · rw [if_pos hterm, if_pos hterm]
          exact .inl rfl
        · rw [if_neg hterm, if_neg hterm]
          exact .inr ⟨rfl, by rintro _ ⟨⟩⟩
      | some marker =>
        simp only
        cases terminal.bind current.transitions with
        | none => exact .inr ⟨rfl, by rintro _ ⟨⟩⟩
        | some target =>
          refine .inr ⟨rfl, fun s hs => ?_⟩
          cases hs
          exact .inr (by simp [hsym])

variable (own r) in
theorem turn_withValue (v : Option Str) : SameTurn (turn own r) (turn own (r.withValue v)) := by
  rw [turn, turn]
  rcases next_withValue r.processor v with hsame | ⟨hvalue, hsymbol⟩
  · simp only [withValue, hsame]
    exact SameTurn.refl _
  · simp only [withValue, hvalue]
    cases hnext : r.processor.next with
    | mk res p =>
      cases res with
      | error e => exact .ends (SameUpToValue.error e ⟨p, r.fields⟩ v)
      | ok s =>
        -- the symbol is no terminal
        have hs := hsymbol s (by rw [hnext])
        have hswitch := onSymbol_withValue own ⟨p, { r.fields with currentSymbol := s }⟩ s hs v
        simp only [withValue] at hswitch ⊢
        rw [hswitch]
        cases hturn : onSymbol own ⟨p, { r.fields with currentSymbol := s }⟩ s with
        | again r => exact .again r v
        | key r => exact .key r v
        | ends out =>
          refine .ends ⟨rfl, ⟨v, rfl⟩, ?_⟩
          intro e he hhas
          have hout : out = (.ok e, out.2) := Prod.ext he rfl
          rw [hout] at hturn
          rw [onSymbol_hasValue s hs hturn] at hhas
          cases hhas

theorem SameUpToValue.afterKey {out out' : Ends EventType} (h : SameUpToValue out out') :
    SameUpToValue (afterKey out) (afterKey out') := by
  obtain ⟨hres, ⟨v, hv⟩, hvalue⟩ := h
  obtain ⟨res, r⟩ := out
  obtain ⟨res', r'⟩ := out'
  simp only at hres hv hvalue
  rw [hres]
  cases res with
  | error e =>
    rw [hv]
    exact SameUpToValue.error e r v
  | ok e =>
    by_cases he : e = .STRING
    · -- the key is the value of the event
      rw [hvalue e rfl (by rw [he]; rfl)]
      exact SameUpToValue.refl _
    · rw [hv]
      refine ⟨rfl, ⟨v, ?_⟩, ?_⟩
      · simp only [JSONStreamReaderImpl.afterKey, if_neg he]
        rfl
      · intro e' he' hhas
        simp only [JSONStreamReaderImpl.afterKey, event, Except.ok.injEq] at he'
        rw [← he'] at hhas
        cases hhas

/-- **What the processor held before** does not come out of `next`. -/
theorem nextWithin_withValue (n : ℕ) (r : JSONStreamReaderImpl) (v : Option Str) :
    SameUpToValue (nextWithin own n r) (nextWithin own n (r.withValue v)) := by
  induction n generalizing r v with
  | zero => exact SameUpToValue.error .emptyStack r v
  | succ n ih =>
    rw [nextWithin, nextWithin]
    have hturn := turn_withValue own r v
    revert hturn
    generalize turn own r = t
    generalize turn own (r.withValue v) = t'
    intro hturn
    cases hturn with
    | ends h => exact h
    | again r v => exact ih r v
    | key r v =>
      simp only
      have heod : (r.withValue v).fields.eod = r.fields.eod := rfl
      rw [heod]
      split
      · exact (SameUpToValue.afterKey ⟨rfl, ⟨v, rfl⟩, fun e he hhas => by cases he; cases hhas⟩)
      · exact (ih { r with fields := { r.fields with nullValue := false } } v).afterKey

variable (own) in
theorem next_sameUpToValue (r : JSONStreamReaderImpl) (v : Option Str) :
    SameUpToValue (next own r) (next own (r.withValue v)) := by
  rw [next, next]
  have heod : (r.withValue v).fields.eod = r.fields.eod := rfl
  rw [heod]
  split
  · refine ⟨rfl, ⟨v, rfl⟩, ?_⟩
    intro e he hhas
    cases he
    cases hhas
  · exact nextWithin_withValue _ { r with fields := { r.fields with nullValue := false } } v

end JSONStreamReaderImpl

/-! ## A reader alone -/

/-- What the constructor and `n` calls of `next()` give when there is one reader, and the
reader after them, if the constructor returned. -/
def alone (input : List Code) : ℕ → List Output × Option JSONStreamReaderImpl
  | 0 =>
    let out := Readers.new.processor.init (.new input)
    ([.constructed out.1], match out.1 with
      | .ok _ => some ⟨out.2, .new⟩
      | .error _ => none)
  | n + 1 =>
    match alone input n with
    | (log, none) => (log, none)
    | (log, some r) =>
      let out := JSONStreamReaderImpl.next id r
      (log ++ [output out], some out.2)

theorem alone_succ {input : List Code} {n : ℕ} {r : JSONStreamReaderImpl}
    (h : (alone input n).2 = some r) : alone input (n + 1)
      = ((alone input n).1 ++ [output (JSONStreamReaderImpl.next id r)],
        some (JSONStreamReaderImpl.next id r).2) := by
  rw [alone]
  cases hx : alone input n with
  | mk log r' =>
    rw [hx] at h
    simp only at h
    rw [h]

/-- The constructor does not depend on what the processor did before. -/
theorem init_fst (p p' : Processor) (scanner : JSONScanner) :
    (p.init scanner).1 = (p'.init scanner).1 := by
  simp only [Processor.init, Processor.advance]
  cases scanner.nextSymbol with
  | mk res s => cases res <;> rfl

theorem init_snd {p p' : Processor} {scanner : JSONScanner} (h : (p.init scanner).1 = .ok ()) :
    ∃ v, (p.init scanner).2 = { (p'.init scanner).2 with value := v } := by
  simp only [Processor.init, Processor.advance] at h ⊢
  cases hscan : scanner.nextSymbol with
  | mk res s =>
    cases res with
    | error e => simp [hscan] at h
    | ok symbol => exact ⟨p.value, rfl⟩

namespace Readers

variable {w : Readers} {i j : ℕ}

/-! ## Runs -/

theorem processor_withProcessor (h : w.scanner < w.scanners.length) (p : Processor) :
    (w.withProcessor p).processor = p := by
  simp [processor, withProcessor, scannerOf, h]

/-- The calls of `next()` on a reader. -/
def calls (w : Readers) (i : ℕ) : ℕ := (w.outputs i).length - 1

/-- A reader gave what it gives alone, and can go on as it can alone: its fields are the
same, and the processor is, if it is the last reader that was constructed. -/
def AsAlone (w : Readers) (i : ℕ) (input : List Code) : Prop :=
  w.outputs i = (alone input (w.calls i)).1 ∧
    match (alone input (w.calls i)).2 with
    | none => w.readers[i]? = some none
    | some r => w.readers[i]? = some (some r.fields) ∧
        (i = w.scanner → ∃ v, w.processor = { r.processor with value := v })

/-- What holds of all readers in a run. -/
structure Inv (w : Readers) : Prop where
  readers : w.readers.length = w.inputs.length
  scanners : w.scanners.length = w.inputs.length
  scanner : w.inputs ≠ [] → w.scanner < w.inputs.length
  quiet : ∀ i, w.inputs.length ≤ i → w.outputs i = []
  alone : ∀ i input, w.inputs[i]? = some input → w.AsAlone i input

theorem inv_new : Inv new where
  readers := rfl
  scanners := rfl
  scanner h := (h rfl).elim
  quiet _ _ := rfl
  alone i input h := by simp [new] at h

theorem Inv.construct (h : Inv w) (input : List Code) : Inv (w.construct input) := by
  have hout : ∀ j, j ≠ w.inputs.length → (w.construct input).outputs j = w.outputs j := by
    intro j hj
    simp [Readers.construct, outputs, withProcessor, hj.symm]
  have hself : (w.construct input).outputs w.inputs.length
      = [.constructed (w.processor.init (.new input)).1] := by
    have hquiet := h.quiet w.inputs.length (Nat.le_refl _)
    simp only [outputs] at hquiet
    simp [Readers.construct, outputs, withProcessor, hquiet]
  have hreaders : (w.construct input).readers
      = w.readers ++ [match (w.processor.init (.new input)).1 with
        | .ok _ => some .new
        | .error _ => none] := rfl
  have hprocessor : (w.construct input).processor = (w.processor.init (.new input)).2 := by
    have hlast : w.inputs.length < (w.scanners ++ [JSONScanner.new input]).length := by
      simp [h.scanners]
    exact processor_withProcessor (w := { w with
      scanner := w.inputs.length, scanners := w.scanners ++ [.new input] }) hlast _
  refine ⟨?_, ?_, ?_, ?_, ?_⟩
  · simp [Readers.construct, withProcessor, h.readers]
  · simp [Readers.construct, withProcessor, h.scanners]
  · intro _
    simp [Readers.construct, withProcessor]
  · intro j hj
    simp only [Readers.construct, withProcessor, List.length_append, List.length_singleton] at hj
    rw [hout j (by omega)]
    exact h.quiet j (by omega)
  · intro j x hx
    have hinputs : (w.construct input).inputs = w.inputs ++ [input] := rfl
    rw [hinputs] at hx
    by_cases hj : j = w.inputs.length
    · -- the reader that is constructed
      rw [hj, List.getElem?_append_right (Nat.le_refl _), Nat.sub_self] at hx
      simp only [List.getElem?_cons_zero, Option.some.injEq] at hx
      have hnone : (w.construct input).calls j = 0 := by rw [calls, hj, hself]; rfl
      have hfst := init_fst w.processor new.processor (.new input)
      rw [AsAlone, hnone, hj, hself, ← hx, hprocessor, hreaders, ← h.readers]
      simp only [Json.alone, ← hfst]
      refine ⟨trivial, ?_⟩
      cases hinit : (w.processor.init (.new input)).1 with
      | error e => simp
      | ok u =>
        simp only [List.getElem?_append_right (Nat.le_refl _), Nat.sub_self,
          List.getElem?_cons_zero, true_and]
        intro _
        exact init_snd hinit
    · -- the others keep what they gave
      have hlt : j < w.inputs.length := by
        have := (List.getElem?_eq_some_iff.1 hx).1
        simp only [List.length_append, List.length_singleton] at this
        omega
      rw [List.getElem?_append_left hlt] at hx
      have hcalls : (w.construct input).calls j = w.calls j := by rw [calls, hout j hj, calls]
      obtain ⟨houtputs, hstate⟩ := h.alone j x hx
      rw [AsAlone, hcalls, hout j hj, hreaders,
        List.getElem?_append_left (by rw [h.readers]; exact hlt)]
      refine ⟨houtputs, ?_⟩
      cases halone : (Json.alone x (w.calls j)).2 with
      | none => simpa [halone] using hstate
      | some r =>
        rw [halone] at hstate
        refine ⟨hstate.1, ?_⟩
        intro hscanner
        exact absurd hscanner hj

theorem alone_ne_nil (input : List Code) (n : ℕ) : (Json.alone input n).1 ≠ [] := by
  induction n with
  | zero => simp [Json.alone]
  | succ n ih =>
    rw [Json.alone]
    cases hx : Json.alone input n with
    | mk log r =>
      rw [hx] at ih
      cases r with
      | none => exact ih
      | some r => simp

/-- A call on a reader that is on its own. -/
theorem next_onItsOwn (hown : w.OnItsOwn i) {r : JSONStreamReaderImpl}
    (hreader : w.readers[i]? = some (some r.fields))
    (hprocessor : i = w.scanner → ∃ v, w.processor = { r.processor with value := v }) :
    output (JSONStreamReaderImpl.next (w.own i) ⟨w.processor, r.fields⟩)
        = output (JSONStreamReaderImpl.next id r) ∧
      (JSONStreamReaderImpl.next (w.own i) ⟨w.processor, r.fields⟩).2.fields
        = (JSONStreamReaderImpl.next id r).2.fields ∧
      (if i = w.scanner then
        ∃ v, (JSONStreamReaderImpl.next (w.own i) ⟨w.processor, r.fields⟩).2.processor
          = { (JSONStreamReaderImpl.next id r).2.processor with value := v }
      else (JSONStreamReaderImpl.next (w.own i) ⟨w.processor, r.fields⟩).2.processor
        = w.processor) := by
  by_cases hlast : i = w.scanner
  · -- its scanner is the one of the processor
    have hownid : w.own i = id := by
      funext s
      rw [own, if_pos hlast]
      rfl
    obtain ⟨v, hv⟩ := hprocessor hlast
    have hsame := JSONStreamReaderImpl.next_sameUpToValue id r v
    have hstart : r.withValue v = ⟨w.processor, r.fields⟩ := by rw [hv]; rfl
    rw [hstart] at hsame
    rw [hownid, if_pos hlast]
    refine ⟨hsame.output_eq, ?_, ?_⟩
    · obtain ⟨v', hv'⟩ := hsame.2.1
      rw [hv']
      rfl
    · obtain ⟨v', hv'⟩ := hsame.2.1
      exact ⟨v', by rw [hv']; rfl⟩
  · rw [if_neg hlast]
    rcases hown with hscanner | ⟨fields, hfields, heod⟩
    · exact absurd hscanner hlast
    · -- it does not ask the processor
      rw [hreader] at hfields
      cases hfields
      rw [JSONStreamReaderImpl.next, JSONStreamReaderImpl.next, if_pos heod, if_pos heod]
      exact ⟨rfl, rfl, rfl⟩

theorem Inv.next (h : Inv w) (i : ℕ) (hown : w.OnItsOwn i) : Inv (w.next i) := by
  cases hreader : w.readers[i]? with
  | none => simpa [Readers.next, hreader] using h
  | some reader =>
  cases reader with
  | none => simpa [Readers.next, hreader] using h
  | some fields =>
  have hlt : i < w.inputs.length := by
    rw [← h.readers]
    exact (List.getElem?_eq_some_iff.1 hreader).1
  have hnonempty : w.inputs ≠ [] := by
    intro hnil
    simp [hnil] at hlt
  have hscanner : w.scanner < w.scanners.length := by
    rw [h.scanners]
    exact h.scanner hnonempty
  -- the reader as it is alone
  obtain ⟨houtputs, hstate⟩ := h.alone i _ (List.getElem?_eq_getElem hlt)
  cases halone : (Json.alone (w.inputs[i]) (w.calls i)).2 with
  | none =>
    rw [halone, hreader] at hstate
    cases hstate
  | some r =>
  rw [halone, hreader] at hstate
  obtain ⟨hfields, hprocessor⟩ := hstate
  cases hfields
  have hcall := next_onItsOwn hown hreader hprocessor
  have hnext : w.next i =
      { w.withProcessor (JSONStreamReaderImpl.next (w.own i) ⟨w.processor, r.fields⟩).2.processor
        with
        readers := w.readers.set i
          (some (JSONStreamReaderImpl.next (w.own i) ⟨w.processor, r.fields⟩).2.fields)
        log := w.log ++
          [(i, output (JSONStreamReaderImpl.next (w.own i) ⟨w.processor, r.fields⟩))] } := by
    simp only [Readers.next, hreader]
  generalize JSONStreamReaderImpl.next (w.own i) ⟨w.processor, r.fields⟩ = out at hcall hnext
  obtain ⟨houtput, hfields, hproc⟩ := hcall
  have hself : (w.next i).outputs i = w.outputs i ++ [output out] := by
    simp [hnext, outputs, withProcessor]
  have hother : ∀ j, j ≠ i → (w.next i).outputs j = w.outputs j := by
    intro j hj
    simp [hnext, outputs, withProcessor, hj.symm]
  have hprocessor' : (w.next i).processor = out.2.processor := by
    rw [hnext]
    exact processor_withProcessor hscanner _
  have hsame : (w.next i).scanner = w.scanner := by rw [hnext]; rfl
  have hinputs : (w.next i).inputs = w.inputs := by rw [hnext]; rfl
  refine ⟨?_, ?_, ?_, ?_, ?_⟩
  · simp [hnext, withProcessor, h.readers]
  · simp [hnext, withProcessor, h.scanners]
  · intro _
    rw [hsame, hinputs]
    exact h.scanner hnonempty
  · intro j hj
    rw [hinputs] at hj
    rw [hother j (by omega)]
    exact h.quiet j hj
  · intro j x hx
    rw [hinputs] at hx
    by_cases hj : j = i
    · rw [hj] at hx ⊢
      have hxi : w.inputs[i] = x := by
        rw [List.getElem?_eq_getElem hlt] at hx
        exact Option.some.inj hx
      rw [hxi] at houtputs halone
      have hcalls : (w.next i).calls i = w.calls i + 1 := by
        have hne := alone_ne_nil x (w.calls i)
        rw [← houtputs] at hne
        have hpos := List.length_pos_iff.2 hne
        rw [calls, calls, hself, List.length_append, List.length_singleton]
        omega
      rw [AsAlone, hcalls, alone_succ halone, hself, houtputs, houtput]
      refine ⟨rfl, ?_, ?_⟩
      · have hset : (w.next i).readers = w.readers.set i (some out.2.fields) := by rw [hnext]
        rw [hset, List.getElem?_set_self (by rw [h.readers]; exact hlt), hfields]
      · intro hlast
        rw [hsame] at hlast
        rw [if_pos hlast] at hproc
        rw [hprocessor']
        exact hproc
    · -- another reader, which was not the last one if this one asked the processor
      have hcalls : (w.next i).calls j = w.calls j := by rw [calls, hother j hj, calls]
      have hset : (w.next i).readers[j]? = w.readers[j]? := by
        rw [hnext]
        exact List.getElem?_set_ne (Ne.symm hj)
      obtain ⟨houtputs', hstate'⟩ := h.alone j x hx
      rw [AsAlone, hcalls, hother j hj, hset, hsame, hprocessor']
      refine ⟨houtputs', ?_⟩
      cases halone' : (Json.alone x (w.calls j)).2 with
      | none => simpa [halone'] using hstate'
      | some r' =>
        rw [halone'] at hstate'
        refine ⟨hstate'.1, ?_⟩
        intro hlast
        rw [if_neg (by omega)] at hproc
        rw [hproc]
        exact hstate'.2 hlast

/-- **The readers are as alone** when each call is on a reader that is on its own. -/
theorem run_inv (as : List Action) (h : Along step ActionOk new as) :
    ∃ w, run step new as = .ok w ∧ Inv w := by
  refine run_invariant Inv ?_ inv_new h
  intro w a hw ha
  cases a with
  | construct input => exact ⟨w.construct input, rfl, hw.construct input⟩
  | next i => exact ⟨w.next i, rfl, hw.next i ha⟩

/-! ## The run of one reader -/

/-- The constructor of a reader throws, or each call adds an output. -/
theorem alone_cases (input : List Code) (n : ℕ) :
    ((Json.alone input 0).2 = none → Json.alone input n = Json.alone input 0) ∧
      ((Json.alone input 0).2 ≠ none →
        (Json.alone input n).1.length = n + 1 ∧ (Json.alone input n).2 ≠ none) := by
  induction n with
  | zero => exact ⟨fun _ => rfl, fun h => ⟨rfl, h⟩⟩
  | succ n ih =>
    constructor
    · intro hnone
      have hsame := ih.1 hnone
      rw [← hsame] at hnone ⊢
      conv_lhs => rw [Json.alone]
      cases hx : Json.alone input n with
      | mk log r =>
        rw [hx] at hnone
        simp only at hnone
        rw [hnone]
    · intro hsome
      obtain ⟨hlength, hreader⟩ := ih.2 hsome
      obtain ⟨r, hr⟩ := Option.ne_none_iff_exists'.1 hreader
      rw [alone_succ hr]
      exact ⟨by simp [hlength], by simp⟩

theorem outputs_next {fields : ReaderFields} (h : w.readers[i]? = some (some fields)) :
    ∃ o, (w.next i).outputs i = w.outputs i ++ [o] := by
  simp only [Readers.next, h, outputs, withProcessor, List.filter_append, List.map_append]
  exact ⟨_, by simp; rfl⟩

/-- `alone` is the run of one reader. -/
theorem run_alone (input : List Code) (n : ℕ) :
    ∃ w, run step new (.construct input :: List.replicate n (.next 0)) = .ok w ∧
      Inv w ∧ w.inputs = [input] ∧ w.scanner = 0 ∧ w.outputs 0 = (Json.alone input n).1 := by
  induction n with
  | zero => exact ⟨new.construct input, rfl, inv_new.construct input, rfl, rfl, rfl⟩
  | succ n ih =>
    obtain ⟨w, hrun, hw, hinputs, hscanner, houtputs⟩ := ih
    have hstep : run step new (.construct input :: List.replicate (n + 1) (.next 0))
        = .ok (w.next 0) := by
      rw [List.replicate_succ', ← List.cons_append, run_append_ok hrun, run_singleton]
      rfl
    have hw' := hw.next 0 (.inl hscanner.symm)
    have halone := hw.alone 0 input (by rw [hinputs]; rfl)
    by_cases hnone : (Json.alone input 0).2 = none
    · -- there is no reader to call
      have hreader : w.readers[0]? = some none := by
        have hstate := halone.2
        rw [(alone_cases input _).1 hnone, hnone] at hstate
        exact hstate
      have hnext : w.next 0 = w := by simp [Readers.next, hreader]
      rw [hnext] at hstep
      refine ⟨w, hstep, hw, hinputs, hscanner, ?_⟩
      rw [houtputs, (alone_cases input n).1 hnone, (alone_cases input (n + 1)).1 hnone]
    · obtain ⟨r, hr⟩ := Option.ne_none_iff_exists'.1 ((alone_cases input (w.calls 0)).2 hnone).2
      have hstate := halone.2
      rw [hr] at hstate
      obtain ⟨o, ho⟩ := outputs_next hstate.1
      have hnext : (w.next 0).inputs = w.inputs ∧ (w.next 0).scanner = w.scanner := by
        simp only [Readers.next, hstate.1]
        exact ⟨rfl, rfl⟩
      refine ⟨w.next 0, hstep, hw', hnext.1.trans hinputs, hnext.2.trans hscanner, ?_⟩
      have hcalls : (w.next 0).calls 0 = n + 1 := by
        rw [calls, ho, houtputs, List.length_append, ((alone_cases input n).2 hnone).1]
        rfl
      rw [← hcalls]
      exact (hw'.alone 0 input (by rw [hnext.1, hinputs]; rfl)).1

end Readers

end JavaFx.Json
