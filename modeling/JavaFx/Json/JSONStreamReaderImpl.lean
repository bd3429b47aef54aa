/-
`com.oracle.javafx.jmx.json.impl.JSONScanner`: characters to symbols.

A string is a list of UTF-16 code units, and the reader is the list of those it still
holds; a read at its end gives nothing, which is the `-1` of the source. A method gives
its result or its exception together with the scanner after it, because a caller can go
on after an exception. The loops recurse over what the reader holds.
-/
import JavaFx.Lib.Utf16

set_option autoImplicit false

namespace JavaFx.Json

open JavaFx.Lib

/-! ## Characters -/

def isDigit (c : Code) : Bool := ch '0' ≤ c && c ≤ ch '9'

def isSpace (c : Code) : Bool :=
  c == 0x20 || c == 0x09 || c == 0x0c || c == 0x0a || c == 0x0d

/-- The value of a hexadecimal digit. -/
def hexValue (c : Code) : Option ℕ :=
  if isDigit c then some (c.val - (ch '0').val)
  else if ch 'a' ≤ c && c ≤ ch 'f' then some (c.val - (ch 'a').val + 10)
  else if ch 'A' ≤ c && c ≤ ch 'F' then some (c.val - (ch 'A').val + 10)
  else none

/-! ## Symbols and exceptions -/

/-- `JSONSymbol`: the nonterminals of the grammar, its terminals, and a marker for the end
of each nonterminal. -/
inductive JSONSymbol
  | X | O | O1 | O3 | OV | A | A1 | A2 | V | VA
  | CURLYOPEN | CURLYCLOSE | COLON | COMMA | SQUAREOPEN | SQUARECLOSE | KEYWORD | STRING
  | NUMBER | EOS
  | X_ | O_ | O1_ | O3_ | OV_ | A_ | A1_ | A2_ | V_ | VA_
  deriving DecidableEq, Repr

/-- An argument of a message. -/
inductive MessageArg
  | char (c : Code)
  | symbol (s : JSONSymbol)
  deriving DecidableEq, Repr

/-- `JSONException`: the key of its message in the resources, the arguments, and where. -/
structure JSONException where
  message : String
  args : List MessageArg
  line : ℤ
  column : ℤ
  deriving DecidableEq, Repr

/-- `(char) ch`, where `-1` becomes the last character. -/
def toChar (c : Option Code) : MessageArg := .char (c.getD 0xffff)

/-! ## The scanner -/

structure JSONScanner where
  reader : List Code
  value : Option Str
  prevChar : Option Code
  x : ℤ
  y : ℤ
  offset : ℤ
  isInt : Bool
  deriving DecidableEq, Repr

/-- How a method ends. -/
abbrev Scanned (α : Type) := Except JSONException α × JSONScanner

namespace JSONScanner

/-- `new JSONScanner(reader)`. -/
def new (input : List Code) : JSONScanner := ⟨input.tail, none, input.head?, 0, 1, 0, false⟩

/-- `throw new JSONException(...)`. -/
def fail {α : Type} (s : JSONScanner) (message : String) (args : List MessageArg) : Scanned α :=
  (.error ⟨message, args, s.y, s.x⟩, s)

/-- `readChar`. -/
def readChar (s : JSONScanner) : Option Code × JSONScanner :=
  match s.reader with
  | [] => (none, { s with x := s.x + 1, offset := s.offset + 1 })
  | c :: rest =>
    if c = ch '\n' then
      (some c, { s with reader := rest, x := 0, y := s.y + 1, offset := s.offset + 1 })
    else (some c, { s with reader := rest, x := s.x + 1, offset := s.offset + 1 })

/-- The loop over white space. The list is what the reader holds. -/
def skipSpace : List Code → Option Code → JSONScanner → Option Code × JSONScanner
  | [], c, s => if c.any isSpace then s.readChar else (c, s)
  | _ :: rest, c, s =>
    if c.any isSpace then skipSpace rest s.readChar.1 s.readChar.2 else (c, s)

/-- The last statements of a token: its value, and the next character. -/
def finish (s : JSONScanner) (symbol : JSONSymbol) (value : Option Str) : Scanned JSONSymbol :=
  (.ok symbol, { s.readChar.2 with prevChar := s.readChar.1, value := value })

/-! ### Keywords -/

/-- The loop of `readKeyword`, over what is left of the text. -/
def matchKeyword : Str → JSONScanner → Scanned Unit
  | [], s => (.ok (), s)
  | t :: text, s =>
    if s.readChar.1 = some t then matchKeyword text s.readChar.2
    else s.readChar.2.fail "unexpected_char" [toChar s.readChar.1]

/-- `readKeyword`. -/
def readKeyword (s : JSONScanner) (text : Str) : Scanned JSONSymbol :=
  match matchKeyword text.tail s with
  | (.ok _, s) => s.finish .KEYWORD (some text)
  | (.error e, s) => (.error e, s)

/-! ### Strings -/

/-- Where the loop of `readString` stands: between characters, after a backslash, or with
some hexadecimal digits left to read. -/
inductive StringState
  | plain
  | escape
  | unicode (left : ℕ) (code : ℕ)
  deriving DecidableEq, Repr

/-- What an escape stands for. -/
def unescape (c : Code) : Option Code :=
  if c = ch '"' || c = ch '\\' || c = ch '/' then some c
  else if c = ch 'b' then some 0x08
  else if c = ch 'f' then some 0x0c
  else if c = ch 'n' then some 0x0a
  else if c = ch 'r' then some 0x0d
  else if c = ch 't' then some 0x09
  else none

/-- The loop of `readString`, character by character, over what the reader holds. -/
def readString : List Code → JSONScanner → StringState → Str → Scanned Str
  | [], s, state, _ =>
    match state with
    | .plain => s.readChar.2.fail "unexpected_end_of_stream" []
    | _ => s.readChar.2.fail "unexpected_char" [toChar none]
  | c :: rest, s, .plain, val =>
    if c = ch '\\' then readString rest s.readChar.2 .escape val
    else if c = ch '"' then (.ok val, s.readChar.2)
    else if isISOControl c then s.readChar.2.fail "control_character_in_string" []
    else readString rest s.readChar.2 .plain (val ++ [c])
  | c :: rest, s, .escape, val =>
    if c = ch 'u' then readString rest s.readChar.2 (.unicode 4 0) val
    else
      match unescape c with
      | some d => readString rest s.readChar.2 .plain (val ++ [d])
      | none => s.readChar.2.fail "unexpected_char" [.char c]
  | c :: rest, s, .unicode left code, val =>
    match hexValue c with
    | some h =>
      if left ≤ 1 then
        readString rest s.readChar.2 .plain (val ++ [Fin.ofNat 65536 (16 * code + h)])
      else readString rest s.readChar.2 (.unicode (left - 1) (16 * code + h)) val
    | none => s.readChar.2.fail "unexpected_char" [.char c]

/-! ### Numbers -/

/-- `ch = readChar(true); val.append((char) ch);`. -/
def appendChar (s : JSONScanner) (val : Str) : Option Code × Str × JSONScanner :=
  (s.readChar.1, val ++ [s.readChar.1.getD 0xffff], s.readChar.2)

/-- `do { ch = readChar(true); val.append((char) ch); } while (ch >= '0' && ch <= '9')`. -/
def appendDigits : List Code → JSONScanner → Str → Option Code × Str × JSONScanner
  | [], s, val => s.appendChar val
  | c :: rest, s, val =>
    if isDigit c then appendDigits rest s.readChar.2 (val ++ [c]) else s.appendChar val

/-- The current character, the characters so far, and the scanner. -/
abbrev Reading := Option Code × Str × JSONScanner

/-- The sign. -/
def readSign (prefetch : Code) (s : JSONScanner) : Scanned Reading :=
  if prefetch = ch '-' then
    let r := s.appendChar [prefetch]
    if r.1.any isDigit then (.ok r, r.2.2) else r.2.2.fail "unexpected_char" [toChar r.1]
  else (.ok (some prefetch, [prefetch], s), s)

/-- The digits before the point. -/
def readInt (r : Reading) : Reading :=
  let s := { r.2.2 with isInt := true }
  if r.1 = some (ch '0') then s.appendChar r.2.1 else appendDigits s.reader s r.2.1

/-- The digits after the point. -/
def readFrac (r : Reading) : Scanned Reading :=
  if r.1 = some (ch '.') then
    let s := { r.2.2 with isInt := false }
    let r' := appendDigits s.reader s r.2.1
    -- the first character was no digit
    if r'.2.1.length = r.2.1.length + 1 then
      r'.2.2.fail "unexpected_char" [toChar r'.1]
    else (.ok r', r'.2.2)
  else (.ok r, r.2.2)

/-- The sign of the exponent. -/
def readExpSign (r : Reading) : Reading :=
  if r.1 = some (ch '+') ∨ r.1 = some (ch '-') then r.2.2.appendChar r.2.1 else r

/-- The exponent. -/
def readExp (r : Reading) : Scanned Reading :=
  if r.1 = some (ch 'e') ∨ r.1 = some (ch 'E') then
    let s := { r.2.2 with isInt := false }
    let r' := readExpSign (s.appendChar r.2.1)
    if r'.1.any isDigit then
      let r'' := appendDigits r'.2.2.reader r'.2.2 r'.2.1
      (.ok r'', r''.2.2)
    else r'.2.2.fail "unexpected_char" [toChar r'.1]
  else (.ok r, r.2.2)

/-- `readNumber`. The last character read does not belong to the number. -/
def readNumber (prefetch : Code) (s : JSONScanner) : Scanned JSONSymbol :=
  match readSign prefetch s with
  | (.error e, s) => (.error e, s)
  | (.ok r, _) =>
    match readFrac (readInt r) with
    | (.error e, s) => (.error e, s)
    | (.ok r, _) =>
      match readExp r with
      | (.error e, s) => (.error e, s)
      | (.ok r, _) =>
        (.ok .NUMBER, { r.2.2 with prevChar := r.1, value := some r.2.1.dropLast })

/-! ### Tokens -/

/-- The symbol of a token of one character. -/
def punctuation (c : Code) : Option JSONSymbol :=
  if c = ch '{' then some .CURLYOPEN
  else if c = ch '}' then some .CURLYCLOSE
  else if c = ch '[' then some .SQUAREOPEN
  else if c = ch ']' then some .SQUARECLOSE
  else if c = ch ':' then some .COLON
  else if c = ch ',' then some .COMMA
  else none

/-- The `switch` of `nextSymbol`. -/
def scanFrom (c : Option Code) (s : JSONScanner) : Scanned JSONSymbol :=
  match c with
  | none => (.ok .EOS, { s with prevChar := none })
  | some c =>
    match punctuation c with
    | some symbol => s.finish symbol none
    | none =>
      if c = ch 't' then s.readKeyword (lit "true")
      else if c = ch 'f' then s.readKeyword (lit "false")
      else if c = ch 'n' then s.readKeyword (lit "null")
      else if c = ch '"' then
        match readString s.reader s .plain [] with
        | (.ok val, s) => s.finish .STRING (some val)
        | (.error e, s) => (.error e, s)
      else if c = ch '-' ∨ isDigit c then readNumber c s
      else s.fail "unexpected_char" [.char c]

/-- `nextSymbol`. -/
def nextSymbol (s : JSONScanner) : Scanned JSONSymbol :=
  let r := skipSpace s.reader s.prevChar s
  scanFrom r.1 { r.2 with value := none }

end JSONScanner

end JavaFx.Json

/-!
`JSONSymbol`, the grammar and its processor, and `JSONStreamReaderImpl` over it.

The processor keeps its stack, the terminal that comes next, the scanner and the value of
the last terminal in static fields, so there is one of each for all readers. A reader has
a scanner of its own as well, which it asks for `isInteger` and for the place of an error.
In `next` the argument `own` gives that scanner, from the one of the processor: it is the
same one when no other reader was constructed since.
-/

namespace JavaFx.Json

open JavaFx.Lib

/-! ## The grammar -/

namespace JSONSymbol

/-- The transitions of a nonterminal. -/
def transitions : JSONSymbol → JSONSymbol → Option (List JSONSymbol)
  | .X, .CURLYOPEN => some [.O]
  | .X, .SQUAREOPEN => some [.A]
  | .O, .CURLYOPEN => some [.CURLYOPEN, .O1, .CURLYCLOSE]
  | .O1, .CURLYCLOSE => some []
  | .O1, .STRING => some [.OV, .O3]
  | .O3, .CURLYCLOSE => some []
  | .O3, .COMMA => some [.COMMA, .OV, .O3]
  | .OV, .STRING => some [.STRING, .COLON, .V]
  | .A, .SQUAREOPEN => some [.SQUAREOPEN, .A1, .SQUARECLOSE]
  | .A1, .CURLYOPEN => some [.VA, .A2]
  | .A1, .SQUAREOPEN => some [.VA, .A2]
  | .A1, .SQUARECLOSE => some []
  | .A1, .KEYWORD => some [.VA, .A2]
  | .A1, .STRING => some [.VA, .A2]
  | .A1, .NUMBER => some [.VA, .A2]
  | .A2, .COMMA => some [.COMMA, .VA, .A2]
  | .A2, .SQUARECLOSE => some []
  | .VA, .CURLYOPEN => some [.V]
  | .VA, .SQUAREOPEN => some [.V]
  | .VA, .STRING => some [.V]
  | .VA, .NUMBER => some [.V]
  | .VA, .KEYWORD => some [.V]
  | .V, .CURLYOPEN => some [.O]
  | .V, .SQUAREOPEN => some [.A]
  | .V, .KEYWORD => some [.KEYWORD]
  | .V, .STRING => some [.STRING]
  | .V, .NUMBER => some [.NUMBER]
  | _, _ => none

/-- The marker of a nonterminal, which a terminal or a marker has not. -/
def markerSymbol : JSONSymbol → Option JSONSymbol
  | .X => some .X_
  | .O => some .O_
  | .O1 => some .O1_
  | .O3 => some .O3_
  | .OV => some .OV_
  | .A => some .A_
  | .A1 => some .A1_
  | .A2 => some .A2_
  | .V => some .V_
  | .VA => some .VA_
  | _ => none

def isMarker : JSONSymbol → Bool
  | .X_ | .O_ | .O1_ | .O3_ | .OV_ | .A_ | .A1_ | .A2_ | .V_ | .VA_ => true
  | _ => false

end JSONSymbol

/-- The exceptions of a reader. -/
inductive ReadError
  | json (e : JSONException)
  | emptyStack
  deriving DecidableEq, Repr

/-- The static fields of `JSONSymbol`, with the state of the scanner. -/
structure Processor where
  stack : List JSONSymbol
  terminal : Option JSONSymbol
  value : Option Str
  scanner : JSONScanner
  deriving DecidableEq, Repr

namespace Processor

/-- How a method of the processor ends. -/
abbrev Ends (α : Type) := Except ReadError α × Processor

/-- `terminal = scanner.nextSymbol()`. -/
def advance (p : Processor) : Ends Unit :=
  match p.scanner.nextSymbol with
  | (.ok symbol, scanner) => (.ok (), { p with terminal := some symbol, scanner := scanner })
  | (.error e, scanner) => (.error (.json e), { p with scanner := scanner })

/-- `init`. -/
def init (p : Processor) (scanner : JSONScanner) : Ends Unit :=
  advance { p with scanner := scanner, stack := [.X] }

def unexpected {α : Type} (p : Processor) (message : String) (symbols : List JSONSymbol) :
    Ends α :=
  (.error (.json ⟨message, symbols.map .symbol, p.scanner.y, p.scanner.x⟩), p)

/-- `next`: the symbol it took from the stack. -/
def next (p : Processor) : Ends JSONSymbol :=
  match p.stack with
  | [] => (.error .emptyStack, p)
  | current :: stack =>
    let p := { p with stack := stack }
    if current.isMarker then (.ok current, p)
    else
      match current.markerSymbol with
      | none =>
        -- a terminal
        if p.terminal = some current then
          match advance { p with value := p.scanner.value } with
          | (.ok _, p) => (.ok current, p)
          | (.error e, p) => (.error e, p)
        else p.unexpected "expected_but_found" (current :: p.terminal.toList)
      | some marker =>
        match p.terminal.bind current.transitions with
        | none => p.unexpected "unexpected_terminal" (p.terminal.toList ++ [current])
        | some target => (.ok current, { p with stack := target ++ marker :: stack })

end Processor

/-! ## The reader -/

inductive EventType
  | ERROR | START_OBJECT | END_OBJECT | STRING | START_DOCUMENT | END_DOCUMENT
  | START_ARRAY | START_ARRAY_ELEMENT | END_ARRAY_ELEMENT | END_ARRAY
  | NUMBER | INTEGER | TRUE | FALSE | NULL | START_VALUE | END_VALUE
  deriving DecidableEq, Repr

/-- The fields of `JSONStreamReaderImpl`, less its scanner and what `build` keeps. -/
structure ReaderFields where
  currentSymbol : JSONSymbol
  currentEvent : Option EventType
  nullValue : Bool
  key : Option Str
  stack : List (Option Str)
  eod : Bool
  depth : ℤ
  deriving DecidableEq, Repr

def ReaderFields.new : ReaderFields := ⟨.EOS, none, false, none, [], false, 0⟩

/-- A reader at work: the processor and its own fields. -/
structure JSONStreamReaderImpl where
  processor : Processor
  fields : ReaderFields
  deriving DecidableEq, Repr

namespace JSONStreamReaderImpl

/-- How a method of a reader ends. -/
abbrev Ends (α : Type) := Except ReadError α × JSONStreamReaderImpl

/-- `return currentEvent = event`. -/
def event (r : JSONStreamReaderImpl) (e : EventType) : Ends EventType :=
  (.ok e, { r with fields := { r.fields with currentEvent := some e } })

/-- What the `switch` of `next` does with a symbol. -/
inductive Turn
  /-- The method ends. -/
  | ends (out : Ends EventType)
  /-- The loop goes on. -/
  | again (r : JSONStreamReaderImpl)
  /-- The start of an object value, which reads the key first. -/
  | key (r : JSONStreamReaderImpl)

/-- The event of a keyword. -/
def keywordEvent (value : Option Str) : Option EventType :=
  if value = some (lit "true") then some .TRUE
  else if value = some (lit "false") then some .FALSE
  else if value = some (lit "null") then some .NULL
  else none

/-- The `switch` of `next`. -/
def onSymbol (own : JSONScanner → JSONScanner) (r : JSONStreamReaderImpl) : JSONSymbol → Turn
  | .O => .ends (event { r with fields := { r.fields with
      key := none, depth := r.fields.depth + 1 } } .START_OBJECT)
  | .O_ => .ends (event { r with fields := { r.fields with
      key := none, depth := r.fields.depth - 1 } } .END_OBJECT)
  | .OV => .key r
  | .OV_ =>
    match r.fields.stack with
    | [] => .ends (.error .emptyStack, r)
    | key :: stack => .ends (event { r with fields := { r.fields with
        key := key, stack := stack, nullValue := true } } .END_VALUE)
  | .X => .ends (event { r with fields := { r.fields with
      depth := -1, stack := [] } } .START_DOCUMENT)
  | .X_ => .ends (event { r with fields := { r.fields with
      eod := true, stack := [], depth := -1 } } .END_DOCUMENT)
  | .EOS =>
    if r.fields.eod then
      .ends (event { r with fields := { r.fields with depth := -1 } } .END_DOCUMENT)
    else
      .ends (.error (.json ⟨"unexpected_end_of_stream", [], (own r.processor.scanner).y,
        (own r.processor.scanner).x⟩), r)
  | .KEYWORD =>
    match keywordEvent r.processor.value with
    | some e => .ends (event { r with fields := { r.fields with nullValue := true } } e)
    | none => .ends (event r .ERROR)
  | .STRING => .ends (event r .STRING)
  | .NUMBER =>
    .ends (event r (if (own r.processor.scanner).isInt then .INTEGER else .NUMBER))
  | .A => .ends (event r .START_ARRAY)
  | .A_ => .ends (event r .END_ARRAY)
  | .VA => .ends (event r .START_ARRAY_ELEMENT)
  | .VA_ => .ends (event { r with fields := { r.fields with nullValue := true } }
      .END_ARRAY_ELEMENT)
  | _ => .again r

/-- One turn of the loop of `next`. -/
def turn (own : JSONScanner → JSONScanner) (r : JSONStreamReaderImpl) : Turn :=
  match r.processor.next with
  | (.error e, p) => .ends (.error e, { r with processor := p })
  | (.ok symbol, p) =>
    onSymbol own ⟨p, { r.fields with currentSymbol := symbol }⟩ symbol

/-- The end of the case of an object value: the result of the inner `next()`. -/
def afterKey : Ends EventType → Ends EventType
  | (.error e, r) => (.error e, r)
  | (.ok e, r) =>
    let key := if e = .STRING then r.processor.value else r.fields.key
    event { r with fields := { r.fields with
      key := key, stack := key :: r.fields.stack, nullValue := true } } .START_VALUE

/-- `next` with at most so many turns of its loops. -/
def nextWithin (own : JSONScanner → JSONScanner) : ℕ → JSONStreamReaderImpl → Ends EventType
  | 0, r => (.error .emptyStack, r)
  | fuel + 1, r =>
    match turn own r with
    | .ends out => out
    | .again r => nextWithin own fuel r
    | .key r =>
      if r.fields.eod then afterKey (event r .END_DOCUMENT)
      else afterKey (nextWithin own fuel
        { r with fields := { r.fields with nullValue := false } })

/-! ## A bound for the turns -/

end JSONStreamReaderImpl

/-- What the scanner has still to give. -/
def JSONScanner.pending (s : JSONScanner) : ℕ :=
  s.reader.length + if s.prevChar.isSome then 1 else 0

namespace JSONSymbol

/-- What a symbol on the stack counts: more than all it is replaced by, up to a terminal
that is next in the input. -/
def weight : JSONSymbol → ℕ
  | .O | .A | .OV | .O3 | .A2 => 2
  | .X | .V => 4
  | .VA | .O1 => 6
  | .A1 => 10
  | _ => 1

def weights (stack : List JSONSymbol) : ℕ := (stack.map weight).sum

end JSONSymbol

namespace Processor

/-- The terminal that comes next is on top of the stack. -/
def matching (p : Processor) : Bool :=
  match p.stack with
  | [] => false
  | s :: _ => p.terminal == some s && s != .EOS && !s.isMarker && s.markerSymbol.isNone

/-- The symbols that are left to come. -/
def remaining (p : Processor) : ℕ :=
  p.scanner.pending + if p.terminal.any (· != .EOS) then 1 else 0

/-- A bound for the turns of the loop. -/
def turns (p : Processor) : ℕ :=
  13 * p.remaining + JSONSymbol.weights p.stack - if p.matching then 12 else 0

end Processor

namespace JSONStreamReaderImpl

/-- The loop of `next`. -/
def loop (own : JSONScanner → JSONScanner) (r : JSONStreamReaderImpl) : Ends EventType :=
  nextWithin own (r.processor.turns + 1) r

/-- `next()`. -/
def next (own : JSONScanner → JSONScanner) (r : JSONStreamReaderImpl) : Ends EventType :=
  if r.fields.eod then event r .END_DOCUMENT
  else loop own { r with fields := { r.fields with nullValue := false } }

/-- `value()`. -/
def value (r : JSONStreamReaderImpl) : Option Str :=
  if r.fields.nullValue then none else r.processor.value

end JSONStreamReaderImpl

end JavaFx.Json
