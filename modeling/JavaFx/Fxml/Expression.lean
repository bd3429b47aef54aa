/-
`com.sun.javafx.fxml.expression.KeyPath`: a key path from text.

A reader with its pushback buffer is the list of the characters that it will give; where
the source holds a character `c` that it has read, the list here still starts with it.
What `java.lang.Character` says about the characters from `U+00A0` on is an argument,
`kinds`.
-/
import JavaFx.Lib.Utf16

set_option autoImplicit false

namespace JavaFx.Fxml

open JavaFx.Lib

/-! ## Characters -/

/-- What `java.lang.Character` knows of a character: a digit can go on with an identifier,
a letter can start one, and an ignorable can go on with one as well. -/
inductive CharKind
  | whitespace
  | digit (value : ℕ)
  | letter
  | ignorable
  | other
  deriving DecidableEq, Repr

/-- The characters up to the last control character. -/
def asciiKind (c : Code) : CharKind :=
  if (9 ≤ c && c ≤ 13) || (28 ≤ c && c ≤ 32) then .whitespace
  else if ch '0' ≤ c && c ≤ ch '9' then .digit (c.val - 48)
  else if (ch 'a' ≤ c && c ≤ ch 'z') || (ch 'A' ≤ c && c ≤ ch 'Z') || c == ch '$' || c == ch '_' then
    .letter
  else if c ≤ 8 || (14 ≤ c && c ≤ 27) || 127 ≤ c then .ignorable
  else .other

variable (kinds : Code → CharKind)

def kind (c : Code) : CharKind := if c < 160 then asciiKind c else kinds c

def isWhitespace (c : Code) : Bool := kind kinds c == .whitespace

def isDigit (c : Code) : Bool :=
  match kind kinds c with
  | .digit _ => true
  | _ => false

def isJavaIdentifierStart (c : Code) : Bool := kind kinds c == .letter

def isJavaIdentifierPart (c : Code) : Bool :=
  match kind kinds c with
  | .digit _ | .letter | .ignorable => true
  | _ => false

/-- The exceptions of the parser. -/
inductive ParseError
  | illegalArgument (message : String)
  | numberFormat
  | noSuchElement
  | unsupportedOperation
  deriving DecidableEq, Repr

/-! ## `KeyPath.parse` -/

namespace KeyPath

/-- The loop over the characters of an element in brackets. The quote is there as long as
it is open. -/
def readBracketed : Option Code → List Code → Str → Except ParseError (Str × List Code)
  | quote, [], _ =>
    .error (.illegalArgument (if quote.isSome then "Unterminated quoted identifier."
      else "Unterminated bracketed identifier."))
  | quote, c :: cs, key =>
    if isISOControl c then .error (.illegalArgument "Illegal identifier character.")
    else if quote.isNone && !isDigit kinds c then
      .error (.illegalArgument "Illegal character in index value.")
    else
      match cs with
      | [] => readBracketed quote [] (key ++ [c])
      | d :: ds =>
        if quote = some d then
          -- the quote ends, and the character after it counts
          match ds with
          | [] => readBracketed none [] (key ++ [c])
          | e :: es =>
            if e = ch ']' then .ok (key ++ [c], es)
            else readBracketed none (e :: es) (key ++ [c])
        else if d = ch ']' then
          match quote with
          | some _ => .error (.illegalArgument "Unterminated quoted identifier.")
          | none => .ok (key ++ [c], ds)
        else readBracketed quote (d :: ds) (key ++ [c])

/-- The characters of an identifier. -/
def isNamePart (c : Code) : Bool :=
  c != ch '.' && c != ch '[' && isJavaIdentifierPart kinds c

/-- An element: in brackets, or an identifier. -/
def readElement : List Code → Except ParseError (Str × List Code)
  | [] => .ok ([], [])
  | c :: cs =>
    if c = ch '[' then
      match cs with
      | q :: rest =>
        if q = ch '"' || q = 0x27 then readBracketed kinds (some q) rest []
        else readBracketed kinds none cs []
      | [] => readBracketed kinds none [] []
    else
      .ok ((c :: cs).takeWhile (isNamePart kinds), (c :: cs).dropWhile (isNamePart kinds))

/-- The dot after an element. -/
def readDot : List Code → Except ParseError (List Code)
  | [] => .ok []
  | c :: cs =>
    if c = ch '.' then
      if cs = [] then .error (.illegalArgument "Illegal terminator character.") else .ok cs
    else .ok (c :: cs)

/-- The loop over the elements. Each takes a character at least. -/
def readElements : ℕ → List Code → List Str → Except ParseError (List Str × List Code)
  | fuel + 1, c :: cs, elements =>
    if isJavaIdentifierStart kinds c || c = ch '[' then do
      let (key, rest) ← readElement kinds (c :: cs)
      let rest ← readDot rest
      if key = [] then .error (.illegalArgument "Missing identifier.")
      else readElements fuel rest (elements ++ [key])
    else .ok (elements, c :: cs)
  | _, cs, elements => .ok (elements, cs)

/-- `KeyPath.parse(PushbackReader)`: the path, and what the reader has after it. -/
def parse (cs : List Code) : Except ParseError (List Str × List Code) := do
  let (elements, rest) ← readElements kinds cs.length cs []
  if elements = [] then .error (.illegalArgument "Invalid path.") else .ok (elements, rest)

end KeyPath

end JavaFx.Fxml

/-!
`com.sun.javafx.fxml.expression.Expression`: the parser of expressions.

The tokenizer reads the text and puts its tokens in postfix order as it goes, with a stack
of operators; `parse` builds the expression from them. The list of characters starts with
the character `c` of the parser. `pushbackBuffer` stays what it was between two keywords,
as in the source, where a keyword that the text ends in leaves a character of the last one
behind. `Double.parseDouble` is an argument.
-/

namespace JavaFx.Fxml

open JavaFx.Lib

/-! ## Operators and expressions -/

inductive Operator
  | NEGATE | NOT | MULTIPLY | DIVIDE | MODULO | ADD | SUBTRACT
  | GREATER_THAN | GREATER_THAN_OR_EQUAL_TO | LESS_THAN | LESS_THAN_OR_EQUAL_TO
  | EQUAL_TO | NOT_EQUAL_TO | AND | OR
  deriving DecidableEq, Repr

namespace Operator

def getPriority : Operator → ℕ
  | .NEGATE | .NOT => 6
  | .MULTIPLY | .DIVIDE | .MODULO => 5
  | .ADD | .SUBTRACT => 4
  | .GREATER_THAN | .GREATER_THAN_OR_EQUAL_TO | .LESS_THAN | .LESS_THAN_OR_EQUAL_TO => 3
  | .EQUAL_TO | .NOT_EQUAL_TO => 2
  | .AND => 1
  | .OR => 0

def MAX_PRIORITY : ℕ := 6

/-- The operators that a unary expression has. -/
def isUnary : Operator → Bool
  | .NEGATE | .NOT => true
  | _ => false

end Operator

/-- The value of a literal. -/
inductive Literal (D : Type)
  | null
  | boolean (b : Bool)
  | string (s : Str)
  | long (n : ℕ)
  | double (d : D)
  deriving DecidableEq, Repr

/-- An expression, with the operator for the evaluator that the source gives it. -/
inductive Expression (D : Type)
  | LiteralExpression (value : Literal D)
  | VariableExpression (keyPath : List Str)
  | UnaryExpression (operator : Operator) (operand : Expression D)
  | BinaryExpression (operator : Operator) (left right : Expression D)
  deriving DecidableEq, Repr

/-- A token, with its type. No token of the type `FUNCTION` is ever made. -/
inductive Token (D : Type)
  | LITERAL (value : Literal D)
  | VARIABLE (keyPath : List Str)
  | UNARY_OPERATOR (operator : Operator)
  | BINARY_OPERATOR (operator : Operator)
  | BEGIN_GROUP
  | END_GROUP
  deriving DecidableEq, Repr

variable {D : Type} (kinds : Code → CharKind) (parseDouble : Str → Option D)

/-! ## Literals -/

/-- `readKeyword`: what is left of the keyword at index `i`, the pushback buffer, and what
the reader has. A keyword that is not there is pushed back. -/
def readKeyword : Str → ℕ → List Code → List Code → Bool × List Code × List Code
  | [], _, buffer, cs => (true, cs, buffer)
  | _ :: _, i, buffer, [] => (false, buffer.take (i + 1), buffer)
  | k :: keyword, i, buffer, c :: cs =>
    let buffer := buffer.set i c
    if k = c then readKeyword keyword (i + 1) buffer cs
    else (false, buffer.take (i + 1) ++ cs, buffer)

/-- `Character.digit(c, 16)`. -/
def hexDigit (c : Code) : Option ℕ :=
  match kind kinds c with
  | .digit v => some v
  | _ =>
    if ch 'a' ≤ c && c ≤ ch 'f' then some (c.val - 87)
    else if ch 'A' ≤ c && c ≤ ch 'F' then some (c.val - 55)
    else if 0xff41 ≤ c && c ≤ 0xff46 then some (c.val - 0xff41 + 10)
    else if 0xff21 ≤ c && c ≤ 0xff26 then some (c.val - 0xff21 + 10)
    else none

/-- `(char) Integer.parseInt(text, 16)`, of a short text. -/
def parseHex (text : Str) : Except ParseError Code :=
  let negative := text.head? = some (ch '-')
  let digits := if negative || text.head? = some (ch '+') then text.tail else text
  match digits.mapM (hexDigit kinds) with
  | none => .error .numberFormat
  | some ds =>
    if digits = [] then .error .numberFormat
    else
      let n := ofDigits 16 ds
      .ok (Fin.ofNat 65536 (if negative then 65536 - n % 65536 else n))

/-- The characters that stand for another one after a backslash. -/
def escaped (c : Code) : Option Code :=
  if c = ch 'b' then some 8
  else if c = ch 'f' then some 12
  else if c = ch 'n' then some 10
  else if c = ch 'r' then some 13
  else if c = ch 't' then some 9
  else none

/-- The loop of a string that ends with `t`. -/
def readString (t : Code) : List Code → Str → Except ParseError (Str × List Code)
  | [], _ => .error (.illegalArgument "Unterminated string.")
  | c :: cs, val =>
    if c = t then .ok (val, cs)
    else if isISOControl c then readString t cs val
    else if c = ch '\\' then
      match cs with
      | [] => .error (.illegalArgument "Unsupported escape sequence.")
      | e :: cs =>
        match escaped e with
        | some c => readString t cs (val ++ [c])
        | none =>
          if e = ch 'u' then
            match cs with
            | h₁ :: h₂ :: h₃ :: h₄ :: cs =>
              match parseHex kinds [h₁, h₂, h₃, h₄] with
              | .ok c => readString t cs (val ++ [c])
              | .error e => .error e
            -- the end of the text is no digit
            | _ => .error .numberFormat
          else if e = ch '\\' || e = ch '/' || e = ch '"' || e = 0x27 || e = t then
            readString t cs (val ++ [e])
          else .error (.illegalArgument "Unsupported escape sequence.")
    else readString t cs (val ++ [c])

/-- `Character.digit(c, 10)`. -/
def decimalDigit (c : Code) : Option ℕ :=
  match kind kinds c with
  | .digit v => some v
  | _ => none

def LONG_MAX_VALUE : ℕ := 2 ^ 63 - 1

/-- `Long.parseLong`, of a text without a sign. -/
def parseLong (text : Str) : Option ℕ :=
  match text.mapM (decimalDigit kinds) with
  | none => none
  | some ds => if text = [] || LONG_MAX_VALUE < ofDigits 10 ds then none else some (ofDigits 10 ds)

def isNumberPart (c : Code) : Bool :=
  isDigit kinds c || c == ch '.' || c == ch 'e' || c == ch 'E'

/-- A number. -/
def readNumber (cs : List Code) : Except ParseError (Literal D × List Code) :=
  let number := cs.takeWhile (isNumberPart kinds)
  let value :=
    if ch '.' ∈ number then (parseDouble number).map Literal.double
    else (parseLong kinds number).map Literal.long
  match value with
  | some v => .ok (v, cs.dropWhile (isNumberPart kinds))
  | none => .error .numberFormat

/-! ## Tokens -/

/-- An operator or a parenthesis; `unary` says whether an operand is to come. -/
def readOperator (unary : Bool) (c : Code) (cs : List Code) :
    Except ParseError (Token D × List Code) :=
  let unexpected := .error (.illegalArgument "Unexpected character in expression.")
  let followed (d : Code) (operator : Operator) : Except ParseError (Token D × List Code) :=
    match cs with
    | c :: cs => if c = d then .ok (.BINARY_OPERATOR operator, cs) else unexpected
    | [] => unexpected
  let orEqual (equal less : Operator) : Except ParseError (Token D × List Code) :=
    match cs with
    | c :: rest =>
      if c = ch '=' then .ok (.BINARY_OPERATOR equal, rest) else .ok (.BINARY_OPERATOR less, cs)
    | [] => .ok (.BINARY_OPERATOR less, [])
  if unary then
    if c = ch '-' then .ok (.UNARY_OPERATOR .NEGATE, cs)
    else if c = ch '!' then .ok (.UNARY_OPERATOR .NOT, cs)
    else if c = ch '(' then .ok (.BEGIN_GROUP, cs)
    else unexpected
  else
    if c = ch '+' then .ok (.BINARY_OPERATOR .ADD, cs)
    else if c = ch '-' then .ok (.BINARY_OPERATOR .SUBTRACT, cs)
    else if c = ch '*' then .ok (.BINARY_OPERATOR .MULTIPLY, cs)
    else if c = ch '/' then .ok (.BINARY_OPERATOR .DIVIDE, cs)
    else if c = ch '%' then .ok (.BINARY_OPERATOR .MODULO, cs)
    else if c = ch '=' then followed (ch '=') .EQUAL_TO
    else if c = ch '!' then followed (ch '=') .NOT_EQUAL_TO
    else if c = ch '>' then orEqual .GREATER_THAN_OR_EQUAL_TO .GREATER_THAN
    else if c = ch '<' then orEqual .LESS_THAN_OR_EQUAL_TO .LESS_THAN
    else if c = ch '&' then followed (ch '&') .AND
    else if c = ch '|' then followed (ch '|') .OR
    else if c = ch ')' then .ok (.END_GROUP, cs)
    else unexpected

/-- A key path at the front of the reader. -/
def readVariable (cs : List Code) : Except ParseError (Token D × List Code) := do
  let (path, cs) ← KeyPath.parse kinds cs
  .ok (.VARIABLE path, cs)

/-- A keyword, or a key path that starts like it. -/
def readWord (keyword : Str) (value : Literal D) (buffer cs : List Code) :
    Except ParseError (Token D × List Code × List Code) :=
  match readKeyword keyword 0 buffer cs with
  | (true, cs, buffer) => .ok (.LITERAL value, cs, buffer)
  | (false, cs, buffer) => do
      let (token, cs) ← readVariable kinds cs
      .ok (token, cs, buffer)

/-- The token that starts with `c`, what the reader has after it, and the pushback
buffer. -/
def readToken (unary : Bool) (buffer : List Code) (c : Code) (cs : List Code) :
    Except ParseError (Token D × List Code × List Code) :=
  if c = ch 'n' then readWord kinds (lit "null") .null buffer (c :: cs)
  else if c = ch '"' || c = 0x27 then do
    let (s, cs) ← readString kinds c cs []
    .ok (.LITERAL (.string s), cs, buffer)
  else if isDigit kinds c then do
    let (value, cs) ← readNumber kinds parseDouble (c :: cs)
    .ok (.LITERAL value, cs, buffer)
  else if c = ch 't' then readWord kinds (lit "true") (.boolean true) buffer (c :: cs)
  else if c = ch 'f' then readWord kinds (lit "false") (.boolean false) buffer (c :: cs)
  else if isJavaIdentifierStart kinds c then do
    let (token, cs) ← readVariable kinds (c :: cs)
    .ok (token, cs, buffer)
  else do
    let (token, cs) ← readOperator unary c cs
    .ok (token, cs, buffer)

/-! ## Postfix order -/

namespace Token

/-- The operators that go to the output before an operator of the priority. -/
def popOperators (priority : ℕ) : List (Token D) → List (Token D) → List (Token D) × List (Token D)
  | tokens, .UNARY_OPERATOR o :: stack =>
    if priority ≤ o.getPriority && o.getPriority != Operator.MAX_PRIORITY then
      popOperators priority (tokens ++ [.UNARY_OPERATOR o]) stack
    else (tokens, .UNARY_OPERATOR o :: stack)
  | tokens, .BINARY_OPERATOR o :: stack =>
    if priority ≤ o.getPriority && o.getPriority != Operator.MAX_PRIORITY then
      popOperators priority (tokens ++ [.BINARY_OPERATOR o]) stack
    else (tokens, .BINARY_OPERATOR o :: stack)
  | tokens, stack => (tokens, stack)

/-- The operators of the group that ends. -/
def popGroup : List (Token D) → List (Token D) → Except ParseError (List (Token D) × List (Token D))
  | _, [] => .error .noSuchElement
  | tokens, .BEGIN_GROUP :: stack => .ok (tokens, stack)
  | tokens, t :: stack => popGroup (tokens ++ [t]) stack

/-- What is done with a token: the output and the stack of operators. -/
def process (tokens stack : List (Token D)) (token : Token D) :
    Except ParseError (List (Token D) × List (Token D)) :=
  match token with
  | .LITERAL _ | .VARIABLE _ => .ok (tokens ++ [token], stack)
  | .UNARY_OPERATOR o | .BINARY_OPERATOR o =>
    let (tokens, stack) := popOperators o.getPriority tokens stack
    .ok (tokens, token :: stack)
  | .BEGIN_GROUP => .ok (tokens, token :: stack)
  | .END_GROUP => popGroup tokens stack

/-- The tokens after which an operator is binary. -/
def endsOperand : Token D → Bool
  | .LITERAL _ | .VARIABLE _ | .END_GROUP => true
  | _ => false

end Token

/-- The loop of `tokenize`. Each turn takes a character of the text at least, save that a
keyword at the end of the text can leave one more. -/
def tokenizeLoop : ℕ → Bool → List Code → List Code → List (Token D) → List (Token D) →
    Except ParseError (List (Token D))
  | 0, _, _, _, _, _ => .error .unsupportedOperation
  | fuel + 1, unary, buffer, cs, tokens, stack =>
    match cs.dropWhile (isWhitespace kinds) with
    | [] => .ok (tokens ++ stack)
    | c :: cs => do
        let (token, cs, buffer) ← readToken kinds parseDouble unary buffer c cs
        let (tokens, stack) ← Token.process tokens stack token
        tokenizeLoop fuel (!token.endsOperand) buffer cs tokens stack

/-- `tokenize`: the tokens in postfix order. -/
def tokenize (text : Str) : Except ParseError (List (Token D)) :=
  tokenizeLoop kinds parseDouble (text.length + 2) true (List.replicate 6 0) text [] []

/-! ## The expression -/

namespace Expression

/-- One token of the loop of `parse`. -/
def push (stack : List (Expression D)) : Token D → Except ParseError (List (Expression D))
  | .LITERAL value => .ok (.LiteralExpression value :: stack)
  | .VARIABLE keyPath => .ok (.VariableExpression keyPath :: stack)
  | .UNARY_OPERATOR o =>
    match stack with
    | operand :: stack =>
      if o.isUnary then .ok (.UnaryExpression o operand :: stack)
      else .error .unsupportedOperation
    | [] => .error .noSuchElement
  | .BINARY_OPERATOR o =>
    match stack with
    | right :: left :: stack =>
      if o.isUnary then .error .unsupportedOperation
      else .ok (.BinaryExpression o left right :: stack)
    | _ => .error .noSuchElement
  | .BEGIN_GROUP | .END_GROUP => .error .unsupportedOperation

def pushAll : List (Expression D) → List (Token D) → Except ParseError (List (Expression D))
  | stack, [] => .ok stack
  | stack, t :: ts => do pushAll (← push stack t) ts

/-- `Parser.parse`. -/
def parse (text : Str) : Except ParseError (Expression D) := do
  let tokens ← tokenize kinds parseDouble text
  match ← pushAll [] tokens with
  | [expression] => .ok expression
  | _ => .error (.illegalArgument "Invalid expression.")

/-- `Expression.valueOf`. -/
def valueOf (text : Str) : Except ParseError (Expression D) := parse kinds parseDouble text

end Expression

end JavaFx.Fxml
