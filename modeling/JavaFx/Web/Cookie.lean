/-
`com.sun.webkit.network.Cookie`: a cookie, how it is read from a `Set-Cookie` header,
and the domain and path matching.

A string is a list of characters. The tables of the Java platform (letter case, decimal
digits), `DateParser.parse` and the list behind `PublicSuffixes` are a parameter; so is
the clock, of which nothing is known but that it never goes back.
-/
import Mathlib
import JavaFx.Lib.Method
import JavaFx.Lib.PriorityQueue

set_option autoImplicit false

namespace JavaFx.Web

open JavaFx.Lib

abbrev Str := List Char

/-! ## The platform -/

/-- The tables of `java.lang.Character` and `java.lang.String`. -/
structure Characters where
  toUpperCase : Char → Char
  toLowerCase : Char → Char
  /-- `Character.digit(c, 10)`. -/
  digit : Char → Option ℕ
  /-- `String.toLowerCase()`. -/
  lower : Str → Str

namespace Characters

variable (p : Characters)

/-- `c1` and `c2` are one letter to `String.equalsIgnoreCase`. -/
def sameLetter (c1 c2 : Char) : Bool :=
  c1 == c2 || p.toUpperCase c1 == p.toUpperCase c2 ||
    p.toLowerCase (p.toUpperCase c1) == p.toLowerCase (p.toUpperCase c2)

/-- `s1.equalsIgnoreCase(s2)`. -/
def equalsIgnoreCase : Str → Str → Bool
  | [], [] => true
  | c1 :: s1, c2 :: s2 => p.sameLetter c1 c2 && equalsIgnoreCase s1 s2
  | _, _ => false

theorem length_of_equalsIgnoreCase {s1 s2 : Str} (h : p.equalsIgnoreCase s1 s2) :
    s1.length = s2.length := by
  induction s1 generalizing s2 with
  | nil =>
    cases s2 with
    | nil => rfl
    | cons c s => simp [equalsIgnoreCase] at h
  | cons c1 s1 ih =>
    cases s2 with
    | nil => simp [equalsIgnoreCase] at h
    | cons c2 s2 =>
      simp only [equalsIgnoreCase, Bool.and_eq_true] at h
      simp [ih h.2]

/-- `equalsIgnoreCase` of a string that may be `null`. -/
def isWord (word : String) (s : Option Str) : Bool :=
  match s with
  | some s => p.equalsIgnoreCase word.toList s
  | none => false

/-- The value of decimal digits. -/
def digits : ℤ → Str → Option ℤ
  | v, [] => some v
  | v, c :: s =>
    match p.digit c with
    | some d => digits (10 * v + d) s
    | none => none

/-- `Long.parseLong`, and nothing for a `NumberFormatException`. -/
def parseLong (s : Str) : Option ℤ :=
  let v := match s with
    | '-' :: s => if s = [] then none else (p.digits 0 s).map (fun v => -v)
    | '+' :: s => if s = [] then none else p.digits 0 s
    | s => if s = [] then none else p.digits 0 s
  v.filter (fun v => -2 ^ 63 ≤ v ∧ v < 2 ^ 63)

end Characters

/-- An integer as a `long`. -/
def toLong (i : ℤ) : ℤ := i.bmod (2 ^ 64)

/-- An integer as an `int`. -/
def toInt (i : ℤ) : ℤ := i.bmod (2 ^ 32)

/-- `Long.MAX_VALUE`. -/
def maxLong : ℤ := 2 ^ 63 - 1

/-- `s.trim()`. -/
def trim (s : Str) : Str :=
  ((s.dropWhile (· ≤ ' ')).reverse.dropWhile (· ≤ ' ')).reverse

/-- `s.split("=", 2)`. -/
def splitAssignment (s : Str) : Str × Option Str :=
  match s.dropWhile (· ≠ '=') with
  | [] => (s, none)
  | _ :: rest => (s.takeWhile (· ≠ '='), some rest)

/-! ## The cookie -/

/-- `com.sun.webkit.network.ExtendedTime`. -/
structure ExtendedTime where
  baseTime : ℤ
  subtime : ℤ
  deriving DecidableEq, Repr

def ExtendedTime.incrementSubtime (t : ExtendedTime) : ExtendedTime :=
  { t with subtime := toInt (t.subtime + 1) }

def ExtendedTime.compareTo (t other : ExtendedTime) : ℤ :=
  let d := toInt (t.baseTime - other.baseTime)
  if d ≠ 0 then d else toInt (t.subtime - other.subtime)

/-- `com.sun.webkit.network.Cookie`. The path is `null` until a cookie without one gets
the default path. -/
structure Cookie where
  name : Str
  value : Str
  expiryTime : ℤ
  domain : Str
  path : Option Str
  creationTime : ExtendedTime
  lastAccessTime : ℤ
  persistent : Bool
  hostOnly : Bool
  secureOnly : Bool
  httpOnly : Bool
  deriving DecidableEq, Repr

/-- What `Cookie.equals` compares. -/
def Cookie.key (c : Cookie) : Str × Str × Option Str := (c.name, c.domain, c.path)

/-- The parts of `java.net.URI` the code asks for. -/
structure URI where
  scheme : Option Str
  host : Option Str
  path : Option Str
  deriving DecidableEq, Repr

/-! ## Reading a header -/

/-- The values of `parse` that the attributes set. -/
structure Attributes where
  expires : Option ℤ
  maxAge : Option ℤ
  domain : Option Str
  path : Option Str
  secure : Bool
  httpOnly : Bool
  deriving DecidableEq, Repr

/-- What the code takes from outside of the package and of the cookies. -/
structure Platform extends Characters where
  /-- `DateParser.parse`, nothing for a `ParseException`. -/
  parseDate : Str → Option ℤ
  /-- `PublicSuffixes.isPublicSuffix`. -/
  isPublicSuffix : Str → Bool
  /-- What the readings of `System.currentTimeMillis()` give, one after the other. -/
  clock : ℕ → ℤ
  clock_mono : Monotone clock
  /-- `Collections.sort`, which may throw when the comparator breaks its contract. -/
  sort : (Cookie → Cookie → ℤ) → List Cookie → Except Exn (List Cookie)
  sort_perm : ∀ compare l r, sort compare l = .ok r → r.Perm l
  queue : PriorityQueue Cookie

variable (p : Platform)

/-- `parseExpires`. -/
def parseExpires (attributeValue : Str) : Option ℤ :=
  (p.parseDate attributeValue).map (fun date => max date 0)

/-- `parseMaxAge`. -/
def parseMaxAge (attributeValue : Str) (currentTime : ℤ) : Option ℤ :=
  (p.parseLong attributeValue).map fun maxAge =>
    if maxAge ≤ 0 then 0
    else if (toLong (maxLong - currentTime)).tdiv 1000 < maxAge then maxLong
    else toLong (currentTime + maxAge * 1000)

/-- `parseDomain`. -/
def parseDomain (attributeValue : Str) : Option Str :=
  match attributeValue with
  | [] => none
  | '.' :: rest => some (p.lower rest)
  | value => some (p.lower value)

/-- `parsePath`. -/
def parsePath (attributeValue : Str) : Option Str :=
  if ['/'] <+: attributeValue then some attributeValue else none

/-- One turn of the loop over the attributes. An attribute that does not parse is
ignored, but a path that does not start with a slash undoes an earlier one. -/
def parseAttribute (currentTime : ℤ) (a : Attributes) (item : Str) : Attributes :=
  let terms := splitAssignment item
  let attrName := some (trim terms.1)
  let attrValue := trim (terms.2.getD [])
  if p.isWord "Expires" attrName then
    { a with expires := (parseExpires p attrValue).orElse (fun _ => a.expires) }
  else if p.isWord "Max-Age" attrName then
    { a with maxAge := (parseMaxAge p attrValue currentTime).orElse (fun _ => a.maxAge) }
  else if p.isWord "Domain" attrName then
    { a with domain := (parseDomain p attrValue).orElse (fun _ => a.domain) }
  else if p.isWord "Path" attrName then { a with path := parsePath attrValue }
  else if p.isWord "Secure" attrName then { a with secure := true }
  else if p.isWord "HttpOnly" attrName then { a with httpOnly := true }
  else a

/-- `Cookie.parse`, nothing where it returns `null`. -/
def Cookie.parse (setCookieString : Str) (currentTime : ExtendedTime) : Option Cookie :=
  match setCookieString.splitOn ';' with
  | [] => none
  | item :: items =>
    match splitAssignment item with
    | (_, none) => none
    | (name, some value) =>
      if trim name = [] then none
      else
        let a := items.foldl (parseAttribute p currentTime.baseTime)
          ⟨none, none, none, none, false, false⟩
        let expiry := a.maxAge.orElse (fun _ => a.expires)
        some {
          name := trim name
          value := trim value
          expiryTime := expiry.getD maxLong
          domain := a.domain.getD []
          path := a.path
          creationTime := currentTime
          lastAccessTime := currentTime.baseTime
          persistent := expiry.isSome
          hostOnly := false
          secureOnly := a.secure
          httpOnly := a.httpOnly }

/-! ## Matching -/

/-- A group of `IP_ADDRESS_PATTERN` that is at most 255. -/
def isOctet (s : Str) : Bool :=
  1 ≤ s.length && s.length ≤ 3 && s.all (·.isDigit) &&
    s.foldl (fun v c => 10 * v + (c.toNat - '0'.toNat)) 0 ≤ 255

/-- `isIpAddress`. -/
def isIpAddress (hostname : Str) : Bool :=
  match hostname.splitOn '.' with
  | [a, b, c, d] => isOctet a && isOctet b && isOctet c && isOctet d
  | _ => false

/-- `domainMatches`. -/
def domainMatches (domain cookieDomain : Str) : Bool :=
  decide (cookieDomain <:+ domain) &&
    (domain.length == cookieDomain.length ||
      (domain[domain.length - cookieDomain.length - 1]? == some '.' && !isIpAddress domain))

/-- `defaultPath`. -/
def defaultPath (uri : URI) : Str :=
  match uri.path with
  | none => ['/']
  | some path =>
    if ¬ ['/'] <+: path then ['/']
    else
      -- `substring(0, lastIndexOf("/"))`
      let path := ((path.reverse.dropWhile (· ≠ '/')).drop 1).reverse
      if path = [] then ['/'] else path

/-- `pathMatches`. A cookie without a path is a `NullPointerException`, unless the
request has none either. -/
def pathMatches (path cookiePath : Option Str) : Except Exn Bool :=
  match path, cookiePath with
  | none, _ => .ok false
  | some _, none => .error .nullPointer
  | some path, some cookiePath => .ok (decide (cookiePath <+: path) &&
      (path.length == cookiePath.length || decide (['/'] <:+ cookiePath) ||
        path[cookiePath.length]? == some '/'))

end JavaFx.Web
