/-
`com.sun.webkit.network.data.DataURLConnection`: what a `data:` URL carries.

A URL is the list of its code units, an octet is a byte. The charsets of the platform, its
letter case and its digits beyond ASCII and the MIME decoder are a parameter.
-/
import JavaFx.Lib.Split
import JavaFx.Lib.Utf16
import Mathlib.Data.UInt

set_option autoImplicit false

namespace JavaFx.Web.DataURL

open JavaFx.Lib (Code ch lit fields)

/-! ## The platform -/

/-- `java.nio.charset.Charset`, by `new String(bytes, charset)` and `getBytes(charset)`. -/
structure Charset where
  name : List Code
  decode : List UInt8 → List Code
  encode : List Code → List UInt8

/-- The value of an ASCII digit. -/
def asciiDigit (c : Code) : Option ℕ :=
  if ch '0' ≤ c ∧ c ≤ ch '9' then some (c.val - 48)
  else if ch 'A' ≤ c ∧ c ≤ ch 'F' then some (c.val - 55)
  else if ch 'a' ≤ c ∧ c ≤ ch 'f' then some (c.val - 87)
  else none

structure Platform where
  /-- `String.toLowerCase`. -/
  toLowerCase : List Code → List Code
  equalsIgnoreCase : List Code → List Code → Bool
  /-- `Character.digit(c, 16)`. -/
  digit : Code → Option ℕ
  digit_ascii : ∀ c : Code, c.val < 128 → digit c = asciiDigit c
  /-- `Charset.forName`; `none` is an `IllegalArgumentException`. -/
  forName : List Code → Option Charset
  /-- `Character.isWhitespace`, as `\s` has it. -/
  whitespace : Code → Bool
  /-- `Base64.getMimeDecoder().decode`; `none` is an `IllegalArgumentException`. -/
  mimeDecode : List Code → Option (List UInt8)

/-- A pair of surrogates is one character. -/
def encodeAscii : List Code → List UInt8
  | [] => []
  | [c] => if c.val < 128 then [UInt8.ofNat c.val] else [63]
  | c :: d :: s =>
    if c.val < 128 then UInt8.ofNat c.val :: encodeAscii (d :: s)
    else if 0xD800 ≤ c.val ∧ c.val < 0xDC00 ∧ 0xDC00 ≤ d.val ∧ d.val < 0xE000 then
      63 :: encodeAscii s
    else 63 :: encodeAscii (d :: s)

def decodeAscii (b : UInt8) : Code :=
  if b.toNat < 128 then Fin.ofNat 65536 b.toNat else 0xFFFD

def US_ASCII : Charset where
  name := lit "US-ASCII"
  decode bytes := bytes.map decodeAscii
  encode := encodeAscii

/-- The exceptions of the constructor. -/
inductive Failure
  | protocol
  | unsupportedEncoding
  | illegalArgument
  deriving DecidableEq

/-! ## `urlDecode` -/

section UrlDecode

variable (p : Platform)

/-- The value of hexadecimal digits. -/
def digits : ℕ → List Code → Option ℕ
  | v, [] => some v
  | v, c :: s => (p.digit c).bind fun d => digits (16 * v + d) s

/-- `Integer.parseInt(s, 16)`; `none` is a `NumberFormatException`. -/
def parseInt (s : List Code) : Option ℤ :=
  let v : Option ℤ := match s with
    | [] => none
    | c :: s' =>
      if c = ch '-' ∧ s' ≠ [] then (digits p 0 s').map fun v : ℕ => -(v : ℤ)
      else if c = ch '+' ∧ s' ≠ [] then (digits p 0 s').map fun v : ℕ => (v : ℤ)
      else (digits p 0 s).map fun v : ℕ => (v : ℤ)
  v.filter fun v => -2 ^ 31 ≤ v ∧ v < 2 ^ 31

/-- `(byte) i`. -/
def toByte (i : ℤ) : UInt8 := UInt8.ofNat (i % 256).toNat

/-- What a series of contiguous `%xy` sequences has read. -/
structure Series where
  bytes : List UInt8
  /-- What is appended without decoding. -/
  rest : List Code
  /-- What follows that. -/
  left : List Code

/-- The loop over the series. -/
def series : List Code → Series
  | c :: x :: y :: str =>
    if c = ch '%' then
      match parseInt p [x, y] with
      | some b => ⟨toByte b :: (series str).bytes, (series str).rest, (series str).left⟩
      | none => ⟨[], [c, x, y], str⟩
    else ⟨[], [], c :: x :: y :: str⟩
  | c :: str => if c = ch '%' then ⟨[], c :: str, []⟩ else ⟨[], [], c :: str⟩
  | [] => ⟨[], [], []⟩

theorem series_left_length (str : List Code) : (series p str).left.length ≤ str.length := by
  fun_induction series p str with
  | case1 x y str b hb ih =>
    simp only [List.length_cons]
    omega
  | case2 => simp only [List.length_cons]; omega
  | case3 => exact le_refl _
  | case4 => exact Nat.zero_le _
  | case5 => exact le_refl _
  | case6 => exact le_refl _

theorem series_left_lt {c : Code} {str : List Code} (hc : c = ch '%') :
    (series p (c :: str)).left.length < (c :: str).length := by
  match str with
  | [] =>
    rw [series, if_pos hc]
    · exact Nat.succ_pos _
    · nofun
  | [x] =>
    rw [series, if_pos hc]
    · exact Nat.succ_pos _
    · nofun
  | x :: y :: str =>
    rw [series, if_pos hc]
    have hle := series_left_length p str
    simp only [List.length_cons]
    split
    · dsimp only
      omega
    · dsimp only
      omega

/-- A string of the octets of a series. -/
def Charset.string (charset : Charset) (bytes : List UInt8) : List Code :=
  if bytes = [] then [] else charset.decode bytes

def urlDecode (charset : Charset) : List Code → List Code
  | [] => []
  | c :: str =>
    if c = ch '%' then
      charset.string (series p (c :: str)).bytes ++ (series p (c :: str)).rest
        ++ urlDecode charset (series p (c :: str)).left
    else c :: urlDecode charset str
  termination_by str => str.length
  decreasing_by
    · exact series_left_lt p ‹_›
    · exact Nat.lt_succ_self _

end UrlDecode

/-! ## The constructor -/

/-- What the loop over the components of the metadata has read. -/
structure Metadata where
  mimeType : Option (List Code)
  parameters : List (List Code)
  charset : Option Charset
  base64 : Bool

variable (p : Platform)

/-- A component; the flag tells whether it is the first one. -/
def Metadata.read (m : Metadata) (first : Bool) (component : List Code) : Except Failure Metadata :=
  if p.equalsIgnoreCase component (lit "base64") then .ok { m with base64 := true }
  else if first ∧ ch '=' ∉ component then .ok { m with mimeType := some component }
  else
    let parameters := m.parameters ++ [component]
    if (lit "charset=").isPrefixOf (p.toLowerCase component) then
      match p.forName (component.drop 8) with
      | some charset => .ok { m with parameters := parameters, charset := some charset }
      | none => .error .unsupportedEncoding
    else .ok { m with parameters := parameters }

def readMetadata (metadata : List Code) : Except Failure Metadata :=
  match fields (ch ';') metadata with
  | [] => .ok ⟨none, [], none, false⟩
  | component :: components => do
      let m ← Metadata.read p ⟨none, [], none, false⟩ true component
      components.foldlM (fun m component => m.read p false component) m

structure DataURLConnection where
  mediaType : List Code
  data : List UInt8

def mimeTypeOf (m : Metadata) : List Code :=
  match m.mimeType with
  | none => lit "text/plain"
  | some mimeType => if mimeType = [] then lit "text/plain" else mimeType

/-- The charset that is used when none is given is a parameter of a text. -/
def parametersOf (m : Metadata) : List (List Code) :=
  match m.charset with
  | some _ => m.parameters
  | none =>
    if (lit "text/").isPrefixOf (p.toLowerCase (mimeTypeOf m)) then
      (lit "charset=" ++ US_ASCII.name) :: m.parameters
    else m.parameters

def connect (url : List Code) : Except Failure DataURLConnection := do
  let content := if ch ':' ∈ url then (url.dropWhile (· ≠ ch ':')).drop 1 else url
  if ch ',' ∈ content then
    let metadata := content.takeWhile (· ≠ ch ',')
    let dataString := (content.dropWhile (· ≠ ch ',')).drop 1
    let m ← readMetadata p metadata
    let mediaType := mimeTypeOf m ++ (parametersOf p m).flatMap fun parameter => ch ';' :: parameter
    if m.base64 then
      let s := (urlDecode p US_ASCII dataString).filter fun c => ¬p.whitespace c
      match p.mimeDecode s with
      | some data => .ok ⟨mediaType, data⟩
      | none => .error .illegalArgument
    else
      let charset := m.charset.getD US_ASCII
      .ok ⟨mediaType, charset.encode (urlDecode p charset dataString)⟩
  else .error .protocol

end JavaFx.Web.DataURL
