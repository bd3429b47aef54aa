/-
When a `data:` URL carries its octets.

The metadata gives the charset (`readMetadata_spec`), and with it the data part is read
(`connect_spec`). Without a charset only octets below 0x80 come through; with one it is up to
the charset (`carries_iff`).
-/
import JavaFx.Web.DataURLOctets

set_option autoImplicit false

namespace JavaFx.Web.DataURL

open JavaFx.Lib (Code ch lit fields)

variable (p : Platform)

/-! ## The metadata -/

def isCharset (component : List Code) : Bool :=
  (lit "charset=").isPrefixOf (p.toLowerCase component)

/-- The names in the charset parameters. -/
def charsetNames (parameters : List (List Code)) : List (List Code) :=
  (parameters.filter (isCharset p)).map fun component => component.drop 8

/-- The parameters after the media type. -/
def parameters : List (List Code) → List (List Code)
  | [] => []
  | first :: components => if ch '=' ∈ first then first :: components else components

/-- The charsets of the parameters, the last of which counts; `none` if the platform does not
have one of them. -/
def charsetsOf (metadata : List Code) : Option (List Charset) :=
  (charsetNames p (parameters (fields (ch ';') metadata))).mapM p.forName

/-- What the components have to be read as. -/
def Reads (charset : Option Charset) (charsets : Option (List Charset))
    (result : Except Failure Metadata) : Prop :=
  match charsets with
  | none => result = .error .unsupportedEncoding
  | some charsets => ∃ m, result = .ok m ∧ m.base64 = false ∧ m.charset = charsets.getLast?.or charset

theorem reads_foldlM {components : List (List Code)}
    (hbase64 : ∀ component ∈ components, p.equalsIgnoreCase component (lit "base64") = false)
    {m : Metadata} (hm : m.base64 = false) :
    Reads m.charset ((charsetNames p components).mapM p.forName)
      (components.foldlM (fun m component => m.read p false component) m) := by
  induction components generalizing m with
  | nil => exact ⟨m, rfl, hm, rfl⟩
  | cons component components ih =>
    have hfirst := hbase64 component List.mem_cons_self
    have hrest := fun c hc => hbase64 c (List.mem_cons_of_mem _ hc)
    rw [List.foldlM_cons, Metadata.read, if_neg (by rw [hfirst]; nofun),
      if_neg (fun h => Bool.false_ne_true h.1), charsetNames]
    by_cases hcharset : isCharset p component
    · rw [List.filter_cons_of_pos hcharset, List.map_cons, List.mapM_cons]
      dsimp only
      rw [if_pos (show (lit "charset=").isPrefixOf (p.toLowerCase component) from hcharset)]
      cases hname : p.forName (component.drop 8) with
      | none => rfl
      | some charset =>
        have hread := @ih hrest
          { m with parameters := m.parameters ++ [component], charset := some charset } hm
        rw [charsetNames] at hread
        dsimp only at hread ⊢
        cases hmap : ((components.filter (isCharset p)).map
            fun component => component.drop 8).mapM p.forName with
        | none =>
          rw [hmap] at hread
          exact hread
        | some charsets =>
          rw [hmap] at hread
          obtain ⟨m', hm', hbase, hlast⟩ := hread
          refine ⟨m', hm', hbase, hlast.trans ?_⟩
          rw [List.getLast?_cons]
          cases charsets.getLast? <;> rfl
    · rw [List.filter_cons_of_neg hcharset]
      dsimp only
      rw [if_neg (show ¬(lit "charset=").isPrefixOf (p.toLowerCase component) from hcharset)]
      exact @ih hrest { m with parameters := m.parameters ++ [component] } hm

/-- **The charset** is that of the last parameter that names one. -/
theorem readMetadata_spec {metadata : List Code}
    (hbase64 : ∀ component ∈ fields (ch ';') metadata,
      p.equalsIgnoreCase component (lit "base64") = false) :
    Reads none (charsetsOf p metadata) (readMetadata p metadata) := by
  rw [readMetadata, charsetsOf]
  cases hfields : fields (ch ';') metadata with
  | nil => exact absurd hfields (JavaFx.Lib.fields_ne_nil _ _)
  | cons component components =>
    rw [hfields] at hbase64
    have hfirst := hbase64 component List.mem_cons_self
    have hrest := fun c hc => hbase64 c (List.mem_cons_of_mem _ hc)
    by_cases heq : ch '=' ∈ component
    · -- a parameter without a media type is read like the others
      have hread : ∀ m : Metadata, m.read p true component = m.read p false component := by
        intro m
        rw [Metadata.read, Metadata.read, if_neg (show ¬(true = true ∧ ch '=' ∉ component) from
          fun h => h.2 heq), if_neg (show ¬(false = true ∧ ch '=' ∉ component) from
          fun h => Bool.false_ne_true h.1)]
      rw [parameters, if_pos heq]
      dsimp only
      rw [hread]
      exact reads_foldlM p hbase64 rfl
    · rw [parameters, if_neg heq]
      dsimp only
      rw [Metadata.read, if_neg (by rw [hfirst]; nofun), if_pos ⟨rfl, heq⟩]
      exact reads_foldlM p hrest rfl

/-! ## The connection -/

/-- The URL of a data part. -/
def url (scheme metadata : List Code) (d : DataPart) : List Code :=
  scheme ++ ch ':' :: (metadata ++ ch ',' :: d.characters)

/-- The octets of the data part are the data of the connection. -/
def Carries (scheme metadata : List Code) (d : DataPart) : Prop :=
  ∃ c, connect p (url scheme metadata d) = .ok c ∧ c.data = d.octets

theorem dropWhile_append {s t : List Code} {c : Code} (hs : c ∉ s) :
    (s ++ c :: t).dropWhile (· ≠ c) = c :: t := by
  rw [List.dropWhile_append_of_pos]
  · rw [List.dropWhile_cons_of_neg (by simp)]
  · intro d hd
    exact decide_eq_true fun heq => hs (heq ▸ hd)

theorem takeWhile_append {s t : List Code} {c : Code} (hs : c ∉ s) :
    (s ++ c :: t).takeWhile (· ≠ c) = s := by
  rw [List.takeWhile_append_of_pos]
  · rw [List.takeWhile_cons_of_neg (by simp), List.append_nil]
  · intro d hd
    exact decide_eq_true fun heq => hs (heq ▸ hd)

/-- **The data** of a connection that is not in base 64. -/
theorem connect_spec (scheme metadata : List Code) (hscheme : ch ':' ∉ scheme)
    (hmetadata : ch ',' ∉ metadata)
    (hbase64 : ∀ component ∈ fields (ch ';') metadata,
      p.equalsIgnoreCase component (lit "base64") = false) (d : DataPart) :
    match charsetsOf p metadata with
    | none => connect p (url scheme metadata d) = .error .unsupportedEncoding
    | some charsets => ∃ mediaType, connect p (url scheme metadata d) = .ok ⟨mediaType,
        (charsets.getLast?.getD US_ASCII).encode
          (text (charsets.getLast?.getD US_ASCII) [] d.pieces ++ d.tail.characters)⟩ := by
  have hread := readMetadata_spec p hbase64
  have hmem : ch ':' ∈ url scheme metadata d :=
    List.mem_append_right _ List.mem_cons_self
  have hcomma : ch ',' ∈ metadata ++ ch ',' :: d.characters :=
    List.mem_append_right _ List.mem_cons_self
  rw [connect, if_pos hmem]
  simp only [url, dropWhile_append hscheme, List.drop_succ_cons, List.drop_zero, if_pos hcomma,
    takeWhile_append hmetadata, dropWhile_append hmetadata]
  cases hcharsets : charsetsOf p metadata with
  | none =>
    rw [hcharsets] at hread
    dsimp only
    rw [show readMetadata p metadata = .error .unsupportedEncoding from hread]
    rfl
  | some charsets =>
    rw [hcharsets] at hread
    obtain ⟨m, hm, hbase, hlast⟩ := hread
    rw [Option.or_none] at hlast
    refine ⟨mimeTypeOf m ++ (parametersOf p m).flatMap fun parameter => ch ';' :: parameter, ?_⟩
    have htext := (urlDecode_text p (charsets.getLast?.getD US_ASCII) d.pieces d.tail).1
    rw [← htext, ← hlast, hm]
    change (if m.base64 = true then _ else _) = _
    rw [if_neg (by rw [hbase]; nofun)]
    rfl

/-! ## Octets written as sequences -/

/-- An octet, as `%xy`. -/
def sequence (b : UInt8) : Piece :=
  .octet (JavaFx.Lib.hexCode (b.toNat / 16)) (JavaFx.Lib.hexCode (b.toNat % 16)) (by
    have hhex : ∀ d : Fin 16, IsHex (JavaFx.Lib.hexCode d.val) := by decide
    exact ⟨hhex ⟨b.toNat / 16, by have := b.toNat_lt; omega⟩, hhex ⟨b.toNat % 16, by omega⟩⟩)

theorem read_sequence (b : UInt8) : (sequence b).read = some b ∧ (sequence b).octets = [b] := by
  have hhex : ∀ d : Fin 16, hexValue (JavaFx.Lib.hexCode d.val) = d.val := by decide
  have hhigh := hhex ⟨b.toNat / 16, by have := b.toNat_lt; omega⟩
  have hlow := hhex ⟨b.toNat % 16, by omega⟩
  have hvalue : UInt8.ofNat (16 * hexValue (JavaFx.Lib.hexCode (b.toNat / 16))
      + hexValue (JavaFx.Lib.hexCode (b.toNat % 16))) = b := by
    rw [hhigh, hlow, Nat.div_add_mod, UInt8.ofNat_toNat]
  exact ⟨congrArg some hvalue, congrArg (fun b => [b]) hvalue⟩

theorem text_sequences (charset : Charset) (run bytes : List UInt8) :
    text charset run (bytes.map sequence) = charset.string (run ++ bytes) := by
  induction bytes generalizing run with
  | nil => rw [List.map_nil, text, List.append_nil]
  | cons b bytes ih =>
    rw [List.map_cons, text, (read_sequence b).1]
    dsimp only
    rw [ih, List.append_assoc]
    rfl

theorem octets_sequences (bytes : List UInt8) :
    (bytes.map sequence).flatMap Piece.octets = bytes := by
  induction bytes with
  | nil => rfl
  | cons b bytes ih => rw [List.map_cons, List.flatMap_cons, (read_sequence b).2, ih]; rfl

/-! ## When the octets are carried -/

/-- **When a URL carries its octets**: without a charset, if all are below 0x80 and no sequence
has a sign; with one, if the charset encodes the text that it decodes them to as the octets
again. A charset that keeps ASCII carries all octets without a sign if it gives back the octets
that it decodes together, and only then. -/
theorem carries_iff (scheme metadata : List Code) (hscheme : ch ':' ∉ scheme)
    (hmetadata : ch ',' ∉ metadata)
    (hbase64 : ∀ component ∈ fields (ch ';') metadata,
      p.equalsIgnoreCase component (lit "base64") = false) :
    match charsetsOf p metadata with
    | none => ∀ d, ¬Carries p scheme metadata d
    | some charsets =>
      match charsets.getLast? with
      | none => ∀ d, Carries p scheme metadata d ↔ ∀ piece ∈ d.pieces, piece.Ascii
      | some charset =>
        (∀ d, Carries p scheme metadata d
          ↔ charset.encode (text charset [] d.pieces ++ d.tail.characters) = d.octets) ∧
        (charset.AsciiCompatible →
          (∀ d, (∀ piece ∈ d.pieces, ¬piece.Signed) →
            (∀ run ∈ runs [] d.pieces, run ≠ [] → charset.encode (charset.decode run) = run) →
              Carries p scheme metadata d) ∧
          ((∀ d, (∀ piece ∈ d.pieces, ¬piece.Signed) → Carries p scheme metadata d)
            ↔ ∀ run, run ≠ [] → charset.encode (charset.decode run) = run)) := by
  have hspec := connect_spec p scheme metadata hscheme hmetadata hbase64
  cases hcharsets : charsetsOf p metadata with
  | none =>
    rintro d ⟨c, hc, -⟩
    have hd := hspec d
    rw [hcharsets] at hd
    dsimp only at hd
    rw [hd] at hc
    cases hc
  | some charsets =>
    rw [hcharsets] at hspec
    have hcarries : ∀ d, Carries p scheme metadata d
        ↔ (charsets.getLast?.getD US_ASCII).encode
          (text (charsets.getLast?.getD US_ASCII) [] d.pieces ++ d.tail.characters) = d.octets := by
      intro d
      obtain ⟨mediaType, hconnect⟩ := hspec d
      constructor
      · rintro ⟨c, hc, hdata⟩
        obtain rfl := Except.ok.inj (hconnect.symm.trans hc)
        exact hdata
      · exact fun hdata => ⟨_, hconnect, hdata⟩
    dsimp only
    cases hlast : charsets.getLast? with
    | none =>
      rw [hlast] at hcarries
      exact fun d => (hcarries d).trans (data_ascii_iff d)
    | some charset =>
      rw [hlast, Option.getD_some] at hcarries
      refine ⟨hcarries, fun hcompatible => ⟨fun d hunsigned hruns => ?_,
        fun hall run hne => ?_, fun hall d hunsigned => ?_⟩⟩
      · exact (hcarries d).mpr (encode_text hcompatible d.tail hunsigned hruns)
      · have hunsigned : ∀ piece ∈ run.map sequence, ¬piece.Signed := by
          intro piece hpiece
          obtain ⟨b, -, rfl⟩ := List.mem_map.mp hpiece
          exact id
        have hrun := (hcarries ⟨run.map sequence, .none⟩).mp (hall _ hunsigned)
        simp only [DataPart.octets, Tail.characters, text_sequences, octets_sequences,
          List.nil_append, List.append_nil, List.map_nil] at hrun
        rwa [Charset.string, if_neg hne] at hrun
      · exact (hcarries d).mpr
          (encode_text hcompatible d.tail hunsigned fun run _ hne => hall run hne)

/-! ## A platform -/

def lowerAscii (c : Code) : Code := if ch 'A' ≤ c ∧ c ≤ ch 'Z' then c + 32 else c

/-- A platform of ASCII, with no other charset. -/
def platform : Platform where
  toLowerCase s := s.map lowerAscii
  equalsIgnoreCase s t := s.map lowerAscii = t.map lowerAscii
  digit := asciiDigit
  digit_ascii _ _ := rfl
  forName name := if name = US_ASCII.name then some US_ASCII else none
  whitespace c := c = ch ' '
  mimeDecode _ := none

/-- The octet 0xFF is not carried. -/
theorem not_carries_ff : ¬ ∀ d, Carries platform (lit "data") [] d := by
  intro h
  obtain ⟨c, hc, hdata⟩ := h ⟨[sequence 255], .none⟩
  obtain ⟨mediaType, hconnect⟩ := connect_spec platform (lit "data") []
    (by decide) (by decide) (by decide) ⟨[sequence 255], .none⟩
  obtain rfl := Except.ok.inj (hconnect.symm.trans hc)
  have hall := (data_ascii_iff ⟨[sequence 255], .none⟩).mp hdata _ List.mem_cons_self
  exact absurd hall (by decide)

/-- The octet 0x41 is. -/
theorem carries_iff_letter : Carries platform (lit "data") (lit "text/css") ⟨[sequence 65], .none⟩ := by
  have hiff := carries_iff platform (lit "data") (lit "text/css")
    (by decide) (by decide) (by decide)
  exact (hiff _).mpr (by decide)

end JavaFx.Web.DataURL
