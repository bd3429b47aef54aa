/-
What the data part of a `data:` URL carries, and what is read of it.

A data part is a list of pieces: characters that stand for themselves, octets `%xy`, sequences
that are not hexadecimal, and at the end perhaps an incomplete one. `urlDecode` reads it piece
by piece (`urlDecode_text`), but a sign is a digit to it, and the octets become characters of
the charset: without one given, only octets below 0x80 are carried (`data_ascii_iff`), with one
given, those that the charset gives back (`encode_text`).
-/
import JavaFx.Web.DataURLConnection

set_option autoImplicit false

namespace JavaFx.Web.DataURL

open JavaFx.Lib (Code ch lit fields)

/-! ## The data part -/

def IsHex (c : Code) : Prop := (asciiDigit c).isSome

instance (c : Code) : Decidable (IsHex c) := inferInstanceAs (Decidable (_ = true))

def hexValue (c : Code) : ℕ := (asciiDigit c).getD 0

/-- A piece of the data part. -/
inductive Piece
  /-- An ASCII character that stands for itself. -/
  | literal (c : Code) (h : c.val < 128 ∧ c ≠ ch '%')
  | octet (x y : Code) (h : IsHex x ∧ IsHex y)
  | illegal (x y : Code) (h : (x.val < 128 ∧ y.val < 128) ∧ ¬(IsHex x ∧ IsHex y))

/-- An incomplete sequence at the end. -/
inductive Tail
  | none
  | percent
  | digit (x : Code) (h : x.val < 128)

structure DataPart where
  pieces : List Piece
  tail : Tail

/-- The byte of an ASCII character. -/
def byte (c : Code) : UInt8 := UInt8.ofNat c.val

def Piece.characters : Piece → List Code
  | .literal c _ => [c]
  | .octet x y _ => [ch '%', x, y]
  | .illegal x y _ => [ch '%', x, y]

/-- The octets that a piece stands for. -/
def Piece.octets : Piece → List UInt8
  | .literal c _ => [byte c]
  | .octet x y _ => [UInt8.ofNat (16 * hexValue x + hexValue y)]
  | .illegal x y _ => [byte (ch '%'), byte x, byte y]

def Tail.characters : Tail → List Code
  | .none => []
  | .percent => [ch '%']
  | .digit x _ => [ch '%', x]

def DataPart.characters (d : DataPart) : List Code :=
  d.pieces.flatMap Piece.characters ++ d.tail.characters

def DataPart.octets (d : DataPart) : List UInt8 :=
  d.pieces.flatMap Piece.octets ++ d.tail.characters.map byte

/-! ## What is read of a piece -/

/-- A sign and a digit, which are a number to `parseInt`. -/
def Piece.Signed : Piece → Prop
  | .illegal x y _ => (x = ch '+' ∨ x = ch '-') ∧ IsHex y
  | _ => False

/-- The octet that is read of a piece. -/
def Piece.read : Piece → Option UInt8
  | .literal _ _ => none
  | .octet x y _ => some (UInt8.ofNat (16 * hexValue x + hexValue y))
  | .illegal x y _ =>
    if x = ch '+' ∧ IsHex y then some (toByte (hexValue y))
    else if x = ch '-' ∧ IsHex y then some (toByte (-hexValue y))
    else none

theorem hexValue_of_isHex {c : Code} (h : IsHex c) : asciiDigit c = some (hexValue c) := by
  obtain ⟨v, hv⟩ := Option.isSome_iff_exists.mp h
  rw [hexValue, hv, Option.getD_some]

theorem hexValue_lt (c : Code) : hexValue c < 16 := by
  rw [hexValue, asciiDigit]
  have h0 : (ch '9').val = 57 := by decide
  have h1 : (ch 'F').val = 70 := by decide
  have h2 : (ch 'f').val = 102 := by decide
  split_ifs with hd hu hl
  · have := Fin.le_def.mp hd.2
    simp only [Option.getD_some]
    omega
  · have := Fin.le_def.mp hu.2
    simp only [Option.getD_some]
    omega
  · have := Fin.le_def.mp hl.2
    simp only [Option.getD_some]
    omega
  · exact Nat.succ_pos _

theorem IsHex.lt {c : Code} (h : IsHex c) : c.val < 128 := by
  by_contra hge
  have h0 : (ch '9').val = 57 := by decide
  have h1 : (ch 'F').val = 70 := by decide
  have h2 : (ch 'f').val = 102 := by decide
  rw [IsHex, asciiDigit, if_neg, if_neg, if_neg] at h
  · cases h
  · rintro ⟨-, hle⟩
    have := Fin.le_def.mp hle
    omega
  · rintro ⟨-, hle⟩
    have := Fin.le_def.mp hle
    omega
  · rintro ⟨-, hle⟩
    have := Fin.le_def.mp hle
    omega

theorem not_isHex_sign : ¬IsHex (ch '+') ∧ ¬IsHex (ch '-') := by decide

variable (p : Platform)

theorem digits_pair {x y : Code} (hx : x.val < 128) (hy : y.val < 128) :
    digits p 0 [x, y]
      = if IsHex x ∧ IsHex y then some (16 * hexValue x + hexValue y) else none := by
  rw [digits, p.digit_ascii x hx]
  by_cases hxh : IsHex x
  · rw [hexValue_of_isHex hxh, Option.bind_some, digits, p.digit_ascii y hy]
    by_cases hyh : IsHex y
    · rw [hexValue_of_isHex hyh, if_pos ⟨hxh, hyh⟩, Option.bind_some, digits]
      simp
    · rw [if_neg fun h => hyh h.2, Option.not_isSome_iff_eq_none.mp hyh]
      rfl
  · rw [if_neg fun h => hxh h.1, Option.not_isSome_iff_eq_none.mp hxh]
    rfl

theorem digits_single {y : Code} (hy : y.val < 128) :
    digits p 0 [y] = if IsHex y then some (hexValue y) else none := by
  rw [digits, p.digit_ascii y hy]
  by_cases hyh : IsHex y
  · rw [hexValue_of_isHex hyh, if_pos hyh, Option.bind_some, digits]
    simp
  · rw [if_neg hyh, Option.not_isSome_iff_eq_none.mp hyh]
    rfl

/-- Two digits are an `int`. -/
theorem filter_int {v : ℤ} (hlo : -256 ≤ v) (hhi : v < 256) :
    (some v).filter (fun v => (-2 ^ 31 ≤ v ∧ v < 2 ^ 31 : Bool)) = some v := by
  have hlo' : -2 ^ 31 ≤ v := le_trans (by norm_num) hlo
  have hhi' : v < 2 ^ 31 := lt_of_lt_of_le hhi (by norm_num)
  exact if_pos (by simpa using ⟨hlo', hhi'⟩)

/-- **`parseInt`** of the two characters of a sequence. -/
theorem parseInt_pair {x y : Code} (hx : x.val < 128) (hy : y.val < 128) :
    parseInt p [x, y] = if IsHex x ∧ IsHex y then some ((16 * hexValue x + hexValue y : ℕ) : ℤ)
      else if x = ch '+' ∧ IsHex y then some (hexValue y : ℤ)
      else if x = ch '-' ∧ IsHex y then some (-(hexValue y : ℤ)) else none := by
  have hxv := hexValue_lt x
  have hyv := hexValue_lt y
  have hne : ch '+' ≠ ch '-' := by decide
  rw [parseInt]
  by_cases hminus : x = ch '-'
  · subst hminus
    rw [if_pos ⟨rfl, List.cons_ne_nil _ _⟩, digits_single p hy,
      if_neg (show ¬(IsHex (ch '-') ∧ IsHex y) from fun h => not_isHex_sign.2 h.1),
      if_neg (show ¬(ch '-' = ch '+' ∧ IsHex y) from fun h => hne h.1.symm)]
    by_cases hyh : IsHex y
    · rw [if_pos hyh, if_pos ⟨rfl, hyh⟩, Option.map_some]
      exact filter_int (by omega) (by omega)
    · rw [if_neg hyh, if_neg fun h => hyh h.2]
      rfl
  · rw [if_neg fun h => hminus h.1]
    by_cases hplus : x = ch '+'
    · subst hplus
      rw [if_pos ⟨rfl, List.cons_ne_nil _ _⟩, digits_single p hy,
        if_neg (show ¬(IsHex (ch '+') ∧ IsHex y) from fun h => not_isHex_sign.1 h.1)]
      by_cases hyh : IsHex y
      · rw [if_pos hyh, if_pos ⟨rfl, hyh⟩, Option.map_some]
        exact filter_int (by omega) (by omega)
      · rw [if_neg hyh, if_neg fun h => hyh h.2, if_neg fun h => hne h.1]
        rfl
    · rw [if_neg fun h => hplus h.1, digits_pair p hx hy]
      by_cases hxy : IsHex x ∧ IsHex y
      · rw [if_pos hxy, if_pos hxy, Option.map_some]
        exact filter_int (by omega) (by omega)
      · rw [if_neg hxy, if_neg hxy, if_neg fun h => hplus h.1, if_neg fun h => hminus h.1]
        rfl

/-! ## Reading the pieces -/

/-- What is read: octets in series, and characters as they are. -/
def text (charset : Charset) : List UInt8 → List Piece → List Code
  | run, [] => charset.string run
  | run, piece :: pieces =>
    match piece.read with
    | some b => text charset (run ++ [b]) pieces
    | none => charset.string run ++ piece.characters ++ text charset [] pieces

/-- A sequence in a series. -/
theorem series_characters (piece : Piece) {x y : Code} (h : piece.characters = [ch '%', x, y])
    (str : List Code) : series p (ch '%' :: x :: y :: str)
      = match piece.read with
        | some b => ⟨b :: (series p str).bytes, (series p str).rest, (series p str).left⟩
        | none => ⟨[], piece.characters, str⟩ := by
  rw [series, if_pos rfl]
  cases piece with
  | literal c hc => cases h
  | octet x' y' hxy =>
    obtain ⟨rfl, rfl⟩ : x' = x ∧ y' = y := by simpa [Piece.characters] using h
    rw [parseInt_pair p hxy.1.lt hxy.2.lt, if_pos hxy, Piece.read]
    have hx := hexValue_lt x'
    have hy := hexValue_lt y'
    have hbyte : toByte ((16 * hexValue x' + hexValue y' : ℕ) : ℤ)
        = UInt8.ofNat (16 * hexValue x' + hexValue y') := by
      rw [toByte]
      congr 1
      omega
    simp only [hbyte]
  | illegal x' y' hxy =>
    obtain ⟨rfl, rfl⟩ : x' = x ∧ y' = y := by simpa [Piece.characters] using h
    rw [parseInt_pair p hxy.1.1 hxy.1.2, if_neg hxy.2, Piece.read]
    split_ifs <;> rfl

theorem urlDecode_percent (charset : Charset) (str : List Code) :
    urlDecode p charset (ch '%' :: str) = charset.string (series p (ch '%' :: str)).bytes
      ++ (series p (ch '%' :: str)).rest ++ urlDecode p charset (series p (ch '%' :: str)).left := by
  rw [urlDecode, if_pos rfl]

theorem urlDecode_literal (charset : Charset) {c : Code} (hc : c ≠ ch '%') (str : List Code) :
    urlDecode p charset (c :: str) = c :: urlDecode p charset str := by
  rw [urlDecode, if_neg hc]

/-- A series ends at other characters. -/
theorem series_literal {c : Code} (hc : c ≠ ch '%') (str : List Code) :
    series p (c :: str) = ⟨[], [], c :: str⟩ := by
  rcases str with _ | ⟨x, _ | ⟨y, str⟩⟩
  · rw [series, if_neg hc]
    rintro _ _ _ ⟨⟩
  · rw [series, if_neg hc]
    rintro _ _ _ ⟨⟩
  · rw [series, if_neg hc]

/-- A series ends at an incomplete sequence, which is left as it is. -/
theorem series_tail (tail : Tail) : series p tail.characters = ⟨[], tail.characters, []⟩ := by
  cases tail <;> rfl

theorem urlDecode_tail (charset : Charset) (tail : Tail) :
    urlDecode p charset tail.characters = tail.characters := by
  cases tail with
  | none => rw [Tail.characters, urlDecode]
  | percent =>
    rw [Tail.characters, urlDecode_percent]
    change [] ++ [ch '%'] ++ urlDecode p charset [] = [ch '%']
    rw [urlDecode]
    rfl
  | digit x h =>
    rw [Tail.characters, urlDecode_percent]
    change [] ++ [ch '%', x] ++ urlDecode p charset [] = [ch '%', x]
    rw [urlDecode]
    rfl

theorem Piece.characters_eq (piece : Piece) :
    (∃ c, piece.characters = [c] ∧ c ≠ ch '%' ∧ piece.read = none) ∨
      ∃ x y, piece.characters = [ch '%', x, y] := by
  cases piece with
  | literal c h => exact .inl ⟨c, rfl, h.2, rfl⟩
  | octet x y _ => exact .inr ⟨x, y, rfl⟩
  | illegal x y _ => exact .inr ⟨x, y, rfl⟩

/-- **What `urlDecode` reads** of a data part, outside a series and in one. -/
theorem urlDecode_text (charset : Charset) (pieces : List Piece) (tail : Tail) :
    urlDecode p charset (pieces.flatMap Piece.characters ++ tail.characters)
        = text charset [] pieces ++ tail.characters ∧
      ∀ run s, series p (pieces.flatMap Piece.characters ++ tail.characters) = s →
        charset.string (run ++ s.bytes) ++ s.rest ++ urlDecode p charset s.left
          = text charset run pieces ++ tail.characters := by
  induction pieces with
  | nil =>
    refine ⟨urlDecode_tail p charset tail, ?_⟩
    rintro run _ rfl
    rw [List.flatMap_nil, List.nil_append, series_tail, urlDecode, List.append_nil, List.append_nil]
    rfl
  | cons piece pieces ih =>
    obtain ⟨hdecode, hseries⟩ := ih
    rw [List.flatMap_cons, List.append_assoc]
    rcases piece.characters_eq with ⟨c, hchars, hc, hread⟩ | ⟨x, y, hchars⟩
    · rw [text, hread, hchars, List.singleton_append, urlDecode_literal p charset hc, hdecode]
      refine ⟨rfl, ?_⟩
      rintro run _ rfl
      rw [series_literal p hc, urlDecode_literal p charset hc, hdecode, text, hread, hchars]
      simp
    · rw [hchars]
      simp only [List.cons_append, List.nil_append]
      have hpiece := series_characters p piece hchars
        (pieces.flatMap Piece.characters ++ tail.characters)
      rw [urlDecode_percent, hpiece, text]
      cases hread : piece.read with
      | some b =>
        refine ⟨hseries [b] _ rfl, ?_⟩
        rintro run _ rfl
        rw [text, hread]
        have hnext := hseries (run ++ [b]) _ rfl
        rw [List.append_assoc run] at hnext
        exact hnext
      | none =>
        refine ⟨?_, ?_⟩
        · dsimp only
          rw [hdecode]
          simp [Charset.string]
        · rintro run _ rfl
          rw [text, hread]
          dsimp only
          rw [hdecode]
          simp

/-! ## Without a charset -/

/-- The octet of a character, or `?`. -/
def asciiByte (c : Code) : UInt8 := if c.val < 128 then byte c else 63

/-- No character is a part of a pair. -/
theorem encodeAscii_eq_map {s : List Code} (h : ∀ c ∈ s, ¬(0xD800 ≤ c.val ∧ c.val < 0xDC00)) :
    encodeAscii s = s.map asciiByte := by
  fun_induction encodeAscii s with
  | case1 => rfl
  | case2 c hc => rw [List.map_singleton, asciiByte, if_pos hc]; rfl
  | case3 c hc => rw [List.map_singleton, asciiByte, if_neg hc]
  | case4 c d s hc ih =>
    have hbyte : asciiByte c = byte c := if_pos hc
    rw [ih fun c hc => h c (List.mem_cons_of_mem _ hc)]
    exact congrArg (· :: (d :: s).map asciiByte) hbyte.symm
  | case5 c d s hc hpair ih => exact absurd ⟨hpair.1, hpair.2.1⟩ (h c List.mem_cons_self)
  | case6 c d s hc hpair ih =>
    have hbyte : asciiByte c = 63 := if_neg hc
    rw [ih fun c hc => h c (List.mem_cons_of_mem _ hc)]
    exact congrArg (· :: (d :: s).map asciiByte) hbyte.symm

theorem Piece.characters_ascii (piece : Piece) : ∀ c ∈ piece.characters, c.val < 128 := by
  have hpercent : (ch '%').val < 128 := by decide
  cases piece with
  | literal c h => simpa [Piece.characters] using h.1
  | octet x y h => simpa [Piece.characters] using ⟨hpercent, h.1.lt, h.2.lt⟩
  | illegal x y h => simpa [Piece.characters] using ⟨hpercent, h.1.1, h.1.2⟩

theorem Tail.characters_ascii (tail : Tail) : ∀ c ∈ tail.characters, c.val < 128 := by
  have hpercent : (ch '%').val < 128 := by decide
  cases tail with
  | none => nofun
  | percent => simpa [Tail.characters] using hpercent
  | digit x h => simpa [Tail.characters] using ⟨hpercent, h⟩

/-- A series without a charset is decoded octet by octet. -/
theorem text_ascii (run : List UInt8) (pieces : List Piece) :
    text US_ASCII run pieces = run.map decodeAscii ++ pieces.flatMap fun piece =>
      match piece.read with
      | some b => [decodeAscii b]
      | none => piece.characters := by
  have hstring : ∀ run, US_ASCII.string run = run.map decodeAscii := by
    intro run
    cases run <;> rfl
  induction pieces generalizing run with
  | nil => rw [text, hstring, List.flatMap_nil, List.append_nil]
  | cons piece pieces ih =>
    rw [text, List.flatMap_cons]
    cases piece.read with
    | some b =>
      dsimp only
      rw [ih, List.map_append, List.append_assoc]
      rfl
    | none =>
      dsimp only
      rw [ih, hstring, List.append_assoc]
      rfl

/-- The octets that are read of a piece. -/
def Piece.asciiOctets (piece : Piece) : List UInt8 :=
  match piece.read with
  | some b => [if b.toNat < 128 then b else 63]
  | none => piece.octets

theorem asciiByte_decodeAscii (b : UInt8) :
    asciiByte (decodeAscii b) = if b.toNat < 128 then b else 63 := by
  rw [decodeAscii]
  by_cases hb : b.toNat < 128
  · have hval : (Fin.ofNat 65536 b.toNat).val = b.toNat := Nat.mod_eq_of_lt (by omega)
    rw [if_pos hb, if_pos hb, asciiByte, hval, if_pos hb, byte, hval, UInt8.ofNat_toNat]
  · rw [if_neg hb, if_neg hb]
    rfl

theorem map_asciiByte {s : List Code} (h : ∀ c ∈ s, c.val < 128) :
    s.map asciiByte = s.map byte :=
  List.map_congr_left fun c hc => if_pos (h c hc)

theorem Piece.octets_of_read {piece : Piece} (h : piece.read = none) :
    piece.octets = piece.characters.map byte := by
  cases piece with
  | literal c _ => rfl
  | octet x y _ => cases h
  | illegal x y _ => rfl

/-- The octets of the connection. -/
theorem data_ascii (d : DataPart) : US_ASCII.encode (text US_ASCII [] d.pieces ++ d.tail.characters)
    = d.pieces.flatMap Piece.asciiOctets ++ d.tail.characters.map byte := by
  rw [text_ascii, List.map_nil, List.nil_append]
  change encodeAscii _ = _
  rw [encodeAscii_eq_map, List.map_append, List.map_flatMap, map_asciiByte d.tail.characters_ascii]
  · congr 1
    apply List.flatMap_congr
    intro piece _
    rw [Piece.asciiOctets]
    cases hread : piece.read with
    | some b => simp [asciiByte_decodeAscii]
    | none =>
      dsimp only
      rw [map_asciiByte piece.characters_ascii, piece.octets_of_read hread]
  · intro c hc
    have hsmall : c.val < 128 ∨ c = 0xFFFD := by
      rcases List.mem_append.mp hc with hc | hc
      · obtain ⟨piece, -, hc⟩ := List.mem_flatMap.mp hc
        cases hread : piece.read with
        | some b =>
          rw [hread] at hc
          obtain rfl := List.mem_singleton.mp hc
          rw [decodeAscii]
          split
          · next hb =>
            have hval : (Fin.ofNat 65536 b.toNat).val = b.toNat := Nat.mod_eq_of_lt (by omega)
            refine .inl ?_
            rw [hval]
            exact hb
          · exact .inr rfl
        | none =>
          rw [hread] at hc
          exact .inl (piece.characters_ascii c hc)
      · exact .inl (d.tail.characters_ascii c hc)
    rcases hsmall with hlt | rfl
    · omega
    · decide

/-- Lists that are put together of parts that are no longer are equal if and only if the
parts are. -/
theorem flatMap_eq_iff {α β : Type} {f g : α → List β} {l : List α}
    (h : ∀ a ∈ l, (g a).length ≤ (f a).length) :
    l.flatMap g = l.flatMap f ↔ ∀ a ∈ l, g a = f a := by
  have hlength : ∀ {l : List α}, (∀ a ∈ l, (g a).length ≤ (f a).length) →
      (l.flatMap g).length ≤ (l.flatMap f).length := by
    intro l h
    induction l with
    | nil => exact le_refl _
    | cons a l ih =>
      rw [List.flatMap_cons, List.flatMap_cons, List.length_append, List.length_append]
      exact add_le_add (h a List.mem_cons_self) (ih fun a ha => h a (List.mem_cons_of_mem _ ha))
  constructor
  · intro heq
    induction l with
    | nil => nofun
    | cons a l ih =>
      have ha := h a List.mem_cons_self
      have hl := hlength fun a ha => h a (List.mem_cons_of_mem _ ha)
      rw [List.flatMap_cons, List.flatMap_cons] at heq
      have hsum := congrArg List.length heq
      rw [List.length_append, List.length_append] at hsum
      obtain ⟨hfirst, hrest⟩ := List.append_inj heq (by omega)
      exact List.forall_mem_cons.mpr
        ⟨hfirst, ih (fun a ha => h a (List.mem_cons_of_mem _ ha)) hrest⟩
  · exact fun hall => List.flatMap_congr hall

/-- What a piece has to be for its octets to be carried without a charset. -/
def Piece.Ascii : Piece → Prop
  | .octet x y _ => 16 * hexValue x + hexValue y < 128
  | piece => ¬piece.Signed

instance (piece : Piece) : Decidable piece.Signed :=
  match piece with
  | .literal _ _ => inferInstanceAs (Decidable False)
  | .octet _ _ _ => inferInstanceAs (Decidable False)
  | .illegal _ _ _ => inferInstanceAs (Decidable (_ ∧ _))

instance (piece : Piece) : Decidable piece.Ascii :=
  match piece with
  | .literal _ _ => inferInstanceAs (Decidable (¬_))
  | .octet _ _ _ => inferInstanceAs (Decidable (_ < _))
  | .illegal _ _ _ => inferInstanceAs (Decidable (¬_))

theorem Piece.asciiOctets_iff (piece : Piece) : piece.asciiOctets = piece.octets ↔ piece.Ascii := by
  rw [Piece.asciiOctets]
  cases piece with
  | literal c h => exact ⟨fun _ => id, fun _ => rfl⟩
  | octet x y h =>
    have hx := hexValue_lt x
    have hy := hexValue_lt y
    have hvalue : (UInt8.ofNat (16 * hexValue x + hexValue y)).toNat
        = 16 * hexValue x + hexValue y := by
      rw [UInt8.toNat_ofNat']
      exact Nat.mod_eq_of_lt (by omega)
    simp only [Piece.read, Piece.octets, Piece.Ascii, hvalue, List.cons.injEq, and_true]
    constructor
    · intro heq
      by_contra hge
      rw [if_neg hge] at heq
      have hnat := congrArg UInt8.toNat heq
      rw [hvalue] at hnat
      have h63 : (63 : UInt8).toNat = 63 := rfl
      omega
    · exact fun hlt => if_pos hlt
  | illegal x y h =>
    simp only [Piece.read, Piece.Ascii, Piece.Signed]
    split_ifs with hplus hminus
    · exact ⟨fun heq => (List.cons_ne_nil _ _ (List.cons.inj heq).2.symm).elim,
        fun hnot => absurd ⟨.inl hplus.1, hplus.2⟩ hnot⟩
    · exact ⟨fun heq => (List.cons_ne_nil _ _ (List.cons.inj heq).2.symm).elim,
        fun hnot => absurd ⟨.inr hminus.1, hminus.2⟩ hnot⟩
    · refine ⟨fun _ => ?_, fun _ => rfl⟩
      rintro ⟨rfl | rfl, hy⟩
      · exact hplus ⟨rfl, hy⟩
      · exact hminus ⟨rfl, hy⟩

/-- **Without a charset** the octets are carried if they are below 0x80 and no sequence has a
sign. -/
theorem data_ascii_iff (d : DataPart) :
    US_ASCII.encode (text US_ASCII [] d.pieces ++ d.tail.characters) = d.octets
      ↔ ∀ piece ∈ d.pieces, piece.Ascii := by
  rw [data_ascii, DataPart.octets, List.append_cancel_right_eq, flatMap_eq_iff]
  · exact forall₂_congr fun piece _ => piece.asciiOctets_iff
  · intro piece _
    cases hread : piece.read with
    | some b =>
      rw [Piece.asciiOctets, hread]
      cases piece <;> simp [Piece.octets]
    | none => rw [Piece.asciiOctets, hread]

/-! ## With a charset -/

/-- An ASCII character is its own octet, whatever stands around it. -/
structure Charset.AsciiCompatible (charset : Charset) : Prop where
  encode_nil : charset.encode [] = []
  encode_ascii : ∀ (s t : List Code) (c : Code), c.val < 128 →
    charset.encode (s ++ c :: t) = charset.encode s ++ byte c :: charset.encode t

/-- The octets that are decoded together. -/
def runs : List UInt8 → List Piece → List (List UInt8)
  | run, [] => [run]
  | run, piece :: pieces =>
    match piece.read with
    | some b => runs (run ++ [b]) pieces
    | none => run :: runs [] pieces

section AsciiCompatible

variable {charset : Charset} (h : charset.AsciiCompatible)

include h

theorem encode_append_ascii (s t : List Code) {a : List Code} (ha : ∀ c ∈ a, c.val < 128)
    (hne : a ≠ []) :
    charset.encode (s ++ a ++ t) = charset.encode s ++ a.map byte ++ charset.encode t := by
  induction a generalizing s with
  | nil => exact absurd rfl hne
  | cons c a ih =>
    have hc := ha c List.mem_cons_self
    have hsingle := h.encode_ascii s (a ++ t) c hc
    rw [List.append_assoc, List.cons_append, hsingle, List.map_cons]
    by_cases hnil : a = []
    · rw [hnil]
      simp
    · have hrest := ih [] (fun c hc => ha c (List.mem_cons_of_mem _ hc)) hnil
      rw [List.nil_append, h.encode_nil, List.nil_append] at hrest
      rw [hrest]
      simp

theorem encode_append_tail (s : List Code) (tail : Tail) :
    charset.encode (s ++ tail.characters) = charset.encode s ++ tail.characters.map byte := by
  by_cases hnil : tail.characters = []
  · rw [hnil]
    simp
  · have happend := encode_append_ascii h s [] tail.characters_ascii hnil
    rwa [List.append_nil, h.encode_nil, List.append_nil] at happend

theorem encode_string {run : List UInt8}
    (hrun : run ≠ [] → charset.encode (charset.decode run) = run) :
    charset.encode (charset.string run) = run := by
  rw [Charset.string]
  split
  · next hnil => rw [hnil, h.encode_nil]
  · next hne => exact hrun hne

/-- **With a charset** that gives back the octets that are decoded together, they are carried. -/
theorem encode_text {pieces : List Piece} (tail : Tail) (hunsigned : ∀ piece ∈ pieces, ¬piece.Signed)
    {run : List UInt8}
    (hruns : ∀ r ∈ runs run pieces, r ≠ [] → charset.encode (charset.decode r) = r) :
    charset.encode (text charset run pieces ++ tail.characters)
      = run ++ pieces.flatMap Piece.octets ++ tail.characters.map byte := by
  rw [encode_append_tail h]
  congr 1
  induction pieces generalizing run with
  | nil =>
    rw [text, List.flatMap_nil, List.append_nil]
    exact encode_string h (hruns run List.mem_cons_self)
  | cons piece pieces ih =>
    have hrest : ∀ piece ∈ pieces, ¬piece.Signed := fun q hq => hunsigned q (List.mem_cons_of_mem _ hq)
    have hpiece := hunsigned piece List.mem_cons_self
    rw [runs] at hruns
    rw [text, List.flatMap_cons]
    cases hread : piece.read with
    | some b =>
      rw [hread] at hruns
      have hoctets : piece.octets = [b] := by
        cases piece with
        | literal c _ => cases hread
        | octet x y _ => exact congrArg (fun b => [b]) (Option.some.inj hread)
        | illegal x y _ =>
          rw [Piece.read] at hread
          split_ifs at hread with hplus hminus
          · exact absurd ⟨.inl hplus.1, hplus.2⟩ hpiece
          · exact absurd ⟨.inr hminus.1, hminus.2⟩ hpiece
      dsimp only
      rw [ih hrest hruns, hoctets, List.append_assoc]
    | none =>
      rw [hread] at hruns
      have hne : piece.characters ≠ [] := by
        cases piece <;> exact List.cons_ne_nil _ _
      dsimp only
      rw [encode_append_ascii h _ _ piece.characters_ascii hne,
        encode_string h (hruns run List.mem_cons_self),
        ih hrest fun r hr => hruns r (List.mem_cons_of_mem _ hr), List.nil_append,
        piece.octets_of_read hread, List.append_assoc]

end AsciiCompatible

end JavaFx.Web.DataURL
