/-
The round trip of a parsed value.

Reading what was written of a parsed value is to give it back, but for an enum constant,
of which it gives the name, and an empty array, for which it gives `null`: `normalised`.
What `StyleConverterImpl.getInstance` and `EnumConverter.getInstance` do not list is lost
besides: the converter that is read is `null` then. So the value comes back exactly if
all its converters are listed (`roundTrip_iff`). `PaintConverter.ImagePatternConverter`,
which the parser uses, is not.
-/
import JavaFx.Css.ParsedValueReread

set_option autoImplicit false

namespace JavaFx.Css

open JavaFx.Lib

/-! ## The flags -/

mutual

/-- `lookup || containsLookups`. -/
def ParsedValueImpl.anyLookup : ParsedValueImpl → Bool
  | .mk lookup _ value => lookup || value.getContainsLookupsFlag

/-- `getContainsLookupsFlag`. -/
def Value.getContainsLookupsFlag : Value → Bool
  | .parsed v => v.anyLookup
  | .array values => anyLookupIn values
  | .layers layers => anyLookupInLayers layers
  | .null | .color _ | .enum _ | .boolean _ | .size _ | .string _ | .url _ | .other => false

def anyLookupIn : List (Option ParsedValueImpl) → Bool
  | [] => false
  | none :: values => anyLookupIn values
  | some v :: values => v.anyLookup || anyLookupIn values

def anyLookupInLayers : List (Option (List (Option ParsedValueImpl))) → Bool
  | [] => false
  | none :: layers => anyLookupInLayers layers
  | some values :: layers => anyLookupIn values || anyLookupInLayers layers

end

/-- The field `containsLookups`, which the constructor sets. -/
def ParsedValueImpl.containsLookups : ParsedValueImpl → Bool
  | .mk _ _ value => value.getContainsLookupsFlag

/-! ## What is to be read -/

mutual

def ParsedValueImpl.normalised : ParsedValueImpl → ParsedValueImpl
  | .mk lookup converter value => .mk lookup converter value.normalised

/-- An enum constant becomes its name, an empty array `null`. -/
def Value.normalised : Value → Value
  | .parsed v => .parsed v.normalised
  | .array values => if values = [] then .null else .array (normalisedValues values)
  | .layers layers => if layers = [] then .null else .layers (normalisedLayers layers)
  | .enum name => .string name
  | .null => .null
  | .color c => .color c
  | .boolean b => .boolean b
  | .size size => .size size
  | .string s => .string s
  | .url externalForm => .url externalForm
  | .other => .other

def normalisedValues : List (Option ParsedValueImpl) → List (Option ParsedValueImpl)
  | [] => []
  | none :: values => none :: normalisedValues values
  | some v :: values => some v.normalised :: normalisedValues values

def normalisedLayers :
    List (Option (List (Option ParsedValueImpl))) → List (Option (List (Option ParsedValueImpl)))
  | [] => []
  | none :: layers => none :: normalisedLayers layers
  | some values :: layers =>
    (if values = [] then none else some (normalisedValues values)) :: normalisedLayers layers

end

/-- The converter can be written: it is known by its class, and its enum if it has one. -/
def Converter.Named : Converter → Prop
  | .style _ _ => True
  | .enum enumClass => enumClass ≠ none
  | .other => True

/-- `getInstance` has the converter. -/
def Converter.Listed : Converter → Prop
  | .style cname _ => cname ∈ knownConverters
  | .enum enumClass => ∃ ename ∈ knownEnums, enumClass = some ename
  | .other => False

section Everywhere

variable (P : Converter → Prop) (Q : Value → Prop)

mutual

/-- All converters in the value are so, and all values in it. -/
def ParsedValueImpl.Everywhere : ParsedValueImpl → Prop
  | .mk _ converter value => (∀ c ∈ converter, P c) ∧ value.Everywhere

def Value.Everywhere : Value → Prop
  | .parsed v => v.Everywhere
  | .array values => everywhereIn values
  | .layers layers => everywhereInLayers layers
  | v => Q v

def everywhereIn : List (Option ParsedValueImpl) → Prop
  | [] => True
  | none :: values => everywhereIn values
  | some v :: values => v.Everywhere ∧ everywhereIn values

def everywhereInLayers : List (Option (List (Option ParsedValueImpl))) → Prop
  | [] => True
  | none :: layers => everywhereInLayers layers
  | some values :: layers => everywhereIn values ∧ everywhereInLayers layers

end

end Everywhere

/-- A value that can be written: it has nothing in it but the kinds of values there are
types for. -/
def ParsedValueImpl.Writable (v : ParsedValueImpl) : Prop :=
  v.Everywhere Converter.Named (fun value => value ≠ .other)

/-- All converters in the value are listed. -/
def ParsedValueImpl.Listed (v : ParsedValueImpl) : Prop :=
  v.Everywhere Converter.Listed (fun _ => True)

/-- What has been written of the value from `out` on is read back, with the strings of
this store or a later one, to the last byte, and as the value it was. -/
def RoundTrip (v : ParsedValueImpl) (out out' : Output) (strings : StringStore) : Prop :=
  ∃ bytes read, out'.bytes = out.bytes ++ bytes
    ∧ (∀ fuel, bytes.length < fuel → Reads (readParsedValue strings fuel) bytes read)
    ∧ read = v.normalised ∧ read.containsLookups = v.containsLookups

/-! ## The flags come back -/

mutual

theorem ParsedValueImpl.anyLookup_normalised : (v : ParsedValueImpl) →
    v.normalised.anyLookup = v.anyLookup
  | .mk lookup converter value => by
    rw [ParsedValueImpl.normalised, ParsedValueImpl.anyLookup, ParsedValueImpl.anyLookup, value.getContainsLookupsFlag_normalised]

theorem Value.getContainsLookupsFlag_normalised : (v : Value) →
    v.normalised.getContainsLookupsFlag = v.getContainsLookupsFlag
  | .parsed v => v.anyLookup_normalised
  | .array values => by
    rw [Value.normalised, Value.getContainsLookupsFlag]
    split_ifs with hempty
    · rw [hempty]
      rfl
    · exact anyLookupIn_normalised values
  | .layers layers => by
    rw [Value.normalised, Value.getContainsLookupsFlag]
    split_ifs with hempty
    · rw [hempty]
      rfl
    · exact anyLookupInLayers_normalised layers
  | .null | .color _ | .enum _ | .boolean _ | .size _ | .string _ | .url _ | .other => rfl

theorem anyLookupIn_normalised : (values : List (Option ParsedValueImpl)) →
    anyLookupIn (normalisedValues values) = anyLookupIn values
  | [] => rfl
  | none :: values => anyLookupIn_normalised values
  | some v :: values => by
    rw [normalisedValues, anyLookupIn, anyLookupIn, v.anyLookup_normalised,
      anyLookupIn_normalised values]

theorem anyLookupInLayers_normalised : (layers : List (Option (List (Option ParsedValueImpl)))) →
    anyLookupInLayers (normalisedLayers layers) = anyLookupInLayers layers
  | [] => rfl
  | none :: layers => anyLookupInLayers_normalised layers
  | some values :: layers => by
    rw [normalisedLayers]
    split_ifs with hempty
    · rw [anyLookupInLayers, anyLookupInLayers, hempty, anyLookupIn, Bool.false_or]
      exact anyLookupInLayers_normalised layers
    · rw [anyLookupInLayers, anyLookupInLayers, anyLookupIn_normalised values,
        anyLookupInLayers_normalised layers]

end

theorem ParsedValueImpl.containsLookups_normalised (v : ParsedValueImpl) :
    v.normalised.containsLookups = v.containsLookups := by
  cases v with
  | mk lookup converter value => exact value.getContainsLookupsFlag_normalised

/-! ## Which converters come back -/

theorem renamed_ne : ∀ p ∈ renamedConverters, p.1 ≠ p.2 := by decide

theorem renamedEnums_ne : ∀ p ∈ renamedEnums, p.1 ≠ p.2 := by decide

/-- A name that is looked up among others is found under another name. -/
theorem lookup_ne {l : List (String × String)} (h : ∀ p ∈ l, p.1 ≠ p.2) (name : String) :
    l.lookup name ≠ some name := by
  intro hlookup
  obtain ⟨before, after, rfl, -⟩ := List.lookup_eq_some_iff.mp hlookup
  exact h (name, name) (by simp) rfl

theorem Converter.reread_iff (c : Converter) : c.reread = some c ↔ c.Listed := by
  cases c with
  | style cname notEnum =>
    rw [Converter.reread, Converter.Listed]
    by_cases hknown : cname ∈ knownConverters
    · have hne : cname ≠ "" := by
        rintro rfl
        exact absurd hknown (by decide)
      rw [if_neg hne, getInstance, if_pos hknown]
      simp [notEnum, hknown]
    · refine iff_of_false (fun h => ?_) hknown
      split_ifs at h
      rw [getInstance, if_neg hknown] at h
      cases hlookup : renamedConverters.lookup cname with
      | none =>
        rw [hlookup] at h
        cases h
      | some c =>
        rw [hlookup] at h
        dsimp only at h
        split_ifs at h
        cases h
        exact lookup_ne renamed_ne cname hlookup
  | enum enumClass =>
    rw [Converter.reread, Converter.Listed]
    cases enumClass with
    | none => simp
    | some ename =>
      rw [Option.bind_some]
      by_cases hknown : ename ∈ knownEnums
      · have hne : ename ≠ "" := by
          rintro rfl
          exact absurd hknown (by decide)
        rw [if_neg hne, getEnumInstance, if_pos hknown]
        simp [hknown]
      · refine iff_of_false (fun h => ?_) (by simpa using hknown)
        split_ifs at h
        rw [getEnumInstance, if_neg hknown] at h
        cases hlookup : renamedEnums.lookup ename with
        | none =>
          rw [hlookup] at h
          cases h
        | some e =>
          rw [hlookup] at h
          cases h
          exact lookup_ne renamedEnums_ne ename hlookup
  | other => exact iff_of_false (by rintro ⟨⟩) id

mutual

/-- What is read is what is to be read if all converters are listed. -/
theorem ParsedValueImpl.reread_iff : (v : ParsedValueImpl) → (v.reread = v.normalised ↔ v.Listed)
  | .mk lookup converter value => by
    have hvalue := value.reread_iff
    have hconverter : converter.bind Converter.reread = converter
        ↔ ∀ c ∈ converter, c.Listed := by
      cases converter with
      | none => simp
      | some c => simp [Converter.reread_iff]
    rw [ParsedValueImpl.reread, ParsedValueImpl.normalised, ParsedValueImpl.Listed, ParsedValueImpl.Everywhere, ParsedValueImpl.mk.injEq, hvalue, hconverter]
    simp

theorem Value.reread_iff : (v : Value) → (v.reread = v.normalised ↔
    v.Everywhere Converter.Listed (fun _ => True))
  | .parsed v => by
    rw [Value.reread, Value.normalised, Value.parsed.injEq]
    exact v.reread_iff
  | .array values => by
    rw [Value.reread, Value.normalised, Value.Everywhere, ← reread_values_iff values]
    split_ifs with hempty
    · simp [hempty, rereadValues, normalisedValues]
    · rw [Value.array.injEq]
  | .layers layers => by
    rw [Value.reread, Value.normalised, Value.Everywhere, ← reread_layers_iff layers]
    split_ifs with hempty
    · simp [hempty, rereadLayers, normalisedLayers]
    · rw [Value.layers.injEq]
  | .null | .color _ | .enum _ | .boolean _ | .size _ | .string _ | .url _ | .other =>
    iff_of_true rfl trivial

theorem reread_values_iff : (values : List (Option ParsedValueImpl)) →
    (rereadValues values = normalisedValues values ↔
      everywhereIn Converter.Listed (fun _ => True) values)
  | [] => iff_of_true rfl trivial
  | none :: values => by
    rw [rereadValues, normalisedValues, everywhereIn, List.cons.injEq, reread_values_iff values]
    simp
  | some v :: values => by
    rw [rereadValues, normalisedValues, everywhereIn, List.cons.injEq, Option.some.injEq,
      reread_values_iff values, v.reread_iff, ParsedValueImpl.Listed]

theorem reread_layers_iff : (layers : List (Option (List (Option ParsedValueImpl)))) →
    (rereadLayers layers = normalisedLayers layers ↔
      everywhereInLayers Converter.Listed (fun _ => True) layers)
  | [] => iff_of_true rfl trivial
  | none :: layers => by
    rw [rereadLayers, normalisedLayers, everywhereInLayers, List.cons.injEq,
      reread_layers_iff layers]
    simp
  | some values :: layers => by
    rw [rereadLayers, normalisedLayers, everywhereInLayers, List.cons.injEq,
      reread_layers_iff layers, ← reread_values_iff values]
    split_ifs with hempty
    · simp [hempty, rereadValues, normalisedValues]
    · rw [Option.some.injEq]

end

/-! ## Writing does not fail -/

/-- The method writes something, whatever has been written. -/
def Succeeds (w : Writer PUnit) : Prop := ∀ out, ∃ out', w.run out = .ok (⟨⟩, out')

theorem succeeds_emit (bytes : List Byte) : Succeeds (emit bytes) := fun _ => ⟨_, rfl⟩

theorem succeeds_stringShort (s : Option String) : Succeeds (writeStringShort s) := fun _ => ⟨_, rfl⟩

theorem Succeeds.bind {w w' : Writer PUnit} (h : Succeeds w) (h' : Succeeds w') :
    Succeeds (w >>= fun _ => w') := by
  intro out
  obtain ⟨out₁, h₁⟩ := h out
  obtain ⟨out₂, h₂⟩ := h' out₁
  refine ⟨out₂, ?_⟩
  rw [StateT.run_bind, h₁]
  exact h₂

theorem succeeds_converter {converter : Option Converter} (h : ∀ c ∈ converter, c.Named) :
    Succeeds (writeConverter converter) := by
  cases converter with
  | none => exact succeeds_emit _
  | some c =>
    cases c with
    | style cname notEnum => exact (succeeds_emit _).bind (succeeds_stringShort _)
    | other => exact succeeds_emit _
    | enum enumClass =>
      cases enumClass with
      | none => exact absurd rfl (h _ rfl)
      | some ename =>
        exact (succeeds_emit _).bind ((succeeds_stringShort _).bind (succeeds_stringShort _))

mutual

theorem ParsedValueImpl.succeeds : (v : ParsedValueImpl) → v.Writable → Succeeds v.writeBinary
  | .mk _ _ value, h =>
    (succeeds_emit _).bind ((succeeds_converter h.1).bind (value.succeeds h.2))

theorem Value.succeeds : (v : Value) → v.Everywhere Converter.Named (fun value => value ≠ .other) →
    Succeeds v.writeBinary
  | .parsed v, h => (succeeds_emit _).bind (v.succeeds h)
  | .array values, h =>
    (succeeds_emit _).bind ((succeeds_emit _).bind ((succeeds_emit _).bind
      (succeeds_values values h)))
  | .layers layers, h =>
    (succeeds_emit _).bind ((succeeds_emit _).bind ((succeeds_emit _).bind
      (succeeds_layers layers h)))
  | .color _, _ =>
    (succeeds_emit _).bind ((succeeds_emit _).bind ((succeeds_emit _).bind
      ((succeeds_emit _).bind (succeeds_emit _))))
  | .enum name, _ => (succeeds_emit (writeByte 6)).bind (succeeds_stringShort (some name))
  | .boolean _, _ => (succeeds_emit _).bind (succeeds_emit _)
  | .size _, _ => (succeeds_emit _).bind ((succeeds_emit _).bind (succeeds_stringShort _))
  | .string _, _ => (succeeds_emit _).bind (succeeds_stringShort _)
  | .url _, _ => (succeeds_emit _).bind (succeeds_stringShort _)
  | .null, _ => succeeds_emit _
  | .other, h => absurd rfl h

theorem succeeds_values : (values : List (Option ParsedValueImpl)) →
    everywhereIn Converter.Named (fun value => value ≠ .other) values →
    Succeeds (writeValues values)
  | [], _ => fun out => ⟨out, rfl⟩
  | none :: values, h => (succeeds_emit _).bind (succeeds_values values h)
  | some v :: values, h =>
    (succeeds_emit _).bind ((v.succeeds h.1).bind (succeeds_values values h.2))

theorem succeeds_layers : (layers : List (Option (List (Option ParsedValueImpl)))) →
    everywhereInLayers Converter.Named (fun value => value ≠ .other) layers →
    Succeeds (writeLayers layers)
  | [], _ => fun out => ⟨out, rfl⟩
  | none :: layers, h =>
    (succeeds_emit _).bind ((succeeds_emit _).bind (succeeds_layers layers h))
  | some values :: layers, h =>
    (succeeds_emit _).bind ((succeeds_emit _).bind
      ((succeeds_values values h.1).bind (succeeds_layers layers h.2)))

end

/-! ## The round trip -/

/-- A stream is read in one way. -/
theorem Reads.unique {α : Type} {r : Reader α} {bytes : List Byte} {a b : α}
    (h : Reads r bytes a) (h' : Reads r bytes b) : a = b :=
  congrArg Prod.fst (Except.ok.inj ((h []).symm.trans (h' [])))

/-- What has been written comes back exactly if all converters are listed. -/
theorem ParsedValueImpl.comes_back_iff (v : ParsedValueImpl) (hfits : v.Fits)
    {out out' : Output} (hrun : v.writeBinary.run out = .ok (⟨⟩, out')) {strings : StringStore}
    (hinit : out'.strings <+: strings) (hsize : strings.length < 2 ^ 15) :
    RoundTrip v out out' strings ↔ v.Listed := by
  obtain ⟨bytes, hbytes, -, -, hreads⟩ := v.writes hfits out out' hrun
  rw [← v.reread_iff]
  constructor
  · rintro ⟨bytes', read, hbytes', hreads', rfl, -⟩
    obtain rfl : bytes = bytes' := List.append_cancel_left (hbytes.symm.trans hbytes')
    exact Reads.unique (hreads (bytes.length + 1) strings hinit hsize (Nat.lt_succ_self _))
      (hreads' (bytes.length + 1) (Nat.lt_succ_self _))
  · intro hreread
    refine ⟨bytes, v.normalised, hbytes, fun fuel hfuel => ?_, rfl, v.containsLookups_normalised⟩
    rw [← hreread]
    exact hreads fuel strings hinit hsize hfuel

/-- A sequence of paints of which the first one looks up another property. -/
def lookedUp : ParsedValueImpl :=
  .mk false (some (.style "com.sun.javafx.css.converters.PaintConverter$SequenceConverter" rfl))
    (.array [some (.mk true none (.string "-fx-base")), none])

/-- The pattern of an image. -/
def imagePattern : ParsedValueImpl :=
  .mk false
    (some (.style "com.sun.javafx.css.converters.PaintConverter$ImagePatternConverter" rfl))
    (.array [some (.mk false none (.url "file:a.png"))])

/-- It can be written, with few strings. -/
theorem imagePattern_run : ∃ out', imagePattern.writeBinary.run ⟨[], []⟩ = .ok (⟨⟩, out')
    ∧ out'.strings.length < 2 ^ 15 :=
  ⟨_, rfl, by decide⟩

end JavaFx.Css
