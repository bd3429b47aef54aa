/-
What is written of a parsed value is read back as `reread` says.

The four theorems at the end are one induction over the value, its arrays and its
arrays of arrays, which are written and read by loops of their own.
-/
import JavaFx.Css.ParsedValueImpl

set_option autoImplicit false

namespace JavaFx.Css

open JavaFx.Lib

section Writes

variable {α β : Type} {w w' : Writer PUnit} {r : ℕ → StringStore → Reader α}
  {g : ℕ → StringStore → α → Reader β} {a : α} {b : β}

theorem Writes.congr (h : Writes w r a) {r₂ : ℕ → StringStore → Reader α}
    (hr : ∀ fuel strings, 0 < fuel → r fuel strings = r₂ fuel strings) : Writes w r₂ a := by
  intro out out' hrun
  obtain ⟨bytes, hbytes, hpre, hnodup, hreads⟩ := h out out' hrun
  refine ⟨bytes, hbytes, hpre, hnodup, fun fuel strings hall hsize hfuel => ?_⟩
  rw [← hr fuel strings (by omega)]
  exact hreads fuel strings hall hsize hfuel

/-- What is behind a byte needs less fuel. -/
theorem Writes.descend {bytes : List Byte} {r₀ : Reader α} (h₀ : Reads r₀ bytes a)
    (hpos : 0 < bytes.length) (hw' : Writes w' (fun fuel strings => g fuel strings a) b) :
    Writes (emit bytes >>= fun _ => w') (fun fuel strings => r₀ >>= g (fuel - 1) strings) b := by
  intro out out' hrun
  obtain ⟨bytes', hbytes', hpre, hnodup, hreads⟩ := hw' _ out' hrun
  refine ⟨bytes ++ bytes', ?_, hpre, hnodup, fun fuel strings hall hsize hfuel => ?_⟩
  · rw [hbytes', List.append_assoc]
  · rw [List.length_append] at hfuel
    exact h₀.bind (hreads (fuel - 1) strings hall hsize (by omega))

end Writes

/-- Nothing is said of a method that throws. -/
theorem writes_throw {α : Type} {r : ℕ → StringStore → Reader α} {a : α} (e : Failure) :
    Writes (throw e) r a := by
  intro out out' hrun
  exact nomatch hrun

/-! ## Converters -/

theorem writes_enumName (ename : String) :
    Writes (writeStringShort (some ename))
      (fun _ strings => do
        let index ← readShort
        enumNameAt strings index) (some ename) := by
  intro out out' hrun
  cases hrun
  refine ⟨_, rfl, out.strings.add_prefix _, StringStore.add_nodup _,
    fun _ strings hall hsize _ => ?_⟩
  have hlt := (List.getElem?_eq_some_iff.mp (StringStore.getElem?_of_prefix hall)).1
  refine (reads_short_nat (by omega)).bind_pure ?_
  rw [enumNameAt, if_pos ⟨by omega, by omega⟩, stringAt,
    aget_ok (StringStore.getElem?_of_prefix hall)]
  exact Reads.pure (some ename)

theorem isEnumConverter_enumConverterName : isEnumConverter enumConverterName = true := by
  rw [isEnumConverter, List.isPrefixOf_iff_prefix]

theorem writes_style (cname : String) (notEnum : isEnumConverter cname = false) :
    Writes (Converter.style cname notEnum).writeBinary (fun _ => readConverter)
      (Converter.style cname notEnum).reread := by
  apply (writes_stringShort (some cname)).map
  intro _ _
  rw [Converter.reread]
  simp only [notEnum]
  by_cases hname : cname = ""
  · simp [hname]
  · simp [hname]

theorem writes_enum (enumClass : Option String) :
    Writes (Converter.enum enumClass).writeBinary (fun _ => readConverter)
      (Converter.enum enumClass).reread := by
  apply (writes_stringShort (some enumConverterName)).bind
  -- the name is that of `EnumConverter`, so the name of the enum is read too
  have hname : enumConverterName ≠ "" := by decide
  simp only [if_neg hname, isEnumConverter_enumConverterName, if_true]
  cases enumClass with
  | none => exact writes_throw _
  | some ename =>
    apply ((writes_enumName ename).map ?_).congr
    · exact fun _ strings _ => bind_assoc _ _ _
    · intro _ _
      rw [Converter.reread, Option.bind_some]
      by_cases hempty : ename = ""
      · simp [hempty]
      · simp [hempty]

theorem writes_converter (converter : Option Converter) :
    Writes (writeConverter converter)
      (fun _ strings => do
        let hasType ← readBoolean
        readOptionalConverter strings hasType) (converter.bind Converter.reread) := by
  cases converter with
  | none => exact (writes_emit (reads_boolean false)).map (fun _ _ => rfl)
  | some c =>
    cases c with
    | style cname notEnum =>
      exact (writes_emit (reads_boolean true)).bind (writes_style cname notEnum)
    | enum enumClass => exact (writes_emit (reads_boolean true)).bind (writes_enum enumClass)
    | other => exact (writes_emit (reads_boolean false)).map (fun _ _ => rfl)

/-! ## Values without parts -/

theorem unitsOf_name (units : SizeUnits) : unitsOf (some units.name) = units := by
  cases units <;> rfl

theorem color_color (c : Color) : Color.color c.red c.green c.blue c.opacity = .ok c := by
  have hfloat := c.isFloat
  simp only [List.forall_mem_cons] at hfloat
  rw [Color.color, dif_pos c.inUnit]
  congr 1
  cases c with
  | mk red green blue opacity inUnit isFloat =>
    simp only [Color.mk.injEq]
    exact ⟨hfloat.1, hfloat.2.1, hfloat.2.2.1, hfloat.2.2.2.1⟩

section Simple

variable {r : ℕ → Reader ParsedValueImpl}

/-- How the value of a type is read. -/
abbrev valueReader (r : ℕ → StringStore → Reader ParsedValueImpl) (fuel : ℕ) (strings : StringStore) :
    Reader Value := do
  let valType ← readByte
  readValue strings (r fuel strings) valType

variable {r : ℕ → StringStore → Reader ParsedValueImpl}

/-- A type, and a value of it. -/
theorem writes_typed {valType : ℤ} (hlow : -2 ^ 7 ≤ valType) (hhigh : valType < 2 ^ 7)
    {w : Writer PUnit} {v : Value}
    (hw : Writes w (fun fuel strings => readValue strings (r fuel strings) valType) v) :
    Writes (emit (writeByte valType) >>= fun _ => w) (valueReader r) v :=
  (writes_emit (reads_byte hlow hhigh)).bind hw

theorem writes_color (c : Color) :
    Writes (Value.color c).writeBinary (valueReader r) (Value.color c) := by
  apply writes_typed (by omega) (by omega)
  refine (writes_emit (reads_long _)).bind ((writes_emit (reads_long _)).bind
    ((writes_emit (reads_long _)).bind ((writes_emit (reads_long _)).map ?_)))
  intro _ _
  simp only [longBitsToDouble_toLongBits, color_color]

/-- The name of an enum constant is added to the store first. -/
theorem writes_enumValue (name : String) :
    Writes (Value.enum name).writeBinary (valueReader r) (Value.string name) := by
  have horder : (Value.enum name).writeBinary
      = (emit (writeByte 6) >>= fun _ => writeStringShort (some name)) := rfl
  rw [horder]
  exact writes_typed (by omega) (by omega) ((writes_stringShort (some name)).map (fun _ _ => rfl))

theorem writes_boolean (b : Bool) :
    Writes (Value.boolean b).writeBinary (valueReader r) (Value.boolean b) :=
  writes_typed (by omega) (by omega) ((writes_emit (reads_boolean b)).map (fun _ _ => rfl))

theorem writes_size (size : Size) :
    Writes (Value.size size).writeBinary (valueReader r) (Value.size size) := by
  apply writes_typed (by omega) (by omega)
  refine (writes_emit (reads_long _)).bind ((writes_stringShort _).map ?_)
  intro _ _
  simp only [longBitsToDouble_toLongBits, unitsOf_name]

theorem writes_string (s : String) :
    Writes (Value.string s).writeBinary (valueReader r) (Value.string s) :=
  writes_typed (by omega) (by omega) ((writes_stringShort (some s)).map (fun _ _ => rfl))

theorem writes_url (externalForm : String) :
    Writes (Value.url externalForm).writeBinary (valueReader r) (Value.url externalForm) :=
  writes_typed (by omega) (by omega) ((writes_stringShort _).map (fun _ _ => rfl))

theorem writes_null : Writes Value.null.writeBinary (valueReader r) Value.null :=
  (writes_emit (reads_byte (by omega) (by omega))).map (fun _ _ => rfl)

end Simple

/-! ## Values with parts -/

mutual

/-- The arrays are not longer than arrays can be. -/
def ParsedValueImpl.Fits : ParsedValueImpl → Prop
  | .mk _ _ value => value.Fits

def Value.Fits : Value → Prop
  | .parsed v => v.Fits
  | .array values => values.length < 2 ^ 31 ∧ valuesFit values
  | .layers layers => layers.length < 2 ^ 31 ∧ layersFit layers
  | _ => True

def valuesFit : List (Option ParsedValueImpl) → Prop
  | [] => True
  | none :: values => valuesFit values
  | some v :: values => v.Fits ∧ valuesFit values

def layersFit : List (Option (List (Option ParsedValueImpl))) → Prop
  | [] => True
  | none :: layers => layersFit layers
  | some values :: layers => values.length < 2 ^ 31 ∧ valuesFit values ∧ layersFit layers

end

/-- How a value is read. -/
abbrev parsedReader (fuel : ℕ) (strings : StringStore) : Reader ParsedValueImpl :=
  readParsedValue strings fuel

section Arrays

variable {r : ℕ → StringStore → Reader ParsedValueImpl} {w : Writer PUnit}

/-- A length, and the elements. -/
theorem writes_array {values : List (Option ParsedValueImpl)} {n : ℕ} (hn : n < 2 ^ 31)
    (hw : Writes w (fun fuel strings => times (readElement (r fuel strings)) n) values) :
    Writes (emit (writeInt n) >>= fun _ => w) (fun fuel strings => readArray (r fuel strings))
      (if 0 < n then some values else none) := by
  apply (writes_emit (reads_int_nat hn)).bind
  apply hw.map
  intro _ _
  by_cases hpos : 0 < n
  · rw [if_pos hpos, if_pos (by omega)]
  · rw [if_neg hpos, if_neg (by omega)]

theorem writes_element {v : ParsedValueImpl} (hw : Writes w r v) :
    Writes (emit (writeByte 1) >>= fun _ => w) (fun fuel strings => readElement (r fuel strings))
      (some v) :=
  (writes_emit (reads_byte (by omega) (by omega))).bind (hw.map (fun _ _ => rfl))

theorem writes_noElement :
    Writes (emit (writeByte 0)) (fun fuel strings => readElement (r fuel strings)) none :=
  (writes_emit (reads_byte (by omega) (by omega))).map (fun _ _ => rfl)

end Arrays

/-- The elements of an array are there if it is not empty. -/
theorem array_reread (values : List (Option ParsedValueImpl)) :
    (if 0 < values.length then some (rereadValues values) else none)
      = if values = [] then none else some (rereadValues values) := by
  cases values with
  | nil => rfl
  | cons v values => rfl

mutual

theorem ParsedValueImpl.writes : (v : ParsedValueImpl) → v.Fits →
    Writes v.writeBinary parsedReader v.reread
  | .mk lookup converter value, h => by
    have hbody := (writes_converter converter).bind ((value.writes h).map
      (f := fun _ _ value => pure (ParsedValueImpl.mk lookup
        (converter.bind Converter.reread) value)) (fun _ _ => rfl))
      (g := fun fuel strings converter => valueReader parsedReader fuel strings >>= fun value =>
        pure (ParsedValueImpl.mk lookup converter value))
    refine (Writes.descend (g := fun fuel strings lookup => (do
      let hasType ← readBoolean
      readOptionalConverter strings hasType) >>= fun converter =>
        valueReader parsedReader fuel strings >>= fun value =>
          pure (ParsedValueImpl.mk lookup converter value)) (reads_boolean lookup)
      (by rw [writeBoolean, writeByte, length_bigEndian]; omega) hbody).congr ?_
    intro fuel strings hpos
    obtain ⟨fuel, rfl⟩ := Nat.exists_eq_add_of_lt hpos
    rw [parsedReader, Nat.zero_add, readParsedValue]
    simp only [bind_assoc, Nat.add_sub_cancel]

theorem Value.writes : (v : Value) → v.Fits → Writes v.writeBinary (valueReader parsedReader) v.reread
  | .parsed v, h => writes_typed (by omega) (by omega) ((v.writes h).map (fun _ _ => rfl))
  | .array values, h => by
    apply writes_typed (by omega) (by omega)
    apply (writes_emit (reads_byte (by omega) (by omega))).bind
    apply (writes_array h.1 (writes_values values h.2)).map
    intro _ _
    rw [array_reread, Value.reread]
    split_ifs with hempty
    · rfl
    · rfl
  | .layers layers, h => by
    apply writes_typed (by omega) (by omega)
    apply (writes_emit (reads_byte (by omega) (by omega))).bind
    apply (writes_emit (reads_int_nat h.1)).bind
    apply (writes_layers layers h.2).map
    intro _ _
    rw [Value.reread]
    cases layers with
    | nil => rfl
    | cons values layers =>
      rw [if_pos (by rw [List.length_cons]; omega), if_neg (List.cons_ne_nil _ _)]
  | .color c, _ => writes_color c
  | .enum name, _ => writes_enumValue name
  | .boolean b, _ => writes_boolean b
  | .size size, _ => writes_size size
  | .string s, _ => writes_string s
  | .url externalForm, _ => writes_url externalForm
  | .null, _ => writes_null
  | .other, _ => writes_throw _

theorem writes_values : (values : List (Option ParsedValueImpl)) → valuesFit values →
    Writes (writeValues values)
      (fun fuel strings => times (readElement (parsedReader fuel strings)) values.length)
      (rereadValues values)
  | [], _ => Writes.pure []
  | none :: values, h =>
    writes_noElement.bind ((writes_values values h).map (fun _ _ => rfl))
  | some v :: values, h => by
    have hassoc : writeValues (some v :: values) = ((emit (writeByte 1) >>= fun _ =>
        v.writeBinary) >>= fun _ => writeValues values) := by
      rw [writeValues, bind_assoc]
    rw [hassoc]
    exact (writes_element (v.writes h.1)).bind ((writes_values values h.2).map (fun _ _ => rfl))

theorem writes_layers : (layers : List (Option (List (Option ParsedValueImpl)))) →
    layersFit layers →
    Writes (writeLayers layers)
      (fun fuel strings => times (readLayer (parsedReader fuel strings)) layers.length)
      (rereadLayers layers)
  | [], _ => Writes.pure []
  | none :: layers, h => by
    have hassoc : writeLayers (none :: layers) = ((emit (writeByte 0) >>= fun _ =>
        emit (writeInt 0) >>= fun _ => writeValues []) >>= fun _ => writeLayers layers) := by
      simp only [writeLayers, writeValues, bind_assoc, pure_bind]
    rw [hassoc]
    exact ((writes_emit (reads_byte (by omega) (by omega))).bind
      (writes_array (n := 0) (by omega) (writes_values [] trivial))).bind
        ((writes_layers layers h).map (fun _ _ => rfl))
  | some values :: layers, h => by
    have hassoc : writeLayers (some values :: layers) = ((emit (writeByte 1) >>= fun _ =>
        emit (writeInt values.length) >>= fun _ => writeValues values) >>= fun _ =>
          writeLayers layers) := by
      simp only [writeLayers, bind_assoc]
    rw [hassoc]
    have hvalues := writes_array h.1 (writes_values values h.2.1)
    rw [array_reread] at hvalues
    exact ((writes_emit (reads_byte (by omega) (by omega))).bind hvalues).bind
      ((writes_layers layers h.2.2).map (fun _ _ => rfl))

end

end JavaFx.Css
