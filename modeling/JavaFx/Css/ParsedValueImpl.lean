/-
`ParsedValueImpl` and the converters, and how they are written and read.

A parsed value is a tree: its value may be another parsed value, an array of them, any
of which may be `null`, or an array of such arrays. `ParsedValueImpl` is the only
`ParsedValue`. A converter is known by the name of its class, and an `EnumConverter`
also by the name of its enum; the map of the converters read so far only keeps what
`getInstance` gives. An enum constant is its name, and a `URL` its external form. What
else a value may be, the writer refuses.

Reading does not give back everything: `reread` says what it gives.
-/
import JavaFx.Lib.Double
import JavaFx.Css.StringStore

set_option autoImplicit false

namespace JavaFx.Css

open JavaFx.Lib

/-! ## Converters -/

/-- The start of the name of `EnumConverter`. -/
def enumConverterName : String := "com.sun.javafx.css.converters.EnumConverter"

def isEnumConverter (cname : String) : Bool := enumConverterName.toList.isPrefixOf cname.toList

/-- A `StyleConverter`: a `StyleConverterImpl`, which may be an `EnumConverter`, or another
one. -/
inductive Converter
  | style (className : String) (notEnum : isEnumConverter className = false)
  | enum (enumClass : Option String)
  | other

/-- The converters that `StyleConverterImpl.getInstance` finds by their name. -/
def knownConverters : List String :=
  [ "com.sun.javafx.css.converters.BooleanConverter",
    "com.sun.javafx.css.converters.ColorConverter",
    "com.sun.javafx.css.converters.CursorConverter",
    "com.sun.javafx.css.converters.EffectConverter",
    "com.sun.javafx.css.converters.EffectConverter$DropShadowConverter",
    "com.sun.javafx.css.converters.EffectConverter$InnerShadowConverter",
    "com.sun.javafx.css.converters.FontConverter",
    "com.sun.javafx.css.converters.FontConverter$FontStyleConverter",
    "com.sun.javafx.css.converters.FontConverter$FontWeightConverter",
    "com.sun.javafx.css.converters.FontConverter$FontSizeConverter",
    "com.sun.javafx.css.converters.InsetsConverter",
    "com.sun.javafx.css.converters.InsetsConverter$SequenceConverter",
    "com.sun.javafx.css.converters.PaintConverter",
    "com.sun.javafx.css.converters.PaintConverter$SequenceConverter",
    "com.sun.javafx.css.converters.PaintConverter$LinearGradientConverter",
    "com.sun.javafx.css.converters.PaintConverter$RadialGradientConverter",
    "com.sun.javafx.css.converters.SizeConverter",
    "com.sun.javafx.css.converters.SizeConverter$SequenceConverter",
    "com.sun.javafx.css.converters.StringConverter",
    "com.sun.javafx.css.converters.StringConverter$SequenceConverter",
    "com.sun.javafx.css.converters.URLConverter",
    "com.sun.javafx.css.converters.URLConverter$SequenceConverter",
    "com.sun.javafx.scene.layout.region.BackgroundPositionConverter",
    "com.sun.javafx.scene.layout.region.BackgroundSizeConverter",
    "com.sun.javafx.scene.layout.region.BorderImageSliceConverter",
    "com.sun.javafx.scene.layout.region.BorderImageWidthConverter",
    "com.sun.javafx.scene.layout.region.BorderImageWidthsSequenceConverter",
    "com.sun.javafx.scene.layout.region.BorderStrokeStyleSequenceConverter",
    "com.sun.javafx.scene.layout.region.BorderStyleConverter",
    "com.sun.javafx.scene.layout.region.LayeredBackgroundPositionConverter",
    "com.sun.javafx.scene.layout.region.LayeredBackgroundSizeConverter",
    "com.sun.javafx.scene.layout.region.LayeredBorderPaintConverter",
    "com.sun.javafx.scene.layout.region.LayeredBorderStyleConverter",
    "com.sun.javafx.scene.layout.region.RepeatStructConverter",
    "com.sun.javafx.scene.layout.region.SliceSequenceConverter",
    "com.sun.javafx.scene.layout.region.StrokeBorderPaintConverter",
    "com.sun.javafx.scene.layout.region.Margins$Converter",
    "com.sun.javafx.scene.layout.region.Margins$SequenceConverter",
    "com.sun.javafx.scene.layout.region.CornerRadiiConverter",
    "com.sun.javafx.css.parser.DeriveColorConverter",
    "com.sun.javafx.css.parser.DeriveSizeConverter",
    "com.sun.javafx.css.parser.LadderConverter",
    "com.sun.javafx.css.parser.StopConverter" ]

/-- The converters that it finds by an old name. -/
def renamedConverters : List (String × String) :=
  [ ("com.sun.javafx.css.converters.FontConverter$StyleConverter",
      "com.sun.javafx.css.converters.FontConverter$FontStyleConverter"),
    ("com.sun.javafx.css.converters.FontConverter$WeightConverter",
      "com.sun.javafx.css.converters.FontConverter$FontWeightConverter"),
    ("com.sun.javafx.css.converters.FontConverter$SizeConverter",
      "com.sun.javafx.css.converters.FontConverter$FontSizeConverter"),
    ("com.sun.javafx.scene.layout.region.BackgroundImage$BackgroundPositionConverter",
      "com.sun.javafx.scene.layout.region.BackgroundPositionConverter"),
    ("com.sun.javafx.scene.layout.region.BackgroundImage$BackgroundSizeConverter",
      "com.sun.javafx.scene.layout.region.BackgroundSizeConverter"),
    ("com.sun.javafx.scene.layout.region.BorderImage$SliceConverter",
      "com.sun.javafx.scene.layout.region.BorderImageSliceConverter"),
    ("com.sun.javafx.scene.layout.region.StrokeBorder$BorderStyleSequenceConverter",
      "com.sun.javafx.scene.layout.region.BorderStrokeStyleSequenceConverter"),
    ("com.sun.javafx.scene.layout.region.StrokeBorder$BorderStyleConverter",
      "com.sun.javafx.scene.layout.region.BorderStyleConverter"),
    ("com.sun.javafx.scene.layout.region.BackgroundImage$LayeredBackgroundPositionConverter",
      "com.sun.javafx.scene.layout.region.LayeredBackgroundPositionConverter"),
    ("com.sun.javafx.scene.layout.region.BackgroundImage$LayeredBackgroundSizeConverter",
      "com.sun.javafx.scene.layout.region.LayeredBackgroundSizeConverter"),
    ("com.sun.javafx.scene.layout.region.StrokeBorder$LayeredBorderPaintConverter",
      "com.sun.javafx.scene.layout.region.LayeredBorderPaintConverter"),
    ("com.sun.javafx.scene.layout.region.StrokeBorder$LayeredBorderStyleConverter",
      "com.sun.javafx.scene.layout.region.LayeredBorderStyleConverter"),
    ("com.sun.javafx.scene.layout.region.BackgroundImage$BackgroundRepeatConverter",
      "com.sun.javafx.scene.layout.region.RepeatStructConverter"),
    ("com.sun.javafx.scene.layout.region.BorderImage$RepeatConverter",
      "com.sun.javafx.scene.layout.region.RepeatStructConverter"),
    ("com.sun.javafx.scene.layout.region.BorderImage$SliceSequenceConverter",
      "com.sun.javafx.scene.layout.region.SliceSequenceConverter"),
    ("com.sun.javafx.scene.layout.region.StrokeBorder$BorderPaintConverter",
      "com.sun.javafx.scene.layout.region.StrokeBorderPaintConverter"),
    ("javafx.scene.layout.CornerRadiiConverter",
      "com.sun.javafx.scene.layout.region.CornerRadiiConverter") ]

/-- `StyleConverterImpl.getInstance`. -/
def getInstance (cname : String) : Option Converter :=
  match if cname ∈ knownConverters then some cname else renamedConverters.lookup cname with
  | some c => if h : isEnumConverter c = false then some (.style c h) else none
  | none => none

/-- The enums of which `EnumConverter.getInstance` has a converter. -/
def knownEnums : List String :=
  [ "com.sun.javafx.cursor.CursorType",
    "javafx.scene.layout.BackgroundRepeat",
    "javafx.geometry.HPos",
    "javafx.geometry.Orientation",
    "javafx.geometry.Pos",
    "javafx.geometry.Side",
    "javafx.geometry.VPos",
    "javafx.scene.effect.BlendMode",
    "javafx.scene.effect.BlurType",
    "javafx.scene.paint.CycleMethod",
    "javafx.scene.shape.ArcType",
    "javafx.scene.shape.StrokeLineCap",
    "javafx.scene.shape.StrokeLineJoin",
    "javafx.scene.shape.StrokeType",
    "javafx.scene.text.FontPosture",
    "javafx.scene.text.FontSmoothingType",
    "javafx.scene.text.FontWeight",
    "javafx.scene.text.TextAlignment" ]

def renamedEnums : List (String × String) :=
  [ ("com.sun.javafx.scene.layout.region.Repeat",
      "javafx.scene.layout.BackgroundRepeat") ]

/-- `EnumConverter.getInstance`. -/
def getEnumInstance (ename : String) : Option Converter :=
  match if ename ∈ knownEnums then some ename else renamedEnums.lookup ename with
  | some e => some (.enum (some e))
  | none => none

/-- `writeBinary` of a converter. -/
def Converter.writeBinary : Converter → Writer PUnit
  | .style cname _ => writeStringShort (some cname)
  | .enum enumClass => do
      writeStringShort (some enumConverterName)
      match enumClass with
      | some ename => writeStringShort (some ename)
      | none => throw (.exception .nullPointer)
  | .other => pure ⟨⟩

/-- `0 <= index && index <= strings.length ? strings[index] : null`. -/
def enumNameAt (strings : StringStore) (index : ℤ) : Reader (Option String) :=
  if 0 ≤ index ∧ index ≤ strings.length then stringAt strings index else pure none

/-- `EnumConverter.readBinary`. -/
def readEnumConverter (strings : StringStore) : Reader (Option Converter) := do
  let index ← readShort
  match ← enumNameAt strings index with
  | none => return none
  | some ename => if ename = "" then return none else return getEnumInstance ename

/-- `StyleConverterImpl.readBinary`. -/
def readConverter (strings : StringStore) : Reader (Option Converter) := do
  match ← readStringShort strings with
  | none => return none
  | some cname =>
    if cname = "" then return none
    else if isEnumConverter cname then readEnumConverter strings
    else return getInstance cname

/-- What is read of a converter that has been written. -/
def Converter.reread : Converter → Option Converter
  | .style cname _ => if cname = "" then none else getInstance cname
  | .enum enumClass =>
    enumClass.bind (fun ename => if ename = "" then none else getEnumInstance ename)
  | .other => none

/-! ## Values -/

/-- `SizeUnits`. -/
inductive SizeUnits
  | percent | in | cm | mm | em | ex | pt | pc | px | deg | grad | rad | turn | s | ms
  deriving DecidableEq, Repr

/-- `name()` of the units. -/
def SizeUnits.name : SizeUnits → String
  | percent => "PERCENT" | .in => "IN" | cm => "CM" | mm => "MM" | em => "EM" | ex => "EX"
  | pt => "PT" | pc => "PC" | px => "PX" | deg => "DEG" | grad => "GRAD" | rad => "RAD"
  | turn => "TURN" | s => "S" | ms => "MS"

def SizeUnits.all : List SizeUnits :=
  [percent, .in, cm, mm, em, ex, pt, pc, px, deg, grad, rad, turn, s, ms]

/-- `Size`. -/
structure Size where
  value : Double
  units : SizeUnits

/-- `Color`, whose components are `float`s. -/
structure Color where
  red : Double
  green : Double
  blue : Double
  opacity : Double
  inUnit : ∀ c ∈ [red, green, blue, opacity], c.outsideUnit = false
  isFloat : ∀ c ∈ [red, green, blue, opacity], c.toFloat = c

/-- `Color.color`. -/
def Color.color (red green blue opacity : Double) : Except Failure Color :=
  if h : ∀ c ∈ [red, green, blue, opacity], c.outsideUnit = false then
    .ok
      { red := red.toFloat
        green := green.toFloat
        blue := blue.toFloat
        opacity := opacity.toFloat
        inUnit := by
          simp only [List.forall_mem_cons] at h ⊢
          exact ⟨Double.outsideUnit_toFloat h.1, Double.outsideUnit_toFloat h.2.1,
            Double.outsideUnit_toFloat h.2.2.1, Double.outsideUnit_toFloat h.2.2.2.1, by simp⟩
        isFloat := by simp [Double.toFloat_toFloat] }
  else .error (.exception .illegalArgument)

mutual

/-- A parsed value. -/
inductive ParsedValueImpl
  | mk (lookup : Bool) (converter : Option Converter) (value : Value)

/-- What its value may be. -/
inductive Value
  | null
  | parsed (v : ParsedValueImpl)
  | array (values : List (Option ParsedValueImpl))
  | layers (layers : List (Option (List (Option ParsedValueImpl))))
  | color (c : Color)
  | enum (name : String)
  | boolean (b : Bool)
  | size (size : Size)
  | string (s : String)
  | url (externalForm : String)
  | other

end

/-! ## Writing -/

/-- What comes before the value. -/
def writeConverter : Option Converter → Writer PUnit
  | some (.style cname notEnum) => do
      emit (writeBoolean true)
      (Converter.style cname notEnum).writeBinary
  | some (.enum enumClass) => do
      emit (writeBoolean true)
      (Converter.enum enumClass).writeBinary
  | some .other | none => emit (writeBoolean false)

mutual

/-- `writeBinary`. -/
def ParsedValueImpl.writeBinary : ParsedValueImpl → Writer PUnit
  | .mk lookup converter value => do
      emit (writeBoolean lookup)
      writeConverter converter
      value.writeBinary

def Value.writeBinary : Value → Writer PUnit
  | .parsed v => do
      emit (writeByte 1)
      v.writeBinary
  | .array values => do
      emit (writeByte 2)
      emit (writeByte 1)
      emit (writeInt values.length)
      writeValues values
  | .layers layers => do
      emit (writeByte 3)
      emit (writeByte 1)
      emit (writeInt layers.length)
      writeLayers layers
  | .color c => do
      emit (writeByte 5)
      emit (writeLong c.red.toLongBits)
      emit (writeLong c.green.toLongBits)
      emit (writeLong c.blue.toLongBits)
      emit (writeLong c.opacity.toLongBits)
  | .enum name => do
      let nameIndex ← addString (some name)
      emit (writeByte 6)
      emit (writeShort nameIndex)
  | .boolean b => do
      emit (writeByte 7)
      emit (writeBoolean b)
  | .size size => do
      emit (writeByte 9)
      emit (writeLong size.value.toLongBits)
      writeStringShort (some size.units.name)
  | .string s => do
      emit (writeByte 4)
      writeStringShort (some s)
  | .url externalForm => do
      emit (writeByte 8)
      writeStringShort (some externalForm)
  | .null => emit (writeByte 0)
  | .other => throw .error

/-- The elements of an array. -/
def writeValues : List (Option ParsedValueImpl) → Writer PUnit
  | [] => pure ⟨⟩
  | none :: values => do
      emit (writeByte 0)
      writeValues values
  | some v :: values => do
      emit (writeByte 1)
      v.writeBinary
      writeValues values

def writeLayers : List (Option (List (Option ParsedValueImpl))) → Writer PUnit
  | [] => pure ⟨⟩
  | none :: layers => do
      emit (writeByte 0)
      emit (writeInt 0)
      writeLayers layers
  | some values :: layers => do
      emit (writeByte 1)
      emit (writeInt values.length)
      writeValues values
      writeLayers layers

end

/-! ## Reading -/

section Reading

variable (strings : StringStore) (r : Reader ParsedValueImpl)

/-- An element of an array. -/
def readElement : Reader (Option ParsedValueImpl) := do
  let vtype ← readByte
  if vtype = 1 then
    return some (← r)
  else
    return none

/-- An array; `null` if it has no elements. -/
def readArray : Reader (Option (List (Option ParsedValueImpl))) := do
  let nVals ← readInt
  let values ← times (readElement r) nVals.toNat
  return if 0 < nVals then some values else none

/-- An array in an array of arrays. -/
def readLayer : Reader (Option (List (Option ParsedValueImpl))) := do
  let _ ← readByte
  readArray r

/-- `Enum.valueOf(SizeUnits.class, unitStr)`, and pixels if there is no such unit. -/
def unitsOf (unitStr : Option String) : SizeUnits :=
  (SizeUnits.all.find? (fun u => some u.name = unitStr)).getD .px

/-- A value of a type. -/
def readValue (valType : ℤ) : Reader Value :=
  if valType = 1 then do
    return .parsed (← r)
  else if valType = 2 then do
    let _ ← readByte
    match ← readArray r with
    | some values => return .array values
    | none => return .null
  else if valType = 3 then do
    let _ ← readByte
    let nLayers ← readInt
    let layers ← times (readLayer r) nLayers.toNat
    if 0 < nLayers then
      return .layers layers
    else
      return .null
  else if valType = 5 then do
    let red ← readLong
    let green ← readLong
    let blue ← readLong
    let opacity ← readLong
    match Color.color (longBitsToDouble red) (longBitsToDouble green) (longBitsToDouble blue)
      (longBitsToDouble opacity) with
    | .ok c => return .color c
    | .error e => throw e
  else if valType = 6 then do
    match ← readStringShort strings with
    | some ename => return .string ename
    | none => return .null
  else if valType = 7 then do
    return .boolean (← readBoolean)
  else if valType = 9 then do
    let value ← readLong
    let unitStr ← readStringShort strings
    return .size ⟨longBitsToDouble value, unitsOf unitStr⟩
  else if valType = 4 then do
    match ← readStringShort strings with
    | some str => return .string str
    | none => return .null
  else if valType = 8 then do
    match ← readStringShort strings with
    | some str => return .url str
    | none => throw .error
  else if valType = 0 then
    return .null
  else throw .error

/-- The converter, if there is one. -/
def readOptionalConverter (hasType : Bool) : Reader (Option Converter) :=
  if hasType then readConverter strings else pure none

/-- `readBinary`, of version 5. A value is inside another one no more often than there
are bytes. -/
def readParsedValue : (fuel : ℕ) → Reader ParsedValueImpl
  | 0 => throw .error
  | fuel + 1 => do
      let lookup ← readBoolean
      let hasType ← readBoolean
      let converter ← readOptionalConverter strings hasType
      let valType ← readByte
      let value ← readValue strings (readParsedValue fuel) valType
      return .mk lookup converter value

end Reading

/-! ## What is read of what was written -/

mutual

def ParsedValueImpl.reread : ParsedValueImpl → ParsedValueImpl
  | .mk lookup converter value => .mk lookup (converter.bind Converter.reread) value.reread

/-- An enum constant becomes its name, an empty array `null`. -/
def Value.reread : Value → Value
  | .parsed v => .parsed v.reread
  | .array values => if values = [] then .null else .array (rereadValues values)
  | .layers layers => if layers = [] then .null else .layers (rereadLayers layers)
  | .enum name => .string name
  | .null => .null
  | .color c => .color c
  | .boolean b => .boolean b
  | .size size => .size size
  | .string s => .string s
  | .url externalForm => .url externalForm
  | .other => .other

def rereadValues : List (Option ParsedValueImpl) → List (Option ParsedValueImpl)
  | [] => []
  | none :: values => none :: rereadValues values
  | some v :: values => some v.reread :: rereadValues values

def rereadLayers :
    List (Option (List (Option ParsedValueImpl))) → List (Option (List (Option ParsedValueImpl)))
  | [] => []
  | none :: layers => none :: rereadLayers layers
  | some values :: layers =>
    (if values = [] then none else some (rereadValues values)) :: rereadLayers layers

end

end JavaFx.Css
