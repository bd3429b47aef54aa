/-
`Stylesheet`, `Rule`, `Declaration`, `FontFace` and the selectors, and how they are
written and read, in version 5.

The url of a stylesheet is not written. A rule that has been read keeps the bytes of
its declarations and decodes them when it is asked for them. A selector is what its
constructor has made of names; the registries are those of the running program. What
the selectors and rules refer to beside this is left out.
-/
import JavaFx.Css.Selector
import JavaFx.Css.ParsedValueImpl

set_option autoImplicit false

namespace JavaFx.Css

open JavaFx.Lib

/-! ## The elements of a set -/

namespace BitSet

/-- `Long.bitCount`. -/
def bitCount (word : Word) : ℕ := (List.range 64).countP word.getLsbD

/-- `size`. -/
def size (s : BitSet) : ℕ := (s.bits.map bitCount).sum

/-- The elements whose bits are in these words, the first of which is number `n`. -/
def elementsFrom : ℕ → List Word → List ℕ
  | _, [] => []
  | n, word :: words =>
    ((List.range 64).filter word.getLsbD).map (64 * n + ·) ++ elementsFrom (n + 1) words

/-- What the iterator runs through. -/
def elements (s : BitSet) : List ℕ := elementsFrom 0 s.bits

end BitSet

/-! ## Selectors -/

section Selectors

variable (styleClassRegistry pseudoClassRegistry : Registry)

/-- A simple selector that its constructor has made. -/
structure ConstructedSelector where
  selector : SimpleSelector
  constructed : ∃ name styleClasses pseudoClasses id, selector
    = .new styleClassRegistry pseudoClassRegistry name styleClasses pseudoClasses id

/-- A selector of a rule. -/
inductive RuleSelector
  | simple (s : ConstructedSelector styleClassRegistry pseudoClassRegistry)
  | compound (selectors : List (ConstructedSelector styleClassRegistry pseudoClassRegistry))
      (relationships : List Combinator)

variable {styleClassRegistry pseudoClassRegistry}

/-- The names of the pseudo-classes that are written: the orientation is one. -/
def orientationNames : NodeOrientation → List String
  | .rightToLeft => ["dir(rtl)"]
  | .leftToRight => ["dir(ltr)"]
  | .inherit => []

/-- `writeBinary` of a simple selector. -/
def ConstructedSelector.writeBinary
    (s : ConstructedSelector styleClassRegistry pseudoClassRegistry) : Writer PUnit := do
  emit (writeByte 1)
  writeStringShort (some s.selector.name)
  emit (writeShort s.selector.styleClassSet.size)
  s.selector.styleClassSet.elements.forM fun i =>
    writeStringShort (some (styleClassRegistry.name i))
  writeStringShort (some s.selector.id)
  emit (writeShort (s.selector.pseudoClassState.size
    + (orientationNames s.selector.nodeOrientation).length : ℕ))
  s.selector.pseudoClassState.elements.forM fun i =>
    writeStringShort (some (pseudoClassRegistry.name i))
  (orientationNames s.selector.nodeOrientation).forM fun name => writeStringShort (some name)

/-- `ordinal`. -/
def Combinator.ordinal : Combinator → ℤ
  | .child => 0
  | .descendant => 1

/-- `writeBinary` of a selector. -/
def RuleSelector.writeBinary :
    RuleSelector styleClassRegistry pseudoClassRegistry → Writer PUnit
  | .simple s => s.writeBinary
  | .compound selectors relationships => do
      emit (writeByte 2)
      emit (writeShort selectors.length)
      selectors.forM ConstructedSelector.writeBinary
      emit (writeShort relationships.length)
      relationships.forM fun relationship => emit (writeByte relationship.ordinal)

variable (styleClassRegistry pseudoClassRegistry)

/-- `readBinary` of a simple selector, behind its type. -/
def readSimpleSelector (strings : StringStore) :
    Reader (ConstructedSelector styleClassRegistry pseudoClassRegistry) := do
  let name ← readStringShort strings
  let nStyleClasses ← readShort
  let styleClasses ← times (readStringShort strings) nStyleClasses.toNat
  let id ← readStringShort strings
  let nPseudoclasses ← readShort
  let pseudoclasses ← times (readStringShort strings) nPseudoclasses.toNat
  return ⟨.new styleClassRegistry pseudoClassRegistry name styleClasses pseudoclasses id,
    name, styleClasses, pseudoclasses, id, rfl⟩

/-- A combinator. -/
def readCombinator : Reader Combinator := do
  let ordinal ← readByte
  return if ordinal = Combinator.child.ordinal then .child else .descendant

variable {styleClassRegistry pseudoClassRegistry}

/-- `(SimpleSelector) selector`. -/
def asSimple : RuleSelector styleClassRegistry pseudoClassRegistry →
    Reader (ConstructedSelector styleClassRegistry pseudoClassRegistry)
  | .simple s => pure s
  | .compound _ _ => throw .classCast

variable (styleClassRegistry pseudoClassRegistry)

/-- `readBinary` of a selector, behind its type. The parts of a compound selector are
selectors. -/
def readSelectorOfType (strings : StringStore)
    (part : Reader (RuleSelector styleClassRegistry pseudoClassRegistry)) (type : ℤ) :
    Reader (RuleSelector styleClassRegistry pseudoClassRegistry) :=
  if type = 1 then do
    return .simple (← readSimpleSelector styleClassRegistry pseudoClassRegistry strings)
  else do
    let nSelectors ← readShort
    let selectors ← times (part >>= asSimple) nSelectors.toNat
    let nRelationships ← readShort
    let relationships ← times readCombinator nRelationships.toNat
    return .compound selectors relationships

/-- `readBinary` of a selector. -/
def readSelectorWithin (strings : StringStore) :
    (fuel : ℕ) → Reader (RuleSelector styleClassRegistry pseudoClassRegistry)
  | 0 => throw .error
  | fuel + 1 => do
      let type ← readByte
      readSelectorOfType styleClassRegistry pseudoClassRegistry strings
        (readSelectorWithin strings fuel) type

end Selectors

/-- With fuel for all the bytes that are left. -/
def withFuel {α : Type} (r : ℕ → StringStore → Reader α) (strings : StringStore) : Reader α := do
  let bytes ← get
  r (bytes.length + 1) strings

/-! ## Declarations -/

/-- `Declaration`. -/
structure Declaration where
  property : String
  parsedValue : ParsedValueImpl
  important : Bool

namespace Declaration

/-- `writeBinary`. -/
def writeBinary (d : Declaration) : Writer PUnit := do
  writeStringShort (some d.property)
  d.parsedValue.writeBinary
  emit (writeBoolean d.important)

/-- The constructor. -/
def new (propertyName : Option String) (parsedValue : ParsedValueImpl) (important : Bool) :
    Reader Declaration :=
  match propertyName with
  | some property => pure ⟨property, parsedValue, important⟩
  | none => throw (.exception .illegalArgument)

/-- `readBinary`. -/
def readBinary (strings : StringStore) : Reader Declaration := do
  let propertyName ← readStringShort strings
  let parsedValue ← withFuel (fun fuel strings => readParsedValue strings fuel) strings
  let important ← readBoolean
  new propertyName parsedValue important

def reread (d : Declaration) : Declaration := { d with parsedValue := d.parsedValue.reread }

/-- `values[1] = new ParsedValueImpl<String,String>(stylesheetUrl, null)`. -/
def assignUrl (stylesheetUrl : String) : Value → Except Failure Value
  | .array values =>
    if 1 < values.length then
      .ok (.array (values.set 1 (some (.mk false none (.string stylesheetUrl)))))
    else .error (.exception .indexOutOfBounds)
  | .null => .error (.exception .nullPointer)
  | _ => .error .classCast

/-- The same in a layer. -/
def assignLayerUrl (stylesheetUrl : String) :
    Option ParsedValueImpl → Except Failure (Option ParsedValueImpl)
  | none => .error (.exception .nullPointer)
  | some (.mk lookup converter value) => do
      return some (.mk lookup converter (← assignUrl stylesheetUrl value))

/-- The value of a sequence of urls with all of them fixed. -/
def assignUrls (stylesheetUrl : String) : Value → Except Failure Value
  | .array layers => do return .array (← layers.mapM (assignLayerUrl stylesheetUrl))
  | .null => .error (.exception .nullPointer)
  | _ => .error .classCast

/-- `fixUrl`. -/
def fixUrl (stylesheetUrl : Option String) (d : Declaration) : Except Failure Declaration :=
  match stylesheetUrl, d.parsedValue with
  | some url, .mk lookup (some (.style cname notEnum)) value =>
    if cname = "com.sun.javafx.css.converters.URLConverter" then do
      let fixed ← assignUrl url value
      return { d with parsedValue := .mk lookup (some (.style cname notEnum)) fixed }
    else if cname = "com.sun.javafx.css.converters.URLConverter$SequenceConverter" then do
      let fixed ← assignUrls url value
      return { d with parsedValue := .mk lookup (some (.style cname notEnum)) fixed }
    else .ok d
  | _, _ => .ok d

end Declaration

/-! ## Font faces -/

/-- A `Map<String,String>`, as its entries in the order in which it is walked. -/
structure StringMap where
  entries : List (Option String × Option String)
  nodup : (entries.map Prod.fst).Nodup

namespace StringMap

def empty : StringMap := ⟨[], List.nodup_nil⟩

/-- `put`. -/
def put (m : StringMap) (key value : Option String) : StringMap :=
  if h : key ∈ m.entries.map Prod.fst then
    { entries := m.entries.map (fun p => if p.1 = key then (key, value) else p)
      nodup := by
        have hkeys : (m.entries.map (fun p => if p.1 = key then (key, value) else p)).map Prod.fst
            = m.entries.map Prod.fst := by
          rw [List.map_map]
          refine List.map_congr_left (fun p _ => ?_)
          by_cases hp : p.1 = key
          · simp [hp]
          · simp [hp]
        rw [hkeys]
        exact m.nodup }
  else
    { entries := m.entries ++ [(key, value)]
      nodup := by
        rw [List.map_append, List.nodup_append]
        refine ⟨m.nodup, List.nodup_singleton key, ?_⟩
        intro a ha b hb hab
        rw [List.map_singleton, List.mem_singleton] at hb
        have hkey : a = key := hab.trans hb
        exact h (hkey ▸ ha) }

end StringMap

/-- `FontFaceSrcType`. -/
inductive FontFaceSrcType
  | url
  | local
  | reference
  deriving DecidableEq, Repr

def FontFaceSrcType.name : FontFaceSrcType → String
  | url => "URL"
  | .local => "LOCAL"
  | reference => "REFERENCE"

/-- `FontFaceSrc`. -/
structure FontFaceSrc where
  type : Option FontFaceSrcType
  src : Option String
  format : Option String

/-- `FontFace`. -/
structure FontFace where
  descriptors : Option StringMap
  sources : Option (List FontFaceSrc)

/-- `writeBinary` of a source: `type.name()` throws if there is no type. -/
def FontFaceSrc.writeBinary (s : FontFaceSrc) : Writer PUnit := do
  match s.type with
  | none => throw (.exception .nullPointer)
  | some type => do
      writeStringInt (some type.name)
      writeStringInt s.src
      writeStringInt s.format

/-- `FontFaceSrcType.valueOf`, unless there is no type. -/
def typeOf : Option String → Reader (Option FontFaceSrcType)
  | none => pure none
  | some name =>
    match [FontFaceSrcType.url, .local, .reference].find? (fun t => t.name = name) with
    | some t => pure (some t)
    | none => throw (.exception .illegalArgument)

/-- `readBinary` of a source. -/
def readFontFaceSrc (strings : StringStore) : Reader FontFaceSrc := do
  let name ← readStringInt strings
  let type ← typeOf name
  let src ← readStringInt strings
  let format ← readStringInt strings
  return ⟨type, src, format⟩

/-- The entries of the map, `getDescriptors() != null ? getDescriptors().entrySet() : null`. -/
def FontFace.entrySet (f : FontFace) : List (Option String × Option String) :=
  f.descriptors.elim [] StringMap.entries

/-- `writeBinary`. -/
def FontFace.writeBinary (f : FontFace) : Writer PUnit := do
  emit (writeShort f.entrySet.length)
  f.entrySet.forM fun entry => do
    writeStringInt entry.1
    writeStringInt entry.2
  emit (writeShort (f.sources.getD []).length)
  (f.sources.getD []).forM FontFaceSrc.writeBinary

/-- An entry of the map. -/
def readEntry (strings : StringStore) : Reader (Option String × Option String) := do
  let key ← readStringInt strings
  let value ← readStringInt strings
  return (key, value)

/-- A count that a collection is made for. -/
def readCapacity : Reader ℕ := do
  let n ← readShort
  if n < 0 then
    throw (.exception .illegalArgument)
  else
    return n.toNat

/-- `readBinary`. -/
def readFontFace (strings : StringStore) : Reader FontFace := do
  let nEntries ← readCapacity
  let entries ← times (readEntry strings) nEntries
  let nSources ← readCapacity
  let fontFaceSrcs ← times (readFontFaceSrc strings) nSources
  return ⟨some (entries.foldl (fun m p => m.put p.1 p.2) .empty), some fontFaceSrcs⟩

/-- What is read has a map and a list. -/
def FontFace.reread (f : FontFace) : FontFace :=
  ⟨some (f.descriptors.getD .empty), some (f.sources.getD [])⟩

/-! ## Rules and stylesheets -/

/-- `StyleOrigin`. -/
inductive StyleOrigin
  | userAgent
  | user
  | author
  | inline
  deriving DecidableEq, Repr

def StyleOrigin.name : StyleOrigin → String
  | userAgent => "USER_AGENT"
  | user => "USER"
  | author => "AUTHOR"
  | .inline => "INLINE"

section Stylesheets

variable (styleClassRegistry pseudoClassRegistry : Registry)

/-- `Rule`. -/
structure Rule where
  selectors : Option (List (RuleSelector styleClassRegistry pseudoClassRegistry))
  declarations : Option (List Declaration)
  serializedDecls : Option (List Byte)

/-- `Stylesheet`. -/
structure Stylesheet where
  url : Option String
  origin : Option StyleOrigin
  rules : List (Rule styleClassRegistry pseudoClassRegistry)
  fontFaces : List FontFace
  stringStore : StringStore

variable {styleClassRegistry pseudoClassRegistry}

/-- A declaration of a rule of a stylesheet with this url. -/
def readFixed (strings : StringStore) (url : Option String) : Reader Declaration := do
  let decl ← Declaration.readBinary strings
  match decl.fixUrl url with
  | .ok fixed => return fixed
  | .error e => throw e

/-- The declarations that have been serialized. -/
def readDeclarations (strings : StringStore) (url : Option String) : Reader (List Declaration) := do
  let nDeclarations ← readCapacity
  times (readFixed strings url) nDeclarations

/-- `getUnobservedDeclarationList` of a rule of the stylesheet. -/
def Rule.getUnobservedDeclarationList
    (stylesheet : Stylesheet styleClassRegistry pseudoClassRegistry)
    (rule : Rule styleClassRegistry pseudoClassRegistry) :
    Except Failure (Option (List Declaration)) :=
  match rule.declarations, rule.serializedDecls with
  | none, some serializedDecls =>
    match (readDeclarations stylesheet.stringStore stylesheet.url).run serializedDecls with
    | .ok (decls, _) => .ok (some decls)
    | .error .io => .ok (some [])
    | .error e => .error e
  | declarations, _ => .ok declarations

/-- Writes to a `ByteArrayOutputStream`, and then its size and its bytes. -/
def nested (w : Writer PUnit) : Writer PUnit := do
  let os ← get
  set { os with bytes := [] }
  w
  let bos ← get
  set { bos with bytes := os.bytes }
  if bos.bytes.length < 2 ^ 31 then do
    emit (writeInt bos.bytes.length)
    emit bos.bytes
  else throw (.exception .outOfMemory)

/-- What is written of the declarations. -/
def writeDeclarations : Option (List Declaration) → Writer PUnit
  | some decls => nested (do
      emit (writeShort decls.length)
      decls.forM Declaration.writeBinary)
  | none =>
    -- no declarations!
    emit (writeShort 0)

/-- `writeBinary` of a rule. -/
def Rule.writeBinary (stylesheet : Stylesheet styleClassRegistry pseudoClassRegistry)
    (rule : Rule styleClassRegistry pseudoClassRegistry) : Writer PUnit := do
  emit (writeShort (rule.selectors.getD []).length)
  (rule.selectors.getD []).forM RuleSelector.writeBinary
  match rule.getUnobservedDeclarationList stylesheet with
  | .ok decls => writeDeclarations decls
  | .error e => throw e

variable (styleClassRegistry pseudoClassRegistry)

/-- The bytes of the declarations. -/
def readSerializedDecls : Reader (List Byte) := do
  let nBytes ← readInt
  if nBytes < 0 then
    throw (.exception .negativeArraySize)
  else
    readFully nBytes.toNat

/-- `readBinary` of a rule. -/
def readRule (strings : StringStore) : Reader (Rule styleClassRegistry pseudoClassRegistry) := do
  let nSelectors ← readCapacity
  let selectors ← times (withFuel (fun fuel strings =>
    readSelectorWithin styleClassRegistry pseudoClassRegistry strings fuel) strings) nSelectors
  let buf ← readSerializedDecls
  return ⟨some selectors, none, some buf⟩

variable {styleClassRegistry pseudoClassRegistry}

/-- `writeBinary` of a stylesheet. -/
def Stylesheet.writeBinary (s : Stylesheet styleClassRegistry pseudoClassRegistry) :
    Writer PUnit := do
  match s.origin with
  | none => throw (.exception .nullPointer)
  | some origin => do
      writeStringShort (some origin.name)
      emit (writeShort s.rules.length)
      s.rules.forM (Rule.writeBinary s)
      emit (writeShort s.fontFaces.length)
      s.fontFaces.forM FontFace.writeBinary

/-- `StyleOrigin.valueOf`. -/
def originOf : Option String → Reader StyleOrigin
  | none => throw (.exception .nullPointer)
  | some name =>
    match [StyleOrigin.userAgent, .user, .author, .inline].find? (fun o => o.name = name) with
    | some o => pure o
    | none => throw (.exception .illegalArgument)

variable (styleClassRegistry pseudoClassRegistry)

/-- `readBinary` of a new stylesheet with this url. -/
def Stylesheet.readBinary (url : Option String) (strings : StringStore) :
    Reader (Stylesheet styleClassRegistry pseudoClassRegistry) := do
  let name ← readStringShort strings
  let origin ← originOf name
  let nRules ← readCapacity
  let persistedRules ← times (readRule styleClassRegistry pseudoClassRegistry strings) nRules
  let nFontFaces ← readShort
  let fontFaceList ← times (readFontFace strings) nFontFaces.toNat
  return ⟨url, some origin, persistedRules, fontFaceList, strings⟩

end Stylesheets

end JavaFx.Css
