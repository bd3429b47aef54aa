/-
`SelectorPartitioning`: selectors filed by the id, the type and the style classes of
their last simple selector, and looked up by those of a node.

The keys of a map are strings or sets of style classes, and a set of style classes
is the same key as another when `BitSet.equals` says so, that is when they have one
array (`BitSet.equals_iff`). A slot points to the partition of its key, of which only
the key is read afterwards; the model has the key in its place.

An entry is a selector with the ordinal it is given; a selector is partitioned once.
A list `null` until the first entry is an empty list here.
-/
import JavaFx.Lib.Filing
import JavaFx.Css.Selector

set_option autoImplicit false

namespace JavaFx.Css

open JavaFx.Lib

/-- The simple selector for the node itself. -/
def Selector.rightmost : Selector → SimpleSelector
  | .simple s => s
  | .compound s => s.selectors.getLast (List.ne_nil_of_length_eq_add_one s.length_eq)

namespace SelectorPartitioning

/-- A selector and its ordinal. -/
structure Entry where
  ordinal : ℕ
  selector : Selector

/-- A `Slot`: the key of its partition, what it refers to, and the selectors that
match the path to it. -/
structure Slot (K R : Type) where
  key : K
  referents : R
  selectors : List Entry

/-- A `Partition`. -/
structure Partition (K S : Type) where
  key : K
  slots : S
  selectors : List Entry

/-- The slots by style classes. They refer to no further ones. -/
abbrev StyleClassSlots := AList (fun _ : List Word => Slot (List Word) Unit)

/-- The slots of the partition of an id, by type. -/
abbrev TypeSlots := AList (fun _ : String => Slot String StyleClassSlots)

end SelectorPartitioning

open SelectorPartitioning

/-- The three maps and the counter. -/
structure SelectorPartitioning where
  idMap : AList (fun _ : String => Partition String TypeSlots)
  typeMap : AList (fun _ : String => Partition String StyleClassSlots)
  styleClassMap : AList (fun _ : List Word => Partition (List Word) Unit)
  ordinal : ℕ

namespace SelectorPartitioning

/-- A new partitioning, and one after `reset`. -/
def new : SelectorPartitioning := ⟨∅, ∅, ∅, 0⟩

/-- `getPartition`, for its effect on the map. -/
def getPartition {K S : Type} [DecidableEq K] (id : K) (fresh : S)
    (map : AList (fun _ : K => Partition K S)) : AList (fun _ : K => Partition K S) :=
  if id ∈ map then map else map.insert id ⟨id, fresh, []⟩

/-- The map after `partition(id, map)`, which makes a partition where it makes a slot. -/
def partitionMap {K S V : Type} [DecidableEq K] (slots : AList (fun _ : K => V)) (id : K)
    (fresh : S) (map : AList (fun _ : K => Partition K S)) :
    AList (fun _ : K => Partition K S) :=
  if id ∈ slots then map else getPartition id fresh map

/-- `addSelector` of a slot. -/
def Slot.addSelector {K R : Type} (slot : Slot K R) (e : Entry) : Slot K R :=
  { slot with selectors := slot.selectors ++ [e] }

/-- `addSelector` of a partition. -/
def Partition.addSelector {K S : Type} (partition : Partition K S) (e : Entry) : Partition K S :=
  { partition with selectors := partition.selectors ++ [e] }

/-- `ID_BIT`, `TYPE_BIT` and `STYLECLASS_BIT` put together. -/
def bits (hasId hasType hasStyleClass : Bool) : ℕ :=
  (if hasId then 4 else 0) ||| (if hasType then 2 else 0) ||| (if hasStyleClass then 1 else 0)

/-- The selector is added under its style classes, in the slot `partition` finds or
makes for them. -/
def addStyled (slots : StyleClassSlots) (styleClass : List Word) (e : Entry) : StyleClassSlots :=
  update slots styleClass ⟨styleClass, (), []⟩ (·.addSelector e)

/-- The partition of an id. -/
def idPartition (p : SelectorPartitioning) (id : String) : Partition String TypeSlots :=
  (p.idMap.lookup id).getD ⟨id, ∅, []⟩

/-- The partition of a type. -/
def typePartition (p : SelectorPartitioning) (type : String) : Partition String StyleClassSlots :=
  (p.typeMap.lookup type).getD ⟨type, ∅, []⟩

/-- The slot for a type in the partition of an id. -/
def typeSlot (p : SelectorPartitioning) (id type : String) : Slot String StyleClassSlots :=
  ((p.idPartition id).slots.lookup type).getD ⟨type, ∅, []⟩

/-- The slot for a type is put into the partition of the id. A new one comes with a
partition of the type. -/
def putTypeSlot (p : SelectorPartitioning) (id type : String) (slot : Slot String StyleClassSlots) :
    SelectorPartitioning :=
  let partition := p.idPartition id
  { p with
    idMap := p.idMap.insert id { partition with slots := partition.slots.insert type slot }
    typeMap := partitionMap partition.slots type ∅ p.typeMap }

/-- The partition of a type is put into its map. -/
def putTypePartition (p : SelectorPartitioning) (type : String)
    (partition : Partition String StyleClassSlots) : SelectorPartitioning :=
  { p with typeMap := p.typeMap.insert type partition }

/-- `partition`. -/
def partition (p : SelectorPartitioning) (selector : Selector) : SelectorPartitioning :=
  let simpleSelector := selector.rightmost
  let id := simpleSelector.id
  let type := simpleSelector.name
  let styleClass := simpleSelector.styleClassSet.bits
  let c := bits (id ≠ "") (type ≠ "") simpleSelector.matchOnStyleClass
  let e : Entry := ⟨p.ordinal, selector⟩
  let p := { p with ordinal := p.ordinal + 1 }
  match c with
  | 7 =>
    let slot := p.typeSlot id type
    { p.putTypeSlot id type { slot with referents := addStyled slot.referents styleClass e } with
      styleClassMap := partitionMap slot.referents styleClass () p.styleClassMap }
  | 6 => p.putTypeSlot id type ((p.typeSlot id type).addSelector e)
  | 3 =>
    let partition := p.typePartition type
    { p.putTypePartition type
        { partition with slots := addStyled partition.slots styleClass e } with
      styleClassMap := partitionMap partition.slots styleClass () p.styleClassMap }
  | 2 => p.putTypePartition type ((p.typePartition type).addSelector e)
  -- a simple selector has a type
  | _ => p

/-! ## `match` -/

/-- The type and then the wildcard, or the wildcard alone. -/
def typeKeys (typePK : String) : List String :=
  if typePK ≠ "*" then [typePK, "*"] else [typePK]

/-- The loop over the slots by style classes. -/
def styledSelectors (order : IterationOrder) (slots : StyleClassSlots) (key : BitSet) :
    List Entry :=
  (order.values slots.entries).flatMap fun s =>
    if s.2.selectors.isEmpty then []
    else if key.containsAll (some s.2.key) then s.2.selectors else []

/-- The loop over the types for an id. -/
def idSelectors (order : IterationOrder) (p : SelectorPartitioning) (c : ℕ) (idKey typeKey : String)
    (key : BitSet) : List Entry :=
  match p.idMap.lookup idKey with
  | none => []
  | some partition =>
    partition.selectors ++ (typeKeys typeKey).flatMap fun typePK =>
      match partition.slots.lookup typePK with
      | none => []
      | some slot =>
        slot.selectors ++ if c &&& 1 = 1 then styledSelectors order slot.referents key else []

/-- The loop over the types. -/
def typeSelectors (order : IterationOrder) (p : SelectorPartitioning) (c : ℕ) (typeKey : String)
    (key : BitSet) : List Entry :=
  (typeKeys typeKey).flatMap fun typePK =>
    match p.typeMap.lookup typePK with
    | none => []
    | some partition =>
      partition.selectors ++ if c &&& 1 = 1 then styledSelectors order partition.slots key else []

/-- The loop of `match`; each pass takes a bit off `c`. -/
def matchLoop (order : IterationOrder) (p : SelectorPartitioning) (idKey typeKey : String)
    (key : BitSet) (c : ℕ) : List Entry :=
  if c = 7 ∨ c = 6 then
    idSelectors order p c idKey typeKey key ++ matchLoop order p idKey typeKey key (c - 4)
  -- a simple selector has a type, there is nothing to find without one
  else if c = 5 ∨ c = 4 then matchLoop order p idKey typeKey key (c - 4)
  else if c = 3 ∨ c = 2 then
    typeSelectors order p c typeKey key ++ matchLoop order p idKey typeKey key (c - 2)
  else if c = 1 then matchLoop order p idKey typeKey key (c - 1)
  else []
termination_by c

/-- `match`. -/
def matchSelectors (order : IterationOrder) (p : SelectorPartitioning)
    (selectorId selectorType : Option String) (selectorStyleClass : Option BitSet) : List Entry :=
  let hasId := selectorId.any (· ≠ "")
  let hasType := selectorType.any (· ≠ "")
  let hasStyleClass := selectorStyleClass.any (fun s => s.bits.any (· ≠ 0#64))
  (matchLoop order p (selectorId.getD "") (selectorType.getD "")
    (selectorStyleClass.getD (BitSet.new false)) (bits hasId hasType hasStyleClass)).mergeSort
    (fun o1 o2 => o1.ordinal ≤ o2.ordinal)

end SelectorPartitioning

end JavaFx.Css
