/-
`SimpleSelector`, `CompoundSelector` and what they are matched against.

Style classes and pseudo-classes are names with an index. A registry gives a name
its index when it is first asked for it and keeps to it, and the model takes the
indices as given: `Registry.index`. A selector's sets are built by `add` in its
constructor and never changed, so their arrays are canonical; the structure says so.
A blank style class or pseudo-class has no index (`getStyleClass` throws), and
neither selectors nor nodes have any.

A node is looked at together with its ancestors, as the list of the nodes from
itself up.
-/
import Mathlib.Logic.Equiv.List
import JavaFx.Css.BitSetEquals

set_option autoImplicit false

namespace JavaFx.Css

/-- The static maps of `StyleClassSet` and of `PseudoClassState`. -/
structure Registry where
  index : String → ℕ
  name : ℕ → String
  name_index : ∀ s, name (index s) = s

theorem Registry.index_injective (r : Registry) {s t : String} (h : r.index s = r.index t) :
    s = t := by
  rw [← r.name_index s, h, r.name_index]

/-- Names can be numbered. -/
instance : Inhabited Registry where
  default :=
    { index := fun s => Encodable.encode (s.toList.map Char.toNat)
      name := fun n =>
        String.ofList (((Encodable.decode n : Option (List ℕ)).getD []).map Char.ofNat)
      name_index := by
        intro s
        rw [Encodable.encodek, Option.getD_some, List.map_map]
        have hchars : (Char.ofNat ∘ Char.toNat) = id := funext Char.ofNat_toNat
        rw [hchars, List.map_id, String.ofList_toList] }

/-- `NodeOrientation`. -/
inductive NodeOrientation
  | leftToRight
  | rightToLeft
  | inherit
  deriving DecidableEq, Repr

/-- `Combinator`. -/
inductive Combinator
  | child
  | descendant
  deriving DecidableEq, Repr

/-- The set with the elements of the list, added in turn. -/
def BitSet.ofList (elements : List ℕ) : BitSet :=
  elements.foldl (fun s t => (s.add (some t)).set) (BitSet.new false)

theorem BitSet.members_ofList {elements : List ℕ} {i : ℕ} :
    i ∈ members (BitSet.ofList elements).bits ↔ i ∈ elements := by
  have hfold : ∀ s : BitSet, i ∈ members
      (elements.foldl (fun s t => (s.add (some t)).set) s).bits ↔ i ∈ members s.bits ∨ i ∈ elements := by
    induction elements with
    | nil =>
      intro s
      simp
    | cons t elements ih =>
      intro s
      have hadd := (right_add (σ := fun _ : Unit => s) (k := ()) (t := t)).elements
      rw [List.foldl_cons, ih, List.mem_cons]
      have : i ∈ members (s.add (some t)).set.bits ↔ i = t ∨ i ∈ members s.bits := by
        have h := Set.ext_iff.mp hadd i
        rwa [meaning, Set.mem_insert_iff] at h
      tauto
  rw [BitSet.ofList, hfold]
  simp [BitSet.new]

theorem BitSet.canonical_ofList (elements : List ℕ) : Canonical (BitSet.ofList elements).bits := by
  have hfold : ∀ s : BitSet, Canonical s.bits →
      Canonical (elements.foldl (fun s t => (s.add (some t)).set) s).bits := by
    induction elements with
    | nil => exact fun s hs => hs
    | cons t elements ih => exact fun s hs => ih _ (hs.add t)
  exact hfold _ canonical_nil

/-! ## Simple selectors -/

/-- A simple selector, after its constructor. -/
structure SimpleSelector where
  name : String
  styleClassSet : BitSet
  id : String
  pseudoClassState : BitSet
  nodeOrientation : NodeOrientation
  styleClassSet_canonical : BitSet.Canonical styleClassSet.bits
  pseudoClassState_canonical : BitSet.Canonical pseudoClassState.bits

namespace SimpleSelector

variable (styleClassRegistry pseudoClassRegistry : Registry)

/-- `a` is a lower-case letter of `"dir(rtl)"`. -/
def equalIgnoreCase (a c : Char) : Bool :=
  c = a || c = a.toUpper || (a = 'i' && (c = 'ı' || c = 'İ'))

/-- `"dir(".regionMatches(true, 0, pclass, 0, 4)`. -/
def isDir (pclass : String) : Bool :=
  decide (4 ≤ pclass.length)
    && (List.zip "dir(".toList pclass.toList).all (fun c => equalIgnoreCase c.1 c.2)

/-- `"dir(rtl)".equalsIgnoreCase(pclass)`. -/
def isDirRtl (pclass : String) : Bool :=
  decide (pclass.length = 8)
    && (List.zip "dir(rtl)".toList pclass.toList).all (fun c => equalIgnoreCase c.1 c.2)

/-- The names that are neither `null` nor empty. -/
def givenNames (names : List (Option String)) : List String :=
  names.filterMap (fun n => n.filter (· ≠ ""))

/-- The last of the `dir()` pseudo-classes decides. -/
def orientationOf (pseudoClasses : List String) : NodeOrientation :=
  pseudoClasses.foldl
    (fun dir pclass =>
      if isDir pclass then (if isDirRtl pclass then .rightToLeft else .leftToRight) else dir)
    .inherit

/-- The constructor. -/
def new (name : Option String) (styleClasses pseudoClasses : List (Option String))
    (id : Option String) : SimpleSelector where
  name := name.getD "*"
  styleClassSet := .ofList ((givenNames styleClasses).map styleClassRegistry.index)
  id := id.getD ""
  pseudoClassState := .ofList (((givenNames pseudoClasses).filter (fun p => !isDir p)).map
    pseudoClassRegistry.index)
  nodeOrientation := orientationOf (givenNames pseudoClasses)
  styleClassSet_canonical := BitSet.canonical_ofList _
  pseudoClassState_canonical := BitSet.canonical_ofList _

variable (s : SimpleSelector)

/-- True if name is not a wildcard. -/
def matchOnName : Bool := s.name ≠ "" && s.name ≠ "*"

/-- True if id given. -/
def matchOnId : Bool := s.id ≠ ""

/-- True if style class given: `styleClassSet.size() > 0`. -/
def matchOnStyleClass : Bool := s.styleClassSet.bits.any (· ≠ 0#64)

end SimpleSelector

/-! ## Nodes -/

/-- What a `Styleable` is asked for. `orientations` are the node orientation and the
effective one, of a `Styleable` that is a `Node`. -/
structure Styleable where
  id : Option String
  typeSelector : String
  styleClass : List (Option String)
  pseudoClassStates : BitSet
  orientations : Option (NodeOrientation × NodeOrientation)

namespace SimpleSelector

variable (styleClassRegistry : Registry) (s : SimpleSelector)

/-- The functional pseudo-class `:dir()`; `INHERIT` applies to both orientations. -/
def orientationApplies (styleable : Styleable) : Bool :=
  match styleable.orientations with
  | none => true
  | some (orientation, effective) =>
    s.nodeOrientation = .inherit
      || (if orientation = .inherit then effective = s.nodeOrientation
          else orientation = s.nodeOrientation)

/-- The style classes of the node as a set. -/
def otherStyleClassSet (styleable : Styleable) : BitSet :=
  .ofList ((givenNames styleable.styleClass).map styleClassRegistry.index)

/-- `applies(Styleable)`. -/
def applies (styleable : Styleable) : Bool :=
  if !s.orientationApplies styleable then false
  else if s.matchOnId && !(styleable.id = some s.id) then false
  else if s.matchOnName && !(s.name = styleable.typeSelector) then false
  else if s.matchOnStyleClass
      && !(otherStyleClassSet styleClassRegistry styleable).containsAll (some s.styleClassSet.bits)
    then false
  else true

/-- `stateMatches(Styleable, Set)`; `states` is `none` for `null`. -/
def stateMatches (states : Option BitSet) : Bool :=
  match states with
  | some states => states.containsAll (some s.pseudoClassState.bits)
  | none => false

/-! ### What the two methods decide -/

open BitSet in
theorem matchOnStyleClass_iff : s.matchOnStyleClass = true ↔ members s.styleClassSet.bits ≠ ∅ := by
  rw [matchOnStyleClass, ne_eq, members_eq_empty_iff, not_forall, List.any_eq_true]
  constructor
  · rintro ⟨w, hw, hne⟩
    obtain ⟨n, hn, rfl⟩ := List.getElem_of_mem hw
    refine ⟨n, ?_⟩
    rw [word_of_getElem? (List.getElem?_eq_getElem hn)]
    simpa using hne
  · rintro ⟨n, hne⟩
    have hn := lt_length_of_word_ne hne
    rw [word_of_getElem? (List.getElem?_eq_getElem hn)] at hne
    exact ⟨_, List.getElem_mem hn, by simpa using hne⟩

open BitSet in
theorem stateMatches_iff {states : Option BitSet} : s.stateMatches states = true
    ↔ ∃ t ∈ states, members s.pseudoClassState.bits ⊆ members t.bits := by
  cases states with
  | none => simp [stateMatches]
  | some t => simp [stateMatches, s.pseudoClassState_canonical.containsAll]

end SimpleSelector

/-! ## Compound selectors -/

/-- A compound selector: there is one combinator less than there are selectors. -/
structure CompoundSelector where
  selectors : List SimpleSelector
  relationships : List Combinator
  length_eq : selectors.length = relationships.length + 1

/-- `Selector` and its two subclasses. -/
inductive Selector
  | simple (s : SimpleSelector)
  | compound (s : CompoundSelector)

end JavaFx.Css
