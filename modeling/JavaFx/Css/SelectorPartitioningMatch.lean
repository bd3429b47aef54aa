/-
`SelectorPartitioning.match` finds what a scan of all selectors finds.

A selector is filed at a place, given by the id and the type of its last simple
selector, and there under its style classes. `Filed` says what a partitioning holds
after some selectors were partitioned: at every place and under every set of style
classes the entries that belong there, in order. `match` visits at most four places,
for the id or no id and for the type or the wildcard, and there the sets of style
classes that the node has, each once. So it collects, up to order, the entries a scan
would, and the ordinals restore the order.
-/
import JavaFx.Css.SelectorPartitioning

set_option autoImplicit false

namespace JavaFx.Css.SelectorPartitioning

open JavaFx.Lib BitSet

/-! ## The scan -/

instance (a b : List Word) : Decidable (members a ⊆ members b) :=
  decidable_of_iff (∀ n < a.length, word a n &&& word b n = word a n) <| by
    rw [members_subset_iff]
    constructor
    · intro h n
      by_cases hn : n < a.length
      · exact h n hn
      · rw [word_of_length_le (not_lt.mp hn), BitVec.zero_and]
    · exact fun h n _ => h n

/-- The last simple selector has no id or the node's, any type or the node's, and
style classes that are among the node's. -/
def Fits (id : Option String) (type : String) (styleClasses : List Word) (s : SimpleSelector) :
    Prop :=
  (s.id = "" ∨ id = some s.id) ∧ (s.name = "*" ∨ s.name = type)
    ∧ members s.styleClassSet.bits ⊆ members styleClasses

instance (id : Option String) (type : String) (styleClasses : List Word) (s : SimpleSelector) :
    Decidable (Fits id type styleClasses s) :=
  inferInstanceAs (Decidable (_ ∧ _ ∧ _))

/-- The entries of selectors partitioned in turn. -/
def entriesFrom (ordinal : ℕ) (selectors : List Selector) : List Entry :=
  (selectors.zipIdx ordinal).map (fun s => ⟨s.2, s.1⟩)

/-! ## Where the entries are -/

variable {p : SelectorPartitioning} {e : Entry} {entries mine : List Entry}
  {selectors : List Entry} {slots : StyleClassSlots} {selector : Selector}

/-- The id and the type an entry is filed under. -/
def Entry.place (e : Entry) : Option String × String :=
  (if e.selector.rightmost.id = "" then none else some e.selector.rightmost.id,
    e.selector.rightmost.name)

/-- The style classes it is filed under, if any. -/
def Entry.styleClasses (e : Entry) : Option (List Word) :=
  if e.selector.rightmost.matchOnStyleClass then some e.selector.rightmost.styleClassSet.bits
  else none

/-- The selectors and the slots at a place. -/
def found (p : SelectorPartitioning) : Option String × String → List Entry × StyleClassSlots
  | (some id, type) => ((p.typeSlot id type).selectors, (p.typeSlot id type).referents)
  | (none, type) => ((p.typePartition type).selectors, (p.typePartition type).slots)

/-- The entries of one place, by their style classes. -/
structure FiledAs (place : List Entry × StyleClassSlots) (mine : List Entry) : Prop where
  selectors : place.1 = mine.filter (fun e => e.styleClasses = none)
  styled : ∀ styleClass, ((place.2.lookup styleClass).elim [] Slot.selectors)
    = mine.filter (fun e => e.styleClasses = some styleClass)
  keys : ∀ styleClass, ∀ slot ∈ place.2.lookup styleClass, slot.key = styleClass

/-- What a partitioning holds after these entries. -/
structure Filed (p : SelectorPartitioning) (entries : List Entry) : Prop where
  places : ∀ place, FiledAs (p.found place) (entries.filter (fun e => e.place = place))
  ids : ∀ id, (p.idPartition id).selectors = []

theorem FiledAs.empty : FiledAs ([], ∅) [] := by
  refine ⟨rfl, fun styleClass => ?_, fun styleClass slot hslot => ?_⟩
  · rw [AList.lookup_empty]
    rfl
  · rw [AList.lookup_empty] at hslot
    exact absurd hslot (Option.not_mem_none slot)

theorem FiledAs.addSelector {place : List Entry × StyleClassSlots} (h : FiledAs place mine)
    (he : e.styleClasses = none) : FiledAs (place.1 ++ [e], place.2) (mine ++ [e]) := by
  refine ⟨?_, fun styleClass => ?_, h.keys⟩
  · rw [List.filter_append, ← h.selectors, List.filter_singleton, he, decide_eq_true rfl]
    rfl
  · rw [List.filter_append, h.styled, List.filter_singleton, he]
    simp

theorem FiledAs.addStyled {place : List Entry × StyleClassSlots} (h : FiledAs place mine)
    {styleClass : List Word} (he : e.styleClasses = some styleClass) :
    FiledAs (place.1, addStyled place.2 styleClass e) (mine ++ [e]) := by
  refine ⟨?_, fun styleClass' => ?_, fun styleClass' slot hslot => ?_⟩
  · rw [List.filter_append, ← h.selectors, List.filter_singleton, he]
    simp
  · rw [SelectorPartitioning.addStyled, lookup_update, List.filter_append, ← h.styled,
      List.filter_singleton, he]
    by_cases hsame : styleClass' = styleClass
    · rw [if_pos hsame, hsame, decide_eq_true rfl]
      cases place.2.lookup styleClass with
      | none => rfl
      | some slot => rfl
    · rw [if_neg hsame, decide_eq_false (fun h => hsame (Option.some.inj h).symm)]
      simp
  · rw [SelectorPartitioning.addStyled, lookup_update] at hslot
    split_ifs at hslot with hsame
    · have hslot := Option.some.inj hslot
      rw [← hslot, hsame]
      cases hlookup : place.2.lookup styleClass with
      | none => rfl
      | some slot' => exact h.keys styleClass slot' hlookup
    · exact h.keys styleClass' slot hslot

theorem found_new (place : Option String × String) : new.found place = ([], ∅) := by
  obtain ⟨id, type⟩ := place
  cases id with
  | none => rfl
  | some id => rfl

theorem filed_new : Filed new [] := by
  refine ⟨fun place => ?_, fun id => rfl⟩
  rw [found_new]
  exact FiledAs.empty

/-! ## `partition` -/

/-- The partitions that come with the slots are empty. -/
theorem lookup_partitionMap {K S V : Type} [DecidableEq K] (made : AList (fun _ : K => V))
    (id id' : K) (fresh : S) (map : AList (fun _ : K => Partition K S)) :
    ((partitionMap made id fresh map).lookup id').getD ⟨id', fresh, []⟩
      = (map.lookup id').getD ⟨id', fresh, []⟩ := by
  rw [partitionMap, getPartition]
  split_ifs with hmade hid
  · rfl
  · rfl
  · by_cases hsame : id' = id
    · rw [hsame, AList.lookup_insert, AList.lookup_eq_none.mpr hid]
      rfl
    · rw [AList.lookup_insert_ne hsame]

section Put

variable (p) (id type : String) (slot : Slot String StyleClassSlots)
  (partition : Partition String StyleClassSlots)

theorem idPartition_putTypeSlot (id' : String) : (p.putTypeSlot id type slot).idPartition id'
    = if id' = id then
        { p.idPartition id with slots := (p.idPartition id).slots.insert type slot }
      else p.idPartition id' := by
  rw [putTypeSlot, idPartition]
  dsimp only
  split_ifs with h
  · rw [h, AList.lookup_insert]
    rfl
  · rw [AList.lookup_insert_ne h]
    rfl

theorem typeSlot_putTypeSlot (id' type' : String) : (p.putTypeSlot id type slot).typeSlot id' type'
    = if (some id', type') = (some id, type) then slot else p.typeSlot id' type' := by
  rw [typeSlot, idPartition_putTypeSlot, typeSlot]
  by_cases hid : id' = id
  · rw [if_pos hid, hid]
    by_cases htype : type' = type
    · rw [htype, AList.lookup_insert, if_pos rfl]
      rfl
    · rw [AList.lookup_insert_ne htype, if_neg (fun h => htype (Prod.mk.inj h).2)]
  · rw [if_neg hid, if_neg (fun h => hid (Option.some.inj (Prod.mk.inj h).1))]

theorem typePartition_putTypeSlot (type' : String) :
    (p.putTypeSlot id type slot).typePartition type' = p.typePartition type' :=
  lookup_partitionMap _ _ _ _ _

theorem typePartition_putTypePartition (type' : String) :
    (p.putTypePartition type partition).typePartition type'
      = if type' = type then partition else p.typePartition type' := by
  rw [putTypePartition, typePartition]
  dsimp only
  split_ifs with h
  · rw [h, AList.lookup_insert]
    rfl
  · rw [AList.lookup_insert_ne h]
    rfl

theorem found_putTypeSlot (place : Option String × String) :
    (p.putTypeSlot id type slot).found place
      = if place = (some id, type) then (slot.selectors, slot.referents) else p.found place := by
  obtain ⟨_ | id', type'⟩ := place
  · have hne : ((none, type') : Option String × String) ≠ (some id, type) := by simp
    rw [found, typePartition_putTypeSlot, if_neg hne]
    rfl
  · rw [found, typeSlot_putTypeSlot]
    split_ifs with h
    · rfl
    · rfl

theorem found_putTypePartition (place : Option String × String) :
    (p.putTypePartition type partition).found place
      = if place = (none, type) then (partition.selectors, partition.slots)
        else p.found place := by
  obtain ⟨_ | id', type'⟩ := place
  · rw [found, typePartition_putTypePartition]
    by_cases h : type' = type
    · rw [if_pos h, if_pos (by rw [h])]
    · rw [if_neg h, if_neg (fun heq => h (Prod.mk.inj heq).2)]
      rfl
  · have hne : ((some id', type') : Option String × String) ≠ (none, type) := by simp
    rw [if_neg hne]
    rfl

end Put

/-- The selectors and slots of a place with the entry added. -/
def addEntry (place : List Entry × StyleClassSlots) (e : Entry) : List Entry × StyleClassSlots :=
  match e.styleClasses with
  | none => (place.1 ++ [e], place.2)
  | some styleClass => (place.1, addStyled place.2 styleClass e)

theorem FiledAs.addEntry {place : List Entry × StyleClassSlots} (h : FiledAs place mine)
    (e : Entry) : FiledAs (addEntry place e) (mine ++ [e]) := by
  rw [SelectorPartitioning.addEntry]
  cases he : e.styleClasses with
  | none => exact h.addSelector he
  | some styleClass => exact h.addStyled he

/-- Two partitionings with the same entries under ids and types. -/
def SameMaps (p q : SelectorPartitioning) : Prop := p.idMap = q.idMap ∧ p.typeMap = q.typeMap

theorem SameMaps.found {q : SelectorPartitioning} (h : SameMaps p q)
    (place : Option String × String) : p.found place = q.found place := by
  obtain ⟨_ | id, type⟩ := place
  · rw [SelectorPartitioning.found, SelectorPartitioning.found, typePartition, typePartition, h.2]
  · rw [SelectorPartitioning.found, SelectorPartitioning.found, typeSlot, typeSlot, idPartition,
      idPartition, h.1]

/-- What `partition` does to the two maps: a slot or a partition is put back with the
entry added to it. -/
theorem partition_cases (hname : selector.rightmost.name ≠ "")
    (he : e = ⟨p.ordinal, selector⟩) :
    (∃ id type slot, e.place = (some id, type)
      ∧ (slot.selectors, slot.referents) = addEntry (p.found e.place) e
      ∧ SameMaps (p.partition selector) (p.putTypeSlot id type slot))
    ∨ ∃ type partition, e.place = (none, type)
      ∧ (partition.selectors, partition.slots) = addEntry (p.found e.place) e
      ∧ SameMaps (p.partition selector) (p.putTypePartition type partition) := by
  have hc : bits (selector.rightmost.id ≠ "") (selector.rightmost.name ≠ "")
      selector.rightmost.matchOnStyleClass = (if selector.rightmost.id = "" then 2 else 6)
        + if selector.rightmost.matchOnStyleClass then 1 else 0 := by
    rw [bits]
    split_ifs <;> simp_all
  have hplace : e.place = (if selector.rightmost.id = "" then none
      else some selector.rightmost.id, selector.rightmost.name) := by
    rw [he]
    rfl
  have hstyle : e.styleClasses = if selector.rightmost.matchOnStyleClass
      then some selector.rightmost.styleClassSet.bits else none := by
    rw [he]
    rfl
  rw [addEntry, hstyle, hplace]
  by_cases hid : selector.rightmost.id = ""
  · right
    rw [if_pos hid] at hc ⊢
    cases hclass : selector.rightmost.matchOnStyleClass with
    | false =>
      rw [hclass] at hc
      refine ⟨_, (p.typePartition selector.rightmost.name).addSelector e, rfl, rfl, ?_⟩
      rw [partition]
      simp only [hclass, hc]
      rw [he]
      exact ⟨rfl, rfl⟩
    | true =>
      rw [hclass] at hc
      refine ⟨_, { p.typePartition selector.rightmost.name with slots := addStyled _ _ _ }, rfl,
        rfl, ?_⟩
      rw [partition]
      simp only [hclass, hc]
      rw [he]
      exact ⟨rfl, rfl⟩
  · left
    rw [if_neg hid] at hc ⊢
    cases hclass : selector.rightmost.matchOnStyleClass with
    | false =>
      rw [hclass] at hc
      refine ⟨_, _, (p.typeSlot selector.rightmost.id selector.rightmost.name).addSelector e, rfl,
        rfl, ?_⟩
      rw [partition]
      simp only [hclass, hc]
      rw [he]
      exact ⟨rfl, rfl⟩
    | true =>
      rw [hclass] at hc
      refine ⟨_, _, { p.typeSlot selector.rightmost.id selector.rightmost.name with
        referents := addStyled _ _ _ }, rfl, rfl, ?_⟩
      rw [partition]
      simp only [hclass, hc]
      rw [he]
      exact ⟨rfl, rfl⟩

/-- `partition` adds the selector at its place, and changes nothing elsewhere. -/
theorem Filed.partition (h : Filed p entries) (hname : selector.rightmost.name ≠ "") :
    Filed (p.partition selector) (entries ++ [⟨p.ordinal, selector⟩]) := by
  have hfound : ∀ place, (p.partition selector).found place
      = if place = Entry.place ⟨p.ordinal, selector⟩
        then addEntry (p.found place) ⟨p.ordinal, selector⟩ else p.found place := by
    intro place
    obtain ⟨id, type, slot, hplace, hslot, hsame⟩ | ⟨type, partition, hplace, hpartition, hsame⟩ :=
      partition_cases hname rfl
    · rw [hsame.found, found_putTypeSlot, ← hplace]
      split_ifs with heq
      · rw [heq, hslot]
      · rfl
    · rw [hsame.found, found_putTypePartition, ← hplace]
      split_ifs with heq
      · rw [heq, hpartition]
      · rfl
  refine ⟨fun place => ?_, fun id => ?_⟩
  · rw [hfound, List.filter_append, List.filter_singleton]
    by_cases hplace : place = Entry.place ⟨p.ordinal, selector⟩
    · rw [if_pos hplace, decide_eq_true hplace.symm]
      exact (h.places place).addEntry _
    · rw [if_neg hplace, decide_eq_false (fun heq => hplace heq.symm), Bool.cond_false,
        List.append_nil]
      exact h.places place
  · obtain ⟨id', type, slot, -, -, hsame⟩ | ⟨type, partition, -, -, hsame⟩ :=
      partition_cases (p := p) hname rfl
    · have hput := idPartition_putTypeSlot p id' type slot id
      rw [idPartition, hsame.1]
      refine (congrArg Partition.selectors hput).trans ?_
      split_ifs
      · exact h.ids id'
      · exact h.ids id
    · rw [idPartition, hsame.1]
      exact h.ids id

theorem ordinal_partition : (p.partition selector).ordinal = p.ordinal + 1 := by
  rw [SelectorPartitioning.partition]
  dsimp only
  split <;> rfl

/-- The run: after some selectors their entries are filed. -/
theorem filed_foldl {selectors : List Selector}
    (hnames : ∀ s ∈ selectors, s.rightmost.name ≠ "") (h : Filed p entries) :
    Filed (selectors.foldl SelectorPartitioning.partition p)
      (entries ++ entriesFrom p.ordinal selectors) := by
  induction selectors generalizing p entries with
  | nil =>
    rw [entriesFrom, List.zipIdx_nil, List.map_nil, List.append_nil]
    exact h
  | cons selector selectors ih =>
    have hrest := ih (fun s hs => hnames s (List.mem_cons_of_mem _ hs))
      (h.partition (hnames selector List.mem_cons_self))
    rw [List.foldl_cons, entriesFrom, List.zipIdx_cons, List.map_cons]
    rw [ordinal_partition, List.append_assoc] at hrest
    exact hrest

/-! ## `match` -/

section Match

variable (order : IterationOrder) (key : BitSet)

/-- What is taken from one place. -/
def collect (styled : Bool) (place : List Entry × StyleClassSlots) : List Entry :=
  place.1 ++ if styled then styledSelectors order place.2 key else []

/-- The places visited. -/
def visited (hasId : Bool) (id type : String) : List (Option String × String) :=
  (if hasId then (typeKeys type).map (fun t => (some id, t)) else [])
    ++ (typeKeys type).map (fun t => (none, t))

theorem collect_empty (styled : Bool) : collect order key styled ([], ∅) = [] := by
  have hvalues : order.values (∅ : StyleClassSlots).entries = [] :=
    (order.perm _).eq_nil
  rw [collect, styledSelectors, hvalues]
  cases styled <;> rfl

theorem idSelectors_eq (h : Filed p entries) (styled : Bool) (id type : String) :
    idSelectors order p (if styled then 7 else 6) id type key
      = (typeKeys type).flatMap (fun t => collect order key styled (p.found (some id, t))) := by
  have hids := h.ids id
  rw [idPartition] at hids
  simp only [found, typeSlot, idPartition]
  rw [idSelectors]
  cases hlookup : p.idMap.lookup id with
  | none =>
    simp [collect_empty]
  | some partition =>
    rw [hlookup, Option.getD_some] at hids
    dsimp only
    rw [hids, List.nil_append]
    refine List.flatMap_congr fun t _ => ?_
    rw [Option.getD_some]
    cases partition.slots.lookup t with
    | none => exact (collect_empty order key styled).symm
    | some slot => cases styled <;> rfl

theorem typeSelectors_eq (styled : Bool) (type : String) :
    typeSelectors order p (if styled then 3 else 2) type key
      = (typeKeys type).flatMap (fun t => collect order key styled (p.found (none, t))) := by
  rw [typeSelectors]
  refine List.flatMap_congr fun t _ => ?_
  rw [found, typePartition]
  cases p.typeMap.lookup t with
  | none => exact (collect_empty order key styled).symm
  | some partition => cases styled <;> rfl

/-- The loop visits the places in turn. -/
theorem matchLoop_eq (h : Filed p entries) (hasId styled : Bool) (id type : String) :
    matchLoop order p id type key (bits hasId true styled)
      = (visited hasId id type).flatMap (fun place => collect order key styled (p.found place)) := by
  have hzero : matchLoop order p id type key 0 = [] := by
    rw [matchLoop]
    rfl
  have htypes : matchLoop order p id type key (if styled then 3 else 2)
      = (typeKeys type).flatMap (fun t => collect order key styled (p.found (none, t))) := by
    rw [← typeSelectors_eq]
    cases styled with
    | false =>
      rw [matchLoop]
      simp [hzero]
    | true =>
      have hone : matchLoop order p id type key 1 = [] := by
        rw [matchLoop]
        simp [hzero]
      rw [matchLoop]
      simp [hone]
  rw [visited, List.flatMap_append, List.flatMap_map, ← htypes]
  cases hasId with
  | false => cases styled <;> rfl
  | true =>
    rw [if_pos rfl, List.flatMap_map, ← idSelectors_eq order key h]
    cases styled with
    | false =>
      rw [show bits true true false = 6 from rfl, matchLoop]
      simp
    | true =>
      rw [show bits true true true = 7 from rfl, matchLoop]
      simp

end Match

/-- An entry without style classes. -/
theorem Entry.styleClasses_eq_none :
    e.styleClasses = none ↔ members e.selector.rightmost.styleClassSet.bits = ∅ := by
  have hmatch := e.selector.rightmost.matchOnStyleClass_iff
  rw [Entry.styleClasses]
  split_ifs with h
  · simp only [false_iff]
    exact hmatch.mp h
  · simp only [true_iff]
    exact not_not.mp (fun hne => h (hmatch.mpr hne))

theorem Entry.styleClasses_eq_some {styleClass : List Word} (h : e.styleClasses = some styleClass) :
    e.selector.rightmost.styleClassSet.bits = styleClass := by
  rw [Entry.styleClasses] at h
  split_ifs at h
  exact Option.some.inj h

/-- The sets of style classes visited at a place, after the entries without any. -/
def visitedClasses (order : IterationOrder) (key : BitSet) (slots : StyleClassSlots) :
    List (Option (List Word)) :=
  none :: ((order.values slots.entries).filter (fun s => key.containsAll (some s.2.key))).map
    (fun s => some s.1)

section Match

variable (order : IterationOrder) (key : BitSet) {place : List Entry × StyleClassSlots}

theorem nodup_visitedClasses (slots : StyleClassSlots) :
    (visitedClasses order key slots).Nodup := by
  have hkeys : ((order.values slots.entries).map (fun s => some s.1)).Nodup := by
    rw [((order.perm slots.entries).map _).nodup_iff]
    have hnodup := slots.keys_nodup.map (Option.some_injective (List Word))
    rwa [AList.keys, List.keys, List.map_map] at hnodup
  refine List.nodup_cons.mpr ⟨?_, hkeys.sublist (List.filter_sublist.map _)⟩
  simp

/-- The slots visited at a place hold the entries with these style classes. -/
theorem collect_eq (h : FiledAs place mine) : collect order key true place
    = (visitedClasses order key place.2).flatMap
        (fun styleClass => mine.filter (fun e => e.styleClasses = styleClass)) := by
  rw [collect, if_pos rfl, visitedClasses, List.flatMap_cons, ← h.selectors, styledSelectors,
    List.flatMap_map]
  congr 1
  have hslot : ∀ s ∈ order.values place.2.entries,
      s.2.selectors = mine.filter (fun e => e.styleClasses = some s.1) := by
    intro s hs
    have hlookup : place.2.lookup s.1 = some s.2 :=
      AList.mem_lookup_iff.mpr ((order.perm _).mem_iff.mp hs)
    rw [← h.styled, hlookup]
    rfl
  generalize order.values place.2.entries = slots at hslot ⊢
  induction slots with
  | nil => rfl
  | cons s slots ih =>
    have hs := hslot s List.mem_cons_self
    rw [List.flatMap_cons, ih (fun s hs => hslot s (List.mem_cons_of_mem _ hs)),
      List.filter_cons]
    split_ifs with hempty hcontains
    · rw [List.flatMap_cons, ← hs, List.isEmpty_iff.mp hempty]
    · rfl
    · rw [List.flatMap_cons, ← hs]
    · rfl

/-- From one place the entries are collected whose style classes the node has. -/
theorem collect_perm (h : FiledAs place mine) :
    (collect order key (key.bits.any (· ≠ 0#64)) place).Perm (mine.filter
      (fun e => members e.selector.rightmost.styleClassSet.bits ⊆ members key.bits)) := by
  cases hstyled : key.bits.any (· ≠ 0#64) with
  | false =>
    have hempty : members key.bits = ∅ := by
      rw [members_eq_empty_iff]
      intro n
      by_contra hne
      have hn := List.getElem?_eq_getElem (lt_length_of_word_ne hne)
      rw [word_of_getElem? hn] at hne
      rw [List.any_eq_false] at hstyled
      exact hstyled _ (List.mem_of_getElem? hn) (decide_eq_true hne)
    rw [collect, if_neg Bool.false_ne_true, List.append_nil, h.selectors]
    refine List.Perm.of_eq (List.filter_congr fun e _ => ?_)
    rw [decide_eq_decide, Entry.styleClasses_eq_none, hempty, Set.subset_empty_iff]
  | true =>
    rw [collect_eq order key h]
    refine (flatMap_filter_key_perm Entry.styleClasses mine
      (nodup_visitedClasses order key place.2)).trans (List.Perm.of_eq ?_)
    refine List.filter_congr fun e he => ?_
    rw [decide_eq_decide, visitedClasses, List.mem_cons]
    cases hclass : e.styleClasses with
    | none =>
      rw [Entry.styleClasses_eq_none.mp hclass]
      simp
    | some styleClass =>
      -- the slot for the style classes of an entry is there
      have hmem : e ∈ mine.filter (fun e => e.styleClasses = some styleClass) :=
        List.mem_filter.mpr ⟨he, decide_eq_true hclass⟩
      rw [← h.styled] at hmem
      cases hlookup : place.2.lookup styleClass with
      | none =>
        rw [hlookup] at hmem
        exact absurd hmem List.not_mem_nil
      | some slot =>
        have hentry : ⟨styleClass, slot⟩ ∈ order.values place.2.entries :=
          (order.perm _).mem_iff.mpr (AList.mem_lookup_iff.mp hlookup)
        have hbits := Entry.styleClasses_eq_some hclass
        have hcontains := e.selector.rightmost.styleClassSet_canonical.containsAll (s := key)
        rw [← hcontains, hbits]
        simp only [reduceCtorEq, List.mem_map, List.mem_filter, Option.some.injEq, false_or]
        constructor
        · rintro ⟨s, ⟨hs, hkey⟩, rfl⟩
          have hs := AList.mem_lookup_iff.mpr ((order.perm _).mem_iff.mp hs)
          rwa [h.keys _ _ hs] at hkey
        · intro hcontains
          refine ⟨⟨styleClass, slot⟩, ⟨hentry, ?_⟩, rfl⟩
          rwa [h.keys _ _ hlookup]

end Match

theorem mem_typeKeys {t type : String} : t ∈ typeKeys type ↔ t = "*" ∨ t = type := by
  rw [typeKeys]
  split_ifs with h
  · simp [or_comm]
  · rw [not_not.mp h]
    simp

theorem mem_visited {hasId : Bool} {id type : String} {place : Option String × String} :
    place ∈ visited hasId id type
    ↔ (place.1 = none ∨ hasId = true ∧ place.1 = some id)
      ∧ (place.2 = "*" ∨ place.2 = type) := by
  obtain ⟨i, t⟩ := place
  rw [visited, List.mem_append, ← mem_typeKeys]
  cases hasId with
  | false => simp [eq_comm, and_comm]
  | true =>
    simp only [if_pos, List.mem_map, Prod.mk.injEq, exists_eq_right_right, true_and]
    constructor
    · rintro (⟨ht, hi⟩ | ⟨ht, hi⟩)
      · exact ⟨.inr hi.symm, ht⟩
      · exact ⟨.inl hi.symm, ht⟩
    · rintro ⟨hi | hi, ht⟩
      · exact .inr ⟨ht, hi.symm⟩
      · exact .inl ⟨ht, hi.symm⟩

theorem nodup_visited (hasId : Bool) (id type : String) : (visited hasId id type).Nodup := by
  have htypes : (typeKeys type).Nodup := by
    rw [typeKeys]
    split_ifs with h
    · simpa using h
    · exact List.nodup_singleton type
  have hmap : ∀ i : Option String, ((typeKeys type).map (fun t => (i, t))).Nodup :=
    fun i => htypes.map (fun _ _ h => (Prod.mk.inj h).2)
  rw [visited]
  cases hasId with
  | false => exact hmap none
  | true =>
    refine List.Nodup.append (hmap (some id)) (hmap none) ?_
    intro place hid hnone
    obtain ⟨t, -, rfl⟩ := List.mem_map.mp hid
    obtain ⟨t', -, h⟩ := List.mem_map.mp hnone
    exact nomatch (Prod.mk.inj h).1

/-- The place of an entry is visited if the entry fits the id and the type. -/
theorem place_mem_visited {id : Option String} {type : String} :
    e.place ∈ visited (id.any (· ≠ "")) (id.getD "") type
    ↔ (e.selector.rightmost.id = "" ∨ id = some e.selector.rightmost.id)
      ∧ (e.selector.rightmost.name = "*" ∨ e.selector.rightmost.name = type) := by
  rw [mem_visited, Entry.place]
  dsimp only
  refine and_congr_left' ?_
  split_ifs with hid
  · simp [hid]
  · cases id with
    | none => simp [hid]
    | some i =>
      simp only [false_or, Option.any_some, decide_eq_true_eq, Option.getD_some,
        Option.some.injEq, hid]
      constructor
      · exact fun h => h.2.symm
      · intro h
        rw [h]
        exact ⟨hid, rfl⟩

theorem pairwise_entriesFrom (n : ℕ) (selectors : List Selector) :
    (entriesFrom n selectors).Pairwise (fun a b => a.ordinal < b.ordinal) := by
  induction selectors generalizing n with
  | nil => exact List.Pairwise.nil
  | cons selector selectors ih =>
    rw [entriesFrom, List.zipIdx_cons, List.map_cons]
    refine List.pairwise_cons.mpr ⟨fun e he => ?_, ih (n + 1)⟩
    obtain ⟨s, hs, rfl⟩ := List.mem_map.mp he
    exact (List.mem_zipIdx hs).1

/-- **`match` returns the entries that fit, in the order they were partitioned.** -/
theorem match_eq_scan (order : IterationOrder) (selectors : List Selector)
    (hnames : ∀ s ∈ selectors, s.rightmost.name ≠ "") (id : Option String) (type : String)
    (htype : type ≠ "") (styleClass : Option BitSet) :
    matchSelectors order (selectors.foldl SelectorPartitioning.partition new) id (some type)
        styleClass
      = (entriesFrom 0 selectors).filter (fun e =>
          Fits id type (styleClass.elim [] BitSet.bits) e.selector.rightmost) := by
  have hfiled := filed_foldl hnames filed_new
  rw [List.nil_append] at hfiled
  generalize hp : selectors.foldl SelectorPartitioning.partition new = p at hfiled ⊢
  change Filed p (entriesFrom 0 selectors) at hfiled
  -- the set of the node, empty if there is none
  obtain ⟨key, hkey, hbits⟩ : ∃ key : BitSet, styleClass.getD (BitSet.new false) = key
      ∧ styleClass.elim [] BitSet.bits = key.bits := by
    cases styleClass with
    | none => exact ⟨_, rfl, rfl⟩
    | some s => exact ⟨s, rfl, rfl⟩
  have hstyled : styleClass.any (fun s => s.bits.any (· ≠ 0#64)) = key.bits.any (· ≠ 0#64) := by
    rw [← hkey]
    cases styleClass with
    | none => rfl
    | some s => rfl
  have hhasType : (some type).any (· ≠ "") = true := decide_eq_true htype
  rw [matchSelectors, hhasType, hstyled, hkey, hbits, Option.getD_some,
    matchLoop_eq order key hfiled]
  apply mergeSort_eq_of_perm
  · -- each place by itself, then all the places visited
    have hplaces : ∀ place ∈ visited (id.any (· ≠ "")) (id.getD "") type,
        (collect order key (key.bits.any (· ≠ 0#64)) (p.found place)).Perm
          (((entriesFrom 0 selectors).filter (fun e =>
            members e.selector.rightmost.styleClassSet.bits ⊆ members key.bits)).filter
              (fun e => e.place = place)) := by
      intro place _
      refine (collect_perm order key (hfiled.places place)).trans (List.Perm.of_eq ?_)
      rw [List.filter_filter, List.filter_filter]
      exact List.filter_congr fun e _ => Bool.and_comm _ _
    refine (List.Perm.flatMap_left _ hplaces).trans ?_
    refine (flatMap_filter_key_perm Entry.place _ (nodup_visited _ _ _)).trans (List.Perm.of_eq ?_)
    rw [List.filter_filter]
    refine List.filter_congr fun e _ => ?_
    rw [← Bool.decide_and, decide_eq_decide, place_mem_visited, and_assoc]
    rfl
  · exact (pairwise_entriesFrom 0 selectors).filter _

/-- `Label`, `.a#ok` and `Button` on a `Label` with the id `ok` and the class `a`. -/
theorem match_eq_scan_label :
    let simple (name id : String) (styleClasses : List ℕ) : Selector :=
      .simple { name, styleClassSet := .ofList styleClasses, id, pseudoClassState := .ofList []
                nodeOrientation := .inherit
                styleClassSet_canonical := BitSet.canonical_ofList _
                pseudoClassState_canonical := BitSet.canonical_ofList _ }
    (matchSelectors default
      ([simple "Label" "" [], simple "*" "ok" [0], simple "Button" "" []].foldl
        SelectorPartitioning.partition new) (some "ok") (some "Label")
      (some (.ofList [0]))).map Entry.ordinal = [0, 1] := by
  intro simple
  rw [match_eq_scan default [simple "Label" "" [], simple "*" "ok" [0], simple "Button" "" []]
    (by simp [simple, Selector.rightmost]) (some "ok") "Label" (by decide) (some (.ofList [0]))]
  decide

end JavaFx.Css.SelectorPartitioning
