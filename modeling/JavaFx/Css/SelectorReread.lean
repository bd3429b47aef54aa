/-
Selectors are read back as they were written.

A simple selector is written as the names of its sets and rebuilt from them by its
constructor. The names come in the order of their indices and each of them once, and
the orientation is a name like `dir(rtl)` behind those of the pseudo-classes; none of
these names is taken for another thing than it was before.
-/
import JavaFx.Css.Stylesheet
import JavaFx.Css.ParsedValueReread

set_option autoImplicit false

namespace JavaFx.Css

open JavaFx.Lib

/-! ## The elements of a set -/

namespace BitSet

theorem length_elementsFrom (n : ℕ) (words : List Word) :
    (elementsFrom n words).length = (words.map bitCount).sum := by
  induction words generalizing n with
  | nil => rfl
  | cons word words ih =>
    rw [elementsFrom, List.length_append, List.length_map, ← List.countP_eq_length_filter, ih,
      List.map_cons, List.sum_cons, bitCount]

/-- The iterator runs as often as `size` says. -/
theorem length_elements (s : BitSet) : s.elements.length = s.size := length_elementsFrom 0 s.bits

theorem mem_elementsFrom {n i : ℕ} {words : List Word} : i ∈ elementsFrom n words
    ↔ 64 * n ≤ i ∧ (word words (i / 64 - n)).getLsbD (i % 64) = true := by
  induction words generalizing n with
  | nil => simp [elementsFrom, word]
  | cons w words ih =>
    rw [elementsFrom, List.mem_append, ih]
    have hword : i ∈ ((List.range 64).filter w.getLsbD).map (64 * n + ·)
        ↔ i / 64 = n ∧ w.getLsbD (i % 64) = true := by
      simp only [List.mem_map, List.mem_filter, List.mem_range]
      constructor
      · rintro ⟨j, ⟨hj, hbit⟩, rfl⟩
        have hdiv : (64 * n + j) / 64 = n := by omega
        have hmod : (64 * n + j) % 64 = j := by omega
        exact ⟨hdiv, by rwa [hmod]⟩
      · rintro ⟨rfl, hbit⟩
        exact ⟨i % 64, ⟨by omega, hbit⟩, by omega⟩
    rw [hword]
    by_cases hn : i / 64 = n
    · -- the bit is in the first of the words
      have hzero : i / 64 - n = 0 := by omega
      have hnot : ¬ 64 * (n + 1) ≤ i := by omega
      have hle : 64 * n ≤ i := by omega
      simp [hn, hnot, hle, word]
    · by_cases hlt : n < i / 64
      · obtain ⟨k, hk⟩ : ∃ k, i / 64 - n = k + 1 := ⟨i / 64 - n - 1, by omega⟩
        have hk' : i / 64 - (n + 1) = k := by omega
        have hle : 64 * n ≤ i ∧ 64 * (n + 1) ≤ i := by omega
        simp [hn, hk, hk', hle, word]
      · have hnot : ¬ 64 * n ≤ i ∧ ¬ 64 * (n + 1) ≤ i := by omega
        simp [hn, hnot]

theorem mem_elements {s : BitSet} {i : ℕ} : i ∈ s.elements ↔ i ∈ members s.bits := by
  rw [elements, mem_elementsFrom, mem_members]
  simp

theorem hasListeners_ofList (elements : List ℕ) :
    (BitSet.ofList elements).hasListeners = false := by
  have hfold : ∀ s : BitSet, s.hasListeners = false →
      (elements.foldl (fun s t => (s.add (some t)).set) s).hasListeners = false := by
    induction elements with
    | nil => exact fun s hs => hs
    | cons t elements ih => exact fun s hs => ih _ hs
  exact hfold _ rfl

/-- A set that is built from lists with the same elements is the same. -/
theorem ofList_eq {l₁ l₂ : List ℕ} (h : ∀ i, i ∈ l₁ ↔ i ∈ l₂) : ofList l₁ = ofList l₂ := by
  have hmembers : members (ofList l₁).bits = members (ofList l₂).bits := by
    ext i
    rw [members_ofList, members_ofList, h]
  have hbits := (canonical_ofList l₁).eq_of_members (canonical_ofList l₂) hmembers
  have hlisteners := (hasListeners_ofList l₁).trans (hasListeners_ofList l₂).symm
  cases h₁ : ofList l₁
  cases h₂ : ofList l₂
  rw [h₁, h₂] at hbits hlisteners
  simp only at hbits hlisteners
  rw [hbits, hlisteners]

/-- The elements of a set, added in turn, make the set. -/
theorem ofList_elements (l : List ℕ) : ofList (ofList l).elements = ofList l :=
  ofList_eq (fun i => by rw [mem_elements, members_ofList])

end BitSet

/-! ## The names -/

namespace SimpleSelector

theorem givenNames_some {names : List String} (h : ∀ n ∈ names, n ≠ "") :
    givenNames (names.map some) = names := by
  induction names with
  | nil => rfl
  | cons n names ih =>
    rw [List.forall_mem_cons] at h
    rw [givenNames, List.map_cons, List.filterMap_cons_some (b := n)]
    · exact congrArg (n :: ·) (ih h.2)
    · simp [h.1]

theorem ne_empty_of_mem_givenNames {names : List (Option String)} {n : String}
    (h : n ∈ givenNames names) : n ≠ "" := by
  rw [givenNames, List.mem_filterMap] at h
  obtain ⟨o, -, ho⟩ := h
  rw [Option.filter_eq_some_iff] at ho
  simpa using ho.2

variable {r : Registry}

/-- The names of the elements of a set are names that were added, and have their
indices. -/
theorem name_of_mem_elements {names : List String} {i : ℕ}
    (h : i ∈ (BitSet.ofList (names.map r.index)).elements) :
    r.name i ∈ names ∧ r.index (r.name i) = i := by
  rw [BitSet.mem_elements, BitSet.members_ofList, List.mem_map] at h
  obtain ⟨n, hn, rfl⟩ := h
  rw [r.name_index]
  exact ⟨hn, rfl⟩

theorem map_index_name {names : List String} :
    ((BitSet.ofList (names.map r.index)).elements.map r.name).map r.index
      = (BitSet.ofList (names.map r.index)).elements := by
  rw [List.map_map]
  have hid : ∀ i ∈ (BitSet.ofList (names.map r.index)).elements, (r.index ∘ r.name) i = i :=
    fun i hi => (name_of_mem_elements hi).2
  rw [List.map_congr_left hid, List.map_id']

variable {styleClassRegistry pseudoClassRegistry : Registry}

theorem isDir_orientationNames {dir : NodeOrientation} {n : String}
    (h : n ∈ orientationNames dir) : n ≠ "" ∧ isDir n = true := by
  cases dir with
  | rightToLeft =>
    rw [orientationNames, List.mem_singleton] at h
    subst h
    decide
  | leftToRight =>
    rw [orientationNames, List.mem_singleton] at h
    subst h
    decide
  | inherit => exact absurd h List.not_mem_nil

/-- The orientation is that of the last names. -/
theorem orientationOf_append {names : List String} (h : ∀ n ∈ names, isDir n = false)
    (dir : NodeOrientation) : orientationOf (names ++ orientationNames dir) = dir := by
  have hnames : orientationOf names = .inherit := by
    rw [orientationOf]
    generalize hstart : NodeOrientation.inherit = start
    clear hstart
    induction names with
    | nil => rfl
    | cons n names ih =>
      rw [List.forall_mem_cons] at h
      rw [List.foldl_cons, h.1]
      exact ih h.2
  rw [orientationOf] at hnames ⊢
  rw [List.foldl_append, hnames]
  cases dir with
  | rightToLeft => decide
  | leftToRight => decide
  | inherit => rfl

theorem eq_of_fields {s t : SimpleSelector} (hname : s.name = t.name)
    (hclasses : s.styleClassSet = t.styleClassSet) (hid : s.id = t.id)
    (hpseudo : s.pseudoClassState = t.pseudoClassState)
    (hdir : s.nodeOrientation = t.nodeOrientation) : s = t := by
  cases s
  cases t
  simp only at hname hclasses hid hpseudo hdir
  subst hname hclasses hid hpseudo hdir
  rfl

/-- A selector is the one that its constructor makes of the names that are written. -/
theorem new_written {s : SimpleSelector} (hs : ∃ name styleClasses pseudoClasses id, s
      = .new styleClassRegistry pseudoClassRegistry name styleClasses pseudoClasses id) :
    SimpleSelector.new styleClassRegistry pseudoClassRegistry (some s.name)
      ((s.styleClassSet.elements.map styleClassRegistry.name).map some)
      ((s.pseudoClassState.elements.map pseudoClassRegistry.name
        ++ orientationNames s.nodeOrientation).map some) (some s.id) = s := by
  obtain ⟨name, styleClasses, pseudoClasses, id, rfl⟩ := hs
  obtain ⟨classes, hclasses⟩ : ∃ l, l = givenNames styleClasses := ⟨_, rfl⟩
  obtain ⟨pseudo, hpseudo⟩ : ∃ l, l = (givenNames pseudoClasses).filter (fun p => !isDir p) :=
    ⟨_, rfl⟩
  obtain ⟨dir, hdir⟩ : ∃ d, d = orientationOf (givenNames pseudoClasses) := ⟨_, rfl⟩
  have hclassNames : givenNames (((BitSet.ofList (classes.map styleClassRegistry.index)).elements.map
        styleClassRegistry.name).map some)
      = (BitSet.ofList (classes.map styleClassRegistry.index)).elements.map
          styleClassRegistry.name := by
    apply givenNames_some
    intro n hn
    obtain ⟨i, hi, rfl⟩ := List.mem_map.mp hn
    apply @ne_empty_of_mem_givenNames styleClasses
    rw [← hclasses]
    exact (name_of_mem_elements hi).1
  -- the names of pseudo-classes that were added are not those of an orientation
  have hname : ∀ n ∈ (BitSet.ofList (pseudo.map pseudoClassRegistry.index)).elements.map
      pseudoClassRegistry.name, n ≠ "" ∧ isDir n = false := by
    intro n hn
    obtain ⟨i, hi, rfl⟩ := List.mem_map.mp hn
    have hmem := (name_of_mem_elements hi).1
    rw [hpseudo, List.mem_filter] at hmem
    exact ⟨ne_empty_of_mem_givenNames hmem.1, by simpa using hmem.2⟩
  have hpseudoNames : givenNames (((BitSet.ofList (pseudo.map pseudoClassRegistry.index)).elements.map
        pseudoClassRegistry.name ++ orientationNames dir).map some)
      = (BitSet.ofList (pseudo.map pseudoClassRegistry.index)).elements.map
          pseudoClassRegistry.name ++ orientationNames dir := by
    apply givenNames_some
    intro n hn
    obtain hn | hn := List.mem_append.mp hn
    · exact (hname n hn).1
    · exact (isDir_orientationNames hn).1
  have hfilter : ((BitSet.ofList (pseudo.map pseudoClassRegistry.index)).elements.map
        pseudoClassRegistry.name ++ orientationNames dir).filter (fun p => !isDir p)
      = (BitSet.ofList (pseudo.map pseudoClassRegistry.index)).elements.map
          pseudoClassRegistry.name := by
    rw [List.filter_append, List.filter_eq_self.mpr, List.filter_eq_nil_iff.mpr, List.append_nil]
    · exact fun n hn => by simp [(isDir_orientationNames hn).2]
    · exact fun n hn => by simp [(hname n hn).2]
  apply eq_of_fields
  · rfl
  · simp only [SimpleSelector.new, ← hclasses, hclassNames, map_index_name, BitSet.ofList_elements]
  · rfl
  · simp only [SimpleSelector.new, ← hpseudo, ← hdir, hpseudoNames, hfilter, map_index_name,
      BitSet.ofList_elements]
  · simp only [SimpleSelector.new, ← hpseudo, ← hdir, hpseudoNames]
    exact orientationOf_append (fun n hn => (hname n hn).2) dir

end SimpleSelector

/-! ## Simple selectors -/

variable {styleClassRegistry pseudoClassRegistry : Registry}

/-- The counts of a selector fit. -/
def ConstructedSelector.Fits (s : ConstructedSelector styleClassRegistry pseudoClassRegistry) :
    Prop :=
  s.selector.styleClassSet.size < 2 ^ 15
    ∧ s.selector.pseudoClassState.size
        + (orientationNames s.selector.nodeOrientation).length < 2 ^ 15

/-- A list of names, one by one. -/
theorem writes_names {γ : Type} (l : List γ) (name : γ → String) :
    Writes (l.forM fun x => writeStringShort (some (name x)))
      (fun _ strings => times (readStringShort strings) l.length)
      ((l.map name).map some) := by
  rw [List.map_map]
  exact writes_forM (r := fun _ => readStringShort) l (fun x _ => writes_stringShort _)

theorem times_append {α : Type} (r : Reader α) (m n : ℕ) :
    times r (m + n) = (do
      let l ← times r m
      let l' ← times r n
      return l ++ l') := by
  induction m with
  | zero => simp [times]
  | succ m ih => simp [Nat.succ_add, times, ih]

/-- Two lists that are read as one. -/
theorem writes_append {γ : Type} {n m : ℕ} {w w' : Writer PUnit} {r : ℕ → StringStore → Reader γ}
    {l l' : List γ} (hw : Writes w (fun fuel strings => times (r fuel strings) n) l)
    (hw' : Writes w' (fun fuel strings => times (r fuel strings) m) l') :
    Writes (w >>= fun _ => w') (fun fuel strings => times (r fuel strings) (n + m)) (l ++ l') := by
  have hboth : Writes (w >>= fun _ => w') (fun fuel strings => do
      let l ← times (r fuel strings) n
      let l' ← times (r fuel strings) m
      return l ++ l') (l ++ l') := hw.bind (hw'.map (fun _ _ => rfl))
  exact hboth.congr (fun _ _ _ => (times_append _ _ _).symm)

/-- A simple selector, behind its type. -/
def ConstructedSelector.writeNames
    (s : ConstructedSelector styleClassRegistry pseudoClassRegistry) : Writer PUnit := do
  writeStringShort (some s.selector.name)
  emit (writeShort s.selector.styleClassSet.size)
  s.selector.styleClassSet.elements.forM fun i =>
    writeStringShort (some (styleClassRegistry.name i))
  writeStringShort (some s.selector.id)
  emit (writeShort (s.selector.pseudoClassState.size
    + (orientationNames s.selector.nodeOrientation).length : ℕ))
  s.selector.pseudoClassState.elements.forM fun i =>
    writeStringShort (some (pseudoClassRegistry.name i))
  (orientationNames s.selector.nodeOrientation).forM fun name => writeStringShort (some name)

theorem writes_simpleSelector (s : ConstructedSelector styleClassRegistry pseudoClassRegistry)
    (h : s.Fits) : Writes s.writeNames
      (fun _ strings => readSimpleSelector styleClassRegistry pseudoClassRegistry strings) s := by
  have hclasses := writes_names s.selector.styleClassSet.elements styleClassRegistry.name
  have hpseudo := writes_names s.selector.pseudoClassState.elements pseudoClassRegistry.name
  have hdir := writes_names (orientationNames s.selector.nodeOrientation) id
  rw [BitSet.length_elements] at hclasses hpseudo
  have hstates := writes_append hpseudo hdir
  refine (writes_stringShort _).bind ((writes_emit (reads_short_nat h.1)).bind ?_)
  simp only [Int.toNat_natCast]
  refine hclasses.bind ((writes_stringShort _).bind ((writes_emit (reads_short_nat h.2)).bind ?_))
  simp only [Int.toNat_natCast]
  refine hstates.map (fun _ _ => ?_)
  have hnew := SimpleSelector.new_written s.constructed
  obtain ⟨selector, constructed⟩ := s
  rw [List.map_id, ← List.map_append]
  simp only [hnew]

/-! ## Selectors -/

/-- How a selector is read. -/
abbrev selectorReader (styleClassRegistry pseudoClassRegistry : Registry) (fuel : ℕ)
    (strings : StringStore) : Reader (RuleSelector styleClassRegistry pseudoClassRegistry) :=
  readSelectorWithin styleClassRegistry pseudoClassRegistry strings fuel

/-- A type, and a selector of it. -/
theorem writes_selectorOfType {type : ℤ} (hlow : -2 ^ 7 ≤ type) (hhigh : type < 2 ^ 7)
    {w : Writer PUnit} {s : RuleSelector styleClassRegistry pseudoClassRegistry}
    (hw : Writes w (fun fuel strings => readSelectorOfType styleClassRegistry pseudoClassRegistry
      strings (selectorReader styleClassRegistry pseudoClassRegistry fuel strings) type) s) :
    Writes (emit (writeByte type) >>= fun _ => w)
      (selectorReader styleClassRegistry pseudoClassRegistry) s := by
  have hpos : 0 < (writeByte type).length := by
    rw [writeByte, length_bigEndian]
    omega
  refine (Writes.descend (g := fun fuel strings type => readSelectorOfType styleClassRegistry
    pseudoClassRegistry strings (selectorReader styleClassRegistry pseudoClassRegistry fuel
      strings) type) (reads_byte hlow hhigh) hpos hw).congr ?_
  intro fuel strings hfuel
  cases fuel with
  | zero => omega
  | succ fuel => rfl

theorem writes_constructed (s : ConstructedSelector styleClassRegistry pseudoClassRegistry)
    (h : s.Fits) :
    Writes s.writeBinary (selectorReader styleClassRegistry pseudoClassRegistry) (.simple s) :=
  writes_selectorOfType (by omega) (by omega)
    ((writes_simpleSelector s h).map (fun _ _ => rfl))

/-- The counts of a selector fit. -/
def RuleSelector.Fits : RuleSelector styleClassRegistry pseudoClassRegistry → Prop
  | .simple s => s.Fits
  | .compound selectors relationships =>
    selectors.length < 2 ^ 15 ∧ (∀ s ∈ selectors, s.Fits) ∧ relationships.length < 2 ^ 15

theorem writes_combinator (c : Combinator) :
    Writes (emit (writeByte c.ordinal)) (fun _ _ => readCombinator) c := by
  cases c with
  | child => exact (writes_emit (reads_byte (by decide) (by decide))).map (fun _ _ => rfl)
  | descendant => exact (writes_emit (reads_byte (by decide) (by decide))).map (fun _ _ => rfl)

theorem writes_selector (s : RuleSelector styleClassRegistry pseudoClassRegistry) (h : s.Fits) :
    Writes s.writeBinary (selectorReader styleClassRegistry pseudoClassRegistry) s := by
  cases s with
  | simple s => exact writes_constructed s h
  | compound selectors relationships =>
    obtain ⟨hselectors, hfits, hrelationships⟩ := h
    have hparts := writes_forM (r := fun fuel strings =>
      selectorReader styleClassRegistry pseudoClassRegistry fuel strings >>= asSimple) selectors
      (f := id) (fun s hs => (writes_constructed s (hfits s hs)).map (fun _ _ => rfl))
    have hrelated := writes_forM (r := fun _ _ => readCombinator) relationships (f := id)
      (fun c _ => writes_combinator c)
    rw [List.map_id] at hparts hrelated
    apply writes_selectorOfType (by omega) (by omega)
    refine (writes_emit (reads_short_nat hselectors)).bind ?_
    simp only [Int.toNat_natCast]
    refine hparts.bind ((writes_emit (reads_short_nat hrelationships)).bind ?_)
    simp only [Int.toNat_natCast]
    exact hrelated.map (fun _ _ => rfl)

end JavaFx.Css
