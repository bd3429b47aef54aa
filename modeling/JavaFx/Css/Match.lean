/-
`Match`: the specificity of a selector against the order of CSS.

The standard compares the number of ids, then the number of style classes, then the
number of pseudo-classes. `Match` packs the three counts into one `int`, the ids above
bit 8, the style classes from bit 4 and the pseudo-classes from bit 0, and compares the
numbers. A count of 16 runs into the next field, 2 ^ 23 ids run into the sign, and for a
compound selector `:dir()` is not counted, although it is for a simple one.

`specificity_lexicographic_iff` says which selectors this affects: exactly the ones that
do not fit, and every one of them is misplaced against some selector that does.
-/
import JavaFx.Css.BitSetOperations
import JavaFx.Css.Stylesheet
import Mathlib.Data.Prod.Lex
import Mathlib.Data.Set.Card
import Mathlib.Data.Set.Finite.Lattice

set_option autoImplicit false

namespace JavaFx.Css

namespace BitSet

/-! ## The size of a set -/

theorem finite_members (bits : List Word) : (members bits).Finite := by
  apply (Set.finite_lt_nat (64 * bits.length)).subset
  intro i hi
  have hword : word bits (i / 64) ≠ 0#64 := by
    intro hzero
    rw [mem_members, hzero] at hi
    simp at hi
  have hlt := lt_length_of_word_ne hword
  change i < 64 * bits.length
  omega

/-- The elements in the first word, and those in the words after it. -/
theorem members_cons (w : Word) (bits : List Word) :
    members (w :: bits)
      = ↑((List.range 64).filter (fun k => w.getLsbD k)).toFinset ∪ (64 + ·) '' members bits := by
  ext i
  simp only [Set.mem_union, Finset.mem_coe, List.mem_toFinset, List.mem_filter, List.mem_range,
    Set.mem_image, mem_members]
  rcases Nat.lt_or_ge i 64 with hi | hi
  · rw [Nat.div_eq_of_lt hi, Nat.mod_eq_of_lt hi]
    constructor
    · exact fun h => Or.inl ⟨hi, h⟩
    · rintro (h | ⟨j, -, rfl⟩)
      · exact h.2
      · omega
  · obtain ⟨j, rfl⟩ := Nat.exists_eq_add_of_le hi
    have hdiv : (64 + j) / 64 = j / 64 + 1 := by omega
    have hmod : (64 + j) % 64 = j % 64 := by omega
    rw [hdiv, hmod, word, List.getD_cons_succ]
    constructor
    · exact fun h => Or.inr ⟨j, h, rfl⟩
    · rintro (h | ⟨k, hk, hkj⟩)
      · omega
      · rwa [← Nat.add_left_cancel hkj]

theorem ncard_members_cons (w : Word) (bits : List Word) :
    (members (w :: bits)).ncard = bitCount w + (members bits).ncard := by
  have hdisjoint : Disjoint (↑((List.range 64).filter (fun k => w.getLsbD k)).toFinset : Set ℕ)
      ((64 + ·) '' members bits) := by
    rw [Set.disjoint_left]
    rintro _ hleft ⟨j, -, rfl⟩
    simp at hleft
  rw [members_cons, Set.ncard_union_eq hdisjoint (Finset.finite_toSet _)
    ((finite_members bits).image _), Set.ncard_image_of_injective _ (add_right_injective 64),
    Set.ncard_coe_finset, List.toFinset_card_of_nodup (List.nodup_range.filter _), bitCount,
    List.countP_eq_length_filter]

/-- The size is the number of elements. -/
theorem size_eq (s : BitSet) : s.size = (members s.bits).ncard := by
  obtain ⟨bits, hasListeners⟩ := s
  induction bits with
  | nil => simp [size]
  | cons w bits ih =>
    rw [ncard_members_cons, ← ih, size, List.map_cons, List.sum_cons, size]

theorem members_addAll (s : BitSet) (b : List Word) :
    members (s.addAll (some b)).set.bits = members s.bits ∪ members b := by
  obtain ⟨m, union, bitsAdded, hm, hunion, -, haddAll⟩ := addAll_spec (s := s) (b := b)
  rw [haddAll]
  cases m with
  | true => exact hunion
  | false =>
    have hsub : members b ⊆ members s.bits := by
      by_contra hnot
      exact Bool.false_ne_true (hm.mpr (Or.inr hnot))
    exact (Set.union_eq_left.mpr hsub).symm

end BitSet

/-! ## Matches -/

/-- `Match`. -/
structure Match where
  selector : Selector
  pseudoClasses : Option BitSet
  idCount : BitVec 32
  styleClassCount : BitVec 32

namespace Match

/-- The pseudo-classes that are counted: `:dir()` is one of them, on a simple selector. -/
def nPseudoClasses (m : Match) : BitVec 32 :=
  let nPseudoClasses := match m.pseudoClasses with
    | some pseudoClasses => BitVec.ofNat 32 pseudoClasses.size
    | none => 0
  match m.selector with
  | .simple simple =>
    if simple.nodeOrientation ≠ .inherit then nPseudoClasses + 1 else nPseudoClasses
  | .compound _ => nPseudoClasses

/-- `specificity`. -/
def specificity (m : Match) : BitVec 32 :=
  (m.idCount <<< 8) ||| (m.styleClassCount <<< 4) ||| m.nPseudoClasses

/-- `compareTo`. -/
def compareTo (m o : Match) : ℤ := (m.specificity - o.specificity).toInt

end Match

/-- `createMatch`. -/
def SimpleSelector.createMatch (s : SimpleSelector) : Match where
  selector := .simple s
  pseudoClasses := some s.pseudoClassState
  idCount := if s.matchOnId then 1 else 0
  styleClassCount := BitVec.ofNat 32 s.styleClassSet.size

/-- What the loop of `createMatch` collects. -/
structure Totals where
  allPseudoClasses : BitSet
  idCount : BitVec 32
  styleClassCount : BitVec 32

/-- One round of the loop. -/
def Totals.add (t : Totals) (m : Match) : Totals where
  allPseudoClasses := (t.allPseudoClasses.addAll (m.pseudoClasses.map BitSet.bits)).set
  idCount := t.idCount + m.idCount
  styleClassCount := t.styleClassCount + m.styleClassCount

/-- `createMatch`. -/
def CompoundSelector.createMatch (sel : CompoundSelector) : Match :=
  let t : Totals := sel.selectors.foldl (fun t s => t.add s.createMatch) ⟨.new false, 0, 0⟩
  { selector := .compound sel
    pseudoClasses := some t.allPseudoClasses
    idCount := t.idCount
    styleClassCount := t.styleClassCount }

namespace Selector

/-- `createMatch`. -/
def createMatch : Selector → Match
  | .simple s => s.createMatch
  | .compound s => s.createMatch

/-! ## The counts of the standard -/

/-- The simple selectors of a selector. -/
def simples : Selector → List SimpleSelector
  | .simple s => [s]
  | .compound s => s.selectors

def ids (sel : Selector) : ℕ := (sel.simples.filter SimpleSelector.matchOnId).length

noncomputable def styleClasses (sel : Selector) : ℕ :=
  (sel.simples.map (fun s => (BitSet.members s.styleClassSet.bits).ncard)).sum

/-- The pseudo-classes of a selector, those of `:dir()` by their orientation. -/
def pseudoClasses (sel : Selector) : Set (ℕ ⊕ NodeOrientation) :=
  {p | ∃ s ∈ sel.simples, Sum.elim (· ∈ BitSet.members s.pseudoClassState.bits)
    (fun o => o ≠ .inherit ∧ s.nodeOrientation = o) p}

/-- Ids, style classes and pseudo-classes, compared in this order. -/
noncomputable def counts (sel : Selector) : ℕ ×ₗ ℕ ×ₗ ℕ :=
  toLex (sel.ids, toLex (sel.styleClasses, sel.pseudoClasses.ncard))

/-- Specificity orders the two selectors as their counts do. -/
def OrderedByCounts (s t : Selector) : Prop :=
  (s.createMatch.compareTo t.createMatch < 0 ↔ s.counts < t.counts)
    ∧ (0 < s.createMatch.compareTo t.createMatch ↔ t.counts < s.counts)

/-- Every count fits into its field, and no `:dir()` is left out. -/
structure Fits (sel : Selector) : Prop where
  ids : sel.ids < 2 ^ 23
  styleClasses : sel.styleClasses < 16
  pseudoClasses : sel.pseudoClasses.ncard < 16
  dir : ∀ c, sel = .compound c → ∀ s ∈ c.selectors, s.nodeOrientation = .inherit

end Selector

/-! ## What `createMatch` counts -/

namespace SimpleSelector

theorem createMatch_idCount (s : SimpleSelector) :
    s.createMatch.idCount = BitVec.ofNat 32 ([s].filter matchOnId).length := by
  cases h : s.matchOnId <;> simp [createMatch, h]

theorem createMatch_styleClassCount (s : SimpleSelector) : s.createMatch.styleClassCount
    = BitVec.ofNat 32 (BitSet.members s.styleClassSet.bits).ncard := by
  rw [createMatch, BitSet.size_eq]

end SimpleSelector

/-- What the rounds add. -/
theorem Totals.foldl_add (selectors : List SimpleSelector) (t : Totals) :
    let r := selectors.foldl (fun t s => t.add s.createMatch) t
    BitSet.members r.allPseudoClasses.bits = BitSet.members t.allPseudoClasses.bits
        ∪ {i | ∃ s ∈ selectors, i ∈ BitSet.members s.pseudoClassState.bits}
      ∧ r.idCount = t.idCount
        + BitVec.ofNat 32 (selectors.filter SimpleSelector.matchOnId).length
      ∧ r.styleClassCount = t.styleClassCount + BitVec.ofNat 32
        (selectors.map (fun s => (BitSet.members s.styleClassSet.bits).ncard)).sum := by
  induction selectors generalizing t with
  | nil => simp
  | cons s selectors ih =>
    obtain ⟨hpseudo, hid, hclass⟩ := ih (t.add s.createMatch)
    refine ⟨?_, ?_, ?_⟩
    · rw [List.foldl_cons, hpseudo]
      change BitSet.members (t.allPseudoClasses.addAll (some s.pseudoClassState.bits)).set.bits ∪ _ = _
      rw [BitSet.members_addAll]
      ext i
      simp [or_assoc]
    · rw [List.foldl_cons, hid]
      change t.idCount + s.createMatch.idCount + _ = _
      rw [s.createMatch_idCount, BitVec.add_assoc, ← BitVec.ofNat_add, ← List.length_append,
        ← List.filter_append, List.singleton_append]
    · rw [List.foldl_cons, hclass]
      change t.styleClassCount + s.createMatch.styleClassCount + _ = _
      rw [s.createMatch_styleClassCount, BitVec.add_assoc, ← BitVec.ofNat_add, List.map_cons,
        List.sum_cons]

namespace Selector

variable {sel : Selector}

/-- The pseudo-classes with an index. -/
def named (sel : Selector) : Set ℕ :=
  {i | ∃ s ∈ sel.simples, i ∈ BitSet.members s.pseudoClassState.bits}

/-- The orientations that `:dir()` names. -/
def dirs (sel : Selector) : Set NodeOrientation :=
  {o | ∃ s ∈ sel.simples, o ≠ .inherit ∧ s.nodeOrientation = o}

theorem pseudoClasses_eq (sel : Selector) :
    sel.pseudoClasses = Sum.inl '' sel.named ∪ Sum.inr '' sel.dirs := by
  ext p
  cases p <;> simp [pseudoClasses, named, dirs]

theorem finite_named (sel : Selector) : sel.named.Finite := by
  have hunion : sel.named
      = ⋃ s ∈ {s | s ∈ sel.simples}, BitSet.members s.pseudoClassState.bits := by
    ext i
    simp [named]
  rw [hunion]
  exact Set.Finite.biUnion (List.finite_toSet sel.simples) (fun s _ => BitSet.finite_members _)

theorem finite_dirs (sel : Selector) : sel.dirs.Finite := by
  have hsub : sel.dirs ⊆ SimpleSelector.nodeOrientation '' {s | s ∈ sel.simples} := by
    rintro o ⟨s, hs, -, rfl⟩
    exact ⟨s, hs, rfl⟩
  exact ((List.finite_toSet sel.simples).image _).subset hsub

theorem ncard_pseudoClasses (sel : Selector) :
    sel.pseudoClasses.ncard = sel.named.ncard + sel.dirs.ncard := by
  have hdisjoint : Disjoint (Sum.inl '' sel.named : Set (ℕ ⊕ NodeOrientation))
      (Sum.inr '' sel.dirs) := by
    rw [Set.disjoint_left]
    rintro _ ⟨i, -, rfl⟩ ⟨o, -, ho⟩
    cases ho
  rw [pseudoClasses_eq, Set.ncard_union_eq hdisjoint (sel.finite_named.image _)
    (sel.finite_dirs.image _), Set.ncard_image_of_injective _ Sum.inl_injective,
    Set.ncard_image_of_injective _ Sum.inr_injective]

theorem createMatch_idCount (sel : Selector) :
    sel.createMatch.idCount = BitVec.ofNat 32 sel.ids := by
  cases sel with
  | simple s => exact s.createMatch_idCount
  | compound s =>
    have h := (Totals.foldl_add s.selectors ⟨.new false, 0, 0⟩).2.1
    exact h.trans (BitVec.zero_add _)

theorem createMatch_styleClassCount (sel : Selector) :
    sel.createMatch.styleClassCount = BitVec.ofNat 32 sel.styleClasses := by
  cases sel with
  | simple s => simp [createMatch, s.createMatch_styleClassCount, styleClasses, simples]
  | compound s =>
    have h := (Totals.foldl_add s.selectors ⟨.new false, 0, 0⟩).2.2
    exact h.trans (BitVec.zero_add _)

/-- On a simple selector `:dir()` is counted, on a compound one it is not. -/
theorem createMatch_nPseudoClasses (sel : Selector) : sel.createMatch.nPseudoClasses
    = match sel with
      | .simple _ => BitVec.ofNat 32 sel.pseudoClasses.ncard
      | .compound _ => BitVec.ofNat 32 sel.named.ncard := by
  cases sel with
  | simple s =>
    have hnamed : (Selector.simple s).named = BitSet.members s.pseudoClassState.bits := by
      ext i
      simp [named, simples]
    have hdirs : (Selector.simple s).dirs
        = if s.nodeOrientation ≠ .inherit then {s.nodeOrientation} else ∅ := by
      ext o
      split_ifs with h
      · simp [dirs, simples]
        grind
      · simp [dirs, simples]
        grind
    change (if s.nodeOrientation ≠ .inherit then BitVec.ofNat 32 s.pseudoClassState.size + 1
      else BitVec.ofNat 32 s.pseudoClassState.size) = BitVec.ofNat 32 _
    rw [ncard_pseudoClasses, hnamed, hdirs, BitSet.size_eq]
    split_ifs
    · rw [Set.ncard_singleton, BitVec.ofNat_add]
      rfl
    · rw [Set.ncard_empty, Nat.add_zero]
  | compound s =>
    have h := (Totals.foldl_add s.selectors ⟨.new false, 0, 0⟩).1
    have hempty : BitSet.members (BitSet.new false).bits = ∅ := BitSet.members_nil
    rw [hempty, Set.empty_union] at h
    change BitVec.ofNat 32 (BitSet.size _) = _
    rw [BitSet.size_eq, h]
    rfl

/-! ## Packing the counts -/

/-- Counts that fit stand one above the other. -/
theorem pack {i c p : ℕ} (hi : i < 2 ^ 23) (hc : c < 16) (hp : p < 16) :
    ((BitVec.ofNat 32 i <<< 8) ||| (BitVec.ofNat 32 c <<< 4) ||| BitVec.ofNat 32 p).toNat
      = i * 256 + c * 16 + p := by
  have hlow : c <<< 4 + p = c <<< 4 ||| p := Nat.shiftLeft_add_eq_or_of_lt hp c
  have hlt : c <<< 4 + p < 2 ^ 8 := by
    rw [Nat.shiftLeft_eq]
    omega
  have hhigh : i <<< 8 + (c <<< 4 + p) = i <<< 8 ||| (c <<< 4 + p) :=
    Nat.shiftLeft_add_eq_or_of_lt hlt i
  have hi' : i <<< 8 < 2 ^ 32 := by
    rw [Nat.shiftLeft_eq]
    omega
  have hc' : c <<< 4 < 2 ^ 32 := by omega
  rw [BitVec.toNat_or, BitVec.toNat_or, BitVec.toNat_shiftLeft, BitVec.toNat_shiftLeft,
    BitVec.toNat_ofNat, BitVec.toNat_ofNat, BitVec.toNat_ofNat,
    Nat.mod_eq_of_lt (show i < 2 ^ 32 by omega), Nat.mod_eq_of_lt (show c < 2 ^ 32 by omega),
    Nat.mod_eq_of_lt (show p < 2 ^ 32 by omega), Nat.mod_eq_of_lt hi', Nat.mod_eq_of_lt hc',
    Nat.or_assoc, ← hlow, ← hhigh, Nat.shiftLeft_eq, Nat.shiftLeft_eq]
  omega

/-- The counts as one number, if they fit. -/
noncomputable def packed (sel : Selector) : ℕ :=
  sel.ids * 256 + sel.styleClasses * 16 + sel.pseudoClasses.ncard

theorem Fits.dirs_eq_empty {c : CompoundSelector} (h : (Selector.compound c).Fits) :
    (Selector.compound c).dirs = ∅ := by
  rw [Set.eq_empty_iff_forall_notMem]
  rintro o ⟨s, hs, hne, rfl⟩
  exact hne (h.dir c rfl s hs)

theorem Fits.specificity (h : sel.Fits) : sel.createMatch.specificity.toNat = sel.packed := by
  have hpseudo : sel.createMatch.nPseudoClasses = BitVec.ofNat 32 sel.pseudoClasses.ncard := by
    rw [createMatch_nPseudoClasses]
    cases sel with
    | simple s => rfl
    | compound c => rw [ncard_pseudoClasses, h.dirs_eq_empty, Set.ncard_empty, Nat.add_zero]
  rw [Match.specificity, createMatch_idCount, createMatch_styleClassCount, hpseudo,
    pack h.ids h.styleClasses h.pseudoClasses, packed]

theorem Fits.packed_lt (h : sel.Fits) : sel.packed < 2 ^ 31 := by
  have h1 := h.ids
  have h2 := h.styleClasses
  have h3 := h.pseudoClasses
  rw [packed]
  omega

/-- The numbers of selectors that fit stand in the order of the counts. -/
theorem Fits.counts_lt_iff {s t : Selector} (hs : s.Fits) (ht : t.Fits) :
    s.counts < t.counts ↔ s.packed < t.packed := by
  have h1 := hs.styleClasses
  have h2 := hs.pseudoClasses
  have h3 := ht.styleClasses
  have h4 := ht.pseudoClasses
  rw [counts, counts, packed, packed, Prod.Lex.toLex_lt_toLex, Prod.Lex.toLex_lt_toLex]
  dsimp only
  omega

theorem counts_eq_iff {s t : Selector} : s.counts = t.counts ↔ s.ids = t.ids
    ∧ s.styleClasses = t.styleClasses ∧ s.pseudoClasses.ncard = t.pseudoClasses.ncard := by
  simp [counts, Prod.ext_iff]

/-- Selectors that fit are ordered by their counts. -/
theorem Fits.orderedByCounts {s t : Selector} (hs : s.Fits) (ht : t.Fits) :
    OrderedByCounts s t := by
  have h1 := hs.packed_lt
  have h2 := ht.packed_lt
  have hsub : s.createMatch.compareTo t.createMatch = (s.packed : ℤ) - t.packed := by
    rw [Match.compareTo, BitVec.toInt_sub, BitVec.toInt_eq_toNat_of_lt (by rw [hs.specificity]; omega),
      BitVec.toInt_eq_toNat_of_lt (by rw [ht.specificity]; omega), hs.specificity, ht.specificity]
    exact Int.bmod_eq_of_le (by omega) (by omega)
  rw [OrderedByCounts, hs.counts_lt_iff ht, ht.counts_lt_iff hs, hsub]
  omega

/-! ## Selectors with given counts -/

/-- A selector with `c` style classes and `p` pseudo-classes. -/
def classes (c p : ℕ) : SimpleSelector where
  name := "*"
  styleClassSet := .ofList (List.range c)
  id := ""
  pseudoClassState := .ofList (List.range p)
  nodeOrientation := .inherit
  styleClassSet_canonical := BitSet.canonical_ofList _
  pseudoClassState_canonical := BitSet.canonical_ofList _

/-- The selector `#id`. -/
def idSelector : SimpleSelector := { classes 0 0 with id := "id" }

/-- A selector with these counts. -/
def withCounts (i c p : ℕ) : Selector := .compound
  { selectors := classes c p :: List.replicate i idSelector
    relationships := List.replicate i .descendant
    length_eq := by simp }

theorem ncard_members_range (n : ℕ) :
    (BitSet.members (BitSet.ofList (List.range n)).bits).ncard = n := by
  have hrange : BitSet.members (BitSet.ofList (List.range n)).bits = ↑(Finset.range n) := by
    ext i
    rw [BitSet.members_ofList, List.mem_range, Finset.mem_coe, Finset.mem_range]
  rw [hrange, Set.ncard_coe_finset, Finset.card_range]

theorem ids_withCounts (i c p : ℕ) : (withCounts i c p).ids = i := by
  have hid : SimpleSelector.matchOnId idSelector = true := by decide
  have hnot : SimpleSelector.matchOnId (classes c p) = false :=
    decide_eq_false (not_not.mpr rfl)
  simp [ids, withCounts, simples, hid, hnot]

theorem styleClasses_withCounts (i c p : ℕ) : (withCounts i c p).styleClasses = c := by
  have hid : (BitSet.members idSelector.styleClassSet.bits).ncard = 0 := ncard_members_range 0
  have hclasses : (BitSet.members (classes c p).styleClassSet.bits).ncard = c :=
    ncard_members_range c
  simp [styleClasses, withCounts, simples, hid, hclasses]

theorem pseudoClasses_withCounts (i c p : ℕ) : (withCounts i c p).pseudoClasses.ncard = p := by
  have hnamed : (withCounts i c p).named
      = BitSet.members (BitSet.ofList (List.range p)).bits := by
    ext k
    have hid : k ∉ BitSet.members idSelector.pseudoClassState.bits := by
      change k ∉ BitSet.members (BitSet.ofList (List.range 0)).bits
      simp [BitSet.members_ofList]
    simp [named, withCounts, simples, hid, classes]
  have hdirs : (withCounts i c p).dirs = ∅ := by
    ext o
    simp [dirs, withCounts, simples, idSelector, classes]
    grind
  rw [ncard_pseudoClasses, hnamed, hdirs, ncard_members_range, Set.ncard_empty, Nat.add_zero]

theorem fits_withCounts {i c p : ℕ} (hi : i < 2 ^ 23) (hc : c < 16) (hp : p < 16) :
    (withCounts i c p).Fits where
  ids := by rwa [ids_withCounts]
  styleClasses := by rwa [styleClasses_withCounts]
  pseudoClasses := by rwa [pseudoClasses_withCounts]
  dir := by
    rintro c' hc' s hs
    cases hc'
    rcases List.mem_cons.mp hs with rfl | hs
    · rfl
    · rw [List.eq_of_mem_replicate hs]
      rfl

/-! ## The order -/

/-- A selector that does not fit has not the number of a selector that does fit and has
the same counts. -/
theorem counts_ne {t : Selector} (hnot : ¬ sel.Fits) (ht : t.Fits)
    (hspecificity : sel.createMatch.specificity = t.createMatch.specificity) :
    sel.counts ≠ t.counts := by
  intro hcounts
  obtain ⟨hids, hclasses, hpseudo⟩ := counts_eq_iff.mp hcounts
  have hi : sel.ids < 2 ^ 23 := hids ▸ ht.ids
  have hc : sel.styleClasses < 16 := hclasses ▸ ht.styleClasses
  have hp : sel.pseudoClasses.ncard < 16 := hpseudo ▸ ht.pseudoClasses
  -- so it is a compound selector with `:dir()`, which its number leaves out
  refine hnot ⟨hi, hc, hp, ?_⟩
  rintro c rfl s hs
  by_contra hne
  have hdirs : 0 < (Selector.compound c).dirs.ncard :=
    (Set.ncard_pos (finite_dirs _)).mpr ⟨s.nodeOrientation, s, hs, hne, rfl⟩
  have hsum := ncard_pseudoClasses (.compound c)
  have hnumber := congrArg BitVec.toNat hspecificity
  rw [ht.specificity, Match.specificity, createMatch_idCount, createMatch_styleClassCount,
    createMatch_nPseudoClasses] at hnumber
  dsimp only at hnumber
  rw [pack hi hc (by omega), packed] at hnumber
  omega

/-- Such a selector is misplaced against the one that fits and has its number, or
against `*` if its number is negative. -/
theorem exists_not_orderedByCounts (hnot : ¬ sel.Fits) :
    ∃ t : Selector, t.Fits ∧ ¬ OrderedByCounts sel t := by
  by_cases hsign : sel.createMatch.specificity.toNat < 2 ^ 31
  · generalize hn : sel.createMatch.specificity.toNat = n at hsign
    have ht : (withCounts (n / 256) (n / 16 % 16) (n % 16)).Fits :=
      fits_withCounts (by omega) (by omega) (by omega)
    refine ⟨_, ht, fun h => ?_⟩
    have hsame : sel.createMatch.specificity
        = (withCounts (n / 256) (n / 16 % 16) (n % 16)).createMatch.specificity := by
      apply BitVec.eq_of_toNat_eq
      rw [hn, ht.specificity, packed, ids_withCounts, styleClasses_withCounts,
        pseudoClasses_withCounts]
      omega
    have hzero : sel.createMatch.compareTo
        (withCounts (n / 256) (n / 16 % 16) (n % 16)).createMatch = 0 := by
      rw [Match.compareTo, hsame, BitVec.sub_self, BitVec.toInt_zero]
    rw [OrderedByCounts, hzero] at h
    have hle := not_lt.mp (fun hlt => absurd (h.1.mpr hlt) (lt_irrefl 0))
    have hge := not_lt.mp (fun hlt => absurd (h.2.mpr hlt) (lt_irrefl 0))
    exact counts_ne hnot ht hsame (le_antisymm hge hle)
  · have ht : (withCounts 0 0 0).Fits := fits_withCounts (by omega) (by omega) (by omega)
    refine ⟨_, ht, fun h => ?_⟩
    have hzero : (withCounts 0 0 0).createMatch.specificity = 0#32 := by
      apply BitVec.eq_of_toNat_eq
      rw [ht.specificity, packed, ids_withCounts, styleClasses_withCounts, pseudoClasses_withCounts]
      rfl
    have hneg : sel.createMatch.compareTo (withCounts 0 0 0).createMatch < 0 := by
      rw [Match.compareTo, hzero, BitVec.sub_zero, BitVec.toInt_eq_toNat_cond]
      have := sel.createMatch.specificity.isLt
      rw [if_neg (by omega)]
      omega
    have hlt := h.1.mp hneg
    rw [counts, counts, ids_withCounts, styleClasses_withCounts, pseudoClasses_withCounts,
      Prod.Lex.toLex_lt_toLex, Prod.Lex.toLex_lt_toLex] at hlt
    dsimp only at hlt
    omega

/-- **Specificity.** A selector is ordered by its counts, against all selectors that fit,
exactly if it fits itself. -/
theorem specificity_lexicographic_iff (s : Selector) :
    (∀ t : Selector, t.Fits → OrderedByCounts s t) ↔ s.Fits := by
  constructor
  · intro h
    by_contra hnot
    obtain ⟨t, ht, hmisplaced⟩ := exists_not_orderedByCounts hnot
    exact hmisplaced (h t ht)
  · exact fun hs t ht => hs.orderedByCounts ht

/-- Sixteen style classes weigh as much as one id. -/
theorem specificity_not_lexicographic : ¬ ∀ s t : Selector, OrderedByCounts s t := by
  intro h
  have hcounts : (withCounts 0 16 0).counts < (withCounts 1 0 0).counts := by
    rw [counts, counts, ids_withCounts, ids_withCounts, Prod.Lex.toLex_lt_toLex]
    exact Or.inl Nat.zero_lt_one
  have hlt := (h (withCounts 0 16 0) (withCounts 1 0 0)).1.mpr hcounts
  revert hlt
  decide +kernel

end Selector

end JavaFx.Css
