/-
`com.sun.javafx.css.BitSet`: pseudo-class states and style classes as bits in a
`long[]`.

An element is its index, so bit `i % 64` of word `i / 64` says whether the element
`i` is in the set. A set whose `bits` is `[]` has the shared empty array, and every
operation that changes `bits` builds the array it leaves. A listener is told of one
element at a time; `fired` holds what it is told.

The argument of the bulk operations is the word array of another set of the same
class. `none` stands for everything the operations tell apart from that, `null`
and collections of other classes.
-/
import Mathlib.Data.List.Basic
import Mathlib.Data.Set.Insert
import Mathlib.Tactic.Common
import Mathlib.Data.List.GetD
import Mathlib.Data.List.Nodup
import Mathlib.Order.SetNotation

set_option autoImplicit false

namespace JavaFx.Css

/-- `Long.SIZE`. -/
abbrev Word := BitVec 64

/-- `SetChangeListener.Change`: the element, and whether it was removed or added. -/
structure SetChange where
  element : ℕ
  removed : Bool
  deriving DecidableEq, Repr

/-- The fields of a set; of its listener helper only whether there is one. -/
structure BitSet where
  bits : List Word
  hasListeners : Bool
  deriving DecidableEq, Repr

namespace BitSet

/-- The set afterwards, the result of the call and the changes fired by it. -/
structure Outcome where
  set : BitSet
  modified : Bool
  fired : List SetChange
  deriving DecidableEq, Repr

/-- The constructor. -/
def new (hasListeners : Bool) : BitSet := ⟨[], hasListeners⟩

/-- `1l << index % Long.SIZE`. -/
def bit (index : ℕ) : Word := 1#64 <<< (index % 64)

/-- `contains`. -/
def contains (s : BitSet) : Option ℕ → Bool
  | none => false
  | some t =>
    match s.bits[t / 64]? with
    | some word => word &&& bit t = bit t
    | none => false

/-- `add`. -/
def add (s : BitSet) : Option ℕ → Outcome
  | none => ⟨s, false, []⟩
  | some t =>
    let element := t / 64
    -- need to grow?
    let bits := if s.bits.length ≤ element
      then s.bits ++ List.replicate (element + 1 - s.bits.length) 0#64 else s.bits
    let temp := bits.getD element 0#64
    let modified := decide (temp ||| bit t ≠ temp)
    ⟨{ s with bits := bits.set element (temp ||| bit t) }, modified,
      if modified && s.hasListeners then [⟨t, false⟩] else []⟩

/-- `remove`. -/
def remove (s : BitSet) : Option ℕ → Outcome
  | none => ⟨s, false, []⟩
  | some t =>
    let element := t / 64
    match s.bits[element]? with
    | none => ⟨s, false, []⟩
    | some temp =>
      let bits := s.bits.set element (temp &&& ~~~ bit t)
      let modified := decide (temp &&& ~~~ bit t ≠ temp)
      -- did removing the bit leave an empty set?
      let isEmpty := bits.all (· = 0#64)
      ⟨{ s with bits := if modified && isEmpty then [] else bits }, modified,
        if modified && s.hasListeners then [⟨t, true⟩] else []⟩

/-- The loops that tell the listeners of every bit of every word, in order. -/
def notifyObservers (s : BitSet) (words : List Word) (removed : Bool) : List SetChange :=
  if s.hasListeners then
    words.zipIdx.flatMap (fun w => ((List.range 64).filter (fun b => bit b &&& w.1 = bit b)).map
      (fun b => ⟨w.2 * 64 + b, removed⟩))
  else []

/-- `containsAll`. -/
def containsAll (s : BitSet) : Option (List Word) → Bool
  | none => false
  | some other =>
    if s.bits.length = 0 ∧ other.length = 0 then true
    else if s.bits.length < other.length then false
    else (List.zip s.bits other).all (fun w => w.1 &&& w.2 = w.2)

/-- `addAll`. -/
def addAll (s : BitSet) : Option (List Word) → Outcome
  | none => ⟨s, false, []⟩
  | some maskTwo =>
    let maskOne := s.bits
    let max := Nat.max maskOne.length maskTwo.length
    let words := (List.range max).map (fun n => (maskOne[n]?, maskTwo[n]?))
    let union := words.map fun
      | (some one, some two) => one ||| two
      | (some one, none) => one
      | (none, two) => two.getD 0#64
    let modified := words.any fun
      | (some one, some two) => one ||| two ≠ one
      | (some _, none) => false
      | (none, _) => true
    let bitsAdded := words.map fun
      | (some one, some two) => ~~~ one &&& two
      -- union[n] = maskOne[n], so no bits added
      | (some _, none) => 0#64
      | (none, two) => two.getD 0#64
    if modified then ⟨{ s with bits := union }, true, s.notifyObservers bitsAdded false⟩
    else ⟨s, false, []⟩

/-- `clear`. -/
def clear (s : BitSet) : BitSet × List SetChange :=
  ({ s with bits := [] }, s.notifyObservers s.bits true)

/-- `retainAll`. -/
def retainAll (s : BitSet) : Option (List Word) → Outcome
  | none => ⟨s.clear.1, true, s.clear.2⟩
  | some maskTwo =>
    let maskOne := s.bits
    let max := Nat.min maskOne.length maskTwo.length
    let intersection := List.zipWith (· &&& ·) maskOne maskTwo
    let modified := decide (max < maskOne.length)
      || (List.zip maskOne maskTwo).any (fun w => w.1 &&& w.2 ≠ w.1)
    let isEmpty := intersection.all (· = 0#64)
    let bitsRemoved := maskOne.zipIdx.map (fun w =>
      match maskTwo[w.2]? with
      | some two => w.1 &&& ~~~ two
      -- maskTwo was shorter than maskOne
      | none => w.1)
    if modified then
      ⟨{ s with bits := if isEmpty then [] else intersection }, true,
        s.notifyObservers bitsRemoved true⟩
    else ⟨s, false, []⟩

/-- `removeAll`. -/
def removeAll (s : BitSet) : Option (List Word) → Outcome
  | none => ⟨s, false, []⟩
  | some maskTwo =>
    let maskOne := s.bits
    -- the array has the length of the shorter one
    let difference := List.zipWith (fun one two => one &&& ~~~ two) maskOne maskTwo
    let modified := (List.zip maskOne maskTwo).any (fun w => w.1 &&& ~~~ w.2 ≠ w.1)
    let isEmpty := difference.all (· = 0#64)
    let bitsRemoved := List.zipWith (· &&& ·) maskOne maskTwo
    if modified then
      ⟨{ s with bits := if isEmpty then [] else difference }, true,
        s.notifyObservers bitsRemoved true⟩
    else ⟨s, false, []⟩

/-- `hashCode`. -/
def hashCode (s : BitSet) : BitVec 32 :=
  s.bits.foldl
    (fun hash (mask : Word) => 71#32 * hash + BitVec.setWidth 32 (mask ^^^ (mask >>> 32))) 7#32

/-- `equals`, to another set of the same class. -/
def equals (s other : BitSet) : Bool :=
  decide (s.bits.length = other.bits.length)
    && (List.zip s.bits other.bits).all (fun m => m.1 = m.2)

end BitSet

end JavaFx.Css

/-!
The set that a word array stands for.

An array is read word by word, a word it does not have as zero: `word bits n`.
Two arrays hold the same elements exactly if all their words agree
(`members_eq_iff`), so what an operation does to the elements is read off the
words of the array it leaves. The lengths of the arrays play no part in that,
and `Canonical` says of an array that it has no word too many.
-/

namespace JavaFx.Css.BitSet

variable {a b bits : List Word} {i n : ℕ}

/-- Word `n` of the array, zero beyond its end. -/
def word (bits : List Word) (n : ℕ) : Word := bits.getD n 0#64

/-- The elements in the set. -/
def members (bits : List Word) : Set ℕ := {i | (word bits (i / 64)).getLsbD (i % 64) = true}

instance (bits : List Word) (i : ℕ) : Decidable (i ∈ members bits) :=
  inferInstanceAs (Decidable ((word bits (i / 64)).getLsbD (i % 64) = true))

theorem mem_members : i ∈ members bits ↔ (word bits (i / 64)).getLsbD (i % 64) = true := Iff.rfl

theorem mem_members_at {k : ℕ} (hk : k < 64) :
    n * 64 + k ∈ members bits ↔ (word bits n).getLsbD k = true := by
  rw [mem_members]
  have hdiv : (n * 64 + k) / 64 = n := by omega
  have hmod : (n * 64 + k) % 64 = k := by omega
  rw [hdiv, hmod]

/-! ## Words -/

@[simp] theorem word_nil : word [] n = 0#64 := rfl

theorem word_of_getElem? {w : Word} (h : bits[n]? = some w) : word bits n = w := by
  rw [word, List.getD_eq_getElem?_getD, h, Option.getD_some]

theorem word_of_length_le (h : bits.length ≤ n) : word bits n = 0#64 := by
  rw [word, List.getD_eq_getElem?_getD, List.getElem?_eq_none h, Option.getD_none]

theorem lt_length_of_word_ne (h : word bits n ≠ 0#64) : n < bits.length := by
  by_contra hle
  exact h (word_of_length_le (by omega))

theorem getLsbD_bit {t k : ℕ} (hk : k < 64) : (bit t).getLsbD k = decide (k = t % 64) := by
  simp only [bit, BitVec.getLsbD_shiftLeft, BitVec.getLsbD_one]
  grind

theorem bit_and_eq_iff {t : ℕ} {w : Word} : bit t &&& w = bit t ↔ w.getLsbD (t % 64) = true := by
  have ht : t % 64 < 64 := Nat.mod_lt _ (by omega)
  constructor
  · intro h
    have hbit := congrArg (fun v => v.getLsbD (t % 64)) h
    simpa [getLsbD_bit ht] using hbit
  · intro h
    apply BitVec.eq_of_getLsbD_eq
    intro k hk
    rw [BitVec.getLsbD_and, getLsbD_bit hk]
    by_cases hkt : k = t % 64
    · rw [hkt, h, Bool.and_true]
    · rw [decide_eq_false hkt, Bool.false_and]

/-! ## Elements against words -/

theorem members_subset_iff : members a ⊆ members b ↔ ∀ n, word a n &&& word b n = word a n := by
  constructor
  · intro h n
    apply BitVec.eq_of_getLsbD_eq
    intro k hk
    rw [BitVec.getLsbD_and]
    by_cases hak : (word a n).getLsbD k = true
    · have hbk := (mem_members_at hk).mp (h ((mem_members_at hk).mpr hak))
      rw [hak, hbk, Bool.and_true]
    · rw [Bool.not_eq_true] at hak
      rw [hak, Bool.false_and]
  · intro h i hi
    rw [mem_members, ← h, BitVec.getLsbD_and, Bool.and_eq_true] at hi
    exact hi.2

theorem members_eq_iff : members a = members b ↔ ∀ n, word a n = word b n := by
  constructor
  · intro h n
    apply BitVec.eq_of_getLsbD_eq
    intro k hk
    rw [Bool.eq_iff_iff, ← mem_members_at hk, ← mem_members_at hk, h]
  · intro h
    ext i
    rw [mem_members, mem_members, h]

theorem members_eq_empty_iff : members a = ∅ ↔ ∀ n, word a n = 0#64 := by
  have hnil : members [] = ∅ := by
    ext i
    simp [mem_members]
  rw [← hnil, members_eq_iff]
  simp only [word_nil]

@[simp] theorem members_nil : members [] = ∅ := members_eq_empty_iff.mpr (fun _ => rfl)

/-! ## Arrays without a superfluous word -/

/-- The array ends with its last nonzero word. -/
def Canonical (bits : List Word) : Prop := ∀ w ∈ bits.getLast?, w ≠ 0#64

theorem canonical_nil : Canonical [] := by simp [Canonical]

theorem canonical_of_word_ne (h : word bits (bits.length - 1) ≠ 0#64) : Canonical bits := by
  intro w hw
  rw [List.getLast?_eq_getElem?] at hw
  rwa [word_of_getElem? hw] at h

theorem Canonical.word_ne (h : Canonical bits) (hpos : bits ≠ []) :
    word bits (bits.length - 1) ≠ 0#64 := by
  have hlast : bits[bits.length - 1]? = some (bits.getLast hpos) := by
    rw [← List.getLast?_eq_getElem?, List.getLast?_eq_some_getLast hpos]
  rw [word_of_getElem? hlast]
  exact h _ (List.getLast?_eq_some_getLast hpos)

/-- A canonical array is no longer than any array with at least its elements. -/
theorem Canonical.length_le (h : Canonical a) (hsub : members a ⊆ members b) :
    a.length ≤ b.length := by
  by_cases hnil : a = []
  · rw [hnil]
    exact Nat.zero_le _
  have hne := h.word_ne hnil
  rw [← members_subset_iff.mp hsub] at hne
  have hlt : a.length - 1 < b.length := by
    refine lt_length_of_word_ne (fun hzero => hne ?_)
    rw [hzero, BitVec.and_zero]
  omega

/-- Canonical arrays with the same elements are equal. -/
theorem Canonical.eq_of_members (ha : Canonical a) (hb : Canonical b)
    (h : members a = members b) : a = b := by
  have hlen : a.length = b.length :=
    le_antisymm (ha.length_le h.subset) (hb.length_le h.symm.subset)
  refine List.ext_getElem hlen (fun n hn hn' => ?_)
  have hword := members_eq_iff.mp h n
  rwa [word_of_getElem? (List.getElem?_eq_getElem hn),
    word_of_getElem? (List.getElem?_eq_getElem hn')] at hword

end JavaFx.Css.BitSet
