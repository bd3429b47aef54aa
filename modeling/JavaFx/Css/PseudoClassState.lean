/-
`toArray` of `com.sun.javafx.css.PseudoClassState`.

One variable is both the number of the word and the place in the array, so the element at
place `j` always comes from a word whose bits are read as those of word `j`. The array is
right only if word `j` has the `j`-th member and no other: every word has exactly one bit
(`toArray_right_iff`). At a word without bits the loop stays for ever.
-/
import JavaFx.Css.BitSet
import JavaFx.Lib.Java
import Mathlib.Algebra.Order.BigOperators.Group.List

set_option autoImplicit false

namespace JavaFx.Css

open JavaFx.Lib

/-- A set of pseudo-classes: the indices in it are those of the first `registered` ones,
which are all that have been made. -/
structure PseudoClassState extends BitSet where
  registered : ℕ
  known : ∀ i ∈ BitSet.members bits, i < registered

namespace PseudoClassState

variable (s : PseudoClassState)

/-- The bits of a word, ascending. -/
def setBits (state : Word) : List ℕ :=
  (List.range 64).filter fun bit => state &&& BitSet.bit bit = BitSet.bit bit

/-- `Long.bitCount`. -/
def bitCount (state : Word) : ℕ := (setBits state).length

/-- `size`. -/
def size : ℕ := (s.bits.map bitCount).sum

/-- `getPseudoClass(n)`, the index of the pseudo-class, `none` for `null`. -/
def getPseudoClass (n : ℕ) : Option ℕ := if n < s.registered then some n else none

/-- The variables of `toArray(T[])`. -/
structure Walk where
  a : List (Option ℕ)
  index : ℕ

/-- The body of the inner loop, for a bit that is set. -/
def store (w : Walk) (bit : ℕ) : Except Exn Walk := do
  let n := w.index * 64 + bit
  let a ← aset w.a w.index (s.getPseudoClass n)
  return ⟨a, w.index + 1⟩

/-- The outer loop, for at most `fuel` rounds; `none` if it is still running. -/
def walkWords : (fuel : ℕ) → Walk → Option (Except Exn (List (Option ℕ)))
  | 0, _ => none
  | fuel + 1, w =>
    match s.bits[w.index]? with
    | none => some (.ok w.a)
    | some state =>
      match run s.store w (setBits state) with
      | .ok w => walkWords fuel w
      | .error e => some (.error e)

/-- `toArray(T[])`. -/
def toArrayInto (fuel : ℕ) (a : List (Option ℕ)) : Option (Except Exn (List (Option ℕ))) :=
  let a := if a.length < s.size then List.replicate s.size none else a
  s.walkWords fuel ⟨a, 0⟩

/-- `toArray()`. -/
def toArray (fuel : ℕ) : Option (Except Exn (List (Option ℕ))) :=
  s.toArrayInto fuel (List.replicate s.size none)

/-- It ends, with an array of all members and nothing else, each of them once. -/
def Right : Prop :=
  ∃ fuel a, s.toArray fuel = some (.ok a) ∧ a.Nodup
    ∧ ∀ o, o ∈ a ↔ ∃ i ∈ BitSet.members s.bits, o = some i

variable {s} {w w' : Walk}

/-! ## Words -/

theorem mem_setBits {state : Word} {b : ℕ} :
    b ∈ setBits state ↔ b < 64 ∧ state.getLsbD b = true := by
  rw [setBits, List.mem_filter, List.mem_range, decide_eq_true_eq, BitVec.and_comm,
    BitSet.bit_and_eq_iff]
  constructor
  · rintro ⟨hb, h⟩
    rw [Nat.mod_eq_of_lt hb] at h
    exact ⟨hb, h⟩
  · rintro ⟨hb, h⟩
    refine ⟨hb, ?_⟩
    rwa [Nat.mod_eq_of_lt hb]

theorem mem_members_iff {i : ℕ} :
    i ∈ BitSet.members s.bits ↔ i % 64 ∈ setBits (BitSet.word s.bits (i / 64)) := by
  rw [BitSet.mem_members, mem_setBits]
  exact ⟨fun h => ⟨Nat.mod_lt _ (by decide), h⟩, fun h => h.2⟩

theorem length_le_one {bits : List ℕ} (hnodup : bits.Nodup)
    (heq : ∀ b ∈ bits, ∀ b' ∈ bits, b = b') : bits.length ≤ 1 := by
  match bits, hnodup, heq with
  | [], _, _ => exact Nat.zero_le _
  | [b], _, _ => exact Nat.le_refl _
  | b :: b' :: rest, hnodup, heq =>
    have hne := (List.nodup_cons.mp hnodup).1
    have hbb := heq b (List.mem_cons_self ..) b' (List.mem_cons_of_mem _ (List.mem_cons_self ..))
    exact absurd (hbb ▸ List.mem_cons_self ..) hne

/-- If no word has two bits, and there are at least as many bits as words, every word has
one. -/
theorem eq_one_of_length_le {counts : List ℕ} (hle : ∀ c ∈ counts, c ≤ 1)
    (hsum : counts.length ≤ counts.sum) : ∀ c ∈ counts, c = 1 := by
  induction counts with
  | nil => simp
  | cons c counts ih =>
    have hc := hle c (List.mem_cons_self ..)
    have hrest : ∀ c ∈ counts, c ≤ 1 := fun c h => hle c (List.mem_cons_of_mem _ h)
    have hbound := List.sum_le_card_nsmul counts 1 hrest
    rw [List.length_cons, List.sum_cons] at hsum
    rw [nsmul_one] at hbound
    norm_num at hbound
    intro c' hc'
    rcases List.mem_cons.mp hc' with rfl | hmem
    · omega
    · exact ih hrest (by omega) c' hmem

/-! ## What is in the array -/

/-- Place `j` is written from word `j`, and nothing is written from the current word on. -/
structure Placed (s : PseudoClassState) (w : Walk) : Prop where
  length : w.a.length = s.size
  index : w.index ≤ w.a.length
  place : ∀ j i, w.a[j]? = some (some i) → i / 64 = j

theorem Placed.store (h : Placed s w) {bit : ℕ} (hbit : bit < 64)
    (hstore : s.store w bit = .ok w') : Placed s w' := by
  obtain ⟨a, ha, hw⟩ := bind_eq_ok.mp hstore
  cases hw
  unfold aset at ha
  split at ha
  · rename_i hindex
    cases ha
    have hlt : w.index < w.a.length := by omega
    refine ⟨by rw [List.length_set, h.length], by rw [List.length_set]; exact hlt, ?_⟩
    intro j i hj
    rw [Int.toNat_natCast] at hj
    by_cases heq : w.index = j
    · subst heq
      rw [List.getElem?_set_self hlt, Option.some.injEq, getPseudoClass] at hj
      split at hj
      · cases hj
        omega
      · cases hj
    · rw [List.getElem?_set_ne heq] at hj
      exact h.place j i hj
  · cases ha

theorem Placed.word (h : Placed s w) {state : Word}
    (hrun : run s.store w (setBits state) = .ok w') : Placed s w' :=
  run_invariant_of_ok (P := fun _ bit => bit < 64) (Placed s)
    (fun _ _ _ hw hbit hstore => hw.store hbit hstore) h
    (Along.of_forall fun _ hb => (mem_setBits.mp hb).1) hrun

/-- When the loop ends, every word has been passed. -/
theorem Placed.walkWords {fuel : ℕ} {a : List (Option ℕ)} (h : Placed s w)
    (hwalk : s.walkWords fuel w = some (.ok a)) :
    a.length = s.size ∧ s.bits.length ≤ a.length ∧ ∀ j i, a[j]? = some (some i) → i / 64 = j := by
  induction fuel generalizing w with
  | zero => cases hwalk
  | succ fuel ih =>
    unfold PseudoClassState.walkWords at hwalk
    split at hwalk
    · rename_i hend
      cases hwalk
      have hpassed := List.getElem?_eq_none_iff.mp hend
      exact ⟨h.length, Nat.le_trans hpassed h.index, h.place⟩
    · split at hwalk
      · rename_i hrun
        exact ih (h.word hrun) hwalk
      · cases hwalk

theorem toArray_eq (fuel : ℕ) :
    s.toArray fuel = s.walkWords fuel ⟨List.replicate s.size none, 0⟩ := by
  rw [toArray, toArrayInto, List.length_replicate, if_neg (Nat.lt_irrefl _)]

/-- An array of all members has room for one of each word only. -/
theorem Right.bitCount (h : s.Right) : ∀ state ∈ s.bits, bitCount state = 1 := by
  obtain ⟨fuel, a, ha, -, hmem⟩ := h
  rw [toArray_eq] at ha
  have hstart : Placed s ⟨List.replicate s.size none, 0⟩ := by
    refine ⟨List.length_replicate, Nat.zero_le _, ?_⟩
    intro j i hj
    cases List.eq_of_mem_replicate (List.mem_of_getElem? hj)
  obtain ⟨hlength, hpassed, hplace⟩ := hstart.walkWords ha
  have hle : ∀ c ∈ s.bits.map PseudoClassState.bitCount, c ≤ 1 := by
    intro c hc
    obtain ⟨state, hstate, rfl⟩ := List.mem_map.mp hc
    obtain ⟨n, hn, rfl⟩ := List.mem_iff_getElem.mp hstate
    have hword : BitSet.word s.bits n = s.bits[n] :=
      BitSet.word_of_getElem? (List.getElem?_eq_getElem hn)
    have hat : ∀ b ∈ setBits s.bits[n], a[n]? = some (some (n * 64 + b)) := by
      intro b hb
      have hlt := (mem_setBits.mp hb).1
      have hmember : n * 64 + b ∈ BitSet.members s.bits := by
        rw [BitSet.mem_members_at hlt, hword]
        exact (mem_setBits.mp hb).2
      obtain ⟨j, hj⟩ := List.mem_iff_getElem?.mp ((hmem _).mpr ⟨_, hmember, rfl⟩)
      have hplaced := hplace j _ hj
      have hjn : j = n := by omega
      rwa [hjn] at hj
    apply length_le_one (List.nodup_range.filter _)
    intro b hb b' hb'
    have heq := (hat b hb).symm.trans (hat b' hb')
    simp only [Option.some.injEq] at heq
    omega
  intro state hstate
  apply eq_one_of_length_le hle _ _ (List.mem_map_of_mem hstate)
  rw [List.length_map, ← size, ← hlength]
  exact hpassed

/-! ## One bit in every word -/

/-- The words passed have put their members in the array. -/
structure Filled (s : PseudoClassState) (w : Walk) : Prop where
  length : w.a.length = s.bits.length
  index : w.index ≤ s.bits.length
  place : ∀ j < w.index, ∃ b, setBits (BitSet.word s.bits j) = [b]
    ∧ w.a[j]? = some (some (j * 64 + b))

theorem setBits_eq {state : Word} (h : bitCount state = 1) : ∃ b, setBits state = [b] :=
  List.length_eq_one_iff.mp h

theorem Filled.word (h : Filled s w) {state : Word} (hstate : s.bits[w.index]? = some state)
    (hone : PseudoClassState.bitCount state = 1) :
    ∃ w', run s.store w (setBits state) = .ok w' ∧ w'.index = w.index + 1 ∧ Filled s w' := by
  obtain ⟨b, hb⟩ := setBits_eq hone
  have hword : BitSet.word s.bits w.index = state := BitSet.word_of_getElem? hstate
  have hlt : w.index < s.bits.length := (List.getElem?_eq_some_iff.mp hstate).1
  have hbit := mem_setBits.mp (hb ▸ List.mem_singleton_self b)
  have hmember : w.index * 64 + b ∈ BitSet.members s.bits := by
    rw [BitSet.mem_members_at hbit.1, hword]
    exact hbit.2
  have hget : s.getPseudoClass (w.index * 64 + b) = some (w.index * 64 + b) :=
    if_pos (s.known _ hmember)
  refine ⟨⟨w.a.set w.index (some (w.index * 64 + b)), w.index + 1⟩, ?_, rfl, ?_⟩
  · rw [hb, run_singleton, store, hget, aset_ok _ (by rw [h.length]; exact hlt)]
    rfl
  · refine ⟨by rw [List.length_set, h.length], hlt, ?_⟩
    intro j hj
    rcases Nat.lt_succ_iff_lt_or_eq.mp hj with hless | rfl
    · obtain ⟨b', hb', hplace⟩ := h.place j hless
      refine ⟨b', hb', ?_⟩
      rw [List.getElem?_set_ne (by omega), hplace]
    · exact ⟨b, hword ▸ hb, List.getElem?_set_self (by rw [h.length]; exact hlt)⟩

theorem Filled.walkWords (hone : ∀ state ∈ s.bits, PseudoClassState.bitCount state = 1)
    {fuel : ℕ} (hfuel : s.bits.length < w.index + fuel) (h : Filled s w) :
    ∃ w', s.walkWords fuel w = some (.ok w'.a) ∧ w'.index = s.bits.length ∧ Filled s w' := by
  induction fuel generalizing w with
  | zero =>
    have := h.index
    omega
  | succ fuel ih =>
    unfold PseudoClassState.walkWords
    split
    · rename_i hend
      have hpassed := List.getElem?_eq_none_iff.mp hend
      exact ⟨w, rfl, Nat.le_antisymm h.index hpassed, h⟩
    · rename_i state hstate
      obtain ⟨w', hrun, hindex, hfilled⟩ := h.word hstate (hone _ (List.mem_of_getElem? hstate))
      rw [hrun]
      exact ih (by omega) hfilled

theorem size_eq (hone : ∀ state ∈ s.bits, PseudoClassState.bitCount state = 1) :
    s.size = s.bits.length := by
  have hcounts : s.bits.map PseudoClassState.bitCount = List.replicate s.bits.length 1 :=
    List.map_eq_replicate_iff.mpr hone
  rw [size, hcounts, List.sum_replicate, nsmul_one, Nat.cast_id]

theorem right_of_bitCount (hone : ∀ state ∈ s.bits, PseudoClassState.bitCount state = 1) :
    s.Right := by
  have hstart : Filled s ⟨List.replicate s.size none, 0⟩ :=
    ⟨by rw [List.length_replicate, size_eq hone], Nat.zero_le _, fun j hj => by cases hj⟩
  obtain ⟨w, hwalk, hend, hfilled⟩ :=
    hstart.walkWords hone (show s.bits.length < 0 + (s.bits.length + 1) by omega)
  have hplace : ∀ j < w.a.length, ∃ b, setBits (BitSet.word s.bits j) = [b]
      ∧ w.a[j]? = some (some (j * 64 + b)) := by
    intro j hj
    exact hfilled.place j (by rw [hend, ← hfilled.length]; exact hj)
  refine ⟨s.bits.length + 1, w.a, by rw [toArray_eq, hwalk], ?_, ?_⟩
  · rw [List.nodup_iff_getElem?_ne_getElem?]
    intro j k hjk hk heq
    obtain ⟨b, hb, hj⟩ := hplace j (by omega)
    obtain ⟨b', hb', hk⟩ := hplace k hk
    have hlt := (mem_setBits.mp (hb ▸ List.mem_singleton_self b)).1
    have hlt' := (mem_setBits.mp (hb' ▸ List.mem_singleton_self b')).1
    rw [hj, hk] at heq
    simp only [Option.some.injEq] at heq
    omega
  · intro o
    constructor
    · intro ho
      obtain ⟨j, hj⟩ := List.mem_iff_getElem?.mp ho
      obtain ⟨b, hb, hat⟩ := hplace j (List.getElem?_eq_some_iff.mp hj).1
      have hbit := mem_setBits.mp (hb ▸ List.mem_singleton_self b)
      refine ⟨j * 64 + b, (BitSet.mem_members_at hbit.1).mpr hbit.2, ?_⟩
      rw [hj, Option.some.injEq] at hat
      exact hat
    · rintro ⟨i, hi, rfl⟩
      have hbit := mem_members_iff.mp hi
      have hlt : i / 64 < s.bits.length := by
        apply BitSet.lt_length_of_word_ne
        intro hzero
        rw [hzero, mem_setBits] at hbit
        simp at hbit
      obtain ⟨b, hb, hat⟩ := hplace (i / 64) (by rw [hfilled.length]; exact hlt)
      rw [hb, List.mem_singleton] at hbit
      have hi' : i / 64 * 64 + b = i := by omega
      rw [hi'] at hat
      exact List.mem_of_getElem? hat

/-! ## The result -/

/-- **When the array is right.** Exactly if every word has one bit. -/
theorem toArray_right_iff (s : PseudoClassState) :
    s.Right ↔ ∀ state ∈ s.bits, PseudoClassState.bitCount state = 1 :=
  ⟨Right.bitCount, right_of_bitCount⟩

/-- The first two pseudo-classes. -/
def firstTwo : PseudoClassState where
  toBitSet := (((BitSet.new false).add (some 0)).set.add (some 1)).set
  registered := 2
  known := by
    intro i hi
    rw [BitSet.mem_members] at hi
    have hbits : (((BitSet.new false).add (some 0)).set.add (some 1)).set.bits = [3#64] := by decide
    rw [hbits] at hi
    have hdiv : i / 64 = 0 := by
      have hlt : i / 64 < [3#64].length := by
        apply BitSet.lt_length_of_word_ne
        intro hzero
        rw [hzero] at hi
        simp at hi
      simpa using hlt
    rw [hdiv] at hi
    have hlt : i % 64 < 2 := by
      have hall : ∀ b < 64, (3#64).getLsbD b = true → b < 2 := by decide
      exact hall _ (Nat.mod_lt _ (by decide)) hi
    omega

/-- The second one is looked up in the word behind the last one. -/
theorem toArray_not_right : ¬ ∀ s : PseudoClassState, s.Right := by
  intro h
  have hcount := (h firstTwo).bitCount 3#64 (by decide)
  revert hcount
  decide

end PseudoClassState

end JavaFx.Css
