/-
`equals`, `hashCode` and `containsAll` of `BitSet`.

The three compare word arrays, lengths included. So `equals` tells two sets with the
same elements apart, and `containsAll` denies that a set contains another one, when
the arrays differ by words that are zero (`extensional_iff`). The mutators do leave
such words: `remove` looks only for an array that is zero altogether. Sets that are
only added to have canonical arrays and are compared as they should
(`Canonical.extensional`).
-/
import JavaFx.Css.BitSetOperations

set_option autoImplicit false

namespace JavaFx.Css.BitSet

open JavaFx.Lib

variable {s t : BitSet} {a b : List Word}

theorem all_zip_iff {f : Word × Word → Bool} : (List.zip a b).all f = true
    ↔ ∀ n, n < a.length → n < b.length → f (word a n, word b n) = true := by
  rw [← Bool.not_eq_false, List.all_eq_not_any_not, Bool.not_eq_false', any_zip_iff]
  simp only [Bool.not_eq_true', not_exists, not_and, Bool.not_eq_false]

theorem equals_iff : s.equals t = true ↔ s.bits = t.bits := by
  rw [equals, Bool.and_eq_true, decide_eq_true_iff, all_zip_iff]
  constructor
  · rintro ⟨hlen, hall⟩
    refine List.ext_getElem hlen (fun n hn hn' => ?_)
    have hword := hall n hn hn'
    rwa [decide_eq_true_iff, word_of_getElem? (List.getElem?_eq_getElem hn),
      word_of_getElem? (List.getElem?_eq_getElem hn')] at hword
  · intro h
    rw [h]
    exact ⟨rfl, fun _ _ _ => decide_eq_true rfl⟩

theorem containsAll_iff : s.containsAll (some b) = true
    ↔ b.length ≤ s.bits.length ∧ members b ⊆ members s.bits := by
  rw [containsAll]
  by_cases hnil : s.bits.length = 0 ∧ b.length = 0
  · have hb : b = [] := List.eq_nil_of_length_eq_zero hnil.2
    rw [if_pos hnil, hb, members_nil]
    simp
  · rw [if_neg hnil]
    by_cases hlt : s.bits.length < b.length
    · rw [if_pos hlt]
      simp only [Bool.false_eq_true, false_iff, not_and]
      omega
    · rw [if_neg hlt, all_zip_iff, members_subset_iff]
      constructor
      · intro hall
        refine ⟨not_lt.mp hlt, fun n => ?_⟩
        by_cases hn : n < b.length
        · have hword := hall n (by omega) hn
          rwa [decide_eq_true_iff, BitVec.and_comm] at hword
        · rw [word_of_length_le (not_lt.mp hn), BitVec.zero_and]
      · rintro ⟨-, hsub⟩ n - -
        rw [decide_eq_true_iff, BitVec.and_comm]
        exact hsub n

/-- What is expected of the comparisons of two sets. -/
structure Extensional (s t : BitSet) : Prop where
  equals : s.equals t = true ↔ members s.bits = members t.bits
  hashCode : s.equals t = true → s.hashCode = t.hashCode
  containsAll : s.containsAll (some t.bits) = true ↔ members t.bits ⊆ members s.bits

/-- The lengths of the arrays follow the elements. -/
structure LengthsFit (s t : BitSet) : Prop where
  equal : members s.bits = members t.bits → s.bits.length = t.bits.length
  subset : members t.bits ⊆ members s.bits → t.bits.length ≤ s.bits.length

theorem extensional_iff : Extensional s t ↔ LengthsFit s t := by
  constructor
  · rintro ⟨hequals, -, hcontains⟩
    refine ⟨fun hmem => ?_, fun hsub => ?_⟩
    · rw [equals_iff.mp (hequals.mpr hmem)]
    · exact (containsAll_iff.mp (hcontains.mpr hsub)).1
  · rintro ⟨hequal, hsubset⟩
    refine ⟨?_, fun h => ?_, ?_⟩
    · rw [equals_iff]
      constructor
      · exact fun h => by rw [h]
      · intro hmem
        refine List.ext_getElem (hequal hmem) (fun n hn hn' => ?_)
        have hword := members_eq_iff.mp hmem n
        rwa [word_of_getElem? (List.getElem?_eq_getElem hn),
          word_of_getElem? (List.getElem?_eq_getElem hn')] at hword
    · rw [BitSet.hashCode, BitSet.hashCode, equals_iff.mp h]
    · rw [containsAll_iff]
      exact ⟨And.right, fun hsub => ⟨hsubset hsub, hsub⟩⟩

/-! ## Sets built by `add` -/

theorem Canonical.containsAll (h : Canonical b) :
    s.containsAll (some b) = true ↔ members b ⊆ members s.bits := by
  rw [containsAll_iff]
  exact ⟨And.right, fun hsub => ⟨h.length_le hsub, hsub⟩⟩

/-- `add` sets a bit of the last word where it makes the array longer. -/
theorem Canonical.add (h : Canonical s.bits) (i : ℕ) : Canonical (s.add (some i)).set.bits := by
  obtain ⟨grown, hlength, hgrown, hadd⟩ := add_grown (s := s) (t := i)
  have hlen : i / 64 < grown.length := by omega
  rw [hadd]
  refine canonical_of_word_ne ?_
  dsimp only
  rw [List.length_set, word_set hlen]
  split_ifs with hlast
  · intro hzero
    have hbit := congrArg (fun w => w.getLsbD (i % 64)) hzero
    have hi : i % 64 < 64 := Nat.mod_lt _ (by omega)
    simp [getLsbD_bit hi] at hbit
  · have hnil : s.bits ≠ [] := by
      rintro hnil
      rw [hnil, List.length_nil] at hlength
      omega
    have hsame : grown.length - 1 = s.bits.length - 1 := by omega
    rw [hgrown, hsame]
    exact h.word_ne hnil

/-! ## Reachable sets -/

/-- Every call leads to a state: no run fails. -/
theorem run_step_ok {ι : Type} [DecidableEq ι] (calls : List (ι × Op ι)) (σ : ι → BitSet) :
    ∃ σ', run step σ calls = .ok σ' := by
  induction calls generalizing σ with
  | nil => exact ⟨σ, rfl⟩
  | cons c calls ih => exact ih _

/-- **Two sets of a reachable state are compared as sets exactly when the lengths of
their arrays follow their elements.** -/
theorem bitSet_extensional_iff {ι : Type} [DecidableEq ι] (listening : ι → Bool)
    (calls : List (ι × Op ι)) :
    ∃ σ, run step (fun k => new (listening k)) calls = .ok σ
      ∧ ∀ j k, Extensional (σ j) (σ k) ↔ LengthsFit (σ j) (σ k) := by
  obtain ⟨σ, hrun⟩ := run_step_ok calls (fun k => new (listening k))
  exact ⟨σ, hrun, fun j k => extensional_iff⟩

/-- The set that had 64 removed keeps an empty second word, and is not equal to the
set that never had 64. -/
theorem bitSet_not_extensional : ¬ ∀ (listening : Bool → Bool) (calls : List (Bool × Op Bool)),
    ∃ σ, run step (fun k => new (listening k)) calls = .ok σ
      ∧ ∀ j k, Extensional (σ j) (σ k) := by
  intro h
  obtain ⟨σ, hrun, hext⟩ := h (fun _ => false)
    [(true, .add 0), (true, .add 64), (true, .remove 64), (false, .add 0)]
  have htrue : (σ true).bits = [1#64, 0#64] := by
    cases hrun
    decide
  have hfalse : (σ false).bits = [1#64] := by
    cases hrun
    decide
  have hsub : members (σ true).bits ⊆ members (σ false).bits := by
    rw [htrue, hfalse, members_subset_iff]
    rintro (_ | _ | n)
    · decide
    · decide
    · exact BitVec.zero_and
  have hlen := (extensional_iff.mp (hext false true)).subset hsub
  rw [htrue, hfalse] at hlen
  simp at hlen

end JavaFx.Css.BitSet
