/-
The operations of `BitSet` against the operations on sets.

A call is right (`Right`) if the set afterwards has the elements it should have, if
the result says whether elements came or went, and if the listeners are told of
exactly those. All operations are right about what they tell, but the bulk
operations are not right always: `removeAll` drops the words beyond the end of a
shorter argument, and `addAll` and `retainAll` take a difference in length for a
change. `Fits` says that this does not matter for the arrays at hand, and a call is
right exactly when its arrays fit (`right_iff_fits`).

A system is any number of sets of one class that are used on each other.
-/
import Mathlib
import JavaFx.Css.BitSet
import JavaFx.Lib.Run

set_option autoImplicit false

namespace JavaFx.Css.BitSet

open JavaFx.Lib

variable {a b bits : List Word} {i n : ℕ}

/-! ## The words an operation leaves -/

theorem word_set {e : ℕ} {w : Word} (he : e < bits.length) :
    word (bits.set e w) n = if n = e then w else word bits n := by
  simp only [word, List.getD_eq_getElem?_getD, List.getElem?_set]
  split_ifs with h1 h2 h2
  · rfl
  · exact absurd h1.symm h2
  · exact absurd h2.symm h1
  · rfl

theorem word_append_zeros {k : ℕ} : word (bits ++ List.replicate k 0#64) n = word bits n := by
  by_cases h : n < bits.length
  · rw [word, List.getD_append _ _ _ _ h, word]
  · rw [word_of_length_le (not_lt.mp h), word, List.getD_append_right _ _ _ _ (not_lt.mp h),
      List.getD_eq_getElem?_getD, List.getElem?_replicate]
    split_ifs <;> rfl

theorem word_zipWith {f : Word → Word → Word} (hf : ∀ w, f w 0#64 = 0#64 ∧ f 0#64 w = 0#64) :
    word (List.zipWith f a b) n = f (word a n) (word b n) := by
  by_cases h : n < a.length ∧ n < b.length
  · have ha := List.getElem?_eq_getElem h.1
    have hb := List.getElem?_eq_getElem h.2
    rw [word_of_getElem? ha, word_of_getElem? hb]
    refine word_of_getElem? ?_
    rw [List.getElem?_zipWith, ha, hb]
  · rw [word_of_length_le (by rw [List.length_zipWith]; omega)]
    by_cases ha : n < a.length
    · rw [@word_of_length_le b _ (by omega), (hf _).1]
    · rw [@word_of_length_le a _ (by omega), (hf _).2]

/-- An array whose words are all zero is as good as the empty one. -/
theorem members_if_all_zero {p : Prop} [Decidable p] (h : p → bits.all (· = 0#64) = true) :
    members (if p then [] else bits) = members bits := by
  split_ifs with hp
  · rw [members_nil, eq_comm, members_eq_empty_iff]
    intro n
    by_contra hne
    have hlt := lt_length_of_word_ne hne
    have hall := List.all_eq_true.mp (h hp) bits[n] (List.getElem_mem hlt)
    rw [word_of_getElem? (List.getElem?_eq_getElem hlt)] at hne
    exact hne (by simpa using hall)
  · rfl

/-! ## What the listeners are told -/

/-- The listeners are told of the elements that came and of those that went, of each
once, and of no others. -/
structure Reports (listening : Bool) (before after : Set ℕ) (fired : List SetChange) : Prop where
  nodup : fired.Nodup
  added : ∀ i, ⟨i, false⟩ ∈ fired ↔ listening = true ∧ i ∉ before ∧ i ∈ after
  removed : ∀ i, ⟨i, true⟩ ∈ fired ↔ listening = true ∧ i ∈ before ∧ i ∉ after

theorem reports_nil {listening : Bool} {S : Set ℕ} : Reports listening S S [] := by
  refine ⟨List.nodup_nil, fun i => ?_, fun i => ?_⟩
  · simp
  · simp

variable {s : BitSet} {words : List Word} {removed : Bool}

theorem mem_notifyObservers {c : SetChange} :
    c ∈ s.notifyObservers words removed
      ↔ s.hasListeners = true ∧ c.removed = removed ∧ c.element ∈ members words := by
  rw [notifyObservers]
  split_ifs with hlisten
  · simp only [hlisten, true_and, List.mem_flatMap, List.mem_map, List.mem_filter, List.mem_range,
      decide_eq_true_eq]
    constructor
    · rintro ⟨⟨w, n⟩, hw, k, ⟨hk, hbit⟩, rfl⟩
      refine ⟨rfl, (mem_members_at hk).mpr ?_⟩
      rw [List.mem_zipIdx_iff_getElem?] at hw
      rw [bit_and_eq_iff, Nat.mod_eq_of_lt hk] at hbit
      rw [word_of_getElem? hw]
      exact hbit
    · rintro ⟨hremoved, hmem⟩
      rw [mem_members] at hmem
      have hlt : c.element / 64 < words.length := by
        refine lt_length_of_word_ne (fun hzero => ?_)
        rw [hzero, BitVec.getLsbD_zero] at hmem
        exact Bool.false_ne_true hmem
      have hget := List.getElem?_eq_getElem hlt
      rw [word_of_getElem? hget] at hmem
      have hmod : c.element % 64 < 64 := Nat.mod_lt _ (by omega)
      refine ⟨(words[c.element / 64], c.element / 64), List.mem_zipIdx_iff_getElem?.mpr hget,
        c.element % 64, ⟨hmod, ?_⟩, ?_⟩
      · rwa [bit_and_eq_iff, Nat.mod_mod]
      · cases c
        simp only [SetChange.mk.injEq] at hremoved ⊢
        exact ⟨by omega, hremoved.symm⟩
  · simp [hlisten]

theorem nodup_notifyObservers : (s.notifyObservers words removed).Nodup := by
  rw [notifyObservers]
  split_ifs
  · rw [List.nodup_flatMap]
    constructor
    · intro w _
      refine List.Nodup.map_on ?_ (List.Nodup.filter _ List.nodup_range)
      intro k _ k' _ heq
      rw [SetChange.mk.injEq] at heq
      omega
    · -- the words stand at different places, so their bits have different indices
      have hplaces : (words.zipIdx).Pairwise (fun v w => v.2 ≠ w.2) := by
        have hnodup : ((words.zipIdx).map Prod.snd).Nodup := by
          rw [List.zipIdx_map_snd]
          exact List.nodup_range' _
        exact List.pairwise_map.mp hnodup
      refine hplaces.imp ?_
      intro v w hne c hcv hcw
      simp only [List.mem_map, List.mem_filter, List.mem_range] at hcv hcw
      obtain ⟨k, ⟨hk, -⟩, rfl⟩ := hcv
      obtain ⟨k', ⟨hk', -⟩, heq⟩ := hcw
      rw [SetChange.mk.injEq] at heq
      omega
  · exact List.nodup_nil

/-- The loops over the words tell of exactly the elements that came. -/
theorem reports_added {before after : Set ℕ} (hsub : before ⊆ after)
    (h : ∀ i, i ∈ members words ↔ i ∉ before ∧ i ∈ after) :
    Reports s.hasListeners before after (s.notifyObservers words false) := by
  refine ⟨nodup_notifyObservers, fun i => ?_, fun i => ?_⟩
  · rw [mem_notifyObservers, h]
    simp
  · rw [mem_notifyObservers]
    have : i ∈ before → i ∈ after := fun hi => hsub hi
    simp
    tauto

/-- And of exactly the elements that went. -/
theorem reports_removed {before after : Set ℕ} (hsub : after ⊆ before)
    (h : ∀ i, i ∈ members words ↔ i ∈ before ∧ i ∉ after) :
    Reports s.hasListeners before after (s.notifyObservers words true) := by
  refine ⟨nodup_notifyObservers, fun i => ?_, fun i => ?_⟩
  · rw [mem_notifyObservers]
    have : i ∈ after → i ∈ before := fun hi => hsub hi
    simp
    tauto
  · rw [mem_notifyObservers, h]
    simp

/-! ## One element -/

theorem getLsbD_eq_of_div_eq {t : ℕ} (h : i / 64 = t / 64) :
    (bit t).getLsbD (i % 64) = decide (i = t) := by
  rw [getLsbD_bit (Nat.mod_lt _ (by omega)), decide_eq_decide]
  omega

theorem or_bit_eq_iff {t : ℕ} {w : Word} : w ||| bit t = w ↔ w.getLsbD (t % 64) = true := by
  have ht : t % 64 < 64 := Nat.mod_lt _ (by omega)
  constructor
  · intro h
    rw [← h, BitVec.getLsbD_or, getLsbD_bit ht]
    simp
  · intro h
    apply BitVec.eq_of_getLsbD_eq
    intro k hk
    rw [BitVec.getLsbD_or, getLsbD_bit hk]
    by_cases hkt : k = t % 64
    · rw [hkt, h, Bool.true_or]
    · rw [decide_eq_false hkt, Bool.or_false]

theorem and_not_bit_eq_iff {t : ℕ} {w : Word} :
    w &&& ~~~ bit t = w ↔ ¬ w.getLsbD (t % 64) = true := by
  have ht : t % 64 < 64 := Nat.mod_lt _ (by omega)
  constructor
  · intro h hbit
    rw [← h, BitVec.getLsbD_and, BitVec.getLsbD_not, getLsbD_bit ht] at hbit
    simp at hbit
  · intro h
    apply BitVec.eq_of_getLsbD_eq
    intro k hk
    rw [BitVec.getLsbD_and, BitVec.getLsbD_not, getLsbD_bit hk]
    by_cases hkt : k = t % 64
    · rw [hkt]
      simp only [h, Bool.false_and]
    · simp [hk, hkt]

theorem members_insert {t : ℕ}
    (h : ∀ n, word b n = if n = t / 64 then word a n ||| bit t else word a n) :
    members b = insert t (members a) := by
  ext i
  rw [mem_members, h, Set.mem_insert_iff, mem_members]
  split_ifs with hdiv
  · rw [BitVec.getLsbD_or, getLsbD_eq_of_div_eq hdiv, Bool.or_eq_true, decide_eq_true_iff, or_comm]
  · have hne : i ≠ t := fun heq => hdiv (by rw [heq])
    simp only [hne, false_or]

theorem members_erase {t : ℕ}
    (h : ∀ n, word b n = if n = t / 64 then word a n &&& ~~~ bit t else word a n) :
    members b = members a \ {t} := by
  ext i
  have hi : i % 64 < 64 := Nat.mod_lt _ (by omega)
  rw [mem_members, h, Set.mem_sdiff, Set.mem_singleton_iff, mem_members]
  split_ifs with hdiv
  · rw [BitVec.getLsbD_and, BitVec.getLsbD_not, getLsbD_eq_of_div_eq hdiv]
    simp [hi]
  · have hne : i ≠ t := fun heq => hdiv (by rw [heq])
    simp only [hne, not_false_iff, and_true]

/-- The array of `add`, grown where the element has no word yet. -/
theorem add_grown {t : ℕ} : ∃ grown : List Word, grown.length = max s.bits.length (t / 64 + 1)
    ∧ (∀ n, word grown n = word s.bits n)
    ∧ s.add (some t) = ⟨⟨grown.set (t / 64) (word grown (t / 64) ||| bit t), s.hasListeners⟩,
        decide (word grown (t / 64) ||| bit t ≠ word grown (t / 64)),
        if decide (word grown (t / 64) ||| bit t ≠ word grown (t / 64)) && s.hasListeners
          then [⟨t, false⟩] else []⟩ := by
  refine ⟨if s.bits.length ≤ t / 64
    then s.bits ++ List.replicate (t / 64 + 1 - s.bits.length) 0#64 else s.bits,
    ?_, fun n => ?_, rfl⟩
  · split_ifs with h
    · rw [List.length_append, List.length_replicate]
      omega
    · omega
  · split_ifs
    · exact word_append_zeros
    · rfl

/-! ## Calls and what they should do -/

/-- A call of a mutator. The argument of a bulk operation is another set of the
system, or the set itself. -/
inductive Op (ι : Type)
  | add (t : ℕ)
  | remove (t : ℕ)
  | addAll (other : ι)
  | removeAll (other : ι)
  | retainAll (other : ι)
  | clear
  deriving DecidableEq

section System

variable {ι : Type} (σ : ι → BitSet) (k : ι)

/-- The set afterwards, the result (`clear` has none) and what the listeners are told. -/
def call : Op ι → BitSet × Option Bool × List SetChange
  | .add t => let r := (σ k).add (some t); (r.set, some r.modified, r.fired)
  | .remove t => let r := (σ k).remove (some t); (r.set, some r.modified, r.fired)
  | .addAll j => let r := (σ k).addAll (some (σ j).bits); (r.set, some r.modified, r.fired)
  | .removeAll j => let r := (σ k).removeAll (some (σ j).bits); (r.set, some r.modified, r.fired)
  | .retainAll j => let r := (σ k).retainAll (some (σ j).bits); (r.set, some r.modified, r.fired)
  | .clear => ((σ k).clear.1, none, (σ k).clear.2)

/-- The elements the set should have afterwards. -/
def meaning : Op ι → Set ℕ
  | .add t => insert t (members (σ k).bits)
  | .remove t => members (σ k).bits \ {t}
  | .addAll j => members (σ k).bits ∪ members (σ j).bits
  | .removeAll j => members (σ k).bits \ members (σ j).bits
  | .retainAll j => members (σ k).bits ∩ members (σ j).bits
  | .clear => ∅

/-- What is expected of a call. -/
structure Right (op : Op ι) : Prop where
  elements : members (call σ k op).1.bits = meaning σ k op
  modified : ∀ r ∈ (call σ k op).2.1, r = true ↔ members (σ k).bits ≠ meaning σ k op
  reports : Reports (σ k).hasListeners (members (σ k).bits) (meaning σ k op) (call σ k op).2.2

/-- The lengths of the arrays do not matter for the call: the argument of an
`addAll` is longer only if it has more elements, the argument of a `retainAll` is
shorter only if it lacks elements, and the argument of a `removeAll` is shorter only
if it removes nothing or there is nothing beyond its end. -/
def Fits : Op ι → Prop
  | .addAll j => members (σ j).bits ⊆ members (σ k).bits →
      (σ j).bits.length ≤ (σ k).bits.length
  | .retainAll j => members (σ k).bits ⊆ members (σ j).bits →
      (σ k).bits.length ≤ (σ j).bits.length
  | .removeAll j => (σ k).bits.length ≤ (σ j).bits.length
      ∨ Disjoint (members (σ k).bits) (members (σ j).bits)
      ∨ ∀ i ∈ members (σ k).bits, i < 64 * (σ j).bits.length
  | .add _ | .remove _ | .clear => True

/-- A call on one of the sets. -/
def step [DecidableEq ι] (σ : ι → BitSet) (c : ι × Op ι) : Except Empty (ι → BitSet) :=
  .ok (Function.update σ c.1 (call σ c.1 c.2).1)

/-! ## Each operation -/

variable {σ k} {j : ι} {t : ℕ}

theorem right_add : Right σ k (.add t) := by
  obtain ⟨grown, hlength, hgrown, hadd⟩ := add_grown (s := σ k) (t := t)
  have hlen : t / 64 < grown.length := by omega
  have hmem : members (call σ k (.add t)).1.bits = insert t (members (σ k).bits) := by
    refine members_insert (fun n => ?_)
    rw [call, hadd]
    dsimp only
    rw [word_set hlen]
    split_ifs with hn
    · rw [hgrown, hn]
    · exact hgrown n
  have hmodified : ((σ k).add (some t)).modified = true ↔ t ∉ members (σ k).bits := by
    rw [hadd, hgrown]
    simp only [decide_eq_true_iff, ne_eq, or_bit_eq_iff, mem_members]
  refine ⟨hmem, ?_, ?_⟩
  · rintro r hr
    rw [call, Option.mem_some_iff] at hr
    rw [← hr, hmodified, meaning, ne_comm, ne_eq, Set.insert_eq_self]
  · have hfired : (call σ k (.add t)).2.2 = if ((σ k).add (some t)).modified
        && (σ k).hasListeners then [⟨t, false⟩] else [] := rfl
    rw [hfired, meaning]
    by_cases hin : t ∈ members (σ k).bits
    · rw [Set.insert_eq_of_mem hin, if_neg (by simp [hmodified, hin])]
      exact reports_nil
    · have hm : ((σ k).add (some t)).modified = true := hmodified.mpr hin
      rw [hm, Bool.true_and]
      cases hl : (σ k).hasListeners
      · exact ⟨List.nodup_nil, by simp, by simp⟩
      · refine ⟨List.nodup_singleton _, fun i => ?_, fun i => ?_⟩
        · simp only [if_true, List.mem_singleton, SetChange.mk.injEq, and_true, true_and,
            Set.mem_insert_iff]
          constructor
          · rintro rfl
            exact ⟨hin, .inl rfl⟩
          · rintro ⟨hi, rfl | hi'⟩
            · rfl
            · exact absurd hi' hi
        · simp only [if_true, List.mem_singleton, SetChange.mk.injEq, true_and, Set.mem_insert_iff]
          tauto

theorem right_remove : Right σ k (.remove t) := by
  cases hget : (σ k).bits[t / 64]? with
  | none =>
    have hremove : (σ k).remove (some t) = ⟨σ k, false, []⟩ := by simp only [remove, hget]
    have hnot : t ∉ members (σ k).bits := by
      rw [mem_members, word_of_length_le (List.getElem?_eq_none_iff.mp hget)]
      simp
    have hsame : meaning σ k (.remove t) = members (σ k).bits := Set.sdiff_singleton_eq_self hnot
    refine ⟨?_, ?_, ?_⟩
    · rw [hsame, call, hremove]
    · rintro r hr
      rw [call, hremove, Option.mem_some_iff] at hr
      simp [← hr, hsame]
    · rw [call, hremove, hsame]
      exact reports_nil
  | some temp =>
    obtain ⟨hlt, -⟩ := List.getElem?_eq_some_iff.mp hget
    have htemp : word (σ k).bits (t / 64) = temp := word_of_getElem? hget
    have hremove : (σ k).remove (some t)
        = ⟨{ σ k with bits := if decide (temp &&& ~~~ bit t ≠ temp)
              && ((σ k).bits.set (t / 64) (temp &&& ~~~ bit t)).all (· = 0#64) then []
            else (σ k).bits.set (t / 64) (temp &&& ~~~ bit t) },
          decide (temp &&& ~~~ bit t ≠ temp),
          if decide (temp &&& ~~~ bit t ≠ temp) && (σ k).hasListeners then [⟨t, true⟩]
          else []⟩ := by simp only [remove, hget]
    have hmem : members (call σ k (.remove t)).1.bits = members (σ k).bits \ {t} := by
      rw [call, hremove]
      dsimp only
      rw [members_if_all_zero (fun h => (Bool.and_eq_true_iff.mp h).2)]
      refine members_erase (fun n => ?_)
      rw [word_set hlt]
      split_ifs with hn
      · rw [hn, htemp]
      · rfl
    have hmodified : ((σ k).remove (some t)).modified = true ↔ t ∈ members (σ k).bits := by
      rw [hremove, mem_members, htemp]
      simp only [decide_eq_true_iff, ne_eq, and_not_bit_eq_iff, not_not]
    refine ⟨hmem, ?_, ?_⟩
    · rintro r hr
      rw [call, Option.mem_some_iff] at hr
      rw [← hr, hmodified, meaning]
      constructor
      · intro hin heq
        rw [heq] at hin
        exact hin.2 rfl
      · intro hne
        by_contra hnot
        exact hne (Set.sdiff_singleton_eq_self hnot).symm
    · have hfired : (call σ k (.remove t)).2.2 = if ((σ k).remove (some t)).modified
          && (σ k).hasListeners then [⟨t, true⟩] else [] := by rw [call, hremove]
      rw [hfired, meaning]
      by_cases hin : t ∈ members (σ k).bits
      · have hm : ((σ k).remove (some t)).modified = true := hmodified.mpr hin
        rw [hm, Bool.true_and]
        cases hl : (σ k).hasListeners
        · exact ⟨List.nodup_nil, by simp, by simp⟩
        · refine ⟨List.nodup_singleton _, fun i => ?_, fun i => ?_⟩
          · simp only [if_true, List.mem_singleton, SetChange.mk.injEq, true_and, Set.mem_sdiff,
              Set.mem_singleton_iff]
            tauto
          · simp only [if_true, List.mem_singleton, SetChange.mk.injEq, and_true, true_and,
              Set.mem_sdiff, Set.mem_singleton_iff]
            constructor
            · rintro rfl
              exact ⟨hin, by simp⟩
            · rintro ⟨hi, hnot⟩
              by_contra hne
              exact hnot ⟨hi, hne⟩
      · rw [Set.sdiff_singleton_eq_self hin, if_neg (by simp [hmodified, hin])]
        exact reports_nil

theorem right_clear : Right σ k .clear := by
  refine ⟨members_nil, ?_, ?_⟩
  · rintro r hr
    simp [call] at hr
  · exact reports_removed (Set.empty_subset _) (fun i => by simp [meaning])

/-! ## The bulk operations -/

theorem members_or (h : ∀ n, word bits n = word a n ||| word b n) :
    members bits = members a ∪ members b := by
  ext i
  rw [mem_members, h, BitVec.getLsbD_or, Bool.or_eq_true, Set.mem_union, mem_members, mem_members]

theorem members_and (h : ∀ n, word bits n = word a n &&& word b n) :
    members bits = members a ∩ members b := by
  ext i
  rw [mem_members, h, BitVec.getLsbD_and, Bool.and_eq_true, Set.mem_inter_iff, mem_members,
    mem_members]

theorem mem_members_and_not (h : ∀ n, word bits n = word a n &&& ~~~ word b n) :
    i ∈ members bits ↔ i ∈ members a ∧ i ∉ members b := by
  have hi : i % 64 < 64 := Nat.mod_lt _ (by omega)
  rw [mem_members, h, BitVec.getLsbD_and, BitVec.getLsbD_not, mem_members, mem_members]
  simp [hi]

theorem word_map_range {m : ℕ} {f : ℕ → Word} :
    word ((List.range m).map f) n = if n < m then f n else 0#64 := by
  split_ifs with h
  · exact word_of_getElem? (by rw [List.getElem?_map, List.getElem?_range h, Option.map_some])
  · exact word_of_length_le (by rw [List.length_map, List.length_range]; omega)

theorem and_not_zero {w : Word} : w &&& ~~~ (0#64) = w := by
  rw [BitVec.not_zero, BitVec.and_allOnes]

theorem and_not_eq_left_iff {v w : Word} : v &&& ~~~ w = v ↔ v &&& w = 0#64 := by
  constructor
  · intro h
    rw [← h, BitVec.and_assoc, BitVec.and_comm (~~~ w), BitVec.and_not_self]
    exact BitVec.and_zero
  · intro h
    apply BitVec.eq_of_getLsbD_eq
    intro k hk
    have hbit := congrArg (fun u => u.getLsbD k) h
    rw [BitVec.getLsbD_and, BitVec.getLsbD_zero] at hbit
    rw [BitVec.getLsbD_and, BitVec.getLsbD_not]
    cases hv : v.getLsbD k
    · rfl
    · rw [hv, Bool.true_and] at hbit
      rw [hbit]
      simp [hk]

theorem or_eq_left_iff {v w : Word} : v ||| w = v ↔ w &&& v = w := by
  constructor
  · intro h
    rw [← h]
    apply BitVec.eq_of_getLsbD_eq
    intro k hk
    rw [BitVec.getLsbD_and, BitVec.getLsbD_or]
    cases w.getLsbD k <;> simp
  · intro h
    rw [← h]
    apply BitVec.eq_of_getLsbD_eq
    intro k hk
    rw [BitVec.getLsbD_or, BitVec.getLsbD_and]
    cases v.getLsbD k <;> simp

/-- `addAll` takes a longer argument for a change. -/
theorem addAll_spec : ∃ (m : Bool) (union bitsAdded : List Word),
    (m = true ↔ s.bits.length < b.length ∨ ¬ members b ⊆ members s.bits)
    ∧ members union = members s.bits ∪ members b
    ∧ (∀ i, i ∈ members bitsAdded ↔ i ∈ members b ∧ i ∉ members s.bits)
    ∧ s.addAll (some b) = if m then ⟨{ s with bits := union }, true,
        s.notifyObservers bitsAdded false⟩ else ⟨s, false, []⟩ := by
  refine ⟨_, _, _, ?_, ?_, ?_, rfl⟩
  · rw [List.any_map, List.any_eq_true, members_subset_iff, not_forall]
    constructor
    · rintro ⟨n, hn, hm⟩
      have hmax : n < max s.bits.length b.length := List.mem_range.mp hn
      by_cases ha : n < s.bits.length
      · right
        refine ⟨n, fun hsub => ?_⟩
        by_cases hb : n < b.length
        · rw [word_of_getElem? (List.getElem?_eq_getElem ha),
            word_of_getElem? (List.getElem?_eq_getElem hb), ← or_eq_left_iff] at hsub
          simp [Function.comp, List.getElem?_eq_getElem ha, List.getElem?_eq_getElem hb, hsub] at hm
        · simp [Function.comp, List.getElem?_eq_getElem ha,
            List.getElem?_eq_none (not_lt.mp hb)] at hm
      · left
        omega
    · rintro (hlt | ⟨n, hne⟩)
      · refine ⟨s.bits.length, List.mem_range.mpr (lt_of_lt_of_le hlt (le_max_right _ _)), ?_⟩
        simp [Function.comp]
      · have hb : n < b.length := by
          refine lt_length_of_word_ne (fun hzero => hne ?_)
          rw [hzero, BitVec.zero_and]
        refine ⟨n, List.mem_range.mpr (lt_of_lt_of_le hb (le_max_right _ _)), ?_⟩
        by_cases ha : n < s.bits.length
        · rw [word_of_getElem? (List.getElem?_eq_getElem ha),
            word_of_getElem? (List.getElem?_eq_getElem hb), ← or_eq_left_iff] at hne
          simp [Function.comp, List.getElem?_eq_getElem ha, List.getElem?_eq_getElem hb, hne]
        · simp [Function.comp, List.getElem?_eq_none (not_lt.mp ha)]
  · refine members_or (fun n => ?_)
    rw [List.map_map, word_map_range]
    by_cases ha : n < s.bits.length
    · rw [if_pos (lt_of_lt_of_le ha (le_max_left _ _)),
        word_of_getElem? (List.getElem?_eq_getElem ha)]
      by_cases hb : n < b.length
      · rw [word_of_getElem? (List.getElem?_eq_getElem hb)]
        simp [Function.comp, List.getElem?_eq_getElem ha, List.getElem?_eq_getElem hb]
      · rw [word_of_length_le (not_lt.mp hb)]
        simp [Function.comp, List.getElem?_eq_getElem ha, List.getElem?_eq_none (not_lt.mp hb)]
    · rw [word_of_length_le (not_lt.mp ha)]
      by_cases hb : n < b.length
      · rw [if_pos (lt_of_lt_of_le hb (le_max_right _ _)),
          word_of_getElem? (List.getElem?_eq_getElem hb)]
        simp [Function.comp, List.getElem?_eq_getElem hb, List.getElem?_eq_none (not_lt.mp ha)]
      · rw [if_neg (not_lt.mpr (max_le (not_lt.mp ha) (not_lt.mp hb))),
          word_of_length_le (not_lt.mp hb), BitVec.or_zero]
  · intro i
    refine mem_members_and_not (fun n => ?_)
    rw [List.map_map, word_map_range]
    by_cases ha : n < s.bits.length
    · rw [if_pos (lt_of_lt_of_le ha (le_max_left _ _)),
        word_of_getElem? (List.getElem?_eq_getElem ha), BitVec.and_comm]
      by_cases hb : n < b.length
      · rw [word_of_getElem? (List.getElem?_eq_getElem hb)]
        simp [Function.comp, List.getElem?_eq_getElem ha, List.getElem?_eq_getElem hb]
      · rw [word_of_length_le (not_lt.mp hb)]
        simp [Function.comp, List.getElem?_eq_getElem ha, List.getElem?_eq_none (not_lt.mp hb)]
    · rw [word_of_length_le (not_lt.mp ha)]
      by_cases hb : n < b.length
      · rw [if_pos (lt_of_lt_of_le hb (le_max_right _ _)),
          word_of_getElem? (List.getElem?_eq_getElem hb), and_not_zero]
        simp [Function.comp, List.getElem?_eq_getElem hb, List.getElem?_eq_none (not_lt.mp ha)]
      · rw [if_neg (not_lt.mpr (max_le (not_lt.mp ha) (not_lt.mp hb))),
          word_of_length_le (not_lt.mp hb), BitVec.zero_and]

/-- The words of two arrays side by side: a test of all of them up to the end of the
shorter array. -/
theorem any_zip_iff {f : Word × Word → Bool} : (List.zip a b).any f = true
    ↔ ∃ n, n < a.length ∧ n < b.length ∧ f (word a n, word b n) = true := by
  rw [List.any_eq_true]
  constructor
  · rintro ⟨w, hw, hf⟩
    obtain ⟨n, hn, rfl⟩ := List.getElem_of_mem hw
    rw [List.length_zip] at hn
    refine ⟨n, by omega, by omega, ?_⟩
    rw [List.getElem_zip] at hf
    rwa [word_of_getElem? (List.getElem?_eq_getElem (by omega)),
      word_of_getElem? (List.getElem?_eq_getElem (by omega))]
  · rintro ⟨n, ha, hb, hf⟩
    rw [word_of_getElem? (List.getElem?_eq_getElem ha),
      word_of_getElem? (List.getElem?_eq_getElem hb)] at hf
    have hn : n < (List.zip a b).length := by rw [List.length_zip]; omega
    refine ⟨(List.zip a b)[n], List.getElem_mem hn, ?_⟩
    rwa [List.getElem_zip]

/-- `retainAll` takes a shorter argument for a change. -/
theorem retainAll_spec : ∃ (m : Bool) (kept bitsRemoved : List Word),
    (m = true ↔ b.length < s.bits.length ∨ ¬ members s.bits ⊆ members b)
    ∧ members kept = members s.bits ∩ members b
    ∧ (∀ i, i ∈ members bitsRemoved ↔ i ∈ members s.bits ∧ i ∉ members b)
    ∧ s.retainAll (some b) = if m then ⟨{ s with bits := kept }, true,
        s.notifyObservers bitsRemoved true⟩ else ⟨s, false, []⟩ := by
  refine ⟨_, _, _, ?_, ?_, ?_, rfl⟩
  · rw [Bool.or_eq_true, decide_eq_true_iff, any_zip_iff, members_subset_iff, not_forall]
    have hmin : Nat.min s.bits.length b.length < s.bits.length ↔ b.length < s.bits.length := by
      change min s.bits.length b.length < s.bits.length ↔ _
      omega
    rw [hmin]
    constructor
    · rintro (hlt | ⟨n, -, -, hne⟩)
      · exact .inl hlt
      · exact .inr ⟨n, by simpa using hne⟩
    · rintro (hlt | ⟨n, hne⟩)
      · exact .inl hlt
      · have ha : n < s.bits.length := by
          refine lt_length_of_word_ne (fun hzero => hne ?_)
          rw [hzero, BitVec.zero_and]
        by_cases hb : n < b.length
        · exact .inr ⟨n, ha, hb, by simpa using hne⟩
        · exact .inl (by omega)
  · rw [members_if_all_zero (fun h => h)]
    exact members_and (fun n => word_zipWith (fun w => ⟨BitVec.and_zero, BitVec.zero_and⟩))
  · intro i
    refine mem_members_and_not (fun n => ?_)
    by_cases ha : n < s.bits.length
    · have hget := List.getElem?_eq_getElem ha
      rw [word_of_getElem? hget]
      refine word_of_getElem? ?_
      rw [List.getElem?_map, List.getElem?_zipIdx, hget, Nat.zero_add]
      by_cases hb : n < b.length
      · rw [word_of_getElem? (List.getElem?_eq_getElem hb)]
        simp [List.getElem?_eq_getElem hb]
      · rw [word_of_length_le (not_lt.mp hb), and_not_zero]
        simp [List.getElem?_eq_none (not_lt.mp hb)]
    · rw [word_of_length_le (by simpa using not_lt.mp ha), word_of_length_le (not_lt.mp ha),
        BitVec.zero_and]

/-- `removeAll` keeps nothing beyond the end of the argument. -/
theorem removeAll_spec : ∃ (m : Bool) (kept bitsRemoved : List Word),
    (m = true ↔ ¬ Disjoint (members s.bits) (members b))
    ∧ (∀ i, i ∈ members kept ↔ i ∈ members s.bits ∧ i ∉ members b ∧ i < 64 * b.length)
    ∧ (∀ i, i ∈ members bitsRemoved ↔ i ∈ members s.bits ∧ i ∈ members b)
    ∧ s.removeAll (some b) = if m then ⟨{ s with bits := kept }, true,
        s.notifyObservers bitsRemoved true⟩ else ⟨s, false, []⟩ := by
  refine ⟨_, _, _, ?_, ?_, ?_, rfl⟩
  · rw [any_zip_iff, Set.not_disjoint_iff]
    constructor
    · rintro ⟨n, -, -, hne⟩
      rw [decide_eq_true_iff, ne_eq, and_not_eq_left_iff] at hne
      by_contra hno
      refine hne (BitVec.eq_of_getLsbD_eq (fun k hk => ?_))
      rw [BitVec.getLsbD_and, BitVec.getLsbD_zero, ← Bool.not_eq_true, Bool.and_eq_true]
      rintro ⟨hak, hbk⟩
      exact hno ⟨n * 64 + k, (mem_members_at hk).mpr hak, (mem_members_at hk).mpr hbk⟩
    · rintro ⟨i, hia, hib⟩
      rw [mem_members] at hia hib
      refine ⟨i / 64, lt_length_of_word_ne (fun hzero => ?_),
        lt_length_of_word_ne (fun hzero => ?_), ?_⟩
      · simp [hzero] at hia
      · simp [hzero] at hib
      · rw [decide_eq_true_iff, ne_eq, and_not_eq_left_iff]
        intro hzero
        have hbit := congrArg (fun u => u.getLsbD (i % 64)) hzero
        simp [hia, hib] at hbit
  · intro i
    have hi : i % 64 < 64 := Nat.mod_lt _ (by omega)
    rw [members_if_all_zero (fun h => h), mem_members]
    by_cases h : i / 64 < s.bits.length ∧ i / 64 < b.length
    · have ha := List.getElem?_eq_getElem h.1
      have hb := List.getElem?_eq_getElem h.2
      have hword : word (List.zipWith (fun one two => one &&& ~~~ two) s.bits b) (i / 64)
          = word s.bits (i / 64) &&& ~~~ word b (i / 64) := by
        rw [word_of_getElem? ha, word_of_getElem? hb]
        refine word_of_getElem? ?_
        rw [List.getElem?_zipWith, ha, hb]
      have hlt : i < 64 * b.length := by omega
      rw [hword, BitVec.getLsbD_and, BitVec.getLsbD_not, mem_members, mem_members]
      simp [hi, hlt]
    · rw [word_of_length_le (by rw [List.length_zipWith]; omega), BitVec.getLsbD_zero]
      constructor
      · rintro hfalse
        exact absurd hfalse Bool.false_ne_true
      · rintro ⟨hia, -, hlt⟩
        have hlen : i / 64 < s.bits.length := by
          refine lt_length_of_word_ne (fun hzero => ?_)
          rw [mem_members, hzero, BitVec.getLsbD_zero] at hia
          exact Bool.false_ne_true hia
        exact absurd ⟨hlen, by omega⟩ h
  · intro i
    have hinter : members (List.zipWith (· &&& ·) s.bits b) = members s.bits ∩ members b :=
      members_and (fun n => word_zipWith (fun w => ⟨BitVec.and_zero, BitVec.zero_and⟩))
    rw [hinter, Set.mem_inter_iff]

theorem right_addAll_iff : Right σ k (.addAll j) ↔ Fits σ k (.addAll j) := by
  obtain ⟨m, union, bitsAdded, hm, hunion, hadded, haddAll⟩ :=
    addAll_spec (s := σ k) (b := (σ j).bits)
  have hchanged : members (σ k).bits ≠ meaning σ k (.addAll j)
      ↔ ¬ members (σ j).bits ⊆ members (σ k).bits := by
    rw [meaning, ne_comm, ne_eq, Set.union_eq_left]
  constructor
  · rintro hright hsub
    by_contra hlt
    have hmodified := hright.modified m (by rw [call, haddAll]; cases m <;> rfl)
    rw [hchanged] at hmodified
    exact hmodified.mp (hm.mpr (.inl (not_le.mp hlt))) hsub
  · intro hfits
    have hm' : m = true ↔ ¬ members (σ j).bits ⊆ members (σ k).bits := by
      rw [hm]
      exact ⟨fun h => h.elim (fun hlt hsub => absurd (hfits hsub) (not_le.mpr hlt)) id, .inr⟩
    cases m with
    | true =>
      refine ⟨?_, ?_, ?_⟩
      · rw [call, haddAll]
        exact hunion
      · rintro r hr
        rw [call, haddAll, Option.mem_some_iff] at hr
        rw [← hr, hchanged]
        exact hm'
      · rw [call, haddAll]
        refine reports_added Set.subset_union_left (fun i => ?_)
        rw [hadded, meaning, Set.mem_union]
        tauto
    | false =>
      have hsub : members (σ j).bits ⊆ members (σ k).bits := by
        by_contra hnot
        exact Bool.false_ne_true (hm'.mpr hnot)
      have hsame : meaning σ k (.addAll j) = members (σ k).bits :=
        Set.union_eq_left.mpr hsub
      refine ⟨?_, ?_, ?_⟩
      · rw [call, haddAll, hsame]
        rfl
      · rintro r hr
        rw [call, haddAll, Option.mem_some_iff] at hr
        rw [← hr, hsame]
        simp
      · rw [call, haddAll, hsame]
        exact reports_nil

theorem right_retainAll_iff : Right σ k (.retainAll j) ↔ Fits σ k (.retainAll j) := by
  obtain ⟨m, kept, bitsRemoved, hm, hkept, hremoved, hretainAll⟩ :=
    retainAll_spec (s := σ k) (b := (σ j).bits)
  have hchanged : members (σ k).bits ≠ meaning σ k (.retainAll j)
      ↔ ¬ members (σ k).bits ⊆ members (σ j).bits := by
    rw [meaning, ne_comm, ne_eq, Set.inter_eq_left]
  constructor
  · rintro hright hsub
    by_contra hlt
    have hmodified := hright.modified m (by rw [call, hretainAll]; cases m <;> rfl)
    rw [hchanged] at hmodified
    exact hmodified.mp (hm.mpr (.inl (not_le.mp hlt))) hsub
  · intro hfits
    have hm' : m = true ↔ ¬ members (σ k).bits ⊆ members (σ j).bits := by
      rw [hm]
      exact ⟨fun h => h.elim (fun hlt hsub => absurd (hfits hsub) (not_le.mpr hlt)) id, .inr⟩
    cases m with
    | true =>
      refine ⟨?_, ?_, ?_⟩
      · rw [call, hretainAll]
        exact hkept
      · rintro r hr
        rw [call, hretainAll, Option.mem_some_iff] at hr
        rw [← hr, hchanged]
        exact hm'
      · rw [call, hretainAll]
        refine reports_removed Set.inter_subset_left (fun i => ?_)
        rw [hremoved, meaning, Set.mem_inter_iff]
        tauto
    | false =>
      have hsub : members (σ k).bits ⊆ members (σ j).bits := by
        by_contra hnot
        exact Bool.false_ne_true (hm'.mpr hnot)
      have hsame : meaning σ k (.retainAll j) = members (σ k).bits :=
        Set.inter_eq_left.mpr hsub
      refine ⟨?_, ?_, ?_⟩
      · rw [call, hretainAll, hsame]
        rfl
      · rintro r hr
        rw [call, hretainAll, Option.mem_some_iff] at hr
        rw [← hr, hsame]
        simp
      · rw [call, hretainAll, hsame]
        exact reports_nil

theorem right_removeAll_iff : Right σ k (.removeAll j) ↔ Fits σ k (.removeAll j) := by
  obtain ⟨m, kept, bitsRemoved, hm, hkept, hremoved, hremoveAll⟩ :=
    removeAll_spec (s := σ k) (b := (σ j).bits)
  cases m with
  | true =>
    have hmeet : ¬ Disjoint (members (σ k).bits) (members (σ j).bits) := hm.mp rfl
    have hset : members (call σ k (.removeAll j)).1.bits = members kept := by
      rw [call, hremoveAll]
      rfl
    constructor
    · intro hright
      -- nothing may stand beyond the end of the argument
      refine .inr (.inr (fun i hi => ?_))
      by_cases hij : i ∈ members (σ j).bits
      · have hlt : i / 64 < (σ j).bits.length := by
          refine lt_length_of_word_ne (fun hzero => ?_)
          rw [mem_members, hzero, BitVec.getLsbD_zero] at hij
          exact Bool.false_ne_true hij
        omega
      · have hi' : i ∈ members (call σ k (.removeAll j)).1.bits := by
          rw [hright.elements]
          exact ⟨hi, hij⟩
        rw [hset, hkept] at hi'
        exact hi'.2.2
    · intro hfits
      have hlt : ∀ i ∈ members (σ k).bits, i < 64 * (σ j).bits.length := by
        rcases hfits with hle | hdisjoint | hlt
        · intro i hi
          have hlen : i / 64 < (σ k).bits.length := by
            refine lt_length_of_word_ne (fun hzero => ?_)
            rw [mem_members, hzero, BitVec.getLsbD_zero] at hi
            exact Bool.false_ne_true hi
          omega
        · exact absurd hdisjoint hmeet
        · exact hlt
      refine ⟨?_, ?_, ?_⟩
      · rw [hset, meaning]
        ext i
        rw [hkept, Set.mem_sdiff]
        have := hlt i
        tauto
      · rintro r hr
        rw [call, hremoveAll, Option.mem_some_iff] at hr
        have hne : members (σ k).bits ≠ meaning σ k (.removeAll j) := by
          rw [meaning, ne_comm, ne_eq, sdiff_eq_left]
          exact hmeet
        simp only [← hr, if_true, true_iff]
        exact hne
      · rw [call, hremoveAll]
        refine reports_removed Set.sdiff_subset (fun i => ?_)
        rw [hremoved, meaning, Set.mem_sdiff]
        tauto
  | false =>
    have hdisjoint : Disjoint (members (σ k).bits) (members (σ j).bits) := by
      by_contra hmeet
      exact Bool.false_ne_true (hm.mpr hmeet)
    have hsame : meaning σ k (.removeAll j) = members (σ k).bits := sdiff_eq_left.mpr hdisjoint
    refine iff_of_true ⟨?_, ?_, ?_⟩ (.inr (.inl hdisjoint))
    · rw [call, hremoveAll, hsame]
      rfl
    · rintro r hr
      rw [call, hremoveAll, Option.mem_some_iff] at hr
      rw [← hr, hsame]
      simp
    · rw [call, hremoveAll, hsame]
      exact reports_nil

/-- **A call is right exactly when its arrays fit.** -/
theorem right_iff_fits {op : Op ι} : Right σ k op ↔ Fits σ k op := by
  cases op with
  | add t => exact iff_of_true right_add trivial
  | remove t => exact iff_of_true right_remove trivial
  | addAll j => exact right_addAll_iff
  | removeAll j => exact right_removeAll_iff
  | retainAll j => exact right_retainAll_iff
  | clear => exact iff_of_true right_clear trivial

end System

/-! ## Runs -/

/-- **Every call of a run is right exactly when every call finds arrays that fit.** -/
theorem bitSet_run_right_iff {ι : Type} [DecidableEq ι] (σ : ι → BitSet) (calls : List (ι × Op ι)) :
    Along step (fun σ c => Right σ c.1 c.2) σ calls
      ↔ Along step (fun σ c => Fits σ c.1 c.2) σ calls := by
  constructor
  · exact fun h => h.mono (fun σ c => right_iff_fits.mp)
  · exact fun h => h.mono (fun σ c => right_iff_fits.mpr)

/-- The element 64 is lost: it is beyond the one word of the set that is removed. -/
theorem bitSet_run_loses : ¬ ∀ (σ : Bool → BitSet) (calls : List (Bool × Op Bool)),
    Along step (fun σ c => Right σ c.1 c.2) σ calls := by
  intro h
  have hright := h (fun _ => new true)
    [(true, .add 0), (true, .add 64), (false, .add 0), (true, .removeAll false)]
  have hlast := (Along.at_end
    ([(true, .add 0), (true, .add 64), (false, .add 0)] : List (Bool × Op Bool)) hright rfl).elements
  have h64 := Set.ext_iff.mp hlast 64
  exact absurd (h64.mpr ⟨by decide, by decide⟩) (by decide)

end JavaFx.Css.BitSet
