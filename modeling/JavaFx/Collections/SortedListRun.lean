/-
A `SortedList` through the changes of its source and of its comparator.

`Reached P s source` says that `s` is the list after some changes, each of which met
`P` when it came, and that `source` is its source. A change may come after its elements
have changed their order by the comparator, if it reports updates; and it may leave the
list in the middle of it, when it throws.

While every permutation that comes to a sorted list is one of the whole source
(`Covers`), the list keeps its invariant (`Inv`) and no change throws.
-/
import JavaFx.Collections.SortedListUnsort

set_option autoImplicit false

namespace JavaFx.Collections.SortedList

open JavaFx.Lib JavaFx.ListChange

variable {E : Type} {s : SortedList E} {source final : List E} {compare : E → E → ℤ}

/-! ## A change of the source, with a comparator -/

theorem nextChange_addRemove {list R : List E} {a b : ℕ} :
    s.nextChange compare list (.addRemove a b R) = s.addRemove compare list (.addRemove a b R) := by
  rw [nextChange, SubChange.addRemove_wasPermutated, if_neg Bool.false_ne_true,
    SubChange.addRemove_wasUpdated, if_neg Bool.false_ne_true]

/-- The add/remove part of a change. -/
theorem edits_spec (hcompare : IsTotalPreorder compare) {off : ℕ} {old new : List E}
    {cs : List (SubChange E)} (hedits : Edits off old new cs) (L : List E) (hoff : off = L.length)
    (h : Maps s (L ++ old)) :
    ∃ s', run (fun (s : SortedList E) c => s.nextChange compare (L ++ new) c) s cs = .ok s'
      ∧ Step s s' (L ++ new) ∧ (SortedBy compare s.view → SortedBy compare s'.view) := by
  induction hedits generalizing L s with
  | nil off K => exact ⟨s, rfl, Step.refl h, id⟩
  | @cons off K R A old new cs tail ih =>
    have hold : L ++ (K ++ (R ++ old)) = (L ++ K) ++ (R ++ old) := by simp
    have hnew : L ++ (K ++ (A ++ new)) = (L ++ K) ++ (A ++ new) := by simp
    have hnew' : (L ++ K) ++ (A ++ new) = (L ++ K ++ A) ++ new := by simp
    have hlen : off + K.length = (L ++ K).length := by rw [hoff, List.length_append]
    rw [hold] at h
    obtain ⟨s₁, hrun, hstep, hsorted⟩ := addRemove_spec hcompare (L ++ K) R A old new h
    rw [← List.append_assoc] at hstep
    obtain ⟨s₂, hrun', hstep', hsorted'⟩ := ih (L ++ K ++ A)
      (by rw [hlen, ← List.length_append]) hstep.maps
    refine ⟨s₂, ?_, ?_, fun hs => hsorted' (hsorted hs)⟩
    · rw [hnew, hlen, run_cons_ok (nextChange_addRemove.trans hrun), hnew']
      exact hrun'
    · rw [hnew, hnew']
      exact hstep.trans hstep'

/-- The updates of a change. -/
theorem updates_spec (hcompare : IsTotalPreorder compare) (list : List E) (us : List (ℕ × ℕ))
    (hus : ∀ u ∈ us, u.2 ≤ source.length) (h : Maps s source) :
    ∃ s', run (fun (s : SortedList E) c => s.nextChange compare list c) s
          (us.map (fun u => SubChange.update u.1 u.2)) = .ok s'
      ∧ Step s s' source ∧ (us ≠ [] ∨ SortedBy compare s.view → SortedBy compare s'.view) := by
  induction us generalizing s with
  | nil => exact ⟨s, rfl, Step.refl h, fun hs => hs.resolve_left (fun hne => hne rfl)⟩
  | cons u us ih =>
    obtain ⟨s₁, hrun, hstep, hsorted⟩ := update_spec hcompare h (a := u.1)
      (hus u List.mem_cons_self)
    obtain ⟨s₂, hrun', hstep', hsorted'⟩ := ih (fun v hv => hus v (List.mem_cons_of_mem _ hv))
      hstep.maps
    have hupdate : s.nextChange compare list (SubChange.update u.1 u.2) = .ok s₁ := by
      rw [nextChange, SubChange.update_wasPermutated, if_neg Bool.false_ne_true,
        SubChange.update_wasUpdated, if_pos rfl, hrun]
    refine ⟨s₂, ?_, hstep.trans hstep', fun _ => hsorted' (.inr hsorted)⟩
    rw [List.map_cons, run_cons_ok hupdate, hrun']

theorem sourceChanged_some (hcomparator : s.elementComparator = some compare) (c : Composite E)
    (list : List E) :
    s.sourceChanged c list = run (fun (s : SortedList E) c => s.nextChange compare list c)
      { s with calls := [] } c.subChanges := by
  rw [sourceChanged]
  split
  next compare' h =>
    rw [hcomparator, Option.some_inj] at h
    rw [h]
  next h =>
    rw [hcomparator] at h
    cases h

theorem sourceChanged_none (hcomparator : s.elementComparator = none) (c : Composite E)
    (list : List E) :
    s.sourceChanged c list = run (fun (s : SortedList E) c => s.updateUnsorted list c)
      { s with calls := [] } c.subChanges := by
  rw [sourceChanged]
  split
  next compare' h =>
    rw [hcomparator] at h
    cases h
  next => rfl

/-- A permutation comes to a list without a comparator, or is one of the whole source. -/
def Covers (s : SortedList E) (source : List E) (c : Composite E) : Prop :=
  s.elementComparator = none ∨ ∀ p ∈ c.permutation, p.1 = 0 ∧ p.2.length = source.length

/-- **A change of the source** of a sorted list. -/
theorem sourceChanged_sorted (hcomparator : s.elementComparator = some compare)
    (hcompare : IsTotalPreorder compare) (h : Maps s source) {c : Composite E}
    (hc : c.WellFormed source final) (hcovers : Covers s source c) :
    ∃ s', s.sourceChanged c final = .ok s' ∧ Maps s' final
      ∧ s'.elementComparator = some compare ∧ Edited s'.calls s.view s'.view
      ∧ (c.updates ≠ [] ∨ SortedBy compare s.view → SortedBy compare s'.view) := by
  have h₀ : Maps { s with calls := [] } source :=
    ⟨h.size_eq, h.perm_length, h.fits, h.arrays, h.element⟩
  -- the permutation, if there is one
  obtain ⟨s₁, hrun₁, hstep₁, hview₁⟩ : ∃ s₁,
      run (fun (s : SortedList E) c => s.nextChange compare final c) { s with calls := [] }
        (c.permutation.toList.map (fun p => SubChange.permuted p.1 p.2)) = .ok s₁
      ∧ Step { s with calls := [] } s₁ (c.permuted source) ∧ s₁.view = s.view := by
    rw [Composite.permuted]
    cases hp : c.permutation with
    | none => exact ⟨_, rfl, Step.refl h₀, rfl⟩
    | some p =>
      obtain ⟨i, perm⟩ := p
      obtain ⟨hne, hpermutes⟩ := hc.permutes (i, perm) (by rw [hp]; rfl)
      obtain ⟨rfl, hwhole⟩ : i = 0 ∧ perm.length = source.length := by
        refine (hcovers.resolve_left ?_) (i, perm) (by rw [hp]; rfl)
        rw [hcomparator]
        exact Option.some_ne_none _
      obtain ⟨s₁, hrun, hsorted, hcalls, hcomp, hmaps⟩ :=
        updatePermutationIndexes_spec h₀ hpermutes hwhole
      have hview : s₁.view = s.view := by
        rw [view, hsorted, List.map_map]
        rfl
      refine ⟨s₁, ?_, ⟨hmaps, hcomp, [], by rw [hcalls, List.append_nil], hview.symm⟩, hview⟩
      rw [Option.toList_some, List.map_singleton, run_singleton, nextChange,
        SubChange.permuted_wasPermutated, if_pos (decide_eq_true hne), hrun]
  obtain ⟨s₂, hrun₂, hstep₂, hsorted₂⟩ := edits_spec hcompare hc.edits [] rfl hstep₁.maps
  obtain ⟨s₃, hrun₃, hstep₃, hsorted₃⟩ := updates_spec hcompare final c.updates
    (fun u hu => (hc.updates u hu).2) hstep₂.maps
  simp only [List.nil_append] at hrun₂
  have hstep := (hstep₁.trans hstep₂).trans hstep₃
  obtain ⟨cs, hcs, hedited⟩ := hstep.calls
  refine ⟨s₃, ?_, hstep.maps, hstep.comparator.trans hcomparator, ?_, fun hs => hsorted₃ ?_⟩
  · rw [sourceChanged_some hcomparator, Composite.subChanges, run_append_ok hrun₁, run_append_ok hrun₂]
    exact hrun₃
  · rw [hcs]
    exact hedited
  · refine hs.imp id (fun hs => hsorted₂ ?_)
    rwa [hview₁]

/-! ## A change of the source, without a comparator -/

theorem edits_unsorted_spec {off : ℕ} {old new : List E} {cs : List (SubChange E)}
    (hedits : Edits off old new cs) (L : List E) (hoff : off = L.length)
    (h : InOrder s (L ++ old)) :
    ∃ s', run (fun (s : SortedList E) c => s.updateUnsorted (L ++ new) c) s cs = .ok s'
      ∧ InOrder s' (L ++ new) ∧ s'.elementComparator = s.elementComparator := by
  induction hedits generalizing L s with
  | nil off K => exact ⟨s, rfl, h, rfl⟩
  | @cons off K R A old new cs tail ih =>
    have hold : L ++ (K ++ (R ++ old)) = (L ++ K) ++ (R ++ old) := by simp
    have hnew : L ++ (K ++ (A ++ new)) = (L ++ K) ++ (A ++ new) := by simp
    have hnew' : (L ++ K) ++ (A ++ new) = (L ++ K ++ A) ++ new := by simp
    have hlen : off + K.length = (L ++ K).length := by rw [hoff, List.length_append]
    rw [hold] at h
    obtain ⟨s₁, hrun, h₁, hcomp₁⟩ := updateUnsorted_addRemove_spec (L ++ K) R A old new h
    rw [← List.append_assoc] at h₁
    obtain ⟨s₂, hrun', h₂, hcomp₂⟩ := ih (L ++ K ++ A) (by rw [hlen, ← List.length_append]) h₁
    refine ⟨s₂, ?_, ?_, hcomp₂.trans hcomp₁⟩
    · rw [hnew, hlen, run_cons_ok hrun, hnew']
      exact hrun'
    · rwa [hnew, hnew']

/-- Updates are nothing to a list without a comparator. -/
theorem updates_unsorted (list : List E) (us : List (ℕ × ℕ)) :
    run (fun (s : SortedList E) c => s.updateUnsorted list c) s
      (us.map (fun u => SubChange.update u.1 u.2)) = .ok s := by
  induction us with
  | nil => rfl
  | cons u us ih =>
    have hnone : s.updateUnsorted list (SubChange.update u.1 u.2) = .ok s := by
      rw [updateUnsorted, SubChange.update_wasPermutated, if_neg Bool.false_ne_true, ok_bind,
        SubChange.update_wasRemoved, if_neg Bool.false_ne_true, ok_bind,
        SubChange.update_wasAdded, if_neg Bool.false_ne_true]
    rw [List.map_cons, run_cons_ok hnone, ih]

/-- **A change of the source** of a list without a comparator. -/
theorem sourceChanged_unsorted (hcomparator : s.elementComparator = none) (h : InOrder s source)
    {c : Composite E} (hc : c.WellFormed source final) :
    ∃ s', s.sourceChanged c final = .ok s' ∧ InOrder s' final ∧ s'.elementComparator = none := by
  have h₀ : InOrder { s with calls := [] } source := ⟨h.sorted, h.perm, h.fits, h.arrays⟩
  obtain ⟨s₁, hrun₁, h₁, hcomp₁⟩ : ∃ s₁,
      run (fun (s : SortedList E) c => s.updateUnsorted final c) { s with calls := [] }
        (c.permutation.toList.map (fun p => SubChange.permuted p.1 p.2)) = .ok s₁
      ∧ InOrder s₁ (c.permuted source) ∧ s₁.elementComparator = none := by
    rw [Composite.permuted]
    cases hp : c.permutation with
    | none => exact ⟨_, rfl, h₀, hcomparator⟩
    | some p =>
      obtain ⟨i, perm⟩ := p
      obtain ⟨hne, hpermutes⟩ := hc.permutes (i, perm) (by rw [hp]; rfl)
      obtain ⟨s₁, hrun, h₁, hcomp⟩ := permuteUnsorted_spec h₀ hpermutes
      have hadded : (SubChange.permuted i perm : SubChange E).wasAdded = false := by
        rw [SubChange.wasAdded, SubChange.permuted_wasPermutated, decide_eq_true hne]
        rfl
      have hremoved : (SubChange.permuted i perm : SubChange E).wasRemoved = false := rfl
      refine ⟨s₁, ?_, h₁, hcomp.trans hcomparator⟩
      rw [Option.toList_some, List.map_singleton, run_singleton, updateUnsorted,
        SubChange.permuted_wasPermutated, if_pos (decide_eq_true hne), hrun, ok_bind, hremoved,
        if_neg Bool.false_ne_true, ok_bind, hadded, if_neg Bool.false_ne_true]
  obtain ⟨s₂, hrun₂, h₂, hcomp₂⟩ := edits_unsorted_spec hc.edits [] rfl h₁
  simp only [List.nil_append] at hrun₂
  refine ⟨s₂, ?_, h₂, hcomp₂.trans hcomp₁⟩
  rw [sourceChanged_none hcomparator, Composite.subChanges, run_append_ok hrun₁, run_append_ok hrun₂]
  exact updates_unsorted final c.updates

/-! ## Another comparator -/

/-- The element at `j` of the view is at `p[j]` afterwards. -/
def Fires (old new : List E) (fired : Option (List ℕ)) : Prop :=
  ∀ p ∈ fired, IsPermutation p old.length
    ∧ ∀ (j : ℕ) (hj : j < p.length), new[p[j]]? = old[j]?

/-- **With a comparator** the view is sorted anew. -/
theorem setComparator_some (h : Maps s source) (hcompare : IsTotalPreorder compare) (fuel : ℕ) :
    ∃ s' fired, s.setComparator fuel (some compare) = some (.ok (s', some fired))
      ∧ Maps s' source ∧ s'.elementComparator = some compare ∧ SortedBy compare s'.view
      ∧ Fires s.view s'.view (some fired) := by
  obtain ⟨r, hr, hsorts⟩ := sort_spec hcompare s.sorted
  obtain ⟨hpermutes, hview, hsorted⟩ := SortsBy.view hsorts
  have hperm : r.1.Perm s.sorted := by
    rw [hsorts.permuted]
    exact permuteRange_perm hsorts.permutes
  have h₀ : Maps { s with elementComparator := some compare } source :=
    ⟨h.size_eq, h.perm_length, h.fits, h.arrays, h.element⟩
  obtain ⟨perm, hreverse, hmaps⟩ := h₀.reversePerm hperm
  have hlen : r.2.length = s.view.length := by
    rw [hsorts.length_eq, Nat.sub_zero, view, List.length_map]
  refine ⟨_, r.2, ?_, hmaps, rfl, hsorted, ?_⟩
  · rw [setComparator, doSortWithPermutationChange]
    dsimp only
    rw [size, hr, throwing_ok, ok_bind, hreverse, ok_bind, pure_eq_ok]
  · intro p hp
    rw [Option.mem_some_iff] at hp
    subst hp
    refine ⟨?_, fun j hj => ?_⟩
    · have := hpermutes.2
      rwa [← List.range_eq_range', hlen] at this
    · have := getElem?_permuteRange_mid hpermutes hj
      rw [← hview, Nat.zero_add] at this
      exact this

/-- **Without one** the view is the source again, and an event is fired unless it was so
before. -/
theorem setComparator_none (h : Maps s source) {fuel : ℕ} (hfuel : 2 * source.length < fuel) :
    ∃ s' fired, s.setComparator fuel none = some (.ok (s', fired))
      ∧ InOrder s' source ∧ s'.elementComparator = none ∧ Fires s.view s'.view fired
      ∧ (fired = none ↔ ∀ j < s.size, Placed s j) := by
  have h₀ : Maps { s with elementComparator := none } source :=
    ⟨h.size_eq, h.perm_length, h.fits, h.arrays, h.element⟩
  have hsize : s.size = source.length := h.size_eq
  have hunplaced : unplaced { s with elementComparator := none } ≤ s.size := by
    refine (Finset.card_filter_le _ _).trans ?_
    rw [Finset.card_range]
    rfl
  have hfuel' : unplaced { s with elementComparator := none } + (s.size - 0) < fuel := by omega
  obtain ⟨s', h', changed, hrun, hinOrder, ho, hcomparator, hchanged⟩ := @unsort_spec
    _ _ _ _ 0 _ _ false h₀.scrambled (Origins.init _)
    (fun j hj => absurd hj (Nat.not_lt_zero j)) hfuel'
  have hsize' : s'.size = source.length := hinOrder.maps.size_eq
  refine ⟨s', if changed then some h'.permutation else none, ?_, hinOrder, hcomparator, ?_, ?_⟩
  · rw [setComparator, doSortWithPermutationChange]
    dsimp only
    rw [show size { s with elementComparator := none } = s.size from rfl] at hrun
    rw [show size { s with elementComparator := none } = s.size from rfl, hrun]
  · intro p hp
    cases changed with
    | false => simp at hp
    | true =>
      simp only [if_true, Option.mem_some_iff] at hp
      subst hp
      have hlen : h'.permutation.length = source.length := by
        rw [ho.inverse.length_eq, ho.length_eq, hsize']
      -- every index is the origin of an element
      have horigins : IsPermutation h'.reversePermutation source.length := by
        refine IsPermutation.of_nodup ho.inverse.nodup (by rw [ho.length_eq, hsize'])
          (fun k hk => ?_)
        obtain ⟨j, hj⟩ := List.getElem?_of_mem hk
        rw [← hlen]
        exact ho.inverse.lt hj
      have hback : ∀ (j : ℕ) (hj : j < h'.permutation.length), ∃ i,
          h'.reversePermutation[i]? = some j ∧ h'.permutation[j] = i := by
        intro j hj
        obtain ⟨i, hi⟩ := List.getElem?_of_mem (horigins.mem_iff.mpr (by rwa [← hlen]))
        have := ho.inverse.apply i j hi
        rw [List.getElem?_eq_getElem hj, Option.some_inj] at this
        exact ⟨i, hi, this⟩
      constructor
      · rw [h.length_view]
        refine IsPermutation.of_nodup ?_ hlen (fun k hk => ?_)
        · refine List.nodup_iff_injective_getElem.mpr (fun ⟨j, hj⟩ ⟨j', hj'⟩ heq => ?_)
          obtain ⟨i, hi, hji⟩ := hback j hj
          obtain ⟨i', hi', hji'⟩ := hback j' hj'
          dsimp only at heq
          obtain rfl : i = i' := by omega
          rw [hi, Option.some_inj] at hi'
          exact Fin.ext hi'
        · obtain ⟨j, hj, rfl⟩ := List.getElem_of_mem hk
          obtain ⟨i, hi, hji⟩ := hback j hj
          have hlt := (List.getElem?_eq_some_iff.mp hi).1
          rw [ho.length_eq, hsize'] at hlt
          omega
      · intro j hj
        obtain ⟨i, hi, hji⟩ := hback j hj
        rw [hji, view, view, List.getElem?_map, List.getElem?_map, ho.origin i j hi]
  · refine Iff.trans ?_ (hchanged.trans ?_)
    · cases changed <;> simp
    · exact ⟨fun hc => hc.2, fun hc => ⟨rfl, hc⟩⟩

/-! ## Runs -/

/-- The elements compare as before, unless the change reports updates. -/
structure Behaves (s : SortedList E) (comparator : Option (E → E → ℤ)) (c : Composite E) :
    Prop where
  isSome_eq : comparator.isSome = s.elementComparator.isSome
  preorder : ∀ compare ∈ comparator, IsTotalPreorder compare
  same : c.updates = [] → comparator = s.elementComparator

/-- The lists that changes lead to which meet `P` when they come, with their sources. -/
inductive Reached (P : SortedList E → List E → Composite E → Prop) :
    SortedList E → List E → Prop
  | new (source : List E) : Reached P (SortedList.new source) source
  | setComparator {s s' : SortedList E} {source : List E} {fired : Option (List ℕ)} (fuel : ℕ)
      (comparator : Option (E → E → ℤ)) (h : Reached P s source)
      (hpreorder : ∀ compare ∈ comparator, IsTotalPreorder compare)
      (hset : s.setComparator fuel comparator = some (.ok (s', fired))) : Reached P s' source
  | sourceChanged {s s' : SortedList E} {source final : List E}
      (comparator : Option (E → E → ℤ)) (c : Composite E) (h : Reached P s source)
      (hc : c.WellFormed source final) (hbehaves : Behaves s comparator c) (hP : P s source c)
      (hchanged :
        { s with elementComparator := comparator }.sourceChanged c final = .ok s'
          ∨ ∃ e, { s with elementComparator := comparator }.sourceChanged c final
            = .error (e, s')) : Reached P s' final

/-- What such a list keeps. -/
structure Inv (s : SortedList E) (source : List E) : Prop where
  maps : Maps s source
  inOrder : s.elementComparator = none → InOrder s source
  sorted : ∀ compare, s.elementComparator = some compare →
    IsTotalPreorder compare ∧ SortedBy compare s.view

/-- **No change throws**, and the invariant is kept. -/
theorem Inv.sourceChanged (h : Inv s source) {comparator : Option (E → E → ℤ)} {c : Composite E}
    (hc : c.WellFormed source final) (hbehaves : Behaves s comparator c)
    (hcovers : Covers s source c) :
    ∃ s', { s with elementComparator := comparator }.sourceChanged c final = .ok s'
      ∧ Inv s' final ∧ s'.elementComparator = comparator
      ∧ (comparator ≠ none → Edited s'.calls s.view s'.view) := by
  have hmaps : Maps { s with elementComparator := comparator } source :=
    ⟨h.maps.size_eq, h.maps.perm_length, h.maps.fits, h.maps.arrays, h.maps.element⟩
  cases hcomparator : comparator with
  | none =>
    subst hcomparator
    have hnone : s.elementComparator = none := by
      have := hbehaves.isSome_eq
      rwa [Option.isSome_none, eq_comm, Option.isSome_eq_false_iff, Option.isNone_iff_eq_none]
        at this
    have h₀ := h.inOrder hnone
    obtain ⟨s', hrun, h', hcomp⟩ := sourceChanged_unsorted
      (s := { s with elementComparator := none }) rfl
      ⟨h₀.sorted, h₀.perm, h₀.fits, h₀.arrays⟩ hc
    refine ⟨s', hrun, ⟨h'.maps, fun _ => h', fun compare hsome => ?_⟩, hcomp,
      fun hne => absurd rfl hne⟩
    rw [hcomp] at hsome
    cases hsome
  | some compare =>
    subst hcomparator
    have hcompare := hbehaves.preorder compare rfl
    have hsome : s.elementComparator ≠ none := by
      intro hnone
      have := hbehaves.isSome_eq
      rw [hnone] at this
      cases this
    have hcovers' : Covers { s with elementComparator := some compare } source c :=
      .inr (hcovers.resolve_left hsome)
    obtain ⟨s', hrun, h', hcomp, hedited, hsorted⟩ := sourceChanged_sorted
      (s := { s with elementComparator := some compare }) rfl hcompare hmaps hc hcovers'
    refine ⟨s', hrun, ⟨h', fun hnone => ?_, fun compare' hcompare' => ?_⟩, hcomp,
      fun _ => hedited⟩
    · rw [hcomp] at hnone
      cases hnone
    · rw [hcomp, Option.some_inj] at hcompare'
      subst hcompare'
      refine ⟨hcompare, hsorted ?_⟩
      by_cases hupdates : c.updates = []
      · exact .inr (h.sorted compare (hbehaves.same hupdates).symm).2
      · exact .inl hupdates

/-- Rounds left over do not matter. -/
theorem setComparator_mono {fuel fuel' : ℕ} {comparator : Option (E → E → ℤ)}
    {r : Throwing E (SortedList E × Option (List ℕ))} (hle : fuel ≤ fuel')
    (hr : s.setComparator fuel comparator = some r) : s.setComparator fuel' comparator = some r := by
  cases comparator with
  | some compare => exact hr
  | none =>
    rw [setComparator, doSortWithPermutationChange] at hr ⊢
    dsimp only at hr ⊢
    cases hrun : unsort fuel 0 { s with elementComparator := none }
        (SortHelper.initPermutation (size { s with elementComparator := none })) false with
    | none =>
      rw [hrun] at hr
      cases hr
    | some t =>
      rw [hrun] at hr
      rw [unsort_mono hle hrun]
      exact hr

theorem Inv.setComparator (h : Inv s source) {fuel : ℕ} {comparator : Option (E → E → ℤ)}
    {s' : SortedList E} {fired : Option (List ℕ)}
    (hpreorder : ∀ compare ∈ comparator, IsTotalPreorder compare)
    (hset : s.setComparator fuel comparator = some (.ok (s', fired))) : Inv s' source := by
  have hset' := setComparator_mono (le_max_left fuel (2 * source.length + 1)) hset
  cases comparator with
  | some compare =>
    obtain ⟨t, p, ht, hmaps, hcomp, hsorted, -⟩ :=
      setComparator_some h.maps (hpreorder compare rfl) (max fuel (2 * source.length + 1))
    obtain ⟨rfl, -⟩ := Prod.mk.inj (Except.ok.inj (Option.some.inj (ht.symm.trans hset')))
    refine ⟨hmaps, fun hnone => ?_, fun compare' hcompare' => ?_⟩
    · rw [hcomp] at hnone
      cases hnone
    · rw [hcomp, Option.some_inj] at hcompare'
      subst hcompare'
      exact ⟨hpreorder compare rfl, hsorted⟩
  | none =>
    obtain ⟨t, p, ht, hinOrder, hcomp, -, -⟩ := @setComparator_none _ _ _ h.maps
      (max fuel (2 * source.length + 1)) (by omega)
    obtain ⟨rfl, -⟩ := Prod.mk.inj (Except.ok.inj (Option.some.inj (ht.symm.trans hset')))
    refine ⟨hinOrder.maps, fun _ => hinOrder, fun compare hsome => ?_⟩
    rw [hcomp] at hsome
    cases hsome

/-- **The invariant** of every list reached by changes that a sorted list follows. -/
theorem Reached.inv {P : SortedList E → List E → Composite E → Prop}
    (hP : ∀ s source c, P s source c → Covers s source c) (h : Reached P s source) :
    Inv s source := by
  induction h with
  | new source =>
    have hnew := InOrder.new source
    exact ⟨hnew.maps, fun _ => hnew, fun compare hsome => by cases hsome⟩
  | setComparator fuel comparator _ hpreorder hset ih => exact ih.setComparator hpreorder hset
  | sourceChanged comparator c _ hc hbehaves hcond hchanged ih =>
    obtain ⟨t, ht, hinv, -, -⟩ := ih.sourceChanged hc hbehaves (hP _ _ _ hcond)
    rcases hchanged with hok | ⟨e, he⟩
    · rw [ht, Except.ok.injEq] at hok
      rwa [← hok]
    · rw [ht] at he
      cases he

/-! ## Main results -/

/-- The change has no permutation. -/
def NoPermutation (_ : SortedList E) (_ : List E) (c : Composite E) : Prop := c.permutation = none

theorem NoPermutation.covers {c : Composite E} (h : NoPermutation s source c) :
    Covers s source c := by
  refine .inr (fun p hp => ?_)
  rw [NoPermutation] at h
  rw [h] at hp
  cases hp

/-- The list follows a permutation of the source: with a comparator the view stays and every
element has its new index, without one the view is permuted like the source. -/
def FollowsPermutation (s : SortedList E) (source : List E) (i : ℕ) (perm : List ℕ) : Prop :=
  ∃ s', s.sourceChanged ⟨some (i, perm), [], []⟩ (permuteRange i perm source) = .ok s'
    ∧ Maps s' (permuteRange i perm source)
    ∧ (s.elementComparator = none → s'.view = permuteRange i perm source)
    ∧ (s.elementComparator ≠ none → s'.view = s.view ∧ ∀ (j : ℕ) (x : Element E),
        s.sorted[j]? = some x → ∃ k : ℕ, x.index = k ∧ s'.sorted[j]?
          = some { x with index := ((rangeTargets i perm source.length).getD k 0 : ℕ) })

/-- With a comparator only a permutation of the whole source is followed. -/
theorem FollowsPermutation.whole {i : ℕ} {perm : List ℕ} (hf : FollowsPermutation s source i perm)
    (hcomparator : s.elementComparator = some compare) (hmaps : Maps s source)
    (hpermutes : PermutesRange i perm source.length) (hne : perm ≠ []) :
    i = 0 ∧ perm.length = source.length := by
  obtain ⟨s', hrun, -⟩ := hf
  by_contra hpart
  have hsource : source ≠ [] := by
    rintro rfl
    have hle := hpermutes.1
    have hpos := List.length_pos_of_ne_nil hne
    rw [List.length_nil] at hle
    omega
  have h₀ : Maps { s with calls := [] } source :=
    ⟨hmaps.size_eq, hmaps.perm_length, hmaps.fits, hmaps.arrays, hmaps.element⟩
  obtain ⟨e, he⟩ := updatePermutationIndexes_throws h₀ hpermutes hsource hpart
  rw [sourceChanged_some hcomparator, Composite.subChanges] at hrun
  simp only [Option.toList_some, List.map_singleton, List.map_nil, List.append_nil] at hrun
  rw [run_singleton, nextChange, SubChange.permuted_wasPermutated,
    if_pos (decide_eq_true hne), he] at hrun
  cases hrun

/-- **Permutations of the source**: the list follows exactly those that come while it has no
comparator, and those of the whole source. -/
theorem followsPermutation_iff {i : ℕ} {perm : List ℕ} (h : Reached Covers s source)
    (hpermutes : PermutesRange i perm source.length) (hne : perm ≠ []) :
    FollowsPermutation s source i perm
      ↔ s.elementComparator = none ∨ (i = 0 ∧ perm.length = source.length) := by
  have hinv := h.inv (fun s source c hc => hc)
  have hc : Composite.WellFormed source (permuteRange i perm source)
      (⟨some (i, perm), [], []⟩ : Composite E) := by
    refine ⟨fun p hp => ?_, .nil 0 _, fun u hu => by cases hu⟩
    rw [Option.mem_some_iff] at hp
    subst hp
    exact ⟨hne, hpermutes⟩
  have hmaps : Maps { s with calls := [] } source :=
    ⟨hinv.maps.size_eq, hinv.maps.perm_length, hinv.maps.fits, hinv.maps.arrays,
      hinv.maps.element⟩
  constructor
  · intro hf
    cases hcomparator : s.elementComparator with
    | none => exact .inl rfl
    | some compare => exact .inr (hf.whole hcomparator hinv.maps hpermutes hne)
  · intro hcond
    cases hcomparator : s.elementComparator with
    | none =>
      obtain ⟨s', hrun, h', -⟩ := sourceChanged_unsorted hcomparator (hinv.inOrder hcomparator) hc
      exact ⟨s', hrun, h'.maps, fun _ => h'.view_eq, fun hsome => absurd hcomparator hsome⟩
    | some compare =>
      obtain ⟨rfl, hwhole⟩ := hcond.resolve_left (by rw [hcomparator]; exact Option.some_ne_none _)
      obtain ⟨s', hrun, hsorted, -, -, hmaps'⟩ :=
        updatePermutationIndexes_spec hmaps hpermutes hwhole
      have hview : s'.view = s.view := by
        rw [view, hsorted, List.map_map]
        rfl
      refine ⟨s', ?_, hmaps', fun hnone => ?_, fun _ => ⟨hview, fun j x hx => ?_⟩⟩
      · rw [sourceChanged_some hcomparator, Composite.subChanges]
        simp only [Option.toList_some, List.map_singleton, List.map_nil, List.append_nil]
        rw [run_singleton, nextChange, SubChange.permuted_wasPermutated,
          if_pos (decide_eq_true hne), hrun]
      · rw [hcomparator] at hnone
        cases hnone
      · obtain ⟨k, hk, -, -⟩ := hinv.maps.element j x hx
        refine ⟨k, hk, ?_⟩
        have htargets : rangeTargets 0 perm source.length = perm := by
          rw [rangeTargets, hwhole, Nat.zero_add, Nat.sub_self, List.range_zero,
            List.range'_zero, List.nil_append, List.append_nil]
        have hxs : ({ s with calls := [] } : SortedList E).sorted[j]? = some x := hx
        rw [hsorted, List.getElem?_map, hxs, Option.map_some, moved, hk, Int.toNat_natCast,
          htargets]

/-- **Another comparator**: the list is sorted by it, or in the order of its source, and
the permutation fired leads from the old view to the new one. -/
theorem setComparator_sorts (h : Reached Covers s source) (comparator : Option (E → E → ℤ))
    (hpreorder : ∀ compare ∈ comparator, IsTotalPreorder compare) :
    ∃ fuel s' fired,
      (∀ fuel', fuel ≤ fuel' → s.setComparator fuel' comparator = some (.ok (s', fired)))
      ∧ Maps s' source ∧ (comparator = none → s'.view = source)
      ∧ (∀ compare, comparator = some compare → SortedBy compare s'.view)
      ∧ Fires s.view s'.view fired
      ∧ (comparator = none → (fired = none ↔ ∀ j < s.size, Placed s j))
      ∧ (comparator ≠ none → fired ≠ none) := by
  have hinv := h.inv (fun s source c hc => hc)
  cases comparator with
  | none =>
    obtain ⟨s', fired, hset, h', -, hfires, hiff⟩ := @setComparator_none _ _ _ hinv.maps
      (2 * source.length + 1) (by omega)
    exact ⟨_, s', fired, fun fuel' hle => setComparator_mono hle hset, h'.maps,
      fun _ => h'.view_eq, fun compare hsome => absurd hsome (by simp), hfires, fun _ => hiff,
      fun hne => absurd rfl hne⟩
  | some compare =>
    obtain ⟨s', fired, hset, hmaps, -, hsorted, hfires⟩ :=
      setComparator_some hinv.maps (hpreorder compare rfl) 0
    refine ⟨0, s', some fired, fun fuel' hle => setComparator_mono hle hset, hmaps,
      fun hnone => absurd hnone (by simp), fun compare' hcompare' => ?_, hfires,
      fun hnone => absurd hnone (by simp), fun _ => Option.some_ne_none _⟩
    rw [← Option.some_inj.mp hcompare']
    exact hsorted

/-! ## A list of three numbers -/

section Three

open SortHelper

/-- The list `[2, 1, 3]`, sorted. -/
theorem exists_three (P : SortedList ℤ → List ℤ → Composite ℤ → Prop) :
    ∃ s, Reached P s [2, 1, 3] ∧ s.elementComparator = some compareTo
      ∧ s.sorted = [⟨1, 1⟩, ⟨2, 0⟩, ⟨3, 2⟩] ∧ s.perm = [1, 0, 2] := by
  obtain ⟨s, fired, hset, -, hcomparator, -⟩ := setComparator_some
    (InOrder.new ([2, 1, 3] : List ℤ)).maps isTotalPreorder_compareTo 0
  have harrays : ((((SortedList.new [2, 1, 3]).setComparator 0 (some compareTo)).bind
      (fun r => r.toOption)).map (fun r => (r.1.sorted, r.1.perm)))
      = some ([⟨1, 1⟩, ⟨2, 0⟩, ⟨3, 2⟩], [1, 0, 2]) := by decide +kernel
  rw [hset] at harrays
  obtain ⟨hsorted, hperm⟩ := Prod.mk.inj (Option.some.inj harrays)
  refine ⟨s, .setComparator 0 (some compareTo) (.new _) (fun compare hcompare => ?_) hset,
    hcomparator, hsorted, hperm⟩
  rw [Option.mem_some_iff] at hcompare
  exact hcompare ▸ isTotalPreorder_compareTo

theorem followsPermutation_three :
    ∃ s : SortedList ℤ, Reached Covers s [2, 1, 3] ∧ FollowsPermutation s [2, 1, 3] 0 [2, 0, 1] := by
  obtain ⟨s, h, -⟩ := exists_three Covers
  exact ⟨s, h, (followsPermutation_iff h (by decide) (by decide)).mpr (.inr ⟨rfl, rfl⟩)⟩

/-- The last two elements of the source change places: the list is not asked for more, but
asks for the new index of the first. -/
theorem not_followsPermutation_three :
    ∃ s : SortedList ℤ, Reached Covers s [2, 1, 3] ∧ PermutesRange 1 [2, 1] 3
      ∧ ¬ FollowsPermutation s [2, 1, 3] 1 [2, 1] := by
  obtain ⟨s, h, hcomparator, -⟩ := exists_three Covers
  have hinv := h.inv (fun s source c hc => hc)
  refine ⟨s, h, by decide, fun hf => ?_⟩
  have := hf.whole hcomparator hinv.maps (by decide) (by decide)
  omega

theorem setComparator_sorts_three :
    ∃ s : SortedList ℤ, Reached Covers s [2, 1, 3] ∧ ∃ fuel s' fired,
      (∀ fuel', fuel ≤ fuel' → s.setComparator fuel' none = some (.ok (s', fired)))
      ∧ s'.view = [2, 1, 3] := by
  obtain ⟨s, h, -⟩ := exists_three Covers
  obtain ⟨fuel, s', fired, hset, -, hview, -⟩ := setComparator_sorts h none (by simp)
  exact ⟨s, h, fuel, s', fired, hset, hview rfl⟩

/-- After the permutation that the list does not follow, the loop that is to restore the
order of the source does not end. -/
theorem not_setComparator_sorts_three :
    ∃ (s : SortedList ℤ) (source : List ℤ), Reached (fun _ _ _ => True) s source
      ∧ ∀ fuel, s.setComparator fuel none = none := by
  obtain ⟨s, h, hcomparator, hsorted, hperm⟩ := exists_three (fun _ _ _ => True)
  have hc : Composite.WellFormed [2, 1, 3] [2, 3, 1] (⟨some (1, [2, 1]), [], []⟩ : Composite ℤ) :=
    ⟨fun p hp => by
      rw [Option.mem_some_iff] at hp
      subst hp
      exact ⟨by decide, by decide⟩, .nil 0 _, fun u hu => absurd hu (by simp)⟩
  have hbehaves : Behaves s (some compareTo) (⟨some (1, [2, 1]), [], []⟩ : Composite ℤ) :=
    ⟨by rw [hcomparator], fun compare hcompare => by
      rw [Option.mem_some_iff] at hcompare
      exact hcompare ▸ isTotalPreorder_compareTo, fun _ => hcomparator.symm⟩
  obtain ⟨t, ht, htsorted, htperm⟩ : ∃ t : SortedList ℤ,
      { s with elementComparator := some compareTo }.sourceChanged
        ⟨some (1, [2, 1]), [], []⟩ [2, 3, 1] = .error (.indexOutOfBounds, t)
      ∧ t.sorted = [⟨1, 2⟩, ⟨2, 0⟩, ⟨3, 2⟩] ∧ t.perm = [1, 0, 0] := by
    obtain ⟨comparator, sorted, perm, arrayLength, calls⟩ := s
    dsimp only at hsorted hperm
    subst hsorted hperm
    exact ⟨_, rfl, rfl, rfl⟩
  refine ⟨t, [2, 3, 1], .sourceChanged _ _ h hc hbehaves trivial (.inr ⟨_, ht⟩), fun fuel => ?_⟩
  have hsize : size { t with elementComparator := none } = 3 := by
    rw [size, htsorted]
    rfl
  have hforever : unsort fuel 0 { t with elementComparator := none }
      (SortHelper.initPermutation (size { t with elementComparator := none })) false = none := by
    refine unsort_forever (k := 2) (x := ⟨1, 2⟩) (y := ⟨3, 2⟩) (by decide) ?_ ?_ rfl rfl ?_
      (Inverse.initPermutation _) ?_ fuel
    · dsimp only
      rw [htsorted]
      rfl
    · dsimp only
      rw [htsorted]
      rfl
    · rw [hsize]
      dsimp only
      rw [htperm]
      rfl
    · simp [initPermutation]
  rw [setComparator, doSortWithPermutationChange]
  dsimp only
  rw [hforever]

end Three

end JavaFx.Collections.SortedList
