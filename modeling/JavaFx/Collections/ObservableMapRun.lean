/-
What every operation of an `ObservableMapWrapper` that changes the map does.

`Progress s s'` is what the loops of the class are built from: the backing map
stays a map, the entries that exist keep their keys, clients' iterators are left
alone, and the changes fired in between lead from the old contents to the new
ones. It composes, and each of `put`, `remove`, `setValue` and the removal of a
loop's current entry makes progress.
-/
import JavaFx.Collections.ObservableMapContents

set_option autoImplicit false
set_option linter.unusedSectionVars false

namespace JavaFx.ObservableMap

open JavaFx.Lib

variable {K V : Type} [DecidableEq K] [BEq V]

namespace Backing

/-- Entries keep their keys, and either the same entries are in the map or its
iterators can tell that the map changed. -/
structure Evolves (b b' : Backing K V) : Prop where
  keys : ∀ (n : ℕ) (e : Entry K V), b.entries[n]? = some e →
    ∃ e' : Entry K V, b'.entries[n]? = some e' ∧ e'.key = e.key
  live : (b'.modCount = b.modCount ∧ b'.live = b.live) ∨ b.modCount < b'.modCount

variable {b b' b'' : Backing K V} {k : K} {n : ℕ} {e : Entry K V} {v : Option V}
  {place : Placing K V}

theorem Evolves.refl (b : Backing K V) : b.Evolves b := ⟨fun _ e he => ⟨e, he, rfl⟩, .inl ⟨rfl, rfl⟩⟩

theorem Evolves.trans (h : b.Evolves b') (h' : b'.Evolves b'') : b.Evolves b'' := by
  refine ⟨fun n e he => ?_, ?_⟩
  · obtain ⟨e', he', hk⟩ := h.keys n e he
    obtain ⟨e'', he'', hk'⟩ := h'.keys n e' he'
    exact ⟨e'', he'', hk'.trans hk⟩
  · rcases h.live with ⟨hm, hl⟩ | hlt
    · rcases h'.live with ⟨hm', hl'⟩ | hlt'
      · exact .inl ⟨hm'.trans hm, hl'.trans hl⟩
      · exact .inr (hm ▸ hlt')
    · rcases h'.live with ⟨hm', -⟩ | hlt'
      · exact .inr (hm' ▸ hlt)
      · exact .inr (hlt.trans hlt')

theorem evolves_setValue (he : b.entries[n]? = some e) (v : Option V) :
    b.Evolves (b.setValue n v).1 := by
  rw [setValue_of_some he]
  refine ⟨fun m f hf => ?_, .inl ⟨rfl, rfl⟩⟩
  by_cases hm : m = n
  · refine ⟨⟨e.key, v⟩, (entries_set_eq_some he).mpr (by rw [if_pos hm]), ?_⟩
    rw [hm, he, Option.some_inj] at hf
    rw [hf]
  · exact ⟨f, (entries_set_eq_some he).mpr (by rw [if_neg hm, hf]), rfl⟩

theorem evolves_removeEntry (b : Backing K V) (n : ℕ) : b.Evolves (b.removeEntry n) :=
  ⟨fun _ e he => ⟨e, he, rfl⟩, .inr (Nat.lt_succ_self _)⟩

theorem evolves_put (h : b.Valid) (place : Placing K V) (k : K) (v : Option V) :
    b.Evolves (b.put place k v).1 := by
  cases hk : b.find k with
  | some n =>
    obtain ⟨-, w, he⟩ := (find_eq_some h).mp hk
    rw [put_of_some hk]
    exact evolves_setValue he v
  | none =>
    rw [put_of_none hk]
    refine ⟨fun n e he => ⟨e, ?_, rfl⟩, .inr (Nat.lt_succ_self _)⟩
    rw [List.getElem?_append_left (List.getElem?_eq_some_iff.mp he).1, he]

/-- The entry of a key that is mapped. -/
theorem exists_entry (h : b.Valid) (hk : b.containsKey k = true) :
    ∃ n v, b.find k = some n ∧ n ∈ b.live ∧ b.entries[n]? = some ⟨k, v⟩
      ∧ b.contents k = some v := by
  obtain ⟨n, hn⟩ := Option.isSome_iff_exists.mp hk
  obtain ⟨hmem, v, he⟩ := (find_eq_some h).mp hn
  exact ⟨n, v, hn, hmem, he, (contents_eq_some h).mpr ⟨n, hmem, he⟩⟩

/-- The value an entry in the map has is the one its key is mapped to. -/
theorem contents_of_live (h : b.Valid) (hn : n ∈ b.live) (he : b.entries[n]? = some e) :
    b.contents e.key = some e.value := (contents_eq_some h).mpr ⟨n, hn, he⟩

end Backing

namespace Wrapper

/-- What an operation of the map leads to. -/
structure Progress (s s' : Wrapper K V) : Prop where
  valid : s'.backingMap.Valid
  evolves : s.backingMap.Evolves s'.backingMap
  iterators : s'.iterators = s.iterators
  reports : s.Reports s'

section Progress

variable [EquivBEq V] {s s' s'' : Wrapper K V} {place : Placing K V} {n : ℕ} {e : Entry K V}

theorem Progress.refl (h : s.backingMap.Valid) : s.Progress s :=
  ⟨h, .refl _, rfl, .refl s⟩

theorem Progress.trans (h : s.Progress s') (h' : s'.Progress s'') : s.Progress s'' :=
  ⟨h'.valid, h.evolves.trans h'.evolves, h'.iterators.trans h.iterators,
    h.reports.trans h'.reports⟩

theorem put_progress (h : s.backingMap.Valid) (place : Placing K V) (key : K) (value : Option V) :
    s.Progress (s.put place key value).1 := by
  have hvalid := h.put place key value
  have hevolves := Backing.evolves_put h place key value
  have hcontents := Backing.contents_put h place key value
  unfold put
  by_cases hk : s.backingMap.containsKey key = true
  · obtain ⟨n, w, hfind, -, he, hw⟩ := Backing.exists_entry h hk
    have hret : (s.backingMap.put place key value).2 = w := by
      rw [Backing.put_of_some hfind, Backing.setValue_of_some he]
    simp only [hk, if_true, hret]
    split_ifs with hdiffers
    · exact ⟨hvalid, hevolves, rfl,
        .of_change (c := ⟨key, w, value, true, true⟩) rfl (fun _ => ⟨w, hw, BEq.rfl⟩) hcontents
          (.inl rfl)⟩
    · refine ⟨hvalid, hevolves, rfl, .of_same rfl (fun j => ?_)⟩
      have hsame : (w == value) = true := by simpa [differs_eq] using hdiffers
      rw [hcontents, Function.update_apply]
      split_ifs with hj
      · rw [hj, hw]
        exact hsame
      · exact BEq.rfl
  · simp only [hk, if_false, Bool.false_eq_true]
    exact ⟨hvalid, hevolves, rfl,
      .of_change (c := ⟨key, (s.backingMap.put place key value).2, value, true, false⟩) rfl
        (fun hf => by cases hf) hcontents (.inl rfl)⟩

theorem put_backingMap (place : Placing K V) (key : K) (value : Option V) :
    (s.put place key value).1.backingMap = (s.backingMap.put place key value).1 := by
  unfold put
  split_ifs
  · dsimp only
    split_ifs <;> rfl
  · rfl

/-- A loop takes its current entry out. -/
theorem removeCurrent_progress (h : s.backingMap.Valid) (hn : n ∈ s.backingMap.live)
    (he : s.backingMap.entries[n]? = some e) : s.Progress (s.removeCurrent n) := by
  rw [removeCurrent, he]
  exact ⟨h.removeEntry n, Backing.evolves_removeEntry _ n, rfl,
    .of_change (c := ⟨e.key, e.value, none, false, true⟩) rfl
      (fun _ => ⟨e.value, Backing.contents_of_live h hn he, BEq.rfl⟩)
      (Backing.contents_removeEntry h hn he) (.inr rfl)⟩

theorem removeCurrent_live (he : s.backingMap.entries[n]? = some e) :
    (s.removeCurrent n).backingMap = s.backingMap.removeEntry n := by
  rw [removeCurrent, he]
  rfl

theorem removeCurrent_contents (h : s.backingMap.Valid) (hn : n ∈ s.backingMap.live)
    (he : s.backingMap.entries[n]? = some e) :
    (s.removeCurrent n).backingMap.contents
      = Function.update s.backingMap.contents e.key none := by
  rw [removeCurrent_live he, Backing.contents_removeEntry h hn he]

theorem remove_progress (h : s.backingMap.Valid) (key : K) : s.Progress (s.remove key).1 := by
  unfold remove
  by_cases hk : s.backingMap.containsKey key = true
  · obtain ⟨n, w, hfind, hn, he, hw⟩ := Backing.exists_entry h hk
    simp only [hk, if_true, Backing.remove, hfind, he]
    exact ⟨h.removeEntry n, Backing.evolves_removeEntry _ n, rfl,
      .of_change (c := ⟨key, w, none, false, true⟩) rfl (fun _ => ⟨w, hw, BEq.rfl⟩)
        (Backing.contents_removeEntry h hn he) (.inr rfl)⟩
  · simp only [hk, Bool.false_eq_true, if_false]
    exact .refl h

theorem remove_backingMap (key : K) :
    (s.remove key).1.backingMap = (s.backingMap.remove key).1 := by
  unfold remove
  by_cases hk : s.backingMap.containsKey key = true
  · simp only [hk, if_true]
    rfl
  · have hnone : s.backingMap.find key = none := by
      rw [Backing.containsKey, Option.not_isSome_iff_eq_none] at hk
      exact hk
    simp only [hk, Bool.false_eq_true, if_false, Backing.remove, hnone]

theorem setValue_progress (h : s.backingMap.Valid) (hn : n ∈ s.backingMap.live)
    (value : Option V) : s.Progress (s.setValue n value).1 := by
  obtain ⟨e, he⟩ : ∃ e, s.backingMap.entries[n]? = some e :=
    ⟨_, List.getElem?_eq_getElem (h.exist n hn)⟩
  have hsnd : (s.backingMap.setValue n value).2 = e.value := by
    rw [Backing.setValue_of_some he]
  simp only [setValue, he, hsnd]
  exact ⟨h.setValue he value, Backing.evolves_setValue he value, rfl,
    .of_change (c := ⟨e.key, e.value, value, true, true⟩) rfl
      (fun _ => ⟨e.value, Backing.contents_of_live h hn he, BEq.rfl⟩)
      (Backing.contents_setValue h hn he value) (.inl rfl)⟩

/-! ## Loops -/

theorem putAll_progress (h : s.backingMap.Valid) (place : Placing K V) (m : List (K × Option V)) :
    s.Progress (s.putAll place m) := by
  unfold putAll
  induction m generalizing s with
  | nil => exact .refl h
  | cons e m ih =>
    have hput := put_progress h place e.1 e.2
    exact hput.trans (ih hput.valid)

/-- The entries of a loop that are still to come stay in the map. -/
theorem live_of_removeCurrent {m : ℕ} (hm : m ∈ s.backingMap.live) (hmn : m ≠ n) :
    m ∈ (s.removeCurrent n).backingMap.live := by
  unfold removeCurrent
  split
  · exact List.mem_filter.mpr ⟨hm, by simpa using hmn⟩
  · exact hm

theorem clear_progress (h : s.backingMap.Valid) : s.Progress s.clear := by
  suffices hloop : ∀ (ns : List ℕ) (t : Wrapper K V), t.backingMap.Valid → ns.Nodup →
      (∀ n ∈ ns, n ∈ t.backingMap.live) → t.Progress (ns.foldl removeCurrent t) from
    hloop _ s h h.nodup (fun _ hn => hn)
  intro ns
  induction ns with
  | nil => exact fun t ht _ _ => .refl ht
  | cons n ns ih =>
    intro t ht hnodup hlive
    rw [List.nodup_cons] at hnodup
    have hn := hlive n List.mem_cons_self
    have hone := removeCurrent_progress ht hn (List.getElem?_eq_getElem (ht.exist n hn))
    refine hone.trans (ih _ hone.valid hnodup.2 (fun m hm => ?_))
    exact live_of_removeCurrent (hlive m (List.mem_cons_of_mem _ hm))
      (fun heq => hnodup.1 (heq ▸ hm))

/-- What a loop that removes some entries says with its flag: nothing happened,
or some key is gone. -/
def Flagged (s : Wrapper K V) (r : Wrapper K V × Bool) : Prop :=
  (r.2 = false → r.1 = s)
    ∧ (r.2 = true → ∃ k, s.backingMap.contents k ≠ none ∧ r.1.backingMap.contents k = none)

theorem Flagged.unchanged (s : Wrapper K V) : s.Flagged (s, false) :=
  ⟨fun _ => rfl, fun h => absurd h Bool.false_ne_true⟩

theorem Flagged.of_gone {k : K} (h : s.backingMap.contents k ≠ none)
    (h' : s'.backingMap.contents k = none) : s.Flagged (s', true) :=
  ⟨fun hf => absurd hf.symm Bool.false_ne_true, fun _ => ⟨k, h, h'⟩⟩

theorem removeRetain_progress (h : s.backingMap.Valid) (contains : K → Option V → Bool)
    (remove : Bool) :
    s.Progress (s.removeRetain contains remove).1 ∧ s.Flagged (s.removeRetain contains remove) := by
  unfold removeRetain
  suffices hloop : ∀ (ns : List ℕ) (r : Wrapper K V × Bool), s.Progress r.1 → s.Flagged r →
      ns.Nodup → (∀ n ∈ ns, n ∈ r.1.backingMap.live) →
      s.Progress (ns.foldl _ r).1 ∧ s.Flagged (ns.foldl _ r) from
    hloop _ (s, false) (.refl h) (.unchanged s) h.nodup (fun _ hn => hn)
  intro ns
  induction ns with
  | nil => exact fun r hr hflag _ _ => ⟨hr, hflag⟩
  | cons n ns ih =>
    intro r hr hflag hnodup hlive
    rw [List.nodup_cons] at hnodup
    have hn := hlive n List.mem_cons_self
    obtain ⟨e, he⟩ : ∃ e, r.1.backingMap.entries[n]? = some e :=
      ⟨_, List.getElem?_eq_getElem (hr.valid.exist n hn)⟩
    rw [List.foldl_cons, he]
    dsimp only
    split_ifs with htest
    · have hone := removeCurrent_progress hr.valid hn he
      have hgone := removeCurrent_contents hr.valid hn he
      have hhad := Backing.contents_of_live hr.valid hn he
      have hflagged : s.Flagged (r.1.removeCurrent n, true) := by
        cases hflag' : r.2 with
        | false =>
          refine .of_gone (k := e.key) ?_ ?_
          · rw [← hflag.1 hflag', hhad]
            exact Option.some_ne_none _
          · rw [hgone, Function.update_self]
        | true =>
          obtain ⟨k, hk, hnone⟩ := hflag.2 hflag'
          refine .of_gone hk ?_
          rw [hgone, Function.update_apply]
          split_ifs
          · rfl
          · exact hnone
      exact ih _ (hr.trans hone) hflagged hnodup.2
        (fun m hm => live_of_removeCurrent (hlive m (List.mem_cons_of_mem _ hm))
          (fun heq => hnodup.1 (heq ▸ hm)))
    · exact ih r hr hflag hnodup.2 (fun m hm => hlive m (List.mem_cons_of_mem _ hm))

end Progress

end Wrapper

end JavaFx.ObservableMap

/-!
Runs of operations on an `ObservableMapWrapper`.

A step is faithful when the changes it fires replay the old contents to the new
ones, a boolean it returns says whether the map changed, and it throws only what
the same call on the backing map's own views throws. Four operations are not
always faithful, and `Op.Clean` is the condition under which they are:

* `keySet().remove` takes the removed value for its answer, so a `null` value
  that was removed counts as nothing removed;
* `values().remove` calls `equals` on every value in front of the one it looks
  for, `null` or not;
* `remove` of an iterator reports the value it read in `next`, which may have
  been replaced since;
* `setValue` reports a replacement in the map even when its entry has left it.
-/

set_option linter.unusedSectionVars false

namespace JavaFx.ObservableMap

open JavaFx.Lib

variable {K V : Type} [DecidableEq K] [BEq V]

/-! ## Conditions -/

/-- A loop over the values that compares each with `o` comes to a `null`. -/
def meetsNull (o : Option V) : List (Option V) → Bool
  | [] => false
  | none :: _ => true
  | some v :: vs => if jequals v o then false else meetsNull o vs

namespace Backing

/-- The values of some entries. -/
def valuesOf (b : Backing K V) (ns : List ℕ) : List (Option V) :=
  ns.filterMap (fun n => (b.entries[n]?).map Entry.value)

/-- The values in the order in which they are walked. -/
def values (b : Backing K V) : List (Option V) := b.valuesOf b.live

end Backing

namespace Op

/-- The iterator or the entry the operation is called on exists. -/
def Legal (s : Wrapper K V) : Op K V → Prop
  | .next i => i < s.iterators.length
  | .iteratorRemove i => i < s.iterators.length
  | .setValue n _ => n < s.backingMap.entries.length
  | _ => True

/-- The value an iterator read is still the value of its entry, unless `remove`
will not get as far as reporting it. -/
def FreshIterator (b : Backing K V) (it : ViewIterator K V) : Prop :=
  b.modCount = it.entryIt.expectedModCount → ∀ n ∈ it.entryIt.lastReturned,
    ∀ e ∈ b.entries[n]?, (e.value == it.lastValue) = true

/-- The operation does what it reports. -/
def Clean (s : Wrapper K V) : Op K V → Prop
  | .keySetRemove key => s.backingMap.contents key ≠ some none
  | .valuesRemove o => meetsNull o s.backingMap.values = false
  | .iteratorRemove i => ∀ it ∈ s.iterators[i]?, FreshIterator s.backingMap it
  | .setValue n _ => n ∈ s.backingMap.live
  | _ => True

instance (s : Wrapper K V) : (op : Op K V) → Decidable (op.Legal s)
  | .next i => inferInstanceAs (Decidable (i < s.iterators.length))
  | .iteratorRemove i => inferInstanceAs (Decidable (i < s.iterators.length))
  | .setValue n _ => inferInstanceAs (Decidable (n < s.backingMap.entries.length))
  | .put .. | .remove .. | .putAll .. | .clear | .keySetRemove .. | .valuesRemove ..
  | .entrySetRemove .. | .removeRetain .. | .viewClear .. | .viewAdd .. | .iterator .. =>
    inferInstanceAs (Decidable True)

instance (b : Backing K V) (it : ViewIterator K V) : Decidable (FreshIterator b it) :=
  inferInstanceAs (Decidable (b.modCount = it.entryIt.expectedModCount →
    ∀ n ∈ it.entryIt.lastReturned, ∀ e ∈ b.entries[n]?, (e.value == it.lastValue) = true))

instance (s : Wrapper K V) : (op : Op K V) → Decidable (op.Clean s)
  | .keySetRemove key =>
    match h : s.backingMap.contents key with
    | some none => .isFalse (fun hne => hne h)
    | some (some _) => .isTrue (fun heq => by rw [h] at heq; cases heq)
    | none => .isTrue (fun heq => by rw [h] at heq; cases heq)
  | .valuesRemove o => inferInstanceAs (Decidable (meetsNull o s.backingMap.values = false))
  | .iteratorRemove i =>
    inferInstanceAs (Decidable (∀ it ∈ s.iterators[i]?, FreshIterator s.backingMap it))
  | .setValue n _ => inferInstanceAs (Decidable (n ∈ s.backingMap.live))
  | .put .. | .remove .. | .putAll .. | .clear | .next .. | .entrySetRemove .. | .removeRetain ..
  | .viewClear .. | .viewAdd .. | .iterator .. => inferInstanceAs (Decidable True)

end Op

/-! ## Iterators -/

/-- What an iterator knows of the map. -/
structure IteratorOk (b : Backing K V) (it : ViewIterator K V) : Prop where
  notAhead : it.entryIt.expectedModCount ≤ b.modCount
  live : it.entryIt.expectedModCount = b.modCount →
    ∀ n ∈ it.entryIt.lastReturned.toList ++ it.entryIt.remaining, n ∈ b.live
  nodup : (it.entryIt.lastReturned.toList ++ it.entryIt.remaining).Nodup
  lastKey : ∀ n ∈ it.entryIt.lastReturned, ∃ e : Entry K V, b.entries[n]? = some e
    ∧ it.lastKey = some e.key

theorem IteratorOk.evolves {b b' : Backing K V} {it : ViewIterator K V} (h : IteratorOk b it)
    (hb : b.Evolves b') : IteratorOk b' it := by
  refine ⟨?_, fun heq => ?_, h.nodup, fun n hn => ?_⟩
  · have := h.notAhead
    rcases hb.live with ⟨hm, -⟩ | hlt <;> omega
  · have := h.notAhead
    rcases hb.live with ⟨hm, hl⟩ | hlt
    · rw [hl]
      exact h.live (heq.trans hm)
    · omega
  · obtain ⟨e, he, hk⟩ := h.lastKey n hn
    obtain ⟨e', he', hk'⟩ := hb.keys n e he
    exact ⟨e', he', by rw [hk, hk']⟩

namespace Wrapper

/-- The backing map is a map and every iterator knows its place in it. -/
structure Inv (s : Wrapper K V) : Prop where
  valid : s.backingMap.Valid
  iterators : ∀ it ∈ s.iterators, IteratorOk s.backingMap it

variable [EquivBEq V] {s s' : Wrapper K V} {place : Placing K V}

theorem Progress.inv (h : s.Progress s') (hinv : s.Inv) : s'.Inv := by
  refine ⟨h.valid, fun it hit => ?_⟩
  rw [h.iterators] at hit
  exact (hinv.iterators it hit).evolves h.evolves

/-! ## The operations that answer -/

theorem keySetRemove_progress (h : s.backingMap.Valid) {key : K}
    (hclean : s.backingMap.contents key ≠ some none) :
    s.Progress (s.keySetRemove key).1 ∧ s.Flagged (s.keySetRemove key) := by
  refine ⟨remove_progress h key, ?_⟩
  unfold keySetRemove remove
  by_cases hk : s.backingMap.containsKey key = true
  · obtain ⟨n, w, hfind, hn, he, hw⟩ := Backing.exists_entry h hk
    rw [hw] at hclean
    have hne : w ≠ none := fun hnone => hclean (by rw [hnone])
    obtain ⟨v, rfl⟩ := Option.ne_none_iff_exists'.mp hne
    simp only [hk, if_true, Backing.remove, hfind, he, Option.bind_some, Option.isSome_some]
    have hgone := Backing.contents_removeEntry h hn he
    exact .of_gone (by rw [hw]; exact Option.some_ne_none _)
      ((congrFun hgone key).trans (Function.update_self _ _ _))
  · simp only [hk, Bool.false_eq_true, if_false, Option.isSome_none]
    exact .unchanged s

/-- The loop of `values().remove`. -/
theorem valuesRemove_loop (h : s.backingMap.Valid) {o : Option V} (ns : List ℕ)
    (hns : ∀ n ∈ ns, n ∈ s.backingMap.live)
    (hclean : meetsNull o (s.backingMap.valuesOf ns) = false) :
    ∃ r, valuesRemove.loop s o ns = .ok r ∧ s.Progress r.1 ∧ s.Flagged r := by
  induction ns with
  | nil => exact ⟨_, rfl, .refl h, .unchanged s⟩
  | cons n ns ih =>
    have hn := hns n List.mem_cons_self
    obtain ⟨⟨k, v⟩, he⟩ : ∃ e, s.backingMap.entries[n]? = some e :=
      ⟨_, List.getElem?_eq_getElem (h.exist n hn)⟩
    have hvalues : s.backingMap.valuesOf (n :: ns) = v :: s.backingMap.valuesOf ns := by
      simp [Backing.valuesOf, he]
    rw [hvalues] at hclean
    cases v with
    | none => simp [meetsNull] at hclean
    | some v =>
      simp only [valuesRemove.loop, he]
      rw [meetsNull] at hclean
      split_ifs at hclean ⊢ with htest
      · refine ⟨_, rfl, removeCurrent_progress h hn he, .of_gone (k := k) ?_ ?_⟩
        · rw [Backing.contents_of_live h hn he]
          exact Option.some_ne_none _
        · rw [removeCurrent_contents h hn he, Function.update_self]
      · exact ih (fun m hm => hns m (List.mem_cons_of_mem _ hm)) hclean

theorem entrySetRemove_progress (h : s.backingMap.Valid) (key : K) (value : Option V) :
    s.Progress (s.entrySetRemove key value).1 ∧ s.Flagged (s.entrySetRemove key value) := by
  unfold entrySetRemove
  cases hc : s.backingMap.contents key with
  | none => exact ⟨.refl h, .unchanged s⟩
  | some v =>
    dsimp only
    split_ifs with heq
    · have hk : s.backingMap.containsKey key = true :=
        (Backing.containsKey_iff h).mpr (by rw [hc]; exact Option.some_ne_none _)
      obtain ⟨n, w, hfind, hn, he, hw⟩ := Backing.exists_entry h hk
      have hgone := Backing.contents_removeEntry h hn he
      simp only [Backing.remove, hfind]
      refine ⟨⟨h.removeEntry n, Backing.evolves_removeEntry _ n, rfl,
        .of_change (c := ⟨key, value, none, false, true⟩) rfl (fun _ => ⟨v, hc, heq⟩) hgone
          (.inr rfl)⟩, .of_gone (k := key) ?_ ?_⟩
      · rw [hc]
        exact Option.some_ne_none _
      · exact (congrFun hgone key).trans (Function.update_self _ _ _)
    · exact ⟨.refl h, .unchanged s⟩

/-! ## The operations on iterators -/

theorem iteratorOk_new (b : Backing K V) (hb : b.Valid) (view : View) :
    IteratorOk b ⟨view, .new b, none, none⟩ :=
  ⟨le_rfl, fun _ n hn => by simpa [EntryIterator.new] using hn,
    by simpa [EntryIterator.new] using hb.nodup, fun n hn => by simp [EntryIterator.new] at hn⟩

/-- `next` of an iterator that is not out of date. -/
theorem next_inv {i : ℕ} {r : Wrapper K V × Ret K V} (h : s.Inv) (hr : s.next i = .ok r) :
    r.1.Inv ∧ r.1.backingMap = s.backingMap ∧ r.1.fired = s.fired ∧ ∀ b, r.2 ≠ .bool b := by
  unfold next at hr
  cases hit : s.iterators[i]? with
  | none => simp [hit] at hr
  | some it =>
    have hok := h.iterators it (List.mem_of_getElem? hit)
    simp only [hit, EntryIterator.next] at hr
    by_cases hmod : s.backingMap.modCount ≠ it.entryIt.expectedModCount
    · simp [hmod] at hr
    · simp only [hmod, if_false] at hr
      rw [not_not] at hmod
      cases hrem : it.entryIt.remaining with
      | nil => simp [hrem] at hr
      | cons n rest =>
        have hlive := hok.live hmod.symm
        have hnodup := hok.nodup
        rw [hrem] at hlive hnodup
        have hn : n ∈ s.backingMap.live := hlive n (by simp)
        obtain ⟨e, he⟩ : ∃ e, s.backingMap.entries[n]? = some e :=
          ⟨_, List.getElem?_eq_getElem (h.valid.exist n hn)⟩
        simp only [hrem, ok_bind, he, pure_eq_ok, Except.ok.injEq] at hr
        subst hr
        refine ⟨⟨h.valid, fun jt hjt => ?_⟩, rfl, rfl, by cases it.view <;> simp⟩
        rcases List.mem_or_eq_of_mem_set hjt with hjt | rfl
        · exact h.iterators jt hjt
        · refine ⟨hok.notAhead, fun _ m hm => hlive m ?_, ?_, fun m hm => ⟨e, ?_, rfl⟩⟩
          · exact List.mem_append_right _ (by simpa using hm)
          · exact (List.nodup_append.mp hnodup).2.1
          · rw [← Option.mem_some_iff.mp hm, he]

/-- `next` throws what the backing map's iterator throws. -/
theorem next_error {i : ℕ} {e : Exn} (h : s.Inv) (hi : i < s.iterators.length)
    (hr : s.next i = .error e) : s.backingThrows (.next i) = some e := by
  have hit := List.getElem?_eq_getElem hi
  have hok := h.iterators _ (List.getElem_mem hi)
  simp only [next, backingThrows, hit, Option.bind_eq_bind, Option.bind_some] at hr ⊢
  cases hnext : s.iterators[i].entryIt.next s.backingMap with
  | error e' =>
    rw [hnext, error_bind, Except.error.injEq] at hr
    simp only [hr]
  | ok r =>
    rw [hnext, ok_bind] at hr
    unfold EntryIterator.next at hnext
    split_ifs at hnext with hmod
    rw [not_not] at hmod
    cases hrem : s.iterators[i].entryIt.remaining with
    | nil => simp [hrem] at hnext
    | cons n rest =>
      have hn : n ∈ s.backingMap.live := hok.live hmod.symm n (by simp [hrem])
      simp only [hrem, Except.ok.injEq] at hnext
      subst hnext
      simp [List.getElem?_eq_getElem (h.valid.exist n hn)] at hr

/-- `remove` throws what the backing map's iterator throws. -/
theorem iteratorRemove_error {i : ℕ} {e : Exn} (hi : i < s.iterators.length)
    (hr : s.iteratorRemove i = .error e) : s.backingThrows (.iteratorRemove i) = some e := by
  have hit := List.getElem?_eq_getElem hi
  simp only [iteratorRemove, backingThrows, hit, Option.bind_eq_bind, Option.bind_some] at hr ⊢
  cases hremove : s.iterators[i].entryIt.remove s.backingMap with
  | error e' =>
    rw [hremove, error_bind, Except.error.injEq] at hr
    simp only [hr]
  | ok r =>
    rw [hremove, ok_bind] at hr
    cases hkey : s.iterators[i].lastKey <;> simp [hkey] at hr

/-- `remove` of an iterator: the entry it is at is taken out and reported with the
value the iterator read. -/
theorem iteratorRemove_spec {i : ℕ} {it : ViewIterator K V} (h : s.Inv)
    (hit : s.iterators[i]? = some it) (hr : s.iteratorRemove i = .ok s') :
    s'.Inv ∧ ∃ n e, n ∈ it.entryIt.lastReturned
      ∧ s.backingMap.modCount = it.entryIt.expectedModCount
      ∧ n ∈ s.backingMap.live ∧ s.backingMap.entries[n]? = some e
      ∧ s'.backingMap = s.backingMap.removeEntry n
      ∧ s'.fired = s.fired ++ [⟨e.key, it.lastValue, none, false, true⟩] := by
  have hok := h.iterators it (List.mem_of_getElem? hit)
  simp only [iteratorRemove, hit, EntryIterator.remove] at hr
  cases hlast : it.entryIt.lastReturned with
  | none => simp [hlast] at hr
  | some n =>
    by_cases hmod : s.backingMap.modCount ≠ it.entryIt.expectedModCount
    · simp [hlast, hmod] at hr
    · rw [not_not] at hmod
      obtain ⟨e, he, hkey⟩ := hok.lastKey n hlast
      have hn : n ∈ s.backingMap.live := hok.live hmod.symm n (by simp [hlast])
      simp only [hlast, hmod, ne_eq, not_true_eq_false, if_false, ok_bind, hkey, pure_eq_ok,
        Except.ok.injEq] at hr
      subst hr
      refine ⟨⟨h.valid.removeEntry n, fun jt hjt => ?_⟩, n, e, rfl, hmod, hn, he, rfl, rfl⟩
      rcases List.mem_or_eq_of_mem_set hjt with hjt | rfl
      · exact (h.iterators jt hjt).evolves (Backing.evolves_removeEntry _ n)
      · have hnodup := hok.nodup
        have hlive := hok.live hmod.symm
        rw [hlast, Option.toList_some, List.singleton_append] at hnodup hlive
        rw [List.nodup_cons] at hnodup
        refine ⟨le_rfl, fun _ m hm => ?_, hnodup.2, fun m hm => by cases hm⟩
        have hm' : m ∈ it.entryIt.remaining := hm
        have hmn : m ≠ n := fun heq => hnodup.1 (heq ▸ hm')
        exact List.mem_filter.mpr ⟨hlive m (List.mem_cons_of_mem _ hm'), by simpa using hmn⟩

theorem iteratorRemove_reports {i : ℕ} {it : ViewIterator K V} (h : s.Inv)
    (hit : s.iterators[i]? = some it) (hclean : Op.FreshIterator s.backingMap it)
    (hr : s.iteratorRemove i = .ok s') : s.Reports s' := by
  obtain ⟨-, n, e, hlast, hmod, hn, he, hbacking, hfired⟩ := iteratorRemove_spec h hit hr
  refine .of_change hfired
    (fun _ => ⟨e.value, Backing.contents_of_live h.valid hn he, hclean hmod n hlast e he⟩) ?_
    (.inr rfl)
  rw [hbacking]
  exact Backing.contents_removeEntry h.valid hn he

/-! ## Steps and runs -/

/-- What is expected of an operation. -/
structure Faithful (place : Placing K V) (s : Wrapper K V) (op : Op K V) : Prop where
  reports : s.Reports (s.perform place op).1
  truthful : ∀ changed, (s.perform place op).2 = .ok (.bool changed) →
    (changed = true ↔ (s.perform place op).1.backingMap.contents ≠ s.backingMap.contents)
  throws : ∀ e, (s.perform place op).2 = .error e → s.backingThrows op = some e

theorem Flagged.iff {r : Wrapper K V × Bool} (h : s.Flagged r) :
    r.2 = true ↔ r.1.backingMap.contents ≠ s.backingMap.contents := by
  constructor
  · intro hr heq
    obtain ⟨k, hk, hnone⟩ := h.2 hr
    exact hk (heq ▸ hnone)
  · intro hne
    by_contra hr
    exact hne (by rw [h.1 (by simpa using hr)])

/-- An operation that only makes progress and answers nothing. -/
theorem Faithful.of_progress {op : Op K V} {ret : Ret K V} {s' : Wrapper K V}
    (hperform : s.perform place op = (s', .ok ret)) (hret : ∀ b, ret ≠ .bool b)
    (h : s.Progress s') (hinv : s.Inv) :
    (s.perform place op).1.Inv ∧ s.Faithful place op := by
  refine ⟨hperform ▸ h.inv hinv, hperform ▸ h.reports, fun b hb => ?_, fun e he => ?_⟩
  · rw [hperform, Except.ok.injEq] at hb
    exact absurd hb (hret b)
  · rw [hperform] at he
    cases he

/-- An operation that makes progress and answers whether it did something. -/
theorem Faithful.of_flagged {op : Op K V} {r : Wrapper K V × Bool}
    (hperform : s.perform place op = (r.1, .ok (.bool r.2))) (h : s.Progress r.1)
    (hflag : s.Flagged r) (hinv : s.Inv) :
    (s.perform place op).1.Inv ∧ s.Faithful place op := by
  refine ⟨hperform ▸ h.inv hinv, hperform ▸ h.reports, fun b hb => ?_, fun e he => ?_⟩
  · rw [hperform, Except.ok.injEq, Ret.bool.injEq] at hb
    rw [hperform, ← hb]
    exact hflag.iff
  · rw [hperform] at he
    cases he

/-- An operation that throws changes nothing. -/
theorem Faithful.of_error {op : Op K V} {e : Exn} (hperform : s.perform place op = (s, .error e))
    (hthrows : s.backingThrows op = some e) (hinv : s.Inv) :
    (s.perform place op).1.Inv ∧ s.Faithful place op := by
  refine ⟨hperform ▸ hinv, hperform ▸ .refl s, fun b hb => ?_, fun e' he' => ?_⟩
  · rw [hperform] at hb
    cases hb
  · rw [hperform, Except.error.injEq] at he'
    rw [← he', hthrows]

/-- **Every operation but the unclean ones is faithful.** -/
theorem perform_faithful (place : Placing K V) {op : Op K V} (h : s.Inv) (hlegal : op.Legal s) (hclean : op.Clean s) :
    (s.perform place op).1.Inv ∧ s.Faithful place op := by
  have hnobool {v : Option V} : ∀ b, (Ret.value v : Ret K V) ≠ .bool b := by simp
  have hvoid : ∀ b, (Ret.void : Ret K V) ≠ .bool b := by simp
  cases op with
  | put key value => exact Faithful.of_progress rfl hnobool (put_progress h.valid place key value) h
  | remove key => exact Faithful.of_progress rfl hnobool (remove_progress h.valid key) h
  | putAll m => exact Faithful.of_progress rfl hvoid (putAll_progress h.valid place m) h
  | clear => exact Faithful.of_progress rfl hvoid (clear_progress h.valid) h
  | keySetRemove key =>
    obtain ⟨hp, hf⟩ := keySetRemove_progress h.valid hclean
    exact Faithful.of_flagged rfl hp hf h
  | valuesRemove o =>
    obtain ⟨r, hr, hp, hf⟩ := valuesRemove_loop h.valid s.backingMap.live (fun _ hn => hn) hclean
    refine Faithful.of_flagged (r := r) ?_ hp hf h
    simp only [perform, valuesRemove, hr]
  | entrySetRemove key value =>
    obtain ⟨hp, hf⟩ := entrySetRemove_progress h.valid key value
    exact Faithful.of_flagged rfl hp hf h
  | removeRetain view contains remove =>
    obtain ⟨hp, hf⟩ := removeRetain_progress h.valid contains remove
    exact Faithful.of_flagged rfl hp hf h
  | viewClear view => exact Faithful.of_progress rfl hvoid (clear_progress h.valid) h
  | viewAdd view => exact Faithful.of_error rfl rfl h
  | iterator view =>
    refine ⟨⟨h.valid, fun it hit => ?_⟩, .of_same rfl (Same.refl _), by simp [perform],
      by simp [perform]⟩
    rcases List.mem_append.mp hit with hit | hit
    · exact h.iterators it hit
    · rw [List.mem_singleton.mp hit]
      exact iteratorOk_new s.backingMap h.valid view
  | next i =>
    cases hr : s.next i with
    | error e =>
      exact Faithful.of_error (by simp only [perform, hr]) (next_error h hlegal hr) h
    | ok r =>
      obtain ⟨hinv, hbacking, hfired, hret⟩ := next_inv h hr
      have hperform : s.perform place (.next i) = (r.1, .ok r.2) := by simp only [perform, hr]
      refine ⟨hperform ▸ hinv, hperform ▸ .of_same hfired (hbacking ▸ Same.refl _),
        fun b hb => ?_, fun e he => ?_⟩
      · rw [hperform, Except.ok.injEq] at hb
        exact absurd hb (hret b)
      · rw [hperform] at he
        cases he
  | iteratorRemove i =>
    have hit := List.getElem?_eq_getElem hlegal
    cases hr : s.iteratorRemove i with
    | error e =>
      exact Faithful.of_error (by simp only [perform, hr]) (iteratorRemove_error hlegal hr) h
    | ok s' =>
      have hinv := (iteratorRemove_spec h hit hr).1
      have hreports := iteratorRemove_reports h hit (hclean _ hit) hr
      have hperform : s.perform place (.iteratorRemove i) = (s', .ok .void) := by
        simp only [perform, hr]
      refine ⟨hperform ▸ hinv, hperform ▸ hreports, fun b hb => ?_, fun e he => ?_⟩
      · rw [hperform, Except.ok.injEq] at hb
        exact absurd hb (hvoid b)
      · rw [hperform] at he
        cases he
  | setValue n value =>
    exact Faithful.of_progress rfl hnobool (setValue_progress h.valid hclean value) h

/-- A wrapper of a map, with nothing reported yet. -/
def start (b : Backing K V) : Wrapper K V := ⟨b, [], []⟩

/-- An operation as a step of a run; what it throws, its caller handles. -/
def step (place : Placing K V) (s : Wrapper K V) (op : Op K V) : Except Exn (Wrapper K V) :=
  .ok (s.perform place op).1

/-- Every operation of the run is faithful, and the changes fired in it replay
the initial contents to the final ones. -/
def FaithfulRun (place : Placing K V) (b : Backing K V) (ops : List (Op K V)) : Prop :=
  Along (step place) (fun s op => s.Faithful place op) (start b) ops
    ∧ ∃ s, run (step place) (start b) ops = .ok s
      ∧ ∃ r, replay b.contents s.fired = some r ∧ Same r s.backingMap.contents

end Wrapper

end JavaFx.ObservableMap
