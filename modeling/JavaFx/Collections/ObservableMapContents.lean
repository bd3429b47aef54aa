/-
What the operations of the backing map do to its contents.

The entry objects matter only while somebody holds on to one; what a map says is
the function from keys to mappings, `contents`. Every primitive that changes the
map changes that function at one key (`contents_setValue`, `contents_put`,
`contents_removeEntry`). `Valid` is the invariant behind this: no two entries in
the map have one key.
-/
import JavaFx.Collections.ObservableMapWrapper
import Mathlib.Logic.Function.Basic

set_option autoImplicit false
set_option linter.unusedSectionVars false

namespace JavaFx.ObservableMap

open JavaFx.Lib

variable {K V : Type} [DecidableEq K]

namespace Backing

/-- The entries in the map exist, each is in it once, and each has a key of its own. -/
structure Valid (b : Backing K V) : Prop where
  exist : ∀ n ∈ b.live, n < b.entries.length
  nodup : b.live.Nodup
  keys : ∀ m ∈ b.live, ∀ n ∈ b.live, ∀ e f, b.entries[m]? = some e → b.entries[n]? = some f →
    e.key = f.key → m = n

variable {b : Backing K V} {k : K} {v : Option V} {n : ℕ} {e : Entry K V}

theorem find_eq_some (h : b.Valid) :
    b.find k = some n ↔ n ∈ b.live ∧ ∃ v, b.entries[n]? = some ⟨k, v⟩ := by
  constructor
  · intro hf
    have hmem := List.mem_of_find?_eq_some hf
    have htest := List.find?_some hf
    rw [Option.any_eq_true] at htest
    obtain ⟨e, he, hkey⟩ := htest
    rw [decide_eq_true_eq] at hkey
    exact ⟨hmem, e.value, by rw [he, ← hkey]⟩
  · rintro ⟨hmem, v, he⟩
    have hsome : (b.find k).isSome := by
      rw [find, List.find?_isSome]
      exact ⟨n, hmem, by simp [he]⟩
    obtain ⟨m, hm⟩ := Option.isSome_iff_exists.mp hsome
    have htest := List.find?_some hm
    rw [Option.any_eq_true] at htest
    obtain ⟨f, hf, hkey⟩ := htest
    rw [decide_eq_true_eq] at hkey
    rw [hm, h.keys m (List.mem_of_find?_eq_some hm) n hmem f ⟨k, v⟩ hf he hkey]

/-- A key is mapped to `v` when an entry in the map says so. -/
theorem contents_eq_some (h : b.Valid) :
    b.contents k = some v ↔ ∃ n ∈ b.live, b.entries[n]? = some ⟨k, v⟩ := by
  rw [contents, Option.bind_eq_some_iff]
  constructor
  · rintro ⟨n, hn, hv⟩
    obtain ⟨hmem, w, he⟩ := (find_eq_some h).mp hn
    rw [he, Option.map_some, Option.some_inj] at hv
    exact ⟨n, hmem, by rw [he, ← hv]⟩
  · rintro ⟨n, hmem, he⟩
    exact ⟨n, (find_eq_some h).mpr ⟨hmem, v, he⟩, by rw [he, Option.map_some]⟩

theorem containsKey_iff (h : b.Valid) : b.containsKey k = true ↔ b.contents k ≠ none := by
  rw [containsKey, Option.isSome_iff_exists, Option.ne_none_iff_exists']
  simp only [find_eq_some h, contents_eq_some h]
  constructor
  · rintro ⟨n, hmem, v, he⟩
    exact ⟨v, n, hmem, he⟩
  · rintro ⟨v, n, hmem, he⟩
    exact ⟨n, hmem, v, he⟩

/-! ## `setValue` -/

theorem setValue_of_some (he : b.entries[n]? = some e) (v : Option V) :
    b.setValue n v = ({ b with entries := b.entries.set n { e with value := v } }, e.value) := by
  rw [setValue, he]

theorem entries_set_eq_some (he : b.entries[n]? = some e) {m : ℕ} {f : Entry K V} :
    (b.entries.set n { e with value := v })[m]? = some f
      ↔ if m = n then f = ⟨e.key, v⟩ else b.entries[m]? = some f := by
  have hlt : n < b.entries.length := (List.getElem?_eq_some_iff.mp he).1
  split_ifs with hm
  · rw [hm, List.getElem?_set_self hlt, Option.some_inj]
    exact eq_comm
  · rw [List.getElem?_set_ne (Ne.symm hm)]

theorem Valid.setValue (h : b.Valid) (he : b.entries[n]? = some e) (v : Option V) :
    (b.setValue n v).1.Valid := by
  rw [setValue_of_some he]
  refine ⟨fun m hm => ?_, h.nodup, fun m hm m' hm' f f' hf hf' hkey => ?_⟩
  · rw [List.length_set]
    exact h.exist m hm
  · have horig {j : ℕ} {g : Entry K V}
        (hg : (b.entries.set n { e with value := v })[j]? = some g) :
        ∃ g', b.entries[j]? = some g' ∧ g'.key = g.key := by
      rw [entries_set_eq_some he] at hg
      split_ifs at hg with hj
      · exact ⟨e, by rw [hj, he], by rw [hg]⟩
      · exact ⟨g, hg, rfl⟩
    obtain ⟨g, hg, hgk⟩ := horig hf
    obtain ⟨g', hg', hgk'⟩ := horig hf'
    exact h.keys m hm m' hm' g g' hg hg' (by rw [hgk, hgk', hkey])

/-- A value set on an entry in the map. -/
theorem contents_setValue (h : b.Valid) (hn : n ∈ b.live) (he : b.entries[n]? = some e)
    (v : Option V) :
    (b.setValue n v).1.contents = Function.update b.contents e.key (some v) := by
  have hvalid := h.setValue he v
  rw [setValue_of_some he] at hvalid ⊢
  funext k
  refine Option.ext (fun w => ?_)
  rw [contents_eq_some hvalid, Function.update_apply]
  simp only [entries_set_eq_some he]
  split_ifs with hk
  · subst hk
    constructor
    · rintro ⟨m, hm, hf⟩
      split_ifs at hf with hmn
      · rw [Entry.mk.injEq] at hf
        rw [hf.2]
      · exact absurd (h.keys m hm n hn ⟨e.key, w⟩ e hf he rfl) hmn
    · intro hw
      rw [Option.some_inj] at hw
      exact ⟨n, hn, by rw [if_pos rfl, hw]⟩
  · rw [contents_eq_some h]
    refine exists_congr (fun m => and_congr_right (fun hm => ?_))
    split_ifs with hmn
    · subst hmn
      rw [he]
      constructor
      · intro hf
        rw [Entry.mk.injEq] at hf
        exact absurd hf.1 hk
      · intro hf
        rw [Option.some_inj] at hf
        exact absurd (by rw [hf]) hk
    · exact Iff.rfl

/-! ## `put` and `remove` -/

variable {place : Placing K V}

theorem put_of_none (hk : b.find k = none) (v : Option V) :
    b.put place k v
      = (⟨b.entries ++ [⟨k, v⟩], place.place b.entries b.live b.entries.length, b.modCount + 1⟩,
        none) := by
  rw [put, hk]

theorem put_of_some (hk : b.find k = some n) (v : Option V) :
    b.put place k v = b.setValue n v := by
  rw [put, hk]

theorem entries_append_eq_some (h : b.Valid) {m : ℕ} {f : Entry K V}
    (hm : m ∈ b.entries.length :: b.live) :
    (b.entries ++ [⟨k, v⟩])[m]? = some f
      ↔ if m = b.entries.length then f = ⟨k, v⟩ else b.entries[m]? = some f := by
  split_ifs with heq
  · rw [heq, List.getElem?_concat_length, Option.some_inj]
    exact eq_comm
  · have hlt : m < b.entries.length :=
      h.exist m ((List.mem_cons.mp hm).resolve_left heq)
    rw [List.getElem?_append_left hlt]

theorem find_eq_none (h : b.Valid) :
    b.find k = none ↔ ∀ n ∈ b.live, ∀ e, b.entries[n]? = some e → e.key ≠ k := by
  rw [Option.eq_none_iff_forall_ne_some]
  constructor
  · intro hf n hn e he hkey
    refine hf n ((find_eq_some h).mpr ⟨hn, e.value, ?_⟩)
    rw [he, ← hkey]
  · intro hall n hn
    obtain ⟨hmem, v, he⟩ := (find_eq_some h).mp hn
    exact hall n hmem ⟨k, v⟩ he rfl

theorem Valid.put (h : b.Valid) (place : Placing K V) (k : K) (v : Option V) :
    (b.put place k v).1.Valid := by
  cases hk : b.find k with
  | some n =>
    obtain ⟨-, w, he⟩ := (find_eq_some h).mp hk
    rw [put_of_some hk]
    exact h.setValue he v
  | none =>
    rw [put_of_none hk]
    have hperm := place.perm b.entries b.live b.entries.length
    have hnew : b.entries.length ∉ b.live := fun hmem => absurd (h.exist _ hmem) (lt_irrefl _)
    have hkey := (find_eq_none h).mp hk
    refine ⟨fun m hm => ?_, ?_, fun m hm m' hm' f f' hf hf' heq => ?_⟩
    · rw [hperm.mem_iff, List.mem_cons] at hm
      rw [List.length_append, List.length_singleton]
      rcases hm with rfl | hm
      · omega
      · have := h.exist m hm
        omega
    · exact hperm.nodup_iff.mpr (List.nodup_cons.mpr ⟨hnew, h.nodup⟩)
    · rw [hperm.mem_iff] at hm hm'
      rw [entries_append_eq_some h hm] at hf
      rw [entries_append_eq_some h hm'] at hf'
      rw [List.mem_cons] at hm hm'
      split_ifs at hf hf' with hmn hmn' hmn'
      · rw [hmn, hmn']
      · rw [hf] at heq
        exact absurd heq.symm (hkey m' (hm'.resolve_left hmn') f' hf')
      · rw [hf'] at heq
        exact absurd heq (hkey m (hm.resolve_left hmn) f hf)
      · exact h.keys m (hm.resolve_left hmn) m' (hm'.resolve_left hmn') f f' hf hf' heq

/-- `put` maps the key to the value. -/
theorem contents_put (h : b.Valid) (place : Placing K V) (k : K) (v : Option V) :
    (b.put place k v).1.contents = Function.update b.contents k (some v) := by
  cases hk : b.find k with
  | some n =>
    obtain ⟨hn, w, he⟩ := (find_eq_some h).mp hk
    rw [put_of_some hk, contents_setValue h hn he]
  | none =>
    have hvalid := h.put place k v
    rw [put_of_none hk] at hvalid ⊢
    have hperm := place.perm b.entries b.live b.entries.length
    have hkey := (find_eq_none h).mp hk
    funext j
    refine Option.ext (fun w => ?_)
    rw [contents_eq_some hvalid, Function.update_apply]
    have hiff : (∃ m ∈ place.place b.entries b.live b.entries.length,
        (b.entries ++ [⟨k, v⟩])[m]? = some ⟨j, w⟩)
        ↔ (j = k ∧ w = v) ∨ b.contents j = some w := by
      rw [contents_eq_some h]
      constructor
      · rintro ⟨m, hm, hf⟩
        rw [hperm.mem_iff] at hm
        rw [entries_append_eq_some h hm] at hf
        split_ifs at hf with hmn
        · rw [Entry.mk.injEq] at hf
          exact .inl hf
        · exact .inr ⟨m, (List.mem_cons.mp hm).resolve_left hmn, hf⟩
      · rintro (⟨rfl, rfl⟩ | ⟨m, hm, hf⟩)
        · refine ⟨b.entries.length, hperm.mem_iff.mpr List.mem_cons_self, ?_⟩
          rw [entries_append_eq_some h List.mem_cons_self, if_pos rfl]
        · have hm' : m ∈ b.entries.length :: b.live := List.mem_cons_of_mem _ hm
          refine ⟨m, hperm.mem_iff.mpr hm', ?_⟩
          rw [entries_append_eq_some h hm', if_neg (by have := h.exist m hm; omega), hf]
    rw [hiff]
    split_ifs with hjk
    · have hnone : b.contents k = none := by rw [contents, hk, Option.bind_none]
      simp only [hjk, hnone, true_and, or_false, reduceCtorEq, Option.some_inj]
      exact eq_comm
    · simp only [hjk, false_and, false_or]

theorem Valid.removeEntry (h : b.Valid) (n : ℕ) : (b.removeEntry n).Valid :=
  ⟨fun m hm => h.exist m (List.mem_of_mem_filter hm), h.nodup.filter _,
    fun m hm m' hm' => h.keys m (List.mem_of_mem_filter hm) m' (List.mem_of_mem_filter hm')⟩

/-- An entry taken out. -/
theorem contents_removeEntry (h : b.Valid) (hn : n ∈ b.live) (he : b.entries[n]? = some e) :
    (b.removeEntry n).contents = Function.update b.contents e.key none := by
  funext k
  refine Option.ext (fun w => ?_)
  rw [contents_eq_some (h.removeEntry n), Function.update_apply]
  simp only [Backing.removeEntry, List.mem_filter, ne_eq, decide_eq_true_eq]
  split_ifs with hk
  · subst hk
    simp only [iff_false, not_exists, not_and]
    rintro m ⟨hm, hmn⟩ hf
    exact hmn (h.keys m hm n hn ⟨e.key, w⟩ e hf he rfl)
  · rw [contents_eq_some h]
    constructor
    · rintro ⟨m, hm, hf⟩
      exact ⟨m, hm.1, hf⟩
    · rintro ⟨m, hm, hf⟩
      refine ⟨m, ⟨hm, fun hmn => hk ?_⟩, hf⟩
      rw [hmn, he, Option.some_inj] at hf
      rw [hf]

theorem Valid.remove (h : b.Valid) (k : K) : (b.remove k).1.Valid := by
  unfold Backing.remove
  split
  · exact h.removeEntry _
  · exact h

/-- `remove` takes the mapping of the key away, if there is one. -/
theorem contents_remove (h : b.Valid) (k : K) :
    (b.remove k).1.contents = Function.update b.contents k none := by
  unfold Backing.remove
  cases hk : b.find k with
  | some n =>
    obtain ⟨hn, w, he⟩ := (find_eq_some h).mp hk
    exact contents_removeEntry h hn he
  | none =>
    have hnone : b.contents k = none := by rw [contents, hk, Option.bind_none]
    rw [← hnone, Function.update_eq_self]

end Backing

end JavaFx.ObservableMap

/-!
The changes an `ObservableMapWrapper` reports, replayed.

`replayChange` is what a listener can do with a change: take the mapping that
was removed away, which has to be there with that value, and put the one that
was added. `Reports s s'` says that the changes fired between two states replay
the contents of the first to those of the second up to `equals`; it composes, so
each operation only has to be looked at primitive by primitive.

`perform_faithful` collects what holds of one operation, and
`wrapper_run_faithful` what holds of every run. The operations that are left out
of it by `Op.Clean` are the ones in which the wrapper goes wrong.
-/

set_option linter.unusedSectionVars false

namespace JavaFx.ObservableMap

open JavaFx.Lib

variable {K V : Type} [DecidableEq K] [BEq V]

/-! ## Equality of contents -/

/-- What a map says: for each key no mapping, or a value. -/
abbrev Contents (K V : Type) := K → Option (Option V)

/-- The same mappings, up to `equals` of the values. -/
def Same (m m' : Contents K V) : Prop := ∀ k, (m k == m' k) = true

section Equality

variable {α : Type} [BEq α] [EquivBEq α]

instance instEquivBEqOption : EquivBEq (Option α) where
  rfl := by
    intro x
    cases x with
    | none => rfl
    | some a => exact (BEq.rfl : (a == a) = true)
  symm := by
    intro x y h
    cases x with
    | none =>
      cases y with
      | none => exact h
      | some b => simp at h
    | some a =>
      cases y with
      | none => simp at h
      | some b =>
        have hab : (a == b) = true := h
        have hba : (b == a) = true := BEq.symm hab
        exact hba
  trans := by
    intro x y z h h'
    cases x with
    | none =>
      cases y with
      | none => exact h'
      | some b => simp at h
    | some a =>
      cases y with
      | none => simp at h
      | some b =>
        cases z with
        | none => simp at h'
        | some c =>
          have hab : (a == b) = true := h
          have hbc : (b == c) = true := h'
          have hac : (a == c) = true := BEq.trans hab hbc
          exact hac

variable {V : Type} [BEq V] [EquivBEq V] {m m' m'' : Contents K V}

theorem Same.refl (m : Contents K V) : Same m m := fun _ => BEq.rfl

theorem Same.symm (h : Same m m') : Same m' m := fun k => BEq.symm (h k)

theorem Same.trans (h : Same m m') (h' : Same m' m'') : Same m m'' :=
  fun k => BEq.trans (h k) (h' k)

theorem Same.update (h : Same m m') (k : K) {x y : Option (Option V)} (hxy : (x == y) = true) :
    Same (Function.update m k x) (Function.update m' k y) := by
  intro j
  simp only [Function.update_apply]
  split_ifs
  · exact hxy
  · exact h j

end Equality

/-! ## Replaying -/

/-- A change replayed: a removed mapping has to be there with the removed value. -/
def replayChange (m : Contents K V) (c : Change K V) : Option (Contents K V) :=
  let m' := Function.update m c.key (if c.wasAdded then some c.added else none)
  if c.wasRemoved then
    match m c.key with
    | some v => if v == c.old then some m' else none
    | none => none
  else some (if c.wasAdded then m' else m)

/-- The changes, replayed in order. -/
def replay (m : Contents K V) : List (Change K V) → Option (Contents K V)
  | [] => some m
  | c :: cs => (replayChange m c).bind (fun m' => replay m' cs)

section Replay

variable [EquivBEq V] {m m' r : Contents K V} {c : Change K V} {cs ds : List (Change K V)}

theorem replay_append : replay m (cs ++ ds) = (replay m cs).bind (fun m' => replay m' ds) := by
  induction cs generalizing m with
  | nil => rfl
  | cons c cs ih =>
    rw [List.cons_append, replay, replay]
    cases replayChange m c with
    | none => rfl
    | some m' => exact ih

theorem replayChange_same (h : Same m m') (hr : replayChange m c = some r) :
    ∃ r', replayChange m' c = some r' ∧ Same r r' := by
  have hupdate := h.update c.key
    (BEq.rfl : ((if c.wasAdded then some c.added else none : Option (Option V)) == _) = true)
  unfold replayChange at hr ⊢
  by_cases hrem : c.wasRemoved
  · simp only [hrem, if_true] at hr ⊢
    cases hm : m c.key with
    | none => simp [hm] at hr
    | some v =>
      simp only [hm] at hr
      have hk := h c.key
      rw [hm] at hk
      cases hm' : m' c.key with
      | none => simp [hm'] at hk
      | some w =>
        rw [hm'] at hk
        by_cases hv : (v == c.old) = true
        · have hvw : (v == w) = true := hk
          have hw : (w == c.old) = true := BEq.trans (BEq.symm hvw) hv
          rw [if_pos hv, Option.some_inj] at hr
          exact ⟨_, if_pos hw, hr ▸ hupdate⟩
        · rw [if_neg hv] at hr
          cases hr
  · simp only [hrem, Bool.false_eq_true, if_false, Option.some_inj] at hr ⊢
    subst hr
    refine ⟨_, rfl, ?_⟩
    split_ifs with hadd
    · simpa [hadd] using hupdate
    · exact h

/-- Replaying does not tell equal contents apart. -/
theorem replay_same (h : Same m m') (hr : replay m cs = some r) :
    ∃ r', replay m' cs = some r' ∧ Same r r' := by
  induction cs generalizing m m' with
  | nil =>
    rw [replay, Option.some_inj] at hr
    exact ⟨m', rfl, hr ▸ h⟩
  | cons c cs ih =>
    rw [replay, Option.bind_eq_some_iff] at hr
    obtain ⟨a, ha, hr⟩ := hr
    obtain ⟨a', ha', hsame⟩ := replayChange_same h ha
    obtain ⟨r', hr', hsame'⟩ := ih hsame hr
    exact ⟨r', by rw [replay, ha', Option.bind_some, hr'], hsame'⟩

end Replay

namespace Wrapper

/-- The changes fired between two states lead from the contents of the first to
the contents of the second. -/
def Reports (s s' : Wrapper K V) : Prop :=
  ∃ cs, s'.fired = s.fired ++ cs
    ∧ ∃ r, replay s.backingMap.contents cs = some r ∧ Same r s'.backingMap.contents

section Reports

variable [EquivBEq V] {s s' s'' : Wrapper K V} {c : Change K V}

theorem Reports.refl (s : Wrapper K V) : s.Reports s :=
  ⟨[], (List.append_nil _).symm, _, rfl, Same.refl _⟩

theorem Reports.trans (h : s.Reports s') (h' : s'.Reports s'') : s.Reports s'' := by
  obtain ⟨cs, hcs, r, hr, hsame⟩ := h
  obtain ⟨ds, hds, t, ht, hsame'⟩ := h'
  obtain ⟨t', ht', htt'⟩ := replay_same hsame.symm ht
  refine ⟨cs ++ ds, by rw [hds, hcs, List.append_assoc], t', ?_, htt'.symm.trans hsame'⟩
  rw [replay_append, hr, Option.bind_some, ht']

/-- Nothing fired, and the contents stay equal. -/
theorem Reports.of_same (hfired : s'.fired = s.fired)
    (hsame : Same s.backingMap.contents s'.backingMap.contents) : s.Reports s' :=
  ⟨[], by rw [hfired, List.append_nil], _, rfl, hsame⟩

/-- One change fired. -/
theorem Reports.of_change (hfired : s'.fired = s.fired ++ [c])
    (hremoved : c.wasRemoved = true →
      ∃ v, s.backingMap.contents c.key = some v ∧ (v == c.old) = true)
    (hcontents : s'.backingMap.contents
      = Function.update s.backingMap.contents c.key (if c.wasAdded then some c.added else none))
    (hsome : c.wasAdded = true ∨ c.wasRemoved = true) : s.Reports s' := by
  refine ⟨[c], hfired, s'.backingMap.contents, ?_, Same.refl _⟩
  have hone : replayChange s.backingMap.contents c = some s'.backingMap.contents := by
    rw [replayChange, hcontents]
    by_cases hrem : c.wasRemoved
    · obtain ⟨v, hv, heq⟩ := hremoved hrem
      simp only [hrem, if_true, hv, heq]
    · have hadd : c.wasAdded = true := hsome.resolve_right hrem
      simp only [hrem, Bool.false_eq_true, if_false, hadd, if_true]
  rw [replay, hone, Option.bind_some, replay]

end Reports

end Wrapper

end JavaFx.ObservableMap
