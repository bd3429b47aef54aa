/-
The map listeners of `com.sun.javafx.binding.ContentBinding` and
`BidirectionalContentBinding`, with the observable maps they listen to.

Both listeners ask `wasRemoved` first and put the added value only when nothing
was removed. A replacement is both, so they take the key away and stop there.
As long as no operation replaces a value, every change is an addition or a
removal, and `boundMaps_run_same` says that the maps stay equal then, whatever
the operations are and whichever map they are on.

The two systems are the observable map, or the two of them, with the map that is
kept up to date. An operation is performed on one map, and the changes it fired
are then handed to the listener one by one; the listener touches the other map
only, so this is what happens when it is called in between.
-/
import JavaFx.Binding.ContentBinding
import JavaFx.Collections.ObservableMapRun

set_option autoImplicit false
set_option linter.unusedSectionVars false

namespace JavaFx.Binding

open JavaFx.Lib JavaFx.ObservableMap

variable {K V : Type} [DecidableEq K] [BEq V]

/-! ## The listeners -/

/-- `ContentBinding.MapContentBinding.onChanged`, for a map that is still there. -/
def ContentBinding.mapOnChanged (place : Placing K V) (map : Backing K V) (change : Change K V) :
    Backing K V :=
  if change.wasRemoved then (map.remove change.key).1
  else (map.put place change.key change.added).1

/-- Two maps bound by `BidirectionalContentBinding`. -/
structure BidirectionalMaps (K V : Type) where
  map1 : Wrapper K V
  map2 : Wrapper K V
  updating : Bool

namespace BidirectionalMaps

def get (b : BidirectionalMaps K V) : Side → Wrapper K V
  | .first => b.map1
  | .second => b.map2

def put (b : BidirectionalMaps K V) (m : Wrapper K V) : Side → BidirectionalMaps K V
  | .first => { b with map1 := m }
  | .second => { b with map2 := m }

/-- `BidirectionalContentBinding.MapContentBinding.onChanged` for a change of the
map on `side`. The edit of the other map notifies this very listener; `updating`
is set by then, so that call returns at once. -/
def onChanged (place : Placing K V) (side : Side) (b : BidirectionalMaps K V)
    (change : Change K V) : BidirectionalMaps K V :=
  if b.updating then b
  else
    let dest := b.get side.other
    let dest' :=
      if change.wasRemoved then (dest.remove change.key).1
      else (dest.put place change.key change.added).1
    { b.put dest' side.other with updating := false }

end BidirectionalMaps

/-! ## The systems -/

/-- A map and the observable map it is bound to. -/
structure BoundMap (K V : Type) where
  source : Wrapper K V
  target : Backing K V

/-- An operation on the observable map, and what the binding makes of it. -/
def BoundMap.step (place place' : Placing K V) (b : BoundMap K V) (op : Op K V) :
    Except Exn (BoundMap K V) :=
  let source := (b.source.perform place op).1
  let changes := source.fired.drop b.source.fired.length
  .ok ⟨source, changes.foldl (ContentBinding.mapOnChanged place') b.target⟩

/-- An operation on one of two bound maps, and what the binding makes of it. -/
def BidirectionalMaps.step (place : Placing K V) (b : BidirectionalMaps K V) (a : Side × Op K V) :
    Except Exn (BidirectionalMaps K V) :=
  let source := ((b.get a.1).perform place a.2).1
  let changes := source.fired.drop (b.get a.1).fired.length
  .ok (changes.foldl (BidirectionalMaps.onChanged place a.1) (b.put source a.1))

/-- The operation replaces no value: what `put` finds under the key equals the
new value, and no entry is set. -/
def NoReplacement (s : Wrapper K V) : Op K V → Prop
  | .put key value => ∀ w ∈ s.backingMap.contents key, (w == value) = true
  | .putAll m => (m.map Prod.fst).Nodup
      ∧ ∀ e ∈ m, ∀ w ∈ s.backingMap.contents e.1, (w == e.2) = true
  | .setValue _ _ => False
  | _ => True

instance (s : Wrapper K V) : (op : Op K V) → Decidable (NoReplacement s op)
  | .put key value =>
    inferInstanceAs (Decidable (∀ w ∈ s.backingMap.contents key, (w == value) = true))
  | .putAll m => inferInstanceAs (Decidable ((m.map Prod.fst).Nodup
      ∧ ∀ e ∈ m, ∀ w ∈ s.backingMap.contents e.1, (w == e.2) = true))
  | .setValue .. => inferInstanceAs (Decidable False)
  | .remove .. | .clear | .keySetRemove .. | .valuesRemove .. | .entrySetRemove ..
  | .removeRetain .. | .viewClear .. | .viewAdd .. | .iterator .. | .next .. | .iteratorRemove .. =>
    inferInstanceAs (Decidable True)

/-! ## What the listeners make of a change -/

/-- The contents of a bound map after a change. -/
def follow (m : Contents K V) (c : Change K V) : Contents K V :=
  Function.update m c.key (if c.wasRemoved then none else some c.added)

section Follow

variable [EquivBEq V] {m m' r : Contents K V} {c : Change K V} {cs : List (Change K V)}
  {s s' s'' : Wrapper K V} {place : Placing K V}

theorem follow_same (h : Same m m') (cs : List (Change K V)) :
    Same (cs.foldl follow m) (cs.foldl follow m') := by
  induction cs generalizing m m' with
  | nil => exact h
  | cons c cs ih => exact ih (h.update c.key BEq.rfl)

/-- An addition or a removal, not both. -/
def IsSimple (c : Change K V) : Prop := c.wasAdded = !c.wasRemoved

theorem replay_eq_follow (hsimple : ∀ c ∈ cs, IsSimple c) (hr : replay m cs = some r) :
    cs.foldl follow m = r := by
  induction cs generalizing m with
  | nil => exact Option.some_inj.mp hr
  | cons c cs ih =>
    rw [replay, Option.bind_eq_some_iff] at hr
    obtain ⟨m', hm', hr⟩ := hr
    have hc := hsimple c List.mem_cons_self
    have hone : follow m c = m' := by
      unfold replayChange at hm'
      rw [follow]
      cases hrem : c.wasRemoved with
      | false =>
        rw [IsSimple, hrem] at hc
        simpa [hrem, hc] using hm'
      | true =>
        rw [IsSimple, hrem] at hc
        simp only [hrem, hc, if_true, Bool.not_true, Bool.false_eq_true, if_false] at hm' ⊢
        split at hm'
        · split_ifs at hm'
          exact Option.some_inj.mp hm'
        · cases hm'
    rw [List.foldl_cons, hone]
    exact ih (fun d hd => hsimple d (List.mem_cons_of_mem _ hd)) hr

/-- Everything fired between two states is an addition or a removal. -/
def FiresSimple (s s' : Wrapper K V) : Prop :=
  ∃ cs, s'.fired = s.fired ++ cs ∧ ∀ c ∈ cs, IsSimple c

theorem FiresSimple.refl (s : Wrapper K V) : FiresSimple s s :=
  ⟨[], (List.append_nil _).symm, fun c hc => by cases hc⟩

theorem FiresSimple.trans (h : FiresSimple s s') (h' : FiresSimple s' s'') : FiresSimple s s'' := by
  obtain ⟨cs, hcs, hsimple⟩ := h
  obtain ⟨ds, hds, hsimple'⟩ := h'
  refine ⟨cs ++ ds, by rw [hds, hcs, List.append_assoc], fun c hc => ?_⟩
  rcases List.mem_append.mp hc with hc | hc
  · exact hsimple c hc
  · exact hsimple' c hc

theorem FiresSimple.of_change (hfired : s'.fired = s.fired ++ [c]) (hc : IsSimple c) :
    FiresSimple s s' :=
  ⟨[c], hfired, fun d hd => by rw [List.mem_singleton.mp hd]; exact hc⟩

theorem removeCurrent_simple (n : ℕ) : FiresSimple s (s.removeCurrent n) := by
  unfold Wrapper.removeCurrent
  split
  · exact .of_change rfl rfl
  · exact .refl s

theorem remove_simple (key : K) : FiresSimple s (s.remove key).1 := by
  unfold Wrapper.remove
  split_ifs
  · exact .of_change rfl rfl
  · exact .refl s

theorem clear_simple : FiresSimple s s.clear := by
  unfold Wrapper.clear
  generalize s.backingMap.live = ns
  induction ns generalizing s with
  | nil => exact .refl s
  | cons n ns ih => exact (removeCurrent_simple n).trans ih

theorem removeRetain_simple (contains : K → Option V → Bool) (remove : Bool) :
    FiresSimple s (s.removeRetain contains remove).1 := by
  unfold Wrapper.removeRetain
  suffices hloop : ∀ (ns : List ℕ) (r : Wrapper K V × Bool), FiresSimple s r.1 →
      FiresSimple s (ns.foldl _ r).1 from hloop _ (s, false) (.refl s)
  intro ns
  induction ns with
  | nil => exact fun r hr => hr
  | cons n ns ih =>
    intro r hr
    rw [List.foldl_cons]
    refine ih _ ?_
    split
    · split_ifs
      · exact hr.trans (removeCurrent_simple n)
      · exact hr
    · exact hr

theorem put_simple (h : s.backingMap.Valid) {key : K} {value : Option V}
    (hno : ∀ w ∈ s.backingMap.contents key, (w == value) = true) :
    FiresSimple s (s.put place key value).1 := by
  unfold Wrapper.put
  by_cases hk : s.backingMap.containsKey key = true
  · obtain ⟨n, w, hfind, -, he, hw⟩ := Backing.exists_entry h hk
    have hret : (s.backingMap.put place key value).2 = w := by
      rw [Backing.put_of_some hfind, Backing.setValue_of_some he]
    have hdiffers : differs w value = false := by simp [differs_eq, hno w hw]
    simp only [hk, if_true, hret, hdiffers, Bool.false_eq_true, if_false]
    exact ⟨[], (List.append_nil _).symm, fun c hc => by cases hc⟩
  · simp only [hk, Bool.false_eq_true, if_false]
    exact .of_change rfl rfl

/-- The mappings `putAll` puts meet no other value, the earlier ones do not get in
the way of the later ones. -/
theorem putAll_simple (h : s.backingMap.Valid) {m : List (K × Option V)}
    (hkeys : (m.map Prod.fst).Nodup)
    (hno : ∀ e ∈ m, ∀ w ∈ s.backingMap.contents e.1, (w == e.2) = true) :
    FiresSimple s (s.putAll place m) := by
  unfold Wrapper.putAll
  induction m generalizing s with
  | nil => exact .refl s
  | cons e m ih =>
    rw [List.map_cons, List.nodup_cons] at hkeys
    have hput := Wrapper.put_progress h place e.1 e.2
    refine (put_simple h (hno e List.mem_cons_self)).trans
      (ih hput.valid hkeys.2 (fun f hf w hw => ?_))
    refine hno f (List.mem_cons_of_mem _ hf) w ?_
    have hne : f.1 ≠ e.1 := fun heq => hkeys.1 (heq ▸ List.mem_map_of_mem hf)
    have hcontents : (s.put place e.1 e.2).1.backingMap.contents f.1
        = s.backingMap.contents f.1 := by
      rw [Wrapper.put_backingMap, Backing.contents_put h, Function.update_of_ne hne]
    rwa [hcontents] at hw

theorem valuesRemove_simple {o : Option V} {ns : List ℕ} {r : Wrapper K V × Bool}
    (h : s.backingMap.Valid) (hns : ∀ n ∈ ns, n ∈ s.backingMap.live)
    (hr : Wrapper.valuesRemove.loop s o ns = .ok r) : s.Progress r.1 ∧ FiresSimple s r.1 := by
  induction ns with
  | nil =>
    cases hr
    exact ⟨.refl h, .refl s⟩
  | cons n ns ih =>
    have hn := hns n List.mem_cons_self
    obtain ⟨e, he⟩ : ∃ e, s.backingMap.entries[n]? = some e :=
      ⟨_, List.getElem?_eq_getElem (h.exist n hn)⟩
    simp only [Wrapper.valuesRemove.loop, he] at hr
    split at hr
    · split_ifs at hr with htest
      · cases hr
        exact ⟨Wrapper.removeCurrent_progress h hn he, removeCurrent_simple n⟩
      · exact ih (fun m hm => hns m (List.mem_cons_of_mem _ hm)) hr
    · cases hr

/-- What an operation fired turns the contents before it into those after it, the
way the listeners read it. -/
def Mirrors (s s' : Wrapper K V) : Prop :=
  ∃ cs, s'.fired = s.fired ++ cs
    ∧ Same (cs.foldl follow s.backingMap.contents) s'.backingMap.contents

theorem Mirrors.of_same (hfired : s'.fired = s.fired) (hbacking : s'.backingMap = s.backingMap) :
    Mirrors s s' :=
  ⟨[], by rw [hfired, List.append_nil], by rw [hbacking]; exact Same.refl _⟩

theorem Mirrors.of_progress (h : s.Progress s') (hsimple : FiresSimple s s') : Mirrors s s' := by
  obtain ⟨cs, hcs, r, hr, hsame⟩ := h.reports
  obtain ⟨ds, hds, hsimple⟩ := hsimple
  obtain rfl : cs = ds := List.append_cancel_left (hcs.symm.trans hds)
  exact ⟨cs, hcs, by rwa [replay_eq_follow hsimple hr]⟩

/-- An operation that replaces nothing is mirrored. -/
theorem perform_mirrors (place : Placing K V) {op : Op K V} (h : s.Inv) (hlegal : op.Legal s)
    (hno : NoReplacement s op) :
    (s.perform place op).1.Inv ∧ Mirrors s (s.perform place op).1 := by
  have hprogress {t : Wrapper K V} (ht : s.Progress t) (hf : FiresSimple s t) :
      t.Inv ∧ Mirrors s t := ⟨ht.inv h, .of_progress ht hf⟩
  have hself : s.Inv ∧ Mirrors s s := ⟨h, .of_same rfl rfl⟩
  cases op with
  | put key value =>
    exact hprogress (Wrapper.put_progress h.valid place key value) (put_simple h.valid hno)
  | remove key => exact hprogress (Wrapper.remove_progress h.valid key) (remove_simple key)
  | putAll m =>
    exact hprogress (Wrapper.putAll_progress h.valid place m) (putAll_simple h.valid hno.1 hno.2)
  | clear => exact hprogress (Wrapper.clear_progress h.valid) clear_simple
  | keySetRemove key => exact hprogress (Wrapper.remove_progress h.valid key) (remove_simple key)
  | valuesRemove o =>
    cases hr : s.valuesRemove o with
    | error e =>
      simp only [Wrapper.perform, hr]
      exact hself
    | ok r =>
      obtain ⟨hp, hf⟩ := valuesRemove_simple h.valid (fun _ hn => hn) hr
      simp only [Wrapper.perform, hr]
      exact hprogress hp hf
  | entrySetRemove key value =>
    refine hprogress (Wrapper.entrySetRemove_progress h.valid key value).1 ?_
    change FiresSimple s (s.entrySetRemove key value).1
    unfold Wrapper.entrySetRemove
    split
    · split_ifs
      · exact .of_change rfl rfl
      · exact .refl s
    · exact .refl s
  | removeRetain view contains remove =>
    exact hprogress (Wrapper.removeRetain_progress h.valid contains remove).1
      (removeRetain_simple contains remove)
  | viewClear view => exact hprogress (Wrapper.clear_progress h.valid) clear_simple
  | viewAdd view => exact hself
  | iterator view =>
    have hinv := (Wrapper.perform_faithful place h (show (Op.iterator view).Legal s from trivial)
      trivial).1
    exact ⟨hinv, .of_same rfl rfl⟩
  | next i =>
    cases hr : s.next i with
    | error e =>
      simp only [Wrapper.perform, hr]
      exact hself
    | ok r =>
      obtain ⟨hinv, hbacking, hfired, -⟩ := Wrapper.next_inv h hr
      simp only [Wrapper.perform, hr]
      exact ⟨hinv, .of_same hfired hbacking⟩
  | iteratorRemove i =>
    have hit := List.getElem?_eq_getElem hlegal
    cases hr : s.iteratorRemove i with
    | error e =>
      simp only [Wrapper.perform, hr]
      exact hself
    | ok t =>
      -- the value reported may be out of date; the listeners do not look at it
      obtain ⟨hinv, n, e, -, -, hn, he, hbacking, hfired⟩ :=
        Wrapper.iteratorRemove_spec h hit hr
      simp only [Wrapper.perform, hr]
      refine ⟨hinv, _, hfired, ?_⟩
      rw [hbacking, Backing.contents_removeEntry h.valid hn he]
      exact Same.refl _
  | setValue n value => exact hno.elim

end Follow

/-! ## Runs -/

section Runs

variable [EquivBEq V] {place place' : Placing K V}

theorem mapOnChanged_contents (place : Placing K V) {t : Backing K V} (h : t.Valid) (c : Change K V) :
    (ContentBinding.mapOnChanged place t c).Valid
      ∧ (ContentBinding.mapOnChanged place t c).contents = follow t.contents c := by
  unfold ContentBinding.mapOnChanged follow
  cases c.wasRemoved with
  | true => exact ⟨h.remove c.key, Backing.contents_remove h c.key⟩
  | false => exact ⟨h.put place c.key c.added, Backing.contents_put h place c.key c.added⟩

theorem mapOnChanged_foldl (place : Placing K V) {t : Backing K V} (h : t.Valid) (cs : List (Change K V)) :
    (cs.foldl (ContentBinding.mapOnChanged place) t).Valid
      ∧ (cs.foldl (ContentBinding.mapOnChanged place) t).contents = cs.foldl follow t.contents := by
  induction cs generalizing t with
  | nil => exact ⟨h, rfl⟩
  | cons c cs ih =>
    obtain ⟨hvalid, hcontents⟩ := mapOnChanged_contents place h c
    rw [List.foldl_cons, List.foldl_cons, ← hcontents]
    exact ih hvalid

/-- What the run of a bound map keeps. -/
structure BoundMap.InSync (b : BoundMap K V) : Prop where
  source : b.source.Inv
  target : b.target.Valid
  same : Same b.source.backingMap.contents b.target.contents

theorem BoundMap.InSync.step {b : BoundMap K V} {op : Op K V} (h : b.InSync)
    (hlegal : op.Legal b.source) (hno : NoReplacement b.source op) :
    ∃ b', b.step place place' op = .ok b' ∧ b'.InSync := by
  obtain ⟨hinv, cs, hcs, hsame⟩ := perform_mirrors place h.source hlegal hno
  refine ⟨_, rfl, ?_⟩
  rw [hcs, List.drop_left]
  obtain ⟨hvalid, hcontents⟩ := mapOnChanged_foldl place' h.target cs
  exact ⟨hinv, hvalid, hsame.symm.trans (hcontents ▸ follow_same h.same cs)⟩

namespace BidirectionalMaps

variable {b : BidirectionalMaps K V} {side : Side}

@[simp] theorem get_put (m : Wrapper K V) : (b.put m side).get side = m := by
  cases side <;> rfl

@[simp] theorem get_put_other (m : Wrapper K V) :
    (b.put m side).get side.other = b.get side.other := by
  cases side <;> rfl

@[simp] theorem get_other_put (m : Wrapper K V) : (b.put m side.other).get side = b.get side := by
  cases side <;> rfl

@[simp] theorem put_updating (m : Wrapper K V) : (b.put m side).updating = b.updating := by
  cases side <;> rfl

/-- What the run of two bound maps keeps. -/
structure InSync (b : BidirectionalMaps K V) : Prop where
  inv : ∀ side, (b.get side).Inv
  idle : b.updating = false
  same : Same b.map1.backingMap.contents b.map2.backingMap.contents

theorem InSync.same_of (h : b.InSync) (side : Side) :
    Same (b.get side).backingMap.contents (b.get side.other).backingMap.contents := by
  cases side
  · exact h.same
  · exact h.same.symm

/-- The listener follows one change on the other map. -/
theorem onChanged_other (place : Placing K V) (hidle : b.updating = false) (h : (b.get side.other).Inv)
    (c : Change K V) :
    (b.onChanged place side c).updating = false
      ∧ (b.onChanged place side c).get side = b.get side
      ∧ ((b.onChanged place side c).get side.other).Inv
      ∧ ((b.onChanged place side c).get side.other).backingMap.contents
        = follow (b.get side.other).backingMap.contents c := by
  have hput (m : Wrapper K V) : { b.put m side.other with updating := false }
      = b.put m side.other := by
    cases side <;> simp [put, Side.other, hidle]
  simp only [onChanged, hidle, Bool.false_eq_true, if_false, hput, put_updating, get_put,
    get_other_put, follow, true_and]
  cases c.wasRemoved with
  | true =>
    refine ⟨(Wrapper.remove_progress h.valid c.key).inv h, ?_⟩
    exact (congrArg _ (Wrapper.remove_backingMap c.key)).trans
      (Backing.contents_remove h.valid c.key)
  | false =>
    refine ⟨(Wrapper.put_progress h.valid place c.key c.added).inv h, ?_⟩
    exact (congrArg _ (Wrapper.put_backingMap place c.key c.added)).trans
      (Backing.contents_put h.valid place c.key c.added)

theorem onChanged_foldl (place : Placing K V) (hidle : b.updating = false) (h : (b.get side.other).Inv)
    (cs : List (Change K V)) :
    (cs.foldl (onChanged place side) b).updating = false
      ∧ (cs.foldl (onChanged place side) b).get side = b.get side
      ∧ ((cs.foldl (onChanged place side) b).get side.other).Inv
      ∧ ((cs.foldl (onChanged place side) b).get side.other).backingMap.contents
        = cs.foldl follow (b.get side.other).backingMap.contents := by
  induction cs generalizing b with
  | nil => exact ⟨hidle, rfl, h, rfl⟩
  | cons c cs ih =>
    obtain ⟨hidle', hget, hinv, hcontents⟩ := onChanged_other place hidle h c
    obtain ⟨hidle'', hget', hinv', hcontents'⟩ := ih hidle' hinv
    exact ⟨hidle'', hget'.trans hget, hinv', by rw [List.foldl_cons, List.foldl_cons, hcontents',
      hcontents]⟩

theorem InSync.step {a : Side × Op K V} (h : b.InSync) (hlegal : a.2.Legal (b.get a.1))
    (hno : NoReplacement (b.get a.1) a.2) :
    ∃ b', b.step place a = .ok b' ∧ b'.InSync := by
  obtain ⟨side, op⟩ := a
  obtain ⟨hinv, cs, hcs, hsame⟩ := perform_mirrors place (h.inv side) hlegal hno
  refine ⟨_, rfl, ?_⟩
  dsimp only at hcs ⊢
  rw [hcs, List.drop_left]
  have hother := h.inv side.other
  rw [← get_put_other ((b.get side).perform place op).1] at hother
  obtain ⟨hidle, hget, hinv', hcontents⟩ := onChanged_foldl place
    ((put_updating _).trans h.idle) hother cs
  rw [get_put] at hget
  rw [get_put_other] at hcontents
  generalize cs.foldl (onChanged place side) (b.put ((b.get side).perform place op).1 side) = b'
    at hidle hget hinv' hcontents
  have hsync : Same (b'.get side).backingMap.contents (b'.get side.other).backingMap.contents := by
    rw [hget, hcontents]
    exact hsame.symm.trans (follow_same (h.same_of side) cs)
  have hget' : (b'.get side).Inv := hget ▸ hinv
  cases side with
  | first =>
    exact ⟨fun s => by cases s; exacts [hget', hinv'], hidle, hsync⟩
  | second =>
    exact ⟨fun s => by cases s; exacts [hinv', hget'], hidle, hsync.symm⟩

end BidirectionalMaps

end Runs

end JavaFx.Binding
