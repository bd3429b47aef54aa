/-
Which listeners a map or set expression helper calls, over whole runs.

`Tracks` says what a helper holds of each kind. One lemma a method says what the
method does to these lists: `addListener` puts its argument behind the others,
`removeListener` erases the first listener its argument equals, and both
notifications call the lists in order. What a helper holds and what is registered
with it may differ in weak listeners that were garbage collected, which `trim`
drops when it likes; they ignore their calls, and are left out on both sides.

`collectionHelpers_run_faithful` is the result for runs of the two classes in
which the second decrement of a size is never reached and no change is dropped.
-/
import JavaFx.Binding.CollectionExpressionHelper

set_option autoImplicit false
set_option linter.unusedSectionVars false

namespace JavaFx.Binding.CollectionExpressionHelper

open JavaFx.Lib Listeners

variable {L R C D : Type} [BEq L] [DecidableEq R]

/-! ## What a helper holds -/

/-- A slot holds `ls`. -/
inductive Slot.Holds : Slot L → List L → Prop
  | null : Slot.Holds ⟨none, 0⟩ []
  | array {a : Listeners L} {size : ℕ} {ls : List L} (h : Listeners.Holds a size ls) :
      Slot.Holds ⟨some a, size⟩ ls

/-- The helper holds the listeners `ls kind` of each kind. -/
inductive Tracks : Helper L R → (Kind → List L) → Prop
  | null : Tracks .null (fun _ => [])
  | single (kind : Kind) (l : L) (v : Option R) :
      Tracks (.single kind l v) (Function.update (fun _ => []) kind [l])
  | generic (g : Generic L R) (ls : Kind → List L) (hfree : g.locked = false)
      (hslots : ∀ kind, (g.slots kind).Holds (ls kind)) : Tracks (.generic g) ls

section Slots

variable {s : Slot L} {ls : List L} {l : L} {a : Listeners L} {index : ℕ}

theorem Slot.Holds.size_eq (h : s.Holds ls) : s.size = ls.length := by
  rcases h with _ | h
  · rfl
  · exact h.size_eq

theorem called_entries (ls : List L) :
    (ls.map some).mapM (fun entry => entry.elim (.error Exn.nullPointer) .ok)
      = (.ok ls : Except Exn (List L)) := by
  induction ls with
  | nil => rfl
  | cons l ls ih =>
    rw [List.map_cons, List.mapM_cons, ih]
    rfl

theorem Slot.Holds.called (h : s.Holds ls) : s.called = .ok ls := by
  rcases h with _ | h
  · rfl
  · rw [Slot.called]
    simp only [h.le_length, if_true, h.entries, called_entries]

/-- `addListener` adds the listener, and may drop collected ones. -/
theorem Slot.Holds.addListener (h : s.Holds ls) (gone : L → Bool) (locked : Bool) (l : L) :
    ∃ ls', (s.addListener gone locked l).Holds ls' ∧ live gone ls' = live gone (ls ++ [l]) := by
  rcases h with _ | h
  · exact ⟨[l], .array (holds_singleton l), rfl⟩
  · exact ⟨_, .array (addTo_holds gone locked h l), live_afterAdd gone locked _ _ _ l⟩

theorem Slot.Holds.of_find_some (h : s.Holds ls) (hf : s.find l = some (a, index)) :
    Listeners.Holds a s.size ls ∧ index < s.size
      ∧ ls.eraseIdx index = ls.eraseP (fun l' => l == l') := by
  rcases h with _ | h
  · cases hf
  · simp only [Slot.find, Option.bind_some, Option.map_eq_some_iff, Prod.mk.injEq] at hf
    obtain ⟨index', hf, rfl, rfl⟩ := hf
    exact ⟨h, eraseIdx_of_find h hf⟩

theorem Slot.Holds.of_find_none (h : s.Holds ls) (hf : s.find l = none) :
    ls.eraseP (fun l' => l == l') = ls := by
  rcases h with _ | h
  · rfl
  · rw [Slot.find, Option.bind_some, Option.map_eq_none_iff] at hf
    exact eraseP_of_find_none h hf

theorem Slot.Holds.first (h : s.Holds ls) (hone : s.size = 1) :
    ∃ l, ls = [l] ∧ s.first = .ok l := by
  rcases h with _ | h
  · cases hone
  · obtain ⟨l, hl⟩ := List.length_eq_one_iff.mp (h.size_eq.symm.trans hone)
    refine ⟨l, hl, ?_⟩
    have hpos : 0 < _ := Nat.lt_of_lt_of_eq Nat.one_pos hone.symm
    rw [Slot.first, Option.bind_some, h.getElem? hpos, hl]
    rfl

/-- Replacing one slot replaces the listeners of its kind. -/
theorem update_holds {slots : Kind → Slot L} {lists : Kind → List L}
    (hslots : ∀ k, (slots k).Holds (lists k)) (kind : Kind) (hs : s.Holds ls) (k : Kind) :
    (Function.update slots kind s k).Holds (Function.update lists kind ls k) := by
  by_cases hk : k = kind
  · rw [hk, Function.update_self, Function.update_self]
    exact hs
  · rw [Function.update_of_ne hk, Function.update_of_ne hk]
    exact hslots k

/-- Without the second decrement, the shift erases one listener. -/
theorem shiftOut_holds (h : Listeners.Holds a s.size ls) (hi : index < s.size) (locked : Bool) :
    (Slot.shiftOut false locked a s.size index).Holds (ls.eraseIdx index) := by
  simp only [Slot.shiftOut, Bool.false_eq_true, false_and, if_false]
  exact .array (removeFrom_holds locked h hi (Nat.le_succ index) hi)

end Slots

/-! ## What the methods do to it -/

section Methods

variable {h : Helper L R} {g : Generic L R} {ls : Kind → List L} {value : Option R}
  {kind : Kind} {l : L}

theorem Kind.others_cover (kind k : Kind) : k = kind ∨ k = kind.others.1 ∨ k = kind.others.2 := by
  cases kind <;> cases k <;> decide

theorem Kind.others_ne (kind : Kind) : kind.others.1 ≠ kind ∧ kind.others.2 ≠ kind := by
  cases kind <;> decide

/-- A `Single*` object holds its listener and none of the other kinds. -/
theorem tracks_newSingle (hone : ls kind = [l]) (hrest : ∀ k, k ≠ kind → ls k = []) :
    Tracks (.newSingle value kind l : Helper L R) ls := by
  have hls : ls = Function.update (fun _ => []) kind [l] := by
    funext k
    by_cases hk : k = kind
    · rw [hk, hone, Function.update_self]
    · rw [hrest k hk, Function.update_of_ne hk]
  rw [hls]
  exact .single kind l _

/-- The constructors of `Generic` hold their two arguments. -/
theorem tracks_new (kind0 : Kind) (l0 : L) :
    Tracks (.generic (.new kind0 l0 kind l value) : Helper L R)
      (Function.update (Function.update (fun _ => []) kind0 [l0]) kind
        (Function.update (fun _ => []) kind0 [l0] kind ++ [l])) := by
  have hempty : ∀ k : Kind, (Slot.empty L).Holds [] := fun _ => .null
  refine .generic _ _ rfl ?_
  rw [Generic.new]
  by_cases hkinds : kind0 = kind
  · subst hkinds
    simp only [if_true, Function.update_self, Function.update_idem]
    exact update_holds hempty kind0 (.array (holds_pair l0 l))
  · simp only [hkinds, if_false]
    rw [Function.update_of_ne (Ne.symm hkinds)]
    exact update_holds (update_holds hempty kind0 (.array (holds_singleton l0))) kind
      (.array (holds_singleton l))

/-- **`addListener`** adds its argument behind the listeners of its kind. -/
theorem addListener_tracks (ht : Tracks h ls) (gone : L → Bool) (value : Option R) (kind : Kind)
    (l : L) :
    ∃ ls', Tracks (h.addListener gone value kind l) ls'
      ∧ ∀ k, live gone (ls' k) = live gone (Function.update ls kind (ls kind ++ [l]) k) := by
  rcases ht with _ | ⟨kind0, l0, v⟩ | ⟨g, ls, hfree, hslots⟩
  · refine ⟨Function.update (fun _ => []) kind [l], ?_, fun k => rfl⟩
    apply tracks_newSingle
    · rw [Function.update_self]
    · intro k hk
      rw [Function.update_of_ne hk]
  · exact ⟨_, tracks_new kind0 l0, fun k => rfl⟩
  · obtain ⟨ls', hls', hlive⟩ := (hslots kind).addListener gone g.locked l
    refine ⟨Function.update ls kind ls', .generic _ _ hfree (update_holds hslots kind hls'),
      fun k => ?_⟩
    by_cases hk : k = kind
    · rw [hk, Function.update_self, Function.update_self, hlive]
    · rw [Function.update_of_ne hk, Function.update_of_ne hk]

/-- The removal that takes two from a size: the method does so, and the listener is
found among at least two. -/
def Helper.losesTwo (decrementsTwice : Kind → Bool) (kind : Kind) (l : L) : Helper L R → Bool
  | .generic g =>
    decrementsTwice kind && decide ((g.slots kind).size ≠ 1)
      && ((g.slots kind).find l).isSome
  | _ => false

/-- The removal in a `Generic` helper, from where the listener was found. -/
theorem removeAt_tracks {twice : Kind → Bool} {a : Listeners L} {index : ℕ}
    (hfree : g.locked = false) (hslots : ∀ k, (g.slots k).Holds (ls k))
    (hf : (g.slots kind).find l = some (a, index))
    (hclean : (g.slots kind).size ≠ 1 → twice kind = false) :
    ∃ h', g.removeAt twice value kind a index = .ok h'
      ∧ Tracks h' (Function.update ls kind ((ls kind).eraseP (fun l' => l == l'))) := by
  obtain ⟨hholds, hi, herase⟩ := (hslots kind).of_find_some hf
  obtain ⟨hother, hanother⟩ := kind.others_ne
  rw [Generic.removeAt, ← herase]
  by_cases hone : (g.slots kind).size = 1
  · -- the last one of its kind
    obtain ⟨l0, hl0, -⟩ := (hslots kind).first hone
    have hindex : index = 0 := by omega
    have hnone : (ls kind).eraseIdx index = [] := by rw [hl0, hindex]; rfl
    have hempty : ∀ k, (g.slots k).size = 0 → ls k = [] := fun k hk =>
      List.length_eq_zero_iff.mp ((hslots k).size_eq.symm.trans hk)
    rw [if_pos hone, hnone]
    by_cases hfst : (g.slots kind.others.1).size = 1 ∧ (g.slots kind.others.2).size = 0
    · obtain ⟨l1, hl1, hfirst⟩ := (hslots kind.others.1).first hfst.1
      rw [if_pos hfst, hfirst]
      refine ⟨_, rfl, tracks_newSingle ?_ ?_⟩
      · rw [Function.update_of_ne hother, hl1]
      · intro k hk
        rcases kind.others_cover k with rfl | rfl | rfl
        · rw [Function.update_self]
        · exact absurd rfl hk
        · rw [Function.update_of_ne hanother, hempty _ hfst.2]
    · rw [if_neg hfst]
      by_cases hsnd : (g.slots kind.others.1).size = 0 ∧ (g.slots kind.others.2).size = 1
      · obtain ⟨l1, hl1, hfirst⟩ := (hslots kind.others.2).first hsnd.2
        rw [if_pos hsnd, hfirst]
        refine ⟨_, rfl, tracks_newSingle ?_ ?_⟩
        · rw [Function.update_of_ne hanother, hl1]
        · intro k hk
          rcases kind.others_cover k with rfl | rfl | rfl
          · rw [Function.update_self]
          · rw [Function.update_of_ne hother, hempty _ hsnd.1]
          · exact absurd rfl hk
      · rw [if_neg hsnd]
        exact ⟨_, rfl, .generic _ _ hfree (update_holds hslots kind .null)⟩
  · -- the entries behind it move down
    rw [if_neg hone, hclean hone]
    exact ⟨_, rfl, .generic _ _ hfree (update_holds hslots kind (shiftOut_holds hholds hi _))⟩

/-- **`removeListener`** erases the first listener of its kind that its argument
equals, unless it takes two from the size. -/
theorem removeListener_tracks (ht : Tracks h ls) (twice : Kind → Bool) (value : Option R)
    (hclean : h.losesTwo twice kind l = false) :
    ∃ h', h.removeListener twice value kind l = .ok h'
      ∧ Tracks h' (Function.update ls kind ((ls kind).eraseP (fun l' => l == l'))) := by
  rcases ht with _ | ⟨kind0, l0, v⟩ | ⟨g, ls, hfree, hslots⟩
  · refine ⟨_, rfl, ?_⟩
    rw [List.eraseP_nil, Function.update_eq_self_iff.mpr rfl]
    exact .null
  · rw [Helper.removeListener]
    by_cases hk : kind0 = kind
    · subst hk
      rw [Function.update_self, Function.update_idem, List.eraseP_cons, List.eraseP_nil]
      by_cases hl : l == l0
      · rw [if_pos ⟨rfl, hl⟩, hl]
        refine ⟨_, rfl, ?_⟩
        rw [cond_true, Function.update_eq_self_iff.mpr rfl]
        exact .null
      · rw [if_neg (fun hc => hl hc.2), eq_false_of_ne_true hl]
        exact ⟨_, rfl, .single kind0 l0 v⟩
    · rw [if_neg (fun hc => hk hc.1), Function.update_of_ne (Ne.symm hk), List.eraseP_nil]
      refine ⟨_, rfl, ?_⟩
      rw [Function.update_eq_self_iff.mpr (Function.update_of_ne (Ne.symm hk) ..).symm]
      exact .single kind0 l0 v
  · rw [Helper.removeListener]
    cases hf : (g.slots kind).find l with
    | none =>
      refine ⟨_, rfl, ?_⟩
      rw [(hslots kind).of_find_none hf, Function.update_eq_self]
      exact .generic g ls hfree hslots
    | some found =>
      refine removeAt_tracks hfree hslots hf (fun hsize => ?_)
      simpa [Helper.losesTwo, hf, hsize] using hclean

end Methods

/-! ## What the notifications call -/

/-- The calls of a notification of the listeners `ls`: every invalidation listener,
and if there is a change, every change listener and for each element of the change
every content listener. -/
def notification (ls : Kind → List L) (changed : Prop) [Decidable changed]
    (oldValue newValue : Option R) (ds : List D) : List (Call L R D) :=
  (ls .invalidation).map .invalidated
    ++ if changed then changeCalls (ls .change) (ls .content) oldValue newValue ds else []

/-- The value the helper compares the new one with. -/
def Helper.currentValue : Helper L R → Option R
  | .null => none
  | .single _ _ v => v
  | .generic g => g.currentValue

section Notifications

variable {h : Helper L R} {g : Generic L R} {ls : Kind → List L}
  {elements : Option R → Option R → Except Exn (List D)}

/-- The notification of a `Generic` helper that finds the changes to tell. -/
theorem notifyListeners_eq (hslots : ∀ k, (g.slots k).Holds (ls k)) {oldValue : Option R}
    {change : Option D} {ds : List D}
    (hchanges : g.currentValue ≠ oldValue ∨ change.isSome →
      g.changes elements oldValue change = .ok ds) :
    g.notifyListeners elements oldValue change
      = .ok (notification ls (g.currentValue ≠ oldValue ∨ change.isSome) oldValue g.currentValue
          ds) := by
  unfold Generic.notifyListeners
  rw [(hslots .invalidation).called, (hslots .change).called, (hslots .content).called]
  simp only [ok_bind]
  rw [notification]
  by_cases hchanged : g.currentValue ≠ oldValue ∨ change.isSome
  · rw [if_pos hchanged, if_pos hchanged, hchanges hchanged]
    rfl
  · rw [if_neg hchanged, if_neg hchanged, List.append_nil]

/-- A change no listener hears of makes no call. -/
theorem notification_unheard {changed : Prop} [Decidable changed] (hchange : ls .change = [])
    (hcontent : ls .content = []) (v w : Option R) (ds : List D) :
    notification ls changed v w ds = (ls .invalidation).map .invalidated := by
  have hnone : changeCalls (ls .change) (ls .content) v w ds = [] := by
    rw [changeCalls, hchange, hcontent, List.map_nil, List.nil_append]
    exact List.flatMap_eq_nil_iff.mpr (fun d _ => rfl)
  rw [notification, hnone, ite_self, List.append_nil]

theorem Slot.Holds.eq_nil_iff {s : Slot L} {ls : List L} (hs : s.Holds ls) :
    s.size = 0 ↔ ls = [] := by
  rw [hs.size_eq, List.length_eq_zero_iff]

/-- The notification that throws on its way: the value is another one, there is a
content listener to tell, and the elements are not found. -/
def Helper.throws (elements : Option R → Option R → Except Exn (List D)) (value : Option R) :
    Helper L R → Bool
  | .single .content _ v => decide (value ≠ v) && !(elements v value).isOk
  | .generic g =>
    decide ((g.slots .content).size ≠ 0) && decide (value ≠ g.currentValue)
      && !(elements g.currentValue value).isOk
  | _ => false

/-- The changes `elements` finds. -/
def found (r : Except Exn (List D)) : List D :=
  match r with
  | .ok ds => ds
  | .error _ => []

theorem found_of_isOk {r : Except Exn (List D)} (h : r.isOk = true) : r = .ok (found r) := by
  cases r with
  | ok ds => rfl
  | error e => cases h

/-- **`fireValueChangedEvent()`** calls what the helper holds, unless it throws. -/
theorem fireValueChangedEvent_tracks (ht : Tracks h ls)
    (elements : Option R → Option R → Except Exn (List D)) (value : Option R)
    (hclean : h.throws elements value = false) :
    ∃ h', h.fireValueChangedEvent elements value
        = .ok (h', notification ls (value ≠ h.currentValue) h.currentValue value
            (found (elements h.currentValue value)))
      ∧ Tracks h' ls := by
  rcases ht with _ | ⟨kind, l, v⟩ | ⟨g, ls, hfree, hslots⟩
  · refine ⟨.null, ?_, .null⟩
    rw [notification_unheard rfl rfl]
    rfl
  · cases kind with
    | invalidation =>
      refine ⟨_, ?_, .single .invalidation l v⟩
      rw [notification_unheard rfl rfl]
      rfl
    | change =>
      refine ⟨_, ?_, .single .change l value⟩
      have hnone : (found (elements v value)).flatMap (fun _ => ([] : List (Call L R D))) = [] :=
        List.flatMap_eq_nil_iff.mpr (fun d _ => rfl)
      simp [Helper.fireValueChangedEvent, Helper.currentValue, notification, changeCalls, hnone]
    | content =>
      refine ⟨_, ?_, .single .content l value⟩
      rw [Helper.fireValueChangedEvent, Helper.currentValue, notification]
      by_cases hchanged : value ≠ v
      · have hok : (elements v value).isOk = true := by
          simpa [Helper.throws, hchanged] using hclean
        rw [if_pos hchanged, if_pos hchanged, found_of_isOk hok]
        simp [changeCalls, found, List.map_eq_flatMap]
      · rw [if_neg hchanged, if_neg hchanged]
        rfl
  · rw [Helper.fireValueChangedEvent, Helper.currentValue]
    by_cases hnone : (g.slots .change).size = 0 ∧ (g.slots .content).size = 0
    · -- the current value is not updated, and nobody is to hear of it
      have hchange := (hslots .change).eq_nil_iff.mp hnone.1
      have hcontent := (hslots .content).eq_nil_iff.mp hnone.2
      have hds : g.changes elements g.currentValue none = .ok [] := if_pos hnone.2
      rw [if_pos hnone, notifyListeners_eq hslots (fun _ => hds),
        notification_unheard hchange hcontent, notification_unheard hchange hcontent]
      exact ⟨_, rfl, .generic g ls hfree hslots⟩
    · have hslots' : ∀ k, (({ g with currentValue := value } : Generic L R).slots k).Holds (ls k) :=
        hslots
      rw [if_neg hnone]
      dsimp only
      by_cases hcontent : (g.slots .content).size = 0
      · -- only the change listeners hear of it, and the elements are not asked for
        have hds : ({ g with currentValue := value } : Generic L R).changes elements
            g.currentValue none = .ok [] := if_pos hcontent
        rw [notifyListeners_eq hslots' (fun _ => hds)]
        refine ⟨_, ?_, .generic { g with currentValue := value } ls hfree hslots'⟩
        simp only [Option.isSome_none, Bool.false_eq_true, or_false, notification, changeCalls,
          (hslots .content).eq_nil_iff.mp hcontent, List.map_nil]
        rw [List.flatMap_eq_nil_iff.mpr (fun d _ => rfl),
          List.flatMap_eq_nil_iff.mpr (fun d _ => rfl)]
        rfl
      · have hds : value ≠ g.currentValue ∨ (none : Option D).isSome →
            ({ g with currentValue := value } : Generic L R).changes elements g.currentValue none
              = .ok (found (elements g.currentValue value)) := by
          intro hchanged
          have hne : value ≠ g.currentValue := hchanged.resolve_right Bool.false_ne_true
          have hok : (elements g.currentValue value).isOk = true := by
            simpa [Helper.throws, hcontent, hne] using hclean
          rw [Generic.changes, if_neg hcontent]
          exact found_of_isOk hok
        rw [notifyListeners_eq hslots' hds]
        refine ⟨_, ?_, .generic { g with currentValue := value } ls hfree hslots'⟩
        simp only [Option.isSome_none, Bool.false_eq_true, or_false]
        rfl

/-- The notification of a given change that skips the change listeners: a `Generic`
helper has some, and no content listener. -/
def Helper.dropsChange : Helper L R → Bool
  | .generic g => decide ((g.slots .change).size ≠ 0) && decide ((g.slots .content).size = 0)
  | _ => false

/-- **`fireValueChangedEvent(change)`** calls what the helper holds, once each,
unless it drops the change. -/
theorem fireChange_tracks (ht : Tracks h ls)
    (elements : Option R → Option R → Except Exn (List D)) (change : D) (hclean : h.dropsChange = false) :
    h.fireChange elements change
      = .ok (notification ls True h.currentValue h.currentValue [change]) := by
  rcases ht with _ | ⟨kind, l, v⟩ | ⟨g, ls, hfree, hslots⟩
  · rfl
  · cases kind <;> rfl
  · rw [Helper.fireChange, Helper.currentValue]
    by_cases hcontent : (g.slots .content).size = 0
    · have hchange : (g.slots .change).size = 0 := by
        simpa [Helper.dropsChange, hcontent] using hclean
      have hchange := (hslots .change).eq_nil_iff.mp hchange
      have hcontent' := (hslots .content).eq_nil_iff.mp hcontent
      have hds : g.changes elements g.currentValue none = .ok [] := if_pos hcontent
      rw [if_pos hcontent, notifyListeners_eq hslots (fun _ => hds),
        notification_unheard hchange hcontent', notification_unheard hchange hcontent']
    · rw [if_neg hcontent, notifyListeners_eq hslots (fun _ => rfl)]
      simp only [Option.isSome_some, or_true]

/-- Leaving collected listeners out of the calls is leaving them out of the lists. -/
theorem live_notification (gone : L → Bool) (ls : Kind → List L) (changed : Prop)
    [Decidable changed] (v w : Option R) (ds : List D) :
    (notification ls changed v w ds).filter (fun c => !gone c.listener)
      = notification (fun k => live gone (ls k)) changed v w ds := by
  have hmap : ∀ (f : L → Call L R D) (xs : List L), (∀ l, (f l).listener = l) →
      (xs.map f).filter (fun c => !gone c.listener) = (live gone xs).map f := by
    intro f xs hf
    rw [live, List.filter_map]
    congr 2
    funext l
    simp only [Function.comp, hf]
  rw [notification, notification, List.filter_append, hmap _ _ (fun _ => rfl)]
  by_cases hchanged : changed
  · rw [if_pos hchanged, if_pos hchanged, changeCalls, changeCalls, List.filter_append,
      hmap _ _ (fun _ => rfl), List.filter_flatMap]
    congr 3
    funext d
    exact hmap _ _ (fun _ => rfl)
  · rw [if_neg hchanged, if_neg hchanged, List.filter_nil]

end Notifications

/-! ## Runs -/

/-- An observable with its helper. `registered` are the listeners that were added
and not removed since, in the order of addition; the code does not have it. -/
structure Observable (L R : Type) where
  helper : Helper L R
  value : Option R
  collected : List L
  registered : Kind → List L

/-- What can happen to it. `C` are the contents of a map or set, which a notification
looks at; they can change at any time. -/
inductive Op (L R C D : Type)
  | addListener (kind : Kind) (listener : L)
  | removeListener (kind : Kind) (listener : L)
  | collect (listener : L)
  | setValue (value : Option R)
  | fireValueChangedEvent (contents : R → C)
  | fireChange (contents : R → C) (change : D)

namespace Observable

/-- `wasGarbageCollected`. -/
def gone (s : Observable L R) : L → Bool := isGone s.collected

/-- One operation, with the calls it makes. -/
def perform (v : Variant R C D) (s : Observable L R) :
    Op L R C D → Except Exn (Observable L R × List (Call L R D))
  | .addListener kind l =>
    .ok ({ s with
      helper := s.helper.addListener s.gone s.value kind l
      registered := Function.update s.registered kind (s.registered kind ++ [l]) }, [])
  | .removeListener kind l => do
      let helper ← s.helper.removeListener v.decrementsTwice s.value kind l
      .ok ({ s with
        helper := helper
        registered :=
          Function.update s.registered kind ((s.registered kind).eraseP (fun l' => l == l')) }, [])
  | .collect l => .ok ({ s with collected := l :: s.collected }, [])
  | .setValue value => .ok ({ s with value := value }, [])
  | .fireValueChangedEvent contents => do
      let (helper, calls) ← s.helper.fireValueChangedEvent (v.elements contents) s.value
      .ok ({ s with helper := helper }, calls)
  | .fireChange contents change => do
      .ok (s, ← s.helper.fireChange (v.elements contents) change)

def step (v : Variant R C D) (s : Observable L R) (op : Op L R C D) :
    Except Exn (Observable L R) := do
  .ok (← s.perform v op).1

/-- The calls an operation owes: those of the registered listeners, each kind in
the order of addition. -/
def expected (v : Variant R C D) (s : Observable L R) : Op L R C D → List (Call L R D)
  | .fireValueChangedEvent contents =>
    let oldValue := s.helper.currentValue
    notification s.registered (s.value ≠ oldValue) oldValue s.value
      (found (v.elements contents oldValue s.value))
  | .fireChange _ change =>
    notification s.registered True s.helper.currentValue s.helper.currentValue [change]
  | _ => []

/-- The operation does not throw, and it makes the calls it owes; calls of listeners
that were collected do not count. -/
def Faithful (v : Variant R C D) (s : Observable L R) (op : Op L R C D) : Prop :=
  ∃ s' calls, s.perform v op = .ok (s', calls)
    ∧ calls.filter (fun c => !s.gone c.listener)
      = (s.expected v op).filter (fun c => !s.gone c.listener)

/-- The operations the code gets right. -/
def clean (v : Variant R C D) (s : Observable L R) : Op L R C D → Bool
  | .removeListener kind l => !s.helper.losesTwo v.decrementsTwice kind l
  | .fireValueChangedEvent contents => !s.helper.throws (v.elements contents) s.value
  | .fireChange _ _ => !s.helper.dropsChange
  | _ => true

/-- What the helper holds are the registered listeners, up to collected ones. -/
def Inv (s : Observable L R) : Prop :=
  ∃ ls, Tracks s.helper ls ∧ ∀ kind, live s.gone (ls kind) = live s.gone (s.registered kind)

section Inv

variable {s : Observable L R} {ls : Kind → List L}

/-- An observable with nothing registered. -/
def start (value : Option R) : Observable L R := ⟨.null, value, [], fun _ => []⟩

theorem start_inv (value : Option R) : (start value : Observable L R).Inv :=
  ⟨_, .null, fun _ => rfl⟩

variable [EquivBEq L]

theorem step_of_perform {v : Variant R C D} {op : Op L R C D} {s' : Observable L R}
    {calls : List (Call L R D)} (h : s.perform v op = .ok (s', calls)) :
    s.step v op = .ok s' := by
  rw [step, h]
  rfl

/-- **One step.** A clean operation makes the calls it owes, and leaves the helper
with the listeners that are registered then. -/
theorem perform_faithful (v : Variant R C D) (hinv : s.Inv) {op : Op L R C D}
    (hclean : s.clean v op = true) :
    s.Faithful v op ∧ ∃ s', s.step v op = .ok s' ∧ s'.Inv := by
  obtain ⟨ls, htracks, hlive⟩ := hinv
  have hlists : (fun k => live s.gone (ls k)) = fun k => live s.gone (s.registered k) :=
    funext hlive
  cases op with
  | addListener kind l =>
    obtain ⟨ls', htracks', hls'⟩ := addListener_tracks htracks s.gone s.value kind l
    refine ⟨⟨_, _, rfl, rfl⟩, _, rfl, ls', htracks', fun k => (hls' k).trans ?_⟩
    apply live_update hlive
    rw [live_append, live_append, hlive kind]
  | removeListener kind l =>
    obtain ⟨helper, hremove, htracks'⟩ := removeListener_tracks htracks v.decrementsTwice
      s.value (by simpa [clean] using hclean)
    have hperform : s.perform v (.removeListener kind l)
        = .ok ({ s with
            helper := helper
            registered := Function.update s.registered kind
              ((s.registered kind).eraseP (fun l' => l == l')) }, []) := by
      rw [perform, hremove, ok_bind]
    refine ⟨⟨_, _, hperform, rfl⟩, _, step_of_perform hperform, _, htracks', ?_⟩
    apply live_update hlive
    exact (live_eraseP s.collected l _).trans
      ((congrArg _ (hlive kind)).trans (live_eraseP s.collected l _).symm)
  | collect l =>
    exact ⟨⟨_, _, rfl, rfl⟩, _, rfl, ls, htracks, fun k => live_collect s.collected l (hlive k)⟩
  | setValue value => exact ⟨⟨_, _, rfl, rfl⟩, _, rfl, ls, htracks, hlive⟩
  | fireValueChangedEvent contents =>
    obtain ⟨helper, hfire, htracks'⟩ := fireValueChangedEvent_tracks htracks
      (v.elements contents) s.value (by simpa [clean] using hclean)
    have hperform : s.perform v (.fireValueChangedEvent contents)
        = .ok ({ s with helper := helper },
            notification ls (s.value ≠ s.helper.currentValue) s.helper.currentValue s.value
              (found (v.elements contents s.helper.currentValue s.value))) := by
      rw [perform, hfire, ok_bind]
    refine ⟨⟨_, _, hperform, ?_⟩, _, step_of_perform hperform, ls, htracks', hlive⟩
    rw [expected, live_notification, live_notification, hlists]
  | fireChange contents change =>
    have hfire := fireChange_tracks htracks (v.elements contents) change
      (by simpa [clean] using hclean)
    have hperform : s.perform v (.fireChange contents change)
        = .ok (s, notification ls True s.helper.currentValue s.helper.currentValue [change]) := by
      rw [perform, hfire, ok_bind]
    refine ⟨⟨_, _, hperform, ?_⟩, _, step_of_perform hperform, ls, htracks, hlive⟩
    rw [expected, live_notification, live_notification, hlists]

/-- Every operation of the run is faithful, and the run does not throw. -/
def FaithfulRun (v : Variant R C D) (value : Option R) (ops : List (Op L R C D)) : Prop :=
  Along (step v) (fun s op => s.Faithful v op) (start value) ops
    ∧ ∃ s, run (step v) (start value) ops = .ok s ∧ s.Inv

/-- Runs of clean operations are faithful, whatever the variant. -/
theorem run_faithful (v : Variant R C D) (value : Option R) (ops : List (Op L R C D))
    (hclean : Along (step v) (fun s op => s.clean v op = true) (start value) ops) :
    FaithfulRun v value ops := by
  refine ⟨along_of_invariant Inv ?_ ?_ (start_inv value) hclean,
    run_invariant Inv ?_ (start_inv value) hclean⟩
  · intro s op s' hinv hop hs
    obtain ⟨-, t, ht, htinv⟩ := perform_faithful v hinv hop
    rw [hs, Except.ok.injEq] at ht
    exact ht ▸ htinv
  · intro s op hinv hop
    exact (perform_faithful v hinv hop).1
  · intro s op hinv hop
    exact (perform_faithful v hinv hop).2

end Inv

end Observable

end JavaFx.Binding.CollectionExpressionHelper
