/-
`com.sun.javafx.collections.SetListenerHelper`.

A helper keeps the invalidation and the set change listeners of one set. It is
`null` while there are none, a `SingleInvalidation` or `SingleChange` object while
there is one, and a `Generic` object with two listener arrays after that. A method
answers with the helper to use from then on. `addListener` and `removeListener` of a
`Generic` object edit its arrays in place and answer `this`, as long as more than
one listener is left; the `Single*` classes have a final field, and a removal that
leaves one listener answers with a new object and leaves the old one as it was. So
the model keeps both: what the receiver is after the call, and the answer.

The listener arrays and their edits are those of `Binding/ListenerArray`, and a
slot is an array (or `null`) with its size.
-/
import Mathlib
import JavaFx.Binding.CollectionExpressionHelperRun

set_option autoImplicit false
set_option linter.unusedSectionVars false

namespace JavaFx.Collections.SetListenerHelper

open JavaFx.Lib JavaFx.Binding JavaFx.Binding.Listeners
open JavaFx.Binding.CollectionExpressionHelper (Slot)

/-! ## The classes -/

/-- The two kinds of listeners. -/
inductive Kind
  | invalidation
  | change
  deriving DecidableEq, Repr

def Kind.other : Kind → Kind
  | .invalidation => .change
  | .change => .invalidation

/-- `Generic`. -/
structure Generic (L : Type) where
  slots : Kind → Slot L
  locked : Bool

/-- A helper that is not `null`. -/
inductive Helper (L : Type)
  | single (kind : Kind) (listener : L)
  | generic (g : Generic L)

/-- A call of a listener; a change is a `D`. -/
inductive Call (L D : Type)
  | invalidated (listener : L)
  | onChanged (listener : L) (change : D)
  deriving DecidableEq

def Call.listener {L D : Type} : Call L D → L
  | .invalidated l => l
  | .onChanged l _ => l

variable {L D : Type} [BEq L]

/-! ## `addListener` -/

/-- The constructors of `Generic`. -/
def Generic.new (kind0 : Kind) (listener0 : L) (kind1 : Kind) (listener1 : L) : Generic L where
  slots :=
    if kind0 = kind1 then
      Function.update (fun _ => Slot.empty L) kind0 ⟨some [some listener0, some listener1], 2⟩
    else
      Function.update (Function.update (fun _ => Slot.empty L) kind0 ⟨some [some listener0], 1⟩)
        kind1 ⟨some [some listener1], 1⟩
  locked := false

/-- `Generic.addListener`. -/
def Generic.addListener (wasGarbageCollected : L → Bool) (kind : Kind) (listener : L)
    (g : Generic L) : Generic L :=
  { g with
    slots := Function.update g.slots kind
      ((g.slots kind).addListener wasGarbageCollected g.locked listener) }

/-- `addListener(helper, listener)`. -/
def addListener (wasGarbageCollected : L → Bool) (kind : Kind) (listener : L) :
    Option (Helper L) → Helper L
  | none => .single kind listener
  | some (.single kind0 listener0) => .generic (.new kind0 listener0 kind listener)
  | some (.generic g) => .generic (g.addListener wasGarbageCollected kind listener)

/-! ## `removeListener` -/

/-- What a removal leaves: the receiver, and the helper it answers with. -/
structure Removal (L : Type) where
  receiver : Option (Helper L)
  result : Option (Helper L)

/-- The answer is the receiver. -/
def Removal.this (helper : Option (Helper L)) : Removal L := ⟨helper, helper⟩

/-- An array entry, for a new `Single*` object. A `null` entry would be called, and
throw, at the next notification. -/
def entry (s : Slot L) (index : ℕ) : Except Exn L :=
  match s.array.bind (fun a => a[index]?) with
  | some (some l) => .ok l
  | _ => .error .nullPointer

/-- `Generic.removeListener`, from where the listener was found. -/
def Generic.removeAt (kind : Kind) (a : Listeners L) (index : ℕ) (g : Generic L) :
    Except Exn (Removal L) :=
  let size := (g.slots kind).size
  let otherSize := (g.slots kind.other).size
  if size = 1 then
    if otherSize = 1 then do
      .ok ⟨some (.generic g), some (.single kind.other (← entry (g.slots kind.other) 0))⟩
    else
      .ok (.this (some (.generic { g with
        slots := Function.update g.slots kind (Slot.empty L) })))
  else if size = 2 ∧ otherSize = 0 then do
    .ok ⟨some (.generic g), some (.single kind (← entry (g.slots kind) (1 - index)))⟩
  else
    .ok (.this (some (.generic { g with
      slots := Function.update g.slots kind
        ⟨some (removeFrom index g.locked a size index), size - 1⟩ })))

/-- `removeListener(helper, listener)`. -/
def removeListener (kind : Kind) (listener : L) : Option (Helper L) → Except Exn (Removal L)
  | none => .ok (.this none)
  | some (.single kind0 listener0) =>
    if kind0 = kind ∧ listener == listener0 then
      .ok ⟨some (.single kind0 listener0), none⟩
    else .ok (.this (some (.single kind0 listener0)))
  | some (.generic g) =>
    match (g.slots kind).find listener with
    | some (a, index) => g.removeAt kind a index
    | none => .ok (.this (some (.generic g)))

/-! ## `fireValueChangedEvent` -/

/-- The listeners a loop over the first `size` entries calls. Every call stands in a
`try`, and so a `null` on the way makes no call and ends nothing. -/
def called (s : Slot L) : List L := ((s.array.getD []).take s.size).reduceOption

/-- `fireValueChangedEvent(helper, change)`. The helper is locked meanwhile, and as it
was before afterwards. -/
def fireValueChangedEvent (change : D) : Option (Helper L) → List (Call L D)
  | none => []
  | some (.single .invalidation l) => [.invalidated l]
  | some (.single .change l) => [.onChanged l change]
  | some (.generic g) =>
    (called (g.slots .invalidation)).map .invalidated
      ++ (called (g.slots .change)).map (fun l => .onChanged l change)

/-! ## What a helper holds -/

/-- The helper holds the listeners `ls kind` of each kind. -/
inductive Tracks : Option (Helper L) → (Kind → List L) → Prop
  | null : Tracks none (fun _ => [])
  | single (kind : Kind) (l : L) :
      Tracks (some (.single kind l)) (Function.update (fun _ => []) kind [l])
  | generic (g : Generic L) (ls : Kind → List L) (hfree : g.locked = false)
      (hslots : ∀ kind, (g.slots kind).Holds (ls kind)) : Tracks (some (.generic g)) ls

variable {h : Option (Helper L)} {g : Generic L} {ls : Kind → List L} {kind : Kind} {l : L}

section Slots

variable {s : Slot L} {xs : List L}

/-- Replacing one slot replaces the listeners of its kind. -/
theorem update_holds {slots : Kind → Slot L} (hslots : ∀ k, (slots k).Holds (ls k)) (kind : Kind)
    (hs : s.Holds xs) (k : Kind) :
    (Function.update slots kind s k).Holds (Function.update ls kind xs k) := by
  by_cases hk : k = kind
  · rw [hk, Function.update_self, Function.update_self]
    exact hs
  · rw [Function.update_of_ne hk, Function.update_of_ne hk]
    exact hslots k

theorem entry_eq (hs : s.Holds xs) {index : ℕ} (hi : index < xs.length) :
    entry s index = .ok xs[index] := by
  rcases hs with _ | hs
  · cases hi
  · have hget := hs.getElem? (hs.size_eq ▸ hi)
    rw [entry, Option.bind_some, hget, List.getElem?_eq_getElem hi]

theorem called_eq (hs : s.Holds xs) : called s = xs := by
  rcases hs with _ | hs
  · rfl
  · rw [called, Option.getD_some, hs.entries, List.reduceOption, List.filterMap_map]
    exact List.filterMap_some

end Slots

/-- Listeners of one kind only. -/
theorem eq_update_of_other {xs : List L} (hkind : ls kind = xs) (hother : ls kind.other = []) :
    ls = Function.update (fun _ => []) kind xs := by
  funext k
  cases kind <;> cases k <;> simp_all [Kind.other]

/-- The constructors of `Generic` hold their two arguments. -/
theorem tracks_new (kind0 : Kind) (l0 : L) (kind : Kind) (l : L) :
    Tracks (some (.generic (.new kind0 l0 kind l)))
      (Function.update (Function.update (fun _ => []) kind0 [l0]) kind
        (Function.update (fun _ => []) kind0 [l0] kind ++ [l])) := by
  have hempty : ∀ k : Kind, (Slot.empty L).Holds ((fun _ => []) k) := fun _ => .null
  refine .generic _ _ rfl ?_
  rw [Generic.new]
  by_cases hkinds : kind0 = kind
  · subst hkinds
    simp only [if_true, Function.update_self, Function.update_idem]
    exact update_holds hempty kind0 (.array (holds_pair l0 l))
  · simp only [hkinds, if_false]
    rw [Function.update_of_ne (Ne.symm hkinds)]
    exact update_holds (update_holds hempty kind0 (.array (holds_singleton l0))) kind
      (.array (holds_singleton l))

/-- **`addListener`** answers with a helper that has its argument behind the listeners
of its kind; it may drop collected ones. -/
theorem addListener_tracks (ht : Tracks h ls) (gone : L → Bool) (kind : Kind) (l : L) :
    ∃ ls', Tracks (some (addListener gone kind l h)) ls'
      ∧ ∀ k, live gone (ls' k) = live gone (Function.update ls kind (ls kind ++ [l]) k) := by
  rcases ht with _ | ⟨kind0, l0⟩ | ⟨g, ls, hfree, hslots⟩
  · exact ⟨_, .single kind l, fun k => rfl⟩
  · exact ⟨_, tracks_new kind0 l0 kind l, fun k => rfl⟩
  · obtain ⟨ls', hls', hlive⟩ := (hslots kind).addListener gone g.locked l
    refine ⟨Function.update ls kind ls', .generic _ _ hfree (update_holds hslots kind hls'),
      fun k => ?_⟩
    by_cases hk : k = kind
    · rw [hk, Function.update_self, Function.update_self, hlive]
    · rw [Function.update_of_ne hk, Function.update_of_ne hk]

/-- The removals that leave the receiver as it was and answer with another helper: the
listener is found, and it is the only one or one of two. -/
def replaces (kind : Kind) (l : L) : Option (Helper L) → Bool
  | none => false
  | some (.single kind0 l0) => decide (kind0 = kind) && l == l0
  | some (.generic g) =>
    ((g.slots kind).find l).isSome
      && decide ((g.slots kind).size + (g.slots kind.other).size = 2)

/-- What is left after a removal. -/
def erased (ls : Kind → List L) (kind : Kind) (l : L) : Kind → List L :=
  Function.update ls kind ((ls kind).eraseP (fun l' => l == l'))

/-- A removal whose listener is found at `index`, from what a slot holds. -/
theorem removeAt_tracks {a : Listeners L} {index : ℕ} (hfree : g.locked = false)
    (hslots : ∀ k, (g.slots k).Holds (ls k)) (hf : (g.slots kind).find l = some (a, index)) :
    ∃ r, g.removeAt kind a index = .ok r ∧ Tracks r.result (erased ls kind l)
      ∧ r.receiver = if (g.slots kind).size + (g.slots kind.other).size = 2
          then some (.generic g) else r.result := by
  obtain ⟨hholds, hi, herase⟩ := (hslots kind).of_find_some hf
  have hsize := (hslots kind).size_eq
  have hotherSize := (hslots kind.other).size_eq
  rw [Generic.removeAt, erased, ← herase]
  by_cases hone : (g.slots kind).size = 1
  · -- the last one of its kind
    have hnone : (ls kind).eraseIdx index = [] := by
      rw [← List.length_eq_zero_iff, List.length_eraseIdx_of_lt (by omega)]
      omega
    rw [if_pos hone, hnone, hone]
    by_cases hother : (g.slots kind.other).size = 1
    · have hlt : 0 < (ls kind.other).length := by omega
      have hsingle : ls kind.other = [(ls kind.other)[0]] :=
        List.ext_getElem (by simp; omega) (fun i h₁ h₂ => by simp at h₂; simp [h₂])
      have hlists : Function.update ls kind []
          = Function.update (fun _ => []) kind.other [(ls kind.other)[0]] := by
        refine eq_update_of_other ?_ ?_
        · rw [Function.update_of_ne (by cases kind <;> decide)]
          exact hsingle
        · cases kind <;> exact Function.update_self ..
      rw [if_pos hother, entry_eq (hslots kind.other) hlt, hother, hlists]
      exact ⟨_, rfl, .single _ _, rfl⟩
    · rw [if_neg hother]
      exact ⟨_, rfl, .generic _ _ hfree (update_holds hslots kind .null),
        (if_neg (by omega)).symm⟩
  · rw [if_neg hone]
    by_cases htwo : (g.slots kind).size = 2 ∧ (g.slots kind.other).size = 0
    · -- one of two, and none of the other kind
      have hlt : 1 - index < (ls kind).length := by omega
      have hrest : (ls kind).eraseIdx index = [(ls kind)[1 - index]] := by
        obtain ⟨x, y, hxy⟩ := List.length_eq_two.mp (hsize.symm.trans htwo.1)
        have hindex : index = 0 ∨ index = 1 := by omega
        simp only [hxy]
        rcases hindex with rfl | rfl <;> rfl
      have hlists : Function.update ls kind ((ls kind).eraseIdx index)
          = Function.update (fun _ => []) kind [(ls kind)[1 - index]] := by
        refine eq_update_of_other ?_ ?_
        · rw [Function.update_self, hrest]
        · rw [Function.update_of_ne (by cases kind <;> decide)]
          exact List.length_eq_zero_iff.mp (hotherSize.symm.trans htwo.2)
      rw [if_pos htwo, entry_eq (hslots kind) hlt, hlists]
      exact ⟨_, rfl, .single _ _, (if_pos (by omega)).symm⟩
    · -- the entries behind it move down
      rw [if_neg htwo]
      refine ⟨_, rfl, .generic _ _ hfree (update_holds hslots kind ?_),
        (if_neg (by omega)).symm⟩
      exact .array (removeFrom_holds _ hholds hi (Nat.le_refl _) (Nat.le_of_lt hi))

/-- **`removeListener`** answers with a helper that has lost the first listener of its
kind that equals the argument. The receiver is that helper too, unless the removal
replaces it: then it holds what it held. -/
theorem removeListener_tracks (ht : Tracks h ls) (kind : Kind) (l : L) :
    ∃ r, removeListener kind l h = .ok r ∧ Tracks r.result (erased ls kind l)
      ∧ r.receiver = if replaces kind l h then h else r.result := by
  rcases ht with _ | ⟨kind0, l0⟩ | ⟨g, ls, hfree, hslots⟩
  · refine ⟨_, rfl, ?_, rfl⟩
    rw [erased, List.eraseP_nil, Function.update_eq_self_iff.mpr rfl]
    exact .null
  · rw [removeListener, replaces, erased]
    by_cases hk : kind0 = kind
    · subst hk
      rw [Function.update_self, Function.update_idem, List.eraseP_cons, List.eraseP_nil]
      by_cases hl : l == l0
      · rw [if_pos ⟨rfl, hl⟩, hl]
        refine ⟨_, rfl, ?_, by simp⟩
        rw [cond_true, Function.update_eq_self_iff.mpr rfl]
        exact .null
      · rw [if_neg (fun hc => hl hc.2), eq_false_of_ne_true hl]
        exact ⟨_, rfl, .single kind0 l0, by simp [Removal.this]⟩
    · rw [if_neg (fun hc => hk hc.1), Function.update_of_ne (Ne.symm hk), List.eraseP_nil]
      refine ⟨_, rfl, ?_, by simp [Removal.this]⟩
      rw [Function.update_eq_self_iff.mpr (Function.update_of_ne (Ne.symm hk) ..).symm]
      exact .single kind0 l0
  · rw [removeListener, replaces]
    cases hf : (g.slots kind).find l with
    | none =>
      refine ⟨_, rfl, ?_, by simp [Removal.this]⟩
      rw [erased, (hslots kind).of_find_none hf, Function.update_eq_self]
      exact .generic g ls hfree hslots
    | some found =>
      obtain ⟨r, hr, htracks, hreceiver⟩ := removeAt_tracks hfree hslots hf
      refine ⟨r, hr, htracks, ?_⟩
      rw [hreceiver]
      simp

/-- What is replaced has the listener. -/
theorem exists_of_replaces (ht : Tracks h ls) (hr : replaces kind l h = true) :
    ∃ l' ∈ ls kind, (l == l') = true := by
  rcases ht with _ | ⟨kind0, l0⟩ | ⟨g, ls, hfree, hslots⟩
  · cases hr
  · rw [replaces, Bool.and_eq_true, decide_eq_true_iff] at hr
    refine ⟨l0, ?_, hr.2⟩
    rw [hr.1, Function.update_self]
    exact List.mem_singleton_self l0
  · rw [replaces, Bool.and_eq_true, Option.isSome_iff_exists] at hr
    obtain ⟨⟨a, index⟩, hf⟩ := hr.1
    obtain ⟨-, hi, herase⟩ := (hslots kind).of_find_some hf
    have hsize := (hslots kind).size_eq
    by_contra hnone
    push Not at hnone
    -- then the removal would have taken nothing from the list
    rw [List.eraseP_of_forall_not hnone] at herase
    have hlength := List.length_eraseIdx_of_lt (l := ls kind) (i := index) (by omega)
    rw [herase] at hlength
    omega

/-! ## What a notification calls -/

/-- The calls of the listeners `ls`: first the invalidation, then the change listeners. -/
def notification (ls : Kind → List L) (change : D) : List (Call L D) :=
  (ls .invalidation).map .invalidated ++ (ls .change).map (fun l => .onChanged l change)

/-- **`fireValueChangedEvent`** calls what the helper holds, once each. -/
theorem fire_tracks (ht : Tracks h ls) (change : D) :
    fireValueChangedEvent change h = notification ls change := by
  rcases ht with _ | ⟨kind, l⟩ | ⟨g, ls, hfree, hslots⟩
  · rfl
  · cases kind <;> rfl
  · rw [fireValueChangedEvent, called_eq (hslots .invalidation), called_eq (hslots .change)]
    rfl

/-- Leaving collected listeners out of the calls is leaving them out of the lists. -/
theorem live_notification (gone : L → Bool) (ls : Kind → List L) (change : D) :
    (notification ls change).filter (fun c => !gone c.listener)
      = notification (fun k => live gone (ls k)) change := by
  have hmap : ∀ (f : L → Call L D) (xs : List L), (∀ l, (f l).listener = l) →
      (xs.map f).filter (fun c => !gone c.listener) = (live gone xs).map f := by
    intro f xs hf
    rw [live, List.filter_map]
    congr 2
    funext l
    simp only [Function.comp, hf]
  rw [notification, notification, List.filter_append, hmap _ _ (fun _ => rfl),
    hmap _ _ (fun _ => rfl)]

/-- A helper that is `null` holds no listener. -/
theorem Tracks.eq_nil (ht : Tracks (none : Option (Helper L)) ls) (k : Kind) : ls k = [] := by
  cases ht
  rfl

end JavaFx.Collections.SetListenerHelper
