/-
The listeners of a CSS `BitSet`.

`addListener` keeps the helper that `SetListenerHelper.addListener` answers with;
`removeListener` calls `SetListenerHelper.removeListener` and drops the answer. So a
removal takes effect only where the helper edits itself and answers `this`: it has
none where the listener is the only one, and none where it is one of two.

`Observed` is a set with its helper. What is registered with it (`registered`) and the
weak listeners whose target is gone (`collected`) are kept beside it; calls of the
latter do nothing, and are left out on both sides. `bitSet_notifies_iff` is the result:
the listeners that a change calls are the registered ones in all states of a run,
exactly if no removal of the run is dropped.
-/
import JavaFx.Collections.SetListenerHelper
import JavaFx.Css.BitSetOperations

set_option autoImplicit false

namespace JavaFx.Css.BitSet

open JavaFx.Lib JavaFx.Binding.Listeners
open JavaFx.Collections.SetListenerHelper

/-! ## Changes -/

/-- The calls that change a set; an argument may be `null`, and another set is its bits. -/
inductive Mutation
  | add (t : Option ℕ)
  | remove (t : Option ℕ)
  | addAll (other : Option (List Word))
  | retainAll (other : Option (List Word))
  | removeAll (other : Option (List Word))
  | clear

/-- A call: the bits it leaves, and the changes it reports. -/
def mutate (s : BitSet) : Mutation → List Word × List SetChange
  | .add t => ((s.add t).set.bits, (s.add t).fired)
  | .remove t => ((s.remove t).set.bits, (s.remove t).fired)
  | .addAll other => ((s.addAll other).set.bits, (s.addAll other).fired)
  | .retainAll other => ((s.retainAll other).set.bits, (s.retainAll other).fired)
  | .removeAll other => ((s.removeAll other).set.bits, (s.removeAll other).fired)
  | .clear => (s.clear.1.bits, s.clear.2)

/-- Without listeners nothing is reported. -/
theorem mutate_unheard (bits : List Word) (m : Mutation) :
    ((⟨bits, false⟩ : BitSet).mutate m).2 = [] := by
  have hnone : ∀ words removed, (⟨bits, false⟩ : BitSet).notifyObservers words removed = [] :=
    fun _ _ => rfl
  cases m with
  | add t => cases t <;> simp [mutate, add]
  | remove t =>
    cases t with
    | none => rfl
    | some t =>
      simp only [mutate, remove]
      split <;> simp
  | addAll other =>
    cases other with
    | none => rfl
    | some other =>
      simp only [mutate, addAll, hnone]
      split <;> rfl
  | retainAll other =>
    cases other with
    | none => exact hnone bits true
    | some other =>
      simp only [mutate, retainAll, hnone]
      split <;> rfl
  | removeAll other =>
    cases other with
    | none => rfl
    | some other =>
      simp only [mutate, removeAll, hnone]
      split <;> rfl
  | clear => exact hnone bits true

/-- The next number is not in the set, and adding it is one change. -/
theorem mutate_add_next (bits : List Word) :
    ((⟨bits, true⟩ : BitSet).mutate (.add (some (64 * bits.length)))).2
      = [⟨64 * bits.length, false⟩] := by
  have hdiv : 64 * bits.length / 64 = bits.length := by omega
  have hget : (bits ++ List.replicate (bits.length + 1 - bits.length) 0#64).getD bits.length 0#64
      = 0#64 := by
    rw [List.getD_eq_getElem?_getD, List.getElem?_append_right (Nat.le_refl _)]
    simp
  have hbit : bit (64 * bits.length) = 1#64 := by
    rw [bit, Nat.mul_mod_right]
    rfl
  simp only [mutate, add, hdiv, Nat.le_refl, if_true, hget, hbit]
  rfl

/-! ## The set with its listeners -/

/-- A set, its helper, and what the code does not have: the listeners that were added
and not removed since, in the order of addition, and those that were collected. -/
structure Observed (L : Type) where
  bits : List Word
  listenerHelper : Option (Helper L)
  collected : List L
  registered : Kind → List L

/-- What can happen to a set; a listener may be `null`. -/
inductive Event (L : Type)
  | addListener (kind : Kind) (listener : Option L)
  | removeListener (kind : Kind) (listener : Option L)
  | change (m : Mutation)
  | collect (listener : L)

namespace Observed

variable {L : Type} [BEq L]

/-- A new set. -/
def new (L : Type) : Observed L := ⟨[], none, [], fun _ => []⟩

/-- `wasGarbageCollected`. -/
def gone (s : Observed L) : L → Bool := isGone s.collected

/-- What the methods of `BitSet` see of it. -/
def toSet (s : Observed L) : BitSet := ⟨s.bits, s.listenerHelper.isSome⟩

/-- `addListener`. -/
def addListener (s : Observed L) (kind : Kind) : Option L → Observed L
  | none => s
  | some l =>
    { s with
      listenerHelper :=
        some (Collections.SetListenerHelper.addListener s.gone kind l s.listenerHelper)
      registered := Function.update s.registered kind (s.registered kind ++ [l]) }

/-- `removeListener`: the helper stays the receiver of the call. -/
def removeListener (s : Observed L) (kind : Kind) : Option L → Except Exn (Observed L)
  | none => .ok s
  | some l => do
      let removal ← Collections.SetListenerHelper.removeListener kind l s.listenerHelper
      .ok { s with
        listenerHelper := removal.receiver
        registered := erased s.registered kind l }

/-- A step. -/
def step (s : Observed L) : Event L → Except Exn (Observed L)
  | .addListener kind l => .ok (s.addListener kind l)
  | .removeListener kind l => s.removeListener kind l
  | .change m => .ok { s with bits := (s.toSet.mutate m).1 }
  | .collect l => .ok { s with collected := l :: s.collected }

/-- The calls of a change: `notifyObservers` for everything it reports. -/
def calls (s : Observed L) (m : Mutation) : List (Call L SetChange) :=
  (s.toSet.mutate m).2.flatMap (fun d => fireValueChangedEvent d s.listenerHelper)

/-- The calls a change owes: one of each registered listener, for everything that a
set with listeners reports of it. -/
def owed (s : Observed L) (m : Mutation) : List (Call L SetChange) :=
  ((⟨s.bits, true⟩ : BitSet).mutate m).2.flatMap (fun d => notification s.registered d)

/-- Calls of listeners that were collected do not count. -/
def heard (s : Observed L) (cs : List (Call L SetChange)) : List (Call L SetChange) :=
  cs.filter (fun c => !s.gone c.listener)

/-- Whatever changes next, exactly the registered listeners are called, each as often
as it is registered. -/
def Notifies (s : Observed L) : Prop := ∀ m, (s.heard (s.calls m)).Perm (s.heard (s.owed m))

/-- The removal takes effect, or there is nothing to remove. -/
def Takes (s : Observed L) : Event L → Prop
  | .removeListener kind (some l) => s.gone l = true ∨ replaces kind l s.listenerHelper = false
  | _ => True

instance (s : Observed L) : ∀ e, Decidable (s.Takes e)
  | .removeListener _ (some _) => inferInstanceAs (Decidable (_ ∨ _))
  | .removeListener _ none | .addListener _ _ | .change _ | .collect _ =>
    inferInstanceAs (Decidable True)

/-! ## What a step does -/

/-- The helper holds the listeners `ls`. -/
def Holds (s : Observed L) (ls : Kind → List L) : Prop := Tracks s.listenerHelper ls

/-- What the helper holds are the registered listeners, up to collected ones. -/
def Inv (s : Observed L) : Prop :=
  ∃ ls, s.Holds ls ∧ ∀ kind, live s.gone (ls kind) = live s.gone (s.registered kind)

variable {s s' : Observed L} {ls : Kind → List L}

theorem new_inv : (new L).Inv := ⟨_, .null, fun _ => rfl⟩

/-- The calls of the listeners that are still there. -/
theorem heard_calls (hls : s.Holds ls) (m : Mutation) :
    s.heard (s.calls m) = (s.toSet.mutate m).2.flatMap
      (fun d => notification (fun k => live s.gone (ls k)) d) := by
  rw [heard, calls, List.filter_flatMap]
  congr 1
  funext d
  rw [fire_tracks hls, live_notification]

theorem heard_owed (s : Observed L) (m : Mutation) :
    s.heard (s.owed m) = ((⟨s.bits, true⟩ : BitSet).mutate m).2.flatMap
      (fun d => notification (fun k => live s.gone (s.registered k)) d) := by
  rw [heard, owed, List.filter_flatMap]
  congr 1
  funext d
  exact live_notification ..

/-- With the registered listeners in the helper a change makes the calls it owes, and
in the order of addition. -/
theorem heard_eq_of_inv (h : s.Inv) (m : Mutation) : s.heard (s.calls m) = s.heard (s.owed m) := by
  obtain ⟨ls, hls, hlive⟩ := h
  rw [heard_calls hls, heard_owed, funext hlive, toSet]
  cases hhelper : s.listenerHelper with
  | some helper => rfl
  | none =>
    -- nothing is reported, and nobody is registered
    have hnone : ∀ k, live s.gone (s.registered k) = [] := by
      intro k
      rw [Holds, hhelper] at hls
      rw [← hlive k, hls.eq_nil k]
      rfl
    rw [Option.isSome_none, mutate_unheard, List.flatMap_nil]
    refine (List.flatMap_eq_nil_iff.mpr (fun d _ => ?_)).symm
    rw [funext hnone]
    rfl

theorem notifies_of_inv (h : s.Inv) : s.Notifies := fun m => .of_eq (heard_eq_of_inv h m)

/-- As many listeners are held as are registered. -/
theorem length_of_notifies (hls : s.Holds ls) (h : s.Notifies) :
    (live s.gone (ls .invalidation)).length + (live s.gone (ls .change)).length
      = (live s.gone (s.registered .invalidation)).length
        + (live s.gone (s.registered .change)).length := by
  have hperm := (h (.add (some (64 * s.bits.length)))).length_eq
  have hcount : ∀ (xs : Kind → List L) (d : SetChange),
      (notification xs d).length = (xs .invalidation).length + (xs .change).length := by
    intro xs d
    rw [notification, List.length_append, List.length_map, List.length_map]
  rw [heard_calls hls, heard_owed, mutate_add_next, List.flatMap_singleton, hcount] at hperm
  cases hhelper : s.listenerHelper with
  | some helper =>
    rw [toSet, hhelper, Option.isSome_some, mutate_add_next, List.flatMap_singleton,
      hcount] at hperm
    exact hperm
  | none =>
    have hnil : ∀ k, ls k = [] := fun k => by
      rw [Holds, hhelper] at hls
      exact hls.eq_nil k
    rw [toSet, hhelper, Option.isSome_none, mutate_unheard, List.flatMap_nil] at hperm
    rw [hnil, hnil]
    exact hperm

variable [EquivBEq L]

/-- Removing a collected listener takes nothing from those that are still there. -/
theorem live_erased_of_gone {l : L} (hgone : s.gone l = true) (kind k : Kind) :
    live s.gone (erased s.registered kind l k) = live s.gone (s.registered k) := by
  by_cases hk : k = kind
  · rw [hk, erased, Function.update_self, gone, live_eraseP]
    apply List.eraseP_of_forall_not
    intro l' hl' heq
    have hnot := (List.mem_filter.mp hl').2
    rw [← isGone_congr s.collected heq] at hnot
    rw [gone] at hgone
    rw [hgone] at hnot
    cases hnot
  · rw [erased, Function.update_of_ne hk]

/-- Lists that agree up to collected listeners agree after a removal from both. -/
theorem live_erased_congr {rs : Kind → List L}
    (hlive : ∀ k, live s.gone (ls k) = live s.gone (rs k)) (kind : Kind) (l : L) (k : Kind) :
    live s.gone (erased ls kind l k) = live s.gone (erased rs kind l k) := by
  apply live_update hlive
  exact (live_eraseP s.collected l _).trans
    ((congrArg _ (hlive kind)).trans (live_eraseP s.collected l _).symm)

/-- A removal of a listener that is there leaves one less. -/
theorem length_live_erased {rs : Kind → List L} {kind : Kind} {l l' : L}
    (hmem : l' ∈ live s.gone (rs kind)) (heq : (l == l') = true) :
    (live s.gone (erased rs kind l kind)).length = (live s.gone (rs kind)).length - 1 := by
  rw [erased, Function.update_self, gone, live_eraseP]
  exact List.length_eraseP_of_mem hmem heq

/-- **One step.** It leaves a helper; where it takes effect that helper holds what is
registered then, and where it does not a change calls a listener too many. -/
theorem step_spec (hinv : s.Inv) (e : Event L) :
    ∃ s', s.step e = .ok s' ∧ (s.Takes e → s'.Inv) ∧ (s'.Notifies → s.Takes e) := by
  obtain ⟨ls, hls, hlive⟩ := hinv
  cases e with
  | addListener kind l =>
    refine ⟨_, rfl, fun _ => ?_, fun _ => trivial⟩
    cases l with
    | none => exact ⟨ls, hls, hlive⟩
    | some l =>
      obtain ⟨ls', hls', hlive'⟩ := addListener_tracks hls s.gone kind l
      refine ⟨ls', hls', fun k => (hlive' k).trans ?_⟩
      apply live_update hlive
      rw [live_append, live_append, hlive kind]
  | removeListener kind l =>
    cases l with
    | none => exact ⟨s, rfl, fun _ => ⟨ls, hls, hlive⟩, fun _ => trivial⟩
    | some l =>
      obtain ⟨removal, hremove, htracks, hreceiver⟩ := removeListener_tracks hls kind l
      have hstep : s.step (.removeListener kind (some l)) = .ok { s with
          listenerHelper := removal.receiver
          registered := erased s.registered kind l } := by
        rw [step, removeListener, hremove]
        rfl
      refine ⟨_, hstep, ?_, ?_⟩
      · intro htakes
        by_cases hreplaces : replaces kind l s.listenerHelper = true
        · -- the removal is dropped, but nobody would hear the listener
          have hgone : s.gone l = true := htakes.resolve_right (by rw [hreplaces]; decide)
          rw [if_pos hreplaces] at hreceiver
          refine ⟨ls, (congrArg (Tracks · ls) hreceiver).mpr hls, fun k => ?_⟩
          exact (hlive k).trans (live_erased_of_gone hgone kind k).symm
        · rw [if_neg hreplaces] at hreceiver
          refine ⟨erased ls kind l, (congrArg (Tracks · _) hreceiver).mpr htracks, ?_⟩
          exact fun k => live_erased_congr hlive kind l k
      · intro hnotifies
        by_contra htakes
        obtain ⟨hgone, hreplaces⟩ := not_or.mp htakes
        rw [Bool.not_eq_false] at hreplaces
        rw [if_pos hreplaces] at hreceiver
        have hkept : Tracks removal.receiver ls := hreceiver ▸ hls
        have hlength := length_of_notifies (s := { s with
          listenerHelper := removal.receiver
          registered := erased s.registered kind l }) hkept hnotifies
        -- the helper still has the listener that is not registered any more
        obtain ⟨l', hl', heq⟩ := exists_of_replaces hls hreplaces
        have hmem : l' ∈ live s.gone (s.registered kind) := by
          rw [← hlive kind]
          refine List.mem_filter.mpr ⟨hl', ?_⟩
          rw [gone, ← isGone_congr s.collected heq]
          exact (Bool.not_eq_true' _).mpr (eq_false_of_ne_true hgone)
        have hfewer := length_live_erased hmem heq
        have hsame : ∀ k, (live s.gone (ls k)).length = (live s.gone (s.registered k)).length :=
          fun k => congrArg List.length (hlive k)
        have hother : live s.gone (erased s.registered kind l kind.other)
            = live s.gone (s.registered kind.other) := by
          rw [erased, Function.update_of_ne (by cases kind <;> decide)]
        have hsum : ∀ f : Kind → ℕ, f .invalidation + f .change = f kind + f kind.other := by
          intro f
          cases kind
          · rfl
          · exact Nat.add_comm _ _
        have hleft := hsum (fun k => (live s.gone (ls k)).length)
        have hright := hsum (fun k => (live s.gone (erased s.registered kind l k)).length)
        have hregistered := List.length_pos_of_mem hmem
        have hkind := hsame kind
        have hkindOther := hsame kind.other
        simp only [hother] at hright
        change (live s.gone (ls .invalidation)).length + (live s.gone (ls .change)).length
          = (live s.gone (erased s.registered kind l .invalidation)).length
            + (live s.gone (erased s.registered kind l .change)).length at hlength
        omega
  | change m => exact ⟨_, rfl, fun _ => ⟨ls, hls, hlive⟩, fun _ => trivial⟩
  | collect l =>
    exact ⟨_, rfl, fun _ => ⟨ls, hls, fun k => live_collect s.collected l (hlive k)⟩,
      fun _ => trivial⟩

/-- **All runs.** The changes of a set notify exactly the registered listeners in every
state of a run, exactly if every removal of the run takes effect. -/
theorem bitSet_notifies_iff (events : List (Event L)) :
    (∀ before s, before <+: events → run step (new L) before = .ok s → s.Notifies)
      ↔ Along step Takes (new L) events := by
  refine run_prefixes_iff_of Inv Notifies ?_ (fun s => notifies_of_inv) ?_ ?_ new_inv
  · intro s e hinv
    obtain ⟨s', hs', -⟩ := step_spec hinv e
    exact ⟨s', hs'⟩
  · intro s e s' hinv hstep htakes
    obtain ⟨t, ht, hkeep, -⟩ := step_spec hinv e
    rw [hstep, Except.ok.injEq] at ht
    exact ht ▸ hkeep htakes
  · intro s e s' hinv hstep hnotifies
    obtain ⟨t, ht, -, hneed⟩ := step_spec hinv e
    rw [hstep, Except.ok.injEq] at ht
    exact hneed (ht ▸ hnotifies)

/-- Three listeners, two of them one object, of which one is removed; then one of an only
kind is collected and removed. -/
def threeListeners : List (Event ℕ) :=
  [.addListener .change (some 1), .addListener .invalidation (some 2),
    .addListener .change (some 1), .removeListener .change (some 1), .change (.add (some 70)),
    .collect 2, .removeListener .invalidation (some 2)]

theorem bitSet_notifies_three :
    Along step Takes (new ℕ) threeListeners ∧
      ∀ before s, before <+: threeListeners → run step (new ℕ) before = .ok s → s.Notifies := by
  have htakes : Along step Takes (new ℕ) threeListeners := by decide
  exact ⟨htakes, (bitSet_notifies_iff threeListeners).mpr htakes⟩

/-- A listener that is added and removed again is called by the next change. -/
theorem bitSet_notifies_removed :
    ¬ ∀ events : List (Event ℕ), ∀ s, run step (new ℕ) events = .ok s → s.Notifies := by
  intro h
  have hnotifies := h [.addListener .change (some 1), .removeListener .change (some 1)] _ rfl
    (.add (some 0))
  exact absurd hnotifies (by decide)

end Observed

end JavaFx.Css.BitSet
