/-
Running notifications of an `ExpressionHelper`: what holds of each of them, and that
the loops keep it.

`FrameOk` is the invariant of one running notification: the calls it has made and the
entries it still has to call are, together and in order, the listeners that were
registered when it started. It reads the captured arrays, so an edit in place can
break it; what an edit must leave alone is `Kept`. The loops themselves change
nothing in the heap of arrays (`SameLists`), and end in a record that is `Complete`.

As for the other helpers, weak listeners that were garbage collected do not count.
-/
import JavaFx.Binding.ExpressionHelper

set_option autoImplicit false
set_option linter.unusedSectionVars false

namespace JavaFx.Binding.ExpressionHelper

open JavaFx.Lib Listeners

variable {L V : Type} [BEq L] [BEq V]

/-! ## Calls that count -/

/-- The calls, or entries to be called, without those of collected listeners. -/
def liveEntries (gone : L → Bool) (es : List (Option L)) : List (Option L) :=
  es.filter (fun e => e.all (fun l => !gone l))

theorem liveEntries_map_some (gone : L → Bool) (ls : List L) :
    liveEntries gone (ls.map some) = (live gone ls).map some := by
  rw [liveEntries, live, List.filter_map]
  rfl

/-- The calls are those of the listeners, in order. -/
def Calls (gone : L → Bool) (calls : List (Option L)) (ls : List L) : Prop :=
  liveEntries gone calls = (live gone ls).map some

theorem Calls.of_live {gone : L → Bool} {calls : List (Option L)} {ls ls' : List L}
    (h : Calls gone calls ls) (hlive : live gone ls = live gone ls') : Calls gone calls ls' := by
  rw [Calls, h, hlive]

theorem calls_map_some (gone : L → Bool) (ls : List L) : Calls gone (ls.map some) ls :=
  liveEntries_map_some gone ls

theorem Calls.collect {collected : List L} {calls : List (Option L)} {ls : List L}
    (h : Calls (isGone collected) calls ls) (l : L) : Calls (isGone (l :: collected)) calls ls := by
  have hcalls : ∀ es, liveEntries (isGone (l :: collected)) es
      = (liveEntries (isGone collected) es).filter (fun e => e.all (fun l' => !(l == l'))) := by
    intro es
    rw [liveEntries, liveEntries, List.filter_filter]
    congr 1
    funext e
    cases e with
    | none => rfl
    | some l' =>
      simp only [Option.all_some, isGone, List.any_cons, Bool.not_or]
  rw [Calls, ← liveEntries_map_some, hcalls, h, ← liveEntries_map_some, ← hcalls]

/-- A notification that is over called every listener that was registered when it
started, and the change listeners if it found the value changed. -/
structure Record.Complete (gone : L → Bool) (r : Record L) : Prop where
  invalidations : Calls gone (r.calls .invalidation) (r.registered .invalidation)
  changes : r.changed = true → Calls gone (r.calls .change) (r.registered .change)
  unchanged : r.changed = false → r.calls .change = []

/-- A notification that is still running has called the first of them. -/
def Record.Partial (gone : L → Bool) (r : Record L) : Prop :=
  ∀ kind, ∃ later, Calls gone (r.calls kind ++ later) (r.registered kind)

/-! ## What the helper holds -/

/-- A slot holds `ls`. -/
inductive SlotHolds (arrays : List (Listeners L)) : Slot → List L → Prop
  | null : SlotHolds arrays Slot.empty []
  | array {aid size : ℕ} {a : Listeners L} {ls : List L} (hget : arrays[aid]? = some a)
      (h : Listeners.Holds a size ls) : SlotHolds arrays ⟨some aid, size⟩ ls

theorem SlotHolds.size_eq {arrays : List (Listeners L)} {slot : Slot} {ls : List L}
    (h : SlotHolds arrays slot ls) : slot.size = ls.length := by
  rcases h with _ | ⟨-, h⟩
  · rfl
  · exact h.size_eq

namespace State

/-- The slots of the helper, when it is a `Generic` object. -/
def slots (s : State L V) : Kind → Slot :=
  match s.helper with
  | .generic id => (s.object id).slots
  | _ => fun _ => Slot.empty

/-- The helper holds the listeners `ls kind` of each kind. -/
def Holds (s : State L V) (ls : Kind → List L) : Prop :=
  match s.helper with
  | .null => ∀ kind, ls kind = []
  | .single kind l _ => ls kind = [l] ∧ ls kind.other = []
  | .generic id =>
    id < s.generics.length ∧ ∀ kind, SlotHolds (s.arrays kind) ((s.object id).slots kind) (ls kind)

section

variable {s : State L V} {id : ℕ} {ls : Kind → List L}

theorem slots_of_generic (hh : s.helper = .generic id) : s.slots = (s.object id).slots := by
  rw [slots, hh]

theorem holds_of_generic (hh : s.helper = .generic id) :
    s.Holds ls ↔ id < s.generics.length
      ∧ ∀ kind, SlotHolds (s.arrays kind) ((s.object id).slots kind) (ls kind) := by
  rw [Holds, hh]

end

end State

/-! ## Running notifications -/

/-- The first entry a notification has still to call. -/
def Frame.next (f : Frame L) : Kind → ℕ
  | .invalidation =>
    match f.phase with
    | .invalidations next => next
    | _ => (f.slots .invalidation).size
  | .change =>
    match f.phase with
    | .invalidations _ => 0
    | .changes next => next
    | .last => (f.slots .change).size

/-- The invariant of a running notification. The last field says that entries it
still has to call are listeners of the helper, when the helper has the same array. -/
structure FrameOk (s : State L V) (f : Frame L) : Prop where
  entries : ∀ kind,
    Calls s.gone (f.record.calls kind ++ s.rest f kind (f.next kind)) (f.record.registered kind)
  valid : ∀ kind aid, (f.slots kind).array = some aid → aid < (s.arrays kind).length
  within : ∀ kind aid, (f.slots kind).array = some aid → (s.slots kind).array = some aid →
    f.next kind < (f.slots kind).size → (f.slots kind).size ≤ (s.slots kind).size

/-- What the phase says about the change listeners. -/
def Frame.ChangesOk (f : Frame L) : Prop :=
  match f.phase with
  | .invalidations _ => f.record.changed = false ∧ f.record.calls .change = []
  | .changes _ => f.record.changed = true
  | .last => f.record.changed = false → f.record.calls .change = []

/-- The invariant of the machine. -/
structure Inv (s : State L V) : Prop where
  holds : ∃ ls, s.Holds ls ∧ ∀ kind, live s.gone (ls kind) = live s.gone (s.registered kind)
  frames : ∀ f ∈ s.frames, FrameOk s f ∧ f.ChangesOk
  finished : ∀ r ∈ s.finished, r.Complete s.gone

section Rest

variable {s : State L V} {f : Frame L} {kind : Kind}

theorem rest_of_le {i : ℕ} (h : (f.slots kind).size ≤ i) : s.rest f kind i = [] := by
  rw [State.rest]
  split
  · rfl
  · exact List.drop_eq_nil_of_le (Nat.le_trans (List.length_take_le ..) h)

theorem rest_drop (i n : ℕ) : (s.rest f kind i).drop n = s.rest f kind (i + n) := by
  rw [State.rest, State.rest]
  split
  · exact List.drop_nil
  · rw [List.drop_drop]

/-- A notification that has called nothing calls what the slot holds. -/
theorem rest_zero {ls : List L} (h : SlotHolds (s.arrays kind) (f.slots kind) ls) :
    s.rest f kind 0 = ls.map some := by
  rw [State.rest]
  cases hslot : f.slots kind with
  | mk array size =>
    rw [hslot] at h
    rcases h with _ | ⟨hget, h⟩
    · rfl
    · dsimp only
      rw [State.read, hget, List.drop_zero]
      exact h.entries

theorem SlotHolds.valid {arrays : List (Listeners L)} {slot : Slot} {ls : List L} {aid : ℕ}
    (h : SlotHolds arrays slot ls) (hslot : slot.array = some aid) : aid < arrays.length := by
  rcases h with _ | ⟨hget, h⟩
  · cases hslot
  · obtain rfl := Option.some.inj hslot
    exact (List.getElem?_eq_some_iff.mp hget).1

/-- A loop that stops at a listener has called the entries up to it. -/
theorem callFrom_some {es : Listeners L} {n : ℕ} (h : (callFrom es).2 = some n) :
    (callFrom es).1 ++ es.drop n = es ∧ 0 < n := by
  induction es generalizing n with
  | nil => cases h
  | cons e es ih =>
    cases e with
    | some l =>
      obtain rfl : 1 = n := Option.some.inj h
      exact ⟨rfl, Nat.one_pos⟩
    | none =>
      obtain ⟨m, hm, rfl⟩ := Option.map_eq_some_iff.mp h
      obtain ⟨hes, -⟩ := ih hm
      refine ⟨?_, Nat.succ_pos m⟩
      rw [callFrom, List.drop_succ_cons, List.cons_append, hes]

/-- A loop that does not stop has called all entries. -/
theorem callFrom_none {es : Listeners L} (h : (callFrom es).2 = none) :
    (callFrom es).1 = es := by
  induction es with
  | nil => rfl
  | cons e es ih =>
    cases e with
    | some l => cases h
    | none => rw [callFrom, ih (Option.map_eq_none_iff.mp h)]

/-- A notification with nothing left to call. -/
theorem FrameOk.done (h : FrameOk s f) (hnext : (f.slots kind).size ≤ f.next kind) :
    Calls s.gone (f.record.calls kind) (f.record.registered kind) := by
  have hentries := h.entries kind
  rw [rest_of_le hnext, List.append_nil] at hentries
  exact hentries

end Rest

/-! ## Steps that leave the listeners alone -/

/-- The same arrays, held and registered listeners. -/
structure SameLists (s s' : State L V) : Prop where
  arrays : s'.arrays = s.arrays
  slots : s'.slots = s.slots
  collected : s'.collected = s.collected
  registered : s'.registered = s.registered
  holds : ∀ ls, s.Holds ls → s'.Holds ls

section SameLists

variable {s s' : State L V} {f : Frame L} {r : Record L}

theorem FrameOk.of_same (hf : FrameOk s f) (h : SameLists s s') : FrameOk s' f := by
  have hrest : ∀ kind i, s'.rest f kind i = s.rest f kind i := by
    intro kind i
    simp only [State.rest, State.read, h.arrays]
  refine ⟨fun kind => ?_, fun kind aid hv => ?_, fun kind aid hfa hsa hn => ?_⟩
  · rw [hrest, State.gone, h.collected]
    exact hf.entries kind
  · rw [h.arrays]
    exact hf.valid kind aid hv
  · rw [h.slots] at hsa ⊢
    exact hf.within kind aid hfa hsa hn

theorem Inv.of_same (hinv : Inv s) (h : SameLists s s') (hframes : s'.frames = s.frames)
    (hfinished : s'.finished = s.finished) : Inv s' := by
  obtain ⟨ls, hls, hlive⟩ := hinv.holds
  refine ⟨⟨ls, h.holds ls hls, fun kind => ?_⟩, fun f hf => ?_, fun r hr => ?_⟩
  · rw [State.gone, h.collected, h.registered]
    exact hlive kind
  · rw [hframes] at hf
    exact ⟨(hinv.frames f hf).1.of_same h, (hinv.frames f hf).2⟩
  · rw [hfinished] at hr
    rw [State.gone, h.collected]
    exact hinv.finished r hr

theorem object_modify (s : State L V) (id id' : ℕ) (u : Generic V → Generic V) :
    (s.modify id u).object id'
      = if id' = id ∧ id < s.generics.length then u (s.object id) else s.object id' := by
  rw [State.object, State.modify]
  by_cases hid : id' = id
  · subst hid
    by_cases hlt : id' < s.generics.length
    · rw [if_pos ⟨rfl, hlt⟩, List.getElem?_set_self hlt]
      rfl
    · rw [if_neg (fun hc => hlt hc.2), List.set_eq_of_length_le (Nat.le_of_not_lt hlt)]
      rfl
  · rw [if_neg (fun hc => hid hc.1), List.getElem?_set_ne (Ne.symm hid)]
    rfl

/-- An assignment to the other fields of a `Generic` object. -/
theorem sameLists_modify (s : State L V) (id : ℕ) {u : Generic V → Generic V}
    (hu : ∀ g, (u g).slots = g.slots) : SameLists s (s.modify id u) := by
  have hobject : ∀ id', ((s.modify id u).object id').slots = (s.object id').slots := by
    intro id'
    rw [object_modify]
    split
    · rename_i h
      rw [hu, h.1]
    · rfl
  have hhelper : (s.modify id u).helper = s.helper := rfl
  refine ⟨rfl, ?_, rfl, rfl, fun ls hls => ?_⟩
  · rw [State.slots, State.slots, hhelper]
    rcases s.helper with _ | _ | id'
    · rfl
    · rfl
    · exact hobject id'
  · have hlength : (s.modify id u).generics.length = s.generics.length := List.length_set
    rw [State.Holds] at hls ⊢
    rw [hhelper, hlength]
    revert hls
    rcases s.helper with _ | _ | id'
    · exact fun hls => hls
    · exact fun hls => hls
    · intro hls
      refine ⟨hls.1, fun kind => ?_⟩
      rw [hobject id']
      exact hls.2 kind

/-- The helper of a notification keeps its value up to date. -/
theorem sameLists_single {kind : Kind} {l : L} {v : Option V} (hs : s.helper = .single kind l v)
    (v' : Option V) : SameLists s { s with helper := .single kind l v' } := by
  refine ⟨rfl, ?_, rfl, rfl, fun ls hls => ?_⟩
  · rw [State.slots, State.slots, hs]
  · rw [State.Holds, hs] at hls
    exact hls

/-- Frames and records are not part of the lists. -/
theorem sameLists_frames (s : State L V) (frames : List (Frame L)) (finished : List (Record L)) :
    SameLists s { s with frames := frames, finished := finished } :=
  ⟨rfl, rfl, rfl, rfl, fun _ hls => hls⟩

theorem Inv.modify (hinv : Inv s) (id : ℕ) {u : Generic V → Generic V}
    (hu : ∀ g, (u g).slots = g.slots) : Inv (s.modify id u) :=
  hinv.of_same (sameLists_modify s id hu) rfl rfl

/-- A notification starts to run, or goes on. -/
theorem Inv.push (hinv : Inv s) (hf : FrameOk s f) (hchanges : f.ChangesOk) :
    Inv { s with frames := f :: s.frames } := by
  have hsame := sameLists_frames s (f :: s.frames) s.finished
  refine ⟨hinv.holds, fun f' hf' => ?_, hinv.finished⟩
  rcases List.mem_cons.mp hf' with rfl | hf'
  · exact ⟨hf.of_same hsame, hchanges⟩
  · exact ⟨(hinv.frames f' hf').1.of_same hsame, (hinv.frames f' hf').2⟩

/-- The innermost notification is taken off the stack. -/
theorem Inv.pop {frames : List (Frame L)} (hinv : Inv s) (hs : s.frames = f :: frames) :
    Inv { s with frames := frames } ∧ FrameOk { s with frames := frames } f ∧ f.ChangesOk := by
  have hsame := sameLists_frames s frames s.finished
  have hmem : f ∈ s.frames := by
    rw [hs]
    exact List.mem_cons_self
  refine ⟨⟨hinv.holds, fun f' hf' => ?_, hinv.finished⟩, (hinv.frames f hmem).1.of_same hsame,
    (hinv.frames f hmem).2⟩
  have hmem' : f' ∈ s.frames := by
    rw [hs]
    exact List.mem_cons_of_mem _ hf'
  exact ⟨(hinv.frames f' hmem').1.of_same hsame, (hinv.frames f' hmem').2⟩

/-- A notification is over. -/
theorem Inv.log (hinv : Inv s) (hr : r.Complete s.gone) :
    Inv { s with finished := r :: s.finished } := by
  have hsame := sameLists_frames s s.frames (r :: s.finished)
  refine ⟨hinv.holds, fun f hf => ⟨(hinv.frames f hf).1.of_same hsame, (hinv.frames f hf).2⟩,
    fun r' hr' => ?_⟩
  rcases List.mem_cons.mp hr' with rfl | hr'
  · exact hr
  · exact hinv.finished r' hr'

end SameLists

/-! ## The loops -/

section Loops

variable {s : State L V} {f : Frame L} {next : ℕ}

theorem finish_inv (hinv : Inv s) (hr : f.record.Complete s.gone) : Inv (s.finish f) :=
  (hinv.modify f.owner (u := fun g => { g with locked := false }) (fun _ => rfl)).log hr

@[simp] theorem calls_log_self (r : Record L) (kind : Kind) (calls : List (Option L)) :
    (r.log kind calls).calls kind = r.calls kind ++ calls := Function.update_self ..

/-- The loop over the change listeners, from where it stands. -/
theorem runChanges_inv (hinv : Inv s) (hf : FrameOk s { f with phase := .changes next })
    (hchanged : f.record.changed = true) : Inv (s.runChanges f next) := by
  unfold State.runChanges
  dsimp only
  cases hused : (callFrom (s.rest f .change next)).2 with
  | some n =>
    obtain ⟨hcalls, hn⟩ := callFrom_some hused
    rw [rest_drop] at hcalls
    refine hinv.push ⟨fun kind => ?_, hf.valid, fun kind aid hfa hsa hlt => ?_⟩ hchanged
    · cases kind with
      | invalidation => exact hf.entries .invalidation
      | change =>
        have hentries := hf.entries .change
        show Calls _ ((f.record.log .change _).calls .change ++ s.rest f .change (next + n)) _
        rw [calls_log_self, List.append_assoc, hcalls]
        exact hentries
    · cases kind with
      | invalidation => exact hf.within .invalidation aid hfa hsa hlt
      | change =>
        exact hf.within .change aid hfa hsa
          (Nat.lt_of_le_of_lt (Nat.le_add_right next n) hlt)
  | none =>
    have hcalls := callFrom_none hused
    refine finish_inv hinv ⟨?_, fun _ => ?_, fun hc => ?_⟩
    · exact hf.done (Nat.le_refl _)
    · show Calls _ ((f.record.log .change _).calls .change) _
      rw [calls_log_self, hcalls]
      exact hf.entries .change
    · exact absurd (hchanged.symm.trans hc) (by decide)

/-- What follows the loop over the invalidation listeners. -/
theorem endInvalidations_inv (hinv : Inv s) (hf : FrameOk s { f with phase := .changes 0 })
    (hchanged : f.record.changed = false) (hcalls : f.record.calls .change = []) :
    Inv (s.endInvalidations f) := by
  have hcomplete : f.record.Complete s.gone :=
    ⟨hf.done (Nat.le_refl _), fun hc => absurd (hchanged.symm.trans hc) Bool.false_ne_true,
      fun _ => hcalls⟩
  rw [State.endInvalidations]
  by_cases hsize : (f.slots .change).size = 0
  · rw [if_pos hsize]
    exact finish_inv hinv hcomplete
  · rw [if_neg hsize]
    dsimp only
    have hu : ∀ g : Generic V, ({ g with currentValue := s.value } : Generic V).slots = g.slots :=
      fun _ => rfl
    have hinv' := hinv.modify f.owner hu
    have hf' := hf.of_same (sameLists_modify s f.owner hu)
    split
    · exact runChanges_inv hinv' ⟨hf'.entries, hf'.valid, hf'.within⟩ rfl
    · exact finish_inv hinv' hcomplete

/-- The loop over the invalidation listeners, from where it stands. -/
theorem runInvalidations_inv (hinv : Inv s)
    (hf : FrameOk s { f with phase := .invalidations next })
    (hchanged : f.record.changed = false) (hnone : f.record.calls .change = []) :
    Inv (s.runInvalidations f next) := by
  unfold State.runInvalidations
  dsimp only
  cases hused : (callFrom (s.rest f .invalidation next)).2 with
  | some n =>
    obtain ⟨hcalls, hn⟩ := callFrom_some hused
    rw [rest_drop] at hcalls
    refine hinv.push ⟨fun kind => ?_, hf.valid, fun kind aid hfa hsa hlt => ?_⟩
      ⟨hchanged, hnone⟩
    · cases kind with
      | invalidation =>
        have hentries := hf.entries .invalidation
        show Calls _ ((f.record.log .invalidation _).calls .invalidation
          ++ s.rest f .invalidation (next + n)) _
        rw [calls_log_self, List.append_assoc, hcalls]
        exact hentries
      | change => exact hf.entries .change
    · cases kind with
      | invalidation =>
        exact hf.within .invalidation aid hfa hsa
          (Nat.lt_of_le_of_lt (Nat.le_add_right next n) hlt)
      | change => exact hf.within .change aid hfa hsa hlt
  | none =>
    have hcalls := callFrom_none hused
    refine endInvalidations_inv hinv ⟨fun kind => ?_, hf.valid, fun kind aid hfa hsa hlt => ?_⟩
      hchanged hnone
    · cases kind with
      | invalidation =>
        have hentries := hf.entries .invalidation
        show Calls _ ((f.record.log .invalidation _).calls .invalidation
          ++ s.rest f .invalidation (f.slots .invalidation).size) _
        rw [calls_log_self, hcalls, rest_of_le (Nat.le_refl _), List.append_nil]
        exact hentries
      | change => exact hf.entries .change
    · cases kind with
      | invalidation => exact absurd hlt (Nat.lt_irrefl _)
      | change => exact hf.within .change aid hfa hsa hlt

/-- The running listener returns. -/
theorem ret_inv (hinv : Inv s) : Inv s.ret := by
  rw [State.ret]
  cases hs : s.frames with
  | nil => exact hinv
  | cons f frames =>
    obtain ⟨hpop, hf, hchanges⟩ := hinv.pop hs
    rw [Frame.ChangesOk] at hchanges
    dsimp only
    cases hphase : f.phase with
    | invalidations next =>
      rw [hphase] at hchanges
      have hphase' : f = { f with phase := .invalidations next } := by rw [← hphase]
      rw [hphase'] at hf
      exact runInvalidations_inv hpop hf hchanges.1 hchanges.2
    | changes next =>
      rw [hphase] at hchanges
      have hphase' : f = { f with phase := .changes next } := by rw [← hphase]
      rw [hphase'] at hf
      exact runChanges_inv hpop hf hchanges
    | last =>
      rw [hphase] at hchanges
      refine hpop.log ⟨hf.done ?_, fun _ => hf.done ?_, hchanges⟩
      · simp only [Frame.next, hphase, Nat.le_refl]
      · simp only [Frame.next, hphase, Nat.le_refl]

/-- The record of a notification that finds the helper with the listeners `ls`. -/
theorem calls_registered {ls : Kind → List L} {kind : Kind} {calls : List (Option L)}
    (hlive : ∀ kind, live s.gone (ls kind) = live s.gone (s.registered kind))
    (hcalls : calls = (ls kind).map some) : Calls s.gone calls (s.registered kind) := by
  rw [hcalls]
  exact (calls_map_some s.gone (ls kind)).of_live (hlive kind)

/-- A notification that starts. -/
theorem fireValueChangedEvent_inv (hinv : Inv s) : Inv s.fireValueChangedEvent := by
  obtain ⟨ls, hls, hlive⟩ := hinv.holds
  have hnone : ∀ kind, ls kind = [] → Calls s.gone [] (s.registered kind) := by
    intro kind hkind
    apply calls_registered hlive
    rw [hkind]
    rfl
  rw [State.Holds] at hls
  unfold State.fireValueChangedEvent
  split
  · -- no listeners
    rename_i hh
    rw [hh] at hls
    exact hinv.log ⟨hnone _ (hls _), fun hc => absurd hc Bool.false_ne_true, fun _ => rfl⟩
  · -- one invalidation listener
    rename_i l v hh
    rw [hh] at hls
    refine hinv.push ⟨fun kind => ?_, fun kind aid hv => (by cases hv), fun kind aid hv => (by cases hv)⟩
      (fun _ => rfl)
    cases kind with
    | invalidation =>
      apply calls_registered hlive
      rw [hls.1]
      rfl
    | change => exact hnone .change hls.2
  · -- one change listener
    rename_i l v hh
    rw [hh] at hls
    have hinv' := hinv.of_same (sameLists_single hh s.value) rfl rfl
    dsimp only
    split
    · refine hinv'.push ⟨fun kind => ?_, fun kind aid hv => (by cases hv),
        fun kind aid hv => (by cases hv)⟩ (fun hc => absurd hc.symm Bool.false_ne_true)
      cases kind with
      | invalidation => exact hnone .invalidation hls.2
      | change =>
        apply calls_registered hlive
        rw [hls.1]
        rfl
    · exact hinv'.log ⟨hnone .invalidation hls.2, fun hc => absurd hc Bool.false_ne_true,
        fun _ => rfl⟩
  · -- a `Generic` helper: the arrays are captured as they are
    rename_i id hh
    rw [hh] at hls
    have hslots := State.slots_of_generic hh
    have hu : ∀ g : Generic V, ({ g with locked := true } : Generic V).slots = g.slots :=
      fun _ => rfl
    refine runInvalidations_inv (hinv.modify id hu) (FrameOk.of_same ?_ (sameLists_modify s id hu))
      rfl rfl
    refine ⟨fun kind => ?_, fun kind aid hv => ?_, fun kind aid _ _ _ => ?_⟩
    · apply calls_registered hlive
      have hnext : ∀ kind, Frame.next (⟨id, (s.object id).slots, .invalidations 0,
          s.newRecord⟩ : Frame L) kind = 0 := by
        intro kind
        cases kind <;> rfl
      rw [hnext]
      exact rest_zero (hls.2 kind)
    · exact (hls.2 kind).valid hv
    · rw [hslots]

end Loops

end JavaFx.Binding.ExpressionHelper
