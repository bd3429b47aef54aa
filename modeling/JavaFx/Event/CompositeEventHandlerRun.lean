/-
Dispatches along a list that the handlers edit.

Every method edits the list by taking out registered records and putting new ones behind
the last one (`Edit`), and `Since` says what is left of an earlier state after such edits:
the list is in order, and the links of the records that were taken out lead on to what
there was before.

So a dispatch finds all that is in front of it as long as the record it stands at is in the
list or was taken out once. If a handler removes its own record and then the next one, the
dispatch goes on to a record that was removed, and calls it. `Spared` says that this does not
happen, and then all is right (`dispatches_right`).
-/
import Mathlib.Logic.Relation
import JavaFx.Event.CompositeEventHandler

set_option autoImplicit false

namespace JavaFx.Event

open JavaFx.Lib Relation

namespace CompositeEventHandler

variable {s s' s₀ : CompositeEventHandler} {record r x : ℕ}

/-! ## The links -/

theorem setNext_links (s : CompositeEventHandler) : ∀ record nextRecord : Option ℕ,
    (s.setNext record nextRecord).links
      = ⟨Function.update s.links.after record nextRecord, s.links.before⟩
  | none, nextRecord => by
    refine congrArg₂ Links.mk (funext fun o => ?_) rfl
    cases o <;> simp [setNext, links]
  | some r, nextRecord => by
    refine congrArg₂ Links.mk (funext fun o => ?_) (funext fun o => ?_)
    · rcases o with - | q
      · simp [setNext, links]
      · by_cases hq : q = r <;> simp [setNext, links, hq]
    · rcases o with - | q
      · rfl
      · by_cases hq : q = r <;> simp [setNext, links, hq]

theorem setPrev_links (s : CompositeEventHandler) : ∀ record prevRecord : Option ℕ,
    (s.setPrev record prevRecord).links
      = ⟨s.links.after, Function.update s.links.before record prevRecord⟩
  | none, prevRecord => by
    refine congrArg₂ Links.mk rfl (funext fun o => ?_)
    cases o <;> simp [setPrev, links]
  | some r, prevRecord => by
    refine congrArg₂ Links.mk (funext fun o => ?_) (funext fun o => ?_)
    · rcases o with - | q
      · rfl
      · by_cases hq : q = r <;> simp [setPrev, links, hq]
    · rcases o with - | q
      · simp [setPrev, links]
      · by_cases hq : q = r <;> simp [setPrev, links, hq]

theorem remove_links (s : CompositeEventHandler) (record : ℕ) :
    (s.remove record).links = s.links.unlink record := by
  change (((s.setNext _ _).setPrev _ _).links) = _
  rw [setPrev_links, setNext_links]
  rfl

theorem records_links (s : CompositeEventHandler) (record count : ℕ)
    (newRecord : EventProcessorRecord) :
    ({ s with records := Function.update s.records record newRecord, count } :
      CompositeEventHandler).links
      = ⟨Function.update s.links.after (some record) newRecord.nextRecord,
          Function.update s.links.before (some record) newRecord.prevRecord⟩ := by
  refine congrArg₂ Links.mk (funext fun o => ?_) (funext fun o => ?_)
  · rcases o with - | q
    · simp [links]
    · by_cases hq : q = record <;> simp [links, hq]
  · rcases o with - | q
    · simp [links]
    · by_cases hq : q = record <;> simp [links, hq]

theorem append_links (s : CompositeEventHandler) (eventProcessor : EventHandler)
    (isFilter : Bool) :
    (s.append s.lastRecord eventProcessor isFilter).links
      = s.links.link (s.links.before none) s.count := by
  have hnext : s.nextOf s.lastRecord = s.links.after s.lastRecord := by
    cases s.lastRecord <;> rfl
  rw [CompositeEventHandler.append.eq_def]
  dsimp only
  rw [records_links, setPrev_links, setNext_links, hnext]
  rfl

section Fields

variable (s) (record : ℕ) (o o' : Option ℕ) (eventProcessor : EventHandler) (isFilter : Bool)

@[simp] theorem setNext_count : (s.setNext o o').count = s.count := by cases o <;> rfl

@[simp] theorem setPrev_count : (s.setPrev o o').count = s.count := by cases o <;> rfl

@[simp] theorem setNext_removed : (s.setNext o o').removed = s.removed := by cases o <;> rfl

@[simp] theorem setPrev_removed : (s.setPrev o o').removed = s.removed := by cases o <;> rfl

theorem setNext_stored (r : ℕ) :
    ((s.setNext o o').records r).isFilter = (s.records r).isFilter
      ∧ ((s.setNext o o').records r).eventProcessor = (s.records r).eventProcessor := by
  rcases o with - | q
  · exact ⟨rfl, rfl⟩
  · by_cases hq : r = q <;> simp [setNext, hq]

theorem setPrev_stored (r : ℕ) :
    ((s.setPrev o o').records r).isFilter = (s.records r).isFilter
      ∧ ((s.setPrev o o').records r).eventProcessor = (s.records r).eventProcessor := by
  rcases o with - | q
  · exact ⟨rfl, rfl⟩
  · by_cases hq : r = q <;> simp [setPrev, hq]

@[simp] theorem remove_count : (s.remove record).count = s.count := by simp [remove]

@[simp] theorem remove_removed : (s.remove record).removed = record :: s.removed := by
  simp [remove]

@[simp] theorem append_count : (s.append o eventProcessor isFilter).count = s.count + 1 := rfl

@[simp] theorem append_removed : (s.append o eventProcessor isFilter).removed = s.removed := by
  simp [append]

/-- The links are all that is changed in a record. -/
theorem remove_stored (r : ℕ) :
    ((s.remove record).records r).isFilter = (s.records r).isFilter
      ∧ ((s.remove record).records r).eventProcessor = (s.records r).eventProcessor := by
  have hnext := (s.setNext_stored (s.records record).prevRecord (s.records record).nextRecord r)
  have hprev := ((s.setNext (s.records record).prevRecord
    (s.records record).nextRecord).setPrev_stored (s.records record).nextRecord
      (s.records record).prevRecord r)
  exact ⟨hprev.1.trans hnext.1, hprev.2.trans hnext.2⟩

theorem append_isFilter {r : ℕ} (hr : r < s.count) :
    ((s.append o eventProcessor isFilter).records r).isFilter = (s.records r).isFilter := by
  have hne : r ≠ s.count := hr.ne
  rw [CompositeEventHandler.append.eq_def]
  dsimp only
  rw [Function.update_of_ne hne]
  exact ((setPrev_stored _ _ _ r).1).trans (setNext_stored _ _ _ r).1

end Fields

/-! ## The registered records -/

theorem mem_registered : r ∈ s.registered ↔ r < s.count ∧ r ∉ s.removed := by
  simp [registered]

theorem registered_sorted (s : CompositeEventHandler) : s.registered.Pairwise (· < ·) :=
  List.pairwise_lt_range.filter _

theorem registered_nodup (s : CompositeEventHandler) : s.registered.Nodup :=
  s.registered_sorted.imp ne_of_lt

theorem registered_remove {a b : List ℕ} (h : s.registered = a ++ record :: b) :
    (s.remove record).registered = a ++ b := by
  have hnodup := s.registered_nodup
  have hfilter : (s.remove record).registered = s.registered.filter (· ≠ record) := by
    rw [registered, registered, remove_count, remove_removed, List.filter_filter]
    exact List.filter_congr fun r _ => by simp [not_or, eq_comm]
  rw [hfilter, h]
  rw [h] at hnodup
  have ha : ∀ r ∈ a, r ≠ record := fun r hr heq =>
    (List.nodup_append.mp hnodup).2.2 r hr record List.mem_cons_self heq
  have hb : ∀ r ∈ b, r ≠ record := fun r hr heq =>
    (List.nodup_cons.mp (List.nodup_append.mp hnodup).2.1).1 (heq ▸ hr)
  rw [List.filter_append, List.filter_cons_of_neg (by simp),
    List.filter_eq_self.mpr (by simpa using ha), List.filter_eq_self.mpr (by simpa using hb)]

theorem registered_append (h : s.count ∉ s.removed) (o : Option ℕ) (eventProcessor : EventHandler)
    (isFilter : Bool) :
    (s.append o eventProcessor isFilter).registered = s.registered ++ [s.count] := by
  rw [registered, append_count, append_removed, List.range_succ, List.filter_append, registered,
    List.filter_cons_of_pos (by simpa using h), List.filter_nil]

/-! ## Edits -/

/-- What is done to the list at once. -/
inductive Edit : CompositeEventHandler → CompositeEventHandler → Prop
  | remove (s : CompositeEventHandler) (record : ℕ) (h : record ∈ s.registered) : Edit s (s.remove record)
  | append (s : CompositeEventHandler) (eventProcessor : EventHandler) (isFilter : Bool) :
      Edit s (s.append s.lastRecord eventProcessor isFilter)
  | setEventHandler (s : CompositeEventHandler) (eventHandler : Option EventHandler) :
      Edit s (s.setEventHandler eventHandler)

/-- The list is in order. -/
structure Wf (s : CompositeEventHandler) : Prop where
  linked : s.Linked
  removed_lt : ∀ r ∈ s.removed, r < s.count

/-- A list in order that comes from an earlier one by edits. -/
structure Since (s₀ s : CompositeEventHandler) : Prop extends Wf s where
  count_le : s₀.count ≤ s.count
  removed_subset : s₀.removed ⊆ s.removed
  isFilter_eq : ∀ r < s₀.count, (s.records r).isFilter = (s₀.records r).isFilter
  frozen : s.links.Frozen s.registered {r | r ∈ s.removed ∧ r ∉ s₀.removed}
    {r | r ∈ s₀.registered}

theorem wf_new : new.Wf := ⟨Links.holds_nil rfl rfl, nofun⟩

theorem Wf.since (h : s.Wf) : Since s s where
  toWf := h
  count_le := le_rfl
  removed_subset := List.Subset.refl _
  isFilter_eq := fun _ _ => rfl
  frozen := fun _ hr => absurd hr.1 hr.2

theorem Since.edit (h : Since s₀ s) (hedit : Edit s s') : Since s₀ s' := by
  have hgone : ∀ r ∈ {r | r ∈ s.removed ∧ r ∉ s₀.removed}, r ∉ s.registered :=
    fun r hr hmem => (mem_registered.mp hmem).2 hr.1
  cases hedit with
  | setEventHandler eventHandler => exact { h with }
  | remove record hrecord =>
    obtain ⟨a, b, hab⟩ := List.append_of_mem hrecord
    have hlinked := h.linked
    have hfrozen := h.frozen
    have hsorted := s.registered_sorted
    have hrecord₀ := (mem_registered.mp hrecord)
    rw [Linked, hab] at hlinked
    rw [hab] at hfrozen hsorted hgone
    refine ⟨⟨?_, ?_⟩, ?_, ?_, ?_, ?_⟩
    · rw [Linked, remove_links, registered_remove hab]
      exact hlinked.unlink (hsorted.imp ne_of_lt)
    · intro r hr
      rw [remove_removed] at hr
      rw [remove_count]
      rcases List.mem_cons.mp hr with rfl | hr
      · exact hrecord₀.1
      · exact h.removed_lt r hr
    · rw [remove_count]
      exact h.count_le
    · rw [remove_removed]
      exact fun r hr => List.mem_cons_of_mem _ (h.removed_subset hr)
    · exact fun r hr => ((s.remove_stored record r).1).trans (h.isFilter_eq r hr)
    · have hset : {r | r ∈ (s.remove record).removed ∧ r ∉ s₀.removed}
          = insert record {r | r ∈ s.removed ∧ r ∉ s₀.removed} := by
        ext r
        have hnot : record ∉ s₀.removed := fun hmem => hrecord₀.2 (h.removed_subset hmem)
        by_cases hr : r = record <;> simp [hr, hnot]
      rw [remove_links, registered_remove hab, hset]
      exact hfrozen.unlink hlinked hsorted hgone
  | append eventProcessor isFilter =>
    have hfresh : s.count ∉ s.removed := fun hmem => lt_irrefl _ (h.removed_lt _ hmem)
    have hregistered := registered_append hfresh s.lastRecord eventProcessor isFilter
    have hnodup := (s.append s.lastRecord eventProcessor isFilter).registered_nodup
    rw [hregistered] at hnodup
    refine ⟨⟨?_, ?_⟩, ?_, ?_, ?_, ?_⟩
    · rw [Linked, append_links, hregistered]
      exact h.linked.link_last hnodup
    · intro r hr
      rw [append_removed] at hr
      exact Nat.lt_succ_of_lt (h.removed_lt r hr)
    · exact h.count_le.trans (Nat.le_succ _)
    · rw [append_removed]
      exact h.removed_subset
    · intro r hr
      exact (append_isFilter _ _ _ _ (hr.trans_le h.count_le)).trans (h.isFilter_eq r hr)
    · rw [append_links, hregistered, append_removed]
      refine h.frozen.link_last h.linked hgone (fun hold => ?_) (fun hmem => hfresh hmem.1)
      exact absurd (mem_registered.mp hold).1 (not_lt.mpr h.count_le)

/-- The list stays in order over edits. -/
theorem Since.edits (h : Since s₀ s) (hedits : ReflTransGen Edit s s') : Since s₀ s' := by
  induction hedits with
  | refl => exact h
  | tail _ hedit ih => exact ih.edit hedit

/-! ## The methods edit -/

theorem remove_stores (s : CompositeEventHandler) (record r : ℕ) (eventProcessor : EventHandler)
    (isFilter : Bool) :
    (s.remove record).stores r eventProcessor isFilter = s.stores r eventProcessor isFilter := by
  rw [stores, stores, (s.remove_stored record r).1, (s.remove_stored record r).2]

/-- What a search finds that has left the records `passed` behind it. -/
structure Finds (s : CompositeEventHandler) (eventProcessor : EventHandler) (isFilter : Bool)
    (passed : List ℕ) (found : CompositeEventHandler × Option ℕ) : Prop where
  edits : ReflTransGen Edit s found.1
  stores : ∀ r ∈ found.2, r ∈ found.1.registered ∧ s.stores r eventProcessor isFilter
  not_stores : found.2 = none →
    ∀ r ∈ found.1.registered, r ∈ passed ∨ ¬ s.stores r eventProcessor isFilter

/-- `find` takes out the records that have lost their handler on its way, and has enough fuel
to come to the record, or to the end. -/
theorem find_loop_spec (collected : ℕ → Bool) (eventProcessor : EventHandler) (isFilter : Bool)
    (fuel : ℕ) : ∀ (s : CompositeEventHandler) (a b : List ℕ), s.Wf → s.registered = a ++ b →
      b.length ≤ fuel → Finds s eventProcessor isFilter a
        (find.loop collected eventProcessor isFilter fuel b.head? s) := by
  induction fuel with
  | zero =>
    intro s a b _ hab hlen
    obtain rfl := List.length_eq_zero_iff.mp (Nat.le_zero.mp hlen)
    rw [List.append_nil] at hab
    exact ⟨.refl, nofun, fun _ r hr => .inl (hab ▸ hr)⟩
  | succ fuel ih =>
    intro s a b hwf hab hlen
    cases b with
    | nil =>
      rw [List.append_nil] at hab
      exact ⟨.refl, nofun, fun _ r hr => .inl (hab ▸ hr)⟩
    | cons r b =>
      have hr : r ∈ s.registered := by rw [hab]; exact List.mem_append_right _ List.mem_cons_self
      have hlinked := hwf.linked
      have hnodup := s.registered_nodup
      rw [Linked, hab] at hlinked
      rw [hab] at hnodup
      have hnext : (s.records r).nextRecord = b.head? := hlinked.after_of
      have hafter : ((s.remove r).records r).nextRecord = b.head? := by
        change (s.remove r).links.after (some r) = _
        rw [remove_links]
        exact hlinked.unlink_after hnodup
      have hlen' : b.length ≤ fuel := Nat.le_of_succ_le_succ hlen
      rw [List.head?_cons, find.loop]
      split_ifs with hdisconnected hstores
      · -- the handler is gone
        dsimp only
        rw [hafter]
        have hedit := Edit.remove s r hr
        have hfinds := ih (s.remove r) a b (hwf.since.edit hedit).toWf (registered_remove hab)
          hlen'
        refine ⟨.head hedit hfinds.edits, fun w hw => ?_, fun hnone w hw => ?_⟩
        · rw [← remove_stores s r]
          exact hfinds.stores w hw
        · rw [← remove_stores s r]
          exact hfinds.not_stores hnone w hw
      · exact ⟨.refl, fun w hw => Option.some.inj hw ▸ ⟨hr, hstores⟩, nofun⟩
      · rw [hnext]
        have hfinds := ih s (a ++ [r]) b hwf (hab.trans (by simp)) hlen'
        refine ⟨hfinds.edits, hfinds.stores, fun hnone w hw => ?_⟩
        rcases hfinds.not_stores hnone w hw with hmem | hnot
        · rcases List.mem_append.mp hmem with hmem | hmem
          · exact .inl hmem
          · exact .inr (List.mem_singleton.mp hmem ▸ hstores)
        · exact .inr hnot

theorem find_spec (hwf : s.Wf) (collected : ℕ → Bool) (eventProcessor : EventHandler)
    (isFilter : Bool) : Finds s eventProcessor isFilter []
      (s.find collected eventProcessor isFilter) := by
  have hfirst : s.firstRecord = s.registered.head? := hwf.linked.first
  have hlen : s.registered.length ≤ s.count :=
    (List.length_filter_le _ _).trans_eq List.length_range
  rw [find, hfirst]
  exact find_loop_spec collected eventProcessor isFilter s.count s [] s.registered hwf rfl hlen

theorem add_edits (hwf : s.Wf) (collected : ℕ → Bool) (eventProcessor : EventHandler)
    (isFilter : Bool) : ReflTransGen Edit s (s.add collected eventProcessor isFilter) := by
  have hfinds := find_spec hwf collected eventProcessor isFilter
  rw [add]
  generalize s.find collected eventProcessor isFilter = found at hfinds ⊢
  rcases found with ⟨s', - | r⟩
  · exact hfinds.edits.tail (.append s' eventProcessor isFilter)
  · exact hfinds.edits

theorem drop_edits (hwf : s.Wf) (collected : ℕ → Bool) (eventProcessor : EventHandler)
    (isFilter : Bool) : ReflTransGen Edit s (s.drop collected eventProcessor isFilter) := by
  have hfinds := find_spec hwf collected eventProcessor isFilter
  rw [drop]
  generalize s.find collected eventProcessor isFilter = found at hfinds ⊢
  rcases found with ⟨s', - | r⟩
  · exact hfinds.edits
  · exact hfinds.edits.tail (.remove s' r (hfinds.stores r rfl).1)

theorem perform_edits (hwf : s.Wf) (action : Action) : ReflTransGen Edit s (s.perform action) := by
  cases action with
  | addEventHandler collected eventHandler => exact add_edits hwf collected eventHandler false
  | removeEventHandler collected eventHandler => exact drop_edits hwf collected eventHandler false
  | addEventFilter collected eventFilter => exact add_edits hwf collected eventFilter true
  | removeEventFilter collected eventFilter => exact drop_edits hwf collected eventFilter true
  | setEventHandler eventHandler => exact .single (.setEventHandler s eventHandler)

theorem performAll_edits (hwf : s.Wf) (actions : List Action) :
    ReflTransGen Edit s (s.performAll actions) := by
  induction actions generalizing s with
  | nil => exact .refl
  | cons action actions ih =>
    have hedits := perform_edits hwf action
    exact hedits.trans (ih (hwf.since.edits hedits).toWf)

/-- What was registered of the earlier records is registered no longer, or still is. -/
theorem Since.registered_of (h : Since s₀ s) (hr : r ∈ s.registered) (hlt : r < s₀.count) :
    r ∈ s₀.registered :=
  mem_registered.mpr ⟨hlt, fun hmem => (mem_registered.mp hr).2 (h.removed_subset hmem)⟩

end CompositeEventHandler

open CompositeEventHandler

namespace Dispatch

variable {isFilter : Bool} {s₀ s' : CompositeEventHandler} {d : Dispatch} {r : ℕ}

/-! ## A dispatch -/

/-- When the dispatch comes to a record that has been removed it passes it over: it is a
filter among handlers, or a handler among filters, and not one that has lost its handler. -/
def Spared (isFilter : Bool) : Dispatch → List Turn → Prop
  | _, [] => True
  | d, t :: turns =>
    (∀ r ∈ d.record, r ∈ d.handler.removed →
      d.handler.isDisconnected t.collected r = false ∧ (d.handler.records r).isFilter ≠ isFilter)
    ∧ Spared isFilter (d.turn isFilter t) turns

/-- The dispatch stands at a record that is or was in the list, it has called records in
order, and all that is left to call is in front of it. -/
structure Walking (isFilter : Bool) (s₀ : CompositeEventHandler) (d : Dispatch) : Prop where
  since : Since s₀ d.handler
  here : ∀ r ∈ d.record, r ∈ d.handler.registered
    ∨ r ∈ {r | r ∈ d.handler.removed ∧ r ∉ s₀.removed}
  ordered : d.calls.Pairwise (· < ·)
  behind : ∀ r ∈ d.record, ∀ c ∈ d.calls, c < r
  ahead : ∀ w ∈ d.handler.registered, w ∈ s₀.registered → (s₀.records w).isFilter = isFilter →
    w ∈ d.calls ∨ ∃ r ∈ d.record, r ≤ w

theorem walking_start (hwf : s₀.Wf) : Walking isFilter s₀ (start s₀) where
  since := hwf.since
  here := fun r hr => by
    have hfirst : s₀.firstRecord = s₀.registered.head? := hwf.linked.first
    exact .inl (List.mem_of_head? (hfirst ▸ hr))
  ordered := .nil
  behind := fun _ _ => nofun
  ahead := fun w hw _ _ => .inr (hwf.linked.ahead_first s₀.registered_sorted hw)

/-- The dispatch goes on from the record, with the link it has by then. -/
theorem Walking.advance (h : Walking isFilter s₀ d) (hr : r ∈ d.record)
    (hedits : ReflTransGen Edit d.handler s') {calls : List ℕ}
    (hcalls : calls = d.calls ∨ calls = d.calls ++ [r])
    (hcalled : r ∈ s'.registered → r ∈ s₀.registered → (s₀.records r).isFilter = isFilter →
      r ∈ calls) :
    Walking isFilter s₀ ⟨s', (s'.records r).nextRecord, calls⟩ := by
  have hsince := h.since.edits hedits
  have hturn := h.since.toWf.since.edits hedits
  have hsub : d.calls ⊆ calls := by
    rcases hcalls with rfl | rfl
    · exact List.Subset.refl _
    · exact List.subset_append_left _ _
  -- the record may have been taken out, but not before the dispatch
  have hwhere : r ∈ s'.registered ∨ r ∈ {r | r ∈ s'.removed ∧ r ∉ s₀.removed} := by
    by_cases hremoved : r ∈ s'.removed
    · refine .inr ⟨hremoved, ?_⟩
      rcases h.here r hr with hmem | hmem
      · exact fun h₀ => (mem_registered.mp hmem).2 (h.since.removed_subset h₀)
      · exact hmem.2
    · rcases h.here r hr with hmem | hmem
      · exact .inl (mem_registered.mpr
          ⟨(mem_registered.mp hmem).1.trans_le hturn.count_le, hremoved⟩)
      · exact absurd (hturn.removed_subset hmem.1) hremoved
  have hnext : (∀ n ∈ (s'.records r).nextRecord, r < n
        ∧ (n ∈ s'.registered ∨ n ∈ {r | r ∈ s'.removed ∧ r ∉ s₀.removed}))
      ∧ ∀ w ∈ s'.registered, w ∈ s₀.registered → r < w →
        ∃ n ∈ (s'.records r).nextRecord, n ≤ w := by
    rcases hwhere with hmem | hmem
    · obtain ⟨hnext, hahead⟩ := hsince.linked.ahead s'.registered_sorted hmem
      exact ⟨fun n hn => ⟨(hnext n hn).1, .inl (hnext n hn).2⟩, fun w hw _ => hahead w hw⟩
    · exact hsince.frozen r hmem
  refine ⟨hsince, fun n hn => (hnext.1 n hn).2, ?_, fun n hn c hc => ?_, fun w hw hw₀ hkind => ?_⟩
  · rcases hcalls with rfl | rfl
    · exact h.ordered
    · exact List.pairwise_append.mpr ⟨h.ordered, List.pairwise_singleton _ _,
        fun c hc _ hmem => List.mem_singleton.mp hmem ▸ h.behind r hr c hc⟩
  · have hle : c ≤ r := by
      rcases hcalls with rfl | rfl
      · exact (h.behind r hr c hc).le
      · rcases List.mem_append.mp hc with hc | hc
        · exact (h.behind r hr c hc).le
        · exact (List.mem_singleton.mp hc).le
    exact hle.trans_lt (hnext.1 n hn).1
  · have hwd := hturn.registered_of hw ((mem_registered.mp hw₀).1.trans_le h.since.count_le)
    rcases h.ahead w hwd hw₀ hkind with hcall | ⟨r', hr', hle⟩
    · exact .inl (hsub hcall)
    · obtain rfl : r = r' := Option.some.inj (hr.symm.trans hr')
      rcases hle.eq_or_lt with rfl | hlt
      · exact .inl (hcalled hw hw₀ hkind)
      · exact .inr (hnext.2 w hw hw₀ hlt)

/-- A turn makes one step. -/
theorem Walking.turn (h : Walking isFilter s₀ d) {t : Turn}
    (hspared : ∀ r ∈ d.record, r ∈ d.handler.removed →
      d.handler.isDisconnected t.collected r = false
        ∧ (d.handler.records r).isFilter ≠ isFilter) :
    Walking isFilter s₀ (d.turn isFilter t) := by
  rw [Dispatch.turn.eq_def]
  cases hrecord : d.record with
  | none => exact h
  | some r =>
    dsimp only
    split_ifs with hdisconnected hkind
    · -- the record is in the list, as it is not passed over
      have hmem : r ∈ d.handler.registered := by
        rcases h.here r hrecord with hmem | hmem
        · exact hmem
        · exact absurd hdisconnected (by simp [(hspared r hrecord hmem.1).1])
      refine h.advance hrecord (.single (.remove _ r hmem)) (.inl rfl) (fun hr => ?_)
      exact absurd (List.mem_cons_self) (remove_removed d.handler r ▸ (mem_registered.mp hr).2)
    · refine h.advance hrecord (performAll_edits h.since.toWf t.actions) (.inr rfl) ?_
      exact fun _ _ _ => List.mem_append_right _ (List.mem_singleton_self r)
    · refine h.advance hrecord .refl (.inl rfl) (fun _ hr₀ hkind₀ => ?_)
      exact absurd ((h.since.isFilter_eq r (mem_registered.mp hr₀).1).trans hkind₀) hkind

theorem Walking.run (turns : List Turn) (h : Walking isFilter s₀ d)
    (hspared : Spared isFilter d turns) : Walking isFilter s₀ (d.run isFilter turns) := by
  induction turns generalizing d with
  | nil => exact h
  | cons t turns ih => exact ih (h.turn hspared.1) hspared.2

theorem spared_append (before : List Turn) {after : List Turn}
    (h : Spared isFilter d (before ++ after)) :
    Spared isFilter d before ∧ Spared isFilter (d.run isFilter before) after := by
  induction before generalizing d with
  | nil => exact ⟨trivial, h⟩
  | cons t before ih => exact ⟨⟨h.1, (ih h.2).1⟩, (ih h.2).2⟩

/-- What a turn does to the calls. -/
theorem turn_calls (isFilter : Bool) (d : Dispatch) (t : Turn) :
    (d.turn isFilter t).calls = d.calls
      ∨ ∃ r ∈ d.record, (d.turn isFilter t).calls = d.calls ++ [r]
        ∧ (d.handler.records r).isFilter = isFilter := by
  rw [turn.eq_def]
  cases d.record with
  | none => exact .inl rfl
  | some r =>
    dsimp only
    split_ifs with hdisconnected hkind
    · exact .inl rfl
    · exact .inr ⟨r, rfl, rfl, hkind⟩
    · exact .inl rfl

theorem turn_calls_subset (d : Dispatch) (t : Turn) : d.calls ⊆ (d.turn isFilter t).calls := by
  rcases turn_calls isFilter d t with heq | ⟨r, -, heq, -⟩ <;> rw [heq]
  · exact List.Subset.refl _
  · exact List.subset_append_left _ _

theorem run_calls_subset (turns : List Turn) (d : Dispatch) :
    d.calls ⊆ (d.run isFilter turns).calls := by
  induction turns generalizing d with
  | nil => exact List.Subset.refl _
  | cons t turns ih => exact fun r hr => ih _ (d.turn_calls_subset t hr)

/-- A registered record is called in the end, or it is removed, and no record behind it was
called before that. -/
theorem Walking.called (turns : List Turn) {w : ℕ} (h : Walking isFilter s₀ d)
    (hspared : Spared isFilter d turns) (hend : (d.run isFilter turns).record = none)
    (hw : w ∈ d.handler.registered) (hw₀ : w ∈ s₀.registered)
    (hkind : (s₀.records w).isFilter = isFilter) :
    w ∈ (d.run isFilter turns).calls ∨ ∃ before after, turns = before ++ after
      ∧ w ∉ (d.run isFilter before).handler.registered
      ∧ ∀ c ∈ (d.run isFilter before).calls, c < w := by
  induction turns generalizing d with
  | nil =>
    rcases h.ahead w hw hw₀ hkind with hcall | ⟨r, hr, -⟩
    · exact .inl hcall
    · exact absurd (hr.symm.trans hend) nofun
  | cons t turns ih =>
    have hturn := h.turn hspared.1
    by_cases hcall : w ∈ (d.turn isFilter t).calls
    · exact .inl (run_calls_subset turns _ hcall)
    by_cases hstays : w ∈ (d.turn isFilter t).handler.registered
    · rcases ih hturn hspared.2 hend hstays with hcall | ⟨before, after, rfl, hnot, hbefore⟩
      · exact .inl hcall
      · exact .inr ⟨t :: before, after, rfl, hnot, hbefore⟩
    · -- it is removed in this turn, in which the dispatch has not come to it
      refine .inr ⟨[t], turns, rfl, hstays, fun c hc => ?_⟩
      change c ∈ (d.turn isFilter t).calls at hc
      rcases h.ahead w hw hw₀ hkind with hmem | ⟨r, hr, hle⟩
      · exact absurd (d.turn_calls_subset t hmem) hcall
      rcases turn_calls isFilter d t with heq | ⟨r', hr', heq, -⟩
      · exact (h.behind r hr c (heq ▸ hc)).trans_le hle
      · obtain rfl : r = r' := Option.some.inj (hr.symm.trans hr')
        rw [heq] at hc hcall
        have hne : r ≠ w := fun hrw =>
          hcall (List.mem_append_right _ (List.mem_singleton.mpr hrw.symm))
        rcases List.mem_append.mp hc with hc | hc
        · exact (h.behind r hr c hc).trans_le hle
        · exact List.mem_singleton.mp hc ▸ lt_of_le_of_ne hle hne

/-- What is right of a dispatch: it calls records in the order of their registration, none
twice and none that has been removed before its turn. If it comes to the end, the records
that it has not called were removed before a record behind them was called. It leaves a list
of the records that are registered. -/
structure Right (isFilter : Bool) (s : CompositeEventHandler) (turns : List Turn) : Prop where
  ordered : ((start s).run isFilter turns).calls.Pairwise (· < ·)
  live : ∀ before t after, turns = before ++ t :: after →
    ∀ r ∈ (((start s).run isFilter before).turn isFilter t).calls,
      r ∉ ((start s).run isFilter before).calls →
        r ∈ ((start s).run isFilter before).handler.registered
  called : ((start s).run isFilter turns).record = none →
    ∀ w ∈ s.registered, (s.records w).isFilter = isFilter →
      w ∈ ((start s).run isFilter turns).calls ∨ ∃ before after, turns = before ++ after
        ∧ w ∉ ((start s).run isFilter before).handler.registered
        ∧ ∀ c ∈ ((start s).run isFilter before).calls, c < w
  linked : ((start s).run isFilter turns).handler.Linked

theorem right_of_spared {s : CompositeEventHandler} (hwf : s.Wf) {turns : List Turn}
    (hspared : Spared isFilter (start s) turns) : Right isFilter s turns where
  ordered := ((walking_start hwf).run turns hspared).ordered
  live := by
    rintro before t after rfl r hr hnot
    obtain ⟨hbefore, hat⟩ := spared_append before hspared
    have hwalking : Walking isFilter s _ := (walking_start hwf).run before hbefore
    rcases turn_calls isFilter ((start s).run isFilter before) t
      with heq | ⟨r', hr', heq, hkind⟩
    · exact absurd (heq ▸ hr) hnot
    · rw [heq] at hr
      obtain rfl : r = r' := List.mem_singleton.mp ((List.mem_append.mp hr).resolve_left hnot)
      exact (hwalking.here r hr').resolve_right fun hgone => (hat.1 r hr' hgone.1).2 hkind
  called := fun hend w hw hkind =>
    (walking_start hwf).called turns hspared hend hw hw hkind
  linked := ((walking_start hwf).run turns hspared).since.linked

end Dispatch

namespace CompositeEventHandler

/-! ## All calls -/

/-- In the dispatches that are called nothing removed is come to. -/
def Spared (s : CompositeEventHandler) : List Call → Prop
  | [] => True
  | .perform action :: calls => (s.call (.perform action)).Spared calls
  | .dispatchBubblingEvent turns actions :: calls =>
    Dispatch.Spared false (.start s) turns
      ∧ (s.call (.dispatchBubblingEvent turns actions)).Spared calls
  | .dispatchCapturingEvent turns :: calls =>
    Dispatch.Spared true (.start s) turns
      ∧ (s.call (.dispatchCapturingEvent turns)).Spared calls

theorem callAll_wf (calls : List Call) {s : CompositeEventHandler} (hwf : s.Wf)
    (hspared : s.Spared calls) : (s.callAll calls).Wf := by
  induction calls generalizing s with
  | nil => exact hwf
  | cons call calls ih =>
    cases call with
    | perform action => exact ih (hwf.since.edits (perform_edits hwf action)).toWf hspared
    | dispatchCapturingEvent turns =>
      have hrun := (Dispatch.walking_start hwf).run turns hspared.1
      exact ih hrun.since.toWf hspared.2
    | dispatchBubblingEvent turns actions =>
      have hrun := (Dispatch.walking_start hwf).run turns hspared.1
      refine ih ?_ hspared.2
      rw [call, dispatchBubblingEvent]
      split_ifs
      · exact (hrun.since.edits (performAll_edits hrun.since.toWf actions)).toWf
      · exact hrun.since.toWf

/-- **Dispatching.** Whatever was done with the handlers before, and whatever the handlers do
that are called: the list is the list of the registered records, and the dispatch is right,
if no dispatch comes to a record that was removed. -/
theorem dispatches_right (calls : List Call) (hcalls : new.Spared calls) (isFilter : Bool)
    (turns : List Turn) (hturns : Dispatch.Spared isFilter (.start (new.callAll calls)) turns) :
    (new.callAll calls).Linked ∧ Dispatch.Right isFilter (new.callAll calls) turns :=
  have hwf := callAll_wf calls wf_new hcalls
  ⟨hwf.linked, Dispatch.right_of_spared hwf hturns⟩

/-- Two handlers. -/
def twoHandlers : List Call :=
  [.perform (.addEventHandler (fun _ => false) (.normal 0)),
    .perform (.addEventHandler (fun _ => false) (.normal 1))]

/-- The first one removes itself. -/
def removesItself : List Turn :=
  [⟨fun _ => false, [.removeEventHandler (fun _ => false) (.normal 0)]⟩, ⟨fun _ => false, []⟩]

theorem dispatches_right_removesItself :
    (new.callAll twoHandlers).Linked
      ∧ Dispatch.Right false (new.callAll twoHandlers) removesItself :=
  dispatches_right twoHandlers trivial false removesItself
    ⟨fun r hr hremoved => by
        obtain rfl : 0 = r := Option.some.inj hr
        exact absurd hremoved (by decide),
      fun r hr hremoved => by
        obtain rfl : 1 = r := Option.some.inj hr
        exact absurd hremoved (by decide), trivial⟩

/-- The first one removes itself and then the other one. -/
def removesBoth : List Turn :=
  [⟨fun _ => false, [.removeEventHandler (fun _ => false) (.normal 0),
      .removeEventHandler (fun _ => false) (.normal 1)]⟩, ⟨fun _ => false, []⟩]

/-- The other one is called none the less. -/
theorem dispatches_not_right : ¬ ∀ (calls : List Call) (isFilter : Bool) (turns : List Turn),
    (new.callAll calls).Linked ∧ Dispatch.Right isFilter (new.callAll calls) turns := by
  intro h
  have hlive := (h twoHandlers false removesBoth).2.live [_] _ [] rfl 1 (by decide) (by decide)
  revert hlive
  decide

end CompositeEventHandler

end JavaFx.Event
