/-
What `endChange` fires, and that a listener can rebuild the list from it.

`replay final l cs` is what the documentation of `ListChangeListener.Change`
promises a listener: going through the add/remove sub-changes in order, the
removed elements of each are found in `l` at its position and give way to what
the final list has in `[from, to)`. A list that `Tracks` relates to the list as
it was replays it to the list as it is, and `commit`, which merges touching
sub-changes and replaces `null` lists of removed elements, keeps the relation.

The file ends with the sessions that only add and remove: without a permutation
no `null` list arises, so the condition on such a session is that each of its
removals is clean.
-/
import JavaFx.Collections.ListChangeSession

set_option autoImplicit false

namespace JavaFx.ListChangeBuilder

open JavaFx.Lib

variable {E : Type}

/-! ## Replaying a change -/

section Replay

variable [DecidableEq E]

/-- One sub-change, replayed on `l`: its removed elements are found at `from`
and are replaced by `final[from, to)`. -/
def replayOne (final l : List E) (c : SubChange E) : Option (List E) :=
  let at' := c.fromIdx.toNat
  let removed := c.removed.getD []
  if 0 ≤ c.fromIdx ∧ c.fromIdx ≤ c.toIdx ∧ c.toIdx ≤ final.length ∧ at' ≤ l.length
      ∧ (l.drop at').take removed.length = removed then
    some (l.take at' ++ ((final.take c.toIdx.toNat).drop at' ++ l.drop (at' + removed.length)))
  else none

/-- The sub-changes, replayed one after the other. -/
def replay (final l : List E) : List (SubChange E) → Option (List E)
  | [] => some l
  | c :: cs =>
    match replayOne final l c with
    | some l' => replay final l' cs
    | none => none

/-- One sub-change between what is already rebuilt and what is not. -/
theorem replayOne_at (P A orig cur : List E) {R : List E} {c : SubChange E}
    (hfrom : c.fromIdx = P.length) (hto : c.toIdx = (P.length + A.length : ℕ))
    (hremoved : c.removed.getD [] = R) :
    replayOne (P ++ (A ++ cur)) (P ++ (R ++ orig)) c = some (P ++ (A ++ orig)) := by
  have hfit : c.toIdx ≤ (P ++ (A ++ cur)).length := by
    simp only [hto, List.length_append]
    push_cast
    omega
  have hto' : (P ++ (A ++ cur)).take (P.length + A.length) = P ++ A := by
    rw [← List.append_assoc, ← List.length_append, List.take_left]
  rw [replayOne, if_pos ⟨by omega, by omega, hfit, by simp [hfrom], by simp [hfrom, hremoved]⟩]
  simp only [hfrom, hto, hremoved, Int.toNat_natCast, hto', List.drop_left, List.take_left,
    ← List.drop_drop]

/-- **A tracked list of sub-changes replays.** -/
theorem Tracks.replay {off : ℕ} {orig cur : List E} {cs : List (SubChange E)}
    (h : Tracks off orig cur cs) (P : List E) (hP : P.length = off) :
    replay (P ++ cur) (P ++ orig) cs = some (P ++ cur) := by
  induction h generalizing P with
  | nil off K => rfl
  | @cons off K R A orig cur c cs hfrom hto hremoved _ _ ih =>
    subst hP
    have hone := replayOne_at (P ++ K) A orig cur
      (by simpa using hfrom) (by simpa using hto) hremoved
    have hrest := ih (P ++ (K ++ A)) (by simp only [List.length_append]; omega)
    simp only [List.append_assoc] at hone hrest
    rw [ListChangeBuilder.replay, hone]
    exact hrest

end Replay

/-- Sub-changes sorted by position. -/
def Sorted (cs : List (SubChange E)) : Prop := cs.Pairwise (fun c d => c.fromIdx ≤ d.fromIdx)

theorem InOrder.sorted {cs : List (SubChange E)} (h : InOrder cs) : Sorted cs := by
  refine h.2.imp_of_mem (fun {c d} hc _ hcd => ?_)
  exact (h.1 c hc).trans hcd

/-! ## `compress` and `finalizeSubChange` -/

section Compress

variable {off : ℕ} {orig cur : List E} {c prev : SubChange E} {cs pre post : List (SubChange E)}

/-- No sub-change with a `null` list of removed elements touches one in front of
it that has a list. `compress` appends the later list to the earlier one. -/
def Compressible (cs : List (SubChange E)) : Prop :=
  cs.IsChain (fun c d => c.toIdx = d.fromIdx → c.removed ≠ none → d.removed ≠ none)

theorem AllRecorded.compressible (h : AllRecorded cs) : Compressible cs := by
  induction cs with
  | nil => exact .nil
  | cons c cs ih =>
    rw [allRecorded_cons] at h
    cases cs with
    | nil => exact .singleton c
    | cons d ds => exact .cons_cons (fun _ _ => (allRecorded_cons.mp h.2).1) (ih h.2)

/-- What a merged sub-change says. -/
theorem absorb_ok (h : prev.removed ≠ none → c.removed ≠ none) :
    ∃ m, prev.absorb c = .ok m ∧ m.fromIdx = prev.fromIdx ∧ m.toIdx = c.toIdx
      ∧ m.removed.getD [] = prev.removed.getD [] ++ c.removed.getD []
      ∧ (m.removed ≠ none → c.removed ≠ none) ∧ m.perm = prev.perm ∧ m.updated = prev.updated := by
  unfold SubChange.absorb
  cases hp : prev.removed with
  | none =>
    cases hc : c.removed with
    | none => exact ⟨_, rfl, rfl, rfl, by simp, by simp, rfl, rfl⟩
    | some r => exact ⟨_, rfl, rfl, rfl, by simp, by simp, rfl, rfl⟩
  | some q =>
    cases hc : c.removed with
    | none => exact absurd hc (h (by simp [hp]))
    | some r => exact ⟨_, rfl, rfl, rfl, by simp, by simp, rfl, rfl⟩

/-- Two touching sub-changes as one. -/
theorem Tracks.merge {m : SubChange E} (h : Tracks off orig cur (prev :: c :: cs))
    (htouch : prev.toIdx = c.fromIdx) (hfrom : m.fromIdx = prev.fromIdx) (hto : m.toIdx = c.toIdx)
    (hremoved : m.removed.getD [] = prev.removed.getD [] ++ c.removed.getD [])
    (hkind : m.perm = [] ∧ m.updated = false) : Tracks off orig cur (m :: cs) := by
  cases h with
  | @cons _ K R A orig cur _ _ hfrom₁ hto₁ hremoved₁ _ htail =>
    obtain ⟨A', o₂, c₂, rfl, rfl, hto₂, htail⟩ := htail.head (by rw [← htouch, hto₁])
    have hjoin : off + K.length + (A ++ A').length = off + K.length + A.length + A'.length := by
      rw [List.length_append]
      omega
    have hmerged : Tracks off (K ++ ((R ++ c.removed.getD []) ++ o₂)) (K ++ ((A ++ A') ++ c₂))
        (m :: cs) :=
      .cons K (R ++ c.removed.getD []) (A ++ A') (hfrom.trans hfrom₁) (by rw [hto, hto₂, hjoin])
        (by rw [hremoved, hremoved₁]) hkind (hjoin ▸ htail)
    simpa only [List.append_assoc] using hmerged

/-- The loop of `compress`, on the sub-changes from the current one on. -/
theorem compress.loop_tracks (h : Tracks off orig cur (prev :: cs))
    (hchain : Compressible (prev :: cs)) :
    ∃ left n, compress.loop prev cs = .ok (left, n) ∧ Tracks off orig cur left := by
  induction cs generalizing off orig cur prev with
  | nil => exact ⟨_, _, rfl, h⟩
  | cons c rest ih =>
    obtain ⟨hpc, hrest⟩ := List.isChain_cons_cons.mp hchain
    rw [compress.loop]
    by_cases htouch : prev.toIdx = c.fromIdx
    · obtain ⟨m, hm, hfrom, hto, hremoved, hsome, hperm, hupdated⟩ := absorb_ok (hpc htouch)
      have hkind := h.kind prev (by simp)
      have hmerged := h.merge htouch hfrom hto hremoved ⟨hperm ▸ hkind.1, hupdated ▸ hkind.2⟩
      have hchain' : Compressible (m :: rest) := by
        cases rest with
        | nil => exact .singleton m
        | cons d ds =>
          obtain ⟨hcd, hds⟩ := List.isChain_cons_cons.mp hrest
          exact .cons_cons (fun htouch' hne => hcd (hto ▸ htouch') (hsome hne)) hds
      obtain ⟨left, n, hloop, htracks⟩ := ih hmerged hchain'
      exact ⟨left, n + 1, by simp [htouch, hm, hloop], htracks⟩
    · cases h with
      | cons K R A hfrom hto hremoved hkind htail =>
        obtain ⟨left, n, hloop, htracks⟩ := ih htail hrest
        exact ⟨prev :: left, n, by simp [htouch, hloop],
          .cons K R A hfrom hto hremoved hkind htracks⟩

@[simp] theorem compressNonEmpty_nil :
    Builder.compressNonEmpty ([] : List (SubChange E)) = .ok ([], 0) := rfl

theorem compressNonEmpty_tracks (h : Tracks off orig cur cs) (hchain : Compressible cs) :
    ∃ left n, Builder.compressNonEmpty cs = .ok (left, n) ∧ Tracks off orig cur left := by
  cases cs with
  | nil => exact ⟨_, _, rfl, h⟩
  | cons c cs => exact compress.loop_tracks h hchain

theorem Tracks.finalize (h : Tracks off orig cur cs) :
    Tracks off orig cur (cs.map SubChange.finalize) := by
  induction h with
  | nil off K => exact .nil off K
  | cons K R A hfrom hto hremoved hkind _ ih =>
    exact .cons K R A hfrom hto (by simpa [SubChange.finalize] using hremoved) hkind ih

end Compress

/-! ## The end of a session -/

section End

variable {orig cur : List E} {b : Builder E}

/-- `commit` can merge the pending add/remove sub-changes; with one pending
sub-change it does not try to. -/
def Committable (b : Builder E) : Prop := b.totalSize ≠ 1 → Compressible b.addRemoveChanges

/-- **The outermost `endChange`.** Without updates it fires the permutation and
then add/remove sub-changes that track the list as the pending ones did. -/
theorem endChange_tracks (hlock : b.changeLock = 1) (hupdates : b.updateChanges = [])
    (h : Tracks 0 orig cur b.addRemoveChanges) (hcommit : Committable b) :
    ∃ fired left b', b.endChange = .ok (fired, b')
      ∧ fired.getD [] = b.permutationChange.toList.map SubChange.finalize ++ left
      ∧ Tracks 0 orig cur left := by
  simp only [Builder.endChange, hlock, Nat.sub_self, one_ne_zero, if_false, Builder.commit]
  by_cases hone : b.totalSize = 1
  · simp only [Builder.totalSize, hupdates, List.length_nil, Nat.zero_add] at hone ⊢
    rw [if_pos ⟨trivial, by omega⟩, if_pos hone]
    cases hcs : b.addRemoveChanges with
    | nil =>
      rw [hcs] at h hone
      cases hperm : b.permutationChange with
      | none => simp [hperm] at hone
      | some p =>
        exact ⟨_, [], _, rfl, by simp, h⟩
    | cons c cs =>
      rw [hcs] at h hone
      obtain rfl : cs = [] := List.length_eq_zero_iff.mp (by simp at hone; omega)
      have hperm : b.permutationChange.toList = [] :=
        List.length_eq_zero_iff.mp (by simp only [List.length_singleton] at hone; omega)
      exact ⟨_, [c.finalize], _, rfl, by simp [hperm], h.finalize⟩
  · obtain ⟨left, n, hleft, htracks⟩ := compressNonEmpty_tracks h (hcommit hone)
    by_cases hzero : b.totalSize = 0
    · have hsizes := hzero
      simp only [Builder.totalSize, hupdates, List.length_nil, Nat.zero_add,
        Nat.add_eq_zero_iff, List.length_eq_zero_iff] at hsizes
      have htotal : Builder.totalSize { b with changeLock := 0 } = 0 := hzero
      rw [htotal]
      simp only [ne_eq, not_true_eq_false, and_false, if_false]
      exact ⟨_, [], _, rfl, by simp [hsizes.2], by rwa [hsizes.1] at h⟩
    · have htotal : Builder.totalSize { b with changeLock := 0 } = b.totalSize := rfl
      rw [htotal]
      simp only [hzero, hone, ne_eq, not_false_eq_true, and_self, if_true, if_false, hupdates,
        hleft, compressNonEmpty_nil, ok_bind, pure_eq_ok, List.append_nil]
      exact ⟨_, left.map SubChange.finalize, _, rfl, by simp, htracks.finalize⟩

end End

/-! ## One edit -/

namespace Session

variable {order : EntryOrder (List E)} {orig : List E} {s : Session E}

/-- The add/remove sub-changes pending in a session say how `orig` became its list. -/
structure Pending (orig : List E) (s : Session E) : Prop where
  locked : s.builder.changeLock ≠ 0
  noUpdates : s.builder.updateChanges = []
  tracks : Tracks 0 orig s.cur s.builder.addRemoveChanges

theorem start_pending (L₀ : List E) : (start L₀).Pending L₀ :=
  ⟨by simp [start, Builder.beginChange], rfl, .nil 0 L₀⟩

/-- What an edit that is not a permutation leaves alone. -/
structure Frame (s s' : Session E) : Prop where
  permutationChange : s'.builder.permutationChange = s.builder.permutationChange
  allRecorded : AllRecorded s.builder.addRemoveChanges → AllRecorded s'.builder.addRemoveChanges

theorem edit_add_pending (order : EntryOrder (List E)) {i : ℕ} (xs : List E) (h : s.Pending orig) (hi : i ≤ s.cur.length) :
    ∃ s', s.edit order (.add i xs) = .ok s' ∧ s'.Pending orig ∧ s.Frame s' := by
  have hlen : (s.cur.take i).length = i := by
    rw [List.length_take]
    omega
  have htracks := h.tracks
  rw [← List.take_append_drop i s.cur] at htracks
  obtain ⟨cs', hcs, htracks', hrec⟩ := addAddRemove_tracks xs htracks hlen
  refine ⟨⟨s.cur.take i ++ (xs ++ s.cur.drop i),
    { s.builder with addRemoveChanges := cs', updateChanges := [] }⟩, ?_, ?_, ?_⟩
  · simp [edit, Builder.nextAdd, Builder.checkState, h.locked, hcs, addUpdate, h.noUpdates]
  · exact ⟨h.locked, rfl, htracks'⟩
  · exact ⟨rfl, hrec⟩

theorem edit_remove_pending (order : EntryOrder (List E)) {i : ℕ} (h : s.Pending orig) (hi : i < s.cur.length)
    (hclean : RemoveClean s.builder.addRemoveChanges i)
    (hrec : ∀ c, receiver s.builder.addRemoveChanges i = some c → c.removed ≠ none) :
    ∃ s', s.edit order (.remove i) = .ok s' ∧ s'.Pending orig ∧ s.Frame s' := by
  have hlen : (s.cur.take i).length = i := by
    rw [List.length_take]
    omega
  have htracks := h.tracks
  rw [← List.take_append_drop i s.cur, List.drop_eq_getElem_cons hi] at htracks
  obtain ⟨cs', hcs, htracks', hrec'⟩ := removeAddRemove_tracks htracks hlen hclean hrec
  rw [← List.eraseIdx_eq_take_drop_succ] at htracks'
  refine ⟨⟨s.cur.eraseIdx i,
    { s.builder with addRemoveChanges := cs', updateChanges := [] }⟩, ?_, ?_, ?_⟩
  · simp [edit, List.getElem?_eq_getElem hi, Builder.nextRemove, Builder.checkState, h.locked,
      hcs, removeUpdate, h.noUpdates]
  · exact ⟨h.locked, rfl, htracks'⟩
  · exact ⟨rfl, hrec'⟩

theorem edit_beginChange_pending (order : EntryOrder (List E)) (h : s.Pending orig) :
    ∃ s', s.edit order .beginChange = .ok s' ∧ s'.Pending orig ∧ s.Frame s' :=
  ⟨_, rfl, ⟨Nat.succ_ne_zero _, h.noUpdates, h.tracks⟩, ⟨rfl, id⟩⟩

/-- The `endChange` of a nested `beginChange` fires nothing. -/
theorem edit_endChange_pending (order : EntryOrder (List E)) (h : s.Pending orig) (hnested : 1 < s.builder.changeLock) :
    ∃ s', s.edit order .endChange = .ok s' ∧ s'.Pending orig ∧ s.Frame s' := by
  have hlock : s.builder.changeLock - 1 ≠ 0 := by omega
  refine ⟨⟨s.cur, { s.builder with changeLock := s.builder.changeLock - 1 }⟩, ?_,
    ⟨hlock, h.noUpdates, h.tracks⟩, ⟨rfl, id⟩⟩
  simp [edit, Builder.endChange, Builder.commit, h.locked, hlock]

/-! ## Sequences of edits -/

theorem edit_remove_cur {i : ℕ} {s' : Session E} (h : s.edit order (.remove i) = .ok s') :
    s'.cur = s.cur.eraseIdx i := by
  simp only [edit] at h
  split at h
  · simp only [bind_eq_ok, pure_eq_ok, Except.ok.injEq] at h
    obtain ⟨b, -, rfl⟩ := h
    rfl
  · cases h

/-- Elements removed one by one are there to be removed. -/
theorem along_removes_legal (order : EntryOrder (List E)) {i k : ℕ} {es : List (Edit E)} (hk : i + k ≤ s.cur.length)
    (hes : ∀ s' : Session E, s'.cur.length + k = s.cur.length →
      Along (edit order) Edit.Legal s' es) :
    Along (edit order) Edit.Legal s (List.replicate k (.remove i) ++ es) := by
  induction k generalizing s with
  | zero => exact hes s rfl
  | succ k ih =>
    refine ⟨show i < s.cur.length by omega, fun s' hs' => ?_⟩
    have hlen : s'.cur.length + 1 = s.cur.length := by
      rw [edit_remove_cur hs', List.length_eraseIdx_of_lt (by omega)]
      omega
    exact ih (by omega) (fun t ht => hes t (by omega))

/-- A reported edit that can be made consists of primitive edits that can be made. -/
theorem along_edits_legal {r : Report E} (h : r.Legal s) :
    Along (edit order) Edit.Legal s r.edits := by
  have hone {e : Edit E} (he : e.Legal s) : Along (edit order) Edit.Legal s [e] :=
    ⟨he, fun _ _ => trivial⟩
  have hadd {i : ℕ} {xs : List E} (t : Session E) (ht : i ≤ t.cur.length) :
      Along (edit order) Edit.Legal t [.add i xs] := ⟨ht, fun _ _ => trivial⟩
  cases r with
  | add i xs => exact hone h
  | remove i => exact hone h
  | permute i perm => exact hone h
  | beginChange => exact hone h
  | endChange => exact hone h
  | removeAll i k =>
    rw [← List.append_nil (Report.edits _)]
    exact along_removes_legal order h (fun _ _ => trivial)
  | set i x =>
    have hi : i + 1 ≤ s.cur.length := h
    exact along_removes_legal order hi (fun t ht => hadd t (by omega))
  | replace i k xs =>
    have hk : i + k ≤ s.cur.length := h
    exact along_removes_legal order hk (fun t ht => hadd t (by omega))

/-- **The invariant rule for sessions.** What every primitive edit keeps holds
after every run of reported edits. -/
theorem run_reports {Inv : Session E → Prop} {P : Session E → Edit E → Prop} {rs : List (Report E)}
    (hlock : ∀ s, Inv s → s.builder.changeLock ≠ 0)
    (hstep : ∀ s e, Inv s → e.Legal s → P s e → ∃ s', s.edit order e = .ok s' ∧ Inv s')
    (hinit : Inv s) (hlegal : Along (report order) (fun s r => r.Legal s) s rs)
    (hP : Along (report order) (fun s r => Along (edit order) P s r.edits) s rs) :
    ∃ s', run (report order) s rs = .ok s' ∧ Inv s' := by
  refine run_invariant Inv (fun s r hinv hr => ?_) hinit (hlegal.and hP)
  obtain ⟨s', hs', hinv'⟩ := run_invariant Inv (fun s e hinv he => hstep s e hinv he.1 he.2) hinv
    ((along_edits_legal hr.1).and hr.2)
  exact ⟨s', by rw [report_eq_edits (hlock s hinv) hr.1, hs'], hinv'⟩

end Session

end JavaFx.ListChangeBuilder

/-!
Sessions that add and remove, from `beginChange` to the change that is fired.

A session is described by the reports made in it, each for an edit really made
to the list. `FiresReplay` says what is expected of every one of them: no call
throws, and the change the outermost `endChange` fires, sub-changes sorted by
position, rebuilds the list from the list as it was. Sessions whose removals are
clean fire such a change. Others need not, and the first of the two
unclean removals is shown to fire a change no listener can follow.
-/

namespace JavaFx.ListChangeBuilder

open JavaFx.Lib

/-! ## Conditions on a session -/

section Conditions

variable {E : Type} (s : Session E)

instance : (r : Report E) → Decidable (r.Legal s)
  | .add i _ => inferInstanceAs (Decidable (i ≤ s.cur.length))
  | .remove i => inferInstanceAs (Decidable (i < s.cur.length))
  | .removeAll i k => inferInstanceAs (Decidable (i + k ≤ s.cur.length))
  | .set i _ => inferInstanceAs (Decidable (i < s.cur.length))
  | .replace i k _ => inferInstanceAs (Decidable (i + k ≤ s.cur.length))
  | .permute i perm => inferInstanceAs (Decidable (PermutesRange i perm s.cur.length))
  | .beginChange => inferInstanceAs (Decidable True)
  | .endChange => inferInstanceAs (Decidable (1 < s.builder.changeLock))

instance : (r : Report E) → Decidable r.IsAddRemove
  | .add _ _ | .remove _ | .removeAll _ _ | .set _ _ | .replace _ _ _ | .beginChange
  | .endChange => inferInstanceAs (Decidable True)
  | .permute _ _ => inferInstanceAs (Decidable False)

instance (cs : List (SubChange E)) (idx : ℤ) : Decidable (RemoveClean cs idx) :=
  decidable_of_iff
    ((∀ last ∈ cs.getLast?, last.fromIdx = idx + 1 → ∀ c ∈ cs.dropLast, c.toIdx ≤ idx)
      ∧ ∀ c ∈ cs.dropLast, c.fromIdx = idx → c.toIdx = idx + 1 → c.hasNoRemoved = false)
    ⟨fun h => ⟨h.1, h.2⟩, fun h => ⟨h.notOvertaking, h.notEmptying⟩⟩

/-- A single removal is clean. -/
def Edit.Clean : Edit E → Prop
  | .remove i => RemoveClean s.builder.addRemoveChanges i
  | _ => True

instance : (e : Edit E) → Decidable (e.Clean s)
  | .remove i => inferInstanceAs (Decidable (RemoveClean s.builder.addRemoveChanges i))
  | .add _ _ | .permute _ _ | .beginChange | .endChange => inferInstanceAs (Decidable True)

end Conditions

section Session

variable {E : Type} (order : EntryOrder (List E)) (L₀ : List E) (rs : List (Report E))

/-- The reports describe edits really made to the list, none of them a permutation. -/
def RealAddRemove : Prop :=
  Along (Session.report order) (fun s r => r.Legal s ∧ r.IsAddRemove) (Session.start L₀) rs

/-- Every removal made in the session, those inside `nextReplace`, `nextSet` and
the list form of `nextRemove` included, is clean. -/
def CleanSession : Prop :=
  Along (Session.report order)
    (fun s r => Along (Session.edit order) (fun s e => e.Clean s) s r.edits) (Session.start L₀) rs

instance : Decidable (RealAddRemove order L₀ rs) :=
  inferInstanceAs (Decidable (Along (Session.report order)
    (fun s (r : Report E) => r.Legal s ∧ r.IsAddRemove) (Session.start L₀) rs))

instance : Decidable (CleanSession order L₀ rs) :=
  inferInstanceAs (Decidable (Along (Session.report order) (fun s (r : Report E) =>
    Along (Session.edit order) (fun s (e : Edit E) => e.Clean s) s r.edits) (Session.start L₀) rs))

variable [DecidableEq E]

/-- No call throws, and once only the outermost `beginChange` is open, its
`endChange` fires sub-changes that are sorted and replay the initial list to
the final one. -/
def FiresReplay : Prop :=
  ∃ s, run (Session.report order) (Session.start L₀) rs = .ok s
    ∧ (s.builder.changeLock = 1 → ∃ fired b, s.builder.endChange = .ok (fired, b)
      ∧ Sorted (fired.getD []) ∧ replay s.cur L₀ (fired.getD []) = some s.cur)

end Session

/-! ## Clean sessions -/

section Clean

variable {E : Type} {order : EntryOrder (List E)} {L₀ : List E} {s : Session E}

/-- What an adding and removing session keeps. -/
structure Session.AddRemoveInv (L₀ : List E) (s : Session E) : Prop where
  pending : s.Pending L₀
  noPermutation : s.builder.permutationChange = none
  allRecorded : AllRecorded s.builder.addRemoveChanges

theorem Session.AddRemoveInv.edit {e : Edit E} (h : s.AddRemoveInv L₀) (hlegal : e.Legal s)
    (he : e.IsAddRemove) (hclean : e.Clean s) :
    ∃ s', s.edit order e = .ok s' ∧ s'.AddRemoveInv L₀ := by
  have hframe {s' : Session E} (hp : s'.Pending L₀) (hf : s.Frame s') : s'.AddRemoveInv L₀ :=
    ⟨hp, hf.permutationChange.trans h.noPermutation, hf.allRecorded h.allRecorded⟩
  cases e with
  | add i xs =>
    obtain ⟨s', hs', hp, hf⟩ := edit_add_pending order xs h.pending hlegal
    exact ⟨s', hs', hframe hp hf⟩
  | remove i =>
    obtain ⟨s', hs', hp, hf⟩ := edit_remove_pending order h.pending hlegal hclean
      (fun c hc => h.allRecorded c (receiver_mem hc))
    exact ⟨s', hs', hframe hp hf⟩
  | permute i perm => exact he.elim
  | beginChange =>
    obtain ⟨s', hs', hp, hf⟩ := edit_beginChange_pending order h.pending
    exact ⟨s', hs', hframe hp hf⟩
  | endChange =>
    obtain ⟨s', hs', hp, hf⟩ := edit_endChange_pending order h.pending hlegal
    exact ⟨s', hs', hframe hp hf⟩

theorem Report.edits_isAddRemove {r : Report E} (h : r.IsAddRemove) :
    ∀ e ∈ r.edits, e.IsAddRemove := by
  cases r with
  | permute i perm => exact h.elim
  | removeAll i k =>
    intro e he
    rw [List.eq_of_mem_replicate he]
    trivial
  | replace i k xs =>
    intro e he
    rcases List.mem_append.mp he with he | he
    · rw [List.eq_of_mem_replicate he]
      trivial
    · rw [List.mem_singleton.mp he]
      trivial
  | _ => simp [Report.edits, Edit.IsAddRemove]

/-- **A session whose removals are clean fires a change that replays.** -/
theorem addRemove_session_replays [DecidableEq E] (order : EntryOrder (List E)) (L₀ : List E)
    (rs : List (Report E)) (hreal : RealAddRemove order L₀ rs) (hclean : CleanSession order L₀ rs) :
    FiresReplay order L₀ rs := by
  have hedits : Along (Session.report order) (fun s r => Along (Session.edit order)
      (fun s e => e.IsAddRemove ∧ e.Clean s) s r.edits) (Session.start L₀) rs :=
    (hreal.and hclean).mono (fun s r h =>
      (Along.of_forall (Report.edits_isAddRemove h.1.2)).and h.2)
  obtain ⟨s, hs, hinv⟩ := Session.run_reports (fun s h => h.pending.locked)
    (fun s e (h : s.AddRemoveInv L₀) hlegal he => h.edit hlegal he.1 he.2)
    ⟨Session.start_pending L₀, rfl, allRecorded_nil⟩ (hreal.mono (fun s r h => h.1)) hedits
  refine ⟨s, hs, fun hlock => ?_⟩
  obtain ⟨fired, left, b', hend, hfired, htracks⟩ := endChange_tracks hlock hinv.pending.noUpdates
    hinv.pending.tracks (fun _ => hinv.allRecorded.compressible)
  rw [hinv.noPermutation, Option.toList_none, List.map_nil, List.nil_append] at hfired
  refine ⟨fired, b', hend, ?_, ?_⟩
  · rw [hfired]
    exact htracks.inOrder.sorted
  · rw [hfired]
    exact htracks.replay [] rfl

/-- Elements are added inside and around each other, replaced and removed again. -/
theorem addRemove_session_replays_mixed :
    FiresReplay (.insertion _) [1, 2, 3, 4]
      [.add 1 [7, 8], .set 0 9, .beginChange, .remove 2, .replace 2 2 [5], .endChange,
        .removeAll 0 2] :=
  addRemove_session_replays _ _ _ (by decide) (by decide)

/-- A removal in front of the last sub-change overtakes the sub-change that ends
there: of `[1, 2, 3]` the first element is set, then all are removed from the
back, and the change fired takes `2` and `3` for removed before `1` is. -/
theorem addRemove_session_overtaken :
    ¬ ∀ (L₀ : List ℕ) (rs : List (Report ℕ)),
      RealAddRemove (.insertion _) L₀ rs → FiresReplay (.insertion _) L₀ rs := by
  intro h
  obtain ⟨s, hs, hend⟩ := h [1, 2, 3] [.set 0 9, .remove 2, .remove 1, .remove 0] (by decide)
  obtain rfl : (⟨[], ⟨1, [⟨0, 1, some [1], [], false⟩, ⟨0, 0, some [9, 2, 3], [], false⟩],
    [], none⟩⟩ : Session ℕ) = s := Except.ok.inj hs
  obtain ⟨fired, b, hfired, -, hreplay⟩ := hend rfl
  obtain rfl : some [⟨0, 1, some [1], [], false⟩, ⟨0, 0, some [9, 2, 3], [], false⟩] = fired :=
    congrArg Prod.fst (Except.ok.inj hfired)
  revert hreplay
  decide

end Clean

end JavaFx.ListChangeBuilder
