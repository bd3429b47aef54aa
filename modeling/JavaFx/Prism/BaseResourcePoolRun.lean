/-
The accounting of a pool.

The invariant (`Accounted`) is about a pool and a list of links, so that it can be stated in
the middle of a scan, of the links that were passed and those to come. A linked resource is
there and was never freed; one that has lost its link was freed once or has disappeared. Each
of the ways out of the list is the same step of the invariant (`Accounted.unlink`).
-/
import JavaFx.Lib.Run
import JavaFx.Prism.BaseResourcePool
import Mathlib.Algebra.BigOperators.Group.Finset.Basic
import Mathlib.Tactic.Common

set_option autoImplicit false

namespace JavaFx.Prism

open JavaFx.Lib

/-! ## Resources -/

namespace ManagedResource

variable {mr : ManagedResource}

/-- What a call on a resource leaves as it is. -/
structure Keeps (f : ManagedResource → ManagedResource) : Prop where
  resource : ∀ mr, (f mr).resource = mr.resource
  size : ∀ mr, (f mr).size = mr.size
  frees : ∀ mr, (f mr).frees = mr.frees
  prunedInUse : ∀ mr, (f mr).prunedInUse = mr.prunedInUse
  collected : ∀ mr, mr.collected = true → (f mr).collected = true

theorem keeps_id : Keeps id :=
  ⟨fun _ => rfl, fun _ => rfl, fun _ => rfl, fun _ => rfl, fun _ h => h⟩

theorem Keeps.comp {f g : ManagedResource → ManagedResource} (hf : Keeps f) (hg : Keeps g) :
    Keeps (fun mr => f (g mr)) where
  resource mr := by rw [hf.resource, hg.resource]
  size mr := by rw [hf.size, hg.size]
  frees mr := by rw [hf.frees, hg.frees]
  prunedInUse mr := by rw [hf.prunedInUse, hg.prunedInUse]
  collected mr hc := hf.collected _ (hg.collected mr hc)

theorem Keeps.ite {f g : ManagedResource → ManagedResource} (c : ManagedResource → Prop)
    [DecidablePred c] (hf : Keeps f) (hg : Keeps g) :
    Keeps (fun mr => if c mr then f mr else g mr) where
  resource mr := by split <;> simp only [hf.resource, hg.resource]
  size mr := by split <;> simp only [hf.size, hg.size]
  frees mr := by split <;> simp only [hf.frees, hg.frees]
  prunedInUse mr := by split <;> simp only [hf.prunedInUse, hg.prunedInUse]
  collected mr hc := by
    split
    · exact hf.collected mr hc
    · exact hg.collected mr hc

theorem Keeps.whenLocked {f : ManagedResource → ManagedResource} (h : Keeps f) :
    Keeps (fun mr => mr.whenLocked f) := Keeps.ite _ keeps_id h

theorem keeps_lock : Keeps lock :=
  ⟨fun _ => rfl, fun _ => rfl, fun _ => rfl, fun _ => rfl, fun _ h => h⟩

theorem keeps_unlockall : Keeps unlockall :=
  ⟨fun _ => rfl, fun _ => rfl, fun _ => rfl, fun _ => rfl, fun _ h => h⟩

theorem keeps_unlock : Keeps unlock :=
  Keeps.whenLocked ⟨fun _ => rfl, fun _ => rfl, fun _ => rfl, fun _ => rfl, fun _ h => h⟩

theorem keeps_makePermanent : Keeps makePermanent :=
  Keeps.whenLocked ⟨fun _ => rfl, fun _ => rfl, fun _ => rfl, fun _ => rfl, fun _ h => h⟩

theorem keeps_contentsUseful : Keeps contentsUseful :=
  Keeps.whenLocked ⟨fun _ => rfl, fun _ => rfl, fun _ => rfl, fun _ => rfl, fun _ h => h⟩

theorem keeps_contentsNotUseful : Keeps contentsNotUseful :=
  Keeps.ite _ keeps_id ⟨fun _ => rfl, fun _ => rfl, fun _ => rfl, fun _ => rfl, fun _ h => h⟩

theorem keeps_requestDisposal : Keeps fun mr => { mr with disposalRequested := true } :=
  ⟨fun _ => rfl, fun _ => rfl, fun _ => rfl, fun _ => rfl, fun _ h => h⟩

theorem keeps_mismatch : Keeps fun mr => { mr with mismatchDetected := true } :=
  ⟨fun _ => rfl, fun _ => rfl, fun _ => rfl, fun _ => rfl, fun _ h => h⟩

theorem keeps_disappear : Keeps fun mr => { mr with collected := true } :=
  ⟨fun _ => rfl, fun _ => rfl, fun _ => rfl, fun _ => rfl, fun _ _ => rfl⟩

theorem keeps_bumpAge (forever : ℕ) : Keeps fun mr => mr.bumpAge forever :=
  Keeps.ite _ ⟨fun _ => rfl, fun _ => rfl, fun _ => rfl, fun _ => rfl, fun _ h => h⟩ keeps_id

/-- A resource that its pool has not freed. -/
structure Live (mr : ManagedResource) : Prop where
  resource : mr.resource = true
  frees : mr.frees = 0

/-- A resource without a link: freed, or disappeared before. -/
def Gone (mr : ManagedResource) : Prop :=
  (mr.frees = 1 ∧ mr.resource = false) ∨ (mr.frees = 0 ∧ mr.collected = true)

/-- What a visit of a scan may do to a linked resource. -/
structure Visits (visit : ManagedResource → ManagedResource × Bool) : Prop where
  size : ∀ mr, (visit mr).1.size = mr.size
  kept : ∀ mr, mr.Live → (visit mr).2 = false → (visit mr).1.Live
  unlinked : ∀ mr, mr.Live → (visit mr).2 = true → (visit mr).1.Gone
  unpruned : ∀ mr, mr.prunedInUse = false → (visit mr).1.prunedInUse = false

theorem Keeps.live {f : ManagedResource → ManagedResource} (h : Keeps f) (hm : mr.Live) :
    (f mr).Live := ⟨by rw [h.resource, hm.resource], by rw [h.frees, hm.frees]⟩

theorem Keeps.gone {f : ManagedResource → ManagedResource} (h : Keeps f) (hm : mr.Gone) :
    (f mr).Gone := by
  rcases hm with ⟨hfree, hr⟩ | ⟨hfree, hc⟩
  · exact .inl ⟨by rw [h.frees, hfree], by rw [h.resource, hr]⟩
  · exact .inr ⟨by rw [h.frees, hfree], h.collected mr hc⟩

theorem Keeps.visits {f : ManagedResource → ManagedResource} (h : Keeps f) :
    Visits fun mr => (f mr, false) where
  size := h.size
  kept _ hm _ := h.live hm
  unlinked _ _ := by simp
  unpruned mr hp := by rw [h.prunedInUse, hp]

theorem _isgone_cases (mr : ManagedResource) :
    (mr.collected = true ∧ mr._isgone = (mr, true)) ∨
    (mr._isgone = ({ mr.free with disposalRequested := false }, true)) ∨
    (mr.collected = false ∧ mr.disposalRequested = false ∧ mr._isgone = (mr, !mr.isValid)) := by
  cases hc : mr.collected with
  | true => exact .inl ⟨rfl, by simp [_isgone, hc]⟩
  | false =>
    cases hd : mr.disposalRequested with
    | true => exact .inr (.inl (by simp [_isgone, hc, hd]))
    | false => exact .inr (.inr ⟨rfl, rfl, by simp [_isgone, hc, hd]⟩)

/-- What a visit does that first asks whether the resource is gone. -/
theorem visits_of_isgone {visit : ManagedResource → ManagedResource × Bool}
    {act : ManagedResource → ManagedResource × Bool} (hact : Visits act)
    (h : ∀ mr, visit mr = if mr._isgone.2 then (mr._isgone.1, true) else act mr._isgone.1) :
    Visits visit where
  size mr := by
    rw [h]
    rcases mr._isgone_cases with ⟨hc, hg⟩ | hg | ⟨hc, hd, hg⟩ <;> rw [hg]
    · rfl
    · rfl
    · split
      · rfl
      · exact hact.size mr
  kept mr hm := by
    rw [h]
    rcases mr._isgone_cases with ⟨hc, hg⟩ | hg | ⟨hc, hd, hg⟩ <;> rw [hg]
    · simp
    · simp
    · simpa [isValid, hm.resource, hd] using hact.kept mr hm
  unlinked mr hm := by
    rw [h]
    rcases mr._isgone_cases with ⟨hc, hg⟩ | hg | ⟨hc, hd, hg⟩ <;> rw [hg]
    · exact fun _ => .inr ⟨hm.frees, hc⟩
    · exact fun _ => .inl ⟨by simp [free, hm.frees], rfl⟩
    · simpa [isValid, hm.resource, hd] using hact.unlinked mr hm
  unpruned mr hp := by
    rw [h]
    rcases mr._isgone_cases with ⟨hc, hg⟩ | hg | ⟨hc, hd, hg⟩ <;> rw [hg]
    · exact hp
    · exact hp
    · split
      · exact hp
      · exact hact.unpruned mr hp

end ManagedResource

namespace BaseResourcePool

open ManagedResource

/-- What `prune` does with a resource that is not gone. -/
theorem visits_test (test : ManagedResource → Bool) :
    Visits fun mr => if !mr.permanent && !mr.isLocked && test mr then
      ({ mr.free with prunedInUse := mr.isLocked || mr.permanent }, true) else (mr, false) where
  size mr := by
    simp only
    split <;> rfl
  kept mr hm := by
    simp only
    split
    · simp
    · exact fun _ => hm
  unlinked mr hm := by
    simp only
    split
    · exact fun _ => .inl ⟨by simp [free, hm.frees], rfl⟩
    · simp
  unpruned mr hp := by
    simp only
    split
    case isTrue htest =>
      simp only [Bool.and_eq_true, Bool.not_eq_true'] at htest
      simp [htest.1.1, htest.1.2]
    case isFalse => exact hp

theorem visits_prune (test : ManagedResource → Bool) : Visits (prune test) :=
  visits_of_isgone (visits_test test) fun _ => rfl

/-- What `check` does with a resource that is not gone. -/
def checked (forgiveStaleLocks : Bool) (mr : ManagedResource) : ManagedResource :=
  if mr.permanent then mr
  else ManagedResource.bumpAge
    (if mr.isLocked && !mr.mismatchDetected then
      if forgiveStaleLocks then mr.unlockall else { mr with mismatchDetected := true }
    else mr) FOREVER

theorem keeps_checked (forgiveStaleLocks : Bool) : Keeps (checked forgiveStaleLocks) :=
  Keeps.ite _ keeps_id <| (keeps_bumpAge FOREVER).comp <|
    Keeps.ite _ (Keeps.ite _ keeps_unlockall keeps_mismatch) keeps_id

theorem visits_check (forgiveStaleLocks : Bool) : Visits (check forgiveStaleLocks) := by
  refine visits_of_isgone (keeps_checked forgiveStaleLocks).visits fun mr => ?_
  unfold check checked
  cases mr._isgone with
  | mk mr gone => cases hp : mr.permanent <;> simp only [hp] <;> rfl

/-! ## The invariant -/

/-- The accounting of a pool that has these links. -/
structure Accounted (p : BaseResourcePool) (links : List (ℕ × ℕ)) : Prop where
  nodup : (links.map Prod.fst).Nodup
  allocated : ∀ l ∈ links, l.1 < p.allocated
  size : ∀ l ∈ links, l.2 = (p.resources l.1).size
  live : ∀ l ∈ links, (p.resources l.1).Live
  gone : ∀ i < p.allocated, i ∉ links.map Prod.fst → (p.resources i).Gone
  unpruned : ∀ i < p.allocated, (p.resources i).prunedInUse = false
  amount : p.managedSize = ((links.map Prod.snd).sum : ℕ)

variable {p : BaseResourcePool} {links passed : List (ℕ × ℕ)} {i size : ℕ} {mr : ManagedResource}

@[simp] theorem set_resources_self : (p.set i mr).resources i = mr := by simp [set]

theorem set_resources_of_ne {j : ℕ} (h : j ≠ i) : (p.set i mr).resources j = p.resources j := by
  simp [set, h]

/-- A change of a resource that keeps it live or gone, as it was. -/
theorem Accounted.set (h : p.Accounted links) (hsize : mr.size = (p.resources i).size)
    (hlive : i ∈ links.map Prod.fst → (p.resources i).Live → mr.Live)
    (hgone : i ∉ links.map Prod.fst → (p.resources i).Gone → mr.Gone)
    (hpruned : (p.resources i).prunedInUse = false → mr.prunedInUse = false) :
    (p.set i mr).Accounted links where
  nodup := h.nodup
  allocated := h.allocated
  size l hl := by
    by_cases hi : l.1 = i
    · rw [hi, set_resources_self, hsize, h.size l hl, hi]
    · rw [set_resources_of_ne hi, h.size l hl]
  live l hl := by
    by_cases hi : l.1 = i
    · have := h.live l hl
      rw [hi] at this ⊢
      rw [set_resources_self]
      exact hlive (List.mem_map.2 ⟨l, hl, hi⟩) this
    · rw [set_resources_of_ne hi]
      exact h.live l hl
  gone j hj hn := by
    by_cases hi : j = i
    · subst hi
      rw [set_resources_self]
      exact hgone hn (h.gone j hj hn)
    · rw [set_resources_of_ne hi]
      exact h.gone j hj hn
  unpruned j hj := by
    by_cases hi : j = i
    · subst hi
      rw [set_resources_self]
      exact hpruned (h.unpruned j hj)
    · rw [set_resources_of_ne hi]
      exact h.unpruned j hj
  amount := h.amount

/-- **A way out of the list.** Its resource is gone, and its size is taken off. -/
theorem Accounted.unlink (h : p.Accounted (passed ++ (i, size) :: links))
    (hgone : mr.Gone) (hpruned : mr.prunedInUse = false) :
    ∃ p', (p.set i mr).recordFree size = .ok p' ∧ p'.Accounted (passed ++ links) ∧
      p'.resources = (p.set i mr).resources := by
  have hamount : p.managedSize = size + (((passed ++ links).map Prod.snd).sum : ℕ) := by
    rw [h.amount]
    simp only [List.map_append, List.map_cons, List.sum_append, List.sum_cons]
    omega
  have hnodup := h.nodup
  rw [List.map_append, List.map_cons, List.nodup_middle, ← List.map_append] at hnodup
  obtain ⟨hi, hnodup⟩ := List.nodup_cons.1 hnodup
  have hmem : ∀ l ∈ passed ++ links, l ∈ passed ++ (i, size) :: links := by
    intro l hl
    simp only [List.mem_append, List.mem_cons] at hl ⊢
    tauto
  have hne : ∀ l ∈ passed ++ links, l.1 ≠ i := fun l hl hli => hi (List.mem_map.2 ⟨l, hl, hli⟩)
  refine ⟨{ p.set i mr with managedSize := p.managedSize - size }, ?_, ?_, rfl⟩
  · unfold recordFree
    rw [if_neg]
    · rfl
    · change ¬p.managedSize - size < 0
      omega
  · constructor
    · exact hnodup
    · exact fun l hl => h.allocated l (hmem l hl)
    · intro l hl
      change l.2 = ((p.set i mr).resources l.1).size
      rw [set_resources_of_ne (hne l hl)]
      exact h.size l (hmem l hl)
    · intro l hl
      change ((p.set i mr).resources l.1).Live
      rw [set_resources_of_ne (hne l hl)]
      exact h.live l (hmem l hl)
    · intro j hj hn
      change ((p.set i mr).resources j).Gone
      by_cases hij : j = i
      · rw [hij, set_resources_self]
        exact hgone
      · rw [set_resources_of_ne hij]
        refine h.gone j hj fun hmem => hn ?_
        simp only [List.map_append, List.map_cons, List.mem_append, List.mem_cons] at hmem ⊢
        tauto
    · intro j hj
      change ((p.set i mr).resources j).prunedInUse = false
      by_cases hij : j = i
      · rw [hij, set_resources_self]
        exact hpruned
      · rw [set_resources_of_ne hij]
        exact h.unpruned j hj
    · change p.managedSize - size = _
      omega

/-- A scan ends without an error, with the accounting of the links that stay. -/
theorem scan_accounted {visit : ManagedResource → ManagedResource × Bool} (hv : Visits visit)
    (h : p.Accounted (passed ++ links)) :
    ∃ p' rest, scan visit p links = .ok (p', rest) ∧ p'.Accounted (passed ++ rest) := by
  induction links generalizing p passed with
  | nil => exact ⟨p, [], rfl, h⟩
  | cons link links ih =>
    obtain ⟨i, size⟩ := link
    have hmem : (i, size) ∈ passed ++ (i, size) :: links := by simp
    have hlive : (p.resources i).Live := h.live _ hmem
    have hsize := hv.size (p.resources i)
    have hunpruned := hv.unpruned _ (h.unpruned i (h.allocated _ hmem))
    cases hu : (visit (p.resources i)).2 with
    | true =>
      obtain ⟨p', hfree, hacc, -⟩ := h.unlink (hv.unlinked _ hlive hu) hunpruned
      obtain ⟨p', rest, hscan, hrest⟩ := ih hacc
      refine ⟨p', rest, ?_, hrest⟩
      simp only [scan, hu, if_true, hfree]
      exact hscan
    | false =>
      have hset := h.set hsize (fun _ hm => hv.kept _ hm hu)
        (fun hn => absurd (List.mem_map.2 ⟨_, hmem, rfl⟩) hn) (fun _ => hunpruned)
      rw [← List.singleton_append, ← List.append_assoc] at hset
      obtain ⟨p', rest, hscan, hrest⟩ := ih hset
      refine ⟨p', (i, size) :: rest, ?_, by simpa using hrest⟩
      simp [scan, hu, hscan]

theorem recordFree_set {p' : BaseResourcePool} (h : p.recordFree size = .ok p') :
    (p.set i mr).recordFree size = .ok (p'.set i mr) := by
  unfold recordFree at h ⊢
  split at h
  · simp at h
  · rename_i hn
    have hset : (p.set i mr).managedSize = p.managedSize := rfl
    rw [hset, if_neg hn]
    cases h
    rfl

/-- The loop of `resourceFreed` finds the resource, which is gone. -/
theorem unlinkFreed_accounted {freed : ℕ} (h : p.Accounted (passed ++ links))
    (hmem : freed ∈ links.map Prod.fst) (hcollected : (p.resources freed).collected = false)
    (hgone : mr.Gone) (hmr : mr.collected = false) (hpruned : mr.prunedInUse = false) :
    ∃ p' rest, unlinkFreed freed (p.set freed mr) links = .ok (p', rest) ∧
      p'.Accounted (passed ++ rest) := by
  induction links generalizing p passed with
  | nil => simp at hmem
  | cons link links ih =>
    obtain ⟨i, size⟩ := link
    have hlink : (i, size) ∈ passed ++ (i, size) :: links := by simp
    by_cases hi : i = freed
    · subst hi
      obtain ⟨p', hfree, hacc, -⟩ := h.unlink hgone hpruned
      exact ⟨p', links, by simp [unlinkFreed, hmr, hfree], hacc⟩
    · have hrest : freed ∈ links.map Prod.fst := by
        simpa [Ne.symm hi] using hmem
      have hget : (p.set freed mr).resources i = p.resources i := set_resources_of_ne hi
      cases hc : (p.resources i).collected with
      | true =>
        have hlost : (p.resources i).Gone := .inr ⟨(h.live _ hlink).frees, hc⟩
        obtain ⟨p', hfree, hacc, hres⟩ :=
          h.unlink hlost (h.unpruned i (h.allocated _ hlink))
        have hself : p.set i (p.resources i) = p := by simp [BaseResourcePool.set]
        rw [hself] at hfree hres
        obtain ⟨p'', rest, hunlink, hrest⟩ := ih hacc hrest (by rw [hres, hcollected])
        refine ⟨p'', rest, ?_, hrest⟩
        rw [unlinkFreed, hget, hc, if_pos rfl, recordFree_set hfree]
        exact hunlink
      | false =>
        rw [← List.singleton_append, ← List.append_assoc] at h
        obtain ⟨p', rest, hunlink, hrest⟩ := ih h hrest hcollected
        refine ⟨p', (i, size) :: rest, ?_, by simpa using hrest⟩
        simp [unlinkFreed, hget, hc, hi, hunlink]

/-! ## Each action -/

/-- The accounting of a pool, of its own links. -/
def Sound (p : BaseResourcePool) : Prop := p.Accounted p.links

theorem Accounted.sound (h : p.Accounted links) : ({ p with links := links }).Sound :=
  ⟨h.nodup, h.allocated, h.size, h.live, h.gone, h.unpruned, h.amount⟩

theorem sound_new (sharedParent : Option ℕ) (target max : ℤ) :
    (new sharedParent target max).Sound where
  nodup := List.nodup_nil
  allocated _ h := by simp [new] at h
  size _ h := by simp [new] at h
  live _ h := by simp [new] at h
  gone _ h := by simp [new] at h
  unpruned _ h := by simp [new] at h
  amount := rfl

theorem Sound.scan {visit : ManagedResource → ManagedResource × Bool} (hv : Visits visit)
    (h : p.Sound) : ∃ p' rest, BaseResourcePool.scan visit p p.links = .ok (p', rest) ∧
      ({ p' with links := rest }).Sound := by
  have hstart : p.Accounted ([] ++ p.links) := h
  obtain ⟨p', rest, hscan, hacc⟩ := scan_accounted hv hstart
  exact ⟨p', rest, hscan, hacc.sound⟩

theorem Sound.cleanup (test : ManagedResource → Bool) (h : p.Sound) :
    ∃ p', p.cleanup test = .ok p' ∧ p'.Sound := by
  obtain ⟨p', rest, hscan, hs⟩ := h.scan (visits_prune test)
  exact ⟨_, by rw [BaseResourcePool.cleanup, hscan]; rfl, hs⟩

theorem Sound.check (forgiveStaleLocks : Bool) (h : p.Sound) :
    ∃ p', p.freeDisposalRequestedAndCheckResources forgiveStaleLocks = .ok p' ∧ p'.Sound := by
  obtain ⟨p', rest, hscan, hs⟩ := h.scan (visits_check forgiveStaleLocks)
  exact ⟨_, by rw [freeDisposalRequestedAndCheckResources, hscan]; rfl, hs⟩

theorem Sound.call {f : ManagedResource → ManagedResource} (hf : Keeps f) (h : p.Sound) :
    (p.call i f).Sound := by
  unfold BaseResourcePool.call
  split
  · exact Accounted.set h (hf.size _) (fun _ => hf.live) (fun _ => hf.gone)
      fun hp => by rw [hf.prunedInUse, hp]
  · exact h

theorem Sound.dispose (h : p.Sound) : ∃ p', p.dispose i = .ok p' ∧ p'.Sound := by
  unfold BaseResourcePool.dispose
  split
  case isFalse => exact ⟨p, rfl, h⟩
  case isTrue hcond =>
    simp only [isReferenced, Bool.and_eq_true, decide_eq_true_eq, Bool.not_eq_true'] at hcond
    obtain ⟨⟨hi, hc⟩, hr⟩ := hcond
    have hmem : i ∈ p.links.map Prod.fst := by
      by_contra hn
      rcases h.gone i hi hn with ⟨-, hr'⟩ | ⟨-, hc'⟩
      · simp [hr] at hr'
      · simp [hc] at hc'
    have hlive : (p.resources i).Live := by
      obtain ⟨l, hl, rfl⟩ := List.mem_map.1 hmem
      exact h.live l hl
    have hgone : Gone { (p.resources i).free with disposalRequested := false } :=
      .inl ⟨by simp [free, hlive.frees], rfl⟩
    have hstart : p.Accounted ([] ++ p.links) := h
    obtain ⟨p', rest, hunlink, hacc⟩ :=
      unlinkFreed_accounted hstart hmem hc hgone hc (h.unpruned i hi)
    refine ⟨{ p' with links := rest }, ?_, hacc.sound⟩
    rw [resourceFreed]
    exact congrArg (· >>= _) hunlink

theorem Sound.resourceManaged (h : p.Sound) : (p.resourceManaged (.new size)).Sound := by
  have hnew : ∀ l ∈ p.links, l.1 ≠ p.allocated := fun l hl => (h.allocated l hl).ne
  constructor
  · refine List.nodup_cons.2 ⟨fun hmem => ?_, h.nodup⟩
    obtain ⟨l, hl, hli⟩ := List.mem_map.1 hmem
    exact hnew l hl hli
  · rintro l (_ | ⟨_, hl⟩)
    · exact Nat.lt_succ_self _
    · exact (h.allocated l hl).trans (Nat.lt_succ_self _)
  · rintro l (_ | ⟨_, hl⟩)
    · exact congrArg ManagedResource.size set_resources_self.symm
    · exact (h.size l hl).trans
        (congrArg ManagedResource.size (set_resources_of_ne (hnew l hl)).symm)
  · rintro l (_ | ⟨_, hl⟩)
    · change ((p.set p.allocated (.new size)).resources p.allocated).Live
      rw [set_resources_self]
      exact ⟨rfl, rfl⟩
    · change ((p.set p.allocated (.new size)).resources l.1).Live
      rw [set_resources_of_ne (hnew l hl)]
      exact h.live l hl
  · intro i hi hn
    have hne : i ≠ p.allocated := by
      rintro rfl
      exact hn List.mem_cons_self
    change ((p.set p.allocated (.new size)).resources i).Gone
    rw [set_resources_of_ne hne]
    exact h.gone i (lt_of_le_of_ne (Nat.le_of_lt_succ hi) hne) fun hmem =>
      hn (List.mem_cons_of_mem _ hmem)
  · intro i hi
    change ((p.set p.allocated (.new size)).resources i).prunedInUse = false
    by_cases hne : i = p.allocated
    · rw [hne, set_resources_self]
      rfl
    · rw [set_resources_of_ne hne]
      exact h.unpruned i (lt_of_le_of_ne (Nat.le_of_lt_succ hi) hne)
  · change p.managedSize + (size : ℤ) = _
    rw [h.amount]
    change _ = ((size + (p.links.map Prod.snd).sum : ℕ) : ℤ)
    omega

theorem Sound.setTarget {p' : BaseResourcePool} {target : ℤ} (h : p.Sound)
    (hset : p.setTarget target = .ok p') : p'.Sound := by
  unfold BaseResourcePool.setTarget at hset
  split at hset
  · simp at hset
  · split at hset
    · simp at hset
    · cases hset
      exact ⟨h.nodup, h.allocated, h.size, h.live, h.gone, h.unpruned, h.amount⟩

theorem Sound.applyEffect (effect : Effect) (h : p.Sound) :
    ∃ p', p.applyEffect effect = .ok p' ∧ p'.Sound := by
  cases effect with
  | dispose i => exact h.dispose
  | requestDisposal i => exact ⟨_, rfl, h.call keeps_requestDisposal⟩
  | disappear i => exact ⟨_, rfl, h.call keeps_disappear⟩
  | sharedFreed amount =>
    exact ⟨_, rfl, h.nodup, h.allocated, h.size, h.live, h.gone, h.unpruned, h.amount⟩

theorem Sound.applyEffects (effects : List Effect) (h : p.Sound) :
    ∃ p', p.applyEffects effects = .ok p' ∧ p'.Sound := by
  induction effects generalizing p with
  | nil => exact ⟨p, rfl, h⟩
  | cons effect effects ih =>
    obtain ⟨q, hq, hsound⟩ := h.applyEffect effect
    obtain ⟨p', hp', hsound'⟩ := ih hsound
    exact ⟨p', by rw [BaseResourcePool.applyEffects, hq]; exact hp', hsound'⟩

theorem Sound.pass (effects : List Effect) (test : ManagedResource → Bool) (h : p.Sound) :
    ∃ p', p.pass effects test = .ok p' ∧ p'.Sound := by
  obtain ⟨q, hq, hsound⟩ := h.applyEffects effects
  obtain ⟨p', hp', hsound'⟩ := hsound.cleanup test
  exact ⟨p', by rw [BaseResourcePool.pass, hq]; exact hp', hsound'⟩

theorem Sound.pruneStages (wanted : ℤ) (effects : ℕ → List Effect)
    (tests : List (ManagedResource → Bool)) (k : ℕ) (h : p.Sound) :
    ∃ p' enough, pruneStages wanted effects p k tests = .ok (p', enough) ∧ p'.Sound := by
  induction tests generalizing p k with
  | nil => exact ⟨p, false, rfl, h⟩
  | cons test tests ih =>
    obtain ⟨q, hq, hsound⟩ := h.pass (effects k) test
    obtain ⟨p', enough, hp', hsound'⟩ := ih (k + 1) hsound
    by_cases hroom : toLong (q.used + wanted) ≤ q.target
    · exact ⟨q, true, by simp [BaseResourcePool.pruneStages, hq, hroom], hsound⟩
    · exact ⟨p', enough, by simp [BaseResourcePool.pruneStages, hq, hroom, hp'], hsound'⟩

theorem Sound.pruneLastChances (needed : ℤ) (effects : ℕ → List Effect) (chances k : ℕ)
    (h : p.Sound) :
    ∃ p' r, pruneLastChances needed effects p k chances = .ok (p', r) ∧ p'.Sound := by
  induction chances generalizing p k with
  | zero => exact ⟨p, .ok false, rfl, h⟩
  | succ chances ih =>
    obtain ⟨q, hq, hsound⟩ := h.pass (effects k) fun _ => true
    obtain ⟨p', r, hp', hsound'⟩ := ih (k + 1) hsound
    by_cases hroom : toLong (q.used + needed) ≤ q.max
    · by_cases hgrow : toLong (q.used + needed) > q.target
      · cases hset : q.setTarget (toLong (q.used + needed)) with
        | error e =>
          exact ⟨q, .error e,
            by simp [BaseResourcePool.pruneLastChances, hq, hroom, hgrow, hset], hsound⟩
        | ok q' =>
          exact ⟨q', .ok true,
            by simp [BaseResourcePool.pruneLastChances, hq, hroom, hgrow, hset],
            hsound.setTarget hset⟩
      · exact ⟨q, .ok true, by simp [BaseResourcePool.pruneLastChances, hq, hroom, hgrow], hsound⟩
    · exact ⟨p', r, by simp [BaseResourcePool.pruneLastChances, hq, hroom, hp'], hsound'⟩

theorem Sound.growOrPrune (needed wanted : ℤ) (effects : ℕ → List Effect) (h : p.Sound) :
    ∃ p' r, p.growOrPrune needed wanted effects = .ok (p', r) ∧ p'.Sound := by
  simp only [BaseResourcePool.growOrPrune]
  generalize toLong (p.max - p.used) = rem
  generalize (if wanted > rem then needed else wanted) = wanted
  generalize toLong (p.used + _) = target
  split
  · cases hset : p.setTarget target with
    | error e => exact ⟨p, .error e, rfl, h⟩
    | ok p' => exact ⟨p', .ok true, rfl, h.setTarget hset⟩
  · exact h.pruneLastChances needed effects 2 _

theorem Sound.prepareForAllocation (needed : ℤ) (effects : ℕ → List Effect) (h : p.Sound) :
    ∃ p' r, p.prepareForAllocation needed effects = .ok (p', r) ∧ p'.Sound := by
  unfold BaseResourcePool.prepareForAllocation
  split
  · exact ⟨p, .ok true, rfl, h⟩
  · obtain ⟨q, enough, hq, hsound⟩ :=
      h.pruneStages (p.hopingFor needed) effects ((fun _ => false) :: stageTesters) 0
    rw [hq]
    cases enough with
    | true => exact ⟨q, .ok true, rfl, hsound⟩
    | false => exact hsound.growOrPrune needed (p.hopingFor needed) effects

/-- **The step lemma.** No call ends with an error of the accounting. -/
theorem Sound.step (a : Action) (h : p.Sound) : ∃ p', p.step a = .ok p' ∧ p'.Sound := by
  cases a with
  | allocate size => exact ⟨_, rfl, h.resourceManaged⟩
  | lock i => exact ⟨_, rfl, h.call keeps_lock⟩
  | unlock i => exact ⟨_, rfl, h.call keeps_unlock⟩
  | makePermanent i => exact ⟨_, rfl, h.call keeps_makePermanent⟩
  | contentsUseful i => exact ⟨_, rfl, h.call keeps_contentsUseful⟩
  | contentsNotUseful i => exact ⟨_, rfl, h.call keeps_contentsNotUseful⟩
  | prepareForAllocation needed effects =>
    obtain ⟨p', r, hp', hsound⟩ := h.prepareForAllocation needed effects
    exact ⟨p', by rw [BaseResourcePool.step, hp']; rfl, hsound⟩
  | freeDisposalRequestedAndCheckResources forgive => exact h.check forgive
  | effect effect => exact h.applyEffect effect
  | sharedUsed amount =>
    exact ⟨_, rfl, h.nodup, h.allocated, h.size, h.live, h.gone, h.unpruned, h.amount⟩

theorem run_sound (sharedParent : Option ℕ) (target max : ℤ) (as : List Action) :
    ∃ p, run step (new sharedParent target max) as = .ok p ∧ p.Sound :=
  run_invariant Sound (P := fun _ _ => True) (fun _ a h _ => h.step a)
    (sound_new sharedParent target max) (Along.of_forall fun _ _ => trivial)

/-! ## The whole run -/

/-- Managed and not freed since: what disappears is managed as long as the pool links it. -/
def isOutstanding (p : BaseResourcePool) (i : ℕ) : Bool :=
  (p.resources i).frees = 0 && (!(p.resources i).collected || p.links.any fun l => l.1 = i)

theorem Sound.linked (h : p.Sound) (hi : i < p.allocated) (hout : p.isOutstanding i = true) :
    i ∈ p.links.map Prod.fst := by
  by_contra hn
  simp only [isOutstanding, Bool.and_eq_true, decide_eq_true_eq, Bool.or_eq_true,
    Bool.not_eq_true', List.any_eq_true] at hout
  rcases h.gone i hi hn with ⟨hf, -⟩ | ⟨-, hc⟩
  · omega
  · rcases hout.2 with hc' | ⟨l, hl, hli⟩
    · simp [hc] at hc'
    · exact hn (List.mem_map.2 ⟨l, hl, hli⟩)

open Finset in
/-- The outstanding resources are the linked ones, so `managedSize` is their sum. -/
theorem Sound.managedSize_eq (h : p.Sound) :
    p.managedSize = ∑ i ∈ (range p.allocated).filter fun i => p.isOutstanding i,
      (p.resources i).size := by
  have hlinked : (range p.allocated).filter (fun i => p.isOutstanding i) =
      (p.links.map Prod.fst).toFinset := by
    ext i
    simp only [mem_filter, mem_range, List.mem_toFinset]
    constructor
    · exact fun ⟨hi, hout⟩ => h.linked hi hout
    · intro hmem
      obtain ⟨l, hl, rfl⟩ := List.mem_map.1 hmem
      refine ⟨h.allocated l hl, ?_⟩
      simp only [isOutstanding, (h.live l hl).frees, decide_true, Bool.true_and, Bool.or_eq_true,
        List.any_eq_true]
      exact .inr ⟨l, hl, by simp⟩
  have hsizes :
      p.links.map Prod.snd = (p.links.map Prod.fst).map fun i => (p.resources i).size := by
    rw [List.map_map]
    exact List.map_congr_left h.size
  rw [hlinked, h.amount, hsizes, List.sum_toFinset _ h.nodup]

/-- **The accounting of a pool without a parent.** Whatever is called, no error of the
accounting occurs, `managedSize` is the sum of the sizes of what is managed and not yet freed,
`free()` was called at most once for each resource, and nothing was pruned that was locked or
permanent. -/
theorem pool_accounted (target max : ℤ) (as : List Action) :
    ∃ p, run step (new none target max) as = .ok p ∧
      p.managedSize = ∑ i ∈ (Finset.range p.allocated).filter fun i => p.isOutstanding i,
        (p.resources i).size ∧
      ∀ i < p.allocated, (p.resources i).frees ≤ 1 ∧ (p.resources i).prunedInUse = false := by
  obtain ⟨p, hrun, h⟩ := run_sound none target max as
  refine ⟨p, hrun, h.managedSize_eq, fun i hi => ⟨?_, h.unpruned i hi⟩⟩
  by_cases hmem : i ∈ p.links.map Prod.fst
  · obtain ⟨l, hl, rfl⟩ := List.mem_map.1 hmem
    exact (h.live l hl).frees.le.trans zero_le_one
  · rcases h.gone i hi hmem with ⟨hf, -⟩ | ⟨hf, -⟩ <;> omega

end BaseResourcePool

end JavaFx.Prism
