/-
`ObservableSetWrapper`s bound by `BidirectionalContentBinding`.

Any number of sets, and any bindings between them. A set that changes calls the bindings it
has, in the order they were made, and each of them makes the same change in its other set,
which calls its own bindings before it returns. So an element spreads along the bindings as
a flood does; the flag `updating` only keeps a call from coming back the way it came.

A set is what its backing set holds. In which order the backing set is iterated is an
argument of what iterates it. Weak references are taken to be alive.
-/
import Mathlib.Data.Finset.Sort
import JavaFx.Lib.Flood
import JavaFx.Lib.Java

set_option autoImplicit false

namespace JavaFx.Binding

open JavaFx.Lib

/-! ## The sets and the bindings -/

/-- `BidirectionalContentBinding.SetContentBinding`, less its flag. -/
structure SetContentBinding (ι : Type) where
  propertyRef1 : ι
  propertyRef2 : ι
deriving DecidableEq

/-- What a call may throw. -/
inductive SetFailure
  | stackOverflow
  | thrown (e : Exn)

/-- All sets of a program, and the bindings in the order they were made; `updating` holds
the places of those whose flag is set. -/
structure BoundSets (ι E : Type) where
  backingSet : ι → Finset E
  bindings : List (SetContentBinding ι)
  updating : Finset ℕ

/-- An order in which the elements of a backing set come. -/
structure Iteration (E : Type) where
  toList : Finset E → List E
  nodup : ∀ t, (toList t).Nodup
  mem : ∀ t x, x ∈ toList t ↔ x ∈ t

/-- The argument of `removeAll` and `retainAll`: another collection, or one of the sets. -/
inductive Argument (ι E : Type)
  | collection (c : Finset E)
  | set (a : ι)

namespace BoundSets

variable {ι E : Type} [DecidableEq ι] [DecidableEq E]

/-- The listeners of a set. -/
def listeners (s : BoundSets ι E) (a : ι) : List (SetContentBinding ι × ℕ) :=
  s.bindings.zipIdx.filter fun l => l.1.propertyRef1 = a ∨ l.1.propertyRef2 = a

/-- The other set of a binding that is called for a change of `a`. -/
def dest (a : ι) (l : SetContentBinding ι) : ι :=
  if l.propertyRef1 = a then l.propertyRef2 else l.propertyRef1

/-- `onChanged` for a change of the set `a`; `edit` makes the change in another set. -/
def onChanged (edit : BoundSets ι E → ι → Except SetFailure (Bool × BoundSets ι E)) (a : ι)
    (s : BoundSets ι E) (l : SetContentBinding ι × ℕ) : Except SetFailure (BoundSets ι E) :=
  if l.2 ∈ s.updating then .ok s
  else do
    let (_, s) ← edit { s with updating := insert l.2 s.updating } (dest a l.1)
    .ok { s with updating := s.updating.erase l.2 }

/-- What a backing set holds after an element was added or removed. -/
def changed (added : Bool) (x : E) (u : Finset E) : Finset E :=
  if added then insert x u else u.erase x

/-- A change of the backing set of `a`. -/
def setBackingSet (s : BoundSets ι E) (a : ι) (u : Finset E) : BoundSets ι E :=
  { s with backingSet := Function.update s.backingSet a u }

/-- `add` and `remove`, with the calls of the listeners. -/
def edit (added : Bool) (x : E) :
    (fuel : ℕ) → BoundSets ι E → ι → Except SetFailure (Bool × BoundSets ι E)
  | 0, _, _ => .error .stackOverflow
  | fuel + 1, s, a =>
    if decide (x ∈ s.backingSet a) = added then .ok (false, s)
    else do
      let s := s.setBackingSet a (changed added x (s.backingSet a))
      let s ← (s.listeners a).foldlM (onChanged (edit added x fuel) a) s
      .ok (true, s)

variable [Fintype ι]

def add (s : BoundSets ι E) (a : ι) (x : E) : Except SetFailure (Bool × BoundSets ι E) :=
  edit true x (Fintype.card ι + 1) s a

def remove (s : BoundSets ι E) (a : ι) (x : E) : Except SetFailure (Bool × BoundSets ι E) :=
  edit false x (Fintype.card ι + 1) s a

/-- `remove` of an iterator that has given `x`. -/
def iteratorRemove (s : BoundSets ι E) (a : ι) (x : E) : Except SetFailure (BoundSets ι E) :=
  if x ∈ s.backingSet a then do
    let (_, s) ← s.remove a x
    .ok s
  else .error (.thrown .concurrentModification)

def addAll (a : ι) : List E → BoundSets ι E → Except SetFailure (Bool × BoundSets ι E)
  | [], s => .ok (false, s)
  | x :: c, s => do
    let (ret, s) ← s.add a x
    let (rest, s) ← addAll a c s
    .ok (ret || rest, s)

/-- `c.contains(x)`. -/
def contains (s : BoundSets ι E) : Argument ι E → E → Bool
  | .collection c, x => x ∈ c
  | .set b, x => x ∈ s.backingSet b

/-- The loop of `removeRetain`, over the elements that are to come. -/
def removeRetainLoop (a : ι) (c : Argument ι E) (remove : Bool) :
    List E → BoundSets ι E → Except SetFailure (Bool × BoundSets ι E)
  | [], s => .ok (false, s)
  | x :: rest, s =>
    if remove = s.contains c x then do
      let s ← s.iteratorRemove a x
      let (_, s) ← removeRetainLoop a c remove rest s
      .ok (true, s)
    else removeRetainLoop a c remove rest s

def removeRetain (i : Iteration E) (s : BoundSets ι E) (a : ι) (c : Argument ι E) (remove : Bool) :
    Except SetFailure (Bool × BoundSets ι E) :=
  removeRetainLoop a c remove (i.toList (s.backingSet a)) s

def removeAll (i : Iteration E) (s : BoundSets ι E) (a : ι) (c : Argument ι E) :
    Except SetFailure (Bool × BoundSets ι E) :=
  removeRetain i s a c true

def retainAll (i : Iteration E) (s : BoundSets ι E) (a : ι) (c : Argument ι E) :
    Except SetFailure (Bool × BoundSets ι E) :=
  removeRetain i s a c false

def clear (i : Iteration E) (s : BoundSets ι E) (a : ι) : Except SetFailure (BoundSets ι E) :=
  (i.toList (s.backingSet a)).foldlM (fun s x => s.iteratorRemove a x) s

/-- `BidirectionalContentBinding.bind`. -/
def bind (i : Iteration E) (s : BoundSets ι E) (set1 set2 : ι) :
    Except SetFailure (BoundSets ι E) :=
  if set1 = set2 then .error (.thrown .illegalArgument)
  else do
    let s ← clear i s set1
    let (_, s) ← addAll set1 (i.toList (s.backingSet set2)) s
    .ok { s with bindings := s.bindings ++ [⟨set1, set2⟩] }

omit [DecidableEq E] [Fintype ι] in
/-- `BidirectionalContentBinding.unbind`: the first binding that equals one of the two sets. -/
def unbind (s : BoundSets ι E) (set1 set2 : ι) : Except SetFailure (BoundSets ι E) :=
  if set1 = set2 then .error (.thrown .illegalArgument)
  else .ok { s with bindings := s.bindings.eraseP fun b => b = ⟨set1, set2⟩ ∨ b = ⟨set2, set1⟩ }

/-- The calls on the sets. -/
inductive Action (ι E : Type)
  | add (a : ι) (x : E)
  | remove (a : ι) (x : E)
  | addAll (a : ι) (c : List E)
  | removeAll (i : Iteration E) (a : ι) (c : Argument ι E)
  | retainAll (i : Iteration E) (a : ι) (c : Argument ι E)
  | clear (i : Iteration E) (a : ι)
  | bind (i : Iteration E) (set1 set2 : ι)
  | unbind (set1 set2 : ι)

def step (s : BoundSets ι E) : Action ι E → Except SetFailure (BoundSets ι E)
  | .add a x => Prod.snd <$> s.add a x
  | .remove a x => Prod.snd <$> s.remove a x
  | .addAll a c => Prod.snd <$> addAll a c s
  | .removeAll i a c => Prod.snd <$> removeAll i s a c
  | .retainAll i a c => Prod.snd <$> retainAll i s a c
  | .clear i a => clear i s a
  | .bind i set1 set2 => bind i s set1 set2
  | .unbind set1 set2 => s.unbind set1 set2

/-! ## What is bound to what -/

section Spread

/-- A binding joins the two sets. -/
def Adjacent (bindings : List (SetContentBinding ι)) (a b : ι) : Prop :=
  (⟨a, b⟩ : SetContentBinding ι) ∈ bindings ∨ ⟨b, a⟩ ∈ bindings

/-- Bindings lead from one set to the other. -/
def Connected (bindings : List (SetContentBinding ι)) : ι → ι → Prop :=
  Relation.ReflTransGen (Adjacent bindings)

variable {bindings : List (SetContentBinding ι)} {s s' t : BoundSets ι E} {a b : ι} {x : E}
  {added : Bool}

omit [DecidableEq ι] [Fintype ι] in
theorem Adjacent.symm (h : Adjacent bindings a b) : Adjacent bindings b a := Or.symm h

omit [DecidableEq E] [Fintype ι] in
theorem mem_listeners {l : SetContentBinding ι × ℕ} :
    l ∈ s.listeners a ↔
      s.bindings[l.2]? = some l.1 ∧ (l.1.propertyRef1 = a ∨ l.1.propertyRef2 = a) := by
  rw [listeners, List.mem_filter, List.mem_zipIdx_iff_getElem?, decide_eq_true_iff]

/-- Sets that have `x`, or that do not have it. -/
def reached (s : BoundSets ι E) (added : Bool) (x : E) : Set ι :=
  {a | decide (x ∈ s.backingSet a) = added}

omit [DecidableEq ι] [Fintype ι] in
theorem mem_reached : a ∈ s.reached added x ↔ decide (x ∈ s.backingSet a) = added := Iff.rfl

/-- The sets that an edit has not come to. -/
def missing (s : BoundSets ι E) (added : Bool) (x : E) : Finset ι :=
  {a | decide (x ∈ s.backingSet a) ≠ added}

/-- What a part of an edit from `a` does. -/
structure Editing (added : Bool) (x : E) (a : ι) (s s' : BoundSets ι E) : Prop where
  flood : Flood (Adjacent s.bindings) a (s.reached added x) (s'.reached added x)
  others : ∀ b y, y ≠ x → (y ∈ s'.backingSet b ↔ y ∈ s.backingSet b)
  bindings : s'.bindings = s.bindings
  updating : s'.updating = s.updating

omit [DecidableEq ι] [Fintype ι] in
theorem Editing.refl (a : ι) (s : BoundSets ι E) : Editing added x a s s :=
  ⟨Flood.refl a _, fun _ _ _ => Iff.rfl, rfl, rfl⟩

omit [DecidableEq ι] [Fintype ι] in
theorem Editing.trans (h : Editing added x a s t) (h' : Editing added x a t s') :
    Editing added x a s s' where
  flood := h.flood.trans (h.bindings ▸ h'.flood)
  others b y hy := (h'.others b y hy).trans (h.others b y hy)
  bindings := h'.bindings.trans h.bindings
  updating := h'.updating.trans h.updating

omit [DecidableEq ι] in
theorem Editing.card_missing (h : Editing added x a s t) :
    (t.missing added x).card ≤ (s.missing added x).card := by
  refine Finset.card_le_card fun b hb => ?_
  rw [missing, Finset.mem_filter] at hb ⊢
  exact ⟨hb.1, fun hs => hb.2 (h.flood.grows hs)⟩

/-- A binding whose flag is set has passed the edit on from one of its ends. -/
def Guarded (added : Bool) (x : E) (s : BoundSets ι E) : Prop :=
  ∀ k ∈ s.updating, ∀ l, s.bindings[k]? = some l →
    l.propertyRef1 ∈ s.reached added x ∨ l.propertyRef2 ∈ s.reached added x

omit [DecidableEq ι] [Fintype ι] in
theorem Editing.guarded (h : Editing added x a s t) (hs : Guarded added x s) :
    Guarded added x t := by
  intro k hk l hl
  rw [h.updating] at hk
  rw [h.bindings] at hl
  exact (hs k hk l hl).imp (fun hm => h.flood.grows hm) fun hm => h.flood.grows hm

omit [DecidableEq E] [Fintype ι] in
theorem adjacent_dest {l : SetContentBinding ι × ℕ} (hl : l ∈ s.listeners a) :
    Adjacent s.bindings a (dest a l.1) := by
  obtain ⟨hget, hend⟩ := mem_listeners.mp hl
  have hmem := List.mem_of_getElem? hget
  unfold dest
  split_ifs with h
  · exact .inl (by rw [← h]; exact hmem)
  · have h₂ := hend.resolve_left h
    exact .inr (by rw [← h₂]; exact hmem)

/-- The call of one listener of `a`, which has the edit already. -/
theorem onChanged_spec {fuel : ℕ}
    (ih : ∀ (s : BoundSets ι E) (a : ι), (s.missing added x).card < fuel → Guarded added x s →
      ∃ ret s', edit added x fuel s a = .ok (ret, s') ∧ Editing added x a s s' ∧
        a ∈ s'.reached added x)
    (hfuel : (s.missing added x).card < fuel) (hguard : Guarded added x s)
    (ha : a ∈ s.reached added x) {l : SetContentBinding ι × ℕ} (hl : l ∈ s.listeners a)
    (hback : l.2 ∈ s.updating → dest a l.1 ∈ s.reached added x) :
    ∃ s', onChanged (edit added x fuel) a s l = .ok s' ∧ Editing added x a s s' ∧
      dest a l.1 ∈ s'.reached added x := by
  unfold onChanged
  split_ifs with hupdating
  · exact ⟨s, rfl, .refl a s, hback hupdating⟩
  · have hguard' : Guarded added x { s with updating := insert l.2 s.updating } := by
      intro k hk l' hl'
      rcases Finset.mem_insert.mp hk with rfl | hk
      · obtain ⟨hget, hend⟩ := mem_listeners.mp hl
        obtain rfl := Option.some.inj (hget.symm.trans hl')
        rcases hend with hend | hend
        · exact .inl (by rw [hend]; exact ha)
        · exact .inr (by rw [hend]; exact ha)
      · exact hguard k hk l' hl'
    obtain ⟨ret, s', hs', hedit, hdest⟩ :=
      ih { s with updating := insert l.2 s.updating } (dest a l.1) hfuel hguard'
    refine ⟨{ s' with updating := s'.updating.erase l.2 }, ?_, ?_, hdest⟩
    · rw [hs']
      rfl
    · refine ⟨hedit.flood.of_adj (adjacent_dest hl), hedit.others, hedit.bindings, ?_⟩
      have hset : s'.updating = insert l.2 s.updating := hedit.updating
      exact (congrArg (Finset.erase · l.2) hset).trans (Finset.erase_insert hupdating)

theorem foldlM_onChanged_spec {fuel : ℕ}
    (ih : ∀ (s : BoundSets ι E) (a : ι), (s.missing added x).card < fuel → Guarded added x s →
      ∃ ret s', edit added x fuel s a = .ok (ret, s') ∧ Editing added x a s s' ∧
        a ∈ s'.reached added x)
    (hfuel : (s.missing added x).card < fuel) (hguard : Guarded added x s)
    (ha : a ∈ s.reached added x) (ls : List (SetContentBinding ι × ℕ))
    (hls : ∀ l ∈ ls, l ∈ s.listeners a)
    (hback : ∀ l ∈ ls, l.2 ∈ s.updating → dest a l.1 ∈ s.reached added x) :
    ∃ s', ls.foldlM (onChanged (edit added x fuel) a) s = .ok s' ∧ Editing added x a s s' ∧
      ∀ l ∈ ls, dest a l.1 ∈ s'.reached added x := by
  induction ls generalizing s with
  | nil => exact ⟨s, rfl, .refl a s, fun l hl => absurd hl List.not_mem_nil⟩
  | cons l ls ihls =>
    obtain ⟨hl, hrest⟩ := List.forall_mem_cons.mp hls
    obtain ⟨hbackl, hbackrest⟩ := List.forall_mem_cons.mp hback
    obtain ⟨t, ht, hst, hdest⟩ := onChanged_spec ih hfuel hguard ha hl hbackl
    obtain ⟨s', hs', hts', hdests⟩ := ihls (hst.card_missing.trans_lt hfuel) (hst.guarded hguard)
      (hst.flood.grows ha)
      (fun l hl => by rw [mem_listeners, hst.bindings, ← mem_listeners]; exact hrest l hl)
      (fun l hl hu => hst.flood.grows (hbackrest l hl (hst.updating ▸ hu)))
    refine ⟨s', ?_, hst.trans hts', List.forall_mem_cons.mpr ⟨hts'.flood.grows hdest, hdests⟩⟩
    rw [List.foldlM_cons, ht]
    exact hs'

/-- **An edit** spreads over what is not reached yet, and comes back. -/
theorem edit_spec (fuel : ℕ) (s : BoundSets ι E) (a : ι)
    (hfuel : (s.missing added x).card < fuel) (hguard : Guarded added x s) :
    ∃ ret s', edit added x fuel s a = .ok (ret, s') ∧ Editing added x a s s' ∧
      a ∈ s'.reached added x := by
  induction fuel generalizing s a with
  | zero => exact absurd hfuel (Nat.not_lt_zero _)
  | succ fuel ih =>
    rw [edit]
    split_ifs with hhas
    · exact ⟨false, s, rfl, .refl a s, hhas⟩
    · -- what the set is after the call on its own backing set
      generalize hs₁ : s.setBackingSet a (changed added x (s.backingSet a)) = s₁
      have hself : s₁.backingSet a = changed added x (s.backingSet a) := by
        rw [← hs₁]
        exact Function.update_self ..
      have hne : ∀ b, b ≠ a → s₁.backingSet b = s.backingSet b := fun b hb => by
        rw [← hs₁]
        exact Function.update_of_ne hb ..
      have ha₁ : a ∈ s₁.reached added x := by
        rw [mem_reached, hself]
        cases added <;> simp [changed]
      have hreached : s₁.reached added x = insert a (s.reached added x) := by
        ext b
        by_cases hb : b = a
        · subst hb
          exact iff_of_true ha₁ (Set.mem_insert b _)
        · rw [Set.mem_insert_iff, mem_reached, mem_reached, hne b hb]
          exact (or_iff_right hb).symm
      have hbindings : s₁.bindings = s.bindings := hs₁ ▸ rfl
      have hupdating : s₁.updating = s.updating := hs₁ ▸ rfl
      have hcard : (s₁.missing added x).card < fuel := by
        refine Nat.lt_of_lt_of_le (Finset.card_lt_card ?_) (Nat.le_of_lt_succ hfuel)
        refine (Finset.ssubset_iff_of_subset fun b hb => ?_).mpr ⟨a, ?_, ?_⟩
        · rw [missing, Finset.mem_filter] at hb ⊢
          refine ⟨hb.1, fun hs => hb.2 ?_⟩
          have hmem : b ∈ s₁.reached added x := hreached ▸ Set.mem_insert_of_mem a hs
          exact hmem
        · rw [missing, Finset.mem_filter]
          exact ⟨Finset.mem_univ a, hhas⟩
        · rw [missing, Finset.mem_filter]
          exact fun h => h.2 ha₁
      have hguard₁ : Guarded added x s₁ := by
        intro k hk l hl
        rw [hupdating] at hk
        rw [hbindings] at hl
        rw [hreached]
        exact (hguard k hk l hl).imp (Set.mem_insert_of_mem a) (Set.mem_insert_of_mem a)
      -- a call that is under way along a listener of `a` came from its other end
      have hback : ∀ l ∈ s₁.listeners a, l.2 ∈ s₁.updating → dest a l.1 ∈ s₁.reached added x := by
        intro l hl hk
        obtain ⟨hget, hend⟩ := mem_listeners.mp hl
        rw [hupdating] at hk
        rw [hbindings] at hget
        rw [hreached]
        refine Set.mem_insert_of_mem a ?_
        have hsome := hguard l.2 hk l.1 hget
        unfold dest
        split_ifs with h
        · exact hsome.resolve_left fun hm => hhas (h ▸ hm)
        · exact hsome.resolve_right fun hm => hhas (hend.resolve_left h ▸ hm)
      obtain ⟨s', hs', hedit, hdests⟩ :=
        foldlM_onChanged_spec ih hcard hguard₁ ha₁ (s₁.listeners a) (fun _ hl => hl) hback
      dsimp only
      rw [hs']
      refine ⟨true, s', rfl, ⟨?_, fun b y hy => ?_, ?_, ?_⟩, hedit.flood.grows ha₁⟩
      · have hflood := hedit.flood
        rw [hreached, hbindings] at hflood
        refine hflood.visit fun c hc => ?_
        obtain ⟨l, hl, hdest⟩ : ∃ l ∈ s₁.listeners a, dest a l.1 = c := by
          rcases hc with hmem | hmem
          · obtain ⟨k, hk⟩ := List.getElem?_of_mem hmem
            exact ⟨(⟨a, c⟩, k), mem_listeners.mpr ⟨by rw [hbindings]; exact hk, .inl rfl⟩, if_pos rfl⟩
          · obtain ⟨k, hk⟩ := List.getElem?_of_mem hmem
            refine ⟨(⟨c, a⟩, k), mem_listeners.mpr ⟨by rw [hbindings]; exact hk, .inr rfl⟩, ?_⟩
            unfold dest
            split_ifs with h
            · exact h.symm
            · rfl
        exact hdest ▸ hdests l hl
      · rw [hedit.others b y hy]
        by_cases hb : b = a
        · rw [hb, hself]
          cases added <;> simp [changed, hy]
        · rw [hne b hb]
      · rw [hedit.bindings, hbindings]
      · rw [hedit.updating, hupdating]

end Spread

/-! ## Whole calls -/

section Calls

variable {s s' t : BoundSets ι E} {a b : ι} {x : E} {u v : Finset E}

/-- Sets that are bound hold the same, and no call is under way. -/
structure Agree (s : BoundSets ι E) : Prop where
  equal : ∀ a b, Adjacent s.bindings a b → s.backingSet a = s.backingSet b
  idle : s.updating = ∅

omit [DecidableEq ι] [DecidableEq E] [Fintype ι] in
theorem Agree.connected (h : Agree s) (hab : Connected s.bindings a b) :
    s.backingSet a = s.backingSet b := by
  induction hab with
  | refl => rfl
  | tail _ hadj ih => exact ih.trans (h.equal _ _ hadj)

/-- The sets bound to `a` hold `u` afterwards, all others what they held. -/
structure Effect (a : ι) (u : Finset E) (s s' : BoundSets ι E) : Prop where
  agree : Agree s'
  bindings : s'.bindings = s.bindings
  inside : ∀ b, Connected s.bindings a b → s'.backingSet b = u
  outside : ∀ b, ¬Connected s.bindings a b → s'.backingSet b = s.backingSet b

omit [DecidableEq ι] [DecidableEq E] [Fintype ι] in
theorem Effect.none (h : Agree s) (a : ι) : Effect a (s.backingSet a) s s :=
  ⟨h, rfl, fun _ hb => (h.connected hb).symm, fun _ _ => rfl⟩

omit [DecidableEq ι] [DecidableEq E] [Fintype ι] in
theorem Effect.trans (h : Effect a u s t) (h' : Effect a v t s') : Effect a v s s' where
  agree := h'.agree
  bindings := h'.bindings.trans h.bindings
  inside b hb := h'.inside b (h.bindings.symm ▸ hb)
  outside b hb := (h'.outside b (h.bindings.symm ▸ hb)).trans (h.outside b hb)

omit [DecidableEq ι] [DecidableEq E] [Fintype ι] in
theorem Effect.self (h : Effect a u s s') : s'.backingSet a = u :=
  h.inside a Relation.ReflTransGen.refl

/-- `add` and `remove` end, and change all the sets that are bound to the one. -/
theorem edit_effect (added : Bool) (x : E) (h : Agree s) (a : ι) :
    ∃ ret s', edit added x (Fintype.card ι + 1) s a = .ok (ret, s') ∧
      Effect a (changed added x (s.backingSet a)) s s' := by
  have hguard : Guarded added x s := by
    intro k hk
    rw [h.idle] at hk
    exact absurd hk (Finset.notMem_empty k)
  obtain ⟨ret, s', hs', hedit, ha⟩ :=
    edit_spec (Fintype.card ι + 1) s a (Nat.lt_succ_of_le (Finset.card_le_univ _)) hguard
  refine ⟨ret, s', hs', ?_⟩
  by_cases hhas : decide (x ∈ s.backingSet a) = added
  · -- nothing to do
    have hsame : changed added x (s.backingSet a) = s.backingSet a := by
      unfold changed
      cases added with
      | false => simpa using hhas
      | true => simpa using hhas
    rw [edit, if_pos hhas] at hs'
    obtain ⟨-, rfl⟩ := Prod.mk.inj (Except.ok.inj hs')
    rw [hsame]
    exact Effect.none h a
  · have hfresh : ∀ c, Connected s.bindings a c → c ∉ s.reached added x := by
      intro c hc hmem
      rw [mem_reached, ← h.connected hc] at hmem
      exact hhas hmem
    have hmem : ∀ b, b ∈ s'.reached added x ↔
        b ∈ s.reached added x ∨ Connected s.bindings a b := fun b =>
      hedit.flood.mem_iff ha hfresh
    have hinside : ∀ b, Connected s.bindings a b →
        s'.backingSet b = changed added x (s.backingSet a) := by
      intro b hb
      have hb' : decide (x ∈ s'.backingSet b) = added := (hmem b).mpr (.inr hb)
      ext y
      unfold changed
      by_cases hy : y = x
      · subst hy
        cases added <;> simpa using hb'
      · rw [hedit.others b y hy, h.connected hb]
        cases added <;> simp [hy]
    have houtside : ∀ b, ¬Connected s.bindings a b → s'.backingSet b = s.backingSet b := by
      intro b hb
      ext y
      by_cases hy : y = x
      · subst hy
        have hiff := (hmem b).trans (or_iff_left hb)
        rw [mem_reached, mem_reached] at hiff
        cases added <;> simpa [not_iff_not] using hiff
      · exact hedit.others b y hy
    refine ⟨⟨fun b c hbc => ?_, hedit.updating.trans h.idle⟩, hedit.bindings, hinside, houtside⟩
    rw [hedit.bindings] at hbc
    by_cases hb : Connected s.bindings a b
    · rw [hinside b hb, hinside c (hb.tail hbc)]
    · rw [houtside b hb, houtside c fun hc => hb (hc.tail hbc.symm), h.equal b c hbc]

theorem iteratorRemove_effect (h : Agree s) (hx : x ∈ s.backingSet a) :
    ∃ s', s.iteratorRemove a x = .ok s' ∧ Effect a ((s.backingSet a).erase x) s s' := by
  obtain ⟨ret, s', hs', heffect⟩ := edit_effect false x h a
  refine ⟨s', ?_, heffect⟩
  rw [iteratorRemove, if_pos hx, remove, hs']
  rfl

theorem addAll_effect (c : List E) (h : Agree s) :
    ∃ ret s', addAll a c s = .ok (ret, s') ∧ Effect a (s.backingSet a ∪ c.toFinset) s s' := by
  induction c generalizing s with
  | nil =>
    refine ⟨false, s, rfl, ?_⟩
    rw [List.toFinset_nil, Finset.union_empty]
    exact Effect.none h a
  | cons x c ih =>
    obtain ⟨ret, t, ht, hst⟩ := edit_effect true x h a
    obtain ⟨rest, s', hs', hts'⟩ := ih hst.agree
    refine ⟨ret || rest, s', ?_, ?_⟩
    · rw [addAll, add, ht, ok_bind]
      dsimp only
      rw [hs']
      rfl
    · have hall : t.backingSet a ∪ c.toFinset = s.backingSet a ∪ (x :: c).toFinset := by
        rw [hst.self, changed, if_pos rfl, List.toFinset_cons, Finset.insert_union,
          Finset.union_insert]
      exact hall ▸ hst.trans hts'

theorem clearLoop_effect (l : List E) (hnodup : l.Nodup) (h : Agree s)
    (hl : ∀ y, y ∈ s.backingSet a ↔ y ∈ l) :
    ∃ s', l.foldlM (fun s x => s.iteratorRemove a x) s = .ok s' ∧ Effect a ∅ s s' := by
  induction l generalizing s with
  | nil =>
    have hempty : s.backingSet a = ∅ :=
      Finset.eq_empty_of_forall_notMem fun y hy => absurd ((hl y).mp hy) List.not_mem_nil
    exact ⟨s, rfl, hempty ▸ Effect.none h a⟩
  | cons x l ih =>
    obtain ⟨hx, hnodup⟩ := List.nodup_cons.mp hnodup
    obtain ⟨t, ht, hst⟩ := iteratorRemove_effect h ((hl x).mpr List.mem_cons_self)
    obtain ⟨s', hs', hts'⟩ := ih hnodup hst.agree fun y => by
      rw [hst.self, Finset.mem_erase, hl, List.mem_cons]
      constructor
      · rintro ⟨hne, rfl | hy⟩
        · exact absurd rfl hne
        · exact hy
      · exact fun hy => ⟨fun heq => hx (heq ▸ hy), .inr hy⟩
    refine ⟨s', ?_, hst.trans hts'⟩
    rw [List.foldlM_cons, ht]
    exact hs'

theorem clear_effect (i : Iteration E) (h : Agree s) (a : ι) :
    ∃ s', clear i s a = .ok s' ∧ Effect a ∅ s s' :=
  clearLoop_effect _ (i.nodup _) h fun y => (i.mem _ y).symm

omit [DecidableEq ι] [Fintype ι] in
/-- An element that is still to come is in the argument as it was before. -/
theorem Effect.contains {c : Argument ι E} {y : E} (h : Agree s)
    (heffect : Effect a ((s.backingSet a).erase x) s s') (hy : y ≠ x) :
    s'.contains c y = s.contains c y := by
  cases c with
  | collection c => rfl
  | set b =>
    rw [BoundSets.contains, BoundSets.contains, decide_eq_decide]
    by_cases hb : Connected s.bindings a b
    · rw [heffect.inside b hb, h.connected hb, Finset.mem_erase]
      exact and_iff_right hy
    · rw [heffect.outside b hb]

theorem removeRetainLoop_effect (c : Argument ι E) (remove : Bool) (l : List E)
    (hnodup : l.Nodup) (h : Agree s) (hl : ∀ y ∈ l, y ∈ s.backingSet a) :
    ∃ ret s', removeRetainLoop a c remove l s = .ok (ret, s') ∧
      Effect a {y ∈ s.backingSet a | y ∈ l → s.contains c y ≠ remove} s s' := by
  induction l generalizing s with
  | nil =>
    refine ⟨false, s, rfl, ?_⟩
    rw [Finset.filter_true_of_mem fun y _ hy => absurd hy List.not_mem_nil]
    exact Effect.none h a
  | cons x l ih =>
    obtain ⟨hx, hnodup⟩ := List.nodup_cons.mp hnodup
    obtain ⟨hxa, hrest⟩ := List.forall_mem_cons.mp hl
    have hother : ∀ y ∈ l, y ≠ x := fun y hy heq => hx (heq ▸ hy)
    rw [removeRetainLoop]
    split_ifs with hcontains
    · obtain ⟨t, ht, hst⟩ := iteratorRemove_effect h hxa
      obtain ⟨ret, s', hs', hts'⟩ := ih hnodup hst.agree fun y hy => by
        rw [hst.self]
        exact Finset.mem_erase.mpr ⟨hother y hy, hrest y hy⟩
      refine ⟨true, s', ?_, ?_⟩
      · rw [ht, ok_bind, hs']
        rfl
      · refine (congrArg (Effect a · s s') ?_).mp (hst.trans hts')
        ext y
        rw [Finset.mem_filter, Finset.mem_filter, hst.self, Finset.mem_erase]
        by_cases hy : y = x
        · subst hy
          exact iff_of_false (fun h => h.1.1 rfl) fun h =>
            h.2 List.mem_cons_self hcontains.symm
        · rw [hst.contains h hy, List.mem_cons, or_iff_right hy]
          exact and_congr_left' (and_iff_right hy)
    · obtain ⟨ret, s', hs', heffect⟩ := ih hnodup h hrest
      refine ⟨ret, s', hs', (congrArg (Effect a · s s') ?_).mp heffect⟩
      ext y
      rw [Finset.mem_filter, Finset.mem_filter]
      by_cases hy : y = x
      · subst hy
        exact and_congr_right fun _ => ⟨fun _ _ => Ne.symm hcontains, fun _ hyl => absurd hyl hx⟩
      · rw [List.mem_cons, or_iff_right hy]

theorem removeRetain_effect (i : Iteration E) (c : Argument ι E) (remove : Bool) (h : Agree s) :
    ∃ ret s', removeRetain i s a c remove = .ok (ret, s') ∧
      Effect a {y ∈ s.backingSet a | s.contains c y ≠ remove} s s' := by
  obtain ⟨ret, s', hs', heffect⟩ := removeRetainLoop_effect (a := a) c remove
    (i.toList (s.backingSet a)) (i.nodup _) h fun y hy => (i.mem _ y).mp hy
  refine ⟨ret, s', hs', (congrArg (Effect a · s s') ?_).mp heffect⟩
  refine Finset.filter_congr fun y hy => ?_
  exact ⟨fun hne => hne ((i.mem _ y).mpr hy), fun hne _ => hne⟩

/-- What `bind` does before it registers the binding. -/
theorem bindContents_effect (i : Iteration E) (h : Agree s) (set1 set2 : ι) :
    ∃ t ret s', clear i s set1 = .ok t ∧
      addAll set1 (i.toList (t.backingSet set2)) t = .ok (ret, s') ∧
      Effect set1 (t.backingSet set2) s s' ∧ Effect set1 ∅ s t := by
  obtain ⟨t, ht, hst⟩ := clear_effect i h set1
  obtain ⟨ret, s', hs', hts'⟩ := addAll_effect (a := set1) (i.toList (t.backingSet set2)) hst.agree
  have hall : t.backingSet set1 ∪ (i.toList (t.backingSet set2)).toFinset = t.backingSet set2 := by
    ext y
    rw [hst.self, Finset.empty_union, List.mem_toFinset, i.mem]
  exact ⟨t, ret, s', ht, hs', hst.trans (hall ▸ hts'), hst⟩

end Calls

/-! ## Runs -/

section Run

variable {s : BoundSets ι E}

namespace Action

/-- The set that a call is made on. -/
def target : Action ι E → ι
  | .add a _ | .remove a _ | .addAll a _ | .removeAll _ a _ | .retainAll _ a _ | .clear _ a
  | .bind _ a _ | .unbind a _ => a

/-- A set is not bound to itself. -/
def Distinct : Action ι E → Prop
  | .bind _ a b | .unbind a b => a ≠ b
  | _ => True

open Classical in
/-- What the set, and all that are bound to it, hold after a call. `bind` clears its first set
before it reads the second one, which is empty by then if the two are bound to each other. -/
noncomputable def contents (s : BoundSets ι E) : Action ι E → Finset E
  | .add a x => insert x (s.backingSet a)
  | .remove a x => (s.backingSet a).erase x
  | .addAll a c => s.backingSet a ∪ c.toFinset
  | .removeAll _ a c => {y ∈ s.backingSet a | s.contains c y = false}
  | .retainAll _ a c => {y ∈ s.backingSet a | s.contains c y = true}
  | .clear _ _ => ∅
  | .bind _ a b => if Connected s.bindings a b then ∅ else s.backingSet b
  | .unbind a _ => s.backingSet a

end Action

/-- Sets bound to the target of the call hold the same as it, and all others what they held. -/
def Right (s s' : BoundSets ι E) (act : Action ι E) : Prop :=
  ∀ b, (Connected s.bindings act.target b → s'.backingSet b = act.contents s) ∧
    (¬Connected s.bindings act.target b → s'.backingSet b = s.backingSet b)

theorem step_right (h : Agree s) (act : Action ι E) (hact : act.Distinct) :
    ∃ s', step s act = .ok s' ∧ Agree s' ∧ Right s s' act := by
  have of_effect : ∀ {u s'}, u = act.contents s → Effect act.target u s s' →
      Agree s' ∧ Right s s' act := by
    rintro u s' rfl heffect
    exact ⟨heffect.agree, fun b => ⟨heffect.inside b, heffect.outside b⟩⟩
  cases act with
  | add a x =>
    obtain ⟨ret, s', hs', heffect⟩ := edit_effect true x h a
    exact ⟨s', by rw [step, add, hs']; rfl, of_effect rfl heffect⟩
  | remove a x =>
    obtain ⟨ret, s', hs', heffect⟩ := edit_effect false x h a
    exact ⟨s', by rw [step, remove, hs']; rfl, of_effect rfl heffect⟩
  | addAll a c =>
    obtain ⟨ret, s', hs', heffect⟩ := addAll_effect (a := a) c h
    exact ⟨s', by rw [step, hs']; rfl, of_effect rfl heffect⟩
  | removeAll i a c =>
    obtain ⟨ret, s', hs', heffect⟩ := removeRetain_effect (a := a) i c true h
    refine ⟨s', by rw [step, removeAll, hs']; rfl, of_effect ?_ heffect⟩
    exact Finset.filter_congr fun y _ => Bool.not_eq_true _ ▸ Iff.rfl
  | retainAll i a c =>
    obtain ⟨ret, s', hs', heffect⟩ := removeRetain_effect (a := a) i c false h
    refine ⟨s', by rw [step, retainAll, hs']; rfl, of_effect ?_ heffect⟩
    exact Finset.filter_congr fun y _ => Bool.not_eq_false _ ▸ Iff.rfl
  | clear i a =>
    obtain ⟨s', hs', heffect⟩ := clear_effect i h a
    exact ⟨s', hs', of_effect rfl heffect⟩
  | bind i set1 set2 =>
    obtain ⟨t, ret, s', ht, hs', heffect, hcleared⟩ := bindContents_effect i h set1 set2
    have hread : t.backingSet set2 = (Action.bind i set1 set2).contents s := by
      rw [Action.contents]
      split_ifs with hconnected
      · exact hcleared.inside set2 hconnected
      · exact hcleared.outside set2 hconnected
    obtain ⟨hagree, hright⟩ := of_effect hread heffect
    -- the second set holds what was read from it, bound to the first one or not
    have hset2 : s'.backingSet set1 = s'.backingSet set2 := by
      rw [heffect.self]
      by_cases hconnected : Connected s.bindings set1 set2
      · exact (heffect.inside set2 hconnected).symm
      · rw [heffect.outside set2 hconnected, hcleared.outside set2 hconnected]
    have hjoin : ∀ {a b : ι}, (⟨a, b⟩ : SetContentBinding ι) ∈ s'.bindings ++ [⟨set1, set2⟩] →
        s'.backingSet a = s'.backingSet b := by
      intro a b hmem
      rcases List.mem_append.mp hmem with hmem | hmem
      · exact hagree.equal a b (.inl hmem)
      · obtain ⟨rfl, rfl⟩ := SetContentBinding.mk.inj (List.mem_singleton.mp hmem)
        exact hset2
    refine ⟨{ s' with bindings := s'.bindings ++ [⟨set1, set2⟩] }, ?_, ⟨fun a b hab => ?_, ?_⟩,
      hright⟩
    · rw [step, bind, if_neg hact, ht, ok_bind, hs']
      rfl
    · rcases hab with hmem | hmem
      · exact hjoin hmem
      · exact (hjoin hmem).symm
    · exact hagree.idle
  | unbind set1 set2 =>
    refine ⟨_, if_neg hact, ⟨fun a b hab => h.equal a b ?_, h.idle⟩, fun b => ⟨fun hb => ?_, fun _ => rfl⟩⟩
    · exact hab.imp List.mem_of_mem_eraseP List.mem_of_mem_eraseP
    · exact (h.connected hb).symm

end Run

/-- Backing sets of numbers that come in ascending order. -/
def ascending : Iteration ℕ := ⟨Finset.sort, fun t => t.sort_nodup _, fun _ _ => Finset.mem_sort _⟩

end BoundSets

end JavaFx.Binding
