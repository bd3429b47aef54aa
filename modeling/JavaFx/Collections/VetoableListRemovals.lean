/-
What `removeAll` and `retainAll` of `VetoableListDecorator` propose.

The document of `onProposedChange` wants the positions that are to be removed as
ranges, in order and as long as they can be: removing 2, 3 and 5 is `{2, 4, 5, 6}`.
`removeFromList` has a branch that makes the last range longer, but asks for it
whether that range starts at the position in hand, which it never does. So every
position gets a range of its own, and the proposal is right if no two of them are
next to each other (`removal_ranges_iff`).

A sublist proposes positions of the whole list, so it matters that its `offset` is
where it starts there. The decorated list is outside; what is documented of it and of
its sublists is `Documented`. That the offsets are right is kept by every call
(`Reached.aligned`).
-/
import JavaFx.Collections.VetoableListErrors

set_option autoImplicit false

namespace JavaFx.Collections.VetoableList

open JavaFx.Lib

variable {E L : Type} [DecidableEq E]

/-! ## The decorated list -/

/-- In a list `xs`, the position `k` is in the part of length `n` from `a`, and its
element passes the test. -/
def removedAt (xs : List E) (a n : ℕ) (p : E → Bool) (k : ℕ) : Bool :=
  decide (a ≤ k ∧ k < a + n) && xs[k]?.any p

/-- What is left of a list without these positions. -/
def dropAt (removed : ℕ → Bool) (xs : List E) : List E :=
  (xs.zipIdx.filter (fun x => !removed x.2)).map Prod.fst

/-- Whether an element is removed by `removeAll(c)` or, with `complement`, by
`retainAll(c)`. -/
def removes (complement : Bool) (c : List E) (e : E) : Bool := xor (decide (e ∈ c)) complement

/-- The command of `removeAll` and `retainAll`. -/
def removalCommand (complement : Bool) (c : Option (List E)) : Command E :=
  if complement then .retainAll c else .removeAll c

/-- What is documented of a list and its sublists: `range` is the part of the whole list
that a sublist is, as long as it may be used, and `made` counts the lists there have
been. A sublist is a view of a part, which does not start somewhere else later. -/
structure Documented (D : Decorated E L) where
  elements : L → List E
  made : L → ℕ
  range : L → ℕ → Option (ℕ × ℕ)
  length_lt : ∀ l, (elements l).length < 2 ^ 31
  whole : ∀ l, range l 0 = some (0, (elements l).length)
  range_lt : ∀ l h r, range l h = some r → h < made l
  range_le : ∀ l h a n, range l h = some (a, n) → a + n ≤ (elements l).length
  size : ∀ l h a n, range l h = some (a, n) → D.size l h = .ok n
  get : ∀ l h a n, range l h = some (a, n) → ∀ i < n, ∀ e, (elements l)[a + i]? = some e →
    D.get l h i = .ok e
  removal : ∀ l h a n, range l h = some (a, n) → ∀ complement c answer,
    (D.perform l h (removalCommand complement (some c))).1 = .ok answer →
    elements (D.perform l h (removalCommand complement (some c))).2
      = dropAt (removedAt (elements l) a n (removes complement c)) (elements l)
  made_perform : ∀ l h c, made l ≤ made (D.perform l h c).2
  range_perform : ∀ l h c k a n, k < made l → range (D.perform l h c).2 k = some (a, n) →
    ∃ n', range l k = some (a, n')
  made_view : ∀ l h v, made l ≤ made (D.view l h v).2
  range_view : ∀ l h v k a n, k < made l → range (D.view l h v).2 k = some (a, n) →
    ∃ n', range l k = some (a, n')
  subList : ∀ l h fromIndex toIndex k, (D.view l h (.subList fromIndex toIndex)).1 = .ok k →
    0 ≤ fromIndex ∧ made l ≤ k ∧ k < made (D.view l h (.subList fromIndex toIndex)).2
      ∧ range (D.view l h (.subList fromIndex toIndex)).2 k
        = (range l h).map (fun r => (r.1 + fromIndex.toNat, (toIndex - fromIndex).toNat))

namespace Documented

variable {D : Decorated E L} (doc : Documented D)

/-- The lists of `l` are those of `l'`, at the same places, where they may be used still. -/
structure Later (l l' : L) : Prop where
  made : doc.made l ≤ doc.made l'
  range : ∀ k a n, k < doc.made l → doc.range l' k = some (a, n) →
    ∃ n', doc.range l k = some (a, n')

/-- The states that calls of the decorator, its sublists and its iterators can lead to,
also when the decorated list is changed from elsewhere in between. -/
inductive Reached : World L → Prop
  | new (list : L) : Reached (World.new list)
  | call {w : World L} (veto : List E → List ℤ → Option Exn) (c : Call E) (hw : Reached w) :
      Reached (match (call D veto c).run w with
        | .ok _ w' => w'
        | .error _ w' => w')
  | elsewhere {w : World L} (l : L) (hw : Reached w) (hlater : doc.Later w.list l) :
      Reached { w with list := l }

/-- The list may be used and is the part of length `n` from `a`: its check passes, and
so would that of the list it decorates. -/
def Usable (w : World L) (this : Option ℕ) (a n : ℕ) : Prop :=
  match this with
  | none => doc.range w.list 0 = some (a, n)
  | some v => ∃ s, w.sublists[v]? = some s ∧ (accessorGet s.accessor).run w = .ok s.modCount w
      ∧ doc.range w.list s.subList = some (a, n)

end Documented

/-! ## Proposals -/

/-- `removeAll` and `retainAll`. -/
def removal (complement : Bool) (c : Option (List E)) : Mutator E :=
  if complement then .retainAll c else .removeAll c

/-- The ranges `removeFromList` finds when it is called by such a method. -/
def proposedRanges (D : Decorated E L) (w : World L) (this : Option ℕ) (complement : Bool)
    (c : List E) : List (ℤ × ℤ) :=
  match (target this >>= fun p => toBeRemoved D this p.2 (some c) complement (2 ^ 31) 0 []).run w with
  | .ok ranges _ => ranges
  | .error _ _ => []

/-- The ranges are what is documented for these positions: in order, with a position
that is kept between any two, and covering exactly these positions. -/
structure Describes (removed : ℕ → Bool) (ranges : List (ℤ × ℤ)) : Prop where
  nonempty : ∀ r ∈ ranges, r.1 < r.2
  separated : ranges.Pairwise (fun r s => r.2 < s.1)
  covers : ∀ k : ℤ, (∃ r ∈ ranges, r.1 ≤ k ∧ k < r.2) ↔ ∃ j : ℕ, (j : ℤ) = k ∧ removed j = true

/-- What `removeAll` and `retainAll` are to propose, and what they then remove. -/
structure RightProposal {D : Decorated E L} (doc : Documented D) (w : World L) (this : Option ℕ)
    (a n : ℕ) (complement : Bool) (c : List E) : Prop where
  /-- `onProposedChange` is called with the ranges, if there are any, and nothing else is
  done before the command. -/
  calls : ∀ veto, (mutate D veto this (removal complement (some c))).run w = (do
      if proposedRanges D w this complement c ≠ [] then
        onProposedChange veto []
          ((proposedRanges D w this complement c).flatMap (fun r => [r.1, r.2]))
      let (h, _) ← target this
      guarded D (incrementModCount this) (decrementModCount this) h
        (removalCommand complement (some c)) : Method (World L) (Answer E)).run w
  removes : ∀ veto answer w', (mutate D veto this (removal complement (some c))).run w
      = .ok answer w' → doc.elements w'.list
        = dropAt (removedAt (doc.elements w.list) a n (removes complement c)) (doc.elements w.list)
  silent : proposedRanges D w this complement c = []
    ↔ ∀ k, removedAt (doc.elements w.list) a n (VetoableList.removes complement c) k = false
  ranges : Describes (removedAt (doc.elements w.list) a n (VetoableList.removes complement c))
    (proposedRanges D w this complement c)

/-! ## The offsets -/

/-- Every sublist has the offset at which it starts in the whole list. -/
def Documented.Aligned {D : Decorated E L} (doc : Documented D) (w : World L) : Prop :=
  ∀ s ∈ w.sublists, s.subList < doc.made w.list
    ∧ ∀ a n, doc.range w.list s.subList = some (a, n) → s.offset = a

section Aligned

variable {D : Decorated E L} {doc : Documented D} {w w' : World L} {α β : Type}

/-- However the method ends, the offsets are right. -/
def Documented.Keeps (doc : Documented D) (x : Method (World L) α) : Prop :=
  ∀ w, doc.Aligned w → Wp x w (fun _ w' => doc.Aligned w') (fun _ w' => doc.Aligned w')

theorem aligned_later (h : doc.Aligned w) {l : L} (hlater : doc.Later w.list l)
    (hsublists : w'.sublists = w.sublists) (hlist : w'.list = l) : doc.Aligned w' := by
  intro s hs
  rw [hsublists] at hs
  obtain ⟨hmade, hoffset⟩ := h s hs
  rw [hlist]
  refine ⟨hmade.trans_le hlater.made, fun a n hrange => ?_⟩
  obtain ⟨n', hrange'⟩ := hlater.range _ a n hmade hrange
  exact hoffset a n' hrange'

theorem aligned_sync (h : doc.Aligned w) {n : ℤ} {accessor : List ℕ}
    (hsublists : w'.sublists = sync n accessor w.sublists) (hlist : w'.list = w.list) :
    doc.Aligned w' := by
  intro s' hs'
  rw [hsublists, List.mem_iff_getElem?] at hs'
  obtain ⟨k, hk⟩ := hs'
  rw [getElem?_sync, Option.map_eq_some_iff] at hk
  obtain ⟨s, hs, rfl⟩ := hk
  have hkept := h s (List.mem_iff_getElem?.mpr ⟨k, hs⟩)
  rw [hlist]
  split_ifs
  · exact hkept
  · exact hkept

theorem Quiet.keeps {x : Method (World L) α} (h : Quiet x) : doc.Keeps x := by
  intro w hw
  apply (h w).mono
  · rintro _ _ rfl
    exact hw
  · rintro e w' (_ | _ | _)
    all_goals exact hw

theorem Documented.Keeps.bind {x : Method (World L) α} {f : α → Method (World L) β}
    (hx : doc.Keeps x) (hf : ∀ a, doc.Keeps (f a)) : doc.Keeps (x >>= f) := by
  intro w hw
  rw [wp_bind]
  exact (hx w hw).mono (fun a w' hw' => hf a w' hw') (fun _ _ hw' => hw')

theorem keeps_perform (h : ℕ) (c : Command E) : doc.Keeps (perform D h c) := by
  intro w hw
  have hlater : doc.Later w.list (D.perform w.list h c).2 :=
    ⟨doc.made_perform _ _ _, fun k a n => doc.range_perform _ _ _ k a n⟩
  have hw' : doc.Aligned { w with list := (D.perform w.list h c).2 } :=
    aligned_later hw hlater rfl rfl
  rw [perform, wp_bind, wp_get, wp_bind, wp_modify]
  exact (Quiet.noted _).keeps _ hw'

theorem keeps_incrementAndGet (accessor : List ℕ) :
    doc.Keeps (incrementAndGet accessor : Method (World L) ℤ) :=
  fun w hw => Wp.of_ok (run_incrementAndGet w accessor) (aligned_sync hw rfl rfl)

theorem keeps_decrementAndGet (accessor : List ℕ) :
    doc.Keeps (decrementAndGet accessor : Method (World L) ℤ) :=
  fun w hw => Wp.of_ok (run_decrementAndGet w accessor) (aligned_sync hw rfl rfl)

theorem keeps_assignIterator (i : ℕ) (f : Iter → Iter) :
    doc.Keeps (assignIterator i f : Method (World L) PUnit) :=
  fun _ hw => hw

theorem keeps_guarded {increment decrement : Method (World L) PUnit} (hup : doc.Keeps increment)
    (hdown : doc.Keeps decrement) (h : ℕ) (c : Command E) :
    doc.Keeps (guarded D increment decrement h c) := by
  intro w hw
  rw [guarded, wp_catchException]
  refine ((?hbody : doc.Keeps _) w hw).mono (fun _ _ hw' => hw') ?_
  case hbody =>
    refine hup.bind (fun _ => (keeps_perform h c).bind (fun ret => ?_))
    intro w hw
    refine (wp_ite _ _).mpr ⟨fun _ => ?_, fun _ => hw⟩
    cases ret with
    | bool b =>
      cases b with
      | false => exact hdown.bind (fun _ => (Quiet.pure _).keeps) w hw
      | true => exact hw
    | none | int _ | element _ | elements _ => exact hw
  intro e w' hw'
  split_ifs
  · exact hdown.bind (fun _ => (Quiet.throw e).keeps) w' hw'
  · exact hw'

theorem keeps_incrementModCount (this : Option ℕ) :
    doc.Keeps (incrementModCount this : Method (World L) PUnit) :=
  (Quiet.accessorOf this).keeps.bind (fun accessor => (keeps_incrementAndGet accessor).bind
    (fun _ => (Quiet.pure _).keeps))

theorem keeps_decrementModCount (this : Option ℕ) :
    doc.Keeps (decrementModCount this : Method (World L) PUnit) :=
  (Quiet.accessorOf this).keeps.bind (fun accessor => (keeps_decrementAndGet accessor).bind
    (fun _ => (Quiet.pure _).keeps))

theorem target_ends (hw : doc.Aligned w) (this : Option ℕ) :
    Wp (target this) w (fun p w' => w' = w ∧ ∀ a n, doc.range w.list p.1 = some (a, n) → p.2 = a)
      (fun _ w' => w' = w) := by
  cases this with
  | none =>
    refine ⟨rfl, fun a n hrange => ?_⟩
    rw [doc.whole, Option.some.injEq, Prod.mk.injEq] at hrange
    rw [← hrange.1, Nat.cast_zero]
  | some v =>
    rw [target, wp_bind, subListOf, wp_bind, wp_get]
    cases hv : w.sublists[v]? with
    | none => exact rfl
    | some s => exact ⟨rfl, (hw s (List.mem_iff_getElem?.mpr ⟨v, hv⟩)).2⟩

/-- A sublist of a sublist starts where it is made to start. -/
theorem keeps_newView (this : Option ℕ) (v : View) : doc.Keeps (newView D this v) := by
  refine (Quiet.check this).keeps.bind (fun _ w hw => ?_)
  rw [wp_bind]
  apply (target_ends hw this).mono
  swap
  · rintro _ _ rfl
    exact hw
  rintro ⟨h, offset⟩ _ ⟨rfl, hoffset⟩
  dsimp only at hoffset ⊢
  rename_i w
  rw [wp_bind]
  apply (Quiet.accessorOf this w).mono
  swap
  · rintro e w' (_ | _ | _)
    all_goals exact hw
  rintro accessor _ rfl
  rename_i w
  have hlater : doc.Later w.list (D.view w.list h v).2 :=
    ⟨doc.made_view _ _ _, fun k a n => doc.range_view _ _ _ k a n⟩
  have hw' : doc.Aligned { w with list := (D.view w.list h v).2 } :=
    aligned_later hw hlater rfl rfl
  rw [wp_bind, wp_get, wp_bind, wp_modify, wp_bind]
  cases hview : (D.view w.list h v).1 with
  | error e => exact hw'
  | ok made =>
    refine wp_bind.mpr ?_
    apply (accessorGet_ends _ accessor).mono
    swap
    · rintro _ _ rfl
      exact hw'
    rintro modCount _ ⟨rfl, -⟩
    cases v with
    | iterator | listIterator | listIteratorAt _ => exact hw'
    | subList fromIndex toIndex =>
      obtain ⟨hfrom, -, hmade, hrange⟩ := doc.subList _ _ _ _ _ hview
      intro s hs
      rcases List.mem_append.mp hs with hs | hs
      · exact hw' s hs
      · rw [List.mem_singleton] at hs
        rw [hs]
        refine ⟨hmade, fun a n hrange' => ?_⟩
        change doc.range (D.view w.list h (.subList fromIndex toIndex)).2 made = some (a, n)
          at hrange'
        rw [hrange, Option.map_eq_some_iff] at hrange'
        obtain ⟨⟨a₀, n₀⟩, hh, heq⟩ := hrange'
        rw [Prod.mk.injEq] at heq
        rw [hoffset a₀ n₀ hh, ← heq.1, Nat.cast_add, Int.toNat_of_nonneg hfrom]

theorem keeps_call (veto : List E → List ℤ → Option Exn) (c : Call E) :
    doc.Keeps (call D veto c) := by
  -- a counting command of the decorator or of a sublist
  have hcommand (this : Option ℕ) (h : ℕ) (c : Command E) :
      doc.Keeps (guarded D (incrementModCount this) (decrementModCount this) h c) :=
    keeps_guarded (keeps_incrementModCount this) (keeps_decrementModCount this) h c
  have hiterator (i : ℕ) (it : Iter) (c : Command E) :
      doc.Keeps (guarded D (iteratorIncrement i it.accessor) (iteratorDecrement i it.accessor)
        it.it c) :=
    keeps_guarded ((keeps_incrementAndGet _).bind (fun _ => keeps_assignIterator i _))
      ((keeps_decrementAndGet _).bind (fun _ => keeps_assignIterator i _)) _ _
  have hassign {α : Type} (i : ℕ) (f : Iter → Iter) (a : α) :
      doc.Keeps (assignIterator i f >>= fun _ => pure a : Method (World L) α) :=
    (keeps_assignIterator i f).bind (fun _ => (Quiet.pure a).keeps)
  cases c with
  | ask this q => exact (Quiet.ask D this q).keeps
  | mutate this m =>
    refine (Quiet.beforeTry D veto this m).keeps.bind (fun command => ?_)
    cases command with
    | none => exact (Quiet.pure _).keeps
    | some c => exact (Quiet.target this).keeps.bind (fun p => hcommand this p.1 c)
  | setAt this index element =>
    exact (Quiet.check this).keeps.bind (fun _ => (Quiet.target this).keeps.bind (fun p =>
      (Quiet.onProposedChange veto _ _).keeps.bind (fun _ => keeps_perform _ _)))
  | newView this v => exact keeps_newView this v
  | setAll col =>
    exact (Quiet.newArrayList col).keeps.bind (fun _ => (Quiet.size D none).keeps.bind (fun _ =>
      (Quiet.onProposedChange veto _ _).keeps.bind (fun _ => hcommand none 0 _)))
  | removeRange start stop =>
    refine (Quiet.onProposedChange veto _ _).keeps.bind (fun _ w hw => ?_)
    rw [wp_catchException]
    have htry : doc.Keeps (do
        incrementModCount none
        let _ ← perform D 0 (.removeRange start stop)
        return .none : Method (World L) (Answer E)) :=
      (keeps_incrementModCount none).bind (fun _ => (keeps_perform _ _).bind (fun _ =>
        (Quiet.pure _).keeps))
    apply (htry w hw).mono (fun _ _ hw' => hw')
    intro e w' hw'
    split_ifs
    · exact (keeps_decrementModCount none).bind (fun _ => (Quiet.pure _).keeps) w' hw'
    · exact hw'
  | iterate i op =>
    refine (Quiet.iteratorOf i).keeps.bind (fun it => ?_)
    cases op with
    | ask q =>
      exact (Quiet.iteratorCheck it).keeps.bind (fun _ =>
        (Quiet.get_bind (fun w => Quiet.noted _)).keeps)
    | next | previous =>
      exact (Quiet.iteratorCheck it).keeps.bind (fun _ => (keeps_perform _ _).bind (fun e =>
        hassign i _ e))
    | set e =>
      have hset : doc.Keeps (onProposedChange veto [e]
          [it.offset + it.lastReturned, it.offset + it.lastReturned + 1] >>= fun _ =>
          perform D it.it (.iteratorSet e)) :=
        (Quiet.onProposedChange veto _ _).keeps.bind (fun _ => keeps_perform _ _)
      refine (Quiet.iteratorCheck it).keeps.bind (fun _ w hw => (wp_ite _ _).mpr
        ⟨fun _ => ?_, fun _ => hset w hw⟩)
      exact (Quiet.throw (α := PUnit) Exn.illegalState).keeps.bind (fun _ => hset) w hw
    | remove | add _ =>
      exact (Quiet.iteratorBeforeTry veto it _).keeps.bind (fun _ =>
        (hiterator i it _).bind (fun _ => hassign i _ _))

/-- In every state that can be reached the offsets are right. -/
theorem Documented.Reached.aligned (h : doc.Reached w) : doc.Aligned w := by
  induction h with
  | new list => exact nofun
  | call veto c hw ih =>
    have hends := keeps_call veto c _ ih
    rw [Wp] at hends
    split
    · rename_i heq
      rw [heq] at hends
      exact hends
    · rename_i heq
      rw [heq] at hends
      exact hends
  | elsewhere l hw hlater ih => exact aligned_later ih hlater rfl rfl

end Aligned

/-! ## The loop -/

/-- A range for every element that passes the test; the first element is at `i`. -/
def singles (p : E → Bool) : (i : ℤ) → List E → List (ℤ × ℤ)
  | _, [] => []
  | i, e :: es => if p e then (i, i + 1) :: singles p (i + 1) es else singles p (i + 1) es

section Singles

variable {p : E → Bool} {i : ℤ} {es : List E}

omit [DecidableEq E] in
theorem mem_singles {r : ℤ × ℤ} : r ∈ singles p i es
    ↔ ∃ j e, es[j]? = some e ∧ p e = true ∧ r = (i + (j : ℕ), i + (j : ℕ) + 1) := by
  induction es generalizing i with
  | nil => simp [singles]
  | cons e es ih =>
    have htail : r ∈ singles p (i + 1) es
        ↔ ∃ j e', es[j]? = some e' ∧ p e' = true
          ∧ r = (i + (j + 1 : ℕ), i + (j + 1 : ℕ) + 1) := by
      rw [ih]
      refine exists_congr fun j => exists_congr fun e' => ?_
      rw [show i + 1 + (j : ℤ) = i + (j + 1 : ℕ) by omega]
    have hsplit : r ∈ singles p i (e :: es)
        ↔ (p e = true ∧ r = (i, i + 1)) ∨ r ∈ singles p (i + 1) es := by
      rw [singles]
      split_ifs with hp
      · rw [List.mem_cons]
        simp [hp]
      · simp [hp]
    rw [hsplit, htail]
    constructor
    · rintro (⟨hp, hr⟩ | ⟨j, e', he', hp, hr⟩)
      · exact ⟨0, e, rfl, hp, by rw [hr, Nat.cast_zero, add_zero]⟩
      · exact ⟨j + 1, e', he', hp, hr⟩
    · rintro ⟨j, e', he', hp, hr⟩
      cases j with
      | zero =>
        rw [List.getElem?_cons_zero, Option.some.injEq] at he'
        rw [Nat.cast_zero, add_zero] at hr
        exact Or.inl ⟨he' ▸ hp, hr⟩
      | succ j => exact Or.inr ⟨j, e', he', hp, hr⟩

omit [DecidableEq E] in
theorem singles_pairwise : (singles p i es).Pairwise (fun r s => r.1 < s.1) := by
  induction es generalizing i with
  | nil => exact List.Pairwise.nil
  | cons e es ih =>
    rw [singles]
    split_ifs
    · refine List.pairwise_cons.mpr ⟨fun s hs => ?_, ih⟩
      obtain ⟨j, -, -, -, rfl⟩ := mem_singles.mp hs
      dsimp only
      omega
    · exact ih

/-- No range found so far starts at the position in hand. -/
theorem addIndex_eq {ranges : List (ℤ × ℤ)} (h : ∀ r ∈ ranges, r.1 < i) :
    addIndex ranges i = ranges ++ [(i, i + 1)] := by
  rw [addIndex]
  cases hlast : ranges.getLast? with
  | none => rw [List.getLast?_eq_none_iff.mp hlast, List.nil_append]
  | some r =>
    have hlt := h r (List.mem_of_getLast? hlast)
    dsimp only
    rw [if_neg hlt.ne]

end Singles

section Loop

variable {D : Decorated E L} {doc : Documented D} {w : World L} {this : Option ℕ} {a n : ℕ}

/-- A list that may be used passes its check and has its target. -/
theorem usable_target (hw : doc.Aligned w) (h : doc.Usable w this a n) :
    (checkForComodification this).run w = .ok ⟨⟩ w
      ∧ ∃ k, (target this).run w = .ok (k, (a : ℤ)) w ∧ doc.range w.list k = some (a, n) := by
  cases this with
  | none =>
    have hrange : doc.range w.list 0 = some (a, n) := h
    rw [doc.whole, Option.some.injEq, Prod.mk.injEq] at hrange
    refine ⟨rfl, 0, ?_, h⟩
    rw [← hrange.1]
    rfl
  | some v =>
    obtain ⟨s, hs, hcheck, hrange⟩ := h
    have hoffset := (hw s (List.mem_iff_getElem?.mpr ⟨v, hs⟩)).2 a n hrange
    have hself : (subListOf v).run w = .ok s w := by
      simp [subListOf, hs]
    refine ⟨?_, s.subList, ?_, hrange⟩
    · rw [checkForComodification, EStateM.run_bind, hself]
      dsimp only
      rw [EStateM.run_bind, hcheck]
      simp
    · rw [target, EStateM.run_bind, hself]
      dsimp only
      rw [hoffset]
      rfl

theorem run_size (hw : doc.Aligned w) (h : doc.Usable w this a n) :
    (size D this).run w = .ok (n : ℤ) w := by
  obtain ⟨hcheck, k, htarget, hrange⟩ := usable_target hw h
  rw [size, EStateM.run_bind, hcheck]
  dsimp only
  rw [EStateM.run_bind, htarget]
  dsimp only
  rw [EStateM.run_bind, EStateM.run_get]
  dsimp only
  rw [doc.size _ _ _ _ hrange]
  rfl

theorem run_getAt (hw : doc.Aligned w) (h : doc.Usable w this a n) {i : ℕ} (hi : i < n) {e : E}
    (he : (doc.elements w.list)[a + i]? = some e) : (getAt D this i).run w = .ok e w := by
  obtain ⟨hcheck, k, htarget, hrange⟩ := usable_target hw h
  rw [getAt, EStateM.run_bind, hcheck]
  dsimp only
  rw [EStateM.run_bind, htarget]
  dsimp only
  rw [EStateM.run_bind, EStateM.run_get]
  dsimp only
  rw [doc.get _ _ _ _ hrange i hi e he]
  rfl

/-- The loop finds a range for each position from `i` on. -/
theorem run_toBeRemoved (hw : doc.Aligned w) (h : doc.Usable w this a n) (complement : Bool)
    (c : List E) (fuel i : ℕ) (rest : List E) (ranges : List (ℤ × ℤ))
    (hrest : ((doc.elements w.list).drop (a + i)).take (n - i) = rest)
    (hi : i + rest.length = n) (hfuel : rest.length < fuel)
    (hranges : ∀ r ∈ ranges, r.1 < (a : ℤ) + i) :
    (toBeRemoved D this a (some c) complement fuel i ranges).run w
      = .ok (ranges ++ singles (removes complement c) (a + i) rest) w := by
  induction fuel generalizing i rest ranges with
  | zero => exact absurd hfuel (Nat.not_lt_zero _)
  | succ fuel ih =>
    rw [toBeRemoved, EStateM.run_bind, run_size hw h]
    dsimp only
    cases rest with
    | nil =>
      rw [List.length_nil, Nat.add_zero] at hi
      rw [if_neg (by omega), singles, List.append_nil]
      rfl
    | cons e rest =>
      rw [List.length_cons] at hi hfuel
      have hlt : i < n := by omega
      have hget : (doc.elements w.list)[a + i]? = some e := by
        have hhead := congrArg List.head? hrest
        rw [List.head?_take, if_neg (by omega), List.head?_drop, List.head?_cons] at hhead
        exact hhead
      have htail : ((doc.elements w.list).drop (a + (i + 1))).take (n - (i + 1)) = rest := by
        have htails := congrArg List.tail hrest
        rw [List.tail_cons, ← List.drop_one, List.drop_take, List.drop_drop] at htails
        rw [← htails]
        congr 1
      rw [if_pos (by omega), EStateM.run_bind, run_getAt hw h hlt hget]
      dsimp only
      have hnext := ih (i + 1) rest
        (if xor (decide (e ∈ c)) complement then addIndex ranges (a + i) else ranges)
        htail (by omega) (by omega) (by
          intro r hr
          split_ifs at hr
          · rw [addIndex_eq hranges, List.mem_append, List.mem_singleton] at hr
            rcases hr with hr | rfl
            · have := hranges r hr
              omega
            · dsimp only
              omega
          · have := hranges r hr
            omega)
      rw [Nat.cast_add, Nat.cast_one, ← add_assoc] at hnext
      rw [hnext, singles, removes]
      split_ifs
      · rw [addIndex_eq hranges, List.append_assoc, List.singleton_append]
      · rfl

end Loop

/-! ## What is proposed -/

omit [DecidableEq E] in
theorem removedAt_iff {xs : List E} {a n : ℕ} {p : E → Bool} {k : ℕ} : removedAt xs a n p k = true
    ↔ ∃ j e, ((xs.drop a).take n)[j]? = some e ∧ p e = true ∧ k = a + j := by
  rw [removedAt, Bool.and_eq_true, decide_eq_true_iff, Option.any_eq_true]
  constructor
  · rintro ⟨⟨hle, hlt⟩, e, he, hp⟩
    obtain ⟨j, rfl⟩ := Nat.exists_eq_add_of_le hle
    refine ⟨j, e, ?_, hp, rfl⟩
    rw [List.getElem?_take_of_lt (by omega), List.getElem?_drop]
    exact he
  · rintro ⟨j, e, he, hp, rfl⟩
    have hlt : j < n := by
      have := (List.getElem?_eq_some_iff.mp he).1
      rw [List.length_take] at this
      omega
    rw [List.getElem?_take_of_lt hlt, List.getElem?_drop] at he
    exact ⟨⟨Nat.le_add_right a j, by omega⟩, e, he, hp⟩

/-- Ranges of one position each are what is documented if no two are adjacent. -/
theorem describes_iff {removed : ℕ → Bool} {ranges : List (ℤ × ℤ)}
    (hmem : ∀ r, r ∈ ranges ↔ ∃ k : ℕ, removed k = true ∧ r = ((k : ℤ), (k : ℤ) + 1))
    (hsorted : ranges.Pairwise (fun r s => r.1 < s.1)) :
    Describes removed ranges ↔ ∀ k, removed k = true → removed (k + 1) = false := by
  constructor
  · intro h k hk
    by_contra hnext
    rw [Bool.not_eq_false] at hnext
    obtain ⟨i, hi, hri⟩ := List.getElem_of_mem ((hmem _).mpr ⟨k, hk, rfl⟩)
    obtain ⟨j, hj, hrj⟩ := List.getElem_of_mem ((hmem _).mpr ⟨k + 1, hnext, rfl⟩)
    have hseparated := List.pairwise_iff_getElem.mp h.separated
    rcases lt_trichotomy i j with hlt | heq | hgt
    · have := hseparated i j hi hj hlt
      rw [hri, hrj] at this
      push_cast at this
      omega
    · subst heq
      rw [hri, Prod.mk.injEq] at hrj
      push_cast at hrj
      omega
    · have := hseparated j i hj hi hgt
      rw [hri, hrj] at this
      push_cast at this
      omega
  · intro h
    refine ⟨fun r hr => ?_, hsorted.imp_of_mem fun {r s} hr hs hlt => ?_, fun k => ⟨?_, ?_⟩⟩
    · obtain ⟨k, -, rfl⟩ := (hmem r).mp hr
      exact lt_add_one _
    · obtain ⟨k, hk, rfl⟩ := (hmem r).mp hr
      obtain ⟨m, hm, rfl⟩ := (hmem s).mp hs
      have hne : m ≠ k + 1 := by
        rintro rfl
        rw [h k hk] at hm
        exact Bool.false_ne_true hm
      dsimp only at hlt ⊢
      omega
    · rintro ⟨r, hr, hle, hlt⟩
      obtain ⟨j, hj, rfl⟩ := (hmem r).mp hr
      exact ⟨j, le_antisymm hle (Int.lt_add_one_iff.mp hlt), hj⟩
    · rintro ⟨j, rfl, hj⟩
      exact ⟨(j, j + 1), (hmem _).mpr ⟨j, hj, rfl⟩, le_refl _, lt_add_one _⟩

section Proposal

variable {D : Decorated E L} {doc : Documented D} {w : World L} {this : Option ℕ} {a n : ℕ}

theorem run_ranges (hw : doc.Aligned w) (h : doc.Usable w this a n) (complement : Bool)
    (c : List E) : (toBeRemoved D this a (some c) complement (2 ^ 31) 0 []).run w
      = .ok (singles (removes complement c) a (((doc.elements w.list).drop a).take n)) w := by
  obtain ⟨-, k, -, hrange⟩ := usable_target hw h
  have hle := doc.range_le _ _ _ _ hrange
  have hlt := doc.length_lt w.list
  have hlength : (((doc.elements w.list).drop a).take n).length = n := by
    rw [List.length_take, List.length_drop]
    omega
  have hloop := run_toBeRemoved hw h complement c (2 ^ 31) 0 _ [] rfl
    (by rw [Nat.add_zero, Nat.sub_zero, hlength, Nat.zero_add])
    (by rw [Nat.add_zero, Nat.sub_zero, hlength]; omega) nofun
  rw [Nat.cast_zero, add_zero, Nat.add_zero, Nat.sub_zero, List.nil_append] at hloop
  exact hloop

theorem proposedRanges_eq (hw : doc.Aligned w) (h : doc.Usable w this a n) (complement : Bool)
    (c : List E) : proposedRanges D w this complement c
      = singles (removes complement c) a (((doc.elements w.list).drop a).take n) := by
  obtain ⟨-, k, htarget, -⟩ := usable_target hw h
  rw [proposedRanges, EStateM.run_bind, htarget]
  dsimp only
  rw [run_ranges hw h]

theorem mem_proposedRanges (hw : doc.Aligned w) (h : doc.Usable w this a n) (complement : Bool)
    (c : List E) (r : ℤ × ℤ) : r ∈ proposedRanges D w this complement c
      ↔ ∃ k : ℕ, removedAt (doc.elements w.list) a n (removes complement c) k = true
        ∧ r = ((k : ℤ), (k : ℤ) + 1) := by
  rw [proposedRanges_eq hw h, mem_singles]
  constructor
  · rintro ⟨j, e, he, hp, rfl⟩
    exact ⟨a + j, removedAt_iff.mpr ⟨j, e, he, hp, rfl⟩, by push_cast; rfl⟩
  · rintro ⟨k, hk, rfl⟩
    obtain ⟨j, e, he, hp, rfl⟩ := removedAt_iff.mp hk
    exact ⟨j, e, he, hp, by push_cast; rfl⟩

/-- The method up to its command. -/
theorem run_removal (hw : doc.Aligned w) (h : doc.Usable w this a n) (complement : Bool)
    (c : List E) (veto : List E → List ℤ → Option Exn) :
    (mutate D veto this (removal complement (some c))).run w = (do
      if proposedRanges D w this complement c ≠ [] then
        onProposedChange veto []
          ((proposedRanges D w this complement c).flatMap (fun r => [r.1, r.2]))
      let (h, _) ← target this
      guarded D (incrementModCount this) (decrementModCount this) h
        (removalCommand complement (some c)) : Method (World L) (Answer E)).run w := by
  obtain ⟨hcheck, k, htarget, -⟩ := usable_target hw h
  have hbefore : beforeTry D veto this (removal complement (some c)) = (do
      checkForComodification this
      let (_, offset) ← target this
      removeFromList D veto this offset (some c) complement
      return some (removalCommand complement (some c))) := by
    cases complement with
    | true => rfl
    | false => rfl
  rw [mutate, hbefore, EStateM.run_bind, EStateM.run_bind, hcheck]
  dsimp only
  rw [EStateM.run_bind, htarget]
  dsimp only
  rw [EStateM.run_bind, removeFromList, EStateM.run_bind, run_ranges hw h,
    ← proposedRanges_eq hw h]
  dsimp only
  split_ifs
  · rw [EStateM.run_bind]
    cases (onProposedChange veto [] _ : Method (World L) PUnit).run w with
    | ok _ w' => rfl
    | error e w' => rfl
  · rfl

/-- The command removes what is documented. -/
theorem removal_removes (hw : doc.Aligned w) (h : doc.Usable w this a n) (complement : Bool)
    (c : List E) (veto : List E → List ℤ → Option Exn) :
    Wp (mutate D veto this (removal complement (some c))) w
      (fun _ w' => doc.elements w'.list
        = dropAt (removedAt (doc.elements w.list) a n (removes complement c))
            (doc.elements w.list))
      (fun _ _ => True) := by
  obtain ⟨-, k, htarget, hrange⟩ := usable_target hw h
  have hway : ∃ accessor, way w this = some accessor := by
    cases this with
    | none => exact ⟨[], rfl⟩
    | some v =>
      obtain ⟨s, hs, -⟩ := h
      exact ⟨v :: s.accessor, by rw [way, hs, Option.map_some]⟩
  obtain ⟨accessor, hway⟩ := hway
  have hcounts := @counts_list _ w this accessor hway
  have hguarded : Wp (do
      let (h, _) ← target this
      guarded D (incrementModCount this) (decrementModCount this) h
        (removalCommand complement (some c)) : Method (World L) (Answer E)) w
      (fun _ w' => doc.elements w'.list
        = dropAt (removedAt (doc.elements w.list) a n (removes complement c))
            (doc.elements w.list))
      (fun _ _ => True) := by
    rw [wp_bind]
    refine Wp.of_ok htarget ?_
    dsimp only
    rw [guarded, wp_catchException, wp_bind]
    refine Wp.of_ok hcounts.up ?_
    rw [wp_bind, perform, wp_bind, wp_get, wp_bind, wp_modify]
    have hremoval := doc.removal w.list k a n hrange complement c
    change Wp (noted (D.perform w.list k (removalCommand complement (some c))).1) _ _ _
    cases hanswer : (D.perform w.list k (removalCommand complement (some c))).1 with
    | error e =>
      change ite _ _ _
      split_ifs
      exact wp_bind.mpr (Wp.of_ok (hcounts.down _ (w.modCount + 1) rfl) trivial)
    | ok answer =>
      have hleft := hremoval answer hanswer
      refine (wp_ite _ _).mpr ⟨fun _ => ?_, fun _ => hleft⟩
      have hdown := hcounts.down { w.counted (w.modCount + 1) accessor noIterator with
        list := (D.perform w.list k (removalCommand complement (some c))).2 } (w.modCount + 1) rfl
      cases answer with
      | bool b =>
        cases b with
        | false => exact wp_bind.mpr (Wp.of_ok hdown hleft)
        | true => exact hleft
      | none | int _ | element _ | elements _ => exact hleft
  rw [Wp, run_removal hw h, ← Wp]
  split_ifs
  · rw [wp_bind]
    apply (Quiet.onProposedChange veto [] _ w).mono
    · rintro _ _ rfl
      exact hguarded
    · exact fun _ _ _ => trivial
  · exact hguarded

end Proposal

/-! ## The condition -/

/-- **Removals.** What `removeAll` and `retainAll` of the list or of a sublist that may be
used propose is right exactly if no two neighbours are removed. -/
theorem removal_ranges_iff (D : Decorated E L) (doc : Documented D) (w : World L)
    (hreached : doc.Reached w) (this : Option ℕ) (a n : ℕ) (husable : doc.Usable w this a n)
    (complement : Bool) (c : List E) :
    RightProposal doc w this a n complement c
    ↔ ∀ k, removedAt (doc.elements w.list) a n (removes complement c) k = true →
        removedAt (doc.elements w.list) a n (removes complement c) (k + 1) = false := by
  have hw := hreached.aligned
  have hmem := mem_proposedRanges hw husable complement c
  have hsorted : (proposedRanges D w this complement c).Pairwise (fun r s => r.1 < s.1) := by
    rw [proposedRanges_eq hw husable]
    exact singles_pairwise
  rw [← describes_iff hmem hsorted]
  constructor
  · exact RightProposal.ranges
  · refine fun hdescribes => ⟨run_removal hw husable complement c, fun veto answer w' hrun => ?_,
      ⟨fun hnone k => ?_, fun hnone => ?_⟩, hdescribes⟩
    · have hends := removal_removes hw husable complement c veto
      rw [Wp, hrun] at hends
      exact hends
    · by_contra hk
      have hr := (hmem _).mpr ⟨k, Bool.eq_true_of_not_eq_false hk, rfl⟩
      rw [hnone] at hr
      exact List.not_mem_nil hr
    · rw [List.eq_nil_iff_forall_not_mem]
      intro r hr
      obtain ⟨k, hk, -⟩ := (hmem r).mp hr
      rw [hnone k] at hk
      exact Bool.false_ne_true hk

/-- A list of at most two numbers without sublists, which removes what it is told to. -/
def short : Decorated ℕ {l : List ℕ // l.length ≤ 2} where
  size l h := if h = 0 then .ok l.1.length else .error .concurrentModification
  get l h i := if h = 0 then
      match l.1[i.toNat]? with
      | some e => .ok e
      | none => .error .indexOutOfBounds
    else .error .concurrentModification
  indexOf l _ o := .ok (if l.1.idxOf o < l.1.length then l.1.idxOf o else -1)
  query _ _ _ := .error .unsupportedOperation
  perform l h c :=
    let filtered (p : ℕ → Bool) : Except Exn (Answer ℕ) × {l : List ℕ // l.length ≤ 2} :=
      (.ok (.bool (decide (l.1.filter p ≠ l.1))),
        ⟨l.1.filter p, (List.length_filter_le _ _).trans l.2⟩)
    if h ≠ 0 then (.error .concurrentModification, l)
    else match c with
      | .removeAll (some c) => filtered (fun e => decide (e ∉ c))
      | .retainAll (some c) => filtered (fun e => decide (e ∈ c))
      | _ => (.error .unsupportedOperation, l)
  view l _ _ := (.error .unsupportedOperation, l)

/-- Removing from the whole list is filtering it. -/
theorem dropAt_all {xs : List ℕ} {p : ℕ → Bool} :
    dropAt (removedAt xs 0 xs.length p) xs = xs.filter (fun e => !p e) := by
  have hkept : ∀ x ∈ xs.zipIdx, removedAt xs 0 xs.length p x.2 = p x.1 := by
    rintro ⟨e, k⟩ hx
    have hget : xs[k]? = some e := List.mem_zipIdx_iff_getElem?.mp hx
    have hlt := (List.getElem?_eq_some_iff.mp hget).1
    rw [removedAt, hget, Option.any_some, decide_eq_true (by omega), Bool.true_and]
  have hfilter : xs.zipIdx.filter (fun x => !removedAt xs 0 xs.length p x.2)
      = xs.zipIdx.filter ((fun e => !p e) ∘ Prod.fst) :=
    List.filter_congr (fun x hx => by rw [hkept x hx]; rfl)
  rw [dropAt, hfilter, ← List.filter_map, List.zipIdx_map_fst]

/-- It does what is documented. -/
def shortDocumented : Documented short where
  elements l := l.1
  made _ := 1
  range l h := if h = 0 then some (0, l.1.length) else none
  length_lt l := l.2.trans_lt (by norm_num)
  whole _ := rfl
  range_lt l h r hr := by
    split_ifs at hr with hh
    omega
  range_le l h a n hr := by
    split_ifs at hr with hh
    cases hr
    exact (Nat.zero_add _).le
  size l h a n hr := by
    split_ifs at hr with hh
    cases hr
    simp [short, hh]
  get l h a n hr i hi e he := by
    split_ifs at hr with hh
    cases hr
    rw [Nat.zero_add] at he
    simp [short, hh, he]
  removal l h a n hr complement c answer hanswer := by
    split_ifs at hr with hh
    cases hr
    rw [dropAt_all]
    cases complement with
    | true => simp [short, hh, removalCommand, removes]
    | false => simp [short, hh, removalCommand, removes]
  made_perform _ _ _ := le_refl _
  range_perform l h c k a n hk hr := by
    rw [if_pos (Nat.lt_one_iff.mp hk)] at hr ⊢
    cases hr
    exact ⟨_, rfl⟩
  made_view _ _ _ := le_refl _
  range_view l h v k a n _ hr := ⟨n, hr⟩
  subList _ _ _ _ _ h := nomatch h

/-- The list `[0, 1]`. -/
def zeroOne : {l : List ℕ // l.length ≤ 2} := ⟨[0, 1], le_refl 2⟩

theorem usable_zeroOne : shortDocumented.Usable (World.new zeroOne) none 0 2 := rfl

/-- `[0, 1].removeAll(1)`. -/
theorem removal_ranges_one : RightProposal shortDocumented (World.new zeroOne) none 0 2 false [1]
    ↔ ∀ k, removedAt [0, 1] 0 2 (removes false [1]) k = true →
        removedAt [0, 1] 0 2 (removes false [1]) (k + 1) = false :=
  removal_ranges_iff short shortDocumented _ (.new zeroOne) none 0 2 usable_zeroOne false [1]

/-- `[0, 1].removeAll(0, 1)` proposes `{0, 1, 1, 2}`. -/
theorem removal_ranges_not_merged :
    ¬ ∀ c, RightProposal shortDocumented (World.new zeroOne) none 0 2 false c := by
  intro h
  have hranges := proposedRanges_eq (Documented.Reached.new zeroOne).aligned usable_zeroOne false
    [0, 1]
  have hseparated := (h [0, 1]).ranges.separated
  rw [hranges] at hseparated
  have hlt : (1 : ℤ) < 1 := (List.pairwise_cons.mp hseparated).1 (1, 2) List.mem_cons_self
  exact lt_irrefl _ hlt

end JavaFx.Collections.VetoableList
