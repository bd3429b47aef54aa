/-
The cascade of a `set` through bidirectional bindings.

While a cascade for the value `v` is running, a property has been reached when its
value is `v`. The cascade is a depth-first search: `set` on a property that was
reached does nothing, and on one that was not it marks the property and walks its
bindings. `Spread` says what a part of the cascade has done: nothing but write `v`,
and every property it reached has its bindings walked, except through a binding that
was `updating` when the part began. A `set` nested in the walk of a binding begins
with that binding's flag up, but both of its sides are reached then.

The number of properties that were not reached bounds the nesting (`set_spread`).
-/
import JavaFx.Binding.BidirectionalBinding

set_option autoImplicit false
set_option linter.unusedSectionVars false

namespace JavaFx.Binding.BidirectionalBinding

open JavaFx.Lib

/-! ## Values that are equal -/

namespace Equality

variable {V : Type} (E : Equality V)

/-- Two values an `ExpressionHelper` does not tell apart. -/
def Same (v w : Option V) : Prop := E.changed v w = false

theorem same_iff {v w : Option V} :
    E.Same v w ↔ (v = none ∧ w = none) ∨ ∃ a b, v = some a ∧ w = some b ∧ E.equals a b = true := by
  rw [Same]
  cases v with
  | none => cases w <;> simp [changed]
  | some a => cases w <;> simp [changed]

theorem same_refl (v : Option V) : E.Same v v := by
  rw [same_iff]
  cases v with
  | none => exact .inl ⟨rfl, rfl⟩
  | some a => exact .inr ⟨a, a, rfl, rfl, E.refl a⟩

variable {E}

theorem Same.symm {v w : Option V} (h : E.Same v w) : E.Same w v := by
  rw [same_iff] at h ⊢
  rcases h with ⟨rfl, rfl⟩ | ⟨a, b, rfl, rfl, hab⟩
  · exact .inl ⟨rfl, rfl⟩
  · exact .inr ⟨b, a, rfl, rfl, E.symm a b hab⟩

theorem Same.trans {u v w : Option V} (h : E.Same u v) (h' : E.Same v w) : E.Same u w := by
  rw [same_iff] at h h' ⊢
  rcases h with ⟨rfl, rfl⟩ | ⟨a, b, rfl, rfl, hab⟩
  · exact h'
  · rcases h' with ⟨hb, -⟩ | ⟨b', c, hb, rfl, hbc⟩
    · cases hb
    · obtain rfl := Option.some.inj hb
      exact .inr ⟨a, c, rfl, rfl, E.trans a b c hab hbc⟩

theorem changed_of_not_same {v w : Option V} (h : ¬ E.Same v w) : E.changed v w = true :=
  eq_true_of_ne_false h

end Equality

namespace System

variable {P V : Type} [DecidableEq P] [DecidableEq V]

/-! ## Bindings -/

section Edges

variable {s : System P V} {b : ℕ} {x y z w : P}

theorem Edge.symm (h : s.Edge b x y) : s.Edge b y x := ⟨h.1, h.2.symm⟩

/-- A binding has two sides. -/
theorem Edge.eq_or (h : s.Edge b x y) (h' : s.Edge b z w) :
    (z = x ∧ w = y) ∨ (z = y ∧ w = x) := by
  rcases h.2 with hb | hb <;> rcases h'.2 with hb' | hb' <;>
    rw [hb] at hb' <;> obtain ⟨rfl, rfl⟩ := Prod.mk.inj (Option.some.inj hb')
  · exact .inl ⟨rfl, rfl⟩
  · exact .inr ⟨rfl, rfl⟩
  · exact .inr ⟨rfl, rfl⟩
  · exact .inl ⟨rfl, rfl⟩

/-- A listener of `p`: `p` is one of the two properties. -/
def touches (s : System P V) (p : P) (b : ℕ) : Bool :=
  match s.pairs[b]? with
  | none => false
  | some (x, y) => x = p ∨ y = p

theorem touches_iff : s.touches x b = true ↔ ∃ y, s.pairs[b]? = some (x, y) ∨ s.pairs[b]? = some (y, x) := by
  rw [touches]
  cases hb : s.pairs[b]? with
  | none => simp
  | some pair =>
    obtain ⟨p, q⟩ := pair
    simp only [decide_eq_true_eq, Option.some.injEq, Prod.mk.injEq]
    constructor
    · rintro (rfl | rfl)
      · exact ⟨q, .inl ⟨rfl, rfl⟩⟩
      · exact ⟨p, .inr ⟨rfl, rfl⟩⟩
    · rintro ⟨y, ⟨rfl, -⟩ | ⟨-, rfl⟩⟩
      · exact .inl rfl
      · exact .inr rfl

theorem touches_congr {s' : System P V} (h : s'.pairs[b]? = s.pairs[b]?) :
    s'.touches x b = s.touches x b := by
  rw [System.touches, System.touches, h]

end Edges

/-- The listeners of every property are the bindings in force that it is part of, in
the order they were made; a property with listeners is valid, and its helper has its
value. -/
structure Wired (s : System P V) : Prop where
  listeners : ∀ p, (s.property p).helper.listeners = s.bound.filter (s.touches p)
  known : ∀ b ∈ s.bound, ∃ x y, s.pairs[b]? = some (x, y) ∧ x ≠ y
  valid : ∀ p, (s.property p).helper.listeners ≠ [] → (s.property p).valid = true
  current : ∀ p, (s.property p).helper.listeners ≠ [] →
    (s.property p).helper.currentValue = s.value p

/-- Bound properties that were not reached are equal. -/
def Agree (E : Equality V) (s : System P V) (v : Option V) : Prop :=
  ∀ b x y, s.Edge b x y → s.value x = v ∨ s.value y = v ∨ E.Same (s.value x) (s.value y)

/-- What a part of a cascade for `v` does. -/
structure Spread (v : Option V) (s s' : System P V) : Prop where
  values : ∀ y, s'.value y = s.value y ∨ s'.value y = v
  pairs : s'.pairs = s.pairs
  updating : s'.updating = s.updating
  bound : s'.bound = s.bound
  walked : ∀ y, s'.value y = v → s.value y ≠ v →
    ∀ b z, s.Edge b y z → s.updating b = false → s'.value z = v

/-- The properties that were not reached. -/
def unreached [Fintype P] (s : System P V) (v : Option V) : Finset P :=
  Finset.univ.filter (fun y => s.value y ≠ v)

section Spread

variable {s s' s'' : System P V} {v : Option V} {E : Equality V} {b : ℕ} {x y : P}

theorem edge_congr (hpairs : s'.pairs = s.pairs) (hbound : s'.bound = s.bound) :
    s'.Edge b x y ↔ s.Edge b x y := by
  rw [Edge, Edge, hpairs, hbound]

theorem Spread.refl (s : System P V) (v : Option V) : Spread v s s :=
  ⟨fun _ => .inl rfl, rfl, rfl, rfl, fun _ hy hn => absurd hy hn⟩

/-- What was reached stays reached. -/
theorem Spread.reached (h : Spread v s s') (hy : s.value y = v) : s'.value y = v := by
  rcases h.values y with hy' | hy'
  · rw [hy', hy]
  · exact hy'

theorem Spread.trans (h : Spread v s s') (h' : Spread v s' s'') : Spread v s s'' := by
  refine ⟨fun y => ?_, h'.pairs.trans h.pairs, h'.updating.trans h.updating,
    h'.bound.trans h.bound, fun y hy hn b z hedge hup => ?_⟩
  · rcases h'.values y with hy' | hy'
    · rw [hy']
      exact h.values y
    · exact .inr hy'
  · by_cases hmid : s'.value y = v
    · exact h'.reached (h.walked y hmid hn b z hedge hup)
    · refine h'.walked y hy hmid b z ((edge_congr h.pairs h.bound).mpr hedge) ?_
      rw [h.updating]
      exact hup

/-- Writing `v` leaves the properties that are not reached in agreement. -/
theorem Agree.of_values (ha : s.Agree E v) (hvalues : ∀ y, s'.value y = s.value y ∨ s'.value y = v)
    (hpairs : s'.pairs = s.pairs) (hbound : s'.bound = s.bound) : s'.Agree E v := by
  intro b x y hedge
  rcases hvalues x with hx | hx
  · rcases hvalues y with hy | hy
    · rw [hx, hy]
      exact ha b x y ((edge_congr hpairs hbound).mp hedge)
    · exact .inr (.inl hy)
  · exact .inl hx

theorem Spread.agree (h : Spread v s s') (ha : s.Agree E v) : s'.Agree E v :=
  ha.of_values h.values h.pairs h.bound

theorem Spread.unreached_le [Fintype P] (h : Spread v s s') :
    (s'.unreached v).card ≤ (s.unreached v).card := by
  apply Finset.card_le_card
  intro y hy
  rw [unreached, Finset.mem_filter] at hy ⊢
  exact ⟨hy.1, fun hv => hy.2 (h.reached hv)⟩

end Spread

/-! ## One property -/

section Modify

variable {s : System P V} {x y : P}

theorem property_modify_self (u : Property V → Property V) :
    (s.modify x u).property x = u (s.property x) := Function.update_self ..

theorem property_modify_of_ne (u : Property V → Property V) (h : y ≠ x) :
    (s.modify x u).property y = s.property y := Function.update_of_ne h ..

theorem modify_modify (s : System P V) (x : P) (u u' : Property V → Property V) :
    (s.modify x u).modify x u' = s.modify x (fun p => u' (u p)) := by
  rw [modify, property_modify_self, modify, modify, Function.update_idem]

/-- A property keeps its listeners and stays up to date. -/
theorem Wired.modify (hw : s.Wired) {u : Property V → Property V}
    (hlisteners : (u (s.property x)).helper.listeners = (s.property x).helper.listeners)
    (hvalid : (s.property x).helper.listeners ≠ [] → (u (s.property x)).valid = true)
    (hcurrent : (s.property x).helper.listeners ≠ [] →
      (u (s.property x)).helper.currentValue = (u (s.property x)).value) :
    (s.modify x u).Wired := by
  refine ⟨fun p => ?_, hw.known, fun p hp => ?_, fun p hp => ?_⟩
  · show _ = s.bound.filter (s.touches p)
    rw [← hw.listeners p]
    by_cases h : p = x
    · rw [h, property_modify_self, hlisteners]
    · rw [property_modify_of_ne u h]
  · by_cases h : p = x
    · subst h
      rw [property_modify_self, hlisteners] at hp
      rw [property_modify_self]
      exact hvalid hp
    · rw [property_modify_of_ne u h] at hp ⊢
      exact hw.valid p hp
  · rw [System.value]
    by_cases h : p = x
    · subst h
      rw [property_modify_self, hlisteners] at hp
      rw [property_modify_self]
      exact hcurrent hp
    · rw [property_modify_of_ne u h] at hp ⊢
      exact hw.current p hp

/-- The bindings of a property are its listeners. -/
theorem Wired.mem_listeners (hw : s.Wired) {b : ℕ} :
    b ∈ (s.property x).helper.listeners ↔ ∃ y, s.Edge b x y := by
  rw [hw.listeners, List.mem_filter, touches_iff]
  constructor
  · rintro ⟨hb, y, hy⟩
    exact ⟨y, hb, hy⟩
  · rintro ⟨y, hb, hy⟩
    exact ⟨hb, y, hy⟩

theorem Wired.edge_ne (hw : s.Wired) {b : ℕ} (h : s.Edge b x y) : x ≠ y := by
  obtain ⟨p, q, hpq, hne⟩ := hw.known b h.1
  rcases h.2 with hb | hb <;> rw [hpq] at hb <;>
    obtain ⟨rfl, rfl⟩ := Prod.mk.inj (Option.some.inj hb)
  · exact hne
  · exact hne.symm

end Modify

/-! ## The parts of a cascade -/

/-- What is asked of the setter that the parts call: a property that was reached or
is different from `v` is set to `v`, and the cascade from it ends. -/
def Sets [Fintype P] (E : Equality V) (v : Option V) (n : ℕ)
    (setValue : System P V → P → Option V → Option (System P V)) : Prop :=
  ∀ s x, s.Wired → s.Agree E v → (s.value x = v ∨ ¬ E.Same (s.value x) v) →
    (s.unreached v).card < n →
    ∃ s', setValue s x v = some s' ∧ s'.Wired ∧ Spread v s s' ∧ s'.value x = v

section Parts

variable [Fintype P] {E : Equality V} {v : Option V} {n : ℕ}
  {setValue : System P V → P → Option V → Option (System P V)} {s : System P V} {b : ℕ} {x z : P}

/-- One binding of a property that was reached. -/
theorem changed_spread (hset : Sets E v n setValue) (hw : s.Wired) (ha : s.Agree E v)
    (hedge : s.Edge b x z) (hx : s.value x = v) (hz : s.value z = v ∨ ¬ E.Same (s.value z) v)
    (hcard : (s.unreached v).card < n) :
    ∃ s', s.changed setValue b x v = some s' ∧ s'.Wired ∧ Spread v s s'
      ∧ (s.updating b = false → s'.value z = v) := by
  have hne := hw.edge_ne hedge
  rw [changed]
  cases hup : s.updating b with
  | true =>
    rw [if_pos rfl]
    exact ⟨s, rfl, hw, .refl s v, fun h => by cases h⟩
  | false =>
    rw [if_neg Bool.false_ne_true]
    -- with the flag of `b` up
    let up : System P V := { s with updating := Function.update s.updating b true }
    have hwup : up.Wired := ⟨hw.listeners, hw.known, hw.valid, hw.current⟩
    obtain ⟨t, ht, hwt, hspread, htz⟩ := hset up z hwup ha hz hcard
    have hcall : (match s.pairs[b]? with
        | none => some s
        | some (property1, property2) =>
          (setValue up (if property1 = x then property2 else property1) v).map (fun s =>
            { s with updating := Function.update s.updating b false }))
        = some { t with updating := Function.update t.updating b false } := by
      rcases hedge.2 with hb | hb <;> rw [hb]
      · dsimp only
        rw [if_pos rfl, ht]
        rfl
      · dsimp only
        rw [if_neg hne.symm, ht]
        rfl
    refine ⟨_, hcall, ⟨hwt.listeners, hwt.known, hwt.valid, hwt.current⟩,
      ⟨hspread.values, hspread.pairs, ?_, hspread.bound, ?_⟩, fun _ => htz⟩
    · show Function.update t.updating b false = s.updating
      rw [hspread.updating]
      show Function.update (Function.update s.updating b true) b false = s.updating
      rw [Function.update_idem, Function.update_eq_self_iff, hup]
    · intro y hy hn c w hc hcup
      by_cases hcb : c = b
      · -- the other side of `b` itself was reached before
        subst hcb
        rcases hedge.eq_or hc with ⟨rfl, -⟩ | ⟨-, rfl⟩
        · exact absurd hx hn
        · exact hspread.reached hx
      · refine hspread.walked y hy hn c w hc ?_
        show Function.update s.updating b true c = false
        rw [Function.update_of_ne hcb]
        exact hcup

/-- The loop over the bindings of a property that was reached. The induction is on
the bindings that are left. -/
theorem callAll_spread (hset : Sets E v n setValue) (bs : List ℕ) :
    ∀ s : System P V, s.Wired → s.Agree E v → s.value x = v →
      (∀ b ∈ bs, ∃ z, s.Edge b x z) →
      (∀ b z, s.Edge b x z → s.value z = v ∨ ¬ E.Same (s.value z) v) →
      (s.unreached v).card < n →
      ∃ s', callAll setValue x bs s = some s' ∧ s'.Wired ∧ Spread v s s'
        ∧ ∀ b ∈ bs, ∀ z, s.Edge b x z → s.updating b = false → s'.value z = v := by
  induction bs with
  | nil =>
    intro s hw _ _ _ _ _
    exact ⟨s, rfl, hw, .refl s v, fun b hb => by cases hb⟩
  | cons b bs ih =>
    intro s hw ha hx hedges hz hcard
    obtain ⟨z, hedge⟩ := hedges b List.mem_cons_self
    have hcurrent : (s.property x).helper.currentValue = v := by
      rw [hw.current x (List.ne_nil_of_mem (hw.mem_listeners.mpr ⟨z, hedge⟩)), hx]
    obtain ⟨t, ht, hwt, hspread, htz⟩ :=
      changed_spread hset hw ha hedge hx (hz b z hedge) hcard
    have hcongr : ∀ {c : ℕ} {y w : P}, t.Edge c y w ↔ s.Edge c y w :=
      edge_congr hspread.pairs hspread.bound
    obtain ⟨s', hs', hws', hspread', hrest⟩ := ih t hwt (hspread.agree ha) (hspread.reached hx)
      (fun c hc => by
        obtain ⟨w, hw'⟩ := hedges c (List.mem_cons_of_mem _ hc)
        exact ⟨w, hcongr.mpr hw'⟩)
      (fun c w hc => by
        rcases hspread.values w with hval | hval
        · rw [hval]
          exact hz c w (hcongr.mp hc)
        · exact .inl hval)
      (Nat.lt_of_le_of_lt hspread.unreached_le hcard)
    refine ⟨s', ?_, hws', hspread.trans hspread', fun c hc w hcw hup => ?_⟩
    · rw [callAll, hcurrent, ht, Option.bind_some, hs']
    · rcases List.mem_cons.mp hc with rfl | hc
      · -- `b` is walked in this round, and stays so
        rcases hedge.eq_or hcw with ⟨-, rfl⟩ | ⟨hxz, -⟩
        · exact hspread'.reached (htz hup)
        · exact absurd hxz (hw.edge_ne hedge)
      · refine hrest c hc w (hcongr.mpr hcw) ?_
        rw [hspread.updating]
        exact hup

/-- The property `x` with the value `v`, before its bindings are walked. -/
def mark (s : System P V) (x : P) (v : Option V) (valid : Bool) (helper : Helper V) :
    System P V :=
  s.modify x (fun _ => ⟨v, valid, helper⟩)

section Mark

variable {valid : Bool} {helper : Helper V}

omit [Fintype P] in
theorem value_mark_self : (s.mark x v valid helper).value x = v := by
  rw [mark, value, property_modify_self]

omit [Fintype P] in
theorem value_mark_of_ne {y : P} (h : y ≠ x) :
    (s.mark x v valid helper).value y = s.value y := by
  rw [mark, value, property_modify_of_ne _ h]
  rfl

omit [Fintype P] in
theorem values_mark (y : P) :
    (s.mark x v valid helper).value y = s.value y ∨ (s.mark x v valid helper).value y = v := by
  by_cases h : y = x
  · rw [h]
    exact .inr value_mark_self
  · exact .inl (value_mark_of_ne h)

omit [Fintype P] in
theorem wired_mark (hw : s.Wired)
    (hlisteners : helper.listeners = (s.property x).helper.listeners)
    (hup : (s.property x).helper.listeners ≠ [] → valid = true ∧ helper.currentValue = v) :
    (s.mark x v valid helper).Wired :=
  hw.modify hlisteners (fun h => (hup h).1) (fun h => (hup h).2)

theorem unreached_mark (hx : s.value x ≠ v) :
    ((s.mark x v valid helper).unreached v).card < (s.unreached v).card := by
  apply Finset.card_lt_card
  refine ⟨fun y hy => ?_, fun hsub => ?_⟩
  · rw [unreached, Finset.mem_filter] at hy ⊢
    refine ⟨hy.1, fun hv => hy.2 ?_⟩
    have hvalues : (s.mark x v valid helper).value y = s.value y
        ∨ (s.mark x v valid helper).value y = v := values_mark y
    rcases hvalues with h | h
    · rw [h, hv]
    · exact h
  · have hmem : x ∈ s.unreached v := by
      rw [unreached, Finset.mem_filter]
      exact ⟨Finset.mem_univ x, hx⟩
    have hnot := hsub hmem
    rw [unreached, Finset.mem_filter] at hnot
    exact hnot.2 value_mark_self

omit [Fintype P] in
/-- A property is reached, and then its bindings are walked. -/
theorem Spread.of_mark {s' : System P V} (h : Spread v (s.mark x v valid helper) s')
    (hwalked : ∀ b z, s.Edge b x z → s.updating b = false → s'.value z = v) : Spread v s s' := by
  refine ⟨fun y => ?_, h.pairs, h.updating, h.bound, fun y hy hn b z hedge hup => ?_⟩
  · rcases h.values y with hy | hy
    · rw [hy]
      exact values_mark y
    · exact .inr hy
  · by_cases hyx : y = x
    · subst hyx
      exact hwalked b z hedge hup
    · exact h.walked y hy (by rw [value_mark_of_ne hyx]; exact hn) b z hedge hup

end Mark

omit [Fintype P] in
theorem modify_eq_mark {u : Property V → Property V} {valid : Bool} {helper : Helper V}
    (hu : u (s.property x) = ⟨v, valid, helper⟩) : s.modify x u = s.mark x v valid helper := by
  rw [mark, modify, modify, hu]

omit [Fintype P] in
/-- What a notification does to the property before it calls a listener. -/
theorem refresh_mark (valid : Bool) (helper helper' : Helper V) :
    ((s.mark x v valid helper).get x).modify x (fun p => { p with helper := helper' })
      = s.mark x v true helper' := by
  rw [get, modify_modify, mark, modify_modify, mark]

omit [Fintype P] in
/-- `set` on a property that has another value, up to the notification. -/
theorem set_succ (E : Equality V) (n : ℕ) (hval : s.value x ≠ v) :
    s.set E (n + 1) x v
      = if (s.property x).valid then
          fireValueChangedEvent E (set E n) (s.mark x v false (s.property x).helper) x
        else some (s.mark x v false (s.property x).helper) := by
  rw [set, if_neg hval]
  cases hvalid : (s.property x).valid with
  | true =>
    rw [if_pos rfl, if_pos rfl, modify_modify]
    congr 1
  | false =>
    rw [if_neg Bool.false_ne_true, if_neg Bool.false_ne_true]
    exact congrArg some (modify_eq_mark (by rw [← hvalid]))

/-- **The cascade from one property.** More nested calls than there are properties to
reach are never made. -/
theorem set_spread (E : Equality V) (v : Option V) (n : ℕ) :
    Sets E v n (set E n : System P V → P → Option V → Option (System P V)) := by
  induction n with
  | zero =>
    intro s x _ _ _ hcard
    exact absurd hcard (Nat.not_lt_zero _)
  | succ n ih =>
    intro s x hw ha hx hcard
    by_cases hval : s.value x = v
    · rw [set, if_pos hval]
      exact ⟨s, rfl, hw, .refl s v, hval⟩
    have hdiff : ¬ E.Same (s.value x) v := hx.resolve_left hval
    have hcard' : ∀ {valid : Bool} {helper : Helper V},
        ((s.mark x v valid helper).unreached v).card < n :=
      Nat.lt_of_lt_of_le (unreached_mark hval) (Nat.le_of_lt_succ hcard)
    have ha' : ∀ {valid : Bool} {helper : Helper V}, (s.mark x v valid helper).Agree E v :=
      ha.of_values values_mark rfl rfl
    -- the other side of a binding of `x` is reached, or equals the old value
    have hside : ∀ {valid : Bool} {helper : Helper V} (b : ℕ) (z : P), s.Edge b x z →
        (s.mark x v valid helper).value z = v
          ∨ ¬ E.Same ((s.mark x v valid helper).value z) v := by
      intro valid helper b z hedge
      rw [value_mark_of_ne (hw.edge_ne hedge).symm]
      rcases ha b x z hedge with h | h | h
      · exact absurd h hval
      · exact .inl h
      · exact .inr (fun hz => hdiff (h.trans hz))
    -- a property without bindings is all there is to reach
    have halone : ∀ {valid : Bool} {helper : Helper V}, (s.property x).helper.listeners = [] →
        helper.listeners = [] →
        ∃ s', some (s.mark x v valid helper) = some s' ∧ s'.Wired ∧ Spread v s s'
          ∧ s'.value x = v := by
      intro valid helper hnil hnil'
      refine ⟨_, rfl, wired_mark hw (hnil'.trans hnil.symm) (fun h => absurd hnil h),
        Spread.of_mark (.refl _ v) (fun b z hedge _ => ?_), value_mark_self⟩
      have hmem := hw.mem_listeners.mpr ⟨z, hedge⟩
      rw [hnil] at hmem
      cases hmem
    rw [set_succ E n hval]
    cases hvalid : (s.property x).valid with
    | false =>
      have hnil : (s.property x).helper.listeners = [] := by
        by_contra hne
        rw [hw.valid x hne] at hvalid
        cases hvalid
      rw [if_neg Bool.false_ne_true]
      exact halone hnil hnil
    | true =>
      rw [if_pos rfl]
      unfold fireValueChangedEvent
      rw [mark, property_modify_self, ← mark]
      dsimp only
      rw [value_mark_self]
      cases hhelper : (s.property x).helper with
      | null =>
        refine halone ?_ rfl
        rw [hhelper]
        rfl
      | single b old =>
        have hcurrent := hw.current x
        have hlisteners := hw.mem_listeners (x := x) (b := b)
        rw [hhelper] at hcurrent hlisteners
        obtain ⟨z, hedge⟩ := hlisteners.mp List.mem_cons_self
        obtain rfl : old = s.value x := hcurrent (List.cons_ne_nil _ _)
        dsimp only
        rw [E.changed_of_not_same (fun h => hdiff h.symm), if_pos rfl, refresh_mark]
        have hwm : (s.mark x v true (.single b v)).Wired :=
          wired_mark hw (by rw [hhelper]; rfl) (fun _ => ⟨rfl, rfl⟩)
        obtain ⟨s', hs', hws', hspread, hz⟩ :=
          changed_spread ih hwm ha' hedge value_mark_self (hside b z hedge) hcard'
        refine ⟨s', hs', hws', hspread.of_mark (fun c w hc hup => ?_),
          hspread.reached value_mark_self⟩
        -- `b` is the only binding of `x`
        have hmem := hw.mem_listeners.mpr ⟨w, hc⟩
        rw [hhelper] at hmem
        obtain rfl := List.mem_singleton.mp hmem
        rcases hedge.eq_or hc with ⟨-, rfl⟩ | ⟨hxz, -⟩
        · exact hz hup
        · exact absurd hxz (hw.edge_ne hedge)
      | generic bs old =>
        have hcurrent := hw.current x
        have hlisteners : ∀ b, b ∈ bs ↔ ∃ z, s.Edge b x z := by
          intro b
          have hmem := hw.mem_listeners (x := x) (b := b)
          rw [hhelper] at hmem
          exact hmem
        rw [hhelper] at hcurrent
        dsimp only
        rw [refresh_mark]
        by_cases hnil : bs = []
        · have hnone : (s.property x).helper.listeners = [] := by
            rw [hhelper]
            exact hnil
          subst hnil
          rw [callAll, ite_self]
          exact halone hnone rfl
        · obtain rfl : old = s.value x := hcurrent hnil
          rw [E.changed_of_not_same (fun h => hdiff h.symm), if_pos rfl]
          have hwm : (s.mark x v true (.generic bs v)).Wired :=
            wired_mark hw (by rw [hhelper]; rfl) (fun _ => ⟨rfl, rfl⟩)
          obtain ⟨s', hs', hws', hspread, hz⟩ :=
            callAll_spread ih bs _ hwm ha' value_mark_self (fun b hb => (hlisteners b).mp hb)
              hside hcard'
          exact ⟨s', hs', hws', hspread.of_mark (fun c w hc hup =>
            hz c ((hlisteners c).mpr ⟨w, hc⟩) w hc hup), hspread.reached value_mark_self⟩

end Parts

end System

end JavaFx.Binding.BidirectionalBinding
