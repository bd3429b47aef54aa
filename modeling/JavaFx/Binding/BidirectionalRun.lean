/-
Runs of `bind`, `unbind` and `set` on a finite set of properties.

Between operations no flag is up and the two sides of every binding in force are
equal (`Settled`). A `set` to a different value spreads to everything that is bound to
the property (`set_spread`), and everything else is left as it was; a `set` to an equal
value stops at the property. `bind` copies the value before it adds the two listeners,
and `unbind` removes one and the same binding from both properties, since both have
them in the order they were made.
-/
import JavaFx.Binding.BidirectionalCascade

set_option autoImplicit false
set_option linter.unusedSectionVars false

namespace JavaFx.Binding.BidirectionalBinding

open JavaFx.Lib

namespace System

variable {P V : Type} [DecidableEq P] [DecidableEq V]

/-! ## Between operations -/

/-- The invariant between operations. -/
structure Settled (E : Equality V) (s : System P V) : Prop where
  wired : s.Wired
  idle : ∀ b, s.updating b = false
  agree : ∀ b x y, s.Edge b x y → E.Same (s.value x) (s.value y)

section Set

variable {E : Equality V} {s : System P V} {v : Option V} {x : P}

/-- A `set` to a value that equals the old one ends at the property. -/
theorem set_quiet (hw : s.Wired) (hval : s.value x ≠ v) (hsame : E.Same v (s.value x)) (n : ℕ) :
    ∃ valid helper, s.set E (n + 1) x v = some (s.mark x v valid helper)
      ∧ helper.listeners = (s.property x).helper.listeners
      ∧ ((s.property x).helper.listeners ≠ [] → valid = true ∧ helper.currentValue = v) := by
  rw [set_succ E n hval]
  cases hvalid : (s.property x).valid with
  | false =>
    rw [if_neg Bool.false_ne_true]
    refine ⟨_, _, rfl, rfl, fun hne => ?_⟩
    rw [hw.valid x hne] at hvalid
    cases hvalid
  | true =>
    rw [if_pos rfl]
    unfold fireValueChangedEvent
    rw [mark, property_modify_self, ← mark]
    dsimp only
    rw [value_mark_self]
    have hcurrent := hw.current x
    cases hhelper : (s.property x).helper with
    | null => exact ⟨_, _, rfl, rfl, fun hne => absurd rfl hne⟩
    | single b old =>
      rw [hhelper] at hcurrent
      obtain rfl : old = s.value x := hcurrent (List.cons_ne_nil _ _)
      dsimp only
      rw [hsame, if_neg Bool.false_ne_true, refresh_mark]
      exact ⟨_, _, rfl, rfl, fun _ => ⟨rfl, rfl⟩⟩
    | generic bs old =>
      rw [hhelper] at hcurrent
      dsimp only
      rw [refresh_mark]
      refine ⟨true, .generic bs v, ?_, rfl, fun _ => ⟨rfl, rfl⟩⟩
      by_cases hnil : bs = []
      · rw [hnil, callAll, ite_self]
      · obtain rfl : old = s.value x := hcurrent hnil
        rw [hsame, if_neg Bool.false_ne_true]

/-- **`set`** ends, and settles the system again. -/
theorem set_settled [Fintype P] (h : s.Settled E) (x : P) (v : Option V) :
    ∃ s', s.set E (depth P) x v = some s' ∧ s'.Settled E ∧ s'.value x = v
      ∧ (∀ y, s'.value y = s.value y ∨ s'.value y = v) ∧ s'.pairs = s.pairs
      ∧ s'.bound = s.bound := by
  have hfuel : (s.unreached v).card < depth P :=
    Nat.lt_succ_of_le (Finset.card_le_univ _)
  have hagree : s.Agree E v := fun b y z hedge => .inr (.inr (h.agree b y z hedge))
  by_cases hquiet : s.value x ≠ v ∧ E.Same v (s.value x)
  · -- nothing that is bound to `x` hears of it
    obtain ⟨valid, helper, hset, hlisteners, hup⟩ := set_quiet h.wired hquiet.1 hquiet.2
      (Fintype.card P)
    have hsame : ∀ y, E.Same ((s.mark x v valid helper).value y) (s.value y) := by
      intro y
      by_cases hy : y = x
      · rw [hy, value_mark_self]
        exact hquiet.2
      · rw [value_mark_of_ne hy]
        exact E.same_refl _
    exact ⟨_, hset, ⟨wired_mark h.wired hlisteners hup, h.idle, fun b y z hedge =>
      (hsame y).trans ((h.agree b y z hedge).trans (hsame z).symm)⟩, value_mark_self, values_mark,
      rfl, rfl⟩
  · have hx : s.value x = v ∨ ¬ E.Same (s.value x) v := by
      by_cases hval : s.value x = v
      · exact .inl hval
      · exact .inr (fun hs => hquiet ⟨hval, hs.symm⟩)
    obtain ⟨s', hs', hw', hspread, hxv⟩ := set_spread E v (depth P) s x h.wired hagree hx hfuel
    refine ⟨s', hs', ⟨hw', fun b => ?_, fun b y z hedge => ?_⟩, hxv, hspread.values,
      hspread.pairs, hspread.bound⟩
    · rw [hspread.updating]
      exact h.idle b
    · -- either both sides were reached, or neither changed
      have hedge' := (edge_congr hspread.pairs hspread.bound).mp hedge
      have hreach : ∀ {y z : P}, s.Edge b y z → s'.value y ≠ s.value y →
          s'.value y = v ∧ s'.value z = v := by
        intro y z hedge hne
        have hy := (hspread.values y).resolve_left hne
        refine ⟨hy, hspread.walked y hy (fun hv => hne (by rw [hy, hv])) b z hedge (h.idle b)⟩
      by_cases hy : s'.value y = s.value y
      · by_cases hz : s'.value z = s.value z
        · rw [hy, hz]
          exact h.agree b y z hedge'
        · obtain ⟨hzv, hyv⟩ := hreach hedge'.symm hz
          rw [hyv, hzv]
          exact E.same_refl v
      · obtain ⟨hyv, hzv⟩ := hreach hedge' hy
        rw [hyv, hzv]
        exact E.same_refl v

end Set

/-! ## Adding and removing a listener -/

/-- The property `p` gets the listeners `ls`, and stays up to date. -/
structure Relisten (s t : System P V) (p : P) (ls : List ℕ) : Prop where
  values : ∀ y, t.value y = s.value y
  others : ∀ y, y ≠ p → t.property y = s.property y
  listeners : (t.property p).helper.listeners = ls
  upToDate : ls ≠ [] →
    (t.property p).valid = true ∧ (t.property p).helper.currentValue = t.value p
  pairs : t.pairs = s.pairs
  updating : t.updating = s.updating
  bound : t.bound = s.bound

section Relisten

variable {s t : System P V} {p : P} {ls : List ℕ}

/-- A property whose other fields are kept. -/
theorem relisten_modify (u : Property V → Property V)
    (hvalue : (u (s.property p)).value = s.value p)
    (hlisteners : (u (s.property p)).helper.listeners = ls)
    (hup : ls ≠ [] → (u (s.property p)).valid = true
      ∧ (u (s.property p)).helper.currentValue = s.value p) :
    Relisten s (s.modify p u) p ls := by
  have hself : (s.modify p u).value p = s.value p := by
    rw [value, property_modify_self]
    exact hvalue
  refine ⟨fun y => ?_, fun y hy => property_modify_of_ne u hy, ?_, fun hne => ?_, rfl, rfl, rfl⟩
  · by_cases hy : y = p
    · rw [hy]
      exact hself
    · rw [value, property_modify_of_ne u hy]
      rfl
  · rw [property_modify_self]
    exact hlisteners
  · rw [hself, property_modify_self]
    exact hup hne

theorem addListener_relisten (b : ℕ)
    (hup : (s.property p).helper.listeners ≠ [] → (s.property p).valid = true
      ∧ (s.property p).helper.currentValue = s.value p) :
    Relisten s (s.addListener p b) p ((s.property p).helper.listeners ++ [b]) := by
  unfold addListener
  cases hh : (s.property p).helper with
  | null =>
    dsimp only
    rw [get, modify_modify]
    exact relisten_modify _ rfl rfl (fun _ => ⟨rfl, rfl⟩)
  | single b0 old =>
    dsimp only
    rw [get, modify_modify]
    exact relisten_modify _ rfl rfl (fun _ => ⟨rfl, rfl⟩)
  | generic bs old =>
    rw [hh] at hup
    cases bs with
    | nil =>
      dsimp only
      rw [get, modify_modify]
      exact relisten_modify _ rfl rfl (fun _ => ⟨rfl, rfl⟩)
    | cons b0 bs => exact relisten_modify _ rfl rfl (fun _ => hup (List.cons_ne_nil _ _))

/-- A property that is left alone. -/
theorem relisten_self (hls : (s.property p).helper.listeners = ls)
    (hup : ls ≠ [] → (s.property p).valid = true
      ∧ (s.property p).helper.currentValue = s.value p) : Relisten s s p ls :=
  ⟨fun _ => rfl, fun _ _ => rfl, hls, hup, rfl, rfl, rfl⟩

theorem removeListener_relisten (same : ℕ → Bool)
    (hup : (s.property p).helper.listeners ≠ [] → (s.property p).valid = true
      ∧ (s.property p).helper.currentValue = s.value p) :
    Relisten s (s.removeListener p same) p ((s.property p).helper.listeners.eraseP same) := by
  unfold removeListener
  cases hh : (s.property p).helper with
  | null => exact relisten_self (by rw [hh]; rfl) (fun hne => absurd rfl hne)
  | single b old =>
    rw [hh] at hup
    dsimp only [Helper.listeners]
    rw [List.eraseP_cons, List.eraseP_nil]
    cases hb : same b with
    | true =>
      rw [if_pos rfl, cond_true]
      exact relisten_modify _ rfl rfl (fun hne => absurd rfl hne)
    | false =>
      rw [if_neg Bool.false_ne_true, cond_false]
      refine relisten_self (by rw [hh]; rfl) (fun _ => ?_)
      rw [hh]
      exact hup (List.cons_ne_nil _ _)
  | generic bs old =>
    rw [hh] at hup
    dsimp only [Helper.listeners]
    have herase : Relisten s
        (s.modify p (fun x => { x with helper := .generic (bs.eraseP same) old })) p
        (bs.eraseP same) := by
      refine relisten_modify _ rfl rfl (fun hne => hup (fun hnil => hne ?_))
      rw [show bs = [] from hnil, List.eraseP_nil]
    rcases bs with _ | ⟨b0, _ | ⟨b1, _ | ⟨b2, bs⟩⟩⟩
    · exact herase
    · exact herase
    · -- of two listeners the other one is left
      dsimp only
      rw [List.eraseP_cons, List.eraseP_cons, List.eraseP_nil]
      cases hb0 : same b0 with
      | true =>
        rw [if_pos rfl, cond_true, get, modify_modify]
        exact relisten_modify _ rfl rfl (fun _ => ⟨rfl, rfl⟩)
      | false =>
        rw [if_neg Bool.false_ne_true, cond_false]
        cases hb1 : same b1 with
        | true =>
          rw [if_pos rfl, cond_true, get, modify_modify]
          exact relisten_modify _ rfl rfl (fun _ => ⟨rfl, rfl⟩)
        | false =>
          rw [if_neg Bool.false_ne_true, cond_false]
          refine relisten_self (by rw [hh]; rfl) (fun _ => ?_)
          rw [hh]
          exact hup (List.cons_ne_nil _ _)
    · exact herase

end Relisten

/-! ## `bind` and `unbind` -/

section Bind

variable {E : Equality V} {s : System P V} {p q : P}

theorem Wired.upToDate (hw : s.Wired) (p : P) (hne : (s.property p).helper.listeners ≠ []) :
    (s.property p).valid = true ∧ (s.property p).helper.currentValue = s.value p :=
  ⟨hw.valid p hne, hw.current p hne⟩

/-- A new `BidirectionalBinding` object that is not in force yet. -/
theorem Settled.new (h : s.Settled E) (p q : P) :
    ({ s with
      pairs := s.pairs ++ [(p, q)]
      updating := Function.update s.updating s.pairs.length false } : System P V).Settled E := by
  have hold : ∀ b ∈ s.bound, (s.pairs ++ [(p, q)])[b]? = s.pairs[b]? := by
    intro b hb
    obtain ⟨x, y, hxy, -⟩ := h.wired.known b hb
    exact List.getElem?_append_left (List.getElem?_eq_some_iff.mp hxy).1
  refine ⟨⟨fun x => ?_, fun b hb => ?_, h.wired.valid, h.wired.current⟩, fun b => ?_,
    fun b x y hedge => h.agree b x y ⟨hedge.1, ?_⟩⟩
  · exact (h.wired.listeners x).trans
      (List.filter_congr (fun b hb => (touches_congr (hold b hb)).symm))
  · show ∃ x y, (s.pairs ++ [(p, q)])[b]? = some (x, y) ∧ x ≠ y
    rw [hold b hb]
    exact h.wired.known b hb
  · show Function.update s.updating s.pairs.length false b = false
    by_cases hb : b = s.pairs.length
    · rw [hb, Function.update_self]
    · rw [Function.update_of_ne hb]
      exact h.idle b
  · have hpairs := hedge.2
    change (s.pairs ++ [(p, q)])[b]? = some (x, y) ∨ (s.pairs ++ [(p, q)])[b]? = some (y, x)
      at hpairs
    rw [hold b hedge.1] at hpairs
    exact hpairs

theorem value_get (s : System P V) (p y : P) : (s.get p).value y = s.value y := by
  by_cases hy : y = p
  · rw [hy, System.get, value, property_modify_self]
    rfl
  · rw [System.get, value, property_modify_of_ne _ hy]
    rfl

theorem Settled.get (h : s.Settled E) (p : P) : (s.get p).Settled E := by
  refine ⟨h.wired.modify rfl (fun _ => rfl) (fun hne => h.wired.current p hne), h.idle,
    fun b x y hedge => ?_⟩
  rw [value_get, value_get]
  exact h.agree b x y hedge

/-- The listeners of two properties change, together with the bindings in force. -/
theorem Wired.of_relisten {t u : System P V} {ls ls' bound : List ℕ} (hw : s.Wired) (hpq : p ≠ q)
    (hp : Relisten s t p ls) (hq : Relisten t u q ls') (hlp : ls = bound.filter (s.touches p))
    (hlq : ls' = bound.filter (s.touches q))
    (hrest : ∀ y, y ≠ p → y ≠ q → s.bound.filter (s.touches y) = bound.filter (s.touches y))
    (hknown : ∀ b ∈ bound, ∃ x y, s.pairs[b]? = some (x, y) ∧ x ≠ y) :
    ({ u with bound := bound } : System P V).Wired := by
  have hpairs : u.pairs = s.pairs := hq.pairs.trans hp.pairs
  have htouches : ∀ y, ({ u with bound := bound } : System P V).touches y = s.touches y := by
    intro y
    funext b
    exact touches_congr (by rw [← hpairs])
  have hproperty : ∀ y, y ≠ p → y ≠ q → u.property y = s.property y := fun y hyp hyq =>
    (hq.others y hyq).trans (hp.others y hyp)
  have hp' : u.property p = t.property p := hq.others p hpq
  have hup : ∀ y, (u.property y).helper.listeners ≠ [] →
      (u.property y).valid = true ∧ (u.property y).helper.currentValue = u.value y := by
    intro y hne
    by_cases hyq : y = q
    · subst hyq
      exact hq.upToDate (by rw [← hq.listeners]; exact hne)
    · by_cases hyp : y = p
      · subst hyp
        rw [hp'] at hne ⊢
        rw [hq.values]
        exact hp.upToDate (by rw [← hp.listeners]; exact hne)
      · rw [hproperty y hyp hyq] at hne ⊢
        rw [hq.values, hp.values]
        exact hw.upToDate y hne
  refine ⟨fun y => ?_, fun b hb => ?_, fun y hne => (hup y hne).1, fun y hne => (hup y hne).2⟩
  · rw [htouches]
    show (u.property y).helper.listeners = bound.filter (s.touches y)
    by_cases hyq : y = q
    · rw [hyq, hq.listeners, hlq]
    · by_cases hyp : y = p
      · rw [hyp, hp', hp.listeners, hlp]
      · rw [hproperty y hyp hyq, hw.listeners, hrest y hyp hyq]
  · show ∃ x y, u.pairs[b]? = some (x, y) ∧ x ≠ y
    rw [hpairs]
    exact hknown b hb

/-- Two properties get a new binding that is in force from then on. -/
theorem Settled.add {b : ℕ} (h : s.Settled E) (hpq : p ≠ q) (hb : s.pairs[b]? = some (p, q))
    (hsame : E.Same (s.value p) (s.value q)) :
    ({ (s.addListener p b).addListener q b with bound := s.bound ++ [b] } :
      System P V).Settled E := by
  have hadd := addListener_relisten b (h.wired.upToDate p)
  have hadd' : Relisten (s.addListener p b) ((s.addListener p b).addListener q b) q
      ((s.property q).helper.listeners ++ [b]) := by
    have hq := addListener_relisten (s := s.addListener p b) (p := q) b (by
      rw [hadd.values, hadd.others q hpq.symm]
      exact h.wired.upToDate q)
    rw [hadd.others q hpq.symm] at hq
    exact hq
  have htouch : ∀ y, s.touches y b = true ↔ y = p ∨ y = q := by
    intro y
    rw [touches, hb]
    simp only [decide_eq_true_eq, eq_comm (b := y)]
  have hfilter : ∀ y, (s.bound ++ [b]).filter (s.touches y)
      = s.bound.filter (s.touches y) ++ if s.touches y b then [b] else [] := by
    intro y
    rw [List.filter_append, List.filter_cons, List.filter_nil]
  refine ⟨h.wired.of_relisten hpq hadd hadd' ?_ ?_ (fun y hyp hyq => ?_) (fun c hc => ?_),
    fun c => ?_, fun c x y hedge => ?_⟩
  · rw [hfilter, if_pos ((htouch p).mpr (.inl rfl)), h.wired.listeners]
  · rw [hfilter, if_pos ((htouch q).mpr (.inr rfl)), h.wired.listeners]
  · rw [hfilter, if_neg (fun hy => ((htouch y).mp hy).elim hyp hyq), List.append_nil]
  · rcases List.mem_append.mp hc with hc | hc
    · exact h.wired.known c hc
    · exact ⟨p, q, by rw [List.mem_singleton.mp hc, hb], hpq⟩
  · show ((s.addListener p b).addListener q b).updating c = false
    rw [hadd'.updating, hadd.updating]
    exact h.idle c
  · show E.Same (((s.addListener p b).addListener q b).value x)
      (((s.addListener p b).addListener q b).value y)
    rw [hadd'.values, hadd'.values, hadd.values, hadd.values]
    obtain ⟨hc, hxy⟩ := hedge
    change ((s.addListener p b).addListener q b).pairs[c]? = some (x, y)
      ∨ ((s.addListener p b).addListener q b).pairs[c]? = some (y, x) at hxy
    rw [hadd'.pairs, hadd.pairs] at hxy
    rcases List.mem_append.mp hc with hc | hc
    · exact h.agree c x y ⟨hc, hxy⟩
    · rw [List.mem_singleton.mp hc, hb] at hxy
      rcases hxy with hxy | hxy <;> obtain ⟨rfl, rfl⟩ := Prod.mk.inj (Option.some.inj hxy)
      · exact hsame
      · exact hsame.symm

/-- **`bind`** ends, and settles the system again. -/
theorem bind_settled [Fintype P] (h : s.Settled E) (p q : P) :
    ∃ s', s.bind E (depth P) p q = some s' ∧ s'.Settled E := by
  rw [bind]
  by_cases hpq : p = q
  · rw [if_pos hpq]
    exact ⟨s, rfl, h⟩
  · rw [if_neg hpq]
    dsimp only
    have hnew := (h.new p q).get q
    obtain ⟨t, ht, hsettled, hp, hvalues, hpairs, -⟩ := set_settled hnew p (s.value q)
    -- the cascade writes nothing but the value of `q`, so `q` keeps it
    have hq : t.value q = s.value q := by
      rcases hvalues q with hq | hq
      · rw [hq, value_get]
        rfl
      · exact hq
    have hb : t.pairs[s.pairs.length]? = some (p, q) := by
      rw [hpairs]
      exact List.getElem?_concat_length
    have hadd := hsettled.add hpq hb (by rw [hp, hq]; exact E.same_refl _)
    exact ⟨_, by rw [ht]; rfl, hadd⟩

/-- The bindings `unbind` is about have exactly its two arguments as their sides. -/
theorem touches_of_samePair {b : ℕ} (hb : s.samePair p q b = true) (y : P) :
    s.touches y b = true ↔ y = p ∨ y = q := by
  rw [samePair] at hb
  rw [touches]
  cases hpair : s.pairs[b]? with
  | none =>
    rw [hpair] at hb
    cases hb
  | some pair =>
    obtain ⟨x, z⟩ := pair
    rw [hpair] at hb
    simp only [decide_eq_true_eq] at hb ⊢
    rcases hb with ⟨rfl, rfl⟩ | ⟨rfl, rfl⟩
    · simp only [eq_comm (b := y)]
    · rw [or_comm]
      simp only [eq_comm (b := y)]

/-- Erasing what a filter drops. -/
theorem filter_eraseP_of_not {f g : ℕ → Bool} (hfg : ∀ b, g b = true → f b = false) (bs : List ℕ) :
    (bs.eraseP g).filter f = bs.filter f := by
  induction bs with
  | nil => rfl
  | cons b bs ih =>
    rw [List.eraseP_cons]
    cases hb : g b with
    | true => rw [cond_true, List.filter_cons, hfg b hb, if_neg Bool.false_ne_true]
    | false => rw [cond_false, List.filter_cons, List.filter_cons, ih]

/-- Erasing what a filter keeps. -/
theorem filter_eraseP_of_imp {f g : ℕ → Bool} (hfg : ∀ b, g b = true → f b = true) (bs : List ℕ) :
    (bs.filter f).eraseP g = (bs.eraseP g).filter f := by
  have hand : (fun b => g b && f b) = g := by
    funext b
    cases hb : g b with
    | true => rw [hfg b hb, Bool.and_true]
    | false => rw [Bool.false_and]
  rw [List.eraseP_filter, hand]

/-- **`unbind`** settles the system again. -/
theorem unbind_settled (h : s.Settled E) (p q : P) : (s.unbind p q).Settled E := by
  rw [unbind]
  by_cases hpq : p = q
  · rw [if_pos hpq]
    exact h
  · rw [if_neg hpq]
    dsimp only
    have hremove := removeListener_relisten (s.samePair p q) (h.wired.upToDate p)
    have hremove' : Relisten (s.removeListener p (s.samePair p q))
        ((s.removeListener p (s.samePair p q)).removeListener q (s.samePair p q)) q
        ((s.property q).helper.listeners.eraseP (s.samePair p q)) := by
      have hq := removeListener_relisten (s := s.removeListener p (s.samePair p q)) (p := q)
        (s.samePair p q) (by
          rw [hremove.values, hremove.others q (Ne.symm hpq)]
          exact h.wired.upToDate q)
      rw [hremove.others q (Ne.symm hpq)] at hq
      exact hq
    have hmem : ∀ b ∈ s.bound.eraseP (s.samePair p q), b ∈ s.bound := fun b hb =>
      List.mem_of_mem_eraseP hb
    refine ⟨h.wired.of_relisten hpq hremove hremove' ?_ ?_ (fun y hyp hyq => ?_)
      (fun c hc => h.wired.known c (hmem c hc)), fun c => ?_, fun c x y hedge => ?_⟩
    · rw [h.wired.listeners]
      exact filter_eraseP_of_imp (fun b hb => (touches_of_samePair hb p).mpr (.inl rfl)) _
    · rw [h.wired.listeners]
      exact filter_eraseP_of_imp (fun b hb => (touches_of_samePair hb q).mpr (.inr rfl)) _
    · refine (filter_eraseP_of_not (fun b hb => eq_false_of_ne_true (fun hy => ?_)) _).symm
      exact ((touches_of_samePair hb y).mp hy).elim hyp hyq
    · show ((s.removeListener p (s.samePair p q)).removeListener q (s.samePair p q)).updating c
        = false
      rw [hremove'.updating, hremove.updating]
      exact h.idle c
    · obtain ⟨hc, hxy⟩ := hedge
      change ((s.removeListener p (s.samePair p q)).removeListener q (s.samePair p q)).pairs[c]?
          = some (x, y)
        ∨ ((s.removeListener p (s.samePair p q)).removeListener q (s.samePair p q)).pairs[c]?
          = some (y, x) at hxy
      rw [hremove'.pairs, hremove.pairs] at hxy
      show E.Same (((s.removeListener p _).removeListener q _).value x)
        (((s.removeListener p _).removeListener q _).value y)
      rw [hremove'.values, hremove'.values, hremove.values, hremove.values]
      exact h.agree c x y ⟨hmem c hc, hxy⟩

end Bind

/-! ## Runs -/

section Runs

variable {E : Equality V} {s : System P V}

theorem start_settled (values : P → Option V) : (start values : System P V).Settled E := by
  have hnone : ∀ b, b ∉ (start values : System P V).bound := fun b => List.not_mem_nil
  exact ⟨⟨fun p => rfl, fun b hb => absurd hb (hnone b), fun p hp => absurd rfl hp,
    fun p hp => absurd rfl hp⟩, fun b => rfl, fun b x y hedge => absurd hedge.1 (hnone b)⟩

/-- Every operation ends, and settles the system again. -/
theorem step_settled [Fintype P] (h : s.Settled E) (op : Op P V) :
    ∃ s', step E s op = .ok s' ∧ s'.Settled E := by
  unfold step
  cases op with
  | bind p q =>
    obtain ⟨s', hs', hsettled⟩ := bind_settled h p q
    exact ⟨s', by simp only [hs', Option.elim_some], hsettled⟩
  | unbind p q => exact ⟨_, rfl, unbind_settled h p q⟩
  | set p v =>
    obtain ⟨s', hs', hsettled, -⟩ := set_settled h p v
    exact ⟨s', by simp only [hs', Option.elim_some], hsettled⟩

/-- Equality runs along paths of bound pairs. -/
theorem Settled.connected (h : s.Settled E) {x y : P} (hxy : s.Connected x y) :
    E.Same (s.value x) (s.value y) := by
  induction hxy with
  | refl => exact E.same_refl _
  | tail _ hedge ih =>
    obtain ⟨b, hb⟩ := hedge
    exact ih.trans (h.agree b _ _ hb)

end Runs

end System

end JavaFx.Binding.BidirectionalBinding
