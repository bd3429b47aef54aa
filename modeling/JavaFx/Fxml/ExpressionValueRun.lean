/-
An expression value follows its expression.

In a run, each monitor of the chain is on the object that the path leads to, and its
listener is there and nowhere else (`Watches`). While the listeners of a changed object are
called, the links of the chain at those still to be called may be wrong (`Linked`); each
call puts its link and all after it right. The listeners of an object are in the order of
their depths, so the chain is right up to the one that is called.
-/
import JavaFx.Fxml.ExpressionValue

set_option autoImplicit false

namespace JavaFx.Fxml

open JavaFx.Lib

variable {K D : Type} {java : Platform K D} {heap heap' : Heap K D}

/-! ## What is watched -/

/-- The objects that the monitors are on, from a value along the path. -/
def Chain (java : Platform K D) (heap : Heap K D) : Option (Value D) → List (KeyPathMonitor K D) → Prop
  | _, [] => True
  | v, m :: ms => m.namespace_ = v ∧
      ∃ v', Expression.get java heap v m.key = .ok v' ∧ Chain java heap v' ms

/-- The depths of the monitors that are on an object. -/
def attached (heap : Heap K D) : ℕ → List (KeyPathMonitor K D) → ℕ → List ℕ
  | _, [], _ => []
  | depth, m :: ms, id =>
    (if target heap m.namespace_ m.key = some id then [depth] else []) ++
      attached heap (depth + 1) ms id

/-- The listeners before those of a part of the chain. -/
structure Listening (heap : Heap K D) (before : Listeners) (depth : ℕ)
    (ms : List (KeyPathMonitor K D)) (listeners : Listeners) : Prop where
  eq : ∀ id, listeners id = before id ++ attached heap depth ms id
  lt : ∀ id, ∀ i ∈ before id, i < depth

/-- Monitors that are on no object. -/
def Idle (ms : List (KeyPathMonitor K D)) : Prop := ∀ m ∈ ms, m.namespace_ = none

theorem Idle.tail {m : KeyPathMonitor K D} {ms : List (KeyPathMonitor K D)} (h : Idle (m :: ms)) :
    Idle ms := fun n hn => h n (List.mem_cons_of_mem _ hn)

theorem attached_idle {ms : List (KeyPathMonitor K D)} (h : Idle ms) (depth id : ℕ) :
    attached heap depth ms id = [] := by
  induction ms generalizing depth with
  | nil => rfl
  | cons m ms ih =>
    have hm := h m List.mem_cons_self
    simp [attached, hm, target, ih h.tail]

theorem chain_idle {ms : List (KeyPathMonitor K D)} (h : Idle ms) : Chain java heap none ms := by
  induction ms with
  | nil => trivial
  | cons m ms ih => exact ⟨h m List.mem_cons_self, none, rfl, ih h.tail⟩

theorem le_of_mem_attached {ms : List (KeyPathMonitor K D)} {depth i id : ℕ}
    (h : i ∈ attached heap depth ms id) : depth ≤ i := by
  induction ms generalizing depth with
  | nil => cases h
  | cons m ms ih =>
    rcases List.mem_append.1 h with h | h
    · split at h
      · exact Nat.le_of_eq (List.mem_singleton.1 h).symm
      · cases h
    · exact Nat.le_of_succ_le (ih h)

/-- The depths of the listeners are in their order. -/
theorem attached_sorted (heap : Heap K D) (depth : ℕ) (ms : List (KeyPathMonitor K D)) (id : ℕ) :
    (attached heap depth ms id).Pairwise (· < ·) := by
  induction ms generalizing depth with
  | nil => exact List.Pairwise.nil
  | cons m ms ih =>
    rw [attached]
    split
    · exact List.pairwise_cons.2 ⟨fun i hi => le_of_mem_attached hi, ih (depth + 1)⟩
    · exact ih (depth + 1)

/-- The listener of the first monitor belongs to those before the rest. -/
theorem Listening.tail {before : Listeners} {depth : ℕ} {m : KeyPathMonitor K D}
    {ms : List (KeyPathMonitor K D)} {listeners : Listeners}
    (h : Listening heap before depth (m :: ms) listeners) :
    Listening heap (fun id => before id ++
      if target heap m.namespace_ m.key = some id then [depth] else []) (depth + 1) ms listeners where
  eq id := by rw [h.eq id, attached, List.append_assoc]
  lt id i hi := by
    rcases List.mem_append.1 hi with hb | hs
    · exact Nat.lt_succ_of_lt (h.lt id i hb)
    · split at hs
      · rw [List.mem_singleton.1 hs]
        exact Nat.lt_succ_self _
      · cases hs

theorem Listening.cons {before : Listeners} {depth : ℕ} {m : KeyPathMonitor K D}
    {ms : List (KeyPathMonitor K D)} {listeners : Listeners}
    (hlt : ∀ id, ∀ i ∈ before id, i < depth)
    (h : Listening heap (fun id => before id ++
      if target heap m.namespace_ m.key = some id then [depth] else []) (depth + 1) ms listeners) :
    Listening heap before depth (m :: ms) listeners where
  eq id := by rw [h.eq id, attached, List.append_assoc]
  lt := hlt

/-! ## The methods of the monitors -/

theorem detach_listening {before : Listeners} {depth : ℕ} {m : KeyPathMonitor K D}
    {ms : List (KeyPathMonitor K D)} {listeners : Listeners}
    (h : Listening heap before depth (m :: ms) listeners) :
    Listening heap before (depth + 1) ms
      (detach depth (target heap m.namespace_ m.key) listeners) where
  eq id := by
    have heq := h.eq id
    rw [attached] at heq
    cases htarget : target heap m.namespace_ m.key with
    | none => simpa [detach, htarget] using heq
    | some t =>
      by_cases hid : id = t
      · -- the listener of this monitor is removed
        rw [htarget, hid] at heq
        have hnot : depth ∉ before t := fun hmem => Nat.lt_irrefl _ (h.lt t depth hmem)
        rw [hid, detach, Function.update_self, heq, if_pos rfl,
          List.erase_append_right _ hnot, List.singleton_append, List.erase_cons_head]
      · rw [detach, Function.update_of_ne hid, heq, htarget,
          if_neg (fun h => hid (Option.some.inj h).symm), List.nil_append]
  lt id i hi := Nat.lt_succ_of_lt (h.lt id i hi)

/-- `unmonitor` removes the listeners of its part of the chain. -/
theorem unmonitor_spec {before : Listeners} {ms : List (KeyPathMonitor K D)} {depth : ℕ}
    {listeners : Listeners} (h : Listening heap before depth ms listeners) :
    Idle (unmonitor heap depth ms listeners).1 ∧
      (unmonitor heap depth ms listeners).1.map KeyPathMonitor.key = ms.map KeyPathMonitor.key ∧
      (unmonitor heap depth ms listeners).2 = before := by
  induction ms generalizing depth listeners with
  | nil =>
    refine ⟨nofun, rfl, ?_⟩
    funext id
    exact (h.eq id).trans (List.append_nil _)
  | cons m ms ih =>
    obtain ⟨hidle, hkeys, hlisteners⟩ := ih (detach_listening h)
    refine ⟨?_, ?_, hlisteners⟩
    · intro n hn
      rcases List.mem_cons.1 hn with rfl | hn
      · rfl
      · exact hidle n hn
    · rw [unmonitor, List.map_cons, hkeys, List.map_cons]

theorem attach_eq (depth : ℕ) (t : Option ℕ) (listeners : Listeners) (id : ℕ) :
    attach depth t listeners id = listeners id ++ if t = some id then [depth] else [] := by
  cases t with
  | none => simp [attach]
  | some t =>
    by_cases hid : id = t
    · rw [hid, attach, Function.update_self, if_pos rfl]
    · rw [attach, Function.update_of_ne hid, if_neg (fun h => hid (Option.some.inj h).symm),
        List.append_nil]

/-- What `monitor` and `remonitor` do when the path leads to a value. -/
structure Restored (java : Platform K D) (heap : Heap K D) (before : Listeners) (depth : ℕ)
    (v : Option (Value D)) (ms : List (KeyPathMonitor K D)) (out : Monitored K D) : Prop where
  keys : out.1.map KeyPathMonitor.key = ms.map KeyPathMonitor.key
  chain : Chain java heap v out.1
  listening : Listening heap before depth out.1 out.2.1
  returns : out.2.2 = .ok ()

theorem get_of_getPath {v x : Option (Value D)} {k : K} {ks : List K}
    (h : Expression.getPath java heap v (k :: ks) = .ok x) :
    ∃ v', Expression.get java heap v k = .ok v' ∧ Expression.getPath java heap v' ks = .ok x := by
  rw [Expression.getPath] at h
  split at h
  · next v' hget => exact ⟨v', hget, h⟩
  · cases h

theorem monitor_spec {ms : List (KeyPathMonitor K D)} {v : Value D} {depth : ℕ}
    {listeners : Listeners} (hidle : Idle ms) (hlt : ∀ id, ∀ i ∈ listeners id, i < depth)
    {x : Option (Value D)}
    (hpath : Expression.getPath java heap (some v) (ms.map KeyPathMonitor.key) = .ok x) :
    Restored java heap listeners depth (some v) ms (monitor java heap v depth ms listeners) := by
  induction ms generalizing v depth listeners with
  | nil => exact ⟨rfl, trivial, ⟨fun id => (List.append_nil _).symm, hlt⟩, rfl⟩
  | cons m ms ih =>
    obtain ⟨v', hget, hrest⟩ := get_of_getPath hpath
    -- the listener of this monitor
    have hattach : attach depth (target heap (some v) m.key) listeners
        = fun id => listeners id ++ if target heap (some v) m.key = some id then [depth] else [] :=
      funext (attach_eq depth _ listeners)
    have hlt' : ∀ id, ∀ i ∈ attach depth (target heap (some v) m.key) listeners id,
        i < depth + 1 := by
      intro id i hi
      rw [attach_eq] at hi
      rcases List.mem_append.1 hi with hb | hs
      · exact Nat.lt_succ_of_lt (hlt id i hb)
      · split at hs
        · rw [List.mem_singleton.1 hs]
          exact Nat.lt_succ_self _
        · cases hs
    cases ms with
    | nil =>
      refine ⟨rfl, ⟨rfl, v', hget, trivial⟩, ?_, rfl⟩
      refine Listening.cons hlt ⟨fun id => ?_, fun id => ?_⟩
      · rw [monitor, attached, List.append_nil]
        exact attach_eq depth _ listeners id
      · have hlt'' := hlt' id
        rw [attach_eq] at hlt''
        exact hlt''
    | cons next ms =>
      rw [monitor, hget]
      cases v' with
      | none =>
        refine ⟨rfl, ⟨rfl, none, hget, chain_idle hidle.tail⟩, ?_, rfl⟩
        refine Listening.cons hlt ⟨fun id => ?_, fun id => ?_⟩
        · rw [attached_idle hidle.tail, List.append_nil]
          exact attach_eq depth _ listeners id
        · have hlt'' := hlt' id
          rw [attach_eq] at hlt''
          exact hlt''
      | some v' =>
        have hr := ih hidle.tail hlt' hrest
        refine ⟨?_, ⟨rfl, some v', hget, hr.chain⟩, ?_, hr.returns⟩
        · simp only [List.map_cons] at hr ⊢
          exact congrArg _ hr.keys
        · refine Listening.cons hlt ?_
          have hl := hr.listening
          rw [hattach] at hl
          simp only [hattach]
          exact hl

theorem remonitor_spec {m : KeyPathMonitor K D} {ms : List (KeyPathMonitor K D)} {depth : ℕ}
    {before listeners : Listeners} (h : Listening heap before depth ms listeners)
    {v x : Option (Value D)} (hget : Expression.get java heap m.namespace_ m.key = .ok v)
    (hpath : Expression.getPath java heap v (ms.map KeyPathMonitor.key) = .ok x) :
    Restored java heap before depth v ms (remonitor java heap m depth ms listeners) := by
  cases ms with
  | nil => exact ⟨rfl, trivial, h, rfl⟩
  | cons next ms =>
    obtain ⟨hidle, hkeys, hlisteners⟩ := unmonitor_spec h
    rw [remonitor, hget]
    · cases v with
      | none =>
        refine ⟨hkeys, chain_idle hidle, ⟨fun id => ?_, h.lt⟩, rfl⟩
        simp only
        rw [attached_idle hidle, hlisteners, List.append_nil]
      | some v =>
        simp only
        rw [hlisteners]
        rw [← hkeys] at hpath
        have hr := monitor_spec hidle h.lt hpath
        exact ⟨hr.keys.trans hkeys, hr.chain, hr.listening, hr.returns⟩
    · exact nofun

/-! ## The listeners of a changed object -/

/-- The chain with the links at some depths open. -/
def Linked (java : Platform K D) (heap : Heap K D) (open_ : List ℕ) :
    ℕ → Option (Value D) → List (KeyPathMonitor K D) → Prop
  | _, _, [] => True
  | depth, v, m :: ms => m.namespace_ = v ∧
      ∃ v', (depth ∈ open_ ∨ Expression.get java heap v m.key = .ok v') ∧
        Linked java heap open_ (depth + 1) v' ms

theorem Chain.linked {v : Option (Value D)} {ms : List (KeyPathMonitor K D)}
    (h : Chain java heap v ms) (open_ : List ℕ) (depth : ℕ) :
    Linked java heap open_ depth v ms := by
  induction ms generalizing v depth with
  | nil => trivial
  | cons m ms ih =>
    obtain ⟨hm, v', hget, hrest⟩ := h
    exact ⟨hm, v', .inr hget, ih hrest (depth + 1)⟩

theorem Linked.chain {v : Option (Value D)} {ms : List (KeyPathMonitor K D)} {depth : ℕ}
    (h : Linked java heap [] depth v ms) : Chain java heap v ms := by
  induction ms generalizing v depth with
  | nil => trivial
  | cons m ms ih =>
    obtain ⟨hm, v', hlink, hrest⟩ := h
    rcases hlink with hopen | hget
    · cases hopen
    · exact ⟨hm, v', hget, ih hrest⟩

/-- **The first open link** is put right, and all after it. -/
theorem remonitorAt_spec {ms : List (KeyPathMonitor K D)} {v x : Option (Value D)} {depth i : ℕ}
    {open_ : List ℕ} {before listeners : Listeners} (hfirst : ∀ j ∈ open_, depth + i < j)
    (hlinked : Linked java heap ((depth + i) :: open_) depth v ms)
    (h : Listening heap before depth ms listeners)
    (hpath : Expression.getPath java heap v (ms.map KeyPathMonitor.key) = .ok x) :
    (remonitorAt java heap depth i ms listeners).1.map KeyPathMonitor.key
        = ms.map KeyPathMonitor.key ∧
      Linked java heap open_ depth v (remonitorAt java heap depth i ms listeners).1 ∧
      Listening heap before depth (remonitorAt java heap depth i ms listeners).1
        (remonitorAt java heap depth i ms listeners).2.1 := by
  induction ms generalizing v depth i before listeners with
  | nil => cases i <;> exact ⟨rfl, trivial, h⟩
  | cons m ms ih =>
    obtain ⟨hm, v', hlink, hrest⟩ := hlinked
    obtain ⟨w, hget, hpath'⟩ := get_of_getPath hpath
    cases i with
    | zero =>
      rw [← hm] at hget
      have hr := remonitor_spec h.tail hget hpath'
      rw [hm] at hget
      refine ⟨?_, ⟨hm, w, .inr hget, hr.chain.linked _ _⟩, hr.listening.cons h.lt⟩
      rw [remonitorAt, List.map_cons, hr.keys, List.map_cons]
    | succ i =>
      -- the link of this monitor is not open
      have hnot : depth ∉ (depth + (i + 1)) :: open_ := by
        intro hmem
        rcases List.mem_cons.1 hmem with heq | hmem
        · omega
        · have := hfirst depth hmem
          omega
      rcases hlink with hopen | hlink
      · exact absurd hopen hnot
      · rw [hlink] at hget
        cases hget
        have hshift : depth + 1 + i = depth + (i + 1) := by omega
        rw [← hshift] at hfirst hrest
        obtain ⟨hkeys, hlinked', hlistening⟩ := ih hfirst hrest h.tail hpath'
        refine ⟨?_, ⟨hm, v', .inr hlink, hlinked'⟩, hlistening.cons h.lt⟩
        rw [remonitorAt, List.map_cons, hkeys, List.map_cons]

namespace ExpressionValue

/-- **Each monitor** is on the object that the path leads to, and its listener is there and
nowhere else. -/
structure Watches (java : Platform K D) (w : ExpressionValue K D) : Prop where
  chain : Chain java w.heap (some w.namespace_) w.monitors
  listeners : ∀ id, w.listeners id = attached w.heap 0 w.monitors id

/-- The expression value while some of the listeners of an object are still to be called. -/
structure Calling (java : Platform K D) (w : ExpressionValue K D) (open_ : List ℕ) : Prop where
  linked : Linked java w.heap open_ 0 (some w.namespace_) w.monitors
  listening : Listening w.heap (fun _ => []) 0 w.monitors w.listeners
  value : ∃ x, w.getValue java = .ok x

theorem value_of_getValue {w : ExpressionValue K D} (h : ∃ x, w.getValue java = .ok x) :
    ∃ x, w.value java = .ok x := by
  obtain ⟨x, hx⟩ := h
  rw [getValue] at hx
  split at hx
  · next v hv => exact ⟨v, hv⟩
  · cases hx

/-- The first listener puts the monitors on the path. -/
theorem addListener_watches {heap : Heap K D} {root : Value D} {keyPath : List K}
    (h : ∃ x, (new heap root keyPath).value java = .ok x) :
    Watches java ((new heap root keyPath).addListener java) := by
  obtain ⟨x, hx⟩ := h
  have hidle : Idle (new heap root keyPath).monitors := by
    intro m hm
    obtain ⟨k, -, rfl⟩ := List.mem_map.1 hm
    rfl
  have hnone : ∀ id, ∀ i ∈ (fun _ => [] : Listeners) id, i < 0 := fun _ => nofun
  have hr := monitor_spec hidle hnone hx
  exact ⟨hr.chain, fun id => (hr.listening.eq id).trans (List.nil_append _)⟩

variable [DecidableEq K]

/-- The depths of the list whose monitors take the event. -/
def takers (java : Platform K D) (event : Event K) (w : ExpressionValue K D) (depths : List ℕ) :
    List ℕ :=
  depths.filter fun i => (w.keyPath[i]?).any (event.isFor java)

theorem takers_cons (event : Event K) (w : ExpressionValue K D) (i : ℕ) (depths : List ℕ) :
    takers java event w (i :: depths) =
      if (w.keyPath[i]?).any (event.isFor java) then i :: takers java event w depths
      else takers java event w depths := by
  rw [takers, List.filter_cons]
  rfl

/-- One listener is called. -/
theorem onChanged_spec {event : Event K} {w : ExpressionValue K D} {i : ℕ} {depths : List ℕ}
    (hsorted : ∀ j ∈ depths, i < j) (h : Calling java w (takers java event w (i :: depths))) :
    Calling java (onChanged java event w i) (takers java event w depths) ∧
      (onChanged java event w i).heap = w.heap ∧
      (onChanged java event w i).namespace_ = w.namespace_ ∧
      (onChanged java event w i).keyPath = w.keyPath ∧
      w.fired.length + (if (w.keyPath[i]?).any (event.isFor java) then 1 else 0)
        ≤ (onChanged java event w i).fired.length := by
  have hkey : w.keyPath[i]? = (w.monitors[i]?).map KeyPathMonitor.key := List.getElem?_map
  rw [takers_cons] at h
  rw [onChanged]
  cases hm : w.monitors[i]? with
  | none =>
    rw [hkey, hm] at h ⊢
    exact ⟨h, rfl, rfl, rfl, Nat.le_refl _⟩
  | some m =>
    rw [hkey, hm] at h ⊢
    simp only [Option.map_some, Option.any_some] at h ⊢
    by_cases hfor : event.isFor java m.key
    · rw [if_pos hfor] at h ⊢
      obtain ⟨v, hv⟩ := h.value
      obtain ⟨x, hx⟩ := value_of_getValue h.value
      rw [if_pos hfor, hv]
      simp only
      have hfirst : ∀ j ∈ takers java event w depths, 0 + i < j := by
        intro j hj
        rw [Nat.zero_add]
        exact hsorted j (List.mem_filter.1 hj).1
      have hlinked := h.linked
      rw [← Nat.zero_add i] at hlinked
      obtain ⟨hkeys, hlinked', hlistening⟩ := remonitorAt_spec hfirst hlinked h.listening hx
      refine ⟨⟨hlinked', hlistening, v, ?_⟩, trivial, trivial, hkeys, by simp⟩
      refine Eq.trans ?_ hv
      simp only [getValue, value, keyPath, hkeys]
    · rw [if_neg hfor] at h ⊢
      rw [if_neg hfor]
      exact ⟨h, rfl, rfl, rfl, Nat.le_refl _⟩

/-- **All listeners of an object** are called, in the order of their depths. -/
theorem foldl_onChanged {event : Event K} {depths : List ℕ} (hsorted : depths.Pairwise (· < ·))
    {w : ExpressionValue K D} (h : Calling java w (takers java event w depths)) :
    Calling java (depths.foldl (onChanged java event) w) [] ∧
      (depths.foldl (onChanged java event) w).heap = w.heap ∧
      (depths.foldl (onChanged java event) w).namespace_ = w.namespace_ ∧
      (depths.foldl (onChanged java event) w).keyPath = w.keyPath ∧
      w.fired.length + (takers java event w depths).length
        ≤ (depths.foldl (onChanged java event) w).fired.length := by
  induction depths generalizing w with
  | nil => exact ⟨h, rfl, rfl, rfl, Nat.le_refl _⟩
  | cons i depths ih =>
    obtain ⟨hi, hrest⟩ := List.pairwise_cons.1 hsorted
    obtain ⟨hcalling, hheap, hroot, hkeys, hfired⟩ := onChanged_spec hi h
    have htakers : takers java event (onChanged java event w i) depths
        = takers java event w depths := by
      rw [takers, takers, hkeys]
    rw [← htakers] at hcalling
    obtain ⟨hend, hheap', hroot', hkeys', hfired'⟩ := ih hrest hcalling
    rw [List.foldl_cons]
    refine ⟨hend, hheap'.trans hheap, hroot'.trans hroot, hkeys'.trans hkeys, ?_⟩
    rw [htakers] at hfired'
    rw [takers_cons]
    split
    · next hany =>
      rw [if_pos hany] at hfired
      rw [List.length_cons]
      omega
    · next hany =>
      rw [if_neg hany] at hfired
      omega

end ExpressionValue

/-! ## Changes -/

variable [DecidableEq K]

/-- A change keeps the kind of the object, and the properties of a bean. -/
theorem target_outcome (heap : Heap K D) (c : Change K D) (v : Option (Value D)) (k : K) :
    target (c.apply java heap) v k = target heap v k := by
  cases v with
  | none => rfl
  | some v =>
    cases v with
    | data d => rfl
    | ref id =>
      by_cases hid : id = c.object
      · rw [target, target, Change.apply, hid, Function.update_self]
        cases c with
        | replace o from_ removed added =>
          simp only [Change.outcome, Change.object]
          cases heap o with
          | list items =>
            by_cases hlegal : from_ + removed ≤ items.length ∧ (removed ≠ 0 ∨ added ≠ [])
            · simp only [if_pos hlegal]
            · simp only [if_neg hlegal]
          | map entries => rfl
          | bean properties => rfl
        | put o key value =>
          simp only [Change.outcome, Change.object]
          cases heap o <;> rfl
        | remove o key =>
          simp only [Change.outcome, Change.object]
          cases heap o <;> rfl
        | setProperty o key value =>
          simp only [Change.outcome, Change.object]
          cases heap o with
          | list items => rfl
          | map entries => rfl
          | bean properties =>
            simp only
            cases hp : properties key with
            | none => rfl
            | some old =>
              simp only
              by_cases hk : k = key
              · rw [hk, Function.update_self, hp]
                rfl
              · rw [Function.update_of_ne hk]
      · rw [target, target, Change.apply, Function.update_of_ne hid]

theorem attached_apply (heap : Heap K D) (c : Change K D) (depth : ℕ)
    (ms : List (KeyPathMonitor K D)) (id : ℕ) :
    attached (c.apply java heap) depth ms id = attached heap depth ms id := by
  induction ms generalizing depth with
  | nil => rfl
  | cons m ms ih => rw [attached, attached, target_outcome, ih]

/-- What a change alters is told to the listeners of the changed object, if to any. -/
theorem target_of_get_ne {c : Change K D} {v : Option (Value D)} {k : K}
    (h : Expression.get java (c.apply java heap) v k ≠ Expression.get java heap v k) :
    target heap v k = some c.object := by
  cases v with
  | none => exact absurd rfl h
  | some v =>
    cases v with
    | data d => exact absurd rfl h
    | ref id =>
      by_cases hid : id = c.object
      · rw [Expression.get, Expression.get, Change.apply, hid, Function.update_self] at h
        rw [target, hid]
        cases hobj : heap c.object with
        | list items => rfl
        | map entries => rfl
        | bean properties =>
          -- only a property that is there can be altered
          cases c with
          | setProperty o key value =>
            simp only [Change.outcome, Change.object] at h hobj ⊢
            rw [hobj] at h
            simp only at h ⊢
            cases hp : properties key with
            | none => simp [hp] at h
            | some old =>
              rw [hp] at h
              simp only at h
              by_cases hk : k = key
              · rw [hk, hp]
                rfl
              · rw [Function.update_of_ne hk] at h
                exact absurd rfl h
          | replace o from_ removed added =>
            simp only [Change.outcome, Change.object] at h hobj
            simp [hobj] at h
          | put o key value =>
            simp only [Change.outcome, Change.object] at h hobj
            simp [hobj] at h
          | remove o key =>
            simp only [Change.outcome, Change.object] at h hobj
            simp [hobj] at h
      · rw [Expression.get, Expression.get, Change.apply, Function.update_of_ne hid] at h
        exact absurd rfl h

/-- On the path, a change alters only values that its event is for. -/
def Told (java : Platform K D) (heap : Heap K D) (c : Change K D) :
    Option (Value D) → List K → Prop
  | _, [] => True
  | v, k :: ks =>
    (Expression.get java (c.apply java heap) v k = Expression.get java heap v k ∨
      c.tells java heap k = true) ∧
    ∀ v', Expression.get java heap v k = .ok v' → Told java heap c v' ks

/-- The links at the listeners that take the event may be open after the change. -/
theorem linked_apply {c : Change K D} {v : Option (Value D)} {ms : List (KeyPathMonitor K D)}
    {depth : ℕ} {open_ : List ℕ} (h : Chain java heap v ms)
    (htold : Told java heap c v (ms.map KeyPathMonitor.key))
    (hopen : ∀ i, i ∈ attached heap depth ms c.object →
      ((ms[i - depth]?).any fun m => c.tells java heap m.key) = true → i ∈ open_) :
    Linked java (c.apply java heap) open_ depth v ms := by
  induction ms generalizing v depth with
  | nil => trivial
  | cons m ms ih =>
    obtain ⟨hm, v', hget, hrest⟩ := h
    obtain ⟨hhere, hthere⟩ := htold
    refine ⟨hm, v', ?_, ih hrest (hthere v' hget) ?_⟩
    · by_cases hsame : Expression.get java (c.apply java heap) v m.key
          = Expression.get java heap v m.key
      · exact .inr (hsame.trans hget)
      · have htells := hhere.resolve_left hsame
        refine .inl (hopen depth ?_ ?_)
        · rw [attached, hm, target_of_get_ne hsame, if_pos rfl]
          exact List.mem_append_left _ List.mem_cons_self
        · rw [Nat.sub_self]
          exact htells
    · intro i hi htells
      have hlt := le_of_mem_attached hi
      refine hopen i (List.mem_append_right _ hi) ?_
      have hindex : i - depth = (i - (depth + 1)) + 1 := by omega
      rw [hindex, List.getElem?_cons_succ]
      exact htells

/-- A change that nobody is told of leaves the value at the path. -/
theorem getPath_apply {c : Change K D} {v : Option (Value D)} {ms : List (KeyPathMonitor K D)}
    (depth : ℕ) (h : Chain java heap v ms) (htold : Told java heap c v (ms.map KeyPathMonitor.key))
    (hnone : ∀ i, i ∈ attached heap depth ms c.object →
      ((ms[i - depth]?).any fun m => c.tells java heap m.key) = false) :
    Expression.getPath java (c.apply java heap) v (ms.map KeyPathMonitor.key)
      = Expression.getPath java heap v (ms.map KeyPathMonitor.key) := by
  induction ms generalizing v depth with
  | nil => rfl
  | cons m ms ih =>
    obtain ⟨hm, v', hget, hrest⟩ := h
    obtain ⟨hhere, hthere⟩ := htold
    have hsame : Expression.get java (c.apply java heap) v m.key
        = Expression.get java heap v m.key := by
      by_contra hne
      have hmem : depth ∈ attached heap depth (m :: ms) c.object := by
        rw [attached, hm, target_of_get_ne hne, if_pos rfl]
        exact List.mem_append_left _ List.mem_cons_self
      have hfalse := hnone depth hmem
      rw [Nat.sub_self] at hfalse
      exact Bool.false_ne_true (hfalse.symm.trans (hhere.resolve_left hne))
    rw [List.map_cons, Expression.getPath, Expression.getPath, hsame, hget]
    refine ih (depth + 1) hrest (hthere v' hget) ?_
    intro i hi
    have hlt := le_of_mem_attached hi
    have hfalse := hnone i (List.mem_append_right _ hi)
    have hindex : i - depth = (i - (depth + 1)) + 1 := by omega
    rw [hindex, List.getElem?_cons_succ] at hfalse
    exact hfalse

namespace ExpressionValue

/-! ## Runs -/

/-- After the change the value at the path can be had, and the change alters no value on the
path that its event is not for. -/
def ChangeOk (java : Platform K D) (w : ExpressionValue K D) (c : Change K D) : Prop :=
  (∃ x, getValue java { w with heap := c.apply java w.heap } = .ok x) ∧
    Told java w.heap c (some w.namespace_) w.keyPath

/-- A change that alters the value at the path fires a value change. -/
def Fires (java : Platform K D) (w w' : ExpressionValue K D) : Prop :=
  w'.value java ≠ w.value java → w.fired.length < w'.fired.length

/-- A monitor takes an event by its key. -/
theorem any_tells (w : ExpressionValue K D) (c : Change K D) (i : ℕ) :
    ((w.monitors[i - 0]?).any fun m => c.tells java w.heap m.key)
      = (w.keyPath[i]?).any fun k => c.tells java w.heap k := by
  rw [keyPath, List.getElem?_map, Nat.sub_zero]
  cases w.monitors[i]? <;> rfl

/-- **A change without an event** alters nothing that is watched. -/
theorem change_of_none {w : ExpressionValue K D} (h : Watches java w) {c : Change K D}
    (hok : ChangeOk java w c) (hevent : (c.outcome java w.heap).2 = none) :
    Watches java (w.change java c) ∧ (w.change java c).value java = w.value java := by
  have hfalse : ∀ k, c.tells java w.heap k = false := by
    intro k
    rw [Change.tells, hevent]
    rfl
  have hnone : ∀ i, i ∈ attached w.heap 0 w.monitors c.object →
      ((w.monitors[i - 0]?).any fun m => c.tells java w.heap m.key) = false := by
    intro i _
    cases w.monitors[i - 0]? with
    | none => rfl
    | some m => exact hfalse m.key
  have hlinked : Linked java (c.apply java w.heap) [] 0 (some w.namespace_) w.monitors :=
    linked_apply h.chain hok.2 (fun i hi htells => by rw [hnone i hi] at htells; cases htells)
  have hchange : w.change java c = { w with heap := c.apply java w.heap } := by
    rw [change, hevent]
  rw [hchange]
  refine ⟨⟨hlinked.chain, fun id => ?_⟩, getPath_apply 0 h.chain hok.2 hnone⟩
  exact (h.listeners id).trans (attached_apply _ _ _ _ _).symm

/-- **A change with an event** is followed by its listeners. -/
theorem change_of_some {w : ExpressionValue K D} (h : Watches java w) {c : Change K D}
    (hok : ChangeOk java w c) {event : Event K} (hevent : (c.outcome java w.heap).2 = some event) :
    Watches java (w.change java c) ∧ Fires java w (w.change java c) := by
  have htells : ∀ k, c.tells java w.heap k = event.isFor java k := by
    intro k
    rw [Change.tells, hevent]
    rfl
  have htakers : ∀ i ∈ attached w.heap 0 w.monitors c.object,
      ((w.monitors[i - 0]?).any fun m => c.tells java w.heap m.key) = true →
      i ∈ takers java event { w with heap := c.apply java w.heap } (w.listeners c.object) := by
    intro i hi hany
    rw [any_tells] at hany
    rw [h.listeners, takers, List.mem_filter]
    refine ⟨hi, ?_⟩
    simp only [htells] at hany
    exact hany
  have hsorted : (w.listeners c.object).Pairwise (· < ·) := by
    rw [h.listeners]
    exact attached_sorted _ _ _ _
  have hcalling : Calling java { w with heap := c.apply java w.heap }
      (takers java event { w with heap := c.apply java w.heap } (w.listeners c.object)) := by
    refine ⟨linked_apply h.chain hok.2 htakers, ⟨fun id => ?_, nofun⟩, hok.1⟩
    rw [List.nil_append]
    exact (h.listeners id).trans (attached_apply _ _ _ _ _).symm
  obtain ⟨hend, hheap, hroot, hkeys, hfired⟩ := foldl_onChanged hsorted hcalling
  have hchange : w.change java c = (w.listeners c.object).foldl (onChanged java event)
      { w with heap := c.apply java w.heap } := by
    rw [change, hevent]
  rw [← hchange] at hend hheap hroot hkeys hfired
  refine ⟨⟨hend.linked.chain, fun id => ?_⟩, ?_⟩
  · exact (hend.listening.eq id).trans (List.nil_append _)
  · intro hne
    by_contra hlt
    -- without a listener that takes the event the value is the same
    have hempty : takers java event { w with heap := c.apply java w.heap } (w.listeners c.object)
        = [] := by
      refine List.length_eq_zero_iff.1 ?_
      simp only at hfired
      omega
    refine hne ?_
    rw [value, hheap, hroot, hkeys]
    refine getPath_apply 0 h.chain hok.2 (fun i hi => ?_)
    by_contra htrue
    have hmem := htakers i hi (by simpa using htrue)
    rw [hempty] at hmem
    cases hmem

theorem change_spec {w : ExpressionValue K D} (h : Watches java w) {c : Change K D}
    (hok : ChangeOk java w c) :
    Watches java (w.change java c) ∧ Fires java w (w.change java c) := by
  cases hevent : (c.outcome java w.heap).2 with
  | none =>
    obtain ⟨hwatches, hvalue⟩ := change_of_none h hok hevent
    exact ⟨hwatches, fun hne => absurd hvalue hne⟩
  | some event => exact change_of_some h hok hevent

/-- **The expression value follows its expression**: while it has a change listener, in
every run in which each change meets `ChangeOk`, every change that alters the value at the
path fires a value change, and after every change the monitors are on the objects that the
path leads to. -/
theorem run_follows (heap : Heap K D) (root : Value D) (keyPath : List K)
    (hvalue : ∃ x, (new heap root keyPath).value java = .ok x) (cs : List (Change K D))
    (h : Along (step java) (ChangeOk java) ((new heap root keyPath).addListener java) cs) :
    Watches java ((new heap root keyPath).addListener java) ∧
      (∃ w, run (step java) ((new heap root keyPath).addListener java) cs = .ok w) ∧
      Along (step java) (fun w c => ∀ w', step java w c = .ok w' → Watches java w' ∧ Fires java w w')
        ((new heap root keyPath).addListener java) cs := by
  have hstart := addListener_watches hvalue
  refine ⟨hstart, ?_, ?_⟩
  · obtain ⟨w, hrun, -⟩ := run_invariant (Watches java)
      (fun w c hw hok => ⟨w.change java c, rfl, (change_spec hw hok).1⟩) hstart h
    exact ⟨w, hrun⟩
  · refine along_of_invariant (Watches java) ?_ ?_ hstart h
    · intro w c w' hw hok hstep
      cases hstep
      exact (change_spec hw hok).1
    · intro w c hw hok w' hstep
      cases hstep
      exact change_spec hw hok

/-- Numbers as keys. -/
def numbers : Platform ℕ ℕ where
  parseInt k := some k
  equals _ v v' := v = v'
  coerce v := .ok v

/-- A map with a list of 7 and 8. -/
def lists : Heap ℕ ℕ
  | 0 => .map fun k => if k = 0 then some (some (.ref 1)) else none
  | 1 => .list [some (.data 7), some (.data 8)]
  | _ => .map fun _ => none

/-- The element at the path is replaced. -/
theorem run_follows_replaced : ∃ cs : List (Change ℕ ℕ), cs ≠ [] ∧
    Watches numbers ((new lists (.ref 0) [0, 1]).addListener numbers) ∧
      (∃ w, run (step numbers) ((new lists (.ref 0) [0, 1]).addListener numbers) cs = .ok w) ∧
      Along (step numbers) (fun w c => ∀ w', step numbers w c = .ok w' →
        Watches numbers w' ∧ Fires numbers w w')
        ((new lists (.ref 0) [0, 1]).addListener numbers) cs := by
  refine ⟨[.replace 1 1 1 [some (.data 9)]], List.cons_ne_nil _ _,
    run_follows lists (.ref 0) [0, 1] ⟨some (.data 8), rfl⟩ _ ⟨⟨⟨some (.data 9), rfl⟩, ?_⟩, ?_⟩⟩
  · -- the change tells of the index
    refine ⟨.inl rfl, ?_⟩
    rintro _ ⟨⟩
    exact ⟨.inr rfl, fun _ _ => trivial⟩
  · exact fun _ _ => trivial

/-- An element inserted before the one at the path moves it, and nothing is fired. -/
theorem change_unnoticed : ¬ ∀ cs : List (Change ℕ ℕ),
    Along (step numbers) (fun w c => ∃ x,
        getValue numbers { w with heap := c.apply numbers w.heap } = .ok x)
      ((new lists (.ref 0) [0, 1]).addListener numbers) cs →
    Along (step numbers) (fun w c => ∀ w', step numbers w c = .ok w' →
        Watches numbers w' ∧ Fires numbers w w')
      ((new lists (.ref 0) [0, 1]).addListener numbers) cs := by
  intro h
  have hfires := ((h [.replace 1 0 0 [some (.data 5)]]
    ⟨⟨some (.data 7), rfl⟩, fun _ _ => trivial⟩).1 _ rfl).2
  exact absurd (hfires (by decide)) (by decide)

end ExpressionValue

end JavaFx.Fxml
