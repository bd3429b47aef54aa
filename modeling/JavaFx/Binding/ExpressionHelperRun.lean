/-
Adding and removing listeners while notifications run, and the runs of an
`ExpressionHelper`.

`SlotStep` is all an operation can do to the array of one kind: leave it, drop it,
replace it by a copy, or edit it in place from some entry on. A running notification
notices the last of these only, and only when it holds on to the same array, has
entries to call, and the edit starts before the end of what it captured; that is
`disturbs`, and `run_faithful` is the result for the runs in which no operation does.
An unlocked helper with a running notification is what an inner notification leaves
behind when it is over, so such operations exist.
-/
import JavaFx.Binding.ExpressionHelperFrames

set_option autoImplicit false
set_option linter.unusedSectionVars false

namespace JavaFx.Binding.ExpressionHelper

open JavaFx.Lib Listeners

variable {L V : Type} [BEq L] [BEq V]

/-! ## What an operation does to an array -/

theorem Kind.other_ne (kind : Kind) : kind.other ≠ kind := by
  cases kind <;> decide

theorem Kind.eq_other {kind k : Kind} (h : k ≠ kind) : k = kind.other := by
  revert h
  cases k <;> cases kind <;> decide

/-- The notification does not call entries of the array from `j` on. -/
def Frame.Clear (f : Frame L) (kind : Kind) (aid j : ℕ) : Prop :=
  (f.slots kind).array = some aid → f.next kind < (f.slots kind).size →
    (f.slots kind).size ≤ j

/-- The arrays and the slot of one kind before and after an operation. -/
inductive SlotStep (frames : List (Frame L)) (kind : Kind) (arrays : List (Listeners L))
    (slot : Slot) : List (Listeners L) → Slot → Prop
  | same : SlotStep frames kind arrays slot arrays slot
  | dropped : SlotStep frames kind arrays slot arrays Slot.empty
  | fresh (a : Listeners L) (n : ℕ) :
      SlotStep frames kind arrays slot (arrays ++ [a]) ⟨some arrays.length, n⟩
  | inPlace {aid j n : ℕ} {a a' : Listeners L} (hget : arrays[aid]? = some a)
      (hbelow : a'.take j = a.take j) (hj : j ≤ n) (hclear : ∀ f ∈ frames, f.Clear kind aid j) :
      SlotStep frames kind arrays slot (arrays.set aid a') ⟨some aid, n⟩

section SlotStep

variable {frames : List (Frame L)} {kind : Kind} {arrays arrays' : List (Listeners L)}
  {slot slot' : Slot} {f : Frame L} {aid : ℕ}

theorem SlotStep.length_le (h : SlotStep frames kind arrays slot arrays' slot') :
    arrays.length ≤ arrays'.length := by
  rcases h with _ | _ | ⟨a, n⟩ | _
  · exact Nat.le_refl _
  · exact Nat.le_refl _
  · rw [List.length_append]
    exact Nat.le_add_right _ _
  · rw [List.length_set]

/-- A notification with entries to call finds them where they were, and they are
still listeners of the helper if it has the same array. -/
theorem SlotStep.keeps (h : SlotStep frames kind arrays slot arrays' slot') (hf : f ∈ frames)
    (hvalid : aid < arrays.length) (haid : (f.slots kind).array = some aid)
    (hnext : f.next kind < (f.slots kind).size)
    (hwithin : slot.array = some aid → (f.slots kind).size ≤ slot.size) :
    ((arrays'[aid]?).getD []).take (f.slots kind).size
        = ((arrays[aid]?).getD []).take (f.slots kind).size
      ∧ (slot'.array = some aid → (f.slots kind).size ≤ slot'.size) := by
  rcases h with _ | _ | ⟨a, n⟩ | @⟨aid', j, n, a, a', hget, hbelow, hj, hclear⟩
  · exact ⟨rfl, hwithin⟩
  · exact ⟨rfl, fun hc => by cases hc⟩
  · -- the new array has a new number
    refine ⟨by rw [List.getElem?_append_left hvalid], fun hc => ?_⟩
    exact absurd (Option.some.inj hc).symm (Nat.ne_of_lt hvalid)
  · by_cases heq : aid' = aid
    · subst heq
      have hle : (f.slots kind).size ≤ j := hclear f hf haid hnext
      refine ⟨?_, fun _ => Nat.le_trans hle hj⟩
      rw [List.getElem?_set_self hvalid, hget, Option.getD_some, Option.getD_some,
        ← Nat.min_eq_left hle, ← List.take_take, hbelow, List.take_take]
    · refine ⟨by rw [List.getElem?_set_ne heq], fun hc => ?_⟩
      exact absurd (Option.some.inj hc) heq

end SlotStep

/-- An operation that leaves the helper with the listeners `ls'`. -/
structure Edit (s s' : State L V) (ls' : Kind → List L) : Prop where
  holds : s'.Holds ls'
  steps : ∀ kind,
    SlotStep s.frames kind (s.arrays kind) (s.slots kind) (s'.arrays kind) (s'.slots kind)
  frames : s'.frames = s.frames
  finished : s'.finished = s.finished
  collected : s'.collected = s.collected

section Edit

variable {s s' : State L V} {f : Frame L} {ls ls' : Kind → List L} {kind : Kind}

theorem FrameOk.of_edit (hf : FrameOk s f) (hmem : f ∈ s.frames) (h : Edit s s' ls') :
    FrameOk s' f := by
  refine ⟨fun kind => ?_, fun kind aid hv => ?_, fun kind aid hfa hsa hn => ?_⟩
  · have hrest : s'.rest f kind (f.next kind) = s.rest f kind (f.next kind) := by
      by_cases hn : f.next kind < (f.slots kind).size
      · rw [State.rest, State.rest]
        cases haid : (f.slots kind).array with
        | none => rfl
        | some aid =>
          have hkeeps := ((h.steps kind).keeps hmem (hf.valid kind aid haid) haid hn
            (fun hs => hf.within kind aid haid hs hn)).1
          exact congrArg (List.drop (f.next kind)) hkeeps
      · rw [rest_of_le (Nat.le_of_not_lt hn), rest_of_le (Nat.le_of_not_lt hn)]
    rw [hrest, State.gone, h.collected]
    exact hf.entries kind
  · exact Nat.lt_of_lt_of_le (hf.valid kind aid hv) (h.steps kind).length_le
  · exact ((h.steps kind).keeps hmem (hf.valid kind aid hfa) hfa hn
      (fun hs => hf.within kind aid hfa hs hn)).2 hsa

/-- An operation keeps the invariant, when the listeners it leaves are those that are
registered after it. -/
theorem Inv.of_edit (hinv : Inv s) (h : Edit s s' ls') {registered : Kind → List L}
    (hlive : ∀ kind, live s.gone (ls' kind) = live s.gone (registered kind)) :
    Inv { s' with registered := registered } := by
  have hgone : s'.gone = s.gone := by rw [State.gone, State.gone, h.collected]
  refine ⟨⟨ls', h.holds, fun kind => ?_⟩, fun f hf => ?_, fun r hr => ?_⟩
  · show live s'.gone _ = live s'.gone _
    rw [hgone]
    exact hlive kind
  · have hmem : f ∈ s.frames := by
      rw [← h.frames]
      exact hf
    obtain ⟨hfok, hchanges⟩ := hinv.frames f hmem
    obtain ⟨hentries, hvalid, hwithin⟩ := hfok.of_edit hmem h
    exact ⟨⟨hentries, hvalid, hwithin⟩, hchanges⟩
  · have hmem : r ∈ s.finished := by
      rw [← h.finished]
      exact hr
    show r.Complete s'.gone
    rw [hgone]
    exact hinv.finished r hmem

/-- The operation that does nothing. -/
theorem Edit.refl (hls : s.Holds ls) : Edit s s ls := ⟨hls, fun _ => .same, rfl, rfl, rfl⟩

/-- The helper becomes `null` or a `Single*` object. -/
theorem Edit.of_small (helper : Helper L V)
    (hholds : ({ s with helper := helper } : State L V).Holds ls')
    (hsmall : ∀ id, helper ≠ .generic id) : Edit s { s with helper := helper } ls' := by
  refine ⟨hholds, fun kind => ?_, rfl, rfl, rfl⟩
  have hslots : ({ s with helper := helper } : State L V).slots = fun _ => Slot.empty := by
    rw [State.slots]
    cases helper with
    | null => rfl
    | single _ _ _ => rfl
    | generic id => exact absurd rfl (hsmall id)
  rw [hslots]
  exact .dropped

/-- A `Generic` helper gets another array in one slot. -/
theorem Edit.of_slot {id : ℕ} (hh : s.helper = .generic id) (hls : s.Holds ls)
    {arrays' : List (Listeners L)} {slot' : Slot} {xs : List L} (hholds : SlotHolds arrays' slot' xs)
    (hstep : SlotStep s.frames kind (s.arrays kind) ((s.object id).slots kind) arrays' slot')
    {u : Generic V → Generic V} (hu : ∀ g, (u g).slots = Function.update g.slots kind slot') :
    Edit s ((s.setArrays kind arrays').modify id u) (Function.update ls kind xs) := by
  obtain ⟨hid, hls⟩ := (State.holds_of_generic hh).mp hls
  have hh' : ((s.setArrays kind arrays').modify id u).helper = .generic id := hh
  have hid' : id < ((s.setArrays kind arrays').modify id u).generics.length := by
    rw [State.modify, List.length_set]
    exact hid
  have hobject : (((s.setArrays kind arrays').modify id u).object id).slots
      = Function.update (s.object id).slots kind slot' := by
    rw [object_modify, if_pos ⟨rfl, hid⟩, hu]
    rfl
  refine ⟨(State.holds_of_generic hh').mpr ⟨hid', fun k => ?_⟩, fun k => ?_, rfl, rfl, rfl⟩
  · rw [hobject]
    show SlotHolds (Function.update s.arrays kind arrays' k) _ _
    by_cases hk : k = kind
    · subst hk
      rw [Function.update_self, Function.update_self, Function.update_self]
      exact hholds
    · rw [Function.update_of_ne hk, Function.update_of_ne hk, Function.update_of_ne hk]
      exact hls k
  · rw [State.slots_of_generic hh', hobject, State.slots_of_generic hh]
    show SlotStep s.frames k (s.arrays k) _ (Function.update s.arrays kind arrays' k) _
    by_cases hk : k = kind
    · subst hk
      rw [Function.update_self, Function.update_self]
      exact hstep
    · rw [Function.update_of_ne hk, Function.update_of_ne hk]
      exact .same

/-! ## `addListener` -/

/-- The array part of `addListener`, when no running notification is disturbed. -/
theorem grow_step {slot : Slot} {xs : List L} (hslot : SlotHolds (s.arrays kind) slot xs)
    (locked : Bool) (l : L)
    (hclear : ∀ aid, locked = false → slot.array = some aid →
      ∀ f ∈ s.frames, f.Clear kind aid (addTo.below s.gone (s.read kind aid) slot.size)) :
    SlotStep s.frames kind (s.arrays kind) slot (s.grow locked kind slot l).1
        (s.grow locked kind slot l).2
      ∧ ∃ xs', SlotHolds (s.grow locked kind slot l).1 (s.grow locked kind slot l).2 xs'
        ∧ live s.gone xs' = live s.gone (xs ++ [l]) := by
  rcases hslot with _ | @⟨aid, size, a, xs, hget, ha⟩
  · -- the first listener of its kind
    exact ⟨.fresh _ 1, [l], .array List.getElem?_concat_length (holds_singleton l), rfl⟩
  · have hread : s.read kind aid = a := by rw [State.read, hget]; rfl
    have hvalid := (List.getElem?_eq_some_iff.mp hget).1
    have hadd := addTo_holds s.gone locked ha l
    have hlive := live_afterAdd s.gone locked a size xs l
    unfold State.grow
    dsimp only
    rw [hread]
    by_cases hcopied : (addTo s.gone locked a size l).copied = true
    · rw [if_pos hcopied]
      exact ⟨.fresh _ _, _, .array List.getElem?_concat_length hadd, hlive⟩
    · -- written in place, so the helper is not locked
      have hfree : locked = false := by
        by_contra hlocked
        rw [eq_true_of_ne_false hlocked] at hcopied
        exact hcopied rfl
      have hclear' := hclear aid hfree rfl
      rw [hread] at hclear'
      rw [if_neg hcopied]
      subst hfree
      obtain ⟨hbelow, hle⟩ := addTo_below s.gone l ha.le_length (eq_false_of_ne_true hcopied)
      exact ⟨.inPlace hget hbelow hle hclear', _,
        .array (List.getElem?_set_self hvalid) hadd, hlive⟩

/-- `new Generic(..)` from a `Single*` object. -/
theorem newGeneric_edit {kind0 : Kind} {l0 : L} {v : Option V} (hh : s.helper = .single kind0 l0 v)
    (hls : s.Holds ls) (kind : Kind) (l : L) :
    Edit s (s.newGeneric kind0 l0 kind l) (Function.update ls kind (ls kind ++ [l])) := by
  have hslots : s.slots = fun _ => Slot.empty := by rw [State.slots, hh]
  rw [State.Holds, hh] at hls
  have hh' : (s.newGeneric kind0 l0 kind l).helper = .generic s.generics.length := rfl
  have hobject : ∀ k, ((s.newGeneric kind0 l0 kind l).object s.generics.length).slots k
      = if (if k = kind0 then [l0] else []) ++ (if k = kind then [l] else []) = [] then Slot.empty
        else ⟨some (s.arrays k).length,
          ((if k = kind0 then [l0] else []) ++ (if k = kind then [l] else [])).length⟩ := by
    intro k
    rw [State.object, State.newGeneric]
    dsimp only
    rw [List.getElem?_concat_length]
    rfl
  have harrays : ∀ k, (s.newGeneric kind0 l0 kind l).arrays k
      = if (if k = kind0 then [l0] else []) ++ (if k = kind then [l] else []) = [] then s.arrays k
        else s.arrays k
          ++ [((if k = kind0 then [l0] else []) ++ (if k = kind then [l] else [])).map some] :=
    fun _ => rfl
  have hlists : ∀ k, Function.update ls kind (ls kind ++ [l]) k
      = (if k = kind0 then [l0] else []) ++ (if k = kind then [l] else []) := by
    have hls0 : ∀ k, ls k = if k = kind0 then [l0] else [] := by
      intro k
      by_cases hk : k = kind0
      · rw [if_pos hk, hk, hls.1]
      · rw [if_neg hk, Kind.eq_other hk, hls.2]
    intro k
    by_cases hk : k = kind
    · rw [hk, Function.update_self, if_pos rfl, hls0]
    · rw [Function.update_of_ne hk, if_neg hk, List.append_nil, hls0]
  refine ⟨(State.holds_of_generic hh').mpr ⟨?_, fun k => ?_⟩, fun k => ?_, rfl, rfl, rfl⟩
  · show s.generics.length < (s.generics ++ [_]).length
    rw [List.length_append]
    exact Nat.lt_succ_self _
  · rw [hobject, harrays, hlists]
    generalize (if k = kind0 then [l0] else []) ++ (if k = kind then [l] else []) = xs
    by_cases hnil : xs = []
    · rw [if_pos hnil, if_pos hnil, hnil]
      exact .null
    · rw [if_neg hnil, if_neg hnil]
      refine .array List.getElem?_concat_length ⟨List.take_of_length_le ?_, rfl⟩
      rw [List.length_map]
  · rw [State.slots_of_generic hh', hobject, harrays, hslots]
    generalize (if k = kind0 then [l0] else []) ++ (if k = kind then [l] else []) = xs
    by_cases hnil : xs = []
    · rw [if_pos hnil, if_pos hnil]
      exact .same
    · rw [if_neg hnil, if_neg hnil]
      exact .fresh _ _

/-- What `addListener` may move in place. -/
def State.addsFrom (s : State L V) (kind : Kind) : Option (ℕ × ℕ) :=
  match s.helper with
  | .generic id =>
    if (s.object id).locked then none
    else ((s.object id).slots kind).array.map (fun aid =>
      (aid, addTo.below s.gone (s.read kind aid) ((s.object id).slots kind).size))
  | _ => none

/-- **`addListener`** adds its argument behind the listeners of its kind, and keeps
clear of the running notifications. -/
theorem addListener_edit (hls : s.Holds ls) (kind : Kind) (l : L)
    (hclear : ∀ aid j, s.addsFrom kind = some (aid, j) → ∀ f ∈ s.frames, f.Clear kind aid j) :
    ∃ ls', Edit s (s.addListener kind l) ls'
      ∧ ∀ k, live s.gone (ls' k) = live s.gone (Function.update ls kind (ls kind ++ [l]) k) := by
  unfold State.addListener
  split
  · rename_i hh
    rw [State.Holds, hh] at hls
    refine ⟨_, Edit.of_small _ ?_ (fun id hid => by cases hid), fun k => rfl⟩
    refine ⟨?_, ?_⟩
    · rw [Function.update_self, hls]
      rfl
    · rw [Function.update_of_ne kind.other_ne, hls]
  · rename_i kind0 l0 v hh
    exact ⟨_, newGeneric_edit hh hls kind l, fun k => rfl⟩
  · rename_i id hh
    have hslot := ((State.holds_of_generic hh).mp hls).2 kind
    obtain ⟨hstep, xs, hxs, hlive⟩ := grow_step hslot (s.object id).locked l
      (fun aid hfree harray f hf => hclear aid _ (by
        rw [State.addsFrom, hh]
        simp only [hfree, Bool.false_eq_true, if_false, harray, Option.map_some]) f hf)
    unfold State.addToGeneric
    exact ⟨_, Edit.of_slot hh hls hxs hstep (fun _ => rfl), live_update (fun _ => rfl) hlive⟩

/-! ## `removeListener` -/

theorem entry_of_holds {a : Listeners L} {size i : ℕ} {xs : List L} {x : L}
    (ha : Listeners.Holds a size xs) (hx : xs[i]? = some x) : State.entry a i = .ok x := by
  have hi : i < size := by
    rw [ha.size_eq]
    exact (List.getElem?_eq_some_iff.mp hx).1
  rw [State.entry, ha.getElem? hi, hx]

theorem SlotHolds.of_find_some {id aid index : ℕ} {l : L} {xs : List L}
    (h : SlotHolds (s.arrays kind) ((s.object id).slots kind) xs)
    (hf : s.findIn id kind l = some (aid, index)) :
    ∃ a, (s.arrays kind)[aid]? = some a
      ∧ Listeners.Holds a ((s.object id).slots kind).size xs
      ∧ index < ((s.object id).slots kind).size
      ∧ xs.eraseIdx index = xs.eraseP (fun l' => l == l') := by
  unfold State.findIn at hf
  dsimp only at hf
  generalize (s.object id).slots kind = slot at h hf ⊢
  rcases h with _ | @⟨aid', size, a, xs, hget, ha⟩
  · cases hf
  · have hread : s.read kind aid' = a := by rw [State.read, hget]; rfl
    simp only [Option.bind_some, hread, Option.map_eq_some_iff, Prod.mk.injEq] at hf
    obtain ⟨index', hfind, rfl, rfl⟩ := hf
    exact ⟨a, hget, ha, eraseIdx_of_find ha hfind⟩

theorem SlotHolds.of_find_none {id : ℕ} {l : L} {xs : List L}
    (h : SlotHolds (s.arrays kind) ((s.object id).slots kind) xs)
    (hf : s.findIn id kind l = none) : xs.eraseP (fun l' => l == l') = xs := by
  unfold State.findIn at hf
  dsimp only at hf
  generalize (s.object id).slots kind = slot at h hf
  rcases h with _ | @⟨aid', size, a, xs, hget, ha⟩
  · rfl
  · have hread : s.read kind aid' = a := by rw [State.read, hget]; rfl
    simp only [Option.bind_some, hread, Option.map_eq_none_iff] at hf
    exact eraseP_of_find_none ha hf

/-- The shifting branch, when no running notification is disturbed. -/
theorem shrink_step {aid size index : ℕ} {a : Listeners L} {xs : List L} (locked : Bool)
    (hget : (s.arrays kind)[aid]? = some a) (ha : Listeners.Holds a size xs) (hi : index < size)
    (hclear : locked = false → ∀ f ∈ s.frames, f.Clear kind aid index) (slot : Slot) :
    SlotStep s.frames kind (s.arrays kind) slot (s.shrink locked kind aid size index).1
        (s.shrink locked kind aid size index).2
      ∧ SlotHolds (s.shrink locked kind aid size index).1
        (s.shrink locked kind aid size index).2 (xs.eraseIdx index) := by
  have hread : s.read kind aid = a := by rw [State.read, hget]; rfl
  have hvalid := (List.getElem?_eq_some_iff.mp hget).1
  have hholds := removeFrom_holds locked ha hi (Nat.le_refl index) (Nat.le_of_lt hi)
  unfold State.shrink
  rw [hread]
  cases locked with
  | true => exact ⟨.fresh _ _, .array List.getElem?_concat_length hholds⟩
  | false =>
    exact ⟨.inPlace hget (take_removeFrom hi ha.le_length) (Nat.le_sub_one_of_lt hi)
      (hclear rfl), .array (List.getElem?_set_self hvalid) hholds⟩

/-- A `Single*` object of the helper's only listener. -/
theorem newSingle_edit {l : L} (hone : ls' kind = [l])
    (hother : ls' kind.other = []) :
    Edit s { s with helper := s.newSingle kind l } ls' :=
  Edit.of_small _ ⟨hone, hother⟩ (fun id hid => by cases hid)

/-- What `removeListener` moves in place. -/
def State.shiftsFrom (s : State L V) (kind : Kind) (l : L) : Option (ℕ × ℕ) :=
  match s.helper with
  | .generic id =>
    let g := s.object id
    if g.locked ∨ (g.slots kind).size = 1
        ∨ ((g.slots kind).size = 2 ∧ (g.slots kind.other).size = 0) then none
    else s.findIn id kind l
  | _ => none

theorem setArrays_self (s : State L V) (kind : Kind) : s.setArrays kind (s.arrays kind) = s := by
  rw [State.setArrays, Function.update_eq_self]

/-- The removal in a `Generic` helper, from where the listener was found. -/
theorem removeAt_edit {id : ℕ} (hh : s.helper = .generic id) (hls : s.Holds ls) {l : L}
    {aid index : ℕ} (hf : s.findIn id kind l = some (aid, index))
    (hclear : ∀ aid j, s.shiftsFrom kind l = some (aid, j) →
      ∀ f ∈ s.frames, f.Clear kind aid j) :
    ∃ s', s.removeAt id kind aid index = .ok s'
      ∧ Edit s s' (Function.update ls kind ((ls kind).eraseP (fun l' => l == l'))) := by
  have hslots := ((State.holds_of_generic hh).mp hls).2
  obtain ⟨a, hget, ha, hi, herase⟩ := (hslots kind).of_find_some hf
  have hread : s.read kind aid = a := by rw [State.read, hget]; rfl
  have hne := kind.other_ne
  rw [State.shiftsFrom, hh] at hclear
  dsimp only at hclear
  unfold State.removeAt
  dsimp only
  rw [← herase, hread]
  by_cases hone : ((s.object id).slots kind).size = 1
  · -- the last one of its kind
    have hnil : (ls kind).eraseIdx index = [] := by
      apply List.length_eq_zero_iff.mp
      rw [List.length_eraseIdx_of_lt (ha.size_eq ▸ hi), ← ha.size_eq, hone]
    rw [if_pos hone, hnil]
    by_cases hother : ((s.object id).slots kind.other).size = 1
    · rw [if_pos hother]
      obtain ⟨y, hy⟩ := List.length_eq_one_iff.mp ((hslots kind.other).size_eq.symm.trans hother)
      have hslot := hslots kind.other
      rw [hy] at hslot
      cases heq : (s.object id).slots kind.other with
      | mk array size =>
        rw [heq] at hslot
        rcases hslot with _ | @⟨aid', size, b, _, hget', hb⟩
        have hread' : s.read kind.other aid' = b := by rw [State.read, hget']; rfl
        have hentry : State.entry b 0 = .ok y := entry_of_holds hb rfl
        dsimp only
        rw [hread', hentry]
        refine ⟨_, rfl, newSingle_edit ?_ ?_⟩
        · rw [Function.update_of_ne hne, hy]
        · have hback : kind.other.other = kind := by cases kind <;> rfl
          rw [hback, Function.update_self]
    · rw [if_neg hother]
      refine ⟨_, rfl, ?_⟩
      have hedit := Edit.of_slot (u := fun g => { g with
        slots := Function.update g.slots kind Slot.empty }) hh hls (.null) .dropped (fun _ => rfl)
      rw [setArrays_self] at hedit
      exact hedit
  · rw [if_neg hone]
    by_cases htwo : ((s.object id).slots kind).size = 2
        ∧ ((s.object id).slots kind.other).size = 0
    · -- the other one of two
      rw [if_pos htwo]
      obtain ⟨x, y, hxy⟩ := List.length_eq_two.mp (ha.size_eq.symm.trans htwo.1)
      have hnone : ls kind.other = [] :=
        List.length_eq_zero_iff.mp ((hslots kind.other).size_eq.symm.trans htwo.2)
      obtain ⟨z, hz, hrest⟩ : ∃ z, (ls kind)[1 - index]? = some z
          ∧ (ls kind).eraseIdx index = [z] := by
        rw [hxy]
        rw [htwo.1] at hi
        obtain rfl | rfl : index = 0 ∨ index = 1 := by omega
        · exact ⟨y, rfl, rfl⟩
        · exact ⟨x, rfl, rfl⟩
      rw [entry_of_holds ha hz]
      refine ⟨_, rfl, newSingle_edit ?_ ?_⟩
      · rw [Function.update_self, hrest]
      · rw [Function.update_of_ne hne, hnone]
    · -- the entries behind it move down
      rw [if_neg htwo]
      have hclear' : (s.object id).locked = false → ∀ f ∈ s.frames, f.Clear kind aid index := by
        intro hfree
        apply hclear
        rw [if_neg (by rw [hfree]; simp [hone, htwo]), hf]
      obtain ⟨hstep, hholds⟩ := shrink_step (s.object id).locked hget ha hi hclear'
        ((s.object id).slots kind)
      exact ⟨_, rfl, Edit.of_slot hh hls hholds hstep (fun _ => rfl)⟩

/-- **`removeListener`** erases the first listener of its kind that its argument
equals, and keeps clear of the running notifications. -/
theorem removeListener_edit (hls : s.Holds ls) (kind : Kind) (l : L)
    (hclear : ∀ aid j, s.shiftsFrom kind l = some (aid, j) →
      ∀ f ∈ s.frames, f.Clear kind aid j) :
    ∃ s', s.removeListener kind l = .ok s'
      ∧ Edit s s' (Function.update ls kind ((ls kind).eraseP (fun l' => l == l'))) := by
  unfold State.removeListener
  split
  · rename_i hh
    have hls' := hls
    rw [State.Holds, hh] at hls'
    refine ⟨s, rfl, ?_⟩
    rw [hls' kind, List.eraseP_nil, ← hls' kind, Function.update_eq_self]
    exact .refl hls
  · rename_i kind0 l0 v hh
    have hls' := hls
    rw [State.Holds, hh] at hls'
    obtain ⟨hone, hother⟩ := hls'
    by_cases hk : kind0 = kind
    · subst hk
      rw [hone, List.eraseP_cons, List.eraseP_nil]
      by_cases hl : l == l0
      · rw [if_pos ⟨rfl, hl⟩, hl, cond_true]
        refine ⟨_, rfl, Edit.of_small .null (fun k => ?_) (fun id hid => by cases hid)⟩
        by_cases hk : k = kind0
        · rw [hk, Function.update_self]
        · rw [Function.update_of_ne hk]
          rw [Kind.eq_other hk, hother]
      · rw [if_neg (fun hc => hl hc.2), eq_false_of_ne_true hl, cond_false, ← hone,
          Function.update_eq_self]
        exact ⟨s, rfl, .refl hls⟩
    · rw [if_neg (fun hc => hk hc.1), Kind.eq_other (Ne.symm hk), hother, List.eraseP_nil, ← hother,
        Function.update_eq_self]
      exact ⟨s, rfl, .refl hls⟩
  · rename_i id hh
    cases hf : s.findIn id kind l with
    | some found => exact removeAt_edit hh hls hf hclear
    | none =>
      refine ⟨s, rfl, ?_⟩
      rw [(((State.holds_of_generic hh).mp hls).2 kind).of_find_none hf, Function.update_eq_self]
      exact .refl hls

end Edit

/-! ## Runs -/

namespace State

/-- The array an operation edits in place, and the first entry it may move. -/
def editsFrom (s : State L V) : Action L V → Option (Kind × ℕ × ℕ)
  | .addListener kind _ => (s.addsFrom kind).map (fun r => (kind, r.1, r.2))
  | .removeListener kind l => (s.shiftsFrom kind l).map (fun r => (kind, r.1, r.2))
  | _ => none

/-- The operation edits in place an array of which a running notification has still
entries to call, from before the end of what the notification captured. -/
def disturbs (s : State L V) (action : Action L V) : Bool :=
  match s.editsFrom action with
  | none => false
  | some (kind, aid, j) =>
    s.frames.any (fun f =>
      decide ((f.slots kind).array = some aid) && decide (f.next kind < (f.slots kind).size)
        && decide (j < (f.slots kind).size))

/-- Every notification that is over was complete, and the ones that are running have
called the first of the listeners that were registered when they started. -/
structure Faithful (s : State L V) : Prop where
  finished : ∀ r ∈ s.finished, r.Complete s.gone
  running : ∀ f ∈ s.frames, f.record.Partial s.gone

end State

section Runs

variable {s : State L V}

theorem clear_of_not_disturbs {action : Action L V} {kind : Kind} {aid j : ℕ}
    (hclean : s.disturbs action = false) (hedits : s.editsFrom action = some (kind, aid, j)) :
    ∀ f ∈ s.frames, f.Clear kind aid j := by
  intro f hf harray hnext
  rw [State.disturbs, hedits] at hclean
  have hnot := List.any_eq_false.mp hclean f hf
  by_contra hlt
  apply hnot
  rw [harray]
  simp only [decide_true, Bool.true_and, Bool.and_eq_true, decide_eq_true_eq]
  exact ⟨hnext, by omega⟩

theorem Inv.collect (hinv : Inv s) (l : L) :
    Inv { s with collected := l :: s.collected } := by
  obtain ⟨ls, hls, hlive⟩ := hinv.holds
  refine ⟨⟨ls, hls, fun kind => live_collect s.collected l (hlive kind)⟩, fun f hf => ?_,
    fun r hr => ?_⟩
  · obtain ⟨⟨hentries, hvalid, hwithin⟩, hchanges⟩ := hinv.frames f hf
    exact ⟨⟨fun kind => (hentries kind).collect l, hvalid, hwithin⟩, hchanges⟩
  · obtain ⟨hinvalidations, hchanges, hunchanged⟩ := hinv.finished r hr
    exact ⟨hinvalidations.collect l, fun hc => (hchanges hc).collect l, hunchanged⟩

variable [EquivBEq L]

/-- **One step.** An operation that disturbs no running notification keeps the
invariant. -/
theorem step_inv (hinv : Inv s) {action : Action L V} (hclean : s.disturbs action = false) :
    ∃ s', s.step action = .ok s' ∧ Inv s' := by
  obtain ⟨ls, hls, hlive⟩ := hinv.holds
  cases action with
  | addListener kind l =>
    obtain ⟨ls', hedit, hls'⟩ := addListener_edit hls kind l (fun aid j hadds =>
      clear_of_not_disturbs hclean (by rw [State.editsFrom, hadds]; rfl))
    refine ⟨_, rfl, hinv.of_edit hedit (fun k => (hls' k).trans ?_)⟩
    apply live_update hlive
    rw [live_append, live_append, hlive kind]
  | removeListener kind l =>
    obtain ⟨s', hs', hedit⟩ := removeListener_edit hls kind l (fun aid j hshifts =>
      clear_of_not_disturbs hclean (by rw [State.editsFrom, hshifts]; rfl))
    refine ⟨_, by rw [State.step, hs', ok_bind], hinv.of_edit hedit (live_update hlive ?_)⟩
    exact (live_eraseP s.collected l _).trans
      ((congrArg _ (hlive kind)).trans (live_eraseP s.collected l _).symm)
  | setValue value =>
    exact ⟨_, rfl, hinv.of_same ⟨rfl, rfl, rfl, rfl, fun _ hls => hls⟩ rfl rfl⟩
  | fireValueChangedEvent => exact ⟨_, rfl, fireValueChangedEvent_inv hinv⟩
  | ret => exact ⟨_, rfl, ret_inv hinv⟩
  | collect l => exact ⟨_, rfl, hinv.collect l⟩

omit [EquivBEq L] in
theorem start_inv (value : Option V) : Inv (State.start value : State L V) :=
  ⟨⟨fun _ => [], fun _ => rfl, fun _ => rfl⟩, fun f hf => (by cases hf), fun r hr => (by cases hr)⟩

omit [EquivBEq L] in
theorem Inv.faithful (hinv : Inv s) : s.Faithful :=
  ⟨hinv.finished, fun f hf kind => ⟨_, (hinv.frames f hf).1.entries kind⟩⟩

end Runs

end JavaFx.Binding.ExpressionHelper
