/-
The list listeners of `com.sun.javafx.binding.ContentBinding` and
`BidirectionalContentBinding`.

Both replay the sub-changes of a change one by one on their own list, but read
the permuted and the added elements from the source list, which already is in
its final state. They differ only in how the other list lets go of a range, so
`replaySubChange` has that as a parameter.

`listContentBinding_follows_iff` says exactly when this ends with the source's
list: the elements of a permuted range that the later sub-changes keep must be
found in the final list where they stood right after the permutation.
-/
import JavaFx.Collections.ListChange

set_option autoImplicit false

namespace JavaFx.Binding

open JavaFx.Lib JavaFx.ListChange

variable {E : Type}

/-! ## List operations -/

/-- `List.subList`, as the elements it shows. -/
def subList (l : List E) (fromIdx toIdx : ℕ) : Except Exn (List E) :=
  if l.length < toIdx then .error .indexOutOfBounds
  else if toIdx < fromIdx then .error .illegalArgument
  else .ok ((l.take toIdx).drop fromIdx)

/-- `list.subList(from, to).clear()`, with the list that is left. -/
def subListClear (l : List E) (fromIdx toIdx : ℕ) : Except Exn (List E) :=
  if l.length < toIdx then .error .indexOutOfBounds
  else if toIdx < fromIdx then .error .illegalArgument
  else .ok (l.take fromIdx ++ l.drop toIdx)

/-- `List.addAll(int, Collection)`. -/
def addAll (l : List E) (index : ℕ) (xs : List E) : Except Exn (List E) :=
  if l.length < index then .error .indexOutOfBounds
  else .ok (l.take index ++ (xs ++ l.drop index))

/-- `List.remove(int)`. -/
def removeAt (l : List E) (index : ℕ) : Except Exn (List E) :=
  if index < l.length then .ok (l.eraseIdx index) else .error .indexOutOfBounds

/-- `ObservableList.remove(int, int)` of `ObservableListWrapper`. -/
def removeFromTo (l : List E) (fromIdx toIdx : ℕ) : Except Exn (List E) :=
  run (fun l (_ : ℕ) => removeAt l fromIdx) l (List.range' fromIdx (toIdx - fromIdx))

/-! ## The listeners -/

/-- The body of `while (change.next())` in both listeners; `clear` takes a range
out of the listener's own list. -/
def replaySubChange (clear : List E → ℕ → ℕ → Except Exn (List E)) (source : List E)
    (list : List E) (change : SubChange E) : Except Exn (List E) :=
  if change.wasPermutated then do
    let list ← clear list change.fromIdx change.toIdx
    let elements ← subList source change.fromIdx change.toIdx
    addAll list change.fromIdx elements
  else do
    let list ←
      if change.wasRemoved then clear list change.fromIdx (change.fromIdx + change.removedSize)
      else .ok list
    if change.wasAdded then do
      let elements ← subList source change.fromIdx change.toIdx
      addAll list change.fromIdx elements
    else .ok list

/-- `ContentBinding.ListContentBinding.onChanged`, for a list that is still there. -/
def ContentBinding.onChanged (source list : List E) (change : List (SubChange E)) :
    Except Exn (List E) :=
  run (replaySubChange subListClear source) list change

/-- Two lists bound by `BidirectionalContentBinding`. -/
structure BidirectionalContentBinding (E : Type) where
  list1 : List E
  list2 : List E
  updating : Bool

/-- Which of the two bound collections a change is fired for. -/
inductive Side
  | first
  | second
  deriving DecidableEq

/-- The side the change is carried over to. -/
def Side.other : Side → Side
  | .first => .second
  | .second => .first

namespace BidirectionalContentBinding

def get (b : BidirectionalContentBinding E) : Side → List E
  | .first => b.list1
  | .second => b.list2

def put (b : BidirectionalContentBinding E) (l : List E) : Side → BidirectionalContentBinding E
  | .first => { b with list1 := l }
  | .second => { b with list2 := l }

/-- `onChanged` for a change of the list on `side`. Every edit of the other list
notifies this very listener; `updating` is set by then, so those calls return at
once and the loop leaves them out. -/
def onChanged (b : BidirectionalContentBinding E) (side : Side) (change : List (SubChange E)) :
    Except Exn (BidirectionalContentBinding E) :=
  if b.updating then .ok b
  else do
    let dest ← run (replaySubChange removeFromTo (b.get side)) (b.get side.other) change
    return { b.put dest side.other with updating := false }

end BidirectionalContentBinding

/-! ## Replaying the add/remove sub-changes -/

section Replay

/-- A way to take out a range that works on every range the list has. -/
def Clears (clear : List E → ℕ → ℕ → Except Exn (List E)) : Prop :=
  ∀ (P R S : List E) (a b : ℕ), a = P.length → b = P.length + R.length →
    clear (P ++ (R ++ S)) a b = .ok (P ++ S)

variable {P Q R A S T : List E} {a b : ℕ}

theorem subListClear_clears : Clears (E := E) subListClear := by
  rintro P R S a b rfl rfl
  rw [subListClear, if_neg (by simp only [List.length_append]; omega), if_neg (by omega),
    List.take_left, ← List.append_assoc, ← List.length_append, List.drop_left]

theorem removeFromTo_clears : Clears (E := E) removeFromTo := by
  rintro P R S a b rfl rfl
  rw [removeFromTo, Nat.add_sub_cancel_left]
  suffices h : ∀ (js : List ℕ), js.length = R.length →
      run (fun l (_ : ℕ) => removeAt l P.length) (P ++ (R ++ S)) js = .ok (P ++ S) from
    h _ List.length_range'
  induction R with
  | nil =>
    intro js hjs
    rw [List.length_eq_zero_iff.mp hjs]
    rfl
  | cons x R ih =>
    intro js hjs
    obtain ⟨j, js, rfl⟩ := List.exists_cons_of_length_eq_add_one hjs
    have hone : removeAt (P ++ (x :: R ++ S)) P.length = .ok (P ++ (R ++ S)) := by
      rw [removeAt, if_pos (by simp), List.eraseIdx_append_of_length_le le_rfl]
      simp
    rw [run, hone]
    exact ih js (by simpa using hjs)

theorem subList_mid (ha : a = P.length) (hb : b = P.length + A.length) :
    subList (P ++ (A ++ S)) a b = .ok A := by
  subst ha hb
  rw [subList, if_neg (by simp only [List.length_append]; omega), if_neg (by omega),
    ← List.append_assoc, ← List.length_append, List.take_left, List.drop_left]

theorem addAll_mid (ha : a = P.length) : addAll (P ++ S) a A = .ok (P ++ (A ++ S)) := by
  subst ha
  rw [addAll, if_neg (by simp only [List.length_append]; omega), List.take_left, List.drop_left]

/-- An add/remove sub-change replayed at its place. -/
theorem replaySubChange_addRemove {clear : List E → ℕ → ℕ → Except Exn (List E)}
    (hclear : Clears clear) {lR : List E} (hP : P.length = Q.length) (hR : lR.length = R.length)
    (ha : a = Q.length) (hb : b = Q.length + A.length) :
    replaySubChange clear (P ++ (A ++ S)) (Q ++ (lR ++ T)) (SubChange.addRemove a b R)
      = .ok (Q ++ (A ++ T)) := by
  have hremove : (if (SubChange.addRemove a b R).wasRemoved then
      clear (Q ++ (lR ++ T)) a (a + R.length) else .ok (Q ++ (lR ++ T))) = .ok (Q ++ T) := by
    cases R with
    | nil =>
      rw [List.length_eq_zero_iff.mp hR]
      rfl
    | cons x R => exact hclear Q lR T _ _ ha (by omega)
  have hadd : (if (SubChange.addRemove a b R).wasAdded then do
      let elements ← subList (P ++ (A ++ S)) a b
      addAll (Q ++ T) a elements else .ok (Q ++ T)) = .ok (Q ++ (A ++ T)) := by
    rw [SubChange.addRemove_wasAdded]
    by_cases hA : a < b
    · simp only [hA, decide_true, if_true, subList_mid (ha.trans hP.symm) (hP ▸ hb), ok_bind,
        addAll_mid ha]
    · have : A = [] := List.length_eq_zero_iff.mp (by omega)
      simp [hA, this]
  unfold replaySubChange
  simp only [SubChange.addRemove_wasPermutated, Bool.false_eq_true, if_false,
    SubChange.addRemove_fromIdx, SubChange.addRemove_toIdx, SubChange.addRemove_removedSize]
  by_cases hr : (SubChange.addRemove a b R).wasRemoved = true
  · rw [if_pos hr] at hremove ⊢
    rw [hremove, ok_bind, hadd]
  · rw [if_neg hr] at hremove ⊢
    rw [hremove, ok_bind, hadd]

/-- The positions in the old list, from `i` up to `n`, of the elements the
sub-changes keep; `off` is the position in the new list that belongs to `i`. -/
def keptPositions (n : ℕ) : ℕ → ℕ → List (SubChange E) → List ℕ
  | i, _, [] => List.range' i (n - i)
  | i, off, c :: cs =>
    List.range' i (c.fromIdx - off)
      ++ keptPositions n (i + (c.fromIdx - off) + c.removedSize) c.toIdx cs

/-- Two equally long stretches are equal when they agree position by position. -/
theorem stretch_eq_iff {lp op l K s t : List E} {i : ℕ} (hlp : lp.length = i) (hop : op.length = i)
    (hlen : l.length = K.length) :
    (∀ j ∈ List.range' i K.length, (lp ++ (l ++ s))[j]? = (op ++ (K ++ t))[j]?) ↔ l = K := by
  have hat {q u r : List E} (hq : q.length = i) (k : ℕ) (hk : k < u.length) :
      (q ++ (u ++ r))[i + k]? = u[k]? := by
    rw [List.getElem?_append_right (by omega), hq, Nat.add_sub_cancel_left,
      List.getElem?_append_left hk]
  constructor
  · intro h
    refine List.ext_getElem? (fun k => ?_)
    by_cases hk : k < K.length
    · have := h (i + k) (List.mem_range'_1.mpr (by omega))
      rwa [hat hlp k (by omega), hat hop k hk] at this
    · rw [List.getElem?_eq_none (by omega), List.getElem?_eq_none (by omega)]
  · rintro rfl j hj
    rw [List.mem_range'_1] at hj
    obtain ⟨k, rfl⟩ := Nat.exists_eq_add_of_le hj.1
    rw [hat hlp k (by omega), hat hop k (by omega)]

/-- **The add/remove sub-changes replayed on any list of the right length.** The
outcome is the final list exactly when the elements that are kept are those the
list before the change had. -/
theorem replay_edits {clear : List E → ℕ → ℕ → Except Exn (List E)} (hclear : Clears clear)
    {off i : ℕ} {old new l lp op : List E} {cs : List (SubChange E)} (h : Edits off old new cs)
    (hP : P.length = off) (hQ : Q.length = off) (hl : l.length = old.length)
    (hlp : lp.length = i) (hop : op.length = i) :
    ∃ res, run (replaySubChange clear (P ++ new)) (Q ++ l) cs = .ok (Q ++ res)
      ∧ res.length = new.length
      ∧ (res = new ↔ ∀ j ∈ keptPositions (i + old.length) i off cs,
          (lp ++ l)[j]? = (op ++ old)[j]?) := by
  induction h generalizing P Q l lp op i with
  | nil off K =>
    refine ⟨l, rfl, hl, ?_⟩
    have := stretch_eq_iff (s := []) (t := []) hlp hop hl
    simp only [List.append_nil] at this
    rw [keptPositions, Nat.add_sub_cancel_left]
    exact this.symm
  | @cons off K R A old new cs tail ih =>
    simp only [List.length_append] at hl
    obtain ⟨lK, lR, l, rfl, hlK, hlR⟩ : ∃ lK lR l', l = lK ++ (lR ++ l') ∧ lK.length = K.length
        ∧ lR.length = R.length := by
      refine ⟨l.take K.length, (l.drop K.length).take R.length, (l.drop K.length).drop R.length,
        ?_, ?_, ?_⟩
      · rw [List.take_append_drop, List.take_append_drop]
      · rw [List.length_take]
        omega
      · rw [List.length_take, List.length_drop]
        omega
    simp only [List.length_append] at hl
    have hone := replaySubChange_addRemove hclear (P := P ++ K) (Q := Q ++ lK) (A := A) (S := new)
      (T := l) (R := R) (a := off + K.length) (b := off + K.length + A.length)
      (by simp only [List.length_append]; omega) hlR (by simp only [List.length_append]; omega)
      (by simp only [List.length_append]; omega)
    have hP' : (P ++ (K ++ A)).length = off + K.length + A.length := by
      simp only [List.length_append]
      omega
    have hQ' : (Q ++ (lK ++ A)).length = off + K.length + A.length := by
      simp only [List.length_append]
      omega
    have hlp' : (lp ++ (lK ++ lR)).length = i + K.length + R.length := by
      simp only [List.length_append]
      omega
    have hop' : (op ++ (K ++ R)).length = i + K.length + R.length := by
      simp only [List.length_append]
      omega
    obtain ⟨res, hres, hlen, hiff⟩ := ih (l := l) hP' hQ' (by omega) hlp' hop'
    simp only [List.append_assoc] at hone hres hiff
    refine ⟨lK ++ (A ++ res), ?_, ?_, ?_⟩
    · rw [run, hone]
      exact hres
    · simp only [List.length_append, hlen, hlK]
    · have hkept := stretch_eq_iff (s := lR ++ l) (t := R ++ old) hlp hop hlK
      have hkeep : lK ++ (A ++ res) = K ++ (A ++ new) ↔ lK = K ∧ res = new := by
        constructor
        · intro h
          obtain ⟨hK, hrest⟩ := List.append_inj h hlK
          exact ⟨hK, List.append_cancel_left hrest⟩
        · rintro ⟨rfl, rfl⟩
          rfl
      have hn : i + (K ++ (R ++ old)).length = i + K.length + R.length + old.length := by
        simp only [List.length_append]
        omega
      rw [hkeep, ← hkept, hiff, keptPositions, List.forall_mem_append, hn]
      simp only [SubChange.addRemove_fromIdx, SubChange.addRemove_toIdx,
        SubChange.addRemove_removedSize, Nat.add_sub_cancel_left]

/-- Updated ranges change nothing. -/
theorem replay_updates (clear : List E → ℕ → ℕ → Except Exn (List E)) (source l : List E)
    (us : List (ℕ × ℕ)) :
    run (replaySubChange clear source) l (us.map (fun u => SubChange.update u.1 u.2)) = .ok l := by
  induction us with
  | nil => rfl
  | cons u us ih => exact ih

end Replay

/-! ## The permutation -/

section Follow

variable {old final : List E} {c : Composite E} {clear : List E → ℕ → ℕ → Except Exn (List E)}

/-- A permuted range, replayed: the range is taken from the final list. -/
theorem replaySubChange_permuted (hclear : Clears clear) {i : ℕ} {perm : List ℕ} (hne : perm ≠ [])
    (h : PermutesRange i perm old.length) :
    replaySubChange clear final old (SubChange.permuted i perm)
      = if i + perm.length ≤ final.length then
          .ok (old.take i ++ ((final.take (i + perm.length)).drop i
            ++ old.drop (i + perm.length)))
        else .error .indexOutOfBounds := by
  have hlen := h.1
  have hsplit : old = old.take i
      ++ (((old.drop i).take perm.length) ++ old.drop (i + perm.length)) := by
    rw [← List.drop_drop, List.take_append_drop, List.take_append_drop]
  have htake : (old.take i).length = i := by
    rw [List.length_take]
    omega
  have hcleared : clear old i (i + perm.length)
      = .ok (old.take i ++ old.drop (i + perm.length)) := by
    conv_lhs => rw [hsplit]
    refine hclear _ _ _ _ _ htake.symm ?_
    rw [htake, List.length_take, List.length_drop]
    omega
  simp only [replaySubChange, SubChange.permuted_wasPermutated, hne, ne_eq, not_false_eq_true,
    decide_true, if_true, SubChange.permuted_fromIdx, SubChange.permuted_toIdx, hcleared, ok_bind]
  by_cases hfit : i + perm.length ≤ final.length
  · rw [if_pos hfit, subList, if_neg (by omega), if_neg (by omega), ok_bind, addAll_mid htake.symm]
  · rw [if_neg hfit, subList, if_pos (by omega), error_bind]

/-- The list with a range taken from another one. -/
theorem getElem?_overlay {i k j : ℕ} (hold : i + k ≤ old.length) (hfinal : i + k ≤ final.length) :
    (old.take i ++ ((final.take (i + k)).drop i ++ old.drop (i + k)))[j]?
      = if i ≤ j ∧ j < i + k then final[j]? else old[j]? := by
  have htake : (old.take i).length = i := by
    rw [List.length_take]
    omega
  have hmid : ((final.take (i + k)).drop i).length = k := by
    rw [List.length_drop, List.length_take]
    omega
  split_ifs with hj
  · rw [List.getElem?_append_right (by omega), List.getElem?_append_left (by omega),
      List.getElem?_drop, List.getElem?_take_of_lt (by omega)]
    congr 1
    omega
  · by_cases hlt : j < i
    · rw [List.getElem?_append_left (by omega), List.getElem?_take_of_lt hlt]
    · rw [List.getElem?_append_right (by omega), List.getElem?_append_right (by omega),
        List.getElem?_drop]
      congr 1
      omega

/-- The permuted range lies within the final list, and an element of it that the
add/remove sub-changes keep is found in the final list where it stood right
after the permutation. -/
def Undisturbed (old final : List E) (c : Composite E) : Prop :=
  ∀ p ∈ c.permutation, p.1 + p.2.length ≤ final.length
    ∧ ∀ j ∈ keptPositions old.length 0 0 c.addRemoves, p.1 ≤ j → j < p.1 + p.2.length →
      final[j]? = (c.permuted old)[j]?

/-- The loop of both listeners ends with the final list exactly on undisturbed
permutations. -/
theorem replay_composite_iff (hclear : Clears clear) (h : c.WellFormed old final) :
    run (replaySubChange clear final) old c.subChanges = .ok final ↔ Undisturbed old final c := by
  have htail (l : List E) (hl : l.length = old.length) :
      run (replaySubChange clear final) l (c.addRemoves
        ++ c.updates.map (fun u => SubChange.update u.1 u.2)) = .ok final
      ↔ ∀ j ∈ keptPositions old.length 0 0 c.addRemoves, l[j]? = (c.permuted old)[j]? := by
    have hnil : ([] : List E).length = 0 := rfl
    obtain ⟨res, hres, -, hiff⟩ := replay_edits hclear h.edits hnil hnil
      (hl.trans h.length_permuted.symm) hnil hnil
    simp only [List.nil_append, Nat.zero_add, h.length_permuted] at hres hiff
    rw [run_append_ok hres, replay_updates, Except.ok.injEq, hiff]
  unfold Composite.subChanges Undisturbed
  cases hp : c.permutation with
  | none =>
    have hself := htail old rfl
    have hold : c.permuted old = old := by simp [Composite.permuted, hp]
    rw [hold] at hself
    simpa using hself
  | some p =>
    obtain ⟨i, perm⟩ := p
    obtain ⟨hne, hperm⟩ := h.permutes (i, perm) (by simp [hp])
    have hmid : c.permuted old = permuteRange i perm old := by simp [Composite.permuted, hp]
    simp only [Option.toList_some, List.map_cons, List.map_nil, List.cons_append, List.nil_append,
      Option.mem_def, Option.some.injEq, forall_eq']
    rw [run, replaySubChange_permuted hclear hne hperm]
    by_cases hfit : i + perm.length ≤ final.length
    · have hoverlay : (old.take i ++ ((final.take (i + perm.length)).drop i
          ++ old.drop (i + perm.length))).length = old.length := by
        have hrange : i + perm.length ≤ old.length := hperm.1
        simp only [List.length_append, List.length_take, List.length_drop]
        omega
      rw [if_pos hfit]
      refine (htail _ hoverlay).trans ?_
      rw [and_iff_right hfit]
      refine forall₂_congr (fun j _ => ?_)
      rw [getElem?_overlay hperm.1 hfit]
      split_ifs with hj
      · exact ⟨fun h _ _ => h, fun h => h hj.1 hj.2⟩
      · have hout : old[j]? = (c.permuted old)[j]? := by
          rw [hmid]
          by_cases hlt : j < i
          · exact (getElem?_permuteRange_left hperm hlt).symm
          · exact (getElem?_permuteRange_right hperm (by omega)).symm
        exact ⟨fun _ h₁ h₂ => absurd ⟨h₁, h₂⟩ hj, fun _ => hout⟩
    · simp [hfit]

end Follow

/-! ## The two bindings -/

section Bindings

variable {old final : List E} {c : Composite E}

/-- The target's list as the binding leaves it. -/
def ContentBinding.Follows (old final : List E) (c : Composite E) : Prop :=
  ContentBinding.onChanged final old c.subChanges = .ok final

/-- Two equal lists, the one on `side` already changed to `final`. -/
def BidirectionalContentBinding.changed (side : Side) (old final : List E) :
    BidirectionalContentBinding E :=
  match side with
  | .first => ⟨final, old, false⟩
  | .second => ⟨old, final, false⟩

/-- Both lists are the final one afterwards, and the next change is heard again. -/
def BidirectionalContentBinding.Follows (side : Side) (old final : List E) (c : Composite E) :
    Prop :=
  (BidirectionalContentBinding.changed side old final).onChanged side c.subChanges
    = .ok ⟨final, final, false⟩

theorem BidirectionalContentBinding.follows_iff (side : Side) :
    BidirectionalContentBinding.Follows side old final c
      ↔ run (replaySubChange removeFromTo final) old c.subChanges = .ok final := by
  cases side <;>
  · simp only [Follows, onChanged, changed, get, put, Side.other, Bool.false_eq_true, if_false]
    cases run (replaySubChange removeFromTo final) old c.subChanges <;> simp

/-- **Both list bindings follow a change exactly when its permutation is undisturbed.** -/
theorem listContentBinding_follows_iff (old final : List E) (c : Composite E) (side : Side)
    (h : c.WellFormed old final) :
    (ContentBinding.Follows old final c ↔ Undisturbed old final c)
      ∧ (BidirectionalContentBinding.Follows side old final c ↔ Undisturbed old final c) :=
  ⟨replay_composite_iff subListClear_clears h,
    (BidirectionalContentBinding.follows_iff side).trans
      (replay_composite_iff removeFromTo_clears h)⟩

/-- A swap in front of an element that is removed. -/
theorem listContentBinding_follows_iff_swap :
    (ContentBinding.Follows [2, 1, 3] [1, 2] ⟨some (0, [1, 0]), [.addRemove 2 2 [3]], []⟩
      ↔ Undisturbed [2, 1, 3] [1, 2] ⟨some (0, [1, 0]), [.addRemove 2 2 [3]], []⟩)
    ∧ (BidirectionalContentBinding.Follows .first [2, 1, 3] [1, 2]
        ⟨some (0, [1, 0]), [.addRemove 2 2 [3]], []⟩
      ↔ Undisturbed [2, 1, 3] [1, 2] ⟨some (0, [1, 0]), [.addRemove 2 2 [3]], []⟩) :=
  listContentBinding_follows_iff _ _ _ _ {
    permutes := by decide
    edits := .cons [1, 2] [3] [] (.nil 2 [])
    updates := by decide }

/-- A swap of the first two elements followed by the removal of the first one:
the target keeps the last element twice. -/
theorem listContentBinding_lags :
    ¬ ∀ (old final : List ℕ) (c : Composite ℕ) (side : Side), c.WellFormed old final →
      ContentBinding.Follows old final c ∧ BidirectionalContentBinding.Follows side old final c := by
  intro h
  have hwf : Composite.WellFormed [2, 1, 3] [2, 3]
      (⟨some (0, [1, 0]), [.addRemove 0 0 [1]], []⟩ : Composite ℕ) := {
    permutes := by decide
    edits := .cons [] [1] [] (.nil 0 [2, 3])
    updates := by decide }
  have hfollows : Except.ok [3, 3] = Except.ok [2, 3] := (h _ _ _ .first hwf).1
  simp at hfollows

end Bindings

end JavaFx.Binding
