/-
`ListChangeBuilder.nextPermutation`.

A permutation reported after adds and removes is first pulled back to the list
as it was at `beginChange`: `mapToOriginal` holds, in the order after the
permutation, the original index of every element that was there at
`beginChange` and -1 for the added ones, and the original indexes of the
removed elements stay where they are. The permutation of the original list is
composed with the one that is already pending, and the pending sub-changes are
re-keyed by the reported permutation.

The original indexes and the positions are `int`s of the code and are kept as
integers; the entries of a permutation array are never negative and are natural
numbers. Reads and writes outside an array throw, as in the code. An array is a
value: callers hand `nextPermutation` an array of their own for each call.
-/
import JavaFx.Collections.ListChangeBuilder
import JavaFx.Collections.ListChangeAddRemove
import JavaFx.Lib.Permute

set_option autoImplicit false

namespace JavaFx.ListChangeBuilder

open JavaFx.Lib

variable {E : Type}

/-- `j < from || j >= to ? j : perm[j - from]`: where the permutation of
`[from, to)` moves position `j`. -/
def permuted (fromIdx toIdx : ℤ) (perm : List ℕ) (j : ℤ) : Except Exn ℤ :=
  if j < fromIdx ∨ toIdx ≤ j then .ok j
  else do
    let v ← aget perm (j - fromIdx)
    return (v : ℤ)

/-! ## The permutation of the original list -/

section PullBack

variable (fromIdx toIdx : ℤ) (perm : List ℕ)

/-- The variables of the loop that fills `mapToOriginal`. -/
structure OriginalMap where
  mapToOriginal : List ℤ
  removed : List ℤ
  last : ℤ
  offset : ℤ

/-- `for (int j = a; j < b; ++j) mapToOriginal[…] = value(j)`. -/
def fillMap (value : ℤ → ℤ) (a b : ℤ) (mapToOriginal : List ℤ) : Except Exn (List ℤ) :=
  forLoop a b (fun j m => do
    let at_ ← permuted fromIdx toIdx perm j
    aset m at_ (value j)) mapToOriginal

/-- The body of the loop over the add/remove sub-changes. -/
def mapSubChange (s : OriginalMap) (change : SubChange E) : Except Exn OriginalMap := do
  let m ← fillMap fromIdx toIdx perm (fun j => j + s.offset) s.last change.fromIdx s.mapToOriginal
  let m ← fillMap fromIdx toIdx perm (fun _ => -1) change.fromIdx change.toIdx m
  let removedSize : ℤ := (change.removed.getD []).length
  let removedFrom := change.fromIdx + s.offset
  return {
    mapToOriginal := m
    removed := (upTo removedFrom (removedFrom + removedSize)).foldl treeAdd s.removed
    last := change.toIdx
    offset := s.offset + (removedSize - (change.toIdx - change.fromIdx)) }

/-- `mapToOriginal`, the removed original indexes and the final offset; `size`
is the size of the list. -/
def originalMap (size : ℕ) (cs : List (SubChange E)) : Except Exn OriginalMap := do
  let s ← run (mapSubChange fromIdx toIdx perm) ⟨List.replicate size 0, [], 0, 0⟩ cs
  let m ← fillMap fromIdx toIdx perm (fun i => i + s.offset) s.last s.mapToOriginal.length
    s.mapToOriginal
  return { s with mapToOriginal := m }

/-- The body of the loop that fills `newPerm`. The second component of the state
is `mapToOriginal` from `mapPtr` on. -/
def newPermStep (removed : List ℤ) (i : ℤ) (s : List ℕ × List ℤ) :
    Except Exn (List ℕ × List ℤ) :=
  if i ∈ removed then do
    let p ← aset s.1 i i.toNat
    return (p, s.2)
  else
    match s.2.dropWhile (fun v => v = -1) with
    | v :: rest => do
        let p ← aset s.1 v i.toNat
        return (p, rest)
    | [] => .error .indexOutOfBounds

/-- `newPerm`: the reported permutation as one of the original list. -/
def newPerm (size : ℕ) (cs : List (SubChange E)) : Except Exn (List ℕ) := do
  let s ← originalMap fromIdx toIdx perm size cs
  let length := (size : ℤ) + s.offset
  if length < 0 then .error .negativeArraySize
  else do
    let filled ← forLoop 0 length (newPermStep s.removed)
      (List.replicate length.toNat 0, s.mapToOriginal)
    return filled.1

end PullBack

/-- `newPerm[i - newFrom]` in the branch of the composition whose ranges differ. -/
def composeAt (pending : SubChange E) (prePermFrom prePermTo : ℤ) (prePerm : List ℕ) (i : ℤ) :
    Except Exn ℕ :=
  if i < pending.fromIdx ∨ pending.toIdx ≤ i then aget prePerm (i - prePermFrom)
  else do
    let p ← aget pending.perm (i - pending.fromIdx)
    if (p : ℤ) < prePermFrom ∨ prePermTo ≤ (p : ℤ) then return p
    else aget prePerm ((p : ℤ) - prePermFrom)

/-- `permutationChange.perm[i] = prePerm[permutationChange.perm[i] - prePermFrom]`. -/
def composeInPlace (prePermFrom : ℤ) (prePerm : List ℕ) (i : ℤ) (p : List ℕ) :
    Except Exn (List ℕ) := do
  let old ← aget p i
  let v ← aget prePerm (old - prePermFrom)
  aset p i v

/-- The pending permutation followed by `prePerm` of `[prePermFrom, prePermTo)`. -/
def composePermutation (pending : Option (SubChange E)) (prePermFrom prePermTo : ℤ)
    (prePerm : List ℕ) : Except Exn (SubChange E) :=
  match pending with
  | none => .ok ⟨prePermFrom, prePermTo, none, prePerm, false⟩
  | some c =>
    if prePermFrom = c.fromIdx ∧ prePermTo = c.toIdx then do
      let p ← forLoop 0 prePerm.length (composeInPlace prePermFrom prePerm) c.perm
      return { c with perm := p }
    else do
      let newTo := max c.toIdx prePermTo
      let newFrom := min c.fromIdx prePermFrom
      let p ← (upTo newFrom newTo).mapM (composeAt c prePermFrom prePermTo prePerm)
      return { c with fromIdx := newFrom, toIdx := newTo, perm := p }

/-! ## The pending sub-changes -/

section ReKey

variable (fromIdx toIdx : ℤ) (perm : List ℕ)

/-- The positions of `[change.from, change.to)` after the permutation. -/
def rekeyRange (positions : List ℤ) (change : SubChange E) : Except Exn (List ℤ) :=
  forLoop change.fromIdx change.toIdx (fun c s => do
    let at_ ← permuted fromIdx toIdx perm c
    return treeAdd s at_) positions

/-- The body of the loop that fills `newAdded` and `newRemoved`. -/
def rekeySubChange (s : List ℤ × List (ℤ × List E)) (change : SubChange E) :
    Except Exn (List ℤ × List (ℤ × List E)) := do
  let newAdded ← rekeyRange fromIdx toIdx perm s.1 change
  match change.removed with
  | some removed => do
      let at_ ← permuted fromIdx toIdx perm change.fromIdx
      return (newAdded, mapPut s.2 at_ removed)
  | none => return (newAdded, s.2)

/-- The sub-change list with position `i` appended to its last range if it
continues it, else as a range of its own. -/
def appendPosition (updated : Bool) (cs : List (SubChange E)) (i : ℤ) : List (SubChange E) :=
  match cs.getLast? with
  | some last =>
    if last.toIdx = i then cs.dropLast ++ [{ last with toIdx := i + 1 }]
    else cs ++ [⟨i, i + 1, none, [], updated⟩]
  | none => [⟨i, i + 1, none, [], updated⟩]

/-- `lastChange.removed.addAll(removed)`, or `lastChange.removed = removed`. -/
def appendRemoved (cs : List (SubChange E)) (removed : List E) : List (SubChange E) :=
  match cs.getLast? with
  | some last => cs.dropLast ++ [{ last with removed := some (last.removed.getD [] ++ removed) }]
  | none => cs

/-- The body of the loop over `newAdded`. -/
def rebuildStep (s : List (SubChange E) × List (ℤ × List E)) (i : ℤ) :
    List (SubChange E) × List (ℤ × List E) :=
  let cs := appendPosition false s.1 i
  match mapGet s.2 i with
  | some removed => (appendRemoved cs removed, mapRemove s.2 i)
  | none => (cs, s.2)

/-- The body of the loop over what is left in `newRemoved`. -/
def insertPureRemoval (cs : List (SubChange E)) (e : ℤ × List E) :
    Except Exn (List (SubChange E)) :=
  let idx := findSubChange e.1 cs
  if idx < 0 then
    .ok (beforeIdx idx cs ++ ⟨e.1, e.1, some e.2, [], false⟩ :: afterIdx idx cs)
  else .error .indexOutOfBounds

/-- The add/remove sub-changes re-keyed by the permutation. `order` is the order
in which the hash map of removed lists is walked. -/
def rekey (order : EntryOrder (List E)) (cs : List (SubChange E)) :
    Except Exn (List (SubChange E)) := do
  let (newAdded, newRemoved) ← run (rekeySubChange fromIdx toIdx perm) ([], []) cs
  let (cs', left) := newAdded.foldl rebuildStep ([], newRemoved)
  run insertPureRemoval cs' (order.order left)

/-- The updated ranges re-keyed by the permutation. -/
def rekeyUpdates (us : List (SubChange E)) : Except Exn (List (SubChange E)) := do
  let newUpdated ← run (rekeyRange fromIdx toIdx perm) [] us
  return newUpdated.foldl (appendPosition true) []

end ReKey

/-- `nextPermutation`; `size` is the size of the list the builder reports for. -/
def Builder.nextPermutation (order : EntryOrder (List E)) (b : Builder E) (size : ℕ)
    (fromIdx toIdx : ℤ) (perm : List ℕ) : Except Exn (Builder E) := do
  b.checkState
  let pending ←
    if b.addRemoveChanges.isEmpty then
      composePermutation b.permutationChange fromIdx toIdx perm
    else do
      let prePerm ← newPerm fromIdx toIdx perm size b.addRemoveChanges
      composePermutation b.permutationChange 0 prePerm.length prePerm
  let addRemoveChanges ←
    if b.addRemoveChanges.isEmpty then .ok b.addRemoveChanges
    else rekey fromIdx toIdx perm order b.addRemoveChanges
  let updateChanges ←
    if b.updateChanges.isEmpty then .ok b.updateChanges
    else rekeyUpdates fromIdx toIdx perm b.updateChanges
  return { b with addRemoveChanges, updateChanges, permutationChange := some pending }

end JavaFx.ListChangeBuilder

/-!
One `beginChange`/`endChange` session of an `ObservableListBase`: the list and
its `ListChangeBuilder` side by side.

A `Report` is an edit that is really made to the list together with the call
that tells the builder about it, so every call describes the list it is made
on. `nextSet`, `nextReplace` and the list form of `nextRemove` are sequences of
the primitive calls in the source; `report_eq_edits` says so of the models, and
everything after it argues about primitive edits only.
-/

namespace JavaFx.ListChangeBuilder

open JavaFx.Lib

variable {E : Type}

/-- A list and the builder that reports for it. -/
structure Session (E : Type) where
  cur : List E
  builder : Builder E
  deriving DecidableEq

/-- The outermost `beginChange`. -/
def Session.start (L₀ : List E) : Session E := ⟨L₀, (Builder.new E).beginChange⟩

/-- A primitive edit with its call. -/
inductive Edit (E : Type)
  | add (i : ℕ) (xs : List E)
  | remove (i : ℕ)
  | permute (i : ℕ) (perm : List ℕ)
  | beginChange
  | endChange

/-- An edit with the call that reports it. -/
inductive Report (E : Type)
  /-- `xs` is inserted at `i`: `nextAdd`. -/
  | add (i : ℕ) (xs : List E)
  /-- The element at `i` is removed: `nextRemove(int, E)`. -/
  | remove (i : ℕ)
  /-- The `k` elements from `i` on are removed: `nextRemove(int, List)`. -/
  | removeAll (i k : ℕ)
  /-- `x` is put at `i`: `nextSet`. -/
  | set (i : ℕ) (x : E)
  /-- The `k` elements from `i` on make room for `xs`: `nextReplace`. -/
  | replace (i k : ℕ) (xs : List E)
  /-- `[i, i + perm.length)` is permuted: `nextPermutation`. -/
  | permute (i : ℕ) (perm : List ℕ)
  /-- A nested `beginChange`. -/
  | beginChange
  /-- The `endChange` of a nested `beginChange`. -/
  | endChange

namespace Session

variable (order : EntryOrder (List E))

/-- One primitive edit. -/
def edit (s : Session E) : Edit E → Except Exn (Session E)
  | .add i xs => do
      let b ← s.builder.nextAdd i (i + xs.length)
      return ⟨s.cur.take i ++ (xs ++ s.cur.drop i), b⟩
  | .remove i =>
    match s.cur[i]? with
    | some x => do
        let b ← s.builder.nextRemove i x
        return ⟨s.cur.eraseIdx i, b⟩
    | none => .error .indexOutOfBounds
  | .permute i perm => do
      let b ← s.builder.nextPermutation order s.cur.length i (i + perm.length) perm
      return ⟨permuteRange i perm s.cur, b⟩
  | .beginChange => .ok { s with builder := s.builder.beginChange }
  | .endChange => do
      let (_, b) ← s.builder.endChange
      return { s with builder := b }

/-- One edit as a caller makes and reports it. -/
def report (s : Session E) : Report E → Except Exn (Session E)
  | .add i xs => s.edit order (.add i xs)
  | .remove i => s.edit order (.remove i)
  | .removeAll i k => do
      let b ← s.builder.nextRemoveAll i ((s.cur.drop i).take k)
      return ⟨s.cur.take i ++ s.cur.drop (i + k), b⟩
  | .set i x =>
    match s.cur[i]? with
    | some old => do
        let b ← s.builder.nextSet i old
        return ⟨s.cur.set i x, b⟩
    | none => .error .indexOutOfBounds
  | .replace i k xs => do
      let b ← s.builder.nextReplace i (i + xs.length) ((s.cur.drop i).take k)
      return ⟨s.cur.take i ++ (xs ++ s.cur.drop (i + k)), b⟩
  | .permute i perm => s.edit order (.permute i perm)
  | .beginChange => s.edit order .beginChange
  | .endChange => s.edit order .endChange

end Session

namespace Edit

/-- The edit can be made on the list, a permutation permutes its range, and an
`endChange` has a nested `beginChange` to end. -/
def Legal (s : Session E) : Edit E → Prop
  | .add i _ => i ≤ s.cur.length
  | .remove i => i < s.cur.length
  | .permute i perm => PermutesRange i perm s.cur.length
  | .beginChange => True
  | .endChange => 1 < s.builder.changeLock

/-- The edit is not a permutation. -/
def IsAddRemove : Edit E → Prop
  | .permute _ _ => False
  | _ => True

end Edit

namespace Report

/-- The same for a reported edit. -/
def Legal (s : Session E) : Report E → Prop
  | .add i _ => i ≤ s.cur.length
  | .remove i => i < s.cur.length
  | .removeAll i k => i + k ≤ s.cur.length
  | .set i _ => i < s.cur.length
  | .replace i k _ => i + k ≤ s.cur.length
  | .permute i perm => PermutesRange i perm s.cur.length
  | .beginChange => True
  | .endChange => 1 < s.builder.changeLock

def IsAddRemove : Report E → Prop
  | .permute _ _ => False
  | _ => True

/-- The primitive edits a report consists of. -/
def edits : Report E → List (Edit E)
  | .add i xs => [.add i xs]
  | .remove i => [.remove i]
  | .removeAll i k => List.replicate k (.remove i)
  | .set i x => [.remove i, .add i [x]]
  | .replace i k xs => List.replicate k (.remove i) ++ [.add i xs]
  | .permute i perm => [.permute i perm]
  | .beginChange => [.beginChange]
  | .endChange => [.endChange]

end Report

namespace Session

variable {order : EntryOrder (List E)} {s s' : Session E} {i k : ℕ}

theorem nextRemove_lock {b b' : Builder E} {idx : ℤ} {x : E} (h : b.nextRemove idx x = .ok b') :
    b.changeLock ≠ 0 ∧ b'.changeLock = b.changeLock := by
  simp only [Builder.nextRemove, Builder.checkState] at h
  split_ifs at h with hlock
  · simp at h
  · simp only [ok_bind, bind_eq_ok, pure_eq_ok, Except.ok.injEq] at h
    obtain ⟨cs, -, us, -, rfl⟩ := h
    exact ⟨hlock, rfl⟩

/-- Removing `k` elements one by one at `i`. -/
theorem run_removes (order : EntryOrder (List E)) (hlock : s.builder.changeLock ≠ 0) (hk : i + k ≤ s.cur.length) :
    run (edit order) s (List.replicate k (.remove i)) = (do
      let b ← s.builder.nextRemoveAll i ((s.cur.drop i).take k)
      return ⟨s.cur.take i ++ s.cur.drop (i + k), b⟩) := by
  induction k generalizing s with
  | zero =>
    simp [Builder.nextRemoveAll, Builder.checkState, hlock, List.take_append_drop]
  | succ k ih =>
    have hi : i < s.cur.length := by omega
    have herase : s.cur.eraseIdx i = s.cur.take i ++ s.cur.drop (i + 1) :=
      List.eraseIdx_eq_take_drop_succ _ _
    have hlen : (s.cur.take i).length = i := by
      rw [List.length_take]
      omega
    have hdrop : (s.cur.drop i).take (k + 1)
        = s.cur[i] :: ((s.cur.eraseIdx i).drop i).take k := by
      rw [List.drop_eq_getElem_cons hi, List.take_succ_cons, herase, List.drop_left' hlen]
    rw [List.replicate_succ, run, edit, hdrop]
    simp only [List.getElem?_eq_getElem hi, Builder.nextRemoveAll, Builder.checkState, hlock,
      if_false, ok_bind, run]
    cases hb : s.builder.nextRemove i s.cur[i] with
    | error e => simp
    | ok b =>
      have hlock' : b.changeLock ≠ 0 := by
        rw [(nextRemove_lock hb).2]
        exact hlock
      have hk' : i + k ≤ (s.cur.eraseIdx i).length := by
        rw [List.length_eraseIdx_of_lt hi]
        omega
      have htake : (s.cur.eraseIdx i).take i = s.cur.take i := by
        rw [herase, List.take_left' hlen]
      have hrest : (s.cur.eraseIdx i).drop (i + k) = s.cur.drop (i + (k + 1)) := by
        rw [herase, ← List.drop_drop, List.drop_left' hlen, List.drop_drop]
        congr 1
        omega
      simp only [ok_bind, pure_eq_ok]
      rw [ih (s := ⟨s.cur.eraseIdx i, b⟩) hlock' hk']
      simp only [Builder.nextRemoveAll, Builder.checkState, hlock', if_false, ok_bind, htake,
        hrest, pure_eq_ok]

/-- Every reported edit is its sequence of primitive edits. -/
theorem report_eq_edits {r : Report E} (hlock : s.builder.changeLock ≠ 0) (h : r.Legal s) :
    s.report order r = run (edit order) s r.edits := by
  cases r with
  | add i xs => exact run_singleton.symm
  | remove i => exact run_singleton.symm
  | permute i perm => exact run_singleton.symm
  | beginChange => exact run_singleton.symm
  | endChange => exact run_singleton.symm
  | removeAll i k => exact (run_removes order hlock h).symm
  | set i x =>
    have hi : i < s.cur.length := h
    have hlen : (s.cur.take i).length = i := by
      rw [List.length_take]
      omega
    simp only [report, Report.edits, run, edit, List.getElem?_eq_getElem hi, Builder.nextSet]
    cases hb : s.builder.nextRemove i s.cur[i] with
    | error e => simp
    | ok b =>
      simp only [ok_bind, pure_eq_ok, List.length_singleton, Nat.cast_one,
        List.eraseIdx_eq_take_drop_succ, List.take_left' hlen, List.drop_left' hlen,
        List.set_eq_take_append_cons_drop, if_pos hi]
      cases b.nextAdd i (i + 1) <;> rfl
  | replace i k xs =>
    have hk : i + k ≤ s.cur.length := h
    have hlen : (s.cur.take i).length = i := by
      rw [List.length_take]
      omega
    rw [Report.edits, report, Builder.nextReplace]
    cases hb : s.builder.nextRemoveAll i ((s.cur.drop i).take k) with
    | error e =>
      have hrun := run_removes order hlock hk
      rw [hb] at hrun
      rw [run_append_error (by simpa using hrun)]
      simp
    | ok b =>
      have hrun := run_removes order hlock hk
      rw [hb] at hrun
      rw [run_append_ok (by simpa using hrun), run_singleton, edit]
      simp only [ok_bind, List.take_left' hlen, List.drop_left' hlen]

end Session

end JavaFx.ListChangeBuilder
