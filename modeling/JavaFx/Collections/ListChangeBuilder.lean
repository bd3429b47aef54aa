/-
`javafx.collections.ListChangeBuilder`: the object that collects the edits an
`ObservableListBase` reports between `beginChange` and `endChange` and fires
them as one change.

The builder keeps three pieces of pending work. `addRemoveChanges` is a list of
sub-changes sorted by position, each saying "at `from` the elements `removed`
stood, and `[from, to)` is what stands there now". `updateChanges` is a list of
updated ranges. `permutationChange` is at most one permutation of the list as
it was at `beginChange`. A `null` list of sub-changes and an empty one are
treated alike everywhere in the class, so both are `[]` here; a `null` list of
removed elements is not (`removed.add` on it throws) and is `none`.

Where the class edits its list around an index, the definitions below split the
list at that index: `before` is what stands in front of it, `after` is the rest,
and a loop `for (i = idx; i < size; ++i)` is a map over the part it reaches.
-/
import JavaFx.Lib.Java

set_option autoImplicit false

namespace JavaFx.ListChangeBuilder

open JavaFx.Lib

/-- `ListChangeBuilder.SubChange`. -/
structure SubChange (E : Type) where
  fromIdx : ℤ
  toIdx : ℤ
  removed : Option (List E)
  perm : List ℕ
  updated : Bool
  deriving DecidableEq, Repr

/-- `ListChangeBuilder`, without the list it reports for. -/
structure Builder (E : Type) where
  changeLock : ℕ
  addRemoveChanges : List (SubChange E)
  updateChanges : List (SubChange E)
  permutationChange : Option (SubChange E)
  deriving DecidableEq, Repr

variable {E : Type}

/-- The constructor. -/
def Builder.new (E : Type) : Builder E := ⟨0, [], [], none⟩

/-! ## Sub-changes -/

namespace SubChange

/-- `change.from += delta; change.to += delta`. -/
def shift (delta : ℤ) (c : SubChange E) : SubChange E :=
  { c with fromIdx := c.fromIdx + delta, toIdx := c.toIdx + delta }

/-- `change.removed.add(x)`. -/
def removedAdd (c : SubChange E) (x : E) : Except Exn (SubChange E) :=
  match c.removed with
  | some r => .ok { c with removed := some (r ++ [x]) }
  | none => .error .nullPointer

/-- `change.from--; change.to--; change.removed.add(0, x)`. -/
def removedAddFirst (c : SubChange E) (x : E) : Except Exn (SubChange E) :=
  match c.removed with
  | some r => .ok { c.shift (-1) with removed := some (x :: r) }
  | none => .error .nullPointer

/-- `change.removed == null || change.removed.isEmpty()`. -/
def hasNoRemoved (c : SubChange E) : Bool := (c.removed.getD []).isEmpty

end SubChange

/-! ## Positions in a list of sub-changes -/

/-- The loop of `findSubChange`, with the bounds it keeps. One round takes at
least one index off `[from, to]`, so its length is enough fuel. -/
def findSubChange.loop (idx : ℤ) (list : List (SubChange E)) : ℕ → ℤ → ℤ → ℤ
  | 0, lo, _ => compl lo
  | fuel + 1, lo, hi =>
    if lo ≤ hi then
      let changeIdx := (lo + hi) / 2
      match list[changeIdx.toNat]? with
      | none => compl lo
      | some change =>
        if change.toIdx ≤ idx then findSubChange.loop idx list fuel (changeIdx + 1) hi
        else if idx < change.fromIdx then findSubChange.loop idx list fuel lo (changeIdx - 1)
        else changeIdx
    else compl lo

/-- `findSubChange`: the index of the sub-change whose range contains `idx`, or
`~i` where `i` is the index at which such a sub-change would stand. -/
def findSubChange (idx : ℤ) (list : List (SubChange E)) : ℤ :=
  findSubChange.loop idx list list.length 0 (list.length - 1)

/-- The part of a list in front of the index `findSubChange` found, or in front
of the insertion point it returned. -/
def beforeIdx (idx : ℤ) (list : List (SubChange E)) : List (SubChange E) :=
  list.take (if idx < 0 then compl idx else idx).toNat

/-- The part of a list from that index on. -/
def afterIdx (idx : ℤ) (list : List (SubChange E)) : List (SubChange E) :=
  list.drop (if idx < 0 then compl idx else idx).toNat

/-! ## Add and remove -/

/-- `insertRemoved`, the branch for a position outside every sub-change. -/
def insertRemovedOutside (before after : List (SubChange E)) (pos : ℤ) (removed : E) :
    Except Exn (List (SubChange E)) :=
  match before.getLast? with
  | some prev =>
    if prev.toIdx = pos then do
      let prev' ← prev.removedAdd removed
      return before.dropLast ++ prev' :: after.map (SubChange.shift (-1))
    else insertInFront
  | none => insertInFront
where
  /-- The removal does not touch the sub-change in front of it. -/
  insertInFront : Except Exn (List (SubChange E)) :=
    match after with
    | next :: rest =>
      if next.fromIdx = pos + 1 then do
        let next' ← next.removedAddFirst removed
        return before ++ next' :: rest.map (SubChange.shift (-1))
      else
        .ok (before ++ ⟨pos, pos, some [removed], [], false⟩
          :: after.map (SubChange.shift (-1)))
    | [] => .ok (before ++ [⟨pos, pos, some [removed], [], false⟩])

/-- `insertRemoved`, the branch for a position inside a sub-change: the element
was added since `beginChange`, so nothing is recorded as removed. A sub-change
left with nothing is deleted; the loop over the later ones starts at `idx + 1`
all the same. -/
def insertRemovedInside (before : List (SubChange E)) (change : SubChange E)
    (after : List (SubChange E)) : List (SubChange E) :=
  let change' := { change with toIdx := change.toIdx - 1 }
  if change'.fromIdx = change'.toIdx ∧ change'.hasNoRemoved then
    before ++ (after.take 1 ++ (after.drop 1).map (SubChange.shift (-1)))
  else before ++ change' :: after.map (SubChange.shift (-1))

/-- `insertRemoved`. -/
def insertRemoved (cs : List (SubChange E)) (pos : ℤ) (removed : E) :
    Except Exn (List (SubChange E)) :=
  let idx := findSubChange pos cs
  if idx < 0 then insertRemovedOutside (beforeIdx idx cs) (afterIdx idx cs) pos removed
  else
    match afterIdx idx cs with
    | change :: after => .ok (insertRemovedInside (beforeIdx idx cs) change after)
    | [] => .error .indexOutOfBounds

/-- `insertAdd`. -/
def insertAdd (cs : List (SubChange E)) (fromIdx toIdx : ℤ) : Except Exn (List (SubChange E)) :=
  let idx := findSubChange fromIdx cs
  let before := beforeIdx idx cs
  let after := afterIdx idx cs
  let numberOfAdded := toIdx - fromIdx
  if idx < 0 then
    match before.getLast? with
    | some prev =>
      if prev.toIdx = fromIdx then
        .ok (before.dropLast ++ { prev with toIdx := toIdx }
          :: after.map (SubChange.shift numberOfAdded))
      else
        .ok (before ++ ⟨fromIdx, toIdx, some [], [], false⟩
          :: after.map (SubChange.shift numberOfAdded))
    | none =>
      .ok (⟨fromIdx, toIdx, some [], [], false⟩ :: after.map (SubChange.shift numberOfAdded))
  else
    match after with
    | change :: rest =>
      .ok (before ++ { change with toIdx := change.toIdx + numberOfAdded }
        :: rest.map (SubChange.shift numberOfAdded))
    | [] => .error .indexOutOfBounds

/-- What `nextRemove` does to `addRemoveChanges`: the last sub-change is looked
at first, the search comes only when the removal does not touch it. -/
def removeAddRemove (cs : List (SubChange E)) (idx : ℤ) (removed : E) :
    Except Exn (List (SubChange E)) :=
  match cs.getLast? with
  | some last =>
    if last.toIdx = idx then do
      let last' ← last.removedAdd removed
      return cs.dropLast ++ [last']
    else if last.fromIdx = idx + 1 then do
      let last' ← last.removedAddFirst removed
      return cs.dropLast ++ [last']
    else insertRemoved cs idx removed
  | none => insertRemoved cs idx removed

/-- What `nextRemove` does to `updateChanges`. -/
def removeUpdate (us : List (SubChange E)) (idx : ℤ) : Except Exn (List (SubChange E)) :=
  if us.isEmpty then .ok us
  else
    let uPos := findSubChange idx us
    let before := beforeIdx uPos us
    let after := afterIdx uPos us
    if uPos < 0 then .ok (before ++ after.map (SubChange.shift (-1)))
    else
      match after with
      | change :: rest =>
        if change.fromIdx = change.toIdx - 1 then
          .ok (before ++ rest.map (SubChange.shift (-1)))
        else
          .ok (before ++ { change with toIdx := change.toIdx - 1 }
            :: rest.map (SubChange.shift (-1)))
      | [] => .error .indexOutOfBounds

/-- What `nextAdd` does to `addRemoveChanges`. -/
def addAddRemove (cs : List (SubChange E)) (fromIdx toIdx : ℤ) : Except Exn (List (SubChange E)) :=
  match cs.getLast? with
  | some last =>
    if last.toIdx = fromIdx then .ok (cs.dropLast ++ [{ last with toIdx := toIdx }])
    else if last.fromIdx ≤ fromIdx ∧ fromIdx < last.toIdx then
      .ok (cs.dropLast ++ [{ last with toIdx := last.toIdx + (toIdx - fromIdx) }])
    else insertAdd cs fromIdx toIdx
  | none => insertAdd cs fromIdx toIdx

/-- What `nextAdd` does to `updateChanges`: an updated range the new elements
fall into is split in two. -/
def addUpdate (us : List (SubChange E)) (fromIdx toIdx : ℤ) : Except Exn (List (SubChange E)) :=
  if us.isEmpty then .ok us
  else
    let uPos := findSubChange fromIdx us
    let before := beforeIdx uPos us
    let after := afterIdx uPos us
    let numberOfAdded := toIdx - fromIdx
    if uPos < 0 then .ok (before ++ after.map (SubChange.shift numberOfAdded))
    else
      match after with
      | change :: rest =>
        .ok (before ++ { change with toIdx := fromIdx }
          :: ⟨toIdx, change.toIdx + toIdx - fromIdx, none, [], true⟩
          :: rest.map (SubChange.shift numberOfAdded))
      | [] => .error .indexOutOfBounds

namespace Builder

/-- `checkState`. -/
def checkState (b : Builder E) : Except Exn Unit :=
  if b.changeLock = 0 then .error .illegalState else .ok ()

/-- `nextRemove(int, E)`. -/
def nextRemove (b : Builder E) (idx : ℤ) (removed : E) : Except Exn (Builder E) := do
  b.checkState
  let addRemoveChanges ← removeAddRemove b.addRemoveChanges idx removed
  let updateChanges ← removeUpdate b.updateChanges idx
  return { b with addRemoveChanges, updateChanges }

/-- `nextRemove(int, List)`: the elements leave one by one, all at `idx`. -/
def nextRemoveAll (b : Builder E) (idx : ℤ) (removed : List E) : Except Exn (Builder E) := do
  b.checkState
  run (fun b x => b.nextRemove idx x) b removed

/-- `nextAdd`. -/
def nextAdd (b : Builder E) (fromIdx toIdx : ℤ) : Except Exn (Builder E) := do
  b.checkState
  let addRemoveChanges ← addAddRemove b.addRemoveChanges fromIdx toIdx
  let updateChanges ← addUpdate b.updateChanges fromIdx toIdx
  return { b with addRemoveChanges, updateChanges }

/-- `nextReplace`. -/
def nextReplace (b : Builder E) (fromIdx toIdx : ℤ) (removed : List E) : Except Exn (Builder E) := do
  let b ← b.nextRemoveAll fromIdx removed
  b.nextAdd fromIdx toIdx

/-- `nextSet`. -/
def nextSet (b : Builder E) (idx : ℤ) (old : E) : Except Exn (Builder E) := do
  let b ← b.nextRemove idx old
  b.nextAdd idx (idx + 1)

end Builder

/-! ## Updates -/

/-- `insertUpdate`. -/
def insertUpdate (us : List (SubChange E)) (pos : ℤ) : List (SubChange E) :=
  let idx := findSubChange pos us
  let before := beforeIdx idx us
  let after := afterIdx idx us
  if idx < 0 then
    match before.getLast? with
    | some prev =>
      if prev.toIdx = pos then before.dropLast ++ { prev with toIdx := pos + 1 } :: after
      else insertInFront before after
    | none => insertInFront before after
  else us
where
  /-- The updated element does not touch the range in front of it. -/
  insertInFront (before after : List (SubChange E)) : List (SubChange E) :=
    match after with
    | next :: rest =>
      if next.fromIdx = pos + 1 then before ++ { next with fromIdx := pos } :: rest
      else before ++ ⟨pos, pos + 1, none, [], true⟩ :: after
    | [] => before ++ [⟨pos, pos + 1, none, [], true⟩]

/-- `nextUpdate`. -/
def Builder.nextUpdate (b : Builder E) (idx : ℤ) : Except Exn (Builder E) := do
  b.checkState
  match b.updateChanges.getLast? with
  | some last =>
    if last.toIdx = idx then
      return { b with
        updateChanges := b.updateChanges.dropLast ++ [{ last with toIdx := idx + 1 }] }
    else return { b with updateChanges := insertUpdate b.updateChanges idx }
  | none => return { b with updateChanges := insertUpdate b.updateChanges idx }

/-! ## Firing -/

namespace SubChange

/-- `finalizeSubChange`: a `null` list of removed elements is fired as an empty one. -/
def finalize (c : SubChange E) : SubChange E := { c with removed := some (c.removed.getD []) }

/-- The body of the branch of `compress` in which `cur` is merged into `prev`. -/
def absorb (prev cur : SubChange E) : Except Exn (SubChange E) :=
  match prev.removed, cur.removed with
  | none, none => .ok { prev with toIdx := cur.toIdx }
  | p, some r => .ok { prev with toIdx := cur.toIdx, removed := some (p.getD [] ++ r) }
  | some _, none => .error .nullPointer

end SubChange

/-- The loop of `compress`: the sub-changes that are left, and how many were
merged into the one in front of them. The code overwrites those with `null` and
skips them when it fills the array it fires. -/
def compress.loop (prev : SubChange E) :
    List (SubChange E) → Except Exn (List (SubChange E) × ℕ)
  | [] => .ok ([prev], 0)
  | cur :: rest =>
    if prev.toIdx = cur.fromIdx then do
      let prev' ← prev.absorb cur
      let (left, removed) ← compress.loop prev' rest
      return (left, removed + 1)
    else do
      let (left, removed) ← compress.loop cur rest
      return (prev :: left, removed)

/-- `compress`. -/
def compress : List (SubChange E) → Except Exn (List (SubChange E) × ℕ)
  | [] => .error .indexOutOfBounds
  | prev :: rest => compress.loop prev rest

namespace Builder

/-- `totalSize`: how many sub-changes are pending. -/
def totalSize (b : Builder E) : ℕ :=
  b.updateChanges.length + b.addRemoveChanges.length + b.permutationChange.toList.length

/-- `compress`, called only on a list that is not empty. -/
def compressNonEmpty (l : List (SubChange E)) : Except Exn (List (SubChange E) × ℕ) :=
  if l.isEmpty then .ok ([], 0) else compress l

/-- `commit`: the sub-changes of the change that is fired, if one is. -/
def commit (b : Builder E) : Except Exn (Option (List (SubChange E)) × Builder E) :=
  if b.changeLock = 0 ∧ b.totalSize ≠ 0 then
    if b.totalSize = 1 then
      match b.addRemoveChanges, b.updateChanges, b.permutationChange with
      | c :: _, _, _ => .ok (some [c.finalize], { b with addRemoveChanges := [] })
      | [], u :: _, _ => .ok (some [u.finalize], { b with updateChanges := [] })
      | [], [], some p => .ok (some [p.finalize], { b with permutationChange := none })
      | [], [], none => .ok (none, b)
    else do
      let (updates, _) ← compressNonEmpty b.updateChanges
      let (addRemoves, _) ← compressNonEmpty b.addRemoveChanges
      let array := b.permutationChange.toList ++ addRemoves ++ updates
      return (some (array.map SubChange.finalize),
        { b with addRemoveChanges := [], updateChanges := [], permutationChange := none })
  else .ok (none, b)

/-- `beginChange`. -/
def beginChange (b : Builder E) : Builder E := { b with changeLock := b.changeLock + 1 }

/-- `endChange`. -/
def endChange (b : Builder E) : Except Exn (Option (List (SubChange E)) × Builder E) :=
  if b.changeLock = 0 then .error .illegalState
  else { b with changeLock := b.changeLock - 1 }.commit

end Builder

end JavaFx.ListChangeBuilder
