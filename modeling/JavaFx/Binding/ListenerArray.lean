/-
The listener arrays of the expression helpers of `com.sun.javafx.binding`.

Every helper keeps the listeners of one kind in the first `size` entries of an
array with room to spare, and all helpers edit that array in the same three
ways: a listener is written behind the last one (`addTo`), listeners that were
garbage collected are dropped to make room first (`ExpressionHelperBase.trim`),
and a removal shifts what follows down (`removeFrom`). While a notification is
running the helper is locked and the edit goes to a copy of the array.

`Holds a size ls` says that the array holds exactly the listeners `ls`. There is
one lemma for each edit, so nothing above this file looks into an array.
-/
import JavaFx.Lib.Java

set_option autoImplicit false

namespace JavaFx.Binding

/-- A Java array of listeners; the entries may be `null`. -/
abbrev Listeners (L : Type) := List (Option L)

namespace Listeners

variable {L : Type}

/-! ## The edits -/

/-- `Arrays.copyOf(a, newLength)`, for a length that does not drop entries. -/
def copyOf (a : Listeners L) (newLength : ℕ) : Listeners L :=
  a ++ List.replicate (newLength - a.length) none

/-- `System.arraycopy(a, index + 1, b, index, size - index - 1)`, the result for
`b`. -/
def shiftInto (a b : Listeners L) (index size : ℕ) : Listeners L :=
  b.take index ++ ((a.drop (index + 1)).take (size - index - 1) ++ b.drop (size - 1))

/-- The loop of `ExpressionHelperBase.trim`. The index stays where it is when an
entry was dropped, so `size - index` counts the rounds that are left. -/
def trim.loop (wasGarbageCollected : L → Bool) : ℕ → ℕ → ℕ → Listeners L → ℕ × Listeners L
  | 0, _, size, a => (size, a)
  | fuel + 1, index, size, a =>
    if index < size then
      match a[index]? with
      | some (some listener) =>
        if wasGarbageCollected listener then
          trim.loop wasGarbageCollected fuel index (size - 1)
            ((shiftInto a a index size).set (size - 1) none)
        else trim.loop wasGarbageCollected fuel (index + 1) size a
      | _ => trim.loop wasGarbageCollected fuel (index + 1) size a
    else (size, a)

/-- `ExpressionHelperBase.trim`: the new size, and the array that was edited in
place. `wasGarbageCollected` holds of the weak listeners whose target is gone. -/
def trim (wasGarbageCollected : L → Bool) (size : ℕ) (a : Listeners L) : ℕ × Listeners L :=
  trim.loop wasGarbageCollected size 0 size a

/-- What `addListener` leaves of an array that exists already: the array, its
size, and whether it is a new array. -/
structure Added (L : Type) where
  array : Listeners L
  size : ℕ
  copied : Bool

/-- The array part of `addListener`, when there is an array. -/
def addTo (wasGarbageCollected : L → Bool) (locked : Bool) (a : Listeners L) (size : ℕ)
    (listener : L) : Added L :=
  if locked then
    let newCapacity := if size < a.length then a.length else a.length * 3 / 2 + 1
    ⟨(copyOf a newCapacity).set size (some listener), size + 1, true⟩
  else if size = a.length then
    let (size', a') := trim wasGarbageCollected size a
    if size' = a.length then
      ⟨(copyOf a' (a.length * 3 / 2 + 1)).set size' (some listener), size' + 1, true⟩
    else ⟨a'.set size' (some listener), size' + 1, false⟩
  else ⟨a.set size (some listener), size + 1, false⟩

/-- The index the loop of `removeListener` stops at: the first entry the argument
equals. -/
def find [BEq L] (listener : L) (a : Listeners L) (size : ℕ) : Option ℕ :=
  (a.take size).findIdx? (fun entry => entry.any (fun l => listener == l))

/-- The array part of `removeListener`, when more than one listener is left to
look at. The copy a locked helper makes takes over the first `kept` entries. -/
def removeFrom (kept : ℕ) (locked : Bool) (a : Listeners L) (size index : ℕ) : Listeners L :=
  if locked then
    shiftInto a (a.take kept ++ List.replicate (a.length - kept) none) index size
  else (shiftInto a a index size).set (size - 1) none

/-! ## What an array holds -/

/-- The first `size` entries are the listeners `ls`. -/
structure Holds (a : Listeners L) (size : ℕ) (ls : List L) : Prop where
  entries : a.take size = ls.map some
  size_eq : size = ls.length

section Holds

variable {a b : Listeners L} {size index : ℕ} {ls : List L} {l : L}

theorem Holds.le_length (h : Holds a size ls) : size ≤ a.length := by
  have hlen : min size a.length = ls.length := by
    rw [← List.length_take, h.entries, List.length_map]
  rw [h.size_eq]
  omega

theorem Holds.getElem? (h : Holds a size ls) {i : ℕ} (hi : i < size) :
    a[i]? = some ls[i]? := by
  have hi' : i < ls.length := by rw [← h.size_eq]; exact hi
  rw [← List.getElem?_take_of_lt hi, h.entries, List.getElem?_map, List.getElem?_eq_getElem hi']
  rfl

/-- An array holds what an array with the same first entries holds. -/
theorem Holds.of_take (h : Holds a size ls) (hab : b.take size = a.take size) :
    Holds b size ls :=
  ⟨hab.trans h.entries, h.size_eq⟩

theorem holds_singleton (l : L) : Holds [some l] 1 [l] := ⟨rfl, rfl⟩

theorem holds_pair (l l' : L) : Holds [some l, some l'] 2 [l, l'] := ⟨rfl, rfl⟩

theorem copyOf_holds (h : Holds a size ls) (n : ℕ) : Holds (copyOf a n) size ls :=
  h.of_take (List.take_append_of_le_length h.le_length)

theorem length_copyOf {n : ℕ} (h : a.length ≤ n) : (copyOf a n).length = n := by
  rw [copyOf, List.length_append, List.length_replicate]
  omega

/-- Writing behind the last listener adds one. -/
theorem set_holds (h : Holds a size ls) (hroom : size < a.length) (l : L) :
    Holds (a.set size (some l)) (size + 1) (ls ++ [l]) := by
  refine ⟨?_, by rw [List.length_append, h.size_eq]; rfl⟩
  have hget : (a.set size (some l))[size]? = some (some l) := by
    rw [List.getElem?_set_self hroom]
  rw [List.take_add_one, hget, List.take_set_of_le (Nat.le_refl size), h.entries]
  simp only [Option.toList_some, List.map_append, List.map_cons, List.map_nil]

/-- A write behind the listeners does not touch them. -/
theorem set_null_holds (h : Holds a size ls) : Holds (a.set size none) size ls :=
  h.of_take (List.take_set_of_le (Nat.le_refl size))

/-- Shifting down erases the entry at `index`, whatever the target holds from
`index` on. -/
theorem shiftInto_holds (h : Holds a size ls) (hi : index < size)
    (hab : b.take index = a.take index) (hlen : size ≤ b.length + 1) :
    Holds (shiftInto a b index size) (size - 1) (ls.eraseIdx index) := by
  have hsize := h.le_length
  have hsz := h.size_eq
  have hbi : index ≤ b.length := by omega
  refine ⟨?_, by rw [List.length_eraseIdx_of_lt (by omega)]; omega⟩
  have htail : ((a.drop (index + 1)).take (size - index - 1)).length = size - 1 - index := by
    rw [List.length_take, List.length_drop]
    omega
  have htake : (b.take index).length = index := by rw [List.length_take]; omega
  -- only the copied part and the part before it reach below `size - 1`
  rw [shiftInto, List.take_append, htake, List.take_append_of_le_length (Nat.le_of_eq htail.symm),
    List.take_of_length_le (by rw [htake]; omega), List.take_of_length_le (Nat.le_of_eq htail),
    hab]
  have hcut : ls.map some = a.take size := h.entries.symm
  rw [List.eraseIdx_eq_take_drop_succ, List.map_append, List.map_take, List.map_drop, hcut,
    List.take_take, Nat.min_eq_left (Nat.le_of_lt hi), List.drop_take]
  congr 2

theorem length_shiftInto (hi : index < size) (ha : size ≤ a.length) (hb : size ≤ b.length) :
    (shiftInto a b index size).length = b.length := by
  rw [shiftInto, List.length_append, List.length_append, List.length_take, List.length_take,
    List.length_drop, List.length_drop]
  omega

/-- `removeFrom` erases the listener at `index`. -/
theorem removeFrom_holds {kept : ℕ} (locked : Bool) (h : Holds a size ls) (hi : index < size)
    (hkept : index ≤ kept) (hkeptSize : kept ≤ size) :
    Holds (removeFrom kept locked a size index) (size - 1) (ls.eraseIdx index) := by
  have hsize := h.le_length
  rw [removeFrom]
  cases locked with
  | false => exact set_null_holds (shiftInto_holds h hi rfl (by omega))
  | true =>
    have htake : (a.take kept).length = kept := by rw [List.length_take]; omega
    refine shiftInto_holds h hi ?_ ?_
    · rw [List.take_append_of_le_length (by rw [htake]; exact hkept), List.take_take,
        Nat.min_eq_left hkept]
    · rw [List.length_append, htake, List.length_replicate]
      omega

/-- The search finds the listener `List.eraseP` erases. -/
theorem find_eq [BEq L] (h : Holds a size ls) (l : L) :
    find l a size = ls.findIdx? (fun l' => l == l') := by
  rw [find, h.entries, List.findIdx?_map]
  rfl

theorem eraseIdx_of_find [BEq L] (h : Holds a size ls) (hf : find l a size = some index) :
    index < size ∧ ls.eraseIdx index = ls.eraseP (fun l' => l == l') := by
  rw [find_eq h, List.findIdx?_eq_some_iff_findIdx_eq] at hf
  refine ⟨h.size_eq ▸ hf.1, ?_⟩
  rw [List.eraseP_eq_eraseIdx, List.findIdx?_eq_some_iff_findIdx_eq.mpr hf]

theorem eraseP_of_find_none [BEq L] (h : Holds a size ls) (hf : find l a size = none) :
    ls.eraseP (fun l' => l == l') = ls := by
  rw [find_eq h] at hf
  rw [List.eraseP_eq_eraseIdx, hf]

/-! ## Dropping collected listeners -/

theorem trim_loop_keep {gone : L → Bool} {fuel : ℕ} (hi : index < size)
    (hget : a[index]? = some (some l)) (hl : gone l = false) :
    trim.loop gone (fuel + 1) index size a = trim.loop gone fuel (index + 1) size a := by
  rw [trim.loop, if_pos hi, hget]
  simp only [hl, Bool.false_eq_true, if_false]

theorem trim_loop_drop {gone : L → Bool} {fuel : ℕ} (hi : index < size)
    (hget : a[index]? = some (some l)) (hl : gone l = true) :
    trim.loop gone (fuel + 1) index size a
      = trim.loop gone fuel index (size - 1) ((shiftInto a a index size).set (size - 1) none) := by
  rw [trim.loop, if_pos hi, hget]
  simp only [hl, if_true]

/-- The loop of `trim`, when the entries before `index` were kept: it keeps those
of the others that are still there. The induction is on the entries to come. -/
theorem trim_loop_holds (gone : L → Bool) (kept rest : List L) :
    ∀ (fuel : ℕ) (a : Listeners L) (size : ℕ), rest.length ≤ fuel →
      Holds a size (kept ++ rest) →
      Holds (trim.loop gone fuel kept.length size a).2 (trim.loop gone fuel kept.length size a).1
          (kept ++ rest.filter (fun l => !gone l))
        ∧ (trim.loop gone fuel kept.length size a).2.length = a.length := by
  induction rest generalizing kept with
  | nil =>
    intro fuel a size _ h
    have hstop : ¬ kept.length < size := by
      rw [h.size_eq, List.append_nil]
      exact Nat.lt_irrefl _
    cases fuel with
    | zero => exact ⟨h, rfl⟩
    | succ fuel =>
      rw [trim.loop, if_neg hstop]
      exact ⟨h, rfl⟩
  | cons l rest ih =>
    intro fuel a size hfuel h
    obtain ⟨fuel, rfl⟩ : ∃ n, fuel = n + 1 := ⟨fuel - 1, by
      rw [List.length_cons] at hfuel
      omega⟩
    have hfuel' : rest.length ≤ fuel := by
      rw [List.length_cons] at hfuel
      omega
    have hgo : kept.length < size := by
      rw [h.size_eq, List.length_append, List.length_cons]
      omega
    have hget : a[kept.length]? = some (some l) := by
      rw [h.getElem? hgo, List.getElem?_append_right (Nat.le_refl _), Nat.sub_self]
      rfl
    cases hl : gone l with
    | false =>
      -- the listener stays and the index moves on
      have hnext : kept.length + 1 = (kept ++ [l]).length := by
        rw [List.length_append, List.length_singleton]
      have hkeep : kept ++ (l :: rest).filter (fun l => !gone l)
          = kept ++ [l] ++ rest.filter (fun l => !gone l) := by
        rw [List.filter_cons, hl, List.append_assoc]
        rfl
      rw [trim_loop_keep hgo hget hl, hkeep, hnext]
      apply ih (kept ++ [l]) fuel a size hfuel'
      rw [List.append_assoc]
      exact h
    | true =>
      -- the listener goes and the next one slides under the index
      have hle := h.le_length
      have herase : (kept ++ l :: rest).eraseIdx kept.length = kept ++ rest := by
        rw [List.eraseIdx_append_of_length_le (Nat.le_refl _), Nat.sub_self]
        rfl
      have hdrop : (l :: rest).filter (fun l => !gone l) = rest.filter (fun l => !gone l) := by
        rw [List.filter_cons, hl]
        rfl
      have hshift := shiftInto_holds (b := a) h hgo rfl (by omega)
      rw [herase] at hshift
      obtain ⟨hholds, hlength⟩ := ih kept fuel _ (size - 1) hfuel' (set_null_holds hshift)
      rw [List.length_set, length_shiftInto hgo hle hle] at hlength
      rw [trim_loop_drop hgo hget hl, hdrop]
      exact ⟨hholds, hlength⟩

/-- `trim` keeps the listeners that were not collected. -/
theorem trim_holds (gone : L → Bool) (h : Holds a size ls) :
    Holds (trim gone size a).2 (trim gone size a).1 (ls.filter (fun l => !gone l))
      ∧ (trim gone size a).2.length = a.length :=
  trim_loop_holds gone [] ls size a size (Nat.le_of_eq h.size_eq.symm) h

/-- The listeners in the array after `addListener`: one more, and when the array
was full and the helper not locked, without those that were collected. -/
def afterAdd (gone : L → Bool) (locked : Bool) (a : Listeners L) (size : ℕ) (ls : List L)
    (l : L) : List L :=
  if !locked ∧ size = a.length then ls.filter (fun l => !gone l) ++ [l] else ls ++ [l]

theorem grow_lt (n : ℕ) : n < n * 3 / 2 + 1 := by omega

/-- `addTo` adds the listener behind the others. -/
theorem addTo_holds (gone : L → Bool) (locked : Bool) (h : Holds a size ls) (l : L) :
    Holds (addTo gone locked a size l).array (addTo gone locked a size l).size
      (afterAdd gone locked a size ls l) := by
  have hle := h.le_length
  have hgrow := grow_lt a.length
  rw [addTo, afterAdd]
  cases locked with
  | true =>
    simp only [if_true, Bool.not_true, Bool.false_eq_true, false_and, if_false]
    refine set_holds (copyOf_holds h _) ?_ l
    by_cases hroom : size < a.length
    · rw [if_pos hroom, length_copyOf (Nat.le_refl _)]
      exact hroom
    · rw [if_neg hroom, length_copyOf (Nat.le_of_lt hgrow)]
      omega
  | false =>
    simp only [Bool.false_eq_true, if_false, Bool.not_false, true_and]
    by_cases hfull : size = a.length
    · obtain ⟨hholds, hlength⟩ := trim_holds gone h
      rw [if_pos hfull, if_pos hfull]
      by_cases hstill : (trim gone size a).1 = a.length
      · rw [if_pos hstill]
        refine set_holds (copyOf_holds hholds _) ?_ l
        rw [hstill, length_copyOf (by rw [hlength]; exact Nat.le_of_lt hgrow)]
        exact hgrow
      · rw [if_neg hstill]
        refine set_holds hholds ?_ l
        have := hholds.le_length
        omega
    · rw [if_neg hfull, if_neg hfull]
      exact set_holds h (by omega) l

/-! ## What an edit in place leaves alone -/

theorem take_shiftInto (hi : index < size) (hsize : size ≤ a.length) :
    (shiftInto a a index size).take index = a.take index := by
  have htake : (a.take index).length = index := by
    rw [List.length_take]
    omega
  rw [shiftInto, List.take_append_of_le_length (Nat.le_of_eq htake.symm),
    List.take_of_length_le (Nat.le_of_eq htake)]

/-- A removal leaves the entries before the listener. -/
theorem take_removeFrom {kept : ℕ} (hi : index < size) (hsize : size ≤ a.length) :
    (removeFrom kept false a size index).take index = a.take index := by
  rw [removeFrom, if_neg Bool.false_ne_true, List.take_set_of_le (by omega),
    take_shiftInto hi hsize]

/-- `trim` leaves the entries before the first collected listener. The induction is on
the rounds of the loop. -/
theorem trim_loop_below (gone : L → Bool) {j : ℕ} :
    ∀ (fuel index size : ℕ) (a : Listeners L), size ≤ a.length → j ≤ size →
      (∀ (i : ℕ) (l : L), i < j → a[i]? = some (some l) → gone l = false) →
      (trim.loop gone fuel index size a).2.take j = a.take j
        ∧ j ≤ (trim.loop gone fuel index size a).1 := by
  intro fuel
  induction fuel with
  | zero =>
    intro index size a _ hj _
    exact ⟨rfl, hj⟩
  | succ fuel ih =>
    intro index size a hsize hj hbelow
    rw [trim.loop]
    by_cases hi : index < size
    · rw [if_pos hi]
      split
      · rename_i l hl
        by_cases hgone : gone l = true
        · -- the entry that goes is not below `j`
          have hij : j ≤ index := by
            by_contra hlt
            rw [hbelow index l (by omega) hl] at hgone
            cases hgone
          have htake : ((shiftInto a a index size).set (size - 1) none).take j = a.take j := by
            have hshift := take_shiftInto hi hsize
            rw [List.take_set_of_le (by omega), ← Nat.min_eq_left hij, ← List.take_take, hshift,
              List.take_take]
          have hlen : size - 1 ≤ ((shiftInto a a index size).set (size - 1) none).length := by
            rw [List.length_set, length_shiftInto hi hsize hsize]
            omega
          rw [if_pos hgone]
          obtain ⟨hsame, hle⟩ := ih index (size - 1) _ hlen (by omega) (fun i l hij' hget => by
            refine hbelow i l hij' ?_
            rw [← List.getElem?_take_of_lt hij', ← htake, List.getElem?_take_of_lt hij', hget])
          exact ⟨hsame.trans htake, hle⟩
        · rw [if_neg hgone]
          exact ih (index + 1) size a hsize hj hbelow
      · exact ih (index + 1) size a hsize hj hbelow
    · rw [if_neg hi]
      exact ⟨rfl, hj⟩

/-- The first entry that `addTo` may move or write. -/
def addTo.below (gone : L → Bool) (a : Listeners L) (size : ℕ) : ℕ :=
  if size = a.length then (a.take size).findIdx (fun entry => entry.any gone) else size

/-- An `addTo` in place leaves the entries below that. -/
theorem addTo_below (gone : L → Bool) (l : L) (hsize : size ≤ a.length)
    (hplace : (addTo gone false a size l).copied = false) :
    (addTo gone false a size l).array.take (addTo.below gone a size)
        = a.take (addTo.below gone a size)
      ∧ addTo.below gone a size ≤ (addTo gone false a size l).size := by
  rw [addTo, addTo.below] at *
  by_cases hfull : size = a.length
  · have hj : (a.take size).findIdx (fun entry => entry.any gone) ≤ size :=
      Nat.le_trans List.findIdx_le_length (List.length_take_le ..)
    obtain ⟨hsame, hle⟩ := trim_loop_below gone size 0 size a hsize hj (fun i l' hi hget => by
      have hnot := List.not_of_lt_findIdx hi
      have hi' : i < size := Nat.lt_of_lt_of_le hi hj
      have hget' : (a.take size)[i]? = some (some l') := by
        rw [List.getElem?_take_of_lt hi', hget]
      rw [(List.getElem?_eq_some_iff.mp hget').2] at hnot
      exact hnot)
    simp only [Bool.false_eq_true, if_false, hfull, if_true] at hplace ⊢
    rw [hfull] at hsame hle
    split at hplace
    · cases hplace
    · rename_i hroom
      rw [if_neg hroom]
      refine ⟨?_, Nat.le_succ_of_le hle⟩
      exact (List.take_set_of_le hle).trans hsame
  · simp only [Bool.false_eq_true, if_false, hfull]
    exact ⟨List.take_set_of_le (Nat.le_refl _), Nat.le_succ _⟩

end Holds

/-! ## Weak listeners that were garbage collected -/

/-- `wasGarbageCollected`. Listeners that are equal have one target. -/
def isGone [BEq L] (collected : List L) (l : L) : Bool := collected.any (fun l' => l' == l)

/-- The listeners that are still there. -/
def live (gone : L → Bool) (ls : List L) : List L := ls.filter (fun l => !gone l)

section Live

variable {gone : L → Bool}

theorem live_append (gone : L → Bool) (ls ls' : List L) :
    live gone (ls ++ ls') = live gone ls ++ live gone ls' := List.filter_append ..

theorem live_live (gone : L → Bool) (ls : List L) : live gone (live gone ls) = live gone ls := by
  rw [live, live, List.filter_filter]
  simp only [Bool.and_self]

/-- Lists that agree up to collected listeners still do when one is replaced in both. -/
theorem live_update {K : Type} [DecidableEq K] {ls rs : K → List L} {xs ys : List L} {kind : K}
    (hlive : ∀ k, live gone (ls k) = live gone (rs k)) (hxs : live gone xs = live gone ys) (k : K) :
    live gone (Function.update ls kind xs k) = live gone (Function.update rs kind ys k) := by
  by_cases hk : k = kind
  · rw [hk, Function.update_self, Function.update_self, hxs]
  · rw [Function.update_of_ne hk, Function.update_of_ne hk, hlive k]

theorem live_afterAdd (gone : L → Bool) (locked : Bool) (a : Listeners L) (size : ℕ)
    (ls : List L) (l : L) :
    live gone (afterAdd gone locked a size ls l) = live gone (ls ++ [l]) := by
  rw [afterAdd]
  split
  · rw [← live, live_append, live_append, live_live]
  · rfl

variable [BEq L]

/-- Collecting one more listener drops it on both sides. -/
theorem live_collect (collected : List L) (l : L) {xs ys : List L}
    (h : live (isGone collected) xs = live (isGone collected) ys) :
    live (isGone (l :: collected)) xs = live (isGone (l :: collected)) ys := by
  have hsplit : ∀ zs, live (isGone (l :: collected)) zs
      = (live (isGone collected) zs).filter (fun l' => !(l == l')) := by
    intro zs
    rw [live, live, List.filter_filter]
    congr 1
    funext l'
    rw [isGone, List.any_cons, Bool.not_or]
    rfl
  rw [hsplit, hsplit, h]

variable [EquivBEq L]

theorem isGone_congr (collected : List L) {l l' : L} (h : l == l') :
    isGone collected l = isGone collected l' := by
  rw [isGone, isGone]
  congr 1
  funext x
  exact BEq.congr_right h

/-- Erasing the first listener that equals `l` from the listeners that are still
there. -/
theorem live_eraseP (collected : List L) (l : L) (xs : List L) :
    live (isGone collected) (xs.eraseP (fun l' => l == l'))
      = (live (isGone collected) xs).eraseP (fun l' => l == l') := by
  induction xs with
  | nil => rfl
  | cons x xs ih =>
    have hcons : ∀ y ys, live (isGone collected) (y :: ys)
        = if isGone collected y then live (isGone collected) ys
          else y :: live (isGone collected) ys := by
      intro y ys
      rw [live, List.filter_cons]
      cases isGone collected y <;> rfl
    by_cases hl : l == x
    · rw [List.eraseP_cons, hl, cond_true, hcons]
      cases hx : isGone collected x with
      | false =>
        rw [if_neg Bool.false_ne_true, List.eraseP_cons, hl, cond_true]
      | true =>
        -- `x` is gone, and so is every listener `l` equals
        rw [if_pos rfl, List.eraseP_of_forall_not]
        intro y hy hly
        have hgone : isGone collected y = true := by
          rw [← isGone_congr collected hly, isGone_congr collected hl, hx]
        have hlive := (List.mem_filter.mp hy).2
        rw [hgone] at hlive
        cases hlive
    · have hl' : (l == x) = false := eq_false_of_ne_true hl
      rw [List.eraseP_cons, hl', cond_false, hcons, hcons, ih]
      cases hx : isGone collected x with
      | false =>
        rw [if_neg Bool.false_ne_true, if_neg Bool.false_ne_true, List.eraseP_cons, hl',
          cond_false]
      | true => rw [if_pos rfl, if_pos rfl]

end Live

end Listeners

end JavaFx.Binding
