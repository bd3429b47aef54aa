/-
The part of the Java runtime the models below run on: the exceptions a
modelled method can end with, arrays with bounds-checked access, counting
loops, and the two library collections whose iteration order the code uses.

An `int` is an integer. Arrays and lists are lists of fixed length: a write is
`List.set`, a read is `[i]?`, and both throw outside the bounds, negative
indices included.
-/
import JavaFx.Lib.Run
import Mathlib.Data.List.Sort
import Mathlib.Tactic.Ring
import Mathlib.Tactic.Linarith

set_option autoImplicit false

namespace JavaFx.Lib

/-- The exceptions the modelled code throws. -/
inductive Exn
  | nullPointer
  | indexOutOfBounds
  | negativeArraySize
  | illegalState
  | illegalArgument
  | concurrentModification
  | noSuchElement
  | unsupportedOperation
  | outOfMemory
  deriving DecidableEq, Repr

/-! A modelled method is a computation in `Except`; these are its simp set. -/

section Except

variable {ε α β : Type} {x : Except ε α} {f : α → Except ε β} {a : α} {b : β} {e : ε}

@[simp] theorem ok_bind : (Except.ok a : Except ε α) >>= f = f a := rfl

@[simp] theorem error_bind : (Except.error e : Except ε α) >>= f = .error e := rfl

@[simp] theorem pure_eq_ok : (pure a : Except ε α) = .ok a := rfl

theorem bind_eq_ok : x >>= f = .ok b ↔ ∃ a, x = .ok a ∧ f a = .ok b := by
  cases x <;> simp

end Except

/-- Java's `~i`. -/
def compl (i : ℤ) : ℤ := -i - 1

@[simp] theorem compl_compl (i : ℤ) : compl (compl i) = i := by simp only [compl]; ring

theorem compl_neg_iff (i : ℤ) : compl i < 0 ↔ 0 ≤ i := by simp only [compl]; omega

/-- A `long` from the number that an operation gives. -/
def toLong (x : ℤ) : ℤ := Int.bmod x (2 ^ 64)

theorem toLong_of_lt {x : ℤ} (hlo : -2 ^ 63 ≤ x) (hhi : x < 2 ^ 63) : toLong x = x :=
  Int.bmod_eq_of_le (by norm_num at hlo ⊢; omega) (by norm_num at hhi ⊢; omega)

theorem toLong_of_nonneg {x : ℤ} (h0 : 0 ≤ x) (h : x < 2 ^ 63) : toLong x = x :=
  toLong_of_lt (by omega) h

/-! ## Arrays -/

section Arrays

variable {α : Type}

/-- `a[i]`. -/
def aget (a : List α) (i : ℤ) : Except Exn α :=
  if 0 ≤ i then
    match a[i.toNat]? with
    | some v => .ok v
    | none => .error .indexOutOfBounds
  else .error .indexOutOfBounds

/-- `a[i] = v`. -/
def aset (a : List α) (i : ℤ) (v : α) : Except Exn (List α) :=
  if 0 ≤ i ∧ i < a.length then .ok (a.set i.toNat v) else .error .indexOutOfBounds

/-- `System.arraycopy(src, srcPos, dst, destPos, length)`, with the result for
`dst`. When `src` and `dst` are one array the copy reads the old contents. -/
def arraycopy (src : List α) (srcPos : ℕ) (dst : List α) (destPos length : ℕ) :
    Except Exn (List α) :=
  if srcPos + length ≤ src.length ∧ destPos + length ≤ dst.length then
    .ok (dst.take destPos ++ (src.drop srcPos).take length ++ dst.drop (destPos + length))
  else .error .indexOutOfBounds

theorem aget_ok {a : List α} {n : ℕ} {v : α} (h : a[n]? = some v) : aget a n = .ok v := by
  simp [aget, h]

theorem aset_ok {a : List α} {n : ℕ} (v : α) (h : n < a.length) :
    aset a n v = .ok (a.set n v) := by
  simp [aset, h]

/-- Reading and writing behind a known part of an array. -/
theorem aget_mid {A B : List α} {x : α} {n : ℕ} (h : n = A.length) :
    aget (A ++ x :: B) n = .ok x := by
  subst h
  exact aget_ok (by simp)

theorem aset_mid {A B : List α} {x : α} {n : ℕ} (v : α) (h : n = A.length) :
    aset (A ++ x :: B) n v = .ok (A ++ v :: B) := by
  subst h
  rw [aset_ok v (by simp), List.set_append_right _ _ (le_refl _), Nat.sub_self, List.set_cons_zero]

theorem arraycopy_ok {src dst : List α} {srcPos destPos length : ℕ}
    (hs : srcPos + length ≤ src.length) (hd : destPos + length ≤ dst.length) :
    arraycopy src srcPos dst destPos length
      = .ok (dst.take destPos ++ (src.drop srcPos).take length
          ++ dst.drop (destPos + length)) := by
  simp [arraycopy, hs, hd]

/-- Copying a known window over another one. -/
theorem arraycopy_window {A A' W W' B B' : List α} {m n k : ℕ} (hn : n = A'.length)
    (hm : m = A.length) (hk : k = W'.length) (hW : W.length = W'.length) :
    arraycopy (A' ++ (W' ++ B')) n (A ++ (W ++ B)) m k = .ok (A ++ (W' ++ B)) := by
  subst hn hm hk
  have hdrop : (A ++ (W ++ B)).drop (A.length + W'.length) = B := by
    rw [← List.append_assoc, List.drop_left' (by simp [hW])]
  rw [arraycopy_ok (by simp) (by simp [hW]), List.take_left, List.drop_left, List.take_left, hdrop,
    List.append_assoc]

end Arrays

/-! ## Counting loops -/

/-- The values `a, a + 1, …, b - 1` of the counter of `for (int j = a; j < b; ++j)`. -/
def upTo (a b : ℤ) : List ℤ := (List.range (b - a).toNat).map (fun (k : ℕ) => a + (k : ℤ))

/-- `for (int j = a; j < b; ++j) body`. -/
def forLoop {S : Type} (a b : ℤ) (body : ℤ → S → Except Exn S) (s : S) : Except Exn S :=
  run (fun s j => body j s) s (upTo a b)

theorem mem_upTo {a b j : ℤ} : j ∈ upTo a b ↔ a ≤ j ∧ j < b := by
  simp only [upTo, List.mem_map, List.mem_range]
  constructor
  · rintro ⟨k, hk, rfl⟩
    omega
  · intro h
    exact ⟨(j - a).toNat, by omega, by omega⟩

theorem upTo_of_le {a b : ℤ} (h : b ≤ a) : upTo a b = [] := by
  simp [upTo, Int.toNat_eq_zero.mpr (by omega : b - a ≤ 0)]

theorem upTo_cons {a b : ℤ} (h : a < b) : upTo a b = a :: upTo (a + 1) b := by
  obtain ⟨n, hn⟩ : ∃ n : ℕ, (b - a).toNat = n + 1 := ⟨(b - a).toNat - 1, by omega⟩
  have hn' : (b - (a + 1)).toNat = n := by omega
  rw [upTo, upTo, hn, hn', List.range_succ_eq_map, List.map_cons, List.map_map]
  congr 1
  · simp
  · refine List.map_congr_left (fun k _ => ?_)
    simp only [Function.comp, Nat.cast_succ]
    ring

/-! ## `TreeSet<Integer>` and `HashMap<Integer, V>`

A tree set is the ascending list of its members. A hash map is the list of its
entries; the order in which it is walked is not specified and is a parameter
of the code that walks one. -/

/-- `TreeSet.add`. -/
def treeAdd (s : List ℤ) (x : ℤ) : List ℤ :=
  if x ∈ s then s else s.orderedInsert (· ≤ ·) x

section HashMap

variable {V : Type}

/-- `HashMap.get`. -/
def mapGet (m : List (ℤ × V)) (k : ℤ) : Option V := (m.find? (fun e => e.1 = k)).map Prod.snd

/-- `HashMap.remove`, the map that is left. -/
def mapRemove (m : List (ℤ × V)) (k : ℤ) : List (ℤ × V) := m.filter (fun e => e.1 ≠ k)

/-- `HashMap.put`: the new value replaces the one the key had. -/
def mapPut (m : List (ℤ × V)) (k : ℤ) (v : V) : List (ℤ × V) := mapRemove m k ++ [(k, v)]

/-- The order in which a hash map with integer keys hands out its entries. -/
structure EntryOrder (V : Type) where
  order : List (ℤ × V) → List (ℤ × V)
  perm : ∀ m, (order m).Perm m

/-- The order of insertion. -/
def EntryOrder.insertion (V : Type) : EntryOrder V := ⟨id, fun _ => List.Perm.refl _⟩

end HashMap

end JavaFx.Lib
