/-
Memo tables.

A call has a key; the first call with a key makes the entry, and every later one with
that key is given the same entry. An entry goes by its number. What a table is good for
and what it is not is said once: two calls share an entry exactly if they have one key
(`Kept.shared_iff`), and an entry has the value that one of its calls would have made
(`Kept.made`).
-/
import Mathlib.Data.List.Nodup
import Mathlib.Tactic.Common

set_option autoImplicit false

namespace JavaFx.Lib

/-- A memo table. -/
structure Memo (K V : Type) where
  entries : List (K × V)

namespace Memo

variable {C K V : Type} [DecidableEq K] (key : C → K) (fresh : C → V)

/-- The entry of a key. -/
def index (m : Memo K V) (k : K) : Option ℕ := m.entries.findIdx? (fun e => e.1 = k)

/-- A call, and the entry it is given. -/
def call (m : Memo K V) (c : C) : Memo K V × ℕ :=
  match m.index (key c) with
  | some i => (m, i)
  | none => (⟨m.entries ++ [(key c, fresh c)]⟩, m.entries.length)

variable {key fresh} {m : Memo K V} {log : List (C × ℕ)}

theorem index_eq_some {k : K} {i : ℕ} (h : m.index k = some i) :
    ∃ v, m.entries[i]? = some (k, v) := by
  unfold index at h
  obtain ⟨hlt, hkey, -⟩ := List.findIdx?_eq_some_iff_getElem.mp h
  refine ⟨m.entries[i].2, ?_⟩
  rw [List.getElem?_eq_getElem hlt, ← of_decide_eq_true hkey]

theorem index_eq_none {k : K} (h : m.index k = none) : ∀ e ∈ m.entries, e.1 ≠ k := by
  intro e he hk
  unfold index at h
  have := List.findIdx?_eq_none_iff.mp h e he
  simp [hk] at this

/-- The entry of a key in a table with one entry more. -/
theorem index_append (k k' : K) (v : V) :
    index ⟨m.entries ++ [(k, v)]⟩ k' = (m.index k').or
      (if k = k' then some m.entries.length else none) := by
  unfold index
  rw [List.findIdx?_append]
  by_cases hk : k = k'
  · simp [hk]
  · simp [hk]

/-- A table after the calls of a log: keys stand once, every call has been given the
entry of its key, and every entry was made by a call. -/
structure Kept (key : C → K) (fresh : C → V) (m : Memo K V) (log : List (C × ℕ)) : Prop where
  nodup : (m.entries.map Prod.fst).Nodup
  given : ∀ p ∈ log, ∃ v, m.entries[p.2]? = some (key p.1, v)
  made : ∀ i e, m.entries[i]? = some e → ∃ c, (c, i) ∈ log ∧ key c = e.1 ∧ fresh c = e.2

omit [DecidableEq K] in
theorem kept_nil : Kept key fresh (⟨[]⟩ : Memo K V) [] where
  nodup := List.nodup_nil
  given _ h := absurd h List.not_mem_nil
  made _ _ h := by simp at h

theorem Kept.call (h : Kept key fresh m log) (c : C) :
    Kept key fresh (m.call key fresh c).1 (log ++ [(c, (m.call key fresh c).2)]) := by
  unfold Memo.call
  cases hindex : m.index (key c) with
  | some i =>
    obtain ⟨v, hv⟩ := index_eq_some hindex
    refine ⟨h.nodup, ?_, ?_⟩
    · intro p hp
      rcases List.mem_append.mp hp with hp | hp
      · exact h.given p hp
      · rw [List.mem_singleton.mp hp]
        exact ⟨v, hv⟩
    · intro j e he
      obtain ⟨c', hc', hkey⟩ := h.made j e he
      exact ⟨c', List.mem_append_left _ hc', hkey⟩
  | none =>
    have hnew := index_eq_none hindex
    refine ⟨?_, ?_, ?_⟩
    · rw [List.map_append, List.nodup_append]
      refine ⟨h.nodup, List.nodup_singleton _, ?_⟩
      intro k hk k' hk' heq
      obtain ⟨e, he, rfl⟩ := List.mem_map.mp hk
      rw [List.map_singleton, List.mem_singleton] at hk'
      exact hnew e he (heq.trans hk')
    · intro p hp
      rcases List.mem_append.mp hp with hp | hp
      · obtain ⟨v, hv⟩ := h.given p hp
        have hlt := (List.getElem?_eq_some_iff.mp hv).1
        exact ⟨v, by rw [List.getElem?_append_left hlt]; exact hv⟩
      · rw [List.mem_singleton.mp hp]
        exact ⟨fresh c, List.getElem?_concat_length⟩
    · intro j e he
      rcases Nat.lt_or_ge j m.entries.length with hj | hj
      · rw [List.getElem?_append_left hj] at he
        obtain ⟨c', hc', hkey⟩ := h.made j e he
        exact ⟨c', List.mem_append_left _ hc', hkey⟩
      · have hlt := (List.getElem?_eq_some_iff.mp he).1
        rw [List.length_append, List.length_singleton] at hlt
        have hj' : j = m.entries.length := by omega
        rw [hj', List.getElem?_concat_length] at he
        cases he
        rw [hj']
        exact ⟨c, List.mem_append_right _ (List.mem_singleton_self _), rfl, rfl⟩

omit [DecidableEq K] in
/-- Calls share an entry exactly if they have the same key. -/
theorem Kept.shared_iff (h : Kept key fresh m log) {c c' : C} {i j : ℕ} (hc : (c, i) ∈ log)
    (hc' : (c', j) ∈ log) : i = j ↔ key c = key c' := by
  obtain ⟨v, hv⟩ := h.given _ hc
  obtain ⟨v', hv'⟩ := h.given _ hc'
  constructor
  · rintro rfl
    rw [hv, Option.some_inj] at hv'
    exact congrArg Prod.fst hv'
  · intro hkey
    have hi : (m.entries.map Prod.fst)[i]? = some (key c) := by
      rw [List.getElem?_map, hv]
      rfl
    have hj : (m.entries.map Prod.fst)[j]? = some (key c) := by
      rw [List.getElem?_map, hv', hkey]
      rfl
    have hlt := (List.getElem?_eq_some_iff.mp hi).1
    exact (List.getElem?_inj hlt h.nodup).mp (hi.trans hj.symm)

end Memo

end JavaFx.Lib
