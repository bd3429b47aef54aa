/-
Tables of buckets: a map from keys to lists, as a list of entries with one entry a key.

An entry keeps its place when its bucket is replaced, and a new key goes to the end.
`items` are the elements of all the buckets. `get_split` takes a table apart around one
key; what a replacement does to the items follows from it.
-/
import Mathlib.Data.List.Basic
import Mathlib.Data.List.Nodup
import Mathlib.Data.List.Perm.Basic

set_option autoImplicit false

namespace JavaFx.Lib

/-- The buckets by their keys. -/
abbrev Buckets (K V : Type) := List (K × List V)

namespace Buckets

variable {K V : Type} {m : Buckets K V} {k j : K} {b b' : List V}

def keys (m : Buckets K V) : List K := m.map Prod.fst

def items (m : Buckets K V) : List V := m.flatMap Prod.snd

/-- An empty bucket for a new key. -/
def addKey (m : Buckets K V) (k : K) : Buckets K V := m ++ [(k, [])]

@[simp] theorem keys_addKey : (m.addKey k).keys = m.keys ++ [k] := by simp [keys, addKey]

@[simp] theorem items_addKey : (m.addKey k).items = m.items := by simp [items, addKey]

theorem items_append (A B : Buckets K V) : items (A ++ B) = items A ++ items B := by
  simp [items]

theorem items_cons (B : Buckets K V) : items ((k, b) :: B) = b ++ items B := by simp [items]

/-- A function applied to every bucket. -/
def mapBuckets (m : Buckets K V) (f : List V → List V) : Buckets K V :=
  m.map (fun e => (e.1, f e.2))

@[simp] theorem mapBuckets_id : m.mapBuckets id = m := by simp [mapBuckets]

theorem keys_mapBuckets (f : List V → List V) : (m.mapBuckets f).keys = m.keys := by
  simp [keys, mapBuckets]

theorem items_mapBuckets (f : V → V) : (m.mapBuckets (List.map f)).items = m.items.map f := by
  simp [items, mapBuckets, List.map_flatMap, List.flatMap_map]

variable [DecidableEq K]

/-- The bucket of a key. -/
def get (m : Buckets K V) (k : K) : Option (List V) :=
  (m.find? (fun e => e.1 = k)).map Prod.snd

/-- The bucket of a key replaced. -/
def setBucket (m : Buckets K V) (k : K) (b : List V) : Buckets K V :=
  m.map (fun e => if e.1 = k then (e.1, b) else e)

@[simp] theorem get_nil : get ([] : Buckets K V) k = none := rfl

theorem get_cons_self : get ((k, b) :: m) k = some b := by simp [get]

theorem get_cons_ne (h : j ≠ k) : get ((j, b) :: m) k = get m k := by simp [get, h]

@[simp] theorem keys_setBucket : (m.setBucket k b).keys = m.keys := by
  simp only [keys, setBucket, List.map_map]
  apply List.map_congr_left
  intro e _
  by_cases h : e.1 = k
  · simp [h]
  · simp [h]

theorem get_eq_none : m.get k = none ↔ k ∉ m.keys := by
  rw [get, Option.map_eq_none_iff, List.find?_eq_none, keys, List.mem_map]
  constructor
  · rintro h ⟨e, he, hk⟩
    exact h e he (by simp [hk])
  · intro h e he hk
    exact h ⟨e, he, by simpa using hk⟩

theorem mem_of_get (h : m.get k = some b) : (k, b) ∈ m := by
  rw [get, Option.map_eq_some_iff] at h
  obtain ⟨e, he, rfl⟩ := h
  have hk : e.1 = k := by simpa using List.find?_some he
  have hmem : e ∈ m := List.mem_of_find?_eq_some he
  rw [← hk]
  exact hmem

theorem get_of_mem (hkeys : m.keys.Nodup) (h : (k, b) ∈ m) : m.get k = some b := by
  induction m with
  | nil => simp at h
  | cons e m ih =>
    simp only [keys, List.map_cons, List.nodup_cons] at hkeys
    rcases List.mem_cons.1 h with he | hm
    · rw [← he]
      exact get_cons_self
    · have hne : e.1 ≠ k := by
        intro he
        apply hkeys.1
        rw [he]
        exact List.mem_map_of_mem (f := Prod.fst) hm
      rw [get_cons_ne hne]
      exact ih hkeys.2 hm

theorem get_setBucket_self (h : m.get k = some b) : (m.setBucket k b').get k = some b' := by
  induction m with
  | nil => simp at h
  | cons e m ih =>
    by_cases he : e.1 = k
    · simp [setBucket, get, he]
    · rw [get_cons_ne he] at h
      have := ih h
      simp only [setBucket, get] at this ⊢
      simpa [he] using this

theorem get_setBucket_ne (h : j ≠ k) : (m.setBucket k b).get j = m.get j := by
  induction m with
  | nil => rfl
  | cons e m ih =>
    simp only [setBucket, get] at ih ⊢
    by_cases hk : e.1 = k
    · have hj : e.1 ≠ j := by
        rw [hk]
        exact h.symm
      simpa [hk, hj, h.symm] using ih
    · by_cases hj : e.1 = j
      · simp [hj, h]
      · simpa [hk, hj] using ih

theorem get_addKey_self (h : m.get k = none) : (m.addKey k).get k = some [] := by
  rw [get, Option.map_eq_none_iff] at h
  simp [get, addKey, List.find?_append, h]

theorem get_addKey_ne (h : j ≠ k) : (m.addKey k).get j = m.get j := by
  simp [get, addKey, List.find?_append, h.symm]

theorem setBucket_setBucket : (m.setBucket k b).setBucket k b' = m.setBucket k b' := by
  simp only [setBucket, List.map_map]
  apply List.map_congr_left
  intro e _
  by_cases h : e.1 = k
  · simp [h]
  · simp [h]

theorem get_mapBuckets (f : List V → List V) : (m.mapBuckets f).get k = (m.get k).map f := by
  induction m with
  | nil => rfl
  | cons e m ih =>
    simp only [mapBuckets, get] at ih ⊢
    by_cases he : e.1 = k
    · simp [he]
    · simpa [he] using ih

/-- The table around the bucket of a key. -/
theorem get_split (hkeys : m.keys.Nodup) (h : m.get k = some b) : ∃ A B : Buckets K V,
    m = A ++ (k, b) :: B ∧ ∀ b', m.setBucket k b' = A ++ (k, b') :: B := by
  induction m with
  | nil => simp at h
  | cons e m ih =>
    simp only [keys, List.map_cons, List.nodup_cons] at hkeys
    by_cases he : e.1 = k
    · have hb : e.2 = b := by simpa [get, he] using h
      refine ⟨[], m, by simp [← he, ← hb], ?_⟩
      intro b'
      -- the other entries have other keys
      have hrest : setBucket m k b' = m := by
        rw [setBucket]
        nth_rewrite 2 [← List.map_id m]
        apply List.map_congr_left
        intro e' he'
        have hne : e'.1 ≠ k := by
          intro hk
          apply hkeys.1
          rw [he, ← hk]
          exact List.mem_map_of_mem he'
        simp [hne]
      have hhead : setBucket (e :: m) k b' = (k, b') :: setBucket m k b' := by
        simp [setBucket, he]
      rw [hhead, hrest]
      rfl
    · rw [get_cons_ne he] at h
      obtain ⟨A, B, hm, hset⟩ := ih hkeys.2 h
      refine ⟨e :: A, B, by simp [hm], ?_⟩
      intro b'
      have hhead : setBucket (e :: m) k b' = e :: setBucket m k b' := by simp [setBucket, he]
      rw [hhead, hset b']
      rfl

/-- A new key gets its bucket at the end. -/
theorem setBucket_addKey (h : m.get k = none) :
    (m.addKey k).setBucket k b = m ++ [(k, b)] := by
  rw [get_eq_none] at h
  have hrest : setBucket m k b = m := by
    rw [setBucket]
    nth_rewrite 2 [← List.map_id m]
    apply List.map_congr_left
    intro e he
    have hne : e.1 ≠ k := fun hk => h (hk ▸ List.mem_map_of_mem he)
    simp [hne]
  rw [setBucket] at hrest ⊢
  rw [addKey, List.map_append, hrest, List.map_singleton, if_pos rfl]

theorem setBucket_self (hkeys : m.keys.Nodup) (h : m.get k = some b) : m.setBucket k b = m := by
  obtain ⟨A, B, hm, hset⟩ := get_split hkeys h
  rw [hset b, hm]

theorem mem_items (hkeys : m.keys.Nodup) {v : V} :
    v ∈ m.items ↔ ∃ k b, m.get k = some b ∧ v ∈ b := by
  rw [items, List.mem_flatMap]
  constructor
  · rintro ⟨e, he, hv⟩
    exact ⟨e.1, e.2, get_of_mem hkeys he, hv⟩
  · rintro ⟨k, b, h, hv⟩
    exact ⟨(k, b), mem_of_get h, hv⟩

/-- The items, key by key. -/
theorem flatMap_get (hkeys : m.keys.Nodup) :
    m.keys.flatMap (fun k => (m.get k).getD []) = m.items := by
  rw [keys, List.flatMap_map, items, List.flatMap, List.flatMap]
  congr 1
  apply List.map_congr_left
  intro e he
  rw [get_of_mem hkeys he, Option.getD_some]

/-- The items around those of one bucket. -/
theorem items_split (hkeys : m.keys.Nodup) (h : m.get k = some b) : ∃ X Y : List V,
    m.items = X ++ b ++ Y ∧ ∀ b', (m.setBucket k b').items = X ++ b' ++ Y := by
  obtain ⟨A, B, hm, hset⟩ := get_split hkeys h
  refine ⟨items A, items B, ?_, ?_⟩
  · rw [hm, items_append, items_cons, List.append_assoc]
  · intro b'
    rw [hset b', items_append, items_cons, List.append_assoc]

theorem length_items_setBucket (hkeys : m.keys.Nodup) (h : m.get k = some b) (b' : List V) :
    (m.setBucket k b').items.length + b.length = m.items.length + b'.length := by
  obtain ⟨X, Y, hm, hset⟩ := items_split hkeys h
  rw [hm, hset b']
  simp only [List.length_append]
  omega

theorem items_setBucket_sublist (hkeys : m.keys.Nodup) (h : m.get k = some b) (hb : b'.Sublist b) :
    (m.setBucket k b').items.Sublist m.items := by
  obtain ⟨X, Y, hm, hset⟩ := items_split hkeys h
  rw [hm, hset b']
  exact (hb.append_left X).append_right Y

end Buckets

end JavaFx.Lib
