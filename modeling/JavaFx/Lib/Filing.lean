/-
Items filed under keys.

A hash map is an association list with distinct keys; `java.util.HashMap` promises
nothing about the order of its values, so iterating over one takes an
`IterationOrder`, of which only that it permutes is known.

Items filed by key are got back by visiting the keys: what is collected from
distinct keys is, up to order, the part of the items whose key was visited
(`flatMap_filter_key_perm`). Items that carry a stamp are then put in their order
again by sorting (`mergeSort_eq_of_perm`).
-/
import Mathlib.Data.List.AList
import Mathlib.Data.List.Sort

set_option autoImplicit false

namespace JavaFx.Lib

/-! ## Hash maps -/

/-- The entries of a hash map are visited in some order. -/
structure IterationOrder where
  values : ∀ {V : Type}, List V → List V
  perm : ∀ {V : Type} (l : List V), (values l).Perm l

/-- The order of the entries as they stand is one. -/
instance : Inhabited IterationOrder := ⟨id, fun l => List.Perm.refl l⟩

variable {K V I : Type} [DecidableEq K]

/-- The value under the key, or the one a new entry would have, replaced. -/
def update (m : AList (fun _ : K => V)) (k : K) (fresh : V) (f : V → V) : AList (fun _ : K => V) :=
  m.insert k (f ((m.lookup k).getD fresh))

theorem lookup_update (m : AList (fun _ : K => V)) (k k' : K) (fresh : V) (f : V → V) :
    (update m k fresh f).lookup k' = if k' = k then some (f ((m.lookup k).getD fresh))
      else m.lookup k' := by
  rw [update]
  split_ifs with h
  · rw [h, AList.lookup_insert]
  · exact AList.lookup_insert_ne h

/-! ## Collecting -/

/-- Visiting distinct keys collects the items filed under them. -/
theorem flatMap_filter_key_perm (key : I → K) (items : List I) {keys : List K}
    (hkeys : keys.Nodup) : (keys.flatMap (fun k => items.filter (fun i => key i = k))).Perm
      (items.filter (fun i => key i ∈ keys)) := by
  induction keys with
  | nil => simp
  | cons k keys ih =>
    obtain ⟨hk, hkeys⟩ := List.nodup_cons.mp hkeys
    rw [List.flatMap_cons]
    -- the items under `k`, and the rest of those under `k :: keys`
    have hhead : items.filter (fun i => key i = k)
        = (items.filter (fun i => key i ∈ k :: keys)).filter (fun i => key i = k) := by
      rw [List.filter_filter]
      refine List.filter_congr fun i _ => ?_
      by_cases hi : key i = k
      · simp [hi]
      · simp [hi]
    have htail : items.filter (fun i => key i ∈ keys)
        = (items.filter (fun i => key i ∈ k :: keys)).filter (fun i => !decide (key i = k)) := by
      rw [List.filter_filter]
      refine List.filter_congr fun i _ => ?_
      by_cases hi : key i = k
      · simp [hi, hk]
      · simp [hi]
    refine ((ih hkeys).append_left _).trans ?_
    rw [hhead, htail]
    exact List.filter_append_perm _ _

/-- Sorting by a stamp restores the order of the stamps. -/
theorem mergeSort_eq_of_perm (stamp : I → ℕ) {l l' : List I} (hperm : l.Perm l')
    (hsorted : l'.Pairwise (fun a b => stamp a < stamp b)) :
    l.mergeSort (fun a b => stamp a ≤ stamp b) = l' := by
  have hpairwise : (l.mergeSort (fun a b => stamp a ≤ stamp b)).Pairwise
      (fun a b => decide (stamp a ≤ stamp b) = true) := by
    apply List.pairwise_mergeSort
    · intro a b d hab hbd
      simp only [decide_eq_true_eq] at hab hbd ⊢
      exact hab.trans hbd
    · intro a b
      simp only [Bool.or_eq_true, decide_eq_true_eq]
      exact le_total _ _
  have hnodup : (l'.map stamp).Nodup := List.pairwise_map.mpr (hsorted.imp Nat.ne_of_lt)
  refine List.Perm.eq_of_pairwise ?_ hpairwise
    (hsorted.imp fun h => decide_eq_true (Nat.le_of_lt h)) ((List.mergeSort_perm l _).trans hperm)
  intro a b ha hb hab hba
  have hstamp : stamp a = stamp b :=
    le_antisymm (of_decide_eq_true hab) (of_decide_eq_true hba)
  exact List.inj_on_of_nodup_map hnodup (hperm.mem_iff.mp (List.mem_mergeSort.mp ha)) hb hstamp

end JavaFx.Lib
