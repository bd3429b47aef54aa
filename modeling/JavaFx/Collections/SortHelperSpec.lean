/-
What `SortHelper` does, when it sorts from index 0 and when the range is short.

The arrays are looked at in windows. Where the array is `A ++ w.map fst ++ B` and
`reversePermutation` is `R₁ ++ w.map snd ++ R₂`, the list `w` holds the elements of
the window with the index each had at the start. Exchanging two elements and
merging two runs rearrange `w` and nothing else, and `permutation` stays the
inverse of `reversePermutation` throughout (`Inverse`). A window that nothing has
touched yet is `xs.zipIdx low`.

With that `mergeSort_spec` says that the window ends in stable order, by induction
on its length as `mergeSort` recurses. `sort_spec` reads it as a statement on
arrays: the range is permuted by the positions that are returned.
-/
import JavaFx.Collections.SortHelper

set_option autoImplicit false

namespace JavaFx.Collections.SortHelper

open JavaFx.Lib

variable {T : Type}

/-! ## The two arrays of the permutation -/

/-- `permutation` sends every index that `reversePermutation` holds back to where
it is held. -/
structure Inverse (h : SortHelper) : Prop where
  length_eq : h.permutation.length = h.reversePermutation.length
  apply : ∀ i r : ℕ, h.reversePermutation[i]? = some r → h.permutation[r]? = some i

namespace Inverse

variable {h : SortHelper} {i j r : ℕ}

theorem initPermutation (n : ℕ) : Inverse (initPermutation n) := by
  refine ⟨rfl, fun i r hr => ?_⟩
  simp only [SortHelper.initPermutation] at hr ⊢
  obtain ⟨hi, rfl⟩ := List.getElem?_eq_some_iff.mp hr
  rw [List.length_range] at hi
  rw [List.getElem_range, List.getElem?_range hi]

theorem lt (hinv : Inverse h) (hr : h.reversePermutation[i]? = some r) :
    r < h.permutation.length :=
  (List.getElem?_eq_some_iff.mp (hinv.apply i r hr)).1

theorem injective (hinv : Inverse h) (hi : h.reversePermutation[i]? = some r)
    (hj : h.reversePermutation[j]? = some r) : i = j := by
  have hij := hinv.apply i r hi
  rw [hinv.apply j r hj, Option.some_inj] at hij
  exact hij.symm

theorem nodup (hinv : Inverse h) : h.reversePermutation.Nodup := by
  rw [List.nodup_iff_getElem?_ne_getElem?]
  intro i j hij hj heq
  have hi : i < h.reversePermutation.length := by omega
  rw [List.getElem?_eq_getElem hi, eq_comm] at heq
  have := hinv.injective (List.getElem?_eq_getElem hi) heq
  omega

end Inverse

/-- A list with the elements at `a` and `b` exchanged. -/
theorem getElem?_exchange {α : Type} {l : List α} {a b : ℕ} {u v : α} (hu : l[a]? = some u)
    (hv : l[b]? = some v) (j : ℕ) :
    ((l.set a v).set b u)[j]? = l[if j = a then b else if j = b then a else j]? := by
  have ha : a < l.length := (List.getElem?_eq_some_iff.mp hu).1
  have hb : b < l.length := (List.getElem?_eq_some_iff.mp hv).1
  by_cases hjb : j = b
  · rw [hjb, List.getElem?_set_self (by rwa [List.length_set]), if_pos rfl, ← hu]
    split_ifs with hba
    · rw [hba]
    · rfl
  · rw [List.getElem?_set_ne (Ne.symm hjb)]
    by_cases hja : j = a
    · rw [hja, List.getElem?_set_self ha, if_pos rfl, hv]
    · rw [List.getElem?_set_ne (Ne.symm hja), if_neg hja, if_neg hjb]

/-- **Exchanging two elements** exchanges their origins. -/
theorem swap_spec {x : List T} {h : SortHelper} {a b : ℕ} {u v : T} {r q : ℕ} (hab : a ≠ b)
    (hu : x[a]? = some u) (hv : x[b]? = some v) (hr : h.reversePermutation[a]? = some r)
    (hq : h.reversePermutation[b]? = some q) (hinv : Inverse h) :
    ∃ perm', swap x a b h = .ok ((x.set a v).set b u,
        ⟨perm', (h.reversePermutation.set a q).set b r⟩)
      ∧ Inverse ⟨perm', (h.reversePermutation.set a q).set b r⟩ := by
  have ha : a < x.length := (List.getElem?_eq_some_iff.mp hu).1
  have hb : b < x.length := (List.getElem?_eq_some_iff.mp hv).1
  have ha' : a < h.reversePermutation.length := (List.getElem?_eq_some_iff.mp hr).1
  have hb' : b < h.reversePermutation.length := (List.getElem?_eq_some_iff.mp hq).1
  have hrlt := hinv.lt hr
  have hqlt := hinv.lt hq
  have hne : q ≠ r := by
    rintro rfl
    exact hab (hinv.injective hr hq)
  refine ⟨(h.permutation.set r b).set q a, ?_, ?_, fun i k hk => ?_⟩
  · rw [swap, aget_ok hu, ok_bind, aget_ok hv, ok_bind, aset_ok _ ha, ok_bind,
      aset_ok _ (by rwa [List.length_set]), ok_bind, aget_ok hr, ok_bind, aset_ok _ hrlt, ok_bind,
      aget_ok hq, ok_bind, aset_ok _ (by rwa [List.length_set]), ok_bind, aset_ok _ ha', ok_bind,
      aset_ok _ (by rwa [List.length_set]), ok_bind, pure_eq_ok]
  · have := hinv.length_eq
    simpa using this
  · -- the index now at `i` was at the other of the two places, or at `i` already
    dsimp only at hk ⊢
    rw [getElem?_exchange hr hq] at hk
    split_ifs at hk with hia hib
    · rw [hq, Option.some_inj] at hk
      rw [← hk, hia, List.getElem?_set_self (by rwa [List.length_set])]
    · rw [hr, Option.some_inj] at hk
      rw [← hk, hib, List.getElem?_set_ne hne, List.getElem?_set_self hrlt]
    · have hrk : r ≠ k := by
        rintro rfl
        exact hia (hinv.injective hk hr)
      have hqk : q ≠ k := by
        rintro rfl
        exact hib (hinv.injective hk hq)
      rw [List.getElem?_set_ne hqk, List.getElem?_set_ne hrk]
      exact hinv.apply i k hk

/-- Two neighbours after their exchange. -/
theorem exchange_neighbours {α : Type} (A B : List α) (u v : α) :
    ((A ++ u :: v :: B).set (A.length + 1) u).set A.length v = A ++ v :: u :: B := by
  have hsplit : A ++ u :: v :: B = (A ++ [u]) ++ v :: B := by simp
  have hlen : A.length + 1 = (A ++ [u]).length := by simp
  rw [hsplit, hlen, List.set_append_right _ _ (le_refl _), Nat.sub_self, List.set_cons_zero,
    List.append_assoc, List.singleton_append, List.set_append_right _ _ (le_refl _), Nat.sub_self,
    List.set_cons_zero]

/-- Exchanging two neighbours exchanges their origins. -/
theorem swap_neighbours {A B : List T} {R₁ R₂ perm : List ℕ} {p x : T × ℕ}
    (hlen : A.length = R₁.length)
    (hinv : Inverse ⟨perm, R₁ ++ p.2 :: x.2 :: R₂⟩) :
    ∃ perm', swap (A ++ p.1 :: x.1 :: B) (A.length + 1) A.length ⟨perm, R₁ ++ p.2 :: x.2 :: R₂⟩
        = .ok (A ++ x.1 :: p.1 :: B, ⟨perm', R₁ ++ x.2 :: p.2 :: R₂⟩)
      ∧ Inverse ⟨perm', R₁ ++ x.2 :: p.2 :: R₂⟩ := by
  obtain ⟨perm', hswap, hinv'⟩ := swap_spec (T := T) (x := A ++ p.1 :: x.1 :: B)
    (a := A.length + 1) (b := A.length) (u := x.1) (v := p.1) (r := x.2) (q := p.2)
    (by omega) (by simp) (by simp) (by simp [hlen]) (by simp [hlen]) hinv
  rw [hlen] at hinv'
  simp only [exchange_neighbours] at hswap hinv'
  simp only [hlen, exchange_neighbours] at hswap
  refine ⟨perm', ?_, hinv'⟩
  rw [hlen]
  exact hswap

/-! ## The insertion sort -/

section Sorting

variable {compare : T → T → ℤ} {A B : List T} {R₁ R₂ perm : List ℕ}

/-- The inner loop moves the element at `j` to the left past all that come after it. -/
theorem sink_spec (hlen : A.length = R₁.length) (P : List (T × ℕ)) (x : T × ℕ)
    (hinv : Inverse ⟨perm, R₁ ++ (P.map Prod.snd ++ x.2 :: R₂)⟩) :
    ∃ P₁ P₂ perm', P = P₁ ++ P₂
      ∧ (∀ p ∈ P₁.getLast?, compare p.1 x.1 ≤ 0) ∧ (∀ p ∈ P₂, 0 < compare p.1 x.1)
      ∧ sink compare A.length (A.length + P.length) (A ++ (P.map Prod.fst ++ x.1 :: B))
          ⟨perm, R₁ ++ (P.map Prod.snd ++ x.2 :: R₂)⟩
        = .ok (A ++ ((P₁ ++ x :: P₂).map Prod.fst ++ B),
            ⟨perm', R₁ ++ ((P₁ ++ x :: P₂).map Prod.snd ++ R₂)⟩)
      ∧ Inverse ⟨perm', R₁ ++ ((P₁ ++ x :: P₂).map Prod.snd ++ R₂)⟩ := by
  -- the loop walks `P` from its end
  induction P using List.reverseRecOn generalizing B R₂ perm with
  | nil =>
    refine ⟨[], [], perm, rfl, by simp, by simp, ?_, by simpa using hinv⟩
    cases A with
    | nil => simp [sink]
    | cons a A => simp [sink]
  | append_singleton P p ih =>
    have hfst : A ++ ((P ++ [p]).map Prod.fst ++ x.1 :: B)
        = (A ++ P.map Prod.fst) ++ p.1 :: x.1 :: B := by simp
    have hsnd : R₁ ++ ((P ++ [p]).map Prod.snd ++ x.2 :: R₂)
        = (R₁ ++ P.map Prod.snd) ++ p.2 :: x.2 :: R₂ := by simp
    have hlenP : (A ++ P.map Prod.fst).length = (R₁ ++ P.map Prod.snd).length := by simp [hlen]
    have hj : A.length + P.length = (A ++ P.map Prod.fst).length := by simp
    have hx : aget ((A ++ P.map Prod.fst) ++ p.1 :: x.1 :: B) (A.length + P.length + 1 : ℕ)
        = .ok x.1 := by
      rw [List.append_cons (A ++ P.map Prod.fst)]
      exact aget_mid (by simp; omega)
    rw [hsnd] at hinv
    rw [List.length_append, List.length_singleton, ← Nat.add_assoc, sink, if_pos (by omega),
      hfst, hsnd, aget_mid hj, ok_bind, hx, ok_bind]
    by_cases hpos : 0 < compare p.1 x.1
    · obtain ⟨perm₁, hswap, hinv₁⟩ := swap_neighbours (B := B) hlenP hinv
      rw [← hj] at hswap
      rw [if_pos hpos, hswap, ok_bind]
      obtain ⟨P₁, P₂, perm', rfl, hP₁, hP₂, hsink, hinv'⟩ :=
        @ih (p.1 :: B) (p.2 :: R₂) _ (by simpa using hinv₁)
      refine ⟨P₁, P₂ ++ [p], perm', by simp, hP₁, ?_, ?_, by simpa using hinv'⟩
      · intro q hq
        rcases List.mem_append.mp hq with hq | hq
        · exact hP₂ q hq
        · rw [List.mem_singleton.mp hq]
          exact hpos
      · simpa using hsink
    · rw [if_neg hpos]
      refine ⟨P ++ [p], [], perm, by simp, ?_, by simp, by simp, by simpa using hinv⟩
      intro q hq
      rw [List.getLast?_append_cons, List.getLast?_singleton, Option.mem_some_iff] at hq
      rw [← hq]
      exact not_lt.mp hpos

/-- The outer loop, with the elements of `P` already sorted and those of `Q` to go. -/
theorem insertionSort_loop (hcompare : IsTotalPreorder compare) (hlen : A.length = R₁.length)
    (P Q : List (T × ℕ)) (hP : StableSorted compare P) (hQ : Q.Pairwise (fun a b => a.2 < b.2))
    (hPQ : ∀ p ∈ P, ∀ q ∈ Q, p.2 < q.2)
    (hinv : Inverse ⟨perm, R₁ ++ ((P ++ Q).map Prod.snd ++ R₂)⟩) :
    ∃ w perm', w.Perm (P ++ Q) ∧ StableSorted compare w
      ∧ run (fun s i => sink compare A.length i s.1 s.2)
          (A ++ ((P ++ Q).map Prod.fst ++ B), ⟨perm, R₁ ++ ((P ++ Q).map Prod.snd ++ R₂)⟩)
          (List.range' (A.length + P.length) Q.length)
        = .ok (A ++ (w.map Prod.fst ++ B), ⟨perm', R₁ ++ (w.map Prod.snd ++ R₂)⟩)
      ∧ Inverse ⟨perm', R₁ ++ (w.map Prod.snd ++ R₂)⟩ := by
  induction Q generalizing P perm with
  | nil =>
    rw [List.append_nil] at hinv ⊢
    exact ⟨P, perm, List.Perm.refl _, hP, rfl, hinv⟩
  | cons x Q ih =>
    have hfst : A ++ ((P ++ x :: Q).map Prod.fst ++ B)
        = A ++ (P.map Prod.fst ++ x.1 :: (Q.map Prod.fst ++ B)) := by simp
    have hsnd : R₁ ++ ((P ++ x :: Q).map Prod.snd ++ R₂)
        = R₁ ++ (P.map Prod.snd ++ x.2 :: (Q.map Prod.snd ++ R₂)) := by simp
    rw [hsnd] at hinv
    obtain ⟨P₁, P₂, perm₁, rfl, hP₁, hP₂, hsink, hinv₁⟩ :=
      @sink_spec _ compare _ (Q.map Prod.fst ++ B) _ _ _ hlen P x hinv
    have hx : ∀ p ∈ P₁ ++ P₂, p.2 < x.2 := fun p hp => hPQ p hp x List.mem_cons_self
    have hQx := List.pairwise_cons.mp hQ
    have hinserted : StableSorted compare (P₁ ++ x :: P₂) :=
      hP.insert hcompare hP₁ hP₂ (fun p hp => hx p (List.mem_append_left _ hp))
    have hmem : ∀ p ∈ P₁ ++ x :: P₂, p = x ∨ p ∈ P₁ ++ P₂ := by
      intro p hp
      simp only [List.mem_append, List.mem_cons] at hp ⊢
      tauto
    obtain ⟨w, perm', hperm, hsorted, hrun, hinv'⟩ := ih (P₁ ++ x :: P₂) hinserted hQx.2
      (fun p hp q hq => by
        rcases hmem p hp with rfl | hp
        · exact hQx.1 q hq
        · exact hPQ p hp q (List.mem_cons_of_mem _ hq))
      (by simpa using hinv₁)
    refine ⟨w, perm', hperm.trans ?_, hsorted, ?_, hinv'⟩
    · rw [List.append_assoc, List.append_assoc, List.cons_append]
      exact List.perm_middle.symm.append_left P₁
    · rw [List.length_cons, List.range'_succ, hfst, hsnd, run_cons_ok hsink]
      have hlen' : A.length + (P₁ ++ P₂).length + 1 = A.length + (P₁ ++ x :: P₂).length := by
        simp only [List.length_append, List.length_cons]
        omega
      rw [hlen']
      simpa using hrun

/-- Elements with the indices from `n` on, in the order of these. -/
theorem zipIdx_increasing (xs : List T) (n : ℕ) :
    (xs.zipIdx n).Pairwise (fun a b => a.2 < b.2) := by
  have hrange : (List.range' n xs.length).Pairwise (· < ·) := List.pairwise_lt_range'
  rw [← List.zipIdx_map_snd n xs, List.pairwise_map] at hrange
  exact hrange

/-- **The insertion sort** on a window that nothing has touched. -/
theorem insertionSort_spec (hcompare : IsTotalPreorder compare) (hlen : A.length = R₁.length)
    (xs : List T)
    (hinv : Inverse ⟨perm, R₁ ++ (List.range' A.length xs.length ++ R₂)⟩) :
    ∃ w perm', w.Perm (xs.zipIdx A.length) ∧ StableSorted compare w
      ∧ insertionSort compare A.length (A.length + xs.length) (A ++ (xs ++ B))
          ⟨perm, R₁ ++ (List.range' A.length xs.length ++ R₂)⟩
        = .ok (A ++ (w.map Prod.fst ++ B), ⟨perm', R₁ ++ (w.map Prod.snd ++ R₂)⟩)
      ∧ Inverse ⟨perm', R₁ ++ (w.map Prod.snd ++ R₂)⟩ := by
  have hloop := @insertionSort_loop _ compare _ B _ R₂ perm hcompare hlen [] (xs.zipIdx A.length) List.Pairwise.nil (zipIdx_increasing xs _) (by simp)
  rw [List.nil_append, List.zipIdx_map_fst, List.zipIdx_map_snd, List.length_zipIdx] at hloop
  rw [insertionSort, Nat.add_sub_cancel_left]
  exact hloop hinv

/-! ## The merge -/

theorem of_cons_prefix_drop {α : Type} {l src : List α} {x : α} {p : ℕ}
    (h : x :: l <+: src.drop p) : src[p]? = some x ∧ l <+: src.drop (p + 1) := by
  obtain ⟨rest, hrest⟩ := h
  constructor
  · have := congrArg (fun r => r[0]?) hrest
    simpa using this.symm
  · refine ⟨rest, ?_⟩
    rw [← List.tail_drop, ← hrest]
    rfl

/-- One element is written and its new position noted. -/
theorem mergeLoop_step {src : List T} {mid high n p q : ℕ} {left : Bool} {z : T × ℕ} {j : T}
    {rev : List ℕ} (htakes : takesLeft compare src mid high p q = .ok left)
    (hsrc : src[if left then p else q]? = some z.1)
    (hrev : rev[if left then p else q]? = some z.2) (hz : z.2 < perm.length) :
    mergeLoop compare src mid high (n + 1) A.length p q (A ++ j :: B) ⟨perm, rev⟩
      = mergeLoop compare src mid high n (A ++ [z.1]).length (if left then p + 1 else p)
          (if left then q else q + 1) ((A ++ [z.1]) ++ B) ⟨perm.set z.2 A.length, rev⟩ := by
  rw [mergeLoop, htakes, ok_bind]
  dsimp only
  rw [aget_ok hsrc, ok_bind, aset_mid _ rfl, ok_bind, aget_ok hrev, ok_bind, aset_ok _ hz, ok_bind,
    List.length_append, List.length_singleton, ← List.append_cons]
  cases left <;> rfl

/-- The loop writes the merge of the two runs and notes where each element went. -/
theorem mergeLoop_spec {src : List T} {rev : List ℕ} {mid high p q : ℕ}
    (L R : List (T × ℕ)) (J : List T) (hp : p + L.length = mid) (hq : q + R.length = high)
    (hJ : J.length = L.length + R.length)
    (hL : L.map Prod.fst <+: src.drop p) (hR : R.map Prod.fst <+: src.drop q)
    (hrevL : L.map Prod.snd <+: rev.drop p) (hrevR : R.map Prod.snd <+: rev.drop q)
    (hlt : ∀ z ∈ L ++ R, z.2 < perm.length) :
    mergeLoop compare src mid high (L.length + R.length) A.length p q (A ++ (J ++ B)) ⟨perm, rev⟩
      = .ok (A ++ ((mergeBy compare L R).map Prod.fst ++ B),
          ⟨scatter perm (((mergeBy compare L R).map
            Prod.snd).zipIdx A.length), rev⟩) := by
  generalize hn : L.length + R.length = n
  induction n generalizing L R J A perm p q with
  | zero =>
    obtain rfl : L = [] := List.eq_nil_of_length_eq_zero (by omega)
    obtain rfl : R = [] := List.eq_nil_of_length_eq_zero (by omega)
    obtain rfl : J = [] := List.eq_nil_of_length_eq_zero (by simpa using hJ)
    simp [mergeLoop]
  | succ n ih =>
    obtain ⟨j, J, rfl⟩ : ∃ j J', J = j :: J' := List.exists_cons_of_length_pos (by omega)
    rw [List.length_cons] at hJ
    -- the next element comes from the left run
    have hleft : ∀ x L', L = x :: L' → takesLeft compare src mid high p q = .ok true →
        mergeBy compare L R
          = x :: mergeBy compare L' R →
        mergeLoop compare src mid high (n + 1) A.length p q (A ++ (j :: J ++ B)) ⟨perm, rev⟩
          = .ok (A ++ ((mergeBy compare L R).map Prod.fst ++ B),
              ⟨scatter perm (((mergeBy compare L R).map
                Prod.snd).zipIdx A.length), rev⟩) := by
      rintro x L' rfl htakes hmerge
      rw [List.map_cons] at hL hrevL
      rw [List.length_cons] at hp hn hJ
      rw [List.cons_append, mergeLoop_step htakes (of_cons_prefix_drop hL).1
          (of_cons_prefix_drop hrevL).1 (hlt x (by simp)), hmerge]
      simp only [if_true]
      rw [ih L' R J (by omega) hq (by omega) (of_cons_prefix_drop hL).2 hR
        (of_cons_prefix_drop hrevL).2 hrevR
        (fun z hz => by
          rw [List.length_set]
          exact hlt z (List.mem_cons_of_mem _ hz)) (by omega)]
      simp
    -- or from the right one
    have hright : ∀ y R', R = y :: R' → takesLeft compare src mid high p q = .ok false →
        mergeBy compare L R
          = y :: mergeBy compare L R' →
        mergeLoop compare src mid high (n + 1) A.length p q (A ++ (j :: J ++ B)) ⟨perm, rev⟩
          = .ok (A ++ ((mergeBy compare L R).map Prod.fst ++ B),
              ⟨scatter perm (((mergeBy compare L R).map
                Prod.snd).zipIdx A.length), rev⟩) := by
      rintro y R' rfl htakes hmerge
      rw [List.map_cons] at hR hrevR
      rw [List.length_cons] at hq hn hJ
      rw [List.cons_append, mergeLoop_step htakes (of_cons_prefix_drop hR).1
          (of_cons_prefix_drop hrevR).1 (hlt y (by simp)), hmerge]
      simp only [Bool.false_eq_true, if_false]
      rw [ih L R' J hp (by omega) (by omega) hL (of_cons_prefix_drop hR).2 hrevL
        (of_cons_prefix_drop hrevR).2
        (fun z hz => by
          rw [List.length_set]
          refine hlt z ?_
          simp only [List.mem_append, List.mem_cons] at hz ⊢
          tauto) (by omega)]
      simp
    rcases R with _ | ⟨y, R⟩
    · obtain ⟨x, L', rfl⟩ : ∃ x L', L = x :: L' := by
        rw [List.length_nil] at hn
        exact List.exists_cons_of_length_pos (by omega)
      refine hleft x L' rfl ?_ (by rw [mergeBy_nil_right, mergeBy_nil_right])
      rw [takesLeft, if_pos (by rw [List.length_nil] at hq; omega)]
    rcases L with _ | ⟨x, L⟩
    · refine hright y R rfl ?_ (by rw [mergeBy_nil_left, mergeBy_nil_left])
      rw [List.length_cons] at hq
      rw [List.length_nil] at hp
      rw [takesLeft, if_neg (by omega), if_neg (by omega)]
    have htakes : takesLeft compare src mid high p q = .ok (decide (compare x.1 y.1 ≤ 0)) := by
      rw [List.length_cons] at hq hp
      rw [takesLeft, if_neg (by omega), if_pos (by omega), aget_ok (of_cons_prefix_drop hL).1,
        ok_bind, aget_ok (of_cons_prefix_drop hR).1, ok_bind, pure_eq_ok]
    by_cases hle : compare x.1 y.1 ≤ 0
    · exact hleft x L rfl (by rw [htakes, decide_eq_true hle]) (mergeBy_cons_left hle)
    · exact hright y R rfl (by rw [htakes, decide_eq_false hle]) (mergeBy_cons_right hle)

/-- The loop after the merge, as the writes it makes. -/
theorem reindex_eq_scatter {rev : List ℕ} {low n : ℕ}
    (hlt : ∀ i, low ≤ i → i < low + n → i < perm.length ∧ perm.getD i 0 < rev.length) :
    reindex low (low + n) ⟨perm, rev⟩
      = .ok ⟨perm, scatter rev ((List.range' low n).map (fun i => (perm.getD i 0, i)))⟩ := by
  rw [reindex, Nat.add_sub_cancel_left]
  induction n generalizing low rev with
  | zero => rfl
  | succ n ih =>
    obtain ⟨hlow, hget⟩ := hlt low (le_refl _) (by omega)
    have hp : perm[low]? = some (perm.getD low 0) := by
      rw [List.getD_eq_getElem _ _ hlow, List.getElem?_eq_getElem hlow]
    rw [List.range'_succ, List.map_cons, scatter_cons, run]
    dsimp only
    rw [aget_ok hp, ok_bind, aset_ok _ hget, ok_bind, pure_eq_ok]
    exact ih (fun i h1 h2 => by
      rw [List.length_set]
      exact hlt i (by omega) (by omega))

/-- A window whose elements were rearranged among themselves: with the new
positions in `permutation`, the loop after the merge makes `reversePermutation` the
inverse again. -/
theorem reindex_window {old tags : List ℕ} (hinv : Inverse ⟨perm, R₁ ++ (old ++ R₂)⟩)
    (hperm : tags.Perm old) (hlocal : tags.Perm (List.range' R₁.length tags.length)) :
    reindex R₁.length (R₁.length + tags.length)
        ⟨scatter perm (tags.zipIdx R₁.length), R₁ ++ (old ++ R₂)⟩
      = .ok ⟨scatter perm (tags.zipIdx R₁.length), R₁ ++ (tags ++ R₂)⟩
    ∧ Inverse ⟨scatter perm (tags.zipIdx R₁.length), R₁ ++ (tags ++ R₂)⟩ := by
  have hlength : tags.length = old.length := hperm.length_eq
  have hnodup : tags.Nodup := hlocal.nodup_iff.mpr (List.nodup_range' _)
  have hmem : ∀ r, r ∈ tags ↔ R₁.length ≤ r ∧ r < R₁.length + tags.length := by
    intro r
    rw [hlocal.mem_iff, List.mem_range'_1]
  have htags : (tags.zipIdx R₁.length).map Prod.fst = tags := List.zipIdx_map_fst _ _
  -- what `permutation` holds for the elements of the window, and for the others
  have hin : ∀ k r, tags[k]? = some r →
      (scatter perm (tags.zipIdx R₁.length))[r]? = some (R₁.length + k) := by
    intro k r hr
    have hz : (r, R₁.length + k) ∈ tags.zipIdx R₁.length := by
      rw [List.mem_zipIdx_iff_le_and_getElem?_sub]
      exact ⟨Nat.le_add_right _ _, by rwa [Nat.add_sub_cancel_left]⟩
    refine getElem?_scatter_of_mem (p := (r, R₁.length + k)) (by rwa [htags]) hz ?_
    obtain ⟨j, hj⟩ := List.getElem?_of_mem (hperm.mem_iff.mp (List.mem_of_getElem? hr))
    have hjlt : j < old.length := (List.getElem?_eq_some_iff.mp hj).1
    refine hinv.lt (i := R₁.length + j) ?_
    change (R₁ ++ (old ++ R₂))[R₁.length + j]? = some r
    rw [List.getElem?_append_right (Nat.le_add_right _ _), Nat.add_sub_cancel_left,
      List.getElem?_append_left hjlt, hj]
  have hout : ∀ r, r ∉ tags → (scatter perm (tags.zipIdx R₁.length))[r]? = perm[r]? :=
    fun r hr => getElem?_scatter_of_notMem (by rwa [htags])
  have hlen' : (scatter perm (tags.zipIdx R₁.length)).length = (R₁ ++ (old ++ R₂)).length := by
    rw [length_scatter]
    exact hinv.length_eq
  generalize scatter perm (tags.zipIdx R₁.length) = perm' at hin hout hlen' ⊢
  have hwindow : ∀ (l : List ℕ) k, k < l.length →
      (R₁ ++ (l ++ R₂))[R₁.length + k]? = l[k]? := by
    intro l k hk
    rw [List.getElem?_append_right (Nat.le_add_right _ _), Nat.add_sub_cancel_left,
      List.getElem?_append_left hk]
  have houtside : ∀ j, ¬ (R₁.length ≤ j ∧ j < R₁.length + tags.length) →
      (R₁ ++ (tags ++ R₂))[j]? = (R₁ ++ (old ++ R₂))[j]? := by
    intro j hj
    by_cases hlt : j < R₁.length
    · rw [List.getElem?_append_left hlt, List.getElem?_append_left hlt]
    · rw [List.getElem?_append_right (by omega), List.getElem?_append_right (by omega),
        List.getElem?_append_right (by omega), List.getElem?_append_right (by omega), hlength]
  -- the window's indices and their positions
  have hindex : ∀ i, R₁.length ≤ i → i < R₁.length + tags.length →
      ∃ k, tags[k]? = some i ∧ perm'[i]? = some (R₁.length + k)
        ∧ perm'.getD i 0 = R₁.length + k ∧ k < tags.length := by
    intro i h1 h2
    obtain ⟨k, hk⟩ := List.getElem?_of_mem ((hmem i).mpr ⟨h1, h2⟩)
    refine ⟨k, hk, hin k i hk, ?_, (List.getElem?_eq_some_iff.mp hk).1⟩
    rw [List.getD_eq_getElem?_getD, hin k i hk, Option.getD_some]
  constructor
  · rw [reindex_eq_scatter]
    · congr 2
      refine List.ext_getElem? (fun j => ?_)
      have hfst : ((List.range' R₁.length tags.length).map (fun i => (perm'.getD i 0, i))).map
          Prod.fst = (List.range' R₁.length tags.length).map (fun i => perm'.getD i 0) := by
        rw [List.map_map]
        rfl
      by_cases hj : R₁.length ≤ j ∧ j < R₁.length + tags.length
      · obtain ⟨k, rfl⟩ : ∃ k, j = R₁.length + k := ⟨j - R₁.length, by omega⟩
        have hk : k < tags.length := by omega
        have hi := (hmem tags[k]).mp (List.getElem_mem hk)
        have hpair : (R₁.length + k, tags[k]) ∈
            (List.range' R₁.length tags.length).map (fun i => (perm'.getD i 0, i)) := by
          refine List.mem_map.mpr ⟨tags[k], List.mem_range'_1.mpr hi, ?_⟩
          rw [List.getD_eq_getElem?_getD, hin k tags[k] (List.getElem?_eq_getElem hk),
            Option.getD_some]
        rw [getElem?_scatter_of_mem (p := (R₁.length + k, tags[k])) ?_ hpair ?_, hwindow tags k hk,
          List.getElem?_eq_getElem hk]
        · rw [hfst]
          refine List.Nodup.map_on ?_ (List.nodup_range' _)
          intro i hi i' hi' heq
          rw [List.mem_range'_1] at hi hi'
          obtain ⟨k, hk, -, hget, -⟩ := hindex i hi.1 hi.2
          obtain ⟨k', hk', -, hget', -⟩ := hindex i' hi'.1 hi'.2
          obtain rfl : k = k' := by
            simp only [hget, hget'] at heq
            omega
          rw [hk, Option.some_inj] at hk'
          exact hk'
        · simp only [List.length_append]
          omega
      · rw [houtside j hj]
        refine getElem?_scatter_of_notMem (fun hjmem => hj ?_)
        rw [hfst] at hjmem
        obtain ⟨i, hi, rfl⟩ := List.mem_map.mp hjmem
        rw [List.mem_range'_1] at hi
        obtain ⟨k, -, -, hget, hk⟩ := hindex i hi.1 hi.2
        rw [hget]
        omega
    · intro i h1 h2
      obtain ⟨k, -, hk, hget, hlt⟩ := hindex i h1 h2
      refine ⟨(List.getElem?_eq_some_iff.mp hk).1, ?_⟩
      rw [hget]
      simp only [List.length_append]
      omega
  · refine ⟨?_, fun i r hr => ?_⟩
    · simp only [hlen', List.length_append, hlength]
    · change (R₁ ++ (tags ++ R₂))[i]? = some r at hr
      by_cases hi : R₁.length ≤ i ∧ i < R₁.length + tags.length
      · obtain ⟨k, rfl⟩ : ∃ k, i = R₁.length + k := ⟨i - R₁.length, by omega⟩
        rw [hwindow tags k (by omega)] at hr
        exact hin k r hr
      · rw [houtside i hi] at hr
        have hr' : r ∉ tags := by
          intro hmem'
          obtain ⟨k, hk⟩ := List.getElem?_of_mem (hperm.mem_iff.mp hmem')
          have hklt := (List.getElem?_eq_some_iff.mp hk).1
          rw [← hwindow old k hklt] at hk
          have := hinv.injective hr hk
          omega
        exact (hout r hr').trans (hinv.apply i r hr)

/-! ## The merge sort -/

theorem mem_zipIdx_bounds {xs : List T} {n : ℕ} {z : T × ℕ} (hz : z ∈ xs.zipIdx n) :
    n ≤ z.2 ∧ z.2 < n + xs.length := by
  have := List.mem_zipIdx hz
  omega

/-- The last element of the left half and the first of the right one. -/
theorem aget_cut {A' B' xs ys : List T} {x y : T} {mid : ℕ}
    (hmid : mid = A'.length + (xs.length + 1)) :
    aget (A' ++ ((xs ++ [x]) ++ (y :: ys ++ B'))) (mid - 1 : ℤ) = .ok x
      ∧ aget (A' ++ ((xs ++ [x]) ++ (y :: ys ++ B'))) mid = .ok y := by
  constructor
  · have hsplit : A' ++ ((xs ++ [x]) ++ (y :: ys ++ B')) = (A' ++ xs) ++ x :: (y :: ys ++ B') := by
      simp
    have hcast : (mid - 1 : ℤ) = (A'.length + xs.length : ℕ) := by omega
    rw [hsplit, hcast]
    exact aget_mid (by simp)
  · have hsplit : A' ++ ((xs ++ [x]) ++ (y :: ys ++ B')) = (A' ++ (xs ++ [x])) ++ y :: (ys ++ B') := by
      simp
    rw [hsplit]
    exact aget_mid (by simp [hmid])

/-- **The merge sort from index 0**, on a window that nothing has touched and that
stands in both arrays. -/
theorem mergeSort_spec (hcompare : IsTotalPreorder compare) (xs : List T) {A' B' : List T}
    (hlen : A.length = R₁.length) (hlen' : A'.length = R₁.length)
    (hinv : Inverse ⟨perm, R₁ ++ (List.range' R₁.length xs.length ++ R₂)⟩) :
    ∃ w ys perm', w.Perm (xs.zipIdx R₁.length) ∧ StableSorted compare w ∧ ys.length = xs.length
      ∧ mergeSort compare (A' ++ (xs ++ B')) (A ++ (xs ++ B)) R₁.length (R₁.length + xs.length) 0
          ⟨perm, R₁ ++ (List.range' R₁.length xs.length ++ R₂)⟩
        = .ok (A' ++ (ys ++ B'), A ++ (w.map Prod.fst ++ B),
            ⟨perm', R₁ ++ (w.map Prod.snd ++ R₂)⟩)
      ∧ Inverse ⟨perm', R₁ ++ (w.map Prod.snd ++ R₂)⟩ := by
  generalize hn : xs.length = n
  induction n using Nat.strong_induction_on generalizing xs A B A' B' R₁ R₂ perm with
  | _ n ih =>
    subst hn
    by_cases hsmall : xs.length < INSERTIONSORT_THRESHOLD
    · obtain ⟨w, perm', hperm, hsorted, hsort, hinv'⟩ := @insertionSort_spec _ compare _ B _ R₂
        perm hcompare hlen xs (by rwa [hlen])
      rw [hlen] at hperm hsort
      refine ⟨w, xs, perm', hperm, hsorted, rfl, ?_, hinv'⟩
      rw [mergeSort, if_pos (by omega), hsort, ok_bind, pure_eq_ok]
    · obtain ⟨xs₁, xs₂, rfl, hxs₁⟩ : ∃ xs₁ xs₂, xs = xs₁ ++ xs₂ ∧ xs₁.length = xs.length / 2 :=
        ⟨xs.take (xs.length / 2), xs.drop (xs.length / 2), (List.take_append_drop _ _).symm,
          by rw [List.length_take]; omega⟩
      rw [INSERTIONSORT_THRESHOLD] at hsmall
      rw [List.length_append] at hxs₁ hsmall hinv ih ⊢
      have hmid : (R₁.length + (R₁.length + (xs₁.length + xs₂.length))) / 2
          = R₁.length + xs₁.length := by omega
      rw [mergeSort, if_neg (by rw [INSERTIONSORT_THRESHOLD]; omega)]
      simp only [neg_zero, add_zero, Int.toNat_natCast, hmid]
      -- the left half, sorted from `dest` into `src`
      rw [← List.range'_append_1] at hinv ⊢
      simp only [List.append_assoc] at hinv ⊢
      obtain ⟨w₁, ys₁, perm₁, hperm₁, hsorted₁, hys₁, hrun₁, hinv₁⟩ :=
        @ih xs₁.length (by omega) A' (xs₂ ++ B') R₁ _ perm xs₁ A (xs₂ ++ B) hlen' hlen hinv rfl
      have hw₁ : w₁.length = xs₁.length := by rw [hperm₁.length_eq, List.length_zipIdx]
      rw [hrun₁, ok_bind]
      -- the right half
      obtain ⟨w₂, ys₂, perm₂, hperm₂, hsorted₂, hys₂, hrun₂, hinv₂⟩ :=
        @ih xs₂.length (by omega) (A' ++ w₁.map Prod.fst) B' (R₁ ++ w₁.map Prod.snd) R₂ perm₁ xs₂
          (A ++ ys₁) B
          (by simp [hlen']) (by simp [hlen, hys₁, hw₁])
          (by simpa [hw₁] using hinv₁) rfl
      simp only [List.length_append, List.length_map, hw₁, List.append_assoc, Nat.add_assoc]
        at hrun₂ hinv₂ hperm₂
      dsimp only
      rw [hrun₂, ok_bind]
      have hw₂ : w₂.length = xs₂.length := by rw [hperm₂.length_eq, List.length_zipIdx]
      -- every index of the left half is below those of the right
      have hlt : ∀ x ∈ w₁, ∀ y ∈ w₂, x.2 < y.2 := by
        intro x hx y hy
        have hx' := mem_zipIdx_bounds (hperm₁.mem_iff.mp hx)
        have hy' := mem_zipIdx_bounds (hperm₂.mem_iff.mp hy)
        omega
      have hperm : (w₁ ++ w₂).Perm ((xs₁ ++ xs₂).zipIdx R₁.length) := by
        rw [List.zipIdx_append]
        exact hperm₁.append hperm₂
      obtain ⟨v₁, x, rfl⟩ : ∃ w x, w₁ = w ++ [x] := by
        rcases List.eq_nil_or_concat w₁ with rfl | ⟨w, x, rfl⟩
        · simp only [List.length_nil] at hw₁
          omega
        · exact ⟨w, x, List.concat_eq_append⟩
      obtain ⟨y, v₂, rfl⟩ : ∃ y w, w₂ = y :: w := List.exists_cons_of_length_pos (by omega)
      rw [List.length_append, List.length_singleton] at hw₁
      obtain ⟨hx, hy⟩ := @aget_cut _ A' B' (v₁.map Prod.fst) (v₂.map Prod.fst) x.1 y.1
        (R₁.length + xs₁.length) (by rw [List.length_map, hw₁, hlen'])
      rw [← List.map_singleton, ← List.map_append, ← List.map_cons] at hx hy
      rw [hx, ok_bind, hy, ok_bind]
      have hdest : A ++ (ys₁ ++ (ys₂ ++ B)) = A ++ ((ys₁ ++ ys₂) ++ B) := by simp
      have hys : (ys₁ ++ ys₂).length = xs₁.length + xs₂.length := by simp [hys₁, hys₂]
      have hw : ((v₁ ++ [x]) ++ y :: v₂).length = xs₁.length + xs₂.length := by
        rw [List.length_append, List.length_append, List.length_singleton, hw₁, hw₂]
      by_cases hle : compare x.1 y.1 ≤ 0
      · -- the halves are already in order and are copied as they are
        refine ⟨(v₁ ++ [x]) ++ y :: v₂, ((v₁ ++ [x]) ++ y :: v₂).map Prod.fst, perm₂, hperm,
          hsorted₁.append hcompare hsorted₂ hle hlt, by rw [List.length_map, hw], ?_,
          by simpa using hinv₂⟩
        have hsrc : A' ++ ((v₁ ++ [x]).map Prod.fst ++ ((y :: v₂).map Prod.fst ++ B'))
            = A' ++ (((v₁ ++ [x]) ++ y :: v₂).map Prod.fst ++ B') := by simp
        rw [if_pos hle, Nat.add_sub_cancel_left, hsrc, hdest, arraycopy_window hlen'.symm hlen.symm
          (by rw [List.length_map, hw]) (by rw [List.length_map, hw, hys]), ok_bind, pure_eq_ok]
        simp
      · -- the halves are merged into `dest`
        have hrev : R₁ ++ ((v₁ ++ [x]).map Prod.snd ++ ((y :: v₂).map Prod.snd ++ R₂))
            = R₁ ++ (((v₁ ++ [x]) ++ y :: v₂).map Prod.snd ++ R₂) := by simp
        have hmerged : (mergeBy compare (v₁ ++ [x]) (y :: v₂)).Perm ((v₁ ++ [x]) ++ y :: v₂) :=
          mergeBy_perm
        have hlengthM : (mergeBy compare (v₁ ++ [x]) (y :: v₂)).length
            = xs₁.length + xs₂.length := by rw [hmerged.length_eq, hw]
        have hloop := @mergeLoop_spec _ compare A B perm₂
          (A' ++ ((v₁ ++ [x]).map Prod.fst ++ ((y :: v₂).map Prod.fst ++ B')))
          (R₁ ++ ((v₁ ++ [x]).map Prod.snd ++ ((y :: v₂).map Prod.snd ++ R₂)))
          (R₁.length + xs₁.length) (R₁.length + (xs₁.length + xs₂.length)) R₁.length
          (R₁.length + xs₁.length)
          (v₁ ++ [x]) (y :: v₂) (ys₁ ++ ys₂)
          (by rw [List.length_append, List.length_singleton, hw₁]) (by rw [hw₂]; omega)
          (by rw [hys, ← hw, @List.length_append _ (v₁ ++ [x])])
          (by rw [List.drop_left' hlen']; exact List.prefix_append _ _)
          (by
            rw [← List.append_assoc, List.drop_left' (by simp [hlen', ← hw₁])]
            exact List.prefix_append _ _)
          (by rw [List.drop_left]; exact List.prefix_append _ _)
          (by
            rw [← List.append_assoc, List.drop_left' (by simp [← hw₁])]
            exact List.prefix_append _ _)
          (by
            intro z hz
            obtain ⟨k, hk⟩ := List.getElem?_of_mem
              (List.mem_append_right R₁ (List.mem_append_left R₂ (List.mem_map_of_mem hz)))
            rw [hrev] at hinv₂
            exact hinv₂.lt hk)
        have hsum : (v₁ ++ [x]).length + (y :: v₂).length = xs₁.length + xs₂.length := by
          rw [← hw, @List.length_append _ (v₁ ++ [x])]
        rw [hsum, hlen] at hloop
        have htags : (((mergeBy compare (v₁ ++ [x]) (y :: v₂))).map Prod.snd).length
            = xs₁.length + xs₂.length := by rw [List.length_map, hlengthM]
        have hlocal : ((mergeBy compare (v₁ ++ [x]) (y :: v₂)).map Prod.snd).Perm
            (List.range' R₁.length (xs₁.length + xs₂.length)) := by
          have := (hmerged.trans hperm).map Prod.snd
          rwa [List.zipIdx_map_snd, List.length_append] at this
        rw [hrev] at hinv₂ hloop
        obtain ⟨hreindex, hinv₃⟩ := reindex_window hinv₂ (hmerged.map Prod.snd)
          (by rwa [htags])
        rw [htags] at hreindex
        refine ⟨mergeBy compare (v₁ ++ [x]) (y :: v₂), ((v₁ ++ [x]) ++ y :: v₂).map Prod.fst, _,
          hmerged.trans hperm, hsorted₁.merge hcompare hsorted₂ hlt,
          by rw [List.length_map, hw], ?_, hinv₃⟩
        rw [if_neg hle, Nat.add_sub_cancel_left, hdest, hrev, hloop, ok_bind, hreindex, ok_bind,
          pure_eq_ok]
        simp

/-! ## A range in which nothing has to move across the levels -/

theorem sink_of_sorted {a : List T} {low j : ℕ} {h : SortHelper} {x : T} (hx : a[j]? = some x)
    (hsorted : ∀ k y, low ≤ k → k + 1 = j → a[k]? = some y → compare y x ≤ 0) :
    sink compare low j a h = .ok (a, h) := by
  cases j with
  | zero => rfl
  | succ k =>
    rw [sink]
    by_cases hlow : low < k + 1
    · have hk : k < a.length := by
        have := (List.getElem?_eq_some_iff.mp hx).1
        omega
      have hy := hsorted k a[k] (by omega) rfl (List.getElem?_eq_getElem hk)
      rw [if_pos hlow, aget_ok (List.getElem?_eq_getElem hk), ok_bind, aget_ok hx, ok_bind,
        if_neg (not_lt.mpr hy), pure_eq_ok]
    · rw [if_neg hlow]

theorem insertionSort_of_sorted {xs : List T} {h : SortHelper} (hsorted : SortedBy compare xs) :
    insertionSort compare A.length (A.length + xs.length) (A ++ (xs ++ B)) h
      = .ok (A ++ (xs ++ B), h) := by
  have hget : ∀ k, k < xs.length → (A ++ (xs ++ B))[A.length + k]? = xs[k]? := by
    intro k hk
    rw [List.getElem?_append_right (Nat.le_add_right _ _), Nat.add_sub_cancel_left,
      List.getElem?_append_left hk]
  have hstep : ∀ j ∈ List.range' A.length xs.length,
      sink compare A.length j (A ++ (xs ++ B)) h = .ok (A ++ (xs ++ B), h) := by
    intro j hj
    rw [List.mem_range'_1] at hj
    obtain ⟨k, rfl⟩ : ∃ k, j = A.length + k := ⟨j - A.length, by omega⟩
    have hk : k < xs.length := by omega
    refine sink_of_sorted ((hget k hk).trans (List.getElem?_eq_getElem hk)) ?_
    intro i y hi hik hy
    obtain ⟨m, rfl⟩ : ∃ m, i = A.length + m := ⟨i - A.length, by omega⟩
    have hm : m < xs.length := by omega
    rw [hget m hm, List.getElem?_eq_getElem hm, Option.some_inj] at hy
    rw [← hy]
    exact List.pairwise_iff_getElem.mp hsorted m k hm hk (by omega)
  rw [insertionSort, Nat.add_sub_cancel_left]
  generalize List.range' A.length xs.length = js at hstep
  induction js with
  | nil => rfl
  | cons j js ih =>
    rw [run_cons_ok (hstep j List.mem_cons_self)]
    exact ih (fun j' hj' => hstep j' (List.mem_cons_of_mem _ hj'))

/-- No merge takes place in `xs`, and no exchange in a block that is sorted at an odd
depth of the recursion: the halves are in order between themselves wherever the
range is halved, and a short block in the coordinates of the copy is in order too. -/
def Undisturbed (compare : T → T → ℤ) (even : Bool) (xs : List T) : Prop :=
  if xs.length < INSERTIONSORT_THRESHOLD then even = true ∨ SortedBy compare xs
  else Undisturbed compare (!even) (xs.take (xs.length / 2))
    ∧ Undisturbed compare (!even) (xs.drop (xs.length / 2))
    ∧ ∀ x ∈ xs.take (xs.length / 2), ∀ y ∈ xs.drop (xs.length / 2), compare x y ≤ 0
termination_by xs.length
decreasing_by all_goals (simp only [INSERTIONSORT_THRESHOLD, List.length_take, List.length_drop] at *; omega)

theorem Undisturbed.short {xs : List T} (h : xs.length < INSERTIONSORT_THRESHOLD) :
    Undisturbed compare true xs := by
  rw [Undisturbed, if_pos h]
  exact .inl rfl

theorem Undisturbed.of_sortedBy {xs : List T} (h : SortedBy compare xs) (even : Bool) :
    Undisturbed compare even xs := by
  generalize hn : xs.length = n
  induction n using Nat.strong_induction_on generalizing xs even with
  | _ n ih =>
    subst hn
    rw [Undisturbed]
    split_ifs with hsmall
    · exact .inr h
    · rw [INSERTIONSORT_THRESHOLD] at hsmall
      have hcut : SortedBy compare (xs.take (xs.length / 2) ++ xs.drop (xs.length / 2)) := by
        rwa [List.take_append_drop]
      obtain ⟨hleft, hright, hcross⟩ := List.pairwise_append.mp hcut
      refine ⟨ih _ ?_ hleft _ rfl, ih _ ?_ hright _ rfl, hcross⟩
      · rw [List.length_take]
        omega
      · rw [List.length_drop]
        omega

/-- **The merge sort of an undisturbed range**, wherever it stands. The arrays of the
permutation are read at the bounds of the array to be sorted, which are those of
`dest` at an even depth and those of `src` at an odd one. -/
theorem mergeSort_of_undisturbed (hcompare : IsTotalPreorder compare) {xs A' B' : List T}
    {even : Bool} {off : ℤ} (hoff : (A.length + off : ℤ) = A'.length)
    (hlen : R₁.length = if even then A.length else A'.length) (h : Undisturbed compare even xs)
    (hinv : Inverse ⟨perm, R₁ ++ (List.range' R₁.length xs.length ++ R₂)⟩) :
    ∃ w ys perm', w.Perm (xs.zipIdx R₁.length) ∧ StableSorted compare w ∧ ys.length = xs.length
      ∧ mergeSort compare (A' ++ (xs ++ B')) (A ++ (xs ++ B)) A.length (A.length + xs.length) off
          ⟨perm, R₁ ++ (List.range' R₁.length xs.length ++ R₂)⟩
        = .ok (A' ++ (ys ++ B'), A ++ (w.map Prod.fst ++ B),
            ⟨perm', R₁ ++ (w.map Prod.snd ++ R₂)⟩)
      ∧ Inverse ⟨perm', R₁ ++ (w.map Prod.snd ++ R₂)⟩ := by
  generalize hn : xs.length = n
  induction n using Nat.strong_induction_on generalizing xs A B A' B' R₁ R₂ perm even off with
  | _ n ih =>
    subst hn
    rw [Undisturbed] at h
    by_cases hsmall : xs.length < INSERTIONSORT_THRESHOLD
    · rw [if_pos hsmall] at h
      rw [mergeSort, if_pos (by omega)]
      rcases h with rfl | hsorted
      · -- a block of the array itself is sorted where the permutation is read
        rw [if_pos rfl] at hlen
        obtain ⟨w, perm', hperm, hsorted, hsort, hinv'⟩ := @insertionSort_spec _ compare _ B _ R₂
          perm hcompare hlen.symm xs (by rwa [hlen] at hinv)
        rw [← hlen] at hperm
        rw [hlen, hsort, ok_bind, pure_eq_ok]
        exact ⟨w, xs, perm', by rwa [← hlen], hsorted, rfl, rfl, hinv'⟩
      · -- nothing moves in a block that is in order
        rw [insertionSort_of_sorted hsorted, ok_bind, pure_eq_ok]
        refine ⟨xs.zipIdx R₁.length, xs, perm, List.Perm.refl _, StableSorted.of_sortedBy _ hsorted,
          rfl, ?_, ?_⟩
        · rw [List.zipIdx_map_fst, List.zipIdx_map_snd]
        · rwa [List.zipIdx_map_snd]
    · rw [if_neg hsmall] at h
      obtain ⟨xs₁, xs₂, hxs, hxs₁, hxs₂⟩ : ∃ xs₁ xs₂, xs = xs₁ ++ xs₂
          ∧ xs.take (xs.length / 2) = xs₁ ∧ xs.drop (xs.length / 2) = xs₂ :=
        ⟨_, _, (List.take_append_drop _ _).symm, rfl, rfl⟩
      have hhalf : xs₁.length = xs.length / 2 := by
        rw [← hxs₁, List.length_take]
        omega
      rw [hxs₁, hxs₂] at h
      obtain ⟨hleft, hright, hcross⟩ := h
      clear hxs₁ hxs₂
      subst hxs
      rw [INSERTIONSORT_THRESHOLD] at hsmall
      rw [List.length_append] at hhalf hsmall hinv ih ⊢
      have hlow : ((A.length : ℤ) + off).toNat = A'.length := by omega
      have hhigh : (((A.length + (xs₁.length + xs₂.length) : ℕ) : ℤ) + off).toNat
          = A'.length + (xs₁.length + xs₂.length) := by omega
      have hmid : (A'.length + (A'.length + (xs₁.length + xs₂.length))) / 2
          = A'.length + xs₁.length := by omega
      have hlen' : R₁.length = if (!even) then A'.length else A.length := by
        rw [hlen]
        cases even <;> rfl
      rw [mergeSort, if_neg (by rw [INSERTIONSORT_THRESHOLD]; omega)]
      rw [← List.range'_append_1] at hinv ⊢
      simp only [hlow, hhigh, hmid, List.append_assoc] at hinv ⊢
      -- the left half, sorted from `dest` into `src`
      obtain ⟨w₁, ys₁, perm₁, hperm₁, hsorted₁, hys₁, hrun₁, hinv₁⟩ :=
        @ih xs₁.length (by omega) A' (xs₂ ++ B') R₁ _ perm xs₁ A (xs₂ ++ B) (!even) (-off)
          (by omega) hlen' hleft hinv rfl
      have hw₁ : w₁.length = xs₁.length := by rw [hperm₁.length_eq, List.length_zipIdx]
      rw [hrun₁, ok_bind]
      -- the right half
      have hlenR : (R₁ ++ w₁.map Prod.snd).length
          = if (!even) then (A' ++ w₁.map Prod.fst).length else (A ++ ys₁).length := by
        simp only [List.length_append, List.length_map, hlen', hys₁, hw₁]
        cases even <;> rfl
      obtain ⟨w₂, ys₂, perm₂, hperm₂, hsorted₂, hys₂, hrun₂, hinv₂⟩ :=
        @ih xs₂.length (by omega) (A' ++ w₁.map Prod.fst) B' (R₁ ++ w₁.map Prod.snd) R₂ perm₁ xs₂
          (A ++ ys₁) B (!even) (-off)
          (by simp only [List.length_append, List.length_map, hys₁, hw₁]; omega) hlenR hright
          (by simpa [hw₁] using hinv₁) rfl
      simp only [List.length_append, List.length_map, hw₁, List.append_assoc, Nat.add_assoc]
        at hrun₂ hinv₂ hperm₂
      dsimp only
      rw [hrun₂, ok_bind]
      have hw₂ : w₂.length = xs₂.length := by rw [hperm₂.length_eq, List.length_zipIdx]
      -- the pairs of the two halves are in order between themselves
      have hle : ∀ x ∈ w₁, ∀ y ∈ w₂, compare x.1 y.1 ≤ 0 := by
        intro x hx y hy
        have hx' := List.mem_map_of_mem (f := Prod.fst) (hperm₁.mem_iff.mp hx)
        have hy' := List.mem_map_of_mem (f := Prod.fst) (hperm₂.mem_iff.mp hy)
        rw [List.zipIdx_map_fst] at hx' hy'
        exact hcross x.1 hx' y.1 hy'
      have hlt : ∀ x ∈ w₁, ∀ y ∈ w₂, x.2 < y.2 := by
        intro x hx y hy
        have hx' := mem_zipIdx_bounds (hperm₁.mem_iff.mp hx)
        have hy' := mem_zipIdx_bounds (hperm₂.mem_iff.mp hy)
        omega
      have hperm : (w₁ ++ w₂).Perm ((xs₁ ++ xs₂).zipIdx R₁.length) := by
        rw [List.zipIdx_append]
        exact hperm₁.append hperm₂
      have hsorted : StableSorted compare (w₁ ++ w₂) :=
        List.pairwise_append.mpr
          ⟨hsorted₁, hsorted₂, fun x hx y hy => ⟨hle x hx y hy, fun _ => hlt x hx y hy⟩⟩
      have hw : (w₁ ++ w₂).length = xs₁.length + xs₂.length := by
        rw [List.length_append, hw₁, hw₂]
      -- the elements on both sides of the cut
      obtain ⟨v₁, x, rfl⟩ : ∃ w x, w₁ = w ++ [x] := by
        rcases List.eq_nil_or_concat w₁ with rfl | ⟨w, x, rfl⟩
        · simp only [List.length_nil] at hw₁
          omega
        · exact ⟨w, x, List.concat_eq_append⟩
      obtain ⟨y, v₂, rfl⟩ : ∃ y w, w₂ = y :: w := List.exists_cons_of_length_pos (by omega)
      rw [List.length_append, List.length_singleton] at hw₁
      obtain ⟨hx, hy⟩ := @aget_cut _ A' B' (v₁.map Prod.fst) (v₂.map Prod.fst) x.1 y.1
        (A'.length + xs₁.length) (by rw [List.length_map, hw₁])
      rw [← List.map_singleton, ← List.map_append, ← List.map_cons] at hx hy
      have hdest : A ++ (ys₁ ++ (ys₂ ++ B)) = A ++ ((ys₁ ++ ys₂) ++ B) := by simp
      have hsrc : A' ++ ((v₁ ++ [x]).map Prod.fst ++ ((y :: v₂).map Prod.fst ++ B'))
          = A' ++ (((v₁ ++ [x]) ++ y :: v₂).map Prod.fst ++ B') := by simp
      rw [hx, ok_bind, hy, ok_bind,
        if_pos (hle x (by simp) y List.mem_cons_self), Nat.add_sub_cancel_left, hsrc, hdest,
        arraycopy_window rfl rfl (by rw [List.length_map, hw])
          (by rw [List.length_map, hw, List.length_append, hys₁, hys₂]), ok_bind, pure_eq_ok]
      refine ⟨(v₁ ++ [x]) ++ y :: v₂, ((v₁ ++ [x]) ++ y :: v₂).map Prod.fst, perm₂, hperm,
        hsorted, by rw [List.length_map, hw], ?_, by simpa using hinv₂⟩
      simp

end Sorting

end JavaFx.Collections.SortHelper
