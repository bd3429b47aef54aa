/-
What each method of `SortedList` does to the two arrays.

`Maps s source` says that `sorted` holds the elements of the source, each with its
index, and that `perm` leads back from the index to the place. Every method of the
list takes such a pair of arrays to such a pair, for the source after the edit it
is about, and its call describes the edit of the view (`Call.Describes`).

Inserting and erasing shift indices and places alike; the two lemmas
`getElem?_insertIdx_shift` and `getElem?_eraseIdx_shift` are all that is used of it.
-/
import JavaFx.Collections.SortedList
import JavaFx.Collections.SortHelperSorts
import Mathlib.Data.List.InsertIdx

set_option autoImplicit false

namespace JavaFx.Collections

open JavaFx.Lib JavaFx.ListChange

variable {α E : Type}

/-! ## Shifting -/

theorem getElem?_insertIdx_shift (l : List α) (n k : ℕ) (a : α) :
    (l.insertIdx n a)[if n ≤ k then k + 1 else k]? = l[k]? := by
  split_ifs with h
  · rw [List.getElem?_insertIdx_of_gt (by omega), Nat.add_sub_cancel]
  · exact List.getElem?_insertIdx_of_lt (by omega)

/-- An index after the erased one moves down. -/
theorem getElem?_eraseIdx_shift (l : List α) {n k : ℕ} (h : k ≠ n) :
    (l.eraseIdx n)[if n + 1 ≤ k then k - 1 else k]? = l[k]? := by
  split_ifs with hk
  · rw [List.getElem?_eraseIdx_of_ge (by omega), Nat.sub_add_cancel (by omega)]
  · exact List.getElem?_eraseIdx_of_lt (by omega)

/-- Where an element of the longer list stood. -/
theorem getElem?_insertIdx_cases {l : List α} {n j : ℕ} {a x : α} (hn : n ≤ l.length)
    (h : (l.insertIdx n a)[j]? = some x) :
    (j = n ∧ x = a) ∨ ∃ i, l[i]? = some x ∧ j = if n ≤ i then i + 1 else i := by
  rcases lt_trichotomy j n with hj | rfl | hj
  · rw [List.getElem?_insertIdx_of_lt hj] at h
    exact .inr ⟨j, h, (if_neg (by omega)).symm⟩
  · rw [List.getElem?_insertIdx_self, if_pos hn, Option.some_inj] at h
    exact .inl ⟨rfl, h.symm⟩
  · rw [List.getElem?_insertIdx_of_gt hj] at h
    refine .inr ⟨j - 1, h, ?_⟩
    rw [if_pos (by omega)]
    omega

theorem getElem?_eraseIdx_cases {l : List α} {n j : ℕ} {x : α}
    (h : (l.eraseIdx n)[j]? = some x) :
    ∃ i, i ≠ n ∧ l[i]? = some x ∧ j = if n + 1 ≤ i then i - 1 else i := by
  by_cases hj : j < n
  · rw [List.getElem?_eraseIdx_of_lt hj] at h
    exact ⟨j, by omega, h, (if_neg (by omega)).symm⟩
  · rw [List.getElem?_eraseIdx_of_ge (by omega)] at h
    refine ⟨j + 1, by omega, h, ?_⟩
    rw [if_pos (by omega), Nat.add_sub_cancel]

theorem getElem?_elements {l : List E} {n i : ℕ} {x : Element E} :
    (elements l n)[i]? = some x ↔ ∃ e, l[i]? = some e ∧ x = ⟨e, (n + i : ℕ)⟩ := by
  rw [elements, List.getElem?_map, List.getElem?_zipIdx, Option.map_map, Option.map_eq_some_iff]
  exact ⟨fun ⟨e, he, hx⟩ => ⟨e, he, hx.symm⟩, fun ⟨e, he, hx⟩ => ⟨e, he, hx.symm⟩⟩

@[simp] theorem length_elements (l : List E) (n : ℕ) : (elements l n).length = l.length := by
  rw [elements, List.length_map, List.length_zipIdx]

@[simp] theorem map_e_elements (l : List E) (n : ℕ) : (elements l n).map Element.e = l := by
  rw [elements, List.map_map]
  exact List.zipIdx_map_fst n l

@[simp] theorem length_indices (n k : ℕ) : (indices n k).length = k := by
  rw [indices, List.length_map, List.length_range']

theorem getElem?_indices {n k i : ℕ} (h : i < k) : (indices n k)[i]? = some ((n + i : ℕ) : ℤ) := by
  rw [indices, List.getElem?_map, List.getElem?_range' h, Nat.one_mul]
  rfl

/-! ## The two arrays -/

namespace SortedList

@[simp] theorem view_call (s : SortedList E) (c : Call E) : (s.call c).view = s.view := rfl

/-- `sorted` holds the elements of the source with their indices, and `perm` leads back. -/
structure Maps (s : SortedList E) (source : List E) : Prop where
  size_eq : s.sorted.length = source.length
  perm_length : s.perm.length = source.length
  fits : source.length ≤ s.arrayLength
  arrays : 0 < s.arrayLength
  element : ∀ (i : ℕ) (x : Element E), s.sorted[i]? = some x →
    ∃ k : ℕ, x.index = k ∧ source[k]? = some x.e ∧ s.perm[k]? = some (i : ℤ)

namespace Maps

variable {s : SortedList E} {source : List E} {e : E} {k idx : ℕ}

/-- The source indices in the order of the view. -/
theorem order (h : Maps s source) :
    IsPermutation (s.sorted.map (fun x => x.index.toNat)) source.length := by
  refine IsPermutation.of_nodup (List.nodup_iff_getElem?_ne_getElem?.mpr ?_)
    (by rw [List.length_map, h.size_eq]) (fun k hk => ?_)
  · intro i j hij hj heq
    rw [List.length_map] at hj
    have hi : i < s.sorted.length := by omega
    obtain ⟨k, hk, -, hperm⟩ := h.element i _ (List.getElem?_eq_getElem hi)
    obtain ⟨k', hk', -, hperm'⟩ := h.element j _ (List.getElem?_eq_getElem hj)
    rw [List.getElem?_map, List.getElem?_map, List.getElem?_eq_getElem hi,
      List.getElem?_eq_getElem hj, Option.map_some, Option.map_some, hk, hk', Option.some_inj,
      Int.toNat_natCast, Int.toNat_natCast] at heq
    rw [heq, hperm', Option.some_inj] at hperm
    omega
  · obtain ⟨x, hx, rfl⟩ := List.mem_map.mp hk
    obtain ⟨i, hi⟩ := List.getElem?_of_mem hx
    obtain ⟨k, hk, hsource, -⟩ := h.element i x hi
    rw [hk, Int.toNat_natCast]
    exact (List.getElem?_eq_some_iff.mp hsource).1

/-- The element of the source at `k` stands in the view, where `perm` says. -/
theorem place (h : Maps s source) (hk : k < source.length) :
    ∃ (i : ℕ) (x : Element E), s.perm[k]? = some (i : ℤ) ∧ s.sorted[i]? = some x ∧ x.index = k
      ∧ source[k]? = some x.e := by
  obtain ⟨x, hx, hxk⟩ := List.mem_map.mp (h.order.mem_iff.mpr hk)
  obtain ⟨i, hi⟩ := List.getElem?_of_mem hx
  obtain ⟨k', hk', hsource, hperm⟩ := h.element i x hi
  rw [hk', Int.toNat_natCast] at hxk
  subst hxk
  exact ⟨i, x, hperm, hi, hk', hsource⟩

theorem length_view (h : Maps s source) : s.view.length = source.length := by
  rw [view, List.length_map, h.size_eq]

/-! ### Inserting and erasing -/

theorem view_updateIndices (s : SortedList E) (fromIdx viewFrom difference : ℤ) :
    (s.updateIndices fromIdx viewFrom difference).view = s.view := by
  rw [view, view, updateIndices, List.map_map]
  refine List.map_congr_left (fun x _ => ?_)
  simp only [Function.comp_apply]
  split_ifs <;> rfl

theorem ensureSize (h : Maps s source) (n : ℕ) :
    Maps (s.ensureSize n) source ∧ n ≤ (s.ensureSize n).arrayLength
      ∧ (s.ensureSize n).sorted = s.sorted ∧ (s.ensureSize n).perm = s.perm
      ∧ (s.ensureSize n).calls = s.calls
      ∧ (s.ensureSize n).elementComparator = s.elementComparator := by
  rw [SortedList.ensureSize]
  split_ifs with hlt
  · refine ⟨⟨h.size_eq, h.perm_length, ?_, ?_, h.element⟩, ?_, rfl, rfl, rfl, rfl⟩
    · have := h.fits
      dsimp only
      omega
    · dsimp only
      omega
    · dsimp only
      omega
  · exact ⟨h, by omega, rfl, rfl, rfl, rfl⟩

/-- A new element of the source at `idx`, which goes to `pos`. -/
theorem insert {pos : ℕ} (h : Maps s source) (hidx : idx ≤ source.length)
    (hpos : pos ≤ source.length) (hfits : source.length + 1 ≤ s.arrayLength) :
    Maps { s with
        sorted := (s.updateIndices idx pos 1).sorted.insertIdx pos ⟨e, (idx : ℤ)⟩
        perm := (s.updateIndices idx pos 1).perm.insertIdx idx (pos : ℤ) }
      (source.insertIdx idx e) := by
  have hsorted : (s.updateIndices idx pos 1).sorted.length = source.length := by
    rw [updateIndices, List.length_map, h.size_eq]
  have hperm : (s.updateIndices idx pos 1).perm.length = source.length := by
    rw [updateIndices, List.length_map, h.perm_length]
  have hlength : (source.insertIdx idx e).length = source.length + 1 :=
    List.length_insertIdx_of_le_length hidx e
  refine ⟨?_, ?_, ?_, ?_, fun j x hx => ?_⟩
  · rw [List.length_insertIdx_of_le_length (by rwa [hsorted]), hsorted, hlength]
  · rw [List.length_insertIdx_of_le_length (by rwa [hperm]), hperm, hlength]
  · rwa [hlength]
  · dsimp only
    omega
  · rcases getElem?_insertIdx_cases (by rwa [hsorted]) hx with ⟨rfl, rfl⟩ | ⟨i, hi, rfl⟩
    · refine ⟨idx, rfl, ?_, ?_⟩
      · rw [List.getElem?_insertIdx_self, if_pos hidx]
      · dsimp only
        rw [List.getElem?_insertIdx_self, if_pos (by rwa [hperm])]
    · -- an element that was there before keeps its partner, both shifted
      rw [updateIndices, List.getElem?_map, Option.map_eq_some_iff] at hi
      obtain ⟨y, hy, rfl⟩ := hi
      obtain ⟨k, hk, hsource, hback⟩ := h.element i y hy
      refine ⟨if idx ≤ k then k + 1 else k, ?_, ?_, ?_⟩
      · rw [hk]
        split_ifs <;> first | rfl | exact hk | omega
      · rw [getElem?_insertIdx_shift, hsource]
        split_ifs <;> rfl
      · dsimp only
        rw [getElem?_insertIdx_shift, updateIndices, List.getElem?_map, hback, Option.map_some]
        split_ifs <;> first | rfl | omega

/-- The element of the source at `idx` is gone, and so is the one at `pos` of the view. -/
theorem erase {pos : ℕ} (h : Maps s source) (hpos : s.perm[idx]? = some (pos : ℤ)) :
    Maps (updateIndices { s with sorted := s.sorted.eraseIdx pos, perm := s.perm.eraseIdx idx }
        (idx + 1) pos (-1)) (source.eraseIdx idx) := by
  have hidx : idx < source.length := by
    rw [← h.perm_length]
    exact (List.getElem?_eq_some_iff.mp hpos).1
  obtain ⟨i₀, x₀, hi₀, hx₀, hk₀, -⟩ := h.place hidx
  obtain rfl : i₀ = pos := by
    rw [hpos, Option.some_inj] at hi₀
    omega
  have hi₀lt : i₀ < source.length := by
    rw [← h.size_eq]
    exact (List.getElem?_eq_some_iff.mp hx₀).1
  refine ⟨?_, ?_, ?_, h.arrays, fun j x hx => ?_⟩
  · rw [updateIndices, List.length_map, List.length_eraseIdx_of_lt (by rwa [h.size_eq]),
      List.length_eraseIdx_of_lt hidx, h.size_eq]
  · rw [updateIndices, List.length_map, List.length_eraseIdx_of_lt (by rwa [h.perm_length]),
      List.length_eraseIdx_of_lt hidx, h.perm_length]
  · rw [List.length_eraseIdx_of_lt hidx]
    have := h.fits
    simp only [updateIndices]
    omega
  · rw [updateIndices, List.getElem?_map, Option.map_eq_some_iff] at hx
    obtain ⟨y, hy, rfl⟩ := hx
    obtain ⟨i, hne, hi, rfl⟩ := getElem?_eraseIdx_cases hy
    obtain ⟨k, hk, hsource, hback⟩ := h.element i y hi
    have hkne : k ≠ idx := by
      rintro rfl
      rw [hpos, Option.some_inj] at hback
      omega
    refine ⟨if idx + 1 ≤ k then k - 1 else k, ?_, ?_, ?_⟩
    · rw [hk]
      split_ifs <;> first | exact hk | omega | (simp only; omega)
    · rw [getElem?_eraseIdx_shift _ hkne, hsource]
      split_ifs <;> rfl
    · rw [updateIndices, List.getElem?_map]
      dsimp only
      rw [getElem?_eraseIdx_shift _ hkne, hback, Option.map_some, Option.some_inj]
      split_ifs <;> omega

end Maps

/-! ## The place of every index -/

section Throwing

variable {s : SortedList E} {β : Type}

@[simp] theorem throwing_ok (a : α) : s.throwing (.ok a) = .ok a := rfl

end Throwing

/-- The writes of the loop that makes `perm` lead back to the places in `l`. -/
def backWrites (l : List (Element E)) (n : ℕ) : List (ℕ × ℤ) :=
  (l.zipIdx n).map (fun p => (p.1.index.toNat, ((p.2 : ℕ) : ℤ)))

/-- `perm` after these writes. -/
theorem reversePerm_eq {s : SortedList E}
    (hindex : ∀ x ∈ s.sorted, ∃ k : ℕ, x.index = k ∧ k < s.perm.length) :
    s.reversePerm = .ok { s with perm := scatter s.perm (backWrites s.sorted 0) } := by
  -- by induction on what the loop has still to read
  have hloop : ∀ (B A : List (Element E)) (perm : List ℤ), s.sorted = A ++ B →
      perm.length = s.perm.length →
      run (fun (s : SortedList E) (i : ℕ) => do
          let x ← s.throwing (aget s.sorted i)
          let perm ← s.throwing (aset s.perm x.index i)
          return { s with perm := perm })
        { s with perm := perm } (List.range' A.length B.length)
      = .ok { s with perm := scatter perm (backWrites B A.length) } := by
    intro B
    induction B with
    | nil =>
      intro A perm _ _
      rfl
    | cons x B ih =>
      intro A perm hsplit hlen
      obtain ⟨k, hk, hklt⟩ := hindex x (by rw [hsplit]; simp)
      have hread : aget s.sorted (A.length : ℤ) = .ok x := by
        rw [hsplit]
        exact aget_mid rfl
      have hstep : (do
          let y ← throwing { s with perm := perm } (aget s.sorted (A.length : ℤ))
          let perm' ← throwing { s with perm := perm } (aset perm y.index (A.length : ℤ))
          return { s with perm := perm' } : Throwing E (SortedList E))
          = .ok { s with perm := perm.set k (A.length : ℤ) } := by
        rw [hread, throwing_ok, ok_bind, hk, aset_ok _ (by rwa [hlen]), throwing_ok, ok_bind,
          pure_eq_ok]
      rw [List.length_cons, List.range'_succ, run_cons_ok hstep]
      have hih := ih (A ++ [x]) (perm.set k (A.length : ℤ)) (by rw [hsplit]; simp)
        (by rw [List.length_set, hlen])
      rw [List.length_append, List.length_singleton] at hih
      rw [hih, backWrites, backWrites, List.zipIdx_cons, List.map_cons, scatter_cons, hk,
        Int.toNat_natCast]
  rw [reversePerm, size, List.range_eq_range']
  exact hloop s.sorted [] s.perm rfl rfl

theorem map_fst_backWrites (l : List (Element E)) (n : ℕ) :
    (backWrites l n).map Prod.fst = l.map (fun x => x.index.toNat) := by
  rw [backWrites, List.map_map]
  conv_rhs => rw [← List.zipIdx_map_fst n l, List.map_map]
  rfl

/-- Elements with distinct indices of the source, and `perm` written from their places. -/
theorem Maps.of_backWrites {s : SortedList E} {source : List E} {l : List (Element E)}
    (hl : l.length = source.length) (hperm : s.perm.length = source.length)
    (hfits : source.length ≤ s.arrayLength) (harrays : 0 < s.arrayLength)
    (hnodup : (l.map (fun x => x.index.toNat)).Nodup)
    (helement : ∀ x ∈ l, ∃ k : ℕ, x.index = k ∧ source[k]? = some x.e) :
    Maps { s with sorted := l, perm := scatter s.perm (backWrites l 0) } source := by
  refine ⟨hl, by rw [length_scatter, hperm], hfits, harrays, fun i x hx => ?_⟩
  obtain ⟨k, hk, hsource⟩ := helement x (List.mem_of_getElem? hx)
  have hmem : (k, (i : ℤ)) ∈ backWrites l 0 := by
    refine List.mem_map.mpr ⟨(x, i), ?_, by rw [hk, Int.toNat_natCast]⟩
    rw [List.mk_mem_zipIdx_iff_getElem?]
    exact hx
  have hlt : k < s.perm.length := by
    rw [hperm]
    exact (List.getElem?_eq_some_iff.mp hsource).1
  exact ⟨k, hk, hsource,
    getElem?_scatter_of_mem (by rwa [map_fst_backWrites]) hmem hlt⟩

/-- The elements are put in another order and `perm` is written anew. -/
theorem Maps.reversePerm {s : SortedList E} {source : List E} (h : Maps s source)
    {l : List (Element E)} (hl : l.Perm s.sorted) :
    ∃ perm, { s with sorted := l }.reversePerm = .ok { s with sorted := l, perm := perm }
      ∧ Maps { s with sorted := l, perm := perm } source := by
  have helement : ∀ x ∈ l, ∃ k : ℕ, x.index = k ∧ source[k]? = some x.e := by
    intro x hx
    obtain ⟨i, hi⟩ := List.getElem?_of_mem (hl.mem_iff.mp hx)
    obtain ⟨k, hk, hsource, -⟩ := h.element i x hi
    exact ⟨k, hk, hsource⟩
  refine ⟨_, reversePerm_eq (fun x hx => ?_), Maps.of_backWrites (by rw [hl.length_eq, h.size_eq])
    h.perm_length h.fits h.arrays ((hl.map _).nodup_iff.mpr h.order.nodup) helement⟩
  obtain ⟨k, hk, hsource⟩ := helement x hx
  refine ⟨k, hk, ?_⟩
  rw [h.perm_length]
  exact (List.getElem?_eq_some_iff.mp hsource).1

end SortedList

/-! ## What a call says -/

/-- The call describes the edit of `old` into `new`. -/
inductive Call.Describes : Call E → List E → List E → Prop
  | nextAdd (A X B : List E) :
      Describes (.nextAdd A.length (A.length + X.length)) (A ++ B) (A ++ (X ++ B))
  | nextRemove (A B : List E) (x : E) : Describes (.nextRemove A.length x) (A ++ x :: B) (A ++ B)
  | nextRemoveAll (A X B : List E) :
      Describes (.nextRemoveAll A.length X) (A ++ (X ++ B)) (A ++ B)
  | nextPermutation {i : ℕ} {perm : List ℕ} {l : List E} (h : PermutesRange i perm l.length) :
      Describes (.nextPermutation i (i + perm.length : ℕ) perm) l (permuteRange i perm l)
  | nextUpdate {i : ℕ} {l : List E} (h : i < l.length) : Describes (.nextUpdate i) l l

/-- The calls, one after the other, describe the edit of `old` into `new`. -/
def Edited : List (Call E) → List E → List E → Prop
  | [], old, new => old = new
  | c :: cs, old, new => ∃ mid, c.Describes old mid ∧ Edited cs mid new

theorem Edited.append {cs ds : List (Call E)} {old mid new : List E} (h : Edited cs old mid)
    (h' : Edited ds mid new) : Edited (cs ++ ds) old new := by
  induction cs generalizing old with
  | nil =>
    rw [Edited] at h
    rwa [h]
  | cons c cs ih =>
    obtain ⟨l, hc, hl⟩ := h
    exact ⟨l, hc, ih hl⟩

theorem Call.Describes.edited {c : Call E} {old new : List E} (h : c.Describes old new) :
    Edited [c] old new := ⟨new, h, rfl⟩

theorem insertIdx_length_append (A B : List α) (x : α) :
    (A ++ B).insertIdx A.length x = A ++ x :: B := by
  induction A with
  | nil => rfl
  | cons a A ih => rw [List.cons_append, List.length_cons, List.insertIdx_succ_cons, ih,
      List.cons_append]

theorem eraseIdx_length_append (A B : List α) (x : α) :
    (A ++ x :: B).eraseIdx A.length = A ++ B := by
  rw [List.eraseIdx_append_of_length_le (le_refl _), Nat.sub_self, List.eraseIdx_cons_zero]

/-- A list cut in front of its element at `i`. -/
theorem exists_split {l : List α} {i : ℕ} {x : α} (h : l[i]? = some x) :
    ∃ A B, l = A ++ x :: B ∧ A.length = i := by
  obtain ⟨hi, rfl⟩ := List.getElem?_eq_some_iff.mp h
  refine ⟨l.take i, l.drop (i + 1), ?_, by rw [List.length_take]; omega⟩
  rw [← List.drop_eq_getElem_cons hi, List.take_append_drop]

theorem exists_split_at {l : List α} {i : ℕ} (h : i ≤ l.length) :
    ∃ A B, l = A ++ B ∧ A.length = i :=
  ⟨l.take i, l.drop i, (List.take_append_drop i l).symm, by rw [List.length_take]; omega⟩

namespace SortedList

/-- What a method does: the arrays fit the source after the edit, and the calls describe
what became of the view. -/
structure Step (s s' : SortedList E) (source' : List E) : Prop where
  maps : Maps s' source'
  comparator : s'.elementComparator = s.elementComparator
  calls : ∃ cs, s'.calls = s.calls ++ cs ∧ Edited cs s.view s'.view

namespace Step

variable {s s' s'' : SortedList E} {source source' : List E}

theorem refl (h : Maps s source) : Step s s source := ⟨h, rfl, [], by rw [List.append_nil], rfl⟩

theorem trans (h : Step s s' source) (h' : Step s' s'' source') : Step s s'' source' := by
  obtain ⟨cs, hcs, hedit⟩ := h.calls
  obtain ⟨ds, hds, hedit'⟩ := h'.calls
  exact ⟨h'.maps, h'.comparator.trans h.comparator, cs ++ ds, by rw [hds, hcs, List.append_assoc],
    hedit.append hedit'⟩

end Step

section Methods

variable {s : SortedList E} {source : List E} {compare : E → E → ℤ} {e : E} {idx : ℕ}

theorem insertAt_ok {a : List α} {n i : ℕ} {x : α} (hi : i ≤ a.length) (hn : a.length + 1 ≤ n) :
    insertAt n a i x = .ok (a.insertIdx i x) := by
  rw [insertAt, if_pos ⟨by omega, by omega, hn⟩, Int.toNat_natCast]

theorem eraseAt_ok {a : List α} {i : ℕ} (hi : i < a.length) : eraseAt a i = .ok (a.eraseIdx i) := by
  rw [eraseAt, if_pos ⟨by omega, by omega⟩, Int.toNat_natCast]

/-- The view is ordered around every element. -/
theorem orderedBy_of_sortedBy {l : List (Element E)} (hcompare : IsTotalPreorder compare)
    (hsorted : SortedBy compare (l.map Element.e)) (e : E) :
    OrderedBy (fun x : Element E => compare x.e e) l 0 l.length := by
  have hle : ∀ (i j : ℕ) (x y : Element E), i ≤ j → l[i]? = some x → l[j]? = some y →
      compare x.e y.e ≤ 0 := by
    intro i j x y hij hx hy
    rcases Nat.lt_or_eq_of_le hij with hlt | rfl
    · rw [SortedBy, List.pairwise_map] at hsorted
      obtain ⟨hi, rfl⟩ := List.getElem?_eq_some_iff.mp hx
      obtain ⟨hj, rfl⟩ := List.getElem?_eq_some_iff.mp hy
      exact List.pairwise_iff_getElem.mp hsorted i j hi hj hlt
    · rw [hx, Option.some_inj] at hy
      rw [hy]
      exact hcompare.refl _
  constructor
  · intro i j x y _ hij _ hx hy hneg
    by_contra hpos
    have hex : compare e x.e ≤ 0 := (hcompare.swap _ _).mpr (not_lt.mp hpos)
    have := (hcompare.swap _ _).mp (hcompare.trans _ _ _ hex (hle i j x y hij hx hy))
    omega
  · intro i j x y _ hij _ hx hy hpos
    by_contra hneg
    have hye : compare y.e e ≤ 0 := not_lt.mp hneg
    have := hcompare.trans _ _ _ (hle i j x y hij hx hy) hye
    omega

/-- The place of an element in the view, which in a sorted view splits it. -/
theorem findPosition_spec (h : Maps s source) (compare : E → E → ℤ) (e : E) :
    ∃ (r : ℤ) (p : ℕ), s.findPosition compare e = .ok r ∧ (if r < 0 then compl r else r) = p
      ∧ p ≤ source.length
      ∧ (IsTotalPreorder compare → SortedBy compare s.view →
          Splits (fun x => compare x.e e) s.sorted 0 source.length p) := by
  have hzero : (0 : ℤ) = ((0 : ℕ) : ℤ) := rfl
  obtain ⟨p, hp, -, hle, -⟩ := @binarySearch.loop_bounds _
    (fun x => elementCompare compare x ⟨e, -1⟩) s.sorted 0 s.size (s.size - 0) (Nat.zero_le s.size)
    (le_refl s.sorted.length)
  refine ⟨_, p, ?_, hp, by rwa [size, h.size_eq] at hle, fun hcompare hsorted => ?_⟩
  · rw [findPosition, if_neg (Nat.pos_iff_ne_zero.mp h.arrays), hzero]
    exact binarySearch_eq (Nat.zero_le _) (le_refl _)
  · obtain ⟨q, hq, hsplits, -⟩ := @binarySearch.loop_splits _ _ _ 0 s.size (s.size - 0)
      _ _ (orderedBy_of_sortedBy hcompare hsorted e) (le_refl 0) (Nat.zero_le _)
      (le_refl _) (le_refl _) (le_refl _) (fun i x _ hi => absurd hi (by omega))
      (fun i x hi hi' => absurd hi (not_le.mpr hi'))
    obtain rfl : q = p := by
      have hpq := hq.symm.trans hp
      omega
    rwa [h.size_eq] at hsplits

/-- An element put where the others are on their sides of it. -/
theorem SortedBy.insert_splits {l : List (Element E)} {p n : ℕ} {x : Element E}
    (hcompare : IsTotalPreorder compare) (hsorted : SortedBy compare (l.map Element.e))
    (hn : l.length = n) (hp : p ≤ n) (h : Splits (fun y => compare y.e x.e) l 0 n p) :
    SortedBy compare ((l.insertIdx p x).map Element.e) := by
  obtain ⟨A, B, rfl, rfl⟩ := exists_split_at (l := l) (i := p) (by omega)
  rw [insertIdx_length_append, List.map_append, List.map_cons]
  rw [List.map_append] at hsorted
  obtain ⟨hA, hB, hAB⟩ := List.pairwise_append.mp hsorted
  have hleft : ∀ y ∈ A, compare y.e x.e ≤ 0 := by
    intro y hy
    obtain ⟨i, hi⟩ := List.getElem?_of_mem hy
    have hlt : i < A.length := (List.getElem?_eq_some_iff.mp hi).1
    exact h.left i y (Nat.zero_le _) hlt (by rw [List.getElem?_append_left hlt, hi])
  have hright : ∀ y ∈ B, compare x.e y.e ≤ 0 := by
    intro y hy
    obtain ⟨i, hi⟩ := List.getElem?_of_mem hy
    have hlt : i < B.length := (List.getElem?_eq_some_iff.mp hi).1
    refine (hcompare.swap _ _).mpr (h.right (A.length + i) y (Nat.le_add_right _ _) ?_ ?_)
    · rw [← hn, List.length_append]
      omega
    · rw [List.getElem?_append_right (Nat.le_add_right _ _), Nat.add_sub_cancel_left, hi]
  refine List.pairwise_append.mpr ⟨hA, List.pairwise_cons.mpr ⟨?_, hB⟩, ?_⟩
  · intro b hb
    obtain ⟨y, hy, rfl⟩ := List.mem_map.mp hb
    exact hright y hy
  · intro a ha b hb
    rcases List.mem_cons.mp hb with rfl | hb
    · obtain ⟨y, hy, rfl⟩ := List.mem_map.mp ha
      exact hleft y hy
    · exact hAB a ha b hb

/-- **Inserting** an element of the source at `idx`. -/
theorem insertToMapping_spec (h : Maps s source) (hidx : idx ≤ source.length)
    (compare : E → E → ℤ) (e : E) :
    ∃ s', s.insertToMapping compare e idx = .ok s' ∧ Step s s' (source.insertIdx idx e)
      ∧ (IsTotalPreorder compare → SortedBy compare s.view → SortedBy compare s'.view) := by
  obtain ⟨r, p, hfind, hr, hp, hsplits⟩ := findPosition_spec h compare e
  obtain ⟨h', hfits, hsorted, hperm, hcalls, hcomparator⟩ := h.ensureSize (s.size + 1)
  have hsize : s.size = source.length := h.size_eq
  rw [insertToMapping, hfind, throwing_ok, ok_bind]
  simp only [hr]
  generalize s.ensureSize (s.size + 1) = t at h' hfits hsorted hperm hcalls hcomparator ⊢
  rw [hsize] at hfits
  have hlen : (t.updateIndices idx p 1).sorted.length = source.length := by
    rw [updateIndices, List.length_map, h'.size_eq]
  have hlen' : (t.updateIndices idx p 1).perm.length = source.length := by
    rw [updateIndices, List.length_map, h'.perm_length]
  have hmaps := h'.insert (e := e) hidx hp hfits
  have hview : ((t.updateIndices idx p 1).sorted.insertIdx p ⟨e, (idx : ℤ)⟩).map Element.e
      = (s.sorted.insertIdx p ⟨e, (idx : ℤ)⟩).map Element.e := by
    rw [List.map_insertIdx, List.map_insertIdx, ← hsorted]
    exact congrArg (fun l => l.insertIdx p e) (Maps.view_updateIndices t idx p 1)
  rw [insertAt_ok (by rwa [hlen]) (by rw [hlen]; exact hfits), throwing_ok, ok_bind,
    insertAt_ok (by rwa [hlen']) (by rw [hlen']; exact hfits), throwing_ok, ok_bind, pure_eq_ok]
  refine ⟨_, rfl, ⟨⟨hmaps.size_eq, hmaps.perm_length, hmaps.fits, hmaps.arrays, hmaps.element⟩,
    hcomparator, [.nextAdd p (p + 1)], ?_, Call.Describes.edited ?_⟩, fun hcompare hsortedBy => ?_⟩
  · dsimp only [call, updateIndices]
    rw [hcalls]
  · -- the view has the element at its place
    have hp' : p ≤ s.view.length := by rwa [h.length_view]
    obtain ⟨A, B, hAB, rfl⟩ := exists_split_at hp'
    have hnew : view (call { t.updateIndices idx A.length 1 with
        sorted := (t.updateIndices idx A.length 1).sorted.insertIdx A.length ⟨e, (idx : ℤ)⟩
        perm := (t.updateIndices idx A.length 1).perm.insertIdx idx A.length }
          (.nextAdd A.length (A.length + 1))) = A ++ ([e] ++ B) := by
      have hmap : s.sorted.map Element.e = A ++ B := hAB
      rw [view, call]
      dsimp only
      rw [hview, List.map_insertIdx, hmap, insertIdx_length_append, List.singleton_append]
    rw [hnew, hAB]
    exact Call.Describes.nextAdd A [e] B
  · have := SortedBy.insert_splits (x := ⟨e, (idx : ℤ)⟩) hcompare hsortedBy h.size_eq hp
      (hsplits hcompare hsortedBy)
    rw [← hview] at this
    exact this

/-- **Removing** the element of the source at `idx`. -/
theorem removeFromMapping_spec (h : Maps s source) (he : source[idx]? = some e) :
    ∃ s', s.removeFromMapping idx e = .ok s' ∧ Step s s' (source.eraseIdx idx)
      ∧ (SortedBy compare s.view → SortedBy compare s'.view) := by
  have hidx : idx < source.length := (List.getElem?_eq_some_iff.mp he).1
  obtain ⟨p, x, hperm, hx, hk, hsource⟩ := h.place hidx
  have hp : p < s.sorted.length := (List.getElem?_eq_some_iff.mp hx).1
  obtain rfl : x.e = e := by
    rw [he, Option.some_inj] at hsource
    exact hsource.symm
  have hmaps := h.erase hperm
  have hview : (updateIndices { s with sorted := s.sorted.eraseIdx p, perm := s.perm.eraseIdx idx }
      (idx + 1) p (-1)).view = s.view.eraseIdx p := by
    rw [Maps.view_updateIndices, view, view, List.eraseIdx_map]
  rw [removeFromMapping, aget_ok hperm, throwing_ok, ok_bind, eraseAt_ok hp, throwing_ok, ok_bind,
    eraseAt_ok (by rwa [h.perm_length]), throwing_ok, ok_bind, pure_eq_ok]
  refine ⟨_, rfl, ⟨⟨hmaps.size_eq, hmaps.perm_length, hmaps.fits, hmaps.arrays, hmaps.element⟩,
    rfl, [.nextRemove p x.e], rfl, Call.Describes.edited ?_⟩, fun hsorted => ?_⟩
  · have hxview : s.view[p]? = some x.e := by
      rw [view, List.getElem?_map, hx, Option.map_some]
    obtain ⟨A, B, hAB, rfl⟩ := exists_split hxview
    have hnew := hview
    rw [hAB, eraseIdx_length_append] at hnew
    rw [view_call, hnew, hAB]
    exact Call.Describes.nextRemove A B x.e
  · rw [view_call, hview]
    exact List.Pairwise.sublist (List.eraseIdx_sublist _ _) hsorted

/-- The whole view is given up. -/
theorem removeAllFromMapping_step (h : Maps s source) : Step s s.removeAllFromMapping [] := by
  refine ⟨⟨rfl, rfl, Nat.zero_le _, h.arrays, fun i x hx => ?_⟩, rfl,
    [.nextRemoveAll 0 s.view], rfl, Call.Describes.edited ?_⟩
  · simp only [removeAllFromMapping, call, List.getElem?_nil] at hx
    cases hx
  · have := Call.Describes.nextRemoveAll [] s.view ([] : List E)
    rw [List.append_nil] at this
    exact this

/-- The elements of a list are sorted by the places of a permutation. -/
theorem SortsBy.element {l : List (Element E)} {r : List (Element E) × List ℕ}
    {cmp : Element E → Element E → ℤ} (h : SortHelper.SortsBy cmp l 0 l.length r) {i : ℕ}
    {x : Element E} (hx : r.1[i]? = some x) : ∃ k : ℕ, l[k]? = some x ∧ r.2[k]? = some i := by
  have hlen : r.2.length = l.length := by rw [h.length_eq, Nat.sub_zero]
  have hi : i < l.length := by
    have := (List.getElem?_eq_some_iff.mp hx).1
    rwa [h.permuted, length_permuteRange h.permutes] at this
  have hmem : i ∈ r.2 := by
    rw [h.permutes.2.mem_iff, List.mem_range'_1, hlen]
    omega
  obtain ⟨k, hk, rfl⟩ := List.getElem_of_mem hmem
  refine ⟨k, ?_, List.getElem?_eq_getElem hk⟩
  have := getElem?_permuteRange_mid h.permutes hk
  rw [← h.permuted, hx, Nat.zero_add] at this
  exact this.symm

/-- The view afterwards, and that the places lead there. -/
theorem SortsBy.view {l : List (Element E)} {r : List (Element E) × List ℕ}
    (h : SortHelper.SortsBy (elementCompare compare) l 0 l.length r) :
    PermutesRange 0 r.2 (l.map Element.e).length
      ∧ r.1.map Element.e = permuteRange 0 r.2 (l.map Element.e)
      ∧ SortedBy compare (r.1.map Element.e) := by
  refine ⟨by rw [List.length_map]; exact h.permutes, ?_, ?_⟩
  · rw [permuteRange_map _ h.permutes, ← h.permuted]
  · have hlen : r.1.length = l.length := by rw [h.permuted, length_permuteRange h.permutes]
    have := h.sorted
    rw [SortHelper.range, List.drop_zero, Nat.sub_zero, ← hlen, List.take_length] at this
    rw [SortedBy, List.pairwise_map]
    exact this

theorem sort_spec (hcompare : IsTotalPreorder compare) (l : List (Element E)) :
    ∃ r, SortHelper.sort (elementCompare compare) l 0 l.length = .ok r
      ∧ SortHelper.SortsBy (elementCompare compare) l 0 l.length r :=
  SortHelper.sort_sortsBy (hcompare.comap Element.e) (Nat.zero_le _) (le_refl _) (.inl rfl)

/-- An empty list takes over the first elements of the source. -/
theorem setAllToMapping_spec {list : List E} {toIdx : ℕ} (hcompare : IsTotalPreorder compare)
    (h : Maps s []) (hto : toIdx ≤ list.length) :
    ∃ s', s.setAllToMapping compare list toIdx = .ok s' ∧ Step s s' (list.take toIdx)
      ∧ SortedBy compare s'.view := by
  obtain ⟨h', hfits, -, -, hcalls, hcomparator⟩ := h.ensureSize toIdx
  have hempty : s.view = [] := List.eq_nil_of_length_eq_zero h.length_view
  have hlen : (list.take toIdx).length = toIdx := by
    rw [List.length_take]
    omega
  obtain ⟨r, hr, hsorts⟩ := sort_spec hcompare (elements (list.take toIdx) 0)
  obtain ⟨hpermutes, hview, hsorted⟩ := SortsBy.view hsorts
  have hrlen : r.1.length = toIdx := by
    rw [hsorts.permuted, length_permuteRange hsorts.permutes, length_elements, hlen]
  have hrlen' : r.2.length = toIdx := by
    rw [hsorts.length_eq, Nat.sub_zero, length_elements, hlen]
  rw [setAllToMapping]
  generalize s.ensureSize toIdx = t at h' hfits hcalls hcomparator ⊢
  dsimp only
  rw [if_neg (by omega), size, hr, throwing_ok, ok_bind, pure_eq_ok]
  refine ⟨_, rfl, ⟨⟨?_, ?_, ?_, h'.arrays, fun i x hx => ?_⟩, hcomparator,
    [.nextAdd 0 (r.1.length : ℕ)], ?_, Call.Describes.edited ?_⟩, hsorted⟩
  · rw [hlen]
    exact hrlen
  · rw [hlen, ← hrlen']
    exact List.length_map _
  · rw [hlen]
    exact hfits
  · obtain ⟨k, hk, hi⟩ := SortsBy.element hsorts hx
    obtain ⟨e, he, rfl⟩ := getElem?_elements.mp hk
    refine ⟨0 + k, rfl, by rwa [Nat.zero_add], ?_⟩
    rw [Nat.zero_add]
    exact (List.getElem?_map ..).trans (by rw [hi, Option.map_some])
  · dsimp only [call]
    rw [hcalls]
    rfl
  · rw [hempty]
    have := Call.Describes.nextAdd [] (r.1.map Element.e) ([] : List E)
    simp only [List.length_map, List.append_nil, List.nil_append, List.length_nil, Nat.cast_zero,
      zero_add] at this
    exact this

/-- `nextUpdate` for the places of some elements of the source. -/
theorem nextUpdates_spec {s : SortedList E} (h : Maps s source) (is : List ℕ)
    (his : ∀ i ∈ is, i < source.length) :
    ∃ s', run (fun (s : SortedList E) (i : ℕ) => do
          let p ← s.throwing (aget s.perm i)
          return s.call (.nextUpdate p)) s is = .ok s'
      ∧ Step s s' source ∧ s'.view = s.view := by
  induction is generalizing s with
  | nil => exact ⟨s, rfl, Step.refl h, rfl⟩
  | cons i is ih =>
    obtain ⟨p, x, hperm, hx, -, -⟩ := h.place (his i List.mem_cons_self)
    have hp : p < s.view.length := by
      rw [view, List.length_map]
      exact (List.getElem?_eq_some_iff.mp hx).1
    have hstep : (do
        let p ← s.throwing (aget s.perm i)
        return s.call (.nextUpdate p) : Throwing E (SortedList E))
        = .ok (s.call (.nextUpdate p)) := by
      rw [aget_ok hperm, throwing_ok, ok_bind, pure_eq_ok]
    have hcall : Step s (s.call (.nextUpdate p)) source :=
      ⟨⟨h.size_eq, h.perm_length, h.fits, h.arrays, h.element⟩, rfl, _, rfl,
        Call.Describes.edited (Call.Describes.nextUpdate hp)⟩
    obtain ⟨s', hrun, hstep', hview⟩ := ih hcall.maps
      (fun j hj => his j (List.mem_cons_of_mem _ hj))
    refine ⟨s', ?_, hcall.trans hstep', hview⟩
    rw [run_cons_ok hstep]
    exact hrun

/-- **Updated** elements: the view is sorted again. -/
theorem update_spec (hcompare : IsTotalPreorder compare) (h : Maps s source) {a b : ℕ}
    (hb : b ≤ source.length) :
    ∃ s', s.update compare (.update a b) = .ok s' ∧ Step s s' source
      ∧ SortedBy compare s'.view := by
  obtain ⟨r, hr, hsorts⟩ := sort_spec hcompare s.sorted
  obtain ⟨hpermutes, hview, hsorted⟩ := SortsBy.view hsorts
  have hperm : r.1.Perm s.sorted := by
    rw [hsorts.permuted]
    exact permuteRange_perm hsorts.permutes
  obtain ⟨perm, hreverse, hmaps⟩ := h.reversePerm hperm
  have hlen : 0 + r.2.length = s.size := by rw [hsorts.length_eq, size, Nat.sub_zero, Nat.zero_add]
  rw [SortedList.update, size, hr, throwing_ok, ok_bind, hreverse, ok_bind]
  have hsize : size { s with sorted := r.1, perm := perm } = s.size := by
    rw [size, hperm.length_eq, size]
  have hcall : Step s
      (call { s with sorted := r.1, perm := perm } (.nextPermutation 0 (s.size : ℕ) r.2)) source := by
    refine ⟨⟨hmaps.size_eq, hmaps.perm_length, hmaps.fits, hmaps.arrays, hmaps.element⟩, rfl, _,
      rfl, Call.Describes.edited ?_⟩
    have := Call.Describes.nextPermutation hpermutes
    rw [hlen, Nat.cast_zero] at this
    change Call.Describes _ s.view (r.1.map Element.e)
    rw [hview]
    exact this
  obtain ⟨s', hrun, hstep, hview'⟩ := nextUpdates_spec hcall.maps (List.range' a (b - a))
    (fun i hi => by
      rw [List.mem_range'_1] at hi
      omega)
  refine ⟨s', ?_, hcall.trans hstep, ?_⟩
  · rw [hsize]
    exact hrun
  · rw [hview']
    exact hsorted

/-- Removing elements of the source that stand one after the other. -/
theorem removes_spec {s : SortedList E} (L R rest : List E) (h : Maps s (L ++ (R ++ rest))) :
    ∃ s', run (fun (s : SortedList E) e => s.removeFromMapping L.length e) s R = .ok s'
      ∧ Step s s' (L ++ rest) ∧ (SortedBy compare s.view → SortedBy compare s'.view) := by
  induction R generalizing s with
  | nil => exact ⟨s, rfl, Step.refl h, id⟩
  | cons e R ih =>
    obtain ⟨s₁, hremove, hstep, hsorted⟩ := @removeFromMapping_spec _ _ _ compare e L.length h
      (by simp)
    rw [List.cons_append, eraseIdx_length_append] at hstep
    obtain ⟨s₂, hrun, hstep', hsorted'⟩ := ih hstep.maps
    refine ⟨s₂, ?_, hstep.trans hstep', fun hs => hsorted' (hsorted hs)⟩
    rw [run_cons_ok hremove, hrun]

/-- Inserting elements of the source that stand one after the other. -/
theorem inserts_spec (hcompare : IsTotalPreorder compare) {s : SortedList E}
    (L A rest rest' : List E) (h : Maps s (L ++ rest)) :
    ∃ s', run (fun (s : SortedList E) (i : ℕ) => do
          let e ← s.throwing (aget (L ++ (A ++ rest')) i)
          s.insertToMapping compare e i) s (List.range' L.length A.length) = .ok s'
      ∧ Step s s' (L ++ (A ++ rest)) ∧ (SortedBy compare s.view → SortedBy compare s'.view) := by
  induction A generalizing s L with
  | nil => exact ⟨s, rfl, Step.refl h, id⟩
  | cons e A ih =>
    obtain ⟨s₁, hinsert, hstep, hsorted⟩ := @insertToMapping_spec _ _ _ L.length h
      (by rw [List.length_append]; exact Nat.le_add_right _ _) compare e
    rw [insertIdx_length_append, List.append_cons] at hstep
    obtain ⟨s₂, hrun, hstep', hsorted'⟩ := @ih s₁ (L ++ [e]) hstep.maps
    rw [List.length_append, List.length_singleton] at hrun
    have hlist : L ++ (e :: A ++ rest') = (L ++ [e]) ++ (A ++ rest') := by simp
    have hread : (do
        let e ← s.throwing (aget (L ++ (e :: A ++ rest')) (L.length : ℤ))
        s.insertToMapping compare e (L.length : ℤ) : Throwing E (SortedList E)) = .ok s₁ := by
      rw [List.cons_append, aget_mid rfl, throwing_ok, ok_bind, hinsert]
    refine ⟨s₂, ?_, ?_, fun hs => hsorted' (hsorted hcompare hs)⟩
    · rw [List.length_cons, List.range'_succ, run_cons_ok hread, hlist, hrun]
    · have := hstep.trans hstep'
      rwa [← List.append_cons] at this

/-- **An add/remove sub-change**: of the elements `R` behind `L` only `A` is left. -/
theorem addRemove_spec (hcompare : IsTotalPreorder compare) (L R A rest rest' : List E)
    (h : Maps s (L ++ (R ++ rest))) :
    ∃ s', s.addRemove compare (L ++ (A ++ rest'))
        (.addRemove L.length (L.length + A.length) R) = .ok s'
      ∧ Step s s' (L ++ (A ++ rest)) ∧ (SortedBy compare s.view → SortedBy compare s'.view) := by
  have hsize := h.size_eq
  -- the first loop leaves `L` and `rest`
  have hremoved : ∃ s₁, s.removeChanged (.addRemove L.length (L.length + A.length) R) = .ok s₁
      ∧ Step s s₁ (L ++ rest) ∧ (SortedBy compare s.view → SortedBy compare s₁.view) := by
    rw [removeChanged, SubChange.addRemove_fromIdx, SubChange.addRemove_removedSize,
      SubChange.addRemove_removed]
    split_ifs with hall
    · have hnil : L ++ rest = [] := by
        rw [size, hsize] at hall
        simp only [List.length_append] at hall
        refine List.eq_nil_of_length_eq_zero ?_
        rw [List.length_append]
        omega
      rw [hnil]
      exact ⟨_, rfl, removeAllFromMapping_step h, fun _ => List.Pairwise.nil⟩
    · exact removes_spec L R rest h
  obtain ⟨s₁, hrun, hstep, hsorted⟩ := hremoved
  rw [addRemove, hrun, ok_bind, SubChange.addRemove_fromIdx, SubChange.addRemove_toIdx,
    Nat.add_sub_cancel_left]
  split_ifs with hempty
  · -- the list is empty and takes all from the source
    have hnil : L ++ rest = [] := by
      refine List.eq_nil_of_length_eq_zero ?_
      rw [← hstep.maps.size_eq]
      exact hempty
    obtain ⟨rfl, rfl⟩ := List.append_eq_nil_iff.mp hnil
    obtain ⟨s₂, hset, hstep', hsorted'⟩ := @setAllToMapping_spec _ _ _
      ([] ++ (A ++ rest')) (([] : List E).length + A.length) hcompare hstep.maps (by simp)
    refine ⟨s₂, hset, ?_, fun _ => hsorted'⟩
    have := hstep.trans hstep'
    rw [List.length_nil, Nat.zero_add, List.nil_append, List.take_left] at this
    rwa [List.append_nil, List.nil_append]
  · obtain ⟨s₂, hinserts, hstep', hsorted'⟩ := inserts_spec hcompare L A rest rest' hstep.maps
    exact ⟨s₂, hinserts, hstep.trans hstep', fun hs => hsorted' (hsorted hs)⟩

end Methods

end SortedList

end JavaFx.Collections
