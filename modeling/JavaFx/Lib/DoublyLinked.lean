/-
A doubly linked list with a field for its first and one for its last record.

The two fields are the links of a record that does not exist: `none` is in front of the
first record and behind the last one. So `unlink` and `link` write the same two links
wherever they are, and `Holds` says of all places of the list alike what the two links
across it are.

A record that was taken out keeps its link to the next one, and who stands at it goes on
from there. `Frozen` says where that leads: past no record that was in the list
from the start.
-/
import Mathlib.Data.List.Basic
import Mathlib.Data.Set.Insert
import Mathlib.Logic.Function.Basic
import Mathlib.Order.Basic

set_option autoImplicit false

namespace JavaFx.Lib

/-- The links of the records, forward and backward. -/
structure Links (K : Type) where
  /-- The next record, or the first one. -/
  after : Option K → Option K
  /-- The previous record, or the last one. -/
  before : Option K → Option K

namespace Links

variable {K : Type}

section Edits

variable [DecidableEq K]

/-- The neighbours of the record are linked with one another. -/
def unlink (s : Links K) (x : K) : Links K :=
  ⟨Function.update s.after (s.before (some x)) (s.after (some x)),
    Function.update s.before (s.after (some x)) (s.before (some x))⟩

/-- The record is put behind another one. -/
def link (s : Links K) (p : Option K) (x : K) : Links K :=
  ⟨Function.update (Function.update s.after p (some x)) (some x) (s.after p),
    Function.update (Function.update s.before (s.after p) (some x)) (some x) p⟩

end Edits

/-- The records are those of the list, in this order, both ways. -/
def Holds (s : Links K) (l : List K) : Prop :=
  ∀ a b, l = a ++ b → s.after a.getLast? = b.head? ∧ s.before b.head? = a.getLast?

section Holds

variable {s : Links K} {l a b : List K} {x : K}

theorem holds_nil (hafter : s.after none = none) (hbefore : s.before none = none) :
    s.Holds [] := by
  intro a b h
  obtain ⟨rfl, rfl⟩ := List.append_eq_nil_iff.mp h.symm
  exact ⟨hafter, hbefore⟩

theorem Holds.before_of (h : s.Holds (a ++ x :: b)) : s.before (some x) = a.getLast? :=
  (h a (x :: b) rfl).2

theorem Holds.after_of (h : s.Holds (a ++ x :: b)) : s.after (some x) = b.head? := by
  have hsplit := (h (a ++ [x]) b (by rw [List.append_assoc, List.singleton_append])).1
  rwa [List.getLast?_concat] at hsplit

theorem Holds.first (h : s.Holds l) : s.after none = l.head? := (h [] l rfl).1

theorem Holds.last (h : s.Holds l) : s.before none = l.getLast? :=
  (h l [] (List.append_nil l).symm).2

/-- Two places of a list without repetitions have another last record in front of them. -/
theorem getLast?_ne {a e : List K} (hnodup : (a ++ e).Nodup) (he : e ≠ []) :
    (a ++ e).getLast? ≠ a.getLast? := by
  intro heq
  rw [List.getLast?_append_of_ne_nil a he] at heq
  have hmem := List.getLast_mem he
  rw [List.getLast?_eq_some_getLast he] at heq
  exact (List.nodup_append.mp hnodup).2.2 _ (List.mem_of_getLast? heq.symm) _ hmem rfl

theorem head?_ne {e b : List K} (hnodup : (e ++ b).Nodup) (he : e ≠ []) :
    (e ++ b).head? ≠ b.head? := by
  intro heq
  rw [List.head?_append_of_ne_nil e he, List.head?_eq_some_head he] at heq
  exact (List.nodup_append.mp hnodup).2.2 _ (List.head_mem he) _ (List.mem_of_head? heq.symm) rfl

variable [DecidableEq K]

theorem Holds.unlink (h : s.Holds (a ++ x :: b)) (hnodup : (a ++ x :: b).Nodup) :
    (s.unlink x).Holds (a ++ b) := by
  have hnodup' : (a ++ b).Nodup := hnodup.sublist (by simp)
  intro c d hcd
  rw [Links.unlink, h.before_of, h.after_of]
  rcases List.append_eq_append_iff.mp hcd with ⟨e, rfl, rfl⟩ | ⟨e, rfl, rfl⟩
  · -- the place is behind the record
    rcases eq_or_ne e [] with rfl | he
    · simp
    have hsplit := h ((a ++ [x]) ++ e) d (by simp)
    rw [List.getLast?_append_of_ne_nil _ he] at hsplit
    have hlast := getLast?_ne (a := a) (hnodup'.sublist (by simp)) he
    have hhead := head?_ne (List.nodup_append.mp hnodup').2.1 he
    dsimp only
    rw [Function.update_of_ne hlast, Function.update_of_ne hhead.symm,
      List.getLast?_append_of_ne_nil _ he]
    exact hsplit
  · -- the place is in front of the record
    rcases eq_or_ne e [] with rfl | he
    · simp
    have hsplit := h c (e ++ (x :: b)) (by simp)
    rw [List.head?_append_of_ne_nil _ he] at hsplit
    have hlast := getLast?_ne (List.nodup_append.mp hnodup').1 he
    have hhead := head?_ne (b := b) (hnodup'.sublist (by simp)) he
    dsimp only
    rw [Function.update_of_ne hlast.symm, Function.update_of_ne hhead,
      List.head?_append_of_ne_nil _ he]
    exact hsplit

/-- The record that is taken out keeps its link. -/
theorem Holds.unlink_after (h : s.Holds (a ++ x :: b)) (hnodup : (a ++ x :: b).Nodup) :
    (s.unlink x).after (some x) = b.head? := by
  have hne : some x ≠ s.before (some x) := by
    rw [h.before_of]
    exact fun heq => (List.nodup_append.mp hnodup).2.2 x (List.mem_of_getLast? heq.symm) x
      List.mem_cons_self rfl
  rw [Links.unlink]
  dsimp only
  rw [Function.update_of_ne hne, h.after_of]

theorem Holds.link_last (h : s.Holds l) (hnodup : (l ++ [x]).Nodup) :
    (s.link (s.before none) x).Holds (l ++ [x]) := by
  have hend : s.after l.getLast? = none := (h l [] (List.append_nil l).symm).1
  have hx : x ∉ l := fun hmem => (List.nodup_append.mp hnodup).2.2 x hmem x (by simp) rfl
  intro c d hcd
  rw [Links.link, h.last, hend]
  rcases List.eq_nil_or_concat' d with rfl | ⟨d, y, rfl⟩
  · -- the end of the list
    obtain rfl : l ++ [x] = c := hcd.trans (List.append_nil c)
    rw [List.getLast?_concat]
    simp
  · obtain ⟨rfl, hy⟩ := List.append_inj' (hcd.trans (List.append_assoc c d [y]).symm) rfl
    obtain rfl : x = y := List.head_eq_of_cons_eq hy
    rcases eq_or_ne d [] with rfl | hd
    · have hne : c.getLast? ≠ some x := fun hlast =>
        hx (List.mem_append_left _ (List.mem_of_getLast? hlast))
      simp [hne]
    have hsplit := h c d rfl
    have hlast := getLast?_ne (List.nodup_append.mp hnodup).1 hd
    have hlastx : c.getLast? ≠ some x := fun hlast =>
      hx (List.mem_append_left _ (List.mem_of_getLast? hlast))
    have hheadx : d.head? ≠ some x := fun hhead =>
      hx (List.mem_append_right _ (List.mem_of_head? hhead))
    have hhead : d.head? ≠ none := fun hnone => hd (List.head?_eq_none_iff.mp hnone)
    dsimp only
    rw [List.head?_append_of_ne_nil _ hd, Function.update_of_ne hlastx,
      Function.update_of_ne hlast.symm, Function.update_of_ne hheadx, Function.update_of_ne hhead]
    exact hsplit

end Holds

/-! ## The records that were taken out -/

section Frozen

variable [LinearOrder K] {s s' : Links K} {l a b : List K} {gone old : Set K} {r n w x : K}

/-- The link that a record kept leads forward, and past none of the `old` records that
are still there. -/
def Frozen (s : Links K) (l : List K) (gone old : Set K) : Prop :=
  ∀ r ∈ gone, (∀ n ∈ s.after (some r), r < n ∧ (n ∈ l ∨ n ∈ gone))
    ∧ ∀ w ∈ l, w ∈ old → r < w → ∃ n ∈ s.after (some r), n ≤ w

/-- In a list in order the link of a record leads to the next one. -/
theorem Holds.ahead (h : s.Holds l) (hsorted : l.Pairwise (· < ·)) (hr : r ∈ l) :
    (∀ n ∈ s.after (some r), r < n ∧ n ∈ l) ∧ ∀ w ∈ l, r < w → ∃ n ∈ s.after (some r), n ≤ w := by
  obtain ⟨a, b, rfl⟩ := List.append_of_mem hr
  obtain ⟨-, hb, hab⟩ := List.pairwise_append.mp hsorted
  rw [h.after_of]
  refine ⟨fun n hn => ?_, fun w hw hrw => ?_⟩
  · have hmem := List.mem_of_head? hn
    exact ⟨List.rel_of_pairwise_cons hb hmem, by simp [hmem]⟩
  · have hmem : w ∈ b := by
      rcases List.mem_append.mp hw with hw | hw
      · exact absurd (hab w hw r (by simp)) hrw.asymm
      · exact (List.mem_cons.mp hw).resolve_left hrw.ne'
    cases b with
    | nil => exact absurd hmem List.not_mem_nil
    | cons n b =>
      refine ⟨n, rfl, ?_⟩
      rcases List.mem_cons.mp hmem with rfl | hmem
      · exact le_rfl
      · exact (List.rel_of_pairwise_cons hb.of_cons hmem).le

theorem Holds.ahead_first (h : s.Holds l) (hsorted : l.Pairwise (· < ·)) (hw : w ∈ l) :
    ∃ n ∈ s.after none, n ≤ w := by
  rw [h.first]
  cases l with
  | nil => exact absurd hw List.not_mem_nil
  | cons n l =>
    refine ⟨n, rfl, ?_⟩
    rcases List.mem_cons.mp hw with rfl | hw
    · exact le_rfl
    · exact (List.rel_of_pairwise_cons hsorted hw).le

theorem Frozen.unlink (hf : s.Frozen (a ++ x :: b) gone old) (h : s.Holds (a ++ x :: b))
    (hsorted : (a ++ x :: b).Pairwise (· < ·)) (hgone : ∀ r ∈ gone, r ∉ a ++ x :: b) :
    (s.unlink x).Frozen (a ++ b) (insert x gone) old := by
  -- the only link forward that is written is that of a record in the list
  have hafter : ∀ r, r = x ∨ r ∈ gone → (s.unlink x).after (some r) = s.after (some r) := by
    intro r hr
    refine Function.update_of_ne (fun heq => ?_) _ _
    rw [h.before_of] at heq
    have hmem : r ∈ a := List.mem_of_getLast? heq.symm
    rcases hr with rfl | hr
    · exact absurd rfl (ne_of_lt ((List.pairwise_append.mp hsorted).2.2 r hmem r (by simp)))
    · exact hgone r hr (List.mem_append_left _ hmem)
  have hmem : ∀ {n}, n ∈ a ++ x :: b → n ∈ a ++ b ∨ n ∈ insert x gone := by
    intro n hn
    rcases eq_or_ne n x with rfl | hne
    · exact .inr (Set.mem_insert _ _)
    · exact .inl (by simpa [hne] using hn)
  have hsub : ∀ {w}, w ∈ a ++ b → w ∈ a ++ x :: b := fun hw => by
    rcases List.mem_append.mp hw with hw | hw <;> simp [hw]
  intro r hr
  rw [hafter r hr]
  rcases hr with rfl | hr
  · obtain ⟨hnext, hahead⟩ := h.ahead hsorted (List.mem_append_right a List.mem_cons_self)
    exact ⟨fun n hn => ⟨(hnext n hn).1, hmem (hnext n hn).2⟩,
      fun w hw _ hrw => hahead w (hsub hw) hrw⟩
  · obtain ⟨hnext, hahead⟩ := hf r hr
    refine ⟨fun n hn => ⟨(hnext n hn).1, ?_⟩, fun w hw => hahead w (hsub hw)⟩
    rcases (hnext n hn).2 with hn | hn
    · exact hmem hn
    · exact .inr (Set.mem_insert_of_mem _ hn)

theorem Frozen.link_last (hf : s.Frozen l gone old) (h : s.Holds l)
    (hgone : ∀ r ∈ gone, r ∉ l) (hnew : x ∉ old) (hfresh : x ∉ gone) :
    (s.link (s.before none) x).Frozen (l ++ [x]) gone old := by
  intro r hr
  have hafter : (s.link (s.before none) x).after (some r) = s.after (some r) := by
    have hlast : some r ≠ s.before none := by
      rw [h.last]
      exact fun heq => hgone r hr (List.mem_of_getLast? heq.symm)
    have hne : some r ≠ some x := fun heq => hfresh (Option.some.inj heq ▸ hr)
    rw [Links.link]
    dsimp only
    rw [Function.update_of_ne hne, Function.update_of_ne hlast]
  obtain ⟨hnext, hahead⟩ := hf r hr
  rw [hafter]
  refine ⟨fun n hn => ⟨(hnext n hn).1, (hnext n hn).2.imp_left (List.mem_append_left _)⟩,
    fun w hw hold => ?_⟩
  rcases List.mem_append.mp hw with hw | hw
  · exact hahead w hw hold
  · exact absurd (List.mem_singleton.mp hw ▸ hold) hnew

end Frozen

end Links

end JavaFx.Lib
