/-
What `nextAdd` and `nextRemove` do to the pending add/remove sub-changes.

Each branch of the code is one of seven ways to change a sub-change list around
a position, and each of them keeps `Tracks`. The branches are chosen by looking
at the last sub-change and then by a binary search; two of the choices go wrong
in the source, and `RemoveClean` is the condition under which they do not:

* the look at the last sub-change takes a removal directly in front of it
  without asking whether an earlier sub-change reaches up to that very place;
* a sub-change that a removal leaves with nothing is deleted, and the loop that
  moves the later ones then starts one too far.

After a permutation sub-changes can also carry a `null` list of removed
elements; `receiver` is the sub-change whose list a removal is entered in.
-/
import JavaFx.Collections.ListChangeTracks

set_option autoImplicit false

namespace JavaFx.ListChangeBuilder

open JavaFx.Lib

variable {E : Type}

section Lists

variable {c₁ c₂ c₃ A : List E} {x : E}

/-- An element of the middle one of three lists cuts that list in two. -/
theorem cut_middle {d₁ d₂ : List E} (h : d₁ ++ x :: d₂ = c₁ ++ (A ++ c₃))
    (hlo : c₁.length ≤ d₁.length) (hhi : d₁.length < c₁.length + A.length) :
    ∃ A₁ A₂, A = A₁ ++ x :: A₂ ∧ d₁ = c₁ ++ A₁ ∧ d₂ = A₂ ++ c₃ := by
  rcases List.append_eq_append_iff.mp h with ⟨l, rfl, hl⟩ | ⟨l, rfl, hl⟩
  · -- `c₁` reaches beyond `d₁` by `l`, which is then empty
    have hl0 : l = [] := List.length_eq_zero_iff.mp (by rw [List.length_append] at hlo; omega)
    subst hl0
    cases A with
    | nil => simp at hhi
    | cons a A =>
      simp only [List.nil_append, List.cons_append, List.cons.injEq] at hl
      obtain ⟨rfl, rfl⟩ := hl
      exact ⟨[], A, rfl, by simp, rfl⟩
  · rcases List.append_eq_append_iff.mp hl with ⟨m, rfl, hm⟩ | ⟨m, rfl, hm⟩
    · rw [List.length_append, List.length_append] at hhi
      omega
    · cases m with
      | nil => simp at hhi
      | cons y m =>
        simp only [List.cons_append, List.cons.injEq] at hm
        obtain ⟨rfl, rfl⟩ := hm
        exact ⟨l, m, rfl, rfl, rfl⟩

/-- A position in the middle one of three lists cuts that list in two. -/
theorem cut_middle' {d₁ d₂ : List E} (h : d₁ ++ d₂ = c₁ ++ (A ++ c₃))
    (hlo : c₁.length ≤ d₁.length) (hhi : d₁.length ≤ c₁.length + A.length) :
    ∃ A₁ A₂, A = A₁ ++ A₂ ∧ d₁ = c₁ ++ A₁ ∧ d₂ = A₂ ++ c₃ := by
  rcases List.append_eq_append_iff.mp h with ⟨l, rfl, hl⟩ | ⟨l, rfl, hl⟩
  · have hl0 : l = [] := List.length_eq_zero_iff.mp (by rw [List.length_append] at hlo; omega)
    subst hl0
    exact ⟨[], A, rfl, by simp, by simpa using hl⟩
  · rcases List.append_eq_append_iff.mp hl with ⟨m, rfl, hm⟩ | ⟨m, rfl, hm⟩
    · have hm0 : m = [] := List.length_eq_zero_iff.mp (by
        rw [List.length_append, List.length_append] at hhi; omega)
      subst hm0
      exact ⟨A, [], by simp, by simp, by simpa using hm.symm⟩
    · exact ⟨l, m, rfl, rfl, hm⟩

end Lists

namespace Tracks

variable {p : ℕ} {orig o₁ o₂ c₁ c₂ : List E} {x : E} {prev next change : SubChange E}
  {pre post : List (SubChange E)}

/-! ## The seven ways -/

/-- The piece up to the end of its last sub-change has nothing behind it. -/
theorem last (h : Tracks 0 o₁ c₁ (pre ++ [prev])) (hto : prev.toIdx = c₁.length) :
    ∃ o c A, o₁ = o ++ prev.removed.getD [] ∧ c₁ = c ++ A ∧ prev.fromIdx = (c.length : ℕ)
      ∧ Tracks 0 o c pre := by
  obtain ⟨o, c, A, o', c', rfl, rfl, hfrom, hto', hpre, hpost⟩ := h.around
  rw [hto] at hto'
  have hc' : c' = [] := by
    refine List.length_eq_zero_iff.mp ?_
    simp only [List.length_append] at hto'
    omega
  subst hc'
  obtain rfl := hpost.eq_of_nil
  exact ⟨o, c, A, by simp, by simp, by simpa using hfrom, hpre⟩

/-- A position outside every sub-change is one of a kept element. -/
theorem outside (h : Tracks 0 orig (c₁ ++ x :: c₂) (pre ++ post)) (hp : c₁.length = p)
    (hpre : ∀ c ∈ pre, c.toIdx ≤ p) (hpost : ∀ c ∈ post, (p : ℤ) < c.fromIdx) :
    ∃ o₁ o₂, orig = o₁ ++ x :: o₂ ∧ Tracks 0 o₁ c₁ pre ∧ Tracks (p + 1) o₂ c₂ post := by
  obtain ⟨o₁, d₁, o₂, d₂, rfl, hcur, hlen, h₁, h₂⟩ :=
    h.split (p := p) (by omega) (by simp [hp]) hpre (fun c hc => le_of_lt (hpost c hc))
  obtain ⟨rfl, rfl⟩ := List.append_inj hcur (by omega)
  obtain ⟨o₃, d₃, o₄, d₄, rfl, hx, hlen', h₃, h₄⟩ :=
    (show Tracks p o₂ (x :: c₂) ([] ++ post) from h₂).split (p := p + 1) (by omega) (by simp)
      (by simp)
      (fun c hc => by have := hpost c hc; push_cast; omega)
  obtain ⟨y, rfl⟩ := List.length_eq_one_iff.mp (by omega : d₃.length = 1)
  simp only [List.singleton_append, List.cons.injEq] at hx
  obtain ⟨rfl, rfl⟩ := hx
  obtain rfl := h₃.eq_of_nil
  exact ⟨o₁, o₄, by simp, h₁, h₄⟩

/-- `nextRemove`: the removal is a sub-change of its own. -/
theorem removeNew (h₁ : Tracks 0 o₁ c₁ pre) (h₂ : Tracks (p + 1) o₂ c₂ post)
    (hp : c₁.length = p) :
    Tracks 0 (o₁ ++ x :: o₂) (c₁ ++ c₂)
      (pre ++ ⟨p, p, some [x], [], false⟩ :: post.map (SubChange.shift (-1))) :=
  h₁.paste (c := ⟨p, p, some [x], [], false⟩) (R := [x]) (A := []) (by simp [hp])
    (by simp [hp]) rfl ⟨rfl, rfl⟩ (h₂.shift (-1) (by simp [hp]))

/-- `nextRemove`: the removal is entered at the end of a list of removed elements. -/
theorem removeAtEnd {r : List E} (h₁ : Tracks 0 o₁ c₁ (pre ++ [prev]))
    (h₂ : Tracks (p + 1) o₂ c₂ post) (hp : c₁.length = p) (hto : prev.toIdx = p)
    (hr : prev.removed = some r) (hkind : prev.perm = [] ∧ prev.updated = false) :
    Tracks 0 (o₁ ++ x :: o₂) (c₁ ++ c₂)
      (pre ++ { prev with removed := some (r ++ [x]) } :: post.map (SubChange.shift (-1))) := by
  obtain ⟨o, c, A, rfl, rfl, hfrom, hpre⟩ := h₁.last (by rw [hto, hp])
  rw [List.length_append] at hp
  have := hpre.paste (c := { prev with removed := some (r ++ [x]) }) (R := r ++ [x]) (A := A)
    (by simpa using hfrom) (by simp only [hto, Nat.zero_add]; omega) rfl hkind
    (h₂.shift (-1) (by push_cast; omega))
  simpa [hr] using this

/-- `nextRemove`: the removal is entered at the front of a list of removed elements. -/
theorem removeAtFront {r : List E} (h₁ : Tracks 0 o₁ c₁ pre)
    (h₂ : Tracks (p + 1) o₂ c₂ (next :: post)) (hp : c₁.length = p)
    (hfrom : next.fromIdx = p + 1) (hr : next.removed = some r)
    (hkind : next.perm = [] ∧ next.updated = false) :
    Tracks 0 (o₁ ++ x :: o₂) (c₁ ++ c₂)
      (pre ++ { next.shift (-1) with removed := some (x :: r) }
        :: post.map (SubChange.shift (-1))) := by
  obtain ⟨A, o₃, c₃, rfl, rfl, hto, h₃⟩ := h₂.head (by rw [hfrom]; push_cast; rfl)
  have := h₁.paste (c := { next.shift (-1) with removed := some (x :: r) }) (R := x :: r)
    (A := A) (by simp only [SubChange.shift]; omega) (by simp only [SubChange.shift, hto]; omega) rfl
    hkind (h₃.shift (-1) (by push_cast; omega))
  simpa [hr] using this

/-- `nextRemove`: an element added before is taken back. -/
theorem removeInside (h : Tracks 0 orig (c₁ ++ x :: c₂) (pre ++ change :: post))
    (hp : c₁.length = p) (hfrom : change.fromIdx ≤ p) (hto : p < change.toIdx)
    (hkind : change.perm = [] ∧ change.updated = false) :
    Tracks 0 orig (c₁ ++ c₂)
      (pre ++ { change with toIdx := change.toIdx - 1 } :: post.map (SubChange.shift (-1))) := by
  obtain ⟨o₁, d₁, A, o₂, d₂, rfl, hcur, hfrom', hto', h₁, h₂⟩ := h.around
  obtain ⟨A₁, A₂, rfl, rfl, rfl⟩ := cut_middle hcur (by omega) (by omega)
  simp only [List.length_append, List.length_cons] at hto' h₂
  have := h₁.paste (c := { change with toIdx := change.toIdx - 1 })
    (R := change.removed.getD []) (A := A₁ ++ A₂) (by simpa using hfrom')
    (by simp only [List.length_append, hto']; omega) rfl hkind
    (h₂.shift (-1) (by simp only [List.length_append]; omega))
  simpa using this

/-- `nextAdd`: the added range is a sub-change of its own. -/
theorem addNew (xs : List E) (h₁ : Tracks 0 o₁ c₁ pre) (h₂ : Tracks p o₂ c₂ post)
    (hp : c₁.length = p) :
    Tracks 0 (o₁ ++ o₂) (c₁ ++ (xs ++ c₂))
      (pre ++ ⟨p, p + xs.length, some [], [], false⟩
        :: post.map (SubChange.shift xs.length)) := by
  simpa using h₁.paste (c := ⟨p, p + xs.length, some [], [], false⟩) (R := []) (A := xs)
    (by simp [hp]) (by simp [hp]) rfl ⟨rfl, rfl⟩
    (h₂.shift xs.length (by simp [hp]))

/-- `nextAdd`: a sub-change ends where the range is added. -/
theorem addAtEnd (xs : List E) (h₁ : Tracks 0 o₁ c₁ (pre ++ [prev])) (h₂ : Tracks p o₂ c₂ post)
    (hp : c₁.length = p) (hto : prev.toIdx = p) (hkind : prev.perm = [] ∧ prev.updated = false) :
    Tracks 0 (o₁ ++ o₂) (c₁ ++ (xs ++ c₂))
      (pre ++ { prev with toIdx := p + xs.length } :: post.map (SubChange.shift xs.length)) := by
  obtain ⟨o, c, A, rfl, rfl, hfrom, hpre⟩ := h₁.last (by rw [hto, hp])
  rw [List.length_append] at hp
  have := hpre.paste (c := { prev with toIdx := p + xs.length }) (R := prev.removed.getD [])
    (A := A ++ xs) (by simpa using hfrom) (by simp only [List.length_append]; omega) rfl hkind
    (h₂.shift xs.length (by simp only [List.length_append]; omega))
  simpa using this

/-- `nextAdd`: the range is added inside a sub-change. -/
theorem addInside (xs : List E) (h : Tracks 0 orig (c₁ ++ c₂) (pre ++ change :: post))
    (hp : c₁.length = p) (hfrom : change.fromIdx ≤ p) (hto : p ≤ change.toIdx)
    (hkind : change.perm = [] ∧ change.updated = false) :
    Tracks 0 orig (c₁ ++ (xs ++ c₂))
      (pre ++ { change with toIdx := change.toIdx + xs.length }
        :: post.map (SubChange.shift xs.length)) := by
  obtain ⟨o₁, d₁, A, o₂, d₂, rfl, hcur, hfrom', hto', h₁, h₂⟩ := h.around
  obtain ⟨A₁, A₂, rfl, rfl, rfl⟩ := cut_middle' hcur (by omega) (by omega)
  simp only [List.length_append] at hto' h₂
  have := h₁.paste (c := { change with toIdx := change.toIdx + xs.length })
    (R := change.removed.getD []) (A := A₁ ++ (xs ++ A₂)) (by simpa using hfrom')
    (by simp only [List.length_append, hto']; omega) rfl hkind
    (h₂.shift xs.length (by simp only [List.length_append]; omega))
  simpa using this

end Tracks

/-! ## `nextRemove` -/

section Remove

/-- The sub-change in whose list of removed elements a removal at `idx` is
entered, if it is entered in one that exists: the last one if the removal
touches it, else the neighbour the search finds. -/
def receiver (cs : List (SubChange E)) (idx : ℤ) : Option (SubChange E) :=
  let i := findSubChange idx cs
  cs.getLast?.filter (fun c => c.toIdx = idx ∨ c.fromIdx = idx + 1)
    <|> if i < 0 then
      (beforeIdx i cs).getLast?.filter (fun c => c.toIdx = idx)
        <|> (afterIdx i cs).head?.filter (fun c => c.fromIdx = idx + 1)
    else none

/-- The two wrong branches of `nextRemove` are not taken: a removal directly in
front of the last sub-change finds no earlier one that reaches up to there, and
no sub-change but the last is left with nothing. -/
structure RemoveClean (cs : List (SubChange E)) (idx : ℤ) : Prop where
  notOvertaking : ∀ last ∈ cs.getLast?, last.fromIdx = idx + 1 →
    ∀ c ∈ cs.dropLast, c.toIdx ≤ idx
  notEmptying : ∀ c ∈ cs.dropLast, c.fromIdx = idx → c.toIdx = idx + 1 → c.hasNoRemoved = false

/-- No sub-change has a `null` list of removed elements. -/
def AllRecorded (cs : List (SubChange E)) : Prop := ∀ c ∈ cs, c.removed ≠ none

variable {p : ℕ} {orig c₁ c₂ : List E} {x : E} {cs before after : List (SubChange E)}

@[simp] theorem allRecorded_nil : AllRecorded ([] : List (SubChange E)) := by
  simp [AllRecorded]

@[simp] theorem allRecorded_cons {c : SubChange E} :
    AllRecorded (c :: cs) ↔ c.removed ≠ none ∧ AllRecorded cs := by
  simp [AllRecorded]

@[simp] theorem allRecorded_append :
    AllRecorded (before ++ after) ↔ AllRecorded before ∧ AllRecorded after := by
  simp only [AllRecorded, List.mem_append]
  exact ⟨fun h => ⟨fun c hc => h c (.inl hc), fun c hc => h c (.inr hc)⟩,
    fun h c hc => hc.elim (h.1 c) (h.2 c)⟩

@[simp] theorem allRecorded_shift {delta : ℤ} :
    AllRecorded (cs.map (SubChange.shift delta)) ↔ AllRecorded cs := by
  simp [AllRecorded, SubChange.shift]

theorem receiver_mem {idx : ℤ} {c : SubChange E} (h : receiver cs idx = some c) : c ∈ cs := by
  simp only [receiver, Option.orElse_eq_some, Option.filter_eq_some_iff] at h
  rcases h with h | ⟨-, h⟩
  · exact List.mem_of_getLast? h.1
  · split_ifs at h
    simp only [Option.orElse_eq_some, Option.filter_eq_some_iff] at h
    rcases h with h | ⟨-, h⟩
    · exact List.mem_of_mem_take (List.mem_of_getLast? h.1)
    · exact List.mem_of_mem_drop (List.mem_of_mem_head? h.1)

theorem insertRemovedOutside_tracks
    (h : Tracks 0 orig (c₁ ++ x :: c₂) (before ++ after)) (hp : c₁.length = p)
    (hbefore : ∀ c ∈ before, c.toIdx ≤ p) (hafter : ∀ c ∈ after, (p : ℤ) < c.fromIdx)
    (hprev : ∀ prev, before.getLast? = some prev → prev.toIdx = p → prev.removed ≠ none)
    (hnext : (∀ prev, before.getLast? = some prev → prev.toIdx ≠ p) →
      ∀ next, after.head? = some next → next.fromIdx = p + 1 → next.removed ≠ none) :
    ∃ cs', insertRemovedOutside before after p x = .ok cs' ∧ Tracks 0 orig (c₁ ++ c₂) cs'
      ∧ (AllRecorded (before ++ after) → AllRecorded cs') := by
  have hkind := h.kind
  obtain ⟨o₁, o₂, rfl, h₁, h₂⟩ := h.outside hp hbefore hafter
  have hfront (hprev' : ∀ prev, before.getLast? = some prev → prev.toIdx ≠ p) :
      ∃ cs', insertRemovedOutside.insertInFront before after p x = .ok cs'
        ∧ Tracks 0 (o₁ ++ x :: o₂) (c₁ ++ c₂) cs'
        ∧ (AllRecorded (before ++ after) → AllRecorded cs') := by
    cases after with
    | nil => exact ⟨_, rfl, by simpa using h₁.removeNew h₂ hp, by simp⟩
    | cons next rest =>
      by_cases hfrom : next.fromIdx = p + 1
      · obtain ⟨r, hr⟩ := Option.ne_none_iff_exists'.mp (hnext hprev' next rfl hfrom)
        refine ⟨_, ?_, h₁.removeAtFront h₂ hp hfrom hr (hkind next (by simp)), ?_⟩
        · simp [insertRemovedOutside.insertInFront, hfrom, SubChange.removedAddFirst, hr]
        · simp +contextual
      · refine ⟨_, ?_, h₁.removeNew h₂ hp, ?_⟩
        · simp [insertRemovedOutside.insertInFront, hfrom]
        · simp +contextual [-List.map_cons]
  unfold insertRemovedOutside
  cases hlast : before.getLast? with
  | none => exact hfront (by simp [hlast])
  | some prev =>
    by_cases hto : prev.toIdx = p
    · obtain ⟨r, hr⟩ := Option.ne_none_iff_exists'.mp (hprev prev hlast hto)
      obtain ⟨pre, rfl⟩ := List.getLast?_eq_some_iff.mp hlast
      refine ⟨_, ?_, h₁.removeAtEnd h₂ hp hto hr (hkind prev (by simp)), ?_⟩
      · simp [hto, SubChange.removedAdd, hr]
      · simp +contextual
    · simp only [hto, if_false]
      exact hfront (by simpa [hlast] using hto)

theorem insertRemovedInside_eq (change : SubChange E) :
    insertRemovedInside before change after
      = if change.fromIdx = change.toIdx - 1 ∧ change.hasNoRemoved then
          before ++ (after.take 1 ++ (after.drop 1).map (SubChange.shift (-1)))
        else before ++ { change with toIdx := change.toIdx - 1 }
          :: after.map (SubChange.shift (-1)) := rfl

/-- A removal inside a sub-change keeps the relation, unless it deletes a
sub-change that is not the last. -/
theorem insertRemovedInside_tracks {change : SubChange E}
    (h : Tracks 0 orig (c₁ ++ x :: c₂) (before ++ change :: after)) (hp : c₁.length = p)
    (hfrom : change.fromIdx ≤ p) (hto : p < change.toIdx)
    (hemptying : after ≠ [] → change.fromIdx = p → change.toIdx = p + 1 →
      change.hasNoRemoved = false) :
    Tracks 0 orig (c₁ ++ c₂) (insertRemovedInside before change after)
      ∧ (AllRecorded (before ++ change :: after)
        → AllRecorded (insertRemovedInside before change after)) := by
  have hkind := h.kind change (by simp)
  have hnew := h.removeInside hp hfrom hto hkind
  rw [insertRemovedInside_eq]
  by_cases hdel : change.fromIdx = change.toIdx - 1 ∧ change.hasNoRemoved = true
  · rw [if_pos hdel]
    have hnil : after = [] := by
      by_contra hne
      have := hemptying hne (by omega) (by omega)
      rw [hdel.2] at this
      cases this
    subst hnil
    simp only [SubChange.hasNoRemoved, List.isEmpty_iff] at hdel
    exact ⟨by simpa using hnew.dropEmpty hdel.1 hdel.2, by simp +contextual⟩
  · rw [if_neg hdel]
    exact ⟨hnew, by simp +contextual⟩

/-- A removal directly in front of the last sub-change. -/
theorem removeInFrontOfLast_tracks {pre : List (SubChange E)} {last : SubChange E}
    (h : Tracks 0 orig (c₁ ++ x :: c₂) (pre ++ [last])) (hp : c₁.length = p)
    (hfrom : last.fromIdx = p + 1) (hpre : ∀ c ∈ pre, c.toIdx ≤ p) {r : List E}
    (hr : last.removed = some r) :
    Tracks 0 orig (c₁ ++ c₂)
      (pre ++ [{ last.shift (-1) with removed := some (x :: r) }]) := by
  have hkind := h.kind last (by simp)
  obtain ⟨o₁, o₂, rfl, h₁, h₂⟩ := h.outside hp hpre (by simp [hfrom])
  exact h₁.removeAtFront h₂ hp hfrom hr hkind

/-- A removal directly behind the last sub-change. -/
theorem removeBehindLast_tracks {pre : List (SubChange E)} {last : SubChange E}
    (h : Tracks 0 orig (c₁ ++ x :: c₂) (pre ++ [last])) (hp : c₁.length = p)
    (hto : last.toIdx = p) {r : List E} (hr : last.removed = some r) :
    Tracks 0 orig (c₁ ++ c₂) (pre ++ [{ last with removed := some (r ++ [x]) }]) := by
  have hkind := h.kind last (by simp)
  have hord := h.inOrder
  have hle : ∀ c ∈ pre ++ [last], c.toIdx ≤ p := by
    intro c hc
    rcases List.mem_append.mp hc with hc | hc
    · have := (List.pairwise_append.mp hord.2).2.2 c hc last (by simp)
      have := hord.1 last (by simp)
      omega
    · rw [List.mem_singleton.mp hc, hto]
  rw [← List.append_nil (pre ++ [last])] at h
  obtain ⟨o₁, o₂, rfl, h₁, h₂⟩ := h.outside hp hle (by simp)
  exact h₁.removeAtEnd h₂ hp hto hr hkind

/-- **`nextRemove` on the add/remove sub-changes.** When the removal is clean and
the sub-change it is entered in has a list to enter it in, the call succeeds and
the sub-changes still say how the list came about. -/
theorem removeAddRemove_tracks (h : Tracks 0 orig (c₁ ++ x :: c₂) cs) (hp : c₁.length = p)
    (hclean : RemoveClean cs p) (hrec : ∀ c, receiver cs p = some c → c.removed ≠ none) :
    ∃ cs', removeAddRemove cs p x = .ok cs' ∧ Tracks 0 orig (c₁ ++ c₂) cs'
      ∧ (AllRecorded cs → AllRecorded cs') := by
  have hinsert (hlast : cs.getLast?.filter
      (fun c => decide (c.toIdx = (p : ℤ) ∨ c.fromIdx = (p : ℤ) + 1)) = none) :
      ∃ cs', insertRemoved cs p x = .ok cs' ∧ Tracks 0 orig (c₁ ++ c₂) cs'
        ∧ (AllRecorded cs → AllRecorded cs') := by
    unfold insertRemoved
    simp only [receiver, hlast, Option.orElse_eq_orElse, Option.orElse_none] at hrec
    by_cases hneg : findSubChange p cs < 0
    · obtain ⟨before, after, hb, ha, hcs, hbefore, hafter⟩ :=
        findSubChange_outside h.inOrder hneg
      simp only [if_pos hneg, hb, ha] at hrec ⊢
      rw [hcs] at h ⊢
      refine insertRemovedOutside_tracks h hp hbefore hafter (fun prev hprev hto => ?_)
        (fun hprev next hnext hfrom => ?_)
      · exact hrec prev (by simp [hprev, hto])
      · exact hrec next (by simp [hnext, hfrom]; exact .inr hprev)
    · obtain ⟨before, change, rest, hb, ha, hcs, hfrom, hto⟩ :=
        findSubChange_inside h.inOrder hneg
      simp only [if_neg hneg, hb, ha]
      rw [hcs] at h hclean ⊢
      refine ⟨_, rfl, insertRemovedInside_tracks h hp hfrom hto (fun hne hf ht => ?_)⟩
      refine hclean.notEmptying change ?_ hf ht
      rw [List.dropLast_append_of_ne_nil (by simp), List.dropLast_cons_of_ne_nil hne]
      simp
  unfold removeAddRemove
  cases hlast : cs.getLast? with
  | none => exact hinsert (by simp [hlast])
  | some last =>
    obtain ⟨pre, rfl⟩ := List.getLast?_eq_some_iff.mp hlast
    by_cases hto : last.toIdx = p
    · obtain ⟨r, hr⟩ := Option.ne_none_iff_exists'.mp
        (hrec last (by simp [receiver, hto]))
      refine ⟨_, ?_, removeBehindLast_tracks h hp hto hr, ?_⟩
      · simp [hto, SubChange.removedAdd, hr]
      · simp +contextual
    · by_cases hfrom : last.fromIdx = p + 1
      · obtain ⟨r, hr⟩ := Option.ne_none_iff_exists'.mp
          (hrec last (by simp [receiver, hfrom]))
        have hpre : ∀ c ∈ pre, c.toIdx ≤ p := by
          simpa using hclean.notOvertaking last hlast hfrom
        refine ⟨_, ?_, removeInFrontOfLast_tracks h hp hfrom hpre hr, ?_⟩
        · simp [hto, hfrom, SubChange.removedAddFirst, hr]
        · simp +contextual
      · simp only [hto, hfrom, if_false]
        exact hinsert (by simp [hto, hfrom])

end Remove

/-! ## `nextAdd` -/

section Add

variable {p : ℕ} {orig c₁ c₂ : List E} {cs : List (SubChange E)}

theorem insertAdd_tracks (xs : List E) (h : Tracks 0 orig (c₁ ++ c₂) cs) (hp : c₁.length = p) :
    ∃ cs', insertAdd cs p (p + xs.length) = .ok cs' ∧ Tracks 0 orig (c₁ ++ (xs ++ c₂)) cs'
      ∧ (AllRecorded cs → AllRecorded cs') := by
  have hkind := h.kind
  unfold insertAdd
  simp only [add_sub_cancel_left]
  by_cases hneg : findSubChange p cs < 0
  · obtain ⟨before, after, hb, ha, hcs, hbefore, hafter⟩ :=
      findSubChange_outside h.inOrder hneg
    simp only [if_pos hneg, hb, ha]
    rw [hcs] at h hkind ⊢
    obtain ⟨o₁, d₁, o₂, d₂, rfl, hcur, hlen, h₁, h₂⟩ :=
      h.split (p := p) (by omega) (by simp [hp]) hbefore (fun c hc => le_of_lt (hafter c hc))
    obtain ⟨rfl, rfl⟩ := List.append_inj hcur (by omega)
    cases hlast : before.getLast? with
    | none =>
      obtain rfl : before = [] := List.getLast?_eq_none_iff.mp hlast
      exact ⟨_, rfl, h₁.addNew xs h₂ hp, by simp +contextual⟩
    | some prev =>
      by_cases hto : prev.toIdx = p
      · obtain ⟨pre, rfl⟩ := List.getLast?_eq_some_iff.mp hlast
        refine ⟨_, ?_, h₁.addAtEnd xs h₂ hp hto (hkind prev (by simp)), ?_⟩
        · simp [hto]
        · simp +contextual
      · refine ⟨_, ?_, h₁.addNew xs h₂ hp, by simp +contextual⟩
        simp [hto]
  · obtain ⟨before, change, rest, hb, ha, hcs, hfrom, hto⟩ :=
      findSubChange_inside h.inOrder hneg
    simp only [if_neg hneg, hb, ha]
    rw [hcs] at h hkind ⊢
    exact ⟨_, rfl, h.addInside xs hp hfrom (le_of_lt hto) (hkind change (by simp)),
      by simp +contextual⟩

/-- **`nextAdd` on the add/remove sub-changes.** The call always succeeds and the
sub-changes still say how the list came about. -/
theorem addAddRemove_tracks (xs : List E) (h : Tracks 0 orig (c₁ ++ c₂) cs)
    (hp : c₁.length = p) :
    ∃ cs', addAddRemove cs p (p + xs.length) = .ok cs' ∧ Tracks 0 orig (c₁ ++ (xs ++ c₂)) cs'
      ∧ (AllRecorded cs → AllRecorded cs') := by
  unfold addAddRemove
  cases hlast : cs.getLast? with
  | none => exact insertAdd_tracks xs h hp
  | some last =>
    obtain ⟨pre, rfl⟩ := List.getLast?_eq_some_iff.mp hlast
    have hkind := h.kind last (by simp)
    have hle := h.inOrder.1 last (by simp)
    by_cases hto : last.toIdx = p
    · have := h.addInside xs hp (by omega) (by omega) hkind
      refine ⟨_, ?_, by simpa [hto] using this, ?_⟩
      · simp [hto]
      · simp +contextual
    · by_cases hin : last.fromIdx ≤ p ∧ (p : ℤ) < last.toIdx
      · refine ⟨_, ?_, by simpa using h.addInside xs hp hin.1 (le_of_lt hin.2) hkind, ?_⟩
        · simp [hto, hin]
        · simp +contextual
      · simp only [hto, hin, if_false]
        exact insertAdd_tracks xs h hp

end Add

end JavaFx.ListChangeBuilder
