/-
What a list of pending add/remove sub-changes says about two lists.

`Tracks off orig cur cs` is the invariant of `addRemoveChanges`: reading the
list as it was (`orig`) and as it is (`cur`) side by side, both are the same
kept elements, and between them sub-change after sub-change says which elements
`orig` had there and how many elements `cur` has there instead. `off` is the
position in the current list at which the two are read from.

The relation is cut and pasted by the lemmas of the first half: it splits at
any position that no sub-change straddles, pieces are appended, and a piece
moves as a whole when its positions are shifted. The second half is the binary
search: `findSubChange` finds exactly such a position.
-/
import JavaFx.Collections.ListChangeBuilder

set_option autoImplicit false

namespace JavaFx.ListChangeBuilder

open JavaFx.Lib

variable {E : Type}

/-- `orig` became `cur` by the add/remove sub-changes `cs`, whose positions
count from `off`. -/
inductive Tracks : ℕ → List E → List E → List (SubChange E) → Prop
  | nil (off : ℕ) (K : List E) : Tracks off K K []
  | cons {off : ℕ} (K R A : List E) {orig cur : List E} {c : SubChange E}
      {cs : List (SubChange E)}
      (hfrom : c.fromIdx = (off + K.length : ℕ))
      (hto : c.toIdx = (off + K.length + A.length : ℕ))
      (hremoved : c.removed.getD [] = R)
      (hkind : c.perm = [] ∧ c.updated = false)
      (htail : Tracks (off + K.length + A.length) orig cur cs) :
      Tracks off (K ++ (R ++ orig)) (K ++ (A ++ cur)) (c :: cs)

/-- Sub-changes that stand one after the other. -/
def InOrder (cs : List (SubChange E)) : Prop :=
  (∀ c ∈ cs, c.fromIdx ≤ c.toIdx) ∧ cs.Pairwise (fun c d => c.toIdx ≤ d.fromIdx)

namespace Tracks

variable {off p : ℕ} {orig cur o₁ o₂ c₁ c₂ K : List E} {c : SubChange E}
  {cs pre post : List (SubChange E)}

/-! ## Pasting -/

/-- Kept elements in front. -/
theorem keep (h : Tracks (off + K.length) orig cur cs) : Tracks off (K ++ orig) (K ++ cur) cs := by
  cases h with
  | nil K' => exact .nil off _
  | cons K' R A hfrom hto hremoved hkind htail =>
    rw [← List.append_assoc K, ← List.append_assoc K]
    refine .cons (K ++ K') R A ?_ ?_ hremoved hkind ?_
    · rw [hfrom, List.length_append, Nat.add_assoc]
    · rw [hto, List.length_append, Nat.add_assoc off]
    · rwa [List.length_append, ← Nat.add_assoc off]

theorem append (h₁ : Tracks off o₁ c₁ pre) (h₂ : Tracks (off + c₁.length) o₂ c₂ post) :
    Tracks off (o₁ ++ o₂) (c₁ ++ c₂) (pre ++ post) := by
  induction h₁ with
  | nil off K => exact h₂.keep
  | cons K R A hfrom hto hremoved hkind _ ih =>
    simp only [List.append_assoc, List.cons_append]
    refine .cons K R A hfrom hto hremoved hkind (ih ?_)
    simpa only [List.length_append, Nat.add_assoc] using h₂

/-- One sub-change between two pieces. -/
theorem paste {R A : List E} (h₁ : Tracks off o₁ c₁ pre)
    (hfrom : c.fromIdx = (off + c₁.length : ℕ))
    (hto : c.toIdx = (off + c₁.length + A.length : ℕ)) (hremoved : c.removed.getD [] = R)
    (hkind : c.perm = [] ∧ c.updated = false)
    (h₂ : Tracks (off + c₁.length + A.length) o₂ c₂ post) :
    Tracks off (o₁ ++ (R ++ o₂)) (c₁ ++ (A ++ c₂)) (pre ++ c :: post) :=
  h₁.append (.cons [] R A (by simpa using hfrom) (by simpa using hto) hremoved hkind
    (by simpa using h₂))

/-- A piece moves as a whole. -/
theorem shift {off' : ℕ} (delta : ℤ) (h : Tracks off orig cur cs) (hd : (off' : ℤ) = off + delta) :
    Tracks off' orig cur (cs.map (SubChange.shift delta)) := by
  induction h generalizing off' with
  | nil off K => exact .nil off' K
  | cons K R A hfrom hto hremoved hkind _ ih =>
    refine .cons K R A ?_ ?_ hremoved hkind (ih ?_)
    · simp only [SubChange.shift, hfrom]
      push_cast
      omega
    · simp only [SubChange.shift, hto]
      push_cast
      omega
    · push_cast
      omega

/-! ## Cutting -/

/-- With no sub-changes nothing changed. -/
theorem eq_of_nil (h : Tracks off orig cur []) : orig = cur := by
  generalize hcs : ([] : List (SubChange E)) = cs at h
  cases h with
  | nil _ K => rfl
  | cons => cases hcs

theorem bounds (h : Tracks off orig cur cs) :
    ∀ c ∈ cs, (off : ℤ) ≤ c.fromIdx ∧ c.fromIdx ≤ c.toIdx
      ∧ c.toIdx ≤ (off + cur.length : ℕ) := by
  induction h with
  | nil off K => simp
  | @cons off K R A orig cur c cs hfrom hto _ _ _ ih =>
    intro d hd
    simp only [List.length_append]
    rcases List.mem_cons.mp hd with rfl | hd
    · omega
    · have := ih d hd
      omega

theorem kind (h : Tracks off orig cur cs) : ∀ c ∈ cs, c.perm = [] ∧ c.updated = false := by
  induction h with
  | nil off K => simp
  | cons K R A _ _ _ hkind _ ih =>
    intro d hd
    rcases List.mem_cons.mp hd with rfl | hd
    · exact hkind
    · exact ih d hd

theorem inOrder (h : Tracks off orig cur cs) : InOrder cs := by
  refine ⟨fun c hc => (h.bounds c hc).2.1, ?_⟩
  induction h with
  | nil off K => exact .nil
  | cons K R A hfrom hto _ _ htail ih =>
    refine List.pairwise_cons.mpr ⟨fun d hd => ?_, ih⟩
    rw [hto]
    exact (htail.bounds d hd).1

/-- The relation splits at every position that no sub-change straddles. -/
theorem split (h : Tracks off orig cur (pre ++ post)) (hoff : off ≤ p)
    (hp : p ≤ off + cur.length) (hpre : ∀ c ∈ pre, c.toIdx ≤ p) (hpost : ∀ c ∈ post, p ≤ c.fromIdx) :
    ∃ o₁ c₁ o₂ c₂, orig = o₁ ++ o₂ ∧ cur = c₁ ++ c₂ ∧ off + c₁.length = p
      ∧ Tracks off o₁ c₁ pre ∧ Tracks p o₂ c₂ post := by
  induction pre generalizing off orig cur with
  | nil =>
    rw [List.nil_append] at h
    cases h with
    | nil _ K =>
      have hlen : off + (orig.take (p - off)).length = p := by
        rw [List.length_take]
        omega
      exact ⟨orig.take (p - off), orig.take (p - off), orig.drop (p - off), orig.drop (p - off),
        (List.take_append_drop _ _).symm, (List.take_append_drop _ _).symm, hlen,
        .nil off _, .nil p _⟩
    | @cons _ K R A orig cur c cs hfrom hto hremoved hkind htail =>
      have hc := hpost c List.mem_cons_self
      have hK : off + (K.take (p - off)).length = p := by
        rw [List.length_take]
        omega
      have hK' : p + (K.drop (p - off)).length = off + K.length := by
        rw [List.length_drop]
        omega
      refine ⟨K.take (p - off), K.take (p - off), K.drop (p - off) ++ (R ++ orig),
        K.drop (p - off) ++ (A ++ cur), ?_, ?_, hK, .nil off _, ?_⟩
      · rw [← List.append_assoc (K.take _), List.take_append_drop]
      · rw [← List.append_assoc (K.take _), List.take_append_drop]
      · exact .cons _ R A (by rw [hfrom, hK']) (by rw [hto, hK']) hremoved hkind
          (by rwa [hK'])
  | cons d pre ih =>
    rw [List.cons_append] at h
    cases h with
    | @cons _ K R A orig cur c cs hfrom hto hremoved hkind htail =>
      have hd := hpre d List.mem_cons_self
      simp only [List.length_append] at hp
      obtain ⟨o₁, c₁, o₂, c₂, rfl, rfl, hlen, h₁, h₂⟩ :=
        ih htail (by omega) (by omega) (fun c hc => hpre c (List.mem_cons_of_mem _ hc))
      refine ⟨K ++ (R ++ o₁), K ++ (A ++ c₁), o₂, c₂, by simp, by simp, ?_,
        .cons K R A hfrom hto hremoved hkind h₁, h₂⟩
      simp only [List.length_append]
      omega

/-- A piece that begins with a sub-change, read from the sub-change's position. -/
theorem head (h : Tracks p orig cur (c :: cs)) (hfrom : c.fromIdx = p) :
    ∃ A o₂ c₂, orig = c.removed.getD [] ++ o₂ ∧ cur = A ++ c₂
      ∧ c.toIdx = (p + A.length : ℕ) ∧ Tracks (p + A.length) o₂ c₂ cs := by
  cases h with
  | @cons _ K R A orig cur c cs hfrom' hto hremoved hkind htail =>
    have hK : K = [] := List.length_eq_zero_iff.mp (by omega)
    subst hK
    exact ⟨A, orig, cur, by simp [hremoved], rfl, by simpa using hto, by simpa using htail⟩

/-- The relation splits around each of its sub-changes. -/
theorem around (h : Tracks off orig cur (pre ++ c :: post)) :
    ∃ o₁ c₁ A o₂ c₂, orig = o₁ ++ (c.removed.getD [] ++ o₂) ∧ cur = c₁ ++ (A ++ c₂)
      ∧ c.fromIdx = (off + c₁.length : ℕ) ∧ c.toIdx = (off + c₁.length + A.length : ℕ)
      ∧ Tracks off o₁ c₁ pre ∧ Tracks (off + c₁.length + A.length) o₂ c₂ post := by
  have hb := h.bounds c (by simp)
  obtain ⟨-, hord⟩ := h.inOrder
  obtain ⟨-, hpost, hcross⟩ := List.pairwise_append.mp hord
  rw [List.pairwise_cons] at hpost
  obtain ⟨p, hp⟩ : ∃ p : ℕ, c.fromIdx = p := ⟨c.fromIdx.toNat, by omega⟩
  have hlast : ∀ d ∈ c :: post, (p : ℤ) ≤ d.fromIdx := by
    intro d hd
    rcases List.mem_cons.mp hd with rfl | hd
    · omega
    · have := hpost.1 d hd
      omega
  obtain ⟨o₁, c₁, o₂, c₂, rfl, rfl, hlen, h₁, h₂⟩ :=
    h.split (p := p) (by omega) (by omega)
      (fun d hd => hp ▸ hcross d hd c List.mem_cons_self) hlast
  obtain ⟨A, o₃, c₃, rfl, rfl, hto, h₃⟩ := h₂.head hp
  subst hlen
  exact ⟨o₁, c₁, A, o₃, c₃, rfl, rfl, hp, hto, h₁, h₃⟩

/-- A sub-change that says nothing can be left out. -/
theorem dropEmpty (h : Tracks off orig cur (pre ++ c :: post)) (hc : c.fromIdx = c.toIdx)
    (hr : c.removed.getD [] = []) : Tracks off orig cur (pre ++ post) := by
  obtain ⟨o₁, c₁, A, o₂, c₂, rfl, rfl, hfrom, hto, h₁, h₂⟩ := h.around
  have hA : A = [] := List.length_eq_zero_iff.mp (by omega)
  subst hA
  rw [hr]
  exact h₁.append h₂

end Tracks

/-! ## `findSubChange` -/

section Find

variable {cs : List (SubChange E)} {p : ℤ}

/-- What the search says when it answers `idx`. -/
inductive Found (p : ℤ) (cs : List (SubChange E)) : ℤ → Prop
  | outside (i : ℕ) (hbefore : ∀ c ∈ cs.take i, c.toIdx ≤ p)
      (hafter : ∀ c ∈ cs.drop i, p < c.fromIdx) : Found p cs (compl i)
  | inside (i : ℕ) (c : SubChange E) (hc : cs[i]? = some c) (hfrom : c.fromIdx ≤ p)
      (hto : p < c.toIdx) : Found p cs i

theorem Found.of_bounds (lo hi : ℤ) (hlo : 0 ≤ lo) (hhi : hi + 1 = lo)
    (hbelow : ∀ j (hj : j < cs.length), (j : ℤ) < lo → cs[j].toIdx ≤ p)
    (habove : ∀ j (hj : j < cs.length), hi < (j : ℤ) → p < cs[j].fromIdx) :
    Found p cs (compl lo) := by
  obtain ⟨i, rfl⟩ : ∃ i : ℕ, lo = i := ⟨lo.toNat, by omega⟩
  refine .outside i (fun c hc => ?_) (fun c hc => ?_)
  · obtain ⟨j, hj, rfl⟩ := List.getElem_of_mem hc
    rw [List.length_take] at hj
    rw [List.getElem_take]
    exact hbelow j (by omega) (by omega)
  · obtain ⟨j, hj, rfl⟩ := List.getElem_of_mem hc
    rw [List.length_drop] at hj
    rw [List.getElem_drop]
    exact habove (i + j) (by omega) (by omega)

/-- The loop keeps: everything below `lo` ends by `p`, everything above `hi`
starts behind it. -/
theorem findSubChange.loop_found (h : InOrder cs) (fuel : ℕ) (lo hi : ℤ) (hlo : 0 ≤ lo)
    (hhi : hi < cs.length) (hle : lo ≤ hi + 1) (hfuel : hi - lo < fuel)
    (hbelow : ∀ j (hj : j < cs.length), (j : ℤ) < lo → cs[j].toIdx ≤ p)
    (habove : ∀ j (hj : j < cs.length), hi < (j : ℤ) → p < cs[j].fromIdx) :
    Found p cs (findSubChange.loop p cs fuel lo hi) := by
  induction fuel generalizing lo hi with
  | zero =>
    rw [findSubChange.loop]
    exact Found.of_bounds lo hi hlo (by omega) hbelow habove
  | succ fuel ih =>
    rw [findSubChange.loop]
    by_cases hlt : hi < lo
    · rw [if_neg (by omega)]
      exact Found.of_bounds lo hi hlo (by omega) hbelow habove
    · rw [if_pos (by omega)]
      obtain ⟨m, hm⟩ : ∃ m : ℕ, (lo + hi) / 2 = m := ⟨((lo + hi) / 2).toNat, by omega⟩
      have hmlen : m < cs.length := by omega
      simp only [hm, Int.toNat_natCast, List.getElem?_eq_getElem hmlen]
      have hself := h.1 _ (List.getElem_mem hmlen)
      split_ifs with hto hfrom
      · -- everything up to the middle one ends before the middle one does
        refine ih (m + 1) hi (by omega) hhi (by omega) (by omega) (fun j hj hjm => ?_) habove
        rcases Nat.lt_or_ge j m with hlt' | hge
        · have := List.pairwise_iff_getElem.mp h.2 j m hj hmlen hlt'
          omega
        · obtain rfl : j = m := by omega
          exact hto
      · -- everything from the middle one on starts behind where it starts
        refine ih lo (m - 1) hlo (by omega) (by omega) (by omega) hbelow (fun j hj hjm => ?_)
        rcases Nat.lt_or_ge m j with hlt' | hge
        · have := List.pairwise_iff_getElem.mp h.2 m j hmlen hj hlt'
          omega
        · obtain rfl : j = m := by omega
          exact hfrom
      · exact .inside m _ (List.getElem?_eq_getElem hmlen) (by omega) (by omega)

/-- The search answers with the sub-change around `p`, or with the place where
one would stand. -/
theorem findSubChange_found (h : InOrder cs) : Found p cs (findSubChange p cs) :=
  findSubChange.loop_found h _ _ _ le_rfl (by omega) (by omega) (by omega)
    (fun j _ hj => by omega) (fun j hj hj' => by omega)

/-- The search and the two halves of the list it cuts, for a position outside
every sub-change. -/
theorem findSubChange_outside (h : InOrder cs) (hneg : findSubChange p cs < 0) :
    ∃ before after, beforeIdx (findSubChange p cs) cs = before
      ∧ afterIdx (findSubChange p cs) cs = after ∧ cs = before ++ after
      ∧ (∀ c ∈ before, c.toIdx ≤ p) ∧ ∀ c ∈ after, p < c.fromIdx := by
  refine ⟨_, _, rfl, rfl, (List.take_append_drop _ _).symm, ?_⟩
  have hf := findSubChange_found (p := p) h
  generalize findSubChange p cs = idx at hf hneg
  cases hf with
  | outside i hbefore hafter =>
    simp only [beforeIdx, afterIdx, if_pos hneg, compl_compl, Int.toNat_natCast]
    exact ⟨hbefore, hafter⟩
  | inside i c _ _ _ => omega

/-- The same for a position inside a sub-change. -/
theorem findSubChange_inside (h : InOrder cs) (hneg : ¬ findSubChange p cs < 0) :
    ∃ before c rest, beforeIdx (findSubChange p cs) cs = before
      ∧ afterIdx (findSubChange p cs) cs = c :: rest ∧ cs = before ++ c :: rest
      ∧ c.fromIdx ≤ p ∧ p < c.toIdx := by
  have hf := findSubChange_found (p := p) h
  generalize findSubChange p cs = idx at hf hneg
  cases hf with
  | outside i _ _ =>
    have := (compl_neg_iff (i : ℤ)).mpr (by omega)
    omega
  | inside i c hc hfrom hto =>
    obtain ⟨hi, rfl⟩ := List.getElem?_eq_some_iff.mp hc
    simp only [beforeIdx, afterIdx, if_neg hneg, Int.toNat_natCast]
    refine ⟨_, _, _, rfl, List.drop_eq_getElem_cons hi, ?_, hfrom, hto⟩
    rw [← List.drop_eq_getElem_cons hi, List.take_append_drop]

end Find

end JavaFx.ListChangeBuilder
