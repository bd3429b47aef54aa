/-
`CascadingStyle.compareTo` against the contract of `Comparable`.

Styles are compared by importance, then by the origin of their stylesheet, then by
specificity and last by the order of declaration. Two things keep this from being an
order. A style of the property `-fx-skin` is greater than every style of another
property, but nothing makes the other style the smaller one: the test for the property
is made on one side only. And specificities and ordinals are compared by subtraction,
which goes round the circle of the 32-bit numbers.

`compareTo_consistent_iff` says for which styles the comparison is consistent.
-/
import JavaFx.Css.Stylesheet

set_option autoImplicit false

namespace JavaFx.Css

/-- The place of an origin in its enumeration. -/
def StyleOrigin.ordinal : StyleOrigin → ℤ
  | userAgent => 0
  | user => 1
  | author => 2
  | .inline => 3

/-- What a style asks its rule for: the origin of the stylesheet, if there is one. -/
structure StyleRule where
  origin : Option StyleOrigin

/-- `CascadingStyle`, with what it takes from its declaration. The constructor asks the
declaration for its property, so there is a declaration. -/
structure CascadingStyle where
  property : String
  important : Bool
  rule : Option StyleRule
  specificity : BitVec 32
  ordinal : BitVec 32

namespace CascadingStyle

/-- True if the property is `-fx-skin`. -/
def skinProp (style : CascadingStyle) : Bool := style.property = "-fx-skin"

/-- The origin of the rule, `none` for `null`. -/
def source (style : CascadingStyle) : Option StyleOrigin := style.rule.bind StyleRule.origin

/-- Two sources that are not the same: none comes first, and the later origins before the
earlier ones. -/
def compareSource : Option StyleOrigin → Option StyleOrigin → ℤ
  | none, _ => -1
  | some _, none => 1
  | some source, some otherSource => otherSource.ordinal - source.ordinal

/-- `compareTo`. -/
def compareTo (this other : CascadingStyle) : ℤ :=
  let c :=
    -- there is no branch for `other.skinProp && !this.skinProp`
    if this.skinProp && !other.skinProp then 1
    else if this.important ≠ other.important then (if this.important then -1 else 1)
    else if this.source ≠ other.source then compareSource this.source other.source
    else (other.specificity - this.specificity).toInt
  if c = 0 then (other.ordinal - this.ordinal).toInt else c

/-! ## The criteria -/

/-- The place of a source among the five. -/
def rank : Option StyleOrigin → ℕ
  | none => 0
  | some .inline => 1
  | some .author => 2
  | some .user => 3
  | some .userAgent => 4

/-- Importance and origin together: the smaller one comes first. -/
def level (style : CascadingStyle) : ℕ :=
  (if style.important then 0 else 5) + rank style.source

/-- How far one counts down from `x` to `y` on the circle of the 32-bit numbers. -/
def down (x y : BitVec 32) : ℕ := (x - y).toNat

/-- The way down from `x` to `y` is no longer than the way up. -/
def Above (x y : BitVec 32) : Prop := 0 < down x y ∧ down x y ≤ 2 ^ 31

/-- The way down from `x` to `y` is as long as the way up. -/
def Opposite (x y : BitVec 32) : Prop := down x y = 2 ^ 31

/-- From `x` down to `y` and on down to `z` is more than half of the circle. -/
def GoesRound (x y z : BitVec 32) : Prop :=
  Above x y ∧ Above y z ∧ 2 ^ 31 < down x y + down y z ∧ down x y + down y z < 2 ^ 32

/-- `a` comes before `b` by importance, origin, specificity and order of declaration. -/
def Precedes (a b : CascadingStyle) : Prop :=
  a.level < b.level ∨ a.level = b.level ∧
    (Above a.specificity b.specificity
      ∨ a.specificity = b.specificity ∧ Above a.ordinal b.ordinal)

/-- The numbers that decide between two styles, if numbers do, are opposite ones. -/
def Undecided (a b : CascadingStyle) : Prop :=
  a.level = b.level ∧
    (Opposite a.specificity b.specificity
      ∨ a.specificity = b.specificity ∧ Opposite a.ordinal b.ordinal)

/-- The numbers that decide between three styles of one level lead back from the third to
the first one. -/
def Circular (a b c : CascadingStyle) : Prop :=
  a.level = b.level ∧ b.level = c.level ∧
    (GoesRound a.specificity b.specificity c.specificity
      ∨ (a.specificity = b.specificity ∧ b.specificity = c.specificity
          ∧ GoesRound a.ordinal b.ordinal c.ordinal)
      ∨ (a.specificity = c.specificity ∧ Opposite a.specificity b.specificity
          ∧ a.ordinal ≠ c.ordinal ∧ ¬ Above a.ordinal c.ordinal))

/-- What `Comparable` asks of the comparison of three styles. -/
def Consistent (a b c : CascadingStyle) : Prop :=
  (a.compareTo b).sign = -(b.compareTo a).sign
    ∧ (a.compareTo b ≤ 0 → b.compareTo c ≤ 0 → a.compareTo c ≤ 0)

/-- The numbers decide between the two styles, if numbers do; and if just one of them is
a style of `-fx-skin`, this one comes last by the criteria as well. -/
def Settled (a b : CascadingStyle) : Prop :=
  (a.skinProp = b.skinProp ∧ ¬ Undecided a b)
    ∨ (a.skinProp = true ∧ b.skinProp = false ∧ Precedes b a)
    ∨ (a.skinProp = false ∧ b.skinProp = true ∧ Precedes a b)

/-! ## Counting down -/

variable {x y z : BitVec 32}

theorem down_lt (x y : BitVec 32) : down x y < 2 ^ 32 := (x - y).isLt

theorem down_eq_zero : down x y = 0 ↔ x = y := by
  rw [down]
  bv_omega

theorem down_add (x y z : BitVec 32) : down x z = (down x y + down y z) % 2 ^ 32 := by
  have hsub : x - z = (x - y) + (y - z) := by bv_omega
  rw [down, hsub, BitVec.toNat_add, down, down]

/-- Down and up again is once round the circle. -/
theorem down_symm (x y : BitVec 32) : (down x y + down y x) % 2 ^ 32 = 0 := by
  rw [← down_add, down_eq_zero]

theorem sub_toInt_neg : (y - x).toInt < 0 ↔ Above x y := by
  have hsymm := down_symm x y
  have hx := down_lt x y
  have hy := down_lt y x
  rw [BitVec.toInt_eq_toNat_cond]
  change (if 2 * down y x < 2 ^ 32 then (down y x : ℤ) else (down y x : ℤ) - (2 ^ 32 : ℕ)) < 0
    ↔ 0 < down x y ∧ down x y ≤ 2 ^ 31
  split_ifs <;> omega

theorem sub_toInt_eq_zero : (y - x).toInt = 0 ↔ x = y := by
  rw [← BitVec.toInt_zero, BitVec.toInt_inj]
  bv_omega

/-! ## The sign of the comparison -/

variable {a b c : CascadingStyle}

theorem rank_lt (source : Option StyleOrigin) : rank source < 5 := by
  rcases source with _ | _ | _ | _ | _ <;> decide

theorem rank_injective : Function.Injective rank := by
  intro o o'
  rcases o with _ | _ | _ | _ | _ <;> rcases o' with _ | _ | _ | _ | _ <;> decide

theorem compareSource_neg : ∀ {o o' : Option StyleOrigin}, o ≠ o' →
    (compareSource o o' < 0 ↔ rank o < rank o') := by
  intro o o'
  rcases o with _ | _ | _ | _ | _ <;> rcases o' with _ | _ | _ | _ | _ <;> decide

theorem compareSource_ne_zero : ∀ {o o' : Option StyleOrigin}, o ≠ o' → compareSource o o' ≠ 0 := by
  intro o o'
  rcases o with _ | _ | _ | _ | _ <;> rcases o' with _ | _ | _ | _ | _ <;> decide

theorem level_eq_iff : a.level = b.level ↔ a.important = b.important ∧ a.source = b.source := by
  have ha := rank_lt a.source
  have hb := rank_lt b.source
  rw [level, level, ← rank_injective.eq_iff]
  cases a.important <;> cases b.important <;> simp <;> omega

/-- The two styles agree in all the criteria. -/
def Same (a b : CascadingStyle) : Prop :=
  a.level = b.level ∧ a.specificity = b.specificity ∧ a.ordinal = b.ordinal

/-- A style of `-fx-skin` is no smaller than one of another property; otherwise the
criteria decide. -/
theorem compareTo_sign (a b : CascadingStyle) :
    (a.compareTo b < 0 ↔ (a.skinProp → b.skinProp) ∧ Precedes a b)
      ∧ (a.compareTo b = 0 ↔ (a.skinProp → b.skinProp) ∧ Same a b) := by
  rw [compareTo]
  by_cases hskin : a.skinProp = true ∧ b.skinProp = false
  · simp [hskin.1, hskin.2]
  have hskin' : a.skinProp → b.skinProp := by
    cases ha : a.skinProp <;> cases hb : b.skinProp <;> simp_all
  have hnot : ¬ (a.skinProp && !b.skinProp) = true := by
    simpa using hskin'
  have ha := rank_lt a.source
  have hb := rank_lt b.source
  rw [if_neg hnot, and_iff_right hskin', and_iff_right hskin', Precedes, Same]
  by_cases himportant : a.important = b.important
  · rw [if_neg (not_not.mpr himportant)]
    by_cases hsource : a.source = b.source
    · -- the numbers decide
      have hlevel := level_eq_iff.mpr ⟨himportant, hsource⟩
      rw [if_neg (not_not.mpr hsource), hlevel]
      by_cases hspecificity : a.specificity = b.specificity
      · have hself : ¬ Above b.specificity b.specificity := fun h =>
          absurd (down_eq_zero.mpr rfl) h.1.ne'
        rw [if_pos (sub_toInt_eq_zero.mpr hspecificity), sub_toInt_neg, sub_toInt_eq_zero,
          hspecificity]
        simp [hself]
      · rw [if_neg (fun h => hspecificity (sub_toInt_eq_zero.mp h)), sub_toInt_neg,
          sub_toInt_eq_zero]
        simp [hspecificity]
    · -- the origins decide
      have hlevel : a.level ≠ b.level := fun h => hsource (level_eq_iff.mp h).2
      have hlt : a.level < b.level ↔ rank a.source < rank b.source := by
        rw [level, level, himportant, add_lt_add_iff_left]
      rw [if_pos hsource, if_neg (compareSource_ne_zero hsource), compareSource_neg hsource]
      simp [hlevel, hlt, compareSource_ne_zero hsource]
  · have hlevel : a.level ≠ b.level := fun h => himportant (level_eq_iff.mp h).1
    have hlt : a.level < b.level ↔ a.important = true := by
      rw [level, level]
      cases hi : a.important <;> cases hj : b.important <;> simp_all <;> omega
    rw [if_pos himportant]
    cases hi : a.important <;> simp [hlevel, hlt, hi]

theorem compareTo_nonpos (a b : CascadingStyle) :
    a.compareTo b ≤ 0 ↔ (a.skinProp → b.skinProp) ∧ (Precedes a b ∨ Same a b) := by
  rw [le_iff_lt_or_eq, (compareTo_sign a b).1, (compareTo_sign a b).2]
  tauto

/-! ## Antisymmetry -/

/-- Of two styles that differ, one is before the other and not the other way round,
unless opposite numbers decide. -/
theorem precedes_cases (a b : CascadingStyle) :
    (Same a b ∧ ¬ Precedes a b ∧ ¬ Precedes b a ∧ ¬ Undecided a b)
      ∨ (¬ Same a b ∧ Undecided a b ∧ Precedes a b ∧ Precedes b a)
      ∨ (¬ Same a b ∧ ¬ Undecided a b ∧ (Precedes a b ↔ ¬ Precedes b a)) := by
  have hs := down_symm a.specificity b.specificity
  have ho := down_symm a.ordinal b.ordinal
  have hs1 := down_lt a.specificity b.specificity
  have hs2 := down_lt b.specificity a.specificity
  have ho1 := down_lt a.ordinal b.ordinal
  have ho2 := down_lt b.ordinal a.ordinal
  simp only [Same, Precedes, Undecided, Above, Opposite, ← down_eq_zero]
  omega

theorem sign_eq_neg_sign {u v : ℤ} : u.sign = -v.sign ↔ (u < 0 ↔ ¬ v < 0 ∧ v ≠ 0)
    ∧ (u = 0 ↔ v = 0) := by
  rcases lt_trichotomy u 0 with hu | rfl | hu <;> rcases lt_trichotomy v 0 with hv | rfl | hv <;>
    simp_all [Int.sign_eq_neg_one_of_neg, Int.sign_eq_one_of_pos] <;> omega

theorem antisymmetric_iff (a b : CascadingStyle) :
    (a.compareTo b).sign = -(b.compareTo a).sign ↔ Settled a b := by
  have hsame : Same b a ↔ Same a b := by
    simp only [Same]
    grind
  rw [sign_eq_neg_sign, (compareTo_sign a b).1, (compareTo_sign a b).2, ne_eq,
    (compareTo_sign b a).1, (compareTo_sign b a).2, hsame, Settled]
  have hcases := precedes_cases a b
  cases ha : a.skinProp <;> cases hb : b.skinProp <;> simp <;> grind

/-! ## Transitivity -/

theorem not_above_self (x : BitVec 32) : ¬ Above x x := fun h =>
  absurd (down_eq_zero.mpr rfl) h.1.ne'

/-- Down from `x` to `y` and on to `z`, but not straight down to `z`. -/
theorem goesRound_iff : GoesRound x y z ↔ Above x y ∧ Above y z ∧ x ≠ z ∧ ¬ Above x z := by
  have hadd := down_add x y z
  have hxy := down_lt x y
  have hyz := down_lt y z
  simp only [GoesRound, Above, ne_eq, ← down_eq_zero]
  omega

theorem opposite_iff : Opposite x y ↔ Above x y ∧ Above y x := by
  have hsymm := down_symm x y
  have hxy := down_lt x y
  have hyx := down_lt y x
  simp only [Opposite, Above]
  omega

theorem level_le (h : Precedes a b ∨ Same a b) : a.level ≤ b.level := by
  rcases h with (h | h) | h
  · exact h.le
  · exact h.1.le
  · exact h.1.le

/-- Each before the next and yet not the first before the last: the numbers that decide
go round the circle. -/
theorem circular_iff (a b c : CascadingStyle) :
    (Precedes a b ∨ Same a b) ∧ (Precedes b c ∨ Same b c) ∧ ¬ (Precedes a c ∨ Same a c)
      ↔ Circular a b c := by
  by_cases hlevels : a.level = b.level ∧ b.level = c.level
  · -- the levels leave the decision to the numbers
    simp only [Precedes, Same, Circular, hlevels.1, hlevels.2, goesRound_iff, opposite_iff]
    by_cases hab : a.specificity = b.specificity <;> by_cases hbc : b.specificity = c.specificity
      <;> by_cases hac : a.specificity = c.specificity
    all_goals simp_all [not_above_self]
    all_goals grind
  · constructor
    · rintro ⟨hab, hbc, hac⟩
      have h1 := level_le hab
      have h2 := level_le hbc
      exact absurd (Or.inl (Or.inl (by omega))) hac
    · exact fun h => absurd ⟨h.1, h.2.1⟩ hlevels

/-- **The order of cascading styles.** The comparison is consistent on the styles whose
numbers do not go round the circle, as long as the styles of `-fx-skin` are the last ones
by the other criteria too. -/
theorem compareTo_consistent_iff (a b c : CascadingStyle) : Consistent a b c
    ↔ Settled a b ∧ ((a.skinProp → b.skinProp) → (b.skinProp → c.skinProp) → ¬ Circular a b c) := by
  rw [Consistent, antisymmetric_iff, compareTo_nonpos, compareTo_nonpos, compareTo_nonpos,
    ← circular_iff]
  tauto

/-- An important style of `-fx-skin` and a plain one of another property are each greater
than the other. -/
theorem compareTo_not_consistent : ¬ ∀ a b c : CascadingStyle, Consistent a b c := by
  intro h
  have hsign := (h ⟨"-fx-skin", true, none, 1, 1⟩ ⟨"-fx-fill", false, none, 1, 2⟩
    ⟨"-fx-fill", false, none, 1, 2⟩).1
  revert hsign
  decide

end CascadingStyle

end JavaFx.Css
