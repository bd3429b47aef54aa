/-
The arithmetic of `double` without rounding: numbers are exact, and an operation on
infinities, or a division by zero, gives what it gives in Java. There is one zero.
-/
import Mathlib.Algebra.Order.Floor.Ring
import Mathlib.Data.Rat.Floor
import Mathlib.Tactic.Linarith
import Mathlib.Tactic.NormNum

set_option autoImplicit false

namespace JavaFx.Lib

inductive ExactDouble
  | number (q : ℚ)
  | infinity (negative : Bool)
  | nan
  deriving DecidableEq, Repr

namespace ExactDouble

/-- The sign of a number as a factor of an infinity. -/
def isNegative (q : ℚ) : Bool := q < 0

/-- `Math.abs`. -/
def abs : ExactDouble → ExactDouble
  | number q => number |q|
  | infinity _ => infinity false
  | nan => nan

def mul : ExactDouble → ExactDouble → ExactDouble
  | number p, number q => number (p * q)
  | number p, infinity negative => if p = 0 then nan else infinity (isNegative p ^^ negative)
  | infinity negative, number q => if q = 0 then nan else infinity (negative ^^ isNegative q)
  | infinity m, infinity n => infinity (m ^^ n)
  | nan, _ => nan
  | _, nan => nan

def div : ExactDouble → ExactDouble → ExactDouble
  | number p, number q =>
    if q ≠ 0 then number (p / q) else if p = 0 then nan else infinity (isNegative p)
  | number _, infinity _ => number 0
  | infinity negative, number q => infinity (negative ^^ isNegative q)
  | infinity _, infinity _ => nan
  | nan, _ => nan
  | _, nan => nan

/-- `Math.round`, to a `long`. -/
def round : ExactDouble → ℤ
  | number q => max (-2 ^ 63) (min (2 ^ 63 - 1) ⌊q + 1 / 2⌋)
  | infinity negative => if negative then -2 ^ 63 else 2 ^ 63 - 1
  | nan => 0

variable {p q : ℚ} {n : ℤ}

@[simp] theorem abs_number (q : ℚ) : abs (number q) = number |q| := rfl

@[simp] theorem mul_number (p q : ℚ) : mul (number p) (number q) = number (p * q) := rfl

theorem div_number (hq : q ≠ 0) : div (number p) (number q) = number (p / q) := if_pos hq

@[simp] theorem zero_div_zero : div (number 0) (number 0) = nan := rfl

/-- A `long` is rounded to itself. -/
theorem round_intCast (hlo : -2 ^ 63 ≤ n) (hhi : n < 2 ^ 63) : round (number (n : ℚ)) = n := by
  have hfloor : ⌊(n : ℚ) + 1 / 2⌋ = n := by
    rw [Int.floor_intCast_add, show ⌊(1 / 2 : ℚ)⌋ = 0 by norm_num, add_zero]
  rw [round, hfloor, min_eq_right (by omega), max_eq_right hlo]

/-- Nothing times what there is of a division by zero is nothing. -/
theorem round_zero_mul_abs_div (p q : ℚ) :
    round (mul (number 0) (abs (div (number p) (number q)))) = 0 := by
  rw [div]
  split_ifs
  · rw [abs_number, mul_number, zero_mul]
    exact_mod_cast round_intCast (n := 0) (by norm_num) (by norm_num)
  · rfl
  · rfl

/-- Nothing divided by zero is nothing. -/
theorem round_zero_div (q : ℚ) : round (div (number 0) (number q)) = 0 := by
  rw [div]
  split_ifs with hq hzero
  · rw [zero_div]
    exact_mod_cast round_intCast (n := 0) (by norm_num) (by norm_num)
  · rfl
  · exact absurd rfl hzero

end ExactDouble

end JavaFx.Lib
