/-
Strings of UTF-16 code units, as Java has them, and the numbers written in them.

`decimal` is the text of a natural number in base ten and `hex4` the four hexadecimal
digits of a code unit; `ofDigits_decimal` and `ofDigits_hex4` read them back.
-/
import Mathlib.Data.Fin.Basic
import Mathlib.Data.Nat.Digits.Defs
import Mathlib.Tactic.Common

set_option autoImplicit false

namespace JavaFx.Lib

/-- A `char`. -/
abbrev Code := Fin 65536

instance instNeZeroCode : NeZero 65536 := ⟨Nat.succ_ne_zero 65535⟩

instance instLawfulBEqCode : LawfulBEq Code := instLawfulBEq

abbrev Str := List Code

/-- The code of a character that is written out in a source. -/
def ch (c : Char) : Code := Fin.ofNat 65536 c.toNat

/-- A literal of a source. -/
def lit (s : String) : Str := s.toList.map ch

/-- `Character.isISOControl`. -/
def isISOControl (c : Code) : Bool := c ≤ 0x1f || (0x7f ≤ c && c ≤ 0x9f)

/-! ## Digits -/

/-- A decimal digit. -/
def digitCode (d : ℕ) : Code := Fin.ofNat 65536 (48 + d)

/-- The number that a list of digits stands for. -/
def ofDigits (base : ℕ) (ds : List ℕ) : ℕ := ds.foldl (fun n d => base * n + d) 0

/-- The decimal digits of a number, the highest one first. -/
def decimalDigits (n : ℕ) : List ℕ := if n = 0 then [0] else (Nat.digits 10 n).reverse

/-- `Long.toString` of a number that is not negative. -/
def decimal (n : ℕ) : Str := (decimalDigits n).map digitCode

theorem decimalDigits_lt {n d : ℕ} (h : d ∈ decimalDigits n) : d < 10 := by
  rw [decimalDigits] at h
  split at h
  · rw [List.mem_singleton.1 h]
    decide
  · exact Nat.digits_lt_base (by decide) (List.mem_reverse.1 h)

theorem decimalDigits_ne_nil (n : ℕ) : decimalDigits n ≠ [] := by
  rw [decimalDigits]
  split
  · simp
  · next h => simpa [Nat.digits_ne_nil_iff_ne_zero] using h

theorem ofDigits_decimal (n : ℕ) : ofDigits 10 (decimalDigits n) = n := by
  rw [decimalDigits]
  split
  · next h => rw [h]; rfl
  · have hfold := Nat.ofDigits_eq_foldr 10 (Nat.digits 10 n)
    rw [Nat.ofDigits_digits] at hfold
    rw [ofDigits, List.foldl_reverse]
    simpa [Nat.add_comm] using hfold.symm

/-- An upper case hexadecimal digit. -/
def hexCode (d : ℕ) : Code := if d < 10 then Fin.ofNat 65536 (48 + d) else Fin.ofNat 65536 (55 + d)

def hexDigits (c : Code) : List ℕ :=
  [c.val / 4096, c.val / 256 % 16, c.val / 16 % 16, c.val % 16]

/-- `%04X` of a code unit. -/
def hex4 (c : Code) : Str := (hexDigits c).map hexCode

theorem hexDigits_lt {c : Code} {d : ℕ} (h : d ∈ hexDigits c) : d < 16 := by
  have hc := c.isLt
  simp only [hexDigits, List.mem_cons, List.not_mem_nil, or_false] at h
  omega

theorem ofDigits_hex4 (c : Code) : ofDigits 16 (hexDigits c) = c.val := by
  have hc := c.isLt
  simp only [ofDigits, hexDigits, List.foldl_cons, List.foldl_nil]
  omega

end JavaFx.Lib
