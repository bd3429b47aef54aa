/-
Splitting a string at a character. A string has one field more than it has separators.
-/
import Mathlib.Data.List.DropRight
import Mathlib.Data.List.Infix
import Mathlib.Tactic.Common

set_option autoImplicit false

namespace JavaFx.Lib

section Split

variable {A : Type*} [DecidableEq A]

/-- The fields of a string between its separators. -/
def fields (sep : A) : List A → List (List A)
  | [] => [[]]
  | c :: s =>
    if c = sep then [] :: fields sep s
    else
      match fields sep s with
      | f :: fs => (c :: f) :: fs
      | [] => [[c]]

variable {sep : A} {a b s : List A}

theorem fields_ne_nil (sep : A) (s : List A) : fields sep s ≠ [] := by
  cases s with
  | nil => simp [fields]
  | cons c s =>
    rw [fields]
    split
    · simp
    · split <;> simp

end Split

end JavaFx.Lib
