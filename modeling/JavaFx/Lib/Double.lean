/-
`double` values as their bits, and the cast to `float`.

A `double` is the `long` that `doubleToLongBits` makes of it, so there is one NaN. The
cast is needed for magnitudes up to 1 only; its result is the `double` that the
`float` is widened to. Above `2 ^ -126` a `float` has 29 bits less; below, it is a
multiple of `2 ^ -149`.
-/
import Mathlib.Data.Nat.Log
import Mathlib.Data.BitVec
import Mathlib.Tactic.Ring
import Mathlib.Tactic.Linarith

set_option autoImplicit false

namespace JavaFx.Lib

/-! ## The cast -/

/-- `n / 2 ^ k`, rounded to the nearest number, and to an even one if there are two. -/
def halfEven (n k : ℕ) : ℕ :=
  if 2 ^ (k - 1) < n % 2 ^ k ∨ n % 2 ^ k = 2 ^ (k - 1) ∧ n / 2 ^ k % 2 = 1 then n / 2 ^ k + 1
  else n / 2 ^ k

/-- The bits of `q * 2 ^ -149`. -/
def ofUnits (q : ℕ) : ℕ :=
  if q = 0 then 0 else (q.log2 + 874) * 2 ^ 52 + (q * 2 ^ (52 - q.log2) - 2 ^ 52)

/-- The cast of a number between 0 and 1, on the bits. -/
def narrow (b : ℕ) : ℕ :=
  if 897 ≤ b / 2 ^ 52 then halfEven b 29 * 2 ^ 29
  else ofUnits (halfEven (if b / 2 ^ 52 = 0 then b else 2 ^ 52 + b % 2 ^ 52)
    (926 - max (b / 2 ^ 52) 1))

theorem halfEven_mul (q : ℕ) {k : ℕ} : halfEven (q * 2 ^ k) k = q := by
  have hpos : 0 < 2 ^ (k - 1) := by positivity
  rw [halfEven, Nat.mul_mod_left, Nat.mul_div_cancel _ (by positivity), if_neg (by omega)]

theorem halfEven_le {n m k : ℕ} (h : n ≤ m * 2 ^ k) : halfEven n k ≤ m := by
  have hk : 0 < 2 ^ k := by positivity
  have hq : n / 2 ^ k ≤ m := Nat.div_le_of_le_mul (by rwa [Nat.mul_comm])
  rw [halfEven]
  split_ifs with hup
  · -- a remainder is left, so the quotient is below `m`
    have hdiv := Nat.div_add_mod n (2 ^ k)
    have hpos : 0 < 2 ^ (k - 1) := by positivity
    have hrem : 0 < n % 2 ^ k := by omega
    by_contra hlt
    have hm : n / 2 ^ k = m := by omega
    rw [hm, Nat.mul_comm] at hdiv
    omega
  · exact hq

theorem le_halfEven {n m k : ℕ} (h : m * 2 ^ k ≤ n) : m ≤ halfEven n k := by
  have hq : m ≤ n / 2 ^ k := (Nat.le_div_iff_mul_le (by positivity)).mpr h
  rw [halfEven]
  split_ifs
  · omega
  · exact hq

/-- A multiple of `2 ^ -149` up to `2 ^ -126` is a `float`, and not a large one. -/
theorem narrow_ofUnits {q : ℕ} (hq : q ≤ 2 ^ 23) :
    narrow (ofUnits q) = ofUnits q ∧ ofUnits q ≤ 1023 * 2 ^ 52 := by
  by_cases h0 : q = 0
  · subst h0
    refine ⟨?_, Nat.zero_le _⟩
    rw [ofUnits, if_pos rfl, narrow, if_neg (by omega), Nat.zero_div, if_pos rfl]
    have hzero := halfEven_mul 0 (k := 926 - max 0 1)
    rw [Nat.zero_mul] at hzero
    rw [hzero, ofUnits, if_pos rfl]
  · have hlow : 2 ^ q.log2 ≤ q := Nat.log2_self_le h0
    have hhigh : q < 2 ^ (q.log2 + 1) := Nat.lt_log2_self
    have hk : q.log2 ≤ 23 := by
      by_contra hlt
      have : 2 ^ 24 ≤ 2 ^ q.log2 := Nat.pow_le_pow_right (by omega) (by omega)
      omega
    have hsplit : 2 ^ q.log2 * 2 ^ (52 - q.log2) = 2 ^ 52 := by
      rw [← pow_add]
      congr 1
      omega
    have hf1 : 2 ^ 52 ≤ q * 2 ^ (52 - q.log2) := by
      rw [← hsplit]
      exact Nat.mul_le_mul_right _ hlow
    have hf2 : q * 2 ^ (52 - q.log2) < 2 * 2 ^ 52 := by
      have := Nat.mul_lt_mul_of_pos_right hhigh (show 0 < 2 ^ (52 - q.log2) by positivity)
      rwa [pow_succ, Nat.mul_comm (2 ^ q.log2) 2, Nat.mul_assoc, hsplit] at this
    have hbits : ofUnits q = (q.log2 + 874) * 2 ^ 52 + (q * 2 ^ (52 - q.log2) - 2 ^ 52) := by
      rw [ofUnits, if_neg h0]
    have hexp : ofUnits q / 2 ^ 52 = q.log2 + 874 := by omega
    have hmant : ofUnits q % 2 ^ 52 = q * 2 ^ (52 - q.log2) - 2 ^ 52 := by omega
    refine ⟨?_, by omega⟩
    by_cases hk' : q.log2 = 23
    · -- the smallest number with a full significand
      have hq' : q = 2 ^ 23 := by
        rw [hk'] at hlow
        omega
      have hb : ofUnits q = 897 * 2 ^ 23 * 2 ^ 29 := by
        rw [hbits, hk', hq']
        norm_num
      rw [narrow, if_pos (by omega), hb, halfEven_mul]
    · have hsig : 2 ^ 52 + (q * 2 ^ (52 - q.log2) - 2 ^ 52) = q * 2 ^ (52 - q.log2) := by omega
      have hshift : 926 - max (q.log2 + 874) 1 = 52 - q.log2 := by omega
      rw [narrow, hexp, hmant, if_neg (by omega), if_neg (by omega), hsig, hshift, halfEven_mul]

/-- The cast gives a `float`, which another cast leaves as it is. -/
theorem narrow_narrow {b : ℕ} (hb : b ≤ 1023 * 2 ^ 52) :
    narrow (narrow b) = narrow b ∧ narrow b ≤ 1023 * 2 ^ 52 := by
  by_cases he : 897 ≤ b / 2 ^ 52
  · have hlow : 897 * 2 ^ 23 ≤ halfEven b 29 := le_halfEven (by omega)
    have hhigh : halfEven b 29 ≤ 1023 * 2 ^ 23 := halfEven_le (by omega)
    have hnarrow : narrow b = halfEven b 29 * 2 ^ 29 := by rw [narrow, if_pos he]
    refine ⟨?_, by omega⟩
    rw [hnarrow, narrow, if_pos (by omega), halfEven_mul]
  · have hnarrow : narrow b = ofUnits (halfEven (if b / 2 ^ 52 = 0 then b
        else 2 ^ 52 + b % 2 ^ 52) (926 - max (b / 2 ^ 52) 1)) := by rw [narrow, if_neg he]
    rw [hnarrow]
    apply narrow_ofUnits
    have hpow : 2 ^ 30 ≤ 2 ^ (926 - max (b / 2 ^ 52) 1) :=
      Nat.pow_le_pow_right (by omega) (by omega)
    apply halfEven_le
    calc (if b / 2 ^ 52 = 0 then b else 2 ^ 52 + b % 2 ^ 52) ≤ 2 ^ 23 * 2 ^ 30 := by
          split_ifs
          · omega
          · omega
      _ ≤ 2 ^ 23 * 2 ^ (926 - max (b / 2 ^ 52) 1) := Nat.mul_le_mul_left _ hpow

/-! ## `double` -/

/-- `Double.isNaN`, on the bits. -/
def isNaN (bits : BitVec 64) : Bool := 0x7ff0000000000000 < bits.toNat % 2 ^ 63

/-- A `double`. -/
structure Double where
  toLongBits : BitVec 64
  canonical : isNaN toLongBits = true → toLongBits = 0x7ff8000000000000#64

/-- `Double.longBitsToDouble`. -/
def longBitsToDouble (bits : BitVec 64) : Double :=
  if h : isNaN bits = true then ⟨0x7ff8000000000000#64, fun _ => rfl⟩
  else ⟨bits, fun h' => absurd h' h⟩

theorem longBitsToDouble_toLongBits (d : Double) : longBitsToDouble d.toLongBits = d := by
  rw [longBitsToDouble]
  split_ifs with h
  · cases d with
    | mk bits canonical => rw [Double.mk.injEq, canonical h]
  · rfl

namespace Double

/-- `d < 0 || d > 1`. -/
def outsideUnit (d : Double) : Bool :=
  !isNaN d.toLongBits
    && (1023 * 2 ^ 52 < d.toLongBits.toNat && d.toLongBits.toNat ≠ 2 ^ 63)

/-- `(float) d`, of a number that is not outside. -/
def toFloat (d : Double) : Double :=
  if d.toLongBits.toNat ≤ 1023 * 2 ^ 52 then
    longBitsToDouble (BitVec.ofNat 64 (narrow d.toLongBits.toNat))
  else d

theorem toFloat_toFloat (d : Double) : d.toFloat.toFloat = d.toFloat := by
  by_cases hd : d.toLongBits.toNat ≤ 1023 * 2 ^ 52
  · obtain ⟨hnarrow, hle⟩ := narrow_narrow hd
    have hbits : d.toFloat.toLongBits = BitVec.ofNat 64 (narrow d.toLongBits.toNat) := by
      rw [toFloat, if_pos hd, longBitsToDouble, dif_neg]
      simp only [isNaN, BitVec.toNat_ofNat, decide_eq_true_eq]
      omega
    have hnat : d.toFloat.toLongBits.toNat = narrow d.toLongBits.toNat := by
      rw [hbits, BitVec.toNat_ofNat, Nat.mod_eq_of_lt (by omega)]
    rw [toFloat, hnat, if_pos hle, hnarrow, ← hbits, longBitsToDouble_toLongBits]
  · have hself : d.toFloat = d := by rw [toFloat, if_neg hd]
    rw [hself, hself]

theorem outsideUnit_toFloat {d : Double} (h : d.outsideUnit = false) :
    d.toFloat.outsideUnit = false := by
  by_cases hd : d.toLongBits.toNat ≤ 1023 * 2 ^ 52
  · obtain ⟨-, hle⟩ := narrow_narrow hd
    rw [toFloat, if_pos hd, longBitsToDouble, dif_neg]
    · simp only [outsideUnit, BitVec.toNat_ofNat]
      rw [Nat.mod_eq_of_lt (by omega), decide_eq_false (by omega : ¬ 1023 * 2 ^ 52 < _),
        Bool.false_and, Bool.and_false]
    · simp only [isNaN, BitVec.toNat_ofNat, decide_eq_true_eq]
      omega
  · rwa [toFloat, if_neg hd]

end Double

end JavaFx.Lib
