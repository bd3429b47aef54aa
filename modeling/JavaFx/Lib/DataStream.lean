/-
`DataOutputStream` and `DataInputStream`.

What is written is a list of bytes, and what is read is taken off the front of one. A
number is written with its highest byte first and is cut off to the width it is
written with; a string is written as its UTF-16 code units, each in one to three
bytes, behind the number of these bytes.
-/
import JavaFx.Lib.Java

set_option autoImplicit false

namespace JavaFx.Lib

abbrev Byte := Fin 256

instance instNeZeroByte : NeZero 256 := ⟨Nat.succ_ne_zero 255⟩

/-- What ends a method that reads or writes: an `IOException`, another exception, a
`ClassCastException` or an `Error`. -/
inductive Failure
  | io
  | exception (e : Exn)
  | classCast
  | error
  deriving DecidableEq, Repr

/-- A method that reads. -/
abbrev Reader (α : Type) := StateT (List Byte) (Except Failure) α

/-- The method reads this from the stream, whatever comes behind it. -/
def Reads {α : Type} (r : Reader α) (bytes : List Byte) (a : α) : Prop :=
  ∀ rest, r.run (bytes ++ rest) = .ok (a, rest)

section Reads

variable {α β : Type} {r : Reader α} {f : α → Reader β} {bytes bytes' : List Byte} {a : α} {b : β}

theorem Reads.pure (a : α) : Reads (Pure.pure a) [] a := fun _ => rfl

theorem Reads.bind (hr : Reads r bytes a) (hf : Reads (f a) bytes' b) :
    Reads (r >>= f) (bytes ++ bytes') b := by
  intro rest
  rw [List.append_assoc, StateT.run_bind, hr]
  exact hf rest

/-- What follows takes nothing from the stream. -/
theorem Reads.bind_pure (hr : Reads r bytes a) (hf : Reads (f a) [] b) :
    Reads (r >>= f) bytes b := by
  have h := hr.bind hf
  rwa [List.append_nil] at h

end Reads

/-! ## Numbers -/

/-- The lowest `k` bytes of a number. -/
def bigEndian : ℕ → ℕ → List Byte
  | 0, _ => []
  | k + 1, n => bigEndian k (n / 256) ++ [Fin.ofNat 256 n]

/-- `readUnsignedByte`. -/
def readUnsignedByte : Reader ℕ := do
  match ← get with
  | [] => throw .io
  | b :: rest => do
      set rest
      return b.val

/-- The number that `k` bytes are. -/
def readUnsigned : ℕ → Reader ℕ
  | 0 => pure 0
  | k + 1 => do
      let high ← readUnsigned k
      let b ← readUnsignedByte
      return high * 256 + b

theorem length_bigEndian (k n : ℕ) : (bigEndian k n).length = k := by
  induction k generalizing n with
  | zero => rfl
  | succ k ih => rw [bigEndian, List.length_append, ih, List.length_singleton]

theorem reads_unsignedByte (b : Byte) : Reads readUnsignedByte [b] b.val := fun _ => rfl

theorem reads_unsigned {k n : ℕ} (h : n < 256 ^ k) : Reads (readUnsigned k) (bigEndian k n) n := by
  induction k generalizing n with
  | zero =>
    have hn : n = 0 := by omega
    subst hn
    exact Reads.pure 0
  | succ k ih =>
    rw [pow_succ] at h
    have hhigh : Reads (readUnsigned k) (bigEndian k (n / 256)) (n / 256) :=
      ih (Nat.div_lt_of_lt_mul (by omega))
    have hlow : Reads (readUnsignedByte >>= fun b => pure (n / 256 * 256 + b))
        [Fin.ofNat 256 n] n := by
      refine (reads_unsignedByte _).bind_pure ?_
      rw [Fin.val_ofNat, Nat.div_add_mod']
      exact Reads.pure n
    exact hhigh.bind hlow

/-- The number below `2 ^ w` that `w` bits keep of an `int` or `long`. -/
def cutOff (w : ℕ) (v : ℤ) : ℕ := (v % 2 ^ w).toNat

/-- `w` bits in two's complement. -/
def signed (w : ℕ) (n : ℕ) : ℤ := if n < 2 ^ (w - 1) then n else n - 2 ^ w

theorem cutOff_lt (w : ℕ) (v : ℤ) : cutOff w v < 2 ^ w := by
  have hpos : (0 : ℤ) < 2 ^ w := by positivity
  have hlt := Int.emod_lt_of_pos v hpos
  have hge := Int.emod_nonneg v hpos.ne'
  rw [cutOff, Int.toNat_lt hge]
  exact_mod_cast hlt

theorem signed_cutOff {w : ℕ} {v : ℤ} (hlow : -2 ^ w ≤ v) (hhigh : v < 2 ^ w) :
    signed (w + 1) (cutOff (w + 1) v) = v := by
  have hpow : (2 : ℤ) ^ (w + 1) = 2 * 2 ^ w := by ring
  rw [signed, cutOff, Nat.add_sub_cancel]
  by_cases hv : 0 ≤ v
  · have hmod : v % 2 ^ (w + 1) = v := Int.emod_eq_of_lt hv (by omega)
    rw [hmod, if_pos, Int.toNat_of_nonneg hv]
    rw [Int.toNat_lt hv]
    exact_mod_cast hhigh
  · have hmod : v % 2 ^ (w + 1) = v + 2 ^ (w + 1) := by
      rw [← Int.add_emod_right, Int.emod_eq_of_lt (by omega) (by omega)]
    rw [hmod, if_neg, Int.toNat_of_nonneg (by omega)]
    · ring
    · rw [not_lt, ← Int.ofNat_le, Int.toNat_of_nonneg (by omega)]
      push_cast
      omega

/-- `writeByte`, `writeShort`, `writeInt`. -/
def writeByte (v : ℤ) : List Byte := bigEndian 1 (cutOff 8 v)
def writeShort (v : ℤ) : List Byte := bigEndian 2 (cutOff 16 v)
def writeInt (v : ℤ) : List Byte := bigEndian 4 (cutOff 32 v)

/-- `writeLong`, of the bits of a `double`. -/
def writeLong (v : BitVec 64) : List Byte := bigEndian 8 v.toNat

/-- `writeBoolean`. -/
def writeBoolean (b : Bool) : List Byte := writeByte (if b then 1 else 0)

/-- `readByte`, `readShort`, `readInt`. -/
def readByte : Reader ℤ := do return signed 8 (← readUnsigned 1)
def readShort : Reader ℤ := do return signed 16 (← readUnsigned 2)
def readInt : Reader ℤ := do return signed 32 (← readUnsigned 4)

/-- `readLong`. -/
def readLong : Reader (BitVec 64) := do return BitVec.ofNat 64 (← readUnsigned 8)

/-- `readBoolean`. -/
def readBoolean : Reader Bool := do return (← readUnsignedByte) ≠ 0

/-- `readFully`, of this many bytes. -/
def readFully (n : ℕ) : Reader (List Byte) := do
  let bytes ← get
  if bytes.length < n then
    throw .io
  set (bytes.drop n)
  return bytes.take n

theorem reads_byte {v : ℤ} (hlow : -2 ^ 7 ≤ v) (hhigh : v < 2 ^ 7) :
    Reads readByte (writeByte v) v := by
  refine (reads_unsigned (cutOff_lt 8 v)).bind_pure ?_
  rw [signed_cutOff hlow hhigh]
  exact Reads.pure v

theorem reads_short {v : ℤ} (hlow : -2 ^ 15 ≤ v) (hhigh : v < 2 ^ 15) :
    Reads readShort (writeShort v) v := by
  refine (reads_unsigned (cutOff_lt 16 v)).bind_pure ?_
  rw [signed_cutOff hlow hhigh]
  exact Reads.pure v

theorem reads_int {v : ℤ} (hlow : -2 ^ 31 ≤ v) (hhigh : v < 2 ^ 31) :
    Reads readInt (writeInt v) v := by
  refine (reads_unsigned (cutOff_lt 32 v)).bind_pure ?_
  rw [signed_cutOff hlow hhigh]
  exact Reads.pure v

/-- A count or an index. -/
theorem reads_short_nat {n : ℕ} (h : n < 2 ^ 15) : Reads readShort (writeShort n) n :=
  reads_short (by omega) (by omega)

theorem reads_int_nat {n : ℕ} (h : n < 2 ^ 31) : Reads readInt (writeInt n) n :=
  reads_int (by omega) (by omega)

theorem reads_long (v : BitVec 64) : Reads readLong (writeLong v) v := by
  refine (reads_unsigned v.isLt).bind_pure ?_
  rw [BitVec.ofNat_toNat, BitVec.setWidth_eq]
  exact Reads.pure v

theorem reads_boolean (b : Bool) : Reads readBoolean (writeBoolean b) b := by
  cases b with
  | false => exact fun _ => rfl
  | true => exact fun _ => rfl

theorem reads_fully (bytes : List Byte) : Reads (readFully bytes.length) bytes bytes := by
  intro rest
  have hlen : ¬ (bytes ++ rest).length < bytes.length := by simp
  simp only [readFully, StateT.run_bind, StateT.run_get, pure_bind, if_neg hlen]
  rw [List.drop_left, List.take_left]
  rfl

/-! ## Strings -/

/-- The UTF-16 code units of a character. -/
def codeUnits (c : Char) : List ℕ :=
  if c.toNat < 0x10000 then [c.toNat]
  else [0xD800 + (c.toNat - 0x10000) / 0x400, 0xDC00 + (c.toNat - 0x10000) % 0x400]

/-- The characters of a sequence of code units. -/
def ofCodeUnits : List ℕ → List Char
  | [] => []
  | u :: l =>
    if 0xD800 ≤ u ∧ u < 0xDC00 then
      match l with
      | v :: l' =>
        Char.ofNat (0x10000 + (u - 0xD800) * 0x400 + (v - 0xDC00)) :: ofCodeUnits l'
      | [] => []
    else Char.ofNat u :: ofCodeUnits l

/-- A character takes the code units it needs. -/
theorem ofCodeUnits_codeUnits (c : Char) (l : List ℕ) :
    ofCodeUnits (codeUnits c ++ l) = c :: ofCodeUnits l := by
  have hvalid : c.toNat < 0xD800 ∨ 0xDFFF < c.toNat ∧ c.toNat < 0x110000 := c.valid
  by_cases hc : c.toNat < 0x10000
  · have hplain : ¬ (0xD800 ≤ c.toNat ∧ c.toNat < 0xDC00) := by omega
    rw [codeUnits, if_pos hc, List.singleton_append, ofCodeUnits.eq_def]
    simp only [if_neg hplain, Char.ofNat_toNat]
  · have hhigh : 0xD800 ≤ 0xD800 + (c.toNat - 0x10000) / 0x400
        ∧ 0xD800 + (c.toNat - 0x10000) / 0x400 < 0xDC00 := by omega
    have hpair : 0x10000 + (0xD800 + (c.toNat - 0x10000) / 0x400 - 0xD800) * 0x400
        + (0xDC00 + (c.toNat - 0x10000) % 0x400 - 0xDC00) = c.toNat := by omega
    rw [codeUnits, if_neg hc, List.cons_append, List.singleton_append, ofCodeUnits.eq_def]
    simp only [if_pos hhigh]
    rw [hpair, Char.ofNat_toNat]

theorem codeUnits_lt {c : Char} {u : ℕ} (hu : u ∈ codeUnits c) : u < 0x10000 := by
  have hvalid : c.toNat < 0xD800 ∨ 0xDFFF < c.toNat ∧ c.toNat < 0x110000 := c.valid
  rw [codeUnits] at hu
  split_ifs at hu with hc
  · rw [List.mem_singleton] at hu
    omega
  · rw [List.mem_cons, List.mem_singleton] at hu
    omega

/-- The bytes of a code unit; there is none for 0 that is 0. -/
def utfBytes (u : ℕ) : List Byte :=
  if 1 ≤ u ∧ u < 0x80 then [Fin.ofNat 256 u]
  else if u < 0x800 then [Fin.ofNat 256 (0xC0 + u / 64), Fin.ofNat 256 (0x80 + u % 64)]
  else [Fin.ofNat 256 (0xE0 + u / 4096), Fin.ofNat 256 (0x80 + u / 64 % 64),
    Fin.ofNat 256 (0x80 + u % 64)]

/-- The code units of a sequence of bytes, or a `UTFDataFormatException`: the first
byte of a unit says how many there are. -/
def ofUtfBytes : List Byte → Except Failure (List ℕ)
  | [] => .ok []
  | a :: l =>
    if a.val < 0x80 then do
      return a.val :: (← ofUtfBytes l)
    else if a.val / 32 = 6 then
      match l with
      | b :: l' =>
        if b.val / 64 = 2 then do
          return (a.val % 32 * 64 + b.val % 64) :: (← ofUtfBytes l')
        else throw .io
      | [] => throw .io
    else if a.val / 16 = 14 then
      match l with
      | b :: c :: l' =>
        if b.val / 64 = 2 ∧ c.val / 64 = 2 then do
          return (a.val % 16 * 4096 + b.val % 64 * 64 + c.val % 64) :: (← ofUtfBytes l')
        else throw .io
      | _ => throw .io
    else throw .io

theorem ofUtfBytes_utfBytes {u : ℕ} (hu : u < 0x10000) {l : List Byte} {us : List ℕ}
    (hl : ofUtfBytes l = .ok us) : ofUtfBytes (utfBytes u ++ l) = .ok (u :: us) := by
  have hval {n : ℕ} (hn : n < 256) : (Fin.ofNat 256 n).val = n := by
    rw [Fin.val_ofNat, Nat.mod_eq_of_lt hn]
  rw [utfBytes]
  split_ifs with h1 h2
  · rw [List.singleton_append, ofUtfBytes.eq_def]
    simp only [hval (show u < 256 by omega), if_pos h1.2, hl]
    rfl
  · rw [List.cons_append, List.singleton_append, ofUtfBytes.eq_def]
    simp only [hval (show 0xC0 + u / 64 < 256 by omega), hval (show 0x80 + u % 64 < 256 by omega),
      hl]
    rw [if_neg (by omega), if_pos (by omega), if_pos (by omega)]
    have hunit : (0xC0 + u / 64) % 32 * 64 + (0x80 + u % 64) % 64 = u := by omega
    rw [hunit]
    rfl
  · rw [List.cons_append, List.cons_append, List.singleton_append, ofUtfBytes.eq_def]
    simp only [hval (show 0xE0 + u / 4096 < 256 by omega),
      hval (show 0x80 + u / 64 % 64 < 256 by omega), hval (show 0x80 + u % 64 < 256 by omega), hl]
    rw [if_neg (by omega), if_neg (by omega), if_pos (by omega), if_pos (by omega)]
    have hunit : (0xE0 + u / 4096) % 16 * 4096 + (0x80 + u / 64 % 64) % 64 * 64
        + (0x80 + u % 64) % 64 = u := by omega
    rw [hunit]
    rfl

/-- The bytes of a string. -/
def utf (s : String) : List Byte := s.toList.flatMap (fun c => (codeUnits c).flatMap utfBytes)

/-- `writeUTF`. -/
def writeUTF (s : String) : Except Failure (List Byte) :=
  if (utf s).length ≤ 0xFFFF then .ok (bigEndian 2 (utf s).length ++ utf s) else .error .io

/-- `readUTF`. -/
def readUTF : Reader String := do
  let utflen ← readUnsigned 2
  let bytes ← readFully utflen
  match ofUtfBytes bytes with
  | .ok units => return String.ofList (ofCodeUnits units)
  | .error e => throw e

theorem ofUtfBytes_flatMap {units : List ℕ} (hunits : ∀ u ∈ units, u < 0x10000) :
    ofUtfBytes (units.flatMap utfBytes) = .ok units := by
  induction units with
  | nil => rfl
  | cons u units ih =>
    rw [List.forall_mem_cons] at hunits
    rw [List.flatMap_cons]
    exact ofUtfBytes_utfBytes hunits.1 (ih hunits.2)

theorem ofCodeUnits_flatMap (chars : List Char) : ofCodeUnits (chars.flatMap codeUnits) = chars := by
  induction chars with
  | nil => rfl
  | cons c chars ih => rw [List.flatMap_cons, ofCodeUnits_codeUnits, ih]

theorem reads_utf {s : String} {bytes : List Byte} (h : writeUTF s = .ok bytes) :
    Reads readUTF bytes s := by
  rw [writeUTF] at h
  split_ifs at h with hlen
  cases h
  have hunits : ofUtfBytes (utf s) = .ok (s.toList.flatMap codeUnits) := by
    rw [utf, ← List.flatMap_assoc]
    apply ofUtfBytes_flatMap
    intro u hu
    obtain ⟨c, -, hc⟩ := List.mem_flatMap.mp hu
    exact codeUnits_lt hc
  refine (reads_unsigned (show (utf s).length < 256 ^ 2 by omega)).bind ?_
  refine (reads_fully (utf s)).bind_pure ?_
  rw [hunits]
  have hs : String.ofList (ofCodeUnits (s.toList.flatMap codeUnits)) = s := by
    rw [ofCodeUnits_flatMap, String.ofList_toList]
  show Reads (pure (String.ofList (ofCodeUnits (s.toList.flatMap codeUnits)))) [] s
  rw [hs]
  exact Reads.pure s

end JavaFx.Lib
