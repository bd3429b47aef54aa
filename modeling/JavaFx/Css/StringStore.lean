/-
`StringStore`, and methods that write with one.

The strings are kept in the order in which they were first added, `null` among them;
the map of the store says where a string is in the list, so it is not kept. What is
written refers to strings by their index. It can be read only with the strings of the
store at the end, which begin with those of the store at the time of writing:
`Writes`.
-/
import JavaFx.Lib.DataStream

set_option autoImplicit false

namespace JavaFx.Css

open JavaFx.Lib

/-- A store: `stringStore.strings`. -/
abbrev StringStore := List (Option String)

instance instLawfulBEqOptionString : LawfulBEq (Option String) := Option.instLawfulBEq String

/-- What has been written, and the store. -/
structure Output where
  strings : StringStore
  bytes : List Byte

/-- A method that writes. -/
abbrev Writer (α : Type) := StateT Output (Except Failure) α

/-- Bytes are written. -/
def emit (bytes : List Byte) : Writer PUnit :=
  modify fun out => { out with bytes := out.bytes ++ bytes }

namespace StringStore

/-- The index of a string in the store, with the string added if need be. -/
def add (strings : StringStore) (s : Option String) : ℕ × StringStore :=
  if s ∈ strings then (strings.idxOf s, strings) else (strings.length, strings ++ [s])

/-- What is written of a string of the store; `null` is skipped. -/
def utfOf : Option String → Except Failure (List Byte)
  | none => .ok []
  | some s => writeUTF s

/-- The index of `null`. -/
def nullIndex (strings : StringStore) : ℤ := if none ∈ strings then strings.idxOf none else -1

/-- `writeBinary`. -/
def writeBinary (strings : StringStore) : Except Failure (List Byte) := do
  let utfs ← strings.mapM utfOf
  return writeShort strings.length ++ writeShort strings.nullIndex ++ utfs.flatten

/-- One string of the table. -/
def readString (nullIndex : ℤ) (n : ℕ) : Reader (Option String) :=
  if (n : ℤ) = nullIndex then pure none
  else do return some (← readUTF)

/-- The loop of `readBinary`, for the strings from `n` on. -/
def readStrings (nullIndex : ℤ) : (count n : ℕ) → Reader StringStore
  | 0, _ => pure []
  | count + 1, n => do
      let s ← readString nullIndex n
      return s :: (← readStrings nullIndex count (n + 1))

/-- `readBinary`. -/
def readBinary : Reader StringStore := do
  let nStrings ← readShort
  let nullIndex ← readShort
  if nStrings < 0 then
    throw (.exception .negativeArraySize)
  readStrings nullIndex nStrings.toNat 0

end StringStore

/-- `addString`. -/
def addString (s : Option String) : Writer ℕ := do
  let out ← get
  set { out with strings := (out.strings.add s).2 }
  return (out.strings.add s).1

/-- `os.writeShort(stringStore.addString(s))`. -/
def writeStringShort (s : Option String) : Writer PUnit := do
  let index ← addString s
  emit (writeShort index)

/-- `os.writeInt(stringStore.addString(s))`. -/
def writeStringInt (s : Option String) : Writer PUnit := do
  let index ← addString s
  emit (writeInt index)

/-- `strings[index]`. -/
def stringAt (strings : StringStore) (index : ℤ) : Reader (Option String) :=
  match aget strings index with
  | .ok s => pure s
  | .error e => throw (.exception e)

/-- `strings[is.readShort()]`. -/
def readStringShort (strings : StringStore) : Reader (Option String) := do
  stringAt strings (← readShort)

/-- `strings[is.readInt()]`. -/
def readStringInt (strings : StringStore) : Reader (Option String) := do
  stringAt strings (← readInt)

/-- A loop that reads this many times. -/
def times {α : Type} (r : Reader α) : ℕ → Reader (List α)
  | 0 => pure []
  | n + 1 => do
      let a ← r
      return a :: (← times r n)

/-! ## Strings that are found again -/

namespace StringStore

variable {strings all : StringStore} {s : Option String}

theorem add_prefix (strings : StringStore) (s : Option String) :
    strings <+: (strings.add s).2 := by
  rw [add]
  split_ifs
  · exact List.prefix_rfl
  · exact List.prefix_append strings [s]

theorem add_nodup (s : Option String) (h : strings.Nodup) : (strings.add s).2.Nodup := by
  rw [add]
  split_ifs with hs
  · exact h
  · exact List.nodup_append.mpr ⟨h, List.nodup_singleton s, by
      intro a ha b hb hab
      rw [List.mem_singleton] at hb
      exact hs (hb ▸ hab ▸ ha)⟩

/-- The string is at its index. -/
theorem getElem?_add (strings : StringStore) (s : Option String) :
    (strings.add s).2[(strings.add s).1]? = some s := by
  rw [add]
  split_ifs with hs
  · rw [List.getElem?_eq_getElem (List.idxOf_lt_length_of_mem hs), List.getElem_idxOf]
  · simp

theorem getElem?_of_prefix (h : (strings.add s).2 <+: all) : all[(strings.add s).1]? = some s := by
  obtain ⟨more, rfl⟩ := h
  have hget := getElem?_add strings s
  rw [List.getElem?_append_left ((List.getElem?_eq_some_iff.mp hget).1), hget]

end StringStore

/-- What `w` writes is read back as `a`, with the strings of a later store that is not
too large. `fuel` is for methods that read trees: it is enough if it exceeds the number
of bytes. -/
def Writes {α : Type} (w : Writer PUnit) (r : ℕ → StringStore → Reader α) (a : α) : Prop :=
  ∀ out out', w.run out = .ok (⟨⟩, out') →
    ∃ bytes, out'.bytes = out.bytes ++ bytes ∧ out.strings <+: out'.strings
      ∧ (out.strings.Nodup → out'.strings.Nodup)
      ∧ ∀ fuel strings, out'.strings <+: strings → strings.length < 2 ^ 15 → bytes.length < fuel →
          Reads (r fuel strings) bytes a

section Writes

variable {α β : Type} {w w' : Writer PUnit} {r : ℕ → StringStore → Reader α}
  {g : ℕ → StringStore → α → Reader β} {a : α} {b : β}

theorem Writes.bind (hw : Writes w r a) (hw' : Writes w' (fun fuel strings => g fuel strings a) b) :
    Writes (w >>= fun _ => w') (fun fuel strings => r fuel strings >>= g fuel strings) b := by
  intro out out' hrun
  rw [StateT.run_bind] at hrun
  cases hfirst : w.run out with
  | error e =>
    rw [hfirst] at hrun
    exact nomatch hrun
  | ok p =>
    rw [hfirst] at hrun
    obtain ⟨bytes, hbytes, hpre, hnodup, hreads⟩ := hw out p.2 hfirst
    obtain ⟨bytes', hbytes', hpre', hnodup', hreads'⟩ := hw' p.2 out' hrun
    refine ⟨bytes ++ bytes', ?_, hpre.trans hpre', hnodup' ∘ hnodup, ?_⟩
    · rw [hbytes', hbytes, List.append_assoc]
    · intro fuel strings hall hsize hfuel
      rw [List.length_append] at hfuel
      exact (hreads fuel strings (hpre'.trans hall) hsize (by omega)).bind
        (hreads' fuel strings hall hsize (by omega))

/-- Nothing is written. -/
theorem Writes.pure (a : α) : Writes (Pure.pure ⟨⟩) (fun _ _ => Pure.pure a) a := by
  intro out out' hrun
  cases hrun
  exact ⟨[], (List.append_nil _).symm, List.prefix_rfl, id, fun _ _ _ _ _ => Reads.pure a⟩

/-- What is read goes into something. -/
theorem Writes.map {r : ℕ → StringStore → Reader α} (hw : Writes w r a)
    {f : ℕ → StringStore → α → Reader β} (hf : ∀ fuel strings, f fuel strings a = Pure.pure b) :
    Writes w (fun fuel strings => r fuel strings >>= f fuel strings) b := by
  intro out out' hrun
  obtain ⟨bytes, hbytes, hpre, hnodup, hreads⟩ := hw out out' hrun
  refine ⟨bytes, hbytes, hpre, hnodup, fun fuel strings hall hsize hfuel => ?_⟩
  apply (hreads fuel strings hall hsize hfuel).bind_pure
  rw [hf]
  exact Reads.pure b

theorem writes_emit {bytes : List Byte} {r : Reader α} (h : Reads r bytes a) :
    Writes (emit bytes) (fun _ _ => r) a := by
  intro out out' hrun
  cases hrun
  exact ⟨bytes, rfl, List.prefix_rfl, id, fun _ _ _ _ _ => h⟩

theorem reads_stringAt {strings all : StringStore} {s : Option String}
    (hall : (strings.add s).2 <+: all) (hsize : all.length < 2 ^ 15) {bytes : List Byte}
    {r : Reader ℤ} (hr : (strings.add s).1 < 2 ^ 15 → Reads r bytes ((strings.add s).1 : ℤ)) :
    Reads (r >>= stringAt all) bytes s := by
  have hget := StringStore.getElem?_of_prefix hall
  have hlt := (List.getElem?_eq_some_iff.mp hget).1
  refine (hr (by omega)).bind_pure ?_
  rw [stringAt, aget_ok hget]
  exact Reads.pure s

theorem writes_stringShort (s : Option String) :
    Writes (writeStringShort s) (fun _ => readStringShort) s := by
  intro out out' hrun
  cases hrun
  exact ⟨_, rfl, out.strings.add_prefix s, StringStore.add_nodup s, fun _ strings hall hsize _ =>
    reads_stringAt hall hsize reads_short_nat⟩

theorem writes_stringInt (s : Option String) :
    Writes (writeStringInt s) (fun _ => readStringInt) s := by
  intro out out' hrun
  cases hrun
  exact ⟨_, rfl, out.strings.add_prefix s, StringStore.add_nodup s, fun _ strings hall hsize _ =>
    reads_stringAt hall hsize (fun h => reads_int_nat (by omega))⟩

/-- A loop over a list. -/
theorem writes_forM {γ : Type} (l : List γ) {w : γ → Writer PUnit} {f : γ → α}
    (h : ∀ x ∈ l, Writes (w x) r (f x)) :
    Writes (l.forM w) (fun fuel strings => times (r fuel strings) l.length) (l.map f) := by
  induction l with
  | nil => exact Writes.pure []
  | cons x l ih =>
    rw [List.forall_mem_cons] at h
    exact h.1.bind ((ih h.2).map (fun _ _ => rfl))

end Writes

/-! ## The table of the strings -/

namespace StringStore

theorem reads_strings {nullIndex : ℤ} (l : StringStore) {n : ℕ} {utfs : List (List Byte)}
    (hnull : ∀ i s, l[i]? = some s → (((n + i : ℕ) : ℤ) = nullIndex ↔ s = none))
    (h : l.mapM utfOf = .ok utfs) : Reads (readStrings nullIndex l.length n) utfs.flatten l := by
  induction l generalizing n utfs with
  | nil =>
    cases h
    exact Reads.pure []
  | cons s l ih =>
    rw [List.mapM_cons] at h
    cases hs : utfOf s with
    | error e =>
      rw [hs] at h
      exact nomatch h
    | ok bytes =>
      cases hl : l.mapM utfOf with
      | error e =>
        rw [hs, hl] at h
        exact nomatch h
      | ok more =>
        rw [hs, hl] at h
        cases h
        have htail : Reads (readStrings nullIndex l.length (n + 1)) more.flatten l := by
          refine ih (fun i t ht => ?_) hl
          rw [← hnull (i + 1) t ht, Nat.add_right_comm, Nat.add_assoc]
        have hhead : Reads (readString nullIndex n) bytes s := by
          have hnull0 := hnull 0 s rfl
          rw [Nat.add_zero] at hnull0
          cases s with
          | none =>
            rw [readString, if_pos (hnull0.mpr rfl)]
            cases hs
            exact Reads.pure none
          | some s =>
            rw [readString, if_neg (fun h0 => Option.some_ne_none s (hnull0.mp h0))]
            exact (reads_utf hs).bind_pure (Reads.pure (some s))
        refine hhead.bind ?_
        exact htail.bind_pure (Reads.pure (s :: l))

/-- A store has `null` in one place at most. -/
theorem eq_nullIndex_iff {strings : StringStore} (hnodup : strings.Nodup) {i : ℕ}
    {s : Option String} (hi : strings[i]? = some s) : (i : ℤ) = strings.nullIndex ↔ s = none := by
  obtain ⟨hlt, rfl⟩ := List.getElem?_eq_some_iff.mp hi
  by_cases hmem : none ∈ strings
  · rw [nullIndex, if_pos hmem, Nat.cast_inj]
    constructor
    · rintro rfl
      exact List.getElem_idxOf _
    · intro hnone
      rw [← hnone, hnodup.idxOf_getElem]
  · rw [nullIndex, if_neg hmem]
    refine iff_of_false (by omega) (fun hnone => hmem ?_)
    rw [← hnone]
    exact List.getElem_mem hlt

/-- A store that is not too large is read back from its table. -/
theorem reads_table {strings : StringStore} (hnodup : strings.Nodup)
    (hsize : strings.length < 2 ^ 15) {bytes : List Byte} (h : strings.writeBinary = .ok bytes) :
    Reads readBinary bytes strings := by
  rw [writeBinary] at h
  cases hutfs : strings.mapM utfOf with
  | error e =>
    rw [hutfs] at h
    exact nomatch h
  | ok utfs =>
    rw [hutfs] at h
    cases h
    have hlow : -2 ^ 15 ≤ strings.nullIndex ∧ strings.nullIndex < 2 ^ 15 := by
      rw [nullIndex]
      split_ifs with hmem
      · have hlt := List.idxOf_lt_length_of_mem hmem
        omega
      · omega
    have hstrings : Reads (readStrings strings.nullIndex strings.length 0) utfs.flatten strings :=
      reads_strings strings
        (fun i s hi => by rw [Nat.zero_add]; exact eq_nullIndex_iff hnodup hi) hutfs
    rw [List.append_assoc]
    refine (reads_short_nat hsize).bind ((reads_short hlow.1 hlow.2).bind ?_)
    rw [if_neg (by omega)]
    exact hstrings

end StringStore

end JavaFx.Css
