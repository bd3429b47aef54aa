/-
`PNGIDATChunkInputStream`: the data of the IDAT chunks of a PNG stream as one stream.

The stream counts the bytes that are left of the current chunk and goes to the next one
when none are. It takes "none are left after going to the next chunk" for the end of the
data. A chunk without data, which the format allows, looks the same: `read` then returns
-1 although there are more chunks, and `isFoundAllIDATChunks` is still false.

`delivers_iff` says for which chunks no sequence of calls meets this: all the chunks
behind the first one have data. (An empty first chunk is left by the first call.)
-/
import JavaFx.Lib.DataStream

set_option autoImplicit false

namespace JavaFx.Iio

open JavaFx.Lib

/-- The source: the bytes to come, and how many of the bytes asked for the next calls
deliver or skip. When the list is at its end, they deliver all that is asked for. -/
structure Source where
  bytes : List Byte
  pieces : List ℕ

namespace Source

variable (source : Source)

/-- `read()`, `none` for -1. -/
def read : Source × Option Byte :=
  match source.bytes with
  | [] => (source, none)
  | b :: bytes => ({ source with bytes }, some b)

/-- `read(b, off, n)`, with the bytes written from `off` on, `none` for -1. It waits for at
least one byte. -/
def readInto (n : ℕ) : Source × Option (List Byte) :=
  let piece := min (max 1 (source.pieces.headD n)) n
  if source.bytes = [] then (source, none)
  else (⟨source.bytes.drop piece, source.pieces.tail⟩, some (source.bytes.take piece))

/-- `skip(n)`, with the number of bytes skipped, which may be 0. -/
def skip (n : ℕ) : Source × ℕ :=
  let piece := min (min (source.pieces.headD n) n) source.bytes.length
  (⟨source.bytes.drop piece, source.pieces.tail⟩, piece)

/-- The loop of `ImageTools.skipFully`; every round takes at least one byte. -/
def skipLoop : (fuel n : ℕ) → Source → Except Failure Source
  | 0, _, source => .ok source
  | fuel + 1, n, source =>
    if n = 0 then .ok source
    else
      let (source, skipped) := source.skip n
      if skipped = 0 then
        -- check if the EOF is reached
        match source.read with
        | (_, none) => .error .io
        | (source, some _) => skipLoop fuel (n - 1) source
      else skipLoop fuel (n - skipped) source

/-- `ImageTools.skipFully`. -/
def skipFully (n : ℕ) : Except Failure Source := skipLoop n n source

/-- `readInt` of the `DataInputStream`. -/
def readInt : Except Failure (ℤ × Source) :=
  match Lib.readInt.run source.bytes with
  | .ok (v, bytes) => .ok (v, { source with bytes })
  | .error e => .error e

end Source

def IDAT_TYPE : ℤ := 0x49444154

/-- The fields. -/
structure PNGIDATChunkInputStream where
  source : Source
  numBytesAvailable : ℤ
  foundAllIDATChunks : Bool
  nextChunkLength : ℤ
  nextChunkType : ℤ

/-- The calls of a client. -/
inductive ReadCall
  | read
  | readInto (len : {n : ℕ // 0 < n})

namespace PNGIDATChunkInputStream

/-- The constructor. -/
def new (input : Source) (firstIDATChunkLength : ℤ) : Except Failure PNGIDATChunkInputStream :=
  if firstIDATChunkLength < 0 then .error .io
  else .ok ⟨input, firstIDATChunkLength, false, 0, 0⟩

variable (s : PNGIDATChunkInputStream)

/-- `nextChunk`. It is called only when no bytes are available, so the sum is the length. -/
def nextChunk : Except Failure PNGIDATChunkInputStream :=
  if s.foundAllIDATChunks then .ok s
  else do
    let source ← s.source.skipFully 4 -- CRC
    let (chunkLength, source) ← source.readInt
    if chunkLength < 0 then throw .io
    let (chunkType, source) ← source.readInt
    if chunkType = IDAT_TYPE then
      return { s with source, numBytesAvailable := s.numBytesAvailable + chunkLength }
    else
      return { s with
        source
        foundAllIDATChunks := true
        nextChunkLength := chunkLength
        nextChunkType := chunkType }

/-- `if (numBytesAvailable == 0) nextChunk();` -/
def nextChunkIfEmpty : Except Failure PNGIDATChunkInputStream :=
  if s.numBytesAvailable = 0 then s.nextChunk else .ok s

/-- `read()`, with the byte delivered, `none` for -1. -/
def read : Except Failure (PNGIDATChunkInputStream × Option (List Byte)) := do
  let s ← s.nextChunkIfEmpty
  if s.numBytesAvailable = 0 then return (s, none)
  else
    let (source, b) := s.source.read
    return ({ s with source, numBytesAvailable := s.numBytesAvailable - 1 }, b.map ([·]))

/-- The loop of `read(b, off, len)`; `got` has been read. Every round reads at least one
byte. -/
def readLoop : (fuel : ℕ) → PNGIDATChunkInputStream → (len : ℕ) → (got : List Byte) →
    Except Failure (PNGIDATChunkInputStream × List Byte)
  | 0, s, _, got => .ok (s, got)
  | fuel + 1, s, len, got =>
    if s.numBytesAvailable > 0 ∧ len > 0 then
      let numToRead := if len < s.numBytesAvailable then len else s.numBytesAvailable.toNat
      match s.source.readInto numToRead with
      | (_, none) => .error .io
      | (source, some bytes) =>
        let s := { s with source, numBytesAvailable := s.numBytesAvailable - bytes.length }
        let len := len - bytes.length
        match if len > 0 then s.nextChunkIfEmpty else .ok s with
        | .ok s => readLoop fuel s len (got ++ bytes)
        | .error e => .error e
    else .ok (s, got)

/-- `read(b, off, len)`, with the bytes delivered, `none` for -1. -/
def readInto (len : ℕ) : Except Failure (PNGIDATChunkInputStream × Option (List Byte)) := do
  let s ← s.nextChunkIfEmpty
  if s.numBytesAvailable = 0 then return (s, none)
  else
    let (s, got) ← s.readLoop len len []
    return (s, some got)

def call : ReadCall → Except Failure (PNGIDATChunkInputStream × Option (List Byte))
  | .read => s.read
  | .readInto len => s.readInto len

end PNGIDATChunkInputStream

/-! ## The format -/

/-- An IDAT chunk. -/
structure Chunk where
  payload : List Byte
  crc : List Byte
  payload_lt : payload.length < 2 ^ 31
  crc_length : crc.length = 4

/-- The chunk behind the last IDAT chunk, from its data on, and the rest of the stream. -/
structure NextChunk where
  length : ℤ
  type : ℤ
  rest : List Byte
  length_nonneg : 0 ≤ length
  length_lt : length < 2 ^ 31
  type_le : -2 ^ 31 ≤ type
  type_lt : type < 2 ^ 31
  type_ne : type ≠ IDAT_TYPE

/-- The bytes behind the checksum of a chunk. -/
def following (next : NextChunk) : List Chunk → List Byte
  | [] => writeInt next.length ++ (writeInt next.type ++ next.rest)
  | c :: chunks => writeInt c.payload.length ++ (writeInt IDAT_TYPE
      ++ (c.payload ++ (c.crc ++ following next chunks)))

/-- The data of the chunks. -/
def payloads (chunks : List Chunk) : List Byte := chunks.flatMap Chunk.payload

namespace PNGIDATChunkInputStream

/-- The stream, positioned at the data of the first chunk. -/
def start (first : Chunk) (chunks : List Chunk) (next : NextChunk) (pieces : List ℕ) :
    Except Failure PNGIDATChunkInputStream :=
  new ⟨first.payload ++ (first.crc ++ following next chunks), pieces⟩ first.payload.length

/-- Each of the calls delivers some of the bytes that are left, in order, and never more
than asked for. When no bytes are left, and only then, it returns -1, and the next chunk has
been found. -/
def Delivers (next : NextChunk) : PNGIDATChunkInputStream → (left : List Byte) → List ReadCall → Prop
  | _, _, [] => True
  | s, left, c :: calls => ∃ s' outcome, s.call c = .ok (s', outcome) ∧
      match outcome with
      | none => left = [] ∧ s'.foundAllIDATChunks = true ∧ s'.nextChunkLength = next.length
          ∧ s'.nextChunkType = next.type ∧ Delivers next s' left calls
      | some bytes => bytes ≠ []
          ∧ (match c with
            | .read => bytes.length = 1
            | .readInto len => bytes.length ≤ len)
          ∧ ∃ left', left = bytes ++ left' ∧ Delivers next s' left' calls

end PNGIDATChunkInputStream

end JavaFx.Iio

/-!
What `PNGIDATChunkInputStream` delivers.

At any time the stream is in a chunk, with part of its data still to come and the chunks
that follow it behind its checksum (`InChunk`), or it has found the next chunk (`Found`).
Going to the next chunk leads from one to the other, and a call delivers from the data of
the chunk it is in.
-/

namespace JavaFx.Iio

open JavaFx.Lib

/-! ## The source -/

namespace Source

variable {source : Source} {n fuel : ℕ} {bytes rest : List Byte} {pieces : List ℕ}

/-- Whatever the pieces are, `skipFully` leaves out `n` bytes. -/
theorem skipLoop_spec (hfuel : n ≤ fuel) (hbytes : bytes.length = n) (pieces : List ℕ) :
    ∃ pieces', skipLoop fuel n ⟨bytes ++ rest, pieces⟩ = .ok ⟨rest, pieces'⟩ := by
  induction fuel generalizing n bytes pieces with
  | zero =>
    obtain rfl : n = 0 := Nat.le_zero.mp hfuel
    rw [List.length_eq_zero_iff.mp hbytes]
    exact ⟨pieces, rfl⟩
  | succ fuel ih =>
    rw [skipLoop]
    by_cases hn : n = 0
    · rw [if_pos hn]
      rw [hn] at hbytes
      rw [List.length_eq_zero_iff.mp hbytes]
      exact ⟨pieces, rfl⟩
    rw [if_neg hn]
    generalize hpiece : min (min (pieces.headD n) n) (bytes ++ rest).length = piece
    have hle : piece ≤ bytes.length := by
      rw [← hpiece, hbytes]
      exact (min_le_left _ _).trans (min_le_right _ _)
    simp only [skip, hpiece]
    by_cases hzero : piece = 0
    · -- nothing was skipped, so one byte is read
      rw [if_pos hzero, hzero, List.drop_zero]
      cases bytes with
      | nil => exact absurd hbytes.symm hn
      | cons b bytes =>
        apply ih
        · omega
        · rw [← hbytes, List.length_cons, Nat.add_sub_cancel]
    · rw [if_neg hzero, List.drop_append_of_le_length hle]
      apply ih
      · omega
      · rw [List.length_drop, hbytes]

theorem skipFully_spec (hbytes : bytes.length = n) (pieces : List ℕ) :
    ∃ pieces', skipFully ⟨bytes ++ rest, pieces⟩ n = .ok ⟨rest, pieces'⟩ :=
  skipLoop_spec (le_refl n) hbytes pieces

theorem readInt_spec {v : ℤ} (hlow : -2 ^ 31 ≤ v) (hhigh : v < 2 ^ 31) :
    readInt ⟨writeInt v ++ rest, pieces⟩ = .ok (v, ⟨rest, pieces⟩) := by
  rw [readInt, reads_int hlow hhigh rest]

/-- A read takes some of the bytes, and no more than asked for. -/
theorem readInto_spec (hbytes : bytes ≠ []) (hn : 0 < n) (hle : n ≤ bytes.length) :
    ∃ taken left pieces', readInto ⟨bytes ++ rest, pieces⟩ n
        = (⟨left ++ rest, pieces'⟩, some taken)
      ∧ bytes = taken ++ left ∧ taken ≠ [] ∧ taken.length ≤ n := by
  generalize hpiece : min (max 1 (pieces.headD n)) n = piece
  have hpos : 0 < piece := by omega
  have hle' : piece ≤ n := by omega
  have hne : bytes ++ rest ≠ [] := List.append_ne_nil_of_left_ne_nil hbytes rest
  refine ⟨bytes.take piece, bytes.drop piece, pieces.tail, ?_, (List.take_append_drop _ _).symm,
    ?_, ?_⟩
  · simp only [readInto, hpiece]
    rw [if_neg hne, List.drop_append_of_le_length (hle'.trans hle),
      List.take_append_of_le_length (hle'.trans hle)]
  · rw [← List.length_pos_iff, List.length_take]
    omega
  · rw [List.length_take]
    omega

end Source

namespace PNGIDATChunkInputStream

variable {s : PNGIDATChunkInputStream} {next : NextChunk} {chunks : List Chunk} {c : Chunk}
  {cur left : List Byte}

theorem payloads_cons (c : Chunk) (chunks : List Chunk) :
    payloads (c :: chunks) = c.payload ++ payloads chunks := by
  rw [payloads, List.flatMap_cons, payloads]

/-! ## Where the stream is -/

/-- `cur` is still to come of the data of a chunk, and `chunks` follow it. -/
structure InChunk (next : NextChunk) (s : PNGIDATChunkInputStream) (cur : List Byte)
    (chunks : List Chunk) : Prop where
  bytes : ∃ crc : List Byte, crc.length = 4
    ∧ s.source.bytes = cur ++ (crc ++ following next chunks)
  available : s.numBytesAvailable = cur.length
  searching : s.foundAllIDATChunks = false

/-- The next chunk has been found. -/
structure Found (next : NextChunk) (s : PNGIDATChunkInputStream) : Prop where
  available : s.numBytesAvailable = 0
  found : s.foundAllIDATChunks = true
  length : s.nextChunkLength = next.length
  type : s.nextChunkType = next.type

theorem inChunk_start (first : Chunk) (chunks : List Chunk) (next : NextChunk) (pieces : List ℕ) :
    ∃ s, start first chunks next pieces = .ok s ∧ InChunk next s first.payload chunks := by
  refine ⟨⟨⟨first.payload ++ (first.crc ++ following next chunks), pieces⟩,
    first.payload.length, false, 0, 0⟩, ?_, ⟨first.crc, first.crc_length, rfl⟩, rfl, rfl⟩
  rw [start, new, if_neg (by omega)]

/-- The source at the end of a chunk, without the checksum. -/
theorem InChunk.skip_crc (h : InChunk next s [] chunks) : ∃ pieces,
    s.source.skipFully 4 = .ok ⟨following next chunks, pieces⟩ := by
  obtain ⟨crc, hcrc, hbytes⟩ := h.bytes
  have hsource : s.source = ⟨crc ++ following next chunks, s.source.pieces⟩ := by
    rw [← List.nil_append (crc ++ _), ← hbytes]
  rw [hsource]
  exact Source.skipFully_spec hcrc s.source.pieces

/-- From the end of a chunk to the next one. -/
theorem InChunk.nextChunk_cons (h : InChunk next s [] (c :: chunks)) :
    ∃ s', s.nextChunk = .ok s' ∧ InChunk next s' c.payload chunks := by
  obtain ⟨pieces, hskip⟩ := h.skip_crc
  have hlt := c.payload_lt
  refine ⟨{ s with
    source := ⟨c.payload ++ (c.crc ++ following next chunks), pieces⟩
    numBytesAvailable := s.numBytesAvailable + c.payload.length }, ?_,
    ⟨c.crc, c.crc_length, rfl⟩, ?_, h.searching⟩
  · rw [nextChunk, h.searching, if_neg Bool.false_ne_true, hskip, ok_bind, following,
      Source.readInt_spec (by omega) (by omega), ok_bind]
    dsimp only
    rw [if_neg (by omega), Source.readInt_spec (by decide) (by decide), ok_bind]
    dsimp only
    rw [if_pos rfl]
    rfl
  · rw [h.available]
    simp

/-- From the end of the last IDAT chunk to the chunk behind it. -/
theorem InChunk.nextChunk_nil (h : InChunk next s [] []) :
    ∃ s', s.nextChunk = .ok s' ∧ Found next s' := by
  obtain ⟨pieces, hskip⟩ := h.skip_crc
  have hnonneg := next.length_nonneg
  refine ⟨{ s with
    source := ⟨next.rest, pieces⟩
    foundAllIDATChunks := true
    nextChunkLength := next.length
    nextChunkType := next.type }, ?_, h.available, rfl, rfl, rfl⟩
  rw [nextChunk, h.searching, if_neg Bool.false_ne_true, hskip, ok_bind, following,
    Source.readInt_spec (by omega) next.length_lt, ok_bind]
  dsimp only
  rw [if_neg (by omega), Source.readInt_spec next.type_le next.type_lt, ok_bind]
  dsimp only
  rw [if_neg next.type_ne]
  rfl

/-- The bytes that are left, while every chunk that follows has data. -/
inductive At (next : NextChunk) (s : PNGIDATChunkInputStream) : List Byte → Prop
  | inChunk {cur : List Byte} {chunks : List Chunk} (h : InChunk next s cur chunks)
      (hdata : ∀ c ∈ chunks, c.payload ≠ []) : At next s (cur ++ payloads chunks)
  | found (h : Found next s) : At next s []

/-- After `nextChunkIfEmpty` no bytes are available only where the next chunk is found. -/
theorem At.nextChunkIfEmpty (h : At next s left) : ∃ s', s.nextChunkIfEmpty = .ok s'
    ∧ At next s' left ∧ (s'.numBytesAvailable = 0 → Found next s' ∧ left = []) := by
  rw [PNGIDATChunkInputStream.nextChunkIfEmpty]
  cases h with
  | found h =>
    have hnext : s.nextChunk = .ok s := by rw [nextChunk, if_pos h.found]
    rw [if_pos h.available]
    exact ⟨s, hnext, .found h, fun _ => ⟨h, rfl⟩⟩
  | @inChunk cur chunks h hdata =>
    by_cases hempty : cur = []
    · subst hempty
      rw [if_pos (by rw [h.available]; rfl)]
      cases chunks with
      | nil =>
        obtain ⟨s', hnext, hfound⟩ := h.nextChunk_nil
        exact ⟨s', hnext, .found hfound, fun _ => ⟨hfound, rfl⟩⟩
      | cons c chunks =>
        obtain ⟨s', hnext, h'⟩ := h.nextChunk_cons
        rw [List.nil_append, payloads_cons]
        refine ⟨s', hnext, .inChunk h' (fun c' hc' => hdata c' (List.mem_cons_of_mem c hc')),
          fun hzero => ?_⟩
        rw [h'.available, Int.natCast_eq_zero, List.length_eq_zero_iff] at hzero
        exact absurd hzero (hdata c List.mem_cons_self)
    · have hne : s.numBytesAvailable ≠ 0 := by
        rw [h.available, ne_eq, Int.natCast_eq_zero, List.length_eq_zero_iff]
        exact hempty
      rw [if_neg hne]
      exact ⟨s, rfl, .inChunk h hdata, fun hzero => absurd hzero hne⟩

/-! ## Every call delivers -/

/-- Where bytes are available, they are those of the chunk. -/
theorem At.available (h : At next s left) (hne : s.numBytesAvailable ≠ 0) :
    ∃ cur chunks, InChunk next s cur chunks ∧ cur ≠ [] ∧ (∀ c ∈ chunks, c.payload ≠ [])
      ∧ left = cur ++ payloads chunks := by
  cases h with
  | found h => exact absurd h.available hne
  | @inChunk cur chunks h hdata =>
    refine ⟨cur, chunks, h, ?_, hdata, rfl⟩
    rintro rfl
    exact hne h.available

/-- The stream, after some bytes of its chunk have been read. -/
theorem InChunk.taken {taken rest : List Byte} {pieces : List ℕ}
    (h : InChunk next s (taken ++ rest) chunks) {crc : List Byte} (hcrc : crc.length = 4) :
    InChunk next { s with
      source := ⟨rest ++ (crc ++ following next chunks), pieces⟩
      numBytesAvailable := s.numBytesAvailable - taken.length } rest chunks := by
  refine ⟨⟨crc, hcrc, rfl⟩, ?_, h.searching⟩
  change s.numBytesAvailable - taken.length = rest.length
  rw [h.available, List.length_append]
  omega

/-- The loop keeps to the bytes that are left, and has read one at least. -/
theorem readLoop_spec {fuel len : ℕ} {got : List Byte} (h : At next s left) (hfuel : len ≤ fuel) :
    ∃ s' bytes left', s.readLoop fuel len got = .ok (s', got ++ bytes) ∧ left = bytes ++ left'
      ∧ At next s' left' ∧ bytes.length ≤ len
      ∧ (s.numBytesAvailable ≠ 0 → 0 < len → bytes ≠ []) := by
  induction fuel generalizing s len got left with
  | zero =>
    refine ⟨s, [], left, by rw [readLoop, List.append_nil], rfl, h, Nat.zero_le _, ?_⟩
    exact fun _ hlen => absurd hlen (by omega)
  | succ fuel ih =>
    rw [readLoop]
    by_cases hround : s.numBytesAvailable > 0 ∧ len > 0
    swap
    · rw [if_neg hround]
      refine ⟨s, [], left, by rw [List.append_nil], rfl, h, Nat.zero_le _, fun hne hlen => ?_⟩
      obtain ⟨cur, chunks, h', -, -, -⟩ := h.available hne
      rw [h'.available] at hne hround
      omega
    obtain ⟨cur, chunks, h', hcur, hdata, rfl⟩ := h.available hround.1.ne'
    obtain ⟨crc, hcrc, hbytes⟩ := h'.bytes
    have havailable := h'.available
    rw [if_pos hround]
    generalize hnum : (if (len : ℤ) < s.numBytesAvailable then len
      else s.numBytesAvailable.toNat) = numToRead
    have hpos : 0 < cur.length := List.length_pos_iff.mpr hcur
    have hnum' : 0 < numToRead ∧ numToRead ≤ cur.length ∧ numToRead ≤ len := by
      split_ifs at hnum <;> omega
    have hsource : s.source = ⟨cur ++ (crc ++ following next chunks), s.source.pieces⟩ := by
      rw [← hbytes]
    obtain ⟨taken, rest, pieces, hread, rfl, htaken, hlen⟩ :=
      @Source.readInto_spec numToRead cur (crc ++ following next chunks) s.source.pieces
        hcur hnum'.1 hnum'.2.1
    dsimp only
    rw [hsource, hread]
    dsimp only
    have hat : At next { s with
        source := ⟨rest ++ (crc ++ following next chunks), pieces⟩
        numBytesAvailable := s.numBytesAvailable - taken.length } (rest ++ payloads chunks) :=
      .inChunk (h'.taken hcrc) hdata
    -- the next chunk is looked for when more bytes are wanted
    obtain ⟨s₁, hnext, hat₁⟩ : ∃ s₁, (if len - taken.length > 0 then
        PNGIDATChunkInputStream.nextChunkIfEmpty { s with
          source := ⟨rest ++ (crc ++ following next chunks), pieces⟩
          numBytesAvailable := s.numBytesAvailable - taken.length }
        else .ok { s with
          source := ⟨rest ++ (crc ++ following next chunks), pieces⟩
          numBytesAvailable := s.numBytesAvailable - taken.length }) = .ok s₁
        ∧ At next s₁ (rest ++ payloads chunks) := by
      split_ifs
      · obtain ⟨s₁, hnext, hat₁, -⟩ := hat.nextChunkIfEmpty
        exact ⟨s₁, hnext, hat₁⟩
      · exact ⟨_, rfl, hat⟩
    rw [hnext]
    have hpos' : 0 < taken.length := List.length_pos_iff.mpr htaken
    obtain ⟨s', bytes, left', hloop, hleft, hat', hle, -⟩ :=
      @ih s₁ _ (len - taken.length) (got ++ taken) hat₁ (by omega)
    refine ⟨s', taken ++ bytes, left', ?_, ?_, hat', ?_, fun _ _ => ?_⟩
    · rw [← List.append_assoc]
      exact hloop
    · rw [List.append_assoc, hleft, List.append_assoc]
    · rw [List.length_append]
      omega
    · exact List.append_ne_nil_of_left_ne_nil htaken _

/-- One call while all the chunks to come have data. -/
theorem At.call (h : At next s left) (c : ReadCall) : ∃ s' outcome left',
    s.call c = .ok (s', outcome) ∧ At next s' left'
      ∧ match outcome with
        | none => Found next s' ∧ left = [] ∧ left' = []
        | some bytes => bytes ≠ [] ∧ left = bytes ++ left'
            ∧ match c with
              | .read => bytes.length = 1
              | .readInto len => bytes.length ≤ len := by
  obtain ⟨s₁, hnext, hat, hend⟩ := h.nextChunkIfEmpty
  by_cases hzero : s₁.numBytesAvailable = 0
  · -- the end of the data
    obtain ⟨hfound, rfl⟩ := hend hzero
    refine ⟨s₁, none, [], ?_, hat, hfound, rfl, rfl⟩
    cases c with
    | read => rw [PNGIDATChunkInputStream.call, read, hnext, ok_bind, if_pos hzero, pure_eq_ok]
    | readInto len =>
      rw [PNGIDATChunkInputStream.call, readInto, hnext, ok_bind, if_pos hzero, pure_eq_ok]
  cases c with
  | read =>
    obtain ⟨cur, chunks, h', hcur, hdata, rfl⟩ := hat.available hzero
    obtain ⟨crc, hcrc, hbytes⟩ := h'.bytes
    obtain ⟨b, cur, rfl⟩ := List.exists_cons_of_ne_nil hcur
    refine ⟨_, some [b], cur ++ payloads chunks, ?_,
      .inChunk (@InChunk.taken _ next chunks [b] cur s₁.source.pieces h' crc hcrc) hdata,
      List.cons_ne_nil _ _, rfl, rfl⟩
    rw [PNGIDATChunkInputStream.call, read, hnext, ok_bind, if_neg hzero, Source.read, hbytes]
    rfl
  | readInto len =>
    obtain ⟨s', bytes, left', hloop, hleft, hat', hle, hne⟩ :=
      @readLoop_spec s₁ next left len len [] hat (le_refl _)
    refine ⟨s', some bytes, left', ?_, hat', hne hzero len.2, hleft, hle⟩
    rw [PNGIDATChunkInputStream.call, readInto, hnext, ok_bind, if_neg hzero, hloop]
    rfl

theorem At.delivers (h : At next s left) (calls : List ReadCall) : Delivers next s left calls := by
  induction calls generalizing s left with
  | nil => trivial
  | cons c calls ih =>
    obtain ⟨s', outcome, left', hcall, hat, houtcome⟩ := h.call c
    refine ⟨s', outcome, hcall, ?_⟩
    cases outcome with
    | none =>
      obtain ⟨hfound, rfl, rfl⟩ := houtcome
      exact ⟨rfl, hfound.found, hfound.length, hfound.type, ih hat⟩
    | some bytes =>
      obtain ⟨hne, hleft, hlength⟩ := houtcome
      exact ⟨hne, hlength, left', hleft, ih hat⟩

/-! ## A chunk without data -/

/-- Reading a byte of the chunk. -/
theorem InChunk.read {b : Byte} (h : InChunk next s (b :: cur) chunks) :
    ∃ s', s.call .read = .ok (s', some [b]) ∧ InChunk next s' cur chunks := by
  obtain ⟨crc, hcrc, hbytes⟩ := h.bytes
  have hne : s.numBytesAvailable ≠ 0 := by
    rw [h.available, List.length_cons]
    omega
  refine ⟨_, ?_, @InChunk.taken _ next chunks [b] cur s.source.pieces h crc hcrc⟩
  rw [call, PNGIDATChunkInputStream.read, PNGIDATChunkInputStream.nextChunkIfEmpty, if_neg hne,
    ok_bind, if_neg hne, Source.read, hbytes]
  rfl

/-- Reading a byte at the end of a chunk is reading the first byte of the next one. -/
theorem call_read_of_nextChunk {s₁ : PNGIDATChunkInputStream} (hzero : s.numBytesAvailable = 0)
    (hnext : s.nextChunk = .ok s₁) (hne : s₁.numBytesAvailable ≠ 0) :
    s.call .read = s₁.call .read := by
  rw [call, call, PNGIDATChunkInputStream.read, PNGIDATChunkInputStream.read,
    PNGIDATChunkInputStream.nextChunkIfEmpty, PNGIDATChunkInputStream.nextChunkIfEmpty,
    if_pos hzero, hnext, if_neg hne]

/-- At the end of a chunk, a chunk without data ends the reading. -/
theorem InChunk.not_delivers (h : InChunk next s [] (c :: chunks)) (hempty : c.payload = []) :
    ¬ Delivers next s left [.read] := by
  obtain ⟨s₁, hnext, h₁⟩ := h.nextChunk_cons
  rw [hempty] at h₁
  have hzero : s.numBytesAvailable = 0 := h.available
  have hzero₁ : s₁.numBytesAvailable = 0 := h₁.available
  rintro ⟨s', outcome, hcall, houtcome⟩
  rw [call, PNGIDATChunkInputStream.read, PNGIDATChunkInputStream.nextChunkIfEmpty,
    if_pos hzero, hnext, ok_bind, if_pos hzero₁] at hcall
  obtain ⟨rfl, rfl⟩ := Prod.mk.inj (Except.ok.inj hcall)
  rw [h₁.searching] at houtcome
  exact Bool.false_ne_true houtcome.2.1

/-- What fails at the end of a chunk fails after its bytes have been read one by one. -/
theorem InChunk.not_delivers_append {calls : List ReadCall}
    (hfails : ∀ s, InChunk next s [] chunks → ¬ Delivers next s left calls)
    (h : InChunk next s cur chunks) :
    ¬ Delivers next s (cur ++ left) (List.replicate cur.length .read ++ calls) := by
  induction cur generalizing s with
  | nil => exact hfails s h
  | cons b cur ih =>
    obtain ⟨s₁, hread, h₁⟩ := h.read
    rintro ⟨s', outcome, hcall, houtcome⟩
    obtain ⟨rfl, rfl⟩ := Prod.mk.inj (Except.ok.inj (hread.symm.trans hcall))
    obtain ⟨-, -, left', hleft, hdelivers⟩ := houtcome
    obtain rfl : cur ++ left = left' := List.cons.inj hleft |>.2
    exact ih h₁ hdelivers

/-- Reading byte by byte up to the chunk without data. -/
theorem InChunk.not_delivers_before {before behind : List Chunk}
    (h : InChunk next s cur (before ++ c :: behind)) (hdata : ∀ c ∈ before, c.payload ≠ [])
    (hempty : c.payload = []) : ¬ Delivers next s (cur ++ (payloads before ++ left))
      (List.replicate cur.length .read
        ++ (List.replicate (payloads before).length .read ++ [.read])) := by
  induction before generalizing s cur with
  | nil => exact h.not_delivers_append (fun s hs => hs.not_delivers hempty)
  | cons c' before ih =>
    refine h.not_delivers_append (fun s hs => ?_)
    obtain ⟨b, rest, hpayload⟩ := List.exists_cons_of_ne_nil (hdata c' List.mem_cons_self)
    obtain ⟨s₁, hnext, h₁⟩ := hs.nextChunk_cons
    have hne : s₁.numBytesAvailable ≠ 0 := by
      rw [h₁.available, hpayload, List.length_cons]
      omega
    have hsame := call_read_of_nextChunk hs.available hnext hne
    have hfails := ih h₁ (fun c hc => hdata c (List.mem_cons_of_mem c' hc))
    rw [payloads_cons, List.append_assoc, List.length_append, List.replicate_add,
      List.append_assoc]
    rw [hpayload, List.length_cons, List.replicate_succ] at hfails ⊢
    rintro ⟨s', outcome, hcall, houtcome⟩
    exact hfails ⟨s', outcome, hsame ▸ hcall, houtcome⟩

/-- Reading byte by byte does not get past the first chunk without data. -/
theorem not_delivers_of_payload_eq_nil (first c : Chunk) {before : List Chunk} (behind : List Chunk)
    (next : NextChunk) (hc : c.payload = []) (hbefore : ∀ c ∈ before, c.payload ≠ []) :
    ∃ calls, ¬ ∃ s, start first (before ++ c :: behind) next [] = .ok s
      ∧ Delivers next s (payloads (first :: (before ++ c :: behind))) calls := by
  refine ⟨List.replicate first.payload.length .read
    ++ (List.replicate (payloads before).length .read ++ [.read]), ?_⟩
  rintro ⟨s', hs', hdelivers⟩
  obtain ⟨s, hs, hin⟩ := inChunk_start first (before ++ c :: behind) next []
  obtain rfl : s = s' := Except.ok.inj (hs.symm.trans hs')
  apply hin.not_delivers_before hbefore hc
  rw [payloads_cons, payloads, List.flatMap_append] at hdelivers
  exact hdelivers

/-- **The IDAT stream.** It delivers the data of the chunks, whatever the calls and however
the source delivers its bytes, exactly if every chunk behind the first one has data. -/
theorem delivers_iff (first : Chunk) (chunks : List Chunk) (next : NextChunk) :
    (∀ (pieces : List ℕ) (calls : List ReadCall), ∃ s, start first chunks next pieces = .ok s
      ∧ Delivers next s (payloads (first :: chunks)) calls)
    ↔ ∀ c ∈ chunks, c.payload ≠ [] := by
  constructor
  · intro h c hmem hempty
    have hfind : (chunks.find? (fun c => c.payload = [])).isSome := by
      rw [List.find?_isSome]
      exact ⟨c, hmem, decide_eq_true hempty⟩
    obtain ⟨c', hc'⟩ := Option.isSome_iff_exists.mp hfind
    obtain ⟨hc, before, behind, rfl, hbefore⟩ := List.find?_eq_some_iff_append.mp hc'
    obtain ⟨calls, hcalls⟩ := not_delivers_of_payload_eq_nil first c' behind next
      (of_decide_eq_true hc) (fun a ha => by simpa using hbefore a ha)
    exact hcalls (h [] calls)
  · intro hdata pieces calls
    obtain ⟨s, hs, hin⟩ := inChunk_start first chunks next pieces
    refine ⟨s, hs, ?_⟩
    rw [payloads_cons]
    exact (At.inChunk hin hdata).delivers calls

/-- Two chunks of one byte, with one without data between them, read byte by byte. -/
theorem not_delivers : ¬ ∀ (first : Chunk) (chunks : List Chunk) (next : NextChunk)
    (pieces : List ℕ) (calls : List ReadCall), ∃ s, start first chunks next pieces = .ok s
      ∧ Delivers next s (payloads (first :: chunks)) calls := by
  intro h
  obtain ⟨calls, hcalls⟩ := @not_delivers_of_payload_eq_nil ⟨[1], [0, 0, 0, 0], by decide, rfl⟩
    ⟨[], [0, 0, 0, 0], by decide, rfl⟩ [] [⟨[2], [0, 0, 0, 0], by decide, rfl⟩]
    ⟨0, 0x49454E44, [], by decide, by decide, by decide, by decide, by decide⟩ rfl
    (fun c hc => absurd hc List.not_mem_nil)
  exact hcalls (h _ _ _ [] calls)

end PNGIDATChunkInputStream

end JavaFx.Iio
