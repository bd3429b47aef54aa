/-
`VariantPlaylist` of `com.sun.media.jfxmedia.locator.HLSConnectionHolder`, and the loop of
`stateInit` that loads the variants.

Bitrates, locations and playlists are related by their index only. A location that is no URI
leaves its bitrate and adds no playlist, so the bitrates behind it are one place off. The
search for the greatest bitrate below a bound does not note the first bitrate it meets, so any
later one takes its place.

`getPlaylistBasedOnBitrate_right` says which variants are safe from both.
-/
import JavaFx.Lib.Java
import Mathlib.Data.List.GetD
import Mathlib.Data.List.Induction
import Mathlib.Data.List.Nodup

set_option autoImplicit false

namespace JavaFx.Media

/-- What comes of a location: `none` if it is no URI, else the media file extension of the
playlist there, which may have none. -/
abbrev Location := Option (Option String)

/-- A variant as the parser reads it; it leaves out bitrates below 1. -/
structure Variant where
  location : Location
  bitrate : ℕ
  bitrate_pos : 0 < bitrate

/-- A playlist that has been loaded; `id` says which. -/
structure Playlist where
  id : ℕ
  mediaFileExtension : Option String

/-- The fields. -/
structure VariantPlaylist where
  infoIndex : ℤ
  playlistsLocations : List Location
  playlistsBitrates : List ℕ
  playlists : List Playlist
  mediaFileExtension : Option String

namespace VariantPlaylist

def new : VariantPlaylist := ⟨-1, [], [], [], none⟩

variable (v : VariantPlaylist)

def addPlaylistInfo (location : Location) (bitrate : ℕ) : VariantPlaylist :=
  { v with
    playlistsLocations := v.playlistsLocations ++ [location]
    playlistsBitrates := v.playlistsBitrates ++ [bitrate] }

def addPlaylist (playlist : Playlist) : VariantPlaylist :=
  match v.mediaFileExtension with
  | none =>
    { v with
      mediaFileExtension := playlist.mediaFileExtension
      playlists := v.playlists ++ [playlist] }
  | some extension =>
    if some extension ≠ playlist.mediaFileExtension then
      -- ignore playlist with different media type
      { v with
        playlistsLocations := v.playlistsLocations.eraseIdx v.infoIndex.toNat
        playlistsBitrates := v.playlistsBitrates.eraseIdx v.infoIndex.toNat
        infoIndex := v.infoIndex - 1 }
    else { v with playlists := v.playlists ++ [playlist] }

def hasNext : VariantPlaylist × Bool :=
  let v := { v with infoIndex := v.infoIndex + 1 }
  (v, v.infoIndex < v.playlistsLocations.length ∧ v.infoIndex < v.playlistsBitrates.length)

/-- The loop of `stateInit`; `created` playlists have been made. -/
def loadLoop : (fuel created : ℕ) → VariantPlaylist → VariantPlaylist
  | 0, _, v => v
  | fuel + 1, created, v =>
    let (v, more) := v.hasNext
    if more then
      match v.playlistsLocations.getD v.infoIndex.toNat none with
      | some extension => loadLoop fuel (created + 1) (v.addPlaylist ⟨created, extension⟩)
      -- `URISyntaxException`, `MalformedURLException`
      | none => loadLoop fuel created v
    else v

/-- `stateInit` of a variant playlist. -/
def stateInit (variants : List Variant) : VariantPlaylist :=
  loadLoop (variants.length + 1) 0
    (variants.foldl (fun v x => v.addPlaylistInfo x.location x.bitrate) new)

/-! ## `getPlaylistBasedOnBitrate` -/

/-- The two variables of the search. -/
structure Choice where
  playlistIndex : ℤ
  playlistBitrate : ℕ

/-- The body of the first loop. -/
def chooseBelow (bitrate : ℤ) (c : Choice) (x : ℕ × ℕ) : Choice :=
  let (b, i) := x
  if (b : ℤ) < bitrate then
    if c.playlistIndex ≠ -1 then
      if c.playlistBitrate < b then ⟨i, b⟩ else c
    else { c with playlistIndex := i }
  else c

/-- The body of the second loop. -/
def chooseLowest (c : Choice) (x : ℕ × ℕ) : Choice :=
  let (b, i) := x
  if b < c.playlistBitrate ∨ c.playlistIndex = -1 then ⟨i, b⟩ else c

/-- The index that both loops end with. -/
def chosenIndex (bitrates : List ℕ) (bitrate : ℤ) : ℤ :=
  let c := bitrates.zipIdx.foldl (chooseBelow bitrate) ⟨-1, 0⟩
  let c := if c.playlistIndex = -1 then bitrates.zipIdx.foldl chooseLowest c else c
  c.playlistIndex

def getPlaylistBasedOnBitrate (bitrate : ℤ) : Option Playlist :=
  let playlistIndex := chosenIndex v.playlistsBitrates bitrate
  if playlistIndex < 0 ∨ (v.playlists.length : ℤ) ≤ playlistIndex then none
  else v.playlists[playlistIndex.toNat]?

end VariantPlaylist

/-! ## What is meant -/

/-- A variant that is not dropped: its bitrate, and its playlist, if it is loaded. -/
structure Kept where
  bitrate : ℕ
  playlist : Option ℕ

/-- The variants that are not dropped for another media type than `extension`; `id` counts
the playlists. -/
def keep (extension : Option String) (id : ℕ) : List Variant → List Kept
  | [] => []
  | x :: variants =>
    match x.location with
    | none => ⟨x.bitrate, none⟩ :: keep extension id variants
    | some ext =>
      if extension = none then ⟨x.bitrate, some id⟩ :: keep ext (id + 1) variants
      else if extension = ext then ⟨x.bitrate, some id⟩ :: keep extension (id + 1) variants
      else keep extension (id + 1) variants

/-- The variants that are not dropped. -/
def kept (variants : List Variant) : List Kept := keep none 0 variants

/-- The bitrate `r` is the greatest one below `bitrate`, or the lowest if there is none. -/
def Best (loaded : List Kept) (bitrate : ℤ) (r : ℕ) : Prop :=
  ((r : ℤ) < bitrate ∧ ∀ k ∈ loaded, (k.bitrate : ℤ) < bitrate → k.bitrate ≤ r)
    ∨ (∀ k ∈ loaded, ¬ (k.bitrate : ℤ) < bitrate) ∧ ∀ k ∈ loaded, r ≤ k.bitrate

/-- The playlist returned for `bitrate` is the best one that is loaded, and there is one
unless none is loaded. -/
def Right (variants : List Variant) (bitrate : ℤ) : Prop :=
  let loaded := (kept variants).filter (·.playlist.isSome)
  match (VariantPlaylist.stateInit variants).getPlaylistBasedOnBitrate bitrate with
  | none => loaded = []
  | some p => ∃ k ∈ loaded, k.playlist = some p.id ∧ Best loaded bitrate k.bitrate

/-- A bitrate with a lower one behind it has one before it that is no greater, or an equal
one behind it. -/
def InOrder (bitrates : List ℕ) : Prop :=
  ∀ i j, i < j → j < bitrates.length → bitrates.getD j 0 < bitrates.getD i 0 →
    (∃ k < i, bitrates.getD k 0 ≤ bitrates.getD i 0)
      ∨ ∃ k, i < k ∧ k < bitrates.length ∧ bitrates.getD k 0 = bitrates.getD i 0

/-- The variants are all loaded and in order, or none is loaded. -/
def Reliable (kept : List Kept) : Prop :=
  (∀ k ∈ kept, k.playlist = none)
    ∨ (∀ k ∈ kept, k.playlist ≠ none) ∧ InOrder (kept.map (·.bitrate))

end JavaFx.Media

/-!
Which variants `getPlaylistBasedOnBitrate` chooses from rightly.

Loading leaves the bitrates of all variants that are not dropped, and the playlists of those
that are loaded (`stateInit_spec`). `Found` says what the search has at any point: nothing,
the only bitrate below the bound, or the greatest one but for the first. With the bitrates in
order the first one is not missed; out of order, or with a variant that is not loaded, some
bound is answered with the wrong playlist.
-/

namespace JavaFx.Media

variable {variants : List Variant} {v : VariantPlaylist} {c fuel : ℕ}
  {extension : Option String}

/-! ## Loading -/

namespace VariantPlaylist

/-- The loop is behind `done` variants that were not dropped; `variants` are to come. -/
structure Midway (v : VariantPlaylist) (done : List ℕ) (variants : List Variant) : Prop where
  infoIndex : v.infoIndex = (done.length : ℤ) - 1
  bitrates : v.playlistsBitrates = done ++ variants.map (·.bitrate)
  locations : ∃ L : List Location, L.length = done.length
    ∧ v.playlistsLocations = L ++ variants.map (·.location)

theorem Midway.hasNext {done : List ℕ} (h : Midway v done variants) :
    v.hasNext = ({ v with infoIndex := done.length }, !variants.isEmpty) := by
  obtain ⟨L, hL, hlocations⟩ := h.locations
  have hindex : v.infoIndex + 1 = done.length := by rw [h.infoIndex]; omega
  unfold VariantPlaylist.hasNext
  dsimp only
  rw [hindex, hlocations, h.bitrates, List.length_append, List.length_append, hL,
    List.length_map, List.length_map]
  cases variants with
  | nil => simp
  | cons x variants => simp

variable {done : List ℕ} {x : Variant}

theorem Midway.loadLoop_nil (h : Midway v done []) :
    loadLoop (fuel + 1) c v = { v with infoIndex := done.length } := by
  rw [loadLoop, h.hasNext]
  rfl

/-- A round of the loop. -/
theorem Midway.loadLoop_cons (h : Midway v done (x :: variants)) :
    loadLoop (fuel + 1) c v
      = match x.location with
        | some ext =>
          loadLoop fuel (c + 1)
            (addPlaylist { v with infoIndex := done.length } ⟨c, ext⟩)
        | none => loadLoop fuel c { v with infoIndex := done.length } := by
  obtain ⟨L, hL, hlocations⟩ := h.locations
  have hat : v.playlistsLocations.getD done.length none = x.location := by
    rw [hlocations, ← hL, List.getD_append_right _ _ _ _ (le_refl _), Nat.sub_self]
    rfl
  rw [loadLoop, h.hasNext]
  change (match v.playlistsLocations.getD (done.length : ℤ).toNat none with
    | some ext => _
    | none => _) = _
  rw [Int.toNat_natCast, hat]

/-- Behind a variant that is not dropped. -/
theorem Midway.past (h : Midway v done (x :: variants)) {w : VariantPlaylist}
    (hindex : w.infoIndex = done.length) (hbitrates : w.playlistsBitrates = v.playlistsBitrates)
    (hlocations : w.playlistsLocations = v.playlistsLocations) :
    Midway w (done ++ [x.bitrate]) variants := by
  obtain ⟨L, hL, hat⟩ := h.locations
  refine ⟨?_, ?_, L ++ [x.location], ?_, ?_⟩
  · rw [hindex, List.length_append, List.length_singleton]
    omega
  · rw [hbitrates, h.bitrates, List.append_assoc]
    rfl
  · rw [List.length_append, List.length_append, hL, List.length_singleton, List.length_singleton]
  · rw [hlocations, hat, List.append_assoc]
    rfl

/-- Behind one that is. -/
theorem Midway.dropped (h : Midway v done (x :: variants)) {w : VariantPlaylist}
    (hindex : w.infoIndex = (done.length : ℤ) - 1)
    (hbitrates : w.playlistsBitrates = v.playlistsBitrates.eraseIdx done.length)
    (hlocations : w.playlistsLocations = v.playlistsLocations.eraseIdx done.length) :
    Midway w done variants := by
  obtain ⟨L, hL, hat⟩ := h.locations
  refine ⟨hindex, ?_, L, hL, ?_⟩
  · rw [hbitrates, h.bitrates, List.eraseIdx_append_of_length_le (le_refl _), Nat.sub_self]
    rfl
  · rw [hlocations, hat, ← hL, List.eraseIdx_append_of_length_le (le_refl _), Nat.sub_self]
    rfl

theorem loadLoop_spec (hfuel : variants.length < fuel) (h : Midway v done variants) :
    (loadLoop fuel c v).playlistsBitrates
        = done ++ (keep v.mediaFileExtension c variants).map (·.bitrate)
      ∧ (loadLoop fuel c v).playlists.map (·.id)
        = v.playlists.map (·.id)
          ++ (keep v.mediaFileExtension c variants).filterMap (·.playlist) := by
  induction variants generalizing fuel c v done with
  | nil =>
    obtain ⟨fuel, rfl⟩ := Nat.exists_eq_succ_of_ne_zero (Nat.ne_of_gt (Nat.zero_lt_of_lt hfuel))
    rw [Nat.succ_eq_add_one, h.loadLoop_nil]
    simp [keep, h.bitrates]
  | cons x variants ih =>
    obtain ⟨fuel, rfl⟩ := Nat.exists_eq_succ_of_ne_zero (Nat.ne_of_gt (Nat.zero_lt_of_lt hfuel))
    have hrest : variants.length < fuel := by
      rw [List.length_cons] at hfuel
      omega
    rw [Nat.succ_eq_add_one, h.loadLoop_cons, keep]
    cases x.location with
    | none =>
      obtain ⟨hbitrates, hplaylists⟩ := ih (c := c) hrest
        (h.past (w := { v with infoIndex := done.length }) rfl rfl rfl)
      exact ⟨by simpa using hbitrates, by simpa using hplaylists⟩
    | some ext =>
      obtain ⟨infoIndex, locations, bitrates, playlists, mediaFileExtension⟩ := v
      cases mediaFileExtension with
      | none =>
        -- the first playlist: its extension is that of all
        obtain ⟨hbitrates, hplaylists⟩ := ih (c := c + 1) hrest
          (h.past (w := ⟨done.length, locations, bitrates, playlists ++ [⟨c, ext⟩], ext⟩)
            rfl rfl rfl)
        exact ⟨by simpa [addPlaylist] using hbitrates, by simpa [addPlaylist] using hplaylists⟩
      | some extension =>
        by_cases hsame : some extension = ext
        · obtain ⟨hbitrates, hplaylists⟩ := ih (c := c + 1) hrest
            (h.past (w := ⟨done.length, locations, bitrates, playlists ++ [⟨c, ext⟩],
              some extension⟩) rfl rfl rfl)
          subst hsame
          exact ⟨by simpa [addPlaylist] using hbitrates,
            by simpa [addPlaylist] using hplaylists⟩
        · obtain ⟨hbitrates, hplaylists⟩ := ih (c := c + 1) hrest
            (h.dropped (w := ⟨(done.length : ℤ) - 1, locations.eraseIdx done.length,
              bitrates.eraseIdx done.length, playlists, some extension⟩) rfl rfl rfl)
          exact ⟨by simpa [addPlaylist, hsame] using hbitrates,
            by simpa [addPlaylist, hsame] using hplaylists⟩

end VariantPlaylist

theorem stateInit_spec (variants : List Variant) :
    (VariantPlaylist.stateInit variants).playlistsBitrates = (kept variants).map (·.bitrate)
      ∧ (VariantPlaylist.stateInit variants).playlists.map (·.id)
        = (kept variants).filterMap (·.playlist) := by
  have hinfo : ∀ (xs : List Variant) (v : VariantPlaylist),
      xs.foldl (fun v x => v.addPlaylistInfo x.location x.bitrate) v
        = { v with
            playlistsLocations := v.playlistsLocations ++ xs.map (·.location)
            playlistsBitrates := v.playlistsBitrates ++ xs.map (·.bitrate) } := by
    intro xs
    induction xs with
    | nil => simp
    | cons x xs ih =>
      intro v
      rw [List.foldl_cons, ih]
      simp [VariantPlaylist.addPlaylistInfo]
  have hstart : VariantPlaylist.Midway { VariantPlaylist.new with
      playlistsLocations := variants.map (·.location)
      playlistsBitrates := variants.map (·.bitrate) } [] variants :=
    ⟨rfl, rfl, [], rfl, rfl⟩
  unfold VariantPlaylist.stateInit
  rw [hinfo]
  exact VariantPlaylist.loadLoop_spec (Nat.lt_succ_self _) hstart

/-- The bitrates that are kept are positive, and the playlists are different ones. -/
theorem keep_spec (variants : List Variant) (extension : Option String) (id : ℕ) :
    (∀ k ∈ keep extension id variants, 0 < k.bitrate)
      ∧ (∀ n ∈ (keep extension id variants).filterMap (·.playlist), id ≤ n)
      ∧ ((keep extension id variants).filterMap (·.playlist)).Nodup := by
  induction variants generalizing extension id with
  | nil => simp [keep]
  | cons x variants ih =>
    have hsome : ∀ ext : Option String,
        (∀ k ∈ (⟨x.bitrate, some id⟩ :: keep ext (id + 1) variants : List Kept), 0 < k.bitrate)
          ∧ (∀ n ∈ (⟨x.bitrate, some id⟩ :: keep ext (id + 1) variants : List Kept).filterMap
              (·.playlist), id ≤ n)
          ∧ ((⟨x.bitrate, some id⟩ :: keep ext (id + 1) variants : List Kept).filterMap
              (·.playlist)).Nodup := by
      intro ext
      obtain ⟨hpos, hle, hnodup⟩ := ih ext (id + 1)
      refine ⟨?_, ?_, ?_⟩
      · exact List.forall_mem_cons.mpr ⟨x.bitrate_pos, hpos⟩
      · intro n hn
        rcases List.mem_cons.mp hn with rfl | hn
        · exact le_refl _
        · exact Nat.le_of_succ_le (hle n hn)
      · refine List.nodup_cons.mpr ⟨fun hmem => ?_, hnodup⟩
        exact Nat.not_succ_le_self _ (hle _ hmem)
    rw [keep]
    cases x.location with
    | none =>
      obtain ⟨hpos, hle, hnodup⟩ := ih extension id
      exact ⟨List.forall_mem_cons.mpr ⟨x.bitrate_pos, hpos⟩, hle, hnodup⟩
    | some ext =>
      dsimp only
      split
      · exact hsome ext
      · split
        · exact hsome extension
        · obtain ⟨hpos, hle, hnodup⟩ := ih extension (id + 1)
          exact ⟨hpos, fun n hn => Nat.le_of_succ_le (hle n hn), hnodup⟩

/-! ## The search -/

namespace VariantPlaylist

variable {B : List ℕ} {b : ℤ}

/-- What the first loop has found in the bitrates `B`. -/
inductive Found (B : List ℕ) (b : ℤ) : Choice → Prop
  | none : (∀ k < B.length, ¬ (B.getD k 0 : ℤ) < b) → Found B b ⟨-1, 0⟩
  | one (i : ℕ) : i < B.length → (B.getD i 0 : ℤ) < b →
      (∀ k < B.length, k ≠ i → ¬ (B.getD k 0 : ℤ) < b) → Found B b ⟨i, 0⟩
  | more (i j : ℕ) : i < j → j < B.length → (B.getD i 0 : ℤ) < b → (B.getD j 0 : ℤ) < b →
      (∀ k < i, ¬ (B.getD k 0 : ℤ) < b) →
      (∀ k < B.length, k ≠ i → (B.getD k 0 : ℤ) < b → B.getD k 0 ≤ B.getD j 0) →
      Found B b ⟨j, B.getD j 0⟩

theorem getD_snoc_lt {x k : ℕ} (hk : k < B.length) : (B ++ [x]).getD k 0 = B.getD k 0 :=
  List.getD_append _ _ _ _ hk

theorem getD_snoc_length (B : List ℕ) (x : ℕ) : (B ++ [x]).getD B.length 0 = x := by
  rw [List.getD_append_right _ _ _ _ (le_refl _), Nat.sub_self]
  rfl

/-- What is known of the places of `B` and of the new one holds of all of `B ++ [x]`. -/
theorem forall_snoc {x : ℕ} {P : ℕ → ℕ → Prop} (h : ∀ k < B.length, P k (B.getD k 0))
    (hx : P B.length x) : ∀ k < (B ++ [x]).length, P k ((B ++ [x]).getD k 0) := by
  intro k hk
  rw [List.length_append, List.length_singleton] at hk
  rcases Nat.lt_succ_iff_lt_or_eq.mp hk with hlt | rfl
  · rw [getD_snoc_lt hlt]
    exact h k hlt
  · rw [getD_snoc_length]
    exact hx

/-- One round. The bitrate that is noted is positive only if it is not the first one. -/
theorem Found.step {x : ℕ} (hx : 0 < x) {c : Choice} (h : Found B b c) :
    Found (B ++ [x]) b (chooseBelow b c (x, B.length)) := by
  have hlen : (B ++ [x]).length = B.length + 1 := by
    rw [List.length_append, List.length_singleton]
  have hlast : B.length < (B ++ [x]).length := by omega
  unfold chooseBelow
  dsimp only
  by_cases hb : (x : ℤ) < b
  · rw [if_pos hb]
    cases h with
    | none hno =>
      rw [if_neg (by decide)]
      refine .one B.length hlast (by rwa [getD_snoc_length]) ?_
      exact forall_snoc (P := fun k y => k ≠ B.length → ¬ (y : ℤ) < b) (fun k hk _ => hno k hk)
        (fun hne => absurd rfl hne)
    | one i hi hbelow honly =>
      rw [if_pos (by dsimp only; omega), if_pos hx]
      have hmore := Found.more (B := B ++ [x]) (b := b) i B.length hi hlast
        (by rwa [getD_snoc_lt hi]) (by rwa [getD_snoc_length])
        (fun k hk => by
          rw [getD_snoc_lt (by omega)]
          exact honly k (by omega) (by omega))
        (by
          rw [getD_snoc_length]
          exact forall_snoc (P := fun k y => k ≠ i → (y : ℤ) < b → y ≤ x)
            (fun k hk hne hlt => absurd hlt (honly k hk hne)) (fun _ _ => le_refl _))
      rwa [getD_snoc_length] at hmore
    | more i j hij hj hi hjb hfirst hmax =>
      rw [if_pos (by dsimp only; omega)]
      dsimp only
      split
      · rename_i hgreater
        have hmore := Found.more (B := B ++ [x]) (b := b) i B.length (by omega) hlast
          (by rwa [getD_snoc_lt (by omega)]) (by rwa [getD_snoc_length])
          (fun k hk => by
            rw [getD_snoc_lt (by omega)]
            exact hfirst k hk)
          (by
            rw [getD_snoc_length]
            exact forall_snoc (P := fun k y => k ≠ i → (y : ℤ) < b → y ≤ x)
              (fun k hk hne hlt => Nat.le_of_lt (Nat.lt_of_le_of_lt (hmax k hk hne hlt) hgreater))
              (fun _ _ => le_refl _))
        rwa [getD_snoc_length] at hmore
      · rename_i hle
        have hmore := Found.more (B := B ++ [x]) (b := b) i j hij (by omega)
          (by rwa [getD_snoc_lt (by omega)]) (by rwa [getD_snoc_lt hj])
          (fun k hk => by
            rw [getD_snoc_lt (by omega)]
            exact hfirst k hk)
          (by
            rw [getD_snoc_lt hj]
            exact forall_snoc (P := fun k y => k ≠ i → (y : ℤ) < b → y ≤ B.getD j 0)
              hmax (fun _ _ => Nat.le_of_not_lt hle))
        rwa [getD_snoc_lt hj] at hmore
  · rw [if_neg hb]
    cases h with
    | none hno => exact .none (forall_snoc (P := fun _ y => ¬ (y : ℤ) < b) hno hb)
    | one i hi hbelow honly =>
      refine .one i (by omega) (by rwa [getD_snoc_lt hi]) ?_
      exact forall_snoc (P := fun k y => k ≠ i → ¬ (y : ℤ) < b) honly (fun _ => hb)
    | more i j hij hj hi hjb hfirst hmax =>
      have hmore := Found.more (B := B ++ [x]) (b := b) i j hij (by omega)
        (by rwa [getD_snoc_lt (by omega)]) (by rwa [getD_snoc_lt hj])
        (fun k hk => by
          rw [getD_snoc_lt (by omega)]
          exact hfirst k hk)
        (by
          rw [getD_snoc_lt hj]
          exact forall_snoc (P := fun k y => k ≠ i → (y : ℤ) < b → y ≤ B.getD j 0)
            hmax (fun _ hlt => absurd hlt hb))
      rwa [getD_snoc_lt hj] at hmore

theorem zipIdx_snoc (B : List ℕ) (x : ℕ) : (B ++ [x]).zipIdx = B.zipIdx ++ [(x, B.length)] := by
  rw [List.zipIdx_append, List.zipIdx_singleton, Nat.zero_add]

theorem found_foldl (hpos : ∀ x ∈ B, 0 < x) :
    Found B b (B.zipIdx.foldl (chooseBelow b) ⟨-1, 0⟩) := by
  induction B using List.reverseRecOn with
  | nil => exact .none fun k hk => absurd hk (Nat.not_lt_zero k)
  | append_singleton B x ih =>
    rw [zipIdx_snoc, List.foldl_append]
    exact (ih fun y hy => hpos y (List.mem_append_left _ hy)).step
      (hpos x (List.mem_append_right _ (List.mem_singleton_self x)))

/-- The second loop finds the lowest bitrate. -/
theorem lowest_foldl (B : List ℕ) :
    B = [] ∧ B.zipIdx.foldl chooseLowest ⟨-1, 0⟩ = ⟨-1, 0⟩
      ∨ ∃ i < B.length, B.zipIdx.foldl chooseLowest ⟨-1, 0⟩ = ⟨i, B.getD i 0⟩
        ∧ ∀ k < B.length, B.getD i 0 ≤ B.getD k 0 := by
  induction B using List.reverseRecOn with
  | nil => exact Or.inl ⟨rfl, rfl⟩
  | append_singleton B x ih =>
    right
    have hlen : (B ++ [x]).length = B.length + 1 := by
      rw [List.length_append, List.length_singleton]
    rw [zipIdx_snoc, List.foldl_append]
    rcases ih with ⟨rfl, hfold⟩ | ⟨i, hi, hfold, hmin⟩
    · refine ⟨0, by simp, by rw [hfold]; rfl, ?_⟩
      intro k hk
      obtain rfl : k = 0 := by simpa using hk
      exact le_refl _
    · rw [hfold]
      by_cases hless : x < B.getD i 0
      · refine ⟨B.length, by omega, ?_, ?_⟩
        · rw [getD_snoc_length]
          exact if_pos (Or.inl hless)
        · rw [getD_snoc_length]
          exact forall_snoc (P := fun _ y => x ≤ y)
            (fun k hk => Nat.le_trans (Nat.le_of_lt hless) (hmin k hk)) (le_refl _)
      · refine ⟨i, by omega, ?_, ?_⟩
        · rw [getD_snoc_lt hi]
          exact if_neg (by dsimp only; omega)
        · rw [getD_snoc_lt hi]
          exact forall_snoc (P := fun _ y => B.getD i 0 ≤ y) hmin (Nat.le_of_not_lt hless)

/-- The index that the search ends with. -/
inductive Chosen (B : List ℕ) (b : ℤ) : ℕ → Prop
  | lowest (i : ℕ) : (∀ k < B.length, ¬ (B.getD k 0 : ℤ) < b) →
      (∀ k < B.length, B.getD i 0 ≤ B.getD k 0) → Chosen B b i
  | only (i : ℕ) : (B.getD i 0 : ℤ) < b →
      (∀ k < B.length, k ≠ i → ¬ (B.getD k 0 : ℤ) < b) → Chosen B b i
  | greatest (i j : ℕ) : i < j → (B.getD i 0 : ℤ) < b → (B.getD j 0 : ℤ) < b →
      (∀ k < i, ¬ (B.getD k 0 : ℤ) < b) →
      (∀ k < B.length, k ≠ i → (B.getD k 0 : ℤ) < b → B.getD k 0 ≤ B.getD j 0) → Chosen B b j

theorem chosenIndex_spec (hpos : ∀ x ∈ B, 0 < x) (hne : B ≠ []) :
    ∃ i < B.length, chosenIndex B b = i ∧ Chosen B b i := by
  have hfound := found_foldl (b := b) hpos
  unfold chosenIndex
  dsimp only
  generalize B.zipIdx.foldl (chooseBelow b) ⟨-1, 0⟩ = c at hfound
  cases hfound with
  | none hno =>
    rcases lowest_foldl B with ⟨hnil, -⟩ | ⟨i, hi, hfold, hmin⟩
    · exact absurd hnil hne
    · exact ⟨i, hi, by rw [if_pos rfl, hfold], .lowest i hno hmin⟩
  | one i hi hbelow honly =>
    exact ⟨i, hi, by rw [if_neg (by dsimp only; omega)], .only i hbelow honly⟩
  | more i j hij hj hi hjb hfirst hmax =>
    exact ⟨j, hj, by rw [if_neg (by dsimp only; omega)], .greatest i j hij hi hjb hfirst hmax⟩

end VariantPlaylist

/-! ## The playlists that go with the bitrates -/

variable {K : List Kept} {k k' : Kept} {b : ℤ}

theorem getD_bitrate {i : ℕ} (hi : i < K.length) :
    (K.map (·.bitrate)).getD i 0 = K[i].bitrate := by
  rw [List.getD_eq_getElem _ _ (by rwa [List.length_map]), List.getElem_map]

/-- If all are loaded, the indices agree. -/
theorem filterMap_of_loaded (hall : ∀ k ∈ K, k.playlist ≠ none) {i : ℕ} (hi : i < K.length) :
    (K.filterMap (·.playlist))[i]? = K[i].playlist := by
  induction K generalizing i with
  | nil => exact absurd hi (Nat.not_lt_zero i)
  | cons k K ih =>
    obtain ⟨id, hid⟩ := Option.ne_none_iff_exists'.mp (hall k (List.mem_cons_self ..))
    rw [List.filterMap_cons_some hid]
    cases i with
    | zero => exact hid.symm
    | succ i => exact ih (fun k hk => hall k (List.mem_cons_of_mem _ hk)) (Nat.lt_of_succ_lt_succ hi)

/-- A playlist goes with one bitrate. -/
theorem eq_of_playlist (hnodup : (K.filterMap (·.playlist)).Nodup) {id : ℕ} (hk : k ∈ K)
    (hk' : k' ∈ K) (hid : k.playlist = some id) (hid' : k'.playlist = some id) : k = k' := by
  induction K with
  | nil => cases hk
  | cons k₀ K ih =>
    have hmem : ∀ k ∈ K, k.playlist = some id → id ∈ K.filterMap (·.playlist) :=
      fun k hk h => List.mem_filterMap.mpr ⟨k, hk, h⟩
    have hrest : (K.filterMap (·.playlist)).Nodup := by
      cases h₀ : k₀.playlist with
      | none => rwa [List.filterMap_cons_none h₀] at hnodup
      | some n =>
        rw [List.filterMap_cons_some h₀] at hnodup
        exact (List.nodup_cons.mp hnodup).2
    rcases List.mem_cons.mp hk with rfl | hkK
    · rcases List.mem_cons.mp hk' with rfl | hkK'
      · rfl
      · rw [List.filterMap_cons_some hid] at hnodup
        exact absurd (hmem k' hkK' hid') (List.nodup_cons.mp hnodup).1
    · rcases List.mem_cons.mp hk' with rfl | hkK'
      · rw [List.filterMap_cons_some hid'] at hnodup
        exact absurd (hmem k hkK hid) (List.nodup_cons.mp hnodup).1
      · exact ih hrest hkK hkK'

theorem length_filterMap_lt (hk : k ∈ K) (hnone : k.playlist = none) :
    (K.filterMap (·.playlist)).length < K.length := by
  induction K with
  | nil => cases hk
  | cons k₀ K ih =>
    have hle : (K.filterMap Kept.playlist).length ≤ K.length := List.length_filterMap_le _ _
    rcases List.mem_cons.mp hk with rfl | hkK
    · rw [List.filterMap_cons_none hnone, List.length_cons]
      omega
    · have hlt : (K.filterMap Kept.playlist).length < K.length := ih hkK
      cases h₀ : k₀.playlist with
      | none =>
        rw [List.filterMap_cons_none h₀, List.length_cons]
        omega
      | some n =>
        rw [List.filterMap_cons_some h₀, List.length_cons, List.length_cons]
        omega

/-- The playlist returned, by what it is and its index. -/
theorem right_iff {i : ℕ}
    (hchosen : VariantPlaylist.chosenIndex ((kept variants).map (·.bitrate)) b = i) :
    Right variants b ↔ match ((kept variants).filterMap (·.playlist))[i]? with
      | none => (kept variants).filter (·.playlist.isSome) = []
      | some id => ∃ k ∈ (kept variants).filter (·.playlist.isSome), k.playlist = some id
          ∧ Best ((kept variants).filter (·.playlist.isSome)) b k.bitrate := by
  obtain ⟨hbitrates, hplaylists⟩ := stateInit_spec variants
  have hget : (VariantPlaylist.stateInit variants).getPlaylistBasedOnBitrate b
      = (VariantPlaylist.stateInit variants).playlists[i]? := by
    unfold VariantPlaylist.getPlaylistBasedOnBitrate
    rw [hbitrates, hchosen]
    dsimp only
    split
    · exact (List.getElem?_eq_none (by omega)).symm
    · rfl
  unfold Right
  rw [hget, ← hplaylists, List.getElem?_map]
  cases (VariantPlaylist.stateInit variants).playlists[i]? with
  | none => rfl
  | some p => rfl

/-! ## When the search is right -/

theorem kept_pos (variants : List Variant) : ∀ x ∈ (kept variants).map (·.bitrate), 0 < x := by
  intro x hx
  obtain ⟨k, hk, rfl⟩ := List.mem_map.mp hx
  exact (keep_spec variants none 0).1 k hk

/-- The best one among playlists that are all loaded, by their places. -/
theorem best_iff {r : ℕ} : Best K b r ↔
    ((r : ℤ) < b ∧ ∀ i < K.length, ((K.map (·.bitrate)).getD i 0 : ℕ) < b →
        (K.map (·.bitrate)).getD i 0 ≤ r)
      ∨ (∀ i < K.length, ¬ ((K.map (·.bitrate)).getD i 0 : ℕ) < b)
        ∧ ∀ i < K.length, r ≤ (K.map (·.bitrate)).getD i 0 := by
  have hall : ∀ P : ℕ → Prop, (∀ k ∈ K, P k.bitrate)
      ↔ ∀ i < K.length, P ((K.map (·.bitrate)).getD i 0) := by
    intro P
    constructor
    · intro h i hi
      rw [getD_bitrate hi]
      exact h _ (List.getElem_mem hi)
    · intro h k hk
      obtain ⟨i, hi, rfl⟩ := List.mem_iff_getElem.mp hk
      rw [← getD_bitrate hi]
      exact h i hi
  unfold Best
  rw [hall fun x => (x : ℤ) < b → x ≤ r, hall fun x => ¬ (x : ℤ) < b, hall fun x => r ≤ x]

/-- Bitrates in order: the first one below the bound is not missed. -/
theorem VariantPlaylist.Chosen.best {i : ℕ} (horder : InOrder (K.map (·.bitrate))) (hi : i < K.length)
    (h : VariantPlaylist.Chosen (K.map (·.bitrate)) b i) :
    Best K b ((K.map (·.bitrate)).getD i 0) := by
  have hlen : (K.map (·.bitrate)).length = K.length := List.length_map _
  rw [best_iff]
  cases h with
  | lowest _ hno hmin =>
    rw [hlen] at hno hmin
    exact Or.inr ⟨hno, hmin⟩
  | only _ hbelow honly =>
    rw [hlen] at honly
    refine Or.inl ⟨hbelow, fun k hk hlt => ?_⟩
    by_cases hki : k = i
    · rw [hki]
    · exact absurd hlt (honly k hk hki)
  | greatest i₀ _ hij hi₀ hj hfirst hmax =>
    refine Or.inl ⟨hj, fun k hk hlt => ?_⟩
    by_cases hki : k = i₀
    · subst hki
      by_contra hless
      rcases horder k i hij (by omega) (by omega) with ⟨l, hl, hle⟩ | ⟨l, hkl, hl, heq⟩
      · exact hfirst l hl (by omega)
      · have hle := hmax l hl (by omega) (by omega)
        omega
    · exact hmax k (by omega) hki hlt

theorem right_of_none (hnone : ∀ k ∈ kept variants, k.playlist = none) (b : ℤ) :
    Right variants b := by
  have hloaded : (kept variants).filter (·.playlist.isSome) = [] :=
    List.filter_eq_nil_iff.mpr fun k hk => by simp [hnone k hk]
  have hplaylists : (VariantPlaylist.stateInit variants).playlists = [] := by
    have hids := (stateInit_spec variants).2
    rw [List.filterMap_eq_nil_iff.mpr hnone] at hids
    exact List.map_eq_nil_iff.mp hids
  unfold Right VariantPlaylist.getPlaylistBasedOnBitrate
  rw [hplaylists]
  simp [hloaded]

theorem right_of_inOrder (hall : ∀ k ∈ kept variants, k.playlist ≠ none)
    (horder : InOrder ((kept variants).map (·.bitrate))) (b : ℤ) : Right variants b := by
  by_cases hnil : kept variants = []
  · exact right_of_none (by simp [hnil]) b
  · obtain ⟨i, hi, hindex, hchosen⟩ := VariantPlaylist.chosenIndex_spec (b := b) (kept_pos variants)
      (by simpa using hnil)
    rw [List.length_map] at hi
    have hloaded : (kept variants).filter (·.playlist.isSome) = kept variants :=
      List.filter_eq_self.mpr fun k hk => Option.isSome_iff_ne_none.mpr (hall k hk)
    have hmem := List.getElem_mem hi
    obtain ⟨id, hid⟩ := Option.ne_none_iff_exists'.mp (hall _ hmem)
    rw [right_iff hindex, filterMap_of_loaded hall hi, hid, hloaded]
    refine ⟨_, hmem, hid, ?_⟩
    rw [← getD_bitrate hi]
    exact hchosen.best horder hi

/-- Out of order, the first of the bitrates below some bound is missed. -/
theorem inOrder_of_right (hall : ∀ k ∈ kept variants, k.playlist ≠ none)
    (hright : ∀ b, Right variants b) : InOrder ((kept variants).map (·.bitrate)) := by
  intro i j hij hj hlt
  by_contra hnot
  rw [not_or, not_exists, not_exists] at hnot
  obtain ⟨hbefore, hbehind⟩ := hnot
  have hlen : ((kept variants).map (·.bitrate)).length = (kept variants).length := List.length_map _
  obtain ⟨c, hc, hindex, hchosen⟩ := VariantPlaylist.chosenIndex_spec
    (b := (((kept variants).map (·.bitrate)).getD i 0 : ℕ) + 1) (kept_pos variants)
    (List.ne_nil_of_length_pos (by omega))
  have hlow : ((kept variants).map (·.bitrate)).getD c 0
      < ((kept variants).map (·.bitrate)).getD i 0 := by
    cases hchosen with
    | lowest _ hno _ => exact absurd (by omega) (hno i (by omega))
    | only _ hbelow honly =>
      by_cases hci : i = c
      · exact absurd (by omega) (honly j hj (by omega))
      · exact absurd (by omega) (honly i (by omega) hci)
    | greatest i₀ _ hic hi₀ hcb hfirst hmax =>
      have hi₀i : i₀ = i := by
        rcases Nat.lt_trichotomy i₀ i with hless | heq | hgreater
        · exact absurd ⟨hless, by omega⟩ (hbefore i₀)
        · exact heq
        · exact absurd (by omega) (hfirst i hgreater)
      subst hi₀i
      have hne : ((kept variants).map (·.bitrate)).getD c 0
          ≠ ((kept variants).map (·.bitrate)).getD i₀ 0 := fun heq => hbehind c ⟨hic, hc, heq⟩
      omega
  have hc' : c < (kept variants).length := by omega
  have hmem := List.getElem_mem hc'
  obtain ⟨id, hid⟩ := Option.ne_none_iff_exists'.mp (hall _ hmem)
  have hloaded : (kept variants).filter (·.playlist.isSome) = kept variants :=
    List.filter_eq_self.mpr fun k hk => Option.isSome_iff_ne_none.mpr (hall k hk)
  have hanswer := (right_iff hindex).mp (hright _)
  rw [filterMap_of_loaded hall hc', hid, hloaded] at hanswer
  obtain ⟨k, hk, hkid, hbest⟩ := hanswer
  have heq := eq_of_playlist (keep_spec variants none 0).2.2 hk hmem hkid hid
  rw [heq, ← getD_bitrate hc', best_iff] at hbest
  rcases hbest with ⟨-, hmax⟩ | ⟨hno, -⟩
  · have := hmax i (by omega) (by omega)
    omega
  · exact hno i (by omega) (by omega)

/-- The last bitrate is past the playlists if one is not loaded; it is chosen for the bound
above it. -/
theorem none_of_right {k : Kept} (hk : k ∈ kept variants) (hnone : k.playlist = none)
    (hnodup : ((kept variants).map (·.bitrate)).Nodup) (hright : ∀ b, Right variants b) :
    ∀ k ∈ kept variants, k.playlist = none := by
  have hlen : ((kept variants).map (·.bitrate)).length = (kept variants).length := List.length_map _
  have hshort := length_filterMap_lt hk hnone
  have hpos : 0 < (kept variants).length := List.length_pos_of_mem hk
  obtain ⟨t, ht⟩ : ∃ t, t + 1 = (kept variants).length := ⟨_, Nat.sub_add_cancel hpos⟩
  obtain ⟨c, hc, hindex, hchosen⟩ := VariantPlaylist.chosenIndex_spec
    (b := (((kept variants).map (·.bitrate)).getD t 0 : ℕ) + 1) (kept_pos variants)
    (List.ne_nil_of_length_pos (by omega))
  have hct : c = t := by
    cases hchosen with
    | lowest _ hno _ => exact absurd (by omega) (hno t (by omega))
    | only _ hbelow honly =>
      by_contra hne
      exact honly t (by omega) (Ne.symm hne) (by omega)
    | greatest i _ hic hi hcb hfirst hmax =>
      have hle := hmax t (by omega) (by omega) (by omega)
      have heq : ((kept variants).map (·.bitrate)).getD c 0
          = ((kept variants).map (·.bitrate)).getD t 0 := by omega
      rw [List.getD_eq_getElem _ _ hc, List.getD_eq_getElem _ _ (by omega)] at heq
      exact (List.Nodup.getElem_inj_iff hnodup).mp heq
  have hanswer := (right_iff hindex).mp (hright _)
  rw [List.getElem?_eq_none (by omega)] at hanswer
  intro k' hk'
  by_contra hsome
  have hin : k' ∈ (kept variants).filter (·.playlist.isSome) :=
    List.mem_filter.mpr ⟨hk', Option.isSome_iff_ne_none.mpr hsome⟩
  dsimp only at hanswer
  rw [hanswer] at hin
  cases hin

/-! ## The result -/

/-- **When the variant selection is right.** It is for every bound, if no variant is loaded,
or all that are not dropped are and their bitrates are in order. This is needed if they are
all loaded, and if the bitrates differ. -/
theorem getPlaylistBasedOnBitrate_right (variants : List Variant) :
    (Reliable (kept variants) → ∀ b, Right variants b)
      ∧ ((∀ k ∈ kept variants, k.playlist ≠ none) ∨ ((kept variants).map (·.bitrate)).Nodup →
          (∀ b, Right variants b) → Reliable (kept variants)) := by
  constructor
  · rintro (hnone | ⟨hall, horder⟩) b
    · exact right_of_none hnone b
    · exact right_of_inOrder hall horder b
  · intro h hright
    by_cases hall : ∀ k ∈ kept variants, k.playlist ≠ none
    · exact Or.inr ⟨hall, inOrder_of_right hall hright⟩
    · push Not at hall
      obtain ⟨k, hk, hnone⟩ := hall
      rcases h with hall | hnodup
      · exact absurd hnone (hall k hk)
      · exact Or.inl (none_of_right hk hnone hnodup hright)

/-- Two playlists that are loaded, the one with the greater bitrate first. -/
def greaterFirst : List Variant := [⟨some none, 2, Nat.two_pos⟩, ⟨some none, 1, Nat.one_pos⟩]

/-- The second one is returned for a bound above both. -/
theorem getPlaylistBasedOnBitrate_not_right :
    ¬ ∀ (variants : List Variant) (b : ℤ), Right variants b := by
  intro h
  have horder : InOrder ((kept greaterFirst).map (·.bitrate)) :=
    inOrder_of_right (by decide) (h greaterFirst)
  rcases horder 0 1 (by decide) (by decide) (by decide) with ⟨k, hk, -⟩ | ⟨k, hk, hlt, heq⟩
  · exact absurd hk (Nat.not_lt_zero k)
  · obtain rfl : k = 1 := by
      have : k < 2 := hlt
      omega
    exact absurd heq (by decide)

end JavaFx.Media
