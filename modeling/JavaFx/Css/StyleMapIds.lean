/-
`StyleManager.CacheContainer`: the list of style maps and their ids.

A style map is found again by its id, which is the place of the map in the list,
counted from a base. Clearing the list moves the base, so that an id handed out before
is recognised: it has left the range. The base is moved to the id that was handed out
last, and that one is therefore handed out once more, by the next map that is added.

Ids are `int`s and wrap around. A style map is an object: `M` is any type of objects
with `EMPTY_MAP` among them, and a map that is created is another one.
-/
import JavaFx.Lib.Java
import Mathlib.Data.BitVec

set_option autoImplicit false

namespace JavaFx.Css

open JavaFx.Lib

/-- The fields of a `CacheContainer` that have to do with ids. -/
structure CacheContainer (M : Type) where
  styleMapList : List M
  styleMapId : BitVec 32
  baseStyleMapId : BitVec 32

namespace CacheContainer

variable {M : Type}

/-- A new container. -/
def new : CacheContainer M := ⟨[], 0, 0⟩

/-- `nextSmapId`. -/
def nextSmapId (c : CacheContainer M) : CacheContainer M :=
  { c with styleMapId := c.baseStyleMapId + BitVec.ofNat 32 c.styleMapList.length }

/-- `addStyleMap`. A list has at most `Integer.MAX_VALUE` elements. -/
def addStyleMap (c : CacheContainer M) (smap : M) : Except Exn (CacheContainer M) :=
  if c.styleMapList.length < 2 ^ 31 - 1 then
    .ok { c with styleMapList := c.styleMapList ++ [smap] }
  else .error .outOfMemory

/-- `getStyleMap`. -/
def getStyleMap (EMPTY_MAP : M) (c : CacheContainer M) (smapId : BitVec 32) : M :=
  let correctedId := (smapId - c.baseStyleMapId).toInt
  if 0 ≤ correctedId ∧ correctedId < c.styleMapList.length then
    c.styleMapList.getD correctedId.toNat EMPTY_MAP
  else EMPTY_MAP

/-- `Integer.MAX_VALUE/8*7`. -/
def limit : ℤ := (2 ^ 31 - 1) / 8 * 7

/-- `clearCache`. -/
def clearCache (c : CacheContainer M) : CacheContainer M :=
  if limit < c.styleMapId.toInt then ⟨[], 0, 0⟩ else ⟨[], c.styleMapId, c.styleMapId⟩

/-! ## Runs

A run notes the ids it has handed out: those from before the latest `clearCache`, and
those since, with the maps they were handed out for. -/

/-- The container and the ids handed out. -/
structure World (M : Type) where
  container : CacheContainer M
  before : List (BitVec 32)
  since : List (BitVec 32 × M)

/-- A style map is created, the cache is cleared, or a style map is asked for. -/
inductive Call (EMPTY_MAP : M)
  | create (smap : M) (isNew : smap ≠ EMPTY_MAP)
  | clearCache
  | getStyleMap (smapId : BitVec 32)

variable {EMPTY_MAP : M}

/-- A call. -/
def call (w : World M) : Call EMPTY_MAP → Except Exn (World M)
  | .create smap _ => do
      let c := w.container.nextSmapId
      let c' ← c.addStyleMap smap
      return { w with container := c', since := w.since ++ [(c.styleMapId, smap)] }
  | .clearCache =>
    .ok ⟨w.container.clearCache, w.before ++ w.since.map Prod.fst, []⟩
  | .getStyleMap _ => .ok w

/-- Nothing has been handed out yet. -/
def start : World M := ⟨new, [], []⟩

/-- Ids from before the latest `clearCache` are not found, those since lead to their map. -/
structure Sound (EMPTY_MAP : M) (w : World M) : Prop where
  stale : ∀ id ∈ w.before, getStyleMap EMPTY_MAP w.container id = EMPTY_MAP
  fresh : ∀ p ∈ w.since, getStyleMap EMPTY_MAP w.container p.1 = p.2

/-! ## What a run keeps -/

/-- Every map is in the list under its id. The base is an id from before, the first of
all if the counter was reset, and the one handed out last otherwise. -/
structure Inv (EMPTY_MAP : M) (w : World M) : Prop where
  length_le : w.container.styleMapList.length < 2 ^ 31
  notEmpty : ∀ m ∈ w.container.styleMapList, m ≠ EMPTY_MAP
  since_eq : w.since = w.container.styleMapList.zipIdx.map
    (fun p => (w.container.baseStyleMapId + BitVec.ofNat 32 p.2, p.1))
  last : w.container.styleMapId = w.container.baseStyleMapId
    + BitVec.ofNat 32 (w.container.styleMapList.length - 1)
  base : w.container.baseStyleMapId ∈ w.before ∨ w.before = [] ∧ w.container.baseStyleMapId = 0
  zero : w.before ≠ [] → 0 ∈ w.before

theorem inv_start : Inv EMPTY_MAP (start : World M) where
  length_le := Nat.two_pow_pos 31
  notEmpty := by simp [start, new]
  since_eq := rfl
  last := rfl
  base := Or.inr ⟨rfl, rfl⟩
  zero := fun h => absurd rfl h

/-- The place that an id of the list is corrected to. -/
theorem correctedId_eq (base : BitVec 32) {i : ℕ} (hi : i < 2 ^ 31) :
    (base + BitVec.ofNat 32 i - base).toInt = i := by
  have hcancel : base + BitVec.ofNat 32 i - base = BitVec.ofNat 32 i := by
    rw [BitVec.add_comm, BitVec.add_sub_cancel]
  rw [hcancel, BitVec.toInt_ofNat']
  exact Int.bmod_eq_of_le (by omega) (by omega)

/-- What is found under the id of a place in the list. -/
theorem Inv.getStyleMap_eq {w : World M} (h : Inv EMPTY_MAP w) {i : ℕ} {m : M}
    (hi : w.container.styleMapList[i]? = some m) :
    getStyleMap EMPTY_MAP w.container (w.container.baseStyleMapId + BitVec.ofNat 32 i) = m := by
  have hlt : i < w.container.styleMapList.length := (List.getElem?_eq_some_iff.mp hi).1
  have hle := h.length_le
  unfold getStyleMap
  rw [correctedId_eq _ (by omega)]
  dsimp only
  rw [if_pos ⟨by omega, by omega⟩, Int.toNat_natCast, List.getD_eq_getElem?_getD, hi,
    Option.getD_some]

theorem Inv.fresh {w : World M} (h : Inv EMPTY_MAP w) (p : BitVec 32 × M) (hp : p ∈ w.since) :
    getStyleMap EMPTY_MAP w.container p.1 = p.2 := by
  rw [h.since_eq] at hp
  obtain ⟨⟨m, i⟩, hmem, rfl⟩ := List.mem_map.mp hp
  exact h.getStyleMap_eq (List.mem_zipIdx_iff_getElem?.mp hmem)

/-- When nothing has been added since, nothing is found. -/
theorem getStyleMap_nil {c : CacheContainer M} (h : c.styleMapList = []) (id : BitVec 32) :
    getStyleMap EMPTY_MAP c id = EMPTY_MAP := by
  unfold getStyleMap
  rw [h]
  simp

theorem Inv.since_eq_nil {w : World M} (h : Inv EMPTY_MAP w) :
    w.since = [] ↔ w.container.styleMapList = [] := by
  rw [h.since_eq, List.map_eq_nil_iff, List.zipIdx_eq_nil_iff]

/-- The ids are sound exactly if there are none from before, or none since. -/
theorem Inv.sound_iff {w : World M} (h : Inv EMPTY_MAP w) :
    Sound EMPTY_MAP w ↔ w.before = [] ∨ w.since = [] := by
  constructor
  · intro hsound
    by_contra hne
    rw [not_or] at hne
    -- the first map since has the base as its id, which is an id from before
    have hbase : w.container.baseStyleMapId ∈ w.before :=
      h.base.resolve_right (fun hnil => hne.1 hnil.1)
    obtain ⟨m, hm⟩ : ∃ m, w.container.styleMapList[0]? = some m := by
      have hpos := List.length_pos_iff.mpr (fun hnil => hne.2 (h.since_eq_nil.mpr hnil))
      exact ⟨_, List.getElem?_eq_getElem hpos⟩
    have hfound := h.getStyleMap_eq hm
    have hstale := hsound.stale _ hbase
    rw [BitVec.add_zero, hstale] at hfound
    exact h.notEmpty m (List.mem_of_getElem? hm) hfound.symm
  · intro hnone
    refine ⟨fun id hid => ?_, h.fresh⟩
    rcases hnone with hbefore | hsince
    · rw [hbefore] at hid
      exact absurd hid List.not_mem_nil
    · exact getStyleMap_nil (h.since_eq_nil.mp hsince) id

/-! ## The steps -/

theorem create_inv {w w' : World M} (h : Inv EMPTY_MAP w) {smap : M} {isNew : smap ≠ EMPTY_MAP}
    (hcall : call w (.create smap isNew) = .ok w') : Inv EMPTY_MAP w' := by
  unfold call addStyleMap at hcall
  dsimp only [nextSmapId] at hcall
  split at hcall
  · rename_i hlength
    simp only [ok_bind, pure_eq_ok, Except.ok.injEq] at hcall
    rw [← hcall]
    refine ⟨?_, ?_, ?_, ?_, h.base, h.zero⟩
    · simp only [List.length_append, List.length_singleton]
      omega
    · intro m hm
      rcases List.mem_append.mp hm with hm | hm
      · exact h.notEmpty m hm
      · rw [List.mem_singleton.mp hm]
        exact isNew
    · rw [h.since_eq]
      simp [List.zipIdx_append]
    · simp
  · cases hcall

theorem clearCache_inv {w w' : World M} (h : Inv EMPTY_MAP w)
    (hcall : call w (.clearCache : Call EMPTY_MAP) = .ok w') : Inv EMPTY_MAP w' := by
  unfold call at hcall
  simp only [Except.ok.injEq] at hcall
  -- the id handed out last, and the first of all, are ids from before now
  have hfirst : w.before ++ w.since.map Prod.fst ≠ [] →
      0 ∈ w.before ++ w.since.map Prod.fst
        ∧ w.container.styleMapId ∈ w.before ++ w.since.map Prod.fst := by
    intro hne
    by_cases hnil : w.container.styleMapList = []
    · have hbefore : w.before ≠ [] := by
        intro hbefore
        rw [hbefore, h.since_eq_nil.mpr hnil] at hne
        exact hne rfl
      have hid : w.container.styleMapId = w.container.baseStyleMapId := by
        rw [h.last, hnil]
        simp
      rw [hid]
      exact ⟨List.mem_append_left _ (h.zero hbefore),
        List.mem_append_left _ (h.base.resolve_right (fun hb => hbefore hb.1))⟩
    · have hids : ∀ i < w.container.styleMapList.length,
          w.container.baseStyleMapId + BitVec.ofNat 32 i ∈ w.since.map Prod.fst := by
        intro i hi
        rw [h.since_eq, List.map_map]
        exact List.mem_map.mpr ⟨(w.container.styleMapList[i], i),
          List.mem_zipIdx_iff_getElem?.mpr (List.getElem?_eq_getElem hi), rfl⟩
      have hpos := List.length_pos_iff.mpr hnil
      refine ⟨?_, ?_⟩
      · by_cases hbefore : w.before = []
        · have hbase : w.container.baseStyleMapId = 0 := by
            rcases h.base with hb | hb
            · rw [hbefore] at hb
              exact absurd hb List.not_mem_nil
            · exact hb.2
          have hzero := hids 0 hpos
          rw [hbase] at hzero
          exact List.mem_append_right _ (by simpa using hzero)
        · exact List.mem_append_left _ (h.zero hbefore)
      · rw [h.last]
        exact List.mem_append_right _ (hids _ (by omega))
  have hfresh : w.before ++ w.since.map Prod.fst = [] → w.container.styleMapId = 0 := by
    intro hnil
    rw [List.append_eq_nil_iff, List.map_eq_nil_iff, h.since_eq_nil] at hnil
    rw [h.last, hnil.2]
    rcases h.base with hb | hb
    · rw [hnil.1] at hb
      exact absurd hb List.not_mem_nil
    · rw [hb.2]
      rfl
  rw [← hcall]
  unfold clearCache
  split
  · refine ⟨by simp, by simp, rfl, rfl, ?_, fun hne => (hfirst hne).1⟩
    by_cases hne : w.before ++ w.since.map Prod.fst = []
    · exact Or.inr ⟨hne, rfl⟩
    · exact Or.inl (hfirst hne).1
  · refine ⟨by simp, by simp, rfl, by simp, ?_, fun hne => (hfirst hne).1⟩
    by_cases hne : w.before ++ w.since.map Prod.fst = []
    · exact Or.inr ⟨hne, hfresh hne⟩
    · exact Or.inl (hfirst hne).2

theorem call_inv {w w' : World M} (h : Inv EMPTY_MAP w) {c : Call EMPTY_MAP}
    (hcall : call w c = .ok w') : Inv EMPTY_MAP w' := by
  cases c with
  | create smap isNew => exact create_inv h hcall
  | clearCache => exact clearCache_inv h hcall
  | getStyleMap smapId =>
    cases hcall
    exact h

theorem run_inv {w w' : World M} (h : Inv EMPTY_MAP w) (cs : List (Call EMPTY_MAP))
    (hrun : run call w cs = .ok w') : Inv EMPTY_MAP w' := by
  induction cs generalizing w with
  | nil =>
    cases hrun
    exact h
  | cons c cs ih =>
    cases hc : call w c with
    | error e => simp [run, hc] at hrun
    | ok t =>
      rw [run_cons_ok hc] at hrun
      exact ih (call_inv h hc) hrun

/-! ## The result -/

/-- **Style map ids.** After any run, ids from before the latest `clearCache` are not
found and ids since lead to their map, exactly if no id was handed out before it or none
since. -/
theorem styleMapIds_sound_iff (cs : List (Call EMPTY_MAP)) (w : World M)
    (hrun : run call start cs = .ok w) :
    Sound EMPTY_MAP w ↔ w.before = [] ∨ w.since = [] := by
  exact (run_inv inv_start cs hrun).sound_iff

/-- A map, and nothing cleared. -/
theorem styleMapIds_sound_iff_single :
    ∃ w : World Bool, run call start [(.create true (by decide) : Call false)] = .ok w
      ∧ (Sound false w ↔ w.before = [] ∨ w.since = []) :=
  ⟨_, rfl, styleMapIds_sound_iff [.create true (by decide)] _ rfl⟩

/-- The id of the last map before a `clearCache` is that of the first map after it. -/
theorem styleMapIds_stale :
    ∃ w : World ℕ, run call start
        [(.create 1 (by decide) : Call 0), .clearCache, .create 2 (by decide)] = .ok w
      ∧ (0 : BitVec 32) ∈ w.before ∧ getStyleMap 0 w.container 0 = 2 ∧ ¬ Sound 0 w := by
  refine ⟨⟨⟨[2], 0, 0⟩, [0], [(0, 2)]⟩, rfl, List.mem_singleton_self _, rfl, ?_⟩
  intro hsound
  have hstale := hsound.stale 0 (List.mem_singleton_self _)
  exact absurd hstale (by decide)

end CacheContainer

end JavaFx.Css
