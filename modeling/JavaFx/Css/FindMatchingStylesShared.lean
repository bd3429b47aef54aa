/-
Which nodes share a cache of selectors.

The two maps and the objects that are used again amount to one memo table, with the
contents of the two keys as its key (`Represents`): an object that will be filled again is
in no map, so filling it changes no key that is in one. The table is keyed by less than
the selectors depend on. The list of names does not say where the names of the parents
end, and it leaves out names that are empty.
-/
import JavaFx.Css.FindMatchingStyles
import Mathlib.Data.List.Find

set_option autoImplicit false

namespace JavaFx.Css.FindMatchingStyles

open JavaFx.Lib SimpleSelector

/-! ## The keys as contents -/

/-- What two keys are compared by. -/
def Key.content (k : Key) : String × Option String × List Word :=
  (k.className, k.id, k.styleClasses.bits)

theorem Key.equals_iff {k k' : Key} : k.equals k' = true ↔ k'.content = k.content := by
  rw [Key.equals, Bool.and_eq_true, Bool.and_eq_true, decide_eq_true_iff, decide_eq_true_iff,
    BitSet.equals_iff, Key.content, Key.content, Prod.mk.injEq, Prod.mk.injEq]
  constructor
  · rintro ⟨⟨h, h'⟩, h''⟩
    exact ⟨h.symm, h'.symm, h''.symm⟩
  · rintro ⟨h, h', h''⟩
    exact ⟨⟨h.symm, h'.symm⟩, h''.symm⟩

/-- The contents of the outer key. -/
def mapNames (node : Node) : Option (List String) :=
  let parents := processStylesheets node.parentStylesheets
  if bare parents node.regionUserAgentStylesheet then none
  else some (named parents node.regionUserAgentStylesheet)

theorem mapNames_eq_iff {n n' : Node} : mapNames n = mapNames n' ↔ WrittenAlike n n' := by
  unfold mapNames WrittenAlike
  dsimp only
  split
  · rename_i hbare
    split
    · rename_i hbare'
      simp [hbare, hbare']
    · rename_i hbare'
      simp [hbare, hbare']
  · rename_i hbare
    split
    · rename_i hbare'
      simp [hbare, hbare']
    · rename_i hbare'
      simp [hbare, hbare']

variable {sheets : Stylesheets}

theorem hasListeners_add (s : BitSet) (t : ℕ) :
    (s.add (some t)).set.hasListeners = s.hasListeners := rfl

theorem hasListeners_ofList (elements : List ℕ) : (BitSet.ofList elements).hasListeners = false := by
  unfold BitSet.ofList
  have hfold : ∀ s : BitSet, (elements.foldl (fun s t => (s.add (some t)).set) s).hasListeners
      = s.hasListeners := by
    induction elements with
    | nil => exact fun s => rfl
    | cons t elements ih => exact fun s => (ih _).trans (hasListeners_add s t)
  exact hfold _

theorem keyOf_styleClasses (node : Node) : (keyOf sheets node (BitSet.new false)).styleClasses
    = BitSet.ofList ((givenNames node.styleClass).map sheets.styleClassRegistry.index) := rfl

/-- The sets of style classes have the same array when they have the same elements. -/
theorem styleClasses_eq_iff {n n' : Node} :
    (keyOf sheets n (BitSet.new false)).styleClasses.bits
        = (keyOf sheets n' (BitSet.new false)).styleClasses.bits ↔ classes n = classes n' := by
  rw [keyOf_styleClasses, keyOf_styleClasses]
  have hmem : ∀ (node : Node) (s : String), sheets.styleClassRegistry.index s
      ∈ BitSet.members (BitSet.ofList
        ((givenNames node.styleClass).map sheets.styleClassRegistry.index)).bits
      ↔ s ∈ classes node := by
    intro node s
    rw [BitSet.members_ofList, List.mem_map]
    constructor
    · rintro ⟨s', hs', heq⟩
      rw [← sheets.styleClassRegistry.index_injective heq]
      exact hs'
    · exact fun hs => ⟨s, hs, rfl⟩
  constructor
  · intro hbits
    ext s
    rw [← hmem, hbits, hmem]
  · intro hclasses
    apply (BitSet.canonical_ofList _).eq_of_members (BitSet.canonical_ofList _)
    ext i
    rw [BitSet.members_ofList, BitSet.members_ofList, List.mem_map, List.mem_map]
    have hset : ∀ s, s ∈ givenNames n.styleClass ↔ s ∈ givenNames n'.styleClass :=
      fun s => Set.ext_iff.mp hclasses s
    simp only [hset]

theorem content_eq_iff {n n' : Node} : (keyOf sheets n (BitSet.new false)).content
    = (keyOf sheets n' (BitSet.new false)).content ↔ SameKey n n' := by
  unfold Key.content SameKey
  rw [Prod.mk.injEq, Prod.mk.injEq, styleClasses_eq_iff]
  rfl

/-- Nodes that are alike are given the same selectors. -/
theorem fromScratch_congr {n n' : Node} (hkey : SameKey n n') (hsheets : SameStylesheets n n') :
    fromScratch sheets n = fromScratch sheets n' := by
  have hbits := (@styleClasses_eq_iff sheets n n').mpr hkey.2.2
  have hclasses : (keyOf sheets n (BitSet.new false)).styleClasses
      = (keyOf sheets n' (BitSet.new false)).styleClasses := by
    rw [keyOf_styleClasses, keyOf_styleClasses] at hbits ⊢
    have hl := hasListeners_ofList ((givenNames n.styleClass).map sheets.styleClassRegistry.index)
    have hl' := hasListeners_ofList ((givenNames n'.styleClass).map sheets.styleClassRegistry.index)
    cases h : BitSet.ofList ((givenNames n.styleClass).map sheets.styleClassRegistry.index)
    cases h' : BitSet.ofList ((givenNames n'.styleClass).map sheets.styleClassRegistry.index)
    rw [h, h'] at hbits
    rw [h] at hl
    rw [h'] at hl'
    dsimp only at hbits hl hl'
    rw [hbits, hl, hl']
  have hkeyOf : keyOf sheets n (BitSet.new false) = keyOf sheets n' (BitSet.new false) := by
    have hname : (keyOf sheets n (BitSet.new false)).className
        = (keyOf sheets n' (BitSet.new false)).className := hkey.1
    have hid : (keyOf sheets n (BitSet.new false)).id = (keyOf sheets n' (BitSet.new false)).id :=
      hkey.2.1
    cases h : keyOf sheets n (BitSet.new false)
    cases h' : keyOf sheets n' (BitSet.new false)
    rw [h, h'] at hclasses hname hid
    dsimp only at hclasses hname hid
    rw [hclasses, hname, hid]
  unfold fromScratch selectorData
  rw [hkeyOf, hsheets.1, hsheets.2]

/-! ## The world as a memo table -/

/-- What is filed under contents of the two keys. -/
def World.find (w : World) (names : Option (List String))
    (content : String × Option String × List Word) : Option ℕ :=
  (w.getMap names).bind fun m =>
    ((w.maps.getD m []).find? (fun p => (w.keys[p.1]?).map Key.content = some content)).map Prod.snd

theorem World.getCache_eq {w : World} {names : Option (List String)} {m : ℕ} {key : Key}
    (hm : w.getMap names = some m) : w.getCache m key = w.find names key.content := by
  unfold World.getCache World.find
  rw [hm, Option.bind_some]
  congr 1
  congr 1
  funext p
  cases w.keys[p.1]? with
  | none => rfl
  | some k =>
    rw [Option.any_some, Option.map_some]
    by_cases h : k.content = key.content
    · rw [Key.equals_iff.mpr h, h]
      simp
    · have hne : key.equals k = false := by
        rw [← Bool.not_eq_true, Key.equals_iff]
        exact h
      rw [hne]
      simp [h]

/-- What is kept besides: the objects to be filled again are in no map, and what is in a
map exists. -/
structure World.Ok (w : World) : Prop where
  keyFree : ∀ k ∈ w.key, ∀ map ∈ w.maps, ∀ p ∈ map, p.1 ≠ k
  keyValid : ∀ map ∈ w.maps, ∀ p ∈ map, p.1 < w.keys.length
  listFree : ∀ l ∈ w.cacheMapKey, w.lists[l]? = some [] ∧ ∀ p ∈ w.cacheMap, p.1 ≠ some l
  listValid : ∀ p ∈ w.cacheMap, ∀ l ∈ p.1, l < w.lists.length
  mapValid : ∀ p ∈ w.cacheMap, p.2 < w.maps.length
  mapDistinct : (w.cacheMap.map Prod.snd).Nodup

theorem ok_start : start.Ok where
  keyFree _ h := by cases h
  keyValid _ h := absurd h List.not_mem_nil
  listFree _ h := by cases h
  listValid _ h := absurd h List.not_mem_nil
  mapValid _ h := absurd h List.not_mem_nil
  mapDistinct := List.nodup_nil

/-- The world is a memo table. A key to be filled again has no style classes. -/
structure Represents (w : World)
    (memo : Memo (Option (List String) × (String × Option String × List Word))
      (List SelectorPartitioning.Entry)) : Prop where
  ok : w.Ok
  keyEmpty : ∀ k ∈ w.key, ∃ key, w.keys[k]? = some key ∧ key.styleClasses = BitSet.new false
  find : ∀ names content, w.find names content = memo.index (names, content)
  caches : w.caches = memo.entries.map Prod.snd

/-! ## The outer map -/

/-- Contents of lists that are in the map decide what is found. -/
theorem getMap_congr {w w' : World} (hmap : w'.cacheMap = w.cacheMap)
    (hnames : ∀ p ∈ w.cacheMap, w'.names p.1 = w.names p.1) (names : Option (List String)) :
    w'.getMap names = w.getMap names := by
  unfold World.getMap
  rw [hmap]
  congr 1
  apply List.find?_congr
  intro p hp
  rw [hnames p hp]

theorem names_of_getElem? {w : World} {l : ℕ} {names : List String}
    (h : w.lists[l]? = some names) : w.names (some l) = some names := by
  unfold World.names
  rw [Option.map_some, List.getD_eq_getElem?_getD, h, Option.getD_some]

theorem getMap_mem {w : World} {names : Option (List String)} {m : ℕ}
    (h : w.getMap names = some m) : ∃ list, (list, m) ∈ w.cacheMap ∧ w.names list = names := by
  unfold World.getMap at h
  obtain ⟨p, hp, rfl⟩ := Option.map_eq_some_iff.mp h
  have hnames := List.find?_some hp
  exact ⟨p.1, List.mem_of_find?_eq_some hp, of_decide_eq_true hnames⟩

/-- A map stands under one list of names. -/
theorem World.Ok.getMap_inj {w : World} (h : w.Ok) {names names' : Option (List String)} {m : ℕ}
    (hm : w.getMap names = some m) (hm' : w.getMap names' = some m) : names = names' := by
  obtain ⟨list, hlist, rfl⟩ := getMap_mem hm
  obtain ⟨list', hlist', rfl⟩ := getMap_mem hm'
  have := List.inj_on_of_nodup_map h.mapDistinct hlist hlist' rfl
  rw [(Prod.mk.inj this).1]

/-- What getting the map for a list of names does. -/
structure GetsMap (w w' : World) (names : Option (List String)) (m : ℕ) : Prop where
  ok : w'.Ok
  map : w'.getMap names = some m
  find : ∀ names content, w'.find names content = w.find names content
  keys : w'.keys = w.keys
  key : w'.key = w.key
  caches : w'.caches = w.caches

/-- A new map, under names that have none yet, is empty and changes nothing else. -/
theorem World.Ok.newMap {w : World} (h : w.Ok) {list : Option ℕ}
    (hnone : w.getMap (w.names list) = none) (hlist : ∀ l ∈ list, l < w.lists.length)
    (hfree : ∀ l ∈ w.cacheMapKey, list ≠ some l) :
    GetsMap w (w.newMap list) (w.names list) w.maps.length := by
  have hnames : ∀ l, (w.newMap list).names l = w.names l := fun _ => rfl
  have hget : ∀ names, (w.newMap list).getMap names
      = if names = w.names list then some w.maps.length else w.getMap names := by
    intro names
    unfold World.getMap World.newMap
    dsimp only
    rw [List.find?_append]
    by_cases hn : names = w.names list
    · rw [if_pos hn, hn]
      have hfind : w.cacheMap.find? (fun p => w.names p.1 = w.names list) = none := by
        unfold World.getMap at hnone
        exact Option.map_eq_none_iff.mp hnone
      change ((w.cacheMap.find? (fun p => w.names p.1 = w.names list)).or _).map _ = _
      rw [hfind, Option.none_or]
      simp [World.names]
    · rw [if_neg hn]
      have hlast : [(list, w.maps.length)].find? (fun p => decide (w.names p.1 = names)) = none := by
        simp [Ne.symm hn]
      change ((w.cacheMap.find? (fun p => w.names p.1 = names)).or
        ([(list, w.maps.length)].find? (fun p => w.names p.1 = names))).map _ = _
      rw [hlast, Option.or_none]
  refine ⟨⟨?_, ?_, ?_, ?_, ?_, ?_⟩, ?_, ?_, rfl, rfl, rfl⟩
  · intro k hk map hmap
    rcases List.mem_append.mp hmap with hmap | hmap
    · exact h.keyFree k hk map hmap
    · rw [List.mem_singleton.mp hmap]
      exact fun _ hp => absurd hp List.not_mem_nil
  · intro map hmap
    rcases List.mem_append.mp hmap with hmap | hmap
    · exact h.keyValid map hmap
    · rw [List.mem_singleton.mp hmap]
      exact fun _ hp => absurd hp List.not_mem_nil
  · intro l hl
    refine ⟨(h.listFree l hl).1, ?_⟩
    intro p hp
    rcases List.mem_append.mp hp with hp | hp
    · exact (h.listFree l hl).2 p hp
    · rw [List.mem_singleton.mp hp]
      exact hfree l hl
  · intro p hp
    rcases List.mem_append.mp hp with hp | hp
    · exact h.listValid p hp
    · rw [List.mem_singleton.mp hp]
      exact hlist
  · intro p hp
    have hlength : (w.newMap list).maps.length = w.maps.length + 1 := by simp [World.newMap]
    rw [hlength]
    rcases List.mem_append.mp hp with hp | hp
    · have := h.mapValid p hp
      omega
    · rw [List.mem_singleton.mp hp]
      exact Nat.lt_succ_self _
  · change ((w.cacheMap ++ [(list, w.maps.length)]).map Prod.snd).Nodup
    rw [List.map_append, List.nodup_append]
    refine ⟨h.mapDistinct, List.nodup_singleton _, ?_⟩
    intro m hm m' hm'
    obtain ⟨p, hp, rfl⟩ := List.mem_map.mp hm
    rw [List.map_singleton, List.mem_singleton] at hm'
    have := h.mapValid p hp
    omega
  · rw [hget, if_pos rfl]
  · intro names content
    unfold World.find
    rw [hget]
    split
    · rename_i hn
      rw [hn, hnone]
      simp [World.newMap]
    · cases hm : w.getMap names with
      | none => rfl
      | some m =>
        obtain ⟨l, hl, -⟩ := getMap_mem hm
        have hlt := h.mapValid _ hl
        have hmaps : (w.newMap list).maps.getD m [] = w.maps.getD m [] := by
          unfold World.newMap
          dsimp only
          rw [List.getD_eq_getElem?_getD, List.getD_eq_getElem?_getD,
            List.getElem?_append_left hlt]
        rw [Option.bind_some, Option.bind_some, hmaps]
        rfl

/-- Lists that are in no map do not matter. -/
theorem getMap_relist {w : World} {lists : List (List String)} {free : Option ℕ}
    (hsame : ∀ p ∈ w.cacheMap, ∀ l ∈ p.1, lists[l]? = w.lists[l]?) (names : Option (List String)) :
    World.getMap { w with lists := lists, cacheMapKey := free } names = w.getMap names := by
  refine @getMap_congr w { w with lists := lists, cacheMapKey := free } rfl ?_ names
  intro p hp
  unfold World.names
  cases hl : p.1 with
  | none => rfl
  | some l =>
    rw [Option.map_some, Option.map_some, List.getD_eq_getElem?_getD,
      List.getD_eq_getElem?_getD, hsame p hp l (by rw [hl]; rfl)]

/-- They may change, if the one to be filled again is empty. -/
theorem World.Ok.relist {w : World} (h : w.Ok) (lists : List (List String)) (free : Option ℕ)
    (hlength : w.lists.length ≤ lists.length)
    (hsame : ∀ p ∈ w.cacheMap, ∀ l ∈ p.1, lists[l]? = w.lists[l]?)
    (hfree : ∀ l ∈ free, lists[l]? = some [] ∧ ∀ p ∈ w.cacheMap, p.1 ≠ some l) :
    World.Ok { w with lists := lists, cacheMapKey := free }
      ∧ ∀ names content, World.find { w with lists := lists, cacheMapKey := free } names content
        = w.find names content := by
  refine ⟨⟨h.keyFree, h.keyValid, hfree, ?_, h.mapValid, h.mapDistinct⟩, ?_⟩
  · intro p hp l hl
    have := h.listValid p hp l hl
    dsimp only
    omega
  · intro names content
    unfold World.find
    rw [getMap_relist hsame]

/-- The list with the names of the node: it is in no map, and nothing else has changed. -/
theorem addNames_spec {w : World} (h : w.Ok) (names : List String) :
    ∃ filled l, w.addNames names = (filled, l)
      ∧ filled = { w with lists := filled.lists, cacheMapKey := some l }
      ∧ w.lists.length ≤ filled.lists.length ∧ filled.lists[l]? = some names
      ∧ (∀ p ∈ w.cacheMap, p.1 ≠ some l)
      ∧ ∀ p ∈ w.cacheMap, ∀ l' ∈ p.1, filled.lists[l']? = w.lists[l']? := by
  unfold World.addNames
  cases hkey : w.cacheMapKey with
  | some l =>
    obtain ⟨hempty, hfree⟩ := h.listFree l hkey
    refine ⟨_, l, rfl, by rw [← hkey], by simp, ?_, hfree, ?_⟩
    · dsimp only
      rw [List.getElem?_modify_eq, hempty]
      rfl
    · intro p hp l' hl'
      have hne : l ≠ l' := by
        rintro rfl
        exact hfree p hp hl'
      dsimp only
      rw [List.getElem?_modify_ne _ _ hne]
  | none =>
    refine ⟨_, w.lists.length, rfl, rfl, by simp, ?_, ?_, ?_⟩
    · dsimp only
      rw [List.getElem?_concat_length]
    · intro p hp heq
      exact absurd (h.listValid p hp _ heq) (lt_irrefl _)
    · intro p hp l' hl'
      dsimp only
      rw [List.getElem?_append_left (h.listValid p hp l' hl')]

/-- The map for the names of the node. -/
theorem getCacheMap_spec {w : World} (h : w.Ok) (node : Node) :
    ∃ w' m, w.getCacheMap (processStylesheets node.parentStylesheets)
        node.regionUserAgentStylesheet = (w', m)
      ∧ GetsMap w w' (mapNames node) m := by
  unfold World.getCacheMap mapNames
  dsimp only
  split
  · -- the map for `null`
    unfold World.mapFor
    cases hget : w.getMap (w.names none) with
    | some m => exact ⟨w, m, rfl, h, hget, fun _ _ => rfl, rfl, rfl, rfl⟩
    | none =>
      exact ⟨_, _, rfl, h.newMap hget (fun _ hl => by cases hl) (fun _ _ heq => by cases heq)⟩
  · obtain ⟨filled, l, hfilled, hworld, hlength, hnames, hunused, hsame⟩ := addNames_spec h
      (named (processStylesheets node.parentStylesheets) node.regionUserAgentStylesheet)
    rw [hfilled]
    generalize named (processStylesheets node.parentStylesheets) node.regionUserAgentStylesheet
      = names at hnames ⊢
    dsimp only
    have hl : l < filled.lists.length := (List.getElem?_eq_some_iff.mp hnames).1
    have hcontent := names_of_getElem? hnames
    have hgetMap : filled.getMap (some names) = w.getMap (some names) := by
      rw [hworld]
      exact getMap_relist hsame _
    have hmaps : filled.maps.length = w.maps.length := by rw [hworld]
    rw [hcontent, hgetMap]
    cases hget : w.getMap (some names) with
    | none =>
      -- the list stays in the map and a new one is made the next time
      have hnone : ∀ l' ∈ (none : Option ℕ), filled.lists[l']? = some []
          ∧ ∀ p ∈ w.cacheMap, p.1 ≠ some l' := fun _ hl' => by cases hl'
      obtain ⟨hok, hfinds⟩ := h.relist filled.lists none hlength hsame hnone
      have hnames' : World.names { w with lists := filled.lists, cacheMapKey := none } (some l)
          = some names := hcontent
      have hnew := @World.Ok.newMap _ hok (some l)
        (by rw [hnames', getMap_relist hsame, hget])
        (fun l' hl' => by cases hl'; exact hl) (fun _ hl' => by cases hl')
      rw [hnames'] at hnew
      refine ⟨_, _, rfl, ?_⟩
      have hresult : ({ filled.newMap (some l) with cacheMapKey := none } : World)
          = World.newMap { w with lists := filled.lists, cacheMapKey := none } (some l) := by
        rw [hworld]
        rfl
      rw [hresult, hmaps]
      exact ⟨hnew.ok, hnew.map, fun n c => (hnew.find n c).trans (hfinds n c), hnew.keys,
        hnew.key, hnew.caches⟩
    | some m =>
      -- the list is emptied for the next time
      have hset : ∀ p ∈ w.cacheMap, ∀ l' ∈ p.1,
          (filled.lists.set l [])[l']? = w.lists[l']? := by
        intro p hp l' hl'
        have hne : l ≠ l' := by
          rintro rfl
          exact hunused p hp hl'
        rw [List.getElem?_set_ne hne]
        exact hsame p hp l' hl'
      have hempty : ∀ l' ∈ some l, (filled.lists.set l [])[l']? = some []
          ∧ ∀ p ∈ w.cacheMap, p.1 ≠ some l' := by
        intro l' hl'
        cases hl'
        exact ⟨List.getElem?_set_self hl, hunused⟩
      obtain ⟨hok, hfinds⟩ := h.relist (filled.lists.set l []) (some l)
        (by rw [List.length_set]; exact hlength) hset hempty
      refine ⟨_, m, rfl, ?_⟩
      have hresult : ({ filled with lists := filled.lists.set l [] } : World)
          = { w with lists := filled.lists.set l [], cacheMapKey := some l } := by
        rw [hworld]
      rw [hresult]
      exact ⟨hok, by rw [getMap_relist hset, hget], hfinds, rfl, rfl, rfl⟩

/-! ## The inner maps -/

/-- Keys that are in no map may change. -/
theorem World.Ok.rekey {w : World} (h : w.Ok) (keys : List Key) (free : Option ℕ)
    (hlength : w.keys.length ≤ keys.length)
    (hsame : ∀ map ∈ w.maps, ∀ p ∈ map, keys[p.1]? = w.keys[p.1]?)
    (hfree : ∀ k ∈ free, ∀ map ∈ w.maps, ∀ p ∈ map, p.1 ≠ k) :
    World.Ok { w with keys := keys, key := free }
      ∧ ∀ names content, World.find { w with keys := keys, key := free } names content
        = w.find names content := by
  refine ⟨⟨hfree, ?_, h.listFree, h.listValid, h.mapValid, h.mapDistinct⟩, ?_⟩
  · intro map hmap p hp
    have := h.keyValid map hmap p hp
    dsimp only
    omega
  · intro names content
    have hgetMap : World.getMap { w with keys := keys, key := free } names = w.getMap names := rfl
    unfold World.find
    rw [hgetMap]
    cases hm : w.getMap names with
    | none => rfl
    | some m =>
      obtain ⟨l, hl, -⟩ := getMap_mem hm
      have hlt := h.mapValid _ hl
      rw [Option.bind_some, Option.bind_some]
      congr 1
      apply List.find?_congr
      intro p hp
      rw [List.getD_eq_getElem?_getD, List.getElem?_eq_getElem hlt, Option.getD_some] at hp
      dsimp only
      rw [hsame _ (List.getElem_mem hlt) p hp]

/-- The key with the fields of the node: it is in no map, and nothing else has changed. -/
theorem fillKey_spec {w : World} (h : w.Ok) (hvalid : ∀ k ∈ w.key, k < w.keys.length) (key : Key) :
    ∃ filled k, w.fillKey key = (filled, k)
      ∧ filled = { w with keys := filled.keys, key := some k }
      ∧ w.keys.length ≤ filled.keys.length ∧ filled.keys[k]? = some key
      ∧ (∀ map ∈ w.maps, ∀ p ∈ map, p.1 ≠ k)
      ∧ ∀ map ∈ w.maps, ∀ p ∈ map, filled.keys[p.1]? = w.keys[p.1]? := by
  unfold World.fillKey
  cases hkey : w.key with
  | some k =>
    refine ⟨_, k, rfl, by rw [← hkey], by simp, List.getElem?_set_self (hvalid k hkey),
      h.keyFree k hkey, ?_⟩
    intro map hmap p hp
    exact List.getElem?_set_ne (h.keyFree k hkey map hmap p hp).symm
  | none =>
    refine ⟨_, w.keys.length, rfl, rfl, by simp, List.getElem?_concat_length, ?_, ?_⟩
    · intro map hmap p hp
      exact (h.keyValid map hmap p hp).ne
    · intro map hmap p hp
      exact List.getElem?_append_left (h.keyValid map hmap p hp)

/-- A cache is filed under contents of the two keys that led to nothing. -/
theorem World.Ok.file {w : World} (h : w.Ok) {names : Option (List String)} {m k : ℕ} {key : Key}
    (hm : w.getMap names = some m) (hk : w.keys[k]? = some key)
    (caches : List (List SelectorPartitioning.Entry)) (i : ℕ) :
    World.Ok { w with caches := caches, maps := w.maps.modify m (· ++ [(k, i)]), key := none }
      ∧ ∀ names' content', World.find
          { w with caches := caches, maps := w.maps.modify m (· ++ [(k, i)]), key := none }
          names' content'
        = (w.find names' content').or
            (if (names, key.content) = (names', content') then some i else none) := by
  obtain ⟨l, hl, -⟩ := getMap_mem hm
  have hlt := h.mapValid _ hl
  have hvalid := (List.getElem?_eq_some_iff.mp hk).1
  refine ⟨⟨(fun _ hfree => by cases hfree), ?_, h.listFree, h.listValid, ?_, h.mapDistinct⟩, ?_⟩
  · intro map hmap p hp
    obtain ⟨j, hj⟩ := List.mem_iff_getElem?.mp hmap
    dsimp only at hj ⊢
    rw [List.getElem?_modify] at hj
    obtain ⟨old, hold, rfl⟩ := Option.map_eq_some_iff.mp hj
    have hmem := List.mem_of_getElem? hold
    split at hp
    · rcases List.mem_append.mp hp with hp | hp
      · exact h.keyValid old hmem p hp
      · rw [List.mem_singleton.mp hp]
        exact hvalid
    · exact h.keyValid old hmem p hp
  · intro p hp
    dsimp only
    rw [List.length_modify]
    exact h.mapValid p hp
  · intro names' content'
    have hgetMap : World.getMap
        { w with caches := caches, maps := w.maps.modify m (· ++ [(k, i)]), key := none } names'
        = w.getMap names' := rfl
    unfold World.find
    rw [hgetMap]
    dsimp only
    by_cases hnames : names = names'
    · -- the map has one cache more
      rw [← hnames, hm, Option.bind_some, Option.bind_some, List.getD_eq_getElem?_getD,
        List.getD_eq_getElem?_getD, List.getElem?_modify_eq, List.getElem?_eq_getElem hlt,
        Option.map_eq_map, Option.map_some, Option.getD_some, Option.getD_some, List.find?_append]
      generalize hold : w.maps[(l, m).2].find?
        (fun p => decide ((w.keys[p.1]?).map Key.content = some content')) = old
      by_cases hcontent : key.content = content'
      · cases old with
        | none => simp [hk, hcontent]
        | some p => simp [hcontent]
      · simp [hk, hcontent]
    · rw [if_neg (fun heq => hnames (Prod.mk.inj heq).1), Option.or_none]
      cases hm' : w.getMap names' with
      | none => rfl
      | some m' =>
        have hne : m ≠ m' := by
          rintro rfl
          exact hnames (h.getMap_inj hm hm')
        rw [Option.bind_some, Option.bind_some, List.getD_eq_getElem?_getD,
          List.getD_eq_getElem?_getD, List.getElem?_modify_ne _ _ hne]

/-! ## Calls are those of the table -/

/-- The contents of the two keys of a node. -/
def memoKey (sheets : Stylesheets) (node : Node) :
    Option (List String) × (String × Option String × List Word) :=
  (mapNames node, (keyOf sheets node (BitSet.new false)).content)

theorem represents_start : Represents start ⟨[]⟩ where
  ok := ok_start
  keyEmpty _ h := by cases h
  find _ _ := rfl
  caches := rfl

/-- A call is given the cache that the table has for its keys. -/
theorem findMatchingStyles_spec {w : World}
    {memo : Memo (Option (List String) × (String × Option String × List Word))
      (List SelectorPartitioning.Entry)} (h : Represents w memo) {node : Node}
    (hany : hasAny sheets node = true) :
    ∃ w', findMatchingStyles sheets w node
        = (w', some (memo.call (memoKey sheets) (fromScratch sheets) node).2)
      ∧ Represents w' (memo.call (memoKey sheets) (fromScratch sheets) node).1 := by
  have hclasses : ((w.key.bind (fun k => w.keys[k]?)).map Key.styleClasses).getD (BitSet.new false)
      = BitSet.new false := by
    cases hkey : w.key with
    | none => rfl
    | some k =>
      obtain ⟨key, hget, hempty⟩ := h.keyEmpty k hkey
      rw [Option.bind_some, hget, Option.map_some, Option.getD_some, hempty]
  have hvalid : ∀ k ∈ w.key, k < w.keys.length := by
    intro k hk
    obtain ⟨key, hget, -⟩ := h.keyEmpty k hk
    exact (List.getElem?_eq_some_iff.mp hget).1
  unfold findMatchingStyles
  rw [if_neg (by rw [hany]; decide), hclasses]
  dsimp only
  obtain ⟨filled, k, hfilled, hworld, hlength, hkey, hunused, hsame⟩ :=
    fillKey_spec h.ok hvalid (keyOf sheets node (BitSet.new false))
  have hfree : ∀ k' ∈ some k, ∀ map ∈ w.maps, ∀ p ∈ map, p.1 ≠ k' := by
    intro k' hk'
    cases hk'
    exact hunused
  obtain ⟨hok, hfinds⟩ := h.ok.rekey filled.keys (some k) hlength hsame hfree
  rw [← hworld] at hok hfinds
  obtain ⟨found, m, hfound, hgets⟩ := getCacheMap_spec hok node
  have hfind : ∀ names content, found.find names content = memo.index (names, content) := by
    intro names content
    rw [hgets.find, hfinds, h.find]
  have hcaches : found.caches = memo.entries.map Prod.snd := by
    rw [hgets.caches, hworld, h.caches]
  have hkeys : found.keys[k]? = some (keyOf sheets node (BitSet.new false)) := by
    rw [hgets.keys]
    exact hkey
  have hfoundKey : found.key = some k := by
    rw [hgets.key, hworld]
  rw [hfilled]
  dsimp only
  rw [hfound]
  dsimp only
  rw [World.getCache_eq hgets.map, hfind]
  cases hindex : memo.index (mapNames node, (keyOf sheets node (BitSet.new false)).content) with
  | some i =>
    have hkey : memo.index (memoKey sheets node) = some i := hindex
    rw [Memo.call, hkey]
    refine ⟨_, rfl, ?_⟩
    dsimp only
    -- the key is in no map, so its style classes can be cleared
    have hklt := (List.getElem?_eq_some_iff.mp hkeys).1
    have hkeyFree := hgets.ok.keyFree k hfoundKey
    obtain ⟨hok', hfinds'⟩ := hgets.ok.rekey (found.keys.set k
        { keyOf sheets node (BitSet.new false) with
          styleClasses := (keyOf sheets node (BitSet.new false)).styleClasses.clear.1 })
      found.key (by rw [List.length_set])
      (fun map hmap p hp => List.getElem?_set_ne (hkeyFree map hmap p hp).symm)
      hgets.ok.keyFree
    refine ⟨hok', ?_, fun names content => (hfinds' names content).trans (hfind names content),
      hcaches⟩
    intro k' hk'
    dsimp only at hk'
    rw [hfoundKey] at hk'
    cases hk'
    refine ⟨_, List.getElem?_set_self hklt, ?_⟩
    have hlisteners := hasListeners_ofList
      ((givenNames node.styleClass).map sheets.styleClassRegistry.index)
    rw [keyOf_styleClasses]
    unfold BitSet.clear
    rw [hlisteners]
    rfl
  | none =>
    have hlen : found.caches.length = memo.entries.length := by
      rw [hcaches, List.length_map]
    have hkey : memo.index (memoKey sheets node) = none := hindex
    rw [Memo.call, hkey]
    dsimp only
    rw [hlen]
    refine ⟨_, rfl, ?_⟩
    obtain ⟨hok', hfinds'⟩ := hgets.ok.file hgets.map hkeys
      (found.caches ++ [selectorData sheets node (keyOf sheets node (BitSet.new false))])
      memo.entries.length
    refine ⟨hok', (fun _ hfree' => by cases hfree'), ?_, ?_⟩
    · intro names content
      rw [hfinds', hfind, Memo.index_append]
      rfl
    · dsimp only
      rw [hcaches, List.map_append]
      rfl

/-! ## Runs of calls -/

/-- After any calls the world is the table that the same calls make. -/
theorem calls_spec (nodes : List Node) :
    ∀ {w : World} {memo : Memo (Option (List String) × (String × Option String × List Word))
      (List SelectorPartitioning.Entry)} {log : List (Node × ℕ)}, Represents w memo →
      Memo.Kept (memoKey sheets) (fromScratch sheets) memo log →
    ∃ memo', Represents (calls sheets w nodes).1 memo'
      ∧ Memo.Kept (memoKey sheets) (fromScratch sheets) memo' (log ++ (calls sheets w nodes).2)
      ∧ (calls sheets w nodes).2.map Prod.fst = nodes.filter (hasAny sheets) := by
  induction nodes with
  | nil =>
    intro w memo log h hkept
    refine ⟨memo, h, ?_, rfl⟩
    rw [calls, List.append_nil]
    exact hkept
  | cons node nodes ih =>
    intro w memo log h hkept
    rw [calls]
    dsimp only
    cases hany : hasAny sheets node with
    | false =>
      have hcall : findMatchingStyles sheets w node = (w, none) := by
        unfold findMatchingStyles
        rw [hany]
        rfl
      rw [hcall, List.filter_cons, hany]
      exact ih h hkept
    | true =>
      obtain ⟨w', hcall, h'⟩ := findMatchingStyles_spec h hany
      rw [hcall, List.filter_cons, hany]
      obtain ⟨memo', hrep, hkept', hnodes⟩ := ih h' (hkept.call node)
      refine ⟨memo', hrep, ?_, ?_⟩
      · rw [List.append_assoc] at hkept'
        exact hkept'
      · dsimp only [Option.toList_some, List.map_cons, List.map_nil]
        rw [List.map_append, hnodes]
        rfl

theorem memoKey_eq_iff {n n' : Node} :
    memoKey sheets n = memoKey sheets n' ↔ WrittenAlike n n' ∧ SameKey n n' := by
  unfold memoKey
  rw [Prod.mk.injEq, mapNames_eq_iff, content_eq_iff]

/-! ## What is shared -/

/-- The log of a run: the nodes that there is something to be found for, each with the
cache of its keys. -/
theorem calls_kept (sheets : Stylesheets) (nodes : List Node) :
    ∃ memo, (calls sheets start nodes).1.caches = memo.entries.map Prod.snd
      ∧ Memo.Kept (memoKey sheets) (fromScratch sheets) memo (calls sheets start nodes).2
      ∧ (calls sheets start nodes).2.map Prod.fst = nodes.filter (hasAny sheets) := by
  obtain ⟨memo, hrep, hkept, hnodes⟩ := calls_spec nodes represents_start Memo.kept_nil
  rw [List.nil_append] at hkept
  exact ⟨memo, hrep.caches, hkept, hnodes⟩

theorem mem_calls_of_mem {nodes : List Node} {node : Node} (hmem : node ∈ nodes)
    (hany : hasAny sheets node = true) : ∃ cache, (node, cache) ∈ (calls sheets start nodes).2 := by
  obtain ⟨memo, -, -, hnodes⟩ := calls_kept sheets nodes
  have hfilter : node ∈ nodes.filter (hasAny sheets) := List.mem_filter.mpr ⟨hmem, hany⟩
  rw [← hnodes] at hfilter
  obtain ⟨p, hp, rfl⟩ := List.mem_map.mp hfilter
  exact ⟨p.2, hp⟩

theorem mem_of_mem_calls {nodes : List Node} {p : Node × ℕ}
    (hp : p ∈ (calls sheets start nodes).2) : p.1 ∈ nodes ∧ hasAny sheets p.1 = true := by
  obtain ⟨memo, -, -, hnodes⟩ := calls_kept sheets nodes
  apply List.mem_filter.mp
  rw [← hnodes]
  exact List.mem_map_of_mem hp

/-- Nodes share a cache exactly if they have one `Key` and write their stylesheets alike. -/
theorem shared_iff {nodes : List Node} {p p' : Node × ℕ}
    (hp : p ∈ (calls sheets start nodes).2) (hp' : p' ∈ (calls sheets start nodes).2) :
    p.2 = p'.2 ↔ WrittenAlike p.1 p'.1 ∧ SameKey p.1 p'.1 := by
  obtain ⟨memo, -, hkept, -⟩ := calls_kept sheets nodes
  rw [hkept.shared_iff hp hp', memoKey_eq_iff]

/-- A cache has the selectors of the node it was made for. -/
theorem caches_made {nodes : List Node} {p : Node × ℕ}
    (hp : p ∈ (calls sheets start nodes).2) :
    ∃ node, (node, p.2) ∈ (calls sheets start nodes).2
      ∧ (calls sheets start nodes).1.caches[p.2]? = some (fromScratch sheets node) := by
  obtain ⟨memo, hcaches, hkept, -⟩ := calls_kept sheets nodes
  obtain ⟨v, hv⟩ := hkept.given p hp
  obtain ⟨node, hnode, -, hfresh⟩ := hkept.made _ _ hv
  refine ⟨node, hnode, ?_⟩
  rw [hcaches, List.getElem?_map, hv, hfresh]
  rfl

/-- The caches of a run are right exactly if there are no two nodes in it, with something
to be found for, that have one `Key` and write different stylesheets alike. -/
theorem calls_sound_iff (sheets : Stylesheets) (nodes : List Node) :
    Sound sheets (calls sheets start nodes).1 (calls sheets start nodes).2 ↔
      ∀ n ∈ nodes, ∀ n' ∈ nodes, hasAny sheets n = true → hasAny sheets n' = true →
        SameKey n n' → WrittenAlike n n' → SameStylesheets n n' := by
  constructor
  · intro hsound n hn n' hn' hany hany' hkey halike
    obtain ⟨cache, hlog⟩ := mem_calls_of_mem hn hany
    obtain ⟨cache', hlog'⟩ := mem_calls_of_mem hn' hany'
    have hcache := (shared_iff hlog hlog').mpr ⟨halike, hkey⟩
    exact (hsound.shared _ hlog _ hlog' hcache).2
  · intro h
    have hshared : ∀ p ∈ (calls sheets start nodes).2, ∀ p' ∈ (calls sheets start nodes).2,
        p.2 = p'.2 → SameKey p.1 p'.1 ∧ SameStylesheets p.1 p'.1 := by
      intro p hp p' hp' hcache
      obtain ⟨halike, hkey⟩ := (shared_iff hp hp').mp hcache
      obtain ⟨hmem, hany⟩ := mem_of_mem_calls hp
      obtain ⟨hmem', hany'⟩ := mem_of_mem_calls hp'
      exact ⟨hkey, h _ hmem _ hmem' hany hany' hkey halike⟩
    refine ⟨hshared, ?_⟩
    intro p hp
    obtain ⟨node, hnode, hcache⟩ := caches_made hp
    obtain ⟨hkey, hsheets⟩ := hshared _ hnode p hp rfl
    rw [hcache, fromScratch_congr hkey hsheets]

/-- A button under a parent with `base.css` and in a region with `skin.css` is given the
cache of one under a parent with both. -/
theorem calls_share_stylesheets : ¬ ∀ (sheets : Stylesheets) (nodes : List Node),
    Sound sheets (calls sheets start nodes).1 (calls sheets start nodes).2 := by
  intro h
  let sheets : Stylesheets := ⟨default, default, fun _ => some SelectorPartitioning.new,
    fun _ => some SelectorPartitioning.new, [], [], none, none⟩
  let both : Node := ⟨"Button", none, [], none, [some "base.css", some "skin.css"], []⟩
  let region : Node := ⟨"Button", none, [], none, [some "base.css"], [some "skin.css"]⟩
  have hany : hasAny sheets both = true := by decide
  have hany' : hasAny sheets region = true := by decide
  have hboth : both ∈ [both, region] := List.mem_cons_self
  have hregion : region ∈ [both, region] := List.mem_cons_of_mem _ List.mem_cons_self
  obtain ⟨cache, hlog⟩ := mem_calls_of_mem hboth hany
  obtain ⟨cache', hlog'⟩ := mem_calls_of_mem hregion hany'
  have halike : WrittenAlike both region := ⟨by decide, fun _ => by decide⟩
  have hcache := (shared_iff hlog hlog').mpr ⟨halike, rfl, rfl, rfl⟩
  have hsheets := ((h sheets [both, region]).shared _ hlog _ hlog' hcache).2
  have hne : both.regionUserAgentStylesheet ≠ region.regionUserAgentStylesheet := by decide
  exact hne hsheets.2

end JavaFx.Css.FindMatchingStyles
