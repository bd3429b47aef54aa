/-
`StyleManager.findMatchingStyles` up to the cache it takes the selectors from.

A `Cache` is filed under two keys. The inner one is a `Key`, of type, id and style
classes. The outer one is a list of names, of the parents' stylesheets and, after them,
of the region's user-agent stylesheet; or `null` when there are none. Both are put
together in objects that are used again: a `Key` until it has been put into a map, a list
of names likewise. Objects that can change and be shared are in the state and go by
number: keys, lists, the inner maps and the caches.

The stylesheets are unchanged, so a container for a name has the selectors that the name
always leads to. What belongs to the scene and the platform is the same for all nodes of
one `CacheContainer`.
-/
import JavaFx.Css.SelectorPartitioning
import JavaFx.Lib.Memo

set_option autoImplicit false

namespace JavaFx.Css.FindMatchingStyles

open JavaFx.Lib SimpleSelector

/-! ## Nodes and stylesheets -/

/-- What a call reads of its node: `regionUserAgentStylesheets` are those of the node and
its ancestors, `null` for what is not a `Region`. -/
structure Node where
  typeSelector : String
  id : Option String
  styleClass : List (Option String)
  style : Option String
  parentStylesheets : List (Option String)
  regionUserAgentStylesheets : List (Option String)

/-- The stylesheets of the scene and the platform, and what names lead to. A container
has no partitioning if its stylesheet could not be loaded. -/
structure Stylesheets where
  styleClassRegistry : Registry
  order : IterationOrder
  authorSheet : Option String → Option SelectorPartitioning
  userAgentSheet : String → Option SelectorPartitioning
  platform : List (Option SelectorPartitioning)
  sceneStylesheets : List (Option String)
  sceneUserAgentStylesheet : Option String
  subSceneUserAgentStylesheet : Option String

/-- `trim().isEmpty()`. -/
def blank (s : String) : Bool := s.toList.all (· ≤ ' ')

/-- `trim()`. -/
def trim (s : String) : String :=
  String.ofList (((s.toList.dropWhile (· ≤ ' ')).reverse.dropWhile (· ≤ ' ')).reverse)

/-- `s != null && s.trim().isEmpty() == false`. -/
def hasText (s : Option String) : Bool := s.any (fun s => !blank s)

/-- The containers of `processStylesheets`, each once, by name. -/
def processStylesheets (stylesheets : List (Option String)) : List (Option String) :=
  stylesheets.foldl (fun list fname => if fname ∈ list then list else list ++ [fname]) []

/-- The walk from the node to the region that has a user-agent stylesheet. -/
def Node.regionUserAgentStylesheet (node : Node) : Option String :=
  node.regionUserAgentStylesheets.findSome? (fun s => s)

section Calls

variable (sheets : Stylesheets)

/-- There are stylesheets, or a style, to find something in. -/
def hasAny (node : Node) : Bool :=
  hasText node.style || !(processStylesheets node.parentStylesheets).isEmpty
    || !(processStylesheets sheets.sceneStylesheets).isEmpty
    || hasText sheets.sceneUserAgentStylesheet || hasText sheets.subSceneUserAgentStylesheet
    || hasText node.regionUserAgentStylesheet || !sheets.platform.isEmpty

/-! ## The state -/

/-- A `Key`. -/
structure Key where
  className : String
  id : Option String
  styleClasses : BitSet

/-- `Key.equals`. -/
def Key.equals (k other : Key) : Bool :=
  decide (k.className = other.className) && decide (k.id = other.id)
    && k.styleClasses.equals other.styleClasses

/-- The objects; the static fields `key` and `cacheMapKey`; and `cacheMap` of the
container, from lists of names to the maps from keys to caches. -/
structure World where
  keys : List Key
  lists : List (List String)
  maps : List (List (ℕ × ℕ))
  caches : List (List SelectorPartitioning.Entry)
  key : Option ℕ
  cacheMapKey : Option ℕ
  cacheMap : List (Option ℕ × ℕ)

/-- What a list in `cacheMap` contains. -/
def World.names (w : World) (list : Option ℕ) : Option (List String) :=
  list.map (fun l => w.lists.getD l [])

/-- `cacheMap.get`. -/
def World.getMap (w : World) (names : Option (List String)) : Option ℕ :=
  (w.cacheMap.find? (fun p => w.names p.1 = names)).map Prod.snd

/-- `get` of a map from keys to caches. -/
def World.getCache (w : World) (map : ℕ) (key : Key) : Option ℕ :=
  ((w.maps.getD map []).find? (fun p => (w.keys[p.1]?).any key.equals)).map Prod.snd

/-- A list is put into `cacheMap` with a new map. -/
def World.newMap (w : World) (list : Option ℕ) : World :=
  { w with maps := w.maps ++ [[]], cacheMap := w.cacheMap ++ [(list, w.maps.length)] }

/-- `cmap = cacheMap.get(..)`, and `put` if there is none. -/
def World.mapFor (w : World) (list : Option ℕ) : World × ℕ :=
  match w.getMap (w.names list) with
  | some cmap => (w, cmap)
  | none => (w.newMap list, w.maps.length)

/-- `cacheMapKey` for the next call: a new list if there is none, and it is filled. -/
def World.addNames (w : World) (names : List String) : World × ℕ :=
  match w.cacheMapKey with
  | some l => ({ w with lists := w.lists.modify l (· ++ names) }, l)
  | none => ({ w with lists := w.lists ++ [names], cacheMapKey := some w.lists.length },
      w.lists.length)

/-- No parent has a stylesheet, and there is none of the region. -/
def bare (parentStylesheets : List (Option String)) (regionUserAgentStylesheet : Option String) :
    Bool :=
  parentStylesheets.isEmpty && regionUserAgentStylesheet.all (· = "")

/-- The names that are added to `cacheMapKey`. -/
def named (parentStylesheets : List (Option String)) (regionUserAgentStylesheet : Option String) :
    List String :=
  givenNames parentStylesheets ++ regionUserAgentStylesheet.toList

/-- `getCacheMap`. -/
def World.getCacheMap (w : World) (parentStylesheets : List (Option String))
    (regionUserAgentStylesheet : Option String) : World × ℕ :=
  if bare parentStylesheets regionUserAgentStylesheet then w.mapFor none
  else
    let filled := w.addNames (named parentStylesheets regionUserAgentStylesheet)
    match filled.1.getMap (filled.1.names (some filled.2)) with
    | none => ({ filled.1.newMap (some filled.2) with cacheMapKey := none }, filled.1.maps.length)
    | some cmap => ({ filled.1 with lists := filled.1.lists.set filled.2 [] }, cmap)

/-- The fields of `key` are assigned; there is a new one if there is none. -/
def World.fillKey (w : World) (key : Key) : World × ℕ :=
  match w.key with
  | some k => ({ w with keys := w.keys.set k key }, k)
  | none => ({ w with keys := w.keys ++ [key], key := some w.keys.length }, w.keys.length)

/-- What `key` is filled with. Its style classes were empty before. -/
def keyOf (node : Node) (styleClasses : BitSet) : Key :=
  ⟨node.typeSelector, node.id, ((givenNames node.styleClass).map sheets.styleClassRegistry.index).foldl
    (fun s t => (s.add (some t)).set) styleClasses⟩

/-- The selectors that a container finds. -/
def matching (key : Key) (container : Option SelectorPartitioning) :
    List SelectorPartitioning.Entry :=
  match container with
  | some p => p.matchSelectors sheets.order key.id (some key.className) (some key.styleClasses)
  | none => []

/-- The selectors that could apply, in the order of precedence. -/
def selectorData (node : Node) (key : Key) : List SelectorPartitioning.Entry :=
  (if hasText sheets.subSceneUserAgentStylesheet then
      matching sheets key (sheets.userAgentSheet (trim (sheets.subSceneUserAgentStylesheet.getD "")))
    else if hasText sheets.sceneUserAgentStylesheet then
      matching sheets key (sheets.userAgentSheet (trim (sheets.sceneUserAgentStylesheet.getD "")))
    else sheets.platform.flatMap (matching sheets key))
  ++ ((if hasText node.regionUserAgentStylesheet then
      matching sheets key (sheets.userAgentSheet (node.regionUserAgentStylesheet.getD ""))
    else [])
  ++ ((processStylesheets sheets.sceneStylesheets).flatMap
      (fun fname => matching sheets key (sheets.authorSheet fname))
  ++ (processStylesheets node.parentStylesheets).flatMap
      (fun fname => matching sheets key (sheets.authorSheet fname))))

/-- `findMatchingStyles`, with the cache it finds or makes. -/
def findMatchingStyles (w : World) (node : Node) : World × Option ℕ :=
  if !hasAny sheets node then (w, none)
  else
    let classes := ((w.key.bind (fun k => w.keys[k]?)).map Key.styleClasses).getD (BitSet.new false)
    let key := keyOf sheets node classes
    let filled := w.fillKey key
    let found := filled.1.getCacheMap (processStylesheets node.parentStylesheets)
      node.regionUserAgentStylesheet
    match found.1.getCache found.2 key with
    | some cache =>
      -- the key will be reused
      let reused := { key with styleClasses := key.styleClasses.clear.1 }
      ({ found.1 with keys := found.1.keys.set filled.2 reused }, some cache)
    | none =>
      ({ found.1 with
          caches := found.1.caches ++ [selectorData sheets node key]
          maps := found.1.maps.modify found.2 (· ++ [(filled.2, found.1.caches.length)])
          key := none }, some found.1.caches.length)

/-- No call yet. -/
def start : World := ⟨[], [], [], [], none, none, []⟩

/-- The calls of a run, each with its cache, and the world afterwards. -/
def calls (w : World) : List Node → World × List (Node × ℕ)
  | [] => (w, [])
  | node :: nodes =>
    let called := findMatchingStyles sheets w node
    let rest := calls called.1 nodes
    (rest.1, called.2.toList.map (fun cache => (node, cache)) ++ rest.2)

/-! ## What is right -/

/-- The names of style classes, as a set. -/
def classes (node : Node) : Set String := {s | s ∈ givenNames node.styleClass}

/-- Equal type, id and style classes. -/
def SameKey (n n' : Node) : Prop :=
  n.typeSelector = n'.typeSelector ∧ n.id = n'.id ∧ classes n = classes n'

/-- Equal lists of the names of parents' stylesheets and equal stylesheet of the region. -/
def SameStylesheets (n n' : Node) : Prop :=
  processStylesheets n.parentStylesheets = processStylesheets n'.parentStylesheets
    ∧ n.regionUserAgentStylesheet = n'.regionUserAgentStylesheet

/-- The selectors that would be computed from scratch. -/
def fromScratch (node : Node) : List SelectorPartitioning.Entry :=
  selectorData sheets node (keyOf sheets node (BitSet.new false))

/-- Nodes share a cache only if they are alike, and a cache has the selectors of each of
its nodes. -/
structure Sound (w : World) (log : List (Node × ℕ)) : Prop where
  shared : ∀ p ∈ log, ∀ p' ∈ log, p.2 = p'.2 → SameKey p.1 p'.1 ∧ SameStylesheets p.1 p'.1
  selectors : ∀ p ∈ log, w.caches[p.2]? = some (fromScratch sheets p.1)

/-- Both nodes have no stylesheets of parents and regions, or both have some, and the
names of the one, the region's after the parents', are those of the other. -/
def WrittenAlike (n n' : Node) : Prop :=
  let parents := processStylesheets n.parentStylesheets
  let parents' := processStylesheets n'.parentStylesheets
  let region := n.regionUserAgentStylesheet
  let region' := n'.regionUserAgentStylesheet
  bare parents region = bare parents' region'
    ∧ (bare parents region = false → named parents region = named parents' region')

end Calls

end JavaFx.Css.FindMatchingStyles
