/-
`com.sun.webkit.network.CookieStore`: buckets of cookies by domain, with a count of all
cookies and two purges.

Each `hasExpired()` reads the clock, so the time moves on inside a method; `ticks` counts
the readings. `purges` is a record of what the purges did and is read by no method.
The walks over a bucket in `find` and in the two purges are one loop, `sweep`: it removes
the expired cookies and hands the others to its body.
-/
import JavaFx.Web.Cookie
import JavaFx.Lib.Buckets

set_option autoImplicit false

namespace JavaFx.Web

open JavaFx.Lib

def MAX_BUCKET_SIZE : ℕ := 50

def TOTAL_COUNT_LOWER_THRESHOLD : ℤ := 3000

def TOTAL_COUNT_UPPER_THRESHOLD : ℤ := 4000

/-- The cookies a purge found, in a bucket or in the whole store, those it left, and the
last time it read. -/
structure Purge where
  before : List Cookie
  after : List Cookie
  time : ℤ

structure CookieStore where
  buckets : Buckets Str Cookie
  totalCount : ℤ
  ticks : ℕ
  purges : List Purge

/-- `new CookieStore()`, after some readings of the clock. -/
def CookieStore.new (ticks : ℕ) : CookieStore := ⟨[], 0, ticks, []⟩

/-- The cookies over all buckets. -/
def CookieStore.cookies (s : CookieStore) : List Cookie := s.buckets.items

/-! ## A bucket: `LinkedHashMap<Cookie,Cookie>` -/

/-- `bucket.get(cookie)`. -/
def stored (bucket : List Cookie) (cookie : Cookie) : Option Cookie :=
  bucket.find? (fun c => c.key = cookie.key)

/-- `bucket.remove(cookie)`. -/
def removeCookie (bucket : List Cookie) (cookie : Cookie) : List Cookie :=
  bucket.filter (fun c => c.key ≠ cookie.key)

/-- `bucket.put(cookie, cookie)`: a cookie takes the place of the one it replaces. -/
def putCookie (bucket : List Cookie) (cookie : Cookie) : List Cookie :=
  if (stored bucket cookie).isSome then
    bucket.map (fun c => if c.key = cookie.key then cookie else c)
  else bucket ++ [cookie]

namespace CookieStore

variable (p : Platform)

/-! ## The clock and the removal of one cookie -/

/-- `System.currentTimeMillis()`. -/
def currentTimeMillis : Method CookieStore ℤ := do
  let s ← get
  set { s with ticks := s.ticks + 1 }
  return p.clock s.ticks

/-- `cookie.hasExpired()`. -/
def hasExpired (cookie : Cookie) : Method CookieStore Bool := do
  return decide (cookie.expiryTime < (← currentTimeMillis p))

/-- The last reading. -/
def now (s : CookieStore) : ℤ := p.clock (s.ticks - 1)

/-- The cookies of a bucket changed, and the count. -/
def update (domain : Str) (f : List Cookie → List Cookie) (count : ℤ) (s : CookieStore) :
    CookieStore :=
  { s with
    buckets := s.buckets.setBucket domain (f ((s.buckets.get domain).getD []))
    totalCount := s.totalCount + count }

/-- `bucket.remove(cookie); totalCount--`. -/
def removeFrom (domain : Str) (cookie : Cookie) : Method CookieStore Unit :=
  modify (update domain (removeCookie · cookie) (-1))

/-- The loop over `bucket.values()`: expired cookies are removed, `body` gets the others. -/
def sweep {α : Type} (domain : Str) (body : α → Cookie → Except Exn α) :
    α → List Cookie → Method CookieStore α
  | acc, [] => pure acc
  | acc, cookie :: rest => do
      if ← hasExpired p cookie then
        removeFrom domain cookie
        sweep domain body acc rest
      else
        let acc ← liftExcept (body acc cookie)
        sweep domain body acc rest

/-! ## `get` -/

/-- `get(Cookie)`. -/
def getCookie (cookie : Cookie) : Method CookieStore (Option Cookie) := do
  let s ← get
  match (s.buckets.get cookie.domain).bind (stored · cookie) with
  | none => return none
  | some storedCookie =>
    if ← hasExpired p storedCookie then
      removeFrom cookie.domain storedCookie
      return none
    else return some storedCookie

/-- What a request asks for. -/
structure Query where
  hostname : Str
  path : Option Str
  secureProtocol : Bool
  httpApi : Bool
  deriving DecidableEq, Repr

/-- The tests of `find`. -/
def selects (q : Query) (cookie : Cookie) : Except Exn Bool :=
  if cookie.hostOnly && !p.equalsIgnoreCase q.hostname cookie.domain then .ok false
  else if !cookie.hostOnly && !domainMatches q.hostname cookie.domain then .ok false
  else do
    if !(← pathMatches q.path cookie.path) then .ok false
    else if cookie.secureOnly && !q.secureProtocol then .ok false
    else if cookie.httpOnly && !q.httpApi then .ok false
    else .ok true

/-- The body of the loop of `find`. -/
def findBody (q : Query) (list : List Cookie) (cookie : Cookie) : Except Exn (List Cookie) := do
  if ← selects p q cookie then .ok (list ++ [cookie]) else .ok list

/-- `find`. -/
def find (q : Query) (list : List Cookie) (domain : Str) (bucket : List Cookie) :
    Method CookieStore (List Cookie) := sweep p domain (findBody p q) list bucket

/-- What stands after the first point, if there is one. -/
def afterPoint : Str → Option Str
  | [] => none
  | '.' :: rest => some rest
  | _ :: rest => afterPoint rest

theorem length_afterPoint {s rest : Str} (h : afterPoint s = some rest) :
    rest.length < s.length := by
  induction s using afterPoint.induct with
  | case1 => simp [afterPoint] at h
  | case2 s =>
    simp only [afterPoint, Option.some.injEq] at h
    simp [← h]
  | case3 c s hc ih =>
    rw [afterPoint] at h
    · have := ih h
      simp only [List.length_cons]
      omega
    · exact hc

theorem afterPoint_suffix {s rest : Str} (h : afterPoint s = some rest) : rest <:+ s := by
  induction s using afterPoint.induct with
  | case1 => simp [afterPoint] at h
  | case2 s =>
    simp only [afterPoint, Option.some.injEq] at h
    rw [← h]
    exact List.suffix_cons _ _
  | case3 c s hc ih =>
    rw [afterPoint] at h
    · exact (ih h).trans (List.suffix_cons _ _)
    · exact hc

/-- The domains `get` looks up: the host name, and what stands after each of its points. -/
def domains (domain : Str) : List Str :=
  if domain = [] then []
  else
    match _h : afterPoint domain with
    | some rest => domain :: domains rest
    | none => [domain]
termination_by domain.length
decreasing_by exact length_afterPoint ‹_›

theorem mem_domains {hostname d : Str} (h : d ∈ domains hostname) : d ≠ [] ∧ d <:+ hostname := by
  induction hostname using domains.induct with
  | case1 => simp [domains] at h
  | case2 hostname hne rest hrest ih =>
    rw [domains, if_neg hne] at h
    split at h
    · next rest' hrest' =>
        rw [hrest] at hrest'
        cases hrest'
        rcases List.mem_cons.1 h with rfl | h
        · exact ⟨hne, List.suffix_refl _⟩
        · exact ⟨(ih h).1, (ih h).2.trans (afterPoint_suffix hrest)⟩
    · next hnone =>
        rw [hrest] at hnone
        cases hnone
  | case3 hostname hne hnone =>
    rw [domains, if_neg hne] at h
    split at h
    · next rest hrest =>
        rw [hnone] at hrest
        cases hrest
    · rw [List.mem_singleton] at h
      rw [h]
      exact ⟨hne, List.suffix_refl _⟩

/-- The `while` loop of `get`. -/
def findAll (q : Query) : List Cookie → List Str → Method CookieStore (List Cookie)
  | list, [] => pure list
  | list, domain :: rest => do
      match (← get).buckets.get domain with
      | none => findAll q list rest
      | some bucket => findAll q (← find p q list domain bucket) rest

/-- `GetComparator`. -/
def getComparator (c1 c2 : Cookie) : ℤ :=
  let d : ℤ := ((c2.path.getD []).length : ℤ) - ((c1.path.getD []).length : ℤ)
  if d ≠ 0 then d else c1.creationTime.compareTo c2.creationTime

/-- `cookie.setLastAccessTime(currentTime)`. -/
def access (currentTime : ℤ) (c : Cookie) : Cookie := { c with lastAccessTime := currentTime }

/-- The cookies of the result are those of the buckets. -/
def accessAll (currentTime : ℤ) (result : List Cookie) (s : CookieStore) : CookieStore :=
  { s with
    buckets := s.buckets.mapBuckets
      (List.map (fun c => if c ∈ result then access currentTime c else c)) }

/-- `get(String, String, boolean, boolean)`. -/
def get (q : Query) : Method CookieStore (List Cookie) := do
  let result ← liftExcept (p.sort getComparator (← findAll p q [] (domains q.hostname)))
  let currentTime ← currentTimeMillis p
  modify (accessAll currentTime result)
  return result.map (access currentTime)

/-! ## `put` and the purges -/

/-- The body of the loop of `purge(Map)`. -/
def earliest (earliestCookie : Option Cookie) (cookie : Cookie) : Except Exn (Option Cookie) :=
  match earliestCookie with
  | none => .ok (some cookie)
  | some e => if cookie.lastAccessTime < e.lastAccessTime then .ok (some cookie) else .ok (some e)

/-- What `purge(Map)` does after its loop. -/
def removeEarliest (domain : Str) (earliestCookie : Option Cookie) : Method CookieStore Unit := do
  let s ← MonadState.get
  if MAX_BUCKET_SIZE < ((s.buckets.get domain).getD []).length then
    match earliestCookie with
    | some cookie => removeFrom domain cookie
    -- `remove(null)`
    | none => set { s with totalCount := s.totalCount - 1 }

/-- A record of the purge of a bucket that started in `s`. -/
def recordBucket (domain : Str) (s t : CookieStore) : CookieStore :=
  { t with purges := t.purges ++
      [⟨(s.buckets.get domain).getD [], (t.buckets.get domain).getD [], t.now p⟩] }

/-- `purge(Map)`. -/
def purgeBucket (domain : Str) : Method CookieStore Unit := do
  let s ← MonadState.get
  let earliestCookie ← sweep p domain earliest none ((s.buckets.get domain).getD [])
  removeEarliest domain earliestCookie
  modify (recordBucket p domain s)

/-- `RemovalComparator`. -/
def removalComparator (c1 c2 : Cookie) : ℤ := toInt (toLong (c1.lastAccessTime - c2.lastAccessTime))

/-- The first loop of `purge()`: what it adds to the queue. -/
def collect : List Cookie → List Str → Method CookieStore (List Cookie)
  | queue, [] => pure queue
  | queue, domain :: rest => do
      let s ← MonadState.get
      let queue ← sweep p domain (fun queue cookie => .ok (queue ++ [cookie])) queue
        ((s.buckets.get domain).getD [])
      collect queue rest

/-- A turn of the second loop of `purge()`. -/
def removeStored (cookie : Cookie) : Method CookieStore Unit := do
  let s ← MonadState.get
  if (s.buckets.get cookie.domain).isSome then removeFrom cookie.domain cookie

/-- The second loop of `purge()`, over the cookies in the order in which the queue gives
them. -/
def removeExcess : List Cookie → Method CookieStore Unit
  | [] => do
      if TOTAL_COUNT_LOWER_THRESHOLD < (← MonadState.get).totalCount then throw .noSuchElement
  | cookie :: queue => do
      let s ← MonadState.get
      if TOTAL_COUNT_LOWER_THRESHOLD < s.totalCount then
        removeStored cookie
        removeExcess queue

/-- A record of the purge of the store that started in `s`. -/
def recordStore (s t : CookieStore) : CookieStore :=
  { t with purges := t.purges ++ [⟨s.cookies, t.cookies, t.now p⟩] }

/-- `new PriorityQueue<Cookie>(totalCount / 2, ...)`. -/
def newQueue : Method CookieStore Unit := do
  if (← MonadState.get).totalCount.tdiv 2 < 1 then throw .illegalArgument

/-- `purge()`. -/
def purge : Method CookieStore Unit := do
  let s ← MonadState.get
  newQueue
  let removalQueue ← collect p [] s.buckets.keys
  removeExcess (p.queue.removals removalComparator removalQueue)
  modify (recordStore p s)

/-- The bucket of a cookie that is put, which is created where there is none. -/
def openBucket (cookie : Cookie) : Method CookieStore (List Cookie) := do
  let s ← MonadState.get
  match s.buckets.get cookie.domain with
  | some bucket => return bucket
  | none =>
    set { s with buckets := s.buckets.addKey cookie.domain }
    return []

/-- `if (bucket.size() > MAX_BUCKET_SIZE) purge(bucket)`. -/
def limitBucket (domain : Str) : Method CookieStore Unit := do
  let s ← MonadState.get
  if MAX_BUCKET_SIZE < ((s.buckets.get domain).getD []).length then purgeBucket p domain

/-- `if (totalCount > TOTAL_COUNT_UPPER_THRESHOLD) purge()`. -/
def limitStore : Method CookieStore Unit := do
  if TOTAL_COUNT_UPPER_THRESHOLD < (← MonadState.get).totalCount then purge p

/-- What `put` does with a new cookie. -/
def add (cookie : Cookie) : Method CookieStore Unit := do
  modify (update cookie.domain (putCookie · cookie) 1)
  limitBucket p cookie.domain
  limitStore p

/-- `put`. -/
def put (cookie : Cookie) : Method CookieStore Unit := do
  let bucket ← openBucket cookie
  if ← hasExpired p cookie then
    if (stored bucket cookie).isSome then removeFrom cookie.domain cookie
  else if (stored bucket cookie).isSome then
    modify (update cookie.domain (putCookie · cookie) 0)
  else add p cookie

end CookieStore

end JavaFx.Web
