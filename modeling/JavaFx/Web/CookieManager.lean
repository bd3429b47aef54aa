/-
`com.sun.webkit.network.CookieManager` over its store, and what one call does.

`FromHeader` ties a stored cookie to the header it was read from and to the URI of the
`put`; `Guarded` is what a `put` without an HTTP scheme may do to the `HttpOnly` cookies:
nothing but let them expire and have them evicted by a purge.
-/
import JavaFx.Web.CookieStoreRun

set_option autoImplicit false

namespace JavaFx.Web

open JavaFx.Lib

namespace CookieManager

variable (p : Platform)

/-! ## `get` -/

/-- The host of a URI as the methods use it, nothing where they give up. -/
def canonicalHost (uri : URI) : Option Str :=
  match uri.host with
  | none => none
  | some host => if host = [] then none else some (p.lower host)

def httpApi (uri : URI) : Bool := p.isWord "http" uri.scheme || p.isWord "https" uri.scheme

def secureProtocol (uri : URI) : Bool :=
  p.isWord "https" uri.scheme || p.isWord "javascripts" uri.scheme

/-- The cookies for a URI. -/
def getList (uri : URI) : Method CookieStore (List Cookie) :=
  match canonicalHost p uri with
  | none => pure []
  | some host => CookieStore.get p ⟨host, uri.path, secureProtocol p uri, httpApi p uri⟩

/-- The text of the header: `name=value` for each cookie, with `"; "` in between. -/
def cookieString (cookies : List Cookie) : Option Str :=
  let sb := cookies.foldl (fun sb cookie =>
    (if sb = [] then sb else sb ++ [';', ' ']) ++ cookie.name ++ ['='] ++ cookie.value) []
  if sb = [] then none else some sb

/-- `get(URI, Map)`: the value of the `Cookie` header, if there is one. -/
def get (uri : Option URI) (requestHeaders : Option Unit) : Method CookieStore (Option Str) :=
  match uri, requestHeaders with
  | some uri, some _ => cookieString <$> getList p uri
  | _, _ => throw .illegalArgument

/-! ## `put` -/

/-- The domain of a new cookie, nothing where the cookie is ignored. -/
def assignDomain (host : Str) (cookie : Cookie) : Option Cookie :=
  if p.isPublicSuffix cookie.domain && cookie.domain != host then none
  else if p.isPublicSuffix cookie.domain || cookie.domain == [] then
    some { cookie with hostOnly := true, domain := host }
  else if domainMatches host cookie.domain then some { cookie with hostOnly := false }
  else none

/-- The path of a new cookie. -/
def assignPath (uri : URI) (cookie : Cookie) : Cookie :=
  { cookie with path := some (cookie.path.getD (defaultPath uri)) }

/-- What `put` does in the store. -/
def replace (httpApi : Bool) (cookie : Cookie) : Method CookieStore Unit := do
  match ← CookieStore.getCookie p cookie with
  | some oldCookie =>
    if oldCookie.httpOnly && !httpApi then return
    else CookieStore.put p { cookie with creationTime := oldCookie.creationTime }
  | none => CookieStore.put p cookie

/-- `put(URI, Cookie)`. -/
def putCookie (uri : URI) (cookie : Cookie) : Method CookieStore Unit :=
  match canonicalHost p uri with
  | none => pure ()
  | some host =>
    match assignDomain p host cookie with
    | none => pure ()
    | some cookie =>
      if cookie.httpOnly && !httpApi p uri then pure ()
      else replace p (httpApi p uri) (assignPath uri cookie)

/-- The loop over the values of one header, which come in reverse order. -/
def putValues (uri : URI) : ExtendedTime → List Str → Method CookieStore Unit
  | _, [] => pure ()
  | currentTime, value :: rest =>
    match Cookie.parse p value currentTime with
    | none => putValues uri currentTime rest
    | some cookie => do
        putCookie p uri cookie
        putValues uri currentTime.incrementSubtime rest

/-- The loop over the headers. -/
def putHeaders (uri : URI) : List (Option Str × List Str) → Method CookieStore Unit
  | [] => pure ()
  | (key, values) :: rest =>
    if p.isWord "Set-Cookie" key then do
      let currentTime ← CookieStore.currentTimeMillis p
      putValues p uri ⟨currentTime, 0⟩ values.reverse
      putHeaders uri rest
    else putHeaders uri rest

/-- `put(URI, Map)`. -/
def put (uri : Option URI) (responseHeaders : Option (List (Option Str × List Str))) :
    Method CookieStore Unit :=
  match uri, responseHeaders with
  | some uri, some responseHeaders => putHeaders p uri responseHeaders
  | _, _ => throw .illegalArgument

/-! ## Where a stored cookie comes from -/

/-- The host that stored the cookie is its domain, or belongs to its domain, which is not a
public suffix then. -/
def HostAllows (host : Str) (c : Cookie) : Prop :=
  if c.hostOnly then c.domain = host
  else domainMatches host c.domain ∧ p.isPublicSuffix c.domain = false

/-- The cookie was read from the value of a header and stored for a URI. -/
def FromHeader (uri : URI) (value : Str) (c : Cookie) : Prop :=
  ∃ host, canonicalHost p uri = some host ∧ HostAllows p host c ∧
    (c.httpOnly → httpApi p uri) ∧
    ∃ time k, Cookie.parse p value time = some k ∧ c.name = k.name ∧ c.value = k.value ∧
      c.expiryTime = k.expiryTime ∧ c.secureOnly = k.secureOnly ∧ c.httpOnly = k.httpOnly

/-- A domain that is assigned is allowed. -/
theorem hostAllows_assignDomain {host : Str} {cookie c : Cookie}
    (h : assignDomain p host cookie = some c) : HostAllows p host c ∧ c.name = cookie.name ∧
      c.value = cookie.value ∧ c.expiryTime = cookie.expiryTime ∧
      c.secureOnly = cookie.secureOnly ∧ c.httpOnly = cookie.httpOnly := by
  rw [assignDomain] at h
  by_cases hother : p.isPublicSuffix cookie.domain && cookie.domain != host
  · simp [hother] at h
  · rw [if_neg hother] at h
    by_cases hown : p.isPublicSuffix cookie.domain || cookie.domain == []
    · rw [if_pos hown, Option.some.injEq] at h
      rw [← h]
      exact ⟨by simp [HostAllows], rfl, rfl, rfl, rfl, rfl⟩
    · rw [if_neg hown] at h
      by_cases hmatch : domainMatches host cookie.domain
      · rw [if_pos hmatch, Option.some.injEq] at h
        rw [← h]
        have hsuffix : p.isPublicSuffix cookie.domain = false := by
          rw [Bool.or_eq_true, not_or] at hown
          simpa using hown.1
        exact ⟨by simp [HostAllows, hmatch, hsuffix], rfl, rfl, rfl, rfl, rfl⟩
      · rw [if_neg hmatch] at h
        cases h

/-! ## One cookie put -/

open CookieStore

variable {p} {s s' s'' : CookieStore} {cookie : Cookie}

/-- The `HttpOnly` cookies are kept until they expire, or a purge evicts them. -/
structure Guarded (p : Platform) (s s' : CookieStore) : Prop where
  ticks : s.ticks ≤ s'.ticks
  purges : s.purges <+: s'.purges
  kept : ∀ c ∈ s.cookies, c.httpOnly → s'.now p ≤ c.expiryTime →
    c ∈ s'.cookies ∨ ∃ r ∈ since s s', c ∈ r.before ∧ c ∉ r.after

theorem Guarded.trans (h : Guarded p s s') (h' : Guarded p s' s'') : Guarded p s s'' where
  ticks := h.ticks.trans h'.ticks
  purges := h.purges.trans h'.purges
  kept c hc hhttp hexp := by
    rcases h.kept c hc hhttp ((now_le h'.ticks).trans hexp) with hmem | ⟨r, hr, hcr⟩
    · exact (h'.kept c hmem hhttp hexp).imp_right
        (fun ⟨r, hr, hcr⟩ => ⟨r, mem_since_of_right h.purges hr, hcr⟩)
    · exact .inr ⟨r, mem_since_of_left h.purges h'.purges hr, hcr⟩

theorem guarded_of_shrunk (hs : Consistent s) (h : Shrunk p s s') : Guarded p s s' where
  ticks := h.ticks
  purges := h.purges ▸ List.prefix_rfl
  kept _ hc _ hexp := .inl (h.mem hs hc hexp)

/-- Cookies with one key are in one bucket. -/
theorem mem_bucket_of_key (hs : Consistent s) {c : Cookie} (hc : c ∈ s.cookies)
    (hk : c.key = cookie.key) : ∃ b, s.buckets.get cookie.domain = some b ∧ c ∈ b := by
  obtain ⟨d, b, hd, hcb⟩ := (Buckets.mem_items hs.keys).1 hc
  have hdom : c.domain = cookie.domain := congrArg (fun k => k.2.1) hk
  rw [← hdom, hs.domain d b hd c hcb]
  exact ⟨b, hd, hcb⟩

/-- `get(Cookie)` finds the cookie with the same key, and drops it if it has expired. -/
theorem getCookie_spec (hs : Consistent s) :
    Wp (getCookie p cookie) s
      (fun old s' => Shrunk p s s' ∧
        match old with
        | some old => old ∈ s'.cookies ∧ old.key = cookie.key
        | none => ∀ c ∈ s'.cookies, c.key ≠ cookie.key)
      (fun _ _ => False) := by
  rw [getCookie, wp_bind, wp_get]
  cases hb : s.buckets.get cookie.domain with
  | none =>
    refine ⟨Shrunk.refl s, ?_⟩
    intro c hc hk
    obtain ⟨b, hb', _⟩ := mem_bucket_of_key hs hc hk
    rw [hb] at hb'
    cases hb'
  | some b =>
    cases hold : stored b cookie with
    | none =>
      simp only [Option.bind_some, hold]
      refine ⟨Shrunk.refl s, ?_⟩
      intro c hc hk
      obtain ⟨b', hb', hcb⟩ := mem_bucket_of_key hs hc hk
      rw [hb] at hb'
      cases hb'
      exact stored_eq_none.1 hold c hcb hk
    | some old =>
      obtain ⟨hmem, hkey⟩ := stored_eq_some hold
      simp only [Option.bind_some, hold]
      rw [wp_bind, wp_hasExpired, wp_ite]
      constructor
      · intro hexp
        obtain ⟨hshrunk, hget⟩ := shrunk_removeFrom hs hb hmem (of_decide_eq_true hexp)
        rw [wp_bind, wp_removeFrom, wp_pure]
        refine ⟨hshrunk, ?_⟩
        intro c hc hk
        obtain ⟨b', hb', hcb⟩ := mem_bucket_of_key (hs.shrunk hshrunk) hc hk
        rw [hget] at hb'
        cases hb'
        exact (mem_removeCookie.1 hcb).2 (hk.trans hkey.symm)
      · intro _
        exact ⟨Shrunk.tick s, mem_cookies hs hb hmem, hkey⟩

/-- A `put` into the store spares the cookies with other keys. -/
theorem guarded_of_put (h : Put p cookie s s')
    (hother : ∀ c ∈ s.cookies, c.httpOnly → c.key ≠ cookie.key) : Guarded p s s' where
  ticks := h.ticks
  purges := h.purges
  kept c hc hhttp hexp := by
    by_cases hmem : c ∈ s'.cookies
    · exact .inl hmem
    · rcases h.gone c hc hmem with hk | hlate | hr
      · exact (hother c hc hhttp hk).elim
      · exact absurd hlate (not_lt.2 hexp)
      · exact .inr hr

/-- The cookies that a method adds to a store that keeps its promises. -/
structure Adds (new : Cookie → Prop) (s s' : CookieStore) : Prop where
  consistent : Consistent s'
  bounded : Bounded s'
  kept : ∀ c ∈ s'.cookies, c ∈ s.cookies ∨ new c

theorem Adds.refl {new : Cookie → Prop} (hs : Consistent s) (hlimits : Bounded s) :
    Adds new s s := ⟨hs, hlimits, fun _ hc => .inl hc⟩

theorem Adds.trans {new new' : Cookie → Prop} (h : Adds new s s') (h' : Adds new' s' s'') :
    Adds (fun c => new c ∨ new' c) s s'' where
  consistent := h'.consistent
  bounded := h'.bounded
  kept c hc := by
    rcases h'.kept c hc with hc | hnew
    · exact (h.kept c hc).imp_right .inl
    · exact .inr (.inr hnew)

theorem Adds.mono {new new' : Cookie → Prop} (h : Adds new s s') (hnew : ∀ c, new c → new' c) :
    Adds new' s s' := ⟨h.consistent, h.bounded, fun c hc => (h.kept c hc).imp_right (hnew c)⟩

/-- **One cookie is put.** A cookie that is not `HttpOnly` does not replace one that is,
unless it comes from an HTTP scheme. -/
theorem replace_spec {http : Bool} (hs : Consistent s) (hlimits : Bounded s) :
    Wp (replace p http cookie) s
      (fun _ s' => Adds (fun c => ∃ t, c = { cookie with creationTime := t }) s s' ∧
        (http = false → Guarded p s s'))
      (fun _ _ => False) := by
  rw [replace, wp_bind]
  refine (getCookie_spec hs).mono ?_ (fun _ _ h => h)
  rintro old s₁ ⟨hshrunk, hold⟩
  have hs₁ := hs.shrunk hshrunk
  have hlimits₁ := hlimits.shrunk hshrunk
  have hguard₁ := guarded_of_shrunk hs hshrunk
  have hkept₁ : ∀ c ∈ s₁.cookies, c ∈ s.cookies := fun c hc => hshrunk.items.subset hc
  cases old with
  | none =>
    refine (put_spec hs₁ hlimits₁).mono ?_ (fun _ _ h => h)
    intro _ s' hput
    refine ⟨⟨hput.consistent, hput.bounded, ?_⟩, fun _ => hguard₁.trans (guarded_of_put hput ?_)⟩
    · intro c hc
      exact (hput.kept c hc).imp (hkept₁ c) (fun h => ⟨cookie.creationTime, h⟩)
    · exact fun c hc _ => hold c hc
  | some old =>
    rw [wp_ite]
    constructor
    · intro _
      rw [wp_pure]
      exact ⟨⟨hs₁, hlimits₁, fun c hc => .inl (hkept₁ c hc)⟩, fun _ => hguard₁⟩
    · intro hfree
      refine (put_spec hs₁ hlimits₁).mono ?_ (fun _ _ h => h)
      intro _ s' hput
      refine ⟨⟨hput.consistent, hput.bounded, ?_⟩, fun hhttp => hguard₁.trans
        (guarded_of_put hput ?_)⟩
      · intro c hc
        exact (hput.kept c hc).imp (hkept₁ c) (fun h => ⟨_, h⟩)
      · -- the one cookie with this key is not `HttpOnly`
        intro c hc hc' hk
        obtain ⟨b, hb, hcb⟩ := mem_bucket_of_key hs₁ hc hk
        obtain ⟨b', hb', holdb⟩ := mem_bucket_of_key hs₁ hold.1 hold.2
        rw [show ({ cookie with creationTime := old.creationTime } : Cookie).domain
          = cookie.domain from rfl] at hb
        rw [hb] at hb'
        cases hb'
        have heq : c = old := eq_of_key (hs₁.distinct _ _ hb) hcb holdb (hk.trans hold.2.symm)
        rw [heq] at hc'
        simp [hc', hhttp] at hfree

end CookieManager

end JavaFx.Web
