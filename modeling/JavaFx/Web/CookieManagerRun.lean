/-
Runs of a cookie manager.

Every cookie in the store was stored by one of the calls so far (`Stored`), and its own
domain and flags say to whom it may go. What `get` returns passed the tests of `find`, and
its domain is among those the host name was looked up by; both together are
`GetIsolated`. `PutIsolated` is what a `put` without an HTTP scheme leaves alone.
-/
import JavaFx.Web.CookieManager
import JavaFx.Web.CookieStoreOrder
import Mathlib.Data.List.Induction

set_option autoImplicit false

namespace JavaFx.Web

open JavaFx.Lib

namespace CookieManager

open CookieStore

variable {p : Platform} {s s' : CookieStore} {uri : URI}

/-! ## The calls of `put` -/

/-- The cookie was read from one of the values and stored for the URI. -/
def FromValues (p : Platform) (uri : URI) (values : List Str) (c : Cookie) : Prop :=
  ∃ value ∈ values, FromHeader p uri value c

/-- What a part of `put` does: it adds cookies that come from the values, and guards the
`HttpOnly` cookies when the scheme is not an HTTP one. -/
structure PutsFrom (p : Platform) (uri : URI) (values : List Str) (s s' : CookieStore) : Prop where
  adds : Adds (FromValues p uri values) s s'
  guarded : httpApi p uri = false → Guarded p s s'

theorem PutsFrom.nothing (hs : Consistent s) (hlimits : Bounded s) (values : List Str) :
    PutsFrom p uri values s s where
  adds := Adds.refl hs hlimits
  guarded _ := guarded_of_shrunk hs (Shrunk.refl s)

theorem PutsFrom.trans {values values' : List Str} {s₁ : CookieStore}
    (h : PutsFrom p uri values s s₁) (h' : PutsFrom p uri values' s₁ s') :
    PutsFrom p uri (values ++ values') s s' where
  adds := by
    refine (h.adds.trans h'.adds).mono ?_
    rintro c (⟨v, hv, hc⟩ | ⟨v, hv, hc⟩)
    · exact ⟨v, List.mem_append_left _ hv, hc⟩
    · exact ⟨v, List.mem_append_right _ hv, hc⟩
  guarded hhttp := (h.guarded hhttp).trans (h'.guarded hhttp)

theorem PutsFrom.mono {values values' : List Str} (h : PutsFrom p uri values s s')
    (hsub : values ⊆ values') : PutsFrom p uri values' s s' where
  adds := h.adds.mono (fun _ ⟨v, hv, hc⟩ => ⟨v, hsub hv, hc⟩)
  guarded := h.guarded

/-- A cookie that `put` stores comes from its header. -/
theorem putCookie_spec {value : Str} {time : ExtendedTime} {k : Cookie}
    (hk : Cookie.parse p value time = some k) (hs : Consistent s) (hlimits : Bounded s) :
    Wp (putCookie p uri k) s (fun _ s' => PutsFrom p uri [value] s s') (fun _ _ => False) := by
  have hnothing : PutsFrom p uri [value] s s := PutsFrom.nothing hs hlimits _
  rw [putCookie]
  cases hhost : canonicalHost p uri with
  | none => exact hnothing
  | some host =>
    simp only
    cases hdom : assignDomain p host k with
    | none => exact hnothing
    | some cookie =>
      obtain ⟨hallows, hname, hvalue, hexpiry, hsecure, honly⟩ := hostAllows_assignDomain p hdom
      simp only [wp_ite]
      refine ⟨fun _ => hnothing, fun hfree => ?_⟩
      refine (replace_spec hs hlimits).mono ?_ (fun _ _ h => h)
      rintro _ s' ⟨hadds, hguarded⟩
      refine ⟨hadds.mono ?_, hguarded⟩
      rintro c ⟨t, rfl⟩
      refine ⟨value, List.mem_singleton_self _, host, hhost, hallows, ?_, time, k, hk, hname,
        hvalue, hexpiry, hsecure, honly⟩
      intro hhttp
      by_contra hn
      apply hfree
      have hc : cookie.httpOnly = true := hhttp
      simpa [hc] using hn

theorem putValues_spec (values : List Str) (time : ExtendedTime) (s : CookieStore)
    (hs : Consistent s) (hlimits : Bounded s) :
    Wp (putValues p uri time values) s (fun _ s' => PutsFrom p uri values s s')
      (fun _ _ => False) := by
  induction values generalizing time s with
  | nil => exact PutsFrom.nothing hs hlimits _
  | cons value values ih =>
    rw [putValues]
    cases hk : Cookie.parse p value time with
    | none =>
      refine (ih time s hs hlimits).mono ?_ (fun _ _ h => h)
      exact fun _ s' h => h.mono (List.subset_cons_self value values)
    | some k =>
      simp only [wp_bind]
      refine (putCookie_spec hk hs hlimits).mono ?_ (fun _ _ h => h)
      intro _ s₁ h₁
      refine (ih _ s₁ h₁.adds.consistent h₁.adds.bounded).mono ?_ (fun _ _ h => h)
      exact fun _ s' h => h₁.trans h

/-- The values of the `Set-Cookie` headers. -/
def setCookieValues (p : Platform) (headers : List (Option Str × List Str)) : List Str :=
  (headers.filter (fun h => p.isWord "Set-Cookie" h.1)).flatMap Prod.snd

theorem putHeaders_spec (headers : List (Option Str × List Str)) (s : CookieStore)
    (hs : Consistent s) (hlimits : Bounded s) :
    Wp (putHeaders p uri headers) s
      (fun _ s' => PutsFrom p uri (setCookieValues p headers) s s') (fun _ _ => False) := by
  induction headers generalizing s with
  | nil => exact PutsFrom.nothing hs hlimits _
  | cons header headers ih =>
    obtain ⟨key, values⟩ := header
    rw [putHeaders, wp_ite]
    constructor
    · intro hkey
      have hvalues : setCookieValues p ((key, values) :: headers)
          = values ++ setCookieValues p headers := by simp [setCookieValues, hkey]
      rw [wp_bind, hvalues]
      -- the clock is read, then the values are put
      have htick : Shrunk p s { s with ticks := s.ticks + 1 } := Shrunk.tick s
      have hread : Wp (do
          putValues p uri ⟨p.clock s.ticks, 0⟩ values.reverse
          putHeaders p uri headers) { s with ticks := s.ticks + 1 }
          (fun _ s' => PutsFrom p uri (values ++ setCookieValues p headers) s s')
          (fun _ _ => False) := by
        rw [wp_bind]
        refine (putValues_spec values.reverse _ _ (hs.shrunk htick)
          (hlimits.shrunk htick)).mono ?_ (fun _ _ h => h)
        intro _ s₁ h₁
        refine (ih s₁ h₁.adds.consistent h₁.adds.bounded).mono ?_ (fun _ _ h => h)
        intro _ s' h'
        have h := (h₁.mono (fun v hv => List.mem_reverse.1 hv)).trans h'
        exact ⟨⟨h.adds.consistent, h.adds.bounded, h.adds.kept⟩,
          fun hhttp => (guarded_of_shrunk hs htick).trans (h.guarded hhttp)⟩
      exact hread
    · intro hkey
      have hvalues : setCookieValues p ((key, values) :: headers)
          = setCookieValues p headers := by simp [setCookieValues, hkey]
      rw [hvalues]
      exact ih s hs hlimits

/-! ## Calls and runs -/

/-- A call on the manager. -/
inductive Call
  | put (uri : Option URI) (responseHeaders : Option (List (Option Str × List Str)))
  | get (uri : Option URI) (requestHeaders : Option Unit)

/-- The store after a method call, however it ended. -/
def after {α : Type} (x : Method CookieStore α) (s : CookieStore) : CookieStore :=
  match x.run s with
  | .ok _ s' => s'
  | .error _ s' => s'

theorem after_of_wp {α : Type} {x : Method CookieStore α} {P : CookieStore → Prop}
    (h : Wp x s (fun _ s' => P s') (fun _ s' => P s')) : P (after x s) := by
  rw [Wp] at h
  rw [after]
  cases hrun : x.run s with
  | ok a s' =>
    rw [hrun] at h
    exact h
  | error e s' =>
    rw [hrun] at h
    exact h

/-- One call. An exception goes to the caller, and the manager goes on. -/
def step (p : Platform) (s : CookieStore) : Call → Except Exn CookieStore
  | .put uri headers => .ok (after (put p uri headers) s)
  | .get uri headers => .ok (after (get p uri headers) s)

/-- A call stored the cookie. -/
def Stores (p : Platform) (c : Cookie) : Call → Prop
  | .put (some uri) (some headers) => FromValues p uri (setCookieValues p headers) c
  | _ => False

/-- What holds of the store after the calls. -/
structure Stored (p : Platform) (calls : List Call) (s : CookieStore) : Prop where
  consistent : Consistent s
  bounded : Bounded s
  stored : ∀ c ∈ s.cookies, ∃ a ∈ calls, Stores p c a

theorem Stored.same {calls : List Call} (h : Stored p calls s) (a : Call) :
    Stored p (calls ++ [a]) s where
  consistent := h.consistent
  bounded := h.bounded
  stored c hc := by
    obtain ⟨b, hb, hstores⟩ := h.stored c hc
    exact ⟨b, List.mem_append_left _ hb, hstores⟩

theorem stores_access {c : Cookie} {a : Call} (h : Stores p c a) (t : ℤ) :
    Stores p (access t c) a := by
  cases a with
  | get _ _ => exact h.elim
  | put uri headers =>
    cases uri with
    | none => exact h.elim
    | some uri =>
      cases headers with
      | none => exact h.elim
      | some headers => exact h

theorem Stored.accessed {calls : List Call} (h : Stored p calls s) (hacc : Accessed p s s') :
    Stored p calls s' where
  consistent := h.consistent.accessed hacc
  bounded := h.bounded.accessed hacc
  stored c hc := by
    obtain ⟨c₀, hc₀, hcase⟩ := hacc.of_mem hc
    obtain ⟨a, ha, hstores⟩ := h.stored c₀ hc₀
    rcases hcase with rfl | ⟨t, rfl⟩
    · exact ⟨a, ha, hstores⟩
    · exact ⟨a, ha, stores_access hstores t⟩

theorem getList_accessed (hs : Consistent s) (uri : URI) :
    Wp (getList p uri) s (fun _ s' => Accessed p s s') (fun _ s' => Accessed p s s') := by
  rw [getList]
  cases canonicalHost p uri with
  | none => exact (Shrunk.refl s).accessed
  | some host => exact (get_spec _ hs).mono (fun _ _ h => h.1) (fun _ _ h => h)

theorem wp_cookieString {Q : Option Str → CookieStore → Prop} {E : Exn → CookieStore → Prop} :
    Wp (cookieString <$> getList p uri) s Q E
      ↔ Wp (getList p uri) s (fun l s' => Q (cookieString l) s') E := by
  rw [map_eq_pure_bind, wp_bind]
  rfl

/-- One call keeps what is known of the store. -/
theorem Stored.step {calls : List Call} (h : Stored p calls s) (a : Call) :
    ∃ s', step p s a = .ok s' ∧ Stored p (calls ++ [a]) s' := by
  cases a with
  | get uri headers =>
    refine ⟨_, rfl, Stored.same ?_ _⟩
    have hacc : Accessed p s (after (get p uri headers) s) := by
      apply after_of_wp
      cases uri with
      | none => exact (Shrunk.refl s).accessed
      | some uri =>
        cases headers with
        | none => exact (Shrunk.refl s).accessed
        | some headers =>
          rw [get, wp_cookieString]
          exact getList_accessed h.consistent uri
    exact h.accessed hacc
  | put uri headers =>
    refine ⟨_, rfl, ?_⟩
    cases uri with
    | none => exact h.same _
    | some uri =>
      cases headers with
      | none => exact h.same _
      | some headers =>
        have hputs : PutsFrom p uri (setCookieValues p headers) s
            (after (put p (some uri) (some headers)) s) := by
          apply after_of_wp
          rw [put]
          exact (putHeaders_spec headers s h.consistent h.bounded).mono (fun _ _ h => h)
            (fun _ _ h => h.elim)
        refine ⟨hputs.adds.consistent, hputs.adds.bounded, ?_⟩
        intro c hc
        rcases hputs.adds.kept c hc with hold | hnew
        · exact (h.same _).stored c hold
        · exact ⟨_, List.mem_append_right _ (List.mem_singleton_self _), hnew⟩

theorem run_stored (p : Platform) (ticks : ℕ) (calls : List Call) :
    ∃ s, run (step p) (new ticks) calls = .ok s ∧ Stored p calls s := by
  induction calls using List.reverseRecOn with
  | nil =>
    exact ⟨new ticks, rfl, (accounted_new ticks).consistent, (accounted_new ticks).bounded,
      by simp [new, cookies, Buckets.items]⟩
  | append_singleton calls a ih =>
    obtain ⟨s, hrun, hstored⟩ := ih
    obtain ⟨s', hstep, hstored'⟩ := hstored.step a
    exact ⟨s', by rw [run_append_ok hrun, run_singleton, hstep], hstored'⟩

/-! ## Isolation -/

/-- A cookie that is returned for a URI: one of the calls stored it for a host that is the
host of the request, or that belongs to the domain of the cookie as the request does; the
domain is no public suffix then. Secure cookies go to secure schemes, `HttpOnly` cookies
to HTTP schemes. -/
structure Isolated (p : Platform) (calls : List Call) (uri : URI) (c : Cookie) : Prop where
  stored : ∃ uri' headers host host', .put (some uri') (some headers) ∈ calls ∧
    FromValues p uri' (setCookieValues p headers) c ∧
    canonicalHost p uri' = some host' ∧ canonicalHost p uri = some host ∧
    (host' = host ∨ domainMatches host' c.domain ∧ domainMatches host c.domain ∧
      p.isPublicSuffix c.domain = false)
  secure : c.secureOnly → secureProtocol p uri
  httpOnly : c.httpOnly → httpApi p uri

/-- What the tests of `find` say. -/
theorem selects_true {q : Query} {c : Cookie} (h : selects p q c = .ok true) :
    (c.hostOnly → p.equalsIgnoreCase q.hostname c.domain) ∧
      (c.hostOnly = false → domainMatches q.hostname c.domain) ∧
      (c.secureOnly → q.secureProtocol) ∧ (c.httpOnly → q.httpApi) := by
  rw [selects] at h
  split at h
  · simp at h
  · next hhost =>
    split at h
    · simp at h
    · next hdom =>
      obtain ⟨path, _, h⟩ := bind_eq_ok.1 h
      split at h
      · simp at h
      · split at h
        · simp at h
        · next hsecure =>
          split at h
          · simp at h
          · next honly => simp_all

/-- A cookie of the store that is found for a URI. -/
theorem isolated_of_selects {calls : List Call} {host : Str} {c : Cookie} {path : Option Str}
    (hstored : ∃ a ∈ calls, Stores p c a) (hhost : canonicalHost p uri = some host)
    (hsel : selects p ⟨host, path, secureProtocol p uri, httpApi p uri⟩ c = .ok true)
    (hdom : c.domain ∈ domains host) : Isolated p calls uri c := by
  obtain ⟨hown, hmatch, hsecure, honly⟩ := selects_true hsel
  obtain ⟨a, ha, hstores⟩ := hstored
  cases a with
  | get _ _ => exact hstores.elim
  | put uri' headers =>
    cases uri' with
    | none => exact hstores.elim
    | some uri' =>
      cases headers with
      | none => exact hstores.elim
      | some headers =>
        have hfrom : FromValues p uri' (setCookieValues p headers) c := hstores
        obtain ⟨value, hvalue, host', hhost', hallows, hrest⟩ := hstores
        refine ⟨⟨uri', headers, host, host', ha, hfrom, hhost', hhost, ?_⟩, hsecure, honly⟩
        rw [HostAllows] at hallows
        cases hc : c.hostOnly with
        | true =>
          rw [hc, if_pos rfl] at hallows
          left
          -- the domain is the end of the host name, and as long
          have hlen := p.length_of_equalsIgnoreCase (hown hc)
          have hsuffix := (mem_domains hdom).2
          rw [← hallows]
          exact hsuffix.eq_of_length hlen.symm
        | false =>
          rw [hc] at hallows
          simp only [Bool.false_eq_true, if_false] at hallows
          exact .inr ⟨hallows.1, hmatch hc, hallows.2⟩

/-- Every cookie that `get` returns is isolated. -/
def GetIsolated (p : Platform) (calls : List Call) (s : CookieStore) : Prop :=
  ∀ uri, Wp (getList p uri) s (fun result _ => ∀ c ∈ result, Isolated p calls uri c)
    (fun _ _ => True)

/-- A `put` without an HTTP scheme leaves every `HttpOnly` cookie until it expires, unless
a purge evicts it. -/
def PutIsolated (p : Platform) (s : CookieStore) : Prop :=
  ∀ uri headers, httpApi p uri = false →
    Guarded p s (after (put p (some uri) (some headers)) s)

theorem Stored.getIsolated {calls : List Call} (h : Stored p calls s) :
    GetIsolated p calls s := by
  intro uri
  rw [getList]
  cases hhost : canonicalHost p uri with
  | none => exact fun c hc => (List.not_mem_nil hc).elim
  | some host =>
    refine (get_spec _ h.consistent).mono ?_ (fun _ _ _ => trivial)
    rintro result s' ⟨_, hresult⟩ c hc
    obtain ⟨c₀, hc₀, t, rfl, hsel, hdom⟩ := hresult c hc
    have hiso := isolated_of_selects (h.stored c₀ hc₀) hhost hsel hdom
    obtain ⟨uri', headers, host₁, host', hmem, hfrom, hrest⟩ := hiso.stored
    exact ⟨⟨uri', headers, host₁, host', hmem, hfrom, hrest⟩, hiso.secure, hiso.httpOnly⟩

theorem Stored.putIsolated {calls : List Call} (h : Stored p calls s) : PutIsolated p s := by
  intro uri headers hhttp
  apply after_of_wp
  rw [put]
  exact (putHeaders_spec headers s h.consistent h.bounded).mono
    (fun _ _ hputs => hputs.guarded hhttp) (fun _ _ h => h.elim)

/-- **Cookies are isolated.** After every run of calls, `get` returns to a URI only cookies
that one of the calls stored for the same host or for a domain of both hosts, which is no
public suffix; it keeps the secure and the `HttpOnly` ones back from other schemes; and a
`put` from another scheme does not replace an `HttpOnly` cookie. -/
theorem run_isolated (p : Platform) (ticks : ℕ) (calls : List Call) :
    ∃ s, run (step p) (new ticks) calls = .ok s ∧ GetIsolated p calls s ∧ PutIsolated p s := by
  obtain ⟨s, hrun, hstored⟩ := run_stored p ticks calls
  exact ⟨s, hrun, hstored.getIsolated, hstored.putIsolated⟩

end CookieManager

end JavaFx.Web

/-!
The stores of a cookie manager are ready for `get`.

`CookieManager.put` gives a cookie without a domain that of the host, and a cookie
without a path the default path, so every cookie it stores is complete, and what is
proved of `get` for stores that are ready holds after any calls of the manager.
-/

namespace JavaFx.Web

open JavaFx.Lib

/-- The cookie has a domain and a path. -/
structure Cookie.Complete (c : Cookie) : Prop where
  domain : c.domain ≠ []
  path : c.path ≠ none

namespace CookieManager

open CookieStore

/-- What `put` and `get` keep. -/
structure Kept (s : CookieStore) : Prop where
  consistent : Consistent s
  bounded : Bounded s
  complete : ∀ c ∈ s.cookies, c.Complete

theorem Kept.ready {s : CookieStore} (h : Kept s) : Ready s :=
  ⟨h.consistent, fun c hc => (h.complete c hc).domain, fun c hc => (h.complete c hc).path⟩

section Kept

variable {p : Platform} {s s' : CookieStore} {uri : URI}

theorem Kept.adds {new : Cookie → Prop} (h : Kept s) (hadds : Adds new s s')
    (hnew : ∀ c, new c → c.Complete) : Kept s' where
  consistent := hadds.consistent
  bounded := hadds.bounded
  complete c hc := (hadds.kept c hc).elim (h.complete c) (hnew c)

theorem Kept.accessed (h : Kept s) (hacc : Accessed p s s') : Kept s' where
  consistent := h.consistent.accessed hacc
  bounded := h.bounded.accessed hacc
  complete c hc := by
    obtain ⟨c₀, hc₀, hcase⟩ := hacc.of_mem hc
    have hcomplete := h.complete c₀ hc₀
    rcases hcase with rfl | ⟨t, rfl⟩
    · exact hcomplete
    · exact ⟨hcomplete.domain, hcomplete.path⟩

/-- A domain that is assigned is not empty if the host is not. -/
theorem assignDomain_ne_nil {host : Str} (hhost : host ≠ []) {cookie c : Cookie}
    (h : assignDomain p host cookie = some c) : c.domain ≠ [] := by
  rw [assignDomain] at h
  split_ifs at h with h1 h2 h3
  · cases h
    exact hhost
  · cases h
    intro hnil
    rw [Bool.or_eq_true, not_or, beq_iff_eq] at h2
    exact h2.2 hnil

theorem canonicalHost_ne_nil (hlower : ∀ t, t ≠ [] → p.lower t ≠ []) {host : Str}
    (h : canonicalHost p uri = some host) : host ≠ [] := by
  rw [canonicalHost] at h
  cases hhost : uri.host with
  | none =>
    rw [hhost] at h
    cases h
  | some given =>
    rw [hhost] at h
    dsimp only at h
    split_ifs at h with hnil
    cases h
    exact hlower given hnil

variable (hlower : ∀ t, t ≠ [] → p.lower t ≠ [])
include hlower

theorem putCookie_kept (h : Kept s) (k : Cookie) :
    Wp (putCookie p uri k) s (fun _ s' => Kept s') (fun _ _ => False) := by
  rw [putCookie]
  cases hhost : canonicalHost p uri with
  | none => exact h
  | some host =>
    dsimp only
    cases hdom : assignDomain p host k with
    | none => exact h
    | some cookie =>
      rw [wp_ite]
      refine ⟨fun _ => h, fun _ => ?_⟩
      refine (replace_spec h.consistent h.bounded).mono ?_ (fun _ _ h => h)
      rintro _ s' ⟨hadds, -⟩
      apply h.adds hadds
      rintro c ⟨t, rfl⟩
      have hdomain : cookie.domain ≠ [] :=
        assignDomain_ne_nil (canonicalHost_ne_nil hlower hhost) hdom
      exact ⟨hdomain, nofun⟩

theorem putValues_kept (values : List Str) (time : ExtendedTime) (s : CookieStore) (h : Kept s) :
    Wp (putValues p uri time values) s (fun _ s' => Kept s') (fun _ _ => False) := by
  induction values generalizing time s with
  | nil => exact h
  | cons value values ih =>
    rw [putValues]
    cases Cookie.parse p value time with
    | none => exact ih time s h
    | some k =>
      simp only [wp_bind]
      exact (putCookie_kept hlower h k).mono (fun _ s₁ h₁ => ih _ s₁ h₁) (fun _ _ h => h)

theorem putHeaders_kept (headers : List (Option Str × List Str)) (s : CookieStore) (h : Kept s) :
    Wp (putHeaders p uri headers) s (fun _ s' => Kept s') (fun _ _ => False) := by
  induction headers generalizing s with
  | nil => exact h
  | cons header headers ih =>
    obtain ⟨key, values⟩ := header
    rw [putHeaders, wp_ite]
    refine ⟨fun _ => ?_, fun _ => ih s h⟩
    rw [wp_bind]
    have htick : Kept { s with ticks := s.ticks + 1 } :=
      h.accessed (Shrunk.tick (p := p) s).accessed
    have hread : Wp (do
        putValues p uri ⟨p.clock s.ticks, 0⟩ values.reverse
        putHeaders p uri headers) { s with ticks := s.ticks + 1 }
        (fun _ s' => Kept s') (fun _ _ => False) := by
      rw [wp_bind]
      exact (putValues_kept hlower values.reverse _ _ htick).mono (fun _ s₁ h₁ => ih s₁ h₁)
        (fun _ _ h => h)
    exact hread

theorem Kept.step (h : Kept s) (a : Call) : ∃ s', step p s a = .ok s' ∧ Kept s' := by
  cases a with
  | get uri headers =>
    refine ⟨_, rfl, ?_⟩
    have hacc : Accessed p s (after (get p uri headers) s) := by
      apply after_of_wp
      cases uri with
      | none => exact (Shrunk.refl s).accessed
      | some uri =>
        cases headers with
        | none => exact (Shrunk.refl s).accessed
        | some headers =>
          rw [get, wp_cookieString]
          exact getList_accessed h.consistent uri
    exact h.accessed hacc
  | put uri headers =>
    refine ⟨_, rfl, ?_⟩
    apply after_of_wp
    cases uri with
    | none => exact h
    | some uri =>
      cases headers with
      | none => exact h
      | some headers =>
        exact (putHeaders_kept hlower headers s h).mono (fun _ _ h => h)
          (fun _ _ h => h.elim)

end Kept

/-- Whatever calls a manager has had, its store is ready. -/
theorem run_ready (p : Platform) (hlower : ∀ t, t ≠ [] → p.lower t ≠ []) (ticks : ℕ)
    (calls : List Call) : ∃ s, run (step p) (new ticks) calls = .ok s ∧ Ready s := by
  have hnew : Kept (new ticks) :=
    ⟨(accounted_new ticks).consistent, (accounted_new ticks).bounded,
      by simp [new, cookies, Buckets.items]⟩
  have hrun : ∃ s, run (step p) (new ticks) calls = .ok s ∧ Kept s := by
    induction calls using List.reverseRecOn with
    | nil => exact ⟨new ticks, rfl, hnew⟩
    | append_singleton calls a ih =>
      obtain ⟨s, hrun, hkept⟩ := ih
      obtain ⟨s', hstep, hkept'⟩ := hkept.step hlower a
      exact ⟨s', by rw [run_append_ok hrun, run_singleton, hstep], hkept'⟩
  obtain ⟨s, hs, hkept⟩ := hrun
  exact ⟨s, hs, hkept.ready⟩

theorem run_ready_slow : ∃ s, run (step slowPlatform) (new 0)
    [.put (some ⟨some "https".toList, some "a.b".toList, some "/".toList⟩)
      (some [(some "Set-Cookie".toList, ["x=y; Secure".toList])]), .get none none] = .ok s ∧
      Ready s :=
  run_ready slowPlatform (fun t ht => by simpa [slowPlatform] using ht) 0 _

end CookieManager

end JavaFx.Web
