/-
Runs of a cookie store.

`put_spec` says what one `put` does: the counter and the limits hold again after it, every
cookie that is gone was replaced, had expired, or was removed by a purge, and the purges
are fair under `PutOk`, which only asks something of a `put` that makes the store too
large (`ExceedsStore`). `Along` carries `PutOk` over a run.
-/
import JavaFx.Web.CookieStorePurge

set_option autoImplicit false

namespace JavaFx.Web

open JavaFx.Lib

namespace CookieStore

variable {p : Platform} {s s' : CookieStore} {cookie : Cookie} {b : List Cookie}

/-! ## One `put` -/

/-- The bucket of a cookie that is put. -/
def bucketOf (s : CookieStore) (cookie : Cookie) : List Cookie :=
  (s.buckets.get cookie.domain).getD []

/-- The cookie is new, its bucket has a free place, and the store has none. -/
def ExceedsStore (p : Platform) (s : CookieStore) (cookie : Cookie) : Prop :=
  p.clock s.ticks ≤ cookie.expiryTime ∧ stored (s.bucketOf cookie) cookie = none ∧
    (s.bucketOf cookie).length < MAX_BUCKET_SIZE ∧ s.totalCount = TOTAL_COUNT_UPPER_THRESHOLD

/-- When the store is purged, the unexpired cookies in it were last accessed less than
`2 ^ 31` milliseconds apart. -/
def PutOk (p : Platform) (s : CookieStore) (cookie : Cookie) : Prop :=
  ExceedsStore p s cookie → CloseTimes (p.clock s.ticks) (cookie :: s.cookies)

theorem openBucket_spec (hs : Consistent s) (hlimits : Bounded s) :
    Wp (openBucket cookie) s
      (fun b s' => s'.buckets.get cookie.domain = some b ∧ b = s.bucketOf cookie ∧
        Consistent s' ∧ Bounded s' ∧ s'.cookies = s.cookies ∧ s'.totalCount = s.totalCount ∧
        s'.ticks = s.ticks ∧ s'.purges = s.purges)
      (fun _ _ => False) := by
  rw [openBucket, wp_bind, wp_get]
  cases hb : s.buckets.get cookie.domain with
  | some b => exact ⟨hb, by rw [bucketOf, hb, Option.getD_some], hs, hlimits, rfl, rfl, rfl, rfl⟩
  | none =>
    rw [wp_bind]
    have hget : ∀ d x, (s.buckets.addKey cookie.domain).get d = some x →
        x = [] ∨ s.buckets.get d = some x := by
      intro d x hx
      by_cases hd : d = cookie.domain
      · rw [hd, Buckets.get_addKey_self hb] at hx
        cases hx
        exact .inl rfl
      · rw [Buckets.get_addKey_ne hd] at hx
        exact .inr hx
    have hcookies : (s.buckets.addKey cookie.domain).items = s.buckets.items :=
      Buckets.items_addKey
    refine ⟨Buckets.get_addKey_self hb, by rw [bucketOf, hb]; rfl, ⟨?_, ?_, ?_, ?_⟩,
      ⟨?_, hlimits.total⟩, hcookies, rfl, rfl, rfl⟩
    · rw [Buckets.keys_addKey, List.nodup_append]
      refine ⟨hs.keys, List.nodup_singleton _, ?_⟩
      rintro d hd _ hmem rfl
      rw [List.mem_singleton] at hmem
      exact Buckets.get_eq_none.1 hb (hmem ▸ hd)
    · intro d x hx c hc
      rcases hget d x hx with rfl | hx
      · simp at hc
      · exact hs.domain d x hx c hc
    · intro d x hx
      rcases hget d x hx with rfl | hx
      · exact List.nodup_nil
      · exact hs.distinct d x hx
    · rw [cookies, hcookies]
      exact hs.count
    · intro d x hx
      rcases hget d x hx with rfl | hx
      · exact Nat.zero_le _
      · exact hlimits.bucket d x hx

/-- The bucket of the new cookie is brought back to its size. -/
theorem limitBucket_spec {domain : Str} (hs : Consistent s)
    (hb : s.buckets.get domain = some b) (hlen : b.length ≤ MAX_BUCKET_SIZE + 1)
    (hother : ∀ d x, d ≠ domain → s.buckets.get d = some x → x.length ≤ MAX_BUCKET_SIZE) :
    Wp (limitBucket p domain) s
      (fun _ s' => Purged p s s' ∧
        (∀ d x, s'.buckets.get d = some x → x.length ≤ MAX_BUCKET_SIZE) ∧
        (∀ r ∈ since s s', r.Fair) ∧
        (b.length ≤ MAX_BUCKET_SIZE ∧ s' = s ∨ s'.totalCount < s.totalCount))
      (fun _ _ => False) := by
  rw [limitBucket, wp_bind, wp_get, hb, Option.getD_some, wp_ite]
  constructor
  · intro hbig
    refine (purgeBucket_spec hs hb hlen).mono ?_ (fun _ _ h => h)
    rintro _ s' ⟨hpurged, ⟨b', hb', hmax, hcount⟩, r, hr, hfair⟩
    refine ⟨hpurged, ?_, ?_, .inr (by omega)⟩
    · intro d x hx
      by_cases hd : d = domain
      · rw [hd, hb'] at hx
        cases hx
        exact hmax
      · obtain ⟨y, hy, hle⟩ := hpurged.bucket d x hx
        exact hle.trans (hother d y hd hy)
    · intro r' hr'
      rw [since, hr, List.drop_left, List.mem_singleton] at hr'
      rw [hr']
      exact hfair
  · intro hsmall
    rw [wp_pure]
    refine ⟨Purged.refl hs, ?_, by simp [since], .inl ⟨not_lt.1 hsmall, rfl⟩⟩
    intro d x hx
    by_cases hd : d = domain
    · rw [hd, hb] at hx
      cases hx
      exact not_lt.1 hsmall
    · exact hother d x hd hx

/-- The store is brought back to its size. -/
theorem limitStore_spec (hs : Consistent s) :
    Wp (limitStore p) s
      (fun _ s' => Purged p s s' ∧ s'.totalCount ≤ TOTAL_COUNT_UPPER_THRESHOLD ∧
        (s.totalCount ≤ TOTAL_COUNT_UPPER_THRESHOLD → s' = s) ∧
        ∀ time, time ≤ p.clock s.ticks → CloseTimes time s.cookies → ∀ r ∈ since s s', r.Fair)
      (fun _ _ => False) := by
  rw [limitStore, wp_bind, wp_get, wp_ite]
  constructor
  · intro hbig
    have htwo : 2 ≤ TOTAL_COUNT_UPPER_THRESHOLD := by decide
    have hlow : TOTAL_COUNT_LOWER_THRESHOLD ≤ TOTAL_COUNT_UPPER_THRESHOLD := by decide
    refine (purge_spec hs (by omega)).mono ?_ (fun _ _ h => h)
    rintro _ s' ⟨hpurged, htotal, hpurges, s₁, hshrunk, hticks, hexp, hkept⟩
    refine ⟨hpurged, htotal.trans hlow, fun h => (not_lt.2 h hbig).elim, ?_⟩
    intro time htime hclose r hr
    rw [since, hpurges, List.drop_left, List.mem_singleton] at hr
    rw [hr]
    exact purge_fair hs hclose htime hshrunk hticks hexp hkept
  · intro hsmall
    rw [wp_pure]
    exact ⟨Purged.refl hs, not_lt.1 hsmall, fun _ => rfl, by simp [since]⟩

theorem update_buckets (hb : s.buckets.get cookie.domain = some b) (n : ℤ) :
    (update cookie.domain (putCookie · cookie) n s).buckets
      = s.buckets.setBucket cookie.domain (putCookie b cookie) := by
  simp only [update, hb, Option.getD_some]

/-- A cookie put into its bucket. -/
theorem Consistent.put (hs : Consistent s) (hb : s.buckets.get cookie.domain = some b) {n : ℤ}
    (hn : n = (putCookie b cookie).length - b.length) :
    Consistent (update cookie.domain (putCookie · cookie) n s) := by
  refine hs.setBucket hb ?_ ?_ (update_buckets hb n) (by simp only [update]; omega)
  · intro c hc
    rcases mem_putCookie hc with rfl | ⟨hc, _⟩
    · rfl
    · exact hs.domain _ b hb c hc
  · cases hstored : stored b cookie with
    | some old =>
      rw [putCookie_keys hstored]
      exact hs.distinct _ b hb
    | none =>
      rw [putCookie_new hstored, List.map_append, List.map_singleton,
        ← List.concat_eq_append]
      refine (hs.distinct _ b hb).concat ?_
      intro hmem
      obtain ⟨c, hc, hk⟩ := List.mem_map.1 hmem
      exact stored_eq_none.1 hstored c hc hk

/-- A new cookie is added, then the limits are restored. -/
theorem add_spec {time : ℤ} (hs : Consistent s) (hlimits : Bounded s)
    (hb : s.buckets.get cookie.domain = some b) (hnew : stored b cookie = none)
    (htime : time ≤ p.clock s.ticks) :
    Wp (add p cookie) s
      (fun _ s' => Purged p (update cookie.domain (putCookie · cookie) 1 s) s' ∧ Bounded s' ∧
        ((b.length < MAX_BUCKET_SIZE → s.totalCount = TOTAL_COUNT_UPPER_THRESHOLD →
          CloseTimes time (cookie :: s.cookies)) → ∀ r ∈ since s s', r.Fair))
      (fun _ _ => False) := by
  have hput := putCookie_new hnew
  have hlen : (putCookie b cookie).length = b.length + 1 := by rw [hput]; simp
  have hmax := hlimits.bucket _ b hb
  have htotal := hlimits.total
  have hs₁ : Consistent (update cookie.domain (putCookie · cookie) 1 s) :=
    hs.put hb (by rw [hlen]; push_cast; ring)
  have hbuckets := update_buckets hb 1
  have hget : (update cookie.domain (putCookie · cookie) 1 s).buckets.get cookie.domain
      = some (putCookie b cookie) := by
    rw [hbuckets]
    exact Buckets.get_setBucket_self hb
  rw [add, wp_bind, wp_modify, wp_bind]
  refine (limitBucket_spec hs₁ hget (by omega) ?_).mono ?_ (fun _ _ h => h)
  · intro d x hd hx
    rw [hbuckets, Buckets.get_setBucket_ne hd] at hx
    exact hlimits.bucket d x hx
  · rintro _ s₂ ⟨hpurged₂, hmax₂, hfair₂, hcase⟩
    refine (limitStore_spec hpurged₂.consistent).mono ?_ (fun _ _ h => h)
    rintro _ s₃ ⟨hpurged₃, htotal₃, hsame, hfair₃⟩
    refine ⟨hpurged₂.trans hpurged₃, ⟨?_, htotal₃⟩, ?_⟩
    · intro d x hx
      obtain ⟨y, hy, hle⟩ := hpurged₃.bucket d x hx
      exact hle.trans (hmax₂ d y hy)
    · intro hclose
      rcases hcase with ⟨hsmall, rfl⟩ | hless
      · -- the bucket was not purged
        by_cases hfull : s.totalCount = TOTAL_COUNT_UPPER_THRESHOLD
        · refine hfair₃ time htime ?_
          have hc := hclose (by omega) hfull
          have hmem : ∀ c ∈ (update cookie.domain (putCookie · cookie) 1 s).cookies,
              c ∈ cookie :: s.cookies := by
            intro c hc
            rcases mem_setBucket hs hb hbuckets hc with hc | hc
            · rcases mem_putCookie hc with rfl | ⟨hc, _⟩
              · exact List.mem_cons_self
              · exact List.mem_cons_of_mem _ (mem_cookies hs hb hc)
            · exact List.mem_cons_of_mem _ hc
          exact fun c hmc d hmd => hc c (hmem c hmc) d (hmem d hmd)
        · have : (update cookie.domain (putCookie · cookie) 1 s).totalCount
              = s.totalCount + 1 := rfl
          rw [hsame (by omega)]
          exact hfair₂
      · -- the purge of the bucket has made room
        have : (update cookie.domain (putCookie · cookie) 1 s).totalCount
            = s.totalCount + 1 := rfl
        rw [hsame (by omega)]
        exact hfair₂

/-- What a `put` does. -/
structure Put (p : Platform) (cookie : Cookie) (s s' : CookieStore) : Prop where
  consistent : Consistent s'
  bounded : Bounded s'
  ticks : s.ticks ≤ s'.ticks
  purges : s.purges <+: s'.purges
  kept : ∀ c ∈ s'.cookies, c ∈ s.cookies ∨ c = cookie
  gone : ∀ c ∈ s.cookies, c ∉ s'.cookies → c.key = cookie.key ∨ c.expiryTime < s'.now p ∨
    ∃ r ∈ since s s', c ∈ r.before ∧ c ∉ r.after
  fair : PutOk p s cookie → ∀ r ∈ since s s', r.Fair

/-- **One `put`.** It throws no exception. -/
theorem put_spec (hs : Consistent s) (hlimits : Bounded s) :
    Wp (put p cookie) s (fun _ s' => Put p cookie s s') (fun _ _ => False) := by
  rw [put, wp_bind]
  refine (openBucket_spec hs hlimits).mono ?_ (fun _ _ h => h)
  rintro b s₀ ⟨hb, hbucket, hs₀, hlimits₀, hcookies, htotal, hticks, hpurges⟩
  rw [wp_bind, wp_hasExpired, wp_ite]
  have hb₁ : ({ s₀ with ticks := s₀.ticks + 1 } : CookieStore).buckets.get cookie.domain
      = some b := hb
  have hs₁ := hs₀.shrunk (Shrunk.tick (p := p) s₀)
  have hlimits₁ := hlimits₀.shrunk (Shrunk.tick (p := p) s₀)
  have hticks₁ : s.ticks ≤ s₀.ticks + 1 := by omega
  constructor
  · intro hexp
    rw [wp_ite]
    constructor
    · intro hstored
      obtain ⟨old, hold⟩ := Option.isSome_iff_exists.1 hstored
      obtain ⟨hmem, hkey⟩ := stored_eq_some hold
      have hrem : removeCookie b cookie = removeCookie b old := by
        simp only [removeCookie, hkey]
      have hlen := length_removeCookie hmem (hs₁.distinct _ b hb₁)
      rw [← hrem] at hlen
      rw [wp_removeFrom]
      have hbuckets : (update cookie.domain (removeCookie · cookie) (-1)
          { s₀ with ticks := s₀.ticks + 1 }).buckets
            = s₀.buckets.setBucket cookie.domain (removeCookie b cookie) := by
        simp only [update, hb, Option.getD_some]
      refine ⟨hs₁.shrinkBucket hb₁ (removeCookie_sublist b cookie) hbuckets ?_, ⟨?_, ?_⟩,
        hticks₁, by simp [update, hpurges], ?_, ?_, by simp [since, update, hpurges]⟩
      · simp only [update]
        omega
      · intro d x hx
        rw [hbuckets] at hx
        by_cases hd : d = cookie.domain
        · rw [hd, Buckets.get_setBucket_self hb] at hx
          cases hx
          have := hlimits₀.bucket _ b hb
          omega
        · rw [Buckets.get_setBucket_ne hd] at hx
          exact hlimits₀.bucket d x hx
      · have := hlimits₀.total
        simp only [update]
        omega
      · intro c hc
        left
        rw [← hcookies]
        rcases mem_setBucket hs₀ hb hbuckets hc with hc | hc
        · exact mem_cookies hs₀ hb ((removeCookie_sublist b cookie).subset hc)
        · exact hc
      · intro c hc hn
        rw [← hcookies] at hc
        obtain ⟨hcb, hnb⟩ := mem_of_notMem_setBucket hs₀ hb hbuckets hc hn
        left
        by_contra hne
        exact hnb (mem_removeCookie.2 ⟨hcb, hne⟩)
    · intro _
      rw [wp_pure]
      refine ⟨hs₁, hlimits₁, hticks₁, by simp [hpurges], ?_, ?_, by simp [since, hpurges]⟩
      · intro c hc
        left
        rw [← hcookies]
        exact hc
      · intro c hc hn
        rw [← hcookies] at hc
        exact (hn hc).elim
  · intro hlive
    rw [wp_ite]
    constructor
    · intro hstored
      obtain ⟨old, hold⟩ := Option.isSome_iff_exists.1 hstored
      have hlen : (putCookie b cookie).length = b.length := by
        rw [← List.length_map Cookie.key, putCookie_keys hold, List.length_map]
      have hbuckets := update_buckets hb₁ 0
      rw [wp_modify]
      refine ⟨hs₁.put hb₁ (by rw [hlen, sub_self]), ⟨?_, ?_⟩, hticks₁, by simp [update, hpurges],
        ?_, ?_, by simp [since, update, hpurges]⟩
      · intro d x hx
        rw [hbuckets] at hx
        by_cases hd : d = cookie.domain
        · rw [hd, Buckets.get_setBucket_self hb₁] at hx
          cases hx
          rw [hlen]
          exact hlimits₀.bucket _ b hb
        · rw [Buckets.get_setBucket_ne hd] at hx
          exact hlimits₀.bucket d x hx
      · have := hlimits₀.total
        simp only [update]
        omega
      · intro c hc
        rw [← hcookies]
        rcases mem_setBucket hs₁ hb₁ hbuckets hc with hc | hc
        · exact (mem_putCookie hc).symm.imp_left (fun h => mem_cookies hs₀ hb h.1)
        · exact .inl hc
      · intro c hc hn
        rw [← hcookies] at hc
        obtain ⟨hcb, hnb⟩ := mem_of_notMem_setBucket hs₁ hb₁ hbuckets hc hn
        left
        by_contra hne
        exact hnb (mem_putCookie_ne hcb hne)
    · intro hnone
      rw [Option.not_isSome_iff_eq_none] at hnone
      have hclock : p.clock s.ticks ≤ p.clock (s₀.ticks + 1) := p.clock_mono hticks₁
      refine (add_spec (p := p) hs₁ hlimits₁ hb₁ hnone hclock).mono ?_ (fun _ _ h => h)
      rintro _ s' ⟨hpurged, hlimits', hfair⟩
      have hbuckets := update_buckets hb₁ 1
      have hsince : since s s' = since { s₀ with ticks := s₀.ticks + 1 } s' := by
        simp only [since, hpurges]
      refine ⟨hpurged.consistent, hlimits', hticks₁.trans hpurged.ticks, hpurges ▸ hpurged.purges,
        ?_, ?_, ?_⟩
      · intro c hc
        rw [← hcookies]
        rcases mem_setBucket hs₁ hb₁ hbuckets (hpurged.kept c hc) with hc | hc
        · exact (mem_putCookie hc).symm.imp_left (fun h => mem_cookies hs₀ hb h.1)
        · exact .inl hc
      · intro c hc hn
        rw [← hcookies] at hc
        by_cases hmem : c ∈ (update cookie.domain (putCookie · cookie) 1
            { s₀ with ticks := s₀.ticks + 1 }).cookies
        · right
          rw [hsince]
          exact hpurged.gone c hmem hn
        · obtain ⟨hcb, hnb⟩ := mem_of_notMem_setBucket hs₁ hb₁ hbuckets hc hmem
          left
          by_contra hne
          exact hnb (mem_putCookie_ne hcb hne)
      · intro hok
        rw [hsince]
        apply hfair
        intro hroom hfull
        rw [decide_eq_true_iff, not_lt, hticks] at hlive
        have hexceeds : ExceedsStore p s cookie := by
          refine ⟨hlive, ?_, ?_, ?_⟩
          · rw [← hbucket]
            exact hnone
          · rw [← hbucket]
            exact hroom
          · rw [← htotal]
            exact hfull
        have hclose := hok hexceeds
        rw [← hcookies] at hclose
        exact hclose

/-! ## Runs -/

/-- A call on the store. -/
inductive Call
  | put (cookie : Cookie)
  | get (q : Query)

/-- One call. An exception of `get` goes to its caller, and the store goes on. -/
def step (p : Platform) (s : CookieStore) : Call → Except Exn CookieStore
  | .put cookie =>
    match (put p cookie).run s with
    | .ok _ s' => .ok s'
    | .error e _ => .error e
  | .get q =>
    match (get p q).run s with
    | .ok _ s' => .ok s'
    | .error _ s' => .ok s'

theorem step_put (hs : Consistent s) (hlimits : Bounded s) :
    ∃ s', step p s (.put cookie) = .ok s' ∧ Put p cookie s s' := by
  obtain ⟨_, s', hrun, hput⟩ := Wp.returns (put_spec (p := p) hs hlimits)
  exact ⟨s', by rw [step, hrun], hput⟩

theorem step_get (hs : Consistent s) (q : Query) :
    ∃ s', step p s (.get q) = .ok s' ∧ Accessed p s s' := by
  have hspec := get_spec (p := p) q hs
  rw [Wp] at hspec
  cases hrun : (get p q).run s with
  | ok result s' =>
    rw [hrun] at hspec
    exact ⟨s', by rw [step, hrun], hspec.1⟩
  | error e s' =>
    rw [hrun] at hspec
    exact ⟨s', by rw [step, hrun], hspec⟩

/-- What a call may do: see `PutOk`. -/
def CallOk (p : Platform) (s : CookieStore) : Call → Prop
  | .put cookie => PutOk p s cookie
  | .get _ => True

/-- The account of the store: the counter counts, the limits hold, every purge was fair. -/
structure Accounted (s : CookieStore) : Prop where
  consistent : Consistent s
  bounded : Bounded s
  fair : ∀ r ∈ s.purges, r.Fair

theorem accounted_new (ticks : ℕ) : Accounted (new ticks) where
  consistent := ⟨List.nodup_nil, by simp [new], by simp [new], rfl⟩
  bounded := ⟨by simp [new], (by decide : (0 : ℤ) ≤ TOTAL_COUNT_UPPER_THRESHOLD)⟩
  fair := by simp [new]

theorem Accounted.step {a : Call} (h : Accounted s) (hok : CallOk p s a) :
    ∃ s', step p s a = .ok s' ∧ Accounted s' := by
  cases a with
  | put cookie =>
    obtain ⟨s', hstep, hput⟩ := step_put (p := p) h.consistent h.bounded
    refine ⟨s', hstep, hput.consistent, hput.bounded, ?_⟩
    obtain ⟨l, hl⟩ := hput.purges
    have hsince : since s s' = l := by rw [since, ← hl, List.drop_left]
    intro r hr
    rw [← hl, List.mem_append] at hr
    rcases hr with hr | hr
    · exact h.fair r hr
    · exact hput.fair hok r (hsince ▸ hr)
  | get q =>
    obtain ⟨s', hstep, hget⟩ := step_get (p := p) h.consistent q
    refine ⟨s', hstep, h.consistent.accessed hget, h.bounded.accessed hget, ?_⟩
    rw [hget.purges]
    exact h.fair

/-- **The account of a cookie store.** In a run in which the unexpired cookies were last
accessed less than `2 ^ 31` milliseconds apart whenever the whole store is purged, no
`put` throws, `totalCount` counts the cookies, the limits hold, and no purge has removed
an unexpired cookie that was accessed later than one it kept. -/
theorem run_accounted (p : Platform) (ticks : ℕ) (as : List Call)
    (h : Along (step p) (CallOk p) (new ticks) as) :
    ∃ s, run (step p) (new ticks) as = .ok s ∧ Accounted s :=
  run_invariant Accounted (fun _ _ hs hok => hs.step hok) (accounted_new ticks) h

/-! ## A cookie that was accessed long after the others

4000 cookies of as many domains are put at time 0, and one more `2 ^ 31 + 1` milliseconds
later. The difference of the times becomes negative as an `int`, so the purge takes the
new cookie for the oldest one. -/

/-- The comparator by which `Collections.sort` is run, as an insertion. -/
def sortByInsertion (compare : Cookie → Cookie → ℤ) (l : List Cookie) :
    Except Exn (List Cookie) :=
  .ok (l.insertionSort (fun a b => compare a b ≤ 0))

def later : ℤ := 2 ^ 31 + 1

/-- ASCII tables, no public suffixes, and a clock that stands still for the first 4000
readings. -/
def slowPlatform : Platform where
  toUpperCase := Char.toUpper
  toLowerCase := Char.toLower
  digit c := if c.isDigit then some (c.toNat - '0'.toNat) else none
  lower := List.map Char.toLower
  parseDate _ := none
  isPublicSuffix _ := false
  clock i := if i < 4000 then 0 else later
  clock_mono := by
    intro i j hij
    simp only [later]
    split_ifs
    all_goals omega
  sort := sortByInsertion
  sort_perm compare l r h := by
    cases h
    exact List.perm_insertionSort _ l
  queue := PriorityQueue.insertion Cookie

/-- A store with one cookie in each of its buckets. -/
def spread (cs : List Cookie) (ticks : ℕ) : CookieStore :=
  ⟨cs.map (fun c => (c.domain, [c])), cs.length, ticks, []⟩

theorem keys_spread (cs : List Cookie) (ticks : ℕ) :
    (spread cs ticks).buckets.keys = cs.map Cookie.domain := by
  simp [spread, Buckets.keys]

theorem cookies_spread (cs : List Cookie) (ticks : ℕ) : (spread cs ticks).cookies = cs := by
  simp [cookies, spread, Buckets.items, List.flatMap_map]

theorem consistent_spread {cs : List Cookie} (h : (cs.map Cookie.domain).Nodup) (ticks : ℕ) :
    Consistent (spread cs ticks) := by
  have hget : ∀ d b, (spread cs ticks).buckets.get d = some b → ∃ c, c.domain = d ∧ b = [c] := by
    intro d b hb
    obtain ⟨c, _, hc⟩ := List.mem_map.1 (Buckets.mem_of_get hb)
    cases hc
    exact ⟨c, rfl, rfl⟩
  refine ⟨keys_spread cs ticks ▸ h, ?_, ?_, by rw [cookies_spread]; rfl⟩
  · intro d b hb c hc
    obtain ⟨c', hd, rfl⟩ := hget d b hb
    rw [List.mem_singleton.1 hc, hd]
  · intro d b hb
    obtain ⟨c', _, rfl⟩ := hget d b hb
    exact List.nodup_singleton _

/-- A cookie for a domain without a bucket. -/
theorem put_spread {cs : List Cookie} {ticks : ℕ} (hnew : cookie.domain ∉ cs.map Cookie.domain)
    (hexp : p.clock ticks ≤ cookie.expiryTime) {Q : Unit → CookieStore → Prop}
    {E : Exn → CookieStore → Prop}
    (h : Wp (limitStore p) (spread (cs ++ [cookie]) (ticks + 1)) Q E) :
    Wp (put p cookie) (spread cs ticks) Q E := by
  have hget : (spread cs ticks).buckets.get cookie.domain = none := by
    rw [Buckets.get_eq_none, keys_spread]
    exact hnew
  have hopen := Buckets.get_addKey_self hget
  have hbuckets : ((spread cs ticks).buckets.addKey cookie.domain).setBucket cookie.domain [cookie]
      = (spread (cs ++ [cookie]) (ticks + 1)).buckets := by
    rw [Buckets.setBucket_addKey hget]
    simp [spread]
  have hfirst : (spread (cs ++ [cookie]) (ticks + 1)).buckets.get cookie.domain
      = some [cookie] := by
    rw [← hbuckets]
    exact Buckets.get_setBucket_self hopen
  have hupdate : update cookie.domain (putCookie · cookie) 1
      ⟨(spread cs ticks).buckets.addKey cookie.domain, cs.length, ticks + 1, []⟩
        = spread (cs ++ [cookie]) (ticks + 1) := by
    have hput : putCookie [] cookie = [cookie] := rfl
    simp only [update, hopen, Option.getD_some, hput, hbuckets]
    simp [spread]
  rw [put, wp_bind, openBucket, wp_bind, wp_get, hget, wp_bind, wp_set, wp_pure, wp_bind,
    wp_hasExpired, wp_ite]
  refine ⟨fun hlt => absurd (of_decide_eq_true hlt) (not_lt.2 hexp), fun _ => ?_⟩
  rw [wp_ite]
  refine ⟨fun hstored => absurd hstored (by simp [stored]), fun _ => ?_⟩
  have hadd : Wp (add p cookie)
      ⟨(spread cs ticks).buckets.addKey cookie.domain, cs.length, ticks + 1, []⟩ Q E := by
    rw [add, wp_bind, wp_modify, hupdate, wp_bind, limitBucket, wp_bind, wp_get, hfirst, wp_ite]
    refine ⟨fun hbig => absurd hbig ?_, fun _ => h⟩
    simp [MAX_BUCKET_SIZE]
  exact hadd

def domainAt (i : ℕ) : Str := List.replicate (i + 1) 'a'

theorem domainAt_inj {i j : ℕ} (h : domainAt i = domainAt j) : i = j := by
  have := congrArg List.length h
  simpa [domainAt] using this

/-- The session cookie `n=v` of the `i`-th domain, put at a time. -/
def cookieAt (i : ℕ) (time : ℤ) : Cookie :=
  ⟨['n'], ['v'], maxLong, domainAt i, some ['/'], ⟨time, 0⟩, time, false, true, false, false⟩

/-- The cookies after `n` puts at time 0. -/
def early (n : ℕ) : List Cookie := (List.range n).map (fun i => cookieAt i 0)

theorem early_succ (n : ℕ) : early (n + 1) = early n ++ [cookieAt n 0] := by
  rw [early, List.range_succ, List.map_append]
  rfl

theorem domains_early (n : ℕ) : (early n).map Cookie.domain = (List.range n).map domainAt := by
  rw [early, List.map_map]
  rfl

theorem domainAt_notMem_early (n : ℕ) : domainAt n ∉ (early n).map Cookie.domain := by
  rw [domains_early, List.mem_map]
  rintro ⟨i, hi, hd⟩
  exact absurd (domainAt_inj hd) (Nat.ne_of_lt (List.mem_range.1 hi))

theorem run_early {n : ℕ} (hn : n ≤ 4000) :
    run (step slowPlatform) (new 0) ((early n).map .put) = .ok (spread (early n) n) := by
  induction n with
  | zero => rfl
  | succ n ih =>
    rw [early_succ, List.map_append, run_append_ok (ih (by omega)), List.map_singleton,
      run_singleton]
    have hput : Wp (put slowPlatform (cookieAt n 0)) (spread (early n) n)
        (fun _ s' => s' = spread (early n ++ [cookieAt n 0]) (n + 1)) (fun _ _ => False) := by
      refine put_spread (domainAt_notMem_early n) ?_ ?_
      · have hclock : slowPlatform.clock n = 0 := if_pos (by omega)
        have hexp : (0 : ℤ) ≤ maxLong := by decide
        rw [hclock]
        exact hexp
      · have hsmall : ¬ TOTAL_COUNT_UPPER_THRESHOLD
            < (spread (early n ++ [cookieAt n 0]) (n + 1)).totalCount := by
          simp only [TOTAL_COUNT_UPPER_THRESHOLD, spread, early, List.length_append,
            List.length_map, List.length_range, List.length_singleton]
          omega
        rw [limitStore, wp_bind, wp_get, wp_ite]
        exact ⟨fun h => absurd h hsmall, fun _ => rfl⟩
    obtain ⟨_, s', hrun, rfl⟩ := hput.returns
    rw [step, hrun]

/-- The cookies after one more put. -/
def crowd (n : ℕ) : List Cookie := early n ++ [cookieAt n later]

theorem domains_crowd (n : ℕ) :
    (crowd n).map Cookie.domain = (List.range (n + 1)).map domainAt := by
  rw [crowd, List.map_append, domains_early, List.range_succ, List.map_append]
  rfl

theorem domains_crowd_nodup (n : ℕ) : ((crowd n).map Cookie.domain).Nodup := by
  rw [domains_crowd]
  exact List.nodup_range.map (fun i j h => domainAt_inj h)

theorem mem_crowd {n : ℕ} {c : Cookie} (h : c ∈ crowd n) :
    (c = cookieAt n later ∨ c.lastAccessTime = 0) ∧ c.expiryTime = maxLong := by
  rcases List.mem_append.1 h with h | h
  · obtain ⟨i, _, rfl⟩ := List.mem_map.1 h
    exact ⟨.inr rfl, rfl⟩
  · rw [List.mem_singleton.1 h]
    exact ⟨.inl rfl, rfl⟩

/-- The comparator orders the crowd, with the last cookie before all others. -/
theorem removalComparator_crowd {n : ℕ} {c d : Cookie} (hc : c ∈ crowd n) (hd : d ∈ crowd n) :
    removalComparator c d = (if c.lastAccessTime = 0 then 1 else 0) * (2 ^ 31 - 1)
      - (if d.lastAccessTime = 0 then 1 else 0) * (2 ^ 31 - 1) := by
  have htime : ∀ c ∈ crowd n, c.lastAccessTime = later ∨ c.lastAccessTime = 0 := by
    intro c hc
    rcases (mem_crowd hc).1 with rfl | hold
    · exact .inl rfl
    · exact .inr hold
  rw [removalComparator]
  rcases htime c hc with hc | hc
  all_goals
    rcases htime d hd with hd | hd
    all_goals
      rw [hc, hd]
      decide

theorem ordersOn_crowd (n : ℕ) : OrdersOn removalComparator (crowd n) where
  swap c hc d hd := by
    rw [removalComparator_crowd hc hd, removalComparator_crowd hd hc]
    omega
  trans c hc d hd e he := by
    rw [removalComparator_crowd hc hd, removalComparator_crowd hd he,
      removalComparator_crowd hc he]
    omega

/-- The cookie that was accessed last leaves the queue first. -/
theorem removals_crowd (q : PriorityQueue Cookie) (n : ℕ) :
    ∃ rest, q.removals removalComparator (crowd n) = cookieAt n later :: rest := by
  have hperm := q.perm removalComparator (crowd n)
  have hsorted := q.sorted removalComparator (crowd n) (ordersOn_crowd n)
  have hmem : cookieAt n later ∈ q.removals removalComparator (crowd n) :=
    hperm.symm.subset (List.mem_append_right _ (List.mem_singleton_self _))
  obtain ⟨A, B, hAB⟩ := List.append_of_mem hmem
  have hnodup := hperm.nodup_iff.2 (List.Nodup.of_map Cookie.domain (domains_crowd_nodup n))
  rw [hAB] at hsorted hnodup
  cases A with
  | nil => exact ⟨B, hAB⟩
  | cons a A =>
    exfalso
    have hle : removalComparator a (cookieAt n later) ≤ 0 :=
      (List.pairwise_append.1 hsorted).2.2 a List.mem_cons_self _ List.mem_cons_self
    have hne : a ≠ cookieAt n later := by
      rintro rfl
      simp at hnodup
    have ha : a ∈ crowd n := hperm.subset (by simp [hAB])
    have htime := (mem_crowd ha).1.resolve_left hne
    have hlast : (cookieAt n later).lastAccessTime = later := rfl
    rw [removalComparator, htime, hlast] at hle
    exact absurd hle (by decide)

theorem now_slowPlatform (s : CookieStore) : s.now slowPlatform ≤ maxLong := by
  rw [now]
  simp only [slowPlatform]
  split_ifs
  · decide
  · decide

/-- No cookie of the crowd expires. -/
theorem crowd_of_shrunk {n ticks : ℕ} (h : Shrunk slowPlatform (spread (crowd n) ticks) s) :
    s.cookies = crowd n := by
  have hs := consistent_spread (domains_crowd_nodup n) ticks
  have hsub : s.cookies.Sublist (crowd n) := cookies_spread (crowd n) ticks ▸ h.items
  have hsup : crowd n ⊆ s.cookies := by
    intro c hc
    refine h.mem hs (by rwa [cookies_spread]) ?_
    rw [(mem_crowd hc).2]
    exact now_slowPlatform s
  have hnodup : (crowd n).Nodup := List.Nodup.of_map Cookie.domain (domains_crowd_nodup n)
  exact hsub.eq_of_length_le (List.subperm_of_subset hnodup hsup).length_le

/-- The purge of the crowd keeps old cookies only. -/
theorem purge_crowd {n : ℕ} (hn : n = 4000) :
    Wp (put slowPlatform (cookieAt n later)) (spread (early n) n)
      (fun _ s' => ∃ r, s'.purges = [r] ∧ ¬ r.Fair) (fun _ _ => False) := by
  have hs : Consistent (spread (crowd n) (n + 1)) := consistent_spread (domains_crowd_nodup n) _
  have hlength : (crowd n).length = n + 1 := by
    rw [← List.length_map Cookie.domain, domains_crowd, List.length_map, List.length_range]
  have hcount : (spread (crowd n) (n + 1)).totalCount = 4001 := by
    rw [hs.count, cookies_spread, hlength]
    omega
  refine put_spread (domainAt_notMem_early n) ?_ ?_
  · have hclock := now_slowPlatform (spread (early n) (n + 1))
    exact hclock
  rw [limitStore, wp_bind, wp_get, wp_ite]
  refine ⟨fun _ => ?_, fun h => ?_⟩
  · refine (purge_spec hs (by omega)).mono ?_ (fun _ _ h => h)
    rintro _ s' ⟨hpurged, _, hpurges, s₁, hshrunk, _, _, hkept⟩
    have hs₁ := hs.shrunk hshrunk
    rw [cookies_spread] at hpurges
    refine ⟨_, hpurges, ?_⟩
    intro hfair
    have hcookies := crowd_of_shrunk hshrunk
    have htotal : (s₁.totalCount - TOTAL_COUNT_LOWER_THRESHOLD).toNat = 1001 := by
      rw [hs₁.count, hcookies, hlength, TOTAL_COUNT_LOWER_THRESHOLD]
      omega
    obtain ⟨rest, hrest⟩ := removals_crowd slowPlatform.queue n
    have hperm := slowPlatform.queue.perm removalComparator (crowd n)
    have hnodup := hperm.nodup_iff.2 (List.Nodup.of_map Cookie.domain (domains_crowd_nodup n))
    rw [htotal, hcookies, hrest, List.drop_succ_cons] at hkept
    rw [hrest] at hperm hnodup
    have hgone : cookieAt n later ∉ s'.cookies := by
      intro hmem
      exact (List.nodup_cons.1 hnodup).1 (List.mem_of_mem_drop (hkept.subset hmem))
    obtain ⟨k, hk⟩ : ∃ k, k ∈ s'.cookies := by
      rw [← List.length_pos_iff_exists_mem, hkept.length_eq, List.length_drop]
      have := hperm.length_eq
      rw [List.length_cons, hlength] at this
      omega
    have hkcrowd : k ∈ crowd n := by
      have := hpurged.kept k hk
      rwa [cookies_spread] at this
    have hne : k ≠ cookieAt n later := fun h => hgone (h ▸ hk)
    have hold := (mem_crowd hkcrowd).1.resolve_left hne
    have hlate : later ≤ k.lastAccessTime :=
      hfair (cookieAt n later) (List.mem_append_right _ (List.mem_singleton_self _)) hgone
        (now_slowPlatform s') k hk
    rw [hold] at hlate
    exact absurd hlate (by decide)
  · rw [← crowd, hcount] at h
    exact absurd (by decide) h

theorem run_accounted_one : ∃ s, run (step slowPlatform) (new 0)
    [.put (cookieAt 0 0), .get ⟨domainAt 0, some ['/'], false, true⟩] = .ok s ∧ Accounted s := by
  refine run_accounted slowPlatform 0 _ ⟨?_, fun _ _ => ⟨trivial, fun _ _ => trivial⟩⟩
  rintro ⟨_, _, _, hfull⟩
  exact absurd hfull (by decide)

theorem run_crowd (n : ℕ) (hn : n = 4000) : ∃ s r, run (step slowPlatform) (new 0)
    ((early n).map .put ++ [.put (cookieAt n later)]) = .ok s ∧ r ∈ s.purges ∧ ¬ r.Fair := by
  obtain ⟨_, s', hrun, r, hpurges, hfair⟩ := (purge_crowd hn).returns
  refine ⟨s', r, ?_, by simp [hpurges], hfair⟩
  rw [run_append_ok (run_early hn.le), run_singleton, step, hrun]

/-- **The youngest cookie goes.** The purge of the store removes the one cookie that was
accessed after all others. -/
theorem purge_not_fair : ∃ s r, run (step slowPlatform) (new 0)
    ((early 4000).map .put ++ [.put (cookieAt 4000 later)]) = .ok s ∧
      r ∈ s.purges ∧ ¬ r.Fair := run_crowd 4000 rfl

end CookieStore

end JavaFx.Web
