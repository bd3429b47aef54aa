/-
The purges of a cookie store.

A purge is `Fair` when an unexpired cookie that it removed was not accessed later than
any cookie it left. The purge of a bucket always is (`purgeBucket_spec`). The purge of the
store goes by the order in which the queue gives the cookies back, and is fair when
`RemovalComparator` orders the unexpired cookies by their access times; the comparator
cuts a difference of times to an `int`, so that takes times less than `2 ^ 31` apart.
-/
import JavaFx.Web.CookieStoreSteps
import Mathlib.Data.List.Perm.Subperm

set_option autoImplicit false

namespace JavaFx.Web

open JavaFx.Lib

/-- No unexpired cookie that was removed had been accessed later than one that was kept. -/
def Purge.Fair (r : Purge) : Prop :=
  ∀ c ∈ r.before, c ∉ r.after → r.time ≤ c.expiryTime →
    ∀ k ∈ r.after, c.lastAccessTime ≤ k.lastAccessTime

namespace CookieStore

variable {p : Platform} {s s' s'' : CookieStore} {domain : Str} {b b' live : List Cookie}

/-! ## One bucket replaced -/

theorem mem_cookies (hs : Consistent s) (hb : s.buckets.get domain = some b) {c : Cookie}
    (hc : c ∈ b) : c ∈ s.cookies :=
  (Buckets.mem_items hs.keys).2 ⟨domain, b, hb, hc⟩

theorem Consistent.setBucket (hs : Consistent s) (hb : s.buckets.get domain = some b)
    (hdomain : ∀ c ∈ b', c.domain = domain) (hdistinct : (b'.map Cookie.key).Nodup)
    (hbuckets : s'.buckets = s.buckets.setBucket domain b')
    (hcount : s'.totalCount = s.totalCount + b'.length - b.length) : Consistent s' where
  keys := by
    rw [hbuckets, Buckets.keys_setBucket]
    exact hs.keys
  domain d x hx := by
    rw [hbuckets] at hx
    by_cases hd : d = domain
    · rw [hd, Buckets.get_setBucket_self hb] at hx
      cases hx
      rw [hd]
      exact hdomain
    · rw [Buckets.get_setBucket_ne hd] at hx
      exact hs.domain d x hx
  distinct d x hx := by
    rw [hbuckets] at hx
    by_cases hd : d = domain
    · rw [hd, Buckets.get_setBucket_self hb] at hx
      cases hx
      exact hdistinct
    · rw [Buckets.get_setBucket_ne hd] at hx
      exact hs.distinct d x hx
  count := by
    have hlen := Buckets.length_items_setBucket hs.keys hb b'
    have := hs.count
    simp only [cookies, hbuckets] at this ⊢
    omega

/-- A bucket that only lost cookies. -/
theorem Consistent.shrinkBucket (hs : Consistent s) (hb : s.buckets.get domain = some b)
    (hsub : b'.Sublist b) (hbuckets : s'.buckets = s.buckets.setBucket domain b')
    (hcount : s'.totalCount = s.totalCount + b'.length - b.length) : Consistent s' :=
  hs.setBucket hb (fun c hc => hs.domain domain b hb c (hsub.subset hc))
    ((hs.distinct domain b hb).sublist (hsub.map Cookie.key)) hbuckets hcount

theorem mem_setBucket (hs : Consistent s) (hb : s.buckets.get domain = some b)
    (hbuckets : s'.buckets = s.buckets.setBucket domain b') {c : Cookie} :
    c ∈ s'.cookies → c ∈ b' ∨ c ∈ s.cookies := by
  obtain ⟨X, Y, hm, hset⟩ := Buckets.items_split hs.keys hb
  rw [cookies, cookies, hbuckets, hset b', hm]
  simp only [List.mem_append]
  tauto

theorem mem_of_notMem_setBucket (hs : Consistent s) (hb : s.buckets.get domain = some b)
    (hbuckets : s'.buckets = s.buckets.setBucket domain b') {c : Cookie} (hc : c ∈ s.cookies)
    (hn : c ∉ s'.cookies) : c ∈ b ∧ c ∉ b' := by
  obtain ⟨X, Y, hm, hset⟩ := Buckets.items_split hs.keys hb
  rw [cookies, hm] at hc
  rw [cookies, hbuckets, hset b'] at hn
  simp only [List.mem_append] at hc hn
  tauto

/-! ## What a purge does to the rest of the store -/

/-- The purges of a method call. -/
def since (s s' : CookieStore) : List Purge := s'.purges.drop s.purges.length

/-- The store after purges: it lost cookies, which had expired or were removed by one of
the purges. -/
structure Purged (p : Platform) (s s' : CookieStore) : Prop where
  consistent : Consistent s'
  bucket : ∀ d b', s'.buckets.get d = some b' →
    ∃ b, s.buckets.get d = some b ∧ b'.length ≤ b.length
  kept : ∀ c ∈ s'.cookies, c ∈ s.cookies
  total : s'.totalCount ≤ s.totalCount
  ticks : s.ticks ≤ s'.ticks
  purges : s.purges <+: s'.purges
  gone : ∀ c ∈ s.cookies, c ∉ s'.cookies →
    c.expiryTime < s'.now p ∨ ∃ r ∈ since s s', c ∈ r.before ∧ c ∉ r.after

theorem mem_since_of_left (h : s.purges <+: s'.purges) (h' : s'.purges <+: s''.purges) {r : Purge}
    (hr : r ∈ since s s') : r ∈ since s s'' := by
  obtain ⟨l, hl⟩ := h
  obtain ⟨l', hl'⟩ := h'
  rw [since, ← hl, List.drop_left] at hr
  rw [since, ← hl', ← hl, List.append_assoc, List.drop_left]
  exact List.mem_append_left _ hr

theorem mem_since_of_right (h : s.purges <+: s'.purges) {r : Purge}
    (hr : r ∈ since s' s'') : r ∈ since s s'' := by
  have hlen := h.length_le
  have hdrop : since s' s'' = (since s s'').drop (s'.purges.length - s.purges.length) := by
    rw [since, since, List.drop_drop]
    congr 1
    omega
  rw [hdrop] at hr
  exact List.mem_of_mem_drop hr

theorem Purged.refl (hs : Consistent s) : Purged p s s :=
  ⟨hs, fun _ b hb => ⟨b, hb, Nat.le_refl _⟩, fun _ hc => hc, le_refl _, Nat.le_refl _,
    List.prefix_rfl, fun _ hc hn => (hn hc).elim⟩

theorem Purged.trans (h : Purged p s s') (h' : Purged p s' s'') : Purged p s s'' where
  consistent := h'.consistent
  bucket d b'' hb'' := by
    obtain ⟨b', hb', hle'⟩ := h'.bucket d b'' hb''
    obtain ⟨b, hb, hle⟩ := h.bucket d b' hb'
    exact ⟨b, hb, hle'.trans hle⟩
  kept c hc := h.kept c (h'.kept c hc)
  total := h'.total.trans h.total
  ticks := h.ticks.trans h'.ticks
  purges := h.purges.trans h'.purges
  gone c hc hn := by
    by_cases hmem : c ∈ s'.cookies
    · exact (h'.gone c hmem hn).imp_right
        (fun ⟨r, hr, hcr⟩ => ⟨r, mem_since_of_right h.purges hr, hcr⟩)
    · rcases h.gone c hc hmem with hexp | ⟨r, hr, hcr⟩
      · exact .inl (hexp.trans_le (now_le h'.ticks))
      · exact .inr ⟨r, mem_since_of_left h.purges h'.purges hr, hcr⟩

/-! ## The purge of a bucket -/

/-- The loop finds a cookie with the least access time. -/
theorem foldlM_earliest_some {e : Cookie} {r : Option Cookie}
    (h : live.foldlM earliest (some e) = .ok r) :
    ∃ c, r = some c ∧ c ∈ e :: live ∧ ∀ k ∈ e :: live, c.lastAccessTime ≤ k.lastAccessTime := by
  induction live generalizing e with
  | nil =>
    cases h
    exact ⟨e, rfl, List.mem_cons_self, by simp⟩
  | cons d live ih =>
    rw [List.foldlM_cons, earliest] at h
    by_cases hlt : d.lastAccessTime < e.lastAccessTime
    · rw [if_pos hlt, ok_bind] at h
      obtain ⟨c, hr, hc, hmin⟩ := ih h
      refine ⟨c, hr, List.mem_cons_of_mem _ hc, ?_⟩
      intro k hk
      rcases List.mem_cons.1 hk with rfl | hk
      · exact (hmin d List.mem_cons_self).trans hlt.le
      · exact hmin k hk
    · rw [if_neg hlt, ok_bind] at h
      obtain ⟨c, hr, hc, hmin⟩ := ih h
      refine ⟨c, hr, ?_, ?_⟩
      · rcases List.mem_cons.1 hc with rfl | hc
        · exact List.mem_cons_self
        · exact List.mem_cons_of_mem _ (List.mem_cons_of_mem _ hc)
      · intro k hk
        rcases List.mem_cons.1 hk with rfl | hk
        · exact hmin k List.mem_cons_self
        · rcases List.mem_cons.1 hk with rfl | hk
          · exact (hmin e List.mem_cons_self).trans (not_lt.1 hlt)
          · exact hmin k (List.mem_cons_of_mem _ hk)

theorem foldlM_earliest {r : Option Cookie} (h : live.foldlM earliest none = .ok r)
    (hlive : live ≠ []) :
    ∃ c, r = some c ∧ c ∈ live ∧ ∀ k ∈ live, c.lastAccessTime ≤ k.lastAccessTime := by
  cases live with
  | nil => exact (hlive rfl).elim
  | cons d live => exact foldlM_earliest_some h

theorem earliest_ok (e : Option Cookie) (c : Cookie) (x : Exn) : earliest e c ≠ .error x := by
  cases e with
  | none => simp [earliest]
  | some e =>
    rw [earliest]
    split <;> simp

/-- After its loop a purge of a bucket that is still too large removes a cookie that was
not accessed later than the others. -/
theorem removeEarliest_spec {r : Option Cookie} (hs : Consistent s)
    (hb : s.buckets.get domain = some live) (hlen : live.length ≤ MAX_BUCKET_SIZE + 1)
    (hfold : live.foldlM earliest none = .ok r) :
    Wp (removeEarliest domain r) s
      (fun _ s' => ∃ b', b'.Sublist live ∧ b'.length ≤ MAX_BUCKET_SIZE ∧
        (∀ c ∈ live, c ∉ b' → ∀ k ∈ live, c.lastAccessTime ≤ k.lastAccessTime) ∧
        s' = { s with
          buckets := s.buckets.setBucket domain b'
          totalCount := s.totalCount + b'.length - live.length })
      (fun _ _ => False) := by
  rw [removeEarliest, wp_bind, wp_get, hb, Option.getD_some, wp_ite]
  constructor
  · intro hbig
    have hne : live ≠ [] := by
      rintro rfl
      exact absurd hbig (Nat.not_lt_zero _)
    obtain ⟨c, rfl, hc, hmin⟩ := foldlM_earliest hfold hne
    have hdistinct := hs.distinct domain live hb
    have hcount := length_removeCookie hc hdistinct
    simp only [wp_removeFrom]
    refine ⟨removeCookie live c, removeCookie_sublist live c, by omega, ?_, ?_⟩
    · intro d hd hn k hk
      have hkey : d.key = c.key := by
        by_contra hne
        exact hn (mem_removeCookie.2 ⟨hd, hne⟩)
      rw [eq_of_key hdistinct hd hc hkey]
      exact hmin k hk
    · simp only [update, hb, Option.getD_some, mk.injEq, true_and, and_true]
      omega
  · intro hsmall
    rw [wp_pure]
    refine ⟨live, List.Sublist.refl live, not_lt.1 hsmall, fun c hc hn => (hn hc).elim, ?_⟩
    rw [Buckets.setBucket_self hs.keys hb, add_sub_cancel_right]

/-- **The purge of a bucket** ends with a bucket that is not too large, and is fair. -/
theorem purgeBucket_spec (hs : Consistent s) (hb : s.buckets.get domain = some b)
    (hlen : b.length ≤ MAX_BUCKET_SIZE + 1) :
    Wp (purgeBucket p domain) s
      (fun _ s' => Purged p s s' ∧
        (∃ b', s'.buckets.get domain = some b' ∧ b'.length ≤ MAX_BUCKET_SIZE ∧
          s'.totalCount = s.totalCount + b'.length - b.length) ∧
        ∃ r, s'.purges = s.purges ++ [r] ∧ r.Fair)
      (fun _ _ => False) := by
  rw [purgeBucket, wp_bind, wp_get, hb, Option.getD_some, wp_bind]
  refine (sweep_bucket_spec earliest none hs hb).mono ?_ ?_
  · rintro e s₁ ⟨live, hswept, hfold, _⟩
    have hshrunk := hswept.shrunk hs hb
    have hs₁ := hs.shrunk hshrunk
    have hb₁ := hswept.get_self hb
    have hlive := hswept.sublist.length_le
    rw [wp_bind]
    refine (removeEarliest_spec hs₁ hb₁ (hlive.trans hlen) hfold).mono ?_ (fun _ _ h => h)
    rintro _ s₂ ⟨b', hsub, hmax, hmin, rfl⟩
    rw [wp_modify]
    have hb₂ : (s₁.buckets.setBucket domain b').get domain = some b' :=
      Buckets.get_setBucket_self hb₁
    have hcount : s₁.totalCount = s.totalCount + live.length - b.length := by rw [hswept.eq]
    have hpurges : s₁.purges = s.purges := hshrunk.purges
    have hle : b'.length ≤ live.length := hsub.length_le
    have hcons : Consistent { s₁ with
        buckets := s₁.buckets.setBucket domain b'
        totalCount := s₁.totalCount + b'.length - live.length } :=
      hs₁.shrinkBucket hb₁ hsub rfl rfl
    simp only [recordBucket, hb, hb₂, Option.getD_some, hpurges]
    refine ⟨⟨⟨hcons.keys, hcons.domain, hcons.distinct, hcons.count⟩, ?_, ?_, ?_, hshrunk.ticks,
      List.prefix_append _ _, ?_⟩, ⟨b', rfl, hmax, by omega⟩, _, rfl, ?_⟩
    · intro d x hx
      by_cases hd : d = domain
      · rw [hd, hb₂] at hx
        cases hx
        rw [hd]
        exact ⟨b, hb, hle.trans hlive⟩
      · rw [Buckets.get_setBucket_ne hd, hswept.get_ne hd] at hx
        exact ⟨x, hx, Nat.le_refl _⟩
    · intro c hc
      rcases mem_setBucket hs₁ hb₁ rfl hc with hc | hc
      · exact mem_cookies hs hb (hswept.sublist.subset (hsub.subset hc))
      · exact hshrunk.items.subset hc
    · simp only
      omega
    · intro c hc hn
      by_cases hmem : c ∈ s₁.cookies
      · obtain ⟨hcl, hcb⟩ := mem_of_notMem_setBucket hs₁ hb₁ rfl hmem hn
        right
        simp only [since, List.drop_left, List.mem_singleton, exists_eq_left]
        exact ⟨hswept.sublist.subset hcl, hcb⟩
      · left
        obtain ⟨d, x, hx, hcx⟩ := (Buckets.mem_items hs.keys).1 hc
        obtain ⟨x', hx', _, hgone⟩ := hshrunk.bucket d x hx
        exact hgone c hcx (fun hcx' => hmem (mem_cookies hs₁ hx' hcx'))
    · intro c hc hn htime k hk
      by_cases hcl : c ∈ live
      · exact hmin c hcl hn k (hsub.subset hk)
      · exact absurd (hswept.expired c hc hcl) (not_lt.2 htime)
  · rintro e s₁ ⟨_, acc, c, herror⟩
    exact earliest_ok acc c e herror

/-! ## The purge of the store -/

theorem foldlM_append (queue live : List Cookie) :
    live.foldlM (fun queue cookie => (.ok (queue ++ [cookie]) : Except Exn _)) queue
      = .ok (queue ++ live) := by
  induction live generalizing queue with
  | nil =>
    rw [List.append_nil]
    rfl
  | cons c live ih =>
    rw [List.foldlM_cons, ok_bind, ih, List.append_assoc]
    rfl

/-- The first loop adds what it leaves in the buckets. -/
theorem collect_spec (ds : List Str) (queue : List Cookie) (s : CookieStore) (hs : Consistent s)
    (hkeys : ∀ d ∈ ds, d ∈ s.buckets.keys) (hnodup : ds.Nodup) :
    Wp (collect p queue ds) s
      (fun queue' s' => Shrunk p s s' ∧
        queue' = queue ++ ds.flatMap (fun d => (s'.buckets.get d).getD []) ∧
        (∀ d, d ∉ ds → s'.buckets.get d = s.buckets.get d) ∧
        ∀ c ∈ queue', c ∈ queue ∨ p.clock s.ticks ≤ c.expiryTime)
      (fun _ _ => False) := by
  induction ds generalizing queue s with
  | nil =>
    rw [collect, wp_pure]
    exact ⟨Shrunk.refl s, by simp, fun d _ => rfl, fun c hc => .inl hc⟩
  | cons d ds ih =>
    rw [List.nodup_cons] at hnodup
    obtain ⟨b, hb⟩ : ∃ b, s.buckets.get d = some b := by
      rw [← Option.ne_none_iff_exists']
      intro hnone
      exact Buckets.get_eq_none.1 hnone (hkeys d List.mem_cons_self)
    rw [collect, wp_bind, wp_get, hb, Option.getD_some, wp_bind]
    refine (sweep_bucket_spec _ queue hs hb).mono ?_ ?_
    · rintro queue₁ s₁ ⟨live, hswept, hfold, hlive⟩
      rw [foldlM_append, Except.ok.injEq] at hfold
      have hshrunk₁ := hswept.shrunk hs hb
      have hkeys₁ : ∀ x ∈ ds, x ∈ s₁.buckets.keys := by
        intro x hx
        rw [hshrunk₁.keys]
        exact hkeys x (List.mem_cons_of_mem _ hx)
      refine (ih queue₁ s₁ (hs.shrunk hshrunk₁) hkeys₁ hnodup.2).mono ?_ (fun _ _ h => h)
      rintro queue' s' ⟨hshrunk, hqueue, hother, hmem⟩
      -- the buckets of the later keys do not touch this one
      have hd : s'.buckets.get d = some live := by rw [hother d hnodup.1, hswept.get_self hb]
      refine ⟨hshrunk₁.trans hshrunk, ?_, ?_, ?_⟩
      · rw [hqueue, ← hfold, List.flatMap_cons, hd, Option.getD_some, List.append_assoc]
      · intro x hx
        rw [List.mem_cons, not_or] at hx
        rw [hother x hx.2, hswept.get_ne hx.1]
      · intro c hc
        rcases hmem c hc with hc | hc
        · rw [← hfold] at hc
          exact (List.mem_append.1 hc).imp_right (hlive c)
        · exact .inr ((p.clock_mono hswept.ticks).trans hc)
    · rintro e s₁ ⟨_, acc, c, herror⟩
      cases herror

theorem collect_all_spec (hs : Consistent s) :
    Wp (collect p [] s.buckets.keys) s
      (fun queue s' => Shrunk p s s' ∧ queue = s'.cookies ∧
        ∀ c ∈ queue, p.clock s.ticks ≤ c.expiryTime)
      (fun _ _ => False) := by
  refine (collect_spec s.buckets.keys [] s hs (fun _ h => h) hs.keys).mono ?_ (fun _ _ h => h)
  rintro queue s' ⟨hshrunk, hqueue, _, hmem⟩
  refine ⟨hshrunk, ?_, fun c hc => (hmem c hc).resolve_left List.not_mem_nil⟩
  rw [hqueue, List.nil_append, ← hshrunk.keys,
    Buckets.flatMap_get (hshrunk.keys ▸ hs.keys), cookies]

/-- One cookie taken out of the store. -/
theorem cookies_removeFrom (hs : Consistent s) (hb : s.buckets.get domain = some b) {c : Cookie}
    (hc : c ∈ b) : s.cookies.Perm (c :: (update domain (removeCookie · c) (-1) s).cookies) := by
  obtain ⟨X, Y, hm, hset⟩ := Buckets.items_split hs.keys hb
  obtain ⟨A, B, rfl⟩ := List.append_of_mem hc
  have hrest := removeCookie_mid (hs.distinct domain _ hb)
  simp only [cookies, update, hb, Option.getD_some, hm, hset, hrest]
  have hperm : (A ++ c :: B).Perm (c :: (A ++ B)) := List.perm_middle
  refine ((hperm.append_left X).append_right Y).trans ?_
  rw [List.append_assoc, List.append_assoc, List.cons_append]
  exact List.perm_middle

/-- The second loop takes cookies from the front of the queue until the lower threshold is
reached. The queue holds the cookies of the store, so it does not run out. -/
theorem removeExcess_spec (queue : List Cookie) (s : CookieStore) (hs : Consistent s)
    (hqueue : queue.Perm s.cookies) :
    Wp (removeExcess queue) s
      (fun _ s' => Consistent s' ∧
        s'.cookies.Perm (queue.drop (s.totalCount - TOTAL_COUNT_LOWER_THRESHOLD).toNat) ∧
        (∀ d b', s'.buckets.get d = some b' →
          ∃ b, s.buckets.get d = some b ∧ b'.length ≤ b.length) ∧
        s'.ticks = s.ticks ∧ s'.purges = s.purges)
      (fun _ _ => False) := by
  induction queue generalizing s with
  | nil =>
    have hcount := hs.count
    rw [hqueue.nil_eq.symm, List.length_nil] at hcount
    have hsmall : ¬ TOTAL_COUNT_LOWER_THRESHOLD < s.totalCount := by
      simp [hcount, TOTAL_COUNT_LOWER_THRESHOLD]
    rw [removeExcess, wp_bind, wp_get, if_neg hsmall, wp_pure]
    exact ⟨hs, by simpa using hqueue.symm, fun _ b hb => ⟨b, hb, Nat.le_refl _⟩, rfl, rfl⟩
  | cons c queue ih =>
    rw [removeExcess, wp_bind, wp_get, wp_ite]
    constructor
    · intro hbig
      obtain ⟨d, b, hb, hc⟩ := (Buckets.mem_items hs.keys).1 (hqueue.subset List.mem_cons_self)
      have hd : c.domain = d := hs.domain d b hb c hc
      rw [← hd] at hb
      have hperm := cookies_removeFrom hs hb hc
      have hlen := length_removeCookie hc (hs.distinct c.domain b hb)
      have hbuckets : (update c.domain (removeCookie · c) (-1) s).buckets
          = s.buckets.setBucket c.domain (removeCookie b c) := by simp [update, hb]
      have hs₁ : Consistent (update c.domain (removeCookie · c) (-1) s) := by
        refine hs.shrinkBucket hb (removeCookie_sublist b c) hbuckets ?_
        simp only [update]
        omega
      rw [wp_bind, removeStored, wp_bind, wp_get, hb, Option.isSome_some, if_pos rfl,
        wp_removeFrom]
      refine (ih _ hs₁ ((hqueue.trans hperm).cons_inv)).mono ?_ (fun _ _ h => h)
      rintro _ s' ⟨hs', hkept, hbucket, hticks, hpurges⟩
      refine ⟨hs', ?_, ?_, hticks, hpurges⟩
      · have hn : (s.totalCount - TOTAL_COUNT_LOWER_THRESHOLD).toNat
            = (s.totalCount + -1 - TOTAL_COUNT_LOWER_THRESHOLD).toNat + 1 := by omega
        rw [hn, List.drop_succ_cons]
        exact hkept
      · intro x b' hb'
        obtain ⟨b₁, hb₁, hle⟩ := hbucket x b' hb'
        rw [hbuckets] at hb₁
        by_cases hx : x = c.domain
        · rw [hx, Buckets.get_setBucket_self hb] at hb₁
          cases hb₁
          exact ⟨b, by rw [hx, hb], by omega⟩
        · rw [Buckets.get_setBucket_ne hx] at hb₁
          exact ⟨b₁, hb₁, hle⟩
    · intro hsmall
      have hn : (s.totalCount - TOTAL_COUNT_LOWER_THRESHOLD).toNat = 0 := by omega
      rw [wp_pure, hn]
      exact ⟨hs, by simpa using hqueue.symm, fun _ b hb => ⟨b, hb, Nat.le_refl _⟩, rfl, rfl⟩

/-- **The purge of the store** ends at the lower threshold; what it keeps are the last
cookies in the order of the queue. -/
theorem purge_spec (hs : Consistent s) (htotal : 2 ≤ s.totalCount) :
    Wp (purge p) s
      (fun _ s' => Purged p s s' ∧ s'.totalCount ≤ TOTAL_COUNT_LOWER_THRESHOLD ∧
        s'.purges = s.purges ++ [⟨s.cookies, s'.cookies, s'.now p⟩] ∧
        ∃ s₁, Shrunk p s s₁ ∧ s₁.ticks = s'.ticks ∧
          (∀ c ∈ s₁.cookies, p.clock s.ticks ≤ c.expiryTime) ∧
          s'.cookies.Perm ((p.queue.removals removalComparator s₁.cookies).drop
            (s₁.totalCount - TOTAL_COUNT_LOWER_THRESHOLD).toNat))
      (fun _ _ => False) := by
  have hcapacity : ¬ s.totalCount.tdiv 2 < 1 := by
    rw [Int.tdiv_eq_ediv_of_nonneg (by omega)]
    omega
  rw [purge, wp_bind, wp_get, wp_bind, newQueue, wp_bind, wp_get, if_neg hcapacity, wp_pure,
    wp_bind]
  refine (collect_all_spec hs).mono ?_ (fun _ _ h => h)
  rintro queue s₁ ⟨hshrunk, rfl, hexp⟩
  have hs₁ := hs.shrunk hshrunk
  have hperm := p.queue.perm removalComparator s₁.cookies
  rw [wp_bind]
  refine (removeExcess_spec _ s₁ hs₁ hperm).mono ?_ (fun _ _ h => h)
  rintro _ s₂ ⟨hs₂, hkept, hbucket, hticks, hpurges⟩
  have hlower : 0 ≤ TOTAL_COUNT_LOWER_THRESHOLD := by decide
  have hcount := hs₂.count
  rw [hkept.length_eq, List.length_drop, hperm.length_eq] at hcount
  have hcount₁ := hs₁.count
  have hle := hshrunk.items.length_le
  have hdiff := hshrunk.count
  have hsub : ∀ c ∈ s₂.cookies, c ∈ s₁.cookies := by
    intro c hc
    exact hperm.subset (List.mem_of_mem_drop (hkept.subset hc))
  rw [wp_modify]
  refine ⟨⟨⟨hs₂.keys, hs₂.domain, hs₂.distinct, hs₂.count⟩, ?_, ?_, ?_, ?_, ?_, ?_⟩, ?_, ?_,
    s₁, hshrunk, hticks.symm, hexp, hkept⟩
  · intro d b' hb'
    obtain ⟨b₁, hb₁, hle₁⟩ := hbucket d b' hb'
    obtain ⟨b, hb, hsub⟩ := hshrunk.of_get hb₁
    exact ⟨b, hb, hle₁.trans hsub.length_le⟩
  · intro c hc
    exact hshrunk.items.subset (hsub c hc)
  · simp only [recordStore]
    omega
  · simp only [recordStore, hticks]
    exact hshrunk.ticks
  · simp only [recordStore, hpurges, hshrunk.purges]
    exact List.prefix_append _ _
  · intro c hc hn
    right
    simp only [since, recordStore, hpurges, hshrunk.purges, List.drop_left, List.mem_singleton,
      exists_eq_left]
    exact ⟨hc, hn⟩
  · simp only [recordStore]
    omega
  · simp only [recordStore, hpurges, hshrunk.purges]
    rfl

/-! ## The order of the queue -/

/-- The access times of the cookies that have not expired by `time` are less than `2 ^ 31`
apart. -/
def CloseTimes (time : ℤ) (l : List Cookie) : Prop :=
  ∀ c ∈ l, ∀ d ∈ l, time ≤ c.expiryTime → time ≤ d.expiryTime →
    |c.lastAccessTime - d.lastAccessTime| < 2 ^ 31

/-- A small difference is not changed by the cut to an `int`. -/
theorem removalComparator_eq {c d : Cookie}
    (h : |c.lastAccessTime - d.lastAccessTime| < 2 ^ 31) :
    removalComparator c d = c.lastAccessTime - d.lastAccessTime := by
  rw [abs_lt] at h
  have hlong : toLong (c.lastAccessTime - d.lastAccessTime)
      = c.lastAccessTime - d.lastAccessTime := by
    rw [toLong, Int.bmod_eq_of_le]
    all_goals omega
  rw [removalComparator, hlong, toInt, Int.bmod_eq_of_le]
  all_goals omega

theorem ordersOn_removalComparator {l : List Cookie}
    (h : ∀ c ∈ l, ∀ d ∈ l, |c.lastAccessTime - d.lastAccessTime| < 2 ^ 31) :
    OrdersOn removalComparator l where
  swap c hc d hd := by
    rw [removalComparator_eq (h c hc d hd), removalComparator_eq (h d hd c hc)]
    omega
  trans c hc d hd e he := by
    rw [removalComparator_eq (h c hc d hd), removalComparator_eq (h d hd e he),
      removalComparator_eq (h c hc e he)]
    omega

/-- Where the times are close, the cookies that go first were not accessed later. -/
theorem removals_le {l : List Cookie} (q : PriorityQueue Cookie)
    (h : ∀ c ∈ l, ∀ d ∈ l, |c.lastAccessTime - d.lastAccessTime| < 2 ^ 31) (n : ℕ) :
    ∀ c ∈ (q.removals removalComparator l).take n, ∀ k ∈ (q.removals removalComparator l).drop n,
      c.lastAccessTime ≤ k.lastAccessTime := by
  intro c hc k hk
  have hsorted := q.sorted removalComparator l (ordersOn_removalComparator h)
  rw [SortedBy, ← List.take_append_drop n (q.removals removalComparator l),
    List.pairwise_append] at hsorted
  have hle := hsorted.2.2 c hc k hk
  have hcl : c ∈ l := (q.perm removalComparator l).subset (List.mem_of_mem_take hc)
  have hkl : k ∈ l := (q.perm removalComparator l).subset (List.mem_of_mem_drop hk)
  rw [removalComparator_eq (h c hcl k hkl)] at hle
  omega

/-- A purge of a store whose unexpired cookies have close access times is fair. -/
theorem purge_fair {s₁ : CookieStore} {time : ℤ} {n : ℕ} (hs : Consistent s)
    (hclose : CloseTimes time s.cookies) (htime : time ≤ p.clock s.ticks)
    (hshrunk : Shrunk p s s₁) (hticks : s₁.ticks = s'.ticks)
    (hexp : ∀ c ∈ s₁.cookies, p.clock s.ticks ≤ c.expiryTime)
    (hkept : s'.cookies.Perm ((p.queue.removals removalComparator s₁.cookies).drop n)) :
    Purge.Fair ⟨s.cookies, s'.cookies, s'.now p⟩ := by
  intro c hc hn hlive k hk
  have hnow : s₁.now p = s'.now p := by rw [now, now, hticks]
  have hcs₁ : c ∈ s₁.cookies := hshrunk.mem hs hc (by rwa [hnow])
  have hclose₁ : ∀ c ∈ s₁.cookies, ∀ d ∈ s₁.cookies,
      |c.lastAccessTime - d.lastAccessTime| < 2 ^ 31 := by
    intro a ha d hd
    exact hclose a (hshrunk.items.subset ha) d (hshrunk.items.subset hd)
      (htime.trans (hexp a ha)) (htime.trans (hexp d hd))
  have hcq : c ∈ p.queue.removals removalComparator s₁.cookies :=
    (p.queue.perm removalComparator s₁.cookies).symm.subset hcs₁
  rw [← List.take_append_drop n (p.queue.removals removalComparator s₁.cookies),
    List.mem_append] at hcq
  rcases hcq with htake | hdrop
  · exact removals_le p.queue hclose₁ n c htake k (hkept.subset hk)
  · exact (hn (hkept.symm.subset hdrop)).elim

end CookieStore

end JavaFx.Web
