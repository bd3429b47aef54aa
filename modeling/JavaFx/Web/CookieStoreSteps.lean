/-
What the methods of a cookie store do to its buckets.

`Consistent` is what the map of maps and the counter promise each other. A walk over a
bucket or over all of them leaves the store `Shrunk`: every bucket has lost nothing but
cookies that have expired by the last reading of the clock, and the counter has followed.
`sweep_spec` is the one induction over a loop; what `find`, `get` and the purges do is put
together from it.
-/
import JavaFx.Web.CookieStore

set_option autoImplicit false

namespace JavaFx.Web

open JavaFx.Lib

/-! ## Buckets -/

theorem removeCookie_sublist (bucket : List Cookie) (cookie : Cookie) :
    (removeCookie bucket cookie).Sublist bucket := List.filter_sublist

/-- The cookie of a place leaves the others. -/
theorem removeCookie_mid {A B : List Cookie} {c : Cookie}
    (h : ((A ++ c :: B).map Cookie.key).Nodup) : removeCookie (A ++ c :: B) c = A ++ B := by
  have hmid := List.nodup_middle.1 (by simpa using h)
  simp only [List.nodup_cons, List.mem_append, not_or] at hmid
  rw [removeCookie, List.filter_append, List.filter_cons_of_neg (by simp)]
  congr 1
  · rw [List.filter_eq_self]
    intro a ha
    have : a.key ≠ c.key := fun hk => hmid.1.1 (hk ▸ List.mem_map_of_mem ha)
    simpa using this
  · rw [List.filter_eq_self]
    intro a ha
    have : a.key ≠ c.key := fun hk => hmid.1.2 (hk ▸ List.mem_map_of_mem ha)
    simpa using this

theorem mem_removeCookie {bucket : List Cookie} {c d : Cookie} :
    c ∈ removeCookie bucket d ↔ c ∈ bucket ∧ c.key ≠ d.key := by
  simp [removeCookie]

theorem length_removeCookie {bucket : List Cookie} {c : Cookie} (hc : c ∈ bucket)
    (h : (bucket.map Cookie.key).Nodup) : (removeCookie bucket c).length + 1 = bucket.length := by
  obtain ⟨A, B, rfl⟩ := List.append_of_mem hc
  rw [removeCookie_mid h]
  simp only [List.length_append, List.length_cons]
  omega

/-- The cookies of a bucket are told apart by their keys. -/
theorem eq_of_key {bucket : List Cookie} (h : (bucket.map Cookie.key).Nodup) {c d : Cookie}
    (hc : c ∈ bucket) (hd : d ∈ bucket) (hk : c.key = d.key) : c = d :=
  List.inj_on_of_nodup_map h hc hd hk

theorem stored_eq_some {bucket : List Cookie} {cookie c : Cookie}
    (h : stored bucket cookie = some c) :
    c ∈ bucket ∧ c.key = cookie.key :=
  ⟨List.mem_of_find?_eq_some h, by simpa using List.find?_some h⟩

theorem stored_eq_none {bucket : List Cookie} {cookie : Cookie} :
    stored bucket cookie = none ↔ ∀ c ∈ bucket, c.key ≠ cookie.key := by
  simp [stored]

/-- A cookie that is replaced keeps its place. -/
theorem putCookie_keys {bucket : List Cookie} {cookie c : Cookie}
    (h : stored bucket cookie = some c) :
    (putCookie bucket cookie).map Cookie.key = bucket.map Cookie.key := by
  rw [putCookie, h, Option.isSome_some, if_pos rfl, List.map_map]
  apply List.map_congr_left
  intro d _
  by_cases hd : d.key = cookie.key
  · simp [hd]
  · simp [hd]

theorem putCookie_new {bucket : List Cookie} {cookie : Cookie} (h : stored bucket cookie = none) :
    putCookie bucket cookie = bucket ++ [cookie] := by
  rw [putCookie, h]
  rfl

theorem mem_putCookie {bucket : List Cookie} {cookie c : Cookie} (h : c ∈ putCookie bucket cookie) :
    c = cookie ∨ c ∈ bucket ∧ c.key ≠ cookie.key := by
  rw [putCookie] at h
  split at h
  · obtain ⟨d, hd, rfl⟩ := List.mem_map.1 h
    by_cases hk : d.key = cookie.key
    · simp [hk]
    · simp [hk, hd]
  · next hnone =>
      rw [Option.not_isSome_iff_eq_none] at hnone
      rcases List.mem_append.1 h with hc | hc
      · exact .inr ⟨hc, stored_eq_none.1 hnone c hc⟩
      · exact .inl (List.mem_singleton.1 hc)

/-- A cookie with another key stays. -/
theorem mem_putCookie_ne {bucket : List Cookie} {cookie c : Cookie} (hc : c ∈ bucket)
    (hne : c.key ≠ cookie.key) : c ∈ putCookie bucket cookie := by
  rw [putCookie]
  split
  · exact List.mem_map.2 ⟨c, hc, by simp [hne]⟩
  · exact List.mem_append_left _ hc

namespace CookieStore

/-! ## What the counter and the buckets promise each other -/

/-- The buckets are maps, they hold the cookies of their domain, and `totalCount` counts
the cookies. -/
structure Consistent (s : CookieStore) : Prop where
  keys : s.buckets.keys.Nodup
  domain : ∀ d b, s.buckets.get d = some b → ∀ c ∈ b, c.domain = d
  distinct : ∀ d b, s.buckets.get d = some b → (b.map Cookie.key).Nodup
  count : s.totalCount = s.cookies.length

/-- The limits of the store. -/
structure Bounded (s : CookieStore) : Prop where
  bucket : ∀ d b, s.buckets.get d = some b → b.length ≤ MAX_BUCKET_SIZE
  total : s.totalCount ≤ TOTAL_COUNT_UPPER_THRESHOLD

variable (p : Platform)

/-- Every bucket has lost nothing but expired cookies. -/
structure Shrunk (s s' : CookieStore) : Prop where
  keys : s'.buckets.keys = s.buckets.keys
  bucket : ∀ d b, s.buckets.get d = some b → ∃ b', s'.buckets.get d = some b' ∧ b'.Sublist b ∧
    ∀ c ∈ b, c ∉ b' → c.expiryTime < s'.now p
  items : s'.cookies.Sublist s.cookies
  count : s'.totalCount - s'.cookies.length = s.totalCount - s.cookies.length
  ticks : s.ticks ≤ s'.ticks
  purges : s'.purges = s.purges

variable {p} {s s' s'' : CookieStore} {domain : Str}

theorem now_le (h : s.ticks ≤ s'.ticks) : s.now p ≤ s'.now p :=
  p.clock_mono (Nat.sub_le_sub_right h 1)

theorem Shrunk.refl (s : CookieStore) : Shrunk p s s :=
  ⟨rfl, fun _ b hb => ⟨b, hb, List.Sublist.refl b, fun _ hc hn => (hn hc).elim⟩,
    List.Sublist.refl _, rfl, Nat.le_refl _, rfl⟩

theorem Shrunk.trans (h : Shrunk p s s') (h' : Shrunk p s' s'') : Shrunk p s s'' where
  keys := h'.keys.trans h.keys
  bucket d b hb := by
    obtain ⟨b', hb', hsub, hexp⟩ := h.bucket d b hb
    obtain ⟨b'', hb'', hsub', hexp'⟩ := h'.bucket d b' hb'
    refine ⟨b'', hb'', hsub'.trans hsub, ?_⟩
    intro c hc hn
    by_cases hmem : c ∈ b'
    · exact hexp' c hmem hn
    · exact (hexp c hc hmem).trans_le (now_le h'.ticks)
  items := h'.items.trans h.items
  count := h'.count.trans h.count
  ticks := h.ticks.trans h'.ticks
  purges := h'.purges.trans h.purges

/-- A reading of the clock. -/
theorem Shrunk.tick (s : CookieStore) : Shrunk p s { s with ticks := s.ticks + 1 } :=
  { Shrunk.refl (p := p) s with
    bucket := fun _ b hb => ⟨b, hb, List.Sublist.refl b, fun _ hc hn => (hn hc).elim⟩
    ticks := Nat.le_succ _ }

theorem Shrunk.of_get (h : Shrunk p s s') {d : Str} {b' : List Cookie}
    (hb' : s'.buckets.get d = some b') : ∃ b, s.buckets.get d = some b ∧ b'.Sublist b := by
  cases hb : s.buckets.get d with
  | none =>
    rw [Buckets.get_eq_none, ← h.keys, ← Buckets.get_eq_none, hb'] at hb
    cases hb
  | some b =>
    obtain ⟨c, hc, hsub, _⟩ := h.bucket d b hb
    rw [hb'] at hc
    cases hc
    exact ⟨b, rfl, hsub⟩

theorem Consistent.shrunk (hs : Consistent s) (h : Shrunk p s s') : Consistent s' where
  keys := h.keys ▸ hs.keys
  domain d b' hb' c hc := by
    obtain ⟨b, hb, hsub⟩ := h.of_get hb'
    exact hs.domain d b hb c (hsub.subset hc)
  distinct d b' hb' := by
    obtain ⟨b, hb, hsub⟩ := h.of_get hb'
    exact (hs.distinct d b hb).sublist (hsub.map Cookie.key)
  count := by
    have := h.count
    have := hs.count
    omega

theorem Bounded.shrunk (hs : Bounded s) (h : Shrunk p s s') : Bounded s' where
  bucket d b' hb' := by
    obtain ⟨b, hb, hsub⟩ := h.of_get hb'
    exact hsub.length_le.trans (hs.bucket d b hb)
  total := by
    have := h.count
    have := h.items.length_le
    have := hs.total
    omega

/-- A cookie that has not expired is still there. -/
theorem Shrunk.mem (hs : Consistent s) (h : Shrunk p s s') {c : Cookie} (hc : c ∈ s.cookies)
    (hexp : s'.now p ≤ c.expiryTime) : c ∈ s'.cookies := by
  have hs' : Consistent s' := hs.shrunk h
  obtain ⟨d, b, hb, hcb⟩ := (Buckets.mem_items hs.keys).1 hc
  obtain ⟨b', hb', _, hgone⟩ := h.bucket d b hb
  refine (Buckets.mem_items hs'.keys).2 ⟨d, b', hb', ?_⟩
  by_contra hn
  exact absurd (hgone c hcb hn) (not_lt.2 hexp)

/-! ## The loop over a bucket -/

@[simp] theorem wp_hasExpired {cookie : Cookie} {Q : Bool → CookieStore → Prop}
    {E : Exn → CookieStore → Prop} : Wp (hasExpired p cookie) s Q E
      ↔ Q (decide (cookie.expiryTime < p.clock s.ticks)) { s with ticks := s.ticks + 1 } := Iff.rfl

@[simp] theorem wp_removeFrom {cookie : Cookie} {Q : Unit → CookieStore → Prop}
    {E : Exn → CookieStore → Prop} : Wp (removeFrom domain cookie) s Q E
      ↔ Q () (update domain (removeCookie · cookie) (-1) s) := Iff.rfl

@[simp] theorem now_tick (s : CookieStore) :
    now p { s with ticks := s.ticks + 1 } = p.clock s.ticks := rfl

/-- What is left when the loop over a bucket `done ++ cookies` has gone over `cookies`. -/
structure Swept (p : Platform) (domain : Str) (done cookies live : List Cookie)
    (s s' : CookieStore) : Prop where
  sublist : live.Sublist cookies
  expired : ∀ c ∈ cookies, c ∉ live → c.expiryTime < s'.now p
  ticks : s.ticks ≤ s'.ticks
  eq : s' = { s with
    buckets := s.buckets.setBucket domain (done ++ live)
    totalCount := s.totalCount + live.length - cookies.length
    ticks := s'.ticks }

variable {done cookies live : List Cookie} {α : Type}

theorem Swept.none (hkeys : s.buckets.keys.Nodup)
    (hb : s.buckets.get domain = some (done ++ cookies)) {t : ℕ} (ht : s.ticks ≤ t) :
    Swept p domain done cookies cookies s { s with ticks := t } where
  sublist := List.Sublist.refl _
  expired _ hc hn := (hn hc).elim
  ticks := ht
  eq := by simp [Buckets.setBucket_self hkeys hb]

/-- An expired cookie is taken out, then the loop goes on. -/
theorem Swept.expired_cons {cookie : Cookie}
    (hb : s.buckets.get domain = some (done ++ cookie :: cookies))
    (hdistinct : ((done ++ cookie :: cookies).map Cookie.key).Nodup)
    (hexp : cookie.expiryTime < p.clock s.ticks)
    (h : Swept p domain done cookies live
      (update domain (removeCookie · cookie) (-1) { s with ticks := s.ticks + 1 }) s') :
    Swept p domain done (cookie :: cookies) live s s' where
  sublist := h.sublist.cons cookie
  expired c hc hn := by
    rcases List.mem_cons.1 hc with rfl | hc
    · have hlast : p.clock s.ticks ≤ s'.now p := p.clock_mono (Nat.le_sub_one_of_lt h.ticks)
      exact hexp.trans_le hlast
    · exact h.expired c hc hn
  ticks := (Nat.le_succ _).trans h.ticks
  eq := by
    rw [h.eq]
    simp only [update, hb, Option.getD_some, removeCookie_mid hdistinct,
      Buckets.setBucket_setBucket, List.length_cons, Nat.cast_add, Nat.cast_one, mk.injEq,
      true_and, and_true]
    ring

/-- A cookie that has not expired stays, then the loop goes on. -/
theorem Swept.live_cons {cookie : Cookie}
    (h : Swept p domain (done ++ [cookie]) cookies live { s with ticks := s.ticks + 1 } s') :
    Swept p domain done (cookie :: cookies) (cookie :: live) s s' where
  sublist := h.sublist.cons_cons cookie
  expired c hc hn := by
    rcases List.mem_cons.1 hc with rfl | hc
    · simp at hn
    · exact h.expired c hc (fun hmem => hn (List.mem_cons_of_mem _ hmem))
  ticks := (Nat.le_succ _).trans h.ticks
  eq := by
    rw [h.eq]
    simp only [List.append_assoc, List.cons_append, List.nil_append, List.length_cons,
      Nat.cast_add, Nat.cast_one, mk.injEq, true_and, and_true]
    ring

/-- **The loop over a bucket.** It removes expired cookies only, and its body runs over
the others; an exception of the body ends it in between. -/
theorem sweep_spec (body : α → Cookie → Except Exn α) (acc : α) (cookies done : List Cookie)
    (s : CookieStore) (hkeys : s.buckets.keys.Nodup)
    (hb : s.buckets.get domain = some (done ++ cookies))
    (hdistinct : ((done ++ cookies).map Cookie.key).Nodup) :
    Wp (sweep p domain body acc cookies) s
      (fun acc' s' => ∃ live, Swept p domain done cookies live s s' ∧
        live.foldlM body acc = .ok acc' ∧ ∀ c ∈ live, p.clock s.ticks ≤ c.expiryTime)
      (fun e s' => (∃ live, Swept p domain done cookies live s s') ∧
        ∃ acc c, body acc c = .error e) := by
  induction cookies generalizing acc done s with
  | nil =>
    rw [sweep, wp_pure]
    exact ⟨[], Swept.none hkeys hb (Nat.le_refl _), rfl, by simp⟩
  | cons cookie cookies ih =>
    rw [sweep, wp_bind, wp_hasExpired, wp_ite]
    constructor
    · intro hexp
      rw [decide_eq_true_iff] at hexp
      rw [wp_bind, wp_removeFrom]
      have hget : (update domain (removeCookie · cookie) (-1)
          { s with ticks := s.ticks + 1 }).buckets.get domain = some (done ++ cookies) := by
        simp only [update, hb, Option.getD_some, removeCookie_mid hdistinct]
        exact Buckets.get_setBucket_self hb
      have hrest : ((done ++ cookies).map Cookie.key).Nodup :=
        hdistinct.sublist (((List.sublist_cons_self cookie cookies).append_left done).map _)
      refine (ih acc done _ (by simpa [update] using hkeys) hget hrest).mono ?_ ?_
      · rintro acc' s' ⟨live, hswept, hfold, hlive⟩
        refine ⟨live, hswept.expired_cons hb hdistinct hexp, hfold, ?_⟩
        intro c hc
        exact (p.clock_mono (Nat.le_succ _)).trans (hlive c hc)
      · rintro e s' ⟨⟨live, hswept⟩, hbody⟩
        exact ⟨⟨live, hswept.expired_cons hb hdistinct hexp⟩, hbody⟩
    · intro hexp
      have hkept : p.clock s.ticks ≤ cookie.expiryTime := by
        rw [decide_eq_true_iff] at hexp
        exact not_lt.1 hexp
      rw [wp_bind, wp_liftExcept]
      constructor
      · intro acc₁ hacc
        have hget : s.buckets.get domain = some ((done ++ [cookie]) ++ cookies) := by simp [hb]
        refine (ih acc₁ (done ++ [cookie]) { s with ticks := s.ticks + 1 } hkeys hget
          (by simpa using hdistinct)).mono ?_ ?_
        · rintro acc' s' ⟨live, hswept, hfold, hlive⟩
          refine ⟨cookie :: live, hswept.live_cons, ?_, ?_⟩
          · rw [List.foldlM_cons, hacc, ok_bind, hfold]
          · intro c hc
            rcases List.mem_cons.1 hc with rfl | hc
            · exact hkept
            · exact (p.clock_mono (Nat.le_succ _)).trans (hlive c hc)
        · rintro e s' ⟨⟨live, hswept⟩, hbody⟩
          exact ⟨⟨cookie :: live, hswept.live_cons⟩, hbody⟩
      · intro e hbody
        exact ⟨⟨cookie :: cookies, Swept.none hkeys hb (Nat.le_succ _)⟩, acc, cookie, hbody⟩

/-- The store when the loop has ended. -/
theorem Swept.shrunk (hs : Consistent s) (hb : s.buckets.get domain = some (done ++ cookies))
    (h : Swept p domain done cookies live s s') : Shrunk p s s' := by
  have hbuckets : s'.buckets = s.buckets.setBucket domain (done ++ live) := by rw [h.eq]
  have hsub : (done ++ live).Sublist (done ++ cookies) := h.sublist.append_left done
  refine ⟨by rw [hbuckets, Buckets.keys_setBucket], ?_, ?_, ?_, h.ticks, by rw [h.eq]⟩
  · intro d b hd
    by_cases hdom : d = domain
    · rw [hdom, hb] at hd
      cases hd
      refine ⟨done ++ live, by rw [hbuckets, hdom, Buckets.get_setBucket_self hb], hsub, ?_⟩
      intro c hc hn
      rw [List.mem_append, not_or] at hn
      exact h.expired c ((List.mem_append.1 hc).resolve_left hn.1) hn.2
    · exact ⟨b, by rw [hbuckets, Buckets.get_setBucket_ne hdom, hd], List.Sublist.refl b,
        fun _ hc hn => (hn hc).elim⟩
  · rw [CookieStore.cookies, hbuckets]
    exact Buckets.items_setBucket_sublist hs.keys hb hsub
  · have hlen := Buckets.length_items_setBucket hs.keys hb (done ++ live)
    have hcount : s'.totalCount = s.totalCount + live.length - cookies.length := by rw [h.eq]
    rw [hcount]
    simp only [CookieStore.cookies, hbuckets]
    simp only [List.length_append] at hlen
    omega

/-- One expired cookie removed. -/
theorem shrunk_removeFrom (hs : Consistent s) {b : List Cookie} {cookie : Cookie}
    (hb : s.buckets.get domain = some b) (hmem : cookie ∈ b)
    (hexp : cookie.expiryTime < p.clock s.ticks) :
    Shrunk p s (update domain (removeCookie · cookie) (-1) { s with ticks := s.ticks + 1 }) ∧
      (update domain (removeCookie · cookie) (-1)
        { s with ticks := s.ticks + 1 }).buckets.get domain = some (removeCookie b cookie) := by
  obtain ⟨A, B, rfl⟩ := List.append_of_mem hmem
  have hdistinct := hs.distinct domain _ hb
  have hget : (update domain (removeCookie · cookie) (-1)
      { s with ticks := s.ticks + 1 }).buckets.get domain
        = some (removeCookie (A ++ cookie :: B) cookie) := by
    simp only [update, hb, Option.getD_some]
    exact Buckets.get_setBucket_self hb
  refine ⟨?_, hget⟩
  rw [removeCookie_mid hdistinct] at hget
  have hkeys : (update domain (removeCookie · cookie) (-1)
      { s with ticks := s.ticks + 1 }).buckets.keys.Nodup := by
    simpa [update] using hs.keys
  exact Swept.shrunk hs hb
    (Swept.expired_cons hb hdistinct hexp (Swept.none hkeys hget (Nat.le_refl _)))

theorem Swept.get_self (hb : s.buckets.get domain = some cookies)
    (h : Swept p domain [] cookies live s s') : s'.buckets.get domain = some live := by
  rw [h.eq]
  exact Buckets.get_setBucket_self hb

theorem Swept.get_ne (h : Swept p domain [] cookies live s s') {d : Str} (hd : d ≠ domain) :
    s'.buckets.get d = s.buckets.get d := by
  rw [h.eq]
  exact Buckets.get_setBucket_ne hd

/-- `sweep_spec` for a whole bucket. -/
theorem sweep_bucket_spec (body : α → Cookie → Except Exn α) (acc : α) (hs : Consistent s)
    (hb : s.buckets.get domain = some cookies) :
    Wp (sweep p domain body acc cookies) s
      (fun acc' s' => ∃ live, Swept p domain [] cookies live s s' ∧
        live.foldlM body acc = .ok acc' ∧ ∀ c ∈ live, p.clock s.ticks ≤ c.expiryTime)
      (fun e s' => (∃ live, Swept p domain [] cookies live s s') ∧
        ∃ acc c, body acc c = .error e) :=
  sweep_spec body acc cookies [] s hs.keys hb (hs.distinct domain cookies hb)

/-! ## `get` -/

theorem foldlM_findBody {q : Query} {list list' : List Cookie}
    (h : live.foldlM (findBody p q) list = .ok list') :
    ∀ c ∈ list', c ∈ list ∨ c ∈ live ∧ selects p q c = .ok true := by
  induction live generalizing list with
  | nil =>
    cases h
    exact fun c hc => .inl hc
  | cons d live ih =>
    rw [List.foldlM_cons] at h
    obtain ⟨list₁, h₁, h₂⟩ := bind_eq_ok.1 h
    rw [findBody] at h₁
    obtain ⟨sel, hsel, h₁⟩ := bind_eq_ok.1 h₁
    intro c hc
    rcases ih h₂ c hc with hc₁ | ⟨hc₁, hsel₁⟩
    · cases sel with
      | false =>
        cases h₁
        exact .inl hc₁
      | true =>
        cases h₁
        rcases List.mem_append.1 hc₁ with hmem | hmem
        · exact .inl hmem
        · rw [List.mem_singleton] at hmem
          rw [hmem]
          exact .inr ⟨List.mem_cons_self, hsel⟩
    · exact .inr ⟨List.mem_cons_of_mem _ hc₁, hsel₁⟩

/-- The walk over the buckets of the domains finds cookies of the store that pass the
tests. -/
theorem findAll_spec (q : Query) (ds : List Str) (list : List Cookie) (s : CookieStore)
    (hs : Consistent s) :
    Wp (findAll p q list ds) s
      (fun list' s' => Shrunk p s s' ∧
        ∀ c ∈ list', c ∈ list ∨ c ∈ s.cookies ∧ selects p q c = .ok true ∧ c.domain ∈ ds)
      (fun _ s' => Shrunk p s s') := by
  induction ds generalizing list s with
  | nil =>
    rw [findAll, wp_pure]
    exact ⟨Shrunk.refl s, fun c hc => .inl hc⟩
  | cons d ds ih =>
    rw [findAll, wp_bind, wp_get]
    cases hb : s.buckets.get d with
    | none =>
      refine (ih list s hs).mono ?_ (fun _ _ h => h)
      rintro list' s' ⟨hshrunk, hlist⟩
      refine ⟨hshrunk, fun c hc => (hlist c hc).imp_right ?_⟩
      rintro ⟨hmem, hsel, hdom⟩
      exact ⟨hmem, hsel, List.mem_cons_of_mem _ hdom⟩
    | some bucket =>
      rw [wp_bind]
      refine (sweep_bucket_spec (findBody p q) list hs hb).mono ?_ ?_
      · rintro list₁ s₁ ⟨live, hswept, hfold, _⟩
        have hshrunk₁ := hswept.shrunk hs hb
        refine (ih list₁ s₁ (hs.shrunk hshrunk₁)).mono ?_ ?_
        · rintro list' s' ⟨hshrunk, hlist⟩
          refine ⟨hshrunk₁.trans hshrunk, fun c hc => ?_⟩
          rcases hlist c hc with hc₁ | ⟨hmem, hsel, hdom⟩
          · rcases foldlM_findBody hfold c hc₁ with hold | ⟨hlive, hsel⟩
            · exact .inl hold
            · have hcb : c ∈ bucket := hswept.sublist.subset hlive
              exact .inr ⟨(Buckets.mem_items hs.keys).2 ⟨d, bucket, hb, hcb⟩, hsel,
                by simp [hs.domain d bucket hb c hcb]⟩
          · exact .inr ⟨hshrunk₁.items.subset hmem, hsel, List.mem_cons_of_mem _ hdom⟩
        · intro e s' hshrunk
          exact hshrunk₁.trans hshrunk
      · rintro e s₁ ⟨⟨live, hswept⟩, _⟩
        exact hswept.shrunk hs hb

/-! The access times change no more than themselves. -/

theorem access_key (t : ℤ) (c : Cookie) : (access t c).key = c.key := rfl

theorem keys_accessAll (t : ℤ) (result : List Cookie) (s : CookieStore) :
    (accessAll t result s).buckets.keys = s.buckets.keys := Buckets.keys_mapBuckets _

theorem get_accessAll (t : ℤ) (result : List Cookie) (s : CookieStore) (d : Str) :
    (accessAll t result s).buckets.get d = (s.buckets.get d).map
      (List.map (fun c => if c ∈ result then access t c else c)) := Buckets.get_mapBuckets _

theorem cookies_accessAll (t : ℤ) (result : List Cookie) (s : CookieStore) :
    (accessAll t result s).cookies
      = s.cookies.map (fun c => if c ∈ result then access t c else c) := Buckets.items_mapBuckets _

theorem map_key_access (t : ℤ) (result bucket : List Cookie) :
    (bucket.map (fun c => if c ∈ result then access t c else c)).map Cookie.key
      = bucket.map Cookie.key := by
  rw [List.map_map]
  apply List.map_congr_left
  intro c _
  by_cases hc : c ∈ result
  · simp [hc, access_key]
  · simp [hc]

theorem Consistent.accessAll (hs : Consistent s) (t : ℤ) (result : List Cookie) :
    Consistent (accessAll t result s) where
  keys := keys_accessAll t result s ▸ hs.keys
  domain d b hb c hc := by
    rw [get_accessAll, Option.map_eq_some_iff] at hb
    obtain ⟨b₀, hb₀, rfl⟩ := hb
    obtain ⟨c₀, hc₀, rfl⟩ := List.mem_map.1 hc
    have hdom := hs.domain d b₀ hb₀ c₀ hc₀
    by_cases hmem : c₀ ∈ result
    · simpa [hmem, access] using hdom
    · simpa [hmem] using hdom
  distinct d b hb := by
    rw [get_accessAll, Option.map_eq_some_iff] at hb
    obtain ⟨b₀, hb₀, rfl⟩ := hb
    rw [map_key_access]
    exact hs.distinct d b₀ hb₀
  count := by
    rw [cookies_accessAll, List.length_map]
    exact hs.count

theorem Bounded.accessAll (hs : Bounded s) (t : ℤ) (result : List Cookie) :
    Bounded (accessAll t result s) where
  bucket d b hb := by
    rw [get_accessAll, Option.map_eq_some_iff] at hb
    obtain ⟨b₀, hb₀, rfl⟩ := hb
    rw [List.length_map]
    exact hs.bucket d b₀ hb₀
  total := hs.total

/-- What `get` leaves: the store shrunk, with the access times of some cookies set. -/
def Accessed (p : Platform) (s s' : CookieStore) : Prop :=
  ∃ t result s₁, Shrunk p s s₁ ∧ s' = accessAll t result s₁

theorem Shrunk.accessed (h : Shrunk p s s') : Accessed p s s' := by
  refine ⟨0, [], s', h, ?_⟩
  simp only [CookieStore.accessAll, List.not_mem_nil, if_false, List.map_id_fun',
    Buckets.mapBuckets_id]

/-- **What `get` returns**: cookies of the store that pass the tests of `find`, with a new
access time. -/
theorem get_spec (q : Query) (hs : Consistent s) :
    Wp (get p q) s
      (fun result s' => Accessed p s s' ∧ ∀ c ∈ result, ∃ c₀ ∈ s.cookies, ∃ t, c = access t c₀ ∧
        selects p q c₀ = .ok true ∧ c₀.domain ∈ domains q.hostname)
      (fun _ s' => Accessed p s s') := by
  rw [CookieStore.get, wp_bind]
  refine (findAll_spec q (domains q.hostname) [] s hs).mono ?_ (fun _ _ h => h.accessed)
  rintro list s₁ ⟨hshrunk, hlist⟩
  rw [wp_bind, wp_liftExcept]
  constructor
  · intro sorted hsorted
    have hperm := p.sort_perm _ _ _ hsorted
    rw [wp_bind]
    refine ⟨⟨p.clock s₁.ticks, sorted, { s₁ with ticks := s₁.ticks + 1 },
      hshrunk.trans (Shrunk.tick s₁), rfl⟩, ?_⟩
    intro c hc
    obtain ⟨c₀, hc₀, rfl⟩ := List.mem_map.1 hc
    rcases hlist c₀ (hperm.subset hc₀) with hnil | ⟨hmem, hsel, hdom⟩
    · simp at hnil
    · exact ⟨c₀, hmem, _, rfl, hsel, hdom⟩
  · intro e _
    exact hshrunk.accessed

/-- An accessed store has the cookies of the old one, up to the access times. -/
theorem Accessed.of_mem (h : Accessed p s s') {c : Cookie} (hc : c ∈ s'.cookies) :
    ∃ c₀ ∈ s.cookies, c = c₀ ∨ ∃ t, c = access t c₀ := by
  obtain ⟨t, result, s₁, hshrunk, rfl⟩ := h
  rw [cookies_accessAll] at hc
  obtain ⟨c₀, hc₀, rfl⟩ := List.mem_map.1 hc
  refine ⟨c₀, hshrunk.items.subset hc₀, ?_⟩
  by_cases hmem : c₀ ∈ result
  · exact .inr ⟨t, by simp [hmem]⟩
  · exact .inl (by simp [hmem])

theorem Consistent.accessed (hs : Consistent s) (h : Accessed p s s') : Consistent s' := by
  obtain ⟨t, result, s₁, hshrunk, rfl⟩ := h
  exact (hs.shrunk hshrunk).accessAll t result

theorem Bounded.accessed (hs : Bounded s) (h : Accessed p s s') : Bounded s' := by
  obtain ⟨t, result, s₁, hshrunk, rfl⟩ := h
  exact (hs.shrunk hshrunk).accessAll t result

theorem Accessed.purges (h : Accessed p s s') : s'.purges = s.purges := by
  obtain ⟨t, result, s₁, hshrunk, rfl⟩ := h
  exact hshrunk.purges

end CookieStore

end JavaFx.Web
