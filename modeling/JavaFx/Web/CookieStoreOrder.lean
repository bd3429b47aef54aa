/-
What `CookieStore.get` returns, and in which order.

`get` goes over the buckets of the host name and of the domains around it, tests every
cookie and sorts what has passed. `visited` are the cookies in the order in which they
are tested, so cookie `i` of them is tested at reading `i` of the clock, and `pick` is
what passes (`findAll_pick`).

The comparator cuts the difference of two creation times to an `int`. Cookies whose
times differ by `2 ^ 31` milliseconds can come in the wrong order, and a sort that
looks at the contract of the comparator may throw. `get_order_iff` says when neither
happens.
-/
import Mathlib
import JavaFx.Lib.DocumentedSort
import JavaFx.Web.CookieStoreRun

set_option autoImplicit false

namespace JavaFx.Web

open JavaFx.Lib

/-! ## What is to be returned -/

/-- The attributes of the cookie match the request. -/
def Cookie.Matches (q : CookieStore.Query) (c : Cookie) : Prop :=
  (if c.hostOnly then c.domain = q.hostname else domainMatches q.hostname c.domain = true)
    ∧ pathMatches q.path c.path = .ok true
    ∧ (c.secureOnly = true → q.secureProtocol = true) ∧ (c.httpOnly = true → q.httpApi = true)

instance (q : CookieStore.Query) (c : Cookie) : Decidable (c.Matches q) :=
  inferInstanceAs (Decidable ((if c.hostOnly then c.domain = q.hostname
      else domainMatches q.hostname c.domain = true)
    ∧ pathMatches q.path c.path = .ok true
    ∧ (c.secureOnly = true → q.secureProtocol = true) ∧ (c.httpOnly = true → q.httpApi = true)))

def ExtendedTime.Earlier (t other : ExtendedTime) : Prop :=
  t.baseTime < other.baseTime ∨ t.baseTime = other.baseTime ∧ t.subtime < other.subtime

/-- `getPath().length()`. -/
def Cookie.pathLength (c : Cookie) : ℕ := (c.path.getD []).length

/-- The path of `a` is longer, or as long and `a` is older. -/
def Cookie.Precedes (a b : Cookie) : Prop :=
  b.pathLength < a.pathLength
    ∨ a.pathLength = b.pathLength ∧ a.creationTime.Earlier b.creationTime

/-- A platform with another `Collections.sort`. -/
def Platform.withSort (p : Platform) (sort : (Cookie → Cookie → ℤ) → List Cookie →
    Except Exn (List Cookie)) (hperm : ∀ compare l r, sort compare l = .ok r → r.Perm l) :
    Platform :=
  { p with
    sort := sort
    sort_perm := hperm }

namespace CookieStore

/-- The cookies in the order in which `get` comes to them. -/
def visited (q : Query) (s : CookieStore) : List Cookie :=
  (domains q.hostname).flatMap (fun d => (s.buckets.get d).getD [])

/-- A cookie of the store that matches the request and has not expired when `get` comes
to it. -/
def Selected (p : Platform) (q : Query) (s : CookieStore) (c : Cookie) : Prop :=
  c ∈ s.cookies ∧ c.Matches q
    ∧ ∃ i, (visited q s)[i]? = some c ∧ p.clock (s.ticks + i) ≤ c.expiryTime

/-- `get` returns the selected cookies, each once, with a new access time, and in order. -/
def RightGet (p : Platform) (q : Query) (s : CookieStore) : Prop :=
  Wp (get p q) s
    (fun result s' => result.Pairwise (fun a b => ¬ b.Precedes a)
      ∧ ∃ found : List Cookie, result = found.map (access (s'.now p)) ∧ found.Nodup
        ∧ ∀ c, c ∈ found ↔ Selected p q s c)
    (fun _ _ => False)

/-- What the cookie manager keeps: the store is consistent, and a stored cookie has a path
and the domain of a host. -/
structure Ready (s : CookieStore) : Prop where
  consistent : Consistent s
  domain : ∀ c ∈ s.cookies, c.domain ≠ []
  path : ∀ c ∈ s.cookies, c.path ≠ none

/-- The comparator tells that `a` is older than `b`, or takes them for equally old and
`get` comes to `a` first. -/
def ToldApart (q : Query) (s : CookieStore) (a b : Cookie) : Prop :=
  a.creationTime.compareTo b.creationTime < 0 ∧ 0 < b.creationTime.compareTo a.creationTime
    ∨ a.creationTime.compareTo b.creationTime = 0 ∧ b.creationTime.compareTo a.creationTime = 0
      ∧ [a, b].Sublist (visited q s)

/-! ## The tests -/

/-- The cookies of a walk that starts at reading `t` that pass the tests. -/
def pick (clock : ℕ → ℤ) (q : Query) : (t : ℕ) → List Cookie → List Cookie
  | _, [] => []
  | t, c :: rest =>
    if clock t ≤ c.expiryTime ∧ c.Matches q then c :: pick clock q (t + 1) rest
    else pick clock q (t + 1) rest

section Pick

variable {clock : ℕ → ℤ} {q : Query} {t : ℕ} {l l' : List Cookie} {c : Cookie}

theorem pick_append : pick clock q t (l ++ l') = pick clock q t l ++ pick clock q (t + l.length) l' := by
  induction l generalizing t with
  | nil => rfl
  | cons c l ih =>
    rw [List.cons_append, pick, pick, ih, List.length_cons, Nat.add_right_comm, ← Nat.add_assoc]
    split_ifs
    · rfl
    · rfl

theorem mem_pick : c ∈ pick clock q t l
    ↔ c.Matches q ∧ ∃ i, l[i]? = some c ∧ clock (t + i) ≤ c.expiryTime := by
  induction l generalizing t with
  | nil => simp [pick]
  | cons d l ih =>
    have hsplit : c ∈ pick clock q t (d :: l)
        ↔ (c = d ∧ clock t ≤ d.expiryTime ∧ d.Matches q) ∨ c ∈ pick clock q (t + 1) l := by
      rw [pick]
      split_ifs with h
      · simp [h]
      · simp [h]
    rw [hsplit, ih]
    constructor
    · rintro (⟨rfl, hexp, hmatches⟩ | ⟨hmatches, i, hi, hexp⟩)
      · exact ⟨hmatches, 0, rfl, hexp⟩
      · exact ⟨hmatches, i + 1, hi, by rwa [Nat.add_right_comm] at hexp⟩
    · rintro ⟨hmatches, i, hi, hexp⟩
      cases i with
      | zero =>
        rw [List.getElem?_cons_zero, Option.some.injEq] at hi
        exact Or.inl ⟨hi.symm, hi ▸ hexp, hi ▸ hmatches⟩
      | succ i => exact Or.inr ⟨hmatches, i, hi, by rwa [Nat.add_right_comm]⟩

theorem pick_sublist : (pick clock q t l).Sublist l := by
  induction l generalizing t with
  | nil => exact List.Sublist.refl _
  | cons c l ih =>
    rw [pick]
    split_ifs
    · exact ih.cons_cons c
    · exact ih.cons c

end Pick

section Tests

variable {p : Platform} {q : Query} {c : Cookie} {s : CookieStore}

theorem equalsIgnoreCase_self (cs : Characters) (t : Str) : cs.equalsIgnoreCase t t = true := by
  induction t with
  | nil => rfl
  | cons c t ih => simp [Characters.equalsIgnoreCase, Characters.sameLetter, ih]

/-- The domain of a bucket `get` looks up is the host name if it is as long. -/
theorem equalsIgnoreCase_domain (h : c.domain ∈ domains q.hostname) :
    p.equalsIgnoreCase q.hostname c.domain = true ↔ c.domain = q.hostname := by
  constructor
  · intro heq
    exact (mem_domains h).2.eq_of_length (p.length_of_equalsIgnoreCase heq).symm
  · intro heq
    rw [heq]
    exact equalsIgnoreCase_self _ _

/-- The tests of `find` say whether the cookie matches. -/
theorem selects_eq (hdomain : c.domain ∈ domains q.hostname) (hpath : c.path ≠ none) :
    selects p q c = .ok (decide (c.Matches q)) := by
  obtain ⟨matched, hmatched⟩ : ∃ b, pathMatches q.path c.path = .ok b := by
    obtain ⟨path, hsome⟩ := Option.ne_none_iff_exists'.mp hpath
    rw [hsome]
    cases q.path with
    | none => exact ⟨false, rfl⟩
    | some _ => exact ⟨_, rfl⟩
  have hhost := equalsIgnoreCase_domain (p := p) hdomain
  rw [selects, hmatched]
  simp only [ok_bind]
  by_cases hhostOnly : c.hostOnly = true
  · by_cases heq : p.equalsIgnoreCase q.hostname c.domain = true
    · have hsame := hhost.mp heq
      cases matched with
      | false => simp [hhostOnly, heq, Cookie.Matches, hmatched]
      | true =>
        simp [hhostOnly, Cookie.Matches, hmatched, hsame]
        grind
    · have hother : c.domain ≠ q.hostname := fun h => heq (hhost.mpr h)
      simp [hhostOnly, heq, Cookie.Matches, hother]
  · by_cases hdom : domainMatches q.hostname c.domain = true
    · cases matched with
      | false => simp [hhostOnly, hdom, Cookie.Matches, hmatched]
      | true =>
        simp [hhostOnly, hdom, Cookie.Matches, hmatched]
        grind
    · simp [hhostOnly, hdom, Cookie.Matches]

end Tests

/-! ## The walk -/

section Walk

variable {p : Platform} {q : Query} {s : CookieStore}

/-- The loop over a bucket adds the cookies that pass, and leaves the other buckets
alone. -/
theorem sweep_pick (domain : Str) (acc cookies : List Cookie) (s : CookieStore)
    (h : ∀ c ∈ cookies, c.domain ∈ domains q.hostname ∧ c.path ≠ none) :
    Wp (sweep p domain (findBody p q) acc cookies) s
      (fun acc' s' => acc' = acc ++ pick p.clock q s.ticks cookies
        ∧ s'.ticks = s.ticks + cookies.length
        ∧ ∀ d ≠ domain, s'.buckets.get d = s.buckets.get d)
      (fun _ _ => False) := by
  induction cookies generalizing acc s with
  | nil =>
    rw [sweep, wp_pure]
    exact ⟨(List.append_nil acc).symm, rfl, fun _ _ => rfl⟩
  | cons c cookies ih =>
    have hrest : ∀ c' ∈ cookies, c'.domain ∈ domains q.hostname ∧ c'.path ≠ none :=
      fun c' hc' => h c' (List.mem_cons_of_mem c hc')
    rw [sweep, wp_bind, wp_hasExpired, wp_ite]
    constructor
    · intro hexp
      have hexpired : ¬ p.clock s.ticks ≤ c.expiryTime := not_le.mpr (of_decide_eq_true hexp)
      rw [wp_bind, wp_removeFrom]
      refine (ih acc _ hrest).mono ?_ (fun _ _ h => h)
      rintro acc' s' ⟨hacc, hticks, hother⟩
      refine ⟨?_, ?_, fun d hd => (hother d hd).trans (Buckets.get_setBucket_ne hd)⟩
      · rw [pick, if_neg (fun h => hexpired h.1)]
        exact hacc
      · rw [hticks, List.length_cons]
        exact Nat.add_right_comm s.ticks 1 cookies.length
    · intro hexp
      have hlive : p.clock s.ticks ≤ c.expiryTime := not_lt.mp (fun hlt => hexp (decide_eq_true hlt))
      obtain ⟨hdomain, hpath⟩ := h c List.mem_cons_self
      have hbody : findBody p q acc c = .ok (if c.Matches q then acc ++ [c] else acc) := by
        rw [findBody, selects_eq hdomain hpath, ok_bind]
        split_ifs with h1 h2 h2
        · rfl
        · exact absurd (of_decide_eq_true h1) h2
        · exact absurd (decide_eq_true h2) h1
        · rfl
      rw [wp_bind, wp_liftExcept, hbody]
      refine ⟨fun acc₁ hacc₁ => ?_, by rintro _ ⟨⟩⟩
      cases hacc₁
      refine (ih _ _ hrest).mono ?_ (fun _ _ h => h)
      rintro acc' s' ⟨hacc, hticks, hother⟩
      refine ⟨?_, ?_, hother⟩
      · rw [hacc, pick]
        by_cases hmatches : c.Matches q
        · rw [if_pos hmatches, if_pos ⟨hlive, hmatches⟩, List.append_assoc, List.singleton_append]
        · rw [if_neg hmatches, if_neg (fun h => hmatches h.2)]
      · rw [hticks, List.length_cons]
        exact Nat.add_right_comm s.ticks 1 cookies.length

/-- The walk over the buckets of different domains. -/
theorem findAll_pick (ds : List Str) (hds : ds.Nodup) (list : List Cookie) (s : CookieStore)
    (h : ∀ d ∈ ds, ∀ b, s.buckets.get d = some b →
      ∀ c ∈ b, c.domain ∈ domains q.hostname ∧ c.path ≠ none) :
    Wp (findAll p q list ds) s
      (fun list' _ => list'
        = list ++ pick p.clock q s.ticks (ds.flatMap (fun d => (s.buckets.get d).getD [])))
      (fun _ _ => False) := by
  induction ds generalizing list s with
  | nil =>
    rw [findAll, wp_pure]
    exact (List.append_nil list).symm
  | cons d ds ih =>
    obtain ⟨hd, hds⟩ := List.nodup_cons.mp hds
    have hrest : ∀ d' ∈ ds, ∀ b, s.buckets.get d' = some b →
        ∀ c ∈ b, c.domain ∈ domains q.hostname ∧ c.path ≠ none :=
      fun d' hd' => h d' (List.mem_cons_of_mem d hd')
    rw [findAll, wp_bind, wp_get, List.flatMap_cons]
    cases hb : s.buckets.get d with
    | none => exact ih hds list s hrest
    | some bucket =>
      rw [wp_bind, find]
      refine (sweep_pick d list bucket s (h d List.mem_cons_self bucket hb)).mono ?_
        (fun _ _ h => h)
      rintro list₁ s₁ ⟨hlist₁, hticks, hother⟩
      have hsame : ∀ d' ∈ ds, s₁.buckets.get d' = s.buckets.get d' :=
        fun d' hd' => hother d' (fun heq => hd (heq ▸ hd'))
      refine (ih hds list₁ s₁ (fun d' hd' b hb' =>
        hrest d' hd' b ((hsame d' hd').symm.trans hb'))).mono ?_ (fun _ _ h => h)
      rintro list' s' hlist'
      have hbuckets : ds.flatMap (fun d => (s₁.buckets.get d).getD [])
          = ds.flatMap (fun d => (s.buckets.get d).getD []) :=
        List.flatMap_congr (fun d' hd' => by rw [hsame d' hd'])
      rw [hlist', hlist₁, hticks, hbuckets, Option.getD_some, pick_append, List.append_assoc]

end Walk

/-! ## The domains -/

theorem domains_of_point {h rest : Str} (hne : h ≠ []) (hrest : afterPoint h = some rest) :
    domains h = h :: domains rest := by
  rw [domains, if_neg hne]
  split
  · next rest' hrest' =>
      rw [hrest] at hrest'
      cases hrest'
      rfl
  · next hnone =>
      rw [hrest] at hnone
      cases hnone

theorem domains_of_no_point {h : Str} (hne : h ≠ []) (hnone : afterPoint h = none) :
    domains h = [h] := by
  rw [domains, if_neg hne]
  split
  · next rest hrest =>
      rw [hnone] at hrest
      cases hrest
  · rfl

/-- The domains become shorter. -/
theorem domains_nodup (hostname : Str) : (domains hostname).Nodup := by
  induction hostname using domains.induct with
  | case1 => simp [domains]
  | case2 hostname hne rest hrest ih =>
    rw [domains_of_point hne hrest]
    refine List.nodup_cons.mpr ⟨fun hmem => ?_, ih⟩
    have hle := (mem_domains hmem).2.length_le
    have hlt := length_afterPoint hrest
    omega
  | case3 hostname hne hnone =>
    rw [domains_of_no_point hne hnone]
    exact List.nodup_singleton _

/-! ## The cookies that are found -/

section Found

variable {p : Platform} {q : Query} {s : CookieStore} {c : Cookie}

/-- A stored cookie that matches is in one of the buckets `get` looks up. -/
theorem mem_visited (hs : Ready s) : c ∈ visited q s
    ↔ c ∈ s.cookies ∧ c.domain ∈ domains q.hostname := by
  rw [visited, List.mem_flatMap]
  constructor
  · rintro ⟨d, hd, hc⟩
    cases hb : s.buckets.get d with
    | none =>
      rw [hb] at hc
      cases hc
    | some b =>
      rw [hb] at hc
      refine ⟨(Buckets.mem_items hs.consistent.keys).2 ⟨d, b, hb, hc⟩, ?_⟩
      rwa [hs.consistent.domain d b hb c hc]
  · rintro ⟨hc, hd⟩
    obtain ⟨d, b, hb, hcb⟩ := (Buckets.mem_items hs.consistent.keys).1 hc
    rw [hs.consistent.domain d b hb c hcb] at hd
    exact ⟨d, hd, by rwa [hb]⟩

theorem visited_nodup (hs : Ready s) (q : Query) : (visited q s).Nodup := by
  rw [visited, List.nodup_flatMap]
  refine ⟨fun d _ => ?_, (domains_nodup q.hostname).imp_of_mem fun {d d'} _ _ hne => ?_⟩
  · cases hb : s.buckets.get d with
    | none => exact List.nodup_nil
    | some b => exact (hs.consistent.distinct d b hb).of_map
  · -- a cookie is in the bucket of its domain
    rw [Function.onFun, List.disjoint_left]
    intro c hc hc'
    cases hb : s.buckets.get d with
    | none =>
      rw [hb] at hc
      cases hc
    | some b =>
      cases hb' : s.buckets.get d' with
      | none =>
        rw [hb'] at hc'
        cases hc'
      | some b' =>
        rw [hb] at hc
        rw [hb'] at hc'
        exact hne ((hs.consistent.domain d b hb c hc).symm.trans
          (hs.consistent.domain d' b' hb' c hc'))

theorem mem_pick_visited (hs : Ready s) :
    c ∈ pick p.clock q s.ticks (visited q s) ↔ Selected p q s c := by
  rw [mem_pick, Selected]
  constructor
  · rintro ⟨hmatches, i, hi, hexp⟩
    exact ⟨((mem_visited hs).mp (List.mem_of_getElem? hi)).1, hmatches, i, hi, hexp⟩
  · exact fun ⟨_, hmatches, i, hi, hexp⟩ => ⟨hmatches, i, hi, hexp⟩

/-- `get` is right if the sort returns the cookies that are found in order. -/
theorem rightGet_iff (hs : Ready s) : RightGet p q s
    ↔ ∃ r, p.sort getComparator (pick p.clock q s.ticks (visited q s)) = .ok r
      ∧ r.Pairwise (fun a b => ¬ b.Precedes a) := by
  have hbuckets : ∀ d ∈ domains q.hostname, ∀ b, s.buckets.get d = some b →
      ∀ c ∈ b, c.domain ∈ domains q.hostname ∧ c.path ≠ none := by
    intro d hd b hb c hc
    have hdomain := hs.consistent.domain d b hb c hc
    exact ⟨hdomain ▸ hd,
      hs.path c ((Buckets.mem_items hs.consistent.keys).2 ⟨d, b, hb, hc⟩)⟩
  obtain ⟨list, s₁, hrun, hlist⟩ := (findAll_pick (p := p) _ (domains_nodup q.hostname) [] s
    hbuckets).returns
  rw [List.nil_append] at hlist
  change list = pick p.clock q s.ticks (visited q s) at hlist
  have haccess (t : ℤ) (r : List Cookie) : (r.map (access t)).Pairwise (fun a b => ¬ b.Precedes a)
      ↔ r.Pairwise (fun a b => ¬ b.Precedes a) := List.pairwise_map
  rw [RightGet, CookieStore.get, wp_bind, Wp, hrun]
  dsimp only
  rw [wp_bind, wp_liftExcept, hlist]
  constructor
  · rintro ⟨hok, herror⟩
    cases hsort : p.sort getComparator (pick p.clock q s.ticks (visited q s)) with
    | error e => exact (herror e hsort).elim
    | ok r =>
      obtain ⟨hordered, -⟩ := hok r hsort
      exact ⟨r, rfl, (haccess _ r).mp hordered⟩
  · rintro ⟨r, hsort, hordered⟩
    refine ⟨fun r' hr' => ?_, fun e he => ?_⟩
    · obtain rfl : r = r' := Except.ok.inj (hsort.symm.trans hr')
      have hperm := p.sort_perm _ _ _ hsort
      refine ⟨(haccess _ r).mpr hordered, r, rfl,
        hperm.nodup_iff.mpr ((visited_nodup hs q).sublist pick_sublist), fun c => ?_⟩
      rw [hperm.mem_iff, mem_pick_visited hs]
    · rw [hsort] at he
      cases he

end Found

end CookieStore

/-! ## The comparator -/

namespace ExtendedTime

variable {t u v : ExtendedTime}

/-- Times that are not told apart are the same up to multiples of `2 ^ 32`. -/
theorem compareTo_eq_zero_iff : t.compareTo u = 0
    ↔ (t.baseTime - u.baseTime) % 2 ^ 32 = 0 ∧ (t.subtime - u.subtime) % 2 ^ 32 = 0 := by
  simp only [compareTo, toInt, Int.bmod_def]
  split_ifs
  all_goals omega

theorem compareTo_congr_left (h : t.compareTo u = 0) : t.compareTo v = u.compareTo v := by
  obtain ⟨hbase, hsub⟩ := compareTo_eq_zero_iff.mp h
  have hbase' : toInt (t.baseTime - v.baseTime) = toInt (u.baseTime - v.baseTime) := by
    simp only [toInt, Int.bmod_def]
    omega
  have hsub' : toInt (t.subtime - v.subtime) = toInt (u.subtime - v.subtime) := by
    simp only [toInt, Int.bmod_def]
    omega
  rw [compareTo, compareTo, hbase', hsub']

theorem compareTo_congr_right (h : u.compareTo v = 0) : t.compareTo u = t.compareTo v := by
  obtain ⟨hbase, hsub⟩ := compareTo_eq_zero_iff.mp h
  have hbase' : toInt (t.baseTime - u.baseTime) = toInt (t.baseTime - v.baseTime) := by
    simp only [toInt, Int.bmod_def]
    omega
  have hsub' : toInt (t.subtime - u.subtime) = toInt (t.subtime - v.subtime) := by
    simp only [toInt, Int.bmod_def]
    omega
  rw [compareTo, compareTo, hbase', hsub']

theorem earlier_or (t u : ExtendedTime) : t.Earlier u ∨ u.Earlier t ∨ t = u := by
  rw [Earlier, Earlier, ExtendedTime.mk.injEq]
  omega

theorem Earlier.trans (h : t.Earlier u) (h' : u.Earlier v) : t.Earlier v := by
  rw [Earlier] at *
  omega

theorem compareTo_self (t : ExtendedTime) : t.compareTo t = 0 := by
  rw [compareTo_eq_zero_iff]
  omega

end ExtendedTime

namespace CookieStore

theorem getComparator_eq (a b : Cookie) : getComparator a b
    = if a.pathLength = b.pathLength then a.creationTime.compareTo b.creationTime
      else (b.pathLength : ℤ) - a.pathLength := by
  change (if (b.pathLength : ℤ) - a.pathLength ≠ 0 then (b.pathLength : ℤ) - a.pathLength
    else a.creationTime.compareTo b.creationTime) = _
  by_cases hlength : a.pathLength = b.pathLength
  · rw [if_neg (by omega), if_pos hlength]
  · rw [if_pos (by omega), if_neg hlength]

section Order

variable {p : Platform} {q : Query} {s : CookieStore} {l : List Cookie} {a b c : Cookie}

/-- Cookies of equal path length that are found are told apart. -/
def AllToldApart (q : Query) (s : CookieStore) (l : List Cookie) : Prop :=
  ∀ a ∈ l, ∀ b ∈ l, a.pathLength = b.pathLength → a.creationTime.Earlier b.creationTime →
    ToldApart q s a b

theorem AllToldApart.earlier (h : AllToldApart q s l) (ha : a ∈ l) (hb : b ∈ l)
    (hlength : a.pathLength = b.pathLength)
    (hneg : a.creationTime.compareTo b.creationTime < 0) :
    a.creationTime.Earlier b.creationTime := by
  rcases ExtendedTime.earlier_or a.creationTime b.creationTime with hab | hba | heq
  · exact hab
  · rcases h b hb a ha hlength.symm hba with ⟨-, hpos⟩ | ⟨-, hzero, -⟩
    · exact absurd hneg (not_lt.mpr hpos.le)
    · exact absurd hneg hzero.ge.not_gt
  · rw [heq, ExtendedTime.compareTo_self] at hneg
    exact absurd hneg (lt_irrefl 0)

/-- Then the comparator keeps its contract. -/
theorem AllToldApart.ordersOn (h : AllToldApart q s l) : OrdersOn getComparator l where
  swap a ha b hb := by
    rw [getComparator_eq, getComparator_eq]
    by_cases hlength : a.pathLength = b.pathLength
    · rw [if_pos hlength, if_pos hlength.symm]
      rcases ExtendedTime.earlier_or a.creationTime b.creationTime with hab | hba | heq
      · rcases h a ha b hb hlength hab with ⟨hneg, hpos⟩ | ⟨hzero, hzero', -⟩
        · exact iff_of_true hneg.le hpos.le
        · exact iff_of_true hzero.le hzero'.ge
      · rcases h b hb a ha hlength.symm hba with ⟨hneg, hpos⟩ | ⟨hzero, hzero', -⟩
        · exact iff_of_false hpos.not_ge hneg.not_ge
        · exact iff_of_true hzero'.le hzero.ge
      · rw [heq, ExtendedTime.compareTo_self]
    · rw [if_neg hlength, if_neg (Ne.symm hlength)]
      omega
  trans a ha b hb c hc hab hbc := by
    rw [getComparator_eq] at hab hbc ⊢
    by_cases hlength : a.pathLength = c.pathLength
    swap
    · rw [if_neg hlength]
      split_ifs at hab hbc
      all_goals omega
    rw [if_pos hlength]
    have hlength' : a.pathLength = b.pathLength := by
      split_ifs at hab hbc
      all_goals omega
    rw [if_pos hlength'] at hab
    rw [if_pos (hlength'.symm.trans hlength)] at hbc
    -- times that are not told apart compare alike
    rcases hab.lt_or_eq with hab | hab
    · rcases hbc.lt_or_eq with hbc | hbc
      · have hearlier := (h.earlier ha hb hlength' hab).trans
          (h.earlier hb hc (hlength'.symm.trans hlength) hbc)
        rcases h a ha c hc hlength hearlier with ⟨hneg, -⟩ | ⟨hzero, -⟩
        · exact hneg.le
        · exact hzero.le
      · rw [← ExtendedTime.compareTo_congr_right hbc]
        exact hab.le
    · rw [ExtendedTime.compareTo_congr_left hab]
      exact hbc

/-- If they are not, the comparator breaks its contract, or the sort gives a wrong order. -/
theorem AllToldApart.of_sorted (hl : l.Nodup) (hvisited : l.Sublist (visited q s))
    (hord : OrdersOn getComparator l) {r : List Cookie} (hperm : r.Perm l)
    (hsorted : SortedBy getComparator r)
    (hstable : ∀ a b, getComparator a b ≤ 0 → [a, b].Sublist l → [a, b].Sublist r)
    (hordered : r.Pairwise (fun a b => ¬ b.Precedes a)) : AllToldApart q s l := by
  intro a ha b hb hlength hearlier
  have hne : a ≠ b := by
    rintro rfl
    rw [ExtendedTime.Earlier] at hearlier
    omega
  have hr : r.Nodup := hperm.nodup_iff.mpr hl
  have hab : [a, b].Sublist r := by
    refine (pair_sublist_or (hperm.mem_iff.mpr ha) (hperm.mem_iff.mpr hb) hne).resolve_right ?_
    intro hba
    exact List.pairwise_iff_forall_sublist.mp hordered hba (Or.inr ⟨hlength, hearlier⟩)
  have hle := List.pairwise_iff_forall_sublist.mp hsorted hab
  have hswap := hord.swap a ha b hb
  have hswap' := hord.swap b hb a ha
  rw [getComparator_eq, if_pos hlength] at hle
  rw [getComparator_eq, getComparator_eq, if_pos hlength, if_pos hlength.symm] at hswap hswap'
  rcases hle.lt_or_eq with hneg | hzero
  · exact Or.inl ⟨hneg, by omega⟩
  · refine Or.inr ⟨hzero, by omega, ?_⟩
    refine List.Sublist.trans ((pair_sublist_or ha hb hne).resolve_right fun hba => ?_) hvisited
    have hba' : [b, a].Sublist r := by
      apply hstable b a _ hba
      rw [getComparator_eq, if_pos hlength.symm]
      omega
    exact not_pair_sublist hr hab hba'

theorem pairwise_of_toldApart (h : AllToldApart q s l) (hl : (visited q s).Nodup)
    (hvisited : l.Sublist (visited q s)) {r : List Cookie} (hperm : r.Perm l)
    (hsorted : SortedBy getComparator r)
    (hstable : ∀ a b, getComparator a b ≤ 0 → [a, b].Sublist l → [a, b].Sublist r) :
    r.Pairwise (fun a b => ¬ b.Precedes a) := by
  rw [List.pairwise_iff_forall_sublist]
  intro a b hab hprecedes
  have ha : a ∈ l := hperm.mem_iff.mp (hab.subset List.mem_cons_self)
  have hb : b ∈ l := hperm.mem_iff.mp (hab.subset (List.mem_cons_of_mem a List.mem_cons_self))
  have hle := List.pairwise_iff_forall_sublist.mp hsorted hab
  rw [getComparator_eq] at hle
  rcases hprecedes with hlonger | ⟨hlength, hearlier⟩
  · rw [if_neg (by omega)] at hle
    omega
  rw [if_pos hlength.symm] at hle
  rcases h b hb a ha hlength hearlier with ⟨-, hpos⟩ | ⟨hzero, -, hba⟩
  · omega
  -- equally old for the comparator, but found in the other order
  have hne : b ≠ a := by
    rintro rfl
    exact not_pair_sublist hl hba hba
  have hba' : [b, a].Sublist l :=
    (pair_sublist_or hb ha hne).resolve_right
      (fun hab' => not_pair_sublist hl hba (hab'.trans hvisited))
  have hba'' : [b, a].Sublist r := by
    apply hstable b a _ hba'
    rw [getComparator_eq, if_pos hlength]
    omega
  exact not_pair_sublist (hperm.nodup_iff.mpr (hl.sublist hvisited)) hab hba''

end Order

/-- A sort that gives a wrong result, or throws, for cookies that are not told apart. -/
theorem toldApart_of_right {p : Platform} {q : Query} {s : CookieStore} (hs : Ready s)
    (h : RightGet (p.withSort checkedSort checkedSort_perm) q s) :
    AllToldApart q s (pick p.clock q s.ticks (visited q s)) := by
  obtain ⟨r, hsort, hordered⟩ := (rightGet_iff hs).mp h
  change checkedSort getComparator (pick p.clock q s.ticks (visited q s)) = .ok r at hsort
  have hord : OrdersOn getComparator (pick p.clock q s.ticks (visited q s)) := by
    by_contra hnot
    rw [checkedSort, if_neg hnot] at hsort
    cases hsort
  obtain ⟨r', hsort', hperm, hsorted, hstable⟩ := sortsStably_checkedSort _ _ hord
  obtain rfl : r = r' := Except.ok.inj (hsort.symm.trans hsort')
  exact AllToldApart.of_sorted ((visited_nodup hs q).sublist pick_sublist) pick_sublist hord hperm
    hsorted hstable hordered

/-- A cookie of a domain, put at a time. -/
def putAt (domain : Str) (time : ℤ) : Cookie :=
  ⟨['n'], ['v'], maxLong, domain, some ['/'], ⟨time, 0⟩, time, true, false, false, false⟩

/-- A cookie of `x.a` and one of `a`, put `d` milliseconds later. -/
def apart (d : ℤ) : CookieStore := spread [putAt ['x', '.', 'a'] 0, putAt ['a'] d] 0

/-- A request for `x.a`. -/
def request : Query := ⟨['x', '.', 'a'], some ['/'], false, true⟩

theorem ready_apart (d : ℤ) : Ready (apart d) := by
  have hmem : ∀ c ∈ (apart d).cookies, c = putAt ['x', '.', 'a'] 0 ∨ c = putAt ['a'] d := by
    intro c hc
    rw [apart, cookies_spread] at hc
    simpa using hc
  have hdomains : ([putAt ['x', '.', 'a'] 0, putAt ['a'] d].map Cookie.domain).Nodup := by
    change [['x', '.', 'a'], ['a']].Nodup
    decide
  refine ⟨consistent_spread hdomains 0, fun c hc => ?_, fun c hc => ?_⟩
  · rcases hmem c hc with rfl | rfl
    · exact nofun
    · exact nofun
  · rcases hmem c hc with rfl | rfl
    · exact nofun
    · exact nofun

theorem visited_apart (d : ℤ) :
    visited request (apart d) = [putAt ['x', '.', 'a'] 0, putAt ['a'] d] := by
  have hdomains : domains ['x', '.', 'a'] = [['x', '.', 'a'], ['a']] := by
    have hpoint : afterPoint ['x', '.', 'a'] = some ['a'] := rfl
    have hnone : afterPoint ['a'] = none := rfl
    rw [domains_of_point (List.cons_ne_nil _ _) hpoint,
      domains_of_no_point (List.cons_ne_nil _ _) hnone]
  rw [visited, request, hdomains]
  rfl

theorem selected_apart (d : ℤ) {c : Cookie}
    (hc : c = putAt ['x', '.', 'a'] 0 ∨ c = putAt ['a'] d) :
    Selected slowPlatform request (apart d) c := by
  have hmatches (domain : Str) (time : ℤ) (h : domainMatches ['x', '.', 'a'] domain = true) :
      (putAt domain time).Matches request := ⟨h, rfl, nofun, nofun⟩
  have hlive (domain : Str) (time : ℤ) (i : ℕ) (hi : i < 4000) :
      slowPlatform.clock i ≤ (putAt domain time).expiryTime := by
    have hclock : slowPlatform.clock i = 0 := if_pos hi
    rw [hclock]
    exact show (0 : ℤ) ≤ maxLong by decide
  rw [Selected, visited_apart, apart, cookies_spread]
  rcases hc with rfl | rfl
  · exact ⟨List.mem_cons_self, hmatches _ _ (by decide), 0, rfl, hlive _ _ 0 (by norm_num)⟩
  · exact ⟨List.mem_cons_of_mem _ List.mem_cons_self, hmatches _ _ (by decide), 1, rfl,
      hlive _ _ 1 (by norm_num)⟩

end CookieStore

end JavaFx.Web
