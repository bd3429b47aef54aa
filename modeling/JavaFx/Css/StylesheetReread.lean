/-
A stylesheet is read back from what was written of it.

A rule comes back with its declarations serialized: that they are decoded to what was
written is a statement about its bytes and the strings they are decoded with, so
`Restores` says of what is written that it is read back as something of which `P`
holds.
-/
import JavaFx.Css.SelectorReread

set_option autoImplicit false

namespace JavaFx.Css

open JavaFx.Lib

/-! ## Reading with as much fuel as there are bytes -/

theorem Writes.withFuel {α : Type} {w : Writer PUnit} {r : ℕ → StringStore → Reader α} {a : α}
    (h : Writes w r a) : Writes w (fun _ strings => withFuel r strings) a := by
  intro out out' hrun
  obtain ⟨bytes, hbytes, hpre, hnodup, hreads⟩ := h out out' hrun
  refine ⟨bytes, hbytes, hpre, hnodup, fun _ strings hall hsize _ => ?_⟩
  intro rest
  have hfuel : bytes.length < (bytes ++ rest).length + 1 := by
    rw [List.length_append]
    omega
  exact hreads _ strings hall hsize hfuel rest

/-! ## Declarations -/

theorem writes_declaration (d : Declaration) (h : d.parsedValue.Fits) :
    Writes d.writeBinary (fun _ => Declaration.readBinary) d.reread := by
  refine (writes_stringShort _).bind ((d.parsedValue.writes h).withFuel.bind ?_)
  exact (writes_emit (reads_boolean _)).map (fun _ _ => rfl)

/-! ## Font faces -/

theorem reads_typeOf (type : FontFaceSrcType) : typeOf (some type.name) = pure (some type) := by
  cases type <;> rfl

theorem writes_fontFaceSrc (s : FontFaceSrc) :
    Writes s.writeBinary (fun _ => readFontFaceSrc) s := by
  obtain ⟨type, src, format⟩ := s
  cases type with
  | none => exact writes_throw _
  | some type =>
    refine (writes_stringInt _).bind ?_
    simp only [reads_typeOf, pure_bind]
    exact (writes_stringInt _).bind ((writes_stringInt _).map (fun _ _ => rfl))

theorem writes_entry (entry : Option String × Option String) :
    Writes (do
        writeStringInt entry.1
        writeStringInt entry.2) (fun _ => readEntry) entry :=
  (writes_stringInt _).bind ((writes_stringInt _).map (fun _ _ => rfl))

/-- A count that is not negative. -/
theorem reads_capacity {n : ℕ} (h : n < 2 ^ 15) : Reads readCapacity (writeShort n) n := by
  refine (reads_short_nat h).bind_pure ?_
  rw [if_neg (by omega), Int.toNat_natCast]
  exact Reads.pure n

/-- Entries with different keys are all kept. -/
theorem StringMap.foldl_put {l : List (Option String × Option String)} (m : StringMap)
    (h : ((m.entries ++ l).map Prod.fst).Nodup) :
    (l.foldl (fun m p => m.put p.1 p.2) m).entries = m.entries ++ l := by
  induction l generalizing m with
  | nil => rw [List.foldl_nil, List.append_nil]
  | cons p l ih =>
    have hnew : p.1 ∉ m.entries.map Prod.fst := by
      rw [List.map_append, List.map_cons] at h
      intro hmem
      exact (List.nodup_append.mp h).2.2 _ hmem _ List.mem_cons_self rfl
    have hput : (m.put p.1 p.2).entries = m.entries ++ [p] := by rw [put, dif_neg hnew]
    rw [List.foldl_cons, ih, hput, List.append_assoc, List.singleton_append]
    rwa [hput, List.append_assoc, List.singleton_append]

theorem StringMap.eq_of_entries {m m' : StringMap} (h : m.entries = m'.entries) : m = m' := by
  cases m
  cases m'
  simpa using h

theorem StringMap.foldl_put_empty (m : StringMap) :
    m.entries.foldl (fun m p => m.put p.1 p.2) .empty = m :=
  StringMap.eq_of_entries (StringMap.foldl_put .empty m.nodup)

/-- The counts of a font face fit. -/
def FontFace.Fits (f : FontFace) : Prop :=
  f.entrySet.length < 2 ^ 15 ∧ (f.sources.getD []).length < 2 ^ 15

theorem writes_fontFace (f : FontFace) (h : f.Fits) :
    Writes f.writeBinary (fun _ => readFontFace) f.reread := by
  have hentries := writes_forM (r := fun _ => readEntry) f.entrySet (f := id)
    (fun entry _ => writes_entry entry)
  have hsources := writes_forM (r := fun _ => readFontFaceSrc) (f.sources.getD []) (f := id)
    (fun s _ => writes_fontFaceSrc s)
  rw [List.map_id] at hentries hsources
  have hmap : f.entrySet.foldl (fun m p => m.put p.1 p.2) .empty = f.descriptors.getD .empty := by
    rw [FontFace.entrySet]
    cases f.descriptors with
    | none => rfl
    | some m => exact m.foldl_put_empty
  refine (writes_emit (reads_capacity h.1)).bind (hentries.bind
    ((writes_emit (reads_capacity h.2)).bind (hsources.map (fun _ _ => ?_))))
  rw [hmap, FontFace.reread]

/-! ## Rules -/

/-- What `w` writes, `r` reads back as something of which `P` holds, with the strings
that are at hand. -/
def Restores {α : Type} (w : Writer PUnit) (r : StringStore → Reader α) (P : StringStore → α → Prop) :
    Prop :=
  ∀ out out', w.run out = .ok (⟨⟩, out') →
    ∃ bytes, out'.bytes = out.bytes ++ bytes ∧ out.strings <+: out'.strings
      ∧ (out.strings.Nodup → out'.strings.Nodup)
      ∧ ∀ strings, out'.strings <+: strings → strings.length < 2 ^ 15 →
          ∃ a, P strings a ∧ Reads (r strings) bytes a

section Restores

variable {α β γ : Type} {w w' : Writer PUnit} {P : StringStore → α → Prop}
  {Q : StringStore → β → Prop}

theorem Writes.restores {r : StringStore → Reader α} {a : α} (h : Writes w (fun _ => r) a)
    (hP : ∀ strings, P strings a) : Restores w r P := by
  intro out out' hrun
  obtain ⟨bytes, hbytes, hpre, hnodup, hreads⟩ := h out out' hrun
  exact ⟨bytes, hbytes, hpre, hnodup, fun strings hall hsize =>
    ⟨a, hP strings, hreads (bytes.length + 1) strings hall hsize (by omega)⟩⟩

theorem Writes.bind_restores {r : StringStore → Reader α} {a : α} (hw : Writes w (fun _ => r) a)
    {f : StringStore → α → Reader β} (hw' : Restores w' (fun strings => f strings a) Q) :
    Restores (w >>= fun _ => w') (fun strings => r strings >>= f strings) Q := by
  intro out out' hrun
  rw [StateT.run_bind] at hrun
  cases hfirst : w.run out with
  | error e =>
    rw [hfirst] at hrun
    exact nomatch hrun
  | ok p =>
    rw [hfirst] at hrun
    obtain ⟨bytes, hbytes, hpre, hnodup, hreads⟩ := hw out p.2 hfirst
    obtain ⟨bytes', hbytes', hpre', hnodup', hreads'⟩ := hw' p.2 out' hrun
    refine ⟨bytes ++ bytes', ?_, hpre.trans hpre', hnodup' ∘ hnodup, ?_⟩
    · rw [hbytes', hbytes, List.append_assoc]
    · intro strings hall hsize
      obtain ⟨b, hb, hrb⟩ := hreads' strings hall hsize
      exact ⟨b, hb, (hreads _ strings (hpre'.trans hall) hsize (Nat.lt_succ_self _)).bind hrb⟩

theorem Restores.mono {r : StringStore → Reader α} (h : Restores w r P)
    {P' : StringStore → α → Prop} (hP : ∀ strings a, P strings a → P' strings a) :
    Restores w r P' := by
  intro out out' hrun
  obtain ⟨bytes, hbytes, hpre, hnodup, hreads⟩ := h out out' hrun
  refine ⟨bytes, hbytes, hpre, hnodup, fun strings hall hsize => ?_⟩
  obtain ⟨a, ha, hra⟩ := hreads strings hall hsize
  exact ⟨a, hP strings a ha, hra⟩

theorem Restores.bind {r : StringStore → Reader α} {f : StringStore → α → Reader β}
    {R : StringStore → γ → Prop} {g : StringStore → Reader γ} {k : StringStore → α → γ → β}
    (hw : Restores w r P) (hw' : Restores w' g R)
    (hf : ∀ strings a, f strings a = (do return k strings a (← g strings)))
    (hQ : ∀ strings a c, P strings a → R strings c → Q strings (k strings a c)) :
    Restores (w >>= fun _ => w') (fun strings => r strings >>= f strings) Q := by
  intro out out' hrun
  rw [StateT.run_bind] at hrun
  cases hfirst : w.run out with
  | error e =>
    rw [hfirst] at hrun
    exact nomatch hrun
  | ok p =>
    rw [hfirst] at hrun
    obtain ⟨bytes, hbytes, hpre, hnodup, hreads⟩ := hw out p.2 hfirst
    obtain ⟨bytes', hbytes', hpre', hnodup', hreads'⟩ := hw' p.2 out' hrun
    refine ⟨bytes ++ bytes', ?_, hpre.trans hpre', hnodup' ∘ hnodup, ?_⟩
    · rw [hbytes', hbytes, List.append_assoc]
    · intro strings hall hsize
      obtain ⟨a, ha, hra⟩ := hreads strings (hpre'.trans hall) hsize
      obtain ⟨c, hc, hrc⟩ := hreads' strings hall hsize
      refine ⟨k strings a c, hQ strings a c ha hc, hra.bind ?_⟩
      rw [hf]
      exact hrc.bind_pure (Reads.pure _)

/-- A loop over a list. -/
theorem restores_forM {r : StringStore → Reader α} (l : List γ) {w : γ → Writer PUnit}
    {P : γ → StringStore → α → Prop} (h : ∀ x ∈ l, Restores (w x) r (P x)) :
    Restores (l.forM w) (fun strings => times (r strings) l.length)
      (fun strings as => List.Forall₂ (fun x a => P x strings a) l as) := by
  induction l with
  | nil =>
    exact (Writes.pure ([] : List α)).restores (fun _ => List.Forall₂.nil)
  | cons x l ih =>
    rw [List.forall_mem_cons] at h
    exact h.1.bind (ih h.2) (k := fun _ a as => a :: as) (fun _ _ => rfl)
      (fun _ _ _ ha has => List.Forall₂.cons ha has)

/-- What is written to a stream of its own is read from its bytes. -/
theorem restores_nested {r : StringStore → Reader α} {a : α} (h : Writes w (fun _ => r) a) :
    Restores (nested w) (fun _ => readSerializedDecls)
      (fun strings buf => Reads (r strings) buf a) := by
  intro out out' hrun
  rw [nested, StateT.run_bind, StateT.run_get] at hrun
  simp only [pure_bind, StateT.run_bind, StateT.run_set] at hrun
  cases hw : w.run { out with bytes := [] } with
  | error e =>
    rw [hw] at hrun
    exact nomatch hrun
  | ok p =>
    obtain ⟨⟨⟩, inner⟩ := p
    obtain ⟨bytes, hbytes, hpre, hnodup, hreads⟩ := h _ inner hw
    rw [List.nil_append] at hbytes
    subst hbytes
    rw [hw] at hrun
    change StateT.run (if inner.bytes.length < 2 ^ 31 then do
        emit (writeInt inner.bytes.length)
        emit inner.bytes
      else throw (.exception .outOfMemory)) { inner with bytes := out.bytes } = _ at hrun
    by_cases hlen : inner.bytes.length < 2 ^ 31
    · rw [if_pos hlen] at hrun
      cases hrun
      refine ⟨writeInt inner.bytes.length ++ inner.bytes, List.append_assoc _ _ _, hpre, hnodup,
        fun strings hall hsize => ⟨inner.bytes, ?_, ?_⟩⟩
      · exact hreads (inner.bytes.length + 1) strings hall hsize (by omega)
      · refine (reads_int_nat hlen).bind ?_
        rw [if_neg (by omega), Int.toNat_natCast]
        exact reads_fully inner.bytes
    · rw [if_neg hlen] at hrun
      exact nomatch hrun

end Restores

/-- Decoded declarations are fixed one by one. -/
theorem run_times_readFixed {strings : StringStore} {url : Option String} {n : ℕ}
    {bytes rest : List Byte} {decls fixed : List Declaration}
    (h : (times (Declaration.readBinary strings) n).run bytes = .ok (decls, rest))
    (hfixed : decls.mapM (Declaration.fixUrl url) = .ok fixed) :
    (times (readFixed strings url) n).run bytes = .ok (fixed, rest) := by
  induction n generalizing bytes decls fixed with
  | zero =>
    cases h
    cases hfixed
    rfl
  | succ n ih =>
    rw [times, StateT.run_bind] at h
    cases hread : (Declaration.readBinary strings).run bytes with
    | error e =>
      rw [hread] at h
      cases h
    | ok p =>
      obtain ⟨d, bytes'⟩ := p
      rw [hread] at h
      change StateT.run (times (Declaration.readBinary strings) n >>= fun l => pure (d :: l))
        bytes' = _ at h
      rw [StateT.run_bind] at h
      cases hmore : (times (Declaration.readBinary strings) n).run bytes' with
      | error e =>
        rw [hmore] at h
        cases h
      | ok p =>
        obtain ⟨l, bytes''⟩ := p
        rw [hmore] at h
        cases h
        rw [List.mapM_cons] at hfixed
        cases hd : d.fixUrl url with
        | error e =>
          rw [hd] at hfixed
          cases hfixed
        | ok d' =>
          cases hl : l.mapM (Declaration.fixUrl url) with
          | error e =>
            rw [hd, hl] at hfixed
            cases hfixed
          | ok l' =>
            rw [hd, hl] at hfixed
            cases hfixed
            have hfix : (readFixed strings url).run bytes = .ok (d', bytes') := by
              rw [readFixed, StateT.run_bind, hread]
              simp only [bind, Except.bind]
              rw [hd]
              rfl
            rw [times, StateT.run_bind, hfix]
            change StateT.run (times (readFixed strings url) n >>= fun l =>
              pure (d' :: l)) bytes' = _
            rw [StateT.run_bind, ih hmore hl]
            rfl

section Rules

variable {styleClassRegistry pseudoClassRegistry : Registry}

/-- The counts of a rule fit. -/
structure Rule.Fits (stylesheet : Stylesheet styleClassRegistry pseudoClassRegistry)
    (rule : Rule styleClassRegistry pseudoClassRegistry) : Prop where
  selectors : (rule.selectors.getD []).length < 2 ^ 15
  selector : ∀ s ∈ rule.selectors.getD [], s.Fits
  declarations : ∀ decls, rule.getUnobservedDeclarationList stylesheet = .ok (some decls) →
    decls.length < 2 ^ 15 ∧ ∀ d ∈ decls, d.parsedValue.Fits

/-- The rule has a list of declarations. -/
def Rule.HasDeclarations (stylesheet : Stylesheet styleClassRegistry pseudoClassRegistry)
    (rule : Rule styleClassRegistry pseudoClassRegistry) : Prop :=
  rule.getUnobservedDeclarationList stylesheet ≠ .ok none

/-- A rule that has been read by a stylesheet: the declarations are what is read of those
that were written, with their urls fixed. -/
structure Rule.Reread (stylesheet : Stylesheet styleClassRegistry pseudoClassRegistry)
    (rule : Rule styleClassRegistry pseudoClassRegistry)
    (reader : Stylesheet styleClassRegistry pseudoClassRegistry)
    (read : Rule styleClassRegistry pseudoClassRegistry) : Prop where
  selectors : read.selectors = some (rule.selectors.getD [])
  declarations : ∀ decls fixed, rule.getUnobservedDeclarationList stylesheet = .ok (some decls) →
    (decls.map Declaration.reread).mapM (Declaration.fixUrl reader.url) = .ok fixed →
      read.getUnobservedDeclarationList reader = .ok (some fixed)

/-- What is written of the declarations is decoded to what is read of them. -/
theorem restores_declarations {stylesheet : Stylesheet styleClassRegistry pseudoClassRegistry}
    {rule : Rule styleClassRegistry pseudoClassRegistry} (hfits : rule.Fits stylesheet)
    (hdecls : rule.HasDeclarations stylesheet) :
    Restores (match rule.getUnobservedDeclarationList stylesheet with
        | .ok decls => writeDeclarations decls
        | .error e => throw e)
      (fun _ => readSerializedDecls)
      (fun strings buf => ∀ decls fixed url,
        rule.getUnobservedDeclarationList stylesheet = .ok (some decls) →
          (decls.map Declaration.reread).mapM (Declaration.fixUrl url) = .ok fixed →
            (readDeclarations strings url).run buf = .ok (fixed, [])) := by
  cases hget : rule.getUnobservedDeclarationList stylesheet with
  | error e =>
    intro out out' hrun
    exact nomatch hrun
  | ok decls =>
    cases decls with
    | none => exact absurd hget hdecls
    | some decls =>
      obtain ⟨hlength, hvalues⟩ := hfits.declarations decls hget
      have hlist := writes_forM (r := fun _ => Declaration.readBinary) decls
        (fun d hd => writes_declaration d (hvalues d hd))
      have hall := (writes_emit (reads_capacity hlength)).bind hlist
        (g := fun _ strings n => times (Declaration.readBinary strings) n)
      apply (restores_nested hall).mono
      rintro strings buf hbuf decls' fixed url ⟨⟩ hfixed
      -- the bytes are those of the list, and nothing is left of them
      have hrun := hbuf []
      rw [List.append_nil, StateT.run_bind] at hrun
      rw [readDeclarations, StateT.run_bind]
      cases hcount : readCapacity.run buf with
      | error e =>
        rw [hcount] at hrun
        exact nomatch hrun
      | ok p =>
        rw [hcount] at hrun
        exact run_times_readFixed hrun hfixed

theorem restores_rule {stylesheet : Stylesheet styleClassRegistry pseudoClassRegistry}
    {rule : Rule styleClassRegistry pseudoClassRegistry} (hfits : rule.Fits stylesheet)
    (hdecls : rule.HasDeclarations stylesheet) :
    Restores (rule.writeBinary stylesheet)
      (readRule styleClassRegistry pseudoClassRegistry)
      (fun strings read => ∀ reader : Stylesheet styleClassRegistry pseudoClassRegistry,
        reader.stringStore = strings → rule.Reread stylesheet reader read) := by
  have hselectors := writes_forM (r := fun _ strings => withFuel (selectorReader styleClassRegistry
    pseudoClassRegistry) strings) (rule.selectors.getD []) (f := id)
    (fun s hs => (writes_selector s (hfits.selector s hs)).withFuel)
  rw [List.map_id] at hselectors
  have hcounted := ((writes_emit (reads_capacity hfits.selectors)).bind hselectors
    (g := fun _ strings n => times (withFuel (selectorReader styleClassRegistry
      pseudoClassRegistry) strings) n)).restores
    (P := fun _ selectors => selectors = rule.selectors.getD []) (fun _ => rfl)
  have hwriter : rule.writeBinary stylesheet
      = ((emit (writeShort (rule.selectors.getD []).length) >>= fun _ =>
          (rule.selectors.getD []).forM RuleSelector.writeBinary) >>= fun _ =>
            match rule.getUnobservedDeclarationList stylesheet with
            | .ok decls => writeDeclarations decls
            | .error e => throw e) := by
    unfold Rule.writeBinary
    exact (bind_assoc _ _ _).symm
  have hreader : readRule styleClassRegistry pseudoClassRegistry = fun strings => (do
        let n ← readCapacity
        times (withFuel (selectorReader styleClassRegistry pseudoClassRegistry) strings) n)
          >>= fun selectors => do return ⟨some selectors, none, some (← readSerializedDecls)⟩ := by
    funext strings
    rw [bind_assoc]
    rfl
  rw [hwriter, hreader]
  refine hcounted.bind (restores_declarations hfits hdecls)
    (k := fun _ selectors buf => ⟨some selectors, none, some buf⟩) (fun _ _ => rfl) ?_
  rintro strings _ buf rfl hbuf reader rfl
  refine ⟨rfl, fun decls fixed hget hfixed => ?_⟩
  rw [Rule.getUnobservedDeclarationList]
  simp only [hbuf decls fixed reader.url hget hfixed]

/-! ## Stylesheets -/

/-- All the counts fit. -/
structure Stylesheet.Fits (s : Stylesheet styleClassRegistry pseudoClassRegistry) : Prop where
  rules : s.rules.length < 2 ^ 15
  rule : ∀ rule ∈ s.rules, rule.Fits s
  fontFaces : s.fontFaces.length < 2 ^ 15
  fontFace : ∀ f ∈ s.fontFaces, f.Fits

/-- A stylesheet that has been read. -/
structure Stylesheet.Reread (s read : Stylesheet styleClassRegistry pseudoClassRegistry) :
    Prop where
  origin : read.origin = s.origin
  rules : List.Forall₂ (fun rule rule' => rule.Reread s read rule') s.rules read.rules
  fontFaces : read.fontFaces = s.fontFaces.map FontFace.reread

theorem reads_originOf (origin : StyleOrigin) : originOf (some origin.name) = pure origin := by
  cases origin <;> rfl

theorem restores_stylesheet {s : Stylesheet styleClassRegistry pseudoClassRegistry} (hfits : s.Fits)
    (hdecls : ∀ rule ∈ s.rules, rule.HasDeclarations s) (url : Option String) :
    Restores s.writeBinary (Stylesheet.readBinary styleClassRegistry pseudoClassRegistry url)
      (fun _ read => s.Reread read ∧ read.url = url) := by
  have hrules := restores_forM s.rules (fun rule hrule => restores_rule (hfits.rule rule hrule)
    (hdecls rule hrule))
  have hfaces := writes_forM (r := fun _ => readFontFace) s.fontFaces
    (fun f hf => writes_fontFace f (hfits.fontFace f hf))
  have hcounted : Writes (emit (writeShort s.fontFaces.length) >>= fun _ =>
      s.fontFaces.forM FontFace.writeBinary) (fun _ strings => do
        let nFontFaces ← readShort
        times (readFontFace strings) nFontFaces.toNat) (s.fontFaces.map FontFace.reread) := by
    apply (writes_emit (reads_short_nat hfits.fontFaces)).bind
    rwa [Int.toNat_natCast]
  rw [Stylesheet.writeBinary]
  cases horigin : s.origin with
  | none =>
    intro out out' hrun
    exact nomatch hrun
  | some origin =>
    apply (writes_stringShort _).bind_restores
    simp only [reads_originOf, pure_bind]
    apply (writes_emit (reads_capacity hfits.rules)).bind_restores
    refine hrules.bind (hcounted.restores (P := fun _ faces => faces = s.fontFaces.map
      FontFace.reread) (fun _ => rfl))
      (k := fun strings rules faces => ⟨url, some origin, rules, faces, strings⟩)
      (fun strings _ => (bind_assoc _ _ _).symm) ?_
    rintro strings rules _ hread rfl
    exact ⟨⟨horigin.symm, hread.imp (fun rule rule' h => h _ rfl), rfl⟩, rfl⟩

/-! ## The round trip -/

end Rules

/-- A stylesheet with one rule with one declaration. -/
def alignment (value : Value) : Stylesheet default default where
  url := none
  origin := some .author
  rules := [⟨some [], some [⟨"-fx-alignment", .mk false none value, false⟩], none⟩]
  fontFaces := []
  stringStore := []

theorem alignment_fits {value : Value} (h : value.Fits) : (alignment value).Fits where
  rules := by simp [alignment]
  rule := by
    intro rule hrule
    rw [alignment, List.mem_singleton] at hrule
    subst hrule
    refine ⟨by simp, by simp, ?_⟩
    rintro decls ⟨⟩
    refine ⟨by simp, fun d hd => ?_⟩
    rw [List.mem_singleton] at hd
    subst hd
    exact h
  fontFaces := by simp [alignment]
  fontFace := by simp [alignment]

theorem alignment_hasDeclarations (value : Value) :
    ∀ rule ∈ (alignment value).rules, rule.HasDeclarations (alignment value) := by
  intro rule hrule
  rw [alignment, List.mem_singleton] at hrule
  subst hrule
  exact nofun

theorem alignment_written : ∃ out table,
    (alignment (.enum "CENTER")).writeBinary.run ⟨[], []⟩ = .ok (⟨⟩, out)
      ∧ out.strings.length < 2 ^ 15 ∧ out.strings.writeBinary = .ok table :=
  ⟨_, _, rfl, by decide, rfl⟩

end JavaFx.Css
