/-
Infix text read with a stack of operators.

A tree of unary and binary operators is written with the fewest parentheses that the
priorities of the binary operators ask for, and read back by a machine that keeps the
operators whose right operand is not complete. A binary operator takes from the stack the
binary operators of its priority or a higher one, up to the last opening parenthesis *or
the last unary operator*: a unary operator stays until its group ends. So the machine reads
a tree back when no binary operator follows a unary one in its group (`Tree.Settled`), and
then only (`parse_lexemes`): otherwise a unary operator gets more than its operand, which
`Tree.spread` counts.
-/
import Mathlib.Tactic.Common
import Mathlib.Tactic.Ring

set_option autoImplicit false

namespace JavaFx.Lib.Infix

/-! ## Trees and their text -/

inductive Tree (α U B : Type)
  | atom (a : α)
  | unary (u : U) (t : Tree α U B)
  | binary (b : B) (l r : Tree α U B)
  deriving DecidableEq, Repr

inductive Lexeme (α U B : Type)
  | operand (a : α)
  | unary (u : U)
  | binary (b : B)
  | opening
  | closing
  deriving DecidableEq, Repr

variable {α U B : Type} (prio : B → ℕ)

namespace Tree

/-- A binary operator that holds weaker than `p` at the root. -/
def weaker (p : ℕ) : Tree α U B → Bool
  | .binary b _ _ => prio b < p
  | _ => false

def isBinary : Tree α U B → Bool
  | .binary _ _ _ => true
  | _ => false

end Tree

/-- Parentheses where they are asked for. -/
def wrap (c : Bool) (ls : List (Lexeme α U B)) : List (Lexeme α U B) :=
  if c then .opening :: ls ++ [.closing] else ls

/-- The text of a tree. Binary operators are left-associative, and unary ones hold tighter
than any of them. -/
def lexemes : Tree α U B → List (Lexeme α U B)
  | .atom a => [.operand a]
  | .unary u t => .unary u :: wrap t.isBinary (lexemes t)
  | .binary b l r =>
    wrap (l.weaker prio (prio b)) (lexemes l) ++
      .binary b :: wrap (r.weaker prio (prio b + 1)) (lexemes r)

/-! ## The machine -/

/-- What waits on the stack for the end of an operand. -/
inductive Frame (α U B : Type)
  | opening
  | unary (u : U)
  | left (t : Tree α U B) (b : B)
  deriving DecidableEq, Repr

/-- The frames, the last one first, and the operand that was read, if one was. -/
abbrev Stack (α U B : Type) := List (Frame α U B) × Option (Tree α U B)

/-- The binary operators on top that hold at least as tight as `p`. -/
def reduce (p : ℕ) : List (Frame α U B) → Tree α U B → List (Frame α U B) × Tree α U B
  | .left t b :: fs, x =>
    if p ≤ prio b then reduce p fs (.binary b t x) else (.left t b :: fs, x)
  | fs, x => (fs, x)

/-- All operators of the group. -/
def close : List (Frame α U B) → Tree α U B → List (Frame α U B) × Tree α U B
  | .left t b :: fs, x => close fs (.binary b t x)
  | .unary u :: fs, x => close fs (.unary u x)
  | fs, x => (fs, x)

def step : Stack α U B → Lexeme α U B → Option (Stack α U B)
  | (fs, none), .operand a => some (fs, some (.atom a))
  | (fs, none), .unary u => some (.unary u :: fs, none)
  | (fs, none), .opening => some (.opening :: fs, none)
  | (fs, some x), .binary b =>
    some (.left (reduce prio (prio b) fs x).2 b :: (reduce prio (prio b) fs x).1, none)
  | (fs, some x), .closing =>
    match close fs x with
    | (.opening :: fs, x) => some (fs, some x)
    | _ => none
  | _, _ => none

def steps : Stack α U B → List (Lexeme α U B) → Option (Stack α U B)
  | s, [] => some s
  | s, l :: ls => (step prio s l).bind (fun s => steps s ls)

/-- The tree of a text. -/
def parse (ls : List (Lexeme α U B)) : Option (Tree α U B) :=
  match steps prio ([], none) ls with
  | some (fs, some x) =>
    match close fs x with
    | ([], x) => some x
    | _ => none
  | _ => none

/-! ## What is read back -/

namespace Tree

def atoms : Tree α U B → ℕ
  | .atom _ => 1
  | .unary _ t => t.atoms
  | .binary _ l r => l.atoms + r.atoms

theorem atoms_pos (t : Tree α U B) : 1 ≤ t.atoms := by
  induction t with
  | atom a => exact Nat.le_refl _
  | unary u t ih => exact ih
  | binary b l r ihl _ => exact ihl.trans (Nat.le_add_right _ _)

/-- The atoms below each unary operator, in all. -/
def spread : Tree α U B → ℕ
  | .atom _ => 0
  | .unary _ t => t.atoms + t.spread
  | .binary _ l r => l.spread + r.spread

/-- The unary operators that stand outside all parentheses in the text. -/
def exposed : Tree α U B → ℕ
  | .atom _ => 0
  | .unary _ t => 1 + if t.isBinary then 0 else t.exposed
  | .binary b l r =>
    (if l.weaker prio (prio b) then 0 else l.exposed) +
      if r.weaker prio (prio b + 1) then 0 else r.exposed

/-- No binary operator follows a unary one in its group. -/
def Settled : Tree α U B → Prop
  | .atom _ => True
  | .unary _ t => t.Settled
  | .binary b l r =>
    (l.weaker prio (prio b) = true ∨ l.exposed prio = 0) ∧ l.Settled ∧ r.Settled

/-- The spread of what is read back: an operator that stands open in the left operand gets
the right operand as well. -/
def spreadRead : Tree α U B → ℕ
  | .atom _ => 0
  | .unary _ t => t.atoms + t.spreadRead
  | .binary b l r => l.spreadRead + r.spreadRead +
      (if l.weaker prio (prio b) then 0 else l.exposed prio) * r.atoms

variable {prio}

theorem spread_le_spreadRead (t : Tree α U B) : t.spread ≤ t.spreadRead prio := by
  induction t with
  | atom a => exact Nat.le_refl _
  | unary u t ih => exact Nat.add_le_add_left ih _
  | binary b l r ihl ihr =>
    exact (Nat.add_le_add ihl ihr).trans (Nat.le_add_right _ _)

/-- A tree that is not settled is spread further. -/
theorem settled_of_spreadRead (t : Tree α U B) (h : t.spreadRead prio = t.spread) :
    t.Settled prio := by
  induction t with
  | atom a => trivial
  | unary u t ih => exact ih (Nat.add_left_cancel h)
  | binary b l r ihl ihr =>
    simp only [spreadRead, spread] at h
    have hl : l.spread ≤ l.spreadRead prio := l.spread_le_spreadRead
    have hr : r.spread ≤ r.spreadRead prio := r.spread_le_spreadRead
    refine ⟨?_, ihl (by omega), ihr (by omega)⟩
    have hzero : (if l.weaker prio (prio b) then 0 else l.exposed prio) * r.atoms = 0 := by
      omega
    rcases Nat.mul_eq_zero.1 hzero with hopen | hatoms
    · by_cases hw : l.weaker prio (prio b)
      · exact .inl hw
      · rw [if_neg hw] at hopen
        exact .inr hopen
    · have hpos := r.atoms_pos
      omega

end Tree

/-! ## Frames folded onto an operand -/

variable {prio}

/-- The operand of a group once the frames are taken from the stack. -/
def fold : List (Frame α U B) → Tree α U B → Tree α U B
  | .left t b :: fs, x => fold fs (.binary b t x)
  | .unary u :: fs, x => fold fs (.unary u x)
  | .opening :: fs, x => fold fs x
  | [], x => x

def unaries (fs : List (Frame α U B)) : ℕ :=
  fs.countP (fun f => match f with
    | .unary _ => true
    | _ => false)

@[simp] theorem unaries_nil : unaries ([] : List (Frame α U B)) = 0 := rfl

@[simp] theorem unaries_left (t : Tree α U B) (b : B) (fs : List (Frame α U B)) :
    unaries (.left t b :: fs) = unaries fs := by simp [unaries]

@[simp] theorem unaries_unary (u : U) (fs : List (Frame α U B)) :
    unaries (.unary u :: fs) = unaries fs + 1 := by simp [unaries]

@[simp] theorem unaries_append (fs gs : List (Frame α U B)) :
    unaries (fs ++ gs) = unaries fs + unaries gs := by simp [unaries]

theorem fold_append (fs gs : List (Frame α U B)) (x : Tree α U B) :
    fold (fs ++ gs) x = fold gs (fold fs x) := by
  induction fs generalizing x with
  | nil => rfl
  | cons f fs ih => cases f <;> exact ih _

/-- What an operand has more, the folded frames have more, and every unary operator among
them once more. -/
theorem fold_grows {x y : Tree α U B} {k s : ℕ} (fs : List (Frame α U B))
    (hatoms : y.atoms = x.atoms + k) (hspread : y.spread = x.spread + s) :
    (fold fs y).atoms = (fold fs x).atoms + k ∧
      (fold fs y).spread = (fold fs x).spread + s + unaries fs * k := by
  induction fs generalizing x y s with
  | nil => exact ⟨hatoms, by simp [fold, hspread]⟩
  | cons f fs ih =>
    cases f with
    | opening =>
      have hsame : unaries (.opening :: fs) = unaries fs := by simp [unaries]
      rw [hsame]
      exact ih hatoms hspread
    | unary u =>
      have hmore : (Tree.unary u y).spread = (Tree.unary u x).spread + (s + k) := by
        simp only [Tree.spread, hatoms, hspread]
        omega
      obtain ⟨ha, hs⟩ := ih (x := .unary u x) (y := .unary u y) hatoms hmore
      refine ⟨ha, ?_⟩
      rw [fold, fold, hs, unaries_unary]
      ring
    | left t b =>
      rw [fold, fold, unaries_left]
      refine ih ?_ ?_
      · simp only [Tree.atoms, hatoms, Nat.add_assoc]
      · simp only [Tree.spread, hspread, Nat.add_assoc]

/-- The frames of one group. -/
def OneGroup (fs : List (Frame α U B)) : Prop := .opening ∉ fs

theorem close_append {fs : List (Frame α U B)} (h : OneGroup fs) (gs : List (Frame α U B))
    (x : Tree α U B) : close (fs ++ gs) x = close gs (fold fs x) := by
  induction fs generalizing x with
  | nil => rfl
  | cons f fs ih =>
    have hfs : OneGroup fs := fun hmem => h (List.mem_cons_of_mem _ hmem)
    cases f with
    | opening => exact absurd List.mem_cons_self h
    | unary u => exact ih hfs _
    | left t b => exact ih hfs _

variable (prio) in
/-- The frame below does not go to an operator of priority `p`. -/
def Stops (p : ℕ) : List (Frame α U B) → Prop
  | .left _ b :: _ => prio b < p
  | _ => True

variable (prio) in
/-- All binary operators of the frames hold at least as tight as `p`. -/
def AtLeast (p : ℕ) (fs : List (Frame α U B)) : Prop := ∀ t b, .left t b ∈ fs → p ≤ prio b

/-- **What a binary operator takes**: all frames up to the last unary operator. -/
theorem reduce_append {p : ℕ} {fs gs : List (Frame α U B)} (hgroup : OneGroup fs)
    (hleast : AtLeast prio p fs) (hstops : Stops prio p gs)
    (x : Tree α U B) :
    ∃ fs' x', reduce prio p (fs ++ gs) x = (fs' ++ gs, x') ∧ fold fs' x' = fold fs x ∧
      unaries fs' = unaries fs ∧ fs' <:+ fs ∧ (unaries fs = 0 → fs' = []) := by
  induction fs generalizing x with
  | nil =>
    refine ⟨[], x, ?_, rfl, rfl, List.suffix_rfl, fun _ => rfl⟩
    simp only [List.nil_append]
    cases gs with
    | nil => rfl
    | cons g gs =>
      cases g with
      | opening => rfl
      | unary u => rfl
      | left t b => rw [reduce, if_neg (Nat.not_le.2 hstops)]
  | cons f fs ih =>
    have hfs : OneGroup fs := fun hmem => hgroup (List.mem_cons_of_mem _ hmem)
    have hleast' : AtLeast prio p fs :=
      fun t b hmem => hleast t b (List.mem_cons_of_mem _ hmem)
    cases f with
    | opening => exact absurd List.mem_cons_self hgroup
    | unary u => exact ⟨.unary u :: fs, x, rfl, rfl, rfl, List.suffix_rfl, by simp⟩
    | left t b =>
      obtain ⟨fs', x', hred, hfold, hun, hsuf, hnil⟩ := ih hfs hleast' (.binary b t x)
      refine ⟨fs', x', ?_, hfold, by rw [hun, unaries_left], ?_, by rwa [unaries_left]⟩
      · rw [List.cons_append, reduce, if_pos (hleast t b List.mem_cons_self), hred]
      · exact hsuf.trans (List.suffix_cons _ _)

/-! ## Reading the text of a tree -/

theorem steps_append (s : Stack α U B) (ls ms : List (Lexeme α U B)) :
    steps prio s (ls ++ ms) = (steps prio s ls).bind (fun s => steps prio s ms) := by
  induction ls generalizing s with
  | nil => rfl
  | cons l ls ih =>
    rw [List.cons_append, steps, steps]
    cases step prio s l with
    | none => rfl
    | some s' => exact ih s'

/-- What reading a tree adds to the stack: frames, `n` unary operators among them, and an
operand. -/
structure Reading (prio : B → ℕ) (t : Tree α U B) (n p : ℕ) (fs : List (Frame α U B))
    (x : Tree α U B) : Prop where
  oneGroup : OneGroup fs
  unaries : unaries fs = n
  atoms : (fold fs x).atoms = t.atoms
  spread : (fold fs x).spread = t.spreadRead prio
  settled : t.Settled prio → fold fs x = t
  atLeast : AtLeast prio p fs

/-- The text of a tree in parentheses. -/
theorem steps_wrap {t : Tree α U B} (c : Bool) (gs : List (Frame α U B))
    (h : ∀ gs, (∀ b l r, t = .binary b l r → Stops prio (prio b) gs) →
      ∃ fs x, steps prio (gs, none) (lexemes prio t) = some (fs ++ gs, some x) ∧
        ∀ p, t.weaker prio p = false → Reading prio t (t.exposed prio) p fs x)
    (hstops : c = false → ∀ b l r, t = .binary b l r → Stops prio (prio b) gs) :
    ∃ fs x, steps prio (gs, none) (wrap c (lexemes prio t)) = some (fs ++ gs, some x) ∧
      ∀ p, (c = false → t.weaker prio p = false) →
        Reading prio t (if c then 0 else t.exposed prio) p fs x := by
  cases c with
  | false =>
    obtain ⟨fs, x, hsteps, hreading⟩ := h gs (hstops rfl)
    exact ⟨fs, x, hsteps, fun p hp => hreading p (hp rfl)⟩
  | true =>
    obtain ⟨fs, x, hsteps, hreading⟩ := h (.opening :: gs) (fun _ _ _ _ => trivial)
    have hzero : t.weaker prio 0 = false := by
      cases t with
      | binary b l r => simp [Tree.weaker]
      | _ => rfl
    have hr := hreading 0 hzero
    refine ⟨[], fold fs x, ?_, ?_⟩
    · have hclose : close (fs ++ .opening :: gs) x = (.opening :: gs, fold fs x) := by
        rw [close_append hr.oneGroup]
        rfl
      simp only [wrap, if_true, List.cons_append, steps, step, Option.bind_some]
      rw [steps_append, hsteps]
      simp [steps, step, hclose]
    · intro p _
      exact ⟨List.not_mem_nil, rfl, hr.atoms, hr.spread, hr.settled, nofun⟩

variable (prio) in
/-- **Reading a tree**, on any frames that its operators do not take. -/
theorem steps_lexemes (t : Tree α U B) (gs : List (Frame α U B))
    (hstops : ∀ b l r, t = .binary b l r → Stops prio (prio b) gs) :
    ∃ fs x, steps prio (gs, none) (lexemes prio t) = some (fs ++ gs, some x) ∧
      ∀ p, t.weaker prio p = false → Reading prio t (t.exposed prio) p fs x := by
  induction t generalizing gs with
  | atom a =>
    refine ⟨[], .atom a, rfl, fun p _ => ?_⟩
    exact ⟨List.not_mem_nil, rfl, rfl, rfl, fun _ => rfl, nofun⟩
  | unary u t ih =>
    obtain ⟨fs, x, hsteps, hreading⟩ := steps_wrap t.isBinary (.unary u :: gs) ih
      (fun _ _ _ _ _ => trivial)
    refine ⟨fs ++ [.unary u], x, ?_, ?_⟩
    · rw [lexemes, steps, step, Option.bind_some, hsteps, List.append_assoc, List.singleton_append]
    · intro p _
      have hweaker : t.isBinary = false → t.weaker prio p = false := by
        intro hb
        cases t with
        | binary b l r => cases hb
        | _ => rfl
      have hr := hreading p hweaker
      have hfold : fold (fs ++ [.unary u]) x = .unary u (fold fs x) := by
        rw [fold_append]
        rfl
      refine ⟨?_, ?_, ?_, ?_, ?_, ?_⟩
      · intro hmem
        rcases List.mem_append.1 hmem with hfs | hu
        · exact hr.oneGroup hfs
        · cases List.mem_singleton.1 hu
      · rw [unaries_append, hr.unaries, Tree.exposed, Nat.add_comm]
        rfl
      · rw [hfold]
        exact hr.atoms
      · rw [hfold]
        simp only [Tree.spread, Tree.spreadRead, hr.atoms, hr.spread]
      · intro hs
        rw [hfold, hr.settled hs]
      · intro t' b hmem
        rcases List.mem_append.1 hmem with hfs | hu
        · exact hr.atLeast t' b hfs
        · cases List.mem_singleton.1 hu
  | binary b l r ihl ihr =>
    -- the left operand
    have hstop := hstops b l r rfl
    have hleft : l.weaker prio (prio b) = false → ∀ b' l' r', l = .binary b' l' r' →
        Stops prio (prio b') gs := by
      intro hw b' l' r' hl
      rw [hl, Tree.weaker, decide_eq_false_iff_not, Nat.not_lt] at hw
      cases gs with
      | nil => trivial
      | cons g gs =>
        cases g with
        | left t' b'' => exact Nat.lt_of_lt_of_le hstop hw
        | _ => trivial
    obtain ⟨fl, xl, hstepsl, hreadl⟩ := steps_wrap _ _ ihl hleft
    have hl := hreadl (prio b) id
    -- the operator
    obtain ⟨fl', xl', hred, hfold, hun, hsuf, hnil⟩ :=
      reduce_append hl.oneGroup hl.atLeast hstop xl
    -- the right operand
    have hright : r.weaker prio (prio b + 1) = false → ∀ b' l' r', r = .binary b' l' r' →
        Stops prio (prio b') (.left xl' b :: (fl' ++ gs)) := by
      intro hw b' l' r' hr
      rw [hr, Tree.weaker, decide_eq_false_iff_not, Nat.not_lt] at hw
      exact hw
    obtain ⟨fr, xr, hstepsr, hreadr⟩ := steps_wrap _ _ ihr hright
    refine ⟨fr ++ .left xl' b :: fl', xr, ?_, ?_⟩
    · rw [lexemes, steps_append, hstepsl, Option.bind_some, steps, step, hred,
        Option.bind_some, hstepsr, List.append_assoc, List.cons_append]
    · intro p hp
      rw [Tree.weaker, decide_eq_false_iff_not, Nat.not_lt] at hp
      have hr := hreadr p (by
        intro hw
        cases r with
        | binary b' l' r' =>
          simp only [Tree.weaker, decide_eq_false_iff_not, Nat.not_lt] at hw ⊢
          omega
        | _ => rfl)
      have hwhole : fold (fr ++ .left xl' b :: fl') xr
          = fold fl' (.binary b xl' (fold fr xr)) := by
        rw [fold_append]
        rfl
      obtain ⟨hatoms, hspread⟩ := fold_grows (x := xl') (y := .binary b xl' (fold fr xr)) fl'
        rfl rfl
      have hmem : ∀ f, f ∈ fr ++ .left xl' b :: fl' →
          f ∈ fr ∨ f = .left xl' b ∨ f ∈ fl := by
        intro f hf
        rcases List.mem_append.1 hf with hf | hf
        · exact .inl hf
        · rcases List.mem_cons.1 hf with hf | hf
          · exact .inr (.inl hf)
          · exact .inr (.inr (hsuf.subset hf))
      refine ⟨?_, ?_, ?_, ?_, ?_, ?_⟩
      · intro hopening
        rcases hmem _ hopening with hf | hf | hf
        · exact hr.oneGroup hf
        · cases hf
        · exact hl.oneGroup hf
      · rw [unaries_append, unaries_left, hun, hl.unaries, hr.unaries, Tree.exposed,
          Nat.add_comm]
      · rw [hwhole, hatoms, hfold, hl.atoms, hr.atoms, Tree.atoms]
      · rw [hwhole, hspread, hfold, hl.spread, hr.spread, hr.atoms, hun, hl.unaries,
          Tree.spreadRead]
      · rintro ⟨hopen, hsl, hsr⟩
        have hzero : unaries fl = 0 := by
          rw [hl.unaries]
          rcases hopen with hw | hexp
          · rw [if_pos hw]
          · rw [hexp]
            exact ite_self 0
        rw [hwhole, hr.settled hsr]
        rw [hnil hzero] at hfold ⊢
        rw [fold] at hfold ⊢
        rw [hfold, hl.settled hsl]
      · intro t' b' hleft'
        rcases hmem _ hleft' with hf | hf | hf
        · exact hr.atLeast t' b' hf
        · cases hf
          exact hp
        · exact hp.trans (hl.atLeast t' b' hf)

variable (prio) in
/-- **The text of a tree is read**: as the tree itself when no binary operator follows a
unary one in its group, and as a tree of another spread otherwise. -/
theorem parse_lexemes (t : Tree α U B) :
    ∃ t', parse prio (lexemes prio t) = some t' ∧ (t.Settled prio → t' = t) ∧
      (t'.spread = t.spread → t.Settled prio) := by
  obtain ⟨fs, x, hsteps, hreading⟩ := steps_lexemes prio t [] (fun _ _ _ _ => trivial)
  have hzero : t.weaker prio 0 = false := by
    cases t with
    | binary b l r => simp [Tree.weaker]
    | _ => rfl
  have hr := hreading 0 hzero
  refine ⟨fold fs x, ?_, hr.settled, ?_⟩
  · have hclose := close_append hr.oneGroup [] x
    rw [parse, hsteps]
    simp only [hclose, close]
  · intro hsame
    refine t.settled_of_spreadRead ?_
    rw [← hr.spread, hsame]

end JavaFx.Lib.Infix
