/-
Runs of a step function that may fail.

A component is a state type `S`, an alphabet of actions `A` and a step
`S → A → Except ε S`. A run folds the step over a list of actions and stops at
the first error. Two notions are all the developments on top need:

* `run`, the state a list of actions leads to;
* `Along`, "every action of the list meets a condition in the state the run has
  reached when the action comes". The condition may read that state, which is
  how "the branch that goes wrong is never taken" is said of a whole run.

The induction over runs is done here once, in `run_invariant`. Nothing in this
file knows what the states or the actions are.
-/
import Mathlib.Tactic.Common

set_option autoImplicit false

namespace JavaFx.Lib

section Run

variable {S A ε : Type*}

/-- The state reached by a list of actions, or the first error on the way. -/
def run (step : S → A → Except ε S) (s : S) : List A → Except ε S
  | [] => .ok s
  | a :: as =>
    match step s a with
    | .ok s' => run step s' as
    | .error e => .error e

/-- Every action meets `P` in the state the run has reached when it comes. -/
def Along (step : S → A → Except ε S) (P : S → A → Prop) (s : S) : List A → Prop
  | [] => True
  | a :: as => P s a ∧ ∀ s', step s a = .ok s' → Along step P s' as

variable {step : S → A → Except ε S} {P Q : S → A → Prop} {s s' : S} {a : A} {as bs : List A}

@[simp] theorem run_nil : run step s [] = .ok s := rfl

theorem run_cons_ok (h : step s a = .ok s') : run step s (a :: as) = run step s' as := by
  simp only [run, h]

theorem run_singleton : run step s [a] = step s a := by
  rw [run]
  cases step s a <;> rfl

theorem run_append_ok (h : run step s as = .ok s') :
    run step s (as ++ bs) = run step s' bs := by
  induction as generalizing s with
  | nil =>
    simp only [run_nil, Except.ok.injEq] at h
    rw [List.nil_append, h]
  | cons a as ih =>
    cases hs : step s a with
    | error e => simp [run, hs] at h
    | ok t =>
      rw [List.cons_append, run_cons_ok hs]
      rw [run_cons_ok hs] at h
      exact ih h

theorem run_append_error {e : ε} (h : run step s as = .error e) :
    run step s (as ++ bs) = .error e := by
  induction as generalizing s with
  | nil => simp at h
  | cons a as ih =>
    cases hs : step s a with
    | error e' => simpa [run, hs] using h
    | ok t =>
      rw [List.cons_append, run_cons_ok hs]
      rw [run_cons_ok hs] at h
      exact ih h

@[simp] theorem along_nil : Along step P s [] := trivial

theorem along_cons_ok (h : step s a = .ok s') :
    Along step P s (a :: as) ↔ P s a ∧ Along step P s' as := by
  simp [Along, h]

/-- A condition that holds along a run holds along each of its prefixes. -/
theorem Along.prefix (h : Along step P s (as ++ bs)) : Along step P s as := by
  induction as generalizing s with
  | nil => trivial
  | cons a as ih => exact ⟨h.1, fun s' hs => ih (h.2 s' hs)⟩

/-- What holds of the last action of a run. -/
theorem Along.at_end (as : List A) (h : Along step P s (as ++ [a])) (hrun : run step s as = .ok s') :
    P s' a := by
  induction as generalizing s with
  | nil =>
    simp only [run_nil, Except.ok.injEq] at hrun
    rw [← hrun]
    exact h.1
  | cons b as ih =>
    cases hs : step s b with
    | error e => simp [run, hs] at hrun
    | ok t =>
      rw [run_cons_ok hs] at hrun
      exact ih (h.2 t hs) hrun

theorem Along.mono (hPQ : ∀ s a, P s a → Q s a) (h : Along step P s as) :
    Along step Q s as := by
  induction as generalizing s with
  | nil => trivial
  | cons a as ih => exact ⟨hPQ s a h.1, fun s' hs => ih (h.2 s' hs)⟩

theorem Along.and (hP : Along step P s as) (hQ : Along step Q s as) :
    Along step (fun s a => P s a ∧ Q s a) s as := by
  induction as generalizing s with
  | nil => trivial
  | cons a as ih => exact ⟨⟨hP.1, hQ.1⟩, fun s' hs => ih (hP.2 s' hs) (hQ.2 s' hs)⟩

/-- A condition that does not read the state. -/
theorem Along.of_forall {p : A → Prop} (h : ∀ a ∈ as, p a) : Along step (fun _ a => p a) s as := by
  induction as generalizing s with
  | nil => trivial
  | cons a as ih =>
    exact ⟨h a List.mem_cons_self, fun s' _ => ih (fun b hb => h b (List.mem_cons_of_mem _ hb))⟩

/-- A condition along a run can be checked by running. -/
def Along.decidable [∀ s a, Decidable (P s a)] : (s : S) → (as : List A) →
    Decidable (Along step P s as)
  | _, [] => .isTrue trivial
  | s, a :: as =>
    match h : step s a with
    | .ok s' =>
      have := Along.decidable s' as
      decidable_of_iff (P s a ∧ Along step P s' as) (along_cons_ok h).symm
    | .error _ => decidable_of_iff (P s a) (by simp [Along, h])

instance [∀ s a, Decidable (P s a)] : Decidable (Along step P s as) := Along.decidable s as

/-- **The invariant rule.** A step that keeps `Inv` whenever its action meets `P`
takes every run along which `P` holds to a state with `Inv`; no step fails. -/
theorem run_invariant (Inv : S → Prop)
    (hstep : ∀ s a, Inv s → P s a → ∃ s', step s a = .ok s' ∧ Inv s')
    (hinit : Inv s) (h : Along step P s as) :
    ∃ s', run step s as = .ok s' ∧ Inv s' := by
  induction as generalizing s with
  | nil => exact ⟨s, rfl, hinit⟩
  | cons a as ih =>
    obtain ⟨t, ht, hinv⟩ := hstep s a hinit h.1
    obtain ⟨s', hs', hinv'⟩ := ih hinv (h.2 t ht)
    exact ⟨s', by rw [run_cons_ok ht, hs'], hinv'⟩

/-- What an invariant implies of a step holds of every step of a run. -/
theorem along_of_invariant (Inv : S → Prop)
    (hstep : ∀ s a s', Inv s → P s a → step s a = .ok s' → Inv s')
    (hQ : ∀ s a, Inv s → P s a → Q s a) (hinit : Inv s) (h : Along step P s as) :
    Along step Q s as := by
  induction as generalizing s with
  | nil => trivial
  | cons a as ih =>
    exact ⟨hQ s a hinit h.1, fun s' hs => ih (hstep s a s' hinit h.1 hs) (h.2 s' hs)⟩

/-- The invariant rule for steps that may fail: of the state a run reaches. -/
theorem run_invariant_of_ok (Inv : S → Prop)
    (hstep : ∀ s a s', Inv s → P s a → step s a = .ok s' → Inv s')
    (hinit : Inv s) (h : Along step P s as) (hrun : run step s as = .ok s') : Inv s' := by
  induction as generalizing s with
  | nil =>
    cases hrun
    exact hinit
  | cons a as ih =>
    cases hs : step s a with
    | error e => simp [run, hs] at hrun
    | ok t =>
      rw [run_cons_ok hs] at hrun
      exact ih (hstep s a t hinit h.1 hs) (h.2 t hs) hrun

/-- Where an action that meets `P` keeps `Inv`, and one that does not takes a state with
`Inv` to one without `Q`, the states of a run all have `Q` exactly when its actions all
meet `P`. -/
theorem run_prefixes_iff_of (Inv Q : S → Prop)
    (htotal : ∀ s a, Inv s → ∃ s', step s a = .ok s')
    (hQ : ∀ s, Inv s → Q s) (hkeep : ∀ s a s', Inv s → step s a = .ok s' → P s a → Inv s')
    (hneed : ∀ s a s', Inv s → step s a = .ok s' → Q s' → P s a) (hinit : Inv s) :
    (∀ bs s', bs <+: as → run step s bs = .ok s' → Q s') ↔ Along step P s as := by
  constructor
  · intro h
    induction as generalizing s with
    | nil => trivial
    | cons a as ih =>
      obtain ⟨t, ht⟩ := htotal s a hinit
      have hmeets : P s a :=
        hneed s a t hinit ht (h [a] t ⟨as, rfl⟩ (by rw [run_singleton, ht]))
      refine (along_cons_ok ht).2 ⟨hmeets, ih (hkeep s a t hinit ht hmeets) ?_⟩
      intro bs s' hbs hrun
      exact h (a :: bs) s' (List.cons_prefix_cons.2 ⟨rfl, hbs⟩) (by rw [run_cons_ok ht, hrun])
  · rintro h bs s' ⟨cs, rfl⟩ hrun
    exact hQ s' (run_invariant_of_ok Inv (fun s a s' hs ha ht => hkeep s a s' hs ht ha) hinit
      h.prefix hrun)

/-- Where an action keeps `Inv` exactly when it meets `P`, the states of a run all
have `Inv` exactly when its actions all meet `P`. -/
theorem run_prefixes_iff (Inv : S → Prop) (htotal : ∀ s a, ∃ s', step s a = .ok s')
    (hstep : ∀ s a s', Inv s → step s a = .ok s' → (Inv s' ↔ P s a)) (hinit : Inv s) :
    (∀ bs s', bs <+: as → run step s bs = .ok s' → Inv s') ↔ Along step P s as :=
  run_prefixes_iff_of Inv Inv (fun s a _ => htotal s a) (fun _ h => h) (fun s a s' hs ht => (hstep s a s' hs ht).2)
    (fun s a s' hs ht => (hstep s a s' hs ht).1) hinit

end Run

end JavaFx.Lib
