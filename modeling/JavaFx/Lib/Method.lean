/-
Methods that change a state and may throw.

An exception does not undo what the method did to the state before, so a method is
`EStateM Exn S`: it ends with a result or with an exception, and with a state in
either case. `Wp` says how it ends: what holds of the result and the state when it
returns, and what holds of the exception and the state when it throws. The rules
below take a method apart, statement by statement; they are one simp set.
-/
import JavaFx.Lib.Java

set_option autoImplicit false

namespace JavaFx.Lib

/-- A method on a state `S` with a result in `α`. -/
abbrev Method (S α : Type) := EStateM Exn S α

/-- An `Exception`, and not an `Error`. -/
def Exn.isException : Exn → Bool
  | .outOfMemory => false
  | _ => true

/-- `try { x } catch (Exception e) { handler(e) }`. -/
def catchException {S α : Type} (x : Method S α) (handler : Exn → Method S α) : Method S α :=
  tryCatch x (fun e => if e.isException then handler e else throw e)

/-- Run from `s`, the method returns with `Q` or throws with `E`. -/
def Wp {S α : Type} (x : Method S α) (s : S) (Q : α → S → Prop) (E : Exn → S → Prop) : Prop :=
  match x.run s with
  | .ok a s' => Q a s'
  | .error e s' => E e s'

section Wp

variable {S α β : Type} {x : Method S α} {f : α → Method S β} {s : S} {Q : α → S → Prop}
  {R : β → S → Prop} {E E' : Exn → S → Prop}

@[simp] theorem wp_pure (a : α) : Wp (pure a : Method S α) s Q E ↔ Q a s := Iff.rfl

@[simp] theorem wp_throw (e : Exn) : Wp (throw e : Method S α) s Q E ↔ E e s := Iff.rfl

@[simp] theorem wp_get {Q : S → S → Prop} : Wp (get : Method S S) s Q E ↔ Q s s := Iff.rfl

@[simp] theorem wp_set {Q : PUnit → S → Prop} (t : S) :
    Wp (set t : Method S PUnit) s Q E ↔ Q ⟨⟩ t := Iff.rfl

@[simp] theorem wp_modify {Q : PUnit → S → Prop} (g : S → S) :
    Wp (modify g : Method S PUnit) s Q E ↔ Q ⟨⟩ (g s) := Iff.rfl

@[simp] theorem wp_bind :
    Wp (x >>= f) s R E ↔ Wp x s (fun a s' => Wp (f a) s' R E) E := by
  rw [Wp, Wp, EStateM.run_bind]
  cases x.run s with
  | ok a s' => rfl
  | error e s' => rfl

/-- What was done before the exception stays done. -/
@[simp] theorem wp_tryCatch {x : Method S α} {handler : Exn → Method S α} :
    Wp (tryCatch x handler) s Q E ↔ Wp x s Q (fun e s' => Wp (handler e) s' Q E) := by
  simp only [Wp, tryCatch, tryCatchThe, MonadExceptOf.tryCatch, EStateM.tryCatch, EStateM.run]
  cases x s with
  | ok a s' => rfl
  | error e s' => rfl

theorem wp_ite (p : Prop) [Decidable p] (y : Method S α) :
    Wp (if p then x else y) s Q E ↔ (p → Wp x s Q E) ∧ (¬ p → Wp y s Q E) := by
  by_cases hp : p
  · simp [hp]
  · simp [hp]

theorem Wp.mono {Q' : α → S → Prop} (h : Wp x s Q E) (hQ : ∀ a s', Q a s' → Q' a s')
    (hE : ∀ e s', E e s' → E' e s') : Wp x s Q' E' := by
  rw [Wp] at h ⊢
  cases hx : x.run s with
  | ok a s' =>
    rw [hx] at h
    exact hQ a s' h
  | error e s' =>
    rw [hx] at h
    exact hE e s' h

theorem wp_catchException {x : Method S α} {handler : Exn → Method S α} :
    Wp (catchException x handler) s Q E
      ↔ Wp x s Q (fun e s' => if e.isException then Wp (handler e) s' Q E else E e s') := by
  rw [catchException, wp_tryCatch]
  constructor
  all_goals
    intro h
    apply h.mono (fun _ _ hQ => hQ)
    intro e s' he
    cases hexc : e.isException with
    | true => simpa [hexc] using he
    | false => simpa [hexc] using he

/-- What the method does when it is known how it ends. -/
theorem Wp.of_ok {a : α} {s' : S} (h : x.run s = .ok a s') (hQ : Q a s') : Wp x s Q E := by
  rw [Wp, h]
  exact hQ

/-- A method that does not throw returns. -/
theorem Wp.returns (h : Wp x s Q (fun _ _ => False)) : ∃ a s', x.run s = .ok a s' ∧ Q a s' := by
  rw [Wp] at h
  cases hx : x.run s with
  | ok a s' =>
    rw [hx] at h
    exact ⟨a, s', rfl, h⟩
  | error e s' =>
    rw [hx] at h
    exact h.elim

end Wp

/-- A computation without effects in a method. -/
@[simp] theorem wp_liftExcept {S α : Type} {y : Except Exn α} {s : S} {Q : α → S → Prop}
    {E : Exn → S → Prop} : Wp (liftExcept y : Method S α) s Q E
      ↔ (∀ a, y = .ok a → Q a s) ∧ (∀ e, y = .error e → E e s) := by
  cases y with
  | ok a => simp [liftExcept]
  | error e => simp [liftExcept]

end JavaFx.Lib
