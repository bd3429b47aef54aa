/-
Runs of a `Service`.

The invariant (`Inv`) is about the starts that are unfinished, on the stack or queued.
There is at most one, and the service's task is the one it has created: not scheduled
before that is done, and not executed. While a reset has properties left there is no task.
What would break this is a step that gives the service another task, or none, in between.
-/
import JavaFx.Concurrent.Service

set_option autoImplicit false

namespace JavaFx.Concurrent.Service

open JavaFx.Lib TaskState

variable {V Throwable : Type}

/-! ## Tasks -/

@[simp] theorem Task.setState_scheduled (s : State) (t : Task V Throwable) :
    (t.setState s).scheduled = t.scheduled := by
  unfold Task.setState
  split <;> rfl

@[simp] theorem Task.setState_executed (s : State) (t : Task V Throwable) :
    (t.setState s).executed = t.executed := by
  unfold Task.setState
  split <;> rfl

/-- What is done to a task by others than the service is not counted. -/
def Uncounted (f : Task V Throwable → Task V Throwable) : Prop :=
  ∀ t, (f t).scheduled = t.scheduled ∧ (f t).executed = t.executed

theorem uncounted_cancel : Uncounted (@Task.cancel V Throwable) := by
  intro t
  unfold Task.cancel
  split
  · exact ⟨Task.setState_scheduled _ _, Task.setState_executed _ _⟩
  · exact ⟨rfl, rfl⟩

theorem uncounted_assign (a : Assignment V Throwable) : Uncounted (Task.assign a) := by
  intro t
  unfold Task.assign
  split
  · exact ⟨Task.setState_scheduled _ _, Task.setState_executed _ _⟩
  · exact ⟨rfl, rfl⟩

/-! ## The invariant -/

/-- The service's task, with what it says of it. -/
def Current (w : World V Throwable) (P : Task V Throwable → Prop) : Prop :=
  ∃ t task, w.task = some t ∧ w.tasks[t]? = some task ∧ P task

/-- What every run keeps that is undisturbed. -/
structure Inv (w : World V Throwable) : Prop where
  quiet : w.threw = false
  once : ∀ t ∈ w.tasks, t.scheduled ≤ 1 ∧ t.executed ≤ 1
  last : ∀ t, w.task = some t → t + 1 = w.tasks.length
  bound : ∀ t, w.task = some t → ∀ p, w.properties p = .bound t ∨ ∃ ps, .bind ps ∈ w.stack ∧ p ∈ ps
  alone : w.stack.countP Frame.isStart + w.queue.countP Runnable.isStart ≤ 1
  queued : w.queue.countP Runnable.isStart ≠ 0 → w.startedOnce = true
  fresh : (∃ f ∈ w.stack, f.isStart = true ∧ f ≠ .execute) ∨ (∃ r ∈ w.queue, r.isStart = true) →
    Current w (fun task => task.scheduled = 0 ∧ task.executed = 0)
  unexecuted : .execute ∈ w.stack → Current w (fun task => task.executed = 0)
  cleared : ∀ f ∈ w.stack, f.isReset = true → w.task = none

theorem inv_start : Inv (start : World V Throwable) where
  quiet := rfl
  once _ h := absurd h List.not_mem_nil
  last _ h := by cases h
  bound _ h := by cases h
  alone := Nat.zero_le _
  queued h := absurd rfl h
  fresh h := by
    rcases h with ⟨_, h, _⟩ | ⟨_, h, _⟩
    · exact absurd h List.not_mem_nil
    · exact absurd h List.not_mem_nil
  unexecuted h := absurd h List.not_mem_nil
  cleared _ h := absurd h List.not_mem_nil

theorem noStart_iff {stack : List (Frame V Throwable)} {queue : List (Runnable V Throwable)} :
    NoStart stack queue ↔
      stack.countP Frame.isStart + queue.countP Runnable.isStart = 0 := by
  unfold NoStart
  rw [Nat.add_eq_zero_iff, List.countP_eq_zero, List.countP_eq_zero]
  simp

/-- A frame that is no unfinished start is taken from the stack. -/
theorem Inv.pop {w : World V Throwable} (h : Inv w) {frame : Frame V Throwable}
    {stack : List (Frame V Throwable)} (hstack : w.stack = frame :: stack)
    (hframe : frame.isStart = false) : Inv { w with stack := stack } := by
  have hcount := h.alone
  rw [hstack, List.countP_cons_of_neg (by rw [hframe]; decide)] at hcount
  refine ⟨h.quiet, h.once, h.last, ?_, hcount, h.queued, ?_, ?_, ?_⟩
  · intro t ht p
    rcases h.bound t ht p with hp | ⟨ps, hps, hp⟩
    · exact Or.inl hp
    · rw [hstack] at hps
      rcases List.mem_cons.mp hps with heq | hps
      · rw [← heq] at hframe
        cases hframe
      · exact Or.inr ⟨ps, hps, hp⟩
  · rintro (⟨f, hf, hstart⟩ | hqueue)
    · refine h.fresh (Or.inl ⟨f, ?_, hstart⟩)
      rw [hstack]
      exact List.mem_cons_of_mem _ hf
    · exact h.fresh (Or.inr hqueue)
  · intro hexecute
    apply h.unexecuted
    rw [hstack]
    exact List.mem_cons_of_mem _ hexecute
  · intro f hf
    apply h.cleared f
    rw [hstack]
    exact List.mem_cons_of_mem _ hf

/-- A frame that is no unfinished start is put on the stack. -/
theorem Inv.push {w : World V Throwable} (h : Inv w) {frame : Frame V Throwable}
    (hframe : frame.isStart = false) (hreset : frame.isReset = true → w.task = none) :
    Inv (w.push frame) := by
  refine ⟨h.quiet, h.once, h.last, ?_, ?_, h.queued, ?_, ?_, ?_⟩
  · intro t ht p
    rcases h.bound t ht p with hp | ⟨ps, hps, hp⟩
    · exact Or.inl hp
    · exact Or.inr ⟨ps, List.mem_cons_of_mem _ hps, hp⟩
  · unfold World.push
    dsimp only
    rw [List.countP_cons_of_neg (by rw [hframe]; decide)]
    exact h.alone
  · rintro (⟨f, hf, hstart⟩ | hqueue)
    · rcases List.mem_cons.mp hf with rfl | hf
      · rw [hframe] at hstart
        exact absurd hstart.1 Bool.false_ne_true
      · exact h.fresh (Or.inl ⟨f, hf, hstart⟩)
    · exact h.fresh (Or.inr hqueue)
  · intro hexecute
    rcases List.mem_cons.mp hexecute with heq | hexecute
    · rw [← heq] at hframe
      cases hframe
    · exact h.unexecuted hexecute
  · intro f hf hf'
    rcases List.mem_cons.mp hf with rfl | hf
    · exact hreset hf'
    · exact h.cleared f hf hf'

/-- Tasks are counted once at most when one of them is, after something has happened to it. -/
theorem once_modify {tasks : List (Task V Throwable)}
    (h : ∀ t ∈ tasks, t.scheduled ≤ 1 ∧ t.executed ≤ 1) {t : ℕ}
    {f : Task V Throwable → Task V Throwable}
    (hf : ∀ task, tasks[t]? = some task → (f task).scheduled ≤ 1 ∧ (f task).executed ≤ 1) :
    ∀ task ∈ tasks.modify t f, task.scheduled ≤ 1 ∧ task.executed ≤ 1 := by
  intro task htask
  obtain ⟨i, hi⟩ := List.mem_iff_getElem?.mp htask
  rw [List.getElem?_modify] at hi
  obtain ⟨old, hold, rfl⟩ := Option.map_eq_some_iff.mp hi
  split
  · rename_i heq
    subst heq
    exact hf old hold
  · exact h old (List.mem_of_getElem? hold)

/-- What is not counted happens to a task. -/
theorem Inv.update {w : World V Throwable} (h : Inv w) (t : ℕ)
    {f : Task V Throwable → Task V Throwable} (hf : Uncounted f) : Inv (w.update t f) := by
  have hcurrent : ∀ {P : Task V Throwable → Prop}, (∀ task, P task → P (f task)) →
      Current w P → Current (w.update t f) P := by
    rintro P hP ⟨t', task, ht', htask, hp⟩
    refine ⟨t', if t = t' then f task else task, ht', ?_, ?_⟩
    · unfold World.update
      dsimp only
      rw [List.getElem?_modify, htask]
      split <;> rfl
    · split
      · exact hP _ hp
      · exact hp
  refine ⟨h.quiet, ?_, ?_, h.bound, h.alone, h.queued, ?_, ?_, h.cleared⟩
  · apply once_modify h.once
    intro task htask
    rw [(hf task).1, (hf task).2]
    exact h.once task (List.mem_of_getElem? htask)
  · intro t' ht'
    unfold World.update
    dsimp only
    rw [List.length_modify]
    exact h.last t' ht'
  · intro hstart
    apply hcurrent _ (h.fresh hstart)
    intro task htask
    rw [(hf task).1, (hf task).2]
    exact htask
  · intro hexecute
    apply hcurrent _ (h.unexecuted hexecute)
    intro task htask
    rw [(hf task).2]
    exact htask

/-! ## Steps -/

/-- The one unfinished start is on top of the stack. -/
theorem Inv.noStart {w : World V Throwable} (h : Inv w) {frame : Frame V Throwable}
    {stack : List (Frame V Throwable)} (hstack : w.stack = frame :: stack)
    (hframe : frame.isStart = true) : NoStart stack w.queue := by
  have hcount := h.alone
  rw [hstack, List.countP_cons_of_pos hframe] at hcount
  rw [noStart_iff]
  omega

/-- Without an unfinished start there is nothing to say of one. -/
theorem NoStart.not_start {stack : List (Frame V Throwable)} {queue : List (Runnable V Throwable)}
    (h : NoStart stack queue) : ¬ ((∃ f ∈ stack, f.isStart = true ∧ f ≠ .execute)
      ∨ ∃ r ∈ queue, r.isStart = true) := by
  rintro (⟨f, hf, hstart, -⟩ | ⟨r, hr, hstart⟩)
  · rw [h.1 f hf] at hstart
    cases hstart
  · rw [h.2 r hr] at hstart
    cases hstart

theorem NoStart.not_execute {stack : List (Frame V Throwable)}
    {queue : List (Runnable V Throwable)} (h : NoStart stack queue) : .execute ∉ stack := by
  intro hexecute
  have := h.1 _ hexecute
  cases this

theorem NoStart.not_bind {stack : List (Frame V Throwable)} {queue : List (Runnable V Throwable)}
    (h : NoStart stack queue) (ps : List Property) : .bind ps ∉ stack := by
  intro hbind
  have := h.1 _ hbind
  cases this

/-- The task is taken from the service, and the state set. -/
theorem Inv.clear {w : World V Throwable} (h : Inv w) (hno : NoStart w.stack w.queue)
    (value : State) : Inv (World.set { w with task := none } .state value) where
  quiet := h.quiet
  once := h.once
  last _ ht := by cases ht
  bound _ ht := by cases ht
  alone := h.alone
  queued := h.queued
  fresh hstart := absurd hstart hno.not_start
  unexecuted hexecute := absurd hexecute hno.not_execute
  cleared _ _ _ := rfl

theorem Inv.reset {w : World V Throwable} (h : Inv w) (restart : Bool)
    (hno : w.Resettable → NoStart w.stack w.queue) : Inv (w.reset restart) := by
  unfold World.reset
  split
  · rename_i hresettable
    exact (h.clear (hno hresettable) State.ready).push rfl (fun _ => rfl)
  · exact h

theorem Inv.start {w : World V Throwable} (h : Inv w) : Inv w.start := by
  unfold World.start
  split
  · exact h.push rfl (fun hreset => by cases hreset)
  · exact h

theorem Inv.restart {w : World V Throwable} (h : Inv w) : Inv w.restart := by
  unfold World.restart
  split
  · exact (h.update _ uncounted_cancel).push rfl (fun hreset => by cases hreset)
  · exact h.push rfl (fun hreset => by cases hreset)

/-- A property is set while there is no task. -/
theorem Inv.set {w : World V Throwable} (h : Inv w) (hnone : w.task = none) (p : Property)
    (value : p.Value V Throwable) : Inv (w.set p value) where
  quiet := h.quiet
  once := h.once
  last := h.last
  bound t ht := by
    change w.task = some t at ht
    rw [hnone] at ht
    cases ht
  alone := h.alone
  queued := h.queued
  fresh := h.fresh
  unexecuted := h.unexecuted
  cleared := h.cleared

theorem Inv.cancel {w : World V Throwable} (h : Inv w) : Inv w.cancel := by
  unfold World.cancel
  split
  · exact h.update _ uncounted_cancel
  · rename_i hnone
    split
    · exact h
    · split
      · exact h.set hnone _ _
      · exact h

/-- The task is created. There is no other start, and no reset. -/
theorem Inv.createTask {w : World V Throwable} (h : Inv w) (hno : NoStart w.stack w.queue)
    (hreset : ∀ f ∈ w.stack, f.isReset = false) :
    Inv (w.createTask.push (.bind (.state :: afterState))) := by
  have hzero := noStart_iff.mp hno
  have hall : ∀ p : Property, p ∈ Property.state :: afterState := by
    intro p
    cases p <;> decide
  have hcurrent : Current (w.createTask.push (.bind (.state :: afterState)))
      (fun task => task.scheduled = 0 ∧ task.executed = 0) :=
    ⟨w.tasks.length, Task.new, rfl, List.getElem?_concat_length, rfl, rfl⟩
  refine ⟨h.quiet, ?_, ?_, ?_, ?_, h.queued, fun _ => hcurrent, ?_, ?_⟩
  · intro task htask
    rcases List.mem_append.mp htask with htask | htask
    · exact h.once task htask
    · rw [List.mem_singleton.mp htask]
      exact ⟨Nat.zero_le _, Nat.zero_le _⟩
  · intro t ht
    cases ht
    unfold World.push World.createTask
    dsimp only
    rw [List.length_append, List.length_singleton]
  · intro t _ p
    exact Or.inr ⟨_, List.mem_cons_self, hall p⟩
  · change ((.bind (.state :: afterState) : Frame V Throwable) :: w.stack).countP Frame.isStart
      + w.queue.countP Runnable.isStart ≤ 1
    rw [List.countP_cons_of_pos rfl]
    omega
  · intro hexecute
    rcases List.mem_cons.mp hexecute with heq | hexecute
    · cases heq
    · exact absurd hexecute hno.not_execute
  · intro f hf hf'
    rcases List.mem_cons.mp hf with rfl | hf
    · cases hf'
    · rw [hreset f hf] at hf'
      cases hf'

/-- The unfinished start has got on. -/
theorem Inv.proceed {w : World V Throwable} (h : Inv w) {frame frame' : Frame V Throwable}
    {stack : List (Frame V Throwable)} (hstack : w.stack = frame :: stack)
    (hframe : frame.isStart = true) (hframe' : frame'.isStart = true)
    (hreset : frame'.isReset = false) {w' : World V Throwable}
    (hstack' : w'.stack = frame' :: stack) (hqueue : w'.queue = w.queue)
    (hquiet : w'.threw = w.threw) (honce : w.startedOnce = true → w'.startedOnce = true)
    (hlength : w'.tasks.length = w.tasks.length) (htask : w'.task = w.task)
    (hcounts : ∀ t ∈ w'.tasks, t.scheduled ≤ 1 ∧ t.executed ≤ 1)
    (hbound : ∀ t, w.task = some t → ∀ p, w'.properties p = .bound t
      ∨ ∃ ps, frame' = .bind ps ∧ p ∈ ps)
    (hfresh : frame' ≠ .execute → Current w' (fun task => task.scheduled = 0 ∧ task.executed = 0))
    (hexecute : frame' = .execute → Current w' (fun task => task.executed = 0)) : Inv w' := by
  have hno := h.noStart hstack hframe
  have hzero := noStart_iff.mp hno
  refine ⟨hquiet.trans h.quiet, hcounts, ?_, ?_, ?_, ?_, ?_, ?_, ?_⟩
  · intro t ht
    rw [hlength]
    exact h.last t (htask ▸ ht)
  · intro t ht p
    rcases hbound t (htask ▸ ht) p with hp | ⟨ps, hps, hp⟩
    · exact Or.inl hp
    · refine Or.inr ⟨ps, ?_, hp⟩
      rw [hstack', ← hps]
      exact List.mem_cons_self
  · rw [hstack', hqueue, List.countP_cons_of_pos hframe']
    omega
  · intro hqueued
    rw [hqueue] at hqueued
    exact honce (h.queued hqueued)
  · rw [hstack', hqueue]
    rintro (⟨f, hf, hstart, hne⟩ | hstart)
    · rcases List.mem_cons.mp hf with rfl | hf
      · exact hfresh hne
      · exact absurd (Or.inl ⟨f, hf, hstart, hne⟩) hno.not_start
    · exact absurd (Or.inr hstart) hno.not_start
  · rw [hstack']
    intro hmem
    rcases List.mem_cons.mp hmem with heq | hmem
    · exact hexecute heq.symm
    · exact absurd hmem hno.not_execute
  · rw [hstack', htask]
    intro f hf hf'
    rcases List.mem_cons.mp hf with rfl | hf
    · rw [hreset] at hf'
      cases hf'
    · apply h.cleared f _ hf'
      rw [hstack]
      exact List.mem_cons_of_mem _ hf

theorem Inv.bind {w : World V Throwable} (h : Inv w) {ps : List Property}
    {stack : List (Frame V Throwable)} (hstack : w.stack = .bind ps :: stack) :
    Inv (World.go { w with stack := stack } (.bind ps)) := by
  have hno := h.noStart hstack rfl
  have hmem : (.bind ps : Frame V Throwable) ∈ w.stack := by
    rw [hstack]
    exact List.mem_cons_self
  obtain ⟨t, task, ht, htask, hfresh⟩ := h.fresh (Or.inl ⟨_, hmem, rfl, fun heq => by cases heq⟩)
  -- what is not bound yet is among the properties of this frame
  have hleft : ∀ p, w.properties p = .bound t ∨ p ∈ ps := by
    intro p
    rcases h.bound t ht p with hp | ⟨ps', hps', hp⟩
    · exact Or.inl hp
    · rw [hstack] at hps'
      rcases List.mem_cons.mp hps' with heq | hps'
      · cases heq
        exact Or.inr hp
      · exact absurd hps' (hno.not_bind ps')
  cases ps with
  | nil =>
    unfold World.go
    refine h.proceed hstack rfl rfl rfl rfl rfl rfl (fun _ => rfl) rfl rfl h.once ?_
      (fun _ => ⟨t, task, ht, htask, hfresh⟩) (fun heq => by cases heq)
    intro t' ht' p
    rw [ht, Option.some_inj] at ht'
    subst ht'
    exact Or.inl ((hleft p).resolve_right List.not_mem_nil)
  | cons p ps =>
    unfold World.go
    dsimp only
    rw [ht]
    refine h.proceed hstack rfl rfl rfl rfl rfl rfl (fun ho => ho) rfl ?_ h.once ?_
      (fun _ => ⟨t, task, ?_, htask, hfresh⟩) (fun heq => by cases heq)
    · exact ht.symm
    · intro t' ht' q
      rw [ht, Option.some_inj] at ht'
      subst ht'
      by_cases hq : q = p
      · subst hq
        exact Or.inl (Function.update_self _ _ _)
      · rcases hleft q with hbound | hmem
        · refine Or.inl ?_
          change Function.update w.properties p (.bound t) q = .bound t
          rw [Function.update_of_ne hq]
          exact hbound
        · exact Or.inr ⟨ps, rfl, List.mem_of_ne_of_mem hq hmem⟩
    · exact rfl

theorem Inv.schedule {w : World V Throwable} (h : Inv w) {queued : Bool}
    {stack : List (Frame V Throwable)} (hstack : w.stack = .schedule queued :: stack) :
    Inv (World.go { w with stack := stack } (.schedule queued)) := by
  have hno := h.noStart hstack rfl
  have hmem : (.schedule queued : Frame V Throwable) ∈ w.stack := by
    rw [hstack]
    exact List.mem_cons_self
  obtain ⟨t, task, ht, htask, hscheduled, hexecuted⟩ :=
    h.fresh (Or.inl ⟨_, hmem, rfl, fun heq => by cases heq⟩)
  unfold World.go
  dsimp only
  rw [ht]
  have hlt := (List.getElem?_eq_some_iff.mp htask).1
  refine h.proceed hstack rfl rfl rfl rfl rfl rfl (fun ho => ho)
    (List.length_modify _ _ _) ht.symm ?_ ?_ (fun hne => absurd rfl hne) (fun _ => ⟨t, task.schedule, rfl, ?_, ?_⟩)
  · apply once_modify h.once
    intro task' htask'
    rw [htask, Option.some_inj] at htask'
    subst htask'
    change task.scheduled + 1 ≤ 1 ∧ (task.setState .scheduled).executed ≤ 1
    rw [Task.setState_executed]
    omega
  · intro t' ht' p
    rcases h.bound t' ht' p with hp | ⟨ps, hps, -⟩
    · exact Or.inl hp
    · rw [hstack] at hps
      rcases List.mem_cons.mp hps with heq | hps
      · cases heq
      · exact absurd hps (hno.not_bind ps)
  · change (w.tasks.modify t Task.schedule)[t]? = _
    rw [List.getElem?_modify_eq, htask]
    rfl
  · change (task.setState .scheduled).executed = 0
    rw [Task.setState_executed, hexecuted]

theorem Inv.execute {w : World V Throwable} (h : Inv w) {stack : List (Frame V Throwable)}
    (hstack : w.stack = .execute :: stack) :
    Inv (World.go { w with stack := stack } .execute) := by
  have hno := h.noStart hstack rfl
  have hzero := noStart_iff.mp hno
  have hmem : (.execute : Frame V Throwable) ∈ w.stack := by
    rw [hstack]
    exact List.mem_cons_self
  obtain ⟨t, task, ht, htask, hexecuted⟩ := h.unexecuted hmem
  unfold World.go
  dsimp only
  rw [ht]
  refine ⟨h.quiet, ?_, ?_, ?_, ?_, h.queued, fun hstart => absurd hstart hno.not_start,
    fun hexecute => absurd hexecute hno.not_execute, ?_⟩
  · apply once_modify h.once
    intro task' htask'
    rw [htask, Option.some_inj] at htask'
    subst htask'
    have hscheduled := (h.once task (List.mem_of_getElem? htask)).1
    change task.scheduled ≤ 1 ∧ task.executed + 1 ≤ 1
    omega
  · intro t' ht'
    unfold World.update
    dsimp only
    rw [List.length_modify]
    exact h.last t' (ht.trans ht')
  · intro t' ht' p
    rcases h.bound t' (ht.trans ht') p with hp | ⟨ps, hps, -⟩
    · exact Or.inl hp
    · rw [hstack] at hps
      rcases List.mem_cons.mp hps with heq | hps
      · cases heq
      · exact absurd hps (hno.not_bind ps)
  · change stack.countP Frame.isStart + w.queue.countP Runnable.isStart ≤ 1
    omega
  · intro f hf hf'
    have hnone := h.cleared f (by rw [hstack]; exact List.mem_cons_of_mem _ hf) hf'
    rw [ht] at hnone
    cases hnone

theorem Inv.go {w : World V Throwable} (h : Inv w) (hundisturbed : Undisturbed w .go) :
    Inv (next w .go) := by
  unfold next
  unfold Undisturbed at hundisturbed
  dsimp only at hundisturbed ⊢
  cases hstack : w.stack with
  | nil => exact h
  | cons frame stack =>
    rw [hstack] at hundisturbed
    dsimp only
    cases frame with
    | create =>
      exact (h.pop hstack rfl).createTask hundisturbed.1 hundisturbed.2
    | bind ps => exact h.bind hstack
    | schedule queued => exact h.schedule hstack
    | execute => exact h.execute hstack
    | cancelled =>
      exact ((h.pop hstack rfl).clear hundisturbed .cancelled).push rfl (fun hf => by cases hf)
    | resetting => exact (h.pop hstack rfl).reset true hundisturbed
    | unset ps restart =>
      have hpop := h.pop hstack rfl
      cases ps with
      | nil =>
        unfold World.go
        dsimp only
        split
        · exact hpop.start
        · exact hpop
      | cons p ps =>
        have hnone : w.task = none :=
          h.cleared _ (by rw [hstack]; exact List.mem_cons_self) rfl
        unfold World.go
        exact (hpop.set hnone p _).push rfl (fun _ => hnone)
    | assign t assignments =>
      have hpop := h.pop hstack rfl
      cases assignments with
      | nil => exact hpop
      | cons a assignments =>
        unfold World.go
        exact (hpop.update t (uncounted_assign a)).push rfl (fun hf => by cases hf)

/-- A runnable that is not of a start is queued, or taken from the queue. -/
theorem Inv.requeue {w : World V Throwable} (h : Inv w) {queue : List (Runnable V Throwable)}
    (hqueue : queue.filter Runnable.isStart = w.queue.filter Runnable.isStart) :
    Inv { w with queue := queue } := by
  have hcount : queue.countP Runnable.isStart = w.queue.countP Runnable.isStart := by
    rw [List.countP_eq_length_filter, List.countP_eq_length_filter, hqueue]
  have hmem : ∀ r ∈ queue, r.isStart = true → r ∈ w.queue := by
    intro r hr hstart
    have hfilter := List.mem_filter.mpr ⟨hr, hstart⟩
    rw [hqueue] at hfilter
    exact List.mem_of_mem_filter hfilter
  refine ⟨h.quiet, h.once, h.last, h.bound, ?_, ?_, ?_, h.unexecuted, h.cleared⟩
  · dsimp only
    rw [hcount]
    exact h.alone
  · intro hqueued
    dsimp only at hqueued
    rw [hcount] at hqueued
    exact h.queued hqueued
  · rintro (hstart | ⟨r, hr, hstart⟩)
    · exact h.fresh (Or.inl hstart)
    · exact h.fresh (Or.inr ⟨r, hmem r hr hstart, hstart⟩)

theorem Inv.dequeue {w : World V Throwable} (h : Inv w) : Inv (next w .dequeue) := by
  unfold next
  dsimp only
  split
  · rename_i queue hstack hqueue
    -- the start goes from the queue to the stack
    have hcount := h.alone
    rw [hstack, hqueue, List.countP_cons_of_pos rfl] at hcount
    have hno : NoStart ([] : List (Frame V Throwable)) queue := by
      rw [noStart_iff]
      omega
    have hfresh := h.fresh (Or.inr ⟨.start, by rw [hqueue]; exact List.mem_cons_self, rfl⟩)
    unfold World.push
    dsimp only
    rw [hstack]
    refine ⟨h.quiet, h.once, h.last, ?_, ?_, ?_, fun _ => hfresh, ?_, ?_⟩
    · intro t ht p
      rcases h.bound t ht p with hp | ⟨ps, hps, -⟩
      · exact Or.inl hp
      · rw [hstack] at hps
        exact absurd hps List.not_mem_nil
    · dsimp only
      rw [List.countP_cons_of_pos rfl]
      omega
    · intro _
      apply h.queued
      rw [hqueue, List.countP_cons_of_pos rfl]
      omega
    · intro hexecute
      rcases List.mem_cons.mp hexecute with heq | hexecute
      · cases heq
      · exact absurd hexecute List.not_mem_nil
    · intro f hf hf'
      rw [List.mem_singleton.mp hf] at hf'
      cases hf'
  · rename_i t assignments queue hstack hqueue
    have hrequeue := @Inv.requeue _ _ w h queue (by rw [hqueue]; rfl)
    exact hrequeue.push rfl (fun hf => by cases hf)
  · exact h

/-- The first start is on another thread. -/
theorem Inv.startOffThread {w : World V Throwable} (h : Inv w) : Inv (next w .startOffThread) := by
  unfold next
  dsimp only
  split
  · rename_i hc
    obtain ⟨honce, hempty, -⟩ := hc
    have hstack : w.stack = [] := List.isEmpty_iff.mp hempty
    have hqueue : w.queue.countP Runnable.isStart = 0 := by
      by_contra hne
      rw [h.queued hne] at honce
      cases honce
    have hcurrent : ∀ {w' : World V Throwable}, w'.tasks = w.tasks ++ [Task.new] →
        w'.task = some w.tasks.length →
        Current w' (fun task => task.scheduled = 0 ∧ task.executed = 0) := by
      intro w' htasks htask
      refine ⟨w.tasks.length, Task.new, htask, ?_, rfl, rfl⟩
      rw [htasks]
      exact List.getElem?_concat_length
    refine ⟨h.quiet, ?_, ?_, ?_, ?_, fun _ => rfl, fun _ => hcurrent rfl rfl, ?_, ?_⟩
    · intro task htask
      rcases List.mem_append.mp htask with htask | htask
      · exact h.once task htask
      · rw [List.mem_singleton.mp htask]
        exact ⟨Nat.zero_le _, Nat.zero_le _⟩
    · intro t ht
      cases ht
      unfold World.createTask
      dsimp only
      rw [List.length_append, List.length_singleton]
    · intro t ht p
      cases ht
      exact Or.inl rfl
    · change w.stack.countP Frame.isStart + (w.queue ++ [Runnable.start]).countP Runnable.isStart ≤ 1
      rw [hstack, List.countP_append, hqueue]
      exact le_rfl
    · intro hexecute
      change _ ∈ w.stack at hexecute
      rw [hstack] at hexecute
      exact absurd hexecute List.not_mem_nil
    · intro f hf
      change f ∈ w.stack at hf
      rw [hstack] at hf
      exact absurd hf List.not_mem_nil
  · exact h

theorem next_inv {w : World V Throwable} (h : Inv w) (a : Action V Throwable)
    (hundisturbed : Undisturbed w a) : Inv (next w a) := by
  cases a with
  | start => exact h.start
  | reset => exact h.reset false hundisturbed
  | restart => exact h.restart
  | cancel => exact h.cancel
  | startOffThread => exact h.startOffThread
  | go => exact h.go hundisturbed
  | dequeue => exact h.dequeue
  | assign t assignments =>
    unfold next
    dsimp only
    split
    · apply h.requeue
      rw [List.filter_append]
      exact List.append_nil _
    · exact h
  | complete t =>
    apply h.update t
    intro task
    dsimp only
    split
    · exact ⟨rfl, rfl⟩
    · exact ⟨rfl, rfl⟩

/-! ## The result -/

theorem Inv.right {w : World V Throwable} (h : Inv w) : Right w where
  quiet := h.quiet
  once := h.once
  reflects t ht hbind := by
    refine ⟨h.last t ht, ?_⟩
    intro p
    rcases h.bound t ht p with hp | ⟨ps, hps, -⟩
    · exact hp
    · have := List.all_eq_true.mp hbind _ hps
      cases this

/-- **The service has one task at a time**, in every run in which no step takes the task
from an unfinished start or creates one in the middle of a reset. -/
theorem service_run_right (as : List (Action V Throwable))
    (h : Along step Undisturbed (start : World V Throwable) as) :
    ∃ w, Lib.run step (start : World V Throwable) as = .ok w ∧ Right w := by
  obtain ⟨w, hrun, hinv⟩ := run_invariant Inv
    (fun w a hw hundisturbed => ⟨next w a, rfl, next_inv hw a hundisturbed⟩) inv_start h
  exact ⟨w, hrun, hinv.right⟩

/-- A service started on another thread, and cancelled, restarted and reset on the FX
thread after its runnable has been run. -/
theorem service_run_right_started :
    ∃ w, Lib.run step (start : World Unit Unit)
        ([.startOffThread, .cancel, .dequeue, .go, .go, .restart] ++ List.replicate 22 .go
          ++ [.assign 1 [⟨.state, State.running⟩], .dequeue, .go, .go, .cancel, .reset]) = .ok w
      ∧ Right w :=
  service_run_right _ (by decide)

/-- The service is reset before the queued runnable of its first start is run. -/
theorem service_run_throws :
    ¬ ∀ as w, Lib.run step (start : World Unit Unit) as = .ok w → Right w := by
  intro h
  have hright := h [.startOffThread, .reset, .go, .go, .go, .go, .go, .go, .go, .go, .go, .dequeue, .go]
    _ rfl
  have hthrew := hright.quiet
  revert hthrew
  decide

end JavaFx.Concurrent.Service
