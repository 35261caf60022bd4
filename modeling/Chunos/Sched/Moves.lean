import Chunos.Sched.Runs

/-!
# What happens to a task that does nothing

The scheduler and the timer change the state, the waiting time and the timeout mark of a
task in four ways only: a sleeping task counts down or wakes up, a ready task starts to run,
and a running task is put back. So whatever these four keep for a single task, every call
of `sched` and every timer interrupt keeps for all tasks.
-/

namespace Chunos.Sched

open Rings Function Option

/-- One change of a task by the scheduler or the timer. -/
inductive TaskMove : Task → Task → Prop
  /-- Only other fields change. -/
  | other {a b : Task} : b.state = a.state → b.waitTime = a.waitTime → b.timeOut = a.timeOut →
      TaskMove a b
  /-- The timer counts a sleeping task down. -/
  | countDown {a b : Task} : a.state = .sleep → b.state = .sleep → b.waitTime ≠ 0 →
      b.timeOut = a.timeOut → TaskMove a b
  /-- The time of a sleeping task has run out. -/
  | expire {a b : Task} : a.state = .sleep → b.state = .prepare → b.waitTime = 0 →
      b.timeOut = a.timeOut → TaskMove a b
  /-- A ready task starts to run. -/
  | start {a b : Task} : a.state = .prepare → b.state = .running → b.waitTime = -1 →
      b.timeOut = (if a.waitTime = 0 then 1 else a.timeOut) → TaskMove a b
  /-- A running task is put back. -/
  | putBack {a b : Task} : a.state = .running → b.state = .prepare → b.waitTime = a.waitTime →
      b.timeOut = a.timeOut → TaskMove a b

variable {τ : Type*} {s s' s'' : Scheduler τ} {removed : τ → Prop}

/-- Every task has made such changes. -/
def Moves (s s' : Scheduler τ) : Prop :=
  ∀ t, Relation.ReflTransGen TaskMove (s.task t) (s'.task t)

theorem Moves.trans (h : Moves s s') (h' : Moves s' s'') : Moves s s'' := fun t => (h t).trans (h' t)

theorem Moves.of_eq (h : s'.task = s.task) : Moves s s' := by
  intro t
  rw [h]

variable {t : τ}

theorem Moves.keep (h : Moves s s') {P : Task → Prop} (hP : ∀ a b, TaskMove a b → P a → P b)
    (ht : P (s.task t)) : P (s'.task t) := by
  have hpath := h t
  generalize s'.task t = b at hpath
  induction hpath with
  | refl => exact ht
  | tail _ hmove ih => exact hP _ _ hmove ih

variable [DecidableEq τ]

theorem Moves.of_update {b : Task} (htask : s'.task = update s.task t b)
    (hmove : TaskMove (s.task t) b) : Moves s s' := by
  intro t'
  rw [htask]
  by_cases htt : t' = t
  · subst htt
    rw [update_self]
    exact Relation.ReflTransGen.single hmove
  · rw [update_of_ne htt]

theorem setTaskState_task (s : Scheduler τ) (t : τ) {new : State}
    (hchange : changeTable (s.task t).state new ≠ .noneToNone) :
    (setTaskState s t new).task = update s.task t { s.task t with state := new } := by
  rw [setTaskState, if_neg hchange]
  exact (relink_frame _ t _).1

theorem setTaskState_task_self (s : Scheduler τ) (t : τ) (new : State) :
    (setTaskState s t new).task t =
      { s.task t with state := ((setTaskState s t new).task t).state } := by
  by_cases hchange : changeTable (s.task t).state new = .noneToNone
  · rw [setTaskState, if_pos hchange]
  · rw [setTaskState_task s t hchange, update_self]

theorem setTaskState_task_of_ne (s : Scheduler τ) {t' : τ} (ht : t' ≠ t) (new : State) :
    (setTaskState s t new).task t' = s.task t' := by
  by_cases hchange : changeTable (s.task t).state new = .noneToNone
  · rw [setTaskState, if_pos hchange]
  · rw [setTaskState_task s t hchange, update_of_ne ht]

theorem state_of_setTaskState {u : τ} {state state' : State} (hne : state' ≠ state)
    (h : ((setTaskState s t state).task u).state = state') : (s.task u).state = state' := by
  by_cases hut : u = t
  · subst hut
    by_cases hchange : changeTable (s.task u).state state = .noneToNone
    · rwa [setTaskState, if_pos hchange] at h
    · rw [setTaskState_task s u hchange, update_self] at h
      exact absurd h.symm hne
  · rwa [setTaskState_task_of_ne s hut] at h

theorem wakeupTask_task (hstate : (s.task t).state = .sleep) :
    (wakeupTask s t).2.task = update s.task t
      { s.task t with runTime := 5 + (taskMaxPrio - (s.task t).prio), state := .prepare } := by
  have hslice : ((getTaskRunTime s t).task t).state = .sleep := by
    simpa [getTaskRunTime, Scheduler.modify] using hstate
  rw [wakeupTask, if_neg (by simp [hstate]), setTaskState_task _ t (by simp [hslice, changeTable])]
  simp [getTaskRunTime, Scheduler.modify]

theorem markAsleep_task (s : Scheduler τ) (t : τ) (timeout : ℤ) :
    ((markAsleep s t timeout).task t).waitTime = timeout ∧
      ((markAsleep s t timeout).task t).timeOut = 0 ∧
      ∀ t', t' ≠ t → (markAsleep s t timeout).task t' = s.task t' := by
  unfold markAsleep
  refine ⟨?_, ?_, ?_⟩
  · rw [setTaskState_task_self]
    simp [Scheduler.modify]
  · rw [setTaskState_task_self]
    simp [Scheduler.modify]
  · intro t' ht
    rw [setTaskState_task_of_ne _ ht]
    simp [Scheduler.modify, ht]

/-- A sleeping task after a tick. -/
def tickedTask (task : Task) : Task :=
  { task with
    waitTime := countedDown task.waitTime
    state := if Expires task then .prepare else task.state }

theorem tickTask_task (hstate : (s.task t).state = .sleep) :
    (tickTask s t).task = update s.task t (tickedTask (s.task t)) := by
  rw [tickTask_eq, tickedTask]
  by_cases hover : Expires (s.task t)
  · rw [if_pos hover, if_pos hover,
      setTaskState_task _ t (by simp [Scheduler.modify, hstate, changeTable])]
    simp [Scheduler.modify]
  · rw [if_neg hover, if_neg hover]
    rfl

theorem tickTask_moves (hstate : (s.task t).state = .sleep) : Moves s (tickTask s t) := by
  refine Moves.of_update (tickTask_task hstate) ?_
  by_cases hover : Expires (s.task t)
  · exact TaskMove.expire hstate (if_pos hover) hover rfl
  · exact TaskMove.countDown hstate ((if_neg hover).trans hstate) hover rfl

theorem Moves.of_ticks (h : Relation.ReflTransGen TickStep s s') : Moves s s' := by
  induction h with
  | refl => exact Moves.of_eq rfl
  | tail _ hstep ih =>
    obtain ⟨t, hstate, rfl⟩ := hstep
    exact ih.trans (tickTask_moves hstate)

theorem modify_moves (s : Scheduler τ) (t : τ) {f : Task → Task}
    (hstate : ∀ task, (f task).state = task.state)
    (hwait : ∀ task, (f task).waitTime = task.waitTime)
    (htimeOut : ∀ task, (f task).timeOut = task.timeOut) : Moves s (s.modify t f) :=
  Moves.of_update rfl (TaskMove.other (hstate _) (hwait _) (htimeOut _))

/-- A running task goes back to the priority queues. -/
theorem putBack_moves (irq : Bool) (hstate : (s.task s.current).state = .running) :
    Moves s (putBack irq s) := by
  have hstop : ∀ s₁ : Scheduler τ, (s₁.task s.current).state = .running →
      Moves s₁ (setTaskState s₁ s.current .prepare) := fun s₁ hs₁ =>
    Moves.of_update (setTaskState_task s₁ s.current (by simp [hs₁, changeTable]))
      (TaskMove.putBack hs₁ rfl rfl rfl)
  unfold putBack
  simp only
  split_ifs
  · have hdec := modify_moves s s.current (f := decPrio) (fun _ => rfl) (fun _ => rfl) (fun _ => rfl)
    have hslice : Moves (s.modify s.current decPrio)
        (getTaskRunTime (s.modify s.current decPrio) s.current) :=
      modify_moves _ _ (fun _ => rfl) (fun _ => rfl) (fun _ => rfl)
    refine (hdec.trans hslice).trans (hstop _ ?_)
    simpa [getTaskRunTime, Scheduler.modify, decPrio] using hstate
  · exact hstop s hstate

theorem switchIn_task {next : τ} (hstate : (s.task next).state = .prepare) :
    (switchIn s next).task = update s.task next { s.task next with
      timeOut := if (s.task next).waitTime = 0 then 1 else (s.task next).timeOut
      waitTime := -1, state := .running } := by
  unfold switchIn
  simp only
  rw [setTaskState_task _ next (by simp [Scheduler.modify, hstate, changeTable])]
  simp [Scheduler.modify]

theorem switchIn_moves {next : τ} (hstate : (s.task next).state = .prepare) :
    Moves s (switchIn s next) :=
  Moves.of_update (switchIn_task hstate) (TaskMove.start hstate rfl rfl rfl)

theorem putBack_task_of_ne (irq : Bool) (ht : t ≠ s.current) :
    (putBack irq s).task t = s.task t := by
  have hset : ∀ s₁ : Scheduler τ, (setTaskState s₁ s.current .prepare).task t = s₁.task t :=
    fun s₁ => setTaskState_task_of_ne s₁ ht .prepare
  unfold putBack
  simp only
  split_ifs
  · exact (hset _).trans (by simp [getTaskRunTime, Scheduler.modify, ht])
  · exact hset s

/-- `prepare_to_switch`, for a next task that is the current one or ready. -/
theorem prepareToSwitch_moves (irq : Bool) (hinv : Inv s removed)
    (hnext : s.nextRun = s.current ∨ (s.task s.nextRun).state = .prepare) :
    Moves s (prepareToSwitch irq s).2 := by
  unfold prepareToSwitch
  by_cases hsame : s.current = s.nextRun
  · rw [if_pos hsame]
    have hslice : Moves s (getTaskRunTime s s.nextRun) :=
      modify_moves s _ (fun _ => rfl) (fun _ => rfl) (fun _ => rfl)
    refine hslice.trans ?_
    simp only
    exact modify_moves _ _ (fun _ => rfl) (fun _ => rfl) (fun _ => rfl)
  · rw [if_neg hsame]
    have hready := hnext.resolve_left (Ne.symm hsame)
    simp only
    split_ifs with hrunning
    · refine (putBack_moves irq hrunning).trans (switchIn_moves ?_)
      rw [(putBack_keeps irq hinv hrunning).nextRun, putBack_task_of_ne irq (Ne.symm hsame)]
      exact hready
    · exact switchIn_moves hready

/-- `sched`. -/
theorem Settled.sched_moves {idle : τ} (hs : Settled idle removed s) (irq : Bool)
    (hsched : Sched.sched irq s = some s') : Moves s s' := by
  unfold Sched.sched at hsched
  split_ifs at hsched
  · exact Moves.of_eq (by rw [some.inj hsched])
  · exact Moves.of_eq (by rw [some.inj hsched])
  · obtain ⟨t, hfind, ht, -⟩ := hs.switch irq
    have hmoves := prepareToSwitch_moves irq (hs.inv.setCurrent s.current t) ht
    rw [hfind, map_some, some.injEq] at hsched
    subst hsched
    simp only
    split_ifs
    · exact hmoves
    · exact hmoves

/-- A timer interrupt. -/
theorem Settled.tick_moves {idle : τ} (hs : Settled idle removed s)
    (htick : osTickHandler ((s.count .sleep).toNat + 1) s = some s') : Moves s (irqExit s') := by
  obtain ⟨s₁, hloop, hkeeps, hticks⟩ := hs.inv.tickLoop
  have hs₁ := hs.of_keeps hkeeps
  have hs₂ := hs₁.of_keeps (modify_keeps hs₁.inv s₁.current
    (f := fun task => { task with runTime := task.runTime - 1 }) (fun _ => rfl) (fun _ => rfl))
  have hmoves : Moves s (s₁.modify s₁.current fun task => { task with runTime := task.runTime - 1 }) :=
    (Moves.of_ticks hticks).trans
      (modify_moves s₁ s₁.current (fun _ => rfl) (fun _ => rfl) (fun _ => rfl))
  unfold osTickHandler at htick
  rw [hloop, bind_some] at htick
  simp only at htick
  split_ifs at htick
  · obtain ⟨t, hfind, ht, -⟩ := hs₂.switch true
    rw [hfind, map_some, some.injEq] at htick
    subst htick
    exact hmoves.trans (prepareToSwitch_moves true (hs₂.inv.setCurrent s₁.current t) ht)
  · rw [some.injEq] at htick
    subst htick
    exact hmoves

end Chunos.Sched
