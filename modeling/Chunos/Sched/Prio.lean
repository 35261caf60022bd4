import Chunos.Sched.Runs

/-!
# Priorities

A task that has used up or given up its time slice goes down one priority, and from the last
priority before that of the idle task back to the first. The idle task has the last priority
from the start and keeps it. No other task has a negative process number, because
`init_task_struct` refuses one, so no other task comes to that priority.
-/

namespace Chunos.Sched

open Option

variable {τ : Type*}

/-- The process number and the priority of the idle task, and those of the others. -/
def PrioOk (isIdle : Prop) (task : Task) : Prop :=
  (isIdle → task.pid = -1 ∧ task.prio = taskMaxPrio - 1) ∧
    (¬ isIdle → 0 ≤ task.pid ∧ 0 ≤ task.prio ∧ task.prio < taskMaxPrio - 1)

/-- All tasks have such numbers. -/
def PriosOk (idle : τ) (s : Scheduler τ) : Prop := ∀ t, PrioOk (t = idle) (s.task t)

theorem PrioOk.congr {isIdle : Prop} {a b : Task} (h : PrioOk isIdle a) (hpid : b.pid = a.pid)
    (hprio : b.prio = a.prio) : PrioOk isIdle b := by
  unfold PrioOk at *
  rwa [hpid, hprio]

/-- `dec_prio` leaves the idle task on the last queue and takes no other task there. -/
theorem PrioOk.decPrio {isIdle : Prop} {task : Task} (h : PrioOk isIdle task) :
    PrioOk isIdle (decPrio task) := by
  have hmax : taskMaxPrio = 64 := rfl
  refine ⟨fun hidle => ?_, fun hother => ?_⟩
  · obtain ⟨hpid, hprio⟩ := h.1 hidle
    simp [Sched.decPrio, hpid, hprio]
  · obtain ⟨hpid, hlo, hhi⟩ := h.2 hother
    simp only [Sched.decPrio, if_pos hhi]
    split_ifs <;> omega

variable [DecidableEq τ] {idle : τ} {s s' : Scheduler τ}

section
variable (h : PriosOk idle s)
include h

theorem PriosOk.modify (t : τ) {f : Task → Task}
    (hf : ∀ task, PrioOk (t = idle) task → PrioOk (t = idle) (f task)) :
    PriosOk idle (s.modify t f) := by
  intro t'
  by_cases htt : t' = t
  · subst htt
    simpa [Scheduler.modify] using hf _ (h t')
  · simpa [Scheduler.modify, htt] using h t'

theorem PriosOk.modify_other (t : τ) {f : Task → Task} (hpid : ∀ task, (f task).pid = task.pid)
    (hprio : ∀ task, (f task).prio = task.prio) :
    PriosOk idle (s.modify t f) :=
  h.modify t fun task htask => htask.congr (hpid task) (hprio task)

theorem PriosOk.setTaskState (t : τ) (new : State) : PriosOk idle (setTaskState s t new) := by
  unfold Sched.setTaskState
  simp only
  split_ifs
  · exact h
  · have hmodify := h.modify_other t (f := fun task => { task with state := new })
      (fun _ => rfl) (fun _ => rfl)
    intro t'
    rw [(relink_frame _ t _).1]
    exact hmodify t'

theorem PriosOk.getTaskRunTime (t : τ) : PriosOk idle (getTaskRunTime s t) :=
  h.modify_other t (fun _ => rfl) (fun _ => rfl)

/-- `prepare_to_switch` changes a priority only by `dec_prio`. -/
theorem PriosOk.prepareToSwitch (irq : Bool) :
    PriosOk idle (prepareToSwitch irq s).2 := by
  have hback : PriosOk idle (putBack irq s) := by
    unfold putBack
    simp only
    split_ifs
    · exact ((h.modify s.current fun _ => PrioOk.decPrio).getTaskRunTime s.current).setTaskState
        s.current .prepare
    · exact h.setTaskState s.current .prepare
  have hin : ∀ s₁ : Scheduler τ, PriosOk idle s₁ → ∀ next, PriosOk idle (switchIn s₁ next) := by
    intro s₁ h₁ next
    refine PriosOk.setTaskState ?_ next .running
    exact h₁.modify_other next (fun _ => rfl) (fun _ => rfl)
  unfold Sched.prepareToSwitch
  split_ifs
  · exact PriosOk.modify_other (h.getTaskRunTime s.nextRun) s.nextRun
      (f := fun task => { task with runCount := task.runCount + 1 }) (fun _ => rfl) (fun _ => rfl)
  · exact hin _ hback _
  · exact hin _ h _

end

omit [DecidableEq τ] in
theorem findNextRunTask_task (h : findNextRunTask s = some s') : s'.task = s.task := by
  unfold findNextRunTask at h
  cases hfind : findPrioLoop s.count 64 0 with
  | none =>
    simp only [hfind, some.injEq] at h
    rw [h]
  | some i =>
    simp only [hfind] at h
    cases hnode : s.links.next (.head (.prio i)) with
    | prioRunning t =>
      simp only [hnode, some.injEq] at h
      rw [← h]
    | head _ | system _ | sleep _ | idle _ => simp [hnode] at h

/-- `sched`. -/
theorem PriosOk.sched (h : PriosOk idle s) {irq : Bool}
    (hsched : sched irq s = some s') : PriosOk idle s' := by
  unfold Sched.sched at hsched
  split_ifs at hsched
  · exact some.inj hsched ▸ h
  · exact some.inj hsched ▸ h
  · obtain ⟨s₁, hfind, rfl⟩ := map_eq_some_iff.mp hsched
    have h₁ : PriosOk idle s₁ := by
      intro t
      rw [findNextRunTask_task hfind]
      exact h t
    have h₂ := h₁.prepareToSwitch irq
    simp only
    split_ifs
    · exact h₂
    · exact h₂

theorem PriosOk.tickTask (h : PriosOk idle s) (t : τ) : PriosOk idle (tickTask s t) := by
  have hdown := h.modify_other t (f := fun task => { task with waitTime := task.waitTime - 1 })
    (fun _ => rfl) (fun _ => rfl)
  unfold Sched.tickTask
  simp only
  split_ifs
  · exact hdown.setTaskState t .prepare
  · exact hdown
  · exact h.setTaskState t .prepare
  · exact h

/-- The loop of `os_tick_handler`. -/
theorem PriosOk.tickLoop {fuel : ℕ} {list : Node τ} (h : PriosOk idle s)
    (hloop : tickLoop fuel list s = some s') : PriosOk idle s' := by
  induction fuel generalizing list s with
  | zero => simp [Sched.tickLoop] at hloop
  | succ fuel ih =>
    cases list with
    | head q =>
      simp only [Sched.tickLoop] at hloop
      split_ifs at hloop
      exact some.inj hloop ▸ h
    | sleep t =>
      simp only [Sched.tickLoop, reduceCtorEq, if_false] at hloop
      exact ih (h.tickTask t) hloop
    | prioRunning _ | system _ | idle _ => simp [Sched.tickLoop] at hloop

/-- `os_tick_handler`. -/
theorem PriosOk.osTickHandler (h : PriosOk idle s) {fuel : ℕ}
    (htick : osTickHandler fuel s = some s') : PriosOk idle s' := by
  obtain ⟨s₁, hloop, hrest⟩ := bind_eq_some_iff.mp htick
  have h₁ := h.tickLoop hloop
  have h₂ : PriosOk idle
      (s₁.modify s₁.current fun task => { task with runTime := task.runTime - 1 }) :=
    h₁.modify_other s₁.current (fun _ => rfl) (fun _ => rfl)
  simp only at hrest
  split_ifs at hrest
  · obtain ⟨s₃, hfind, rfl⟩ := map_eq_some_iff.mp hrest
    have h₃ : PriosOk idle s₃ := by
      intro t
      rw [findNextRunTask_task hfind]
      exact h₂ t
    exact h₃.prepareToSwitch true
  · exact some.inj hrest ▸ h₂

/-- Every call keeps the priorities in order. -/
theorem PriosOk.step {r r' : SchedRun τ} (h : PriosOk idle r.sched) {call : SchedCall τ}
    (hstep : SchedRun.step call r = some r') : PriosOk idle r'.sched := by
  cases call with
  | activate t new =>
    rw [← some.inj hstep]
    exact h.setTaskState t new
  | sched irq =>
    obtain ⟨s, hs, rfl⟩ := map_eq_some_iff.mp hstep
    exact h.sched hs
  | tick =>
    obtain ⟨s, hs, rfl⟩ := map_eq_some_iff.mp hstep
    intro t
    exact h.osTickHandler hs t
  | suspend irq t timeout =>
    obtain ⟨res, hres, rfl⟩ := map_eq_some_iff.mp hstep
    unfold suspendTaskTimeout at hres
    split_ifs at hres
    · exact some.inj hres ▸ h
    · exact some.inj hres ▸ h
    · obtain ⟨s, hs, rfl⟩ := map_eq_some_iff.mp hres
      refine PriosOk.sched (PriosOk.setTaskState ?_ t .sleep) hs
      exact h.modify_other t (fun _ => rfl) (fun _ => rfl)
  | wakeup t =>
    rw [← some.inj hstep]
    simp only [wakeupTask]
    split_ifs
    · exact h
    · exact (h.getTaskRunTime t).setTaskState t .prepare
  | stop t =>
    rw [← some.inj hstep]
    exact h.setTaskState t .idle
  | remove t =>
    obtain rfl := some.inj hstep
    show PriosOk idle (schedRemoveTask r.sched t).2
    unfold schedRemoveTask
    split_ifs
    · exact h
    · exact h
    · exact h

end Chunos.Sched
