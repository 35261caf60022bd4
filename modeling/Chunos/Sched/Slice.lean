import Chunos.Sched.Switch

/-!
# Time slices

`get_task_run_time` gives a task between 6 and 69 ticks. Each tick takes one from the
current task, and the tick that takes the last one comes to `find_next_run_task`. A task
gets a new slice there only if it still runs, or when it is chosen again. So a slice is
never used up as long as no last tick finds the current task in another state than
`PROCESS_STATE_RUNNING`.
-/

namespace Chunos.Sched

open Runs Function Option

variable {τ : Type*} {s s' : Scheduler τ} {removed : τ → Prop} {idle : τ}

/-- A time slice that is not used up. -/
def SliceOk (task : Task) : Prop := 1 ≤ task.runTime ∧ task.runTime ≤ 69

theorem SliceOk.congr {a b : Task} (h : SliceOk a) (heq : b.runTime = a.runTime) : SliceOk b := by
  rwa [SliceOk, heq]

/-- No time slice is used up, except that of a current task that runs. -/
def SlicesSpent (s : Scheduler τ) : Prop :=
  ∀ t, SliceOk (s.task t) ∨ t = s.current ∧ (s.task t).state = .running ∧ (s.task t).runTime = 0

/-- The number of timer interrupts among the calls. -/
def ticks : List (SchedCall τ) → ℕ
  | [] => 0
  | .tick :: calls => ticks calls + 1
  | _ :: calls => ticks calls

variable [DecidableEq τ]

theorem setTaskState_runTime (s : Scheduler τ) (t : τ) (new : State) (u : τ) :
    ((setTaskState s t new).task u).runTime = (s.task u).runTime := by
  by_cases hut : u = t
  · subst hut
    rw [setTaskState_task_self]
  · rw [setTaskState_task_of_ne s hut]

/-- `get_task_run_time` gives a task whose priority is an index of the table a time slice. -/
theorem getTaskRunTime_sliceOk {t : τ} (hprio : 0 ≤ (s.task t).prio ∧ (s.task t).prio < taskMaxPrio) :
    SliceOk ((getTaskRunTime s t).task t) := by
  simp only [SliceOk, getTaskRunTime, Scheduler.modify, update_self]
  simp only [taskMaxPrio] at *
  omega

theorem getTaskRunTime_of_ne (s : Scheduler τ) {t u : τ} (hu : u ≠ t) :
    (getTaskRunTime s t).task u = s.task u := by
  simp [getTaskRunTime, Scheduler.modify, hu]

theorem modify_runTime (s : Scheduler τ) (t u : τ) {f : Task → Task}
    (hf : ∀ task, (f task).runTime = task.runTime) :
    ((s.modify t f).task u).runTime = (s.task u).runTime := by
  by_cases hut : u = t
  · subst hut
    simp [Scheduler.modify, hf]
  · simp [Scheduler.modify, hut]

/-- The loop of `os_tick_handler` leaves the time slices, and the states of the tasks that
do not sleep. -/
theorem runTime_of_ticks (h : Relation.ReflTransGen TickStep s s') (u : τ) :
    (s'.task u).runTime = (s.task u).runTime ∧
      ((s.task u).state ≠ .sleep → (s'.task u).state = (s.task u).state) := by
  induction h with
  | refl => exact ⟨rfl, fun _ => rfl⟩
  | @tail s₁ _ _ hstep ih =>
    obtain ⟨t, hsleep, rfl⟩ := hstep
    have hrun : ((tickTask s₁ t).task u).runTime = (s₁.task u).runTime := by
      have hdown := modify_runTime s₁ t u
        (f := fun task => { task with waitTime := countedDown task.waitTime }) (fun _ => rfl)
      rw [tickTask_eq]
      split_ifs
      · rw [setTaskState_runTime, hdown]
      · exact hdown
    refine ⟨hrun.trans ih.1, fun hawake => ?_⟩
    have hstate := ih.2 hawake
    have hut : u ≠ t := by
      rintro rfl
      exact hawake (hstate.symm.trans hsleep)
    rw [tickTask_task hsleep, update_of_ne hut, hstate]

/-- `prepare_to_switch` gives the current task a new time slice when its slice is used up
and it runs. -/
theorem SlicesSpent.prepareToSwitch (h : SlicesSpent s) (hinv : Inv s removed) (irq : Bool)
    (t : τ) : SliceOk ((prepareToSwitch irq s).2.task t) := by
  have hother : ∀ t, t ≠ s.current → SliceOk (s.task t) := fun t ht =>
    (h t).resolve_right fun hspent => ht hspent.1
  -- Whatever has all slices has them when the next task starts to run.
  have hin : ∀ s₁ : Scheduler τ, (∀ t, SliceOk (s₁.task t)) → ∀ next t,
      SliceOk ((switchIn s₁ next).task t) := by
    intro s₁ h₁ next t
    apply (h₁ t).congr
    exact (setTaskState_runTime _ next .running t).trans (modify_runTime s₁ next t (by simp))
  unfold Sched.prepareToSwitch
  by_cases hsame : s.current = s.nextRun
  · rw [if_pos hsame]
    have hreload : SliceOk ((getTaskRunTime s s.nextRun).task t) := by
      by_cases ht : t = s.nextRun
      · subst ht
        exact getTaskRunTime_sliceOk (hinv.prio_ok _)
      · rw [getTaskRunTime_of_ne s ht]
        exact hother t (hsame ▸ ht)
    apply hreload.congr
    exact modify_runTime (getTaskRunTime s s.nextRun) s.nextRun t
      (f := fun task => { task with runCount := task.runCount + 1 }) (fun _ => rfl)
  · rw [if_neg hsame]
    simp only
    split_ifs with hrunning
    · refine hin _ (fun u => ?_) _ t
      refine SliceOk.congr ?_ (setTaskState_runTime _ _ _ u)
      split_ifs with hspent
      · by_cases hu : u = s.current
        · subst hu
          apply getTaskRunTime_sliceOk
          simpa [Scheduler.modify] using (decPrio_spec (hinv.prio_ok s.current)).2
        · rw [getTaskRunTime_of_ne _ hu]
          simpa [Scheduler.modify, hu] using hother u hu
      · refine (h u).resolve_right ?_
        rintro ⟨rfl, -, hzero⟩
        exact hspent (Or.inl hzero)
    · refine hin s (fun u => (h u).resolve_right ?_) _ t
      rintro ⟨rfl, hstate, -⟩
      exact hrunning hstate

/-- A last tick of the current task finds it running. -/
def SchedRun.SliceKept : SchedCall τ → SchedRun τ → Prop
  | .tick, r => (r.sched.task r.sched.current).runTime = 1 →
      (r.sched.task r.sched.current).state = .running
  | _, _ => True

instance (call : SchedCall τ) (r : SchedRun τ) : Decidable (r.SliceKept call) :=
  match call with
  | .tick => inferInstanceAs (Decidable (_ → _))
  | .activate _ _ | .sched _ | .suspend _ _ _ | .wakeup _ | .stop _ | .remove _ => .isTrue trivial

variable {call : SchedCall τ} {r : SchedRun τ}

/-- The time slices when a call comes to `find_next_run_task`, or at its end. -/
theorem SchedRun.leadIn_slices (hs : r.IsSettled idle)
    (hslice : ∀ t, SliceOk (r.sched.task t)) (hkept : r.SliceKept call) :
    SlicesSpent (call.leadIn r.sched) ∧
      (call.switches r.sched = none → ∀ t, SliceOk ((call.leadIn r.sched).task t)) := by
  have hall : ∀ {s₁ : Scheduler τ}, (∀ t, SliceOk (s₁.task t)) →
      SlicesSpent s₁ ∧ (call.switches r.sched = none → ∀ t, SliceOk (s₁.task t)) :=
    fun h => ⟨fun t => Or.inl (h t), fun _ => h⟩
  have hset : ∀ {s₁ : Scheduler τ}, (∀ t, SliceOk (s₁.task t)) → ∀ t new u,
      SliceOk ((setTaskState s₁ t new).task u) := by
    intro s₁ h₁ t new u
    exact (h₁ u).congr (setTaskState_runTime s₁ t new u)
  cases call with
  | activate t new => exact hall (hset hslice t new)
  | sched irq => exact hall hslice
  | stop t => exact hall (hset hslice t .idle)
  | suspend irq t timeout =>
    apply hall
    simp only [SchedCall.leadIn]
    split_ifs
    · exact hslice
    · exact hset (fun u => (hslice u).congr (modify_runTime r.sched t u (by simp))) t .sleep
  | wakeup t =>
    apply hall
    simp only [SchedCall.leadIn, wakeupTask]
    split_ifs
    · exact hslice
    · apply hset
      intro u
      by_cases hu : u = t
      · subst hu
        exact getTaskRunTime_sliceOk (hs.inv.prio_ok u)
      · rw [getTaskRunTime_of_ne _ hu]
        exact hslice u
  | remove t =>
    apply hall
    simp only [SchedCall.leadIn, schedRemoveTask]
    split_ifs
    · exact hslice
    · exact hslice
    · exact hslice
  | tick =>
    obtain ⟨⟨s₁, hticks, hlead⟩, hkeeps, -⟩ := hs.leadIn_tick
    have hother : ∀ t, t ≠ r.sched.current → SliceOk ((SchedCall.tick.leadIn r.sched).task t) := by
      intro t ht
      rw [hlead, SliceOk]
      simp only [Scheduler.modify, update_of_ne ht, (runTime_of_ticks hticks t).1]
      exact hslice t
    have hrun : ((SchedCall.tick.leadIn r.sched).task r.sched.current).runTime =
        (r.sched.task r.sched.current).runTime - 1 := by
      rw [hlead]
      simp only [Scheduler.modify, update_self, (runTime_of_ticks hticks _).1]
    obtain ⟨hlo, hhi⟩ := hslice r.sched.current
    by_cases hlast : (r.sched.task r.sched.current).runTime = 1
    · constructor
      · intro t
        by_cases ht : t = r.sched.current
        · subst ht
          have hrunning := hkept hlast
          refine Or.inr ⟨hkeeps.current.symm, ?_, by omega⟩
          rw [hlead]
          simp only [Scheduler.modify, update_self]
          rw [(runTime_of_ticks hticks _).2 (by simp [hrunning])]
          exact hrunning
        · exact Or.inl (hother t ht)
      · intro hnone
        simp [SchedCall.switches, hrun, hlast] at hnone
    · apply hall
      intro t
      by_cases ht : t = r.sched.current
      · subst ht
        rw [SliceOk, hrun]
        omega
      · exact hother t ht

/-- Every call keeps the time slices, when a last tick finds the current task running. -/
theorem SchedRun.step_slices
    (h : r.IsSettled idle ∧ ∀ t, SliceOk (r.sched.task t))
    (hmade : r.Made call ∧ r.SliceKept call) :
    ∃ r', SchedRun.step call r = some r' ∧
      r'.IsSettled idle ∧ ∀ t, SliceOk (r'.sched.task t) := by
  obtain ⟨hs, hslice⟩ := h
  obtain ⟨r', hstep, hsettled⟩ := SchedRun.step_settled hs hmade.1
  obtain ⟨hspent, hnone⟩ := SchedRun.leadIn_slices hs hslice hmade.2
  refine ⟨r', hstep, hsettled, ?_⟩
  cases hcall : call.switches r.sched with
  | none =>
    obtain ⟨gone, hstep'⟩ := SchedRun.step_of_leadIn hs hcall
    obtain rfl := some.inj (hstep.symm.trans hstep')
    exact hnone hcall
  | some irq =>
    obtain ⟨hkeeps, t, -, hstep'⟩ := SchedRun.step_of_switches hs hcall
    obtain rfl := some.inj (hstep.symm.trans hstep')
    exact SlicesSpent.prepareToSwitch (s := { call.leadIn r.sched with nextRun := t }) hspent
      (hkeeps.inv.setCurrent _ _) irq

/-- A call that does not come to `find_next_run_task` and does not wake up the current
task. -/
def SchedRun.Stays (call : SchedCall τ) (r : SchedRun τ) : Prop :=
  call.switches r.sched = none ∧ match call with
    | .wakeup t => t ≠ r.sched.current
    | _ => True

/-- Such a call takes the time of the current task only if it is a tick. -/
theorem SchedRun.Stays.runTime (h : r.Stays call)
    (hs : r.IsSettled idle) :
    ((call.leadIn r.sched).task r.sched.current).runTime =
        (r.sched.task r.sched.current).runTime - ticks [call] ∧
      (call = .tick → (r.sched.task r.sched.current).runTime ≠ 1) := by
  cases call with
  | tick =>
    obtain ⟨⟨s₁, hticks, hlead⟩, -, -⟩ := hs.leadIn_tick
    have hrun : ((SchedCall.tick.leadIn r.sched).task r.sched.current).runTime =
        (r.sched.task r.sched.current).runTime - 1 := by
      rw [hlead]
      simp only [Scheduler.modify, update_self, (runTime_of_ticks hticks _).1]
    refine ⟨hrun, fun _ hlast => ?_⟩
    have hnone := h.1
    simp [SchedCall.switches, hrun, hlast] at hnone
  | activate t new => exact ⟨by simp [SchedCall.leadIn, setTaskState_runTime, ticks], by simp⟩
  | sched irq => exact ⟨by simp [SchedCall.leadIn, ticks], by simp⟩
  | stop t => exact ⟨by simp [SchedCall.leadIn, setTaskState_runTime, ticks], by simp⟩
  | suspend irq t timeout =>
    refine ⟨?_, by simp⟩
    simp only [SchedCall.leadIn, ticks, Nat.cast_zero, sub_zero]
    split_ifs
    · rfl
    · exact (setTaskState_runTime _ t .sleep _).trans (modify_runTime r.sched t _ (by simp))
  | wakeup t =>
    refine ⟨?_, by simp⟩
    have hne : r.sched.current ≠ t := Ne.symm h.2
    simp only [SchedCall.leadIn, wakeupTask, ticks, Nat.cast_zero, sub_zero]
    split_ifs
    · rfl
    · rw [setTaskState_runTime, getTaskRunTime_of_ne _ hne]
  | remove t =>
    refine ⟨?_, by simp⟩
    simp only [SchedCall.leadIn, schedRemoveTask, ticks, Nat.cast_zero, sub_zero]
    split_ifs
    · rfl
    · rfl
    · rfl

omit [DecidableEq τ] in
theorem ticks_cons (call : SchedCall τ) (calls : List (SchedCall τ)) :
    ticks (call :: calls) = ticks [call] + ticks calls := by
  cases call <;> simp [ticks, Nat.add_comm]

/-- As long as no call comes to `find_next_run_task`, there are fewer ticks than the current
task has time. -/
theorem SchedRun.ticks_lt (calls : List (SchedCall τ))
    (hs : r.IsSettled idle)
    (hpos : 1 ≤ (r.sched.task r.sched.current).runTime)
    (hstays : Meets SchedRun.step (fun call r => r.Made call ∧ r.Stays call) calls r) :
    (ticks calls : ℤ) < (r.sched.task r.sched.current).runTime := by
  induction calls generalizing r with
  | nil => exact Int.lt_of_add_one_le hpos
  | cons call calls ih =>
    obtain ⟨⟨hmade, hcall⟩, hrest⟩ := hstays
    obtain ⟨hrun, hlast⟩ := hcall.runTime hs
    obtain ⟨r', hstep, hsettled⟩ := SchedRun.step_settled hs hmade
    obtain ⟨gone, hstep'⟩ := SchedRun.step_of_leadIn hs hcall.1
    obtain rfl := some.inj (hstep.symm.trans hstep')
    have hcurrent := (SchedRun.leadIn_noStart hs hmade).2
    have hticks : call = .tick ∨ ticks [call] = 0 := by
      cases call <;> simp [ticks]
    have hlt := ih hsettled
    simp only [hcurrent, hrun] at hlt
    rw [ticks_cons]
    rcases hticks with rfl | hzero
    · have hne := hlast rfl
      have hone : ticks ([.tick] : List (SchedCall τ)) = 1 := rfl
      have := hlt (by omega) (hrest _ hstep)
      omega
    · have := hlt (by omega) (hrest _ hstep)
      omega

theorem SchedRun.boot_slices (idle : τ) (pid : τ → ℤ) (t : τ) :
    SliceOk ((SchedRun.boot idle pid).sched.task t) := by
  by_cases ht : t = idle
  · simp [SchedRun.boot, bootSched, initSchedStruct, ht, SliceOk, taskMaxPrio]
  · simp [SchedRun.boot, bootSched, initSchedStruct, ht, SliceOk, taskMaxPrio, taskDefaultPrio]

/-- In every run in which a last tick finds the current task running, each call completes,
and then the current task has between 1 and 69 ticks left. From there on fewer ticks than
that go by without a call that comes to `find_next_run_task`, or one that wakes up the
current task and so gives it a new time slice. -/
theorem slice_runs_bounded (idle : τ) (pid : τ → ℤ) (calls : List (SchedCall τ))
    (hmade : Meets SchedRun.step (fun call r => r.Made call ∧ r.SliceKept call) calls
      (SchedRun.boot idle pid)) :
    ∃ r, run SchedRun.step calls (SchedRun.boot idle pid) = some r ∧
      1 ≤ (r.sched.task r.sched.current).runTime ∧
      (r.sched.task r.sched.current).runTime ≤ 69 ∧
      ∀ more, Meets SchedRun.step (fun call r => r.Made call ∧ r.Stays call) more r →
        (ticks more : ℤ) < (r.sched.task r.sched.current).runTime := by
  obtain ⟨r, hrun, hs, hslice⟩ := exists_run_of_meets
    (I := fun r : SchedRun τ =>
      r.IsSettled idle ∧ ∀ t, SliceOk (r.sched.task t))
    (fun _ _ => SchedRun.step_slices) ⟨boot_settled idle pid, SchedRun.boot_slices idle pid⟩ hmade
  obtain ⟨hlo, hhi⟩ := hslice r.sched.current
  exact ⟨r, hrun, hlo, hhi, fun more hmore => SchedRun.ticks_lt more hs hlo hmore⟩

/-- A task that runs until its time slice is used up. -/
def sliceCalls : List (SchedCall ℕ) :=
  [.activate 1 .prepare, .sched false] ++ List.replicate 49 .tick

/-- Its last tick finds it running. -/
theorem slice_runs_bounded_sliceCalls :
    Meets SchedRun.step (fun call r => r.Made call ∧ r.SliceKept call) sliceCalls
      (SchedRun.boot 0 fun t => (t : ℤ)) ∧
    ∃ r, run SchedRun.step sliceCalls (SchedRun.boot 0 fun t => (t : ℤ)) = some r ∧
      1 ≤ (r.sched.task r.sched.current).runTime := by
  have hmade : Meets SchedRun.step (fun call r => r.Made call ∧ r.SliceKept call) sliceCalls
      (SchedRun.boot 0 fun t => (t : ℤ)) := by
    decide +kernel
  obtain ⟨r, hrun, hlo, -⟩ := slice_runs_bounded 0 (fun t : ℕ => (t : ℤ)) sliceCalls hmade
  exact ⟨hmade, r, hrun, hlo⟩

/-- A task goes to sleep for two ticks when it has one tick left. The first tick comes before
its call of `sched`, and the second one wakes it up. -/
def expiredCalls : List (SchedCall ℕ) :=
  [.activate 1 .prepare, .sched false] ++ List.replicate 48 .tick ++
    [.suspend true 1 2, .tick, .tick, .sched false]

/-- The task runs again with no time left. -/
theorem expiredCalls_runTime :
    Meets SchedRun.step (fun call r => r.Made call) expiredCalls (SchedRun.boot 0 fun t => (t : ℤ)) ∧
    ∃ r, run SchedRun.step expiredCalls (SchedRun.boot 0 fun t => (t : ℤ)) = some r ∧
      r.sched.current = 1 ∧ (r.sched.task 1).state = .running ∧ (r.sched.task 1).runTime = 0 := by
  exact ⟨by decide +kernel, by decide +kernel⟩

end Chunos.Sched
