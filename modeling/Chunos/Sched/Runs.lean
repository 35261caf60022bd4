import Chunos.Lib.Runs
import Chunos.Sched.Tick

/-!
# Runs of the scheduler

Tasks are activated, suspended, woken up, stopped and removed, the scheduler is called and
the timer ticks, in any order and for any number of tasks. All of this completes, and after
it each task is on the lists of its state.
-/

namespace Chunos.Sched

open Rings Runs Option

variable {τ : Type*} {s s' s'' : Scheduler τ} {removed : τ → Prop}

theorem Inv.setCurrent (hinv : Inv s removed) (current nextRun : τ) :
    Inv { s with current := current, nextRun := nextRun } removed :=
  ⟨hinv.queues, hinv.prio_ok, hinv.removed_ok, hinv.idle_ok⟩

theorem findPrioLoop_spec {count : Queue → ℤ} {n : ℕ} {i j : ℤ}
    (h : findPrioLoop count n i = some j) : i ≤ j ∧ j < i + n ∧ count (.prio j) ≠ 0 := by
  induction n generalizing i with
  | zero => simp [findPrioLoop] at h
  | succ n ih =>
    rw [findPrioLoop] at h
    split_ifs at h with hcount
    · obtain rfl := some.inj h
      exact ⟨le_rfl, by omega, hcount⟩
    · obtain ⟨hle, hlt, hne⟩ := ih h
      exact ⟨by omega, by omega, hne⟩

theorem findPrioLoop_first {count : Queue → ℤ} {n : ℕ} {i j : ℤ} (hij : i ≤ j) (hjn : j < i + n)
    (hcount : count (.prio j) ≠ 0) : ∃ k ≤ j, findPrioLoop count n i = some k := by
  induction n generalizing i with
  | zero => omega
  | succ n ih =>
    rw [findPrioLoop]
    split_ifs with hi
    · exact ⟨i, hij, rfl⟩
    · have hne : i ≠ j := by
        rintro rfl
        exact hi hcount
      exact ih (by omega) (by omega)

/-- `find_next_run_task` completes. It chooses the first task on the first list of the table
that is not empty, and leaves the choice as it is when all of them are empty. -/
theorem findNextRunTask_linked {lists : Queue → List τ} (h : Linked s.links s.count lists) :
    (∀ i, (Queue.prio i).Valid → lists (.prio i) = []) ∧ findNextRunTask s = some s ∨
    ∃ i t rest, (Queue.prio i).Valid ∧ (∀ j, 0 ≤ j → j < i → lists (.prio j) = []) ∧
      lists (.prio i) = t :: rest ∧ findNextRunTask s = some { s with nextRun := t } := by
  -- The counter is the length, so a list with a task is found at its index or before.
  have hfirst : ∀ j, (Queue.prio j).Valid → lists (.prio j) ≠ [] →
      ∃ k ≤ j, findPrioLoop s.count 64 0 = some k := by
    intro j hj hne
    apply findPrioLoop_first hj.1 (by simpa [taskMaxPrio] using hj.2)
    rw [h.counts _ hj]
    simpa using hne
  unfold findNextRunTask
  cases hfind : findPrioLoop s.count 64 0 with
  | none =>
    refine Or.inl ⟨fun i hi => ?_, rfl⟩
    by_contra hne
    obtain ⟨k, -, hk⟩ := hfirst i hi hne
    simp [hfind] at hk
  | some i =>
    obtain ⟨hle, hlt, hcount⟩ := findPrioLoop_spec hfind
    have hvalid : (Queue.prio i).Valid := ⟨hle, by simpa [taskMaxPrio] using hlt⟩
    cases hlist : lists (.prio i) with
    | nil =>
      rw [h.counts _ hvalid, hlist] at hcount
      exact absurd rfl hcount
    | cons t rest =>
      have hpath := h.family.path _ hvalid
      rw [hlist] at hpath
      have hnext : s.links.next (.head (.prio i)) = .prioRunning t := hpath.1
      refine Or.inr ⟨i, t, rest, hvalid, ?_, hlist, by simp only [hnext]⟩
      intro j hj hji
      by_contra hne
      obtain ⟨k, hkj, hk⟩ := hfirst j ⟨hj, hji.trans hvalid.2⟩ hne
      obtain rfl := some.inj (hfind.symm.trans hk)
      omega

/-- A task that `find_next_run_task` chooses is ready and has not been removed. -/
theorem findNextRunTask_inv (hinv : Inv s removed) :
    ∃ t, findNextRunTask s = some { s with nextRun := t } ∧
      (t = s.nextRun ∨ ¬ removed t ∧ (s.task t).state = .prepare) := by
  obtain ⟨lists, hlinked, hmem⟩ := hinv.queues
  rcases findNextRunTask_linked hlinked with ⟨-, hfind⟩ | ⟨i, t, rest, hvalid, -, hlist, hfind⟩
  · exact ⟨s.nextRun, hfind, Or.inl rfl⟩
  · have ht : Belongs s removed (.prio i) t := (hmem _ hvalid t).mp (by simp [hlist])
    exact ⟨t, hfind, Or.inr ⟨ht.1, ht.2.1⟩⟩

theorem decPrio_spec {task : Task} (h : 0 ≤ task.prio ∧ task.prio < taskMaxPrio) :
    (decPrio task).state = task.state ∧
      0 ≤ (decPrio task).prio ∧ (decPrio task).prio < taskMaxPrio := by
  refine ⟨rfl, ?_⟩
  simp only [decPrio]
  split_ifs <;> simp only [taskMaxPrio] at * <;> omega

/-- Between two calls: the invariant, and the next task runs. -/
structure Settled (idle : τ) (removed : τ → Prop) (s : Scheduler τ) : Prop where
  inv : Inv s removed
  idle_eq : s.idle = idle
  current_eq : s.current = s.nextRun

theorem Settled.of_keeps {idle : τ} (hs : Settled idle removed s) (h : Keeps removed s s') :
    Settled idle removed s' :=
  ⟨h.inv, h.idle.trans hs.idle_eq, h.current.trans (hs.current_eq.trans h.nextRun.symm)⟩

variable [DecidableEq τ]

theorem getTaskRunTime_keeps (hinv : Inv s removed) (t : τ) :
    Keeps removed s (getTaskRunTime s t) :=
  modify_keeps hinv t (fun _ => rfl) (fun _ => rfl)

theorem putBack_keeps (irq : Bool) (hinv : Inv s removed)
    (hstate : (s.task s.current).state = .running) : Keeps removed s (putBack irq s) := by
  have hcurrent : ¬ removed s.current := hinv.not_removed (by simp [hstate])
  obtain ⟨hkeep, hrange⟩ := decPrio_spec (hinv.prio_ok s.current)
  have hdec : Keeps removed s (s.modify s.current decPrio) :=
    ⟨hinv.modify hkeep (Or.inr (by simp [hstate])) hrange, rfl, rfl, rfl⟩
  unfold putBack
  simp only
  split_ifs
  · have hslice := hdec.trans (getTaskRunTime_keeps hdec.inv s.current)
    exact hslice.trans (setTaskState_keeps hslice.inv hcurrent .prepare (by simp))
  · exact setTaskState_keeps hinv hcurrent .prepare (by simp)

theorem switchIn_keeps (hinv : Inv s removed) {next : τ} (hnext : ¬ removed next) :
    Keeps removed s (switchIn s next) := by
  have hmodify := modify_keeps hinv next
    (f := fun task => { task with
      timeOut := if task.waitTime = 0 then 1 else task.timeOut, waitTime := -1 })
    (fun _ => rfl) (fun _ => rfl)
  exact hmodify.trans (setTaskState_keeps hmodify.inv hnext .running (by simp))

/-- `prepare_to_switch`, for a next task that is the current one or has not been removed. -/
theorem prepareToSwitch_keeps (irq : Bool) (hinv : Inv s removed)
    (hnext : s.nextRun = s.current ∨ ¬ removed s.nextRun) :
    Keeps removed s (prepareToSwitch irq s).2 ∧
      ((prepareToSwitch irq s).1 ≠ 0 → s.current = s.nextRun) := by
  unfold prepareToSwitch
  by_cases hsame : s.current = s.nextRun
  · rw [if_pos hsame]
    have hslice := getTaskRunTime_keeps hinv s.nextRun
    refine ⟨hslice.trans ?_, fun _ => hsame⟩
    simp only
    exact modify_keeps hslice.inv s.nextRun (fun _ => rfl) (fun _ => rfl)
  · rw [if_neg hsame]
    have hready := hnext.resolve_left (Ne.symm hsame)
    refine ⟨?_, fun hne => absurd rfl hne⟩
    simp only
    split_ifs with hrunning
    · have hback := putBack_keeps irq hinv hrunning
      exact hback.trans (switchIn_keeps hback.inv (hback.nextRun ▸ hready))
    · exact switchIn_keeps hinv hready

/-- `find_next_run_task` and `prepare_to_switch` complete, in either mode. The next task is
the current one, or it is ready. -/
theorem Settled.switch {idle : τ} (hs : Settled idle removed s) (irq : Bool) :
    ∃ t, findNextRunTask s = some { s with nextRun := t } ∧
      (t = s.current ∨ (s.task t).state = .prepare) ∧
      Keeps removed { s with nextRun := t } (prepareToSwitch irq { s with nextRun := t }).2 ∧
      ((prepareToSwitch irq { s with nextRun := t }).1 ≠ 0 → s.current = t) := by
  obtain ⟨t, hfind, ht⟩ := findNextRunTask_inv hs.inv
  rw [← hs.current_eq] at ht
  refine ⟨t, hfind, ht.imp_right fun hready => hready.2, ?_⟩
  apply prepareToSwitch_keeps irq (hs.inv.setCurrent s.current t)
  exact ht.imp_right fun hready => hready.1

/-- `sched` completes. -/
theorem Settled.sched {idle : τ} (hs : Settled idle removed s) (irq : Bool) :
    ∃ s', sched irq s = some s' ∧ Settled idle removed s' := by
  unfold Sched.sched
  split_ifs
  · exact ⟨s, rfl, hs⟩
  · exact ⟨s, rfl, hs⟩
  · obtain ⟨t, hfind, -, hkeeps, hrerun⟩ := hs.switch irq
    refine ⟨_, by rw [hfind]; rfl, ?_⟩
    simp only
    split_ifs with hret
    · refine ⟨hkeeps.inv, hkeeps.idle.trans hs.idle_eq, ?_⟩
      exact hkeeps.current.trans ((hrerun hret).trans hkeeps.nextRun.symm)
    · exact ⟨hkeeps.inv.setCurrent _ _, hkeeps.idle.trans hs.idle_eq, rfl⟩

theorem Settled.tick {idle : τ} (hs : Settled idle removed s) :
    ∃ s', osTickHandler ((s.count .sleep).toNat + 1) s = some s' ∧
      Settled idle removed (irqExit s') := by
  obtain ⟨s₁, hloop, hkeeps, -⟩ := hs.inv.tickLoop
  have hs₁ := hs.of_keeps hkeeps
  have hs₂ := hs₁.of_keeps (modify_keeps hs₁.inv s₁.current
    (f := fun task => { task with runTime := task.runTime - 1 }) (fun _ => rfl) (fun _ => rfl))
  unfold osTickHandler
  rw [hloop, bind_some]
  simp only
  split_ifs
  · obtain ⟨t, hfind, -, hswitch, -⟩ := hs₂.switch true
    rw [hfind]
    exact ⟨_, rfl, hswitch.inv.setCurrent _ _, hswitch.idle.trans hs₂.idle_eq, rfl⟩
  · exact ⟨_, rfl, hs₂.inv.setCurrent _ _, hs₂.idle_eq, rfl⟩

theorem markAsleep_keeps (hinv : Inv s removed) {t : τ} (ht : ¬ removed t) (timeout : ℤ) :
    Keeps removed s (markAsleep s t timeout) := by
  have hmodify := modify_keeps hinv t
    (f := fun task => { task with waitTime := timeout, timeOut := 0 })
    (fun _ => rfl) (fun _ => rfl)
  exact hmodify.trans (setTaskState_keeps hmodify.inv ht .sleep (by simp))

/-- `suspend_task_timeout` completes. It refuses a task that has been removed. -/
theorem Settled.suspendTaskTimeout {idle : τ} (hs : Settled idle removed s) (irq : Bool)
    (t : τ) (timeout : ℤ) :
    ∃ r, suspendTaskTimeout irq s t timeout = some r ∧ Settled idle removed r.2 := by
  unfold Sched.suspendTaskTimeout
  split_ifs with hzero hidle
  · exact ⟨_, rfl, hs⟩
  · exact ⟨_, rfl, hs⟩
  · have hasleep := hs.of_keeps (markAsleep_keeps hs.inv (hs.inv.not_removed hidle) timeout)
    obtain ⟨s', hs', hsettled⟩ := hasleep.sched irq
    refine ⟨(none, s'), ?_, hsettled⟩
    rw [hs', map_some]

theorem Settled.wakeupTask {idle : τ} (hs : Settled idle removed s) (t : τ) :
    Settled idle removed (wakeupTask s t).2 := by
  unfold Sched.wakeupTask
  split_ifs with hsleep
  · exact hs
  · have hstate : (s.task t).state = .sleep := not_not.mp hsleep
    have ht : ¬ removed t := hs.inv.not_removed (by simp [hstate])
    have hslice := getTaskRunTime_keeps hs.inv t
    exact hs.of_keeps (hslice.trans (setTaskState_keeps hslice.inv ht .prepare (by simp)))

/-- A stopped task is taken off its two lists. -/
theorem Inv.remove (hinv : Inv s removed) {t : τ} (ht : ¬ removed t) (hidle : t ≠ s.idle)
    (hstate : (s.task t).state = .idle) :
    Inv (schedListDelTask (schedListDelTask s .idle t) .system t) fun t' => t' = t ∨ removed t' := by
  have hon : Belongs s removed .idle t := ⟨ht, hstate⟩
  have hsystem : Belongs s removed .system t := ⟨ht, by simp [hstate], hidle⟩
  have hdel := hinv.queues.del (q := .idle) trivial hon
  have hdel' := Queues.del (s := schedListDelTask s .idle t) hdel (q := .system) trivial
    ⟨hsystem, by simp⟩
  constructor
  · apply hdel'.congr
    intro q _ t'
    by_cases htt : t' = t
    · subst htt
      cases q <;> simp [Belongs, hstate, schedListDelTask]
    · cases q <;> simp [Belongs, htt, schedListDelTask]
  · exact hinv.prio_ok
  · rintro t' (rfl | ht')
    · exact ⟨hstate, hidle⟩
    · exact hinv.removed_ok t' ht'
  · exact hinv.idle_ok

/-- `sched_remove_task` removes the task when it returns 0, and does nothing otherwise. -/
theorem Settled.schedRemoveTask {idle : τ} (hs : Settled idle removed s) {t : τ} (ht : ¬ removed t)
    (hidle : t ≠ s.idle) :
    Settled idle (fun t' => (schedRemoveTask s t).1 = 0 ∧ t' = t ∨ removed t')
      (schedRemoveTask s t).2 := by
  unfold Sched.schedRemoveTask
  split_ifs with hstate hpid
  · simpa [einval] using hs
  · simpa [einval] using hs
  · have hinv := hs.inv.remove ht hidle (not_not.mp hstate)
    exact ⟨by simpa using hinv, hs.idle_eq, hs.current_eq⟩

/-- A state of a run: the scheduler, and the tasks that have been removed. -/
structure SchedRun (τ : Type*) where
  sched : Scheduler τ
  removed : List τ

/-- The scheduler of a run is settled between two calls. -/
abbrev SchedRun.IsSettled (idle : τ) (r : SchedRun τ) : Prop :=
  Settled idle (fun t => t ∈ r.removed) r.sched

/-- The calls of a run. A call is made in an interrupt or not, as `inInterrupt` says. -/
inductive SchedCall (τ : Type*) where
  | activate (t : τ) (new : State)
  | sched (inInterrupt : Bool)
  | tick
  | suspend (inInterrupt : Bool) (t : τ) (timeout : ℤ)
  | wakeup (t : τ)
  | stop (t : τ)
  | remove (t : τ)

/-- One call. A task is removed when `sched_remove_task` has returned 0 for it. -/
def SchedRun.step : SchedCall τ → SchedRun τ → Option (SchedRun τ)
  | .activate t new, r => some { r with sched := setTaskState r.sched t new }
  | .sched irq, r => (Sched.sched irq r.sched).map fun s => { r with sched := s }
  | .tick, r =>
    (osTickHandler ((r.sched.count .sleep).toNat + 1) r.sched).map fun s =>
      { r with sched := irqExit s }
  | .suspend irq t timeout, r =>
    (suspendTaskTimeout irq r.sched t timeout).map fun res => { r with sched := res.2 }
  | .wakeup t, r => some { r with sched := (wakeupTask r.sched t).2 }
  | .stop t, r => some { r with sched := setTaskState r.sched t .idle }
  | .remove t, r =>
    let (ret, s) := schedRemoveTask r.sched t
    some { sched := s, removed := if ret = 0 then t :: r.removed else r.removed }

/-- What the callers see to: a task is activated from `PROCESS_STATE_UNKNOWN`, the idle task
is not stopped or removed, and a task is removed once. -/
def SchedRun.Legal : SchedCall τ → SchedRun τ → Prop
  | .activate t new, r => (r.sched.task t).state = .unknown ∧ (new = .prepare ∨ new = .sleep)
  | .stop t, r => t ≠ r.sched.idle
  | .remove t, r => t ≠ r.sched.idle ∧ t ∉ r.removed
  | _, _ => True

instance (call : SchedCall τ) (r : SchedRun τ) : Decidable (r.Legal call) :=
  match call with
  | .activate .. => inferInstanceAs (Decidable (_ ∧ (_ ∨ _)))
  | .stop _ => inferInstanceAs (Decidable (_ ≠ _))
  | .remove _ => inferInstanceAs (Decidable (_ ∧ _))
  | .sched _ | .tick | .suspend _ _ _ | .wakeup _ => .isTrue trivial

/-- The calls that the kernel makes. A task may be activated in any state, as `do_exec` does
with the current task. -/
def SchedRun.Made : SchedCall τ → SchedRun τ → Prop
  | .activate _ new, _ => new = .prepare ∨ new = .sleep
  | .stop t, r => t ≠ r.sched.idle
  | .remove t, r => t ≠ r.sched.idle ∧ t ∉ r.removed
  | _, _ => True

instance (call : SchedCall τ) (r : SchedRun τ) : Decidable (r.Made call) :=
  match call with
  | .activate .. => inferInstanceAs (Decidable (_ ∨ _))
  | .stop _ => inferInstanceAs (Decidable (_ ≠ _))
  | .remove _ => inferInstanceAs (Decidable (_ ∧ _))
  | .sched _ | .tick | .suspend _ _ _ | .wakeup _ => .isTrue trivial

omit [DecidableEq τ] in
theorem SchedRun.Legal.made {r : SchedRun τ} {call : SchedCall τ} (h : r.Legal call) :
    r.Made call := by
  cases call with
  | activate t new => exact h.2
  | stop t => exact h
  | remove t => exact h
  | sched _ | tick | suspend _ _ _ | wakeup _ => trivial

/-- The start of a run. -/
def SchedRun.boot (idle : τ) (pid : τ → ℤ) : SchedRun τ :=
  { sched := bootSched idle pid, removed := [] }

/-- After the start all lists are empty, and only the idle task is active. -/
theorem boot_settled (idle : τ) (pid : τ → ℤ) :
    (SchedRun.boot idle pid).IsSettled idle := by
  have hstate : ∀ t, ((bootSched idle pid).task t).state =
      if t = idle then .running else .unknown := by
    intro t
    by_cases ht : t = idle <;> simp [bootSched, initSchedStruct, ht]
  have hprio : ∀ t, ((bootSched idle pid).task t).prio = if t = idle then 63 else 20 := by
    intro t
    by_cases ht : t = idle <;> simp [bootSched, initSchedStruct, ht, taskMaxPrio, taskDefaultPrio]
  refine ⟨⟨⟨fun _ => [], ⟨⟨?_, ?_, ?_⟩, ?_⟩, ?_⟩, ?_, ?_, ?_⟩, rfl, rfl⟩
  · exact fun q _ => ⟨rfl, rfl⟩
  · exact fun q _ => List.nodup_singleton _
  · intro q q' _ _ hne
    simpa using Ne.symm hne
  · exact fun q _ => rfl
  · intro q _ t
    by_cases ht : t = idle <;> cases q <;>
      simp [Belongs, SchedRun.boot, hstate, ht]
    rfl
  · intro t
    simp only [SchedRun.boot, hprio]
    split_ifs <;> simp [taskMaxPrio]
  · simp [SchedRun.boot]
  · simp [SchedRun.boot, hstate, show (bootSched idle pid).idle = idle from rfl]

section
variable {idle : τ} {r : SchedRun τ} {call : SchedCall τ}
  (hs : r.IsSettled idle)
include hs

theorem setTaskState_of_removed {t : τ} (ht : t ∈ r.removed) (new : State) :
    setTaskState r.sched t new = r.sched := by
  obtain ⟨hstate, -⟩ := hs.inv.removed_ok t ht
  have hchange : changeTable (r.sched.task t).state new = .noneToNone := by
    rw [hstate]
    rfl
  rw [setTaskState, if_pos hchange]

theorem Settled.setTaskState (t : τ) {new : State} (hnew : new ≠ .unknown) :
    Settled idle (fun t => t ∈ r.removed) (setTaskState r.sched t new) := by
  by_cases ht : t ∈ r.removed
  · rw [setTaskState_of_removed hs ht]
    exact hs
  · exact hs.of_keeps (setTaskState_keeps hs.inv ht new hnew)

/-- Every call that is made completes and leaves the scheduler settled. -/
theorem SchedRun.step_settled (hmade : r.Made call) :
    ∃ r', SchedRun.step call r = some r' ∧ r'.IsSettled idle := by
  cases call with
  | activate t new =>
    have hactive : new ≠ .unknown := by
      rintro rfl
      simp [SchedRun.Made] at hmade
    exact ⟨_, rfl, hs.setTaskState t hactive⟩
  | sched irq =>
    obtain ⟨s', hs', hsettled⟩ := hs.sched irq
    exact ⟨{ r with sched := s' }, by simp [SchedRun.step, hs'], hsettled⟩
  | tick =>
    obtain ⟨s', hs', hsettled⟩ := hs.tick
    exact ⟨{ r with sched := irqExit s' }, by simp [SchedRun.step, hs'], hsettled⟩
  | suspend irq t timeout =>
    obtain ⟨res, hres, hsettled⟩ := hs.suspendTaskTimeout irq t timeout
    exact ⟨{ r with sched := res.2 }, by simp [SchedRun.step, hres], hsettled⟩
  | wakeup t => exact ⟨_, rfl, hs.wakeupTask t⟩
  | stop t => exact ⟨_, rfl, hs.setTaskState t (by simp)⟩
  | remove t =>
    obtain ⟨hidle, ht⟩ := hmade
    have hremoved := hs.schedRemoveTask ht hidle
    refine ⟨{ sched := (schedRemoveTask r.sched t).2, removed :=
      if (schedRemoveTask r.sched t).1 = 0 then t :: r.removed else r.removed }, rfl, ?_⟩
    by_cases hret : (schedRemoveTask r.sched t).1 = 0
    · simpa [IsSettled, hret] using hremoved
    · simpa [IsSettled, hret] using hremoved

end

/-- In every run of legal calls, each call completes. After the run the lists are linked and
each counter is the length of its list, no task is on a list twice, and a task is on a list
iff its state requires it: the active tasks that have not been removed, but for the idle
task, are on the system list, and those in the states `PREPARE`, `SLEEP` and `IDLE` are on
the queue of their priority, the sleep list and the idle list. -/
theorem sched_runs_linked (idle : τ) (pid : τ → ℤ) (calls : List (SchedCall τ))
    (hlegal : Meets SchedRun.step (fun call r => r.Legal call) calls (SchedRun.boot idle pid)) :
    ∃ r lists, run SchedRun.step calls (SchedRun.boot idle pid) = some r ∧ r.sched.idle = idle ∧
      Linked r.sched.links r.sched.count lists ∧
      (∀ q, q.Valid → (lists q).Nodup) ∧
      ∀ q, q.Valid → ∀ t, t ∈ lists q ↔ Belongs r.sched (fun t => t ∈ r.removed) q t := by
  obtain ⟨r, hrun, hs⟩ := exists_run_of_meets (I := SchedRun.IsSettled idle)
    (fun _ _ => SchedRun.step_settled) (boot_settled idle pid)
    (hlegal.mono fun _ _ => SchedRun.Legal.made)
  obtain ⟨lists, hlinked, hmem⟩ := hs.inv.queues
  exact ⟨r, lists, hrun, hs.idle_eq, hlinked, fun q hq => hlinked.nodup hq, hmem⟩

/-- Two tasks next to the idle task: one sleeps until the timer wakes it up, the other one
is stopped and removed. -/
def twoTaskCalls : List (SchedCall ℕ) :=
  [.activate 1 .prepare, .activate 2 .sleep, .sched false, .suspend false 1 1, .tick, .wakeup 2,
    .sched false, .stop 2, .sched false, .remove 2, .tick]

/-- The calls are legal, and the lists are right after them. -/
theorem sched_runs_linked_twoTasks :
    Meets SchedRun.step (fun call r => r.Legal call) twoTaskCalls
      (SchedRun.boot 0 fun t => (t : ℤ) + 1) ∧
    ∃ r lists, run SchedRun.step twoTaskCalls (SchedRun.boot 0 fun t => (t : ℤ) + 1) = some r ∧
      r.sched.idle = 0 ∧
      Linked r.sched.links r.sched.count lists ∧
      (∀ q, q.Valid → (lists q).Nodup) ∧
      ∀ q, q.Valid → ∀ t, t ∈ lists q ↔ Belongs r.sched (fun t => t ∈ r.removed) q t := by
  have hlegal : Meets SchedRun.step (fun call r => r.Legal call) twoTaskCalls
      (SchedRun.boot 0 fun t => (t : ℤ) + 1) := by
    decide +kernel
  exact ⟨hlegal, sched_runs_linked 0 _ twoTaskCalls hlegal⟩

end Chunos.Sched
