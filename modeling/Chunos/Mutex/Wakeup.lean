import Chunos.Mutex.Exclusion
import Chunos.Mutex.Waiting

/-!
# No lost wakeup

A task that sleeps in `mutex_lock_timeout` relies on being linked on the wait list of a
locked mutex, because `mutex_unlock` is what wakes it up. Linking and going to sleep are two
critical sections, and a task that has timed out unlinks itself in a third one. An unlock
between them unlinks a task that does not sleep, and then the task sleeps unlinked, or
unlinks itself a second time, which cuts off the tasks that have come since. The steps are
harmless as long as every task on the wait list sleeps when the mutex is unlocked, and a
task does not link itself twice.
-/

namespace Chunos.Mutex

open Rings Sched Runs Function List Option

variable {τ μ : Type*} [DecidableEq τ] [DecidableEq μ]
variable {idle : τ} {r r' : MutexRun τ μ} {waiting : μ → List τ}

/-- What a step requires of the state before it: a task that starts to lock a mutex, or
iterates, does not sleep, a task does not link itself on a wait list that it is on, and a
mutex is unlocked when all tasks on its wait list sleep. -/
def MutexRun.Calm (r : MutexRun τ μ) : MutexCall τ μ → Prop
  | .lock t _ _ => (r.sched.task t).state ≠ .sleep
  | .iterate t => (r.sched.task t).state ≠ .sleep ∧
      ∀ m ∈ (r.pc t).mutex, ¬ LinkedOn r.mutexes.wait m t
  | .unlock _ m _ => ∀ t, LinkedOn r.mutexes.wait m t → (r.sched.task t).state = .sleep
  | _ => True

/-- The loop of `mutex_unlock` over a list of sleeping tasks takes them off the list and
wakes them up, and leaves the others. -/
theorem unlockLoop_waiting {m : μ} (rest : List τ) {fuel : ℕ} {mx mx' : Mutexes τ μ}
    {s s' : Scheduler τ} (hloop : unlockLoop m fuel (waitNode m rest) mx s = some (mx', s'))
    (hs : Settled idle (fun _ => False) s)
    (hrings : Family mx.wait (fun _ => True) WaitNode.mutex
      (fun m' => (update waiting m rest m').map .task))
    (hasleep : ∀ t ∈ rest, (s.task t).state = .sleep) :
    Settled idle (fun _ => False) s' ∧
    Family mx'.wait (fun _ => True) WaitNode.mutex
      (fun m' => (update waiting m [] m').map .task) ∧
    (∀ t ∈ rest, (s'.task t).state = .prepare ∧ (s'.task t).waitTime = (s.task t).waitTime ∧
      (s'.task t).timeOut = (s.task t).timeOut) ∧
    ∀ t ∉ rest, s'.task t = s.task t := by
  induction rest generalizing fuel mx s with
  | nil =>
    cases fuel with
    | zero => simp [unlockLoop] at hloop
    | succ fuel =>
      simp only [unlockLoop, waitNode, if_true] at hloop
      cases hloop
      exact ⟨hs, hrings, by simp, fun t _ => rfl⟩
  | cons t rest ih =>
    cases fuel with
    | zero => simp [unlockLoop] at hloop
    | succ fuel =>
      have hstate : (s.task t).state = .sleep := hasleep t mem_cons_self
      have hnodup := hrings.nodup m trivial
      simp only [update_self, map_cons] at hnodup
      have ht : t ∉ rest := by
        have hhead := (nodup_cons.mp (nodup_cons.mp hnodup).2).1
        exact fun hmem => hhead (List.mem_map_of_mem hmem)
      obtain ⟨hrings', hnext⟩ := delWait_first hrings
      have hasleep' : ∀ t' ∈ rest, ((wakeupTask s t).2.task t').state = .sleep := by
        intro t' ht'
        have htt : t' ≠ t := fun heq => ht (heq ▸ ht')
        rw [wakeupTask_task hstate, update_of_ne htt]
        exact hasleep t' (mem_cons_of_mem t ht')
      simp only [unlockLoop, waitNode, reduceCtorEq, if_false, hnext] at hloop
      obtain ⟨hs', hfinal, hwoken, hothers⟩ := ih hloop (hs.wakeupTask t) hrings' hasleep'
      refine ⟨hs', hfinal, ?_, ?_⟩
      · intro t' ht'
        obtain rfl | ht' := mem_cons.mp ht'
        · rw [hothers t' ht, wakeupTask_task hstate, update_self]
          exact ⟨rfl, rfl, rfl⟩
        · have htt : t' ≠ t := fun heq => ht (heq ▸ ht')
          obtain ⟨hprepare, hwait, htimeOut⟩ := hwoken t' ht'
          rw [wakeupTask_task hstate, update_of_ne htt] at hwait htimeOut
          exact ⟨hprepare, hwait, htimeOut⟩
      · intro t' ht'
        obtain ⟨htt, ht'⟩ := not_or.mp (fun hor => ht' (mem_cons.mpr hor))
        rw [hothers t' ht', wakeupTask_task hstate, update_of_ne htt]

/-- `mutex_unlock`, when all tasks on the wait list sleep. -/
theorem Waiting.unlock (h : Waiting idle r waiting) {m : μ}
    (hasleep : ∀ t ∈ waiting m, (r.sched.task t).state = .sleep) {fuel : ℕ} {mx : Mutexes τ μ}
    {s : Scheduler τ} (hunlock : mutexUnlock fuel r.mutexes r.sched m = some (mx, s))
    (inside : μ → List τ) :
    ∃ waiting', Waiting idle { r with mutexes := mx, sched := s, inside := inside } waiting' := by
  unfold mutexUnlock at hunlock
  by_cases hcount : r.mutexes.count m = 0
  · rw [if_pos hcount, some.injEq, Prod.mk.injEq] at hunlock
    obtain ⟨rfl, rfl⟩ := hunlock
    exact ⟨waiting, { h with }⟩
  · rw [if_neg hcount] at hunlock
    obtain ⟨⟨mx₁, s₁⟩, hloop, hres⟩ := map_eq_some_iff.mp hunlock
    have hnext : r.mutexes.wait.next (.mutex m) = waitNode m (waiting m) :=
      next_waitNode (h.rings.path m trivial)
    simp only [hnext] at hloop
    have hrings : Family r.mutexes.wait (fun _ => True) WaitNode.mutex
        (fun m' => (update waiting m (waiting m) m').map .task) := by
      rw [update_eq_self]
      exact h.rings
    obtain ⟨hs, hrings', hwoken, hothers⟩ :=
      unlockLoop_waiting (waiting m) hloop h.settled hrings hasleep
    obtain ⟨hcount₁, -⟩ := unlockLoop_frame hloop
    have hmx : mx.wait = mx₁.wait ∧ mx.count = mx₁.count ∧ s = s₁ := by
      simp only at hres
      split_ifs at hres
      · obtain ⟨rfl, rfl⟩ := Prod.mk.inj hres
        exact ⟨rfl, rfl, rfl⟩
      · obtain ⟨rfl, rfl⟩ := Prod.mk.inj hres
        exact ⟨rfl, rfl, rfl⟩
    obtain ⟨hwait, hcounts, rfl⟩ := hmx
    rw [hcount₁] at hcounts
    have hmem : ∀ m' t, t ∈ update waiting m [] m' ↔ t ∈ waiting m' ∧ m' ≠ m := by
      intro m' t
      by_cases hmm : m' = m
      · simp [hmm]
      · simp [hmm]
    refine ⟨update waiting m [], hs, ?_, ?_, ?_, ?_, ?_⟩
    · simpa only [hwait] using hrings'
    · exact fun m' t ht => h.wanted m' t ((hmem m' t).mp ht).1
    · intro m' hne
      by_cases hmm : m' = m
      · simp [hmm] at hne
      · rw [update_of_ne hmm] at hne
        simpa [hcounts, hmm] using h.locked m' hne
    · intro m'
      by_cases hmm : m' = m
      · simp [hcounts, hmm]
      · simpa [hcounts, hmm] using h.binary m'
    · intro t
      by_cases ht : t ∈ waiting m
      · obtain ⟨hprepare, hwaitTime, htimeOut⟩ := hwoken t ht
        exact (h.waiter t).unlock (h.wanted m t ht) (hasleep t ht) hprepare hwaitTime htimeOut
      · simp only [hothers t ht, hmem]
        have hsame : (fun m' => t ∈ waiting m' ∧ m' ≠ m) = fun m' => t ∈ waiting m' := by
          funext m'
          simp only [ne_eq, eq_iff_iff, and_iff_left_iff_imp]
          rintro hm' rfl
          exact ht hm'
        rw [hsame]
        exact h.waiter t

/-- Every step that meets its condition keeps the invariant. -/
theorem MutexRun.step_waiting {call : MutexCall τ μ} (h : ∃ waiting, Waiting idle r waiting)
    (hcalm : r.Calm call) (hstep : MutexRun.step call r = some r') :
    ∃ waiting, Waiting idle r' waiting := by
  obtain ⟨waiting, h⟩ := h
  cases call with
  | lock t m ms =>
    simp only [MutexRun.step, ite_none_right_eq_some, some.injEq] at hstep
    obtain ⟨hpc, rfl⟩ := hstep
    refine ⟨waiting, h.goto (fun m' ht => ?_) ?_⟩
    · simpa [hpc, LockPc.mutex] using h.wanted m' t ht
    · have hawake : (r.sched.task t).state ≠ .sleep := hcalm
      constructor <;> simp [hawake]
  | iterate t =>
    obtain ⟨hawake, hfree⟩ := hcalm
    simp only [MutexRun.step] at hstep
    split at hstep
    · rename_i m ms hpc
      unfold lockSection at hstep
      by_cases hcount : r.mutexes.count m = 0
      · simp only [hcount, ne_eq, not_true_eq_false, if_false, if_true, some.injEq] at hstep
        subst hstep
        exact ⟨waiting, h.take hpc hcount _ _⟩
      · simp only [hcount, ne_eq, not_false_eq_true, if_true, Bool.false_eq_true, if_false,
          some.injEq] at hstep
        subst hstep
        have ht : t ∉ waiting m := by
          rw [← h.linkedOn_iff]
          exact hfree m (by simp [hpc, LockPc.mutex])
        exact ⟨_, h.enqueue hpc hawake ht hcount⟩
    · simp at hstep
  | suspend t =>
    simp only [MutexRun.step] at hstep
    split at hstep
    · rename_i m ms hpc
      split_ifs at hstep with herror
      · obtain rfl := some.inj hstep
        obtain ⟨hawake, hlinked⟩ := (h.waiter t).queued m ms hpc
        refine ⟨waiting, h.goto (fun m' ht => ?_) ?_⟩
        · simpa [hpc, LockPc.mutex] using h.wanted m' t ht
        · constructor <;> simp_all
      · obtain rfl := some.inj hstep
        exact ⟨waiting, h.suspend hpc (fun hms => herror (Or.inl hms))⟩
    · simp at hstep
  | resume t =>
    simp only [MutexRun.step] at hstep
    split at hstep
    · rename_i m ms hpc
      obtain rfl := some.inj hstep
      exact ⟨waiting, h.resume hpc⟩
    · simp at hstep
  | leave t =>
    simp only [MutexRun.step] at hstep
    split at hstep
    · rename_i m hpc
      obtain rfl := some.inj hstep
      exact ⟨_, h.leave hpc⟩
    · simp at hstep
  | unlock t m fuel =>
    simp only [MutexRun.step, ite_none_right_eq_some, map_eq_some_iff] at hstep
    obtain ⟨-, ⟨mx', s'⟩, hunlock, rfl⟩ := hstep
    have hasleep : ∀ t ∈ waiting m, (r.sched.task t).state = .sleep := fun t ht =>
      hcalm t ((h.linkedOn_iff m t).mpr ht)
    exact h.unlock hasleep hunlock _
  | sched irq =>
    obtain ⟨s', hs', rfl⟩ := map_eq_some_iff.mp hstep
    exact ⟨waiting, h.sched hs'⟩
  | tick =>
    obtain ⟨s', hs', rfl⟩ := map_eq_some_iff.mp hstep
    obtain ⟨s'', hs'', hsettled⟩ := h.settled.tick
    obtain rfl : s'' = s' := some.inj (hs''.symm.trans hs')
    exact ⟨waiting, h.of_moves hsettled (h.settled.tick_moves hs')⟩
  | activate t new =>
    simp only [MutexRun.step, ite_none_right_eq_some, some.injEq] at hstep
    obtain ⟨⟨hpc, -, hnew⟩, rfl⟩ := hstep
    have hactive : new ≠ .unknown := by
      rintro rfl
      simp at hnew
    refine ⟨waiting, h.reschedule (t := t)
      (h.settled.of_keeps (setTaskState_keeps h.settled.inv not_false new hactive))
      (fun t' ht => setTaskState_task_of_ne _ ht new) ?_⟩
    rw [hpc]
    exact Waiter.out _ _
  | wakeup t =>
    obtain rfl := some.inj hstep
    refine ⟨waiting, ?_⟩
    by_cases hsleep : (r.sched.task t).state = .sleep
    · apply h.reschedule (t := t) (h.settled.wakeupTask t)
      · intro t' ht
        rw [wakeupTask_task hsleep, update_of_ne ht]
      · apply (h.waiter t).of_asleep hsleep
        simp [wakeupTask_task hsleep]
    · rw [wakeupTask, if_pos hsleep]
      exact h
  | sleep irq t timeout =>
    simp only [MutexRun.step, ite_none_right_eq_some, map_eq_some_iff] at hstep
    obtain ⟨hpc, res, hres, rfl⟩ := hstep
    refine ⟨waiting, ?_⟩
    unfold suspendTaskTimeout at hres
    split_ifs at hres with hzero hidle
    · obtain rfl := some.inj hres
      exact h
    · obtain rfl := some.inj hres
      exact h
    · obtain ⟨s', hs', rfl⟩ := map_eq_some_iff.mp hres
      obtain ⟨-, -, hothers⟩ := markAsleep_task r.sched t timeout
      have hasleep := h.reschedule (t := t)
        (h.settled.of_keeps (markAsleep_keeps h.settled.inv not_false timeout)) hothers
        (by rw [hpc]; exact Waiter.out _ _)
      exact hasleep.sched hs'

/-- In every run of steps that meet the condition, a task that sleeps in
`mutex_lock_timeout(m)` is linked on the wait list of `m`, and `m` is locked. -/
theorem mutex_runs_no_lost_wakeup (idle : τ) (pid : τ → ℤ) (calls : List (MutexCall τ μ))
    (r : MutexRun τ μ)
    (hcalm : Meets MutexRun.step (fun call r => r.Calm call) calls (MutexRun.boot idle pid))
    (hrun : run MutexRun.step calls (MutexRun.boot idle pid) = some r) :
    ∀ t m, (r.pc t).mutex = some m → (r.sched.task t).state = .sleep →
      LinkedOn r.mutexes.wait m t ∧ r.mutexes.count m = 1 := by
  obtain ⟨waiting, h⟩ := invariant_of_meets
    (fun _ _ _ => MutexRun.step_waiting) (boot_waiting idle pid) hcalm hrun
  intro t m hpc hsleep
  obtain ⟨hlinked, -⟩ := (h.waiter t).asleep m hpc hsleep
  exact ⟨(h.linkedOn_iff m t).mpr hlinked, h.locked m (ne_nil_of_mem hlinked)⟩

/-- The condition of a step, checked by following the wait list for `n` steps. -/
def MutexRun.CalmWithin (n : ℕ) (r : MutexRun τ μ) : MutexCall τ μ → Prop
  | .lock t _ _ => (r.sched.task t).state ≠ .sleep
  | .iterate t => (r.sched.task t).state ≠ .sleep ∧ ∀ m ∈ (r.pc t).mutex,
      ∃ l ∈ waitLoop r.mutexes.wait m n (r.mutexes.wait.next (.mutex m)), t ∉ l
  | .unlock _ m _ => ∃ l ∈ waitLoop r.mutexes.wait m n (r.mutexes.wait.next (.mutex m)),
      ∀ t ∈ l, (r.sched.task t).state = .sleep
  | _ => True

instance (n : ℕ) (r : MutexRun τ μ) (call : MutexCall τ μ) : Decidable (r.CalmWithin n call) :=
  match call with
  | .lock .. => inferInstanceAs (Decidable (_ ≠ _))
  | .iterate _ => inferInstanceAs (Decidable (_ ∧ ∀ m ∈ _, ∃ l ∈ _, _))
  | .unlock .. => inferInstanceAs (Decidable (∃ l ∈ _, ∀ t ∈ l, _))
  | .suspend _ | .resume _ | .leave _ | .sched _ | .tick | .activate _ _ | .wakeup _
  | .sleep _ _ _ => .isTrue trivial

theorem MutexRun.CalmWithin.calm {n : ℕ} {call : MutexCall τ μ} (h : r.CalmWithin n call) :
    r.Calm call := by
  cases call with
  | lock t m ms => exact h
  | iterate t =>
    refine ⟨h.1, fun m hm => ?_⟩
    obtain ⟨l, hl, ht⟩ := h.2 m hm
    rwa [Mutex.linkedOn_iff hl]
  | unlock t m fuel =>
    obtain ⟨l, hl, hasleep⟩ := h
    intro t ht
    exact hasleep t ((Mutex.linkedOn_iff hl t).mp ht)
  | _ => trivial

/-- Task 2 waits for the mutex of task 1 and gets it, then task 1 waits for it. -/
def takeTurnsCalls : List (MutexCall ℕ Unit) :=
  handOverCalls ++ [.sched false, .lock 1 () (-1), .iterate 1, .suspend 1]

/-- The steps meet the condition, and task 1, which sleeps, is linked on the wait list. -/
theorem mutex_runs_no_lost_wakeup_takeTurns :
    Meets MutexRun.step (fun call r => r.Calm call) takeTurnsCalls
      (MutexRun.boot 0 fun t => (t : ℤ) + 1) ∧
    ∃ r, run MutexRun.step takeTurnsCalls (MutexRun.boot 0 fun t => (t : ℤ) + 1) = some r ∧
      (r.pc 1).mutex = some () ∧ (r.sched.task 1).state = .sleep ∧
      LinkedOn r.mutexes.wait () 1 ∧ r.mutexes.count () = 1 := by
  have hwithin : Meets MutexRun.step (fun call r => r.CalmWithin 3 call) takeTurnsCalls
      (MutexRun.boot 0 fun t => (t : ℤ) + 1) := by
    decide +kernel
  have hcalm : Meets MutexRun.step (fun call r => r.Calm call) takeTurnsCalls
      (MutexRun.boot 0 fun t => (t : ℤ) + 1) :=
    hwithin.mono fun _ _ => MutexRun.CalmWithin.calm
  refine ⟨hcalm, exists_some_imp (P := fun r => (r.pc 1).mutex = some () ∧
    (r.sched.task 1).state = .sleep) (by decide +kernel) fun r hrun ⟨hpc, hsleep⟩ => ?_⟩
  exact ⟨hpc, hsleep, mutex_runs_no_lost_wakeup 0 _ takeTurnsCalls r hcalm hrun 1 () hpc hsleep⟩

/-- Task 2 waits for the mutex of task 1 for one tick. Before it runs again task 1 unlocks the
mutex, which unlinks task 2, and locks it again, and task 3 starts to wait for it. -/
def timeoutCalls : List (MutexCall ℕ Unit) :=
  [.activate 1 .prepare, .activate 2 .prepare, .sched false, .lock 1 () (-1), .iterate 1,
    .sched false, .sched false, .sched false, .lock 2 () 1, .iterate 2, .suspend 2, .sched false,
    .tick, .unlock 1 () 2, .lock 1 () (-1), .iterate 1, .activate 3 .prepare, .sched false,
    .lock 3 () (-1), .iterate 3, .suspend 3, .sched false, .resume 2, .leave 2]

/-- Task 2 then unlinks itself again, and task 3 sleeps without being on the wait list. -/
theorem mutex_runs_lost_wakeup :
    ∃ r, run MutexRun.step timeoutCalls (MutexRun.boot 0 fun t => (t : ℤ) + 1) = some r ∧
      (r.pc 3).mutex = some () ∧ (r.sched.task 3).state = .sleep ∧
      ¬ LinkedOn r.mutexes.wait () 3 := by
  refine exists_some_imp (P := fun r => (r.pc 3).mutex = some () ∧ (r.sched.task 3).state = .sleep ∧
    waitLoop r.mutexes.wait () 1 (r.mutexes.wait.next (.mutex ())) = some [])
    (by decide +kernel) fun r _ ⟨hpc, hsleep, hlist⟩ => ⟨hpc, hsleep, ?_⟩
  rw [Mutex.linkedOn_iff hlist]
  exact not_mem_nil

end Chunos.Mutex
