import Chunos.Lib.Runs
import Chunos.Sched.Basic

/-!
# Mutexes

The functions of `kernel/mutex.c`. `mutex_lock_timeout` is not atomic: a task that finds the
mutex locked links itself on the wait list in one critical section and goes to sleep in
another one, and it goes on when the scheduler runs it again. The model therefore says at
which point of the function each task is, and performs one critical section at a time. The
types of tasks and of mutexes are arbitrary.
-/

namespace Chunos.Mutex

open Rings Sched Runs Function

/-- The nodes of the wait lists: `wait` of a task, and `wait` of a mutex, which is the head. -/
inductive WaitNode (τ μ : Type*) where
  | task (t : τ)
  | mutex (m : μ)
deriving DecidableEq

/-- The nodes of the lists of owned mutexes: `mutex_get` of a task, which is the head, and
`task` of a mutex. -/
inductive OwnNode (τ μ : Type*) where
  | task (t : τ)
  | mutex (m : μ)
deriving DecidableEq

/-- The mutexes, and the list nodes of the tasks that belong to them. -/
structure Mutexes (τ μ : Type*) where
  count : μ → ℤ
  wait : Links (WaitNode τ μ)
  own : Links (OwnNode τ μ)

variable {τ μ : Type*} [DecidableEq τ] [DecidableEq μ]

/-- `init_mutex` for every mutex, and the nodes as `init_sched_struct` leaves them. -/
def initMutexes : Mutexes τ μ :=
  { count := fun _ => 0
    wait := { next := fun n => n, pre := fun n => n }
    own := { next := fun n => n, pre := fun n => n } }

/-- The critical section in the loop of `mutex_lock_timeout`. It is `true` when the task has
got the mutex, and `false` when it has linked itself on the wait list. -/
def lockSection (mx : Mutexes τ μ) (t : τ) (m : μ) : Bool × Mutexes τ μ :=
  if mx.count m ≠ 0 then
    (false, { mx with wait := listAddTail mx.wait (.mutex m) (.task t) })
  else
    (true,
      { mx with
        count := update mx.count m 1
        own := listAddTail mx.own (.task t) (.mutex m) })

/-- `list_del(&task->wait)`. -/
def delWait (mx : Mutexes τ μ) (t : τ) : Mutexes τ μ :=
  { mx with wait := listDel mx.wait (.task t) }

/-- The loop of `mutex_unlock` over the wait list, from node `list` on. It is `none` without
fuel, and when it comes to the head of another list, which is no task. -/
def unlockLoop (m : μ) : ℕ → WaitNode τ μ → Mutexes τ μ → Scheduler τ →
    Option (Mutexes τ μ × Scheduler τ)
  | 0, _, _, _ => none
  | fuel + 1, list, mx, s =>
    if list = .mutex m then some (mx, s)
    else
      match list with
      | .task t =>
        let mx := delWait mx t
        let (_, s) := wakeupTask s t
        unlockLoop m fuel (mx.wait.next list) mx s
      | .mutex _ => none

/-- `mutex_unlock`. -/
def mutexUnlock (fuel : ℕ) (mx : Mutexes τ μ) (s : Scheduler τ) (m : μ) :
    Option (Mutexes τ μ × Scheduler τ) :=
  if mx.count m = 0 then some (mx, s)
  else
    let mx := { mx with count := update mx.count m 0 }
    (unlockLoop m fuel (mx.wait.next (.mutex m)) mx s).map fun (mx, s) =>
      if isListEmpty mx.own (.mutex m) then (mx, s)
      else ({ mx with own := listDel mx.own (.mutex m) }, s)

/-- The points of `mutex_lock_timeout(m, ms)` between two critical sections. -/
inductive LockPc (μ : Type*) where
  /-- The task is not in the function. -/
  | out
  /-- Before the critical section at the start of the loop. -/
  | loop (m : μ) (ms : ℤ)
  /-- Linked on the wait list, before `suspend_task_timeout`. -/
  | queued (m : μ) (ms : ℤ)
  /-- In `suspend_task_timeout`, behind its critical section. -/
  | suspended (m : μ) (ms : ℤ)
  /-- Timed out, before `list_del`. -/
  | expired (m : μ)
deriving DecidableEq

/-- The mutex that a task wants. -/
def LockPc.mutex : LockPc μ → Option μ
  | .out => none
  | .loop m _ | .queued m _ | .suspended m _ | .expired m => some m

/-- A state of a run. `inside m` are the tasks between a successful lock of `m` and its
unlock. -/
structure MutexRun (τ μ : Type*) where
  mutexes : Mutexes τ μ
  sched : Scheduler τ
  pc : τ → LockPc μ
  inside : μ → List τ

/-- A task goes to another point of `mutex_lock_timeout`. -/
def MutexRun.goto (r : MutexRun τ μ) (t : τ) (pc : LockPc μ) : MutexRun τ μ :=
  { r with pc := update r.pc t pc }

/-- The steps of a run: those of the tasks in `mutex_lock_timeout`, in this order, unlocking,
and what else happens to the tasks. -/
inductive MutexCall (τ μ : Type*) where
  | lock (t : τ) (m : μ) (ms : ℤ)
  | iterate (t : τ)
  | suspend (t : τ)
  | resume (t : τ)
  | leave (t : τ)
  | unlock (t : τ) (m : μ) (fuel : ℕ)
  | sched (inInterrupt : Bool)
  | tick
  | activate (t : τ) (new : State)
  | wakeup (t : τ)
  | sleep (inInterrupt : Bool) (t : τ) (timeout : ℤ)

/-- One step. Any task may be the next one to make a step, but it is `none` when the task is
at another point, or when a task unlocks a mutex that it has not locked. -/
def MutexRun.step : MutexCall τ μ → MutexRun τ μ → Option (MutexRun τ μ)
  | .lock t m ms, r => if r.pc t = .out then some (r.goto t (.loop m ms)) else none
  | .iterate t, r =>
    match r.pc t with
    | .loop m ms =>
      let (locked, mx) := lockSection r.mutexes t m
      if locked then
        some { r with
          mutexes := mx, pc := update r.pc t .out
          inside := update r.inside m (t :: r.inside m) }
      else some { r with mutexes := mx, pc := update r.pc t (.queued m ms) }
    | _ => none
  | .suspend t, r =>
    match r.pc t with
    | .queued m ms =>
      -- `suspend_task_timeout` returns an error for these, and the loop takes it for a timeout.
      if ms = 0 ∨ (r.sched.task t).state = .idle then some (r.goto t (.expired m))
      else some { r.goto t (.suspended m ms) with sched := markAsleep r.sched t ms }
    | _ => none
  | .resume t, r =>
    match r.pc t with
    | .suspended m ms =>
      some (r.goto t (if (r.sched.task t).timeOut ≠ 0 then .expired m else .loop m ms))
    | _ => none
  | .leave t, r =>
    match r.pc t with
    | .expired _ => some { r.goto t .out with mutexes := delWait r.mutexes t }
    | _ => none
  | .unlock t m fuel, r =>
    if r.pc t = .out ∧ t ∈ r.inside m then
      (mutexUnlock fuel r.mutexes r.sched m).map fun (mx, s) =>
        { r with
          mutexes := mx, sched := s, inside := update r.inside m ((r.inside m).erase t) }
    else none
  | .sched inInterrupt, r => (Sched.sched inInterrupt r.sched).map fun s => { r with sched := s }
  | .tick, r =>
    (osTickHandler ((r.sched.count .sleep).toNat + 1) r.sched).map fun s =>
      { r with sched := irqExit s }
  | .activate t new, r =>
    if r.pc t = .out ∧ (r.sched.task t).state = .unknown ∧ (new = .prepare ∨ new = .sleep) then
      some { r with sched := setTaskState r.sched t new }
    else none
  | .wakeup t, r => some { r with sched := (wakeupTask r.sched t).2 }
  | .sleep inInterrupt t timeout, r =>
    if r.pc t = .out then
      (suspendTaskTimeout inInterrupt r.sched t timeout).map fun res => { r with sched := res.2 }
    else none

/-- The start of a run. -/
def MutexRun.boot (idle : τ) (pid : τ → ℤ) : MutexRun τ μ :=
  { mutexes := initMutexes, sched := bootSched idle pid, pc := fun _ => .out, inside := fun _ => [] }

end Chunos.Mutex
