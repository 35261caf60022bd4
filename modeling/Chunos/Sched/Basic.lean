import Chunos.Basic
import Chunos.List

/-!
# The scheduler

The functions of `kernel/sched.c`. A task is on at most one of the priority queues, the
sleep list and the idle list, according to its state, and every task but the idle task is
on the system list. All of them are intrusive lists, and a counter goes with each. The
type `τ` of tasks is arbitrary, so there may be any number of them.
-/

namespace Chunos.Sched

open Rings Function

/-- `TASK_MAX_PRIO`: the number of priority queues. -/
def taskMaxPrio : ℤ := 64

/-- `TASK_DEFAULT_PRIO`: the priority of a new task. -/
def taskDefaultPrio : ℤ := 20

/-- `os/task.h`: the states of a task. -/
inductive State where
  | prepare
  | running
  | sleep
  | idle
  | stop
  | unknown
deriving DecidableEq, Repr

/-- `state_change_t`: the changes of state that have an effect. -/
inductive StateChange where
  | noneToPrepare
  | noneToSleep
  | prepareToRunning
  | prepareToSleep
  | prepareToIdle
  | runningToSleep
  | runningToPrepare
  | runningToIdle
  | sleepToPrepare
  | sleepToIdle
  | sleepToRunning
  | prepareToUnknown
  | noneToNone
deriving DecidableEq

/-- The lists of the scheduler, `struct sched_list`: the entries of `os_sched_table`, and
`task_system`, `task_sleep` and `task_idle`. -/
inductive Queue where
  | prio (i : ℤ)
  | system
  | sleep
  | idle
deriving DecidableEq

/-- The list nodes: the head of a list, and the nodes inside `struct task_struct`. -/
inductive Node (τ : Type*) where
  | head (q : Queue)
  | prioRunning (t : τ)
  | system (t : τ)
  | sleep (t : τ)
  | idle (t : τ)
deriving DecidableEq

/-- `struct task_struct`, with the fields that the scheduler uses. -/
structure Task where
  pid : ℤ
  state : State
  runTime : ℤ
  waitTime : ℤ
  timeOut : ℤ
  runCount : ℤ
  prio : ℤ
deriving DecidableEq

/-- The scheduler: the links of all list nodes, the counters of the lists, the tasks and
the global variables. -/
structure Scheduler (τ : Type*) where
  links : Links (Node τ)
  count : Queue → ℤ
  task : τ → Task
  current : τ
  nextRun : τ
  idle : τ
  scheduleRunning : Bool

variable {τ : Type*} [DecidableEq τ]

/-- The node by which a task is linked on a list. -/
def Queue.node : Queue → τ → Node τ
  | .prio _, t => .prioRunning t
  | .system, t => .system t
  | .sleep, t => .sleep t
  | .idle, t => .idle t

/-- Change the fields of one task. -/
def Scheduler.modify (s : Scheduler τ) (t : τ) (f : Task → Task) : Scheduler τ :=
  { s with task := update s.task t (f (s.task t)) }

/-- `sched_list_add_task`: put a task in front of a list. -/
def schedListAddTask (s : Scheduler τ) (q : Queue) (t : τ) : Scheduler τ :=
  { s with
    links := listAdd s.links (.head q) (q.node t)
    count := update s.count q (s.count q + 1) }

/-- `sched_list_add_task_tail` and `prio_list_add_task_tail`: append a task to a list. -/
def schedListAddTaskTail (s : Scheduler τ) (q : Queue) (t : τ) : Scheduler τ :=
  { s with
    links := listAddTail s.links (.head q) (q.node t)
    count := update s.count q (s.count q + 1) }

/-- `sched_list_del_task` and `prio_list_del_task`: unlink a task from a list. -/
def schedListDelTask (s : Scheduler τ) (q : Queue) (t : τ) : Scheduler τ :=
  { s with
    links := listDel s.links (q.node t)
    count := update s.count q (s.count q - 1) }

/-- The priority queue of a task. -/
def Scheduler.prioQueue (s : Scheduler τ) (t : τ) : Queue := .prio (s.task t).prio

/-- `change_table`, as `init_state_change_table` fills it. -/
def changeTable : State → State → StateChange
  | .unknown, .prepare => .noneToPrepare
  | .unknown, .sleep => .noneToSleep
  | .prepare, .running => .prepareToRunning
  | .prepare, .sleep => .prepareToSleep
  | .prepare, .idle => .prepareToIdle
  | .running, .sleep => .runningToSleep
  | .running, .prepare => .runningToPrepare
  | .running, .idle => .runningToIdle
  | .sleep, .prepare => .sleepToPrepare
  | .sleep, .idle => .sleepToIdle
  | .sleep, .running => .sleepToRunning
  | .prepare, .unknown => .prepareToUnknown
  | _, _ => .noneToNone

/-- The list operations that `set_task_state` performs for a change of state. -/
def relink (s : Scheduler τ) (t : τ) : StateChange → Scheduler τ
  | .noneToPrepare =>
    let s := schedListAddTaskTail s .system t
    schedListAddTaskTail s (s.prioQueue t) t
  | .noneToSleep =>
    let s := schedListAddTaskTail s .system t
    schedListAddTask s .sleep t
  | .prepareToRunning => schedListDelTask s (s.prioQueue t) t
  | .prepareToIdle =>
    let s := schedListDelTask s (s.prioQueue t) t
    schedListAddTaskTail s .idle t
  | .prepareToSleep =>
    let s := schedListDelTask s (s.prioQueue t) t
    schedListAddTaskTail s .sleep t
  | .runningToSleep => schedListAddTaskTail s .sleep t
  | .runningToPrepare => schedListAddTaskTail s (s.prioQueue t) t
  | .runningToIdle => schedListAddTaskTail s .idle t
  | .sleepToPrepare =>
    let s := schedListDelTask s .sleep t
    schedListAddTaskTail s (s.prioQueue t) t
  | .sleepToIdle =>
    let s := schedListDelTask s .sleep t
    schedListAddTaskTail s .idle t
  | .sleepToRunning => schedListDelTask s .sleep t
  | .prepareToUnknown => schedListDelTask s (s.prioQueue t) t
  | .noneToNone => s

/-- `set_task_state`. -/
def setTaskState (s : Scheduler τ) (t : τ) (new : State) : Scheduler τ :=
  let change := changeTable (s.task t).state new
  if change = .noneToNone then s
  else relink (s.modify t fun task => { task with state := new }) t change

/-- `get_task_run_time`: a new time slice. -/
def getTaskRunTime (s : Scheduler τ) (t : τ) : Scheduler τ :=
  s.modify t fun task => { task with runTime := 5 + (taskMaxPrio - task.prio) }

/-- `init_sched_struct`, for a task with this process number: the fields of a new task. -/
def initSchedStruct (isIdle : Bool) (pid : ℤ) : Task :=
  let prio := if isIdle then taskMaxPrio - 1 else taskDefaultPrio
  { pid := pid, state := .unknown, runTime := 5 + (taskMaxPrio - prio), waitTime := -1
    timeOut := 0, runCount := 0, prio := prio }

/-- The loop of `find_next_run_task` over the table, with `n` entries left from entry `i`
on. -/
def findPrioLoop (count : Queue → ℤ) : ℕ → ℤ → Option ℤ
  | 0, _ => none
  | n + 1, i => if count (.prio i) ≠ 0 then some i else findPrioLoop count n (i + 1)

/-- `find_next_run_task`. It is `none` when the first entry of the list it finds is not the
node of a task. -/
def findNextRunTask (s : Scheduler τ) : Option (Scheduler τ) :=
  match findPrioLoop s.count 64 0 with
  | none => some s
  | some i =>
    match s.links.next (.head (.prio i)) with
    | .prioRunning t => some { s with nextRun := t }
    | _ => none

/-- `dec_prio`: the priority that a task has after its time slice. -/
def decPrio (task : Task) : Task :=
  let prio := if task.prio < taskMaxPrio - 1 then task.prio + 1 else task.prio
  { task with prio := if task.pid ≠ -1 ∧ prio = taskMaxPrio - 1 then 0 else prio }

/-- The part of `prepare_to_switch` for a current task that is still running: it goes back
to the priority queues. -/
def putBack (inInterrupt : Bool) (s : Scheduler τ) : Scheduler τ :=
  let s :=
    if (s.task s.current).runTime = 0 ∨ inInterrupt = false then
      getTaskRunTime (s.modify s.current decPrio) s.current
    else s
  setTaskState s s.current .prepare

/-- The part of `prepare_to_switch` for the next task, which starts to run. When its time has
run out while it slept, this is noted. -/
def switchIn (s : Scheduler τ) (next : τ) : Scheduler τ :=
  let s := s.modify next fun task =>
    { task with timeOut := if task.waitTime = 0 then 1 else task.timeOut, waitTime := -1 }
  setTaskState s next .running

/-- `prepare_to_switch`. -/
def prepareToSwitch (inInterrupt : Bool) (s : Scheduler τ) : ℤ × Scheduler τ :=
  if s.current = s.nextRun then
    let s := getTaskRunTime s s.nextRun
    (-eagain, s.modify s.nextRun fun task => { task with runCount := task.runCount + 1 })
  else
    let s := if (s.task s.current).state = .running then putBack inInterrupt s else s
    (0, switchIn s s.nextRun)

/-- `sched`. The switch itself makes the next task the current one. -/
def sched (inInterrupt : Bool) (s : Scheduler τ) : Option (Scheduler τ) :=
  if inInterrupt then some s
  else if s.scheduleRunning = false then some s
  else
    (findNextRunTask s).map fun s =>
      let (ret, s) := prepareToSwitch inInterrupt s
      if ret ≠ 0 then s else { s with current := s.nextRun }

/-- One task that `os_tick_handler` finds on the sleep list. -/
def tickTask (s : Scheduler τ) (t : τ) : Scheduler τ :=
  let s :=
    if 0 < (s.task t).waitTime then
      s.modify t fun task => { task with waitTime := task.waitTime - 1 }
    else s
  if (s.task t).waitTime = 0 then setTaskState s t .prepare else s

/-- The loop of `os_tick_handler` over the sleep list, from node `list` on. The link to the
next node is read after the task has been handled. It is `none` without fuel, and when it
comes to a node that is not on a sleep list. -/
def tickLoop : ℕ → Node τ → Scheduler τ → Option (Scheduler τ)
  | 0, _, _ => none
  | fuel + 1, list, s =>
    if list = .head .sleep then some s
    else
      match list with
      | .sleep t =>
        let s := tickTask s t
        tickLoop fuel (s.links.next list) s
      | _ => none

/-- `os_tick_handler`. -/
def osTickHandler (fuel : ℕ) (s : Scheduler τ) : Option (Scheduler τ) :=
  (tickLoop fuel (s.links.next (.head .sleep)) s).bind fun s =>
    let s := s.modify s.current fun task => { task with runTime := task.runTime - 1 }
    if (s.task s.current).runTime = 0 then
      (findNextRunTask s).map fun s => (prepareToSwitch true s).2
    else some s

/-- The end of an interrupt: the next task becomes the current one. -/
def irqExit (s : Scheduler τ) : Scheduler τ := { s with current := s.nextRun }

/-- The critical section of `suspend_task_timeout`, which puts a task to sleep. -/
def markAsleep (s : Scheduler τ) (t : τ) (timeout : ℤ) : Scheduler τ :=
  setTaskState (s.modify t fun task => { task with waitTime := timeout, timeOut := 0 }) t .sleep

/-- `suspend_task_timeout`: the returned value when it fails, and the scheduler. -/
def suspendTaskTimeout (inInterrupt : Bool) (s : Scheduler τ) (t : τ) (timeout : ℤ) :
    Option (Option ℤ × Scheduler τ) :=
  if timeout = 0 then some (some (-einval), s)
  else if (s.task t).state = .idle then some (some (-einval), s)
  else (sched inInterrupt (markAsleep s t timeout)).map fun s => (none, s)

/-- `wakeup_task`. -/
def wakeupTask (s : Scheduler τ) (t : τ) : ℤ × Scheduler τ :=
  if (s.task t).state ≠ .sleep then (-einval, s)
  else (0, setTaskState (getTaskRunTime s t) t .prepare)

/-- `sched_remove_task`, without the release of the process number. -/
def schedRemoveTask (s : Scheduler τ) (t : τ) : ℤ × Scheduler τ :=
  if (s.task t).state ≠ .idle then (-einval, s)
  else if (s.task t).pid = 1 ∨ (s.task t).pid = 0 then (-einval, s)
  else (0, schedListDelTask (schedListDelTask s .idle t) .system t)

/-- The scheduler after `sched_init` and `build_idle_task`, with the tasks as
`init_sched_struct` leaves them: every node is linked to itself. -/
def bootSched (idle : τ) (pid : τ → ℤ) : Scheduler τ :=
  let task := fun t => initSchedStruct (t = idle) (if t = idle then -1 else pid t)
  { links := { next := fun n => n, pre := fun n => n }
    count := fun _ => 0
    task := update task idle { task idle with state := .running }
    current := idle
    nextRun := idle
    idle := idle
    scheduleRunning := true }

end Chunos.Sched
