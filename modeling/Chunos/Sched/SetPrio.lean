import Chunos.Sched.Runs

/-!
# Setting the priority of a task

`set_task_prio` writes the priority of a task that runs or sleeps. A ready task has to move to
the queue of its new priority, and is taken there through `PROCESS_STATE_UNKNOWN`. The change
from this state back to `PROCESS_STATE_PREPARE` is also the one that registers a new task, so
it appends the task to the system list, on which the task already is: the tasks behind it are
cut off, and the counter no longer is the length of the list. The lower bound of the priority
is not checked.
-/

namespace Chunos.Sched

open Rings Runs List

variable {τ : Type*} {s s' : Scheduler τ} {removed : τ → Prop} {idle : τ}
  {lists : Queue → List τ}

/-- What is expected of `set_task_prio`: the task has the new priority, which is an index of the
table, it is on the lists of its state once, and the lists are linked with the other tasks as
before. -/
structure PrioSet (s s' : Scheduler τ) (removed : τ → Prop) (t : τ) (prio : ℤ) : Prop where
  prio_eq : (s'.task t).prio = prio
  in_range : 0 ≤ prio ∧ prio < taskMaxPrio
  linked : ∃ lists', Linked s'.links s'.count lists' ∧ (∀ q, q.Valid → (lists' q).Nodup) ∧
    (∀ q, q.Valid → (t ∈ lists' q ↔ Belongs s' removed q t)) ∧
    ∀ lists, Linked s.links s.count lists → ∀ q, q.Valid → ∀ u, u ≠ t → (u ∈ lists' q ↔ u ∈ lists q)

variable [DecidableEq τ]

/-- `set_task_prio`. Nothing reads the old priority that it notes in the task. -/
def setTaskPrio (s : Scheduler τ) (t : τ) (prio : ℤ) : ℤ × Scheduler τ :=
  if taskMaxPrio ≤ prio then (-einval, s)
  else
    match (s.task t).state with
    | .running | .sleep => (0, s.modify t fun task => { task with prio := prio })
    | .prepare =>
      let s := setTaskState s t .unknown
      let s := s.modify t fun task => { task with prio := prio }
      (0, setTaskState s t .prepare)
    -- "Unknown state when set prio" is printed here.
    | _ => (0, s)

variable {prio : ℤ} {t : τ}

theorem setTaskPrio_ret (hprio : prio < taskMaxPrio) : (setTaskPrio s t prio).1 = 0 := by
  rw [setTaskPrio, if_neg (by omega)]
  split <;> rfl

theorem setTaskPrio_of_running (hprio : prio < taskMaxPrio)
    (hstate : (s.task t).state = .running ∨ (s.task t).state = .sleep) :
    (setTaskPrio s t prio).2 = s.modify t fun task => { task with prio := prio } := by
  rw [setTaskPrio, if_neg (by omega)]
  rcases hstate with hstate | hstate
  · simp only [hstate]
  · simp only [hstate]

/-- A ready task is taken off its queue, and then registered as if it were new. -/
theorem setTaskPrio_of_prepare (hprio : prio < taskMaxPrio) (hstate : (s.task t).state = .prepare) :
    ∃ s₁ : Scheduler τ, s₁.links = (schedListDelTask s (.prio (s.task t).prio) t).links ∧
      s₁.count = (schedListDelTask s (.prio (s.task t).prio) t).count ∧ s₁.idle = s.idle ∧
      (s₁.task t).state = .prepare ∧ (s₁.task t).prio = prio ∧
      (setTaskPrio s t prio).2 =
        schedListAddTaskTail (schedListAddTaskTail s₁ .system t) (.prio prio) t := by
  generalize hs₀ : (schedListDelTask (s.modify t fun task => { task with state := .unknown })
    (.prio (s.task t).prio) t).modify t (fun task => { task with prio := prio }) = s₀
  have hleave : setTaskState s t .unknown = schedListDelTask
      (s.modify t fun task => { task with state := .unknown }) (.prio (s.task t).prio) t := by
    have hqueue : (s.modify t fun task => { task with state := .unknown }).prioQueue t =
        .prio (s.task t).prio := by
      simp [Scheduler.prioQueue, Scheduler.modify]
    simp only [setTaskState, hstate, changeTable, reduceCtorEq, if_false, relink, hqueue]
  have hunknown : (s₀.task t).state = .unknown := by
    simp [← hs₀, Scheduler.modify, schedListDelTask]
  have henter : setTaskState s₀ t .prepare = schedListAddTaskTail (schedListAddTaskTail
      (s₀.modify t fun task => { task with state := .prepare }) .system t) (.prio prio) t := by
    have hqueue : (schedListAddTaskTail (s₀.modify t fun task => { task with state := .prepare })
        .system t).prioQueue t = .prio prio := by
      simp [← hs₀, Scheduler.prioQueue, Scheduler.modify, schedListDelTask, schedListAddTaskTail]
    simp only [setTaskState, hunknown, changeTable, reduceCtorEq, if_false, relink, hqueue]
  refine ⟨s₀.modify t fun task => { task with state := .prepare }, ?_, ?_, ?_, ?_, ?_, ?_⟩
  · rw [← hs₀]
    rfl
  · rw [← hs₀]
    rfl
  · rw [← hs₀]
    rfl
  · simp [Scheduler.modify]
  · simp [← hs₀, Scheduler.modify]
  · rw [setTaskPrio, if_neg (by omega)]
    simp only [hstate]
    rw [hleave, hs₀, henter]

/-- A ready task that gets another priority is the last task on the system list when the list is
read backwards. When it is read forwards, the tasks that were behind it are cut off. -/
theorem setTaskPrio_system (hinv : Inv s removed) (h : Linked s.links s.count lists)
    (hprio : (Queue.prio prio).Valid) (hstate : (s.task t).state = .prepare) :
    (setTaskPrio s t prio).2.links.pre (.head .system) = .system t ∧
    (setTaskPrio s t prio).2.count .system = s.count .system + 1 ∧
    ∀ l₁ l₂, lists .system = l₁ ++ t :: l₂ →
      Walk (setTaskPrio s t prio).2.links (.head .system) ((l₁ ++ [t]).map Queue.system.node)
        (.head .system) := by
  obtain ⟨s₁, hlinks, hcount, -, -, -, hset⟩ := setTaskPrio_of_prepare hprio.2 hstate
  have hvalid : (Queue.prio (s.task t).prio).Valid := hinv.prio_ok t
  have hon : t ∈ lists (.prio (s.task t).prio) :=
    (hinv.queues.mem_iff h hvalid).mpr ⟨hinv.not_removed (by simp [hstate]), hstate, rfl⟩
  have h₁ := h.del hvalid hon
  rw [← hlinks, ← hcount] at h₁
  -- The new queue has no node of the system list, so only the first insertion matters to it.
  have hsame : ∀ n : Node τ, (n = .head .system ∨ ∃ u, n = .system u) →
      (setTaskPrio s t prio).2.links.next n =
        (s₁.links.insertBefore (.head .system) (.system t)).next n ∧
      (setTaskPrio s t prio).2.links.pre n =
        (s₁.links.insertBefore (.head .system) (.system t)).pre n := by
    intro n hn
    have hlast : n ≠ (s₁.links.insertBefore (.head .system) (.system t)).pre
        (.head (.prio prio)) := by
      have hpre : (s₁.links.insertBefore (.head .system) (.system t)).pre (.head (.prio prio)) =
          s₁.links.pre (.head (.prio prio)) := by
        simp [Links.insertBefore]
      rw [hpre]
      rintro rfl
      obtain heq | hmem := mem_cons.mp (h₁.family.path _ hprio).pre_mem
      · rcases hn with hn | ⟨u, hn⟩ <;> simp [hn] at heq
      · obtain ⟨v, -, heq⟩ := List.mem_map.mp hmem
        rcases hn with hn | ⟨u, hn⟩ <;> simp [hn, Queue.node] at heq
    rw [hset]
    simp only [schedListAddTaskTail, listAddTail_eq]
    apply insertBefore_of_ne _ _ hlast
    · rcases hn with rfl | ⟨u, rfl⟩ <;> simp
    · rcases hn with rfl | ⟨u, rfl⟩ <;> simp [Queue.node]
  refine ⟨?_, ?_, ?_⟩
  · rw [(hsame _ (Or.inl rfl)).2]
    simp [Links.insertBefore]
  · rw [hset]
    simp [schedListAddTaskTail, hcount, schedListDelTask]
  · intro l₁ l₂ hlist
    have hsystem : Queue.system.Valid := trivial
    have hpath := h₁.family.path _ hsystem
    have hnodup := h₁.family.nodup _ hsystem
    rw [Function.update_of_ne (by simp), hlist, map_append, map_cons] at hpath hnodup
    have hwalk := hpath.walk_insertBefore hnodup
    rw [← map_singleton, ← map_append] at hwalk
    refine hwalk.congr fun n hn => (hsame n ?_).1
    obtain hn | hn := mem_cons.mp hn
    · exact Or.inl hn
    · obtain ⟨u, -, heq⟩ := List.mem_map.mp hn
      exact Or.inr ⟨u, heq.symm⟩

/-- After the detour the lists are not what the task and the others need. -/
theorem setTaskPrio_not_set (hinv : Inv s removed) (hstate : (s.task t).state = .prepare) :
    ¬ PrioSet s (setTaskPrio s t prio).2 removed t prio := by
  rintro ⟨-, hprio, lists', hlinked, -, hself, -⟩
  obtain ⟨lists, h, hmem⟩ := hinv.queues
  have hsystem : Queue.system.Valid := trivial
  obtain ⟨hpre, hcount, hwalk⟩ := setTaskPrio_system hinv h hprio hstate
  by_cases hidle : t = s.idle
  · -- The idle task is put on the system list.
    obtain ⟨s₁, -, -, hidle₁, -, -, hset⟩ := setTaskPrio_of_prepare hprio.2 hstate
    have hlast := (hlinked.family.path _ hsystem).pre_mem
    rw [hpre] at hlast
    obtain ⟨u, hu, heq⟩ : ∃ u ∈ lists' .system, Queue.system.node u = .system t := by
      simpa using hlast
    obtain rfl : u = t := by simpa [Queue.node] using heq
    obtain ⟨-, -, hne⟩ := (hself .system hsystem).mp hu
    rw [hset] at hne
    exact hne (hidle.trans hidle₁.symm)
  · have hon : t ∈ lists .system :=
      (hmem .system hsystem t).mpr ⟨hinv.not_removed (by simp [hstate]), by simp [hstate], hidle⟩
    obtain ⟨l₁, l₂, hlist⟩ := append_of_mem hon
    have heads : ∀ l : List τ, Node.head .system ∉ l.map Queue.system.node := by
      intro l hin
      obtain ⟨u, -, heq⟩ := List.mem_map.mp hin
      exact Queue.node_ne_head _ _ _ heq
    have hsame := (hlinked.family.path _ hsystem).walk.unique (hwalk l₁ l₂ hlist) (heads _)
      (heads _)
    have hlength := congrArg List.length hsame
    have hcounts := hlinked.counts .system hsystem
    have hbefore := h.counts .system hsystem
    rw [hlist] at hbefore
    simp only [length_map, length_append, length_cons, length_nil]
      at hlength hbefore
    omega

/-- A task that runs or sleeps gets its priority. -/
theorem setTaskPrio_set (hinv : Inv s removed) (hprio : (Queue.prio prio).Valid)
    (hstate : (s.task t).state = .running ∨ (s.task t).state = .sleep) :
    Inv (s.modify t fun task => { task with prio := prio }) removed ∧
    PrioSet s (setTaskPrio s t prio).2 removed t prio := by
  have hready : (s.task t).state ≠ .prepare := by
    rcases hstate with hstate | hstate <;> simp [hstate]
  have hinv' : Inv (s.modify t fun task => { task with prio := prio }) removed :=
    hinv.modify rfl (Or.inr hready) hprio
  refine ⟨hinv', ?_⟩
  rw [setTaskPrio_of_running hprio.2 hstate]
  obtain ⟨lists, h, hmem⟩ := hinv'.queues
  refine ⟨by simp [Scheduler.modify], hprio, lists, h, fun q hq => h.nodup hq,
    fun q hq => hmem q hq t, ?_⟩
  intro lists' h' q hq u hu
  rw [Linked.unique h h' hq]

/-- The calls of a run in which priorities are set. -/
inductive PrioCall (τ : Type*) where
  | call (c : SchedCall τ)
  | setPrio (t : τ) (prio : ℤ)

/-- One call. -/
def SchedRun.prioStep : PrioCall τ → SchedRun τ → Option (SchedRun τ)
  | .call c, r => SchedRun.step c r
  | .setPrio t prio, r => some { r with sched := (setTaskPrio r.sched t prio).2 }

/-- The calls that the kernel makes, with a priority that is not negative for a task that is not
ready. -/
def SchedRun.PrioMade : PrioCall τ → SchedRun τ → Prop
  | .call c, r => r.Made c
  | .setPrio t prio, r => 0 ≤ prio ∧ (r.sched.task t).state ≠ .prepare

instance (call : PrioCall τ) (r : SchedRun τ) : Decidable (r.PrioMade call) :=
  match call with
  | .call c => inferInstanceAs (Decidable (r.Made c))
  | .setPrio .. => inferInstanceAs (Decidable (_ ∧ _))

/-- Every such call completes and leaves the scheduler settled. -/
theorem SchedRun.prioStep_settled {r : SchedRun τ} {call : PrioCall τ}
    (hs : r.IsSettled idle) (hmade : r.PrioMade call) :
    ∃ r', SchedRun.prioStep call r = some r' ∧ r'.IsSettled idle := by
  cases call with
  | call c => exact SchedRun.step_settled hs hmade
  | setPrio t prio =>
    obtain ⟨hpos, hready⟩ := hmade
    refine ⟨_, rfl, ?_⟩
    simp only [IsSettled]
    by_cases hprio : prio < taskMaxPrio
    · by_cases hstate : (r.sched.task t).state = .running ∨ (r.sched.task t).state = .sleep
      · rw [setTaskPrio_of_running hprio hstate]
        exact ⟨(setTaskPrio_set hs.inv ⟨hpos, hprio⟩ hstate).1, hs.idle_eq, hs.current_eq⟩
      · have hsame : (setTaskPrio r.sched t prio).2 = r.sched := by
          rw [setTaskPrio, if_neg (by omega)]
          split <;> simp_all
        rwa [hsame]
    · rw [setTaskPrio, if_pos (by omega)]
      exact hs

/-- In every run in which priorities are only set to values that are not negative, for tasks that
are not ready, each call completes. After it `set_task_prio` accepts every priority below the
limit. It does what is expected for a task that runs, sleeps or is ready iff the priority is not
negative and the task is not ready. -/
theorem setTaskPrio_set_iff (idle : τ) (pid : τ → ℤ) (calls : List (PrioCall τ))
    (hcalls : Meets SchedRun.prioStep (fun call r => r.PrioMade call) calls
      (SchedRun.boot idle pid)) :
    ∃ r, run SchedRun.prioStep calls (SchedRun.boot idle pid) = some r ∧
      ∀ t prio, prio < taskMaxPrio →
        ((r.sched.task t).state = .running ∨ (r.sched.task t).state = .sleep ∨
          (r.sched.task t).state = .prepare) →
        (setTaskPrio r.sched t prio).1 = 0 ∧
        (PrioSet r.sched (setTaskPrio r.sched t prio).2 (fun t => t ∈ r.removed) t prio ↔
          0 ≤ prio ∧ (r.sched.task t).state ≠ .prepare) := by
  obtain ⟨r, hrun, hs⟩ := exists_run_of_meets (I := SchedRun.IsSettled idle)
    (fun _ _ => SchedRun.prioStep_settled) (boot_settled idle pid) hcalls
  refine ⟨r, hrun, fun t prio hprio hstate => ⟨setTaskPrio_ret hprio, ?_, ?_⟩⟩
  · intro hset
    exact ⟨hset.in_range.1, fun hready => setTaskPrio_not_set hs.inv hready hset⟩
  · rintro ⟨hpos, hready⟩
    refine (setTaskPrio_set hs.inv ⟨hpos, hprio⟩ ?_).2
    rcases hstate with hstate | hstate | hstate
    · exact Or.inl hstate
    · exact Or.inr hstate
    · exact absurd hstate hready

/-- Two tasks are ready, and the priority of the idle task, which runs, is set. -/
def readyCalls : List (PrioCall ℕ) :=
  [.call (.activate 1 .prepare), .call (.activate 2 .prepare), .setPrio 0 60]

/-- Then the first of them is started. -/
def startedCalls : List (PrioCall ℕ) := readyCalls ++ [.call (.sched false)]

/-- The priority of a task can be set once it runs. -/
theorem setTaskPrio_set_iff_running :
    Meets SchedRun.prioStep (fun call r => r.PrioMade call) startedCalls
      (SchedRun.boot 0 fun t => (t : ℤ) + 1) ∧
    ∃ r, run SchedRun.prioStep startedCalls (SchedRun.boot 0 fun t => (t : ℤ) + 1) = some r ∧
      PrioSet r.sched (setTaskPrio r.sched 1 5).2 (fun t => t ∈ r.removed) 1 5 := by
  have hcalls : Meets SchedRun.prioStep (fun call r => r.PrioMade call) startedCalls
      (SchedRun.boot 0 fun t => (t : ℤ) + 1) := by
    decide +kernel
  obtain ⟨r, hrun, hset⟩ := setTaskPrio_set_iff 0 (fun t : ℕ => (t : ℤ) + 1) _ hcalls
  refine ⟨hcalls, exists_some_imp (P := fun r => (r.sched.task 1).state = .running)
    (by decide +kernel) fun r' hrun' hstate => ?_⟩
  obtain rfl := Option.some.inj (hrun.symm.trans hrun')
  refine (hset 1 5 (by decide) (Or.inl hstate)).2.mpr ⟨by decide, ?_⟩
  simp [hstate]

/-- Setting the priority of the first ready task returns 0. Then three tasks are counted on the
system list, but it leads from its head to this task and back to the head: the second task is
no longer on it. -/
theorem readyCalls_setTaskPrio :
    ∃ r, run SchedRun.prioStep readyCalls (SchedRun.boot 0 fun t => (t : ℤ) + 1) = some r ∧
      (r.sched.task 1).state = .prepare ∧ (setTaskPrio r.sched 1 5).1 = 0 ∧
      (setTaskPrio r.sched 1 5).2.count .system = 3 ∧
      (setTaskPrio r.sched 1 5).2.links.next (.head .system) = .system 1 ∧
      (setTaskPrio r.sched 1 5).2.links.next (.system 1) = .head .system ∧
      ¬ PrioSet r.sched (setTaskPrio r.sched 1 5).2 (fun t => t ∈ r.removed) 1 5 := by
  obtain ⟨r, hrun, hs⟩ := exists_run_of_meets (I := SchedRun.IsSettled 0)
    (fun _ _ => SchedRun.prioStep_settled) (boot_settled 0 fun t : ℕ => (t : ℤ) + 1)
    (show Meets SchedRun.prioStep (fun call r => r.PrioMade call) readyCalls _ by decide +kernel)
  obtain ⟨r', hrun', hstate, hobs⟩ :
      ∃ r, run SchedRun.prioStep readyCalls (SchedRun.boot 0 fun t => (t : ℤ) + 1) = some r ∧
        (r.sched.task 1).state = .prepare ∧ (setTaskPrio r.sched 1 5).1 = 0 ∧
        (setTaskPrio r.sched 1 5).2.count .system = 3 ∧
        (setTaskPrio r.sched 1 5).2.links.next (.head .system) = .system 1 ∧
        (setTaskPrio r.sched 1 5).2.links.next (.system 1) = .head .system := by
    decide +kernel
  obtain rfl := Option.some.inj (hrun.symm.trans hrun')
  obtain ⟨hret, hcount, hnext, hback⟩ := hobs
  exact ⟨r, hrun, hstate, hret, hcount, hnext, hback, setTaskPrio_not_set hs.inv hstate⟩

end Chunos.Sched
