import Chunos.Sched.Moves
import Chunos.Sched.Prio

/-!
# The task that runs next

A priority queue is only ever lengthened at its end, so the first task on it is the one that
has been on it for the longest time. `find_next_run_task` takes the first task of the first
queue that is not empty. To say for how long a task has been ready, a run is recorded: after
every call and after every turn of the timer's loop over the sleep list, the tasks that are
ready have been so for one more record.
-/

namespace Chunos.Sched

open Rings Runs Function List Option

variable {τ : Type*}

variable {s s' s'' : Scheduler τ} {removed : τ → Prop} {new new' : List τ}

/-- Every priority queue has lost tasks, and got tasks of `new` at its end. -/
def Grows (s s' : Scheduler τ) (new : List τ) : Prop :=
  ∀ lists, Linked s.links s.count lists → ∃ lists', Linked s'.links s'.count lists' ∧
    ∀ i, (Queue.prio i).Valid → ∃ kept added, kept.Sublist (lists (.prio i)) ∧
      added.Sublist new ∧ lists' (.prio i) = kept ++ added

theorem Grows.of_links (hlinks : s'.links = s.links) (hcount : s'.count = s.count) :
    Grows s s' new := by
  intro lists h
  refine ⟨lists, by rwa [hlinks, hcount], fun i _ => ⟨lists (.prio i), [], ?_, ?_, ?_⟩⟩
  · exact List.Sublist.refl _
  · exact nil_sublist _
  · rw [append_nil]

theorem Grows.trans (h : Grows s s' new) (h' : Grows s' s'' new') : Grows s s'' (new ++ new') := by
  intro lists hlinked
  obtain ⟨lists', hlinked', hlists'⟩ := h lists hlinked
  obtain ⟨lists'', hlinked'', hlists''⟩ := h' lists' hlinked'
  refine ⟨lists'', hlinked'', fun i hi => ?_⟩
  obtain ⟨kept, added, hkept, hadded, heq⟩ := hlists' i hi
  obtain ⟨kept', added', hkept', hadded', heq'⟩ := hlists'' i hi
  rw [heq] at hkept'
  obtain ⟨left, right, rfl, hleft, hright⟩ := sublist_append_iff.mp hkept'
  refine ⟨left, right ++ added', hleft.trans hkept, (hright.trans hadded).append hadded', ?_⟩
  rw [heq', append_assoc]

theorem Grows.after (h : Grows s' s'' new) (hlinks : s'.links = s.links)
    (hcount : s'.count = s.count) : Grows s s'' new := by
  have hsame : Grows s s' [] := Grows.of_links hlinks hcount
  exact hsame.trans h

variable [DecidableEq τ]

variable {t idle : τ} {waits : τ → ℕ}

theorem Grows.del {q : Queue} (hq : q.Valid)
    (hon : ∀ lists, Linked s.links s.count lists → t ∈ lists q) :
    Grows s (schedListDelTask s q t) new := by
  intro lists h
  refine ⟨_, h.del hq (hon lists h), fun i _ => ⟨_, [], ?_, nil_sublist _, (append_nil _).symm⟩⟩
  by_cases hqi : Queue.prio i = q
  · subst hqi
    rw [update_self]
    exact erase_sublist
  · rw [update_of_ne hqi]

theorem Grows.addTail {q : Queue} (hq : q.Valid) (hfree : ∀ lists, Linked s.links s.count lists →
      ∀ q', q'.Valid → q'.node t = q.node t → t ∉ lists q')
    (hnew : ∀ i, q = .prio i → [t].Sublist new) : Grows s (schedListAddTaskTail s q t) new := by
  intro lists h
  refine ⟨_, h.addTail hq (hfree lists h), fun i _ => ?_⟩
  by_cases hqi : Queue.prio i = q
  · subst hqi
    rw [update_self]
    exact ⟨_, [t], List.Sublist.refl _, hnew i rfl, rfl⟩
  · rw [update_of_ne hqi]
    exact ⟨_, [], List.Sublist.refl _, nil_sublist _, (append_nil _).symm⟩

theorem Grows.addSleep (hfree : ∀ lists, Linked s.links s.count lists →
      ∀ q', q'.Valid → q'.node t = Queue.sleep.node t → t ∉ lists q') :
    Grows s (schedListAddTask s .sleep t) new := by
  intro lists h
  refine ⟨_, h.add (q := .sleep) trivial (hfree lists h), fun i _ => ⟨_, [], ?_, nil_sublist _,
    (append_nil _).symm⟩⟩
  rw [update_of_ne (by simp)]

/-- `set_task_state` appends its task to a priority queue if it becomes ready. -/
theorem setTaskState_grows (hinv : Inv s removed) (ht : ¬ removed t) {state : State}
    (hstate : state ≠ .unknown) (hnew : state = .prepare → [t].Sublist new) :
    Grows s (setTaskState s t state) new := by
  unfold setTaskState
  simp only
  split_ifs with hchange
  · exact Grows.of_links rfl rfl
  generalize hs₁ : s.modify t (fun task => { task with state := state }) = s₁
  have hlinks : s₁.links = s.links := by rw [← hs₁]; rfl
  have hcount : s₁.count = s.count := by rw [← hs₁]; rfl
  have hprio : (s₁.task t).prio = (s.task t).prio := by simp [← hs₁, Scheduler.modify]
  have hrange := hinv.prio_ok t
  obtain ⟨hjoin, hleave, hfree⟩ := leaveHome_joinSystem_queues hinv ht hlinks hcount hprio
  rw [relink_eq hchange hstate]
  -- The three steps of `relink_eq`, each with who is on which list before it.
  have hgrow₁ : Grows s₁ (joinSystem s₁ t (s.task t).state) [] := by
    unfold joinSystem
    split_ifs with hold
    · refine Grows.addTail (q := .system) trivial ?_ (by simp)
      intro lists h q' hq' heq
      cases q' <;> simp only [Queue.node, reduceCtorEq] at heq
      rw [hlinks, hcount] at h
      rw [hinv.queues.mem_iff h hq']
      exact fun hB => hB.2.1 hold
    · exact Grows.of_links rfl rfl
  have hgrow₂ : Grows (joinSystem s₁ t (s.task t).state)
      (leaveHome (joinSystem s₁ t (s.task t).state) t (s.task t).state) [] := by
    unfold leaveHome
    rw [joinSystem_task, hprio]
    cases hhome : home (s.task t).prio (s.task t).state with
    | none => exact Grows.of_links rfl rfl
    | some q =>
      obtain ⟨hq, hne⟩ := home_eq_some hrange hhome
      refine Grows.del hq fun lists h => (hjoin.mem_iff h hq).mpr (Or.inl ?_)
      exact (belongs_iff_home hne ht).mpr hhome
  have hgrow₃ : Grows (leaveHome (joinSystem s₁ t (s.task t).state) t (s.task t).state)
      (enterHome (leaveHome (joinSystem s₁ t (s.task t).state) t (s.task t).state) t
        (s.task t).state state) new := by
    unfold enterHome
    rw [leaveHome_task, joinSystem_task, hprio]
    cases hhome : home (s.task t).prio state with
    | none => exact Grows.of_links rfl rfl
    | some q =>
      obtain ⟨hq, hne⟩ := home_eq_some hrange hhome
      have hoff : ∀ lists,
          Linked (leaveHome (joinSystem s₁ t (s.task t).state) t (s.task t).state).links
            (leaveHome (joinSystem s₁ t (s.task t).state) t (s.task t).state).count lists →
          ∀ q', q'.Valid → q'.node t = q.node t → t ∉ lists q' := by
        intro lists h q' hq' heq hmem
        refine hfree q' hq' ?_ ((hleave.mem_iff h hq').mp hmem)
        rintro rfl
        cases q <;> simp [Queue.node] at heq hne
      simp only
      split_ifs with hfront
      · obtain rfl := hfront.2
        exact Grows.addSleep hoff
      · refine Grows.addTail hq hoff fun i hi => hnew ?_
        subst hi
        cases state <;> simp [home] at hhome ⊢
  exact ((hgrow₁.trans hgrow₂).trans hgrow₃).after hlinks hcount

/-- At most one task has become ready, and it is at the end of its queue. -/
def Requeues (s s' : Scheduler τ) : Prop :=
  ∃ new : List τ, new.length ≤ 1 ∧ (∀ t ∈ new, (s.task t).state ≠ .prepare) ∧ Grows s s' new

/-- `set_task_state`. -/
theorem setTaskState_requeues (hinv : Inv s removed) (ht : ¬ removed t) {state : State}
    (hstate : state ≠ .unknown) : Requeues s (setTaskState s t state) := by
  by_cases hready : (s.task t).state = .prepare
  · refine ⟨[], by simp, by simp, ?_⟩
    by_cases hsame : state = .prepare
    · rw [setTaskState, if_pos (by rw [hready, hsame]; rfl)]
      exact Grows.of_links rfl rfl
    · exact setTaskState_grows hinv ht hstate fun h => absurd h hsame
  · exact ⟨[t], le_rfl, by simpa using hready,
      setTaskState_grows hinv ht hstate fun _ => List.Sublist.refl _⟩

/-- `prepare_to_switch` puts a running task at the end of its queue. -/
theorem prepareToSwitch_grows (irq : Bool) (hinv : Inv s removed)
    (hnext : s.nextRun = s.current ∨ ¬ removed s.nextRun) :
    Grows s (prepareToSwitch irq s).2
      (if (s.task s.current).state = .running then [s.current] else []) := by
  have hin : ∀ s₁ : Scheduler τ, Inv s₁ removed → ¬ removed s₁.nextRun →
      Grows s₁ (switchIn s₁ s₁.nextRun) [] := by
    intro s₁ hinv₁ hnext₁
    have hmodify := modify_keeps hinv₁ s₁.nextRun
      (f := fun task => { task with
        timeOut := if task.waitTime = 0 then 1 else task.timeOut, waitTime := -1 })
      (fun _ => rfl) (fun _ => rfl)
    exact (setTaskState_grows hmodify.inv hnext₁ (by simp) (by simp)).after rfl rfl
  unfold prepareToSwitch
  by_cases hsame : s.current = s.nextRun
  · rw [if_pos hsame]
    exact Grows.of_links rfl rfl
  · rw [if_neg hsame]
    have hready := hnext.resolve_left (Ne.symm hsame)
    simp only
    split_ifs with hrunning
    · have hback := putBack_keeps irq hinv hrunning
      have hcurrent : ¬ removed s.current := hinv.not_removed (by simp [hrunning])
      have hgrow : Grows s (putBack irq s) [s.current] := by
        obtain ⟨hkeep, hrange⟩ := decPrio_spec (hinv.prio_ok s.current)
        have hdec : Inv (s.modify s.current decPrio) removed :=
          hinv.modify hkeep (Or.inr (by simp [hrunning])) hrange
        unfold putBack
        simp only
        split_ifs
        · exact (setTaskState_grows (getTaskRunTime_keeps hdec s.current).inv hcurrent (by simp)
            fun _ => List.Sublist.refl _).after rfl rfl
        · exact setTaskState_grows hinv hcurrent (by simp) fun _ => List.Sublist.refl _
      exact hgrow.trans (hin _ hback.inv (hback.nextRun ▸ hready))
    · exact hin s hinv hready

/-- `find_next_run_task` and `prepare_to_switch`. -/
theorem Settled.switch_grows (hs : Settled idle removed s) (irq : Bool) :
    ∃ t, findNextRunTask s = some { s with nextRun := t } ∧
      Grows s (prepareToSwitch irq { s with nextRun := t }).2
        (if (s.task s.current).state = .running then [s.current] else []) := by
  obtain ⟨t, hfind, ht⟩ := findNextRunTask_inv hs.inv
  have hnext : t = s.current ∨ ¬ removed t := by
    rw [hs.current_eq]
    exact ht.imp_right And.left
  exact ⟨t, hfind, prepareToSwitch_grows irq (hs.inv.setCurrent s.current t) hnext⟩

/-- `sched`. -/
theorem Settled.sched_grows (hs : Settled idle removed s) {irq : Bool}
    (hsched : Sched.sched irq s = some s') :
    Grows s s' (if (s.task s.current).state = .running then [s.current] else []) := by
  obtain ⟨t, hfind, hgrow⟩ := hs.switch_grows irq
  generalize (if (s.task s.current).state = .running then [s.current] else []) = new at *
  unfold Sched.sched at hsched
  split_ifs at hsched
  · exact some.inj hsched ▸ Grows.of_links rfl rfl
  · exact some.inj hsched ▸ Grows.of_links rfl rfl
  · rw [hfind, map_some, some.injEq] at hsched
    subst hsched
    simp only
    split_ifs
    · exact hgrow
    · exact hgrow

/-- `suspend_task_timeout`. -/
theorem Settled.suspend_requeues (hs : Settled idle removed s) {irq : Bool} {timeout : ℤ}
    {res : Option ℤ × Scheduler τ}
    (hres : Sched.suspendTaskTimeout irq s t timeout = some res) : Requeues s res.2 := by
  unfold Sched.suspendTaskTimeout at hres
  split_ifs at hres with hzero hidle
  · exact some.inj hres ▸ ⟨[], by simp, by simp, Grows.of_links rfl rfl⟩
  · exact some.inj hres ▸ ⟨[], by simp, by simp, Grows.of_links rfl rfl⟩
  · obtain ⟨s', hsched, rfl⟩ := map_eq_some_iff.mp hres
    have hremoved := hs.inv.not_removed hidle
    have hkeeps := markAsleep_keeps hs.inv hremoved timeout
    have hmodify := modify_keeps hs.inv t
      (f := fun task => { task with waitTime := timeout, timeOut := 0 }) (fun _ => rfl) (fun _ => rfl)
    have hasleep : Grows s (markAsleep s t timeout) [] :=
      (setTaskState_grows hmodify.inv hremoved (by simp) (by simp)).after rfl rfl
    have hgrow := hasleep.trans ((hs.of_keeps hkeeps).sched_grows hsched)
    refine ⟨_, ?_, ?_, hgrow⟩
    · split_ifs <;> simp
    · intro u hu
      split_ifs at hu with hrunning
      · simp only [nil_append, mem_singleton] at hu
        subst hu
        have hstate := state_of_setTaskState (by simp) hrunning
        by_cases hut : (markAsleep s t timeout).current = t
        · simp_all [Scheduler.modify]
        · simp_all [Scheduler.modify]
      · simp at hu

/-- One task of the loop of `os_tick_handler`. -/
theorem tickTask_requeues (hinv : Inv s removed) (ht : ¬ removed t) :
    Requeues s (tickTask s t) := by
  have hdown := modify_keeps hinv t (f := fun task => { task with waitTime := task.waitTime - 1 })
    (fun _ => rfl) (fun _ => rfl)
  unfold tickTask
  simp only
  split_ifs
  · obtain ⟨new, hlength, hstate, hgrow⟩ :=
      setTaskState_requeues hdown.inv ht (by simp : State.prepare ≠ .unknown)
    refine ⟨new, hlength, fun u hu => ?_, hgrow.after rfl rfl⟩
    have hu' := hstate u hu
    by_cases hut : u = t
    · simpa [Scheduler.modify, hut] using hu'
    · simpa [Scheduler.modify, hut] using hu'
  · exact ⟨[], by simp, by simp, Grows.of_links rfl rfl⟩
  · exact setTaskState_requeues hinv ht (by simp)
  · exact ⟨[], by simp, by simp, Grows.of_links rfl rfl⟩

/-- A timer interrupt, after its loop over the sleep list. -/
theorem Settled.tick_requeues (hs : Settled idle removed s) :
    ∃ s', (let s := s.modify s.current fun task => { task with runTime := task.runTime - 1 }
      if (s.task s.current).runTime = 0 then
        (findNextRunTask s).map fun s => (prepareToSwitch true s).2
      else some s) = some s' ∧ Requeues s (irqExit s') := by
  have hs₁ := hs.of_keeps (modify_keeps hs.inv s.current
    (f := fun task => { task with runTime := task.runTime - 1 }) (fun _ => rfl) (fun _ => rfl))
  generalize hmodify : s.modify s.current (fun task => { task with runTime := task.runTime - 1 }) = s₁
    at hs₁ ⊢
  have hsame : Grows s s₁ [] := by
    subst hmodify
    exact Grows.of_links rfl rfl
  simp only
  split_ifs
  · obtain ⟨t, hfind, hgrow⟩ := hs₁.switch_grows true
    refine ⟨_, by rw [hfind]; rfl, _, ?_, ?_, hsame.trans hgrow⟩
    · split_ifs <;> simp
    · intro u hu
      split_ifs at hu with hrunning
      · simp only [nil_append, mem_singleton] at hu
        subst hu
        subst hmodify
        simp_all [Scheduler.modify]
      · simp at hu
  · exact ⟨s₁, rfl, [], by simp, by simp, hsame⟩

/-- One more record: the ready tasks have been ready in one more state. -/
def record (waits : τ → ℕ) (s : Scheduler τ) : τ → ℕ :=
  fun t => if (s.task t).state = .prepare then waits t + 1 else 0

/-- The ready tasks are those that have been ready in the last record, and the tasks on a
priority queue are in the order of how long they have been ready. -/
structure Ordered (waits : τ → ℕ) (s : Scheduler τ) : Prop where
  ready_iff : ∀ t, 0 < waits t ↔ (s.task t).state = .prepare
  sorted : ∀ lists, Linked s.links s.count lists → ∀ i, (Queue.prio i).Valid →
    (lists (.prio i)).Pairwise fun a b => waits b < waits a

omit [DecidableEq τ] in
/-- A step that lets at most one task become ready keeps the order. -/
theorem Ordered.record {removed' : τ → Prop} (h : Ordered waits s) (hinv : Inv s removed)
    (hinv' : Inv s' removed') (hstep : Requeues s s') : Ordered (record waits s') s' := by
  have hready : ∀ t, (s'.task t).state = .prepare → Sched.record waits s' t = waits t + 1 :=
    fun t ht => if_pos ht
  constructor
  · intro t
    unfold Sched.record
    split_ifs with ht
    · simp [ht]
    · simp [ht]
  · intro lists' hlinked' i hi
    obtain ⟨new, hlength, hnew, hgrow⟩ := hstep
    obtain ⟨lists, hlinked, -⟩ := hinv.queues
    obtain ⟨lists₁, hlinked₁, hlists₁⟩ := hgrow lists hlinked
    rw [hlinked'.unique hlinked₁ hi]
    obtain ⟨kept, added, hkept, hadded, heq⟩ := hlists₁ i hi
    have hstate' : ∀ t ∈ kept ++ added, (s'.task t).state = .prepare := by
      intro t ht
      rw [← heq] at ht
      exact ((hinv'.queues.mem_iff hlinked₁ hi).mp ht).2.1
    have hstate : ∀ t ∈ kept, (s.task t).state = .prepare := fun t ht =>
      ((hinv.queues.mem_iff hlinked hi).mp (hkept.subset ht)).2.1
    rw [heq, pairwise_append]
    refine ⟨?_, ?_, ?_⟩
    · refine ((h.sorted lists hlinked i hi).sublist hkept).imp_of_mem ?_
      intro a b ha hb hab
      rw [hready a (hstate' a (by simp [ha])), hready b (hstate' b (by simp [hb]))]
      omega
    · have hone := hadded.length_le.trans hlength
      match added, hone with
      | [], _ => exact List.Pairwise.nil
      | [a], _ => exact pairwise_singleton _ a
    · intro a ha b hb
      have hwait := (h.ready_iff a).mpr (hstate a ha)
      have hzero : waits b = 0 := by
        have := mt (h.ready_iff b).mp (hnew b (hadded.subset hb))
        omega
      rw [hready a (hstate' a (by simp [ha])), hready b (hstate' b (by simp [hb]))]
      omega

/-- The states of the loop of `os_tick_handler` after each task that it handles. -/
def tickStates : ℕ → Node τ → Scheduler τ → List (Scheduler τ)
  | 0, _, _ => []
  | fuel + 1, list, s =>
    match list with
    | .sleep t => tickTask s t :: tickStates fuel ((tickTask s t).links.next list) (tickTask s t)
    | _ => []

/-- The loop of `os_tick_handler`, with a record after each task. -/
theorem tickLoop_ordered (rest : List τ) {kept : List τ} {lists : Queue → List τ}
    (h : Ordered waits s) (hinv : Inv s removed) (hlinked : Linked s.links s.count lists)
    (hlist : lists .sleep = kept ++ rest) :
    ∃ s', tickLoop (rest.length + 1) (sleepNode rest) s = some s' ∧ Keeps removed s s' ∧
      Ordered ((tickStates (rest.length + 1) (sleepNode rest) s).foldl record waits) s' := by
  induction rest generalizing s lists kept waits with
  | nil => exact ⟨s, rfl, hinv.keeps, h⟩
  | cons t rest ih =>
    have hsleep : Queue.sleep.Valid := trivial
    obtain ⟨hremoved, -⟩ : Belongs s removed .sleep t :=
      (hinv.queues.mem_iff hlinked hsleep).mp (by simp [hlist])
    obtain ⟨hkeeps, hlinked', hnext⟩ := tickTask_linked hinv hlinked hlist
    have htask := h.record hinv hkeeps.inv (tickTask_requeues hinv hremoved)
    obtain ⟨s', hs', hrest, horder⟩ := ih htask hkeeps.inv hlinked' (tickedLists_sleep hlinked hlist)
    refine ⟨s', ?_, hkeeps.trans hrest, ?_⟩
    · rw [← hs', ← hnext]
      simp [tickLoop, sleepNode]
    · rw [← hnext] at horder
      exact horder

/-- A run of the scheduler with its record. -/
structure QueueRun (τ : Type*) where
  run : SchedRun τ
  waits : τ → ℕ

/-- The states that a call of a run is recorded in. -/
def SchedRun.passed (r r' : SchedRun τ) : SchedCall τ → List (Scheduler τ)
  | .tick =>
    tickStates ((r.sched.count .sleep).toNat + 1) (r.sched.links.next (.head .sleep)) r.sched ++
      [r'.sched]
  | _ => [r'.sched]

/-- One call, with its record. -/
def QueueRun.step (call : SchedCall τ) (w : QueueRun τ) : Option (QueueRun τ) :=
  (SchedRun.step call w.run).map fun r =>
    { run := r, waits := (w.run.passed r call).foldl record w.waits }

/-- The start of a run: no task is ready. -/
def QueueRun.boot (idle : τ) (pid : τ → ℤ) : QueueRun τ :=
  { run := SchedRun.boot idle pid, waits := fun _ => 0 }

/-- What every call keeps. -/
structure QueueRun.Inv (idle : τ) (w : QueueRun τ) : Prop where
  settled : Settled idle (fun t => t ∈ w.run.removed) w.run.sched
  prios : PriosOk idle w.run.sched
  ordered : Ordered w.waits w.run.sched

/-- A timer interrupt keeps the order. -/
theorem tick_ordered (hs : Settled idle removed s) (h : Ordered waits s) :
    ∃ s', osTickHandler ((s.count .sleep).toNat + 1) s = some s' ∧
      Settled idle removed (irqExit s') ∧
      Ordered (record ((tickStates ((s.count .sleep).toNat + 1) (s.links.next (.head .sleep)) s).foldl
        record waits) (irqExit s')) (irqExit s') := by
  obtain ⟨s', htick, hsettled⟩ := hs.tick
  obtain ⟨lists, hlinked, -⟩ := hs.inv.queues
  have hlist : lists .sleep = [] ++ lists .sleep := rfl
  obtain ⟨s₁, hloop, hkeeps, horder⟩ := tickLoop_ordered (lists .sleep) h hs.inv hlinked hlist
  obtain ⟨s₂, hrest, hrequeues⟩ := (hs.of_keeps hkeeps).tick_requeues
  have hsame : s' = s₂ := by
    unfold osTickHandler at htick
    rw [hlinked.counts .sleep trivial, Int.toNat_natCast, hlinked.next_head_sleep, hloop,
      bind_some, hrest] at htick
    exact (some.inj htick).symm
  subst hsame
  refine ⟨s', htick, hsettled, ?_⟩
  rw [hlinked.counts .sleep trivial, Int.toNat_natCast, hlinked.next_head_sleep]
  exact horder.record hkeeps.inv hsettled.inv hrequeues

/-- A call other than a timer interrupt lets at most one task become ready. -/
theorem SchedRun.step_requeues {r r' : SchedRun τ} {call : SchedCall τ}
    (hs : r.IsSettled idle) (hmade : r.Made call)
    (hcall : call ≠ .tick) (hstep : SchedRun.step call r = some r') :
    Requeues r.sched r'.sched := by
  have hnone : Requeues r.sched r.sched := ⟨[], by simp, by simp, Grows.of_links rfl rfl⟩
  have hset : ∀ t (state : State), state ≠ .unknown →
      Requeues r.sched (setTaskState r.sched t state) := by
    intro t state hstate
    by_cases ht : t ∈ r.removed
    · rwa [setTaskState_of_removed hs ht]
    · exact setTaskState_requeues hs.inv ht hstate
  cases call with
  | activate t new =>
    obtain rfl := some.inj hstep
    refine hset t new ?_
    rintro rfl
    simp [SchedRun.Made] at hmade
  | sched irq =>
    obtain ⟨s', hs', rfl⟩ := map_eq_some_iff.mp hstep
    refine ⟨_, ?_, ?_, hs.sched_grows hs'⟩
    · split_ifs <;> simp
    · intro u hu
      split_ifs at hu with hrunning
      · simp_all
      · simp at hu
  | tick => exact absurd rfl hcall
  | suspend irq t timeout =>
    obtain ⟨res, hres, rfl⟩ := map_eq_some_iff.mp hstep
    exact hs.suspend_requeues hres
  | wakeup t =>
    obtain rfl := some.inj hstep
    simp only [wakeupTask]
    split_ifs with hsleep
    · exact hnone
    · have hstate : (r.sched.task t).state = .sleep := not_not.mp hsleep
      have ht : t ∉ r.removed := hs.inv.not_removed (by simp [hstate])
      refine ⟨[t], le_rfl, by simp [hstate], ?_⟩
      exact (setTaskState_grows (getTaskRunTime_keeps hs.inv t).inv ht (by simp)
        fun _ => List.Sublist.refl _).after rfl rfl
  | stop t =>
    obtain rfl := some.inj hstep
    exact hset t .idle (by simp)
  | remove t =>
    obtain ⟨hidle, ht⟩ := hmade
    obtain rfl := some.inj hstep
    show Requeues r.sched (schedRemoveTask r.sched t).2
    unfold schedRemoveTask
    split_ifs with hstate
    · exact hnone
    · exact hnone
    · have hon : Belongs r.sched (fun t => t ∈ r.removed) .idle t := ⟨ht, not_not.mp hstate⟩
      have hsystem : Belongs r.sched (fun t => t ∈ r.removed) .system t :=
        ⟨ht, by simp [not_not.mp hstate], hidle⟩
      have hdel := hs.inv.queues.del (q := .idle) trivial hon
      have hgrow₁ : Grows r.sched (schedListDelTask r.sched .idle t) [] :=
        Grows.del (q := .idle) trivial fun lists h =>
          (hs.inv.queues.mem_iff h (q := .idle) trivial).mpr hon
      have hgrow₂ : Grows (schedListDelTask r.sched .idle t)
          (schedListDelTask (schedListDelTask r.sched .idle t) .system t) [] :=
        Grows.del (q := .system) trivial fun lists h =>
          (Queues.mem_iff hdel h (q := .system) trivial).mpr ⟨hsystem, by simp⟩
      exact ⟨[], by simp, by simp, hgrow₁.trans hgrow₂⟩

/-- Every call that is made completes and keeps the invariant. -/
theorem QueueRun.Inv.step {w : QueueRun τ} {call : SchedCall τ} (h : w.Inv idle)
    (hmade : w.run.Made call) : ∃ w', QueueRun.step call w = some w' ∧ w'.Inv idle := by
  obtain ⟨r', hr', hsettled⟩ := SchedRun.step_settled h.settled hmade
  refine ⟨_, by rw [QueueRun.step, hr', map_some], hsettled, h.prios.step hr', ?_⟩
  by_cases hcall : call = .tick
  · subst hcall
    obtain ⟨s', htick, -, horder⟩ := tick_ordered h.settled h.ordered
    obtain ⟨s₁, hs₁, rfl⟩ := map_eq_some_iff.mp hr'
    obtain rfl : s₁ = s' := some.inj (hs₁.symm.trans htick)
    simpa only [SchedRun.passed, foldl_append, foldl_cons, foldl_nil] using horder
  · have hrequeues := SchedRun.step_requeues h.settled hmade hcall hr'
    have horder := h.ordered.record h.settled.inv hsettled.inv hrequeues
    cases call <;> first | exact horder | exact absurd rfl hcall

/-- At the start no task is ready, and the idle task has the last priority. -/
theorem QueueRun.boot_inv (idle : τ) (pid : τ → ℕ) :
    (QueueRun.boot idle fun t => (pid t : ℤ)).Inv idle := by
  have hboot := boot_settled idle fun t => (pid t : ℤ)
  refine ⟨hboot, ?_, ?_, ?_⟩
  · intro t
    by_cases ht : t = idle
    · subst ht
      refine ⟨fun _ => ?_, fun hne => absurd rfl hne⟩
      simp [QueueRun.boot, SchedRun.boot, bootSched, initSchedStruct]
    · refine ⟨fun heq => absurd heq ht, fun _ => ?_⟩
      simp [QueueRun.boot, SchedRun.boot, bootSched, initSchedStruct, ht, taskDefaultPrio,
        taskMaxPrio]
  · intro t
    by_cases ht : t = idle
    · simp [QueueRun.boot, SchedRun.boot, bootSched, ht]
    · simp [QueueRun.boot, SchedRun.boot, bootSched, initSchedStruct, ht]
  · intro lists hlinked i hi
    have hlength := hlinked.counts (.prio i) hi
    have hnil : lists (.prio i) = [] := by
      rw [← length_eq_zero_iff]
      have hzero : (QueueRun.boot idle fun t => (pid t : ℤ)).run.sched.count (.prio i) = 0 := rfl
      omega
    rw [hnil]
    exact List.Pairwise.nil

omit [DecidableEq τ] in
/-- When some task is ready, `find_next_run_task` chooses the ready task of the smallest
priority that has been ready for the longest time. -/
theorem QueueRun.Inv.findNextRunTask {w : QueueRun τ} (h : w.Inv idle) {u : τ}
    (hu : (w.run.sched.task u).state = .prepare) :
    ∃ t, findNextRunTask w.run.sched = some { w.run.sched with nextRun := t } ∧
      (w.run.sched.task t).state = .prepare ∧
      (∀ u, (w.run.sched.task u).state = .prepare →
        (w.run.sched.task t).prio ≤ (w.run.sched.task u).prio) ∧
      ∀ u, (w.run.sched.task u).state = .prepare →
        (w.run.sched.task u).prio = (w.run.sched.task t).prio → u ≠ t → w.waits u < w.waits t := by
  have hinv := h.settled.inv
  obtain ⟨lists, hlinked, hmem⟩ := hinv.queues
  have hqueue : ∀ v, (w.run.sched.task v).state = .prepare →
      v ∈ lists (.prio (w.run.sched.task v).prio) := fun v hv =>
    (hmem (.prio (w.run.sched.task v).prio) (hinv.prio_ok v) v).mpr
      ⟨hinv.not_removed (by simp [hv]), hv, rfl⟩
  rcases findNextRunTask_linked hlinked with ⟨hnil, -⟩ | ⟨k, t, rest, hvalid, hfirst, hlist, hfind⟩
  · have hin := hqueue u hu
    rw [hnil _ (hinv.prio_ok u)] at hin
    simp at hin
  · obtain ⟨-, hstate, hprio⟩ : Belongs w.run.sched (fun t => t ∈ w.run.removed) (.prio k) t :=
      (hmem _ hvalid t).mp (by simp [hlist])
    refine ⟨t, hfind, hstate, ?_, ?_⟩
    · intro v hv
      by_contra hlt
      have hin := hqueue v hv
      rw [hfirst _ (hinv.prio_ok v).1 (by omega)] at hin
      simp at hin
    · intro v hv hsame hne
      have hin := hqueue v hv
      rw [hsame, hprio, hlist] at hin
      have hsorted := h.ordered.sorted lists hlinked k hvalid
      rw [hlist] at hsorted
      exact rel_of_pairwise_cons hsorted ((mem_cons.mp hin).resolve_left hne)

/-- In every run each call completes. After it all priorities are indices of the table, that
of the idle task is the last one, and no other task has it. When some task is ready,
`find_next_run_task` chooses a ready task of the smallest priority, the one of that priority
that has been ready for the longest time, and the idle task only if it is the only one. -/
theorem findNextRunTask_longest_ready (idle : τ) (pid : τ → ℕ) (calls : List (SchedCall τ))
    (hmade : Meets QueueRun.step (fun call w => w.run.Made call) calls
      (QueueRun.boot idle fun t => (pid t : ℤ))) :
    ∃ w, run QueueRun.step calls (QueueRun.boot idle fun t => (pid t : ℤ)) = some w ∧
      (∀ t, 0 ≤ (w.run.sched.task t).prio ∧ (w.run.sched.task t).prio < taskMaxPrio) ∧
      (w.run.sched.task idle).prio = taskMaxPrio - 1 ∧
      (∀ t, t ≠ idle → (w.run.sched.task t).prio ≠ taskMaxPrio - 1) ∧
      ((∃ u, (w.run.sched.task u).state = .prepare) →
        ∃ t, findNextRunTask w.run.sched = some { w.run.sched with nextRun := t } ∧
          (w.run.sched.task t).state = .prepare ∧
          (∀ u, (w.run.sched.task u).state = .prepare →
            (w.run.sched.task t).prio ≤ (w.run.sched.task u).prio) ∧
          (∀ u, (w.run.sched.task u).state = .prepare →
            (w.run.sched.task u).prio = (w.run.sched.task t).prio → u ≠ t →
            w.waits u < w.waits t) ∧
          (t = idle → ∀ u, (w.run.sched.task u).state = .prepare → u = idle)) := by
  obtain ⟨w, hrun, hinv⟩ := exists_run_of_meets (I := fun w : QueueRun τ => w.Inv idle)
    (fun _ _ => QueueRun.Inv.step) (QueueRun.boot_inv idle pid) hmade
  have hidle := ((hinv.prios idle).1 rfl).2
  refine ⟨w, hrun, hinv.settled.inv.prio_ok, hidle, ?_, ?_⟩
  · intro t ht
    have := ((hinv.prios t).2 ht).2
    omega
  · rintro ⟨u, hu⟩
    obtain ⟨t, hfind, hstate, hleast, hlongest⟩ := hinv.findNextRunTask hu
    refine ⟨t, hfind, hstate, hleast, hlongest, ?_⟩
    rintro rfl v hv
    by_contra hne
    have hle := hleast v hv
    have hlt := ((hinv.prios v).2 hne).2
    omega

/-- Three tasks next to the idle task: the timer wakes two of them up in one interrupt. -/
def wakeCalls : List (SchedCall ℕ) :=
  [.activate 1 .prepare, .activate 2 .prepare, .activate 3 .prepare, .sched false,
    .suspend false 1 1, .suspend false 2 1, .tick, .sched false]

/-- The calls are made, and after them the choice is right. -/
theorem findNextRunTask_longest_ready_wake :
    Meets QueueRun.step (fun call w => w.run.Made call) wakeCalls
      (QueueRun.boot 0 fun t => ((t + 1 : ℕ) : ℤ)) ∧
    ∃ w, run QueueRun.step wakeCalls (QueueRun.boot 0 fun t => ((t + 1 : ℕ) : ℤ)) = some w ∧
      (w.run.sched.task 0).prio = taskMaxPrio - 1 := by
  have hmade : Meets QueueRun.step (fun call w => w.run.Made call) wakeCalls
      (QueueRun.boot 0 fun t => ((t + 1 : ℕ) : ℤ)) := by
    decide +kernel
  obtain ⟨w, hrun, -, hidle, -⟩ := findNextRunTask_longest_ready 0 (fun t => t + 1) wakeCalls hmade
  exact ⟨hmade, w, hrun, hidle⟩

end Chunos.Sched
