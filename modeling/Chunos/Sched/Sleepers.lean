import Chunos.Sched.Slice

/-!
# The sleep list and the timer

One timer interrupt comes to every task of the sleep list once, in the order of the list,
although tasks are unlinked on the way. The tasks whose time is over go to the ends of their
priority queues in this order, and the others stay as they were. No other call counts a
sleeping task down, so a task that sleeps for `n` ticks is woken up by the `n`-th tick.
-/

namespace Chunos.Sched

open Rings Runs Function List Option

variable {τ : Type*} {s s' s'' : Scheduler τ} {removed : τ → Prop} {idle : τ}
  {lists : Queue → List τ}

/-- The lists after the loop of `os_tick_handler` has handled the tasks `rest`, which stand on
the sleep list behind `kept`. -/
def handledLists (task : τ → Task) (lists : Queue → List τ) (kept rest : List τ) : Queue → List τ
  | .sleep => kept ++ rest.filter fun t => ¬ Expires (task t)
  | .prio i => lists (.prio i) ++ rest.filter fun t => Expires (task t) ∧ (task t).prio = i
  | q => lists q

variable {kept : List τ} {t : τ} {call : SchedCall τ} {r : SchedRun τ}

theorem handledLists_nil (task : τ → Task) (hlist : lists .sleep = kept) :
    handledLists task lists kept [] = lists := by
  funext q
  cases q with
  | sleep => simp [handledLists, hlist]
  | prio i => simp [handledLists]
  | system | idle => rfl

/-- What one pass over the sleep list does: the lists and the tasks before and after it. -/
structure TickPass (s : Scheduler τ) (lists : Queue → List τ) (s' : Scheduler τ)
    (lists' : Queue → List τ) : Prop where
  linked : Linked s'.links s'.count lists'
  stay : lists' .sleep = (lists .sleep).filter fun t => ¬ Expires (s.task t)
  wake : ∀ i, lists' (.prio i) =
    lists (.prio i) ++ (lists .sleep).filter fun t => Expires (s.task t) ∧ (s.task t).prio = i
  others : lists' .system = lists .system ∧ lists' .idle = lists .idle
  handled : ∀ t ∈ lists .sleep, s'.task t = tickedTask (s.task t)
  untouched : ∀ t, t ∉ lists .sleep → s'.task t = s.task t

/-- The sleep list stays as it is. -/
def SameSleepers (s s' : Scheduler τ) : Prop :=
  ∀ lists, Linked s.links s.count lists →
    ∃ lists', Linked s'.links s'.count lists' ∧ lists' .sleep = lists .sleep

theorem SameSleepers.of_links (hlinks : s'.links = s.links) (hcount : s'.count = s.count) :
    SameSleepers s s' :=
  fun lists h => ⟨lists, by rwa [hlinks, hcount], rfl⟩

theorem SameSleepers.trans (h : SameSleepers s s') (h' : SameSleepers s' s'') :
    SameSleepers s s'' := by
  intro lists hlinked
  obtain ⟨lists', hlinked', heq⟩ := h lists hlinked
  obtain ⟨lists'', hlinked'', heq'⟩ := h' lists' hlinked'
  exact ⟨lists'', hlinked'', heq'.trans heq⟩

variable [DecidableEq τ]

/-- The first of the tasks is handled before the others. -/
theorem handledLists_cons {rest : List τ} (hstate : (s.task t).state = .sleep) (hfresh : t ∉ rest) :
    handledLists (tickTask s t).task (tickedLists s lists t)
      (kept ++ if Expires (s.task t) then [] else [t]) rest =
    handledLists s.task lists kept (t :: rest) := by
  have hsame : ∀ u ∈ rest, (tickTask s t).task u = s.task u := by
    intro u hu
    rw [tickTask_task hstate, update_of_ne (ne_of_mem_of_not_mem hu hfresh)]
  have hstay : (rest.filter fun u => ¬ Expires ((tickTask s t).task u)) =
      rest.filter fun u => ¬ Expires (s.task u) :=
    filter_congr fun u hu => by rw [hsame u hu]
  have hwake : ∀ i,
      (rest.filter fun u => Expires ((tickTask s t).task u) ∧ ((tickTask s t).task u).prio = i) =
        rest.filter fun u => Expires (s.task u) ∧ (s.task u).prio = i :=
    fun i => filter_congr fun u hu => by rw [hsame u hu]
  funext q
  by_cases hover : Expires (s.task t)
  · cases q with
    | sleep => simp only [handledLists, hstay]; simp [hover]
    | prio i =>
      simp only [handledLists, hwake, tickedLists, hover, if_true, wokenLists]
      by_cases hi : i = (s.task t).prio
      · subst hi
        simp [hover]
      · simp [hover, hi, Ne.symm hi]
    | system | idle => simp [handledLists, tickedLists, hover, wokenLists]
  · cases q with
    | sleep => simp only [handledLists, hstay]; simp [hover]
    | prio i => simp only [handledLists, hwake, tickedLists]; simp [hover]
    | system | idle => simp [handledLists, tickedLists, hover]

/-- The tasks that the loop of `os_tick_handler` comes to, in this order. -/
def tickVisits : ℕ → Node τ → Scheduler τ → List τ
  | 0, _, _ => []
  | fuel + 1, list, s =>
    match list with
    | .sleep t => t :: tickVisits fuel ((tickTask s t).links.next list) (tickTask s t)
    | _ => []

/-- The loop of `os_tick_handler` on the tasks that are left. -/
theorem tickLoop_pass (rest : List τ) (hinv : Inv s removed) (h : Linked s.links s.count lists)
    (hlist : lists .sleep = kept ++ rest) :
    tickVisits (rest.length + 1) (sleepNode rest) s = rest ∧
    ∃ s', tickLoop (rest.length + 1) (sleepNode rest) s = some s' ∧ Keeps removed s s' ∧
      Linked s'.links s'.count (handledLists s.task lists kept rest) ∧
      (∀ t ∈ rest, s'.task t = tickedTask (s.task t)) ∧
      ∀ t, t ∉ rest → s'.task t = s.task t := by
  induction rest generalizing s lists kept with
  | nil =>
    refine ⟨rfl, s, rfl, hinv.keeps, ?_, by simp, fun _ _ => rfl⟩
    rw [append_nil] at hlist
    rwa [handledLists_nil _ hlist]
  | cons t rest ih =>
    have hsleep : Queue.sleep.Valid := trivial
    obtain ⟨-, hstate⟩ : Belongs s removed .sleep t :=
      (hinv.queues.mem_iff h hsleep).mp (by simp [hlist])
    have hfresh : t ∉ rest := by
      have hnodup := h.nodup hsleep
      rw [hlist] at hnodup
      exact (nodup_cons.mp (nodup_append.mp hnodup).2.1).1
    have htask := tickTask_task hstate
    obtain ⟨hkeeps, h', hnext⟩ := tickTask_linked hinv h hlist
    obtain ⟨hvisits, s', hs', hrest, hlinked, hhandled, hothers⟩ :=
      ih hkeeps.inv h' (tickedLists_sleep h hlist)
    rw [handledLists_cons hstate hfresh] at hlinked
    refine ⟨?_, s', ?_, hkeeps.trans hrest, hlinked, ?_, ?_⟩
    · rw [← hnext] at hvisits
      exact congrArg (t :: ·) hvisits
    · rw [← hs', ← hnext]
      simp [tickLoop, sleepNode]
    · intro u hu
      obtain rfl | hu := mem_cons.mp hu
      · rw [hothers u hfresh, htask, update_self]
      · have hut : u ≠ t := ne_of_mem_of_not_mem hu hfresh
        rw [hhandled u hu, htask, update_of_ne hut]
    · intro u hu
      obtain ⟨hut, hu⟩ := not_or.mp (mt mem_cons.mpr hu)
      rw [hothers u hu, htask, update_of_ne hut]

theorem Inv.tickPass (hinv : Inv s removed) (h : Linked s.links s.count lists) :
    tickVisits ((s.count .sleep).toNat + 1) (s.links.next (.head .sleep)) s = lists .sleep ∧
    ∃ s' lists',
      Sched.tickLoop ((s.count .sleep).toNat + 1) (s.links.next (.head .sleep)) s = some s' ∧
      Keeps removed s s' ∧ TickPass s lists s' lists' := by
  rw [h.counts .sleep trivial, Int.toNat_natCast, h.next_head_sleep]
  obtain ⟨hvisits, s', hs', hkeeps, hlinked, hhandled, hothers⟩ :=
    tickLoop_pass (lists .sleep) hinv h (nil_append _).symm
  exact ⟨hvisits, s', _, hs', hkeeps, hlinked, rfl, fun _ => rfl, ⟨rfl, rfl⟩, hhandled, hothers⟩

theorem SameSleepers.addTail {q : Queue} (hq : q.Valid) (hsleep : q ≠ .sleep)
    (hfree : ∀ lists, Linked s.links s.count lists →
      ∀ q', q'.Valid → q'.node t = q.node t → t ∉ lists q') :
    SameSleepers s (schedListAddTaskTail s q t) :=
  fun lists h => ⟨_, h.addTail hq (hfree lists h), update_of_ne hsleep.symm _ _⟩

theorem SameSleepers.del {q : Queue} (hq : q.Valid) (hsleep : q ≠ .sleep)
    (hon : ∀ lists, Linked s.links s.count lists → t ∈ lists q) :
    SameSleepers s (schedListDelTask s q t) :=
  fun lists h => ⟨_, h.del hq (hon lists h), update_of_ne hsleep.symm _ _⟩

theorem setTaskState_prepare_sleepers (hinv : Inv s removed) (hstate : (s.task t).state = .running) :
    SameSleepers s (setTaskState s t .prepare) := by
  have hqueue : (s.modify t fun task => { task with state := .prepare }).prioQueue t =
      .prio (s.task t).prio := by
    simp [Scheduler.prioQueue, Scheduler.modify]
  have hvalid : (Queue.prio (s.task t).prio).Valid := hinv.prio_ok t
  simp only [setTaskState, hstate, changeTable, reduceCtorEq, if_false, relink, hqueue]
  refine SameSleepers.addTail (s := s.modify t _) hvalid (by simp) ?_
  intro lists h q' hq' heq
  cases q' <;> simp only [Queue.node, reduceCtorEq] at heq
  rw [hinv.queues.mem_iff h hq']
  simp [Belongs, hstate]

theorem setTaskState_running_sleepers (hinv : Inv s removed) (hstate : (s.task t).state = .prepare) :
    SameSleepers s (setTaskState s t .running) := by
  have hqueue : (s.modify t fun task => { task with state := .running }).prioQueue t =
      .prio (s.task t).prio := by
    simp [Scheduler.prioQueue, Scheduler.modify]
  have hvalid : (Queue.prio (s.task t).prio).Valid := hinv.prio_ok t
  simp only [setTaskState, hstate, changeTable, reduceCtorEq, if_false, relink, hqueue]
  refine SameSleepers.del (s := s.modify t _) hvalid (by simp) fun lists h => ?_
  rw [hinv.queues.mem_iff h hvalid]
  exact ⟨hinv.not_removed (by simp [hstate]), hstate, rfl⟩

/-- `prepare_to_switch`, for a next task that is the current one or ready. -/
theorem prepareToSwitch_sleepers (irq : Bool) (hinv : Inv s removed)
    (hnext : s.nextRun = s.current ∨ (s.task s.nextRun).state = .prepare) :
    SameSleepers s (prepareToSwitch irq s).2 := by
  have hin : ∀ s₁ : Scheduler τ, Inv s₁ removed → (s₁.task s₁.nextRun).state = .prepare →
      SameSleepers s₁ (switchIn s₁ s₁.nextRun) := by
    intro s₁ hinv₁ hready
    have hmodify := modify_keeps hinv₁ s₁.nextRun
      (f := fun task => { task with
        timeOut := if task.waitTime = 0 then 1 else task.timeOut, waitTime := -1 })
      (fun _ => rfl) (fun _ => rfl)
    have hlinks : SameSleepers s₁ (s₁.modify s₁.nextRun fun task =>
        { task with timeOut := if task.waitTime = 0 then 1 else task.timeOut, waitTime := -1 }) :=
      SameSleepers.of_links rfl rfl
    refine hlinks.trans (setTaskState_running_sleepers hmodify.inv ?_)
    simpa [Scheduler.modify] using hready
  unfold prepareToSwitch
  by_cases hsame : s.current = s.nextRun
  · rw [if_pos hsame]
    exact SameSleepers.of_links rfl rfl
  · rw [if_neg hsame]
    have hready := hnext.resolve_left (Ne.symm hsame)
    simp only
    split_ifs with hrunning
    · have hback := putBack_keeps irq hinv hrunning
      have hput : SameSleepers s (putBack irq s) := by
        obtain ⟨hkeep, hrange⟩ := decPrio_spec (hinv.prio_ok s.current)
        have hdec : Inv (s.modify s.current decPrio) removed :=
          hinv.modify hkeep (Or.inr (by simp [hrunning])) hrange
        have hslice := getTaskRunTime_keeps hdec s.current
        have hlinks : SameSleepers s (getTaskRunTime (s.modify s.current decPrio) s.current) :=
          SameSleepers.of_links rfl rfl
        unfold putBack
        simp only
        split_ifs
        · refine hlinks.trans (setTaskState_prepare_sleepers hslice.inv ?_)
          simpa [getTaskRunTime, Scheduler.modify, decPrio] using hrunning
        · exact setTaskState_prepare_sleepers hinv hrunning
      refine hput.trans (hin _ hback.inv ?_)
      rw [hback.nextRun, putBack_task_of_ne irq (Ne.symm hsame)]
      exact hready
    · exact hin s hinv hready

/-- After a timer interrupt the tasks that stay on the sleep list are still on it, in the same
order. -/
theorem Settled.tick_sleepList (hs : Settled idle removed s) (h : Linked s.links s.count lists) :
    ∃ s' lists', osTickHandler ((s.count .sleep).toNat + 1) s = some s' ∧
      Linked s'.links s'.count lists' ∧
      lists' .sleep = (lists .sleep).filter fun t => ¬ Expires (s.task t) := by
  obtain ⟨-, s₁, lists₁, hloop, hkeeps, hpass⟩ := hs.inv.tickPass h
  have hs₁ := hs.of_keeps hkeeps
  have hs₂ := hs₁.of_keeps (modify_keeps hs₁.inv s₁.current
    (f := fun task => { task with runTime := task.runTime - 1 }) (fun _ => rfl) (fun _ => rfl))
  unfold osTickHandler
  rw [hloop, bind_some]
  simp only
  split_ifs
  · obtain ⟨t, hfind, ht, -⟩ := hs₂.switch true
    obtain ⟨lists', hlinked, hsame⟩ := prepareToSwitch_sleepers true
      (hs₂.inv.setCurrent s₁.current t) ht lists₁ hpass.linked
    rw [hfind]
    exact ⟨_, lists', rfl, hlinked, hsame.trans hpass.stay⟩
  · exact ⟨_, lists₁, rfl, hpass.linked, hpass.stay⟩

/-- `prepare_to_switch` does not touch the sleep of a task. -/
theorem prepareToSwitch_asleep (irq : Bool) (hinv : Inv s removed)
    (hnext : s.nextRun = s.current ∨ (s.task s.nextRun).state = .prepare)
    (ht : (s.task t).state = .sleep) :
    ((prepareToSwitch irq s).2.task t).state = .sleep ∧
      ((prepareToSwitch irq s).2.task t).waitTime = (s.task t).waitTime := by
  unfold prepareToSwitch
  by_cases hsame : s.current = s.nextRun
  · rw [if_pos hsame]
    by_cases htn : t = s.nextRun
    · subst htn
      simp [getTaskRunTime, Scheduler.modify, ht]
    · simp [getTaskRunTime, Scheduler.modify, htn, ht]
  · rw [if_neg hsame]
    have hready := hnext.resolve_left (Ne.symm hsame)
    have htn : t ≠ s.nextRun := by
      rintro rfl
      simp [ht] at hready
    simp only
    split_ifs with hrunning
    · have htc : t ≠ s.current := by
        rintro rfl
        simp [ht] at hrunning
      have hback := putBack_keeps irq hinv hrunning
      have hready' : ((putBack irq s).task (putBack irq s).nextRun).state =
          .prepare := by
        rw [hback.nextRun, putBack_task_of_ne irq (Ne.symm hsame)]
        exact hready
      rw [switchIn_task hready', hback.nextRun, update_of_ne htn,
        putBack_task_of_ne irq htc]
      exact ⟨ht, rfl⟩
    · rw [switchIn_task hready, update_of_ne htn]
      exact ⟨ht, rfl⟩

/-- The calls that leave the sleep of a task to the timer: they do not wake it up, stop it or
put it to sleep again. -/
def SchedCall.LeavesAsleep (t : τ) : SchedCall τ → Prop
  | .activate u _ => u ≠ t
  | .suspend _ u _ => u ≠ t
  | .wakeup u => u ≠ t
  | .stop u => u ≠ t
  | .sched _ | .tick | .remove _ => True

theorem Settled.leadIn_tick_asleep (hs : Settled idle removed s) (ht : (s.task t).state = .sleep) :
    ((SchedCall.tick.leadIn s).task t).state = (tickedTask (s.task t)).state ∧
      ((SchedCall.tick.leadIn s).task t).waitTime = countedDown (s.task t).waitTime := by
  obtain ⟨lists, hlinked, hmem⟩ := hs.inv.queues
  obtain ⟨-, s₁, lists₁, hloop, -, hpass⟩ := hs.inv.tickPass hlinked
  have hon : t ∈ lists .sleep :=
    (hmem .sleep trivial t).mpr ⟨hs.inv.not_removed (by simp [ht]), ht⟩
  have htask := hpass.handled t hon
  simp only [SchedCall.leadIn, hloop, getD_some]
  by_cases htc : t = s₁.current
  · subst htc
    simp [Scheduler.modify, htask, tickedTask]
  · simp [Scheduler.modify, htc, htask, tickedTask]

/-- The part of a call before the switch, for a task that it leaves asleep. -/
theorem SchedCall.leadIn_asleep (hcall : call.LeavesAsleep t) (htick : call ≠ .tick) :
    (call.leadIn s).task t = s.task t := by
  cases call with
  | activate u new => exact setTaskState_task_of_ne s (Ne.symm hcall) new
  | sched irq => rfl
  | tick => exact absurd rfl htick
  | suspend irq u timeout =>
    simp only [SchedCall.leadIn]
    split_ifs
    · rfl
    · exact (markAsleep_task s u timeout).2.2 t (Ne.symm hcall)
  | wakeup u =>
    simp only [SchedCall.leadIn, wakeupTask]
    split_ifs
    · rfl
    · rw [setTaskState_task_of_ne _ (Ne.symm hcall), getTaskRunTime_of_ne s (Ne.symm hcall)]
  | stop u => exact setTaskState_task_of_ne s (Ne.symm hcall) .idle
  | remove u =>
    simp only [SchedCall.leadIn, schedRemoveTask]
    split_ifs <;> rfl

/-- A task that sleeps when a call comes to the switch still sleeps after the call. -/
theorem SchedRun.step_of_asleep (hs : r.IsSettled idle)
    (hmade : r.Made call) (ht : ((call.leadIn r.sched).task t).state = .sleep) :
    ∃ r', SchedRun.step call r = some r' ∧ r'.IsSettled idle ∧
      (r'.sched.task t).state = .sleep ∧
      (r'.sched.task t).waitTime = ((call.leadIn r.sched).task t).waitTime := by
  obtain ⟨r', hstep, hsettled⟩ := SchedRun.step_settled hs hmade
  refine ⟨r', hstep, hsettled, ?_⟩
  cases hswitch : call.switches r.sched with
  | none =>
    obtain ⟨gone, hstep'⟩ := SchedRun.step_of_leadIn hs hswitch
    obtain rfl := some.inj (hstep.symm.trans hstep')
    exact ⟨ht, rfl⟩
  | some irq =>
    obtain ⟨hkeeps, u, hfind, hstep'⟩ := SchedRun.step_of_switches hs hswitch
    obtain rfl := some.inj (hstep.symm.trans hstep')
    obtain ⟨v, hfind', hnext, -⟩ := (hs.of_keeps hkeeps).switch irq
    obtain rfl : u = v :=
      congrArg Scheduler.nextRun (some.inj (hfind.symm.trans hfind'))
    exact prepareToSwitch_asleep irq
      (hkeeps.inv.setCurrent (call.leadIn r.sched).current u) hnext ht

/-- A call that comes before the end of the waiting time of a task. -/
theorem SchedRun.step_asleep (hs : r.IsSettled idle)
    (hmade : r.Made call) (hcall : call.LeavesAsleep t) (ht : (r.sched.task t).state = .sleep)
    (htime : ticks [call] < (r.sched.task t).waitTime) :
    ∃ r', SchedRun.step call r = some r' ∧ r'.IsSettled idle ∧
      (r'.sched.task t).state = .sleep ∧
      (r'.sched.task t).waitTime = (r.sched.task t).waitTime - ticks [call] := by
  have hlead : ((call.leadIn r.sched).task t).state = .sleep ∧
      ((call.leadIn r.sched).task t).waitTime = (r.sched.task t).waitTime - ticks [call] := by
    by_cases htick : call = .tick
    · subst htick
      have hone : ticks ([.tick] : List (SchedCall τ)) = 1 := rfl
      have hdown : countedDown (r.sched.task t).waitTime = (r.sched.task t).waitTime - 1 :=
        if_pos (by omega)
      have hstays : ¬ Expires (r.sched.task t) := by
        rw [Expires, hdown]
        omega
      obtain ⟨hstate, hwait⟩ := hs.leadIn_tick_asleep ht
      refine ⟨?_, by rw [hwait, hdown, hone, Nat.cast_one]⟩
      rw [hstate, tickedTask, if_neg hstays, ht]
    · have hzero : ticks [call] = 0 := by
        cases call <;> simp_all [ticks]
      rw [SchedCall.leadIn_asleep hcall htick, hzero, Nat.cast_zero, sub_zero]
      exact ⟨ht, rfl⟩
  obtain ⟨r', hstep, hsettled, hstate, hwait⟩ := SchedRun.step_of_asleep hs hmade hlead.1
  exact ⟨r', hstep, hsettled, hstate, hwait.trans hlead.2⟩

/-- Calls that come before the end of the waiting time of a task. -/
theorem SchedRun.run_asleep (calls : List (SchedCall τ))
    (hs : r.IsSettled idle)
    (hcalls : Meets SchedRun.step (fun call r => r.Made call ∧ call.LeavesAsleep t) calls r)
    (ht : (r.sched.task t).state = .sleep) (htime : ticks calls < (r.sched.task t).waitTime) :
    ∃ r', run SchedRun.step calls r = some r' ∧ r'.IsSettled idle ∧
      (r'.sched.task t).state = .sleep ∧
      (r'.sched.task t).waitTime = (r.sched.task t).waitTime - ticks calls := by
  induction calls generalizing r with
  | nil => exact ⟨r, rfl, hs, ht, by simp [ticks]⟩
  | cons call calls ih =>
    obtain ⟨⟨hmade, hcall⟩, hrest⟩ := hcalls
    rw [ticks_cons] at htime ⊢
    push_cast at htime ⊢
    obtain ⟨r₁, hstep, hs₁, ht₁, hwait₁⟩ := SchedRun.step_asleep hs hmade hcall ht (by omega)
    obtain ⟨r', hrun, hs', ht', hwait'⟩ := ih hs₁ (hrest r₁ hstep) ht₁ (by omega)
    exact ⟨r', run_cons_eq_some.mpr ⟨r₁, hstep, hrun⟩, hs', ht', by omega⟩

/-- `suspend_task_timeout` puts a task that is active to sleep. -/
theorem SchedRun.step_suspend (hs : r.IsSettled idle)
    (irq : Bool) {timeout : ℤ} (hpos : 0 < timeout) (hidle : (r.sched.task t).state ≠ .idle)
    (hstop : (r.sched.task t).state ≠ .stop) :
    ∃ r', SchedRun.step (.suspend irq t timeout) r = some r' ∧
      r'.IsSettled idle ∧
      (r'.sched.task t).state = .sleep ∧ (r'.sched.task t).waitTime = timeout := by
  have hlead : (SchedCall.suspend irq t timeout).leadIn r.sched =
      markAsleep r.sched t timeout := by
    rw [SchedCall.leadIn, if_neg (by simp [hidle]; omega)]
  have hasleep : ((markAsleep r.sched t timeout).task t).state = .sleep := by
    unfold markAsleep
    generalize hs₁ : (r.sched.modify t fun task =>
      { task with waitTime := timeout, timeOut := 0 }) = s₁
    have hstate : (s₁.task t).state = (r.sched.task t).state := by
      simp [← hs₁, Scheduler.modify]
    by_cases hchange : changeTable (s₁.task t).state .sleep = .noneToNone
    · rw [setTaskState, if_pos hchange]
      rw [hstate] at hchange ⊢
      cases hold : (r.sched.task t).state <;> simp_all [changeTable]
    · rw [setTaskState_task s₁ t hchange, update_self]
  have hwait := (markAsleep_task r.sched t timeout).1
  rw [← hlead] at hasleep hwait
  have hmade : r.Made (.suspend irq t timeout) := trivial
  obtain ⟨r', hstep, hsettled, hstate, hwait'⟩ := SchedRun.step_of_asleep hs hmade hasleep
  exact ⟨r', hstep, hsettled, hstate, hwait'.trans hwait⟩

/-- One timer interrupt comes to every task on the sleep list once, in the order of the list.
A waiting time that is positive is counted down by one, the tasks whose waiting time is then
zero go to the ends of their priority queues in this order, and the others stay on the sleep
list in their order, also when the interrupt ends with a switch. So a task that goes to sleep
for `n` ticks, and is left asleep by all calls, sleeps for fewer than `n` ticks, and the `n`-th
one makes it ready. -/
theorem tick_wakes_sleepers {r : SchedRun τ} (hs : r.IsSettled idle) :
    (∀ lists, Linked r.sched.links r.sched.count lists → (lists .sleep).Nodup ∧
      tickVisits ((r.sched.count .sleep).toNat + 1) (r.sched.links.next (.head .sleep)) r.sched =
        lists .sleep ∧
      (∃ s' lists', tickLoop ((r.sched.count .sleep).toNat + 1)
        (r.sched.links.next (.head .sleep)) r.sched = some s' ∧
        TickPass r.sched lists s' lists') ∧
      ∃ s' lists', osTickHandler ((r.sched.count .sleep).toNat + 1) r.sched = some s' ∧
        Linked s'.links s'.count lists' ∧
        lists' .sleep = (lists .sleep).filter fun t => ¬ Expires (r.sched.task t)) ∧
    ∀ irq t n, 0 < n → (r.sched.task t).state ≠ .idle → (r.sched.task t).state ≠ .stop →
      ∃ r₁, SchedRun.step (.suspend irq t n) r = some r₁ ∧
        ∀ calls, Meets SchedRun.step (fun call r => r.Made call ∧ call.LeavesAsleep t) calls r₁ →
          ticks calls < n →
          ∃ r', run SchedRun.step calls r₁ = some r' ∧ (r'.sched.task t).state = .sleep ∧
            (r'.sched.task t).waitTime = n - ticks calls ∧
            (ticks calls + 1 = n → ∃ s', tickLoop ((r'.sched.count .sleep).toNat + 1)
              (r'.sched.links.next (.head .sleep)) r'.sched = some s' ∧
              (s'.task t).state = .prepare) := by
  constructor
  · intro lists hlinked
    obtain ⟨hvisits, s', lists', hloop, -, hpass⟩ := hs.inv.tickPass hlinked
    exact ⟨hlinked.nodup trivial, hvisits, ⟨s', lists', hloop, hpass⟩, hs.tick_sleepList hlinked⟩
  · intro irq t n hpos hidle hstop
    obtain ⟨r₁, hstep, hs₁, ht₁, hwait₁⟩ := SchedRun.step_suspend hs irq hpos hidle hstop
    refine ⟨r₁, hstep, fun calls hcalls htime => ?_⟩
    rw [← hwait₁] at htime ⊢
    obtain ⟨r', hrun, hs', ht', hwait'⟩ := SchedRun.run_asleep calls hs₁ hcalls ht₁ htime
    refine ⟨r', hrun, ht', hwait', fun hlast => ?_⟩
    obtain ⟨lists, hlinked, hmem⟩ := hs'.inv.queues
    obtain ⟨-, s', lists', hloop, -, hpass⟩ := hs'.inv.tickPass hlinked
    refine ⟨s', hloop, ?_⟩
    have hon : t ∈ lists .sleep :=
      (hmem .sleep trivial t).mpr ⟨hs'.inv.not_removed (by simp [ht']), ht'⟩
    have hone : (r'.sched.task t).waitTime = 1 := by omega
    have hover : Expires (r'.sched.task t) := by simp [Expires, countedDown, hone]
    rw [hpass.handled t hon, tickedTask, if_pos hover]

/-- Three tasks sleep, for one, two and one ticks. -/
def sleepCalls : List (SchedCall ℕ) :=
  [.activate 1 .prepare, .activate 2 .prepare, .activate 3 .prepare, .sched false,
    .suspend false 1 1, .suspend false 2 2, .suspend false 3 1]

/-- The timer comes to the three tasks in their order. Task 2 is still asleep after one tick, and
the next tick wakes it up. -/
theorem tick_wakes_sleepers_threeTasks :
    ∃ r r', run SchedRun.step sleepCalls (SchedRun.boot 0 fun t => (t : ℤ) + 1) = some r ∧
      tickVisits ((r.sched.count .sleep).toNat + 1) (r.sched.links.next (.head .sleep)) r.sched =
        [1, 2, 3] ∧
      run SchedRun.step [.suspend true 2 2, .tick, .sched false] r = some r' ∧
      (r'.sched.task 2).state = .sleep ∧
      ∃ s', tickLoop ((r'.sched.count .sleep).toNat + 1)
        (r'.sched.links.next (.head .sleep)) r'.sched = some s' ∧ (s'.task 2).state = .prepare := by
  have hmade : Meets SchedRun.step (fun call r => r.Made call) sleepCalls
      (SchedRun.boot 0 fun t => (t : ℤ) + 1) := by
    decide +kernel
  obtain ⟨r, hrun, hs⟩ := exists_run_of_meets (I := SchedRun.IsSettled 0)
    (fun _ _ => SchedRun.step_settled) (boot_settled 0 fun t : ℕ => (t : ℤ) + 1) hmade
  obtain ⟨r₀, hrun₀, hvisits, hstate⟩ :
      ∃ r, run SchedRun.step sleepCalls (SchedRun.boot 0 fun t => (t : ℤ) + 1) = some r ∧
        tickVisits ((r.sched.count .sleep).toNat + 1) (r.sched.links.next (.head .sleep)) r.sched =
          [1, 2, 3] ∧ (r.sched.task 2).state = .sleep := by
    decide +kernel
  obtain rfl := some.inj (hrun.symm.trans hrun₀)
  obtain ⟨-, hwoken⟩ := tick_wakes_sleepers hs
  obtain ⟨r₁, hstep, hlater⟩ := hwoken true 2 2 (by decide) (by simp [hstate]) (by simp [hstate])
  have hcalls : Meets SchedRun.step (fun call r => r.Made call ∧ call.LeavesAsleep 2)
      [.tick, .sched false] r₁ := by
    simp [Meets, SchedRun.Made, SchedCall.LeavesAsleep]
  obtain ⟨r', hrun', hasleep, -, hlast⟩ := hlater [.tick, .sched false] hcalls (by decide)
  exact ⟨r, r', hrun, hvisits, run_cons_eq_some.mpr ⟨r₁, hstep, hrun'⟩, hasleep, hlast (by decide)⟩

end Chunos.Sched
