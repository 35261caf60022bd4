import Chunos.Sched.Moves

/-!
# The task that a switch leaves running

Every call of the scheduler first does something that starts no task, and then either ends
or comes to `find_next_run_task` and `prepare_to_switch`. So only the current task can be in
`PROCESS_STATE_RUNNING`. After the switch the next task is the only running one, unless it is
the current task that has left `PROCESS_STATE_RUNNING` while it was still executing.
-/

namespace Chunos.Sched

open Rings Runs Option

variable {τ : Type*} {s s' : Scheduler τ} {removed : τ → Prop} {idle : τ}

/-- What is expected after `prepare_to_switch`: the next task runs, it is on no priority
queue, and no other task runs. -/
structure Switched (s : Scheduler τ) : Prop where
  running : (s.task s.nextRun).state = .running
  unlinked : ∃ lists, Linked s.links s.count lists ∧
    ∀ i, (Queue.prio i).Valid → s.nextRun ∉ lists (.prio i)
  only : ∀ t, (s.task t).state = .running → t = s.nextRun

/-- The current task still runs, or the first task on the first priority queue that is not
empty is another one. -/
def Leaves (s : Scheduler τ) : Prop :=
  (s.task s.current).state = .running ∨
    ∃ lists i t rest, Linked s.links s.count lists ∧ (Queue.prio i).Valid ∧
      (∀ j, 0 ≤ j → j < i → lists (.prio j) = []) ∧ lists (.prio i) = t :: rest ∧ t ≠ s.current

/-- Only the current task can be running. -/
def OnlyCurrent (s : Scheduler τ) : Prop := ∀ t, (s.task t).state = .running → t = s.current

variable {t : τ} {call : SchedCall τ} {r : SchedRun τ}

/-- `find_next_run_task` chooses the current task, unless another one is the first task on the
first priority queue that is not empty. -/
theorem Settled.next_ne_iff (hs : Settled idle removed s)
    (hfind : findNextRunTask s = some { s with nextRun := t }) :
    (s.task s.current).state = .running ∨ t ≠ s.current ↔ Leaves s := by
  obtain ⟨lists, hlinked, -⟩ := hs.inv.queues
  constructor
  · rintro (hrunning | hne)
    · exact Or.inl hrunning
    · rcases findNextRunTask_linked hlinked with ⟨-, hsame⟩ | ⟨i, u, rest, hi, hfirst, hlist, hu⟩
      · have ht : t = s.nextRun := congrArg Scheduler.nextRun (some.inj (hfind.symm.trans hsame))
        exact absurd (ht.trans hs.current_eq.symm) hne
      · obtain rfl : t = u := congrArg Scheduler.nextRun (some.inj (hfind.symm.trans hu))
        exact Or.inr ⟨lists, i, t, rest, hlinked, hi, hfirst, hlist, hne⟩
  · rintro (hrunning | ⟨lists', i, u, rest, hlinked', hi, hfirst, hlist, hne⟩)
    · exact Or.inl hrunning
    · right
      rcases findNextRunTask_linked hlinked' with ⟨hnil, -⟩ | ⟨k, v, rest', hk, hbefore, hv, hfind'⟩
      · simp [hnil i hi] at hlist
      · obtain rfl : t = v := congrArg Scheduler.nextRun (some.inj (hfind.symm.trans hfind'))
        have hik : i = k := by
          rcases lt_trichotomy i k with hlt | heq | hgt
          · simp [hbefore i hi.1 hlt] at hlist
          · exact heq
          · simp [hfirst k hk.1 hgt] at hv
        subst hik
        rw [hlist] at hv
        rwa [← (List.cons.inj hv).1]

variable [DecidableEq τ]

/-- The scheduler when a call comes to `find_next_run_task`, or at its end when it does not
come there. -/
def SchedCall.leadIn : SchedCall τ → Scheduler τ → Scheduler τ
  | .activate t new, s => setTaskState s t new
  | .sched _, s => s
  | .tick, s =>
    let s := (tickLoop ((s.count .sleep).toNat + 1) (s.links.next (.head .sleep)) s).getD s
    s.modify s.current fun task => { task with runTime := task.runTime - 1 }
  | .suspend _ t timeout, s =>
    if timeout = 0 ∨ (s.task t).state = .idle then s else markAsleep s t timeout
  | .wakeup t, s => (wakeupTask s t).2
  | .stop t, s => setTaskState s t .idle
  | .remove t, s => (schedRemoveTask s t).2

/-- Whether a call comes to `find_next_run_task`, and then whether it does so in an
interrupt. -/
def SchedCall.switches : SchedCall τ → Scheduler τ → Option Bool
  | .sched irq, s =>
    if irq = false ∧ s.scheduleRunning = true then some false else none
  | .tick, s => if ((SchedCall.tick.leadIn s).task s.current).runTime = 0 then some true else none
  | .suspend irq t timeout, s =>
    if timeout ≠ 0 ∧ (s.task t).state ≠ .idle ∧ irq = false ∧ s.scheduleRunning = true
    then some false else none
  | _, _ => none

/-- The timer interrupt up to the switch, and the rest of it. -/
theorem Settled.leadIn_tick (hs : Settled idle removed s) :
    (∃ s₁, Relation.ReflTransGen TickStep s s₁ ∧ SchedCall.tick.leadIn s =
      s₁.modify s.current fun task => { task with runTime := task.runTime - 1 }) ∧
    Keeps removed s (SchedCall.tick.leadIn s) ∧
    osTickHandler ((s.count .sleep).toNat + 1) s =
      if ((SchedCall.tick.leadIn s).task s.current).runTime = 0 then
        (findNextRunTask (SchedCall.tick.leadIn s)).map fun s => (prepareToSwitch true s).2
      else some (SchedCall.tick.leadIn s) := by
  obtain ⟨s₁, hloop, hkeeps, hticks⟩ := hs.inv.tickLoop
  have hlead : SchedCall.tick.leadIn s =
      s₁.modify s.current fun task => { task with runTime := task.runTime - 1 } := by
    simp only [SchedCall.leadIn, hloop, getD_some, hkeeps.current]
  refine ⟨⟨s₁, hticks, hlead⟩, ?_, ?_⟩
  · rw [hlead]
    exact hkeeps.trans (modify_keeps hkeeps.inv s.current (fun _ => rfl) (fun _ => rfl))
  · rw [osTickHandler, hloop, bind_some, hlead, ← hkeeps.current]
    rfl

omit [DecidableEq τ] in
theorem irqExit_of_eq (h : s.current = s.nextRun) : irqExit s = s := by
  cases s
  simpa [irqExit] using h.symm

/-- `sched` outside of an interrupt, with the scheduler running. -/
theorem Settled.sched_eq (hs : Settled idle removed s) (hrunning : s.scheduleRunning = true) :
    ∃ t, findNextRunTask s = some { s with nextRun := t } ∧
      Sched.sched false s = some (irqExit (prepareToSwitch false { s with nextRun := t }).2) := by
  obtain ⟨t, hfind, -, hkeeps, hrerun⟩ := hs.switch false
  refine ⟨t, hfind, ?_⟩
  rw [Sched.sched, if_neg (by simp), if_neg (by simp [hrunning]), hfind, map_some]
  simp only
  split_ifs with hret
  · rw [irqExit_of_eq (hkeeps.current.trans ((hrerun hret).trans hkeeps.nextRun.symm))]
  · rfl

theorem sched_of_not (irq : Bool)
    (h : ¬ (irq = false ∧ s.scheduleRunning = true)) : Sched.sched irq s = some s := by
  unfold Sched.sched
  split_ifs with hint hstop
  · rfl
  · rfl
  · exact absurd ⟨by simpa using hint, by simpa using hstop⟩ h

theorem markAsleep_scheduleRunning (s : Scheduler τ) (t : τ) (timeout : ℤ) :
    (markAsleep s t timeout).scheduleRunning = s.scheduleRunning := by
  unfold markAsleep setTaskState
  simp only
  split_ifs
  · rfl
  · exact (relink_frame _ t _).2.2.2.2

/-- A call that does not come to `find_next_run_task` does what it does before. -/
theorem SchedRun.step_of_leadIn (hs : r.IsSettled idle)
    (hcall : call.switches r.sched = none) :
    ∃ gone, SchedRun.step call r = some { sched := call.leadIn r.sched, removed := gone } := by
  cases call with
  | activate t new => exact ⟨r.removed, rfl⟩
  | wakeup t => exact ⟨r.removed, rfl⟩
  | stop t => exact ⟨r.removed, rfl⟩
  | remove t => exact ⟨_, rfl⟩
  | sched irq =>
    simp only [SchedCall.switches, ite_eq_right_iff, reduceCtorEq, imp_false] at hcall
    exact ⟨r.removed, by rw [SchedRun.step, sched_of_not irq hcall, map_some]; rfl⟩
  | tick =>
    obtain ⟨-, hkeeps, htick⟩ := hs.leadIn_tick
    simp only [SchedCall.switches, ite_eq_right_iff, reduceCtorEq, imp_false] at hcall
    refine ⟨r.removed, ?_⟩
    rw [SchedRun.step, htick, if_neg hcall, map_some, irqExit_of_eq (hs.of_keeps hkeeps).current_eq]
  | suspend irq t timeout =>
    simp only [SchedCall.switches, ite_eq_right_iff, reduceCtorEq, imp_false] at hcall
    refine ⟨r.removed, ?_⟩
    simp only [SchedRun.step, suspendTaskTimeout, SchedCall.leadIn]
    by_cases hzero : timeout = 0
    · simp [hzero]
    · by_cases hidle : (r.sched.task t).state = .idle
      · simp [hzero, hidle]
      · rw [if_neg hzero, if_neg hidle, sched_of_not, if_neg (by simp [hzero, hidle])]
        · rfl
        · rw [markAsleep_scheduleRunning]
          exact fun h => hcall ⟨hzero, hidle, h⟩

/-- A call that comes to `find_next_run_task` completes with the switch. -/
theorem SchedRun.step_of_switches (hs : r.IsSettled idle)
    {irq : Bool} (hcall : call.switches r.sched = some irq) :
    Keeps (fun t => t ∈ r.removed) r.sched (call.leadIn r.sched) ∧
    ∃ t, findNextRunTask (call.leadIn r.sched) = some { call.leadIn r.sched with nextRun := t } ∧
      SchedRun.step call r =
        some { r with
          sched := irqExit (prepareToSwitch irq { call.leadIn r.sched with nextRun := t }).2 } := by
  cases call with
  | activate t new => simp [SchedCall.switches] at hcall
  | wakeup t => simp [SchedCall.switches] at hcall
  | stop t => simp [SchedCall.switches] at hcall
  | remove t => simp [SchedCall.switches] at hcall
  | sched mode =>
    simp only [SchedCall.switches, ite_none_right_eq_some, some.injEq] at hcall
    obtain ⟨⟨rfl, hrunning⟩, rfl⟩ := hcall
    obtain ⟨t, hfind, hsched⟩ := hs.sched_eq hrunning
    exact ⟨hs.inv.keeps, t, hfind, by rw [SchedRun.step, hsched, map_some]; rfl⟩
  | tick =>
    obtain ⟨-, hkeeps, htick⟩ := hs.leadIn_tick
    simp only [SchedCall.switches, ite_none_right_eq_some, some.injEq] at hcall
    obtain ⟨hzero, rfl⟩ := hcall
    obtain ⟨t, hfind, -⟩ := (hs.of_keeps hkeeps).switch true
    refine ⟨hkeeps, t, hfind, ?_⟩
    rw [SchedRun.step, htick, if_pos hzero, hfind, map_some, map_some]
  | suspend mode t timeout =>
    simp only [SchedCall.switches, ite_none_right_eq_some, some.injEq] at hcall
    obtain ⟨⟨hzero, hidle, rfl, hrunning⟩, rfl⟩ := hcall
    have hlead : (SchedCall.suspend false t timeout).leadIn r.sched =
        markAsleep r.sched t timeout := by
      rw [SchedCall.leadIn, if_neg (by simp [hzero, hidle])]
    have hkeeps := markAsleep_keeps hs.inv (hs.inv.not_removed hidle) timeout
    obtain ⟨u, hfind, hsched⟩ := (hs.of_keeps hkeeps).sched_eq
      (by rw [markAsleep_scheduleRunning, hrunning])
    rw [hlead]
    refine ⟨hkeeps, u, hfind, ?_⟩
    rw [SchedRun.step, suspendTaskTimeout, if_neg hzero, if_neg hidle, hsched]
    rfl

/-- No task has started to run. -/
def NoStart (s s' : Scheduler τ) : Prop :=
  ∀ t, (s'.task t).state = .running → (s.task t).state = .running

omit [DecidableEq τ] in
theorem NoStart.trans {s'' : Scheduler τ} (h : NoStart s s') (h' : NoStart s' s'') : NoStart s s'' :=
  fun t ht => h t (h' t ht)

theorem modify_noStart (s : Scheduler τ) (t : τ) {f : Task → Task}
    (hstate : ∀ task, (f task).state = task.state) : NoStart s (s.modify t f) := by
  intro u hu
  by_cases hut : u = t
  · subst hut
    simpa [Scheduler.modify, hstate] using hu
  · simpa [Scheduler.modify, hut] using hu

theorem setTaskState_noStart (s : Scheduler τ) (t : τ) {new : State} (hnew : new ≠ .running) :
    NoStart s (setTaskState s t new) :=
  fun _ hu => state_of_setTaskState hnew.symm hu

theorem setTaskState_current (s : Scheduler τ) (t : τ) (new : State) :
    (setTaskState s t new).current = s.current := by
  unfold setTaskState
  simp only
  split_ifs
  · rfl
  · exact (relink_frame _ t _).2.2.1

theorem NoStart.of_ticks (h : Relation.ReflTransGen TickStep s s') : NoStart s s' := by
  induction h with
  | refl => exact fun _ ht => ht
  | @tail s₁ _ _ hstep ih =>
    obtain ⟨t, -, rfl⟩ := hstep
    refine ih.trans ?_
    have hdown := modify_noStart s₁ t
      (f := fun task => { task with waitTime := countedDown task.waitTime }) (fun _ => rfl)
    rw [tickTask_eq]
    split_ifs
    · exact hdown.trans (setTaskState_noStart _ t (by simp))
    · exact hdown

/-- Before the switch a call starts no task, and does not change the current task. -/
theorem SchedRun.leadIn_noStart (hs : r.IsSettled idle)
    (hmade : r.Made call) :
    NoStart r.sched (call.leadIn r.sched) ∧ (call.leadIn r.sched).current = r.sched.current := by
  cases call with
  | activate t new =>
    have hnew : new ≠ .running := by
      rintro rfl
      simp [SchedRun.Made] at hmade
    exact ⟨setTaskState_noStart _ t hnew, setTaskState_current _ t new⟩
  | sched irq => exact ⟨fun _ ht => ht, rfl⟩
  | tick =>
    obtain ⟨⟨s₁, hticks, hlead⟩, hkeeps, -⟩ := hs.leadIn_tick
    refine ⟨?_, hkeeps.current⟩
    rw [hlead]
    exact (NoStart.of_ticks hticks).trans (modify_noStart s₁ _ fun _ => rfl)
  | suspend irq t timeout =>
    simp only [SchedCall.leadIn]
    split_ifs
    · exact ⟨fun _ ht => ht, rfl⟩
    · have hmodify := modify_noStart r.sched t
        (f := fun task => { task with waitTime := timeout, timeOut := 0 }) (fun _ => rfl)
      exact ⟨hmodify.trans (setTaskState_noStart _ t (by simp)), setTaskState_current _ t .sleep⟩
  | wakeup t =>
    simp only [SchedCall.leadIn, wakeupTask]
    split_ifs
    · exact ⟨fun _ ht => ht, rfl⟩
    · have hslice : NoStart r.sched (getTaskRunTime r.sched t) := modify_noStart _ t fun _ => rfl
      exact ⟨hslice.trans (setTaskState_noStart _ t (by simp)), setTaskState_current _ t .prepare⟩
  | stop t => exact ⟨setTaskState_noStart _ t (by simp), setTaskState_current _ t .idle⟩
  | remove t =>
    simp only [SchedCall.leadIn, schedRemoveTask]
    split_ifs
    · exact ⟨fun _ ht => ht, rfl⟩
    · exact ⟨fun _ ht => ht, rfl⟩
    · exact ⟨fun _ ht => ht, rfl⟩

theorem putBack_state (irq : Bool) (hstate : (s.task s.current).state = .running) :
    ((putBack irq s).task s.current).state = .prepare := by
  have hset : ∀ s₁ : Scheduler τ, (s₁.task s.current).state = .running →
      ((setTaskState s₁ s.current .prepare).task s.current).state = .prepare := by
    intro s₁ hs₁
    rw [setTaskState_task s₁ s.current (by simp [hs₁, changeTable]), Function.update_self]
  unfold putBack
  simp only
  split_ifs
  · exact hset _ (by simpa [getTaskRunTime, Scheduler.modify, decPrio] using hstate)
  · exact hset s hstate

omit [DecidableEq τ] in
theorem Inv.unlinked (hinv : Inv s removed) (ht : (s.task t).state = .running) :
    ∃ lists, Linked s.links s.count lists ∧ ∀ i, (Queue.prio i).Valid → t ∉ lists (.prio i) := by
  obtain ⟨lists, hlinked, hmem⟩ := hinv.queues
  refine ⟨lists, hlinked, fun i hi hin => ?_⟩
  obtain ⟨-, hready, -⟩ := (hmem _ hi t).mp hin
  simp [ht] at hready

/-- `prepare_to_switch` for another task, which is ready. -/
theorem prepareToSwitch_switched (irq : Bool) (hinv : Inv s removed) (honly : OnlyCurrent s)
    (hne : s.nextRun ≠ s.current) (hready : (s.task s.nextRun).state = .prepare) :
    Switched (prepareToSwitch irq s).2 := by
  have hkeeps := (prepareToSwitch_keeps irq hinv
    (Or.inr (hinv.not_removed (by simp [hready])))).1
  -- What is left when the current task has been put back.
  obtain ⟨s₁, hswitch, hready₁, hrest⟩ : ∃ s₁, (prepareToSwitch irq s).2 = switchIn s₁ s.nextRun ∧
      (s₁.task s.nextRun).state = .prepare ∧ ∀ t, (s₁.task t).state ≠ .running := by
    rw [prepareToSwitch, if_neg hne.symm]
    by_cases hrunning : (s.task s.current).state = .running
    · refine ⟨putBack irq s, ?_, ?_, ?_⟩
      · simp only [hrunning, if_true]
        rw [(putBack_keeps irq hinv hrunning).nextRun]
      · rw [putBack_task_of_ne irq hne]
        exact hready
      · intro t ht
        by_cases htc : t = s.current
        · subst htc
          rw [putBack_state irq hrunning] at ht
          simp at ht
        · rw [putBack_task_of_ne irq htc] at ht
          exact htc (honly t ht)
    · refine ⟨s, by simp only [hrunning, if_false], hready, ?_⟩
      intro t ht
      rw [honly t ht] at ht
      exact hrunning ht
  have hrunning : ((prepareToSwitch irq s).2.task s.nextRun).state = .running := by
    rw [hswitch, switchIn_task hready₁, Function.update_self]
  constructor
  · rw [hkeeps.nextRun]
    exact hrunning
  · rw [hkeeps.nextRun]
    exact hkeeps.inv.unlinked hrunning
  · intro t ht
    rw [hkeeps.nextRun]
    by_contra htn
    rw [hswitch, switchIn_task hready₁, Function.update_of_ne htn] at ht
    exact hrest t ht

/-- `prepare_to_switch` for the current task changes no state and no list. -/
theorem prepareToSwitch_rerun (irq : Bool) (hsame : s.nextRun = s.current) :
    (∀ t, ((prepareToSwitch irq s).2.task t).state = (s.task t).state) ∧
      (prepareToSwitch irq s).2.links = s.links ∧
      (prepareToSwitch irq s).2.count = s.count ∧
      (prepareToSwitch irq s).2.nextRun = s.current := by
  rw [prepareToSwitch, if_pos hsame.symm]
  refine ⟨fun t => ?_, rfl, rfl, hsame⟩
  by_cases ht : t = s.nextRun
  · subst ht
    simp [getTaskRunTime, Scheduler.modify]
  · simp [getTaskRunTime, Scheduler.modify, ht]

/-- After `find_next_run_task` and `prepare_to_switch` only the next task can be running. It
runs, and is on no priority queue, iff the current task still ran or another task is
chosen. -/
theorem Settled.switched_iff (hs : Settled idle removed s) (honly : OnlyCurrent s)
    (irq : Bool) (hfind : findNextRunTask s = some { s with nextRun := t })
    (ht : t = s.current ∨ (s.task t).state = .prepare) :
    OnlyCurrent (irqExit (prepareToSwitch irq { s with nextRun := t }).2) ∧
      (Switched (prepareToSwitch irq { s with nextRun := t }).2 ↔ Leaves s) := by
  rw [← hs.next_ne_iff hfind]
  have hinv := hs.inv.setCurrent s.current t
  by_cases hsame : t = s.current
  · obtain ⟨hstate, hlinks, hcount, hnext⟩ :=
      prepareToSwitch_rerun irq (s := { s with nextRun := t }) hsame
    have honly' : ∀ u, ((prepareToSwitch irq { s with nextRun := t }).2.task u).state = .running →
        u = (prepareToSwitch irq { s with nextRun := t }).2.nextRun := by
      intro u hu
      rw [hnext]
      exact honly u (hstate u ▸ hu)
    refine ⟨honly', fun h => Or.inl ?_, fun h => ?_⟩
    · have hrunning := h.running
      rwa [hnext, hstate] at hrunning
    · have hrunning := h.resolve_right (not_not.mpr hsame)
      constructor
      · rw [hnext, hstate]
        exact hrunning
      · rw [hnext, hlinks, hcount]
        exact hinv.unlinked hrunning
      · exact honly'
  · have hswitched := prepareToSwitch_switched irq hinv honly hsame (ht.resolve_left hsame)
    exact ⟨hswitched.only, fun _ => Or.inr hsame, fun _ => hswitched⟩

/-- What every call keeps: the scheduler is settled, and only the current task can be
running. -/
def SchedRun.Single (idle : τ) (r : SchedRun τ) : Prop :=
  r.IsSettled idle ∧ OnlyCurrent r.sched

theorem SchedRun.Single.leadIn (h : r.Single idle) (hmade : r.Made call) :
    OnlyCurrent (call.leadIn r.sched) := by
  obtain ⟨hno, hcurrent⟩ := SchedRun.leadIn_noStart h.1 hmade
  intro t ht
  rw [hcurrent]
  exact h.2 t (hno t ht)

theorem SchedRun.Single.switch (h : r.Single idle) (hmade : r.Made call) {irq : Bool}
    (hcall : call.switches r.sched = some irq) :
    ∃ s, findNextRunTask (call.leadIn r.sched) = some s ∧
      SchedRun.step call r = some { r with sched := irqExit (prepareToSwitch irq s).2 } ∧
      OnlyCurrent (irqExit (prepareToSwitch irq s).2) ∧
      (Switched (prepareToSwitch irq s).2 ↔ Leaves (call.leadIn r.sched)) := by
  obtain ⟨hkeeps, t, hfind, hstep⟩ := SchedRun.step_of_switches h.1 hcall
  have hlead := h.1.of_keeps hkeeps
  obtain ⟨u, hfind', hu, -⟩ := hlead.switch irq
  obtain rfl : u = t := congrArg Scheduler.nextRun (some.inj (hfind'.symm.trans hfind))
  exact ⟨_, hfind, hstep, hlead.switched_iff (h.leadIn hmade) irq hfind hu⟩

theorem SchedRun.Single.step (h : r.Single idle) (hmade : r.Made call) :
    ∃ r', SchedRun.step call r = some r' ∧ r'.Single idle := by
  obtain ⟨r', hstep, hsettled⟩ := SchedRun.step_settled h.1 hmade
  refine ⟨r', hstep, hsettled, ?_⟩
  cases hcall : call.switches r.sched with
  | none =>
    obtain ⟨gone, hstep'⟩ := SchedRun.step_of_leadIn h.1 hcall
    obtain rfl := some.inj (hstep.symm.trans hstep')
    exact h.leadIn hmade
  | some irq =>
    obtain ⟨s, -, hstep', honly, -⟩ := h.switch hmade hcall
    obtain rfl := some.inj (hstep.symm.trans hstep')
    exact honly

theorem SchedRun.boot_single (idle : τ) (pid : τ → ℤ) : (SchedRun.boot idle pid).Single idle := by
  refine ⟨boot_settled idle pid, fun t ht => ?_⟩
  by_contra hne
  have hidle : t ≠ idle := hne
  simp [SchedRun.boot, bootSched, initSchedStruct, hidle] at ht

/-- In every run each call completes. When the next call comes to `find_next_run_task` and
`prepare_to_switch`, these complete, and after them the next task is running, on no
priority queue and the only running task iff, before them, the current task still ran or
the first ready task was another one. -/
theorem prepareToSwitch_switched_iff (idle : τ) (pid : τ → ℤ) (calls : List (SchedCall τ))
    (hmade : Meets SchedRun.step (fun call r => r.Made call) calls (SchedRun.boot idle pid)) :
    ∃ r, run SchedRun.step calls (SchedRun.boot idle pid) = some r ∧
      ∀ call irq, r.Made call → call.switches r.sched = some irq →
        ∃ s, findNextRunTask (call.leadIn r.sched) = some s ∧
          SchedRun.step call r = some { r with sched := irqExit (prepareToSwitch irq s).2 } ∧
          (Switched (prepareToSwitch irq s).2 ↔ Leaves (call.leadIn r.sched)) := by
  obtain ⟨r, hrun, hsingle⟩ := exists_run_of_meets (I := fun r : SchedRun τ => r.Single idle)
    (fun _ _ h hmade => h.step hmade) (SchedRun.boot_single idle pid) hmade
  refine ⟨r, hrun, fun call irq hcall hswitches => ?_⟩
  obtain ⟨s, hfind, hstep, -, hiff⟩ := hsingle.switch hcall hswitches
  exact ⟨s, hfind, hstep, hiff⟩

/-- A task runs next to the idle task, and calls `do_exec`, which makes it ready while it is
the current task. -/
def execCalls : List (SchedCall ℕ) := [.activate 1 .prepare, .sched false, .activate 1 .prepare]

/-- The calls are made, and the next call of `sched` comes to `find_next_run_task`. -/
theorem prepareToSwitch_switched_iff_exec :
    Meets SchedRun.step (fun call r => r.Made call) execCalls (SchedRun.boot 0 fun t => (t : ℤ)) ∧
    ∃ r, run SchedRun.step execCalls (SchedRun.boot 0 fun t => (t : ℤ)) = some r ∧
      (SchedCall.sched false).switches r.sched = some false ∧
      ∃ s, findNextRunTask r.sched = some s ∧
        (Switched (prepareToSwitch false s).2 ↔ Leaves r.sched) := by
  have hmade : Meets SchedRun.step (fun call r => r.Made call) execCalls
      (SchedRun.boot 0 fun t => (t : ℤ)) := by
    decide +kernel
  obtain ⟨r, hrun, hall⟩ := prepareToSwitch_switched_iff 0 (fun t : ℕ => (t : ℤ)) execCalls hmade
  refine ⟨hmade, exists_some_imp
    (P := fun r => (SchedCall.sched false).switches r.sched = some false) (by decide +kernel)
    fun r' hrun' hswitches => ⟨hswitches, ?_⟩⟩
  obtain rfl := some.inj (hrun.symm.trans hrun')
  obtain ⟨s, hfind, -, hiff⟩ := hall (.sched false) false trivial hswitches
  exact ⟨s, hfind, hiff⟩

/-- After `do_exec` the task is its own successor: `prepare_to_switch` leaves it in
`PROCESS_STATE_PREPARE` and on its priority queue, although it goes on to run. -/
theorem execCalls_not_switched :
    ∃ r s, run SchedRun.step execCalls (SchedRun.boot 0 fun t => (t : ℤ)) = some r ∧
      findNextRunTask r.sched = some s ∧
      SchedRun.step (.sched false) r = some { r with sched := (prepareToSwitch false s).2 } ∧
      (prepareToSwitch false s).2.nextRun = 1 ∧
      ((prepareToSwitch false s).2.task 1).state = .prepare ∧
      (prepareToSwitch false s).2.links.next (.head (.prio 20)) = .prioRunning 1 ∧
      ¬ Switched (prepareToSwitch false s).2 := by
  obtain ⟨r, hrun, s, hfind, hret, hrunning, hnext, hstate, hfirst⟩ :
      ∃ r, run SchedRun.step execCalls (SchedRun.boot 0 fun t => (t : ℤ)) = some r ∧
        ∃ s, findNextRunTask r.sched = some s ∧ (prepareToSwitch false s).1 ≠ 0 ∧
          r.sched.scheduleRunning = true ∧ (prepareToSwitch false s).2.nextRun = 1 ∧
          ((prepareToSwitch false s).2.task 1).state = .prepare ∧
          (prepareToSwitch false s).2.links.next (.head (.prio 20)) = .prioRunning 1 := by
    decide +kernel
  refine ⟨r, s, hrun, hfind, ?_, hnext, hstate, hfirst, ?_⟩
  · simp [SchedRun.step, Sched.sched, hrunning, hfind, hret]
  · intro h
    have hrun := h.running
    rw [hnext, hstate] at hrun
    simp at hrun

end Chunos.Sched
