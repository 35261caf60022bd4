import Chunos.Mutex.Kill
import Chunos.Sched.Moves

/-!
# Killing a task that must not be killed

`kill_task` first puts the task into `PROCESS_STATE_IDLE`, so that it does not run while it is
taken apart, and only then asks `sched_remove_task`, which refuses the tasks with the process
numbers 0 and 1. A task that has been refused stays in this state. No change of state leads out
of it, so the task never runs again.

A task that is removed leaves its children to its parent. The loop over them puts the node that it
stands on into the list of the parent, and so goes on in that list, where it finds no end.
-/

namespace Chunos.Kill

open Rings Runs Sched Mutex Function List Option

/-- The list nodes of the family of a task: `p`, which is on the list of its parent, and the head
`child` of the list of its own children. -/
inductive FamilyNode (τ : Type*) where
  | p (t : τ)
  | child (t : τ)
deriving DecidableEq

/-- What `kill_task` changes: the scheduler, the mutexes, and the parents and children. -/
structure Tasks (τ μ : Type*) where
  sched : Scheduler τ
  mutexes : Mutexes τ μ
  family : Links (FamilyNode τ)
  parent : τ → τ

variable {τ μ : Type*} [DecidableEq τ] [DecidableEq μ]

/-- The loop of `kill_task` over the children of a task, from node `list` on, which gives them to
the parent of the task. It is `none` without fuel, and when it comes to the head of another
list, which is no task. -/
def reparentLoop (t : τ) : ℕ → FamilyNode τ → Tasks τ μ → Option (Tasks τ μ)
  | 0, _, _ => none
  | fuel + 1, list, k =>
    if list = .child t then some k
    else
      match list with
      | .p child =>
        let k := { k with parent := update k.parent child (k.parent t) }
        let k := { k with family := listAddTail k.family (.child (k.parent t)) list }
        reparentLoop t fuel (k.family.next list) k
      | .child _ => none

/-- `kill_task`: the returned value and the tasks. The files and the memory of the task are
released at the end. -/
def killTask (fuel : ℕ) (k : Tasks τ μ) (task : Option τ) : Option (ℤ × Tasks τ μ) :=
  match task with
  | none => some (-einval, k)
  | some t =>
    let k := { k with sched := setTaskState k.sched t .idle }
    let (ret, s) := schedRemoveTask k.sched t
    let k := { k with sched := s }
    if ret ≠ 0 then some (ret, k)
    else
      let k := { k with family := listDel k.family (.p t) }
      (reparentLoop t fuel (k.family.next (.child t)) k).bind fun k =>
        (Mutex.killTask fuel k.mutexes k.sched t).map fun (mutexes, s) =>
          (0, { k with mutexes := mutexes, sched := s })

/-- `task_kill_self`, with the task that `pid_get_task(0)` finds. -/
def taskKillSelf (k : Tasks τ μ) (systemKiller : Option τ) (t : τ) : Option (ℤ × Tasks τ μ) :=
  match systemKiller with
  | none => some (-einval, k)
  | some killer =>
    let s := setTaskState k.sched t .idle
    let s := (wakeupTask s killer).2
    (Sched.sched false s).map fun s => (0, { k with sched := s })

/-- `do_default_signal_handler`, for `SIGABRT`, `SIGKILL`, `SIGQUIT` and `SIGSTOP`. It does not
look at what the functions return. -/
def doDefaultSignalHandler (fuel : ℕ) (k : Tasks τ μ) (systemKiller : Option τ) (t : τ) (sig : ℤ) :
    Option (ℤ × Tasks τ μ) :=
  if sig = 6 ∨ sig = 9 ∨ sig = 3 ∨ sig = 19 then
    if k.sched.current = t then (taskKillSelf k systemKiller t).map fun res => (0, res.2)
    else (killTask fuel k (some t)).map fun res => (0, res.2)
  else some (0, k)

/-- What is expected of a call that has been refused: the state of the task, the lists, and the
other tasks are as before. -/
structure Untouched (k k' : Tasks τ μ) (t : τ) : Prop where
  state : (k'.sched.task t).state = (k.sched.task t).state
  lists : ∀ lists, Linked k.sched.links k.sched.count lists →
    ∃ lists', Linked k'.sched.links k'.sched.count lists' ∧
      ∀ q, q.Valid → ∀ u, u ∈ lists' q ↔ u ∈ lists q
  others : ∀ u, u ≠ t → k'.sched.task u = k.sched.task u
  mutexes : k'.mutexes = k.mutexes
  family : k'.family = k.family ∧ k'.parent = k.parent

/-- The states from which a task can be stopped. -/
def Active (state : State) : Prop := state = .prepare ∨ state = .running ∨ state = .sleep

instance : DecidablePred Active := fun _ => inferInstanceAs (Decidable (_ ∨ _ ∨ _))

/-- The tasks that `sched_remove_task` never removes. -/
def Protected (task : Task) : Prop := task.pid = 0 ∨ task.pid = 1

instance : DecidablePred Protected := fun _ => inferInstanceAs (Decidable (_ ∨ _))

omit [DecidableEq τ] [DecidableEq μ] in
theorem Untouched.refl (k : Tasks τ μ) (t : τ) : Untouched k k t :=
  ⟨rfl, fun lists h => ⟨lists, h, fun _ _ _ => Iff.rfl⟩, fun _ _ => rfl, rfl, rfl, rfl⟩

variable {s : Scheduler τ} {t : τ}

theorem setTaskState_idle_of_not_active (hstate : ¬ Active (s.task t).state) :
    setTaskState s t .idle = s := by
  have hchange : changeTable (s.task t).state .idle = .noneToNone := by
    cases hold : (s.task t).state <;> simp_all [Active, changeTable]
  rw [setTaskState, if_pos hchange]

theorem setTaskState_idle_of_active (hstate : Active (s.task t).state) :
    ((setTaskState s t .idle).task t).state = .idle := by
  have hchange : changeTable (s.task t).state .idle ≠ .noneToNone := by
    rcases hstate with hstate | hstate | hstate <;> simp [hstate, changeTable]
  rw [setTaskState_task s t hchange, update_self]

theorem setTaskState_pid (s : Scheduler τ) (t : τ) (new : State) :
    ((setTaskState s t new).task t).pid = (s.task t).pid := by
  rw [setTaskState_task_self]

/-- `sched_remove_task` refuses a task that is not stopped, and a protected one. -/
theorem schedRemoveTask_refused (h : (s.task t).state ≠ .idle ∨ Protected (s.task t)) :
    schedRemoveTask s t = (-einval, s) := by
  unfold schedRemoveTask
  by_cases hstate : (s.task t).state ≠ .idle
  · rw [if_pos hstate]
  · rw [if_neg hstate, if_pos (Or.symm (h.resolve_left hstate))]

theorem schedRemoveTask_removed (hstate : (s.task t).state = .idle) (hpid : ¬ Protected (s.task t)) :
    (schedRemoveTask s t).1 = 0 := by
  unfold schedRemoveTask
  rw [if_neg (by simp [hstate]), if_neg fun h => hpid (Or.symm h)]

/-- A task that cannot be removed is left with the state that has been set. -/
theorem killTask_refused (fuel : ℕ) (k : Tasks τ μ)
    (h : ((setTaskState k.sched t .idle).task t).state ≠ .idle ∨ Protected (k.sched.task t)) :
    killTask fuel k (some t) =
      some (-einval, { k with sched := setTaskState k.sched t .idle }) := by
  have hpid : Protected ((setTaskState k.sched t .idle).task t) ↔ Protected (k.sched.task t) := by
    simp only [Protected, setTaskState_pid]
  have hret := schedRemoveTask_refused (h.imp_right hpid.mpr)
  simp only [killTask, hret]
  rw [if_pos (by simp [einval])]

theorem killTask_removed {fuel : ℕ} {k k' : Tasks τ μ} {ret : ℤ}
    (hstate : ((setTaskState k.sched t .idle).task t).state = .idle)
    (hpid : ¬ Protected (k.sched.task t)) (hkill : killTask fuel k (some t) = some (ret, k')) :
    ret = 0 := by
  have hpid' : ¬ Protected ((setTaskState k.sched t .idle).task t) := by
    simpa only [Protected, setTaskState_pid] using hpid
  have hret := schedRemoveTask_removed hstate hpid'
  simp only [killTask, hret, ne_eq, not_true_eq_false, if_false, bind_eq_some_iff,
    map_eq_some_iff, Prod.mk.injEq] at hkill
  obtain ⟨_, -, _, -, hzero, -⟩ := hkill
  exact hzero.symm

/-- In every state and for every task: when `kill_task` returns an error, everything is as before,
if and only if the task is not both active and protected. -/
theorem killTask_refused_iff (k : Tasks τ μ) (t : τ) :
    (∀ fuel ret k', killTask fuel k (some t) = some (ret, k') → ret < 0 → Untouched k k' t) ↔
      ¬ (Protected (k.sched.task t) ∧ Active (k.sched.task t).state) := by
  constructor
  · rintro hall ⟨hpid, hactive⟩
    have hsame := (hall 0 _ _ (killTask_refused 0 k (Or.inr hpid)) (by simp [einval])).state
    simp only [setTaskState_idle_of_active hactive] at hsame
    rw [← hsame] at hactive
    simp [Active] at hactive
  · intro hsafe fuel ret k' hkill hret
    by_cases hactive : Active (k.sched.task t).state
    · have hpid : ¬ Protected (k.sched.task t) := fun hpid => hsafe ⟨hpid, hactive⟩
      have hzero := killTask_removed (setTaskState_idle_of_active hactive) hpid hkill
      omega
    · have hsame := setTaskState_idle_of_not_active hactive
      by_cases hrefused : (k.sched.task t).state ≠ .idle ∨ Protected (k.sched.task t)
      · rw [killTask_refused fuel k (by rwa [hsame]), hsame] at hkill
        obtain ⟨-, rfl⟩ := Prod.mk.inj (some.inj hkill)
        exact Untouched.refl k t
      · obtain ⟨hidle, hpid⟩ := not_or.mp hrefused
        have hzero := killTask_removed (by rwa [hsame, ← not_ne_iff]) hpid hkill
        omega

theorem setTaskState_stopped (ht : (s.task t).state = .idle) (u : τ) (new : State) :
    ((setTaskState s u new).task t).state = .idle := by
  by_cases hut : t = u
  · subst hut
    have hchange : changeTable (s.task t).state new = .noneToNone := by
      rw [ht]
      rfl
    rwa [setTaskState, if_pos hchange]
  · rwa [setTaskState_task_of_ne s hut]

omit [DecidableEq τ] in
theorem moves_stopped {s' : Scheduler τ} (h : Moves s s') (ht : (s.task t).state = .idle) :
    (s'.task t).state = .idle := by
  refine h.keep (P := fun task => task.state = .idle) ?_ ht
  intro a b hmove ha
  cases hmove <;> simp_all

/-- A call leaves a stopped task stopped. -/
theorem step_stopped {idle : τ} {r r' : SchedRun τ}
    (hs : r.IsSettled idle) {call : SchedCall τ}
    (ht : (r.sched.task t).state = .idle) (hstep : SchedRun.step call r = some r') :
    (r'.sched.task t).state = .idle := by
  cases call with
  | activate u new =>
    obtain rfl := some.inj hstep
    exact setTaskState_stopped ht u new
  | sched irq =>
    obtain ⟨s', hsched, rfl⟩ := map_eq_some_iff.mp hstep
    exact moves_stopped (hs.sched_moves irq hsched) ht
  | tick =>
    obtain ⟨s', htick, rfl⟩ := map_eq_some_iff.mp hstep
    exact moves_stopped (hs.tick_moves htick) ht
  | suspend irq u timeout =>
    obtain ⟨res, hres, rfl⟩ := map_eq_some_iff.mp hstep
    unfold suspendTaskTimeout at hres
    split_ifs at hres with hzero hidle
    · rwa [← some.inj hres]
    · rwa [← some.inj hres]
    · obtain ⟨s', hsched, rfl⟩ := map_eq_some_iff.mp hres
      have htu : t ≠ u := by
        rintro rfl
        exact hidle ht
      have hasleep := hs.of_keeps (markAsleep_keeps hs.inv (hs.inv.not_removed hidle) timeout)
      refine moves_stopped (hasleep.sched_moves irq hsched) ?_
      rwa [(markAsleep_task r.sched u timeout).2.2 t htu]
  | wakeup u =>
    obtain rfl := some.inj hstep
    simp only [wakeupTask]
    split_ifs with hsleep
    · exact ht
    · refine setTaskState_stopped ?_ u .prepare
      by_cases htu : t = u
      · subst htu
        simpa [getTaskRunTime, Scheduler.modify] using ht
      · simpa [getTaskRunTime, Scheduler.modify, htu] using ht
  | stop u =>
    obtain rfl := some.inj hstep
    exact setTaskState_stopped ht u .idle
  | remove u =>
    have hframe : (schedRemoveTask r.sched u).2.task = r.sched.task := by
      unfold schedRemoveTask
      split_ifs <;> rfl
    have hsched : r'.sched = (schedRemoveTask r.sched u).2 :=
      congrArg SchedRun.sched (some.inj hstep).symm
    rwa [hsched, hframe]

/-- A task that has been stopped never runs again, whatever is called. -/
theorem run_stopped {idle : τ} (calls : List (SchedCall τ)) {r r' : SchedRun τ}
    (hs : r.IsSettled idle) (ht : (r.sched.task t).state = .idle)
    (hmade : Meets SchedRun.step (fun call r => r.Made call) calls r)
    (hrun : run SchedRun.step calls r = some r') : (r'.sched.task t).state = .idle := by
  have hkeep : ∀ call (r r₁ : SchedRun τ),
      r.IsSettled idle ∧ (r.sched.task t).state = .idle →
      r.Made call → SchedRun.step call r = some r₁ →
      r₁.IsSettled idle ∧ (r₁.sched.task t).state = .idle := by
    rintro call r r₁ ⟨hs, ht⟩ hcall hstep
    obtain ⟨r₂, hstep', hs'⟩ := SchedRun.step_settled hs hcall
    obtain rfl := some.inj (hstep.symm.trans hstep')
    exact ⟨hs', step_stopped hs ht hstep⟩
  exact (invariant_of_meets hkeep ⟨hs, ht⟩ hmade hrun).2

/-- A task runs, and the task with the process number 1 is ready. -/
def readyCalls : List (SchedCall ℕ) := [.activate 2 .prepare, .sched false, .activate 1 .prepare]

/-- The running task sends `SIGKILL` to the ready one. This returns 0, although `kill_task` has
returned an error, and the task never runs again. -/
theorem readyCalls_killTask :
    ∃ r, run SchedRun.step readyCalls (SchedRun.boot 0 fun t => (t : ℤ)) = some r ∧
      r.sched.current = 2 ∧ (r.sched.task 1).pid = 1 ∧ (r.sched.task 1).state = .prepare ∧
      ∀ (fuel : ℕ) (mutexes : Mutexes ℕ Unit) (family : Links (FamilyNode ℕ)) (parent : ℕ → ℕ)
        (systemKiller : Option ℕ),
        ∃ k', killTask fuel ⟨r.sched, mutexes, family, parent⟩ (some 1) = some (-einval, k') ∧
          doDefaultSignalHandler fuel ⟨r.sched, mutexes, family, parent⟩ systemKiller 1 9 =
            some (0, k') ∧
          ¬ Untouched ⟨r.sched, mutexes, family, parent⟩ k' 1 ∧
          ∀ calls r', Meets SchedRun.step (fun call r => r.Made call) calls
              { r with sched := k'.sched } →
            run SchedRun.step calls { r with sched := k'.sched } = some r' →
            (r'.sched.task 1).state = .idle := by
  obtain ⟨r, hrun, hs⟩ := exists_run_of_meets (I := SchedRun.IsSettled 0)
    (fun _ _ => SchedRun.step_settled) (boot_settled 0 fun t : ℕ => (t : ℤ))
    (show Meets SchedRun.step (fun call r => r.Made call) readyCalls _ by decide +kernel)
  refine exists_some_imp (P := fun r => r.sched.current = 2 ∧ (r.sched.task 1).pid = 1 ∧
    (r.sched.task 1).state = .prepare) (by decide +kernel) fun r' hrun' ⟨hcurrent, hpid, hstate⟩ =>
      ⟨hcurrent, hpid, hstate, fun fuel mutexes family parent systemKiller => ?_⟩
  obtain rfl := some.inj (hrun.symm.trans hrun')
  have hstopped := setTaskState_idle_of_active (Or.inl hstate)
  have hkill := killTask_refused fuel (⟨r.sched, mutexes, family, parent⟩ : Tasks ℕ Unit)
    (t := 1) (Or.inr (Or.inr hpid))
  refine ⟨_, hkill, ?_, fun hsame => ?_, fun calls r' hmade' hrun' => ?_⟩
  · rw [doDefaultSignalHandler, if_pos (by decide), if_neg (by simp [hcurrent]), hkill]
    rfl
  · have hidle := hsame.state
    simp [hstopped, hstate] at hidle
  · exact run_stopped calls (hs.setTaskState 1 (by simp)) hstopped hmade' hrun'

/-- The list of children of every task is linked at its head, and a task is on the list of its
parent, which is another task. -/
structure FamilyOf (k : Tasks τ μ) (children : τ → List τ) : Prop where
  rings : Family k.family (fun _ => True) FamilyNode.child fun u => (children u).map .p
  parent : ∀ u, ∀ c ∈ children u, k.parent c = u ∧ c ≠ u

/-- What the loop of `kill_task` is for: the children of the task have its parent as their parent
and are on its list, behind the other children. Nothing else has changed. -/
structure Reparented (children : τ → List τ) (k k' : Tasks τ μ) (t : τ) : Prop where
  rings : Family k'.family (· ≠ t) FamilyNode.child fun u =>
    (update children (k.parent t)
      ((children (k.parent t)).erase t ++ children t) u).map .p
  parent : ∀ u, k'.parent u = if u ∈ children t then k.parent t else k.parent u

section Family

variable {k : Tasks τ μ} {children : τ → List τ}

omit [DecidableEq μ]

theorem FamilyOf.rings_listDel (h : FamilyOf k children) (ht : t ∈ children (k.parent t)) :
    Family (listDel k.family (.p t)) (fun _ => True) FamilyNode.child fun u =>
      (update children (k.parent t) ((children (k.parent t)).erase t) u).map .p := by
  have hnode : Injective (FamilyNode.p : τ → FamilyNode τ) := fun _ _ heq => by
    cases heq
    rfl
  have hremove := h.rings.remove trivial (List.mem_map_of_mem ht (f := FamilyNode.p))
  rwa [listDel_eq, map_update fun _ => FamilyNode.p, map_erase hnode]

theorem FamilyOf.next_child (h : FamilyOf k children) (ht : t ∈ children (k.parent t)) :
    (listDel k.family (.p t)).next (.child t) =
      ((children t).map FamilyNode.p).headD (.child t) := by
  have hne : t ≠ k.parent t := (h.parent _ t ht).2
  have hpath := (h.rings_listDel ht).path t trivial
  rw [update_of_ne hne] at hpath
  cases hchildren : children t with
  | nil =>
    rw [hchildren] at hpath
    exact hpath.1
  | cons c rest =>
    rw [hchildren] at hpath
    exact hpath.1

/-- The first child is put on the list of the parent without being taken off the list of the task,
so what follows it is the head of the list of the parent, and the loop misses its own head. -/
theorem FamilyOf.reparentLoop_eq_none (h : FamilyOf k children) (ht : t ∈ children (k.parent t))
    (hchildren : children t ≠ []) (fuel : ℕ) :
    reparentLoop t fuel ((listDel k.family (.p t)).next (.child t))
      { k with family := listDel k.family (.p t) } = none := by
  obtain ⟨c, rest, hsplit⟩ := exists_cons_of_ne_nil hchildren
  have hc : t ≠ c := (h.parent t c (by simp [hsplit])).2.symm
  have hne : k.parent t ≠ t := (h.parent _ t ht).2.symm
  rw [h.next_child ht, hsplit]
  match fuel with
  | 0 => rfl
  | 1 => simp [reparentLoop]
  | fuel + 2 => simp [reparentLoop, listAddTail_eq, Links.insertBefore, hc, hne]

/-- For every task with any number of children: the loop of `kill_task` ends, and its children are
given to its parent, if and only if it has no children. -/
theorem reparentLoop_reparented_iff (h : FamilyOf k children) (ht : t ∈ children (k.parent t)) :
    (∃ fuel k', reparentLoop t fuel ((listDel k.family (.p t)).next (.child t))
        { k with family := listDel k.family (.p t) } = some k' ∧ Reparented children k k' t) ↔
      children t = [] := by
  constructor
  · rintro ⟨fuel, k', hloop, -⟩
    by_contra hchildren
    rw [h.reparentLoop_eq_none ht hchildren] at hloop
    cases hloop
  · intro hchildren
    have hrings := h.rings_listDel ht
    refine ⟨1, { k with family := listDel k.family (.p t) }, ?_, ?_, fun u => ?_⟩
    · rw [h.next_child ht, hchildren]
      simp [reparentLoop]
    · rw [hchildren, append_nil]
      exact ⟨fun u _ => hrings.path u trivial, fun u _ => hrings.nodup u trivial,
        fun u v _ _ => hrings.disjoint u v trivial trivial⟩
    · simp [hchildren]

end Family

/-- Task 1 is a child of task 0, and task 2 is one of task 1. -/
def threeTasks : Tasks ℕ Unit :=
  { sched := (SchedRun.boot 0 fun t : ℕ => (t : ℤ)).sched
    mutexes := initMutexes
    family := listAddTail (listAddTail ⟨id, id⟩ (.child 0) (.p 1)) (.child 1) (.p 2)
    parent := Nat.pred }

/-- The children of the three tasks. -/
def threeChildren (u : ℕ) : List ℕ := if u < 2 then [u + 1] else []

/-- The lists of the three tasks. -/
theorem threeTasks_familyOf : FamilyOf threeTasks threeChildren := by
  have hempty : Family (⟨id, id⟩ : Links (FamilyNode ℕ)) (fun _ => True) FamilyNode.child
      fun _ => [] :=
    ⟨fun _ _ => ⟨rfl, rfl⟩, fun _ _ => nodup_singleton _,
      fun i j _ _ hij => by simpa using Ne.symm hij⟩
  have hone := hempty.insertBefore (i := 0) (x := .p 1) trivial (by simp)
  have htwo := hone.insertBefore (i := 1) (x := .p 2) trivial fun j _ => by
    by_cases hj : j = 0 <;> simp [hj]
  refine ⟨?_, fun u c hc => ?_⟩
  · convert htwo using 1
    · rfl
    funext u
    match u with
    | 0 => rfl
    | 1 => rfl
    | u + 2 => simp [threeChildren]
  · unfold threeChildren at hc
    split_ifs at hc
    · obtain rfl := mem_singleton.mp hc
      exact ⟨rfl, by omega⟩
    · cases hc

/-- The last of the three tasks has no children. -/
theorem threeTasks_reparented :
    2 ∈ threeChildren (threeTasks.parent 2) ∧
      ∃ fuel k', reparentLoop 2 fuel ((listDel threeTasks.family (.p 2)).next (.child 2))
          { threeTasks with family := listDel threeTasks.family (.p 2) } = some k' ∧
        Reparented threeChildren threeTasks k' 2 :=
  ⟨by decide, (reparentLoop_reparented_iff threeTasks_familyOf (by decide)).mpr rfl⟩

/-- The loop does not end for the task that has a child. Its next node is the head of the list of
the parent, and adding a head to its own list links it to itself, from where nothing leads back. -/
theorem threeTasks_reparentLoop :
    FamilyOf threeTasks threeChildren ∧ 1 ∈ threeChildren (threeTasks.parent 1) ∧
      (∀ fuel, reparentLoop 1 fuel ((listDel threeTasks.family (.p 1)).next (.child 1))
        { threeTasks with family := listDel threeTasks.family (.p 1) } = none) ∧
      ∀ (L : Links (FamilyNode ℕ)) (head : FamilyNode ℕ),
        (listAddTail L head head).next head = head := by
  refine ⟨threeTasks_familyOf, by decide, ?_, fun L head => ?_⟩
  · exact threeTasks_familyOf.reparentLoop_eq_none (by decide) (by decide)
  · simp [listAddTail_eq, Links.insertBefore]

end Chunos.Kill
