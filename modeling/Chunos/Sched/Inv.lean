import Chunos.Sched.Queues

/-!
# The invariant of the scheduler

Which lists a task is on is determined by its state. `set_task_state` moves a task from
the list of its old state to the list of its new state, and links a new task on the
system list. The other functions change states only through it, so they keep the
invariant as well.
-/

namespace Chunos.Sched

open Rings

variable {τ : Type*}

/-- The lists on which a task has to be. A task that has been removed is on none. -/
def Belongs (s : Scheduler τ) (removed : τ → Prop) : Queue → τ → Prop
  | .prio i, t => ¬ removed t ∧ (s.task t).state = .prepare ∧ (s.task t).prio = i
  | .sleep, t => ¬ removed t ∧ (s.task t).state = .sleep
  | .idle, t => ¬ removed t ∧ (s.task t).state = .idle
  | .system, t => ¬ removed t ∧ (s.task t).state ≠ .unknown ∧ t ≠ s.idle

/-- The invariant: the tasks are on the lists of their states, priorities are indices of the
table, only stopped tasks are removed, and the idle task is active. -/
structure Inv (s : Scheduler τ) (removed : τ → Prop) : Prop where
  queues : Queues s.links s.count (Belongs s removed)
  prio_ok : ∀ t, 0 ≤ (s.task t).prio ∧ (s.task t).prio < taskMaxPrio
  removed_ok : ∀ t, removed t → (s.task t).state = .idle ∧ t ≠ s.idle
  idle_ok : (s.task s.idle).state ≠ .unknown

variable {t : τ} {new : State} {B : Queue → τ → Prop}

theorem Inv.not_removed {s : Scheduler τ} {removed : τ → Prop} (hinv : Inv s removed)
    (ht : (s.task t).state ≠ .idle) : ¬ removed t :=
  fun hr => ht (hinv.removed_ok t hr).1

/-- The list of a state, for a task of this priority. -/
def home (prio : ℤ) : State → Option Queue
  | .prepare => some (.prio prio)
  | .sleep => some .sleep
  | .idle => some .idle
  | _ => none

variable {s s' s'' : Scheduler τ} {removed : τ → Prop}

theorem home_eq_some {prio : ℤ} (hprio : 0 ≤ prio ∧ prio < taskMaxPrio) {st : State} {q : Queue}
    (h : home prio st = some q) : q.Valid ∧ q ≠ .system := by
  cases st <;> simp only [home, Option.some.injEq, reduceCtorEq] at h
  all_goals subst h
  · exact ⟨hprio, by simp⟩
  · exact ⟨trivial, by simp⟩
  · exact ⟨trivial, by simp⟩

theorem belongs_iff_home {q : Queue} (hq : q ≠ .system) (ht : ¬ removed t) :
    Belongs s removed q t ↔ home (s.task t).prio (s.task t).state = some q := by
  cases q <;> cases hst : (s.task t).state <;> simp_all [Belongs, home]

theorem belongs_congr (htask : s'.task t = s.task t) (hidle : s'.idle = s.idle) (q : Queue) :
    Belongs s' removed q t ↔ Belongs s removed q t := by
  cases q <;> simp only [Belongs, htask, hidle]

/-- The second state has the invariant, and the global variables of the first one. -/
structure Keeps (removed : τ → Prop) (s s' : Scheduler τ) : Prop where
  inv : Inv s' removed
  idle : s'.idle = s.idle
  current : s'.current = s.current
  nextRun : s'.nextRun = s.nextRun

theorem Keeps.trans (h : Keeps removed s s') (h' : Keeps removed s' s'') : Keeps removed s s'' :=
  ⟨h'.inv, h'.idle.trans h.idle, h'.current.trans h.current, h'.nextRun.trans h.nextRun⟩

theorem Inv.keeps (hinv : Inv s removed) : Keeps removed s s := ⟨hinv, rfl, rfl, rfl⟩

variable [DecidableEq τ]

/-- Link a task that was not active on the system list. -/
def joinSystem (s : Scheduler τ) (t : τ) (old : State) : Scheduler τ :=
  if old = .unknown then schedListAddTaskTail s .system t else s

/-- Unlink a task from the list of its old state. -/
def leaveHome (s : Scheduler τ) (t : τ) (old : State) : Scheduler τ :=
  match home (s.task t).prio old with
  | some q => schedListDelTask s q t
  | none => s

/-- Link a task on the list of its new state: at the end, or in front for a new task that
sleeps. -/
def enterHome (s : Scheduler τ) (t : τ) (old new : State) : Scheduler τ :=
  match home (s.task t).prio new with
  | some q =>
    if old = .unknown ∧ q = .sleep then schedListAddTask s q t else schedListAddTaskTail s q t
  | none => s

/-- The list operations of `set_task_state` move the task from the list of its old state to
the list of its new state. -/
theorem relink_eq {old : State} (hchange : changeTable old new ≠ .noneToNone)
    (hnew : new ≠ .unknown) (s : Scheduler τ) (t : τ) :
    relink s t (changeTable old new) =
      enterHome (leaveHome (joinSystem s t old) t old) t old new := by
  cases old <;> cases new
  all_goals first | exact absurd rfl hchange | exact absurd rfl hnew | rfl

theorem joinSystem_queues (hQ : Queues s.links s.count B) (t : τ) (old : State)
    (hfree : old = .unknown → ¬ B .system t) :
    Queues (joinSystem s t old).links (joinSystem s t old).count
      (fun q t' => B q t' ∨ old = .unknown ∧ q = .system ∧ t' = t) := by
  unfold joinSystem
  split_ifs with hold
  · have hnode : ∀ q', q'.Valid → q'.node t = Queue.system.node t → ¬ B q' t := by
      intro q' _ hq'
      cases q' <;> simp only [Queue.node, reduceCtorEq] at hq'
      exact hfree hold
    have hvalid : Queue.system.Valid := trivial
    apply (hQ.addTail hvalid hnode).congr
    simp [hold]
  · exact hQ.congr (by simp [hold])

theorem leaveHome_queues (hQ : Queues s.links s.count B) (t : τ) (old : State)
    (hprio : 0 ≤ (s.task t).prio ∧ (s.task t).prio < taskMaxPrio)
    (hon : ∀ q, home (s.task t).prio old = some q → B q t) :
    Queues (leaveHome s t old).links (leaveHome s t old).count
      (fun q t' => B q t' ∧ ¬ (home (s.task t).prio old = some q ∧ t' = t)) := by
  unfold leaveHome
  cases hhome : home (s.task t).prio old with
  | none => exact hQ.congr (by simp)
  | some q =>
    apply (hQ.del (home_eq_some hprio hhome).1 (hon q hhome)).congr
    simp [eq_comm]

/-- Entering the list of the new state, from no list. -/
theorem enterHome_queues (hQ : Queues s.links s.count B) (t : τ) (old new : State)
    (hprio : 0 ≤ (s.task t).prio ∧ (s.task t).prio < taskMaxPrio)
    (hfree : ∀ q, q.Valid → q ≠ .system → ¬ B q t) :
    Queues (enterHome s t old new).links (enterHome s t old new).count
      (fun q t' => B q t' ∨ home (s.task t).prio new = some q ∧ t' = t) := by
  unfold enterHome
  cases hhome : home (s.task t).prio new with
  | none => exact hQ.congr (by simp)
  | some q =>
    obtain ⟨hq, hne⟩ := home_eq_some hprio hhome
    have hnode : ∀ q', q'.Valid → q'.node t = q.node t → ¬ B q' t := by
      intro q' hq' heq
      apply hfree q' hq'
      rintro rfl
      cases q <;> simp [Queue.node] at heq hne
    simp only
    split_ifs
    · apply (hQ.add hq hnode).congr
      simp [eq_comm]
    · apply (hQ.addTail hq hnode).congr
      simp [eq_comm]

theorem relink_frame (s : Scheduler τ) (t : τ) (change : StateChange) :
    (relink s t change).task = s.task ∧ (relink s t change).idle = s.idle ∧
      (relink s t change).current = s.current ∧ (relink s t change).nextRun = s.nextRun ∧
      (relink s t change).scheduleRunning = s.scheduleRunning := by
  cases change <;> exact ⟨rfl, rfl, rfl, rfl, rfl⟩

@[simp] theorem joinSystem_task (s : Scheduler τ) (t : τ) (old : State) :
    (joinSystem s t old).task = s.task := by
  unfold joinSystem
  split_ifs
  · rfl
  · rfl

@[simp] theorem leaveHome_task (s : Scheduler τ) (t : τ) (old : State) :
    (leaveHome s t old).task = s.task := by
  unfold leaveHome
  cases home (s.task t).prio old with
  | none => rfl
  | some q => rfl

section
variable (hinv : Inv s removed)
include hinv

/-- The lists while a task changes its state: first it has joined the system list if it is
new, then it has left the list of its old state and is on no list but the system list. -/
theorem leaveHome_joinSystem_queues (ht : ¬ removed t) {s₁ : Scheduler τ}
    (hlinks : s₁.links = s.links) (hcount : s₁.count = s.count)
    (hprio : (s₁.task t).prio = (s.task t).prio) :
    Queues (joinSystem s₁ t (s.task t).state).links (joinSystem s₁ t (s.task t).state).count
      (fun q t' => Belongs s removed q t' ∨ (s.task t).state = .unknown ∧ q = .system ∧ t' = t) ∧
    Queues (leaveHome (joinSystem s₁ t (s.task t).state) t (s.task t).state).links
      (leaveHome (joinSystem s₁ t (s.task t).state) t (s.task t).state).count
      (fun q t' =>
        (Belongs s removed q t' ∨ (s.task t).state = .unknown ∧ q = .system ∧ t' = t) ∧
          ¬ (home (s.task t).prio (s.task t).state = some q ∧ t' = t)) ∧
    ∀ q, q.Valid → q ≠ .system →
      ¬ ((Belongs s removed q t ∨ (s.task t).state = .unknown ∧ q = .system ∧ t = t) ∧
        ¬ (home (s.task t).prio (s.task t).state = some q ∧ t = t)) := by
  have hrange : 0 ≤ (s₁.task t).prio ∧ (s₁.task t).prio < taskMaxPrio := hprio ▸ hinv.prio_ok t
  have hQ : Queues s₁.links s₁.count (Belongs s removed) := by
    rw [hlinks, hcount]
    exact hinv.queues
  have hjoin := joinSystem_queues hQ t (s.task t).state (fun hold hB => hB.2.1 hold)
  have hon : ∀ q, home ((joinSystem s₁ t (s.task t).state).task t).prio (s.task t).state = some q →
      Belongs s removed q t ∨ (s.task t).state = .unknown ∧ q = .system ∧ t = t := by
    intro q hq
    rw [joinSystem_task] at hq
    left
    rwa [belongs_iff_home (home_eq_some hrange hq).2 ht, ← hprio]
  have hleave := leaveHome_queues hjoin t (s.task t).state (by simpa using hrange) hon
  simp only [joinSystem_task, hprio] at hleave
  refine ⟨hjoin, hleave, ?_⟩
  rintro q - hq ⟨hB | hB, hnot⟩
  · exact hnot ⟨(belongs_iff_home hq ht).mp hB, rfl⟩
  · exact hq hB.2.1

/-- The lists after the task `t` has got the state `new`. -/
theorem relink_queues (ht : ¬ removed t) (hchange : changeTable (s.task t).state new ≠ .noneToNone)
    (hnew : new ≠ .unknown)
    {s₁ : Scheduler τ} (hs₁ : s₁ = s.modify t fun task => { task with state := new }) :
    Queues (relink s₁ t (changeTable (s.task t).state new)).links
      (relink s₁ t (changeTable (s.task t).state new)).count (Belongs s₁ removed) := by
  have hprio : (s₁.task t).prio = (s.task t).prio := by simp [hs₁, Scheduler.modify]
  have hstate : (s₁.task t).state = new := by simp [hs₁, Scheduler.modify]
  have hidle : s₁.idle = s.idle := by simp [hs₁, Scheduler.modify]
  have hrange : 0 ≤ (s₁.task t).prio ∧ (s₁.task t).prio < taskMaxPrio := hprio ▸ hinv.prio_ok t
  rw [relink_eq hchange hnew]
  have hlinks : s₁.links = s.links := by rw [hs₁]; rfl
  have hcount : s₁.count = s.count := by rw [hs₁]; rfl
  obtain ⟨-, hleave, hfree⟩ := leaveHome_joinSystem_queues hinv ht hlinks hcount hprio
  have henter := enterHome_queues hleave t (s.task t).state new (by simpa using hrange) hfree
  simp only [leaveHome_task, joinSystem_task, hprio] at henter
  apply henter.congr
  intro q hvalid t'
  by_cases htt : t' = t
  · subst htt
    by_cases hq : q = .system
    · subst hq
      have hno : ∀ st, home (s.task t').prio st ≠ some .system := fun st hst =>
        (home_eq_some (hinv.prio_ok t') hst).2 rfl
      have hactive : (s.task t').state = .unknown → t' ≠ s.idle := by
        rintro hold rfl
        exact hinv.idle_ok hold
      simp only [Belongs, hno, hstate, hidle, hnew, ht, and_true, true_and, not_false_eq_true,
        or_false, ne_eq]
      tauto
    · have hnew' : Belongs s₁ removed q t' ↔ home (s.task t').prio new = some q := by
        rw [belongs_iff_home hq ht, hprio, hstate]
      rw [hnew', belongs_iff_home hq ht]
      simp only [hq, and_true, and_false, or_false, and_not_self, false_or]
  · have htask : s₁.task t' = s.task t' := by simp [hs₁, Scheduler.modify, htt]
    rw [belongs_congr htask hidle]
    simp only [htt, and_false, or_false, not_false_eq_true, and_true]

/-- `set_task_state` keeps the invariant, for a task that has not been removed and a state
other than `PROCESS_STATE_UNKNOWN`. -/
theorem Inv.setTaskState (ht : ¬ removed t) (hnew : new ≠ .unknown) :
    Inv (setTaskState s t new) removed := by
  unfold Sched.setTaskState
  simp only
  split_ifs with hchange
  · exact hinv
  · have hqueues := relink_queues hinv ht hchange hnew rfl
    obtain ⟨htask, hidle, -⟩ := relink_frame (s.modify t fun task => { task with state := new }) t
      (changeTable (s.task t).state new)
    have hstate : ∀ t', ((s.modify t fun task => { task with state := new }).task t').state =
        if t' = t then new else (s.task t').state := by
      intro t'
      by_cases htt : t' = t <;> simp [Scheduler.modify, htt]
    constructor
    · apply hqueues.congr
      intro q _ t'
      exact (belongs_congr (congrFun htask t') hidle q).symm
    · intro t'
      rw [htask]
      by_cases htt : t' = t
      · simpa [Scheduler.modify, htt] using hinv.prio_ok t
      · simpa [Scheduler.modify, htt] using hinv.prio_ok t'
    · intro t' ht'
      have htt : t' ≠ t := by
        rintro rfl
        exact ht ht'
      rw [htask, hidle, hstate, if_neg htt]
      exact hinv.removed_ok t' ht'
    · rw [htask, hidle, hstate]
      split_ifs
      · exact hnew
      · exact hinv.idle_ok

/-- A change of fields that leaves the state of a task, and its priority while the task is
on a priority queue, keeps the invariant. -/
theorem Inv.modify {f : Task → Task} (hstate : (f (s.task t)).state = (s.task t).state)
    (hprio : (f (s.task t)).prio = (s.task t).prio ∨ (s.task t).state ≠ .prepare)
    (hrange : 0 ≤ (f (s.task t)).prio ∧ (f (s.task t)).prio < taskMaxPrio) :
    Inv (s.modify t f) removed := by
  have htask : ∀ t', ((s.modify t f).task t').state = (s.task t').state := by
    intro t'
    by_cases htt : t' = t
    · simp [Scheduler.modify, htt, hstate]
    · simp [Scheduler.modify, htt]
  constructor
  · apply hinv.queues.congr
    intro q _ t'
    by_cases htt : t' = t
    · subst htt
      cases q with
      | prio i =>
        simp only [Belongs, htask]
        simp only [Scheduler.modify, Function.update_self]
        obtain h | h := hprio
        · rw [h]
        · simp [h]
      | system =>
        simp only [Belongs, htask]
        rfl
      | sleep => simp only [Belongs, htask]
      | idle => simp only [Belongs, htask]
    · have hsame : (s.modify t f).task t' = s.task t' := by simp [Scheduler.modify, htt]
      exact (belongs_congr hsame rfl q).symm
  · intro t'
    by_cases htt : t' = t
    · simpa [Scheduler.modify, htt] using hrange
    · simpa [Scheduler.modify, htt] using hinv.prio_ok t'
  · intro t' ht'
    rw [htask]
    exact hinv.removed_ok t' ht'
  · have hidle := hinv.idle_ok
    rwa [← htask] at hidle

theorem setTaskState_keeps (ht : ¬ removed t) (new : State) (hnew : new ≠ .unknown)
    : Keeps removed s (setTaskState s t new) := by
  have hinv' := hinv.setTaskState ht hnew
  revert hinv'
  unfold setTaskState
  simp only
  split_ifs
  · exact Inv.keeps
  · intro hinv'
    obtain ⟨-, hidle, hcurrent, hnext, -⟩ := relink_frame
      (s.modify t fun task => { task with state := new }) t (changeTable (s.task t).state new)
    exact ⟨hinv', hidle, hcurrent, hnext⟩

theorem modify_keeps (t : τ) {f : Task → Task} (hstate : ∀ task, (f task).state = task.state)
    (hprio : ∀ task, (f task).prio = task.prio) :
    Keeps removed s (s.modify t f) :=
  ⟨hinv.modify (hstate _) (Or.inl (hprio _)) (hprio (s.task t) ▸ hinv.prio_ok t), rfl, rfl, rfl⟩

end

end Chunos.Sched
