import Chunos.Mutex.Basic
import Chunos.Sched.Moves

/-!
# Waiting for a mutex

While a task waits for a mutex it is linked on the wait list of the mutex. The invariant
here says at which points of `mutex_lock_timeout` this is so. A task links itself, takes the
mutex and unlinks itself after a timeout, and the scheduler and the timer change its state.
-/

namespace Chunos.Mutex

open Rings Sched Runs Function List Option

variable {τ μ : Type*}

section
variable [DecidableEq τ] [DecidableEq μ]

/-- Follow a wait list from node `list` on, until the links are back at the head. -/
def waitLoop (wait : Links (WaitNode τ μ)) (m : μ) : ℕ → WaitNode τ μ → Option (List τ)
  | 0, _ => none
  | n + 1, list =>
    if list = .mutex m then some []
    else
      match list with
      | .task t => (waitLoop wait m n (wait.next list)).map (t :: ·)
      | .mutex _ => none

/-- The task is linked on the wait list of the mutex: the links lead from the head to it and
back to the head. -/
def LinkedOn (wait : Links (WaitNode τ μ)) (m : μ) (t : τ) : Prop :=
  ∃ n l, waitLoop wait m n (wait.next (.mutex m)) = some l ∧ t ∈ l

variable {m : μ} {wait : Links (WaitNode τ μ)}

theorem waitLoop_eq {n n' : ℕ} {list : WaitNode τ μ} {l l' : List τ}
    (h : waitLoop wait m n list = some l) (h' : waitLoop wait m n' list = some l') : l = l' := by
  induction n generalizing n' list l l' with
  | zero => simp [waitLoop] at h
  | succ n ih =>
    cases n' with
    | zero => simp [waitLoop] at h'
    | succ n' =>
      cases list with
      | task t =>
        simp only [waitLoop, reduceCtorEq, if_false, map_eq_some_iff] at h h'
        obtain ⟨rest, hrest, rfl⟩ := h
        obtain ⟨rest', hrest', rfl⟩ := h'
        rw [ih hrest hrest']
      | mutex m' =>
        simp only [waitLoop, ite_none_right_eq_some, some.injEq] at h h'
        exact h.2.symm.trans h'.2

theorem linkedOn_iff {n : ℕ} {l : List τ} (h : waitLoop wait m n (wait.next (.mutex m)) = some l)
    (t : τ) : LinkedOn wait m t ↔ t ∈ l := by
  constructor
  · rintro ⟨n', l', h', ht⟩
    rwa [waitLoop_eq h h']
  · exact fun ht => ⟨n, l, h, ht⟩

theorem waitLoop_of_path {a : WaitNode τ μ} (l : List τ) (h : Path wait a (l.map .task) (.mutex m)) :
    waitLoop wait m (l.length + 1) (wait.next a) = some l := by
  induction l generalizing a with
  | nil =>
    rw [h.1]
    simp [waitLoop]
  | cons t l ih =>
    obtain ⟨hnext, -, hrest⟩ := h
    rw [hnext, length_cons, waitLoop]
    simp [ih hrest]

end

/-- What holds for a task at a point of `mutex_lock_timeout`, when it is linked on the wait
lists of the mutexes in `linked`. -/
structure Waiter (linked : μ → Prop) (pc : LockPc μ) (task : Task) : Prop where
  asleep : ∀ m, pc.mutex = some m → task.state = .sleep →
    linked m ∧ task.waitTime ≠ 0 ∧ task.timeOut = 0
  queued : ∀ m ms, pc = .queued m ms → task.state ≠ .sleep ∧ linked m
  suspended : ∀ m ms, pc = .suspended m ms → task.waitTime = 0 ∨ task.timeOut ≠ 0 → linked m
  expired : ∀ m, pc = .expired m → task.state ≠ .sleep ∧ linked m

theorem Waiter.out (linked : μ → Prop) (task : Task) : Waiter linked .out task := by
  constructor <;> simp [LockPc.mutex]

variable {a b : Task} {linked : μ → Prop} {pc : LockPc μ} {m : μ} {t : τ} {s' : Scheduler τ}

/-- A sleeping task that is changed while it stays linked: it is woken up, or sleeps on without
having been marked. -/
theorem Waiter.of_asleep (h : Waiter linked pc a) (ha : a.state = .sleep)
    (hb : b.state = .sleep → b.waitTime ≠ 0 ∧ (a.timeOut = 0 → b.timeOut = 0)) :
    Waiter linked pc b := by
  constructor
  · intro m hm hsleep
    obtain ⟨hlinked, -, hzero⟩ := h.asleep m hm ha
    exact ⟨hlinked, (hb hsleep).1, (hb hsleep).2 hzero⟩
  · exact fun m ms hpc => absurd ha (h.queued m ms hpc).1
  · rintro m ms rfl _
    exact (h.asleep m rfl ha).1
  · exact fun m hpc => absurd ha (h.expired m hpc).1

theorem Waiter.of_awake (h : Waiter linked pc a) (hb : b.state ≠ .sleep)
    (hmark : b.waitTime = 0 ∨ b.timeOut ≠ 0 → a.waitTime = 0 ∨ a.timeOut ≠ 0) :
    Waiter linked pc b where
  asleep := fun _ _ hsleep => absurd hsleep hb
  queued := fun m ms hpc => ⟨hb, (h.queued m ms hpc).2⟩
  suspended := fun m ms hpc hb' => h.suspended m ms hpc (hmark hb')
  expired := fun m hpc => ⟨hb, (h.expired m hpc).2⟩

/-- The scheduler and the timer do not disturb a waiting task. -/
theorem Waiter.move (hmove : TaskMove a b) (h : Waiter linked pc a) : Waiter linked pc b := by
  cases hmove with
  | other hstate hwait htimeOut =>
    constructor
    · rw [hstate, hwait, htimeOut]
      exact h.asleep
    · rw [hstate]
      exact h.queued
    · rw [hwait, htimeOut]
      exact h.suspended
    · rw [hstate]
      exact h.expired
  | countDown ha hb hwait htimeOut => exact h.of_asleep ha fun _ => ⟨hwait, htimeOut.trans⟩
  | expire ha hb hwait htimeOut => exact h.of_asleep ha (by simp [hb])
  | start ha hb hwait htimeOut =>
    apply h.of_awake (by simp [hb])
    intro hmark
    by_cases hzero : a.waitTime = 0
    · exact Or.inl hzero
    · rw [if_neg hzero] at htimeOut
      right
      simpa [hwait, htimeOut] using hmark
  | putBack ha hb hwait htimeOut => exact h.of_awake (by simp [hb]) (by simp [hwait, htimeOut])

/-- A task that has been woken up by `mutex_unlock`, and is linked nowhere any more. -/
theorem Waiter.unlock {linked' : μ → Prop} (h : Waiter linked pc a) (hpc : pc.mutex = some m)
    (ha : a.state = .sleep) (hb : b.state = .prepare) (hwait : b.waitTime = a.waitTime)
    (htimeOut : b.timeOut = a.timeOut) : Waiter linked' pc b := by
  obtain ⟨-, hne, hzero⟩ := h.asleep m hpc ha
  constructor
  · intro m _ hsleep
    simp [hb] at hsleep
  · exact fun m ms hpc => absurd ha (h.queued m ms hpc).1
  · intro m ms _ hmark
    simp [hwait, htimeOut, hne, hzero] at hmark
  · exact fun m hpc => absurd ha (h.expired m hpc).1

/-- The invariant: the wait lists are the rings of the lists `waiting m`, the tasks on them
want this mutex, and a mutex for which a task waits is locked. -/
structure Waiting (idle : τ) (r : MutexRun τ μ) (waiting : μ → List τ) : Prop where
  settled : Settled idle (fun _ => False) r.sched
  rings : Family r.mutexes.wait (fun _ => True) WaitNode.mutex (fun m => (waiting m).map .task)
  wanted : ∀ m, ∀ t ∈ waiting m, (r.pc t).mutex = some m
  locked : ∀ m, waiting m ≠ [] → r.mutexes.count m = 1
  binary : ∀ m, r.mutexes.count m = 0 ∨ r.mutexes.count m = 1
  waiter : ∀ t, Waiter (fun m => t ∈ waiting m) (r.pc t) (r.sched.task t)

variable {idle : τ} {r r' : MutexRun τ μ} {waiting : μ → List τ}

theorem Waiting.not_mem (h : Waiting idle r waiting) (hm : (r.pc t).mutex ≠ some m) :
    t ∉ waiting m := fun ht => hm (h.wanted m t ht)

theorem Waiting.of_moves (h : Waiting idle r waiting) (hs' : Settled idle (fun _ => False) s')
    (hmoves : Moves r.sched s') : Waiting idle { r with sched := s' } waiting :=
  { h with
    settled := hs'
    waiter := fun t => hmoves.keep (fun _ _ => Waiter.move) (h.waiter t) }

/-- The node at which the loop of `mutex_unlock` stands when these tasks are left. -/
def waitNode (m : μ) : List τ → WaitNode τ μ
  | [] => .mutex m
  | t :: _ => .task t

theorem next_waitNode {wait : Links (WaitNode τ μ)} {a : WaitNode τ μ} {l : List τ}
    (h : Path wait a (l.map .task) (.mutex m)) : wait.next a = waitNode m l := by
  cases l with
  | nil => exact h.1
  | cons t l => exact h.1

variable [DecidableEq τ]

/-- A task goes to another point of the function, and the scheduler changes this task. -/
theorem Waiting.change (h : Waiting idle r waiting) (hs' : Settled idle (fun _ => False) s')
    (hpc : ∀ m, t ∈ waiting m → pc.mutex = some m)
    (hothers : ∀ t', t' ≠ t → s'.task t' = r.sched.task t')
    (ht : Waiter (fun m => t ∈ waiting m) pc (s'.task t)) :
    Waiting idle { r.goto t pc with sched := s' } waiting := by
  refine { h with settled := hs', wanted := ?_, waiter := ?_ }
  · intro m t' ht'
    by_cases htt : t' = t
    · subst htt
      simpa [MutexRun.goto] using hpc m ht'
    · simpa [MutexRun.goto, htt] using h.wanted m t' ht'
  · intro t'
    by_cases htt : t' = t
    · subst htt
      simpa [MutexRun.goto] using ht
    · simpa [MutexRun.goto, htt, hothers t' htt] using h.waiter t'

theorem Waiting.goto (h : Waiting idle r waiting) (hpc : ∀ m, t ∈ waiting m → pc.mutex = some m)
    (ht : Waiter (fun m => t ∈ waiting m) pc (r.sched.task t)) :
    Waiting idle (r.goto t pc) waiting :=
  h.change h.settled hpc (fun _ _ => rfl) ht

theorem Waiting.reschedule (h : Waiting idle r waiting) (hs' : Settled idle (fun _ => False) s')
    (hothers : ∀ t', t' ≠ t → s'.task t' = r.sched.task t')
    (ht : Waiter (fun m => t ∈ waiting m) (r.pc t) (s'.task t)) :
    Waiting idle { r with sched := s' } waiting := by
  have hchange := h.change hs' (fun m ht => h.wanted m t ht) hothers ht
  rwa [MutexRun.goto, update_eq_self] at hchange

variable {ms : ℤ}

/-- `suspend_task_timeout` in `mutex_lock_timeout`, for a time that is not 0. -/
theorem Waiting.suspend (h : Waiting idle r waiting) (hpc : r.pc t = .queued m ms) (hms : ms ≠ 0) :
    Waiting idle { r.goto t (.suspended m ms) with sched := markAsleep r.sched t ms } waiting := by
  obtain ⟨-, hlinked⟩ := (h.waiter t).queued m ms hpc
  obtain ⟨hwait, htimeOut, hothers⟩ := markAsleep_task r.sched t ms
  apply h.change (h.settled.of_keeps (markAsleep_keeps h.settled.inv not_false ms)) _ hothers
  · constructor <;> simp_all [LockPc.mutex]
  · intro m' ht
    simpa [hpc, LockPc.mutex] using h.wanted m' t ht

theorem Waiting.sched (h : Waiting idle r waiting) {irq : Bool}
    (hs' : Sched.sched irq r.sched = some s') : Waiting idle { r with sched := s' } waiting := by
  obtain ⟨s'', hs'', hsettled⟩ := h.settled.sched irq
  obtain rfl : s'' = s' := some.inj (hs''.symm.trans hs')
  exact h.of_moves hsettled (h.settled.sched_moves irq hs')

/-- A task that goes on after `suspend_task_timeout` looks at its mark. -/
theorem Waiting.resume (h : Waiting idle r waiting) (hpc : r.pc t = .suspended m ms) :
    Waiting idle
      (r.goto t (if (r.sched.task t).timeOut ≠ 0 then .expired m else .loop m ms)) waiting := by
  refine h.goto (fun m' ht => ?_) ?_
  · have hm := h.wanted m' t ht
    split_ifs
    · simpa [hpc, LockPc.mutex] using hm
    · simpa [hpc, LockPc.mutex] using hm
  · have hwaiter := h.waiter t
    rw [hpc] at hwaiter
    split_ifs with hmark
    · have hawake : (r.sched.task t).state ≠ .sleep := fun hsleep =>
        hmark (hwaiter.asleep m rfl hsleep).2.2
      constructor <;> simp_all [LockPc.mutex]
      exact hwaiter.suspended m ms rfl (Or.inr hmark)
    · constructor
      · exact hwaiter.asleep
      all_goals simp

theorem boot_waiting (idle : τ) (pid : τ → ℤ) :
    ∃ waiting, Waiting idle (MutexRun.boot idle pid : MutexRun τ μ) waiting := by
  refine ⟨fun _ => [], ?_, ⟨?_, ?_, ?_⟩, ?_, ?_, ?_, ?_⟩
  · simpa [SchedRun.IsSettled, SchedRun.boot, MutexRun.boot] using boot_settled idle pid
  · exact fun m _ => ⟨rfl, rfl⟩
  · exact fun m _ => nodup_singleton _
  · intro m m' _ _ hne
    simpa using Ne.symm hne
  · simp
  · simp
  · exact fun m => Or.inl rfl
  · exact fun t => Waiter.out _ _

variable [DecidableEq μ]

theorem linkedOn_iff_mem {wait : Links (WaitNode τ μ)}
    (hrings : Family wait (fun _ => True) WaitNode.mutex (fun m => (waiting m).map .task)) (m : μ)
    (t : τ) : LinkedOn wait m t ↔ t ∈ waiting m :=
  Mutex.linkedOn_iff (waitLoop_of_path (waiting m) (hrings.path m trivial)) t

theorem Waiting.linkedOn_iff (h : Waiting idle r waiting) (m : μ) (t : τ) :
    LinkedOn r.mutexes.wait m t ↔ t ∈ waiting m :=
  linkedOn_iff_mem h.rings m t

/-- The first task of a wait list is unlinked, and keeps its link to the next one. -/
theorem delWait_first {mx : Mutexes τ μ} {rest : List τ}
    (hrings : Family mx.wait (fun _ => True) WaitNode.mutex
      (fun m' => (update waiting m (t :: rest) m').map .task)) :
    Family (delWait mx t).wait (fun _ => True) WaitNode.mutex
        (fun m' => (update waiting m rest m').map .task) ∧
      (delWait mx t).wait.next (.task t) = waitNode m rest := by
  have hpath := hrings.path m trivial
  simp only [update_self, map_cons] at hpath
  constructor
  · have hremove := hrings.remove (i := m) (x := .task t) trivial (by simp)
    simp only [update_self, map_cons, erase_cons_head] at hremove
    rw [← map_update (fun _ => WaitNode.task), update_idem] at hremove
    simpa only [delWait, listDel_eq] using hremove
  · rw [← next_waitNode hpath.2.2]
    simp [delWait, listDel_eq, Links.remove, hpath.2.1]

/-- A task links itself on the wait list. -/
theorem Waiting.enqueue (h : Waiting idle r waiting) (hpc : r.pc t = .loop m ms)
    (hawake : (r.sched.task t).state ≠ .sleep) (ht : t ∉ waiting m) (hcount : r.mutexes.count m ≠ 0) :
    Waiting idle
      { r with
        mutexes := { r.mutexes with wait := listAddTail r.mutexes.wait (.mutex m) (.task t) }
        pc := update r.pc t (.queued m ms) }
      (update waiting m (waiting m ++ [t])) := by
  have hfree : ∀ m', t ∉ waiting m' := by
    intro m'
    by_cases hmm : m' = m
    · exact hmm ▸ ht
    · apply h.not_mem
      simpa [hpc, LockPc.mutex] using Ne.symm hmm
  have hmem : ∀ m' t', t' ∈ update waiting m (waiting m ++ [t]) m' ↔
      t' ∈ waiting m' ∨ m' = m ∧ t' = t := by
    intro m' t'
    by_cases hmm : m' = m
    · subst hmm
      simp
    · simp [hmm]
  constructor
  · exact h.settled
  · rw [map_update (fun _ => WaitNode.task), map_append, map_singleton, listAddTail_eq]
    apply h.rings.insertBefore trivial
    intro m' _ hin
    simp [hfree m'] at hin
  · intro m' t' ht'
    obtain ht' | ⟨rfl, rfl⟩ := (hmem m' t').mp ht'
    · have htt : t' ≠ t := fun heq => hfree m' (heq ▸ ht')
      simpa [htt] using h.wanted m' t' ht'
    · simp [LockPc.mutex]
  · intro m' hne
    by_cases hmm : m' = m
    · exact hmm ▸ (h.binary m).resolve_left hcount
    · rw [update_of_ne hmm] at hne
      exact h.locked m' hne
  · exact h.binary
  · intro t'
    by_cases htt : t' = t
    · subst htt
      constructor <;> simp_all [LockPc.mutex]
    · simpa [hmem, htt] using h.waiter t'

/-- A task takes a mutex. -/
theorem Waiting.take (h : Waiting idle r waiting) (hpc : r.pc t = .loop m ms)
    (hcount : r.mutexes.count m = 0) (own : Links (OwnNode τ μ)) (inside : μ → List τ) :
    Waiting idle
      { r with
        mutexes := { r.mutexes with count := update r.mutexes.count m 1, own := own }
        pc := update r.pc t .out
        inside := inside }
      waiting := by
  have hnil : waiting m = [] := by
    by_contra hne
    simp [h.locked m hne] at hcount
  have hfree : ∀ m', t ∉ waiting m' := by
    intro m'
    by_cases hmm : m' = m
    · simp [hmm, hnil]
    · apply h.not_mem
      simpa [hpc, LockPc.mutex] using Ne.symm hmm
  constructor
  · exact h.settled
  · exact h.rings
  · intro m' t' ht'
    have htt : t' ≠ t := fun heq => hfree m' (heq ▸ ht')
    simpa [htt] using h.wanted m' t' ht'
  · intro m' hne
    have hmm : m' ≠ m := by
      rintro rfl
      exact hne hnil
    simpa [hmm] using h.locked m' hne
  · intro m'
    by_cases hmm : m' = m
    · simp [hmm]
    · simpa [hmm] using h.binary m'
  · intro t'
    by_cases htt : t' = t
    · subst htt
      simpa using Waiter.out _ _
    · simpa [htt] using h.waiter t'

/-- A task takes itself off the wait list. -/
theorem Waiting.leave (h : Waiting idle r waiting) (hpc : r.pc t = .expired m) :
    Waiting idle { r.goto t .out with mutexes := delWait r.mutexes t }
      (update waiting m ((waiting m).erase t)) := by
  have ht : t ∈ waiting m := ((h.waiter t).expired m hpc).2
  have hnode : Injective (WaitNode.task : τ → WaitNode τ μ) := fun _ _ => WaitNode.task.inj
  have hnodup : (waiting m).Nodup :=
    Nodup.of_map _ (nodup_cons.mp (h.rings.nodup m trivial)).2
  have hmem : ∀ m' t', t' ∈ update waiting m ((waiting m).erase t) m' ↔
      t' ∈ waiting m' ∧ t' ≠ t := by
    intro m' t'
    by_cases hmm : m' = m
    · subst hmm
      simp [hnodup.mem_erase_iff, and_comm]
    · have hfree : t ∉ waiting m' := by
        apply h.not_mem
        simpa [hpc, LockPc.mutex] using Ne.symm hmm
      simp only [update_of_ne hmm, iff_self_and]
      rintro ht' rfl
      exact hfree ht'
  constructor
  · exact h.settled
  · rw [map_update (fun _ => WaitNode.task), map_erase hnode]
    simp only [delWait, listDel_eq]
    exact h.rings.remove trivial (List.mem_map_of_mem ht)
  · intro m' t' ht'
    obtain ⟨ht', htt⟩ := (hmem m' t').mp ht'
    simpa [MutexRun.goto, htt] using h.wanted m' t' ht'
  · intro m' hne
    apply h.locked m'
    intro hnil
    apply hne
    by_cases hmm : m' = m
    · subst hmm
      simp [hnil]
    · simp [hmm, hnil]
  · exact h.binary
  · intro t'
    by_cases htt : t' = t
    · subst htt
      simpa [MutexRun.goto] using Waiter.out _ _
    · simpa [MutexRun.goto, hmem, htt] using h.waiter t'

end Chunos.Mutex
