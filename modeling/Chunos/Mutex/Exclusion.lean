import Chunos.Mutex.Basic

/-!
# Mutual exclusion

A mutex is held by at most one task, its counter says whether it is, and it is on the list
of the mutexes that the task has got. This does not depend on the wait lists: waking up the
wrong tasks, or none, does not give the mutex to anyone.
-/

namespace Chunos.Mutex

open Rings Sched Runs Function List Option

variable {τ μ : Type*}

/-- Each mutex is held by at most one task, as its counter says, and linked on the list of
that task and on no other one: `owned t` is the list of task `t`. -/
structure Exclusive (mx : Mutexes τ μ) (inside : μ → List τ) (owned : τ → List μ) : Prop where
  rings : Family mx.own (fun _ => True) OwnNode.task (fun t => (owned t).map OwnNode.mutex)
  count_eq : ∀ m, mx.count m = (inside m).length
  length_le : ∀ m, (inside m).length ≤ 1
  owned_iff : ∀ t m, m ∈ owned t ↔ t ∈ inside m

variable {inside : μ → List τ} {m : μ} {mx mx' : Mutexes τ μ} {owned : τ → List μ} {t : τ}

theorem Exclusive.inside_eq (h : Exclusive mx inside owned) (ht : t ∈ inside m) :
    inside m = [t] := by
  have hle := h.length_le m
  cases hm : inside m with
  | nil => simp [hm] at ht
  | cons t' rest =>
    rw [hm, length_cons] at hle
    obtain rfl : rest = [] := eq_nil_of_length_eq_zero (by omega)
    rw [hm, mem_singleton] at ht
    rw [ht]

theorem Exclusive.congr (h : Exclusive mx inside owned) (hcount : mx'.count = mx.count)
    (hown : mx'.own = mx.own) : Exclusive mx' inside owned := by
  constructor
  · rw [hown]
    exact h.rings
  · rw [hcount]
    exact h.count_eq
  · exact h.length_le
  · exact h.owned_iff

variable [DecidableEq τ]

theorem boot_exclusive (idle : τ) (pid : τ → ℤ) :
    ∃ owned, Exclusive (MutexRun.boot idle pid : MutexRun τ μ).mutexes
      (MutexRun.boot idle pid : MutexRun τ μ).inside owned := by
  refine ⟨fun _ => [], ⟨?_, ?_, ?_⟩, ?_, ?_, ?_⟩
  · exact fun t _ => ⟨rfl, rfl⟩
  · exact fun t _ => nodup_singleton _
  · intro t t' _ _ hne
    simpa using Ne.symm hne
  · exact fun m => rfl
  · exact fun m => Nat.zero_le 1
  · simp [MutexRun.boot]

variable [DecidableEq μ]

/-- A task takes a mutex that nobody holds. -/
theorem Exclusive.take (h : Exclusive mx inside owned) (t : τ) (hm : mx.count m = 0) :
    Exclusive
      { mx with
        count := update mx.count m 1
        own := listAddTail mx.own (.task t) (.mutex m) }
      (update inside m (t :: inside m)) (update owned t (owned t ++ [m])) := by
  have hnil : inside m = [] := by
    have hcount := h.count_eq m
    exact eq_nil_of_length_eq_zero (by omega)
  constructor
  · rw [map_update (fun _ => OwnNode.mutex), map_append, map_singleton, listAddTail_eq]
    apply h.rings.insertBefore trivial
    intro t' _ hmem
    obtain ⟨m', hm', heq⟩ : ∃ m' ∈ owned t', OwnNode.mutex m' = (OwnNode.mutex m : OwnNode τ μ) := by
      simpa using hmem
    obtain rfl : m' = m := OwnNode.mutex.inj heq
    simp [h.owned_iff, hnil] at hm'
  · intro m'
    by_cases hmm : m' = m
    · subst hmm
      simp [hnil]
    · simp [hmm, h.count_eq m']
  · intro m'
    by_cases hmm : m' = m
    · subst hmm
      simp [hnil]
    · simp [hmm, h.length_le m']
  · intro t' m'
    by_cases htt : t' = t
    · subst htt
      by_cases hmm : m' = m
      · subst hmm
        simp
      · simp [hmm, h.owned_iff]
    · by_cases hmm : m' = m
      · subst hmm
        simp [htt, h.owned_iff, hnil]
      · simp [htt, hmm, h.owned_iff]

theorem Exclusive.not_isListEmpty (h : Exclusive mx inside owned) (ht : t ∈ inside m) :
    isListEmpty mx.own (.mutex m) = false := by
  have hmem : (OwnNode.mutex m : OwnNode τ μ) ∈ (owned t).map OwnNode.mutex :=
    List.mem_map_of_mem ((h.owned_iff t m).mpr ht)
  simpa only [isListEmpty, decide_eq_false_iff_not] using (h.rings.next_ne trivial hmem).1

/-- The holder gives a mutex back. -/
theorem Exclusive.giveBack (h : Exclusive mx inside owned) (ht : t ∈ inside m) :
    Exclusive
      { mx with count := update mx.count m 0, own := listDel mx.own (.mutex m) }
      (update inside m ((inside m).erase t))
      (update owned t ((owned t).erase m)) := by
  have hone : inside m = [t] := h.inside_eq ht
  have hown : m ∈ owned t := (h.owned_iff t m).mpr ht
  have hnodup : (owned t).Nodup :=
    Nodup.of_map _ (nodup_cons.mp (h.rings.nodup t trivial)).2
  have hnode : Injective (OwnNode.mutex : μ → OwnNode τ μ) := fun _ _ => OwnNode.mutex.inj
  constructor
  · rw [map_update (fun _ => OwnNode.mutex), map_erase hnode, listDel_eq]
    exact h.rings.remove trivial (List.mem_map_of_mem hown)
  · intro m'
    by_cases hmm : m' = m
    · subst hmm
      simp [hone]
    · simp [hmm, h.count_eq m']
  · intro m'
    by_cases hmm : m' = m
    · subst hmm
      simp [hone]
    · simp [hmm, h.length_le m']
  · intro t' m'
    by_cases htt : t' = t
    · subst htt
      by_cases hmm : m' = m
      · subst hmm
        simp [hone, hnodup.mem_erase_iff]
      · simp [hmm, h.owned_iff, hnodup.mem_erase_iff]
    · by_cases hmm : m' = m
      · subst hmm
        simp [htt, h.owned_iff, hone]
      · simp [htt, hmm, h.owned_iff]

/-- The loop of `mutex_unlock` leaves the counters and the lists of owned mutexes. -/
theorem unlockLoop_frame {fuel : ℕ} {list : WaitNode τ μ} {s s' : Scheduler τ}
    (h : unlockLoop m fuel list mx s = some (mx', s')) :
    mx'.count = mx.count ∧ mx'.own = mx.own := by
  induction fuel generalizing list mx s with
  | zero => simp [unlockLoop] at h
  | succ fuel ih =>
    cases list with
    | task t =>
      simp only [unlockLoop, reduceCtorEq, if_false] at h
      obtain ⟨hcount, hown⟩ := ih h
      exact ⟨hcount, hown⟩
    | mutex m' =>
      simp only [unlockLoop, ite_none_right_eq_some, some.injEq] at h
      obtain ⟨rfl, -⟩ := Prod.mk.inj h.2
      exact ⟨rfl, rfl⟩

/-- `mutex_unlock` by the holder. -/
theorem Exclusive.mutexUnlock (h : Exclusive mx inside owned) (ht : t ∈ inside m) {fuel : ℕ}
    {s s' : Scheduler τ} (hunlock : mutexUnlock fuel mx s m = some (mx', s')) :
    ∃ owned', Exclusive mx' (update inside m ((inside m).erase t)) owned' := by
  have hcount : mx.count m ≠ 0 := by
    simp [h.count_eq m, h.inside_eq ht]
  have hgive := h.giveBack ht
  have hlinked := h.not_isListEmpty ht
  rw [Mutex.mutexUnlock, if_neg hcount] at hunlock
  obtain ⟨⟨mx₁, s₁⟩, hloop, hres⟩ := map_eq_some_iff.mp hunlock
  obtain ⟨hcount₁, hown₁⟩ := unlockLoop_frame hloop
  simp only [hown₁, hlinked] at hres
  obtain ⟨rfl, -⟩ := Prod.mk.inj hres
  exact ⟨_, hgive.congr hcount₁ rfl⟩

/-- Every step keeps mutual exclusion. -/
theorem MutexRun.step_exclusive {call : MutexCall τ μ} {r r' : MutexRun τ μ}
    (h : ∃ owned, Exclusive r.mutexes r.inside owned) (hstep : MutexRun.step call r = some r') :
    ∃ owned, Exclusive r'.mutexes r'.inside owned := by
  obtain ⟨owned, hex⟩ := h
  cases call with
  | lock t m ms =>
    simp only [MutexRun.step, ite_none_right_eq_some, some.injEq] at hstep
    obtain ⟨-, rfl⟩ := hstep
    exact ⟨owned, hex⟩
  | iterate t =>
    simp only [MutexRun.step] at hstep
    split at hstep
    · rename_i m ms hpc
      unfold lockSection at hstep
      by_cases hcount : r.mutexes.count m = 0
      · simp only [hcount, ne_eq, not_true_eq_false, if_false, if_true, some.injEq] at hstep
        subst hstep
        exact ⟨_, hex.take t hcount⟩
      · simp only [hcount, ne_eq, not_false_eq_true, if_true, Bool.false_eq_true, if_false,
          some.injEq] at hstep
        subst hstep
        exact ⟨owned, hex.congr rfl rfl⟩
    · simp at hstep
  | suspend t =>
    simp only [MutexRun.step] at hstep
    split at hstep
    · split_ifs at hstep
      all_goals
        obtain rfl := some.inj hstep
        exact ⟨owned, hex⟩
    · simp at hstep
  | resume t =>
    simp only [MutexRun.step] at hstep
    split at hstep
    · obtain rfl := some.inj hstep
      exact ⟨owned, hex⟩
    · simp at hstep
  | leave t =>
    simp only [MutexRun.step] at hstep
    split at hstep
    · obtain rfl := some.inj hstep
      exact ⟨owned, hex.congr rfl rfl⟩
    · simp at hstep
  | unlock t m fuel =>
    simp only [MutexRun.step, ite_none_right_eq_some, map_eq_some_iff] at hstep
    obtain ⟨⟨-, ht⟩, ⟨mx', s'⟩, hunlock, rfl⟩ := hstep
    exact hex.mutexUnlock ht hunlock
  | sched irq =>
    obtain ⟨s', -, rfl⟩ := map_eq_some_iff.mp hstep
    exact ⟨owned, hex⟩
  | tick =>
    obtain ⟨s', -, rfl⟩ := map_eq_some_iff.mp hstep
    exact ⟨owned, hex⟩
  | activate t new =>
    simp only [MutexRun.step, ite_none_right_eq_some, some.injEq] at hstep
    obtain ⟨-, rfl⟩ := hstep
    exact ⟨owned, hex⟩
  | wakeup t =>
    obtain rfl := some.inj hstep
    exact ⟨owned, hex⟩
  | sleep irq t timeout =>
    simp only [MutexRun.step, ite_none_right_eq_some, map_eq_some_iff] at hstep
    obtain ⟨-, s', -, rfl⟩ := hstep
    exact ⟨owned, hex⟩

/-- In every run, whatever the order of the steps of any number of tasks: at most one task
is between a successful lock of a mutex and its unlock, the counter is 1 iff there is one,
and `m->task` is linked on the list `mutex_get` of exactly this task. -/
theorem mutex_runs_exclusive (idle : τ) (pid : τ → ℤ) (calls : List (MutexCall τ μ))
    (r : MutexRun τ μ) (hrun : run MutexRun.step calls (MutexRun.boot idle pid) = some r) :
    ∃ owned : τ → List μ,
      Family r.mutexes.own (fun _ => True) OwnNode.task (fun t => (owned t).map OwnNode.mutex) ∧
      ∀ m, (r.inside m).length ≤ 1 ∧ (r.mutexes.count m = 1 ↔ ∃ t, t ∈ r.inside m) ∧
        (r.mutexes.count m = 0 ∨ r.mutexes.count m = 1) ∧
        ∀ t, m ∈ owned t ↔ t ∈ r.inside m := by
  obtain ⟨owned, hex⟩ := invariant_of_run
    (fun _ _ _ => MutexRun.step_exclusive) (boot_exclusive idle pid) hrun
  refine ⟨owned, hex.rings, fun m => ⟨hex.length_le m, ?_, ?_, fun t => hex.owned_iff t m⟩⟩
  · rw [hex.count_eq m, ← length_pos_iff_exists_mem]
    have hle := hex.length_le m
    omega
  · have hcount := hex.count_eq m
    have hle := hex.length_le m
    omega

/-- Task 1 takes the mutex, task 2 has to wait for it, and gets it after the unlock. -/
def handOverCalls : List (MutexCall ℕ Unit) :=
  [.activate 1 .prepare, .activate 2 .prepare, .sched false, .lock 1 () (-1), .iterate 1,
    .sched false, .lock 2 () (-1), .iterate 2, .suspend 2, .sched false, .unlock 1 () 2,
    .sched false, .resume 2, .iterate 2]

/-- The run completes, and the mutex is then held by task 2 alone. -/
theorem mutex_runs_exclusive_handOver :
    ∃ r, run MutexRun.step handOverCalls (MutexRun.boot 0 fun t => (t : ℤ) + 1) = some r ∧
      r.inside () = [2] ∧
      ∃ owned : ℕ → List Unit,
        Family r.mutexes.own (fun _ => True) OwnNode.task (fun t => (owned t).map OwnNode.mutex) ∧
        ∀ m, (r.inside m).length ≤ 1 ∧ (r.mutexes.count m = 1 ↔ ∃ t, t ∈ r.inside m) ∧
          (r.mutexes.count m = 0 ∨ r.mutexes.count m = 1) ∧
          ∀ t, m ∈ owned t ↔ t ∈ r.inside m := by
  exact exists_some_imp (P := fun r => r.inside () = [2]) (by decide +kernel)
    fun r hrun hobs => ⟨hobs, mutex_runs_exclusive 0 _ handOverCalls r hrun⟩

end Chunos.Mutex
