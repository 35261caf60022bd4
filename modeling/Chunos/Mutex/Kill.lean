import Chunos.Mutex.Wakeup

/-!
# Killing a task

`kill_task` takes the task off the wait list that it is on and unlocks the mutexes that it has
got. A node keeps its links when it is unlinked, so the node of a task that has waited before
looks as if it was on a list. Unlinking it again links its former neighbours to each other, and
the tasks that have come between them are not on the list any more. As long as the task is on
a list, or its former neighbours are still linked to each other, only the tasks leave a wait
list that are woken up because the mutex was released.
-/

namespace Chunos.Mutex

open Rings Sched Runs Function List Option

variable {τ μ : Type*}

/-- The wait lists are rings, of different tasks. -/
def WaitRings (wait : Links (WaitNode τ μ)) (waiting : μ → List τ) : Prop :=
  Family wait (fun _ => True) WaitNode.mutex (fun m => (waiting m).map .task)

/-- The nodes to which the node of a task is linked are linked to each other. -/
def Unhooked (wait : Links (WaitNode τ μ)) (t : τ) : Prop :=
  wait.next (wait.pre (.task t)) = wait.next (.task t) ∧
    wait.pre (wait.next (.task t)) = wait.pre (.task t)

/-- The node at which the loop of `kill_task` stands when these mutexes are left. -/
def ownNode (t : τ) : List μ → OwnNode τ μ
  | [] => .task t
  | m :: _ => .mutex m

variable {waiting : μ → List τ} {mx : Mutexes τ μ} {s : Scheduler τ} {t : τ}

variable {m : μ} {fuel : ℕ}

theorem WaitRings.eq_of_mem {wait : Links (WaitNode τ μ)} (h : WaitRings wait waiting) {m' : μ}
    (ht : t ∈ waiting m) (ht' : t ∈ waiting m') : m = m' := by
  by_contra hne
  exact h.disjoint m m' trivial trivial hne (mem_cons_of_mem _ (List.mem_map_of_mem ht))
    (mem_cons_of_mem _ (List.mem_map_of_mem ht'))

theorem next_ownNode {own : Links (OwnNode τ μ)} {a : OwnNode τ μ} {l : List μ}
    (h : Path own a (l.map .mutex) (.task t)) : own.next a = ownNode t l := by
  cases l with
  | nil => exact h.1
  | cons m l => exact h.1

variable [DecidableEq τ] [DecidableEq μ]

/-- The statement of `kill_task` that takes the task off a wait list. -/
def killWait (mx : Mutexes τ μ) (t : τ) : Mutexes τ μ :=
  if isListEmpty mx.wait (.task t) then mx else delWait mx t

/-- The loop of `kill_task` over `mutex_get`, from node `list` on. It is `none` without fuel,
and when it comes to the head of another list, which is no mutex. -/
def killLoop (t : τ) (unlockFuel : ℕ) : ℕ → OwnNode τ μ → Mutexes τ μ → Scheduler τ →
    Option (Mutexes τ μ × Scheduler τ)
  | 0, _, _, _ => none
  | fuel + 1, list, mx, s =>
    if list = .task t then some (mx, s)
    else
      match list with
      | .mutex m =>
        (mutexUnlock unlockFuel mx s m).bind fun (mx, s) =>
          killLoop t unlockFuel fuel (mx.own.next list) mx s
      | .task _ => none

/-- The part of `kill_task` for the mutexes that the task waits for and has got. -/
def killTask (fuel : ℕ) (mx : Mutexes τ μ) (s : Scheduler τ) (t : τ) :
    Option (Mutexes τ μ × Scheduler τ) :=
  let mx := killWait mx t
  killLoop t fuel fuel (mx.own.next (.task t)) mx s

/-- A task that is on a wait list, or whose node is linked to neighbours of each other, is taken
off the lists, and no other task is. -/
theorem WaitRings.killWait (h : WaitRings mx.wait waiting)
    (hnode : (∃ m, LinkedOn mx.wait m t) ∨ Unhooked mx.wait t) :
    WaitRings (killWait mx t).wait fun m => (waiting m).erase t := by
  by_cases hlinked : ∃ m, t ∈ waiting m
  · obtain ⟨m, ht⟩ := hlinked
    have hmem : (WaitNode.task t : WaitNode τ μ) ∈ (waiting m).map .task := List.mem_map_of_mem ht
    have hne := (h.next_ne trivial hmem).1
    have hnode : Injective (WaitNode.task : τ → WaitNode τ μ) := fun _ _ =>
      WaitNode.task.inj
    have hlists : (fun m => (waiting m).erase t) = update waiting m ((waiting m).erase t) := by
      funext m'
      by_cases hmm : m' = m
      · rw [hmm, update_self]
      · rw [update_of_ne hmm, erase_of_not_mem]
        exact fun ht' => hmm (h.eq_of_mem ht' ht)
    have hremove := h.remove trivial hmem
    rw [← map_erase hnode, ← map_update (fun _ => WaitNode.task), ← hlists] at hremove
    have hdel : Mutex.killWait mx t = delWait mx t := by simp [Mutex.killWait, isListEmpty, hne]
    rw [hdel, delWait, listDel_eq]
    exact hremove
  · -- The links of the node lead to nodes that are linked to each other already.
    have hfree : ∀ m, t ∉ waiting m := fun m ht => hlinked ⟨m, ht⟩
    have hunhooked : Unhooked mx.wait t := by
      rcases hnode with ⟨m, hm⟩ | hnode
      · exact absurd ((linkedOn_iff_mem h m t).mp hm) (hfree m)
      · exact hnode
    have hsame : (Mutex.killWait mx t).wait = mx.wait := by
      obtain ⟨hnext, hpre⟩ := hunhooked
      unfold Mutex.killWait
      split_ifs
      · rfl
      · rw [delWait, listDel_eq, Links.remove, update_eq_self_iff.mpr hnext.symm,
          update_eq_self_iff.mpr hpre.symm]
    have hlists : (fun m => (waiting m).erase t) = waiting :=
      funext fun m => erase_of_not_mem (hfree m)
    rw [hsame, hlists]
    exact h

/-- The loop of `mutex_unlock` empties the wait list. It wakes up all tasks that were on it, and
puts none to sleep. -/
theorem WaitRings.unlockLoop (rest : List τ) (hfuel : rest.length < fuel)
    (h : WaitRings mx.wait (update waiting m rest)) :
    ∃ mx' s', unlockLoop m fuel (waitNode m rest) mx s = some (mx', s') ∧
      WaitRings mx'.wait (update waiting m []) ∧
      (∀ t ∈ rest, (s'.task t).state ≠ .sleep) ∧
      ∀ t, (s.task t).state ≠ .sleep → (s'.task t).state ≠ .sleep := by
  induction rest generalizing fuel mx s with
  | nil =>
    obtain ⟨fuel, rfl⟩ := Nat.exists_eq_add_one_of_ne_zero (Nat.ne_zero_of_lt hfuel)
    exact ⟨mx, s, by simp [Mutex.unlockLoop, waitNode], h, by simp, fun _ ht => ht⟩
  | cons t rest ih =>
    obtain ⟨fuel, rfl⟩ := Nat.exists_eq_add_one_of_ne_zero (Nat.ne_zero_of_lt hfuel)
    obtain ⟨hrings, hnext⟩ := delWait_first h
    obtain ⟨mx', s', hloop, hfinal, hwoken, hawake⟩ := ih (Nat.lt_of_succ_lt_succ hfuel) hrings
      (s := (wakeupTask s t).2)
    have hself : ((wakeupTask s t).2.task t).state ≠ .sleep := by
      by_cases hstate : (s.task t).state = .sleep
      · simp [wakeupTask_task hstate]
      · simp [wakeupTask, hstate]
    have hothers : ∀ t', (s.task t').state ≠ .sleep →
        ((wakeupTask s t).2.task t').state ≠ .sleep := by
      intro t' ht'
      by_cases htt : t' = t
      · exact htt ▸ hself
      · by_cases hstate : (s.task t).state = .sleep
        · simpa [wakeupTask_task hstate, htt] using ht'
        · simpa [wakeupTask, hstate] using ht'
    refine ⟨mx', s', ?_, hfinal, ?_, fun t' ht' => hawake t' (hothers t' ht')⟩
    · simpa [Mutex.unlockLoop, waitNode, hnext] using hloop
    · intro t' ht'
      obtain rfl | ht' := mem_cons.mp ht'
      · exact hawake t' hself
      · exact hwoken t' ht'

/-- `mutex_unlock` of a mutex that is held. -/
theorem WaitRings.mutexUnlock (h : WaitRings mx.wait waiting) (hcount : mx.count m ≠ 0)
    (hown : isListEmpty mx.own (.mutex m) = false) (hfuel : (waiting m).length < fuel) :
    ∃ mx' s', mutexUnlock fuel mx s m = some (mx', s') ∧ WaitRings mx'.wait (update waiting m []) ∧
      mx'.count = update mx.count m 0 ∧ mx'.own = listDel mx.own (.mutex m) ∧
      (∀ t ∈ waiting m, (s'.task t).state ≠ .sleep) ∧
      ∀ t, (s.task t).state ≠ .sleep → (s'.task t).state ≠ .sleep := by
  have hrings : WaitRings ({ mx with count := update mx.count m 0 } : Mutexes τ μ).wait
      (update waiting m (waiting m)) := by
    rw [update_eq_self]
    exact h
  obtain ⟨mx', s', hloop, hfinal, hwoken, hawake⟩ := hrings.unlockLoop (s := s) (waiting m) hfuel
  obtain ⟨hcount', hown'⟩ := unlockLoop_frame hloop
  have hnext : mx.wait.next (.mutex m) = waitNode m (waiting m) := next_waitNode (h.path m trivial)
  refine ⟨{ mx' with own := listDel mx'.own (.mutex m) }, s', ?_, hfinal, hcount', ?_, hwoken,
    hawake⟩
  · rw [Mutex.mutexUnlock, if_neg hcount]
    simp only [hnext, hloop, map_some, hown', hown, Bool.false_eq_true, if_false]
  · simp only [hown']

/-- The loop of `kill_task` unlocks the mutexes that the task has got. -/
theorem Exclusive.killLoop (rest : List μ) {inside : μ → List τ} {owned : τ → List μ}
    {unlockFuel : ℕ} (h : Exclusive mx inside owned) (hrest : owned t = rest)
    (hrings : WaitRings mx.wait waiting) (hunlock : ∀ m ∈ rest, (waiting m).length < unlockFuel)
    (hfuel : rest.length < fuel) :
    ∃ mx' s' owned', killLoop t unlockFuel fuel (ownNode t rest) mx s = some (mx', s') ∧
      Exclusive mx' (fun m => (inside m).erase t) owned' ∧
      WaitRings mx'.wait (fun m => if t ∈ inside m then [] else waiting m) ∧
      (∀ m, t ∈ inside m → ∀ t' ∈ waiting m, (s'.task t').state ≠ .sleep) ∧
      ∀ t', (s.task t').state ≠ .sleep → (s'.task t').state ≠ .sleep := by
  induction rest generalizing fuel mx s inside owned waiting with
  | nil =>
    obtain ⟨fuel, rfl⟩ := Nat.exists_eq_add_one_of_ne_zero (Nat.ne_zero_of_lt hfuel)
    have hnot : ∀ m, t ∉ inside m := fun m hm => by
      simpa [hrest] using (h.owned_iff t m).mpr hm
    refine ⟨mx, s, owned, by simp [Mutex.killLoop, ownNode], ?_, ?_, ?_, fun _ ht => ht⟩
    · simpa only [erase_of_not_mem (hnot _)] using h
    · simpa only [hnot, if_false] using hrings
    · exact fun m hm => absurd hm (hnot m)
  | cons m rest ih =>
    obtain ⟨fuel, rfl⟩ := Nat.exists_eq_add_one_of_ne_zero (Nat.ne_zero_of_lt hfuel)
    have ht : t ∈ inside m := (h.owned_iff t m).mp (by simp [hrest])
    have hone : inside m = [t] := h.inside_eq ht
    have hcount : mx.count m ≠ 0 := by simp [h.count_eq m, hone]
    obtain ⟨mx₁, s₁, hstep, hrings₁, hcount₁, hown₁, hwoken₁, hawake₁⟩ :=
      hrings.mutexUnlock (s := s) hcount (h.not_isListEmpty ht) (hunlock m mem_cons_self)
    have hex₁ : Exclusive mx₁ (update inside m ((inside m).erase t))
        (update owned t ((owned t).erase m)) :=
      (h.giveBack ht).congr hcount₁ hown₁
    have hrest₁ : update owned t ((owned t).erase m) t = rest := by
      simp [hrest]
    have hlength₁ : ∀ m' ∈ rest, (update waiting m [] m').length < unlockFuel := by
      intro m' hm'
      by_cases hmm : m' = m
      · subst hmm
        rw [update_self]
        exact Nat.zero_lt_of_lt (hunlock m' mem_cons_self)
      · rw [update_of_ne hmm]
        exact hunlock m' (mem_cons_of_mem m hm')
    obtain ⟨mx', s', owned', hloop, hex', hrings', hwoken', hawake'⟩ :=
      ih (s := s₁) hex₁ hrest₁ hrings₁ hlength₁ (Nat.lt_of_succ_lt_succ hfuel)
    -- The mutex has been unlinked, and keeps its link to the next one.
    have hnext : mx₁.own.next (.mutex m) = ownNode t rest := by
      have hpath := h.rings.path t trivial
      rw [hrest, map_cons] at hpath
      rw [hown₁, ← next_ownNode hpath.2.2]
      simp [listDel_eq, Links.remove, hpath.2.1]
    have hinside : ∀ m', t ∈ update inside m ((inside m).erase t) m' ↔ t ∈ inside m' ∧ m' ≠ m := by
      intro m'
      by_cases hmm : m' = m
      · simp [hmm, hone]
      · simp [hmm]
    refine ⟨mx', s', owned', ?_, ?_, ?_, ?_, fun t' ht' => hawake' t' (hawake₁ t' ht')⟩
    · simpa [Mutex.killLoop, ownNode, hstep, hnext] using hloop
    · have hsame : (fun m' => (update inside m ((inside m).erase t) m').erase t) =
          fun m' => (inside m').erase t := by
        funext m'
        by_cases hmm : m' = m
        · simp [hmm, hone]
        · simp [hmm]
      exact hsame ▸ hex'
    · have hsame : (fun m' => if t ∈ update inside m ((inside m).erase t) m' then []
          else update waiting m [] m') =
          fun m' => if t ∈ inside m' then [] else waiting m' := by
        funext m'
        simp only [hinside]
        by_cases hmm : m' = m
        · simp [hmm, ht]
        · simp [hmm]
      exact hsame ▸ hrings'
    · intro m' hm' t' ht'
      by_cases hmm : m' = m
      · subst hmm
        exact hawake' t' (hwoken₁ t' ht')
      · exact hwoken' m' ((hinside m').mpr ⟨hm', hmm⟩) t' (by simpa [hmm] using ht')

/-- The part of `kill_task` for the mutexes, on lists that are intact. -/
theorem Exclusive.killTask {inside : μ → List τ} {owned : τ → List μ}
    (h : Exclusive mx inside owned) (hrings : WaitRings mx.wait waiting)
    (hnode : (∃ m, LinkedOn mx.wait m t) ∨ Unhooked mx.wait t) :
    ∃ n, ∀ fuel ≥ n, ∃ mx' s' owned', killTask fuel mx s t = some (mx', s') ∧
      Exclusive mx' (fun m => (inside m).erase t) owned' ∧
      WaitRings mx'.wait (fun m => if t ∈ inside m then [] else (waiting m).erase t) ∧
      ∀ m, t ∈ inside m → ∀ t' ∈ (waiting m).erase t, (s'.task t').state ≠ .sleep := by
  have hframe : (killWait mx t).count = mx.count ∧ (killWait mx t).own = mx.own := by
    unfold killWait
    split_ifs
    · exact ⟨rfl, rfl⟩
    · exact ⟨rfl, rfl⟩
  have hex : Exclusive (killWait mx t) inside owned := h.congr hframe.1 hframe.2
  refine ⟨(owned t).length + ((owned t).map fun m => ((waiting m).erase t).length).sum + 1,
    fun fuel hfuel => ?_⟩
  have hlength : ∀ m ∈ owned t, ((waiting m).erase t).length < fuel := by
    intro m hm
    have hle := single_le_sum (fun _ _ => Nat.zero_le _) _
      (List.mem_map_of_mem (f := fun m => ((waiting m).erase t).length) hm)
    omega
  obtain ⟨mx', s', owned', hloop, hex', hrings', hwoken, -⟩ :=
    hex.killLoop (owned t) (s := s) rfl (hrings.killWait hnode) hlength
      (show (owned t).length < fuel by omega)
  refine ⟨mx', s', owned', ?_, hex', hrings', hwoken⟩
  have hnext := next_ownNode (hex.rings.path t trivial)
  simpa only [Mutex.killTask, hnext] using hloop

/-- After every history of locking and unlocking, killing a task takes it off the wait list it
is on and releases every mutex it holds. No other task leaves a wait list, except for those that
are woken up because the mutex was released. The wait lists have to be intact, and the task on
one of them or its node linked to nodes that are linked to each other. -/
theorem killTask_runs (idle : τ) (pid : τ → ℤ) (calls : List (MutexCall τ μ)) (r : MutexRun τ μ)
    (hrun : run MutexRun.step calls (MutexRun.boot idle pid) = some r) (t : τ)
    (hrings : ∃ waiting, WaitRings r.mutexes.wait waiting)
    (hnode : (∃ m, LinkedOn r.mutexes.wait m t) ∨ Unhooked r.mutexes.wait t) :
    ∃ n, ∀ fuel ≥ n, ∃ mx s, killTask fuel r.mutexes r.sched t = some (mx, s) ∧
      (∀ m, ¬ LinkedOn mx.wait m t) ∧
      (∀ m, mx.count m = if t ∈ r.inside m then 0 else r.mutexes.count m) ∧
      (∃ owned : τ → List μ,
        Family mx.own (fun _ => True) OwnNode.task (fun t => (owned t).map OwnNode.mutex) ∧
        ∀ t' m, m ∈ owned t' ↔ t' ∈ r.inside m ∧ t' ≠ t) ∧
      ∀ m t', t' ≠ t → (LinkedOn mx.wait m t' ↔ LinkedOn r.mutexes.wait m t' ∧ t ∉ r.inside m) ∧
        (LinkedOn r.mutexes.wait m t' → t ∈ r.inside m → (s.task t').state ≠ .sleep) := by
  obtain ⟨waiting, hrings⟩ := hrings
  obtain ⟨owned, hex⟩ := invariant_of_run
    (fun _ _ _ => MutexRun.step_exclusive) (boot_exclusive idle pid) hrun
  have hnodup : ∀ m, (waiting m).Nodup := fun m =>
    Nodup.of_map _ (nodup_cons.mp (hrings.nodup m trivial)).2
  obtain ⟨n, hkill⟩ := hex.killTask (s := r.sched) hrings hnode
  refine ⟨n, fun fuel hfuel => ?_⟩
  obtain ⟨mx, s, owned', hres, hex', hrings', hwoken⟩ := hkill fuel hfuel
  have hmem : ∀ m t', LinkedOn mx.wait m t' ↔ t' ∈ waiting m ∧ t' ≠ t ∧ t ∉ r.inside m := by
    intro m t'
    rw [linkedOn_iff_mem hrings' m t']
    split_ifs with ht
    · simp [ht]
    · rw [(hnodup m).mem_erase_iff]
      tauto
  refine ⟨mx, s, hres, ?_, ?_, ⟨owned', hex'.rings, ?_⟩, ?_⟩
  · intro m hm
    exact ((hmem m t).mp hm).2.1 rfl
  · intro m
    rw [hex'.count_eq, hex.count_eq]
    split_ifs with ht
    · simp [hex.inside_eq ht]
    · rw [erase_of_not_mem ht]
  · intro t' m
    rw [hex'.owned_iff]
    by_cases ht : t ∈ r.inside m
    · simp [hex.inside_eq ht]
    · rw [erase_of_not_mem ht, iff_self_and]
      rintro ht' rfl
      exact ht ht'
  · intro m t' htt
    rw [hmem, linkedOn_iff_mem hrings m t']
    constructor
    · simp [htt]
    · intro ht' hheld
      exact hwoken m hheld t' (((hnodup m).mem_erase_iff).mpr ⟨htt, ht'⟩)

/-- Task 1 holds the mutex, and tasks 2 and 3 wait for it. -/
def twoWaitCalls : List (MutexCall ℕ Unit) :=
  [.activate 1 .prepare, .activate 2 .prepare, .activate 3 .prepare, .lock 1 () (-1), .iterate 1,
    .lock 2 () (-1), .iterate 2, .suspend 2, .lock 3 () (-1), .iterate 3, .suspend 3]

/-- Killing task 2, which is on the wait list, leaves task 3 on it. -/
theorem killTask_runs_twoWait :
    ∃ r, run MutexRun.step twoWaitCalls (MutexRun.boot 0 fun t => (t : ℤ) + 1) = some r ∧
      ∃ n, ∀ fuel ≥ n, ∃ mx s, killTask fuel r.mutexes r.sched 2 = some (mx, s) ∧
        ¬ LinkedOn mx.wait () 2 ∧ LinkedOn mx.wait () 3 := by
  have hcalm : Meets MutexRun.step (fun call r => r.CalmWithin 3 call) twoWaitCalls
      (MutexRun.boot 0 fun t => (t : ℤ) + 1) := by
    decide +kernel
  refine exists_some_imp (P := fun r => r.inside () = [1] ∧
    waitLoop r.mutexes.wait () 3 (r.mutexes.wait.next (.mutex ())) = some [2, 3])
    (by decide +kernel) fun r hrun ⟨hinside, hlist⟩ => ?_
  obtain ⟨waiting, hwaiting⟩ := invariant_of_meets (fun _ _ _ => MutexRun.step_waiting)
    (boot_waiting 0 _) (hcalm.mono fun _ _ => MutexRun.CalmWithin.calm) hrun
  have hlinked : ∀ t, LinkedOn r.mutexes.wait () t ↔ t ∈ [2, 3] := linkedOn_iff hlist
  obtain ⟨n, hkill⟩ := killTask_runs 0 _ twoWaitCalls r hrun 2 ⟨waiting, hwaiting.rings⟩
    (Or.inl ⟨(), (hlinked 2).mpr (by decide)⟩)
  refine ⟨n, fun fuel hfuel => ?_⟩
  obtain ⟨mx, s, hres, hgone, -, -, hothers⟩ := hkill fuel hfuel
  refine ⟨mx, s, hres, hgone (), (hothers () 3 (by decide)).1.mpr ⟨(hlinked 3).mpr (by decide), ?_⟩⟩
  simp [hinside]

/-- Task 2 waits for the mutex of task 1, gets it and gives it back. Then task 1 has the mutex
again, and task 3 waits for it. -/
def waitedCalls : List (MutexCall ℕ Unit) :=
  handOverCalls ++ [.unlock 2 () 1, .sched false, .lock 1 () (-1),
    .iterate 1, .activate 3 .prepare, .sched false, .lock 3 () (-1), .iterate 3, .suspend 3,
    .sched false]

/-- Killing task 2, which waits for nothing and holds nothing, drops task 3 from the list. -/
theorem waitedCalls_killTask :
    ∃ r mx s, run MutexRun.step waitedCalls (MutexRun.boot 0 fun t => (t : ℤ) + 1) = some r ∧
      r.inside () = [1] ∧ (r.pc 2).mutex = none ∧ LinkedOn r.mutexes.wait () 3 ∧
      (r.sched.task 3).state = .sleep ∧
      killTask 2 r.mutexes r.sched 2 = some (mx, s) ∧ ¬ LinkedOn mx.wait () 3 ∧
      (s.task 3).state = .sleep := by
  obtain ⟨r, hrun, hinside, hpc, hsleep, hlist, ⟨mx, s⟩, hkill, hlist', hsleep'⟩ :
      ∃ r, run MutexRun.step waitedCalls (MutexRun.boot 0 fun t => (t : ℤ) + 1) = some r ∧
        r.inside () = [1] ∧ (r.pc 2).mutex = none ∧ (r.sched.task 3).state = .sleep ∧
        waitLoop r.mutexes.wait () 2 (r.mutexes.wait.next (.mutex ())) = some [3] ∧
        ∃ x, killTask 2 r.mutexes r.sched 2 = some x ∧
          waitLoop x.1.wait () 1 (x.1.wait.next (.mutex ())) = some [] ∧
          (x.2.task 3).state = .sleep := by
    decide +kernel
  refine ⟨r, mx, s, hrun, hinside, hpc, ?_, hsleep, hkill, ?_, hsleep'⟩
  · rw [linkedOn_iff hlist]
    exact mem_singleton_self 3
  · rw [linkedOn_iff hlist']
    exact not_mem_nil

end Chunos.Mutex
