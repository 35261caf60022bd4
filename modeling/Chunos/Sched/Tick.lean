import Chunos.Sched.Inv

/-!
# The timer tick

`os_tick_handler` goes through the sleep list and unlinks tasks from it on the way. A task
that is unlinked keeps its link to the next task, so the loop goes on with the tasks that
were behind it. The loop therefore handles every task that was on the list, and ends.
-/

namespace Chunos.Sched

open Rings Function List

variable {τ : Type*} {s : Scheduler τ} {removed : τ → Prop} {lists : Queue → List τ}

/-- The node at which the loop stands when these tasks of the sleep list are left. -/
def sleepNode : List τ → Node τ
  | [] => .head .sleep
  | t :: _ => .sleep t

variable {kept rest : List τ} {t : τ}

theorem Linked.next_sleep (h : Linked s.links s.count lists)
    (hlist : lists .sleep = kept ++ t :: rest) : s.links.next (.sleep t) = sleepNode rest := by
  have hpath := h.family.path .sleep trivial
  rw [hlist, map_append, map_cons, path_append_cons] at hpath
  cases rest with
  | nil => exact hpath.2.1
  | cons t' rest => exact hpath.2.1

theorem Linked.next_head_sleep (h : Linked s.links s.count lists) :
    s.links.next (.head .sleep) = sleepNode (lists .sleep) := by
  have hpath := h.family.path .sleep trivial
  cases hlist : lists .sleep with
  | nil =>
    rw [hlist] at hpath
    exact hpath.1
  | cons t rest =>
    rw [hlist] at hpath
    exact hpath.1

variable [DecidableEq τ]

/-- Unlinking a node of a ring leaves its link to the next node. -/
theorem Linked.next_del (h : Linked s.links s.count lists) {q : Queue} (hq : q.Valid)
    (ht : t ∈ lists q) :
    (schedListDelTask s q t).links.next (q.node t) = s.links.next (q.node t) := by
  obtain ⟨kept, rest, hlist⟩ := append_of_mem ht
  have hpath := h.family.path q hq
  have hnodup := h.nodup hq
  rw [hlist] at hpath hnodup
  rw [map_append, map_cons, path_append_cons] at hpath
  have hne : q.node t ≠ s.links.pre (q.node t) := by
    intro heq
    have hmem := hpath.1.pre_mem
    rw [← heq] at hmem
    obtain hhead | hkept := mem_cons.mp hmem
    · exact q.node_ne_head q t hhead
    · have htk : t ∈ kept := (List.mem_map_of_injective q.node_injective).mp hkept
      exact (nodup_append.mp hnodup).2.2 t htk t mem_cons_self rfl
  simp [schedListDelTask, listDel_eq, Links.remove, hne]

theorem Linked.next_addTail (h : Linked s.links s.count lists) {q : Queue} (hq : q.Valid)
    {n : Node τ} (hn : n ∉ Node.head q :: (lists q).map q.node) (hne : n ≠ q.node t) :
    (schedListAddTaskTail s q t).links.next n = s.links.next n := by
  have hlast : n ≠ s.links.pre (.head q) := by
    rintro rfl
    exact hn (h.family.path q hq).pre_mem
  simp [schedListAddTaskTail, listAddTail_eq, Links.insertBefore, hne, hlast]

/-- Waking up a sleeping task takes it off the sleep list and appends it to its priority
queue. -/
theorem setTaskState_wake (hstate : (s.task t).state = .sleep) :
    setTaskState s t .prepare =
      schedListAddTaskTail
        (schedListDelTask (s.modify t fun task => { task with state := .prepare }) .sleep t)
        (.prio (s.task t).prio) t := by
  have hqueue : (schedListDelTask (s.modify t fun task => { task with state := .prepare })
      .sleep t).prioQueue t = .prio (s.task t).prio := by
    simp [Scheduler.prioQueue, Scheduler.modify, schedListDelTask]
  simp only [setTaskState, hstate, changeTable, reduceCtorEq, if_false, relink, hqueue]

/-- The lists after a task has gone from the sleep list to the end of a priority queue. -/
def wokenLists (lists : Queue → List τ) (t : τ) (prio : ℤ) : Queue → List τ
  | .sleep => (lists .sleep).erase t
  | .prio i => if i = prio then lists (.prio i) ++ [t] else lists (.prio i)
  | q => lists q

theorem wokenLists_eq (lists : Queue → List τ) (t : τ) (prio : ℤ) :
    wokenLists lists t prio =
      update (update lists .sleep ((lists .sleep).erase t)) (.prio prio)
        (lists (.prio prio) ++ [t]) := by
  funext q
  cases q with
  | prio i =>
    by_cases hi : i = prio
    · subst hi
      simp [wokenLists]
    · simp [wokenLists, hi]
  | system | sleep | idle => simp [wokenLists]

/-- The lists after a sleeping task has been woken up. The loop still finds the next task
behind it. -/
theorem wake_linked (hinv : Inv s removed) (h : Linked s.links s.count lists)
    (hlist : lists .sleep = kept ++ t :: rest) :
    Linked (setTaskState s t .prepare).links (setTaskState s t .prepare).count
      (wokenLists lists t (s.task t).prio) ∧
    (setTaskState s t .prepare).links.next (.sleep t) = sleepNode rest := by
  have ht : t ∈ lists .sleep := by simp [hlist]
  have hsleep : Queue.sleep.Valid := trivial
  obtain ⟨-, hstate⟩ : Belongs s removed .sleep t := (hinv.queues.mem_iff h hsleep).mp ht
  have hprio : (Queue.prio (s.task t).prio).Valid := hinv.prio_ok t
  have hdel := h.del hsleep ht
  have hnext : (schedListDelTask s .sleep t).links.next (.sleep t) = s.links.next (.sleep t) :=
    h.next_del hsleep ht
  have hfree : ∀ q', q'.Valid → q'.node t = (Queue.prio (s.task t).prio).node t →
      t ∉ update lists .sleep ((lists .sleep).erase t) q' := by
    intro q' hq' heq
    cases q' <;> simp only [Queue.node, reduceCtorEq] at heq
    rw [update_of_ne (by simp), hinv.queues.mem_iff h hq']
    simp [Belongs, hstate]
  rw [setTaskState_wake hstate]
  constructor
  · have hadd := Linked.addTail (s := schedListDelTask
      (s.modify t fun task => { task with state := .prepare }) .sleep t) hdel hprio hfree
    rwa [update_of_ne (by simp) _ lists, ← wokenLists_eq] at hadd
  · rw [← h.next_sleep hlist, ← hnext]
    apply Linked.next_addTail (s := schedListDelTask (s.modify t _) .sleep t) hdel hprio
    · simp [Queue.node]
    · simp [Queue.node]

/-- What the timer makes of the waiting time of a sleeping task. -/
def countedDown (waitTime : ℤ) : ℤ := if 0 < waitTime then waitTime - 1 else waitTime

/-- This tick ends the waiting time of a sleeping task. -/
def Expires (task : Task) : Prop := countedDown task.waitTime = 0

instance : DecidablePred Expires := fun _ => inferInstanceAs (Decidable (_ = _))

theorem tickTask_eq (s : Scheduler τ) (t : τ) :
    tickTask s t =
      if Expires (s.task t) then
        setTaskState (s.modify t fun task => { task with waitTime := countedDown task.waitTime }) t
          .prepare
      else s.modify t fun task => { task with waitTime := countedDown task.waitTime } := by
  unfold tickTask
  by_cases hpos : 0 < (s.task t).waitTime
  · simp [Scheduler.modify, Expires, countedDown, hpos]
  · have hsame :
        (s.modify t fun task => { task with waitTime := countedDown task.waitTime }) = s := by
      simp [Scheduler.modify, countedDown, hpos]
    rw [hsame]
    simp [hpos, Expires, countedDown]

/-- The lists after one task of the loop. -/
def tickedLists (s : Scheduler τ) (lists : Queue → List τ) (t : τ) : Queue → List τ :=
  if Expires (s.task t) then wokenLists lists t (s.task t).prio else lists

/-- One task of the loop. -/
theorem tickTask_linked (hinv : Inv s removed) (h : Linked s.links s.count lists)
    (hlist : lists .sleep = kept ++ t :: rest) :
    Keeps removed s (tickTask s t) ∧
    Linked (tickTask s t).links (tickTask s t).count (tickedLists s lists t) ∧
    (tickTask s t).links.next (.sleep t) = sleepNode rest := by
  have hsleep : Queue.sleep.Valid := trivial
  obtain ⟨hremoved, -⟩ : Belongs s removed .sleep t :=
    (hinv.queues.mem_iff h hsleep).mp (by simp [hlist])
  -- Counting down changes no list.
  have hdown := modify_keeps hinv t
    (f := fun task => { task with waitTime := countedDown task.waitTime }) (fun _ => rfl)
    (fun _ => rfl)
  rw [tickTask_eq, tickedLists]
  by_cases hover : Expires (s.task t)
  · rw [if_pos hover, if_pos hover]
    obtain ⟨hlinked, hnext⟩ := wake_linked hdown.inv h hlist
    have hwake := setTaskState_keeps hdown.inv hremoved .prepare (by simp)
    have hprio : ((s.modify t fun task =>
        { task with waitTime := countedDown task.waitTime }).task t).prio = (s.task t).prio := by
      simp [Scheduler.modify]
    rw [hprio] at hlinked
    exact ⟨hdown.trans hwake, hlinked, hnext⟩
  · rw [if_neg hover, if_neg hover]
    exact ⟨hdown, h, h.next_sleep hlist⟩

theorem tickedLists_sleep (h : Linked s.links s.count lists)
    (hlist : lists .sleep = kept ++ t :: rest) :
    tickedLists s lists t .sleep = (kept ++ if Expires (s.task t) then [] else [t]) ++ rest := by
  have hsleep : Queue.sleep.Valid := trivial
  have hkept : t ∉ kept := by
    have hnodup := h.nodup hsleep
    rw [hlist] at hnodup
    exact fun hmem => (nodup_append.mp hnodup).2.2 t hmem t mem_cons_self rfl
  rw [tickedLists]
  by_cases hover : Expires (s.task t)
  · rw [if_pos hover, if_pos hover, wokenLists, hlist, erase_append_right _ hkept,
      erase_cons_head, append_nil]
  · rw [if_neg hover, if_neg hover, hlist, append_assoc, singleton_append]

/-- A task that sleeps is handled by the loop. -/
def TickStep (s s' : Scheduler τ) : Prop := ∃ t, (s.task t).state = .sleep ∧ s' = tickTask s t

/-- The loop of `os_tick_handler` ends and keeps the invariant. All tasks that it handles
sleep. -/
theorem tickLoop_keeps (rest : List τ) (hinv : Inv s removed) (h : Linked s.links s.count lists)
    (hlist : lists .sleep = kept ++ rest) :
    ∃ s', tickLoop (rest.length + 1) (sleepNode rest) s = some s' ∧ Keeps removed s s' ∧
      Relation.ReflTransGen TickStep s s' := by
  induction rest generalizing s lists kept with
  | nil => exact ⟨s, rfl, hinv.keeps, Relation.ReflTransGen.refl⟩
  | cons t rest ih =>
    have hsleep : Queue.sleep.Valid := trivial
    obtain ⟨-, hstate⟩ : Belongs s removed .sleep t :=
      (hinv.queues.mem_iff h hsleep).mp (by simp [hlist])
    obtain ⟨hkeeps, h', hnext⟩ := tickTask_linked hinv h hlist
    obtain ⟨s', hs', hrest, hpath⟩ := ih hkeeps.inv h' (tickedLists_sleep h hlist)
    refine ⟨s', ?_, hkeeps.trans hrest, hpath.head ⟨t, hstate, rfl⟩⟩
    rw [← hs', ← hnext]
    simp [tickLoop, sleepNode]

theorem Inv.tickLoop (hinv : Inv s removed) :
    ∃ s', tickLoop ((s.count .sleep).toNat + 1) (s.links.next (.head .sleep)) s = some s' ∧
      Keeps removed s s' ∧ Relation.ReflTransGen TickStep s s' := by
  obtain ⟨lists, hlinked, -⟩ := hinv.queues
  rw [hlinked.counts .sleep trivial, Int.toNat_natCast, hlinked.next_head_sleep]
  exact tickLoop_keeps (lists .sleep) hinv hlinked (nil_append _).symm

end Chunos.Sched
