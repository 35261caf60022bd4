import Chunos.Sched.Basic

/-!
# The lists of the scheduler

The list heads of the scheduler and the nodes in the tasks form rings, and each counter is
the length of its ring. `Queues` says so and also which tasks are on which list. The list
operations change that in the obvious way, provided that a task that is put on a list is
not on a list that uses the same node, and that a task that is unlinked is on the list.
-/

namespace Chunos.Sched

open Rings Function List

variable {τ : Type*} {s : Scheduler τ}

/-- The lists that exist: the table has `TASK_MAX_PRIO` entries. -/
def Queue.Valid : Queue → Prop
  | .prio i => 0 ≤ i ∧ i < taskMaxPrio
  | _ => True

/-- The heads of all lists are the heads of disjoint rings, the tasks on list `q` are
those of `lists q` in this order, and the counter of the list is its length. -/
structure Linked (links : Links (Node τ)) (count : Queue → ℤ) (lists : Queue → List τ) : Prop where
  family : Family links Queue.Valid Node.head (fun q => (lists q).map q.node)
  counts : ∀ q, q.Valid → count q = (lists q).length

/-- The lists are linked, and the tasks on list `q` are those with `B q`. -/
def Queues (links : Links (Node τ)) (count : Queue → ℤ) (B : Queue → τ → Prop) : Prop :=
  ∃ lists : Queue → List τ, Linked links count lists ∧ ∀ q, q.Valid → ∀ t, t ∈ lists q ↔ B q t

theorem Queue.node_injective (q : Queue) : Injective fun t : τ => q.node t := by
  intro t t' h
  cases q <;> simpa [Queue.node] using h

theorem Queue.node_ne_head (q q' : Queue) (t : τ) : q.node t ≠ Node.head q' := by
  cases q <;> simp [Queue.node]

variable {q : Queue} {t : τ} {count : Queue → ℤ} {links : Links (Node τ)} {lists : Queue → List τ}
  {B : Queue → τ → Prop}

theorem Queue.eq_of_node_eq {q' : Queue} {t' : τ} (h : q.node t = q'.node t') : t = t' := by
  cases q <;> cases q' <;> simp_all [Queue.node]

theorem Linked.nodup (h : Linked links count lists) (hq : q.Valid) : (lists q).Nodup :=
  Nodup.of_map q.node (nodup_cons.mp (h.family.nodup q hq)).2

theorem Linked.unique {lists' : Queue → List τ} (h : Linked links count lists)
    (h' : Linked links count lists') (hq : q.Valid) : lists q = lists' q := by
  have hmap := (h.family.path q hq).unique (h'.family.path q hq)
    (nodup_cons.mp (h.family.nodup q hq)).1 (nodup_cons.mp (h'.family.nodup q hq)).1
  exact map_injective_iff.mpr q.node_injective hmap

theorem Queues.congr {B' : Queue → τ → Prop} (h : Queues links count B)
    (hB : ∀ q, q.Valid → ∀ t, B q t ↔ B' q t) : Queues links count B' := by
  obtain ⟨lists, hlinked, hmem⟩ := h
  exact ⟨lists, hlinked, fun q hq t => (hmem q hq t).trans (hB q hq t)⟩

theorem Queues.mem_iff (h : Queues links count B) (hlinked : Linked links count lists)
    (hq : q.Valid) : t ∈ lists q ↔ B q t := by
  obtain ⟨lists', hlinked', hmem⟩ := h
  rw [hlinked.unique hlinked' hq]
  exact hmem q hq t

theorem not_mem_ring (hfree : ∀ q', q'.Valid → q'.node t = q.node t → t ∉ lists q') (q' : Queue)
    (hq' : q'.Valid) : q.node t ∉ Node.head q' :: (lists q').map q'.node := by
  intro hin
  obtain hin | hin := mem_cons.mp hin
  · exact q.node_ne_head q' t hin
  · obtain ⟨t', ht', heq⟩ := List.mem_map.mp hin
    obtain rfl := Queue.eq_of_node_eq heq
    exact hfree q' hq' heq ht'

theorem counts_update (hcounts : ∀ q, q.Valid → count q = (lists q).length) {n : ℤ} {l : List τ}
    (hn : n = l.length) : ∀ q', q'.Valid → update count q n q' = (update lists q l q').length := by
  intro q' hq'
  by_cases hqq : q' = q
  · subst hqq
    simpa only [update_self] using hn
  · rw [update_of_ne hqq, update_of_ne hqq]
    exact hcounts q' hq'

theorem mem_update_iff (hmem : ∀ q, q.Valid → ∀ t, t ∈ lists q ↔ B q t) {l : List τ}
    {B' : Queue → τ → Prop} (hl : ∀ t, t ∈ l ↔ B' q t) (hB' : ∀ q' ≠ q, ∀ t, B' q' t ↔ B q' t)
    (q' : Queue) (hq' : q'.Valid) (t : τ) : t ∈ update lists q l q' ↔ B' q' t := by
  by_cases hqq : q' = q
  · subst hqq
    rw [update_self, hl]
  · rw [update_of_ne hqq, hB' q' hqq, hmem q' hq']

variable [DecidableEq τ]

/-- `sched_list_add_task_tail` appends a task to a list. -/
theorem Linked.addTail (h : Linked s.links s.count lists) (hq : q.Valid)
    (hfree : ∀ q', q'.Valid → q'.node t = q.node t → t ∉ lists q') :
    Linked (schedListAddTaskTail s q t).links (schedListAddTaskTail s q t).count
      (update lists q (lists q ++ [t])) := by
  constructor
  · rw [map_update Queue.node, map_append, map_singleton]
    simp only [schedListAddTaskTail, listAddTail_eq]
    exact h.family.insertBefore hq (not_mem_ring hfree)
  · apply counts_update h.counts
    rw [h.counts q hq, length_append, length_singleton, Nat.cast_add, Nat.cast_one]

/-- `sched_list_add_task` puts a task in front of a list. -/
theorem Linked.add (h : Linked s.links s.count lists) (hq : q.Valid)
    (hfree : ∀ q', q'.Valid → q'.node t = q.node t → t ∉ lists q') :
    Linked (schedListAddTask s q t).links (schedListAddTask s q t).count
      (update lists q (t :: lists q)) := by
  constructor
  · rw [map_update Queue.node, map_cons]
    simp only [schedListAddTask, listAdd_eq]
    exact h.family.insertAfter hq (not_mem_ring hfree)
  · apply counts_update h.counts
    rw [h.counts q hq, length_cons, Nat.cast_add, Nat.cast_one]

/-- `sched_list_del_task` erases a task from a list. -/
theorem Linked.del (h : Linked s.links s.count lists) (hq : q.Valid) (ht : t ∈ lists q) :
    Linked (schedListDelTask s q t).links (schedListDelTask s q t).count
      (update lists q ((lists q).erase t)) := by
  constructor
  · rw [map_update Queue.node, map_erase q.node_injective]
    simp only [schedListDelTask, listDel_eq]
    exact h.family.remove hq (List.mem_map_of_mem ht)
  · apply counts_update h.counts
    have hpos := length_pos_of_mem ht
    rw [h.counts q hq, length_erase_of_mem ht]
    omega

theorem Queues.addTail (h : Queues s.links s.count B) (hq : q.Valid)
    (hfree : ∀ q', q'.Valid → q'.node t = q.node t → ¬ B q' t) :
    Queues (schedListAddTaskTail s q t).links (schedListAddTaskTail s q t).count
      (fun q' t' => B q' t' ∨ q' = q ∧ t' = t) := by
  obtain ⟨lists, hlinked, hmem⟩ := h
  refine ⟨_, hlinked.addTail hq ?_, mem_update_iff hmem ?_ ?_⟩
  · exact fun q' hq' heq ht => hfree q' hq' heq ((hmem q' hq' t).mp ht)
  · simp [hmem q hq]
  · simp +contextual

theorem Queues.add (h : Queues s.links s.count B) (hq : q.Valid)
    (hfree : ∀ q', q'.Valid → q'.node t = q.node t → ¬ B q' t) :
    Queues (schedListAddTask s q t).links (schedListAddTask s q t).count
      (fun q' t' => B q' t' ∨ q' = q ∧ t' = t) := by
  obtain ⟨lists, hlinked, hmem⟩ := h
  refine ⟨_, hlinked.add hq ?_, mem_update_iff hmem ?_ ?_⟩
  · exact fun q' hq' heq ht => hfree q' hq' heq ((hmem q' hq' t).mp ht)
  · simp [hmem q hq, or_comm]
  · simp +contextual

theorem Queues.del (h : Queues s.links s.count B) (hq : q.Valid) (hin : B q t) :
    Queues (schedListDelTask s q t).links (schedListDelTask s q t).count
      (fun q' t' => B q' t' ∧ ¬ (q' = q ∧ t' = t)) := by
  obtain ⟨lists, hlinked, hmem⟩ := h
  refine ⟨_, hlinked.del hq ((hmem q hq t).mpr hin), mem_update_iff hmem ?_ ?_⟩
  · simp [(hlinked.nodup hq).mem_erase_iff, hmem q hq, and_comm]
  · simp +contextual

end Chunos.Sched
