import Chunos.Kernel.KillTask
import Chunos.Mm.TaskRuns
import Chunos.Sched.Pid

/-!
# Creating a task

`do_fork` obtains one thing after another for a new task: its `struct task_struct`, a process
number, a table of open files, a place on a list of children, its memory and a kernel stack. All
failures share one exit, which gives back the `struct task_struct` only. The result of copying the
memory of the parent is not looked at, so a child whose copy has failed runs.
-/

namespace Chunos.Fork

open Function List Option Pid Sched Kill TaskMm Pgt
open Rings (Links)

/-- What is allocated for a task apart from the pages of its memory. -/
inductive Object where
  | task
  | fileDesc
  | elfFile
  | stack
deriving DecidableEq

/-- What `do_fork` changes. `held` is what has been allocated for new tasks and not freed. -/
structure Kernel (τ β : Type*) where
  pids : PidMap τ
  family : Links (FamilyNode τ)
  sched : Scheduler τ
  buf : PgtBuffer
  mm : τ → MmStruct
  m : Machine β
  held : List Object

/-- A call of `do_fork`: the flags, which allocations succeed, the address of the program, if it is
found, and the node `parent->child` of the pointer that `init_task_struct` does not initialise. -/
structure Call (τ : Type*) where
  flag : ℕ
  task : Bool
  fileDesc : Bool
  elfFile : Option ℕ
  stack : Bool
  parentChild : FamilyNode τ

/-- `task_is_kernel`, the bit `PROCESS_TYPE_KERNEL`. -/
def Call.isKernel (c : Call τ) : Bool := c.flag.testBit 0

/-- `task_is_user`, the bit `PROCESS_TYPE_USER`. -/
def Call.isUser (c : Call τ) : Bool := c.flag.testBit 1

variable {τ β : Type*} [DecidableEq τ]

/-- `init_task_struct`. -/
def initTaskStruct (c : Call τ) (t : τ) (k : Kernel τ β) : ℤ × Kernel τ β :=
  let got := getNewPid k.pids t
  let sched := k.sched.modify t fun task => { task with pid := got.1 }
  let k := { k with pids := got.2, sched := sched }
  if got.1 < 0 then (-einval, k)
  else
    let k := { k with family := initList (initList k.family (.p t)) (.child t) }
    if c.isUser ∧ ¬ c.fileDesc then (-enomem, k)
    else
      let held := if c.isUser then .fileDesc :: k.held else k.held
      (0, { k with held := held, family := listAdd k.family c.parentChild (.p t) })

/-- `init_mm_struct`. The bits 5 and 6 of the flags are `_PROCESS_FLAG_USER_EXEC` and
`_PROCESS_FLAG_KERN_EXEC`. -/
def initMmStruct (c : Call τ) (boot : Boot) (t : τ) (k : Kernel τ β) : Option (ℤ × Kernel τ β) :=
  if c.isKernel then some (0, k)
  else
    match c.elfFile with
    | none => some (-enomem, k)
    | some base =>
      let mm :=
        if c.flag.testBit 5 || c.flag.testBit 6 then execedMm base ⟨zeroedTable, fun _ => ⟨0, 0, []⟩⟩
        else forkedMm (k.mm k.sched.current)
      (setUpMemory boot k.buf mm k.m).map fun (ret, buf, mm, m) =>
        (ret, { k with buf := buf, mm := update k.mm t mm, m := m, held := .elfFile :: k.held })

/-- `free_task`. -/
def freeTask (k : Kernel τ β) : Kernel τ β := { k with held := k.held.erase .task }

/-- `alloc_and_init_task`: whether it returns a task. -/
def allocAndInitTask (c : Call τ) (boot : Boot) (t : τ) (k : Kernel τ β) :
    Option (Bool × Kernel τ β) :=
  if c.task then
    let init := initTaskStruct c t { k with held := .task :: k.held }
    let k := init.2
    if init.1 ≠ 0 then some (false, freeTask k)
    else
      let k := { k with sched := k.sched.modify t fun task => initSchedStruct false task.pid }
      (initMmStruct c boot t k).map fun (ret, k) =>
        if ret ≠ 0 ∨ ¬ c.stack then (false, freeTask k)
        else (true, { k with held := .stack :: k.held })
  else some (false, k)

/-- `copy_process`. -/
def copyProcess (t : τ) (k : Kernel τ β) : Option (ℤ × Kernel τ β) :=
  (taskMmCopyTaskMemory (k.mm t) (k.mm k.sched.current) k.m).map fun (_, mm, m) =>
    (0, { k with mm := update k.mm t mm, m := m })

/-- `release_task`. -/
def releaseTask (boot : Boot) (t : τ) (k : Kernel τ β) : Option (Kernel τ β) :=
  (freeTaskPageTable boot.zero k.buf (k.mm t).pageTable).map fun (buf, table, released) =>
    let mm := { k.mm t with pageTable := table }
    let m := { k.m with released := k.m.released ++ released }
    { k with
      buf := buf, mm := update k.mm t mm, m := freeSectionsMemory mm m
      held := (k.held.erase .stack).erase .task }

/-- `do_fork`. -/
def doFork (c : Call τ) (boot : Boot) (t : τ) (k : Kernel τ β) : Option (ℤ × Kernel τ β) :=
  (allocAndInitTask c boot t k).bind fun (created, k) =>
    if ¬ created then some (-enomem, k)
    else
      (if c.isUser then copyProcess t k else some (0, k)).bind fun (ret, k) =>
        if ret ≠ 0 then (releaseTask boot t k).map fun k => (-enomem, k)
        else some (0, { k with sched := setTaskState k.sched t .prepare })

/-! ## Failures before the memory is copied -/

/-- A task that is known nowhere: no process number refers to it, and no list node is linked to
it. -/
structure Unknown (pids : PidMap τ) (family : Links (FamilyNode τ)) (t : τ) : Prop where
  pid : ∀ p, pids.addr p ≠ some t
  family : ∀ n, n ≠ .p t → family.next n ≠ .p t

/-- What is expected of a call that has failed: the task is known nowhere, and what has been
allocated for it is freed. -/
structure Discarded (k k' : Kernel τ β) (t : τ) : Prop where
  unknown : Unknown k'.pids k'.family t
  held : k'.held = k.held
  pages : k.m.frames.supply ⊆ k'.m.frames.supply ++ k'.m.released

variable {c : Call τ} {boot : Boot} {t : τ} {k k' : Kernel τ β}

omit [DecidableEq τ] in
theorem le_findPidLoop {addr : ℤ → Option τ} {left : ℕ} {i p : ℤ}
    (h : findPidLoop addr left i = some p) : i ≤ p := by
  induction left generalizing i with
  | zero => cases h
  | succ left ih =>
    rw [findPidLoop] at h
    split_ifs at h
    · exact (some.inj h).le
    · have := ih h
      omega

omit [DecidableEq τ] in
theorem getNewPid_stores (map : PidMap τ) (t : τ) (hcursor : 0 ≤ map.current) :
    ((getNewPid map t).1 < 0 → (getNewPid map t).2 = map) ∧
      (0 ≤ (getNewPid map t).1 → (getNewPid map t).2.addr (getNewPid map t).1 = some t) := by
  unfold getNewPid
  split_ifs
  · simp
  · split
    next => simp
    next p hfind =>
      have hle := le_findPidLoop hfind
      exact ⟨fun hneg => absurd hneg (by omega), fun _ => update_self _ _ _⟩

theorem initMmStruct_pids {ret : ℤ} (h : initMmStruct c boot t k = some (ret, k')) :
    k'.pids = k.pids := by
  unfold initMmStruct at h
  split at h
  · cases h
    rfl
  · split at h
    · cases h
      rfl
    · obtain ⟨_, -, h⟩ := map_eq_some_iff.mp h
      cases h
      rfl

/-- Nothing after `get_new_pid` changes the process numbers. -/
theorem allocAndInitTask_pids {created : Bool} (htask : c.task)
    (h : allocAndInitTask c boot t k = some (created, k')) :
    k'.pids = (getNewPid k.pids t).2 := by
  have hinit : ∀ k₀ : Kernel τ β, (initTaskStruct c t k₀).2.pids = (getNewPid k₀.pids t).2 := by
    intro k₀
    simp only [initTaskStruct]
    split_ifs <;> rfl
  simp only [allocAndInitTask, if_pos htask] at h
  split_ifs at h
  · cases h
    exact hinit _
  · obtain ⟨⟨ret, k₂⟩, hmm, h⟩ := map_eq_some_iff.mp h
    have hk₂ := (initMmStruct_pids hmm).trans (hinit _)
    simp only at h
    split_ifs at h <;> cases h <;> exact hk₂

/-- `do_fork` fails when `alloc_and_init_task` does, and then only. -/
theorem doFork_fails_iff :
    (∃ ret, doFork c boot t k = some (ret, k') ∧ ret ≠ 0) ↔
      allocAndInitTask c boot t k = some (false, k') := by
  constructor
  · rintro ⟨ret, h, hret⟩
    obtain ⟨⟨created, k₁⟩, halloc, h⟩ := bind_eq_some_iff.mp h
    cases created with
    | false =>
      cases h
      exact halloc
    | true =>
      obtain ⟨⟨ret', k₂⟩, hcopy, h⟩ := bind_eq_some_iff.mp h
      have hzero : ret' = 0 := by
        split_ifs at hcopy
        · obtain ⟨_, -, heq⟩ := map_eq_some_iff.mp hcopy
          cases heq
          rfl
        · cases hcopy
          rfl
      subst hzero
      cases h
      exact absurd rfl hret
  · intro h
    exact ⟨-enomem, by simp [doFork, h], by decide⟩

/-- For every call that returns an error: the task is known nowhere and everything obtained for it
has been given back, if and only if the `struct task_struct` or the process number is what has not
been obtained. -/
theorem doFork_discards_iff (hcursor : 0 ≤ k.pids.current) (hnew : Unknown k.pids k.family t)
    (hfork : doFork c boot t k = some (ret, k')) (hret : ret ≠ 0) :
    Discarded k k' t ↔ c.task = false ∨ (getNewPid k.pids t).1 < 0 := by
  obtain ⟨hneg, hpos⟩ := getNewPid_stores k.pids t hcursor
  have halloc := doFork_fails_iff.mp ⟨ret, hfork, hret⟩
  by_cases htask : c.task
  · constructor
    · intro hdiscarded
      by_contra hnone
      refine hdiscarded.unknown.pid (getNewPid k.pids t).1 ?_
      rw [allocAndInitTask_pids htask halloc]
      exact hpos (not_lt.mp fun hpid => hnone (Or.inr hpid))
    · intro hwhen
      have hpid := hwhen.resolve_left (by simp [htask])
      simp only [allocAndInitTask, htask, initTaskStruct, if_pos hpid] at halloc
      cases halloc
      refine ⟨?_, by simp [freeTask], subset_append_left _ _⟩
      simpa only [freeTask, hneg hpid] using hnew
  · simp only [allocAndInitTask, htask, Bool.false_eq_true, if_false] at halloc
    cases halloc
    exact iff_of_true ⟨hnew, rfl, subset_append_left _ _⟩ (Or.inl (Bool.eq_false_of_not_eq_true htask))

/-- A user task is forked, and all allocations apart from those of its memory succeed. -/
def forkCall : Call ℕ where
  flag := 2
  task := true
  fileDesc := true
  elfFile := some 0x404000
  stack := true
  parentChild := .child 0

/-- Task 0 has six pages, and nine frames are free. -/
def sixPageTask : Kernel ℕ Unit where
  pids := initPidAllocater
  family := ⟨id, id⟩
  sched := (SchedRun.boot 0 fun t : ℕ => (t : ℤ)).sched
  buf := ⟨[], 0, 0⟩
  mm _ :=
    { bareTask with
      mmSection := fun
        | .elf => ⟨0x404000, 1, [0x401]⟩
        | .stack => ⟨processUserStackBase, 4, range' 0x402 4⟩
        | .mmap => ⟨processUserMmapBase, 0, []⟩
        | .metaData => ⟨processUserMetaBase, 1, [0x406]⟩ }
  m := clearMachine (range' 0x410 9)
  held := []

/-- Without a `struct task_struct` nothing is left behind. -/
theorem doFork_discards_iff_noTask :
    Unknown sixPageTask.pids sixPageTask.family 1 ∧
      ∃ k', doFork { forkCall with task := false } ⟨none, 0⟩ 1 sixPageTask = some (-enomem, k') ∧
        Discarded sixPageTask k' 1 := by
  have hnew : Unknown sixPageTask.pids sixPageTask.family 1 :=
    ⟨fun _ => by simp [sixPageTask, initPidAllocater], fun _ hn => hn⟩
  have hfork : doFork { forkCall with task := false } ⟨none, 0⟩ 1 sixPageTask =
      some (-enomem, sixPageTask) := rfl
  exact ⟨hnew, _, hfork, (doFork_discards_iff le_rfl hnew hfork (by decide)).mpr (Or.inl rfl)⟩

/-- Without a kernel stack the call fails, and the process number 0 and the list of children refer
to the task that has been freed. Its open files, its program and nine pages are not given back. -/
theorem forkCall_leaks :
    ∃ x, doFork { forkCall with stack := false } ⟨none, 0⟩ 1 sixPageTask = some x ∧
      x.1 = -enomem ∧ x.2.pids.addr 0 = some 1 ∧ x.2.family.next (.child 0) = .p 1 ∧
      x.2.held = [.elfFile, .fileDesc] ∧ x.2.m.released = [] ∧ x.2.m.frames.supply = [] := by
  decide +kernel

/-! ## A copy that fails -/

/-- What is expected when the copy fails, for a child with the memory `mm` in state `k₁`: `do_fork`
returns an error, the child is not ready, and the failure and a release of the child together
release each page of its sections once. -/
structure CopyUndone (boot : Boot) (t : τ) (mm : MmStruct) (k₁ : Kernel τ β) (ret : ℤ)
    (k' : Kernel τ β) : Prop where
  error : ret ≠ 0
  not_ready : (k'.sched.task t).state ≠ .prepare
  once : ∀ k'', releaseTask boot t k' = some k'' → ∀ page ∈ pages mm,
    k''.m.released.count page = k₁.m.released.count page + 1

/-- For every parent, whatever copying its memory returns: `do_fork` returns 0, so that what is
expected after a failure never holds. -/
theorem doFork_not_copyUndone {k₁ : Kernel τ β} {err : ℤ} {mm : MmStruct} {m : Machine β}
    (huser : c.isUser) (halloc : allocAndInitTask c boot t k = some (true, k₁))
    (hcopy : taskMmCopyTaskMemory (k₁.mm t) (k₁.mm k₁.sched.current) k₁.m = some (err, mm, m)) :
    ∃ k', doFork c boot t k = some (0, k') ∧ ¬ CopyUndone boot t mm k₁ 0 k' := by
  obtain ⟨k', hfork⟩ : ∃ k', doFork c boot t k = some (0, k') := by
    simp [doFork, halloc, huser, copyProcess, hcopy]
  exact ⟨k', hfork, fun hundone => hundone.error rfl⟩

/-- The copy fails when there is no frame left for the program. -/
theorem doFork_not_copyUndone_forkCall :
    ∃ k₁ mm m, allocAndInitTask forkCall ⟨none, 0⟩ 1 sixPageTask = some (true, k₁) ∧
      taskMmCopyTaskMemory (k₁.mm 1) (k₁.mm k₁.sched.current) k₁.m = some (-enomem, mm, m) ∧
      ∃ k', doFork forkCall ⟨none, 0⟩ 1 sixPageTask = some (0, k') ∧
        ¬ CopyUndone ⟨none, 0⟩ 1 mm k₁ 0 k' := by
  obtain ⟨⟨_, k₁⟩, halloc, rfl, ⟨_, mm, m⟩, hcopy, rfl⟩ :
      ∃ x, allocAndInitTask forkCall ⟨none, 0⟩ 1 sixPageTask = some x ∧ x.1 = true ∧
        ∃ y, taskMmCopyTaskMemory (x.2.mm 1) (x.2.mm x.2.sched.current) x.2.m = some y ∧
          y.1 = -enomem := by
    decide +kernel
  exact ⟨k₁, mm, m, halloc, hcopy, doFork_not_copyUndone (by decide) halloc hcopy⟩

/-- This call returns 0 and the child is ready. The five pages of the child are released by the
failure and again with the child. -/
theorem forkCall_released_twice :
    ∃ x, doFork forkCall ⟨none, 0⟩ 1 sixPageTask = some x ∧ x.1 = 0 ∧
      (x.2.sched.task 1).state = .prepare ∧ (pages (x.2.mm 1)).length = 5 ∧
      ∃ k, releaseTask ⟨none, 0⟩ 1 x.2 = some k ∧
        ∀ page ∈ pages (x.2.mm 1), k.m.released.count page = 2 := by
  decide +kernel

end Chunos.Fork
