import Chunos.Fs.LmfsPool

/-!
# The pool of free fnodes of an LMFS partition

The numbers of the free fnodes are kept like those of the free blocks, in disk blocks in front
of the pool of blocks, with a count of their own. `lmfs_pop_fnode` was copied from
`lmfs_pop_block` together with the test for the first block of the pool of blocks, so it never
reads a block of its own pool back. The pool is the same stack as the other one in every run in
which the block below is still in the buffer whenever a pop leaves the block in memory.
-/

namespace Chunos.Lmfs

open Option

/-- `struct lmfs_super_block`, with the fields that the pool of free fnodes uses, and the
device it is on. -/
structure FnodePool where
  ibPoolStartBlock : ℕ
  ibPoolCurrentBlock : ℕ
  ibPoolPos : ℕ
  ibPoolBlockNr : ℕ
  fnodeFree : ℕ
  ibPool : ℕ → ℕ
  dbPoolStartBlock : ℕ
  device : Device

/-- `lmfs_pop_fnode`. The argument `io` says whether the device serves the read that the call
may make. -/
def popFnode (io : Bool) (lsb : FnodePool) : ℕ × FnodePool :=
  let curPos := lsb.ibPoolPos
  let curBlock := lsb.ibPoolCurrentBlock
  if lsb.fnodeFree = 0 then (0, lsb)
  else
    let index := lsb.ibPool curPos
    if curPos = 0 then
      let curBlock := (curBlock + (2 ^ 32 - 1)) % 2 ^ 32
      if lsb.dbPoolStartBlock ≤ curBlock then
        if io then
          (index,
            { lsb with
              ibPool := lsb.device.words (diskBlock curBlock)
              ibPoolCurrentBlock := curBlock
              ibPoolPos := 1023
              fnodeFree := lsb.fnodeFree - 1 })
        else (0, lsb)
      else
        (index,
          { lsb with
            ibPoolCurrentBlock := curBlock
            ibPoolPos := 1023
            fnodeFree := lsb.fnodeFree - 1 })
    else (index, { lsb with ibPoolPos := curPos - 1, fnodeFree := lsb.fnodeFree - 1 })

/-- `lmfs_push_fnode`. The argument `io` says whether the device serves the write that the
call may make. The error is returned as an unsigned word. -/
def pushFnode (io : Bool) (lsb : FnodePool) (index : ℕ) : ℤ × FnodePool :=
  let curPos := (lsb.ibPoolPos + 1) % 2 ^ 32
  let curBlock := lsb.ibPoolCurrentBlock
  if index = 0 then (0, lsb)
  else if curPos = 1024 then
    if io then
      (0,
        { lsb with
          device := lsb.device.write curBlock lsb.ibPool
          ibPool := Function.update lsb.ibPool 0 index
          ibPoolCurrentBlock := (curBlock + 1) % 2 ^ 32
          ibPoolPos := 0
          fnodeFree := (lsb.fnodeFree + 1) % 2 ^ 32 })
    else (2 ^ 32 - eio, lsb)
  else
    (0,
      { lsb with
        ibPool := Function.update lsb.ibPool curPos index
        ibPoolPos := curPos
        fnodeFree := (lsb.fnodeFree + 1) % 2 ^ 32 })

/-- The pool of fnodes looked at as a pool of blocks. -/
def FnodePool.view (lsb : FnodePool) : SuperBlock where
  dbPoolStartBlock := lsb.ibPoolStartBlock
  dbPoolCurrentBlock := lsb.ibPoolCurrentBlock
  dbPoolPos := lsb.ibPoolPos
  dbPoolBlockNr := lsb.ibPoolBlockNr
  dataFreeBlocks := lsb.fnodeFree
  dbPool := lsb.ibPool
  device := lsb.device

/-- The pool of fnodes is well formed and in front of the pool of blocks, the count covers its
entries, and so it does when all of its blocks are full. -/
structure FnodePool.WellFormed (lsb : FnodePool) : Prop where
  view : Lmfs.WellFormed lsb.view
  before : lsb.ibPoolStartBlock + lsb.ibPoolBlockNr ≤ lsb.dbPoolStartBlock
  counted : lsb.view.entryCount ≤ lsb.fnodeFree
  countable : lsb.fnodeFree + (1024 * lsb.ibPoolBlockNr - lsb.view.entryCount) < 2 ^ 32

/-- The call of the source on the pool of fnodes, with a device that serves it. -/
def fnodeCall : PoolCall → FnodePool → ℤ × FnodePool
  | .pop, lsb => ((popFnode true lsb).1, (popFnode true lsb).2)
  | .push index, lsb => pushFnode true lsb index

/-- The pool of fnodes and the stack it should be, with the values that the calls on both have
returned. -/
structure FnodeRun where
  lsb : FnodePool
  stack : List ℕ
  returned : List ℤ
  expected : List ℤ

/-- One call on both. -/
def FnodeRun.step (call : PoolCall) (r : FnodeRun) : Option FnodeRun :=
  (stackCall (1024 * r.lsb.ibPoolBlockNr) call r.stack).map fun result =>
    { lsb := (fnodeCall call r.lsb).2
      stack := result.2
      returned := r.returned ++ [(fnodeCall call r.lsb).1]
      expected := r.expected ++ [result.1] }

/-- A pool and its stack before the first call. -/
def FnodeRun.start (lsb : FnodePool) : FnodeRun :=
  { lsb := lsb, stack := lsb.view.entries, returned := [], expected := [] }

/-- The call does not pop the only entry of the block in memory, or the block below is still
in the buffer. -/
def BufferKept : PoolCall → FnodeRun → Prop
  | .pop, r => r.lsb.ibPoolPos ≠ 0 ∨
      ∀ i < 1024, r.lsb.device.words (r.lsb.ibPoolCurrentBlock - 1) i = r.lsb.ibPool i
  | .push _, _ => True

instance (call : PoolCall) (r : FnodeRun) : Decidable (BufferKept call r) := by
  cases call <;> unfold BufferKept <;> infer_instance

/-- What a pool holds does not depend on its count, nor on the buffer behind its 1024 words. -/
theorem Holds.recount {lsb : SuperBlock} {stack : List ℕ} (h : Holds lsb stack) {free : ℕ}
    {pool : ℕ → ℕ} (hfree : free ≠ 0) (hpool : ∀ i < 1024, pool i = lsb.dbPool i) :
    Holds { lsb with dataFreeBlocks := free, dbPool := pool } stack where
  start_le := h.start_le
  current_lt := h.current_lt
  on_disk := h.on_disk
  pos_lt := h.pos_lt
  some_free := hfree
  length_eq := h.length_eq
  below := h.below
  top := by
    intro i hi
    have hlt := h.pos_lt
    dsimp only at hi ⊢
    rw [hpool i (by omega)]
    exact h.top i hi

/-- The ranges of the two pools stay where they are. -/
theorem fnodeCall_ranges (call : PoolCall) (lsb : FnodePool) :
    (fnodeCall call lsb).2.ibPoolStartBlock = lsb.ibPoolStartBlock ∧
      (fnodeCall call lsb).2.ibPoolBlockNr = lsb.ibPoolBlockNr ∧
      (fnodeCall call lsb).2.dbPoolStartBlock = lsb.dbPoolStartBlock := by
  cases call with
  | pop =>
    simp only [fnodeCall, popFnode]
    by_cases hfree : lsb.fnodeFree = 0
    · simp only [hfree, if_true, and_self]
    by_cases hpos : lsb.ibPoolPos = 0
    · by_cases hstart : lsb.dbPoolStartBlock ≤ (lsb.ibPoolCurrentBlock + (2 ^ 32 - 1)) % 2 ^ 32
      · simp only [hfree, hpos, hstart, if_true, if_false, and_self]
      · simp only [hfree, hpos, hstart, if_true, if_false, and_self]
    · simp only [hfree, hpos, if_false, and_self]
  | push index =>
    simp only [fnodeCall, pushFnode]
    by_cases hindex : index = 0
    · simp only [hindex, if_true, and_self]
    by_cases hfull : (lsb.ibPoolPos + 1) % 2 ^ 32 = 1024
    · simp only [hindex, hfull, if_true, if_false, and_self]
    · simp only [hindex, hfull, if_false, and_self]

theorem pushFnode_view (lsb : FnodePool) {index : ℕ} (hindex : index ≠ 0) :
    (pushFnode true lsb index).1 = (pushBlock true lsb.view index).1 ∧
      (pushFnode true lsb index).2.view =
        { (pushBlock true lsb.view index).2 with
          dataFreeBlocks := (lsb.fnodeFree + 1) % 2 ^ 32 } := by
  by_cases hfull : (lsb.ibPoolPos + 1) % 2 ^ 32 = 1024 <;>
    simp only [pushFnode, pushBlock, FnodePool.view, hindex, hfull, if_false, if_true, and_self]

variable {lsb : FnodePool}

/-- A pop from the pool of fnodes returns what a pop from its view returns. It leaves the same
view, except that it counts, and that the buffer stays when the block in memory changes. -/
theorem popFnode_view {stack : List ℕ} (h : Holds lsb.view stack) (htwo : 2 ≤ stack.length)
    (hbefore : lsb.ibPoolStartBlock + lsb.ibPoolBlockNr ≤ lsb.dbPoolStartBlock) :
    (popFnode true lsb).1 = (popBlock true lsb.view).1 ∧
      (popFnode true lsb).2.view =
        { (popBlock true lsb.view).2 with
          dataFreeBlocks := lsb.fnodeFree - 1
          dbPool := lsb.ibPool } := by
  have hfree : lsb.fnodeFree ≠ 0 := h.some_free
  by_cases hpos : lsb.ibPoolPos = 0
  · have hcur : lsb.ibPoolCurrentBlock < lsb.ibPoolStartBlock + lsb.ibPoolBlockNr := h.current_lt
    have hlt : lsb.ibPoolStartBlock < lsb.ibPoolCurrentBlock := h.start_lt htwo hpos
    have hdisk : (lsb.ibPoolStartBlock + lsb.ibPoolBlockNr) * 8 ≤ 2 ^ 32 := h.on_disk
    have hprev : (lsb.ibPoolCurrentBlock + (2 ^ 32 - 1)) % 2 ^ 32 = lsb.ibPoolCurrentBlock - 1 := by
      omega
    have hother : ¬ lsb.dbPoolStartBlock ≤ lsb.ibPoolCurrentBlock - 1 := by omega
    rw [h.popBlock_across htwo hpos, h.getLastD_eq]
    simp only [popFnode, hfree, hpos, if_false, if_true, hprev, hother, FnodePool.view, and_self]
  · rw [h.popBlock_inside hpos, h.getLastD_eq]
    simp only [popFnode, hfree, hpos, if_false, FnodePool.view, and_self]

/-- A run keeps to the stack: the pool holds it, the calls have returned what it returns, and
the count has changed as much as its length. -/
structure FnodeRun.Inv (lsb : FnodePool) (r : FnodeRun) : Prop where
  holds : Holds r.lsb.view r.stack
  agree : r.returned = r.expected
  before : r.lsb.ibPoolStartBlock + r.lsb.ibPoolBlockNr ≤ r.lsb.dbPoolStartBlock
  nr_eq : r.lsb.ibPoolBlockNr = lsb.ibPoolBlockNr
  count : r.lsb.fnodeFree + lsb.view.entryCount = lsb.fnodeFree + r.stack.length

theorem FnodeRun.start_inv (h : lsb.WellFormed) : (FnodeRun.start lsb).Inv lsb where
  holds := h.view.holds_entries
  agree := rfl
  before := h.before
  nr_eq := rfl
  count := by rw [FnodeRun.start, h.view.holds_entries.length_eq]

/-- A pop that keeps to the condition does what the stack does, and counts. -/
theorem FnodeRun.Inv.pop {r : FnodeRun} (hr : r.Inv lsb)
    (hcounted : lsb.view.entryCount ≤ lsb.fnodeFree) (htwo : 2 ≤ r.stack.length)
    (hkept : BufferKept .pop r) :
    (popFnode true r.lsb).1 = r.stack.getLastD 0 ∧
      Holds (popFnode true r.lsb).2.view r.stack.dropLast ∧
      (popFnode true r.lsb).2.fnodeFree = r.lsb.fnodeFree - 1 := by
  obtain ⟨hvalue, hview⟩ := popFnode_view hr.holds htwo hr.before
  obtain ⟨hreturn, hholds, -⟩ := hr.holds.pop htwo
  have hcount := hr.count
  refine ⟨hvalue.trans hreturn, ?_, congrArg SuperBlock.dataFreeBlocks hview⟩
  rw [hview]
  refine hholds.recount (by omega) fun i hi => ?_
  by_cases hpos : r.lsb.ibPoolPos = 0
  · rw [hr.holds.popBlock_across htwo hpos]
    rcases hkept with hne | hsame
    · exact absurd hpos hne
    · exact (hsame i hi).symm
  · rw [hr.holds.popBlock_inside hpos]
    rfl

/-- A push within the blocks of the pool does what the stack does, and counts. -/
theorem FnodeRun.Inv.push (h : lsb.WellFormed) {r : FnodeRun} (hr : r.Inv lsb) {index : ℕ}
    (hindex : index ≠ 0) (hroom : r.stack.length + 1 ≤ 1024 * r.lsb.ibPoolBlockNr) :
    (pushFnode true r.lsb index).1 = 0 ∧
      Holds (pushFnode true r.lsb index).2.view (r.stack ++ [index]) ∧
      (pushFnode true r.lsb index).2.fnodeFree = r.lsb.fnodeFree + 1 := by
  obtain ⟨hvalue, hview⟩ := pushFnode_view r.lsb hindex
  obtain ⟨hreturn, hholds, -⟩ := hr.holds.push hindex hroom
  have hcount := hr.count
  have hcountable := h.countable
  rw [hr.nr_eq] at hroom
  have hnext : (r.lsb.fnodeFree + 1) % 2 ^ 32 = r.lsb.fnodeFree + 1 := Nat.mod_eq_of_lt (by omega)
  rw [hnext] at hview
  refine ⟨hvalue.trans hreturn, ?_, congrArg SuperBlock.dataFreeBlocks hview⟩
  rw [hview]
  exact hholds.recount (Nat.succ_ne_zero _) fun i hi => rfl

/-- Every call that keeps to the condition keeps the run to the stack. -/
theorem FnodeRun.step_inv (h : lsb.WellFormed) (call : PoolCall) (r r' : FnodeRun) (hr : r.Inv lsb)
    (hkept : BufferKept call r) (hstep : r.step call = some r') : r'.Inv lsb := by
  obtain ⟨result, hcall, rfl⟩ := map_eq_some_iff.mp hstep
  obtain ⟨hstart, hnr, hdb⟩ := fnodeCall_ranges call r.lsb
  have hcount := hr.count
  have hcounted := h.counted
  have hspec : (fnodeCall call r.lsb).1 = result.1 ∧ Holds (fnodeCall call r.lsb).2.view result.2 ∧
      (fnodeCall call r.lsb).2.fnodeFree + r.stack.length = r.lsb.fnodeFree + result.2.length := by
    cases call with
    | pop =>
      simp only [stackCall, ite_none_right_eq_some, some.injEq] at hcall
      obtain ⟨htwo, rfl⟩ := hcall
      obtain ⟨hvalue, hholds, hfree⟩ := hr.pop hcounted htwo hkept
      refine ⟨congrArg Nat.cast hvalue, hholds, ?_⟩
      rw [fnodeCall, hfree, List.length_dropLast]
      omega
    | push index =>
      simp only [stackCall, ite_none_right_eq_some, some.injEq] at hcall
      obtain ⟨⟨hindex, hroom⟩, rfl⟩ := hcall
      obtain ⟨hvalue, hholds, hfree⟩ := hr.push h hindex hroom
      refine ⟨hvalue, hholds, ?_⟩
      rw [fnodeCall, hfree, List.length_append, List.length_singleton]
      omega
  obtain ⟨hvalue, hholds, hfree⟩ := hspec
  exact {
    holds := hholds
    agree := by rw [hvalue, hr.agree]
    before := by
      dsimp only
      rw [hstart, hnr, hdb]
      exact hr.before
    nr_eq := hnr.trans hr.nr_eq
    count := by
      dsimp only
      omega }

/-- From a well-formed pool of fnodes in front of the pool of blocks, every sequence of calls
that keeps at least one entry within the blocks of the pool returns what a stack returns and
leaves a pool that holds the stack, and the count of free fnodes changes with its length, when
each call keeps to the condition on the buffer. -/
theorem fnode_pool_is_stack {lsb : FnodePool} (hpool : lsb.WellFormed) (calls : List PoolCall)
    (hkept : Runs.Meets FnodeRun.step BufferKept calls (FnodeRun.start lsb)) (r : FnodeRun)
    (hrun : Runs.run FnodeRun.step calls (FnodeRun.start lsb) = some r) :
    r.returned = r.expected ∧ Holds r.lsb.view r.stack ∧
      r.lsb.fnodeFree + lsb.view.entries.length = lsb.fnodeFree + r.stack.length := by
  have hinv : r.Inv lsb := Runs.invariant_of_meets (FnodeRun.step_inv hpool)
    (FnodeRun.start_inv hpool) hkept hrun
  rw [hpool.view.holds_entries.length_eq]
  exact ⟨hinv.agree, hinv.holds, hinv.count⟩

/-- A pool of two blocks, the first of which is full and in memory. -/
def fullFnodePool : FnodePool :=
  { ibPoolStartBlock := 1, ibPoolCurrentBlock := 1, ibPoolPos := 1023, ibPoolBlockNr := 2
    fnodeFree := 1024, ibPool := fun i => i + 100, dbPoolStartBlock := 3
    device := { words := fun _ _ => 0, written := [] } }

/-- The theorem applies to pops and a push within a block. -/
theorem fnode_pool_is_stack_full :
    ∃ r, Runs.run FnodeRun.step [.pop, .pop, .push 7, .pop] (FnodeRun.start fullFnodePool) =
        some r ∧ r.expected = [1123, 1122, 0, 7] ∧ r.returned = r.expected := by
  refine Runs.exists_some_imp (P := fun r => r.expected = [1123, 1122, 0, 7]) (by decide +kernel)
    fun r hrun hexpected => ⟨hexpected, ?_⟩
  have hpool : fullFnodePool.WellFormed := by
    constructor
    · constructor <;> decide
    all_goals decide
  exact (fnode_pool_is_stack hpool _ (by decide +kernel) r hrun).1

/-- A pool of 1025 free fnodes as it is after mounting: the only entry of its second block is
in memory. -/
def mountedFnodePool : FnodePool :=
  { ibPoolStartBlock := 1, ibPoolCurrentBlock := 2, ibPoolPos := 0, ibPoolBlockNr := 2
    fnodeFree := 1025, ibPool := fun i => if i = 0 then 7 else 0, dbPoolStartBlock := 3
    device := { words := fun block i => if block = 1 then i + 100 else 0, written := [] } }

/-- The second pop returns a word of the block that was in memory instead of the last entry of
the first block, since that block is not read. -/
theorem fnode_pool_reads_nothing_back :
    mountedFnodePool.WellFormed ∧
      (Runs.run FnodeRun.step [.pop, .pop] (FnodeRun.start mountedFnodePool)).map
          (fun r => (r.returned, r.expected)) =
        some ([7, 0], [7, 1123]) := by
  refine ⟨?_, by decide +kernel⟩
  constructor
  · constructor <;> decide
  all_goals decide

end Chunos.Lmfs
