import Chunos.Lib.Runs
import Chunos.Fs.Lmfs

/-!
# The pool of free blocks of an LMFS partition

The numbers of the free data blocks are kept in a range of disk blocks, 1024 in each.
Only the block with the last number is in memory. A push that fills it writes it to the
disk and starts the next one over the same buffer, and a pop that empties it reads the
one below back. This file shows that the pool is a stack: the full blocks on the disk and
the block in memory together are one list of block numbers.
-/

namespace Chunos.Lmfs

open Function List Option

/-- A block device: the words of each block, and the blocks that were written so far. -/
structure Device where
  words : ℕ → ℕ → ℕ
  written : List ℕ

/-- `struct lmfs_super_block`, with the fields of the pool of free blocks, and the device
it is on. -/
structure SuperBlock where
  dbPoolStartBlock : ℕ
  dbPoolCurrentBlock : ℕ
  dbPoolPos : ℕ
  dbPoolBlockNr : ℕ
  dataFreeBlocks : ℕ
  dbPool : ℕ → ℕ
  device : Device

/-- The disk block that a block number means. The number of its first sector is
`block * 8`, which is a word. -/
def diskBlock (block : ℕ) : ℕ := block * 8 % 2 ^ 32 / 8

/-- `lmfs_write_block`, once the device accepts it. -/
def Device.write (device : Device) (block : ℕ) (buffer : ℕ → ℕ) : Device where
  words := update device.words (diskBlock block) buffer
  written := device.written ++ [diskBlock block]

/-- `lmfs_pop_block`. The argument `io` says whether the device serves the read that the
call may make. -/
def popBlock (io : Bool) (lsb : SuperBlock) : ℕ × SuperBlock :=
  let curPos := lsb.dbPoolPos
  let curBlock := lsb.dbPoolCurrentBlock
  if lsb.dataFreeBlocks = 0 then (0, lsb)
  else
    let block := lsb.dbPool curPos
    if curPos = 0 then
      let curBlock := (curBlock + (2 ^ 32 - 1)) % 2 ^ 32
      if lsb.dbPoolStartBlock ≤ curBlock then
        if io then
          (block,
            { lsb with
              dbPool := lsb.device.words (diskBlock curBlock)
              dbPoolCurrentBlock := curBlock
              dbPoolPos := 1023 })
        else (0, lsb)
      else (block, { lsb with dbPoolCurrentBlock := curBlock, dbPoolPos := 1023 })
    else (block, { lsb with dbPoolPos := curPos - 1 })

/-- `lmfs_push_block`. The argument `io` says whether the device serves the write that
the call may make. -/
def pushBlock (io : Bool) (lsb : SuperBlock) (block : ℕ) : ℤ × SuperBlock :=
  let curPos := (lsb.dbPoolPos + 1) % 2 ^ 32
  let curBlock := lsb.dbPoolCurrentBlock
  if block = 0 then (-einval, lsb)
  else if curPos = 1024 then
    if io then
      (0,
        { lsb with
          device := lsb.device.write curBlock lsb.dbPool
          dbPool := update lsb.dbPool 0 block
          dbPoolCurrentBlock := (curBlock + 1) % 2 ^ 32
          dbPoolPos := 0 })
    else (-eio, lsb)
  else (0, { lsb with dbPool := update lsb.dbPool curPos block, dbPoolPos := curPos })

/-- The pool is well formed: the current block is one of its blocks, these are blocks of
the disk, and there are free blocks. -/
structure WellFormed (lsb : SuperBlock) : Prop where
  start_le : lsb.dbPoolStartBlock ≤ lsb.dbPoolCurrentBlock
  current_lt : lsb.dbPoolCurrentBlock < lsb.dbPoolStartBlock + lsb.dbPoolBlockNr
  on_disk : (lsb.dbPoolStartBlock + lsb.dbPoolBlockNr) * 8 ≤ 2 ^ 32
  pos_lt : lsb.dbPoolPos < 1024
  some_free : lsb.dataFreeBlocks ≠ 0

/-- The number of entries of the pool. -/
def SuperBlock.entryCount (lsb : SuperBlock) : ℕ :=
  1024 * (lsb.dbPoolCurrentBlock - lsb.dbPoolStartBlock) + lsb.dbPoolPos + 1

/-- The block numbers in the pool: those of the full blocks on the disk, then those in
memory up to the position. -/
def SuperBlock.entries (lsb : SuperBlock) : List ℕ :=
  (List.range lsb.entryCount).map fun k =>
    if k / 1024 < lsb.dbPoolCurrentBlock - lsb.dbPoolStartBlock then
      lsb.device.words (lsb.dbPoolStartBlock + k / 1024) (k % 1024)
    else lsb.dbPool (k % 1024)

/-- The pool is well formed and its entries are the stack of block numbers, with the last
one on top. -/
structure Holds (lsb : SuperBlock) (stack : List ℕ) : Prop extends WellFormed lsb where
  length_eq : stack.length = lsb.entryCount
  below : ∀ j < lsb.dbPoolCurrentBlock - lsb.dbPoolStartBlock, ∀ i < 1024,
    stack[1024 * j + i]? = some (lsb.device.words (lsb.dbPoolStartBlock + j) i)
  top : ∀ i ≤ lsb.dbPoolPos,
    stack[1024 * (lsb.dbPoolCurrentBlock - lsb.dbPoolStartBlock) + i]? = some (lsb.dbPool i)

/-- A call of the pool, with the block number that a push adds. -/
inductive PoolCall where
  | pop
  | push (block : ℕ)
deriving DecidableEq, Repr

/-- What a stack of at least one and at most `limit` block numbers does: the value
returned and the stack afterwards. It is `none` for a call that leaves these bounds and
for a push of the number 0. -/
def stackCall (limit : ℕ) : PoolCall → List ℕ → Option (ℤ × List ℕ)
  | .pop, stack => if 2 ≤ stack.length then some (stack.getLastD 0, stack.dropLast) else none
  | .push block, stack =>
    if block ≠ 0 ∧ stack.length + 1 ≤ limit then some (0, stack ++ [block]) else none

/-- The call of the source, with a device that serves it. -/
def poolCall : PoolCall → SuperBlock → ℤ × SuperBlock
  | .pop, lsb => ((popBlock true lsb).1, (popBlock true lsb).2)
  | .push block, lsb => pushBlock true lsb block

/-- The pool and the stack it should be, with the values that the calls on both have
returned. -/
structure PoolRun where
  lsb : SuperBlock
  stack : List ℕ
  returned : List ℤ
  expected : List ℤ

/-- One call on both. -/
def PoolRun.step (call : PoolCall) (r : PoolRun) : Option PoolRun :=
  (stackCall (1024 * r.lsb.dbPoolBlockNr) call r.stack).map fun result =>
    { lsb := (poolCall call r.lsb).2
      stack := result.2
      returned := r.returned ++ [(poolCall call r.lsb).1]
      expected := r.expected ++ [result.1] }

/-- A pool and its stack before the first call. -/
def PoolRun.start (lsb : SuperBlock) (stack : List ℕ) : PoolRun :=
  { lsb := lsb, stack := stack, returned := [], expected := [] }

variable {lsb : SuperBlock} {stack : List ℕ}

/-- A well-formed pool holds the list of its entries. -/
theorem WellFormed.holds_entries (h : WellFormed lsb) : Holds lsb lsb.entries where
  toWellFormed := h
  length_eq := by rw [SuperBlock.entries, length_map, length_range]
  below := by
    intro j hj i hi
    have hk : 1024 * j + i < lsb.entryCount := by
      unfold SuperBlock.entryCount
      omega
    have hdiv : (1024 * j + i) / 1024 = j := by omega
    have hmod : (1024 * j + i) % 1024 = i := by omega
    rw [SuperBlock.entries, getElem?_map, getElem?_range hk, map_some, hdiv, hmod, if_pos hj]
  top := by
    intro i hi
    have hpos := h.pos_lt
    let n := lsb.dbPoolCurrentBlock - lsb.dbPoolStartBlock
    have hk : 1024 * n + i < lsb.entryCount := by
      unfold SuperBlock.entryCount
      omega
    have hdiv : (1024 * n + i) / 1024 = n := by omega
    have hmod : (1024 * n + i) % 1024 = i := by omega
    rw [SuperBlock.entries, getElem?_map, getElem?_range hk, map_some, hdiv,
      hmod, if_neg (lt_irrefl n)]

variable {block : ℕ}

theorem WellFormed.diskBlock_eq (h : WellFormed lsb)
    (hblock : block < lsb.dbPoolStartBlock + lsb.dbPoolBlockNr) : diskBlock block = block := by
  have hdisk := h.on_disk
  unfold diskBlock
  omega

section
variable (h : Holds lsb stack)
include h

theorem Holds.getLastD_eq : stack.getLastD 0 = lsb.dbPool lsb.dbPoolPos := by
  have hlen := h.length_eq
  have htop := h.top _ le_rfl
  rw [getLastD_eq_getLast?, getLast?_eq_getElem?, hlen, SuperBlock.entryCount,
    Nat.add_sub_cancel, htop]
  exact getD_some

/-- The number of entries below the block in memory is not zero when the top is the only
entry of that block. -/
theorem Holds.start_lt (htwo : 2 ≤ stack.length) (hpos : lsb.dbPoolPos = 0) :
    lsb.dbPoolStartBlock < lsb.dbPoolCurrentBlock := by
  have hlen := h.length_eq
  unfold SuperBlock.entryCount at hlen
  omega

theorem Holds.popBlock_inside (hpos : lsb.dbPoolPos ≠ 0) :
    popBlock true lsb = (stack.getLastD 0, { lsb with dbPoolPos := lsb.dbPoolPos - 1 }) := by
  rw [h.getLastD_eq]
  simp only [popBlock, h.some_free, hpos, if_false]

/-- A pop of the only entry of the block in memory reads the block below back. -/
theorem Holds.popBlock_across (htwo : 2 ≤ stack.length) (hpos : lsb.dbPoolPos = 0) :
    popBlock true lsb =
      (stack.getLastD 0,
        { lsb with
          dbPool := lsb.device.words (lsb.dbPoolCurrentBlock - 1)
          dbPoolCurrentBlock := lsb.dbPoolCurrentBlock - 1
          dbPoolPos := 1023 }) := by
  have hlt := h.start_lt htwo hpos
  have hcur := h.current_lt
  have hdisk := h.on_disk
  have hprev : (lsb.dbPoolCurrentBlock + (2 ^ 32 - 1)) % 2 ^ 32 = lsb.dbPoolCurrentBlock - 1 := by
    omega
  have hblock : diskBlock (lsb.dbPoolCurrentBlock - 1) = lsb.dbPoolCurrentBlock - 1 :=
    h.diskBlock_eq (by omega)
  have hge : lsb.dbPoolStartBlock ≤ lsb.dbPoolCurrentBlock - 1 := by omega
  rw [h.getLastD_eq]
  simp only [popBlock, h.some_free, hpos, if_false, if_true, hprev, hblock, hge]

/-- What a call leaves as it is: the range of the pool, and the disk except for a block of
that range that it may write. -/
structure Keeps (lsb lsb' : SuperBlock) : Prop where
  start_eq : lsb'.dbPoolStartBlock = lsb.dbPoolStartBlock
  nr_eq : lsb'.dbPoolBlockNr = lsb.dbPoolBlockNr
  written_eq : lsb'.device.written = lsb.device.written ∨
    lsb'.device.written = lsb.device.written ++ [lsb.dbPoolCurrentBlock]

/-- A pop from a pool of two or more numbers returns the top, leaves the rest and writes nothing. -/
theorem Holds.pop (htwo : 2 ≤ stack.length) :
    (popBlock true lsb).1 = stack.getLastD 0 ∧ Holds (popBlock true lsb).2 stack.dropLast ∧
      Keeps lsb (popBlock true lsb).2 := by
  have hlen := h.length_eq
  unfold SuperBlock.entryCount at hlen
  by_cases hpos : lsb.dbPoolPos = 0
  · rw [h.popBlock_across htwo hpos]
    have hlt := h.start_lt htwo hpos
    have hcur := h.current_lt
    refine ⟨rfl, ?_, ⟨rfl, rfl, .inl rfl⟩⟩
    exact {
      start_le := by dsimp only; omega
      current_lt := by dsimp only; omega
      on_disk := h.on_disk
      pos_lt := by dsimp only; omega
      some_free := h.some_free
      length_eq := by
        rw [length_dropLast]
        dsimp only [SuperBlock.entryCount]
        omega
      below := by
        intro j hj i hi
        dsimp only at hj ⊢
        rw [getElem?_dropLast, if_pos (by omega)]
        exact h.below j (by omega) i hi
      top := by
        intro i hi
        dsimp only at hi ⊢
        rw [getElem?_dropLast, if_pos (by omega), h.below _ (by omega) i (by omega)]
        congr 2
        omega }
  · rw [h.popBlock_inside hpos]
    have hlt := h.pos_lt
    refine ⟨rfl, ?_, ⟨rfl, rfl, .inl rfl⟩⟩
    exact {
      start_le := h.start_le
      current_lt := h.current_lt
      on_disk := h.on_disk
      pos_lt := by dsimp only; omega
      some_free := h.some_free
      length_eq := by
        rw [length_dropLast]
        dsimp only [SuperBlock.entryCount]
        omega
      below := by
        intro j hj i hi
        dsimp only at hj ⊢
        rw [getElem?_dropLast, if_pos (by omega)]
        exact h.below j hj i hi
      top := by
        intro i hi
        dsimp only at hi ⊢
        rw [getElem?_dropLast, if_pos (by omega)]
        exact h.top i (by omega) }

theorem Holds.pushBlock_inside (hblock : block ≠ 0) (hpos : lsb.dbPoolPos ≠ 1023) :
    pushBlock true lsb block =
      (0,
        { lsb with
          dbPool := update lsb.dbPool (lsb.dbPoolPos + 1) block
          dbPoolPos := lsb.dbPoolPos + 1 }) := by
  have hlt := h.pos_lt
  have hnext : (lsb.dbPoolPos + 1) % 2 ^ 32 = lsb.dbPoolPos + 1 := by omega
  have hne : lsb.dbPoolPos + 1 ≠ 1024 := by omega
  simp only [pushBlock, hblock, if_false, hnext, hne]

/-- A push onto a full block writes it to the disk and starts the next one. -/
theorem Holds.pushBlock_across (hblock : block ≠ 0) (hpos : lsb.dbPoolPos = 1023) :
    pushBlock true lsb block =
      (0,
        { lsb with
          device := {
            words := update lsb.device.words lsb.dbPoolCurrentBlock lsb.dbPool
            written := lsb.device.written ++ [lsb.dbPoolCurrentBlock] }
          dbPool := update lsb.dbPool 0 block
          dbPoolCurrentBlock := lsb.dbPoolCurrentBlock + 1
          dbPoolPos := 0 }) := by
  have hcur := h.current_lt
  have hdisk := h.on_disk
  have hnext : (lsb.dbPoolCurrentBlock + 1) % 2 ^ 32 = lsb.dbPoolCurrentBlock + 1 := by omega
  have hfull : (lsb.dbPoolPos + 1) % 2 ^ 32 = 1024 := by omega
  simp only [pushBlock, hblock, if_false, hfull, if_true, hnext, Device.write, h.diskBlock_eq hcur]

/-- A push that leaves the pool within its blocks adds a new top, and writes at most the block
that was in memory. -/
theorem Holds.push (hblock : block ≠ 0) (hroom : stack.length + 1 ≤ 1024 * lsb.dbPoolBlockNr) :
    (pushBlock true lsb block).1 = 0 ∧ Holds (pushBlock true lsb block).2 (stack ++ [block]) ∧
      Keeps lsb (pushBlock true lsb block).2 := by
  have hlen := h.length_eq
  unfold SuperBlock.entryCount at hlen
  have hstart := h.start_le
  by_cases hpos : lsb.dbPoolPos = 1023
  · rw [h.pushBlock_across hblock hpos]
    refine ⟨rfl, ?_, ⟨rfl, rfl, .inr rfl⟩⟩
    exact {
      start_le := by dsimp only; omega
      current_lt := by dsimp only; omega
      on_disk := h.on_disk
      pos_lt := by dsimp only; omega
      some_free := h.some_free
      length_eq := by
        rw [length_append, length_singleton]
        dsimp only [SuperBlock.entryCount]
        omega
      below := by
        intro j hj i hi
        dsimp only at hj ⊢
        rw [getElem?_append_left (by omega)]
        -- The block just written holds what was in memory, the others are unchanged.
        by_cases hlast : lsb.dbPoolStartBlock + j = lsb.dbPoolCurrentBlock
        · have hj' : j = lsb.dbPoolCurrentBlock - lsb.dbPoolStartBlock := by omega
          rw [hlast, update_self, hj']
          exact h.top i (by omega)
        · rw [update_of_ne hlast]
          exact h.below j (by omega) i hi
      top := by
        intro i hi
        dsimp only at hi ⊢
        obtain rfl : i = 0 := by omega
        rw [getElem?_append_right (by omega), update_self]
        have hzero : 1024 * (lsb.dbPoolCurrentBlock + 1 - lsb.dbPoolStartBlock) + 0 -
            stack.length = 0 := by omega
        rw [hzero]
        rfl }
  · rw [h.pushBlock_inside hblock hpos]
    have hlt := h.pos_lt
    refine ⟨rfl, ?_, ⟨rfl, rfl, .inl rfl⟩⟩
    exact {
      start_le := hstart
      current_lt := h.current_lt
      on_disk := h.on_disk
      pos_lt := by dsimp only; omega
      some_free := h.some_free
      length_eq := by
        rw [length_append, length_singleton]
        dsimp only [SuperBlock.entryCount]
        omega
      below := by
        intro j hj i hi
        dsimp only at hj ⊢
        rw [getElem?_append_left (by omega)]
        exact h.below j hj i hi
      top := by
        intro i hi
        dsimp only at hi ⊢
        by_cases htop : i = lsb.dbPoolPos + 1
        · subst htop
          rw [getElem?_append_right (by omega), update_self]
          have hzero : 1024 * (lsb.dbPoolCurrentBlock - lsb.dbPoolStartBlock) +
              (lsb.dbPoolPos + 1) - stack.length = 0 := by omega
          rw [hzero]
          rfl
        · rw [getElem?_append_left (by omega), update_of_ne htop]
          exact h.top i (by omega) }

/-- A call on a pool that holds a stack does what the call on the stack does. -/
theorem Holds.poolCall_spec {call : PoolCall} {result : ℤ × List ℕ}
    (hcall : stackCall (1024 * lsb.dbPoolBlockNr) call stack = some result) :
    (poolCall call lsb).1 = result.1 ∧ Holds (poolCall call lsb).2 result.2 ∧
      Keeps lsb (poolCall call lsb).2 := by
  cases call with
  | pop =>
    simp only [stackCall, ite_none_right_eq_some, some.injEq] at hcall
    obtain ⟨htwo, rfl⟩ := hcall
    exact (h.pop htwo).imp_left (congrArg Nat.cast)
  | push block =>
    simp only [stackCall, ite_none_right_eq_some, some.injEq] at hcall
    obtain ⟨⟨hblock, hroom⟩, rfl⟩ := hcall
    exact h.push hblock hroom

/-- A run keeps to the stack: the pool holds it, the calls have returned what it returns,
and every block written since the start is one of the pool. -/
structure PoolRun.Inv (lsb : SuperBlock) (r : PoolRun) : Prop where
  holds : Holds r.lsb r.stack
  agree : r.returned = r.expected
  start_eq : r.lsb.dbPoolStartBlock = lsb.dbPoolStartBlock
  nr_eq : r.lsb.dbPoolBlockNr = lsb.dbPoolBlockNr
  inside : ∃ blocks, r.lsb.device.written = lsb.device.written ++ blocks ∧
    ∀ b ∈ blocks, lsb.dbPoolStartBlock ≤ b ∧ b < lsb.dbPoolStartBlock + lsb.dbPoolBlockNr

theorem PoolRun.start_inv : (PoolRun.start lsb stack).Inv lsb where
  holds := h
  agree := rfl
  start_eq := rfl
  nr_eq := rfl
  inside := ⟨[], (append_nil _).symm, by simp⟩

end

/-- Every call within the bounds keeps the run to the stack. -/
theorem PoolRun.step_inv (call : PoolCall) (r r' : PoolRun) (hr : r.Inv lsb)
    (hstep : r.step call = some r') : r'.Inv lsb := by
  obtain ⟨result, hcall, rfl⟩ := map_eq_some_iff.mp hstep
  obtain ⟨hreturn, hholds, hkeeps⟩ := hr.holds.poolCall_spec hcall
  obtain ⟨blocks, hwritten, hblocks⟩ := hr.inside
  exact {
    holds := hholds
    agree := by rw [hreturn, hr.agree]
    start_eq := hkeeps.start_eq.trans hr.start_eq
    nr_eq := hkeeps.nr_eq.trans hr.nr_eq
    inside := by
      rcases hkeeps.written_eq with hsame | hone
      · exact ⟨blocks, hsame.trans hwritten, hblocks⟩
      · refine ⟨blocks ++ [r.lsb.dbPoolCurrentBlock], ?_, ?_⟩
        · rw [hone, hwritten, append_assoc]
        · intro b hb
          rcases mem_append.mp hb with hb | hb
          · exact hblocks b hb
          · have hcur := hr.holds.current_lt
            have hstart := hr.holds.start_le
            rw [hr.start_eq, hr.nr_eq] at hcur
            rw [hr.start_eq] at hstart
            rw [mem_singleton.mp hb]
            exact ⟨hstart, hcur⟩ }

theorem pushBlock_of_write_fails (hblock : block ≠ 0) (hpos : lsb.dbPoolPos = 1023) :
    pushBlock false lsb block = (-eio, lsb) := by
  simp [pushBlock, hblock, hpos]

/-- From a well-formed pool, every sequence of calls that keeps the stack of its entries
within its bounds returns what the stack returns, leaves a pool that holds the stack and
writes only blocks of the pool. A push onto a full block whose write fails changes
nothing. -/
theorem pool_is_stack {lsb : SuperBlock} (hpool : WellFormed lsb) :
    (∀ (calls : List PoolCall) (r : PoolRun),
      Runs.run PoolRun.step calls (PoolRun.start lsb lsb.entries) = some r →
        r.returned = r.expected ∧ Holds r.lsb r.stack ∧
          ∃ blocks, r.lsb.device.written = lsb.device.written ++ blocks ∧
            ∀ b ∈ blocks, lsb.dbPoolStartBlock ≤ b ∧ b < lsb.dbPoolStartBlock + lsb.dbPoolBlockNr) ∧
      ∀ (lsb' : SuperBlock) (block : ℕ), block ≠ 0 → lsb'.dbPoolPos = 1023 →
        pushBlock false lsb' block = (-eio, lsb') := by
  constructor
  · intro calls r hrun
    have hinv : r.Inv lsb :=
      Runs.invariant_of_run PoolRun.step_inv (PoolRun.start_inv hpool.holds_entries) hrun
    exact ⟨hinv.agree, hinv.holds, hinv.inside⟩
  · intro lsb' block hblock hpos
    exact pushBlock_of_write_fails hblock hpos

/-- A pool of two blocks, the first of which is full and in memory. -/
def fullPool : SuperBlock :=
  { dbPoolStartBlock := 2, dbPoolCurrentBlock := 2, dbPoolPos := 1023, dbPoolBlockNr := 2
    dataFreeBlocks := 1024, dbPool := fun i => i + 100
    device := { words := fun _ _ => 0, written := [] } }

/-- The theorem applies to a push that fills the first block of the pool, and to pops
that go back to it. -/
theorem pool_is_stack_fullPool :
    ∃ r, Runs.run PoolRun.step [.push 7, .pop, .pop] (PoolRun.start fullPool fullPool.entries) =
        some r ∧ r.expected = [0, 7, 1123] ∧ r.returned = r.expected := by
  refine Runs.exists_some_imp (P := fun r => r.expected = [0, 7, 1123]) (by decide +kernel)
    fun r hrun hexpected => ⟨hexpected, ?_⟩
  have hpool : WellFormed fullPool := by constructor <;> decide
  exact ((pool_is_stack hpool).1 _ r hrun).1

end Chunos.Lmfs
