import Chunos.Lib.Runs
import Chunos.Fs.Vfs

/-!
# The block cursor of an LMFS file

An LMFS file finds its data through two levels of block numbers. Level 0 is part of
the file node and names index blocks, and an index block names 1024 data blocks. The
node caches one index block and the position of its cursor in both levels. This file
compares `lmfs_get_data_block` with a cursor over the list of data blocks. The two
agree as long as the cached index block is never replaced.
-/

namespace Chunos

open Option

namespace Lmfs

/-- `os/file.h`, `DT_BLK`: the type of a file that is not a directory. -/
def dtBlk : ℕ := 6

/-- The words of an index block. -/
def wordsPerBlock : ℕ := 1024

/-- What `lmfs_read_block` gives for each block number: the words of the block, or the
error of the block device. -/
abbrev Disk := ℕ → Except ℤ (ℕ → ℕ)

/-- `struct lmfs_fnode_entry`, with the fields that describe the data of the file. -/
structure FnodeEntry where
  type : ℕ
  blockNr : ℕ
  dataBlock : ℕ → ℕ

/-- `struct lmfs_fnode`. The pointers `lvl0` and `bitmap` point into `data_block`, so
they are kept as indices, and `lvl1` is the content of the cached index block. -/
structure Fnode where
  lvl1 : ℕ → ℕ
  dataBlock : ℕ → ℕ
  posInLvl1 : ℕ
  posInLvl0 : ℕ
  currentBlock : ℕ
  blockCount : ℕ
  bitmap : Option ℕ
  lvl0 : ℕ

/-- The place of level 0 in `data_block`: a directory keeps its bitmap in front of it. -/
def FnodeEntry.lvl0Base (entry : FnodeEntry) : ℕ := if entry.type = dtBlk then 0 else 32

/-- `init_data_block_info`: put the cursor on the first block of the file. -/
def initDataBlockInfo (disk : Disk) (lfnode : Fnode) (entry : FnodeEntry) : ℤ × Fnode :=
  let lfnode :=
    { lfnode with
      dataBlock := entry.dataBlock
      posInLvl0 := 0
      posInLvl1 := 0
      blockCount := entry.blockNr
      bitmap := if entry.type = dtBlk then none else some 0
      lvl0 := entry.lvl0Base }
  match disk (lfnode.dataBlock lfnode.lvl0) with
  | .error ret => (ret, lfnode)
  | .ok buffer => (0, { lfnode with lvl1 := buffer, currentBlock := buffer 0 })

/-- Replace the cached index block by block `block` and put the cursor on its entry
`pos1`. When the read fails the call returns `0` and the cursor stays. -/
def Fnode.reload (disk : Disk) (lfnode : Fnode) (block pos0 pos1 : ℕ) : ℕ × Fnode :=
  match disk block with
  | .error _ => (0, lfnode)
  | .ok buffer =>
    (buffer pos1,
      { lfnode with
        lvl1 := buffer, posInLvl0 := pos0, posInLvl1 := pos1, currentBlock := buffer pos1 })

/-- Put the cursor on entry `pos1` of the cached index block. -/
def Fnode.seekIn (lfnode : Fnode) (pos1 : ℕ) : ℕ × Fnode :=
  (lfnode.lvl1 pos1, { lfnode with posInLvl1 := pos1, currentBlock := lfnode.lvl1 pos1 })

/-- `lmfs_get_data_block`. The source initialises both `buffer` and `db_buffer` with
`lvl1`, so the index block to read next is looked up in the cached index block and not
in level 0. -/
def getDataBlock (disk : Disk) (lfnode : Fnode) (whence : VfsWhence) : ℕ × Fnode :=
  let pos := lfnode.posInLvl0
  let posDb := lfnode.posInLvl1
  let dbBuffer := lfnode.lvl1
  match whence with
  | .startBlock =>
    if pos = 0 ∧ posDb = 0 then (lfnode.currentBlock, lfnode)
    else lfnode.reload disk (dbBuffer 0) 0 0
  | .currentBlock => (lfnode.currentBlock, lfnode)
  | .nextBlock =>
    if posDb = 1023 then
      if dbBuffer (pos + 1) ≠ 0 then lfnode.reload disk (dbBuffer (pos + 1)) (pos + 1) 0
      else (0, lfnode)
    else lfnode.seekIn (posDb + 1)
  | .prevBlock =>
    if posDb = 0 then
      if pos = 0 then (0, lfnode) else lfnode.reload disk (dbBuffer (pos - 1)) (pos - 1) 1023
    else lfnode.seekIn (posDb - 1)
  | .endBlock => (0, lfnode)

/-- The layout of a file on the disk: the data blocks are named by the index blocks and
the index blocks by level 0, level 0 is large enough, and blocks can be read. -/
structure Layout (disk : Disk) (entry : FnodeEntry) (blocks : List ℕ) : Prop where
  nonempty : 0 < blocks.length
  bound : blocks.length ≤ (64 - entry.lvl0Base) * wordsPerBlock
  readable : ∀ b, ∃ buffer, disk b = .ok buffer
  indexed : ∀ j i buffer, i < wordsPerBlock →
    disk (entry.dataBlock (entry.lvl0Base + j)) = .ok buffer →
    ∀ h : j * wordsPerBlock + i < blocks.length, buffer i = blocks[j * wordsPerBlock + i]

/-- The cursor over the list of `n` data blocks that the calls move. It is `none` for a
move that leaves the list. -/
def moveCursor (n : ℕ) : VfsWhence → ℕ → Option ℕ
  | .startBlock, _ => some 0
  | .currentBlock, c => some c
  | .nextBlock, c => if c + 1 < n then some (c + 1) else none
  | .prevBlock, c => if 0 < c then some (c - 1) else none
  | .endBlock, _ => none

/-- A file node with the cursor it should have, the block numbers that the calls
returned and the block numbers at the cursor. -/
structure CursorRun where
  lfnode : Fnode
  cursor : ℕ
  returned : List ℕ
  expected : List ℕ

/-- One call that stays within the list of data blocks. -/
def CursorRun.step (disk : Disk) (blocks : List ℕ) (whence : VfsWhence) (r : CursorRun) :
    Option CursorRun :=
  (moveCursor blocks.length whence r.cursor).map fun c =>
    { lfnode := (getDataBlock disk r.lfnode whence).2
      cursor := c
      returned := r.returned ++ [(getDataBlock disk r.lfnode whence).1]
      expected := r.expected ++ blocks[c]?.toList }

/-- The node that `init_data_block_info` leaves, before the first call. -/
def CursorRun.start (disk : Disk) (lfnode : Fnode) (entry : FnodeEntry) : CursorRun :=
  { lfnode := (initDataBlockInfo disk lfnode entry).2, cursor := 0, returned := [], expected := [] }

/-- The calls that leave the cached index block in place: a rewind of a cursor that is
already on the first block, and a step forward that stays within the index block. -/
def KeepsIndex (whence : VfsWhence) (r : CursorRun) : Prop :=
  (whence = .startBlock → r.cursor = 0) ∧ (whence = .nextBlock → r.cursor % wordsPerBlock ≠ 1023)

instance (whence : VfsWhence) (r : CursorRun) : Decidable (KeepsIndex whence r) :=
  inferInstanceAs (Decidable (_ ∧ _))

/-- The node agrees with the cursor: the cached index block is the first one, and the
node points at the entry of the cursor. -/
structure CursorRun.Inv (blocks : List ℕ) (r : CursorRun) : Prop where
  inside : r.cursor < blocks.length
  first : r.cursor < wordsPerBlock
  lvl0_eq : r.lfnode.posInLvl0 = 0
  lvl1_eq : r.lfnode.posInLvl1 = r.cursor
  cached : ∀ i < wordsPerBlock, ∀ h : i < blocks.length, r.lfnode.lvl1 i = blocks[i]
  current : r.lfnode.currentBlock = blocks[r.cursor]
  agree : r.returned = r.expected

variable {blocks : List ℕ} {disk : Disk} {r : CursorRun}

/-- After `init_data_block_info` the node agrees with a cursor on the first block. -/
theorem CursorRun.start_inv {entry : FnodeEntry} (hlay : Layout disk entry blocks) (lfnode : Fnode) :
    (CursorRun.start disk lfnode entry).Inv blocks := by
  obtain ⟨buffer, hbuffer⟩ := hlay.readable (entry.dataBlock entry.lvl0Base)
  have hindexed : ∀ i < wordsPerBlock, ∀ h : i < blocks.length, buffer i = blocks[i] := by
    intro i hi h
    simpa using hlay.indexed 0 i buffer hi (by simpa using hbuffer) (by simpa using h)
  have hfirst : 0 < wordsPerBlock := by decide
  simp only [start, initDataBlockInfo, hbuffer]
  exact {
    inside := hlay.nonempty
    first := hfirst
    lvl0_eq := rfl
    lvl1_eq := rfl
    cached := hindexed
    current := hindexed 0 hfirst hlay.nonempty
    agree := rfl }

/-- A call that only moves the cursor within the cached index block keeps the agreement. -/
theorem CursorRun.Inv.seekIn (hr : r.Inv blocks) {whence : VfsWhence} {c : ℕ}
    (hc : c < blocks.length) (hc' : c < wordsPerBlock)
    (hget : getDataBlock disk r.lfnode whence = r.lfnode.seekIn c) :
    CursorRun.Inv blocks
      { lfnode := (getDataBlock disk r.lfnode whence).2
        cursor := c
        returned := r.returned ++ [(getDataBlock disk r.lfnode whence).1]
        expected := r.expected ++ blocks[c]?.toList } := by
  rw [hget]
  have hblock := hr.cached c hc' hc
  exact {
    inside := hc
    first := hc'
    lvl0_eq := hr.lvl0_eq
    lvl1_eq := rfl
    cached := hr.cached
    current := hblock
    agree := by
      simp only [Fnode.seekIn, hr.agree, hblock, List.getElem?_eq_getElem hc, toList_some] }

theorem CursorRun.Inv.seekIn_cursor (hr : r.Inv blocks) :
    r.lfnode.seekIn r.cursor = (r.lfnode.currentBlock, r.lfnode) := by
  have hblock : r.lfnode.lvl1 r.cursor = r.lfnode.currentBlock :=
    (hr.cached _ hr.first hr.inside).trans hr.current.symm
  simp only [Fnode.seekIn, hblock]
  rw [← hr.lvl1_eq]

/-- Every call that leaves the index block in place keeps the agreement. -/
theorem CursorRun.step_inv (whence : VfsWhence) (r r' : CursorRun) (hr : r.Inv blocks)
    (hkeep : KeepsIndex whence r) (hstep : r.step disk blocks whence = some r') :
    r'.Inv blocks := by
  obtain ⟨c, hmove, hr'⟩ := map_eq_some_iff.mp hstep
  subst hr'
  have hpos := hr.lvl1_eq
  have hfirst := hr.first
  have hinside := hr.inside
  cases whence with
  | startBlock =>
    have hzero : r.cursor = 0 := hkeep.1 rfl
    obtain rfl : 0 = c := by simpa [moveCursor] using hmove
    apply hr.seekIn (by omega) (by decide)
    rw [← hzero, hr.seekIn_cursor]
    simp [getDataBlock, hr.lvl0_eq, hpos, hzero]
  | currentBlock =>
    obtain rfl : r.cursor = c := by simpa [moveCursor] using hmove
    apply hr.seekIn hinside hfirst
    exact hr.seekIn_cursor.symm
  | nextBlock =>
    have hmod := hkeep.2 rfl
    simp only [moveCursor, ite_none_right_eq_some, some.injEq] at hmove
    obtain ⟨hlt, rfl⟩ := hmove
    -- The cursor is inside the first index block, so its entry is the cursor itself.
    rw [Nat.mod_eq_of_lt hfirst] at hmod
    apply hr.seekIn hlt (by simp only [wordsPerBlock] at *; omega)
    simp only [getDataBlock, hpos, hmod, if_false]
  | prevBlock =>
    simp only [moveCursor, ite_none_right_eq_some, some.injEq] at hmove
    obtain ⟨hlt, rfl⟩ := hmove
    apply hr.seekIn (by omega) (by omega)
    simp only [getDataBlock, hpos, hlt.ne', if_false]
  | endBlock => simp [moveCursor] at hmove

/-- A disk with one file of two blocks: level 0 names block 2, which lists the data
blocks 3 and 4, and every word of data block `b` is `b + 6`. -/
def twoBlockDisk : Disk := fun b =>
  .ok (if b = 2 then fun i => if i = 0 then 3 else if i = 1 then 4 else 0 else fun _ => b + 6)

/-- The directory entry of that file. -/
def twoBlockEntry : FnodeEntry :=
  { type := dtBlk, blockNr := 2, dataBlock := fun i => if i = 0 then 2 else 0 }

/-- A node before `init_data_block_info` has run. -/
def blankFnode : Fnode :=
  { lvl1 := fun _ => 0, dataBlock := fun _ => 0, posInLvl1 := 0, posInLvl0 := 0
    currentBlock := 0, blockCount := 0, bitmap := none, lvl0 := 0 }

theorem twoBlockDisk_layout : Layout twoBlockDisk twoBlockEntry [3, 4] where
  nonempty := by decide
  bound := by decide
  readable := fun b => ⟨_, rfl⟩
  indexed := by
    rintro j i buffer hi hread hlt
    simp only [List.length_cons, List.length_nil, wordsPerBlock] at hlt hi
    obtain rfl : j = 0 := by omega
    simp only [twoBlockDisk, twoBlockEntry, FnodeEntry.lvl0Base, Except.ok.injEq] at hread
    subst hread
    obtain rfl | rfl : i = 0 ∨ i = 1 := by omega
    all_goals simp

/-- As long as the calls leave the index block in place, each of them returns the block
number at the cursor over the list of data blocks. -/
theorem getDataBlock_follows_cursor {disk : Disk} {entry : FnodeEntry} {blocks : List ℕ}
    (hlay : Layout disk entry blocks) (lfnode : Fnode) (calls : List VfsWhence)
    (hkeep : Runs.Meets (CursorRun.step disk blocks) KeepsIndex calls
      (CursorRun.start disk lfnode entry)) {r : CursorRun}
    (hrun : Runs.run (CursorRun.step disk blocks) calls (CursorRun.start disk lfnode entry) =
      some r) : r.returned = r.expected := by
  have hstart := CursorRun.start_inv hlay lfnode
  have hinv := Runs.invariant_of_meets CursorRun.step_inv hstart hkeep hrun
  exact hinv.agree

/-- The theorem applies to a walk over the file of two blocks and back. -/
theorem getDataBlock_follows_cursor_twoBlock :
    ∃ r, Runs.run (CursorRun.step twoBlockDisk [3, 4])
        [.currentBlock, .nextBlock, .prevBlock, .startBlock]
        (CursorRun.start twoBlockDisk blankFnode twoBlockEntry) = some r ∧
      r.expected = [3, 4, 3, 3] ∧ r.returned = r.expected := by
  refine Runs.exists_some_imp (P := fun r => r.expected = [3, 4, 3, 3]) (by decide)
    fun r hrun hexpected => ⟨hexpected, ?_⟩
  exact getDataBlock_follows_cursor twoBlockDisk_layout blankFnode _ (by decide) hrun

/-- On the file of two blocks a rewind from the second block returns a word of the first
data block instead of the number of the first data block. -/
theorem getDataBlock_rewind_twoBlock :
    Layout twoBlockDisk twoBlockEntry [3, 4] ∧
      (Runs.run (CursorRun.step twoBlockDisk [3, 4]) [.nextBlock, .startBlock]
        (CursorRun.start twoBlockDisk blankFnode twoBlockEntry)).map
          (fun r => (r.expected, r.returned)) = some ([4, 3], [4, 9]) :=
  ⟨twoBlockDisk_layout, by decide⟩

end Lmfs

end Chunos
