import Chunos.Fs.LmfsDrain

/-!
# Appending a block to an LMFS file

`lmfs_get_new_block` takes a block from the pool, enters it in the cached index block and
writes that to the disk. The block it writes to is given by the position of the index block in
level 0, where the number that level 0 has at this position is meant. A full index block is
replaced by a new one only when that position is 64, behind the end of level 0, so otherwise
the entry behind the last one is written.
-/

namespace Chunos.Lmfs

open Function List

/-- The transfers that `lmfs_get_new_block` may make, in the calls of the pool and by itself. -/
inductive Transfer
  | popBlock | popLevel1 | writeFull | pushLevel1 | pushBlock | writeIndex
deriving DecidableEq

/-- The end of `lmfs_get_new_block`: enter the block at `pos2` and write the index block. The
error of this write is not looked at. -/
def enterBlock (io : Transfer → Bool) (newBlock pos1 pos2 : ℕ) (lfnode : Fnode)
    (lsb : SuperBlock) : ℕ × Fnode × SuperBlock :=
  let lvl1 := update lfnode.lvl1 pos2 newBlock
  (newBlock, { lfnode with lvl1 := lvl1, posInLvl0 := pos1, posInLvl1 := pos2 + 1 },
    if io .writeIndex then { lsb with device := lsb.device.write pos1 lvl1 } else lsb)

/-- `lmfs_get_new_block`. The argument `io` says which transfers the device serves. The error
for a full disk is returned as an unsigned word. -/
def getNewBlock (io : Transfer → Bool) (lfnode : Fnode) (lsb : SuperBlock) :
    ℕ × Fnode × SuperBlock :=
  let pos1 := lfnode.posInLvl0
  let pos2 := lfnode.posInLvl1
  let (newBlock, lsb) := popBlock (io .popBlock) lsb
  if newBlock = 0 then (2 ^ 32 - enospc.toNat, lfnode, lsb)
  else if pos2 = 1024 ∧ pos1 = 64 then
    let (newLevel1, lsb) := popBlock (io .popLevel1) lsb
    if newLevel1 = 0 then (0, lfnode, (pushBlock (io .pushBlock) lsb newBlock).2)
    else if io .writeFull then
      let lfnode' := { lfnode with
        dataBlock := update lfnode.dataBlock (lfnode.lvl0 + (pos1 + 1)) newLevel1
        lvl1 := fun i => if i < 1024 then 0 else lfnode.lvl1 i }
      enterBlock io newBlock (pos1 + 1) 0 lfnode'
        { lsb with device := lsb.device.write pos1 lfnode.lvl1 }
    else
      let lsb := (pushBlock (io .pushLevel1) lsb newLevel1).2
      (0, lfnode, (pushBlock (io .pushBlock) lsb newBlock).2)
  else enterBlock io newBlock pos1 pos2 lfnode lsb

/-- The number of the index block at a position of level 0. -/
def Fnode.indexBlock (lfnode : Fnode) (pos : ℕ) : ℕ := lfnode.dataBlock (lfnode.lvl0 + pos)

/-- The data blocks of a file whose positions are at its end: those in the index blocks on the
disk, and those in the cached one. -/
def blockList (device : Device) (lfnode : Fnode) : List ℕ :=
  (List.range lfnode.posInLvl0).flatMap
      (fun j => (List.range 1024).map (device.words (lfnode.indexBlock j))) ++
    (List.range (min lfnode.posInLvl1 1024)).map lfnode.lvl1

/-- A file that is not at its maximal length, with its positions at its end. Its index blocks
are blocks of the disk, the last one is not among the others and is cached, and the entries
behind the end are 0. -/
structure Appendable (device : Device) (lfnode : Fnode) : Prop where
  inside : lfnode.lvl0 + lfnode.posInLvl0 < 64
  pos_le : lfnode.posInLvl1 ≤ 1024
  room : lfnode.posInLvl1 < 1024 ∨ lfnode.lvl0 + lfnode.posInLvl0 + 1 < 64
  other : ∀ j < lfnode.posInLvl0, lfnode.indexBlock j ≠ lfnode.indexBlock lfnode.posInLvl0
  cached : ∀ i < 1024, device.words (lfnode.indexBlock lfnode.posInLvl0) i = lfnode.lvl1 i
  unused : ∀ i, lfnode.posInLvl1 ≤ i → i < 1024 → lfnode.lvl1 i = 0

/-- What appending a block should do. When it returns a block, the list of the file has grown
by it, the index block on the disk has the entries of the cached one, and no other block of the
disk is changed. When no block is free it returns 0 and changes nothing. -/
structure NewBlockSpec (lfnode : Fnode) (lsb : SuperBlock) (free : List ℕ)
    (result : ℕ × Fnode × SuperBlock) : Prop where
  list : result.1 ≠ 0 →
    blockList result.2.2.device result.2.1 = blockList lsb.device lfnode ++ [result.1]
  index : result.1 ≠ 0 → ∀ i < 1024, result.2.2.device.words
    (result.2.1.indexBlock result.2.1.posInLvl0) i = result.2.1.lvl1 i
  others : result.1 ≠ 0 → ∀ b, b ≠ result.2.1.indexBlock result.2.1.posInLvl0 → ∀ i < 1024,
    result.2.2.device.words b i = lsb.device.words b i
  full : free = [] → result = (0, lfnode, lsb)

variable {device : Device} {lfnode : Fnode} {io : Transfer → Bool} {lsb : SuperBlock}

/-- A file that is not at its maximal length never needs a new entry of level 0 at position
64. -/
theorem Appendable.getNewBlock_eq (h : Appendable device lfnode) (io : Transfer → Bool)
    (lsb : SuperBlock) :
    getNewBlock io lfnode lsb =
      if (popBlock (io .popBlock) lsb).1 = 0 then
        (2 ^ 32 - enospc.toNat, lfnode, (popBlock (io .popBlock) lsb).2)
      else
        enterBlock io (popBlock (io .popBlock) lsb).1 lfnode.posInLvl0 lfnode.posInLvl1 lfnode
          (popBlock (io .popBlock) lsb).2 := by
  have hinside := h.inside
  have hbranch : ¬ (lfnode.posInLvl1 = 1024 ∧ lfnode.posInLvl0 = 64) := by omega
  simp only [getNewBlock, hbranch, if_false]

theorem Appendable.getNewBlock_ne_zero (h : Appendable device lfnode) (io : Transfer → Bool)
    (lsb : SuperBlock) : (getNewBlock io lfnode lsb).1 ≠ 0 := by
  have herror : 2 ^ 32 - enospc.toNat ≠ 0 := by decide
  rw [h.getNewBlock_eq]
  by_cases hzero : (popBlock (io .popBlock) lsb).1 = 0
  · rw [if_pos hzero]
    exact herror
  · rw [if_neg hzero]
    exact hzero

theorem blockList_length (device : Device) (lfnode : Fnode) :
    (blockList device lfnode).length = 1024 * lfnode.posInLvl0 + min lfnode.posInLvl1 1024 := by
  simp [blockList, length_flatMap, Nat.mul_comm]

theorem enterBlock_words (newBlock : ℕ) {pos1 : ℕ} (pos2 : ℕ) (lfnode : Fnode) (lsb : SuperBlock)
    (hio : io .writeIndex = true) (hpos : pos1 < 64) :
    (enterBlock io newBlock pos1 pos2 lfnode lsb).2.2.device.words =
      update lsb.device.words pos1 (update lfnode.lvl1 pos2 newBlock) := by
  have hdisk : diskBlock pos1 = pos1 := by
    unfold diskBlock
    omega
  simp only [enterBlock, hio, if_true, Device.write, hdisk]

/-- With the number of the index block at its own position of level 0, the block is entered in
the list of the file, and the index block is the only one that changes. -/
theorem Appendable.enterBlock_spec (h : Appendable device lfnode) (newBlock : ℕ)
    (hdevice : lsb.device = device) (hio : io .writeIndex = true) (hpos : lfnode.posInLvl1 < 1024)
    (hindex : lfnode.indexBlock lfnode.posInLvl0 = lfnode.posInLvl0) :
    let result := enterBlock io newBlock lfnode.posInLvl0 lfnode.posInLvl1 lfnode lsb
    blockList result.2.2.device result.2.1 = blockList device lfnode ++ [newBlock] ∧
      (∀ i, result.2.2.device.words lfnode.posInLvl0 i = result.2.1.lvl1 i) ∧
      ∀ b ≠ lfnode.posInLvl0, result.2.2.device.words b = device.words b := by
  intro result
  have hinside := h.inside
  have hwords := enterBlock_words newBlock lfnode.posInLvl1 lfnode lsb hio
    (show lfnode.posInLvl0 < 64 by omega)
  have hothers : ∀ b ≠ lfnode.posInLvl0, result.2.2.device.words b = device.words b := by
    intro b hb
    rw [hwords, update_of_ne hb, hdevice]
  have htables : ∀ j ∈ List.range lfnode.posInLvl0,
      (List.range 1024).map (result.2.2.device.words (lfnode.indexBlock j)) =
        (List.range 1024).map (device.words (lfnode.indexBlock j)) := by
    intro j hj
    have hne := h.other j (mem_range.mp hj)
    rw [hindex] at hne
    rw [hothers _ hne]
  have hentries : (List.range (lfnode.posInLvl1 + 1)).map
      (update lfnode.lvl1 lfnode.posInLvl1 newBlock) =
        (List.range lfnode.posInLvl1).map lfnode.lvl1 ++ [newBlock] := by
    rw [range_succ, map_append, map_singleton, update_self]
    congr 1
    apply map_congr_left
    intro i hi
    exact update_of_ne (mem_range.mp hi).ne _ _
  refine ⟨?_, ?_, hothers⟩
  · have hbefore : min lfnode.posInLvl1 1024 = lfnode.posInLvl1 := by omega
    have hafter : min (lfnode.posInLvl1 + 1) 1024 = lfnode.posInLvl1 + 1 := by omega
    have hlist : blockList result.2.2.device result.2.1 =
        (List.range lfnode.posInLvl0).flatMap
            (fun j => (List.range 1024).map (result.2.2.device.words (lfnode.indexBlock j))) ++
          (List.range (min (lfnode.posInLvl1 + 1) 1024)).map
            (update lfnode.lvl1 lfnode.posInLvl1 newBlock) := rfl
    rw [hlist, hafter, hentries, flatMap_congr htables, blockList, hbefore, append_assoc]
  · intro i
    rw [hwords, update_self]
    rfl

/-- Unless the index block is written to the block with its number, it keeps the entry 0 at
the end of the file. -/
theorem Appendable.enterBlock_index (h : Appendable device lfnode) (newBlock : ℕ)
    (hdevice : lsb.device = device) (hpos : lfnode.posInLvl1 < 1024)
    (hwrong : ¬ (lfnode.indexBlock lfnode.posInLvl0 = lfnode.posInLvl0 ∧ io .writeIndex = true)) :
    (enterBlock io newBlock lfnode.posInLvl0 lfnode.posInLvl1 lfnode lsb).2.2.device.words
      (lfnode.indexBlock lfnode.posInLvl0) lfnode.posInLvl1 = 0 := by
  have hinside := h.inside
  have hentry : device.words (lfnode.indexBlock lfnode.posInLvl0) lfnode.posInLvl1 = 0 := by
    rw [h.cached _ hpos, h.unused _ le_rfl hpos]
  cases hio : io .writeIndex with
  | false =>
    simp only [enterBlock, hio, Bool.false_eq_true, if_false, hdevice]
    exact hentry
  | true =>
    have hne : lfnode.indexBlock lfnode.posInLvl0 ≠ lfnode.posInLvl0 := fun heq =>
      hwrong ⟨heq, hio⟩
    rw [enterBlock_words _ _ _ _ hio (by omega), update_of_ne hne, hdevice]
    exact hentry

/-- A pop that has to read a block and is not served returns 0 and changes nothing. -/
theorem popBlock_unserved {stack : List ℕ} (h : Holds lsb stack) {io : Bool}
    (hio : ¬ (io = true ∨ lsb.dbPoolPos ≠ 0 ∨ lsb.dbPoolCurrentBlock = lsb.dbPoolStartBlock)) :
    popBlock io lsb = (0, lsb) := by
  have hle := h.start_le
  have hcur := h.current_lt
  have hdisk := h.on_disk
  simp only [not_or, not_not, Bool.not_eq_true] at hio
  obtain ⟨hio, hpos, hne⟩ := hio
  have hprev : (lsb.dbPoolCurrentBlock + (2 ^ 32 - 1)) % 2 ^ 32 = lsb.dbPoolCurrentBlock - 1 := by
    omega
  have hge : lsb.dbPoolStartBlock ≤ lsb.dbPoolCurrentBlock - 1 := by omega
  simp only [popBlock, h.some_free, hpos, if_false, if_true, hprev, hge, hio, Bool.false_eq_true]

/-- Appending a block to a file does what it should exactly when a block is free and can be
popped, the cached index block has room, its number is its own position in level 0, and the
device serves the write. -/
theorem getNewBlock_spec_iff {lfnode : Fnode} {lsb : SuperBlock} {free : List ℕ}
    (io : Transfer → Bool) (hfile : Appendable lsb.device lfnode) (hpool : HoldsFree lsb free)
    (hstart : 0 < lsb.dbPoolStartBlock) (hzero : 0 ∉ free) :
    NewBlockSpec lfnode lsb free (getNewBlock io lfnode lsb) ↔
      free ≠ [] ∧
        (io .popBlock = true ∨ lsb.dbPoolPos ≠ 0 ∨ lsb.dbPoolCurrentBlock = lsb.dbPoolStartBlock) ∧
        lfnode.posInLvl1 < 1024 ∧
        lfnode.indexBlock lfnode.posInLvl0 = lfnode.posInLvl0 ∧ io .writeIndex = true := by
  have hdevice := (popBlock_fixed (io .popBlock) lsb).1
  have hreturn := hfile.getNewBlock_ne_zero io lsb
  constructor
  · intro hspec
    have hfree : free ≠ [] := by
      intro hfree
      rw [hspec.full hfree] at hreturn
      exact hreturn rfl
    obtain ⟨stack, hholds, hperm⟩ := hpool.resolve_right fun hempty => hfree hempty.2
    have hlength := congrArg List.length (hspec.list hreturn)
    rw [length_append, blockList_length, blockList_length, length_singleton] at hlength
    have hserved : io .popBlock = true ∨ lsb.dbPoolPos ≠ 0 ∨
        lsb.dbPoolCurrentBlock = lsb.dbPoolStartBlock := by
      by_contra hio
      rw [hfile.getNewBlock_eq, popBlock_unserved hholds hio, if_pos rfl] at hlength
      exact Nat.succ_ne_self _ hlength.symm
    have hblock : (popBlock (io .popBlock) lsb).1 ≠ 0 := fun h0 =>
      hzero (h0 ▸ (hholds.popBlock_free hperm hstart hserved).1)
    have hresult := hfile.getNewBlock_eq io lsb
    rw [if_neg hblock] at hresult
    have hpos : lfnode.posInLvl1 < 1024 := by
      rw [hresult] at hlength
      dsimp only [enterBlock] at hlength
      omega
    refine ⟨hfree, hserved, hpos, ?_⟩
    by_contra hwrong
    have hindex := hspec.index hreturn lfnode.posInLvl1 hpos
    rw [hresult] at hindex
    have hentry := hfile.enterBlock_index (popBlock (io .popBlock) lsb).1 hdevice hpos hwrong
    apply hblock
    rw [← hentry]
    refine Eq.trans ?_ hindex.symm
    simp [enterBlock]
  · rintro ⟨hfree, hserved, hpos, hindex, hwrite⟩
    obtain ⟨stack, hholds, hperm⟩ := hpool.resolve_right fun hempty => hfree hempty.2
    have hblock : (popBlock (io .popBlock) lsb).1 ≠ 0 := fun h0 =>
      hzero (h0 ▸ (hholds.popBlock_free hperm hstart hserved).1)
    obtain ⟨hlist, hon, hothers⟩ := hfile.enterBlock_spec (popBlock (io .popBlock) lsb).1 hdevice
      hwrite hpos hindex
    rw [hfile.getNewBlock_eq io lsb, if_neg hblock]
    exact {
      list := fun _ => hlist
      index := by
        intro _ i _
        rw [← hon i]
        congr 1
      others := by
        intro _ b hb i _
        rw [hothers b (fun heq => hb (heq.trans hindex.symm))]
      full := fun hempty => absurd hempty hfree }

/-- The small pool on a device with an index block of two entries in block `index`. -/
def indexedPool (index : ℕ) : SuperBlock :=
  { smallPool with
    device := {
      words := fun b i => if b = index then if i = 0 then 30 else if i = 1 then 31 else 0 else b
      written := [] } }

theorem indexedPool_holds (index : ℕ) : HoldsFree (indexedPool index) [101, 100] := by
  refine .inl ⟨[101, 100], ?_, List.Perm.refl _⟩
  have hpool : WellFormed (indexedPool index) := by
    constructor <;> simp [indexedPool, smallPool]
  exact hpool.holds_entries

/-- A file with two blocks in the index block that is cached, at a position of level 0. -/
def indexedFile (pos index : ℕ) : Fnode :=
  { lvl1 := fun i => if i = 0 then 30 else if i = 1 then 31 else 0
    dataBlock := fun j => if j = pos then index else index + 1 + j, posInLvl1 := 2, posInLvl0 := pos
    currentBlock := 31, blockCount := 2, bitmap := none, lvl0 := 0 }

theorem indexedFile_appendable {pos : ℕ} (hpos : pos < 64) (index : ℕ) :
    Appendable (indexedPool index).device (indexedFile pos index) where
  inside := by simpa [indexedFile] using hpos
  pos_le := by simp [indexedFile]
  room := .inl (by simp [indexedFile])
  other := by
    intro j hj
    have hne : j ≠ pos := (show j < pos from hj).ne
    simp only [Fnode.indexBlock, indexedFile, Nat.zero_add, hne, if_false, if_true]
    omega
  cached := by simp [Fnode.indexBlock, indexedFile, indexedPool]
  unused := by
    intro i hi _
    have hle : 2 ≤ i := hi
    have hzero : i ≠ 0 := by omega
    have hone : i ≠ 1 := by omega
    simp [indexedFile, hzero, hone]

/-- The block is appended when the third index block happens to be block 2. -/
theorem getNewBlock_spec_iff_lucky :
    NewBlockSpec (indexedFile 2 2) (indexedPool 2) [101, 100]
      (getNewBlock (fun _ => true) (indexedFile 2 2) (indexedPool 2)) :=
  (getNewBlock_spec_iff (fun _ => true) (indexedFile_appendable (by decide) 2)
    (indexedPool_holds 2) (by decide) (by decide)).mpr (by decide)

/-- With the only index block of a file in block 5, the entries are written to block 0, which
has the superblock, and block 5 does not get the new one. -/
theorem getNewBlock_writes_superblock :
    let result := getNewBlock (fun _ => true) (indexedFile 0 5) (indexedPool 5)
    Appendable (indexedPool 5).device (indexedFile 0 5) ∧
      result.1 = 100 ∧ result.2.2.device.written = [0] ∧
      result.2.1.indexBlock result.2.1.posInLvl0 = 5 ∧
      result.2.1.lvl1 2 = 100 ∧ result.2.2.device.words 5 2 = 0 :=
  ⟨indexedFile_appendable (by decide) 5, by decide, by decide, by decide, by decide, by decide⟩

end Chunos.Lmfs
