import Chunos.Lib.Runs
import Chunos.Fs.LmfsTree

/-!
# Listing a directory

`vfs_getdents` fills the buffer of the caller with records of directory entries. How far
the listing has come is kept in `rw_pos`, the bytes of the current block that are dealt
with. The place where the next slot is read is a local pointer, and each call sets it to
the beginning of the block. The two agree in a call that starts at the beginning of a
block. This file shows that the listing is right when every call does.
-/

namespace Chunos.Lmfs

open Runs List Option

/-- `buffer_size` of an LMFS file: the bytes of a block. -/
def bufferSize : ℕ := 4096

/-- The bytes of a slot. -/
def slotSize : ℕ := 256

/-- The bytes of `struct os_dirent`. -/
def osDirentSize : ℕ := 12

/-- `struct file` of an open directory, with its node. The buffer of the node holds the
words of a block. -/
structure DirFile where
  fnode : Node
  dataBuffer : ℕ → ℕ
  rwPos : ℕ
  currentBlock : ℕ
  offset : ℕ

/-- `struct os_dirent`: a record in the buffer of the caller. The field `d_name` is the
type of the entry, which is a byte, and its name. -/
structure OsDirent where
  dOff : ℕ
  dReclen : ℕ
  dType : ℕ
  name : CString
deriving DecidableEq

/-- `vfs_read_block` into the buffer of the node. -/
def DirFile.readBlock (vol : Volume) (file : DirFile) (whence : VfsWhence) : ℤ × DirFile :=
  let (block, fnode) := vol.lookupOps.getDataBlock file.fnode whence
  let file := { file with fnode := fnode }
  if block = 0 then (-enospc, file)
  else
    match vol.disk block with
    | .error err => (err, { file with currentBlock := block })
    | .ok buffer => (0, { file with currentBlock := block, dataBuffer := buffer })

/-- `vfs_open` of a node that has just been looked up. -/
def vfsOpenDir (vol : Volume) (fnode : Node) : ℤ × DirFile :=
  DirFile.readBlock vol
    { fnode := fnode, dataBuffer := fun _ => 0, rwPos := 0, currentBlock := 0, offset := 0 }
    .startBlock

/-- The loop of `lmfs_getdents` over the `n` slots that remain, from the given one on: how
many of them it takes, and the entry it has stopped at. -/
def slotScan (buffer : ℕ → ℕ) : ℕ → ℕ → ℕ × Option DirEntry
  | 0, _ => (0, none)
  | n + 1, slot =>
    if (dirEntry buffer slot).name = [] then
      ((slotScan buffer n (slot + 1)).1 + 1, (slotScan buffer n (slot + 1)).2)
    else (1, some (dirEntry buffer slot))

/-- `lmfs_getdents`: the number of slots is that of the bytes behind `rw_pos`, but the
first slot is the one at the pointer. -/
def lmfsGetdents (file : DirFile) (dataPos : ℕ) : ℕ × Option DirEntry :=
  let (slots, entry) :=
    slotScan file.dataBuffer ((bufferSize - file.rwPos + (slotSize - 1)) / slotSize)
      (dataPos / slotSize)
  (slotSize * slots, entry)

/-- The record of an entry. Its length is rounded up to a multiple of 4. -/
def direntOf (offset : ℕ) (entry : DirEntry) : OsDirent where
  dOff := offset
  dReclen := (strlen entry.name + osDirentSize + 3) / 4 * 4
  dType := entry.type % 256
  name := entry.name

/-- The loop of `vfs_getdents`. The records written so far take `dentCount` bytes. It is
`none` when the fuel does not last. -/
def getdentsLoop (vol : Volume) (count : ℕ) :
    ℕ → ℕ → ℕ → DirFile → List OsDirent → Option (List OsDirent × DirFile)
  | 0, _, _, _, _ => none
  | fuel + 1, dentCount, dataPos, file, dents =>
    if dentCount + osDirentSize + 256 < count then
      let (handleSize, entry) := lmfsGetdents file dataPos
      if handleSize = 0 then some (dents, file)
      else
        let file :=
          { file with offset := file.offset + handleSize, rwPos := file.rwPos + handleSize }
        let new := entry.toList.map (direntOf file.offset)
        let dents := dents ++ new
        let dentCount := dentCount + (new.map OsDirent.dReclen).sum
        if bufferSize ≤ file.rwPos then
          let (err, file) := file.readBlock vol .nextBlock
          if err ≠ 0 then some (dents, { file with currentBlock := 0 })
          else getdentsLoop vol count fuel dentCount 0 { file with rwPos := 0 } dents
        else getdentsLoop vol count fuel dentCount (dataPos + handleSize) file dents
    else some (dents, file)

/-- `vfs_getdents`: the returned value, the records and the file afterwards. -/
def vfsGetdents (vol : Volume) (fuel : ℕ) (file : DirFile) (count : ℕ) :
    Option (ℤ × List OsDirent × DirFile) :=
  if file.fnode.type ≠ dtDir then some (-enotdir, [], file)
  else if count = 0 then some (-einval, [], file)
  else if file.rwPos = bufferSize ∧ file.currentBlock = 0 then some (-enospc, [], file)
  else
    (getdentsLoop vol count fuel 0 0 file []).map fun (dents, file) =>
      (((dents.map OsDirent.dReclen).sum : ℕ), dents, file)

/-- A listing: the open directory, the records returned so far, and whether a call has
reported that there is no more data. -/
structure Listing where
  file : DirFile
  dents : List OsDirent
  done : Bool

/-- One call with a buffer of the given size. -/
def Listing.step (vol : Volume) (fuel : ℕ) (count : ℕ) (l : Listing) : Option Listing :=
  (vfsGetdents vol fuel l.file count).map fun (ret, dents, file) =>
    { file := file, dents := l.dents ++ dents, done := l.done || ret ≤ 0 }

/-- A listing of a directory that has just been opened. -/
def Listing.start (vol : Volume) (fnode : Node) : Listing :=
  { file := (vfsOpenDir vol fnode).2, dents := [], done := false }

/-- Slot `p` of a directory, counted through all of its blocks. -/
def Volume.slotAt (vol : Volume) (index p : ℕ) : DirEntry :=
  dirEntry (vol.words (vol.indexBlock index (p / slotsPerBlock))) (p % slotsPerBlock)

/-- The name and the type of an entry, unless the slot is empty. -/
def DirEntry.used (entry : DirEntry) : Option (CString × ℕ) :=
  if entry.name = [] then none else some (entry.name, entry.type)

/-- The names and types in the first `p` slots of a directory that are not empty. -/
def Volume.listed (vol : Volume) (index p : ℕ) : List (CString × ℕ) :=
  (List.range p).filterMap fun q => (vol.slotAt index q).used

/-- The names and types of records. -/
def names (dents : List OsDirent) : List (CString × ℕ) := dents.map fun d => (d.name, d.dType)

/-- The number of slots of a directory. -/
def Volume.slotCount (vol : Volume) (index : ℕ) : ℕ := slotsPerBlock * vol.blockCount index

/-- The records that are returned are the entries of the directory in order, and all of
them when there is no more data. -/
def Listed (vol : Volume) (index : ℕ) (l : Listing) : Prop :=
  names l.dents <+: vol.listed index (vol.slotCount index) ∧
    (l.done → names l.dents = vol.listed index (vol.slotCount index))

/-- The calls that start at the beginning of a block or at the end of the directory, with
a buffer that has room for a record of a name of any length. -/
def AtBlock (count : ℕ) (l : Listing) : Prop :=
  osDirentSize + 256 < count ∧
    (l.file.rwPos = 0 ∨ l.file.rwPos = bufferSize ∧ l.file.currentBlock = 0)

instance (count : ℕ) (l : Listing) : Decidable (AtBlock count l) :=
  inferInstanceAs (Decidable (_ ∧ _))

/-- The file stands before slot `p` of the directory: the cursor is on the block of the
slot, the buffer holds that block, and `rw_pos` is the place of the slot in it. -/
structure DirFile.Before (vol : Volume) (index p : ℕ) (file : DirFile) : Prop where
  walking : vol.Walking file.fnode (vol.indexBlock index (p / slotsPerBlock)) index
    (p / slotsPerBlock)
  type_eq : file.fnode.type = dtDir
  buffer_eq : file.dataBuffer = vol.words (vol.indexBlock index (p / slotsPerBlock))
  pos_eq : file.rwPos = slotSize * (p % slotsPerBlock)

/-- The file stands at the end of the directory. -/
structure DirFile.AtEnd (file : DirFile) : Prop where
  type_eq : file.fnode.type = dtDir
  pos_eq : file.rwPos = bufferSize
  block_eq : file.currentBlock = 0

theorem Volume.listed_succ (vol : Volume) (index p : ℕ) :
    vol.listed index (p + 1) = vol.listed index p ++ (vol.slotAt index p).used.toList := by
  rw [listed, range_succ, filterMap_append]
  cases h : (vol.slotAt index p).used with
  | none => simp [listed, h]
  | some e => simp [listed, h]

variable {p j count fuel : ℕ}

theorem Volume.listed_isPrefix (vol : Volume) (index : ℕ) {q : ℕ} (h : p ≤ q) :
    vol.listed index p <+: vol.listed index q := by
  induction q, h using Nat.le_induction with
  | base => exact prefix_rfl
  | succ q _ ih =>
    rw [listed_succ]
    exact ih.trans (prefix_append _ _)

/-- The scan of the slots that remain in a block takes the empty slots and the entry
behind them, or all slots when they are empty. -/
theorem slotScan_spec (vol : Volume) (index c n slot : ℕ) (hn : slot + n = slotsPerBlock)
    {buffer : ℕ → ℕ} (hbuffer : buffer = vol.words (vol.indexBlock index c)) :
    (slotScan buffer n slot).1 ≤ n ∧ (0 < n → 0 < (slotScan buffer n slot).1) ∧
      ((slotScan buffer n slot).2 = none → (slotScan buffer n slot).1 = n) ∧
      vol.listed index (slotsPerBlock * c + slot + (slotScan buffer n slot).1) =
        vol.listed index (slotsPerBlock * c + slot) ++
          ((slotScan buffer n slot).2.bind DirEntry.used).toList ∧
      ∀ e, (slotScan buffer n slot).2 = some e → e.name ≠ [] ∧
        ∃ q < slotsPerBlock * (c + 1), vol.slotAt index q = e := by
  induction n generalizing slot with
  | zero => simp [slotScan]
  | succ n ih =>
    have hslot : slot < slotsPerBlock := by omega
    have hat : vol.slotAt index (slotsPerBlock * c + slot) = dirEntry buffer slot := by
      rw [Volume.slotAt, Nat.mul_add_div (by decide), Nat.div_eq_of_lt hslot, Nat.add_zero,
        Nat.mul_add_mod, Nat.mod_eq_of_lt hslot, hbuffer]
    have hlisted := vol.listed_succ index (slotsPerBlock * c + slot)
    rw [hat] at hlisted
    by_cases hempty : (dirEntry buffer slot).name = []
    · obtain ⟨hle, -, hall, hrest, hentry⟩ := ih (slot + 1) (by omega)
      simp only [slotScan, hempty, if_true]
      simp only [DirEntry.used, hempty, if_true, toList_none, append_nil] at hlisted
      refine ⟨by omega, by omega, fun h => by rw [hall h], ?_, hentry⟩
      rw [← hlisted]
      have hsum : slotsPerBlock * c + slot + ((slotScan buffer n (slot + 1)).1 + 1) =
          slotsPerBlock * c + (slot + 1) + (slotScan buffer n (slot + 1)).1 := by omega
      rw [hsum, hrest]
      rfl
    · simp only [slotScan, hempty, if_false]
      refine ⟨by omega, by omega, nofun, hlisted, ?_⟩
      intro e he
      cases he
      refine ⟨hempty, slotsPerBlock * c + slot, ?_, hat⟩
      rw [Nat.mul_succ]
      omega

/-- A directory that can be listed: its file is well formed, it has a block, and the types
of its entries are bytes. -/
structure Volume.DirOk (vol : Volume) (index : ℕ) : Prop where
  file_ok : ∃ files, vol.FileOk files index
  type_eq : (vol.record index).type = dtDir
  block_pos : 0 < vol.blockCount index
  type_lt : ∀ p < vol.slotCount index, (vol.slotAt index p).type < 256

variable {vol : Volume} {index : ℕ}

variable {file : DirFile} {l : Listing}

/-- In a call that is in step, `lmfs_getdents` takes at least one slot and lists the entry
it has stopped at. -/
theorem DirFile.Before.lmfsGetdents_spec (h : file.Before vol index p) (hdir : vol.DirOk index) :
    ∃ j entry, lmfsGetdents file file.rwPos = (slotSize * j, entry) ∧ 0 < j ∧
      p % slotsPerBlock + j ≤ slotsPerBlock ∧
      (entry = none → p % slotsPerBlock + j = slotsPerBlock) ∧
      ∀ offset, vol.listed index (p + j) =
        vol.listed index p ++ names (entry.toList.map (direntOf offset)) := by
  let n := slotsPerBlock - p % slotsPerBlock
  have hmod : p % slotsPerBlock < slotsPerBlock := Nat.mod_lt _ (by decide)
  have hsplit : slotsPerBlock * (p / slotsPerBlock) + p % slotsPerBlock = p := Nat.div_add_mod p _
  have hslots : (bufferSize - file.rwPos + (slotSize - 1)) / slotSize = n := by
    rw [h.pos_eq]
    simp only [bufferSize, slotSize, slotsPerBlock, n] at *
    omega
  have hfirst : file.rwPos / slotSize = p % slotsPerBlock := by
    rw [h.pos_eq]
    exact Nat.mul_div_cancel_left _ (by decide)
  obtain ⟨hle, hpos, hall, hlisted, hentry⟩ := slotScan_spec vol index (p / slotsPerBlock) n
    (p % slotsPerBlock) (by omega) h.buffer_eq
  rw [hsplit] at hlisted
  refine ⟨_, _, by rw [lmfsGetdents, hslots, hfirst], hpos (by omega), by omega, ?_, ?_⟩
  · intro hnone
    rw [hall hnone]
    omega
  · intro offset
    rw [hlisted]
    cases hscan : (slotScan file.dataBuffer n (p % slotsPerBlock)).2 with
    | none => rfl
    | some e =>
      obtain ⟨hname, q, hq, rfl⟩ := hentry e hscan
      have hlt : (vol.slotAt index q).type < 256 := by
        apply hdir.type_lt q
        have hinside := h.walking.inside
        have hblocks : slotsPerBlock * (p / slotsPerBlock + 1) ≤
            slotsPerBlock * vol.blockCount index := Nat.mul_le_mul_left _ hinside
        exact hq.trans_le hblocks
      simp [names, direntOf, DirEntry.used, hname, Nat.mod_eq_of_lt hlt]

/-- While there is a next block, reading it puts the file at its beginning. -/
theorem DirFile.readBlock_next {block c : ℕ} (hwalk : vol.Walking file.fnode block index c)
    (hdir : vol.DirOk index) :
    (file.readBlock vol .nextBlock).2.fnode.type = file.fnode.type ∧
      (file.readBlock vol .nextBlock).2.rwPos = file.rwPos ∧
      ((file.readBlock vol .nextBlock).1 = 0 ↔ c + 1 < vol.blockCount index) ∧
      (c + 1 < vol.blockCount index →
        vol.Walking (file.readBlock vol .nextBlock).2.fnode (vol.indexBlock index (c + 1)) index
            (c + 1) ∧
          (file.readBlock vol .nextBlock).2.dataBuffer =
            vol.words (vol.indexBlock index (c + 1))) := by
  obtain ⟨files, hfile⟩ := hdir.file_ok
  have hfits := hfile.fits hdir.type_eq
  obtain ⟨hnext, hwalk'⟩ := hwalk.next_block hfits
  have htype : (vol.lookupOps.getDataBlock file.fnode .nextBlock).2.type = file.fnode.type := rfl
  by_cases hc : c + 1 < vol.blockCount index
  · have hmem : vol.indexBlock index (c + 1) ∈ vol.dataBlocks index :=
      List.mem_map.mpr ⟨c + 1, mem_range.mpr hc, rfl⟩
    obtain ⟨buffer, hbuffer⟩ := hfile.block_read hdir.type_eq _ hmem
    have hne := Volume.indexBlock_ne_zero hc
    have hwalk'' := hwalk' hc
    rw [hnext] at hwalk''
    simp only [readBlock, hnext, hne, if_false, hbuffer, htype, hc, true_and, forall_const,
      Volume.words_eq hbuffer, and_true]
    exact hwalk''
  · have hinside := hwalk.inside
    have hlast : vol.blockCount index = c + 1 := by omega
    have hzero := Volume.indexBlock_blockCount hfits
    rw [hlast] at hzero
    have hspc : -enospc ≠ 0 := by decide
    simp [readBlock, hnext, hzero, htype, hc, hspc]

/-- Where the listing has come to from slot `p` with the given records: before another
slot, or to the end of the directory. -/
def Progress (vol : Volume) (index p : ℕ) (dents : List OsDirent) (file : DirFile) : Prop :=
  (∃ q < vol.slotCount index, file.Before vol index q ∧
      vol.listed index q = vol.listed index p ++ names dents) ∨
    (file.AtEnd ∧ vol.listed index (vol.slotCount index) = vol.listed index p ++ names dents)

theorem DirFile.Before.pos_lt (h : file.Before vol index p) : file.rwPos < bufferSize := by
  have hmod : p % slotsPerBlock < slotsPerBlock := Nat.mod_lt _ (by decide)
  rw [h.pos_eq]
  simp only [slotsPerBlock, slotSize, bufferSize] at *
  omega

theorem DirFile.Before.lt_slotCount (h : file.Before vol index p) : p < vol.slotCount index := by
  have hinside := h.walking.inside
  simp only [Volume.slotCount, slotsPerBlock] at *
  omega

theorem Progress.append {dents dents' : List OsDirent}
    (hlisted : vol.listed index (p + j) = vol.listed index p ++ names dents)
    (h : Progress vol index (p + j) dents' file) : Progress vol index p (dents ++ dents') file := by
  have hnames : names (dents ++ dents') = names dents ++ names dents' := map_append
  rcases h with ⟨q, hq, hbefore, heq⟩ | ⟨hend, heq⟩
  · left
    refine ⟨q, hq, hbefore, ?_⟩
    rw [heq, hlisted, hnames, append_assoc]
  · right
    refine ⟨hend, ?_⟩
    rw [heq, hlisted, hnames, append_assoc]

/-- The file after the slots of one call of `lmfs_getdents`. -/
def DirFile.advance (file : DirFile) (size : ℕ) : DirFile :=
  { file with offset := file.offset + size, rwPos := file.rwPos + size }

/-- Within a block the file stands before the slot behind those that were taken. -/
theorem DirFile.Before.advance (h : file.Before vol index p)
    (hj : p % slotsPerBlock + j < slotsPerBlock) :
    (file.advance (slotSize * j)).Before vol index (p + j) := by
  have hdiv : (p + j) / slotsPerBlock = p / slotsPerBlock := by
    simp only [slotsPerBlock] at *
    omega
  have hmod : (p + j) % slotsPerBlock = p % slotsPerBlock + j := by
    simp only [slotsPerBlock] at *
    omega
  refine ⟨?_, h.type_eq, ?_, ?_⟩
  · rw [hdiv]
    exact h.walking
  · rw [hdiv]
    exact h.buffer_eq
  · rw [hmod, Nat.mul_add, ← h.pos_eq]
    rfl

/-- At the end of a block that is not the last, the next block is read and the file stands
before its first slot. -/
theorem DirFile.Before.next (h : file.Before vol index p) (hdir : vol.DirOk index)
    (hj : p % slotsPerBlock + j = slotsPerBlock)
    (hmore : ((file.advance (slotSize * j)).readBlock vol .nextBlock).1 = 0) :
    DirFile.Before vol index (p + j)
      { ((file.advance (slotSize * j)).readBlock vol .nextBlock).2 with rwPos := 0 } := by
  have hdiv : (p + j) / slotsPerBlock = p / slotsPerBlock + 1 := by
    simp only [slotsPerBlock] at *
    omega
  have hmod : (p + j) % slotsPerBlock = 0 := by
    simp only [slotsPerBlock] at *
    omega
  have hwalk : vol.Walking (file.advance (slotSize * j)).fnode
      (vol.indexBlock index (p / slotsPerBlock)) index (p / slotsPerBlock) := h.walking
  obtain ⟨htype, -, hiff, hread⟩ := DirFile.readBlock_next hwalk hdir
  obtain ⟨hnext, hbuffer⟩ := hread (hiff.mp hmore)
  refine ⟨?_, htype.trans h.type_eq, ?_, ?_⟩
  · rw [hdiv]
    exact hnext
  · rw [hdiv]
    exact hbuffer
  · rw [hmod]
    rfl

/-- At the end of the last block there is no block to read, and all slots are taken. -/
theorem DirFile.Before.last (h : file.Before vol index p) (hdir : vol.DirOk index)
    (hj : p % slotsPerBlock + j = slotsPerBlock)
    (hmore : ((file.advance (slotSize * j)).readBlock vol .nextBlock).1 ≠ 0) :
    p + j = vol.slotCount index ∧
      DirFile.AtEnd
        { ((file.advance (slotSize * j)).readBlock vol .nextBlock).2 with currentBlock := 0 } := by
  have hwalk : vol.Walking (file.advance (slotSize * j)).fnode
      (vol.indexBlock index (p / slotsPerBlock)) index (p / slotsPerBlock) := h.walking
  obtain ⟨htype, hpos, hiff, -⟩ := DirFile.readBlock_next hwalk hdir
  have hinside := h.walking.inside
  have hlast : vol.blockCount index = p / slotsPerBlock + 1 := by
    have hnot := mt hiff.mpr hmore
    omega
  refine ⟨?_, htype.trans h.type_eq, hpos.trans ?_, rfl⟩
  · rw [Volume.slotCount, hlast]
    simp only [slotsPerBlock] at *
    omega
  · change file.rwPos + slotSize * j = bufferSize
    rw [h.pos_eq, ← Nat.mul_add, hj]
    rfl

/-- In a call that is in step, the loop lists the entries in order until the buffer of the
caller is full or the directory ends. Without a record it has come to the end. -/
theorem getdentsLoop_spec (hdir : vol.DirOk index) (count : ℕ) (hbefore : file.Before vol index p)
    (hfuel : vol.slotCount index < p + fuel) (dentCount : ℕ) (dents : List OsDirent) :
    ∃ new file', getdentsLoop vol count fuel dentCount file.rwPos file dents =
        some (dents ++ new, file') ∧
      Progress vol index p new file' ∧
      ((new.map OsDirent.dReclen).sum = 0 → dentCount + osDirentSize + 256 < count →
        file'.AtEnd) := by
  -- each round takes at least one slot, and the file stands before the next one
  induction fuel generalizing p dentCount file dents with
  | zero =>
    have hlt := hbefore.lt_slotCount
    omega
  | succ fuel ih =>
    by_cases hroom : dentCount + osDirentSize + 256 < count
    · obtain ⟨j, entry, hget, hpos, hle, hnone, hlisted⟩ := hbefore.lmfsGetdents_spec hdir
      have hsize : slotSize * j ≠ 0 := by
        simp only [slotSize]
        omega
      have hend : bufferSize ≤ file.rwPos + slotSize * j ↔
          p % slotsPerBlock + j = slotsPerBlock := by
        rw [hbefore.pos_eq]
        simp only [bufferSize, slotSize, slotsPerBlock] at *
        omega
      obtain ⟨new, hnew⟩ :
          ∃ new, new = entry.toList.map (direntOf (file.offset + slotSize * j)) := ⟨_, rfl⟩
      have hlisted' := hlisted (file.offset + slotSize * j)
      rw [← hnew] at hlisted'
      simp only [getdentsLoop, hroom, if_true, hget, hsize, if_false, ← hnew]
      by_cases hblock : p % slotsPerBlock + j = slotsPerBlock
      · rw [if_pos (hend.mpr hblock)]
        split_ifs with hmore
        · obtain ⟨hlast, hatEnd⟩ := hbefore.last hdir hblock hmore
          refine ⟨new, _, rfl, .inr ⟨hatEnd, ?_⟩, fun _ _ => hatEnd⟩
          rw [← hlast]
          exact hlisted'
        · obtain ⟨rest, file', heq, hprogress, hrest⟩ := ih (hbefore.next hdir hblock
            (not_not.mp hmore)) (by omega) (dentCount + (new.map OsDirent.dReclen).sum) (dents ++ new)
          refine ⟨new ++ rest, file', ?_, hprogress.append hlisted', ?_⟩
          · rw [← append_assoc]
            exact heq
          · intro hsum _
            rw [map_append, sum_append] at hsum
            exact hrest (by omega) (by omega)
      · rw [if_neg (mt hend.mp hblock)]
        have hbefore' := hbefore.advance (j := j) (by omega)
        obtain ⟨rest, file', heq, hprogress, -⟩ := ih hbefore' (by omega)
          (dentCount + (new.map OsDirent.dReclen).sum) (dents ++ new)
        refine ⟨new ++ rest, file', ?_, hprogress.append hlisted', ?_⟩
        · rw [← append_assoc]
          exact heq
        · intro hsum
          rw [map_append, sum_append] at hsum
          -- a round that stops inside a block has stopped at an entry
          cases entry with
          | none => exact absurd (hnone rfl) hblock
          | some e =>
            have hlen : (new.map OsDirent.dReclen).sum =
                (strlen e.name + osDirentSize + 3) / 4 * 4 := by
              rw [hnew]
              rfl
            simp only [osDirentSize] at hlen
            omega
    · refine ⟨[], file, ?_, ?_, fun _ h => absurd h hroom⟩
      · simp only [getdentsLoop, hroom, if_false, append_nil]
      · exact .inl ⟨p, hbefore.lt_slotCount, hbefore, (append_nil _).symm⟩

/-- A listing in which every record so far is the next entry of the directory. -/
def Listing.Ok (vol : Volume) (index : ℕ) (l : Listing) : Prop :=
  Progress vol index 0 l.dents l.file ∧ (l.done → l.file.AtEnd)

theorem DirFile.AtEnd.not_before (h : file.AtEnd) : ¬ file.Before vol index p := by
  intro hbefore
  have hlt := hbefore.pos_lt
  rw [h.pos_eq] at hlt
  exact hlt.false

/-- A call at the beginning of a block continues the listing. -/
theorem Listing.Ok.step_before (hdir : vol.DirOk index) {q : ℕ} (hfuel : vol.slotCount index < fuel)
    (h : l.Ok vol index) (hbefore : l.file.Before vol index q)
    (hlisted : vol.listed index q = vol.listed index 0 ++ names l.dents)
    (hcount : osDirentSize + 256 < count) (hpos : l.file.rwPos = 0) :
    ∃ l', l.step vol fuel count = some l' ∧ l'.Ok vol index := by
  have hfuel' : vol.slotCount index < q + fuel := by omega
  obtain ⟨new, file, hloop, hprogress, hend⟩ :=
    getdentsLoop_spec hdir count hbefore hfuel' 0 []
  rw [hpos, nil_append] at hloop
  have hcount' : count ≠ 0 := by omega
  have hplace : ¬ (l.file.rwPos = bufferSize ∧ l.file.currentBlock = 0) := by
    rw [hpos]
    exact fun hfull => absurd hfull.1 (by decide)
  have htype : ¬ l.file.fnode.type ≠ dtDir := not_not.mpr hbefore.type_eq
  have hstep : l.step vol fuel count =
      some ⟨file, l.dents ++ new, l.done || ((new.map OsDirent.dReclen).sum : ℤ) ≤ 0⟩ := by
    simp only [step, vfsGetdents, htype, if_false, hcount', hplace, hloop, map_some]
  refine ⟨_, hstep, ?_, ?_⟩
  · rw [← Nat.zero_add q] at hprogress hlisted
    exact hprogress.append hlisted
  · intro hdone
    rcases Bool.or_eq_true_iff.mp hdone with hbefore' | hret
    · exact absurd hbefore (h.2 hbefore').not_before
    · have hsum := of_decide_eq_true hret
      exact hend (by omega) (by omega)

/-- A call at the end of the directory reports that there is no more data. -/
theorem Listing.Ok.step_atEnd (h : l.Ok vol index) (hend : l.file.AtEnd)
    (hcount : osDirentSize + 256 < count) :
    ∃ l', l.step vol fuel count = some l' ∧ l'.Ok vol index := by
  have hcount' : count ≠ 0 := by omega
  have htype : ¬ l.file.fnode.type ≠ dtDir := not_not.mpr hend.type_eq
  refine ⟨⟨l.file, l.dents ++ [], l.done || (-enospc ≤ 0)⟩, ?_, ?_, fun _ => hend⟩
  · simp only [step, vfsGetdents, htype, if_false, hcount', hend.pos_eq, hend.block_eq, and_self,
      if_true, map_some]
  · rw [append_nil]
    exact h.1

theorem Listing.Ok.step (hdir : vol.DirOk index) (hfuel : vol.slotCount index < fuel)
    (h : l.Ok vol index) (hcall : AtBlock count l) :
    ∃ l', l.step vol fuel count = some l' ∧ l'.Ok vol index := by
  obtain ⟨hcount, hplace⟩ := hcall
  rcases h.1 with ⟨q, _, hbefore, hlisted⟩ | ⟨hend, _⟩
  · rcases hplace with hpos | ⟨hpos, _⟩
    · exact h.step_before hdir hfuel hbefore hlisted hcount hpos
    · exact absurd hpos hbefore.pos_lt.ne
  · exact h.step_atEnd hend hcount

/-- A directory that has just been opened stands before its first slot. -/
theorem Listing.start_ok (hdir : vol.DirOk index) {fnode : Node} (hfresh : vol.Fresh fnode index) :
    (Listing.start vol fnode).Ok vol index := by
  obtain ⟨files, hfile⟩ := hdir.file_ok
  have hmem : vol.indexBlock index 0 ∈ vol.dataBlocks index :=
    List.mem_map.mpr ⟨0, mem_range.mpr hdir.block_pos, rfl⟩
  obtain ⟨buffer, hbuffer⟩ := hfile.block_read hdir.type_eq _ hmem
  have hne := Volume.indexBlock_ne_zero hdir.block_pos
  have hopen : (vfsOpenDir vol fnode).2 = ⟨fnode, buffer, 0, vol.indexBlock index 0, 0⟩ := by
    simp only [vfsOpenDir, DirFile.readBlock, hfresh.start_block, hne, if_false, hbuffer]
  have htype : fnode.type = dtDir := by
    rw [hfresh.type_eq, hdir.type_eq]
    rfl
  refine ⟨.inl ⟨0, ?_, ?_, (append_nil _).symm⟩, nofun⟩
  · exact Nat.mul_pos (by decide) hdir.block_pos
  · rw [start, hopen]
    exact ⟨⟨hdir.block_pos, rfl, hfresh.lvl1_eq, hfresh.pos0_eq, hfresh.pos1_eq⟩, htype,
      (Volume.words_eq hbuffer).symm, rfl⟩

theorem Listing.Ok.listed (h : l.Ok vol index) : Listed vol index l := by
  have hzero : vol.listed index 0 = [] := rfl
  obtain ⟨hprogress, hdone⟩ := h
  rw [Progress, hzero] at hprogress
  simp only [nil_append] at hprogress
  rcases hprogress with ⟨q, hq, hbefore, heq⟩ | ⟨_, heq⟩
  · rw [Listed, ← heq]
    refine ⟨vol.listed_isPrefix index hq.le, fun hd => ?_⟩
    exact absurd hbefore (hdone hd).not_before
  · rw [Listed, ← heq]
    exact ⟨prefix_rfl, fun _ => rfl⟩

/-- When every call starts at the beginning of a block or at the end, with room for a
record, the calls return the entries that are not empty in order, each of them once, and
all of them before they report that there is no more data. -/
theorem getdents_lists_directory (hdir : vol.DirOk index) {fnode : Node}
    (hfresh : vol.Fresh fnode index) {fuel : ℕ} (hfuel : vol.slotCount index < fuel)
    {counts : List ℕ}
    (hcalls : Meets (Listing.step vol fuel) AtBlock counts (Listing.start vol fnode)) :
    ∃ l, run (Listing.step vol fuel) counts (Listing.start vol fnode) = some l ∧
      Listed vol index l := by
  obtain ⟨l, hrun, hok⟩ := exists_run_of_meets (I := Listing.Ok vol index)
    (fun _ _ hl hcall => hl.step hdir hfuel hcall) (Listing.start_ok hdir hfresh) hcalls
  exact ⟨l, hrun, hok.listed⟩

theorem treeVolume_dirOk : treeVolume.DirOk 0 where
  file_ok := ⟨_, treeVolume_ok 0 (by decide)⟩
  type_eq := by decide
  block_pos := by decide +kernel
  type_lt := by decide +kernel

/-- Two calls with a page each list the root. -/
theorem getdents_lists_directory_treeVolume :
    Meets (Listing.step treeVolume 20) AtBlock [4096, 4096] (Listing.start treeVolume treeRoot) ∧
      ∃ l, run (Listing.step treeVolume 20) [4096, 4096] (Listing.start treeVolume treeRoot) =
          some l ∧ Listed treeVolume 0 l := by
  have hcalls : Meets (Listing.step treeVolume 20) AtBlock [4096, 4096]
      (Listing.start treeVolume treeRoot) := by decide +kernel
  have hfuel : treeVolume.slotCount 0 < 20 := by decide +kernel
  exact ⟨hcalls, getdents_lists_directory treeVolume_dirOk
    ((treeVolume_ok 0 (by decide)).fillFnode _).2 hfuel hcalls⟩

/-- The root has one entry. With a buffer of 280 bytes a call stops after one record, and
the next call returns the same entry again. -/
theorem treeVolume_getdents_twice :
    treeVolume.listed 0 (treeVolume.slotCount 0) = [(cstr "a", dtDir)] ∧
      (run (Listing.step treeVolume 20) [280, 280] (Listing.start treeVolume treeRoot)).map
        (fun l => names l.dents) = some [(cstr "a", dtDir), (cstr "a", dtDir)] := by
  decide +kernel

end Chunos.Lmfs
