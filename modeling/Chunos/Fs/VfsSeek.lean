import Chunos.Fs.VfsRead

/-!
# Moving the position of a file, and mapping a file

`vfs_seek` walks the blocks of a file up to a new position and reads the block there. It
returns the new position, or a negative error. `vfs_mmap` tests that value as if only 0 was
a success, so it goes on to read the file only when it did not have to seek or when the new
position is 0. This file follows `fs/vfs.c`. Values of `whence` other than the three leave
the distance uninitialised, so they are not modelled.
-/

namespace Chunos.Vfs

open List Option

/-- `SEEK_SET`, `SEEK_CUR` and `SEEK_END`. -/
inductive SeekWhence where
  | seekSet
  | seekCur
  | seekEnd
deriving DecidableEq

/-- What `vfs_seek` computes from its arguments: the direction, with `true` for the one to
the front of the file, the distance, and the new position. -/
structure SeekPlan where
  direction : Bool
  newOff : ℤ
  new : ℤ

section Operations

variable {σ : Type*} (ops : FilesystemOps σ)

/-- The `switch` of `vfs_seek`. `SEEK_CUR` limits the distance but not the position. -/
def seekPlan (file : File σ) (offset : ℕ) : SeekWhence → Except ℤ SeekPlan
  | .seekSet =>
    if file.fnode.dataSize < offset then .error (-einval)
    else if offset < file.offset then .ok ⟨true, file.offset - offset, offset⟩
    else .ok ⟨false, offset - file.offset, offset⟩
  | .seekCur =>
    let new := wrap32 (file.offset + offset)
    .ok ⟨false, if file.fnode.dataSize < new then file.fnode.dataSize - file.offset else offset,
      new⟩
  | .seekEnd => .ok ⟨false, file.fnode.dataSize - file.offset, file.fnode.dataSize⟩

/-- The loops of `vfs_seek` over blocks: the last block, or `none` at the end of the list. -/
def seekBlocks (whence : VfsWhence) : ℕ → ℕ → Fnode σ → Option ℕ × Fnode σ
  | 0, block, fnode => (some block, fnode)
  | n + 1, _, fnode =>
    let (block, fnode) := vfsGetDataBlock ops fnode whence
    if block = 0 then (none, fnode) else seekBlocks whence n block fnode

/-- `__vfs_read_block` into the buffer of the node. -/
def readInto (fnode : Fnode σ) (block : ℕ) : ℤ × Fnode σ :=
  let (err, bytes) := ops.readBlock fnode.fs block
  (err, fnode.copyIn 0 bytes)

/-- Walk over some blocks, read the last one, and set the position in it. -/
def seekTo (whence : VfsWhence) (blocks rwPos : ℕ) (fnode : Fnode σ) : ℤ × Fnode σ :=
  match seekBlocks ops whence blocks 0 fnode with
  | (none, fnode) => (-enospc, fnode)
  | (some block, fnode) =>
    let (err, fnode) := readInto ops fnode block
    if err ≠ 0 then (-eio, fnode) else (0, { fnode with rwPos := rwPos })

/-- The number of blocks of a distance that leaves the current block. -/
def seekBlockNr (distance bufferSize : ℕ) : ℕ :=
  (baligin (BitVec.ofNat 32 distance) (BitVec.ofNat 32 bufferSize)).toNat / bufferSize

/-- The part of `vfs_seek` that goes to the front. -/
def seekBack (newOff : ℕ) (fnode : Fnode σ) : ℤ × Fnode σ :=
  let left := fnode.rwPos
  if left < newOff then
    let notAligin := (newOff - left) % fnode.bufferSize
    let blocks := seekBlockNr (newOff - left) fnode.bufferSize
    seekTo ops .prevBlock blocks (fnode.bufferSize - notAligin) fnode
  else (0, { fnode with rwPos := fnode.rwPos - newOff })

/-- The part of `vfs_seek` that goes to the back. -/
def seekForward (newOff : ℕ) (fnode : Fnode σ) : ℤ × Fnode σ :=
  let left := fnode.bufferSize - fnode.rwPos
  if left ≤ newOff then
    let notAligin := (newOff - left) % fnode.bufferSize
    let blocks := seekBlockNr (newOff - left) fnode.bufferSize
    seekTo ops .nextBlock (if notAligin = 0 then blocks + 1 else blocks) notAligin fnode
  else (0, { fnode with rwPos := fnode.rwPos + newOff })

/-- Read the first block and go to its beginning. The result of the read is ignored. -/
def rewind (fnode : Fnode σ) : Fnode σ :=
  let (_, bytes, fnode) := vfsReadBlock ops fnode fnode.dataBuffer .startBlock
  { fnode.copyIn 0 bytes with rwPos := 0 }

/-- The move of `vfs_seek`. A file system that has no previous blocks, which is
`prevBlock = false`, goes to the first block and then to the back. -/
def seekMove (prevBlock : Bool) (file : File σ) (direction : Bool) (newOff : ℕ) : ℤ × Fnode σ :=
  if direction then
    if !prevBlock ∧ file.fnode.rwPos < newOff then
      seekForward ops (file.offset - newOff) (rewind ops file.fnode)
    else seekBack ops newOff file.fnode
  else seekForward ops newOff file.fnode

/-- `vfs_seek`. It is `none` when the sum of two positions overflows and the new position is
negative. -/
def vfsSeek (prevBlock : Bool) (file : File σ) (offset : ℕ) (whence : SeekWhence) :
    Option (ℤ × File σ) :=
  match seekPlan file offset whence with
  | .error err => some (err, file)
  | .ok plan =>
    if plan.newOff ≤ 0 then some (0, file)
    else
      let (err, fnode) := seekMove ops prevBlock file plan.direction plan.newOff.toNat
      if err ≠ 0 then some (err, { file with fnode := fnode })
      else if plan.new < 0 then none
      else
        some (plan.new,
          { offset := plan.new.toNat
            fnode := { fnode with rwPos := fnode.rwPos % fnode.bufferSize } })

/-- `vfs_mmap`: the returned value, the bytes delivered and the file afterwards. -/
def vfsMmap (prevBlock : Bool) (file : File σ) (size offset : ℕ) :
    Option (ℤ × List UInt8 × File σ) :=
  if file.offset ≠ offset then
    (vfsSeek ops prevBlock file offset .seekSet).bind fun (err, file) =>
      if err ≠ 0 then some (err, [], file) else vfsRead ops file size
  else vfsRead ops file size

end Operations

variable {σ : Type*} (ops : FilesystemOps σ)

/-- A seek changes the buffer, but not its size. -/
structure Sought (fnode fnode' : Fnode σ) : Prop where
  dataSize_eq : fnode'.dataSize = fnode.dataSize
  bufferSize_eq : fnode'.bufferSize = fnode.bufferSize
  buffer_le : fnode.dataBuffer.length ≤ fnode'.dataBuffer.length

theorem Sought.trans {fnode fnode' fnode'' : Fnode σ} (h : Sought fnode fnode')
    (h' : Sought fnode' fnode'') : Sought fnode fnode'' where
  dataSize_eq := h'.dataSize_eq.trans h.dataSize_eq
  bufferSize_eq := h'.bufferSize_eq.trans h.bufferSize_eq
  buffer_le := h.buffer_le.trans h'.buffer_le

theorem sought_copyIn (fnode : Fnode σ) (bytes : List UInt8) :
    Sought fnode (fnode.copyIn 0 bytes) := by
  refine ⟨rfl, rfl, ?_⟩
  simp only [Fnode.copyIn, length_append, length_drop, take_zero, length_nil]
  omega

theorem seekBlocks_sought (whence : VfsWhence) (n block : ℕ) (fnode : Fnode σ) :
    Sought fnode (seekBlocks ops whence n block fnode).2 := by
  induction n generalizing block fnode with
  | zero => exact ⟨rfl, rfl, le_rfl⟩
  | succ n ih =>
    have hstep : Sought fnode (vfsGetDataBlock ops fnode whence).2 := ⟨rfl, rfl, le_rfl⟩
    simp only [seekBlocks]
    by_cases hnone : (vfsGetDataBlock ops fnode whence).1 = 0
    · rw [if_pos hnone]
      exact hstep
    · rw [if_neg hnone]
      exact hstep.trans (ih _ _)

/-- The errors of a walk are negative. -/
theorem seekTo_spec (whence : VfsWhence) (blocks rwPos : ℕ) (fnode : Fnode σ) :
    (seekTo ops whence blocks rwPos fnode).1 ≤ 0 ∧
      Sought fnode (seekTo ops whence blocks rwPos fnode).2 := by
  have hwalk := seekBlocks_sought ops whence blocks 0 fnode
  unfold seekTo
  cases hblocks : seekBlocks ops whence blocks 0 fnode with
  | mk block fnode₁ =>
    rw [hblocks] at hwalk
    cases block with
    | none =>
      have hneg : -enospc ≤ 0 := by decide
      exact ⟨hneg, hwalk⟩
    | some block =>
      cases hread : ops.readBlock fnode₁.fs block with
      | mk err bytes =>
        have hcopy := hwalk.trans (sought_copyIn fnode₁ bytes)
        have hneg : -eio ≤ 0 := by decide
        simp only [readInto, hread]
        by_cases herr : err = 0
        · rw [if_neg (not_not.mpr herr)]
          exact ⟨le_rfl, hcopy.dataSize_eq, hcopy.bufferSize_eq, hcopy.buffer_le⟩
        · rw [if_pos herr]
          exact ⟨hneg, hcopy⟩

theorem seekForward_spec (newOff : ℕ) (fnode : Fnode σ) :
    (seekForward ops newOff fnode).1 ≤ 0 ∧ Sought fnode (seekForward ops newOff fnode).2 := by
  unfold seekForward
  simp only
  split_ifs
  · exact seekTo_spec ops _ _ _ _
  · exact seekTo_spec ops _ _ _ _
  · exact ⟨le_rfl, rfl, rfl, le_rfl⟩

theorem rewind_sought (fnode : Fnode σ) : Sought fnode (rewind ops fnode) := by
  have hblock : ∀ buffer, Sought fnode (vfsReadBlock ops fnode buffer .startBlock).2.2 := by
    intro buffer
    simp only [vfsReadBlock]
    by_cases hnone : (vfsGetDataBlock ops fnode .startBlock).1 = 0
    · rw [if_pos hnone]
      exact ⟨rfl, rfl, le_rfl⟩
    · rw [if_neg hnone]
      exact ⟨rfl, rfl, le_rfl⟩
  have hcopy := (hblock fnode.dataBuffer).trans (sought_copyIn _
    (vfsReadBlock ops fnode fnode.dataBuffer .startBlock).2.1)
  exact ⟨hcopy.dataSize_eq, hcopy.bufferSize_eq, hcopy.buffer_le⟩

theorem seekMove_spec (prevBlock : Bool) (file : File σ) (direction : Bool) (newOff : ℕ) :
    (seekMove ops prevBlock file direction newOff).1 ≤ 0 ∧
      Sought file.fnode (seekMove ops prevBlock file direction newOff).2 := by
  unfold seekMove
  split_ifs
  · obtain ⟨herr, hforward⟩ :=
      seekForward_spec ops (file.offset - newOff) (rewind ops file.fnode)
    exact ⟨herr, (rewind_sought ops _).trans hforward⟩
  · simp only [seekBack]
    split_ifs
    · exact seekTo_spec ops _ _ _ _
    · exact ⟨le_rfl, rfl, rfl, le_rfl⟩
  · exact seekForward_spec ops _ _

theorem isPrefix_readBlocks (n : ℕ) (fnode : Fnode σ) (out : List UInt8) :
    out <+: (readBlocks ops n fnode out).2.1 := by
  induction n generalizing fnode out with
  | zero => exact prefix_rfl
  | succ n ih =>
    simp only [readBlocks]
    split_ifs
    · exact prefix_rfl
    · exact (prefix_append _ _).trans (ih _ _)

theorem isPrefix_readLeft (sizeLeft : ℕ) (fnode : Fnode σ) (out : List UInt8) :
    out <+: (readLeft ops sizeLeft fnode out).2.1 := by
  simp only [readLeft]
  split_ifs
  · exact prefix_rfl
  · exact prefix_rfl
  · exact prefix_append _ _

/-- Whatever happens to a read later on, the part of the request that is in the buffer has
been delivered. -/
theorem isPrefix_readReal (file : File σ) (size : ℕ) :
    (file.fnode.dataBuffer.drop file.fnode.rwPos).take
        (splitRequest file.fnode.bufferSize file.fnode.rwPos size).sizeInBuffer <+:
      (readReal ops file size).2.1 := by
  simp only [readReal]
  split_ifs
  · exact isPrefix_readBlocks ops _ _ _
  all_goals exact (isPrefix_readBlocks ops _ _ _).trans (isPrefix_readLeft ops _ _ _)

variable {ops}

/-- A seek to another position of the file fails with a negative error, or it returns that
position. -/
theorem vfsSeek_seekSet {prevBlock : Bool} {file file' : File σ} {offset : ℕ} {ret : ℤ}
    (hle : offset ≤ file.fnode.dataSize) (hne : file.offset ≠ offset)
    (h : vfsSeek ops prevBlock file offset .seekSet = some (ret, file')) :
    ret < 0 ∨ ret = offset ∧ file'.offset = offset ∧ Sought file.fnode file'.fnode ∧
      (0 < file.fnode.bufferSize → file'.fnode.rwPos < file.fnode.bufferSize) := by
  obtain ⟨direction, newOff, hplan, hpos⟩ : ∃ direction newOff,
      seekPlan file offset .seekSet = .ok ⟨direction, newOff, offset⟩ ∧ 0 < newOff := by
    simp only [seekPlan, if_neg (not_lt.mpr hle)]
    split_ifs with hlt
    · exact ⟨_, _, rfl, by omega⟩
    · exact ⟨_, _, rfl, by omega⟩
  have hnew : ¬ (offset : ℤ) < 0 := by omega
  obtain ⟨herr, hsought⟩ := seekMove_spec ops prevBlock file direction newOff.toNat
  simp only [vfsSeek, hplan, if_neg (not_le.mpr hpos), if_neg hnew] at h
  split_ifs at h with hzero
  · obtain ⟨rfl, rfl⟩ := Prod.mk.inj (some.inj h)
    exact .inl (lt_of_le_of_ne herr hzero)
  · obtain ⟨rfl, rfl⟩ := Prod.mk.inj (some.inj h)
    refine .inr ⟨rfl, Int.toNat_natCast _, ⟨hsought.dataSize_eq, hsought.bufferSize_eq,
      hsought.buffer_le⟩, fun hB => ?_⟩
    simp only [hsought.bufferSize_eq]
    exact Nat.mod_lt _ hB

/-- A read of bytes that exist delivers at least one byte. -/
theorem vfsRead_ne_nil {file file' : File σ} {size : ℕ} {ret : ℤ} {out : List UInt8}
    (hpos : 0 < size) (hfit : file.offset + size ≤ file.fnode.dataSize)
    (hrange : file.fnode.dataSize < 2 ^ 31) (hrw : file.fnode.rwPos < file.fnode.bufferSize)
    (hbuf : file.fnode.bufferSize ≤ file.fnode.dataBuffer.length)
    (h : vfsRead ops file size = some (ret, out, file')) : out ≠ [] := by
  have hreal : realSize file size = size := by
    rw [realSize_eq_min (by omega) (by omega), min_eq_left (by omega)]
  simp only [vfsRead, hreal] at h
  rw [if_neg (by omega), if_neg (by omega), Int.toNat_natCast, some.injEq] at h
  have hsplit : 0 < (splitRequest file.fnode.bufferSize file.fnode.rwPos size).sizeInBuffer := by
    unfold splitRequest
    split_ifs
    · exact hpos
    · exact Nat.sub_pos_of_lt hrw
  have hdelivered := isPrefix_readReal ops file size
  rw [h] at hdelivered
  rintro rfl
  have hnil := congrArg List.length (prefix_nil.mp hdelivered)
  simp only [length_take, length_drop, length_nil] at hnil
  omega

end Chunos.Vfs
