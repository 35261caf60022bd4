import Chunos.Basic

/-!
# Blocks of a file system on the memory disk

`lmfs_read_block` and `lmfs_write_block` request eight sectors. The first of them is a product of
32 bits, and only the first one is compared with a bound when a request is made.
-/

namespace Chunos.Disk

/-- `sector_nr` of the disk that `init_disk` sets up. -/
def sectorNr : ℕ := 2048

/-- `max_start` of its partition: `start_sector` and `sector_nr` less `blk_n_sectors`. -/
def maxStart : ℕ := 4 + 2048 - 4096 / 512

/-- What the sectors of a disk or of a buffer hold. -/
abbrev Sectors := ℕ → List UInt8

/-- `memdisk_read_sectors`. -/
def memdiskReadSectors (disk : Sectors) (sSector count : ℕ) : Sectors := fun k =>
  if k < count then disk (sSector + k) else []

/-- `memdisk_write_sectors`. -/
def memdiskWriteSectors (disk buffer : Sectors) (sSector count : ℕ) : Sectors := fun s =>
  if sSector ≤ s ∧ s < sSector + count then buffer (s - sSector) else disk s

/-- `read_sectors` and `write_sectors`, for an operation of the disk. It is `none` for
`-EINVAL`. -/
def request (op : ℕ → ℕ → Sectors) (startSector count : ℕ) : Option Sectors :=
  if startSector > maxStart then none else some (op startSector count)

/-- `lmfs_read_block`: the buffer that is read. -/
def lmfsReadBlock (disk : Sectors) (block : BitVec 32) : Option Sectors :=
  request (memdiskReadSectors disk) (block * 8).toNat 8

/-- `lmfs_write_block`: the disk that is written. -/
def lmfsWriteBlock (disk buffer : Sectors) (block : BitVec 32) : Option Sectors :=
  request (memdiskWriteSectors disk buffer) (block * 8).toNat 8

/-- What an operation of the disk gives for the eight sectors of a block, if all of them are on
the disk. -/
def wholeBlock (op : ℕ → ℕ → Sectors) (block : BitVec 32) : Option Sectors :=
  if 8 * block.toNat + 7 < sectorNr then some (op (8 * block.toNat) 8) else none

/-- The product keeps 29 bits of the number, and the last block ends where the disk does. -/
theorem request_eq_wholeBlock_iff (op : ℕ → ℕ → Sectors) (block : BitVec 32) :
    request op (block * 8).toNat 8 = wholeBlock op block ↔
      block.toNat < 2 ^ 29 ∨ 256 ≤ block.toNat % 2 ^ 29 := by
  have hstart : (block * 8).toNat = 8 * (block.toNat % 2 ^ 29) := by
    rw [BitVec.toNat_mul]
    change block.toNat * 8 % 2 ^ 32 = _
    omega
  rw [hstart, request, wholeBlock]
  unfold maxStart sectorNr
  by_cases hsmall : block.toNat < 2 ^ 29
  · rw [Nat.mod_eq_of_lt hsmall]
    split_ifs <;> simp <;> omega
  · have hbehind : ¬ 8 * block.toNat + 7 < 2048 := by omega
    rw [if_neg hbehind]
    split_ifs <;> simp <;> omega

/-- For every block number: reading and writing the block touch its eight sectors if they are on
the disk and are refused otherwise, if and only if the number is below `2 ^ 29` or its lower 29
bits are a number that is refused. -/
theorem lmfsBlock_whole_iff (block : BitVec 32) :
    (∀ disk buffer, lmfsReadBlock disk block = wholeBlock (memdiskReadSectors disk) block ∧
        lmfsWriteBlock disk buffer block = wholeBlock (memdiskWriteSectors disk buffer) block) ↔
      block.toNat < 2 ^ 29 ∨ 256 ≤ block.toNat % 2 ^ 29 := by
  simp only [lmfsReadBlock, lmfsWriteBlock, request_eq_wholeBlock_iff, and_self, forall_const]

/-- Block `2 ^ 29` is not on the disk, but a request for it writes the sectors of block 0. -/
theorem lmfsBlock_wraps :
    wholeBlock (memdiskWriteSectors (fun _ => [0]) fun _ => [1]) 0x20000000#32 = none ∧
      ∃ disk, lmfsWriteBlock (fun _ => [0]) (fun _ => [1]) 0x20000000#32 = some disk ∧
        disk 0 = [1] ∧ disk 7 = [1] ∧ disk 8 = [0] :=
  ⟨rfl, _, rfl, rfl, rfl, rfl⟩

end Chunos.Disk
