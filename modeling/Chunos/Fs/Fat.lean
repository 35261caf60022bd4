import Chunos.Lib.Chains
import Chunos.Fs.Vfs

/-!
# The cluster cursor of a FAT file

The clusters of a file on a FAT volume are linked through the file allocation table, whose
entries have 12, 16 or 28 bits. `fat_get_data_block` keeps the current cluster and looks its
entry up in a buffer with eight sectors of the table. The buffer is also used for a sector
behind its first one, but with an offset that is divided by the size of an entry, and the marks
for the end of a chain are only recognised on volumes with 16 bits. This file says for which
chains the cursor is right nevertheless.
-/

namespace Chunos.Fat

open Chains List Option

/-- `FAT12`, `FAT16` and `FAT32`. -/
inductive FatType where
  | fat12
  | fat16
  | fat32
deriving DecidableEq, Repr

/-- `struct fat_super_block`, with the fields that describe the table and its clusters. -/
structure FatSuperBlock where
  bytsPerSec : ℕ
  secPerClus : ℕ
  resSecCnt : ℕ
  clusCount : ℕ
  fat1216RootDirBlk : ℕ
deriving DecidableEq, Repr

/-- `fat_type`, as `get_fat_type` derives it from the number of clusters. -/
def FatSuperBlock.fatType (fsb : FatSuperBlock) : FatType :=
  if fsb.clusCount < 4085 then .fat12
  else if fsb.clusCount < 65525 then .fat16
  else .fat32

/-- `fat_offset`, as `get_fat_type` sets it. -/
def FatSuperBlock.fatOffset (fsb : FatSuperBlock) : ℕ := if fsb.fatType = .fat32 then 4 else 2

/-- The `clus_in_fat` function: the sector of an entry and its offset there. -/
def clusInFat (fsb : FatSuperBlock) (clus : ℕ) : ℕ × ℕ :=
  let offset := (if fsb.fatType = .fat12 then clus + clus / 2 else fsb.fatOffset * clus) % 2 ^ 32
  (fsb.resSecCnt + offset / fsb.bytsPerSec, offset % fsb.bytsPerSec)

/-- A cluster of the data area. -/
def FatSuperBlock.IsClus (fsb : FatSuperBlock) (clus : ℕ) : Prop :=
  2 ≤ clus ∧ clus ≤ fsb.clusCount + 1

instance (fsb : FatSuperBlock) (clus : ℕ) : Decidable (fsb.IsClus clus) :=
  inferInstanceAs (Decidable (_ ∧ _))

/-- A mounted volume: the super block, the bytes on the device, and the last sector at which
a read from the device may start. The table begins behind the boot sector and lies on the
device. -/
structure Volume where
  fsb : FatSuperBlock
  image : ℕ → UInt8
  maxStart : ℕ
  bytsPerSec_mem : fsb.bytsPerSec ∈ [512, 1024, 2048, 4096]
  secPerClus_pos : 0 < fsb.secPerClus
  resSecCnt_pos : 0 < fsb.resSecCnt
  clusCount_le : fsb.clusCount ≤ 0x0ffffff5
  rootDirBlk_le : fsb.fat1216RootDirBlk ≤ 4096
  onDevice : ∀ clus, fsb.IsClus clus → (clusInFat fsb clus).1 ≤ maxStart

/-- What the volume keeps while it is mounted: `buf_sector_base`, `buf` and whether
`buf_mutex` is locked. -/
structure FatBuffer where
  bufSectorBase : ℕ
  buf : ℕ → UInt8
  locked : Bool

/-- `struct fat_fnode`, with the cursor of the file. -/
structure FatFnode where
  firstClus : ℕ
  prevClus : ℕ
  currentClus : ℕ
deriving DecidableEq, Repr

/-- A buffer after sectors of the device, which have 512 bytes, are read to its front. -/
def fill (image buf : ℕ → UInt8) (start count : ℕ) : ℕ → UInt8 := fun a =>
  if a < count * 512 then image (start * 512 + a) else buf a

/-- The `read_sectors` function. It is `none` when the device refuses to read. -/
def readSectors (v : Volume) (buf : ℕ → UInt8) (start count : ℕ) : Option (ℕ → UInt8) :=
  if start > v.maxStart then none else some (fill v.image buf start count)

/-- The `sector_in_fat_buffer` function, where `0` means that the buffer is not used. -/
def sectorInFatBuffer (fsb : FatSuperBlock) (base i j : ℕ) : ℕ :=
  if base = 0 then 0
  else if base ≤ i ∧ i < base + fsb.secPerClus then
    (i - base) * fsb.bytsPerSec / fsb.fatOffset + j
  else 0

/-- `u8_to_u16` of two characters, which are signed, as an unsigned number of 32 bits. -/
def u8ToU16 (low high : UInt8) : ℕ :=
  ((high.toBitVec.signExtend 32 <<< 8) ||| low.toBitVec.signExtend 32).toNat

/-- The number of two bytes. -/
def le16 (bytes : ℕ → UInt8) : ℕ := (bytes 0).toNat + (bytes 1).toNat * 2 ^ 8

/-- The number of four bytes. -/
def le32 (bytes : ℕ → UInt8) : ℕ :=
  le16 bytes + (bytes 2).toNat * 2 ^ 16 + (bytes 3).toNat * 2 ^ 24

/-- The end of `__fat_get_data_block`: the next cluster, from the bytes of an entry. -/
def nextClus (type : FatType) (bytes : ℕ → UInt8) (clus : ℕ) : ℕ :=
  match type with
  | .fat32 => le32 bytes % 2 ^ 28
  | .fat16 => le16 bytes
  | .fat12 =>
    if clus % 2 = 1 then u8ToU16 (bytes 0) (bytes 1) / 2 ^ 4
    else u8ToU16 (bytes 0) (bytes 1) % 2 ^ 12

/-- The cursor moves to the cluster that is found at an offset of the buffer. -/
def FatFnode.advance (fn : FatFnode) (type : FatType) (buf : ℕ → UInt8) (k : ℕ) : FatFnode :=
  { fn with
    prevClus := fn.currentClus
    currentClus := nextClus type (fun a => buf (k + a)) fn.currentClus }

/-- The `__fat_get_data_block` function. It is `none` when the mutex is locked, since it is not
unlocked by anyone. It stays locked when the device refuses to read, and in the buffer of a
volume with 12 bits at offset 4095, where the function returns behind a stray semicolon. -/
def doFatGetDataBlock (v : Volume) (st : FatBuffer) (fn : FatFnode) :
    Option (FatBuffer × FatFnode) :=
  if st.locked then none
  else
    let (i, j) := clusInFat v.fsb fn.currentClus
    let k := sectorInFatBuffer v.fsb st.bufSectorBase i j
    let read := readSectors v st.buf i (4096 / v.fsb.bytsPerSec)
    if k = 0 then
      match read with
      | none => some ({ st with locked := true }, fn)
      | some buf => some (⟨i, buf, false⟩, fn.advance v.fsb.fatType buf j)
    else if v.fsb.fatType = .fat12 ∧ k = 4095 then
      some ({ st with buf := read.getD st.buf, locked := true }, fn)
    else some (st, fn.advance v.fsb.fatType st.buf k)

/-- The last cluster number that is not one of the root directory. -/
def FatSuperBlock.rootLimit (fsb : FatSuperBlock) : ℕ := 0xfff7 - fsb.fat1216RootDirBlk

/-- The `fat12_16_get_data_block` function. -/
def fat1216GetDataBlock (v : Volume) (st : FatBuffer) (fn : FatFnode) :
    Option (FatBuffer × FatFnode) :=
  if fn.currentClus > v.fsb.rootLimit ∧ fn.currentClus ≠ 0 then
    let clus := fn.currentClus - 1
    some (st, { fn with
      prevClus := fn.currentClus
      currentClus := if clus = v.fsb.rootLimit then 0 else clus })
  else if fn.currentClus = 0 then some (st, fn)
  else doFatGetDataBlock v st fn

/-- The end of `fat_get_data_block`: the block of the cursor, or `0` at the end of the file. -/
def blockOf (type : FatType) (clus : ℕ) : ℕ :=
  if clus ≥ (if type = .fat32 then 0xfffffff8 else 0xfff8) then 0 else clus

/-- The `fat_get_data_block` function. -/
def fatGetDataBlock (v : Volume) (whence : VfsWhence) (st : FatBuffer) (fn : FatFnode) :
    Option (ℕ × FatBuffer × FatFnode) :=
  match whence with
  | .nextBlock =>
    (if v.fsb.fatType = .fat32 then doFatGetDataBlock v st fn
      else fat1216GetDataBlock v st fn).map fun (st, fn) =>
        (blockOf v.fsb.fatType fn.currentClus, st, fn)
  | .startBlock =>
    let fn := { fn with currentClus := fn.firstClus, prevClus := fn.firstClus }
    some (blockOf v.fsb.fatType fn.currentClus, st, fn)
  | .currentBlock => some (blockOf v.fsb.fatType fn.currentClus, st, fn)
  | .endBlock => some (0, st, fn)
  | .prevBlock => some (0, st, fn)

/-- The blocks that a number of calls for the next block return. -/
def nextBlocks (v : Volume) : ℕ → FatBuffer → FatFnode → Option (List ℕ)
  | 0, _, _ => some []
  | n + 1, st, fn => (fatGetDataBlock v .nextBlock st fn).bind fun (block, st, fn) =>
      (nextBlocks v n st fn).map (block :: ·)

/-- The blocks that a call for the first block and a number of calls for the next one return. -/
def fileBlocks (v : Volume) (n : ℕ) (st : FatBuffer) (fn : FatFnode) : Option (List ℕ) :=
  (fatGetDataBlock v .startBlock st fn).bind fun (block, st, fn) =>
    (nextBlocks v n st fn).map (block :: ·)

/-- Where the entry of a cluster lies in the table. -/
def FatType.entryOffset (type : FatType) (clus : ℕ) : ℕ :=
  match type with
  | .fat12 => clus + clus / 2
  | .fat16 => 2 * clus
  | .fat32 => 4 * clus

/-- The bytes of a volume from the entry of a cluster on. -/
def Volume.entryBytes (v : Volume) (clus : ℕ) : ℕ → UInt8 := fun a =>
  v.image (v.fsb.resSecCnt * v.fsb.bytsPerSec + v.fsb.fatType.entryOffset clus + a)

/-- The number in an entry. -/
def FatType.value (type : FatType) (clus : ℕ) (bytes : ℕ → UInt8) : ℕ :=
  match type with
  | .fat12 => if clus % 2 = 1 then le16 bytes / 2 ^ 4 else le16 bytes % 2 ^ 12
  | .fat16 => le16 bytes
  | .fat32 => le32 bytes % 2 ^ 28

/-- The first number that marks the end of a chain. -/
def FatType.endMark : FatType → ℕ
  | .fat12 => 0xff8
  | .fat16 => 0xfff8
  | .fat32 => 0x0ffffff8

/-- The links of a volume: each cluster of the data area has a next one or is the last one. -/
def Volume.next (v : Volume) (clus : ℕ) : Option (Option ℕ) :=
  if v.fsb.IsClus clus then
    let value := v.fsb.fatType.value clus (v.entryBytes clus)
    some (if v.fsb.fatType.endMark ≤ value then none else some value)
  else none

/-- The first cluster of a file, which an empty file does not have. -/
def FatFnode.first (fn : FatFnode) : Option ℕ :=
  if fn.firstClus = 0 then none else some fn.firstClus

/-- The buffer in which the entry of a cluster is looked up, and the offset that is used: the
sectors from that of the entry on, unless the old buffer is taken to have it. -/
def place (v : Volume) (st : FatBuffer) (clus : ℕ) : FatBuffer × ℕ :=
  let (i, j) := clusInFat v.fsb clus
  let k := sectorInFatBuffer v.fsb st.bufSectorBase i j
  if k = 0 then (⟨i, fill v.image st.buf i (4096 / v.fsb.bytsPerSec), false⟩, j) else (st, k)

/-- The bytes that are taken for the entry of a cluster. -/
def placeBytes (v : Volume) (st : FatBuffer) (clus : ℕ) : ℕ → UInt8 := fun a =>
  (place v st clus).1.buf ((place v st clus).2 + a)

/-- The mutex is free, and a volume with 12 bits does not use the old buffer at its last byte. -/
def Legible (v : Volume) (st : FatBuffer) (clus : ℕ) : Prop :=
  st.locked = false ∧ ¬ (v.fsb.fatType = .fat12 ∧ sectorInFatBuffer v.fsb st.bufSectorBase
    (clusInFat v.fsb clus).1 (clusInFat v.fsb clus).2 = 4095)

/-- The block that is made of the bytes of an entry. With 28 bits no mark is recognised. With
12 bits a byte from 128 on sets all higher bits, which hides the rest of an even entry and
looks like a mark in an odd one. -/
def blockSeen (type : FatType) (clus : ℕ) (bytes : ℕ → UInt8) : ℕ :=
  match type with
  | .fat32 => le32 bytes % 2 ^ 28
  | .fat16 => if le16 bytes < 0xfff8 then le16 bytes else 0
  | .fat12 =>
    if clus % 2 = 1 then
      if (bytes 0).toNat < 128 ∧ (bytes 1).toNat < 128 then le16 bytes / 2 ^ 4 else 0
    else if (bytes 0).toNat < 128 then le16 bytes % 2 ^ 12
    else 0xf00 + (bytes 0).toNat

/-- The cursor follows a chain: what it sees behind each cluster is the next one, or `0` behind
the last one. On volumes with 12 or 16 bits the numbers above a limit are taken for clusters of
the root directory, where it counts downwards. -/
def Followed (v : Volume) : FatBuffer → List ℕ → Prop
  | _, [] => True
  | st, clus :: rest =>
    if v.fsb.fatType ≠ .fat32 ∧ v.fsb.rootLimit < clus then
      (if clus - 1 = v.fsb.rootLimit then 0 else clus - 1) = rest.headD 0 ∧ Followed v st rest
    else
      Legible v st clus ∧ blockSeen v.fsb.fatType clus (placeBytes v st clus) = rest.headD 0 ∧
        Followed v (place v st clus).1 rest

theorem signExtend_of_lt {c : UInt8} (hc : c.toNat < 128) :
    (c.toBitVec.signExtend 32).toNat = c.toNat := by
  have hmsb : c.toBitVec.msb = false := by
    rw [BitVec.msb_eq_decide]
    simp only [UInt8.toNat_toBitVec, decide_eq_false_iff_not, not_le]
    omega
  rw [BitVec.signExtend_eq_setWidth_of_msb_false hmsb, BitVec.toNat_setWidth]
  simp only [UInt8.toNat_toBitVec]
  omega

theorem signExtend_of_le {c : UInt8} (hc : 128 ≤ c.toNat) :
    (c.toBitVec.signExtend 32).toNat = 0xffffff00 + c.toNat := by
  have hmsb : c.toBitVec.msb = true := by
    rw [BitVec.msb_eq_decide]
    simp only [UInt8.toNat_toBitVec, decide_eq_true_eq]
    omega
  have hlt := c.toNat_lt
  rw [BitVec.toNat_signExtend, hmsb]
  simp only [BitVec.toNat_setWidth, UInt8.toNat_toBitVec, if_true]
  omega

theorem u8ToU16_eq (low high : UInt8) :
    u8ToU16 low high = ((high.toBitVec.signExtend 32).toNat % 2 ^ 24) <<< 8 |||
      (low.toBitVec.signExtend 32).toNat := by
  unfold u8ToU16
  rw [BitVec.toNat_or, BitVec.toNat_shiftLeft]
  congr 1
  rw [Nat.shiftLeft_eq, Nat.shiftLeft_eq]
  omega

theorem or_ones {n a : ℕ} (ha : a < 2 ^ n) : a ||| (2 ^ n - 1) = 2 ^ n - 1 := by
  apply Nat.eq_of_testBit_eq
  intro i
  rw [Nat.testBit_or, Nat.testBit_two_pow_sub_one]
  by_cases hi : i < n
  · simp [hi]
  · have hle : 2 ^ n ≤ 2 ^ i := Nat.pow_le_pow_right (by omega) (not_lt.mp hi)
    simp [hi, Nat.testBit_lt_two_pow (lt_of_lt_of_le ha hle)]

theorem u8ToU16_of_le {low : UInt8} (high : UInt8) (hlow : 128 ≤ low.toNat) :
    u8ToU16 low high = 0xffffff00 + low.toNat := by
  have hsplit : 0xffffff00 + low.toNat = (2 ^ 24 - 1) <<< 8 ||| low.toNat := by
    rw [← Nat.shiftLeft_add_eq_or_of_lt low.toNat_lt, Nat.shiftLeft_eq]
    norm_num
  rw [u8ToU16_eq, signExtend_of_le hlow, hsplit, ← Nat.or_assoc, ← Nat.shiftLeft_or_distrib,
    or_ones (Nat.mod_lt _ (by decide))]

theorem u8ToU16_cases (low high : UInt8) :
    low.toNat < 128 ∧ high.toNat < 128 ∧
        u8ToU16 low high = low.toNat + high.toNat * 2 ^ 8 ∨
      low.toNat < 128 ∧ 128 ≤ high.toNat ∧
        u8ToU16 low high = 0xffff0000 + low.toNat + high.toNat * 2 ^ 8 ∨
      128 ≤ low.toNat ∧ u8ToU16 low high = 0xffffff00 + low.toNat := by
  have hhigh := high.toNat_lt
  by_cases hfirst : low.toNat < 128
  · rw [u8ToU16_eq, signExtend_of_lt hfirst, ← Nat.shiftLeft_add_eq_or_of_lt low.toNat_lt,
      Nat.shiftLeft_eq]
    by_cases hsecond : high.toNat < 128
    · rw [signExtend_of_lt hsecond]
      omega
    · rw [signExtend_of_le (by omega)]
      omega
  · exact .inr (.inr ⟨by omega, u8ToU16_of_le _ (by omega)⟩)

/-- The block of the next cluster is the one that is seen in the bytes of the entry. -/
theorem blockOf_nextClus (type : FatType) (bytes : ℕ → UInt8) (clus : ℕ) :
    blockOf type (nextClus type bytes clus) = blockSeen type clus bytes := by
  cases type with
  | fat32 =>
    simp only [blockOf, nextClus, blockSeen, if_true]
    rw [if_neg (by omega)]
  | fat16 =>
    simp only [blockOf, nextClus, blockSeen, reduceCtorEq, if_false]
    split_ifs <;> omega
  | fat12 =>
    have hlow := (bytes 0).toNat_lt
    have hcases := u8ToU16_cases (bytes 0) (bytes 1)
    simp only [blockOf, nextClus, blockSeen, le16, reduceCtorEq, if_false]
    split_ifs <;> omega

variable {clus : ℕ}

theorem eq_of_blockOf_ne_zero {type : FatType} (h : blockOf type clus ≠ 0) :
    clus = blockOf type clus := by
  unfold blockOf at h ⊢
  by_cases hend : clus ≥ (if type = .fat32 then 0xfffffff8 else 0xfff8)
  · rw [if_pos hend] at h
    exact absurd rfl h
  · rw [if_neg hend]

theorem Volume.blockOf_of_le (v : Volume) {x : ℕ} (hclus : v.fsb.IsClus clus) (hx : x ≤ clus) :
    blockOf v.fsb.fatType x = x := by
  have hcount := v.clusCount_le
  obtain ⟨-, hle⟩ := hclus
  refine if_neg ?_
  unfold FatSuperBlock.fatType
  by_cases h12 : v.fsb.clusCount < 4085
  · simp only [h12, if_true, reduceCtorEq, if_false]
    omega
  · by_cases h16 : v.fsb.clusCount < 65525
    · simp only [h12, h16, if_true, reduceCtorEq, if_false]
      omega
    · simp only [h12, h16, if_false, if_true]
      omega

variable {fn : FatFnode} {v : Volume} {st : FatBuffer} {link : Option ℕ} {chain : List ℕ}

/-- Among the numbers of the root directory the cursor counts downwards. -/
theorem fatGetDataBlock_of_root (st : FatBuffer) (hclus : v.fsb.IsClus fn.currentClus)
    (hroot : v.fsb.fatType ≠ .fat32 ∧ v.fsb.rootLimit < fn.currentClus) :
    ∃ fn', fatGetDataBlock v .nextBlock st fn =
        some (blockOf v.fsb.fatType fn'.currentClus, st, fn') ∧
      blockOf v.fsb.fatType fn'.currentClus =
        if fn.currentClus - 1 = v.fsb.rootLimit then 0 else fn.currentClus - 1 := by
  have hzero : fn.currentClus ≠ 0 := by
    have := hclus.1
    omega
  refine ⟨{ fn with
    prevClus := fn.currentClus
    currentClus := if fn.currentClus - 1 = v.fsb.rootLimit then 0 else fn.currentClus - 1 },
    ?_, v.blockOf_of_le hclus ?_⟩
  · simp only [fatGetDataBlock, hroot.1, if_false, fat1216GetDataBlock]
    rw [if_pos ⟨hroot.2, hzero⟩, map_some]
  · dsimp only
    split_ifs <;> omega

/-- A cluster that is not taken for one of the root directory is looked up in the table. -/
theorem fatGetDataBlock_of_not_root (st : FatBuffer) (hclus : v.fsb.IsClus fn.currentClus)
    (hroot : ¬ (v.fsb.fatType ≠ .fat32 ∧ v.fsb.rootLimit < fn.currentClus)) :
    fatGetDataBlock v .nextBlock st fn = (doFatGetDataBlock v st fn).map fun (st, fn) =>
      (blockOf v.fsb.fatType fn.currentClus, st, fn) := by
  have hzero : fn.currentClus ≠ 0 := by
    have := hclus.1
    omega
  simp only [fatGetDataBlock]
  by_cases hfat : v.fsb.fatType = .fat32
  · rw [if_pos hfat]
  · have hlimit : ¬ (fn.currentClus > v.fsb.rootLimit ∧ fn.currentClus ≠ 0) := fun h =>
      hroot ⟨hfat, h.1⟩
    rw [if_neg hfat, fat1216GetDataBlock, if_neg hlimit, if_neg hzero]

theorem doFatGetDataBlock_of_legible (hclus : v.fsb.IsClus fn.currentClus)
    (hlegible : Legible v st fn.currentClus) :
    doFatGetDataBlock v st fn = some ((place v st fn.currentClus).1,
      fn.advance v.fsb.fatType (place v st fn.currentClus).1.buf
        (place v st fn.currentClus).2) := by
  obtain ⟨hfree, hlast⟩ := hlegible
  have hread := v.onDevice _ hclus
  simp only [doFatGetDataBlock, place, hfree, Bool.false_eq_true, if_false]
  by_cases hk : sectorInFatBuffer v.fsb st.bufSectorBase (clusInFat v.fsb fn.currentClus).1
      (clusInFat v.fsb fn.currentClus).2 = 0
  · simp only [hk, if_true, readSectors, not_lt.mpr hread, if_false]
  · simp only [hk, if_false, hlast]

/-- Where an entry is not legible, the call does not return or stays at its cluster. -/
theorem doFatGetDataBlock_of_not_legible (hlegible : ¬ Legible v st fn.currentClus) :
    ∀ result ∈ doFatGetDataBlock v st fn, result.2 = fn := by
  intro result hresult
  by_cases hfree : st.locked = false
  · have hlast : v.fsb.fatType = .fat12 ∧ sectorInFatBuffer v.fsb st.bufSectorBase
        (clusInFat v.fsb fn.currentClus).1 (clusInFat v.fsb fn.currentClus).2 = 4095 := by
      by_contra h
      exact hlegible ⟨hfree, h⟩
    simp only [doFatGetDataBlock, hfree, Bool.false_eq_true, if_false, hlast, and_self,
      if_true] at hresult
    rw [← some.inj hresult]
  · rw [Bool.not_eq_false] at hfree
    simp [doFatGetDataBlock, hfree] at hresult

theorem map_cons_eq_some {blocks : Option (List ℕ)} {block : ℕ} {rest : List ℕ} :
    blocks.map (block :: ·) = some (rest ++ [0]) ↔
      block = rest.headD 0 ∧ blocks = some (rest ++ [0]).tail := by
  rw [map_eq_some_iff]
  cases rest with
  | nil => simp [and_comm]
  | cons clus rest => simp [and_comm]

theorem isClus_of_next (hnext : v.next clus = some link) : v.fsb.IsClus clus := by
  by_contra hclus
  simp [Volume.next, hclus] at hnext

/-- From the block of a cluster on, the calls return the rest of its chain exactly when the
cursor follows it. -/
theorem nextBlocks_iff (hchain : Chain v.next link chain) (st : FatBuffer) (fn : FatFnode)
    (hblock : blockOf v.fsb.fatType fn.currentClus = chain.headD 0) :
    nextBlocks v chain.length st fn = some (chain ++ [0]).tail ↔ Followed v st chain := by
  induction chain generalizing link st fn with
  | nil => simp [nextBlocks, Followed]
  | cons clus rest ih =>
    have hnodup := hchain.nodup
    obtain ⟨-, next, hnext, hrest⟩ := hchain
    have hclus := isClus_of_next hnext
    have hzero : clus ≠ 0 := by
      have := hclus.1
      omega
    obtain rfl : fn.currentClus = clus := by
      rw [headD_cons] at hblock
      rw [← hblock] at hzero
      rw [eq_of_blockOf_ne_zero hzero, hblock]
    simp only [length_cons, cons_append, tail_cons, nextBlocks, Followed]
    by_cases hroot : v.fsb.fatType ≠ .fat32 ∧ v.fsb.rootLimit < fn.currentClus
    · obtain ⟨fn', hcall, hseen⟩ := fatGetDataBlock_of_root st hclus hroot
      rw [if_pos hroot, hcall, bind_some, map_cons_eq_some, ← hseen]
      exact and_congr_right fun hnext => ih hrest st fn' hnext
    · rw [if_neg hroot, fatGetDataBlock_of_not_root st hclus hroot]
      by_cases hlegible : Legible v st fn.currentClus
      · have hseen := blockOf_nextClus v.fsb.fatType (placeBytes v st fn.currentClus)
          fn.currentClus
        rw [doFatGetDataBlock_of_legible hclus hlegible, map_some, bind_some,
          map_cons_eq_some, ← hseen]
        simp only [hlegible, true_and]
        exact and_congr_right fun hnext => ih hrest _ _ hnext
      · simp only [hlegible, false_and, iff_false]
        intro hblocks
        obtain ⟨⟨block, st', fn'⟩, hcall, hothers⟩ := bind_eq_some_iff.mp hblocks
        obtain ⟨⟨st'', fn''⟩, hdo, hresult⟩ := map_eq_some_iff.mp hcall
        obtain rfl : fn'' = fn := doFatGetDataBlock_of_not_legible hlegible _ hdo
        -- The call returns its own cluster again, which is not on the chain a second time.
        have hstay : block = fn''.currentClus := by
          rw [← v.blockOf_of_le hclus le_rfl]
          exact (congrArg Prod.fst hresult).symm
        obtain ⟨hnext, -⟩ := map_cons_eq_some.mp hothers
        rw [hstay] at hnext
        cases rest with
        | nil => exact hzero hnext
        | cons clus' rest =>
          have heq : fn''.currentClus = clus' := hnext
          exact (nodup_cons.mp hnodup).1 (heq ▸ mem_cons_self)

/-- From the start of a file, the calls return its chain and then `0` exactly when the cursor
follows the chain. -/
theorem fileBlocks_iff (hchain : Chain v.next fn.first chain) (st : FatBuffer) :
    fileBlocks v chain.length st fn = some (chain ++ [0]) ↔ Followed v st chain := by
  have hblock : blockOf v.fsb.fatType fn.firstClus = chain.headD 0 := by
    unfold FatFnode.first at hchain
    cases chain with
    | nil =>
      have hnone : (if fn.firstClus = 0 then none else some fn.firstClus) = none := hchain
      have hzero : fn.firstClus = 0 := by
        by_contra h
        simp [h] at hnone
      rw [hzero, headD_nil, blockOf, if_neg (by split_ifs <;> omega)]
    | cons clus rest =>
      obtain ⟨hfirst, next, hnext, -⟩ := hchain
      have hclus := isClus_of_next hnext
      have heq : fn.firstClus = clus := by
        by_cases h : fn.firstClus = 0
        · simp [h] at hfirst
        · simpa [h] using hfirst
      rw [heq, headD_cons, v.blockOf_of_le hclus le_rfl]
  simp only [fileBlocks, fatGetDataBlock, bind_some]
  rw [map_cons_eq_some, nextBlocks_iff hchain st _ hblock]
  exact and_iff_right hblock

/-- The front of the buffer has the sectors from its base on. -/
def Consistent (v : Volume) (st : FatBuffer) : Prop :=
  st.bufSectorBase ≠ 0 → ∀ a < 4096 / v.fsb.bytsPerSec * 512,
    st.buf a = v.image (st.bufSectorBase * 512 + a)

/-- The sector of an entry is not looked for behind the first sector of the buffer, along a
chain. -/
def Spaced (fsb : FatSuperBlock) : ℕ → List ℕ → Prop
  | _, [] => True
  | base, clus :: rest =>
    (base = 0 ∨ (clusInFat fsb clus).1 ≤ base ∨ base + fsb.secPerClus ≤ (clusInFat fsb clus).1) ∧
      Spaced fsb (clusInFat fsb clus).1 rest

/-- The entries of a chain are found at their places: the sectors are those of the device, the
mutex is free, the buffer is consistent, no cluster is taken for one of the root directory, and
the entries are spaced. -/
structure Undisturbed (v : Volume) (st : FatBuffer) (chain : List ℕ) : Prop where
  bytsPerSec_eq : v.fsb.bytsPerSec = 512
  free : st.locked = false
  consistent : Consistent v st
  not_root : v.fsb.fatType ≠ .fat32 → ∀ clus ∈ chain, clus ≤ v.fsb.rootLimit
  spaced : Spaced v.fsb st.bufSectorBase chain

/-- The first entry of the chain is found at its place, and the buffer stays consistent. -/
theorem Undisturbed.place_eq (h : Undisturbed v st (clus :: rest)) :
    (place v st clus).2 = (clusInFat v.fsb clus).2 ∧
      (place v st clus).1.bufSectorBase = (clusInFat v.fsb clus).1 ∧
      (place v st clus).1.locked = false ∧ Consistent v (place v st clus).1 := by
  simp only [place]
  by_cases hk : sectorInFatBuffer v.fsb st.bufSectorBase (clusInFat v.fsb clus).1
      (clusInFat v.fsb clus).2 = 0
  · rw [if_pos hk]
    exact ⟨rfl, rfl, rfl, fun _ a ha => if_pos ha⟩
  · rw [if_neg hk]
    unfold sectorInFatBuffer at hk ⊢
    have hbase : st.bufSectorBase ≠ 0 := fun h => hk (if_pos h)
    rw [if_neg hbase] at hk ⊢
    have hin : st.bufSectorBase ≤ (clusInFat v.fsb clus).1 ∧
        (clusInFat v.fsb clus).1 < st.bufSectorBase + v.fsb.secPerClus := by
      by_contra h
      exact hk (if_neg h)
    have heq : (clusInFat v.fsb clus).1 = st.bufSectorBase := by
      have hspaced := h.spaced.1
      omega
    rw [if_pos hin, heq, Nat.sub_self, Nat.zero_mul, Nat.zero_div, Nat.zero_add]
    exact ⟨rfl, rfl, h.free, h.consistent⟩

theorem Volume.clusInFat_eq (v : Volume) (hclus : v.fsb.IsClus clus) :
    clusInFat v.fsb clus =
      (v.fsb.resSecCnt + v.fsb.fatType.entryOffset clus / v.fsb.bytsPerSec,
        v.fsb.fatType.entryOffset clus % v.fsb.bytsPerSec) := by
  have hcount := v.clusCount_le
  obtain ⟨-, hle⟩ := hclus
  have hoffset : (if v.fsb.fatType = .fat12 then clus + clus / 2 else v.fsb.fatOffset * clus) %
      2 ^ 32 = v.fsb.fatType.entryOffset clus := by
    unfold FatSuperBlock.fatOffset
    cases v.fsb.fatType <;> simp [FatType.entryOffset] <;> omega
  simp only [clusInFat, hoffset]

theorem blockSeen_congr (type : FatType) (clus : ℕ) {bytes bytes' : ℕ → UInt8}
    (h : ∀ a < 4, bytes a = bytes' a) : blockSeen type clus bytes = blockSeen type clus bytes' := by
  unfold blockSeen le32 le16
  rw [h 0 (by decide), h 1 (by decide), h 2 (by decide), h 3 (by decide)]

theorem Undisturbed.placeBytes_eq (h : Undisturbed v st (clus :: rest))
    (hclus : v.fsb.IsClus clus) {a : ℕ} (ha : a < 4) :
    placeBytes v st clus a = v.entryBytes clus a := by
  obtain ⟨hoffset, hbase, -, hplace⟩ := h.place_eq
  have hbytes := h.bytsPerSec_eq
  have hpos := v.resSecCnt_pos
  rw [v.clusInFat_eq hclus, hbytes] at hoffset hbase
  have hfront : (place v st clus).2 + a < 4096 / v.fsb.bytsPerSec * 512 := by
    rw [hoffset, hbytes]
    omega
  have haddr : (v.fsb.resSecCnt + v.fsb.fatType.entryOffset clus / 512) * 512 +
      (v.fsb.fatType.entryOffset clus % 512 + a) =
        v.fsb.resSecCnt * 512 + v.fsb.fatType.entryOffset clus + a := by
    omega
  unfold placeBytes Volume.entryBytes
  rw [hplace (by rw [hbase]; omega) _ hfront, hbase, hoffset, hbytes, haddr]

theorem Undisturbed.legible (h : Undisturbed v st (clus :: rest)) (hclus : v.fsb.IsClus clus) :
    Legible v st clus := by
  refine ⟨h.free, fun hlast => ?_⟩
  have hoffset := h.place_eq.1
  have hsmall : (clusInFat v.fsb clus).2 < 512 := by
    rw [v.clusInFat_eq hclus, h.bytsPerSec_eq]
    exact Nat.mod_lt _ (by decide)
  have hused : (place v st clus).2 = sectorInFatBuffer v.fsb st.bufSectorBase
      (clusInFat v.fsb clus).1 (clusInFat v.fsb clus).2 := by
    simp only [place]
    rw [if_neg (by rw [hlast.2]; decide)]
  rw [← hoffset, hused, hlast.2] at hsmall
  exact absurd hsmall (by decide)

/-- The cursor sees the marks of a chain in its own entries. -/
def Sees (v : Volume) : List ℕ → Prop
  | [] => True
  | clus :: rest =>
    blockSeen v.fsb.fatType clus (v.entryBytes clus) = rest.headD 0 ∧ Sees v rest

/-- An undisturbed cursor follows a chain exactly when it sees the marks. -/
theorem Undisturbed.followed_iff (hchain : Chain v.next link chain) (h : Undisturbed v st chain) :
    Followed v st chain ↔ Sees v chain := by
  induction chain generalizing link st with
  | nil => simp [Followed, Sees]
  | cons clus rest ih =>
    obtain ⟨-, next, hnext, hrest⟩ := hchain
    have hclus := isClus_of_next hnext
    obtain ⟨-, hbase, hfree, hconsistent⟩ := h.place_eq
    have hnot : ¬ (v.fsb.fatType ≠ .fat32 ∧ v.fsb.rootLimit < clus) := fun hin =>
      absurd (h.not_root hin.1 clus mem_cons_self) (not_le.mpr hin.2)
    have hseen := blockSeen_congr v.fsb.fatType clus fun a ha => h.placeBytes_eq hclus ha
    have hundisturbed : Undisturbed v (place v st clus).1 rest :=
      ⟨h.bytsPerSec_eq, hfree, hconsistent,
        fun hfat c hc => h.not_root hfat c (mem_cons_of_mem clus hc), hbase ▸ h.spaced.2⟩
    simp only [Followed, Sees]
    rw [if_neg hnot, hseen, ih hrest hundisturbed]
    exact and_iff_right (h.legible hclus)

theorem head_of_chain (hchain : Chain v.next link chain) : link = chain.head? := by
  cases chain with
  | nil => exact hchain
  | cons clus rest => exact hchain.1

theorem sees_of_fat16 (hfat : v.fsb.fatType = .fat16) (hchain : Chain v.next link chain) :
    Sees v chain := by
  induction chain generalizing link with
  | nil => trivial
  | cons clus rest ih =>
    obtain ⟨-, next, hnext, hrest⟩ := hchain
    refine ⟨?_, ih hrest⟩
    have hlink := head_of_chain hrest
    simp only [Volume.next, isClus_of_next hnext, if_true, hfat, FatType.endMark, FatType.value,
      some.injEq] at hnext
    simp only [hfat, blockSeen]
    by_cases hend : 0xfff8 ≤ le16 (v.entryBytes clus)
    · rw [if_pos hend, hlink] at hnext
      rw [if_neg (by omega), headD_eq_head?_getD, ← hnext, getD_none]
    · rw [if_neg hend, hlink] at hnext
      rw [if_pos (by omega), headD_eq_head?_getD, ← hnext, getD_some]

theorem not_sees_of_fat32 (hfat : v.fsb.fatType = .fat32) (hchain : Chain v.next link chain)
    (hne : chain ≠ []) : ¬ Sees v chain := by
  induction chain generalizing link with
  | nil => exact absurd rfl hne
  | cons clus rest ih =>
    obtain ⟨-, next, hnext, hrest⟩ := hchain
    rintro ⟨hseen, hlater⟩
    cases rest with
    | cons clus' rest => exact ih hrest (cons_ne_nil _ _) hlater
    | nil =>
      obtain rfl : next = none := hrest
      simp only [Volume.next, isClus_of_next hnext, if_true, hfat, FatType.endMark, FatType.value,
        some.injEq] at hnext
      simp only [hfat, blockSeen, headD_nil] at hseen
      rw [hseen] at hnext
      simp at hnext

/-- From the start of a file, the calls return its chain and then `0` exactly when the cursor
follows the chain. An undisturbed cursor does exactly when it sees the marks in the entries of the
chain, which is so with 16 bits, and not with 28 bits unless the file is empty. -/
theorem fatGetDataBlock_returns_chain_iff (v : Volume) (st : FatBuffer) (fn : FatFnode)
    {chain : List ℕ} (hchain : Chain v.next fn.first chain) :
    (fileBlocks v chain.length st fn = some (chain ++ [0]) ↔ Followed v st chain) ∧
    (Undisturbed v st chain → (Followed v st chain ↔ Sees v chain)) ∧
    (Undisturbed v st chain → v.fsb.fatType = .fat16 → Followed v st chain) ∧
    (Undisturbed v st chain → v.fsb.fatType = .fat32 → chain ≠ [] → ¬ Followed v st chain) := by
  refine ⟨fileBlocks_iff hchain st, fun hst => hst.followed_iff hchain, fun hst hfat => ?_,
    fun hst hfat hne => ?_⟩
  · exact (hst.followed_iff hchain).mpr (sees_of_fat16 hfat hchain)
  · rw [hst.followed_iff hchain]
    exact not_sees_of_fat32 hfat hchain hne

/-- A volume with 512 bytes for each sector and a table behind the boot sector, which consists
of zeros up to some bytes. -/
def sampleVolume (clusCount secPerClus : ℕ) (bytes : List (ℕ × UInt8))
    (hpos : 0 < secPerClus) (hcount : 4085 ≤ clusCount ∧ clusCount ≤ 200000) : Volume where
  fsb := ⟨512, secPerClus, 1, clusCount, 32⟩
  image := fun a => (bytes.lookup (a - 512)).getD 0
  maxStart := 2044
  bytsPerSec_mem := mem_cons_self
  secPerClus_pos := hpos
  resSecCnt_pos := Nat.one_pos
  clusCount_le := by dsimp only; omega
  rootDirBlk_le := by dsimp only; omega
  onDevice := by
    rintro clus ⟨-, hle⟩
    have hfat : FatSuperBlock.fatType ⟨512, secPerClus, 1, clusCount, 32⟩ ≠ .fat12 := by
      simp only [FatSuperBlock.fatType, not_lt.mpr hcount.1, if_false]
      split_ifs <;> simp
    have hoffset : FatSuperBlock.fatOffset ⟨512, secPerClus, 1, clusCount, 32⟩ ≤ 4 := by
      unfold FatSuperBlock.fatOffset
      split_ifs <;> omega
    have hmul := Nat.mul_le_mul hoffset (hle.trans (Nat.add_le_add_right hcount.2 1))
    simp only [clusInFat, hfat, if_false]
    omega

/-- The buffer of a volume that has just been mounted. -/
def mounted : FatBuffer := ⟨0, fun _ => 0, false⟩

/-- A file that starts at cluster 2. -/
def fileAtTwo : FatFnode := ⟨2, 2, 2⟩

/-- A file with the clusters 2 and 3 on a volume with 16 bits. -/
theorem fatGetDataBlock_returns_chain_iff_sample :
    let v := sampleVolume 5000 1 [(4, 0x03), (6, 0xff), (7, 0xff)] (by decide) (by decide)
    Chain v.next fileAtTwo.first [2, 3] ∧ fileBlocks v 2 mounted fileAtTwo = some [2, 3, 0] := by
  intro v
  have hchain : Chain v.next fileAtTwo.first [2, 3] :=
    ⟨by decide +kernel, some 3, by decide +kernel, rfl, none, by decide +kernel, rfl⟩
  obtain ⟨hiff, -, hright, -⟩ := fatGetDataBlock_returns_chain_iff v mounted fileAtTwo hchain
  refine ⟨hchain, hiff.mpr (hright ?_ (by decide +kernel))⟩
  exact {
    bytsPerSec_eq := rfl
    free := rfl
    consistent := fun h => absurd rfl h
    not_root := by decide +kernel
    spaced := by
      refine ⟨.inl rfl, .inr (.inl ?_), trivial⟩
      decide +kernel }

/-- With 28 bits the mark for the end is returned as a block. With 16 bits and clusters of eight
sectors, the entry of cluster 300 is looked up in front of its place, where the file seems to
end. -/
theorem cursor_leaves_chain :
    let v := sampleVolume 70000 1 [(8, 0xff), (9, 0xff), (10, 0xff), (11, 0x0f)] (by decide)
      (by decide)
    let w := sampleVolume 5000 8 [(4, 0x2c), (5, 0x01), (600, 0x2d), (601, 0x01), (602, 0xff),
      (603, 0xff)] (by decide) (by decide)
    (Chain v.next fileAtTwo.first [2] ∧ fileBlocks v 1 mounted fileAtTwo = some [2, 0x0fffffff]) ∧
    (Chain w.next fileAtTwo.first [2, 300, 301] ∧
      fileBlocks w 3 mounted fileAtTwo = some [2, 300, 0, 0]) := by
  intro v w
  refine ⟨⟨⟨by decide +kernel, none, by decide +kernel, rfl⟩, by decide +kernel⟩,
    ⟨by decide +kernel, some 300, by decide +kernel, rfl, some 301, by decide +kernel, rfl, none,
      by decide +kernel, rfl⟩, by decide +kernel⟩

end Chunos.Fat
