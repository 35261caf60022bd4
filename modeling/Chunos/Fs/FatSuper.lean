import Chunos.Fs.Fat

/-!
# The geometry of a FAT volume

`fill_fat_super` computes the geometry from the boot sector, and `get_first_sector` the place of a
cluster from the geometry. The size of the table and the start of the root directory are kept in 16
bits, and the size of a long table is read from characters, which are signed. The clusters of the
root directory are counted downwards, and its sectors are found in front of its start.
-/

namespace Chunos.Fat

/-- `u8_to_u32` of four characters. -/
def u8ToU32 (u1 u2 u3 u4 : UInt8) : ℕ :=
  ((u4.toBitVec.signExtend 32 <<< 24) ||| (u3.toBitVec.signExtend 32 <<< 16) |||
    (u2.toBitVec.signExtend 32 <<< 8) ||| u1.toBitVec.signExtend 32).toNat

/-- A field of 16 bits of the boot sector. -/
def u16At (tmp : ℕ → UInt8) (a : ℕ) : ℕ := le16 fun i => tmp (a + i)

/-- A field of 32 bits of the boot sector. -/
def u32At (tmp : ℕ → UInt8) (a : ℕ) : ℕ := le32 fun i => tmp (a + i)

/-- `total_sec`, as `get_fat_type` sets it. -/
def totalSec (tmp : ℕ → UInt8) : ℕ := if u16At tmp 19 ≠ 0 then u16At tmp 19 else u32At tmp 32

/-- `root_dir_sectors`. -/
def rootDirSectors (tmp : ℕ → UInt8) : ℕ :=
  (u16At tmp 17 * 32 + (u16At tmp 11 - 1)) / u16At tmp 11

/-- `struct fat_super_block`, with the fields for the places of clusters. -/
structure Geometry extends FatSuperBlock where
  fatSize : ℕ
  rootDirStartSector : ℕ
  firstDataSector : ℕ
deriving DecidableEq

/-- The variable `fat_size` of `get_fat_type`, which has 32 bits. -/
def fatSize (tmp : ℕ → UInt8) : ℕ :=
  if u16At tmp 22 ≠ 0 then u16At tmp 22 else u8ToU32 (tmp 36) (tmp 37) (tmp 38) (tmp 39)

/-- The fields of the geometry that `fill_fat_super` and `get_fat_type` set. -/
def geometry (tmp : ℕ → UInt8) : Geometry where
  bytsPerSec := u16At tmp 11
  secPerClus := (tmp 13).toNat
  resSecCnt := u16At tmp 14
  clusCount := (totalSec tmp + 2 ^ 32 - (u16At tmp 14 + (tmp 16).toNat * fatSize tmp +
    rootDirSectors tmp) % 2 ^ 32) % 2 ^ 32 / (tmp 13).toNat
  fat1216RootDirBlk :=
    (rootDirSectors tmp + ((tmp 13).toNat - 1)) / (tmp 13).toNat % 2 ^ 16
  fatSize := fatSize tmp % 2 ^ 16
  rootDirStartSector := (u16At tmp 14 + (tmp 16).toNat * fatSize tmp) % 2 ^ 16
  firstDataSector := u16At tmp 14 + (tmp 16).toNat * (fatSize tmp % 2 ^ 16) + rootDirSectors tmp

/-- `fill_fat_super`. It is `none` for `-EINVAL`. -/
def fillFatSuper (tmp : ℕ → UInt8) : Option Geometry :=
  if tmp 510 ≠ 0x55 ∨ tmp 511 ≠ 0xaa then none else some (geometry tmp)

/-- The size of a table by the specification. -/
def specFatSize (tmp : ℕ → UInt8) : ℕ := if u16At tmp 22 ≠ 0 then u16At tmp 22 else u32At tmp 36

/-- The start of the root directory by the specification. -/
def specRootDirStart (tmp : ℕ → UInt8) : ℕ := u16At tmp 14 + (tmp 16).toNat * specFatSize tmp

/-- A boot sector of a FAT volume, whose sectors suffice for the tables and the directory. -/
structure ValidBpb (tmp : ℕ → UInt8) : Prop where
  low : tmp 510 = 0x55
  high : tmp 511 = 0xaa
  bytsPerSec_pos : 0 < u16At tmp 11
  secPerClus_pos : 0 < (tmp 13).toNat
  used_le : specRootDirStart tmp + rootDirSectors tmp ≤ totalSec tmp

/-- The formulas of the specification. -/
structure MeetsSpec (tmp : ℕ → UInt8) (fsb : Geometry) : Prop where
  fatSize : fsb.fatSize = specFatSize tmp
  rootDirStart : fsb.rootDirStartSector = specRootDirStart tmp
  firstData : fsb.firstDataSector = specRootDirStart tmp + rootDirSectors tmp
  clusCount : fsb.clusCount =
    (totalSec tmp - (specRootDirStart tmp + rootDirSectors tmp)) / (tmp 13).toNat
  fatType : fsb.fatType = if fsb.clusCount < 4085 then .fat12
    else if fsb.clusCount < 65525 then .fat16 else .fat32

theorem u8ToU32_zero (low high : UInt8) : u8ToU32 low high 0 0 = u8ToU16 low high := by
  simp [u8ToU32, u8ToU16]

theorem lt_add_of_div_eq {a b s : ℕ} (hs : 0 < s) (h : a / s = b / s) : a < b + s := by
  have ha := Nat.div_add_mod a s
  have hb := Nat.div_add_mod b s
  have hlt := Nat.mod_lt a hs
  rw [h] at ha
  omega

variable {tmp : ℕ → UInt8}

theorem le16_lt (bytes : ℕ → UInt8) : le16 bytes < 2 ^ 16 := by
  have h0 := (bytes 0).toNat_lt
  have h1 := (bytes 1).toNat_lt
  unfold le16
  omega

theorem totalSec_lt (tmp : ℕ → UInt8) : totalSec tmp < 2 ^ 32 := by
  have hlong : ∀ bytes : ℕ → UInt8, le32 bytes < 2 ^ 32 := by
    intro bytes
    have hlow := le16_lt bytes
    have h2 := (bytes 2).toNat_lt
    have h3 := (bytes 3).toNat_lt
    unfold le32
    omega
  unfold totalSec
  split_ifs
  · exact (le16_lt _).trans (by decide)
  · exact hlong _

theorem eq_zero_of_div_eq {total used num clus : ℕ} (hused : used ≤ total) (htotal : total < 2 ^ 32)
    (hnum : num < 256) (hpos : 0 < clus) (hclus : clus < 256)
    (h : (total + 2 ^ 32 - (used + num * 0xffff0000) % 2 ^ 32) % 2 ^ 32 / clus =
      (total - used) / clus) : num = 0 := by
  have hfar := lt_add_of_div_eq hpos h
  have hnear := lt_add_of_div_eq hpos h.symm
  have hmod : (used + num * 0xffff0000) % 2 ^ 32 =
      (used + (2 ^ 32 - num * 0x10000)) % 2 ^ 32 := by
    omega
  omega

/-- A long table whose size has 16 bits has it in the first two of four characters. -/
theorem fatSize_short (h : specFatSize tmp < 2 ^ 16) :
    u16At tmp 22 ≠ 0 ∧ fatSize tmp = specFatSize tmp ∨
      u16At tmp 22 = 0 ∧ specFatSize tmp = (tmp 36).toNat + (tmp 37).toNat * 2 ^ 8 ∧
        fatSize tmp = u8ToU16 (tmp 36) (tmp 37) := by
  unfold fatSize specFatSize at *
  split_ifs at h ⊢ with hshort
  · exact .inl ⟨hshort, rfl⟩
  · simp only [u32At, le32, le16, Nat.add_zero, Nat.reduceAdd] at h ⊢
    have h38 : (tmp 38).toNat = 0 := by omega
    have h39 : (tmp 39).toNat = 0 := by omega
    refine .inr ⟨not_not.mp hshort, by omega, ?_⟩
    rw [UInt8.toNat_inj.mp (h38.trans UInt8.toNat_zero.symm),
      UInt8.toNat_inj.mp (h39.trans UInt8.toNat_zero.symm), u8ToU32_zero]

/-- The geometry of a valid boot sector, in terms of `fat_size`. -/
theorem geometry_meets_iff (h : ValidBpb tmp) :
    MeetsSpec tmp (geometry tmp) ↔ specRootDirStart tmp < 2 ^ 16 ∧
      fatSize tmp % 2 ^ 16 = specFatSize tmp ∧
        (fatSize tmp = specFatSize tmp ∨ (tmp 16).toNat = 0) := by
  constructor
  · rintro ⟨hsize, hroot, -, hcount, -⟩
    have hstart : specRootDirStart tmp < 2 ^ 16 := hroot ▸ Nat.mod_lt _ (by decide)
    replace hsize : fatSize tmp % 2 ^ 16 = specFatSize tmp := hsize
    have hshort := fatSize_short (show specFatSize tmp < 2 ^ 16 by omega)
    have hcases := u8ToU16_cases (tmp 36) (tmp 37)
    have hlocal : fatSize tmp = specFatSize tmp ∨
        fatSize tmp = specFatSize tmp + 0xffff0000 := by
      have hlow := (tmp 36).toNat_lt
      omega
    refine ⟨hstart, hsize, hlocal.imp_right fun hlocal => ?_⟩
    have hsum : u16At tmp 14 + (tmp 16).toNat * fatSize tmp + rootDirSectors tmp =
        specRootDirStart tmp + rootDirSectors tmp + (tmp 16).toNat * 0xffff0000 := by
      rw [hlocal, specRootDirStart]
      ring
    simp only [geometry, hsum] at hcount
    exact eq_zero_of_div_eq h.used_le (totalSec_lt tmp) (tmp 16).toNat_lt h.secPerClus_pos
      (tmp 13).toNat_lt hcount
  · rintro ⟨hstart, hsize, hlocal⟩
    have hroot : u16At tmp 14 + (tmp 16).toNat * fatSize tmp = specRootDirStart tmp := by
      obtain hlocal | hzero := hlocal
      · rw [hlocal, specRootDirStart]
      · rw [specRootDirStart, hzero, Nat.zero_mul, Nat.zero_mul]
    have hused := h.used_le
    have htotal := totalSec_lt tmp
    refine ⟨hsize, ?_, ?_, ?_, rfl⟩
    · simp only [geometry, hroot, Nat.mod_eq_of_lt hstart]
    · simp only [geometry, hsize, specRootDirStart]
    · simp only [geometry, hroot]
      congr 1
      omega

/-- For every valid boot sector, the geometry is that of the specification if and only if the size
of a table and the start of the root directory have 16 bits, and the size of a long table is read
from characters that are not negative, or there is no table that would make a difference. -/
theorem fillFatSuper_meets_iff (h : ValidBpb tmp) :
    (∃ fsb, fillFatSuper tmp = some fsb ∧ MeetsSpec tmp fsb) ↔
      specFatSize tmp < 2 ^ 16 ∧ specRootDirStart tmp < 2 ^ 16 ∧
        (u16At tmp 22 ≠ 0 ∨ (tmp 36).toNat < 128 ∧ (tmp 37).toNat < 128 ∨
          (tmp 16).toNat = 0 ∧ ((tmp 36).toNat < 128 ∨ (tmp 37).toNat = 255)) := by
  have hfill : fillFatSuper tmp = some (geometry tmp) := by simp [fillFatSuper, h.low, h.high]
  have hlow := (tmp 36).toNat_lt
  have hsecond := (tmp 37).toNat_lt
  have hcases := u8ToU16_cases (tmp 36) (tmp 37)
  simp only [hfill, Option.some.injEq, exists_eq_left', geometry_meets_iff h]
  refine ⟨fun ⟨hstart, hsize, hlocal⟩ => ?_, fun ⟨hsize, hstart, hbytes⟩ => ?_⟩
  · have hshort := fatSize_short (show specFatSize tmp < 2 ^ 16 by omega)
    omega
  · have hshort := fatSize_short hsize
    omega

/-- The boot sector of a volume with two tables of `size` sectors and 512 entries in the root
directory. -/
def bootSector (secPerClus size : UInt8) (a : ℕ) : UInt8 :=
  ([(12, 2), (13, secPerClus), (14, 32), (16, 2), (18, 2), (33, 0x20), (34, 1), (36, size),
    (510, 0x55), (511, 0xaa)].lookup a).getD 0

/-- Tables of 100 sectors are read as such. -/
theorem fillFatSuper_meets_iff_bootSector :
    ∃ fsb, fillFatSuper (bootSector 1 100) = some fsb ∧ MeetsSpec (bootSector 1 100) fsb :=
  (fillFatSuper_meets_iff ⟨rfl, rfl, by decide, by decide, by decide⟩).mpr (by decide)

/-- The sign of tables with 144 sectors is extended: the field has 65424 sectors. -/
theorem fillFatSuper_extends_sign :
    ValidBpb (bootSector 1 0x90) ∧ specFatSize (bootSector 1 0x90) = 144 ∧
      ∃ fsb, fillFatSuper (bootSector 1 0x90) = some fsb ∧ fsb.fatSize = 65424 :=
  ⟨⟨rfl, rfl, by decide, by decide, by decide⟩, by decide, by decide +kernel⟩

/-! ## The sectors of a cluster -/

/-- The last cluster number that `get_first_sector` takes for one of the data area. -/
def Geometry.lastClus (fsb : Geometry) : ℕ := (0xfff7 + 2 ^ 32 - fsb.fat1216RootDirBlk) % 2 ^ 32

/-- `get_first_sector`. -/
def getFirstSector (fsb : Geometry) (clus : ℕ) : ℕ :=
  if clus > fsb.lastClus then
    (fsb.rootDirStartSector + (clus + 2 ^ 32 - 0xfff7) * fsb.secPerClus) % 2 ^ 32
  else ((clus + 2 ^ 32 - 2) * fsb.secPerClus + fsb.firstDataSector) % 2 ^ 32

/-- The number `clus` is that of block `k` of the root directory. -/
def Geometry.IsRoot (fsb : Geometry) (k clus : ℕ) : Prop :=
  fsb.fatType ≠ .fat32 ∧ k < fsb.fat1216RootDirBlk ∧ clus = 0xfff7 - k

/-- What is expected of `get_first_sector`: the places of the clusters of the data area and of the
blocks of the root directory, and that no two of them share sectors. -/
structure PlacesClusters (fsb : Geometry) : Prop where
  data : ∀ clus, fsb.IsClus clus →
    getFirstSector fsb clus = fsb.firstDataSector + (clus - 2) * fsb.secPerClus
  root : ∀ k clus, fsb.IsRoot k clus →
    getFirstSector fsb clus = fsb.rootDirStartSector + k * fsb.secPerClus
  apart : ∀ clus clus', clus < clus' →
    (fsb.IsClus clus ∨ ∃ k, fsb.IsRoot k clus) → (fsb.IsClus clus' ∨ ∃ k, fsb.IsRoot k clus') →
      getFirstSector fsb clus + fsb.secPerClus ≤ getFirstSector fsb clus' ∨
        getFirstSector fsb clus' + fsb.secPerClus ≤ getFirstSector fsb clus

/-- The bounds of a geometry: the data area is behind the start of the root directory. -/
structure Geometry.Bounded (fsb : Geometry) : Prop where
  root_le : fsb.rootDirStartSector ≤ fsb.firstDataSector
  data_lt : fsb.firstDataSector < 2 ^ 25
  clus_pos : 0 < fsb.secPerClus
  clus_lt : fsb.secPerClus < 256
  blk_lt : fsb.fat1216RootDirBlk < 2 ^ 16

variable {fsb : Geometry} {clus : ℕ}

/-- A geometry that `fill_fat_super` computes is bounded. -/
theorem bounded_of_fill (hfill : fillFatSuper tmp = some fsb) (hpos : 0 < fsb.secPerClus) :
    fsb.Bounded := by
  obtain rfl : geometry tmp = fsb := by
    unfold fillFatSuper at hfill
    split_ifs at hfill
    exact Option.some.inj hfill
  have hroot : (geometry tmp).rootDirStartSector =
      (u16At tmp 14 + (tmp 16).toNat * (fatSize tmp % 2 ^ 16)) % 2 ^ 16 := by
    simp [geometry, Nat.add_mod, Nat.mul_mod]
  have hsectors : rootDirSectors tmp ≤ u16At tmp 17 * 32 + (u16At tmp 11 - 1) :=
    Nat.div_le_self _ _
  have htables : (tmp 16).toNat * (fatSize tmp % 2 ^ 16) ≤ 255 * 2 ^ 16 :=
    Nat.mul_le_mul (Nat.le_of_lt_succ (tmp 16).toNat_lt) (Nat.mod_lt _ (by decide)).le
  have h11 : u16At tmp 11 < 2 ^ 16 := le16_lt _
  have h14 : u16At tmp 14 < 2 ^ 16 := le16_lt _
  have h17 : u16At tmp 17 < 2 ^ 16 := le16_lt _
  have hdata : (geometry tmp).firstDataSector =
    u16At tmp 14 + (tmp 16).toNat * (fatSize tmp % 2 ^ 16) + rootDirSectors tmp := rfl
  exact ⟨by omega, by omega, hpos, (tmp 13).toNat_lt, Nat.mod_lt _ (by decide)⟩

/-- A cluster is found at its place in the data area when it is not taken for one of the root
directory, and the place has 32 bits. -/
theorem Geometry.Bounded.data_iff (h : fsb.Bounded) (hclus : 2 ≤ clus) :
    getFirstSector fsb clus = fsb.firstDataSector + (clus - 2) * fsb.secPerClus ↔
      clus ≤ fsb.lastClus ∧ fsb.firstDataSector + (clus - 2) * fsb.secPerClus < 2 ^ 32 := by
  obtain ⟨hroot, hdata, hpos, hsec, -⟩ := h
  obtain ⟨k, rfl⟩ := Nat.exists_eq_add_of_le hclus
  unfold getFirstSector
  generalize fsb.secPerClus = sec, fsb.firstDataSector = data, fsb.rootDirStartSector = root at *
  split_ifs with hlast
  · have hback : 2 + k + 2 ^ 32 - 0xfff7 = k + 0xffff000b := by omega
    have hdiv := Nat.div_add_mod (root + (k * sec + 0xffff000b * sec)) (2 ^ 32)
    rw [hback, Nat.add_mul, Nat.add_sub_cancel_left]
    rcases lt_or_ge ((root + (k * sec + 0xffff000b * sec)) / 2 ^ 32) sec with hq | hq
    · omega
    · omega
  · have hfront : 2 + k + 2 ^ 32 - 2 = k + 2 ^ 32 := by omega
    rw [hfront, Nat.add_mul, Nat.add_sub_cancel_left]
    omega

/-- The blocks of the root directory are found at their places when there is at most one. -/
theorem Geometry.Bounded.root_iff (h : fsb.Bounded) :
    (∀ k < fsb.fat1216RootDirBlk, getFirstSector fsb (0xfff7 - k) =
      fsb.rootDirStartSector + k * fsb.secPerClus) ↔ fsb.fat1216RootDirBlk ≤ 1 := by
  have ⟨hroot, hdata, hpos, hsec, hblk⟩ := h
  constructor
  · intro hall
    by_contra hmany
    have hsecond := hall 1 (by omega)
    by_cases hlast : 0xfff7 - 1 ≤ fsb.lastClus
    · rw [(h.data_iff (by decide)).mpr ⟨hlast, by omega⟩] at hsecond
      omega
    · rw [getFirstSector, if_pos (not_le.mp hlast)] at hsecond
      omega
  · intro hone k hk
    obtain rfl : k = 0 := by omega
    rw [getFirstSector, if_pos (by unfold Geometry.lastClus; omega)]
    omega

/-- For every geometry that `fill_fat_super` accepts, `get_first_sector` does what is expected if
and only if the numbers of the clusters stay below those of the root directory and their sectors
have 32 bits, and on a volume with 12 or 16 bits the root directory has at most one block, which
ends in front of the data area. -/
theorem getFirstSector_places_iff (hfill : fillFatSuper tmp = some fsb)
    (hpos : 0 < fsb.secPerClus) :
    PlacesClusters fsb ↔
      (fsb.clusCount = 0 ∨ fsb.clusCount + 1 ≤ fsb.lastClus ∧
        fsb.firstDataSector + (fsb.clusCount - 1) * fsb.secPerClus < 2 ^ 32) ∧
      (fsb.fatType = .fat32 ∨ fsb.fat1216RootDirBlk = 0 ∨ fsb.fat1216RootDirBlk = 1 ∧
        (fsb.clusCount = 0 ∨ fsb.rootDirStartSector + fsb.secPerClus ≤ fsb.firstDataSector)) := by
  have hbounds := bounded_of_fill hfill hpos
  have hle := hbounds.root_le
  constructor
  · intro h
    have hblk (hfat : fsb.fatType ≠ .fat32) :=
      hbounds.root_iff.mp fun k hk => h.root k _ ⟨hfat, hk, rfl⟩
    constructor
    · refine or_iff_not_imp_left.mpr fun hcount => ?_
      exact (hbounds.data_iff (by omega)).mp (h.data (fsb.clusCount + 1) ⟨by omega, le_rfl⟩)
    · refine or_iff_not_imp_left.mpr fun hfat => ?_
      have hone := hblk hfat
      refine or_iff_not_imp_left.mpr fun hzero => ⟨by omega, ?_⟩
      refine or_iff_not_imp_left.mpr fun hcount => ?_
      have hclus : fsb.IsClus 2 := ⟨le_rfl, by omega⟩
      have hroot : fsb.IsRoot 0 0xfff7 := ⟨hfat, by omega, rfl⟩
      have hapart := h.apart 2 0xfff7 (by decide) (.inl hclus) (.inr ⟨0, hroot⟩)
      rw [h.data 2 hclus, h.root 0 _ hroot] at hapart
      omega
  · rintro ⟨hcount, hblk⟩
    have hdata : ∀ clus, fsb.IsClus clus →
        getFirstSector fsb clus = fsb.firstDataSector + (clus - 2) * fsb.secPerClus := by
      rintro clus ⟨hlow, hhigh⟩
      have hmul : (clus - 2) * fsb.secPerClus ≤ (fsb.clusCount - 1) * fsb.secPerClus :=
        Nat.mul_le_mul_right _ (by omega)
      exact (hbounds.data_iff hlow).mpr ⟨by omega, by omega⟩
    have hroot : ∀ k clus, fsb.IsRoot k clus → k = 0 ∧ clus = 0xfff7 ∧
        getFirstSector fsb clus = fsb.rootDirStartSector ∧ (fsb.clusCount = 0 ∨
          fsb.rootDirStartSector + fsb.secPerClus ≤ fsb.firstDataSector) := by
      rintro k clus ⟨hfat, hk, rfl⟩
      replace hblk := hblk.resolve_left hfat
      have hplace := hbounds.root_iff.mpr (by omega) k hk
      obtain rfl : k = 0 := by omega
      exact ⟨rfl, rfl, by omega, by omega⟩
    refine ⟨hdata, fun k clus hclus => ?_, ?_⟩
    · obtain ⟨rfl, -, hplace, -⟩ := hroot k clus hclus
      omega
    · rintro clus clus' hlt (hclus | ⟨k, hclus⟩) (hclus' | ⟨k', hclus'⟩)
      · rw [hdata clus hclus, hdata clus' hclus']
        have hmul : (clus - 2 + 1) * fsb.secPerClus ≤ (clus' - 2) * fsb.secPerClus :=
          Nat.mul_le_mul_right _ (by have := hclus.1; omega)
        rw [Nat.succ_mul] at hmul
        omega
      · obtain ⟨-, -, hplace, hfree⟩ := hroot k' clus' hclus'
        rw [hdata clus hclus, hplace]
        obtain ⟨hlow, hhigh⟩ := hclus
        omega
      · obtain ⟨-, -, hplace, hfree⟩ := hroot k clus hclus
        rw [hdata clus' hclus', hplace]
        obtain ⟨hlow, hhigh⟩ := hclus'
        omega
      · obtain ⟨-, heq, -⟩ := hroot k clus hclus
        obtain ⟨-, heq', -⟩ := hroot k' clus' hclus'
        omega

/-- The theorem applies to a volume whose root directory has 16 blocks. -/
theorem getFirstSector_places_iff_bootSector :
    ∃ fsb, fillFatSuper (bootSector 2 100) = some fsb ∧ ¬ PlacesClusters fsb := by
  have hfill : fillFatSuper (bootSector 2 100) = some (geometry (bootSector 2 100)) := rfl
  refine ⟨_, hfill, fun h => ?_⟩
  exact absurd ((getFirstSector_places_iff hfill (by decide)).mp h) (by decide +kernel)

/-- Its root directory starts at sector 232, but the second block is looked for at sector 230. -/
theorem bootSector_secondBlock :
    ∃ fsb, fillFatSuper (bootSector 2 100) = some fsb ∧ fsb.fatType = .fat16 ∧
      fsb.fat1216RootDirBlk = 16 ∧ fsb.rootDirStartSector = 232 ∧
        getFirstSector fsb (0xfff7 - 1) = 230 := by
  decide +kernel

end Chunos.Fat
