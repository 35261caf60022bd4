import Chunos.Fs.Fat
import Chunos.Lib.Runs

/-!
# The buffer for the file allocation table

`__fat_get_data_block` uses the sectors that an earlier lookup has read when it takes the entry of
a cluster to be among them. The next cluster it finds there is compared with the one after a new
read, for all contents of the table. Behind the first sector of the buffer the offset is divided by
the size of an entry, and then they agree only when this undoes the other mistake, that the sectors
of the table are counted as if they had 512 bytes.
-/

namespace Chunos.Fat

open List Option Runs

variable {v : Volume} {st st' : FatBuffer} {fn fn' : FatFnode} {base clus : ℕ}

/-- The offset at which the entry of a cluster is looked for in a buffer with the given base,
or `0` when it is read. -/
def Volume.offsetInBuffer (v : Volume) (base clus : ℕ) : ℕ :=
  sectorInFatBuffer v.fsb base (clusInFat v.fsb clus).1 (clusInFat v.fsb clus).2

/-- The bytes of an entry that are looked at. -/
def FatType.width (type : FatType) : ℕ := if type = .fat32 then 4 else 2

/-- The cursor after its entry has been read into the buffer again. -/
def readAfresh (v : Volume) (st : FatBuffer) (fn : FatFnode) : FatFnode :=
  let (i, j) := clusInFat v.fsb fn.currentClus
  fn.advance v.fsb.fatType (fill v.image st.buf i (4096 / v.fsb.bytsPerSec)) j

/-- The lookup releases the mutex, and a value from the buffer is the one of a new read. -/
def LooksUp (v : Volume) (st : FatBuffer) (fn : FatFnode) : Prop :=
  ∃ st' fn', doFatGetDataBlock v st fn = some (st', fn') ∧ st'.locked = false ∧
    (v.offsetInBuffer st.bufSectorBase fn.currentClus ≠ 0 → fn' = readAfresh v st fn)

/-- The entry of a cluster can be used from a buffer with the given base: it is read from the
device, or it is in the first sector of the buffer, or its offset happens to be the right one
and all of it has been read. -/
def Usable (v : Volume) (base clus : ℕ) : Prop :=
  if v.offsetInBuffer base clus = 0 then (clusInFat v.fsb clus).1 ≤ v.maxStart
  else
    ¬ (v.fsb.fatType = .fat12 ∧ v.offsetInBuffer base clus = 4095) ∧
      (v.offsetInBuffer base clus = (clusInFat v.fsb clus).2 ∨
        base * 512 + v.offsetInBuffer base clus =
            (clusInFat v.fsb clus).1 * 512 + (clusInFat v.fsb clus).2 ∧
          v.offsetInBuffer base clus + v.fsb.fatType.width ≤ 4096 / v.fsb.bytsPerSec * 512)

section Entries

variable {type : FatType} {bytes bytes' : ℕ → UInt8}

end Entries

end Chunos.Fat
