import Chunos.Fs.File
import Chunos.Fs.VfsSeek
import Chunos.Mm.MmapFrames

/-!
# Mapping a file

With a descriptor, `task_mm_mmap` calls `fmmap` to fill the new pages with bytes of the file.
The buffer that it passes is the loop variable of the mapping loop, the address behind the
pages, so that the bytes go to whatever is mapped there. When `vfs_mmap` has to seek first, it
returns the new position without reading. That position is taken for the number of bytes, and
when the two are equal, the pages are returned with the contents that their frames had before.
-/

namespace Chunos.TaskMm

open List Option

open File (FileDesc fdToFile)
open Pgt
open Slabs (pageNr)
open Vfs

variable {σ : Type*} {ops : FilesystemOps σ} {B n : ℕ} {image : List UInt8}

/-- The byte that the task sees at an address. -/
def byteAt (mm : MmStruct) (m : Machine (ℕ → UInt8)) (va : ℕ) : Option UInt8 :=
  (translate m.frames.word mm.pageTable.pdeBase va).map fun page => m.data page (va % pageSize)

/-- Store a byte at an address. A user address has to be mapped. -/
def storeByte (mm : MmStruct) (va : ℕ) (byte : UInt8) (m : Machine (ℕ → UInt8)) :
    Option (Machine (ℕ → UInt8)) :=
  let store (data : ℕ → ℕ → UInt8) (page : ℕ) :=
    Function.update data page (Function.update (data page) (va % pageSize) byte)
  if va < kernelVirtualBase then
    (translate m.frames.word mm.pageTable.pdeBase va).map fun page =>
      { m with data := store m.data page }
  else some { m with kernelData := store m.kernelData (va / pageSize * pageSize) }

/-- `memcpy` of bytes to an address. -/
def storeBytes (mm : MmStruct) : List UInt8 → ℕ → Machine (ℕ → UInt8) → Option (Machine (ℕ → UInt8))
  | [], _, m => some m
  | byte :: bytes, va, m =>
    (storeByte mm va byte m).bind fun m => storeBytes mm bytes ((va + 1) % 2 ^ 32) m

/-- `fmmap`, with the table of open files of the task. -/
def fmmap (ops : FilesystemOps σ) (prevBlock : Bool) (fdes : FileDesc (Vfs.File σ)) (fd : ℤ)
    (size off buffer : ℕ) (mm : MmStruct) (m : Machine (ℕ → UInt8)) :
    Option (ℤ × List ℕ × Machine (ℕ → UInt8)) :=
  (fdToFile fdes fd).bind fun
    | none => some (-enoent, [], m)
    | some file =>
      (vfsMmap ops prevBlock file size off).bind fun (ret, out, _) =>
        (storeBytes mm out buffer m).map fun m =>
          (ret, (List.range out.length).map fun k => (buffer + k) % 2 ^ 32, m)

/-- The mapping shows the bytes `off` to `off + len` of the file, and all bytes that were
written are in its pages. -/
structure Filled (image : List UInt8) (off len : ℕ) (r : Mmapped (ℕ → UInt8)) : Prop where
  bytes : ∀ k < len, byteAt r.mm r.m (r.base + k) = image[off + k]?
  inside : ∀ va ∈ r.written, ∃ i : ℕ, (i : ℤ) < pageNr len ∧ va / pageSize = r.base / pageSize + i

/-- The address that a mapping is made at. -/
def mmapAddress (search : Option ℕ) (start : ℕ) : ℕ := if start = 0 then search.getD 0 else start

/-- The frames that the pages of a mapping get hold the bytes of the file already. -/
def HoldBytes (image : List UInt8) (off len base : ℕ) (mm : MmStruct)
    (m : Machine (ℕ → UInt8)) : Prop :=
  ∀ k < len, ((frameAfter m.frames mm.pageTable base (pageNr len).toNat (base + k)).map fun page =>
    m.data page ((base + k) % pageSize)) = image[off + k]?

instance (image : List UInt8) (off len base : ℕ) (mm : MmStruct) (m : Machine (ℕ → UInt8)) :
    Decidable (HoldBytes image off len base mm m) :=
  inferInstanceAs (Decidable (∀ k < len, _))

/-- A mapping with a file that returns a base: the pages have been mapped, and `fmmap` has
returned the length. -/
theorem taskMmMmap_file {β : Type*} {search : Option ℕ}
    {fill : ℕ → MmStruct → Machine β → Option (ℤ × List ℕ × Machine β)} {mm : MmStruct}
    {start : ℕ} {len fd : ℤ} {m : Machine β} {r : Mmapped β} (hfd : 0 < fd)
    (hr : taskMmMmap search fill mm start len fd m = some r) (hbase : r.base ≠ 0) :
    r.base = mmapAddress search start ∧
      ∃ ua m', mmapLoop (pageNr len).toNat r.base mm m = (some ua, r.mm, m') ∧
        fill ua r.mm m' = some (len, r.written, r.m) := by
  obtain ⟨base, hchosen, hr⟩ := bind_eq_some_iff.mp hr
  have haddress : base ≠ 0 → base = mmapAddress search start := by
    intro hne
    simp only [mmapBase, mmapAddress] at hchosen ⊢
    split_ifs at hchosen ⊢
    · rw [hchosen, getD_some]
    · obtain ⟨ret, -, heq⟩ := map_eq_some_iff.mp hchosen
      split_ifs at heq
      · exact absurd heq.symm hne
      · exact heq.symm
  by_cases hzero : base = 0
  · rw [if_pos hzero] at hr
    obtain rfl := some.inj hr
    exact absurd rfl hbase
  rw [if_neg hzero] at hr
  cases hloop : mmapLoop (pageNr len).toNat base mm m with
  | mk ua rest =>
    obtain ⟨mm', m'⟩ := rest
    cases ua with
    | none =>
      simp only [hloop, some.injEq] at hr
      obtain rfl := hr
      exact absurd rfl hbase
    | some ua =>
      simp only [hloop, if_pos hfd] at hr
      obtain ⟨⟨ret, written, m''⟩, hfill, heq⟩ := map_eq_some_iff.mp hr
      simp only at heq
      split_ifs at heq with hret
      · obtain rfl := heq
        exact absurd rfl hbase
      · obtain rfl := heq
        rw [not_not] at hret
        exact ⟨haddress hzero, ua, m', hloop, hret ▸ hfill⟩

theorem pageNr_toNat_le {len : ℕ} (hpos : 0 < len) (hint : len < 2 ^ 31) :
    (pageNr len).toNat ≤ (len + (pageSize - 1)) / pageSize := by
  have hword : (BitVec.ofInt 32 (len : ℤ)).toNat = len := by
    rw [BitVec.toNat_ofInt]
    omega
  have hround := toNat_align_two_pow (k := 12) (x := BitVec.ofInt 32 (len : ℤ)) (by decide)
    (by rw [hword]; omega)
  rw [hword] at hround
  unfold pageNr
  rw [BitVec.toInt_sshiftRight, BitVec.toInt_eq_toNat_cond, hround, Int.shiftRight_eq_div_pow]
  simp only [pageShift, pageSize]
  split_ifs <;> omega

/-- When `fmmap` returns the length, it has stored a byte at the beginning of the buffer, or
it has not read the file at all because the length is the position it had to seek to. -/
theorem fmmap_eq_len {prevBlock : Bool} {fdes : FileDesc (Vfs.File σ)} {fd : ℤ}
    {file : Vfs.File σ} {len off buffer : ℕ} {mm : MmStruct} {m m' : Machine (ℕ → UInt8)}
    {written : List ℕ} (hfile : fdToFile fdes fd = some (some file)) (hpos : 0 < len)
    (hfit : off + len ≤ file.fnode.dataSize) (hrange : file.fnode.dataSize < 2 ^ 31)
    (hrw : file.fnode.rwPos < file.fnode.bufferSize)
    (hbuf : file.fnode.bufferSize ≤ file.fnode.dataBuffer.length)
    (h : fmmap ops prevBlock fdes fd len off buffer mm m = some ((len : ℤ), written, m')) :
    (buffer % 2 ^ 32 ∈ written ∧ (off ≠ len ∨ file.offset = off)) ∨
      (off = len ∧ file.offset ≠ off ∧ written = [] ∧ m' = m) := by
  rw [fmmap, hfile, bind_some] at h
  obtain ⟨⟨ret, out, file'⟩, hmmap, hrest⟩ := bind_eq_some_iff.mp h
  obtain ⟨m'', hstore, heq⟩ := map_eq_some_iff.mp hrest
  cases heq
  have hwritten : out ≠ [] →
      buffer % 2 ^ 32 ∈ (List.range out.length).map fun k => (buffer + k) % 2 ^ 32 := fun hne =>
    List.mem_map.mpr ⟨0, mem_range.mpr (length_pos_of_ne_nil hne), rfl⟩
  unfold vfsMmap at hmmap
  by_cases hseek : file.offset = off
  · rw [if_neg (not_not.mpr hseek)] at hmmap
    exact .inl ⟨hwritten (vfsRead_ne_nil hpos (hseek ▸ hfit) hrange hrw hbuf hmmap), .inr hseek⟩
  rw [if_pos hseek] at hmmap
  obtain ⟨⟨err, file₁⟩, hsought, hmmap⟩ := bind_eq_some_iff.mp hmmap
  simp only at hmmap
  have hspec := vfsSeek_seekSet (by omega) hseek hsought
  split_ifs at hmmap with herr
  · -- The value of the seek is returned as it is.
    cases hmmap
    simp only [storeBytes, some.injEq] at hstore
    refine .inr ⟨?_, hseek, rfl, hstore.symm⟩
    rcases hspec with hneg | ⟨heq, -⟩
    · omega
    · omega
  · rw [not_not] at herr
    rcases hspec with hneg | ⟨hoff, hoffset, hkept, hrw'⟩
    · omega
    · have hzero : off = 0 := by omega
      refine .inl ⟨hwritten (vfsRead_ne_nil hpos ?_ ?_ ?_ ?_ hmmap), .inl (by omega)⟩
      · rw [hoffset, hkept.dataSize_eq]
        exact hfit
      · rw [hkept.dataSize_eq]
        exact hrange
      · rw [hkept.bufferSize_eq]
        exact hrw' (Nat.zero_lt_of_lt hrw)
      · rw [hkept.bufferSize_eq]
        exact hbuf.trans hkept.buffer_le

/-- The buffer of a file that is consistent at its position has the size of a block. -/
theorem buffer_of_buffered {walk : BlockWalk ops B n image} {size o : ℕ} {file : Vfs.File σ}
    (hopen : Opened walk size o file) (hbuf : Buffered walk o file.fnode) (hB : 0 < B)
    (hblock : o / B < n) :
    file.fnode.rwPos < file.fnode.bufferSize ∧
      file.fnode.bufferSize ≤ file.fnode.dataBuffer.length := by
  refine ⟨?_, ?_⟩
  · rw [hopen.rwPos_eq, hopen.bufferSize_eq]
    exact Nat.mod_lt o hB
  · have hmul : (o / B + 1) * B ≤ n * B := Nat.mul_le_mul_right B hblock
    rw [Nat.add_mul, Nat.one_mul] at hmul
    rw [hopen.bufferSize_eq, hbuf.buffer_eq, length_take, length_drop, walk.length_eq]
    omega

/-- A mapping of a file that returns a base shows the bytes of the file, and nothing outside
of its pages was written, exactly when the length is the position to seek to and the frames
held those bytes already. -/
theorem mmap_filled_iff {walk : BlockWalk ops B n image} {size o : ℕ} {file : Vfs.File σ}
    (hopen : Opened walk size o file) (hbuf : Buffered walk o file.fnode) (hblock : o / B < n)
    (hrange : size < 2 ^ 31) (prevBlock : Bool) {fdes : FileDesc (Vfs.File σ)} {fd : ℤ}
    (hfd : 0 < fd) (hfile : fdToFile fdes fd = some (some file)) {off len : ℕ} (hlen : 0 < len)
    (hfit : off + len ≤ size) (hblocks : size ≤ n * B) (search : Option ℕ) (start : ℕ)
    {mm : MmStruct} {m : Machine (ℕ → UInt8)} {dir : ℕ → Option ℕ} {own : ℕ → Prop}
    (hready : MmapReady m.frames mm.pageTable dir own) {r : Mmapped (ℕ → UInt8)}
    (hr : taskMmMmap search (fmmap ops prevBlock fdes fd len off) mm start len fd m = some r)
    (hbase : r.base ≠ 0) (huser : r.base + len ≤ kernelVirtualBase) :
    Filled image off len r ↔
      off = len ∧ o ≠ off ∧ HoldBytes image off len (mmapAddress search start) mm m := by
  have hB : 0 < B := by
    by_contra hzero
    rw [Nat.eq_zero_of_not_pos hzero, Nat.mul_zero] at hblocks
    omega
  obtain ⟨haddress, ua, m', hloop, hfill⟩ := taskMmMmap_file hfd hr hbase
  have hpages := pageNr_toNat_le hlen (by omega)
  have huserPages : r.base / pageSize + (pageNr len).toNat ≤ 2 ^ 19 := by
    simp only [kernelVirtualBase, pageSize] at huser hpages ⊢
    omega
  obtain ⟨hdata, hua, htranslate⟩ := mmapLoop_spec hready huserPages hloop
  obtain ⟨hrw, hbuffer⟩ := buffer_of_buffered hopen hbuf hB hblock
  rw [← hopen.dataSize_eq] at hfit hrange
  rw [← haddress, ← hopen.offset_eq]
  rcases fmmap_eq_len hfile hlen hfit hrange hrw hbuffer hfill with
    ⟨hwritten, hread⟩ | ⟨heq, hne, hnil, hm⟩
  · -- The first byte goes to the page behind the mapping.
    refine ⟨fun hfilled => ?_, fun h => absurd hread (by tauto)⟩
    obtain ⟨i, hi, hpage⟩ := hfilled.inside _ hwritten
    simp only [pageSize] at hua hpage huserPages
    omega
  · have hbytes : ∀ k < len, byteAt r.mm r.m (r.base + k) =
        (frameAfter m.frames mm.pageTable r.base (pageNr len).toNat (r.base + k)).map fun page =>
          m.data page ((r.base + k) % pageSize) := by
      intro k hk
      rw [byteAt, hm, htranslate _ (by omega), hdata]
    refine ⟨fun hfilled => ⟨heq, hne, fun k hk => ?_⟩, fun h => ⟨fun k hk => ?_, ?_⟩⟩
    · rw [← hbytes k hk]
      exact hfilled.bytes k hk
    · rw [hbytes k hk]
      exact h.2.2 k hk
    · simp [hnil]

/-- Memory whose pages hold one byte everywhere, with the given free frames. -/
def pageMachine (supply : List ℕ) (byte : UInt8) : Machine (ℕ → UInt8) where
  frames := { newTask.2 with supply := supply }
  data _ _ := byte
  kernelData _ _ := 0
  released := []

theorem bareTask_mmapReady {supply : List ℕ} (hnodup : supply.Nodup)
    (hfresh : ∀ f ∈ supply, f ≠ 0x400 ∧ 0 < f ∧ f + 1 < 2 ^ 20) (byte : UInt8) :
    MmapReady (pageMachine supply byte).frames bareTask.pageTable (fun _ => none) (· = 0x400) :=
  ⟨newTask_ready.directory, rfl, hfresh, hnodup⟩

/-- A file in memory that has been opened. -/
def openFile (image : List UInt8) : Vfs.File (ℕ × List UInt8) :=
  (vfsOpen (memOps 2) (memFile 2 image)).2

theorem openFile_consistent (hlen : image.length = 2 * 2) :
    Opened (memWalk (by decide) hlen) image.length 0 (openFile image) ∧
      Buffered (memWalk (by decide) hlen) 0 (openFile image).fnode := by
  obtain ⟨hopen, hbuf⟩ := vfsOpen_spec (memFile_opened (by decide) hlen)
  exact ⟨hopen, hbuf (by decide)⟩

/-- The file is open at descriptor 3. -/
def openAtThree (image : List UInt8) : FileDesc (Vfs.File (ℕ × List UInt8)) where
  openNr := 4
  fileOpen i := if i = 3 then some (openFile image) else none

/-- Two bytes from position 2 on are mapped. The frame happens to hold them. -/
theorem mmap_filled_iff_lucky :
    ∃ r, taskMmMmap none (fmmap (memOps 2) true (openAtThree [7, 7, 7, 7]) 3 2 2) bareTask
        0x40000000 2 3 (pageMachine [0x402, 0x403] 7) = some r ∧
      r.base = 0x40000000 ∧ Filled [7, 7, 7, 7] 2 2 r := by
  refine Runs.exists_some_imp (P := fun r => r.base = 0x40000000) (by decide +kernel)
    fun r hr hbase => ⟨hbase, ?_⟩
  have hlen : [7, 7, 7, (7 : UInt8)].length = 2 * 2 := rfl
  obtain ⟨hopen, hbuf⟩ := openFile_consistent hlen
  refine (mmap_filled_iff hopen hbuf (by decide) (by decide) true (by decide) rfl
    (by decide) (by decide) (by decide) none _ (bareTask_mmapReady (by decide) (by decide) 7) hr
    (by omega) ?_).mpr ⟨rfl, by decide, ?_⟩
  · rw [hbase]
    decide
  · decide +kernel

/-- A task has a page at 0x40001000 and maps the first two bytes of a file in front of it, at
0x40000000. -/
def mapInFront : Option (Mmapped (ℕ → UInt8)) :=
  (taskMmMmap none noFile bareTask 0x40001000 4096 0 (pageMachine [0x402, 0x403, 0x404] 0)).bind
    fun r => taskMmMmap none (fmmap (memOps 2) true (openAtThree [1, 2, 3, 4]) 3 2 0) r.mm
      0x40000000 2 3 r.m

/-- The bytes go to the old page of the task, and the new page keeps the zeros of its frame. -/
theorem mapInFront_writes_behind :
    (∃ walk : BlockWalk (memOps 2) 2 2 [1, 2, 3, 4], Opened walk 4 0 (openFile [1, 2, 3, 4]) ∧
      Buffered walk 0 (openFile [1, 2, 3, 4]).fnode) ∧
    ∃ r, mapInFront = some r ∧ r.base = 0x40000000 ∧ r.written = [0x40001000, 0x40001001] ∧
      byteAt r.mm r.m 0x40001000 = some 1 ∧ ¬ Filled [1, 2, 3, 4] 0 2 r := by
  have hlen : [1, 2, 3, (4 : UInt8)].length = 2 * 2 := rfl
  refine ⟨⟨_, openFile_consistent hlen⟩, ?_⟩
  have heval : mapInFront.map (fun r => (r.base, r.written, byteAt r.mm r.m 0x40001000,
      byteAt r.mm r.m 0x40000000)) =
        some (0x40000000, [0x40001000, 0x40001001], some 1, some 0) := by
    decide +kernel
  obtain ⟨r, hr, heq⟩ := map_eq_some_iff.mp heval
  simp only [Prod.mk.injEq] at heq
  obtain ⟨hbase, hwritten, hold, hnew⟩ := heq
  refine ⟨r, hr, hbase, hwritten, hold, fun hfilled => ?_⟩
  have hbyte := hfilled.bytes 0 (by decide)
  rw [Nat.add_zero, hbase, hnew] at hbyte
  exact absurd hbyte (by decide)

end Chunos.TaskMm
