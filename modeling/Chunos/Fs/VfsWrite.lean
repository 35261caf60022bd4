import Chunos.Fs.VfsRead

/-!
# What a write returns

`vfs_write` returns the variable that holds the result of its first block write. That
result is zero whenever the function gets past it, so a write that stores all bytes
returns zero. The other ways out return a negative error code. It also sets the size of
the file to the end of the bytes it wrote, which cuts a longer file.
-/

namespace Chunos.Vfs

variable {σ : Type*} (ops : FilesystemOps σ)

/-- The bytes of the file, when `image` gives the bytes of its blocks in order. -/
def File.content (image : σ → List UInt8) (file : File σ) : List UInt8 :=
  (image file.fnode.fs).take file.fnode.dataSize

/-- What a write of `buffer` should do: the bytes at the position of the file are replaced
by the buffer and no other byte changes, the size grows when the buffer reaches past the
old end, and the call returns the number of bytes. -/
structure WriteMeets (image : σ → List UInt8) (file : File σ) (buffer : List UInt8)
    (result : ℤ × File σ) : Prop where
  content_eq : result.2.content image =
    (file.content image).take file.offset ++ buffer ++
      (file.content image).drop (file.offset + buffer.length)
  dataSize_eq : result.2.fnode.dataSize = max file.fnode.dataSize (file.offset + buffer.length)
  ret_eq : result.1 = buffer.length

theorem nextWriteBlock_error {allocatedNew allocatedNew' : Bool} {fnode fnode' : Fnode σ} {err : ℤ}
    (h : nextWriteBlock ops allocatedNew fnode = (.error err, allocatedNew', fnode')) :
    err < 0 := by
  have hfbig : -efbig < 0 := by decide
  have hnospc : -enospc < 0 := by decide
  unfold nextWriteBlock at h
  simp only at h
  split_ifs at h
  all_goals simp only [Prod.mk.injEq, Except.error.injEq, reduceCtorEq, false_and] at h
  · omega
  · omega

theorem writeNext_nonpos (allocatedNew : Bool) (fnode : Fnode σ) (bytes : List UInt8) :
    (writeNext ops allocatedNew fnode bytes).1 ≤ 0 := by
  have hio : -eio ≤ 0 := by decide
  unfold writeNext
  rcases hnext : nextWriteBlock ops allocatedNew fnode with ⟨err | block, allocatedNew', fnode'⟩
  · exact (nextWriteBlock_error ops hnext).le
  · simp only
    split_ifs
    · exact hio
    · exact le_refl 0

theorem writeBlocks_nonpos (k : ℕ) (allocatedNew : Bool) (fnode : Fnode σ) (buffer : List UInt8) :
    (writeBlocks ops k allocatedNew fnode buffer).1 ≤ 0 := by
  induction k generalizing allocatedNew fnode buffer with
  | zero => exact le_refl 0
  | succ k ih =>
    have hnext := writeNext_nonpos ops allocatedNew fnode buffer
    simp only [writeBlocks]
    split_ifs
    · exact hnext
    · exact ih _ _ _

theorem writeLeft_nonpos (sizeLeft : ℕ) (allocatedNew : Bool) (fnode : Fnode σ)
    (buffer : List UInt8) : (writeLeft ops sizeLeft allocatedNew fnode buffer).1 ≤ 0 := by
  have hio : -eio ≤ 0 := by decide
  unfold writeLeft
  split_ifs with hzero
  · exact le_refl 0
  · rcases hnext : nextWriteBlock ops allocatedNew fnode with ⟨err | block, allocatedNew', fnode'⟩
    · exact (nextWriteBlock_error ops hnext).le
    · simp only
      split_ifs
      · exact hio
      · exact le_refl 0

/-- No write of any bytes does what a write should do, because it never returns their
number. -/
theorem vfsWrite_never_meets (image : σ → List UInt8) (file : File σ) {buffer : List UInt8}
    (hbuffer : buffer ≠ []) : ¬ WriteMeets image file buffer (vfsWrite ops file buffer) := by
  intro hmeets
  have hpos : 0 < buffer.length := List.length_pos_iff.mpr hbuffer
  have hret := hmeets.ret_eq
  have hnonpos : (vfsWrite ops file buffer).1 ≤ 0 := by
    unfold vfsWrite
    simp only
    split_ifs with hret hblocks hleft
    · simp only [eio]
      decide
    · exact writeBlocks_nonpos _ _ _ _ _
    · exact writeLeft_nonpos _ _ _ _ _
    · exact (not_not.mp hret).le
  omega

/-- The theorem applies to a write of two bytes over the first block of a file. -/
theorem vfsWrite_never_meets_twoBytes :
    ¬ WriteMeets Prod.snd (vfsOpen (memOps 2) (memFile 2 [1, 2, 3, 4])).2 [8, 9]
      (vfsWrite (memOps 2) (vfsOpen (memOps 2) (memFile 2 [1, 2, 3, 4])).2 [8, 9]) :=
  vfsWrite_never_meets _ _ _ (by decide)

/-- A write of two bytes over the first block of a file of two blocks stores them, but it
returns zero and leaves a file of two bytes. -/
theorem vfsWrite_returns_zero_twoBlocks :
    (vfsOpen (memOps 2) (memFile 2 [1, 2, 3, 4])).2.content Prod.snd = [1, 2, 3, 4] ∧
      (vfsWrite (memOps 2) (vfsOpen (memOps 2) (memFile 2 [1, 2, 3, 4])).2 [8, 9]).1 = 0 ∧
      (vfsWrite (memOps 2) (vfsOpen (memOps 2) (memFile 2 [1, 2, 3, 4])).2 [8, 9]).2.content
        Prod.snd = [8, 9] := by
  refine ⟨?_, ?_, ?_⟩
  all_goals decide

end Chunos.Vfs
