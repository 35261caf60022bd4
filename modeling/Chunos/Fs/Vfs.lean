import Chunos.Basic

/-!
# Reading and writing a file through its block buffer

The generic file operations keep one block of the file in a buffer and ask the file
system for further blocks through a table of operations. That table, together with
the private state it works on, is a parameter here. The functions follow `fs/vfs.c`.
The buffer of the caller is a list of bytes: what a read has delivered so far, or what
a write still has to store.
-/

namespace Chunos

/-- `os/vfs.h`: the block that a caller asks for, relative to the cursor of the file. -/
inductive VfsWhence where
  | nextBlock
  | prevBlock
  | startBlock
  | endBlock
  | currentBlock
deriving DecidableEq, Repr

/-- `os/file.h`, `DT_DIR`: the type of a directory. -/
def dtDir : ℕ := 4

/-- `os/file.h`, `DT_ANY`: a mask for every type. -/
def dtAny : ℕ := 0xff

/-- `os/file.h`, `O_DIRECTORY`: the flag to open directories only. -/
def oDirectory : ℕ := 0x4000

namespace Vfs

/-- `struct filesystem_ops`, with the operations that read and write file data. The
state `σ` is what the file system keeps for the file and on the device. A block number
of `0` means that there is no block. `get_block` may be missing from the table. -/
structure FilesystemOps (σ : Type*) where
  getDataBlock : σ → VfsWhence → ℕ × σ
  readBlock : σ → ℕ → ℤ × List UInt8
  writeBlock : σ → List UInt8 → ℕ → ℤ × σ
  getBlock : Option (σ → ℕ × σ)

/-- `struct fnode`, with the fields that reads and writes use. -/
structure Fnode (σ : Type*) where
  blkCnt : ℤ
  dataSize : ℕ
  bufferSize : ℕ
  rwPos : ℕ
  dataBuffer : List UInt8
  currentBlock : ℕ
  fs : σ

/-- `struct file`: an open file with its position. Sizes and positions are not negative,
so they are natural numbers. -/
structure File (σ : Type*) where
  fnode : Fnode σ
  offset : ℕ

section Operations

variable {σ : Type*} (ops : FilesystemOps σ)

/-- `vfs_get_data_block`: move the cursor of the file system. -/
def vfsGetDataBlock (fnode : Fnode σ) (whence : VfsWhence) : ℕ × Fnode σ :=
  ((ops.getDataBlock fnode.fs whence).1, { fnode with fs := (ops.getDataBlock fnode.fs whence).2 })

/-- `vfs_get_new_data_block`: allocate a block at the end of the file. -/
def vfsGetNewDataBlock (fnode : Fnode σ) : ℕ × Fnode σ :=
  match ops.getBlock with
  | none => (0, fnode)
  | some getBlock =>
    let (block, fs) := getBlock fnode.fs
    if block = 0 then (0, { fnode with fs := fs })
    else (block, { fnode with fs := fs, blkCnt := fnode.blkCnt + 1 })

/-- `vfs_read_block`: read the block at the moved cursor into `buffer`. Without such a
block the buffer keeps its content and the call fails. -/
def vfsReadBlock (fnode : Fnode σ) (buffer : List UInt8) (whence : VfsWhence) :
    ℤ × List UInt8 × Fnode σ :=
  let (block, fnode) := vfsGetDataBlock ops fnode whence
  if block = 0 then (-enospc, buffer, fnode)
  else
    let (err, bytes) := ops.readBlock fnode.fs block
    (err, bytes, { fnode with currentBlock := block })

/-- `__vfs_write_block`: write one block. -/
def vfsWriteAt (fnode : Fnode σ) (bytes : List UInt8) (block : ℕ) : ℤ × Fnode σ :=
  ((ops.writeBlock fnode.fs (bytes.take fnode.bufferSize) block).1,
    { fnode with fs := (ops.writeBlock fnode.fs (bytes.take fnode.bufferSize) block).2 })

/-- `vfs_write_block`: write the block at the moved cursor. -/
def vfsWriteBlock (fnode : Fnode σ) (bytes : List UInt8) (whence : VfsWhence) : ℤ × Fnode σ :=
  let (block, fnode) := vfsGetDataBlock ops fnode whence
  if block = 0 then (-enospc, fnode)
  else vfsWriteAt ops { fnode with currentBlock := block } bytes block

/-- `vfs_open`: fill the buffer with the first block of the file. -/
def vfsOpen (file : File σ) : ℤ × File σ :=
  let (err, bytes, fnode) := vfsReadBlock ops file.fnode file.fnode.dataBuffer .startBlock
  (err, { file with fnode := { fnode with dataBuffer := bytes } })

/-- How a request splits at block boundaries: the bytes in the current block, the whole
blocks behind it, and the bytes in a last block. -/
structure Split where
  sizeInBuffer : ℕ
  blocks : ℕ
  sizeLeft : ℕ

/-- The split that `vfs_read` and `vfs_write` compute for a request at position `pos` of
the current block. -/
def splitRequest (bufferSize pos size : ℕ) : Split :=
  if size < bufferSize - pos then { sizeInBuffer := size, blocks := 0, sizeLeft := 0 }
  else
    { sizeInBuffer := bufferSize - pos
      blocks := (size - (bufferSize - pos)) / bufferSize
      sizeLeft := (size - (bufferSize - pos)) % bufferSize }

/-- The loop of `vfs_read` over whole blocks, which go directly to the caller. -/
def readBlocks : ℕ → Fnode σ → List UInt8 → ℤ × List UInt8 × Fnode σ
  | 0, fnode, out => (0, out, fnode)
  | n + 1, fnode, out =>
    let (err, bytes, fnode) := vfsReadBlock ops fnode [] .nextBlock
    if err ≠ 0 then (err, out, fnode) else readBlocks n fnode (out ++ bytes)

/-- `memcpy(data_buffer + pos, buffer, n)`. -/
def Fnode.copyIn (fnode : Fnode σ) (pos : ℕ) (bytes : List UInt8) : Fnode σ :=
  { fnode with
    dataBuffer :=
      fnode.dataBuffer.take pos ++ bytes ++ fnode.dataBuffer.drop (pos + bytes.length) }

/-- The next block goes into the buffer of the node. -/
def fillBuffer (fnode : Fnode σ) : ℤ × Fnode σ :=
  let (err, bytes, fnode) := vfsReadBlock ops fnode fnode.dataBuffer .nextBlock
  (err, fnode.copyIn 0 bytes)

/-- The part of `vfs_read` for a last block that is only read in part. It goes through
the buffer of the node. -/
def readLeft (sizeLeft : ℕ) (fnode : Fnode σ) (out : List UInt8) : ℤ × List UInt8 × Fnode σ :=
  if sizeLeft = 0 then (0, out, fnode)
  else
    let (err, fnode) := fillBuffer ops fnode
    if err ≠ 0 then (err, out, fnode) else (0, out ++ fnode.dataBuffer.take sizeLeft, fnode)

/-- The end of `vfs_read`: when the buffer counts as used up, the next block is read into
it. After a partial last block `size_in_buffer` is what remains of that block. -/
def readAhead (split : Split) (fnode : Fnode σ) : ℤ × Fnode σ :=
  let sizeInBuffer :=
    if split.sizeLeft = 0 then split.sizeInBuffer else fnode.bufferSize - split.sizeLeft
  if sizeInBuffer = fnode.bufferSize then fillBuffer ops fnode else (0, fnode)

/-- `vfs_read` once the number of bytes to deliver is known and positive. -/
def readReal (file : File σ) (realSize : ℕ) : ℤ × List UInt8 × File σ :=
  let pos := file.fnode.rwPos
  let split := splitRequest file.fnode.bufferSize pos realSize
  let out := (file.fnode.dataBuffer.drop pos).take split.sizeInBuffer
  let (err, out, fnode) := readBlocks ops split.blocks file.fnode out
  if err ≠ 0 then (err, out, { file with fnode := fnode })
  else
    let (err, out, fnode) := readLeft ops split.sizeLeft fnode out
    if err ≠ 0 then (err, out, { file with fnode := fnode })
    else
      let (err, fnode) := readAhead ops split fnode
      if err ≠ 0 then (err, out, { file with fnode := fnode })
      else
        (realSize, out,
          { offset := file.offset + realSize
            fnode := { fnode with rwPos := (pos + realSize) % fnode.bufferSize } })

/-- The size that `vfs_read` corrects a request to. The sum of offset and size is a
signed word. -/
def realSize (file : File σ) (size : ℕ) : ℤ :=
  if (file.fnode.dataSize : ℤ) < wrap32 (file.offset + size) then
    file.fnode.dataSize - file.offset
  else size

/-- `vfs_read`: the returned value, the bytes delivered and the file afterwards. It is
`none` when the corrected size is negative, because `memcpy` then gets a negative
length. -/
def vfsRead (file : File σ) (size : ℕ) : Option (ℤ × List UInt8 × File σ) :=
  if realSize file size < 0 then none
  else if realSize file size = 0 then some (0, [], file)
  else some (readReal ops file (realSize file size).toNat)

/-- The block that `vfs_write` stores the next bytes in: the next block of the file, or a
new one once the end has been reached. The error code says which of the two failed. -/
def nextWriteBlock (allocatedNew : Bool) (fnode : Fnode σ) : Except ℤ ℕ × Bool × Fnode σ :=
  if allocatedNew then
    let (block, fnode) := vfsGetNewDataBlock ops fnode
    (if block = 0 then .error (-efbig) else .ok block, true, fnode)
  else
    let (block, fnode) := vfsGetDataBlock ops fnode .nextBlock
    if block = 0 then
      let (block, fnode) := vfsGetNewDataBlock ops fnode
      (if block = 0 then .error (-enospc) else .ok block, true, fnode)
    else (.ok block, false, fnode)

/-- Store one whole block of the caller in the block that comes next. -/
def writeNext (allocatedNew : Bool) (fnode : Fnode σ) (bytes : List UInt8) : ℤ × Bool × Fnode σ :=
  match nextWriteBlock ops allocatedNew fnode with
  | (.error err, allocatedNew, fnode) => (err, allocatedNew, fnode)
  | (.ok block, allocatedNew, fnode) =>
    let (err, fnode) := vfsWriteAt ops fnode bytes block
    (if err ≠ 0 then -eio else 0, allocatedNew, fnode)

/-- The loop of `vfs_write` over whole blocks, which come directly from the caller. -/
def writeBlocks : ℕ → Bool → Fnode σ → List UInt8 → ℤ × Bool × Fnode σ
  | 0, allocatedNew, fnode, _ => (0, allocatedNew, fnode)
  | n + 1, allocatedNew, fnode, buffer =>
    let (err, allocatedNew, fnode) := writeNext ops allocatedNew fnode buffer
    if err ≠ 0 then (err, allocatedNew, fnode)
    else writeBlocks n allocatedNew fnode (buffer.drop fnode.bufferSize)

/-- The part of `vfs_write` for a last block that is only written in part. The bytes are
put in front of what the buffer of the node holds, and the whole buffer is stored. -/
def writeLeft (sizeLeft : ℕ) (allocatedNew : Bool) (fnode : Fnode σ) (buffer : List UInt8) :
    ℤ × Bool × Fnode σ :=
  if sizeLeft = 0 then (0, allocatedNew, fnode)
  else
    match nextWriteBlock ops allocatedNew fnode with
    | (.error err, allocatedNew, fnode) => (err, allocatedNew, fnode)
    | (.ok block, allocatedNew, fnode) =>
      let fnode := fnode.copyIn 0 (buffer.take sizeLeft)
      let (err, fnode) := vfsWriteAt ops fnode fnode.dataBuffer block
      (if err ≠ 0 then -eio else 0, allocatedNew, fnode)

/-- The sizes and the position that `vfs_write` leaves. `update_fnode` and
`update_super_block`, which follow, do nothing. -/
def finishWrite (file : File σ) (fnode : Fnode σ) (size : ℕ) : File σ :=
  let total := file.offset + size
  { offset := total
    fnode :=
      { fnode with
        blkCnt := (baligin (BitVec.ofNat 32 total) (BitVec.ofNat 32 fnode.bufferSize)).toInt.tdiv
          fnode.bufferSize
        dataSize := total
        rwPos := (file.fnode.rwPos + size) % fnode.bufferSize } }

/-- `vfs_write`: store the bytes at the position of the file. The variable `ret` that the
source returns at the end holds the result of the first `vfs_write_block`. -/
def vfsWrite (file : File σ) (buffer : List UInt8) : ℤ × File σ :=
  let pos := file.fnode.rwPos
  let split := splitRequest file.fnode.bufferSize pos buffer.length
  let fnode := file.fnode.copyIn pos (buffer.take split.sizeInBuffer)
  let (ret, fnode) := vfsWriteBlock ops fnode fnode.dataBuffer .currentBlock
  if ret ≠ 0 then (-eio, { file with fnode := fnode })
  else
    let buffer' := buffer.drop split.sizeInBuffer
    let (err, allocatedNew, fnode) := writeBlocks ops split.blocks false fnode buffer'
    if err ≠ 0 then (err, { file with fnode := fnode })
    else
      let buffer' := buffer'.drop (split.blocks * fnode.bufferSize)
      let (err, _, fnode) := writeLeft ops split.sizeLeft allocatedNew fnode buffer'
      if err ≠ 0 then (err, { file with fnode := fnode })
      else (ret, finishWrite file fnode buffer.length)

end Operations

end Vfs

end Chunos
