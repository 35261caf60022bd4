import Chunos.Mm.Section

/-!
# The slab allocator

`kmalloc` hands out blocks with a header of two words in front of them: the size of the
block, and a word that is a magic number while the block is in use and the link to the
next block while it is on a pool. Blocks are cut from the front of a bump region, and a
freed block goes to the pool of its size. The functions follow `mm/slab.c` on the words
of memory. An address is a natural number with `0` for `NULL`, and `mem a` is the word
at address `a`.
-/

namespace Chunos.Slabs

open Function

/-- `os/mm.h`, `GFP_KERNEL`: memory for the kernel. -/
def gfpKernel : ℕ := 0x00000001

/-- `os/mm.h`, `GFP_DMA`: memory for devices. -/
def gfpDma : ℕ := 0x00000002

/-- `os/mm.h`, `GFP_RES`: reserved memory. -/
def gfpRes : ℕ := 0x00000004

/-- `SLAB_HEADER_SIZE`: the two words in front of a block. -/
def slabHeaderSize : ℕ := 8

/-- `SLAB_MAGIC`: the second header word of a block in use. -/
def slabMagic : ℕ := 0x1234abcd

/-- `SLAB_CACHE_SIZE`: the memory requested when the allocator starts. -/
def slabCacheSize : ℕ := 1024 * 1024

/-- The `size` field of the first pool, to which sizes are rounded. -/
def minSlabSize : ℕ := 16

/-- `pool_nr`: 32 pools for the multiples of 16 up to 512, and one for all larger sizes. -/
def poolNr : ℕ := 33

/-- `struct slab`, with the memory in which the blocks lie. `head i` is the first header
on pool `i`, and `plist` lists the requested caches with their numbers of pages. -/
structure Slab where
  mem : ℕ → ℕ
  head : ℕ → ℕ
  slabFree : ℕ
  freeSize : ℕ
  allocSize : ℕ
  allocPages : ℕ
  plist : List (ℕ × ℕ)
  locked : Bool

/-- `get_slab_alloc_size`: round an `int` up to a multiple of 16. -/
def getSlabAllocSize (size : ℤ) : ℤ :=
  (align (BitVec.ofInt 32 size) (BitVec.ofNat 32 (2 ^ 4))).toInt

/-- `page_nr`: the pages that an `int` size needs. -/
def pageNr (size : ℤ) : ℤ :=
  ((align (BitVec.ofInt 32 size) (BitVec.ofNat 32 (2 ^ 12))).sshiftRight pageShift).toInt

/-- `slab_pool_id`, for the word that holds an `int` size. It is `none` when the index
is negative and lies outside the table of pools. -/
def slabPoolId (size : ℕ) : Option ℕ :=
  if size < minSlabSize ∨ 2 ^ 31 ≤ size then none
  else
    let id := size / minSlabSize - 1
    some (if poolNr ≤ id then poolNr - 1 else id)

/-- `mutex_lock` of the slab mutex. While no task exists it does nothing. The call does
not return when the mutex has been left locked. -/
def mutexLock (current : Bool) (s : Slab) : Option Slab :=
  if current then if s.locked then none else some { s with locked := true } else some s

/-- `mutex_unlock` of the slab mutex. -/
def mutexUnlock (s : Slab) : Slab := { s with locked := false }

/-- A section of code between `mutex_lock` and `mutex_unlock`. -/
def withMutex {α : Type*} (current : Bool) (body : Slab → α × Slab) (s : Slab) :
    Option (α × Slab) :=
  (mutexLock current s).map fun s => ((body s).1, mutexUnlock (body s).2)

/-- `alloc_new_slab_cache`, for the number of pages of the requested size. `page` is what
the page allocator returns. When the request fails the mutex stays locked. -/
def allocNewSlabCache (current : Bool) (page : Option ℕ) (nr : ℕ) (s : Slab) : Option (ℤ × Slab) :=
  (mutexLock current s).map fun s =>
    match page with
    | none => (-enomem, s)
    | some va =>
      (0, mutexUnlock
        { s with
          plist := s.plist ++ [(va, nr)]
          freeSize := nr * pageSize
          allocSize := s.allocSize + nr * pageSize
          allocPages := s.allocPages + nr
          slabFree := va })

/-- `get_slab_from_slab_pool`: take the first block of a pool that is not empty. -/
def getSlabFromSlabPool (s : Slab) (id : ℕ) : ℕ × Slab :=
  let header := s.head id
  (header,
    { s with
      head := update s.head id (s.mem (header + 4))
      mem := update s.mem (header + 4) slabMagic })

/-- `add_slab_to_slab_pool`: put a block in front of a pool. -/
def addSlabToSlabPool (s : Slab) (header id : ℕ) : Slab :=
  { s with
    mem := update s.mem (header + 4) (s.head id)
    head := update s.head id header }

/-- The block of a pool as `get_slab_from_pool` and `get_big_slab` return it. -/
def takeFromPool (s : Slab) (id : ℕ) : ℕ × Slab :=
  ((getSlabFromSlabPool s id).1 + slabHeaderSize, (getSlabFromSlabPool s id).2)

/-- `get_slab_from_pool`: the first block of the pool of this size, whatever its size. -/
def getSlabFromPool (current : Bool) (size : ℕ) (s : Slab) : Option (ℕ × Slab) :=
  (slabPoolId size).bind fun id =>
    withMutex current (fun s => if s.head id = 0 then (0, s) else takeFromPool s id) s

/-- Write the header of a block in use. -/
def writeHeader (s : Slab) (header size : ℕ) : Slab :=
  { s with mem := update (update s.mem header size) (header + 4) slabMagic }

/-- Cut a block from the front of the bump region. A rest that is too small for a block
is added to the size of the block. -/
def carve (s : Slab) (size : ℕ) : ℕ × Slab :=
  let header := s.slabFree
  let rest := s.freeSize - (size + slabHeaderSize)
  (header + slabHeaderSize,
    if rest < minSlabSize + slabHeaderSize then
      { writeHeader s header (size + rest) with slabFree := 0, freeSize := 0 }
    else
      { writeHeader s header size with
        slabFree := s.slabFree + (size + slabHeaderSize), freeSize := rest })

/-- `get_slab_from_slab_free`: a block from the bump region, if it is large enough. -/
def getSlabFromSlabFree (current : Bool) (size : ℕ) (s : Slab) : Option (ℕ × Slab) :=
  withMutex current
    (fun s => if s.freeSize < size + slabHeaderSize then (0, s) else carve s size) s

/-- The first part of `__get_new_slab`: what is left of the bump region becomes a block
on the pool of its size. -/
def donate (s : Slab) : Slab :=
  if s.freeSize < minSlabSize + slabHeaderSize then s
  else
    match slabPoolId (s.freeSize - slabHeaderSize) with
    | none => s
    | some id =>
      { addSlabToSlabPool (writeHeader s s.slabFree (s.freeSize - slabHeaderSize)) s.slabFree id with
        slabFree := 0, freeSize := 0 }

/-- `__get_new_slab`: a block from a fresh page. -/
def doGetNewSlab (current : Bool) (page : Option ℕ) (size : ℕ) (s : Slab) : Option (ℕ × Slab) :=
  (withMutex current (fun s => ((), donate s)) s).bind fun (_, s) =>
    (allocNewSlabCache current page 1 s).bind fun (err, s) =>
      if err ≠ 0 then some (0, s) else getSlabFromSlabFree current size s

/-- `get_free_pages` for a number of pages, with the answer of the page allocator. -/
def getFreePages (page : Option ℕ) (count : ℤ) : ℕ :=
  if count ≤ 0 then 0 else page.getD 0

/-- `get_new_slab`: whole pages for a large size, else a block from a fresh page. -/
def getNewSlab (current : Bool) (page : Option ℕ) (size : ℤ) (flag : ℕ) (s : Slab) :
    Option (ℕ × Slab) :=
  if flag = gfpDma ∨ flag = gfpRes ∨ (pageSize : ℤ) ≤ size then
    some (getFreePages page (pageNr size), s)
  else doGetNewSlab current page size.toNat s

/-- The search of `get_big_slab` for a pool that is not empty, from pool `id` on, with
`n` pools left. -/
def bigSlabLoop (head : ℕ → ℕ) : ℕ → ℕ → Option ℕ
  | 0, _ => none
  | n + 1, id => if head id = 0 then bigSlabLoop head n (id + 1) else some id

/-- `get_big_slab`: the first block of the first pool from this size on that has one. -/
def getBigSlab (current : Bool) (size : ℕ) (s : Slab) : Option (ℕ × Slab) :=
  (slabPoolId size).bind fun id =>
    withMutex current
      (fun s =>
        match bigSlabLoop s.head (poolNr - id) id with
        | none => (0, s)
        | some id => takeFromPool s id) s

/-- The loop of `__kmalloc` over its table of functions. -/
def tryAlloc : List (Slab → Option (ℕ × Slab)) → Slab → Option (ℕ × Slab)
  | [], s => some (0, s)
  | func :: funcs, s =>
    (func s).bind fun (ret, s) => if ret = 0 then tryAlloc funcs s else some (ret, s)

/-- `__kmalloc`. It is `none` when a call inside does not return, and when the rounded
size is negative, because the index of the pool is then outside the table. -/
def doKmalloc (current : Bool) (page : Option ℕ) (size : ℤ) (flag : ℕ) (s : Slab) :
    Option (ℕ × Slab) :=
  if flag &&& gfpUser ≠ 0 then some (0, s)
  else
    let size := getSlabAllocSize size
    if flag ≠ gfpKernel ∨ (pageSize : ℤ) ≤ size then getNewSlab current page size flag s
    else if size < 0 then none
    else
      tryAlloc
        [getSlabFromPool current size.toNat, getSlabFromSlabFree current size.toNat,
          getNewSlab current page size flag, getBigSlab current size.toNat] s

/-- `kmalloc`: the address of a block, or `0`. -/
def kmalloc (current : Bool) (page : Option ℕ) (size : ℤ) (flag : ℕ) (s : Slab) :
    Option (ℕ × Slab) :=
  if size ≤ 0 then some (0, s)
  else if flag ≠ gfpKernel ∧ flag ≠ gfpDma ∧ flag ≠ gfpRes then some (0, s)
  else doKmalloc current page size flag s

/-- `kfree`. The word in front of the address tells a block from whole pages, which go
back to the page allocator. It is `none` when the size in the header has no pool. -/
def kfree (current : Bool) (addr : ℕ) (s : Slab) : Option Slab :=
  if addr = 0 then some s
  else
    (mutexLock current s).bind fun s =>
      let header := addr - slabHeaderSize
      if s.mem (header + 4) ≠ slabMagic then some (mutexUnlock s)
      else
        (slabPoolId (s.mem header)).map fun id => mutexUnlock (addSlabToSlabPool s header id)

/-- The allocator as `slab_init` clears it, in memory of any content. -/
def clearedSlab (mem : ℕ → ℕ) : Slab :=
  { mem := mem, head := fun _ => 0, slabFree := 0, freeSize := 0, allocSize := 0
    allocPages := 0, plist := [], locked := false }

/-- `slab_init`: all pools are empty, and the first cache is requested. No task is running
yet. -/
def slabInit (mem : ℕ → ℕ) (page : Option ℕ) : Option (ℤ × Slab) :=
  allocNewSlabCache false page (slabCacheSize / pageSize) (clearedSlab mem)

end Chunos.Slabs
