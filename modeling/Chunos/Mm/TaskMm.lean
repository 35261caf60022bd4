import Chunos.Mm.Pgt

/-!
# The memory of tasks

The part of `kernel/task_mm.c` that gives the child of a `fork` a copy of its parent's
memory. It runs in the parent, so `current` is the parent and `memcpy` goes through the page
table of the parent. The pages of user memory have contents of an arbitrary type. A result
`none` stands for an access outside of memory: a page that is not mapped, or the head of a
list taken for a page.
-/

namespace Chunos.TaskMm

open Pgt

/-- The sections `TASK_MM_SECTION_ELF`, `_STACK`, `_MMAP` and `_META`. -/
inductive SectionId where
  | elf
  | stack
  | mmap
  | metaData
deriving DecidableEq

/-- The sections in the order of their numbers. -/
def sectionIds : List SectionId := [.elf, .stack, .mmap, .metaData]

/-- `struct task_mm_section`. -/
structure TaskMmSection where
  baseAddr : ℕ
  allocPages : ℤ
  allocMem : List ℕ

/-- `struct mm_struct`. -/
structure MmStruct where
  pageTable : TaskPageTable
  mmSection : SectionId → TaskMmSection

/-- The frames, the contents of the pages of user memory and of kernel memory, and the pages
that have been released. -/
structure Machine (β : Type*) where
  frames : Frames
  data : ℕ → β
  kernelData : ℕ → β
  released : List ℕ

variable {β : Type*}

/-- The loop of `section_get_memory` that requests pages. -/
def requestLoop : ℕ → TaskMmSection → Machine β → ℤ × TaskMmSection × Machine β
  | 0, sec, m => (0, sec, m)
  | count + 1, sec, m =>
    match requestPage m.frames with
    | none => (-enomem, sec, m)
    | some (page, frames) =>
      requestLoop count
        { sec with allocMem := sec.allocMem ++ [page], allocPages := sec.allocPages + 1 }
        { m with frames := frames }

/-- `section_get_memory`. A negative count releases the last page once for each page that is
too much. The page stays in the list and the count of the section does not change. -/
def sectionGetMemory (count : ℤ) (sec : TaskMmSection) (m : Machine β) :
    Option (ℤ × TaskMmSection × Machine β) :=
  if count = 0 then some (0, sec, m)
  else if 0 < count then some (requestLoop count.toNat sec m)
  else
    sec.allocMem.getLast?.map fun page =>
      (0, sec, { m with released := m.released ++ List.replicate (-count).toNat page })

/-- `free_sections_memory`. -/
def freeSectionsMemory (mm : MmStruct) (m : Machine β) : Machine β :=
  { m with released := m.released ++ sectionIds.flatMap fun i => (mm.mmSection i).allocMem }

/-- The contents of the page at an address, as the parent sees it. -/
def readPage (parent : MmStruct) (m : Machine β) (src : ℕ) : Option β :=
  if src < kernelVirtualBase then
    (translate m.frames.word parent.pageTable.pdeBase src).map m.data
  else some (m.kernelData src)

/-- `memcpy(dst, src, PAGE_SIZE)` between the beginnings of two pages. -/
def memcpyPage (parent : MmStruct) (m : Machine β) (dst src : ℕ) : Option (Machine β) :=
  (translate m.frames.word parent.pageTable.pdeBase dst).bind fun page =>
    (readPage parent m src).map fun b => { m with data := Function.update m.data page b }

/-- The address of the next page to be copied. -/
def nextBase (type : MapType) (pbase : ℕ) : ℕ :=
  match type with
  | .normal => pbase + pageSize
  | .stack => pbase - pageSize

/-- The loop of `copy_section_memory`. The list of the new section does not advance. -/
def copySectionLoop (parent : MmStruct) (type : MapType) (list : List ℕ) :
    ℕ → ℕ → Machine β → Option (ℤ × Machine β)
  | 0, _, m => some (0, m)
  | count + 1, pbase, m =>
    list.head?.bind fun page =>
      let (nbase, frames) := pgtMapTempPage parent.pageTable page m.frames
      if nbase = 0 then some (-efault, { m with frames := frames })
      else
        (memcpyPage parent { m with frames := frames } nbase pbase).bind fun m =>
          copySectionLoop parent type list count (nextBase type pbase) m

/-- `copy_section_memory`. The loop does not end for a negative count. -/
def copySectionMemory (parent : MmStruct) (n p : TaskMmSection) (type : MapType)
    (m : Machine β) : Option (ℤ × Machine β) :=
  if n.allocPages ≠ p.allocPages then some (-einval, m)
  else if n.allocPages < 0 then none
  else copySectionLoop parent type n.allocMem n.allocPages.toNat p.baseAddr m

/-- `copy_task_mm_section`. -/
def copyTaskMmSection (new parent : MmStruct) (i : SectionId) (type : MapType) (m : Machine β) :
    Option (ℤ × MmStruct × Machine β) :=
  let n := new.mmSection i
  let p := parent.mmSection i
  let (ret, table, frames) := pgtMapTaskMemory new.pageTable n.allocMem n.baseAddr type m.frames
  if ret ≠ 0 then some (ret, { new with pageTable := table }, { m with frames := frames })
  else
    (copySectionMemory parent n p type { m with frames := frames }).map fun (ret, m) =>
      (ret, { new with pageTable := table }, m)

/-- `copy_task_elf`. -/
def copyTaskElf (new parent : MmStruct) (m : Machine β) : Option (ℤ × MmStruct × Machine β) :=
  copyTaskMmSection new parent .elf .normal m

/-- `copy_task_stack`. -/
def copyTaskStack (new parent : MmStruct) (m : Machine β) : Option (ℤ × MmStruct × Machine β) :=
  copyTaskMmSection new parent .stack .stack m

/-- `copy_task_meta`. -/
def copyTaskMeta (new parent : MmStruct) (m : Machine β) : Option (ℤ × MmStruct × Machine β) :=
  copyTaskMmSection new parent .metaData .normal m

/-- The loop of `copy_task_mmap` over the lists `nl` and `pl`. -/
def copyMmapLoop (parent : MmStruct) :
    ℕ → List ℕ → List ℕ → TaskPageTable → Machine β → Option (ℤ × TaskPageTable × Machine β)
  | 0, _, _, table, m => some (0, table, m)
  | count + 1, np :: nl, pp :: pl, table, m =>
    let (ret, table, frames) := pgtMapMmapPage table np (m.frames.mapAddress pp) m.frames
    if ret ≠ 0 then some (ret, table, { m with frames := frames })
    else
      let (base, frames) := pgtMapTempPage parent.pageTable np frames
      if base = 0 then some (-efault, table, { m with frames := frames })
      else
        (memcpyPage parent { m with frames := frames } base (pageToVa frames pp)).bind fun m =>
          copyMmapLoop parent count nl pl table m
  | _ + 1, _, _, _, _ => none

/-- `copy_task_mmap`. -/
def copyTaskMmap (new parent : MmStruct) (m : Machine β) : Option (ℤ × MmStruct × Machine β) :=
  let n := new.mmSection .mmap
  let p := parent.mmSection .mmap
  if n.allocPages ≠ p.allocPages then some (-einval, new, m)
  else if n.allocPages < 0 then none
  else
    (copyMmapLoop parent n.allocPages.toNat n.allocMem p.allocMem new.pageTable m).map
      fun (ret, table, m) => (ret, { new with pageTable := table }, m)

/-- The loop of `task_mm_copy_task_memory` that gives each section of the child as many pages
as the parent's section has. -/
def allocSections (parent : MmStruct) :
    List SectionId → MmStruct → Machine β → Option (ℤ × MmStruct × Machine β)
  | [], new, m => some (0, new, m)
  | i :: ids, new, m =>
    let nrPage := (parent.mmSection i).allocPages - (new.mmSection i).allocPages
    (sectionGetMemory nrPage (new.mmSection i) m).bind fun (ret, sec, m) =>
      let new := { new with mmSection := Function.update new.mmSection i sec }
      if ret = -enomem then some (ret, new, m) else allocSections parent ids new m

/-- One step of `task_mm_copy_task_memory` after another: an error frees the sections. -/
def orFree (res : Option (ℤ × MmStruct × Machine β))
    (next : MmStruct → Machine β → Option (ℤ × MmStruct × Machine β)) :
    Option (ℤ × MmStruct × Machine β) :=
  res.bind fun (ret, new, m) =>
    if ret ≠ 0 then some (-enomem, new, freeSectionsMemory new m) else next new m

/-- `task_mm_copy_task_memory`. -/
def taskMmCopyTaskMemory (new parent : MmStruct) (m : Machine β) :
    Option (ℤ × MmStruct × Machine β) :=
  orFree (allocSections parent sectionIds new m) fun new m =>
    orFree (copyTaskMeta new parent m) fun new m =>
      orFree (copyTaskStack new parent m) fun new m =>
        orFree (copyTaskMmap new parent m) fun new m =>
          orFree (copyTaskElf new parent m) fun new m => some (0, new, m)

end Chunos.TaskMm
