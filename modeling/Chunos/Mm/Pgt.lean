import Chunos.Basic

/-!
# Task page tables

The functions of `mm/pgt.c` that map pages into the address space of a task, with the
constants of x86: a page directory of 1024 entries, each for 4 MB, and tables of 1024
entries. Page frames are numbered by their physical address. Kernel memory is mapped
linearly, so a pointer of the kernel into a page table is written as a physical address.
-/

namespace Chunos.Pgt

/-- `PDE_MAP_SIZE` and `MAP_SIZE_PER_PAGE`: the bytes that one directory entry maps. -/
def pdeMapSize : ℕ := 4 * 1024 * 1024

/-- `PDE_ENTRY_SHIFT`: the logarithm of `PDE_MAP_SIZE`. -/
def pdeEntryShift : ℕ := 22

/-- `PDE_ENTRY_SIZE` and `PTE_ENTRY_SIZE`: the bytes of an entry. -/
def entrySize : ℕ := 4

/-- `PTES_PER_PDE`: the entries of a table. -/
def ptesPerPde : ℕ := 1024

/-- `KERNEL_VIRTUAL_BASE`: user addresses are below this address. -/
def kernelVirtualBase : ℕ := 0x80000000

/-- `KERNEL_TEMP_BUFFER_BASE`: the address of the temporary mapping. -/
def kernelTempBufferBase : ℕ := 0xEC000000

/-- `min_align` on an address. -/
def addrMinAlign (addr size : ℕ) : ℕ :=
  (minAlign (BitVec.ofNat 32 addr) (BitVec.ofNat 32 size)).toNat

/-- `struct pte_cache_list`: the frames for tables. `pteCurrentPage` counts those that have
been fetched again since the list was reset. -/
structure PteCacheList where
  pteList : List ℕ
  pteAllocSize : ℕ
  pteFreeSize : ℕ
  pteCurrentPage : ℕ

/-- `struct task_page_table`. -/
structure TaskPageTable where
  pdeBase : ℕ
  taskList : PteCacheList
  mmapList : PteCacheList
  tbufPteBase : ℕ

/-- The words in the frames of page tables, the field `map_address` of each `struct page`,
and the frames that `request_pages` will give out. -/
structure Frames where
  word : ℕ → ℕ
  mapAddress : ℕ → ℕ
  supply : List ℕ

/-- `page_to_pa`. -/
def pageToPa (page : ℕ) : ℕ := pageSize * page

/-- `request_pages(1, flag)`. -/
def requestPage (s : Frames) : Option (ℕ × Frames) :=
  match s.supply with
  | [] => none
  | page :: supply => some (page, { s with supply := supply })

/-- `memset(addr, 0, PAGE_SIZE)`. -/
def clearPage (s : Frames) (addr : ℕ) : Frames :=
  { s with word := fun a => if addr ≤ a ∧ a < addr + pageSize then 0 else s.word a }

/-- `mmu_create_pde_entry` and `mmu_create_pte_entry`: a present, writable user entry. -/
def createEntry (s : Frames) (addr pa : ℕ) : Frames :=
  { s with word := Function.update s.word addr (pa ||| 7) }

/-- `mmu_pde_entry_to_pa`. -/
def pdeEntryToPa (entry : ℕ) : ℕ := entry &&& 0xfffff000

/-- `page_set_map_address`. -/
def setMapAddress (s : Frames) (page addr : ℕ) : Frames :=
  { s with mapAddress := Function.update s.mapAddress page addr }

/-- `alloc_new_pte_page`: a frame for a table, from the list when it has frames left. -/
def allocNewPtePage (clist : PteCacheList) (s : Frames) : Option (ℕ × PteCacheList × Frames) :=
  if clist.pteFreeSize = 0 then
    (requestPage s).map fun (page, s) =>
      (page,
        { clist with
          pteList := clist.pteList ++ [page]
          pteAllocSize := clist.pteAllocSize + pageSize },
        clearPage s (pageToPa page))
  else
    clist.pteList[clist.pteCurrentPage]?.map fun page =>
      (page,
        { clist with
          pteCurrentPage := clist.pteCurrentPage + 1
          pteFreeSize := clist.pteFreeSize - pageSize },
        clearPage s (pageToPa page))

/-- `pgt_get_pde_entry_addr`. -/
def pgtGetPdeEntryAddr (base mbase : ℕ) : ℕ := base + (mbase >>> pdeEntryShift) * entrySize

/-- `pgt_get_pte_entry_addr`. -/
def pgtGetPteEntryAddr (base mbase : ℕ) : ℕ :=
  base + ((mbase % pdeMapSize) >>> pageShift) * entrySize

/-- `pgt_map_new_pde_entry`: a new table for the addresses around `userAddress`. -/
def pgtMapNewPdeEntry (clist : PteCacheList) (pdeBase userAddress : ℕ) (s : Frames) :
    Option (ℕ × PteCacheList × Frames) :=
  let userBase := addrMinAlign userAddress pdeMapSize
  let pde := pgtGetPdeEntryAddr pdeBase userBase
  (allocNewPtePage clist s).map fun (page, clist, s) =>
    (page, clist, createEntry s pde (pageToPa page))

/-- `page_to_va`. For a page of the kernel this is its address in kernel memory, which is
written as a physical address here. -/
def pageToVa (s : Frames) (page : ℕ) : ℕ := s.mapAddress page &&& 0xfffff000

/-- `pgt_get_mapped_pte_addr`: the address of the entry for `mapAddress`, in a new table when
there is none. -/
def pgtGetMappedPteAddr (table : TaskPageTable) (mapAddress : ℕ) (s : Frames) :
    Option (ℕ × TaskPageTable × Frames) :=
  let pte := pdeEntryToPa (s.word (pgtGetPdeEntryAddr table.pdeBase mapAddress))
  if pte = 0 then
    (pgtMapNewPdeEntry table.taskList table.pdeBase mapAddress s).map fun (page, clist, s) =>
      (pgtGetPteEntryAddr (pageToPa page) mapAddress, { table with taskList := clist }, s)
  else some (pgtGetPteEntryAddr pte mapAddress, table, s)

/-- `pgt_map_temp_page`: map a page at the temporary address. -/
def pgtMapTempPage (table : TaskPageTable) (page : ℕ) (s : Frames) : ℕ × Frames :=
  (kernelTempBufferBase, createEntry s table.tbufPteBase (pageToPa page))

/-- Map one page at `base` through the entry at address `pte`. -/
def mapEntry (s : Frames) (pte page base : ℕ) : Frames :=
  setMapAddress (createEntry s pte (pageToPa page)) page base

/-- The loop of `pgt_map_stack_memory`, from the page below `base` downwards. -/
def mapStackLoop : List ℕ → ℕ → ℕ → ℕ → TaskPageTable → Frames → ℤ × TaskPageTable × Frames
  | [], _, _, _, table, s => (0, table, s)
  | page :: list, base, pte, pteEnd, table, s =>
    let base := base - pageSize
    let fetched :=
      if pte = pteEnd then
        (pgtGetMappedPteAddr table base s).map fun (pte, table, s) =>
          (pte, addrMinAlign (pte - ptesPerPde) ptesPerPde - entrySize, table, s)
      else some (pte, pteEnd, table, s)
    match fetched with
    | none => (-enomem, table, s)
    | some (pte, pteEnd, table, s) =>
      mapStackLoop list base (pte - entrySize) pteEnd table (mapEntry s pte page base)

/-- `pgt_map_stack_memory`. -/
def pgtMapStackMemory (table : TaskPageTable) (memList : List ℕ) (mapBase : ℕ) (s : Frames) :
    ℤ × TaskPageTable × Frames :=
  if mapBase = 0 then (-einval, table, s) else mapStackLoop memList mapBase 0 0 table s

/-- The loop of `pgt_map_normal_memory`, from `base` upwards. The address of the entry is
always fetched for `mapBase`. -/
def mapNormalLoop (mapBase : ℕ) :
    List ℕ → ℕ → ℕ → ℕ → TaskPageTable → Frames → ℤ × TaskPageTable × Frames
  | [], _, _, _, table, s => (0, table, s)
  | page :: list, base, pte, pteEnd, table, s =>
    let fetched :=
      if pte = pteEnd then
        (pgtGetMappedPteAddr table mapBase s).map fun (pte, table, s) =>
          (pte, addrMinAlign (pte + ptesPerPde) ptesPerPde, table, s)
      else some (pte, pteEnd, table, s)
    match fetched with
    | none => (-enomem, table, s)
    | some (pte, pteEnd, table, s) =>
      mapNormalLoop mapBase list (base + pageSize) (pte + entrySize) pteEnd table
        (mapEntry s pte page base)

/-- `pgt_map_normal_memory`. -/
def pgtMapNormalMemory (table : TaskPageTable) (memList : List ℕ) (mapBase : ℕ) (s : Frames) :
    ℤ × TaskPageTable × Frames :=
  if mapBase = 0 then (-einval, table, s) else mapNormalLoop mapBase memList mapBase 0 0 table s

/-- `PGT_MAP_NORMAL` and `PGT_MAP_STACK`. -/
inductive MapType where
  | normal
  | stack
deriving DecidableEq

/-- `pgt_map_task_memory`. -/
def pgtMapTaskMemory (table : TaskPageTable) (memList : List ℕ) (mapBase : ℕ) (type : MapType)
    (s : Frames) : ℤ × TaskPageTable × Frames :=
  match type with
  | .stack => pgtMapStackMemory table memList mapBase s
  | .normal => pgtMapNormalMemory table memList mapBase s

/-- `pgt_map_mmap_page`, without the count of entries in use. -/
def pgtMapMmapPage (table : TaskPageTable) (page userAddr : ℕ) (s : Frames) :
    ℤ × TaskPageTable × Frames :=
  let pte := pdeEntryToPa (s.word (pgtGetPdeEntryAddr table.pdeBase userAddr))
  let found :=
    if pte = 0 then
      (pgtMapNewPdeEntry table.mmapList table.pdeBase userAddr s).map fun (page, clist, s) =>
        (pageToPa page, { table with mmapList := clist }, s)
    else some (pte, table, s)
  match found with
  | none => (-enomem, table, s)
  | some (pte, table, s) => (0, table, mapEntry s (pgtGetPteEntryAddr pte userAddr) page userAddr)

/-- The translation of an address by the processor: both entries have to be present. -/
def translate (word : ℕ → ℕ) (pdeBase va : ℕ) : Option ℕ :=
  let pde := word (pgtGetPdeEntryAddr pdeBase va)
  if pde.testBit 0 then
    let pte := word (pgtGetPteEntryAddr (pdeEntryToPa pde) va)
    if pte.testBit 0 then some (pte / pageSize) else none
  else none

end Chunos.Pgt
