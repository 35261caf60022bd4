import Chunos.Mm.Pgt
import Chunos.Mm.Section

/-!
# The memory bank: mm/mm.c

At boot the platform registers the regions of physical memory. `mm_init` sorts them into
zones of at most four sections, takes memory for devices from the last kernel section if no
region is meant for it, gives the sections their places in the virtual address space, cuts
the array of `struct page` and the bitmaps for them from the memory behind the kernel image,
and moves what could not be mapped to the user zone. An `unsigned long` is a natural number
here and a `size_t`, which is an `int`, is an integer.
-/

namespace Chunos.Bank

open Function

open Pgt (kernelVirtualBase)

/-- `os/bound.h`, `SIZE_1M`. -/
def size1M : ℕ := 2 ^ 20

/-- `asm/cpu.h`, `ARCH_PDE_ALIGN_SIZE`: the memory of one entry of a page directory. -/
def pdeAlignSize : ℕ := 2 ^ 22

/-- `os/memory_map.h`, `KERNEL_VIRTUAL_SIZE`. -/
def kernelVirtualSize : ℕ := 2 ^ 30

/-- `os/memory_map.h`, `KERNEL_DMA_BASE`. -/
def kernelDmaBase : ℕ := 0xC0000000

/-- `os/memory_map.h`, `KERNEL_DMA_SIZE`. -/
def kernelDmaSize : ℕ := 2 ^ 27

/-- `os/soc.h`, `MEM_MAX_REGION`. -/
def memMaxRegion : ℕ := 16

/-- `ZONE_MAX_SECTION`: the slots of a zone. -/
def zoneMaxSection : ℕ := 4

/-- The value that an `unsigned long` keeps. -/
def u32 (x : ℤ) : ℕ := (x % 2 ^ 32).toNat

/-- `align`, for an address. -/
def alignUp (addr size : ℕ) : ℕ := (align (BitVec.ofNat 32 addr) (BitVec.ofNat 32 size)).toNat

/-- `min_align`, for an address. -/
def alignDown (addr size : ℕ) : ℕ :=
  (minAlign (BitVec.ofNat 32 addr) (BitVec.ofNat 32 size)).toNat

/-- `PDE_ALIGN`, for an address. -/
def pdeAlign (addr : ℕ) : ℕ := alignUp addr pdeAlignSize

/-- `PDE_MIN_ALIGN`. -/
def pdeMinAlign (addr : ℕ) : ℕ := alignDown addr pdeAlignSize

/-- `PDE_ALIGN`, for a `size_t`. -/
def pdeAlignSigned (size : ℤ) : ℤ :=
  (align (BitVec.ofInt 32 size) (BitVec.ofNat 32 pdeAlignSize)).toInt

/-- `os/bitops.h`, `bits_to_long`: meant as the words for `n` bits. -/
def bitsToLong (n : ℤ) : ℕ := ((BitVec.ofInt 32 n + 8#32) &&& 0xffffffc0#32).toNat / 32

/-- `os/soc.h`: what a region is for. All values from `UNKNOWN_MEM` on are the same. -/
inductive MemAttr where
  | normal
  | dma
  | res
  | unknown
  deriving DecidableEq, Repr

/-- `struct memory_region`. -/
structure MemoryRegion where
  start : ℕ
  size : ℕ
  attr : MemAttr
  deriving DecidableEq, Repr

/-- `struct soc_memory_info`, with the fields that the bank is built from. -/
structure SocMemoryInfo where
  codeEnd : ℕ
  kernelPhysicalStart : ℕ
  region : List MemoryRegion
  deriving DecidableEq, Repr

/-- `register_memory_region`. -/
def registerMemoryRegion (start : ℕ) (size : ℤ) (attr : MemAttr) (info : SocMemoryInfo) :
    SocMemoryInfo :=
  if info.region.length < memMaxRegion then
    let newStart := (baligin (BitVec.ofNat 32 start) (BitVec.ofNat 32 size1M)).toNat
    let size := wrap32 (size - (newStart - start))
    let size := (minAlign (BitVec.ofInt 32 size) (BitVec.ofNat 32 size1M)).toInt
    if u32 size % size1M = 0 ∧ (pageSize : ℤ) ≤ size then
      { info with region := info.region ++ [⟨newStart, size.toNat, attr⟩] }
    else info
  else info

/-- `mm_zone_t`. -/
inductive ZoneId where
  | kernel
  | dma
  | res
  | user
  deriving DecidableEq, Repr

/-- The zone of a region. -/
def MemAttr.zone : MemAttr → Option ZoneId
  | .normal => some .kernel
  | .dma => some .dma
  | .res => some .res
  | .unknown => none

/-- `struct mm_section`. The bitmap is given by its first word, counted from the start of all
bitmaps, and the page table by its first `struct page`. -/
structure Section where
  phyStart : ℕ := 0
  virStart : ℕ := 0
  size : ℤ := 0
  nrPage : ℤ := 0
  pvOffset : ℤ := 0
  mapedSize : ℤ := 0
  bmEnd : ℕ := 0
  bmCurrent : ℕ := 0
  nrFreePages : ℤ := 0
  bitmap : ℕ := 0
  sectionTableId : ℕ := 0
  pageTable : ℕ := 0
  deriving DecidableEq, Repr

/-- `struct mm_zone`. The list holds the slots that have been filled; the other slots are
zero, and every function that comes to one of them skips it. -/
structure Zone where
  memorySection : List Section := []
  nrSection : ℕ := 0
  mapBase : ℕ := 0
  pageNum : ℤ := 0
  nrFreePages : ℤ := 0
  deriving DecidableEq, Repr

/-- `struct mm_bank` with the section table, the words of all bitmaps and the array of
`struct page`. -/
structure MmBank where
  zone : ZoneId → Zone
  words : Bitmap
  page : ℕ → Page
  sectionTable : List (ZoneId × ℕ)

section Regions

/-- The inner loop of the sort: the region with the smallest start. -/
def minRegion (min : MemoryRegion) : List MemoryRegion → MemoryRegion
  | [] => min
  | r :: rest => minRegion (if min.start > r.start then r else min) rest

/-- The outer loop of the sort: the smallest region changes places with the first one. -/
def sortRegions : ℕ → List MemoryRegion → List MemoryRegion
  | 0, region => region
  | _ + 1, [] => []
  | n + 1, r :: rest =>
    let min := minRegion r rest
    min :: sortRegions n (rest.replace min r)

/-- `insert_region_to_zone`. -/
def insertRegionToZone (region : MemoryRegion) (zone : Zone) : Zone :=
  let endAddr := alignDown (region.start + region.size) pageSize
  let baseAddr := alignUp region.start pageSize
  let size := wrap32 (endAddr - baseAddr)
  if size < pageSize then zone
  else if zone.nrSection = zoneMaxSection then zone
  else
    let nrPage := size / pageSize
    { zone with
      memorySection := zone.memorySection ++
        [{ phyStart := baseAddr, nrPage := nrPage, nrFreePages := nrPage, size := size }]
      nrSection := zone.nrSection + 1
      pageNum := zone.pageNum + nrPage
      nrFreePages := zone.pageNum + nrPage }

/-- One region of the second loop of `get_memory_sections`. -/
def insertRegion (zone : ZoneId → Zone) (region : MemoryRegion) : ZoneId → Zone :=
  match region.attr.zone with
  | none => zone
  | some z => update zone z (insertRegionToZone region (zone z))

/-- `get_memory_sections`. Without any region the kernel stops. -/
def getMemorySections (info : SocMemoryInfo) : Option (ZoneId → Zone) :=
  if info.region = [] then none
  else some ((sortRegions info.region.length info.region).foldl insertRegion fun _ => {})

/-- The pages that `alloc_dma_section` takes. -/
def dmaPages (pageNum : ℤ) : ℤ :=
  let size := pageNum / 16
  if size * pageSize > kernelDmaSize then kernelDmaSize / pageSize else size

/-- `alloc_dma_section`. It is `none` when the kernel zone has no section. -/
def allocDmaSection (zone : ZoneId → Zone) : Option (ZoneId → Zone) :=
  (zone .kernel).memorySection.getLast?.map fun pr =>
    let size := dmaPages (zone .kernel).pageNum
    let rtmp : MemoryRegion :=
      { start := u32 (pr.phyStart + (pr.nrPage - size) * pageSize)
        size := u32 (size * pageSize)
        attr := .dma }
    let pr := { pr with
      nrPage := pr.nrPage - size
      nrFreePages := pr.nrFreePages - size
      size := pr.size - size * pageSize }
    let kernel := { zone .kernel with
      memorySection := (zone .kernel).memorySection.dropLast ++ [pr]
      pageNum := (zone .kernel).pageNum - size
      nrFreePages := (zone .kernel).pageNum - size }
    update (update zone .kernel kernel) .dma
      (insertRegionToZone rtmp (zone .dma))

/-- `analyse_soc_memory_info`. -/
def analyseSocMemoryInfo (info : SocMemoryInfo) : Option (ZoneId → Zone) :=
  (getMemorySections info).bind fun zone =>
    if (zone .dma).nrSection = 0 then allocDmaSection zone else some zone

end Regions

section Windows

/-- A section is given the window of `mapSize` bytes at `mapBase`. -/
def Section.place (s : Section) (mapBase : ℕ) (mapSize : ℤ) : Section :=
  { s with virStart := mapBase, pvOffset := wrap32 (mapBase - s.phyStart), mapedSize := mapSize }

/-- The loop of `map_zone_memory`: the sections, and the `map_base` that it ends with. -/
def mapSectionsLoop (zoneMapEnd : ℕ) : List Section → ℕ → List Section × ℕ
  | [], mapBase => ([], mapBase)
  | s :: rest, mapBase =>
    if s.mapedSize ≠ 0 then
      let (rest, last) := mapSectionsLoop zoneMapEnd rest mapBase
      (s :: rest, last)
    else
      let mapBase := u32 (mapBase + (s.phyStart - pdeMinAlign s.phyStart))
      let mapSize := wrap32 (zoneMapEnd - mapBase)
      let mapSize := if mapSize > s.size then s.size else mapSize
      let s := s.place mapBase mapSize
      let mapBase := pdeAlign (u32 (mapBase + mapSize))
      if mapBase = zoneMapEnd then (s :: rest, mapBase)
      else
        let (rest, last) := mapSectionsLoop zoneMapEnd rest mapBase
        (s :: rest, last)

/-- `map_zone_memory`. -/
def mapZoneMemory (zone : Zone) (size : ℤ) : Zone :=
  if size ≤ 0 then zone
  else
    let zoneMapEnd := u32 (zone.mapBase + size)
    if zone.mapBase = zoneMapEnd then zone
    else
      let (sections, mapBase) := mapSectionsLoop zoneMapEnd zone.memorySection zone.mapBase
      { zone with memorySection := sections, mapBase := mapBase }

/-- The loop of `map_kernel_memory`: the section of the kernel image is mapped first. -/
def mapKernelLoop (kernelPhysicalStart mapBase : ℕ) : List Section → Option (ℤ × List Section)
  | [] => none
  | s :: rest =>
    if s.phyStart = kernelPhysicalStart then
      let size := if s.size > kernelVirtualSize then (kernelVirtualSize : ℤ) else s.size
      some (size, s.place mapBase size :: rest)
    else
      (mapKernelLoop kernelPhysicalStart mapBase rest).map fun (size, rest) => (size, s :: rest)

/-- `map_kernel_memory`. The local variable `size` keeps its old content `junk` when no section
starts where the kernel has been loaded. -/
def mapKernelMemory (junk : ℤ) (kernelPhysicalStart : ℕ) (zone : Zone) : Zone :=
  let zone := { zone with mapBase := kernelVirtualBase }
  match mapKernelLoop kernelPhysicalStart kernelVirtualBase zone.memorySection with
  | none => mapZoneMemory zone (wrap32 (kernelVirtualSize - pdeAlignSigned junk))
  | some (size, sections) =>
    mapZoneMemory
      { zone with
        memorySection := sections
        mapBase := u32 (kernelVirtualBase + pdeAlignSigned size) }
      (wrap32 (kernelVirtualSize - pdeAlignSigned size))

/-- `map_dma_memory`. -/
def mapDmaMemory (zone : Zone) : Zone :=
  mapZoneMemory { zone with mapBase := kernelDmaBase } kernelDmaSize

/-- `map_res_memory`: reserved memory is mapped behind that of the kernel. -/
def mapResMemory (kernel zone : Zone) : Zone :=
  mapZoneMemory { zone with mapBase := kernel.mapBase }
    (wrap32 (kernelVirtualBase + kernelVirtualSize - kernel.mapBase))

/-- The first three calls of `map_memory`. -/
def mapMemory (junk : ℤ) (kernelPhysicalStart : ℕ) (zone : ZoneId → Zone) : ZoneId → Zone :=
  let kernel := mapKernelMemory junk kernelPhysicalStart (zone .kernel)
  fun
  | .kernel => kernel
  | .dma => mapDmaMemory (zone .dma)
  | .res => mapResMemory kernel (zone .res)
  | .user => zone .user

end Windows

section Directory

/-- `x86_build_pde_entry`: a present entry of 4 MB that can be written, not cached for devices. -/
def buildPdeEntry (pa : ℕ) (dma : Bool) : ℕ := pa ||| 0x83 ||| if dma then 0x10 else 0

/-- The loop of `build_kernel_pde_entry`, with the number of entries left. -/
def buildPdeLoop (dma : Bool) : ℕ → ℕ → ℕ → (ℕ → ℕ) → ℕ → ℕ
  | 0, _, _, pde => pde
  | left + 1, slot, pa, pde =>
    buildPdeLoop dma left (slot + 1) (u32 (pa + pdeAlignSize))
      (update pde slot (buildPdeEntry pa dma))

/-- `build_kernel_pde_entry` on the boot page directory, a function from the numbers of the
entries to their words. A size that is no multiple of 4 MB is refused. It is `none` for a
negative one, with which the loop runs past the end of the directory. -/
def buildKernelPdeEntry (vstart pstart : ℕ) (size : ℤ) (dma : Bool) (pde : ℕ → ℕ) :
    Option (ℕ → ℕ) :=
  if u32 size % pdeAlignSize ≠ 0 then some pde
  else if size < 0 then none
  else
    some (buildPdeLoop dma (size / pdeAlignSize).toNat (pdeMinAlign vstart / pdeAlignSize)
      (pdeMinAlign pstart) pde)

/-- `map_boot_section`: the part of a section behind the first `mapped` bytes. -/
def mapBootSection (s : Section) (mapped : ℤ) (dma : Bool) (pde : ℕ → ℕ) : Option (ℕ → ℕ) :=
  let vstart := u32 (kernelVirtualBase + mapped)
  let msize := wrap32 (s.mapedSize - mapped)
  let pstart := u32 (s.phyStart + (vstart - s.virStart))
  if msize > 0 then buildKernelPdeEntry vstart pstart msize dma pde else some pde

/-- The bytes that `boot.S` has mapped, rounded up. -/
def alreadyMap (info : SocMemoryInfo) : ℕ := pdeAlign (u32 (info.codeEnd - kernelVirtualBase))

/-- One section of the loops of `do_map_kernel_memory`. -/
def mapSection (already : ℕ) (dma : Bool) (pde : ℕ → ℕ) (s : Section) : Option (ℕ → ℕ) :=
  if s.mapedSize = 0 then some pde
  else if s.virStart ≤ kernelVirtualBase ∧ kernelVirtualBase < u32 (s.virStart + s.size) then
    mapBootSection s (wrap32 already) dma pde
  else buildKernelPdeEntry s.virStart s.phyStart s.mapedSize dma pde

/-- `do_map_kernel_memory`. -/
def doMapKernelMemory (info : SocMemoryInfo) (zone : ZoneId → Zone) (pde : ℕ → ℕ) :
    Option (ℕ → ℕ) := do
  let pde ← (zone .kernel).memorySection.foldlM (mapSection (alreadyMap info) false) pde
  let pde ← (zone .dma).memorySection.foldlM (mapSection (alreadyMap info) true) pde
  (zone .res).memorySection.foldlM (mapSection (alreadyMap info) false) pde

/-- How the processor translates an address with an entry of 4 MB. -/
def translate (pde : ℕ → ℕ) (va : ℕ) : Option ℕ :=
  let entry := pde (va / pdeAlignSize)
  if entry.testBit 0 ∧ entry.testBit 7 then
    some (entry / pdeAlignSize * pdeAlignSize + va % pdeAlignSize)
  else none

end Directory

section Tables

/-- The loop of `init_sections_page_table` over a zone, with the next free entry. -/
def placePageTables : List Section → ℕ → List Section × ℕ
  | [], next => ([], next)
  | s :: rest, next =>
    let (rest, last) := placePageTables rest (next + s.nrPage).toNat
    ({ s with pageTable := next } :: rest, last)

/-- The loop of `init_sections_bitmap` over a zone, with the next free word. -/
def placeBitmaps : List Section → ℕ → List Section × ℕ
  | [], next => ([], next)
  | s :: rest, next =>
    let (rest, last) := placeBitmaps rest (next + bitsToLong s.nrPage)
    ({ s with bitmap := next, bmCurrent := 0, bmEnd := u32 s.nrPage } :: rest, last)

/-- A loop over the sections of all zones, in their order. The user zone is still empty. -/
def overZones (loop : List Section → ℕ → List Section × ℕ) (zone : ZoneId → Zone) :
    (ZoneId → Zone) × ℕ :=
  let (kernel, next) := loop (zone .kernel).memorySection 0
  let (dma, next) := loop (zone .dma).memorySection next
  let (res, next) := loop (zone .res).memorySection next
  (fun
    | .kernel => { zone .kernel with memorySection := kernel }
    | .dma => { zone .dma with memorySection := dma }
    | .res => { zone .res with memorySection := res }
    | .user => zone .user, next)

/-- `init_sections_page_table`: the sections, and the entries of the whole array. -/
def initSectionsPageTable (zone : ZoneId → Zone) : (ZoneId → Zone) × ℕ :=
  overZones placePageTables zone

/-- `init_sections_bitmap`: the sections, and the words of all bitmaps. -/
def initSectionsBitmap (zone : ZoneId → Zone) : (ZoneId → Zone) × ℕ :=
  overZones placeBitmaps zone

/-- The words from a position on. -/
def wordsFrom (words : Bitmap) (k : ℕ) : Bitmap := fun w => words (k + w)

/-- Put the words from a position on back. -/
def spliceWords (words : Bitmap) (k : ℕ) (bitmap : Bitmap) : Bitmap :=
  fun w => if k ≤ w then bitmap (w - k) else words w

/-- The loop of `update_boot_section_info`, for the array of `struct page`. -/
def bootPagesLoop (pvOffset : ℤ) : ℕ → ℕ → ℕ → (ℕ → Page) → ℕ → Page
  | 0, _, _, page => page
  | left + 1, pg, tmp, page =>
    bootPagesLoop pvOffset left (pg + 1) (u32 (tmp + pageSize))
      (update page pg
        { page pg with
          phyAddress := u32 (tmp - pvOffset), mapAddress := tmp, count := 1, flag := 1 })

/-- `update_boot_section_info`, for the section in a slot of the kernel zone. -/
def updateBootSectionInfo (bank : MmBank) (slot : ℕ) (s : Section) (bootPages : ℕ) : MmBank :=
  if s.virStart ≠ kernelVirtualBase then bank
  else
    let kernel := bank.zone .kernel
    { bank with
      zone := update bank.zone .kernel
        { kernel with
          memorySection := kernel.memorySection.modify slot fun s =>
            { s with bmCurrent := bootPages, nrFreePages := s.nrFreePages - bootPages } }
      words := spliceWords bank.words s.bitmap
        (updateMemoryBitmap (wordsFrom bank.words s.bitmap) 0 bootPages true)
      page := bootPagesLoop s.pvOffset bootPages s.pageTable s.virStart bank.page }

/-- `sizeof(struct page)`, which is packed. -/
def sizeofPage : ℕ := 28

/-- The end of the kernel image, the array of `struct page` and the bitmaps, in pages from the
virtual base of the kernel. -/
def bootPages (info : SocMemoryInfo) (nrPages nrWords : ℕ) : ℕ :=
  let baseAddr := alignUp info.codeEnd 4
  let baseAddr := alignUp (u32 (baseAddr + sizeofPage * nrPages)) 4
  let baseAddr := alignUp (u32 (baseAddr + 4 * nrWords)) pageSize
  u32 (baseAddr - kernelVirtualBase) / pageSize

/-- `memset` of a `struct page`. -/
def zeroPage : Page := ⟨0, 0, 0, 0, 0, 0⟩

/-- The section that the loop of `init_page_table` stops at: the one at the virtual base of the
kernel, or else the last one. -/
def bootSlot (sections : List Section) : ℕ :=
  (sections.findIdx? fun s => s.virStart = kernelVirtualBase).getD (sections.length - 1)

/-- `init_page_table`. The kernel stops when its zone has no section. -/
def initPageTable (info : SocMemoryInfo) (bank : MmBank) : Option MmBank :=
  let (zone, nrPages) := initSectionsPageTable bank.zone
  let (zone, nrWords) := initSectionsBitmap zone
  let size := bootPages info nrPages nrWords
  let kernel := zone .kernel
  kernel.memorySection[bootSlot kernel.memorySection]?.map fun s =>
    updateBootSectionInfo
      { bank with
        zone := update zone .kernel
          { kernel with nrFreePages := wrap32 (kernel.nrFreePages - size) }
        words := fun w => if w < nrWords then 0 else bank.words w
        page := fun i => if i < nrPages then zeroPage else bank.page i }
      (bootSlot kernel.memorySection) s size

end Tables

section UserZone

/-- The section of the user zone for what is not mapped of a section. -/
def userSection (s : Section) : Section :=
  let nrPage := s.nrPage - s.mapedSize / pageSize
  { phyStart := u32 (s.phyStart + s.mapedSize)
    virStart := 0
    pvOffset := 0
    nrPage := nrPage
    size := nrPage * pageSize
    mapedSize := 0
    bmEnd := u32 nrPage
    bmCurrent := 0
    nrFreePages := nrPage
    bitmap := s.bitmap + bitsToLong (s.mapedSize / pageSize)
    pageTable := (s.pageTable + s.mapedSize / pageSize).toNat }

/-- What remains of a section. A section without a mapped part is cleared. -/
def mappedSection (s : Section) : Section :=
  let nrPage := s.nrPage - (userSection s).nrPage
  if s.mapedSize = 0 then {}
  else
    { s with
      nrPage := nrPage
      nrFreePages := s.nrFreePages - (userSection s).nrPage
      size := s.size - (userSection s).size
      bmEnd := u32 nrPage }

/-- The loop of `init_user_zone` over the sections of the kernel zone. -/
def initUserZoneLoop : List Section → Zone → Zone → List Section × Zone × Zone
  | [], zone, uzone => ([], zone, uzone)
  | s :: rest, zone, uzone =>
    if s.mapedSize < s.nrPage * pageSize then
      let usection := userSection s
      let uzone := { uzone with
        memorySection := uzone.memorySection ++ [usection]
        nrSection := uzone.nrSection + 1
        pageNum := uzone.pageNum + usection.nrPage
        nrFreePages := uzone.nrFreePages + usection.nrFreePages }
      let zone := { zone with
        nrSection := if s.mapedSize = 0 then zone.nrSection - 1 else zone.nrSection
        pageNum := zone.pageNum - usection.nrPage
        nrFreePages := zone.nrFreePages - usection.nrPage }
      let (rest, zones) := initUserZoneLoop rest zone uzone
      (mappedSection s :: rest, zones)
    else
      let (rest, zones) := initUserZoneLoop rest zone uzone
      (s :: rest, zones)

/-- `init_user_zone`. -/
def initUserZone (zone : ZoneId → Zone) : ZoneId → Zone :=
  let (sections, kernel, user) :=
    initUserZoneLoop (zone .kernel).memorySection (zone .kernel) (zone .user)
  fun
  | .kernel => { kernel with memorySection := sections }
  | .user => user
  | z => zone z

/-- The inner loop of `update_section_table`, from slot `j` of a zone on. -/
def numberSections (z : ZoneId) : List Section → ℕ → List (ZoneId × ℕ) →
    List Section × List (ZoneId × ℕ)
  | [], _, table => ([], table)
  | s :: rest, j, table =>
    if s.size = 0 then
      let (rest, table) := numberSections z rest (j + 1) table
      (s :: rest, table)
    else
      let (rest, table') := numberSections z rest (j + 1) (table ++ [(z, j)])
      ({ s with sectionTableId := table.length } :: rest, table')

/-- `update_section_table`. -/
def updateSectionTable (bank : MmBank) : MmBank :=
  let (kernel, table) := numberSections .kernel (bank.zone .kernel).memorySection 0 []
  let (dma, table) := numberSections .dma (bank.zone .dma).memorySection 0 table
  let (res, table) := numberSections .res (bank.zone .res).memorySection 0 table
  let (user, table) := numberSections .user (bank.zone .user).memorySection 0 table
  { bank with
    zone := fun
      | .kernel => { bank.zone .kernel with memorySection := kernel }
      | .dma => { bank.zone .dma with memorySection := dma }
      | .res => { bank.zone .res with memorySection := res }
      | .user => { bank.zone .user with memorySection := user }
    sectionTable := table }

end UserZone

/-- `mm_init`, in memory of any content. -/
def mmInit (junk : ℤ) (info : SocMemoryInfo) (words : Bitmap) (page : ℕ → Page) : Option MmBank :=
  (analyseSocMemoryInfo info).bind fun zone =>
    let zone := mapMemory junk info.kernelPhysicalStart zone
    (initPageTable info { zone := zone, words := words, page := page, sectionTable := [] }).map
      fun bank => updateSectionTable { bank with zone := initUserZone bank.zone }

end Chunos.Bank
