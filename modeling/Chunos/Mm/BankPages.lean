import Chunos.Lib.Runs
import Chunos.Mm.BankPartition

/-!
# The page allocator: mm/mm.c

The functions that take pages from the zones of the memory bank and give them back. A request
goes through the sections of the zone that its flag names, and then through the other zones. A
section is worked on by the functions for one section, on its part of the bitmaps and of the
array of `struct page`. A pointer to a `struct page` is its index in that array. The zone
mutexes are not part of the model: a call is one step here.
-/

namespace Chunos.Bank

open Runs

/-- The zone and the slot of a section. -/
abbrev Place := ZoneId × ℕ

/-- The section in a slot. -/
def MmBank.slot (bank : MmBank) (place : Place) : Option Section :=
  (bank.zone place.1).memorySection[place.2]?

/-- A section with its part of the bitmaps and of the array of `struct page`. -/
def Section.view (s : Section) (bank : MmBank) : MmSection where
  phyStart := s.phyStart
  virStart := s.virStart
  nrPage := s.nrPage.toNat
  bmEnd := s.bmEnd
  bmCurrent := s.bmCurrent
  nrFreePages := s.nrFreePages
  bitmap := wordsFrom bank.words s.bitmap
  sectionTableId := s.sectionTableId
  pageTable := fun i => bank.page (s.pageTable + i)

/-- The section after a function for one section has changed it. -/
def Section.after (s : Section) (v : MmSection) : Section :=
  { s with bmCurrent := v.bmCurrent, nrFreePages := v.nrFreePages }

/-- Put a section back. -/
def MmBank.put (bank : MmBank) (place : Place) (s : Section) (v : MmSection) : MmBank :=
  { bank with
    zone := Function.update bank.zone place.1
      { bank.zone place.1 with
        memorySection := (bank.zone place.1).memorySection.set place.2 (s.after v) }
    words := spliceWords bank.words s.bitmap v.bitmap
    page := fun p => if s.pageTable ≤ p then v.pageTable (p - s.pageTable) else bank.page p }

/-- `zone->nr_free_pages += n`. -/
def MmBank.addFree (bank : MmBank) (z : ZoneId) (n : ℤ) : MmBank :=
  { bank with
    zone := Function.update bank.zone z
      { bank.zone z with nrFreePages := (bank.zone z).nrFreePages + n } }

/-- The zone with this number, if it is less than `MM_ZONE_UNKNOWN`. -/
def zoneOfId : ℕ → Option ZoneId
  | 0 => some .kernel
  | 1 => some .dma
  | 2 => some .res
  | 3 => some .user
  | _ => none

/-- The pages that a request gets. -/
structure Grant where
  /-- What is returned: the address, or the first `struct page`. -/
  ret : ℕ
  place : Place
  /-- The first `struct page`. -/
  head : ℕ
  deriving DecidableEq, Repr

/-- What `get_free_pages_from_section` returns, unless it is 0. The address is an
`unsigned long`. -/
def Section.grant (s : Section) (place : Place) : PagesRet → Option Grant
  | .null => none
  | .va addr =>
    if u32 addr = 0 then none
    else some ⟨u32 addr, place, s.pageTable + (addr - s.virStart) >>> pageShift⟩
  | .page index => some ⟨s.pageTable + index, place, s.pageTable + index⟩

/-- The loop of `__get_free_pages_from_zone`, from slot `j` on. -/
def sectionLoop (fuel count flag : ℕ) (vp : Bool) (z : ZoneId) :
    List Section → ℕ → MmBank → Option (Option Grant × MmBank)
  | [], _, bank => some (none, bank)
  | s :: rest, j, bank =>
    if s.size = 0 ∨ s.nrFreePages < count then sectionLoop fuel count flag vp z rest (j + 1) bank
    else
      (getFreePagesFromSection fuel (s.view bank) count flag vp).bind fun (ret, v, _) =>
        let bank := bank.put (z, j) s v
        match s.grant (z, j) ret with
        | some grant => some (some grant, bank)
        | none => sectionLoop fuel count flag vp z rest (j + 1) bank

/-- `__get_free_pages_from_zone`. -/
def getFreePagesFromZone (fuel count flag : ℕ) (vp : Bool) (bank : MmBank) (z : ZoneId) :
    Option (Option Grant × MmBank) :=
  if (bank.zone z).nrFreePages < count then some (none, bank)
  else
    (sectionLoop fuel count flag vp z (bank.zone z).memorySection 0 bank).map fun
      | (none, bank) => (none, bank)
      | (some grant, bank) => (some grant, bank.addFree z (-count))

/-- The zones that `__get_free_pages` tries for a request, in their order. -/
def zonesFrom : ZoneId → List ZoneId
  | .user => [.user, .kernel, .dma, .res]
  | .kernel => [.kernel, .dma, .res]
  | .dma => [.dma, .res]
  | .res => [.res]

/-- The loop of `__get_free_pages`. -/
def zoneLoop (fuel count flag : ℕ) (vp : Bool) :
    List ZoneId → MmBank → Option (Option Grant × MmBank)
  | [], bank => some (none, bank)
  | z :: zones, bank =>
    (getFreePagesFromZone fuel count flag vp bank z).bind fun
      | (some grant, bank) => some (some grant, bank)
      | (none, bank) => zoneLoop fuel count flag vp zones bank

/-- `__get_free_pages`. -/
def getFreePagesAny (fuel count flag : ℕ) (vp : Bool) (bank : MmBank) :
    Option (Option Grant × MmBank) :=
  (getZoneId fuel flag).bind fun id =>
    match zoneOfId id with
    | none => some (none, bank)
    | some z => zoneLoop fuel count flag vp (zonesFrom z) bank

/-- `request_pages`. -/
def requestPages (fuel : ℕ) (count : ℤ) (flag : ℕ) (bank : MmBank) :
    Option (Option Grant × MmBank) :=
  if count < 0 then some (none, bank) else getFreePagesAny fuel count.toNat flag false bank

/-- `get_free_pages`. -/
def getFreePages (fuel : ℕ) (count : ℤ) (flag : ℕ) (bank : MmBank) :
    Option (Option Grant × MmBank) :=
  if count ≤ 0 ∨ flag &&& gfpUser ≠ 0 then some (none, bank)
  else getFreePagesAny fuel count.toNat flag true bank

/-- The sections of the section table, in its order. -/
def MmBank.tabled (bank : MmBank) : List (Place × Section) :=
  bank.sectionTable.filterMap fun place => (bank.slot place).map fun s => (place, s)

/-- `va_get_section`. -/
def vaGetSection (bank : MmBank) (va : ℕ) : Option (Place × Section) :=
  bank.tabled.find? fun (_, s) => s.virStart ≤ va ∧ va < u32 (s.virStart + s.size)

/-- `section_va_to_page`. -/
def Section.vaToPage (s : Section) (va : ℕ) : ℕ := s.pageTable + (va - s.virStart) >>> pageShift

/-- `page_get_section`. -/
def pageGetSection (bank : MmBank) (page : ℕ) : Option (Place × Section) :=
  bank.sectionTable[(bank.page page).phyAddress &&& 0xff]?.bind fun place =>
    (bank.slot place).map fun s => (place, s)

/-- `_free_pages` on a section that is not `NULL`. -/
def freeRun (fuel : ℕ) (bank : MmBank) (place : Place) (s : Section) (page : ℕ) : Option MmBank :=
  let pg := bank.page page
  if pg.flag &&& gfpPageHeader = 0 then some bank
  else
    (getZoneId fuel pg.flag).bind fun id =>
      (zoneOfId id).bind fun z =>
        (sectionFreePages fuel (s.view bank) (page - s.pageTable)).map fun (v, _) =>
          (bank.put place s v).addFree z pg.count

/-- `release_page` on a page that is not `NULL`. -/
def releasePage (fuel : ℕ) (bank : MmBank) (page : ℕ) : Option MmBank :=
  match pageGetSection bank page with
  | none => some bank
  | some (place, s) => freeRun fuel bank place s page

/-- `free_pages`. It is `none` for an address in no section, where a null pointer is used. -/
def freePages (fuel : ℕ) (bank : MmBank) (addr : ℕ) : Option MmBank :=
  if addr % pageSize ≠ 0 then some bank
  else
    (vaGetSection bank addr).bind fun (place, s) => freeRun fuel bank place s (s.vaToPage addr)

/-- The loop of `find_align_page`: the first page of a run, or `none` at the end of the
section. -/
def findAlignLoop (v : MmSection) (last align nr : ℕ) : ℕ → ℕ → Option (Option ℕ)
  | 0, _ => none
  | fuel + 1, base =>
    if base < last then
      let id := u32 (base - v.virStart) >>> pageShift
      if ∀ i < nr, readBit v.bitmap ((id + i : ℕ) : ℤ) = 0 then some (some id)
      else findAlignLoop v last align nr fuel (u32 (base + align))
    else some none

/-- `find_align_page`: the first page of the run, and the section with the run taken. It is
`none` where `index + count` in `update_memory_bitmap` is below zero, which as an unsigned number
lets the loop run through all of memory. -/
def findAlignPage (fuel : ℕ) (v : MmSection) (size : ℤ) (align : ℕ) (nr : ℤ) (flag : ℕ) :
    Option (Option (ℕ × MmSection)) :=
  let base := alignDown (u32 (v.virStart + v.bmCurrent <<< pageShift)) align
  (findAlignLoop v (u32 (v.virStart + size)) align nr.toNat fuel base).bind fun
    | none => some none
    | some id =>
      if id + nr < 0 then none
      else
        some (some (id,
          { v with
            bitmap := updateMemoryBitmap v.bitmap id nr.toNat true
            pageTable := initPages v id nr.toNat flag }))

/-- The loop of `__request_special_pages`, from slot `j` of the first zone on. -/
def alignLoop (fuel align : ℕ) (nr : ℤ) (flag : ℕ) :
    List Section → ℕ → MmBank → Option (Option Grant × MmBank)
  | [], _, bank => some (none, bank)
  | s :: rest, j, bank =>
    (findAlignPage fuel (s.view bank) s.size align nr flag).bind fun
      | some (id, v) =>
        some (some ⟨s.pageTable + id, (.kernel, j), s.pageTable + id⟩, bank.put (.kernel, j) s v)
      | none => alignLoop fuel align nr flag rest (j + 1) bank

/-- `get_free_pages_align`. Whatever zone the flag names, the pages are taken from the first
one. -/
def getFreePagesAlign (fuel : ℕ) (nr : ℤ) (align flag : ℕ) (bank : MmBank) :
    Option (Option Grant × MmBank) :=
  if align % pageSize ≠ 0 then some (none, bank)
  else
    (getZoneId fuel flag).bind fun id =>
      if (zoneOfId id).isNone then some (none, bank)
      else
        let kernel := bank.zone .kernel
        (alignLoop fuel align nr flag (kernel.memorySection.take kernel.nrSection) 0 bank).map fun
          | (none, bank) => (none, bank)
          | (some grant, bank) => (some grant, bank.addFree .kernel (-nr))

/-! ## Runs -/

/-- A live allocation: what was requested, and what was returned. `va` says that it was an
address. -/
structure Live where
  grant : Grant
  count : ℕ
  flag : ℕ
  va : Bool
  deriving DecidableEq, Repr

/-- A state of a run. -/
structure BankRun where
  bank : MmBank
  live : List Live

/-- The calls of a run, with the fuel for their loops. -/
inductive BankCall where
  | getFreePages (fuel : ℕ) (count : ℤ) (flag : ℕ)
  | requestPages (fuel : ℕ) (count : ℤ) (flag : ℕ)
  | getFreePagesAlign (fuel : ℕ) (nr : ℤ) (align flag : ℕ)
  | freePages (fuel addr : ℕ)
  | releasePage (fuel page : ℕ)

/-- Record the result of a request. -/
def BankRun.add (r : BankRun) (count : ℤ) (flag : ℕ) (va : Bool) : Option Grant × MmBank → BankRun
  | (none, bank) => { r with bank := bank }
  | (some grant, bank) => { bank := bank, live := ⟨grant, count.toNat, flag, va⟩ :: r.live }

/-- One call. It is `none` when the call does not return, and for a call that frees something
that is not live. -/
def BankRun.step : BankCall → BankRun → Option BankRun
  | .getFreePages fuel count flag, r =>
    (Bank.getFreePages fuel count flag r.bank).map (r.add count flag true)
  | .requestPages fuel count flag, r =>
    (Bank.requestPages fuel count flag r.bank).map (r.add count flag false)
  | .getFreePagesAlign fuel nr align flag, r =>
    (Bank.getFreePagesAlign fuel nr align flag r.bank).map (r.add nr flag false)
  | .freePages fuel addr, r =>
    (r.live.find? fun a => a.va ∧ a.grant.ret = addr).bind fun a =>
      (Bank.freePages fuel r.bank addr).map fun bank => { bank := bank, live := r.live.erase a }
  | .releasePage fuel page, r =>
    (r.live.find? fun a => a.grant.head = page).bind fun a =>
      (Bank.releasePage fuel r.bank page).map fun bank => { bank := bank, live := r.live.erase a }

/-- The start of a run, after `mm_init`. -/
def BankRun.boot (bank : MmBank) : BankRun := ⟨bank, []⟩

end Chunos.Bank
