import Chunos.Mm.BankMoves

/-!
# The addresses that get_free_pages returns

A request takes pages from a section as long as its bits are clear. It does not look at how much
of the section has been mapped, and an address that happens to be 0 is taken for a failure. Where
all sections of the first three zones are mapped as a whole, the addresses are right: a cursor
stays inside its section as long as no free moves it below the first page.
-/

namespace Chunos.Bank

open Relation Runs List Option

section Start

variable {info : SocMemoryInfo} {zone : ZoneId → Zone} {words : Bitmap} {page : ℕ → Page}
  {bank : MmBank}

/-- The cursor and the counter that a section starts with. -/
structure Section.Start (s : Section) : Prop where
  bmEnd_eq : s.bmEnd = u32 s.nrPage
  nrFreePages_eq : s.nrFreePages = s.nrPage - s.bmCurrent
  bmCurrent_le : s.bmCurrent ≤ 2 ^ 20

variable {s : Section}

theorem Section.tabled_start (hs : s.nrFreePages = s.nrPage) (pg bm : ℕ) :
    (s.tabled pg bm).Start := by
  refine ⟨rfl, ?_, Nat.zero_le _⟩
  simp only [Section.tabled]
  omega

/-- The image, the array of `struct page` and the bitmaps are not larger than memory. -/
theorem bootNeed_le (info : SocMemoryInfo) (zone : ZoneId → Zone) : bootNeed info zone ≤ 2 ^ 20 := by
  simp only [bootNeed, bootPages, u32, pageSize]
  omega

theorem Section.Start.booted (hs : s.Start) (hcur : s.bmCurrent = 0) {pages : ℕ}
    (hpages : pages ≤ 2 ^ 20) : (s.booted pages).Start := by
  rw [Section.booted]
  split_ifs
  · refine ⟨hs.bmEnd_eq, ?_, hpages⟩
    have := hs.nrFreePages_eq
    simp only
    omega
  · exact hs

theorem Section.Start.kept (hs : s.Start) : s.kept.Start := by
  rw [Section.kept]
  split_ifs
  · rw [mappedSection]
    split_ifs
    · exact ⟨rfl, rfl, Nat.zero_le _⟩
    · refine ⟨rfl, ?_, hs.bmCurrent_le⟩
      have := hs.nrFreePages_eq
      simp only
      omega
  · exact hs

theorem userSection_start (s : Section) : (userSection s).Start := by
  refine ⟨rfl, ?_, Nat.zero_le _⟩
  simp only [userSection]
  omega

/-- The sections of a bank that is built from sections whose pages are all free. -/
theorem Built.start (hbuilt : Built info zone words page bank)
    (hfree : ∀ z, ∀ s ∈ (zone z).memorySection, s.nrFreePages = s.nrPage) (z : ZoneId) :
    ∀ s ∈ (bank.zone z).memorySection, s.Start := by
  refine hbuilt.forall_section
    (fun _ _ h => ⟨h.bmEnd_eq, h.nrFreePages_eq, h.bmCurrent_le⟩)
    (fun z s hs => Section.tabled_start (hfree z s hs))
    (fun s hs => ⟨?_, fun _ => userSection_start s⟩) z
  obtain ⟨t, ht, pg, bm, h⟩ := exists_of_mem_bootedKernel hs
  have hstart := Section.tabled_start (hfree .kernel t ht) pg bm
  rcases h with rfl | rfl
  · exact hstart.kept
  · exact (hstart.booted rfl (bootNeed_le info zone)).kept

theorem mmInit_start {junk : ℤ} (hinfo : info.Registered)
    (h : mmInit junk info words page = some bank) {place : Place} (hs : bank.slot place = some s) :
    s.Start := by
  obtain ⟨zone, hzone, hbuilt⟩ := mmInit_built hinfo.ok h
  have hcounters := mapMemory_counters (analyseSocMemoryInfo_analysed hinfo.ok hzone) junk
    info.kernelPhysicalStart
  exact hbuilt.start (fun z s hs => ((hcounters z).2.1 s hs).1) place.1 s
    (mem_of_getElem? hs)

end Start

section Cursors

variable {fuel count flag : ℕ} {vp : Bool} {bank bank' : MmBank} {place : Place} {s : Section}
  {ret : PagesRet} {v : MmSection}

/-- The cursor is at a page of the section, unless no page is free. -/
structure Section.CursorOk (s : Section) : Prop where
  bmEnd_eq : s.bmEnd = s.nrPage.toNat
  bmCurrent_lt : s.bmCurrent < 2 ^ 31
  inside : s.bmCurrent < s.nrPage.toNat ∨ s.nrFreePages ≤ 0

theorem Section.Start.cursorOk (hs : s.Start) (hpos : 0 < s.nrPage) (hlt : s.nrPage < 2 ^ 31) :
    s.CursorOk := by
  have hend := hs.bmEnd_eq
  have hfree := hs.nrFreePages_eq
  have hcur := hs.bmCurrent_le
  rw [u32_eq hpos.le (by omega)] at hend
  exact ⟨hend, by omega, by omega⟩

/-- What a visit finds in a section whose cursor is right: a run of clear bits. -/
theorem Visit.found_cases (hvisit : Visit fuel count flag vp bank place s ret v)
    (hcur : s.CursorOk) (hlt : s.nrPage < 2 ^ 31) :
    (ret = .null ∧ v = s.view bank) ∨
      ∃ index : ℕ, 1 ≤ count ∧ index + count ≤ s.nrPage.toNat ∧
        (∀ i, index ≤ i → i < index + count → (wordsFrom bank.words s.bitmap).bit i = false) ∧
        ret = (if vp then .va (s.virStart + index <<< pageShift) else .page index) ∧
        v = s.taken bank index count flag := by
  rcases hvisit.cases with h | ⟨index, hcount, ⟨reads, hfind⟩, hret, hv⟩
  · exact Or.inl h
  · right
    have hfree := hvisit.free
    have hinside := hcur.inside
    have hint := hcur.bmCurrent_lt
    rw [wrap32_eq_self (by omega) (by omega)] at hfind
    obtain ⟨hbase, -⟩ := bitmapFindFreeBase_spec (by omega) (by omega) (by omega) hfind
    obtain ⟨-, hhi, hclear⟩ :
        FreeRun (wordsFrom bank.words s.bitmap) 0 s.nrPage.toNat count index := by
      rcases hbase with h | h
      · simp only [enospc] at h
        omega
      · exact h
    refine ⟨index, hcount, by omega, fun i hi hi' => ?_, hret, hv⟩
    have hread := hclear i (by omega) (by omega)
    exact (readBit_eq_zero_iff (by omega)).mp (by exact_mod_cast hread)

theorem Visit.cursorOk (hvisit : Visit fuel count flag vp bank place s ret v)
    (hcur : s.CursorOk) (hlt : s.nrPage < 2 ^ 31) : (s.after v).CursorOk := by
  rcases hvisit.found_cases hcur hlt with ⟨-, rfl⟩ | ⟨index, hcount, hrange, -, -, rfl⟩
  · exact hcur
  · have hend := hcur.bmEnd_eq
    refine ⟨hend, ?_, ?_⟩
    · simp only [Section.after, Section.taken]
      split_ifs <;> omega
    · left
      simp only [Section.after, Section.taken]
      split_ifs <;> omega

/-- A free that leaves a page below the cursor in use keeps the cursor right. -/
theorem cursorOk_of_free {page : ℕ} {reads : List ℤ} (hcur : s.CursorOk)
    (hused : ((s.view bank).cleared page).UsedBelow)
    (hfree : sectionFreePages fuel (s.view bank) page = some (v, reads)) :
    (s.after v).CursorOk := by
  obtain ⟨⟨cur, hle, rfl⟩, -⟩ := sectionFreePages_spec hused hcur.bmCurrent_lt hfree
  have hle : cur ≤ s.bmCurrent := hle
  have hinside := hcur.inside
  have hint := hcur.bmCurrent_lt
  refine ⟨hcur.bmEnd_eq, by simp only [Section.after]; omega, ?_⟩
  simp only [Section.after, MmSection.cleared, Section.view]
  omega

/-- The frees of a run leave a page below the cursor of their section in use. -/
def BankCall.KeepsUsed : BankCall → BankRun → Prop
  | .freePages _ addr, r => ∀ x ∈ vaGetSection r.bank addr,
      ((x.2.view r.bank).cleared (x.2.vaToPage addr - x.2.pageTable)).UsedBelow
  | .releasePage _ page, r => ∀ x ∈ pageGetSection r.bank page,
      ((x.2.view r.bank).cleared (page - x.2.pageTable)).UsedBelow
  | _, _ => True

/-- This can be computed. -/
instance (c : BankCall) (r : BankRun) : Decidable (c.KeepsUsed r) :=
  match c with
  | .freePages .. | .releasePage .. => inferInstanceAs (Decidable (∀ x ∈ _, _))
  | .getFreePages .. | .requestPages .. | .getFreePagesAlign .. => .isTrue trivial

/-- The sections of some zones that have a size have a property. -/
def OnSections (zones : List ZoneId) (P : Section → Prop) (bank : MmBank) : Prop :=
  ∀ place s, bank.slot place = some s → place.1 ∈ zones → s.size ≠ 0 → P s

/-- A property of sections that a visit keeps, and a free that leaves a page below the cursor in
use. -/
structure KeptByCalls (P : Section → Prop) : Prop where
  visit : ∀ {fuel count flag vp bank place s ret v},
    Visit fuel count flag vp bank place s ret v → P s → P (s.after v)
  free : ∀ {fuel bank s v} {page : ℕ} {reads}, P s → ((s.view bank).cleared page).UsedBelow →
    sectionFreePages fuel (s.view bank) page = some (v, reads) → P (s.after v)

variable {zones : List ZoneId} {P : Section → Prop}

theorem OnSections.put (h : OnSections zones P bank) (hs : bank.slot place = some s)
    (hv : place.1 ∈ zones → s.size ≠ 0 → P (s.after v)) :
    OnSections zones P (bank.put place s v) := by
  intro p t ht hz hsize
  rw [slot_put hs] at ht
  split_ifs at ht with hp
  · obtain rfl := some.inj ht
    exact hv (hp ▸ hz) hsize
  · exact h p t ht hz hsize

theorem OnSections.addFree (h : OnSections zones P bank) (z : ZoneId) (n : ℤ) :
    OnSections zones P (bank.addFree z n) := by
  intro p t ht
  rw [slot_addFree] at ht
  exact h p t ht

theorem KeptByCalls.put (hP : KeptByCalls P) (h : OnSections zones P bank)
    (hvisit : Visit fuel count flag vp bank place s ret v) :
    OnSections zones P (bank.put place s v) :=
  h.put hvisit.slot fun hz hsize => hP.visit hvisit (h place s hvisit.slot hz hsize)

theorem KeptByCalls.took (hP : KeptByCalls P) (h : OnSections zones P bank)
    {zones' : List ZoneId} {g : Option Grant}
    (htook : Took fuel count flag vp zones' bank g bank') : OnSections zones P bank' := by
  obtain ⟨bank₁, hmisses, hend⟩ := htook
  have hbank₁ : OnSections zones P bank₁ :=
    invariant_of_misses (fun b p t ret v hb hvisit => hP.put hb hvisit) h hmisses
  rcases hend with ⟨-, rfl⟩ | ⟨place, s, ret, v, grant, -, -, hvisit, -, -, rfl⟩
  · exact hbank₁
  · exact (hP.put hbank₁ hvisit).addFree _ _

theorem KeptByCalls.freed (hP : KeptByCalls P) (h : OnSections zones P bank)
    (hs : bank.slot place = some s) {page : ℕ}
    (hused : ((s.view bank).cleared (page - s.pageTable)).UsedBelow)
    (hfreed : Freed fuel bank place s page bank') : OnSections zones P bank' := by
  rcases hfreed with ⟨-, rfl⟩ | ⟨id, z, v, reads, -, -, hfree, rfl⟩
  · exact h
  · exact (h.put hs fun hz hsize => hP.free (h place s hs hz hsize) hused hfree).addFree _ _

variable {r : BankRun}

/-- A call whose free leaves a page below the cursor in use. -/
theorem KeptByCalls.move (hP : KeptByCalls P) {c : BankCall} {r' : BankRun}
    (h : OnSections zones P r.bank) (hused : c.KeepsUsed r) (hmove : Move c r r') :
    OnSections zones P r'.bank := by
  cases hmove with
  | getFreePages htook =>
    rw [bank_add]
    exact hP.took h htook
  | requestPages htook =>
    rw [bank_add]
    exact hP.took h htook
  | getFreePagesAlign haligned =>
    rw [bank_add]
    rcases haligned with ⟨-, rfl⟩ | ⟨j, s, id, hs, -, -, -, rfl⟩
    · exact h
    · refine OnSections.addFree (h.put hs ?_) _ _
      exact fun hz hsize => h _ s hs hz hsize
  | freePages ha hva hfree =>
    rcases hfree with rfl | ⟨place, s, hs, hfreed⟩
    · exact h
    · exact hP.freed h (slot_of_vaGetSection hs) (hused (place, s) hs) hfreed
  | releasePage ha hfree =>
    rcases hfree with rfl | ⟨place, s, hs, hfreed⟩
    · exact h
    · exact hP.freed h (pageGetSection_eq_some.mp hs).2 (hused (place, s) hs) hfreed

theorem KeptByCalls.run (hP : KeptByCalls P) {calls : List BankCall} (h : OnSections zones P bank)
    (hmeets : Meets BankRun.step BankCall.KeepsUsed calls (.boot bank))
    (hrun : run BankRun.step calls (.boot bank) = some r) : OnSections zones P r.bank := by
  have hstep : ∀ c (r r' : BankRun), OnSections zones P r.bank → c.KeepsUsed r →
      BankRun.step c r = some r' → OnSections zones P r'.bank :=
    fun c r r' hr hused hstep => hP.move hr hused (BankRun.step_move hstep)
  have hboot : OnSections zones P (BankRun.boot bank).bank := h
  exact invariant_of_meets hstep hboot hmeets hrun

/-- The cursors of the sections of some zones are right. -/
def CursorsOk (zones : List ZoneId) (bank : MmBank) : Prop :=
  ∀ place s, bank.slot place = some s → place.1 ∈ zones → s.size ≠ 0 → s.CursorOk

/-- The sections of some zones have a size that an `int` can hold. -/
def SizesOk (zones : List ZoneId) (bank : MmBank) : Prop :=
  ∀ place s, bank.slot place = some s → place.1 ∈ zones → s.size ≠ 0 →
    0 < s.nrPage ∧ s.nrPage < 2 ^ 31

/-- The calls keep a cursor right, in a section whose size an `int` can hold. -/
theorem cursorOk_kept : KeptByCalls fun s => s.CursorOk ∧ s.nrPage < 2 ^ 31 where
  visit hvisit hs := ⟨hvisit.cursorOk hs.1 hs.2, hs.2⟩
  free hs hused hfree := ⟨cursorOk_of_free hs.1 hused hfree, hs.2⟩

/-- A run whose frees leave pages below the cursors in use keeps all cursors right. -/
theorem CursorsOk.run {calls : List BankCall} (h : CursorsOk zones bank)
    (hsizes : SizesOk zones bank)
    (hmeets : Meets BankRun.step BankCall.KeepsUsed calls (.boot bank))
    (hrun : run BankRun.step calls (.boot bank) = some r) : CursorsOk zones r.bank := by
  have hstart : OnSections zones (fun s => s.CursorOk ∧ s.nrPage < 2 ^ 31) bank :=
    fun place s hs hz hsize => ⟨h place s hs hz hsize, (hsizes place s hs hz hsize).2⟩
  intro place s hs hz hsize
  exact (cursorOk_kept.run hstart hmeets hrun place s hs hz hsize).1

end Cursors

section Windows

variable {fuel count flag : ℕ} {bank bank' : MmBank}

/-- All pages of the section are mapped, and none of them at the address 0. -/
structure Section.AllMapped (s : Section) : Prop where
  nrPage_pos : 0 < s.nrPage
  virStart_pos : 0 < s.virStart
  maped_eq : s.mapedSize = s.nrPage * pageSize
  end_le : s.virStart + s.mapedSize ≤ 2 ^ 32

/-- This can be computed. -/
instance (s : Section) : Decidable s.AllMapped :=
  decidable_of_iff (0 < s.nrPage ∧ 0 < s.virStart ∧ s.mapedSize = s.nrPage * pageSize ∧
      s.virStart + s.mapedSize ≤ 2 ^ 32)
    ⟨fun ⟨h₁, h₂, h₃, h₄⟩ => ⟨h₁, h₂, h₃, h₄⟩, fun ⟨h₁, h₂, h₃, h₄⟩ => ⟨h₁, h₂, h₃, h₄⟩⟩

/-- The zones that `get_free_pages` takes pages from. -/
def kernelZones : List ZoneId := [.kernel, .dma, .res]

/-- All sections of these zones are mapped as a whole. -/
def MmBank.AllMapped (bank : MmBank) : Prop :=
  ∀ z ∈ kernelZones, ∀ s ∈ (bank.zone z).memorySection, s.size ≠ 0 → s.AllMapped

/-- This can be computed. -/
instance (bank : MmBank) : Decidable bank.AllMapped :=
  inferInstanceAs (Decidable (∀ z ∈ kernelZones, ∀ s ∈ _, _ → _))

variable {s : Section}

theorem MmBank.AllMapped.slot (h : bank.AllMapped) (hlike : bank.Like bank') {place : Place}
    (hs : bank'.slot place = some s) (hz : place.1 ∈ kernelZones) (hsize : s.size ≠ 0) :
    s.AllMapped := by
  obtain ⟨t, ht, cur, free, -, rfl⟩ := hlike.slot place s hs
  obtain ⟨hpos, hvir, hmaped, hend⟩ := h place.1 hz t (mem_of_getElem? ht) hsize
  exact ⟨hpos, hvir, hmaped, hend⟩

theorem Section.AllMapped.nrPage_lt (hs : s.AllMapped) : s.nrPage < 2 ^ 31 := by
  obtain ⟨hpos, hvir, hmaped, hend⟩ := hs
  simp only [pageSize] at hmaped
  omega

/-- The loop of `get_zone_id` shifts the flag down to 1. -/
theorem zoneIdLoop_eq_some_iff {x i id : ℕ} :
    zoneIdLoop fuel x i = some id ↔ ∃ k < fuel, id = i + k ∧ x >>> k = 1 := by
  induction fuel generalizing x i with
  | zero => simp [zoneIdLoop]
  | succ fuel ih =>
    rw [zoneIdLoop]
    split_ifs with hone
    · subst hone
      constructor
      · intro h
        exact ⟨0, by omega, (some.inj h).symm, rfl⟩
      · rintro ⟨k, -, rfl, hk⟩
        cases k with
        | zero => rfl
        | succ k =>
          rw [Nat.add_comm, Nat.shiftRight_add] at hk
          simp at hk
    · rw [ih]
      constructor
      · rintro ⟨k, hk, rfl, hshift⟩
        exact ⟨k + 1, by omega, by omega, by rw [Nat.add_comm k 1, Nat.shiftRight_add, hshift]⟩
      · rintro ⟨k, hk, rfl, hshift⟩
        cases k with
        | zero => exact absurd hshift hone
        | succ k =>
          rw [Nat.add_comm k 1, Nat.shiftRight_add] at hshift
          exact ⟨k, by omega, by omega, hshift⟩

theorem getZoneId_eq_some_iff {id : ℕ} :
    getZoneId fuel flag = some id ↔ id < fuel ∧ (flag &&& gfpZoneIdMask) >>> id = 1 := by
  rw [getZoneId, zoneIdLoop_eq_some_iff]
  constructor
  · rintro ⟨k, hk, rfl, hshift⟩
    rw [Nat.zero_add]
    exact ⟨hk, hshift⟩
  · rintro ⟨hid, hshift⟩
    exact ⟨id, hid, by omega, hshift⟩

/-- A request that may not use the user zone does not go through it. -/
theorem requestZones_subset (hflag : flag &&& gfpUser = 0) :
    ∀ z ∈ requestZones fuel flag, z ∈ kernelZones := by
  intro z hz
  unfold requestZones at hz
  cases hid : getZoneId fuel flag with
  | none => simp [hid] at hz
  | some id =>
    obtain ⟨-, hshift⟩ := getZoneId_eq_some_iff.mp hid
    have hne : id ≠ 3 := by
      rintro rfl
      have hbit : (flag &&& gfpZoneIdMask).testBit 3 = true := by
        have h := congrArg (·.testBit 0) hshift
        simpa [Nat.testBit_shiftRight] using h
      have hclear : (flag &&& gfpUser).testBit 3 = false := by rw [hflag, Nat.zero_testBit]
      rw [Nat.testBit_and] at hbit hclear
      have hmask : gfpUser.testBit 3 = true := by decide
      rw [hmask, Bool.and_true] at hclear
      rw [hclear, Bool.false_and] at hbit
      exact absurd hbit Bool.false_ne_true
    simp only [hid, bind_some] at hz
    match id, hne, hz with
    | 0, _, hz => simpa [zoneOfId, zonesFrom, kernelZones] using hz
    | 1, _, hz =>
      simp only [zoneOfId, zonesFrom, kernelZones, elim_some, mem_cons] at hz ⊢
      tauto
    | 2, _, hz =>
      simp only [zoneOfId, zonesFrom, kernelZones, elim_some, mem_cons] at hz ⊢
      tauto
    | 3, hne, _ => exact absurd rfl hne
    | _ + 4, _, hz => simp [zoneOfId] at hz

theorem Section.AllMapped.address (hs : s.AllMapped) {index : ℕ} (hcount : 1 ≤ count)
    (hrange : index + count ≤ s.nrPage.toNat) :
    0 < u32 (s.virStart + index <<< pageShift : ℕ) ∧
      s.virStart ≤ u32 (s.virStart + index <<< pageShift : ℕ) ∧
      (u32 (s.virStart + index <<< pageShift : ℕ) + count * pageSize : ℤ) ≤
        s.virStart + s.mapedSize := by
  obtain ⟨hpos, hvir, hmaped, hend⟩ := hs
  rw [Nat.shiftLeft_eq]
  simp only [pageSize, pageShift] at hmaped ⊢
  have hlt : s.virStart + index * 2 ^ 12 < 2 ^ 32 := by omega
  rw [u32_natCast hlt]
  push_cast
  omega

/-- A request in a bank that is mapped as a whole goes on only after a failed search. -/
theorem MmBank.AllMapped.null {bank₀ : MmBank} (hall : bank₀.AllMapped) (hlike : bank₀.Like bank)
    (hcursors : CursorsOk kernelZones bank) {vp : Bool} {place : Place} {ret : PagesRet}
    {v : MmSection} (hz : place.1 ∈ kernelZones)
    (hvisit : Visit fuel count flag vp bank place s ret v) (hgrant : s.grant place ret = none) :
    ret = .null := by
  have hs := hall.slot hlike hvisit.slot hz hvisit.size
  have hcur := hcursors place s hvisit.slot hz hvisit.size
  rcases hvisit.found_cases hcur hs.nrPage_lt with ⟨hret, -⟩ | ⟨index, hcount, hrange, -, rfl, -⟩
  · exact hret
  · have haddr := (hs.address hcount hrange).1
    cases vp with
    | false => simp [Section.grant] at hgrant
    | true =>
      simp only [if_true, Section.grant] at hgrant
      split_ifs at hgrant with hzero
      omega

/-- On a platform where all sections of the first three zones are mapped as a whole, after every
run whose frees leave a page below the cursor of their section in use: the pages that
`get_free_pages` returns are in the window of one section, and when it returns nothing, no bit has
changed. -/
theorem getFreePages_inside {junk : ℤ} {info : SocMemoryInfo} {words : Bitmap} {page : ℕ → Page}
    (hinfo : info.Registered) (hinit : mmInit junk info words page = some bank)
    (hall : bank.AllMapped) {calls : List BankCall} {r : BankRun}
    (hmeets : Meets BankRun.step BankCall.KeepsUsed calls (.boot bank))
    (hrun : run BankRun.step calls (.boot bank) = some r) {count : ℤ} {g : Option Grant}
    (hget : getFreePages fuel count flag r.bank = some (g, bank')) :
    (∀ grant, g = some grant → ∃ place s, r.bank.slot place = some s ∧ s.virStart ≤ grant.ret ∧
        grant.ret + count * pageSize ≤ s.virStart + s.mapedSize) ∧
      (g = none → bank'.words = r.bank.words) := by
  have hlike := run_like hrun
  have hsizes : SizesOk kernelZones bank := by
    intro place s hs hz hsize
    have hs' := hall.slot (.refl bank) hs hz hsize
    exact ⟨hs'.nrPage_pos, hs'.nrPage_lt⟩
  have hstart : CursorsOk kernelZones bank := by
    intro place s hs hz hsize
    obtain ⟨hpos, hlt⟩ := hsizes place s hs hz hsize
    exact (mmInit_start hinfo hinit hs).cursorOk hpos hlt
  have hcursors := hstart.run hsizes hmeets hrun
  unfold getFreePages at hget
  split_ifs at hget with hrefuse
  · cases hget
    exact ⟨fun grant hgrant => by simp at hgrant, fun _ => rfl⟩
  · have hflag : flag &&& gfpUser = 0 := by
      by_contra hne
      exact hrefuse (Or.inr hne)
    have hzones : ∀ z ∈ requestZones fuel flag, z ∈ kernelZones := requestZones_subset hflag
    obtain ⟨bank₁, hmisses, hend⟩ := getFreePagesAny_took hget
    -- no visit changes the bank before the last one
    obtain rfl : bank₁ = r.bank := eq_of_misses
      (fun place s ret v hz hvisit hgrant =>
        hall.null hlike hcursors (hzones _ hz) hvisit hgrant) hmisses
    rcases hend with ⟨rfl, rfl⟩ | ⟨place, s, ret, v, grant, hz, -, hvisit, hgrant, rfl, -⟩
    · exact ⟨fun grant hgrant => by simp at hgrant, fun _ => rfl⟩
    · refine ⟨fun grant' heq => ?_, fun h => by simp at h⟩
      obtain rfl := some.inj heq
      have hs := hall.slot hlike hvisit.slot (hzones _ hz) hvisit.size
      have hcur := hcursors place s hvisit.slot (hzones _ hz) hvisit.size
      rcases hvisit.found_cases hcur hs.nrPage_lt with
        ⟨rfl, -⟩ | ⟨index, hcount, hrange, -, rfl, -⟩
      · simp [Section.grant] at hgrant
      · obtain ⟨hpos, hlo, hhi⟩ := hs.address hcount hrange
        simp only [if_true, Section.grant, if_neg hpos.ne'] at hgrant
        obtain rfl := some.inj hgrant
        refine ⟨place, s, hvisit.slot, hlo, ?_⟩
        have hnonneg : (count.toNat : ℤ) = count := by omega
        rwa [hnonneg] at hhi

/-- Some calls on the small platform: two pages and three pages are taken, and the two are given
back. -/
def smallCalls : List BankCall :=
  [.getFreePages 8 2 1, .requestPages 8 3 2, .freePages 8 0x80171000]

/-- After these calls, the first of the two pages is returned again. -/
theorem getFreePages_inside_smallBoard :
    ∃ bank r g bank', mmInit 0 smallBoard (fun _ => 0) (fun _ => zeroPage) = some bank ∧
      bank.AllMapped ∧ Meets BankRun.step BankCall.KeepsUsed smallCalls (.boot bank) ∧
      run BankRun.step smallCalls (.boot bank) = some r ∧
      getFreePages 8 1 1 r.bank = some (some g, bank') ∧
      ∃ place s, r.bank.slot place = some s ∧ s.virStart ≤ g.ret ∧
        g.ret + (1 : ℤ) * pageSize ≤ s.virStart + s.mapedSize := by
  obtain ⟨bank, hbank, hall, hmeets, r, hrun, ⟨_, bank'⟩, hget, hsome⟩ :
      ∃ bank, mmInit 0 smallBoard (fun _ => 0) (fun _ => zeroPage) = some bank ∧
        bank.AllMapped ∧ Meets BankRun.step BankCall.KeepsUsed smallCalls (.boot bank) ∧
        ∃ r, run BankRun.step smallCalls (.boot bank) = some r ∧
          ∃ x, getFreePages 8 1 1 r.bank = some x ∧ x.1.isSome := by
    decide +kernel
  obtain ⟨g, rfl⟩ := isSome_iff_exists.mp hsome
  exact ⟨bank, r, g, bank', hbank, hall, hmeets, hrun, hget,
    (getFreePages_inside smallBoard_usable.registered hbank hall hmeets hrun hget).1 _ rfl⟩

/-- A platform with a gigabyte of memory, which takes up all addresses, so that none are left for
its reserved memory. -/
def fullBoard : SocMemoryInfo where
  codeEnd := 0x80001000
  kernelPhysicalStart := 0
  region := [⟨0, 2 ^ 30, .normal⟩, ⟨2 ^ 30, 2 ^ 20, .dma⟩, ⟨2 ^ 31, 2 ^ 20, .res⟩]

/-- The first page of reserved memory is taken and its address 0 is taken for a failure. The next
one is returned, at an address in no window. -/
theorem fullBoard_getFreePages :
    fullBoard.Registered ∧
      ∃ bank r, mmInit 0 fullBoard (fun _ => 0) (fun _ => zeroPage) = some bank ∧
        getFreePages 4 1 4 bank = some (none, r.bank) ∧ r.bank.words ≠ bank.words ∧
        run BankRun.step [.getFreePages 4 1 4] (.boot bank) = some r ∧
        ∃ g bank', getFreePages 4 1 4 r.bank = some (some g, bank') ∧
          ∀ place s, r.bank.slot place = some s →
            ¬ (s.virStart ≤ g.ret ∧ g.ret + (1 : ℤ) * pageSize ≤ s.virStart + s.mapedSize) := by
  obtain ⟨bank, hbank, ⟨_, bank₁⟩, hfirst, ⟨rfl, hwords⟩, ⟨_, bank₂⟩, hsecond, g, rfl, hwindows⟩ :
      ∃ bank, mmInit 0 fullBoard (fun _ => 0) (fun _ => zeroPage) = some bank ∧
        ∃ x, getFreePages 4 1 4 bank = some x ∧
          (x.1 = none ∧ x.2.words 8200 ≠ bank.words 8200) ∧
          ∃ y, getFreePages 4 1 4 x.2 = some y ∧ ∃ g, y.1 = some g ∧
            ∀ z ∈ [ZoneId.kernel, .dma, .res, .user], ∀ s ∈ (x.2.zone z).memorySection,
              ¬ (s.virStart ≤ g.ret ∧ g.ret + (1 : ℤ) * pageSize ≤ s.virStart + s.mapedSize) := by
    decide +kernel
  have hstep : run BankRun.step [.getFreePages 4 1 4] (.boot bank) = some ⟨bank₁, []⟩ := by
    simp [run, BankRun.step, BankRun.boot, hfirst, BankRun.add]
  refine ⟨⟨[(0, 2 ^ 30, .normal), (2 ^ 30, 2 ^ 20, .dma), (2 ^ 31, 2 ^ 20, .res)], by decide +kernel⟩,
    bank, ⟨bank₁, []⟩, hbank, hfirst, fun heq => hwords (congrFun heq 8200), hstep, g, bank₂,
    hsecond, ?_⟩
  intro place s hs
  have hmem : place.1 ∈ [ZoneId.kernel, .dma, .res, .user] := by cases place.1 <;> simp
  exact hwindows place.1 hmem s (mem_of_getElem? hs)

end Windows

end Chunos.Bank
