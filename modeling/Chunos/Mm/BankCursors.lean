import Chunos.Mm.BankGrants

/-!
# The cursors of the sections

`update_bm_current` moves the cursor of a section down over free pages and stops at the first page
in use. There is no other end to its loop: when the last page below the cursor has been freed, it
reads the bit with the index -1. The sections of a run whose frees all leave a page below the
cursor in use keep their cursor at one of their pages.
-/

namespace Chunos.Bank

open Runs List Option

section Sizes

variable {info : SocMemoryInfo} {zone : ZoneId → Zone} {words : Bitmap} {page : ℕ → Page}
  {bank : MmBank} {s : Section}

/-- A section that is small and of which whole pages are mapped. -/
structure Section.Small (s : Section) : Prop extends s.Cuttable where
  nrPage_lt : s.nrPage < 2 ^ 19

theorem Section.Small.kept (hs : s.Small) : s.kept.nrPage < 2 ^ 19 := by
  have hlt := hs.nrPage_lt
  rw [Section.kept]
  split_ifs with hshort
  · rw [mappedSection]
    split_ifs
    · norm_num
    · rw [Section.Short] at hshort
      simp only [userSection, pageSize] at hshort ⊢
      omega
  · exact hlt

theorem Section.Small.user (hs : s.Small) (hshort : s.Short) : (userSection s).nrPage < 2 ^ 19 := by
  have hlt := hs.nrPage_lt
  have hmaped := hs.maped_nonneg hshort
  simp only [userSection, pageSize]
  omega

theorem Built.nrPage_lt (hbuilt : Built info zone words page bank)
    (hzone : ∀ z, ∀ s ∈ (zone z).memorySection, s.Small) (z : ZoneId) :
    ∀ s ∈ (bank.zone z).memorySection, s.nrPage < 2 ^ 19 := by
  have hsmall : ∀ s ∈ bootedKernel info zone, s.Small := by
    refine forall_bootedKernel fun t ht _ _ _ _ => ?_
    obtain ⟨⟨hsize, hlt, hnonneg, hdvd⟩, hpages⟩ := hzone .kernel t ht
    exact ⟨⟨hsize, hlt, hnonneg, hdvd⟩, hpages⟩
  exact hbuilt.forall_section (fun _ _ h => h) (fun z s hs _ _ => (hzone z s hs).nrPage_lt)
    (fun s hs => ⟨(hsmall s hs).kept, (hsmall s hs).user⟩) z

/-- The sections after `mm_init` have fewer pages than an `int` can count. -/
theorem mmInit_nrPage_lt {junk : ℤ} (hinfo : info.Registered)
    (h : mmInit junk info words page = some bank) {place : Place}
    (hs : bank.slot place = some s) : s.nrPage < 2 ^ 19 := by
  obtain ⟨zone, hzone, hbuilt⟩ := mmInit_built hinfo.ok h
  have hanalysed := analyseSocMemoryInfo_analysed hinfo.ok hzone
  have hcounters := mapMemory_counters hanalysed junk info.kernelPhysicalStart
  refine hbuilt.nrPage_lt (fun z s hs => ?_) place.1 s (mem_of_getElem? hs)
  obtain ⟨-, t, ht, hgiven⟩ := (hcounters z).2.1 s hs
  exact ⟨(hcounters z).1 s hs, by rw [hgiven.same.2.2.1]; exact (hanalysed.fresh z t ht).nrPage_lt⟩

end Sizes

section Inside

variable {bank : MmBank} {s : Section} {v : MmSection}

/-- The cursor is at a page of the section. -/
structure Section.CursorInside (s : Section) : Prop where
  bmEnd_eq : s.bmEnd = s.nrPage.toNat
  bmCurrent_lt : s.bmCurrent < s.nrPage
  nrPage_lt : s.nrPage < 2 ^ 19

theorem Section.CursorInside.cursorOk (hs : s.CursorInside) : s.CursorOk := by
  obtain ⟨hend, hcur, hlt⟩ := hs
  exact ⟨hend, by omega, Or.inl (by omega)⟩

theorem cursorInside_kept : KeptByCalls Section.CursorInside where
  visit hvisit hs := by
    have ⟨hend, hcur, hlt⟩ := hs
    rcases hvisit.found_cases hs.cursorOk (by omega) with
      ⟨-, rfl⟩ | ⟨index, hcount, hrange, -, -, rfl⟩
    · exact hs
    · refine ⟨hend, ?_, hlt⟩
      simp only [Section.after, Section.taken]
      split_ifs <;> push_cast <;> omega
  free hs hused hfree := by
    have ⟨hend, hcur, hlt⟩ := hs
    obtain ⟨⟨cur, hle, rfl⟩, -⟩ := sectionFreePages_spec hused hs.cursorOk.bmCurrent_lt hfree
    refine ⟨hend, ?_, hlt⟩
    simp only [Section.view] at hle
    simp only [Section.after]
    omega

/-- Every zone. -/
def allZones : List ZoneId := [.kernel, .dma, .res, .user]

theorem mem_allZones (z : ZoneId) : z ∈ allZones := by
  cases z <;> simp [allZones]

/-- The boot pages leave the cursor of every section at one of its pages. -/
def MmBank.CursorsInside (bank : MmBank) : Prop :=
  ∀ z ∈ allZones, ∀ s ∈ (bank.zone z).memorySection, s.size ≠ 0 → s.bmCurrent < s.nrPage

/-- This can be computed. -/
instance (bank : MmBank) : Decidable bank.CursorsInside :=
  inferInstanceAs (Decidable (∀ z ∈ allZones, ∀ s ∈ _, _ → _))

/-- When the boot pages leave the cursors inside the sections, then after every run whose frees
all leave a page below the cursor in use: the cursor of a section is at one of its pages, and a
free keeps to the bits of the section and leaves the cursor at one of its pages just if it leaves
a page below the cursor in use. Such a free ends. -/
theorem updateBmCurrent_inside {junk : ℤ} {info : SocMemoryInfo} {words : Bitmap}
    {page : ℕ → Page} (hinfo : info.Registered) (hinit : mmInit junk info words page = some bank)
    (hboot : bank.CursorsInside) {calls : List BankCall} {r : BankRun}
    (hmeets : Meets BankRun.step BankCall.KeepsUsed calls (.boot bank))
    (hrun : run BankRun.step calls (.boot bank) = some r) {place : Place}
    (hs : r.bank.slot place = some s) (hsize : s.size ≠ 0) (index : ℕ) :
    s.bmCurrent < s.nrPage ∧
      (∀ fuel v reads, sectionFreePages fuel (s.view r.bank) index = some (v, reads) →
        (((∀ i ∈ reads, 0 ≤ i ∧ i < s.nrPage) ∧ v.bmCurrent < s.nrPage) ↔
          ((s.view r.bank).cleared index).UsedBelow)) ∧
      (((s.view r.bank).cleared index).UsedBelow → ∀ fuel ≥ s.bmCurrent,
        ∃ result, sectionFreePages fuel (s.view r.bank) index = some result) := by
  have hstart : OnSections allZones Section.CursorInside bank := by
    intro place s hs hz hsize
    have hcur := hboot place.1 hz s (mem_of_getElem? hs) hsize
    have hlt := mmInit_nrPage_lt hinfo hinit hs
    refine ⟨?_, hcur, hlt⟩
    rw [(mmInit_start hinfo hinit hs).bmEnd_eq, u32_eq (by omega) (by omega)]
  obtain ⟨hend, hcur, hlt⟩ :=
    cursorInside_kept.run hstart hmeets hrun place s hs (mem_allZones _) hsize
  have hint : (s.view r.bank).bmCurrent < 2 ^ 31 := by
    simp only [Section.view]
    omega
  refine ⟨hcur, fun fuel v reads hfree => ⟨fun hinside => ?_, fun hused => ?_⟩, fun hused => ?_⟩
  · have hcleared : ((s.view r.bank).cleared index).bmCurrent < 2 ^ 31 := hint
    exact (updateBmCurrent_reads_iff hcleared hfree).mp fun i hi => (hinside.1 i hi).1
  · obtain ⟨⟨cur, hle, rfl⟩, hreads⟩ := sectionFreePages_spec hused hint hfree
    simp only [Section.view] at hle hreads
    refine ⟨fun i hi => ?_, by simp only; omega⟩
    have := hreads i hi
    omega
  · exact fun fuel hfuel => sectionFreePages_returns hused hint hfuel

/-- The small platform after its calls: the two pages have been given back, and the boot pages
below the cursor are in use. -/
theorem updateBmCurrent_inside_smallBoard :
    ∃ bank r s, mmInit 0 smallBoard (fun _ => 0) (fun _ => zeroPage) = some bank ∧
      bank.CursorsInside ∧ Meets BankRun.step BankCall.KeepsUsed smallCalls (.boot bank) ∧
      run BankRun.step smallCalls (.boot bank) = some r ∧ r.bank.slot (.kernel, 0) = some s ∧
      s.size ≠ 0 ∧ s.bmCurrent < s.nrPage := by
  obtain ⟨bank, hbank, hinside, hmeets, r, hrun, s, hs, hsize⟩ :
      ∃ bank, mmInit 0 smallBoard (fun _ => 0) (fun _ => zeroPage) = some bank ∧
        bank.CursorsInside ∧ Meets BankRun.step BankCall.KeepsUsed smallCalls (.boot bank) ∧
        ∃ r, run BankRun.step smallCalls (.boot bank) = some r ∧
          ∃ s, r.bank.slot (.kernel, 0) = some s ∧ s.size ≠ 0 := by
    decide +kernel
  exact ⟨bank, r, s, hbank, hinside, hmeets, hrun, hs, hsize,
    (updateBmCurrent_inside smallBoard_usable.registered hbank hinside hmeets hrun hs hsize 0).1⟩

/-- On the small platform the memory for direct access has no boot pages. One page of it is taken
and given back: the bit with the index -1 is read. -/
theorem smallBoard_reads_below :
    smallBoard.Registered ∧
      ∃ bank r a s v reads,
        mmInit 0 smallBoard (fun _ => 0xffffffff#32) (fun _ => zeroPage) = some bank ∧
        bank.CursorsInside ∧ run BankRun.step [.requestPages 4 1 2] (.boot bank) = some r ∧
        r.live = [a] ∧ pageGetSection r.bank a.grant.head = some ((.dma, 0), s) ∧
        sectionFreePages 4 (s.view r.bank) (a.grant.head - s.pageTable) = some (v, reads) ∧
        reads = [0, -1] := by
  obtain ⟨bank, hbank, hinside, r, hrun, a, ha, hlength, ⟨_, s⟩, hs, rfl, ⟨v, _⟩, hfree, rfl⟩ :
      ∃ bank, mmInit 0 smallBoard (fun _ => 0xffffffff#32) (fun _ => zeroPage) = some bank ∧
        bank.CursorsInside ∧ ∃ r, run BankRun.step [.requestPages 4 1 2] (.boot bank) = some r ∧
          ∃ a, r.live.head? = some a ∧ r.live.length = 1 ∧
            ∃ x, pageGetSection r.bank a.grant.head = some x ∧ x.1 = (.dma, 0) ∧
              ∃ y, sectionFreePages 4 (x.2.view r.bank) (a.grant.head - x.2.pageTable) = some y ∧
                y.2 = [0, -1] := by
    decide +kernel
  obtain ⟨a', hlive⟩ := length_eq_one_iff.mp hlength
  obtain rfl : a' = a := by simpa [hlive] using ha
  exact ⟨smallBoard_usable.registered, bank, r, a', s, v, _, hbank, hinside, hrun, hlive, hs,
    hfree, rfl⟩

end Inside

end Chunos.Bank
