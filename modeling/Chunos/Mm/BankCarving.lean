import Chunos.Mm.BankPartition

/-!
# Memory for devices: alloc_dma_section

Without a region for devices, a sixteenth of all kernel pages is cut from the end of the last
kernel section. The code takes this section for the largest one. When it has fewer pages, its
counters go below zero. When another region overlaps the pages that are cut off, they stay in a
kernel section.
-/

namespace Chunos.Bank

open List Option

section Carving

variable {info : SocMemoryInfo} {before after : ZoneId → Zone} {pr s : Section}

/-- A physical page is in a section. Addresses wrap at 4 GB. -/
def Section.HasPage (s : Section) (page : ℕ) : Prop := s.Has (page * pageSize)

/-- No kernel section is shorter than nothing, and the section for devices has pages of one kernel
section, which are in none any more. -/
structure CarvedOut (before after : ZoneId → Zone) : Prop where
  nonneg : ∀ s ∈ (after .kernel).memorySection, 0 ≤ s.nrPage ∧ 0 ≤ s.nrFreePages ∧ 0 ≤ s.size
  created : ∃ d, (after .dma).memorySection = [d] ∧ 0 < d.nrPage ∧
    (∃ s ∈ (before .kernel).memorySection, ∀ page, d.HasPage page → s.HasPage page) ∧
    ∀ page, d.HasPage page → ∀ s ∈ (after .kernel).memorySection, ¬ s.HasPage page

/-- The last section of a zone has `pages` pages, and the last ones of them are in no other
section of the zone. -/
def Zone.CanGive (zone : Zone) (pages : ℤ) : Prop :=
  ∃ init pr, zone.memorySection = init ++ [pr] ∧ pages ≤ pr.nrPage ∧
    ∀ s ∈ init, ∀ k : ℕ, pr.nrPage - pages ≤ k → (k : ℤ) < pr.nrPage →
      ¬ s.HasPage (pr.phyStart / pageSize + k)

variable {page : ℕ} {pages : ℤ}

theorem hasPage_carvedRegion (hpr : pr.Whole) (hlo : 16 ≤ pages) (hhi : pages ≤ 2 ^ 15)
    (hle : pages ≤ pr.nrPage) :
    (sectionOf (carvedRegion pr pages)).HasPage page ↔
      ∃ k : ℕ, pr.nrPage - pages ≤ k ∧ (k : ℤ) < pr.nrPage ∧
        (page : ℤ) % 2 ^ 20 = (pr.phyStart / pageSize + k : ℕ) % 2 ^ 20 := by
  have hdvd := hpr.phyStart_mb
  have hlt := hpr.nrPage_lt
  simp only [Section.HasPage, Section.Has, InSpan, Section.span, sectionOf, carvedRegion, u32,
    pageSize]
  constructor
  · intro h
    refine ⟨((page * 4096 - pr.phyStart) % 2 ^ 32 / 4096 : ℤ).toNat, ?_, ?_, ?_⟩ <;> omega
  · rintro ⟨k, hge, hk, hpage⟩
    omega

theorem Section.hasPage_congr {page' : ℕ} (h : (page : ℤ) % 2 ^ 20 = (page' : ℤ) % 2 ^ 20) :
    s.HasPage page ↔ s.HasPage page' := by
  have heq : u32 ((page * pageSize : ℕ) - s.phyStart) =
      u32 ((page' * pageSize : ℕ) - s.phyStart) := by
    simp only [u32, pageSize]
    omega
  simp only [Section.HasPage, Section.Has, InSpan, Section.span, heq]

theorem not_hasPage_carved (hpr : pr.Whole) (hlo : 16 ≤ pages) (hhi : pages ≤ 2 ^ 15)
    (hle : pages ≤ pr.nrPage) (h : (sectionOf (carvedRegion pr pages)).HasPage page) :
    ¬ (carved pr pages).HasPage page := by
  have hdvd := hpr.phyStart_mb
  have hlt := hpr.nrPage_lt
  have hsize : pr.size = pr.nrPage * pageSize := by rw [hpr.eq]
  simp only [Section.HasPage, Section.Has, InSpan, Section.span, sectionOf, carvedRegion, carved,
    u32, hsize, pageSize] at h ⊢
  omega

theorem hasPage_of_carved (hpr : pr.Whole) (hlo : 16 ≤ pages) (hhi : pages ≤ 2 ^ 15)
    (hle : pages ≤ pr.nrPage) (h : (sectionOf (carvedRegion pr pages)).HasPage page) :
    pr.HasPage page := by
  have hdvd := hpr.phyStart_mb
  have hlt := hpr.nrPage_lt
  have hsize : pr.size = pr.nrPage * pageSize := by rw [hpr.eq]
  simp only [Section.HasPage, Section.Has, InSpan, Section.span, sectionOf, carvedRegion,
    u32, hsize, pageSize] at h ⊢
  omega

/-- The zones before and after `alloc_dma_section`. -/
theorem exists_carved (hinfo : info.Registered) (hkernel : ∃ r ∈ info.region, r.attr = .normal)
    (hdma : ∀ r ∈ info.region, r.attr ≠ .dma) :
    ∃ before after, getMemorySections info = some before ∧ allocDmaSection before = some after ∧
      ∃ init pr pages, Carved info after init pr pages ∧
        before .kernel = filled (regionsOf .kernel info.sorted) := by
  obtain ⟨r, hr, hattr⟩ := hkernel
  have hok := hinfo.ok
  have hne : info.region ≠ [] := ne_nil_of_mem hr
  obtain ⟨after, hafter⟩ := isSome_iff_exists.mp (analyseSocMemoryInfo_isSome hok
    (ne_nil_of_mem (mem_regionsOf_kernel.mpr ⟨hr, hattr⟩)))
  obtain ⟨before, hbefore, halloc⟩ := bind_eq_some_iff.mp hafter
  have hnil : regionsOf .dma info.sorted = [] := by
    apply filter_eq_nil_iff.mpr
    intro r hr
    have hne := hdma r ((sortRegions_perm _ _).mem_iff.mp hr)
    cases hattr : r.attr <;> simp_all [MemAttr.zone]
  have hempty : (before .dma).nrSection = 0 := by
    rw [getMemorySections_eq hok hbefore, hnil]
    rfl
  rw [if_pos hempty] at halloc
  obtain ⟨hne, -⟩ | ⟨-, init, pr, pages, hcarved⟩ := analyseSocMemoryInfo_carved hok hafter
  · exact absurd hnil hne
  · exact ⟨before, after, hbefore, halloc, init, pr, pages, hcarved,
      getMemorySections_eq hok hbefore .kernel⟩

/-- `alloc_dma_section`, for all regions of a platform without memory for devices: the counters
stay right and the pages move from one kernel section to the new section, just if the last
kernel section has a sixteenth of all kernel pages (at most 128 MB) and no other kernel section
overlaps the pages at its end. -/
theorem allocDmaSection_carvedOut_iff (hinfo : info.Registered)
    (hkernel : ∃ r ∈ info.region, r.attr = .normal) (hdma : ∀ r ∈ info.region, r.attr ≠ .dma) :
    ∃ before after, getMemorySections info = some before ∧ allocDmaSection before = some after ∧
      (CarvedOut before after ↔
        (before .kernel).CanGive (min ((before .kernel).pageNum / 16) (2 ^ 15))) := by
  obtain ⟨before, after, hbefore, hafter, init, pr, pages, hcarved, hfilled⟩ :=
    exists_carved hinfo hkernel hdma
  refine ⟨before, after, hbefore, hafter, ?_⟩
  have hpages : min ((before .kernel).pageNum / 16) (2 ^ 15) = pages := by
    obtain ⟨hdvd, hlo, -⟩ := pageNum_filled (regionsOf_ok hinfo.ok .kernel)
    have hsome := hcarved.some_kernel
    rw [hcarved.pages_eq, hfilled, (dmaPages_spec (by omega) hdvd).1]
  have hlo := hcarved.pages_ge
  have hhi := hcarved.pages_le
  have hpr := hcarved.pr_whole
  have hsections : (before .kernel).memorySection = init ++ [pr] := by
    rw [hfilled, hcarved.filled_eq]
  rw [hpages]
  constructor
  · rintro ⟨hnonneg, d, hd, -, -, hnone⟩
    obtain rfl : sectionOf (carvedRegion pr pages) = d := by
      rw [hcarved.dma] at hd
      exact head_eq_of_cons_eq hd
    have hlast := hnonneg (carved pr pages) (by rw [hcarved.kernel]; simp)
    have hle : pages ≤ pr.nrPage := by
      have := hlast.1
      simp only [carved] at this
      omega
    refine ⟨init, pr, hsections, hle, fun s hs k hge hlt => ?_⟩
    refine hnone _ ((hasPage_carvedRegion hpr hlo hhi hle).mpr ⟨k, hge, hlt, rfl⟩) s ?_
    rw [hcarved.kernel]
    exact mem_append_left _ hs
  · rintro ⟨init', pr', hsections', hle, hapart⟩
    rw [hsections] at hsections'
    obtain ⟨rfl, hlast⟩ := append_inj' hsections' rfl
    obtain rfl : pr = pr' := head_eq_of_cons_eq hlast
    refine ⟨fun s hs => ?_, _, hcarved.dma, ?_, ⟨pr, by rw [hsections]; simp, fun page hpage => ?_⟩,
      fun page hpage s hs => ?_⟩
    · rw [hcarved.kernel] at hs
      obtain hs | hs := mem_append.mp hs
      · have hs := hcarved.init_whole s hs
        have hpos := hs.nrPage_pos
        rw [hs.eq]
        simp only [pageSize]
        omega
      · rw [mem_singleton.mp hs]
        have hfresh := carved_fresh hpr hlo hhi hcarved.pages_dvd
        rw [hfresh.eq]
        simp only [carved, pageSize]
        omega
    · simp only [sectionOf, (carvedRegion_fits hpr hlo hhi hcarved.pages_dvd).2.2.1]
      omega
    · exact hasPage_of_carved hpr hlo hhi hle hpage
    · rw [hcarved.kernel] at hs
      obtain hs | hs := mem_append.mp hs
      · obtain ⟨k, hge, hlt, hk⟩ := (hasPage_carvedRegion hpr hlo hhi hle).mp hpage
        rw [Section.hasPage_congr hk]
        exact hapart s hs k hge hlt
      · rw [mem_singleton.mp hs]
        exact not_hasPage_carved hpr hlo hhi hle hpage

/-- The pages for DMA are cut off from the one section of the small platform. -/
theorem allocDmaSection_carvedOut_iff_smallBoard :
    ∃ before after, getMemorySections smallBoard = some before ∧
      allocDmaSection before = some after ∧ CarvedOut before after := by
  obtain ⟨before, after, hbefore, hafter, hiff⟩ :=
    allocDmaSection_carvedOut_iff smallBoard_usable.registered
      ⟨⟨0, 2 ^ 26, .normal⟩, by simp [smallBoard], rfl⟩ (by simp [smallBoard])
  obtain ⟨z, hz, pr, -, hpr, hle⟩ : ∃ z, getMemorySections smallBoard = some z ∧
      ∃ pr ∈ (z .kernel).memorySection, (z .kernel).memorySection = [] ++ [pr] ∧
        min ((z .kernel).pageNum / 16) (2 ^ 15) ≤ pr.nrPage := by
    decide +kernel
  obtain rfl : z = before := some.inj (hz.symm.trans hbefore)
  exact ⟨z, after, hbefore, hafter, hiff.mpr ⟨[], pr, hpr, hle, by simp⟩⟩

/-- A platform with 512 MB of memory and one megabyte behind it. -/
def unevenBoard : SocMemoryInfo where
  codeEnd := 0x80100000
  kernelPhysicalStart := 0
  region := [⟨0, 2 ^ 29, .normal⟩, ⟨2 ^ 30, 2 ^ 20, .normal⟩]

/-- The megabyte is cut, and it is left with fewer than no pages. -/
theorem unevenBoard_not_carvedOut :
    unevenBoard.Registered ∧ (∀ r ∈ unevenBoard.region, r.attr = .normal) ∧
      ∃ before after, getMemorySections unevenBoard = some before ∧
        allocDmaSection before = some after ∧
        (∃ s ∈ (after .kernel).memorySection, s.nrPage < 0 ∧ s.size < 0) ∧
        ¬ CarvedOut before after := by
  obtain ⟨before, hbefore, after, hafter, s, hs, hpage, hsize⟩ :
      ∃ before, getMemorySections unevenBoard = some before ∧
        ∃ after, allocDmaSection before = some after ∧
          ∃ s ∈ (after .kernel).memorySection, s.nrPage < 0 ∧ s.size < 0 := by
    decide +kernel
  refine ⟨⟨[(0, 2 ^ 29, .normal), (2 ^ 30, 2 ^ 20, .normal)], by decide +kernel⟩,
    by simp [unevenBoard], before, after, hbefore, hafter, ⟨s, hs, hpage, hsize⟩, ?_⟩
  intro hout
  have := (hout.nonneg s hs).1
  omega

end Carving

end Chunos.Bank
