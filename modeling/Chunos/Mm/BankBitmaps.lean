import Chunos.Mm.BankPartition

/-!
# The bitmaps of the sections

`bits_to_long` adds 8 bits and rounds down to an even number of words. This is enough for page
counts that are multiples of 64. All registered regions have such counts, and so have the parts
that are mapped, but the memory for devices that is cut from the last kernel section is a
sixteenth of the kernel memory, which is a multiple of 64 KB only.
-/

namespace Chunos.Bank

open Listwise Cover Option
open Pgt (kernelVirtualBase)

section Words

/-- The words for one bit a page. -/
def Section.words (s : Section) : ℕ := ((s.nrPage + 31) / 32).toNat

/-- The words that the bits of a section are in. -/
def Section.wordSpan (s : Section) : ℕ × ℕ := (s.bitmap, s.words)

/-- The words that `init_sections_bitmap` sets aside for a section. -/
def Section.area (s : Section) : ℕ × ℕ := (s.bitmap, bitsToLong s.nrPage)

/-- The bits of the sections are in different words, and in those that were set aside. -/
structure BitmapsOk (total : ℕ) (zone : ZoneId → Zone) : Prop where
  apart : (sections zone).Pairwise fun s t => ∀ w, ¬ (Holds s.wordSpan w ∧ Holds t.wordSpan w)
  inside : ∀ s ∈ sections zone, ∀ w, Holds s.wordSpan w → w < total

theorem count_areas (l : List Section) (pg bm w : ℕ) :
    count ((tables l pg bm).map Section.area) w = if bm ≤ w ∧ w < wordsEnd l bm then 1 else 0 := by
  induction l generalizing pg bm with
  | nil =>
    rw [if_neg (by simp only [wordsEnd, List.map_nil, List.sum_nil]; omega)]
    rfl
  | cons s rest ih =>
    have hend : wordsEnd (s :: rest) bm = wordsEnd rest (bm + bitsToLong s.nrPage) := by
      simp [wordsEnd, Nat.add_assoc]
    have hle : bm + bitsToLong s.nrPage ≤ wordsEnd rest (bm + bitsToLong s.nrPage) :=
      Nat.le_add_right _ _
    have harea : (s.tabled pg bm).area = (bm, bitsToLong s.nrPage) := rfl
    rw [tables, List.map_cons, count_cons, ih, hend, harea]
    split_ifs <;> simp only [Holds] at * <;> omega

theorem bitsToLong_of_dvd {n : ℤ} (hdvd : 64 ∣ n) (hlo : 0 ≤ n) (hhi : n < 2 ^ 31) :
    bitsToLong n = (n / 32).toNat := by
  rw [bitsToLong_eq, u32]
  omega

theorem bitsToLong_lt {n : ℤ} (hdvd : 16 ∣ n) (hnot : ¬ 64 ∣ n) (hlo : 0 ≤ n) (hhi : n < 2 ^ 31) :
    bitsToLong n < ((n + 31) / 32).toNat := by
  rw [bitsToLong_eq, u32]
  omega

/-- A section whose bits fill whole pairs of words. -/
structure Section.Even (s : Section) : Prop where
  nrPage_dvd : 64 ∣ s.nrPage
  nrPage_lt : s.nrPage < 2 ^ 31

/-- A section whose bits fill whole pairs of words also where it is cut. -/
structure Section.EvenCut (s : Section) : Prop extends s.Even where
  maped_nonneg : s.Short → 0 ≤ s.mapedSize
  maped_dvd : s.Short → 2 ^ 18 ∣ s.mapedSize

theorem Section.Even.words_le {s : Section} (hs : s.Even) : s.words ≤ bitsToLong s.nrPage := by
  obtain ⟨hdvd, hlt⟩ := hs
  by_cases hpos : 0 ≤ s.nrPage
  · rw [bitsToLong_of_dvd hdvd hpos hlt, Section.words]
    omega
  · rw [Section.words]
    omega

/-- The bits of what is kept of a section and of what goes to the user zone are in different words
of its area. -/
theorem count_kept {s : Section} (hs : s.EvenCut) (hshort : s.Short) (w : ℕ) :
    count [s.kept.wordSpan, (userSection s).wordSpan] w ≤ count [s.area] w := by
  obtain ⟨⟨hdvd, hlt⟩, hnonneg, hmaped⟩ := hs
  have hnonneg := hnonneg hshort
  have hmaped := hmaped hshort
  have hle : s.mapedSize < s.nrPage * 4096 := hshort
  obtain ⟨m, hm⟩ : ∃ m : ℕ, s.mapedSize = 2 ^ 18 * m :=
    ⟨(s.mapedSize / 2 ^ 18).toNat, by omega⟩
  have hpages : s.mapedSize / pageSize = 64 * m := by
    simp only [pageSize]
    omega
  have hcut : bitsToLong (64 * m) = 2 * m := by
    rw [bitsToLong_of_dvd (by omega) (by omega) (by omega)]
    omega
  have hall : bitsToLong s.nrPage = (s.nrPage / 32).toNat :=
    bitsToLong_of_dvd hdvd (by omega) hlt
  have huser : (userSection s).wordSpan =
      (s.bitmap + 2 * m, ((s.nrPage - 64 * m + 31) / 32).toNat) := by
    simp only [Section.wordSpan, Section.words, userSection, hpages, hcut]
  have hkept : s.kept.wordSpan = (s.bitmap, 2 * m) ∨ s.kept.wordSpan = (0, 0) := by
    rw [Section.kept, if_pos hshort, mappedSection]
    split_ifs with hzero
    · exact Or.inr rfl
    · left
      simp only [Section.wordSpan, Section.words, userSection, hpages, Prod.mk.injEq, true_and]
      omega
  have harea : s.area = (s.bitmap, (s.nrPage / 32).toNat) := by rw [Section.area, hall]
  rw [huser, harea, count_cons, count_cons, count_cons, count_nil]
  obtain hkept | hkept := hkept <;>
  · rw [hkept]
    split_ifs <;> simp only [Holds] at * <;> omega

theorem count_words {l : List Section} (hl : ∀ s ∈ l, s.Even) (w : ℕ) :
    count (l.map Section.wordSpan) w ≤ count (l.map Section.area) w := by
  induction l with
  | nil => exact le_rfl
  | cons s rest ih =>
    obtain ⟨hs, hrest⟩ := List.forall_mem_cons.mp hl
    have hone := ih hrest
    have hle := hs.words_le
    simp only [List.map_cons, count_cons]
    split_ifs with hin hout
    · omega
    · simp only [Holds, Section.wordSpan, Section.area] at hin hout
      omega
    · omega
    · exact hone

/-- The same for what is kept of them and what goes to the user zone. -/
theorem count_kept_user {l : List Section} (hl : ∀ s ∈ l, s.EvenCut) (w : ℕ) :
    count ((l.map Section.kept).map Section.wordSpan) w +
      count ((userSections l).map Section.wordSpan) w ≤ count (l.map Section.area) w := by
  induction l with
  | nil => exact le_rfl
  | cons s rest ih =>
    obtain ⟨hs, hrest⟩ := List.forall_mem_cons.mp hl
    have hone := ih hrest
    by_cases hshort : s.Short
    · have hcut := count_kept hs hshort w
      simp only [userSections_cons hshort, List.map_cons, count_cons, count_nil] at hcut ⊢
      omega
    · have hkept : s.kept = s := if_neg hshort
      have hcut := count_words (List.forall_mem_singleton.mpr hs.toEven) w
      simp only [List.map_cons, List.map_nil, count_cons, count_nil] at hcut
      simp only [userSections_cons_of_not hshort, hkept, List.map_cons, count_cons]
      omega

end Words

section Built

variable {info : SocMemoryInfo} {zone : ZoneId → Zone} {words : Bitmap} {page : ℕ → Page}
  {bank : MmBank}

/-- When all sections are even, each word of the bitmaps belongs to one section at most. -/
theorem Built.bitmapsOk (hbuilt : Built info zone words page bank)
    (heven : ∀ s ∈ mappedSections zone, s.Even)
    (hcut : ∀ s ∈ (zone .kernel).memorySection, s.EvenCut) :
    BitmapsOk (wordsEnd (mappedSections zone) 0) bank.zone := by
  obtain ⟨lK, hK, hzK⟩ := hbuilt.kernel
  obtain ⟨lD, hD, hzD⟩ := hbuilt.dma
  obtain ⟨lR, hR, hzR⟩ := hbuilt.res
  obtain ⟨lU, hU, hzU⟩ := hbuilt.user
  have hevenT : ∀ s ∈ tables (mappedSections zone) 0 0, s.Even := by
    intro s hs
    obtain ⟨t, ht, pg, bm, rfl⟩ := exists_of_mem_tables hs
    exact ⟨(heven t ht).nrPage_dvd, (heven t ht).nrPage_lt⟩
  have hevenK : ∀ s ∈ bootedKernel info zone, s.EvenCut := by
    refine forall_bootedKernel fun t ht _ _ _ _ => ?_
    obtain ⟨⟨hdvd, hlt⟩, hnonneg, hmaped⟩ := hcut t ht
    exact ⟨⟨hdvd, hlt⟩, hnonneg, hmaped⟩
  have hspan : ∀ (s : Section) (id : ℕ),
      Section.wordSpan { s with sectionTableId := id } = s.wordSpan := fun _ _ => rfl
  have hbooted : (bootedKernel info zone).map Section.area =
      (tables (zone .kernel).memorySection 0 0).map Section.area := by
    refine map_modify_eq (fun s => ?_) _ _
    rw [Section.booted]
    split_ifs <;> rfl
  have hcount : ∀ w, count ((sections bank.zone).map Section.wordSpan) w ≤
      if w < wordsEnd (mappedSections zone) 0 then 1 else 0 := by
    intro w
    have hareas := count_areas (mappedSections zone) 0 0 w
    simp only [Nat.zero_le, true_and] at hareas
    rw [← hareas, ← mappedSections_tabledZones]
    rw [← mappedSections_tabledZones] at hevenT
    have hsplit := count_kept_user hevenK w
    have hdma := count_words (fun s hs => hevenT s (by simp [mappedSections, hs]) :
      ∀ s ∈ (tabledZones zone .dma).memorySection, s.Even) w
    have hres := count_words (fun s hs => hevenT s (by simp [mappedSections, hs]) :
      ∀ s ∈ (tabledZones zone .res).memorySection, s.Even) w
    simp only [sections, mappedSections, hzK, hzD, hzR, hzU, List.map_append, count_append,
      map_eq_of_numbered hspan hK, map_eq_of_numbered hspan hD, map_eq_of_numbered hspan hR,
      map_eq_of_numbered hspan hU]
    rw [hbooted] at hsplit
    have hkernel : (tabledZones zone .kernel).memorySection =
        tables (zone .kernel).memorySection 0 0 := rfl
    rw [hkernel]
    omega
  refine ⟨?_, ?_⟩
  · have hle : ∀ w, count ((sections bank.zone).map Section.wordSpan) w ≤ 1 := by
      intro w
      refine (hcount w).trans ?_
      split_ifs <;> omega
    exact List.pairwise_map.mp (pairwise_of_countP_le_one hle)
  · intro s hs w hw
    have hpos := count_pos (List.mem_map_of_mem hs) hw
    have hle := hcount w
    split_ifs at hle with hlt
    · exact hlt
    · omega

/-- When the only section for devices has an odd multiple of 16 pages, its last bits are in a word
of the next section, or in none that was set aside. -/
theorem Built.not_bitmapsOk (hbuilt : Built info zone words page bank) {c : Section}
    (hdma : (zone .dma).memorySection = [c]) (hdvd : 16 ∣ c.nrPage) (hnot : ¬ 64 ∣ c.nrPage)
    (hlo : 0 ≤ c.nrPage) (hhi : c.nrPage < 2 ^ 31)
    (hres : ∀ s ∈ (zone .res).memorySection, 0 < s.nrPage) :
    ¬ BitmapsOk (wordsEnd (mappedSections zone) 0) bank.zone := by
  intro hbitmaps
  obtain ⟨lD, hD, hzD⟩ := hbuilt.dma
  obtain ⟨lR, hR, hzR⟩ := hbuilt.res
  simp only [tabledZones, hdma, tables] at hD
  simp only [tabledZones, hdma] at hR
  obtain ⟨c', rest, ⟨id, rfl⟩, hrest, rfl⟩ := List.forall₂_cons_left_iff.mp hD
  obtain rfl := List.forall₂_nil_left_iff.mp hrest
  have hshort := bitsToLong_lt hdvd hnot hlo hhi
  generalize hbm : wordsEnd (zone .kernel).memorySection 0 = bm at *
  -- The first word behind the area of the section holds some of its bits.
  have hmem : ∀ s ∈ (bank.zone .dma).memorySection, s ∈ sections bank.zone := fun s hs => by
    simp [sections, mappedSections, hs]
  rw [hzD] at hmem
  have hlast := hbitmaps.inside _ (hmem _ List.mem_cons_self) (bm + bitsToLong c.nrPage)
    ⟨Nat.le_add_right _ _, Nat.add_lt_add_left hshort _⟩
  have hnext : wordsEnd ((zone .kernel).memorySection ++ [c]) 0 = bm + bitsToLong c.nrPage := by
    rw [wordsEnd_append, hbm]
    simp [wordsEnd]
  cases hsections : (zone .res).memorySection with
  | nil =>
    rw [mappedSections, hdma, hsections, List.append_nil, hnext] at hlast
    exact absurd hlast (lt_irrefl _)
  | cons r rs =>
    rw [hsections, hnext] at hR
    obtain ⟨r', rest, ⟨id', rfl⟩, -, rfl⟩ := List.forall₂_cons_left_iff.mp hR
    have hpos := hres r (by rw [hsections]; exact List.mem_cons_self)
    have hapart := hbitmaps.apart
    simp only [sections, mappedSections, hzD, hzR] at hapart
    have hdmaRes := (List.pairwise_append.mp (List.pairwise_append.mp hapart).1).2.2
    refine hdmaRes _ (List.mem_append_right _ List.mem_cons_self) _ List.mem_cons_self
      (bm + bitsToLong c.nrPage) ⟨⟨Nat.le_add_right _ _, Nat.add_lt_add_left hshort _⟩, le_rfl, ?_⟩
    simp only [Section.wordSpan, Section.words, Section.tabled]
    omega

/-- What `map_memory` maps of a kernel section ends with a word. -/
theorem Section.Given.evenCut {s s' : Section} (h : s.Given s') (hs : s.Fresh)
    (hphy : 2 ^ 20 ∣ s.phyStart) (hdvd : 64 ∣ s.nrPage) : s'.EvenCut := by
  have hsize : s.size = s.nrPage * pageSize := by rw [hs.eq]
  have hlt := hs.nrPage_lt
  have hmaped : s.mapedSize = 0 := by rw [hs.eq]
  have hwindow : kernelVirtualSize = 2 ^ 30 := rfl
  obtain rfl | rfl | ⟨lim, base, -, ⟨hbase, hend, hlt', -, -⟩, rfl⟩ := h
  · exact ⟨⟨hdvd, by omega⟩, fun _ => hmaped.ge, fun _ => hmaped ▸ dvd_zero _⟩
  · refine ⟨⟨hdvd, by simp only [Section.boot, Section.place]; omega⟩, ?_, ?_⟩ <;>
    · intro hshort
      simp only [Section.Short, Section.boot, Section.place, pageSize] at hshort hsize ⊢
      omega
  · refine ⟨⟨hdvd, by simp only [Section.placed, Section.place]; omega⟩, ?_, ?_⟩ <;>
    · intro hshort
      simp only [Section.Short, Section.placed, Section.place, pageSize] at hshort hsize ⊢
      omega

/-- When the pages of all sections are multiples of 64, their bitmaps are apart. -/
theorem bitmapsOk_of_dvd {zone₀ : ZoneId → Zone} (hzone : Analysed zone₀)
    (hdvd : ∀ z, ∀ s ∈ (zone₀ z).memorySection, 64 ∣ s.nrPage) {junk : ℤ} {kstart : ℕ}
    (hbuilt : Built info (mapMemory junk kstart zone₀) words page bank) :
    BitmapsOk (wordsEnd (mappedSections (mapMemory junk kstart zone₀)) 0) bank.zone := by
  have hgiven : ∀ z, ∀ s ∈ (mapMemory junk kstart zone₀ z).memorySection,
      ∃ t ∈ (zone₀ z).memorySection, t.Given s := fun z s hs =>
    ((mapMemory_counters hzone junk kstart z).2.1 s hs).2
  have heven : ∀ z, ∀ s ∈ (mapMemory junk kstart zone₀ z).memorySection, s.Even := by
    intro z s hs
    obtain ⟨t, ht, h⟩ := hgiven z s hs
    have hlt := (hzone.fresh z t ht).nrPage_lt
    refine ⟨?_, ?_⟩ <;> rw [h.same.2.2.1]
    · exact hdvd z t ht
    · omega
  refine hbuilt.bitmapsOk (fun s hs => ?_) fun s hs => ?_
  · simp only [mappedSections, List.mem_append] at hs
    obtain (hs | hs) | hs := hs
    · exact heven .kernel s hs
    · exact heven .dma s hs
    · exact heven .res s hs
  · obtain ⟨t, ht, h⟩ := hgiven .kernel s hs
    exact h.evenCut (hzone.fresh .kernel t ht) (hzone.kernel_mb t ht) (hdvd .kernel t ht)

end Built

section Carved

/-- The memory of the kernel zone before any is taken for devices. -/
def SocMemoryInfo.normalSize (info : SocMemoryInfo) : ℕ :=
  (((regionsOf .kernel info.sorted).take zoneMaxSection).map MemoryRegion.size).sum

/-- There is a region for devices, or the memory that is taken for them has a multiple of 64
pages. -/
def SocMemoryInfo.EvenDma (info : SocMemoryInfo) : Prop :=
  (∃ r ∈ info.region, r.attr = .dma) ∨ 2 ^ 22 ∣ info.normalSize ∨ 2 ^ 31 ≤ info.normalSize

instance (info : SocMemoryInfo) : Decidable info.EvenDma :=
  inferInstanceAs (Decidable (_ ∨ _ ∨ _))

variable {info : SocMemoryInfo}

theorem dvd_dmaPages_iff (hok : ∀ r ∈ info.region, r.Ok)
    (hsome : 0 < ((regionsOf .kernel info.sorted).take zoneMaxSection).length) :
    64 ∣ dmaPages (filled (regionsOf .kernel info.sorted)).pageNum ↔
      2 ^ 22 ∣ info.normalSize ∨ 2 ^ 31 ≤ info.normalSize := by
  have hregion := regionsOf_ok hok .kernel
  obtain ⟨hdvd, hlo, -⟩ := pageNum_filled hregion
  obtain ⟨heq, -, -, -⟩ := dmaPages_spec (by omega) hdvd
  have hsum : (filled (regionsOf .kernel info.sorted)).pageNum * pageSize = info.normalSize :=
    sum_nrPage fun r hr => hregion r (List.mem_of_mem_take hr)
  simp only [pageSize] at hsum
  rw [heq]
  omega

theorem regionsOf_dma_eq_nil_iff :
    regionsOf .dma info.sorted = [] ↔ ¬ ∃ r ∈ info.region, r.attr = .dma := by
  have hperm := regionsOf_perm info .dma
  constructor
  · rintro hnil ⟨r, hr, hattr⟩
    have hmem : r ∈ regionsOf .dma info.sorted := by
      rw [hperm.mem_iff]
      simp [regionsOf, hr, hattr, MemAttr.zone]
    simp [hnil] at hmem
  · intro hnone
    apply List.filter_eq_nil_iff.mpr
    intro r hr hzone
    apply hnone
    refine ⟨r, (sortRegions_perm _ _).mem_iff.mp hr, ?_⟩
    cases hattr : r.attr <;> simp [MemAttr.zone, hattr] at hzone ⊢

/-- On a platform with even memory for devices, all sections have multiples of 64 pages. -/
theorem SocMemoryInfo.EvenDma.dvd (heven : info.EvenDma) (hok : ∀ r ∈ info.region, r.Ok)
    {zone : ZoneId → Zone} (hzone : analyseSocMemoryInfo info = some zone) :
    ∀ z, ∀ s ∈ (zone z).memorySection, 64 ∣ s.nrPage := by
  have hwhole : ∀ z, ∀ s ∈ (filled (regionsOf z info.sorted)).memorySection, 64 ∣ s.nrPage := by
    intro z s hs
    have := (filled_whole (regionsOf_ok hok z) s hs).nrPage_mb
    omega
  have hanalysed := analyseSocMemoryInfo_analysed hok hzone
  intro z s hs
  obtain ⟨-, hfilled⟩ | ⟨hnil, init, pr, pages, hcarved⟩ := analyseSocMemoryInfo_carved hok hzone
  · rw [hfilled] at hs
    exact hwhole z s hs
  · have hpages : 64 ∣ pages := by
      rw [hcarved.pages_eq, dvd_dmaPages_iff hok hcarved.some_kernel]
      exact heven.resolve_left (regionsOf_dma_eq_nil_iff.mp hnil)
    cases z with
    | kernel =>
      rw [hcarved.kernel] at hs
      obtain hs | hs := List.mem_append.mp hs
      · have := (hcarved.init_whole s hs).nrPage_mb
        omega
      · have hpr := hcarved.pr_whole.nrPage_mb
        rw [List.mem_singleton.mp hs]
        simp only [carved]
        omega
    | dma =>
      obtain ⟨-, -, hnrPage, -⟩ := carvedRegion_fits hcarved.pr_whole hcarved.pages_ge
        hcarved.pages_le hcarved.pages_dvd
      have hsection : (sectionOf (carvedRegion pr pages)).nrPage = pages := hnrPage
      rw [hcarved.dma] at hs
      rw [List.mem_singleton.mp hs, hsection]
      exact hpages
    | res =>
      have := (hanalysed.res_whole s hs).nrPage_mb
      omega
    | user =>
      rw [hanalysed.user_eq] at hs
      simp at hs

/-- The bitmaps are as they should be exactly when there is a region for devices or the memory that
is taken for them has a multiple of 64 pages, whatever else the platform is like. -/
theorem mmInit_bitmapsOk_iff (hinfo : info.Registered)
    (hkernel : ∃ r ∈ info.region, r.attr = .normal) (junk : ℤ) (words : Bitmap) (page : ℕ → Page) :
    ∃ zone bank, analyseSocMemoryInfo info = some zone ∧ mmInit junk info words page = some bank ∧
      (BitmapsOk (initSectionsBitmap (initSectionsPageTable
          (mapMemory junk info.kernelPhysicalStart zone)).1).2 bank.zone ↔ info.EvenDma) := by
  have hok := hinfo.ok
  obtain ⟨r, hr, hattr⟩ := hkernel
  have hne : regionsOf .kernel info.region ≠ [] :=
    List.ne_nil_of_mem (mem_regionsOf_kernel.mpr ⟨hr, hattr⟩)
  obtain ⟨zone, hzone⟩ := isSome_iff_exists.mp
    (analyseSocMemoryInfo_isSome hok hne)
  have hanalysed := analyseSocMemoryInfo_analysed hok hzone
  obtain ⟨bank, hbank⟩ := mmInit_isSome junk hok hzone hne words page
  obtain ⟨zone', hzone', hbuilt⟩ := mmInit_built hok hbank
  obtain rfl : zone = zone' := some.inj (hzone.symm.trans hzone')
  refine ⟨zone, bank, hzone, hbank, ?_⟩
  rw [(initSections_eq _).2]
  refine ⟨fun hbitmaps => ?_, fun heven => ?_⟩
  · obtain ⟨hdma, -⟩ | ⟨hnil, init, pr, pages, hcarved⟩ := analyseSocMemoryInfo_carved hok hzone
    · exact Or.inl (not_not.mp (mt regionsOf_dma_eq_nil_iff.mpr hdma))
    · by_contra hnot
      obtain ⟨-, -, hnrPage, -⟩ := carvedRegion_fits hcarved.pr_whole hcarved.pages_ge
        hcarved.pages_le hcarved.pages_dvd
      obtain ⟨l, base, hl, hz⟩ := mapMemory_given hanalysed junk info.kernelPhysicalStart .dma
      rw [hcarved.dma] at hl
      obtain ⟨c, rest, hc, hrest, rfl⟩ := List.forall₂_cons_left_iff.mp hl
      obtain rfl := List.forall₂_nil_left_iff.mp hrest
      have hcPages : c.nrPage = pages := hc.same.2.2.1.trans hnrPage
      have hodd : ¬ 64 ∣ pages := by
        rw [hcarved.pages_eq, dvd_dmaPages_iff hok hcarved.some_kernel]
        exact fun h => hnot (Or.inr h)
      have hlo := hcarved.pages_ge
      have hhi := hcarved.pages_le
      refine hbuilt.not_bitmapsOk (by rw [hz]) (hcPages ▸ hcarved.pages_dvd) (hcPages ▸ hodd)
        (by omega) (by omega) ?_ hbitmaps
      intro s hs
      obtain ⟨t, ht, hgiven⟩ :=
        ((mapMemory_counters hanalysed junk info.kernelPhysicalStart .res).2.1 s hs).2
      rw [hgiven.same.2.2.1]
      exact (hanalysed.res_whole t ht).nrPage_pos
  · exact bitmapsOk_of_dvd hanalysed (heven.dvd hok hzone) hbuilt

/-- The bitmaps of a small platform are right. -/
theorem mmInit_bitmapsOk_smallBoard :
    smallBoard.EvenDma ∧ ∃ zone bank, analyseSocMemoryInfo smallBoard = some zone ∧
      mmInit 0 smallBoard (fun _ => 0) (fun _ => zeroPage) = some bank ∧
      BitmapsOk (initSectionsBitmap (initSectionsPageTable
        (mapMemory 0 smallBoard.kernelPhysicalStart zone)).1).2 bank.zone := by
  have heven : smallBoard.EvenDma := by decide +kernel
  obtain ⟨zone, bank, hzone, hbank, hiff⟩ := mmInit_bitmapsOk_iff smallBoard_usable.registered
    (by decide) 0 (fun _ => 0) fun _ => zeroPage
  exact ⟨heven, zone, bank, hzone, hbank, hiff.mpr heven⟩

/-- A platform with 66 MB of memory, and 1 MB of reserved memory. -/
def oddBoard : SocMemoryInfo where
  codeEnd := 0x80100000
  kernelPhysicalStart := 0
  region := [⟨0, 66 * 2 ^ 20, .normal⟩, ⟨2 ^ 27, 2 ^ 20, .res⟩]

/-- The bitmap of the section for devices, of 33 words, runs into that of the reserved memory. -/
theorem oddBoard_bitmaps :
    oddBoard.Registered ∧ oddBoard.Disjoint ∧
      ∃ bank, mmInit 0 oddBoard (fun _ => 0) (fun _ => zeroPage) = some bank ∧
        ∀ total, ¬ BitmapsOk total bank.zone := by
  have hdisjoint : oddBoard.Disjoint := by
    refine List.pairwise_pair.mpr fun x => ?_
    simp only [MemoryRegion.Has, u32]
    omega
  refine ⟨⟨[(0, 66 * 2 ^ 20, .normal), (2 ^ 27, 2 ^ 20, .res)], by decide +kernel⟩, hdisjoint, ?_⟩
  refine Runs.exists_some_imp (P := fun bank =>
    (bank.zone .dma).memorySection.map Section.wordSpan = [(494, 33)] ∧
      (bank.zone .res).memorySection.map Section.wordSpan = [(526, 8)]) (by decide +kernel) ?_
  rintro bank - ⟨hdma, hres⟩ total hbitmaps
  have hapart : ((sections bank.zone).map Section.wordSpan).Pairwise fun p q =>
      ∀ w, ¬ (Holds p w ∧ Holds q w) := List.pairwise_map.mpr hbitmaps.apart
  simp only [sections, mappedSections, List.map_append, hdma, hres] at hapart
  have hdmaRes := (List.pairwise_append.mp (List.pairwise_append.mp hapart).1).2.2
  exact hdmaRes (494, 33) (by simp) (526, 8) (by simp) 526 ⟨by decide, by decide⟩

end Carved

end Chunos.Bank
