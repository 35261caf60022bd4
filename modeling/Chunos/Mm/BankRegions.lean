import Chunos.Lib.Cover
import Chunos.Mm.Bank

/-!
# From regions to sections

Registered regions are multiples of 1 MB and shorter than 2 GB, so a `size_t` holds their
sizes. The sort puts them in order, and each zone gets the first four regions that are meant
for it, one section a region. When there is no region for devices, the end of the last kernel
section becomes one. If that section is too short for it, its size gets negative.
-/

namespace Chunos.Bank

open Function List Option

section Arithmetic

theorem u32_natCast {n : ℕ} (hn : n < 2 ^ 32) : u32 n = n := by
  unfold u32
  omega

theorem u32_eq {x : ℤ} (hlo : 0 ≤ x) (hhi : x < 2 ^ 32) : u32 x = x.toNat := by
  unfold u32
  omega

variable {k addr : ℕ}

theorem alignDown_two_pow (hk : k < 32) (addr : ℕ) :
    alignDown addr (2 ^ k) = addr % 2 ^ 32 / 2 ^ k * 2 ^ k := by
  rw [alignDown, toNat_minAlign_two_pow hk, BitVec.toNat_ofNat]

theorem alignUp_two_pow (hk : k < 32) (haddr : addr + 2 ^ k ≤ 2 ^ 32) :
    alignUp addr (2 ^ k) = (addr + 2 ^ k - 1) / 2 ^ k * 2 ^ k := by
  have hpos : 0 < 2 ^ k := Nat.two_pow_pos k
  have hmod : (BitVec.ofNat 32 addr).toNat = addr := by
    rw [BitVec.toNat_ofNat, Nat.mod_eq_of_lt (by omega)]
  rw [alignUp, toNat_align_two_pow hk (by rwa [hmod]), hmod]

theorem dvd_alignUp (hk : k < 32) (addr : ℕ) : 2 ^ k ∣ alignUp addr (2 ^ k) := by
  have h := toNat_minAlign_two_pow hk
    (BitVec.ofNat 32 addr + (BitVec.ofNat 32 (2 ^ k) - 1))
  exact ⟨_, h.trans (Nat.mul_comm _ _)⟩

theorem pdeMinAlign_eq (haddr : addr < 2 ^ 32) : pdeMinAlign addr = addr / 2 ^ 22 * 2 ^ 22 := by
  rw [pdeMinAlign, pdeAlignSize, alignDown_two_pow (by norm_num), Nat.mod_eq_of_lt haddr]

theorem pdeAlign_eq (haddr : addr ≤ 2 ^ 32 - 2 ^ 22) :
    pdeAlign addr = (addr + 2 ^ 22 - 1) / 2 ^ 22 * 2 ^ 22 := by
  rw [pdeAlign, pdeAlignSize, alignUp_two_pow (by norm_num) (by omega)]

theorem dvd_pdeAlign (addr : ℕ) : 2 ^ 22 ∣ pdeAlign addr := dvd_alignUp (by norm_num) addr

theorem bitsToLong_eq (n : ℤ) : bitsToLong n = u32 (n + 8) / 64 * 2 := by
  have hmask : (BitVec.ofInt 32 n + 8#32) &&& 0xffffffc0#32 =
      minAlign (BitVec.ofInt 32 n + 8#32) (BitVec.ofNat 32 (2 ^ 6)) := rfl
  have hsum : (BitVec.ofInt 32 n + 8#32).toNat = u32 (n + 8) := by
    rw [BitVec.toNat_add, BitVec.toNat_ofInt, BitVec.toNat_ofNat, u32]
    omega
  rw [bitsToLong, hmask, toNat_minAlign_two_pow (by norm_num), hsum]
  omega

theorem alignDown_pageSize (haddr : pageSize ∣ addr) : alignDown addr pageSize = addr % 2 ^ 32 := by
  have hpage : pageSize = 2 ^ 12 := rfl
  rw [hpage] at haddr ⊢
  rw [alignDown_two_pow (by norm_num)]
  omega

theorem alignUp_pageSize (hlt : addr < 2 ^ 32) (haddr : pageSize ∣ addr) :
    alignUp addr pageSize = addr := by
  have hpage : pageSize = 2 ^ 12 := rfl
  rw [hpage] at haddr ⊢
  rw [alignUp_two_pow (by norm_num) (by omega)]
  omega

end Arithmetic

section Registration

/-- What a registered region is like. -/
structure MemoryRegion.Ok (r : MemoryRegion) : Prop where
  start_lt : r.start < 2 ^ 32
  start_dvd : 2 ^ 20 ∣ r.start
  size_pos : 0 < r.size
  size_lt : r.size < 2 ^ 31
  size_dvd : 2 ^ 20 ∣ r.size

/-- The regions have been registered, one after the other. -/
def SocMemoryInfo.Registered (info : SocMemoryInfo) : Prop :=
  ∃ calls : List (ℕ × ℤ × MemAttr),
    info = calls.foldl (fun info c => registerMemoryRegion c.1 c.2.1 c.2.2 info)
      { info with region := [] }

/-- `register_memory_region` adds a region of this kind, or none. -/
theorem registerMemoryRegion_spec (start : ℕ) (size : ℤ) (attr : MemAttr) (info : SocMemoryInfo) :
    registerMemoryRegion start size attr info = info ∨
      ∃ r : MemoryRegion, r.Ok ∧
        registerMemoryRegion start size attr info = { info with region := info.region ++ [r] } := by
  unfold registerMemoryRegion
  simp only
  split_ifs with hroom hsize
  · right
    refine ⟨_, ?_, rfl⟩
    obtain ⟨-, hpage⟩ := hsize
    generalize wrap32 _ = x at hpage ⊢
    have hstart := toNat_minAlign_two_pow (k := 20) (by norm_num)
      (BitVec.ofNat 32 start + BitVec.ofNat 32 (2 ^ 20) - 1)
    have hdown := toNat_minAlign_two_pow (k := 20) (by norm_num) (BitVec.ofInt 32 x)
    have hint := BitVec.toInt_eq_toNat_cond (minAlign (BitVec.ofInt 32 x) (BitVec.ofNat 32 (2 ^ 20)))
    have hlt := (minAlign (BitVec.ofInt 32 x) (BitVec.ofNat 32 (2 ^ 20))).isLt
    simp only [size1M, pageSize] at hpage ⊢
    rw [hdown] at hint hlt
    refine ⟨BitVec.isLt _, ⟨_, hstart.trans (Nat.mul_comm _ _)⟩, ?_, ?_, ?_⟩
    · simp only
      omega
    · simp only
      split_ifs at hint <;> omega
    · simp only
      split_ifs at hint with hsmall
      · rw [hint, Int.toNat_natCast]
        exact Nat.dvd_mul_left _ _
      · omega
  · exact Or.inl rfl
  · exact Or.inl rfl

/-- Registered regions are multiples of 1 MB that a `size_t` can hold. -/
theorem SocMemoryInfo.Registered.ok {info : SocMemoryInfo} (h : info.Registered) :
    ∀ r ∈ info.region, r.Ok := by
  obtain ⟨calls, hcalls⟩ := h
  rw [hcalls]
  refine calls.foldlRecOn (motive := fun info : SocMemoryInfo => ∀ r ∈ info.region, r.Ok) _ (by simp)
    fun info hinfo c _ => ?_
  obtain h | ⟨r, hr, h⟩ := registerMemoryRegion_spec c.1 c.2.1 c.2.2 info
  · rwa [h]
  · rw [h]
    intro r' hr'
    obtain hr' | hr' := mem_append.mp hr'
    · exact hinfo r' hr'
    · rw [mem_singleton.mp hr']
      exact hr

end Registration

section Sorting

/-- The inner loop finds one of the regions, and none starts below it. -/
theorem minRegion_spec (min : MemoryRegion) (rest : List MemoryRegion) :
    minRegion min rest ∈ min :: rest ∧ ∀ r ∈ min :: rest, (minRegion min rest).start ≤ r.start := by
  induction rest generalizing min with
  | nil => simp [minRegion]
  | cons r rest ih =>
    rw [minRegion]
    obtain ⟨hmem, hle⟩ := ih (if min.start > r.start then r else min)
    have hfirst := hle _ mem_cons_self
    refine ⟨?_, ?_⟩
    · obtain h | h := mem_cons.mp hmem
      · rw [h]
        split_ifs <;> simp
      · simp [h]
    · intro r' hr'
      obtain rfl | rfl | hr' := by simpa using hr'
      · split_ifs at hfirst ⊢ with hlt
        · omega
        · exact hfirst
      · split_ifs at hfirst ⊢ with hlt
        · exact hfirst
        · omega
      · exact hle r' (mem_cons_of_mem _ hr')

theorem replace_perm {r m : MemoryRegion} {rest : List MemoryRegion} (hm : m ∈ r :: rest) :
    (m :: rest.replace m r).Perm (r :: rest) := by
  induction rest with
  | nil =>
    obtain rfl : m = r := by simpa using hm
    simp
  | cons x rest ih =>
    by_cases hx : x = m
    · subst hx
      rw [replace_cons_self]
      exact List.Perm.swap _ _ _
    · have hm' : m ∈ r :: rest := by
        obtain h | h | h := by simpa using hm
        · simp [h]
        · exact absurd h.symm hx
        · simp [h]
      have hne : (m == x) = false := by simpa using Ne.symm hx
      rw [replace_cons, hne]
      exact (List.Perm.swap _ _ _).trans (((ih hm').cons x).trans (List.Perm.swap _ _ _))

theorem sortRegions_perm (n : ℕ) (region : List MemoryRegion) :
    (sortRegions n region).Perm region := by
  induction n generalizing region with
  | zero => exact List.Perm.refl _
  | succ n ih =>
    cases region with
    | nil => exact List.Perm.refl _
    | cons r rest => exact ((ih _).cons _).trans (replace_perm (minRegion_spec r rest).1)

theorem sortRegions_sorted {n : ℕ} {region : List MemoryRegion} (hn : region.length ≤ n) :
    (sortRegions n region).Pairwise fun a b => a.start ≤ b.start := by
  induction n generalizing region with
  | zero =>
    rw [length_eq_zero_iff.mp (by omega : region.length = 0)]
    exact List.Pairwise.nil
  | succ n ih =>
    cases region with
    | nil => exact List.Pairwise.nil
    | cons r rest =>
      have hperm := replace_perm (minRegion_spec r rest).1
      simp only [length_cons] at hn
      have hlength := hperm.length_eq
      simp only [length_cons] at hlength
      refine pairwise_cons.mpr ⟨?_, ih (by omega)⟩
      intro r' hr'
      have hin := (sortRegions_perm n _).mem_iff.mp hr'
      exact (minRegion_spec r rest).2 r' (hperm.subset (mem_cons_of_mem _ hin))

end Sorting

section Sections

/-- The regions in their order. -/
def SocMemoryInfo.sorted (info : SocMemoryInfo) : List MemoryRegion :=
  sortRegions info.region.length info.region

/-- The regions for a zone. -/
def regionsOf (z : ZoneId) (region : List MemoryRegion) : List MemoryRegion :=
  region.filter fun r => r.attr.zone = some z

/-- The pages of a region. -/
def MemoryRegion.nrPage (r : MemoryRegion) : ℤ := r.size / pageSize

/-- The section for a region. -/
def sectionOf (r : MemoryRegion) : Section :=
  { phyStart := r.start, size := r.size, nrPage := r.nrPage, nrFreePages := r.nrPage }

/-- A zone with sections for the first four of these regions. -/
def filled (region : List MemoryRegion) : Zone :=
  { memorySection := (region.take zoneMaxSection).map sectionOf
    nrSection := (region.take zoneMaxSection).length
    pageNum := ((region.take zoneMaxSection).map MemoryRegion.nrPage).sum
    nrFreePages := ((region.take zoneMaxSection).map MemoryRegion.nrPage).sum }

/-- A region of whole pages whose size a `size_t` can hold. -/
structure MemoryRegion.Fits (r : MemoryRegion) : Prop where
  start_lt : r.start < 2 ^ 32
  start_dvd : pageSize ∣ r.start
  size_pos : 0 < r.size
  size_lt : r.size < 2 ^ 31
  size_dvd : pageSize ∣ r.size

variable {r : MemoryRegion} {zone : ZoneId → Zone} {info : SocMemoryInfo} {pr : Section}

theorem MemoryRegion.Ok.fits (h : r.Ok) : r.Fits :=
  ⟨h.start_lt, (by decide : pageSize ∣ 2 ^ 20).trans h.start_dvd, h.size_pos, h.size_lt,
    (by decide : pageSize ∣ 2 ^ 20).trans h.size_dvd⟩

/-- `insert_region_to_zone` adds the section of the region while there is a free slot. -/
theorem insertRegionToZone_eq (hr : r.Fits) (zone : Zone) :
    insertRegionToZone r zone = if zone.nrSection = zoneMaxSection then zone
      else { zone with
        memorySection := zone.memorySection ++ [sectionOf r]
        nrSection := zone.nrSection + 1
        pageNum := zone.pageNum + r.nrPage
        nrFreePages := zone.pageNum + r.nrPage } := by
  obtain ⟨hstart, hstartDvd, hpos, hlt, hdvd⟩ := hr
  have hend := alignDown_pageSize (Nat.dvd_add hstartDvd hdvd)
  have hbase := alignUp_pageSize hstart hstartDvd
  have hsize : wrap32 (((r.start + r.size) % 2 ^ 32 : ℕ) - (r.start : ℤ)) = r.size := by
    unfold wrap32
    rw [Int.bmod_def]
    split_ifs <;> omega
  have hpage : ¬ ((r.size : ℤ) < pageSize) := by
    have := Nat.le_of_dvd hpos hdvd
    omega
  simp only [insertRegionToZone, hend, hbase, hsize, if_neg hpage, sectionOf, MemoryRegion.nrPage]

/-- A region for a zone that has been filled so far. -/
theorem insertRegionToZone_filled (hr : r.Fits) (region : List MemoryRegion) :
    insertRegionToZone r (filled region) = filled (region ++ [r]) := by
  rw [insertRegionToZone_eq hr]
  by_cases hfull : zoneMaxSection ≤ region.length
  · have hlength : (filled region).nrSection = zoneMaxSection := by
      simp only [filled, length_take]
      omega
    have htake : (region ++ [r]).take zoneMaxSection = region.take zoneMaxSection :=
      take_append_of_le_length hfull
    rw [if_pos hlength, filled, filled, htake]
  · have hall : region.take zoneMaxSection = region := take_of_length_le (by omega)
    have hall' : (region ++ [r]).take zoneMaxSection = region ++ [r] :=
      take_of_length_le (by simp; omega)
    have hlength : (filled region).nrSection ≠ zoneMaxSection := by
      simp only [filled, length_take]
      omega
    rw [if_neg hlength]
    simp [filled, hall, hall']

/-- The loop over the regions fills each zone with the regions that are meant for it. -/
theorem foldl_insertRegion {l : List MemoryRegion} (hl : ∀ r ∈ l, r.Fits)
    (region : ZoneId → List MemoryRegion) (hzone : ∀ z, zone z = filled (region z)) (z : ZoneId) :
    l.foldl insertRegion zone z = filled (region z ++ regionsOf z l) := by
  induction l generalizing region zone with
  | nil => simp [regionsOf, hzone]
  | cons r l ih =>
    rw [foldl_cons, ih (fun r' hr' => hl r' (mem_cons_of_mem r hr'))
      (fun z => region z ++ regionsOf z [r])]
    · rw [append_assoc, regionsOf, regionsOf, ← filter_append]
      rfl
    · intro z'
      unfold insertRegion
      cases hz : r.attr.zone with
      | none => simp [regionsOf, hz, hzone]
      | some z₁ =>
        by_cases hzz : z' = z₁
        · subst hzz
          simp only [update_self, hzone]
          rw [insertRegionToZone_filled (hl r mem_cons_self)]
          simp [regionsOf, hz]
        · simp [regionsOf, hz, hzz, Ne.symm hzz, hzone]

theorem getMemorySections_eq (hinfo : ∀ r ∈ info.region, r.Ok)
    (h : getMemorySections info = some zone) (z : ZoneId) :
    zone z = filled (regionsOf z info.sorted) := by
  unfold getMemorySections at h
  split_ifs at h
  obtain rfl := some.inj h
  have hsorted : ∀ r ∈ info.sorted, r.Fits := fun r hr =>
    (hinfo r ((sortRegions_perm _ _).mem_iff.mp hr)).fits
  exact foldl_insertRegion hsorted (fun _ => []) (fun _ => rfl) z

/-- The last kernel section, without the pages for devices. -/
def carved (pr : Section) (pages : ℤ) : Section :=
  { pr with
    nrPage := pr.nrPage - pages
    nrFreePages := pr.nrFreePages - pages
    size := pr.size - pages * pageSize }

/-- The region that is cut from the last kernel section. -/
def carvedRegion (pr : Section) (pages : ℤ) : MemoryRegion :=
  { start := u32 (pr.phyStart + (pr.nrPage - pages) * pageSize)
    size := u32 (pages * pageSize)
    attr := .dma }

/-- The pages of a zone of registered regions: whole megabytes, and not too many. -/
theorem pageNum_filled {region : List MemoryRegion} (hregion : ∀ r ∈ region, r.Ok) :
    256 ∣ (filled region).pageNum ∧
      256 * ((region.take zoneMaxSection).length : ℤ) ≤ (filled region).pageNum ∧
      (filled region).pageNum ≤ 2 ^ 19 * ((region.take zoneMaxSection).length : ℤ) := by
  have hsum : ∀ l : List MemoryRegion, (∀ r ∈ l, r.Ok) →
      256 ∣ (l.map MemoryRegion.nrPage).sum ∧
        256 * (l.length : ℤ) ≤ (l.map MemoryRegion.nrPage).sum ∧
        (l.map MemoryRegion.nrPage).sum ≤ 2 ^ 19 * (l.length : ℤ) := by
    intro l hl
    induction l with
    | nil => simp
    | cons r l ih =>
      obtain ⟨hdvd, hlo, hhi⟩ := ih fun r' hr' => hl r' (mem_cons_of_mem r hr')
      obtain ⟨-, -, hpos, hlt, hsize⟩ := hl r mem_cons_self
      simp only [map_cons, sum_cons, length_cons, MemoryRegion.nrPage, pageSize]
      push_cast
      refine ⟨?_, ?_, ?_⟩ <;> omega
  exact hsum _ fun r hr => hregion r (mem_of_mem_take hr)

theorem dmaPages_spec {pageNum : ℤ} (hpos : 256 ≤ pageNum) (hdvd : 256 ∣ pageNum) :
    dmaPages pageNum = min (pageNum / 16) (2 ^ 15) ∧ 16 ≤ dmaPages pageNum ∧
      dmaPages pageNum ≤ 2 ^ 15 ∧ 16 ∣ dmaPages pageNum := by
  have heq : dmaPages pageNum = min (pageNum / 16) (2 ^ 15) := by
    simp only [dmaPages, kernelDmaSize, pageSize]
    split_ifs <;> omega
  rw [heq]
  refine ⟨rfl, ?_, ?_, ?_⟩ <;> omega

/-- The zones after `analyse_soc_memory_info`: one section for each region, and without
regions for devices the last kernel section is cut in two. -/
theorem analyseSocMemoryInfo_cases (hinfo : ∀ r ∈ info.region, r.Ok)
    (h : analyseSocMemoryInfo info = some zone) :
    (regionsOf .dma info.sorted ≠ [] ∧ ∀ z, zone z = filled (regionsOf z info.sorted)) ∨
    (regionsOf .dma info.sorted = [] ∧ ∃ init pr,
      (filled (regionsOf .kernel info.sorted)).memorySection = init ++ [pr] ∧
      zone = update (update (fun z => filled (regionsOf z info.sorted)) .kernel
        { filled (regionsOf .kernel info.sorted) with
          memorySection := init ++
            [carved pr (dmaPages (filled (regionsOf .kernel info.sorted)).pageNum)]
          pageNum := (filled (regionsOf .kernel info.sorted)).pageNum -
            dmaPages (filled (regionsOf .kernel info.sorted)).pageNum
          nrFreePages := (filled (regionsOf .kernel info.sorted)).pageNum -
            dmaPages (filled (regionsOf .kernel info.sorted)).pageNum })
        .dma (insertRegionToZone
          (carvedRegion pr (dmaPages (filled (regionsOf .kernel info.sorted)).pageNum)) {})) := by
  obtain ⟨zone₁, hzone₁, hrest⟩ := bind_eq_some_iff.mp h
  have heq := getMemorySections_eq hinfo hzone₁
  obtain rfl : zone₁ = fun z => filled (regionsOf z info.sorted) := funext heq
  have hnone : (filled (regionsOf .dma info.sorted)).nrSection = 0 ↔
      regionsOf .dma info.sorted = [] := by
    simp [filled, zoneMaxSection]
  simp only at hrest
  split_ifs at hrest with hdma
  · right
    have hnil := hnone.mp hdma
    refine ⟨hnil, ?_⟩
    obtain ⟨pr, hpr, rfl⟩ := map_eq_some_iff.mp hrest
    obtain ⟨init, hinit⟩ := getLast?_eq_some_iff.mp hpr
    refine ⟨init, pr, hinit, ?_⟩
    have hempty : filled (regionsOf .dma info.sorted) = {} := by
      rw [hnil]
      rfl
    simp only [hempty, carved, carvedRegion]
    rw [hinit, dropLast_concat]
  · left
    exact ⟨mt hnone.mpr hdma, fun z => congrFun (some.inj hrest).symm z⟩

/-- A section as it is before it is mapped. Only the last kernel section can be too short for
what has been cut from it. -/
structure Section.Fresh (s : Section) : Prop where
  eq : s = { phyStart := s.phyStart, size := s.nrPage * pageSize, nrPage := s.nrPage
             nrFreePages := s.nrPage }
  phyStart_lt : s.phyStart < 2 ^ 32
  phyStart_dvd : 2 ^ 16 ∣ s.phyStart
  nrPage_dvd : 16 ∣ s.nrPage
  nrPage_ge : -2 ^ 15 ≤ s.nrPage
  nrPage_lt : s.nrPage < 2 ^ 19

/-- A section for a registered region. -/
structure Section.Whole (s : Section) : Prop extends s.Fresh where
  phyStart_mb : 2 ^ 20 ∣ s.phyStart
  nrPage_mb : 256 ∣ s.nrPage
  nrPage_pos : 0 < s.nrPage

theorem sectionOf_whole (hr : r.Ok) : (sectionOf r).Whole := by
  obtain ⟨hstart, hdvd, hpos, hlt, hsize⟩ := hr
  have hpages : (r.size : ℤ) = r.size / pageSize * pageSize := by
    simp only [pageSize]
    omega
  refine ⟨⟨?_, hstart, ?_, ?_, ?_, ?_⟩, hdvd, ?_, ?_⟩
  · simp only [sectionOf, MemoryRegion.nrPage, ← hpages]
  · exact (by decide : 2 ^ 16 ∣ 2 ^ 20).trans hdvd
  all_goals
    simp only [sectionOf, MemoryRegion.nrPage, pageSize]
    omega

/-- The zones as `analyse_soc_memory_info` leaves them. -/
structure Analysed (zone : ZoneId → Zone) : Prop where
  fresh : ∀ z, ∀ s ∈ (zone z).memorySection, s.Fresh
  kernel_whole : ∀ s ∈ (zone .kernel).memorySection.dropLast, s.Whole
  kernel_mb : ∀ s ∈ (zone .kernel).memorySection, 2 ^ 20 ∣ s.phyStart
  dma_pos : ∀ s ∈ (zone .dma).memorySection, 0 < s.nrPage
  res_whole : ∀ s ∈ (zone .res).memorySection, s.Whole
  user_eq : zone .user = {}
  nrSection_eq : ∀ z, (zone z).nrSection = (zone z).memorySection.length
  nrSection_le : ∀ z, (zone z).nrSection ≤ zoneMaxSection
  pageNum_eq : ∀ z, (zone z).pageNum = ((zone z).memorySection.map Section.nrPage).sum
  nrFreePages_eq : ∀ z, (zone z).nrFreePages = (zone z).pageNum

theorem filled_whole {region : List MemoryRegion} (hregion : ∀ r ∈ region, r.Ok) :
    ∀ s ∈ (filled region).memorySection, s.Whole := by
  intro s hs
  obtain ⟨r, hr, rfl⟩ := List.mem_map.mp hs
  exact sectionOf_whole (hregion r (mem_of_mem_take hr))

theorem filled_pageNum (region : List MemoryRegion) :
    (filled region).pageNum = ((filled region).memorySection.map Section.nrPage).sum := by
  simp only [filled, List.map_map]
  rfl

theorem regionsOf_ok (hinfo : ∀ r ∈ info.region, r.Ok) (z : ZoneId) :
    ∀ r ∈ regionsOf z info.sorted, r.Ok := fun r hr =>
  hinfo r ((sortRegions_perm _ _).mem_iff.mp (mem_of_mem_filter hr))

variable {pages : ℤ}

theorem carved_fresh (hpr : pr.Whole) (hlo : 16 ≤ pages) (hhi : pages ≤ 2 ^ 15) (hdvd : 16 ∣ pages) :
    (carved pr pages).Fresh := by
  obtain ⟨⟨heq, hlt, h16, -, -, hmax⟩, -, h256, hpos⟩ := hpr
  have hsize : pr.size = pr.nrPage * pageSize := by rw [heq]
  have hfree : pr.nrFreePages = pr.nrPage := by rw [heq]
  refine ⟨?_, hlt, h16, ?_, ?_, ?_⟩
  · rw [heq]
    simp only [carved, Section.mk.injEq, true_and, and_true]
    ring
  all_goals
    simp only [carved]
    omega

/-- The region that has been cut off consists of whole pages. -/
theorem carvedRegion_fits (hpr : pr.Whole) (hlo : 16 ≤ pages) (hhi : pages ≤ 2 ^ 15)
    (hdvd : 16 ∣ pages) :
    (carvedRegion pr pages).Fits ∧ (sectionOf (carvedRegion pr pages)).Fresh ∧
      (carvedRegion pr pages).nrPage = pages ∧
      ((carvedRegion pr pages).size : ℤ) = pages * pageSize := by
  have hsize : ((u32 (pages * pageSize) : ℕ) : ℤ) = pages * pageSize := by
    simp only [u32, pageSize]
    omega
  have hpages : (carvedRegion pr pages).nrPage = pages := by
    simp only [MemoryRegion.nrPage, carvedRegion, hsize]
    simp only [pageSize]
    omega
  have hstart : 2 ^ 16 ∣ (carvedRegion pr pages).start := by
    have h16 := hpr.phyStart_dvd
    have h256 := hpr.nrPage_mb
    simp only [carvedRegion, u32, pageSize]
    omega
  have hstartLt : (carvedRegion pr pages).start < 2 ^ 32 := by
    simp only [carvedRegion, u32]
    omega
  refine ⟨⟨hstartLt, ?_, ?_, ?_, ?_⟩, ⟨?_, hstartLt, hstart, ?_, ?_, ?_⟩, hpages, hsize⟩
  · exact (by decide : pageSize ∣ 2 ^ 16).trans hstart
  · simp only [carvedRegion, pageSize] at hsize ⊢
    omega
  · simp only [carvedRegion, pageSize] at hsize ⊢
    omega
  · simp only [carvedRegion, pageSize] at hsize ⊢
    omega
  · simp only [sectionOf, hpages]
    rw [show ((carvedRegion pr pages).size : ℤ) = pages * pageSize from hsize]
  all_goals
    simp only [sectionOf, hpages]
    omega

/-- What `analyse_soc_memory_info` leaves. -/
theorem analyseSocMemoryInfo_analysed (hinfo : ∀ r ∈ info.region, r.Ok)
    (h : analyseSocMemoryInfo info = some zone) : Analysed zone := by
  have hwhole : ∀ z, ∀ s ∈ (filled (regionsOf z info.sorted)).memorySection, s.Whole := fun z =>
    filled_whole (regionsOf_ok hinfo z)
  have huser : filled (regionsOf .user info.sorted) = {} := by
    have hnil : regionsOf .user info.sorted = [] := by
      apply filter_eq_nil_iff.mpr
      intro r _
      cases hr : r.attr <;> simp [MemAttr.zone]
    rw [hnil]
    rfl
  obtain ⟨-, hzone⟩ | ⟨hnil, init, pr, hinit, rfl⟩ := analyseSocMemoryInfo_cases hinfo h
  · obtain rfl : zone = fun z => filled (regionsOf z info.sorted) := funext hzone
    refine ⟨fun z s hs => (hwhole z s hs).toFresh,
      fun s hs => hwhole .kernel s (mem_of_mem_dropLast hs),
      fun s hs => (hwhole .kernel s hs).phyStart_mb, fun s hs => (hwhole .dma s hs).nrPage_pos,
      hwhole .res, huser, fun z => ?_, fun z => ?_, fun z => filled_pageNum _, fun z => rfl⟩
    · simp [filled]
    · simp [filled, zoneMaxSection]
  · obtain ⟨hdvd, hlo, hhi⟩ := pageNum_filled (regionsOf_ok hinfo .kernel)
    have hsome : 0 < ((regionsOf .kernel info.sorted).take zoneMaxSection).length := by
      have := congrArg List.length hinit
      simp only [filled, length_map, length_append, length_singleton] at this
      omega
    generalize hregion : regionsOf .kernel info.sorted = region at *
    obtain ⟨-, hdlo, hdhi, hddvd⟩ := dmaPages_spec (by omega) hdvd
    have hpr : pr.Whole := hwhole .kernel pr (by rw [hregion, hinit]; simp)
    have hinitWhole : ∀ s ∈ init, s.Whole := fun s hs =>
      hwhole .kernel s (by rw [hregion, hinit]; simp [hs])
    obtain ⟨hfits, hdma, hpages, -⟩ := carvedRegion_fits hpr hdlo hdhi hddvd
    generalize hd : dmaPages (filled region).pageNum = d at *
    have hcut := carved_fresh hpr hdlo hdhi hddvd
    rw [insertRegionToZone_eq hfits, if_neg (by decide)]
    have hlength : init.length + 1 = (region.take zoneMaxSection).length := by
      simpa [filled] using (congrArg List.length hinit).symm
    have hsum : (filled region).pageNum = (init.map Section.nrPage).sum + pr.nrPage := by
      rw [filled_pageNum, hinit]
      simp
    constructor
    · intro z s hs
      cases z with
      | kernel =>
        simp only [update, reduceCtorEq, dite_false, dite_true] at hs
        obtain hs | hs := mem_append.mp hs
        · exact (hinitWhole s hs).toFresh
        · rw [mem_singleton.mp hs]
          exact hcut
      | dma =>
        simp only [update, dite_true, nil_append, mem_singleton] at hs
        rw [hs]
        exact hdma
      | res => exact (hwhole .res s hs).toFresh
      | user => exact (hwhole .user s hs).toFresh
    · intro s hs
      simp only [update, reduceCtorEq, dite_false, dite_true, dropLast_concat] at hs
      exact hinitWhole s hs
    · intro s hs
      simp only [update, reduceCtorEq, dite_false, dite_true] at hs
      obtain hs | hs := mem_append.mp hs
      · exact (hinitWhole s hs).phyStart_mb
      · rw [mem_singleton.mp hs]
        exact hpr.phyStart_mb
    · intro s hs
      simp only [update, dite_true, nil_append, mem_singleton] at hs
      rw [hs]
      simp only [sectionOf, hpages]
      omega
    · exact hwhole .res
    · exact huser
    · intro z
      cases z with
      | kernel =>
        simp only [update, reduceCtorEq, dite_false, dite_true, length_append, length_singleton]
        rw [hlength]
        rfl
      | dma => rfl
      | res => exact (length_map _).symm
      | user => exact (length_map _).symm
    · intro z
      cases z with
      | kernel => exact (length_take_le _ _)
      | dma => exact (by decide : 1 ≤ zoneMaxSection)
      | res => exact (length_take_le _ _)
      | user => exact (length_take_le _ _)
    · intro z
      cases z with
      | kernel =>
        simp only [update, reduceCtorEq, dite_false, dite_true, map_append,
          sum_append, map_cons, map_nil, sum_cons, sum_nil]
        rw [hsum]
        simp only [carved]
        ring
      | dma =>
        simp only [update, dite_true, nil_append, map_cons, map_nil, sum_cons, sum_nil, sectionOf]
        ring
      | res => exact filled_pageNum _
      | user => exact filled_pageNum _
    · intro z
      cases z with
      | kernel => rfl
      | dma => rfl
      | res => rfl
      | user => rfl

/-- The sections when the memory for devices is cut from the last kernel section. -/
structure Carved (info : SocMemoryInfo) (zone : ZoneId → Zone) (init : List Section) (pr : Section)
    (pages : ℤ) : Prop where
  filled_eq : (filled (regionsOf .kernel info.sorted)).memorySection = init ++ [pr]
  init_whole : ∀ s ∈ init, s.Whole
  pr_whole : pr.Whole
  pages_eq : pages = dmaPages (filled (regionsOf .kernel info.sorted)).pageNum
  pages_ge : 16 ≤ pages
  pages_le : pages ≤ 2 ^ 15
  pages_dvd : 16 ∣ pages
  kernel : (zone .kernel).memorySection = init ++ [carved pr pages]
  dma : (zone .dma).memorySection = [sectionOf (carvedRegion pr pages)]
  res : zone .res = filled (regionsOf .res info.sorted)
  user : zone .user = filled (regionsOf .user info.sorted)

theorem Carved.some_kernel {init : List Section} (h : Carved info zone init pr pages) :
    0 < ((regionsOf .kernel info.sorted).take zoneMaxSection).length := by
  have hlength := congrArg List.length h.filled_eq
  simp only [filled, length_map, length_append, length_singleton] at hlength
  omega

/-- The sections after `analyse_soc_memory_info`. -/
theorem analyseSocMemoryInfo_carved (hinfo : ∀ r ∈ info.region, r.Ok)
    (h : analyseSocMemoryInfo info = some zone) :
    (regionsOf .dma info.sorted ≠ [] ∧ ∀ z, zone z = filled (regionsOf z info.sorted)) ∨
      (regionsOf .dma info.sorted = [] ∧ ∃ init pr pages, Carved info zone init pr pages) := by
  obtain hfilled | ⟨hnil, init, pr, hinit, rfl⟩ := analyseSocMemoryInfo_cases hinfo h
  · exact Or.inl hfilled
  · have hwhole := filled_whole (regionsOf_ok hinfo .kernel)
    obtain ⟨hdvd, hlo, -⟩ := pageNum_filled (regionsOf_ok hinfo .kernel)
    have hsome : 0 < ((regionsOf .kernel info.sorted).take zoneMaxSection).length := by
      have hpos : 0 < (filled (regionsOf .kernel info.sorted)).memorySection.length := by
        rw [hinit]
        simp
      rwa [filled, length_map] at hpos
    obtain ⟨-, hdlo, hdhi, hddvd⟩ := dmaPages_spec (by omega) hdvd
    have hpr : pr.Whole := hwhole pr (by rw [hinit]; simp)
    obtain ⟨hfits, -⟩ := carvedRegion_fits hpr hdlo hdhi hddvd
    refine Or.inr ⟨hnil, init, pr, _, hinit, ?_, hpr, rfl, hdlo, hdhi, hddvd, rfl, ?_, rfl, rfl⟩
    · intro s hs
      exact hwhole s (by rw [hinit]; exact mem_append_left _ hs)
    · rw [insertRegionToZone_eq hfits, if_neg (by decide)]
      rfl

end Sections

section Usable

/-- A byte of physical memory is in a region. Addresses wrap at 4 GB. -/
def MemoryRegion.Has (r : MemoryRegion) (x : ℕ) : Prop := u32 (x - r.start) < r.size

/-- No byte is in two regions. -/
def SocMemoryInfo.Disjoint (info : SocMemoryInfo) : Prop :=
  info.region.Pairwise fun r r' => ∀ x, ¬ (r.Has x ∧ r'.Has x)

/-- The memory of a platform on which everything finds its place: registered regions that are
disjoint, not more for a zone than it has slots, one of them at the kernel image, and without
regions for devices the last one of the kernel holds a sixteenth of the kernel memory. -/
structure SocMemoryInfo.Usable (info : SocMemoryInfo) : Prop where
  registered : info.Registered
  disjoint : info.Disjoint
  few : ∀ z, (regionsOf z info.region).length ≤ zoneMaxSection
  kernel : ∃ r ∈ info.region, r.attr = .normal ∧ r.start = info.kernelPhysicalStart
  last : (∀ r ∈ info.region, r.attr ≠ .dma) →
    ∀ r ∈ regionsOf .kernel info.region,
      (∀ r' ∈ regionsOf .kernel info.region, r'.start ≤ r.start) →
      ((regionsOf .kernel info.region).map MemoryRegion.size).sum ≤ 16 * r.size

theorem regionsOf_perm (info : SocMemoryInfo) (z : ZoneId) :
    (regionsOf z info.sorted).Perm (regionsOf z info.region) :=
  (sortRegions_perm _ _).filter _

theorem sum_nrPage {l : List MemoryRegion} (hl : ∀ r ∈ l, r.Ok) :
    (l.map MemoryRegion.nrPage).sum * pageSize = ((l.map MemoryRegion.size).sum : ℕ) := by
  induction l with
  | nil => rfl
  | cons r l ih =>
    have hpage := (hl r mem_cons_self).fits.size_dvd
    have hrest := ih fun r' hr' => hl r' (mem_cons_of_mem r hr')
    simp only [map_cons, sum_cons, MemoryRegion.nrPage]
    rw [add_mul, hrest, Int.ediv_mul_cancel (by exact_mod_cast hpage)]
    push_cast
    rfl

theorem mem_regionsOf_kernel {r : MemoryRegion} {region : List MemoryRegion} :
    r ∈ regionsOf .kernel region ↔ r ∈ region ∧ r.attr = .normal := by
  cases hr : r.attr <;> simp [regionsOf, MemAttr.zone, hr]

/-- `analyse_soc_memory_info` completes when there is a kernel region. -/
theorem analyseSocMemoryInfo_isSome {info : SocMemoryInfo} (hok : ∀ r ∈ info.region, r.Ok)
    (hkernel : regionsOf .kernel info.region ≠ []) : (analyseSocMemoryInfo info).isSome := by
  have hne : info.region ≠ [] := by
    intro h
    simp [h, regionsOf] at hkernel
  obtain ⟨zone, hzone⟩ : ∃ zone, getMemorySections info = some zone := ⟨_, if_neg hne⟩
  rw [analyseSocMemoryInfo, hzone, bind_some]
  split_ifs
  · have hsections : (zone .kernel).memorySection ≠ [] := by
      rw [getMemorySections_eq hok hzone]
      intro h
      have hnil : regionsOf .kernel info.sorted = [] := by
        simpa [filled, zoneMaxSection] using h
      have hperm := regionsOf_perm info .kernel
      rw [hnil] at hperm
      exact hkernel hperm.nil_eq.symm
    simpa [allocDmaSection] using hsections
  · rfl

theorem kernel_ne_nil {info : SocMemoryInfo} (hok : ∀ r ∈ info.region, r.Ok) {zone : ZoneId → Zone}
    (hzone : analyseSocMemoryInfo info = some zone) (hkernel : regionsOf .kernel info.region ≠ []) :
    (zone .kernel).memorySection ≠ [] := by
  obtain ⟨-, hfilled⟩ | ⟨-, init, pr, pages, hcarved⟩ := analyseSocMemoryInfo_carved hok hzone
  · intro h
    have hnil : regionsOf .kernel info.sorted = [] := by
      simpa [hfilled, filled, zoneMaxSection] using h
    have hperm := regionsOf_perm info .kernel
    rw [hnil] at hperm
    exact hkernel hperm.nil_eq.symm
  · rw [hcarved.kernel]
    simp

namespace SocMemoryInfo.Usable

variable {info : SocMemoryInfo}

theorem take_regionsOf (hinfo : info.Usable) (z : ZoneId) :
    (regionsOf z info.sorted).take zoneMaxSection = regionsOf z info.sorted := by
  apply take_of_length_le
  rw [(regionsOf_perm info z).length_eq]
  exact hinfo.few z

/-- The last kernel section has the pages for devices. -/
theorem dmaPages_le (hinfo : info.Usable) (hdma : regionsOf .dma info.sorted = [])
    {init : List Section} {pr : Section}
    (hinit : (filled (regionsOf .kernel info.sorted)).memorySection = init ++ [pr]) :
    dmaPages (filled (regionsOf .kernel info.sorted)).pageNum ≤ pr.nrPage := by
  have hok := hinfo.registered.ok
  have hperm := regionsOf_perm info .kernel
  have hsorted : (regionsOf .kernel info.sorted).Pairwise fun a b => a.start ≤ b.start :=
    (sortRegions_sorted le_rfl).filter _
  have htake := hinfo.take_regionsOf .kernel
  have hregion := regionsOf_ok hok .kernel
  obtain ⟨hdvd, hlo, -⟩ := pageNum_filled hregion
  have hnodma : ∀ r ∈ info.region, r.attr ≠ .dma := by
    intro r hr hattr
    have hmem : r ∈ regionsOf .dma info.sorted := by
      rw [(regionsOf_perm info .dma).mem_iff]
      simp [regionsOf, hr, hattr, MemAttr.zone]
    simp [hdma] at hmem
  simp only [filled, htake] at hinit hdvd hlo ⊢
  obtain ⟨rs, r, hrs⟩ : ∃ rs r, regionsOf .kernel info.sorted = rs ++ [r] := by
    obtain hnil | ⟨rs, r, hrs⟩ := eq_nil_or_concat (regionsOf .kernel info.sorted)
    · simp [hnil] at hinit
    · exact ⟨rs, r, by simpa using hrs⟩
  have hpr : pr = sectionOf r := by
    rw [hrs] at hinit
    rw [map_append] at hinit
    simpa using (append_inj' hinit rfl).2.symm
  have hmax : ∀ r' ∈ regionsOf .kernel info.region, r'.start ≤ r.start := by
    intro r' hr'
    rw [← hperm.mem_iff, hrs] at hr'
    rw [hrs] at hsorted
    obtain hr' | hr' := mem_append.mp hr'
    · exact (pairwise_append.mp hsorted).2.2 r' hr' r (by simp)
    · rw [mem_singleton.mp hr']
  have hmem : r ∈ regionsOf .kernel info.region := by
    rw [← hperm.mem_iff, hrs]
    simp
  have hlast := hinfo.last hnodma r hmem hmax
  have htotal := sum_nrPage hregion
  rw [(hperm.map MemoryRegion.size).sum_eq] at htotal
  have hr := hregion r (by rw [hrs]; simp)
  have hpage := hr.fits.size_dvd
  have hsome : 1 ≤ (regionsOf .kernel info.sorted).length := by
    rw [hrs]
    simp
  obtain ⟨heq, -, -, -⟩ := dmaPages_spec (by omega) hdvd
  rw [heq, hpr]
  simp only [sectionOf, MemoryRegion.nrPage, pageSize] at htotal hpage ⊢
  omega

/-- The sections of a usable platform: there is one at the kernel image, and none is cut too
short. -/
theorem analysed (hinfo : info.Usable) :
    ∃ zone, analyseSocMemoryInfo info = some zone ∧ Analysed zone ∧
      (∃ s ∈ (zone .kernel).memorySection, s.phyStart = info.kernelPhysicalStart) ∧
      ∀ z, ∀ s ∈ (zone z).memorySection, 0 ≤ s.nrPage := by
  have hok := hinfo.registered.ok
  obtain ⟨r, hr, hattr, hstart⟩ := hinfo.kernel
  have hmem : r ∈ regionsOf .kernel info.region := mem_regionsOf_kernel.mpr ⟨hr, hattr⟩
  have hkernel : sectionOf r ∈ (filled (regionsOf .kernel info.sorted)).memorySection := by
    simp only [filled, hinfo.take_regionsOf]
    exact List.mem_map_of_mem ((regionsOf_perm info .kernel).mem_iff.mpr hmem)
  have hwhole : ∀ z, ∀ s ∈ (filled (regionsOf z info.sorted)).memorySection, s.Whole := fun z =>
    filled_whole (regionsOf_ok hok z)
  obtain ⟨zone, hzone⟩ := isSome_iff_exists.mp
    (analyseSocMemoryInfo_isSome hok (ne_nil_of_mem hmem))
  have hanalysed := analyseSocMemoryInfo_analysed hok hzone
  refine ⟨zone, hzone, hanalysed, ?_⟩
  obtain ⟨-, hfilled⟩ | ⟨hnil, init, pr, pages, hcarved⟩ := analyseSocMemoryInfo_carved hok hzone
  · refine ⟨⟨sectionOf r, by rwa [hfilled], hstart⟩, fun z s hs => ?_⟩
    rw [hfilled] at hs
    exact (hwhole z s hs).nrPage_pos.le
  · have hpages := hinfo.dmaPages_le hnil hcarved.filled_eq
    rw [← hcarved.pages_eq] at hpages
    refine ⟨?_, fun z s hs => ?_⟩
    · rw [hcarved.filled_eq] at hkernel
      rw [hcarved.kernel]
      obtain hin | hin := mem_append.mp hkernel
      · exact ⟨sectionOf r, mem_append_left _ hin, hstart⟩
      · refine ⟨_, mem_append_right _ (mem_singleton_self _), ?_⟩
        rw [← mem_singleton.mp hin]
        exact hstart
    · cases z with
      | kernel =>
        rw [hcarved.kernel] at hs
        obtain hs | hs := mem_append.mp hs
        · exact (hcarved.init_whole s hs).nrPage_pos.le
        · rw [mem_singleton.mp hs]
          simp only [carved]
          omega
      | dma => exact (hanalysed.dma_pos s hs).le
      | res => exact (hanalysed.res_whole s hs).nrPage_pos.le
      | user =>
        rw [hanalysed.user_eq] at hs
        simp at hs

end SocMemoryInfo.Usable

/-- A platform with 64 MB of memory, a kernel image of 1 MB at its start and no region for
devices. -/
def smallBoard : SocMemoryInfo where
  codeEnd := 0x80100000
  kernelPhysicalStart := 0
  region := [⟨0, 2 ^ 26, .normal⟩]

theorem smallBoard_usable : smallBoard.Usable where
  registered := ⟨[(0, 2 ^ 26, .normal)], by decide +kernel⟩
  disjoint := pairwise_singleton _ _
  few := by
    intro z
    cases z <;> decide
  kernel := ⟨⟨0, 2 ^ 26, .normal⟩, by decide⟩
  last := by decide

end Usable

end Chunos.Bank
