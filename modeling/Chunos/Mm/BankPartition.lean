import Chunos.Lib.Runs
import Chunos.Mm.BankTables

/-!
# The sections make up the regions

Each step of `mm_init` cuts sections in two or leaves their physical ranges as they are. So every
byte is in as many sections as it is in regions, and the counters of the zones go along with
their sections.
-/

namespace Chunos.Bank

open Listwise List Option
open Pgt (kernelVirtualBase)

section Spans

/-- A byte is in a range that starts at an address. Addresses wrap at 4 GB. -/
def InSpan (p : ℕ × ℤ) (x : ℕ) : Prop := (u32 (x - p.1) : ℤ) < p.2

instance (p : ℕ × ℤ) (x : ℕ) : Decidable (InSpan p x) := inferInstanceAs (Decidable (_ < _))

/-- How many ranges of the list a byte is in. -/
def hits (l : List (ℕ × ℤ)) (x : ℕ) : ℕ := l.countP fun p => InSpan p x

/-- The physical range of a section. -/
def Section.span (s : Section) : ℕ × ℤ := (s.phyStart, s.size)

/-- The physical range of a region. -/
def MemoryRegion.span (r : MemoryRegion) : ℕ × ℤ := (r.start, r.size)

/-- A byte of physical memory is in a section. -/
def Section.Has (s : Section) (x : ℕ) : Prop := InSpan s.span x

theorem MemoryRegion.has_iff {r : MemoryRegion} {x : ℕ} : r.Has x ↔ InSpan r.span x := by
  simp [MemoryRegion.Has, InSpan, MemoryRegion.span]

@[simp] theorem hits_append (l l' : List (ℕ × ℤ)) (x : ℕ) :
    hits (l ++ l') x = hits l x + hits l' x := countP_append ..

theorem hits_perm {l l' : List (ℕ × ℤ)} (h : l.Perm l') (x : ℕ) : hits l x = hits l' x :=
  h.countP_eq _

theorem hits_empty {a : ℕ} {n : ℤ} (hn : n ≤ 0) (x : ℕ) : hits [(a, n)] x = 0 := by
  have hout : ¬ InSpan (a, n) x := by
    simp only [InSpan]
    omega
  simp [hits, hout]

theorem hits_cut (a : ℕ) {m n : ℤ} (hm : 0 ≤ m) (hn : 0 ≤ n) (hmn : m + n ≤ 2 ^ 32) (x : ℕ) :
    hits [(a, m), (u32 (a + m), n)] x = hits [(a, m + n)] x := by
  have hcut : InSpan (a, m + n) x ↔ InSpan (a, m) x ∨ InSpan (u32 (a + m), n) x := by
    simp only [InSpan, u32]
    omega
  have hapart : InSpan (a, m) x → ¬ InSpan (u32 (a + m), n) x := by
    simp only [InSpan, u32]
    omega
  by_cases hleft : InSpan (a, m) x
  · simp [hits, hcut, hleft, hapart hleft]
  · by_cases hright : InSpan (u32 (a + m), n) x
    · simp [hits, hcut, hleft, hright]
    · simp [hits, hcut, hleft, hright]

variable {α : Type*} {f : α → ℕ × ℤ} {l : List α}

theorem hits_le_one_of_pairwise (h : l.Pairwise fun a b => ∀ x, ¬ (InSpan (f a) x ∧ InSpan (f b) x))
    (x : ℕ) : hits (l.map f) x ≤ 1 := by
  induction l with
  | nil => simp [hits]
  | cons a l ih =>
    obtain ⟨ha, hl⟩ := pairwise_cons.mp h
    have hcons : hits ((a :: l).map f) x = hits (l.map f) x + if InSpan (f a) x then 1 else 0 := by
      simp [hits, countP_cons]
    rw [hcons]
    split_ifs with hax
    · have hzero : hits (l.map f) x = 0 := by
        apply countP_eq_zero.mpr
        intro p hp hpx
        obtain ⟨b, hb, rfl⟩ := List.mem_map.mp hp
        exact ha b hb x ⟨hax, of_decide_eq_true hpx⟩
      omega
    · exact ih hl

theorem hits_pos_iff {x : ℕ} : 0 < hits (l.map f) x ↔ ∃ a ∈ l, InSpan (f a) x := by
  rw [hits, countP_pos_iff]
  constructor
  · rintro ⟨p, hp, hpx⟩
    obtain ⟨a, ha, rfl⟩ := List.mem_map.mp hp
    exact ⟨a, ha, of_decide_eq_true hpx⟩
  · rintro ⟨a, ha, hax⟩
    exact ⟨f a, List.mem_map_of_mem ha, decide_eq_true hax⟩

end Spans

section Steps

/-- The regions for the zones are all regions but those of unknown kind. -/
theorem hits_regionsOf (l : List MemoryRegion) (x : ℕ) :
    hits ((regionsOf .kernel l ++ regionsOf .dma l ++ regionsOf .res l).map MemoryRegion.span) x +
        hits ((l.filter fun r => r.attr = .unknown).map MemoryRegion.span) x =
      hits (l.map MemoryRegion.span) x := by
  induction l with
  | nil => rfl
  | cons r l ih =>
    simp only [hits, map_append, countP_append, map_cons, countP_cons]
      at ih ⊢
    rw [← ih]
    cases hattr : r.attr
    all_goals
      simp only [regionsOf, MemAttr.zone, hattr, filter_cons, decide_true, if_true,
        some.injEq, reduceCtorEq, decide_false, Bool.false_eq_true, if_false, map_cons,
        countP_cons]
      ring

theorem hits_sorted (info : SocMemoryInfo) (x : ℕ) :
    hits ((regionsOf .kernel info.sorted ++ regionsOf .dma info.sorted ++
        regionsOf .res info.sorted).map MemoryRegion.span) x +
        hits ((info.sorted.filter fun r => r.attr = .unknown).map MemoryRegion.span) x =
      hits (info.region.map MemoryRegion.span) x := by
  rw [hits_regionsOf]
  exact hits_perm ((sortRegions_perm _ _).map _) x

theorem hits_filled_le (region : List MemoryRegion) (x : ℕ) :
    hits ((filled region).memorySection.map Section.span) x ≤
      hits (region.map MemoryRegion.span) x := by
  have hspan : (filled region).memorySection.map Section.span =
      (region.take zoneMaxSection).map MemoryRegion.span := by
    simp only [filled, List.map_map]
    rfl
  rw [hspan]
  exact Sublist.countP_le ((take_sublist _ _).map _)

variable {info : SocMemoryInfo} {s : Section}

theorem filled_span (hinfo : info.Usable) (z : ZoneId) :
    (filled (regionsOf z info.sorted)).memorySection.map Section.span =
      (regionsOf z info.sorted).map MemoryRegion.span := by
  simp only [filled, hinfo.take_regionsOf, List.map_map]
  rfl

/-- Cutting the memory for devices from the last kernel section. -/
theorem hits_carved {pr : Section} (hpr : pr.Whole) {pages : ℤ} (hlo : 16 ≤ pages)
    (hle : pages ≤ pr.nrPage) (hhi : pages ≤ 2 ^ 15) (hdvd : 16 ∣ pages) (x : ℕ) :
    hits [(carved pr pages).span, (sectionOf (carvedRegion pr pages)).span] x =
      hits [pr.span] x := by
  obtain ⟨-, -, -, hsize⟩ := carvedRegion_fits hpr hlo hhi hdvd
  have hprSize : pr.size = pr.nrPage * pageSize := by rw [hpr.eq]
  have hlt := hpr.nrPage_lt
  have hcut := hits_cut pr.phyStart (m := (pr.nrPage - pages) * pageSize) (n := pages * pageSize)
    (by simp only [pageSize]; omega) (by simp only [pageSize]; omega)
    (by simp only [pageSize]; omega) x
  have hsum : (pr.nrPage - pages) * pageSize + pages * pageSize = pr.size := by
    rw [hprSize]
    ring
  have hrest : pr.size - pages * pageSize = (pr.nrPage - pages) * pageSize := by
    rw [hprSize]
    ring
  rw [hsum] at hcut
  simp only [Section.span, carved, sectionOf, hsize, hrest]
  exact hcut

/-- The sections after `analyse_soc_memory_info` make up the regions. -/
theorem hits_analysed (hinfo : info.Usable) (hattr : ∀ r ∈ info.region, r.attr ≠ .unknown)
    {zone : ZoneId → Zone} (hzone : analyseSocMemoryInfo info = some zone) (x : ℕ) :
    hits ((mappedSections zone).map Section.span) x =
      hits (info.region.map MemoryRegion.span) x := by
  have hok := hinfo.registered.ok
  have hsorted : hits ((regionsOf .kernel info.sorted ++ regionsOf .dma info.sorted ++
      regionsOf .res info.sorted).map MemoryRegion.span) x =
      hits (info.region.map MemoryRegion.span) x := by
    have hnone : info.sorted.filter (fun r => r.attr = .unknown) = [] := by
      apply filter_eq_nil_iff.mpr
      intro r hr
      simpa using hattr r ((sortRegions_perm _ _).mem_iff.mp hr)
    rw [← hits_sorted info x, hnone]
    rfl
  rw [← hsorted]
  simp only [mappedSections, map_append, hits_append]
  obtain ⟨-, hfilled⟩ | ⟨hnil, init, pr, pages, hcarved⟩ := analyseSocMemoryInfo_carved hok hzone
  · simp only [hfilled, filled_span hinfo]
  · have hle := hinfo.dmaPages_le hnil hcarved.filled_eq
    rw [← hcarved.pages_eq] at hle
    have hspan := filled_span hinfo .kernel
    rw [hcarved.filled_eq, map_append] at hspan
    have hcut := hits_carved hcarved.pr_whole hcarved.pages_ge hle hcarved.pages_le
      hcarved.pages_dvd x
    have hpair : ∀ p q : ℕ × ℤ, hits [p, q] x = hits [p] x + hits [q] x := fun p q =>
      hits_append [p] [q] x
    simp only [hcarved.kernel, hcarved.dma, hcarved.res, hnil, filled_span hinfo, map_append,
      hits_append, ← hspan, map_cons, map_nil]
    rw [hpair] at hcut
    simp only [hits, countP_nil] at hcut ⊢
    omega

theorem hits_mono {a : ℕ} {m n : ℤ} (hmn : m ≤ n) (x : ℕ) : hits [(a, m)] x ≤ hits [(a, n)] x := by
  have himp : InSpan (a, m) x → InSpan (a, n) x := fun h => lt_of_lt_of_le h hmn
  by_cases hm : InSpan (a, m) x
  · simp [hits, hm, himp hm]
  · simp [hits, hm]

theorem SocMemoryInfo.Disjoint.hits_le_one (h : info.Disjoint) (x : ℕ) :
    hits (info.region.map MemoryRegion.span) x ≤ 1 :=
  hits_le_one_of_pairwise (h.imp fun h x hx =>
    h x ⟨MemoryRegion.has_iff.mpr hx.1, MemoryRegion.has_iff.mpr hx.2⟩) x

/-- For disjoint regions, no byte is in two sections of the kernel zone or reserved memory, and none
in two sections for devices. What is cut from the kernel zone for devices can overlap with it. -/
theorem hits_analysed_le (hok : ∀ r ∈ info.region, r.Ok) (hdisjoint : info.Disjoint)
    {zone : ZoneId → Zone} (hzone : analyseSocMemoryInfo info = some zone) (x : ℕ) :
    hits (((zone .kernel).memorySection ++ (zone .res).memorySection).map Section.span) x ≤ 1 ∧
      hits ((zone .dma).memorySection.map Section.span) x ≤ 1 := by
  have hone := hdisjoint.hits_le_one x
  have hsorted := hits_sorted info x
  have hfilled := fun z => hits_filled_le (regionsOf z info.sorted) x
  have hK := hfilled .kernel
  have hD := hfilled .dma
  have hR := hfilled .res
  simp only [map_append, hits_append] at hsorted ⊢
  obtain ⟨-, heq⟩ | ⟨-, init, pr, pages, hcarved⟩ := analyseSocMemoryInfo_carved hok hzone
  · simp only [heq]
    omega
  · have hcut : hits [(carved pr pages).span] x ≤ hits [pr.span] x := by
      refine hits_mono (sub_le_self _ (mul_nonneg ?_ (Nat.cast_nonneg _))) x
      exact le_trans (by norm_num) hcarved.pages_ge
    rw [hcarved.filled_eq] at hK
    simp only [hcarved.kernel, hcarved.dma, hcarved.res, map_append, hits_append,
      map_cons, map_nil] at hK ⊢
    have hsingle : hits [(sectionOf (carvedRegion pr pages)).span] x ≤ 1 := countP_le_length
    omega

/-- A section whose mapped part consists of whole pages. -/
structure Section.Cuttable (s : Section) : Prop where
  size_eq : s.size = s.nrPage * pageSize
  size_lt : s.size < 2 ^ 31
  maped_nonneg : s.Short → 0 ≤ s.mapedSize
  maped_dvd : s.Short → (pageSize : ℤ) ∣ s.mapedSize

/-- `map_memory` maps whole pages. -/
theorem Section.Given.cuttable {s' : Section} (h : s.Given s') (hs : s.Fresh) : s'.Cuttable := by
  have hsize : s.size = s.nrPage * pageSize := by rw [hs.eq]
  have hlt := hs.nrPage_lt
  have hdvd := hs.phyStart_dvd
  have hpage : pageSize = 4096 := rfl
  have hmaped : s.mapedSize = 0 := by rw [hs.eq]
  have hwindow : kernelVirtualSize = 2 ^ 30 := rfl
  have hsizeLt : s.size < 2 ^ 31 := by
    rw [hsize, hpage]
    push_cast
    omega
  obtain rfl | rfl | ⟨zoneMapEnd, base, -, ⟨hbase, hend, hlt', -, -⟩, rfl⟩ := h
  · exact ⟨hsize, hsizeLt, fun _ => hmaped.ge, fun _ => hmaped ▸ dvd_zero _⟩
  · refine ⟨hsize, hsizeLt, ?_, ?_⟩ <;>
    · intro hshort
      simp only [Section.Short, Section.boot, Section.place, pageSize] at hshort hsize ⊢
      omega
  · refine ⟨hsize, hsizeLt, ?_, ?_⟩ <;>
    · intro hshort
      simp only [Section.Short, Section.placed, Section.place, pageSize] at hshort hsize ⊢
      omega

theorem Section.Cuttable.user_size (hs : s.Cuttable) (hshort : s.Short) :
    (userSection s).size = s.size - s.mapedSize := by
  have hdvd := hs.maped_dvd hshort
  simp only [userSection, hs.size_eq]
  rw [sub_mul, Int.ediv_mul_cancel hdvd]

theorem Section.Cuttable.kept_size (hs : s.Cuttable) : s.kept.size = s.kept.nrPage * pageSize := by
  rw [Section.kept]
  split_ifs
  · rw [mappedSection]
    split_ifs
    · rfl
    · simp only [hs.size_eq, userSection]
      ring
  · exact hs.size_eq

/-- What is kept of a section and what goes to the user zone make up the section. -/
theorem hits_kept (hs : s.Cuttable) (hshort : s.Short) (x : ℕ) :
    hits [s.kept.span, (userSection s).span] x = hits [s.span] x := by
  have hnonneg := hs.maped_nonneg hshort
  have huser := hs.user_size hshort
  have hlt : s.mapedSize < s.size := by
    rw [hs.size_eq]
    exact hshort
  have hsizeLt := hs.size_lt
  have hphy : (userSection s).phyStart = u32 (s.phyStart + s.mapedSize) := rfl
  have hcut := hits_cut s.phyStart hnonneg (by omega : 0 ≤ s.size - s.mapedSize) (by omega) x
  rw [add_sub_cancel] at hcut
  rw [Section.kept, if_pos hshort, mappedSection]
  by_cases hmaped : s.mapedSize = 0
  · have hempty := hits_empty (a := 0) le_rfl x
    have hempty' := hits_empty (a := s.phyStart) hmaped.le x
    rw [if_pos hmaped]
    simp only [Section.span, hphy, huser]
    have hpair : ∀ p q : ℕ × ℤ, hits [p, q] x = hits [p] x + hits [q] x := fun p q =>
      hits_append [p] [q] x
    rw [hpair] at hcut ⊢
    omega
  · rw [if_neg hmaped]
    simp only [Section.span, hphy, huser, sub_sub_cancel]
    exact hcut

/-- The same for a list of sections. -/
theorem hits_kept_user {l : List Section} (hl : ∀ s ∈ l, s.Cuttable) (x : ℕ) :
    hits ((l.map Section.kept).map Section.span) x + hits ((userSections l).map Section.span) x =
      hits (l.map Section.span) x := by
  induction l with
  | nil => rfl
  | cons s rest ih =>
    obtain ⟨hs, hrest⟩ := forall_mem_cons.mp hl
    have hone := ih hrest
    have hcons : ∀ (p : ℕ × ℤ) (l : List (ℕ × ℤ)), hits (p :: l) x = hits [p] x + hits l x :=
      fun p l => hits_append [p] l x
    by_cases hshort : s.Short
    · have hcut := hits_kept hs hshort x
      simp only [userSections_cons hshort, map_cons]
      rw [hcons] at hcut
      rw [hcons, hcons (userSection s).span, hcons s.span]
      omega
    · have hkept : s.kept = s := if_neg hshort
      simp only [userSections_cons_of_not hshort, hkept, map_cons]
      rw [hcons s.span ((rest.map Section.kept).map Section.span),
        hcons s.span (rest.map Section.span)]
      omega

end Steps

section Counters

/-- The free pages of sections. -/
def freeOf (l : List Section) : ℤ := (l.map Section.nrFreePages).sum

variable {l l' : List Section}

/-- A sum over what is kept of the sections, when each section gives up the pages of its section
of the user zone. -/
theorem sum_kept {f : Section → ℤ} (hf : ∀ s ∈ l, s.Short → f s.kept = f s - (userSection s).nrPage) :
    ((l.map Section.kept).map f).sum = (l.map f).sum - pagesOf (userSections l) := by
  induction l with
  | nil => rfl
  | cons s rest ih =>
    obtain ⟨hs, hrest⟩ := forall_mem_cons.mp hf
    simp only [map_cons, sum_cons, ih hrest]
    by_cases hshort : s.Short
    · rw [userSections_cons hshort, hs hshort]
      simp only [pagesOf, map_cons, sum_cons]
      ring
    · have hkept : s.kept = s := if_neg hshort
      rw [userSections_cons_of_not hshort, hkept]
      ring

theorem pagesOf_kept (l : List Section) :
    pagesOf (l.map Section.kept) = pagesOf l - pagesOf (userSections l) := by
  apply sum_kept
  intro s _ hshort
  rw [Section.kept, if_pos hshort, mappedSection]
  split_ifs with hmaped
  · simp [userSection, hmaped]
  · rfl

theorem freeOf_kept (hl : ∀ s ∈ l, s.mapedSize = 0 → s.nrFreePages = s.nrPage) :
    freeOf (l.map Section.kept) = freeOf l - pagesOf (userSections l) := by
  apply sum_kept
  intro s hs hshort
  rw [Section.kept, if_pos hshort, mappedSection]
  split_ifs with hmaped
  · simp [userSection, hmaped, hl s hs hmaped]
  · rfl

/-- The sections of all zones. -/
def sections (zone : ZoneId → Zone) : List Section := mappedSections zone ++ (zone .user).memorySection

/-- The pages of the kernel image, the array of `struct page` and the bitmaps fit into the
mapped part of the section of the image. -/
def SocMemoryInfo.BootFits (junk : ℤ) (info : SocMemoryInfo) : Prop :=
  ∀ zone, analyseSocMemoryInfo info = some zone →
    ∀ s ∈ (mapMemory junk info.kernelPhysicalStart zone .kernel).memorySection,
      s.phyStart = info.kernelPhysicalStart →
      (bootNeed info (mapMemory junk info.kernelPhysicalStart zone) * pageSize : ℤ) ≤ s.mapedSize

/-- Whether they fit can be computed. -/
instance (junk : ℤ) (info : SocMemoryInfo) : Decidable (info.BootFits junk) :=
  match h : analyseSocMemoryInfo info with
  | none => .isTrue fun zone hzone => absurd (h.symm.trans hzone) (by simp)
  | some zone =>
    decidable_of_iff (∀ s ∈ (mapMemory junk info.kernelPhysicalStart zone .kernel).memorySection,
      s.phyStart = info.kernelPhysicalStart →
      (bootNeed info (mapMemory junk info.kernelPhysicalStart zone) * pageSize : ℤ) ≤ s.mapedSize)
      ⟨fun hfits zone' hzone' => some.inj (h.symm.trans hzone') ▸ hfits, fun hfits => hfits zone h⟩

/-- The bank after `mm_init`: the sections are disjoint and make up the regions, and the counters
agree with the sections. -/
structure Partitioned (info : SocMemoryInfo) (bank : MmBank) : Prop where
  disjoint : (sections bank.zone).Pairwise fun s t => ∀ x, ¬ (s.Has x ∧ t.Has x)
  covers : ∀ x, (∃ s ∈ sections bank.zone, s.Has x) ↔ ∃ r ∈ info.region, r.Has x
  pageNum_eq : ∀ z, (bank.zone z).pageNum = pagesOf (bank.zone z).memorySection
  size_eq : ∀ z, ∀ s ∈ (bank.zone z).memorySection, s.size = s.nrPage * pageSize
  nrFreePages_eq : ∀ z, (bank.zone z).nrFreePages = freeOf (bank.zone z).memorySection

variable {info : SocMemoryInfo} {zone : ZoneId → Zone} {words : Bitmap} {page : ℕ → Page}
  {bank : MmBank}

theorem map_eq_of_numbered {α : Type*} {f : Section → α}
    (hf : ∀ (s : Section) (id : ℕ), f { s with sectionTableId := id } = f s)
    (h : List.Forall₂ Section.Numbered l l') : l'.map f = l.map f := by
  refine map_eq_of_forall₂ h ?_
  rintro s _ ⟨id, rfl⟩
  exact hf s id

theorem forall_of_numbered {P : Section → Prop}
    (hP : ∀ (s : Section) (id : ℕ), P s → P { s with sectionTableId := id })
    (h : List.Forall₂ Section.Numbered l l') (hl : ∀ s ∈ l, P s) : ∀ s ∈ l', P s := by
  intro s' hs'
  obtain ⟨s, hs, id, rfl⟩ := exists_of_mem_right h hs'
  exact hP s id (hl s hs)

/-- What holds of the sections that the bank has been built from holds of its own. -/
theorem Built.forall_section {P : Section → Prop} (hbuilt : Built info zone words page bank)
    (hnumber : ∀ (s : Section) (id : ℕ), P s → P { s with sectionTableId := id })
    (htabled : ∀ z, ∀ s ∈ (zone z).memorySection, ∀ pg bm, P (s.tabled pg bm))
    (hkernel : ∀ s ∈ bootedKernel info zone, P s.kept ∧ (s.Short → P (userSection s)))
    (z : ZoneId) : ∀ s ∈ (bank.zone z).memorySection, P s := by
  have htables : ∀ z pg bm, ∀ s ∈ tables (zone z).memorySection pg bm, P s := by
    intro z pg bm s hs
    obtain ⟨t, ht, pg, bm, rfl⟩ := exists_of_mem_tables hs
    exact htabled z t ht pg bm
  cases z with
  | kernel =>
    obtain ⟨l, hl, hz⟩ := hbuilt.kernel
    rw [hz]
    refine forall_of_numbered hnumber hl fun s hs => ?_
    obtain ⟨t, ht, rfl⟩ := mem_map.mp hs
    exact (hkernel t ht).1
  | dma =>
    obtain ⟨l, hl, hz⟩ := hbuilt.dma
    rw [hz]
    exact forall_of_numbered hnumber hl (htables .dma _ _)
  | res =>
    obtain ⟨l, hl, hz⟩ := hbuilt.res
    rw [hz]
    exact forall_of_numbered hnumber hl (htables .res _ _)
  | user =>
    obtain ⟨l, hl, hz⟩ := hbuilt.user
    rw [hz]
    refine forall_of_numbered hnumber hl fun s hs => ?_
    obtain ⟨t, ht, rfl⟩ := mem_map.mp hs
    obtain ⟨ht, hshort⟩ := mem_filter.mp ht
    exact (hkernel t ht).2 (by simpa using hshort)

theorem pagesOf_numbered (h : List.Forall₂ Section.Numbered l l') :
    pagesOf l' = pagesOf l := congrArg List.sum (map_eq_of_numbered (fun _ _ => rfl) h)

theorem freeOf_numbered (h : List.Forall₂ Section.Numbered l l') :
    freeOf l' = freeOf l := congrArg List.sum (map_eq_of_numbered (fun _ _ => rfl) h)

/-- A bank has the physical ranges of the sections that it has been built from. -/
theorem Built.hits (hbuilt : Built info zone words page bank)
    (hcut : ∀ s ∈ bootedKernel info zone, s.Cuttable) (x : ℕ) :
    Bank.hits ((sections bank.zone).map Section.span) x =
      Bank.hits ((mappedSections zone).map Section.span) x := by
  obtain ⟨lK, hK, hzK⟩ := hbuilt.kernel
  obtain ⟨lD, hD, hzD⟩ := hbuilt.dma
  obtain ⟨lR, hR, hzR⟩ := hbuilt.res
  obtain ⟨lU, hU, hzU⟩ := hbuilt.user
  have hspan : ∀ (s : Section) (id : ℕ), Section.span { s with sectionTableId := id } = s.span :=
    fun _ _ => rfl
  have htabled : ∀ (s : Section) (pg bm : ℕ), (s.tabled pg bm).span = s.span := fun _ _ _ => rfl
  have hbooted : (bootedKernel info zone).map Section.span =
      (zone .kernel).memorySection.map Section.span := by
    refine map_bootedKernel htabled (fun s pages => ?_) info zone
    rw [Section.booted]
    split_ifs <;> rfl
  have hsplit := hits_kept_user hcut x
  simp only [sections, mappedSections, hzK, hzD, hzR, hzU, map_append, hits_append,
    map_eq_of_numbered hspan hK, map_eq_of_numbered hspan hD, map_eq_of_numbered hspan hR,
    map_eq_of_numbered hspan hU, tabledZones, map_tables htabled]
  rw [hbooted] at hsplit
  omega

theorem bootedKernel_cuttable (h : ∀ s ∈ (zone .kernel).memorySection, s.Cuttable) :
    ∀ s ∈ bootedKernel info zone, s.Cuttable := by
  refine forall_bootedKernel fun t ht _ _ _ _ => ?_
  obtain ⟨hsize, hlt, hnonneg, hdvd⟩ := h t ht
  exact ⟨hsize, hlt, hnonneg, hdvd⟩

/-- The free pages of the kernel sections, without those in use. -/
theorem freeOf_bootedKernel
    (hboot : 0 < bootNeed info zone →
      ∃ s ∈ (zone .kernel).memorySection, s.virStart = kernelVirtualBase)
    (hne : (zone .kernel).memorySection ≠ []) :
    freeOf (bootedKernel info zone) = freeOf (zone .kernel).memorySection - bootNeed info zone := by
  have htabled : (tables (zone .kernel).memorySection 0 0).map Section.nrFreePages =
      (zone .kernel).memorySection.map Section.nrFreePages := map_tables (fun _ _ _ => rfl) _ _ _
  have hlist : tables (zone .kernel).memorySection 0 0 ≠ [] := by
    intro h
    rw [h, map_nil] at htabled
    exact hne (map_eq_nil_iff.mp htabled.symm)
  obtain ⟨s, hs, hvir⟩ := bootSlot_spec hlist
  rw [freeOf, bootedKernel, sum_map_modify hs, htabled, freeOf]
  by_cases hneed : 0 < bootNeed info zone
  · obtain ⟨t, ht, htvir⟩ := hboot hneed
    have hmap : (tables (zone .kernel).memorySection 0 0).map Section.virStart =
        (zone .kernel).memorySection.map Section.virStart := map_tables (fun _ _ _ => rfl) _ _ _
    have hmem : kernelVirtualBase ∈
        (tables (zone .kernel).memorySection 0 0).map Section.virStart := by
      rw [hmap, ← htvir]
      exact List.mem_map_of_mem ht
    obtain ⟨t', ht', htvir'⟩ := List.mem_map.mp hmem
    rw [Section.booted, if_pos (hvir ⟨t', ht', htvir'⟩)]
    ring
  · have hzero : bootNeed info zone = 0 := by omega
    rw [Section.booted, hzero]
    split_ifs <;> simp

/-- The counters of a bank that is built from mapped sections. -/
theorem Built.counters (hbuilt : Built info zone words page bank)
    (hcut : ∀ s ∈ (zone .kernel).memorySection, s.Cuttable)
    (hsize : ∀ z, ∀ s ∈ (zone z).memorySection, s.size = s.nrPage * pageSize)
    (hpages : ∀ z, (zone z).pageNum = pagesOf (zone z).memorySection)
    (hfree : ∀ z, (zone z).nrFreePages = freeOf (zone z).memorySection)
    (hkernelFree : ∀ s ∈ bootedKernel info zone, s.mapedSize = 0 → s.nrFreePages = s.nrPage)
    (hbooted : freeOf (bootedKernel info zone) =
      freeOf (zone .kernel).memorySection - bootNeed info zone)
    (hwrap : wrap32 ((zone .kernel).nrFreePages - bootNeed info zone) =
      (zone .kernel).nrFreePages - bootNeed info zone) (z : ZoneId) :
    (bank.zone z).pageNum = pagesOf (bank.zone z).memorySection ∧
      (∀ s ∈ (bank.zone z).memorySection, s.size = s.nrPage * pageSize) ∧
      (bank.zone z).nrFreePages = freeOf (bank.zone z).memorySection := by
  have hpagesBooted : pagesOf (bootedKernel info zone) = pagesOf (zone .kernel).memorySection := by
    refine congrArg List.sum (map_bootedKernel (fun _ _ _ => rfl) (fun s pages => ?_) info zone)
    rw [Section.booted]
    split_ifs <;> rfl
  have htabled : ∀ (l : List Section) (pg bm : ℕ), pagesOf (tables l pg bm) = pagesOf l ∧
      freeOf (tables l pg bm) = freeOf l := fun l pg bm =>
    ⟨congrArg List.sum (map_tables (fun _ _ _ => rfl) l pg bm),
      congrArg List.sum (map_tables (fun _ _ _ => rfl) l pg bm)⟩
  have hsizes : ∀ s ∈ (bank.zone z).memorySection, s.size = s.nrPage * pageSize :=
    hbuilt.forall_section (fun _ _ h => h) (fun z s hs _ _ => hsize z s hs)
      (fun s hs => ⟨(bootedKernel_cuttable hcut s hs).kept_size, fun _ => rfl⟩) z
  suffices h : (bank.zone z).pageNum = pagesOf (bank.zone z).memorySection ∧
      (bank.zone z).nrFreePages = freeOf (bank.zone z).memorySection from ⟨h.1, hsizes, h.2⟩
  cases z with
  | kernel =>
    obtain ⟨l, hl, hz⟩ := hbuilt.kernel
    rw [hz]
    constructor
    · rw [pagesOf_numbered hl, pagesOf_kept, hpagesBooted, hpages]
    · rw [freeOf_numbered hl, freeOf_kept hkernelFree, hbooted, ← hfree, hwrap]
  | dma =>
    obtain ⟨l, hl, hz⟩ := hbuilt.dma
    rw [hz]
    constructor
    · rw [pagesOf_numbered hl, tabledZones, (htabled _ _ _).1, hpages]
    · rw [freeOf_numbered hl, tabledZones, (htabled _ _ _).2, hfree]
  | res =>
    obtain ⟨l, hl, hz⟩ := hbuilt.res
    rw [hz]
    constructor
    · rw [pagesOf_numbered hl, tabledZones, (htabled _ _ _).1, hpages]
    · rw [freeOf_numbered hl, tabledZones, (htabled _ _ _).2, hfree]
  | user =>
    obtain ⟨l, hl, hz⟩ := hbuilt.user
    rw [hz]
    refine ⟨(pagesOf_numbered hl).symm, ?_⟩
    rw [freeOf_numbered hl]
    simp only [pagesOf, freeOf, userSections, List.map_map]
    rfl

theorem Section.Given.same {s s' : Section} (h : s.Given s') :
    s'.phyStart = s.phyStart ∧ s'.span = s.span ∧ s'.nrPage = s.nrPage ∧
      s'.nrFreePages = s.nrFreePages := by
  obtain rfl | rfl | ⟨_, _, -, -, rfl⟩ := h <;> exact ⟨rfl, rfl, rfl, rfl⟩

theorem pagesOf_bounds (hl : ∀ s ∈ l, 0 ≤ s.nrPage ∧ s.nrPage < 2 ^ 19) :
    0 ≤ pagesOf l ∧ pagesOf l ≤ 2 ^ 19 * l.length := by
  induction l with
  | nil => simp [pagesOf]
  | cons s rest ih =>
    obtain ⟨hs, hrest⟩ := forall_mem_cons.mp hl
    obtain ⟨hlo, hhi⟩ := ih hrest
    simp only [pagesOf, map_cons, sum_cons, length_cons] at hlo hhi ⊢
    push_cast
    omega

/-- The counters of the zones that `map_memory` leaves. -/
theorem mapMemory_counters (hzone : Analysed zone) (junk : ℤ) (kernelPhysicalStart : ℕ)
    (z : ZoneId) :
    (∀ s ∈ (mapMemory junk kernelPhysicalStart zone z).memorySection, s.Cuttable) ∧
      (∀ s ∈ (mapMemory junk kernelPhysicalStart zone z).memorySection,
        s.nrFreePages = s.nrPage ∧ ∃ t ∈ (zone z).memorySection, t.Given s) ∧
      (mapMemory junk kernelPhysicalStart zone z).pageNum =
        pagesOf (mapMemory junk kernelPhysicalStart zone z).memorySection ∧
      (mapMemory junk kernelPhysicalStart zone z).nrFreePages =
        freeOf (mapMemory junk kernelPhysicalStart zone z).memorySection ∧
      (mapMemory junk kernelPhysicalStart zone z).memorySection.map Section.span =
        (zone z).memorySection.map Section.span := by
  obtain ⟨l, base, hl, hz⟩ := mapMemory_given hzone junk kernelPhysicalStart z
  have hfree : ∀ s ∈ (zone z).memorySection, s.nrFreePages = s.nrPage := fun s hs => by
    rw [(hzone.fresh z s hs).eq]
  rw [hz]
  refine ⟨?_, ?_, ?_, ?_, map_eq_of_forall₂ hl fun _ _ h => h.same.2.1⟩
  · intro s hs
    obtain ⟨t, ht, hgiven⟩ := exists_of_mem_right hl hs
    exact hgiven.cuttable (hzone.fresh z t ht)
  · intro s hs
    obtain ⟨t, ht, hgiven⟩ := exists_of_mem_right hl hs
    exact ⟨by rw [hgiven.same.2.2.2, hgiven.same.2.2.1, hfree t ht], t, ht, hgiven⟩
  · simp only [hzone.pageNum_eq, pagesOf]
    rw [map_eq_of_forall₂ hl fun _ _ h => h.same.2.2.1]
  · simp only [hzone.nrFreePages_eq, hzone.pageNum_eq, freeOf]
    rw [map_eq_of_forall₂ hl fun _ _ h => h.same.2.2.2, map_congr_left hfree]

/-- On a usable platform whose boot pages fit, `mm_init` divides the regions up into sections and
keeps the counters in step with them, whatever the memory contained before. -/
theorem mmInit_partitioned {junk : ℤ} (hinfo : info.Usable)
    (hattr : ∀ r ∈ info.region, r.attr ≠ .unknown) (hboot : info.BootFits junk) (words : Bitmap)
    (page : ℕ → Page) :
    ∃ bank, mmInit junk info words page = some bank ∧ Partitioned info bank := by
  obtain ⟨zone, hzone, hanalysed, hkernel, hpages⟩ := hinfo.analysed
  have hcounters := mapMemory_counters hanalysed junk info.kernelPhysicalStart
  have hfits := hboot zone hzone
  -- The boot pages are marked in the section of the image.
  have hfind : 0 < bootNeed info (mapMemory junk info.kernelPhysicalStart zone) → _ := fun hneed =>
    mapKernelMemory_boot hanalysed junk hkernel
      fun s hs hphy => by
        have hle := hfits s hs hphy
        simp only [pageSize] at hle
        omega
  obtain ⟨lK, baseK, hlK, hzK⟩ := mapMemory_given hanalysed junk info.kernelPhysicalStart .kernel
  obtain ⟨k, hk, hkPhy⟩ := hkernel
  obtain ⟨k', hk', hkGiven⟩ := exists_of_mem_left hlK hk
  have hne : (mapMemory junk info.kernelPhysicalStart zone .kernel).memorySection ≠ [] := by
    rw [hzK]
    exact ne_nil_of_mem hk'
  obtain ⟨r, hr, hrAttr, -⟩ := hinfo.kernel
  obtain ⟨bank, hbank⟩ := mmInit_isSome junk hinfo.registered.ok hzone
    (ne_nil_of_mem (mem_regionsOf_kernel.mpr ⟨hr, hrAttr⟩)) words page
  obtain ⟨zone', hzone', hbuilt⟩ := mmInit_built hinfo.registered.ok hbank
  obtain rfl : zone = zone' := some.inj (hzone.symm.trans hzone')
  refine ⟨bank, hbank, ?_⟩
  have hkernelFree : ∀ s ∈ bootedKernel info (mapMemory junk info.kernelPhysicalStart zone),
      s.mapedSize = 0 → s.nrFreePages = s.nrPage := by
    intro s hs hzero
    obtain ⟨t, ht, pg, bm, hst⟩ := exists_of_mem_bootedKernel hs
    have hfree : t.nrFreePages = t.nrPage := ((hcounters .kernel).2.1 t ht).1
    obtain rfl | rfl := hst
    · exact hfree
    · rw [Section.booted] at hzero ⊢
      split_ifs at hzero ⊢ with hvir
      · have hmaped : t.mapedSize = 0 := hzero
        by_cases hneed : 0 < bootNeed info (mapMemory junk info.kernelPhysicalStart zone)
        · have hle := hfits t ht ((hfind hneed).2 t ht hvir)
          simp only [pageSize] at hle
          omega
        · simp only [Section.tabled]
          omega
      · exact hfree
  have hneedLe : (bootNeed info (mapMemory junk info.kernelPhysicalStart zone) : ℤ) ≤ 2 ^ 19 := by
    have hmem : k' ∈ (mapMemory junk info.kernelPhysicalStart zone .kernel).memorySection := by
      rw [hzK]
      exact hk'
    have hle := hfits k' hmem (hkGiven.same.1.trans hkPhy)
    have hwindow := (mapMemory_windows hanalysed junk ⟨k, hk, hkPhy⟩ hpages).kernel k' hmem
    have hsize := ((hcounters .kernel).1 k' hmem).size_lt
    have hmaped := hwindow.le_size
    simp only [pageSize] at hle
    omega
  have hwrap : wrap32 ((mapMemory junk info.kernelPhysicalStart zone .kernel).nrFreePages -
        bootNeed info (mapMemory junk info.kernelPhysicalStart zone)) =
      (mapMemory junk info.kernelPhysicalStart zone .kernel).nrFreePages -
        bootNeed info (mapMemory junk info.kernelPhysicalStart zone) := by
    have hnr : (mapMemory junk info.kernelPhysicalStart zone .kernel).nrFreePages =
        pagesOf (zone .kernel).memorySection := by
      rw [hzK]
      simp only [hanalysed.nrFreePages_eq, hanalysed.pageNum_eq, pagesOf]
    obtain ⟨hlo, hhi⟩ := pagesOf_bounds (l := (zone .kernel).memorySection) fun s hs =>
      ⟨hpages .kernel s hs, (hanalysed.fresh .kernel s hs).nrPage_lt⟩
    have hlength := hanalysed.nrSection_le .kernel
    rw [hanalysed.nrSection_eq] at hlength
    simp only [zoneMaxSection] at hlength
    rw [hnr]
    apply wrap32_eq_self <;> omega
  have hall := hbuilt.counters (hcounters .kernel).1 (fun z s hs => ((hcounters z).1 s hs).size_eq)
    (fun z => (hcounters z).2.2.1) (fun z => (hcounters z).2.2.2.1) hkernelFree
    (freeOf_bootedKernel (fun hneed => (hfind hneed).1) hne) hwrap
  have hspans : ∀ x, hits ((sections bank.zone).map Section.span) x =
      hits (info.region.map MemoryRegion.span) x := by
    intro x
    rw [hbuilt.hits (bootedKernel_cuttable (hcounters .kernel).1), ← hits_analysed hinfo hattr hzone]
    simp only [mappedSections, map_append, (hcounters _).2.2.2.2]
  refine ⟨?_, ?_, fun z => (hall z).1, fun z => (hall z).2.1, fun z => (hall z).2.2⟩
  · exact pairwise_map.mp (Cover.pairwise_of_countP_le_one fun x =>
      (hspans x).trans_le (hinfo.disjoint.hits_le_one x))
  · intro x
    simp only [Section.Has, MemoryRegion.has_iff, ← hits_pos_iff, hspans]

/-- The sections of a small platform. -/
theorem mmInit_partitioned_smallBoard :
    smallBoard.Usable ∧ smallBoard.BootFits 0 ∧
      ∃ bank, mmInit 0 smallBoard (fun _ => 0) (fun _ => zeroPage) = some bank ∧
        Partitioned smallBoard bank := by
  have hfits : smallBoard.BootFits 0 := by decide +kernel
  exact ⟨smallBoard_usable, hfits, mmInit_partitioned smallBoard_usable (by decide) hfits _ _⟩

end Counters

end Chunos.Bank
