import Chunos.Mm.TaskFork

/-!
# Copying a section

This file says what the copy of one section does: which translations of the child change,
where the pages of the child are mapped, and what they hold. Each of the four copies changes
only what belongs to its own section.
-/

namespace Chunos.TaskMm

open Pgt Function List Option

variable {β : Type*} {s s' : Frames} {ndir pdir : ℕ → Option ℕ} {nown pown : ℕ → Prop}

/-- The pages of a task. -/
def pages (mm : MmStruct) : List ℕ := sectionIds.flatMap fun i => (mm.mmSection i).allocMem

theorem mem_sectionIds (i : SectionId) : i ∈ sectionIds := by
  cases i <;> simp [sectionIds]

variable {i : SectionId} {mm : MmStruct} {table' : TaskPageTable} {nl pl : List ℕ}

variable {page pp : ℕ}

theorem mem_pages (h : page ∈ (mm.mmSection i).allocMem) : page ∈ pages mm :=
  mem_flatMap.mpr ⟨i, mem_sectionIds i, h⟩

theorem nodup_section (h : (pages mm).Nodup) (i : SectionId) : (mm.mmSection i).allocMem.Nodup :=
  (nodup_flatMap.mp h).1 i (mem_sectionIds i)

theorem section_unique (h : (pages mm).Nodup) {j : SectionId}
    (hi : page ∈ (mm.mmSection i).allocMem) (hj : page ∈ (mm.mmSection j).allocMem) : i = j := by
  by_contra hne
  have hsymm : Std.Symm (onFun List.Disjoint fun i => (mm.mmSection i).allocMem) :=
    ⟨fun _ _ hab => hab.symm⟩
  exact (nodup_flatMap.mp h).2.forall (mem_sectionIds i) (mem_sectionIds j) hne hi hj

/-- The number of the page of user memory at which the `j`-th page of a section belongs. -/
def pageNumber (parent : MmStruct) (s : Frames) (i : SectionId) (j page : ℕ) : ℕ :=
  match i with
  | .stack => (parent.mmSection i).baseAddr / pageSize - 1 - j
  | .mmap => s.mapAddress page / pageSize
  | _ => (parent.mmSection i).baseAddr / pageSize + j

/-- The sections of a parent and its child. The child's sections have the addresses of the
parent's. The pages of a task are counted, but for those of `mmap`. -/
structure Sections (new parent : MmStruct) : Prop where
  distinct : (pages parent ++ pages new).Nodup
  base : ∀ i, (new.mmSection i).baseAddr = (parent.mmSection i).baseAddr
  stackBase : (parent.mmSection .stack).baseAddr = kernelVirtualBase
  normalBase : ∀ i, i = .elf ∨ i = .metaData →
    ∃ b < 2 ^ 19, (parent.mmSection i).baseAddr = pageSize * b
  count : ∀ i, (new.mmSection i).allocPages = (new.mmSection i).allocMem.length
  parentCount : ∀ i ≠ .mmap, (parent.mmSection i).allocPages = (parent.mmSection i).allocMem.length
  mmapCount : 0 ≤ (parent.mmSection .mmap).allocPages ∧
    (parent.mmSection .mmap).allocPages ≤ (parent.mmSection .mmap).allocMem.length

/-- The pages of the parent are mapped where they belong. -/
def Mapped (parent : MmStruct) (s : Frames) (pdir : ℕ → Option ℕ) : Prop :=
  ∀ i j page, (parent.mmSection i).allocMem[j]? = some page →
    pageNumber parent s i j page < 2 ^ 19 ∧
      lookup s.word pdir (pageSize * pageNumber parent s i j page) = some page

/-- A parent and its child during a `fork`. -/
structure Forking (new parent : MmStruct) (s : Frames) (ndir pdir : ℕ → Option ℕ)
    (nown pown : ℕ → Prop) : Prop where
  tables : Tables new.pageTable parent.pageTable s ndir pdir nown pown
  sections : Sections new parent
  mapped : Mapped parent s pdir

variable {new new' parent : MmStruct} {m m' : Machine β}

theorem Sections.ne (h : Sections new parent) {j : SectionId} {c : ℕ}
    (hpage : page ∈ (parent.mmSection i).allocMem) (hc : c ∈ (new.mmSection j).allocMem) :
    page ≠ c := by
  rintro rfl
  exact (nodup_append'.mp h.distinct).2.2 (mem_pages hpage) (mem_pages hc)

theorem Sections.congr (h : Sections new parent) (hsections : new'.mmSection = new.mmSection) :
    Sections new' parent := by
  have hpages : pages new' = pages new := by simp only [pages, hsections]
  constructor
  · rw [hpages]
    exact h.distinct
  · rw [hsections]
    exact h.base
  · exact h.stackBase
  · exact h.normalBase
  · rw [hsections]
    exact h.count
  · exact h.parentCount
  · exact h.mmapCount

/-- Two pages of the parent do not belong at the same place. -/
theorem Forking.pageNumber_inj (h : Forking new parent s ndir pdir nown pown) {i' : SectionId}
    {j j' page' : ℕ} (hpage : (parent.mmSection i).allocMem[j]? = some page)
    (hpage' : (parent.mmSection i').allocMem[j']? = some page')
    (heq : pageNumber parent s i j page = pageNumber parent s i' j' page') : i = i' ∧ j = j' := by
  have hlookup := (h.mapped i j page hpage).2
  rw [heq, (h.mapped i' j' page' hpage').2, some.injEq] at hlookup
  subst hlookup
  have hnodup := (nodup_append'.mp h.sections.distinct).1
  obtain rfl := section_unique hnodup (mem_of_getElem? hpage) (mem_of_getElem? hpage')
  refine ⟨rfl, ?_⟩
  have hlt : j < (parent.mmSection i).allocMem.length :=
    (List.getElem?_eq_some_iff.mp hpage).1
  exact (getElem?_inj hlt (nodup_section hnodup i)).mp (hpage.trans hpage'.symm)

theorem Forking.stack_length (h : Forking new parent s ndir pdir nown pown) :
    (parent.mmSection .stack).allocMem.length ≤ 2 ^ 19 := by
  by_contra hlen
  have hlast : 2 ^ 19 < (parent.mmSection .stack).allocMem.length := by omega
  have hprev : 2 ^ 19 - 1 < (parent.mmSection .stack).allocMem.length := by omega
  have hsame := h.pageNumber_inj (getElem?_eq_getElem hlast)
    (getElem?_eq_getElem hprev) (by simp [pageNumber, h.sections.stackBase, pageSize,
      kernelVirtualBase])
  simp at hsame

/-- The pages of a section that the code gets to: up to the next multiple of 256 pages for the
sections mapped upwards, and the counted ones for `mmap`. -/
def reach (parent : MmStruct) (i : SectionId) : ℕ :=
  match i with
  | .stack => (parent.mmSection i).allocMem.length
  | .mmap => (parent.mmSection i).allocPages.toNat
  | _ => normalRoom (parent.mmSection i).baseAddr

/-- What the loop of `copy_section_memory` reads. The stack is read from one page too high. -/
def sources (parent : MmStruct) (m : Machine β) (i : SectionId) : List β :=
  let sent := (parent.mmSection i).allocMem.map m.data
  match i with
  | .stack => (m.kernelData (parent.mmSection i).baseAddr :: sent).dropLast
  | _ => sent

/-- What the pages of the child's section hold after the copy, if `contents` is what they held
before. -/
def received (parent : MmStruct) (m : Machine β) (i : SectionId) (contents : List β) : List β :=
  match i with
  | .mmap => ((parent.mmSection i).allocMem.map m.data).take (parent.mmSection i).allocPages.toNat
  | _ => lastCopied (sources parent m i) contents

/-- The child has its pages of section `i`, with what they receive. -/
structure SectionFilled (i : SectionId) (new parent : MmStruct) (m m' : Machine β)
    (ndir' : ℕ → Option ℕ) : Prop where
  mapped : (parent.mmSection i).allocMem.length ≤ reach parent i →
    ∀ j page c, (parent.mmSection i).allocMem[j]? = some page →
      (new.mmSection i).allocMem[j]? = some c →
      lookup m'.frames.word ndir' (pageSize * pageNumber parent m.frames i j page) = some c
  length : (parent.mmSection i).allocMem.length ≤ reach parent i →
    (new.mmSection i).allocMem.length = (parent.mmSection i).allocMem.length
  contents : (new.mmSection i).allocMem.map m'.data =
    received parent m i ((new.mmSection i).allocMem.map m.data)

/-- What the copy of section `i` does. -/
structure SectionCopied (i : SectionId) (new new' parent : MmStruct) (m m' : Machine β)
    (ndir ndir' pdir : ℕ → Option ℕ) : Prop extends SectionFilled i new parent m m' ndir' where
  sections : new'.mmSection = new.mmSection
  parentLookup : ∀ va, lookup m'.frames.word pdir va = lookup m.frames.word pdir va
  childLookup : ∀ va, (∀ j page, (parent.mmSection i).allocMem[j]? = some page →
      j < reach parent i → va / pageSize ≠ pageNumber parent m.frames i j page) →
    lookup m'.frames.word ndir' va = lookup m.frames.word ndir va
  mapAddress : ∀ page ∉ (new.mmSection i).allocMem,
    m'.frames.mapAddress page = m.frames.mapAddress page
  data : ∀ page ∉ (new.mmSection i).allocMem, m'.data page = m.data page
  kernelData : m'.kernelData = m.kernelData

theorem Forking.sectionCopied {ndir' : ℕ → Option ℕ} {nown' : ℕ → Prop}
    (h : Forking new parent m.frames ndir pdir nown pown)
    (htables : Tables new'.pageTable parent.pageTable m'.frames ndir' pdir nown' pown)
    (hcopied : SectionCopied i new new' parent m m' ndir ndir' pdir) :
    Forking new' parent m'.frames ndir' pdir nown' pown := by
  refine ⟨htables, h.sections.congr hcopied.sections, ?_⟩
  intro i' j page hpage
  have hnumber : pageNumber parent m'.frames i' j page = pageNumber parent m.frames i' j page := by
    have haddr := hcopied.mapAddress page
      (fun hmem => h.sections.ne (mem_of_getElem? hpage) hmem rfl)
    cases i' <;> simp only [pageNumber, haddr]
  rw [hnumber, hcopied.parentLookup]
  exact h.mapped i' j page hpage

/-- The kind of mapping of a section. -/
def sectionType (i : SectionId) : MapType :=
  match i with
  | .stack => .stack
  | _ => .normal

theorem length_sources (parent : MmStruct) (m : Machine β) (i : SectionId) :
    (sources parent m i).length = (parent.mmSection i).allocMem.length := by
  cases i <;> simp [sources]

/-- The loop of `copy_section_memory` reads its sources. -/
theorem Forking.reads_sources (h : Forking new parent m.frames ndir pdir nown pown) (hi : i ≠ .mmap)
    {c : ℕ} (hc : c ∈ (new.mmSection i).allocMem) {k : ℕ} {b : β}
    (hk : (sources parent m i)[k]? = some b) :
    Reads pdir m c (srcAddr (sectionType i) (parent.mmSection i).baseAddr k) b := by
  have huser : ∀ j page, (parent.mmSection i).allocMem[j]? = some page →
      Reads pdir m c (pageSize * pageNumber parent m.frames i j page) (m.data page) := by
    intro j page hpage
    obtain ⟨hlt, hlookup⟩ := h.mapped i j page hpage
    refine Or.inl ⟨?_, page, h.sections.ne (mem_of_getElem? hpage) hc, hlookup, rfl⟩
    simp only [pageSize, kernelVirtualBase]
    omega
  have hnormal : i = .elf ∨ i = .metaData → ∀ page, (parent.mmSection i).allocMem[k]? = some page →
      m.data page = b → Reads pdir m c ((parent.mmSection i).baseAddr + pageSize * k) b := by
    rintro hcase page hpage rfl
    obtain ⟨b₀, -, hbase⟩ := h.sections.normalBase i hcase
    have hread := huser k page hpage
    have hnumber : pageSize * pageNumber parent m.frames i k page =
        (parent.mmSection i).baseAddr + pageSize * k := by
      obtain rfl | rfl := hcase <;>
        simp only [pageNumber, hbase, (page_entries b₀).2.2, Nat.mul_add]
    rwa [hnumber] at hread
  cases i with
  | mmap => exact absurd rfl hi
  | elf =>
    simp only [sources, getElem?_map, map_eq_some_iff] at hk
    obtain ⟨page, hpage, hb⟩ := hk
    exact hnormal (Or.inl rfl) page hpage hb
  | metaData =>
    simp only [sources, getElem?_map, map_eq_some_iff] at hk
    obtain ⟨page, hpage, hb⟩ := hk
    exact hnormal (Or.inr rfl) page hpage hb
  | stack =>
    simp only [sources, getElem?_dropLast] at hk
    split_ifs at hk with hlt
    cases k with
    | zero =>
      right
      simp only [getElem?_cons_zero, some.injEq] at hk
      simp only [srcAddr, sectionType, Nat.mul_zero, Nat.sub_zero]
      exact ⟨h.sections.stackBase.ge, hk⟩
    | succ k =>
      rw [getElem?_cons_succ, getElem?_map, map_eq_some_iff] at hk
      obtain ⟨page, hpage, rfl⟩ := hk
      have hread := huser k page hpage
      have hnumber : pageSize * pageNumber parent m.frames .stack k page =
          (parent.mmSection .stack).baseAddr - pageSize * (k + 1) := by
        simp only [pageNumber, h.sections.stackBase, pageSize, kernelVirtualBase]
        omega
      rwa [hnumber] at hread

theorem sectionType_normal (h : i = .elf ∨ i = .metaData) : sectionType i = .normal := by
  obtain rfl | rfl := h <;> rfl

theorem pageNumber_normal (h : i = .elf ∨ i = .metaData) (j page : ℕ) :
    pageNumber parent s i j page = (parent.mmSection i).baseAddr / pageSize + j := by
  obtain rfl | rfl := h <;> rfl

theorem reach_normal (h : i = .elf ∨ i = .metaData) :
    reach parent i = normalRoom (parent.mmSection i).baseAddr := by
  obtain rfl | rfl := h <;> rfl

/-- `pgt_map_task_memory` for a section of the child that has as many pages as the parent's. -/
theorem Forking.mapTaskMemory (h : Forking new parent s ndir pdir nown pown) (hi : i ≠ .mmap)
    (hlen : (new.mmSection i).allocMem.length = (parent.mmSection i).allocMem.length)
    (hmap : pgtMapTaskMemory new.pageTable (new.mmSection i).allocMem (new.mmSection i).baseAddr
      (sectionType i) s = (0, table', s')) :
    ∃ ndir' nown', Ready s' table' ndir' nown' ∧
      Grows (· ∈ (new.mmSection i).allocMem) s s' new.pageTable table' nown nown' ∧
      (∀ va, (∀ j page, (parent.mmSection i).allocMem[j]? = some page →
          j < reach parent i → va / pageSize ≠ pageNumber parent s i j page) →
        lookup s'.word ndir' va = lookup s.word ndir va) ∧
      ((parent.mmSection i).allocMem.length ≤ reach parent i →
        ∀ j page c, (parent.mmSection i).allocMem[j]? = some page →
          (new.mmSection i).allocMem[j]? = some c →
          lookup s'.word ndir' (pageSize * pageNumber parent s i j page) = some c) := by
  rw [h.sections.base] at hmap
  have hsome : ∀ j < (new.mmSection i).allocMem.length, ∃ page,
      (parent.mmSection i).allocMem[j]? = some page :=
    fun j hj => ⟨_, getElem?_eq_getElem (hlen ▸ hj)⟩
  by_cases hstack : i = .stack
  · subst hstack
    have hbase : kernelVirtualBase / pageSize = 2 ^ 19 := by decide
    rw [h.sections.stackBase] at hmap
    obtain ⟨ndir', nown', hready, hgrows, hlookup⟩ := (maps_ready _).pgtMapStackMemory
      (fun _ hp => hp) (hlen ▸ h.stack_length) h.tables.child hmap
    obtain ⟨hmapped, hsame⟩ := hlookup rfl
    refine ⟨ndir', nown', hready, hgrows, ?_, ?_⟩
    · intro va hva
      refine hsame va ?_
      intro j hj
      obtain ⟨page, hpage⟩ := hsome j hj
      have hne := hva j page hpage (by rw [reach, ← hlen]; exact hj)
      rwa [pageNumber, h.sections.stackBase, hbase] at hne
    · intro _ j page c _ hc
      rw [pageNumber, h.sections.stackBase, hbase]
      exact hmapped j c hc
  · have hcase : i = .elf ∨ i = .metaData := by
      cases i <;> simp_all
    obtain ⟨b, hb, hbase⟩ := h.sections.normalBase i hcase
    rw [sectionType_normal hcase, hbase] at hmap
    obtain ⟨ndir', nown', hready, hgrows, hlookup⟩ :=
      (maps_ready _).pgtMapNormalMemory (fun _ hp => hp) hb h.tables.child hmap
    obtain ⟨hsame, hmapped⟩ := hlookup rfl
    have hpos : 0 < normalRoom (pageSize * b) := by
      rw [normalRoom]
      omega
    have hnumber : ∀ j page, pageNumber parent s i j page = b + j := by
      intro j page
      rw [pageNumber_normal hcase, hbase, (page_entries b).2.2]
    refine ⟨ndir', nown', hready, hgrows, ?_, ?_⟩
    · intro va hva
      refine hsame va ?_
      intro j hj
      obtain ⟨page, hpage⟩ := hsome _ ((Nat.mod_le j _).trans_lt hj)
      rw [← hnumber _ page]
      exact hva _ page hpage (by rw [reach_normal hcase, hbase]; exact Nat.mod_lt j hpos)
    · intro hroom j page c _ hc
      rw [reach_normal hcase, hbase, ← hlen] at hroom
      have hmod : ∀ k < (new.mmSection i).allocMem.length, k % normalRoom (pageSize * b) = k :=
        fun k hk => Nat.mod_eq_of_lt (hk.trans_le hroom)
      have hlt := (List.getElem?_eq_some_iff.mp hc).1
      rw [hnumber, ← hmod j hlt]
      refine hmapped j c hc fun k hjk hk => ?_
      rw [hmod j hlt, hmod k hk]
      exact hjk.ne

/-- `copy_task_mm_section` for the sections other than `mmap`. -/
theorem Forking.copyTaskMmSection (h : Forking new parent m.frames ndir pdir nown pown)
    (hi : i ≠ .mmap) (hcopy : copyTaskMmSection new parent i (sectionType i) m = some (0, new', m')) :
    ∃ ndir' nown', Forking new' parent m'.frames ndir' pdir nown' pown ∧
      SectionCopied i new new' parent m m' ndir ndir' pdir := by
  unfold TaskMm.copyTaskMmSection at hcopy
  rcases hmap : pgtMapTaskMemory new.pageTable (new.mmSection i).allocMem
    (new.mmSection i).baseAddr (sectionType i) m.frames with ⟨ret, table', s₁⟩
  simp only [hmap] at hcopy
  by_cases hret : ret = 0
  swap
  · rw [if_pos hret] at hcopy
    simp [hret] at hcopy
  subst hret
  rw [if_neg (by simp), map_eq_some_iff] at hcopy
  obtain ⟨⟨ret, m₂⟩, hmemory, hres⟩ := hcopy
  cases hres
  -- The counts of the sections agree, so the sections have the same number of pages.
  unfold copySectionMemory at hmemory
  split_ifs at hmemory with hcount hneg
  · simp [einval] at hmemory
  rw [not_not, h.sections.count, h.sections.parentCount i hi, Nat.cast_inj] at hcount
  obtain ⟨ndir', nown', hready, hgrows, hframe, hmapped⟩ := h.mapTaskMemory hi hcount hmap
  obtain ⟨htables, hlookup⟩ := h.tables.grow hready hgrows
  have hnodup := nodup_section (nodup_append'.mp h.sections.distinct).2.1 i
  obtain ⟨m', hloop, htables', hsame, hkernel, hdata, hcontents⟩ :=
    Tables.copySection (m := { m with frames := s₁ }) htables (sectionType i) hnodup
      (hcount.trans (length_sources parent m i).symm)
      (fun c hc k b hk => (h.reads_sources hi hc hk).congr hlookup)
  have hnat : (new.mmSection i).allocPages.toNat = (new.mmSection i).allocMem.length := by
    rw [h.sections.count, Int.toNat_natCast]
  rw [hnat, hloop, some.injEq, Prod.mk.injEq] at hmemory
  obtain ⟨-, rfl⟩ := hmemory
  have hcopied : SectionCopied i new { new with pageTable := table' } parent m m' ndir ndir'
      pdir := by
    refine ⟨⟨?_, fun _ => hcount, ?_⟩, rfl, fun va => (hsame.parent va).trans (hlookup va),
      fun va hva => (hsame.child va).trans (hframe va hva), ?_, hdata, hkernel⟩
    · intro hreach j page c hpage hc
      rw [hsame.child, hmapped hreach j page c hpage hc]
    · rw [hcontents]
      cases i with
      | mmap => exact absurd rfl hi
      | elf => rfl
      | stack => rfl
      | metaData => rfl
    · intro page hpage
      rw [hsame.mapAddress]
      exact hgrows.mapAddress page hpage
  exact ⟨ndir', nown', h.sectionCopied htables' hcopied, hcopied⟩

/-- The lists that the loop of `copy_task_mmap` walks over: pages `nl` of the child and pages
`pl` of the parent, which are mapped at the addresses recorded for them. -/
structure MmapLists (pdir : ℕ → Option ℕ) (s : Frames) (nl pl : List ℕ) : Prop where
  nodup : nl.Nodup
  parentNodup : pl.Nodup
  apart : ∀ page ∈ pl, page ∉ nl
  mapped : ∀ page ∈ pl, s.mapAddress page / pageSize < 2 ^ 19 ∧
    lookup s.word pdir (pageSize * (s.mapAddress page / pageSize)) = some page

/-- The lists after their first pages, when the pages of the parent are mapped as before. -/
theorem MmapLists.tail {np : ℕ} (h : MmapLists pdir s (np :: nl) (pp :: pl))
    (hlookup : ∀ va, lookup s'.word pdir va = lookup s.word pdir va)
    (haddr : ∀ page ∉ np :: nl, s'.mapAddress page = s.mapAddress page) :
    MmapLists pdir s' nl pl := by
  refine ⟨h.nodup.of_cons, h.parentNodup.of_cons, ?_, ?_⟩
  · intro page hpage hmem
    exact h.apart page (mem_cons_of_mem pp hpage) (mem_cons_of_mem np hmem)
  · intro page hpage
    have hmem := mem_cons_of_mem pp hpage
    rw [haddr page (h.apart page hmem), hlookup]
    exact h.mapped page hmem

theorem MmapLists.number_ne (h : MmapLists pdir s nl (pp :: pl)) (hpage : page ∈ pl) :
    s.mapAddress page / pageSize ≠ s.mapAddress pp / pageSize := by
  intro heq
  have hlookup := (h.mapped page (mem_cons_of_mem pp hpage)).2
  rw [heq, (h.mapped pp mem_cons_self).2, some.injEq] at hlookup
  subst hlookup
  exact (nodup_cons.mp h.parentNodup).1 hpage

/-- One turn of the loop of `copy_task_mmap`. -/
theorem Tables.copyMmapPage {table : TaskPageTable} {np : ℕ}
    (h : Tables table parent.pageTable m.frames ndir pdir nown pown)
    (hlists : MmapLists pdir m.frames (np :: nl) (pp :: pl)) {count : ℕ}
    (hloop : copyMmapLoop parent (count + 1) (np :: nl) (pp :: pl) table m = some (0, table', m')) :
    ∃ ndir₁ nown₁ table₁ m₁, copyMmapLoop parent count nl pl table₁ m₁ = some (0, table', m') ∧
      Tables table₁ parent.pageTable m₁.frames ndir₁ pdir nown₁ pown ∧
      (∀ va, lookup m₁.frames.word pdir va = lookup m.frames.word pdir va) ∧
      (∀ va, lookup m₁.frames.word ndir₁ va =
        if va / pageSize = m.frames.mapAddress pp / pageSize then some np
        else lookup m.frames.word ndir va) ∧
      (∀ page ≠ np, m₁.frames.mapAddress page = m.frames.mapAddress page) ∧
      m₁.data = update m.data np (m.data pp) ∧ m₁.kernelData = m.kernelData := by
  obtain ⟨hlt, hlookup⟩ := hlists.mapped pp mem_cons_self
  have hne : pp ≠ np := by
    rintro rfl
    exact hlists.apart pp mem_cons_self mem_cons_self
  have hva : m.frames.mapAddress pp < kernelVirtualBase := by
    simp only [pageSize, kernelVirtualBase] at hlt ⊢
    omega
  unfold copyMmapLoop at hloop
  rcases hmap : pgtMapMmapPage table np (m.frames.mapAddress pp) m.frames with ⟨ret, table₁, s₁⟩
  simp only [hmap] at hloop
  by_cases hret : ret = 0
  swap
  · rw [if_pos hret] at hloop
    simp [hret] at hloop
  subst hret
  obtain ⟨ndir₁, nown₁, hready, hgrows, hchild⟩ :=
    pgtMapMmapPage_spec (· = np) rfl hva h.child hmap
  obtain ⟨htables, hparent⟩ := h.grow hready hgrows
  -- The source is the page of the parent.
  have hread : Reads pdir { m with frames := s₁ } np
      (pageSize * (m.frames.mapAddress pp / pageSize)) (m.data pp) := by
    refine Or.inl ⟨?_, pp, hne, ?_, rfl⟩
    · simp only [pageSize, kernelVirtualBase] at hlt ⊢
      omega
    · rw [hparent, hlookup]
  obtain ⟨s₂, m₁, htemp, haddr, hmemcpy, htables₁, hcopied⟩ :=
    Tables.memcpyTemp (m := { m with frames := s₁ }) htables hread
  have hsrc : pageToVa s₂ pp = pageSize * (m.frames.mapAddress pp / pageSize) := by
    have hoffset := Nat.mod_lt (m.frames.mapAddress pp) (show 0 < pageSize by decide)
    have hmask := pageSize_mul_add_and_mask (lt_trans hlt (by decide)) hoffset
    rw [Nat.div_add_mod] at hmask
    rw [pageToVa, haddr, hgrows.mapAddress pp hne, hmask]
  rw [if_neg (by simp)] at hloop
  simp only [htemp, if_neg (show kernelTempBufferBase ≠ 0 by decide), hsrc, hmemcpy,
    bind_some] at hloop
  refine ⟨ndir₁, nown₁, table₁, m₁, hloop, htables₁, ?_, ?_, ?_, hcopied.data, hcopied.kernelData⟩
  · exact fun va => (hcopied.frames.parent va).trans (hparent va)
  · exact fun va => (hcopied.frames.child va).trans (hchild va)
  · intro page hpage
    rw [hcopied.frames.mapAddress]
    exact hgrows.mapAddress page hpage

/-- The loop of `copy_task_mmap` copies its pages to where they belong. -/
theorem Tables.copyMmapLoop {table : TaskPageTable} {count : ℕ}
    (h : Tables table parent.pageTable m.frames ndir pdir nown pown)
    (hlists : MmapLists pdir m.frames nl pl)
    (hloop : copyMmapLoop parent count nl pl table m = some (0, table', m')) :
    ∃ ndir' nown', Tables table' parent.pageTable m'.frames ndir' pdir nown' pown ∧
      (∀ va, lookup m'.frames.word pdir va = lookup m.frames.word pdir va) ∧
      (∀ va, (∀ j page, pl[j]? = some page → j < count →
          va / pageSize ≠ m.frames.mapAddress page / pageSize) →
        lookup m'.frames.word ndir' va = lookup m.frames.word ndir va) ∧
      (∀ page ∉ nl, m'.frames.mapAddress page = m.frames.mapAddress page) ∧
      (∀ page ∉ nl, m'.data page = m.data page) ∧ m'.kernelData = m.kernelData ∧
      ∀ j page c, pl[j]? = some page → nl[j]? = some c → j < count →
        lookup m'.frames.word ndir' (pageSize * (m.frames.mapAddress page / pageSize)) = some c ∧
          m'.data c = m.data page := by
  induction count generalizing nl pl table m ndir nown with
  | zero =>
    simp only [TaskMm.copyMmapLoop, some.injEq, Prod.mk.injEq, true_and] at hloop
    obtain ⟨rfl, rfl⟩ := hloop
    exact ⟨ndir, nown, h, fun _ => rfl, fun _ _ => rfl, fun _ _ => rfl, fun _ _ => rfl, rfl,
      fun j page c _ _ hj => absurd hj (Nat.not_lt_zero j)⟩
  | succ count ih =>
    obtain ⟨np, nl, rfl⟩ | rfl : (∃ np nl', nl = np :: nl') ∨ nl = [] := by
      cases nl <;> simp
    swap
    · simp [TaskMm.copyMmapLoop] at hloop
    obtain ⟨pp, pl, rfl⟩ | rfl : (∃ pp pl', pl = pp :: pl') ∨ pl = [] := by
      cases pl <;> simp
    swap
    · simp [TaskMm.copyMmapLoop] at hloop
    obtain ⟨ndir₁, nown₁, table₁, m₁, hloop₁, htables₁, hparent₁, hchild₁, haddr₁, hdata₁,
      hkernel₁⟩ := h.copyMmapPage hlists hloop
    have haddr : ∀ page ∉ np :: nl, m₁.frames.mapAddress page = m.frames.mapAddress page :=
      fun page hpage => haddr₁ page (ne_of_not_mem_cons hpage)
    have hpl : ∀ page ∈ pl, m₁.frames.mapAddress page = m.frames.mapAddress page :=
      fun page hpage => haddr page (hlists.apart page (mem_cons_of_mem pp hpage))
    obtain ⟨ndir', nown', htables', hparent, hframe, haddr', hdata, hkernel, hcopied⟩ :=
      ih htables₁ (hlists.tail hparent₁ haddr) hloop₁
    refine ⟨ndir', nown', htables', fun va => (hparent va).trans (hparent₁ va), ?_, ?_, ?_,
      hkernel.trans hkernel₁, ?_⟩
    · intro va hva
      rw [hframe va, hchild₁, if_neg (hva 0 pp rfl (Nat.succ_pos count))]
      intro j page hpage hj
      rw [hpl page (mem_of_getElem? hpage)]
      exact hva (j + 1) page hpage (Nat.succ_lt_succ hj)
    · intro page hpage
      rw [haddr' page (fun hmem => hpage (mem_cons_of_mem np hmem)), haddr page hpage]
    · intro page hpage
      rw [hdata page (fun hmem => hpage (mem_cons_of_mem np hmem)), hdata₁,
        update_of_ne (ne_of_not_mem_cons hpage)]
    · intro j page c hpage hc hj
      cases j with
      | zero =>
        -- The first page keeps its place, because the others have other addresses.
        obtain rfl : pp = page := by simpa using hpage
        obtain rfl : np = c := by simpa using hc
        refine ⟨?_, ?_⟩
        · rw [hframe, hchild₁, if_pos (page_entries _).2.2]
          intro j page' hpage' _
          have hmem := mem_of_getElem? hpage'
          rw [(page_entries _).2.2, hpl page' hmem]
          exact (hlists.number_ne hmem).symm
        · rw [hdata np (nodup_cons.mp hlists.nodup).1, hdata₁, update_self]
      | succ j =>
        rw [getElem?_cons_succ] at hpage hc
        obtain ⟨hlookup, hcontents⟩ := hcopied j page c hpage hc (Nat.lt_of_succ_lt_succ hj)
        have hmem := mem_of_getElem? hpage
        rw [hpl page hmem] at hlookup
        refine ⟨hlookup, ?_⟩
        have hne : page ≠ np := by
          rintro rfl
          exact hlists.apart page (mem_cons_of_mem pp hmem) mem_cons_self
        rw [hcontents, hdata₁, update_of_ne hne]

/-- `copy_task_mmap`. -/
theorem Forking.copyTaskMmap (h : Forking new parent m.frames ndir pdir nown pown)
    (hcopy : copyTaskMmap new parent m = some (0, new', m')) :
    ∃ ndir' nown', Forking new' parent m'.frames ndir' pdir nown' pown ∧
      SectionCopied .mmap new new' parent m m' ndir ndir' pdir := by
  simp only [TaskMm.copyTaskMmap] at hcopy
  split_ifs at hcopy with hcount hneg
  · simp [einval] at hcopy
  rw [not_not] at hcount
  rw [map_eq_some_iff] at hcopy
  obtain ⟨⟨ret, table', m₁⟩, hloop, hres⟩ := hcopy
  cases hres
  obtain ⟨hparentNodup, hnodup, hdisjoint⟩ := nodup_append'.mp h.sections.distinct
  have hlists : MmapLists pdir m.frames (new.mmSection .mmap).allocMem
      (parent.mmSection .mmap).allocMem := by
    refine ⟨nodup_section hnodup .mmap, nodup_section hparentNodup .mmap, ?_, ?_⟩
    · exact fun page hpage hmem => hdisjoint (mem_pages hpage) (mem_pages hmem)
    · intro page hpage
      obtain ⟨j, hj⟩ := getElem?_of_mem hpage
      exact h.mapped .mmap j page hj
  obtain ⟨ndir', nown', htables, hparent, hframe, haddr, hdata, hkernel, hcopies⟩ :=
    h.tables.copyMmapLoop hlists hloop
  have hreach : (new.mmSection .mmap).allocPages.toNat = reach parent .mmap := by
    rw [hcount, reach]
  rw [hreach] at hframe hcopies
  have hlen : (new.mmSection .mmap).allocMem.length = reach parent .mmap := by
    rw [← hreach, h.sections.count, Int.toNat_natCast]
  have hle : reach parent .mmap ≤ (parent.mmSection .mmap).allocMem.length := by
    have hbound := h.sections.mmapCount
    rw [reach]
    omega
  have hcopied : SectionCopied .mmap new { new with pageTable := table' } parent m m₁ ndir ndir'
      pdir := by
    refine ⟨⟨?_, fun hall => hlen.trans (le_antisymm hle hall), ?_⟩, rfl, hparent, hframe, haddr,
      hdata, hkernel⟩
    · intro hall j page c hpage hc
      have hj : j < reach parent .mmap :=
        lt_of_lt_of_le (List.getElem?_eq_some_iff.mp hpage).1 hall
      exact (hcopies j page c hpage hc hj).1
    · refine ext_getElem? fun j => ?_
      rw [received, getElem?_map, getElem?_take, getElem?_map]
      change _ = if j < reach parent .mmap then _ else _
      split_ifs with hj
      · have hpage := getElem?_eq_getElem (lt_of_lt_of_le hj hle)
        have hc := getElem?_eq_getElem (lt_of_lt_of_eq hj hlen.symm)
        rw [hpage, hc, map_some, map_some, (hcopies j _ _ hpage hc hj).2]
      · rw [getElem?_eq_none (by omega), map_none]
  exact ⟨ndir', nown', h.sectionCopied htables hcopied, hcopied⟩

end Chunos.TaskMm
