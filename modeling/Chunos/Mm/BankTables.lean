import Chunos.Mm.BankWindows

/-!
# The tables of the sections

The sections of all zones get their parts of the array of `struct page` and of the bitmaps one
behind the other. Then the pages of the kernel image are marked in one section, the parts of the
kernel sections that could not be mapped become sections of the user zone, and the sections are
numbered. The lemmas here say what each step makes of the lists of sections and of the counters.
-/

namespace Chunos.Bank

open Listwise Function List Option
open Pgt (kernelVirtualBase)

section Tables

/-- A section with its part of the array of `struct page` and its bitmap. -/
def Section.tabled (s : Section) (pg bm : ℕ) : Section :=
  { s with pageTable := pg, bitmap := bm, bmCurrent := 0, bmEnd := u32 s.nrPage }

/-- Sections that get their tables one behind the other. -/
def tables : List Section → ℕ → ℕ → List Section
  | [], _, _ => []
  | s :: rest, pg, bm =>
    s.tabled pg bm :: tables rest (pg + s.nrPage).toNat (bm + bitsToLong s.nrPage)

/-- The first word behind the bitmaps. -/
def wordsEnd (l : List Section) (bm : ℕ) : ℕ := bm + (l.map fun s => bitsToLong s.nrPage).sum

/-- The first entry behind the page tables. -/
def pagesEnd : List Section → ℕ → ℕ
  | [], pg => pg
  | s :: rest, pg => pagesEnd rest (pg + s.nrPage).toNat

theorem placePageTables_snd (l : List Section) (pg : ℕ) :
    (placePageTables l pg).2 = pagesEnd l pg := by
  induction l generalizing pg with
  | nil => rfl
  | cons s rest ih => exact ih _

theorem placeBitmaps_placePageTables (l : List Section) (pg bm : ℕ) :
    placeBitmaps (placePageTables l pg).1 bm = (tables l pg bm, wordsEnd l bm) := by
  induction l generalizing pg bm with
  | nil => rfl
  | cons s rest ih =>
    simp only [placePageTables, placeBitmaps, tables, wordsEnd, map_cons, sum_cons] at ih ⊢
    rw [ih]
    simp only [Section.tabled, Prod.mk.injEq, true_and]
    omega

theorem tables_append (l l' : List Section) (pg bm : ℕ) :
    tables (l ++ l') pg bm = tables l pg bm ++ tables l' (pagesEnd l pg) (wordsEnd l bm) := by
  induction l generalizing pg bm with
  | nil => rfl
  | cons s rest ih =>
    simp only [cons_append, tables, pagesEnd, ih, wordsEnd, map_cons, sum_cons, Nat.add_assoc]

theorem map_tables {α : Type*} {f : Section → α} (hf : ∀ s pg bm, f (s.tabled pg bm) = f s)
    (l : List Section) (pg bm : ℕ) : (tables l pg bm).map f = l.map f := by
  induction l generalizing pg bm with
  | nil => rfl
  | cons s rest ih => rw [tables, map_cons, map_cons, hf, ih]

theorem exists_of_mem_tables {l : List Section} {pg bm : ℕ} {s : Section}
    (hs : s ∈ tables l pg bm) : ∃ t ∈ l, ∃ pg bm, s = t.tabled pg bm := by
  induction l generalizing pg bm with
  | nil => simp [tables] at hs
  | cons t rest ih =>
    obtain rfl | hs := mem_cons.mp hs
    · exact ⟨t, mem_cons_self, pg, bm, rfl⟩
    · obtain ⟨t', ht', h⟩ := ih hs
      exact ⟨t', mem_cons_of_mem t ht', h⟩

/-- The sections whose tables `mm_init` lays out, in their order. -/
def mappedSections (zone : ZoneId → Zone) : List Section :=
  (zone .kernel).memorySection ++ (zone .dma).memorySection ++ (zone .res).memorySection

/-- The zones with the tables of their sections. -/
def tabledZones (zone : ZoneId → Zone) : ZoneId → Zone
  | .kernel => { zone .kernel with memorySection := tables (zone .kernel).memorySection 0 0 }
  | .dma =>
    { zone .dma with
      memorySection := tables (zone .dma).memorySection (pagesEnd (zone .kernel).memorySection 0)
        (wordsEnd (zone .kernel).memorySection 0) }
  | .res =>
    { zone .res with
      memorySection := tables (zone .res).memorySection
        (pagesEnd ((zone .kernel).memorySection ++ (zone .dma).memorySection) 0)
        (wordsEnd ((zone .kernel).memorySection ++ (zone .dma).memorySection) 0) }
  | .user => zone .user

theorem pagesEnd_append (l l' : List Section) (pg : ℕ) :
    pagesEnd (l ++ l') pg = pagesEnd l' (pagesEnd l pg) := by
  induction l generalizing pg with
  | nil => rfl
  | cons s rest ih => exact ih _

theorem wordsEnd_append (l l' : List Section) (bm : ℕ) :
    wordsEnd (l ++ l') bm = wordsEnd l' (wordsEnd l bm) := by
  simp [wordsEnd, Nat.add_assoc]

theorem initSections_eq (zone : ZoneId → Zone) :
    (initSectionsPageTable zone).2 = pagesEnd (mappedSections zone) 0 ∧
      initSectionsBitmap (initSectionsPageTable zone).1 =
        (tabledZones zone, wordsEnd (mappedSections zone) 0) := by
  simp only [initSectionsPageTable, initSectionsBitmap, overZones, placeBitmaps_placePageTables,
    placePageTables_snd, mappedSections, pagesEnd_append, wordsEnd_append, true_and,
    Prod.mk.injEq, and_true]
  funext z
  cases z <;> simp only [tabledZones, pagesEnd_append, wordsEnd_append]

theorem mappedSections_tabledZones (zone : ZoneId → Zone) :
    mappedSections (tabledZones zone) = tables (mappedSections zone) 0 0 := by
  simp only [mappedSections, tabledZones, tables_append]

end Tables

section UserZone

/-- A part of the section is not mapped. -/
def Section.Short (s : Section) : Prop := s.mapedSize < s.nrPage * pageSize

instance (s : Section) : Decidable s.Short := inferInstanceAs (Decidable (_ < _))

/-- What `init_user_zone` leaves of a kernel section. -/
def Section.kept (s : Section) : Section := if s.Short then mappedSection s else s

/-- The sections of the user zone. -/
def userSections (l : List Section) : List Section := (l.filter fun s => s.Short).map userSection

theorem userSections_cons {s : Section} (hs : s.Short) (rest : List Section) :
    userSections (s :: rest) = userSection s :: userSections rest := by
  simp [userSections, hs]

theorem userSections_cons_of_not {s : Section} (hs : ¬ s.Short) (rest : List Section) :
    userSections (s :: rest) = userSections rest := by
  simp [userSections, hs]

/-- The pages of sections. -/
def pagesOf (l : List Section) : ℤ := (l.map Section.nrPage).sum

/-- The loop of `init_user_zone`. -/
theorem initUserZoneLoop_eq (l : List Section) (zone uzone : Zone) :
    initUserZoneLoop l zone uzone =
      (l.map Section.kept,
        { zone with
          nrSection := zone.nrSection - (l.filter fun s => s.Short ∧ s.mapedSize = 0).length
          pageNum := zone.pageNum - pagesOf (userSections l)
          nrFreePages := zone.nrFreePages - pagesOf (userSections l) },
        { uzone with
          memorySection := uzone.memorySection ++ userSections l
          nrSection := uzone.nrSection + (userSections l).length
          pageNum := uzone.pageNum + pagesOf (userSections l)
          nrFreePages := uzone.nrFreePages + pagesOf (userSections l) }) := by
  induction l generalizing zone uzone with
  | nil => simp [initUserZoneLoop, userSections, pagesOf]
  | cons s rest ih =>
    rw [initUserZoneLoop]
    by_cases hs : s.Short
    · have hlt : s.mapedSize < s.nrPage * pageSize := hs
      simp only [if_pos hlt, ih]
      have hfree : (userSection s).nrFreePages = (userSection s).nrPage := rfl
      have hkept : s.kept = mappedSection s := if_pos hs
      simp only [userSections_cons hs, map_cons, hkept, pagesOf, sum_cons, hfree, append_assoc,
        singleton_append, length_cons]
      refine Prod.ext rfl (Prod.ext ?_ ?_)
      · simp only [Zone.mk.injEq, true_and]
        refine ⟨?_, by ring, by ring⟩
        by_cases hmaped : s.mapedSize = 0
        · simp [hs, hmaped]
          omega
        · simp [hmaped]
      · simp only [Zone.mk.injEq, true_and]
        refine ⟨by ring, by ring, by ring⟩
    · have hlt : ¬ s.mapedSize < s.nrPage * pageSize := hs
      simp only [if_neg hlt, ih]
      have hkept : s.kept = s := if_neg hs
      simp [userSections_cons_of_not hs, hkept, hs]

end UserZone

section Numbers

/-- A section that has been numbered. -/
def Section.Numbered (s s' : Section) : Prop := ∃ id, s' = { s with sectionTableId := id }

/-- The sections of a zone with a size get the next numbers. -/
theorem numberSections_spec (z : ZoneId) (l : List Section) (j : ℕ) (table : List (ZoneId × ℕ)) :
    List.Forall₂ Section.Numbered l (numberSections z l j table).1 ∧
      ∃ new, (numberSections z l j table).2 = table ++ new ∧ new.length ≤ l.length ∧
        (∀ i s, (numberSections z l j table).1[i]? = some s → s.size ≠ 0 →
          ∃ k, s.sectionTableId = table.length + k ∧ new[k]? = some (z, j + i)) ∧
        ∀ k p, new[k]? = some p → ∃ i s, p = (z, j + i) ∧
          (numberSections z l j table).1[i]? = some s ∧ s.size ≠ 0 ∧
          s.sectionTableId = table.length + k := by
  induction l generalizing j table with
  | nil => exact ⟨List.Forall₂.nil, [], by simp [numberSections]⟩
  | cons s rest ih =>
    rw [numberSections]
    by_cases hs : s.size = 0
    · obtain ⟨hrest, new, htable, hlength, hid, hentry⟩ := ih (j + 1) table
      simp only [if_pos hs]
      refine ⟨List.Forall₂.cons ⟨s.sectionTableId, rfl⟩ hrest, new, htable, ?_, ?_, ?_⟩
      · simp only [length_cons]
        omega
      · intro i t ht hsize
        cases i with
        | zero => exact absurd ((some.inj ht) ▸ hs) hsize
        | succ i =>
          obtain ⟨k, hk, hnew⟩ := hid i t ht hsize
          exact ⟨k, hk, by rw [hnew, Nat.add_assoc, Nat.add_comm 1 i]⟩
      · intro k p hp
        obtain ⟨i, t, hpi, ht, hsize, hk⟩ := hentry k p hp
        exact ⟨i + 1, t, by rw [hpi, Nat.add_assoc, Nat.add_comm 1 i], ht, hsize, hk⟩
    · obtain ⟨hrest, new, htable, hlength, hid, hentry⟩ := ih (j + 1) (table ++ [(z, j)])
      simp only [if_neg hs]
      refine ⟨List.Forall₂.cons ⟨table.length, rfl⟩ hrest, (z, j) :: new, ?_, ?_, ?_, ?_⟩
      · rw [htable, append_assoc, singleton_append]
      · simp only [length_cons]
        omega
      · intro i t ht hsize
        cases i with
        | zero =>
          obtain rfl := some.inj ht
          exact ⟨0, rfl, rfl⟩
        | succ i =>
          obtain ⟨k, hk, hnew⟩ := hid i t ht hsize
          refine ⟨k + 1, ?_, ?_⟩
          · rw [hk, length_append, length_singleton]
            omega
          · rw [getElem?_cons_succ, hnew, Nat.add_assoc, Nat.add_comm 1 i]
      · intro k p hp
        cases k with
        | zero =>
          obtain rfl := some.inj hp
          exact ⟨0, _, rfl, rfl, hs, rfl⟩
        | succ k =>
          obtain ⟨i, t, hpi, ht, hsize, hk⟩ := hentry k p hp
          refine ⟨i + 1, t, by rw [hpi, Nat.add_assoc, Nat.add_comm 1 i], ht, hsize, ?_⟩
          rw [hk, length_append, length_singleton]
          omega

/-- The section table has the sections with a size, each at its number. -/
structure TableOk (bank : MmBank) : Prop where
  id : ∀ (z : ZoneId) (i : ℕ) (s : Section), (bank.zone z).memorySection[i]? = some s →
    s.size ≠ 0 → bank.sectionTable[s.sectionTableId]? = some (z, i)
  entry : ∀ (k : ℕ) (z : ZoneId) (i : ℕ), bank.sectionTable[k]? = some (z, i) →
    ∃ s : Section, (bank.zone z).memorySection[i]? = some s ∧ s.size ≠ 0 ∧ s.sectionTableId = k
  length_le : bank.sectionTable.length ≤
    (bank.zone .kernel).memorySection.length + (bank.zone .dma).memorySection.length +
      (bank.zone .res).memorySection.length + (bank.zone .user).memorySection.length

/-- `update_section_table`. -/
theorem updateSectionTable_spec (bank : MmBank) :
    TableOk (updateSectionTable bank) ∧
      ∀ z, ∃ l, List.Forall₂ Section.Numbered (bank.zone z).memorySection l ∧
        (updateSectionTable bank).zone z = { bank.zone z with memorySection := l } := by
  obtain ⟨hK, newK, hKtable, hKlen, hKid, hKentry⟩ :=
    numberSections_spec .kernel (bank.zone .kernel).memorySection 0 []
  obtain ⟨hD, newD, hDtable, hDlen, hDid, hDentry⟩ :=
    numberSections_spec .dma (bank.zone .dma).memorySection 0 newK
  obtain ⟨hR, newR, hRtable, hRlen, hRid, hRentry⟩ :=
    numberSections_spec .res (bank.zone .res).memorySection 0 (newK ++ newD)
  obtain ⟨hU, newU, hUtable, hUlen, hUid, hUentry⟩ :=
    numberSections_spec .user (bank.zone .user).memorySection 0 (newK ++ newD ++ newR)
  rw [nil_append] at hKtable
  have htable : (updateSectionTable bank).sectionTable = newK ++ (newD ++ (newR ++ newU)) := by
    simp only [updateSectionTable, hKtable, hDtable, hRtable, hUtable]
    simp only [append_assoc]
  have hsections : (updateSectionTable bank).zone .kernel = { bank.zone .kernel with
      memorySection := (numberSections .kernel (bank.zone .kernel).memorySection 0 []).1 } ∧
      (updateSectionTable bank).zone .dma = { bank.zone .dma with
        memorySection := (numberSections .dma (bank.zone .dma).memorySection 0 newK).1 } ∧
      (updateSectionTable bank).zone .res = { bank.zone .res with
        memorySection := (numberSections .res (bank.zone .res).memorySection 0 (newK ++ newD)).1 } ∧
      (updateSectionTable bank).zone .user = { bank.zone .user with
        memorySection :=
          (numberSections .user (bank.zone .user).memorySection 0 (newK ++ newD ++ newR)).1 } := by
    simp only [updateSectionTable, hKtable, hDtable, hRtable, and_self]
  obtain ⟨hzK, hzD, hzR, hzU⟩ := hsections
  have hzone : ∀ z, ∃ l, List.Forall₂ Section.Numbered (bank.zone z).memorySection l ∧
      (updateSectionTable bank).zone z = { bank.zone z with memorySection := l } := by
    intro z
    cases z with
    | kernel => exact ⟨_, hK, hzK⟩
    | dma => exact ⟨_, hD, hzD⟩
    | res => exact ⟨_, hR, hzR⟩
    | user => exact ⟨_, hU, hzU⟩
  refine ⟨⟨?_, ?_, ?_⟩, hzone⟩
  · intro z i s hs hsize
    rw [htable]
    cases z with
    | kernel =>
      rw [hzK] at hs
      obtain ⟨k, hk, hnew⟩ := hKid i s hs hsize
      have hmid := getElem?_append_mid [] (newD ++ (newR ++ newU)) hnew
      rw [nil_append] at hmid
      rw [hk, hmid, Nat.zero_add]
    | dma =>
      rw [hzD] at hs
      obtain ⟨k, hk, hnew⟩ := hDid i s hs hsize
      rw [hk, getElem?_append_mid newK _ hnew, Nat.zero_add]
    | res =>
      rw [hzR] at hs
      obtain ⟨k, hk, hnew⟩ := hRid i s hs hsize
      rw [hk, ← append_assoc, getElem?_append_mid (newK ++ newD) _ hnew, Nat.zero_add]
    | user =>
      rw [hzU] at hs
      obtain ⟨k, hk, hnew⟩ := hUid i s hs hsize
      have hmid := getElem?_append_mid (newK ++ newD ++ newR) [] hnew
      rw [append_nil] at hmid
      rw [hk, ← append_assoc, ← append_assoc, hmid, Nat.zero_add]
  · intro k z i hk
    rw [htable] at hk
    obtain hk₀ | ⟨k₁, rfl, hk₁⟩ := getElem?_append_cases hk
    · obtain ⟨i', s, hp, hs, hsize, hid⟩ := hKentry k _ hk₀
      obtain ⟨rfl, rfl⟩ := Prod.mk.inj hp
      exact ⟨s, by rw [hzK, Nat.zero_add]; exact hs, hsize, by simpa using hid⟩
    obtain hk₁ | ⟨k₂, rfl, hk₂⟩ := getElem?_append_cases hk₁
    · obtain ⟨i', s, hp, hs, hsize, hid⟩ := hDentry k₁ _ hk₁
      obtain ⟨rfl, rfl⟩ := Prod.mk.inj hp
      exact ⟨s, by rw [hzD, Nat.zero_add]; exact hs, hsize, hid⟩
    obtain hk₂ | ⟨k₃, rfl, hk₃⟩ := getElem?_append_cases hk₂
    · obtain ⟨i', s, hp, hs, hsize, hid⟩ := hRentry k₂ _ hk₂
      obtain ⟨rfl, rfl⟩ := Prod.mk.inj hp
      exact ⟨s, by rw [hzR, Nat.zero_add]; exact hs, hsize, by
        rw [hid, length_append, Nat.add_assoc]⟩
    · obtain ⟨i', s, hp, hs, hsize, hid⟩ := hUentry k₃ _ hk₃
      obtain ⟨rfl, rfl⟩ := Prod.mk.inj hp
      exact ⟨s, by rw [hzU, Nat.zero_add]; exact hs, hsize, by
        rw [hid, length_append, length_append, Nat.add_assoc, Nat.add_assoc]⟩
  · rw [htable, hzK, hzD, hzR, hzU]
    simp only [length_append, ← hK.length_eq, ← hD.length_eq, ← hR.length_eq, ← hU.length_eq]
    omega

end Numbers

section Built

/-- The pages of the kernel image, of the array of `struct page` and of the bitmaps. -/
def bootNeed (info : SocMemoryInfo) (zone : ZoneId → Zone) : ℕ :=
  bootPages info (pagesEnd (mappedSections zone) 0) (wordsEnd (mappedSections zone) 0)

/-- A section whose first pages are in use. -/
def Section.booted (s : Section) (pages : ℕ) : Section :=
  if s.virStart = kernelVirtualBase then
    { s with bmCurrent := pages, nrFreePages := s.nrFreePages - pages }
  else s

/-- The kernel sections with their tables, with the pages of the image marked in one of them. -/
def bootedKernel (info : SocMemoryInfo) (zone : ZoneId → Zone) : List Section :=
  (tables (zone .kernel).memorySection 0 0).modify
    (bootSlot (tables (zone .kernel).memorySection 0 0)) (Section.booted · (bootNeed info zone))

theorem map_bootedKernel {α : Type*} {f : Section → α} (hf : ∀ s pg bm, f (s.tabled pg bm) = f s)
    (hf' : ∀ s pages, f (Section.booted s pages) = f s) (info : SocMemoryInfo)
    (zone : ZoneId → Zone) :
    (bootedKernel info zone).map f = (zone .kernel).memorySection.map f := by
  rw [bootedKernel, map_modify_eq (fun s => hf' s _), map_tables hf]

variable {info : SocMemoryInfo} {zone : ZoneId → Zone}

theorem exists_of_mem_bootedKernel {s : Section} (hs : s ∈ bootedKernel info zone) :
    ∃ t ∈ (zone .kernel).memorySection, ∃ pg bm,
      s = t.tabled pg bm ∨ s = (t.tabled pg bm).booted (bootNeed info zone) := by
  obtain ⟨s', hs', h⟩ := mem_of_mem_modify hs
  obtain ⟨t, ht, pg, bm, rfl⟩ := exists_of_mem_tables hs'
  exact ⟨t, ht, pg, bm, h⟩

theorem forall_bootedKernel {P : Section → Prop} (hP : ∀ t ∈ (zone .kernel).memorySection,
      ∀ pg bm cur free, P { t.tabled pg bm with bmCurrent := cur, nrFreePages := free }) :
    ∀ s ∈ bootedKernel info zone, P s := by
  intro s hs
  obtain ⟨t, ht, pg, bm, rfl | rfl⟩ := exists_of_mem_bootedKernel hs
  · exact hP t ht pg bm _ _
  · rw [Section.booted]
    split_ifs
    · exact hP t ht pg bm _ _
    · exact hP t ht pg bm _ _

/-- The zones with these kernel sections. -/
def bootedZones (info : SocMemoryInfo) (zone : ZoneId → Zone) : ZoneId → Zone :=
  update (tabledZones zone) .kernel
    { zone .kernel with
      memorySection := bootedKernel info zone
      nrFreePages := wrap32 ((zone .kernel).nrFreePages - bootNeed info zone) }

/-- The words of the bitmaps, with the bits of the image set. -/
def bootedWords (info : SocMemoryInfo) (zone : ZoneId → Zone) (s : Section) (words : Bitmap) :
    Bitmap :=
  let words : Bitmap := fun w => if w < wordsEnd (mappedSections zone) 0 then 0 else words w
  if s.virStart = kernelVirtualBase then
    spliceWords words s.bitmap
      (updateMemoryBitmap (wordsFrom words s.bitmap) 0 (bootNeed info zone) true)
  else words

/-- The array of `struct page`, with the entries of the image. -/
def bootedPage (info : SocMemoryInfo) (zone : ZoneId → Zone) (s : Section) (page : ℕ → Page) :
    ℕ → Page :=
  let page : ℕ → Page := fun i => if i < pagesEnd (mappedSections zone) 0 then zeroPage else page i
  if s.virStart = kernelVirtualBase then
    bootPagesLoop s.pvOffset (bootNeed info zone) s.pageTable s.virStart page
  else page

/-- The bank that `mm_init` builds from the mapped sections. -/
structure Built (info : SocMemoryInfo) (zone : ZoneId → Zone) (words : Bitmap) (page : ℕ → Page)
    (bank : MmBank) : Prop where
  table : TableOk bank
  kernel : ∃ l, List.Forall₂ Section.Numbered ((bootedKernel info zone).map Section.kept) l ∧
    bank.zone .kernel = { zone .kernel with
      memorySection := l
      nrSection := (zone .kernel).nrSection -
        ((bootedKernel info zone).filter fun s => s.Short ∧ s.mapedSize = 0).length
      pageNum := (zone .kernel).pageNum - pagesOf (userSections (bootedKernel info zone))
      nrFreePages := wrap32 ((zone .kernel).nrFreePages - bootNeed info zone) -
        pagesOf (userSections (bootedKernel info zone)) }
  dma : ∃ l, List.Forall₂ Section.Numbered (tabledZones zone .dma).memorySection l ∧
    bank.zone .dma = { zone .dma with memorySection := l }
  res : ∃ l, List.Forall₂ Section.Numbered (tabledZones zone .res).memorySection l ∧
    bank.zone .res = { zone .res with memorySection := l }
  user : ∃ l, List.Forall₂ Section.Numbered (userSections (bootedKernel info zone)) l ∧
    bank.zone .user =
      { memorySection := l
        nrSection := (userSections (bootedKernel info zone)).length
        pageNum := pagesOf (userSections (bootedKernel info zone))
        nrFreePages := pagesOf (userSections (bootedKernel info zone)) }
  boot : ∃ s, (tables (zone .kernel).memorySection 0 0)[
      bootSlot (tables (zone .kernel).memorySection 0 0)]? = some s ∧
    bank.words = bootedWords info zone s words ∧ bank.page = bootedPage info zone s page

/-- `update_boot_section_info`. -/
theorem updateBootSectionInfo_eq (bank : MmBank) {slot : ℕ} {s : Section}
    (hs : (bank.zone .kernel).memorySection[slot]? = some s) (pages : ℕ) :
    updateBootSectionInfo bank slot s pages =
      { bank with
        zone := update bank.zone .kernel
          { bank.zone .kernel with
            memorySection := (bank.zone .kernel).memorySection.modify slot (Section.booted · pages) }
        words := if s.virStart = kernelVirtualBase then
            spliceWords bank.words s.bitmap
              (updateMemoryBitmap (wordsFrom bank.words s.bitmap) 0 pages true)
          else bank.words
        page := if s.virStart = kernelVirtualBase then
            bootPagesLoop s.pvOffset pages s.pageTable s.virStart bank.page
          else bank.page } := by
  unfold updateBootSectionInfo
  by_cases hvir : s.virStart = kernelVirtualBase
  · have hmodify : (bank.zone .kernel).memorySection.modify slot (Section.booted · pages) =
        (bank.zone .kernel).memorySection.modify slot fun s =>
          { s with bmCurrent := pages, nrFreePages := s.nrFreePages - pages } :=
      modify_congr hs (by rw [Section.booted, if_pos hvir])
    rw [if_neg (not_not_intro hvir), hmodify, if_pos hvir, if_pos hvir]
  · have hsame : (bank.zone .kernel).memorySection.modify slot (Section.booted · pages) =
        (bank.zone .kernel).memorySection := by
      rw [modify_congr hs (by rw [Section.booted, if_neg hvir, id] : _ = id s), modify_id]
    rw [if_pos hvir, hsame, if_neg hvir, if_neg hvir, update_eq_self]

/-- `mm_init` after `map_memory`, while the user zone is still empty. -/
theorem initPageTable_built {words : Bitmap} {page : ℕ → Page} {bank : MmBank}
    (huser : zone .user = {})
    (h : initPageTable info { zone := zone, words := words, page := page, sectionTable := [] } =
      some bank) :
    Built info zone words page (updateSectionTable { bank with zone := initUserZone bank.zone }) := by
  obtain ⟨hpages, hbitmap⟩ := initSections_eq zone
  simp only [initPageTable, hpages, hbitmap] at h
  obtain ⟨s, hs, hbank⟩ := map_eq_some_iff.mp h
  rw [updateBootSectionInfo_eq _ (by simpa using hs)] at hbank
  simp only [update_self, update_idem] at hbank
  subst hbank
  obtain ⟨htable, hzone⟩ := updateSectionTable_spec
    { zone := initUserZone (bootedZones info zone)
      words := bootedWords info zone s words
      page := bootedPage info zone s page
      sectionTable := [] }
  have huser' : bootedZones info zone .user = {} := huser
  have hmade := initUserZone.eq_1 (bootedZones info zone)
  simp only [initUserZoneLoop_eq, huser', nil_append, zero_add] at hmade
  refine ⟨htable, ?_, hzone .dma, hzone .res, ?_, s, hs, rfl, rfl⟩
  · obtain ⟨l, hl, hz⟩ := hzone .kernel
    simp only [congrFun hmade .kernel] at hl hz
    exact ⟨l, hl, hz⟩
  · obtain ⟨l, hl, hz⟩ := hzone .user
    simp only [congrFun hmade .user] at hl hz
    exact ⟨l, hl, hz⟩

/-- The slot that `init_page_table` finds. -/
theorem bootSlot_spec {l : List Section} (hl : l ≠ []) :
    ∃ s, l[bootSlot l]? = some s ∧
      ((∃ t ∈ l, t.virStart = kernelVirtualBase) → s.virStart = kernelVirtualBase) := by
  have hpos := length_pos_iff.mpr hl
  unfold bootSlot
  cases hfind : l.findIdx? fun s => s.virStart = kernelVirtualBase with
  | none =>
    have hlast : l.length - 1 < l.length := by omega
    refine ⟨l[l.length - 1], getElem?_eq_getElem hlast, ?_⟩
    rintro ⟨t, ht, hvir⟩
    have := findIdx?_eq_none_iff.mp hfind t ht
    simp [hvir] at this
  | some i =>
    obtain ⟨hi, hvir, -⟩ := findIdx?_eq_some_iff_getElem.mp hfind
    exact ⟨l[i], getElem?_eq_getElem hi, fun _ => by simpa using hvir⟩

/-- `mm_init` completes when there is a kernel section. -/
theorem mmInit_isSome (junk : ℤ) (hok : ∀ r ∈ info.region, r.Ok)
    (hzone : analyseSocMemoryInfo info = some zone) (hkernel : regionsOf .kernel info.region ≠ [])
    (words : Bitmap) (page : ℕ → Page) : ∃ bank, mmInit junk info words page = some bank := by
  have hsections : (mapMemory junk info.kernelPhysicalStart zone .kernel).memorySection ≠ [] := by
    obtain ⟨l, base, hl, hz⟩ := mapMemory_given (analyseSocMemoryInfo_analysed hok hzone) junk
      info.kernelPhysicalStart .kernel
    obtain ⟨s, hs⟩ := exists_mem_of_ne_nil _ (kernel_ne_nil hok hzone hkernel)
    obtain ⟨s', hs', -⟩ := exists_of_mem_left hl hs
    rw [hz]
    exact ne_nil_of_mem hs'
  have hne : tables (mapMemory junk info.kernelPhysicalStart zone .kernel).memorySection 0 0 ≠ [] := by
    intro h
    have hmap := map_tables (f := fun _ => ()) (fun _ _ _ => rfl)
      (mapMemory junk info.kernelPhysicalStart zone .kernel).memorySection 0 0
    rw [h, map_nil] at hmap
    exact hsections (map_eq_nil_iff.mp hmap.symm)
  obtain ⟨s, hs, -⟩ := bootSlot_spec hne
  obtain ⟨hpages, hbitmap⟩ := initSections_eq (mapMemory junk info.kernelPhysicalStart zone)
  rw [mmInit, hzone, bind_some]
  simp only [initPageTable, hpages, hbitmap, tabledZones, hs]
  exact ⟨_, rfl⟩

/-- `mm_init` builds a bank from the sections of the regions. -/
theorem mmInit_built {junk : ℤ} (hinfo : ∀ r ∈ info.region, r.Ok) {words : Bitmap} {page : ℕ → Page}
    {bank : MmBank} (h : mmInit junk info words page = some bank) :
    ∃ zone, analyseSocMemoryInfo info = some zone ∧
      Built info (mapMemory junk info.kernelPhysicalStart zone) words page bank := by
  obtain ⟨zone, hzone, hinit⟩ := bind_eq_some_iff.mp h
  obtain ⟨bank', hbank', rfl⟩ := map_eq_some_iff.mp hinit
  refine ⟨zone, hzone, initPageTable_built ?_ hbank'⟩
  exact (analyseSocMemoryInfo_analysed hinfo hzone).user_eq

end Built

end Chunos.Bank
