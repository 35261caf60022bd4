import Chunos.Mm.PgtMmap
import Chunos.Mm.Slab
import Chunos.Mm.TaskMm

/-!
# Mapping and unmapping memory of a task

`task_mm_mmap` requests a page for each page of the range and maps it. `task_mm_munmap`
clears the entries and takes the pages from the list of their section, but it does not
release them, so that they are lost. When a page is missing in the middle of a range,
`task_mm_mmap` returns 0 and keeps the pages it has. The memory of a task is restored only
when no page was taken in the first place.
-/

namespace Chunos.TaskMm

open List Option

open Bank (Section)
open Pgt
open Slabs (pageNr)

variable {β : Type*}

/-- The section `i` is replaced. -/
def MmStruct.setSection (mm : MmStruct) (i : SectionId) (sec : TaskMmSection) : MmStruct :=
  { mm with mmSection := Function.update mm.mmSection i sec }

/-- `add_page_to_list_tail` on the list of a section. -/
def TaskMmSection.addPage (sec : TaskMmSection) (page : ℕ) : TaskMmSection :=
  { sec with allocMem := sec.allocMem ++ [page] }

/-- `del_page_from_list`: the page leaves the list of the section it is on. The links of a
page that is on no list are not valid. -/
def delPageFromList (page : ℕ) (mm : MmStruct) : Option MmStruct :=
  (sectionIds.find? fun i => page ∈ (mm.mmSection i).allocMem).map fun i =>
    mm.setSection i
      { mm.mmSection i with allocMem := (mm.mmSection i).allocMem.erase page }

/-- One page of `task_mm_mmap`: the page is put on the list of the section and mapped. The
result of `pgt_map_mmap_page` is not looked at, and the count of pages of the section does
not change. The fields `pinfo` and `pdata` of the page are left out. -/
def mmapPage (page ua : ℕ) (mm : MmStruct) (m : Machine β) : MmStruct × Machine β :=
  let (_, table, frames) := pgtMapMmapPage mm.pageTable page ua m.frames
  ({ mm.setSection .mmap ((mm.mmSection .mmap).addPage page) with pageTable := table },
    { m with frames := frames })

/-- The loop of `task_mm_mmap` over `nr` pages from `ua` on: the address behind them, or
`none` when a page is missing. -/
def mmapLoop : ℕ → ℕ → MmStruct → Machine β → Option ℕ × MmStruct × Machine β
  | 0, ua, mm, m => (some ua, mm, m)
  | nr + 1, ua, mm, m =>
    match requestPage m.frames with
    | none => (none, mm, m)
    | some (page, frames) =>
      let (mm, m) := mmapPage page ua mm { m with frames := frames }
      mmapLoop nr (nextPage ua) mm m

/-- The base that `task_mm_mmap` chooses, 0 when there is none. For the address 0 the
source passes the page table by value to `pgt_get_mmap_base`, which takes a pointer and has
no prototype there. What that call returns is therefore the parameter `search`. -/
def mmapBase (search : Option ℕ) (mm : MmStruct) (start : ℕ) (nr : ℤ) (m : Machine β) : Option ℕ :=
  if start = 0 then search
  else (pgtCheckMmapAddr mm.pageTable start nr m.frames).map fun ret => if ret ≠ 0 then 0 else start

/-- What `task_mm_mmap` returns, with the memory afterwards and the user addresses that the
copy from the file has written. -/
structure Mmapped (β : Type*) where
  base : ℕ
  mm : MmStruct
  m : Machine β
  written : List ℕ

/-- `task_mm_mmap`. The function `fmmap` is the call `fmmap(fd, buffer, len, off)` for a
buffer. It gets the address behind the pages. -/
def taskMmMmap (search : Option ℕ)
    (fmmap : ℕ → MmStruct → Machine β → Option (ℤ × List ℕ × Machine β))
    (mm : MmStruct) (start : ℕ) (len fd : ℤ) (m : Machine β) : Option (Mmapped β) :=
  (mmapBase search mm start (pageNr len) m).bind fun base =>
    if base = 0 then some ⟨0, mm, m, []⟩
    else
      match mmapLoop (pageNr len).toNat base mm m with
      | (none, mm, m) => some ⟨0, mm, m, []⟩
      | (some ua, mm, m) =>
        if 0 < fd then
          (fmmap ua mm m).map fun (ret, written, m) =>
            if ret ≠ len then ⟨0, mm, m, written⟩ else ⟨base, mm, m, written⟩
        else some ⟨base, mm, m, []⟩

/-- The loop of `task_mm_munmap` over `nr` pages. -/
def munmapLoop (secs : List Section) : ℕ → ℕ → MmStruct → Machine β → Option (MmStruct × Machine β)
  | 0, _, mm, m => some (mm, m)
  | nr + 1, start, mm, m =>
    let (page, frames) := pgtUnmapMmapPage secs mm.pageTable start m.frames
    let m := { m with frames := frames }
    match page with
    | none => munmapLoop secs nr (nextPage start) mm m
    | some page =>
      (delPageFromList page mm).bind fun mm => munmapLoop secs nr (nextPage start) mm m

/-- `task_mm_munmap`. With `sync` the first page is looked up, and its file is written by
`fmsync`, which changes no memory of the task. The test `page->pinfo < 0` never holds,
because the field is unsigned. -/
def taskMmMunmap (secs : List Section) (mm : MmStruct) (start : ℕ) (length : ℤ) (sync : Bool)
    (m : Machine β) : Option (ℤ × MmStruct × Machine β) :=
  let unmap := (munmapLoop secs (pageNr length).toNat start mm m).map fun (mm, m) => (0, mm, m)
  if sync then
    (pgtGetTaskPage secs mm.pageTable start m.frames).bind fun
      | none => some (-einval, mm, m)
      | some _ => unmap
  else unmap

/-- The user addresses that are mapped. -/
def mapped (mm : MmStruct) (m : Machine β) : Set ℕ :=
  { va | va < kernelVirtualBase ∧ (translate m.frames.word mm.pageTable.pdeBase va).isSome }

/-- The frames that are not free, without the pages for tables of the task. -/
def allocated (mm : MmStruct) (m : Machine β) : Set ℕ :=
  { page | page ∉ m.frames.supply ∧ page ∉ mm.pageTable.tableFrames }

/-- The mapped addresses and the allocated pages are as before. -/
def SameMemory (mm mm' : MmStruct) (m m' : Machine β) : Prop :=
  mapped mm' m' = mapped mm m ∧ allocated mm' m' = allocated mm m

/-- A successful mapping can be undone by unmapping it, and a mapping that fails changes
nothing. -/
def Undoes (secs : List Section) (search : Option ℕ)
    (fmmap : ℕ → MmStruct → Machine β → Option (ℤ × List ℕ × Machine β))
    (mm : MmStruct) (start : ℕ) (len fd : ℤ) (m : Machine β) : Prop :=
  ∀ r, taskMmMmap search fmmap mm start len fd m = some r →
    if r.base = 0 then SameMemory mm r.mm m r.m
    else ∃ mm' m', taskMmMunmap secs r.mm r.base len false r.m = some (0, mm', m') ∧
      SameMemory mm mm' m m'

/-- No page is taken: the range has no page, it is refused, or no page is free. -/
def TakesNothing (search : Option ℕ) (mm : MmStruct) (start : ℕ) (len : ℤ) (m : Machine β) : Prop :=
  pageNr len ≤ 0 ∨ mmapBase search mm start (pageNr len) m = none ∨
    mmapBase search mm start (pageNr len) m = some 0 ∨ m.frames.supply = []

instance (search : Option ℕ) (mm : MmStruct) (start : ℕ) (len : ℤ) (m : Machine β) :
    Decidable (TakesNothing search mm start len m) :=
  inferInstanceAs (Decidable (_ ∨ _ ∨ _ ∨ _))

/-- The free frames are distinct, and none of them is used for a table. -/
structure FreeFrames (mm : MmStruct) (m : Machine β) : Prop where
  nodup : m.frames.supply.Nodup
  apart : ∀ f ∈ m.frames.supply, f ∉ mm.pageTable.tableFrames

theorem mmapPage_draws (page ua : ℕ) (mm : MmStruct) (m : Machine β) :
    Draws 1 m.frames (mmapPage page ua mm m).2.frames mm.pageTable
      (mmapPage page ua mm m).1.pageTable :=
  pgtMapMmapPage_draws _ _ _ _

theorem mmapLoop_draws (nr ua : ℕ) (mm : MmStruct) (m : Machine β) :
    Draws (2 * nr) m.frames (mmapLoop nr ua mm m).2.2.frames mm.pageTable
      (mmapLoop nr ua mm m).2.1.pageTable := by
  induction nr generalizing ua mm m with
  | zero => exact Draws.refl _ _ _
  | succ nr ih =>
    cases hreq : requestPage m.frames with
    | none =>
      simp only [mmapLoop, hreq]
      exact Draws.refl _ _ _
    | some res =>
      obtain ⟨page, frames⟩ := res
      simp only [mmapLoop, hreq]
      have hsum : 2 * (nr + 1) = 1 + (1 + 2 * nr) := by ring
      rw [hsum]
      exact (requestPage_draws _ hreq).trans
        ((mmapPage_draws page ua mm { m with frames := frames }).trans (ih _ _ _))

variable {m : Machine β} {mm : MmStruct} {start : ℕ}

/-- A mapping of at least one page takes the first free frame and no table page for it. -/
theorem mmapLoop_takes (nr ua : ℕ) (h : FreeFrames mm m) {page : ℕ} {supply : List ℕ}
    (hsupply : m.frames.supply = page :: supply) :
    page ∈ allocated (mmapLoop (nr + 1) ua mm m).2.1 (mmapLoop (nr + 1) ua mm m).2.2 := by
  have hreq : requestPage m.frames = some (page, { m.frames with supply := supply }) := by
    simp only [requestPage, hsupply]
  simp only [mmapLoop, hreq]
  let m' : Machine β := { m with frames := { m.frames with supply := supply } }
  have hdraws := (mmapPage_draws page ua mm m').trans
    (mmapLoop_draws nr (nextPage ua) (mmapPage page ua mm m').1 (mmapPage page ua mm m').2)
  have hnodup := h.nodup
  rw [hsupply] at hnodup
  have hfresh : page ∉ supply := (nodup_cons.mp hnodup).1
  refine ⟨fun hmem => hfresh (hdraws.supply.subset hmem), fun hmem => ?_⟩
  rcases hdraws.tables page hmem with htable | hmem
  · exact h.apart page (hsupply ▸ mem_cons_self) htable
  · exact hfresh hmem

theorem delPageFromList_pageTable {page : ℕ} {mm' : MmStruct}
    (h : delPageFromList page mm = some mm') : mm'.pageTable = mm.pageTable := by
  obtain ⟨i, _, rfl⟩ := map_eq_some_iff.mp h
  rfl

/-- Unmapping gives back neither frames nor tables. -/
theorem munmapLoop_allocated (secs : List Section) {nr : ℕ} {mm' : MmStruct} {m' : Machine β}
    (h : munmapLoop secs nr start mm m = some (mm', m')) : allocated mm' m' = allocated mm m := by
  induction nr generalizing start mm m with
  | zero =>
    simp only [munmapLoop] at h
    cases h
    rfl
  | succ nr ih =>
    have hsupply : (pgtUnmapMmapPage secs mm.pageTable start m.frames).2.supply =
        m.frames.supply := by
      simp only [pgtUnmapMmapPage]
      split_ifs <;> rfl
    cases hpage : (pgtUnmapMmapPage secs mm.pageTable start m.frames).1 with
    | none =>
      simp only [munmapLoop, hpage] at h
      rw [ih h]
      simp only [allocated, hsupply]
    | some page =>
      simp only [munmapLoop, hpage] at h
      obtain ⟨mm₁, hdel, h⟩ := bind_eq_some_iff.mp h
      rw [ih h]
      simp only [allocated, hsupply, delPageFromList_pageTable hdel]

/-- When no page is taken, only the copy from the file can change something, and there is a
base only for a range without pages. -/
theorem taskMmMmap_of_takesNothing {search : Option ℕ}
    {fmmap : ℕ → MmStruct → Machine β → Option (ℤ × List ℕ × Machine β)} {len fd : ℤ}
    (h : TakesNothing search mm start len m) {r : Mmapped β}
    (hr : taskMmMmap search fmmap mm start len fd m = some r) :
    r.mm = mm ∧ (r.m = m ∨ 0 < fd ∧ ∃ ua ret written, fmmap ua mm m = some (ret, written, r.m)) ∧
      (r.base ≠ 0 → pageNr len ≤ 0) := by
  obtain ⟨base, hbase, hr⟩ := bind_eq_some_iff.mp hr
  by_cases hzero : base = 0
  · rw [if_pos hzero] at hr
    obtain rfl := some.inj hr
    exact ⟨rfl, .inl rfl, fun hne => absurd rfl hne⟩
  rw [if_neg hzero] at hr
  by_cases hnr : pageNr len ≤ 0
  · rw [Int.toNat_of_nonpos hnr] at hr
    simp only [mmapLoop] at hr
    split_ifs at hr with hfd
    · obtain ⟨⟨ret, written, m'⟩, hcopy, heq⟩ := map_eq_some_iff.mp hr
      split_ifs at heq <;> obtain rfl := heq <;>
        exact ⟨rfl, .inr ⟨hfd, _, _, _, hcopy⟩, fun _ => hnr⟩
    · obtain rfl := some.inj hr
      exact ⟨rfl, .inl rfl, fun _ => hnr⟩
  · rcases h with hle | hrefused | hrefused | hempty
    · exact absurd hle hnr
    · rw [hbase] at hrefused
      exact absurd hrefused nofun
    · rw [hbase] at hrefused
      exact absurd (some.inj hrefused) hzero
    · have hreq : requestPage m.frames = none := by simp only [requestPage, hempty]
      obtain ⟨nr, hsucc⟩ : ∃ nr, (pageNr len).toNat = nr + 1 :=
        ⟨(pageNr len).toNat - 1, by omega⟩
      simp only [hsucc, mmapLoop, hreq, some.injEq] at hr
      obtain rfl := hr
      exact ⟨rfl, .inl rfl, fun hne => absurd rfl hne⟩

/-- When a page is taken, it is still allocated after the mapping and the unmapping. -/
theorem not_undoes {secs : List Section} {search : Option ℕ}
    {fmmap : ℕ → MmStruct → Machine β → Option (ℤ × List ℕ × Machine β)} {len fd : ℤ}
    (hfree : FreeFrames mm m) (hfd : fd ≤ 0) (h : ¬ TakesNothing search mm start len m) :
    ¬ Undoes secs search fmmap mm start len fd m := by
  simp only [TakesNothing, not_or, not_le] at h
  obtain ⟨hpos, hsome, hne, hsupply⟩ := h
  obtain ⟨page, supply, hcons⟩ := exists_cons_of_ne_nil hsupply
  obtain ⟨base, hbase⟩ := ne_none_iff_exists'.mp hsome
  have hzero : base ≠ 0 := fun heq => hne (heq ▸ hbase)
  obtain ⟨nr, hnr⟩ : ∃ nr, (pageNr len).toNat = nr + 1 := ⟨(pageNr len).toNat - 1, by omega⟩
  have htaken := mmapLoop_takes nr base hfree hcons
  have hbefore : page ∉ allocated mm m := fun hmem => hmem.1 (hcons ▸ mem_cons_self)
  intro hundo
  cases hloop : mmapLoop (nr + 1) base mm m with
  | mk ua rest =>
    obtain ⟨mm₁, m₁⟩ := rest
    rw [hloop] at htaken
    cases ua with
    | none =>
      have hr := hundo ⟨0, mm₁, m₁, []⟩ (by simp [taskMmMmap, hbase, hzero, hnr, hloop])
      exact hbefore (hr.2 ▸ htaken)
    | some ua =>
      have hr := hundo ⟨base, mm₁, m₁, []⟩
        (by simp [taskMmMmap, hbase, hzero, hnr, hloop, not_lt.mpr hfd])
      rw [if_neg hzero] at hr
      obtain ⟨mm₂, m₂, hunmap, hsame⟩ := hr
      obtain ⟨⟨mm₃, m₃⟩, hunmapLoop, heq⟩ := map_eq_some_iff.mp hunmap
      simp only [Prod.mk.injEq, true_and] at heq
      obtain ⟨rfl, rfl⟩ := heq
      rw [← munmapLoop_allocated secs hunmapLoop, hsame.2] at htaken
      exact hbefore htaken

/-- Without a file, mapping and unmapping restore the memory of a task, and a mapping that
fails leaves it as it was, exactly when no page is taken. -/
theorem mmap_undoes_iff (secs : List Section) (search : Option ℕ)
    (fmmap : ℕ → MmStruct → Machine β → Option (ℤ × List ℕ × Machine β)) {mm : MmStruct}
    {m : Machine β} (hfree : FreeFrames mm m) (start : ℕ) (len : ℤ) {fd : ℤ} (hfd : fd ≤ 0) :
    Undoes secs search fmmap mm start len fd m ↔ TakesNothing search mm start len m := by
  refine ⟨not_imp_not.mp (not_undoes hfree hfd), fun h r hr => ?_⟩
  obtain ⟨hmm, hfile, hnr⟩ := taskMmMmap_of_takesNothing h hr
  have hm : r.m = m := hfile.resolve_right fun hpos => absurd hpos.1 (not_lt.mpr hfd)
  have hsame : SameMemory mm mm m m := ⟨rfl, rfl⟩
  split_ifs with hbase
  · rw [hmm, hm]
    exact hsame
  · refine ⟨mm, m, ?_, hsame⟩
    simp [taskMmMunmap, Int.toNat_of_nonpos (hnr hbase), munmapLoop, hmm, hm]

/-- A task without memory of its own, whose directory is frame 0x400, and free frames. -/
def bareTask : MmStruct where
  pageTable := newTask.1
  mmSection _ := ⟨0, 0, []⟩

/-- Memory with the given free frames. -/
def clearMachine (supply : List ℕ) : Machine Unit where
  frames := { newTask.2 with supply := supply }
  data _ := ()
  kernelData _ := ()
  released := []

/-- A file that cannot be mapped. -/
def noFile : ℕ → MmStruct → Machine β → Option (ℤ × List ℕ × Machine β) :=
  fun _ _ m => some (-enoent, [], m)

theorem clearMachine_freeFrames {supply : List ℕ} (h : supply.Nodup) :
    FreeFrames bareTask (clearMachine supply) :=
  ⟨h, fun _ _ => not_mem_nil⟩

/-- Without a free frame the memory is restored. -/
theorem mmap_undoes_iff_noFrame :
    Undoes topSections none noFile bareTask 0x40000000 4096 0 (clearMachine []) := by
  rw [mmap_undoes_iff topSections none noFile (clearMachine_freeFrames nodup_nil) _ _ le_rfl]
  exact .inr (.inr (.inr rfl))

/-- A page is mapped at 0x40000000 and unmapped again. Its frame 0x402 was free before, and
afterwards it is neither free nor on a list nor a table. With one free frame a mapping of
two pages returns 0, but the frame stays on the list. -/
theorem bareTask_mmap_leaks :
    ((taskMmMmap none noFile bareTask 0x40000000 4096 0 (clearMachine [0x402, 0x403])).bind
      fun r => (taskMmMunmap topSections r.mm r.base 4096 false r.m).map fun (ret, mm, m) =>
        (r.base, ret, m.frames.supply, (mm.mmSection .mmap).allocMem, mm.pageTable.tableFrames)) =
        some (0x40000000, 0, [], [], [0x403]) ∧
    (taskMmMmap none noFile bareTask 0x40000000 8192 0 (clearMachine [0x402])).map
      (fun r => (r.base, r.m.frames.supply, (r.mm.mmSection .mmap).allocMem)) =
        some (0, [], [0x402]) := by
  decide +kernel

end Chunos.TaskMm
