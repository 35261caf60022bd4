import Chunos.Mm.PgtPool
import Chunos.Mm.TaskCopy
import Chunos.Mm.TaskMmap

/-!
# Setting up the memory of a task

`init_mm_struct` for a task that is forked and for one that executes a new program, and
`task_mm_load_elf_image`. A section that has pages keeps them over an `exec`, and
`section_get_memory` is called with the difference to the number of pages that it needs.
As long as that difference is not negative, these functions move frames from the supply to
the lists of the sections, and the counts of the sections stay right.
-/

namespace Chunos.TaskMm

open Pgt Function List Option
open Slabs (pageNr)

variable {β : Type*}

/-- `PROCESS_USER_STACK_BASE`. -/
def processUserStackBase : ℕ := 0x80000000

/-- `PROCESS_USER_MMAP_BASE`. -/
def processUserMmapBase : ℕ := 0x50000000

/-- `PROCESS_USER_META_BASE`. -/
def processUserMetaBase : ℕ := 0x400000

/-- What the kernel knows of its own memory: the page that `va_to_page` gives for the
address 0, and the address of the page directory it has booted with. -/
structure Boot where
  zero : Option ℕ
  bootPde : ℕ

/-- `mmu_copy_kernel_pde`: the lower half of a directory is cleared, the upper half is that
of the kernel. -/
def mmuCopyKernelPde (bootPde base : ℕ) (s : Frames) : Frames :=
  if base = bootPde then s
  else
    { s with
      word := fun a =>
        if base ≤ a ∧ a < base + 2048 then 0
        else if base ≤ a ∧ a < base + 4096 then s.word (bootPde + (a - base))
        else s.word a }

/-- The number of frames that `init_task_page_table` requests for a directory. -/
def pdeRequests (buf : PgtBuffer) (table : TaskPageTable) : ℕ :=
  if table.pdeBase = 0 ∧ buf.nrFree = 0 then 1 else 0

/-- The number of frames that it requests for the temporary buffer, when it has got a
directory. -/
def tbufRequests (buf : PgtBuffer) (table : TaskPageTable) (s : Frames) : ℕ :=
  if table.pdeBase = 0 ∧ (buf.nrFree ≠ 0 ∨ s.supply ≠ []) then 1 else 0

/-- `init_task_page_table` with the requests for its pages and with the contents of the
directory. -/
def setUpPageTable (boot : Boot) (buf : PgtBuffer) (table : TaskPageTable) (s : Frames) :
    Option (ℤ × PgtBuffer × TaskPageTable × Frames) :=
  let forPde := pdeRequests buf table
  let forTbuf := tbufRequests buf table s
  let gotPde := (s.supply.take forPde).head?
  let gotTbuf := ((s.supply.drop forPde).take forTbuf).head?
  let s := { s with supply := s.supply.drop (forPde + forTbuf) }
  (initTaskPageTable boot.zero buf table gotPde gotTbuf).map fun (ret, buf, table) =>
    if ret ≠ 0 then (ret, buf, table, s)
    else
      (0, buf, table,
        createEntry (mmuCopyKernelPde boot.bootPde table.pdeBase s)
          (pgtGetPdeEntryAddr table.pdeBase kernelTempBufferBase) table.tbufPteBase)

/-- The base address that `init_task_mm_section` gives to a section. -/
def sectionBase (elfBase : ℕ) : SectionId → ℕ
  | .elf => elfBase
  | .stack => processUserStackBase
  | .mmap => processUserMmapBase
  | .metaData => processUserMetaBase

/-- `init_task_mm_section`: the list is initialised when the section counts no pages. -/
def initTaskMmSection (elfBase : ℕ) (i : SectionId) (sec : TaskMmSection) : TaskMmSection where
  baseAddr := sectionBase elfBase i
  allocPages := sec.allocPages
  allocMem := if sec.allocPages = 0 then [] else sec.allocMem

/-- `copy_mm_section_info`. -/
def copyMmSectionInfo (psection : TaskMmSection) : TaskMmSection where
  baseAddr := psection.baseAddr
  allocPages := 0
  allocMem := []

/-- `section_get_memory` on a section of a task. -/
def getMemory (i : SectionId) (count : ℤ) (mm : MmStruct) (m : Machine β) :
    Option (ℤ × MmStruct × Machine β) :=
  (sectionGetMemory count (mm.mmSection i) m).map fun (ret, sec, m) => (ret, mm.setSection i sec, m)

/-- `pgt_map_task_memory` on the list of a section. -/
def mapSection (i : SectionId) (type : MapType) (mm : MmStruct) (m : Machine β) :
    ℤ × MmStruct × Machine β :=
  let sec := mm.mmSection i
  let (ret, table, frames) :=
    pgtMapTaskMemory mm.pageTable sec.allocMem sec.baseAddr type m.frames
  (ret, { mm with pageTable := table }, { m with frames := frames })

/-- `alloc_task_user_stack`. -/
def allocTaskUserStack (mm : MmStruct) (m : Machine β) : Option (ℤ × MmStruct × Machine β) :=
  (getMemory .stack (4 - (mm.mmSection .stack).allocPages) mm m).map fun (ret, mm, m) =>
    if ret ≠ 0 then (ret, mm, m) else mapSection .stack .stack mm m

/-- `init_task_meta_section`. -/
def initTaskMetaSection (mm : MmStruct) (m : Machine β) : Option (ℤ × MmStruct × Machine β) :=
  if (mm.mmSection .metaData).allocPages = 0 then
    (getMemory .metaData 1 mm m).map fun (ret, mm, m) =>
      if ret ≠ 0 then (-enomem, mm, m)
      else
        let (ret, mm, m) := mapSection .metaData .normal mm m
        (if ret ≠ 0 then -efault else 0, mm, m)
  else some (0, mm, m)

/-- `task_mm_load_elf_image`, up to the loading of the contents. -/
def taskMmLoadElfImage (size : ℤ) (mm : MmStruct) (m : Machine β) :
    Option (ℤ × MmStruct × Machine β) :=
  (getMemory .elf (pageNr size - (mm.mmSection .elf).allocPages) mm m).map fun (ret, mm, m) =>
    if ret = -enomem then (-enomem, mm, m) else mapSection .elf .normal mm m

/-- The end of `init_mm_struct`: the page table, the stack and the section for meta data. -/
def setUpMemory (boot : Boot) (buf : PgtBuffer) (mm : MmStruct) (m : Machine β) :
    Option (ℤ × PgtBuffer × MmStruct × Machine β) :=
  (setUpPageTable boot buf mm.pageTable m.frames).bind fun (ret, buf, table, frames) =>
    let mm := { mm with pageTable := table }
    let m := { m with frames := frames }
    if ret ≠ 0 then some (ret, buf, mm, m)
    else
      (allocTaskUserStack mm m).bind fun (ret, mm, m) =>
        if ret ≠ 0 then some (ret, buf, mm, m)
        else (initTaskMetaSection mm m).map fun (ret, mm, m) => (ret, buf, mm, m)

/-- A new task that is forked from a parent: `copy_mm_section_info` for each section of a
zeroed `struct mm_struct`. -/
def forkedMm (parent : MmStruct) : MmStruct where
  pageTable := zeroedTable
  mmSection i := copyMmSectionInfo (parent.mmSection i)

/-- A task that executes a new program: `init_task_mm_section` for each section. -/
def execedMm (elfBase : ℕ) (mm : MmStruct) : MmStruct :=
  { mm with mmSection := fun i => initTaskMmSection elfBase i (mm.mmSection i) }

/-! ## Frames move from the supply to the lists -/

/-- The pages on the lists of a task, and the free frames. -/
def stock (mm : MmStruct) (s : Frames) : Multiset ℕ := (pages mm : Multiset ℕ) + s.supply

/-- Every section counts the pages on its list. -/
def MmStruct.Counted (mm : MmStruct) : Prop :=
  ∀ i, (mm.mmSection i).allocPages = (mm.mmSection i).allocMem.length

/-- Frames have moved from the supply to the lists, with the counts, or to tables. -/
structure Grown (mm mm' : MmStruct) (m m' : Machine β) : Prop where
  stock : stock mm' m'.frames ≤ stock mm m.frames
  count : mm.Counted → mm'.Counted
  released : m'.released = m.released

theorem Grown.refl (mm : MmStruct) (m : Machine β) : Grown mm mm m m :=
  ⟨le_rfl, id, rfl⟩

variable {m m' : Machine β} {mm mm' new new' parent : MmStruct} {i : SectionId} {boot : Boot}
  {buf buf' : PgtBuffer} {s : Frames} {table' : TaskPageTable} {type : MapType}

theorem Grown.trans {mm'' : MmStruct} {m'' : Machine β} (h : Grown mm mm' m m')
    (h' : Grown mm' mm'' m' m'') : Grown mm mm'' m m'' :=
  ⟨h'.stock.trans h.stock, h'.count ∘ h.count, h'.released.trans h.released⟩

theorem Grown.of_suffix (hsections : mm'.mmSection = mm.mmSection)
    (hsupply : m'.frames.supply <:+ m.frames.supply) (hreleased : m'.released = m.released) :
    Grown mm mm' m m' := by
  refine ⟨?_, ?_, hreleased⟩
  · have hpages : pages mm' = pages mm := by rw [pages, pages, hsections]
    rw [TaskMm.stock, TaskMm.stock, hpages]
    exact add_le_add_right (Multiset.coe_le.mpr hsupply.sublist.subperm) _
  · intro hcount i
    rw [hsections]
    exact hcount i

/-- The loop of `section_get_memory` moves frames to the list, one count for each. -/
theorem requestLoop_moves (count : ℕ) (sec : TaskMmSection) (m : Machine β) :
    ∃ got, (requestLoop count sec m).2.1 = { sec with
        allocMem := sec.allocMem ++ got, allocPages := sec.allocPages + got.length } ∧
      m.frames.supply = got ++ (requestLoop count sec m).2.2.frames.supply ∧
      (requestLoop count sec m).2.2.released = m.released ∧ got.length ≤ count ∧
      ((requestLoop count sec m).1 = 0 → got.length = count) ∧
      (count ≤ m.frames.supply.length → (requestLoop count sec m).1 = 0) := by
  induction count generalizing sec m with
  | zero => exact ⟨[], by simp [requestLoop]⟩
  | succ count ih =>
    cases hreq : requestPage m.frames with
    | none =>
      have hempty : m.frames.supply = [] := by
        unfold requestPage at hreq
        split at hreq
        · assumption
        · cases hreq
      refine ⟨[], ?_⟩
      simp [requestLoop, hreq, hempty, enomem]
    | some res =>
      obtain ⟨page, frames⟩ := res
      obtain ⟨hsupply, -⟩ := requestPage_eq_some hreq
      obtain ⟨got, hsec, hrest, hreleased, hlen, hfull, hret⟩ := ih
        { sec with allocMem := sec.allocMem ++ [page], allocPages := sec.allocPages + 1 }
        { m with frames := frames }
      simp only [requestLoop, hreq]
      refine ⟨page :: got, ?_, ?_, hreleased, Nat.succ_le_succ hlen, ?_, ?_⟩
      · rw [hsec]
        simp only [append_assoc, singleton_append, length_cons, Nat.cast_add,
          Nat.cast_one, add_assoc, add_comm (1 : ℤ)]
      · rw [hsupply, cons_append, ← hrest]
      · exact fun hzero => congrArg Nat.succ (hfull hzero)
      · intro hle
        rw [hsupply, length_cons] at hle
        exact hret (Nat.le_of_succ_le_succ hle)

/-- What a call of `section_get_memory` with a count that is not negative does. -/
structure GotMemory (i : SectionId) (count ret : ℤ) (mm mm' : MmStruct) (m m' : Machine β) :
    Prop where
  grown : Grown mm mm' m m'
  draws : Draws count.toNat m.frames m'.frames mm.pageTable mm'.pageTable
  others : ∀ j ≠ i, mm'.mmSection j = mm.mmSection j
  base : (mm'.mmSection i).baseAddr = (mm.mmSection i).baseAddr
  full : ret = 0 → (mm'.mmSection i).allocPages = (mm.mmSection i).allocPages + count
  enough : count.toNat ≤ m.frames.supply.length → ret = 0

/-- A section with the frames that were taken for it. -/
theorem grown_setSection (i : SectionId) (mm : MmStruct) {got : List ℕ}
    (hsupply : m.frames.supply = got ++ m'.frames.supply) (hreleased : m'.released = m.released) :
    Grown mm (mm.setSection i { mm.mmSection i with
      allocMem := (mm.mmSection i).allocMem ++ got
      allocPages := (mm.mmSection i).allocPages + got.length }) m m' := by
  refine ⟨?_, fun hcount j => ?_, hreleased⟩
  · have hperm : (pages (mm.setSection i { mm.mmSection i with
        allocMem := (mm.mmSection i).allocMem ++ got
        allocPages := (mm.mmSection i).allocPages + got.length })).Perm (pages mm ++ got) :=
      pages_update_perm mm i rfl
    rw [TaskMm.stock, TaskMm.stock, Multiset.coe_eq_coe.mpr hperm, hsupply, ← Multiset.coe_add,
      ← Multiset.coe_add, add_assoc]
  · by_cases hj : j = i
    · subst hj
      simp only [MmStruct.setSection, update_self, hcount j, length_append]
      push_cast
      rfl
    · simp only [MmStruct.setSection, update_of_ne hj, hcount j]

variable {ret : ℤ} {n : ℕ}

/-- A count that is not negative moves frames to the list of the section. -/
theorem getMemory_spec {count : ℤ} (hcount : 0 ≤ count)
    (h : getMemory i count mm m = some (ret, mm', m')) : GotMemory i count ret mm mm' m m' := by
  obtain ⟨⟨ret', sec, m₁⟩, hget, heq⟩ := map_eq_some_iff.mp h
  simp only [Prod.mk.injEq] at heq
  obtain ⟨rfl, rfl, rfl⟩ := heq
  have hloop : requestLoop count.toNat (mm.mmSection i) m = (ret', sec, m₁) := by
    unfold sectionGetMemory at hget
    split_ifs at hget with hzero hpos
    · rw [hzero]
      exact some.inj hget
    · exact some.inj hget
    · omega
  obtain ⟨got, hsec, hsupply, hreleased, hlen, hfull, henough⟩ :=
    requestLoop_moves count.toNat (mm.mmSection i) m
  rw [hloop] at hsec hsupply hreleased hfull henough
  simp only at hsec hsupply hreleased hfull henough
  subst hsec
  refine ⟨grown_setSection i mm hsupply hreleased, ⟨?_, ?_, fun _ => Or.inl, id⟩, ?_, ?_, ?_,
    henough⟩
  · rw [hsupply]
    exact suffix_append _ _
  · rw [hsupply, length_append]
    omega
  · exact fun j hj => update_of_ne hj _ _
  · simp only [MmStruct.setSection, update_self]
  · intro hret
    simp only [MmStruct.setSection, update_self, hfull hret]
    omega

theorem mapSection_draws (i : SectionId) (type : MapType) (mm : MmStruct) (m : Machine β) :
    Draws (mm.mmSection i).allocMem.length m.frames (mapSection i type mm m).2.2.frames
      mm.pageTable (mapSection i type mm m).2.1.pageTable :=
  pgtMapTaskMemory_draws _ _ _ _ _

theorem mapSection_grown (i : SectionId) (type : MapType) (mm : MmStruct) (m : Machine β) :
    Grown mm (mapSection i type mm m).2.1 m (mapSection i type mm m).2.2 :=
  Grown.of_suffix rfl (mapSection_draws i type mm m).supply rfl

theorem allocTaskUserStack_grown (hpages : (mm.mmSection .stack).allocPages ≤ 4)
    (h : allocTaskUserStack mm m = some (ret, mm', m')) :
    Grown mm mm' m m' ∧ mm'.mmSection .elf = mm.mmSection .elf := by
  obtain ⟨⟨ret₁, mm₁, m₁⟩, hget, heq⟩ := map_eq_some_iff.mp h
  have hgot := getMemory_spec (by omega) hget
  have helf := hgot.others .elf nofun
  simp only at heq
  split_ifs at heq
  · cases heq
    exact ⟨hgot.grown, helf⟩
  · have hmap := mapSection_grown .stack .stack mm₁ m₁
    have hsections : (mapSection .stack .stack mm₁ m₁).2.1.mmSection = mm₁.mmSection := rfl
    rw [heq] at hmap hsections
    exact ⟨hgot.grown.trans hmap, (congrFun hsections _).trans helf⟩

theorem initTaskMetaSection_grown (h : initTaskMetaSection mm m = some (ret, mm', m')) :
    Grown mm mm' m m' ∧ mm'.mmSection .elf = mm.mmSection .elf := by
  unfold initTaskMetaSection at h
  split_ifs at h
  · obtain ⟨⟨ret₁, mm₁, m₁⟩, hget, heq⟩ := map_eq_some_iff.mp h
    have hgot := getMemory_spec (by decide) hget
    have helf := hgot.others .elf nofun
    by_cases hret : ret₁ = 0
    · simp only [hret, ne_eq, not_true_eq_false, if_false] at heq
      cases heq
      exact ⟨hgot.grown.trans (mapSection_grown .metaData .normal mm₁ m₁), helf⟩
    · simp only [hret, ne_eq, not_false_eq_true, if_true] at heq
      cases heq
      exact ⟨hgot.grown, helf⟩
  · cases h
    exact ⟨Grown.refl _ _, rfl⟩

theorem taskMmLoadElfImage_grown {size : ℤ} (hpages : (mm.mmSection .elf).allocPages ≤ pageNr size)
    (h : taskMmLoadElfImage size mm m = some (ret, mm', m')) : Grown mm mm' m m' := by
  obtain ⟨⟨ret₁, mm₁, m₁⟩, hget, heq⟩ := map_eq_some_iff.mp h
  have hgot := getMemory_spec (by omega) hget
  simp only at heq
  split_ifs at heq
  · cases heq
    exact hgot.grown
  · have hmap := mapSection_grown .elf .normal mm₁ m₁
    rw [heq] at hmap
    exact hgot.grown.trans hmap

theorem mmuCopyKernelPde_supply (bootPde base : ℕ) (s : Frames) :
    (mmuCopyKernelPde bootPde base s).supply = s.supply := by
  unfold mmuCopyKernelPde
  split_ifs <;> rfl

/-- A page table takes at most two frames. -/
theorem setUpPageTable_supply {table : TaskPageTable} {s' : Frames}
    (h : setUpPageTable boot buf table s = some (ret, buf', table', s')) :
    s'.supply <:+ s.supply ∧ s.supply.length ≤ s'.supply.length + 2 := by
  obtain ⟨⟨ret₁, buf₁, table₁⟩, -, heq⟩ := map_eq_some_iff.mp h
  have hpde : pdeRequests buf table ≤ 1 := by
    unfold pdeRequests
    split_ifs <;> decide
  have htbuf : tbufRequests buf table s ≤ 1 := by
    unfold tbufRequests
    split_ifs <;> decide
  have hsupply : s'.supply = s.supply.drop (pdeRequests buf table + tbufRequests buf table s) := by
    simp only at heq
    split_ifs at heq
    · simp only [Prod.mk.injEq] at heq
      rw [← heq.2.2.2]
    · simp only [Prod.mk.injEq] at heq
      rw [← heq.2.2.2]
      exact mmuCopyKernelPde_supply _ _ _
  rw [hsupply, length_drop]
  exact ⟨drop_suffix _ _, by omega⟩

/-- The table of a new task has no pages to be used again. -/
theorem setUpPageTable_fresh {s' : Frames}
    (h : setUpPageTable boot buf zeroedTable s = some (0, buf', table', s')) : table'.Fresh := by
  obtain ⟨⟨ret, buf₁, table₁⟩, hinit, heq⟩ := map_eq_some_iff.mp h
  have hret : ret = 0 ∧ table₁ = table' := by
    simp only at heq
    split_ifs at heq with hne
    · exact absurd (Prod.mk.inj heq).1 hne
    · simp only [Prod.mk.injEq] at heq
      exact ⟨not_not.mp hne, heq.2.2.1⟩
  obtain ⟨rfl, rfl⟩ := hret
  have henomem : -enomem ≠ 0 := by decide
  have hzero : zeroedTable.pdeBase = 0 := rfl
  rw [initTaskPageTable, if_pos hzero] at hinit
  split at hinit
  · cases hinit
  · simp only [some.injEq, Prod.mk.injEq] at hinit
    exact absurd hinit.1 henomem
  · simp only at hinit
    split at hinit
    · obtain ⟨_, _, heq'⟩ := map_eq_some_iff.mp hinit
      exact absurd (Prod.mk.inj heq').1 henomem
    · cases hinit
      exact ⟨rfl, rfl⟩

/-- Setting up the memory moves frames to the lists when the stack has at most four pages. -/
theorem setUpMemory_grown (hpages : (mm.mmSection .stack).allocPages ≤ 4)
    (h : setUpMemory boot buf mm m = some (ret, buf', mm', m')) :
    Grown mm mm' m m' ∧ mm'.mmSection .elf = mm.mmSection .elf := by
  obtain ⟨⟨ret₁, buf₁, table₁, frames₁⟩, htable, h⟩ := bind_eq_some_iff.mp h
  obtain ⟨hsupply, -⟩ := setUpPageTable_supply htable
  have hgrown₁ : Grown mm { mm with pageTable := table₁ } m { m with frames := frames₁ } :=
    Grown.of_suffix rfl hsupply rfl
  simp only at h
  split_ifs at h
  · cases h
    exact ⟨hgrown₁, rfl⟩
  · obtain ⟨⟨ret₂, mm₂, m₂⟩, hstack, h⟩ := bind_eq_some_iff.mp h
    have hpages' : (MmStruct.mmSection { mm with pageTable := table₁ } .stack).allocPages ≤ 4 :=
      hpages
    obtain ⟨hgrown₂, helf₂⟩ := allocTaskUserStack_grown hpages' hstack
    simp only at h
    split_ifs at h
    · cases h
      exact ⟨hgrown₁.trans hgrown₂, helf₂⟩
    · obtain ⟨⟨ret₃, mm₃, m₃⟩, hmeta, heq⟩ := map_eq_some_iff.mp h
      cases heq
      obtain ⟨hgrown₃, helf₃⟩ := initTaskMetaSection_grown hmeta
      exact ⟨(hgrown₁.trans hgrown₂).trans hgrown₃, helf₃.trans helf₂⟩

/-! ## Copying the memory of the parent -/

/-- The frames that are still needed for the sections in a list. -/
def lacking (new parent : MmStruct) (ids : List SectionId) : ℕ := (ids.map (needed new parent)).sum

/-- What the loop over the sections of the child does, with enough free frames. -/
structure SectionsGot (ids : List SectionId) (parent new new' : MmStruct) (m m' : Machine β) :
    Prop where
  grown : Grown new new' m m'
  draws : Draws (lacking new parent ids) m.frames m'.frames new.pageTable new'.pageTable
  base : ∀ i, (new'.mmSection i).baseAddr = (new.mmSection i).baseAddr
  full : ∀ i ∈ ids, (new'.mmSection i).allocPages = (parent.mmSection i).allocPages
  others : ∀ i ∉ ids, new'.mmSection i = new.mmSection i

/-- With enough free frames, each section of the child gets as many pages as the parent
counts. -/
theorem allocSections_got {ids : List SectionId} (hids : ids.Nodup)
    (hle : ∀ i, (new.mmSection i).allocPages ≤ (parent.mmSection i).allocPages)
    (hlen : lacking new parent ids ≤ m.frames.supply.length)
    (h : allocSections parent ids new m = some (ret, new', m')) :
    ret = 0 ∧ SectionsGot ids parent new new' m m' := by
  induction ids generalizing new m with
  | nil =>
    simp only [allocSections] at h
    cases h
    exact ⟨rfl, Grown.refl _ _, Draws.refl _ _ _, fun _ => rfl, by simp, fun _ _ => rfl⟩
  | cons i ids ih =>
    obtain ⟨hi, hids'⟩ := nodup_cons.mp hids
    obtain ⟨⟨ret₁, sec, m₁⟩, hget, hrest⟩ := bind_eq_some_iff.mp h
    let nrPage := (parent.mmSection i).allocPages - (new.mmSection i).allocPages
    have hget' : getMemory i nrPage new m = some (ret₁, new.setSection i sec, m₁) := by
      rw [getMemory, hget]
      rfl
    have hgot := getMemory_spec (sub_nonneg.mpr (hle i)) hget'
    have hdraws : Draws (needed new parent i) m.frames m₁.frames new.pageTable
        (new.setSection i sec).pageTable := hgot.draws
    have hbound := hdraws.bound
    have hsum : lacking new parent (i :: ids) = needed new parent i + lacking new parent ids := by
      simp [lacking]
    have hret : ret₁ = 0 := hgot.enough (show needed new parent i ≤ _ by omega)
    have hfull : ((new.setSection i sec).mmSection i).allocPages =
        (parent.mmSection i).allocPages := by
      rw [hgot.full hret]
      omega
    have hle' : ∀ j, ((new.setSection i sec).mmSection j).allocPages ≤
        (parent.mmSection j).allocPages := by
      intro j
      by_cases hj : j = i
      · rw [hj, hfull]
      · rw [hgot.others j hj]
        exact hle j
    have hlacking : lacking (new.setSection i sec) parent ids = lacking new parent ids := by
      unfold lacking
      congr 1
      refine map_congr_left fun j hj => ?_
      rw [needed, needed, hgot.others j (fun heq => hi (heq ▸ hj))]
    have hne : ret₁ ≠ -enomem := by
      rw [hret]
      decide
    simp only [hne, if_false] at hrest
    obtain ⟨hzero, hrec⟩ := ih hids' hle' (by omega) hrest
    refine ⟨hzero, hgot.grown.trans hrec.grown, ?_, fun j => ?_, fun j hj => ?_, fun j hj => ?_⟩
    · rw [hsum, ← hlacking]
      exact hdraws.trans hrec.draws
    · rw [hrec.base]
      by_cases hj : j = i
      · rw [hj, hgot.base]
      · rw [hgot.others j hj]
    · rcases mem_cons.mp hj with rfl | hj
      · rw [hrec.others j hi, hfull]
      · exact hrec.full j hj
    · rw [mem_cons, not_or] at hj
      rw [hrec.others j hj.2, hgot.others j hj.1]

/-- What copying a section does besides the contents: the child gets tables. -/
structure Copies (n : ℕ) (new new' : MmStruct) (m m' : Machine β) : Prop where
  draws : Draws n m.frames m'.frames new.pageTable new'.pageTable
  sections : new'.mmSection = new.mmSection
  released : m'.released = m.released

theorem Copies.grown (h : Copies n new new' m m') : Grown new new' m m' :=
  Grown.of_suffix h.sections h.draws.supply h.released

theorem memcpyPage_frames {dst src : ℕ} (h : memcpyPage parent m dst src = some m') :
    m'.frames = m.frames ∧ m'.released = m.released := by
  obtain ⟨page, -, h⟩ := bind_eq_some_iff.mp h
  obtain ⟨b, -, rfl⟩ := map_eq_some_iff.mp h
  exact ⟨rfl, rfl⟩

/-- The loop of `copy_section_memory` takes no frames, and it ends with 0. -/
theorem copySectionLoop_supply {list : List ℕ} {count pbase : ℕ}
    (h : copySectionLoop parent type list count pbase m = some (ret, m')) :
    ret = 0 ∧ m'.frames.supply = m.frames.supply ∧ m'.released = m.released := by
  induction count generalizing pbase m with
  | zero =>
    simp only [copySectionLoop] at h
    cases h
    exact ⟨rfl, rfl, rfl⟩
  | succ count ih =>
    obtain ⟨page, -, h⟩ := bind_eq_some_iff.mp h
    have hbase : kernelTempBufferBase ≠ 0 := by decide
    simp only [pgtMapTempPage, hbase, if_false] at h
    obtain ⟨m₁, hcopy, h⟩ := bind_eq_some_iff.mp h
    obtain ⟨hframes, hreleased⟩ := memcpyPage_frames hcopy
    obtain ⟨hret, hsupply', hreleased'⟩ := ih h
    rw [hframes] at hsupply'
    exact ⟨hret, hsupply', hreleased'.trans hreleased⟩

/-- With enough free frames for tables, copying a section succeeds. -/
theorem copyTaskMmSection_copies
    (hcount : (new.mmSection i).allocPages = (parent.mmSection i).allocPages)
    (hbase : (new.mmSection i).baseAddr ≠ 0) (hfresh : new.pageTable.Fresh)
    (hlen : (new.mmSection i).allocMem.length ≤ m.frames.supply.length)
    (h : copyTaskMmSection new parent i type m = some (ret, new', m')) :
    ret = 0 ∧ Copies (new.mmSection i).allocMem.length new new' m m' := by
  have hzero := pgtMapTaskMemory_succeeds type hbase hfresh hlen
  have hdraws := pgtMapTaskMemory_draws new.pageTable (new.mmSection i).allocMem
    (new.mmSection i).baseAddr type m.frames
  simp only [copyTaskMmSection, hzero, ne_eq, not_true_eq_false, if_false] at h
  obtain ⟨⟨ret₁, m₁⟩, hcopy, heq⟩ := map_eq_some_iff.mp h
  cases heq
  simp only [copySectionMemory, hcount, ne_eq, not_true_eq_false, if_false] at hcopy
  split_ifs at hcopy
  obtain ⟨hret, hsupply, hreleased⟩ := copySectionLoop_supply hcopy
  refine ⟨hret, ⟨?_, ?_, hdraws.tables, hdraws.fresh⟩, rfl, hreleased⟩
  · rw [hsupply]
    exact hdraws.supply
  · rw [hsupply]
    exact hdraws.bound

/-- With enough free frames for tables, the loop of `copy_task_mmap` succeeds. -/
theorem copyMmapLoop_copies {count : ℕ} {nl pl : List ℕ} {table : TaskPageTable}
    (hfresh : table.Fresh) (hlen : count ≤ m.frames.supply.length)
    (h : copyMmapLoop parent count nl pl table m = some (ret, table', m')) :
    ret = 0 ∧ Draws count m.frames m'.frames table table' ∧ m'.released = m.released := by
  induction count generalizing nl pl table m with
  | zero =>
    simp only [copyMmapLoop] at h
    cases h
    exact ⟨rfl, Draws.refl _ _ _, rfl⟩
  | succ count ih =>
    rcases nl with - | ⟨np, nl⟩
    · simp [copyMmapLoop] at h
    rcases pl with - | ⟨pp, pl⟩
    · simp [copyMmapLoop] at h
    · have hsupply : m.frames.supply ≠ [] := ne_nil_of_length_pos (by omega)
      have hzero := pgtMapMmapPage_succeeds np (m.frames.mapAddress pp) hfresh hsupply
      have hdraws := pgtMapMmapPage_draws table np (m.frames.mapAddress pp) m.frames
      have hbound := hdraws.bound
      have hbase : kernelTempBufferBase ≠ 0 := by decide
      simp only [copyMmapLoop, hzero, ne_eq, not_true_eq_false, if_false, pgtMapTempPage,
        hbase] at h
      obtain ⟨m₁, hcopy, h⟩ := bind_eq_some_iff.mp h
      obtain ⟨hframes, hreleased⟩ := memcpyPage_frames hcopy
      have hfirst : Draws 1 m.frames m₁.frames table
          (pgtMapMmapPage table np (m.frames.mapAddress pp) m.frames).2.1 := by
        rw [hframes]
        exact ⟨hdraws.supply, hdraws.bound, hdraws.tables, hdraws.fresh⟩
      have hbound' := hfirst.bound
      obtain ⟨hret, hrest, hreleased'⟩ := ih (hdraws.fresh hfresh) (by omega) h
      rw [Nat.add_comm]
      exact ⟨hret, hfirst.trans hrest, hreleased'.trans hreleased⟩

/-- With enough free frames for tables, copying the pages of `mmap` succeeds. -/
theorem copyTaskMmap_copies (hnew : new.Counted)
    (hcount : (new.mmSection .mmap).allocPages = (parent.mmSection .mmap).allocPages)
    (hfresh : new.pageTable.Fresh)
    (hlen : (new.mmSection .mmap).allocMem.length ≤ m.frames.supply.length)
    (h : copyTaskMmap new parent m = some (ret, new', m')) :
    ret = 0 ∧ Copies (new.mmSection .mmap).allocMem.length new new' m m' := by
  have htoNat : (parent.mmSection .mmap).allocPages.toNat =
      (new.mmSection .mmap).allocMem.length := by
    rw [← hcount, hnew]
    exact Int.toNat_natCast _
  simp only [copyTaskMmap, hcount, ne_eq, not_true_eq_false, if_false] at h
  split_ifs at h
  obtain ⟨⟨ret₁, table, m₁⟩, hcopy, heq⟩ := map_eq_some_iff.mp h
  cases heq
  rw [htoNat] at hcopy
  obtain ⟨hret, hdraws, hreleased⟩ := copyMmapLoop_copies hfresh hlen hcopy
  exact ⟨hret, hdraws, rfl, hreleased⟩

/-- A step of `task_mm_copy_task_memory` that cannot fail goes on with the next one. -/
theorem orFree_of_zero {res : Option (ℤ × MmStruct × Machine β)}
    {next : MmStruct → Machine β → Option (ℤ × MmStruct × Machine β)} {r : ℤ × MmStruct × Machine β}
    (h : orFree res next = some r) (hzero : ∀ ret new m, res = some (ret, new, m) → ret = 0) :
    ∃ new m, res = some (0, new, m) ∧ next new m = some r := by
  obtain ⟨⟨ret, new, m⟩, hres, hnext⟩ := bind_eq_some_iff.mp h
  obtain rfl := hzero ret new m hres
  exact ⟨new, m, hres, hnext⟩

/-- A child that can get its copy: it has at most the pages of the parent, addresses for its
sections, and the free frames suffice for the pages that it lacks and for one table with
each page. -/
structure Affords (new parent : MmStruct) (s : Frames) : Prop where
  counted : new.Counted
  fresh : new.pageTable.Fresh
  le : ∀ i, (new.mmSection i).allocPages ≤ (parent.mmSection i).allocPages
  base : ∀ i, i ≠ .mmap → (new.mmSection i).baseAddr ≠ 0
  enough : lacking new parent sectionIds + (pages parent).length ≤ s.supply.length

/-- A child with as many pages in each section as the parent, and `n` free frames for
tables. -/
structure Matching (n : ℕ) (new parent : MmStruct) (s : Frames) : Prop where
  counted : new.Counted
  fresh : new.pageTable.Fresh
  full : ∀ i, (new.mmSection i).allocPages = (parent.mmSection i).allocPages
  base : ∀ i, i ≠ .mmap → (new.mmSection i).baseAddr ≠ 0
  enough : n ≤ s.supply.length

theorem SectionsGot.matching (h : SectionsGot sectionIds parent new new' m m')
    (hnew : Affords new parent m.frames) :
    Matching (pages parent).length new' parent m'.frames := by
  have hbound := h.draws.bound
  have henough := hnew.enough
  refine ⟨h.grown.count hnew.counted, h.draws.fresh hnew.fresh,
    fun i => h.full i (mem_sectionIds i), fun i hi => ?_, by omega⟩
  rw [h.base]
  exact hnew.base i hi

theorem Matching.length_eq (h : Matching n new parent s) (hparent : parent.Counted) (i : SectionId) :
    (new.mmSection i).allocMem.length = (parent.mmSection i).allocMem.length := by
  have hcount := h.full i
  rw [h.counted, hparent] at hcount
  exact_mod_cast hcount

theorem Matching.copied {k : ℕ} (h : Matching (k + n) new parent m.frames)
    (hcopies : Copies k new new' m m') : Matching n new' parent m'.frames := by
  have henough := h.enough
  have hbound := hcopies.draws.bound
  refine ⟨hcopies.grown.count h.counted, hcopies.draws.fresh h.fresh, ?_, ?_, by omega⟩
  · rw [hcopies.sections]
    exact h.full
  · rw [hcopies.sections]
    exact h.base

theorem Matching.copySection (hparent : parent.Counted)
    (h : Matching ((parent.mmSection i).allocMem.length + n) new parent m.frames) (hi : i ≠ .mmap)
    (hcopy : copyTaskMmSection new parent i type m = some (ret, new', m')) :
    ret = 0 ∧ Grown new new' m m' ∧ Matching n new' parent m'.frames := by
  have hlength := h.length_eq hparent i
  have henough := h.enough
  obtain ⟨hret, hcopies⟩ :=
    copyTaskMmSection_copies (h.full i) (h.base i hi) h.fresh (by omega) hcopy
  rw [hlength] at hcopies
  exact ⟨hret, hcopies.grown, h.copied hcopies⟩

/-- The pages of `mmap` get their copy. -/
theorem Matching.copyMmap (hparent : parent.Counted)
    (h : Matching ((parent.mmSection .mmap).allocMem.length + n) new parent m.frames)
    (hcopy : copyTaskMmap new parent m = some (ret, new', m')) :
    ret = 0 ∧ Grown new new' m m' ∧ Matching n new' parent m'.frames := by
  have hlength := h.length_eq hparent .mmap
  have henough := h.enough
  obtain ⟨hret, hcopies⟩ := copyTaskMmap_copies h.counted (h.full _) h.fresh (by omega) hcopy
  rw [hlength] at hcopies
  exact ⟨hret, hcopies.grown, h.copied hcopies⟩

/-- With enough free frames the copy for a child succeeds, and frames have moved to the
lists of the child. -/
theorem taskMmCopyTaskMemory_grown (hparent : parent.Counted) (hnew : Affords new parent m.frames)
    (h : taskMmCopyTaskMemory new parent m = some (ret, new', m')) :
    ret = 0 ∧ Grown new new' m m' := by
  have hids : sectionIds.Nodup := by decide
  have hlen := hnew.enough
  have hsum : (pages parent).length = (parent.mmSection .metaData).allocMem.length +
      ((parent.mmSection .stack).allocMem.length + ((parent.mmSection .mmap).allocMem.length +
        ((parent.mmSection .elf).allocMem.length + 0))) := by
    simp only [pages, sectionIds, flatMap_cons, flatMap_nil, length_append, length_nil]
    omega
  obtain ⟨new₁, m₁, halloc, h⟩ := orFree_of_zero h fun _ _ _ hres =>
    (allocSections_got hids hnew.le (by omega) hres).1
  obtain ⟨-, hgot⟩ := allocSections_got hids hnew.le (by omega) halloc
  have hmatch₁ := hgot.matching hnew
  rw [hsum] at hmatch₁
  obtain ⟨new₂, m₂, hmeta, h⟩ := orFree_of_zero h fun _ _ _ hres =>
    (hmatch₁.copySection hparent (by decide) hres).1
  obtain ⟨-, hgrown₂, hmatch₂⟩ := hmatch₁.copySection hparent (by decide) hmeta
  obtain ⟨new₃, m₃, hstack, h⟩ := orFree_of_zero h fun _ _ _ hres =>
    (hmatch₂.copySection hparent (by decide) hres).1
  obtain ⟨-, hgrown₃, hmatch₃⟩ := hmatch₂.copySection hparent (by decide) hstack
  obtain ⟨new₄, m₄, hmmap, h⟩ := orFree_of_zero h fun _ _ _ hres =>
    (hmatch₃.copyMmap hparent hres).1
  obtain ⟨-, hgrown₄, hmatch₄⟩ := hmatch₃.copyMmap hparent hmmap
  obtain ⟨new₅, m₅, helf, h⟩ := orFree_of_zero h fun _ _ _ hres =>
    (hmatch₄.copySection hparent (by decide) hres).1
  obtain ⟨-, hgrown₅, -⟩ := hmatch₄.copySection hparent (by decide) helf
  cases h
  exact ⟨rfl, ((((hgot.grown.trans hgrown₂).trans hgrown₃).trans hgrown₄).trans hgrown₅)⟩

/-! ## The memory of a forked task -/

/-- A section of a new task has got `n` pages, each of them with at most one table. -/
structure SectionUp (i : SectionId) (n : ℕ) (mm mm' : MmStruct) (m m' : Machine β) : Prop where
  grown : Grown mm mm' m m'
  draws : Draws (2 * n) m.frames m'.frames mm.pageTable mm'.pageTable
  full : (mm'.mmSection i).allocPages = n
  base : ∀ j, (mm'.mmSection j).baseAddr = (mm.mmSection j).baseAddr
  others : ∀ j ≠ i, mm'.mmSection j = mm.mmSection j

/-- A section without pages gets `n` of them, and they are mapped. -/
theorem GotMemory.sectionUp {mm₁ : MmStruct} {m₁ : Machine β} (h : GotMemory i n 0 mm mm₁ m m₁)
    (hcounted : mm.Counted) (hzero : (mm.mmSection i).allocPages = 0) (type : MapType) :
    SectionUp i n mm (mapSection i type mm₁ m₁).2.1 m (mapSection i type mm₁ m₁).2.2 := by
  have hfull : (mm₁.mmSection i).allocPages = n := by
    rw [h.full rfl, hzero, zero_add]
  have hlength : (mm₁.mmSection i).allocMem.length = n := by
    rw [h.grown.count hcounted] at hfull
    exact_mod_cast hfull
  have hdraws := h.draws.trans (mapSection_draws i type mm₁ m₁)
  rw [hlength, Int.toNat_natCast, ← two_mul] at hdraws
  refine ⟨h.grown.trans (mapSection_grown i type mm₁ m₁), hdraws, hfull, fun j => ?_, h.others⟩
  by_cases hj : j = i
  · rw [hj]
    exact h.base
  · exact congrArg _ (h.others j hj)

theorem allocTaskUserStack_zero (hcounted : mm.Counted)
    (hzero : (mm.mmSection .stack).allocPages = 0) (h : allocTaskUserStack mm m = some (0, mm', m')) :
    SectionUp .stack 4 mm mm' m m' := by
  obtain ⟨⟨ret, mm₁, m₁⟩, hget, heq⟩ := map_eq_some_iff.mp h
  rw [hzero] at hget
  have hgot := getMemory_spec (by decide) hget
  by_cases hret : ret = 0
  · simp only [hret, ne_eq, not_true_eq_false, if_false] at heq
    rw [hret] at hgot
    have hup : SectionUp .stack 4 mm (mapSection .stack .stack mm₁ m₁).2.1 m
        (mapSection .stack .stack mm₁ m₁).2.2 := hgot.sectionUp hcounted hzero .stack
    rwa [heq] at hup
  · simp only [hret, ne_eq, not_false_eq_true, if_true, Prod.mk.injEq] at heq
    exact heq.1.elim

theorem initTaskMetaSection_zero (hcounted : mm.Counted)
    (hzero : (mm.mmSection .metaData).allocPages = 0)
    (h : initTaskMetaSection mm m = some (0, mm', m')) : SectionUp .metaData 1 mm mm' m m' := by
  rw [initTaskMetaSection, if_pos hzero] at h
  obtain ⟨⟨ret, mm₁, m₁⟩, hget, heq⟩ := map_eq_some_iff.mp h
  have hgot := getMemory_spec (by decide) hget
  by_cases hret : ret = 0
  · simp only [hret, ne_eq, not_true_eq_false, if_false, Prod.mk.injEq] at heq
    obtain ⟨-, rfl, rfl⟩ := heq
    rw [hret] at hgot
    exact hgot.sectionUp hcounted hzero .normal
  · have henomem : -enomem ≠ 0 := by decide
    simp only [hret, ne_eq, not_false_eq_true, if_true, Prod.mk.injEq] at heq
    exact absurd heq.1 henomem

/-- A parent that can be forked: it has the pages that every new task gets, addresses for
its sections, and the free frames suffice for a copy of its pages and for tables. -/
structure Forkable (parent : MmStruct) (s : Frames) : Prop where
  stack : 4 ≤ (parent.mmSection .stack).allocPages
  metaData : 1 ≤ (parent.mmSection .metaData).allocPages
  base : ∀ i, i ≠ .mmap → (parent.mmSection i).baseAddr ≠ 0
  enough : 2 * (pages parent).length + 12 ≤ s.supply.length

theorem forkedMm_counted (parent : MmStruct) : (forkedMm parent).Counted := fun _ => rfl

theorem lacking_le (hnew : new.Counted) (hparent : parent.Counted) :
    lacking new parent sectionIds ≤ (pages parent).length := by
  have hneeded : ∀ i, needed new parent i ≤ (parent.mmSection i).allocMem.length := by
    intro i
    rw [needed, hnew i, hparent i]
    omega
  have helf := hneeded .elf
  have hstack := hneeded .stack
  have hmmap := hneeded .mmap
  have hmeta := hneeded .metaData
  simp only [lacking, pages, sectionIds, map_cons, map_nil, sum_cons,
    sum_nil, flatMap_cons, flatMap_nil, length_append, length_nil]
  omega

/-- The child of a parent that can be forked can get its copy. -/
theorem setUpMemory_affords {child : MmStruct} (hparent : parent.Counted)
    (hfork : Forkable parent m.frames)
    (h : setUpMemory boot buf (forkedMm parent) m = some (0, buf', child, m')) :
    Affords child parent m'.frames := by
  obtain ⟨⟨ret₁, buf₁, table₁, frames₁⟩, htable, h⟩ := bind_eq_some_iff.mp h
  obtain ⟨-, hbound₁⟩ := setUpPageTable_supply htable
  simp only at h
  by_cases hret₁ : ret₁ = 0
  · subst hret₁
    simp only [ne_eq, not_true_eq_false, if_false] at h
    have hfresh₁ := setUpPageTable_fresh htable
    obtain ⟨⟨ret₂, mm₂, m₂⟩, hstack, h⟩ := bind_eq_some_iff.mp h
    by_cases hret₂ : ret₂ = 0
    · subst hret₂
      simp only [not_true_eq_false, if_false] at h
      obtain ⟨⟨ret₃, mm₃, m₃⟩, hmeta, heq⟩ := map_eq_some_iff.mp h
      simp only [Prod.mk.injEq] at heq
      obtain ⟨rfl, -, rfl, rfl⟩ := heq
      have hcounted : MmStruct.Counted { forkedMm parent with pageTable := table₁ } := fun _ => rfl
      have hup₂ := allocTaskUserStack_zero hcounted rfl hstack
      have hcounted₂ := hup₂.grown.count hcounted
      have hzero : (mm₂.mmSection .metaData).allocPages = 0 := by
        rw [hup₂.others .metaData nofun]
        rfl
      have hup₃ := initTaskMetaSection_zero hcounted₂ hzero hmeta
      have hbound₂ := hup₂.draws.bound
      have hbound₃ := hup₃.draws.bound
      have hcounted₃ := hup₃.grown.count hcounted₂
      have hlacking := lacking_le hcounted₃ hparent
      have henough := hfork.enough
      refine ⟨hcounted₃, hup₃.draws.fresh (hup₂.draws.fresh hfresh₁), ?_, ?_, ?_⟩
      · intro i
        have hnonneg : 0 ≤ (parent.mmSection i).allocPages := by
          rw [hparent i]
          exact Int.natCast_nonneg _
        cases i with
        | elf =>
          rw [hup₃.others .elf nofun, hup₂.others .elf nofun]
          exact hnonneg
        | stack =>
          rw [hup₃.others .stack nofun, hup₂.full]
          exact hfork.stack
        | mmap =>
          rw [hup₃.others .mmap nofun, hup₂.others .mmap nofun]
          exact hnonneg
        | metaData =>
          rw [hup₃.full]
          exact hfork.metaData
      · intro i hi
        rw [hup₃.base, hup₂.base]
        exact hfork.base i hi
      · simp only at hbound₁ hbound₂
        omega
    · simp only [hret₂, not_false_eq_true, if_true, some.injEq, Prod.mk.injEq] at h
      exact h.1.elim
  · simp only [ne_eq, hret₁, not_false_eq_true, if_true, some.injEq, Prod.mk.injEq] at h
    exact h.1.elim

end Chunos.TaskMm
