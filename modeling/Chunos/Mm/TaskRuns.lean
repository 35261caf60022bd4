import Chunos.Lib.Listwise
import Chunos.Mm.TaskInit

/-!
# Sections of tasks in runs

Tasks that get and give back memory, map and unmap memory, fork and execute programs. Each
section has a list of pages and a count of them. `task_mm_mmap` and `task_mm_munmap` change
the list without the count, and `section_get_memory` with a negative count releases the last
page again and again without taking it from the list. In runs without such calls the counts
are right, the pages on the lists are allocated, and each of them is on one list.
-/

namespace Chunos.TaskMm

open List Option

open Bank (Section)
open Pgt Runs
open Slabs (pageNr)

variable {β : Type*}

/-- The tasks, the pool of page directories and the memory. -/
structure System (β : Type*) where
  tasks : List MmStruct
  buf : PgtBuffer
  m : Machine β

/-- What the copy from a file into a mapping does: its result and the contents of memory
afterwards. -/
structure Fill (β : Type*) where
  ret : ℤ
  data : ℕ → β
  kernelData : ℕ → β

/-- The copy as a call of `fmmap`. -/
def Fill.fmmap (fill : Fill β) : ℕ → MmStruct → Machine β → Option (ℤ × List ℕ × Machine β) :=
  fun _ _ m => some (fill.ret, [], { m with data := fill.data, kernelData := fill.kernelData })

/-- The calls of a run, with the number of the task that makes them. An `exec` is given the
address and the size of the new program. -/
inductive MmCall (β : Type*) where
  | getMemory (t : ℕ) (i : SectionId) (count : ℤ)
  | mmap (t : ℕ) (search : Option ℕ) (start : ℕ) (len fd : ℤ) (fill : Fill β)
  | munmap (t start : ℕ) (length : ℤ) (sync : Bool)
  | fork (t : ℕ)
  | exec (t elfBase : ℕ) (elfSize : ℤ)

/-- A task and the memory are replaced. -/
def System.setTask (s : System β) (t : ℕ) (mm : MmStruct) (m : Machine β) : System β :=
  { s with tasks := s.tasks.set t mm, m := m }

/-- The memory part of `do_fork`. A child whose memory cannot be set up is discarded, with
the pages that it has. The result of `task_mm_copy_task_memory` is not looked at. -/
def System.fork (boot : Boot) (s : System β) (parent : MmStruct) : Option (System β) :=
  (setUpMemory boot s.buf (forkedMm parent) s.m).bind fun (ret, buf, child, m) =>
    if ret ≠ 0 then some { s with buf := buf, m := m }
    else
      (taskMmCopyTaskMemory child parent m).map fun (_, child, m) =>
        { tasks := s.tasks ++ [child], buf := buf, m := m }

/-- The memory part of `do_exec` for a user task. The result of `init_mm_struct` is not
looked at. -/
def System.exec (boot : Boot) (s : System β) (t : ℕ) (mm : MmStruct) (elfBase : ℕ)
    (elfSize : ℤ) : Option (System β) :=
  (setUpMemory boot s.buf (execedMm elfBase mm) s.m).bind fun (_, buf, mm, m) =>
    (taskMmLoadElfImage elfSize mm m).map fun (_, mm, m) =>
      { s.setTask t mm m with buf := buf }

/-- One call. -/
def System.step (secs : List Section) (boot : Boot) (c : MmCall β) (s : System β) :
    Option (System β) :=
  match c with
  | .getMemory t i count =>
    s.tasks[t]?.bind fun mm =>
      (TaskMm.getMemory i count mm s.m).map fun (_, mm, m) => s.setTask t mm m
  | .mmap t search start len fd fill =>
    s.tasks[t]?.bind fun mm =>
      (taskMmMmap search fill.fmmap mm start len fd s.m).map fun r => s.setTask t r.mm r.m
  | .munmap t start length sync =>
    s.tasks[t]?.bind fun mm =>
      (taskMmMunmap secs mm start length sync s.m).map fun (_, mm, m) => s.setTask t mm m
  | .fork t => s.tasks[t]?.bind fun mm => s.fork boot mm
  | .exec t elfBase elfSize => s.tasks[t]?.bind fun mm => s.exec boot t mm elfBase elfSize

/-- Every section counts its pages, its pages are allocated, and none of them is on another
list. -/
structure SectionsOk (s : System β) : Prop where
  count : ∀ (t : ℕ) mm, s.tasks[t]? = some mm → mm.Counted
  allocated : ∀ (t : ℕ) mm i, s.tasks[t]? = some mm → ∀ page ∈ (mm.mmSection i).allocMem,
    page ∉ s.m.frames.supply ∧ page ∉ s.m.released
  apart : ∀ (t t' : ℕ) mm mm' i i', s.tasks[t]? = some mm → s.tasks[t']? = some mm' →
    ∀ page ∈ (mm.mmSection i).allocMem, page ∈ (mm'.mmSection i').allocMem → t = t' ∧ i = i'

/-- `section_get_memory` with the count `-k` takes `k` distinct pages from the list and
releases them. -/
def Shrinks (k : ℕ) (sec : TaskMmSection) (m : Machine β) : Prop :=
  ∃ ret sec' m' removed, sectionGetMemory (-k) sec m = some (ret, sec', m') ∧
    removed.length = k ∧ removed.Nodup ∧ sec.allocMem.Perm (sec'.allocMem ++ removed) ∧
    sec'.allocPages = sec.allocPages - k ∧ m'.released.Perm (m.released ++ removed)

/-- The calls that keep the sections in order: counts are not negative, mappings take no
page, unmapped ranges have no tables, a parent can be forked, and a new program needs at
least the pages that are there. -/
def System.Legal (c : MmCall β) (s : System β) : Prop :=
  match c with
  | .getMemory _ _ count => 0 ≤ count
  | .mmap t search start len _ _ => ∀ mm ∈ s.tasks[t]?, TakesNothing search mm start len s.m
  | .munmap t start length _ => ∀ mm ∈ s.tasks[t]?, ∀ k < (pageNr length).toNat,
      pdeEntryToPa (s.m.frames.word
        (pgtGetPdeEntryAddr mm.pageTable.pdeBase (nextPage^[k] start))) = 0
  | .fork t => ∀ mm ∈ s.tasks[t]?, Forkable mm s.m.frames
  | .exec t _ elfSize => ∀ mm ∈ s.tasks[t]?, (mm.mmSection .stack).allocPages ≤ 4 ∧
      (mm.mmSection .elf).allocPages ≤ pageNr elfSize

instance (parent : MmStruct) (s : Frames) : Decidable (Forkable parent s) :=
  decidable_of_iff
    (4 ≤ (parent.mmSection .stack).allocPages ∧ 1 ≤ (parent.mmSection .metaData).allocPages ∧
      (∀ i ∈ sectionIds, i ≠ .mmap → (parent.mmSection i).baseAddr ≠ 0) ∧
      2 * (pages parent).length + 12 ≤ s.supply.length)
    ⟨fun h => ⟨h.1, h.2.1, fun i => h.2.2.1 i (mem_sectionIds i), h.2.2.2⟩,
      fun h => ⟨h.stack, h.metaData, fun i _ => h.base i, h.enough⟩⟩

instance (c : MmCall β) (s : System β) : Decidable (System.Legal c s) :=
  match c with
  | .getMemory .. => inferInstanceAs (Decidable (0 ≤ _))
  | .munmap .. => inferInstanceAs (Decidable (∀ mm ∈ _, ∀ k < _, _))
  | .mmap .. | .fork .. | .exec .. => inferInstanceAs (Decidable (∀ mm ∈ _, _))

/-- The pages on the lists of all tasks, and the free frames. -/
def System.stock (s : System β) : Multiset ℕ :=
  (s.tasks.flatMap pages : Multiset ℕ) + s.m.frames.supply

/-- The state of a run: the counts are right, and pages on lists and free frames are
distinct and have not been released. -/
structure System.Ok (s : System β) : Prop where
  counted : ∀ mm ∈ s.tasks, mm.Counted
  nodup : s.stock.Nodup
  kept : ∀ page ∈ s.stock, page ∉ s.m.released

variable {mm parent : MmStruct} {s s' : System β} {m' m : Machine β} {boot : Boot}

variable {t start : ℕ}

/-- The pages of one task among those of all tasks, before and after it is replaced. -/
theorem System.stock_setTask (hmm : s.tasks[t]? = some mm) (mm' : MmStruct) (m' : Machine β) :
    ∃ rest : Multiset ℕ, s.stock = rest + TaskMm.stock mm s.m.frames ∧
      (s.setTask t mm' m').stock = rest + TaskMm.stock mm' m'.frames := by
  obtain ⟨hlt, hget⟩ := List.getElem?_eq_some_iff.mp hmm
  obtain ⟨l₁, l₂, hsplit, -, hset⟩ :
      ∃ l₁ l₂, s.tasks = l₁ ++ s.tasks[t] :: l₂ ∧ l₁.length = t ∧
        s.tasks.set t mm' = l₁ ++ mm' :: l₂ := exists_of_set hlt
  rw [hget] at hsplit
  refine ⟨((l₁.flatMap pages ++ l₂.flatMap pages : List ℕ) : Multiset ℕ), ?_, ?_⟩
  · rw [stock, hsplit, TaskMm.stock]
    simp only [flatMap_append, flatMap_cons, ← Multiset.coe_add]
    abel
  · rw [stock, setTask, hset, TaskMm.stock]
    simp only [flatMap_append, flatMap_cons, ← Multiset.coe_add]
    abel

theorem System.Ok.setTask (h : s.Ok) {mm' : MmStruct} (hmm : s.tasks[t]? = some mm)
    (hgrown : Grown mm mm' s.m m') : (s.setTask t mm' m').Ok := by
  obtain ⟨rest, hbefore, hafter⟩ := System.stock_setTask hmm mm' m'
  have hle : (s.setTask t mm' m').stock ≤ s.stock := by
    rw [hbefore, hafter]
    exact add_le_add_right hgrown.stock _
  refine ⟨fun mm₁ hmem => ?_, Multiset.nodup_of_le hle h.nodup, fun page hpage => ?_⟩
  · rcases mem_or_eq_of_mem_set hmem with hmem | rfl
    · exact h.counted mm₁ hmem
    · exact hgrown.count (h.counted mm (mem_of_getElem? hmm))
  · change page ∉ m'.released
    rw [hgrown.released]
    exact h.kept page (Multiset.mem_of_le hle hpage)

/-- A new task whose lists have grown from the supply. -/
theorem System.Ok.addTask (h : s.Ok) {child : MmStruct} (buf : PgtBuffer)
    (hgrown : Grown (forkedMm parent) child s.m m') :
    System.Ok { tasks := s.tasks ++ [child], buf := buf, m := m' } := by
  have hempty : pages (forkedMm parent) = [] := rfl
  have hle : System.stock { tasks := s.tasks ++ [child], buf := buf, m := m' } ≤ s.stock := by
    have hstock := hgrown.stock
    simp only [TaskMm.stock, hempty, Multiset.coe_nil, zero_add] at hstock
    simp only [System.stock, flatMap_append, flatMap_singleton, ← Multiset.coe_add, add_assoc]
    exact add_le_add_right hstock _
  refine ⟨fun mm hmem => ?_, Multiset.nodup_of_le hle h.nodup, fun page hpage => ?_⟩
  · rcases mem_append.mp hmem with hmem | hmem
    · exact h.counted mm hmem
    · obtain rfl := mem_singleton.mp hmem
      exact hgrown.count (forkedMm_counted parent)
  · change page ∉ m'.released
    rw [hgrown.released]
    exact h.kept page (Multiset.mem_of_le hle hpage)

theorem System.Ok.drop (h : s.Ok) {child : MmStruct} (buf : PgtBuffer)
    (hgrown : Grown (forkedMm parent) child s.m m') : System.Ok { s with buf := buf, m := m' } := by
  have hadd := h.addTask buf hgrown
  have hle : System.stock { s with buf := buf, m := m' } ≤
      System.stock { tasks := s.tasks ++ [child], buf := buf, m := m' } := by
    simp only [System.stock, flatMap_append, ← Multiset.coe_add]
    exact add_le_add_left (Multiset.le_add_right _ _) _
  exact ⟨h.counted, Multiset.nodup_of_le hle hadd.nodup,
    fun page hpage => hadd.kept page (Multiset.mem_of_le hle hpage)⟩

theorem munmapLoop_of_unmapped (secs : List Section) {nr : ℕ}
    (h : ∀ k < nr, pdeEntryToPa (m.frames.word
      (pgtGetPdeEntryAddr mm.pageTable.pdeBase (nextPage^[k] start))) = 0) :
    munmapLoop secs nr start mm m = some (mm, m) := by
  induction nr generalizing start with
  | zero => rfl
  | succ nr ih =>
    have hfirst := h 0 (Nat.succ_pos nr)
    simp only [Function.iterate_zero, id_eq] at hfirst
    simp only [munmapLoop, pgtUnmapMmapPage, hfirst, if_true]
    exact ih fun k hk => h (k + 1) (Nat.succ_lt_succ hk)

theorem taskMmMmap_grown {search : Option ℕ} {fill : Fill β} {len fd : ℤ} {r : Mmapped β}
    (h : TakesNothing search mm start len m)
    (hr : taskMmMmap search fill.fmmap mm start len fd m = some r) : Grown mm r.mm m r.m := by
  obtain ⟨hmm, hfile, -⟩ := taskMmMmap_of_takesNothing h hr
  rw [hmm]
  rcases hfile with hm | ⟨-, ua, ret, written, hcopy⟩
  · rw [hm]
    exact Grown.refl _ _
  · simp only [Fill.fmmap, some.injEq, Prod.mk.injEq] at hcopy
    rw [← hcopy.2.2]
    exact Grown.of_suffix rfl suffix_rfl rfl

theorem execedMm_grown (elfBase : ℕ) (hcounted : mm.Counted) (m : Machine β) :
    Grown mm (execedMm elfBase mm) m m := by
  have hmem : ∀ i, ((execedMm elfBase mm).mmSection i).allocMem = (mm.mmSection i).allocMem := by
    intro i
    simp only [execedMm, initTaskMmSection]
    split_ifs with hzero
    · rw [hcounted i] at hzero
      exact (eq_nil_of_length_eq_zero (by exact_mod_cast hzero)).symm
    · rfl
  have hpages : pages (execedMm elfBase mm) = pages mm := by simp only [pages, hmem]
  refine ⟨?_, fun _ i => ?_, rfl⟩
  · rw [TaskMm.stock, TaskMm.stock, hpages]
  · rw [hmem]
    exact hcounted i

/-- A fork of a parent that can be forked keeps the sections in order. -/
theorem System.Ok.fork (h : s.Ok) (hmem : parent ∈ s.tasks) (hfork : Forkable parent s.m.frames)
    (hstep : s.fork boot parent = some s') : s'.Ok := by
  have hcounted := h.counted parent hmem
  have hstack : ((forkedMm parent).mmSection .stack).allocPages ≤ 4 := by
    change (0 : ℤ) ≤ 4
    decide
  obtain ⟨⟨ret, buf, child, m₁⟩, hsetup, hrest⟩ := bind_eq_some_iff.mp hstep
  obtain ⟨hgrown, -⟩ := setUpMemory_grown hstack hsetup
  by_cases hret : ret = 0
  · subst hret
    simp only [ne_eq, not_true_eq_false, if_false] at hrest
    obtain ⟨⟨ret', child', m₂⟩, hcopy, rfl⟩ := map_eq_some_iff.mp hrest
    have haffords := setUpMemory_affords hcounted hfork hsetup
    obtain ⟨-, hcopied⟩ := taskMmCopyTaskMemory_grown hcounted haffords hcopy
    exact h.addTask buf (hgrown.trans hcopied)
  · simp only [ne_eq, hret, not_false_eq_true, if_true, some.injEq] at hrest
    obtain rfl := hrest
    exact h.drop buf hgrown

/-- A program that needs at least the pages of its task keeps the sections in order. -/
theorem System.Ok.exec (h : s.Ok) {elfBase : ℕ} {elfSize : ℤ} (hmm : s.tasks[t]? = some mm)
    (hstack : (mm.mmSection .stack).allocPages ≤ 4)
    (helf : (mm.mmSection .elf).allocPages ≤ pageNr elfSize)
    (hstep : s.exec boot t mm elfBase elfSize = some s') : s'.Ok := by
  have hcounted := h.counted mm (mem_of_getElem? hmm)
  obtain ⟨⟨ret, buf, mm₁, m₁⟩, hsetup, hrest⟩ := bind_eq_some_iff.mp hstep
  obtain ⟨⟨ret', mm₂, m₂⟩, hload, rfl⟩ := map_eq_some_iff.mp hrest
  have hstack' : ((execedMm elfBase mm).mmSection .stack).allocPages ≤ 4 := hstack
  obtain ⟨hgrown, hsection⟩ := setUpMemory_grown hstack' hsetup
  have helf' : (mm₁.mmSection .elf).allocPages ≤ pageNr elfSize := by
    rw [hsection]
    exact helf
  obtain ⟨hcount, hnodup, hkept⟩ := h.setTask hmm (((execedMm_grown elfBase hcounted s.m).trans
    hgrown).trans (taskMmLoadElfImage_grown helf' hload))
  exact ⟨hcount, hnodup, hkept⟩

/-- A call that keeps the sections in order. -/
theorem System.Ok.step {secs : List Section} {c : MmCall β} (h : s.Ok) (hlegal : System.Legal c s)
    (hstep : System.step secs boot c s = some s') : s'.Ok := by
  cases c with
  | getMemory t i count =>
    obtain ⟨mm, hmm, hstep⟩ := bind_eq_some_iff.mp hstep
    obtain ⟨⟨ret, mm', m'⟩, hget, rfl⟩ := map_eq_some_iff.mp hstep
    exact h.setTask hmm (getMemory_spec hlegal hget).grown
  | mmap t search start len fd fill =>
    obtain ⟨mm, hmm, hstep⟩ := bind_eq_some_iff.mp hstep
    obtain ⟨r, hmap, rfl⟩ := map_eq_some_iff.mp hstep
    exact h.setTask hmm (taskMmMmap_grown (hlegal mm hmm) hmap)
  | munmap t start length sync =>
    obtain ⟨mm, hmm, hstep⟩ := bind_eq_some_iff.mp hstep
    obtain ⟨⟨ret, mm', m'⟩, hunmap, rfl⟩ := map_eq_some_iff.mp hstep
    simp only [taskMmMunmap, munmapLoop_of_unmapped secs (hlegal mm hmm), map_some] at hunmap
    obtain ⟨rfl, rfl⟩ : mm' = mm ∧ m' = s.m := by
      split_ifs at hunmap
      · obtain ⟨page, -, hpage⟩ := bind_eq_some_iff.mp hunmap
        cases page <;> cases hpage <;> exact ⟨rfl, rfl⟩
      · cases hunmap
        exact ⟨rfl, rfl⟩
    exact h.setTask hmm (Grown.refl _ _)
  | fork t =>
    obtain ⟨mm, hmm, hstep⟩ := bind_eq_some_iff.mp hstep
    exact h.fork (mem_of_getElem? hmm) (hlegal mm hmm) hstep
  | exec t elfBase elfSize =>
    obtain ⟨mm, hmm, hstep⟩ := bind_eq_some_iff.mp hstep
    obtain ⟨hstack, helf⟩ := hlegal mm hmm
    exact h.exec hmm hstack helf hstep

/-- In such a state the sections are in order. -/
theorem System.Ok.sectionsOk (h : s.Ok) : SectionsOk s := by
  have hnodup := h.nodup
  rw [System.stock, Multiset.coe_add, Multiset.coe_nodup, nodup_append'] at hnodup
  obtain ⟨hpages, -, hfree⟩ := hnodup
  have hmem : ∀ {t : ℕ} {mm : MmStruct} {i : SectionId} {page : ℕ}, s.tasks[t]? = some mm →
      page ∈ (mm.mmSection i).allocMem → page ∈ s.tasks.flatMap pages := fun hmm hpage =>
    mem_flatMap.mpr ⟨_, mem_of_getElem? hmm, mem_pages hpage⟩
  constructor
  · exact fun t mm hmm => h.counted mm (mem_of_getElem? hmm)
  · intro t mm i hmm page hpage
    have hlisted := hmem hmm hpage
    refine ⟨fun hsupply => hfree hlisted hsupply, h.kept page ?_⟩
    rw [System.stock, Multiset.coe_add]
    exact mem_append_left _ hlisted
  · intro t t' mm mm' i i' hmm hmm' page hpage hpage'
    have ht := Listwise.index_eq_of_nodup_flatMap hpages hmm hmm' (mem_pages hpage)
      (mem_pages hpage')
    rw [← ht, hmm] at hmm'
    obtain rfl := some.inj hmm'
    have hown := (nodup_flatMap.mp hpages).1 mm (mem_of_getElem? hmm)
    exact ⟨ht, section_unique hown hpage hpage'⟩

/-- `section_get_memory` takes no page from a list, so that it never does what a negative
count asks for. -/
theorem shrinks_iff (k : ℕ) (sec : TaskMmSection) (m : Machine β) : Shrinks k sec m ↔ k = 0 := by
  constructor
  · rintro ⟨ret, sec', m', removed, hget, hlen, -, hperm, -, -⟩
    by_contra hk
    have hneg : ¬ (-(k : ℤ) = 0) ∧ ¬ (0 < -(k : ℤ)) := by omega
    rw [sectionGetMemory, if_neg hneg.1, if_neg hneg.2] at hget
    obtain ⟨page, -, heq⟩ := map_eq_some_iff.mp hget
    simp only [Prod.mk.injEq] at heq
    have hlength := hperm.length_eq
    rw [← heq.2.1, length_append] at hlength
    omega
  · rintro rfl
    exact ⟨0, sec, m, [], rfl, rfl, nodup_nil, by simp, by simp, by simp⟩

/-- In every run whose calls are legal, every state has its sections in order: the counts
are right, the pages on the lists are allocated, and none is on two lists. In no state does
`section_get_memory` remove and release the pages that a negative count asks for. -/
theorem sections_ok_of_legal {secs : List Section} {boot : Boot} {s s' : System β} (hs : s.Ok)
    {calls : List (MmCall β)} (hcalls : Meets (System.step secs boot) System.Legal calls s)
    (hrun : run (System.step secs boot) calls s = some s') :
    SectionsOk s' ∧ ∀ (t : ℕ) mm i (k : ℕ), s'.tasks[t]? = some mm →
      k ≤ (mm.mmSection i).allocPages → (Shrinks k (mm.mmSection i) s'.m ↔ k = 0) := by
  have hok : s'.Ok :=
    invariant_of_meets (fun _ _ _ h hlegal hstep => h.step hlegal hstep) hs hcalls hrun
  exact ⟨hok.sectionsOk, fun t mm i k _ _ => shrinks_iff k _ _⟩

/-- A task without pages, and 64 free frames. -/
def oneTask : System Unit where
  tasks := [bareTask]
  buf := ⟨[], 0, 0⟩
  m := clearMachine (List.range' 0x410 64)

theorem oneTask_ok : oneTask.Ok where
  counted := by
    intro mm hmem i
    obtain rfl := mem_singleton.mp hmem
    rfl
  nodup := by
    have hstock : oneTask.stock = (List.range' 0x410 64 : Multiset ℕ) := by
      simp [System.stock, oneTask, bareTask, pages, sectionIds, clearMachine]
    rw [hstock, Multiset.coe_nodup]
    exact nodup_range'
  kept := fun _ _ => not_mem_nil

/-- The task executes a program of one page and is forked, and the program of the child
grows by two pages. -/
def forkAndGrow : List (MmCall Unit) :=
  [.exec 0 0x404000 4096, .fork 0, .getMemory 1 .elf 2]

/-- The theorem applies to these calls. -/
theorem sections_ok_of_legal_forkAndGrow :
    ∃ s', run (System.step topSections ⟨none, 0⟩) forkAndGrow oneTask = some s' ∧
      s'.tasks.map (fun mm => (pages mm).length) = [6, 8] ∧ SectionsOk s' := by
  refine exists_some_imp (P := fun s => s.tasks.map (fun mm => (pages mm).length) = [6, 8])
    (by decide +kernel) fun s' hrun hlen => ⟨hlen, ?_⟩
  exact (sections_ok_of_legal oneTask_ok (by decide +kernel) hrun).1

/-- A mapping of one page without a file. -/
def mapOnePage : MmCall Unit := .mmap 0 none 0x40000000 4096 0 ⟨0, fun _ => (), fun _ => ()⟩

/-- A page is mapped: it is on the list of its section, which counts no page. A section with
two pages that is to give back both: they stay on the list and are counted, and the last one
has been released twice. -/
theorem oneTask_sections_broken :
    (run (System.step topSections ⟨none, 0⟩) [mapOnePage] oneTask).map
      (fun s => s.tasks.map fun mm =>
        ((mm.mmSection .mmap).allocPages, (mm.mmSection .mmap).allocMem)) = some [(0, [0x410])] ∧
    (run (System.step topSections ⟨none, 0⟩) [.getMemory 0 .elf 2, .getMemory 0 .elf (-2)]
      oneTask).map (fun s => (s.tasks.map fun mm =>
        ((mm.mmSection .elf).allocPages, (mm.mmSection .elf).allocMem), s.m.released)) =
        some ([(2, [0x410, 0x411])], [0x411, 0x411]) := by
  decide +kernel

end Chunos.TaskMm
