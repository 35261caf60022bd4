import Chunos.Lib.Runs
import Chunos.Mm.BankPartition
import Chunos.Mm.PgtMap

/-!
# Mapping single pages of a task

`pgt_map_task_page` and `pgt_get_task_page` go from a physical address to its `struct page`
through the sections of the memory bank. In every run of calls that succeed, the page mapped
last at an address is found again, unless the end of its section is 4 GB: that sum wraps to
zero, and no page of the section is found. A call changes the translation of its own page
only, whether it needed a new table or not.
-/

namespace Chunos.Bank

/-- `pa_get_section`: the end of a section is an `unsigned long`. -/
def paGetSection (table : List Section) (pa : ℕ) : Option Section :=
  table.find? fun s => s.phyStart ≤ pa ∧ pa < u32 (s.phyStart + s.size)

end Chunos.Bank

namespace Chunos.Pgt

open Bank (Section paGetSection u32)
open Runs List Option

/-- `pa_to_page`: the frame of the entry in the page table of the section. -/
def paToPage (secs : List Section) (pa : ℕ) : Option ℕ :=
  (paGetSection secs pa).map fun s => s.phyStart / pageSize + (pa - s.phyStart) >>> pageShift

/-- `mmu_pte_entry_to_pa`. -/
def pteEntryToPa (entry : ℕ) : ℕ := entry &&& 0xffffff00

/-- `pgt_get_mapped_pte_addr`, with the lookup of an existing table. `none` stands for a null
pointer that is followed, `some none` for the result 0. -/
def pgtFindMappedPteAddr (secs : List Section) (table : TaskPageTable) (mapAddress : ℕ)
    (s : Frames) : Option (Option (ℕ × TaskPageTable × Frames)) :=
  let pte := pdeEntryToPa (s.word (pgtGetPdeEntryAddr table.pdeBase mapAddress))
  if pte = 0 then
    some <| (pgtMapNewPdeEntry table.taskList table.pdeBase mapAddress s).map
      fun (page, clist, s) =>
        (pgtGetPteEntryAddr (pageToVa s page) mapAddress, { table with taskList := clist }, s)
  else
    (paToPage secs pte).map fun page =>
      some (pgtGetPteEntryAddr (pageToVa s page) mapAddress, table, s)

/-- `pgt_map_task_page`, which is `__pgt_map_page`. -/
def pgtMapTaskPage (secs : List Section) (table : TaskPageTable) (page userAddr : ℕ)
    (s : Frames) : Option (ℤ × TaskPageTable × Frames) :=
  (pgtFindMappedPteAddr secs table userAddr s).map fun
    | none => (-enomem, table, s)
    | some (pteAddr, table, s) =>
      if pteAddr = 0 then (-enomem, table, s)
      else (0, table, mapEntry s pteAddr page userAddr)

/-- `pgt_get_pte_addr`. -/
def pgtGetPteAddr (secs : List Section) (base mapAddress : ℕ) (s : Frames) : Option ℕ :=
  let pte := pdeEntryToPa (s.word (pgtGetPdeEntryAddr base mapAddress))
  if pte = 0 then some 0
  else (paToPage secs pte).map fun page => pgtGetPteEntryAddr (pageToVa s page) mapAddress

/-- `pgt_get_task_page`. -/
def pgtGetTaskPage (secs : List Section) (table : TaskPageTable) (base : ℕ) (s : Frames) :
    Option (Option ℕ) :=
  (pgtGetPteAddr secs table.pdeBase base s).map fun pte =>
    if pte = 0 then none else paToPage secs (pteEntryToPa (s.word pte))

/-! ## Finding a page by its physical address -/

/-- One section ends before the other one starts. -/
def Apart (s t : Section) : Prop :=
  (s.phyStart + s.size : ℤ) ≤ t.phyStart ∨ (t.phyStart + t.size : ℤ) ≤ s.phyStart

instance : Std.Symm Apart := ⟨fun _ _ => Or.symm⟩

instance : DecidableRel Apart := fun _ _ => inferInstanceAs (Decidable (_ ∨ _))

/-- The sections of a memory map: whole pages below 4 GB, apart from each other. -/
structure MemoryMap (secs : List Section) : Prop where
  aligned : ∀ s ∈ secs, pageSize ∣ s.phyStart ∧ (pageSize : ℤ) ∣ s.size
  bounded : ∀ s ∈ secs, 0 ≤ s.size ∧ s.phyStart + s.size ≤ 2 ^ 32
  apart : secs.Pairwise Apart

/-- The page is one of a section. -/
def Allocated (secs : List Section) (page : ℕ) : Prop :=
  ∃ s ∈ secs, s.phyStart ≤ pageToPa page ∧ (pageToPa page : ℤ) < s.phyStart + s.size

/-- The page is above the start of a section that ends at 4 GB. -/
def AtTop (secs : List Section) (page : ℕ) : Prop :=
  ∃ s ∈ secs, s.phyStart ≤ pageToPa page ∧ s.phyStart + s.size = 2 ^ 32

instance (secs : List Section) (page : ℕ) : Decidable (Allocated secs page) :=
  inferInstanceAs (Decidable (∃ s ∈ secs, _))

instance (secs : List Section) (page : ℕ) : Decidable (AtTop secs page) :=
  inferInstanceAs (Decidable (∃ s ∈ secs, _))

variable {secs : List Section}

theorem MemoryMap.u32_end (h : MemoryMap secs) {s : Section} (hs : s ∈ secs) :
    (u32 (s.phyStart + s.size) : ℤ) =
      if s.phyStart + s.size = 2 ^ 32 then 0 else s.phyStart + s.size := by
  obtain ⟨hnonneg, hle⟩ := h.bounded s hs
  rw [u32]
  split_ifs <;> omega

theorem MemoryMap.mem_iff (h : MemoryMap secs) {s : Section} (hs : s ∈ secs) (pa : ℕ) :
    (s.phyStart ≤ pa ∧ pa < u32 (s.phyStart + s.size)) ↔
      s.phyStart ≤ pageToPa (pa / pageSize) ∧ (pageToPa (pa / pageSize) : ℤ) < s.phyStart + s.size ∧
        s.phyStart + s.size ≠ (2 ^ 32 : ℤ) := by
  have hend := h.u32_end hs
  obtain ⟨⟨k, hk⟩, m, hm⟩ := h.aligned s hs
  obtain ⟨hnonneg, hle⟩ := h.bounded s hs
  rw [pageToPa]
  simp only [pageSize] at hk hm ⊢
  split_ifs at hend <;> omega

/-- `pa_to_page` finds the frame of the address, if it finds a section. -/
theorem MemoryMap.paToPage_eq (h : MemoryMap secs) (pa : ℕ) :
    paToPage secs pa = (paGetSection secs pa).map fun _ => pa / pageSize := by
  rw [paToPage]
  cases hget : paGetSection secs pa with
  | none => rfl
  | some s =>
    have hs : s ∈ secs := mem_of_find?_eq_some hget
    have hle := find?_some hget
    obtain ⟨⟨k, hk⟩, -⟩ := h.aligned s hs
    simp only [decide_eq_true_eq] at hle
    simp only [map_some, some.injEq, Nat.shiftRight_eq_div_pow, pageShift]
    simp only [pageSize] at hk ⊢
    omega

variable {page f va : ℕ}

/-- `pa_to_page` finds a page from each address in it unless its section ends at 4 GB. -/
theorem MemoryMap.paToPage_iff (h : MemoryMap secs) {pa : ℕ} (hpa : pa / pageSize = page)
    (halloc : Allocated secs page) : paToPage secs pa = some page ↔ ¬ AtTop secs page := by
  have hsome : paToPage secs pa = some page ↔ (paGetSection secs pa).isSome := by
    rw [h.paToPage_eq, hpa]
    cases paGetSection secs pa <;> simp
  obtain ⟨s, hs, hstart, hend⟩ := halloc
  rw [hsome, paGetSection, find?_isSome]
  simp only [decide_eq_true_eq]
  constructor
  · -- The section that is found holds the page, so the one that ends at 4 GB does not.
    rintro ⟨t, ht, hmem⟩ ⟨top, htop, hle, htopEnd⟩
    obtain ⟨htstart, htend, hne⟩ := (h.mem_iff ht pa).mp hmem
    rw [hpa] at htstart htend
    have hneq : t ≠ top := by
      rintro rfl
      exact hne htopEnd
    have hapart : Apart t top := h.apart.forall ht htop hneq
    have hbound := (h.bounded t ht).2
    unfold Apart at hapart
    omega
  · intro htop
    refine ⟨s, hs, (h.mem_iff hs pa).mpr ⟨hpa ▸ hstart, hpa ▸ hend, fun hsum => ?_⟩⟩
    exact htop ⟨s, hs, hstart, hsum⟩

theorem MemoryMap.page_lt (h : MemoryMap secs) (halloc : Allocated secs page) : page < 2 ^ 20 := by
  obtain ⟨s, hs, -, hend⟩ := halloc
  have hbound := (h.bounded s hs).2
  simp only [pageToPa, pageSize] at hend
  omega

theorem MemoryMap.page_bound (h : MemoryMap secs) (halloc : Allocated secs page)
    (htop : ¬ AtTop secs page) : page + 1 < 2 ^ 20 := by
  obtain ⟨s, hs, hstart, hend⟩ := halloc
  obtain ⟨⟨k, hk⟩, m, hm⟩ := h.aligned s hs
  have hbound := (h.bounded s hs).2
  have hne : s.phyStart + s.size ≠ 2 ^ 32 := fun hsum => htop ⟨s, hs, hstart, hsum⟩
  simp only [pageToPa, pageSize] at hk hm hstart hend
  omega

theorem pteEntryToPa_div {entry : ℕ} (hentry : entry < 2 ^ 32) :
    pteEntryToPa entry / pageSize = entry / pageSize := by
  have hkeep : pteEntryToPa entry = 2 ^ 8 * (entry / 2 ^ 8) := by
    have hmask := two_pow_mul_add_and_mask (w := 24) (k := 8) (f := entry / 2 ^ 8)
      (r := entry % 2 ^ 8) (by omega) (by omega)
    rwa [Nat.div_add_mod] at hmask
  rw [hkeep, pageSize]
  omega

/-! ## One call -/

/-- A page table between two calls: the frames to come belong to nobody, and the frames of
tables are pages of the kernel that can be found. -/
structure TaskReady (secs : List Section) (s : Frames) (table : TaskPageTable)
    (dir : ℕ → Option ℕ) (own : ℕ → Prop) : Prop where
  directory : Directory s.word table.pdeBase dir own
  cached : table.taskList.pteFreeSize = pageSize * table.taskList.cached.length
  fresh : ∀ f ∈ upcoming table.taskList s, ¬ own f ∧ 0 < f
  nodup : (upcoming table.taskList s).Nodup
  kernel : ∀ f, ((∃ i, dir i = some f) ∨ f ∈ upcoming table.taskList s) →
    Allocated secs f ∧ ¬ AtTop secs f ∧ s.mapAddress f = pageToPa f

variable {s s' : Frames} {table table' : TaskPageTable} {dir : ℕ → Option ℕ} {own : ℕ → Prop}

section
variable (h : TaskReady secs s table dir own)
include h

theorem TaskReady.pageToVa_eq (hsecs : MemoryMap secs)
    (hf : (∃ i, dir i = some f) ∨ f ∈ upcoming table.taskList s) : pageToVa s f = pageSize * f := by
  obtain ⟨halloc, htop, hmap⟩ := h.kernel f hf
  rw [pageToVa, hmap]
  exact pageSize_mul_add_and_mask (r := 0) (Nat.lt_of_succ_lt (hsecs.page_bound halloc htop))
    (by decide)

theorem TaskReady.pgtGetPteEntryAddr_eq (hsecs : MemoryMap secs)
    (hf : (∃ i, dir i = some f) ∨ f ∈ upcoming table.taskList s) (va : ℕ) :
    pgtGetPteEntryAddr (pageToVa s f) va = pageSize * f + 4 * (va % pdeMapSize / pageSize) := by
  rw [Pgt.pgtGetPteEntryAddr_eq, h.pageToVa_eq hsecs hf]

theorem TaskReady.paToPage_table (hsecs : MemoryMap secs) {i : ℕ} (hdir : dir i = some f)
    : paToPage secs (pageSize * f) = some f := by
  obtain ⟨halloc, htop, -⟩ := h.kernel f (Or.inl ⟨i, hdir⟩)
  exact (hsecs.paToPage_iff (Nat.mul_div_cancel_left f (by decide)) halloc).mpr htop

/-- A new table for an address changes no translation. -/
theorem TaskReady.newTable (hsecs : MemoryMap secs) {clist : PteCacheList}
    (hva : va < kernelVirtualBase) (hnone : dir (va / pdeMapSize) = none)
    (hnew : pgtMapNewPdeEntry table.taskList table.pdeBase va s = some (page, clist, s')) :
    TaskReady secs s' { table with taskList := clist }
        (Function.update dir (va / pdeMapSize) (some page)) (fun f => own f ∨ f = page) ∧
      upcoming table.taskList s = page :: upcoming clist s' ∧
      ∀ va', lookup s'.word (Function.update dir (va / pdeMapSize) (some page)) va' =
        lookup s.word dir va' := by
  obtain ⟨hnext, hcached, -, -, hmap⟩ := pgtMapNewPdeEntry_next h.cached hva hnew
  obtain ⟨hdirectory, hlookup, hfresh, hnodup⟩ := h.directory.draw [] hva hnone h.cached
    (fun f hf => ⟨(h.fresh f hf).1, (h.fresh f hf).2,
      hsecs.page_bound (h.kernel f (Or.inr hf)).1 (h.kernel f (Or.inr hf)).2.1⟩) h.nodup hnew
  refine ⟨⟨hdirectory, hcached, fun f hf => ⟨(hfresh f hf).1, (hfresh f hf).2.1⟩, hnodup, ?_⟩,
    hnext, hlookup⟩
  intro f hf
  have hold : (∃ i, dir i = some f) ∨ f ∈ upcoming table.taskList s := by
    rw [hnext, mem_cons]
    rcases hf with ⟨i, hi⟩ | hf
    · obtain ⟨-, rfl⟩ | ⟨-, hi⟩ := update_eq_some_iff.mp hi
      · exact Or.inr (Or.inl rfl)
      · exact Or.inl ⟨i, hi⟩
    · exact Or.inr (Or.inr hf)
  rw [hmap]
  exact h.kernel f hold

/-- `pgt_map_task_page` finds the entry that `pgt_get_mapped_pte_addr` finds. -/
theorem TaskReady.pgtFindMappedPteAddr_eq (hsecs : MemoryMap secs) {va : ℕ}
    (hva : va < kernelVirtualBase) :
    pgtFindMappedPteAddr secs table va s = some (pgtGetMappedPteAddr table va s) := by
  have hpde := h.directory.pde_eq hva
  unfold pgtFindMappedPteAddr pgtGetMappedPteAddr
  cases hdir : dir (va / pdeMapSize) with
  | none =>
    simp only [hpde, hdir, elim_none, if_true]
    cases hnew : pgtMapNewPdeEntry table.taskList table.pdeBase va s with
    | none => rfl
    | some res =>
      obtain ⟨page, clist, s₁⟩ := res
      have hva' := (h.newTable hsecs hva hdir hnew).1.pageToVa_eq hsecs
        (Or.inl ⟨_, Function.update_self _ _ _⟩)
      simp only [map_some, hva', pageToPa]
  | some f =>
    simp only [hpde, hdir, elim_some, if_neg (h.directory.table_ne_zero hdir),
      h.paToPage_table hsecs hdir, map_some, h.pageToVa_eq hsecs (Or.inl ⟨_, hdir⟩)]

/-- `pgt_get_mapped_pte_addr` finds the entry of an address and changes no translation. -/
theorem TaskReady.find (hsecs : MemoryMap secs) {pte : ℕ} (hva : va < kernelVirtualBase)
    (hfind : pgtFindMappedPteAddr secs table va s = some (some (pte, table', s'))) :
    ∃ dir' own' f, TaskReady secs s' table' dir' own' ∧ table'.pdeBase = table.pdeBase ∧
      (∀ f, own' f ∨ f ∈ upcoming table'.taskList s' → own f ∨ f ∈ upcoming table.taskList s) ∧
      (∀ va', lookup s'.word dir' va' = lookup s.word dir va') ∧
      dir' (va / pdeMapSize) = some f ∧ pte = pageSize * f + 4 * (va % pdeMapSize / pageSize) := by
  rw [h.pgtFindMappedPteAddr_eq hsecs hva, some.injEq] at hfind
  obtain ⟨f, hpte, ⟨clist, hdir, hnew, rfl⟩ | ⟨hdir, rfl, rfl⟩⟩ :=
    h.directory.getMapped_cases hva hfind
  · obtain ⟨hready, hnext, hlookup⟩ := h.newTable hsecs hva hdir hnew
    refine ⟨_, _, f, hready, rfl, ?_, hlookup, Function.update_self _ _ _, hpte⟩
    rw [hnext]
    rintro g ((hg | rfl) | hg)
    · exact Or.inl hg
    · exact Or.inr mem_cons_self
    · exact Or.inr (mem_cons_of_mem f hg)
  · exact ⟨dir, own, f, h, rfl, fun _ hf => hf, fun _ => rfl, hdir, hpte⟩

/-- Writing the entry of an address for a page that is not used for tables. -/
theorem TaskReady.write (hdir : dir (va / pdeMapSize) = some f)
    (hpage : ¬ (own page ∨ page ∈ upcoming table.taskList s)) {pte : ℕ}
    (hpte : pte = pageSize * f + 4 * (va % pdeMapSize / pageSize)) :
    TaskReady secs (mapEntry s pte page va) table dir own ∧
      ∀ va', lookup (mapEntry s pte page va).word dir va' =
        if va' / pageSize = va / pageSize then some page else lookup s.word dir va' := by
  have hword := mapEntry_word s va f page va hpte
  refine ⟨⟨?_, h.cached, h.fresh, h.nodup, ?_⟩, ?_⟩
  · rw [hword]
    exact h.directory.write hdir _
  · intro f' hf'
    obtain ⟨halloc, htop, hmap⟩ := h.kernel f' hf'
    have hne : f' ≠ page := by
      rintro rfl
      rcases hf' with ⟨i, hi⟩ | hf'
      · exact hpage (Or.inl (h.directory.frame i f' hi).1)
      · exact hpage (Or.inr hf')
    refine ⟨halloc, htop, ?_⟩
    rw [← hmap]
    exact Function.update_of_ne hne _ _
  · intro va'
    rw [hword]
    exact h.directory.lookup_write hdir page va'

/-- A call that succeeds changes the translation of its own page and no other one. -/
theorem TaskReady.map (hsecs : MemoryMap secs) (hva : va < kernelVirtualBase)
    (hpage : ¬ (own page ∨ page ∈ upcoming table.taskList s))
    (hmap : pgtMapTaskPage secs table page va s = some (0, table', s')) :
    ∃ dir' own', TaskReady secs s' table' dir' own' ∧ table'.pdeBase = table.pdeBase ∧
      (∀ f, own' f ∨ f ∈ upcoming table'.taskList s' → own f ∨ f ∈ upcoming table.taskList s) ∧
      ∀ va', lookup s'.word dir' va' =
        if va' / pageSize = va / pageSize then some page else lookup s.word dir va' := by
  unfold pgtMapTaskPage at hmap
  rw [map_eq_some_iff] at hmap
  obtain ⟨found, hfind, hres⟩ := hmap
  cases found with
  | none => simp [enomem] at hres
  | some found =>
    obtain ⟨pte, table₁, s₁⟩ := found
    obtain ⟨dir', own', f, hready, hbase, hsub, hlookup, hdir, hpte⟩ := h.find hsecs hva hfind
    by_cases hzero : pte = 0
    · simp [hzero, enomem] at hres
    · simp only [if_neg hzero, Prod.mk.injEq, true_and] at hres
      obtain ⟨rfl, rfl⟩ := hres
      obtain ⟨hready', hwrite⟩ := hready.write hdir (fun hmem => hpage (hsub page hmem)) hpte
      refine ⟨dir', own', hready', hbase, hsub, fun va' => ?_⟩
      rw [hwrite, hlookup]

/-- `pgt_get_task_page` finds a page that is mapped unless its section ends at 4 GB. -/
theorem TaskReady.pgtGetTaskPage_iff (hsecs : MemoryMap secs) (hva : va < kernelVirtualBase)
    (hlookup : lookup s.word dir va = some page)
    (halloc : Allocated secs page) :
    pgtGetTaskPage secs table va s = some (some page) ↔ ¬ AtTop secs page := by
  rw [lookup, bind_eq_some_iff] at hlookup
  obtain ⟨f, hdir, hentry⟩ := hlookup
  have hne := h.directory.table_ne_zero hdir
  have haddr : pageSize * f + 4 * (va % pdeMapSize / pageSize) ≠ 0 := by omega
  have hget : pgtGetTaskPage secs table va s = some (paToPage secs (pteEntryToPa
      (s.word (pageSize * f + 4 * (va % pdeMapSize / pageSize))))) := by
    simp only [pgtGetTaskPage, pgtGetPteAddr, h.directory.pde_eq hva, hdir, elim_some,
      if_neg hne, h.paToPage_table hsecs hdir, map_some,
      h.pgtGetPteEntryAddr_eq hsecs (Or.inl ⟨_, hdir⟩), if_neg haddr]
  obtain ⟨-, hpage⟩ := ite_none_right_eq_some.mp hentry
  rw [some.injEq] at hpage
  have hlt := hsecs.page_lt halloc
  have hword : s.word (pageSize * f + 4 * (va % pdeMapSize / pageSize)) < 2 ^ 32 := by
    rw [pageSize] at hpage ⊢
    omega
  rw [hget, some.injEq]
  exact hsecs.paToPage_iff ((pteEntryToPa_div hword).trans hpage) halloc

end

/-! ## Runs -/

/-- A call of `pgt_map_task_page`. -/
structure MapCall where
  page : ℕ
  addr : ℕ

/-- A call that succeeds. -/
def mapStep (secs : List Section) (c : MapCall) (state : TaskPageTable × Frames) :
    Option (TaskPageTable × Frames) :=
  (pgtMapTaskPage secs state.1 c.page c.addr state.2).bind fun (ret, table, s) =>
    if ret = 0 then some (table, s) else none

/-- The page that was mapped last at an address. -/
def lastMapped : List MapCall → ℕ → Option ℕ
  | [], _ => none
  | c :: calls, va =>
    (lastMapped calls va).or (if va / pageSize = c.addr / pageSize then some c.page else none)

/-- The pages that are used for tables, now or later. -/
def Tables (own : ℕ → Prop) (table : TaskPageTable) (s : Frames) (page : ℕ) : Prop :=
  own page ∨ page ∈ upcoming table.taskList s

/-- The call maps an allocated page, which is not used for tables, at a user address. -/
structure MapCall.Legal (secs : List Section) (tables : ℕ → Prop) (c : MapCall) : Prop where
  addr : c.addr < kernelVirtualBase
  allocated : Allocated secs c.page
  user : ¬ tables c.page

theorem legal_of_lastMapped {tables : ℕ → Prop} {calls : List MapCall}
    (hcalls : ∀ c ∈ calls, c.Legal secs tables) (hlast : lastMapped calls va = some page) :
    va < kernelVirtualBase ∧ Allocated secs page := by
  induction calls with
  | nil => simp [lastMapped] at hlast
  | cons c calls ih =>
    obtain ⟨hc, hrest⟩ := forall_mem_cons.mp hcalls
    rw [lastMapped, or_eq_some_iff] at hlast
    rcases hlast with hlast | ⟨-, hlast⟩
    · exact ih hrest hlast
    · obtain ⟨hsame, hpage⟩ := ite_none_right_eq_some.mp hlast
      rw [some.injEq] at hpage
      refine ⟨?_, hpage ▸ hc.allocated⟩
      have haddr := hc.addr
      rw [kernelVirtualBase] at haddr ⊢
      rw [pageSize] at hsame
      omega

/-- After a run every address has the page that was mapped last, or the one it had before. -/
theorem TaskReady.run (h : TaskReady secs s table dir own) (hsecs : MemoryMap secs)
    {calls : List MapCall} (hcalls : ∀ c ∈ calls, c.Legal secs (Tables own table s))
    (hrun : Runs.run (mapStep secs) calls (table, s) = some (table', s')) :
    ∃ dir' own', TaskReady secs s' table' dir' own' ∧ table'.pdeBase = table.pdeBase ∧
      ∀ va, lookup s'.word dir' va = (lastMapped calls va).or (lookup s.word dir va) := by
  induction calls generalizing s table dir own with
  | nil =>
    simp only [Runs.run] at hrun
    cases hrun
    exact ⟨dir, own, h, rfl, fun va => rfl⟩
  | cons c calls ih =>
    obtain ⟨⟨table₁, s₁⟩, hstep, hrest⟩ := run_cons_eq_some.mp hrun
    obtain ⟨hc, hcalls'⟩ := forall_mem_cons.mp hcalls
    rw [mapStep, bind_eq_some_iff] at hstep
    obtain ⟨⟨ret, table₂, s₂⟩, hmap, hret⟩ := hstep
    obtain ⟨rfl, heq⟩ := ite_none_right_eq_some.mp hret
    cases heq
    obtain ⟨dir₁, own₁, h₁, hbase, hsub, hlookup⟩ := h.map hsecs hc.addr hc.user hmap
    obtain ⟨dir', own', h', hbase', hlookup'⟩ := ih h₁
      (fun c' hc' => ⟨(hcalls' c' hc').addr, (hcalls' c' hc').allocated,
        fun hmem => (hcalls' c' hc').user (hsub c'.page hmem)⟩) hrest
    refine ⟨dir', own', h', hbase'.trans hbase, fun va => ?_⟩
    rw [hlookup', hlookup, lastMapped, Option.or_assoc]
    split_ifs <;> rfl

/-- In every run of calls that succeed, `pgt_get_task_page` finds the page that was mapped last
at an address unless the section of the page ends at 4 GB, and each call changes the
translation of its own page only. -/
theorem pgtMapTaskPage_runs_iff (hsecs : MemoryMap secs) (h : TaskReady secs s table dir own)
    {calls : List MapCall} (hcalls : ∀ c ∈ calls, c.Legal secs (Tables own table s))
    (hrun : run (mapStep secs) calls (table, s) = some (table', s')) :
    (∀ va page, lastMapped calls va = some page →
      (pgtGetTaskPage secs table' va s' = some (some page) ↔ ¬ AtTop secs page)) ∧
    ∀ va < kernelVirtualBase, translate s'.word table'.pdeBase va =
      (lastMapped calls va).or (translate s.word table.pdeBase va) := by
  obtain ⟨dir', own', h', -, hlookup⟩ := h.run hsecs hcalls hrun
  constructor
  · intro va page hlast
    obtain ⟨hva, halloc⟩ := legal_of_lastMapped hcalls hlast
    refine h'.pgtGetTaskPage_iff hsecs hva ?_ halloc
    rw [hlookup, hlast, some_or]
  · intro va hva
    rw [h'.directory.translate_eq hva, hlookup, h.directory.translate_eq hva]

/-- The table of a new task: no user address has a directory entry, and no frame was taken. -/
theorem taskReady_of_clear {d : ℕ} (hbase : table.pdeBase = pageSize * d)
    (hclear : ∀ i < 512, s.word (table.pdeBase + 4 * i) = 0)
    (hfree : table.taskList.pteFreeSize = 0)
    (hsupply : ∀ f ∈ s.supply, f ≠ d ∧ 0 < f ∧ Allocated secs f ∧ ¬ AtTop secs f ∧
      s.mapAddress f = pageToPa f) (hnodup : s.supply.Nodup) :
    TaskReady secs s table (fun _ => none) (· = d) := by
  have hcached : table.taskList.cached = [] := by rw [PteCacheList.cached, if_pos hfree]
  have hupcoming : upcoming table.taskList s = s.supply := by
    rw [upcoming, hcached, nil_append]
  constructor
  · constructor
    · exact ⟨d, hbase, rfl, fun _ => by simp⟩
    · simp
    · exact fun i hi _ => hclear i hi
    · simp
    · simp
  · rw [hfree, hcached, length_nil, Nat.mul_zero]
  · rw [hupcoming]
    exact fun f hf => ⟨(hsupply f hf).1, (hsupply f hf).2.1⟩
  · rw [hupcoming]
    exact hnodup
  · rw [hupcoming]
    rintro f (⟨i, hi⟩ | hf)
    · simp at hi
    · exact (hsupply f hf).2.2

/-- A platform whose last memory ends at 4 GB. -/
def topBoard : Bank.SocMemoryInfo where
  codeEnd := 0x80100000
  kernelPhysicalStart := 0
  region := [⟨0, 2 ^ 26, .normal⟩, ⟨2 ^ 26, 2 ^ 22, .dma⟩, ⟨0xff000000, 2 ^ 24, .normal⟩]

/-- The sections of this platform, with the fields that `pa_to_page` reads. -/
def topSections : List Section :=
  [{ phyStart := 0, size := 2 ^ 26 }, { phyStart := 0xff000000, size := 2 ^ 24 },
    { phyStart := 2 ^ 26, size := 2 ^ 22 }]

/-- The table of a new task, whose directory is frame 0x400, and memory that is clear. -/
def newTask : TaskPageTable × Frames :=
  ({ pdeBase := pageToPa 0x400
     taskList := ⟨[], 0, 0, 0⟩
     mmapList := ⟨[], 0, 0, 0⟩
     tbufPteBase := pageToPa 0x401 },
    { word := fun _ => 0, mapAddress := pageToPa, supply := [0x402, 0x403] })

theorem newTask_ready : TaskReady topSections newTask.2 newTask.1 (fun _ => none) (· = 0x400) :=
  taskReady_of_clear rfl (fun _ _ => rfl) rfl (by decide +kernel) (by decide)

/-- Three calls, two of them for one page. -/
def threeMaps : List MapCall := [⟨0x500, 0x1000⟩, ⟨0x501, 0x400000⟩, ⟨0x502, 0x1000⟩]

/-- Both addresses have the page that was mapped last. -/
theorem pgtMapTaskPage_runs_iff_threeMaps :
    ∃ table' s', run (mapStep topSections) threeMaps newTask = some (table', s') ∧
      pgtGetTaskPage topSections table' 0x1000 s' = some (some 0x502) ∧
      pgtGetTaskPage topSections table' 0x400000 s' = some (some 0x501) := by
  have haddr : ∀ c ∈ threeMaps, c.addr < kernelVirtualBase := by decide
  have halloc : ∀ c ∈ threeMaps, Allocated topSections c.page := by decide
  have huser : ∀ c ∈ threeMaps, c.page ≠ 0x400 ∧ c.page ∉ [0x402, 0x403] := by decide
  have hcalls : ∀ c ∈ threeMaps, c.Legal topSections (Tables (· = 0x400) newTask.1 newTask.2) :=
    fun c hc => ⟨haddr c hc, halloc c hc, not_or.mpr (huser c hc)⟩
  have hsome : (run (mapStep topSections) threeMaps newTask).isSome := by decide +kernel
  obtain ⟨⟨table', s'⟩, hrun⟩ := isSome_iff_exists.mp hsome
  obtain ⟨hget, -⟩ := pgtMapTaskPage_runs_iff ⟨by decide, by decide, by decide⟩ newTask_ready
    hcalls hrun
  exact ⟨table', s', hrun, (hget 0x1000 0x502 (by decide)).mpr (by decide),
    (hget 0x400000 0x501 (by decide)).mpr (by decide)⟩

/-- The section with the last pages below 4 GB is never found, so a page of it that was mapped
successfully is not found either. -/
theorem topBoard_pgtGetTaskPage :
    (∃ bank, Bank.mmInit 0 topBoard (fun _ => 0) (fun _ => Bank.zeroPage) = some bank ∧
      (Bank.sections bank.zone).map Section.span = topSections.map Section.span) ∧
    TaskReady topSections newTask.2 newTask.1 (fun _ => none) (· = 0x400) ∧
    MapCall.Legal topSections (Tables (· = 0x400) newTask.1 newTask.2) ⟨0xff800, 0x1000⟩ ∧
    ∃ table' s', run (mapStep topSections) [⟨0xff800, 0x1000⟩] newTask = some (table', s') ∧
      pgtGetTaskPage topSections table' 0x1000 s' = some none := by
  have hlegal : (⟨0xff800, 0x1000⟩ : MapCall).Legal topSections
      (Tables (· = 0x400) newTask.1 newTask.2) := by
    constructor
    · decide
    · decide
    · exact not_or.mpr (show 0xff800 ≠ 0x400 ∧ 0xff800 ∉ [0x402, 0x403] by decide)
  obtain ⟨⟨table', s'⟩, hrun, hget⟩ :
      ∃ x, run (mapStep topSections) [⟨0xff800, 0x1000⟩] newTask = some x ∧
        pgtGetTaskPage topSections x.1 0x1000 x.2 = some none := by
    decide +kernel
  exact ⟨by decide +kernel, newTask_ready, hlegal, table', s', hrun, hget⟩

end Chunos.Pgt
