import Chunos.Mm.PgtRange
import Chunos.Mm.PgtTask

/-!
# Page tables and mmap

The functions of `mm/pgt.c` that check a range of addresses and unmap a page of it, and
what all functions that map pages have in common: they take pages for tables from the
supply, and nothing else. Tables are pages of the kernel, so that `pa_to_page` and
`page_to_va` lead from the address in a directory entry back to the same address.
-/

namespace Chunos.Pgt

open List Option

open Bank (Section)

/-- The address of the next page, as an `unsigned long`. -/
def nextPage (addr : ℕ) : ℕ := (addr + pageSize) % 2 ^ 32

/-- The loop of `pgt_check_mmap_addr` over `nr` pages. Without a table
`pgt_get_pte_addr` returns 0, and the loop reads through that null pointer. -/
def checkMmapLoop (pdeBase : ℕ) (s : Frames) : ℕ → ℕ → Option ℤ
  | 0, _ => some 0
  | nr + 1, start =>
    let pte := pdeEntryToPa (s.word (pgtGetPdeEntryAddr pdeBase start))
    if pte = 0 then none
    else if s.word (pgtGetPteEntryAddr pte start) ≠ 0 then some (-enxio)
    else checkMmapLoop pdeBase s nr (nextPage start)

/-- `pgt_check_mmap_addr`. Only the directory entry of the first page is looked at before
the loop. -/
def pgtCheckMmapAddr (table : TaskPageTable) (start : ℕ) (nr : ℤ) (s : Frames) : Option ℤ :=
  if s.word (pgtGetPdeEntryAddr table.pdeBase start) = 0 then some 0
  else checkMmapLoop table.pdeBase s nr.toNat start

/-- `pgt_unmap_mmap_page`: the page that `pa_to_page` finds for the entry, which is cleared. -/
def pgtUnmapMmapPage (secs : List Section) (table : TaskPageTable) (base : ℕ) (s : Frames) :
    Option ℕ × Frames :=
  let pte := pdeEntryToPa (s.word (pgtGetPdeEntryAddr table.pdeBase base))
  if pte = 0 then (none, s)
  else
    let entry := pgtGetPteEntryAddr pte base
    (paToPage secs (pteEntryToPa (s.word entry)), { s with word := Function.update s.word entry 0 })

/-- The pages that a task has for tables. -/
def TaskPageTable.tableFrames (table : TaskPageTable) : List ℕ :=
  table.taskList.pteList ++ table.mmapList.pteList

/-- The lists of table pages have no pages to be used again. -/
def TaskPageTable.Fresh (table : TaskPageTable) : Prop :=
  table.taskList.pteFreeSize = 0 ∧ table.mmapList.pteFreeSize = 0

/-- At most `n` frames have been taken from the supply, and new table pages are among
them. -/
structure Draws (n : ℕ) (s s' : Frames) (table table' : TaskPageTable) : Prop where
  supply : s'.supply <:+ s.supply
  bound : s.supply.length ≤ s'.supply.length + n
  tables : ∀ f ∈ table'.tableFrames, f ∈ table.tableFrames ∨ f ∈ s.supply
  fresh : table.Fresh → table'.Fresh

theorem Draws.refl (n : ℕ) (s : Frames) (table : TaskPageTable) : Draws n s s table table :=
  ⟨suffix_rfl, Nat.le_add_right _ _, fun _ => Or.inl, id⟩

variable {s s' : Frames} {table table' : TaskPageTable} {clist : PteCacheList} {list : List ℕ}

theorem Draws.trans {n n' : ℕ} {s'' : Frames} {table'' : TaskPageTable}
    (h : Draws n s s' table table') (h' : Draws n' s' s'' table' table'') :
    Draws (n + n') s s'' table table'' := by
  have hbound := h.bound
  have hbound' := h'.bound
  refine ⟨h'.supply.trans h.supply, by omega, fun f hf => ?_, h'.fresh ∘ h.fresh⟩
  rcases h'.tables f hf with hf | hf
  · exact h.tables f hf
  · exact Or.inr (h.supply.subset hf)

/-- A list of table pages takes at most one frame from the supply. -/
structure PteCacheList.Draws (s s' : Frames) (clist clist' : PteCacheList) : Prop where
  supply : s'.supply <:+ s.supply
  bound : s.supply.length ≤ s'.supply.length + 1
  pages : ∀ f ∈ clist'.pteList, f ∈ clist.pteList ∨ f ∈ s.supply
  fresh : clist.pteFreeSize = 0 → clist'.pteFreeSize = 0

theorem PteCacheList.Draws.task (h : PteCacheList.Draws s s' table.taskList clist) :
    Pgt.Draws 1 s s' table { table with taskList := clist } := by
  refine ⟨h.supply, h.bound, fun g hg => ?_, fun hfresh => ⟨h.fresh hfresh.1, hfresh.2⟩⟩
  rcases mem_append.mp hg with hg | hg
  · exact (h.pages g hg).imp_left (mem_append_left _)
  · exact Or.inl (mem_append_right _ hg)

theorem PteCacheList.Draws.mmap (h : PteCacheList.Draws s s' table.mmapList clist) :
    Pgt.Draws 1 s s' table { table with mmapList := clist } := by
  refine ⟨h.supply, h.bound, fun g hg => ?_, fun hfresh => ⟨hfresh.1, h.fresh hfresh.2⟩⟩
  rcases mem_append.mp hg with hg | hg
  · exact Or.inl (mem_append_left _ hg)
  · exact (h.pages g hg).imp_left (mem_append_right _)

variable {page va : ℕ}

theorem requestPage_eq_some (h : requestPage s = some (page, s')) :
    s.supply = page :: s'.supply ∧ s'.word = s.word ∧ s'.mapAddress = s.mapAddress := by
  unfold requestPage at h
  cases hsupply : s.supply with
  | nil => simp [hsupply] at h
  | cons f supply =>
    simp only [hsupply] at h
    cases h
    exact ⟨rfl, rfl, rfl⟩

theorem requestPage_draws (table : TaskPageTable) (h : requestPage s = some (page, s')) :
    Draws 1 s s' table table := by
  obtain ⟨hsupply, -⟩ := requestPage_eq_some h
  refine ⟨?_, ?_, fun _ => Or.inl, id⟩
  · rw [hsupply]
    exact suffix_cons _ _
  · rw [hsupply, length_cons]

/-- `alloc_new_pte_page` takes its page from the list or from the supply. -/
theorem allocNewPtePage_draws {clist' : PteCacheList}
    (h : allocNewPtePage clist s = some (page, clist', s')) :
    PteCacheList.Draws s s' clist clist' := by
  unfold allocNewPtePage at h
  by_cases hfree : clist.pteFreeSize = 0
  · rw [if_pos hfree] at h
    obtain ⟨⟨f, s₁⟩, hreq, heq⟩ := map_eq_some_iff.mp h
    cases heq
    obtain ⟨hsupply, -⟩ := requestPage_eq_some hreq
    refine ⟨hsupply ▸ suffix_cons _ _, ?_, fun g hg => ?_, fun _ => hfree⟩
    · rw [hsupply, length_cons]
      rfl
    · rcases mem_append.mp hg with hg | hg
      · exact Or.inl hg
      · rw [hsupply]
        exact Or.inr (mem_cons.mpr (Or.inl (mem_singleton.mp hg)))
  · rw [if_neg hfree] at h
    obtain ⟨f, _, heq⟩ := map_eq_some_iff.mp h
    cases heq
    exact ⟨suffix_rfl, Nat.le_succ _, fun _ => Or.inl, fun hzero => absurd hzero hfree⟩

theorem pgtMapNewPdeEntry_draws {clist' : PteCacheList} {pdeBase : ℕ}
    (h : pgtMapNewPdeEntry clist pdeBase va s = some (page, clist', s')) :
    PteCacheList.Draws s s' clist clist' := by
  obtain ⟨⟨f, clist₁, s₁⟩, hnew, heq⟩ := map_eq_some_iff.mp h
  cases heq
  obtain ⟨hsupply, hbound, hpages, hfresh⟩ := allocNewPtePage_draws hnew
  exact ⟨hsupply, hbound, hpages, hfresh⟩

theorem pgtMapNewPdeEntry_isSome (pdeBase va : ℕ) (hfree : clist.pteFreeSize = 0)
    (hsupply : s.supply ≠ []) : (pgtMapNewPdeEntry clist pdeBase va s).isSome := by
  obtain ⟨f, supply, hcons⟩ := exists_cons_of_ne_nil hsupply
  simp [pgtMapNewPdeEntry, allocNewPtePage, hfree, requestPage, hcons]

theorem pgtGetMappedPteAddr_draws {pte : ℕ}
    (h : pgtGetMappedPteAddr table va s = some (pte, table', s')) : Draws 1 s s' table table' := by
  simp only [pgtGetMappedPteAddr] at h
  split_ifs at h
  · obtain ⟨⟨f, clist, s₁⟩, hnew, heq⟩ := map_eq_some_iff.mp h
    cases heq
    exact (pgtMapNewPdeEntry_draws hnew).task
  · cases h
    exact Draws.refl _ _ _

/-- `pgt_map_mmap_page` takes at most a page for a table. -/
theorem pgtMapMmapPage_draws (table : TaskPageTable) (page va : ℕ) (s : Frames) :
    Draws 1 s (pgtMapMmapPage table page va s).2.2 table (pgtMapMmapPage table page va s).2.1 := by
  unfold pgtMapMmapPage
  simp only
  split
  · exact Draws.refl _ _ _
  · rename_i pte table' s' hfound
    split_ifs at hfound
    · obtain ⟨⟨f, clist, s₁⟩, hnew, heq⟩ := map_eq_some_iff.mp hfound
      cases heq
      obtain ⟨hsupply, hbound, htables, hfresh⟩ := (pgtMapNewPdeEntry_draws hnew).mmap
      exact ⟨hsupply, hbound, htables, hfresh⟩
    · cases hfound
      exact ⟨suffix_rfl, Nat.le_succ _, fun _ => Or.inl, id⟩

theorem pgtMapMmapPage_succeeds (page va : ℕ) (hfresh : table.Fresh) (hsupply : s.supply ≠ []) :
    (pgtMapMmapPage table page va s).1 = 0 := by
  obtain ⟨res, hnew⟩ := isSome_iff_exists.mp
    (pgtMapNewPdeEntry_isSome table.pdeBase va hfresh.2 hsupply)
  unfold pgtMapMmapPage
  simp only [hnew, map_some]
  split_ifs <;> rfl

theorem fetchEntry_draws {endOf : ℕ → ℕ} {pte pteEnd pte' pteEnd' : ℕ}
    (h : fetchEntry endOf va pte pteEnd table s = some (pte', pteEnd', table', s')) :
    Draws 1 s s' table table' := by
  obtain ⟨-, hget, -⟩ | ⟨-, -, -, rfl, rfl⟩ := fetchEntry_cases h
  · exact pgtGetMappedPteAddr_draws hget
  · exact Draws.refl _ _ _

theorem fetchEntry_ne_none {endOf : ℕ → ℕ} (va pte pteEnd : ℕ) (hfresh : table.Fresh)
    (hsupply : s.supply ≠ []) : fetchEntry endOf va pte pteEnd table s ≠ none := by
  have hsome : (pgtGetMappedPteAddr table va s).isSome := by
    simp only [pgtGetMappedPteAddr]
    split_ifs
    · rw [isSome_map]
      exact pgtMapNewPdeEntry_isSome _ _ hfresh.1 hsupply
    · rfl
  unfold fetchEntry
  split_ifs
  · rw [ne_eq, map_eq_none_iff, ← ne_eq, ← isSome_iff_ne_none]
    exact hsome
  · simp

theorem Draws.mapEntry {n : ℕ} (h : Draws n s s' table table') (pte page base : ℕ) :
    Draws n s (Pgt.mapEntry s' pte page base) table table' :=
  ⟨h.supply, h.bound, h.tables, h.fresh⟩

/-- A loop over pages takes at most one page for a table with each page. -/
theorem mapPages_draws (endOf next fetchVa vas : ℕ → ℕ) (list : List ℕ) (j pte pteEnd : ℕ)
    (table : TaskPageTable) (s : Frames) :
    Draws list.length s (mapPages endOf next fetchVa vas list j pte pteEnd table s).2.2 table
      (mapPages endOf next fetchVa vas list j pte pteEnd table s).2.1 := by
  induction list generalizing j pte pteEnd table s with
  | nil => exact Draws.refl _ _ _
  | cons page list ih =>
    rw [mapPages]
    cases hfetch : fetchEntry endOf (fetchVa j) pte pteEnd table s with
    | none => exact Draws.refl _ _ _
    | some res =>
      obtain ⟨pte', pteEnd', table', s'⟩ := res
      rw [length_cons, Nat.add_comm]
      exact ((fetchEntry_draws hfetch).mapEntry pte' page (vas j)).trans (ih _ _ _ _ _)

/-- With enough free frames a loop over pages succeeds. -/
theorem mapPages_succeeds {endOf next fetchVa vas : ℕ → ℕ} (j pte pteEnd : ℕ)
    (hfresh : table.Fresh) (hlen : list.length ≤ s.supply.length) :
    (mapPages endOf next fetchVa vas list j pte pteEnd table s).1 = 0 := by
  induction list generalizing j pte pteEnd table s with
  | nil => rfl
  | cons page list ih =>
    rw [length_cons] at hlen
    rw [mapPages]
    cases hfetch : fetchEntry endOf (fetchVa j) pte pteEnd table s with
    | none =>
      have hsupply : s.supply ≠ [] := ne_nil_of_length_pos (by omega)
      exact absurd hfetch (fetchEntry_ne_none _ _ _ hfresh hsupply)
    | some res =>
      obtain ⟨pte', pteEnd', table', s'⟩ := res
      have hdraws := (fetchEntry_draws hfetch).mapEntry pte' page (vas j)
      have hbound := hdraws.bound
      exact ih _ _ _ (hdraws.fresh hfresh) (by omega)

/-- `pgt_map_task_memory` is one of the two loops. -/
theorem pgtMapTaskMemory_eq {mapBase : ℕ} (type : MapType) (hbase : mapBase ≠ 0) :
    ∃ endOf next fetchVa vas, pgtMapTaskMemory table list mapBase type s =
      mapPages endOf next fetchVa vas list 0 0 0 table s := by
  cases type with
  | normal =>
    have hloop := mapNormalLoop_eq mapBase list 0 0 0 table s
    exact ⟨_, _, _, _, (if_neg hbase).trans hloop⟩
  | stack =>
    have hloop := mapStackLoop_eq mapBase list 0 0 0 table s
    exact ⟨_, _, _, _, (if_neg hbase).trans hloop⟩

/-- `pgt_map_task_memory` takes at most one page for a table with each page. -/
theorem pgtMapTaskMemory_draws (table : TaskPageTable) (list : List ℕ) (mapBase : ℕ)
    (type : MapType) (s : Frames) :
    Draws list.length s (pgtMapTaskMemory table list mapBase type s).2.2 table
      (pgtMapTaskMemory table list mapBase type s).2.1 := by
  by_cases hbase : mapBase = 0
  · cases type <;>
      simpa only [pgtMapTaskMemory, pgtMapNormalMemory, pgtMapStackMemory, if_pos hbase] using
        Draws.refl _ s table
  · obtain ⟨endOf, next, fetchVa, vas, hloop⟩ := pgtMapTaskMemory_eq type hbase
    rw [hloop]
    exact mapPages_draws _ _ _ _ _ _ _ _ _ _

theorem pgtMapTaskMemory_succeeds {mapBase : ℕ} (type : MapType) (hbase : mapBase ≠ 0)
    (hfresh : table.Fresh) (hlen : list.length ≤ s.supply.length) :
    (pgtMapTaskMemory table list mapBase type s).1 = 0 := by
  obtain ⟨endOf, next, fetchVa, vas, hloop⟩ := pgtMapTaskMemory_eq type hbase
  rw [hloop]
  exact mapPages_succeeds _ _ _ hfresh hlen

end Chunos.Pgt
