import Chunos.Mm.PgtMmap

/-!
# Runs of calls on a page table

The functions that map and unmap pages of a task keep its tables in order: the frames of the
tables are different from each other and from the frames to come, and every entry is empty or
present. So what `pgt_map_task_memory` does to the translations is known for every table, also
for one that uses its frames again. An empty entry reads as physical address 0, and the
functions that look a page up take it for the page at that address when there is one.
-/

namespace Chunos.Pgt

open List Option

open Bank (Section)
open Runs Function

/-- The frames that can become tables. -/
def TaskPageTable.pool (table : TaskPageTable) (s : Frames) : List ℕ :=
  table.taskList.cached ++ (table.mmapList.cached ++ s.supply)

/-- The frame is a table, or it can become one. -/
def TableFrame (s : Frames) (table : TaskPageTable) (dir : ℕ → Option ℕ) (f : ℕ) : Prop :=
  (∃ i, dir i = some f) ∨ f ∈ table.pool s

/-- A page table between two calls. The frames that can become tables belong to nobody. The kernel
can reach the tables, which are `found`, and the `pages` of the user are none of them. Each entry of
a table is empty or present. -/
structure Kept (found pages : ℕ → Prop) (s : Frames) (table : TaskPageTable)
    (dir : ℕ → Option ℕ) (own : ℕ → Prop) : Prop where
  directory : Directory s.word table.pdeBase dir own
  taskCached : table.taskList.pteFreeSize = pageSize * table.taskList.cached.length
  mmapCached : table.mmapList.pteFreeSize = pageSize * table.mmapList.cached.length
  fresh : ∀ f ∈ table.pool s, ¬ own f ∧ 0 < f ∧ f + 1 < 2 ^ 20
  nodup : (table.pool s).Nodup
  kernel : ∀ f, TableFrame s table dir f → found f ∧ s.mapAddress f = pageToPa f
  user : ∀ p, pages p → ¬ TableFrame s table dir p
  entries : ∀ i f, dir i = some f → ∀ j < 1024, s.word (pageSize * f + 4 * j) = 0 ∨
    (s.word (pageSize * f + 4 * j)).testBit 0 = true

variable {secs : List Section} {found pages : ℕ → Prop} {s s' : Frames}
  {table table' : TaskPageTable} {dir : ℕ → Option ℕ} {own : ℕ → Prop}
  {clist clist' : PteCacheList} {list rest : List ℕ}

variable {page va f : ℕ}

section
variable (h : Kept found pages s table dir own)
include h

/-- A frame of the pool becomes a table, which maps nothing. -/
theorem Kept.newTable (hva : va < kernelVirtualBase) (hnone : dir (va / pdeMapSize) = none)
    (hsize : clist.pteFreeSize = pageSize * clist.cached.length)
    (hpool : (table.pool s).Perm (rest ++ upcoming clist s))
    (hnew : pgtMapNewPdeEntry clist table.pdeBase va s = some (page, clist', s'))
    (hbase : table'.pdeBase = table.pdeBase)
    (htask : table'.taskList.pteFreeSize = pageSize * table'.taskList.cached.length)
    (hmmap : table'.mmapList.pteFreeSize = pageSize * table'.mmapList.cached.length)
    (hpool' : (table'.pool s').Perm (rest ++ upcoming clist' s')) :
    Kept found pages s' table' (update dir (va / pdeMapSize) (some page))
        (fun f => own f ∨ f = page) ∧
      ∀ va', lookup s'.word (update dir (va / pdeMapSize) (some page)) va' =
        lookup s.word dir va' := by
  obtain ⟨hnext, -, -, hword, hmap⟩ := pgtMapNewPdeEntry_next hsize hva hnew
  obtain ⟨hdirectory, hlookup, hfresh, hnodup⟩ := h.directory.draw rest hva hnone hsize
    (fun f hf => h.fresh f (hpool.mem_iff.mpr hf)) (hpool.nodup_iff.mp h.nodup) hnew
  have hmem : ∀ f, f = page ∨ f ∈ table'.pool s' → f ∈ table.pool s := by
    intro f hf
    rw [hpool.mem_iff, hnext, perm_middle.mem_iff, mem_cons]
    exact hf.imp_right hpool'.mem_iff.mp
  have hframe : ∀ f, TableFrame s' table' (update dir (va / pdeMapSize) (some page)) f →
      TableFrame s table dir f := by
    rintro f (⟨i, hi⟩ | hf)
    · obtain ⟨-, rfl⟩ | ⟨-, hi⟩ := update_eq_some_iff.mp hi
      · exact Or.inr (hmem page (Or.inl rfl))
      · exact Or.inl ⟨i, hi⟩
    · exact Or.inr (hmem f (Or.inr hf))
  refine ⟨⟨hbase ▸ hdirectory, htask, hmmap, fun f hf => hfresh f (hpool'.mem_iff.mp hf),
    hpool'.nodup_iff.mpr hnodup, ?_, fun p hp hf => h.user p hp (hframe p hf), ?_⟩, hlookup⟩
  · rw [hmap]
    exact fun f hf => h.kernel f (hframe f hf)
  · intro i f hi j hj
    obtain ⟨d, hd, hown, hdir⟩ := h.directory.base
    have hpage := (h.fresh page (hmem page (Or.inl rfl))).1
    have hlt := div_pdeMapSize_lt hva
    rw [hword, hd]
    obtain ⟨-, rfl⟩ | ⟨-, hold⟩ := update_eq_some_iff.mp hi
    · refine Or.inl (newTable_entry (by omega) hj ?_)
      rintro rfl
      exact hpage hown
    · rw [newTable_of_ne (by omega) (by rw [pageSize]; omega)]
      · exact h.entries i f hold j hj
      · rintro rfl
        exact hpage (h.directory.frame i f hold).1
      · rintro rfl
        exact hdir i hold

/-- An entry of a table is written. -/
theorem Kept.write {entry : ℕ} (hdir : dir (va / pdeMapSize) = some f)
    (hentry : entry = 0 ∨ entry.testBit 0 = true)
    (hword : s'.word = update s.word (pageSize * f + 4 * (va % pdeMapSize / pageSize)) entry)
    (hsupply : s'.supply = s.supply)
    (hmap : ∀ g, TableFrame s table dir g → s'.mapAddress g = s.mapAddress g) :
    Kept found pages s' table dir own := by
  have hpool : table.pool s' = table.pool s := by rw [TaskPageTable.pool, hsupply]; rfl
  have hframe : ∀ g, TableFrame s' table dir g ↔ TableFrame s table dir g := by
    intro g
    rw [TableFrame, hpool]
    rfl
  refine ⟨?_, h.taskCached, h.mmapCached, ?_, ?_, ?_, ?_, ?_⟩
  · rw [hword]
    exact h.directory.write hdir entry
  · rw [hpool]
    exact h.fresh
  · rw [hpool]
    exact h.nodup
  · intro g hg
    rw [hframe] at hg
    rw [hmap g hg]
    exact h.kernel g hg
  · intro p hp
    rw [hframe]
    exact h.user p hp
  · intro i g hg j hj
    rw [hword]
    by_cases hsame : pageSize * g + 4 * j = pageSize * f + 4 * (va % pdeMapSize / pageSize)
    · rw [hsame, update_self]
      exact hentry
    · rw [update_of_ne hsame]
      exact h.entries i g hg j hj

theorem Kept.mapEntry {pte : ℕ} (hdir : dir (va / pdeMapSize) = some f)
    (hpage : pages page) (base : ℕ)
    (hpte : pte = pageSize * f + 4 * (va % pdeMapSize / pageSize)) :
    Kept found pages (mapEntry s pte page base) table dir own ∧
      ∀ va', lookup (mapEntry s pte page base).word dir va' =
        if va' / pageSize = va / pageSize then some page else lookup s.word dir va' := by
  have hword := mapEntry_word s va f page base hpte
  refine ⟨h.write hdir (Or.inr (entry_testBit page)) hword rfl fun g hg => ?_, fun va' => ?_⟩
  · have hne : g ≠ page := by
      rintro rfl
      exact h.user g hpage hg
    exact update_of_ne hne _ _
  · rw [hword]
    exact h.directory.lookup_write hdir page va'

theorem Kept.newTaskTable (hva : va < kernelVirtualBase) (hnone : dir (va / pdeMapSize) = none)
    (hnew : pgtMapNewPdeEntry table.taskList table.pdeBase va s = some (page, clist, s')) :
    Kept found pages s' { table with taskList := clist }
        (update dir (va / pdeMapSize) (some page)) (fun f => own f ∨ f = page) ∧
      ∀ va', lookup s'.word (update dir (va / pdeMapSize) (some page)) va' =
        lookup s.word dir va' :=
  h.newTable hva hnone h.taskCached (perm_append_comm_assoc _ _ _) hnew rfl
    (pgtMapNewPdeEntry_next h.taskCached hva hnew).2.1 h.mmapCached (perm_append_comm_assoc _ _ _)

end

theorem maps_kept : Maps pages (Kept found pages)
    (fun _ _ table table' _ _ => table'.pdeBase = table.pdeBase) where
  refl _ _ _ := rfl
  trans h h' := h'.trans h
  frame h hdir := (h.directory.frame _ _ hdir).2
  mapEntry _ h hdir hpage base hpte := by
    obtain ⟨hkept, hlookup⟩ := h.mapEntry hdir hpage base hpte
    exact ⟨hkept, rfl, hlookup⟩
  getMapped h hva hget := by
    obtain ⟨f, hpte, ⟨clist, hdir, hnew, rfl⟩ | ⟨hdir, rfl, rfl⟩⟩ :=
      h.directory.getMapped_cases hva hget
    · obtain ⟨hkept, hlookup⟩ := h.newTaskTable hva hdir hnew
      exact ⟨_, _, f, hkept, rfl, hlookup, update_self _ _ _, hpte⟩
    · exact ⟨_, _, f, h, rfl, fun _ => rfl, hdir, hpte⟩

/-- A stack is mapped in order below the end of user memory, and no other address changes its
translation. -/
theorem pgtMapTaskMemory_stack (h : Kept found pages s table dir own)
    (hpages : ∀ p ∈ list, pages p) (hlen : list.length * pageSize < 2 ^ 31)
    (hmap : pgtMapTaskMemory table list kernelVirtualBase .stack s = (0, table', s')) :
    (∀ i p, list[i]? = some p →
        translate s'.word table'.pdeBase (kernelVirtualBase - (i + 1) * pageSize) = some p) ∧
      ∀ va < kernelVirtualBase - list.length * pageSize,
        translate s'.word table'.pdeBase va = translate s.word table.pdeBase va := by
  simp only [pageSize] at hlen
  obtain ⟨dir', own', h', hbase, hlookup⟩ :=
    maps_kept.pgtMapStackMemory hpages (by omega) h hmap
  obtain ⟨hmapped, hsame⟩ := hlookup rfl
  refine ⟨fun i p hi => ?_, fun va hva => ?_⟩
  · have hva : kernelVirtualBase - (i + 1) * pageSize = pageSize * (2 ^ 19 - 1 - i) := by
      simp only [kernelVirtualBase, pageSize]
      omega
    rw [hva, h'.directory.translate_eq (by simp only [kernelVirtualBase, pageSize]; omega),
      hmapped i p hi]
  · simp only [kernelVirtualBase, pageSize] at hva
    have huser : va < kernelVirtualBase := by
      simp only [kernelVirtualBase]
      omega
    rw [h'.directory.translate_eq huser, h.directory.translate_eq huser]
    refine hsame va fun j hj => ?_
    simp only [pageSize]
    omega

/-- Other lists of pages are mapped in order above their base exactly when they end before the next
multiple of 256 pages. Longer ones are started again at the base. -/
theorem pgtMapTaskMemory_normal_iff (h : Kept found pages s table dir own)
    (hpages : ∀ p ∈ list, pages p) (hnodup : list.Nodup) {b : ℕ} (hb : 0 < b ∧ b < 2 ^ 19)
    (hend : pageSize * b + list.length * pageSize ≤ kernelVirtualBase)
    (hmap : pgtMapTaskMemory table list (pageSize * b) .normal s = (0, table', s')) :
    ((∀ i p, list[i]? = some p →
        translate s'.word table'.pdeBase (pageSize * b + i * pageSize) = some p) ∧
      ∀ va < kernelVirtualBase, va < pageSize * b ∨ pageSize * b + list.length * pageSize ≤ va →
        translate s'.word table'.pdeBase va = translate s.word table.pdeBase va) ↔
      list.length ≤ normalRoom (pageSize * b) := by
  obtain ⟨dir', own', h', hbase, hlookup⟩ := maps_kept.pgtMapNormalMemory hpages hb.2 h hmap
  obtain ⟨hsame, hmapped⟩ := hlookup rfl
  have hroom : 0 < normalRoom (pageSize * b) := by
    rw [normalRoom]
    omega
  generalize normalRoom (pageSize * b) = room at hsame hmapped hroom ⊢
  simp only [kernelVirtualBase, pageSize] at hend
  have hmapped' : ∀ j p, list[j]? = some p → (∀ i, j < i → i < list.length → j % room ≠ i % room) →
      translate s'.word table'.pdeBase (pageSize * b + j % room * pageSize) = some p := by
    intro j p hj hlast
    have hlt := (List.getElem?_eq_some_iff.mp hj).1
    have hle := Nat.mod_le j room
    have huser : pageSize * (b + j % room) < kernelVirtualBase := by
      simp only [kernelVirtualBase, pageSize]
      omega
    rw [Nat.mul_comm _ pageSize, ← Nat.mul_add, h'.directory.translate_eq huser]
    exact hmapped j p hj hlast
  constructor
  · -- The first page has been replaced by the last one that is put at the base.
    rintro ⟨hall, -⟩
    by_contra hlong
    have hdiv := Nat.div_add_mod (list.length - 1) room
    have hmod := Nat.mod_lt (list.length - 1) hroom
    have hquot : 0 < (list.length - 1) / room := Nat.div_pos (by omega) hroom
    generalize (list.length - 1) / room = q at hdiv hquot
    have hlast : room * q < list.length := by omega
    have hfirst : 0 < list.length := by omega
    have hput := hmapped' (room * q) _ (getElem?_eq_getElem hlast) fun i hi hlt => by
      obtain ⟨k, rfl⟩ := Nat.exists_eq_add_of_lt hi
      rw [Nat.mul_mod_right, Nat.add_assoc, Nat.mul_add_mod, Nat.mod_eq_of_lt (by omega)]
      omega
    have hzero := hall 0 _ (getElem?_eq_getElem hfirst)
    rw [Nat.mul_mod_right, hzero, some.injEq, hnodup.getElem_inj_iff] at hput
    have hpos := Nat.mul_pos hroom hquot
    omega
  · intro hle
    have hmod : ∀ j < list.length, j % room = j := fun j hj => Nat.mod_eq_of_lt (hj.trans_le hle)
    refine ⟨fun i p hi => ?_, fun va hva hout => ?_⟩
    · have hlt := (List.getElem?_eq_some_iff.mp hi).1
      have hput := hmapped' i p hi fun k hik hk => by
        rw [hmod i hlt, hmod k hk]
        exact hik.ne
      rwa [hmod i hlt] at hput
    · rw [h'.directory.translate_eq hva, h.directory.translate_eq hva]
      refine hsame va fun j hj => ?_
      rw [hmod j hj]
      simp only [pageSize] at hout ⊢
      omega

/-- The tables of the kernel can be found in its sections. -/
def Found (secs : List Section) (f : ℕ) : Prop := Allocated secs f ∧ ¬ AtTop secs f

/-- Such a table is ready for `pgt_map_task_page`. -/
theorem Kept.taskReady (h : Kept (Found secs) pages s table dir own) :
    TaskReady secs s table dir own := by
  have hsub : (upcoming table.taskList s).Sublist (table.pool s) :=
    (sublist_append_right _ _).append_left _
  refine ⟨h.directory, h.taskCached, fun f hf => ?_, h.nodup.sublist hsub, fun f hf => ?_⟩
  · obtain ⟨hown, hpos, -⟩ := h.fresh f (hsub.subset hf)
    exact ⟨hown, hpos⟩
  · obtain ⟨⟨halloc, htop⟩, hmap⟩ := h.kernel f (hf.imp_right fun hf => hsub.subset hf)
    exact ⟨halloc, htop, hmap⟩

/-- Between two calls the table that a directory entry names is the page that `pgt_get_pte_page`
finds for it, so the calls for `mmap` can be modelled without `pa_to_page` and `page_to_va`. -/
theorem Kept.pgtGetPteAddr_eq (hsecs : MemoryMap secs) (h : Kept (Found secs) pages s table dir own)
    {va : ℕ} (hva : va < kernelVirtualBase) :
    pgtGetPteAddr secs table.pdeBase va s =
      some (if pdeEntryToPa (s.word (pgtGetPdeEntryAddr table.pdeBase va)) = 0 then 0
        else pgtGetPteEntryAddr (pdeEntryToPa (s.word (pgtGetPdeEntryAddr table.pdeBase va))) va) := by
  have hready := h.taskReady
  unfold pgtGetPteAddr
  rw [h.directory.pde_eq hva]
  cases hdir : dir (va / pdeMapSize) with
  | none => rfl
  | some f =>
    have hne := h.directory.table_ne_zero hdir
    simp only [elim_some, hne, if_false, hready.paToPage_table hsecs hdir, map_some,
      hready.pageToVa_eq hsecs (Or.inl ⟨_, hdir⟩)]

/-- The calls that map and unmap pages. -/
inductive PgtCall where
  | task (page va : ℕ)
  | memory (list : List ℕ) (base : ℕ) (type : MapType)
  | mmap (page va : ℕ)
  | unmap (va : ℕ)

/-- A call, which may also fail. -/
def pgtStep (secs : List Section) (call : PgtCall) (state : TaskPageTable × Frames) :
    Option (TaskPageTable × Frames) :=
  match call with
  | .task page va => (pgtMapTaskPage secs state.1 page va state.2).map Prod.snd
  | .memory list base type => some (pgtMapTaskMemory state.1 list base type state.2).2
  | .mmap page va => some (pgtMapMmapPage state.1 page va state.2).2
  | .unmap va => some (state.1, (pgtUnmapMmapPage secs state.1 va state.2).2)

/-- The call is about pages of the user and user addresses. A stack starts at the end of user
memory, and other lists at the start of a page. -/
def PgtCall.Legal (pages : ℕ → Prop) : PgtCall → Prop
  | .task page va | .mmap page va => pages page ∧ va < kernelVirtualBase
  | .memory list base .normal => (∀ p ∈ list, pages p) ∧ ∃ b < 2 ^ 19, base = pageSize * b
  | .memory list base .stack =>
    (∀ p ∈ list, pages p) ∧ list.length ≤ 2 ^ 19 ∧ base = kernelVirtualBase
  | .unmap va => va < kernelVirtualBase

/-- Every call keeps the table in order. -/
theorem Kept.step (hsecs : MemoryMap secs) (h : Kept (Found secs) pages s table dir own)
    {call : PgtCall} (hcall : call.Legal pages)
    (hstep : pgtStep secs call (table, s) = some (table', s')) :
    ∃ dir' own', Kept (Found secs) pages s' table' dir' own' := by
  cases call with
  | task page va =>
    obtain ⟨hpage, hva⟩ := hcall
    simp only [pgtStep, pgtMapTaskPage, h.taskReady.pgtFindMappedPteAddr_eq hsecs hva, map_some,
      some.injEq] at hstep
    cases hget : pgtGetMappedPteAddr table va s with
    | none =>
      simp only [hget] at hstep
      cases hstep
      exact ⟨dir, own, h⟩
    | some res =>
      obtain ⟨pte, table₁, s₁⟩ := res
      obtain ⟨dir', own', f, hkept, -, -, hdir, hpte⟩ := maps_kept.getMapped h hva hget
      simp only [hget] at hstep
      split_ifs at hstep with hzero
      · cases hstep
        exact ⟨dir', own', hkept⟩
      · cases hstep
        exact ⟨dir', own', (hkept.mapEntry hdir hpage va hpte).1⟩
  | memory list base type =>
    obtain ⟨⟨ret, table₁, s₁⟩, hmap⟩ : ∃ res, pgtMapTaskMemory table list base type s = res :=
      ⟨_, rfl⟩
    simp only [pgtStep, hmap] at hstep
    cases hstep
    cases type with
    | normal =>
      obtain ⟨hpages, b, hb, rfl⟩ := hcall
      obtain ⟨dir', own', hkept, -⟩ := maps_kept.pgtMapNormalMemory hpages hb h hmap
      exact ⟨dir', own', hkept⟩
    | stack =>
      obtain ⟨hpages, hlen, rfl⟩ := hcall
      obtain ⟨dir', own', hkept, -⟩ := maps_kept.pgtMapStackMemory hpages hlen h hmap
      exact ⟨dir', own', hkept⟩
  | mmap page va =>
    obtain ⟨hpage, hva⟩ := hcall
    obtain ⟨⟨ret, table₁, s₁⟩, hmap⟩ : ∃ res, pgtMapMmapPage table page va s = res := ⟨_, rfl⟩
    simp only [pgtStep, hmap] at hstep
    cases hstep
    obtain ⟨-, -, -, rfl, rfl⟩ | ⟨f, clist, s₂, hdir, hnew, rfl, rfl⟩ | ⟨f, hdir, rfl, rfl⟩ :=
      h.directory.pgtMapMmapPage_cases hva hmap
    · exact ⟨dir, own, h⟩
    · have hbase : TaskPageTable.pdeBase { table with mmapList := clist } = table.pdeBase := rfl
      obtain ⟨hkept, -⟩ := h.newTable hva hdir h.mmapCached (.refl _) hnew hbase h.taskCached
        (pgtMapNewPdeEntry_next h.mmapCached hva hnew).2.1 (.refl _)
      exact ⟨_, _, (hkept.mapEntry (update_self _ _ _) hpage va rfl).1⟩
    · exact ⟨dir, own, (h.mapEntry hdir hpage va rfl).1⟩
  | unmap va =>
    simp only [pgtStep, pgtUnmapMmapPage, h.directory.pde_eq hcall] at hstep
    cases hstep
    cases hdir : dir (va / pdeMapSize) with
    | none =>
      simp only [elim_none, if_true]
      exact ⟨dir, own, h⟩
    | some f =>
      simp only [elim_some, if_neg (h.directory.table_ne_zero hdir), pgtGetPteEntryAddr_eq]
      exact ⟨dir, own, h.write hdir (Or.inl rfl) rfl rfl fun _ _ => rfl⟩

theorem Kept.run (hsecs : MemoryMap secs) (h : Kept (Found secs) pages s table dir own)
    {calls : List PgtCall} (hcalls : ∀ c ∈ calls, c.Legal pages)
    (hrun : run (pgtStep secs) calls (table, s) = some (table', s')) :
    ∃ dir' own', Kept (Found secs) pages s' table' dir' own' := by
  have hstep : ∀ (c : PgtCall) (state state' : TaskPageTable × Frames),
      (∃ dir own, Kept (Found secs) pages state.2 state.1 dir own) → c.Legal pages →
      pgtStep secs c state = some state' →
      ∃ dir own, Kept (Found secs) pages state'.2 state'.1 dir own := by
    rintro c state state' ⟨_, _, hkept⟩ hcall hstep
    exact hkept.step hsecs hcall hstep
  exact invariant_of_meets hstep ⟨dir, own, h⟩ (meets_of_forall (fun c hc _ => hcalls c hc) _) hrun

/-- After every run of calls, `pgt_get_task_page` and `pgt_unmap_mmap_page` return `NULL` for an
address that is not mapped exactly when there is no table for it, or there is no page at physical
address 0. -/
theorem pgtCalls_unmapped_null_iff (hsecs : MemoryMap secs)
    (h : Kept (Found secs) pages s table dir own) {calls : List PgtCall}
    (hcalls : ∀ c ∈ calls, c.Legal pages)
    (hrun : run (pgtStep secs) calls (table, s) = some (table', s')) {va : ℕ}
    (hva : va < kernelVirtualBase) (hnone : translate s'.word table'.pdeBase va = none) :
    (pgtGetTaskPage secs table' va s' = some none ∧ (pgtUnmapMmapPage secs table' va s').1 = none) ↔
      s'.word (pgtGetPdeEntryAddr table'.pdeBase va) = 0 ∨ paToPage secs 0 = none := by
  obtain ⟨dir', own', h'⟩ := h.run hsecs hcalls hrun
  have hlt := div_pdeMapSize_lt hva
  have hpde := h'.directory.pde_eq hva
  cases hdir : dir' (va / pdeMapSize) with
  | none =>
    have hzero : s'.word (pgtGetPdeEntryAddr table'.pdeBase va) = 0 := by
      rw [pgtGetPdeEntryAddr_eq, h'.directory.absent _ hlt hdir]
    have hpa : pdeEntryToPa 0 = 0 := rfl
    simp [pgtGetTaskPage, pgtGetPteAddr, pgtUnmapMmapPage, hzero, hpa]
  | some f =>
    have hne := h'.directory.table_ne_zero hdir
    have hpresent : s'.word (pgtGetPdeEntryAddr table'.pdeBase va) ≠ 0 := by
      rw [pgtGetPdeEntryAddr_eq, h'.directory.present _ f hlt hdir]
      omega
    have haddr : pageSize * f + 4 * (va % pdeMapSize / pageSize) ≠ 0 := by omega
    have hentry : s'.word (pageSize * f + 4 * (va % pdeMapSize / pageSize)) = 0 := by
      rw [h'.directory.translate_eq hva, lookup, hdir, bind_some] at hnone
      refine (h'.entries _ f hdir _ (pte_index_lt va)).resolve_right fun hpresent => ?_
      simp [hpresent] at hnone
    have hpa : pteEntryToPa 0 = 0 := rfl
    simp only [pgtGetTaskPage, pgtGetPteAddr, pgtUnmapMmapPage, hpde, hdir, elim_some,
      if_neg hne, h'.taskReady.paToPage_table hsecs hdir, map_some,
      h'.taskReady.pageToVa_eq hsecs (Or.inl ⟨_, hdir⟩), pgtGetPteEntryAddr_eq, if_neg haddr,
      hentry, hpa, some.injEq, and_self, hpresent, false_or]

/-- The memory of the sofia board, which starts at physical address 0. -/
def svbBoard : Bank.SocMemoryInfo where
  codeEnd := 0x80100000
  kernelPhysicalStart := 0
  region := [⟨0, 256 * 2 ^ 20, .normal⟩, ⟨0x10000000, 768 * 2 ^ 20, .normal⟩]

/-- The sections of this board, with the fields that `pa_to_page` reads. -/
def svbSections : List Section :=
  [{ phyStart := 0, size := 2 ^ 28 }, { phyStart := 2 ^ 28, size := 704 * 2 ^ 20 },
    { phyStart := 960 * 2 ^ 20, size := 2 ^ 26 }]

theorem newTask_kept : Kept (Found svbSections) (0x500 ≤ ·) newTask.2 newTask.1 (fun _ => none)
    (· = 0x400) := by
  have hfound : ∀ f ∈ [0x402, 0x403], Allocated svbSections f ∧ ¬ AtTop svbSections f := by
    decide
  have hframe : ∀ f, TableFrame newTask.2 newTask.1 (fun _ => none) f → f ∈ [0x402, 0x403] := by
    rintro f (⟨i, hi⟩ | hf)
    · exact absurd hi nofun
    · exact hf
  refine ⟨newTask_ready.directory, rfl, rfl, ?_, ?_, ?_, ?_, nofun⟩
  · decide
  · decide
  · exact fun f hf => ⟨hfound f (hframe f hf), rfl⟩
  · intro p hp hf
    have hlt : ∀ f ∈ [0x402, 0x403], f < 0x500 := by decide
    exact absurd (hlt p (hframe p hf)) (not_lt.mpr hp)

/-- Both functions return `NULL` for an address without a table. -/
theorem pgtCalls_unmapped_null_iff_newTask :
    ∃ table' s', run (pgtStep svbSections) [.task 0x500 0x1000] newTask = some (table', s') ∧
      pgtGetTaskPage svbSections table' 0x400000 s' = some none ∧
      (pgtUnmapMmapPage svbSections table' 0x400000 s').1 = none := by
  have hlegal : ∀ c ∈ [PgtCall.task 0x500 0x1000], c.Legal (0x500 ≤ ·) := by
    simp [PgtCall.Legal, kernelVirtualBase]
  obtain ⟨⟨table', s'⟩, hrun, hnone, hpde⟩ :
      ∃ x, run (pgtStep svbSections) [.task 0x500 0x1000] newTask = some x ∧
        translate x.2.word x.1.pdeBase 0x400000 = none ∧
        x.2.word (pgtGetPdeEntryAddr x.1.pdeBase 0x400000) = 0 := by
    decide +kernel
  exact ⟨table', s', hrun, (pgtCalls_unmapped_null_iff
    ⟨by decide, by decide, by decide⟩ newTask_kept hlegal hrun (by decide) hnone).mpr (Or.inl hpde)⟩

/-- With a page at 0x1000, both functions return page 0 for the address 0x2000, which is not
mapped. -/
theorem svbBoard_unmapped_not_null :
    (∃ bank, Bank.mmInit 0 svbBoard (fun _ => 0) (fun _ => Bank.zeroPage) = some bank ∧
      (Bank.sections bank.zone).map Section.span = svbSections.map Section.span) ∧
    Kept (Found svbSections) (0x500 ≤ ·) newTask.2 newTask.1 (fun _ => none) (· = 0x400) ∧
    (PgtCall.task 0x500 0x1000).Legal (0x500 ≤ ·) ∧
    ∃ table' s', run (pgtStep svbSections) [.task 0x500 0x1000] newTask = some (table', s') ∧
      translate s'.word table'.pdeBase 0x2000 = none ∧
      pgtGetTaskPage svbSections table' 0x2000 s' = some (some 0) ∧
      (pgtUnmapMmapPage svbSections table' 0x2000 s').1 = some 0 := by
  obtain ⟨⟨table', s'⟩, hrun, hstate⟩ :
      ∃ x, run (pgtStep svbSections) [.task 0x500 0x1000] newTask = some x ∧
        translate x.2.word x.1.pdeBase 0x2000 = none ∧
        pgtGetTaskPage svbSections x.1 0x2000 x.2 = some (some 0) ∧
        (pgtUnmapMmapPage svbSections x.1 0x2000 x.2).1 = some 0 := by
    decide +kernel
  exact ⟨by decide +kernel, newTask_kept, by simp [PgtCall.Legal, kernelVirtualBase], table', s',
    hrun, hstate⟩

/-- Two pages are mapped at the end of user memory. -/
theorem pgtMapTaskMemory_stack_two :
    ∃ table' s', pgtMapTaskMemory newTask.1 [0x500, 0x501] kernelVirtualBase .stack newTask.2 =
        (0, table', s') ∧ translate s'.word table'.pdeBase 0x7fffe000 = some 0x501 := by
  have hret : (pgtMapTaskMemory newTask.1 [0x500, 0x501] kernelVirtualBase .stack newTask.2).1 =
      0 := by decide +kernel
  have hmap := Prod.ext hret (Eq.refl (pgtMapTaskMemory newTask.1 [0x500, 0x501] kernelVirtualBase
    .stack newTask.2).2)
  exact ⟨_, _, hmap, (pgtMapTaskMemory_stack newTask_kept (by decide) (by decide) hmap).1 1 0x501
    rfl⟩

/-- Two pages that end before the next multiple of 256 pages. -/
theorem pgtMapTaskMemory_normal_iff_two :
    ∃ table' s', pgtMapTaskMemory newTask.1 [0x500, 0x501] 0x1000 .normal newTask.2 =
        (0, table', s') ∧ translate s'.word table'.pdeBase 0x2000 = some 0x501 := by
  have hret : (pgtMapTaskMemory newTask.1 [0x500, 0x501] 0x1000 .normal newTask.2).1 = 0 := by
    decide +kernel
  have hmap := Prod.ext hret (Eq.refl (pgtMapTaskMemory newTask.1 [0x500, 0x501] (pageSize * 1)
    .normal newTask.2).2)
  exact ⟨_, _, hmap, ((pgtMapTaskMemory_normal_iff newTask_kept (by decide) (by decide) (by decide)
    (by decide) hmap).mpr (by decide)).1 1 0x501 rfl⟩

/-- The second page goes to the place of the first one, when that is the last before a multiple of
256 pages. -/
theorem pgtMapTaskMemory_overwrites :
    Kept (Found svbSections) (0x500 ≤ ·) newTask.2 newTask.1 (fun _ => none) (· = 0x400) ∧
    ∃ table' s', pgtMapTaskMemory newTask.1 [0x500, 0x501] 0xff000 .normal newTask.2 =
        (0, table', s') ∧ translate s'.word table'.pdeBase 0xff000 = some 0x501 ∧
      translate s'.word table'.pdeBase 0x100000 = none := by
  refine ⟨newTask_kept, _, _, Prod.ext (y := (0, _, _)) ?_ rfl, ?_, ?_⟩
  · decide +kernel
  · decide +kernel
  · decide +kernel

/-- The `i`-th page from `start`, on 32 bits. -/
def pageAt (start i : ℕ) : ℕ := (start + i * pageSize) % 2 ^ 32

/-- The entries of an address are empty or present, in the directory and in its table. -/
def EntryOk (word : ℕ → ℕ) (pdeBase va : ℕ) : Prop :=
  let pde := word (pgtGetPdeEntryAddr pdeBase va)
  let pte := word (pgtGetPteEntryAddr (pdeEntryToPa pde) va)
  pde = 0 ∨ pde.testBit 0 = true ∧ pdeEntryToPa pde ≠ 0 ∧ (pte = 0 ∨ pte.testBit 0 = true)

instance (word : ℕ → ℕ) (pdeBase va : ℕ) : Decidable (EntryOk word pdeBase va) :=
  inferInstanceAs (Decidable (_ ∨ _))

theorem Kept.entryOk (h : Kept found pages s table dir own) (hva : va < kernelVirtualBase) :
    EntryOk s.word table.pdeBase va := by
  have hlt := div_pdeMapSize_lt hva
  simp only [EntryOk, pgtGetPdeEntryAddr_eq]
  cases hdir : dir (va / pdeMapSize) with
  | none => exact Or.inl (h.directory.absent _ hlt hdir)
  | some f =>
    right
    rw [h.directory.present _ f hlt hdir, pgtGetPteEntryAddr_eq,
      pdeEntryToPa_entry (Nat.lt_of_succ_lt (h.directory.frame _ f hdir).2.2)]
    exact ⟨entry_testBit f, h.directory.table_ne_zero hdir, h.entries _ f hdir _ (pte_index_lt va)⟩

/-- The loop of `pgt_check_mmap_addr` gives the right answer, unless it gets to a page without a
table before it has found a mapped one. Then it reads through a null pointer. -/
theorem checkMmapLoop_cases {pdeBase start nr : ℕ} (hstart : start < 2 ^ 32)
    (hok : ∀ i < nr, EntryOk s.word pdeBase (pageAt start i)) :
    if ∀ i < nr, s.word (pgtGetPdeEntryAddr pdeBase (pageAt start i)) = 0 →
        ∃ j < i, translate s.word pdeBase (pageAt start j) ≠ none then
      ∃ ret, checkMmapLoop pdeBase s nr start = some ret ∧
        (ret = 0 ↔ ∀ i < nr, translate s.word pdeBase (pageAt start i) = none)
    else checkMmapLoop pdeBase s nr start = none := by
  induction nr generalizing start with
  | zero => simp [checkMmapLoop]
  | succ nr ih =>
    have hzero : pageAt start 0 = start := by
      rw [pageAt, Nat.zero_mul, Nat.add_zero, Nat.mod_eq_of_lt hstart]
    have hsucc : ∀ i, pageAt start (i + 1) = pageAt (nextPage start) i := by
      intro i
      rw [pageAt, pageAt, nextPage, Nat.mod_add_mod, Nat.add_mul, Nat.one_mul, Nat.add_assoc,
        Nat.add_comm pageSize]
    simp only [Nat.forall_lt_succ_left, Nat.exists_lt_succ_left, hzero, hsucc, Nat.not_lt_zero,
      false_and, exists_false, imp_false] at hok ⊢
    obtain ⟨hfirst, hrest⟩ := hok
    have hnext : nextPage start < 2 ^ 32 := Nat.mod_lt _ (by decide)
    have hrest := ih hnext hrest
    rw [checkMmapLoop]
    obtain habsent | ⟨hpresent, htable, hentry⟩ := hfirst
    · simp [habsent, pdeEntryToPa]
    have hpde : s.word (pgtGetPdeEntryAddr pdeBase start) ≠ 0 := by
      intro hpde
      simp [hpde] at hpresent
    rcases hentry with hentry | hentry
    · have hnone : translate s.word pdeBase start = none := by
        simp [translate, hpresent, hentry]
      simpa [htable, hentry, hpde, hnone] using hrest
    · have hsome : translate s.word pdeBase start ≠ none := by
        simp [translate, hpresent, hentry]
      have hne : s.word (pgtGetPteEntryAddr (pdeEntryToPa (s.word (pgtGetPdeEntryAddr pdeBase
          start))) start) ≠ 0 := by
        intro hne
        simp [hne] at hentry
      simp [htable, hne, hpde, hsome, enxio]

/-- `pgt_check_mmap_addr` looks at the directory entry of the first page only. If that is empty it
takes the whole range for free, and else it must not get to another empty one. -/
theorem pgtCheckMmapAddr_checks_iff {start nr : ℕ} (hstart : start < 2 ^ 32)
    (hok : ∀ i < nr, EntryOk s.word table.pdeBase (pageAt start i)) :
    (∃ ret, pgtCheckMmapAddr table start nr s = some ret ∧
        (ret = 0 ↔ ∀ i < nr, translate s.word table.pdeBase (pageAt start i) = none)) ↔
      if s.word (pgtGetPdeEntryAddr table.pdeBase start) = 0 then
        ∀ i < nr, translate s.word table.pdeBase (pageAt start i) = none
      else ∀ i < nr, s.word (pgtGetPdeEntryAddr table.pdeBase (pageAt start i)) = 0 →
        ∃ j < i, translate s.word table.pdeBase (pageAt start j) ≠ none := by
  unfold pgtCheckMmapAddr
  by_cases hpde : s.word (pgtGetPdeEntryAddr table.pdeBase start) = 0
  · simp [hpde]
  · have hloop := checkMmapLoop_cases hstart hok
    rw [if_neg hpde, if_neg hpde, Int.toNat_natCast]
    split_ifs at hloop with hsafe
    · exact ⟨fun _ => hsafe, fun _ => hloop⟩
    · simp only [hloop, reduceCtorEq, false_and, exists_false, false_iff]
      exact hsafe

/-- The theorem applies to three pages of a new task, which are free. -/
theorem pgtCheckMmapAddr_checks_iff_newTask :
    ∃ ret, pgtCheckMmapAddr newTask.1 0x1000 (3 : ℕ) newTask.2 = some ret ∧
      (ret = 0 ↔ ∀ i < 3, translate newTask.2.word newTask.1.pdeBase (pageAt 0x1000 i) = none) :=
  (pgtCheckMmapAddr_checks_iff (by decide) fun i hi => newTask_kept.entryOk
    (by simp only [pageAt, pageSize, kernelVirtualBase]; omega)).mpr
    (by decide +kernel)

/-- With a page at 0x400000, the page before it counts as free together with that page, and the
last page of that table cannot be checked together with the page behind it. -/
theorem pgtCheckMmapAddr_not_checked :
    ∃ table s, pgtMapMmapPage newTask.1 0x500 0x400000 newTask.2 = (0, table, s) ∧
      (∀ i < 2, EntryOk s.word table.pdeBase (pageAt 0x3ff000 i)) ∧
      pgtCheckMmapAddr table 0x3ff000 2 s = some 0 ∧
      translate s.word table.pdeBase (pageAt 0x3ff000 1) = some 0x500 ∧
      (∀ i < 2, EntryOk s.word table.pdeBase (pageAt 0x7ff000 i)) ∧
      pgtCheckMmapAddr table 0x7ff000 2 s = none := by
  refine ⟨_, _, Prod.ext (y := (0, _, _)) ?_ rfl, ?_, ?_, ?_, ?_, ?_⟩
  · decide +kernel
  · decide +kernel
  · decide +kernel
  · decide +kernel
  · decide +kernel
  · decide +kernel

end Chunos.Pgt
