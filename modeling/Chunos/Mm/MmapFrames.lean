import Chunos.Mm.TaskMmap

/-!
# The frames of a mapping

The loop of `task_mm_mmap` takes a frame from the supply for each page. When the directory
has no table for the page, `pgt_map_mmap_page` needs a frame for a table as well. It uses the
frames that are left in the list for `mmap` first, and then the supply. So the frame of each
page is known before the call.
-/

namespace Chunos.Pgt

open List Option

variable {s s' : Frames} {table table' : TaskPageTable} {dir dir' : ℕ → Option ℕ}
  {own own' : ℕ → Prop}

/-- A page table between two calls of `task_mm_mmap`: the frames to come belong to nobody. -/
structure MmapReady (s : Frames) (table : TaskPageTable) (dir : ℕ → Option ℕ)
    (own : ℕ → Prop) : Prop where
  directory : Directory s.word table.pdeBase dir own
  cached : table.mmapList.pteFreeSize = pageSize * table.mmapList.cached.length
  fresh : ∀ f ∈ upcoming table.mmapList s, ¬ own f ∧ 0 < f ∧ f + 1 < 2 ^ 20
  nodup : (upcoming table.mmapList s).Nodup

variable {clist : PteCacheList} {page pdeBase va first : ℕ} {word : ℕ → ℕ} {s₀ : Frames}

theorem allocNewPtePage_eq_none (hsize : clist.pteFreeSize = pageSize * clist.cached.length)
    (h : allocNewPtePage clist s = none) : clist.cached = [] ∧ s.supply = [] := by
  unfold allocNewPtePage requestPage at h
  by_cases hfree : clist.pteFreeSize = 0
  · rw [if_pos hfree, map_eq_none_iff] at h
    refine ⟨by rw [PteCacheList.cached, if_pos hfree], ?_⟩
    cases hsupply : s.supply with
    | nil => rfl
    | cons f supply => simp [hsupply] at h
  · rw [if_neg hfree, map_eq_none_iff, List.getElem?_eq_none_iff] at h
    have hnil : clist.cached = [] := by
      rw [PteCacheList.cached, if_neg hfree, drop_eq_nil_of_le h]
    rw [hnil, length_nil, Nat.mul_zero] at hsize
    exact absurd hsize hfree

/-- The tables that have to be added for an address. -/
def tablesFor (dir : ℕ → Option ℕ) (va : ℕ) : ℕ := if dir (va / pdeMapSize) = none then 1 else 0

/-- What mapping a page at `va` does to the frames to come and to the directory. -/
structure MmapStep (va : ℕ) (s s' : Frames) (table table' : TaskPageTable)
    (dir dir' : ℕ → Option ℕ) : Prop where
  pdeBase : table'.pdeBase = table.pdeBase
  spare : table'.mmapList.cached.length = table.mmapList.cached.length - tablesFor dir va
  supply : s'.supply = s.supply.drop (tablesFor dir va - table.mmapList.cached.length)
  enough : tablesFor dir va ≤ table.mmapList.cached.length + s.supply.length
  absent : ∀ i, dir' i = none ↔ dir i = none ∧ i ≠ va / pdeMapSize

/-- A new table for `mmap` changes no translation. -/
theorem MmapReady.newTable (h : MmapReady s table dir own) (hva : va < kernelVirtualBase)
    (hnone : dir (va / pdeMapSize) = none)
    (hnew : pgtMapNewPdeEntry table.mmapList table.pdeBase va s = some (page, clist, s')) :
    MmapReady s' { table with mmapList := clist }
        (Function.update dir (va / pdeMapSize) (some page)) (fun f => own f ∨ f = page) ∧
      MmapStep va s s' table { table with mmapList := clist } dir
        (Function.update dir (va / pdeMapSize) (some page)) ∧
      ∀ va', lookup s'.word (Function.update dir (va / pdeMapSize) (some page)) va' =
        lookup s.word dir va' := by
  obtain ⟨hnext, hcached, hspare, -⟩ := pgtMapNewPdeEntry_next h.cached hva hnew
  have htables : tablesFor dir va = 1 := if_pos hnone
  obtain ⟨hdirectory, hlookup, hfresh, hnodup⟩ :=
    h.directory.draw [] hva hnone h.cached h.fresh h.nodup hnew
  refine ⟨⟨hdirectory, hcached, hfresh, hnodup⟩, ⟨rfl, ?_, ?_, ?_, fun i => ?_⟩, hlookup⟩
  · rw [htables]
    exact hspare
  · have hdrop := congrArg (List.drop (clist.cached.length + 1)) hnext
    rw [drop_succ_cons, upcoming, upcoming, drop_left, drop_append,
      drop_eq_nil_of_le (by omega), nil_append] at hdrop
    rw [htables, ← hdrop, hspare]
    congr 1
    omega
  · rw [htables, ← length_append]
    change 1 ≤ (upcoming table.mmapList s).length
    rw [hnext, length_cons]
    omega
  · by_cases hi : i = va / pdeMapSize
    · simp [hi]
    · simp [hi]

theorem MmapReady.write (h : MmapReady s table dir own) {f : ℕ} (page va : ℕ)
    (hdir : dir (va / pdeMapSize) = some f) {pte : ℕ}
    (hpte : pte = pageSize * f + 4 * (va % pdeMapSize / pageSize)) :
    MmapReady (mapEntry s pte page va) table dir own ∧
      ∀ va', lookup (mapEntry s pte page va).word dir va' =
        if va' / pageSize = va / pageSize then some page else lookup s.word dir va' := by
  have hword := mapEntry_word s va f page va hpte
  refine ⟨⟨?_, h.cached, h.fresh, h.nodup⟩, fun va' => ?_⟩
  · rw [hword]
    exact h.directory.write hdir _
  · rw [hword]
    exact h.directory.lookup_write hdir page va'

/-- `pgt_map_mmap_page` maps its page, or it has no frame for a table and does nothing. -/
theorem MmapReady.map (h : MmapReady s table dir own) (page : ℕ) (hva : va < kernelVirtualBase)
    {ret : ℤ} (hmap : pgtMapMmapPage table page va s = (ret, table', s')) :
    (dir (va / pdeMapSize) = none ∧ table.mmapList.cached = [] ∧ s.supply = [] ∧
        table' = table ∧ s' = s) ∨
      ∃ dir' own', MmapReady s' table' dir' own' ∧ MmapStep va s s' table table' dir dir' ∧
        ∀ va', lookup s'.word dir' va' =
          if va' / pageSize = va / pageSize then some page else lookup s.word dir va' := by
  obtain ⟨hdir, hnew, -, rfl, rfl⟩ | ⟨f, clist, s₁, hdir, hnew, rfl, rfl⟩ | ⟨f, hdir, rfl, rfl⟩ :=
    h.directory.pgtMapMmapPage_cases hva hmap
  · rw [pgtMapNewPdeEntry_eq _ _ s' hva, map_eq_none_iff] at hnew
    obtain ⟨hcached, hsupply⟩ := allocNewPtePage_eq_none h.cached hnew
    exact .inl ⟨hdir, hcached, hsupply, rfl, rfl⟩
  · obtain ⟨hready, hstep, hlookup⟩ := h.newTable hva hdir hnew
    obtain ⟨hready', hwrite⟩ := hready.write page va (Function.update_self _ _ _) rfl
    refine .inr ⟨_, _, hready', ⟨hstep.pdeBase, hstep.spare, hstep.supply, hstep.enough,
      hstep.absent⟩, fun va' => ?_⟩
    rw [hwrite, hlookup]
  · obtain ⟨hready, hwrite⟩ := h.write page va hdir rfl
    have htables : tablesFor dir va = 0 := if_neg (by simp [hdir])
    refine .inr ⟨dir, own, hready, ⟨rfl, ?_, ?_, ?_, fun i => ?_⟩, hwrite⟩
    · rw [htables, Nat.sub_zero]
    · rw [htables, Nat.zero_sub, drop_zero]
      rfl
    · rw [htables]
      exact Nat.zero_le _
    · refine ⟨fun hi => ⟨hi, ?_⟩, And.left⟩
      rintro rfl
      rw [hdir] at hi
      exact absurd hi nofun

/-- Page `j` of the range from page `first` on is the first one of the range in its table,
and the table does not exist. -/
def needsTable (word : ℕ → ℕ) (pdeBase first j : ℕ) : Bool :=
  (j = 0 ∨ (first + j) % ptesPerPde = 0) ∧
    word (pgtGetPdeEntryAddr pdeBase (pageSize * (first + j))) = 0

/-- The tables that are new for the first `i` pages from page `first` on. -/
def newTables (word : ℕ → ℕ) (pdeBase first i : ℕ) : ℕ :=
  (List.range i).countP (needsTable word pdeBase first)

theorem newTables_succ (word : ℕ → ℕ) (pdeBase first i : ℕ) :
    newTables word pdeBase first (i + 1) =
      newTables word pdeBase first i + if needsTable word pdeBase first i then 1 else 0 := by
  rw [newTables, range_succ, countP_append, countP_singleton]
  rfl

theorem Directory.needsTable_iff {j : ℕ} (h : Directory word pdeBase dir own)
    (huser : first + j < 2 ^ 19) :
    needsTable word pdeBase first j = true ↔
      (j = 0 ∨ (first + j) % 1024 = 0) ∧ dir ((first + j) / 1024) = none := by
  have hindex : pageSize * (first + j) / pdeMapSize = (first + j) / 1024 := by
    simp only [pageSize, pdeMapSize]
    omega
  have hentry : word (pdeBase + 4 * ((first + j) / 1024)) = 0 ↔
      dir ((first + j) / 1024) = none := by
    cases hdir : dir ((first + j) / 1024) with
    | none => simp [h.absent _ (by omega) hdir]
    | some f => simp [h.present _ f (by omega) hdir]
  simp only [needsTable, ptesPerPde, pgtGetPdeEntryAddr_eq, hindex, hentry, decide_eq_true_eq]

/-- The tables for a range are the one for its first page, and those that the other pages
need when the first page has been mapped. -/
theorem newTables_front {word' : ℕ → ℕ} {i : ℕ} (h : Directory word pdeBase dir own)
    (h' : Directory word' pdeBase dir' own')
    (habsent : ∀ q, dir' q = none ↔ dir q = none ∧ q ≠ first / 1024) (huser : first + i < 2 ^ 19) :
    newTables word pdeBase first (i + 1) =
      (if dir (first / 1024) = none then 1 else 0) + newTables word' pdeBase (first + 1) i := by
  induction i with
  | zero =>
    rw [newTables_succ]
    simp only [h.needsTable_iff huser, true_or, true_and, Nat.add_zero]
    exact Nat.add_comm _ _
  | succ i ih =>
    have hsame : needsTable word pdeBase first (i + 1) = true ↔
        needsTable word' pdeBase (first + 1) i = true := by
      rw [h.needsTable_iff huser, h'.needsTable_iff (by omega), habsent]
      have hsum : first + 1 + i = first + (i + 1) := by omega
      rw [hsum]
      refine ⟨fun ⟨hstart, hdir⟩ => ⟨?_, hdir, ?_⟩, fun ⟨hstart, hdir, hne⟩ => ⟨?_, hdir⟩⟩
      · omega
      · omega
      · omega
    rw [newTables_succ, ih (by omega), newTables_succ word']
    simp only [hsame, Nat.add_assoc]

/-- The frame that page `i` of a range from page `first` on gets. The pages before it and the
new tables come first. There is none when the frames do not suffice for its table. -/
def mmapFrame (s : Frames) (table : TaskPageTable) (first i : ℕ) : Option ℕ :=
  let spare := table.mmapList.cached.length
  let tables := newTables s.word table.pdeBase first
  if i + (tables (i + 1) - spare) < s.supply.length then s.supply[i + (tables i - spare)]? else none

/-- The frame of an address when `nr` pages from `base` on have been mapped. -/
def frameAfter (s : Frames) (table : TaskPageTable) (base nr va : ℕ) : Option ℕ :=
  if base / pageSize ≤ va / pageSize ∧ va / pageSize < base / pageSize + nr then
    mmapFrame s table (base / pageSize) (va / pageSize - base / pageSize)
  else translate s.word table.pdeBase va

theorem MmapReady.request (h : MmapReady s table dir own) (hreq : requestPage s = some (page, s')) :
    MmapReady s' table dir own := by
  obtain ⟨hsupply, hword, -⟩ := requestPage_eq_some hreq
  have hsub : (upcoming table.mmapList s').Sublist (upcoming table.mmapList s) := by
    rw [upcoming, upcoming, hsupply]
    exact Sublist.append_left (sublist_cons_self _ _) _
  refine ⟨?_, h.cached, fun f hf => h.fresh f (hsub.subset hf), h.nodup.sublist hsub⟩
  rw [hword]
  exact h.directory

theorem tablesFor_eq (dir : ℕ → Option ℕ) (hva : va / pageSize = first) :
    tablesFor dir va = if dir (first / 1024) = none then 1 else 0 := by
  have hindex : va / pdeMapSize = first / 1024 := by
    rw [← hva]
    simp only [pageSize, pdeMapSize]
    omega
  rw [tablesFor, hindex]

theorem Directory.newTables_one (h : Directory word pdeBase dir own) (hva : va < kernelVirtualBase) :
    newTables word pdeBase (va / pageSize) 1 = tablesFor dir va := by
  have huser : va / pageSize + 0 < 2 ^ 19 := by
    simp only [kernelVirtualBase, pageSize] at hva ⊢
    omega
  rw [newTables_succ, tablesFor_eq dir rfl]
  simp only [h.needsTable_iff huser, true_or, true_and, Nat.add_zero]
  exact Nat.zero_add _

/-- The first page gets the first frame, when there is one for its table. -/
theorem mmapFrame_zero (h : Directory s₀.word table.pdeBase dir own) (hva : va < kernelVirtualBase)
    (hsupply : s₀.supply = page :: s.supply) :
    mmapFrame s₀ table (va / pageSize) 0 =
      if tablesFor dir va ≤ table.mmapList.cached.length + s.supply.length then some page
      else none := by
  have hiff : 0 + (tablesFor dir va - table.mmapList.cached.length) < s.supply.length + 1 ↔
      tablesFor dir va ≤ table.mmapList.cached.length + s.supply.length := by omega
  have hzero : newTables s₀.word table.pdeBase (va / pageSize) 0 = 0 := rfl
  simp only [mmapFrame, Nat.zero_add 1, h.newTables_one hva, hsupply, length_cons, hiff, hzero,
    Nat.zero_sub, Nat.add_zero, getElem?_cons_zero]

/-- The frames of the other pages are those of a shorter range, when the first page has been
mapped. -/
theorem MmapStep.mmapFrame_succ {i : ℕ} (hstep : MmapStep va s s' table table' dir dir')
    (h : Directory s.word table.pdeBase dir own) (h' : Directory s'.word table'.pdeBase dir' own')
    (hsupply : s₀.supply = page :: s.supply) (hword : s₀.word = s.word)
    (huser : va / pageSize + (i + 1) < 2 ^ 19) :
    mmapFrame s₀ table (va / pageSize) (i + 1) = mmapFrame s' table' (va / pageSize + 1) i := by
  have habsent : ∀ q, dir' q = none ↔ dir q = none ∧ q ≠ va / pageSize / 1024 := by
    have hindex : va / pdeMapSize = va / pageSize / 1024 := by
      simp only [pageSize, pdeMapSize]
      omega
    rw [← hindex]
    exact hstep.absent
  rw [hstep.pdeBase] at h'
  have hfront : ∀ k ≤ i + 1, newTables s.word table.pdeBase (va / pageSize) (k + 1) =
      tablesFor dir va + newTables s'.word table.pdeBase (va / pageSize + 1) k := by
    intro k hk
    rw [tablesFor_eq dir rfl]
    exact newTables_front h h' habsent (by omega)
  have henough := hstep.enough
  simp only [mmapFrame, hword, hsupply, hstep.pdeBase, hstep.spare, hstep.supply,
    hfront _ le_rfl, hfront i (Nat.le_succ i), length_cons, length_drop,
    getElem?_drop]
  generalize newTables s'.word table.pdeBase (va / pageSize + 1) (i + 1) = tables
  generalize newTables s'.word table.pdeBase (va / pageSize + 1) i = tables₀
  generalize tablesFor dir va = t at henough
  generalize table.mmapList.cached.length = spare at henough
  have hindex : i + 1 + (t + tables₀ - spare) = t - spare + (i + (tables₀ - (spare - t))) + 1 := by
    omega
  have hiff : i + 1 + (t + tables - spare) < s.supply.length + 1 ↔
      i + (tables - (spare - t)) < s.supply.length - (t - spare) := by omega
  simp only [hindex, hiff, getElem?_cons_succ]

/-- When the first page of a range has been mapped, the frames of all addresses are those of
the rest of the range. -/
theorem MmapStep.frameAfter_eq {base base' nr : ℕ}
    (hstep : MmapStep base s s' table table' dir dir') (h : MmapReady s table dir own)
    (h' : MmapReady s' table' dir' own') (hsupply : s₀.supply = page :: s.supply)
    (hword : s₀.word = s.word) (huser : base / pageSize + (nr + 1) ≤ 2 ^ 19)
    (hnext : base' / pageSize = base / pageSize + 1) (hva : va < kernelVirtualBase)
    (hlookup : lookup s'.word dir' va =
      if va / pageSize = base / pageSize then some page else lookup s.word dir va) :
    frameAfter s' table' base' nr va = frameAfter s₀ table base (nr + 1) va := by
  simp only [frameAfter, hnext]
  rcases lt_trichotomy (va / pageSize) (base / pageSize) with hlt | heq | hgt
  · rw [if_neg (by omega), if_neg (by omega), h'.directory.translate_eq hva, hlookup,
      if_neg (by omega), hword, h.directory.translate_eq hva]
  · rw [if_neg (by omega), if_pos (by omega), h'.directory.translate_eq hva, hlookup, if_pos heq,
      heq, Nat.sub_self, mmapFrame_zero (hword ▸ h.directory) _ hsupply, if_pos hstep.enough]
    simp only [kernelVirtualBase, pageSize] at huser ⊢
    omega
  · by_cases hin : va / pageSize < base / pageSize + (nr + 1)
    · obtain ⟨i, hi⟩ : ∃ i, va / pageSize = base / pageSize + 1 + i :=
        ⟨va / pageSize - base / pageSize - 1, by omega⟩
      have hindex : base / pageSize + 1 + i - base / pageSize = i + 1 := by omega
      rw [hi, if_pos (by omega), if_pos (by omega), Nat.add_sub_cancel_left, hindex]
      exact (hstep.mmapFrame_succ h.directory h'.directory hsupply hword (by omega)).symm
    · rw [if_neg (by omega), if_neg (by omega), h'.directory.translate_eq hva, hlookup,
        if_neg (by omega), hword, h.directory.translate_eq hva]

/-- Without a frame for its table, the one page of a range is not mapped. -/
theorem MmapReady.frameAfter_one {base : ℕ} (h : MmapReady s table dir own)
    (hdir : dir (base / pdeMapSize) = none) (hcached : table.mmapList.cached = [])
    (hempty : s.supply = []) (hsupply : s₀.supply = page :: s.supply) (hword : s₀.word = s.word)
    (hbase : base < kernelVirtualBase) (hva : va < kernelVirtualBase) :
    translate s.word table.pdeBase va = frameAfter s₀ table base 1 va := by
  rw [frameAfter]
  by_cases heq : va / pageSize = base / pageSize
  · have htables : tablesFor dir base = 1 := if_pos hdir
    have hnone : dir (va / pdeMapSize) = none := by
      rw [((same_page_iff base va).mp heq).1]
      exact hdir
    rw [if_pos (by omega), heq, Nat.sub_self, mmapFrame_zero (hword ▸ h.directory) hbase hsupply,
      htables, hcached, hempty, if_neg (by decide), h.directory.translate_eq hva, lookup, hnone]
    rfl
  · rw [if_neg (by omega), hword]

end Chunos.Pgt

namespace Chunos.TaskMm

open Pgt List Option

variable {β : Type*} {mm mm' : MmStruct} {m m' : Machine β} {dir : ℕ → Option ℕ} {own : ℕ → Prop}

/-- The mapping of a range keeps the contents of all pages. It ends behind the range, and
each page has the frame that was known before. -/
theorem mmapLoop_spec {nr base ua : ℕ} (hready : MmapReady m.frames mm.pageTable dir own)
    (huser : base / pageSize + nr ≤ 2 ^ 19) (h : mmapLoop nr base mm m = (some ua, mm', m')) :
    m'.data = m.data ∧ ua / pageSize = base / pageSize + nr ∧
      ∀ va < kernelVirtualBase, translate m'.frames.word mm'.pageTable.pdeBase va =
        frameAfter m.frames mm.pageTable base nr va := by
  induction nr generalizing base mm m dir own with
  | zero =>
    simp only [mmapLoop, Prod.mk.injEq, some.injEq] at h
    obtain ⟨rfl, rfl, rfl⟩ := h
    refine ⟨rfl, rfl, fun va _ => ?_⟩
    rw [frameAfter, if_neg (by omega)]
  | succ nr ih =>
    have hbase : base < kernelVirtualBase := by
      simp only [kernelVirtualBase, pageSize] at huser ⊢
      omega
    have hnext : nextPage base / pageSize = base / pageSize + 1 := by
      simp only [nextPage, pageSize] at huser ⊢
      omega
    cases hreq : requestPage m.frames with
    | none => simp [mmapLoop, hreq] at h
    | some res =>
      obtain ⟨page, s⟩ := res
      obtain ⟨hsupply, hword, -⟩ := requestPage_eq_some hreq
      have hready₀ := hready.request hreq
      cases hmap : pgtMapMmapPage mm.pageTable page base s with
      | mk ret rest =>
        obtain ⟨table', s'⟩ := rest
        simp only [mmapLoop, hreq, mmapPage, hmap] at h
        rcases hready₀.map page hbase hmap with
          ⟨hdir, hcached, hempty, rfl, rfl⟩ | ⟨dir', own', hready', hstep, hlookup⟩
        · -- The page is not mapped, and there is no frame for a second one.
          cases nr with
          | succ nr => simp [mmapLoop, requestPage, hempty] at h
          | zero =>
            simp only [mmapLoop, Prod.mk.injEq, some.injEq] at h
            obtain ⟨rfl, rfl, rfl⟩ := h
            exact ⟨rfl, hnext, fun va hva =>
              hready₀.frameAfter_one hdir hcached hempty hsupply hword.symm hbase hva⟩
        · obtain ⟨hdata, hua, htranslate⟩ := ih hready' (by omega) h
          refine ⟨hdata, by omega, fun va hva => ?_⟩
          rw [htranslate va hva]
          exact hstep.frameAfter_eq hready₀ hready' hsupply hword.symm huser hnext hva (hlookup va)

end Chunos.TaskMm
