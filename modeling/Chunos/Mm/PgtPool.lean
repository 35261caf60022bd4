import Chunos.Mm.PgtCache

/-!
# The pool of page directories

`init_task_page_table` takes a page directory from the pool or from the page allocator, and a
page for the table of the temporary buffer; `alloc_new_pte_page` takes pages for other tables.
`free_task_page_table` gives the directory back to the pool and releases the pages of the two
lists. The multisets here say where the pages that have been taken are: in the pool, in use by
a table, or nowhere.
-/

namespace Chunos.Pgt

open Runs Function List Option

/-- `struct pgt_buffer`: the pool. -/
structure PgtBuffer where
  list : List ℕ
  allocNr : ℤ
  nrFree : ℤ

/-- `va_to_page`. The kernel memory is mapped linearly; `zero` is what it gives for the address
0, which is no kernel address. -/
def vaToPage (zero : Option ℕ) (va : ℕ) : Option ℕ :=
  if va = 0 then zero else some (va / pageSize)

/-- `alloc_new_pde`, where `got` is what `get_free_pages_align` would return. It is `none` when
the head of an empty list is taken for a page. -/
def allocNewPde (buf : PgtBuffer) (got : Option ℕ) : Option (Option ℕ × PgtBuffer) :=
  if buf.nrFree = 0 then
    match got with
    | none => some (none, buf)
    | some page => some (some page, { buf with allocNr := buf.allocNr + 1 })
  else
    match buf.list with
    | [] => none
    | page :: list => some (some page, { buf with list := list, nrFree := buf.nrFree - 1 })

/-- `release_pde`. It is `none` when there is no page at the address. -/
def releasePde (zero : Option ℕ) (buf : PgtBuffer) (base : ℕ) : Option PgtBuffer :=
  (vaToPage zero base).map fun page =>
    { buf with list := buf.list ++ [page], nrFree := buf.nrFree + 1 }

/-- `init_pte`. -/
def initPte (table : TaskPageTable) : TaskPageTable :=
  { table with
    taskList := initPteCacheList table.taskList
    mmapList := initPteCacheList table.mmapList }

/-- A zeroed `struct pte_cache_list`. -/
def zeroedList : PteCacheList :=
  { pteList := [], pteAllocSize := 0, pteFreeSize := 0, pteCurrentPage := 0 }

/-- A zeroed `struct task_page_table`. -/
def zeroedTable : TaskPageTable :=
  { pdeBase := 0, taskList := zeroedList, mmapList := zeroedList, tbufPteBase := 0 }

/-- `init_task_page_table`, without the contents of the directory. `gotPde` and `gotTbuf` are
what the page allocator would return for the directory and for the temporary buffer. When the
second request fails, `release_pde` is called with a base that has not been set. -/
def initTaskPageTable (zero : Option ℕ) (buf : PgtBuffer) (table : TaskPageTable)
    (gotPde gotTbuf : Option ℕ) : Option (ℤ × PgtBuffer × TaskPageTable) :=
  if table.pdeBase = 0 then
    match allocNewPde buf gotPde with
    | none => none
    | some (none, buf) => some (-enomem, buf, zeroedTable)
    | some (some page, buf) =>
      let table := { zeroedTable with pdeBase := pageToPa page }
      match gotTbuf with
      | none => (releasePde zero buf 0).map fun buf => (-enomem, buf, table)
      | some tbuf => some (0, buf, initPte { table with tbufPteBase := pageToPa tbuf })
  else if table.tbufPteBase = 0 then none
  else some (0, buf, initPte table)

/-- `free_task_page_table`: the pool, the table, and the pages that are released. -/
def freeTaskPageTable (zero : Option ℕ) (buf : PgtBuffer) (table : TaskPageTable) :
    Option (PgtBuffer × TaskPageTable × List ℕ) :=
  (releasePde zero buf table.pdeBase).map fun buf =>
    (buf, { table with pdeBase := 0 }, table.taskList.pteList ++ table.mmapList.pteList)

/-- The page of the directory of a table. -/
def TaskPageTable.pdePage (table : TaskPageTable) : ℕ := table.pdeBase / pageSize

/-- The page of the temporary buffer. -/
def TaskPageTable.tbufPage (table : TaskPageTable) : ℕ := table.tbufPteBase / pageSize

/-- The pages of the tables: that of the temporary buffer, and those of the two lists. -/
def TaskPageTable.tablePages (table : TaskPageTable) : Multiset ℕ :=
  table.tbufPage ::ₘ (table.taskList.pteList + table.mmapList.pteList)

/-- A state of a run: the pool, the tables, the pages that have been taken from the page
allocator and not released, those of them that are page directories, the tables that are
initialised, and the temporary buffers of the tables that have been freed. -/
structure PoolRun (τ : Type*) where
  buf : PgtBuffer
  table : τ → TaskPageTable
  taken : Multiset ℕ
  pdes : Multiset ℕ
  live : Multiset τ
  leaked : Multiset ℕ

/-- The calls of a run: a table is initialised, gets another page for its tables, on the list
for `mmap` or on the other one, and is freed. -/
inductive PoolCall (τ : Type*) where
  | init (t : τ) (gotPde gotTbuf : Option ℕ)
  | grow (t : τ) (mmap : Bool) (got : Option ℕ)
  | free (t : τ)

variable {τ : Type*} [DecidableEq τ]

/-- The list of a table to which a page is added. -/
def TaskPageTable.list (table : TaskPageTable) (mmap : Bool) : PteCacheList :=
  if mmap then table.mmapList else table.taskList

/-- Set a list of a table. -/
def TaskPageTable.setList (table : TaskPageTable) (mmap : Bool) (clist : PteCacheList) :
    TaskPageTable :=
  if mmap then { table with mmapList := clist } else { table with taskList := clist }

/-- The pages that `init_task_page_table` takes for a directory and for a temporary buffer. -/
def PoolRun.requests (r : PoolRun τ) (gotPde gotTbuf : Option ℕ) : Multiset ℕ × Multiset ℕ :=
  let pde := if r.buf.nrFree = 0 then gotPde.toList else []
  let tbuf := if r.buf.nrFree = 0 ∧ gotPde = none then [] else gotTbuf.toList
  (pde, tbuf)

/-- One call. -/
def PoolRun.step (zero : Option ℕ) : PoolCall τ → PoolRun τ → Option (PoolRun τ)
  | .init t gotPde gotTbuf, r =>
    (initTaskPageTable zero r.buf (r.table t) gotPde gotTbuf).map fun (ret, buf, table) =>
      let (pde, tbuf) := r.requests gotPde gotTbuf
      { r with
        buf := buf
        table := update r.table t table
        taken := pde + tbuf + r.taken
        pdes := pde + r.pdes
        live := if ret = 0 then t ::ₘ r.live else r.live }
  | .grow t mmap got, r =>
    match allocNewPtePage ((r.table t).list mmap) (PteCall.frames got fun _ => 0) with
    | none => some r
    | some (_, clist, _) =>
      some { r with
        table := update r.table t ((r.table t).setList mmap clist)
        taken := (if ((r.table t).list mmap).pteFreeSize = 0 then got.toList else []) + r.taken }
  | .free t, r =>
    (freeTaskPageTable zero r.buf (r.table t)).map fun (buf, table, released) =>
      { r with
        buf := buf
        table := update r.table t table
        taken := r.taken - released
        live := r.live.erase t
        leaked := (r.table t).tbufPage ::ₘ r.leaked }

/-- What holds for every call: a table that is initialised is a fresh one, the page allocator
gives pages that are not in use, and a table that grows or is freed is initialised. -/
def PoolRun.Legal : PoolCall τ → PoolRun τ → Prop
  | .init t gotPde gotTbuf, r =>
    t ∉ r.live ∧ (r.table t).pdeBase = 0 ∧ (∀ page ∈ gotPde, page ≠ 0 ∧ page ∉ r.taken) ∧
      (∀ page ∈ gotTbuf, page ≠ 0 ∧ page ∉ r.taken ∧ page ∉ gotPde)
  | .grow t _ got, r => t ∈ r.live ∧ ∀ page ∈ got, page ≠ 0 ∧ page ∉ r.taken
  | .free t, r => t ∈ r.live

instance (call : PoolCall τ) (r : PoolRun τ) : Decidable (r.Legal call) :=
  match call with
  | .init _ _ _ => inferInstanceAs (Decidable (_ ∧ _ ∧ _ ∧ _))
  | .grow _ _ _ => inferInstanceAs (Decidable (_ ∧ _))
  | .free t => inferInstanceAs (Decidable (t ∈ r.live))

/-- The request for the temporary buffer does not fail. -/
def PoolRun.Buffered : PoolCall τ → PoolRun τ → Prop
  | .init _ gotPde gotTbuf, r => gotTbuf ≠ none ∨ (r.buf.nrFree = 0 ∧ gotPde = none)
  | _, _ => True

instance (call : PoolCall τ) (r : PoolRun τ) : Decidable (r.Buffered call) :=
  match call with
  | .init _ _ _ => inferInstanceAs (Decidable (_ ∨ _))
  | .grow _ _ _ | .free _ => .isTrue trivial

/-- The start: `pgt_init` puts the directory of the boot code, if it has a page, into the
pool. -/
def PoolRun.boot (page : Option ℕ) : PoolRun τ :=
  { buf := { list := page.toList, allocNr := page.toList.length, nrFree := page.toList.length }
    table := fun _ => zeroedTable
    taken := page.toList
    pdes := page.toList
    live := 0
    leaked := 0 }

/-- What is expected of every state. The directories are those in the pool and those of the
initialised tables, no two of them are the same, and `nr_free` is the length of the pool. The
pages that have been taken are the directories and the pages of the initialised tables. -/
structure PoolRun.Ok (r : PoolRun τ) : Prop where
  count : r.buf.nrFree = r.buf.list.length
  nodup : r.pdes.Nodup
  pool : r.pdes = r.buf.list + r.live.map fun t => (r.table t).pdePage
  taken : r.taken = r.pdes + (r.live.map fun t => (r.table t).tablePages).sum

/-- The invariant. -/
structure PoolRun.Inv (r : PoolRun τ) : Prop where
  count : r.buf.nrFree = r.buf.list.length
  pool : r.pdes = r.buf.list + r.live.map fun t => (r.table t).pdePage
  taken : r.taken = r.pdes + (r.live.map fun t => (r.table t).tablePages).sum + r.leaked
  nodup : r.taken.Nodup
  nonzero : 0 ∉ r.taken
  live_nodup : r.live.Nodup
  base : ∀ t ∈ r.live, (r.table t).pdeBase = pageToPa (r.table t).pdePage
  unused : ∀ t ∈ r.live, ∀ mmap, ((r.table t).list mmap).pteFreeSize = 0

variable {zero : Option ℕ} {r r' : PoolRun τ}

omit [DecidableEq τ] in
theorem PoolRun.Inv.ok_iff (h : r.Inv) : r.Ok ↔ r.leaked = 0 := by
  constructor
  · intro hok
    have htaken := hok.taken
    rw [h.taken] at htaken
    exact add_eq_left.mp htaken
  · intro hleaked
    have htaken := h.taken
    rw [hleaked, add_zero] at htaken
    have hnodup := h.nodup
    rw [htaken] at hnodup
    exact ⟨h.count, Multiset.nodup_of_le (Multiset.le_add_right _ _) hnodup, h.pool, htaken⟩

omit [DecidableEq τ] in
theorem PoolRun.boot_inv {page : Option ℕ} (hpage : ∀ p ∈ page, p ≠ 0) :
    (PoolRun.boot page : PoolRun τ).Inv := by
  cases page with
  | none => constructor <;> simp [PoolRun.boot]
  | some p =>
    have hp : p ≠ 0 := hpage p rfl
    constructor <;> simp [PoolRun.boot, hp.symm]

variable {live : Multiset τ} {t : τ} {β : Type*} {gotPde : Option ℕ}

theorem map_update_of_notMem (ht : t ∉ live) (table : τ → TaskPageTable) (new : TaskPageTable)
    (f : TaskPageTable → β) :
    (live.map fun u => f (update table t new u)) = live.map fun u => f (table u) := by
  apply Multiset.map_congr rfl
  intro u hu
  rw [update_of_ne]
  rintro rfl
  exact ht hu

theorem map_eq_cons_erase (ht : t ∈ live) (f : τ → β) :
    live.map f = f t ::ₘ (live.erase t).map f := by
  rw [← Multiset.map_cons, Multiset.cons_erase ht]

theorem map_update_of_mem (ht : t ∈ live) (hnodup : live.Nodup) (table : τ → TaskPageTable)
    (new : TaskPageTable) (f : TaskPageTable → β) :
    (live.map fun u => f (update table t new u)) =
      f new ::ₘ (live.erase t).map fun u => f (table u) := by
  rw [map_eq_cons_erase ht, update_self, map_update_of_notMem (hnodup.notMem_erase) table new f]

theorem pageToPa_div (page : ℕ) : pageToPa page / pageSize = page :=
  Nat.mul_div_cancel_left page (by simp [pageSize])

variable {page : ℕ}

/-- A table has been initialised with these two pages. The directory comes from the pool, or
it is new. -/
theorem PoolRun.Inv.initialised (h : r.Inv) (ht : t ∉ r.live) {tbuf : ℕ} {buf : PgtBuffer}
    {new : Multiset ℕ} (hcount : buf.nrFree = buf.list.length)
    (hpool : new + r.pdes = page ::ₘ (buf.list + r.live.map fun t => (r.table t).pdePage))
    (hnodup : (new + {tbuf} + r.taken).Nodup) (hzero : 0 ∉ new + {tbuf} + r.taken) :
    PoolRun.Inv { r with
      buf := buf
      table := update r.table t
        { zeroedTable with pdeBase := pageToPa page, tbufPteBase := pageToPa tbuf }
      taken := new + {tbuf} + r.taken
      pdes := new + r.pdes
      live := t ::ₘ r.live } := by
  have hpde : ({ zeroedTable with
      pdeBase := pageToPa page, tbufPteBase := pageToPa tbuf } : TaskPageTable).pdePage = page :=
    pageToPa_div page
  have hpages : ({ zeroedTable with
      pdeBase := pageToPa page, tbufPteBase := pageToPa tbuf } : TaskPageTable).tablePages =
      {tbuf} := by
    rw [TaskPageTable.tablePages, TaskPageTable.tbufPage, pageToPa_div]
    rfl
  constructor
  · exact hcount
  · simp only [Multiset.map_cons, update_self, map_update_of_notMem ht, hpde]
    rw [hpool, Multiset.add_cons]
  · simp only [Multiset.map_cons, update_self, map_update_of_notMem ht, hpages, Multiset.sum_cons]
    rw [h.taken]
    abel
  · exact hnodup
  · exact hzero
  · exact Multiset.nodup_cons.mpr ⟨ht, h.live_nodup⟩
  · intro u hu
    by_cases hut : u = t
    · subst hut
      simp only [update_self, hpde]
    · have hlive : u ∈ r.live := (Multiset.mem_cons.mp hu).resolve_left hut
      simp only [update_of_ne hut]
      exact h.base u hlive
  · intro u hu mmap
    by_cases hut : u = t
    · subst hut
      simp only [update_self]
      cases mmap <;> rfl
    · have hlive : u ∈ r.live := (Multiset.mem_cons.mp hu).resolve_left hut
      simp only [update_of_ne hut]
      exact h.unused u hlive mmap

theorem PoolRun.Inv.update_fresh (h : r.Inv) (ht : t ∉ r.live) (new : TaskPageTable) :
    PoolRun.Inv { r with table := update r.table t new } := by
  constructor
  · exact h.count
  · rw [map_update_of_notMem ht]
    exact h.pool
  · rw [map_update_of_notMem ht]
    exact h.taken
  · exact h.nodup
  · exact h.nonzero
  · exact h.live_nodup
  · intro u hu
    simp only [update_of_ne (ne_of_mem_of_not_mem hu ht)]
    exact h.base u hu
  · intro u hu
    simp only [update_of_ne (ne_of_mem_of_not_mem hu ht)]
    exact h.unused u hu

/-- `init_task_page_table` on a fresh table. -/
theorem PoolRun.Inv.init (h : r.Inv) {gotTbuf : Option ℕ}
    (hlegal : r.Legal (.init t gotPde gotTbuf)) (hbuffered : r.Buffered (.init t gotPde gotTbuf)) :
    ∃ r', PoolRun.step zero (.init t gotPde gotTbuf) r = some r' ∧ r'.Inv := by
  obtain ⟨ht, hbase, hpde, htbuf⟩ := hlegal
  by_cases hfree : r.buf.nrFree = 0
  · simp only [PoolRun.step, initTaskPageTable, hbase, allocNewPde, hfree, if_true,
      PoolRun.requests]
    cases gotPde with
    | none => exact ⟨_, rfl, by simpa [enomem] using h.update_fresh ht zeroedTable⟩
    | some page =>
      obtain ⟨hp, hpt⟩ := hpde page rfl
      obtain ⟨tbuf, rfl⟩ := ne_none_iff_exists'.mp (hbuffered.resolve_right (by simp))
      obtain ⟨hq, hqt, hqp⟩ := htbuf tbuf rfl
      have hne : page ≠ tbuf := fun heq => hqp (by rw [heq]; rfl)
      refine ⟨_, rfl, h.initialised ht (hfree ▸ h.count) ?_ ?_ ?_⟩
      · rw [h.pool]
        rfl
      · change (({page} : Multiset ℕ) + {tbuf} + r.taken).Nodup
        rw [add_assoc, Multiset.singleton_add, Multiset.singleton_add, Multiset.nodup_cons,
          Multiset.nodup_cons]
        exact ⟨by simp [hne, hpt], hqt, h.nodup⟩
      · simp [hp.symm, hq.symm, h.nonzero]
  · obtain ⟨tbuf, rfl⟩ := ne_none_iff_exists'.mp
      (hbuffered.resolve_right (by simp [hfree]))
    obtain ⟨hq, hqt, -⟩ := htbuf tbuf rfl
    have hcount := h.count
    cases hlist : r.buf.list with
    | nil =>
      rw [hlist] at hcount
      exact absurd hcount (by simpa using hfree)
    | cons page list =>
      simp only [PoolRun.step, initTaskPageTable, hbase, allocNewPde, hfree, hlist, if_true, if_false,
        PoolRun.requests]
      refine ⟨_, rfl, h.initialised ht ?_ ?_ ?_ ?_⟩
      · rw [hlist, length_cons] at hcount
        simp only [hcount]
        push_cast
        ring
      · rw [h.pool, hlist, Multiset.coe_nil, zero_add, ← Multiset.cons_coe, Multiset.cons_add]
      · rw [Multiset.coe_nil, zero_add, Multiset.singleton_add, Multiset.nodup_cons]
        exact ⟨hqt, h.nodup⟩
      · simp [hq.symm, h.nonzero]

/-- A page is added to the list of a table. -/
theorem tablePages_setList (table : TaskPageTable) (mmap : Bool) (clist : PteCacheList)
    (hlist : clist.pteList = (table.list mmap).pteList ++ [page]) :
    (table.setList mmap clist).tablePages = {page} + table.tablePages := by
  have hpages : (clist.pteList : Multiset ℕ) = {page} + (table.list mmap).pteList := by
    rw [hlist, ← Multiset.coe_add, Multiset.coe_singleton, add_comm]
  cases mmap with
  | false =>
    change table.tbufPage ::ₘ ((clist.pteList : Multiset ℕ) + table.mmapList.pteList) = _
    rw [hpages, TaskPageTable.tablePages, ← Multiset.singleton_add, ← Multiset.singleton_add,
      show table.list false = table.taskList from rfl]
    abel
  | true =>
    change table.tbufPage ::ₘ ((table.taskList.pteList : Multiset ℕ) + clist.pteList) = _
    rw [hpages, TaskPageTable.tablePages, ← Multiset.singleton_add, ← Multiset.singleton_add,
      show table.list true = table.mmapList from rfl]
    abel

/-- `alloc_new_pte_page` for a table. -/
theorem PoolRun.Inv.grow (h : r.Inv) {mmap : Bool} {got : Option ℕ}
    (hlegal : r.Legal (.grow t mmap got)) :
    ∃ r', PoolRun.step zero (.grow t mmap got) r = some r' ∧ r'.Inv := by
  obtain ⟨ht, hgot⟩ := hlegal
  have hfree := h.unused t ht mmap
  cases got with
  | none =>
    refine ⟨r, ?_, h⟩
    simp [PoolRun.step, allocNewPtePage, requestPage, PteCall.frames, hfree]
  | some page =>
    obtain ⟨hp, hpt⟩ := hgot page rfl
    obtain ⟨clist, hclist, hsize, hstep⟩ : ∃ clist : PteCacheList,
        clist.pteList = ((r.table t).list mmap).pteList ++ [page] ∧ clist.pteFreeSize = 0 ∧
        PoolRun.step zero (.grow t mmap (some page)) r = some { r with
          table := update r.table t ((r.table t).setList mmap clist)
          taken := {page} + r.taken } := by
      refine ⟨{ (r.table t).list mmap with
        pteList := ((r.table t).list mmap).pteList ++ [page]
        pteAllocSize := ((r.table t).list mmap).pteAllocSize + pageSize }, rfl, hfree, ?_⟩
      simp [PoolRun.step, allocNewPtePage, requestPage, PteCall.frames, hfree]
    have hpde : ((r.table t).setList mmap clist).pdePage = (r.table t).pdePage := by
      cases mmap <;> rfl
    refine ⟨_, hstep, ?_⟩
    constructor
    · exact h.count
    · rw [map_update_of_mem ht h.live_nodup, hpde, h.pool, map_eq_cons_erase ht]
    · rw [map_update_of_mem ht h.live_nodup, tablePages_setList _ mmap clist hclist, h.taken,
        map_eq_cons_erase ht, Multiset.sum_cons, Multiset.sum_cons]
      ac_rfl
    · rw [Multiset.singleton_add, Multiset.nodup_cons]
      exact ⟨hpt, h.nodup⟩
    · simp [hp.symm, h.nonzero]
    · exact h.live_nodup
    · intro u hu
      by_cases hut : u = t
      · subst hut
        simp only [update_self, hpde]
        rw [← h.base u ht]
        cases mmap <;> rfl
      · simp only [update_of_ne hut]
        exact h.base u hu
    · intro u hu other
      by_cases hut : u = t
      · subst hut
        simp only [update_self]
        have hother := h.unused u ht other
        cases mmap <;> cases other
        · exact hsize
        · exact hother
        · exact hother
        · exact hsize
      · simp only [update_of_ne hut]
        exact h.unused u hu other

/-- `free_task_page_table` leaves the page of the temporary buffer behind. -/
theorem PoolRun.Inv.free (h : r.Inv) (ht : t ∈ r.live) :
    ∃ r', PoolRun.step zero (.free t) r = some r' ∧ r'.Inv := by
  have hpage : (r.table t).pdePage ∈ r.pdes := by
    rw [h.pool]
    exact Multiset.mem_add.mpr (Or.inr (Multiset.mem_map_of_mem _ ht))
  have hbase : (r.table t).pdeBase ≠ 0 := by
    intro hzero
    have hnone : (r.table t).pdePage = 0 := by simp [TaskPageTable.pdePage, hzero]
    rw [hnone] at hpage
    apply h.nonzero
    rw [h.taken, add_assoc]
    exact Multiset.mem_add.mpr (Or.inl hpage)
  have hstep : PoolRun.step zero (.free t) r = some { r with
      buf := { r.buf with
        list := r.buf.list ++ [(r.table t).pdePage]
        nrFree := r.buf.nrFree + 1 }
      table := update r.table t { r.table t with pdeBase := 0 }
      taken := r.taken - ((r.table t).taskList.pteList + (r.table t).mmapList.pteList)
      live := r.live.erase t
      leaked := (r.table t).tbufPage ::ₘ r.leaked } := by
    simp [PoolRun.step, freeTaskPageTable, releasePde, vaToPage, hbase, TaskPageTable.pdePage]
  have hrest : t ∉ r.live.erase t := h.live_nodup.notMem_erase
  -- What is left when the pages of the two lists have been released.
  have htaken : r.taken - ((r.table t).taskList.pteList + (r.table t).mmapList.pteList) =
      r.pdes + ((r.live.erase t).map fun u => (r.table u).tablePages).sum +
        (r.table t).tbufPage ::ₘ r.leaked := by
    rw [h.taken, map_eq_cons_erase ht, Multiset.sum_cons, TaskPageTable.tablePages,
      ← Multiset.singleton_add, ← Multiset.singleton_add (r.table t).tbufPage r.leaked]
    apply tsub_eq_of_eq_add
    abel
  have hsub : r.taken - ((r.table t).taskList.pteList + (r.table t).mmapList.pteList) ≤ r.taken :=
    tsub_le_self
  refine ⟨_, hstep, ?_⟩
  constructor
  · simp only [h.count, length_append, length_singleton]
    push_cast
    rfl
  · rw [map_update_of_notMem hrest, h.pool, map_eq_cons_erase ht, ← Multiset.coe_add,
      Multiset.coe_singleton, ← Multiset.singleton_add, add_assoc]
  · rw [map_update_of_notMem hrest]
    exact htaken
  · exact Multiset.nodup_of_le hsub h.nodup
  · exact fun hzero => h.nonzero (Multiset.mem_of_le hsub hzero)
  · exact h.live_nodup.erase t
  · intro u hu
    simp only [update_of_ne (ne_of_mem_of_not_mem hu hrest)]
    exact h.base u (Multiset.mem_of_mem_erase hu)
  · intro u hu
    simp only [update_of_ne (ne_of_mem_of_not_mem hu hrest)]
    exact h.unused u (Multiset.mem_of_mem_erase hu)

theorem PoolRun.Inv.step (h : r.Inv) {call : PoolCall τ} (hcall : r.Legal call ∧ r.Buffered call) :
    ∃ r', PoolRun.step zero call r = some r' ∧ r'.Inv := by
  cases call with
  | init t gotPde gotTbuf => exact h.init hcall.1 hcall.2
  | grow t mmap got => exact h.grow hcall.1
  | free t => exact h.free hcall.1

/-- A temporary buffer is left behind by each call of `free_task_page_table` and by no other
call. -/
theorem PoolRun.step_leaked {call : PoolCall τ} (hstep : PoolRun.step zero call r = some r') :
    r'.leaked = 0 ↔ r.leaked = 0 ∧ ∀ t, call ≠ .free t := by
  cases call with
  | init t gotPde gotTbuf =>
    obtain ⟨res, -, rfl⟩ := map_eq_some_iff.mp hstep
    simp
  | grow t mmap got =>
    rw [PoolRun.step] at hstep
    split at hstep
    · obtain rfl := some.inj hstep
      simp
    · obtain rfl := some.inj hstep
      simp
  | free t =>
    obtain ⟨res, -, rfl⟩ := map_eq_some_iff.mp hstep
    simp

/-- Temporary buffers are left behind in a run iff `free_task_page_table` is called. -/
theorem PoolRun.run_leaked {calls : List (PoolCall τ)}
    (hrun : run (PoolRun.step zero) calls r = some r') :
    r'.leaked = 0 ↔ r.leaked = 0 ∧ ∀ t, .free t ∉ calls := by
  induction calls generalizing r with
  | nil =>
    obtain rfl := some.inj hrun
    simp
  | cons call calls ih =>
    obtain ⟨r₁, hstep, hrest⟩ := run_cons_eq_some.mp hrun
    rw [ih hrest, PoolRun.step_leaked hstep, and_assoc]
    refine and_congr_right fun _ => ?_
    rw [← forall_and]
    refine forall_congr' fun t => ?_
    rw [mem_cons, not_or, ne_comm]

/-- In every run in which no request for a temporary buffer fails, each call completes, and the
pool holds the page directories that no initialised table has, each once. The pages taken from
the page allocator are the directories and the pages of the initialised tables iff no table
has been freed. -/
theorem pgtPool_runs_ok_iff (zero page : Option ℕ) (hpage : ∀ p ∈ page, p ≠ 0)
    (calls : List (PoolCall τ))
    (hmeets : Meets (PoolRun.step zero) (fun call r => r.Legal call ∧ r.Buffered call) calls
      (PoolRun.boot page)) :
    ∃ r, run (PoolRun.step zero) calls (PoolRun.boot page) = some r ∧
      r.buf.nrFree = r.buf.list.length ∧ r.pdes.Nodup ∧
      (r.pdes = r.buf.list + r.live.map fun t => (r.table t).pdePage) ∧
      (r.Ok ↔ ∀ t, .free t ∉ calls) := by
  obtain ⟨r, hrun, h⟩ := exists_run_of_meets (I := fun r : PoolRun τ => r.Inv)
    (fun _ _ h hcall => h.step hcall) (PoolRun.boot_inv hpage) hmeets
  have hnodup := h.nodup
  rw [h.taken, add_assoc] at hnodup
  refine ⟨r, hrun, h.count, Multiset.nodup_of_le (Multiset.le_add_right _ _) hnodup, h.pool, ?_⟩
  rw [h.ok_iff, PoolRun.run_leaked hrun]
  exact and_iff_right rfl

/-- Two tables are initialised, one with the directory of the boot code, and both grow. -/
def twoTables : List (PoolCall ℕ) :=
  [.init 0 none (some 5), .grow 0 false (some 6), .init 1 (some 7) (some 8),
    .grow 1 true (some 9), .init 2 none (some 10)]

/-- The pages are accounted for. -/
theorem pgtPool_runs_ok_iff_twoTables :
    Meets (PoolRun.step none) (fun call r => r.Legal call ∧ r.Buffered call) twoTables
      (PoolRun.boot (some 3)) ∧
    ∃ r, run (PoolRun.step none) twoTables (PoolRun.boot (some 3)) = some r ∧ r.Ok := by
  have hmeets : Meets (PoolRun.step none) (fun call r => r.Legal call ∧ r.Buffered call) twoTables
      (PoolRun.boot (some 3)) := by
    decide +kernel
  obtain ⟨r, hrun, -, -, -, hok⟩ := pgtPool_runs_ok_iff none (some 3) (by simp) twoTables hmeets
  exact ⟨hmeets, r, hrun, hok.mpr (by simp [twoTables])⟩

/-- A table is initialised and freed: the page 5 of its temporary buffer stays taken. -/
theorem freeTaskPageTable_leaks :
    ∃ r, run (PoolRun.step none) [.init 0 none (some 5), .free 0] (PoolRun.boot (some 3)) = some r ∧
      r.live = 0 ∧ r.pdes = {3} ∧ r.taken = {3, 5} ∧ ¬ r.Ok := by
  refine exists_some_imp (P := fun r => r.live = 0 ∧ r.pdes = {3} ∧ r.taken = {3, 5})
    (by decide +kernel) fun r _ ⟨hlive, hpdes, htaken⟩ => ⟨hlive, hpdes, htaken, fun hok => ?_⟩
  have hbad := hok.taken
  rw [hlive, hpdes, htaken, Multiset.map_zero, Multiset.sum_zero] at hbad
  exact absurd hbad (by decide)

end Chunos.Pgt
