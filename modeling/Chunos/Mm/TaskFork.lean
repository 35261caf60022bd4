import Chunos.Mm.PgtRange
import Chunos.Mm.TaskMm

/-!
# Two page tables during a fork

While the memory of a parent is copied there are two page tables, the one that is built for
the child and the one of the parent, which changes only in its temporary mapping. Pages are
copied through that mapping. The loop of `copy_section_memory` writes all pages that it reads
into one page, the first one of the child's section.
-/

namespace Chunos.TaskMm

open Pgt Function List Option

/-- Two page tables during a `fork`. The frames of `pown` belong to the parent's table, those
of `nown` to the table that is built for the child. -/
structure Tables (table parent : TaskPageTable) (s : Frames) (ndir pdir : ℕ → Option ℕ)
    (nown pown : ℕ → Prop) : Prop where
  child : Ready s table ndir nown
  directory : Directory s.word parent.pdeBase pdir pown
  slot : ∃ t, parent.tbufPteBase = pageSize * t ∧ pown t ∧ t < 2 ^ 20 ∧
    parent.pdeBase ≠ pageSize * t ∧ (∀ i, pdir i ≠ some t) ∧
    s.word (pgtGetPdeEntryAddr parent.pdeBase kernelTempBufferBase) = pageSize * t + 7
  apart : ∀ f, pown f → ¬ nown f
  fresh : ∀ f ∈ s.supply, ¬ pown f

/-- Nothing has happened to the tables of two states but for what the temporary mapping
changes. -/
structure SameTables (ndir pdir : ℕ → Option ℕ) (s s' : Frames) : Prop where
  child : ∀ va, lookup s'.word ndir va = lookup s.word ndir va
  parent : ∀ va, lookup s'.word pdir va = lookup s.word pdir va
  mapAddress : s'.mapAddress = s.mapAddress

theorem SameTables.trans {ndir pdir : ℕ → Option ℕ} {s s' s'' : Frames}
    (h : SameTables ndir pdir s s') (h' : SameTables ndir pdir s' s'') :
    SameTables ndir pdir s s'' :=
  ⟨fun va => (h'.child va).trans (h.child va), fun va => (h'.parent va).trans (h.parent va),
    h'.mapAddress.trans h.mapAddress⟩

variable {β : Type*} {table parent : TaskPageTable} {s s' : Frames} {ndir pdir : ℕ → Option ℕ}
  {nown pown : ℕ → Prop}

/-- Mapping pages for the child does not change the parent's table. -/
theorem Tables.grow (h : Tables table parent s ndir pdir nown pown) {pages : ℕ → Prop}
    {table' : TaskPageTable} {ndir' : ℕ → Option ℕ} {nown' : ℕ → Prop}
    (hready : Ready s' table' ndir' nown') (hgrows : Grows pages s s' table table' nown nown') :
    Tables table' parent s' ndir' pdir nown' pown ∧
      ∀ va, lookup s'.word pdir va = lookup s.word pdir va := by
  have happart : ∀ f, pown f → ¬ nown' f := by
    intro f hf hnew
    obtain hold | hsupply := hgrows.taken f hnew
    · exact h.apart f hf hold
    · exact h.fresh f hsupply hf
  have hsame : ∀ f, pown f → ∀ k < pageSize,
      s'.word (pageSize * f + k) = s.word (pageSize * f + k) :=
    fun f hf => hgrows.outside f (happart f hf)
  obtain ⟨hdirectory, hlookup⟩ := h.directory.congr (fun f hf _ => hsame f hf)
  obtain ⟨t, htbuf, hown, hlt, hbase, hfree, hpde⟩ := h.slot
  obtain ⟨d, hd, hdown, -⟩ := h.directory.base
  refine ⟨⟨hready, hdirectory, ⟨t, htbuf, hown, hlt, hbase, hfree, ?_⟩, happart, ?_⟩, hlookup⟩
  · rw [← hpde, pgtGetPdeEntryAddr_eq, hd]
    exact hsame d hdown _ (by decide)
  · exact fun f hf => h.fresh f (hgrows.supply.subset hf)

/-- The temporary mapping of a page: the parent finds it at its address, and nothing else
changes. -/
theorem Tables.mapTemp (h : Tables table parent s ndir pdir nown pown) (page : ℕ) :
    ∃ s', pgtMapTempPage parent page s = (kernelTempBufferBase, s') ∧
      Tables table parent s' ndir pdir nown pown ∧ SameTables ndir pdir s s' ∧
      translate s'.word parent.pdeBase kernelTempBufferBase = some page := by
  obtain ⟨t, htbuf, hown, hlt, hbase, hfree, hpde⟩ := h.slot
  obtain ⟨d, hd, hdown, hdfree⟩ := h.directory.base
  have htd : d ≠ t := by
    rintro rfl
    exact hbase hd
  refine ⟨createEntry s parent.tbufPteBase (pageToPa page), rfl, ?_⟩
  have hword : (createEntry s parent.tbufPteBase (pageToPa page)).word =
      update s.word (pageSize * t) (pageSize * page + 7) := by
    simp only [createEntry, pageToPa_or_seven, htbuf]
  have hother : ∀ f ≠ t, ∀ k < pageSize,
      (createEntry s parent.tbufPteBase (pageToPa page)).word (pageSize * f + k) =
        s.word (pageSize * f + k) := by
    intro f hf k hk
    rw [hword, update_of_ne]
    simp only [pageSize] at hk ⊢
    omega
  -- Neither table has the frame of the slot among its own tables.
  obtain ⟨hchild, hchildLookup⟩ := h.child.directory.congr
    (fun f hf _ => hother f (fun heq => h.apart t hown (heq ▸ hf)))
  obtain ⟨hparent, hparentLookup⟩ := h.directory.congr (fun f _ huse => hother f (by
    rintro rfl
    obtain heq | ⟨i, hi⟩ := huse
    · exact hbase heq
    · exact hfree i hi))
  have hslot : (createEntry s parent.tbufPteBase (pageToPa page)).word
      (pgtGetPdeEntryAddr parent.pdeBase kernelTempBufferBase) = pageSize * t + 7 := by
    rw [← hpde, pgtGetPdeEntryAddr_eq, hd]
    exact hother d htd _ (by decide)
  refine ⟨⟨⟨hchild, h.child.fresh, h.child.nodup, h.child.taskFree, h.child.mmapFree⟩, hparent,
    ⟨t, htbuf, hown, hlt, hbase, hfree, hslot⟩, h.apart, h.fresh⟩,
    ⟨hchildLookup, hparentLookup, rfl⟩, ?_⟩
  have hindex : pgtGetPteEntryAddr (pageSize * t) kernelTempBufferBase = pageSize * t := by
    rw [pgtGetPteEntryAddr_eq]
    rfl
  unfold Pgt.translate
  simp only [hslot, entry_testBit, if_true, pdeEntryToPa_entry hlt, hindex]
  simp only [hword, update_self, entry_testBit, if_true, entry_div]

/-- The parent reads `b` at an address, also after page `c` has been written. -/
def Reads (pdir : ℕ → Option ℕ) (m : Machine β) (c src : ℕ) (b : β) : Prop :=
  src < kernelVirtualBase ∧ (∃ page ≠ c, lookup m.frames.word pdir src = some page ∧
      m.data page = b) ∨
    kernelVirtualBase ≤ src ∧ m.kernelData src = b

variable {b : β} {c src : ℕ} {m : Machine β}

theorem Reads.congr (h : Reads pdir m c src b)
    (hlookup : ∀ va, lookup s'.word pdir va = lookup m.frames.word pdir va) :
    Reads pdir { m with frames := s' } c src b := by
  obtain ⟨hsrc, page, hne, hpage, hdata⟩ | hkernel := h
  · exact Or.inl ⟨hsrc, page, hne, by rw [hlookup, hpage], hdata⟩
  · exact Or.inr hkernel

theorem Tables.readPage {parent : MmStruct}
    (h : Tables table parent.pageTable m.frames ndir pdir nown pown) (hread : Reads pdir m c src b) :
    readPage parent m src = some b := by
  unfold TaskMm.readPage
  obtain ⟨hsrc, page, -, hlookup, rfl⟩ | ⟨hsrc, rfl⟩ := hread
  · rw [if_pos hsrc, h.directory.translate_eq hsrc, hlookup, map_some]
  · rw [if_neg (by omega)]

/-- A page is copied into page `c`, and nothing else happens. -/
structure PageCopied (ndir pdir : ℕ → Option ℕ) (m m' : Machine β) (c : ℕ) (b : β) : Prop where
  frames : SameTables ndir pdir m.frames m'.frames
  data : m'.data = update m.data c b
  kernelData : m'.kernelData = m.kernelData

theorem Reads.pageCopied {m' : Machine β} {b' : β} (h : Reads pdir m c src b)
    (hcopied : PageCopied ndir pdir m m' c b') : Reads pdir m' c src b := by
  obtain ⟨hsrc, page, hne, hlookup, hdata⟩ | ⟨hsrc, hdata⟩ := h
  · refine Or.inl ⟨hsrc, page, hne, ?_, ?_⟩
    · rw [hcopied.frames.parent, hlookup]
    · rw [hcopied.data, update_of_ne hne, hdata]
  · exact Or.inr ⟨hsrc, by rw [hcopied.kernelData, hdata]⟩

/-- `memcpy` through the temporary mapping. -/
theorem Tables.memcpyTemp {parent : MmStruct}
    (h : Tables table parent.pageTable m.frames ndir pdir nown pown) (hread : Reads pdir m c src b) :
    ∃ s' m', pgtMapTempPage parent.pageTable c m.frames = (kernelTempBufferBase, s') ∧
      s'.mapAddress = m.frames.mapAddress ∧
      memcpyPage parent { m with frames := s' } kernelTempBufferBase src = some m' ∧
      Tables table parent.pageTable m'.frames ndir pdir nown pown ∧
      PageCopied ndir pdir m m' c b := by
  obtain ⟨s', htemp, htables, hsame, htranslate⟩ := h.mapTemp c
  have hread' := hread.congr hsame.parent
  refine ⟨s', { m with frames := s', data := update m.data c b }, htemp,
    hsame.mapAddress, ?_, htables, hsame, rfl, rfl⟩
  simp only [memcpyPage, htranslate, bind_some, Tables.readPage htables hread', map_some]

/-- The address that the loop of `copy_section_memory` reads in its `k`-th turn. -/
def srcAddr (type : MapType) (pbase k : ℕ) : ℕ :=
  match type with
  | .normal => pbase + pageSize * k
  | .stack => pbase - pageSize * k

theorem srcAddr_succ (type : MapType) (pbase k : ℕ) :
    srcAddr type pbase (k + 1) = srcAddr type (nextBase type pbase) k := by
  cases type with
  | normal =>
    simp only [srcAddr, nextBase, Nat.mul_succ]
    omega
  | stack =>
    simp only [srcAddr, nextBase, Nat.mul_succ]
    omega

/-- The loop of `copy_section_memory` leaves the last page it reads in the first page of the
list. -/
theorem Tables.copySectionLoop {parent : MmStruct}
    (h : Tables table parent.pageTable m.frames ndir pdir nown pown) (type : MapType) (c : ℕ)
    (list : List ℕ) {reads : List β} {pbase : ℕ}
    (hreads : ∀ k b, reads[k]? = some b → Reads pdir m c (srcAddr type pbase k) b) :
    ∃ m', copySectionLoop parent type (c :: list) reads.length pbase m = some (0, m') ∧
      Tables table parent.pageTable m'.frames ndir pdir nown pown ∧
      SameTables ndir pdir m.frames m'.frames ∧ m'.kernelData = m.kernelData ∧
      m'.data = reads.getLast?.elim m.data (update m.data c) := by
  induction reads generalizing pbase m with
  | nil => exact ⟨m, rfl, h, ⟨fun _ => rfl, fun _ => rfl, rfl⟩, rfl, rfl⟩
  | cons b reads ih =>
    have hfirst : Reads pdir m c pbase b := by
      have hread := hreads 0 b rfl
      cases type <;> exact hread
    obtain ⟨s', m₁, htemp, -, hmemcpy, htables₁, hcopied⟩ := h.memcpyTemp hfirst
    have hrest : ∀ k b', reads[k]? = some b' →
        Reads pdir m₁ c (srcAddr type (nextBase type pbase) k) b' := by
      intro k b' hk
      rw [← srcAddr_succ]
      exact (hreads (k + 1) b' hk).pageCopied hcopied
    obtain ⟨m', hloop, htables', hsame, hkernel, hdata⟩ := ih htables₁ hrest
    refine ⟨m', ?_, htables', hcopied.frames.trans hsame, hkernel.trans hcopied.kernelData, ?_⟩
    · rw [length_cons, TaskMm.copySectionLoop, head?_cons, bind_some, htemp]
      simp only [if_neg (show kernelTempBufferBase ≠ 0 by decide), hmemcpy, bind_some, hloop]
    · rw [hdata, hcopied.data]
      cases reads with
      | nil => rfl
      | cons b' reads =>
        rw [getLast?_cons_cons]
        cases hlast : (b' :: reads).getLast? with
        | none => simp at hlast
        | some last => simp only [elim_some, update_idem]

/-- The contents of a list of pages after the pages with the contents `reads` have been
written to the first page of the list one after another. -/
def lastCopied (reads contents : List β) : List β :=
  match reads.getLast?, contents with
  | some b, _ :: contents => b :: contents
  | _, contents => contents

theorem map_update_first (reads : List β) (data : ℕ → β) {list : List ℕ}
    (hnodup : (c :: list).Nodup) :
    (c :: list).map (reads.getLast?.elim data (update data c)) =
      lastCopied reads ((c :: list).map data) := by
  have hne : ∀ page ∈ list, page ≠ c := by
    rintro page hpage rfl
    exact (nodup_cons.mp hnodup).1 hpage
  unfold lastCopied
  cases reads.getLast? with
  | none => rfl
  | some b =>
    simp only [elim_some, map_cons, update_self, cons.injEq, true_and]
    exact map_congr_left fun page hpage => update_of_ne (hne page hpage) b data

/-- The loop of `copy_section_memory` on the pages of a section. -/
theorem Tables.copySection {parent : MmStruct}
    (h : Tables table parent.pageTable m.frames ndir pdir nown pown) (type : MapType)
    {list : List ℕ} (hnodup : list.Nodup) {reads : List β} (hlen : list.length = reads.length)
    {pbase : ℕ}
    (hreads : ∀ c ∈ list, ∀ k b, reads[k]? = some b → Reads pdir m c (srcAddr type pbase k) b) :
    ∃ m', TaskMm.copySectionLoop parent type list list.length pbase m = some (0, m') ∧
      Tables table parent.pageTable m'.frames ndir pdir nown pown ∧
      SameTables ndir pdir m.frames m'.frames ∧ m'.kernelData = m.kernelData ∧
      (∀ page ∉ list, m'.data page = m.data page) ∧
      list.map m'.data = lastCopied reads (list.map m.data) := by
  cases list with
  | nil =>
    obtain rfl : reads = [] := length_eq_zero_iff.mp hlen.symm
    exact ⟨m, rfl, h, ⟨fun _ => rfl, fun _ => rfl, rfl⟩, rfl, fun _ _ => rfl, rfl⟩
  | cons c list =>
    obtain ⟨m', hloop, htables, hsame, hkernel, hdata⟩ :=
      h.copySectionLoop type c list (hreads c mem_cons_self)
    refine ⟨m', ?_, htables, hsame, hkernel, ?_, ?_⟩
    · rw [hlen, hloop]
    · intro page hpage
      have hne : page ≠ c := by
        rintro rfl
        exact hpage mem_cons_self
      rw [hdata]
      cases reads.getLast? with
      | none => rfl
      | some b => exact update_of_ne hne b m.data
    · rw [hdata, map_update_first reads m.data hnodup]

end Chunos.TaskMm
