import Chunos.Mm.Pgt

/-!
# What mapping a page changes

A page table occupies frames of its own: the directory and one frame for each directory
entry in use. Creating a table for more addresses takes a frame from the supply and changes
no translation. Writing an entry changes the translation of the page it is for and of no
other one. All functions that map pages are made of these two steps.
-/

namespace Chunos.Pgt

open Function List Option

theorem pageToPa_or_seven (page : ℕ) : pageToPa page ||| 7 = pageSize * page + 7 := by
  have hor := Nat.shiftLeft_add_eq_or_of_lt (show 7 < 2 ^ 12 by decide) page
  rw [Nat.shiftLeft_eq, Nat.mul_comm] at hor
  exact hor.symm

theorem entry_testBit (page : ℕ) : (pageSize * page + 7).testBit 0 = true := by
  rw [Nat.testBit_zero, decide_eq_true_eq, pageSize]
  omega

theorem entry_div (page : ℕ) : (pageSize * page + 7) / pageSize = page := by
  rw [pageSize]
  omega

variable {f k va pdeBase f' i pte page : ℕ} {table' : TaskPageTable} {clist clist' : PteCacheList}

/-- A mask of `w` bits above the first `k` bits removes those. -/
theorem two_pow_mul_add_and_mask {w r : ℕ} (hf : f < 2 ^ w) (hr : r < 2 ^ k) :
    (2 ^ k * f + r) &&& (2 ^ w - 1) <<< k = 2 ^ k * f := by
  have hshift : 2 ^ k * f = f <<< k := by rw [Nat.shiftLeft_eq, Nat.mul_comm]
  have hor : f <<< k + r = f <<< k ||| r := Nat.shiftLeft_add_eq_or_of_lt hr f
  have hkeep : f <<< k &&& (2 ^ w - 1) <<< k = f <<< k := by
    rw [← Nat.shiftLeft_and_distrib, Nat.and_two_pow_sub_one_eq_mod, Nat.mod_eq_of_lt hf]
  have hdrop : r &&& (2 ^ w - 1) <<< k = 0 := by
    refine Nat.eq_of_testBit_eq fun i => ?_
    rw [Nat.testBit_and, Nat.testBit_shiftLeft, Nat.zero_testBit]
    by_cases hi : k ≤ i
    · have hlt : r < 2 ^ i := lt_of_lt_of_le hr (Nat.pow_le_pow_right two_pos hi)
      rw [Nat.testBit_eq_false_of_lt hlt, Bool.false_and]
    · simp [hi]
  rw [hshift, hor, Nat.and_or_distrib_right, hkeep, hdrop, Nat.or_zero]

/-- The mask of `mmu_pde_entry_to_pa` and `page_to_va` removes the offset in a page. -/
theorem pageSize_mul_add_and_mask {r : ℕ} (hf : f < 2 ^ 20) (hr : r < pageSize) :
    (pageSize * f + r) &&& 0xfffff000 = pageSize * f := by
  have hmask := two_pow_mul_add_and_mask (w := 20) (k := 12) hf hr
  exact hmask

theorem pdeEntryToPa_entry (hf : f < 2 ^ 20) : pdeEntryToPa (pageSize * f + 7) = pageSize * f :=
  pageSize_mul_add_and_mask hf (by decide)

theorem pgtGetPdeEntryAddr_eq (base va : ℕ) :
    pgtGetPdeEntryAddr base va = base + 4 * (va / pdeMapSize) := by
  rw [pgtGetPdeEntryAddr, Nat.shiftRight_eq_div_pow, entrySize, Nat.mul_comm, pdeEntryShift]
  rfl

theorem pgtGetPteEntryAddr_eq (base va : ℕ) :
    pgtGetPteEntryAddr base va = base + 4 * (va % pdeMapSize / pageSize) := by
  rw [pgtGetPteEntryAddr, Nat.shiftRight_eq_div_pow, entrySize, Nat.mul_comm, pageShift]
  rfl

theorem addrMinAlign_two_pow (hk : k < 32) {addr : ℕ} (haddr : addr < 2 ^ 32) :
    addrMinAlign addr (2 ^ k) = addr / 2 ^ k * 2 ^ k := by
  rw [addrMinAlign, toNat_minAlign_two_pow hk, BitVec.toNat_ofNat, Nat.mod_eq_of_lt haddr]

/-- The frames of a page table, and the frames `own` that belong to it. `dir i` is the frame
of the table for directory entry `i`. User addresses have the entries below 512. -/
structure Directory (word : ℕ → ℕ) (pdeBase : ℕ) (dir : ℕ → Option ℕ) (own : ℕ → Prop) : Prop where
  base : ∃ d, pdeBase = pageSize * d ∧ own d ∧ ∀ i, dir i ≠ some d
  present : ∀ i f, i < 512 → dir i = some f → word (pdeBase + 4 * i) = pageSize * f + 7
  absent : ∀ i, i < 512 → dir i = none → word (pdeBase + 4 * i) = 0
  frame : ∀ i f, dir i = some f → own f ∧ 0 < f ∧ f + 1 < 2 ^ 20
  injective : ∀ i j f, dir i = some f → dir j = some f → i = j

/-- The entry of an address in the tables of a directory. -/
def lookup (word : ℕ → ℕ) (dir : ℕ → Option ℕ) (va : ℕ) : Option ℕ :=
  (dir (va / pdeMapSize)).bind fun f =>
    let pte := word (pageSize * f + 4 * (va % pdeMapSize / pageSize))
    if pte.testBit 0 then some (pte / pageSize) else none

theorem div_pdeMapSize_lt (hva : va < kernelVirtualBase) : va / pdeMapSize < 512 := by
  rw [Nat.div_lt_iff_lt_mul (by decide)]
  exact hva

variable {dir : ℕ → Option ℕ} {own : ℕ → Prop} {word : ℕ → ℕ} {s s' : Frames}
  {table : TaskPageTable}

theorem Directory.translate_eq (h : Directory word pdeBase dir own) (hva : va < kernelVirtualBase) :
    translate word pdeBase va = lookup word dir va := by
  have hlt := div_pdeMapSize_lt hva
  unfold translate lookup
  rw [pgtGetPdeEntryAddr_eq]
  cases hdir : dir (va / pdeMapSize) with
  | none => simp [h.absent _ hlt hdir]
  | some f =>
    simp only [h.present _ f hlt hdir, entry_testBit, if_true, pgtGetPteEntryAddr_eq,
      pdeEntryToPa_entry (Nat.lt_of_succ_lt (h.frame _ f hdir).2.2), bind_some]

theorem entry_addr_inj {i' : ℕ} (hi : i < 1024) (hi' : i' < 1024)
    (h : pageSize * f + 4 * i = pageSize * f' + 4 * i') : f = f' ∧ i = i' := by
  rw [pageSize] at h
  omega

theorem pte_index_lt (va : ℕ) : va % pdeMapSize / pageSize < 1024 := by
  rw [Nat.div_lt_iff_lt_mul (by decide)]
  exact Nat.mod_lt va (by decide)

theorem same_page_iff (va va' : ℕ) :
    va' / pageSize = va / pageSize ↔ va' / pdeMapSize = va / pdeMapSize ∧
      va' % pdeMapSize / pageSize = va % pdeMapSize / pageSize := by
  simp only [pageSize, pdeMapSize]
  omega

theorem lookup_congr (word : ℕ → ℕ) (dir : ℕ → Option ℕ) {va' : ℕ}
    (h : va' / pageSize = va / pageSize) : lookup word dir va' = lookup word dir va := by
  obtain ⟨hpde, hpte⟩ := (same_page_iff va va').mp h
  rw [lookup, lookup, hpde, hpte]

/-- Writing the entry of an address maps its page, and changes no other translation. -/
theorem Directory.lookup_write (h : Directory word pdeBase dir own)
    (hdir : dir (va / pdeMapSize) = some f) (page va' : ℕ) :
    lookup (update word (pageSize * f + 4 * (va % pdeMapSize / pageSize))
        (pageSize * page + 7)) dir va' =
      if va' / pageSize = va / pageSize then some page else lookup word dir va' := by
  unfold lookup
  split_ifs with hsame
  · obtain ⟨hpde, hpte⟩ := (same_page_iff va va').mp hsame
    simp only [hpde, hpte, hdir, bind_some, update_self, entry_testBit, if_true, entry_div]
  · cases hdir' : dir (va' / pdeMapSize) with
    | none => rfl
    | some f' =>
      have hne : pageSize * f' + 4 * (va' % pdeMapSize / pageSize) ≠
          pageSize * f + 4 * (va % pdeMapSize / pageSize) := by
        intro heq
        obtain ⟨rfl, hpte⟩ := entry_addr_inj (pte_index_lt va') (pte_index_lt va) heq
        exact hsame ((same_page_iff va va').mpr ⟨h.injective _ _ _ hdir' hdir, hpte⟩)
      simp [hne]

theorem Directory.write (h : Directory word pdeBase dir own) (hdir : dir (va / pdeMapSize) = some f)
    (entry : ℕ) :
    Directory (update word (pageSize * f + 4 * (va % pdeMapSize / pageSize)) entry)
      pdeBase dir own := by
  obtain ⟨d, hd, -, hfree⟩ := h.base
  have hne : ∀ i < 512, pdeBase + 4 * i ≠ pageSize * f + 4 * (va % pdeMapSize / pageSize) := by
    intro i hi heq
    rw [hd] at heq
    obtain ⟨rfl, -⟩ := entry_addr_inj (by omega) (pte_index_lt va) heq
    exact hfree _ hdir
  refine { h with present := ?_, absent := ?_ }
  · intro i f' hi hf'
    rw [update_of_ne (hne i hi)]
    exact h.present i f' hi hf'
  · intro i hi hnone
    rw [update_of_ne (hne i hi)]
    exact h.absent i hi hnone

/-- Words outside of the frames that a page table uses do not matter to it. -/
theorem Directory.congr {word' : ℕ → ℕ} (h : Directory word pdeBase dir own)
    (hsame : ∀ f, own f → (pdeBase = pageSize * f ∨ ∃ i, dir i = some f) →
      ∀ k < pageSize, word' (pageSize * f + k) = word (pageSize * f + k)) :
    Directory word' pdeBase dir own ∧ ∀ va, lookup word' dir va = lookup word dir va := by
  obtain ⟨d, hd, hown, -⟩ := h.base
  have hentry : ∀ i < 512, word' (pdeBase + 4 * i) = word (pdeBase + 4 * i) := by
    intro i hi
    rw [hd]
    exact hsame d hown (Or.inl hd) _ (by rw [pageSize]; omega)
  refine ⟨{ h with present := ?_, absent := ?_ }, ?_⟩
  · intro i f hi hdir
    rw [hentry i hi, h.present i f hi hdir]
  · intro i hi hdir
    rw [hentry i hi, h.absent i hi hdir]
  · intro va
    unfold lookup
    cases hdir : dir (va / pdeMapSize) with
    | none => rfl
    | some f =>
      have hlt := pte_index_lt va
      have hbound : 4 * (va % pdeMapSize / pageSize) < pageSize := by
        simp only [pageSize] at hlt ⊢
        omega
      simp only [bind_some, hsame f (h.frame _ f hdir).1 (Or.inr ⟨_, hdir⟩) _ hbound]

/-- The words after a frame has been cleared and entered into the directory. -/
def newTable (word : ℕ → ℕ) (pdeBase i f : ℕ) : ℕ → ℕ :=
  update
    (fun a => if pageSize * f ≤ a ∧ a < pageSize * f + pageSize then 0 else word a)
    (pdeBase + 4 * i) (pageSize * f + 7)

theorem newTable_of_ne {d : ℕ} (hi : i < 1024) (hk : k < pageSize) (hf : f' ≠ f) (hd : f' ≠ d) :
    newTable word (pageSize * d) i f (pageSize * f' + k) = word (pageSize * f' + k) := by
  have hdir : pageSize * f' + k ≠ pageSize * d + 4 * i := by
    rw [pageSize] at hk ⊢
    omega
  have hframe :
      ¬ (pageSize * f ≤ pageSize * f' + k ∧ pageSize * f' + k < pageSize * f + pageSize) := by
    rw [pageSize] at hk ⊢
    omega
  simp only [newTable, update_of_ne hdir, if_neg hframe]

theorem newTable_entry {d j : ℕ} (hi : i < 1024) (hj : j < 1024) (hd : f ≠ d) :
    newTable word (pageSize * d) i f (pageSize * f + 4 * j) = 0 := by
  have hne : pageSize * f + 4 * j ≠ pageSize * d + 4 * i := by
    rw [pageSize]
    omega
  have hframe : pageSize * f ≤ pageSize * f + 4 * j ∧
      pageSize * f + 4 * j < pageSize * f + pageSize := by
    rw [pageSize]
    omega
  simp only [newTable, update_of_ne hne, if_pos hframe]

theorem update_eq_some_iff {j : ℕ} :
    update dir i (some f) j = some f' ↔ j = i ∧ f = f' ∨ j ≠ i ∧ dir j = some f' := by
  by_cases hji : j = i
  · simp [hji]
  · simp [hji]

/-- A new table maps nothing, so no translation changes. -/
theorem Directory.grow (h : Directory word pdeBase dir own) (hi : i < 512) (hnone : dir i = none)
    (hfree : ¬ own f) (hf : 0 < f ∧ f + 1 < 2 ^ 20) :
    Directory (newTable word pdeBase i f) pdeBase (update dir i (some f))
        (fun f' => own f' ∨ f' = f) ∧
      ∀ va, lookup (newTable word pdeBase i f) (update dir i (some f)) va = lookup word dir va := by
  obtain ⟨d, hd, hown, hbase⟩ := h.base
  have hother : ∀ f', own f' → f' ≠ f := by
    rintro f' hf' rfl
    exact hfree hf'
  have hentry : ∀ j < 512, j ≠ i → newTable word pdeBase i f (pdeBase + 4 * j) =
      word (pdeBase + 4 * j) := by
    intro j hj hji
    have hne : pdeBase + 4 * j ≠ pdeBase + 4 * i := by omega
    have hdf := hother d hown
    have hframe : ¬ (pageSize * f ≤ pdeBase + 4 * j ∧ pdeBase + 4 * j < pageSize * f + pageSize) := by
      rw [hd, pageSize]
      omega
    simp only [newTable, update_of_ne hne, if_neg hframe]
  refine ⟨⟨⟨d, hd, Or.inl hown, ?_⟩, ?_, ?_, ?_, ?_⟩, ?_⟩
  · intro j hj
    obtain ⟨-, rfl⟩ | ⟨-, hj⟩ := update_eq_some_iff.mp hj
    · exact hfree hown
    · exact hbase j hj
  · intro j f' hj hf'
    obtain ⟨rfl, rfl⟩ | ⟨hji, hf'⟩ := update_eq_some_iff.mp hf'
    · simp [newTable]
    · rw [hentry j hj hji, h.present j f' hj hf']
  · intro j hj hj'
    have hji : j ≠ i := by
      rintro rfl
      simp at hj'
    rw [update_of_ne hji] at hj'
    rw [hentry j hj hji, h.absent j hj hj']
  · intro j f' hj
    obtain ⟨-, rfl⟩ | ⟨-, hj⟩ := update_eq_some_iff.mp hj
    · exact ⟨Or.inr rfl, hf⟩
    · exact ⟨Or.inl (h.frame j f' hj).1, (h.frame j f' hj).2⟩
  · intro j j' f' hj hj'
    obtain ⟨hji, rfl⟩ | ⟨-, hj⟩ := update_eq_some_iff.mp hj
    · obtain ⟨hji', -⟩ | ⟨-, hj'⟩ := update_eq_some_iff.mp hj'
      · rw [hji, hji']
      · exact absurd rfl (hother f (h.frame j' f hj').1)
    · obtain ⟨-, rfl⟩ | ⟨-, hj'⟩ := update_eq_some_iff.mp hj'
      · exact absurd rfl (hother f (h.frame j f hj).1)
      · exact h.injective j j' f' hj hj'
  · intro va
    have hlt := pte_index_lt va
    unfold lookup
    rw [hd]
    by_cases hva : va / pdeMapSize = i
    · rw [hva, update_self, hnone, bind_some, newTable_entry (by omega) hlt (hother d hown).symm]
      rfl
    · rw [update_of_ne hva]
      cases hdir : dir (va / pdeMapSize) with
      | none => rfl
      | some f' =>
        have hd' : f' ≠ d := by
          rintro rfl
          exact hbase _ hdir
        rw [bind_some, newTable_of_ne (by omega) (by rw [pageSize] at hlt ⊢; omega)
          (hother f' (h.frame _ f' hdir).1) hd']
        rfl

theorem Directory.pde_eq (h : Directory word pdeBase dir own) (hva : va < kernelVirtualBase) :
    pdeEntryToPa (word (pgtGetPdeEntryAddr pdeBase va)) =
      (dir (va / pdeMapSize)).elim 0 (pageSize * ·) := by
  have hlt := div_pdeMapSize_lt hva
  rw [pgtGetPdeEntryAddr_eq]
  cases hdir : dir (va / pdeMapSize) with
  | none => simp [h.absent _ hlt hdir, pdeEntryToPa]
  | some f =>
    rw [h.present _ f hlt hdir, pdeEntryToPa_entry (Nat.lt_of_succ_lt (h.frame _ f hdir).2.2)]
    rfl

theorem Directory.table_ne_zero (h : Directory word pdeBase dir own) (hdir : dir i = some f) :
    pageSize * f ≠ 0 := by
  have hpos := (h.frame i f hdir).2.1
  rw [pageSize]
  omega

theorem mapEntry_word (s : Frames) (va f page base : ℕ)
    (hpte : pte = pageSize * f + 4 * (va % pdeMapSize / pageSize)) :
    (mapEntry s pte page base).word =
      update s.word (pageSize * f + 4 * (va % pdeMapSize / pageSize))
        (pageSize * page + 7) := by
  simp only [mapEntry, setMapAddress, createEntry, pageToPa_or_seven, hpte]

/-- A page table that is ready for mapping: the frames of the supply belong to nobody, and
there are no frames to be used again. -/
structure Ready (s : Frames) (table : TaskPageTable) (dir : ℕ → Option ℕ) (own : ℕ → Prop) :
    Prop where
  directory : Directory s.word table.pdeBase dir own
  fresh : ∀ f ∈ s.supply, ¬ own f ∧ 0 < f ∧ f + 1 < 2 ^ 20
  nodup : s.supply.Nodup
  taskFree : table.taskList.pteFreeSize = 0
  mmapFree : table.mmapList.pteFreeSize = 0

/-- What mapping the pages in `pages` may change apart from translations: the table takes
frames from the supply, and only its own frames are written. -/
structure Grows (pages : ℕ → Prop) (s s' : Frames) (table table' : TaskPageTable)
    (own own' : ℕ → Prop) : Prop where
  pdeBase : table'.pdeBase = table.pdeBase
  tbuf : table'.tbufPteBase = table.tbufPteBase
  supply : s'.supply <:+ s.supply
  mono : ∀ f, own f → own' f
  taken : ∀ f, own' f → own f ∨ f ∈ s.supply
  outside : ∀ f, ¬ own' f → ∀ k < pageSize, s'.word (pageSize * f + k) = s.word (pageSize * f + k)
  mapAddress : ∀ p, ¬ pages p → s'.mapAddress p = s.mapAddress p

theorem Grows.trans {pages : ℕ → Prop} {s'' : Frames} {table'' : TaskPageTable}
    {own' own'' : ℕ → Prop} (h : Grows pages s s' table table' own own')
    (h' : Grows pages s' s'' table' table'' own' own'') :
    Grows pages s s'' table table'' own own'' := by
  constructor
  · exact h'.pdeBase.trans h.pdeBase
  · exact h'.tbuf.trans h.tbuf
  · exact h'.supply.trans h.supply
  · exact fun f hf => h'.mono f (h.mono f hf)
  · intro f hf
    obtain hf | hf := h'.taken f hf
    · exact h.taken f hf
    · exact Or.inr (h.supply.subset hf)
  · intro f hf k hk
    rw [h'.outside f hf k hk, h.outside f (fun hown => hf (h'.mono f hown)) k hk]
  · intro p hp
    rw [h'.mapAddress p hp, h.mapAddress p hp]

theorem Grows.refl (pages : ℕ → Prop) (s : Frames) (table : TaskPageTable) (own : ℕ → Prop) :
    Grows pages s s table table own own :=
  ⟨rfl, rfl, suffix_refl _, fun _ h => h, fun _ => Or.inl, fun _ _ _ _ => rfl, fun _ _ => rfl⟩

/-- The words after `pgt_map_new_pde_entry`. -/
theorem pgtMapNewPdeEntry_eq (clist : PteCacheList) (pdeBase : ℕ) (s : Frames)
    (hva : va < kernelVirtualBase) :
    pgtMapNewPdeEntry clist pdeBase va s = (allocNewPtePage clist s).map fun (page, clist, s) =>
      (page, clist, createEntry s (pdeBase + 4 * (va / pdeMapSize)) (pageToPa page)) := by
  have halign : addrMinAlign va pdeMapSize / pdeMapSize = va / pdeMapSize := by
    rw [show pdeMapSize = 2 ^ 22 from rfl,
      addrMinAlign_two_pow (by decide) (lt_trans hva (by decide)), Nat.mul_div_cancel _ (by decide)]
  simp only [pgtMapNewPdeEntry, pgtGetPdeEntryAddr_eq, halign]

/-- The frames that are left in a list since it was reset. -/
def PteCacheList.cached (clist : PteCacheList) : List ℕ :=
  if clist.pteFreeSize = 0 then [] else clist.pteList.drop clist.pteCurrentPage

/-- The frames that `alloc_new_pte_page` will give out. -/
def upcoming (clist : PteCacheList) (s : Frames) : List ℕ := clist.cached ++ s.supply

/-- `alloc_new_pte_page` gives out the next frame, cleared. -/
theorem allocNewPtePage_spec (hsize : clist.pteFreeSize = pageSize * clist.cached.length)
    (h : allocNewPtePage clist s = some (page, clist', s')) :
    upcoming clist s = page :: upcoming clist' s' ∧
      clist'.pteFreeSize = pageSize * clist'.cached.length ∧
      clist'.cached.length = clist.cached.length - 1 ∧
      s'.word = (clearPage s (pageToPa page)).word ∧ s'.mapAddress = s.mapAddress := by
  unfold allocNewPtePage requestPage at h
  by_cases hfree : clist.pteFreeSize = 0
  · rw [if_pos hfree] at h
    cases hsupply : s.supply with
    | nil => simp [hsupply] at h
    | cons f supply =>
      simp only [hsupply, map_some, some.injEq, Prod.mk.injEq] at h
      obtain ⟨rfl, rfl, rfl⟩ := h
      simp [upcoming, PteCacheList.cached, hfree, hsupply, clearPage]
  · rw [if_neg hfree, map_eq_some_iff] at h
    obtain ⟨f, hf, heq⟩ := h
    simp only [Prod.mk.injEq] at heq
    obtain ⟨rfl, rfl, rfl⟩ := heq
    have hdrop : clist.pteList.drop clist.pteCurrentPage =
        f :: clist.pteList.drop (clist.pteCurrentPage + 1) := by
      obtain ⟨hlt, hget⟩ := List.getElem?_eq_some_iff.mp hf
      rw [drop_eq_getElem_cons hlt, hget]
    have hcached : clist.cached = f :: clist.pteList.drop (clist.pteCurrentPage + 1) := by
      rw [PteCacheList.cached, if_neg hfree, hdrop]
    rw [hcached, length_cons, Nat.mul_succ] at hsize
    have hleft : clist.pteFreeSize - pageSize =
        pageSize * (clist.pteList.drop (clist.pteCurrentPage + 1)).length := by
      omega
    have hcached' : PteCacheList.cached { clist with
        pteCurrentPage := clist.pteCurrentPage + 1
        pteFreeSize := clist.pteFreeSize - pageSize } =
          clist.pteList.drop (clist.pteCurrentPage + 1) := by
      unfold PteCacheList.cached
      simp only [hleft]
      split_ifs with hzero
      · rw [Nat.mul_eq_zero, length_eq_zero_iff] at hzero
        exact (hzero.resolve_left (by decide)).symm
      · rfl
    refine ⟨?_, ?_, ?_, rfl, rfl⟩
    · rw [upcoming, upcoming, hcached, hcached']
      rfl
    · rw [hcached', hleft]
    · rw [hcached, hcached', length_cons, Nat.add_sub_cancel]

/-- `pgt_map_new_pde_entry` puts the next frame into the directory. -/
theorem pgtMapNewPdeEntry_next (hsize : clist.pteFreeSize = pageSize * clist.cached.length)
    (hva : va < kernelVirtualBase)
    (h : pgtMapNewPdeEntry clist pdeBase va s = some (page, clist', s')) :
    upcoming clist s = page :: upcoming clist' s' ∧
      clist'.pteFreeSize = pageSize * clist'.cached.length ∧
      clist'.cached.length = clist.cached.length - 1 ∧
      s'.word = newTable s.word pdeBase (va / pdeMapSize) page ∧ s'.mapAddress = s.mapAddress := by
  rw [pgtMapNewPdeEntry_eq _ _ s hva, map_eq_some_iff] at h
  obtain ⟨⟨page', clist₁, s₁⟩, halloc, heq⟩ := h
  cases heq
  obtain ⟨hnext, hcached, hlen, hword, hmap⟩ := allocNewPtePage_spec hsize halloc
  refine ⟨hnext, hcached, hlen, ?_, hmap⟩
  simp only [createEntry, hword, clearPage, pageToPa_or_seven]
  rfl

/-- A frame that belongs to nobody becomes the table of an address. No translation changes, and
the frames that are left still belong to nobody. -/
theorem Directory.draw (h : Directory s.word pdeBase dir own) (rest : List ℕ)
    (hva : va < kernelVirtualBase) (hnone : dir (va / pdeMapSize) = none)
    (hsize : clist.pteFreeSize = pageSize * clist.cached.length)
    (hfresh : ∀ f ∈ rest ++ upcoming clist s, ¬ own f ∧ 0 < f ∧ f + 1 < 2 ^ 20)
    (hnodup : (rest ++ upcoming clist s).Nodup)
    (hnew : pgtMapNewPdeEntry clist pdeBase va s = some (page, clist', s')) :
    Directory s'.word pdeBase (update dir (va / pdeMapSize) (some page))
        (fun f => own f ∨ f = page) ∧
      (∀ va', lookup s'.word (update dir (va / pdeMapSize) (some page)) va' =
        lookup s.word dir va') ∧
      (∀ f ∈ rest ++ upcoming clist' s', ¬ (own f ∨ f = page) ∧ 0 < f ∧ f + 1 < 2 ^ 20) ∧
      (rest ++ upcoming clist' s').Nodup := by
  obtain ⟨hnext, -, -, hword, -⟩ := pgtMapNewPdeEntry_next hsize hva hnew
  rw [hnext] at hfresh hnodup
  obtain ⟨hfree, hbound⟩ := hfresh page (by simp)
  obtain ⟨hdirectory, hlookup⟩ := h.grow (div_pdeMapSize_lt hva) hnone hfree hbound
  obtain ⟨hnot, hnodup'⟩ := nodup_cons.mp (nodup_middle.mp hnodup)
  rw [hword]
  refine ⟨hdirectory, hlookup, fun f hf => ?_, hnodup'⟩
  obtain ⟨hown, hpos⟩ := hfresh f (perm_middle.mem_iff.mpr (mem_cons_of_mem page hf))
  refine ⟨?_, hpos⟩
  rintro (hown' | rfl)
  · exact hown hown'
  · exact hnot hf

/-- A new table for an address. -/
theorem Ready.grow (h : Ready s table dir own) (pages : ℕ → Prop) (table' : TaskPageTable)
    (hva : va < kernelVirtualBase) (hnone : dir (va / pdeMapSize) = none)
    (hfree : clist.pteFreeSize = 0)
    (hnew : pgtMapNewPdeEntry clist table.pdeBase va s = some (page, clist', s'))
    (hbase : table'.pdeBase = table.pdeBase) (htbuf : table'.tbufPteBase = table.tbufPteBase)
    (hlists : clist'.pteFreeSize = 0 →
      table'.taskList.pteFreeSize = 0 ∧ table'.mmapList.pteFreeSize = 0) :
    Ready s' table' (update dir (va / pdeMapSize) (some page))
        (fun f => own f ∨ f = page) ∧
      Grows pages s s' table table' own (fun f => own f ∨ f = page) ∧
      ∀ va', lookup s'.word (update dir (va / pdeMapSize) (some page)) va' =
        lookup s.word dir va' := by
  have hnil : clist.cached = [] := if_pos hfree
  have hsize : clist.pteFreeSize = pageSize * clist.cached.length := by
    rw [hfree, hnil, length_nil, Nat.mul_zero]
  obtain ⟨hnext, hsize', hlen, hword, hmap⟩ := pgtMapNewPdeEntry_next hsize hva hnew
  rw [hnil] at hlen
  have hnil' : clist'.cached = [] := eq_nil_of_length_eq_zero hlen
  rw [hnil', length_nil, Nat.mul_zero] at hsize'
  have hsupply : ∀ {clist : PteCacheList} {s : Frames}, clist.cached = [] →
      [] ++ upcoming clist s = s.supply := by
    intro clist s hnil
    rw [upcoming, hnil]
    rfl
  obtain ⟨hdirectory, hlookup, hfresh, hnodup⟩ := h.directory.draw [] hva hnone hsize
    ((hsupply hnil).symm ▸ h.fresh) ((hsupply hnil).symm ▸ h.nodup) hnew
  rw [hsupply hnil'] at hfresh hnodup
  have hnext' : s.supply = page :: s'.supply := by
    rwa [upcoming, upcoming, hnil, hnil'] at hnext
  obtain ⟨d, hd, hown, -⟩ := h.directory.base
  refine ⟨⟨hbase ▸ hdirectory, hfresh, hnodup, (hlists hsize').1, (hlists hsize').2⟩,
    ⟨hbase, htbuf, ?_, ?_, ?_, ?_, ?_⟩, hlookup⟩
  · rw [hnext']
    exact suffix_cons page s'.supply
  · exact fun f hf => Or.inl hf
  · rintro f (hf | rfl)
    · exact Or.inl hf
    · exact Or.inr (by simp [hnext'])
  · intro f hf k hk
    have hlt := div_pdeMapSize_lt hva
    rw [hword, hd]
    refine newTable_of_ne (by omega) hk (fun heq => hf (Or.inr heq)) ?_
    rintro rfl
    exact hf (Or.inl hown)
  · intro p _
    rw [hmap]

/-- What `pgt_get_mapped_pte_addr` does: the entry is in a new table, or in the one that is
there. -/
theorem Directory.getMapped_cases (h : Directory s.word table.pdeBase dir own)
    (hva : va < kernelVirtualBase) (hget : pgtGetMappedPteAddr table va s = some (pte, table', s')) :
    ∃ f, pte = pageSize * f + 4 * (va % pdeMapSize / pageSize) ∧
      ((∃ clist, dir (va / pdeMapSize) = none ∧
          pgtMapNewPdeEntry table.taskList table.pdeBase va s = some (f, clist, s') ∧
          table' = { table with taskList := clist }) ∨
        dir (va / pdeMapSize) = some f ∧ table' = table ∧ s' = s) := by
  unfold pgtGetMappedPteAddr at hget
  simp only [h.pde_eq hva] at hget
  cases hdir : dir (va / pdeMapSize) with
  | none =>
    simp only [hdir, elim_none, if_true, map_eq_some_iff] at hget
    obtain ⟨⟨page, clist, s₁⟩, hnew, hres⟩ := hget
    cases hres
    exact ⟨page, pgtGetPteEntryAddr_eq _ va, .inl ⟨clist, rfl, hnew, rfl⟩⟩
  | some f =>
    simp only [hdir, elim_some, if_neg (h.table_ne_zero hdir)] at hget
    cases hget
    exact ⟨f, pgtGetPteEntryAddr_eq _ va, .inr ⟨rfl, rfl, rfl⟩⟩

/-- `pgt_get_mapped_pte_addr` finds the entry of an address and changes no translation. -/
theorem Ready.getMapped (h : Ready s table dir own) (pages : ℕ → Prop)
    (hva : va < kernelVirtualBase) (hget : pgtGetMappedPteAddr table va s = some (pte, table', s')) :
    ∃ dir' own' f, Ready s' table' dir' own' ∧ Grows pages s s' table table' own own' ∧
      (∀ va', lookup s'.word dir' va' = lookup s.word dir va') ∧
      dir' (va / pdeMapSize) = some f ∧ pte = pageSize * f + 4 * (va % pdeMapSize / pageSize) := by
  obtain ⟨f, hpte, ⟨clist, hdir, hnew, rfl⟩ | ⟨hdir, rfl, rfl⟩⟩ :=
    h.directory.getMapped_cases hva hget
  · obtain ⟨hready, hgrows, hlookup⟩ := h.grow pages { table with taskList := clist } hva hdir
      h.taskFree hnew rfl rfl fun hfree => ⟨hfree, h.mmapFree⟩
    exact ⟨_, _, f, hready, hgrows, hlookup, update_self _ _ _, hpte⟩
  · exact ⟨dir, own, f, h, Grows.refl pages _ _ own, fun _ => rfl, hdir, hpte⟩

/-- Writing the entry of an address. -/
theorem Ready.mapEntry (h : Ready s table dir own) {pages : ℕ → Prop} (va : ℕ)
    (hdir : dir (va / pdeMapSize) = some f) (hpage : pages page) (base : ℕ)
    (hpte : pte = pageSize * f + 4 * (va % pdeMapSize / pageSize)) :
    Ready (mapEntry s pte page base) table dir own ∧
      Grows pages s (mapEntry s pte page base) table table own own ∧
      ∀ va', lookup (mapEntry s pte page base).word dir va' =
        if va' / pageSize = va / pageSize then some page else lookup s.word dir va' := by
  have hword := mapEntry_word s va f page base hpte
  have hlt := pte_index_lt va
  refine ⟨⟨?_, h.fresh, h.nodup, h.taskFree, h.mmapFree⟩,
    ⟨rfl, rfl, suffix_refl _, fun _ hf => hf, fun _ => Or.inl, ?_, ?_⟩, ?_⟩
  · rw [hword]
    exact h.directory.write hdir _
  · intro f' hf' k hk
    rw [hword, update_of_ne]
    rintro heq
    have hff : f' = f := by
      simp only [pageSize] at heq hk hlt
      omega
    exact hf' (hff ▸ (h.directory.frame _ f hdir).1)
  · intro p hp
    have hne : p ≠ page := by
      rintro rfl
      exact hp hpage
    simp [Pgt.mapEntry, setMapAddress, createEntry, hne]
  · intro va'
    rw [hword]
    exact h.directory.lookup_write hdir page va'

end Chunos.Pgt
