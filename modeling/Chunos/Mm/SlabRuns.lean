import Chunos.Lib.Runs
import Chunos.Mm.SlabCalls

/-!
# Runs of the slab allocator

After `slab_init` the allocator serves any sequence of `kmalloc` and `kfree` calls, while
the owners write to what they got. In every state the caches are tiled by blocks and the
bump region. Whether a block is as large as its owner asked for is another question: the
last pool serves all sizes above 512 with whatever block is first on it.
-/

namespace Chunos.Slabs

open Cover List Option

variable {fits : Prop} {s s' : Slab} {live : List LiveBlock} {pages : List LivePages}

variable {size : ℤ} {current : Bool} {addr : ℕ}

/-- Rounding an `int` size up to a multiple of 16 overflows to a negative size at the end of
the range. -/
theorem getSlabAllocSize_spec (hpos : 0 < size) (hint : size < 2 ^ 31) :
    getSlabAllocSize size < 0 ∧ 2 ^ 31 - 16 < size ∨
      getSlabAllocSize size = (size + 15) / 16 * 16 ∧ size ≤ 2 ^ 31 - 16 := by
  have hword : (BitVec.ofInt 32 size).toNat = size.toNat := by
    rw [BitVec.toNat_ofInt]
    omega
  have hround := toNat_align_two_pow (k := 4) (x := BitVec.ofInt 32 size) (by decide)
    (by rw [hword]; omega)
  rw [hword] at hround
  unfold getSlabAllocSize
  rw [BitVec.toInt_eq_toNat_cond, hround]
  split_ifs <;> omega

/-- The number of pages of a size is not positive after an overflow, and else it is
enough. -/
theorem pageNr_spec (hpos : 0 < size) (hint : size < 2 ^ 31) :
    pageNr size ≤ 0 ∨ size ≤ pageNr size * pageSize := by
  have hword : (BitVec.ofInt 32 size).toNat = size.toNat := by
    rw [BitVec.toNat_ofInt]
    omega
  have hround := toNat_align_two_pow (k := 12) (x := BitVec.ofInt 32 size) (by decide)
    (by rw [hword]; omega)
  rw [hword] at hround
  unfold pageNr
  rw [BitVec.toInt_sshiftRight, BitVec.toInt_eq_toNat_cond, hround, Int.shiftRight_eq_div_pow]
  simp only [pageShift, pageSize]
  split_ifs <;> omega

/-- The loop over the allocation functions returns the first result that is not `NULL`. -/
theorem tryAlloc_cons_eq_some {func : Slab → Option (ℕ × Slab)}
    {funcs : List (Slab → Option (ℕ × Slab))} {ret : ℕ}
    (h : tryAlloc (func :: funcs) s = some (ret, s')) :
    ∃ ret₁ s₁, func s = some (ret₁, s₁) ∧
      (ret₁ = ret ∧ s₁ = s' ∨ ret₁ = 0 ∧ tryAlloc funcs s₁ = some (ret, s')) := by
  obtain ⟨⟨ret₁, s₁⟩, hfunc, hrest⟩ := bind_eq_some_iff.mp h
  refine ⟨ret₁, s₁, hfunc, ?_⟩
  simp only at hrest
  by_cases hzero : ret₁ = 0
  · rw [if_pos hzero] at hrest
    exact Or.inr ⟨hzero, hrest⟩
  · rw [if_neg hzero, some.injEq, Prod.mk.injEq] at hrest
    exact Or.inl hrest

/-- The last pool does not get in the way of a request of `n` bytes. Its first block is
large enough. When the bump region is too small, no page can be had and the call goes on,
the region is also too small to go to the last pool. -/
def LastPoolFits (current : Bool) (n : ℤ) (page : Option ℕ) (s : Slab) : Prop :=
  512 < n → (s.head 32 ≠ 0 → n ≤ s.mem (s.head 32)) ∧
    (current = false → page = none → s.freeSize < n + slabHeaderSize → s.freeSize < 536)

instance (current : Bool) (n : ℤ) (page : Option ℕ) (s : Slab) :
    Decidable (LastPoolFits current n page s) :=
  inferInstanceAs (Decidable (_ → _))

/-- The functions that `__kmalloc` tries for a size below a page grant a block, or none. -/
theorem tryAlloc_spec (hinv : HoldsInv fits s live pages) {page : Option ℕ} {n ret : ℕ}
    {requested : ℤ} (hn : minSlabSize ≤ n) (halign : 16 ∣ n) (hsmall : n < pageSize)
    (hreq : requested ≤ n) (hpage : ∀ va, page = some va → PageOk s pages 1 va)
    (hlast : fits → LastPoolFits current n page s) (h : tryAlloc
      [getSlabFromPool current n, getSlabFromSlabFree current n,
        getNewSlab current page n gfpKernel, getBigSlab current n] s = some (ret, s')) :
    HoldsInv fits s' (grant live ret requested) pages := by
  have hdvd : 8 ∣ n := (by decide : 8 ∣ 16).trans halign
  obtain ⟨ret₁, s₁, hpool, hcase⟩ := tryAlloc_cons_eq_some h
  have hfit : fits → ∀ id, slabPoolId n = some id → s.head id ≠ 0 →
      requested ≤ s.mem (s.head id) := by
    intro hf id hid hhead
    by_cases hlarge : n ≤ 512
    · have hle := hinv.pool_fits hid hlarge halign (le_refl id) (slabPoolId_spec hid).1 hhead
      omega
    · obtain rfl := (slabPoolId_spec hid).2.2.2 (by omega) halign
      have hle := (hlast hf (by omega)).1 hhead
      omega
  obtain ⟨hgrant₁, hzero₁⟩ := getSlabFromPool_spec hinv hfit hpool
  obtain ⟨rfl, rfl⟩ | ⟨rfl, htry₁⟩ := hcase
  · exact hgrant₁
  obtain ⟨⟨b₁, rfl⟩, hempty⟩ := hzero₁ rfl
  rw [grant_zero] at hgrant₁
  obtain ⟨ret₂, s₂, hfree, hcase⟩ := tryAlloc_cons_eq_some htry₁
  obtain ⟨hgrant₂, hzero₂⟩ :=
    getSlabFromSlabFree_spec hgrant₁ hn hdvd (fun _ => hreq) hfree
  obtain ⟨rfl, rfl⟩ | ⟨rfl, htry₂⟩ := hcase
  · exact hgrant₂
  obtain ⟨⟨b₂, rfl⟩, hfew⟩ := hzero₂ rfl
  rw [grant_zero] at hgrant₂
  obtain ⟨ret₃, s₃, hnew, hcase⟩ := tryAlloc_cons_eq_some htry₂
  have hnotPages : ¬ (gfpKernel = gfpDma ∨ gfpKernel = gfpRes ∨ (pageSize : ℤ) ≤ n) := by
    simp only [gfpKernel, gfpDma, gfpRes]
    omega
  rw [getNewSlab, if_neg hnotPages, Int.toNat_natCast] at hnew
  obtain ⟨hgrant₃, hzero₃⟩ :=
    doGetNewSlab_spec hgrant₂ hn halign hsmall (fun _ => hreq) hpage hnew
  obtain ⟨rfl, rfl⟩ | ⟨rfl, htry₃⟩ := hcase
  · exact hgrant₃
  obtain ⟨hnone, hlocked, hhead₃⟩ := hzero₃ rfl
  rw [grant_zero] at hgrant₃
  obtain ⟨ret₄, s₄, hbig, hcase⟩ := tryAlloc_cons_eq_some htry₃
  have hfit₃ : fits → ∀ id, slabPoolId n = some id → ∀ j, id ≤ j → j < poolNr → s₃.head j ≠ 0 →
      requested ≤ s₃.mem (s₃.head j) := by
    intro hf id hid j hle hj hhead
    by_cases hlarge : n ≤ 512
    · have hpool := hgrant₃.pool_fits hid hlarge halign hle hj hhead
      omega
    · -- Above 512 only the last pool is searched, and it is still empty.
      have hboot : current = false := by
        by_contra hcurrent
        have htask : current = true := by simpa using hcurrent
        rw [htask, getBigSlab_locked (hlocked htask)] at hbig
        cases hbig
      obtain rfl := (slabPoolId_spec hid).2.2.2 (by omega) halign
      obtain rfl : j = 32 := by
        simp only [poolNr] at hj
        omega
      have hkept := hhead₃ ((hlast hf (by omega)).2 hboot hnone (by exact_mod_cast hfew))
      exact absurd (hkept.trans (hempty 32 hid)) hhead
  have hgrant₄ := getBigSlab_spec hgrant₃ hfit₃ hbig
  obtain ⟨rfl, rfl⟩ | ⟨rfl, htry₄⟩ := hcase
  · exact hgrant₄
  · obtain ⟨rfl, rfl⟩ := Prod.mk.inj (some.inj htry₄)
    exact hgrant₄

/-- The allocator with the history that the sources do not keep: the blocks and the pages
in use. -/
structure SlabRun where
  slab : Slab
  live : List LiveBlock
  pages : List LivePages

/-- A call of `kmalloc(size, GFP_KERNEL)` with the answer to its page request, a call of
`kfree`, or a store of an owner to its memory. `current` says whether a task is running. -/
inductive SlabCall where
  | kmalloc (current : Bool) (size : ℤ) (page : Option ℕ)
  | kfree (current : Bool) (addr : ℕ)
  | store (addr word : ℕ)

/-- The pages that `kmalloc` asks for when it makes a request. -/
def requestNr (size : ℤ) : ℕ :=
  if (pageSize : ℤ) ≤ getSlabAllocSize size then (pageNr (getSlabAllocSize size)).toNat else 1

/-- The address belongs to a block or to pages in use. -/
def SlabRun.Writable (r : SlabRun) (addr : ℕ) : Prop :=
  (∃ b ∈ r.live, b.header + slabHeaderSize ≤ addr ∧
    addr < b.header + slabHeaderSize + r.slab.mem b.header) ∨
  ∃ p ∈ r.pages, Holds p.span addr

instance (r : SlabRun) (addr : ℕ) : Decidable (r.Writable addr) :=
  inferInstanceAs (Decidable (_ ∨ _))

/-- The history after `kmalloc` has returned `ret`. Sizes from a page on are served with
whole pages. -/
def SlabRun.granted (r : SlabRun) (size : ℤ) (ret : ℕ) (slab : Slab) : SlabRun :=
  if (pageSize : ℤ) ≤ getSlabAllocSize size then
    { r with
      slab := slab
      pages := if ret = 0 then r.pages else ⟨ret, requestNr size, size⟩ :: r.pages }
  else { r with slab := slab, live := grant r.live ret size }

/-- Perform one call. It is `none` when the call does not return, and for calls that are
not made: a size that is no `int`, a `kfree` of something that is not in use, a store to
memory that is not in use. A page request is answered with pages that are free. -/
def SlabRun.step : SlabCall → SlabRun → Option SlabRun
  | .kmalloc current size page, r =>
    if (-2 ^ 31 ≤ size ∧ size < 2 ^ 31) ∧
        ∀ va ∈ page, PageOk r.slab r.pages (requestNr size) va then
      (Slabs.kmalloc current page size gfpKernel r.slab).map fun p => r.granted size p.1 p.2
    else none
  | .kfree current addr, r =>
    match r.live.find? (fun b => b.header + slabHeaderSize = addr) with
    | some b =>
      (Slabs.kfree current addr r.slab).map fun slab =>
        { r with slab := slab, live := r.live.erase b }
    | none =>
      match r.pages.find? (fun p => p.addr = addr) with
      | some p =>
        (Slabs.kfree current addr r.slab).map fun slab =>
          { r with slab := slab, pages := r.pages.erase p }
      | none => none
  | .store addr word, r =>
    if r.Writable addr then
      some { r with slab := { r.slab with mem := Function.update r.slab.mem addr word } }
    else none

/-- The invariant for an allocator with its history. -/
def SlabRun.HoldsInv (fits : Prop) (r : SlabRun) : Prop :=
  Slabs.HoldsInv fits r.slab r.live r.pages

/-- A call that returns `NULL` and leaves the allocator leaves the history too. -/
theorem SlabRun.granted_zero (r : SlabRun) (size : ℤ) : r.granted size 0 r.slab = r := by
  unfold granted
  rw [grant_zero, if_pos (rfl : (0 : ℕ) = 0), ite_self]

variable {r r' : SlabRun}

/-- `kmalloc` keeps the invariant. With `fits`, the last pool must not get in the way. -/
theorem SlabRun.kmalloc_inv (hinv : r.HoldsInv fits) {page : Option ℕ}
    (hfits : fits → getSlabAllocSize size < pageSize →
      LastPoolFits current (getSlabAllocSize size) page r.slab)
    (hstep : r.step (.kmalloc current size page) = some r') : r'.HoldsInv fits := by
  simp only [step, ite_none_right_eq_some, map_eq_some_iff] at hstep
  obtain ⟨⟨⟨-, hint⟩, hpage⟩, ⟨ret, slab⟩, hkmalloc, rfl⟩ := hstep
  unfold Slabs.kmalloc at hkmalloc
  by_cases hpos : size ≤ 0
  · rw [if_pos hpos] at hkmalloc
    obtain ⟨rfl, rfl⟩ := Prod.mk.inj (some.inj hkmalloc)
    rwa [granted_zero]
  rw [if_neg hpos, if_neg (by simp), doKmalloc, if_neg (by decide)] at hkmalloc
  have hround := getSlabAllocSize_spec (not_le.mp hpos) hint
  by_cases hlarge : (pageSize : ℤ) ≤ getSlabAllocSize size
  · -- Whole pages come from the page allocator, and the slabs stay as they are.
    rw [if_pos (Or.inr hlarge), getNewSlab, if_pos (Or.inr (Or.inr hlarge))] at hkmalloc
    obtain ⟨rfl, rfl⟩ := Prod.mk.inj (some.inj hkmalloc)
    by_cases hzero : getFreePages page (pageNr (getSlabAllocSize size)) = 0
    · rw [hzero, granted_zero]
      exact hinv
    · have hcount : 0 < pageNr (getSlabAllocSize size) := by
        by_contra hle
        exact hzero (if_pos (not_lt.mp hle))
      rw [getFreePages, if_neg (not_le.mpr hcount)] at hzero ⊢
      cases page with
      | none => exact absurd rfl hzero
      | some va =>
        obtain ⟨-, -, hfresh⟩ := hpage va rfl
        obtain ⟨chain, hinv⟩ := hinv
        have hnr : requestNr size = (pageNr (getSlabAllocSize size)).toNat := if_pos hlarge
        rw [granted, if_pos hlarge, if_neg hzero]
        refine ⟨chain, hinv.addPages hfresh ?_⟩
        intro _
        have hn : 0 < getSlabAllocSize size := by omega
        have hpages := pageNr_spec hn (by omega)
        simp only [hnr, pageSize] at *
        omega
  · have hkernel : ¬ (gfpKernel ≠ gfpKernel ∨ (pageSize : ℤ) ≤ getSlabAllocSize size) := by
      simp [hlarge]
    rw [if_neg hkernel] at hkmalloc
    by_cases hneg : getSlabAllocSize size < 0
    · rw [if_pos hneg] at hkmalloc
      cases hkmalloc
    · rw [if_neg hneg] at hkmalloc
      rw [granted, if_neg hlarge]
      have hnr : requestNr size = 1 := if_neg hlarge
      rw [hnr] at hpage
      generalize getSlabAllocSize size = n at *
      obtain ⟨n, rfl⟩ := Int.eq_ofNat_of_zero_le (not_lt.mp hneg)
      rw [Int.toNat_natCast] at hkmalloc
      simp only [pageSize] at hlarge hfits
      apply tryAlloc_spec hinv _ _ _ _ (fun va hva => hpage va hva) _ hkmalloc
      · simp only [minSlabSize]
        omega
      · omega
      · simp only [pageSize]
        omega
      · omega
      · exact fun hf => hfits hf (by omega)

theorem HoldsInv.perm_live (hinv : HoldsInv fits s live pages) {live' : List LiveBlock}
    (hperm : live'.Perm live) : HoldsInv fits s live' pages := by
  obtain ⟨chain, hinv⟩ := hinv
  refine ⟨chain, ?_⟩
  apply hinv.reassign ((hperm.map _).append_right _) (fun _ _ => rfl) rfl rfl rfl hinv.chains
  · exact fun b hb => hinv.magic b (hperm.mem_iff.mp hb)
  · exact hinv.pooled
  · exact fun hf b hb => (hinv.fit hf).1 b (hperm.mem_iff.mp hb)

/-- `kfree` of a block in use puts it on the pool of its size. -/
theorem kfree_live {b : LiveBlock} (hinv : HoldsInv fits s (b :: live) pages)
    (h : kfree current (b.header + slabHeaderSize) s = some s') : HoldsInv fits s' live pages := by
  obtain ⟨chain, hinv⟩ := hinv
  have hmem : b.header ∈ blocks (b :: live) chain := header_mem_blocks mem_cons_self
  have hmagic := hinv.magic b mem_cons_self
  obtain ⟨hlo, hhi⟩ := hinv.size_ok b.header hmem
  obtain ⟨id, hid⟩ := slabPoolId_isSome hlo hhi
  obtain ⟨hlt, hmin, -⟩ := slabPoolId_spec hid
  rw [kfree, if_neg (by simp only [slabHeaderSize]; omega)] at h
  obtain ⟨s₁, hlock, hrest⟩ := bind_eq_some_iff.mp h
  obtain ⟨c, rfl⟩ := mutexLock_sameBut hlock
  simp only [Nat.add_sub_cancel, hmagic, ne_eq, not_true_eq_false, if_false, hid, map_some,
    some.injEq] at hrest
  subst hrest
  exact ⟨_, ((hinv.setLocked c).addToPool hlt hmin).setLocked false⟩

/-- `kfree` of pages whose front word is not the magic number leaves the slabs. -/
theorem kfree_pages (hmagic : s.mem (addr - slabHeaderSize + 4) ≠ slabMagic)
    (h : kfree current addr s = some s') : SameBut s s' := by
  unfold kfree at h
  split_ifs at h with hnull
  · exact ⟨s.locked, (some.inj h).symm⟩
  obtain ⟨s₁, hlock, hrest⟩ := bind_eq_some_iff.mp h
  obtain ⟨c, rfl⟩ := mutexLock_sameBut hlock
  simp only [hmagic, ne_eq, not_false_eq_true, if_true, some.injEq] at hrest
  exact ⟨false, hrest.symm⟩

/-- The word in front of pages that are freed is not taken for the magic number. -/
def SlabRun.FreesPages (r : SlabRun) (addr : ℕ) : Prop :=
  ∀ p ∈ r.pages, p.addr = addr → r.slab.mem (addr - slabHeaderSize + 4) ≠ slabMagic

instance (r : SlabRun) (addr : ℕ) : Decidable (r.FreesPages addr) :=
  inferInstanceAs (Decidable (∀ p ∈ _, _))

/-- `kfree` keeps the invariant. -/
theorem SlabRun.kfree_inv (hinv : r.HoldsInv fits) (hmagic : r.FreesPages addr)
    (hstep : r.step (.kfree current addr) = some r') : r'.HoldsInv fits := by
  unfold step at hstep
  cases hlive : r.live.find? (fun b => b.header + slabHeaderSize = addr) with
  | some b =>
    simp only [hlive, map_eq_some_iff] at hstep
    obtain ⟨slab, hkfree, rfl⟩ := hstep
    have haddr : b.header + slabHeaderSize = addr := by simpa using find?_some hlive
    have hb : b ∈ r.live := mem_of_find?_eq_some hlive
    rw [← haddr] at hkfree
    exact kfree_live (hinv.perm_live (perm_cons_erase hb).symm) hkfree
  | none =>
    cases hpages : r.pages.find? (fun p => p.addr = addr) with
    | none => simp only [hlive, hpages, reduceCtorEq] at hstep
    | some p =>
      simp only [hlive, hpages, map_eq_some_iff] at hstep
      obtain ⟨slab, hkfree, rfl⟩ := hstep
      have haddr : p.addr = addr := by simpa using find?_some hpages
      have hp : p ∈ r.pages := mem_of_find?_eq_some hpages
      have hsame := kfree_pages (hmagic p hp haddr) hkfree
      obtain ⟨chain, hinv⟩ := hinv
      exact HoldsInv.of_sameBut ⟨chain, hinv.erasePages p⟩ hsame

theorem SlabRun.store_inv (hinv : r.HoldsInv fits) {word : ℕ}
    (hstep : r.step (.store addr word) = some r') : r'.HoldsInv fits := by
  obtain ⟨chain, hinv⟩ := hinv
  simp only [step, ite_none_right_eq_some, some.injEq] at hstep
  obtain ⟨hwritable, rfl⟩ := hstep
  refine ⟨chain, hinv.store ?_ word⟩
  obtain ⟨b, hb, hlo, hhi⟩ | ⟨p, hp, hx⟩ := hwritable
  · exact hinv.not_header_of_live hb hlo hhi
  · exact hinv.not_header_of_pages hp hx

/-- The state after `slab_init`, in memory of any content, when the page request returns
`va`. -/
def SlabRun.Started (va : ℕ) (r : SlabRun) : Prop :=
  0 < va ∧ pageSize ∣ va ∧ (∃ mem, slabInit mem (some va) = some (0, r.slab)) ∧
    r.live = [] ∧ r.pages = []

/-- The state after `slab_init` in cleared memory, with the first cache at address 4096. -/
def firstCache : SlabRun :=
  { slab :=
      { clearedSlab (fun _ => 0) with
        plist := [(4096, 256)], freeSize := 256 * pageSize, allocSize := 256 * pageSize
        allocPages := 256, slabFree := 4096 }
    live := []
    pages := [] }

/-- This is a state after `slab_init`. -/
theorem firstCache_started : firstCache.Started 4096 :=
  ⟨by decide, by decide, ⟨fun _ => 0, rfl⟩, rfl, rfl⟩

theorem clearedSlab_inv (mem : ℕ → ℕ) : Inv fits (clearedSlab mem) [] [] (fun _ => []) := by
  have hnil : blocks [] (fun _ => []) = [] := by simp [blocks]
  exact {
    chains := fun i _ => rfl
    nodup := hnil ▸ nodup_nil
    tiles := fun x => by simp [pieces, hnil, count_empty, Slab.cacheSpans, clearedSlab]
    apart := fun x => by simp [Slab.cacheSpans, clearedSlab]
    header_ok := by simp [hnil]
    size_ok := by simp [hnil]
    magic := by simp
    pooled := by simp
    bump_size := Or.inl rfl
    bump_addr := fun h => absurd rfl h
    fit := by simp }

/-- The invariant holds after `slab_init`: the cache is the bump region. -/
theorem SlabRun.started_inv {va : ℕ} (hstart : r.Started va) : r.HoldsInv fits := by
  obtain ⟨hva, halign, ⟨mem, hinit⟩, hlive, hpages⟩ := hstart
  have hpage : ∀ va', some va = some va' →
      PageOk (clearedSlab mem) [] (slabCacheSize / pageSize) va' := by
    rintro va' heq
    obtain rfl := some.inj heq
    refine ⟨hva, halign, ?_⟩
    simp [FreshSpan, Slab.cacheSpans, clearedSlab]
  have hempty : Slabs.HoldsInv fits (clearedSlab mem) [] [] := ⟨_, clearedSlab_inv mem⟩
  obtain ⟨hnone, -⟩ | ⟨-, -, hinv, -⟩ :=
    allocNewSlabCache_spec hempty rfl (by decide) (by decide) hpage hinit
  · exact absurd hnone (some_ne_none va)
  · unfold SlabRun.HoldsInv
    rwa [hlive, hpages]

end Chunos.Slabs
