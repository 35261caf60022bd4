import Chunos.Mm.SlabRuns

/-!
# kmalloc when no page can be had

A request that finds its pool empty and the bump region too small asks for a page. When there is
none, `alloc_new_slab_cache` returns without unlocking the mutex, and the last function that
`__kmalloc` tries, the search of the larger pools, waits for it. No other task can unlock it. The
search is only reached while no task is running, when the mutex is not used.
-/

namespace Chunos.Slabs

open Option

variable {s : Slab} {size : ℤ}

/-- A request for less than a page that comes to `request_pages`: the pool of its size is empty and
the bump region is too small. -/
structure AsksForPage (size : ℤ) (s : Slab) : Prop where
  pos : 0 < size
  small : size ≤ pageSize - minSlabSize
  pool : ∀ id, slabPoolId (getSlabAllocSize size).toNat = some id → s.head id = 0
  region : s.freeSize < (getSlabAllocSize size).toNat + slabHeaderSize

/-- What the search of the pools from `id` on returns: the first block of the first one that is not
empty, or nothing. -/
def FromPools (s : Slab) (id ret : ℕ) : Prop :=
  (ret = 0 ∧ ∀ j, id ≤ j → j < poolNr → s.head j = 0) ∨
    ∃ j, id ≤ j ∧ j < poolNr ∧ (∀ i, id ≤ i → i < j → s.head i = 0) ∧ s.head j ≠ 0 ∧
      ret = s.head j + slabHeaderSize

theorem AsksForPage.rounded (h : AsksForPage size s) :
    ∃ n : ℕ, getSlabAllocSize size = n ∧ minSlabSize ≤ n ∧ n < pageSize := by
  have hpos := h.pos
  have hsmall := h.small
  simp only [pageSize, minSlabSize] at hsmall ⊢
  rcases getSlabAllocSize_spec hpos (by omega) with ⟨-, hlarge⟩ | ⟨heq, -⟩
  · omega
  · exact ⟨((size + 15) / 16 * 16).toNat, by omega, by omega, by omega⟩

variable {current : Bool} {n : ℕ}

theorem withMutex_eq {α : Type*} (hfree : current = true → s.locked = false)
    (body : Slab → α × Slab) :
    ∃ s₁, SameBut s s₁ ∧
      withMutex current body s = some ((body s₁).1, mutexUnlock (body s₁).2) := by
  cases current with
  | false => exact ⟨s, ⟨s.locked, rfl⟩, rfl⟩
  | true =>
    refine ⟨{ s with locked := true }, ⟨true, rfl⟩, ?_⟩
    simp [withMutex, mutexLock, hfree rfl]

/-- The search of the pools passes over empty ones. -/
theorem bigSlabLoop_first (head : ℕ → ℕ) (n id : ℕ) :
    (bigSlabLoop head n id = none ∧ ∀ j, id ≤ j → j < id + n → head j = 0) ∨
      ∃ j, bigSlabLoop head n id = some j ∧ id ≤ j ∧ j < id + n ∧ head j ≠ 0 ∧
        ∀ i, id ≤ i → i < j → head i = 0 := by
  induction n generalizing id with
  | zero => exact Or.inl ⟨rfl, fun j hle hlt => by omega⟩
  | succ n ih =>
    rw [bigSlabLoop]
    by_cases hempty : head id = 0
    · rw [if_pos hempty]
      have hfirst : ∀ i, id ≤ i → (id + 1 ≤ i → head i = 0) → head i = 0 := by
        intro i hle hrest
        obtain rfl | hne := eq_or_ne i id
        · exact hempty
        · exact hrest (by omega)
      rcases ih (id + 1) with ⟨hnone, hall⟩ | ⟨j, hsome, hle, hlt, hhead, hbefore⟩
      · exact Or.inl ⟨hnone, fun j hle hlt => hfirst j hle fun h => hall j h (by omega)⟩
      · exact Or.inr ⟨j, hsome, by omega, by omega, hhead,
          fun i hle hlt => hfirst i hle fun h => hbefore i h hlt⟩
    · rw [if_neg hempty]
      exact Or.inr ⟨id, rfl, le_rfl, by omega, hempty, fun i hle hlt => by omega⟩

/-- `get_big_slab`, when the mutex is free or not used. -/
theorem getBigSlab_fromPools (hfree : current = true → s.locked = false) {id : ℕ}
    (hid : slabPoolId n = some id) :
    ∃ ret s', getBigSlab current n s = some (ret, s') ∧ FromPools s id ret ∧ s'.locked = false := by
  have hlt := (slabPoolId_spec hid).1
  have hbig : getBigSlab current n s = withMutex current (fun s =>
      (bigSlabLoop s.head (poolNr - id) id).elim (0, s) fun j => takeFromPool s j) s := by
    rw [getBigSlab, hid, bind_some]
    congr 1
    funext s
    cases bigSlabLoop s.head (poolNr - id) id <;> rfl
  obtain ⟨s₁, ⟨b, rfl⟩, heq⟩ := withMutex_eq hfree fun s =>
    (bigSlabLoop s.head (poolNr - id) id).elim (0, s) fun j => takeFromPool s j
  rw [hbig, heq]
  refine ⟨_, _, rfl, ?_, rfl⟩
  obtain ⟨hnone, hall⟩ | ⟨j, hsome, hle, hj, hne, hbefore⟩ :=
    bigSlabLoop_first s.head (poolNr - id) id
  · left
    simp only [hnone, elim_none]
    exact ⟨trivial, fun j hle hj => hall j hle (by omega)⟩
  · right
    simp only [hsome, elim_some]
    exact ⟨j, hle, by omega, hbefore, hne, rfl⟩

theorem donate_locked (s : Slab) (b : Bool) :
    donate { s with locked := b } = { donate s with locked := b } := by
  unfold donate
  split_ifs
  · rfl
  · cases hid : slabPoolId (s.freeSize - slabHeaderSize) with
    | none => rfl
    | some id => rfl

section
variable (hfree : current = true → s.locked = false)
include hfree

theorem getSlabFromPool_empty {id : ℕ} (hid : slabPoolId n = some id) (hempty : s.head id = 0) :
    getSlabFromPool current n s = some (0, { s with locked := false }) := by
  obtain ⟨s₁, ⟨b, rfl⟩, heq⟩ := withMutex_eq hfree
    fun s => if s.head id = 0 then (0, s) else takeFromPool s id
  rw [getSlabFromPool, hid, bind_some, heq]
  simp only [hempty, if_true, mutexUnlock]

theorem getSlabFromSlabFree_small (hsmall : s.freeSize < n + slabHeaderSize) :
    getSlabFromSlabFree current n s = some (0, { s with locked := false }) := by
  obtain ⟨s₁, ⟨b, rfl⟩, heq⟩ := withMutex_eq hfree
    fun s => if s.freeSize < n + slabHeaderSize then (0, s) else carve s n
  rw [getSlabFromSlabFree, heq]
  simp only [hsmall, if_true, mutexUnlock]

theorem doGetNewSlab_none (n : ℕ) :
    doGetNewSlab current none n s = some (0, { donate s with locked := current }) := by
  obtain ⟨s₁, ⟨b, rfl⟩, heq⟩ := withMutex_eq hfree fun s => ((), donate s)
  rw [doGetNewSlab, heq, bind_some]
  have herr : -enomem ≠ 0 := by decide
  cases current with
  | false => simp [allocNewSlabCache, mutexLock, mutexUnlock, herr, donate_locked]
  | true => simp [allocNewSlabCache, mutexLock, mutexUnlock, herr, donate_locked]

end

/-- A request for less than a page goes through the functions of the table. -/
theorem AsksForPage.kmalloc_eq (h : AsksForPage size s) (current : Bool) (page : Option ℕ)
    (hn : getSlabAllocSize size = n) :
    kmalloc current page size gfpKernel s =
      tryAlloc
        [getSlabFromPool current n, getSlabFromSlabFree current n,
          getNewSlab current page n gfpKernel, getBigSlab current n] s := by
  obtain ⟨n', hn', -, hhi⟩ := h.rounded
  obtain rfl : n = n' := by exact_mod_cast hn.symm.trans hn'
  have hpos := h.pos
  have hflag : ¬ (gfpKernel ≠ gfpKernel ∧ gfpKernel ≠ gfpDma ∧ gfpKernel ≠ gfpRes) := by simp
  have huser : ¬ (gfpKernel &&& gfpUser ≠ 0) := by decide
  have hpages : ¬ (gfpKernel ≠ gfpKernel ∨ (pageSize : ℤ) ≤ n) := by
    simp only [ne_eq, not_true_eq_false, false_or]
    omega
  rw [kmalloc, if_neg (by omega), if_neg hflag, doKmalloc, if_neg huser]
  simp only [hn, if_neg hpages, Int.toNat_natCast]
  rw [if_neg (by omega)]

/-- When there is no page, what remains is the search of the larger pools, with the mutex
locked by the task itself. -/
theorem AsksForPage.kmalloc_none (h : AsksForPage size s)
    (hfree : current = true → s.locked = false) (hn : getSlabAllocSize size = n) :
    kmalloc current none size gfpKernel s =
      getBigSlab current n { donate s with locked := current } := by
  obtain ⟨n', hn', hlo, hhi⟩ := h.rounded
  obtain rfl : n = n' := by exact_mod_cast hn.symm.trans hn'
  obtain ⟨id, hid⟩ := slabPoolId_isSome hlo (by simp only [pageSize, slabCacheSize] at *; omega)
  have hpool : s.head id = 0 := h.pool id (by rw [hn, Int.toNat_natCast, hid])
  have hregion := h.region
  rw [hn, Int.toNat_natCast] at hregion
  have hnew : ¬ (gfpKernel = gfpDma ∨ gfpKernel = gfpRes ∨ (pageSize : ℤ) ≤ n) := by
    simp only [gfpKernel, gfpDma, gfpRes]
    omega
  have hunlocked : current = true → ({ s with locked := false } : Slab).locked = false :=
    fun _ => rfl
  rw [h.kmalloc_eq current none hn]
  simp only [tryAlloc, getSlabFromPool_empty hfree hid hpool, bind_some, if_true]
  rw [getSlabFromSlabFree_small hunlocked hregion]
  simp only [bind_some, if_true]
  rw [getNewSlab, if_neg hnew, Int.toNat_natCast, doGetNewSlab_none hunlocked]
  simp only [bind_some, if_true, donate_locked]
  cases getBigSlab current n { donate s with locked := current } with
  | none => rfl
  | some found =>
    obtain ⟨ret, s'⟩ := found
    simp only [bind_some]
    split_ifs with hzero
    · rw [hzero]
    · rfl

theorem AsksForPage.kmalloc_task (h : AsksForPage size s) :
    kmalloc true none size gfpKernel s = none := by
  obtain ⟨n, hn, -, -⟩ := h.rounded
  cases hlocked : s.locked with
  | false => rw [h.kmalloc_none (fun _ => hlocked) hn, getBigSlab_locked rfl]
  | true =>
    -- another task holds the mutex from the start
    have hlock : mutexLock true s = none := by simp [mutexLock, hlocked]
    rw [h.kmalloc_eq true none hn, tryAlloc]
    cases hid : slabPoolId n with
    | none => simp [getSlabFromPool, hid]
    | some id => simp [getSlabFromPool, hid, withMutex, hlock]

/-- When there is no page, for every state and every request that asks for one: `kmalloc` returns
a block of the first pool that is not empty, or nothing, and leaves the mutex unlocked, just if no
task is running. -/
theorem kmalloc_outOfMemory_iff (h : AsksForPage size s) (current : Bool) :
    (∃ id ret s', slabPoolId (getSlabAllocSize size).toNat = some id ∧
        kmalloc current none size gfpKernel s = some (ret, s') ∧ FromPools (donate s) id ret ∧
        s'.locked = false) ↔
      current = false := by
  constructor
  · rintro ⟨id, ret, s', -, hret, -, -⟩
    by_contra htask
    obtain rfl : current = true := by simpa using htask
    rw [h.kmalloc_task] at hret
    cases hret
  · rintro rfl
    obtain ⟨n, hn, hlo, hhi⟩ := h.rounded
    obtain ⟨id, hid⟩ := slabPoolId_isSome hlo (by simp only [pageSize, slabCacheSize] at *; omega)
    rw [h.kmalloc_none (by simp) hn, hn, Int.toNat_natCast]
    have hfree : false = true → ({ donate s with locked := false } : Slab).locked = false := by simp
    obtain ⟨ret, s', hbig, hret, hs'⟩ := getBigSlab_fromPools hfree hid
    exact ⟨id, ret, s', hid, hbig, hret, hs'⟩

/-- One block of 96 bytes is on its pool, and nothing else is left. -/
def oneBlock : Slab :=
  { clearedSlab (fun _ => 0) with head := fun i => if i = 5 then 0x2000 else 0 }

theorem oneBlock_asks : AsksForPage 16 oneBlock where
  pos := by decide
  small := by decide
  pool := by
    intro id hid
    obtain rfl : 0 = id := some.inj ((by decide : slabPoolId _ = some 0).symm.trans hid)
    rfl
  region := by decide

/-- While no task is running, the request gets the block of 96 bytes. -/
theorem kmalloc_outOfMemory_iff_oneBlock :
    AsksForPage 16 oneBlock ∧
      ∃ id ret s', slabPoolId (getSlabAllocSize 16).toNat = some id ∧
        kmalloc false none 16 gfpKernel oneBlock = some (ret, s') ∧
        FromPools (donate oneBlock) id ret ∧ s'.locked = false :=
  ⟨oneBlock_asks, (kmalloc_outOfMemory_iff oneBlock_asks false).mpr rfl⟩

/-- After `slab_init` has got no pages, the mutex is free and all pools are empty. A request of a
task does not return, and the same holds when there is a block on a larger pool. -/
theorem kmalloc_outOfMemory_hangs :
    (∃ err s, slabInit (fun _ => 0) none = some (err, s) ∧ s.locked = false ∧
        AsksForPage 16 s ∧ kmalloc true none 16 gfpKernel s = none) ∧
      oneBlock.locked = false ∧ AsksForPage 16 oneBlock ∧ oneBlock.head 5 ≠ 0 ∧
      kmalloc true none 16 gfpKernel oneBlock = none := by
  have hcleared : AsksForPage 16 (clearedSlab fun _ => 0) :=
    ⟨by decide, by decide, fun _ _ => rfl, by decide⟩
  exact ⟨⟨_, _, rfl, rfl, hcleared, hcleared.kmalloc_task⟩, rfl, oneBlock_asks, by decide,
    oneBlock_asks.kmalloc_task⟩

end Chunos.Slabs
