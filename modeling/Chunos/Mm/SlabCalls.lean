import Chunos.Mm.SlabCaches

/-!
# The invariant across the functions of the slab allocator

Each function of `mm/slab.c` is a few of the elementary operations under the mutex. The
lemmas here carry the invariant through them. With `fits` they also carry the sizes that
the owners asked for: a pool of sizes up to 512 only holds blocks that are large enough
for the sizes it serves, and a fresh page is large enough for all sizes below a page. The
last pool serves many sizes, so its first block must be large enough by assumption.
-/

namespace Chunos.Slabs

open Cover Option

variable {fits : Prop} {s s' : Slab} {live : List LiveBlock} {pages : List LivePages}

/-- The invariant holds for some content of the pools. -/
def HoldsInv (fits : Prop) (s : Slab) (live : List LiveBlock) (pages : List LivePages) : Prop :=
  ∃ chain, Inv fits s live pages chain

/-- The two allocators differ at most in their locks. -/
def SameBut (s s' : Slab) : Prop := ∃ b, s' = { s with locked := b }

theorem HoldsInv.of_sameBut (hinv : HoldsInv fits s live pages) (hsame : SameBut s s') :
    HoldsInv fits s' live pages := by
  obtain ⟨chain, hinv⟩ := hinv
  obtain ⟨b, rfl⟩ := hsame
  exact ⟨chain, hinv.setLocked b⟩

variable {current : Bool} {id size ret : ℕ} {requested : ℤ}

theorem mutexLock_sameBut (h : mutexLock current s = some s') : SameBut s s' := by
  unfold mutexLock at h
  split_ifs at h
  · exact ⟨true, (some.inj h).symm⟩
  · exact ⟨s.locked, (some.inj h).symm⟩

theorem mutexLock_locked (h : mutexLock true s = some s') : s'.locked = true := by
  simp only [mutexLock, if_true, ite_none_left_eq_some, some.injEq] at h
  rw [← h.2]

theorem withMutex_eq_some {α : Type*} {body : Slab → α × Slab} {a : α}
    (h : withMutex current body s = some (a, s')) :
    ∃ s₁, SameBut s s₁ ∧ (body s₁).1 = a ∧ SameBut (body s₁).2 s' := by
  obtain ⟨s₁, hlock, heq⟩ := map_eq_some_iff.mp h
  obtain ⟨ha, hs'⟩ := Prod.mk.inj heq
  exact ⟨s₁, mutexLock_sameBut hlock, ha, ⟨false, hs'.symm⟩⟩

/-- The blocks in use after an allocation that returned `ret`. -/
def grant (live : List LiveBlock) (ret : ℕ) (requested : ℤ) : List LiveBlock :=
  if ret = 0 then live else ⟨ret - slabHeaderSize, requested⟩ :: live

theorem grant_zero (requested : ℤ) : grant live 0 requested = live := if_pos rfl

theorem grant_header (header : ℕ) (requested : ℤ) :
    grant live (header + slabHeaderSize) requested = ⟨header, requested⟩ :: live := by
  unfold grant
  rw [if_neg (by simp only [slabHeaderSize]; omega), Nat.add_sub_cancel]

/-- The index of a size lies in the table of pools, and the sizes of the pool are not
above the size. -/
theorem slabPoolId_spec (h : slabPoolId size = some id) :
    id < poolNr ∧ minSlabSize * (id + 1) ≤ size ∧
      (size ≤ 512 → 16 ∣ size → minSlabSize * (id + 1) = size) ∧
      (512 < size → 16 ∣ size → id = 32) := by
  unfold slabPoolId at h
  split_ifs at h with hsmall
  have hid := some.inj h
  split_ifs at hid with hlarge
  all_goals
    simp only [minSlabSize, poolNr] at *
    omega

theorem slabPoolId_isSome (hlo : minSlabSize ≤ size) (hhi : size ≤ slabCacheSize) :
    ∃ id, slabPoolId size = some id := by
  have hno : ¬ (size < minSlabSize ∨ 2 ^ 31 ≤ size) := by
    simp only [slabCacheSize] at hhi
    omega
  unfold slabPoolId
  rw [if_neg hno]
  exact ⟨_, rfl⟩

section
variable (hinv : HoldsInv fits s live pages)
include hinv

theorem HoldsInv.takeFromPool {i : ℕ} (hi : i < poolNr) (hhead : s.head i ≠ 0)
    (hfit : fits → requested ≤ s.mem (s.head i)) :
    HoldsInv fits (takeFromPool s i).2 (grant live (takeFromPool s i).1 requested) pages := by
  obtain ⟨chain, hinv⟩ := hinv
  obtain ⟨t, -, hinv'⟩ := hinv.takeFromPool hi hhead hfit
  have hret : (Slabs.takeFromPool s i).1 = s.head i + slabHeaderSize := rfl
  rw [hret, grant_header]
  exact ⟨_, hinv'⟩

/-- `get_slab_from_pool` grants the first block of the pool, or finds the pool empty. -/
theorem getSlabFromPool_spec
    (hfit : fits → ∀ id, slabPoolId size = some id → s.head id ≠ 0 → requested ≤ s.mem (s.head id))
    (h : getSlabFromPool current size s = some (ret, s')) :
    HoldsInv fits s' (grant live ret requested) pages ∧
      (ret = 0 → SameBut s s' ∧ ∀ id, slabPoolId size = some id → s.head id = 0) := by
  obtain ⟨id, hid, hmutex⟩ := bind_eq_some_iff.mp h
  obtain ⟨s₁, ⟨b, rfl⟩, hret, hs'⟩ := withMutex_eq_some hmutex
  have hinv₁ : HoldsInv fits { s with locked := b } live pages := hinv.of_sameBut ⟨b, rfl⟩
  by_cases hhead : s.head id = 0
  · simp only [hhead, if_true] at hret hs'
    subst hret
    refine ⟨?_, fun _ => ⟨?_, ?_⟩⟩
    · rw [grant_zero]
      exact hinv₁.of_sameBut hs'
    · exact hs'
    · rintro id' hid'
      rw [some.inj (hid'.symm.trans hid)]
      exact hhead
  · simp only [hhead, if_false] at hret hs'
    have hne : ret ≠ 0 := by
      rw [← hret]
      simp only [takeFromPool, slabHeaderSize]
      omega
    refine ⟨?_, fun hzero => absurd hzero hne⟩
    have hgrant := hinv₁.takeFromPool (slabPoolId_spec hid).1 hhead
      (fun hf => hfit hf id hid hhead)
    rw [hret] at hgrant
    exact hgrant.of_sameBut hs'

/-- Cutting a block from the bump region grants it. -/
theorem HoldsInv.carve (hlarge : size + slabHeaderSize ≤ s.freeSize) (hsize : minSlabSize ≤ size)
    (halign : 8 ∣ size)
    (hfit : fits → requested ≤ size) :
    HoldsInv fits (carve s size).2 (grant live (carve s size).1 requested) pages := by
  obtain ⟨chain, hinv⟩ := hinv
  have hret : (Slabs.carve s size).1 = s.slabFree + slabHeaderSize := rfl
  rw [hret, grant_header]
  refine ⟨chain, ?_⟩
  simp only [minSlabSize, slabHeaderSize] at hlarge hsize
  by_cases hrest : s.freeSize - (size + 8) < 16 + 8
  · simp only [Slabs.carve, minSlabSize, slabHeaderSize, hrest, if_true]
    refine hinv.cut (size + (s.freeSize - (size + 8))) 0 rfl rfl rfl ?_ ?_ rfl (Or.inl rfl) ?_ ?_
    · simp only [minSlabSize]
      omega
    · simp only [slabHeaderSize]
      omega
    · exact fun hne => absurd rfl hne
    · intro hf
      have hle := hfit hf
      omega
  · simp only [Slabs.carve, minSlabSize, slabHeaderSize, hrest, if_false]
    refine hinv.cut size (s.freeSize - (size + 8)) rfl rfl rfl hsize ?_ rfl (Or.inr ?_) ?_ hfit
    · simp only [slabHeaderSize]
      omega
    · simp only [minSlabSize, slabHeaderSize]
      omega
    · exact fun _ => ⟨rfl, halign⟩

/-- `get_slab_from_slab_free` grants a block, or finds the bump region too small. -/
theorem getSlabFromSlabFree_spec (hsize : minSlabSize ≤ size) (halign : 8 ∣ size)
    (hfit : fits → requested ≤ size)
    (h : getSlabFromSlabFree current size s = some (ret, s')) :
    HoldsInv fits s' (grant live ret requested) pages ∧
      (ret = 0 → SameBut s s' ∧ s.freeSize < size + slabHeaderSize) := by
  obtain ⟨s₁, ⟨b, rfl⟩, hret, hs'⟩ := withMutex_eq_some h
  have hinv₁ : HoldsInv fits { s with locked := b } live pages := hinv.of_sameBut ⟨b, rfl⟩
  by_cases hsmall : s.freeSize < size + slabHeaderSize
  · simp only [hsmall, if_true] at hret hs'
    subst hret
    rw [grant_zero]
    exact ⟨hinv₁.of_sameBut hs', fun _ => ⟨hs', hsmall⟩⟩
  · simp only [hsmall, if_false] at hret hs'
    have hne : ret ≠ 0 := by
      rw [← hret]
      simp only [carve, slabHeaderSize]
      omega
    refine ⟨?_, fun hzero => absurd hzero hne⟩
    have hgrant := hinv₁.carve (not_lt.mp hsmall) hsize halign hfit
    rw [hret] at hgrant
    exact hgrant.of_sameBut hs'

/-- Giving the rest of the bump region to a pool keeps the invariant and empties the
region. The last pool gets it only when it is large. -/
theorem donate_spec :
    HoldsInv fits (donate s) live pages ∧ (donate s).freeSize = 0 ∧ (donate s).plist = s.plist ∧
      (s.freeSize < 536 → (donate s).head 32 = s.head 32) := by
  obtain ⟨chain, hinv⟩ := hinv
  unfold donate
  split_ifs with hsmall
  · have hzero : s.freeSize = 0 := by
      obtain h | h := hinv.bump_size
      · exact h
      · omega
    exact ⟨⟨chain, hinv⟩, hzero, rfl, fun _ => rfl⟩
  · have hbound : s.freeSize ≤ slabCacheSize := by
      obtain h | h := hinv.bump_size
      · simp only [slabCacheSize]
        omega
      · exact h.2
    simp only [minSlabSize, slabHeaderSize] at hsmall
    have hlo : minSlabSize ≤ s.freeSize - slabHeaderSize := by
      simp only [minSlabSize, slabHeaderSize]
      omega
    obtain ⟨id, hid⟩ := slabPoolId_isSome hlo (by omega)
    obtain ⟨hlt, hmin, -, -⟩ := slabPoolId_spec hid
    rw [hid]
    -- The region first becomes a block in use, which then goes to the pool.
    have hcut : Inv fits { writeHeader s s.slabFree (s.freeSize - slabHeaderSize) with
          slabFree := 0, freeSize := 0 }
        (⟨s.slabFree, 0⟩ :: live) pages chain := by
      refine hinv.cut (s.freeSize - slabHeaderSize) 0 rfl rfl rfl hlo ?_ rfl (Or.inl rfl) ?_ ?_
      · simp only [slabHeaderSize]
        omega
      · exact fun hne => absurd rfl hne
      · exact fun _ => Int.natCast_nonneg _
    have hsize : (writeHeader s s.slabFree (s.freeSize - slabHeaderSize)).mem s.slabFree =
        s.freeSize - slabHeaderSize := by
      simp only [writeHeader]
      rw [Function.update_of_ne (by omega), Function.update_self]
    refine ⟨⟨_, hcut.addToPool hlt (by simpa only [hsize] using hmin)⟩, rfl, rfl, ?_⟩
    intro hfew
    apply Function.update_of_ne
    simp only [minSlabSize, slabHeaderSize] at hmin
    omega

/-- A page that the page allocator may return: a page address whose `nr` pages are not in
use. -/
def PageOk (s : Slab) (pages : List LivePages) (nr va : ℕ) : Prop :=
  0 < va ∧ pageSize ∣ va ∧ FreshSpan s pages (va, nr * pageSize)

instance (s : Slab) (pages : List LivePages) (nr va : ℕ) : Decidable (PageOk s pages nr va) :=
  inferInstanceAs (Decidable (_ ∧ _ ∧ _))

/-- `alloc_new_slab_cache` fails without a page, and else makes the fresh pages the bump
region. -/
theorem allocNewSlabCache_spec (hempty : s.freeSize = 0) {page : Option ℕ} {nr : ℕ} {err : ℤ}
    (hnr : 0 < nr) (hbound : nr * pageSize ≤ slabCacheSize)
    (hpage : ∀ va, page = some va → PageOk s pages nr va)
    (h : allocNewSlabCache current page nr s = some (err, s')) :
    (page = none ∧ err ≠ 0 ∧ SameBut s s' ∧ (current = true → s'.locked = true)) ∨
      (page ≠ none ∧ err = 0 ∧ HoldsInv fits s' live pages ∧ s'.freeSize = nr * pageSize) := by
  obtain ⟨s₁, hlock, heq⟩ := map_eq_some_iff.mp h
  obtain ⟨b, rfl⟩ := mutexLock_sameBut hlock
  cases page with
  | none =>
    obtain ⟨herr, hs'⟩ := Prod.mk.inj heq
    refine Or.inl ⟨rfl, herr ▸ by decide, ⟨b, hs'.symm⟩, ?_⟩
    rintro rfl
    rw [← hs']
    exact mutexLock_locked hlock
  | some va =>
    obtain ⟨herr, hs'⟩ := Prod.mk.inj heq
    subst hs'
    obtain ⟨chain, hinv⟩ := hinv
    obtain ⟨hva, halign, hfresh⟩ := hpage va rfl
    refine Or.inr ⟨some_ne_none va, herr.symm, ⟨chain, ?_⟩, rfl⟩
    exact hinv.addCache hempty hva halign hnr hbound hfresh rfl rfl rfl rfl rfl

/-- `__get_new_slab` grants a block from a fresh page. It returns `0` only when there is
no page. -/
theorem doGetNewSlab_spec {page : Option ℕ} (hsize : minSlabSize ≤ size) (halign : 16 ∣ size)
    (hsmall : size < pageSize)
    (hfit : fits → requested ≤ size) (hpage : ∀ va, page = some va → PageOk s pages 1 va)
    (h : doGetNewSlab current page size s = some (ret, s')) :
    HoldsInv fits s' (grant live ret requested) pages ∧
      (ret = 0 → page = none ∧ (current = true → s'.locked = true) ∧
        (s.freeSize < 536 → s'.head 32 = s.head 32)) := by
  obtain ⟨⟨u, s₁⟩, hdonate, hrest⟩ := bind_eq_some_iff.mp h
  obtain ⟨⟨err, s₂⟩, halloc, hlast⟩ := bind_eq_some_iff.mp hrest
  obtain ⟨s₀, ⟨b, rfl⟩, -, hs₁⟩ := withMutex_eq_some hdonate
  have hinv₀ : HoldsInv fits { s with locked := b } live pages := hinv.of_sameBut ⟨b, rfl⟩
  obtain ⟨hinv₁, hempty, hplist, hhead⟩ := donate_spec hinv₀
  obtain ⟨b₁, rfl⟩ := hs₁
  have hpage₁ : ∀ va, page = some va →
      PageOk { donate { s with locked := b } with locked := b₁ } pages 1 va := by
    intro va hva
    obtain ⟨hpos, hdvd, hfresh⟩ := hpage va hva
    refine ⟨hpos, hdvd, ?_⟩
    simpa only [FreshSpan, Slab.cacheSpans, hplist] using hfresh
  obtain ⟨hnone, herr, hs₂, hlocked⟩ | ⟨hsome, herr, hinv₂, hfree⟩ := allocNewSlabCache_spec
    (hinv₁.of_sameBut ⟨b₁, rfl⟩) hempty Nat.one_pos (by decide) hpage₁ halloc
  · simp only [herr, ne_eq, not_false_eq_true, if_true, some.injEq, Prod.mk.injEq] at hlast
    obtain ⟨hret, hs'⟩ := hlast
    subst hret hs'
    rw [grant_zero]
    refine ⟨(hinv₁.of_sameBut ⟨b₁, rfl⟩).of_sameBut hs₂, fun _ => ⟨hnone, hlocked, ?_⟩⟩
    obtain ⟨b₂, rfl⟩ := hs₂
    exact hhead
  · simp only [herr, ne_eq, not_true_eq_false, if_false] at hlast
    have hdvd : 8 ∣ size := (by decide : 8 ∣ 16).trans halign
    obtain ⟨hgrant, hzero⟩ := getSlabFromSlabFree_spec hinv₂ hsize hdvd hfit hlast
    refine ⟨hgrant, fun hret => ?_⟩
    have hfew := (hzero hret).2
    rw [hfree] at hfew
    simp only [pageSize, slabHeaderSize] at hfew hsmall
    omega

end

theorem bigSlabLoop_spec {head : ℕ → ℕ} {n j : ℕ} (h : bigSlabLoop head n id = some j) :
    id ≤ j ∧ j < id + n ∧ head j ≠ 0 := by
  induction n generalizing id with
  | zero => cases h
  | succ n ih =>
    unfold bigSlabLoop at h
    split_ifs at h with hempty
    · have hrest := ih h
      omega
    · obtain rfl := some.inj h
      exact ⟨le_refl _, by omega, hempty⟩

/-- `get_big_slab` grants the first block of a pool at or behind the pool of the size. -/
theorem getBigSlab_spec (hinv : HoldsInv fits s live pages)
    (hfit : fits → ∀ id, slabPoolId size = some id → ∀ j, id ≤ j → j < poolNr → s.head j ≠ 0 →
      requested ≤ s.mem (s.head j))
    (h : getBigSlab current size s = some (ret, s')) :
    HoldsInv fits s' (grant live ret requested) pages := by
  obtain ⟨id, hid, hmutex⟩ := bind_eq_some_iff.mp h
  obtain ⟨s₁, ⟨b, rfl⟩, hret, hs'⟩ := withMutex_eq_some hmutex
  have hinv₁ : HoldsInv fits { s with locked := b } live pages := hinv.of_sameBut ⟨b, rfl⟩
  have hlt := (slabPoolId_spec hid).1
  cases hloop : bigSlabLoop s.head (poolNr - id) id with
  | none =>
    simp only [hloop] at hret hs'
    subst hret
    rw [grant_zero]
    exact hinv₁.of_sameBut hs'
  | some j =>
    simp only [hloop] at hret hs'
    obtain ⟨hle, hj, hhead⟩ := bigSlabLoop_spec hloop
    have hgrant := hinv₁.takeFromPool (i := j) (by omega) hhead
      (fun hf => hfit hf id hid j hle (by omega) hhead)
    rw [hret] at hgrant
    exact hgrant.of_sameBut hs'

theorem getBigSlab_locked (hlocked : s.locked = true) (size : ℕ) :
    getBigSlab true size s = none := by
  have hlock : mutexLock true s = none := by simp [mutexLock, hlocked]
  cases hid : slabPoolId size with
  | none => simp [getBigSlab, hid]
  | some id => simp [getBigSlab, hid, withMutex, hlock]

/-- Pools of sizes up to 512, and those behind them, only hold blocks that are large
enough for the sizes they serve. -/
theorem HoldsInv.pool_fits (hinv : HoldsInv fits s live pages) {j : ℕ}
    (hid : slabPoolId size = some id) (hsize : size ≤ 512) (halign : 16 ∣ size) (hle : id ≤ j)
    (hj : j < poolNr) (hhead : s.head j ≠ 0) : size ≤ s.mem (s.head j) := by
  obtain ⟨chain, hinv⟩ := hinv
  obtain ⟨t, hchain, -⟩ := (hinv.chains j hj).exists_cons hhead
  have hpooled := hinv.pooled j hj (s.head j) (hchain ▸ List.mem_cons_self)
  have hexact := (slabPoolId_spec hid).2.2.1 hsize halign
  simp only [minSlabSize] at hpooled hexact
  omega

end Chunos.Slabs
