import Chunos.Mm.SlabRuns

/-!
# The sizes of allocated blocks

Blocks above 512 bytes share one pool, from which a request takes the first block
without looking at its size. So a request can get less than it asked for. This file
proves that this is the only way: as long as the first block of the last pool is large
enough for each request that takes from it, everything in use is as large as its owner
asked for.
-/

namespace Chunos.Slabs

/-- Everything in use is as large as its owner asked for: a block by the size in its
header, pages by their number. -/
structure SlabRun.Fits (r : SlabRun) : Prop where
  blocks : ∀ b ∈ r.live, b.requested ≤ r.slab.mem b.header
  pages : ∀ p ∈ r.pages, p.requested ≤ (p.nr * pageSize : ℕ)

/-- The calls that do not reach the defects. The rounded size stays in the range of an
`int`. A request between 512 bytes and a page finds a first block on the last pool that
is large enough, or none, and when it needs a page that cannot be had while no task is
running, the bump region is too small to go to that pool. The word in front of freed
pages is not the magic number of the slabs. -/
def SlabRun.Sound : SlabCall → SlabRun → Prop
  | .kmalloc current size page, r =>
    size ≤ 2 ^ 31 - 16 ∧
      (getSlabAllocSize size < pageSize → LastPoolFits current (getSlabAllocSize size) page r.slab)
  | .kfree _ addr, r => r.FreesPages addr
  | .store _ _, _ => True

instance : ∀ (call : SlabCall) (r : SlabRun), Decidable (SlabRun.Sound call r)
  | .kmalloc _ _ _, _ => inferInstanceAs (Decidable (_ ∧ _))
  | .kfree _ addr, r => inferInstanceAs (Decidable (r.FreesPages addr))
  | .store _ _, _ => inferInstanceAs (Decidable True)

theorem SlabRun.step_sound (call : SlabCall) (r r' : SlabRun) (hinv : r.HoldsInv True)
    (hsound : Sound call r) (hstep : r.step call = some r') : r'.HoldsInv True := by
  cases call with
  | kmalloc current size page => exact SlabRun.kmalloc_inv hinv (fun _ => hsound.2) hstep
  | kfree current addr => exact SlabRun.kfree_inv hinv hsound hstep
  | store addr word => exact SlabRun.store_inv hinv hstep

/-- In every run of sound calls after `slab_init`, everything that `kmalloc` has returned
is as large as its owner asked for. -/
theorem slab_runs_fit {va : ℕ} {calls : List SlabCall} {r r' : SlabRun} (hstart : r.Started va)
    (hsound : Runs.Meets SlabRun.step SlabRun.Sound calls r)
    (hrun : Runs.run SlabRun.step calls r = some r') : r'.Fits := by
  have hinv : r.HoldsInv True := SlabRun.started_inv hstart
  obtain ⟨chain, hinv'⟩ := Runs.invariant_of_meets SlabRun.step_sound hinv hsound hrun
  obtain ⟨hblocks, hpages⟩ := hinv'.fit trivial
  exact ⟨hblocks, hpages⟩

/-- The theorem applies to a run with a block of 600 bytes, pages for 5000 bytes, and the
block reused for 528 bytes. -/
theorem slab_runs_fit_reuse :
    ∃ r, Runs.run SlabRun.step
        [.kmalloc true 600 none, .kmalloc true 5000 (some 0x200000), .kfree true 4104,
          .kmalloc true 528 (some 0x300000)]
        firstCache = some r ∧
      (r.live.map LiveBlock.requested = [528] ∧ r.pages.map LivePages.requested = [5000]) ∧
      r.Fits := by
  refine Runs.exists_some_imp (P := fun r => r.live.map LiveBlock.requested = [528] ∧
    r.pages.map LivePages.requested = [5000]) (by decide) fun r hrun hobs => ⟨hobs, ?_⟩
  exact slab_runs_fit firstCache_started (by decide) hrun

/-- A request of 1024 bytes after a block of 528 bytes has been freed gets that block. -/
theorem slab_runs_undersized :
    firstCache.Started 4096 ∧
      (Runs.run SlabRun.step
        [.kmalloc true 528 none, .kfree true 4104, .kmalloc true 1024 none] firstCache).map
          (fun r => r.live.map fun b => (b.requested, r.slab.mem b.header)) =
        some [(1024, 528)] := by
  refine ⟨firstCache_started, ?_⟩
  decide

end Chunos.Slabs
