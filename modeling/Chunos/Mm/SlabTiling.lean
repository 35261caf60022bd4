import Chunos.Mm.SlabRuns

/-!
# The caches are tiled

For requests below a page the allocator only moves memory between three kinds of owner:
the blocks in use, the pools and the bump region. No sequence of calls loses a byte of
a cache or gives it to two of them.
-/

namespace Chunos.Slabs

open Cover Option

/-- The caches are tiled: every address of a cache is in exactly one block or in the bump
region, a block is in use or on one pool, each once, and the blocks on a pool have the
sizes that the pool is for. `chain i` is what the links of pool `i` lead to. -/
structure SlabRun.Tiled (r : SlabRun) (chain : ℕ → List ℕ) : Prop where
  pools : ∀ i < poolNr, Chain r.slab.mem (r.slab.head i) (chain i)
  once : (r.live.map LiveBlock.header ++ (List.range poolNr).flatMap chain).Nodup
  covered : ∀ x, count
      ((r.slab.slabFree, r.slab.freeSize) ::
        (r.live.map LiveBlock.header ++ (List.range poolNr).flatMap chain).map
          fun header => (header, r.slab.mem header + slabHeaderSize)) x =
    if ∃ p ∈ r.slab.plist, Holds (p.1, p.2 * pageSize) x then 1 else 0
  pooled : ∀ i < poolNr, ∀ header ∈ chain i, 16 * (i + 1) ≤ r.slab.mem header

/-- A request whose round-up to 16 bytes is below a page. -/
def SlabCall.Small : SlabCall → Prop
  | .kmalloc _ size _ => 0 < size ∧ (size + 15) / 16 * 16 < pageSize
  | _ => True

theorem SlabRun.HoldsInv.tiled {fits : Prop} {r : SlabRun} (hinv : r.HoldsInv fits) :
    ∃ chain, r.Tiled chain := by
  obtain ⟨chain, hinv⟩ := hinv
  refine ⟨chain, hinv.chains, hinv.nodup, ?_, hinv.pooled⟩
  intro x
  have htiles := hinv.tiles x
  have hone := hinv.apart x
  rw [count_append] at hone
  refine htiles.trans ?_
  split_ifs with hcovered
  · obtain ⟨p, hp, hx⟩ := hcovered
    have hpos : 0 < count r.slab.cacheSpans x := count_pos (List.mem_map_of_mem hp) hx
    omega
  · by_contra hne
    obtain ⟨q, hq, hx⟩ := exists_of_count_pos (Nat.pos_of_ne_zero hne)
    obtain ⟨p, hp, rfl⟩ := List.mem_map.mp hq
    exact hcovered ⟨p, hp, hx⟩

/-- Small requests and frees keep the invariant and use no whole pages. -/
theorem SlabRun.step_small {call : SlabCall} {r r' : SlabRun}
    (hinv : r.HoldsInv False ∧ r.pages = []) (hsmall : call.Small)
    (hstep : r.step call = some r') : r'.HoldsInv False ∧ r'.pages = [] := by
  obtain ⟨hinv, hpages⟩ := hinv
  cases call with
  | kmalloc current size page =>
    refine ⟨SlabRun.kmalloc_inv hinv (fun hf => hf.elim) hstep, ?_⟩
    obtain ⟨hpos, hlt⟩ := hsmall
    simp only [step, ite_none_right_eq_some, map_eq_some_iff] at hstep
    obtain ⟨⟨⟨-, hint⟩, -⟩, p, -, rfl⟩ := hstep
    have hround := getSlabAllocSize_spec hpos hint
    rw [granted, if_neg (by simp only [pageSize] at *; omega)]
    exact hpages
  | kfree current addr =>
    have hmagic : r.FreesPages addr := by
      rw [FreesPages, hpages]
      exact fun p hp => absurd hp List.not_mem_nil
    refine ⟨SlabRun.kfree_inv hinv hmagic hstep, ?_⟩
    simp only [step, hpages, List.find?_nil] at hstep
    split at hstep
    · obtain ⟨slab, -, rfl⟩ := map_eq_some_iff.mp hstep
      rfl
    · cases hstep
  | store addr word =>
    refine ⟨SlabRun.store_inv hinv hstep, ?_⟩
    simp only [step, ite_none_right_eq_some, some.injEq] at hstep
    obtain ⟨-, rfl⟩ := hstep
    exact hpages

/-- After `slab_init` and any sequence of small requests, frees of blocks in use and
stores, the caches are tiled. -/
theorem slab_runs_tiled {va : ℕ} {calls : List SlabCall} {r r' : SlabRun} (hstart : r.Started va)
    (hsmall : ∀ call ∈ calls, call.Small) (hrun : Runs.run SlabRun.step calls r = some r') :
    ∃ chain, r'.Tiled chain := by
  have hinv : r.HoldsInv False ∧ r.pages = [] := ⟨SlabRun.started_inv hstart, hstart.2.2.2.2⟩
  have hmeets : Runs.Meets SlabRun.step (fun call _ => call.Small) calls r :=
    Runs.meets_of_forall (fun call hcall _ => hsmall call hcall) r
  have hstep : ∀ call s s', (s.HoldsInv False ∧ s.pages = []) → call.Small →
      SlabRun.step call s = some s' → s'.HoldsInv False ∧ s'.pages = [] :=
    fun call s s' => SlabRun.step_small
  exact (Runs.invariant_of_meets hstep hinv hmeets hrun).1.tiled

/-- The theorem applies to a run that cuts two blocks from the first cache, frees the
first of them and gets it back for a request of another size. -/
theorem slab_runs_tiled_reuse :
    ∃ r, Runs.run SlabRun.step
        [.kmalloc true 24 none, .kmalloc true 100 none, .store 4148 7, .kfree true 4104,
          .kmalloc true 30 none]
        firstCache = some r ∧
      r.live.map LiveBlock.header = [4096, 4136] ∧ ∃ chain, r.Tiled chain := by
  refine Runs.exists_some_imp (P := fun r => r.live.map LiveBlock.header = [4096, 4136])
    (by decide) fun r hrun hlive => ⟨hlive, slab_runs_tiled firstCache_started ?_ hrun⟩
  simp [SlabCall.Small, pageSize]

end Chunos.Slabs
