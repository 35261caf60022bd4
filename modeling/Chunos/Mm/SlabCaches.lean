import Chunos.Mm.SlabInv

/-!
# Cutting blocks, adding caches and using blocks

The bump region is the only place where new headers are written. This file proves that
cutting a block from it and replacing it by a fresh cache keep the invariant of the slab
allocator, and that the owners of blocks and pages can neither reach a header nor disturb
the invariant by giving pages back.
-/

namespace Chunos.Slabs

open Cover Function List

variable {fits : Prop} {s s' : Slab} {live : List LiveBlock} {pages : List LivePages}
  {chain : ℕ → List ℕ}

section
variable (hinv : Inv fits s live pages chain)
include hinv

/-- Writing a header at the start of the bump region leaves the headers of all blocks. -/
theorem Inv.writeHeader_mem (hfree : s.freeSize ≠ 0) (sz : ℕ) {h : ℕ} (hh : h ∈ blocks live chain) :
    (writeHeader s s.slabFree sz).mem h = s.mem h ∧
      (writeHeader s s.slabFree sz).mem (h + 4) = s.mem (h + 4) := by
  have hne : h ≠ s.slabFree := fun heq => hinv.bump_fresh hfree (heq ▸ hh)
  have halign := (hinv.header_ok h hh).2
  have halign' := (hinv.bump_addr hfree).2
  constructor
  · simp only [writeHeader]
    rw [update_of_ne (by omega), update_of_ne hne]
  · simp only [writeHeader]
    rw [update_of_ne (by omega), update_of_ne (by omega)]

/-- Cutting a block of `sz` bytes from the front of the bump region keeps the invariant.
The rest of the region is empty or large enough for a further block. -/
theorem Inv.cut (sz r : ℕ) {requested : ℤ} (hmem : s'.mem = (writeHeader s s.slabFree sz).mem)
    (hhead : s'.head = s.head)
    (hplist : s'.plist = s.plist) (hsz : minSlabSize ≤ sz)
    (hsplit : sz + slabHeaderSize + r = s.freeSize) (hrest : s'.freeSize = r)
    (hr : r = 0 ∨ minSlabSize + slabHeaderSize ≤ r)
    (hfree : r ≠ 0 → s'.slabFree = s.slabFree + (sz + slabHeaderSize) ∧ 8 ∣ sz)
    (hfit : fits → requested ≤ sz) : Inv fits s' (⟨s.slabFree, requested⟩ :: live) pages chain := by
  simp only [minSlabSize, slabHeaderSize] at hsz hsplit hr hfree
  have hnonempty : s.freeSize ≠ 0 := by omega
  have hbound : s.freeSize ≤ slabCacheSize := by
    obtain h | h := hinv.bump_size
    · omega
    · exact h.2
  obtain ⟨hpos, halign⟩ := hinv.bump_addr hnonempty
  have hold : ∀ h ∈ blocks live chain, s'.mem h = s.mem h := fun h hh => by
    rw [hmem, (hinv.writeHeader_mem hnonempty sz hh).1]
  have hlink : ∀ h ∈ blocks live chain, s'.mem (h + 4) = s.mem (h + 4) := fun h hh => by
    rw [hmem, (hinv.writeHeader_mem hnonempty sz hh).2]
  have hnew : s'.mem s.slabFree = sz := by
    simp only [hmem, writeHeader]
    rw [update_of_ne (by omega), update_self]
  have hblocks : blocks (⟨s.slabFree, requested⟩ :: live) chain = s.slabFree :: blocks live chain :=
    rfl
  have hspans : (blocks live chain).map (blockSpan s'.mem) =
      (blocks live chain).map (blockSpan s.mem) := by
    apply map_congr_left
    intro h hh
    simp only [blockSpan, hold h hh]
  exact {
    chains := by
      intro i hi
      rw [hhead]
      apply (hinv.chains i hi).congr
      exact fun h hh => hlink h (chain_mem_blocks hi hh)
    nodup := by
      rw [hblocks]
      exact nodup_cons.mpr ⟨hinv.bump_fresh hnonempty, hinv.nodup⟩
    tiles := by
      intro x
      have htiles := hinv.tiles x
      -- The old bump region is cut into the new block and the new bump region.
      rw [pieces, ← hsplit, count_cut] at htiles
      simp only [Slab.cacheSpans, hplist] at htiles ⊢
      rw [pieces, hblocks, map_cons, hspans, ← htiles, blockSpan, hnew, hrest,
        count_perm (List.Perm.swap _ _ _)]
      by_cases hzero : r = 0
      · rw [hzero, count_cons, count_empty, count_cons, count_empty]
        rfl
      · rw [(hfree hzero).1]
        rfl
    apart := by simpa only [Slab.cacheSpans, hplist] using hinv.apart
    header_ok := by
      intro h hh
      obtain rfl | hh := mem_cons.mp hh
      · exact ⟨hpos, halign⟩
      · exact hinv.header_ok h hh
    size_ok := by
      intro h hh
      obtain rfl | hh := mem_cons.mp hh
      · rw [hnew]
        exact ⟨hsz, by omega⟩
      · rw [hold h hh]
        exact hinv.size_ok h hh
    magic := by
      intro b hb
      obtain rfl | hb := mem_cons.mp hb
      · rw [hmem]
        exact update_self _ _ _
      · rw [hlink _ (header_mem_blocks hb)]
        exact hinv.magic b hb
    pooled := by
      intro i hi h hh
      rw [hold h (chain_mem_blocks hi hh)]
      exact hinv.pooled i hi h hh
    bump_size := by
      rw [hrest]
      obtain h | h := hr
      · exact Or.inl h
      · exact Or.inr ⟨h, by omega⟩
    bump_addr := by
      intro hne
      rw [hrest] at hne
      obtain ⟨haddr, hdvd⟩ := hfree hne
      omega
    fit := by
      intro hf
      refine ⟨?_, (hinv.fit hf).2⟩
      intro b hb
      obtain rfl | hb := mem_cons.mp hb
      · rw [hnew]
        exact hfit hf
      · rw [hold _ (header_mem_blocks hb)]
        exact (hinv.fit hf).1 b hb }

/-- The span is apart from all caches and from all pages in use. -/
def FreshSpan (s : Slab) (pages : List LivePages) (p : ℕ × ℕ) : Prop :=
  ∀ q ∈ s.cacheSpans ++ pages.map LivePages.span, Apart p q

instance (s : Slab) (pages : List LivePages) (p : ℕ × ℕ) : Decidable (FreshSpan s pages p) :=
  inferInstanceAs (Decidable (∀ q ∈ _, _))

/-- With an empty bump region, adding a fresh cache as the bump region keeps the
invariant. -/
theorem Inv.addCache (hempty : s.freeSize = 0) {va nr : ℕ} (hva : 0 < va) (halign : pageSize ∣ va)
    (hnr : 0 < nr) (hbound : nr * pageSize ≤ slabCacheSize)
    (hfresh : FreshSpan s pages (va, nr * pageSize)) (hmem : s'.mem = s.mem)
    (hhead : s'.head = s.head) (hplist : s'.plist = s.plist ++ [(va, nr)])
    (hfree : s'.slabFree = va) (hsize : s'.freeSize = nr * pageSize) :
    Inv fits s' live pages chain := by
  have hcaches : s'.cacheSpans = s.cacheSpans ++ [(va, nr * pageSize)] := by
    simp [Slab.cacheSpans, hplist]
  exact {
    chains := by
      intro i hi
      rw [hmem, hhead]
      exact hinv.chains i hi
    nodup := hinv.nodup
    tiles := by
      intro x
      have htiles := hinv.tiles x
      rw [pieces, hempty, count_empty] at htiles
      rw [pieces, hfree, hsize, hmem, count_cons, htiles, hcaches, count_append, count_cons,
        count_nil, Nat.zero_add]
    apart := by
      intro x
      have hperm : (s'.cacheSpans ++ pages.map LivePages.span).Perm
          ((va, nr * pageSize) :: (s.cacheSpans ++ pages.map LivePages.span)) := by
        rw [hcaches, append_assoc]
        exact perm_middle
      rw [count_perm hperm]
      exact count_cons_le_one hinv.apart hfresh x
    header_ok := hinv.header_ok
    size_ok := by simpa only [hmem] using hinv.size_ok
    magic := by simpa only [hmem] using hinv.magic
    pooled := by simpa only [hmem] using hinv.pooled
    bump_size := by
      right
      rw [hsize]
      simp only [minSlabSize, slabHeaderSize, pageSize] at *
      omega
    bump_addr := by
      intro _
      rw [hfree]
      exact ⟨hva, (by decide : 8 ∣ pageSize).trans halign⟩
    fit := by simpa only [hmem] using hinv.fit }

/-- Pages that are taken into use keep the invariant when they are fresh. -/
theorem Inv.addPages {p : LivePages} (hfresh : FreshSpan s pages p.span)
    (hfit : fits → p.requested ≤ (p.nr * pageSize : ℕ)) :
    Inv fits s live (p :: pages) chain :=
  { hinv with
    apart := by
      intro x
      have hperm : (s.cacheSpans ++ (p :: pages).map LivePages.span).Perm
          (p.span :: (s.cacheSpans ++ pages.map LivePages.span)) := perm_middle
      rw [count_perm hperm]
      exact count_cons_le_one hinv.apart hfresh x
    fit := by
      intro hf
      refine ⟨(hinv.fit hf).1, ?_⟩
      intro q hq
      obtain rfl | hq := mem_cons.mp hq
      · exact hfit hf
      · exact (hinv.fit hf).2 q hq }

theorem Inv.erasePages (p : LivePages) : Inv fits s live (pages.erase p) chain :=
  { hinv with
    apart := by
      intro x
      have hsub : count ((pages.erase p).map LivePages.span) x ≤
          count (pages.map LivePages.span) x :=
        (erase_sublist.map _).countP_le
      have hone := hinv.apart x
      rw [count_append] at hone ⊢
      omega
    fit := fun hf => ⟨(hinv.fit hf).1, fun q hq => (hinv.fit hf).2 q (mem_of_mem_erase hq)⟩ }

end

variable {a : ℕ}

/-- A store to an address outside the headers of all blocks keeps the invariant. -/
theorem Inv.store (hinv : Inv fits s live pages chain)
    (hout : ∀ h ∈ blocks live chain, a ≠ h ∧ a ≠ h + 4) (v : ℕ) :
    Inv fits { s with mem := update s.mem a v } live pages chain := by
  have hsize : ∀ h ∈ blocks live chain, update s.mem a v h = s.mem h := fun h hh =>
    update_of_ne (hout h hh).1.symm _ _
  have hlink : ∀ h ∈ blocks live chain, update s.mem a v (h + 4) = s.mem (h + 4) :=
    fun h hh => update_of_ne (hout h hh).2.symm _ _
  apply hinv.reassign (List.Perm.refl _) hsize
  case hfree => rfl
  case hsize => rfl
  case hplist => rfl
  case hchains =>
    exact fun i hi => (hinv.chains i hi).congr fun h hh => hlink h (chain_mem_blocks hi hh)
  case hmagic => exact fun b hb => (hlink _ (header_mem_blocks hb)).trans (hinv.magic b hb)
  case hpooled =>
    intro i hi h hh
    exact (hinv.pooled i hi h hh).trans_eq (hsize h (chain_mem_blocks hi hh)).symm
  case hfit =>
    intro hf b hb
    exact ((hinv.fit hf).1 b hb).trans_eq (congrArg Nat.cast (hsize _ (header_mem_blocks hb)).symm)

theorem Inv.not_header_of_live (hinv : Inv fits s live pages chain) {b : LiveBlock} (hb : b ∈ live)
    (hlo : b.header + slabHeaderSize ≤ a) (hhi : a < b.header + slabHeaderSize + s.mem b.header) :
    ∀ h ∈ blocks live chain, a ≠ h ∧ a ≠ h + 4 := by
  intro h hh
  simp only [slabHeaderSize] at hlo hhi
  by_cases hne : b.header = h
  · omega
  · have hx : Holds (blockSpan s.mem b.header) a := by
      simp only [Holds, blockSpan, slabHeaderSize]
      omega
    have hout := hinv.blocks_apart (header_mem_blocks hb) hh hne hx
    simp only [Holds, blockSpan, slabHeaderSize] at hout
    omega

theorem Inv.not_header_of_pages (hinv : Inv fits s live pages chain) {p : LivePages}
    (hp : p ∈ pages) (ha : Holds p.span a) : ∀ h ∈ blocks live chain, a ≠ h ∧ a ≠ h + 4 := by
  intro h hh
  have hout : ¬ Holds (blockSpan s.mem h) a := by
    intro hx
    have hblock : 0 < count (pieces s live chain) a :=
      count_pos (mem_cons_of_mem _ (List.mem_map_of_mem hh)) hx
    have hpage := count_pos (List.mem_map_of_mem (f := LivePages.span) hp) ha
    have hone := hinv.apart a
    rw [count_append, ← hinv.tiles a] at hone
    omega
  simp only [Holds, blockSpan, slabHeaderSize] at hout
  omega

end Chunos.Slabs
