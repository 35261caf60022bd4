import Chunos.Lib.Cover
import Chunos.Mm.Slab

/-!
# The invariant of the slab allocator

Every address of the requested caches belongs to exactly one block or to the bump
region. A block is in use or on one pool. The pools are chains through the second header
word of their blocks, so an operation that writes headers must not touch the headers of
other blocks, which the tiling guarantees. This file states the invariant and proves
that the elementary operations keep it: taking a block from a pool, putting one on a
pool, cutting one from the bump region and adding a cache.
-/

namespace Chunos.Slabs

open Cover Function

/-- The headers that are found by following the links from `p` to `NULL`. -/
def Chain (mem : ℕ → ℕ) : ℕ → List ℕ → Prop
  | p, [] => p = 0
  | p, h :: t => p = h ∧ h ≠ 0 ∧ Chain mem (mem (h + 4)) t

theorem Chain.congr {mem mem' : ℕ → ℕ} {l : List ℕ} {p : ℕ} (hchain : Chain mem p l)
    (hmem : ∀ h ∈ l, mem' (h + 4) = mem (h + 4)) : Chain mem' p l := by
  induction l generalizing p with
  | nil => exact hchain
  | cons h t ih =>
    obtain ⟨hp, hne, htail⟩ := hchain
    refine ⟨hp, hne, ?_⟩
    rw [hmem h List.mem_cons_self]
    exact ih htail fun h' hh' => hmem h' (List.mem_cons_of_mem h hh')

theorem Chain.exists_cons {mem : ℕ → ℕ} {l : List ℕ} {p : ℕ} (hchain : Chain mem p l)
    (hp : p ≠ 0) : ∃ t, l = p :: t ∧ Chain mem (mem (p + 4)) t := by
  cases l with
  | nil => exact absurd hchain hp
  | cons h t =>
    obtain ⟨rfl, -, htail⟩ := hchain
    exact ⟨t, rfl, htail⟩

/-- The memory of a block: its header and its bytes. -/
def blockSpan (mem : ℕ → ℕ) (h : ℕ) : ℕ × ℕ := (h, mem h + slabHeaderSize)

/-- The requested caches. -/
def Slab.cacheSpans (s : Slab) : List (ℕ × ℕ) := s.plist.map fun p => (p.1, p.2 * pageSize)

/-- A block in use, with the size that its owner asked for. -/
structure LiveBlock where
  header : ℕ
  requested : ℤ
deriving DecidableEq

/-- Whole pages in use, with the size that their owner asked for. -/
structure LivePages where
  addr : ℕ
  nr : ℕ
  requested : ℤ
deriving DecidableEq

/-- The memory of pages in use. -/
def LivePages.span (p : LivePages) : ℕ × ℕ := (p.addr, p.nr * pageSize)

/-- The headers of all blocks: those in use and those on the pools. -/
def blocks (live : List LiveBlock) (chain : ℕ → List ℕ) : List ℕ :=
  live.map LiveBlock.header ++ (List.range poolNr).flatMap chain

/-- The bump region and the memory of all blocks. -/
def pieces (s : Slab) (live : List LiveBlock) (chain : ℕ → List ℕ) : List (ℕ × ℕ) :=
  (s.slabFree, s.freeSize) :: (blocks live chain).map (blockSpan s.mem)

/-- The invariant. With `fits`, everything in use is also as large as its owner asked
for. -/
structure Inv (fits : Prop) (s : Slab) (live : List LiveBlock) (pages : List LivePages)
    (chain : ℕ → List ℕ) : Prop where
  chains : ∀ i < poolNr, Chain s.mem (s.head i) (chain i)
  nodup : (blocks live chain).Nodup
  tiles : ∀ x, count (pieces s live chain) x = count s.cacheSpans x
  apart : ∀ x, count (s.cacheSpans ++ pages.map LivePages.span) x ≤ 1
  header_ok : ∀ h ∈ blocks live chain, 0 < h ∧ 8 ∣ h
  size_ok : ∀ h ∈ blocks live chain, minSlabSize ≤ s.mem h ∧ s.mem h ≤ slabCacheSize
  magic : ∀ b ∈ live, s.mem (b.header + 4) = slabMagic
  pooled : ∀ i < poolNr, ∀ h ∈ chain i, minSlabSize * (i + 1) ≤ s.mem h
  bump_size : s.freeSize = 0 ∨
    minSlabSize + slabHeaderSize ≤ s.freeSize ∧ s.freeSize ≤ slabCacheSize
  bump_addr : s.freeSize ≠ 0 → 0 < s.slabFree ∧ 8 ∣ s.slabFree
  fit : fits → (∀ b ∈ live, b.requested ≤ s.mem b.header) ∧
    ∀ p ∈ pages, p.requested ≤ (p.nr * pageSize : ℕ)

section Operations

variable {fits : Prop} {s s' : Slab} {live live' : List LiveBlock} {pages : List LivePages}
  {chain chain' : ℕ → List ℕ}

theorem header_mem_blocks {b : LiveBlock} (hb : b ∈ live) : b.header ∈ blocks live chain :=
  List.mem_append_left _ (List.mem_map_of_mem hb)

variable {h i h' : ℕ}

theorem chain_mem_blocks (hi : i < poolNr) (hh : h ∈ chain i) : h ∈ blocks live chain :=
  List.mem_append_right _ (List.mem_flatMap.mpr ⟨i, List.mem_range.mpr hi, hh⟩)

section
variable (hinv : Inv fits s live pages chain)
include hinv

theorem Inv.setLocked (b : Bool) : Inv fits { s with locked := b } live pages chain :=
  ⟨hinv.chains, hinv.nodup, hinv.tiles, hinv.apart, hinv.header_ok, hinv.size_ok, hinv.magic,
    hinv.pooled, hinv.bump_size, hinv.bump_addr, hinv.fit⟩

theorem Inv.pieces_le_one (x : ℕ) : count (pieces s live chain) x ≤ 1 := by
  have hone := hinv.apart x
  rw [count_append, ← hinv.tiles x] at hone
  omega

theorem Inv.blocks_apart {x : ℕ} (hh : h ∈ blocks live chain) (hh' : h' ∈ blocks live chain)
    (hne : h ≠ h') (hx : Holds (blockSpan s.mem h) x) :
    ¬ Holds (blockSpan s.mem h') x := by
  have hpair := (List.pairwise_cons.mp (pairwise_of_countP_le_one hinv.pieces_le_one)).2
  rw [List.pairwise_map] at hpair
  have hsymm : Std.Symm fun a b => ∀ x, ¬ (Holds (blockSpan s.mem a) x ∧
      Holds (blockSpan s.mem b) x) := ⟨fun a b hab x hx => hab x hx.symm⟩
  exact fun hx' => hpair.forall hh hh' hne x ⟨hx, hx'⟩

theorem Inv.bump_apart {x : ℕ} (hh : h ∈ blocks live chain) (hx : Holds (s.slabFree, s.freeSize) x)
    : ¬ Holds (blockSpan s.mem h) x := by
  have hpair := (List.pairwise_cons.mp (pairwise_of_countP_le_one hinv.pieces_le_one)).1
  exact fun hx' => hpair _ (List.mem_map_of_mem hh) x ⟨hx, hx'⟩

theorem Inv.bump_fresh (hfree : s.freeSize ≠ 0) : s.slabFree ∉ blocks live chain := by
  intro hmem
  have hbump : Holds (s.slabFree, s.freeSize) s.slabFree := ⟨le_refl _, by simp only; omega⟩
  have hblock : Holds (blockSpan s.mem s.slabFree) s.slabFree := by
    refine ⟨le_refl _, ?_⟩
    simp only [blockSpan, slabHeaderSize]
    omega
  exact hinv.bump_apart hmem hbump hblock

end

/-- Moving a block between the pools and the blocks in use keeps the list of blocks. -/
theorem blocks_perm {t : List ℕ} (hi : i < poolNr) (hchain : chain i = h :: t) (requested : ℤ) :
    (blocks (⟨h, requested⟩ :: live) (update chain i t)).Perm (blocks live chain) := by
  have hrange : i ∈ List.range poolNr := List.mem_range.mpr hi
  have hnew := flatMap_update_perm List.nodup_range hrange chain t
  have hold := flatMap_perm hrange chain
  rw [hchain] at hold
  unfold blocks
  refine (List.Perm.append_left _ hnew).trans (List.Perm.trans ?_ (List.Perm.append_left _ hold.symm))
  exact List.perm_middle.symm

/-- An operation that moves blocks between their owners and rewrites only their second
header words keeps the invariant, when the chains and the magic words are right. -/
theorem Inv.reassign (hinv : Inv fits s live pages chain)
    (hperm : (blocks live' chain').Perm (blocks live chain))
    (hmem : ∀ h ∈ blocks live chain, s'.mem h = s.mem h) (hfree : s'.slabFree = s.slabFree)
    (hsize : s'.freeSize = s.freeSize) (hplist : s'.plist = s.plist)
    (hchains : ∀ i < poolNr, Chain s'.mem (s'.head i) (chain' i))
    (hmagic : ∀ b ∈ live', s'.mem (b.header + 4) = slabMagic)
    (hpooled : ∀ i < poolNr, ∀ h ∈ chain' i, minSlabSize * (i + 1) ≤ s'.mem h)
    (hfit : fits → ∀ b ∈ live', b.requested ≤ s'.mem b.header) :
    Inv fits s' live' pages chain' where
  chains := hchains
  nodup := hperm.nodup_iff.mpr hinv.nodup
  tiles x := by
    have hspans : (blocks live' chain').map (blockSpan s'.mem) =
        (blocks live' chain').map (blockSpan s.mem) := by
      apply List.map_congr_left
      intro h hh
      simp only [blockSpan, hmem h (hperm.mem_iff.mp hh)]
    have htiles := hinv.tiles x
    unfold pieces at htiles ⊢
    rw [hfree, hsize, hspans, count_perm ((hperm.map _).cons _), htiles]
    simp only [Slab.cacheSpans, hplist]
  apart := by simpa only [Slab.cacheSpans, hplist] using hinv.apart
  header_ok h hh := hinv.header_ok h (hperm.mem_iff.mp hh)
  size_ok h hh := by
    rw [hmem h (hperm.mem_iff.mp hh)]
    exact hinv.size_ok h (hperm.mem_iff.mp hh)
  magic := hmagic
  pooled := hpooled
  bump_size := by simpa only [hsize] using hinv.bump_size
  bump_addr := by simpa only [hsize, hfree] using hinv.bump_addr
  fit h := ⟨hfit h, (hinv.fit h).2⟩

theorem Inv.update_link_size (hinv : Inv fits s live pages chain) (hh : h ∈ blocks live chain)
    (hh' : h' ∈ blocks live chain) (v : ℕ) : update s.mem (h + 4) v h' = s.mem h' := by
  apply update_of_ne
  have halign := (hinv.header_ok h hh).2
  have halign' := (hinv.header_ok h' hh').2
  omega

theorem update_link_link {mem : ℕ → ℕ} (hne : h' ≠ h) (v : ℕ) :
    update mem (h + 4) v (h' + 4) = mem (h' + 4) := by
  apply update_of_ne
  omega

theorem Inv.chain_ne (hinv : Inv fits s live pages chain) {j : ℕ} (hi : i < poolNr)
    (hj : j < poolNr) (hij : i ≠ j) (hh : h ∈ chain i) (hh' : h' ∈ chain j) : h ≠ h' := by
  have hnodup := (List.nodup_append.mp hinv.nodup).2.1
  rw [List.nodup_flatMap] at hnodup
  have hsymm : Std.Symm fun a b => List.Disjoint (chain a) (chain b) := ⟨fun a b hab => hab.symm⟩
  have hdisj := hnodup.2.forall (List.mem_range.mpr hi) (List.mem_range.mpr hj) hij
  rintro rfl
  exact hdisj hh hh'

/-- Taking the first block of a pool keeps the invariant. With `fits`, the block must be
as large as its new owner asked for. -/
theorem Inv.takeFromPool (hinv : Inv fits s live pages chain) (hi : i < poolNr)
    (hhead : s.head i ≠ 0) {requested : ℤ} (hfit : fits → requested ≤ s.mem (s.head i)) :
    ∃ t, chain i = s.head i :: t ∧
      Inv fits (takeFromPool s i).2 (⟨s.head i, requested⟩ :: live) pages
        (update chain i t) := by
  obtain ⟨t, hchain, htail⟩ := (hinv.chains i hi).exists_cons hhead
  have hmem : s.head i ∈ blocks live chain :=
    chain_mem_blocks hi (hchain ▸ List.mem_cons_self)
  have hsub : ∀ j < poolNr, ∀ h ∈ update chain i t j, h ∈ chain j := by
    intro j hj h hh
    by_cases hji : j = i
    · subst hji
      rw [update_self] at hh
      rw [hchain]
      exact List.mem_cons_of_mem _ hh
    · rwa [update_of_ne hji] at hh
  have hnodup : (s.head i :: t).Nodup := by
    have hflat := (List.nodup_append.mp hinv.nodup).2.1
    rw [List.nodup_flatMap] at hflat
    exact hchain ▸ hflat.1 i (List.mem_range.mpr hi)
  refine ⟨t, hchain, ?_⟩
  apply hinv.reassign (blocks_perm hi hchain requested)
  case hmem => exact fun h hh => hinv.update_link_size hmem hh slabMagic
  case hfree => rfl
  case hsize => rfl
  case hplist => rfl
  case hchains =>
    intro j hj
    by_cases hji : j = i
    · subst hji
      simp only [Slabs.takeFromPool, getSlabFromSlabPool, update_self]
      apply htail.congr
      intro h hh
      apply update_link_link
      rintro rfl
      exact (List.nodup_cons.mp hnodup).1 hh
    · simp only [Slabs.takeFromPool, getSlabFromSlabPool, update_of_ne hji]
      apply (hinv.chains j hj).congr
      intro h hh
      exact update_link_link
        (hinv.chain_ne hj hi hji hh (hchain ▸ List.mem_cons_self)) _
  case hmagic =>
    intro b hb
    by_cases hbh : b.header = s.head i
    · simp only [Slabs.takeFromPool, getSlabFromSlabPool, hbh, update_self]
    · obtain rfl | hb := List.mem_cons.mp hb
      · exact absurd rfl hbh
      · exact (update_link_link hbh _).trans (hinv.magic b hb)
  case hpooled =>
    intro j hj h hh
    have hh' := hsub j hj h hh
    have hsame := hinv.update_link_size hmem (chain_mem_blocks hj hh') slabMagic
    exact (hinv.pooled j hj h hh').trans_eq hsame.symm
  case hfit =>
    intro hf b hb
    obtain rfl | hb := List.mem_cons.mp hb
    · exact (hfit hf).trans_eq (congrArg Nat.cast (hinv.update_link_size hmem hmem slabMagic).symm)
    · have hsame := hinv.update_link_size hmem (header_mem_blocks hb) slabMagic
      exact ((hinv.fit hf).1 b hb).trans_eq (congrArg Nat.cast hsame.symm)

/-- Putting a block in use on a pool whose sizes it reaches keeps the invariant. -/
theorem Inv.addToPool {b : LiveBlock} (hinv : Inv fits s (b :: live) pages chain) (hi : i < poolNr)
    (hsize : minSlabSize * (i + 1) ≤ s.mem b.header) :
    Inv fits (addSlabToSlabPool s b.header i) live pages
      (update chain i (b.header :: chain i)) := by
  have hb : b ∈ b :: live := List.mem_cons_self
  have hmem : b.header ∈ blocks (b :: live) chain := header_mem_blocks hb
  have hfresh : b.header ∉ live.map LiveBlock.header ++ (List.range poolNr).flatMap chain :=
    (List.nodup_cons.mp hinv.nodup).1
  have hlive : ∀ c ∈ live, c.header ≠ b.header := by
    intro c hc h
    exact hfresh (List.mem_append_left _ (h ▸ List.mem_map_of_mem hc))
  have hchain : ∀ j < poolNr, ∀ h ∈ chain j, h ≠ b.header := by
    rintro j hj h hh rfl
    exact hfresh (chain_mem_blocks hj hh)
  have hperm : (blocks (b :: live)
      (update (update chain i (b.header :: chain i)) i (chain i))).Perm
      (blocks live (update chain i (b.header :: chain i))) :=
    blocks_perm hi (update_self _ _ _) b.requested
  rw [update_idem, update_eq_self] at hperm
  have hsame : ∀ h ∈ blocks (b :: live) chain, (addSlabToSlabPool s b.header i).mem h = s.mem h :=
    fun h hh => hinv.update_link_size hmem hh (s.head i)
  apply hinv.reassign hperm.symm hsame
  case hfree => rfl
  case hsize => rfl
  case hplist => rfl
  case hchains =>
    intro j hj
    have htail : Chain (addSlabToSlabPool s b.header i).mem (s.head j) (chain j) := by
      apply (hinv.chains j hj).congr
      intro h hh
      exact update_link_link (hchain j hj h hh) _
    by_cases hji : j = i
    · subst hji
      have hhead : (addSlabToSlabPool s b.header j).head j = b.header := update_self _ _ _
      have hlink : (addSlabToSlabPool s b.header j).mem (b.header + 4) = s.head j :=
        update_self _ _ _
      rw [hhead, update_self]
      refine ⟨rfl, (hinv.header_ok _ hmem).1.ne', ?_⟩
      rwa [hlink]
    · have hhead : (addSlabToSlabPool s b.header i).head j = s.head j :=
        update_of_ne hji _ _
      rwa [hhead, update_of_ne hji]
  case hmagic =>
    intro c hc
    exact (update_link_link (hlive c hc) _).trans (hinv.magic c (List.mem_cons_of_mem b hc))
  case hpooled =>
    intro j hj h hh
    by_cases hji : j = i
    · subst hji
      rw [update_self] at hh
      obtain rfl | hh := List.mem_cons.mp hh
      · rwa [hsame _ hmem]
      · rw [hsame h (chain_mem_blocks hj hh)]
        exact hinv.pooled j hj h hh
    · rw [update_of_ne hji] at hh
      rw [hsame h (chain_mem_blocks hj hh)]
      exact hinv.pooled j hj h hh
  case hfit =>
    intro hf c hc
    have hc' := List.mem_cons_of_mem b hc
    rw [hsame _ (header_mem_blocks hc')]
    exact (hinv.fit hf).1 c hc'

end Operations

end Chunos.Slabs
