import Chunos.Mm.SectionRuns

/-!
# Giving back a run of pages at once

`get_free_pages_from_section` keeps the length of a run in a field of 16 bits of its first page,
and `__free_pages` clears as many bits as that field says. This file compares the bitmap before an
allocation with the bitmap when the run has been given back.
-/

namespace Chunos

open Option

theorem Bitmap.ext_bit {bitmap bitmap' : Bitmap} (h : ∀ m, bitmap.bit m = bitmap'.bit m) :
    bitmap = bitmap' := by
  funext k
  refine BitVec.eq_of_getLsbD_eq fun i hi => ?_
  have hbit := h (32 * k + i)
  have hword : (32 * k + i) / 32 = k := by omega
  have hplace : (32 * k + i) % 32 = i := by omega
  simpa only [Bitmap.bit, hword, hplace] using hbit

/-- An allocation that succeeds sets bits that were clear, as long as the index of the search is
an `int`, and keeps the low 16 bits of the length in the head. -/
theorem getFreePagesFromSection_taken {fuel count flag head : ℕ} {vp : Bool} {s s₁ : MmSection}
    {ret : PagesRet} {reads : List ℤ} (hcount : 1 ≤ count)
    (hret : getFreePagesFromSection fuel s count flag vp = some (ret, s₁, reads))
    (hint : ∀ i ∈ reads, i + 1 < 2 ^ 31) (hhead : s.headPage ret = some head) :
    head + count < 2 ^ 31 ∧ (∀ m, head ≤ m → m < head + count → s.bitmap.bit m = false) ∧
      s₁.bitmap = updateMemoryBitmap s.bitmap head count true ∧
      s₁.bmCurrent ≤ head + count ∧ (s₁.pageTable head).count = count % 2 ^ 16 := by
  obtain ⟨base, hfind, ⟨-, rfl, rfl⟩ | ⟨index, rfl, rfl, rfl⟩⟩ := getFreePagesFromSection_eq hret
  · cases hhead
  · rw [headPage_of_success, some.injEq] at hhead
    subst hhead
    obtain hneg | ⟨hlast, hbits⟩ := scanLoop_matching (Scan.matching_first _ _) hfind
    · simp only [enospc] at hneg
      omega
    · have hlt := hint _ hlast
      refine ⟨by omega, fun m hm hm' => ?_, rfl, ?_, (initPages_head hcount).1⟩
      · have hread := hbits m (by omega) (by omega)
        rw [← readBit_eq_zero_iff (by omega)]
        exact_mod_cast hread
      · simp only
        split_ifs <;> omega

/-- The bits that were set are cleared again exactly when the field has kept the whole length. -/
theorem cleared_bitmap_eq_iff {bitmap : Bitmap} {head count : ℕ} (hint : head + count < 2 ^ 31)
    (hclear : ∀ m, head ≤ m → m < head + count → bitmap.bit m = false) :
    updateMemoryBitmap (updateMemoryBitmap bitmap head count true) head (count % 2 ^ 16) false =
      bitmap ↔ count < 2 ^ 16 := by
  have hle : count % 2 ^ 16 ≤ count := Nat.mod_le _ _
  have hbit : ∀ m, (updateMemoryBitmap (updateMemoryBitmap bitmap head count true) head
      (count % 2 ^ 16) false).bit m = if head ≤ m ∧ m < head + count % 2 ^ 16 then false
        else if head ≤ m ∧ m < head + count then true else bitmap.bit m := fun m => by
    rw [bit_updateMemoryBitmap (by omega), bit_updateMemoryBitmap (by omega)]
  constructor
  · intro heq
    by_contra hlarge
    have hlt : count % 2 ^ 16 < count := by omega
    have hlast := hbit (head + count - 1)
    rw [heq, hclear _ (by omega) (by omega), if_neg (by omega), if_pos (by omega)] at hlast
    cases hlast
  · intro hsmall
    refine Bitmap.ext_bit fun m => ?_
    rw [hbit, Nat.mod_eq_of_lt hsmall]
    by_cases hin : head ≤ m ∧ m < head + count
    · rw [if_pos hin, hclear m hin.1 hin.2]
    · rw [if_neg hin, if_neg hin]

/-- For every section and every allocation that succeeds: giving the run back returns without a
look in front of the section, and restores the bitmap, exactly when the run has less than 65536
pages and the cursor is 0 or some page below it stays in use. -/
theorem sectionFreePages_restores_iff {fuel count flag head : ℕ} {vp : Bool} {s s₁ : MmSection}
    {ret : PagesRet} {reads : List ℤ} (hcount : 1 ≤ count)
    (hret : getFreePagesFromSection fuel s count flag vp = some (ret, s₁, reads))
    (hint : ∀ i ∈ reads, i + 1 < 2 ^ 31) (hhead : s.headPage ret = some head) :
    (∃ fuel' s₂ reads', sectionFreePages fuel' s₁ head = some (s₂, reads') ∧
        (∀ i ∈ reads', 0 ≤ i) ∧ s₂.bitmap = s.bitmap) ↔
      count < 2 ^ 16 ∧ (s₁.cleared head).UsedBelow := by
  obtain ⟨hlt, hclear, hbitmap, hcur, hfield⟩ :=
    getFreePagesFromSection_taken hcount hret hint hhead
  have hends : _ ↔ (s₁.cleared head).UsedBelow := sectionFreePages_ends_iff (hcur.trans_lt hlt)
  have hrestored : ∀ {fuel' s₂ reads'}, sectionFreePages fuel' s₁ head = some (s₂, reads') →
      (s₂.bitmap = s.bitmap ↔ count < 2 ^ 16) := by
    intro fuel' s₂ reads' hfree
    obtain ⟨cur, rfl⟩ := sectionFreePages_cleared hfree
    simp only [MmSection.cleared, hbitmap, hfield]
    exact cleared_bitmap_eq_iff hlt hclear
  constructor
  · rintro ⟨fuel', s₂, reads', hfree, hreads, heq⟩
    exact ⟨(hrestored hfree).mp heq, hends.mp ⟨fuel', s₂, reads', hfree, hreads⟩⟩
  · rintro ⟨hsmall, hused⟩
    obtain ⟨fuel', s₂, reads', hfree, hreads⟩ := hends.mpr hused
    exact ⟨fuel', s₂, reads', hfree, hreads, (hrestored hfree).mpr hsmall⟩

/-- Two pages of a section of four are taken and given back. -/
theorem sectionFreePages_restores_iff_fourPageBoot :
    ∃ s₁ reads, getFreePagesFromSection 4 fourPageBoot.sec 2 1 false = some (.page 1, s₁, reads) ∧
      ∃ fuel' s₂ reads', sectionFreePages fuel' s₁ 1 = some (s₂, reads') ∧
        (∀ i ∈ reads', 0 ≤ i) ∧ s₂.bitmap = fourPageBoot.sec.bitmap := by
  obtain ⟨⟨ret, s₁, reads⟩, hget, hpair, hused⟩ : ∃ r,
      getFreePagesFromSection 4 fourPageBoot.sec 2 1 false = some r ∧
        (r.1, r.2.2) = (.page 1, [1, 2]) ∧ (r.2.1.cleared 1).UsedBelow := by decide
  cases hpair
  exact ⟨s₁, _, hget, (sectionFreePages_restores_iff (by decide) hget (by decide) rfl).mpr
    ⟨by decide, hused⟩⟩

/-- A section of 65538 pages, of which the first is in use. -/
def largeSection : MmSection :=
  { fourPageBoot.sec with
    nrPage := 65538, bmEnd := 65538, nrFreePages := 65537, bitmap := wordMap 1#32 }

theorem readBit_largeSection {j : ℤ} (hlo : 1 ≤ j) (hhi : j < 2 ^ 31) :
    (readBit largeSection.bitmap j : ℤ) = 0 := by
  obtain ⟨n, rfl⟩ := Int.eq_ofNat_of_zero_le (by omega : 0 ≤ j)
  have hbit : largeSection.bitmap.bit n = false := by
    have hplace : n / 32 = 0 → n % 32 ≠ 0 := by omega
    simp only [largeSection, Bitmap.bit, wordMap]
    split_ifs with hword
    · simp [hplace hword]
    · simp
  exact_mod_cast (readBit_eq_zero_iff (by omega)).mpr hbit

/-- A run of 65536 of these pages is taken, and giving it back clears none of its bits. -/
theorem largeSection_not_restored :
    ∃ fuel fuel' ret s₁ reads head s₂ reads',
      getFreePagesFromSection fuel largeSection 65536 1 false = some (ret, s₁, reads) ∧
      largeSection.headPage ret = some head ∧
      sectionFreePages fuel' s₁ head = some (s₂, reads') ∧
      s₂.bitmap ≠ largeSection.bitmap := by
  have hrun : FreeRun largeSection.bitmap 0 65538 65536 1 :=
    ⟨by decide, by decide, fun j hj hj' => readBit_largeSection hj (by omega)⟩
  obtain ⟨base, reads, hfind, -⟩ : ∃ base reads,
      bitmapFindFreeBase (65538 : ℤ).toNat largeSection.bitmap 1 0 65538 65536 =
        some (base, reads) ∧ (reads.length : ℤ) ≤ 65538 :=
    bitmapFindFreeBase_returns (by decide) (by decide) (.inl (by decide)) (Int.self_le_toNat _)
  generalize (65538 : ℤ).toNat = fuel at hfind
  obtain ⟨hcases, hreads⟩ :=
    bitmapFindFreeBase_inSight (by decide) (by decide) (by decide) hfind
  have hbase : 0 ≤ base := by
    obtain ⟨-, hnone⟩ | ⟨hfree, -⟩ := hcases
    · exact absurd hrun (hnone 1 (.inl le_rfl))
    · exact hfree.1
  obtain ⟨head, rfl⟩ := Int.eq_ofNat_of_zero_le hbase
  have hcursor : wrap32 largeSection.bmCurrent = 1 := by decide
  have hnr : (largeSection.nrPage : ℤ) = 65538 := by norm_num [largeSection]
  have hcount : ((65536 : ℕ) : ℤ) = 65536 := by norm_num
  obtain ⟨s₁, hget⟩ : ∃ s₁, getFreePagesFromSection fuel largeSection 65536 1 false =
      some (.page head, s₁, reads) := by
    rw [getFreePagesFromSection, hcursor, hnr, hcount, hfind]
    simp only [map_some, if_neg (not_lt.mpr hbase), Int.toNat_natCast]
    exact ⟨_, rfl⟩
  obtain ⟨hlt, hclear, hbitmap, hcur, hfield⟩ := getFreePagesFromSection_taken (by decide) hget
    (fun i hi => by have := hreads i hi; omega) rfl
  have hfirst : (s₁.cleared head).bitmap.bit 0 = true := by
    have hmod : 65536 % 2 ^ 16 = 0 := by norm_num
    have hused : largeSection.bitmap.bit 0 = true := by decide
    rw [MmSection.cleared, hfield, hbitmap, hmod, updateMemoryBitmap,
      bit_updateMemoryBitmap (by omega), hused, ite_self]
  obtain ⟨⟨s₂, reads'⟩, hfree⟩ := sectionFreePages_returns
    (fun hzero => ⟨0, Nat.pos_of_ne_zero hzero, hfirst⟩) (by omega) le_rfl
  refine ⟨fuel, s₁.bmCurrent, _, s₁, reads, head, s₂, reads', hget, rfl, hfree, ?_⟩
  obtain ⟨cur, rfl⟩ := sectionFreePages_cleared hfree
  simp only [MmSection.cleared, hfield, hbitmap, ne_eq, cleared_bitmap_eq_iff hlt hclear]
  decide

end Chunos
