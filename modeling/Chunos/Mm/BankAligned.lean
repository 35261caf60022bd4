import Chunos.Mm.BankMoves

/-!
# Aligned pages: find_align_page

The search goes through the aligned blocks of a section, from the one with the cursor on, and
looks at the first pages of each. When the size of the section and its address are multiples of
the alignment, it looks at no page outside the section and it comes to every block. The end of the
section is computed as a 32-bit number: in a section that ends at the last address nothing is
found.
-/

namespace Chunos.Bank

open Option

section Aligned

variable {v : MmSection} {size : ℤ} {align : ℕ} {nr : ℤ}

/-- A request for `nr` pages at a multiple of `align`, to a section that consists of blocks of this
size. -/
structure AlignRequest (v : MmSection) (size : ℤ) (align : ℕ) (nr : ℤ) : Prop where
  align_eq : ∃ k, align = 2 ^ k * pageSize
  virStart_lt : v.virStart < 2 ^ 32
  virStart_dvd : align ∣ v.virStart
  size_eq : size = v.nrPage * pageSize
  size_lt : size < 2 ^ 31
  size_dvd : (align : ℤ) ∣ size
  nr_pos : 1 ≤ nr
  nr_le : nr * pageSize ≤ align
  bmCurrent_lt : v.bmCurrent < v.nrPage

/-- The `nr` pages from `id` on lie in the section, at a multiple of `align`, and they are free. -/
structure AlignedFree (v : MmSection) (align : ℕ) (nr : ℤ) (id : ℕ) : Prop where
  dvd : align ∣ v.virStart + id * pageSize
  inside : id + nr ≤ v.nrPage
  clear : ∀ i : ℕ, i < nr → v.bitmap.bit (id + i) = false

/-- The section in blocks of `2 ^ k` pages. -/
theorem AlignRequest.blocks (h : AlignRequest v size align nr) :
    ∃ k, align = 2 ^ k * pageSize ∧ 2 ^ k ∣ v.nrPage ∧ v.nrPage < 2 ^ 19 ∧ nr ≤ 2 ^ k ∧ k < 19 := by
  obtain ⟨k, rfl⟩ := h.align_eq
  have hlt := h.size_lt
  have hle := h.nr_le
  have hcur := h.bmCurrent_lt
  have hpage : (0 : ℕ) < pageSize := by decide
  have hdvd : 2 ^ k ∣ v.nrPage := by
    have hsize := h.size_dvd
    rw [h.size_eq] at hsize
    exact Nat.dvd_of_mul_dvd_mul_right hpage (by exact_mod_cast hsize)
  have hnr : nr ≤ 2 ^ k := by
    push_cast at hle
    exact le_of_mul_le_mul_right hle (by exact_mod_cast hpage)
  have hpages : v.nrPage < 2 ^ 19 := by
    rw [h.size_eq] at hlt
    simp only [pageSize] at hlt
    omega
  refine ⟨k, rfl, hdvd, hpages, hnr, ?_⟩
  have hblock : 2 ^ k < 2 ^ 19 := lt_of_le_of_lt (Nat.le_of_dvd (by omega) hdvd) hpages
  exact (Nat.pow_lt_pow_iff_right (by norm_num)).mp hblock

variable {k : ℕ}

theorem AlignRequest.dvd_iff (h : AlignRequest v size align nr) (halign : align = 2 ^ k * pageSize)
    (id : ℕ) : align ∣ v.virStart + id * pageSize ↔ 2 ^ k ∣ id := by
  rw [Nat.dvd_add_right h.virStart_dvd, halign]
  exact Nat.mul_dvd_mul_iff_right (by decide)

/-- The search starts at the block with the cursor. -/
theorem AlignRequest.start (h : AlignRequest v size align nr) (halign : align = 2 ^ k * pageSize)
    (hk : k < 19) (hend : v.virStart + size < 2 ^ 32) :
    alignDown (u32 (v.virStart + (v.bmCurrent <<< pageShift : ℕ))) align =
      v.virStart + v.bmCurrent / 2 ^ k * 2 ^ k * pageSize := by
  have hcur := h.bmCurrent_lt
  have hshift : v.bmCurrent <<< pageShift = v.bmCurrent * pageSize := Nat.shiftLeft_eq _ _
  have hlt : v.virStart + v.bmCurrent * pageSize < 2 ^ 32 := by
    rw [h.size_eq] at hend
    simp only [pageSize] at hend ⊢
    omega
  have hpow : align = 2 ^ (k + 12) := by
    rw [halign, pow_add]
    rfl
  obtain ⟨a, ha⟩ := h.virStart_dvd
  rw [hshift, ← Nat.cast_add, u32_natCast hlt, hpow, alignDown_two_pow (by omega),
    Nat.mod_eq_of_lt hlt, ← hpow]
  have hpos : 0 < align := by
    rw [hpow]
    exact Nat.two_pow_pos _
  have hdiv : v.bmCurrent * pageSize / align = v.bmCurrent / 2 ^ k := by
    rw [halign]
    exact Nat.mul_div_mul_right _ _ (by decide)
  rw [ha, Nat.mul_add_div hpos, hdiv, halign]
  ring

/-- What the loop of `find_align_page` comes to from a block on: the first free one, or none. -/
def Searched (v : MmSection) (k : ℕ) (nr : ℤ) (id : ℕ) : Option ℕ → Prop
  | some id' => id ≤ id' ∧ 2 ^ k ∣ id' ∧ id' < v.nrPage ∧
      ∀ i : ℕ, i < nr → v.bitmap.bit (id' + i) = false
  | none => ∀ id', id ≤ id' → 2 ^ k ∣ id' → id' < v.nrPage →
      ¬ ∀ i : ℕ, i < nr → v.bitmap.bit (id' + i) = false

theorem add_le_of_dvd_of_lt {d a b : ℕ} (ha : d ∣ a) (hb : d ∣ b) (hlt : a < b) : a + d ≤ b := by
  have hle := Nat.le_of_dvd (by omega) (Nat.dvd_sub hb ha)
  omega

theorem readBits_eq_zero_iff {bitmap : Bitmap} {id : ℕ} (hrange : id + nr ≤ 2 ^ 31) :
    (∀ i < nr.toNat, readBit bitmap ((id + i : ℕ) : ℤ) = 0) ↔
      ∀ i : ℕ, i < nr → bitmap.bit (id + i) = false := by
  refine forall_congr' fun i => ⟨fun hi hlt => ?_, fun hi hlt => ?_⟩
  · exact (readBit_eq_zero_iff (by omega)).mp (hi (by omega))
  · exact (readBit_eq_zero_iff (by omega)).mpr (hi (by omega))

/-- The loop of `find_align_page` comes to every block from its start on. -/
theorem findAlignLoop_searched (hdvd : 2 ^ k ∣ v.nrPage) (hpages : v.nrPage < 2 ^ 19)
    (hnr : nr ≤ 2 ^ k) (hend : v.virStart + v.nrPage * pageSize < 2 ^ 32) {fuel id : ℕ}
    (hid : 2 ^ k ∣ id) (hle : id ≤ v.nrPage) (hfuel : v.nrPage < fuel + id) :
    ∃ found, findAlignLoop v (v.virStart + v.nrPage * pageSize) (2 ^ k * pageSize) nr.toNat fuel
        (v.virStart + id * pageSize) = some found ∧ Searched v k nr id found := by
  have hpage : 0 < pageSize := by decide
  have hsmall : ∀ n ≤ v.nrPage, v.virStart + n * pageSize < 2 ^ 32 := by
    intro n hn
    have hmul := Nat.mul_le_mul_right pageSize hn
    omega
  induction fuel generalizing id with
  | zero => omega
  | succ fuel ih =>
    rw [findAlignLoop]
    have hless : v.virStart + id * pageSize < v.virStart + v.nrPage * pageSize ↔ id < v.nrPage := by
      rw [Nat.add_lt_add_iff_left, Nat.mul_lt_mul_right hpage]
    by_cases hinside : id < v.nrPage
    · have hblock := add_le_of_dvd_of_lt hid hdvd hinside
      have hpos := Nat.two_pow_pos k
      have hoffset : ((v.virStart + id * pageSize : ℕ) : ℤ) - v.virStart = (id * pageSize : ℕ) := by
        push_cast
        ring
      have hindex : u32 ((v.virStart + id * pageSize : ℕ) - v.virStart) >>> pageShift = id := by
        have hlt := hsmall id hle
        rw [hoffset, u32_natCast (by omega), Nat.shiftRight_eq_div_pow]
        exact Nat.mul_div_cancel _ hpage
      have hnext : u32 ((v.virStart + id * pageSize : ℕ) + (2 ^ k * pageSize : ℕ)) =
          v.virStart + (id + 2 ^ k) * pageSize := by
        have hsum : v.virStart + id * pageSize + 2 ^ k * pageSize =
            v.virStart + (id + 2 ^ k) * pageSize := by ring
        rw [← Nat.cast_add, hsum]
        exact u32_natCast (hsmall _ hblock)
      have hnr' : nr ≤ (2 ^ k : ℕ) := by exact_mod_cast hnr
      have hread : (∀ i < nr.toNat, readBit v.bitmap ((u32 ((v.virStart + id * pageSize : ℕ) -
          v.virStart) >>> pageShift + i : ℕ) : ℤ) = 0) ↔
          ∀ i : ℕ, i < nr → v.bitmap.bit (id + i) = false := by
        rw [hindex]
        exact readBits_eq_zero_iff (by omega)
      rw [if_pos (hless.mpr hinside)]
      by_cases hclear : ∀ i : ℕ, i < nr → v.bitmap.bit (id + i) = false
      · refine ⟨some id, ?_, le_rfl, hid, hinside, hclear⟩
        rw [if_pos (hread.mpr hclear), hindex]
      · rw [if_neg (hread.not.mpr hclear), hnext]
        obtain ⟨found, hfound, hsearched⟩ := ih (dvd_add hid dvd_rfl) hblock (by omega)
        refine ⟨found, hfound, ?_⟩
        cases found with
        | some id' => exact ⟨by have := hsearched.1; omega, hsearched.2⟩
        | none =>
          intro id' hge hid' hlt
          obtain rfl | hne := eq_or_ne id' id
          · exact hclear
          · -- the next block is the first one behind this one
            exact hsearched id' (add_le_of_dvd_of_lt hid hid' (by omega)) hid' hlt
    · rw [if_neg (hless.not.mpr hinside)]
      exact ⟨none, rfl, fun id' hge _ hlt => by omega⟩

/-- The bitmap that `find_align_page` leaves. -/
def bitmapAfter (v : MmSection) (found : Option (ℕ × MmSection)) : Bitmap :=
  (found.elim v fun x => x.2).bitmap

/-- `find_align_page` on a section that consists of aligned blocks and ends below the last
address. It returns. A page that it returns is at a multiple of `align`, and the run of pages lies
in the section; their bits were clear and are set now, and all others are as before. When it
returns none, then no aligned run from the block with the cursor on is free, and all bits are as
before. -/
theorem findAlignPage_spec (h : AlignRequest v size align nr) (hend : v.virStart + size < 2 ^ 32)
    (flag : ℕ) {fuel : ℕ} (hfuel : v.nrPage < fuel) :
    ∃ found, findAlignPage fuel v size align nr flag = some found ∧
      (∀ id v', found = some (id, v') → align ∣ v.virStart + id * pageSize ∧ id + nr ≤ v.nrPage ∧
        (∀ m : ℕ, id ≤ m → m < id + nr →
          v.bitmap.bit m = false ∧ (bitmapAfter v found).bit m = true) ∧
        ∀ m : ℕ, ¬ (id ≤ m ∧ m < id + nr) → (bitmapAfter v found).bit m = v.bitmap.bit m) ∧
      (found = none → bitmapAfter v found = v.bitmap ∧
        ∀ id, v.bmCurrent * pageSize / align * align ≤ id * pageSize →
          ¬ AlignedFree v align nr id) := by
  obtain ⟨k, rfl, hdvd, hpages, hnr, hk⟩ := h.blocks
  have hpage : (0 : ℕ) < pageSize := by decide
  have hpos := Nat.two_pow_pos k
  have hcur := h.bmCurrent_lt
  have hnrPos := h.nr_pos
  have hsum : (v.virStart : ℤ) + size = (v.virStart + v.nrPage * pageSize : ℕ) := by
    rw [h.size_eq]
    push_cast
    ring
  have hend' : v.virStart + v.nrPage * pageSize < 2 ^ 32 := by
    rw [hsum] at hend
    exact_mod_cast hend
  have hround : v.bmCurrent * pageSize / (2 ^ k * pageSize) * (2 ^ k * pageSize) =
      v.bmCurrent / 2 ^ k * 2 ^ k * pageSize := by
    rw [Nat.mul_div_mul_right _ _ hpage]
    ring
  have hle : v.bmCurrent / 2 ^ k * 2 ^ k ≤ v.bmCurrent := Nat.div_mul_le_self _ _
  have hfuel' : v.nrPage < fuel + v.bmCurrent / 2 ^ k * 2 ^ k := by omega
  obtain ⟨found, hloop, hsearched⟩ := findAlignLoop_searched hdvd hpages hnr hend'
    (Nat.dvd_mul_left (2 ^ k) (v.bmCurrent / 2 ^ k)) (by omega) hfuel'
  unfold findAlignPage
  simp only [h.start rfl hk hend, hsum, u32_natCast hend', hround]
  rw [hloop, bind_some]
  cases found with
  | none =>
    refine ⟨none, rfl, fun id v' hsome => by simp at hsome, fun _ => ⟨rfl, fun id hge hfree => ?_⟩⟩
    have hid : 2 ^ k ∣ id := (h.dvd_iff rfl id).mp hfree.dvd
    have hinside := hfree.inside
    exact hsearched id (le_of_mul_le_mul_right hge hpage) hid (by omega) hfree.clear
  | some id =>
    obtain ⟨-, hid, hlt, hclear⟩ := hsearched
    have hblock := add_le_of_dvd_of_lt hid hdvd hlt
    have hnr' : nr ≤ (2 ^ k : ℕ) := by exact_mod_cast hnr
    simp only [if_neg (by omega : ¬ (id : ℤ) + nr < 0)]
    refine ⟨_, rfl, fun id' v' hsome => ?_, fun hnone => by simp at hnone⟩
    obtain ⟨rfl, -⟩ := Prod.mk.inj (some.inj hsome)
    refine ⟨(h.dvd_iff rfl id).mpr hid, by omega, fun m hm hm' => ⟨?_, ?_⟩, fun m hm => ?_⟩
    · obtain ⟨i, rfl⟩ := Nat.exists_eq_add_of_le hm
      exact hclear i (by omega)
    · exact (bit_updateMemoryBitmap (by omega) m).trans (if_pos (by omega))
    · exact (bit_updateMemoryBitmap (by omega) m).trans (if_neg (by omega))

/-- A section of 16 pages, of which the first five are in use. -/
def fourBlocks (virStart : ℕ) : MmSection where
  phyStart := 0
  virStart := virStart
  nrPage := 16
  bmEnd := 16
  bmCurrent := 5
  nrFreePages := 11
  bitmap := fun w => if w = 0 then 0x1f#32 else 0
  sectionTableId := 0
  pageTable := fun _ => zeroPage

theorem fourBlocks_request {virStart : ℕ} (hlt : virStart < 2 ^ 32) (hdvd : 0x4000 ∣ virStart) :
    AlignRequest (fourBlocks virStart) 0x10000 0x4000 1 where
  align_eq := ⟨2, rfl⟩
  virStart_lt := hlt
  virStart_dvd := hdvd
  size_eq := by norm_num [fourBlocks, pageSize]
  size_lt := by decide
  size_dvd := by decide
  nr_pos := le_rfl
  nr_le := by decide
  bmCurrent_lt := by norm_num [fourBlocks]

/-- The block with the cursor is in use, and the third one is taken. -/
theorem findAlignPage_spec_fourBlocks :
    AlignRequest (fourBlocks 0x80000000) 0x10000 0x4000 1 ∧
      ∃ found, findAlignPage 17 (fourBlocks 0x80000000) 0x10000 0x4000 1 0 = some found ∧
        found.map Prod.fst = some 8 ∧
        ∀ id v', found = some (id, v') →
          0x4000 ∣ (fourBlocks 0x80000000).virStart + id * pageSize := by
  have hrequest : AlignRequest (fourBlocks 0x80000000) 0x10000 0x4000 1 :=
    fourBlocks_request (by decide) (by decide)
  have hobs : (findAlignPage 17 (fourBlocks 0x80000000) 0x10000 0x4000 1 0).map
      (Option.map Prod.fst) = some (some 8) := by decide
  obtain ⟨found, hfound, hspec, -⟩ := findAlignPage_spec hrequest (by decide) 0
    (by decide : (fourBlocks 0x80000000).nrPage < 17)
  rw [hfound, map_some, some.injEq] at hobs
  exact ⟨hrequest, found, hfound, hobs, fun id v' h => (hspec id v' h).1⟩

/-- In the same section at the end of memory nothing is found. -/
theorem findAlignPage_at_end :
    AlignRequest (fourBlocks 0xFFFF0000) 0x10000 0x4000 1 ∧
      (∀ fuel, findAlignPage (fuel + 1) (fourBlocks 0xFFFF0000) 0x10000 0x4000 1 0 = some none) ∧
      (fourBlocks 0xFFFF0000).bmCurrent * pageSize / 0x4000 * 0x4000 ≤ 8 * pageSize ∧
      AlignedFree (fourBlocks 0xFFFF0000) 0x4000 1 8 := by
  refine ⟨fourBlocks_request (by decide) (by decide), fun fuel => ?_, by decide, by decide,
    by decide, fun i hi => ?_⟩
  · have hlast : u32 ((fourBlocks 0xFFFF0000).virStart + 0x10000) = 0 := by decide
    simp [findAlignPage, hlast, findAlignLoop]
  · obtain rfl : i = 0 := by omega
    decide

end Aligned

end Chunos.Bank
