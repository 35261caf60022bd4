import Chunos.BitopsScan

/-!
# Page runs of one memory section: mm/mm.c

A section owns a bitmap with one bit a page, an array of `struct page`, and the
cursor `bm_current` at which the next search starts. This file embeds the functions
that take a run of pages from a section and give it back. The functions that search
bits also return the indices they read. The zone mutex is not part of the model: a
call is one step here.
-/

namespace Chunos

open Option

/-- `struct page` of `os/mm.h`, without its list node. -/
structure Page where
  phyAddress : ℕ
  mapAddress : ℕ
  flag : ℕ
  /-- A 16-bit field: the pages allocated together, kept in the first of them. -/
  count : ℕ
  pinfo : ℕ
  pdata : ℕ
  deriving DecidableEq, Repr

/-- `struct mm_section`, with the fields that the page functions read. A
`struct page *` of the section is its index in `pageTable`. -/
structure MmSection where
  phyStart : ℕ
  virStart : ℕ
  nrPage : ℕ
  bmEnd : ℕ
  bmCurrent : ℕ
  nrFreePages : ℤ
  bitmap : Bitmap
  sectionTableId : ℕ
  pageTable : ℕ → Page

/-- `__GFP_USER` of `os/mm.h`. -/
def gfpUser : ℕ := 0x00000008

/-- `GFP_ZONE_ID_MASK` of `os/mm.h`. -/
def gfpZoneIdMask : ℕ := 0x000000ff

/-- `__GFP_PAGE_HEADER` of `os/mm.h`: marks the first page of a run. -/
def gfpPageHeader : ℕ := 0x00010000

/-- The loop of `init_pages`: `i` pages are done, `pg` is the next one, `nr` and
`flagTemp` are the values of the first page until it has been written. -/
def initPagesLoop (s : MmSection) (flag va stride : ℕ) :
    ℕ → ℕ → ℕ → ℕ → ℕ → ℕ → (ℕ → Page) → ℕ → Page
  | 0, _, _, _, _, _, table => table
  | left + 1, i, pg, pa, nr, flagTemp, table =>
    let page : Page :=
      { phyAddress := pa % 2 ^ 32 ||| s.sectionTableId
        mapAddress := (va + i * stride) % 2 ^ 32
        flag := 0 ||| flagTemp
        count := nr % 2 ^ 16
        pinfo := 0
        pdata := 0 }
    initPagesLoop s flag va stride left (i + 1) (pg + 1) (pa + pageSize) 0 flag
      (Function.update table pg page)

/-- `init_pages`: the new contents of the page array. -/
def initPages (s : MmSection) (index count flag : ℕ) : ℕ → Page :=
  let user := flag &&& gfpUser ≠ 0
  let va := if user then 0 else s.virStart + index <<< pageShift
  let stride := if user then 0 else pageSize
  initPagesLoop s flag va stride count 0 index (s.phyStart + index <<< pageShift) count
    (flag ||| gfpPageHeader) s.pageTable

/-- `update_memory_bitmap`: set or clear the bits of `count` pages from `index` on. -/
def updateMemoryBitmap (bitmap : Bitmap) (index : ℕ) : ℕ → Bool → Bitmap
  | 0, _ => bitmap
  | count + 1, update =>
    updateMemoryBitmap (if update then setBit bitmap index else clearBit bitmap index)
      (index + 1) count update

/-- What `get_free_pages_from_section` returns: `0`, the virtual address of the run
(`vp` set) or the `struct page` of its first page (`vp` clear). -/
inductive PagesRet where
  | null
  | va (addr : ℕ)
  | page (index : ℕ)
  deriving DecidableEq, Repr

/-- `get_free_pages_from_section`: the result, the new section and the bits read. -/
def getFreePagesFromSection (fuel : ℕ) (s : MmSection) (count flag : ℕ) (vp : Bool) :
    Option (PagesRet × MmSection × List ℤ) :=
  (bitmapFindFreeBase fuel s.bitmap (wrap32 s.bmCurrent) 0 s.nrPage count).map fun (index, reads) =>
    if index < 0 then (.null, s, reads)
    else
      let index := index.toNat
      let bmCurrent := if index + count ≥ s.bmEnd then 0 else index + count
      let s' : MmSection :=
        { s with
          bitmap := updateMemoryBitmap s.bitmap index count true
          bmCurrent := bmCurrent
          nrFreePages := s.nrFreePages - count
          pageTable := initPages s index count flag }
      (if vp then .va (s.virStart + index <<< pageShift) else .page index, s', reads)

/-- `section_va_to_page`, and the identity on a `struct page` pointer. -/
def MmSection.headPage (s : MmSection) : PagesRet → Option ℕ
  | .null => none
  | .va addr => some ((addr - s.virStart) >>> pageShift)
  | .page index => some index

/-- The loop of `update_bm_current`: the clear bits from `start` downwards. -/
def bmCurrentLoop (bitmap : Bitmap) : ℕ → ℕ → ℤ → Option (ℕ × List ℤ)
  | 0, _, _ => none
  | fuel + 1, count, start =>
    if readBit bitmap start = 0 then
      (bmCurrentLoop bitmap fuel (count + 1) (start - 1)).map fun (n, reads) => (n, start :: reads)
    else some (count, [start])

/-- `update_bm_current`: move the cursor back over the free pages below it. -/
def updateBmCurrent (fuel : ℕ) (s : MmSection) : Option (MmSection × List ℤ) :=
  let start : ℤ := s.bmCurrent - 1
  if s.bmCurrent = 0 then some (s, [])
  else
    (bmCurrentLoop s.bitmap fuel 0 start).map fun (count, reads) =>
      ({ s with bmCurrent := (((s.bmCurrent : ℤ) - count) % 2 ^ 32).toNat }, reads)

/-- `__free_pages`: only the bitmap and the cursor of the section change. -/
def sectionFreePages (fuel : ℕ) (s : MmSection) (page : ℕ) : Option (MmSection × List ℤ) :=
  let count := (s.pageTable page).count
  updateBmCurrent fuel { s with bitmap := updateMemoryBitmap s.bitmap page count false }

/-- The loop of `get_zone_id`, which does not end on flags without a zone bit. -/
def zoneIdLoop : ℕ → ℕ → ℕ → Option ℕ
  | 0, _, _ => none
  | fuel + 1, flag, i => if flag = 1 then some i else zoneIdLoop fuel (flag >>> 1) (i + 1)

/-- `get_zone_id`: the position of the highest zone bit. -/
def getZoneId (fuel flag : ℕ) : Option ℕ := zoneIdLoop fuel (flag &&& gfpZoneIdMask) 0

/-- `_free_pages` on a section and a page that are not `NULL`. `zoneFree` is the
field `nr_free_pages` of each zone of `mm_bank`. -/
def _freePages (fuel : ℕ) (zoneFree : ℕ → ℤ) (s : MmSection) (page : ℕ) :
    Option ((ℕ → ℤ) × MmSection × List ℤ) :=
  let pg := s.pageTable page
  if pg.flag &&& gfpPageHeader = 0 then some (zoneFree, s, [])
  else do
    let id ← getZoneId fuel pg.flag
    let (s', reads) ← sectionFreePages fuel s page
    pure (Function.update zoneFree id (zoneFree id + pg.count), s', reads)

variable {bitmap : Bitmap} {s s' : MmSection} {reads : List ℤ}

variable {count index flag fuel : ℕ}

/-- `update_memory_bitmap` writes the bits of the run and no others. -/
theorem bit_updateMemoryBitmap {update : Bool} (hrange : index + count ≤ 2 ^ 31) (m : ℕ) :
    (updateMemoryBitmap bitmap index count update).bit m =
      if index ≤ m ∧ m < index + count then update else bitmap.bit m := by
  induction count generalizing bitmap index with
  | zero =>
    rw [updateMemoryBitmap, if_neg (by omega)]
  | succ count ih =>
    have hbit := bit_opBits bitmap (by omega : index < 2 ^ 31) update m
    have hstep : (if update then setBit bitmap index else clearBit bitmap index).bit m =
        if m = index then update else bitmap.bit m := by
      rw [← hbit]
      cases update <;> rfl
    rw [updateMemoryBitmap, ih (by omega), hstep]
    split_ifs <;> first | rfl | omega

/-- On the bits that an `int` can name, `set_bit` and `clear_bit` write the bit of their index,
`update_memory_bitmap` writes the bits of its range, `init_bitmap` clears the first `length`
bits, and every other bit reads as before. -/
theorem bitmap_writes_exact (bitmap : Bitmap) {n m index count : ℕ} {length : ℤ} (update : Bool)
    (hn : n < 2 ^ 31) (hm : m < 2 ^ 31) (hrange : index + count ≤ 2 ^ 31)
    (hlength : length < 2 ^ 31) :
    readBit (setBit bitmap n) m = (if m = n then 1 else readBit bitmap m) ∧
      readBit (clearBit bitmap n) m = (if m = n then 0 else readBit bitmap m) ∧
      readBit (updateMemoryBitmap bitmap index count update) m =
        (if index ≤ m ∧ m < index + count then update.toNat else readBit bitmap m) ∧
      readBit (initBitmap bitmap length) m =
        if (m : ℤ) < length then 0 else readBit bitmap m := by
  have hinit : initBitmap bitmap length = initBitmap bitmap length.toNat := by
    rw [initBitmap, initBitmap, Int.toNat_natCast]
  have hbelow : (m : ℤ) < length ↔ m < length.toNat := by omega
  have hset : (setBit bitmap n).bit m = _ := bit_opBits bitmap hn true m
  have hclear : (clearBit bitmap n).bit m = _ := bit_opBits bitmap hn false m
  simp only [readBit_natCast _ hm, hset, hclear, bit_updateMemoryBitmap hrange, hinit,
    bit_initBitmap bitmap (by omega : length.toNat ≤ 2 ^ 31), hbelow, apply_ite Bool.toNat,
    Bool.toNat_true, Bool.toNat_false, and_self]

/-- Bit 31 of a word, in a range over the boundary of two words. -/
theorem bitmap_writes_exact_word_boundary :
    readBit (setBit (fun _ => 0) 31) 31 = 1 ∧
      readBit (updateMemoryBitmap (fun _ => 0) 30 4 true) 31 = 1 := by
  obtain ⟨hset, -, hupdate, -⟩ := bitmap_writes_exact (fun _ => 0) true
    (by norm_num : 31 < 2 ^ 31) (by norm_num : 31 < 2 ^ 31) (by norm_num : 30 + 4 ≤ 2 ^ 31)
    (by norm_num : (64 : ℤ) < 2 ^ 31)
  exact ⟨hset, hupdate⟩

theorem initPagesLoop_of_outside {va stride left i pg pa nr flagTemp : ℕ} {table : ℕ → Page} {p : ℕ}
    (hp : p < pg ∨ pg + left ≤ p) :
    initPagesLoop s flag va stride left i pg pa nr flagTemp table p = table p := by
  induction left generalizing i pg pa nr flagTemp table with
  | zero => rfl
  | succ left ih =>
    rw [initPagesLoop, ih (by omega)]
    exact Function.update_of_ne (by omega) _ _

/-- The loop of `init_pages` writes the pages of the run, the first of them with its own count
and flag. -/
theorem initPagesLoop_page {va stride left i pg pa nr flagTemp k : ℕ} {table : ℕ → Page}
    (hk : k < left) :
    initPagesLoop s flag va stride left i pg pa nr flagTemp table (pg + k) =
      { phyAddress := (pa + k * pageSize) % 2 ^ 32 ||| s.sectionTableId
        mapAddress := (va + (i + k) * stride) % 2 ^ 32
        flag := if k = 0 then flagTemp else flag
        count := if k = 0 then nr % 2 ^ 16 else 0
        pinfo := 0
        pdata := 0 } := by
  induction left generalizing i pg pa nr flagTemp table k with
  | zero => omega
  | succ left ih =>
    rw [initPagesLoop]
    cases k with
    | zero =>
      rw [initPagesLoop_of_outside (by omega)]
      simp
    | succ k =>
      have hpg : pg + (k + 1) = pg + 1 + k := by omega
      have hpa : pa + (k + 1) * pageSize = pa + pageSize + k * pageSize := by ring
      have hi : i + (k + 1) = i + 1 + k := by omega
      rw [hpg, ih (by omega), hpa, hi]
      simp

/-- The contents of the pages of a run after `init_pages`. -/
theorem initPages_page {k : ℕ} (hk : k < count) :
    initPages s index count flag (index + k) =
      { phyAddress := (s.phyStart + (index + k) * pageSize) % 2 ^ 32 ||| s.sectionTableId
        mapAddress := if flag &&& gfpUser ≠ 0 then 0
          else (s.virStart + (index + k) * pageSize) % 2 ^ 32
        flag := if k = 0 then flag ||| gfpPageHeader else flag
        count := if k = 0 then count % 2 ^ 16 else 0
        pinfo := 0
        pdata := 0 } := by
  have hshift : ∀ x : ℕ, x <<< pageShift = x * pageSize := fun x => Nat.shiftLeft_eq _ _
  have hadd : ∀ x : ℕ, x + index * pageSize + k * pageSize = x + (index + k) * pageSize :=
    fun x => by ring
  rw [initPages, initPagesLoop_page hk]
  by_cases huser : flag &&& gfpUser ≠ 0
  · simp [huser, hshift, hadd]
  · simp [huser, hshift, hadd]

/-- `init_pages` records the length of the run in its first page, in 16 bits, and
marks that page as the head. -/
theorem initPages_head (hcount : 1 ≤ count) :
    (initPages s index count flag index).count = count % 2 ^ 16 ∧
      (initPages s index count flag index).flag = flag ||| gfpPageHeader := by
  have hpage : initPages s index count flag (index + 0) = _ := initPages_page (by omega)
  rw [Nat.add_zero] at hpage
  simp [hpage]

/-- `get_free_pages_from_section` changes nothing when the search fails, and otherwise takes the
run that the search has found. -/
theorem getFreePagesFromSection_eq {vp : Bool} {ret : PagesRet}
    (hret : getFreePagesFromSection fuel s count flag vp = some (ret, s', reads)) :
    ∃ base, bitmapFindFreeBase fuel s.bitmap (wrap32 s.bmCurrent) 0 s.nrPage count =
        some (base, reads) ∧
      ((base < 0 ∧ ret = .null ∧ s' = s) ∨
        ∃ index : ℕ, base = index ∧
          ret = (if vp then .va (s.virStart + index <<< pageShift) else .page index) ∧
          s' = { s with
            bitmap := updateMemoryBitmap s.bitmap index count true
            bmCurrent := if index + count ≥ s.bmEnd then 0 else index + count
            nrFreePages := s.nrFreePages - count
            pageTable := initPages s index count flag }) := by
  obtain ⟨⟨base, reads'⟩, hfind, hpair⟩ := map_eq_some_iff.mp hret
  by_cases hneg : base < 0
  · simp only [if_pos hneg] at hpair
    cases hpair
    exact ⟨base, hfind, Or.inl ⟨hneg, rfl, rfl⟩⟩
  · simp only [if_neg hneg] at hpair
    cases hpair
    exact ⟨base, hfind, Or.inr ⟨base.toNat, by omega, rfl, rfl⟩⟩

/-- A set bit stops the downward scan: it reads no bits below that one, and it moves the cursor
by no more than the distance to it. -/
theorem bmCurrentLoop_spec {low : ℕ} (hset : bitmap.bit low = true) {start n : ℕ}
    (hlow : low ≤ start) (hstart : start < 2 ^ 31)
    (hloop : bmCurrentLoop bitmap fuel count start = some (n, reads)) :
    count ≤ n ∧ n + low ≤ count + start ∧ ∀ i ∈ reads, 0 ≤ i ∧ i ≤ start := by
  induction fuel generalizing count start reads with
  | zero => simp [bmCurrentLoop] at hloop
  | succ fuel ih =>
    rw [bmCurrentLoop, readBit_natCast _ hstart] at hloop
    split_ifs at hloop with hbit
    · have hne : start ≠ low := by
        rintro rfl
        simp [hset] at hbit
      obtain ⟨below, rfl⟩ : ∃ below, start = below + 1 := ⟨start - 1, by omega⟩
      obtain ⟨⟨n', rest⟩, hrest, hpair⟩ := map_eq_some_iff.mp hloop
      obtain ⟨rfl, rfl⟩ := Prod.mk.inj hpair
      have hcast : ((below + 1 : ℕ) : ℤ) - 1 = (below : ℕ) := by omega
      rw [hcast] at hrest
      obtain ⟨hlo, hhi, hreads⟩ := ih (by omega) (by omega) hrest
      refine ⟨by omega, by omega, ?_⟩
      intro i hi
      rcases List.mem_cons.mp hi with rfl | hi
      · omega
      · have := hreads i hi
        omega
    · cases hloop
      refine ⟨le_rfl, by omega, ?_⟩
      intro i hi
      have : i = start := by simpa using hi
      omega

/-- With a set bit below it the downward scan ends. -/
theorem bmCurrentLoop_returns {low : ℕ} (hset : bitmap.bit low = true) {start : ℕ}
    (hlow : low ≤ start) (hstart : start < 2 ^ 31) (hfuel : start < fuel + low) (count : ℕ) :
    ∃ result, bmCurrentLoop bitmap fuel count start = some result := by
  induction fuel generalizing count start with
  | zero => omega
  | succ fuel ih =>
    rw [bmCurrentLoop, readBit_natCast _ hstart]
    split_ifs with hbit
    · have hne : start ≠ low := by
        rintro rfl
        simp [hset] at hbit
      obtain ⟨below, rfl⟩ : ∃ below, start = below + 1 := ⟨start - 1, by omega⟩
      have hcast : ((below + 1 : ℕ) : ℤ) - 1 = (below : ℕ) := by omega
      obtain ⟨result, hresult⟩ :=
        ih (by omega : low ≤ below) (by omega) (by omega) (count + 1)
      exact ⟨_, by rw [hcast, hresult]; rfl⟩
    · exact ⟨_, rfl⟩

/-- Some page below the cursor is in use, if there are pages below it. -/
def MmSection.UsedBelow (s : MmSection) : Prop :=
  s.bmCurrent ≠ 0 → ∃ low < s.bmCurrent, s.bitmap.bit low = true

/-- This can be computed. -/
instance (s : MmSection) : Decidable s.UsedBelow := inferInstanceAs (Decidable (_ → _))

/-- `update_bm_current` on a section with a page in use below the cursor: the cursor does not
move up, and only bits below it are read. -/
theorem updateBmCurrent_spec (hused : s.UsedBelow) (hcur : s.bmCurrent < 2 ^ 31)
    (hret : updateBmCurrent fuel s = some (s', reads)) :
    (∃ cur ≤ s.bmCurrent, s' = { s with bmCurrent := cur }) ∧
      ∀ i ∈ reads, 0 ≤ i ∧ i < s.bmCurrent := by
  unfold updateBmCurrent at hret
  split_ifs at hret with hcur0
  · cases hret
    exact ⟨⟨s.bmCurrent, le_rfl, rfl⟩, by simp⟩
  · obtain ⟨low, hlow, hset⟩ := hused hcur0
    obtain ⟨⟨n, reads'⟩, hloop, hpair⟩ := map_eq_some_iff.mp hret
    obtain ⟨rfl, rfl⟩ := Prod.mk.inj hpair
    have hcast : (s.bmCurrent : ℤ) - 1 = ((s.bmCurrent - 1 : ℕ) : ℤ) := by omega
    simp only [hcast] at hloop
    obtain ⟨_, hn, hreads⟩ := bmCurrentLoop_spec hset (by omega) (by omega) hloop
    refine ⟨⟨_, ?_, rfl⟩, ?_⟩
    · omega
    · intro i hi
      have := hreads i hi
      omega

/-- The downward scan reads the bit at which it starts, and goes on below a clear one. -/
theorem bmCurrentLoop_reads {start : ℤ} {n : ℕ}
    (hloop : bmCurrentLoop bitmap fuel count start = some (n, reads)) :
    start ∈ reads ∧ (readBit bitmap start = 0 → ∃ fuel' rest,
      bmCurrentLoop bitmap fuel' (count + 1) (start - 1) = some (n, rest) ∧ rest ⊆ reads) := by
  cases fuel with
  | zero => simp [bmCurrentLoop] at hloop
  | succ fuel =>
    rw [bmCurrentLoop] at hloop
    split_ifs at hloop with hread
    · obtain ⟨⟨n', rest⟩, hrest, hpair⟩ := map_eq_some_iff.mp hloop
      cases hpair
      exact ⟨List.mem_cons_self, fun _ => ⟨fuel, rest, hrest, List.subset_cons_self _ _⟩⟩
    · cases hloop
      exact ⟨List.mem_cons_self, fun h => absurd h hread⟩

/-- Without a set bit below it, the downward scan goes on past the first bit. -/
theorem neg_one_mem_of_bmCurrentLoop {start n : ℕ}
    (hclear : ∀ low ≤ start, bitmap.bit low = false) (hstart : start < 2 ^ 31)
    (hloop : bmCurrentLoop bitmap fuel count start = some (n, reads)) : -1 ∈ reads := by
  obtain ⟨fuel', rest, hrest, hsub⟩ := (bmCurrentLoop_reads hloop).2
    ((readBit_eq_zero_iff hstart).mpr (hclear start le_rfl))
  induction start generalizing fuel fuel' count reads rest with
  | zero => exact hsub (bmCurrentLoop_reads hrest).1
  | succ start ih =>
    have hcast : ((start + 1 : ℕ) : ℤ) - 1 = (start : ℕ) := by omega
    rw [hcast] at hrest
    obtain ⟨fuel'', rest', hrest', hsub'⟩ := (bmCurrentLoop_reads hrest).2
      ((readBit_eq_zero_iff (by omega)).mpr (hclear start (by omega)))
    exact hsub (ih (fun low hlow => hclear low (by omega)) (by omega) hrest _ _ hrest' hsub')

/-- `update_bm_current` reads no bit in front of the section just if a page below the cursor is in
use. -/
theorem updateBmCurrent_reads_iff {s s' : MmSection} (hcur : s.bmCurrent < 2 ^ 31)
    (hret : updateBmCurrent fuel s = some (s', reads)) : (∀ i ∈ reads, 0 ≤ i) ↔ s.UsedBelow := by
  constructor
  · intro hreads hcur0
    by_contra hnone
    have hclear : ∀ low ≤ s.bmCurrent - 1, s.bitmap.bit low = false := by
      intro low hlow
      by_contra hset
      exact hnone ⟨low, by omega, by simpa using hset⟩
    unfold updateBmCurrent at hret
    rw [if_neg hcur0] at hret
    obtain ⟨⟨n, reads'⟩, hloop, hpair⟩ := map_eq_some_iff.mp hret
    obtain ⟨rfl, rfl⟩ := Prod.mk.inj hpair
    have hcast : (s.bmCurrent : ℤ) - 1 = ((s.bmCurrent - 1 : ℕ) : ℤ) := by omega
    simp only [hcast] at hloop
    have hneg := hreads (-1) (neg_one_mem_of_bmCurrentLoop hclear (by omega) hloop)
    omega
  · intro hused i hi
    exact ((updateBmCurrent_spec hused hcur hret).2 i hi).1

/-- `update_bm_current` ends when there is a page in use below the cursor. -/
theorem updateBmCurrent_returns (hused : s.UsedBelow) (hcur : s.bmCurrent < 2 ^ 31)
    (hfuel : s.bmCurrent ≤ fuel) : ∃ result, updateBmCurrent fuel s = some result := by
  unfold updateBmCurrent
  split_ifs with hcur0
  · exact ⟨_, rfl⟩
  · obtain ⟨low, hlow, hset⟩ := hused hcur0
    have hcast : (s.bmCurrent : ℤ) - 1 = ((s.bmCurrent - 1 : ℕ) : ℤ) := by omega
    obtain ⟨result, hresult⟩ := bmCurrentLoop_returns hset
      (by omega : low ≤ s.bmCurrent - 1) (by omega) (by omega : s.bmCurrent - 1 < fuel + low) 0
    exact ⟨_, by simp only [hcast, hresult]; rfl⟩

/-- The section when the bits of a run have been cleared. -/
def MmSection.cleared (s : MmSection) (page : ℕ) : MmSection :=
  { s with bitmap := updateMemoryBitmap s.bitmap page (s.pageTable page).count false }

/-- `__free_pages` clears the bits of the run, whatever `update_bm_current` does to the cursor. -/
theorem sectionFreePages_cleared {page : ℕ}
    (hret : sectionFreePages fuel s page = some (s', reads)) :
    ∃ cur, s' = { s.cleared page with bmCurrent := cur } := by
  simp only [sectionFreePages, updateBmCurrent] at hret
  split_ifs at hret with hzero
  · cases hret
    exact ⟨_, rfl⟩
  · obtain ⟨⟨n, reads'⟩, -, hpair⟩ := map_eq_some_iff.mp hret
    cases hpair
    exact ⟨_, rfl⟩

/-- `__free_pages` clears the bits of the run and moves the cursor down, when some page below the
cursor stays in use. -/
theorem sectionFreePages_spec {page : ℕ} (hused : (s.cleared page).UsedBelow)
    (hcur : s.bmCurrent < 2 ^ 31) (hret : sectionFreePages fuel s page = some (s', reads)) :
    (∃ cur ≤ s.bmCurrent, s' = { s.cleared page with bmCurrent := cur }) ∧
      ∀ i ∈ reads, 0 ≤ i ∧ i < s.bmCurrent :=
  updateBmCurrent_spec hused hcur hret

theorem sectionFreePages_returns {page : ℕ} (hused : (s.cleared page).UsedBelow)
    (hcur : s.bmCurrent < 2 ^ 31) (hfuel : s.bmCurrent ≤ fuel) :
    ∃ result, sectionFreePages fuel s page = some result :=
  updateBmCurrent_returns hused hcur hfuel

/-- `__free_pages` ends without a look in front of the section just if some page below the cursor
stays in use. -/
theorem sectionFreePages_ends_iff {page : ℕ} (hcur : s.bmCurrent < 2 ^ 31) :
    (∃ fuel s' reads, sectionFreePages fuel s page = some (s', reads) ∧ ∀ i ∈ reads, 0 ≤ i) ↔
      (s.cleared page).UsedBelow := by
  have hcur' : (s.cleared page).bmCurrent < 2 ^ 31 := hcur
  constructor
  · rintro ⟨fuel, s', reads, hfree, hreads⟩
    exact (updateBmCurrent_reads_iff hcur' hfree).mp hreads
  · intro hused
    obtain ⟨⟨s', reads⟩, hfree⟩ := sectionFreePages_returns hused hcur le_rfl
    exact ⟨_, s', reads, hfree, (updateBmCurrent_reads_iff hcur' hfree).mpr hused⟩

end Chunos
