import Chunos.Mm.Slab

/-!
# The memory of an ELF program

`__parse_elf_info` collects the sections of a program that take up memory, and computes the
range of pages for them: its base from the address of the first section, and its size as the
sum of the sizes of all sections. The gaps between the sections are not counted, so the range
has all sections only when the rounding to whole pages makes up for them.
-/

namespace Chunos.Elf

open List

open Slabs (pageNr)

/-- `SHF_ALLOC`. -/
def shfAlloc : BitVec 32 := 0x2

/-- `SHT_NOBITS`. -/
def shtNobits : BitVec 16 := 8

/-- `PAGE_SIZE` as a word. -/
def pageWord : BitVec 32 := BitVec.ofNat 32 (2 ^ 12)

/-- `elf_section_header`, with the fields that the kernel reads. -/
structure SectionHeader where
  shType : BitVec 32
  shFlags : BitVec 32
  shAddr : BitVec 32
  shOffset : BitVec 32
  shSize : BitVec 32

/-- `struct elf_section`. -/
structure ElfSection where
  offset : BitVec 32
  size : BitVec 32
  loadAddr : BitVec 32
  flag : BitVec 16
  type : BitVec 16

/-- `struct elf_file`, with the fields that `__parse_elf_info` fills. `elf_size` is an `int`. -/
structure ElfFile where
  elfSize : BitVec 32
  sections : List ElfSection
  elfBase : BitVec 32

/-- The section takes up memory when the program runs. -/
def SectionHeader.isAlloc (header : SectionHeader) : Bool := header.shFlags &&& shfAlloc ≠ 0

/-- The entry for a section. The type and the flags are cut to 16 bits. -/
def SectionHeader.toSection (header : SectionHeader) : ElfSection where
  offset := header.shOffset
  size := header.shSize
  loadAddr := header.shAddr
  flag := header.shFlags.setWidth 16
  type := header.shType.setWidth 16

/-- The loop body of `__parse_elf_info`. -/
def parseHeader (efile : ElfFile) (header : SectionHeader) : ElfFile :=
  if header.isAlloc then
    let efile :=
      if efile.elfBase = 0 then
        { efile with
          elfBase := minAlign header.shAddr pageWord
          elfSize := efile.elfSize + (header.shAddr - minAlign header.shAddr pageWord) }
      else efile
    { efile with
      sections := efile.sections ++ [header.toSection]
      elfSize := efile.elfSize + header.shSize }
  else efile

/-- `__parse_elf_info` on a zeroed `struct elf_file`. -/
def parseElfInfo (headers : List SectionHeader) : ElfFile :=
  headers.foldl parseHeader { elfSize := 0, sections := [], elfBase := 0 }

/-- The file of a program: the values of `kernel_seek` and `kernel_read`, and the number of
bytes that a read stores. -/
structure Reader (σ : Type*) where
  seek : BitVec 32 → σ → ℤ × σ
  read : BitVec 32 → σ → ℤ × ℕ × σ

/-- The file is not already at the contents of the section: it was not read before, or the
section does not follow the one in front of it. -/
def reSeek (prev : Option ElfSection) (section' : ElfSection) : Bool :=
  match prev with
  | none => true
  | some pre => pre.loadAddr + pre.size ≠ section'.loadAddr

/-- The loop of `elf_load_elf_image`: the value returned, and the address and the length of
each range that is written. -/
def elfLoadElfImage {σ : Type*} (file : Reader σ) :
    List ElfSection → Option ElfSection → σ → ℤ × List (ℕ × ℕ)
  | [], _, _ => (0, [])
  | section' :: rest, prev, s =>
    if section'.type &&& shtNobits ≠ 0 then
      let image := elfLoadElfImage file rest none s
      (image.1, (section'.loadAddr.toNat, section'.size.toNat) :: image.2)
    else
      let sought := if reSeek prev section' then file.seek section'.offset s else (0, s)
      if sought.1 < 0 then (-eio, [])
      else
        let got := file.read section'.size sought.2
        let write := (section'.loadAddr.toNat, got.2.1)
        if BitVec.ofInt 32 got.1 ≠ section'.size then (-eio, [write])
        else
          let image := elfLoadElfImage file rest (some section') got.2.2
          (image.1, write :: image.2)

/-- The addresses behind the pages that `task_mm_load_elf_image` maps for the program:
`page_nr(elf_size)` pages from the base on. -/
def ElfFile.mappedEnd (efile : ElfFile) : ℤ :=
  efile.elfBase.toNat + pageNr efile.elfSize.toInt * pageSize

/-- The page-rounded range of the program. -/
def ElfFile.InRange (efile : ElfFile) (addr : ℕ) : Prop :=
  efile.elfBase.toNat ≤ addr ∧
    (addr : ℤ) < efile.elfBase.toNat + (align efile.elfSize pageWord).toInt

/-- The address belongs to the section. -/
def SectionHeader.Has (header : SectionHeader) (addr : ℕ) : Prop :=
  header.shAddr.toNat ≤ addr ∧ addr < header.shAddr.toNat + header.shSize.toNat

/-- The sections are in ascending order, do not overlap and do not pass the end of the address
space. -/
structure Ascending (sections : List SectionHeader) : Prop where
  ordered : sections.Pairwise fun s t => s.shAddr.toNat + s.shSize.toNat ≤ t.shAddr.toNat
  inside : ∀ s ∈ sections, s.shAddr.toNat + s.shSize.toNat ≤ 2 ^ 32

/-- The section starts in page 0. Such a section leaves `elf_base` at 0, which is taken for a
base that has not been set yet. -/
def SectionHeader.inPageZero (header : SectionHeader) : Bool := header.shAddr.toNat < pageSize

/-- The sum of the sizes. -/
def sizes (sections : List SectionHeader) : ℕ := (sections.map fun s => s.shSize.toNat).sum

/-- The sum of the ends. -/
def ends (sections : List SectionHeader) : ℕ :=
  (sections.map fun s => s.shAddr.toNat + s.shSize.toNat).sum

/-- A size rounded up to whole pages, as an `int`. -/
def alignedSize (n : ℕ) : ℤ := (align (BitVec.ofNat 32 n) pageWord).toInt

/-- Every section that is not empty ends within the size that is computed. When no section
starts in page 0, this size is the sum of all sizes, with the place of the first section in its
page, rounded up. In front of other sections, those that start in page 0 have to be empty. -/
def Loadable (sections : List SectionHeader) : Prop :=
  match sections.dropWhile SectionHeader.inPageZero with
  | [] => ∀ s ∈ sections, s.shSize.toNat ≠ 0 →
      ((s.shAddr.toNat + s.shSize.toNat : ℕ) : ℤ) ≤ alignedSize (ends sections)
  | first :: rest =>
    (∀ s ∈ sections.takeWhile SectionHeader.inPageZero, s.shSize.toNat = 0) ∧
      ∀ s ∈ first :: rest, s.shSize.toNat ≠ 0 →
        ((s.shAddr.toNat + s.shSize.toNat : ℕ) : ℤ) ≤
          (first.shAddr.toNat / pageSize * pageSize : ℕ) +
            alignedSize (ends (sections.takeWhile SectionHeader.inPageZero) +
              (first.shAddr.toNat % pageSize + sizes (first :: rest)))

theorem foldl_parseHeader_filter (headers : List SectionHeader) (efile : ElfFile) :
    headers.foldl parseHeader efile =
      (headers.filter SectionHeader.isAlloc).foldl parseHeader efile := by
  induction headers generalizing efile with
  | nil => rfl
  | cons header headers ih =>
    by_cases halloc : header.isAlloc
    · rw [filter_cons_of_pos halloc, foldl_cons, foldl_cons, ih]
    · rw [filter_cons_of_neg halloc, foldl_cons, ih]
      simp only [parseHeader, halloc, Bool.false_eq_true, if_false]

theorem toNat_minAlign_pageWord (addr : BitVec 32) :
    (minAlign addr pageWord).toNat = addr.toNat / pageSize * pageSize :=
  toNat_minAlign_two_pow (by decide) addr

theorem minAlign_eq_zero_iff (header : SectionHeader) :
    minAlign header.shAddr pageWord = 0 ↔ header.inPageZero = true := by
  rw [← BitVec.toNat_inj, toNat_minAlign_pageWord, SectionHeader.inPageZero, decide_eq_true_iff]
  simp only [pageSize, BitVec.ofNat_eq_ofNat, BitVec.toNat_ofNat]
  omega

variable {efile : ElfFile} {sections : List SectionHeader}

theorem parseHeader_based {header : SectionHeader} (halloc : header.isAlloc)
    (hbase : efile.elfBase ≠ 0) :
    parseHeader efile header =
      { elfSize := efile.elfSize + header.shSize
        sections := efile.sections ++ [header.toSection]
        elfBase := efile.elfBase } := by
  simp only [parseHeader, halloc, if_true, hbase, if_false]

/-- One section before the base has been set. -/
theorem parseHeader_first {header : SectionHeader} (halloc : header.isAlloc)
    (hbase : efile.elfBase = 0) :
    parseHeader efile header =
      { elfSize := efile.elfSize +
          BitVec.ofNat 32 (header.shAddr.toNat % pageSize + header.shSize.toNat)
        sections := efile.sections ++ [header.toSection]
        elfBase := minAlign header.shAddr pageWord } := by
  have hoffset : header.shAddr - minAlign header.shAddr pageWord =
      BitVec.ofNat 32 (header.shAddr.toNat % pageSize) := by
    apply BitVec.eq_of_toNat_eq
    rw [BitVec.toNat_sub, toNat_minAlign_pageWord, BitVec.toNat_ofNat]
    have hlt := header.shAddr.isLt
    simp only [pageSize] at *
    omega
  simp only [parseHeader, halloc, if_true, hbase, hoffset, ElfFile.mk.injEq, and_true]
  rw [BitVec.ofNat_add, BitVec.ofNat_toNat, BitVec.setWidth_eq, BitVec.add_assoc]

theorem foldl_parseHeader_based (halloc : ∀ s ∈ sections, s.isAlloc) (hbase : efile.elfBase ≠ 0) :
    sections.foldl parseHeader efile =
      { elfSize := efile.elfSize + BitVec.ofNat 32 (sizes sections)
        sections := efile.sections ++ sections.map SectionHeader.toSection
        elfBase := efile.elfBase } := by
  induction sections generalizing efile with
  | nil => simp [sizes]
  | cons header sections ih =>
    have hhead := halloc header mem_cons_self
    have htail : ∀ s ∈ sections, s.isAlloc := fun s hs => halloc s (mem_cons_of_mem _ hs)
    rw [foldl_cons, parseHeader_based hhead hbase, ih htail]
    · simp [sizes, BitVec.ofNat_add, BitVec.add_assoc]
    · exact hbase

/-- The sections that start in page 0 leave the base at 0, and each adds its end. -/
theorem foldl_parseHeader_zero (halloc : ∀ s ∈ sections, s.isAlloc)
    (hzero : ∀ s ∈ sections, s.inPageZero) (hbase : efile.elfBase = 0) :
    sections.foldl parseHeader efile =
      { elfSize := efile.elfSize + BitVec.ofNat 32 (ends sections)
        sections := efile.sections ++ sections.map SectionHeader.toSection
        elfBase := 0 } := by
  induction sections generalizing efile with
  | nil => simp [ends, hbase.symm]
  | cons header sections ih =>
    have hhead := halloc header mem_cons_self
    have hpage := hzero header mem_cons_self
    have htail : ∀ s ∈ sections, s.isAlloc := fun s hs => halloc s (mem_cons_of_mem _ hs)
    have hpages : ∀ s ∈ sections, s.inPageZero := fun s hs => hzero s (mem_cons_of_mem _ hs)
    have hmod : header.shAddr.toNat % pageSize = header.shAddr.toNat :=
      Nat.mod_eq_of_lt (of_decide_eq_true hpage)
    rw [foldl_cons, parseHeader_first hhead hbase,
      ih htail hpages ((minAlign_eq_zero_iff header).mpr hpage), hmod]
    simp [ends, BitVec.ofNat_add, BitVec.add_assoc]

/-- A range of addresses lies between two bounds when it is empty or its first and its last
address do. -/
theorem SectionHeader.forall_has_iff (header : SectionHeader) (low : ℕ) (high : ℤ) :
    (∀ addr, header.Has addr → low ≤ addr ∧ (addr : ℤ) < high) ↔
      (header.shSize.toNat ≠ 0 → low ≤ header.shAddr.toNat ∧
        ((header.shAddr.toNat + header.shSize.toNat : ℕ) : ℤ) ≤ high) := by
  constructor
  · intro h hsize
    have hfirst := h header.shAddr.toNat ⟨le_rfl, by omega⟩
    have hlast := h (header.shAddr.toNat + header.shSize.toNat - 1) ⟨by omega, by omega⟩
    refine ⟨hfirst.1, ?_⟩
    omega
  · intro h addr ⟨hlow, hhigh⟩
    have hbounds := h (by omega)
    omega

theorem not_inPageZero_of_dropWhile {rest : List SectionHeader} {first : SectionHeader}
    (hfirst : sections.dropWhile SectionHeader.inPageZero = first :: rest) :
    ¬ first.inPageZero := by
  have hne : sections.dropWhile SectionHeader.inPageZero ≠ [] := by simp [hfirst]
  have hhead := head_dropWhile_not SectionHeader.inPageZero hne
  simpa [hfirst] using hhead

/-- What `__parse_elf_info` computes when `first` is the first section that does not start in
page 0. -/
theorem parse_of_first {rest : List SectionHeader} {first : SectionHeader}
    (halloc : ∀ s ∈ sections, s.isAlloc)
    (hfirst : sections.dropWhile SectionHeader.inPageZero = first :: rest) :
    (sections.foldl parseHeader ⟨0, [], 0⟩).elfBase = minAlign first.shAddr pageWord ∧
      (sections.foldl parseHeader ⟨0, [], 0⟩).elfSize =
        BitVec.ofNat 32 (ends (sections.takeWhile SectionHeader.inPageZero) +
          (first.shAddr.toNat % pageSize + sizes (first :: rest))) := by
  set lead := sections.takeWhile SectionHeader.inPageZero with hlead
  have hsplit : sections = lead ++ first :: rest := by
    rw [hlead, ← hfirst, takeWhile_append_dropWhile]
  have hpage : ¬ first.inPageZero := not_inPageZero_of_dropWhile hfirst
  have hleadAlloc : ∀ s ∈ lead, s.isAlloc := fun s hs => halloc s (by simp [hsplit, hs])
  have hrestAlloc : ∀ s ∈ rest, s.isAlloc := fun s hs => halloc s (by simp [hsplit, hs])
  have hleadZero : ∀ s ∈ lead, s.inPageZero := fun s hs => mem_takeWhile_imp hs
  have hbase : minAlign first.shAddr pageWord ≠ 0 := fun h0 =>
    hpage ((minAlign_eq_zero_iff first).mp h0)
  rw [hsplit, foldl_append, foldl_parseHeader_zero hleadAlloc hleadZero rfl, foldl_cons,
    parseHeader_first (halloc first (by simp [hsplit])) rfl, foldl_parseHeader_based hrestAlloc]
  · refine ⟨rfl, ?_⟩
    simp [sizes, BitVec.ofNat_add, BitVec.add_assoc]
  · exact hbase

/-- The entries that `__parse_elf_info` fills. -/
theorem foldl_parseHeader_sections (halloc : ∀ s ∈ sections, s.isAlloc) (efile : ElfFile) :
    (sections.foldl parseHeader efile).sections =
      efile.sections ++ sections.map SectionHeader.toSection := by
  induction sections generalizing efile with
  | nil => simp
  | cons header sections ih =>
    have hhead := halloc header mem_cons_self
    have hadd : (parseHeader efile header).sections = efile.sections ++ [header.toSection] := by
      by_cases hbase : efile.elfBase = 0
      · rw [parseHeader_first hhead hbase]
      · rw [parseHeader_based hhead hbase]
    rw [foldl_cons, ih (fun s hs => halloc s (mem_cons_of_mem _ hs)), hadd,
      append_assoc, map_cons, singleton_append]

/-- Every range that `elf_load_elf_image` writes is in a section, when a read stores at most as
many bytes as are asked for. -/
theorem elfLoadElfImage_writes {σ : Type*} {file : Reader σ}
    (hfile : ∀ size s, (file.read size s).2.1 ≤ size.toNat) (sections : List ElfSection)
    (prev : Option ElfSection) (s : σ) :
    ∀ w ∈ (elfLoadElfImage file sections prev s).2, ∃ section' ∈ sections,
      w.1 = section'.loadAddr.toNat ∧ w.2 ≤ section'.size.toNat := by
  induction sections generalizing prev s with
  | nil => simp [elfLoadElfImage]
  | cons section' rest ih =>
    have hlater : ∀ prev s, ∀ w ∈ (elfLoadElfImage file rest prev s).2,
        ∃ t ∈ section' :: rest, w.1 = t.loadAddr.toNat ∧ w.2 ≤ t.size.toNat := by
      intro prev s w hw
      obtain ⟨t, ht, hrange⟩ := ih prev s w hw
      exact ⟨t, mem_cons_of_mem _ ht, hrange⟩
    simp only [elfLoadElfImage]
    generalize (if reSeek prev section' then file.seek section'.offset s else (0, s)) = sought
    have hread := hfile section'.size sought.2
    split_ifs
    · rintro w (_ | ⟨_, hw⟩)
      · exact ⟨section', mem_cons_self, rfl, le_rfl⟩
      · exact hlater _ _ w hw
    · simp
    · simp [hread]
    · rintro w (_ | ⟨_, hw⟩)
      · exact ⟨section', mem_cons_self, rfl, hread⟩
      · exact hlater _ _ w hw

/-- The pages of an `int` size are those that the rounded size has. -/
theorem pageNr_mul_pageSize (size : BitVec 32) :
    pageNr size.toInt * pageSize = (align size pageWord).toInt := by
  have hnat : (align size pageWord).toNat = (size + (pageWord - 1)).toNat / pageSize * pageSize :=
    toNat_minAlign_two_pow (by decide) _
  have hdvd : (pageSize : ℤ) ∣ (align size pageWord).toInt := by
    rw [BitVec.toInt_eq_toNat_cond, hnat]
    simp only [pageSize]
    split_ifs <;> omega
  unfold pageNr
  rw [BitVec.ofInt_toInt, BitVec.toInt_sshiftRight, Int.shiftRight_eq_div_pow]
  exact Int.ediv_mul_cancel hdvd

/-- The range that `__parse_elf_info` computes has every address of every section that takes
up memory exactly when the sections are loadable. -/
theorem covers_iff (hascending : Ascending sections) (halloc : ∀ s ∈ sections, s.isAlloc) :
    (∀ s ∈ sections, ∀ addr, s.Has addr →
      (sections.foldl parseHeader ⟨0, [], 0⟩).InRange addr) ↔ Loadable sections := by
  simp only [ElfFile.InRange, SectionHeader.forall_has_iff]
  unfold Loadable
  cases hrest : sections.dropWhile SectionHeader.inPageZero with
  | nil =>
    rw [foldl_parseHeader_zero halloc (dropWhile_eq_nil_iff.mp hrest) rfl]
    simp [alignedSize]
  | cons first rest =>
    obtain ⟨hbase, hsize⟩ := parse_of_first halloc hrest
    have hpage := not_inPageZero_of_dropWhile hrest
    have hsplit := takeWhile_append_dropWhile (p := SectionHeader.inPageZero) (l := sections)
    rw [hrest] at hsplit
    rw [hbase, hsize, toNat_minAlign_pageWord]
    rw [SectionHeader.inPageZero, decide_eq_true_iff] at hpage
    simp only [pageSize] at hpage ⊢
    constructor
    · intro h
      refine ⟨fun s hs => ?_, fun s hs hne => ?_⟩
      · by_contra hne
        have hlow := (h s (hsplit ▸ mem_append_left _ hs) hne).1
        have hzero : s.inPageZero := mem_takeWhile_imp hs
        rw [SectionHeader.inPageZero, decide_eq_true_iff] at hzero
        simp only [pageSize] at hzero
        omega
      · exact (h s (hsplit ▸ mem_append_right _ hs) hne).2
    · rintro ⟨hlead, hends⟩ s hs hne
      rw [← hsplit, mem_append] at hs
      rcases hs with hs | hs
      · exact absurd (hlead s hs) hne
      · refine ⟨?_, hends s hs hne⟩
        have hordered := hascending.ordered
        rw [← hsplit] at hordered
        have htail := (pairwise_append.mp hordered).2.1
        rcases mem_cons.mp hs with rfl | hs
        · omega
        · have hle := rel_of_pairwise_cons htail hs
          omega

/-- The range that `__parse_elf_info` computes has every address of every section that takes
up memory exactly when the sections are loadable. Then the pages that are mapped for the
program have every address that `elf_load_elf_image` writes, whatever the file gives. -/
theorem parseElfInfo_covers_iff (headers : List SectionHeader)
    (hascending : Ascending (headers.filter SectionHeader.isAlloc)) :
    ((∀ s ∈ headers.filter SectionHeader.isAlloc, ∀ addr, s.Has addr →
        (parseElfInfo headers).InRange addr) ↔
      Loadable (headers.filter SectionHeader.isAlloc)) ∧
    (Loadable (headers.filter SectionHeader.isAlloc) → ∀ (σ : Type) (file : Reader σ) (s : σ),
      (∀ size s, (file.read size s).2.1 ≤ size.toNat) →
        ∀ w ∈ (elfLoadElfImage file (parseElfInfo headers).sections none s).2, ∀ addr,
          w.1 ≤ addr → addr < w.1 + w.2 → (parseElfInfo headers).elfBase.toNat ≤ addr ∧
            (addr : ℤ) < (parseElfInfo headers).mappedEnd) := by
  have halloc : ∀ s ∈ headers.filter SectionHeader.isAlloc, s.isAlloc := fun s hs =>
    (mem_filter.mp hs).2
  have hcovers := covers_iff hascending halloc
  rw [← foldl_parseHeader_filter] at hcovers
  refine ⟨hcovers, fun hloadable σ file s hfile w hw addr hlow hhigh => ?_⟩
  have hsections : (parseElfInfo headers).sections =
      (headers.filter SectionHeader.isAlloc).map SectionHeader.toSection := by
    rw [parseElfInfo, foldl_parseHeader_filter, foldl_parseHeader_sections halloc, nil_append]
  obtain ⟨section', hmem, haddr, hsize⟩ := elfLoadElfImage_writes hfile _ none s w hw
  rw [hsections] at hmem
  obtain ⟨header, hheader, rfl⟩ := List.mem_map.mp hmem
  have hhas : header.Has addr := by
    rw [haddr] at hlow hhigh
    exact ⟨hlow, hhigh.trans_le (Nat.add_le_add_left hsize _)⟩
  rw [ElfFile.mappedEnd, pageNr_mul_pageSize]
  exact hcovers.mpr hloadable header hheader addr hhas

/-- A section with contents that takes up memory. -/
def progbits (addr size : BitVec 32) : SectionHeader :=
  { shType := 1, shFlags := 2, shAddr := addr, shOffset := 0x1000, shSize := size }

/-- Code and data that follow each other directly are in the range. -/
theorem parseElfInfo_covers_iff_adjacent :
    Ascending [progbits 0x404000 0x1800, progbits 0x405800 0x20] ∧
    ∀ s ∈ [progbits 0x404000 0x1800, progbits 0x405800 0x20], ∀ addr, s.Has addr →
      (parseElfInfo [progbits 0x404000 0x1800, progbits 0x405800 0x20]).InRange addr := by
  have hfilter : [progbits 0x404000 0x1800, progbits 0x405800 0x20].filter
      SectionHeader.isAlloc = [progbits 0x404000 0x1800, progbits 0x405800 0x20] := rfl
  have hascending : Ascending [progbits 0x404000 0x1800, progbits 0x405800 0x20] :=
    ⟨by decide, by decide⟩
  have hiff := (parseElfInfo_covers_iff [progbits 0x404000 0x1800, progbits 0x405800 0x20]
    (hfilter ▸ hascending)).1
  rw [hfilter] at hiff
  exact ⟨hascending, hiff.mpr ⟨by decide, by decide⟩⟩

/-- Data in a page behind that of the code is outside of the range, which has one page. -/
theorem parseElfInfo_misses_data : let headers := [progbits 0x404000 0x10, progbits 0x406000 0x10]
    Ascending headers ∧ (progbits 0x406000 0x10).Has 0x406000 ∧
      (parseElfInfo headers).elfBase = 0x404000 ∧ (parseElfInfo headers).elfSize = 0x20 ∧
      ¬ (parseElfInfo headers).InRange 0x406000 := by
  refine ⟨⟨by decide, by decide⟩, by unfold SectionHeader.Has; decide, rfl, rfl, ?_⟩
  unfold ElfFile.InRange
  decide

end Chunos.Elf
