import Chunos.Mm.BankPartition

/-!
# The boot page directory

`do_map_kernel_memory` enters the windows of the sections into the boot page directory.
`build_kernel_pde_entry` refuses sizes that are no multiples of 4 MB, and nobody looks at its
result. A window that does not start with a slot would need one entry more than it gets.
-/

namespace Chunos.Bank

open Listwise List
open Pgt (kernelVirtualBase)

section Entries

variable {pa va : ℕ} {pde : ℕ → ℕ}

theorem buildPdeEntry_eq (hpa : 2 ^ 22 ∣ pa) (dma : Bool) :
    buildPdeEntry pa dma = pa + (0x83 + if dma then 0x10 else 0) := by
  obtain ⟨n, rfl⟩ := hpa
  have hflags : (0x83 ||| if dma then 0x10 else 0 : ℕ) = 0x83 + if dma then 0x10 else 0 := by
    cases dma <;> rfl
  rw [buildPdeEntry, Nat.or_assoc, hflags, Nat.two_pow_add_eq_or_of_lt (by cases dma <;> norm_num)]

theorem translate_of_entry {dma : Bool} (hpa : 2 ^ 22 ∣ pa)
    (hentry : pde (va / 2 ^ 22) = buildPdeEntry pa dma) :
    translate pde va = some (pa + va % 2 ^ 22) := by
  have hpresent : (buildPdeEntry pa dma).testBit 0 ∧ (buildPdeEntry pa dma).testBit 7 := by
    simp only [buildPdeEntry, Nat.testBit_or]
    cases dma <;> simp [Nat.testBit]
  have hframe : buildPdeEntry pa dma / 2 ^ 22 * 2 ^ 22 = pa := by
    rw [buildPdeEntry_eq hpa]
    cases dma <;> simp only [Bool.false_eq_true, if_false, if_true] <;> omega
  rw [translate, pdeAlignSize, hentry, if_pos hpresent, hframe]

theorem translate_of_zero (hentry : pde (va / 2 ^ 22) = 0) : translate pde va = none := by
  rw [translate, pdeAlignSize, hentry]
  simp

theorem translate_congr {pde' : ℕ → ℕ} (h : pde (va / 2 ^ 22) = pde' (va / 2 ^ 22)) :
    translate pde va = translate pde' va := by
  rw [translate, translate, pdeAlignSize, h]

/-- The loop of `build_kernel_pde_entry` fills consecutive slots with consecutive frames. -/
theorem buildPdeLoop_apply (dma : Bool) (left slot : ℕ) (hpa : pa < 2 ^ 32) (pde : ℕ → ℕ) (k : ℕ) :
    buildPdeLoop dma left slot pa pde k =
      if slot ≤ k ∧ k < slot + left then buildPdeEntry (u32 (pa + (k - slot) * 2 ^ 22)) dma
      else pde k := by
  induction left generalizing slot pa pde with
  | zero =>
    rw [if_neg (by omega)]
    rfl
  | succ left ih =>
    have hnext : u32 (pa + pdeAlignSize : ℤ) < 2 ^ 32 := by
      rw [u32]
      omega
    rw [buildPdeLoop, ih _ hnext]
    by_cases hk : k = slot
    · subst hk
      rw [if_neg (by omega), if_pos (by omega), Function.update_self, sub_self, zero_mul, add_zero,
        u32_natCast hpa]
    · rw [Function.update_of_ne hk]
      have hiff : (slot + 1 ≤ k ∧ k < slot + 1 + left) ↔ (slot ≤ k ∧ k < slot + (left + 1)) := by
        omega
      have hframe : u32 ((u32 (pa + pdeAlignSize : ℤ) : ℤ) + (k - (slot + 1 : ℕ)) * 2 ^ 22) =
          u32 (pa + (k - slot) * 2 ^ 22) := by
        simp only [u32, pdeAlignSize]
        push_cast
        omega
      rw [if_congr hiff (congrArg (buildPdeEntry · dma) hframe) rfl]

end Entries

section Sections

variable {already : ℕ}

/-- The section is taken for the one that `boot.S` has mapped in part. -/
def Section.AtBoot (s : Section) : Prop :=
  s.virStart ≤ kernelVirtualBase ∧ kernelVirtualBase < u32 (s.virStart + s.size)

instance (s : Section) : Decidable s.AtBoot := inferInstanceAs (Decidable (_ ∧ _))

/-- The bytes of a window that are left to `boot.S`. -/
def Section.skip (already : ℕ) (s : Section) : ℕ := if s.AtBoot then already else 0

theorem mapSection_eq (dma : Bool) (pde : ℕ → ℕ) (s : Section) :
    mapSection already dma pde s = if s.mapedSize = 0 then some pde
      else if s.AtBoot then mapBootSection s (wrap32 already) dma pde
      else buildKernelPdeEntry s.virStart s.phyStart s.mapedSize dma pde := rfl

/-- A section with a window that can be entered. -/
structure Section.Enters (already : ℕ) (s : Section) : Prop where
  maped_pos : 0 < s.mapedSize
  end_lt : s.virStart + s.mapedSize < 2 ^ 32
  maped_lt : s.mapedSize < 2 ^ 31
  skip_le : s.skip already ≤ s.mapedSize
  skip_dvd : 2 ^ 22 ∣ s.skip already
  boot : s.AtBoot → s.virStart = kernelVirtualBase

/-- The section gets an entry in this slot. -/
def Section.Writes (already : ℕ) (s : Section) (k : ℕ) : Prop :=
  0 < s.mapedSize ∧ 2 ^ 22 ∣ s.mapedSize ∧ (s.virStart + s.skip already) / 2 ^ 22 ≤ k ∧
    (k : ℤ) < (s.virStart + s.skip already) / 2 ^ 22 + (s.mapedSize - s.skip already) / 2 ^ 22

instance (already : ℕ) (s : Section) (k : ℕ) : Decidable (s.Writes already k) :=
  inferInstanceAs (Decidable (_ ∧ _ ∧ _ ∧ _))

/-- The frame in an entry of a section. -/
def Section.frame (already : ℕ) (s : Section) (k : ℕ) : ℕ :=
  u32 ((u32 (s.phyStart + s.skip already) / 2 ^ 22 * 2 ^ 22 : ℕ) +
    (k - ((s.virStart + s.skip already) / 2 ^ 22 : ℕ)) * 2 ^ 22)

theorem u32_mod_eq_zero_iff (x : ℤ) : u32 x % pdeAlignSize = 0 ↔ 2 ^ 22 ∣ x := by
  rw [u32, pdeAlignSize]
  omega

/-- `build_kernel_pde_entry`, for a size that is not negative. -/
theorem buildKernelPdeEntry_apply {vstart pstart : ℕ} (hv : vstart < 2 ^ 32) (hp : pstart < 2 ^ 32)
    {size : ℤ} (hsize : 0 ≤ size) (dma : Bool) (pde : ℕ → ℕ) :
    ∃ pde', buildKernelPdeEntry vstart pstart size dma pde = some pde' ∧
      ∀ k, pde' k =
        if 2 ^ 22 ∣ size ∧ vstart / 2 ^ 22 ≤ k ∧ (k : ℤ) < vstart / 2 ^ 22 + size / 2 ^ 22 then
          buildPdeEntry
            (u32 ((pstart / 2 ^ 22 * 2 ^ 22 : ℕ) + (k - (vstart / 2 ^ 22 : ℕ)) * 2 ^ 22)) dma
        else pde k := by
  by_cases hdvd : 2 ^ 22 ∣ size
  · refine ⟨_, by rw [buildKernelPdeEntry, if_neg (by rwa [ne_eq, not_not, u32_mod_eq_zero_iff]),
      if_neg (by omega)], fun k => ?_⟩
    rw [pdeMinAlign_eq hv, pdeMinAlign_eq hp, buildPdeLoop_apply _ _ _ (by omega)]
    refine if_congr ?_ ?_ rfl
    · simp only [pdeAlignSize]
      omega
    · simp only [pdeAlignSize]
      rw [Nat.mul_div_cancel _ (by norm_num)]
  · refine ⟨pde, by rw [buildKernelPdeEntry, if_pos (mt (u32_mod_eq_zero_iff size).mp hdvd)],
      fun k => ?_⟩
    rw [if_neg fun h => hdvd h.1]

variable {s : Section}

/-- Entering a window fills its slots, or none if the size is no multiple of 4 MB. -/
theorem Section.Enters.mapSection (hs : s.Enters already) (hphy : s.phyStart < 2 ^ 32) (dma : Bool)
    (pde : ℕ → ℕ) :
    ∃ pde', mapSection already dma pde s = some pde' ∧
      ∀ k, pde' k = if s.Writes already k then buildPdeEntry (s.frame already k) dma else pde k := by
  obtain ⟨hpos, hend, hlt, hskip, hskipDvd, hboot⟩ := hs
  by_cases hbranch : s.AtBoot
  · have hvir := hboot hbranch
    have hskipEq : s.skip already = already := if_pos hbranch
    rw [hskipEq] at hskip hskipDvd
    have hwrap : wrap32 already = already := wrap32_eq_self (by omega) (by omega)
    have hmsize : wrap32 (s.mapedSize - already) = s.mapedSize - already :=
      wrap32_eq_self (by omega) (by omega)
    have hvstart : u32 (kernelVirtualBase + already) = s.virStart + already := by
      rw [u32, hvir]
      omega
    have hpstart : u32 (s.phyStart + ((s.virStart + already : ℕ) - s.virStart : ℤ)) =
        u32 (s.phyStart + already) := congrArg u32 (by push_cast; ring)
    have hpLt : u32 (s.phyStart + already : ℤ) < 2 ^ 32 := by
      rw [u32]
      omega
    obtain ⟨pde', hpde', happly⟩ := buildKernelPdeEntry_apply
      (by omega : s.virStart + already < 2 ^ 32) hpLt (by omega : 0 ≤ s.mapedSize - already) dma pde
    have hsection : Bank.mapSection already dma pde s =
        if s.mapedSize - already > 0 then
          buildKernelPdeEntry (s.virStart + already) (u32 (s.phyStart + already))
            (s.mapedSize - already) dma pde
        else some pde := by
      rw [mapSection_eq, if_neg hpos.ne', if_pos hbranch, mapBootSection]
      simp only [hwrap, hmsize, hvstart, hpstart]
    by_cases hrest : s.mapedSize - already > 0
    · refine ⟨pde', by rw [hsection, if_pos hrest, hpde'], fun k => ?_⟩
      rw [happly]
      refine if_congr ?_ ?_ rfl
      · simp only [Section.Writes, hskipEq]
        push_cast
        omega
      · simp only [Section.frame, hskipEq]
    · refine ⟨pde, by rw [hsection, if_neg hrest], fun k => ?_⟩
      rw [if_neg]
      simp only [Section.Writes, hskipEq]
      omega
  · have hskipEq : s.skip already = 0 := if_neg hbranch
    obtain ⟨pde', hpde', happly⟩ := buildKernelPdeEntry_apply (by omega : s.virStart < 2 ^ 32) hphy
      hpos.le dma pde
    refine ⟨pde', by rw [mapSection_eq, if_neg hpos.ne', if_neg hbranch, hpde'], fun k => ?_⟩
    rw [happly]
    refine if_congr ?_ ?_ rfl
    · simp only [Section.Writes, hskipEq]
      push_cast
      simp only [add_zero, sub_zero, hpos, true_and]
    · simp only [Section.frame, hskipEq, Nat.cast_zero, add_zero, u32_natCast hphy]

theorem mapSection_of_neg (hs : s.mapedSize < 0) (hboot : ¬ s.AtBoot) (dma : Bool) (pde : ℕ → ℕ) :
    mapSection already dma pde s = if 2 ^ 22 ∣ s.mapedSize then none else some pde := by
  rw [mapSection_eq, if_neg hs.ne, if_neg hboot, buildKernelPdeEntry]
  by_cases hdvd : 2 ^ 22 ∣ s.mapedSize
  · rw [if_neg (by rwa [ne_eq, not_not, u32_mod_eq_zero_iff]), if_pos hs, if_pos hdvd]
  · rw [if_pos (mt (u32_mod_eq_zero_iff s.mapedSize).mp hdvd), if_neg hdvd]

end Sections

section Loops

variable {already : ℕ}

/-- The sections that `do_map_kernel_memory` goes through, with the kind of their entries. -/
def entered (zone : ZoneId → Zone) : List (Bool × Section) :=
  (zone .kernel).memorySection.map (false, ·) ++ (zone .dma).memorySection.map (true, ·) ++
    (zone .res).memorySection.map (false, ·)

theorem doMapKernelMemory_eq (info : SocMemoryInfo) (zone : ZoneId → Zone) (pde : ℕ → ℕ) :
    doMapKernelMemory info zone pde =
      (entered zone).foldlM (fun pde e => mapSection (alreadyMap info) e.1 pde e.2) pde := by
  simp only [doMapKernelMemory, entered, foldlM_append, foldlM_map, bind_assoc]

/-- A section that is skipped or refused. -/
def Section.Idle (s : Section) : Prop :=
  s.mapedSize = 0 ∨ s.mapedSize < 0 ∧ ¬ s.AtBoot ∧ ¬ 2 ^ 22 ∣ s.mapedSize

/-- Each slot of the directory has the entry of a section that writes it, or it is as before. -/
def Filled (already : ℕ) (l : List (Bool × Section)) (pde dir : ℕ → ℕ) : Prop :=
  ∀ k, (∃ e ∈ l, e.2.Writes already k ∧ dir k = buildPdeEntry (e.2.frame already k) e.1) ∨
    (∀ e ∈ l, ¬ e.2.Writes already k) ∧ dir k = pde k

/-- Entering a section. -/
theorem mapSection_filled {s : Section} (hs : s.Enters already ∧ s.phyStart < 2 ^ 32 ∨ s.Idle)
    (dma : Bool) (pde : ℕ → ℕ) :
    ∃ dir, mapSection already dma pde s = some dir ∧ Filled already [(dma, s)] pde dir := by
  obtain ⟨hs, hphy⟩ | hidle := hs
  · obtain ⟨dir, hdir, happly⟩ := hs.mapSection hphy dma pde
    refine ⟨dir, hdir, fun k => ?_⟩
    rw [happly]
    by_cases hk : s.Writes already k
    · left
      exact ⟨(dma, s), mem_singleton_self _, hk, if_pos hk⟩
    · right
      exact ⟨by simpa using hk, if_neg hk⟩
  · have hnot : ∀ k, ¬ s.Writes already k := by
      rintro k ⟨hpos, -⟩
      obtain h | ⟨h, -⟩ := hidle <;> omega
    refine ⟨pde, ?_, fun k => Or.inr ⟨by simpa using hnot k, rfl⟩⟩
    obtain hzero | ⟨hneg, hboot, hdvd⟩ := hidle
    · exact if_pos hzero
    · rw [mapSection_of_neg hneg hboot, if_neg hdvd]

variable {l : List (Bool × Section)}

theorem Filled.append {l' : List (Bool × Section)} {pde mid dir : ℕ → ℕ}
    (h : Filled already l pde mid) (h' : Filled already l' mid dir) :
    Filled already (l ++ l') pde dir := by
  intro k
  obtain ⟨e, he, hk, hdir⟩ | ⟨hnone, hdir⟩ := h' k
  · exact Or.inl ⟨e, mem_append_right _ he, hk, hdir⟩
  · obtain ⟨e, he, hk, hmid⟩ | ⟨hnone', hmid⟩ := h k
    · exact Or.inl ⟨e, mem_append_left _ he, hk, hdir.trans hmid⟩
    · refine Or.inr ⟨fun e he => ?_, hdir.trans hmid⟩
      obtain he | he := mem_append.mp he
      · exact hnone' e he
      · exact hnone e he

theorem foldlM_filled (hl : ∀ e ∈ l, e.2.Enters already ∧ e.2.phyStart < 2 ^ 32 ∨ e.2.Idle)
    (pde : ℕ → ℕ) :
    ∃ dir, l.foldlM (fun pde e => mapSection already e.1 pde e.2) pde = some dir ∧
      Filled already l pde dir := by
  induction l generalizing pde with
  | nil => exact ⟨pde, rfl, fun k => Or.inr ⟨by simp, rfl⟩⟩
  | cons e rest ih =>
    obtain ⟨he, hrest⟩ := forall_mem_cons.mp hl
    obtain ⟨mid, hmid, hfirst⟩ := mapSection_filled he e.1 pde
    obtain ⟨dir, hdir, hfilled⟩ := ih hrest mid
    refine ⟨dir, ?_, hfirst.append hfilled⟩
    rw [foldlM_cons, hmid]
    exact hdir

theorem foldlM_eq_none {e : Bool × Section} (he : e ∈ l)
    (hnone : ∀ pde, mapSection already e.1 pde e.2 = none) (pde : ℕ → ℕ) :
    l.foldlM (fun pde e => mapSection already e.1 pde e.2) pde = none := by
  induction l generalizing pde with
  | nil => simp at he
  | cons e' rest ih =>
    rw [foldlM_cons]
    obtain rfl | he := mem_cons.mp he
    · rw [hnone]
      rfl
    · cases mapSection already e'.1 pde e'.2 with
      | none => rfl
      | some mid => exact ih he mid

end Loops

section Layout

/-- An address is in the window of a section. -/
def Section.Covers (s : Section) (va : ℕ) : Prop :=
  s.virStart ≤ va ∧ (va : ℤ) < s.virStart + s.mapedSize

/-- Two windows have no address in common. -/
def WindowApart (s t : Section) : Prop := ∀ va, ¬ (s.Covers va ∧ t.Covers va)

instance : Std.Symm WindowApart := ⟨fun _ _ h va hva => h va hva.symm⟩

/-- The physical address behind an address of a window. -/
def Section.target (s : Section) (va : ℕ) : ℕ := u32 (s.phyStart + (va - s.virStart))

/-- No address of both windows is meant for the same byte of memory. -/
def TargetApart (s t : Section) : Prop :=
  ∀ va, s.Covers va → t.Covers va → s.target va ≠ t.target va

/-- Where `map_memory` can put a section. -/
structure Section.Placement (kstart hi : ℕ) (s : Section) : Prop where
  phyStart_lt : s.phyStart < 2 ^ 32
  end_le : 0 < s.mapedSize → s.virStart + s.mapedSize ≤ hi
  maped_le : 0 < s.mapedSize → s.mapedSize ≤ s.size
  maped_lt : 0 < s.mapedSize → s.mapedSize < 2 ^ 31
  offset : 0 < s.mapedSize → s.virStart % 2 ^ 22 = s.phyStart % 2 ^ 22 ∨
    s.virStart = kernelVirtualBase ∧ s.phyStart = kstart
  atBoot : 0 < s.mapedSize → s.AtBoot → s.Covers kernelVirtualBase
  negative : s.mapedSize < 0 → ¬ s.AtBoot

/-- What `map_memory` makes sure of when there is a section of the kernel image that holds what
`boot.S` has mapped. Windows can overlap only when the last kernel section is too short. -/
structure Laid (already kstart : ℕ) (l : List Section) : Prop where
  already_dvd : 2 ^ 22 ∣ already
  each : ∀ s ∈ l, s.Placement kstart 0xC8000000
  image : (∃ k ∈ l, 0 < k.mapedSize ∧ k.virStart = kernelVirtualBase ∧
      k.phyStart = kstart ∧ (already : ℤ) ≤ k.mapedSize) ∨
    already = 0 ∧ ∀ s ∈ l, s.Above kernelVirtualBase
  targets : l.Pairwise TargetApart

/-- The directory translates the windows of all sections. -/
def DirectoryOk (l : List Section) (dir : ℕ → ℕ) : Prop :=
  ∀ s ∈ l, ∀ o : ℕ, (o : ℤ) < s.mapedSize →
    translate dir (s.virStart + o) = some (u32 (s.phyStart + o))

/-- The sections can be entered into the directory: those with a window consist of whole slots
that are no others, and no size is negative and a multiple of 4 MB. -/
structure Directable (l : List Section) : Prop where
  phyStart_dvd : ∀ s ∈ l, 0 < s.mapedSize → 2 ^ 22 ∣ s.phyStart
  maped_dvd : ∀ s ∈ l, 0 < s.mapedSize → 2 ^ 22 ∣ s.mapedSize
  apart : l.Pairwise WindowApart
  negative : ∀ s ∈ l, s.mapedSize < 0 → ¬ 2 ^ 22 ∣ s.mapedSize

variable {already kstart : ℕ} {l : List Section} {dir : ℕ → ℕ}

variable {s : Section} {va : ℕ}

theorem DirectoryOk.translate (hok : DirectoryOk l dir) (hs : s ∈ l) (hva : s.Covers va) :
    translate dir va = some (s.target va) := by
  obtain ⟨hlo, hhi⟩ := hva
  have h := hok s hs (va - s.virStart) (by omega)
  rw [Nat.add_sub_cancel' hlo] at h
  rw [h, Section.target]
  congr 3
  omega

theorem DirectoryOk.apart (hok : DirectoryOk l dir) (htargets : l.Pairwise TargetApart) :
    l.Pairwise WindowApart := by
  refine htargets.imp_of_mem ?_
  rintro s t hs ht htarget va ⟨hsva, htva⟩
  apply htarget va hsva htva
  apply Option.some.inj
  rw [← hok.translate hs hsva, hok.translate ht htva]

theorem eq_of_covers (hapart : l.Pairwise WindowApart) {t : Section} (hs : s ∈ l) (ht : t ∈ l)
    (hsva : s.Covers va) (htva : t.Covers va) : s = t := by
  by_contra hne
  exact hapart.forall hs ht hne va ⟨hsva, htva⟩

/-- A section at the virtual base is the one of the kernel image, or nothing has been mapped. -/
theorem Laid.eq_image (hl : Laid already kstart l) (hapart : l.Pairwise WindowApart)
    (hs : s ∈ l) (hpos : 0 < s.mapedSize) (hboot : s.AtBoot) :
    s.virStart = kernelVirtualBase ∧ (already : ℤ) ≤ s.mapedSize ∧
      (0 < already → s.phyStart = kstart) := by
  have hcovers := (hl.each s hs).atBoot hpos hboot
  obtain ⟨k, hk, hkpos, hvir, hphy, hle⟩ | ⟨hzero, habove⟩ := hl.image
  · obtain rfl := eq_of_covers hapart hs hk hcovers ⟨hvir.le, by omega⟩
    exact ⟨hvir, hle, fun _ => hphy⟩
  · refine ⟨le_antisymm hcovers.1 (habove s hs hpos), by omega, fun h => ?_⟩
    omega

theorem Laid.enters (hl : Laid already kstart l) (hapart : l.Pairwise WindowApart)
    (hs : s ∈ l) (hpos : 0 < s.mapedSize) : s.Enters already := by
  have hend := (hl.each s hs).end_le hpos
  have hlt := (hl.each s hs).maped_lt hpos
  have hskip : (s.skip already : ℤ) ≤ s.mapedSize := by
    rw [Section.skip]
    split_ifs with hboot
    · exact (hl.eq_image hapart hs hpos hboot).2.1
    · exact hpos.le
  have hdvd : 2 ^ 22 ∣ s.skip already := by
    rw [Section.skip]
    split_ifs
    · exact hl.already_dvd
    · exact dvd_zero _
  exact ⟨hpos, by omega, hlt, hskip, hdvd, fun h => (hl.eq_image hapart hs hpos h).1⟩

theorem Section.Enters.covers_of_writes (hs : s.Enters already)
    (hw : s.Writes already (va / 2 ^ 22)) :
    s.Covers va ∨ va < s.virStart ∧ ¬ 2 ^ 22 ∣ s.virStart := by
  obtain ⟨hpos, hdvd, hlo, hhi⟩ := hw
  have hskip := hs.skip_le
  have hskipDvd := hs.skip_dvd
  by_cases hva : s.virStart ≤ va
  · left
    refine ⟨hva, ?_⟩
    omega
  · right
    refine ⟨by omega, fun h => ?_⟩
    omega

theorem translate_mod {pde : ℕ → ℕ} {pa : ℕ} (h : translate pde va = some pa) :
    pa % 2 ^ 22 = va % 2 ^ 22 := by
  rw [Bank.translate] at h
  split_ifs at h
  have hpa := Option.some.inj h
  simp only [pdeAlignSize] at hpa
  omega

end Layout

section Directory

variable {already kstart : ℕ} {l : List (Bool × Section)} {pde dir : ℕ → ℕ}

/-- If all windows are translated, and nothing was but what `boot.S` has mapped, then the windows
consist of whole slots. The last slot of another one would have been written for a window that
starts within it, which then is not made of whole slots either. -/
theorem Laid.whole (hl : Laid already kstart (l.map Prod.snd))
    (hpde : ∀ k, pde k ≠ 0 →
      kernelVirtualBase / 2 ^ 22 ≤ k ∧ k < kernelVirtualBase / 2 ^ 22 + already / 2 ^ 22)
    (hfilled : Filled already l pde dir) (hok : DirectoryOk (l.map Prod.snd) dir) :
    ∀ s ∈ l.map Prod.snd, 0 < s.mapedSize → 2 ^ 22 ∣ s.virStart ∧ 2 ^ 22 ∣ s.mapedSize := by
  have hapart := hok.apart hl.targets
  intro s hs hpos
  induction hn : 2 ^ 32 - s.virStart using Nat.strong_induction_on generalizing s with
  | _ n ih =>
    have hend := (hl.each s hs).end_le hpos
    by_contra hbad
    obtain ⟨va, hva⟩ : ∃ va : ℕ, (va : ℤ) = s.virStart + s.mapedSize - 1 :=
      ⟨(s.virStart + s.mapedSize - 1).toNat, by omega⟩
    have hcovers : s.Covers va := ⟨by omega, by omega⟩
    have hsome := hok.translate hs hcovers
    have hdir : dir (va / 2 ^ 22) ≠ 0 := by
      intro hzero
      rw [translate_of_zero hzero] at hsome
      exact Option.some_ne_none _ hsome.symm
    obtain ⟨e, he, hwrites, -⟩ | ⟨-, hkept⟩ := hfilled (va / 2 ^ 22)
    · have ht : e.2 ∈ l.map Prod.snd := mem_map_of_mem he
      have hskip := (hl.enters hapart ht hwrites.1).skip_dvd
      obtain hcovers' | ⟨hbefore, hstart⟩ := (hl.enters hapart ht hwrites.1).covers_of_writes hwrites
      · rw [← eq_of_covers hapart hs ht hcovers hcovers'] at hwrites hskip
        obtain ⟨-, hdvd, hlo, hhi⟩ := hwrites
        omega
      · have hendT := (hl.each e.2 ht).end_le hwrites.1
        have hposT := hwrites.1
        exact hstart (ih _ (by omega) e.2 ht hposT rfl).1
    · obtain ⟨hlo, hhi⟩ := hpde _ (hkept ▸ hdir)
      have hbase : kernelVirtualBase = 2 ^ 31 := rfl
      have hdvd := hl.already_dvd
      obtain ⟨k, hk, -, hvir, -, hle⟩ | ⟨hzero, -⟩ := hl.image
      · obtain rfl := eq_of_covers hapart hs hk hcovers ⟨by omega, by omega⟩
        omega
      · omega

/-- If the windows consist of whole slots of their own, all of them are translated. -/
theorem Laid.directoryOk (hl : Laid already kstart (l.map Prod.snd))
    (hd : Directable (l.map Prod.snd))
    (hpde : ∀ o < already, translate pde (kernelVirtualBase + o) = some (u32 (kstart + o)))
    (hfilled : Filled already l pde dir) : DirectoryOk (l.map Prod.snd) dir := by
  have hstart : ∀ s ∈ l.map Prod.snd, 0 < s.mapedSize → 2 ^ 22 ∣ s.virStart := by
    intro s hs hpos
    have hphy := hd.phyStart_dvd s hs hpos
    have hbase : 2 ^ 22 ∣ kernelVirtualBase := by decide
    obtain hmod | ⟨hvir, -⟩ := (hl.each s hs).offset hpos
    · omega
    · rwa [hvir]
  intro s hs o ho
  have hpos : 0 < s.mapedSize := by omega
  have hvir := hstart s hs hpos
  have hphy := hd.phyStart_dvd s hs hpos
  have hmaped := hd.maped_dvd s hs hpos
  have hskipDvd := (hl.enters hd.apart hs hpos).skip_dvd
  have hcovers : s.Covers (s.virStart + o) := ⟨by omega, by push_cast; omega⟩
  obtain ⟨e, he, hwrites, hdir⟩ | ⟨hnone, hdir⟩ := hfilled ((s.virStart + o) / 2 ^ 22)
  · have ht : e.2 ∈ l.map Prod.snd := mem_map_of_mem he
    have hstartT := hstart e.2 ht hwrites.1
    obtain hcovers' | ⟨-, hodd⟩ := (hl.enters hd.apart ht hwrites.1).covers_of_writes hwrites
    · rw [← eq_of_covers hd.apart hs ht hcovers hcovers'] at hdir
      have hframe : 2 ^ 22 ∣ s.frame already ((s.virStart + o) / 2 ^ 22) := by
        simp only [Section.frame, u32]
        omega
      rw [translate_of_entry hframe hdir]
      congr 1
      simp only [Section.frame, u32]
      omega
    · exact absurd hstartT hodd
  · have hskip : o < s.skip already := by
      obtain ⟨e, he, rfl⟩ := mem_map.mp hs
      by_contra hge
      refine hnone e he ⟨hpos, hmaped, ?_, ?_⟩
      · omega
      · push_cast
        omega
    rw [Section.skip] at hskip
    split_ifs at hskip with hboot
    · obtain ⟨hbase, -, himage⟩ := hl.eq_image hd.apart hs hpos hboot
      rw [translate_congr hdir, hbase, himage (by omega)]
      exact hpde o hskip
    · omega

end Directory

section MapMemory

variable {kstart already : ℕ} {zone : ZoneId → Zone}

variable {s : Section} {hi : ℕ}

theorem boot_placement {k : Section} (hphy : k.phyStart < 2 ^ 32)
    (hk : k.phyStart = kstart) (hsize : 0 ≤ k.size) :
    k.boot.Placement kstart 0xC0000000 := by
  have hend := kernelVirtualEnd
  have hwindow : kernelVirtualSize = 2 ^ 30 := rfl
  refine ⟨hphy, ?_, ?_, ?_, fun _ => Or.inr ⟨rfl, hk⟩, fun hpos _ => ⟨le_rfl, ?_⟩, ?_⟩
  · intro _
    simp only [Section.boot, Section.place]
    omega
  · exact fun _ => min_le_left _ _
  · intro _
    simp only [Section.boot, Section.place]
    omega
  · exact lt_add_of_pos_right _ hpos
  · intro hneg
    simp only [Section.boot, Section.place] at hneg
    omega

theorem Section.Fresh.placement_placed (hs : s.Fresh) {base : ℕ} (hok : LoopOk hi base)
    (hbase : 2 ^ 30 ≤ base) (hhi : kernelVirtualBase < hi) :
    (s.placed hi base).Placement kstart hi := by
  obtain ⟨hbaseDvd, hendDvd, hlt, hle, hnear⟩ := hok
  have hsize : s.size = s.nrPage * pageSize := by rw [hs.eq]
  have hge := hs.nrPage_ge
  have hpages := hs.nrPage_lt
  have hkernel : kernelVirtualBase = 2 ^ 31 := rfl
  simp only [pageSize] at hsize
  refine ⟨hs.phyStart_lt, ?_, ?_, ?_, ?_, ?_, ?_⟩
  all_goals
    simp only [Section.AtBoot, Section.Covers, Section.placed, Section.place, u32]
    omega

theorem Section.Mapped.placement {s' : Section} {lo : ℕ} (h : s.Mapped hi lo s') (hs : s.Fresh)
    (hlo : 2 ^ 30 ≤ lo) (hhi : kernelVirtualBase < hi) :
    s'.Placement kstart hi ∧ s'.Above lo := by
  have hmaped : s.mapedSize = 0 := by rw [hs.eq]
  obtain rfl | ⟨-, base, hbase, hok, rfl⟩ := h
  · refine ⟨⟨hs.phyStart_lt, ?_, ?_, ?_, ?_, ?_, ?_⟩, fun hpos => ?_⟩ <;> omega
  · refine ⟨hs.placement_placed hok (hlo.trans hbase) hhi, fun _ => ?_⟩
    simp only [Section.placed, Section.place]
    omega

/-- The kernel zone after `map_memory`, when the section of the kernel image holds what `boot.S` has
mapped. -/
theorem mapKernelMemory_placement (hzone : Analysed zone) (junk : ℤ)
    (hkernel : ∃ s ∈ (zone .kernel).memorySection, s.phyStart = kstart)
    (himage : ∀ s ∈ (mapKernelMemory junk kstart (zone .kernel)).memorySection,
      s.phyStart = kstart → (already : ℤ) ≤ s.mapedSize) :
    ∃ r, mapKernelMemory junk kstart (zone .kernel) = (zone .kernel).hold r ∧
      (∀ s ∈ r.1, s.Placement kstart 0xC0000000 ∧ s.Above kernelVirtualBase) ∧
      2 ^ 22 ∣ r.2 ∧ 2 ^ 30 < r.2 ∧ r.2 ≤ 0xC0000000 ∧
      ((∃ k ∈ r.1, 0 < k.mapedSize ∧ k.virStart = kernelVirtualBase ∧
          k.phyStart = kstart ∧ (already : ℤ) ≤ k.mapedSize) ∨
        already = 0 ∧ kernelVirtualBase ≤ r.2) := by
  obtain ⟨pre, k, post, r, -, hsplit, hk, hkGe, -, hmapped, hdvd, hlo, hhi, hup, hmap⟩ :=
    mapKernelMemory_placed hzone junk hkernel
  rw [hmap] at himage
  simp only [Zone.hold] at himage
  have hfresh := hzone.fresh .kernel
  have hwhole := hzone.kernel_whole
  obtain ⟨hpair, -⟩ := hzone.sizes .kernel
  rw [hsplit] at hfresh hwhole hpair hup
  have hbase : kernelVirtualBase = 2 ^ 31 := rfl
  have hwindow : kernelVirtualSize = 2 ^ 30 := rfl
  have hkFresh : k.Fresh := hfresh k (by simp)
  -- What has become of the section of the image.
  obtain ⟨k', hk', hboot⟩ := exists_of_mem_left hmapped (by simp : k.boot ∈ pre ++ k.boot :: post)
  have hkMaped : k.boot.mapedSize = min k.size kernelVirtualSize := rfl
  have hkeep : 0 ≤ k.size ∧ (k' = k.boot ∨ k.size = 0 ∧ already = 0) := by
    obtain rfl | ⟨hzero, b, -, -, rfl⟩ := hboot
    · have hle := himage _ hk' hk
      exact ⟨by omega, Or.inl rfl⟩
    · have hle := himage _ hk' hk
      have hplaced : (k.boot.placed 0xC0000000 b).mapedSize ≤ k.size := min_le_right _ _
      exact ⟨by omega, Or.inr ⟨by omega, by omega⟩⟩
  obtain ⟨hkSize, hkCases⟩ := hkeep
  obtain ⟨-, -, hnext, -⟩ := nextBase_boot hkGe
  refine ⟨r, hmap, ?_, hdvd, by omega, hhi, ?_⟩
  · intro s' hs'
    obtain ⟨s, hs, h⟩ := exists_of_mem_right hmapped hs'
    have hlow : ∀ {t : Section}, t.Fresh → t.Mapped 0xC0000000 k.boot.nextBase s' →
        s'.Placement kstart 0xC0000000 ∧ s'.Above kernelVirtualBase := by
      intro t ht hts
      obtain ⟨hplace, habove⟩ := hts.placement ht (by omega) (by decide)
      exact ⟨hplace, fun hpos => le_trans (by omega) (habove hpos)⟩
    obtain hs | hs := mem_append.mp hs
    · exact hlow (hfresh s (mem_append_left _ hs)) h
    · obtain rfl | hs := mem_cons.mp hs
      · obtain rfl | ⟨-, b, hb, hok, rfl⟩ := h
        · exact ⟨boot_placement hkFresh.phyStart_lt hk hkSize, fun _ => le_rfl⟩
        · exact hlow hkFresh (Or.inr ⟨by rw [hkFresh.eq], b, hb, hok, rfl⟩)
      · exact hlow (hfresh s (mem_append_right _ (mem_cons_of_mem _ hs))) h
  · by_cases hpos : 0 < k.size
    · left
      have hkBoot : k' = k.boot := by
        obtain h | ⟨h, -⟩ := hkCases
        · exact h
        · omega
      subst hkBoot
      exact ⟨k.boot, hk', by omega, rfl, hk, himage _ hk' hk⟩
    · right
      have hzero : already = 0 := by
        obtain rfl | ⟨-, h⟩ := hkCases
        · have hle := himage _ hk' hk
          omega
        · exact h
      -- A kernel section without any size is the last one, and the others have a size.
      have hpost : post = [] := by
        by_contra hne
        have hmem : k ∈ (pre ++ k :: post).dropLast := by
          rw [dropLast_append_of_ne_nil (by simp)]
          obtain ⟨t, rest, rfl⟩ := exists_cons_of_ne_nil hne
          simp
        have hpages := (hwhole k hmem).nrPage_pos
        have hsize : k.size = k.nrPage * pageSize := by rw [hkFresh.eq]
        simp only [pageSize] at hsize
        omega
      subst hpost
      refine ⟨hzero, le_trans (by omega) (hup fun s hs => ?_)⟩
      obtain hs | hs := mem_append.mp hs
      · exact (pairwise_append.mp hpair).2.2 s hs k (by simp)
      · rw [mem_singleton.mp hs]
        exact hkSize

theorem targetApart_of_span {t : Section} {hi' : ℕ} (hs : s.Placement kstart hi)
    (ht : t.Placement kstart hi') (h : ∀ x, ¬ (InSpan s.span x ∧ InSpan t.span x)) :
    TargetApart s t := by
  have hin : ∀ {s : Section} {hi va : ℕ}, s.Placement kstart hi → s.Covers va →
      InSpan s.span (s.target va) := by
    rintro s hi va hs ⟨hlo, hhi⟩
    have hle := hs.maped_le (by omega)
    have hlt := hs.maped_lt (by omega)
    simp only [InSpan, Section.span, Section.target, u32]
    omega
  intro va hsva htva heq
  exact h _ ⟨hin hs hsva, heq ▸ hin ht htva⟩

theorem targetApart_of_sides {t : Section} {mid : ℕ} (hs : s.Placement kstart mid)
    (ht : t.Above mid) : TargetApart s t ∧ TargetApart t s := by
  have hapart : ∀ va, s.Covers va → ¬ t.Covers va := by
    rintro va ⟨hlo, hhi⟩ ⟨hlo', hhi'⟩
    have hend := hs.end_le (by omega)
    have hstart := ht (by omega)
    omega
  exact ⟨fun va h h' => absurd h' (hapart va h), fun va h h' => absurd h (hapart va h')⟩

theorem Section.Placement.mono {hi' : ℕ} (h : s.Placement kstart hi) (hle : hi ≤ hi') :
    s.Placement kstart hi' :=
  { h with end_le := fun hpos => (h.end_le hpos).trans (by exact_mod_cast hle) }

/-- `map_memory` lays the sections out. -/
theorem mapMemory_laid (hzone : Analysed zone) (junk : ℤ)
    (hkernel : ∃ s ∈ (zone .kernel).memorySection, s.phyStart = kstart)
    (himage : ∀ s ∈ (mapMemory junk kstart zone .kernel).memorySection,
      s.phyStart = kstart → (already : ℤ) ≤ s.mapedSize)
    (hdvd : 2 ^ 22 ∣ already)
    (hkr : ∀ x, hits (((zone .kernel).memorySection ++
      (zone .res).memorySection).map Section.span) x ≤ 1)
    (hd : ∀ x, hits ((zone .dma).memorySection.map Section.span) x ≤ 1) :
    Laid already kstart (mappedSections (mapMemory junk kstart zone)) := by
  obtain ⟨r, hmapK, hK, hbaseDvd, hlo, hhi, hkImage⟩ :=
    mapKernelMemory_placement hzone junk hkernel himage
  obtain ⟨lD, baseD, hmappedD, hmapD⟩ := mapDmaMemory_mapped hzone
  obtain ⟨lR, baseR, hmappedR, hmapR⟩ := mapResMemory_mapped hzone
    ((zone .kernel).hold r) hbaseDvd hlo (by simp only [Zone.hold]; omega)
  have hlist : mappedSections (mapMemory junk kstart zone) = r.1 ++ lD ++ lR := by
    simp only [mappedSections, mapMemory, hmapK, hmapD, hmapR]
    rfl
  have hspan := fun z => (mapMemory_counters hzone junk kstart z).2.2.2.2
  have hspanK := hspan .kernel
  have hspanD := hspan .dma
  have hspanR := hspan .res
  simp only [mapMemory, hmapK, hmapD, hmapR] at hspanK hspanD hspanR
  simp only [Zone.hold] at hspanK
  have hD : ∀ s ∈ lD, s.Placement kstart 0xC8000000 ∧ s.Above 0xC0000000 := by
    intro s hs
    obtain ⟨t, ht, h⟩ := exists_of_mem_right hmappedD hs
    exact h.placement (hzone.fresh .dma t ht) (by decide) (by decide)
  have hR : ∀ s ∈ lR, s.Placement kstart 0xC0000000 ∧ s.Above r.2 := by
    intro s hs
    obtain ⟨t, ht, h⟩ := exists_of_mem_right hmappedR hs
    exact h.placement (hzone.fresh .res t ht) hlo.le (by decide)
  have hpair : (r.1 ++ lR).Pairwise TargetApart := by
    have hplace : ∀ s ∈ r.1 ++ lR, s.Placement kstart 0xC0000000 := fun s hs =>
      (mem_append.mp hs).elim (fun h => (hK s h).1) fun h => (hR s h).1
    rw [map_append, ← hspanK, ← hspanR, ← map_append] at hkr
    exact (pairwise_map.mp (Cover.pairwise_of_countP_le_one hkr)).imp_of_mem fun hs ht h =>
      targetApart_of_span (hplace _ hs) (hplace _ ht) h
  have hpairD : lD.Pairwise TargetApart := by
    rw [← hspanD] at hd
    exact (pairwise_map.mp (Cover.pairwise_of_countP_le_one hd)).imp_of_mem fun hs ht h =>
      targetApart_of_span (hD _ hs).1 (hD _ ht).1 h
  rw [hlist]
  obtain ⟨hpairK, hpairR, hpairKR⟩ := pairwise_append.mp hpair
  refine ⟨hdvd, ?_, ?_, ?_⟩
  · intro s hs
    obtain hs | hs := mem_append.mp hs
    · obtain hs | hs := mem_append.mp hs
      · exact (hK s hs).1.mono (by norm_num)
      · exact (hD s hs).1
    · exact (hR s hs).1.mono (by norm_num)
  · obtain ⟨k, hk, h⟩ | ⟨hzero, hbase⟩ := hkImage
    · exact Or.inl ⟨k, mem_append_left _ (mem_append_left _ hk), h⟩
    · refine Or.inr ⟨hzero, fun s hs => ?_⟩
      obtain hs | hs := mem_append.mp hs
      · obtain hs | hs := mem_append.mp hs
        · exact (hK s hs).2
        · exact fun hpos => le_trans (by decide) ((hD s hs).2 hpos)
      · exact fun hpos => hbase.trans ((hR s hs).2 hpos)
  · refine pairwise_append.mpr ⟨pairwise_append.mpr ⟨hpairK, hpairD, ?_⟩, hpairR, ?_⟩
    · exact fun s hs t ht => (targetApart_of_sides (hK s hs).1 (hD t ht).2).1
    · intro s hs t ht
      obtain hs | hs := mem_append.mp hs
      · exact hpairKR s hs t ht
      · exact (targetApart_of_sides (hR t ht).1 (hD s hs).2).2

end MapMemory

section Boot

/-- What `boot.S` leaves: the section of the kernel image holds the bytes that count as mapped, and
the directory translates them. -/
structure BootMapped (info : SocMemoryInfo) (zone : ZoneId → Zone) (pde : ℕ → ℕ) : Prop where
  image : ∃ s ∈ (zone .kernel).memorySection, s.phyStart = info.kernelPhysicalStart
  fits : ∀ s ∈ (zone .kernel).memorySection, s.phyStart = info.kernelPhysicalStart →
    (alreadyMap info : ℤ) ≤ s.mapedSize
  entries : ∀ o < alreadyMap info,
    translate pde (kernelVirtualBase + o) = some (u32 (info.kernelPhysicalStart + o))

/-- A directory with the entries of `boot.S` only. -/
def bootDirectory (info : SocMemoryInfo) (k : ℕ) : ℕ :=
  if kernelVirtualBase / 2 ^ 22 ≤ k ∧ k < kernelVirtualBase / 2 ^ 22 + alreadyMap info / 2 ^ 22 then
    buildPdeEntry (u32 (info.kernelPhysicalStart + (k - (kernelVirtualBase / 2 ^ 22 : ℕ)) * 2 ^ 22))
      false
  else 0

variable {info : SocMemoryInfo} {zone : ZoneId → Zone} {pde : ℕ → ℕ}

/-- If any directory has the entries of `boot.S`, this one has. -/
theorem BootMapped.bootDirectory (h : BootMapped info zone pde) :
    BootMapped info zone (bootDirectory info) := by
  refine ⟨h.image, h.fits, fun o ho => ?_⟩
  have halign := translate_mod (h.entries 0 (by omega))
  have hbase : kernelVirtualBase = 2 ^ 31 := rfl
  have hdvd : 2 ^ 22 ∣ alreadyMap info := dvd_pdeAlign _
  have hentry : Bank.bootDirectory info ((kernelVirtualBase + o) / 2 ^ 22) =
      buildPdeEntry (u32 (info.kernelPhysicalStart +
        (((kernelVirtualBase + o) / 2 ^ 22 : ℕ) - (kernelVirtualBase / 2 ^ 22 : ℕ)) * 2 ^ 22))
        false := if_pos (by omega)
  simp only [u32] at halign
  rw [translate_of_entry (by simp only [u32]; omega) hentry]
  congr 1
  simp only [u32]
  omega

/-- For registered and disjoint regions, one of them at the kernel image, the entries of `boot.S`
and those of `do_map_kernel_memory` translate the windows of all sections exactly if the windows
consist of whole slots of their own. -/
theorem doMapKernelMemory_iff (hregistered : info.Registered) (hdisjoint : info.Disjoint)
    (hkernel : ∃ r ∈ info.region, r.attr = .normal ∧ r.start = info.kernelPhysicalStart)
    (junk : ℤ) :
    ∃ zone, analyseSocMemoryInfo info = some zone ∧
      ((∃ pde, BootMapped info (mapMemory junk info.kernelPhysicalStart zone) pde) →
        ((∀ pde, BootMapped info (mapMemory junk info.kernelPhysicalStart zone) pde →
            ∃ dir, doMapKernelMemory info (mapMemory junk info.kernelPhysicalStart zone) pde =
                some dir ∧
              DirectoryOk (mappedSections (mapMemory junk info.kernelPhysicalStart zone)) dir) ↔
          Directable (mappedSections (mapMemory junk info.kernelPhysicalStart zone)))) := by
  have hok := hregistered.ok
  obtain ⟨r, hr, hattr, -⟩ := hkernel
  have hne : regionsOf .kernel info.region ≠ [] :=
    ne_nil_of_mem (mem_regionsOf_kernel.mpr ⟨hr, hattr⟩)
  obtain ⟨zone, hzone⟩ := Option.isSome_iff_exists.mp (analyseSocMemoryInfo_isSome hok hne)
  have hanalysed := analyseSocMemoryInfo_analysed hok hzone
  have hhits := hits_analysed_le hok hdisjoint hzone
  refine ⟨zone, hzone, ?_⟩
  rintro ⟨pde₀, hboot₀⟩
  have himage : ∃ s ∈ (zone .kernel).memorySection, s.phyStart = info.kernelPhysicalStart := by
    obtain ⟨s, hs, hphy⟩ := hboot₀.image
    obtain ⟨-, t, ht, hgiven⟩ :=
      (mapMemory_counters hanalysed junk info.kernelPhysicalStart .kernel).2.1 s hs
    exact ⟨t, ht, hgiven.same.1.symm.trans hphy⟩
  have hlaid := mapMemory_laid hanalysed junk himage hboot₀.fits (dvd_pdeAlign _)
    (fun x => (hhits x).1) fun x => (hhits x).2
  generalize mapMemory junk info.kernelPhysicalStart zone = M at *
  have hentered : mappedSections M = (entered M).map Prod.snd := by
    simp [entered, mappedSections, Function.comp_def]
  rw [hentered] at hlaid ⊢
  have hready : ((entered M).map Prod.snd).Pairwise WindowApart →
      (∀ s ∈ (entered M).map Prod.snd, s.mapedSize < 0 → ¬ 2 ^ 22 ∣ s.mapedSize) →
      ∀ e ∈ entered M, e.2.Enters (alreadyMap info) ∧ e.2.phyStart < 2 ^ 32 ∨ e.2.Idle := by
    intro hapart hnegative e he
    have hs : e.2 ∈ (entered M).map Prod.snd := mem_map_of_mem he
    obtain hneg | hzero | hpos := lt_trichotomy e.2.mapedSize 0
    · exact Or.inr (Or.inr ⟨hneg, (hlaid.each _ hs).negative hneg, hnegative _ hs hneg⟩)
    · exact Or.inr (Or.inl hzero)
    · exact Or.inl ⟨hlaid.enters hapart hs hpos, (hlaid.each _ hs).phyStart_lt⟩
  simp only [doMapKernelMemory_eq]
  constructor
  · intro h
    obtain ⟨dir, hdir, hokDir⟩ := h _ hboot₀.bootDirectory
    have hapart := hokDir.apart hlaid.targets
    have hnegative : ∀ s ∈ (entered M).map Prod.snd, s.mapedSize < 0 → ¬ 2 ^ 22 ∣ s.mapedSize := by
      intro s hs hneg hdvd
      obtain ⟨e, he, rfl⟩ := mem_map.mp hs
      rw [foldlM_eq_none he fun pde => by
        rw [mapSection_of_neg hneg ((hlaid.each _ hs).negative hneg), if_pos hdvd]] at hdir
      exact Option.some_ne_none _ hdir.symm
    obtain ⟨dir', hdir', hfilled⟩ := foldlM_filled (hready hapart hnegative) (bootDirectory info)
    obtain rfl := Option.some.inj (hdir'.symm.trans hdir)
    have hwhole := hlaid.whole (fun k hk => by_contra fun h => hk (if_neg h)) hfilled hokDir
    refine ⟨fun s hs hpos => ?_, fun s hs hpos => (hwhole s hs hpos).2, hapart, hnegative⟩
    have hmod := translate_mod (hokDir s hs 0 (by exact_mod_cast hpos))
    have hvir := (hwhole s hs hpos).1
    simp only [u32] at hmod
    omega
  · intro hd pde hpde
    obtain ⟨dir, hdir, hfilled⟩ := foldlM_filled (hready hd.apart hd.negative) pde
    exact ⟨dir, hdir, hlaid.directoryOk hd hpde.entries hfilled⟩

/-- The windows of sections, as numbers. -/
def windowsOf (l : List Section) : List (ℕ × ℕ × ℤ) :=
  l.map fun s => (s.phyStart, s.virStart, s.mapedSize)

/-- On a platform with the kernel image at the start of the first section, of at least 4 MB, one entry
of `boot.S` is enough for an image of at most 4 MB. -/
theorem bootMapped_of_first (hcode : alreadyMap info = 2 ^ 22) (hstart : info.kernelPhysicalStart = 0)
    {vir : ℕ} {maped : ℤ} (hmaped : 2 ^ 22 ≤ maped)
    (hzone : windowsOf (zone .kernel).memorySection = [(0, vir, maped)]) :
    BootMapped info zone fun k => if k = 512 then 0x83 else 0 := by
  obtain ⟨s, hs, hwindow⟩ := map_eq_singleton_iff.mp hzone
  obtain ⟨hphy, -, hsize⟩ : s.phyStart = 0 ∧ s.virStart = vir ∧ s.mapedSize = maped := by
    simpa using hwindow
  refine ⟨⟨s, by simp [hs], hphy.trans hstart.symm⟩, fun t ht _ => ?_, fun o ho => ?_⟩
  · rw [hs, mem_singleton] at ht
    rw [ht, hcode, hsize]
    exact_mod_cast hmaped
  · have hbase : kernelVirtualBase = 2 ^ 31 := rfl
    rw [hcode] at ho
    have hslot : (kernelVirtualBase + o) / 2 ^ 22 = 512 := by omega
    have hentry : (if (kernelVirtualBase + o) / 2 ^ 22 = 512 then 0x83 else 0) =
        buildPdeEntry 0 false := if_pos hslot
    rw [translate_of_entry (dvd_zero _) hentry, hstart]
    congr 1
    simp only [u32]
    omega

/-- On a platform with 64 MB all windows are translated. -/
theorem doMapKernelMemory_smallBoard :
    ∃ zone, analyseSocMemoryInfo smallBoard = some zone ∧
      (∃ pde, BootMapped smallBoard (mapMemory 0 0 zone) pde) ∧
      ∀ pde, BootMapped smallBoard (mapMemory 0 0 zone) pde →
        ∃ dir, doMapKernelMemory smallBoard (mapMemory 0 0 zone) pde = some dir ∧
          DirectoryOk (mappedSections (mapMemory 0 0 zone)) dir := by
  obtain ⟨zone, hzone, hiff⟩ := doMapKernelMemory_iff smallBoard_usable.registered
    smallBoard_usable.disjoint smallBoard_usable.kernel 0
  have hwindows : (analyseSocMemoryInfo smallBoard).map (fun zone =>
      (windowsOf (mapMemory 0 0 zone .kernel).memorySection,
        windowsOf (mappedSections (mapMemory 0 0 zone)))) =
      some ([(0, 0x80000000, 60 * 2 ^ 20)],
        [(0, 0x80000000, 60 * 2 ^ 20), (60 * 2 ^ 20, 0xC0000000, 2 ^ 22)]) := by decide +kernel
  rw [hzone, Option.map_some] at hwindows
  obtain ⟨hkernel, hall⟩ := Prod.mk.inj (Option.some.inj hwindows)
  have hboot : BootMapped smallBoard (mapMemory 0 0 zone) fun k => if k = 512 then 0x83 else 0 :=
    bootMapped_of_first (by decide +kernel) rfl (by norm_num) hkernel
  obtain ⟨s, rest, hlist, hs, hrest⟩ := map_eq_cons_iff.mp hall
  obtain ⟨t, rfl, ht⟩ := map_eq_singleton_iff.mp hrest
  simp only [Prod.mk.injEq] at hs ht
  refine ⟨zone, hzone, ⟨_, hboot⟩, (hiff ⟨_, hboot⟩).mpr ?_⟩
  have heq : mappedSections (mapMemory 0 smallBoard.kernelPhysicalStart zone) = [s, t] := hlist
  rw [heq]
  refine ⟨?_, ?_, pairwise_pair.mpr ?_, ?_⟩
  · exact forall_mem_cons.mpr ⟨by omega, forall_mem_singleton.mpr (by omega)⟩
  · exact forall_mem_cons.mpr ⟨by omega, forall_mem_singleton.mpr (by omega)⟩
  · rintro va ⟨⟨hlo, hhi⟩, hlo', hhi'⟩
    omega
  · exact forall_mem_cons.mpr ⟨by omega, forall_mem_singleton.mpr (by omega)⟩

/-- A platform with 16 MB of memory. -/
def tinyBoard : SocMemoryInfo where
  codeEnd := 0x80100000
  kernelPhysicalStart := 0
  region := [⟨0, 2 ^ 24, .normal⟩]

/-- Of 16 MB the kernel zone keeps 15, and none of what `boot.S` has left of them is entered. -/
theorem tinyBoard_directory :
    tinyBoard.Registered ∧ tinyBoard.Disjoint ∧
      (∃ r ∈ tinyBoard.region, r.attr = .normal ∧ r.start = tinyBoard.kernelPhysicalStart) ∧
      ∃ zone pde dir, analyseSocMemoryInfo tinyBoard = some zone ∧
        BootMapped tinyBoard (mapMemory 0 0 zone) pde ∧
        doMapKernelMemory tinyBoard (mapMemory 0 0 zone) pde = some dir ∧
        ∃ s ∈ (mapMemory 0 0 zone .kernel).memorySection,
          2 ^ 22 < s.mapedSize ∧ translate dir (s.virStart + 2 ^ 22) = none := by
  have hwindows : (analyseSocMemoryInfo tinyBoard).map (fun zone =>
      (windowsOf (mapMemory 0 0 zone .kernel).memorySection,
        (doMapKernelMemory tinyBoard (mapMemory 0 0 zone) fun k => if k = 512 then 0x83 else 0).map
          fun dir => dir 513)) =
      some ([(0, 0x80000000, 15 * 2 ^ 20)], some 0) := by decide +kernel
  obtain ⟨zone, hzone, hboth⟩ := Option.map_eq_some_iff.mp hwindows
  obtain ⟨hkernel, hrun⟩ := Prod.mk.inj hboth
  obtain ⟨dir, hdir, hzero⟩ := Option.map_eq_some_iff.mp hrun
  obtain ⟨s, hs, hwindow⟩ := map_eq_singleton_iff.mp hkernel
  simp only [Prod.mk.injEq] at hwindow
  obtain ⟨-, hvir, hmaped⟩ := hwindow
  refine ⟨⟨[(0, 2 ^ 24, .normal)], by decide +kernel⟩, pairwise_singleton _ _,
    ⟨_, mem_singleton_self _, rfl, rfl⟩, zone, _, dir, hzone,
    bootMapped_of_first (by decide +kernel) rfl (by norm_num) hkernel, hdir, s, by simp [hs],
    by omega, ?_⟩
  apply translate_of_zero
  rw [hvir]
  exact hzero

end Boot

end Chunos.Bank
