import Chunos.Lib.Listwise
import Chunos.Mm.BankRegions

/-!
# The places of the sections in the virtual address space

`map_zone_memory` goes through the sections of a zone with a base that is always at the start
of a slot of 4 MB. A section is placed at the base, with the offset that its physical start has
in a slot, and the next base is the first slot behind it. The kernel image comes first, at the
virtual base of the kernel, and reserved memory is placed behind the kernel zone.
-/

namespace Chunos.Bank

open Listwise List
open Pgt (kernelVirtualBase)

section Loop

/-- The loop of `map_zone_memory` can go on: whole slots are left below the end. -/
structure LoopOk (lim mapBase : ℕ) : Prop where
  base_dvd : 2 ^ 22 ∣ mapBase
  end_dvd : 2 ^ 22 ∣ lim
  lt : mapBase < lim
  end_le : lim ≤ 2 ^ 32 - 2 ^ 22
  near : lim < mapBase + 2 ^ 31

/-- A section as the loop places it when it comes to it with this base. -/
def Section.placed (lim mapBase : ℕ) (s : Section) : Section :=
  s.place (mapBase + s.phyStart % 2 ^ 22)
    (min (lim - (mapBase + s.phyStart % 2 ^ 22 : ℕ)) s.size)

/-- The base behind a section. -/
def Section.nextBase (s : Section) : ℕ := pdeAlign (u32 (s.virStart + s.mapedSize))

/-- What the loop does with a section. -/
def Section.Mapped (lim mapBase : ℕ) (s s' : Section) : Prop :=
  s' = s ∨ s.mapedSize = 0 ∧
    ∃ base, mapBase ≤ base ∧ LoopOk lim base ∧ s' = s.placed lim base

variable {lim mapBase : ℕ}

variable {s : Section} {l : List Section}

theorem mapSectionsLoop_skip (hs : s.mapedSize ≠ 0) (rest : List Section) :
    mapSectionsLoop lim (s :: rest) mapBase =
      (s :: (mapSectionsLoop lim rest mapBase).1,
        (mapSectionsLoop lim rest mapBase).2) := by
  rw [mapSectionsLoop, if_pos hs]

/-- The loop places a section, and goes on unless it has come to the end. -/
theorem mapSectionsLoop_place (hok : LoopOk lim mapBase) (hs : s.mapedSize = 0)
    (hphy : s.phyStart < 2 ^ 32) (rest : List Section) :
    mapSectionsLoop lim (s :: rest) mapBase =
      if (s.placed lim mapBase).nextBase = lim then
        (s.placed lim mapBase :: rest, lim)
      else
        (s.placed lim mapBase ::
            (mapSectionsLoop lim rest (s.placed lim mapBase).nextBase).1,
          (mapSectionsLoop lim rest (s.placed lim mapBase).nextBase).2) := by
  obtain ⟨hbase, hend, hlt, hle, hnear⟩ := hok
  have hoff : u32 (mapBase + (s.phyStart - pdeMinAlign s.phyStart)) =
      mapBase + s.phyStart % 2 ^ 22 := by
    rw [pdeMinAlign_eq hphy, u32]
    omega
  have hwrap : wrap32 (lim - (mapBase + s.phyStart % 2 ^ 22 : ℕ)) =
      lim - (mapBase + s.phyStart % 2 ^ 22 : ℕ) := by
    apply wrap32_eq_self <;> omega
  have hmin : (if (lim - (mapBase + s.phyStart % 2 ^ 22 : ℕ) : ℤ) > s.size then s.size
      else lim - (mapBase + s.phyStart % 2 ^ 22 : ℕ)) =
      min (lim - (mapBase + s.phyStart % 2 ^ 22 : ℕ) : ℤ) s.size := by
    split_ifs <;> omega
  rw [mapSectionsLoop, if_neg (not_not_intro hs)]
  simp only [hoff, hwrap, hmin]
  by_cases hnext : (s.placed lim mapBase).nextBase = lim
  · rw [if_pos hnext]
    simp only [Section.nextBase, Section.placed, Section.place] at hnext
    rw [if_pos hnext, hnext]
    rfl
  · rw [if_neg hnext]
    simp only [Section.nextBase, Section.placed, Section.place] at hnext
    rw [if_neg hnext]
    rfl

/-- The window of a section that is placed, when the section has a size. -/
theorem LoopOk.placed (hok : LoopOk lim mapBase) (hsize : 0 ≤ s.size) :
    0 ≤ (s.placed lim mapBase).mapedSize ∧ mapBase ≤ (s.placed lim mapBase).virStart ∧
      (s.placed lim mapBase).virStart + (s.placed lim mapBase).mapedSize ≤
        (s.placed lim mapBase).nextBase ∧
      (s.placed lim mapBase).nextBase ≤ lim := by
  obtain ⟨hbase, hend, hlt, hle, hnear⟩ := hok
  generalize hmap : min (lim - (mapBase + s.phyStart % 2 ^ 22 : ℕ) : ℤ) s.size = m
  have hnext : (s.placed lim mapBase).nextBase =
      pdeAlign (u32 ((mapBase + s.phyStart % 2 ^ 22 : ℕ) + m)) := by
    rw [← hmap]
    rfl
  rw [hnext, u32_eq (by omega) (by omega), pdeAlign_eq (by omega)]
  simp only [Section.placed, Section.place, hmap]
  omega

theorem Section.dvd_nextBase (s : Section) : 2 ^ 22 ∣ s.nextBase := dvd_pdeAlign _

theorem LoopOk.next (hok : LoopOk lim mapBase) (hsize : 0 ≤ s.size)
    (hnext : (s.placed lim mapBase).nextBase ≠ lim) :
    mapBase ≤ (s.placed lim mapBase).nextBase ∧
      LoopOk lim (s.placed lim mapBase).nextBase := by
  obtain ⟨hnonneg, hlo, hmid, hhi⟩ := hok.placed hsize
  have hdvd := (s.placed lim mapBase).dvd_nextBase
  refine ⟨by omega, hdvd, hok.end_dvd, by omega, hok.end_le, ?_⟩
  have := hok.near
  omega

/-- The loop places the sections one by one, as long as all but the last have a size. -/
theorem mapSectionsLoop_mapped (hok : LoopOk lim mapBase)
    (hphy : ∀ s ∈ l, s.phyStart < 2 ^ 32) (hsize : l.Pairwise fun s _ => 0 ≤ s.size) :
    List.Forall₂ (Section.Mapped lim mapBase) l (mapSectionsLoop lim l mapBase).1 := by
  induction l generalizing mapBase with
  | nil => exact List.Forall₂.nil
  | cons s rest ih =>
    obtain ⟨hfirst, hrest⟩ := pairwise_cons.mp hsize
    have hphyRest : ∀ t ∈ rest, t.phyStart < 2 ^ 32 := fun t ht =>
      hphy t (mem_cons_of_mem s ht)
    by_cases hs : s.mapedSize = 0
    · have hplaced : Section.Mapped lim mapBase s (s.placed lim mapBase) :=
        Or.inr ⟨hs, mapBase, le_rfl, hok, rfl⟩
      rw [mapSectionsLoop_place hok hs (hphy s mem_cons_self)]
      split_ifs with hnext
      · refine List.Forall₂.cons hplaced ?_
        exact forall₂_same.mpr fun t _ => Or.inl rfl
      · refine List.Forall₂.cons hplaced ?_
        cases rest with
        | nil => exact List.Forall₂.nil
        | cons t rest =>
          obtain ⟨hle, hok'⟩ := hok.next (hfirst t mem_cons_self) hnext
          refine (ih hok' hphyRest hrest).imp ?_
          rintro t t' (h | ⟨ht, base, hbase, h⟩)
          · exact Or.inl h
          · exact Or.inr ⟨ht, base, hle.trans hbase, h⟩
    · rw [mapSectionsLoop_skip hs]
      exact List.Forall₂.cons (Or.inl rfl) (ih hok hphyRest hrest)

/-- The base that the loop ends with, when the last section may be too short by `d` bytes. -/
theorem mapSectionsLoop_base {d : ℕ} (hok : LoopOk lim mapBase)
    (hphy : ∀ s ∈ l, s.phyStart < 2 ^ 32) (hsize : l.Pairwise fun s _ => 0 ≤ s.size)
    (hge : ∀ s ∈ l, -(d : ℤ) ≤ s.size) (hbase : d ≤ mapBase) :
    mapBase ≤ (mapSectionsLoop lim l mapBase).2 + d ∧
      (mapSectionsLoop lim l mapBase).2 ≤ lim := by
  induction l generalizing mapBase with
  | nil => exact ⟨Nat.le_add_right _ _, hok.lt.le⟩
  | cons s rest ih =>
    obtain ⟨hfirst, hrest⟩ := pairwise_cons.mp hsize
    obtain ⟨hphyS, hphyRest⟩ := forall_mem_cons.mp hphy
    obtain ⟨hgeS, hgeRest⟩ := forall_mem_cons.mp hge
    by_cases hs : s.mapedSize = 0
    · rw [mapSectionsLoop_place hok hs hphyS]
      split_ifs with hnext
      · exact ⟨hok.lt.le.trans (Nat.le_add_right _ _), le_rfl⟩
      · cases rest with
        | nil =>
          obtain ⟨hdvd, hendDvd, hlt, hle, hnear⟩ := hok
          simp only [mapSectionsLoop, Section.nextBase, Section.placed, Section.place]
          generalize hmap : min (lim - (mapBase + s.phyStart % 2 ^ 22 : ℕ) : ℤ) s.size = m
          rw [u32_eq (by omega) (by omega), pdeAlign_eq (by omega)]
          omega
        | cons t rest =>
          obtain ⟨hle, hok'⟩ := hok.next (hfirst t mem_cons_self) hnext
          obtain ⟨hlo, hhi⟩ := ih hok' hphyRest hrest hgeRest (by omega)
          exact ⟨by omega, hhi⟩
    · rw [mapSectionsLoop_skip hs]
      exact ih hok hphyRest hrest hgeRest hbase

theorem dvd_mapSectionsLoop (lim : ℕ) (hbase : 2 ^ 22 ∣ mapBase) (l : List Section) :
    2 ^ 22 ∣ (mapSectionsLoop lim l mapBase).2 := by
  induction l generalizing mapBase with
  | nil => exact hbase
  | cons s rest ih =>
    rw [mapSectionsLoop]
    split_ifs
    · exact ih hbase
    · simp only
      split_ifs <;> first | exact dvd_pdeAlign _ | exact ih (dvd_pdeAlign _)

end Loop

section Slots

/-- An address of the window of a section is in this slot of the page directory. -/
def Section.InSlot (s : Section) (k : ℕ) : Prop :=
  ∃ a : ℕ, s.virStart ≤ a ∧ (a : ℤ) < s.virStart + s.mapedSize ∧ a / pdeAlignSize = k

/-- The windows of two sections have no slot in common. -/
def SlotApart (s t : Section) : Prop := ∀ k, ¬ (s.InSlot k ∧ t.InSlot k)

variable {s : Section}

theorem SlotApart.symm {t : Section} (h : SlotApart s t) : SlotApart t s :=
  fun k hk => h k hk.symm

/-- The window of a section ends at or before an address. -/
def Section.Below (base : ℕ) (s : Section) : Prop :=
  0 < s.mapedSize → s.virStart + s.mapedSize ≤ base

/-- The window of a section starts at or behind an address. -/
def Section.Above (base : ℕ) (s : Section) : Prop := 0 < s.mapedSize → base ≤ s.virStart

theorem slotApart_of_below {base : ℕ} (hbase : 2 ^ 22 ∣ base) {t : Section} (hs : s.Below base)
    (ht : t.Above base) : SlotApart s t := by
  rintro k ⟨⟨a, ha, ha', hak⟩, b, hb, hb', hbk⟩
  have hlo := hs (by omega)
  have hhi := ht (by omega)
  simp only [pdeAlignSize] at hak hbk
  omega

variable {lim mapBase : ℕ}

/-- The windows that the loop makes are apart from each other and from those below its base. -/
theorem mapSectionsLoop_apart {l : List Section} (hok : LoopOk lim mapBase)
    (hphy : ∀ s ∈ l, s.phyStart < 2 ^ 32) (hsize : ∀ s ∈ l, 0 ≤ s.size)
    (hbelow : ∀ s ∈ l, s.Below mapBase) (hapart : l.Pairwise SlotApart) :
    (mapSectionsLoop lim l mapBase).1.Pairwise SlotApart ∧
      ∀ s ∈ (mapSectionsLoop lim l mapBase).1,
        s.Below (mapSectionsLoop lim l mapBase).2 := by
  induction l generalizing mapBase with
  | nil => exact ⟨List.Pairwise.nil, by simp [mapSectionsLoop]⟩
  | cons s rest ih =>
    obtain ⟨hfirst, hrest⟩ := pairwise_cons.mp hapart
    obtain ⟨hphyS, hphyRest⟩ := forall_mem_cons.mp hphy
    obtain ⟨hsizeS, hsizeRest⟩ := forall_mem_cons.mp hsize
    obtain ⟨hbelowS, hbelowRest⟩ := forall_mem_cons.mp hbelow
    have hsizePair : rest.Pairwise fun t _ => 0 ≤ t.size :=
      pairwise_of_forall_mem_list fun t ht _ _ => hsizeRest t ht
    have hmapped : ∀ {base : ℕ}, LoopOk lim base →
        ∀ t' ∈ (mapSectionsLoop lim rest base).1, t' ∈ rest ∨ t'.Above base := by
      intro base hbase t' ht'
      obtain ⟨t, ht, rfl | ⟨-, b, hle, -, rfl⟩⟩ :=
        exists_of_mem_right (mapSectionsLoop_mapped hbase hphyRest hsizePair) ht'
      · exact Or.inl ht
      · exact Or.inr fun _ => hle.trans (Nat.le_add_right _ _)
    have hup : ∀ {base : ℕ}, LoopOk lim base →
        base ≤ (mapSectionsLoop lim rest base).2 := fun hbase =>
      (mapSectionsLoop_base (d := 0) hbase hphyRest hsizePair (by simpa using hsizeRest)
        (Nat.zero_le _)).1
    by_cases hs : s.mapedSize = 0
    · obtain ⟨hnonneg, hlo, hmid, hhi⟩ := hok.placed hsizeS
      have hold : ∀ t ∈ rest, SlotApart (s.placed lim mapBase) t := fun t ht =>
        (slotApart_of_below hok.base_dvd (hbelowRest t ht) fun _ => hlo).symm
      rw [mapSectionsLoop_place hok hs hphyS]
      split_ifs with hnext
      · refine ⟨pairwise_cons.mpr ⟨hold, hrest⟩, forall_mem_cons.mpr ⟨?_, ?_⟩⟩
        · intro _
          omega
        · intro t ht hpos
          have := hbelowRest t ht hpos
          have := hok.lt
          omega
      · obtain ⟨hle, hok'⟩ := hok.next hsizeS hnext
        have hbelowNext : ∀ t ∈ rest, t.Below (s.placed lim mapBase).nextBase := by
          intro t ht hpos
          have := hbelowRest t ht hpos
          omega
        obtain ⟨hpair, hlast⟩ := ih hok' hphyRest hsizeRest hbelowNext hrest
        have hbase := hup hok'
        refine ⟨pairwise_cons.mpr ⟨?_, hpair⟩, forall_mem_cons.mpr ⟨?_, hlast⟩⟩
        · intro t' ht'
          obtain ht | habove := hmapped hok' t' ht'
          · exact hold t' ht
          · exact slotApart_of_below hok'.base_dvd (fun _ => hmid) habove
        · intro _
          omega
    · rw [mapSectionsLoop_skip hs]
      obtain ⟨hpair, hlast⟩ := ih hok hphyRest hsizeRest hbelowRest hrest
      have hbase := hup hok
      refine ⟨pairwise_cons.mpr ⟨?_, hpair⟩, forall_mem_cons.mpr ⟨?_, hlast⟩⟩
      · intro t' ht'
        obtain ht | habove := hmapped hok t' ht'
        · exact hfirst t' ht
        · exact slotApart_of_below hok.base_dvd hbelowS habove
      · intro hpos
        have := hbelowS hpos
        omega

end Slots

section Zones

/-- The sections of a zone in the window between a base and an end, and the last base. -/
def placeAll (lim mapBase : ℕ) (l : List Section) : List Section × ℕ :=
  if mapBase < lim then mapSectionsLoop lim l mapBase else (l, mapBase)

/-- The zone with these sections and this base. -/
def Zone.hold (zone : Zone) (r : List Section × ℕ) : Zone :=
  { zone with memorySection := r.1, mapBase := r.2 }

variable {kstart : ℕ}

theorem mapZoneMemory_eq (zone : Zone) {size : ℤ} {lim : ℕ}
    (hsize : size = lim - zone.mapBase) (hend : lim < 2 ^ 32) :
    mapZoneMemory zone size =
      zone.hold (placeAll lim zone.mapBase zone.memorySection) := by
  rw [mapZoneMemory, placeAll]
  split_ifs with hle hlt hlt
  · omega
  · rfl
  · have hmapEnd : u32 (zone.mapBase + size) = lim := by
      rw [u32]
      omega
    simp only [hmapEnd, if_neg hlt.ne]
    rfl
  · omega

variable {lim mapBase : ℕ} {l : List Section}

theorem placeAll_mapped (hok : mapBase < lim → LoopOk lim mapBase)
    (hphy : ∀ s ∈ l, s.phyStart < 2 ^ 32) (hsize : l.Pairwise fun s _ => 0 ≤ s.size) :
    List.Forall₂ (Section.Mapped lim mapBase) l (placeAll lim mapBase l).1 := by
  unfold placeAll
  split_ifs with hlt
  · exact mapSectionsLoop_mapped (hok hlt) hphy hsize
  · exact forall₂_same.mpr fun t _ => Or.inl rfl

/-- The last base, when the last section may be too short by `d` bytes. -/
theorem placeAll_base {d : ℕ} (hok : mapBase < lim → LoopOk lim mapBase)
    (hphy : ∀ s ∈ l, s.phyStart < 2 ^ 32) (hsize : l.Pairwise fun s _ => 0 ≤ s.size)
    (hge : ∀ s ∈ l, -(d : ℤ) ≤ s.size) (hbase : d ≤ mapBase) :
    mapBase ≤ (placeAll lim mapBase l).2 + d ∧
      (placeAll lim mapBase l).2 ≤ max mapBase lim := by
  unfold placeAll
  split_ifs with hlt
  · obtain ⟨hlo, hhi⟩ := mapSectionsLoop_base (hok hlt) hphy hsize hge hbase
    exact ⟨hlo, by omega⟩
  · exact ⟨Nat.le_add_right _ _, le_max_left _ _⟩

theorem dvd_placeAll (lim : ℕ) (hbase : 2 ^ 22 ∣ mapBase) (l : List Section) :
    2 ^ 22 ∣ (placeAll lim mapBase l).2 := by
  unfold placeAll
  split_ifs
  · exact dvd_mapSectionsLoop _ hbase l
  · exact hbase

theorem placeAll_apart (hok : mapBase < lim → LoopOk lim mapBase)
    (hphy : ∀ s ∈ l, s.phyStart < 2 ^ 32) (hsize : ∀ s ∈ l, 0 ≤ s.size)
    (hbelow : ∀ s ∈ l, s.Below mapBase) (hapart : l.Pairwise SlotApart) :
    (placeAll lim mapBase l).1.Pairwise SlotApart ∧
      ∀ s ∈ (placeAll lim mapBase l).1, s.Below (placeAll lim mapBase l).2 := by
  unfold placeAll
  split_ifs with hlt
  · exact mapSectionsLoop_apart (hok hlt) hphy hsize hbelow hapart
  · exact ⟨hapart, hbelow⟩

/-- The section of the kernel image, at the virtual base of the kernel. -/
def Section.boot (k : Section) : Section :=
  k.place kernelVirtualBase (min k.size kernelVirtualSize)

/-- The loop of `map_kernel_memory` finds the first section at the kernel image. -/
theorem mapKernelLoop_eq (mapBase : ℕ) (h : ∃ s ∈ l, s.phyStart = kstart) :
    ∃ pre k post, l = pre ++ k :: post ∧ k.phyStart = kstart ∧
      mapKernelLoop kstart mapBase l =
        some (min k.size (kernelVirtualSize : ℤ),
          pre ++ k.place mapBase (min k.size kernelVirtualSize) :: post) := by
  induction l with
  | nil => simp at h
  | cons s rest ih =>
    rw [mapKernelLoop]
    by_cases hs : s.phyStart = kstart
    · refine ⟨[], s, rest, rfl, hs, ?_⟩
      have hmin : (if s.size > kernelVirtualSize then (kernelVirtualSize : ℤ) else s.size) =
          min s.size kernelVirtualSize := by
        split_ifs <;> omega
      simp only [if_pos hs, hmin, nil_append]
    · obtain ⟨t, ht, hphy⟩ := h
      have hrest : ∃ s ∈ rest, s.phyStart = kstart := by
        obtain rfl | ht := mem_cons.mp ht
        · exact absurd hphy hs
        · exact ⟨t, ht, hphy⟩
      obtain ⟨pre, k, post, rfl, hk, hloop⟩ := ih hrest
      refine ⟨s :: pre, k, post, rfl, hk, ?_⟩
      rw [if_neg hs, hloop]
      rfl

/-- `PDE_ALIGN` of a size, as the bits of an `int`. -/
theorem pdeAlignSigned_toNat (size : ℤ) :
    pdeAlignSigned size = wrap32 (u32 (size + (2 ^ 22 - 1)) / 2 ^ 22 * 2 ^ 22 : ℕ) := by
  have hsum : (BitVec.ofInt 32 size + (BitVec.ofNat 32 (2 ^ 22) - 1)).toNat =
      u32 (size + (2 ^ 22 - 1)) := by
    have hmask : (BitVec.ofNat 32 (2 ^ 22) - 1).toNat = 2 ^ 22 - 1 := by decide
    rw [BitVec.toNat_add, BitVec.toNat_ofInt, hmask, u32]
    omega
  have halign : (align (BitVec.ofInt 32 size) (BitVec.ofNat 32 (2 ^ 22))).toNat =
      u32 (size + (2 ^ 22 - 1)) / 2 ^ 22 * 2 ^ 22 := by
    rw [align, ← minAlign, toNat_minAlign_two_pow (by norm_num), hsum]
  rw [pdeAlignSigned, pdeAlignSize, BitVec.toInt_eq_toNat_bmod, halign, wrap32]

theorem dvd_pdeAlignSigned (size : ℤ) : 2 ^ 22 ∣ pdeAlignSigned size := by
  rw [pdeAlignSigned_toNat, wrap32, Int.bmod_def]
  split_ifs <;> omega

theorem pdeAlignSigned_eq {size : ℤ} (hlo : -2 ^ 30 ≤ size) (hhi : size ≤ 2 ^ 30) :
    pdeAlignSigned size = (size + (2 ^ 22 - 1)) / 2 ^ 22 * 2 ^ 22 := by
  rw [pdeAlignSigned_toNat, wrap32, Int.bmod_def, u32]
  split_ifs <;> omega

theorem kernelVirtualEnd : kernelVirtualBase + kernelVirtualSize = 0xC0000000 := by decide

theorem nextBase_boot {k : Section} (hk : -2 ^ 27 ≤ k.size) :
    k.boot.nextBase = kernelVirtualBase + pdeAlignSigned (min k.size kernelVirtualSize) ∧
      k.boot.virStart + k.boot.mapedSize ≤ k.boot.nextBase ∧
      kernelVirtualBase + min k.size 0 ≤ k.boot.nextBase ∧ k.boot.nextBase ≤ 0xC0000000 := by
  have hbase : kernelVirtualBase = 2 ^ 31 := rfl
  have hsize : kernelVirtualSize = 2 ^ 30 := rfl
  rw [pdeAlignSigned_eq (by omega) (by omega)]
  simp only [Section.boot, Section.nextBase, Section.place]
  rw [u32_eq (by omega) (by omega), pdeAlign_eq (by omega)]
  omega

variable {zone : Zone}

/-- `map_kernel_memory` when there is a section at the kernel image. -/
theorem mapKernelMemory_eq (junk : ℤ)
    (h : ∃ s ∈ zone.memorySection, s.phyStart = kstart)
    (hsize : ∀ s ∈ zone.memorySection, -2 ^ 27 ≤ s.size) :
    ∃ pre k post, zone.memorySection = pre ++ k :: post ∧ k.phyStart = kstart ∧
      mapKernelMemory junk kstart zone =
        zone.hold (placeAll 0xC0000000 k.boot.nextBase (pre ++ k.boot :: post)) := by
  obtain ⟨pre, k, post, hsplit, hk, hloop⟩ := mapKernelLoop_eq kernelVirtualBase h
  refine ⟨pre, k, post, hsplit, hk, ?_⟩
  have hmem : k ∈ zone.memorySection := by
    rw [hsplit]
    simp
  obtain ⟨hnext, -, hlo, hhi⟩ := nextBase_boot (hsize k hmem)
  have hge := hsize k hmem
  have hend := kernelVirtualEnd
  have hKernel : kernelVirtualBase = 2 ^ 31 := rfl
  have hbase : u32 (kernelVirtualBase + pdeAlignSigned (min k.size kernelVirtualSize)) =
      k.boot.nextBase := by
    rw [← hnext, u32_natCast (by omega)]
  have hwindow : wrap32 (kernelVirtualSize - pdeAlignSigned (min k.size kernelVirtualSize)) =
      (0xC0000000 : ℕ) - (k.boot.nextBase : ℤ) := by
    rw [wrap32_eq_self (by omega) (by omega)]
    omega
  simp only [mapKernelMemory, hloop, hbase, hwindow]
  exact mapZoneMemory_eq _ rfl (by norm_num)

/-- `map_kernel_memory` when there is no section at the kernel image: the window depends on what
a local variable held before, but it consists of whole slots. -/
theorem mapKernelMemory_eq_of_none (junk : ℤ)
    (h : ∀ s ∈ zone.memorySection, s.phyStart ≠ kstart) :
    ∃ lim, 2 ^ 22 ∣ lim ∧ lim ≤ 2 ^ 32 - 2 ^ 22 ∧
      mapKernelMemory junk kstart zone =
        zone.hold (placeAll lim kernelVirtualBase zone.memorySection) := by
  have hloop : mapKernelLoop kstart kernelVirtualBase zone.memorySection = none := by
    generalize zone.memorySection = l at h
    induction l with
    | nil => rfl
    | cons s rest ih =>
      obtain ⟨hs, hrest⟩ := forall_mem_cons.mp h
      rw [mapKernelLoop, if_neg hs, ih hrest]
      rfl
  have hdvd := dvd_pdeAlignSigned junk
  have hbase : kernelVirtualBase = 2 ^ 31 := rfl
  have hsize : kernelVirtualSize = 2 ^ 30 := rfl
  obtain ⟨lim, hend⟩ : ∃ lim : ℕ, (lim : ℤ) =
      kernelVirtualBase + wrap32 (kernelVirtualSize - pdeAlignSigned junk) :=
    ⟨(kernelVirtualBase + wrap32 (kernelVirtualSize - pdeAlignSigned junk)).toNat, by
      rw [wrap32, Int.bmod_def]
      split_ifs <;> omega⟩
  have hrange : 2 ^ 22 ∣ lim ∧ lim ≤ 2 ^ 32 - 2 ^ 22 := by
    rw [wrap32, Int.bmod_def] at hend
    split_ifs at hend <;> omega
  refine ⟨lim, hrange.1, hrange.2, ?_⟩
  simp only [mapKernelMemory, hloop]
  exact mapZoneMemory_eq { zone with mapBase := kernelVirtualBase } (by simp only; omega) (by omega)

theorem mapDmaMemory_eq (zone : Zone) :
    mapDmaMemory zone = zone.hold (placeAll 0xC8000000 kernelDmaBase zone.memorySection) := by
  have hwindow : (kernelDmaSize : ℤ) = (0xC8000000 : ℕ) - (kernelDmaBase : ℤ) := by decide
  exact mapZoneMemory_eq { zone with mapBase := kernelDmaBase } hwindow (by norm_num)

/-- `map_res_memory`. -/
theorem mapResMemory_eq {kernel : Zone} (hlo : 2 ^ 30 < kernel.mapBase)
    (hhi : kernel.mapBase < 2 ^ 32) (zone : Zone) :
    mapResMemory kernel zone =
      zone.hold (placeAll 0xC0000000 kernel.mapBase zone.memorySection) := by
  have hwindow : wrap32 (kernelVirtualBase + kernelVirtualSize - kernel.mapBase) =
      (0xC0000000 : ℕ) - (kernel.mapBase : ℤ) := by
    have hend := kernelVirtualEnd
    rw [wrap32_eq_self (by omega) (by omega)]
    omega
  rw [mapResMemory, hwindow]
  exact mapZoneMemory_eq { zone with mapBase := kernel.mapBase } rfl (by norm_num)

end Zones

section Given

/-- What `map_memory` can make of a section: it stays without a window, it is the one of the
kernel image, or it is placed at a base. -/
def Section.Given (s s' : Section) : Prop :=
  s' = s ∨ s' = s.boot ∨
    ∃ lim base, 2 ^ 30 ≤ base ∧ LoopOk lim base ∧ s' = s.placed lim base

theorem Section.Mapped.given {s t s' : Section} {lim mapBase : ℕ} (hbase : 2 ^ 30 ≤ mapBase)
    (h : t.Mapped lim mapBase s') (ht : t = s ∨ t = s.boot) : s.Given s' := by
  obtain rfl | ⟨-, base, hle, hok, h⟩ := h
  · exact ht.imp_right Or.inl
  · refine Or.inr (Or.inr ⟨lim, base, hbase.trans hle, hok, h.trans ?_⟩)
    obtain rfl | rfl := ht <;> rfl

/-- The sizes of the sections, of which only the last kernel section can be too short. -/
theorem Analysed.sizes {zone : ZoneId → Zone} (hzone : Analysed zone) (z : ZoneId) :
    ((zone z).memorySection.Pairwise fun s _ => 0 ≤ s.size) ∧
      ∀ s ∈ (zone z).memorySection, -2 ^ 27 ≤ s.size := by
  have hsize : ∀ s ∈ (zone z).memorySection, s.size = s.nrPage * pageSize := fun s hs => by
    rw [(hzone.fresh z s hs).eq]
  have hpos : ∀ s ∈ (zone z).memorySection.dropLast, 0 ≤ s.size := by
    intro s hs
    have hmem := mem_of_mem_dropLast hs
    have hpages : 0 ≤ s.nrPage := by
      cases z with
      | kernel => exact (hzone.kernel_whole s hs).nrPage_pos.le
      | dma => exact (hzone.dma_pos s hmem).le
      | res => exact (hzone.res_whole s hmem).nrPage_pos.le
      | user =>
        rw [hzone.user_eq] at hs
        simp at hs
    rw [hsize s hmem]
    positivity
  refine ⟨pairwise_of_dropLast hpos, fun s hs => ?_⟩
  have := (hzone.fresh z s hs).nrPage_ge
  have := hsize s hs
  simp only [pageSize] at this
  omega

theorem pairwise_size_boot {pre post : List Section} {k : Section}
    (h : (pre ++ k :: post).Pairwise fun s _ => 0 ≤ s.size) :
    (pre ++ k.boot :: post).Pairwise fun s _ => 0 ≤ s.size := by
  have hsizes : (pre ++ k.boot :: post).map Section.size = (pre ++ k :: post).map Section.size := by
    simp [Section.boot, Section.place]
  have hmap : ((pre ++ k :: post).map Section.size).Pairwise fun a _ => 0 ≤ a :=
    pairwise_map.mpr h
  rw [← hsizes] at hmap
  exact pairwise_map.mp hmap

theorem forall_mem_boot {P : Section → Prop} {pre post : List Section} {k : Section}
    (h : ∀ s ∈ pre ++ k :: post, P s) (hk : P k → P k.boot) : ∀ s ∈ pre ++ k.boot :: post, P s := by
  intro s hs
  obtain hs | hs := mem_append.mp hs
  · exact h s (mem_append_left _ hs)
  · obtain rfl | hs := mem_cons.mp hs
    · exact hk (h k (by simp))
    · exact h s (mem_append_right _ (mem_cons_of_mem _ hs))

variable {zone : ZoneId → Zone}

section
variable (hzone : Analysed zone)
include hzone

/-- The kernel zone when there is a section at the kernel image: how its sections are placed, and
the base behind them. -/
theorem mapKernelMemory_placed (junk : ℤ) {kstart : ℕ}
    (h : ∃ s ∈ (zone .kernel).memorySection, s.phyStart = kstart) :
    ∃ pre k post r, r = placeAll 0xC0000000 k.boot.nextBase (pre ++ k.boot :: post) ∧
      (zone .kernel).memorySection = pre ++ k :: post ∧
      k.phyStart = kstart ∧ -2 ^ 27 ≤ k.size ∧
      (k.boot.nextBase < 0xC0000000 → LoopOk 0xC0000000 k.boot.nextBase) ∧
      List.Forall₂ (Section.Mapped 0xC0000000 k.boot.nextBase) (pre ++ k.boot :: post) r.1 ∧
      2 ^ 22 ∣ r.2 ∧ k.boot.nextBase ≤ r.2 + 2 ^ 27 ∧ r.2 ≤ 0xC0000000 ∧
      ((∀ s ∈ (zone .kernel).memorySection, 0 ≤ s.size) → k.boot.nextBase ≤ r.2) ∧
      mapKernelMemory junk kstart (zone .kernel) = (zone .kernel).hold r := by
  obtain ⟨hpair, hge⟩ := hzone.sizes .kernel
  have hphy : ∀ s ∈ (zone .kernel).memorySection, s.phyStart < 2 ^ 32 := fun s hs =>
    (hzone.fresh .kernel s hs).phyStart_lt
  have hbase : kernelVirtualBase = 2 ^ 31 := rfl
  obtain ⟨pre, k, post, hsplit, hkphy, hmap⟩ := mapKernelMemory_eq junk h hge
  have hk : -2 ^ 27 ≤ k.size := hge k (by rw [hsplit]; simp)
  obtain ⟨-, -, hlo, hhi⟩ := nextBase_boot hk
  have hok : k.boot.nextBase < 0xC0000000 → LoopOk 0xC0000000 k.boot.nextBase := fun hlt =>
    ⟨k.boot.dvd_nextBase, by norm_num, hlt, by norm_num, by omega⟩
  rw [hsplit] at hpair hge hphy ⊢
  have hpair' := pairwise_size_boot hpair
  have hphy' := forall_mem_boot hphy fun h => h
  have hge' := forall_mem_boot hge fun h => h
  have hlast := placeAll_base (d := 2 ^ 27) hok hphy' hpair' (by exact_mod_cast hge') (by omega)
  rw [max_eq_right hhi] at hlast
  refine ⟨pre, k, post, _, rfl, rfl, hkphy, hk, hok, placeAll_mapped hok hphy' hpair',
    dvd_placeAll _ k.boot.dvd_nextBase _, hlast.1, hlast.2, fun hsize => ?_, hmap⟩
  have hsize' := forall_mem_boot hsize fun h => h
  have hup := placeAll_base (d := 0) hok hphy' hpair' (by simpa using hsize') (Nat.zero_le _)
  omega

/-- The sections of the kernel zone, and the base behind them. -/
theorem mapKernelMemory_given (junk : ℤ) (kstart : ℕ) :
    ∃ l base, List.Forall₂ Section.Given (zone .kernel).memorySection l ∧ 2 ^ 22 ∣ base ∧
      2 ^ 30 < base ∧ base < 2 ^ 32 ∧
      mapKernelMemory junk kstart (zone .kernel) =
        { zone .kernel with memorySection := l, mapBase := base } := by
  have hbase : kernelVirtualBase = 2 ^ 31 := rfl
  by_cases h : ∃ s ∈ (zone .kernel).memorySection, s.phyStart = kstart
  · obtain ⟨pre, k, post, r, -, hsplit, -, hk, -, hmapped, hdvd, hlo, hhi, -, hmap⟩ :=
      mapKernelMemory_placed hzone junk h
    obtain ⟨-, -, hnext, -⟩ := nextBase_boot hk
    refine ⟨r.1, r.2, ?_, hdvd, by omega, by omega, hmap⟩
    rw [hsplit]
    exact forall₂_replace hmapped (fun _ _ h => h.given (by omega) (Or.inl rfl)) fun _ h =>
      h.given (by omega) (Or.inr rfl)
  · obtain ⟨hpair, hge⟩ := hzone.sizes .kernel
    have hphy : ∀ s ∈ (zone .kernel).memorySection, s.phyStart < 2 ^ 32 := fun s hs =>
      (hzone.fresh .kernel s hs).phyStart_lt
    have hnone : ∀ s ∈ (zone .kernel).memorySection, s.phyStart ≠ kstart :=
      fun s hs hs' => h ⟨s, hs, hs'⟩
    obtain ⟨lim, hend, hle, hmap⟩ := mapKernelMemory_eq_of_none junk hnone
    have hok : kernelVirtualBase < lim → LoopOk lim kernelVirtualBase := fun hlt =>
      ⟨by decide, hend, hlt, hle, by omega⟩
    have hlast := placeAll_base (d := 2 ^ 27) hok hphy hpair (by exact_mod_cast hge) (by omega)
    exact ⟨_, _, (placeAll_mapped hok hphy hpair).imp fun _ _ h => h.given (by omega) (Or.inl rfl),
      dvd_placeAll _ (by decide) _, by omega, by omega, hmap⟩

theorem mapDmaMemory_mapped :
    ∃ l base, List.Forall₂ (Section.Mapped 0xC8000000 kernelDmaBase) (zone .dma).memorySection l ∧
      mapDmaMemory (zone .dma) = { zone .dma with memorySection := l, mapBase := base } := by
  have hok : kernelDmaBase < 0xC8000000 → LoopOk 0xC8000000 kernelDmaBase := fun hlt =>
    ⟨by decide, by norm_num, hlt, by norm_num, by decide⟩
  exact ⟨_, _, placeAll_mapped hok (fun s hs => (hzone.fresh .dma s hs).phyStart_lt)
    (hzone.sizes .dma).1, mapDmaMemory_eq _⟩

theorem mapResMemory_mapped (kernel : Zone) (hdvd : 2 ^ 22 ∣ kernel.mapBase)
    (hlo : 2 ^ 30 < kernel.mapBase) (hhi : kernel.mapBase < 2 ^ 32) :
    ∃ l base, List.Forall₂ (Section.Mapped 0xC0000000 kernel.mapBase) (zone .res).memorySection l ∧
      mapResMemory kernel (zone .res) = { zone .res with memorySection := l, mapBase := base } := by
  have hok : kernel.mapBase < 0xC0000000 → LoopOk 0xC0000000 kernel.mapBase := fun hlt =>
    ⟨hdvd, by norm_num, hlt, by norm_num, by omega⟩
  exact ⟨_, _, placeAll_mapped hok (fun s hs => (hzone.fresh .res s hs).phyStart_lt)
    (hzone.sizes .res).1, mapResMemory_eq hlo hhi _⟩

/-- The sections after `map_memory`, whatever the regions are. -/
theorem mapMemory_given (junk : ℤ) (kstart : ℕ) (z : ZoneId) :
    ∃ l base, List.Forall₂ Section.Given (zone z).memorySection l ∧
      mapMemory junk kstart zone z =
        { zone z with memorySection := l, mapBase := base } := by
  obtain ⟨lK, baseK, hgiven, hdvd, hlo, hhi, hK⟩ :=
    mapKernelMemory_given hzone junk kstart
  cases z with
  | kernel => exact ⟨lK, baseK, hgiven, hK⟩
  | dma =>
    obtain ⟨l, base, hmapped, hD⟩ := mapDmaMemory_mapped hzone
    exact ⟨l, base, hmapped.imp fun _ _ h => h.given (by decide) (Or.inl rfl), hD⟩
  | res =>
    have hbase : (mapKernelMemory junk kstart (zone .kernel)).mapBase = baseK := by
      rw [hK]
    obtain ⟨l, base, hmapped, hR⟩ := mapResMemory_mapped hzone _ (by rwa [hbase])
      (by rwa [hbase]) (by rwa [hbase])
    rw [hbase] at hmapped
    exact ⟨l, base, hmapped.imp fun _ _ h => h.given hlo.le (Or.inl rfl), hR⟩
  | user =>
    exact ⟨(zone .user).memorySection, (zone .user).mapBase,
      forall₂_same.mpr fun _ _ => Or.inl rfl, rfl⟩

end

end Given

section Windows

/-- A section whose window is not larger than the section and lies between two addresses. -/
structure Section.Window (lo hi : ℕ) (s : Section) : Prop where
  nonneg : 0 ≤ s.mapedSize
  le_size : s.mapedSize ≤ s.size
  pvOffset_eq : 0 < s.mapedSize → s.pvOffset = wrap32 (s.virStart - s.phyStart)
  above : s.Above lo
  below : s.Below hi

/-- The windows after `map_memory`: those of the kernel zone and of reserved memory are in the
first gigabyte behind the virtual base of the kernel, those for devices in the 128 MB behind
it, and no two of them share a slot of the page directory. -/
structure Windows (zone : ZoneId → Zone) : Prop where
  kernel : ∀ s ∈ (zone .kernel).memorySection, s.Window 0x80000000 0xC0000000
  dma : ∀ s ∈ (zone .dma).memorySection, s.Window 0xC0000000 0xC8000000
  res : ∀ s ∈ (zone .res).memorySection, s.Window 0x80000000 0xC0000000
  apart : ((zone .kernel).memorySection ++ (zone .dma).memorySection ++
    (zone .res).memorySection).Pairwise SlotApart

variable {lo hi lim mapBase : ℕ}

variable {s : Section}

theorem Section.Fresh.window (hs : s.Fresh) (hpages : 0 ≤ s.nrPage) (lo hi : ℕ) :
    s.Window lo hi := by
  have hmaped : s.mapedSize = 0 := by rw [hs.eq]
  have hsize : s.size = s.nrPage * pageSize := by rw [hs.eq]
  refine ⟨hmaped.ge, ?_, ?_, ?_, ?_⟩
  · rw [hmaped, hsize]
    positivity
  all_goals
    intro hpos
    omega

theorem boot_window {k : Section} (hk : 0 ≤ k.size) : k.boot.Window 0x80000000 0xC0000000 := by
  have hend := kernelVirtualEnd
  have hbase : kernelVirtualBase = 0x80000000 := rfl
  refine ⟨?_, ?_, fun _ => rfl, fun _ => hbase.ge, fun _ => ?_⟩
  all_goals
    simp only [Section.boot, Section.place]
    omega

theorem Section.Mapped.window {s' : Section} (h : s.Mapped lim mapBase s')
    (hs : s.Window lo hi) (hlo : lo ≤ mapBase) (hhi : lim ≤ hi) : s'.Window lo hi := by
  obtain rfl | ⟨-, base, hbase, hok, rfl⟩ := h
  · exact hs
  · obtain ⟨hnonneg, hvir, hmid, hnext⟩ := hok.placed (hs.nonneg.trans hs.le_size)
    refine ⟨hnonneg, ?_, fun _ => rfl, fun _ => by omega, fun _ => by omega⟩
    exact min_le_right _ _

theorem pairwise_slotApart_of_unmapped {l : List Section} (hl : ∀ s ∈ l, s.mapedSize = 0) :
    l.Pairwise SlotApart := by
  apply pairwise_of_forall_mem_list
  rintro s hs t _ k ⟨⟨a, ha, ha', -⟩, -⟩
  have := hl s hs
  omega

theorem below_of_unmapped (hs : s.mapedSize = 0) (base : ℕ) : s.Below base := by
  intro hpos
  omega

/-- The windows of a zone whose sections have not been mapped yet. -/
theorem placeAll_windows {l : List Section} (hok : mapBase < lim → LoopOk lim mapBase)
    (hfresh : ∀ s ∈ l, s.Fresh) (hpages : ∀ s ∈ l, 0 ≤ s.nrPage) :
    (∀ s ∈ (placeAll lim mapBase l).1, s.Window mapBase lim) ∧
      (placeAll lim mapBase l).1.Pairwise SlotApart := by
  have hwindow : ∀ s ∈ l, s.Window mapBase lim := fun s hs =>
    (hfresh s hs).window (hpages s hs) _ _
  have hsize : ∀ s ∈ l, 0 ≤ s.size := fun s hs =>
    (hwindow s hs).nonneg.trans (hwindow s hs).le_size
  have hphy : ∀ s ∈ l, s.phyStart < 2 ^ 32 := fun s hs => (hfresh s hs).phyStart_lt
  have hmaped : ∀ s ∈ l, s.mapedSize = 0 := fun s hs => by rw [(hfresh s hs).eq]
  refine ⟨fun s' hs' => ?_, (placeAll_apart hok hphy hsize
    (fun s hs => below_of_unmapped (hmaped s hs) _) (pairwise_slotApart_of_unmapped hmaped)).1⟩
  obtain ⟨s, hs, h⟩ := exists_of_mem_right (placeAll_mapped hok hphy
    (pairwise_of_forall_mem_list fun s hs _ _ => hsize s hs)) hs'
  exact h.window (hwindow s hs) le_rfl le_rfl

/-- Putting the window of the kernel image into the list of sections keeps them apart. -/
theorem pairwise_boot {pre post : List Section} {k : Section}
    (hl : ∀ s ∈ pre ++ k :: post, s.mapedSize = 0) :
    (pre ++ k.boot :: post).Pairwise SlotApart := by
  have hrest : (pre ++ post).Pairwise SlotApart := by
    apply pairwise_slotApart_of_unmapped
    intro s hs
    apply hl s
    simp only [mem_append, mem_cons] at hs ⊢
    tauto
  have hone : (k.boot :: (pre ++ post)).Pairwise SlotApart := by
    refine pairwise_cons.mpr ⟨?_, hrest⟩
    rintro s hs n ⟨-, a, ha, ha', -⟩
    have := hl s (by
      simp only [mem_append, mem_cons] at hs ⊢
      tauto)
    omega
  exact (perm_middle.pairwise_iff SlotApart.symm).mpr hone

variable {kstart : ℕ}

/-- The windows of the kernel zone, and the base behind them. -/
theorem mapKernelMemory_windows {zone : ZoneId → Zone} (hzone : Analysed zone) (junk : ℤ)
    (hpages : ∀ s ∈ (zone .kernel).memorySection, 0 ≤ s.nrPage)
    (hkernel : ∃ s ∈ (zone .kernel).memorySection, s.phyStart = kstart) :
    ∃ r, mapKernelMemory junk kstart (zone .kernel) = (zone .kernel).hold r ∧
      (∀ s ∈ r.1, s.Window 0x80000000 0xC0000000 ∧ s.Below r.2) ∧ r.1.Pairwise SlotApart ∧
      2 ^ 22 ∣ r.2 ∧ 0x80000000 ≤ r.2 ∧ r.2 ≤ 0xC0000000 := by
  have hfresh := hzone.fresh .kernel
  have hwindow : ∀ s ∈ (zone .kernel).memorySection, s.Window 0x80000000 0xC0000000 := fun s hs =>
    (hfresh s hs).window (hpages s hs) _ _
  obtain ⟨pre, k, post, r, hr, hsplit, -, -, hok, hmapped, hdvd, -, hhi, hbase, hmap⟩ :=
    mapKernelMemory_placed hzone junk hkernel
  have hnext := hbase fun s hs => (hwindow s hs).nonneg.trans (hwindow s hs).le_size
  rw [hsplit] at hfresh hwindow
  have hmaped : ∀ s ∈ pre ++ k :: post, s.mapedSize = 0 := fun s hs => by rw [(hfresh s hs).eq]
  have hk : 0 ≤ k.size := (hwindow k (by simp)).nonneg.trans (hwindow k (by simp)).le_size
  obtain ⟨-, hbelow, hlo, -⟩ := nextBase_boot (by omega : -2 ^ 27 ≤ k.size)
  have hlo : 0x80000000 ≤ k.boot.nextBase := by
    have hbase : kernelVirtualBase = 0x80000000 := rfl
    omega
  have hwindow' := forall_mem_boot hwindow fun _ => boot_window hk
  have hbelow' : ∀ s ∈ pre ++ k.boot :: post, s.Below k.boot.nextBase :=
    forall_mem_boot (fun s hs => below_of_unmapped (hmaped s hs) _) fun _ _ => hbelow
  obtain ⟨hapart, hlast⟩ := placeAll_apart hok
    (forall_mem_boot (fun s hs => (hfresh s hs).phyStart_lt) fun h => h)
    (fun s hs => (hwindow' s hs).nonneg.trans (hwindow' s hs).le_size) hbelow'
    (pairwise_boot hmaped)
  rw [← hr] at hapart hlast
  refine ⟨r, hmap, fun s' hs' => ⟨?_, hlast s' hs'⟩, hapart, hdvd, hlo.trans hnext, hhi⟩
  obtain ⟨s, hs, h⟩ := exists_of_mem_right hmapped hs'
  exact h.window (hwindow' s hs) hlo le_rfl

/-- The section at the virtual base of the kernel is the one of the image, if that one has a
window. -/
theorem mapKernelMemory_boot {zone : ZoneId → Zone} (hzone : Analysed zone) (junk : ℤ)
    (hkernel : ∃ s ∈ (zone .kernel).memorySection, s.phyStart = kstart)
    (hpos : ∀ s ∈ (mapKernelMemory junk kstart (zone .kernel)).memorySection,
      s.phyStart = kstart → 0 < s.mapedSize) :
    (∃ s ∈ (mapKernelMemory junk kstart (zone .kernel)).memorySection,
        s.virStart = kernelVirtualBase) ∧
      ∀ s ∈ (mapKernelMemory junk kstart (zone .kernel)).memorySection,
        s.virStart = kernelVirtualBase → s.phyStart = kstart := by
  have hfresh := hzone.fresh .kernel
  obtain ⟨pre, k, post, r, -, hsplit, hk, hkSize, -, hmapped, -, -, -, -, hmap⟩ :=
    mapKernelMemory_placed hzone junk hkernel
  rw [hmap] at hpos ⊢
  simp only [Zone.hold] at hpos ⊢
  rw [hsplit] at hfresh
  obtain ⟨-, hbelow, -, -⟩ := nextBase_boot hkSize
  have hbase : kernelVirtualBase = 2 ^ 31 := rfl
  -- The section of the image is not placed a second time.
  obtain ⟨k', hk', hboot⟩ := exists_of_mem_left hmapped (by simp : k.boot ∈ pre ++ k.boot :: post)
  have hkeep : k' = k.boot ∧ 0 < k.boot.mapedSize := by
    obtain rfl | ⟨hzero, b, -, hb, rfl⟩ := hboot
    · exact ⟨rfl, hpos _ hk' hk⟩
    · have hmaped := hpos _ hk' hk
      have hle : (k.boot.placed 0xC0000000 b).mapedSize ≤ k.size := min_le_right _ _
      have hmin : min k.size (kernelVirtualSize : ℤ) = 0 := hzero
      have hwindow : kernelVirtualSize = 2 ^ 30 := rfl
      omega
  refine ⟨⟨k', hk', by rw [hkeep.1]; rfl⟩, fun s hs hvir => ?_⟩
  obtain ⟨t, ht, h⟩ := exists_of_mem_right hmapped hs
  have hnext : kernelVirtualBase < k.boot.nextBase := by
    have hstart : k.boot.virStart = kernelVirtualBase := rfl
    omega
  obtain rfl | ⟨-, b, hb, -, rfl⟩ := h
  · obtain ht | ht := mem_append.mp ht
    · have hzero : s.virStart = 0 := by rw [(hfresh s (mem_append_left _ ht)).eq]
      omega
    · obtain rfl | ht := mem_cons.mp ht
      · exact hk
      · have hzero : s.virStart = 0 := by
          rw [(hfresh s (mem_append_right _ (mem_cons_of_mem _ ht))).eq]
        omega
  · simp only [Section.placed, Section.place] at hvir
    omega

/-- The windows of all zones. -/
theorem mapMemory_windows {zone : ZoneId → Zone} (hzone : Analysed zone) (junk : ℤ)
    (hkernel : ∃ s ∈ (zone .kernel).memorySection, s.phyStart = kstart)
    (hpages : ∀ z, ∀ s ∈ (zone z).memorySection, 0 ≤ s.nrPage) :
    Windows (mapMemory junk kstart zone) := by
  obtain ⟨r, hK, hkernelAll, hkernelApart, hdvd, hlo, hhi⟩ :=
    mapKernelMemory_windows hzone junk (hpages .kernel) hkernel
  have hokD : kernelDmaBase < 0xC8000000 → LoopOk 0xC8000000 kernelDmaBase := fun hlt =>
    ⟨by decide, by norm_num, hlt, by norm_num, by decide⟩
  have hokR : r.2 < 0xC0000000 → LoopOk 0xC0000000 r.2 := fun hlt =>
    ⟨hdvd, by norm_num, hlt, by norm_num, by omega⟩
  obtain ⟨hdma, hdmaApart⟩ := placeAll_windows hokD (hzone.fresh .dma) (hpages .dma)
  obtain ⟨hres, hresApart⟩ := placeAll_windows hokR (hzone.fresh .res) (hpages .res)
  have hR : mapResMemory ((zone .kernel).hold r) (zone .res) = _ :=
    mapResMemory_eq (by omega : 2 ^ 30 < r.2) (by omega : r.2 < 2 ^ 32) _
  simp only [mapMemory, hK, mapDmaMemory_eq, hR]
  refine ⟨fun s hs => (hkernelAll s hs).1, hdma, ?_, ?_⟩
  · intro s hs
    have h := hres s hs
    exact ⟨h.nonneg, h.le_size, h.pvOffset_eq, fun hpos => le_trans (by omega) (h.above hpos),
      h.below⟩
  · refine pairwise_append.mpr ⟨pairwise_append.mpr ⟨hkernelApart, hdmaApart, ?_⟩, hresApart, ?_⟩
    · intro s hs t ht
      exact slotApart_of_below (by norm_num) (hkernelAll s hs).1.below (hdma t ht).above
    · intro s hs t ht
      obtain hs | hs := mem_append.mp hs
      · exact slotApart_of_below hdvd (hkernelAll s hs).2 (hres t ht).above
      · exact (slotApart_of_below (by norm_num) (hres t ht).below (hdma s hs).above).symm

/-- After `map_memory`, on every usable platform and whatever a local variable held before, the
sections have windows of their own, in the ranges that are meant for them. -/
theorem SocMemoryInfo.Usable.windows {info : SocMemoryInfo} (hinfo : info.Usable) (junk : ℤ) :
    ∃ zone, analyseSocMemoryInfo info = some zone ∧
      Windows (mapMemory junk info.kernelPhysicalStart zone) := by
  obtain ⟨zone, hzone, hanalysed, hkernel, hpages⟩ := hinfo.analysed
  exact ⟨zone, hzone, mapMemory_windows hanalysed junk hkernel hpages⟩

/-- The windows of a small platform. -/
theorem SocMemoryInfo.Usable.windows_smallBoard :
    smallBoard.Usable ∧ ∃ zone, analyseSocMemoryInfo smallBoard = some zone ∧
      Windows (mapMemory 0 smallBoard.kernelPhysicalStart zone) :=
  ⟨smallBoard_usable, smallBoard_usable.windows 0⟩

end Windows

end Chunos.Bank
