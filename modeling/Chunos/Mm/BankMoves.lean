import Mathlib.Logic.Relation
import Chunos.Mm.BankPages

/-!
# What the page allocator can do to the bank

A request visits sections until one of them has the pages. A visit without success can still
change its section, when the pages begin at the address 0. Here it is said once what each call
can do, in terms of the functions for one section. No call changes the layout of the bank: only
the cursors and the counters of the sections, the bits and the entries of the pages change.
-/

namespace Chunos.Bank

open Relation List Option

section Put

variable {bank : MmBank} {place : Place} {s : Section}

theorem slot_put (hs : bank.slot place = some s) (v : MmSection) (p : Place) :
    (bank.put place s v).slot p = if p = place then some (s.after v) else bank.slot p := by
  obtain ⟨z, j⟩ := place
  obtain ⟨z', j'⟩ := p
  have hj : j < (bank.zone z).memorySection.length :=
    (List.getElem?_eq_some_iff.mp hs).1
  by_cases hz : z' = z
  · subst hz
    by_cases hjj : j' = j
    · subst hjj
      simp [MmBank.slot, MmBank.put, hj]
    · have hne : (z', j') ≠ (z', j) := fun h => hjj (Prod.mk.inj h).2
      simp [MmBank.slot, MmBank.put, hjj, getElem?_set_ne (Ne.symm hjj)]
  · simp [MmBank.slot, MmBank.put, hz]

/-- Putting back what has been taken out changes nothing. -/
theorem put_view (hs : bank.slot place = some s) : bank.put place s (s.view bank) = bank := by
  obtain ⟨hj, hget⟩ := List.getElem?_eq_some_iff.mp hs
  have hset : (bank.zone place.1).memorySection.set place.2 (s.after (s.view bank)) =
      (bank.zone place.1).memorySection := by
    have hafter : s.after (s.view bank) = s := rfl
    rw [hafter, ← hget, set_getElem_self]
  have hwords : spliceWords bank.words s.bitmap (s.view bank).bitmap = bank.words := by
    funext w
    simp only [spliceWords, Section.view, wordsFrom]
    split_ifs with hle
    · rw [Nat.add_sub_cancel' hle]
    · rfl
  have hpage : (fun p => if s.pageTable ≤ p then (s.view bank).pageTable (p - s.pageTable)
      else bank.page p) = bank.page := by
    funext p
    simp only [Section.view]
    split_ifs with hle
    · rw [Nat.add_sub_cancel' hle]
    · rfl
  rw [MmBank.put, hset, hwords, hpage, Function.update_eq_self]

@[simp] theorem nrFreePages_put (bank : MmBank) (place : Place) (s : Section) (v : MmSection)
    (z : ZoneId) : ((bank.put place s v).zone z).nrFreePages = (bank.zone z).nrFreePages := by
  by_cases hz : z = place.1
  · subst hz
    simp [MmBank.put]
  · simp [MmBank.put, hz]

@[simp] theorem slot_addFree (bank : MmBank) (z : ZoneId) (n : ℤ) (p : Place) :
    (bank.addFree z n).slot p = bank.slot p := by
  by_cases hz : p.1 = z
  · simp [MmBank.slot, MmBank.addFree, hz]
  · simp [MmBank.slot, MmBank.addFree, hz]

@[simp] theorem sectionTable_addFree (bank : MmBank) (z : ZoneId) (n : ℤ) :
    (bank.addFree z n).sectionTable = bank.sectionTable := rfl

@[simp] theorem page_addFree (bank : MmBank) (z : ZoneId) (n : ℤ) :
    (bank.addFree z n).page = bank.page := rfl

theorem nrFreePages_addFree (bank : MmBank) (z : ZoneId) (n : ℤ) (z' : ZoneId) :
    ((bank.addFree z n).zone z').nrFreePages =
      (bank.zone z').nrFreePages + if z' = z then n else 0 := by
  by_cases hz : z' = z
  · subst hz
    simp [MmBank.addFree]
  · simp [MmBank.addFree, hz]

end Put

section Requests

variable {fuel count flag : ℕ} {vp : Bool} {bank bank' : MmBank} {g : Option Grant}

/-- A request visits a section that has enough pages. -/
structure Visit (fuel count flag : ℕ) (vp : Bool) (bank : MmBank) (place : Place) (s : Section)
    (ret : PagesRet) (v : MmSection) : Prop where
  slot : bank.slot place = some s
  size : s.size ≠ 0
  free : count ≤ s.nrFreePages
  found : ∃ reads, getFreePagesFromSection fuel (s.view bank) count flag vp = some (ret, v, reads)

/-- A visit to one of these zones after which the request goes on. -/
def Miss (fuel count flag : ℕ) (vp : Bool) (zones : List ZoneId) (bank bank' : MmBank) : Prop :=
  ∃ place s ret v, place.1 ∈ zones ∧ Visit fuel count flag vp bank place s ret v ∧
    s.grant place ret = none ∧ bank' = bank.put place s v

/-- The end of a request: no pages, or those of the last visit. -/
def Ends (fuel count flag : ℕ) (vp : Bool) (zones : List ZoneId) (bank : MmBank)
    (g : Option Grant) (bank' : MmBank) : Prop :=
  (g = none ∧ bank' = bank) ∨
    ∃ place s ret v grant, place.1 ∈ zones ∧ count ≤ (bank.zone place.1).nrFreePages ∧
      Visit fuel count flag vp bank place s ret v ∧ s.grant place ret = some grant ∧ g = some grant ∧
      bank' = (bank.put place s v).addFree place.1 (-count)

/-- A request that goes through these zones. -/
def Took (fuel count flag : ℕ) (vp : Bool) (zones : List ZoneId) (bank : MmBank)
    (g : Option Grant) (bank' : MmBank) : Prop :=
  ∃ bank₁, ReflTransGen (Miss fuel count flag vp zones) bank bank₁ ∧
    Ends fuel count flag vp zones bank₁ g bank'

theorem Took.none : Took fuel count flag vp zones bank none bank := ⟨bank, .refl, Or.inl ⟨rfl, rfl⟩⟩

/-- The loop over the sections of a zone, up to the counter of the zone. -/
theorem sectionLoop_spec {z : ZoneId} {rest : List Section} {j : ℕ}
    (hslots : ∀ i s, rest[i]? = some s → bank.slot (z, j + i) = some s)
    (h : sectionLoop fuel count flag vp z rest j bank = some (g, bank')) :
    ∃ bank₁, ReflTransGen (Miss fuel count flag vp [z]) bank bank₁ ∧
      ((g = none ∧ bank' = bank₁) ∨ ∃ i s ret v grant,
        Visit fuel count flag vp bank₁ (z, i) s ret v ∧ s.grant (z, i) ret = some grant ∧
        g = some grant ∧ bank' = bank₁.put (z, i) s v) := by
  induction rest generalizing j bank with
  | nil =>
    simp only [sectionLoop, some.injEq, Prod.mk.injEq] at h
    exact ⟨bank, .refl, Or.inl ⟨h.1.symm, h.2.symm⟩⟩
  | cons s rest ih =>
    have hs : bank.slot (z, j) = some s := hslots 0 s rfl
    have htail : ∀ i t, rest[i]? = some t → bank.slot (z, j + 1 + i) = some t := by
      intro i t ht
      rw [Nat.add_assoc, Nat.add_comm 1 i]
      exact hslots (i + 1) t ht
    rw [sectionLoop] at h
    split_ifs at h with hskip
    · exact ih htail h
    · obtain ⟨⟨ret, v, reads⟩, hfound, h⟩ := bind_eq_some_iff.mp h
      have hvisit : Visit fuel count flag vp bank (z, j) s ret v :=
        ⟨hs, fun hsize => hskip (Or.inl hsize), by omega, reads, hfound⟩
      simp only at h
      cases hgrant : s.grant (z, j) ret with
      | some grant =>
        simp only [hgrant, some.injEq, Prod.mk.injEq] at h
        exact ⟨bank, .refl, Or.inr ⟨j, s, ret, v, grant, hvisit, hgrant, h.1.symm, h.2.symm⟩⟩
      | none =>
        simp only [hgrant] at h
        -- the sections that are still to come have not been changed
        have hnext : ∀ i t, rest[i]? = some t →
            (bank.put (z, j) s v).slot (z, j + 1 + i) = some t := by
          intro i t ht
          rw [slot_put hs, if_neg (by simp only [Prod.mk.injEq]; omega)]
          exact htail i t ht
        obtain ⟨bank₁, hmisses, hend⟩ := ih hnext h
        exact ⟨bank₁, .head ⟨_, s, ret, v, mem_singleton_self z, hvisit, hgrant, rfl⟩ hmisses, hend⟩

variable {zones : List ZoneId}

theorem invariant_of_misses {I : MmBank → Prop}
    (hvisit : ∀ bank place s ret v, I bank → Visit fuel count flag vp bank place s ret v →
      I (bank.put place s v))
    (hbank : I bank) (h : ReflTransGen (Miss fuel count flag vp zones) bank bank') : I bank' := by
  induction h with
  | refl => exact hbank
  | tail _ hmiss ih =>
    obtain ⟨place, s, ret, v, -, hv, -, rfl⟩ := hmiss
    exact hvisit _ place s ret v ih hv

/-- `__get_free_pages_from_zone`. -/
theorem getFreePagesFromZone_took {z : ZoneId}
    (h : getFreePagesFromZone fuel count flag vp bank z = some (g, bank')) :
    Took fuel count flag vp [z] bank g bank' := by
  unfold getFreePagesFromZone at h
  split_ifs at h with hfew
  · cases h
    exact .none
  · obtain ⟨⟨g', bank₂⟩, hloop, hmap⟩ := map_eq_some_iff.mp h
    have hslots : ∀ i s, (bank.zone z).memorySection[i]? = some s →
        bank.slot (z, 0 + i) = some s := by
      intro i s hs
      rw [Nat.zero_add]
      exact hs
    obtain ⟨bank₁, hmisses, ⟨rfl, rfl⟩ | ⟨i, s, ret, v, grant, hvisit, hgrant, rfl, rfl⟩⟩ :=
      sectionLoop_spec hslots hloop
    · obtain ⟨rfl, rfl⟩ := Prod.mk.inj hmap
      exact ⟨_, hmisses, Or.inl ⟨rfl, rfl⟩⟩
    · obtain ⟨rfl, rfl⟩ := Prod.mk.inj hmap
      have hcounter : (bank₁.zone z).nrFreePages = (bank.zone z).nrFreePages :=
        invariant_of_misses (I := fun b => (b.zone z).nrFreePages = (bank.zone z).nrFreePages)
          (fun b _ _ _ _ hb _ => (nrFreePages_put b _ _ _ z).trans hb) rfl hmisses
      exact ⟨bank₁, hmisses, Or.inr ⟨(z, i), s, ret, v, grant, mem_singleton_self z,
        by rw [hcounter]; omega, hvisit, hgrant, rfl, rfl⟩⟩

theorem misses_mono {zones' : List ZoneId} (hzones : ∀ z ∈ zones, z ∈ zones')
    (h : ReflTransGen (Miss fuel count flag vp zones) bank bank') :
    ReflTransGen (Miss fuel count flag vp zones') bank bank' := by
  refine ReflTransGen.mono (fun b b' hmiss => ?_) _ _ h
  obtain ⟨place, s, ret, v, hz, hmiss⟩ := hmiss
  exact ⟨place, s, ret, v, hzones _ hz, hmiss⟩

/-- The loop of `__get_free_pages`. -/
theorem zoneLoop_took (h : zoneLoop fuel count flag vp zones bank = some (g, bank')) :
    Took fuel count flag vp zones bank g bank' := by
  induction zones generalizing bank with
  | nil =>
    cases h
    exact .none
  | cons z zones ih =>
    have hfirst : ∀ z' ∈ [z], z' ∈ z :: zones := by simp
    have hrest : ∀ z' ∈ zones, z' ∈ z :: zones := fun _ h => mem_cons_of_mem z h
    obtain ⟨⟨g', bank₂⟩, hzone, h⟩ := bind_eq_some_iff.mp h
    obtain ⟨bank₁, hmisses, ⟨rfl, rfl⟩ |
      ⟨place, s, ret, v, grant, hz, hfree, hvisit, hgrant, rfl, rfl⟩⟩ :=
        getFreePagesFromZone_took hzone
    · obtain ⟨bank₃, hmisses', hend⟩ := ih h
      refine ⟨bank₃, (misses_mono hfirst hmisses).trans (misses_mono hrest hmisses'),
        hend.imp_right ?_⟩
      rintro ⟨place, s, ret, v, grant, hmem, hend⟩
      exact ⟨place, s, ret, v, grant, hrest _ hmem, hend⟩
    · cases h
      exact ⟨bank₁, misses_mono hfirst hmisses,
        Or.inr ⟨place, s, ret, v, grant, hfirst _ hz, hfree, hvisit, hgrant, rfl, rfl⟩⟩

/-- The zones that a flag makes a request go through. -/
def requestZones (fuel flag : ℕ) : List ZoneId :=
  ((getZoneId fuel flag).bind zoneOfId).elim [] zonesFrom

theorem getFreePagesAny_took (h : getFreePagesAny fuel count flag vp bank = some (g, bank')) :
    Took fuel count flag vp (requestZones fuel flag) bank g bank' := by
  obtain ⟨id, hid, h⟩ := bind_eq_some_iff.mp h
  cases hz : zoneOfId id with
  | none =>
    simp only [hz] at h
    cases h
    exact .none
  | some z =>
    simp only [hz] at h
    have hzones : requestZones fuel flag = zonesFrom z := by
      simp [requestZones, hid, hz]
    rw [hzones]
    exact zoneLoop_took h

theorem requestPages_took {count : ℤ} (h : requestPages fuel count flag bank = some (g, bank')) :
    Took fuel count.toNat flag false (requestZones fuel flag) bank g bank' := by
  unfold requestPages at h
  split_ifs at h with hneg
  · cases h
    exact .none
  · exact getFreePagesAny_took h

theorem getFreePages_took {count : ℤ} (h : getFreePages fuel count flag bank = some (g, bank')) :
    Took fuel count.toNat flag true (requestZones fuel flag) bank g bank' := by
  unfold getFreePages at h
  split_ifs at h with hrefuse
  · cases h
    exact .none
  · exact getFreePagesAny_took h

/-- A section in which a run of pages has been marked. -/
def Section.marked (s : Section) (bank : MmBank) (index count flag : ℕ) : MmSection :=
  { s.view bank with
    bitmap := updateMemoryBitmap (wordsFrom bank.words s.bitmap) index count true
    pageTable := initPages (s.view bank) index count flag }

/-- A section from which a run of pages has been taken. -/
def Section.taken (s : Section) (bank : MmBank) (index count flag : ℕ) : MmSection :=
  { s.marked bank index count flag with
    bmCurrent := if index + count ≥ s.bmEnd then 0 else index + count
    nrFreePages := s.nrFreePages - count }

/-- What a visit can be: the search fails and changes nothing, or it finds a run. -/
theorem Visit.cases {place : Place} {s : Section} {ret : PagesRet} {v : MmSection}
    (hvisit : Visit fuel count flag vp bank place s ret v) :
    (ret = .null ∧ v = s.view bank) ∨
      ∃ index : ℕ, 1 ≤ count ∧
        (∃ reads, bitmapFindFreeBase fuel (wordsFrom bank.words s.bitmap) (wrap32 s.bmCurrent) 0
          s.nrPage.toNat count = some ((index : ℤ), reads)) ∧
        ret = (if vp then .va (s.virStart + index <<< pageShift) else .page index) ∧
        v = s.taken bank index count flag := by
  obtain ⟨reads, hfound⟩ := hvisit.found
  obtain ⟨base, hfind, ⟨-, hret, hv⟩ | ⟨index, rfl, hret, hv⟩⟩ := getFreePagesFromSection_eq hfound
  · exact Or.inl ⟨hret, hv⟩
  · right
    refine ⟨index, ?_, ⟨reads, hfind⟩, hret, hv⟩
    by_contra hzero
    obtain rfl : count = 0 := by omega
    have hnone := scanLoop_zero le_rfl hfind
    simp only [enospc] at hnone
    omega

theorem Visit.free_le {place : Place} {s : Section} {ret : PagesRet} {v : MmSection}
    (hvisit : Visit fuel count flag vp bank place s ret v) : v.nrFreePages ≤ s.nrFreePages := by
  rcases hvisit.cases with ⟨-, rfl⟩ | ⟨index, -, -, -, rfl⟩
  · exact le_rfl
  · simp only [Section.taken]
    omega

/-- Where only a failed search makes a request go on, nothing changes before its last visit. -/
theorem eq_of_misses
    (hnull : ∀ place s ret v, place.1 ∈ zones → Visit fuel count flag vp bank place s ret v →
      s.grant place ret = none → ret = .null)
    (h : ReflTransGen (Miss fuel count flag vp zones) bank bank') : bank' = bank := by
  induction h with
  | refl => rfl
  | tail _ hmiss ih =>
    obtain ⟨place, s, ret, v, hz, hvisit, hgrant, rfl⟩ := hmiss
    subst ih
    obtain rfl := hnull place s ret v hz hvisit hgrant
    rcases hvisit.cases with ⟨-, rfl⟩ | ⟨index, -, -, hret, -⟩
    · exact put_view hvisit.slot
    · split_ifs at hret

theorem eq_of_misses_page (h : ReflTransGen (Miss fuel count flag false zones) bank bank') :
    bank' = bank := by
  refine eq_of_misses (fun place s ret v _ hvisit hgrant => ?_) h
  rcases hvisit.cases with ⟨hret, -⟩ | ⟨index, -, -, rfl, -⟩
  · exact hret
  · simp [Section.grant] at hgrant

end Requests

section Frees

variable {fuel : ℕ} {bank bank' : MmBank}

/-- A free on a section: nothing happens for a page that heads no run, and otherwise the bits of
the run are cleared and a zone is credited. -/
def Freed (fuel : ℕ) (bank : MmBank) (place : Place) (s : Section) (page : ℕ) (bank' : MmBank) :
    Prop :=
  ((bank.page page).flag &&& gfpPageHeader = 0 ∧ bank' = bank) ∨
    ∃ id z v reads, getZoneId fuel (bank.page page).flag = some id ∧
    zoneOfId id = some z ∧
    sectionFreePages fuel (s.view bank) (page - s.pageTable) = some (v, reads) ∧
    bank' = (bank.put place s v).addFree z (bank.page page).count

variable {place : Place} {s : Section}

variable {page : ℕ}

theorem freeRun_freed (h : freeRun fuel bank place s page = some bank') :
    Freed fuel bank place s page bank' := by
  unfold freeRun at h
  simp only at h
  split_ifs at h with hhead
  · exact Or.inl ⟨hhead, (some.inj h).symm⟩
  · obtain ⟨id, hid, h⟩ := bind_eq_some_iff.mp h
    obtain ⟨z, hz, h⟩ := bind_eq_some_iff.mp h
    obtain ⟨⟨v, reads⟩, hfree, rfl⟩ := map_eq_some_iff.mp h
    exact Or.inr ⟨id, z, v, reads, hid, hz, hfree, rfl⟩

theorem pageGetSection_eq_some :
    pageGetSection bank page = some (place, s) ↔
      bank.sectionTable[(bank.page page).phyAddress &&& 0xff]? = some place ∧
        bank.slot place = some s := by
  simp only [pageGetSection, bind_eq_some_iff, map_eq_some_iff, Prod.mk.injEq]
  constructor
  · rintro ⟨p, htable, t, ht, rfl, rfl⟩
    exact ⟨htable, ht⟩
  · rintro ⟨htable, hs⟩
    exact ⟨place, htable, s, hs, rfl, rfl⟩

theorem releasePage_of_section (h : pageGetSection bank page = some (place, s)) :
    releasePage fuel bank page = freeRun fuel bank place s page := by
  simp only [releasePage, h]

theorem releasePage_freed (h : releasePage fuel bank page = some bank') :
    bank' = bank ∨ ∃ place s, pageGetSection bank page = some (place, s) ∧
      Freed fuel bank place s page bank' := by
  unfold releasePage at h
  cases hsection : pageGetSection bank page with
  | none =>
    simp only [hsection, some.injEq] at h
    exact Or.inl h.symm
  | some found =>
    obtain ⟨place, s⟩ := found
    simp only [hsection] at h
    exact Or.inr ⟨place, s, rfl, freeRun_freed h⟩

theorem mem_tabled :
    (place, s) ∈ bank.tabled ↔ place ∈ bank.sectionTable ∧ bank.slot place = some s := by
  simp only [MmBank.tabled, mem_filterMap, map_eq_some_iff, Prod.mk.injEq]
  constructor
  · rintro ⟨p, hp, t, ht, rfl, rfl⟩
    exact ⟨hp, ht⟩
  · rintro ⟨hp, hs⟩
    exact ⟨place, hp, s, hs, rfl, rfl⟩

theorem slot_of_vaGetSection {addr : ℕ} (h : vaGetSection bank addr = some (place, s)) :
    bank.slot place = some s :=
  (mem_tabled.mp (mem_of_find?_eq_some h)).2

end Frees

section Aligned

variable {fuel align flag : ℕ} {nr : ℤ} {bank bank' : MmBank} {g : Option Grant}

/-- A request for aligned pages: nothing, or a run of a section of the kernel zone, of which the
section keeps no account. -/
def Aligned (nr : ℤ) (flag : ℕ) (bank : MmBank) (g : Option Grant) (bank' : MmBank) : Prop :=
  (g = none ∧ bank' = bank) ∨ ∃ j s id, bank.slot (.kernel, j) = some s ∧
    g = some ⟨s.pageTable + id, (.kernel, j), s.pageTable + id⟩ ∧ 0 ≤ id + nr ∧
    (∀ i < nr.toNat, readBit (wordsFrom bank.words s.bitmap) ((id + i : ℕ) : ℤ) = 0) ∧
    bank' = (bank.put (.kernel, j) s (s.marked bank id nr.toNat flag)).addFree .kernel (-nr)

theorem findAlignLoop_clear {v : MmSection} {last count base id : ℕ}
    (h : findAlignLoop v last align count fuel base = some (some id)) :
    ∀ i < count, readBit v.bitmap ((id + i : ℕ) : ℤ) = 0 := by
  induction fuel generalizing base with
  | zero => simp [findAlignLoop] at h
  | succ fuel ih =>
    rw [findAlignLoop] at h
    simp only at h
    split_ifs at h with hlast hclear
    · simp only [some.injEq] at h
      subst h
      exact hclear
    · exact ih h
    · simp at h

/-- The loop of `__request_special_pages`. -/
theorem alignLoop_spec {rest : List Section} {j : ℕ}
    (hslots : ∀ i s, rest[i]? = some s → bank.slot (.kernel, j + i) = some s)
    (h : alignLoop fuel align nr flag rest j bank = some (g, bank')) :
    (g = none ∧ bank' = bank) ∨ ∃ j s id v, bank.slot (.kernel, j) = some s ∧
      findAlignPage fuel (s.view bank) s.size align nr flag = some (some (id, v)) ∧
      g = some ⟨s.pageTable + id, (.kernel, j), s.pageTable + id⟩ ∧
      bank' = bank.put (.kernel, j) s v := by
  induction rest generalizing j with
  | nil =>
    simp only [alignLoop, some.injEq, Prod.mk.injEq] at h
    exact Or.inl ⟨h.1.symm, h.2.symm⟩
  | cons s rest ih =>
    obtain ⟨found, hfound, h⟩ := bind_eq_some_iff.mp h
    cases found with
    | none =>
      refine ih (fun i t ht => ?_) h
      rw [Nat.add_assoc, Nat.add_comm 1 i]
      exact hslots (i + 1) t ht
    | some found =>
      obtain ⟨id, v⟩ := found
      simp only [some.injEq, Prod.mk.injEq] at h
      exact Or.inr ⟨j, s, id, v, hslots 0 s rfl, hfound, h.1.symm, h.2.symm⟩

/-- `get_free_pages_align`. -/
theorem getFreePagesAlign_aligned
    (h : getFreePagesAlign fuel nr align flag bank = some (g, bank')) :
    Aligned nr flag bank g bank' := by
  unfold getFreePagesAlign at h
  split_ifs at h with halign
  · simp only [some.injEq, Prod.mk.injEq] at h
    exact Or.inl ⟨h.1.symm, h.2.symm⟩
  · obtain ⟨id, hid, h⟩ := bind_eq_some_iff.mp h
    split_ifs at h with hzone
    · simp only [some.injEq, Prod.mk.injEq] at h
      exact Or.inl ⟨h.1.symm, h.2.symm⟩
    · obtain ⟨⟨g', bank₁⟩, hloop, hmap⟩ := map_eq_some_iff.mp h
      have hslots : ∀ i s,
          ((bank.zone .kernel).memorySection.take (bank.zone .kernel).nrSection)[i]? = some s →
          bank.slot (.kernel, 0 + i) = some s := by
        intro i s hs
        rw [Nat.zero_add]
        rw [getElem?_take] at hs
        split_ifs at hs
        exact hs
      obtain ⟨rfl, rfl⟩ | ⟨j, s, id', v, hs, hfound, rfl, rfl⟩ := alignLoop_spec hslots hloop
      · obtain ⟨rfl, rfl⟩ := Prod.mk.inj hmap
        exact Or.inl ⟨rfl, rfl⟩
      · obtain ⟨rfl, rfl⟩ := Prod.mk.inj hmap
        obtain ⟨_ | id'', hscan, hmade⟩ := bind_eq_some_iff.mp hfound
        · simp at hmade
        · simp only at hmade
          split_ifs at hmade with hneg
          cases hmade
          exact Or.inr ⟨j, s, id', hs, rfl, by omega, findAlignLoop_clear hscan, rfl⟩

end Aligned

section Layout

/-- A section with another cursor and no more free pages. -/
def Section.Like (s s' : Section) : Prop :=
  ∃ cur, ∃ free ≤ s.nrFreePages, s' = { s with bmCurrent := cur, nrFreePages := free }

/-- Two banks with the same layout. -/
structure MmBank.Like (bank bank' : MmBank) : Prop where
  table : bank'.sectionTable = bank.sectionTable
  slot : ∀ p s', bank'.slot p = some s' → ∃ s, bank.slot p = some s ∧ s.Like s'
  slot' : ∀ p s, bank.slot p = some s → ∃ s', bank'.slot p = some s' ∧ s.Like s'

theorem Section.Like.refl (s : Section) : s.Like s := ⟨_, _, le_rfl, rfl⟩

theorem Section.Like.trans {s s' s'' : Section} (h : s.Like s') (h' : s'.Like s'') :
    s.Like s'' := by
  obtain ⟨cur, free, hfree, rfl⟩ := h
  obtain ⟨cur', free', hfree', rfl⟩ := h'
  exact ⟨cur', free', hfree'.trans hfree, rfl⟩

theorem MmBank.Like.refl (bank : MmBank) : bank.Like bank :=
  ⟨rfl, fun _ s hs => ⟨s, hs, .refl s⟩, fun _ s hs => ⟨s, hs, .refl s⟩⟩

theorem MmBank.Like.trans {bank bank' bank'' : MmBank} (h : bank.Like bank')
    (h' : bank'.Like bank'') : bank.Like bank'' := by
  refine ⟨h'.table.trans h.table, fun p s'' hs'' => ?_, fun p s hs => ?_⟩
  · obtain ⟨s', hs', hlike'⟩ := h'.slot p s'' hs''
    obtain ⟨s, hs, hlike⟩ := h.slot p s' hs'
    exact ⟨s, hs, hlike.trans hlike'⟩
  · obtain ⟨s', hs', hlike⟩ := h.slot' p s hs
    obtain ⟨s'', hs'', hlike'⟩ := h'.slot' p s' hs'
    exact ⟨s'', hs'', hlike.trans hlike'⟩

theorem put_like {bank : MmBank} {place : Place} {s : Section} (hs : bank.slot place = some s)
    {v : MmSection} (hv : v.nrFreePages ≤ s.nrFreePages) : bank.Like (bank.put place s v) := by
  have hafter : s.Like (s.after v) := ⟨v.bmCurrent, v.nrFreePages, hv, rfl⟩
  refine ⟨rfl, fun p t ht => ?_, fun p t ht => ?_⟩
  · rw [slot_put hs] at ht
    split_ifs at ht with hp
    · obtain rfl := some.inj ht
      exact ⟨s, by rw [hp, hs], hafter⟩
    · exact ⟨t, ht, .refl t⟩
  · rw [slot_put hs]
    split_ifs with hp
    · rw [hp, hs] at ht
      obtain rfl := some.inj ht
      exact ⟨_, rfl, hafter⟩
    · exact ⟨t, ht, .refl t⟩

theorem addFree_like (bank : MmBank) (z : ZoneId) (n : ℤ) : bank.Like (bank.addFree z n) :=
  ⟨rfl, fun _ s hs => ⟨s, by rwa [slot_addFree] at hs, .refl s⟩,
    fun _ s hs => ⟨s, by rwa [slot_addFree], .refl s⟩⟩

end Layout

section Calls

variable {r r' : BankRun}

/-- What a call of a run can do. -/
inductive Move : BankCall → BankRun → BankRun → Prop
  | getFreePages {fuel : ℕ} {count : ℤ} {flag : ℕ} {r : BankRun} {g : Option Grant}
      {bank : MmBank} (h : Took fuel count.toNat flag true (requestZones fuel flag) r.bank g bank) :
      Move (.getFreePages fuel count flag) r (r.add count flag true (g, bank))
  | requestPages {fuel : ℕ} {count : ℤ} {flag : ℕ} {r : BankRun} {g : Option Grant}
      {bank : MmBank} (h : Took fuel count.toNat flag false (requestZones fuel flag) r.bank g bank) :
      Move (.requestPages fuel count flag) r (r.add count flag false (g, bank))
  | getFreePagesAlign {fuel : ℕ} {nr : ℤ} {align flag : ℕ} {r : BankRun} {g : Option Grant}
      {bank : MmBank} (h : Aligned nr flag r.bank g bank) :
      Move (.getFreePagesAlign fuel nr align flag) r (r.add nr flag false (g, bank))
  | freePages {fuel : ℕ} {r : BankRun} {a : Live} {bank : MmBank} (ha : a ∈ r.live)
      (hva : a.va = true)
      (h : bank = r.bank ∨ ∃ place s, vaGetSection r.bank a.grant.ret = some (place, s) ∧
        Freed fuel r.bank place s (s.vaToPage a.grant.ret) bank) :
      Move (.freePages fuel a.grant.ret) r ⟨bank, r.live.erase a⟩
  | releasePage {fuel : ℕ} {r : BankRun} {a : Live} {bank : MmBank} (ha : a ∈ r.live)
      (h : bank = r.bank ∨ ∃ place s, pageGetSection r.bank a.grant.head = some (place, s) ∧
        Freed fuel r.bank place s a.grant.head bank) :
      Move (.releasePage fuel a.grant.head) r ⟨bank, r.live.erase a⟩

/-- Every call of a run is such a move. -/
theorem BankRun.step_move {c : BankCall} (h : BankRun.step c r = some r') : Move c r r' := by
  cases c with
  | getFreePages fuel count flag =>
    obtain ⟨⟨g, bank⟩, hget, rfl⟩ := map_eq_some_iff.mp h
    exact .getFreePages (getFreePages_took hget)
  | requestPages fuel count flag =>
    obtain ⟨⟨g, bank⟩, hget, rfl⟩ := map_eq_some_iff.mp h
    exact .requestPages (requestPages_took hget)
  | getFreePagesAlign fuel nr align flag =>
    obtain ⟨⟨g, bank⟩, hget, rfl⟩ := map_eq_some_iff.mp h
    exact .getFreePagesAlign (getFreePagesAlign_aligned hget)
  | freePages fuel addr =>
    obtain ⟨a, hfind, h⟩ := bind_eq_some_iff.mp h
    obtain ⟨bank, hfree, rfl⟩ := map_eq_some_iff.mp h
    have hlive := find?_some hfind
    simp only [decide_eq_true_eq] at hlive
    obtain ⟨hva, rfl⟩ := hlive
    refine .freePages (mem_of_find?_eq_some hfind) hva ?_
    unfold Bank.freePages at hfree
    split_ifs at hfree with halign
    · exact Or.inl (some.inj hfree).symm
    · obtain ⟨⟨place, s⟩, hplace, hfree⟩ := bind_eq_some_iff.mp hfree
      exact Or.inr ⟨place, s, hplace, freeRun_freed hfree⟩
  | releasePage fuel page =>
    obtain ⟨a, hfind, h⟩ := bind_eq_some_iff.mp h
    obtain ⟨bank, hfree, rfl⟩ := map_eq_some_iff.mp h
    have hlive := find?_some hfind
    simp only [decide_eq_true_eq] at hlive
    subst hlive
    exact .releasePage (mem_of_find?_eq_some hfind) (releasePage_freed hfree)

@[simp] theorem bank_add (r : BankRun) (count : ℤ) (flag : ℕ) (va : Bool)
    (result : Option Grant × MmBank) : (r.add count flag va result).bank = result.2 := by
  obtain ⟨g, bank⟩ := result
  cases g <;> rfl

variable {bank : MmBank}

theorem Took.like {fuel count flag : ℕ} {vp : Bool} {zones : List ZoneId} {bank' : MmBank}
    {g : Option Grant} (h : Took fuel count flag vp zones bank g bank') : bank.Like bank' := by
  obtain ⟨bank₁, hmisses, hend⟩ := h
  have hlike : bank.Like bank₁ := invariant_of_misses
    (fun _ _ _ _ _ hlike hvisit => hlike.trans (put_like hvisit.slot hvisit.free_le)) (.refl bank)
    hmisses
  rcases hend with ⟨-, rfl⟩ | ⟨place, s, ret, v, grant, -, -, hvisit, -, -, rfl⟩
  · exact hlike
  · exact hlike.trans ((put_like hvisit.slot hvisit.free_le).trans (addFree_like _ _ _))

theorem Freed.like {fuel : ℕ} {bank' : MmBank} {place : Place} {s : Section} {page : ℕ}
    (hs : bank.slot place = some s) (h : Freed fuel bank place s page bank') : bank.Like bank' := by
  rcases h with ⟨-, rfl⟩ | ⟨id, z, v, reads, -, -, hfree, rfl⟩
  · exact .refl _
  · obtain ⟨cur, rfl⟩ := sectionFreePages_cleared hfree
    exact (put_like hs le_rfl).trans (addFree_like _ _ _)

theorem Move.like {c : BankCall} (h : Move c r r') : r.bank.Like r'.bank := by
  cases h with
  | getFreePages h =>
    rw [bank_add]
    exact h.like
  | requestPages h =>
    rw [bank_add]
    exact h.like
  | getFreePagesAlign h =>
    rw [bank_add]
    rcases h with ⟨-, rfl⟩ | ⟨j, s, id, hs, -, -, -, rfl⟩
    · exact .refl _
    · exact (put_like hs le_rfl).trans (addFree_like _ _ _)
  | freePages ha hva h =>
    rcases h with rfl | ⟨place, s, hs, hfreed⟩
    · exact .refl _
    · exact hfreed.like (slot_of_vaGetSection hs)
  | releasePage ha h =>
    rcases h with rfl | ⟨place, s, hs, hfreed⟩
    · exact .refl _
    · exact hfreed.like (pageGetSection_eq_some.mp hs).2

theorem run_like {calls : List BankCall} (h : Runs.run BankRun.step calls (.boot bank) = some r) :
    bank.Like r.bank := by
  have hstep : ∀ c (r r' : BankRun), bank.Like r.bank → BankRun.step c r = some r' →
      bank.Like r'.bank := fun _ _ _ hlike hstep => hlike.trans (BankRun.step_move hstep).like
  have hboot : bank.Like (BankRun.boot bank).bank := .refl bank
  exact Runs.invariant_of_run hstep hboot h

end Calls

end Chunos.Bank
