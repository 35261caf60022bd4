import Chunos.Mm.BankCursors

/-!
# The counters of the zones

When pages are taken, the zone they are taken from is charged. When they are given back, the zone
that is credited is read off the flag of the request, and how many pages there are off a field of
16 bits. So a request that another zone has served, or one for many pages, is not undone by giving
the pages back.
-/

namespace Chunos.Bank

open Listwise Runs List Option

section Layout

variable {info : SocMemoryInfo} {zone : ZoneId → Zone} {words : Bitmap} {page : ℕ → Page}
  {bank bank' : MmBank}

/-- The sections begin with pages, and those with free pages end below `2 ^ 31`. Each of those with
a size is at its number in the section table, which is one of 8 bits. -/
structure LayoutOk (bank : MmBank) : Prop where
  phyStart_dvd : ∀ place s, bank.slot place = some s → pageSize ∣ s.phyStart
  bmEnd_lt : ∀ place s, bank.slot place = some s → 0 < s.nrFreePages → s.bmEnd < 2 ^ 31
  id : ∀ place s, bank.slot place = some s → s.size ≠ 0 →
    bank.sectionTable[s.sectionTableId]? = some place
  id_lt : ∀ place s, bank.slot place = some s → s.size ≠ 0 → s.sectionTableId < 2 ^ 8

theorem LayoutOk.like (h : LayoutOk bank) (hlike : bank.Like bank') : LayoutOk bank' := by
  refine ⟨fun place s' hs' => ?_, fun place s' hs' hpos => ?_, fun place s' hs' hsize => ?_,
    fun place s' hs' hsize => ?_⟩
  all_goals obtain ⟨s, hs, cur, free, hfree, rfl⟩ := hlike.slot place s' hs'
  · exact h.phyStart_dvd place s hs
  · exact h.bmEnd_lt place s hs (hpos.trans_le hfree)
  · rw [hlike.table]
    exact h.id place s hs hsize
  · exact h.id_lt place s hs hsize

/-- Where the sections of a bank begin. -/
theorem Built.phyStart_dvd (hbuilt : Built info zone words page bank)
    (hphy : ∀ z, ∀ s ∈ (zone z).memorySection, pageSize ∣ s.phyStart)
    (hcut : ∀ s ∈ (zone .kernel).memorySection, s.Cuttable) (z : ZoneId) :
    ∀ s ∈ (bank.zone z).memorySection, pageSize ∣ s.phyStart := by
  have hbooted : ∀ s ∈ bootedKernel info zone, pageSize ∣ s.phyStart :=
    forall_bootedKernel fun t ht _ _ _ _ => hphy .kernel t ht
  refine hbuilt.forall_section (fun _ _ h => h) (fun z s hs _ _ => hphy z s hs)
    (fun s hs => ⟨?_, fun hshort => ?_⟩) z
  · rw [Section.kept]
    split_ifs
    · rw [mappedSection]
      split_ifs
      · exact dvd_zero _
      · exact hbooted s hs
    · exact hbooted s hs
  · have hdvd := (bootedKernel_cuttable hcut s hs).maped_dvd hshort
    have hstart := hbooted s hs
    simp only [userSection, u32, pageSize] at hdvd hstart ⊢
    omega

/-- How many sections a bank has. -/
theorem Built.length_le (hbuilt : Built info zone words page bank)
    (hlength : ∀ z, (zone z).memorySection.length ≤ zoneMaxSection) (z : ZoneId) :
    (bank.zone z).memorySection.length ≤ zoneMaxSection := by
  have htables : ∀ (l : List Section) (pg bm : ℕ), (tables l pg bm).length = l.length := by
    intro l pg bm
    have h := congrArg List.length (map_tables (f := fun _ => ()) (fun _ _ _ => rfl) l pg bm)
    rwa [length_map, length_map] at h
  have hbooted : (bootedKernel info zone).length = (zone .kernel).memorySection.length := by
    rw [bootedKernel, length_modify, htables]
  have hkernel := hlength .kernel
  cases z with
  | kernel =>
    obtain ⟨l, hl, hz⟩ := hbuilt.kernel
    rw [hz, ← hl.length_eq, length_map, hbooted]
    exact hkernel
  | dma =>
    obtain ⟨l, hl, hz⟩ := hbuilt.dma
    rw [hz, ← hl.length_eq, tabledZones, htables]
    exact hlength .dma
  | res =>
    obtain ⟨l, hl, hz⟩ := hbuilt.res
    rw [hz, ← hl.length_eq, tabledZones, htables]
    exact hlength .res
  | user =>
    obtain ⟨l, hl, hz⟩ := hbuilt.user
    have hfilter := (bootedKernel info zone).length_filter_le fun s => decide s.Short
    rw [hz, ← hl.length_eq, userSections, length_map]
    omega

/-- The layout that `mm_init` makes of registered regions. -/
theorem mmInit_layoutOk {junk : ℤ} (hinfo : info.Registered)
    (h : mmInit junk info words page = some bank) : LayoutOk bank := by
  obtain ⟨zone, hzone, hbuilt⟩ := mmInit_built hinfo.ok h
  have hanalysed := analyseSocMemoryInfo_analysed hinfo.ok hzone
  have hcounters := mapMemory_counters hanalysed junk info.kernelPhysicalStart
  have hphy : ∀ z, ∀ s ∈ (mapMemory junk info.kernelPhysicalStart zone z).memorySection,
      pageSize ∣ s.phyStart := by
    intro z s hs
    obtain ⟨-, t, ht, hgiven⟩ := (hcounters z).2.1 s hs
    rw [hgiven.same.1]
    exact (by decide : pageSize ∣ 2 ^ 16).trans (hanalysed.fresh z t ht).phyStart_dvd
  have hlength : ∀ z, (mapMemory junk info.kernelPhysicalStart zone z).memorySection.length ≤
      zoneMaxSection := by
    intro z
    have h := congrArg List.length (hcounters z).2.2.2.2
    rw [length_map, length_map] at h
    rw [h, ← hanalysed.nrSection_eq]
    exact hanalysed.nrSection_le z
  have hfew := hbuilt.length_le hlength
  refine ⟨fun place s hs => ?_, fun place s hs hpos => ?_,
    fun place s hs hsize => hbuilt.table.id place.1 place.2 s hs hsize, fun place s hs hsize => ?_⟩
  · exact hbuilt.phyStart_dvd hphy (hcounters .kernel).1 place.1 s (mem_of_getElem? hs)
  · obtain ⟨hend, hfree, -⟩ := mmInit_start hinfo h hs
    have hlt := mmInit_nrPage_lt hinfo h hs
    rw [hend, u32_eq (by omega) (by omega)]
    omega
  · have hlt := (List.getElem?_eq_some_iff.mp (hbuilt.table.id place.1 place.2 s hs hsize)).1
    have hle := hbuilt.table.length_le
    have hK := hfew .kernel
    have hD := hfew .dma
    have hR := hfew .res
    have hU := hfew .user
    simp only [zoneMaxSection] at hK hD hR hU
    omega

theorem phyAddress_and_mask {a id : ℕ} (ha : pageSize ∣ a) (hid : id < 2 ^ 8) :
    (a % 2 ^ 32 ||| id) &&& 0xff = id := by
  obtain ⟨k, rfl⟩ := ha
  have hmask : ∀ x : ℕ, x &&& 0xff = x % 2 ^ 8 := fun x => Nat.and_two_pow_sub_one_eq_mod x 8
  rw [Nat.and_or_distrib_right, hmask, hmask, Nat.mod_eq_of_lt hid]
  have hzero : pageSize * k % 2 ^ 32 % 2 ^ 8 = 0 := by
    simp only [pageSize]
    omega
  rw [hzero, Nat.zero_or]

end Layout

section Zones

theorem getZoneId_head (fuel flag : ℕ) :
    getZoneId fuel (flag ||| gfpPageHeader) = getZoneId fuel flag := by
  rw [getZoneId, Nat.and_or_distrib_right, (by decide : gfpPageHeader &&& gfpZoneIdMask = 0),
    Nat.or_zero]
  rfl

theorem getZoneId_unique {fuel fuel' flag id id' : ℕ} (h : getZoneId fuel flag = some id)
    (h' : getZoneId fuel' flag = some id') : id = id' := by
  have hmax : ∀ {f i : ℕ}, getZoneId f flag = some i → f ≤ max fuel fuel' →
      getZoneId (max fuel fuel') flag = some i := by
    intro f i hf hle
    obtain ⟨hlt, hshift⟩ := getZoneId_eq_some_iff.mp hf
    exact getZoneId_eq_some_iff.mpr ⟨by omega, hshift⟩
  have hsame := (hmax h (le_max_left _ _)).symm.trans (hmax h' (le_max_right _ _))
  exact some.inj hsame

/-- The zone that a flag names. -/
def flagZone (fuel flag : ℕ) : Option ZoneId := (getZoneId fuel flag).bind zoneOfId

end Zones

section Served

variable {fuel count flag : ℕ} {bank bank' : MmBank}

/-- A section of the zone has a run of free pages that the search finds, and the counters of the
section and of the zone admit the request. -/
def MmBank.Serves (bank : MmBank) (fuel count : ℕ) (z : ZoneId) : Prop :=
  count ≤ (bank.zone z).nrFreePages ∧ ∃ s ∈ (bank.zone z).memorySection,
    s.size ≠ 0 ∧ count ≤ s.nrFreePages ∧
      ∃ x ∈ bitmapFindFreeBase fuel (wordsFrom bank.words s.bitmap) (wrap32 s.bmCurrent) 0
        s.nrPage.toNat count, 0 ≤ x.1

/-- This can be computed. -/
instance (bank : MmBank) (fuel count : ℕ) (z : ZoneId) : Decidable (bank.Serves fuel count z) :=
  inferInstanceAs (Decidable (_ ∧ _))

variable {grant : Grant} {z : ZoneId}

theorem Section.grant_place {s : Section} {place : Place} {ret : PagesRet}
    (h : s.grant place ret = some grant) : grant.place = place := by
  cases ret with
  | null => simp [Section.grant] at h
  | va addr =>
    simp only [Section.grant] at h
    split_ifs at h
    exact (some.inj h) ▸ rfl
  | page index => exact (some.inj h) ▸ rfl

/-- When the loop over the sections ends without pages, no search has found any. -/
theorem sectionLoop_none {rest : List Section} {j : ℕ}
    (hslots : ∀ i s, rest[i]? = some s → bank.slot (z, j + i) = some s)
    (h : sectionLoop fuel count flag false z rest j bank = some (none, bank')) :
    ∀ s ∈ rest, s.size ≠ 0 → count ≤ s.nrFreePages →
      ∀ x ∈ bitmapFindFreeBase fuel (wordsFrom bank.words s.bitmap) (wrap32 s.bmCurrent) 0
        s.nrPage.toNat count, x.1 < 0 := by
  induction rest generalizing j with
  | nil => simp
  | cons s rest ih =>
    have htail : ∀ i t, rest[i]? = some t → bank.slot (z, j + 1 + i) = some t := by
      intro i t ht
      rw [Nat.add_assoc, Nat.add_comm 1 i]
      exact hslots (i + 1) t ht
    rw [sectionLoop] at h
    split_ifs at h with hskip
    · intro t ht hsize hfree
      rcases mem_cons.mp ht with rfl | ht
      · exact absurd hskip (by simp only [hsize, false_or]; omega)
      · exact ih htail h t ht hsize hfree
    · obtain ⟨⟨ret, v, reads⟩, hfound, h⟩ := bind_eq_some_iff.mp h
      obtain ⟨base, hfind, ⟨hneg, rfl, rfl⟩ | ⟨index, -, rfl, -⟩⟩ :=
        getFreePagesFromSection_eq hfound
      · have hs : bank.slot (z, j) = some s := hslots 0 s rfl
        simp only [Section.grant, put_view hs] at h
        intro t ht hsize hfree
        rcases mem_cons.mp ht with rfl | ht
        · intro x hx
          obtain rfl := some.inj (hfind.symm.trans hx)
          exact hneg
        · exact ih htail h t ht hsize hfree
      · simp [Section.grant] at h

theorem getFreePagesFromZone_none
    (h : getFreePagesFromZone fuel count flag false bank z = some (none, bank')) :
    ¬ bank.Serves fuel count z := by
  rintro ⟨hfree, s, hs, hsize, hcount, x, hx, hpos⟩
  unfold getFreePagesFromZone at h
  split_ifs at h with hfew
  · omega
  · obtain ⟨⟨g, bank₁⟩, hloop, hmap⟩ := map_eq_some_iff.mp h
    have hslots : ∀ i s, (bank.zone z).memorySection[i]? = some s →
        bank.slot (z, 0 + i) = some s := by
      intro i s hs
      rw [Nat.zero_add]
      exact hs
    cases g with
    | some grant => simp at hmap
    | none =>
      have hneg := sectionLoop_none hslots hloop s hs hsize hcount x hx
      omega

theorem flagZone_of_requestPages {count : ℤ}
    (hreq : requestPages fuel count flag bank = some (some grant, bank')) :
    ∃ z, flagZone fuel flag = some z := by
  unfold requestPages at hreq
  split_ifs at hreq
  · simp at hreq
  · obtain ⟨id, hid, hreq⟩ := bind_eq_some_iff.mp hreq
    cases hz : zoneOfId id with
    | none => simp [hz] at hreq
    | some z => exact ⟨z, by rw [flagZone, hid, bind_some, hz]⟩

/-- The pages of a request come from the zone of its flag exactly when this zone serves it. -/
theorem requestPages_place_iff {count : ℤ} {place : Place} {s : Section} {ret : PagesRet}
    {v : MmSection} (hz : flagZone fuel flag = some z)
    (hreq : requestPages fuel count flag bank = some (some grant, bank'))
    (hfree : count.toNat ≤ (bank.zone place.1).nrFreePages)
    (hvisit : Visit fuel count.toNat flag false bank place s ret v)
    (hgrant : s.grant place ret = some grant) : place.1 = z ↔ bank.Serves fuel count.toNat z := by
  constructor
  · rintro rfl
    refine ⟨hfree, s, mem_of_getElem? hvisit.slot, hvisit.size, hvisit.free, ?_⟩
    rcases hvisit.cases with ⟨rfl, -⟩ | ⟨index, -, ⟨reads, hfind⟩, -, -⟩
    · simp [Section.grant] at hgrant
    · exact ⟨_, hfind, Int.natCast_nonneg index⟩
  · intro hserves
    obtain ⟨id, hid, hzone⟩ := bind_eq_some_iff.mp hz
    have hpos : ¬ count < 0 := by
      intro hneg
      simp [requestPages, hneg] at hreq
    rw [requestPages, if_neg hpos] at hreq
    simp only [getFreePagesAny, hid, bind_some, hzone] at hreq
    obtain ⟨rest, hrest⟩ : ∃ rest, zonesFrom z = z :: rest := by
      cases z <;> exact ⟨_, rfl⟩
    rw [hrest, zoneLoop] at hreq
    obtain ⟨⟨g, bank₁⟩, hfirst, hreq⟩ := bind_eq_some_iff.mp hreq
    cases g with
    | none => exact absurd hserves (getFreePagesFromZone_none hfirst)
    | some grant' =>
      cases hreq
      obtain ⟨bank₂, -, hend⟩ := getFreePagesFromZone_took hfirst
      rcases hend with ⟨hnone, -⟩ | ⟨p, t, ret', v', grant'', hp, -, -, hg, heq, -⟩
      · simp at hnone
      · obtain rfl := some.inj heq
        rw [← Section.grant_place hgrant, Section.grant_place hg]
        exact mem_singleton.mp hp

end Served

section Credit

variable {fuel flag : ℕ} {bank bank' : MmBank}

/-- What a request for entries of pages leaves: the zone of the section is charged, the section
table leads from the first page back to the section, whose cursor is an `int`, and this page has
the flag and the length. -/
structure Charged (flag count : ℕ) (bank : MmBank) (grant : Grant) (bank' : MmBank) : Prop where
  count_pos : 1 ≤ count
  counters : ∀ z, (bank'.zone z).nrFreePages =
    (bank.zone z).nrFreePages - if z = grant.place.1 then count else 0
  place : ∃ s, pageGetSection bank' grant.head = some (grant.place, s) ∧ s.bmCurrent < 2 ^ 31
  count_eq : (bank'.page grant.head).count = count % 2 ^ 16
  flag_eq : (bank'.page grant.head).flag = flag ||| gfpPageHeader

theorem page_put (bank : MmBank) (place : Place) (s : Section) (v : MmSection) (i : ℕ) :
    (bank.put place s v).page (s.pageTable + i) = v.pageTable i := by
  simp [MmBank.put]

variable {count fuel' : ℕ} {grant : Grant} {z : ZoneId}

/-- `page_get_section` on the pages of a run that has been marked. -/
theorem pageGetSection_marked {place : Place} {s : Section} {v : MmSection} {index k : ℕ}
    (hlayout : LayoutOk bank) (hs : bank.slot place = some s) (hsize : s.size ≠ 0) (hk : k < count)
    (hv : v.pageTable = initPages (s.view bank) index count flag) :
    pageGetSection (bank.put place s v) (s.pageTable + (index + k)) = some (place, s.after v) := by
  rw [pageGetSection_eq_some, page_put, hv, initPages_page hk]
  refine ⟨?_, by rw [slot_put hs, if_pos rfl]⟩
  have hphy : pageSize ∣ (s.view bank).phyStart + (index + k) * pageSize :=
    (hlayout.phyStart_dvd place s hs).add (Dvd.intro_left _ rfl)
  have hid : (s.view bank).sectionTableId < 2 ^ 8 := hlayout.id_lt place s hs hsize
  simp only [phyAddress_and_mask hphy hid]
  exact hlayout.id place s hs hsize

/-- `request_pages` charges the zone of the section. -/
theorem requestPages_charged {count : ℤ} (hlayout : LayoutOk bank)
    (hreq : requestPages fuel count flag bank = some (some grant, bank')) :
    Charged flag count.toNat bank grant bank' ∧
      ∀ z, flagZone fuel flag = some z → (grant.place.1 = z ↔ bank.Serves fuel count.toNat z) := by
  obtain ⟨bank₁, hmisses, hend⟩ := requestPages_took hreq
  obtain rfl := eq_of_misses_page hmisses
  rcases hend with ⟨hnone, -⟩ | ⟨place, s, ret, v, g, -, hfree, hvisit, hgrant, heq, hbank'⟩
  · simp at hnone
  · obtain rfl := some.inj heq
    have hplace := Section.grant_place hgrant
    refine ⟨?_, fun z hz => ?_⟩
    · rcases hvisit.cases with ⟨rfl, -⟩ | ⟨index, hcount, -, rfl, rfl⟩
      · simp [Section.grant] at hgrant
      · simp only [Bool.false_eq_true, if_false, Section.grant, some.injEq] at hgrant
        subst hgrant hbank'
        have hhead : (bank₁.put place s (s.taken bank₁ index count.toNat flag)).page
            (s.pageTable + index) = initPages (s.view bank₁) index count.toNat flag index :=
          page_put _ _ _ _ _
        refine ⟨hcount, fun z => ?_, ⟨s.after (s.taken bank₁ index count.toNat flag), ?_, ?_⟩, ?_, ?_⟩
        · rw [nrFreePages_addFree, nrFreePages_put]
          split_ifs <;> omega
        · have hv : (s.taken bank₁ index count.toNat flag).pageTable =
              initPages (s.view bank₁) index count.toNat flag := rfl
          refine Eq.trans ?_ (pageGetSection_marked hlayout hvisit.slot hvisit.size hcount hv)
          simp only [pageGetSection, sectionTable_addFree, page_addFree, slot_addFree, Nat.add_zero]
        · have hend := hlayout.bmEnd_lt place s hvisit.slot (by have := hvisit.free; omega)
          simp only [Section.after, Section.taken]
          split_ifs <;> omega
        · rw [page_addFree, hhead]
          exact (initPages_head hcount).1
        · rw [page_addFree, hhead]
          exact (initPages_head hcount).2
    · rw [hplace]
      exact requestPages_place_iff hz hreq hfree hvisit hgrant

/-- The counters after pages have been taken and given back. -/
theorem Charged.released {bank'' : MmBank} (h : Charged flag count bank grant bank')
    (hz : flagZone fuel flag = some z) (hrel : releasePage fuel' bank' grant.head = some bank'')
    (z' : ZoneId) :
    (bank''.zone z').nrFreePages = (bank.zone z').nrFreePages -
      (if z' = grant.place.1 then count else 0) + if z' = z then (count % 2 ^ 16 : ℕ) else 0 := by
  obtain ⟨s, hs, -⟩ := h.place
  rw [releasePage_of_section hs] at hrel
  rcases freeRun_freed hrel with ⟨hhead, -⟩ | ⟨id, z₁, v, reads, hid, hz₁, -, rfl⟩
  · rw [h.flag_eq, Nat.and_or_distrib_right, Nat.and_self] at hhead
    have hpos := Nat.right_le_or (n := flag &&& gfpPageHeader) (m := gfpPageHeader)
    rw [hhead] at hpos
    exact absurd hpos (by decide)
  · obtain ⟨id', hid', hz'⟩ := bind_eq_some_iff.mp hz
    rw [h.flag_eq, getZoneId_head] at hid
    obtain rfl := getZoneId_unique hid' hid
    obtain rfl := some.inj (hz'.symm.trans hz₁)
    rw [nrFreePages_addFree, nrFreePages_put, h.counters, h.count_eq]
    push_cast
    rfl

/-- `release_page` returns when some page below the cursor of the section stays in use. -/
theorem Charged.returns {s : Section} (h : Charged flag count bank grant bank')
    (hz : flagZone fuel flag = some z)
    (hs : pageGetSection bank' grant.head = some (grant.place, s))
    (hused : ((s.view bank').cleared (grant.head - s.pageTable)).UsedBelow)
    (hcur : s.bmCurrent < 2 ^ 31) (hfuel : s.bmCurrent ≤ fuel') (hfour : 4 ≤ fuel') :
    ∃ bank'', releasePage fuel' bank' grant.head = some bank'' := by
  obtain ⟨id, hid, hz'⟩ := bind_eq_some_iff.mp hz
  have hid' : getZoneId fuel' (bank'.page grant.head).flag = some id := by
    obtain ⟨-, hshift⟩ := getZoneId_eq_some_iff.mp hid
    have hlt : id < 4 := by
      by_contra hge
      obtain ⟨k, rfl⟩ : ∃ k, id = k + 4 := ⟨id - 4, by omega⟩
      simp [zoneOfId] at hz'
    rw [h.flag_eq, getZoneId_head]
    exact getZoneId_eq_some_iff.mpr ⟨by omega, hshift⟩
  obtain ⟨⟨v, reads⟩, hfree⟩ := sectionFreePages_returns hused hcur hfuel
  rw [releasePage_of_section hs, freeRun]
  simp only [hid', hz', hfree, bind_some, map_some]
  split_ifs
  · exact ⟨_, rfl⟩
  · exact ⟨_, rfl⟩

/-- In every state that a run reaches, for every flag and every number of pages that
`request_pages` finds: giving them back returns without a look in front of the section, and
restores the counters of all zones, exactly when the zone of the flag has served the request, there
are fewer than 65536 pages, and the cursor is 0 or some page below it stays in use. -/
theorem releasePage_restores_iff {junk : ℤ} {info : SocMemoryInfo} {words : Bitmap}
    {page : ℕ → Page} (hinfo : info.Registered) (hinit : mmInit junk info words page = some bank)
    {calls : List BankCall} {r : BankRun} (hrun : run BankRun.step calls (.boot bank) = some r)
    {count : ℤ} {grant : Grant} {bank' : MmBank}
    (hreq : requestPages fuel count flag r.bank = some (some grant, bank')) :
    ∃ z s, flagZone fuel flag = some z ∧ pageGetSection bank' grant.head = some (grant.place, s) ∧
      ((∃ fuel' bank'' v reads, releasePage fuel' bank' grant.head = some bank'' ∧
          sectionFreePages fuel' (s.view bank') (grant.head - s.pageTable) = some (v, reads) ∧
          (∀ i ∈ reads, 0 ≤ i) ∧
          ∀ z', (bank''.zone z').nrFreePages = (r.bank.zone z').nrFreePages) ↔
        r.bank.Serves fuel count.toNat z ∧ count < 2 ^ 16 ∧
          ((s.view bank').cleared (grant.head - s.pageTable)).UsedBelow) := by
  have hlayout := (mmInit_layoutOk hinfo hinit).like (run_like hrun)
  obtain ⟨hcharged, hserves⟩ := requestPages_charged hlayout hreq
  obtain ⟨z, hz⟩ := flagZone_of_requestPages hreq
  obtain ⟨s, hs, hcur⟩ := hcharged.place
  have hpos := hcharged.count_pos
  refine ⟨z, s, hz, hs, ?_⟩
  rw [← hserves z hz]
  constructor
  · rintro ⟨fuel', bank'', v, reads, hrel, hfree, hreads, hall⟩
    have hcharge := hall grant.place.1
    rw [hcharged.released hz hrel, if_pos rfl] at hcharge
    have hused := (sectionFreePages_ends_iff (s := s.view bank') hcur).mp
      ⟨fuel', v, reads, hfree, hreads⟩
    split_ifs at hcharge with hsame
    · exact ⟨hsame, by omega, hused⟩
    · omega
  · rintro ⟨hsame, hlt, hused⟩
    have hint : (s.view bank').bmCurrent < 2 ^ 31 := hcur
    obtain ⟨bank'', hrel⟩ := hcharged.returns hz hs hused hcur (le_max_left _ 4) (le_max_right _ _)
    obtain ⟨⟨v, reads⟩, hfree⟩ := sectionFreePages_returns hused hint (le_max_left _ 4)
    refine ⟨_, bank'', v, reads, hrel, hfree, fun i hi => ?_, fun z' => ?_⟩
    · exact ((sectionFreePages_spec hused hint hfree).2 i hi).1
    · rw [hcharged.released hz hrel, hsame]
      split_ifs <;> omega

/-- Two pages of the kernel zone of the small platform are taken and given back. -/
theorem releasePage_restores_iff_smallBoard :
    ∃ bank grant bank', mmInit 0 smallBoard (fun _ => 0) (fun _ => zeroPage) = some bank ∧
      requestPages 8 2 1 bank = some (some grant, bank') ∧
      ∃ fuel' bank'', releasePage fuel' bank' grant.head = some bank'' ∧
        ∀ z, (bank''.zone z).nrFreePages = (bank.zone z).nrFreePages := by
  obtain ⟨bank, hbank, ⟨_, bank'⟩, hreq, grant, rfl, hserves, hzone, x, hplace, hused⟩ :
      ∃ bank, mmInit 0 smallBoard (fun _ => 0) (fun _ => zeroPage) = some bank ∧
        ∃ x, requestPages 8 2 1 bank = some x ∧ ∃ grant, x.1 = some grant ∧
          bank.Serves 8 2 .kernel ∧ flagZone 8 1 = some .kernel ∧
          ∃ y, pageGetSection x.2 grant.head = some y ∧
            ((y.2.view x.2).cleared (grant.head - y.2.pageTable)).UsedBelow := by
    decide +kernel
  have hrun : run BankRun.step [] (.boot bank) = some (.boot bank) := rfl
  obtain ⟨z, s, hz, hs, hiff⟩ :=
    releasePage_restores_iff smallBoard_usable.registered hbank hrun hreq
  cases hzone.symm.trans hz
  cases hplace.symm.trans hs
  obtain ⟨fuel', bank'', v, reads, hrel, -, -, hall⟩ := hiff.mpr ⟨hserves, by decide, hused⟩
  exact ⟨bank, grant, bank', hbank, hreq, fuel', bank'', hrel, hall⟩

/-- The small platform has no user zone. A page for a user is taken from the kernel zone and given
back to the user zone. -/
theorem smallBoard_releasePage :
    ∃ bank grant bank' bank'', mmInit 0 smallBoard (fun _ => 0) (fun _ => zeroPage) = some bank ∧
      requestPages 8 1 8 bank = some (some grant, bank') ∧
      releasePage 8 bank' grant.head = some bank'' ∧
      (bank''.zone .kernel).nrFreePages = (bank.zone .kernel).nrFreePages - 1 ∧
      (bank''.zone .user).nrFreePages = (bank.zone .user).nrFreePages + 1 := by
  obtain ⟨bank, hbank, ⟨_, bank'⟩, hreq, grant, rfl, bank'', hrel, hfree⟩ :
      ∃ bank, mmInit 0 smallBoard (fun _ => 0) (fun _ => zeroPage) = some bank ∧
        ∃ x, requestPages 8 1 8 bank = some x ∧ ∃ grant, x.1 = some grant ∧
          ∃ bank'', releasePage 8 x.2 grant.head = some bank'' ∧
            (bank''.zone .kernel).nrFreePages = (bank.zone .kernel).nrFreePages - 1 ∧
            (bank''.zone .user).nrFreePages = (bank.zone .user).nrFreePages + 1 := by
    decide +kernel
  exact ⟨bank, grant, bank', bank'', hbank, hreq, hrel, hfree⟩

end Credit

end Chunos.Bank
