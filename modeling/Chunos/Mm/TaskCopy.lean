import Chunos.Mm.TaskSections

/-!
# The memory of the child after a fork

`task_mm_copy_task_memory` first gives the sections of the child as many pages as the parent
counts and then copies one section after the other. The copies do not disturb one another,
so what the child finds in its memory can be said section by section, from the state before
the call.
-/

namespace Chunos.TaskMm

open Pgt Function List Option

variable {β : Type*} {new new' parent : MmStruct} {m m' : Machine β}
  {ndir ndir' pdir : ℕ → Option ℕ} {nown nown' pown : ℕ → Prop}

/-- A section after `section_get_memory` has taken `n` pages from the supply. -/
structure PagesTaken (n : ℕ) (sec sec' : TaskMmSection) (m m' : Machine β) : Prop where
  base : sec'.baseAddr = sec.baseAddr
  pages : sec'.allocMem = sec.allocMem ++ m.frames.supply.take n
  count : sec'.allocPages = sec.allocPages + n
  enough : n ≤ m.frames.supply.length
  frames : m'.frames = { m.frames with supply := m.frames.supply.drop n }
  data : m'.data = m.data
  kernelData : m'.kernelData = m.kernelData

variable {sec : TaskMmSection} {ids : List SectionId} {i : SectionId} {a : ℕ}

/-- The loop of `section_get_memory` takes the pages in order. -/
theorem requestLoop_spec {count : ℕ} {sec' : TaskMmSection} {ret : ℤ}
    (h : requestLoop count sec m = (ret, sec', m')) (hret : ret ≠ -enomem) :
    ret = 0 ∧ PagesTaken count sec sec' m m' := by
  induction count generalizing sec m with
  | zero =>
    simp only [requestLoop] at h
    cases h
    exact ⟨rfl, ⟨rfl, by simp, by simp, Nat.zero_le _, rfl, rfl, rfl⟩⟩
  | succ count ih =>
    unfold requestLoop requestPage at h
    cases hsupply : m.frames.supply with
    | nil =>
      simp only [hsupply, Prod.mk.injEq] at h
      exact absurd h.1.symm hret
    | cons page supply =>
      simp only [hsupply] at h
      obtain ⟨rfl, htaken⟩ := ih h
      refine ⟨rfl, ⟨htaken.base, ?_, ?_, ?_, htaken.frames.trans ?_, htaken.data,
        htaken.kernelData⟩⟩
      · rw [htaken.pages]
        simp [hsupply]
      · rw [htaken.count]
        push_cast
        ring
      · have henough := htaken.enough
        simp only [hsupply, length_cons]
        exact Nat.succ_le_succ henough
      · simp [hsupply]

/-- `section_get_memory`. Pages are taken when the count is positive. -/
theorem sectionGetMemory_spec {count : ℤ} {sec' : TaskMmSection} {ret : ℤ}
    (h : sectionGetMemory count sec m = some (ret, sec', m')) (hret : ret ≠ -enomem) :
    ret = 0 ∧ PagesTaken count.toNat sec sec' m m' := by
  have hnone : count.toNat = 0 → ∀ released : List ℕ,
      PagesTaken count.toNat sec sec m { m with released := released } := by
    intro hzero released
    rw [hzero]
    exact ⟨rfl, by simp, by simp, Nat.zero_le _, rfl, rfl, rfl⟩
  unfold sectionGetMemory at h
  split_ifs at h with hzero hpos
  · cases h
    exact ⟨rfl, hnone (by omega) m.released⟩
  · exact requestLoop_spec (some.inj h) hret
  · rw [map_eq_some_iff] at h
    obtain ⟨page, -, hres⟩ := h
    cases hres
    exact ⟨rfl, hnone (by omega) _⟩

/-- The pages that the sections in a list take from the supply, one section after the other. -/
def granted (need : SectionId → ℕ) : List SectionId → List ℕ → SectionId → List ℕ
  | [], _, _ => []
  | i :: ids, supply, j =>
    if j = i then supply.take (need i) else granted need ids (supply.drop (need i)) j

/-- The pages that a section of the child needs. -/
def needed (new parent : MmStruct) (i : SectionId) : ℕ :=
  ((parent.mmSection i).allocPages - (new.mmSection i).allocPages).toNat

theorem granted_of_notMem (need : SectionId → ℕ) {j : SectionId} (hj : j ∉ ids) (supply : List ℕ) :
    granted need ids supply j = [] := by
  induction ids generalizing supply with
  | nil => rfl
  | cons i ids ih =>
    rw [granted, if_neg (ne_of_not_mem_cons hj), ih (not_mem_of_not_mem_cons hj)]

theorem granted_congr {need need' : SectionId → ℕ} (h : ∀ i ∈ ids, need i = need' i)
    (supply : List ℕ) (j : SectionId) : granted need ids supply j = granted need' ids supply j := by
  induction ids generalizing supply with
  | nil => rfl
  | cons i ids ih =>
    rw [granted, granted, h i mem_cons_self, ih (fun k hk => h k (mem_cons_of_mem i hk))]

theorem pages_update_perm (new : MmStruct) (i : SectionId) {extra : List ℕ}
    (h : sec.allocMem = (new.mmSection i).allocMem ++ extra) :
    (pages { new with mmSection := update new.mmSection i sec }).Perm
      (pages new ++ extra) := by
  rw [perm_iff_count]
  intro page
  cases i <;>
    simp [pages, sectionIds, update, h, List.count_append] <;> omega

/-- The child after its sections have got their pages. -/
structure Allocated (new new' : MmStruct) (m m' : Machine β) (extra : SectionId → List ℕ) :
    Prop where
  pageTable : new'.pageTable = new.pageTable
  base : ∀ i, (new'.mmSection i).baseAddr = (new.mmSection i).baseAddr
  allocMem : ∀ i, (new'.mmSection i).allocMem = (new.mmSection i).allocMem ++ extra i
  count : ∀ i, (new'.mmSection i).allocPages = (new.mmSection i).allocPages + (extra i).length
  perm : (pages new' ++ m'.frames.supply).Perm (pages new ++ m.frames.supply)
  word : m'.frames.word = m.frames.word
  mapAddress : m'.frames.mapAddress = m.frames.mapAddress
  suffix : m'.frames.supply <:+ m.frames.supply
  data : m'.data = m.data
  kernelData : m'.kernelData = m.kernelData

/-- The loop over the sections. -/
theorem allocSections_spec (hids : ids.Nodup)
    (h : allocSections parent ids new m = some (0, new', m')) :
    Allocated new new' m m' (granted (needed new parent) ids m.frames.supply) := by
  induction ids generalizing new m with
  | nil =>
    simp only [allocSections, some.injEq, Prod.mk.injEq, true_and] at h
    obtain ⟨rfl, rfl⟩ := h
    constructor <;> simp [granted]
  | cons i ids ih =>
    obtain ⟨hi, hids'⟩ := nodup_cons.mp hids
    unfold allocSections at h
    rw [bind_eq_some_iff] at h
    obtain ⟨⟨ret, sec, m₁⟩, hget, hrest⟩ := h
    by_cases hret : ret = -enomem
    · simp [hret, enomem] at hrest
    simp only [if_neg hret] at hrest
    obtain ⟨-, htaken⟩ := sectionGetMemory_spec hget hret
    change PagesTaken (needed new parent i) _ _ _ _ at htaken
    have hrec := ih hids' hrest
    have hsupply : m₁.frames.supply = m.frames.supply.drop (needed new parent i) := by
      rw [htaken.frames]
    -- The other sections need what they needed before.
    have hextra : ∀ j ≠ i, granted (needed { new with
        mmSection := update new.mmSection i sec } parent) ids m₁.frames.supply j =
        granted (needed new parent) (i :: ids) m.frames.supply j := by
      intro j hj
      rw [granted, if_neg hj, hsupply]
      refine granted_congr ?_ _ j
      intro k hk
      have hki : k ≠ i := fun heq => hi (heq ▸ hk)
      simp only [needed, update_of_ne hki]
    have hself := granted_of_notMem (needed { new with
      mmSection := update new.mmSection i sec } parent) hi m₁.frames.supply
    have hown : granted (needed new parent) (i :: ids) m.frames.supply i =
        m.frames.supply.take (needed new parent i) := by
      rw [granted, if_pos rfl]
    constructor
    · exact hrec.pageTable
    · intro j
      rw [hrec.base]
      by_cases hj : j = i
      · subst hj
        simp only [update_self, htaken.base]
      · simp only [update_of_ne hj]
    · intro j
      rw [hrec.allocMem]
      by_cases hj : j = i
      · subst hj
        simp only [update_self, hself, hown, append_nil, htaken.pages]
      · simp only [update_of_ne hj, hextra j hj]
    · intro j
      rw [hrec.count]
      by_cases hj : j = i
      · subst hj
        simp only [update_self, hself, hown, length_nil, htaken.count,
          length_take, Nat.min_eq_left htaken.enough, Nat.cast_zero, add_zero]
      · simp only [update_of_ne hj, hextra j hj]
    · refine hrec.perm.trans ?_
      rw [hsupply]
      refine ((pages_update_perm new i htaken.pages).append_right _).trans ?_
      rw [append_assoc, take_append_drop]
    · rw [hrec.word, htaken.frames]
    · rw [hrec.mapAddress, htaken.frames]
    · refine hrec.suffix.trans ?_
      rw [hsupply]
      exact drop_suffix _ _
    · rw [hrec.data, htaken.data]
    · rw [hrec.kernelData, htaken.kernelData]

/-- The addresses of a section. -/
def InSection (mm : MmStruct) (s : Frames) (i : SectionId) (va : ℕ) : Prop :=
  ∃ j page, (mm.mmSection i).allocMem[j]? = some page ∧ va / pageSize = pageNumber mm s i j page

/-- A parent and its child before `task_mm_copy_task_memory`. The child is as
`init_mm_struct` leaves it: it has some pages for its stack, at most one page of meta data,
and maps no other addresses. Nobody uses the pages of the supply. -/
structure ForkReady (new parent : MmStruct) (s : Frames) (ndir pdir : ℕ → Option ℕ)
    (nown pown : ℕ → Prop) : Prop where
  forking : Forking new parent s ndir pdir nown pown
  distinct : (pages parent ++ (pages new ++ s.supply)).Nodup
  apart : ∀ page ∈ pages parent ++ (pages new ++ s.supply), ¬ nown page ∧ ¬ pown page
  empty : (new.mmSection .elf).allocMem = [] ∧ (new.mmSection .mmap).allocMem = []
  metaPages : (new.mmSection .metaData).allocMem.length ≤ 1
  childMaps : ∀ va < kernelVirtualBase, lookup s.word ndir va ≠ none →
    InSection new s .stack va ∨ InSection new s .metaData va

/-- The pages of a section of the child after the allocation. -/
def childPages (new parent : MmStruct) (s : Frames) (i : SectionId) : List ℕ :=
  (new.mmSection i).allocMem ++ granted (needed new parent) sectionIds s.supply i

/-- Allocation keeps parent and child in order. -/
theorem ForkReady.allocated (h : ForkReady new parent m.frames ndir pdir nown pown)
    {extra : SectionId → List ℕ} (halloc : Allocated new new' m m' extra) :
    Forking new' parent m'.frames ndir pdir nown pown := by
  have htables := h.forking.tables
  have hsections := h.forking.sections
  have hsub : ∀ f ∈ m'.frames.supply, f ∈ m.frames.supply := fun f hf => halloc.suffix.subset hf
  refine ⟨⟨⟨?_, ?_, ?_, ?_, ?_⟩, ?_, ?_, htables.apart, ?_⟩, ⟨?_, ?_, hsections.stackBase,
    hsections.normalBase, ?_, hsections.parentCount, hsections.mmapCount⟩, ?_⟩
  · rw [halloc.word, halloc.pageTable]
    exact htables.child.directory
  · exact fun f hf => htables.child.fresh f (hsub f hf)
  · exact htables.child.nodup.sublist halloc.suffix.sublist
  · rw [halloc.pageTable]
    exact htables.child.taskFree
  · rw [halloc.pageTable]
    exact htables.child.mmapFree
  · rw [halloc.word]
    exact htables.directory
  · rw [halloc.word]
    exact htables.slot
  · exact fun f hf => htables.fresh f (hsub f hf)
  · have hnodup := (halloc.perm.append_left (pages parent)).nodup_iff.mpr h.distinct
    rw [← append_assoc] at hnodup
    exact (nodup_append'.mp hnodup).1
  · intro i
    rw [halloc.base, hsections.base]
  · intro i
    rw [halloc.count, halloc.allocMem, hsections.count, length_append, Nat.cast_add]
  · intro i j page hpage
    have hnumber : pageNumber parent m'.frames i j page = pageNumber parent m.frames i j page := by
      cases i <;> simp only [pageNumber, halloc.mapAddress]
    rw [hnumber, halloc.word]
    exact h.forking.mapped i j page hpage

/-- A step of the copy that does not concern section `i`. -/
structure Keeps (i : SectionId) (new parent : MmStruct) (m m' : Machine β)
    (ndir ndir' : ℕ → Option ℕ) : Prop where
  number : ∀ j page, (parent.mmSection i).allocMem[j]? = some page →
    pageNumber parent m'.frames i j page = pageNumber parent m.frames i j page
  child : ∀ j page, (parent.mmSection i).allocMem[j]? = some page →
    lookup m'.frames.word ndir' (pageSize * pageNumber parent m.frames i j page) =
      lookup m.frames.word ndir (pageSize * pageNumber parent m.frames i j page)
  parentData : ∀ page ∈ (parent.mmSection i).allocMem, m'.data page = m.data page
  childData : ∀ page ∈ (new.mmSection i).allocMem, m'.data page = m.data page
  kernelData : m'.kernelData = m.kernelData

theorem Keeps.refl (i : SectionId) (new parent : MmStruct) (m : Machine β)
    (ndir : ℕ → Option ℕ) : Keeps i new parent m m ndir ndir :=
  ⟨fun _ _ _ => rfl, fun _ _ _ => rfl, fun _ _ => rfl, fun _ _ => rfl, rfl⟩

theorem Keeps.trans {m'' : Machine β} {ndir'' : ℕ → Option ℕ}
    (h : Keeps i new parent m m' ndir ndir') (h' : Keeps i new parent m' m'' ndir' ndir'') :
    Keeps i new parent m m'' ndir ndir'' := by
  constructor
  · intro j page hpage
    rw [h'.number j page hpage, h.number j page hpage]
  · intro j page hpage
    have hchild := h'.child j page hpage
    rw [h.number j page hpage] at hchild
    rw [hchild, h.child j page hpage]
  · intro page hpage
    rw [h'.parentData page hpage, h.parentData page hpage]
  · intro page hpage
    rw [h'.childData page hpage, h.childData page hpage]
  · exact h'.kernelData.trans h.kernelData

/-- The copy of a section does not concern the other sections. -/
theorem SectionCopied.keeps {i' : SectionId} {s₀ : MmStruct}
    (hcopied : SectionCopied i' new new' parent m m' ndir ndir' pdir)
    (h : Forking new parent m.frames ndir pdir nown pown) (hne : i ≠ i')
    (hsections : new.mmSection = s₀.mmSection) : Keeps i s₀ parent m m' ndir ndir' := by
  have hnodup := (nodup_append'.mp h.sections.distinct).2.1
  have hparent : ∀ page ∈ (parent.mmSection i).allocMem, page ∉ (new.mmSection i').allocMem :=
    fun page hpage hmem => h.sections.ne hpage hmem rfl
  constructor
  · intro j page hpage
    have haddr := hcopied.mapAddress page (hparent page (mem_of_getElem? hpage))
    cases i <;> simp only [pageNumber, haddr]
  · intro j page hpage
    refine hcopied.childLookup _ ?_
    intro j' page' hpage' _ heq
    rw [(page_entries _).2.2] at heq
    exact hne (h.pageNumber_inj hpage hpage' heq).1
  · exact fun page hpage => hcopied.data page (hparent page hpage)
  · intro page hpage
    rw [← hsections] at hpage
    exact hcopied.data page (fun hmem => hne (section_unique hnodup hpage hmem))
  · exact hcopied.kernelData

/-- What the child finds in one section after the call, in terms of the state `m` after the
allocation. -/
structure Outcome (i : SectionId) (new parent : MmStruct) (m m' : Machine β)
    (ndir ndir' : ℕ → Option ℕ) : Prop extends SectionFilled i new parent m m' ndir' where
  number : ∀ j page, (parent.mmSection i).allocMem[j]? = some page →
    pageNumber parent m'.frames i j page = pageNumber parent m.frames i j page
  parentData : ∀ page ∈ (parent.mmSection i).allocMem, m'.data page = m.data page
  unreached : ∀ j page, (parent.mmSection i).allocMem[j]? = some page → reach parent i ≤ j →
    lookup m'.frames.word ndir' (pageSize * pageNumber parent m.frames i j page) =
      lookup m.frames.word ndir (pageSize * pageNumber parent m.frames i j page)

theorem received_congr (hdata : ∀ page ∈ (parent.mmSection i).allocMem, m'.data page = m.data page)
    (hkernel : m'.kernelData = m.kernelData) (contents : List β) :
    received parent m' i contents = received parent m i contents := by
  have hmap := map_congr_left hdata
  cases i <;> simp only [received, sources, hmap, hkernel]

/-- The outcome for a section, from its own copy and the steps before and after it. -/
theorem Keeps.outcome {new₁ new₂ : MmStruct} {m₁ m₂ : Machine β} {ndir₁ ndir₂ : ℕ → Option ℕ}
    (hforking : Forking new₁ parent m₁.frames ndir₁ pdir nown pown)
    (hbefore : Keeps i new parent m m₁ ndir ndir₁)
    (hcopied : SectionCopied i new₁ new₂ parent m₁ m₂ ndir₁ ndir₂ pdir)
    (hsections : new₁.mmSection = new.mmSection) (hafter : Keeps i new parent m₂ m' ndir₂ ndir') :
    Outcome i new parent m m' ndir ndir' := by
  have hnumber₂ : ∀ j page, (parent.mmSection i).allocMem[j]? = some page →
      pageNumber parent m₂.frames i j page = pageNumber parent m.frames i j page := by
    intro j page hpage
    have haddr := hcopied.mapAddress page
      (fun hmem => hforking.sections.ne (mem_of_getElem? hpage) hmem rfl)
    rw [← hbefore.number j page hpage]
    cases i <;> simp only [pageNumber, haddr]
  have hparent₂ : ∀ page ∈ (parent.mmSection i).allocMem, m₂.data page = m.data page := by
    intro page hpage
    rw [hcopied.data page (fun hmem => hforking.sections.ne hpage hmem rfl),
      hbefore.parentData page hpage]
  have hchild : ∀ j page, (parent.mmSection i).allocMem[j]? = some page →
      lookup m'.frames.word ndir' (pageSize * pageNumber parent m.frames i j page) =
        lookup m₂.frames.word ndir₂ (pageSize * pageNumber parent m₁.frames i j page) := by
    intro j page hpage
    have hkeep := hafter.child j page hpage
    rw [hnumber₂ j page hpage] at hkeep
    rw [hkeep, hbefore.number j page hpage]
  refine ⟨⟨?_, hsections ▸ hcopied.length, ?_⟩, ?_, ?_, ?_⟩
  · intro hreach j page c hpage hc
    rw [← hsections] at hc
    rw [hchild j page hpage, hcopied.mapped hreach j page c hpage hc]
  · have hcontents := hcopied.contents
    rw [hsections, received_congr hbefore.parentData hbefore.kernelData,
      map_congr_left hbefore.childData] at hcontents
    rw [← hcontents]
    exact map_congr_left hafter.childData
  · intro j page hpage
    rw [hafter.number j page hpage, hnumber₂ j page hpage]
  · intro page hpage
    rw [hafter.parentData page hpage, hparent₂ page hpage]
  · intro j page hpage hj
    rw [hchild j page hpage, hcopied.childLookup, hbefore.number j page hpage,
      hbefore.child j page hpage]
    intro j' page' hpage' hj' heq
    rw [(page_entries _).2.2] at heq
    have hsame := (hforking.pageNumber_inj hpage hpage' heq).2
    omega

theorem orFree_eq_some {res : Option (ℤ × MmStruct × Machine β)}
    {next : MmStruct → Machine β → Option (ℤ × MmStruct × Machine β)}
    (h : orFree res next = some (0, new', m')) :
    ∃ new₁ m₁, res = some (0, new₁, m₁) ∧ next new₁ m₁ = some (0, new', m') := by
  obtain ⟨⟨ret, new₁, m₁⟩, rfl, hnext⟩ := bind_eq_some_iff.mp h
  by_cases hret : ret = 0
  · subst hret
    exact ⟨new₁, m₁, rfl, hnext⟩
  · simp [hret, enomem] at hnext

/-- A successful call: the allocation, and the outcome for every section. -/
theorem ForkReady.outcomes (h : ForkReady new parent m.frames ndir pdir nown pown)
    (hcopy : taskMmCopyTaskMemory new parent m = some (0, new', m')) :
    ∃ new₀ m₀ ndir' nown',
      Allocated new new₀ m m₀ (granted (needed new parent) sectionIds m.frames.supply) ∧
      Forking new₀ parent m₀.frames ndir pdir nown pown ∧
      Forking new' parent m'.frames ndir' pdir nown' pown ∧
      ∀ i, Outcome i new₀ parent m₀ m' ndir ndir' := by
  unfold taskMmCopyTaskMemory at hcopy
  obtain ⟨new₀, m₀, halloc, hcopy⟩ := orFree_eq_some hcopy
  obtain ⟨new₁, m₁, hmeta, hcopy⟩ := orFree_eq_some hcopy
  obtain ⟨new₂, m₂, hstack, hcopy⟩ := orFree_eq_some hcopy
  obtain ⟨new₃, m₃, hmmap, hcopy⟩ := orFree_eq_some hcopy
  obtain ⟨new₄, m₄, helf, hcopy⟩ := orFree_eq_some hcopy
  simp only [some.injEq, Prod.mk.injEq, true_and] at hcopy
  obtain ⟨rfl, rfl⟩ := hcopy
  have hallocated := allocSections_spec (by decide) halloc
  have hforking₀ := h.allocated hallocated
  obtain ⟨ndir₁, nown₁, hforking₁, hcopied₁⟩ :=
    hforking₀.copyTaskMmSection (i := .metaData) (by decide) hmeta
  obtain ⟨ndir₂, nown₂, hforking₂, hcopied₂⟩ :=
    hforking₁.copyTaskMmSection (i := .stack) (by decide) hstack
  obtain ⟨ndir₃, nown₃, hforking₃, hcopied₃⟩ := hforking₂.copyTaskMmap hmmap
  obtain ⟨ndir₄, nown₄, hforking₄, hcopied₄⟩ :=
    hforking₃.copyTaskMmSection (i := .elf) (by decide) helf
  have hsec₁ := hcopied₁.sections
  have hsec₂ := hcopied₂.sections.trans hsec₁
  have hsec₃ := hcopied₃.sections.trans hsec₂
  -- The copies before and after that of a section do not concern it.
  have hkeep₁ : ∀ i ≠ SectionId.metaData, Keeps i new₀ parent m₀ m₁ ndir ndir₁ :=
    fun i hi => hcopied₁.keeps hforking₀ hi rfl
  have hkeep₂ : ∀ i ≠ SectionId.stack, Keeps i new₀ parent m₁ m₂ ndir₁ ndir₂ :=
    fun i hi => hcopied₂.keeps hforking₁ hi hsec₁
  have hkeep₃ : ∀ i ≠ SectionId.mmap, Keeps i new₀ parent m₂ m₃ ndir₂ ndir₃ :=
    fun i hi => hcopied₃.keeps hforking₂ hi hsec₂
  have hkeep₄ : ∀ i ≠ SectionId.elf, Keeps i new₀ parent m₃ m₄ ndir₃ ndir₄ :=
    fun i hi => hcopied₄.keeps hforking₃ hi hsec₃
  refine ⟨new₀, m₀, ndir₄, nown₄, hallocated, hforking₀, hforking₄, fun i => ?_⟩
  cases i with
  | metaData =>
    exact (Keeps.refl _ new₀ parent m₀ ndir).outcome hforking₀ hcopied₁ rfl
      (((hkeep₂ _ (by decide)).trans (hkeep₃ _ (by decide))).trans (hkeep₄ _ (by decide)))
  | stack =>
    exact (hkeep₁ _ (by decide)).outcome hforking₁ hcopied₂ hsec₁
      ((hkeep₃ _ (by decide)).trans (hkeep₄ _ (by decide)))
  | mmap =>
    exact ((hkeep₁ _ (by decide)).trans (hkeep₂ _ (by decide))).outcome hforking₂ hcopied₃ hsec₂
      (hkeep₄ _ (by decide))
  | elf =>
    exact (((hkeep₁ _ (by decide)).trans (hkeep₂ _ (by decide))).trans
      (hkeep₃ _ (by decide))).outcome hforking₃ hcopied₄ hsec₃ (Keeps.refl _ new₀ parent m₄ ndir₄)

/-- The child does not map a page that the code does not get to before the call. -/
theorem ForkReady.unmapped (h : ForkReady new parent m.frames ndir pdir nown pown) {new₀ : MmStruct}
    {extra : SectionId → List ℕ} (halloc : Allocated new new₀ m m' extra)
    (hlength : ∀ i, (parent.mmSection i).allocMem.length ≤ reach parent i →
      (new₀.mmSection i).allocMem.length = (parent.mmSection i).allocMem.length)
    {j page : ℕ} (hpage : (parent.mmSection i).allocMem[j]? = some page) (hj : reach parent i ≤ j) :
    lookup m.frames.word ndir (pageSize * pageNumber parent m.frames i j page) = none := by
  have hlt : pageSize * pageNumber parent m.frames i j page < kernelVirtualBase := by
    have hnumber := (h.forking.mapped i j page hpage).1
    simp only [pageSize, kernelVirtualBase]
    omega
  have hjlen : j < (parent.mmSection i).allocMem.length :=
    (List.getElem?_eq_some_iff.mp hpage).1
  have hgrow : ∀ k, (new.mmSection k).allocMem.length ≤ (new₀.mmSection k).allocMem.length := by
    intro k
    rw [halloc.allocMem, length_append]
    exact Nat.le_add_right _ _
  -- A page that the child maps already is at the place of a page of the parent.
  have hplace : ∀ k j', k ≠ .mmap → j' < (parent.mmSection k).allocMem.length → ∀ page',
      pageNumber parent m.frames i j page = pageNumber new m.frames k j' page' →
      i = k ∧ j = j' := by
    intro k j' hk hj' page' heq
    refine h.forking.pageNumber_inj hpage (getElem?_eq_getElem hj') ?_
    rw [heq]
    cases k <;> simp_all [pageNumber, h.forking.sections.base]
  by_contra hmapped
  obtain ⟨j', page', hpage', heq⟩ | ⟨j', page', hpage', heq⟩ := h.childMaps _ hlt hmapped
  · have hj' := (List.getElem?_eq_some_iff.mp hpage').1
    rw [(page_entries _).2.2] at heq
    have hle := hgrow .stack
    rw [hlength .stack le_rfl] at hle
    obtain ⟨rfl, rfl⟩ := hplace .stack j' (by decide) (by omega) page' heq
    exact absurd hjlen (by rw [reach] at hj; omega)
  · have hj' := (List.getElem?_eq_some_iff.mp hpage').1
    rw [(page_entries _).2.2] at heq
    have hmeta := h.metaPages
    have hroom : 0 < reach parent .metaData := by
      rw [reach_normal (Or.inr rfl), normalRoom]
      omega
    have hpos : 0 < (parent.mmSection .metaData).allocMem.length := by
      by_contra hzero
      have hle := hgrow .metaData
      rw [hlength .metaData (by omega)] at hle
      omega
    obtain ⟨rfl, rfl⟩ := hplace .metaData j' (by decide) (by omega) page' heq
    omega

/-- A section is copied iff the code gets to all its pages and the child receives their
contents. -/
theorem Outcome.copied_iff (h : Outcome i new parent m m' ndir ndir')
    (hne : ∀ page ∈ (parent.mmSection i).allocMem, page ∉ (new.mmSection i).allocMem)
    (hunmapped : ∀ j page, (parent.mmSection i).allocMem[j]? = some page → reach parent i ≤ j →
      lookup m.frames.word ndir (pageSize * pageNumber parent m.frames i j page) = none) :
    (∀ j page, (parent.mmSection i).allocMem[j]? = some page →
      ∃ c, lookup m'.frames.word ndir' (pageSize * pageNumber parent m.frames i j page) = some c ∧
        c ≠ page ∧ m'.data c = m'.data page) ↔
    (parent.mmSection i).allocMem.length ≤ reach parent i ∧
      received parent m i ((new.mmSection i).allocMem.map m.data) =
        (parent.mmSection i).allocMem.map m.data := by
  constructor
  · intro hcopied
    have hreach : (parent.mmSection i).allocMem.length ≤ reach parent i := by
      by_contra hlt
      have hpage := getElem?_eq_getElem (not_le.mp hlt)
      obtain ⟨c, hlookup, -⟩ := hcopied _ _ hpage
      rw [h.unreached _ _ hpage le_rfl, hunmapped _ _ hpage le_rfl] at hlookup
      exact absurd hlookup (by simp)
    refine ⟨hreach, ?_⟩
    rw [← h.contents]
    refine ext_getElem (by simpa using h.length hreach) ?_
    intro j hj hj'
    rw [length_map] at hj hj'
    have hpage := getElem?_eq_getElem hj'
    have hc := getElem?_eq_getElem hj
    obtain ⟨c, hlookup, -, hdata⟩ := hcopied j _ hpage
    rw [h.mapped hreach j _ _ hpage hc, some.injEq] at hlookup
    rw [getElem_map, getElem_map, hlookup, hdata, h.parentData _ (getElem_mem hj')]
  · rintro ⟨hreach, hreceived⟩ j page hpage
    have hj' := (List.getElem?_eq_some_iff.mp hpage).1
    have hj : j < (new.mmSection i).allocMem.length := by
      rw [h.length hreach]
      exact hj'
    have hc := getElem?_eq_getElem hj
    have hmem := mem_of_getElem? hpage
    refine ⟨_, h.mapped hreach j page _ hpage hc, ?_, ?_⟩
    · intro heq
      exact hne page hmem (heq ▸ getElem_mem hj)
    · have hlist := h.contents.trans hreceived
      have hat := congrArg (·[j]?) hlist
      simp only [getElem?_map, hpage, hc, map_some, some.injEq] at hat
      rw [hat, h.parentData page hmem]

/-- Every address of the parent's sections is mapped by the child to another page with the same
contents. -/
def Copied (new' parent : MmStruct) (m m' : Machine β) : Prop :=
  ∀ i va, InSection parent m.frames i va → ∃ page c,
    Pgt.translate m'.frames.word parent.pageTable.pdeBase va = some page ∧
      Pgt.translate m'.frames.word new'.pageTable.pdeBase va = some c ∧ c ≠ page ∧
      m'.data c = m'.data page

/-- What has to hold before the call for all sections to be copied: the code gets to all pages
of the section, and what it leaves in the pages of the child is what the parent has. -/
def CopyCondition (new parent : MmStruct) (m : Machine β) : Prop :=
  ∀ i ∈ sectionIds, (parent.mmSection i).allocMem.length ≤ reach parent i ∧
    received parent m i ((childPages new parent m.frames i).map m.data) =
      (parent.mmSection i).allocMem.map m.data

/-- After a successful call the memory of the parent has been copied iff the condition held
before the call. -/
theorem taskMmCopyTaskMemory_copied_iff (h : ForkReady new parent m.frames ndir pdir nown pown)
    (hcopy : taskMmCopyTaskMemory new parent m = some (0, new', m')) :
    Copied new' parent m m' ↔ CopyCondition new parent m := by
  obtain ⟨new₀, m₀, ndir', nown', halloc, hforking₀, hforking, houtcome⟩ := h.outcomes hcopy
  have hnumber₀ : ∀ i j page, pageNumber parent m₀.frames i j page =
      pageNumber parent m.frames i j page := by
    intro i j page
    cases i <;> simp only [pageNumber, halloc.mapAddress]
  have hsection : ∀ i, _ := fun i => (houtcome i).copied_iff
    (fun page hpage hmem => hforking₀.sections.ne hpage hmem rfl)
    (fun j page hpage hj => by
      rw [halloc.word, hnumber₀]
      exact h.unmapped halloc (fun i => (houtcome i).length) hpage hj)
  have hreceived : ∀ i, received parent m₀ i ((new₀.mmSection i).allocMem.map m₀.data) =
      received parent m i ((childPages new parent m.frames i).map m.data) := by
    intro i
    rw [received_congr (fun page _ => by rw [halloc.data]) halloc.kernelData, halloc.data,
      halloc.allocMem, childPages]
  have hcondition : CopyCondition new parent m ↔ ∀ i,
      (parent.mmSection i).allocMem.length ≤ reach parent i ∧
      received parent m₀ i ((new₀.mmSection i).allocMem.map m₀.data) =
        (parent.mmSection i).allocMem.map m₀.data := by
    simp only [CopyCondition, mem_sectionIds, true_implies]
    refine forall_congr' fun i => ?_
    rw [hreceived, halloc.data]
  rw [hcondition, ← forall_congr' hsection]
  -- The processor finds what the tables of both tasks say.
  have htranslate : ∀ i j page va, (parent.mmSection i).allocMem[j]? = some page →
      va / pageSize = pageNumber parent m.frames i j page →
      Pgt.translate m'.frames.word parent.pageTable.pdeBase va = some page ∧
        Pgt.translate m'.frames.word new'.pageTable.pdeBase va =
          lookup m'.frames.word ndir' (pageSize * pageNumber parent m₀.frames i j page) := by
    intro i j page va hpage hva
    obtain ⟨hlt, hlookup⟩ := hforking.mapped i j page hpage
    rw [(houtcome i).number j page hpage, hnumber₀] at hlt hlookup
    have huser : va < kernelVirtualBase := by
      rw [← hva] at hlt
      simp only [pageSize, kernelVirtualBase] at hlt ⊢
      omega
    have hsame : va / pageSize = pageSize * pageNumber parent m.frames i j page / pageSize := by
      rw [(page_entries _).2.2, hva]
    rw [hforking.tables.directory.translate_eq huser,
      hforking.tables.child.directory.translate_eq huser, hnumber₀,
      lookup_congr _ pdir hsame, lookup_congr _ ndir' hsame]
    exact ⟨hlookup, rfl⟩
  constructor
  · intro hcopied i j page hpage
    obtain ⟨page', c, hparent, hchild, hne, hdata⟩ := hcopied i
      (pageSize * pageNumber parent m.frames i j page)
      ⟨j, page, hpage, (page_entries _).2.2⟩
    obtain ⟨htrans, htrans'⟩ := htranslate i j page _ hpage (page_entries _).2.2
    rw [htrans, some.injEq] at hparent
    rw [htrans'] at hchild
    subst hparent
    exact ⟨c, hchild, hne, hdata⟩
  · rintro hall i va ⟨j, page, hpage, hva⟩
    obtain ⟨c, hchild, hne, hdata⟩ := hall i j page hpage
    obtain ⟨htrans, htrans'⟩ := htranslate i j page va hpage hva
    exact ⟨page, c, htrans, htrans'.trans hchild, hne, hdata⟩

/-- The tables of a small `fork`: the child has its directory in frame 1 and its tables in
frames 2 and 3, the parent has its directory in frame 4 and its tables in frames 5 to 7. -/
def smallWords : List (ℕ × ℕ) :=
  [(pageSize + 4 * 511, pageSize * 2 + 7), (pageSize + 4, pageSize * 3 + 7),
    (pageSize * 2 + 4 * 1023, pageSize * 10 + 7), (pageSize * 2 + 4 * 1022, pageSize * 11 + 7),
    (pageSize * 2 + 4 * 1021, pageSize * 12 + 7), (pageSize * 2 + 4 * 1020, pageSize * 13 + 7),
    (pageSize * 3, pageSize * 14 + 7),
    (pageSize * 4 + 4 * 511, pageSize * 5 + 7), (pageSize * 4 + 4, pageSize * 6 + 7),
    (pageSize * 4 + 4 * 944, pageSize * 7 + 7),
    (pageSize * 5 + 4 * 1023, pageSize * 20 + 7), (pageSize * 5 + 4 * 1022, pageSize * 21 + 7),
    (pageSize * 5 + 4 * 1021, pageSize * 22 + 7), (pageSize * 5 + 4 * 1020, pageSize * 23 + 7),
    (pageSize * 6, pageSize * 24 + 7), (pageSize * 6 + 4 * 4, pageSize * 25 + 7)]

/-- The frames of the small `fork`. -/
def smallFrames : Frames where
  word := fun a => (smallWords.lookup a).getD 0
  mapAddress := fun _ => 0
  supply := [30, 31]

theorem mem_smallWords (h : smallFrames.word a ≠ 0) : a ∈ smallWords.map Prod.fst := by
  by_contra hmem
  have hnone : smallWords.lookup a = none := by
    rw [lookup_eq_none_iff]
    intro entry hentry
    rw [bne_iff_ne]
    rintro rfl
    exact hmem (List.mem_map_of_mem hentry)
  simp only [smallFrames, hnone, getD_none] at h
  exact h rfl

/-- A task with one page of meta data at `PROCESS_USER_META_BASE`, the program above it, and a
stack. -/
def smallTask (pdeBase tbuf : ℕ) (elf stack metaData : List ℕ) : MmStruct where
  pageTable := ⟨pdeBase, ⟨[], 0, 0, 0⟩, ⟨[], 0, 0, 0⟩, tbuf⟩
  mmSection := fun
    | .elf => ⟨0x404000, elf.length, elf⟩
    | .stack => ⟨kernelVirtualBase, stack.length, stack⟩
    | .mmap => ⟨0x50000000, 0, []⟩
    | .metaData => ⟨0x400000, metaData.length, metaData⟩

/-- The child, as `init_mm_struct` leaves it. -/
def smallChild : MmStruct := smallTask pageSize 0 [] [10, 11, 12, 13] [14]

/-- The parent, with one page of program. -/
def smallParent : MmStruct :=
  smallTask (pageSize * 4) (pageSize * 7) [25] [20, 21, 22, 23] [24]

/-- A table for the stack in frame `a` and one for the program in frame `b`. -/
def smallDir (a b i : ℕ) : Option ℕ := if i = 511 then some a else if i = 1 then some b else none

theorem smallDir_eq_some {b i f : ℕ} :
    smallDir a b i = some f ↔ i = 511 ∧ a = f ∨ i = 1 ∧ b = f := by
  unfold smallDir
  split_ifs with h511 h1 <;> simp [*]

/-- The directory of a task of the small `fork`. -/
theorem smallDir_directory {word : ℕ → ℕ} {own : ℕ → Prop} {d b : ℕ} (ha : a = d + 1)
    (hb : b = d + 2) (hlt : d < 10) (hown : own d ∧ own a ∧ own b)
    (hstack : word (pageSize * d + 4 * 511) = pageSize * a + 7)
    (hprogram : word (pageSize * d + 4 * 1) = pageSize * b + 7)
    (habsent : ∀ i < 512, i ≠ 511 → i ≠ 1 → word (pageSize * d + 4 * i) = 0) :
    Directory word (pageSize * d) (smallDir a b) own := by
  constructor
  · refine ⟨d, rfl, hown.1, ?_⟩
    intro i hi
    obtain ⟨-, h⟩ | ⟨-, h⟩ := smallDir_eq_some.mp hi <;> omega
  · intro i f _ hi
    obtain ⟨rfl, rfl⟩ | ⟨rfl, rfl⟩ := smallDir_eq_some.mp hi
    · exact hstack
    · exact hprogram
  · intro i hi hnone
    refine habsent i hi ?_ ?_ <;> rintro rfl <;> simp [smallDir] at hnone
  · intro i f hi
    obtain ⟨-, rfl⟩ | ⟨-, rfl⟩ := smallDir_eq_some.mp hi
    · exact ⟨hown.2.1, by omega, by omega⟩
    · exact ⟨hown.2.2, by omega, by omega⟩
  · intro i j f hi hj
    obtain ⟨rfl, h⟩ | ⟨rfl, h⟩ := smallDir_eq_some.mp hi <;>
      obtain ⟨rfl, h'⟩ | ⟨rfl, h'⟩ := smallDir_eq_some.mp hj <;> omega

theorem small_mapped : Mapped smallParent smallFrames (smallDir 5 6) := by
  have hcheck : ∀ i ∈ sectionIds, ∀ j < (smallParent.mmSection i).allocMem.length,
      pageNumber smallParent smallFrames i j ((smallParent.mmSection i).allocMem.getD j 0) <
        2 ^ 19 ∧
      lookup smallFrames.word (smallDir 5 6) (pageSize * pageNumber smallParent smallFrames i j
        ((smallParent.mmSection i).allocMem.getD j 0)) =
        some ((smallParent.mmSection i).allocMem.getD j 0) := by
    decide +kernel
  intro i j page hpage
  have hentry := hcheck i (mem_sectionIds i) j (List.getElem?_eq_some_iff.mp hpage).1
  rwa [getD_eq_getElem?_getD, hpage, getD_some] at hentry

/-- The small child maps its own stack and meta data and nothing else. -/
theorem small_childMaps {va : ℕ} (hva : lookup smallFrames.word (smallDir 2 3) va ≠ none) :
    InSection smallChild smallFrames .stack va ∨ InSection smallChild smallFrames .metaData va := by
  have hpresent : ∀ a, (smallFrames.word a).testBit 0 = true → a ∈ smallWords.map Prod.fst := by
    intro a hbit
    refine mem_smallWords fun hzero => ?_
    rw [hzero] at hbit
    exact absurd hbit (by decide)
  have hstack : ∀ k < 1024, (smallFrames.word (pageSize * 2 + 4 * k)).testBit 0 = true →
      1020 ≤ k := by
    intro k hk hbit
    have hmem := hpresent _ hbit
    simp only [smallWords, map_cons, map_nil, mem_cons, not_mem_nil, or_false, pageSize] at hmem
    omega
  have hmeta : ∀ k < 1024, (smallFrames.word (pageSize * 3 + 4 * k)).testBit 0 = true → k = 0 := by
    intro k hk hbit
    have hmem := hpresent _ hbit
    simp only [smallWords, map_cons, map_nil, mem_cons, not_mem_nil, or_false, pageSize] at hmem
    omega
  have hlt := pte_index_lt va
  unfold Pgt.lookup at hva
  cases hdir : smallDir 2 3 (va / pdeMapSize) with
  | none => simp [hdir] at hva
  | some f =>
    simp only [hdir, bind_some, ne_eq, ite_eq_right_iff, reduceCtorEq, imp_false, not_not] at hva
    obtain ⟨hpde, rfl⟩ | ⟨hpde, rfl⟩ := smallDir_eq_some.mp hdir
    · left
      have hk := hstack _ hlt hva
      have hnumber : va / pageSize = 2 ^ 19 - 1 - (1023 - va % pdeMapSize / pageSize) := by
        simp only [pdeMapSize, pageSize] at hpde hk hlt ⊢
        omega
      have hindex : 1023 - va % pdeMapSize / pageSize < [10, 11, 12, 13].length := by
        simp only [length_cons, length_nil]
        omega
      exact ⟨_, _, getElem?_eq_getElem hindex, hnumber⟩
    · right
      have hk := hmeta _ hlt hva
      have hnumber : va / pageSize = 0x400 + 0 := by
        simp only [pdeMapSize, pageSize] at hpde hk hlt ⊢
        omega
      exact ⟨0, 14, rfl, hnumber⟩

/-- The two page tables of the small `fork`. -/
theorem small_tables : Tables smallChild.pageTable smallParent.pageTable smallFrames
    (smallDir 2 3) (smallDir 5 6) (· ∈ [1, 2, 3]) (· ∈ [4, 5, 6, 7]) := by
  have habsent : ∀ d, d = 1 ∨ d = 4 → ∀ i < 512, i ≠ 511 → i ≠ 1 →
      smallFrames.word (pageSize * d + 4 * i) = 0 := by
    intro d hd i hi hstack hprogram
    by_contra hne
    have hmem := mem_smallWords hne
    simp only [smallWords, map_cons, map_nil, mem_cons, not_mem_nil, or_false, pageSize] at hmem
    omega
  refine ⟨⟨?_, by decide, by decide, rfl, rfl⟩, ?_, ?_, ?_, by decide⟩
  · exact smallDir_directory rfl rfl (by decide) (by decide) (by decide +kernel)
      (by decide +kernel) (habsent 1 (.inl rfl))
  · exact smallDir_directory rfl rfl (by decide) (by decide) (by decide +kernel)
      (by decide +kernel) (habsent 4 (.inr rfl))
  · refine ⟨7, rfl, by decide, by decide, by decide, ?_, by decide +kernel⟩
    intro i hi
    obtain ⟨-, h⟩ | ⟨-, h⟩ := smallDir_eq_some.mp hi <;> omega
  · intro f hf hf'
    simp only [mem_cons, not_mem_nil, or_false] at hf hf'
    omega

/-- The small `fork` is one that the call is made for. -/
theorem small_forkReady : ForkReady smallChild smallParent smallFrames (smallDir 2 3)
    (smallDir 5 6) (· ∈ [1, 2, 3]) (· ∈ [4, 5, 6, 7]) := by
  have hsections : Sections smallChild smallParent := by
    refine ⟨by decide +kernel, ?_, rfl, ?_, ?_, ?_, by decide⟩
    · intro i
      cases i <;> rfl
    · rintro i (rfl | rfl)
      · exact ⟨0x404, by decide, rfl⟩
      · exact ⟨0x400, by decide, rfl⟩
    · intro i
      cases i <;> rfl
    · intro i _
      cases i <;> rfl
  exact ⟨⟨small_tables, hsections, small_mapped⟩, by decide +kernel, by decide +kernel,
    ⟨rfl, rfl⟩, by decide, fun va _ hva => small_childMaps hva⟩

/-- A machine with the small `fork` and the given contents. -/
def smallMachine (data : ℕ → ℕ) : Machine ℕ := ⟨smallFrames, data, fun _ => 0, []⟩

/-- Contents for which the defects of the copy do not show: the first page of the stack is
equal to the third one, and the new pages of the child already hold what belongs there. -/
def luckyData (page : ℕ) : ℕ :=
  if page ∈ [12, 20, 22] then 7 else if page = 24 then 9 else if page = 25 then 5 else 0

/-- The theorem at a small `fork` with such contents. -/
theorem taskMmCopyTaskMemory_copied_iff_lucky :
    CopyCondition smallChild smallParent (smallMachine luckyData) ∧
      ∃ new' m', taskMmCopyTaskMemory smallChild smallParent (smallMachine luckyData) =
        some (0, new', m') ∧ Copied new' smallParent (smallMachine luckyData) m' := by
  have hcondition : CopyCondition smallChild smallParent (smallMachine luckyData) := by
    unfold CopyCondition
    decide +kernel
  obtain ⟨⟨_, new', m'⟩, hcopy, rfl⟩ :
      ∃ x, taskMmCopyTaskMemory smallChild smallParent (smallMachine luckyData) = some x ∧
        x.1 = 0 := by
    decide +kernel
  exact ⟨hcondition, new', m', hcopy,
    (taskMmCopyTaskMemory_copied_iff (m := smallMachine luckyData) small_forkReady hcopy).mpr
      hcondition⟩

/-- With different contents in every page the call succeeds, but the child's first page of the
stack holds the third page of the parent's. -/
theorem taskMmCopyTaskMemory_stack_differs :
    ForkReady smallChild smallParent (smallMachine id).frames (smallDir 2 3) (smallDir 5 6)
        (· ∈ [1, 2, 3]) (· ∈ [4, 5, 6, 7]) ∧
      ∃ new' m', taskMmCopyTaskMemory smallChild smallParent (smallMachine id) =
        some (0, new', m') ∧ ¬ Copied new' smallParent (smallMachine id) m' := by
  have hret : (taskMmCopyTaskMemory smallChild smallParent (smallMachine id)).map
      (fun res => (res.1,
        (Pgt.translate res.2.2.frames.word smallParent.pageTable.pdeBase 0x7ffff000).map
          res.2.2.data,
        (Pgt.translate res.2.2.frames.word res.2.1.pageTable.pdeBase 0x7ffff000).map
          res.2.2.data)) = some (0, some 20, some 22) := by
    decide +kernel
  obtain ⟨⟨ret, new', m'⟩, hcopy, hres⟩ := map_eq_some_iff.mp hret
  simp only [Prod.mk.injEq] at hres
  obtain ⟨rfl, hparent, hchild⟩ := hres
  refine ⟨small_forkReady, new', m', hcopy, ?_⟩
  intro hcopied
  obtain ⟨page, c, hpage, hc, -, hdata⟩ := hcopied .stack 0x7ffff000 ⟨0, 20, rfl, rfl⟩
  rw [hpage, map_some, some.injEq] at hparent
  rw [hc, map_some, some.injEq] at hchild
  omega

end Chunos.TaskMm
