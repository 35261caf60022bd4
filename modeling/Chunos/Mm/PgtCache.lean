import Chunos.Lib.Runs
import Chunos.Mm.Pgt

/-!
# The list of table pages

`struct pte_cache_list` is the list of the pages that a task owns for its page tables, and
after `exec` the list from which they are fetched again. Between two resets the pages that
have been returned are a prefix of the list, and the pages behind it are those that
`pte_free_size` counts.
-/

namespace Chunos.Pgt

open Runs List Option

/-- `init_pte_cache_list`. -/
def initPteCacheList (clist : PteCacheList) : PteCacheList :=
  if clist.pteAllocSize ≠ 0 then
    { clist with pteCurrentPage := 0, pteFreeSize := clist.pteAllocSize }
  else { pteList := [], pteAllocSize := 0, pteFreeSize := 0, pteCurrentPage := 0 }

/-- A list in a run, and the pages that have been returned since the last reset. `linked` says
that the head of the list has been initialised, and `cursor` that `pte_current_page` is not
null. -/
structure PteRun where
  clist : PteCacheList
  linked : Bool
  cursor : Bool
  returned : List ℕ

/-- The calls of a run. For an allocation, `got` is what `request_pages` would return, and
`word` the contents of memory. -/
inductive PteCall where
  | reset
  | alloc (got : Option ℕ) (word : ℕ → ℕ)

/-- The frames as an allocation finds them. -/
def PteCall.frames (got : Option ℕ) (word : ℕ → ℕ) : Frames :=
  { word := word, mapAddress := fun _ => 0, supply := got.toList }

/-- One call. It is `none` when a null pointer is followed: a page is added to a list whose
head has not been initialised, or the next page is fetched without a cursor. -/
def PteRun.step : PteCall → PteRun → Option PteRun
  | .reset, r =>
    some
      { clist := initPteCacheList r.clist
        linked := r.linked || r.clist.pteAllocSize == 0
        cursor := r.clist.pteAllocSize != 0
        returned := [] }
  | .alloc got word, r =>
    if r.clist.pteFreeSize = 0 ∧ got ≠ none ∧ r.linked = false then none
    else if r.clist.pteFreeSize ≠ 0 ∧ r.cursor = false then none
    else
      match allocNewPtePage r.clist (PteCall.frames got word) with
      | some (page, clist, _) => some { r with clist := clist, returned := r.returned ++ [page] }
      | none => if r.clist.pteFreeSize = 0 then some r else none

/-- A zeroed list. -/
def PteRun.zeroed : PteRun :=
  { clist := { pteList := [], pteAllocSize := 0, pteFreeSize := 0, pteCurrentPage := 0 }
    linked := false, cursor := false, returned := [] }

/-- A page from `request_pages` is not one that the list owns. -/
def PteRun.Fresh : PteCall → PteRun → Prop
  | .alloc got _, r => ∀ page ∈ got, page ∉ r.clist.pteList
  | .reset, _ => True

instance (call : PteCall) (r : PteRun) : Decidable (r.Fresh call) :=
  match call with
  | .alloc .. => inferInstanceAs (Decidable (∀ page ∈ _, _))
  | .reset => .isTrue trivial

/-- What is expected of every state. The sizes are those of the list. No page has been
returned twice since the last reset. When there is no free page, all pages of the list have
been returned, a request is made, and nothing changes if it fails. When there is one, a page
of the list is returned and no request is made. A page that is returned is filled with
zeros. -/
structure PteRun.Ok (r : PteRun) : Prop where
  alloc_eq : r.clist.pteAllocSize = pageSize * r.clist.pteList.length
  free_dvd : pageSize ∣ r.clist.pteFreeSize
  free_le : r.clist.pteFreeSize ≤ r.clist.pteAllocSize
  distinct : r.returned.Nodup
  used : r.clist.pteFreeSize = 0 → ∀ page ∈ r.clist.pteList, page ∈ r.returned
  failed : r.clist.pteFreeSize = 0 → ∀ word, PteRun.step (.alloc none word) r = some r
  reused : r.clist.pteFreeSize ≠ 0 → ∀ s, ∃ page clist s', allocNewPtePage r.clist s =
    some (page, clist, s') ∧ page ∈ r.clist.pteList ∧ clist.pteList = r.clist.pteList ∧
      s'.supply = s.supply
  cleared : ∀ s page clist s', allocNewPtePage r.clist s = some (page, clist, s') →
    ∀ a, pageToPa page ≤ a → a < pageToPa page + pageSize → s'.word a = 0

/-- The invariant, with `k` pages of the list that can be fetched again. -/
structure PteRun.Inv (r : PteRun) (k : ℕ) : Prop where
  alloc_eq : r.clist.pteAllocSize = pageSize * r.clist.pteList.length
  free_eq : r.clist.pteFreeSize = pageSize * k
  le_length : k ≤ r.clist.pteList.length
  cursor : k ≠ 0 → r.cursor = true ∧ r.clist.pteCurrentPage = r.clist.pteList.length - k
  returned : r.returned = r.clist.pteList.take (r.clist.pteList.length - k)
  nodup : r.clist.pteList.Nodup
  unlinked : r.linked = false → r.clist.pteList = []

variable {r : PteRun} {k : ℕ}

theorem PteRun.Inv.free_eq_zero_iff (h : r.Inv k) : r.clist.pteFreeSize = 0 ↔ k = 0 := by
  rw [h.free_eq]
  simp [pageSize]

theorem PteRun.Inv.fetch (h : r.Inv k) (hk : k ≠ 0) :
    ∃ page, r.clist.pteList[r.clist.pteCurrentPage]? = some page ∧
      r.clist.pteList.take (r.clist.pteList.length - k) ++ [page] =
        r.clist.pteList.take (r.clist.pteList.length - (k - 1)) := by
  have hle := h.le_length
  have hlt : r.clist.pteList.length - k < r.clist.pteList.length := by omega
  refine ⟨r.clist.pteList[r.clist.pteList.length - k], ?_, ?_⟩
  · rw [(h.cursor hk).2]
    exact getElem?_eq_getElem hlt
  · rw [take_append_getElem hlt]
    congr 1
    omega

/-- `alloc_new_pte_page` with a free page. -/
theorem PteRun.Inv.alloc_free (h : r.Inv k) (hk : k ≠ 0) :
    ∃ page, page ∈ r.clist.pteList ∧ (∀ s, allocNewPtePage r.clist s = some (page,
        { r.clist with
          pteCurrentPage := r.clist.pteCurrentPage + 1
          pteFreeSize := r.clist.pteFreeSize - pageSize },
        clearPage s (pageToPa page))) ∧
      r.returned ++ [page] = r.clist.pteList.take (r.clist.pteList.length - (k - 1)) := by
  obtain ⟨page, hpage, htake⟩ := h.fetch hk
  refine ⟨page, mem_of_getElem? hpage, fun s => ?_, ?_⟩
  · rw [allocNewPtePage, if_neg (mt h.free_eq_zero_iff.mp hk), hpage]
    rfl
  · rw [h.returned, htake]

/-- The invariant gives what is expected. -/
theorem PteRun.Inv.ok (h : r.Inv k) : r.Ok := by
  constructor
  · exact h.alloc_eq
  · exact ⟨k, h.free_eq⟩
  · rw [h.free_eq, h.alloc_eq]
    exact Nat.mul_le_mul_left pageSize h.le_length
  · rw [h.returned]
    exact h.nodup.sublist (take_sublist _ _)
  · intro hfree page hpage
    rw [h.free_eq_zero_iff] at hfree
    rwa [h.returned, hfree, Nat.sub_zero, take_length]
  · intro hfree word
    simp [PteRun.step, PteCall.frames, allocNewPtePage, requestPage, hfree]
  · intro hfree s
    obtain ⟨page, hmem, halloc, -⟩ := h.alloc_free (mt h.free_eq_zero_iff.mpr hfree)
    exact ⟨page, _, _, halloc s, hmem, rfl, rfl⟩
  · intro s page clist s' halloc a hlo hhi
    have hclear : ∃ s₁, s' = clearPage s₁ (pageToPa page) := by
      unfold allocNewPtePage at halloc
      split_ifs at halloc
      · obtain ⟨⟨p, s₁⟩, -, heq⟩ := map_eq_some_iff.mp halloc
        cases heq
        exact ⟨s₁, rfl⟩
      · obtain ⟨p, -, heq⟩ := map_eq_some_iff.mp halloc
        cases heq
        exact ⟨s, rfl⟩
    obtain ⟨s₁, rfl⟩ := hclear
    exact if_pos ⟨hlo, hhi⟩

/-- A reset. -/
theorem PteRun.Inv.reset (h : r.Inv k) :
    ∃ r', PteRun.step .reset r = some r' ∧ r'.linked = true ∧ ∃ k', r'.Inv k' := by
  refine ⟨_, rfl, ?_, ?_⟩
  · by_cases hlinked : r.linked = true
    · simp [hlinked]
    · simp [h.alloc_eq, h.unlinked (by simpa using hlinked)]
  · by_cases halloc : r.clist.pteAllocSize = 0
    · refine ⟨0, ?_⟩
      simp only [initPteCacheList, halloc, ne_eq, not_true_eq_false, if_false]
      constructor <;> simp
    · refine ⟨r.clist.pteList.length, ?_⟩
      simp only [initPteCacheList, halloc, ne_eq, not_false_eq_true, if_true]
      constructor
      · exact h.alloc_eq
      · exact h.alloc_eq
      · exact le_rfl
      · simp [halloc]
      · simp
      · exact h.nodup
      · intro hlinked
        simp only [Bool.or_eq_false_iff] at hlinked
        exact h.unlinked hlinked.1

/-- A page that `request_pages` has given is appended to the list. -/
theorem PteRun.Inv.request (h : r.Inv 0) {page : ℕ} (hpage : page ∉ r.clist.pteList)
    (hlinked : r.linked = true) (word : ℕ → ℕ) :
    ∃ r', PteRun.step (.alloc (some page) word) r = some r' ∧ r'.linked = r.linked ∧ r'.Inv 0 := by
  have hfree := h.free_eq_zero_iff.mpr rfl
  refine ⟨{ r with
    clist := { r.clist with
      pteList := r.clist.pteList ++ [page]
      pteAllocSize := r.clist.pteAllocSize + pageSize }
    returned := r.returned ++ [page] }, ?_, rfl, ?_⟩
  · simp [PteRun.step, PteCall.frames, allocNewPtePage, requestPage, hfree, hlinked]
  constructor
  · simp only [h.alloc_eq, length_append, length_singleton, Nat.mul_add, Nat.mul_one]
  · simp only [hfree, Nat.mul_zero]
  · exact Nat.zero_le _
  · exact fun hne => absurd rfl hne
  · simp only [h.returned, Nat.sub_zero, take_length]
  · exact List.Nodup.append h.nodup (nodup_singleton page) (disjoint_singleton.mpr hpage)
  · exact fun hno => absurd (hlinked.symm.trans hno) (by simp)

/-- A page of the list is fetched again. -/
theorem PteRun.Inv.reuse (h : r.Inv k) (hk : k ≠ 0) (got : Option ℕ) (word : ℕ → ℕ) :
    ∃ r', PteRun.step (.alloc got word) r = some r' ∧ r'.linked = r.linked ∧ r'.Inv (k - 1) := by
  obtain ⟨hcursor, hcurrent⟩ := h.cursor hk
  obtain ⟨page, -, halloc, htake⟩ := h.alloc_free hk
  have hfree := mt h.free_eq_zero_iff.mp hk
  have hle := h.le_length
  have hleft : r.clist.pteFreeSize - pageSize = pageSize * (k - 1) := by
    rw [h.free_eq, Nat.mul_sub, Nat.mul_one]
  -- Named, so that the size of a page is not unfolded below.
  generalize pageSize * (k - 1) = left at hleft
  simp only [hleft] at halloc
  refine ⟨{ r with
    clist := { r.clist with
      pteCurrentPage := r.clist.pteCurrentPage + 1
      pteFreeSize := left }
    returned := r.returned ++ [page] }, ?_, rfl, ?_⟩
  · simp [PteRun.step, halloc, hfree, hcursor]
  constructor
  · exact h.alloc_eq
  · simp only [← hleft, h.free_eq, Nat.mul_sub, Nat.mul_one]
  · simp only
    omega
  · intro _
    refine ⟨hcursor, ?_⟩
    simp only [hcurrent]
    omega
  · exact htake
  · exact h.nodup
  · exact h.unlinked

/-- An allocation that completes keeps the invariant. It completes when the head of the list
has been initialised. -/
theorem PteRun.Inv.alloc (h : r.Inv k) {got : Option ℕ} {word : ℕ → ℕ}
    (hfresh : r.Fresh (.alloc got word)) :
    (∃ r', PteRun.step (.alloc got word) r = some r' ∧ r'.linked = r.linked ∧ ∃ k', r'.Inv k') ∨
      r.linked = false ∧ PteRun.step (.alloc got word) r = none := by
  by_cases hk : k = 0
  · subst hk
    have hfree := h.free_eq_zero_iff.mpr rfl
    cases got with
    | none => exact Or.inl ⟨r, h.ok.failed hfree word, rfl, 0, h⟩
    | some page =>
      cases hlinked : r.linked with
      | false => exact Or.inr ⟨rfl, by simp [PteRun.step, hfree, hlinked]⟩
      | true =>
        obtain ⟨r', hstep, hsame, hinv⟩ := h.request (hfresh page rfl) hlinked word
        exact Or.inl ⟨r', hstep, hsame.trans hlinked, 0, hinv⟩
  · obtain ⟨r', hstep, hsame, hinv⟩ := h.reuse hk got word
    exact Or.inl ⟨r', hstep, hsame, k - 1, hinv⟩

theorem PteRun.step_inv (call : PteCall) (r r' : PteRun) (h : ∃ k, r.Inv k) (hfresh : r.Fresh call)
    (hstep : PteRun.step call r = some r') : ∃ k, r'.Inv k := by
  obtain ⟨k, h⟩ := h
  cases call with
  | reset =>
    obtain ⟨r₁, hr₁, -, hinv⟩ := h.reset
    obtain rfl := some.inj (hstep.symm.trans hr₁)
    exact hinv
  | alloc got word =>
    rcases h.alloc hfresh with ⟨r₁, hr₁, -, hinv⟩ | ⟨-, hnone⟩
    · obtain rfl := some.inj (hstep.symm.trans hr₁)
      exact hinv
    · simp [hnone] at hstep

theorem PteRun.step_linked {call : PteCall} (h : r.linked = true ∧ ∃ k, r.Inv k)
    (hfresh : r.Fresh call) :
    ∃ r', PteRun.step call r = some r' ∧ r'.linked = true ∧ ∃ k, r'.Inv k := by
  obtain ⟨hlinked, k, hinv⟩ := h
  cases call with
  | reset => exact hinv.reset
  | alloc got word =>
    rcases hinv.alloc hfresh with ⟨r', hstep, hsame, hinv'⟩ | ⟨hunlinked, -⟩
    · exact ⟨r', hstep, hsame.trans hlinked, hinv'⟩
    · simp [hlinked] at hunlinked

theorem PteRun.zeroed_inv : PteRun.zeroed.Inv 0 where
  alloc_eq := rfl
  free_eq := rfl
  le_length := le_rfl
  cursor h := absurd rfl h
  returned := rfl
  nodup := nodup_nil
  unlinked _ := rfl

/-- In every run from a zeroed list, each state that is reached is as expected. A run whose
first call is a reset, as in `init_task_page_table`, completes. -/
theorem pteCacheList_runs_ok (calls : List PteCall)
    (hfresh : Meets PteRun.step (fun call r => r.Fresh call) calls PteRun.zeroed) :
    (∀ r, run PteRun.step calls PteRun.zeroed = some r → r.Ok) ∧
      ((∀ call ∈ calls.head?, call = .reset) →
        ∃ r, run PteRun.step calls PteRun.zeroed = some r) := by
  constructor
  · intro r hrun
    obtain ⟨k, h⟩ := invariant_of_meets PteRun.step_inv ⟨0, PteRun.zeroed_inv⟩ hfresh hrun
    exact h.ok
  · intro hfirst
    cases calls with
    | nil => exact ⟨_, rfl⟩
    | cons call calls =>
      obtain rfl := hfirst call rfl
      obtain ⟨r₁, hr₁, hlinked, hinv⟩ := PteRun.zeroed_inv.reset
      -- From here on the head of the list is initialised.
      obtain ⟨r, hrun, -⟩ := exists_run_of_meets
        (I := fun r : PteRun => r.linked = true ∧ ∃ k, r.Inv k)
        (fun _ _ => PteRun.step_linked) ⟨hlinked, hinv⟩ (hfresh.2 r₁ hr₁)
      exact ⟨r, run_cons_eq_some.mpr ⟨r₁, hr₁, hrun⟩⟩

/-- Two pages are allocated, a request fails, and after a reset the two pages and a new one
are returned. -/
def execCalls : List PteCall :=
  [.reset, .alloc (some 5) fun _ => 1, .alloc (some 9) fun _ => 1, .alloc none fun _ => 1, .reset,
    .alloc none fun _ => 1, .alloc none fun _ => 1, .alloc (some 7) fun _ => 1]

/-- The calls complete, and the list is right after them. -/
theorem pteCacheList_runs_ok_exec :
    Meets PteRun.step (fun call r => r.Fresh call) execCalls PteRun.zeroed ∧
      ∃ r, run PteRun.step execCalls PteRun.zeroed = some r ∧ r.Ok ∧ r.returned = [5, 9, 7] := by
  have hfresh : Meets PteRun.step (fun call r => r.Fresh call) execCalls PteRun.zeroed := by
    decide +kernel
  obtain ⟨hok, -⟩ := pteCacheList_runs_ok execCalls hfresh
  exact ⟨hfresh, exists_some_imp (P := fun r => r.returned = [5, 9, 7]) (by decide +kernel)
    fun r hrun hreturned => ⟨hok r hrun, hreturned⟩⟩

end Chunos.Pgt
