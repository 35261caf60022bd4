import Chunos.Bitops

/-!
# How far the search for free bits looks

`bitmap_find_free_base` starts at the cursor, goes on to the end of the map, and makes a second
pass from the front. The `i++` behind the wrap skips bit `0`, the second pass ends with the bit at
the cursor, and a cursor on the last bit is never met there because the wrap comes first. So the
search sees the runs behind the cursor and those from bit `1` up to the cursor, and with the
cursor on the last bit it only ends when it finds a run. This file makes both exact.
-/

namespace Chunos

open List Option

section Search

variable {map : Bitmap} {start value mapNr count ret : ℤ} {s s' : Scan} {fuel : ℕ} {reads : List ℤ}

/-- What the test of a bit leaves in `sum`. -/
def Scan.Counted (map : Bitmap) (value count : ℤ) (s : Scan) (sum : ℤ) : Prop :=
  ((readBit map s.i : ℤ) = value ∧ sum = s.sum + 1 ∧ sum ≠ count) ∨
    ((readBit map s.i : ℤ) ≠ value ∧ sum = 0)

/-- An iteration finds a run, or it counts the bit and goes on with the end of the body. -/
theorem scanStep_cases (map : Bitmap) (start value mapNr count : ℤ) (s : Scan) :
    ((readBit map s.i : ℤ) = value ∧ s.sum + 1 = count ∧
        scanStep map start value mapNr count s = .inr (s.i + 1 - count)) ∨
      ∃ sum, s.Counted map value count sum ∧
        scanStep map start value mapNr count s = scanNext start mapNr { s with sum := sum } := by
  unfold scanStep
  by_cases hhit : (readBit map s.i : ℤ) = value
  · by_cases hfound : s.sum + 1 = count
    · exact .inl ⟨hhit, hfound, by rw [if_pos hhit, if_pos hfound]⟩
    · exact .inr ⟨s.sum + 1, .inl ⟨hhit, rfl, hfound⟩, by rw [if_pos hhit, if_neg hfound]⟩
  · exact .inr ⟨0, .inr ⟨hhit, rfl⟩, if_neg hhit⟩

/-- An iteration that goes on comes to bit `1` behind the last bit, or to the next bit. -/
theorem scanStep_inl (hstep : scanStep map start value mapNr count s = .inl s') :
    ∃ sum, s.Counted map value count sum ∧
      (s.i = mapNr - 1 ∧ start ≠ 0 ∧ s' = ⟨1, true, 0⟩ ∨
        s.i ≠ mapNr - 1 ∧ ¬ (s.again = true ∧ s.i = start) ∧
          s' = { s with i := s.i + 1, sum := sum }) := by
  rcases scanStep_cases map start value mapNr count s with ⟨-, -, heq⟩ | ⟨sum, hsum, heq⟩
  · cases heq.symm.trans hstep
  · refine ⟨sum, hsum, ?_⟩
    rw [heq, scanNext] at hstep
    by_cases hend : s.i = mapNr - 1
    · simp only [if_pos hend, true_and] at hstep
      split_ifs at hstep with hstart
      exact .inl ⟨hend, Ne.symm hstart, (Sum.inl.inj hstep).symm⟩
    · simp only [if_neg hend] at hstep
      split_ifs at hstep with hstop
      exact .inr ⟨hend, hstop, (Sum.inl.inj hstep).symm⟩

/-- An iteration that returns has found a run, or it has come to the end of the search. -/
theorem scanStep_inr (hstep : scanStep map start value mapNr count s = .inr ret) :
    (readBit map s.i : ℤ) = value ∧ s.sum + 1 = count ∧ ret = s.i + 1 - count ∨
      ∃ sum, s.Counted map value count sum ∧ ret = -enospc ∧
        (s.i = mapNr - 1 ∧ start = 0 ∨ s.i ≠ mapNr - 1 ∧ s.again = true ∧ s.i = start) := by
  rcases scanStep_cases map start value mapNr count s with ⟨hhit, hfound, heq⟩ | ⟨sum, hsum, heq⟩
  · exact .inl ⟨hhit, hfound, (Sum.inr.inj (heq.symm.trans hstep)).symm⟩
  · refine .inr ⟨sum, hsum, ?_⟩
    rw [heq, scanNext] at hstep
    by_cases hend : s.i = mapNr - 1
    · simp only [if_pos hend, true_and] at hstep
      split_ifs at hstep with hstart
      exact ⟨(Sum.inr.inj hstep).symm, .inl ⟨hend, hstart.symm⟩⟩
    · simp only [if_neg hend] at hstep
      split_ifs at hstep with hstop
      exact ⟨(Sum.inr.inj hstep).symm, .inr ⟨hend, hstop⟩⟩

/-- What every iteration keeps holds of the iteration that returns and of all that is read. -/
theorem scanLoop_run {I : Scan → Prop}
    (hkeeps : ∀ s s', I s → scanStep map start value mapNr count s = .inl s' → I s') (h : I s)
    (hloop : scanLoop map start value mapNr count fuel s = some (ret, reads)) :
    (∃ s, I s ∧ s.i ∈ reads ∧ scanStep map start value mapNr count s = .inr ret) ∧
      ∀ i ∈ reads, ∃ s, I s ∧ s.i = i := by
  induction fuel generalizing s reads with
  | zero => simp [scanLoop] at hloop
  | succ fuel ih =>
    cases hstep : scanStep map start value mapNr count s with
    | inr r =>
      simp only [scanLoop, hstep] at hloop
      cases hloop
      exact ⟨⟨s, h, mem_singleton_self _, hstep⟩, fun i hi => ⟨s, h, (mem_singleton.mp hi).symm⟩⟩
    | inl s' =>
      simp only [scanLoop, hstep, map_eq_some_iff, Prod.mk.injEq] at hloop
      obtain ⟨⟨ret', rest⟩, hrest, rfl, rfl⟩ := hloop
      obtain ⟨⟨t, ht, hmem, hret⟩, hreads⟩ := ih (hkeeps s s' h hstep) hrest
      exact ⟨⟨t, ht, mem_cons_of_mem _ hmem, hret⟩, forall_mem_cons.mpr ⟨⟨s, h, rfl⟩, hreads⟩⟩

/-- A search for no bits at all counts every matching bit and finds nothing. -/
theorem scanLoop_zero (hsum : 0 ≤ s.sum)
    (hloop : scanLoop map start value mapNr 0 fuel s = some (ret, reads)) : ret = -enospc := by
  have hkeeps : ∀ s s' : Scan, 0 ≤ s.sum → scanStep map start value mapNr 0 s = .inl s' →
      0 ≤ s'.sum := by
    intro s s' h hstep
    obtain ⟨sum, ⟨-, hsum, -⟩ | ⟨-, hsum⟩, ⟨-, -, rfl⟩ | ⟨-, -, rfl⟩⟩ := scanStep_inl hstep <;>
      simp only <;> omega
  obtain ⟨⟨t, ht, -, hret⟩, -⟩ := scanLoop_run hkeeps hsum hloop
  obtain ⟨-, hfound, -⟩ | ⟨-, -, rfl, -⟩ := scanStep_inr hret
  · omega
  · rfl

/-- The last `sum` bits in front of the index match. -/
def Scan.Matching (map : Bitmap) (value : ℤ) (s : Scan) : Prop :=
  ∀ j, s.i - s.sum ≤ j → j < s.i → (readBit map j : ℤ) = value

theorem Scan.Matching.hit (h : s.Matching map value) (hhit : (readBit map s.i : ℤ) = value) :
    ∀ j, s.i - s.sum ≤ j → j < s.i + 1 → (readBit map j : ℤ) = value := by
  intro j hj hj'
  by_cases hlast : j = s.i
  · rw [hlast, hhit]
  · exact h j hj (by omega)

theorem Scan.Matching.advance {sum : ℤ} (h : s.Matching map value)
    (hsum : s.Counted map value count sum) :
    Scan.Matching map value { s with i := s.i + 1, sum := sum } := by
  intro j hj hj'
  simp only at hj hj'
  rcases hsum with ⟨hhit, rfl, -⟩ | ⟨-, rfl⟩
  · exact h.hit hhit j (by omega) hj'
  · omega

theorem Scan.matching_first (i : ℤ) (again : Bool) : Scan.Matching map value ⟨i, again, 0⟩ := by
  intro j hj hj'
  simp only at hj hj'
  omega

/-- Wherever the search starts, what it returns is `-ENOSPC` or the base of matching bits, the
last of which has been read last. -/
theorem scanLoop_matching (hmatch : s.Matching map value)
    (hloop : scanLoop map start value mapNr count fuel s = some (ret, reads)) :
    ret = -enospc ∨ (ret + count - 1 ∈ reads ∧
      ∀ j, ret ≤ j → j < ret + count → (readBit map j : ℤ) = value) := by
  have hkeeps : ∀ s s', Scan.Matching map value s →
      scanStep map start value mapNr count s = .inl s' → s'.Matching map value := by
    intro s s' h hstep
    obtain ⟨sum, hsum, ⟨-, -, rfl⟩ | ⟨-, -, rfl⟩⟩ := scanStep_inl hstep
    · exact Scan.matching_first 1 true
    · exact h.advance hsum
  obtain ⟨⟨t, ht, hmem, hret⟩, -⟩ := scanLoop_run hkeeps hmatch hloop
  obtain ⟨hhit, hfound, rfl⟩ | ⟨-, -, rfl, -⟩ := scanStep_inr hret
  · refine .inr ⟨?_, fun j hj hj' => ht.hit hhit j (by omega) (by omega)⟩
    rwa [Int.sub_add_cancel, Int.add_sub_cancel]
  · exact .inl rfl

/-- One pass of the search, from `lo` on: `sum` counts the matching bits in front of the index up
to a bit that does not match, and no run of the pass has been overlooked. -/
structure Scan.Pass (map : Bitmap) (value count lo : ℤ) (s : Scan) : Prop where
  lo_le : lo ≤ s.i - s.sum
  sum_nonneg : 0 ≤ s.sum
  sum_lt : s.sum < count
  matching : s.Matching map value
  edge : lo < s.i - s.sum → (readBit map (s.i - s.sum - 1) : ℤ) ≠ value
  none : ∀ r, lo ≤ r → r + count ≤ s.i → ∃ j, r ≤ j ∧ j < r + count ∧ (readBit map j : ℤ) ≠ value

theorem Scan.Pass.first (hcount : 1 ≤ count) (lo : ℤ) (again : Bool) :
    Scan.Pass map value count lo ⟨lo, again, 0⟩ where
  lo_le := by simp
  sum_nonneg := le_rfl
  sum_lt := by
    show (0 : ℤ) < count
    omega
  matching := Scan.matching_first lo again
  edge := fun h => by simp at h
  none := fun r hr hr' => by
    simp only at hr'
    omega

/-- A bit that does not complete a run keeps the pass. -/
theorem Scan.Pass.advance {lo sum : ℤ} (h : s.Pass map value count lo) (hcount : 1 ≤ count)
    (hsum : s.Counted map value count sum) :
    Scan.Pass map value count lo { s with i := s.i + 1, sum := sum } := by
  have hmatch := h.matching.advance hsum
  obtain ⟨hlo, hnonneg, hlt, -, hedge, hnone⟩ := h
  rcases hsum with ⟨hhit, rfl, hne⟩ | ⟨hmiss, rfl⟩
  · refine ⟨by simp only; omega, by simp only; omega, by simp only; omega, hmatch, ?_, ?_⟩
    · intro hlt'
      simp only at hlt' ⊢
      have hsame : s.i + 1 - (s.sum + 1) - 1 = s.i - s.sum - 1 := by omega
      rw [hsame]
      exact hedge (by omega)
    · intro r hr hr'
      simp only at hr'
      by_cases hold : r + count ≤ s.i
      · exact hnone r hr hold
      · -- A run that ends here would reach over the bit in front of the counted ones.
        exact ⟨s.i - s.sum - 1, by omega, by omega, hedge (by omega)⟩
  · refine ⟨by simp only; omega, le_rfl, by simp only; omega, hmatch, ?_, ?_⟩
    · intro _
      simpa using hmiss
    · intro r hr hr'
      simp only at hr'
      by_cases hold : r + count ≤ s.i
      · exact hnone r hr hold
      · exact ⟨s.i, by omega, by omega, hmiss⟩

/-- The runs that the search can find: behind the start, or from bit `1` up to the start. -/
def InSight (start count r : ℤ) : Prop := start ≤ r ∨ 1 ≤ r ∧ r + count ≤ start + 1

/-- The index of the search: behind the start in the first pass, between bit `1` and the start in
the second one. -/
def Scan.Inside (start mapNr : ℤ) (s : Scan) : Prop :=
  (s.again = false ∧ start ≤ s.i ∧ s.i < mapNr) ∨
    (s.again = true ∧ 1 ≤ s.i ∧ s.i ≤ start ∧ start < mapNr)

/-- What both passes keep: the runs that have been in sight so far do not exist. -/
structure Scan.Searching (map : Bitmap) (start value mapNr count : ℤ) (s : Scan) : Prop where
  inside : s.Inside start mapNr
  pass : s.Pass map value count (if s.again then 1 else start)
  behind : s.again = true → ∀ r, start ≤ r → ¬ FreeRun map value mapNr count r

theorem Scan.Inside.step (h : s.Inside start mapNr) (hlo : 0 ≤ start) (hhi : start < mapNr)
    (hstep : scanStep map start value mapNr count s = .inl s') : s'.Inside start mapNr := by
  obtain ⟨sum, -, ⟨-, hne, rfl⟩ | ⟨hend, hstop, rfl⟩⟩ := scanStep_inl hstep
  · exact .inr ⟨rfl, le_rfl, by show (1 : ℤ) ≤ start; omega, hhi⟩
  · rcases h with ⟨hagain, hle, hlt⟩ | ⟨hagain, hone, hle, hlt⟩
    · exact .inl ⟨hagain, by show start ≤ s.i + 1; omega, by show s.i + 1 < mapNr; omega⟩
    · have hne : s.i ≠ start := fun heq' => hstop ⟨hagain, heq'⟩
      exact .inr ⟨hagain, by show 1 ≤ s.i + 1; omega, by show s.i + 1 ≤ start; omega, hlt⟩

theorem Scan.Pass.not_freeRun {lo : ℤ} (h : s.Pass map value count lo) (hend : s.i = mapNr)
    {r : ℤ} (hr : lo ≤ r) : ¬ FreeRun map value mapNr count r := by
  rintro ⟨-, hle, hmatch⟩
  obtain ⟨j, hj, hj', hne⟩ := h.none r hr (by omega)
  exact hne (hmatch j hj hj')

theorem Scan.Searching.step (h : s.Searching map start value mapNr count) (hlo : 0 ≤ start)
    (hhi : start < mapNr) (hcount : 1 ≤ count)
    (hstep : scanStep map start value mapNr count s = .inl s') :
    s'.Searching map start value mapNr count := by
  have hinside := h.inside.step hlo hhi hstep
  obtain ⟨sum, hsum, ⟨hend, -, rfl⟩ | ⟨-, -, rfl⟩⟩ := scanStep_inl hstep
  · refine ⟨hinside, Scan.Pass.first hcount 1 true, fun _ r hr => ?_⟩
    cases hagain : s.again with
    | true => exact h.behind hagain r hr
    | false =>
      have hpass := h.pass.advance hcount hsum
      rw [hagain, if_neg Bool.false_ne_true] at hpass
      exact hpass.not_freeRun (by show s.i + 1 = mapNr; omega) hr
  · exact ⟨hinside, h.pass.advance hcount hsum, h.behind⟩

/-- An iteration that returns has found a run in sight, or there is none. -/
theorem Scan.Searching.returns (h : s.Searching map start value mapNr count) (hlo : 0 ≤ start)
    (hhi : start < mapNr) (hcount : 1 ≤ count)
    (hstep : scanStep map start value mapNr count s = .inr ret) :
    (ret = -enospc ∧ ∀ r, InSight start count r → ¬ FreeRun map value mapNr count r) ∨
      (FreeRun map value mapNr count ret ∧ InSight start count ret) := by
  obtain ⟨hinside, hpass, hbehind⟩ := h
  obtain ⟨hhit, hfound, rfl⟩ | ⟨sum, hsum, rfl, hstop⟩ := scanStep_inr hstep
  · right
    obtain ⟨hle, hnonneg, hlt, hmatch, -, -⟩ := hpass
    have hbits : ∀ j, s.i + 1 - count ≤ j → j < s.i + 1 - count + count →
        (readBit map j : ℤ) = value := fun j hj hj' =>
      hmatch.hit hhit j (by omega) (by omega)
    rcases hinside with ⟨hagain, hstart, hend⟩ | ⟨hagain, hone, hstart, hend⟩
    · rw [hagain, if_neg Bool.false_ne_true] at hle
      exact ⟨⟨by omega, by omega, hbits⟩, .inl (by omega)⟩
    · rw [hagain, if_pos rfl] at hle
      exact ⟨⟨by omega, by omega, hbits⟩, .inr ⟨by omega, by omega⟩⟩
  · have hpass' := hpass.advance hcount hsum
    refine .inl ⟨rfl, fun r hr => ?_⟩
    obtain ⟨hend, hzero⟩ | ⟨hend, hagain, hstart⟩ := hstop
    · rcases hinside with ⟨hagain, -, -⟩ | ⟨-, hone, hle, -⟩
      · rw [hagain, if_neg Bool.false_ne_true] at hpass'
        refine hpass'.not_freeRun (by show s.i + 1 = mapNr; omega) ?_
        rcases hr with hr | ⟨hr, -⟩ <;> omega
      · omega
    · intro hrun
      rcases hr with hr | ⟨hr, hr'⟩
      · exact hbehind hagain r hr hrun
      · rw [hagain, if_pos rfl] at hpass'
        obtain ⟨j, hj, hj', hne⟩ := hpass'.none r hr (by show r + count ≤ s.i + 1; omega)
        exact hne (hrun.2.2 j hj hj')

theorem Scan.Searching.first (hhi : start < mapNr) (hcount : 1 ≤ count) :
    Scan.Searching map start value mapNr count ⟨start, false, 0⟩ :=
  ⟨.inl ⟨rfl, le_rfl, hhi⟩, Scan.Pass.first hcount start false,
    fun h => absurd h Bool.false_ne_true⟩

/-- `bitmap_find_free_base` returns a run in sight, or `-ENOSPC` when there is none, and every bit
it reads is a bit of the map. -/
theorem bitmapFindFreeBase_inSight (hlo : 0 ≤ start) (hhi : start < mapNr) (hcount : 1 ≤ count)
    (hret : bitmapFindFreeBase fuel map start value mapNr count = some (ret, reads)) :
    ((ret = -enospc ∧ ∀ r, InSight start count r → ¬ FreeRun map value mapNr count r) ∨
      (FreeRun map value mapNr count ret ∧ InSight start count ret)) ∧
      ∀ i ∈ reads, 0 ≤ i ∧ i < mapNr := by
  obtain ⟨⟨t, ht, -, hret⟩, hreads⟩ := scanLoop_run
    (fun _ _ h => Scan.Searching.step h hlo hhi hcount) (Scan.Searching.first hhi hcount) hret
  refine ⟨ht.returns hlo hhi hcount hret, fun i hi => ?_⟩
  obtain ⟨t, ⟨⟨-, hle, hlt⟩ | ⟨-, hone, hle, hlt⟩, -, -⟩, rfl⟩ := hreads i hi <;> omega

/-- Whenever it returns, the result is `-ENOSPC` or the base of `count` matching bits. -/
theorem bitmapFindFreeBase_spec (hlo : 0 ≤ start) (hhi : start < mapNr) (hcount : 1 ≤ count)
    (hret : bitmapFindFreeBase fuel map start value mapNr count = some (ret, reads)) :
    (ret = -enospc ∨ FreeRun map value mapNr count ret) ∧ ∀ i ∈ reads, 0 ≤ i ∧ i < mapNr :=
  (bitmapFindFreeBase_inSight hlo hhi hcount hret).imp_left (.imp And.left And.left)

/-- The iterations that are left: to the end of the map and once more up to the start, or up to
the start. -/
def Scan.left (start mapNr : ℤ) (s : Scan) : ℤ :=
  if s.again then start + 1 - s.i else mapNr - s.i + start

theorem Scan.left_first (start mapNr : ℤ) : Scan.left start mapNr ⟨start, false, 0⟩ = mapNr := by
  show mapNr - start + start = mapNr
  omega

/-- An iteration that goes on leaves one less, unless the second pass wraps. -/
theorem Scan.left_step (hlast : s.again = true → s.i ≠ mapNr - 1)
    (hstep : scanStep map start value mapNr count s = .inl s') :
    s'.left start mapNr + 1 ≤ s.left start mapNr := by
  obtain ⟨sum, -, ⟨hend, -, rfl⟩ | ⟨hend, -, rfl⟩⟩ := scanStep_inl hstep
  · cases hagain : s.again with
    | true => exact absurd hend (hlast hagain)
    | false =>
      simp only [left, hagain, if_true]
      rw [if_neg Bool.false_ne_true]
      omega
  · simp only [left]
    split_ifs <;> omega

theorem Scan.Inside.left_pos (h : s.Inside start mapNr) (hlo : 0 ≤ start) :
    1 ≤ s.left start mapNr := by
  rcases h with ⟨hagain, -, hlt⟩ | ⟨hagain, -, hle, -⟩
  · rw [left, hagain, if_neg Bool.false_ne_true]
    omega
  · rw [left, hagain, if_pos rfl]
    omega

/-- The search ends when the second pass never has to go beyond the last bit. -/
theorem scanLoop_returns {I : Scan → Prop} (hlo : 0 ≤ start)
    (hinside : ∀ s, I s → s.Inside start mapNr)
    (hkeeps : ∀ s s', I s → scanStep map start value mapNr count s = .inl s' → I s')
    (hlast : ∀ s, I s → s.again = true → s.i = mapNr - 1 →
      ∃ ret, scanStep map start value mapNr count s = .inr ret)
    (h : I s) (hfuel : s.left start mapNr ≤ fuel) :
    ∃ ret reads, scanLoop map start value mapNr count fuel s = some (ret, reads) ∧
      reads.length ≤ s.left start mapNr := by
  have hpos := (hinside s h).left_pos hlo
  induction fuel generalizing s with
  | zero => omega
  | succ fuel ih =>
    cases hstep : scanStep map start value mapNr count s with
    | inr ret =>
      refine ⟨ret, [s.i], by rw [scanLoop, hstep], ?_⟩
      rw [length_singleton]
      omega
    | inl s' =>
      have hgoes : s.again = true → s.i ≠ mapNr - 1 := by
        intro hagain hend
        obtain ⟨ret, hret⟩ := hlast s h hagain hend
        rw [hret] at hstep
        cases hstep
      have hleft := Scan.left_step hgoes hstep
      have h' := hkeeps s s' h hstep
      obtain ⟨ret, reads, hloop, hlength⟩ :=
        ih h' (by omega) ((hinside s' h').left_pos hlo)
      refine ⟨ret, s.i :: reads, by rw [scanLoop, hstep]; simp only [hloop]; rfl, ?_⟩
      rw [length_cons]
      push_cast
      omega

/-- With the start on the last bit the search only returns what it has found. -/
theorem scanLoop_found (hlo : start ≠ 0) (hstart : start = mapNr - 1) (hsum : 0 ≤ s.sum)
    (hle : s.sum ≤ s.i) (hloop : scanLoop map start value mapNr count fuel s = some (ret, reads)) :
    1 ≤ count ∧ 0 ≤ ret := by
  have hkeeps : ∀ s s' : Scan, 0 ≤ s.sum ∧ s.sum ≤ s.i →
      scanStep map start value mapNr count s = .inl s' → 0 ≤ s'.sum ∧ s'.sum ≤ s'.i := by
    intro s s' h hstep
    obtain ⟨sum, ⟨-, hsum, -⟩ | ⟨-, hsum⟩, ⟨-, -, rfl⟩ | ⟨-, -, rfl⟩⟩ := scanStep_inl hstep <;>
      simp only <;> omega
  obtain ⟨⟨t, ht, -, hret⟩, -⟩ := scanLoop_run hkeeps ⟨hsum, hle⟩ hloop
  obtain ⟨-, hfound, rfl⟩ | ⟨-, -, -, ⟨-, hzero⟩ | ⟨hend, -, hstart'⟩⟩ := scanStep_inr hret
  · omega
  · exact absurd hzero hlo
  · exact absurd (hstart'.trans hstart) hend

/-- Unless it starts on the last bit, the search ends with each bit examined once. -/
theorem bitmapFindFreeBase_returns (hlo : 0 ≤ start) (hhi : start < mapNr)
    (hstart : start + 1 < mapNr ∨ mapNr = 1) (hfuel : mapNr ≤ fuel) :
    ∃ ret reads, bitmapFindFreeBase fuel map start value mapNr count = some (ret, reads) ∧
      reads.length ≤ mapNr := by
  have hfirst : Scan.Inside start mapNr ⟨start, false, 0⟩ := .inl ⟨rfl, le_rfl, hhi⟩
  have hleft : Scan.left start mapNr ⟨start, false, 0⟩ = mapNr := Scan.left_first start mapNr
  have hlast : ∀ s : Scan, s.Inside start mapNr → s.again = true → s.i = mapNr - 1 →
      ∃ ret, scanStep map start value mapNr count s = .inr ret := by
    intro s hs hagain hend
    rcases hs with ⟨hno, -, -⟩ | ⟨-, hone, hle, -⟩
    · rw [hno] at hagain
      cases hagain
    · omega
  have hloop := scanLoop_returns hlo (fun _ h => h)
    (fun _ _ h hstep => h.step hlo hhi hstep) hlast hfirst (by rw [hleft]; exact hfuel)
  rwa [hleft] at hloop

/-- When there is a run behind bit `0`, the search ends with each bit examined once. -/
theorem bitmapFindFreeBase_returns_of_run (hlo : 0 ≤ start) (hhi : start < mapNr)
    (hcount : 1 ≤ count) {r : ℤ} (hr : 1 ≤ r) (hrun : FreeRun map value mapNr count r)
    (hfuel : mapNr ≤ fuel) :
    ∃ ret reads, bitmapFindFreeBase fuel map start value mapNr count = some (ret, reads) ∧
      reads.length ≤ mapNr := by
  have hleft : Scan.left start mapNr ⟨start, false, 0⟩ = mapNr := Scan.left_first start mapNr
  have hlast : ∀ s : Scan, s.Searching map start value mapNr count → s.again = true →
      s.i = mapNr - 1 → ∃ ret, scanStep map start value mapNr count s = .inr ret := by
    intro s hs hagain hend
    rcases scanStep_cases map start value mapNr count s with ⟨-, -, heq⟩ | ⟨sum, hsum, -⟩
    · exact ⟨_, heq⟩
    · have hpass := hs.pass.advance hcount hsum
      rw [hagain, if_pos rfl] at hpass
      exact absurd hrun (hpass.not_freeRun (by show s.i + 1 = mapNr; omega) hr)
  have hloop := scanLoop_returns hlo (fun _ h => Scan.Searching.inside h)
    (fun _ _ h hstep => h.step hlo hhi hcount hstep) hlast (Scan.Searching.first hhi hcount)
    (by rw [hleft]; exact hfuel)
  rwa [hleft] at hloop

end Search

/-- What `bitmap_find_free_base` is for: it returns the base of a run of matching bits when there
is one in the map, and `-ENOSPC` otherwise. -/
structure FindsRun (map : Bitmap) (value mapNr count ret : ℤ) : Prop where
  found_iff : 0 ≤ ret ↔ ∃ r, FreeRun map value mapNr count r
  run : 0 ≤ ret → FreeRun map value mapNr count ret
  enospc : ¬ 0 ≤ ret → ret = -enospc

/-- Whenever `bitmap_find_free_base` returns, it does what it is for exactly when there is no run
at all or there is one in sight: behind the start, or from bit `1` up to the start. -/
theorem bitmapFindFreeBase_finds_iff {fuel : ℕ} {map : Bitmap} {start value mapNr count ret : ℤ}
    {reads : List ℤ} (hlo : 0 ≤ start) (hhi : start < mapNr) (hcount : 1 ≤ count)
    (hret : bitmapFindFreeBase fuel map start value mapNr count = some (ret, reads)) :
    FindsRun map value mapNr count ret ↔
      ((∃ r, FreeRun map value mapNr count r) →
        ∃ r, FreeRun map value mapNr count r ∧ InSight start count r) := by
  obtain ⟨rfl, hnone⟩ | ⟨hrun, hsight⟩ := (bitmapFindFreeBase_inSight hlo hhi hcount hret).1
  · have hneg : ¬ (0 : ℤ) ≤ -Chunos.enospc := by decide
    constructor
    · intro hfinds hsome
      exact absurd (hfinds.found_iff.mpr hsome) hneg
    · intro hsight
      refine ⟨⟨fun h => absurd h hneg, fun hsome => ?_⟩, fun h => absurd h hneg, fun _ => rfl⟩
      obtain ⟨r, hrun, hr⟩ := hsight hsome
      exact absurd hrun (hnone r hr)
  · constructor
    · exact fun _ _ => ⟨ret, hrun, hsight⟩
    · exact fun _ => ⟨⟨fun _ => ⟨ret, hrun⟩, fun _ => hrun.1⟩, fun _ => hrun,
        fun h => absurd hrun.1 h⟩

/-- A map with the given bits in its first word. -/
def wordMap (word : BitVec 32) : Bitmap := fun k => if k = 0 then word else 0

/-- A search from bit `1` finds the free bits `2` and `3`. -/
theorem bitmapFindFreeBase_finds_iff_four : FindsRun (wordMap 0b0011#32) 0 4 2 2 :=
  (@bitmapFindFreeBase_finds_iff 4 (wordMap 0b0011#32) 1 0 4 2 2 [1, 2, 3] (by decide) (by decide)
    (by decide) (by decide)).mpr fun _ => ⟨2, ⟨by decide, by decide, by
      intro j hj hj'
      obtain rfl | rfl : j = 2 ∨ j = 3 := by omega
      · decide
      · decide⟩, .inl (by decide)⟩

/-- With bit `0` free and bits `1` to `3` in use, a search for one bit from bit `1` on examines
bit `1` twice and bit `0` never. -/
theorem bitmapFindFreeBase_skips_zero :
    bitmapFindFreeBase 4 (wordMap 0b1110#32) 1 0 4 1 = some (-enospc, [1, 2, 3, 1]) ∧
      FreeRun (wordMap 0b1110#32) 0 4 1 0 := by
  refine ⟨by decide, by decide, by decide, ?_⟩
  intro j hj hj'
  obtain rfl : j = 0 := by omega
  decide

/-- `bitmap_find_free_base` ends, with at most two looks at each bit, exactly when it does not
start on the last of several bits or there is a run behind bit `0`. -/
theorem bitmapFindFreeBase_ends_iff {map : Bitmap} {start value mapNr count : ℤ} (hlo : 0 ≤ start)
    (hhi : start < mapNr) :
    (∃ fuel ret reads, bitmapFindFreeBase fuel map start value mapNr count = some (ret, reads) ∧
        (reads.length : ℤ) ≤ 2 * mapNr) ↔
      (start + 1 < mapNr ∨ mapNr = 1 ∨
        1 ≤ count ∧ ∃ r, 1 ≤ r ∧ FreeRun map value mapNr count r) := by
  constructor
  · rintro ⟨fuel, ret, reads, hret, -⟩
    by_contra hcond
    push Not at hcond
    obtain ⟨hlast, hone, hnone⟩ := hcond
    obtain ⟨hcount, hnonneg⟩ := scanLoop_found (by omega) (by omega) le_rfl hlo hret
    obtain ⟨rfl, -⟩ | ⟨hrun, hsight⟩ := (bitmapFindFreeBase_inSight hlo hhi hcount hret).1
    · exact absurd hnonneg (by decide)
    · refine hnone hcount ret ?_ hrun
      rcases hsight with h | ⟨h, -⟩ <;> omega
  · rintro hcond
    have hfuel : mapNr ≤ (mapNr.toNat : ℤ) := Int.self_le_toNat mapNr
    obtain ⟨ret, reads, hret, hlength⟩ : ∃ ret reads,
        bitmapFindFreeBase mapNr.toNat map start value mapNr count = some (ret, reads) ∧
          (reads.length : ℤ) ≤ mapNr := by
      rcases hcond with hstart | hone | ⟨hcount, r, hr, hrun⟩
      · exact bitmapFindFreeBase_returns hlo hhi (.inl hstart) hfuel
      · exact bitmapFindFreeBase_returns hlo hhi (.inr hone) hfuel
      · exact bitmapFindFreeBase_returns_of_run hlo hhi hcount hr hrun hfuel
    exact ⟨_, ret, reads, hret, by omega⟩

/-- A search from the first of two bits ends. -/
theorem bitmapFindFreeBase_ends_iff_two :
    ∃ fuel ret reads, bitmapFindFreeBase fuel (wordMap 0b11#32) 0 0 2 1 = some (ret, reads) ∧
      (reads.length : ℤ) ≤ 2 * 2 :=
  (bitmapFindFreeBase_ends_iff (by decide) (by decide)).mpr (.inl (by decide))

/-- A search from the second of two bits that are both in use does not end. -/
theorem bitmapFindFreeBase_hangs :
    readBit (wordMap 0b11#32) 0 = 1 ∧ readBit (wordMap 0b11#32) 1 = 1 ∧
    ∀ fuel, bitmapFindFreeBase fuel (wordMap 0b11#32) 1 0 2 1 = none := by
  have hstep : ∀ again, scanStep (wordMap 0b11#32) 1 0 2 1 ⟨1, again, 0⟩ = .inl ⟨1, true, 0⟩ := by
    decide
  have hloop : ∀ fuel again, scanLoop (wordMap 0b11#32) 1 0 2 1 fuel ⟨1, again, 0⟩ = none := by
    intro fuel
    induction fuel with
    | zero => exact fun _ => rfl
    | succ fuel ih =>
      intro again
      rw [scanLoop, hstep]
      simp only [ih]
      rfl
  exact ⟨by decide, by decide, fun fuel => hloop fuel false⟩

end Chunos
