import Chunos.Lib.Runs
import Chunos.Mm.Section

/-!
# Runs of allocations and frees in one section

The kernel section starts with its first `b` pages in use. This file follows the
section through any sequence of `get_free_pages_from_section` calls that return and
`_free_pages` calls on heads of live runs. The search only ever hands out clear bits,
a free clears at most the bits of its own run, and a boot page that stays in use
keeps the cursor from being moved below the bitmap.
-/

namespace Chunos

open List Option

/-- A section with the history that the sources do not keep: the live runs as pairs
of first page and length, and every bitmap index read so far. -/
structure SectionRun where
  sec : MmSection
  zoneFree : ℕ → ℤ
  live : List (ℕ × ℕ)
  reads : List ℤ

/-- A call of the allocator, with the fuel for its loops: an allocation, or a free of
the head of a live run of `count` pages. -/
inductive SectionCall where
  | alloc (fuel count flag : ℕ) (vp : Bool)
  | free (fuel head count : ℕ)

/-- Perform one call. It is `none` when the call does not return, and for the calls
that are not made: an allocation of no pages and a free of a run that is not live.
An allocation that returns `0` adds no live run. -/
def SectionRun.step : SectionCall → SectionRun → Option SectionRun
  | .alloc fuel count flag vp, r =>
    if count = 0 then none
    else
      (getFreePagesFromSection fuel r.sec count flag vp).map fun (ret, sec, reads) =>
        { r with
          sec := sec
          live := ((r.sec.headPage ret).map fun head => (head, count)).toList ++ r.live
          reads := r.reads ++ reads }
  | .free fuel head count, r =>
    if (head, count) ∈ r.live then
      (_freePages fuel r.zoneFree r.sec head).map fun (zoneFree, sec, reads) =>
        { sec := sec
          zoneFree := zoneFree
          live := r.live.erase (head, count)
          reads := r.reads ++ reads }
    else none

/-- The section that `update_boot_section_info` leaves: the first `b` of `nr` pages
are in use, the cursor is behind them, and nothing has been read. -/
structure SectionRun.Boot (b nr : ℕ) (r : SectionRun) : Prop where
  nr_int : nr < 2 ^ 31
  nrPage_eq : r.sec.nrPage = nr
  bmEnd_eq : r.sec.bmEnd = nr
  bmCurrent_eq : r.sec.bmCurrent = b
  bits : ∀ i < nr, r.sec.bitmap.bit i = decide (i < b)
  live_nil : r.live = []
  reads_nil : r.reads = []

/-- Two runs of pages have no page in common. -/
def RunsDisjoint (a a' : ℕ × ℕ) : Prop := a.1 + a.2 ≤ a'.1 ∨ a'.1 + a'.2 ≤ a.1

/-- No page is handed out twice: live runs are disjoint, they lie behind the boot
pages and inside the section, their bits and the boot bits are set, and neither the
search nor the cursor has left the bitmap. -/
structure SectionRun.Safe (b nr : ℕ) (r : SectionRun) : Prop where
  disjoint : r.live.Pairwise RunsDisjoint
  contained : ∀ a ∈ r.live, b ≤ a.1 ∧ a.1 + a.2 ≤ nr
  bits_set : ∀ i : ℕ, (i < b ∨ ∃ a ∈ r.live, a.1 ≤ i ∧ i < a.1 + a.2) → readBit r.sec.bitmap i = 1
  reads_inside : ∀ i ∈ r.reads, 0 ≤ i ∧ i < nr
  cursor_inside : r.sec.bmCurrent < nr

/-- The invariant of a run: it is safe, the section keeps its size, and the head of a
live run holds the low 16 bits of the length of the run. -/
structure SectionRun.Inv (b nr : ℕ) (r : SectionRun) : Prop extends r.Safe b nr where
  nr_int : nr < 2 ^ 31
  nrPage_eq : r.sec.nrPage = nr
  bmEnd_eq : r.sec.bmEnd = nr
  heads : ∀ a ∈ r.live, 1 ≤ a.2 ∧ (r.sec.pageTable a.1).count = a.2 % 2 ^ 16

variable {r : SectionRun} {reads : List ℤ} {sec : MmSection} {a : ℕ × ℕ}

variable {b nr fuel : ℕ}

theorem SectionRun.Boot.inv (hboot : r.Boot b nr) (hb : b < nr) : r.Inv b nr := by
  obtain ⟨hint, hnr, hend, hcur, hbits, hlive, hreads⟩ := hboot
  refine ⟨⟨by simp [hlive], by simp [hlive], ?_, by simp [hreads], by omega⟩, hint, hnr, hend,
    by simp [hlive]⟩
  rintro i (hi | ⟨a, ha, _⟩)
  · rw [readBit_eq_one_iff (by omega), hbits i (by omega)]
    simpa using hi
  · simp [hlive] at ha

theorem headPage_of_success (s : MmSection) (index : ℕ) (vp : Bool) :
    s.headPage (if vp then .va (s.virStart + index <<< pageShift) else .page index) =
      some index := by
  cases vp
  · rfl
  · simp [MmSection.headPage, Nat.shiftLeft_shiftRight]

section
variable (hinv : r.Inv b nr)
include hinv

/-- An allocation that returns keeps the invariant. -/
theorem SectionRun.Inv.alloc {count flag : ℕ} {vp : Bool} {ret : PagesRet} (hcount : 1 ≤ count)
    (hret : getFreePagesFromSection fuel r.sec count flag vp = some (ret, sec, reads)) :
    SectionRun.Inv b nr
      { r with
        sec := sec
        live := ((r.sec.headPage ret).map fun head => (head, count)).toList ++ r.live
        reads := r.reads ++ reads } := by
  obtain ⟨⟨hdisj, hcont, hbits, hreads, hcur⟩, hint, hnr, hend, hheads⟩ := hinv
  obtain ⟨base, hfind, hcases⟩ := getFreePagesFromSection_eq hret
  rw [wrap32_eq_self (by omega) (by omega)] at hfind
  obtain ⟨hbase, hnew⟩ := bitmapFindFreeBase_spec (by omega) (by omega) (by omega) hfind
  have hreads' : ∀ i ∈ r.reads ++ reads, 0 ≤ i ∧ i < nr := by
    intro i hi
    rcases mem_append.mp hi with hi | hi
    · exact hreads i hi
    · rw [← hnr]
      exact hnew i hi
  rcases hcases with ⟨-, rfl, rfl⟩ | ⟨index, rfl, rfl, rfl⟩
  · exact ⟨⟨by simpa [MmSection.headPage] using hdisj, by simpa [MmSection.headPage] using hcont,
      by simpa [MmSection.headPage] using hbits, hreads', hcur⟩, hint, hnr, hend,
      by simpa [MmSection.headPage] using hheads⟩
  · obtain ⟨-, hrange, hclear⟩ : FreeRun r.sec.bitmap 0 r.sec.nrPage count index := by
      rcases hbase with h | h
      · simp only [enospc] at h
        omega
      · exact h
    simp only [headPage_of_success, map_some, toList_some, singleton_append]
    -- a page that is known to be in use cannot be one of the pages just found clear
    have hfresh : ∀ i, (i < b ∨ ∃ a ∈ r.live, a.1 ≤ i ∧ i < a.1 + a.2) →
        i < index ∨ index + count ≤ i := by
      intro i hi
      by_contra hin
      have h0 := hclear i (by omega) (by omega)
      have h1 := hbits i hi
      omega
    have hboot : b ≤ index := by
      by_contra hlt
      have := hfresh index (Or.inl (by omega))
      omega
    have hother : ∀ a ∈ r.live, RunsDisjoint (index, count) a := by
      intro a ha
      have hpos := (hheads a ha).1
      have hfirst := hfresh a.1 (Or.inr ⟨a, ha, by omega, by omega⟩)
      by_cases hin : a.1 ≤ index ∧ index < a.1 + a.2
      · have := hfresh index (Or.inr ⟨a, ha, hin⟩)
        omega
      · simp only [RunsDisjoint]
        omega
    have hlt : index + count ≤ 2 ^ 31 := by omega
    refine ⟨⟨pairwise_cons.mpr ⟨hother, hdisj⟩, ?_, ?_, hreads', ?_⟩, hint, hnr, hend, ?_⟩
    · intro a ha
      rcases mem_cons.mp ha with rfl | ha
      · exact ⟨hboot, by simp only; omega⟩
      · exact hcont a ha
    · intro i hi
      have hi31 : i < 2 ^ 31 := by
        rcases hi with hi | ⟨a, ha, _, hi⟩
        · omega
        · rcases mem_cons.mp ha with rfl | ha
          · simp only at hi; omega
          · have := (hcont a ha).2; omega
      rw [readBit_eq_one_iff hi31, bit_updateMemoryBitmap hlt]
      by_cases hin : index ≤ i ∧ i < index + count
      · simp [hin]
      · have hold : i < b ∨ ∃ a ∈ r.live, a.1 ≤ i ∧ i < a.1 + a.2 := by
          rcases hi with hi | ⟨a, ha, hai⟩
          · exact Or.inl hi
          · rcases mem_cons.mp ha with rfl | ha
            · exact absurd hai hin
            · exact Or.inr ⟨a, ha, hai⟩
        rw [(readBit_eq_one_iff hi31).mp (hbits i hold), ite_self]
    · dsimp only
      split_ifs <;> omega
    · intro a ha
      rcases mem_cons.mp ha with rfl | ha
      · exact ⟨hcount, (initPages_head hcount).1⟩
      · obtain ⟨hpos, hcnt⟩ := hheads a ha
        have hout := hfresh a.1 (Or.inr ⟨a, ha, by omega, by omega⟩)
        exact ⟨hpos, (congrArg Page.count (initPagesLoop_of_outside hout)).trans hcnt⟩

theorem SectionRun.Inv.count_le (ha : a ∈ r.live) : (r.sec.pageTable a.1).count ≤ a.2 := by
  rw [(hinv.heads a ha).2]
  exact Nat.mod_le _ _

/-- Clearing the bits of a live run leaves the bit of the first boot page set. -/
theorem SectionRun.Inv.usedBelow (hb : 1 ≤ b) (ha : a ∈ r.live) :
    (r.sec.cleared a.1).UsedBelow := by
  intro hne
  have hcont := hinv.contained a ha
  have hint := hinv.nr_int
  have hcount := hinv.count_le ha
  have hset := (readBit_eq_one_iff (by norm_num)).mp (hinv.bits_set 0 (Or.inl (by omega)))
  have hout : ¬ (a.1 ≤ 0 ∧ 0 < a.1 + (r.sec.pageTable a.1).count) := by omega
  refine ⟨0, by omega, ?_⟩
  rw [MmSection.cleared, bit_updateMemoryBitmap (by omega), if_neg hout, hset]

/-- A free that returns touches the section only below the length of its own run: the
bits of a prefix of the run are cleared, and the cursor is moved down. -/
theorem freePages_cases (hb : 1 ≤ b) (ha : a ∈ r.live) {zoneFree : ℕ → ℤ}
    (hret : _freePages fuel r.zoneFree r.sec a.1 = some (zoneFree, sec, reads)) :
    (∀ i ∈ reads, 0 ≤ i ∧ i < nr) ∧ ∃ n ≤ a.2, ∃ cur ≤ r.sec.bmCurrent,
      sec = { r.sec with
        bitmap := updateMemoryBitmap r.sec.bitmap a.1 n false, bmCurrent := cur } := by
  have hcont := hinv.contained a ha
  have hcur := hinv.cursor_inside
  have hint := hinv.nr_int
  unfold _freePages at hret
  simp only at hret
  split_ifs at hret with hflag
  · simp only [some.injEq, Prod.mk.injEq] at hret
    obtain ⟨_, rfl, rfl⟩ := hret
    exact ⟨by simp, 0, by omega, r.sec.bmCurrent, le_rfl, rfl⟩
  · simp only [bind_eq_bind, bind_eq_some_iff] at hret
    obtain ⟨id, _, ⟨s', reads'⟩, hfree, hpair⟩ := hret
    simp only [Option.pure_def, some.injEq, Prod.mk.injEq] at hpair
    obtain ⟨_, rfl, rfl⟩ := hpair
    obtain ⟨⟨cur, hcurle, rfl⟩, hreads⟩ :=
      sectionFreePages_spec (hinv.usedBelow hb ha) (by omega) hfree
    refine ⟨?_, _, hinv.count_le ha, cur, hcurle, rfl⟩
    intro i hi
    have := hreads i hi
    omega

/-- A free of the head of a live run keeps the invariant. -/
theorem SectionRun.Inv.free (hb : 1 ≤ b) (ha : a ∈ r.live) {zoneFree : ℕ → ℤ}
    (hret : _freePages fuel r.zoneFree r.sec a.1 = some (zoneFree, sec, reads)) :
    SectionRun.Inv b nr
      { sec := sec, zoneFree := zoneFree, live := r.live.erase a, reads := r.reads ++ reads } := by
  obtain ⟨hnew, n, hn, cur, hcurle, rfl⟩ := freePages_cases hinv hb ha hret
  obtain ⟨⟨hdisj, hcont, hbits, hreads, hcur⟩, hint, hnr, hend, hheads⟩ := hinv
  have hrest : ∀ a' ∈ r.live.erase a, a' ∈ r.live ∧ RunsDisjoint a a' := by
    intro a' ha'
    refine ⟨mem_of_mem_erase ha', ?_⟩
    have hcons := (perm_cons_erase ha).pairwise_iff (R := RunsDisjoint)
      (fun h => by simp only [RunsDisjoint] at h ⊢; omega)
    exact (pairwise_cons.mp (hcons.mp hdisj)).1 a' ha'
  have hrange := hcont a ha
  refine ⟨⟨hdisj.sublist erase_sublist, fun a' ha' => hcont a' (hrest a' ha').1, ?_, ?_,
    by simp only; omega⟩, hint, hnr, hend, fun a' ha' => hheads a' (hrest a' ha').1⟩
  · intro i hi
    have hi31 : i < 2 ^ 31 := by
      rcases hi with hi | ⟨a', ha', _, hi⟩
      · omega
      · have := (hcont a' (hrest a' ha').1).2
        omega
    have hout : ¬ (a.1 ≤ i ∧ i < a.1 + n) := by
      rcases hi with hi | ⟨a', ha', hi⟩
      · omega
      · have := (hrest a' ha').2
        simp only [RunsDisjoint] at this
        omega
    have hold : i < b ∨ ∃ a ∈ r.live, a.1 ≤ i ∧ i < a.1 + a.2 :=
      hi.imp_right fun ⟨a', ha', h⟩ => ⟨a', (hrest a' ha').1, h⟩
    rw [readBit_eq_one_iff hi31, bit_updateMemoryBitmap (by omega), if_neg hout,
      (readBit_eq_one_iff hi31).mp (hbits i hold)]
  · intro i hi
    rcases mem_append.mp hi with hi | hi
    · exact hreads i hi
    · exact hnew i hi

end

theorem SectionRun.Inv.step (hb : 1 ≤ b) {c : SectionCall} {r' : SectionRun} (hinv : r.Inv b nr)
    (hstep : SectionRun.step c r = some r') : r'.Inv b nr := by
  cases c with
  | alloc fuel count flag vp =>
    simp only [SectionRun.step] at hstep
    split_ifs at hstep with hcount
    obtain ⟨⟨ret, sec, reads⟩, hret, rfl⟩ := map_eq_some_iff.mp hstep
    exact hinv.alloc (by omega) hret
  | free fuel head count =>
    simp only [SectionRun.step] at hstep
    split_ifs at hstep with hlive
    obtain ⟨⟨zoneFree, sec, reads⟩, hret, rfl⟩ := map_eq_some_iff.mp hstep
    exact hinv.free hb hlive hret

/-- **Page allocation in one section.** From the boot state of a section with at least
one boot page, every sequence of allocations that return and frees of live heads
leaves the live runs disjoint and inside the section, keeps their bits and the boot
bits set, and reads no bit outside the bitmap. -/
theorem section_runs_safe {b nr : ℕ} (hb : 1 ≤ b) (hnr : b < nr) {r r' : SectionRun}
    (hboot : r.Boot b nr) {calls : List SectionCall}
    (hrun : Runs.run SectionRun.step calls r = some r') : r'.Safe b nr :=
  (Runs.invariant_of_run (fun _ _ _ hinv hstep => hinv.step hb hstep) (hboot.inv hnr) hrun).toSafe

/-- A section of four pages at the virtual base of the kernel, its first page in use. -/
def fourPageBoot : SectionRun where
  sec :=
    { phyStart := 0x30000000
      virStart := 0x80000000
      nrPage := 4
      bmEnd := 4
      bmCurrent := 1
      nrFreePages := 3
      bitmap := fun _ => 1
      sectionTableId := 0
      pageTable := fun _ => ⟨0, 0, 0, 0, 0, 0⟩ }
  zoneFree := fun _ => 3
  live := []
  reads := []

/-- Two pages and one page are taken from that section and the two given back. The free
finds the cursor at index `0`, where the second allocation has left it. -/
theorem section_runs_safe_fourPageBoot :
    ∃ r, Runs.run SectionRun.step [.alloc 8 2 1 false, .alloc 8 1 1 true, .free 8 1 2]
        fourPageBoot = some r ∧
      (r.live, r.reads) = ([(3, 1)], [1, 2, 3]) ∧ r.Safe 1 4 := by
  have hboot : fourPageBoot.Boot 1 4 := ⟨by decide, rfl, rfl, rfl, by decide, rfl, rfl⟩
  exact Runs.exists_some_imp (P := fun r => (r.live, r.reads) = ([(3, 1)], [1, 2, 3])) (by decide)
    fun r hrun hobs => ⟨hobs, section_runs_safe (by decide) (by decide) hboot hrun⟩

end Chunos
