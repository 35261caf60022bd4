import Chunos.Fs.LmfsPool

/-!
# Emptying the pool of free blocks

`lmfs_pop_block` takes a pool for empty when `data_free_blocks` is 0, but neither a pop nor a
push changes that count. A pool that was not empty when it was mounted is therefore never
found empty: its last pop leaves the position in the block in front of the pool, a further pop
returns what the buffer happens to hold, and a push writes the buffer to that block. Until
then the pool hands out every free block once.
-/

namespace Chunos.Lmfs

open List Option

/-- A call of the pool, with whether the device serves what the call may read or write. -/
inductive DrainCall where
  | pop (io : Bool)
  | push (io : Bool) (block : ℕ)
deriving DecidableEq, Repr

/-- The pool, with the numbers that are free and those that are handed out, by what the calls
have returned. -/
structure DrainRun where
  lsb : SuperBlock
  free : List ℕ
  out : List ℕ

/-- One call. -/
def DrainRun.step (call : DrainCall) (r : DrainRun) : Option DrainRun :=
  match call with
  | .pop io =>
    let (block, lsb) := popBlock io r.lsb
    if block = 0 then some { r with lsb := lsb }
    else some { lsb := lsb, free := r.free.erase block, out := block :: r.out }
  | .push io block =>
    let (err, lsb) := pushBlock io r.lsb block
    if err = 0 then some { lsb := lsb, free := block :: r.free, out := r.out.erase block }
    else some { r with lsb := lsb }

/-- A pool as it is mounted: block numbers without repetition, counted by `data_free_blocks`,
in the blocks of the pool, or none of them and the position in front of the pool. Block 0 has
the superblock. -/
structure DataPool (lsb : SuperBlock) (free : List ℕ) : Prop where
  nodup : free.Nodup
  zero_notMem : 0 ∉ free
  start_pos : 0 < lsb.dbPoolStartBlock
  counted : lsb.dataFreeBlocks = free.length
  entries : WellFormed lsb ∧ free = lsb.entries ∨
    lsb.dbPoolCurrentBlock + 1 = lsb.dbPoolStartBlock ∧ lsb.dbPoolPos = 1023 ∧ free = []

/-- The blocks that were written between two states are blocks of the pool. -/
def WritesInside (lsb lsb' : SuperBlock) : Prop :=
  ∃ blocks, lsb'.device.written = lsb.device.written ++ blocks ∧
    ∀ b ∈ blocks, lsb.dbPoolStartBlock ≤ b ∧ b < lsb.dbPoolStartBlock + lsb.dbPoolBlockNr

/-- What a call should do: a pop returns 0 exactly when no block is free, and otherwise no
block that is handed out; and only blocks of the pool are written. -/
def Proper (r : DrainRun) : DrainCall → Prop
  | .pop io => ((popBlock io r.lsb).1 = 0 ↔ r.free = []) ∧ (popBlock io r.lsb).1 ∉ r.out ∧
      WritesInside r.lsb (popBlock io r.lsb).2
  | .push io block => WritesInside r.lsb (pushBlock io r.lsb block).2

/-- The call finds an entry in the pool, or it is a pop from a pool that counts no free block.
A pop that has to read a block is served, and a push is of a number that is not free and finds
room in the blocks of the pool. -/
def Supplied : DrainCall → DrainRun → Prop
  | .pop io, r => r.lsb.dataFreeBlocks = 0 ∨
      r.lsb.dbPoolStartBlock ≤ r.lsb.dbPoolCurrentBlock ∧
        (io = true ∨ r.lsb.dbPoolPos ≠ 0 ∨ r.lsb.dbPoolCurrentBlock = r.lsb.dbPoolStartBlock)
  | .push _ block, r => block = 0 ∨
      r.lsb.dbPoolStartBlock ≤ r.lsb.dbPoolCurrentBlock ∧ block ∉ r.free ∧
        r.free.length < 1024 * r.lsb.dbPoolBlockNr

instance (call : DrainCall) (r : DrainRun) : Decidable (Supplied call r) := by
  cases call <;> unfold Supplied <;> infer_instance

/-- The pool has the free numbers as its entries. It has none when its position is in front of
its blocks. -/
def HoldsFree (lsb : SuperBlock) (free : List ℕ) : Prop :=
  (∃ stack, Holds lsb stack ∧ stack.Perm free) ∨
    lsb.dbPoolCurrentBlock < lsb.dbPoolStartBlock ∧ free = []

/-- Along a run the free numbers are those in the pool, and no number is both free and handed
out. -/
structure DrainRun.Inv (r : DrainRun) : Prop where
  nodup : r.free.Nodup
  zero_notMem : 0 ∉ r.free
  start_pos : 0 < r.lsb.dbPoolStartBlock
  out_nodup : r.out.Nodup
  zero_notMem_out : 0 ∉ r.out
  disjoint : ∀ b ∈ r.out, b ∉ r.free
  entries : HoldsFree r.lsb r.free

variable {lsb : SuperBlock} {stack : List ℕ} {r : DrainRun}

theorem DataPool.inv {free : List ℕ} (h : DataPool lsb free) : DrainRun.Inv ⟨lsb, free, []⟩ where
  nodup := h.nodup
  zero_notMem := h.zero_notMem
  start_pos := h.start_pos
  out_nodup := nodup_nil
  zero_notMem_out := not_mem_nil
  disjoint := fun _ hb => absurd hb not_mem_nil
  entries := by
    rcases h.entries with ⟨hpool, rfl⟩ | ⟨hcur, -, hfree⟩
    · exact .inl ⟨lsb.entries, hpool.holds_entries, List.Perm.refl _⟩
    · refine .inr ⟨?_, hfree⟩
      dsimp only
      omega

variable {block : ℕ} {io : Bool}

theorem Holds.popBlock_last (h : Holds lsb [block]) (hstart : 0 < lsb.dbPoolStartBlock) (io : Bool) :
    popBlock io lsb =
      (block, { lsb with
        dbPoolCurrentBlock := lsb.dbPoolStartBlock - 1
        dbPoolPos := 1023 }) := by
  have hlen := h.length_eq
  have hle := h.start_le
  have hcur := h.current_lt
  have hdisk := h.on_disk
  have htop := h.getLastD_eq
  rw [SuperBlock.entryCount, length_singleton] at hlen
  have hpos : lsb.dbPoolPos = 0 := by omega
  have hprev : (lsb.dbPoolCurrentBlock + (2 ^ 32 - 1)) % 2 ^ 32 = lsb.dbPoolStartBlock - 1 := by
    omega
  have hout : ¬ lsb.dbPoolStartBlock ≤ lsb.dbPoolStartBlock - 1 := by omega
  rw [hpos] at htop
  simp only [popBlock, h.some_free, hpos, if_false, if_true, hprev, hout, ← htop]
  rfl

theorem popBlock_fixed (io : Bool) (lsb : SuperBlock) :
    (popBlock io lsb).2.device = lsb.device ∧
      (popBlock io lsb).2.dbPoolStartBlock = lsb.dbPoolStartBlock := by
  simp only [popBlock]
  by_cases hfree : lsb.dataFreeBlocks = 0
  · simp only [hfree, if_true, and_self]
  by_cases hpos : lsb.dbPoolPos = 0
  · simp only [hfree, hpos, if_true, if_false]
    by_cases hstart : lsb.dbPoolStartBlock ≤ (lsb.dbPoolCurrentBlock + (2 ^ 32 - 1)) % 2 ^ 32
    · simp only [hstart, if_true]
      cases io <;> simp only [if_true, if_false, and_self, Bool.false_eq_true]
    · simp only [hstart, if_false, and_self]
  · simp only [hfree, hpos, if_false, and_self]

/-- A pop from a pool with entries hands out one of them. -/
theorem Holds.popBlock_free {free : List ℕ} (h : Holds lsb stack) (hperm : stack.Perm free)
    (hstart : 0 < lsb.dbPoolStartBlock)
    (hio : io = true ∨ lsb.dbPoolPos ≠ 0 ∨ lsb.dbPoolCurrentBlock = lsb.dbPoolStartBlock) :
    (popBlock io lsb).1 ∈ free ∧
      HoldsFree (popBlock io lsb).2 (free.erase (popBlock io lsb).1) := by
  rcases eq_nil_or_concat' stack with rfl | ⟨rest, block, rfl⟩
  · exact absurd h.length_eq (by simp [SuperBlock.entryCount])
  have herase : rest.Perm (free.erase block) := by
    have hfront := (perm_append_singleton block rest).symm.trans hperm
    simpa using hfront.erase block
  have hmem : block ∈ free := hperm.subset (by simp)
  by_cases hlast : rest = []
  · subst hlast
    rw [h.popBlock_last hstart io]
    refine ⟨hmem, .inr ⟨?_, herase.nil_eq.symm⟩⟩
    dsimp only
    omega
  · have hpos := length_pos_iff.mpr hlast
    have htwo : 2 ≤ (rest ++ [block]).length := by
      rw [length_append, length_singleton]
      omega
    obtain ⟨hreturn, hholds, -⟩ := h.pop htwo
    rw [dropLast_concat] at hholds
    -- The device is only needed at the end of a block, which is not the first one then.
    have hserved : popBlock io lsb = popBlock true lsb := by
      by_cases hpos : lsb.dbPoolPos = 0
      · have hlt := h.start_lt htwo hpos
        rw [hio.resolve_right (by omega)]
      · simp only [popBlock, hpos, if_false]
    rw [hserved, hreturn, getLastD_concat]
    exact ⟨hmem, .inl ⟨rest, hholds, herase⟩⟩

/-- A push of a new number onto a pool with entries and room adds it, unless the device fails
and nothing changes. -/
theorem Holds.pushBlock_free (h : Holds lsb stack) (hblock : block ≠ 0)
    (hroom : stack.length < 1024 * lsb.dbPoolBlockNr) (io : Bool) :
    pushBlock io lsb block = (-eio, lsb) ∨
      pushBlock io lsb block = pushBlock true lsb block ∧ (pushBlock true lsb block).1 = 0 ∧
        Holds (pushBlock true lsb block).2 (stack ++ [block]) ∧
        Keeps lsb (pushBlock true lsb block).2 := by
  have htrue := h.push hblock hroom
  cases io with
  | true => exact .inr ⟨rfl, htrue⟩
  | false =>
    by_cases hpos : lsb.dbPoolPos = 1023
    · exact .inl (pushBlock_of_write_fails hblock hpos)
    · have hlt := h.pos_lt
      have hne : (lsb.dbPoolPos + 1) % 2 ^ 32 ≠ 1024 := by omega
      refine .inr ⟨?_, htrue⟩
      simp only [pushBlock, hne, if_false]

theorem writesInside_of_eq {lsb' : SuperBlock} (hsame : lsb'.device.written = lsb.device.written) :
    WritesInside lsb lsb' :=
  ⟨[], by rw [hsame, append_nil], by simp⟩

/-- A pop that is supplied does what it should, and keeps the invariant. -/
theorem DrainRun.Inv.pop (hr : r.Inv) (hsup : Supplied (.pop io) r) :
    Proper r (.pop io) ∧ ∀ r', r.step (.pop io) = some r' → r'.Inv := by
  obtain ⟨hdevice, hrange⟩ := popBlock_fixed io r.lsb
  have hwrites : WritesInside r.lsb (popBlock io r.lsb).2 := writesInside_of_eq (by rw [hdevice])
  rcases hr.entries with ⟨stack, hholds, hperm⟩ | ⟨hempty, hfree⟩
  · obtain ⟨-, hio⟩ := hsup.resolve_left hholds.some_free
    obtain ⟨hmem, hnext⟩ := hholds.popBlock_free hperm hr.start_pos hio
    have hne : (popBlock io r.lsb).1 ≠ 0 := fun h0 => hr.zero_notMem (h0 ▸ hmem)
    have hnew : (popBlock io r.lsb).1 ∉ r.out := fun hout => hr.disjoint _ hout hmem
    refine ⟨⟨iff_of_false hne (ne_nil_of_mem hmem), hnew, hwrites⟩, ?_⟩
    intro r' hstep
    simp only [DrainRun.step, hne, if_false, some.injEq] at hstep
    subst hstep
    exact {
      nodup := hr.nodup.erase _
      zero_notMem := fun h0 => hr.zero_notMem (mem_of_mem_erase h0)
      start_pos := hrange ▸ hr.start_pos
      out_nodup := nodup_cons.mpr ⟨hnew, hr.out_nodup⟩
      zero_notMem_out := by
        simp only [mem_cons, not_or]
        exact ⟨hne.symm, hr.zero_notMem_out⟩
      disjoint := by
        intro b hb hfree
        rcases mem_cons.mp hb with rfl | hb
        · exact hr.nodup.not_mem_erase hfree
        · exact hr.disjoint b hb (mem_of_mem_erase hfree)
      entries := hnext }
  · have hzero : r.lsb.dataFreeBlocks = 0 := hsup.resolve_right (by omega)
    have hpop : popBlock io r.lsb = (0, r.lsb) := by simp [popBlock, hzero]
    refine ⟨⟨?_, ?_, hwrites⟩, ?_⟩
    · simp [hpop, hfree]
    · rw [hpop]
      exact hr.zero_notMem_out
    · intro r' hstep
      simp only [DrainRun.step, hpop, if_true, some.injEq] at hstep
      exact hstep ▸ hr

/-- A push that is supplied does what it should, and keeps the invariant. -/
theorem DrainRun.Inv.push (hr : r.Inv) (hsup : Supplied (.push io block) r) :
    Proper r (.push io block) ∧ ∀ r', r.step (.push io block) = some r' → r'.Inv := by
  have hfails : ∀ err, err ≠ 0 → pushBlock io r.lsb block = (err, r.lsb) →
      Proper r (.push io block) ∧ ∀ r', r.step (.push io block) = some r' → r'.Inv := by
    intro err herr hpush
    refine ⟨writesInside_of_eq (by rw [hpush]), fun r' hstep => ?_⟩
    simp only [DrainRun.step, hpush, herr, if_false, some.injEq] at hstep
    exact hstep ▸ hr
  rcases hsup with rfl | ⟨hsome, hnew, hroom⟩
  · exact hfails (-einval) (by decide) (by simp [pushBlock])
  rcases hr.entries with ⟨stack, hholds, hperm⟩ | ⟨hempty, -⟩
  swap
  · omega
  by_cases hblock : block = 0
  · subst hblock
    exact hfails (-einval) (by decide) (by simp [pushBlock])
  rw [← hperm.length_eq] at hroom
  rcases hholds.pushBlock_free hblock hroom io with hpush | ⟨hsame, hzero, hnext, hkeeps⟩
  · exact hfails (-eio) (by decide) hpush
  refine ⟨?_, fun r' hstep => ?_⟩
  · rw [Proper, hsame]
    rcases hkeeps.written_eq with hsame | hone
    · exact writesInside_of_eq hsame
    · exact ⟨[r.lsb.dbPoolCurrentBlock], hone, by simp [hholds.start_le, hholds.current_lt]⟩
  · simp only [DrainRun.step, hsame, hzero, if_true, some.injEq] at hstep
    subst hstep
    have hperm' : (stack ++ [block]).Perm (block :: r.free) :=
      (perm_append_singleton block stack).trans (hperm.cons block)
    exact {
      nodup := nodup_cons.mpr ⟨hnew, hr.nodup⟩
      zero_notMem := by
        simp only [mem_cons, not_or]
        exact ⟨Ne.symm hblock, hr.zero_notMem⟩
      start_pos := hkeeps.start_eq ▸ hr.start_pos
      out_nodup := hr.out_nodup.erase _
      zero_notMem_out := fun h0 => hr.zero_notMem_out (mem_of_mem_erase h0)
      disjoint := by
        intro b hb hfree
        rcases mem_cons.mp hfree with rfl | hfree
        · exact hr.out_nodup.not_mem_erase hb
        · exact hr.disjoint b (mem_of_mem_erase hb) hfree
      entries := .inl ⟨_, hnext, hperm'⟩ }

theorem DrainRun.Inv.call (hr : r.Inv) {call : DrainCall} (hsup : Supplied call r) :
    Proper r call ∧ ∀ r', r.step call = some r' → r'.Inv := by
  cases call with
  | pop io => exact hr.pop hsup
  | push io block => exact hr.push hsup

/-- From a mounted pool, in every run whose calls are supplied, the next call that is supplied
does what it should: no block is handed out again before it was pushed back, a pop returns 0
exactly when no block is free, and only blocks of the pool are written. -/
theorem supplied_pool_proper {lsb : SuperBlock} {free : List ℕ} (hpool : DataPool lsb free)
    (calls : List DrainCall) (r : DrainRun)
    (hsup : Runs.Meets DrainRun.step Supplied calls ⟨lsb, free, []⟩)
    (hrun : Runs.run DrainRun.step calls ⟨lsb, free, []⟩ = some r) (call : DrainCall)
    (hcall : Supplied call r) : Proper r call := by
  have hinv : r.Inv := Runs.invariant_of_meets
    (fun call s s' hs hmeets hstep => (hs.call hmeets).2 s' hstep) hpool.inv hsup hrun
  exact (hinv.call hcall).1

/-- A pool of one block with two entries, as it is mounted. -/
def smallPool : SuperBlock :=
  { dbPoolStartBlock := 2, dbPoolCurrentBlock := 2, dbPoolPos := 1, dbPoolBlockNr := 1
    dataFreeBlocks := 2, dbPool := fun i => if i = 0 then 101 else if i = 1 then 100 else 0
    device := { words := fun _ _ => 0, written := [] } }

theorem smallPool_mounted : DataPool smallPool [101, 100] where
  nodup := by decide
  zero_notMem := by decide
  start_pos := by decide
  counted := by decide
  entries := .inl ⟨by constructor <;> decide, by decide⟩

/-- A block that is popped and pushed back is handed out again properly. -/
theorem supplied_pool_proper_small :
    ∃ r, Runs.run DrainRun.step [.pop true, .push true 100] ⟨smallPool, [101, 100], []⟩ =
      some r ∧ Proper r (.pop true) := by
  refine Runs.exists_some_imp (P := Supplied (.pop true)) (by decide +kernel) fun r hrun hcall => ?_
  exact supplied_pool_proper smallPool_mounted _ r (by decide +kernel) hrun (.pop true) hcall

/-- Once the two blocks of the small pool are handed out, a push of the first one writes the
buffer to block 1, in front of the pool. -/
theorem push_writes_in_front_of_pool :
    DataPool smallPool [101, 100] ∧
      (Runs.run DrainRun.step [.pop true, .pop true, .push true 100]
        ⟨smallPool, [101, 100], []⟩).map (fun r => r.lsb.device.written) = some [1] ∧
      ¬ smallPool.dbPoolStartBlock ≤ 1 :=
  ⟨smallPool_mounted, by decide +kernel, by decide⟩

end Chunos.Lmfs
