import Chunos.Fs.SeekPosition
import Chunos.Lib.Runs

/-!
# Calls that fail, and the size of a read

A seek or a read that runs out of blocks, or that comes to a block that cannot be read, fails when
the file system has left the block of the position already. The size of a read is corrected by a
sum that may overflow and by a difference that is negative behind the end of the file.
-/

namespace Chunos.Vfs

open Runs Option

variable {σ : Type*} {ops : FilesystemOps σ} {B n k e len o : ℕ} {image : List UInt8}
  {walk : BlockWalk ops B n image} {fnode fnode' : Fnode σ} {file file' : File σ}
  {read : σ → ℕ → ℤ × List UInt8}

/-- The file system has not gone back, and it has gone on if there is an error. -/
structure Reached (walk : BlockWalk ops B n image) (err : ℤ) (fnode fnode' : Fnode σ) : Prop where
  valid : walk.valid fnode'.fs
  le_cursor : walk.cursor fnode.fs ≤ walk.cursor fnode'.fs
  cursor_lt : walk.cursor fnode'.fs < n
  moved : err ≠ 0 → walk.cursor fnode.fs < walk.cursor fnode'.fs

/-- Reading the next block goes to it, or the blocks are used up. -/
theorem vfsReadBlock_next (read : σ → ℕ → ℤ × List UInt8) (hvalid : walk.valid fnode.fs)
    (hc : walk.cursor fnode.fs < n) (buffer : List UInt8) :
    ∃ err bytes fnode', vfsReadBlock { ops with readBlock := read } fnode buffer .nextBlock =
        (err, bytes, fnode') ∧ (SameNode fnode fnode' ∧ Reached walk err fnode fnode' ∨
      err = -enospc ∧ bytes = buffer ∧ Exhausted walk fnode fnode') := by
  obtain ⟨⟨h₁, h₂, h₃, h₄⟩, hnumber, hnext⟩ := vfsGetDataBlock_next walk hvalid hc
  have hzero := walk.number_eq_zero (walk.cursor fnode.fs + 1)
  have heq : vfsGetDataBlock { ops with readBlock := read } fnode .nextBlock =
    vfsGetDataBlock ops fnode .nextBlock := rfl
  simp only [vfsReadBlock, heq, hnumber, hzero]
  by_cases hlt : walk.cursor fnode.fs + 1 < n
  · rw [if_pos hlt] at hnext
    rw [if_neg (not_le.mpr hlt)]
    have hgo := Nat.lt_of_succ_le hnext.2.ge
    exact ⟨_, _, _, rfl, .inl ⟨⟨h₁, h₂, h₃, h₄⟩, hnext.1, hgo.le, hnext.2.trans_lt hlt,
      fun _ => hgo⟩⟩
  · rw [if_neg hlt] at hnext
    rw [if_pos (not_lt.mp hlt)]
    exact ⟨_, _, _, rfl, .inr ⟨rfl, rfl, hnext⟩⟩

/-- So does the loop over whole blocks. -/
theorem readBlocks_next (read : σ → ℕ → ℤ × List UInt8) (hvalid : walk.valid fnode.fs)
    (hc : walk.cursor fnode.fs < n) (m : ℕ) (out : List UInt8) :
    ∃ err out' fnode', readBlocks { ops with readBlock := read } m fnode out = (err, out', fnode') ∧
      (SameNode fnode fnode' ∧ Reached walk err fnode fnode' ∨
        err = -enospc ∧ Exhausted walk fnode fnode') := by
  induction m generalizing fnode out with
  | zero =>
    exact ⟨0, out, fnode, rfl, .inl ⟨⟨rfl, rfl, rfl, rfl⟩, hvalid, le_rfl, hc, absurd rfl⟩⟩
  | succ m ih =>
    obtain ⟨err, bytes, fnode₁, hblock, hcases⟩ := vfsReadBlock_next read hvalid hc []
    simp only [readBlocks, hblock]
    split_ifs with herr
    · exact ⟨err, out, fnode₁, rfl, hcases.imp_right fun h => ⟨h.1, h.2.2⟩⟩
    obtain ⟨hsame, hmoved⟩ | ⟨rfl, -⟩ := hcases
    · obtain ⟨err', out', fnode₂, hloop, hcases'⟩ := ih hmoved.valid hmoved.cursor_lt (out ++ bytes)
      refine ⟨err', out', fnode₂, hloop, ?_⟩
      obtain ⟨hsame', hmoved'⟩ | ⟨rfl, hsame', hend⟩ := hcases'
      · exact .inl ⟨hsame.trans hsame', hmoved'.valid, hmoved.le_cursor.trans hmoved'.le_cursor,
          hmoved'.cursor_lt, fun h => hmoved.le_cursor.trans_lt (hmoved'.moved h)⟩
      · exact .inr ⟨rfl, hsame.trans hsame', hend⟩
    · exact absurd (by decide) herr

/-- So does reading the next block into the buffer. -/
theorem fillBuffer_next (read : σ → ℕ → ℤ × List UInt8) (hvalid : walk.valid fnode.fs)
    (hc : walk.cursor fnode.fs < n) :
    ∃ err fnode', fillBuffer { ops with readBlock := read } fnode = (err, fnode') ∧
      (fnode'.bufferSize = fnode.bufferSize ∧ Reached walk err fnode fnode' ∨
        err = -enospc ∧ Exhausted walk fnode fnode') := by
  obtain ⟨err, bytes, fnode₁, hblock, ⟨hsame, hmoved⟩ | ⟨rfl, rfl, ⟨h₁, h₂, h₃, h₄⟩, hend⟩⟩ :=
    vfsReadBlock_next read hvalid hc fnode.dataBuffer
  · exact ⟨err, fnode₁.copyIn 0 bytes, by simp only [fillBuffer, hblock],
      .inl ⟨hsame.bufferSize_eq, hmoved.valid, hmoved.le_cursor, hmoved.cursor_lt, hmoved.moved⟩⟩
  · exact ⟨-enospc, fnode₁.copyIn 0 fnode.dataBuffer, by simp only [fillBuffer, hblock],
      .inr ⟨rfl, ⟨copyIn_zero (congrArg List.length h₁), h₂, h₃, h₄⟩, hend⟩⟩

/-- A read returns its size, or a block behind the position cannot be read, or the blocks are used
up. -/
theorem readReal_next (hB : 0 < file.fnode.bufferSize) (hvalid : walk.valid file.fnode.fs)
    (hc : walk.cursor file.fnode.fs < n) {r : ℕ} {ret : ℤ} {out : List UInt8}
    (hread : readReal { ops with readBlock := read } file r = (ret, out, file')) :
    ret = r ∨ walk.cursor file.fnode.fs < walk.cursor file'.fnode.fs ∧
        walk.cursor file'.fnode.fs < n ∨
      file'.offset = file.offset ∧ Exhausted walk file.fnode file'.fnode := by
  simp only [readReal] at hread
  generalize splitRequest file.fnode.bufferSize file.fnode.rwPos r = split at hread
  obtain ⟨err, out₁, fnode₁, hloop, hcases⟩ := readBlocks_next read hvalid hc split.blocks
    ((file.fnode.dataBuffer.drop file.fnode.rwPos).take split.sizeInBuffer)
  simp only [hloop] at hread
  by_cases herr : err ≠ 0
  · rw [if_pos herr] at hread
    cases hread
    exact .inr (hcases.imp (fun h => ⟨h.2.moved herr, h.2.cursor_lt⟩) fun h => ⟨rfl, h.2⟩)
  rw [if_neg herr] at hread
  obtain ⟨hsame, hmoved⟩ | ⟨rfl, -⟩ := hcases
  swap
  · exact absurd (by decide) herr
  -- At most one more block is read, either for the rest or because the buffer is used up.
  obtain ⟨err', fnode₂, hfill, hcases⟩ := fillBuffer_next read hmoved.valid hmoved.cursor_lt
  have hfails (herr' : err' ≠ 0) : walk.cursor file.fnode.fs < walk.cursor fnode₂.fs ∧
      walk.cursor fnode₂.fs < n ∨ file.offset = file.offset ∧ Exhausted walk file.fnode fnode₂ := by
    obtain ⟨-, hmoved'⟩ | ⟨-, hsame', hend⟩ := hcases
    · exact .inl ⟨hmoved.le_cursor.trans_lt (hmoved'.moved herr'), hmoved'.cursor_lt⟩
    · exact .inr ⟨rfl, hsame.trans hsame', hend⟩
  have hsize (hleft : split.sizeLeft ≠ 0) (herr' : err' = 0) :
      fnode₂.bufferSize - split.sizeLeft ≠ fnode₂.bufferSize := by
    obtain ⟨hsize, -⟩ | ⟨rfl, -⟩ := hcases
    · rw [hsize, hsame.bufferSize_eq]
      omega
    · exact absurd herr' (by decide)
  by_cases hleft : split.sizeLeft = 0
  · by_cases hahead : split.sizeInBuffer = fnode₁.bufferSize
    · by_cases herr' : err' = 0
      · simp [readLeft, readAhead, hleft, hahead, hfill, herr'] at hread
        exact .inl hread.1.symm
      · simp [readLeft, readAhead, hleft, hahead, hfill, herr'] at hread
        obtain ⟨-, -, rfl⟩ := hread
        exact .inr (hfails herr')
    · simp [readLeft, readAhead, hleft, hahead] at hread
      exact .inl hread.1.symm
  · by_cases herr' : err' = 0
    · simp [readLeft, readAhead, hleft, hfill, herr', hsize hleft herr'] at hread
      exact .inl hread.1.symm
    · simp [readLeft, hleft, hfill, herr'] at hread
      obtain ⟨-, -, rfl⟩ := hread
      exact .inr (hfails herr')

/-- A request for an open file. -/
inductive Request where
  | seek (offset : ℕ) (whence : SeekWhence)
  | read (size : ℕ)

/-- `vfs_seek` or `vfs_read`: the returned value and the file afterwards. -/
def Request.call (ops : FilesystemOps σ) (prevBlock : Bool) (file : File σ) :
    Request → Option (ℤ × File σ)
  | .seek offset whence => vfsSeek ops prevBlock file offset whence
  | .read size => (vfsRead ops file size).map fun (ret, _, file) => (ret, file)

/-- The position is refused: `SEEK_SET` with a position behind the end of the file. -/
def Request.Refused (len : ℕ) : Request → Prop
  | .seek offset .seekSet => len < offset
  | _ => False

/-- The request goes to the front: `SEEK_SET` with a position in an earlier block. -/
def Request.Front (B o : ℕ) : Request → Prop
  | .seek offset .seekSet => offset / B < o / B
  | _ => False

/-- How a request fails: it is refused, the blocks are used up on the way to the back, or the file
system is in another block of the file. -/
inductive Fails (walk : BlockWalk ops B n image) (len o : ℕ) (file file' : File σ) (req : Request) :
    Prop
  | refused (hreq : req.Refused len) (heq : file' = file)
  | exhausted (hreq : ¬ req.Refused len) (hfront : ¬ req.Front B o)
      (hoff : file'.offset = file.offset) (hend : Exhausted walk file.fnode file'.fnode)
  | moved (hreq : ¬ req.Refused len) (hne : walk.cursor file'.fnode.fs ≠ o / B)
      (hway : req.Front B o ∨ o / B + 1 < n)

/-- How a seek fails. -/
theorem vfsSeek_fails {prevBlock : Bool} (hk : k < 31) (hB : B = 2 ^ k)
    (hback : prevBlock = true → walk.StepsBack) (hrange : len < 2 ^ 31)
    (hopen : Opened walk len o file) (hbuf : Buffered walk o file.fnode) (ho : o < 2 ^ 31)
    (hn : o / B < n) {offset : ℕ} (hoffset : offset < 2 ^ 31) {whence : SeekWhence} {ret : ℤ}
    (h : vfsSeek { ops with readBlock := read } prevBlock file offset whence = some (ret, file'))
    (hret : ret < 0) : Fails walk len o file file' (.seek offset whence) := by
  have hpos : 0 < B := hB ▸ Nat.two_pow_pos k
  cases hplan : seekPlan file offset whence with
  | error err =>
    simp only [vfsSeek, hplan] at h
    cases h
    obtain ⟨-, rfl, hlt⟩ := seekPlan_error hplan
    exact .refused (hopen.dataSize_eq ▸ hlt) rfl
  | ok plan =>
    simp only [vfsSeek, hplan] at h
    split_ifs at h with hzero herr hneg
    · cases h
      omega
    · cases h
      obtain ⟨hset, htarget⟩ := seekPlan_target hoffset hplan hopen hrange
      obtain ⟨t, hdir, hdist, hlt, ht⟩ := htarget (not_le.mp hzero)
      have hreq : ¬ (Request.seek offset whence).Refused len := by
        cases whence
        · exact not_lt.mpr (hset rfl)
        all_goals exact id
      have hfront : (Request.seek offset whence).Front B o ↔ t / B < o / B := by
        cases whence
        · exact ht ▸ Iff.rfl
        all_goals
          rw [if_neg (by decide)] at ht
          exact iff_of_false id (not_lt.mpr (Nat.div_le_div_right (by omega)))
      rw [hdir, hdist] at herr ⊢
      by_cases hn' : t / B < n
      · obtain ⟨fnode₁, hmove, hstands⟩ := seekMove_stands hk hB hback hopen.offset_eq
          (hopen.stands hbuf) hopen.rwPos_eq ho hlt hn hn'
        have hne : t / B ≠ o / B := fun heq =>
          herr (seekMove_inside hpos hopen.bufferSize_eq hopen.rwPos_eq heq)
        refine .moved hreq ?_ ?_
        · rwa [seekMove_fs, hmove, hstands.cursor_eq]
        · rw [hfront]
          omega
      · have hle : o ≤ t := not_lt.mp fun h => hn' ((Nat.div_le_div_right h.le).trans_lt hn)
        obtain ⟨fnode₁, hmove, hend⟩ := seekForward_fails read hk hB (hopen.stands hbuf)
          hopen.rwPos_eq hle hlt hn (not_lt.mp hn')
        refine .exhausted hreq (by rw [hfront]; omega) rfl ?_
        simpa [seekMove, not_lt.mpr hle, hmove] using hend
    · cases h
      omega

/-- For every consistent file, whichever blocks can be read, and every request that fails: the file
is still consistent at its position if and only if the position was refused, or the position is in
the block `e` where the file system ends up behind the last block, and the request does not go to
the front. -/
theorem request_keeps_iff {prevBlock : Bool} (hk : k < 31) (hB : B = 2 ^ k)
    (hback : prevBlock = true → walk.StepsBack)
    (hend : ∀ s, walk.valid s → walk.cursor s + 1 = n →
      walk.cursor (ops.getDataBlock s .nextBlock).2 = e) (hlast : n ≤ e + 1)
    (hrange : len < 2 ^ 31) (hopen : Opened walk len o file) (hbuf : Buffered walk o file.fnode)
    (ho : o < 2 ^ 31) (hn : o / B < n) {req : Request}
    (hreq : ∀ offset whence, req = .seek offset whence → offset < 2 ^ 31) {ret : ℤ}
    (h : req.call { ops with readBlock := read } prevBlock file = some (ret, file'))
    (hret : ret < 0) :
    Opened walk len o file' ∧ Buffered walk o file'.fnode ↔
      req.Refused len ∨ o / B = e ∧ ¬ req.Front B o := by
  have hfails : Fails walk len o file file' req := by
    cases req with
    | seek offset whence =>
      exact vfsSeek_fails hk hB hback hrange hopen hbuf ho hn (hreq _ _ rfl) h hret
    | read size =>
      rw [Request.call, map_eq_some_iff] at h
      obtain ⟨⟨ret, out, file'⟩, hread, heq⟩ := h
      cases heq
      unfold vfsRead at hread
      split_ifs at hread
      · cases hread
        omega
      · have hpos : 0 < file.fnode.bufferSize := by
          rw [hopen.bufferSize_eq, hB]
          exact Nat.two_pow_pos k
        obtain rfl | ⟨hlt, hlt'⟩ | ⟨hoff, hend⟩ := readReal_next hpos hopen.valid
          (hbuf.cursor_eq.trans_lt hn) (some.inj hread)
        · exact absurd hret (not_lt.mpr (Int.natCast_nonneg _))
        · rw [hbuf.cursor_eq] at hlt
          exact .moved id hlt.ne' (.inr (by omega))
        · exact .exhausted id id hoff hend
  cases hfails with
  | refused hreq heq => exact iff_of_true (heq ▸ ⟨hopen, hbuf⟩) (.inl hreq)
  | moved hreq hne hway =>
    refine iff_of_false (fun hkept => hne hkept.2.cursor_eq) ?_
    rintro (hrefused | ⟨heq, hfront⟩)
    · exact hreq hrefused
    · have hlt := hway.resolve_left hfront
      omega
  | exhausted hreq hfront hoff hexhausted =>
    obtain ⟨hsame, s, hvalid, hcur, hfs⟩ := hexhausted
    have hcursor := hend s hvalid hcur
    rw [← hfs] at hcursor
    refine ⟨fun hkept => .inr ⟨hkept.2.cursor_eq.symm.trans hcursor, hfront⟩, fun hor => ?_⟩
    refine ⟨⟨hoff.trans hopen.offset_eq, hsame.rwPos_eq.trans hopen.rwPos_eq,
      hsame.dataSize_eq.trans hopen.dataSize_eq, hsame.bufferSize_eq.trans hopen.bufferSize_eq, ?_⟩,
      hcursor.trans (hor.resolve_left hreq).1.symm, hsame.dataBuffer_eq.trans hbuf.buffer_eq⟩
    rw [hfs]
    exact (walk.next_block s hvalid).2.1

/-- The theorem applies to a read of the last block of a file of three blocks, which fails when it
asks for a fourth one. The file system in memory stays where it is. -/
theorem request_keeps_iff_lastBlock :
    ∃ r, (Request.read 2).call (memOps 2) true (sixBytes 6 4) = some r ∧
      r.1 < 0 ∧ Opened sixWalk 6 4 r.2 ∧ Buffered sixWalk 4 r.2.fnode := by
  have hend : ∀ s, sixWalk.valid s → sixWalk.cursor s + 1 = 3 →
      sixWalk.cursor ((memOps 2).getDataBlock s .nextBlock).2 = 2 := by
    rintro ⟨i, l⟩ hvalid hlast
    obtain rfl : l = [1, 2, 3, 4, 5, 6] := hvalid
    obtain rfl : i = 2 := Nat.succ.inj hlast
    rfl
  refine exists_some_imp (P := fun r => r.1 < 0) (by decide +kernel) fun r hcall hret => ⟨hret, ?_⟩
  exact (request_keeps_iff (k := 1) (by decide) rfl (fun _ => sixWalk_stepsBack) hend le_rfl
    (by decide) (sixBytes_consistent 6 4).1 (sixBytes_consistent 6 4).2 (by decide) (by decide)
    (fun _ _ h => by cases h) hcall hret).mpr (.inr ⟨rfl, id⟩)

/-- A read of the whole file from position 0 fails as well. Then a read of three bytes fails, which
would have delivered them. -/
theorem request_moves_cursor :
    ∃ r, (Request.read 6).call (memOps 2) true (sixBytes 6 0) = some r ∧ r.1 = -enospc ∧
      r.2.offset = 0 ∧ (vfsRead (memOps 2) r.2 3).map Prod.fst = some (-enospc) ∧
      (vfsRead (memOps 2) (sixBytes 6 0) 3).map Prod.fst = some 3 := by
  decide +kernel

/-! ## The size of a read -/

/-- What is expected of the size of a read: it is corrected to a number that is not negative and not
larger than what is left, and no more bytes are copied. -/
structure ReadBounded (ops : FilesystemOps σ) (file : File σ) (size : ℕ) : Prop where
  nonneg : 0 ≤ realSize file size
  le_left : realSize file size ≤ (file.fnode.dataSize - file.offset : ℕ)
  copied : ∃ ret out file', vfsRead ops file size = some (ret, out, file') ∧
    out.length ≤ file.fnode.dataSize - file.offset ∧ out.length ≤ size

theorem length_readBlocks_le (hblock : ∀ s b, (ops.readBlock s b).2.length ≤ B) (m : ℕ)
    (fnode : Fnode σ) (out : List UInt8) :
    (readBlocks ops m fnode out).2.1.length ≤ out.length + m * B := by
  induction m generalizing fnode out with
  | zero => simp [readBlocks]
  | succ m ih =>
    have hread : (vfsReadBlock ops fnode [] .nextBlock).2.1.length ≤ B := by
      simp only [vfsReadBlock]
      split_ifs
      · exact Nat.zero_le B
      · exact hblock _ _
    rw [Nat.succ_mul]
    simp only [readBlocks]
    split_ifs
    · exact Nat.le_add_right _ _
    · refine (ih _ _).trans ?_
      rw [List.length_append, Nat.add_assoc, Nat.add_comm (m * B)]
      exact Nat.add_le_add_left (Nat.add_le_add_right hread _) _

theorem length_readLeft_le (l : ℕ) (fnode : Fnode σ) (out : List UInt8) :
    (readLeft ops l fnode out).2.1.length ≤ out.length + l := by
  simp only [readLeft]
  split_ifs <;> simp [List.length_take]

theorem splitRequest_sum (b pos size : ℕ) : (splitRequest b pos size).sizeInBuffer +
    (splitRequest b pos size).blocks * b + (splitRequest b pos size).sizeLeft = size := by
  have hdiv := Nat.div_add_mod' (size - (b - pos)) b
  unfold splitRequest
  split_ifs <;> dsimp only <;> omega

/-- A read copies at most its size. -/
theorem length_readReal_le (hblock : ∀ s b, (ops.readBlock s b).2.length ≤ file.fnode.bufferSize)
    (r : ℕ) : (readReal ops file r).2.1.length ≤ r := by
  let split := splitRequest file.fnode.bufferSize file.fnode.rwPos r
  let out := (file.fnode.dataBuffer.drop file.fnode.rwPos).take split.sizeInBuffer
  let res := readBlocks ops split.blocks file.fnode out
  have hsum : split.sizeInBuffer + split.blocks * file.fnode.bufferSize + split.sizeLeft = r :=
    splitRequest_sum _ _ _
  have hfirst : out.length ≤ split.sizeInBuffer := List.length_take_le _ _
  have hloop : res.2.1.length ≤ _ := length_readBlocks_le hblock split.blocks file.fnode out
  have hleft : (readLeft ops split.sizeLeft res.2.2 res.2.1).2.1.length ≤ _ :=
    length_readLeft_le split.sizeLeft res.2.2 res.2.1
  simp only [readReal]
  split_ifs
  · exact hloop.trans (by omega)
  all_goals exact hleft.trans (by omega)

/-- For every file and every size, the size is corrected as expected if and only if the position is
not behind the end, and its sum with the size does not overflow. -/
theorem vfsRead_bounded_iff {size : ℕ} (hpos : 0 < size) (hsize : size < 2 ^ 31)
    (hoffset : file.offset < 2 ^ 31) (hdata : file.fnode.dataSize < 2 ^ 31)
    (hblock : ∀ s b, (ops.readBlock s b).2.length ≤ file.fnode.bufferSize) :
    ReadBounded ops file size ↔
      file.offset ≤ file.fnode.dataSize ∧ file.offset + size < 2 ^ 31 := by
  have hwrap : wrap32 (file.offset + size) =
      if file.offset + size < 2 ^ 31 then (file.offset : ℤ) + size
      else file.offset + size - 2 ^ 32 := by
    split_ifs
    · exact wrap32_eq_self (by omega) (by omega)
    · exact wrap32_of_ge (by omega) (by omega)
  constructor
  · rintro ⟨hnonneg, hle, -⟩
    rw [realSize, hwrap] at hnonneg hle
    split_ifs at hnonneg hle <;> omega
  · rintro ⟨hle, hsum⟩
    have hmin : realSize file size = (min size (file.fnode.dataSize - file.offset) : ℕ) := by
      rw [realSize, hwrap, if_pos hsum]
      split_ifs <;> omega
    have hlength := length_readReal_le hblock (min size (file.fnode.dataSize - file.offset))
    refine ⟨by omega, by omega, ?_⟩
    rw [vfsRead, hmin, if_neg (by omega), Int.toNat_natCast]
    split_ifs
    · exact ⟨_, _, _, rfl, Nat.zero_le _, Nat.zero_le _⟩
    · exact ⟨_, _, _, rfl, hlength.trans (min_le_right _ _), hlength.trans (min_le_left _ _)⟩

/-- The theorem applies to a read of two bytes of a file in memory. -/
theorem vfsRead_bounded_iff_sixBytes : ReadBounded (memOps 2) (sixBytes 5 3) 2 :=
  (vfsRead_bounded_iff (by decide) (by decide) (by decide) (by decide)
    fun s b => List.length_take_le _ _).mpr (by decide)

/-- After `SEEK_CUR` by 9 from the start of a file of five bytes, a read of one byte has the size
-4. At position 1 a read of `2 ^ 31 - 1` bytes has this size. -/
theorem realSize_not_bounded :
    (∃ r, vfsSeek (memOps 2) true (sixBytes 5 0) 9 .seekCur = some r ∧ realSize r.2 1 = -4) ∧
      realSize (sixBytes 5 1) (2 ^ 31 - 1) = 2 ^ 31 - 1 := by
  decide +kernel

end Chunos.Vfs
