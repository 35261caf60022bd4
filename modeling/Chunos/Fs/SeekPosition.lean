import Chunos.Fs.VfsSeek

/-!
# The position after a seek

A file is consistent at a position when the position in the block, the cursor of the file
system and the block in the buffer are those of the position. `vfs_seek` turns a distance into
a number of blocks and a position in the last of them, and it does so correctly in both
directions. What it returns is another matter: without a distance to move it returns 0 at every
position, and `SEEK_CUR` sets a position behind the end of the file although it moves to the end.
-/

namespace Chunos.Vfs

open Option

variable {σ : Type*} {ops : FilesystemOps σ} {B n k len o t : ℕ} {image : List UInt8}
  {walk : BlockWalk ops B n image} {fnode fnode' : Fnode σ} {file file' : File σ}

/-- From block `c` the file system goes to block `c'`. -/
def BlockWalk.Leads (walk : BlockWalk ops B n image) (whence : VfsWhence) (c c' : ℕ) : Prop :=
  ∀ s, walk.valid s → walk.cursor s = c → (ops.getDataBlock s whence).1 = walk.number c' ∧
    walk.valid (ops.getDataBlock s whence).2 ∧ walk.cursor (ops.getDataBlock s whence).2 = c'

/-- A file system with `FS_FOPS_PREV_BLOCK` finds the previous block. -/
def BlockWalk.StepsBack (walk : BlockWalk ops B n image) : Prop :=
  ∀ c, c + 1 < n → walk.Leads .prevBlock (c + 1) c

theorem BlockWalk.leads_next (walk : BlockWalk ops B n image) {c : ℕ} (hc : c + 1 < n) :
    walk.Leads .nextBlock c (c + 1) := by
  rintro s hvalid rfl
  obtain ⟨hnumber, hvalid', hcursor⟩ := walk.next_block s hvalid
  exact ⟨hnumber, hvalid', hcursor hc⟩

/-- The node is at position `o` of `len` bytes, apart from the last reduction of `rw_pos`. -/
structure Stands (walk : BlockWalk ops B n image) (len o : ℕ) (fnode : Fnode σ) : Prop
    extends Buffered walk o fnode where
  valid : walk.valid fnode.fs
  dataSize_eq : fnode.dataSize = len
  bufferSize_eq : fnode.bufferSize = B
  rwPos_mod : fnode.rwPos % B = o % B

theorem add_sub_one_div (hB : 0 < B) (d : ℕ) :
    (d + B - 1) / B = if d % B = 0 then d / B else d / B + 1 := by
  have hd := Nat.div_add_mod' d B
  have hmod := Nat.mod_lt d hB
  split_ifs with hzero
  · refine Nat.div_eq_of_lt_le (by omega) ?_
    rw [Nat.succ_mul]
    omega
  · refine Nat.div_eq_of_lt_le ?_ ?_
    · rw [Nat.succ_mul]
      omega
    · rw [Nat.succ_mul, Nat.succ_mul]
      omega

variable {d m : ℕ} {prevBlock : Bool}

theorem seekBlockNr_two_pow (hk : k < 31) (hB : B = 2 ^ k) (hd : d < 2 ^ 31) :
    seekBlockNr d B = if d % B = 0 then d / B else d / B + 1 := by
  have hpos : 0 < 2 ^ k := Nat.two_pow_pos k
  have hpow : 2 ^ k ≤ 2 ^ 30 := Nat.pow_le_pow_right (by decide) (by omega)
  have hsum : (BitVec.ofNat 32 d + BitVec.ofNat 32 (2 ^ k) - 1).toNat = d + 2 ^ k - 1 := by
    simp only [BitVec.ofNat_eq_ofNat, BitVec.toNat_sub, BitVec.toNat_add, BitVec.toNat_ofNat]
    omega
  have halign : (baligin (BitVec.ofNat 32 d) (BitVec.ofNat 32 (2 ^ k))).toNat =
      (d + 2 ^ k - 1) / 2 ^ k * 2 ^ k := by
    rw [← hsum, ← toNat_minAlign_two_pow (by omega)]
    rfl
  rw [hB, seekBlockNr, halign, Nat.mul_div_cancel _ hpos, add_sub_one_div hpos]

/-- The loops of `vfs_seek` follow a path of blocks that exist. -/
theorem seekBlocks_path {whence : VfsWhence} (path : ℕ → ℕ)
    (hstep : ∀ i < m, walk.Leads whence (path i) (path (i + 1))) (hpath : ∀ i ≤ m, path i < n)
    (hvalid : walk.valid fnode.fs) (hcursor : walk.cursor fnode.fs = path 0) (block : ℕ) :
    ∃ fnode', seekBlocks ops whence m block fnode =
        (some (if m = 0 then block else walk.number (path m)), fnode') ∧
      Moved walk fnode fnode' (path m) ∧ fnode'.dataBuffer = fnode.dataBuffer := by
  induction m generalizing fnode block path with
  | zero => exact ⟨fnode, rfl, ⟨hvalid, hcursor, rfl, rfl⟩, rfl⟩
  | succ m ih =>
    obtain ⟨hnumber, hvalid', hcursor'⟩ := hstep 0 (by omega) _ hvalid hcursor
    have hne : walk.number (path 1) ≠ 0 := by
      have hlt := hpath 1 (by omega)
      rw [ne_eq, walk.number_eq_zero]
      omega
    obtain ⟨fnode₁, hwalk, hmoved, hbuf⟩ :=
      ih (fun i => path (i + 1)) (fun i hi => hstep (i + 1) (by omega))
        (fun i hi => hpath (i + 1) (by omega))
        (show walk.valid (vfsGetDataBlock ops fnode whence).2.fs from hvalid') hcursor'
        (walk.number (path 1))
    refine ⟨fnode₁, ?_, ⟨hmoved.valid, hmoved.cursor_eq, hmoved.dataSize_eq,
      hmoved.bufferSize_eq⟩, hbuf⟩
    have hblock : (vfsGetDataBlock ops fnode whence).1 = walk.number (path 1) := hnumber
    simp only [seekBlocks, hblock, if_neg hne, hwalk]
    by_cases hm : m = 0
    · simp [hm]
    · simp [hm]

/-- Nothing of the node but the state of the file system has changed. -/
structure SameNode (fnode fnode' : Fnode σ) : Prop where
  dataBuffer_eq : fnode'.dataBuffer = fnode.dataBuffer
  rwPos_eq : fnode'.rwPos = fnode.rwPos
  dataSize_eq : fnode'.dataSize = fnode.dataSize
  bufferSize_eq : fnode'.bufferSize = fnode.bufferSize

theorem SameNode.trans {fnode'' : Fnode σ} (h : SameNode fnode fnode') (h' : SameNode fnode' fnode'') :
    SameNode fnode fnode'' :=
  ⟨h'.1.trans h.1, h'.2.trans h.2, h'.3.trans h.3, h'.4.trans h.4⟩

/-- The file system has gone to its last block and has been asked for one more. -/
def Exhausted (walk : BlockWalk ops B n image) (fnode fnode' : Fnode σ) : Prop :=
  SameNode fnode fnode' ∧ ∃ s, walk.valid s ∧ walk.cursor s + 1 = n ∧
    fnode'.fs = (ops.getDataBlock s .nextBlock).2

/-- The next block, or the end of the blocks. -/
theorem vfsGetDataBlock_next (walk : BlockWalk ops B n image) (hvalid : walk.valid fnode.fs)
    (hc : walk.cursor fnode.fs < n) :
    SameNode fnode (vfsGetDataBlock ops fnode .nextBlock).2 ∧
      (vfsGetDataBlock ops fnode .nextBlock).1 = walk.number (walk.cursor fnode.fs + 1) ∧
      if walk.cursor fnode.fs + 1 < n then
        walk.valid (vfsGetDataBlock ops fnode .nextBlock).2.fs ∧
          walk.cursor (vfsGetDataBlock ops fnode .nextBlock).2.fs = walk.cursor fnode.fs + 1
      else Exhausted walk fnode (vfsGetDataBlock ops fnode .nextBlock).2 := by
  obtain ⟨hnumber, hvalid', hcursor⟩ := walk.next_block fnode.fs hvalid
  have hsame : SameNode fnode (vfsGetDataBlock ops fnode .nextBlock).2 := ⟨rfl, rfl, rfl, rfl⟩
  refine ⟨hsame, hnumber, ?_⟩
  split_ifs with hnext
  · exact ⟨hvalid', hcursor hnext⟩
  · exact ⟨hsame, fnode.fs, hvalid, by omega, rfl⟩

variable (read : σ → ℕ → ℤ × List UInt8)

/-- The loop to the back fails when the blocks are used up. It reads none of them. -/
theorem seekBlocks_exhausted (hvalid : walk.valid fnode.fs) (hc : walk.cursor fnode.fs < n)
    (hm : n ≤ walk.cursor fnode.fs + m) (block : ℕ) :
    ∃ fnode', seekBlocks { ops with readBlock := read } .nextBlock m block fnode = (none, fnode') ∧
      Exhausted walk fnode fnode' := by
  induction m generalizing fnode block with
  | zero => omega
  | succ m ih =>
    obtain ⟨hsame, hnumber, hnext⟩ := vfsGetDataBlock_next walk hvalid hc
    have heq : vfsGetDataBlock { ops with readBlock := read } fnode .nextBlock =
      vfsGetDataBlock ops fnode .nextBlock := rfl
    simp only [seekBlocks, heq, hnumber, walk.number_eq_zero]
    by_cases hlt : walk.cursor fnode.fs + 1 < n
    · rw [if_pos hlt] at hnext
      rw [if_neg (not_le.mpr hlt)]
      obtain ⟨fnode₁, hloop, hsame', hlast⟩ := ih hnext.1 (by omega) (by omega)
        (walk.number (walk.cursor fnode.fs + 1))
      exact ⟨fnode₁, hloop, hsame.trans hsame', hlast⟩
    · rw [if_neg hlt] at hnext
      rw [if_pos (not_lt.mp hlt)]
      exact ⟨_, rfl, hnext⟩

/-- A walk over blocks that exist ends in the last of them. -/
theorem seekTo_path {whence : VfsWhence} (hm : 0 < m) (path : ℕ → ℕ)
    (hstep : ∀ i < m, walk.Leads whence (path i) (path (i + 1))) (hpath : ∀ i ≤ m, path i < n)
    (h : Stands walk len o fnode) (hstart : o / B = path 0) (hend : t / B = path m) {pos : ℕ}
    (hpos : pos % B = t % B) :
    ∃ fnode', seekTo ops whence m pos fnode = (0, fnode') ∧ Stands walk len t fnode' := by
  obtain ⟨fnode₁, hwalk, hmoved, hbuf⟩ :=
    seekBlocks_path path hstep hpath h.valid (h.cursor_eq.trans hstart) 0
  have hread := walk.read_block fnode₁.fs (path m) hmoved.valid (hpath m le_rfl)
  have hlen : fnode₁.dataBuffer.length = ((image.drop (path m * B)).take B).length := by
    rw [hbuf, h.buffer_eq, hstart, walk.length_block (hpath 0 (Nat.zero_le m)),
      walk.length_block (hpath m le_rfl)]
  refine ⟨{ fnode₁.copyIn 0 ((image.drop (path m * B)).take B) with rwPos := pos }, ?_, ?_⟩
  · simp only [seekTo, hwalk, if_neg hm.ne', readInto, hread, ne_eq, not_true_eq_false, if_false]
  · refine ⟨⟨?_, ?_⟩, hmoved.valid, hmoved.dataSize_eq.trans h.dataSize_eq,
      hmoved.bufferSize_eq.trans h.bufferSize_eq, hpos⟩
    · exact hmoved.cursor_eq.trans hend.symm
    · rw [hend]
      exact copyIn_zero hlen

theorem div_mod_behind (hB : 0 < B) (hd : t = o + (B - o % B) + d) :
    t / B = o / B + (d / B + 1) ∧ t % B = d % B := by
  have ho := Nat.div_add_mod o B
  have hlt := Nat.mod_lt o hB
  obtain rfl : t = B * (o / B + 1) + d := by
    rw [Nat.mul_succ]
    omega
  rw [Nat.mul_add_div hB, Nat.mul_add_mod]
  omega

/-- A position in front of a block, in blocks. -/
theorem div_mod_before (hB : 0 < B) {q : ℕ} (hd : t + d = B * q) :
    t / B + (if d % B = 0 then d / B else d / B + 1) = q ∧ (B - d % B) % B = t % B := by
  have hdiv := Nat.div_add_mod d B
  have hlt := Nat.mod_lt d hB
  split_ifs with hzero
  · have hle : d / B ≤ q := Nat.le_of_mul_le_mul_left (by omega) hB
    obtain ⟨m, rfl⟩ := Nat.exists_eq_add_of_le hle
    rw [Nat.mul_add] at hd
    obtain rfl : t = B * m := by omega
    rw [Nat.mul_div_cancel_left m hB, hzero, Nat.mul_mod_right, Nat.sub_zero, Nat.mod_self]
    omega
  · have hle : d / B + 1 ≤ q := Nat.lt_of_mul_lt_mul_left (a := B) (by omega)
    obtain ⟨m, rfl⟩ := Nat.exists_eq_add_of_le hle
    rw [Nat.mul_add, Nat.mul_succ] at hd
    obtain rfl : t = B * m + (B - d % B) := by omega
    rw [Nat.mul_add_div hB, Nat.mul_add_mod, Nat.div_eq_of_lt (by omega)]
    omega

theorem div_mod_inside {q r : ℕ} (hr : r < B) (ht : t = B * q + r) : t / B = q ∧ t % B = r := by
  rw [ht, Nat.mul_add_div (by omega), Nat.mul_add_mod, Nat.div_eq_of_lt hr, Nat.mod_eq_of_lt hr]
  exact ⟨rfl, rfl⟩

theorem Stands.inside (h : Stands walk len o fnode) {r : ℕ} (hr : r < B)
    (ht : t = B * (o / B) + r) : Stands walk len t { fnode with rwPos := r } := by
  obtain ⟨hdiv, hmod⟩ := div_mod_inside hr ht
  refine ⟨⟨?_, ?_⟩, h.valid, h.dataSize_eq, h.bufferSize_eq, ?_⟩
  · rw [hdiv]
    exact h.cursor_eq
  · rw [hdiv]
    exact h.buffer_eq
  · rw [hmod]
    exact Nat.mod_eq_of_lt hr

variable (ops) in
/-- A distance to the back that leaves the block is a walk to the block of the new position. -/
theorem seekForward_far (hk : k < 31) (hB : B = 2 ^ k) (hsize : fnode.bufferSize = B)
    (hrw : fnode.rwPos = o % B) (hfar : B - o % B ≤ t - o) (hrange : t - o < 2 ^ 31) :
    ∃ m, t / B = o / B + (m + 1) ∧
      seekForward ops (t - o) fnode = seekTo ops .nextBlock (m + 1) (t % B) fnode := by
  have hpos : 0 < B := hB ▸ Nat.two_pow_pos k
  have hmod := Nat.mod_lt o hpos
  obtain ⟨hdiv, hrest⟩ :=
    div_mod_behind (t := t) (o := o) hpos (d := t - o - (B - o % B)) (by omega)
  refine ⟨(t - o - (B - o % B)) / B, hdiv, ?_⟩
  have hblocks := seekBlockNr_two_pow hk hB (d := t - o - (B - o % B)) (by omega)
  simp only [seekForward, hsize, hrw, if_pos hfar, hblocks, hrest]
  split_ifs <;> rfl

/-- Going to the back over a distance `t - o` ends at position `t`, if its block exists. -/
theorem seekForward_stands (hk : k < 31) (hB : B = 2 ^ k) (h : Stands walk len o fnode)
    (hrw : fnode.rwPos = o % B) (hle : o ≤ t) (hrange : t - o < 2 ^ 31) (ht : t / B < n) :
    ∃ fnode', seekForward ops (t - o) fnode = (0, fnode') ∧ Stands walk len t fnode' := by
  have hdecomp := Nat.div_add_mod o B
  by_cases hfar : B - o % B ≤ t - o
  · obtain ⟨m, hdiv, heq⟩ := seekForward_far ops hk hB h.bufferSize_eq hrw hfar hrange
    rw [heq]
    rw [hdiv] at ht
    exact seekTo_path (Nat.succ_pos m) (fun i => o / B + i)
      (fun i hi => walk.leads_next ((Nat.add_le_add_left hi _).trans_lt ht))
      (fun i hi => (Nat.add_le_add_left hi _).trans_lt ht) h rfl hdiv (Nat.mod_mod t B)
  · have hnear : ¬ fnode.bufferSize - fnode.rwPos ≤ t - o := by rwa [h.bufferSize_eq, hrw]
    simp only [seekForward, if_neg hnear]
    exact ⟨_, rfl, h.inside (t := t) (r := fnode.rwPos + (t - o)) (by omega) (by omega)⟩

/-- Going to the front over a distance `o - t` ends at position `t`, if the file system finds
previous blocks or none is needed. -/
theorem seekBack_stands (hk : k < 31) (hB : B = 2 ^ k) (h : Stands walk len o fnode)
    (hrw : fnode.rwPos = o % B) (hle : t ≤ o) (ho : o < 2 ^ 31) (hn : o / B < n)
    (hback : o % B < o - t → walk.StepsBack) :
    ∃ fnode', seekBack ops (o - t) fnode = (0, fnode') ∧ Stands walk len t fnode' := by
  have hpos : 0 < B := hB ▸ Nat.two_pow_pos k
  have hdecomp := Nat.div_add_mod o B
  have hmod := Nat.mod_lt o hpos
  by_cases hleft : o % B < o - t
  · simp only [seekBack, h.bufferSize_eq, hrw, if_pos hleft]
    obtain ⟨hdiv, hrest⟩ :=
      div_mod_before (t := t) hpos (d := o - t - o % B) (q := o / B) (by omega)
    rw [← seekBlockNr_two_pow hk hB (by omega)] at hdiv
    have hle' : seekBlockNr (o - t - o % B) B ≤ o / B := hdiv ▸ Nat.le_add_left _ _
    have hblocks : 0 < seekBlockNr (o - t - o % B) B := by
      refine Nat.pos_of_ne_zero fun hzero => ?_
      have ht := Nat.div_add_mod t B
      rw [hzero, Nat.add_zero] at hdiv
      rw [hdiv] at ht
      omega
    refine seekTo_path hblocks (fun i => o / B - i) ?_
      (fun i _ => (Nat.sub_le _ _).trans_lt hn) h rfl (Nat.eq_sub_of_add_eq hdiv) hrest
    intro i hi
    have hnext : o / B - i = o / B - (i + 1) + 1 := by
      have hlt := hi.trans_le hle'
      omega
    simp only [hnext]
    exact hback hleft _ (hnext ▸ (Nat.sub_le _ _).trans_lt hn)
  · have hnear : ¬ fnode.rwPos < o - t := by rwa [hrw]
    simp only [seekBack, if_neg hnear]
    exact ⟨_, rfl, h.inside (t := t) (r := fnode.rwPos - (o - t)) (by omega) (by omega)⟩

theorem rewind_stands (hn : 0 < n) (h : Stands walk len o fnode) (ho : o / B < n) :
    Stands walk len 0 (rewind ops fnode) ∧ (rewind ops fnode).rwPos = 0 := by
  obtain ⟨hnumber, hvalid, hmove⟩ := walk.start_block fnode.fs h.valid
  have hne : walk.number 0 ≠ 0 := by
    rw [ne_eq, walk.number_eq_zero]
    omega
  have hread := walk.read_block _ 0 hvalid hn
  have hlen : fnode.dataBuffer.length = ((image.drop (0 * B)).take B).length := by
    rw [h.buffer_eq, walk.length_block ho, walk.length_block hn]
  simp only [rewind, vfsReadBlock, vfsGetDataBlock, hnumber, if_neg hne, hread]
  refine ⟨⟨⟨?_, ?_⟩, hvalid, h.dataSize_eq, h.bufferSize_eq, ?_⟩, trivial⟩
  · rw [Nat.zero_div]
    exact hmove hn
  · rw [Nat.zero_div]
    exact copyIn_zero hlen
  · rfl

/-- The move of `vfs_seek` from position `o` ends at position `t`. -/
theorem seekMove_stands (hk : k < 31) (hB : B = 2 ^ k) (hback : prevBlock = true → walk.StepsBack)
    (hoff : file.offset = o) (h : Stands walk len o file.fnode) (hrw : file.fnode.rwPos = o % B)
    (ho : o < 2 ^ 31) (ht : t - o < 2 ^ 31) (hn : o / B < n) (hn' : t / B < n) :
    ∃ fnode', seekMove ops prevBlock file (t < o) (if t < o then o - t else t - o) = (0, fnode') ∧
      Stands walk len t fnode' := by
  by_cases hlt : t < o
  · simp only [seekMove, hlt, decide_true, if_true, hrw, hoff]
    split_ifs with hrewind
    · obtain ⟨hstart, hzero⟩ := rewind_stands ((Nat.zero_le _).trans_lt hn) h hn
      rw [Nat.sub_sub_self hlt.le]
      exact seekForward_stands hk hB hstart (hzero.trans (Nat.zero_mod B).symm) (Nat.zero_le t)
        (hlt.trans ho) hn'
    · refine seekBack_stands hk hB h hrw hlt.le ho hn fun hfar => ?_
      apply hback
      simpa [hfar] using hrewind
  · simp only [seekMove, hlt, decide_false, if_false]
    exact seekForward_stands hk hB h hrw (by omega) ht hn'

/-- Going to the back to a block that does not exist fails. -/
theorem seekForward_fails (hk : k < 31) (hB : B = 2 ^ k) (h : Stands walk len o fnode)
    (hrw : fnode.rwPos = o % B) (hle : o ≤ t) (hrange : t - o < 2 ^ 31) (hn : o / B < n)
    (hn' : n ≤ t / B) :
    ∃ fnode', seekForward { ops with readBlock := read } (t - o) fnode = (-enospc, fnode') ∧
      Exhausted walk fnode fnode' := by
  have hpos : 0 < B := hB ▸ Nat.two_pow_pos k
  have hdecomp := Nat.div_add_mod o B
  have hfar : B - o % B ≤ t - o := by
    by_contra hnear
    obtain ⟨hsame, -⟩ := div_mod_inside (B := B) (t := t) (q := o / B) (r := o % B + (t - o))
      (by omega) (by omega)
    rw [hsame] at hn'
    exact absurd hn (not_lt.mpr hn')
  obtain ⟨m, hdiv, heq⟩ := seekForward_far { ops with readBlock := read } hk hB h.bufferSize_eq
    hrw hfar hrange
  obtain ⟨fnode₁, hwalk, hend⟩ := seekBlocks_exhausted (m := m + 1) read h.valid
    (h.cursor_eq.trans_lt hn) (by rw [h.cursor_eq, ← hdiv]; exact hn') 0
  exact ⟨fnode₁, by simp only [heq, seekTo, hwalk], hend⟩

variable {read}

theorem seekBlocks_fs (h : fnode'.fs = fnode.fs) (whence : VfsWhence) (m block : ℕ) :
    (seekBlocks { ops with readBlock := read } whence m block fnode').2.fs =
      (seekBlocks ops whence m block fnode).2.fs := by
  induction m generalizing fnode fnode' block with
  | zero => exact h
  | succ m ih =>
    have hstep : vfsGetDataBlock { ops with readBlock := read } fnode' whence =
        ((vfsGetDataBlock ops fnode whence).1,
          { fnode' with fs := (vfsGetDataBlock ops fnode whence).2.fs }) := by
      simp only [vfsGetDataBlock, h]
    simp only [seekBlocks, hstep]
    by_cases hblock : (vfsGetDataBlock ops fnode whence).1 = 0
    · simp only [if_pos hblock]
    · simp only [if_neg hblock]
      refine ih ?_ _
      rfl

theorem seekTo_fs (ops : FilesystemOps σ) (whence : VfsWhence) (m pos : ℕ) (fnode : Fnode σ) :
    (seekTo ops whence m pos fnode).2.fs = (seekBlocks ops whence m 0 fnode).2.fs := by
  simp only [seekTo]
  rcases seekBlocks ops whence m 0 fnode with ⟨_ | block, fnode₁⟩
  · rfl
  · have hfs : (readInto ops fnode₁ block).2.fs = fnode₁.fs := rfl
    dsimp only
    split_ifs <;> exact hfs

theorem seekForward_fs (h : fnode'.fs = fnode.fs) (hsize : fnode'.bufferSize = fnode.bufferSize)
    (hrw : fnode'.rwPos = fnode.rwPos) (newOff : ℕ) :
    (seekForward { ops with readBlock := read } newOff fnode').2.fs =
      (seekForward ops newOff fnode).2.fs := by
  simp only [seekForward, hsize, hrw]
  by_cases hfar : fnode.bufferSize - fnode.rwPos ≤ newOff
  · simp only [if_pos hfar, seekTo_fs]
    exact seekBlocks_fs h _ _ _
  · simp only [if_neg hfar, h]

/-- So it is with a move of `vfs_seek`. -/
theorem seekMove_fs (direction : Bool) (newOff : ℕ) :
    (seekMove { ops with readBlock := read } prevBlock file direction newOff).2.fs =
      (seekMove ops prevBlock file direction newOff).2.fs := by
  have hback : (seekBack { ops with readBlock := read } newOff file.fnode).2.fs =
      (seekBack ops newOff file.fnode).2.fs := by
    simp only [seekBack]
    by_cases hfar : file.fnode.rwPos < newOff
    · simp only [if_pos hfar, seekTo_fs]
      exact seekBlocks_fs rfl _ _ _
    · simp only [if_neg hfar]
  have hrewind : ∀ ops' : FilesystemOps σ, (rewind ops' file.fnode).fs =
      (ops'.getDataBlock file.fnode.fs .startBlock).2 := by
    intro ops'
    simp only [rewind, Fnode.copyIn, vfsReadBlock]
    by_cases hnone : (vfsGetDataBlock ops' file.fnode .startBlock).1 = 0
    · rw [if_pos hnone]
      rfl
    · rw [if_neg hnone]
      rfl
  cases direction with
  | false => exact seekForward_fs rfl rfl rfl _
  | true =>
    simp only [seekMove, if_true]
    split_ifs
    · refine seekForward_fs ?_ ?_ ?_ _
      · rw [hrewind, hrewind]
      · rw [(rewind_sought _ _).bufferSize_eq, (rewind_sought _ _).bufferSize_eq]
      · rfl
    · exact hback

theorem seekMove_inside (hB : 0 < B) (hsize : file.fnode.bufferSize = B)
    (hrw : file.fnode.rwPos = o % B) (heq : t / B = o / B) :
    (seekMove { ops with readBlock := read } prevBlock file (t < o)
      (if t < o then o - t else t - o)).1 = 0 := by
  have ht := Nat.div_add_mod t B
  have ho := Nat.div_add_mod o B
  have hmod := Nat.mod_lt t hB
  rw [heq] at ht
  by_cases hlt : t < o
  · have hnear : ¬ o % B < o - t := by omega
    simp [seekMove, seekBack, hlt, hrw, hnear]
  · have hnear : ¬ B - o % B ≤ t - o := by omega
    simp [seekMove, seekForward, hlt, hrw, hsize, hnear]

/-- After a move the last reduction of `rw_pos` leaves a file that is consistent. -/
theorem Stands.opened (h : Stands walk len t fnode) :
    Opened walk len t ⟨{ fnode with rwPos := fnode.rwPos % fnode.bufferSize }, t⟩ ∧
      Buffered walk t { fnode with rwPos := fnode.rwPos % fnode.bufferSize } := by
  refine ⟨⟨rfl, ?_, h.dataSize_eq, h.bufferSize_eq, h.valid⟩, h.cursor_eq, h.buffer_eq⟩
  simp only [h.bufferSize_eq, h.rwPos_mod]

theorem Opened.stands (hopen : Opened walk len o file) (hbuf : Buffered walk o file.fnode) :
    Stands walk len o file.fnode :=
  ⟨hbuf, hopen.valid, hopen.dataSize_eq, hopen.bufferSize_eq, by rw [hopen.rwPos_eq, Nat.mod_mod]⟩

/-- After `vfs_seek(file, t, SEEK_SET)` a file that was consistent is consistent at `t`. -/
theorem vfsSeek_seekSet_consistent {prevBlock : Bool} (hk : k < 31) (hB : B = 2 ^ k)
    (hback : prevBlock = true → walk.StepsBack) (hlen : len ≤ n * B) (hrange : len < 2 ^ 31)
    (hopen : Opened walk len o file) (hbuf : Buffered walk o file.fnode) (ho : o < 2 ^ 31)
    (hn : o / B < n) (ht : t < len) :
    ∃ ret file', vfsSeek ops prevBlock file t .seekSet = some (ret, file') ∧ 0 ≤ ret ∧
      Opened walk len t file' ∧ Buffered walk t file'.fnode := by
  have hpos : 0 < B := hB ▸ Nat.two_pow_pos k
  have hn' : t / B < n := (Nat.div_lt_iff_lt_mul hpos).mpr (by omega)
  have hsize : ¬ file.fnode.dataSize < t := by
    rw [hopen.dataSize_eq]
    omega
  obtain ⟨fnode', hmove, hstands⟩ := seekMove_stands hk hB hback hopen.offset_eq
    (hopen.stands hbuf) hopen.rwPos_eq ho (by omega) hn hn'
  obtain hsame | hne := eq_or_ne t o
  · subst hsame
    refine ⟨0, file, ?_, le_rfl, hopen, hbuf⟩
    simp [vfsSeek, seekPlan, hsize, hopen.offset_eq]
  · obtain ⟨hopen', hbuf'⟩ := hstands.opened
    refine ⟨t, _, ?_, Int.natCast_nonneg t, hopen', hbuf'⟩
    have hplan : seekPlan file t .seekSet =
        .ok ⟨t < o, ((if t < o then o - t else t - o : ℕ) : ℤ), t⟩ := by
      simp only [seekPlan, if_neg hsize, hopen.offset_eq]
      split_ifs with hlt
      · simp only [hlt, decide_true, Nat.cast_sub hlt.le]
      · simp only [hlt, decide_false, Nat.cast_sub (not_lt.mp hlt)]
    have hfar : ¬ (((if t < o then o - t else t - o : ℕ) : ℤ) ≤ 0) := by
      split_ifs <;> omega
    simp only [vfsSeek, hplan, if_neg hfar, Int.toNat_natCast, hmove, ne_eq, not_true_eq_false,
      if_false, if_neg (not_lt.mpr (Int.natCast_nonneg t))]

/-- The seek has no distance to move. -/
def SeekStays (len o offset : ℕ) : SeekWhence → Prop
  | .seekSet => offset = o
  | .seekCur => offset = 0 ∨ len ≤ o ∧ len < o + offset
  | .seekEnd => len ≤ o

/-- What is expected of a seek that does not fail: it returns the position, which is inside the
file, and the file is consistent there. At the end of the file any block may be in the buffer. -/
structure SeekOk (walk : BlockWalk ops B n image) (len : ℕ) (ret : ℤ) (file : File σ) : Prop where
  returned : ret = file.offset
  inside : file.offset ≤ len
  opened : Opened walk len file.offset file
  buffered : file.offset < len → Buffered walk file.offset file.fnode

theorem seekPlan_error {offset : ℕ} {whence : SeekWhence} {err : ℤ}
    (hplan : seekPlan file offset whence = .error err) :
    err = -einval ∧ whence = .seekSet ∧ file.fnode.dataSize < offset := by
  cases whence with
  | seekSet =>
    simp only [seekPlan] at hplan
    split_ifs at hplan with hlt
    exact ⟨(Except.error.inj hplan).symm, rfl, hlt⟩
  | seekCur => cases hplan
  | seekEnd => cases hplan

/-- A seek that does not fail either has no distance to move and returns 0, or it moves. -/
theorem vfsSeek_cases {offset : ℕ} {whence : SeekWhence} {ret : ℤ}
    (h : vfsSeek ops prevBlock file offset whence = some (ret, file')) (hret : 0 ≤ ret) :
    ∃ plan, seekPlan file offset whence = .ok plan ∧
      (plan.newOff ≤ 0 ∧ ret = 0 ∧ file' = file ∨
        0 < plan.newOff ∧ 0 ≤ plan.new ∧ ret = plan.new ∧
          ∃ fnode', seekMove ops prevBlock file plan.direction plan.newOff.toNat = (0, fnode') ∧
            file' = ⟨{ fnode' with rwPos := fnode'.rwPos % fnode'.bufferSize },
              plan.new.toNat⟩) := by
  cases hplan : seekPlan file offset whence with
  | error err =>
    simp only [vfsSeek, hplan] at h
    cases h
    rw [(seekPlan_error hplan).1] at hret
    exact absurd hret (by decide)
  | ok plan =>
    refine ⟨plan, rfl, ?_⟩
    have herr := (seekMove_spec ops prevBlock file plan.direction plan.newOff.toNat).1
    simp only [vfsSeek, hplan] at h
    cases hmove : seekMove ops prevBlock file plan.direction plan.newOff.toNat with
    | mk err fnode' =>
      simp only [hmove] at h herr
      split_ifs at h with hzero hfail hneg
      · cases h
        exact .inl ⟨hzero, rfl, rfl⟩
      · cases h
        omega
      · cases h
        obtain rfl : err = 0 := not_not.mp hfail
        exact .inr ⟨not_le.mp hzero, not_lt.mp hneg, rfl, fnode', rfl, rfl⟩

/-- Where a seek that is not refused moves to. -/
theorem seekPlan_target {offset : ℕ} (hoffset : offset < 2 ^ 31) {whence : SeekWhence}
    {plan : SeekPlan} (hplan : seekPlan file offset whence = .ok plan)
    (hopen : Opened walk len o file) (hrange : len < 2 ^ 31) :
    (whence = .seekSet → offset ≤ len) ∧ (0 < plan.newOff → ∃ t, plan.direction = decide (t < o) ∧
      plan.newOff.toNat = (if t < o then o - t else t - o) ∧ t - o < 2 ^ 31 ∧
      if whence = .seekSet then t = offset else t = o + plan.newOff) := by
  -- A distance to the back is one to a position behind `o`.
  have hforward : ∀ d : ℤ, d < 2 ^ 31 → 0 < d → ∃ t, false = decide (t < o) ∧
      d.toNat = (if t < o then o - t else t - o) ∧ t - o < 2 ^ 31 ∧ t = o + d := by
    intro d hlt hd
    exact ⟨o + d.toNat, by simp, by simp, by omega, by omega⟩
  cases whence with
  | seekSet =>
    simp only [seekPlan, hopen.dataSize_eq, hopen.offset_eq] at hplan
    split_ifs at hplan with hout hlt
    · cases hplan
      exact ⟨fun _ => not_lt.mp hout, fun _ => ⟨offset, by simp [hlt], by simp [hlt], by omega, rfl⟩⟩
    · cases hplan
      exact ⟨fun _ => not_lt.mp hout, fun _ => ⟨offset, by simp [hlt], by simp [hlt], by omega, rfl⟩⟩
  | seekCur =>
    cases hplan
    simp only [hopen.dataSize_eq, hopen.offset_eq]
    refine ⟨by simp, hforward _ ?_⟩
    split_ifs <;> omega
  | seekEnd =>
    cases hplan
    simp only [hopen.dataSize_eq, hopen.offset_eq]
    exact ⟨by simp, hforward _ (by omega)⟩

/-- What a seek that does not fail sets, besides where it moves to. -/
theorem seekPlan_spec {offset : ℕ} {whence : SeekWhence} {plan : SeekPlan}
    (hplan : seekPlan file offset whence = .ok plan) (hopen : Opened walk len o file)
    (hrange : len < 2 ^ 31) (ho : o < 2 ^ 31) (hoffset : offset < 2 ^ 31)
    (hnew : plan.newOff ≤ 0 ∨ 0 ≤ plan.new) :
    (plan.newOff ≤ 0 ↔ SeekStays len o offset whence) ∧
      (0 < plan.newOff → ∃ t ≤ len, plan.direction = decide (t < o) ∧
        plan.newOff.toNat = (if t < o then o - t else t - o) ∧
        if whence = .seekCur ∧ len < o + offset then (len : ℤ) < plan.new else plan.new = t) := by
  obtain ⟨hset, htarget⟩ := seekPlan_target hoffset hplan hopen hrange
  cases whence with
  | seekSet =>
    have hspec : (plan.newOff ≤ 0 ↔ offset = o) ∧ plan.new = offset := by
      simp only [seekPlan, hopen.dataSize_eq, hopen.offset_eq] at hplan
      split_ifs at hplan <;> cases hplan <;> exact ⟨by simp only; omega, rfl⟩
    refine ⟨hspec.1, fun hfar => ?_⟩
    obtain ⟨t, hdir, hdist, -, rfl⟩ := htarget hfar
    exact ⟨t, hset rfl, hdir, hdist, hspec.2⟩
  | seekCur =>
    cases hplan
    simp only [SeekStays, hopen.dataSize_eq, hopen.offset_eq, true_and] at hnew htarget ⊢
    -- When the sum overflows, the new position is negative and the distance is not 0.
    have hsum : wrap32 (o + offset) = o + offset := by
      refine wrap32_eq_self (by omega) ?_
      by_contra hover
      rw [wrap32_of_ge (by omega) (by omega)] at hnew
      split_ifs at hnew <;> omega
    rw [hsum] at hnew htarget ⊢
    refine ⟨by split_ifs <;> omega, fun hfar => ?_⟩
    obtain ⟨t, hdir, hdist, -, ht⟩ := htarget hfar
    rw [if_neg (by decide)] at ht
    refine ⟨t, ?_, hdir, hdist, ?_⟩ <;> split_ifs at ht ⊢ <;> omega
  | seekEnd =>
    cases hplan
    simp only [SeekStays, hopen.dataSize_eq, hopen.offset_eq, reduceCtorEq, false_and, if_false]
      at htarget ⊢
    refine ⟨by omega, fun hfar => ?_⟩
    obtain ⟨t, hdir, hdist, -, ht⟩ := htarget hfar
    exact ⟨t, by omega, hdir, hdist, by omega⟩

/-- A seek that does not fail leaves what is expected exactly when it stays at position 0, or it
moves and `SEEK_CUR` does not ask for a position behind the end. -/
theorem vfsSeek_ok_iff {prevBlock : Bool} (hk : k < 31) (hB : B = 2 ^ k)
    (hback : prevBlock = true → walk.StepsBack) (hrange : len < 2 ^ 31)
    (hopen : Opened walk len o file) (hbuf : Buffered walk o file.fnode) (ho : o < 2 ^ 31)
    (hn : o / B < n) {offset : ℕ} (hoffset : offset < 2 ^ 31) {whence : SeekWhence} {ret : ℤ}
    (h : vfsSeek ops prevBlock file offset whence = some (ret, file')) (hret : 0 ≤ ret) :
    SeekOk walk len ret file' ↔
      (SeekStays len o offset whence → o = 0) ∧
        (¬ SeekStays len o offset whence → whence = .seekCur → o + offset ≤ len) := by
  obtain ⟨plan, hplan, ⟨hnear, rfl, rfl⟩ | ⟨hfar, hnew, rfl, fnode', hmove, rfl⟩⟩ :=
    vfsSeek_cases h hret
  · obtain ⟨hstays, -⟩ := seekPlan_spec hplan hopen hrange ho hoffset (.inl hnear)
    simp only [hstays.mp hnear, not_true_eq_false, false_implies, and_true, true_implies]
    refine ⟨fun hok => ?_, fun hzero => ?_⟩
    · have hreturned := hok.returned
      rw [hopen.offset_eq] at hreturned
      exact (Int.natCast_eq_zero.mp hreturned.symm)
    · subst hzero
      refine ⟨?_, ?_, ?_, ?_⟩
      · rw [hopen.offset_eq, Nat.cast_zero]
      · rw [hopen.offset_eq]
        exact Nat.zero_le len
      · rwa [hopen.offset_eq]
      · rw [hopen.offset_eq]
        exact fun _ => hbuf
  · obtain ⟨hstays, hspec⟩ := seekPlan_spec hplan hopen hrange ho hoffset (.inr hnew)
    obtain ⟨t, ht, hdir, hdist, hpos⟩ := hspec hfar
    simp only [← hstays, not_le.mpr hfar, false_implies, true_and, not_false_eq_true, true_implies]
    split_ifs at hpos with hbeyond
    · refine ⟨fun hok => ?_, fun hle => ?_⟩
      · have hinside := hok.inside
        simp only at hinside
        omega
      · have hle' := hle hbeyond.1
        omega
    · refine ⟨fun _ hcur => not_lt.mp fun hlt => hbeyond ⟨hcur, hlt⟩, fun _ => ?_⟩
      rw [hdir, hdist] at hmove
      have hn' : t / B < n := by
        by_contra hout
        have hlt : ¬ t < o := fun hlt =>
          absurd (Nat.div_le_div_right (c := B) hlt.le) (by omega)
        obtain ⟨fnode₁, hfails, -⟩ := seekForward_fails ops.readBlock hk hB (hopen.stands hbuf)
          hopen.rwPos_eq (not_lt.mp hlt) (by omega) hn (not_lt.mp hout)
        simp only [seekMove, hlt, decide_false, if_false, Bool.false_eq_true, hfails] at hmove
        exact absurd (Prod.mk.inj hmove).1 (by decide)
      obtain ⟨fnode₁, hmove₁, hstands⟩ := seekMove_stands hk hB hback hopen.offset_eq
        (hopen.stands hbuf) hopen.rwPos_eq ho (by omega) hn hn'
      obtain rfl : fnode₁ = fnode' := (Prod.mk.inj (hmove₁.symm.trans hmove)).2
      obtain ⟨hopen', hbuf'⟩ := hstands.opened
      rw [hpos, Int.toNat_natCast]
      exact ⟨rfl, ht, hopen', fun _ => hbuf'⟩

/-- A file of six bytes in memory, of which `len` are data, that is consistent at position `o`. -/
def sixBytes (len o : ℕ) : File (ℕ × List UInt8) where
  offset := o
  fnode :=
    { blkCnt := 3, dataSize := len, bufferSize := 2, rwPos := o % 2, currentBlock := 0
      dataBuffer := (List.drop (o / 2 * 2) [1, 2, 3, 4, 5, 6]).take 2
      fs := (o / 2, [1, 2, 3, 4, 5, 6]) }

/-- The file system in memory finds the blocks of this file. -/
def sixWalk : BlockWalk (memOps 2) 2 3 [1, 2, 3, 4, 5, 6] := memWalk (by decide) (by decide)

theorem sixWalk_stepsBack : sixWalk.StepsBack := by
  rintro c hc ⟨i, l⟩ hvalid hcursor
  obtain rfl : l = [1, 2, 3, 4, 5, 6] := hvalid
  obtain rfl : i = c + 1 := hcursor
  have hlt : c < 3 := Nat.lt_of_succ_lt hc
  simp [memOps, sixWalk, memWalk, hlt]

theorem sixBytes_consistent (len o : ℕ) :
    Opened sixWalk len o (sixBytes len o) ∧ Buffered sixWalk o (sixBytes len o).fnode :=
  ⟨⟨rfl, rfl, rfl, rfl, rfl⟩, rfl, rfl⟩

/-- The theorem applies to a seek from position 5 to position 2. -/
theorem vfsSeek_seekSet_consistent_sixBytes :
    ∃ ret file', vfsSeek (memOps 2) true (sixBytes 6 5) 2 .seekSet = some (ret, file') ∧ 0 ≤ ret ∧
      Opened sixWalk 6 2 file' ∧ Buffered sixWalk 2 file'.fnode :=
  vfsSeek_seekSet_consistent (k := 1) (by decide) rfl (fun _ => sixWalk_stepsBack) (by decide)
    (by decide) (sixBytes_consistent 6 5).1 (sixBytes_consistent 6 5).2 (by decide) (by decide)
    (by decide)

/-- The theorem applies to a move to the end of a file of five bytes. -/
theorem vfsSeek_ok_iff_end :
    vfsSeek (memOps 2) false (sixBytes 5 1) 0 .seekEnd = some (5, sixBytes 5 5) ∧
      SeekOk sixWalk 5 5 (sixBytes 5 5) := by
  have hseek : vfsSeek (memOps 2) false (sixBytes 5 1) 0 .seekEnd = some (5, sixBytes 5 5) := by
    rfl
  have hfar : ¬ SeekStays 5 1 0 .seekEnd := (by decide : ¬ 5 ≤ 1)
  refine ⟨hseek, (vfsSeek_ok_iff (k := 1) (by decide) rfl nofun (by decide)
    (sixBytes_consistent 5 1).1 (sixBytes_consistent 5 1).2 (by decide) (by decide)
    (by decide) hseek (by decide)).mpr ⟨fun h => absurd h hfar, nofun⟩⟩

/-- A seek from position 3 to the same position returns 0, and `SEEK_CUR` by 9 from position 1 of
a file of five bytes sets position 10. -/
theorem vfsSeek_not_ok :
    (vfsSeek (memOps 2) true (sixBytes 5 3) 3 .seekSet = some (0, sixBytes 5 3) ∧
      ¬ SeekOk sixWalk 5 0 (sixBytes 5 3)) ∧
    vfsSeek (memOps 2) true (sixBytes 5 1) 9 .seekCur =
        some (10, { sixBytes 5 5 with offset := 10 }) ∧
      ¬ SeekOk sixWalk 5 10 { sixBytes 5 5 with offset := 10 } := by
  have hwrap : wrap32 ((1 : ℕ) + (9 : ℕ)) = 10 := by decide
  refine ⟨⟨rfl, fun h => ?_⟩, ?_, fun h => ?_⟩
  · exact absurd h.returned (by decide)
  · simp only [vfsSeek, seekPlan, sixBytes, hwrap]
    rfl
  · exact absurd h.inside (by decide)

end Chunos.Vfs
