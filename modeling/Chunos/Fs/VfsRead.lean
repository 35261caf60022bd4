import Chunos.Fs.Vfs

/-!
# Sequences of reads of one file

The reads of a file deliver its bytes in order as long as the buffer of the node holds
the block of the file position. `vfs_read` keeps that up except in two cases. A read
that starts inside a block and ends at the end of a block leaves the old block in the
buffer. A read that starts and ends on block boundaries asks for one block more than it
delivers, and fails when there is none.
-/

namespace Chunos.Vfs

open List

variable {σ : Type*} {ops : FilesystemOps σ} {B n : ℕ} {image : List UInt8}

/-- A file system that walks the `n` blocks of a file in order. The blocks put together
are `image`, `number i` is the number of block `i` and `0` past the last block, and
block reads succeed. -/
structure BlockWalk (ops : FilesystemOps σ) (B n : ℕ) (image : List UInt8) where
  valid : σ → Prop
  cursor : σ → ℕ
  number : ℕ → ℕ
  length_eq : image.length = n * B
  number_eq_zero : ∀ i, number i = 0 ↔ n ≤ i
  start_block : ∀ s, valid s → (ops.getDataBlock s .startBlock).1 = number 0 ∧
    valid (ops.getDataBlock s .startBlock).2 ∧
    (0 < n → cursor (ops.getDataBlock s .startBlock).2 = 0)
  next_block : ∀ s, valid s → (ops.getDataBlock s .nextBlock).1 = number (cursor s + 1) ∧
    valid (ops.getDataBlock s .nextBlock).2 ∧
    (cursor s + 1 < n → cursor (ops.getDataBlock s .nextBlock).2 = cursor s + 1)
  read_block : ∀ s i, valid s → i < n →
    ops.readBlock s (number i) = (0, (image.drop (i * B)).take B)

theorem take_drop_append (l : List UInt8) (a j k : ℕ) :
    (l.drop a).take j ++ (l.drop (a + j)).take k = (l.drop a).take (j + k) := by
  rw [take_add, drop_drop]

/-- The node `fnode'` is `fnode` after the file system has moved its cursor to block `c`.
Only the buffer may differ besides. -/
structure Moved (walk : BlockWalk ops B n image) (fnode fnode' : Fnode σ) (c : ℕ) : Prop where
  valid : walk.valid fnode'.fs
  cursor_eq : walk.cursor fnode'.fs = c
  dataSize_eq : fnode'.dataSize = fnode.dataSize
  bufferSize_eq : fnode'.bufferSize = fnode.bufferSize

variable {fnode : Fnode σ} {walk : BlockWalk ops B n image} {file : File σ}

variable {c o len : ℕ}

theorem Moved.trans {fnode' fnode'' : Fnode σ} {c' : ℕ} (h : Moved walk fnode fnode' c)
    (h' : Moved walk fnode' fnode'' c') :
    Moved walk fnode fnode'' c' where
  valid := h'.valid
  cursor_eq := h'.cursor_eq
  dataSize_eq := h'.dataSize_eq.trans h.dataSize_eq
  bufferSize_eq := h'.bufferSize_eq.trans h.bufferSize_eq

theorem BlockWalk.length_block (walk : BlockWalk ops B n image) {i : ℕ} (hi : i < n) :
    ((image.drop (i * B)).take B).length = B := by
  have hle : i * B + B ≤ n * B := by
    rw [← Nat.succ_mul]
    exact Nat.mul_le_mul_right B hi
  rw [length_take, length_drop, walk.length_eq]
  omega

theorem copyIn_zero {bytes : List UInt8} (h : fnode.dataBuffer.length = bytes.length) :
    (fnode.copyIn 0 bytes).dataBuffer = bytes := by
  simp [Fnode.copyIn, drop_eq_nil_of_le h.le]

/-- While there is a next block, reading it succeeds and moves the cursor to it. -/
theorem vfsReadBlock_nextBlock (walk : BlockWalk ops B n image) (hvalid : walk.valid fnode.fs)
    (hcursor : walk.cursor fnode.fs = c) (hc : c + 1 < n) (buffer : List UInt8) :
    ∃ fnode', vfsReadBlock ops fnode buffer .nextBlock =
        (0, (image.drop ((c + 1) * B)).take B, fnode') ∧
      Moved walk fnode fnode' (c + 1) ∧ fnode'.dataBuffer = fnode.dataBuffer := by
  obtain ⟨hnumber, hvalid', hmove⟩ := walk.next_block fnode.fs hvalid
  rw [hcursor] at hnumber hmove
  have hne : walk.number (c + 1) ≠ 0 := fun h => by
    have hle := (walk.number_eq_zero (c + 1)).mp h
    omega
  have hread := walk.read_block _ (c + 1) hvalid' hc
  let fnode' : Fnode σ :=
    { fnode with
      fs := (ops.getDataBlock fnode.fs .nextBlock).2
      currentBlock := walk.number (c + 1) }
  refine ⟨fnode', ?_, ⟨hvalid', hmove hc, rfl, rfl⟩, rfl⟩
  simp only [vfsReadBlock, vfsGetDataBlock, hnumber, hne, if_false, hread, fnode']

/-- The loop over whole blocks delivers the next `k` blocks. -/
theorem readBlocks_spec (walk : BlockWalk ops B n image) {k : ℕ} (hvalid : walk.valid fnode.fs)
    (hcursor : walk.cursor fnode.fs = c) (hc : c + k < n) (out : List UInt8) :
    ∃ fnode', readBlocks ops k fnode out =
        (0, out ++ (image.drop ((c + 1) * B)).take (k * B), fnode') ∧
      Moved walk fnode fnode' (c + k) ∧ fnode'.dataBuffer = fnode.dataBuffer := by
  induction k generalizing c fnode out with
  | zero => exact ⟨fnode, by simp [readBlocks], ⟨hvalid, hcursor, rfl, rfl⟩, rfl⟩
  | succ k ih =>
    obtain ⟨fnode₁, hblock, hmoved₁, hbuffer₁⟩ :=
      vfsReadBlock_nextBlock walk hvalid hcursor (by omega) []
    obtain ⟨fnode₂, hloop, hmoved₂, hbuffer₂⟩ :=
      ih hmoved₁.valid hmoved₁.cursor_eq (by omega) (out ++ (image.drop ((c + 1) * B)).take B)
    have hsum : c + 1 + k = c + (k + 1) := by omega
    rw [hsum] at hmoved₂
    refine ⟨fnode₂, ?_, hmoved₁.trans hmoved₂, hbuffer₂.trans hbuffer₁⟩
    have hnext : (c + 1 + 1) * B = (c + 1) * B + B := by ring
    have hsize : (k + 1) * B = B + k * B := by ring
    simp only [readBlocks, hblock, ne_eq, not_true_eq_false, if_false, hloop]
    rw [hnext, hsize, append_assoc, take_drop_append]

/-- While there is a next block, it can be read into the buffer of the node. -/
theorem fillBuffer_spec (walk : BlockWalk ops B n image) (hvalid : walk.valid fnode.fs)
    (hcursor : walk.cursor fnode.fs = c) (hc : c + 1 < n) (hbuf : fnode.dataBuffer.length = B) :
    ∃ fnode', fillBuffer ops fnode = (0, fnode') ∧ Moved walk fnode fnode' (c + 1) ∧
      fnode'.dataBuffer = (image.drop ((c + 1) * B)).take B := by
  obtain ⟨fnode₁, hblock, hmoved, hsame⟩ :=
    vfsReadBlock_nextBlock walk hvalid hcursor hc fnode.dataBuffer
  refine ⟨fnode₁.copyIn 0 ((image.drop ((c + 1) * B)).take B), ?_, ?_, copyIn_zero ?_⟩
  · simp only [fillBuffer, hblock]
  · exact ⟨hmoved.valid, hmoved.cursor_eq, hmoved.dataSize_eq, hmoved.bufferSize_eq⟩
  · rw [hsame, hbuf, walk.length_block hc]

/-- The file is open at position `o` of `len` bytes. -/
structure Opened (walk : BlockWalk ops B n image) (len o : ℕ) (file : File σ) : Prop where
  offset_eq : file.offset = o
  rwPos_eq : file.fnode.rwPos = o % B
  dataSize_eq : file.fnode.dataSize = len
  bufferSize_eq : file.fnode.bufferSize = B
  valid : walk.valid file.fnode.fs

/-- The buffer of the node holds the block of position `o`, and the cursor is on it. -/
structure Buffered (walk : BlockWalk ops B n image) (o : ℕ) (fnode : Fnode σ) : Prop where
  cursor_eq : walk.cursor fnode.fs = o / B
  buffer_eq : fnode.dataBuffer = (image.drop (o / B * B)).take B

theorem Buffered.drop_take {k : ℕ} (hbuf : Buffered walk o fnode) (hk : o % B + k ≤ B) :
    (fnode.dataBuffer.drop (o % B)).take k = (image.drop o).take k := by
  have ho : o / B * B + o % B = o := Nat.div_add_mod' o B
  rw [hbuf.buffer_eq, List.drop_take, drop_drop, take_take, ho, Nat.min_eq_left (by omega)]

/-- A read that ends inside the block it starts in. -/
theorem readReal_inside {r : ℕ} (hopen : Opened walk len o file) (hbuf : Buffered walk o file.fnode)
    (hr : o % B + r < B) :
    ∃ file', readReal ops file r = ((r : ℤ), (image.drop o).take r, file') ∧
      Opened walk len (o + r) file' ∧ Buffered walk (o + r) file'.fnode := by
  have hsplit : splitRequest B (o % B) r = { sizeInBuffer := r, blocks := 0, sizeLeft := 0 } := by
    unfold splitRequest
    rw [if_pos (by omega)]
  have hpiece : (file.fnode.dataBuffer.drop (o % B)).take r = (image.drop o).take r :=
    hbuf.drop_take (by omega)
  have hne : r ≠ B := by omega
  have hmod : (o % B + r) % B = (o + r) % B := by rw [Nat.mod_add_mod]
  have hdiv : (o + r) / B = o / B := by
    have ho := Nat.div_add_mod' o B
    have hsum : o + r = o % B + r + o / B * B := by omega
    rw [hsum, Nat.add_mul_div_right _ _ (by omega), Nat.div_eq_of_lt hr, Nat.zero_add]
  refine ⟨{ offset := o + r, fnode := { file.fnode with rwPos := (o + r) % B } }, ?_, ?_, ?_⟩
  · simp only [readReal, hopen.bufferSize_eq, hopen.rwPos_eq, hopen.offset_eq, hsplit, readBlocks,
      readLeft, readAhead, if_true, if_false, ne_eq, not_true_eq_false, hne, hpiece, hmod]
  · exact ⟨rfl, rfl, hopen.dataSize_eq, hopen.bufferSize_eq, hopen.valid⟩
  · constructor
    · rw [hdiv]
      exact hbuf.cursor_eq
    · rw [hdiv]
      exact hbuf.buffer_eq

/-- The end of a read that has delivered whole blocks up to block `c`: the `l` bytes of
the next block, and the block to read ahead. The next block is in the buffer afterwards,
unless `l` is `0` and the read started inside a block. -/
theorem readEnd_spec (walk : BlockWalk ops B n image) {p b l : ℕ} (hvalid : walk.valid fnode.fs)
    (hcursor : walk.cursor fnode.fs = c) (hB : fnode.bufferSize = B)
    (hbuf : fnode.dataBuffer.length = B) (hp : p < B) (hl : l < B)
    (hleft : l ≠ 0 → c + 1 < n) (hahead : l = 0 → p = 0 → c + 1 < n) (out : List UInt8) :
    ∃ fnode₁ fnode₂ c', readLeft ops l fnode out =
        (0, out ++ (image.drop ((c + 1) * B)).take l, fnode₁) ∧
      readAhead ops { sizeInBuffer := B - p, blocks := b, sizeLeft := l } fnode₁ = (0, fnode₂) ∧
      Moved walk fnode fnode₂ c' ∧
      (l ≠ 0 ∨ p = 0 → c' = c + 1 ∧ fnode₂.dataBuffer = (image.drop ((c + 1) * B)).take B) := by
  by_cases hzero : l = 0
  · have hreadLeft : readLeft ops l fnode out =
        (0, out ++ (image.drop ((c + 1) * B)).take l, fnode) := by
      simp [readLeft, hzero]
    by_cases hstart : p = 0
    · obtain ⟨fnode₂, hfill, hmoved, hbuffer⟩ :=
        fillBuffer_spec walk hvalid hcursor (hahead hzero hstart) hbuf
      refine ⟨fnode, fnode₂, c + 1, hreadLeft, ?_, hmoved, fun _ => ⟨rfl, hbuffer⟩⟩
      simp only [readAhead, hzero, hstart, hB, if_true, Nat.sub_zero, hfill]
    · refine ⟨fnode, fnode, c, hreadLeft, ?_, ⟨hvalid, hcursor, rfl, rfl⟩, ?_⟩
      · have hne : B - p ≠ B := by omega
        simp only [readAhead, hzero, hB, if_true, hne, if_false]
      · rintro (h | h)
        · exact absurd hzero h
        · exact absurd h hstart
  · obtain ⟨fnode₁, hfill, hmoved, hbuffer⟩ :=
      fillBuffer_spec walk hvalid hcursor (hleft hzero) hbuf
    refine ⟨fnode₁, fnode₁, c + 1, ?_, ?_, hmoved, fun _ => ⟨rfl, hbuffer⟩⟩
    · simp only [readLeft, hzero, if_false, hfill, ne_eq, not_true_eq_false, hbuffer,
        take_take, Nat.min_eq_left hl.le]
    · have hne : B - l ≠ B := by omega
      simp only [readAhead, hzero, if_false, hmoved.bufferSize_eq, hB, hne]

/-- Where a read of the rest of a block, `b` whole blocks and `l` bytes ends. -/
theorem crossing_end {b l : ℕ} (o : ℕ) (hl : l < B) :
    (o + (B - o % B + (b * B + l))) / B = o / B + b + 1 ∧
      (o + (B - o % B + (b * B + l))) % B = l := by
  have hB : 0 < B := Nat.zero_lt_of_lt hl
  have ho := Nat.div_add_mod' o B
  have hp := Nat.mod_lt o hB
  have hexpand : B * (o / B + b + 1) = o / B * B + b * B + B := by ring
  rw [Nat.div_mod_unique hB]
  exact ⟨by omega, hl⟩

/-- A read that reaches the end of the block it starts in: the rest of that block, `b`
whole blocks and `l` bytes of a last one. -/
theorem readReal_across {b l : ℕ} (hopen : Opened walk len o file)
    (hbuf : Buffered walk o file.fnode) (hl : l < B)
    (hlen : o + (B - o % B + (b * B + l)) ≤ n * B)
    (hahead : l = 0 → o % B = 0 → o / B + b + 1 < n) :
    ∃ file', readReal ops file (B - o % B + (b * B + l)) =
        (((B - o % B + (b * B + l) : ℕ) : ℤ), (image.drop o).take (B - o % B + (b * B + l)),
          file') ∧
      Opened walk len (o + (B - o % B + (b * B + l))) file' ∧
      (l ≠ 0 ∨ o % B = 0 → Buffered walk (o + (B - o % B + (b * B + l))) file'.fnode) := by
  have hB : 0 < B := Nat.zero_lt_of_lt hl
  have hp : o % B < B := Nat.mod_lt o hB
  have hsplit : splitRequest B (o % B) (B - o % B + (b * B + l)) =
      { sizeInBuffer := B - o % B, blocks := b, sizeLeft := l } := by
    obtain ⟨hdiv, hmod⟩ : (b * B + l) / B = b ∧ (b * B + l) % B = l := by
      rw [Nat.div_mod_unique hB]
      exact ⟨by ring, hl⟩
    unfold splitRequest
    rw [if_neg (by omega), Nat.add_sub_cancel_left, hdiv, hmod]
  have hpiece : (file.fnode.dataBuffer.drop (o % B)).take (B - o % B) =
      (image.drop o).take (B - o % B) := hbuf.drop_take (by omega)
  -- The read ends at byte `l` of block `o / B + b + 1`.
  obtain ⟨hdiv, hmod⟩ := crossing_end (b := b) o hl
  have hend := Nat.div_add_mod' (o + (B - o % B + (b * B + l))) B
  rw [hdiv, hmod] at hend
  have hblocks : (o / B + 1) * B + b * B = (o / B + b + 1) * B := by ring
  have hfirst : o + (B - o % B) = (o / B + 1) * B := by omega
  have hinside : o / B + b < n := by nlinarith
  have hleft : l ≠ 0 → o / B + b + 1 < n := by
    intro h
    exact Nat.lt_of_mul_lt_mul_right (a := B) (by omega)
  obtain ⟨fnode₁, hloop, hmoved₁, hsame⟩ := readBlocks_spec walk hopen.valid hbuf.cursor_eq
    hinside ((image.drop o).take (B - o % B))
  have hfull : fnode₁.dataBuffer.length = B := by
    rw [hsame, hbuf.buffer_eq, walk.length_block (Nat.lt_of_le_of_lt (Nat.le_add_right _ b) hinside)]
  obtain ⟨fnode₂, fnode₃, c', hreadLeft, hreadAhead, hmoved₂, hbuffer⟩ := readEnd_spec (b := b) walk
    hmoved₁.valid hmoved₁.cursor_eq (hmoved₁.bufferSize_eq.trans hopen.bufferSize_eq) hfull hp hl
    hleft hahead ((image.drop o).take (B - o % B) ++ (image.drop ((o / B + 1) * B)).take (b * B))
  have hmoved := hmoved₁.trans hmoved₂
  have hsize := hmoved.bufferSize_eq.trans hopen.bufferSize_eq
  have hpos : (o % B + (B - o % B + (b * B + l))) % B = l := by rw [Nat.mod_add_mod, hmod]
  have hout : (image.drop o).take (B - o % B) ++ (image.drop ((o / B + 1) * B)).take (b * B) ++
      (image.drop ((o / B + b + 1) * B)).take l =
      (image.drop o).take (B - o % B + (b * B + l)) := by
    rw [← hblocks, ← hfirst, append_assoc, take_drop_append, take_drop_append]
  refine ⟨{ offset := o + (B - o % B + (b * B + l)), fnode := { fnode₃ with rwPos := l } },
    ?_, ?_, fun hkept => ?_⟩
  · simp only [readReal, hopen.bufferSize_eq, hopen.rwPos_eq, hopen.offset_eq, hsplit, hpiece,
      hloop, hreadLeft, hreadAhead, ne_eq, not_true_eq_false, if_false, hsize, hpos, hout]
  · exact ⟨rfl, hmod.symm, hmoved.dataSize_eq.trans hopen.dataSize_eq, hsize, hmoved.valid⟩
  · obtain ⟨hc', hdata⟩ := hbuffer hkept
    exact ⟨hdiv ▸ hmoved.cursor_eq.trans hc', hdiv ▸ hdata⟩

/-- A read of `r` bytes that exist delivers them and moves the file position behind them.
The buffer follows, unless the read starts inside a block and ends on a boundary. -/
theorem readReal_spec {r : ℕ} (hopen : Opened walk len o file) (hbuf : Buffered walk o file.fnode)
    (hB : 0 < B) (hlen : o + r ≤ n * B) (hahead : (o + r) % B = 0 → o % B = 0 → (o + r) / B < n) :
    ∃ file', readReal ops file r = ((r : ℤ), (image.drop o).take r, file') ∧
      Opened walk len (o + r) file' ∧
      ((o + r) % B ≠ 0 ∨ o % B = 0 → Buffered walk (o + r) file'.fnode) := by
  by_cases hinside : o % B + r < B
  · obtain ⟨file', hread, hopen', hbuf'⟩ := readReal_inside hopen hbuf hinside
    exact ⟨file', hread, hopen', fun _ => hbuf'⟩
  · obtain ⟨b, l, hl, rfl⟩ : ∃ b l, l < B ∧ r = B - o % B + (b * B + l) :=
      ⟨(r - (B - o % B)) / B, _, Nat.mod_lt (r - (B - o % B)) hB, by
        rw [Nat.div_add_mod']
        omega⟩
    obtain ⟨hdiv, hmod⟩ := crossing_end (b := b) o hl
    rw [hmod, hdiv] at hahead
    rw [hmod]
    exact readReal_across hopen hbuf hl hlen hahead

/-- When the sum of offset and size stays in the signed range, the request is cut at the end
of the file. -/
theorem realSize_eq_min {file : File σ} {size : ℕ} (ho : file.offset ≤ file.fnode.dataSize)
    (hrange : file.offset + size < 2 ^ 31) :
    realSize file size = (min size (file.fnode.dataSize - file.offset) : ℕ) := by
  rw [realSize, wrap32_eq_self (by omega) (by omega)]
  split_ifs with h <;> omega

/-- The values that reads of these sizes return from position `o` of `len` bytes on. -/
def readReturns (len : ℕ) : ℕ → List ℕ → List ℕ
  | _, [] => []
  | o, size :: sizes =>
    min size (len - o) :: readReturns len (o + min size (len - o)) sizes

/-- Perform reads of these sizes: the returned values, the bytes delivered, the file. -/
def vfsReads (ops : FilesystemOps σ) : List ℕ → File σ → Option (List ℤ × List UInt8 × File σ)
  | [], file => some ([], [], file)
  | size :: sizes, file => do
    let (ret, out, file) ← vfsRead ops file size
    let (rets, outs, file) ← vfsReads ops sizes file
    some (ret :: rets, out ++ outs, file)

/-- The sizes of the reads keep clear of the defects of `vfs_read`, for a file of `len`
bytes in `n` blocks: no sum of offset and size overflows, a read from one block boundary
to another has a block behind it, and a read from inside a block to a block boundary
reaches the end of the file or is the last one. -/
def KeepsBuffer (B n len : ℕ) : ℕ → List ℕ → Prop
  | _, [] => True
  | o, size :: sizes =>
    let o' := o + min size (len - o)
    o + size < 2 ^ 31 ∧
    (o < len → o' % B = 0 → if o % B = 0 then o' / B < n else o' = len ∨ sizes = []) ∧
    KeepsBuffer B n len o' sizes

theorem readReturns_sum_le (len o : ℕ) (sizes : List ℕ) :
    (readReturns len o sizes).sum ≤ len - o := by
  induction sizes generalizing o with
  | nil => simp [readReturns]
  | cons size sizes ih =>
    have hrest := ih (o + min size (len - o))
    simp only [readReturns, sum_cons]
    omega

/-- One read that keeps clear of the defects: it returns and delivers what it should, and
the buffer holds the block of the new position unless the end of the file is reached or
no read follows. -/
theorem vfsRead_spec {size : ℕ} {sizes : List ℕ} (hB : 0 < B) (hlen : len ≤ n * B) (ho : o ≤ len)
    (hopen : Opened walk len o file) (hbuf : o < len → Buffered walk o file.fnode)
    (hkeep : KeepsBuffer B n len o (size :: sizes)) :
    ∃ file', vfsRead ops file size = some (((min size (len - o) : ℕ) : ℤ),
        (image.drop o).take (min size (len - o)), file') ∧
      Opened walk len (o + min size (len - o)) file' ∧
      (sizes ≠ [] → o + min size (len - o) < len →
        Buffered walk (o + min size (len - o)) file'.fnode) := by
  obtain ⟨hrange, hboundary, -⟩ := hkeep
  rw [← hopen.offset_eq] at hrange
  rw [vfsRead, realSize_eq_min (by rwa [hopen.offset_eq, hopen.dataSize_eq]) hrange,
    hopen.dataSize_eq, hopen.offset_eq, if_neg (by omega)]
  by_cases hzero : min size (len - o) = 0
  · rw [hzero]
    refine ⟨file, by simp, hopen, fun _ hlt => hbuf hlt⟩
  · rw [if_neg (by omega), Int.toNat_natCast]
    have hahead : (o + min size (len - o)) % B = 0 → o % B = 0 →
        (o + min size (len - o)) / B < n := by
      intro hend hstart
      have h := hboundary (by omega) hend
      rwa [if_pos hstart] at h
    obtain ⟨file', hread, hopen', hbuf'⟩ :=
      readReal_spec hopen (hbuf (by omega)) hB (by omega) hahead
    refine ⟨file', by rw [hread], hopen', ?_⟩
    intro hmore hlt
    apply hbuf'
    by_contra hcontra
    rw [not_or, not_not] at hcontra
    obtain ⟨hend, hstart⟩ := hcontra
    have h := hboundary (by omega) hend
    rw [if_neg hstart] at h
    obtain h | h := h
    · omega
    · exact hmore h

/-- A sequence of reads that keeps clear of the defects delivers the bytes of the file in
order, from the position at which it starts. -/
theorem vfsReads_spec {sizes : List ℕ} (hB : 0 < B) (hlen : len ≤ n * B) (ho : o ≤ len)
    (hopen : Opened walk len o file) (hbuf : sizes ≠ [] → o < len → Buffered walk o file.fnode)
    (hkeep : KeepsBuffer B n len o sizes) :
    ∃ file', vfsReads ops sizes file = some ((readReturns len o sizes).map Nat.cast,
      (image.drop o).take (readReturns len o sizes).sum, file') := by
  induction sizes generalizing o file with
  | nil => exact ⟨file, by simp [vfsReads, readReturns]⟩
  | cons size sizes ih =>
    obtain ⟨file₁, hread, hopen₁, hbuf₁⟩ :=
      vfsRead_spec hB hlen ho hopen (hbuf (cons_ne_nil _ _)) hkeep
    obtain ⟨file₂, hreads⟩ := ih (by omega) hopen₁ hbuf₁ hkeep.2.2
    refine ⟨file₂, ?_⟩
    simp only [vfsReads, hread, hreads, Option.bind_eq_bind, Option.bind_some, readReturns,
      map_cons, sum_cons, take_drop_append]

/-- `vfs_open` fills the buffer with the first block, when there is one. -/
theorem vfsOpen_spec (hopen : Opened walk len 0 file) :
    Opened walk len 0 (vfsOpen ops file).2 ∧
      (0 < n → Buffered walk 0 (vfsOpen ops file).2.fnode) := by
  obtain ⟨hnumber, hvalid, hmove⟩ := walk.start_block file.fnode.fs hopen.valid
  have hnone := walk.number_eq_zero 0
  by_cases hn : n = 0
  · have hzero : walk.number 0 = 0 := hnone.mpr (by omega)
    rw [hzero] at hnumber
    simp only [vfsOpen, vfsReadBlock, vfsGetDataBlock, hnumber, if_true]
    refine ⟨⟨hopen.offset_eq, hopen.rwPos_eq, hopen.dataSize_eq, hopen.bufferSize_eq, hvalid⟩, ?_⟩
    omega
  · have hne : walk.number 0 ≠ 0 := fun h => hn (by have := hnone.mp h; omega)
    have hread := walk.read_block _ 0 hvalid (by omega)
    simp only [vfsOpen, vfsReadBlock, vfsGetDataBlock, hnumber, hne, if_false, hread]
    refine ⟨⟨hopen.offset_eq, hopen.rwPos_eq, hopen.dataSize_eq, hopen.bufferSize_eq, hvalid⟩, ?_⟩
    intro hpos
    constructor
    · simpa using hmove hpos
    · simp

/-- The reads that follow `vfs_open` deliver a prefix of the content of the file, and each
returns as many bytes as it asked for or as remain, when their sizes keep clear of the
defects of `vfs_read`. -/
theorem vfsReads_deliver_prefix {walk : BlockWalk ops B n image} {content : List UInt8}
    {file : File σ} {sizes : List ℕ} (hB : 0 < B) (hcontent : content <+: image)
    (hopen : Opened walk content.length 0 file) (hkeep : KeepsBuffer B n content.length 0 sizes) :
    ∃ file', vfsReads ops sizes (vfsOpen ops file).2 =
      some ((readReturns content.length 0 sizes).map Nat.cast,
        content.take (readReturns content.length 0 sizes).sum, file') := by
  have hlen : content.length ≤ n * B := walk.length_eq ▸ hcontent.length_le
  obtain ⟨hopen', hbuf⟩ := vfsOpen_spec hopen
  have hbuf' : sizes ≠ [] → 0 < content.length → Buffered walk 0 (vfsOpen ops file).2.fnode := by
    intro _ hpos
    apply hbuf
    by_contra hn
    obtain rfl : n = 0 := by omega
    omega
  obtain ⟨file', hreads⟩ := vfsReads_spec hB hlen (Nat.zero_le _) hopen' hbuf' hkeep
  refine ⟨file', ?_⟩
  have hsum : (readReturns content.length 0 sizes).sum ≤ content.length :=
    readReturns_sum_le content.length 0 sizes
  obtain ⟨rest, rfl⟩ := hcontent
  rw [hreads, drop_zero, take_append_of_le_length hsum]

/-- A file system in memory: the state is the cursor and the bytes of the blocks of one
file, and block `i` has the number `i + 1`. -/
def memOps (B : ℕ) : FilesystemOps (ℕ × List UInt8) where
  getDataBlock s
    | .startBlock => if 0 < s.2.length then (1, (0, s.2)) else (0, s)
    | .nextBlock => if (s.1 + 1) * B < s.2.length then (s.1 + 2, (s.1 + 1, s.2)) else (0, s)
    | .prevBlock => if 0 < s.1 then (s.1, (s.1 - 1, s.2)) else (0, s)
    | .currentBlock => if s.1 * B < s.2.length then (s.1 + 1, s) else (0, s)
    | .endBlock => (0, s)
  readBlock s b := (0, (s.2.drop ((b - 1) * B)).take B)
  writeBlock s bytes b := (0, (s.1, s.2.take ((b - 1) * B) ++ bytes ++ s.2.drop (b * B)))
  getBlock := some fun s => (s.2.length / B + 1, (s.1, s.2 ++ List.replicate B 0))

/-- The file system in memory walks the blocks of its file in order. -/
def memWalk {B n : ℕ} {image : List UInt8} (hB : 0 < B) (hlen : image.length = n * B) :
    BlockWalk (memOps B) B n image where
  valid s := s.2 = image
  cursor s := s.1
  number i := if i < n then i + 1 else 0
  length_eq := hlen
  number_eq_zero i := by simp
  start_block := by
    rintro s rfl
    simp only [memOps, hlen, Nat.mul_pos_iff_of_pos_right hB]
    split_ifs <;> simp_all
  next_block := by
    rintro s rfl
    simp only [memOps, hlen, Nat.mul_lt_mul_right hB]
    split_ifs <;> simp_all
  read_block := by
    rintro s i rfl hi
    simp [memOps, hi]

/-- A file of `image.length` bytes, not yet opened, in the file system in memory. -/
def memFile (B : ℕ) (image : List UInt8) : File (ℕ × List UInt8) :=
  { offset := 0
    fnode :=
      { blkCnt := 0, dataSize := image.length, bufferSize := B, rwPos := 0
        dataBuffer := List.replicate B 0, currentBlock := 0, fs := (0, image) } }

theorem memFile_opened (hB : 0 < B) (hlen : image.length = n * B) :
    Opened (memWalk hB hlen) image.length 0 (memFile B image) where
  offset_eq := rfl
  rwPos_eq := (Nat.zero_mod B).symm
  dataSize_eq := rfl
  bufferSize_eq := rfl
  valid := rfl

/-- The theorem applies to reads of 3, 2 and 4 bytes of a file of three blocks of two
bytes. The last of them gets the one byte that is left. -/
theorem vfsReads_deliver_prefix_threeBlocks :
    ∃ file', vfsReads (memOps 2) [3, 2, 4] (vfsOpen (memOps 2) (memFile 2 [1, 2, 3, 4, 5, 6])).2 =
      some ([3, 2, 1], [1, 2, 3, 4, 5, 6], file') :=
  vfsReads_deliver_prefix (n := 3) (by decide) (prefix_refl [1, 2, 3, 4, 5, 6])
    (memFile_opened (by decide) (by decide)) (by simp [KeepsBuffer])

/-- Three reads of one byte each: the second starts inside a block and ends with it, and
the third delivers the first byte again instead of the third. -/
theorem vfsReads_stale_twoBlocks :
    (∃ walk : BlockWalk (memOps 2) 2 2 [1, 2, 3, 4], Opened walk 4 0 (memFile 2 [1, 2, 3, 4])) ∧
      (vfsReads (memOps 2) [1, 1, 1] (vfsOpen (memOps 2) (memFile 2 [1, 2, 3, 4])).2).map
        (fun r => (r.1, r.2.1)) = some ([1, 1, 1], [1, 2, 1]) ∧
      ¬ [1, 2, 1] <+: [1, 2, 3, (4 : UInt8)] := by
  refine ⟨⟨memWalk (by decide) (by decide), memFile_opened (by decide) (by decide)⟩, ?_, ?_⟩
  · decide
  · decide

end Chunos.Vfs
