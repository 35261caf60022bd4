import Chunos.Basic

/-!
# Bitmaps: kernel/bitops.c

A bitmap is the memory behind a `u32` pointer, read as one function from word
positions to words. Indices are C `int`s, so an index below zero is a huge word
position here as it is in the kernel, and a run that computes one is visible in
the list of indices it reads. `bitmapFindFreeBase` is a `while (1)` loop: it is
run with fuel, and `none` means that the fuel did not reach the end of the loop.
-/

namespace Chunos

/-- The words behind a `u32 *`. -/
def Bitmap : Type := ℕ → BitVec 32

/-- `bit_ops_t`. -/
inductive BitOps where
  | clear
  | set
  | read
  deriving DecidableEq, Repr

/-- `get_bit_pos`: the word and the bit of an index. The `int` index is converted
to unsigned by the division by `sizeof(u32) * 8`. -/
def getBitPos (n : ℤ) : ℕ × ℕ := ((n % 2 ^ 32).toNat / 32, (n % 2 ^ 32).toNat % 32)

/-- Store one word. -/
def Bitmap.store (bitMap : Bitmap) (x : ℕ) (word : BitVec 32) : Bitmap :=
  fun k => if k = x then word else bitMap k

/-- `op_bits` on a bitmap that is not `NULL`. -/
def opBits (bitMap : Bitmap) (n : ℤ) (ops : BitOps) : ℕ × Bitmap :=
  let (x, y) := getBitPos n
  match ops with
  | .clear => (0, bitMap.store x (bitMap x &&& ~~~(1#32 <<< y)))
  | .set => (0, bitMap.store x (bitMap x ||| 1#32 <<< y))
  | .read => (((bitMap x &&& 1#32 <<< y) >>> y).toNat, bitMap)

/-- `clear_bit`. -/
def clearBit (bitMap : Bitmap) (n : ℤ) : Bitmap := (opBits bitMap n .clear).2

/-- `set_bit`. -/
def setBit (bitMap : Bitmap) (n : ℤ) : Bitmap := (opBits bitMap n .set).2

/-- `read_bit`. -/
def readBit (bitMap : Bitmap) (n : ℤ) : ℕ := (opBits bitMap n .read).1

/-- The bit that an index names, as a truth value. -/
def Bitmap.bit (bitMap : Bitmap) (n : ℕ) : Bool := (bitMap (n / 32)).getLsbD (n % 32)

variable {n : ℕ}

theorem getBitPos_natCast (hn : n < 2 ^ 31) : getBitPos (n : ℤ) = (n / 32, n % 32) := by
  have hmod : ((n : ℤ) % 2 ^ 32).toNat = n := by omega
  simp only [getBitPos, hmod]

theorem toNat_mask_shift (word : BitVec 32) {y : ℕ} (hy : y < 32) :
    ((word &&& 1#32 <<< y) >>> y).toNat = (word.getLsbD y).toNat := by
  have hbit : (word &&& 1#32 <<< y) >>> y =
      BitVec.setWidth 32 (BitVec.ofBool (word.getLsbD y)) := by
    ext i hi
    by_cases hzero : i = 0
    · simp [hzero, hy]
    · simp [hzero]
  rw [hbit]
  cases word.getLsbD y <;> rfl

theorem readBit_natCast (bitMap : Bitmap) (hn : n < 2 ^ 31) :
    readBit bitMap n = (bitMap.bit n).toNat := by
  simp only [readBit, opBits, getBitPos_natCast hn]
  exact toNat_mask_shift _ (Nat.mod_lt _ (by norm_num))

theorem readBit_eq_one_iff {bitmap : Bitmap} {i : ℕ} (hi : i < 2 ^ 31) :
    readBit bitmap i = 1 ↔ bitmap.bit i = true := by
  rw [readBit_natCast _ hi]
  cases bitmap.bit i <;> simp

theorem readBit_eq_zero_iff {bitmap : Bitmap} {i : ℕ} (hi : i < 2 ^ 31) :
    readBit bitmap i = 0 ↔ bitmap.bit i = false := by
  rw [readBit_natCast _ hi]
  cases bitmap.bit i <;> simp

/-- Setting or clearing writes the bit that the index names and no other. -/
theorem bit_opBits (bitMap : Bitmap) (hn : n < 2 ^ 31) (update : Bool) (m : ℕ) :
    (opBits bitMap n (if update then .set else .clear)).2.bit m =
      if m = n then update else bitMap.bit m := by
  have hm : m % 32 < 32 := Nat.mod_lt _ (by norm_num)
  have hsame : m = n ↔ m / 32 = n / 32 ∧ m % 32 = n % 32 := by omega
  by_cases hdiv : m / 32 = n / 32
  · by_cases hmod : m % 32 = n % 32
    · rw [if_pos (hsame.mpr ⟨hdiv, hmod⟩)]
      cases update <;>
        simp [opBits, getBitPos_natCast hn, Bitmap.bit, Bitmap.store, hdiv, hmod, hmod ▸ hm]
    · rw [if_neg (mt hsame.mp (by simp [hmod]))]
      cases update <;>
        simp [opBits, getBitPos_natCast hn, Bitmap.bit, Bitmap.store, hdiv, hm] <;> omega
  · rw [if_neg (mt hsame.mp (by simp [hdiv]))]
    cases update <;> simp [opBits, getBitPos_natCast hn, Bitmap.bit, Bitmap.store, hdiv]

/-- `init_bitmap`. -/
def initBitmap (bitmap : Bitmap) (n : ℤ) : Bitmap :=
  (List.range n.toNat).foldl (fun bitmap (i : ℕ) => clearBit bitmap i) bitmap

theorem bit_initBitmap (bitmap : Bitmap) (hn : n ≤ 2 ^ 31) (m : ℕ) :
    (initBitmap bitmap n).bit m = if m < n then false else bitmap.bit m := by
  rw [initBitmap, Int.toNat_natCast]
  induction n with
  | zero => rfl
  | succ n ih =>
    rw [List.range_succ, List.foldl_append]
    refine (bit_opBits _ (by omega) false m).trans ?_
    rw [ih (by omega)]
    split_ifs <;> first | rfl | omega

/-- The variables of the loop in `bitmap_find_free_base`. -/
structure Scan where
  /-- The index that the next iteration reads. -/
  i : ℤ
  /-- Set once the scan has wrapped at the end of the map. -/
  again : Bool
  /-- The matching bits seen in a row. -/
  sum : ℤ
  deriving DecidableEq, Repr

/-- The end of the loop body in `bitmap_find_free_base`, after the test of the bit.
After a wrap `i` is `0` when it is compared with `start`, and the `i++` that closes
the body then skips index `0`. -/
def scanNext (start mapNr : ℤ) (s : Scan) : Scan ⊕ ℤ :=
  let s' : Scan := if s.i = mapNr - 1 then ⟨0, true, 0⟩ else s
  if s'.again ∧ s'.i = start then .inr (-enospc) else .inl { s' with i := s'.i + 1 }

/-- One iteration of the loop in `bitmap_find_free_base`: the next variables, or
the value that the function returns. -/
def scanStep (map : Bitmap) (start value mapNr count : ℤ) (s : Scan) : Scan ⊕ ℤ :=
  if (readBit map s.i : ℤ) = value then
    if s.sum + 1 = count then .inr (s.i + 1 - count)
    else scanNext start mapNr { s with sum := s.sum + 1 }
  else scanNext start mapNr { s with sum := 0 }

/-- The loop of `bitmap_find_free_base`, with the indices it reads in order. -/
def scanLoop (map : Bitmap) (start value mapNr count : ℤ) : ℕ → Scan → Option (ℤ × List ℤ)
  | 0, _ => none
  | fuel + 1, s =>
    match scanStep map start value mapNr count s with
    | .inr ret => some (ret, [s.i])
    | .inl s' => (scanLoop map start value mapNr count fuel s').map fun (ret, reads) =>
        (ret, s.i :: reads)

/-- `bitmap_find_free_base`: the returned index or `-ENOSPC`, and the indices read. -/
def bitmapFindFreeBase (fuel : ℕ) (map : Bitmap) (start value mapNr count : ℤ) :
    Option (ℤ × List ℤ) :=
  scanLoop map start value mapNr count fuel ⟨start, false, 0⟩

/-- A base that the search may return: a run of `count` matching bits in the map. -/
def FreeRun (map : Bitmap) (value mapNr count ret : ℤ) : Prop :=
  0 ≤ ret ∧ ret + count ≤ mapNr ∧ ∀ j, ret ≤ j → j < ret + count → (readBit map j : ℤ) = value

end Chunos
