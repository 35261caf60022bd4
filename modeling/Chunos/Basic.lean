import Mathlib

/-!
# Machine words and constants shared by the kernel sources

The kernel is a 32-bit program. An `int` or a `size_t` (which `os/types.h`
declares as `int`) is an integer here, and `wrap32` is the two's complement
reduction wherever a result can leave the signed range. The alignment macros of
`os/bound.h` work on 32-bit words, because they are bit masks there.
-/

namespace Chunos

/-- `os/errno.h`, `ENOENT`: no such file. -/
def enoent : ℤ := 2

/-- `os/errno.h`, `ESRCH`: no such process. -/
def esrch : ℤ := 3

/-- `os/errno.h`, `EIO`: an I/O error. -/
def eio : ℤ := 5

/-- `os/errno.h`, `ENXIO`: no such device or address. -/
def enxio : ℤ := 6

/-- `os/errno.h`, `EAGAIN`: try again. -/
def eagain : ℤ := 11

/-- `os/errno.h`, `ENOMEM`: out of memory. -/
def enomem : ℤ := 12

/-- `os/errno.h`, `EFAULT`: bad address. -/
def efault : ℤ := 14

/-- `os/errno.h`, `ENOTDIR`: not a directory. -/
def enotdir : ℤ := 20

/-- `os/errno.h`, `EINVAL`: invalid argument. -/
def einval : ℤ := 22

/-- `os/errno.h`, `EMFILE`: too many open files. -/
def emfile : ℤ := 24

/-- `os/errno.h`, `EFBIG`: file too large. -/
def efbig : ℤ := 27

/-- `os/errno.h`, `ENOSPC`: no space left. -/
def enospc : ℤ := 28

/-- `os/mm.h`, `PAGE_SIZE`: the bytes of a page frame. -/
def pageSize : ℕ := 4096

/-- `os/mm.h`, `PAGE_SHIFT`: the logarithm of the page size. -/
def pageShift : ℕ := 12

/-- The value an `int` keeps when a sum leaves the signed 32-bit range. -/
def wrap32 (x : ℤ) : ℤ := Int.bmod x (2 ^ 32)

theorem wrap32_eq_self {x : ℤ} (hlo : -2 ^ 31 ≤ x) (hhi : x < 2 ^ 31) : wrap32 x = x := by
  unfold wrap32
  rw [Int.bmod_def]
  split_ifs with h <;> omega

theorem wrap32_of_ge {x : ℤ} (hlo : 2 ^ 31 ≤ x) (hhi : x < 2 ^ 32) : wrap32 x = x - 2 ^ 32 := by
  unfold wrap32
  rw [Int.bmod_def]
  split_ifs <;> omega

/-- `os/bound.h`: round a word up to a multiple of a power of two. -/
def align (num size : BitVec 32) : BitVec 32 := (num + (size - 1)) &&& ~~~(size - 1)

/-- `os/bound.h`: round a word down to a multiple of a power of two. -/
def minAlign (num size : BitVec 32) : BitVec 32 := num &&& ~~~(size - 1)

/-- `os/bound.h`: another spelling of the rounding up, used for file sizes. -/
def baligin (num size : BitVec 32) : BitVec 32 := (num + size - 1) &&& ~~~(size - 1)

variable {k : ℕ}

/-- The mask `2 ^ k - 1` of the alignment macros has exactly its low `k` bits set. -/
theorem lowMask_getElem {i : ℕ} (hk : k < 32) (hi : i < 32) :
    (BitVec.ofNat 32 (2 ^ k) - 1)[i] = decide (i < k) := by
  have hpow : 2 ^ k < 2 ^ 32 := Nat.pow_lt_pow_right (by omega) hk
  have hpos : 0 < 2 ^ k := Nat.two_pow_pos k
  have hmask : BitVec.ofNat 32 (2 ^ k) - 1 = BitVec.ofNat 32 (2 ^ k - 1) := by
    apply BitVec.eq_of_toNat_eq
    simp only [BitVec.ofNat_eq_ofNat, BitVec.toNat_sub, BitVec.toNat_ofNat]
    omega
  rw [hmask, BitVec.getElem_eq_testBit_toNat, BitVec.toNat_ofNat,
    Nat.mod_eq_of_lt (by omega), Nat.testBit_two_pow_sub_one]

/-- Clearing the low `k` bits of a word leaves the largest multiple of `2 ^ k`
below it. This is the arithmetic reading of the mask in `minAlign`. -/
theorem toNat_minAlign_two_pow (hk : k < 32) (x : BitVec 32) :
    (minAlign x (BitVec.ofNat 32 (2 ^ k))).toNat = x.toNat / 2 ^ k * 2 ^ k := by
  have hshift : minAlign x (BitVec.ofNat 32 (2 ^ k)) = (x >>> k) <<< k := by
    ext i hi
    simp only [minAlign, BitVec.getElem_and, BitVec.getElem_not, lowMask_getElem hk hi,
      BitVec.getElem_shiftLeft]
    by_cases hik : i < k
    · simp [hik]
    · have hsum : k + (i - k) = i := by omega
      simp [hik, hsum, hi]
  rw [hshift, BitVec.toNat_shiftLeft, BitVec.toNat_ushiftRight,
    Nat.shiftRight_eq_div_pow, Nat.shiftLeft_eq]
  apply Nat.mod_eq_of_lt
  have hle := Nat.div_mul_le_self x.toNat (2 ^ k)
  have hlt := x.isLt
  omega

/-- Rounding up by a power of two, when the addition does not leave the word. -/
theorem toNat_align_two_pow (hk : k < 32) {x : BitVec 32} (hx : x.toNat + 2 ^ k ≤ 2 ^ 32) :
    (align x (BitVec.ofNat 32 (2 ^ k))).toNat = (x.toNat + 2 ^ k - 1) / 2 ^ k * 2 ^ k := by
  have hpow : 2 ^ k < 2 ^ 32 := Nat.pow_lt_pow_right (by omega) hk
  have hpos : 0 < 2 ^ k := Nat.two_pow_pos k
  have hadd : (x + (BitVec.ofNat 32 (2 ^ k) - 1)).toNat = x.toNat + 2 ^ k - 1 := by
    simp only [BitVec.ofNat_eq_ofNat, BitVec.toNat_add, BitVec.toNat_sub, BitVec.toNat_ofNat]
    omega
  have h := toNat_minAlign_two_pow hk (x + (BitVec.ofNat 32 (2 ^ k) - 1))
  rw [hadd] at h
  exact h

end Chunos
