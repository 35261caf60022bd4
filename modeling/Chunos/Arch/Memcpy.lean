import Mathlib

/-!
# memcpy of the ARM port

The first loop copies as many bytes as the target is above an aligned address, also when the
size is below that. The slots of the stack that hold `r3` to `r6` meanwhile are left out.
-/

namespace Chunos.Memcpy

/-- The bytes of the memory. -/
abbrev Memory := ℕ → UInt8

/-- The memory after `n` bytes have been copied from `s` to `t`, all at once. -/
def copied (mem : Memory) (t s n : ℕ) : Memory := fun x =>
  if t ≤ x ∧ x < t + n then mem (s + (x - t)) else mem x

/-- A loop over bytes with `ldrb` and `strb`. -/
def copyBytes : ℕ → ℕ → ℕ → Memory → Memory
  | 0, _, _, mem => mem
  | n + 1, r0, r1, mem => copyBytes n (r0 + 1) (r1 + 1) (copied mem r0 r1 1)

/-- `copy_left`: the loop ends when the counter of 32 bits is 0. -/
def copyLeft (r2 : ℤ) : ℕ → ℕ → Memory → Memory := copyBytes (r2 % 2 ^ 32).toNat

/-- `copy_bigger_16`. An access of `ldmia` or `stmia` to an address that is not aligned is `none`. -/
def copyBigger16 (r2 : ℤ) (r0 r1 : ℕ) (mem : Memory) : Option Memory :=
  if r2 < 16 then some (copyLeft r2 r0 r1 mem)
  else if r0 % 4 ≠ 0 ∨ r1 % 4 ≠ 0 then none
  else copyBigger16 (r2 - 16) (r0 + 16) (r1 + 16) (copied mem r0 r1 16)
termination_by r2.toNat

/-- `memcpy`: the memory afterwards. -/
def memcpy (target source : ℕ) (size : ℤ) (mem : Memory) : Option Memory :=
  let r3 := target % 4
  if r3 ≠ source % 4 then some (copyLeft size target source mem)
  else copyBigger16 (size - r3) (target + r3) (source + r3) (copyBytes r3 target source mem)

variable {t s n m x : ℕ} {mem : Memory}

theorem copied_copied (hapart : t + (m + n) ≤ s ∨ s + (m + n) ≤ t) :
    copied (copied mem t s m) (t + m) (s + m) n = copied mem t s (m + n) := by
  funext x
  unfold copied
  split_ifs <;> first | omega | (congr 1; omega) | rfl

theorem copyBytes_eq (hapart : t + n ≤ s ∨ s + n ≤ t) :
    copyBytes n t s mem = copied mem t s n := by
  induction n generalizing t s mem with
  | zero => exact funext fun x => (if_neg (by omega)).symm
  | succ n ih => rw [copyBytes, ih (by omega), copied_copied (by omega), Nat.add_comm]

theorem copyLeft_eq (hn : n < 2 ^ 31) (hapart : t + n ≤ s ∨ s + n ≤ t) :
    copyLeft n t s mem = copied mem t s n := by
  have hcount : ((n : ℤ) % 2 ^ 32).toNat = n := by omega
  rw [copyLeft, hcount, copyBytes_eq hapart]

/-- `copy_bigger_16` copies the bytes, from aligned addresses or below 16 bytes. -/
theorem copyBigger16_eq (hn : n < 2 ^ 31) (hapart : t + n ≤ s ∨ s + n ≤ t)
    (hword : n < 16 ∨ t % 4 = 0 ∧ s % 4 = 0) :
    copyBigger16 n t s mem = some (copied mem t s n) := by
  induction n using Nat.strong_induction_on generalizing t s mem with
  | _ n ih =>
    rw [copyBigger16]
    split_ifs
    · rw [copyLeft_eq hn hapart]
    · omega
    · have hcast : (n : ℤ) - 16 = (n - 16 : ℕ) := by omega
      rw [hcast, ih (n - 16) (by omega) (by omega) (by omega) (by omega), copied_copied (by omega),
        Nat.add_sub_cancel' (by omega)]

theorem memcpy_apart (hn : n < 2 ^ 31) (hapart : t + n ≤ s ∨ s + n ≤ t)
    (hoffset : t % 4 ≠ s % 4) : memcpy t s n mem = some (copied mem t s n) := by
  rw [memcpy, if_pos hoffset, copyLeft_eq hn hapart]

theorem memcpy_inside (hn : n < 2 ^ 31) (hapart : t + n ≤ s ∨ s + n ≤ t)
    (hoffset : t % 4 = s % 4) (hle : t % 4 ≤ n) (hword : t % 4 % 2 = 0 ∨ n < t % 4 + 16) :
    memcpy t s n mem = some (copied mem t s n) := by
  have hcast : (n : ℤ) - (t % 4 : ℕ) = (n - t % 4 : ℕ) := by omega
  rw [memcpy, if_neg (not_not.mpr hoffset), hcast, copyBytes_eq (by omega),
    copyBigger16_eq (by omega) (by omega) (by omega), copied_copied (by omega),
    Nat.add_sub_cancel' hle]

/-- Exactly the target becomes a copy of the source, if the offsets differ, or the size is not
below the common offset and the loop over words starts at an aligned address or does not run. -/
theorem memcpy_copies (mem : Memory) (hn : n < 2 ^ 31) (hapart : t + n ≤ s ∨ s + n ≤ t)
    (hgood : t % 4 = s % 4 → t % 4 ≤ n ∧ (t % 4 % 2 = 0 ∨ n < t % 4 + 16)) :
    memcpy t s n mem = some (copied mem t s n) := by
  by_cases hoffset : t % 4 = s % 4
  · exact memcpy_inside hn hapart hoffset (hgood hoffset).1 (hgood hoffset).2
  · exact memcpy_apart hn hapart hoffset

/-- The loop over words runs twice. -/
theorem memcpy_copies_offset :
    memcpy 6 102 40 UInt8.ofNat = some (copied UInt8.ofNat 6 102 40) :=
  memcpy_copies _ (by decide : 40 < 2 ^ 31) (by decide) (by decide)

end Chunos.Memcpy
