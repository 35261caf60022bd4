import Chunos.Basic

/-!
# The strings of the kernel

A C string is the list of the bytes in front of its terminating zero byte. None of them
is zero, so a character is a byte that is not zero, and a pointer into a string is what
remains of the list. The comparisons follow `kernel/string.c`.
-/

namespace Chunos

open List

/-- A character of a string: a byte that does not end it. -/
abbrev CChar := { c : UInt8 // c ≠ 0 }

/-- The characters of a string up to its terminating zero byte. -/
abbrev CString := List CChar

/-- The string of a literal of the source. -/
def cstr (s : String) : CString :=
  s.toList.filterMap fun c => if h : c.toNat.toUInt8 ≠ 0 then some ⟨c.toNat.toUInt8, h⟩ else none

/-- The character that separates the components of a path. -/
def slash : CChar := ⟨47, by decide⟩

/-- The byte at a pointer into a string. At the end of the string it is zero. -/
def byteAt : CString → UInt8
  | [] => 0
  | c :: _ => c.1

/-- `strlen`. -/
def strlen (s : CString) : ℕ := s.length

/-- The loop of `strncmp`: the difference of the first bytes that differ among `n`. -/
def strncmpLoop : CString → CString → ℕ → ℤ
  | _, _, 0 => 0
  | src, dst, n + 1 =>
    let ret : ℤ := (byteAt src).toNat - (byteAt dst).toNat
    if ret = 0 then strncmpLoop src.tail dst.tail n else ret

/-- `strncmp`: compare the first `n` bytes of two strings. -/
def strncmp (src dst : CString) (n : ℕ) : ℤ := (strncmpLoop src dst n).sign

/-- The loop of `strcmp`: it stops at the first difference or at the end of `dst`. -/
def strcmpLoop : CString → CString → ℤ
  | src, [] => (byteAt src).toNat
  | src, d :: dst =>
    let ret : ℤ := (byteAt src).toNat - d.1.toNat
    if ret = 0 then strcmpLoop src.tail dst else ret

/-- `strcmp`: compare two strings. -/
def strcmp (src dst : CString) : ℤ := (strcmpLoop src dst).sign

/-- `strchr`: the pointer to the first place of a character in a string. -/
def strchr : CString → CChar → Option CString
  | [], _ => none
  | c :: src, ch => if c = ch then some (c :: src) else strchr src ch

theorem byte_sub_eq_zero_iff (a b : UInt8) : (a.toNat : ℤ) - b.toNat = 0 ↔ a = b := by
  rw [Int.sub_eq_zero, Nat.cast_inj, UInt8.toNat_inj]

@[simp]
theorem CChar.toNat_ne_zero (c : CChar) : c.1.toNat ≠ 0 :=
  fun h => c.2 (UInt8.toNat_inj.mp h)

/-- A comparison with all characters of `src` succeeds when `src` is the beginning of
`dst`. -/
theorem strncmp_strlen_eq_zero_iff (src dst : CString) :
    strncmp src dst (strlen src) = 0 ↔ src <+: dst := by
  unfold strncmp strlen
  rw [Int.sign_eq_zero_iff_zero]
  induction src generalizing dst with
  | nil => simp [strncmpLoop]
  | cons c src ih =>
    simp only [length_cons, strncmpLoop, byte_sub_eq_zero_iff, byteAt]
    cases dst with
    | nil => simp [c.2]
    | cons d dst =>
      by_cases hcd : c.1 = d.1
      · have hsame : c = d := Subtype.ext hcd
        simp only [hsame, if_true, tail_cons, ih, cons_prefix_cons, true_and]
      · have hdiff : c ≠ d := fun h => hcd (congrArg Subtype.val h)
        simp only [hcd, if_false, byte_sub_eq_zero_iff, cons_prefix_cons, hdiff, false_and]

theorem strcmp_eq_zero_iff (src dst : CString) : strcmp src dst = 0 ↔ src = dst := by
  unfold strcmp
  rw [Int.sign_eq_zero_iff_zero]
  induction dst generalizing src with
  | nil =>
    cases src with
    | nil => simp [strcmpLoop, byteAt]
    | cons c src => simp [strcmpLoop, byteAt]
  | cons d dst ih =>
    simp only [strcmpLoop, byte_sub_eq_zero_iff]
    cases src with
    | nil => simp [byteAt, d.2.symm]
    | cons c src =>
      by_cases hcd : c.1 = d.1
      · have hsame : c = d := Subtype.ext hcd
        simp only [hsame, byteAt, if_true, tail_cons, ih, cons.injEq, true_and]
      · have hdiff : c ≠ d := fun h => hcd (congrArg Subtype.val h)
        simp only [byteAt, hcd, if_false, byte_sub_eq_zero_iff, cons.injEq, hdiff, false_and]

theorem strchr_eq_none {s : CString} {ch : CChar} (h : ch ∉ s) : strchr s ch = none := by
  induction s with
  | nil => rfl
  | cons c s ih =>
    obtain ⟨hne, hrest⟩ := not_or.mp (mt mem_cons.mpr h)
    rw [strchr, if_neg (Ne.symm hne), ih hrest]

theorem strchr_append_cons {s : CString} {ch : CChar} (h : ch ∉ s) (rest : CString) :
    strchr (s ++ ch :: rest) ch = some (ch :: rest) := by
  induction s with
  | nil => simp [strchr]
  | cons c s ih =>
    obtain ⟨hne, hrest⟩ := not_or.mp (mt mem_cons.mpr h)
    rw [cons_append, strchr, if_neg (Ne.symm hne), ih hrest]

end Chunos
