import Chunos.String

/-!
# Numbers and formats

`num_to_str` collects the digits of a number in a buffer of 32 bytes, the last one first, and
`vsprintf` puts numbers, strings and characters in the place of the conversions of a format.
The text is the one the format stands for, except that `%o` is printed as `%d`, and that a
percent sign at the end makes the scan pass the end of the format.
-/

namespace Chunos.Format

open List Option

/-- The characters of the digits. -/
def hex (m : ℕ) : UInt8 := (cstr "0123456789abcdef").map Subtype.val |>.getD m 0

/-- The `do` loop of `num_to_str` and the store behind it, with the bytes that are left of
`tmp_buf`: the bytes stored in it. A store behind the buffer is `none`. -/
def numToStrLoop (bdho : ℕ) : ℕ → ℕ → Option (List UInt8)
  | 0, _ => none
  | room + 1, num =>
    let m := num % bdho
    let num := num / bdho
    if num ≥ bdho then (numToStrLoop bdho room num).map (hex m :: ·)
    else if num ≠ 0 then if room = 0 then none else some [hex m, hex num]
    else some [hex m]

/-- `num_to_str`: the bytes that the second loop copies, from the last one to the first, and
the result. -/
def numToStr (num bdho : ℕ) : Option (List UInt8 × ℕ) :=
  (numToStrLoop bdho 32 num).map fun tmp => (tmp.reverse, tmp.length)

/-- `absolute`, with `int` arithmetic: the least `int` is its own absolute value. -/
def absolute (num : ℤ) : ℤ := if num > 0 then num else (-num - 1 + 1).bmod (2 ^ 32)

/-- `itoa` for a buffer that is not `NULL`. The number is passed on as `unsigned int`. -/
def itoa (num : ℤ) : Option (List UInt8 × ℕ) :=
  if num < 0 then
    (numToStr (absolute num % 2 ^ 32).toNat 10).map fun r => (45 :: r.1, r.2 + 1)
  else numToStr (num % 2 ^ 32).toNat 10

/-- The digits of a number, the most significant one first. -/
def digits (base num : ℕ) : List ℕ := if num = 0 then [0] else (Nat.digits base num).reverse

/-- The text of a number. -/
def numeral (base num : ℕ) : List UInt8 := (digits base num).map hex

/-- The text of an `int`. -/
def signedNumeral (num : ℤ) : List UInt8 :=
  (if num < 0 then [45] else []) ++ numeral 10 num.natAbs

theorem digits_of_lt {base num : ℕ} (hnum : num < base) : digits base num = [num] := by
  unfold digits
  split_ifs with hzero
  · rw [hzero]
  · rw [Nat.digits_of_lt base num hzero hnum, reverse_singleton]

theorem digits_of_ge {base num : ℕ} (hbase : 1 < base) (hnum : base ≤ num) :
    digits base num = digits base (num / base) ++ [num % base] := by
  have hdiv : num / base ≠ 0 := (Nat.div_pos hnum (Nat.zero_lt_of_lt hbase)).ne'
  rw [digits, digits, if_neg (by omega), if_neg hdiv, Nat.digits_def' hbase (by omega),
    reverse_cons]

/-- The loop of `num_to_str` stores the digits when there is room for them. -/
theorem numToStrLoop_eq {bdho room num : ℕ} (hbase : 1 < bdho) (hnum : num < bdho ^ (room + 1)) :
    numToStrLoop bdho (room + 1) num = some ((digits bdho num).reverse.map hex) := by
  induction room generalizing num with
  | zero =>
    rw [Nat.zero_add, pow_one] at hnum
    simp [numToStrLoop, Nat.div_eq_of_lt hnum, Nat.mod_eq_of_lt hnum, digits_of_lt hnum,
      Nat.ne_of_gt (Nat.zero_lt_of_lt hbase)]
  | succ room ih =>
    rw [numToStrLoop]
    by_cases hlt : num < bdho
    · simp [Nat.div_eq_of_lt hlt, Nat.mod_eq_of_lt hlt, digits_of_lt hlt,
        Nat.ne_of_gt (Nat.zero_lt_of_lt hbase)]
    · have hle := Nat.le_of_not_lt hlt
      have hpos : num / bdho ≠ 0 := (Nat.div_pos hle (Nat.zero_lt_of_lt hbase)).ne'
      have hdiv := ih (Nat.div_lt_of_lt_mul (by rwa [← Nat.pow_succ']))
      simp only [digits_of_ge hbase hle, hdiv, reverse_append, reverse_singleton,
        singleton_append, map_cons, Option.map_some]
      by_cases hge : num / bdho ≥ bdho
      · rw [if_pos hge]
      · rw [if_neg hge, if_pos hpos, if_neg room.succ_ne_zero, digits_of_lt (Nat.lt_of_not_le hge)]
        rfl

theorem numToStr_eq {num bdho : ℕ} (hbase : 1 < bdho) (hnum : num < 2 ^ 32) :
    numToStr num bdho = some (numeral bdho num, (numeral bdho num).length) := by
  have hfits : num < bdho ^ (31 + 1) := hnum.trans_le (Nat.pow_le_pow_left hbase 32)
  rw [numToStr, numToStrLoop_eq hbase hfits, Option.map_some, ← map_reverse, reverse_reverse,
    length_map, length_reverse, numeral, length_map]

/-- `itoa` writes an `int`, also the least one. -/
theorem itoa_eq {num : ℤ} (hnum : -2 ^ 31 ≤ num ∧ num < 2 ^ 31) :
    itoa num = some (signedNumeral num, (signedNumeral num).length) := by
  unfold itoa signedNumeral
  split_ifs with hneg
  · have habs : (absolute num % 2 ^ 32).toNat = num.natAbs := by
      rw [absolute, if_neg (by omega), Int.bmod_def]
      omega
    rw [habs, numToStr_eq (by decide) (by omega)]
    rfl
  · have hself : (num % 2 ^ 32).toNat = num.natAbs := by omega
    rw [hself, numToStr_eq (by decide) (by omega)]
    rfl

/-- The digits of a number: at least one, all below the base, no leading zero, and their value. -/
theorem digits_spec (num : ℕ) {base : ℕ} (hbase : 1 < base) :
    (∀ d ∈ digits base num, d < base) ∧ digits base num ≠ [] ∧
      ((digits base num).head? = some 0 → num = 0) ∧
      Nat.ofDigits base (digits base num).reverse = num := by
  unfold digits
  split_ifs with hzero
  · simp [hzero, Nat.zero_lt_of_lt hbase]
  · rw [reverse_reverse, head?_reverse]
    refine ⟨fun d hd => Nat.digits_lt_base hbase (mem_reverse.mp hd), ?_, fun hlast => ?_,
      Nat.ofDigits_digits base num⟩
    · simpa [Nat.digits_eq_nil_iff_eq_zero] using hzero
    · have hne : Nat.digits base num ≠ [] := Nat.digits_ne_nil_iff_ne_zero.mpr hzero
      rw [getLast?_eq_getLast_of_ne_nil hne, Option.some_inj] at hlast
      exact absurd hlast (Nat.getLast_digit_ne_zero base hzero)

/-- `num_to_str` writes one to 32 digits of an `unsigned int` and returns their number, and `itoa`
writes an `int` as digits behind an optional minus sign. -/
theorem numbers_written :
    (∀ num < 2 ^ 32, ∀ base ∈ [2, 8, 10, 16], ∃ ds : List ℕ,
      numToStr num base = some (ds.map hex, ds.length) ∧ 1 ≤ ds.length ∧ ds.length ≤ 32 ∧
      (∀ d ∈ ds, d < base) ∧ (ds.head? = some 0 → num = 0) ∧ Nat.ofDigits base ds.reverse = num) ∧
    ∀ n : ℤ, -2 ^ 31 ≤ n ∧ n < 2 ^ 31 → ∃ (sign : List UInt8) (ds : List ℕ),
      itoa n = some (sign ++ ds.map hex, (sign ++ ds.map hex).length) ∧ ds ≠ [] ∧
      (∀ d ∈ ds, d < 10) ∧
      (sign = [] ∧ n = (Nat.ofDigits 10 ds.reverse : ℕ) ∨
        sign = [45] ∧ n = -(Nat.ofDigits 10 ds.reverse : ℕ)) := by
  refine ⟨fun num hnum base hbase => ⟨digits base num, ?_⟩, fun n hn =>
    ⟨if n < 0 then [45] else [], digits 10 n.natAbs, ?_⟩⟩
  · have hone : 1 < base := by
      simp only [mem_cons, not_mem_nil, or_false] at hbase
      omega
    obtain ⟨hlt, hne, hlead, hvalue⟩ := digits_spec num hone
    have hwritten := numToStr_eq hone hnum
    rw [numeral, length_map] at hwritten
    refine ⟨hwritten, length_pos_iff.mpr hne, ?_, hlt, hlead, hvalue⟩
    unfold digits
    split_ifs
    · decide
    · rw [length_reverse, Nat.digits_length_le_iff hone]
      exact hnum.trans_le (Nat.pow_le_pow_left hone 32)
  · obtain ⟨hlt, hne, -, hvalue⟩ := digits_spec n.natAbs (by decide : 1 < 10)
    rw [hvalue]
    refine ⟨itoa_eq hn, hne, hlt, ?_⟩
    split_ifs with hneg
    · exact .inr ⟨rfl, by omega⟩
    · exact .inl ⟨rfl, by omega⟩

/-- The bits of the flag word of `vsprintf`. -/
def printfDec : ℕ := 0x01
def printfHex : ℕ := 0x02
def printfOct : ℕ := 0x04
def printfBin : ℕ := 0x08
def printfMask : ℕ := 0x0f
def printfUnsigned : ℕ := 0x10
def printfSigned : ℕ := 0x20

/-- `numbric`: the bytes of a number and how many they are. -/
def numbric (num : BitVec 32) (flag : ℕ) : Option (List UInt8 × ℕ) :=
  let base := flag &&& printfMask
  if base = printfDec then
    if flag &&& printfSigned ≠ 0 then itoa num.toInt else numToStr num.toNat 10
  else if base = printfHex then numToStr num.toNat 16
  else if base = printfOct then numToStr num.toNat 8
  else if base = printfBin then numToStr num.toNat 2
  else some ([], 0)

/-- An argument of a format: a word, which holds an `int`, an `unsigned int` or a `char`, or a
string. -/
inductive Arg where
  | word (w : BitVec 32)
  | str (s : CString)

/-- The next argument as a number. Both branches of the test for `PRINTF_UNSIGNED` take a word
and pass it on, and the flags are cleared. -/
def number (flag : ℕ) : List Arg → Option (List UInt8 × List Arg × ℕ)
  | .word w :: arg => (numbric w flag).map fun r => (r.1.take r.2, arg, 0)
  | _ => none

/-- The `switch` of `vsprintf` on the character behind a percent sign, and the number behind it:
the bytes written, the arguments that are left and the flags. An argument of the wrong kind is
`none`. -/
def convert (c : UInt8) (arg : List Arg) (flag : ℕ) : Option (List UInt8 × List Arg × ℕ) :=
  if c = 100 then number (flag ||| (printfDec ||| printfSigned)) arg
  else if c = 120 then number (flag ||| (printfHex ||| printfUnsigned)) arg
  else if c = 117 then number (flag ||| (printfDec ||| printfUnsigned)) arg
  else if c = 115 then
    match arg with
    | .str tmp :: arg => some ((tmp.map Subtype.val).take (strlen tmp), arg, flag)
    | _ => none
  else if c = 99 then
    match arg with
    | .word w :: arg => some ([UInt8.ofNat w.toNat], arg, flag)
    | _ => none
  else if c = 111 then number (flag ||| (printfDec ||| printfSigned)) arg
  else if c = 37 then some ([37], arg, flag)
  else some ([37, c], arg, flag)

/-- The loop of `vsprintf`: the bytes written. Behind a percent sign at the end the default branch
writes the terminating zero, and `fmt++` passes it: this is `none`. -/
def vsprintfLoop : CString → List Arg → ℕ → Option (List UInt8)
  | [], _, _ => some []
  | [c], _, _ => if c.1 ≠ 37 then some [c.1] else none
  | c :: d :: fmt, arg, flag =>
    if c.1 ≠ 37 then (vsprintfLoop (d :: fmt) arg flag).map (c.1 :: ·)
    else (convert d.1 arg flag).bind fun r => (vsprintfLoop fmt r.2.1 r.2.2).map (r.1 ++ ·)

/-- `vsprintf`: the bytes written, with the terminating zero, and the result. -/
def vsprintf (fmt : CString) (arg : List Arg) : Option (List UInt8 × ℕ) :=
  (vsprintfLoop fmt arg 0).map fun out => (out ++ [0], out.length)

/-- The text of the next argument, which is a word. -/
def wordText (text : BitVec 32 → List UInt8) : List Arg → Option (List UInt8 × List Arg)
  | .word w :: arg => some (text w, arg)
  | _ => none

/-- A conversion as it should be: the text, and the arguments that are left. -/
def rendering (c : UInt8) (arg : List Arg) : Option (List UInt8 × List Arg) :=
  if c = 100 then wordText (fun w => signedNumeral w.toInt) arg
  else if c = 120 then wordText (fun w => numeral 16 w.toNat) arg
  else if c = 117 then wordText (fun w => numeral 10 w.toNat) arg
  else if c = 115 then
    match arg with
    | .str s :: arg => some (s.map Subtype.val, arg)
    | _ => none
  else if c = 99 then wordText (fun w => [UInt8.ofNat w.toNat]) arg
  else if c = 111 then wordText (fun w => numeral 8 w.toNat) arg
  else if c = 37 then some ([37], arg)
  else some ([37, c], arg)

/-- The text that a format stands for, if the arguments match it. -/
def formatted : CString → List Arg → Option (List UInt8)
  | [], _ => some []
  | [c], _ => some [c.1]
  | c :: d :: fmt, arg =>
    if c.1 ≠ 37 then (formatted (d :: fmt) arg).map (c.1 :: ·)
    else (rendering d.1 arg).bind fun r => (formatted fmt r.2).map (r.1 ++ ·)

/-- No conversion of the format is `%o`, and no percent sign is at its end. -/
def usual : CString → Bool
  | [] => true
  | [c] => c.1 ≠ 37
  | c :: d :: fmt => if c.1 ≠ 37 then usual (d :: fmt) else d.1 ≠ 111 && usual fmt

theorem number_eq {flag : ℕ} {text : BitVec 32 → List UInt8}
    (hnumber : ∀ w, numbric w flag = some (text w, (text w).length)) (arg : List Arg) :
    number flag arg = (wordText text arg).map fun r => (r.1, r.2, 0) := by
  rcases arg with _ | ⟨w | s, arg⟩
  · rfl
  · simp [number, wordText, hnumber]
  · rfl

/-- Every conversion but `%o` is made as it should be, and leaves the flags clear. -/
theorem convert_eq {c : UInt8} (hc : c ≠ 111) (arg : List Arg) :
    convert c arg 0 = (rendering c arg).map fun r => (r.1, r.2, 0) := by
  simp only [convert, rendering, if_neg hc]
  split_ifs
  · refine number_eq (fun w => ?_) arg
    exact itoa_eq ⟨BitVec.le_toInt w, BitVec.toInt_lt⟩
  · refine number_eq (fun w => ?_) arg
    exact numToStr_eq (by decide) w.isLt
  · refine number_eq (fun w => ?_) arg
    exact numToStr_eq (by decide) w.isLt
  · rcases arg with _ | ⟨w | s, arg⟩ <;> simp [strlen]
  · rcases arg with _ | ⟨w | s, arg⟩ <;> rfl
  · rfl
  · rfl

theorem exists_rendering (c : UInt8) : ∃ first text, ∀ arg,
    rendering c (first ++ arg) = some (text, arg) := by
  by_cases hstr : c = 115
  · exact ⟨[.str []], [], fun arg => by simp [rendering, hstr]⟩
  · by_cases hword : c ∈ [100, 120, 117, 99, 111]
    · fin_cases hword
      all_goals exact ⟨[.word 0], _, fun arg => rfl⟩
    · simp only [mem_cons, not_mem_nil, or_false, not_or] at hword
      refine ⟨[], if c = 37 then [37] else [37, c], fun arg => ?_⟩
      simp only [rendering, hword, hstr, if_false, nil_append]
      split_ifs <;> rfl

theorem exists_formatted (fmt : CString) : ∃ arg text, formatted fmt arg = some text := by
  fun_induction usual fmt with
  | case1 => exact ⟨[], [], rfl⟩
  | case2 c => exact ⟨[], [c.1], rfl⟩
  | case3 c d fmt hc ih =>
    obtain ⟨arg, text, htext⟩ := ih
    exact ⟨arg, c.1 :: text, by simp [formatted, hc, htext]⟩
  | case4 c d fmt hc ih =>
    obtain ⟨arg, text, htext⟩ := ih
    obtain ⟨first, out, hout⟩ := exists_rendering d.1
    exact ⟨first ++ arg, out ++ text, by simp [formatted, hc, hout, htext]⟩

/-- Without `%o` and a percent sign at the end, the loop writes the text of the format. -/
theorem vsprintfLoop_eq {fmt : CString} (husual : usual fmt) {arg : List Arg} {text : List UInt8}
    (htext : formatted fmt arg = some text) : vsprintfLoop fmt arg 0 = some text := by
  fun_induction usual fmt generalizing arg text with
  | case1 => exact htext
  | case2 c => rwa [vsprintfLoop, if_pos (of_decide_eq_true husual)]
  | case3 c d fmt hc ih =>
    simp only [formatted, if_pos hc, Option.map_eq_some_iff] at htext
    obtain ⟨rest, hrest, rfl⟩ := htext
    simp [vsprintfLoop, hc, ih husual hrest]
  | case4 c d fmt hc ih =>
    rw [Bool.and_eq_true, decide_eq_true_iff] at husual
    simp only [formatted, if_neg hc, Option.bind_eq_some_iff, Option.map_eq_some_iff] at htext
    obtain ⟨r, hr, rest, hrest, rfl⟩ := htext
    simp [vsprintfLoop, hc, convert_eq husual.1, hr, ih husual.2 hrest]

/-- With `%o` or a percent sign at the end, there are arguments for which it does not. -/
theorem exists_vsprintfLoop_ne {fmt : CString} (husual : usual fmt = false) :
    ∃ arg text, formatted fmt arg = some text ∧ vsprintfLoop fmt arg 0 ≠ some text := by
  fun_induction usual fmt with
  | case1 => simp at husual
  | case2 c => exact ⟨[], [c.1], rfl, by simp_all [vsprintfLoop]⟩
  | case3 c d fmt hc ih =>
    obtain ⟨arg, text, htext, hne⟩ := ih husual
    refine ⟨arg, c.1 :: text, by simp [formatted, hc, htext], ?_⟩
    simpa [vsprintfLoop, hc] using hne
  | case4 c d fmt hc ih =>
    by_cases hd : d.1 = 111
    · obtain ⟨arg, text, htext⟩ := exists_formatted fmt
      have hright : rendering 111 (.word 8#32 :: arg) = some ([49, 48], arg) := rfl
      have hwrong : convert 111 (.word 8#32 :: arg) 0 = some ([56], arg, 0) := rfl
      refine ⟨.word 8#32 :: arg, [49, 48] ++ text, ?_, ?_⟩
      · simp [formatted, hc, hd, hright, htext]
      · simp [vsprintfLoop, hc, hd, hwrong]
    · obtain ⟨arg, text, htext, hne⟩ := ih (by simpa [hd] using husual)
      obtain ⟨first, out, hout⟩ := exists_rendering d.1
      refine ⟨first ++ arg, out ++ text, by simp [formatted, hc, hout, htext], ?_⟩
      simpa [vsprintfLoop, hc, convert_eq hd, hout] using hne

/-- `vsprintf` writes the text of the format for all arguments that match it, ends it by a zero
byte and returns its length, exactly for the formats without `%o` and without a percent sign
at the end. -/
theorem vsprintf_formatted_iff (fmt : CString) :
    (∀ arg text, formatted fmt arg = some text →
      vsprintf fmt arg = some (text ++ [0], text.length)) ↔ usual fmt := by
  constructor
  · intro hall
    by_contra husual
    obtain ⟨arg, text, htext, hne⟩ := exists_vsprintfLoop_ne (Bool.eq_false_iff.mpr husual)
    have hout := hall arg text htext
    simp only [vsprintf, Option.map_eq_some_iff, Prod.mk.injEq, append_cancel_right_eq] at hout
    obtain ⟨out, hloop, rfl, -⟩ := hout
    exact hne hloop
  · intro husual arg text htext
    rw [vsprintf, vsprintfLoop_eq husual htext, Option.map_some]

/-- Eight is printed as 8 and not as 10, and a percent sign at the end is passed. -/
theorem vsprintf_octal_decimal : vsprintf (cstr "%o") [.word 8] = some ([56, 0], 1) ∧
    formatted (cstr "%o") [.word 8] = some [49, 48] ∧ vsprintf (cstr "%") [] = none := by
  decide

end Chunos.Format
