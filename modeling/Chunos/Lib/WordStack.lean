import Mathlib

/-!
# Stacks of words in memory

A stack that grows downwards in a memory of 32-bit words. A stack pointer sees a list when
the words of the list are at the addresses from the pointer upwards, four bytes apart. What
is pushed can be seen on top of what was seen before.
-/

namespace Chunos.WordStack

open List

/-- The memory by the address of each word. -/
abbrev Memory := BitVec 32 → BitVec 32

variable {mem : Memory} {sp w : BitVec 32} {ws : List (BitVec 32)}

/-- Store one word. -/
def store (mem : Memory) (addr w : BitVec 32) : Memory := Function.update mem addr w

/-- The words from the stack pointer upwards are those of the list. -/
def Sees (mem : Memory) : BitVec 32 → List (BitVec 32) → Prop
  | _, [] => True
  | sp, w :: ws => mem sp = w ∧ Sees mem (sp + 4) ws

/-- Push words, the first one first. Gives the memory and the stack pointer. -/
def pushAll : List (BitVec 32) → Memory × BitVec 32 → Memory × BitVec 32
  | [], s => s
  | w :: ws, (mem, sp) => pushAll ws (store mem (sp - 4) w, sp - 4)

/-- A word stored away from the list leaves it there. -/
theorem Sees.store (h : Sees mem sp ws) {addr : BitVec 32}
    (haway : ∀ i < ws.length, addr ≠ sp + BitVec.ofNat 32 (4 * i)) :
    Sees (store mem addr w) sp ws := by
  induction ws generalizing sp with
  | nil => trivial
  | cons v ws ih =>
    refine ⟨?_, ih h.2 fun i hi => ?_⟩
    · have hne := haway 0 (Nat.zero_lt_succ _)
      rw [WordStack.store, Function.update_of_ne, h.1]
      simpa [eq_comm] using hne
    · have hne := haway (i + 1) (Nat.succ_lt_succ hi)
      intro heq
      apply hne
      rw [heq]
      bv_omega

/-- A push puts the word on top, while the stack does not fill the whole memory. -/
theorem Sees.push (h : Sees mem sp ws) (hlen : ws.length < 2 ^ 30 - 1) :
    Sees (WordStack.store mem (sp - 4) w) (sp - 4) (w :: ws) := by
  refine ⟨Function.update_self _ _ _, ?_⟩
  rw [BitVec.sub_add_cancel]
  apply h.store
  intro i hi heq
  have hzero : BitVec.ofNat 32 (4 * i + 4) = 0 := by
    bv_omega
  rw [← BitVec.toNat_inj, BitVec.toNat_ofNat] at hzero
  simp at hzero
  omega

/-- The words pushed are on top of the stack, the last one first. -/
theorem Sees.pushAll (h : Sees mem sp ws) (vs : List (BitVec 32))
    (hlen : vs.length + ws.length < 2 ^ 30) :
    Sees (WordStack.pushAll vs (mem, sp)).1 (WordStack.pushAll vs (mem, sp)).2
      (vs.reverse ++ ws) := by
  induction vs generalizing mem sp ws with
  | nil => exact h
  | cons v vs ih =>
    rw [length_cons] at hlen
    have hnext := ih (h.push (w := v) (by omega)) (by simp only [length_cons]; omega)
    rw [reverse_cons, append_assoc]
    exact hnext

end Chunos.WordStack
