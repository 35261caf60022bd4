import Mathlib

/-!
# Traces of writes to a memory

What a program stores is a list of writes, each of some bytes from an address on, and the
memory afterwards is the memory before with the writes applied in order. An address that no
write touches keeps its byte. An address for which all writes that touch it agree has the byte
on which they agree.
-/

namespace Chunos.Writes

open List

/-- Bytes stored from an address on. -/
structure Write where
  addr : ℕ
  bytes : List UInt8
deriving DecidableEq

/-- The write stores a byte at the address. -/
def Write.Touches (w : Write) (a : ℕ) : Prop := w.addr ≤ a ∧ a < w.addr + w.bytes.length

instance (w : Write) (a : ℕ) : Decidable (w.Touches a) := inferInstanceAs (Decidable (_ ∧ _))

/-- The memory after one write. -/
def Write.apply (mem : ℕ → UInt8) (w : Write) : ℕ → UInt8 := fun a =>
  if w.Touches a then w.bytes.getD (a - w.addr) 0 else mem a

/-- The memory after writes in order. -/
def applyAll (mem : ℕ → UInt8) (ws : List Write) : ℕ → UInt8 := ws.foldl Write.apply mem

variable {ws : List Write} {a : ℕ}

/-- An address that no write touches keeps its byte. -/
theorem applyAll_of_untouched (mem : ℕ → UInt8) (h : ∀ w ∈ ws, ¬ w.Touches a) :
    applyAll mem ws a = mem a := by
  induction ws generalizing mem with
  | nil => rfl
  | cons w ws ih =>
    have hrest := ih (w.apply mem) fun v hv => h v (mem_cons_of_mem w hv)
    exact hrest.trans (if_neg (h w mem_cons_self))

/-- An address has the byte on which all writes that touch it agree. -/
theorem applyAll_of_agree (mem : ℕ → UInt8) {b : UInt8} (hsome : ∃ w ∈ ws, w.Touches a)
    (hagree : ∀ w ∈ ws, w.Touches a → w.bytes.getD (a - w.addr) 0 = b) : applyAll mem ws a = b := by
  induction ws generalizing mem with
  | nil => exact absurd hsome (by simp)
  | cons w ws ih =>
    have hlater : ∀ v ∈ ws, v.Touches a → v.bytes.getD (a - v.addr) 0 = b := fun v hv =>
      hagree v (mem_cons_of_mem w hv)
    by_cases hrest : ∃ v ∈ ws, v.Touches a
    · exact ih _ hrest hlater
    · push Not at hrest
      have hhead : w.Touches a := by
        obtain ⟨v, hv, htouch⟩ := hsome
        rcases mem_cons.mp hv with rfl | hv
        · exact htouch
        · exact absurd htouch (hrest v hv)
      have hkept : applyAll (w.apply mem) ws a = w.apply mem a :=
        applyAll_of_untouched _ hrest
      exact hkept.trans ((if_pos hhead).trans (hagree w mem_cons_self hhead))

end Chunos.Writes
