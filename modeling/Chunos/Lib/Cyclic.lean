import Mathlib

/-!
# Cyclic buffers

A buffer of `N` cells records a log when each of the last `N` elements of the log is in the
cell of its position modulo `N`. Appending to the log writes the cells that come next. What
the log ends with can then be read from the buffer, cell after cell.
-/

namespace Chunos.Cyclic

open List

variable {α : Type*} {N : ℕ} {buf buf' : ℕ → α} {log msg : List α}

/-- Copy a list into a buffer from a cell on. -/
def copyAt (buf : ℕ → α) (pos : ℕ) (l : List α) : ℕ → α := fun i =>
  if pos ≤ i then l.getD (i - pos) (buf i) else buf i

/-- A cell that is written holds the element of the list. -/
theorem copyAt_of_lt (buf : ℕ → α) (pos : ℕ) {l : List α} {j : ℕ} (hj : j < l.length) :
    copyAt buf pos l (pos + j) = l[j] := by
  rw [copyAt, if_pos (Nat.le_add_right _ _), Nat.add_sub_cancel_left, getD_eq_getElem _ _ hj]

/-- The other cells are as before. -/
theorem copyAt_of_outside (buf : ℕ → α) {pos i : ℕ} {l : List α}
    (hi : i < pos ∨ pos + l.length ≤ i) : copyAt buf pos l i = buf i := by
  unfold copyAt
  split_ifs with hle
  · rw [getD_eq_default _ _ (by omega)]
  · rfl

/-- The last `N` elements of the log are in the cells of their positions. -/
def Records (N : ℕ) (buf : ℕ → α) (log : List α) : Prop :=
  ∀ k, ∀ hk : k < log.length, log.length ≤ k + N → buf (k % N) = log[k]

/-- The elements in `count` cells, from cell `head` on. -/
def window (N : ℕ) (buf : ℕ → α) (head count : ℕ) : List α :=
  (List.range count).map fun i => buf ((head + i) % N)

/-- Every buffer records the empty log. -/
theorem records_nil (N : ℕ) (buf : ℕ → α) : Records N buf [] := fun _ hk => absurd hk nofun

/-- Only the cell of `head` matters. -/
theorem window_mod (N : ℕ) (buf : ℕ → α) (head count : ℕ) :
    window N buf (head % N) count = window N buf head count := by
  simp only [window, Nat.mod_add_mod]

/-- A list is appended by writing the cells that come next. -/
theorem Records.append (h : Records N buf log)
    (hnew : ∀ j, ∀ hj : j < msg.length, buf' ((log.length + j) % N) = msg[j])
    (hold : ∀ i < N, (∀ j < msg.length, i ≠ (log.length + j) % N) → buf' i = buf i) :
    Records N buf' (log ++ msg) := by
  intro k hk hrecent
  rw [length_append] at hk hrecent
  by_cases hlog : k < log.length
  · -- The cells that are written belong to positions less than `N` behind `k`.
    have hN : 0 < N := by omega
    have hother : ∀ j < msg.length, k % N ≠ (log.length + j) % N := by
      intro j hj heq
      have hdvd : N ∣ log.length + j - k := (Nat.modEq_iff_dvd' (by omega)).mp heq
      have hle := Nat.le_of_dvd (by omega) hdvd
      omega
    rw [hold _ (Nat.mod_lt k hN) hother, getElem_append_left hlog]
    exact h k hlog (by omega)
  · obtain ⟨j, rfl⟩ : ∃ j, k = log.length + j := ⟨k - log.length, by omega⟩
    have hj : j < msg.length := by omega
    rw [hnew j hj, getElem_append_right (by omega)]
    simp only [Nat.add_sub_cancel_left]

/-- The cell of a later position, as long as the end of the buffer is not reached. -/
theorem mod_add_of_lt {L j : ℕ} (h : L % N + j < N) : (L + j) % N = L % N + j := by
  rw [← Nat.mod_add_mod, Nat.mod_eq_of_lt h]

/-- The cell of a later position behind the end of the buffer. -/
theorem mod_add_of_le {L j : ℕ} (h : N ≤ L % N + j) (hj : j < N) : (L + j) % N = L % N + j - N := by
  have hlt : L % N < N := Nat.mod_lt _ (by omega)
  rw [← Nat.mod_add_mod, Nat.mod_eq_sub_mod h, Nat.mod_eq_of_lt (by omega)]

/-- A list that fits in front of the end of the buffer is appended in one piece. -/
theorem Records.append_inside (h : Records N buf log) (hend : log.length % N + msg.length ≤ N) :
    Records N (copyAt buf (log.length % N) msg) (log ++ msg) := by
  apply h.append
  · intro j hj
    rw [mod_add_of_lt (by omega), copyAt_of_lt _ _ hj]
  · intro i hi hother
    apply copyAt_of_outside
    by_contra! hin
    refine hother (i - log.length % N) (by omega) ?_
    rw [mod_add_of_lt (by omega)]
    omega

/-- A list that passes the end of the buffer is appended in two pieces. -/
theorem Records.append_across (h : Records N buf log) (hlen : msg.length < N)
    (hend : N ≤ log.length % N + msg.length) :
    Records N (copyAt (copyAt buf (log.length % N) (msg.take (N - log.length % N))) 0
      (msg.drop (N - log.length % N))) (log ++ msg) := by
  have hmod := Nat.mod_lt log.length (Nat.zero_lt_of_lt hlen)
  apply h.append
  · intro j hj
    by_cases hfirst : log.length % N + j < N
    · rw [mod_add_of_lt hfirst, copyAt_of_outside, copyAt_of_lt, getElem_take]
      · rw [length_take]
        omega
      · -- The second piece does not reach the first one.
        rw [length_drop]
        omega
    · rw [mod_add_of_le (by omega) (by omega),
        show log.length % N + j - N = 0 + (j - (N - log.length % N)) by omega, copyAt_of_lt]
      · rw [getElem_drop]
        congr 1
        omega
      · rw [length_drop]
        omega
  · intro i hi hother
    have hlow : log.length % N + msg.length - N ≤ i := by
      by_contra! hin
      refine hother (i + N - log.length % N) (by omega) ?_
      rw [mod_add_of_le (by omega) (by omega)]
      omega
    have hhigh : i < log.length % N := by
      by_contra! hin
      refine hother (i - log.length % N) (by omega) ?_
      rw [mod_add_of_lt (by omega)]
      omega
    rw [copyAt_of_outside, copyAt_of_outside]
    · exact Or.inl hhigh
    · rw [length_drop]
      omega

/-- The buffer shows what the log ends with. -/
theorem Records.window_eq (h : Records N buf log) :
    window N buf (log.length - min log.length N) (min log.length N) =
      log.drop (log.length - min log.length N) := by
  apply ext_getElem
  · simp only [window, length_map, length_range, length_drop]
    omega
  · intro i hi hi'
    rw [length_drop] at hi'
    simp only [window, getElem_map, getElem_range, getElem_drop]
    exact h _ (by omega) (by omega)

end Chunos.Cyclic
