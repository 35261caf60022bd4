import Mathlib

/-!
# Spans of addresses and how often they cover an address

A span is a first address and a length. Counting, for each address, how many spans of a
list contain it turns statements about tilings into equations between numbers: two lists
cover the same addresses without overlap when their counts agree and are at most one.
The lemmas here cut spans, add them and move them between lists.
-/

namespace Chunos.Cover

open Function List

/-- A span contains an address. -/
def Holds (p : ℕ × ℕ) (x : ℕ) : Prop := p.1 ≤ x ∧ x < p.1 + p.2

instance (p : ℕ × ℕ) (x : ℕ) : Decidable (Holds p x) := inferInstanceAs (Decidable (_ ∧ _))

/-- How many spans of the list contain the address. -/
def count (l : List (ℕ × ℕ)) (x : ℕ) : ℕ := l.countP (fun p => decide (Holds p x))

/-- No address is in both spans. -/
def Apart (p q : ℕ × ℕ) : Prop := p.1 + p.2 ≤ q.1 ∨ q.1 + q.2 ≤ p.1

instance (p q : ℕ × ℕ) : Decidable (Apart p q) := inferInstanceAs (Decidable (_ ∨ _))

@[simp] theorem count_nil (x : ℕ) : count [] x = 0 := rfl

/-- A span at the front counts for the addresses it contains. -/
theorem count_cons (p : ℕ × ℕ) (l : List (ℕ × ℕ)) (x : ℕ) :
    count (p :: l) x = count l x + if Holds p x then 1 else 0 := by
  simp [count, countP_cons]

@[simp] theorem count_append (l l' : List (ℕ × ℕ)) (x : ℕ) :
    count (l ++ l') x = count l x + count l' x := by
  simp [count]

/-- The order of the spans does not matter. -/
theorem count_perm {l l' : List (ℕ × ℕ)} (h : l.Perm l') (x : ℕ) : count l x = count l' x :=
  h.countP_eq _

/-- A span without addresses does not count. -/
theorem count_empty (a : ℕ) (l : List (ℕ × ℕ)) (x : ℕ) : count ((a, 0) :: l) x = count l x := by
  have hout : ¬ Holds (a, 0) x := by
    rintro ⟨hle, hlt⟩
    simp only at hle hlt
    omega
  rw [count_cons, if_neg hout, Nat.add_zero]

/-- Cutting a span in two changes no count. -/
theorem count_cut (a m k : ℕ) (l : List (ℕ × ℕ)) (x : ℕ) :
    count ((a, m + k) :: l) x = count ((a, m) :: (a + m, k) :: l) x := by
  have hcut : Holds (a, m + k) x ↔ Holds (a, m) x ∨ Holds (a + m, k) x := by
    simp only [Holds]
    omega
  have hapart : Holds (a, m) x → ¬ Holds (a + m, k) x := by
    simp only [Holds]
    omega
  rw [count_cons, count_cons, count_cons]
  by_cases hleft : Holds (a, m) x
  · rw [if_pos (hcut.mpr (Or.inl hleft)), if_pos hleft, if_neg (hapart hleft)]
  · by_cases hright : Holds (a + m, k) x
    · rw [if_pos (hcut.mpr (Or.inr hright)), if_neg hleft, if_pos hright]
    · rw [if_neg (fun h => (hcut.mp h).elim hleft hright), if_neg hleft, if_neg hright]

/-- An address in one of the spans is counted. -/
theorem count_pos {l : List (ℕ × ℕ)} {p : ℕ × ℕ} {x : ℕ} (hp : p ∈ l) (hx : Holds p x) :
    0 < count l x :=
  countP_pos_iff.mpr ⟨p, hp, decide_eq_true hx⟩

/-- A counted address is in one of the spans. -/
theorem exists_of_count_pos {l : List (ℕ × ℕ)} {x : ℕ} (h : 0 < count l x) :
    ∃ p ∈ l, Holds p x := by
  obtain ⟨p, hp, hx⟩ := countP_pos_iff.mp h
  exact ⟨p, hp, of_decide_eq_true hx⟩

/-- Spans that are apart share no address. -/
theorem Apart.not_holds {p q : ℕ × ℕ} (h : Apart p q) {x : ℕ} (hp : Holds p x) : ¬ Holds q x := by
  unfold Apart at h
  unfold Holds at *
  omega

/-- When nothing is counted twice, distinct positions of a list share nothing. -/
theorem pairwise_of_countP_le_one {α β : Type*} {P : α → β → Prop} [∀ x, DecidablePred (P · x)]
    {l : List α} (h : ∀ x, l.countP (fun p => decide (P p x)) ≤ 1) :
    l.Pairwise fun p q => ∀ x, ¬ (P p x ∧ P q x) := by
  induction l with
  | nil => exact List.Pairwise.nil
  | cons p l ih =>
    simp only [countP_cons, decide_eq_true_eq] at h
    refine List.Pairwise.cons ?_ (ih fun x => (Nat.le_add_right _ _).trans (h x))
    rintro q hq x ⟨hpx, hqx⟩
    have hx := h x
    have hpos : 0 < l.countP (fun p => decide (P p x)) :=
      countP_pos_iff.mpr ⟨q, hq, decide_eq_true hqx⟩
    rw [if_pos hpx] at hx
    omega

/-- A span apart from all spans of the list can be added without counting an address
twice. -/
theorem count_cons_le_one {p : ℕ × ℕ} {l : List (ℕ × ℕ)} (h : ∀ x, count l x ≤ 1)
    (hp : ∀ q ∈ l, Apart p q) (x : ℕ) : count (p :: l) x ≤ 1 := by
  rw [count_cons]
  split_ifs with hx
  · have hzero : count l x = 0 := by
      by_contra hne
      obtain ⟨q, hq, hqx⟩ := exists_of_count_pos (Nat.pos_of_ne_zero hne)
      exact (hp q hq).not_holds hx hqx
    omega
  · exact h x

section Families

variable {ι α : Type*} [DecidableEq ι]

/-- A family of lists over a list of distinct indices is the list of one index and the
lists of the others. -/
theorem flatMap_update_perm {l : List ι} (hl : l.Nodup) {i : ι} (hi : i ∈ l) (f : ι → List α)
    (t : List α) : (l.flatMap (update f i t)).Perm (t ++ (l.erase i).flatMap f) := by
  have hperm : (l.flatMap (update f i t)).Perm
      ((i :: l.erase i).flatMap (update f i t)) :=
    (perm_cons_erase hi).flatMap_right _
  have hrest : (l.erase i).flatMap (update f i t) = (l.erase i).flatMap f := by
    apply flatMap_congr
    intro j hj
    have hne : j ≠ i := fun h => (hl.mem_erase_iff.mp hj).1 h
    exact update_of_ne hne t f
  rw [flatMap_cons, update_self, hrest] at hperm
  exact hperm

/-- The same for the family itself. -/
theorem flatMap_perm {l : List ι} {i : ι} (hi : i ∈ l) (f : ι → List α) :
    (l.flatMap f).Perm (f i ++ (l.erase i).flatMap f) := by
  have hperm := (perm_cons_erase hi).flatMap_right f
  rwa [flatMap_cons] at hperm

end Families

end Chunos.Cover
