import Mathlib

/-!
# Lists that are changed element by element

Lemmas about two lists whose elements are related one by one, about the entries of lists that
have been put together, and about changing one entry.
-/

namespace Chunos.Listwise

open List

variable {α β : Type*}

variable {R : α → β → Prop} {l : List α} {l' : List β} {a : α} {g : α → α}

/-- An element of the second of two related lists is related to one of the first. -/
theorem exists_of_mem_right (h : List.Forall₂ R l l') {b : β} (hb : b ∈ l') : ∃ a ∈ l, R a b := by
  induction h with
  | nil => simp at hb
  | cons hab _ ih =>
    obtain rfl | hb := mem_cons.mp hb
    · exact ⟨_, mem_cons_self, hab⟩
    · obtain ⟨a, ha, hR⟩ := ih hb
      exact ⟨a, mem_cons_of_mem _ ha, hR⟩

/-- All elements but the last have a property. -/
theorem pairwise_of_dropLast {P : α → Prop} (h : ∀ a ∈ l.dropLast, P a) :
    l.Pairwise fun a _ => P a := by
  induction l with
  | nil => exact List.Pairwise.nil
  | cons a l ih =>
    cases l with
    | nil => exact pairwise_singleton _ _
    | cons b l =>
      rw [dropLast_cons_cons] at h
      obtain ⟨ha, hl⟩ := forall_mem_cons.mp h
      exact pairwise_cons.mpr ⟨fun _ _ => ha, ih hl⟩

/-- Relating two lists, with another element in the first one. -/
theorem forall₂_replace {S : α → β → Prop} {pre post : List α} {a' : α} {l : List β}
    (h : List.Forall₂ R (pre ++ a' :: post) l) (hRS : ∀ x b, R x b → S x b)
    (ha : ∀ b, R a' b → S a b) : List.Forall₂ S (pre ++ a :: post) l := by
  induction pre generalizing l with
  | nil =>
    obtain ⟨b, rest, hb, hrest, rfl⟩ := forall₂_cons_left_iff.mp h
    exact List.Forall₂.cons (ha b hb) (hrest.imp hRS)
  | cons x pre ih =>
    obtain ⟨b, rest, hb, hrest, rfl⟩ := forall₂_cons_left_iff.mp h
    exact List.Forall₂.cons (hRS x b hb) (ih hrest)

/-- An entry of two lists is in one of them. -/
theorem getElem?_append_cases {l' : List α} {k : ℕ} (h : (l ++ l')[k]? = some a) :
    l[k]? = some a ∨ ∃ k', k = l.length + k' ∧ l'[k']? = some a := by
  by_cases hk : k < l.length
  · exact Or.inl (by rwa [getElem?_append_left hk] at h)
  · refine Or.inr ⟨k - l.length, by omega, ?_⟩
    rwa [getElem?_append_right (by omega)] at h

/-- An entry between two lists. -/
theorem getElem?_append_mid (pre post : List α) {k : ℕ} (h : l[k]? = some a) :
    (pre ++ (l ++ post))[pre.length + k]? = some a := by
  obtain ⟨hk, -⟩ := List.getElem?_eq_some_iff.mp h
  rw [getElem?_append_right (by omega), Nat.add_sub_cancel_left, getElem?_append_left hk, h]

/-- Only the element at the index matters. -/
theorem modify_congr {i : ℕ} (ha : l[i]? = some a) {f : α → α} (hfg : f a = g a) :
    l.modify i f = l.modify i g := by
  apply ext_getElem?
  intro j
  by_cases hij : i = j
  · subst hij
    simp [ha, hfg]
  · simp [hij]

/-- An element of the first of two related lists is related to one of the second. -/
theorem exists_of_mem_left (h : List.Forall₂ R l l') (ha : a ∈ l) : ∃ b ∈ l', R a b := by
  induction h with
  | nil => simp at ha
  | cons hab _ ih =>
    obtain rfl | ha := mem_cons.mp ha
    · exact ⟨_, mem_cons_self, hab⟩
    · obtain ⟨b, hb, hR⟩ := ih ha
      exact ⟨b, mem_cons_of_mem _ hb, hR⟩

/-- What the related elements have in common. -/
theorem map_eq_of_forall₂ {γ : Type*} (h : List.Forall₂ R l l') {f : α → γ} {g : β → γ}
    (hfg : ∀ a b, R a b → g b = f a) : l'.map g = l.map f := by
  induction h with
  | nil => rfl
  | cons hab _ ih => rw [map_cons, map_cons, hfg _ _ hab, ih]

/-- A change of one element that does not show. -/
theorem map_modify_eq {f : α → β} (hfg : ∀ a, f (g a) = f a) (l : List α) (i : ℕ) :
    (l.modify i g).map f = l.map f := by
  apply ext_getElem?
  intro j
  by_cases hij : i = j
  · subst hij
    cases hl : l[i]? with
    | none => simp [hl]
    | some a => simp [hl, hfg]
  · simp [hij]

/-- The elements after a change of one element. -/
theorem mem_of_mem_modify {i : ℕ} (ha : a ∈ l.modify i g) : ∃ b ∈ l, a = b ∨ a = g b := by
  obtain ⟨j, hj⟩ := mem_iff_getElem?.mp ha
  rw [getElem?_modify] at hj
  obtain ⟨b, hb, rfl⟩ := Option.map_eq_some_iff.mp hj
  refine ⟨b, mem_of_getElem? hb, ?_⟩
  split_ifs
  · exact Or.inr rfl
  · exact Or.inl rfl

/-- A sum after a change of one element. -/
theorem sum_map_modify {γ : Type*} [AddCommGroup γ] {f : α → γ} {i : ℕ} (ha : l[i]? = some a) :
    ((l.modify i g).map f).sum = (l.map f).sum + (f (g a) - f a) := by
  induction l generalizing i with
  | nil => simp at ha
  | cons b l ih =>
    cases i with
    | zero =>
      obtain rfl := Option.some.inj ha
      simp only [modify_zero_cons, map_cons, sum_cons]
      abel
    | succ i =>
      have hrest := ih (i := i) (by simpa using ha)
      simp only [modify_succ_cons, map_cons, sum_cons, hrest]
      abel

/-- Lists whose concatenation has no duplicates have no element in common. -/
theorem index_eq_of_nodup_flatMap {f : α → List β} (h : (l.flatMap f).Nodup) {i j : ℕ} {a' : α}
    (ha : l[i]? = some a) (ha' : l[j]? = some a') {b : β} (hb : b ∈ f a) (hb' : b ∈ f a') :
    i = j := by
  obtain ⟨hi, rfl⟩ := List.getElem?_eq_some_iff.mp ha
  obtain ⟨hj, rfl⟩ := List.getElem?_eq_some_iff.mp ha'
  have hpairs := pairwise_iff_getElem.mp (nodup_flatMap.mp h).2
  rcases Nat.lt_trichotomy i j with hlt | heq | hlt
  · exact absurd hb' (hpairs i j hi hj hlt hb)
  · exact heq
  · exact absurd hb (hpairs j i hj hi hlt hb')

end Chunos.Listwise
