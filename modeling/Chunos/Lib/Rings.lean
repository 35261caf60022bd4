import Mathlib

/-!
# Circular doubly linked lists

Nodes carry a link to the next and one to the previous node. A ring is a head node and
the list of nodes that its links lead through before they come back to it. The rules here
are about a family of disjoint rings over one set of links: inserting a node at either end
of one ring, or removing a node from it, changes the list of that ring only.
-/

namespace Chunos.Rings

open List

/-- The links of all nodes. -/
structure Links (ν : Type*) where
  next : ν → ν
  pre : ν → ν

variable {ν ι : Type*} {L L' : Links ν}

/-- The links lead from `a` through the nodes of the list to `b`, and back. -/
def Path (L : Links ν) : ν → List ν → ν → Prop
  | a, [], b => L.next a = b ∧ L.pre b = a
  | a, x :: l, b => L.next a = x ∧ L.pre x = a ∧ Path L x l b

variable {a b x h n : ν} {l₁ l₂ l : List ν} {i : ι}

/-- A path can be cut at each of its nodes. -/
theorem path_append_cons : Path L a (l₁ ++ x :: l₂) b ↔ Path L a l₁ x ∧ Path L x l₂ b := by
  induction l₁ generalizing a with
  | nil => simp [Path, and_assoc]
  | cons y l₁ ih => simp [Path, ih, and_assoc]

/-- The last node before the end of a path is the previous node of the end. -/
theorem Path.pre_mem (h : Path L a l b) : L.pre b ∈ a :: l := by
  induction l generalizing a with
  | nil =>
    rw [h.2]
    exact mem_singleton_self a
  | cons x l ih => exact mem_cons_of_mem a (ih h.2.2)

/-- The previous node of the end of a path is linked to it. -/
theorem Path.next_pre (h : Path L a l b) : L.next (L.pre b) = b := by
  induction l generalizing a with
  | nil => rw [h.2, h.1]
  | cons x l ih => exact ih h.2.2

/-- The links in the other direction. -/
def Links.mirror (L : Links ν) : Links ν := ⟨L.pre, L.next⟩

/-- A path is one in the other direction too. -/
theorem Path.mirror (h : Path L a l b) : Path L.mirror b l.reverse a := by
  induction l generalizing a with
  | nil => exact h.symm
  | cons x l ih =>
    rw [reverse_cons, path_append_cons]
    exact ⟨ih h.2.2, h.2.1, h.1⟩

/-- The first node behind the start of a path is the next node of the start. -/
theorem Path.next_mem (h : Path L a l b) : L.next a ∈ l ++ [b] := by
  cases l with
  | nil => simp [h.1]
  | cons x l => simp [h.1]

/-- Behind a node of a path comes the first node of what remains of it. -/
theorem Path.next_eq (h : Path L a (l₁ ++ x :: l₂) b) : L.next x = l₂.headD b := by
  have hrest := (path_append_cons.mp h).2
  cases l₂ with
  | nil => exact hrest.1
  | cons y l₂ => exact hrest.1

/-- The next links alone lead from `a` through the nodes of the list to `b`. -/
def Walk (L : Links ν) : ν → List ν → ν → Prop
  | a, [], b => L.next a = b
  | a, x :: l, b => L.next a = x ∧ Walk L x l b

/-- A path is a walk. -/
theorem Path.walk (h : Path L a l b) : Walk L a l b := by
  induction l generalizing a with
  | nil => exact h.1
  | cons x l ih => exact ⟨h.1, ih h.2.2⟩

/-- A walk can be cut at each of its nodes. -/
theorem walk_append_cons : Walk L a (l₁ ++ x :: l₂) b ↔ Walk L a l₁ x ∧ Walk L x l₂ b := by
  induction l₁ generalizing a with
  | nil => simp [Walk]
  | cons y l₁ ih => simp [Walk, ih, and_assoc]

/-- A walk only depends on the links it goes through. -/
theorem Walk.congr (h : Walk L a l b) (hnext : ∀ n ∈ a :: l, L'.next n = L.next n) :
    Walk L' a l b := by
  induction l generalizing a with
  | nil => exact (hnext a mem_cons_self).trans h
  | cons x l ih =>
    exact ⟨(hnext a mem_cons_self).trans h.1, ih h.2 fun n hn => hnext n (mem_cons_of_mem a hn)⟩

/-- The next links lead from a node to the end of a walk in one way. -/
theorem Walk.unique {l' : List ν} (h : Walk L a l b) (h' : Walk L a l' b) (hb : b ∉ l)
    (hb' : b ∉ l') : l = l' := by
  induction l generalizing a l' with
  | nil =>
    cases l' with
    | nil => rfl
    | cons y l' =>
      have hy : y = b := h'.1.symm.trans h
      exact absurd mem_cons_self (hy ▸ hb')
  | cons x l ih =>
    cases l' with
    | nil =>
      have hx : x = b := h.1.symm.trans h'
      exact absurd mem_cons_self (hx ▸ hb)
    | cons y l' =>
      obtain rfl : x = y := h.1.symm.trans h'.1
      have hrest := ih h.2 h'.2 (fun hmem => hb (mem_cons_of_mem x hmem))
        (fun hmem => hb' (mem_cons_of_mem x hmem))
      rw [hrest]

/-- The links lead from a node to the end of a path in one way. -/
theorem Path.unique {l' : List ν} (h : Path L a l b) (h' : Path L a l' b) (hb : b ∉ l)
    (hb' : b ∉ l') : l = l' :=
  h.walk.unique h'.walk hb hb'

/-- A path only depends on the links it goes through. -/
theorem Path.congr (h : Path L a l b) (hnext : ∀ n ∈ a :: l, L'.next n = L.next n)
    (hpre : ∀ n ∈ l ++ [b], L'.pre n = L.pre n) : Path L' a l b := by
  induction l generalizing a with
  | nil => exact ⟨(hnext a mem_cons_self).trans h.1, (hpre b (by simp)).trans h.2⟩
  | cons x l ih =>
    obtain ⟨hax, hxa, hrest⟩ := h
    refine ⟨(hnext a mem_cons_self).trans hax, (hpre x mem_cons_self).trans hxa, ?_⟩
    exact ih hrest (fun n hn => hnext n (mem_cons_of_mem a hn))
      (fun n hn => hpre n (mem_cons_of_mem x hn))

/-- Linking the last node of a path to another node gives a path to that node. -/
theorem Path.retarget {c : ν} (h : Path L a l b) (hnodup : (a :: l).Nodup)
    (hnext : ∀ n ∈ a :: l, n ≠ L.pre b → L'.next n = L.next n) (hpre : ∀ n ∈ l, L'.pre n = L.pre n)
    (hlast : L'.next (L.pre b) = c) (hback : L'.pre c = L.pre b) : Path L' a l c := by
  induction l generalizing a with
  | nil =>
    obtain ⟨-, hba⟩ := h
    rw [hba] at hlast hback
    exact ⟨hlast, hback⟩
  | cons x l ih =>
    obtain ⟨hax, hxa, hrest⟩ := h
    obtain ⟨ha, hnodup'⟩ := nodup_cons.mp hnodup
    have hne : a ≠ L.pre b := fun heq => ha (heq ▸ hrest.pre_mem)
    refine ⟨(hnext a mem_cons_self hne).trans hax, ?_, ?_⟩
    · rw [hpre x mem_cons_self, hxa]
    · exact ih hrest hnodup' (fun n hn => hnext n (mem_cons_of_mem a hn))
        (fun n hn => hpre n (mem_cons_of_mem x hn))

/-- Links that agree on the nodes of a ring have that ring too. -/
theorem Path.congr_ring (hpath : Path L h l h)
    (hsame : ∀ n ∈ h :: l, L'.next n = L.next n ∧ L'.pre n = L.pre n) : Path L' h l h := by
  apply hpath.congr
  · exact fun n hn => (hsame n hn).1
  · intro n hn
    refine (hsame n ?_).2
    obtain hn | hn := mem_append.mp hn
    · exact mem_cons_of_mem h hn
    · simp [mem_singleton.mp hn]

/-- A family of rings over one set of links: the rings of the indices in `S` have distinct
nodes, and no node is on two rings. -/
structure Family (L : Links ν) (S : ι → Prop) (head : ι → ν) (body : ι → List ν) : Prop where
  path : ∀ i, S i → Path L (head i) (body i) (head i)
  nodup : ∀ i, S i → (head i :: body i).Nodup
  disjoint : ∀ i j, S i → S j → i ≠ j → (head i :: body i).Disjoint (head j :: body j)

variable {S : ι → Prop} {head : ι → ν} {body : ι → List ν}

/-- A family of rings is one in the other direction too. -/
theorem Family.mirror (hfam : Family L S head body) :
    Family L.mirror S head fun i => (body i).reverse where
  path := fun i hi => (hfam.path i hi).mirror
  nodup := fun i hi => by simpa using hfam.nodup i hi
  disjoint := fun i j hi hj hij n hn hn' =>
    hfam.disjoint i j hi hj hij (a := n) (by simpa using hn) (by simpa using hn')

/-- A node of a ring is linked to another node, and its previous node is linked to it. -/
theorem Family.next_ne (hfam : Family L S head body) (hi : S i) (hx : x ∈ body i) :
    L.next x ≠ x ∧ L.next (L.pre x) = x := by
  have hpath := hfam.path i hi
  have hnodup := hfam.nodup i hi
  obtain ⟨l₁, l₂, hsplit⟩ := append_of_mem hx
  rw [hsplit] at hpath hnodup
  obtain ⟨hhead, hbody⟩ := nodup_cons.mp hnodup
  obtain ⟨hfirst, hsecond⟩ := path_append_cons.mp hpath
  refine ⟨fun heq => ?_, hfirst.next_pre⟩
  have hnext := hsecond.next_mem
  rw [heq] at hnext
  obtain hmem | hmem := mem_append.mp hnext
  · exact (nodup_cons.mp (nodup_append.mp hbody).2.1).1 hmem
  · exact hhead (by simp [← mem_singleton.mp hmem])

variable [DecidableEq ι]

/-- An operation on ring `i` that only changes links on that ring, and whose new nodes were
on no ring, keeps the family. -/
theorem Family.update (hfam : Family L S head body) (hpath : Path L' (head i) l (head i))
    (hnodup : (head i :: l).Nodup)
    (hsame : ∀ j, S j → j ≠ i → ∀ n ∈ head j :: body j, L'.next n = L.next n ∧ L'.pre n = L.pre n)
    (hnew : ∀ n ∈ l, n ∈ body i ∨ ∀ j, S j → n ∉ head j :: body j) (hi : S i) :
    Family L' S head (Function.update body i l) := by
  have hapart : ∀ j, S j → j ≠ i → (head i :: l).Disjoint (head j :: body j) := by
    intro j hj hji n hn hn'
    have hold := hfam.disjoint i j hi hj (Ne.symm hji)
    obtain rfl | hn := mem_cons.mp hn
    · exact hold mem_cons_self hn'
    · obtain hmem | hfresh := hnew n hn
      · exact hold (mem_cons_of_mem _ hmem) hn'
      · exact hfresh j hj hn'
  constructor
  · intro j hj
    by_cases hji : j = i
    · subst hji
      rwa [Function.update_self]
    · rw [Function.update_of_ne hji]
      exact (hfam.path j hj).congr_ring (hsame j hj hji)
  · intro j hj
    by_cases hji : j = i
    · subst hji
      rwa [Function.update_self]
    · rw [Function.update_of_ne hji]
      exact hfam.nodup j hj
  · intro j k hj hk hjk
    by_cases hji : j = i
    · subst hji
      rw [Function.update_self, Function.update_of_ne (Ne.symm hjk)]
      exact hapart k hk (Ne.symm hjk)
    · by_cases hki : k = i
      · subst hki
        rw [Function.update_self, Function.update_of_ne hji]
        exact (hapart j hj hji).symm
      · rw [Function.update_of_ne hji, Function.update_of_ne hki]
        exact hfam.disjoint j k hj hk hjk

/-- The nodes of the bodies, when one of them gets a new list of elements. -/
theorem map_update {α : Type*} (node : ι → α → ν) (lists : ι → List α) (i : ι) (l : List α) :
    (fun j => (Function.update lists i l j).map (node j)) =
      Function.update (fun j => (lists j).map (node j)) i (l.map (node i)) := by
  funext j
  by_cases hj : j = i
  · subst hj
    simp
  · simp [hj]

variable [DecidableEq ν]

/-- Insert a node in front of another one. -/
def Links.insertBefore (L : Links ν) (b x : ν) : Links ν :=
  { next := Function.update (Function.update L.next (L.pre b) x) x b
    pre := Function.update (Function.update L.pre x (L.pre b)) b x }

/-- Insert a node behind another one. -/
def Links.insertAfter (L : Links ν) (a x : ν) : Links ν :=
  { next := Function.update (Function.update L.next x (L.next a)) a x
    pre := Function.update (Function.update L.pre (L.next a) x) x a }

/-- Link the neighbours of a node to each other. The node keeps its own links. -/
def Links.remove (L : Links ν) (x : ν) : Links ν :=
  { next := Function.update L.next (L.pre x) (L.next x)
    pre := Function.update L.pre (L.next x) (L.pre x) }

/-- Inserting in front of a node changes no links of nodes other than its neighbours. -/
theorem insertBefore_of_ne (hb : n ≠ b) (hx : n ≠ x) (hpre : n ≠ L.pre b) :
    (L.insertBefore b x).next n = L.next n ∧ (L.insertBefore b x).pre n = L.pre n := by
  simp [Links.insertBefore, hb, hx, hpre]

/-- Inserting behind a node changes no links of nodes other than its neighbours. -/
theorem insertAfter_of_ne (ha : n ≠ a) (hx : n ≠ x) (hnext : n ≠ L.next a) :
    (L.insertAfter a x).next n = L.next n ∧ (L.insertAfter a x).pre n = L.pre n := by
  simp [Links.insertAfter, ha, hx, hnext]

/-- Removing a node changes no links of nodes other than its neighbours. -/
theorem remove_of_ne (hpre : n ≠ L.pre x) (hnext : n ≠ L.next x) :
    (L.remove x).next n = L.next n ∧ (L.remove x).pre n = L.pre n := by
  simp [Links.remove, hpre, hnext]

/-- A node inserted in front of the head is the last node of the ring. -/
theorem Path.insertBefore (hpath : Path L h l h) (hnodup : (h :: l).Nodup) (hx : x ∉ h :: l) :
    Path (L.insertBefore h x) h (l ++ [x]) h := by
  have hmem := hpath.pre_mem
  have hlast : L.pre h ≠ x := fun heq => hx (heq ▸ hmem)
  have hhead : x ≠ h := fun heq => hx (heq ▸ mem_cons_self)
  rw [path_append_cons]
  constructor
  · apply hpath.retarget hnodup
    · intro n hn hne
      have hnx : n ≠ x := fun heq => hx (heq ▸ hn)
      simp [Links.insertBefore, hnx, hne]
    · intro n hn
      have hnx : n ≠ x := fun heq => hx (heq ▸ mem_cons_of_mem h hn)
      have hnh : n ≠ h := fun heq => (nodup_cons.mp hnodup).1 (heq ▸ hn)
      simp [Links.insertBefore, hnx, hnh]
    · simp [Links.insertBefore, hlast]
    · simp [Links.insertBefore, hhead]
  · constructor
    · simp [Links.insertBefore]
    · simp [Links.insertBefore]

/-- Inserting a node that is on the ring already cuts off the nodes behind it. -/
theorem Path.walk_insertBefore (hpath : Path L h (l₁ ++ x :: l₂) h)
    (hnodup : (h :: (l₁ ++ x :: l₂)).Nodup) : Walk (L.insertBefore h x) h (l₁ ++ [x]) h := by
  obtain ⟨hfirst, hsecond⟩ := path_append_cons.mp hpath
  rw [← cons_append] at hnodup
  have hapart := (nodup_append.mp hnodup).2.2
  rw [walk_append_cons]
  refine ⟨hfirst.walk.congr fun n hn => ?_, by simp [Walk, Links.insertBefore]⟩
  have hnx : n ≠ x := hapart n hn x mem_cons_self
  have hlast : n ≠ L.pre h := hapart n hn (L.pre h) hsecond.pre_mem
  simp [Links.insertBefore, hnx, hlast]

/-- Removing a node from a ring leaves the other nodes in their order. -/
theorem Path.remove (hpath : Path L h (l₁ ++ x :: l₂) h) (hnodup : (h :: (l₁ ++ x :: l₂)).Nodup) :
    Path (L.remove x) h (l₁ ++ l₂) h := by
  obtain ⟨hfirst, hsecond⟩ := path_append_cons.mp hpath
  obtain ⟨hhead, hnodup'⟩ := nodup_cons.mp hnodup
  obtain ⟨hnodup₁, hnodup₂, hdisj⟩ := nodup_append.mp hnodup'
  have hx₂ : x ∉ l₂ := (nodup_cons.mp hnodup₂).1
  -- The node before `x` is linked to the node behind it.
  have hcut : Path (L.remove x) h l₁ (L.next x) := by
    apply hfirst.retarget
    · refine nodup_cons.mpr ⟨fun hmem => hhead (by simp [hmem]), hnodup₁⟩
    · intro n hn hne
      simp [Links.remove, hne]
    · intro n hn
      have hne : n ≠ L.next x := by
        rintro rfl
        obtain hmem | hmem := mem_append.mp hsecond.next_mem
        · exact hdisj _ hn _ (mem_cons_of_mem x hmem) rfl
        · exact hhead (by simp [← mem_singleton.mp hmem, hn])
      simp [Links.remove, hne]
    · simp [Links.remove]
    · simp [Links.remove]
  cases l₂ with
  | nil =>
    rw [hsecond.1] at hcut
    rwa [append_nil]
  | cons y l₂ =>
    obtain ⟨hxy, -, hrest⟩ := hsecond
    rw [hxy] at hcut
    refine path_append_cons.mpr ⟨hcut, ?_⟩
    have hy₂ : y ∉ l₂ := (nodup_cons.mp (nodup_cons.mp hnodup₂).2).1
    apply hrest.congr
    · intro n hn
      have hne : n ≠ L.pre x := by
        rintro rfl
        obtain hmem | hmem := mem_cons.mp hfirst.pre_mem
        · exact hhead (by simp [← hmem, hn])
        · exact hdisj _ hmem _ (mem_cons_of_mem x hn) rfl
      simp [Links.remove, hne]
    · intro n hn
      have hne : n ≠ L.next x := by
        rw [hxy]
        rintro rfl
        obtain hmem | hmem := mem_append.mp hn
        · exact hy₂ hmem
        · exact hhead (by simp [mem_singleton.mp hmem])
      simp [Links.remove, hne]

section
variable (hfam : Family L S head body)
include hfam

/-- Inserting a node that is on no ring in front of a head appends it to that ring. -/
theorem Family.insertBefore (hi : S i) (hx : ∀ j, S j → x ∉ head j :: body j) :
    Family (L.insertBefore (head i) x) S head (Function.update body i (body i ++ [x])) := by
  have hpath := hfam.path i hi
  have hnodup := hfam.nodup i hi
  refine hfam.update (hpath.insertBefore hnodup (hx i hi)) ?_ ?_ ?_ hi
  · rw [← cons_append]
    refine nodup_append.mpr ⟨hnodup, nodup_singleton x, ?_⟩
    intro a ha b hb
    rw [mem_singleton.mp hb]
    exact fun heq => hx i hi (heq ▸ ha)
  · intro j hj hji n hn
    have hdisj := hfam.disjoint j i hj hi hji hn
    apply insertBefore_of_ne
    · exact fun heq => hdisj (heq ▸ mem_cons_self)
    · exact fun heq => hx j hj (heq ▸ hn)
    · exact fun heq => hdisj (heq ▸ hpath.pre_mem)
  · intro n hn
    obtain hn | hn := mem_append.mp hn
    · exact Or.inl hn
    · rw [mem_singleton.mp hn]
      exact Or.inr hx

/-- Inserting a node that is on no ring behind a head puts it in front of that ring. -/
theorem Family.insertAfter (hi : S i) (hx : ∀ j, S j → x ∉ head j :: body j) :
    Family (L.insertAfter (head i) x) S head (Function.update body i (x :: body i)) := by
  have hinsert := hfam.mirror.insertBefore hi fun j hj => by simpa using hx j hj
  have hlists : (fun j => (Function.update (fun j => (body j).reverse) i
      ((body i).reverse ++ [x]) j).reverse) = Function.update body i (x :: body i) := by
    funext j
    by_cases hj : j = i
    · subst hj
      simp
    · simp [hj]
  exact hlists ▸ hinsert.mirror

/-- Removing a node of a ring leaves the other nodes of that ring. -/
theorem Family.removeNode (hi : S i) (hbody : body i = l₁ ++ x :: l₂) :
    Family (L.remove x) S head (Function.update body i (l₁ ++ l₂)) := by
  have hpath := hfam.path i hi
  have hnodup := hfam.nodup i hi
  rw [hbody] at hpath hnodup
  obtain ⟨hfirst, hsecond⟩ := path_append_cons.mp hpath
  refine hfam.update (hpath.remove hnodup) ?_ ?_ ?_ hi
  · refine hnodup.sublist (List.Sublist.cons_cons _ ?_)
    exact Sublist.append_left (sublist_cons_self x l₂) l₁
  · intro j hj hji n hn
    have hdisj := hfam.disjoint j i hj hi hji hn
    rw [hbody] at hdisj
    apply remove_of_ne
    · rintro rfl
      obtain hmem | hmem := mem_cons.mp hfirst.pre_mem
      · exact hdisj (by simp [hmem])
      · exact hdisj (by simp [hmem])
    · rintro rfl
      obtain hmem | hmem := mem_append.mp hsecond.next_mem
      · exact hdisj (by simp [hmem])
      · exact hdisj (by simp [mem_singleton.mp hmem])
  · intro n hn
    left
    rw [hbody]
    obtain hn | hn := mem_append.mp hn
    · simp [hn]
    · simp [hn]

/-- Removing a node of a ring erases it from that ring. -/
theorem Family.remove (hi : S i) (hx : x ∈ body i) :
    Family (L.remove x) S head (Function.update body i ((body i).erase x)) := by
  obtain ⟨l₁, l₂, hbody, hx₁⟩ := eq_append_cons_of_mem hx
  rw [hbody, erase_append_right _ hx₁, erase_cons_head]
  exact hfam.removeNode hi hbody

end

end Chunos.Rings
