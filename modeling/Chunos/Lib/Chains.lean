import Mathlib

/-!
# Singly linked lists

A node that exists has a link to another node or to none. A chain is the list of nodes that
the links lead through from a first node to the end. The rules here are about appending a
node, removing the first one, and changing links of other nodes.
-/

namespace Chunos.Chains

open Function List

variable {α : Type*} {next next' : α → Option (Option α)}

/-- The links lead from `first` through the nodes of the list, which all exist, to the end. -/
def Chain (next : α → Option (Option α)) : Option α → List α → Prop
  | first, [] => first = none
  | first, a :: rest => first = some a ∧ ∃ link, next a = some link ∧ Chain next link rest

variable {first : Option α} {nodes : List α} {a : α}

/-- A chain only depends on the links of its nodes. -/
theorem Chain.congr (h : Chain next first nodes) (hnext : ∀ a ∈ nodes, next' a = next a) :
    Chain next' first nodes := by
  induction nodes generalizing first with
  | nil => exact h
  | cons a rest ih =>
    obtain ⟨hfirst, link, hlink, hrest⟩ := h
    refine ⟨hfirst, link, ?_, ih hrest fun b hb => hnext b (mem_cons_of_mem a hb)⟩
    rw [hnext a mem_cons_self, hlink]

/-- The links lead to the end in one way. -/
theorem Chain.unique {nodes' : List α} (h : Chain next first nodes) (h' : Chain next first nodes') :
    nodes = nodes' := by
  induction nodes generalizing first nodes' with
  | nil =>
    cases nodes' with
    | nil => rfl
    | cons b rest' =>
      have hnone : none = some b := Eq.trans (Eq.symm h) h'.1
      exact absurd hnone (by simp)
  | cons a rest ih =>
    obtain ⟨hfirst, link, hlink, hrest⟩ := h
    cases nodes' with
    | nil =>
      have hnone : some a = none := hfirst.symm.trans h'
      exact absurd hnone (by simp)
    | cons b rest' =>
      obtain ⟨hfirst', link', hlink', hrest'⟩ := h'
      obtain rfl := Option.some.inj (hfirst.symm.trans hfirst')
      obtain rfl := Option.some.inj (hlink.symm.trans hlink')
      rw [ih hrest hrest']

/-- A chain ends with a chain from each of its nodes. -/
theorem Chain.suffix {before rest : List α} (h : Chain next first (before ++ a :: rest)) :
    Chain next (some a) (a :: rest) := by
  induction before generalizing first with
  | nil => exact ⟨rfl, h.2⟩
  | cons b before ih =>
    obtain ⟨-, link, -, hrest⟩ := h
    exact ih hrest

/-- No node is on a chain twice. -/
theorem Chain.nodup (h : Chain next first nodes) : nodes.Nodup := by
  induction nodes generalizing first with
  | nil => exact nodup_nil
  | cons a rest ih =>
    obtain ⟨hfirst, link, hlink, hrest⟩ := h
    refine nodup_cons.mpr ⟨fun hmem => ?_, ih hrest⟩
    -- A chain that comes back to its first node would be longer than itself.
    obtain ⟨before, behind, rfl⟩ := append_of_mem hmem
    have hwhole : Chain next (some a) (a :: (before ++ a :: behind)) := ⟨rfl, link, hlink, hrest⟩
    have hlength := congrArg List.length (hrest.suffix.unique hwhole)
    simp only [length_cons, length_append] at hlength
    omega

/-- Every node of a chain exists. -/
theorem Chain.exists_of_mem (h : Chain next first nodes) (ha : a ∈ nodes) :
    ∃ link, next a = some link := by
  obtain ⟨before, behind, rfl⟩ := append_of_mem ha
  obtain ⟨-, link, hlink, -⟩ := h.suffix
  exact ⟨link, hlink⟩

variable [DecidableEq α]

/-- A new node is linked behind the last one. -/
theorem Chain.concat {before : List α} {last : α} (h : Chain next first (before ++ [last]))
    (ha : next a = none) :
    Chain (update (update next a (some none)) last (some (some a))) first
      (before ++ [last] ++ [a]) := by
  have hne : ∀ b ∈ before ++ [last], b ≠ a := by
    rintro b hb rfl
    obtain ⟨link, hlink⟩ := h.exists_of_mem hb
    simp [ha] at hlink
  have hnodup := h.nodup
  induction before generalizing first with
  | nil =>
    have hla : a ≠ last := (hne last (by simp)).symm
    refine ⟨h.1, some a, by simp, rfl, none, ?_, rfl⟩
    rw [update_of_ne hla, update_self]
  | cons b before ih =>
    obtain ⟨hfirst, link, hlink, hrest⟩ := h
    rw [cons_append, nodup_cons] at hnodup
    have hbl : b ≠ last := fun heq => hnodup.1 (by simp [heq])
    refine ⟨hfirst, link, ?_, ih hrest (fun c hc => hne c (mem_cons_of_mem b hc)) hnodup.2⟩
    rw [update_of_ne hbl, update_of_ne (hne b mem_cons_self), hlink]

/-- The first node is removed. -/
theorem Chain.remove {rest : List α} (h : Chain next first (a :: rest)) :
    ∃ link, next a = some link ∧ Chain (update next a none) link rest := by
  have hnodup := h.nodup
  obtain ⟨-, link, hlink, hrest⟩ := h
  refine ⟨link, hlink, hrest.congr fun b hb => ?_⟩
  rw [update_of_ne]
  rintro rfl
  exact (nodup_cons.mp hnodup).1 hb

end Chunos.Chains
