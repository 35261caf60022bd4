import Chunos.Lib.Rings

/-!
# Intrusive lists

The list functions of `os/list.h` on the links of nodes, statement by statement. Each of
them is one of the operations on circular lists. `list_del` does not reset the links of
the node it unlinks, which the traversals of the kernel rely on: `list_for_each` finds the
next node also when its body has unlinked the one it is at.
-/

namespace Chunos

open Rings Function List

variable {ν ι : Type*} [DecidableEq ν] [DecidableEq ι]

/-- `list->next = value`. -/
def setNext (L : Links ν) (list value : ν) : Links ν :=
  { L with next := update L.next list value }

/-- `list->pre = value`. -/
def setPre (L : Links ν) (list value : ν) : Links ν :=
  { L with pre := update L.pre list value }

/-- `init_list`: a node that is linked to itself. -/
def initList (L : Links ν) (list : ν) : Links ν :=
  let L := setNext L list list
  setPre L list list

/-- `list_add`: link a node behind the head. -/
def listAdd (L : Links ν) (head new : ν) : Links ν :=
  let L := setPre L (L.next head) new
  let L := setNext L new (L.next head)
  let L := setPre L new head
  setNext L head new

/-- `list_add_tail`: link a node in front of the head. -/
def listAddTail (L : Links ν) (head new : ν) : Links ν :=
  let L := setNext L (L.pre head) new
  let L := setNext L new head
  let L := setPre L new (L.pre head)
  setPre L head new

/-- `list_del`: unlink a node from its neighbours. -/
def listDel (L : Links ν) (list : ν) : Links ν :=
  let L := setPre L (L.next list) (L.pre list)
  setNext L (L.pre list) (L.next list)

/-- `list_del_tail`: unlink the node in front of the head. -/
def listDelTail (L : Links ν) (head : ν) : Links ν :=
  let L := setNext L (L.pre (L.pre head)) head
  setPre L head (L.pre (L.pre head))

/-- `is_list_empty`: the head is linked to itself. -/
def isListEmpty (L : Links ν) (head : ν) : Bool := L.next head = head

theorem listAdd_eq (L : Links ν) (head new : ν) : listAdd L head new = L.insertAfter head new := rfl

theorem listAddTail_eq (L : Links ν) (head new : ν) :
    listAddTail L head new = L.insertBefore head new := rfl

/-- `list_del` removes a node. The first statement does not change the link that the
second one reads, also for a node that is linked to itself. -/
theorem listDel_eq (L : Links ν) (list : ν) : listDel L list = L.remove list := by
  have hpre : update L.pre (L.next list) (L.pre list) list = L.pre list := by
    by_cases hself : list = L.next list
    · rw [← hself, update_self]
    · exact update_of_ne hself _ _
  simp only [listDel, setPre, setNext, Links.remove, hpre]

/-- The loop `list_for_each` from a node on, with the nodes it visits. -/
def listForEach (body : ν → Links ν → Links ν) (head : ν) :
    ℕ → ν → Links ν → Option (List ν × Links ν)
  | 0, _, _ => none
  | fuel + 1, list, L =>
    if list = head then some ([], L)
    else
      let L := body list L
      (listForEach body head fuel (L.next list) L).map fun r => (list :: r.1, r.2)

/-- What the body of a loop does with the node it visits: leave it, `list_del` it, or `list_del`
it and link another member of its element on list `j`, at either end. -/
inductive Visit (ι ν : Type*) where
  | keep
  | del
  | move (j : ι) (tail : Bool) (member : ν)

/-- The node stays where it is. -/
def Visit.stays : Visit ι ν → Bool
  | .keep => true
  | _ => false

/-- The body of such a loop. -/
def visitBody (head : ι → ν) (visit : ν → Visit ι ν) (list : ν) (L : Links ν) : Links ν :=
  match visit list with
  | .keep => L
  | .del => listDel L list
  | .move j tail member =>
    let L := listDel L list
    if tail then listAddTail L (head j) member else listAdd L (head j) member

variable {L : Links ν} {S : ι → Prop} {head : ι → ν} {body : ι → List ν} {i : ι} {x : ν}

/-- `list_del_tail` removes the last node of a list. -/
theorem listDelTail_family (hfam : Family L S head body) (hi : S i) :
    Family (listDelTail L (head i)) S head (update body i (body i).dropLast) := by
  have hpath := hfam.path i hi
  have hremove : listDelTail L (head i) = L.remove (L.pre (head i)) := by
    simp only [listDelTail, setNext, setPre, Links.remove, hpath.next_pre]
  rcases eq_nil_or_concat' (body i) with hnil | ⟨l, x, hlast⟩
  · rw [hnil] at hpath ⊢
    have hnext : update L.next (head i) (head i) = L.next := update_eq_self_iff.mpr hpath.1.symm
    have hpre : update L.pre (head i) (head i) = L.pre := update_eq_self_iff.mpr hpath.2.symm
    rw [hremove, hpath.2, Links.remove, hpath.1, hpath.2, hnext, hpre, dropLast_nil, ← hnil,
      update_eq_self]
    exact hfam
  · rw [hlast, path_append_cons] at hpath
    have hremoved := hfam.removeNode hi hlast
    rw [append_nil, ← hpath.2.2, ← hremove] at hremoved
    rwa [hlast, dropLast_concat]

variable {visit : ν → Visit ι ν} {kept rest : List ν}

/-- The body of a loop leaves or unlinks the node it visits, keeps the lists well formed, and
leaves the link by which the loop goes on. -/
theorem visitBody_family (hfam : Family L S head body) (hi : S i)
    (hlist : body i = kept ++ x :: rest)
    (hmove : ∀ j tail y, visit x = .move j tail y →
      S j ∧ j ≠ i ∧ ∀ k, S k → y ∉ head k :: body k) :
    ∃ body', Family (visitBody head visit x L) S head body' ∧
      body' i = (if (visit x).stays then kept ++ [x] else kept) ++ rest ∧
      (visitBody head visit x L).next x = rest.headD (head i) ∧
      ∀ k, ∀ n ∈ body' k, n ∈ body k ∨ ∃ j tail, visit x = .move j tail n := by
  have hpath := hfam.path i hi
  have hmem : x ∈ body i := by simp [hlist]
  rw [hlist] at hpath
  -- What `list_del` does, which two cases have in common.
  have hremoved := hfam.removeNode hi hlist
  rw [← listDel_eq] at hremoved
  have hnext : (listDel L x).next x = rest.headD (head i) := by
    obtain ⟨hne, hback⟩ := hfam.next_ne hi hmem
    have hpre : x ≠ L.pre x := fun heq => hne (by rwa [← heq] at hback)
    rw [listDel_eq]
    exact (update_of_ne hpre _ _).trans hpath.next_eq
  have hsub : ∀ k, ∀ n ∈ update body i (kept ++ rest) k, n ∈ body k := by
    intro k n hn
    by_cases hk : k = i
    · subst hk
      rw [update_self] at hn
      rw [hlist]
      simp only [mem_cons, mem_append] at hn ⊢
      tauto
    · rwa [update_of_ne hk] at hn
  cases hvisit : visit x with
  | keep =>
    simp only [visitBody, hvisit, Visit.stays, if_true, append_assoc, singleton_append]
    exact ⟨body, hfam, hlist, hpath.next_eq, fun k n hn => .inl hn⟩
  | del =>
    simp only [visitBody, hvisit, Visit.stays, Bool.false_eq_true, if_false]
    exact ⟨_, hremoved, update_self _ _ _, hnext, fun k n hn => .inl (hsub k n hn)⟩
  | move j tail y =>
    obtain ⟨hj, hji, hfree⟩ := hmove j tail y hvisit
    have hfree' : ∀ k, S k → y ∉ head k :: update body i (kept ++ rest) k :=
      fun k hk hn => hfree k hk (by simpa using (mem_cons.mp hn).imp_right (hsub k y))
    -- The node is not on the other list, nor is it the member that is linked there.
    have hring := hremoved.path j hj
    have hxj : x ∉ head j :: update body i (kept ++ rest) j := by
      rw [update_of_ne hji]
      exact fun hn => hfam.disjoint i j hi hj hji.symm (mem_cons_of_mem _ hmem) hn
    have hxy : x ≠ y := fun heq => hfree i hi (heq ▸ mem_cons_of_mem _ hmem)
    have hxhead : x ≠ head j := fun heq => hxj (heq ▸ mem_cons_self)
    have hlists : ∀ l, (∀ n ∈ l, n ∈ update body i (kept ++ rest) j ∨ n = y) → ∀ k,
        ∀ n ∈ update (update body i (kept ++ rest)) j l k,
          n ∈ body k ∨ ∃ j' tail', Visit.move j tail y = .move j' tail' n := by
      intro l hl k n hn
      by_cases hk : k = j
      · subst hk
        rw [update_self] at hn
        exact (hl n hn).imp (hsub k n) fun heq => ⟨k, tail, by rw [heq]⟩
      · rw [update_of_ne hk] at hn
        exact .inl (hsub k n hn)
    simp only [visitBody, hvisit, Visit.stays, Bool.false_eq_true, if_false]
    cases tail with
    | true =>
      refine ⟨_, hremoved.insertBefore hj hfree', ?_, ?_, hlists _ ?_⟩
      · rw [update_of_ne hji.symm, update_self]
      · rw [if_pos rfl, listAddTail_eq, (insertBefore_of_ne hxhead hxy fun heq =>
          hxj (heq ▸ hring.pre_mem)).1, hnext]
      · simp
    | false =>
      refine ⟨_, hremoved.insertAfter hj hfree', ?_, ?_, hlists _ ?_⟩
      · rw [update_of_ne hji.symm, update_self]
      · have hfirst : x ≠ (listDel L x).next (head j) := by
          intro heq
          have hn := hring.next_mem
          rw [← heq, mem_append, mem_singleton] at hn
          exact hn.elim (fun hn => hxj (mem_cons_of_mem _ hn)) hxhead
        rw [if_neg (by simp), listAdd_eq, (insertAfter_of_ne hxhead hxy hfirst).1, hnext]
      · simp [or_comm]

/-- `list_for_each` from the node behind `kept` on. -/
theorem listForEach_family {fuel : ℕ} (hfam : Family L S head body) (hi : S i)
    (hlist : body i = kept ++ rest)
    (hmove : ∀ x ∈ rest, ∀ j tail y, visit x = .move j tail y →
      S j ∧ j ≠ i ∧ ∀ k, S k → y ∉ head k :: body k)
    (hmembers : rest.Pairwise fun x x' => ∀ j tail y j' tail', visit x = .move j tail y →
      visit x' ≠ .move j' tail' y) (hfuel : rest.length < fuel) :
    ∃ L' body', listForEach (visitBody head visit) (head i) fuel (rest.headD (head i)) L =
        some (rest, L') ∧ Family L' S head body' ∧
      body' i = kept ++ rest.filter fun x => (visit x).stays := by
  induction rest generalizing L body kept fuel with
  | nil =>
    obtain ⟨fuel, rfl⟩ := Nat.exists_eq_add_one.mpr hfuel
    exact ⟨L, body, if_pos rfl, hfam, hlist⟩
  | cons x rest ih =>
    obtain ⟨fuel, rfl⟩ := Nat.exists_eq_add_one.mpr (Nat.zero_lt_of_lt hfuel)
    obtain ⟨hx, hmove⟩ := forall_mem_cons.mp hmove
    obtain ⟨hfirst, hmembers⟩ := pairwise_cons.mp hmembers
    obtain ⟨body₁, hfam₁, hlist₁, hnext, hnew⟩ := visitBody_family hfam hi hlist hx
    have hhead : x ≠ head i := by
      have hnodup := (nodup_cons.mp (hfam.nodup i hi)).1
      rw [hlist] at hnodup
      exact fun heq => hnodup (by simp [heq])
    obtain ⟨L', body', hloop, hfam', hlist'⟩ := ih hfam₁ hlist₁ (fun x' hx' j tail y hvisit => by
      obtain ⟨hj, hji, hfree⟩ := hmove x' hx' j tail y hvisit
      refine ⟨hj, hji, fun k hk hn => hfree k hk ?_⟩
      obtain rfl | hn := mem_cons.mp hn
      · exact mem_cons_self
      · obtain hn | ⟨j', tail', hmoved⟩ := hnew k y hn
        · exact mem_cons_of_mem _ hn
        · exact absurd hvisit (hfirst x' hx' _ _ _ _ _ hmoved)) hmembers
      (Nat.lt_of_succ_lt_succ hfuel)
    refine ⟨L', body', ?_, hfam', ?_⟩
    · simp only [headD_cons, listForEach, if_neg hhead, hnext, hloop, Option.map_some]
    · rw [hlist', filter_cons]
      split_ifs <;> simp

/-- The functions of `os/list.h` on lists that have no node in common: `list_add`,
`list_add_tail`, `list_del` and `list_del_tail` insert a node that is on no list at the front or
at the back, remove a node and remove the last one, on one list only. `list_for_each` visits the
nodes of a list in order, also when its body unlinks them and links other members of the same
elements on other lists. -/
theorem lists_refine (hfam : Family L S head body) (hi : S i) :
    (∀ x, (∀ j, S j → x ∉ head j :: body j) →
      Family (listAdd L (head i) x) S head (update body i (x :: body i)) ∧
      Family (listAddTail L (head i) x) S head (update body i (body i ++ [x]))) ∧
    (∀ x ∈ body i, Family (listDel L x) S head (update body i ((body i).erase x))) ∧
    Family (listDelTail L (head i)) S head (update body i (body i).dropLast) ∧
    ∀ visit : ν → Visit ι ν,
      (∀ x ∈ body i, ∀ j tail y, visit x = .move j tail y →
        S j ∧ j ≠ i ∧ ∀ k, S k → y ∉ head k :: body k) →
      ((body i).Pairwise fun x x' => ∀ j tail y j' tail', visit x = .move j tail y →
        visit x' ≠ .move j' tail' y) →
      ∃ L' body', listForEach (visitBody head visit) (head i) ((body i).length + 1)
          (L.next (head i)) L = some (body i, L') ∧ Family L' S head body' ∧
        body' i = (body i).filter fun x => (visit x).stays := by
  refine ⟨fun x hx => ⟨hfam.insertAfter hi hx, hfam.insertBefore hi hx⟩, fun x hx => ?_,
    listDelTail_family hfam hi, fun visit hmove hmembers => ?_⟩
  · rw [listDel_eq]
    exact hfam.remove hi hx
  · have hfirst : L.next (head i) = (body i).headD (head i) := by
      have hpath := hfam.path i hi
      cases hbody : body i with
      | nil => exact (hbody ▸ hpath).1
      | cons x l => exact (hbody ▸ hpath).1
    rw [hfirst]
    exact listForEach_family hfam hi (nil_append _).symm hmove hmembers (Nat.lt_succ_self _)

/-- Two lists, one with two nodes: both are visited when the body moves the second one's element,
by its node 5, to the other list. -/
theorem lists_refine_move : ∃ L' body',
    listForEach (visitBody (fun i : Bool => if i then (0 : ℕ) else 3)
        fun n => if n = 2 then .move false true 5 else .keep) 0 3 1
      (listAddTail (listAddTail ⟨id, id⟩ 0 1) 0 2) = some ([1, 2], L') ∧
    Family L' (fun _ => True) (fun i : Bool => if i then (0 : ℕ) else 3) body' ∧
    body' true = [1] := by
  have hfam : Family (listAddTail (listAddTail ⟨id, id⟩ 0 1) 0 2) (fun _ => True)
      (fun i : Bool => if i then (0 : ℕ) else 3) (fun i => if i then [1, 2] else []) := by
    refine ⟨?_, ?_, ?_⟩
    · rintro (_ | _) -
      · exact ⟨rfl, rfl⟩
      · exact ⟨rfl, rfl, rfl, rfl, rfl, rfl⟩
    · decide
    · rintro (_ | _) (_ | _) - - hij <;> simp at hij ⊢
  exact (lists_refine hfam (i := true) trivial).2.2.2
    (fun n => if n = 2 then .move false true 5 else .keep) (by simp) (by simp)

end Chunos
