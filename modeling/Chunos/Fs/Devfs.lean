import Chunos.List
import Chunos.String
import Chunos.Lib.Runs
import Chunos.Fs.Vfs

/-!
# Scans of a directory of device files

A lookup walks through a directory by asking for the first block and then for the next
block again and again. For device files a block is a child of the directory, and the
directory itself remembers the child that was asked for last. This file follows several
walks through one directory at the same time. Each of them sees every child once exactly
when it never goes on from a child that another walk has stopped at.

A walk that is alone compares the name it looks for with the names of the children. It
takes every child whose name begins with that name.
-/

namespace Chunos.Devfs

open Rings Function List

variable {ν ι : Type*} [DecidableEq ν]

/-- `struct devfs_node`, with the fields that a scan uses. The nodes of the lists are
addresses: `child` is the head of the list of children and `list` the place of the node
in the list of its parent. -/
structure DevfsNode (ν : Type*) where
  child : ν
  list : ν
  currentChild : ν

/-- The end of `devfs_get_data_block`: a child becomes the current one, and the head of
the list is the end of the scan. -/
def DevfsNode.visit (dnode : DevfsNode ν) (list : ν) : Option ν × DevfsNode ν :=
  if list = dnode.child then (none, dnode) else (some list, { dnode with currentChild := list })

/-- `devfs_get_data_block` for a node of the given type. The block `none` is the returned
value 0. -/
def devfsGetDataBlock (L : Links ν) (type : ℕ) (dnode : DevfsNode ν) (whence : VfsWhence) :
    Option ν × DevfsNode ν :=
  match whence with
  | .startBlock =>
    if type = dtDir then dnode.visit (L.next dnode.child) else (some dnode.list, dnode)
  | .nextBlock =>
    if type = dtDir then dnode.visit (L.next dnode.currentChild) else (none, dnode)
  | .prevBlock | .endBlock | .currentBlock => dnode.visit dnode.currentChild

/-- A scan of a directory: the children it has visited, and whether it has begun and
whether it has come to the end. -/
structure Scan (ν : Type*) where
  visited : List ν
  started : Bool
  done : Bool

/-- The scan after it has asked for a block. -/
def Scan.see (scan : Scan ν) : Option ν → Scan ν
  | none => { scan with started := true, done := true }
  | some list => { visited := scan.visited ++ [list], started := true, done := false }

/-- A directory and the scans of it through different nodes. -/
structure ScanRun (ν ι : Type*) where
  dnode : DevfsNode ν
  scans : ι → Scan ν

/-- What scan `i` asks for: first the first block, and then the next one. -/
def ScanRun.whence (r : ScanRun ν ι) (i : ι) : VfsWhence :=
  if (r.scans i).started then .nextBlock else .startBlock

/-- One step of scan `i`, which is `none` once the scan has come to its end. -/
def ScanRun.step [DecidableEq ι] (L : Links ν) (i : ι) (r : ScanRun ν ι) : Option (ScanRun ν ι) :=
  if (r.scans i).done then none
  else
    let (block, dnode) := devfsGetDataBlock L dtDir r.dnode (r.whence i)
    some { dnode := dnode, scans := update r.scans i ((r.scans i).see block) }

/-- All scans before their first step. -/
def ScanRun.start (dnode : DevfsNode ν) : ScanRun ν ι :=
  { dnode := dnode, scans := fun _ => { visited := [], started := false, done := false } }

/-- The scan has visited the children in order from the first one on, and all of them when
it has come to the end. -/
def Complete (children : List ν) (scan : Scan ν) : Prop :=
  scan.visited <+: children ∧ (scan.done → scan.visited = children)

/-- Scan `i` goes on from the child that it has visited last. -/
def OwnChild (i : ι) (r : ScanRun ν ι) : Prop :=
  (r.scans i).started → (r.scans i).visited.getLast? = some r.dnode.currentChild

instance (i : ι) (r : ScanRun ν ι) : Decidable (OwnChild i r) :=
  inferInstanceAs (Decidable (_ → _))

/-- The children of a directory: the list leads through them from its head. -/
structure Directory (L : Links ν) (head : ν) (children : List ν) : Prop where
  path : Path L head children head
  nodup : (head :: children).Nodup

/-- What holds in every state: a scan that has begun and not ended has seen a child, and
the current child of the directory is one of its children then. -/
structure ScanRun.Inv (head : ν) (children : List ν) (r : ScanRun ν ι) : Prop where
  child_eq : r.dnode.child = head
  fresh : ∀ i, (r.scans i).started = false → (r.scans i).visited = [] ∧ (r.scans i).done = false
  current : ∀ i, (r.scans i).started = true → (r.scans i).done = false →
    (r.scans i).visited ≠ [] ∧ r.dnode.currentChild ∈ children

omit [DecidableEq ν] in
/-- In a list without repetition only one beginning ends with a given element. -/
theorem eq_of_append_isPrefix {l₁ l₂ w : List ν} {x : ν} (hnodup : (l₁ ++ x :: l₂).Nodup)
    (hpre : w ++ [x] <+: l₁ ++ x :: l₂) : w = l₁ := by
  obtain ⟨t, ht⟩ := hpre
  rw [append_assoc, singleton_append] at ht
  have hnot : x ∉ l₁ := fun hmem => by
    have hdisj := disjoint_of_nodup_append hnodup
    exact hdisj hmem mem_cons_self
  have hnot' : x ∉ l₂ := (nodup_cons.mp (nodup_append.mp hnodup).2.1).1
  exact ((append_cons_inj_of_notMem hnot hnot').mp ht.symm).1.symm

variable {L : Links ν} {head : ν} {children l₁ l₂ : List ν} {dnode : DevfsNode ν} {i : ι}
  {r r' : ScanRun ν ι}

theorem Directory.see_first (hdir : Directory L head children) (hchild : dnode.child = head) :
    devfsGetDataBlock L dtDir dnode .startBlock = match children with
      | [] => (none, dnode)
      | c :: _ => (some c, { dnode with currentChild := c }) := by
  have hpath := hdir.path
  have hnodup := hdir.nodup
  simp only [devfsGetDataBlock, if_true, DevfsNode.visit, hchild]
  cases children with
  | nil => rw [if_pos hpath.1]
  | cons c rest =>
    have hne : c ≠ head := fun h => (nodup_cons.mp hnodup).1 (h ▸ mem_cons_self)
    rw [hpath.1, if_neg hne]

theorem Directory.see_next {c : ν} (hdir : Directory L head (l₁ ++ c :: l₂))
    (hchild : dnode.child = head) (hcurrent : dnode.currentChild = c) :
    devfsGetDataBlock L dtDir dnode .nextBlock = match l₂ with
      | [] => (none, dnode)
      | x :: _ => (some x, { dnode with currentChild := x }) := by
  have hnext := hdir.path.next_eq
  have hnodup := hdir.nodup
  simp only [devfsGetDataBlock, if_true, DevfsNode.visit, hchild, hcurrent, hnext]
  cases l₂ with
  | nil => rw [headD_nil, if_pos rfl]
  | cons x l₂ =>
    have hne : x ≠ head := fun h => (nodup_cons.mp hnodup).1 (by simp [← h])
    rw [headD_cons, if_neg hne]

/-- The block behind the last child of a beginning of the list, or `none` at its end. -/
theorem Directory.getDataBlock_eq (hdir : Directory L head children)
    (hinv : r.Inv head children) (hdone : (r.scans i).done = false) :
    ∃ l₁ l₂, children = l₁ ++ l₂ ∧
      devfsGetDataBlock L dtDir r.dnode (r.whence i) =
        (l₂.head?, { r.dnode with currentChild := l₂.headD r.dnode.currentChild }) ∧
      ((r.scans i).started = false → l₁ = []) ∧
      ((r.scans i).started = true → l₁.getLast? = some r.dnode.currentChild) := by
  have hchild := hinv.child_eq
  cases hstarted : (r.scans i).started with
  | false =>
    refine ⟨[], children, rfl, ?_, fun _ => rfl, nofun⟩
    rw [ScanRun.whence, hstarted, if_neg Bool.false_ne_true, hdir.see_first hchild]
    cases children with
    | nil => rfl
    | cons c rest => rfl
  | true =>
    obtain ⟨-, hmem⟩ := hinv.current i hstarted hdone
    obtain ⟨l₁, l₂, rfl⟩ := append_of_mem hmem
    refine ⟨l₁ ++ [r.dnode.currentChild], l₂, by simp, ?_, nofun, fun _ => by simp⟩
    rw [ScanRun.whence, hstarted, if_pos rfl, hdir.see_next hchild rfl]
    cases l₂ with
    | nil => rfl
    | cons x l₂ => rfl

omit [DecidableEq ν] in
/-- A scan that sees what follows the beginning `l₁` of the list stays complete exactly when
it has visited that beginning. -/
theorem complete_see_iff {l₁ l₂ : List ν} (hnodup : (l₁ ++ l₂).Nodup) {scan : Scan ν} :
    Complete (l₁ ++ l₂) (scan.see l₂.head?) ↔ scan.visited = l₁ := by
  cases l₂ with
  | nil =>
    simp only [Scan.see, head?_nil, Complete, append_nil, forall_const]
    constructor
    · exact And.right
    · intro h
      exact ⟨h ▸ prefix_rfl, h⟩
  | cons x l₂ =>
    simp only [Scan.see, head?_cons, Complete, Bool.false_eq_true, false_implies, and_true]
    constructor
    · exact eq_of_append_isPrefix hnodup
    · rintro rfl
      exact ⟨l₂, by simp⟩

omit [DecidableEq ν] in
/-- A scan that has not ended has visited the beginning of the list up to the current child
exactly when it is complete so far and goes on from its own child. -/
theorem ScanRun.Inv.visited_eq_iff (hinv : r.Inv head (l₁ ++ l₂)) (hnodup : (l₁ ++ l₂).Nodup)
    (hdone : (r.scans i).done = false) (hfirst : (r.scans i).started = false → l₁ = [])
    (hlast : (r.scans i).started = true → l₁.getLast? = some r.dnode.currentChild) :
    (r.scans i).visited = l₁ ↔ Complete (l₁ ++ l₂) (r.scans i) ∧ OwnChild i r := by
  constructor
  · intro hvisited
    refine ⟨⟨?_, ?_⟩, ?_⟩
    · exact hvisited ▸ prefix_append l₁ l₂
    · simp [hdone]
    · intro hstarted
      rw [hvisited]
      exact hlast hstarted
  · rintro ⟨⟨hpre, -⟩, hown⟩
    cases hstarted : (r.scans i).started with
    | false => rw [hfirst hstarted, (hinv.fresh i hstarted).1]
    | true =>
      obtain ⟨w, hw⟩ := getLast?_eq_some_iff.mp (hown hstarted)
      obtain ⟨l, hl⟩ := getLast?_eq_some_iff.mp (hlast hstarted)
      rw [hw, hl] at hpre ⊢
      rw [hl] at hnodup
      simp only [append_assoc, singleton_append] at hpre hnodup
      rw [eq_of_append_isPrefix hnodup hpre]

/-- A step of scan `i` shows it what follows some beginning of the list of children. -/
theorem ScanRun.step_cases [DecidableEq ι] (hdir : Directory L head children)
    (hinv : r.Inv head children) (hstep : r.step L i = some r') :
    ∃ l₁ l₂, children = l₁ ++ l₂ ∧
      (Complete children ((r.scans i).see l₂.head?) ↔
        Complete children (r.scans i) ∧ OwnChild i r) ∧
      r'.dnode.child = r.dnode.child ∧
      r'.dnode.currentChild = l₂.headD r.dnode.currentChild ∧
      r'.scans = update r.scans i ((r.scans i).see l₂.head?) := by
  simp only [step, Option.ite_none_left_eq_some, Option.some.injEq, Bool.not_eq_true] at hstep
  obtain ⟨hdone, rfl⟩ := hstep
  obtain ⟨l₁, l₂, rfl, hget, hfirst, hlast⟩ := hdir.getDataBlock_eq hinv hdone
  have hnodup := (nodup_cons.mp hdir.nodup).2
  have hsee := (complete_see_iff hnodup).trans (hinv.visited_eq_iff hnodup hdone hfirst hlast)
  rw [hget]
  exact ⟨l₁, l₂, rfl, hsee, rfl, rfl, rfl⟩

/-- Every step keeps the invariant. -/
theorem ScanRun.step_inv [DecidableEq ι] (hdir : Directory L head children)
    (hinv : r.Inv head children) (hstep : r.step L i = some r') : r'.Inv head children := by
  obtain ⟨l₁, l₂, rfl, -, hchild, hcurrent, hscans⟩ := step_cases hdir hinv hstep
  constructor
  · rw [hchild, hinv.child_eq]
  · intro j hj
    rw [hscans] at hj ⊢
    by_cases hji : j = i
    · subst hji
      rw [update_self] at hj
      cases l₂ <;> simp [Scan.see] at hj
    · rw [update_of_ne hji] at hj ⊢
      exact hinv.fresh j hj
  · intro j hj hj'
    rw [hscans] at hj hj' ⊢
    rw [hcurrent]
    by_cases hji : j = i
    · subst hji
      rw [update_self] at hj hj' ⊢
      cases l₂ with
      | nil => simp [Scan.see] at hj'
      | cons x l₂ => simp [Scan.see]
    · rw [update_of_ne hji] at hj hj' ⊢
      obtain ⟨hvisited, hmem⟩ := hinv.current j hj hj'
      refine ⟨hvisited, ?_⟩
      cases l₂ with
      | nil => exact hmem
      | cons x l₂ => simp

/-- All scans are complete after a step exactly when they were before it and the scan has
gone on from its own child. -/
theorem ScanRun.step_complete_iff [DecidableEq ι] (hdir : Directory L head children)
    (hinv : r.Inv head children) (hstep : r.step L i = some r') :
    (∀ j, Complete children (r'.scans j)) ↔
      (∀ j, Complete children (r.scans j)) ∧ OwnChild i r := by
  obtain ⟨l₁, l₂, -, hsee, -, -, hscans⟩ := step_cases hdir hinv hstep
  rw [hscans]
  constructor
  · intro hall
    have hi := hall i
    rw [update_self] at hi
    obtain ⟨hcomplete, hown⟩ := hsee.mp hi
    refine ⟨fun j => ?_, hown⟩
    by_cases hji : j = i
    · exact hji ▸ hcomplete
    · simpa only [update_of_ne hji] using hall j
  · rintro ⟨hall, hown⟩ j
    by_cases hji : j = i
    · subst hji
      rw [update_self]
      exact hsee.mpr ⟨hall j, hown⟩
    · rw [update_of_ne hji]
      exact hall j

omit [DecidableEq ν] in
theorem ScanRun.start_inv (dnode : DevfsNode ν) (children : List ν) :
    (ScanRun.start dnode : ScanRun ν ι).Inv dnode.child children where
  child_eq := rfl
  fresh := fun _ _ => ⟨rfl, rfl⟩
  current := nofun

/-- However the steps of the scans of one directory are interleaved, each scan visits the
children one after another, and all of them when it comes to its end, exactly when each
scan always goes on from the child that it has visited last. -/
theorem scans_complete_iff [DecidableEq ι] {L : Links ν} {dnode : DevfsNode ν}
    {children : List ν} (hdir : Directory L dnode.child children) {steps : List ι}
    {r : ScanRun ν ι} (hrun : Runs.run (ScanRun.step L) steps (ScanRun.start dnode) = some r) :
    (∀ i, Complete children (r.scans i)) ↔
      Runs.Meets (ScanRun.step L) OwnChild steps (ScanRun.start dnode) := by
  have hstart : (ScanRun.start dnode : ScanRun ν ι).Inv dnode.child children :=
    ScanRun.start_inv dnode children
  constructor
  · intro hall
    have hmeets := Runs.meets_of_good
      (G := fun s : ScanRun ν ι => ∀ j, Complete children (s.scans j))
      (fun i s s' hinv hs =>
        ⟨ScanRun.step_inv hdir hinv hs, (ScanRun.step_complete_iff hdir hinv hs).mp⟩)
      hstart hrun hall
    exact hmeets.2
  · intro hmeets
    let Good (s : ScanRun ν ι) : Prop :=
      s.Inv dnode.child children ∧ ∀ i, Complete children (s.scans i)
    have hgood : Good (ScanRun.start dnode) := ⟨hstart, fun _ => ⟨ nil_prefix, nofun⟩⟩
    have hkeep : ∀ i s s', Good s → OwnChild i s → s.step L i = some s' → Good s' := by
      rintro i s s' ⟨hinv, hall⟩ hown hs
      exact ⟨ScanRun.step_inv hdir hinv hs,
        (ScanRun.step_complete_iff hdir hinv hs).mpr ⟨hall, hown⟩⟩
    exact (Runs.invariant_of_meets hkeep hgood hmeets hrun).2

/-- The links of a directory with head 0 and the children 1 and 2. -/
def twoChildren : Links ℕ :=
  { next := fun n => (n + 1) % 3, pre := fun n => (n + 2) % 3 }

/-- The directory node with the head 0. -/
def twoChildrenNode : DevfsNode ℕ := { child := 0, list := 10, currentChild := 0 }

theorem twoChildren_directory : Directory twoChildren twoChildrenNode.child [1, 2] where
  path := by simp [Rings.Path, twoChildren, twoChildrenNode]
  nodup := by decide

/-- The theorem applies to one scan after the other. -/
theorem scans_complete_iff_twoChildren :
    ∃ r, Runs.run (ScanRun.step twoChildren) [true, true, true, false, false, false]
        (ScanRun.start twoChildrenNode) = some r ∧
      (r.scans true).done ∧ (r.scans false).done ∧ ∀ i, Complete [1, 2] (r.scans i) := by
  refine Runs.exists_some_imp (P := fun r => (r.scans true).done ∧ (r.scans false).done) (by decide)
    fun r hrun ⟨htrue, hfalse⟩ => ⟨htrue, hfalse, ?_⟩
  exact (scans_complete_iff twoChildren_directory hrun).mpr (by decide)

/-- When both scans have begun before one of them goes on, the other one misses the
second child. -/
theorem twoChildren_scan_misses :
    Directory twoChildren twoChildrenNode.child [1, 2] ∧
      (Runs.run (ScanRun.step twoChildren) [true, false, true, false]
        (ScanRun.start twoChildrenNode)).map
          (fun r => ((r.scans true).visited, (r.scans false).visited, (r.scans false).done)) =
        some ([1, 2], [1], true) :=
  ⟨twoChildren_directory, by decide⟩

/-- The characters of the field `name` of `struct devfs_node`, which need not be terminated. -/
def nameSize : ℕ := 31

/-- `devfs_find_file`, for the text that begins at the field `name` of a node. -/
def devfsFindFile (name text : CString) : ℤ :=
  if strncmp name text (strlen name) = 0 then 0 else -enoent

/-- The search for a component among the children of a directory. It is `none` when the
fuel does not last. -/
def devfsSearch (L : Links ν) (text : ν → CString) (name : CString) :
    ℕ → DevfsNode ν → VfsWhence → Option (Option ν)
  | 0, _, _ => none
  | fuel + 1, dnode, whence =>
    match devfsGetDataBlock L dtDir dnode whence with
    | (none, _) => some none
    | (some list, dnode) =>
      if devfsFindFile name (text list) = 0 then some (some list)
      else devfsSearch L text name fuel dnode .nextBlock

/-- A new directory in which the nodes are created one after another. -/
def register (L : Links ν) (child : ν) (nodes : List ν) : Links ν :=
  nodes.foldl (fun L list => listAddTail L child list) (initList L child)

theorem devfsFindFile_eq_zero_iff {name text : CString} :
    devfsFindFile name text = 0 ↔ name <+: text := by
  rw [← strncmp_strlen_eq_zero_iff]
  simp [devfsFindFile, enoent]

/-- The search goes on to the first of the remaining children that is found. -/
theorem Directory.devfsSearch_next (text : ν → CString) (name : CString)
    (hdir : Directory L head (l₁ ++ dnode.currentChild :: l₂)) (hchild : dnode.child = head) :
    devfsSearch L text name (l₂.length + 1) dnode .nextBlock =
      some (l₂.find? fun c => name <+: text c) := by
  induction l₂ generalizing l₁ dnode with
  | nil => simp [devfsSearch, hdir.see_next hchild rfl]
  | cons c l₂ ih =>
    rw [length_cons, devfsSearch, hdir.see_next hchild rfl]
    simp only [devfsFindFile_eq_zero_iff]
    split_ifs with hfound
    · rw [find?_cons_of_pos (by simpa using hfound)]
    · rw [find?_cons_of_neg (by simpa using hfound)]
      have hdir' : Directory L head ((l₁ ++ [dnode.currentChild]) ++ c :: l₂) := by simpa using hdir
      exact ih hdir' hchild

theorem Directory.devfsSearch_eq (hdir : Directory L dnode.child children) (text : ν → CString)
    (name : CString) :
    devfsSearch L text name (children.length + 1) dnode .startBlock =
      some (children.find? fun c => name <+: text c) := by
  rw [devfsSearch, hdir.see_first rfl]
  cases children with
  | nil => rfl
  | cons c rest =>
    simp only [devfsFindFile_eq_zero_iff]
    split_ifs with hfound
    · rw [find?_cons_of_pos (by simpa using hfound)]
    · rw [find?_cons_of_neg (by simpa using hfound)]
      have hdir' : Directory L dnode.child ([] ++ c :: rest) := hdir
      exact Directory.devfsSearch_next text name hdir' rfl

/-- The children of a new directory are the nodes in the order in which they are created. -/
theorem directory_register (L : Links ν) {child : ν} {nodes : List ν}
    (hnodup : (child :: nodes).Nodup) : Directory (register L child nodes) child nodes := by
  refine ⟨?_, hnodup⟩
  have hadd : ∀ l (L : Links ν), Path L child l child → (child :: (l ++ nodes)).Nodup →
      Path (nodes.foldl (fun L list => listAddTail L child list) L) child (l ++ nodes) child := by
    clear hnodup
    induction nodes with
    | nil => exact fun l L hpath _ => by simpa using hpath
    | cons c nodes ih =>
      intro l L hpath hnodup
      have hsplit : l ++ c :: nodes = l ++ [c] ++ nodes := by simp
      rw [hsplit] at hnodup ⊢
      have hfirst := (nodup_append.mp (cons_append ▸ hnodup : (child :: (l ++ [c]) ++ _).Nodup)).1
      rw [← cons_append, nodup_append_comm, singleton_append, nodup_cons] at hfirst
      exact ih (l ++ [c]) _ (hpath.insertBefore hfirst.2 hfirst.1) hnodup
  exact hadd [] _ (by simp [Rings.Path, initList, setNext, setPre]) hnodup

/-- In whatever order the nodes of a directory have been created, the search finds the node
with exactly the name, and nothing when there is none, exactly when no other text begins
with the name. -/
theorem devfsSearch_exact_iff (L : Links ν) {dnode : DevfsNode ν} {nodes : List ν}
    (hnodup : (dnode.child :: nodes).Nodup) {text : ν → CString}
    (hnames : (nodes.map fun c => (text c).take nameSize).Nodup) (name : CString) :
    (∀ order, order ~ nodes → ∃ found,
      devfsSearch (register L dnode.child order) text name (order.length + 1) dnode .startBlock =
        some found ∧ ∀ c, found = some c ↔ c ∈ nodes ∧ (text c).take nameSize = name) ↔
      ∀ c ∈ nodes, name <+: text c → (text c).take nameSize = name := by
  have hsearch : ∀ order, order ~ nodes →
      devfsSearch (register L dnode.child order) text name (order.length + 1) dnode .startBlock =
        some (order.find? fun c => name <+: text c) := fun order horder =>
    (directory_register L ((horder.cons _).nodup_iff.mpr hnodup)).devfsSearch_eq text name
  constructor
  · intro hall c hmem hprefix
    -- The node is found when it is created first.
    have horder := (perm_cons_erase hmem).symm
    obtain ⟨found, hfound, hexact⟩ := hall _ horder
    rw [hsearch _ horder, find?_cons_of_pos (by simpa using hprefix)] at hfound
    exact ((hexact c).mp (Option.some.inj hfound).symm).2
  · intro hother order horder
    refine ⟨_, hsearch order horder, fun c => ⟨fun hfound => ?_, ?_⟩⟩
    · have hmem := horder.mem_iff.mp (mem_of_find?_eq_some hfound)
      exact ⟨hmem, hother c hmem (by simpa using find?_some hfound)⟩
    · rintro ⟨hmem, hname⟩
      have hsome : (order.find? fun c => name <+: text c).isSome :=
        find?_isSome.mpr ⟨c, horder.mem_iff.mpr hmem, by simpa [← hname] using take_prefix _ _⟩
      obtain ⟨d, hfound⟩ := Option.isSome_iff_exists.mp hsome
      have hmem' := horder.mem_iff.mp (mem_of_find?_eq_some hfound)
      have hname' := hother d hmem' (by simpa using find?_some hfound)
      rw [hfound, inj_on_of_nodup_map hnames hmem' hmem (hname'.trans hname.symm)]

/-- The texts of two serial ports. -/
def ports (list : ℕ) : CString := if list = 1 then cstr "ttyS10" else cstr "ttyS1"

/-- The theorem applies to the name that is not the beginning of another one. -/
theorem devfsSearch_exact_iff_ports :
    ([1, 2].map fun c => (ports c).take nameSize).Nodup ∧
      ∀ order, order ~ [1, 2] → ∃ found,
        devfsSearch (register twoChildren 0 order) ports (cstr "ttyS10") (order.length + 1)
          twoChildrenNode .startBlock = some found ∧
        ∀ c, found = some c ↔ c ∈ [1, 2] ∧ (ports c).take nameSize = cstr "ttyS10" := by
  have hnodup : (twoChildrenNode.child :: [1, 2]).Nodup := by decide
  exact ⟨by decide, (devfsSearch_exact_iff twoChildren hnodup (by decide) _).mpr (by decide)⟩

/-- When `ttyS10` has been created first it is found for the name `ttyS1`. -/
theorem ports_search_prefix :
    ([1, 2].map fun c => (ports c).take nameSize).Nodup ∧
      (ports 2).take nameSize = cstr "ttyS1" ∧
      devfsSearch (register twoChildren 0 [1, 2]) ports (cstr "ttyS1") 3 twoChildrenNode .startBlock =
        some (some 1) := by
  decide

end Chunos.Devfs
