import Chunos.String
import Chunos.Fs.Vfs

/-!
# Looking up a path

`__get_file_fnode` walks along the components of a path. One file node is both the
directory it searches and the result: when a component is found, the file system fills
the node with what the component names. The function follows `fs/fnode.c`. The file
system is a parameter, as a table of operations on its part of the node. This file
compares the walk with the tree of directories: a flag that is not reset makes the walk
take a missing component for a found one.
-/

namespace Chunos.Lookup

open List Option

/-- `struct filesystem_ops`, with the operations of a lookup. The state `σ` is the file
node, and `β` is what a block of a directory is read into. A file system with the operation
`parse_name` rewrites the name in `findFile`. -/
structure LookupOps (σ β : Type*) where
  type : σ → ℕ
  getDataBlock : σ → VfsWhence → ℕ × σ
  readBlock : σ → ℕ → Except ℤ β
  findFile : CString → σ → β → ℤ × σ

/-- `INAME_NR`: the number of buffers for names. -/
def inameNr : ℕ := 8

/-- `INAME_SIZE`: the bytes of a buffer for a name. -/
def inameSize : ℕ := 512

/-- The bitmap of the name buffers in use. -/
abbrev Inames := Fin inameNr → Bool

/-- `get_iname_buffer`: take the first buffer that is not in use. -/
def getInameBuffer (inames : Inames) : Option (Fin inameNr × Inames) :=
  (Fin.find? fun i => !inames i).map fun i => (i, Function.update inames i true)

/-- `put_iname_buffer`. -/
def putInameBuffer (inames : Inames) (i : Fin inameNr) : Inames := Function.update inames i false

/-- `find_file_name`: the first component of a name and the pointer behind it. At the end
of the name there is none. -/
def findFileName (orgName : CString) : Option (CString × CString) :=
  if orgName = [] then none
  else
    match strchr orgName slash with
    | none => some (orgName, [])
    | some pos => some (orgName.take (strlen orgName - strlen pos), pos.tail)

/-- How the search for one component ends: a block cannot be read, the component has been
found and its type was tested, or there are no more blocks. -/
inductive ScanEnd (σ : Type*) where
  | failed (fnode : σ)
  | found (err : ℤ) (fnode : σ)
  | missed (fnode : σ)

section Operations

variable {σ β : Type*} (ops : LookupOps σ β)

/-- The inner loop of `__get_file_fnode`: search the blocks of a directory for a name. It
is `none` when the fuel does not last. -/
def scanBlocks (tname : CString) (type : ℕ) : ℕ → σ → ℕ → Option (ScanEnd σ)
  | 0, _, _ => none
  | fuel + 1, fnode, block =>
    match ops.readBlock fnode block with
    | .error _ => some (.failed fnode)
    | .ok buffer =>
      let (miss, fnode) := ops.findFile tname fnode buffer
      if miss = 0 then
        some (.found (if ops.type fnode &&& type ≠ ops.type fnode then -enotdir else 0) fnode)
      else
        let (block, fnode) := ops.getDataBlock fnode .nextBlock
        if block = 0 then some (.missed fnode) else scanBlocks tname type fuel fnode block

/-- The type that a component must have: a directory in front of other components or
with `O_DIRECTORY`. -/
def wantedType (flag : ℕ) (fname : CString) : ℕ :=
  if fname = [] then (if flag &&& oDirectory = oDirectory then dtDir else dtAny) else dtDir

/-- The outer loop of `__get_file_fnode`, with the result, the node and whether the buffer
for the name is given back. It is `none` when the fuel does not last or a component does
not fit into the buffer. -/
def lookupLoop (flag : ℕ) : ℕ → CString → Bool → σ → Option (ℤ × σ × Bool)
  | 0, _, _, _ => none
  | fuel + 1, fname, fileFind, fnode =>
    match findFileName fname with
    | none => some (0, fnode, true)
    | some (tname, fname) =>
      if inameSize ≤ strlen tname then none
      else
        let (block, fnode) := ops.getDataBlock fnode .startBlock
        if block = 0 then some (-enospc, fnode, false)
        else
          match scanBlocks ops tname (wantedType flag fname) fuel fnode block with
          | none => none
          | some (.failed fnode) => some (-eio, fnode, false)
          | some (.found err fnode) =>
            if err ≠ 0 then some (err, fnode, true) else lookupLoop flag fuel fname true fnode
          | some (.missed fnode) =>
            if fileFind then lookupLoop flag fuel fname fileFind fnode
            else some (-enoent, fnode, true)

/-- What `__get_file_fnode` leaves: the returned value, the node and the name buffers. -/
structure Looked (σ : Type*) where
  ret : ℤ
  fnode : σ
  inames : Inames

/-- `__get_file_fnode`. -/
def lookupFileFnode (fuel : ℕ) (name : CString) (fnode : σ) (flag : ℕ) (inames : Inames) :
    Option (Looked σ) :=
  match getInameBuffer inames with
  | none => some { ret := -eagain, fnode := fnode, inames := inames }
  | some (i, inames) =>
    (lookupLoop ops flag fuel name false fnode).map fun (err, fnode, put) =>
      { ret := err
        fnode := fnode
        inames := if put then putInameBuffer inames i else inames }

end Operations

/-- A file system that keeps a tree of directories with the nodes `ι`. A directory is a
list of blocks of entries, which are names and nodes. The relation `Describes` says that
a file node has just been filled for a node of the tree, and `OnBlock` that a walk over a
directory has come to one of its blocks. -/
structure DirWalk {σ β : Type*} (ops : LookupOps σ β) (ι : Type*) where
  type : ι → ℕ
  blocks : ι → List (List (CString × ι))
  Describes : σ → ι → Prop
  OnBlock : σ → ℕ → ι → ℕ → Prop
  type_eq : ∀ s i, Describes s i → ops.type s = type i ∧ type i ≠ 0 ∧ type i < 256
  start_block : ∀ s i, Describes s i → type i = dtDir →
    ((ops.getDataBlock s .startBlock).1 ≠ 0 ↔ blocks i ≠ []) ∧
    (blocks i ≠ [] →
      OnBlock (ops.getDataBlock s .startBlock).2 (ops.getDataBlock s .startBlock).1 i 0)
  next_block : ∀ s b i c, OnBlock s b i c →
    ((ops.getDataBlock s .nextBlock).1 ≠ 0 ↔ c + 1 < (blocks i).length) ∧
    (c + 1 < (blocks i).length →
      OnBlock (ops.getDataBlock s .nextBlock).2 (ops.getDataBlock s .nextBlock).1 i (c + 1))
  find_file : ∀ s b i c, OnBlock s b i c → ∃ entries buffer, (blocks i)[c]? = some entries ∧
    ops.readBlock s b = .ok buffer ∧ ∀ name ≠ [],
      (∀ e, entries.find? (fun e => e.1 = name) = some e →
        (ops.findFile name s buffer).1 = 0 ∧ Describes (ops.findFile name s buffer).2 e.2) ∧
      (entries.find? (fun e => e.1 = name) = none →
        (ops.findFile name s buffer).1 ≠ 0 ∧ (ops.findFile name s buffer).2 = s)
  name_lt : ∀ s i, Describes s i → type i = dtDir →
    ∀ entries ∈ blocks i, ∀ e ∈ entries, e.1.length < inameSize

/-- The components of a path: they are not empty and contain no separator. -/
def IsComponent (name : CString) : Prop := name ≠ [] ∧ slash ∉ name

/-- The path with the given components. -/
def joinPath : List CString → CString
  | [] => []
  | [name] => name
  | name :: rest => name ++ slash :: joinPath rest

/-- The components between the slashes of a path. A slash at the end adds none. -/
def components (path : CString) : List CString :=
  let names := path.splitOn slash
  if names.getLast? = some [] then names.dropLast else names

/-- What a path leads to: a node, nothing because a component is missing, or nothing
because a component has not the type it must have. -/
inductive Outcome (ι : Type*) where
  | found (i : ι)
  | missing
  | notDir
deriving DecidableEq, Repr

section Walk

variable {σ β ι : Type*} {ops : LookupOps σ β}

/-- What a name stands for in a directory. -/
def DirWalk.child (w : DirWalk ops ι) (i : ι) (name : CString) : Option ι :=
  ((w.blocks i).flatten.find? fun e => e.1 = name).map Prod.snd

/-- Whether a node may stand at its place in a path: a directory is required in front of
other components, and for the last one with `O_DIRECTORY`. -/
def DirWalk.Admissible (w : DirWalk ops ι) (flag : ℕ) (last : Bool) (i : ι) : Prop :=
  (last = false ∨ flag &&& oDirectory = oDirectory) → w.type i = dtDir

instance (w : DirWalk ops ι) (flag : ℕ) (last : Bool) (i : ι) :
    Decidable (w.Admissible flag last i) :=
  inferInstanceAs (Decidable (_ → _))

/-- What the path with the given components leads to from a directory. -/
def DirWalk.resolve (w : DirWalk ops ι) (flag : ℕ) : ι → List CString → Outcome ι
  | i, [] => .found i
  | i, name :: rest =>
    match w.child i name with
    | none => .missing
    | some j =>
      if w.Admissible flag rest.isEmpty j then w.resolve flag j rest else .notDir

/-- What `__get_file_fnode` should leave for the outcome of a path. -/
def DirWalk.Right (w : DirWalk ops ι) (ret : ℤ) (fnode : σ) : Outcome ι → Prop
  | .found i => ret = 0 ∧ w.Describes fnode i
  | .missing => ret = -enoent
  | .notDir => ret ≠ 0

/-- The operations are those of the tree, but only some blocks of directories can be read. -/
def DirWalk.Faulty (w : DirWalk ops ι) (ops' : LookupOps σ β) (readable : ι → ℕ → Prop) : Prop :=
  ∃ read, ops' = { ops with readBlock := read } ∧ ∀ s b i c, w.OnBlock s b i c →
    (readable i c → read s b = ops.readBlock s b) ∧ (¬ readable i c → ∃ err, read s b = .error err)

/-- Whether `find_file` finds the entries with this name. -/
def DirWalk.Finds (w : DirWalk ops ι) (name : CString) : Prop :=
  ∀ s b i c, w.OnBlock s b i c → ∃ entries buffer, (w.blocks i)[c]? = some entries ∧
    ops.readBlock s b = .ok buffer ∧
    (∀ e, entries.find? (fun e => e.1 = name) = some e →
      (ops.findFile name s buffer).1 = 0 ∧ w.Describes (ops.findFile name s buffer).2 e.2) ∧
    (entries.find? (fun e => e.1 = name) = none →
      (ops.findFile name s buffer).1 ≠ 0 ∧ (ops.findFile name s buffer).2 = s)

theorem DirWalk.finds (w : DirWalk ops ι) {name : CString} (hname : name ≠ []) : w.Finds name := by
  intro s b i c hblock
  obtain ⟨entries, buffer, hentries, hread, hfind⟩ := w.find_file s b i c hblock
  exact ⟨entries, buffer, hentries, hread, hfind name hname⟩

/-- The search for a name in a directory comes to this block. -/
def DirWalk.Searches (w : DirWalk ops ι) (i : ι) (name : CString) (c : ℕ) : Prop :=
  c < (w.blocks i).length ∧ ∀ e ∈ ((w.blocks i).take c).flatten, e.1 ≠ name

/-- All blocks on the way along the components can be read. -/
def DirWalk.ReadsWay (w : DirWalk ops ι) (readable : ι → ℕ → Prop) : ι → List CString → Prop
  | _, [] => True
  | i, name :: rest => (∀ c, w.Searches i name c → readable i c) ∧
      ∀ j, w.child i name = some j → w.ReadsWay readable j rest

theorem components_append_cons {name : CString} (hname : slash ∉ name) (rest : CString) :
    components (name ++ slash :: rest) = name :: components rest := by
  have hrest := splitOn_ne_nil slash rest
  simp only [components, splitOn_append_cons_self_of_not_mem hname, dropLast_cons_of_ne_nil hrest,
    getLast?_cons, getLast?_eq_some_getLast hrest, getD_some]
  split_ifs <;> rfl

theorem components_eq_singleton {name : CString} (hname : slash ∉ name) (hne : name ≠ []) :
    components name = [name] := by
  simp [components, splitOn_eq_singleton hname, hne]

/-- `find_file_name` takes the first component off a path. -/
theorem findFileName_eq {fname : CString} (hne : fname ≠ []) :
    ∃ name rest, findFileName fname = some (name, rest) ∧
      components fname = name :: components rest ∧ slash ∉ name ∧
      (fname = name ++ slash :: rest ∨ fname = name ∧ rest = []) := by
  by_cases hslash : slash ∈ fname
  · obtain ⟨name, rest, rfl, hname⟩ := eq_append_cons_of_mem hslash
    refine ⟨name, rest, ?_, components_append_cons hname rest, hname, .inl rfl⟩
    simp [findFileName, strchr_append_cons hname, strlen]
  · refine ⟨fname, [], ?_, components_eq_singleton hslash hne, hslash, .inr ⟨rfl, rfl⟩⟩
    simp [findFileName, hne, strchr_eq_none hslash]

theorem components_eq_nil_iff {fname : CString} : components fname = [] ↔ fname = [] := by
  refine ⟨fun h => ?_, fun h => by rw [h]; rfl⟩
  by_contra hne
  obtain ⟨name, rest, -, hcomponents, -⟩ := findFileName_eq hne
  rw [h] at hcomponents
  cases hcomponents

theorem components_joinPath {path : List CString} (hpath : ∀ c ∈ path, IsComponent c) :
    components (joinPath path) = path := by
  induction path with
  | nil => rfl
  | cons name rest ih =>
    obtain ⟨⟨hne, hname⟩, hrest⟩ := forall_mem_cons.mp hpath
    cases rest with
    | nil => exact components_eq_singleton hname hne
    | cons r rest => exact (components_append_cons hname _).trans (congrArg _ (ih hrest))

/-- The test of the type accepts the nodes that may stand at their place. -/
theorem DirWalk.type_test_iff (w : DirWalk ops ι) (flag : ℕ) (fname : CString) {s : σ} {j : ι}
    (hdesc : w.Describes s j) : ops.type s &&& wantedType flag fname = ops.type s ↔
      w.Admissible flag (components fname).isEmpty j := by
  obtain ⟨htype, hne, hlt⟩ := w.type_eq s j hdesc
  have hany : ∀ t < 256, t &&& dtAny = t := by
    intro t ht
    have hmask : dtAny = 2 ^ 8 - 1 := rfl
    rw [hmask, Nat.and_two_pow_sub_one_eq_mod, Nat.mod_eq_of_lt ht]
  have hdir : ∀ t < 256, t ≠ 0 → (t &&& dtDir = t ↔ t = dtDir) := by decide +kernel
  simp only [htype, wantedType, Admissible, isEmpty_eq_false_iff, ne_eq, components_eq_nil_iff]
  by_cases hlast : fname = []
  · by_cases hflag : flag &&& oDirectory = oDirectory
    · simp [hlast, hflag, hdir _ hlt hne]
    · simp [hlast, hflag, hany _ hlt]
  · simp [hlast, hdir _ hlt hne]

end Walk

section Loops

variable {σ β ι : Type*} {ops : LookupOps σ β}

variable {i : ι} {name : CString} {s : σ} {inames : Inames}

variable {b fuel flag : ℕ}

variable {ops' : LookupOps σ β} {readable : ι → ℕ → Prop}

/-- What a name that is not in front of a block stands for. -/
theorem DirWalk.child_eq (w : DirWalk ops ι) {c : ℕ} {entries : List (CString × ι)}
    (hentries : (w.blocks i)[c]? = some entries)
    (hbefore : ∀ e ∈ ((w.blocks i).take c).flatten, e.1 ≠ name) :
    w.child i name = ((entries.find? fun e => e.1 = name).or
      (((w.blocks i).drop (c + 1)).flatten.find? fun e => e.1 = name)).map Prod.snd := by
  obtain ⟨hc, hget⟩ := List.getElem?_eq_some_iff.mp hentries
  have hsplit : (w.blocks i).flatten =
      ((w.blocks i).take c).flatten ++ (entries ++ ((w.blocks i).drop (c + 1)).flatten) := by
    rw [← flatten_cons, ← flatten_append, ← hget, ← drop_eq_getElem_cons hc, take_append_drop]
  have hnone : ((w.blocks i).take c).flatten.find? (fun e => e.1 = name) = none :=
    find?_eq_none.mpr fun e he => by simpa using hbefore e he
  rw [child, hsplit, find?_append, find?_append, hnone, none_or]

/-- From a block on, the inner loop finds the first entry with the name in the blocks that
remain, and misses a name that is in none of them. It fails at a block that cannot be read. -/
theorem DirWalk.scanBlocks_spec (w : DirWalk ops ι) (hops : w.Faulty ops' readable)
    (hfinds : w.Finds name) (type : ℕ) {c : ℕ} (hblock : w.OnBlock s b i c)
    (hfuel : (w.blocks i).length ≤ c + fuel)
    (hbefore : ∀ e ∈ ((w.blocks i).take c).flatten, e.1 ≠ name) :
    ((∀ c', w.Searches i name c' → readable i c') →
      (∀ j, w.child i name = some j → ∃ s', scanBlocks ops' name type fuel s b =
          some (.found (if ops.type s' &&& type ≠ ops.type s' then -enotdir else 0) s') ∧
        w.Describes s' j) ∧
      (w.child i name = none → ∃ s', scanBlocks ops' name type fuel s b = some (.missed s'))) ∧
    (∀ c' ≥ c, w.Searches i name c' → ¬ readable i c' →
      ∃ s', scanBlocks ops' name type fuel s b = some (.failed s')) := by
  obtain ⟨read, rfl, hreads⟩ := hops
  induction fuel generalizing s b c with
  | zero =>
    obtain ⟨entries, -, hentries, -⟩ := hfinds s b i c hblock
    have hc := (List.getElem?_eq_some_iff.mp hentries).1
    omega
  | succ fuel ih =>
    obtain ⟨entries, buffer, hentries, hread, hhit, hmiss⟩ := hfinds s b i c hblock
    obtain ⟨hnext, hnext'⟩ := w.next_block s b i c hblock
    obtain ⟨hgood, hbad⟩ := hreads s b i c hblock
    by_cases hreadable : readable i c
    · have hchild := w.child_eq hentries hbefore
      have hbehind : ∀ c' ≥ c, ¬ readable i c' → c + 1 ≤ c' := fun c' hle hnot =>
        lt_of_le_of_ne hle fun h => hnot (h ▸ hreadable)
      simp only [scanBlocks, hgood hreadable, hread, hchild]
      cases hentry : entries.find? fun e => e.1 = name with
      | some e =>
        obtain ⟨hzero, hdesc⟩ := hhit e hentry
        simp only [hzero, if_true, some_or, map_some, some.injEq, forall_eq', reduceCtorEq,
          false_implies, and_true]
        refine ⟨fun _ => ⟨_, rfl, hdesc⟩, fun c' hle hsearch hnot => ?_⟩
        -- A later block is not searched, because the name is in this one.
        refine absurd (by simpa using find?_some hentry) (hsearch.2 e (mem_flatten.mpr
          ⟨entries, ?_, mem_of_find?_eq_some hentry⟩))
        exact mem_of_getElem? ((getElem?_take_of_lt (hbehind c' hle hnot)).trans hentries)
      | none =>
        obtain ⟨hnonzero, hsame⟩ := hmiss hentry
        simp only [hnonzero, if_false, hsame, none_or]
        by_cases hlast : c + 1 < (w.blocks i).length
        · have hbefore' : ∀ e ∈ ((w.blocks i).take (c + 1)).flatten, e.1 ≠ name := by
            intro e he
            rw [take_add_one, hentries, flatten_append, mem_append] at he
            rcases he with he | he
            · exact hbefore e he
            · simpa using find?_eq_none.mp hentry e (by simpa using he)
          have hrest := ih (hnext' hlast) (by omega) hbefore'
          rw [hchild, hentry, none_or] at hrest
          rw [if_neg (hnext.mpr hlast)]
          exact ⟨hrest.1, fun c' hle hsearch hnot => hrest.2 c' (hbehind c' hle hnot) hsearch hnot⟩
        · have hdrop : (w.blocks i).drop (c + 1) = [] := drop_eq_nil_of_le (by omega)
          have hend : (ops.getDataBlock s .nextBlock).1 = 0 := by
            by_contra hne
            exact hlast (hnext.mp hne)
          rw [if_pos hend, hdrop]
          refine ⟨fun _ => ⟨nofun, fun _ => ⟨_, rfl⟩⟩, fun c' hle hsearch hnot => ?_⟩
          exact absurd ((hbehind c' hle hnot).trans_lt hsearch.1) hlast
    · obtain ⟨err, herr⟩ := hbad hreadable
      simp only [scanBlocks, herr]
      have hc := (List.getElem?_eq_some_iff.mp hentries).1
      exact ⟨fun hall => absurd (hall c ⟨hc, hbefore⟩) hreadable, fun _ _ _ _ => ⟨_, rfl⟩⟩

theorem scanBlocks_mono {type fuel' : ℕ} (hle : fuel ≤ fuel') {r : ScanEnd σ}
    (h : scanBlocks ops name type fuel s b = some r) :
    scanBlocks ops name type fuel' s b = some r := by
  induction fuel generalizing s b fuel' with
  | zero => simp [scanBlocks] at h
  | succ fuel ih =>
    obtain ⟨fuel', rfl⟩ : ∃ k, fuel' = k + 1 := ⟨fuel' - 1, by omega⟩
    simp only [scanBlocks] at h ⊢
    cases hread : ops.readBlock s b with
    | error e => simpa only [hread] using h
    | ok buffer =>
      simp only [hread] at h ⊢
      split_ifs at h ⊢
      · exact h
      · exact h
      · exact h
      · exact ih (by omega) h

/-- The inner loop ends a search that succeeds with 0 or `-ENOTDIR`. -/
theorem scanBlocks_found {type : ℕ} {s' : σ} {err : ℤ}
    (h : scanBlocks ops name type fuel s b = some (.found err s')) : err = 0 ∨ err = -enotdir := by
  induction fuel generalizing s b with
  | zero => simp [scanBlocks] at h
  | succ fuel ih =>
    simp only [scanBlocks] at h
    cases hread : ops.readBlock s b with
    | error e => simp [hread] at h
    | ok buffer =>
      simp only [hread] at h
      split_ifs at h with hhit htype hend
      · cases h
        exact .inr rfl
      · cases h
        exact .inl rfl
      · cases h
      · exact ih h

/-- Once a component has been found, no missing component is reported. -/
theorem lookupLoop_ne_enoent {fname : CString} {r : ℤ × σ × Bool}
    (h : lookupLoop ops flag fuel fname true s = some r) : r.1 ≠ -enoent := by
  have hzero : 0 ≠ -enoent := by decide
  have hspc : -enospc ≠ -enoent := by decide
  have hio : -eio ≠ -enoent := by decide
  have hdir : -enotdir ≠ -enoent := by decide
  induction fuel generalizing fname s with
  | zero => simp [lookupLoop] at h
  | succ fuel ih =>
    simp only [lookupLoop] at h
    cases hname : findFileName fname with
    | none =>
      simp only [hname, some.injEq] at h
      rw [← h]
      exact hzero
    | some p =>
      simp only [hname] at h
      split_ifs at h with hlong hblock
      · cases h
        exact hspc
      · cases hscan : scanBlocks ops p.1 (wantedType flag p.2) fuel
            (ops.getDataBlock s .startBlock).2 (ops.getDataBlock s .startBlock).1 with
        | none => simp [hscan] at h
        | some result =>
          cases result with
          | failed s' =>
            simp only [hscan, some.injEq] at h
            rw [← h]
            exact hio
          | found err s' =>
            simp only [hscan] at h
            split_ifs at h with herr
            · cases h
              rcases scanBlocks_found hscan with rfl | rfl
              · exact absurd rfl herr
              · exact hdir
            · exact ih h
          | missed s' =>
            simp only [hscan] at h
            exact ih h

/-- A component that is found: the loop goes on with the rest of the path from its node,
or ends with `-ENOTDIR`. It ends with `-EIO` at a block that cannot be read. -/
theorem DirWalk.lookupLoop_hit (w : DirWalk ops ι) (flag : ℕ) (hops : w.Faulty ops' readable)
    {fname rest : CString} (hfirst : findFileName fname = some (name, rest))
    (hfinds : w.Finds name) {j : ι} (hdesc : w.Describes s i) (hdir : w.type i = dtDir)
    (hchild : w.child i name = some j) (fileFind : Bool) :
    ((∀ c, w.Searches i name c → readable i c) → ∃ s' n, w.Describes s' j ∧ ∀ fuel ≥ n,
      lookupLoop ops' flag (fuel + 1) fname fileFind s =
        if w.Admissible flag (components rest).isEmpty j then lookupLoop ops' flag fuel rest true s'
        else some (-enotdir, s', true)) ∧
    (∀ c, w.Searches i name c → ¬ readable i c → ∃ s' n, ∀ fuel ≥ n,
      lookupLoop ops' flag (fuel + 1) fname fileFind s = some (-eio, s', false)) := by
  obtain ⟨e, hfind, rfl⟩ := map_eq_some_iff.mp hchild
  obtain ⟨entries, hentries, he⟩ := mem_flatten.mp (mem_of_find?_eq_some hfind)
  have hshort : ¬ inameSize ≤ strlen name := by
    have hlt := w.name_lt s i hdesc hdir entries hentries e he
    have heq : e.1 = name := by simpa using find?_some hfind
    rw [← heq]
    exact Nat.not_le.mpr hlt
  have hblocks : w.blocks i ≠ [] := ne_nil_of_mem hentries
  obtain ⟨hstart, hon⟩ := w.start_block s i hdesc hdir
  obtain ⟨hgood, hbad⟩ := w.scanBlocks_spec hops hfinds (wantedType flag rest) (hon hblocks)
    (Nat.le_add_left _ 0) (by simp)
  obtain ⟨read, rfl, -⟩ := hops
  constructor
  · intro hall
    obtain ⟨s', hscan, hdesc'⟩ := (hgood hall).1 _ hchild
    refine ⟨s', (w.blocks i).length, hdesc', fun fuel hfuel => ?_⟩
    simp only [lookupLoop, hfirst, hshort, if_false, if_neg (hstart.mpr hblocks),
      scanBlocks_mono hfuel hscan]
    have htype := w.type_test_iff flag rest hdesc'
    by_cases hadm : w.Admissible flag (components rest).isEmpty e.2
    · simp [htype.mpr hadm, hadm]
    · have hdir' : -enotdir ≠ 0 := by decide
      simp [mt htype.mp hadm, hadm, hdir']
  · intro c hsearch hnot
    obtain ⟨s', hscan⟩ := hbad c (Nat.zero_le c) hsearch hnot
    refine ⟨s', (w.blocks i).length, fun fuel hfuel => ?_⟩
    simp only [lookupLoop, hfirst, hshort, if_false, if_neg (hstart.mpr hblocks),
      scanBlocks_mono hfuel hscan]

/-- From a directory, a path that leads to a node ends there, and one that fails at a type
ends with `-ENOTDIR`, when all blocks on the way can be read. Otherwise a path that leads to a
node ends with `-EIO`. -/
theorem DirWalk.lookupLoop_resolve (w : DirWalk ops ι) (flag : ℕ) (hops : w.Faulty ops' readable)
    {fname : CString} (hfinds : ∀ c ∈ components fname, w.Finds c) (hdesc : w.Describes s i)
    (hdir : fname ≠ [] → w.type i = dtDir) (fileFind : Bool) :
    ∃ n, ∀ fuel ≥ n, (w.ReadsWay readable i (components fname) →
      (∀ j, w.resolve flag i (components fname) = .found j → ∃ s',
        lookupLoop ops' flag fuel fname fileFind s = some (0, s', true) ∧ w.Describes s' j) ∧
      (w.resolve flag i (components fname) = .notDir → ∃ s',
        lookupLoop ops' flag fuel fname fileFind s = some (-enotdir, s', true))) ∧
    (¬ w.ReadsWay readable i (components fname) →
      ∀ j, w.resolve flag i (components fname) = .found j → ∃ s',
        lookupLoop ops' flag fuel fname fileFind s = some (-eio, s', false)) := by
  induction hpath : components fname generalizing fname s i fileFind with
  | nil =>
    obtain rfl := components_eq_nil_iff.mp hpath
    refine ⟨1, fun fuel hfuel => ⟨fun _ => ⟨fun j hj => ?_, nofun⟩, fun h => absurd trivial h⟩⟩
    obtain ⟨fuel, rfl⟩ : ∃ k, fuel = k + 1 := ⟨fuel - 1, by omega⟩
    obtain rfl := Outcome.found.inj hj
    exact ⟨s, rfl, hdesc⟩
  | cons name path ih =>
    have hne : fname ≠ [] := fun h => by simp [components_eq_nil_iff.mpr h] at hpath
    obtain ⟨name', rest, hfirst, hcomponents, -⟩ := findFileName_eq hne
    rw [hcomponents] at hpath hfinds
    obtain ⟨rfl, rfl⟩ := cons.inj hpath
    obtain ⟨hfind, hfinds'⟩ := forall_mem_cons.mp hfinds
    simp only [resolve, ReadsWay]
    cases hchild : w.child i name' with
    | none => exact ⟨0, fun fuel _ => ⟨fun _ => ⟨nofun, nofun⟩, fun _ => nofun⟩⟩
    | some j =>
      obtain ⟨hgood, hbad⟩ := w.lookupLoop_hit flag hops hfirst hfind hdesc (hdir hne) hchild fileFind
      by_cases hall : ∀ c, w.Searches i name' c → readable i c
      · simp only [and_iff_right hall, some.injEq, forall_eq']
        obtain ⟨s', n, hdesc', hstep⟩ := hgood hall
        by_cases hadm : w.Admissible flag (components rest).isEmpty j
        · have hdir' : rest ≠ [] → w.type j = dtDir := fun h =>
            hadm (.inl (by simpa [components_eq_nil_iff] using h))
          obtain ⟨n', hn'⟩ := ih hfinds' hdesc' hdir' true rfl
          refine ⟨max n n' + 1, fun fuel hfuel => ?_⟩
          obtain ⟨fuel, rfl⟩ : ∃ k, fuel = k + 1 := ⟨fuel - 1, by omega⟩
          have hfuel' := hstep fuel (by omega)
          rw [if_pos hadm] at hfuel'
          simp only [hadm, if_true, hfuel']
          exact hn' fuel (by omega)
        · refine ⟨n + 1, fun fuel hfuel => ?_⟩
          obtain ⟨fuel, rfl⟩ : ∃ k, fuel = k + 1 := ⟨fuel - 1, by omega⟩
          have hfuel' := hstep fuel (by omega)
          rw [if_neg hadm] at hfuel'
          simp only [hadm, if_false, hfuel']
          exact ⟨fun _ => ⟨nofun, fun _ => ⟨s', rfl⟩⟩, fun _ => nofun⟩
      · obtain ⟨c, hsearch, hnot⟩ : ∃ c, w.Searches i name' c ∧ ¬ readable i c := by
          simpa using hall
        obtain ⟨s', n, hstep⟩ := hbad c hsearch hnot
        refine ⟨n + 1, fun fuel hfuel => ⟨fun h => absurd h.1 hall, fun _ _ _ => ⟨s', ?_⟩⟩⟩
        obtain ⟨fuel, rfl⟩ : ∃ k, fuel = k + 1 := ⟨fuel - 1, by omega⟩
        exact hstep fuel (by omega)

theorem DirWalk.faulty_self (w : DirWalk ops ι) : w.Faulty ops fun _ _ => True :=
  ⟨ops.readBlock, rfl, fun _ _ _ _ _ => ⟨fun _ => rfl, fun h => absurd trivial h⟩⟩

theorem DirWalk.readsWay_true (w : DirWalk ops ι) (i : ι) (path : List CString) :
    w.ReadsWay (fun _ _ => True) i path := by
  induction path generalizing i with
  | nil => trivial
  | cons name rest ih => exact ⟨fun _ _ => trivial, fun j _ => ih j⟩

/-- There is a name buffer that is not in use. -/
def InameFree (inames : Inames) : Prop := ∃ i, inames i = false

/-- The lookups that `__get_file_fnode` gets right: one that reaches its end needs a name
buffer, and a component that is missing has to be the first one, in a directory with a
block, and to fit into the buffer. -/
def DirWalk.Reliable (w : DirWalk ops ι) (flag : ℕ) (root : ι) (path : List CString)
    (inames : Inames) : Prop :=
  match w.resolve flag root path with
  | .found _ => InameFree inames
  | .notDir => True
  | .missing => InameFree inames ∧ w.blocks root ≠ [] ∧
      ∀ name ∈ path.head?, w.child root name = none ∧ name.length < inameSize

/-- With enough fuel, `__get_file_fnode` returns what the outcome of the path calls for. -/
def DirWalk.LooksUp (w : DirWalk ops ι) (flag : ℕ) (root : ι) (path : List CString)
    (fnode : σ) (inames : Inames) : Prop :=
  ∃ n, ∀ fuel ≥ n, ∃ r, lookupFileFnode ops fuel (joinPath path) fnode flag inames = some r ∧
    w.Right r.ret r.fnode (w.resolve flag root path)

theorem lookupFileFnode_of_full (hfull : ¬ InameFree inames) (fuel : ℕ) (name : CString) (fnode : σ)
    (flag : ℕ) :
    lookupFileFnode ops fuel name fnode flag inames =
      some { ret := -eagain, fnode := fnode, inames := inames } := by
  have hfind : (Fin.find? fun i => !inames i) = none := by
    rw [Fin.find?_eq_none_iff]
    intro i
    by_contra h
    exact hfull ⟨i, by simpa using h⟩
  simp only [lookupFileFnode, getInameBuffer, hfind, map_none]

variable (ops) in
theorem lookupFileFnode_of_free (hfree : InameFree inames) (fuel : ℕ) (name : CString) (fnode : σ)
    (flag : ℕ) :
    (lookupFileFnode ops fuel name fnode flag inames).map (fun r => (r.ret, r.fnode)) =
      (lookupLoop ops flag fuel name false fnode).map (fun r => (r.1, r.2.1)) := by
  obtain ⟨i, hi⟩ := hfree
  cases hfind : Fin.find? fun i => !inames i with
  | none =>
    have h := Fin.find?_eq_none_iff.mp hfind i
    simp [hi] at h
  | some k =>
    simp only [lookupFileFnode, getInameBuffer, hfind, map_some, Option.map_map]
    rfl

/-- With a free name buffer, what the loop leaves decides whether the result is right. -/
theorem DirWalk.looksUp_iff_of_free (w : DirWalk ops ι) {root : ι} {path : List CString} {fnode : σ}
    (hfree : InameFree inames) :
    w.LooksUp flag root path fnode inames ↔
      ∃ n, ∀ fuel ≥ n, ∃ r, lookupLoop ops flag fuel (joinPath path) false fnode = some r ∧
        w.Right r.1 r.2.1 (w.resolve flag root path) := by
  have hfuel : ∀ fuel,
      (∃ r, lookupFileFnode ops fuel (joinPath path) fnode flag inames = some r ∧
        w.Right r.ret r.fnode (w.resolve flag root path)) ↔
      ∃ r, lookupLoop ops flag fuel (joinPath path) false fnode = some r ∧
        w.Right r.1 r.2.1 (w.resolve flag root path) := by
    intro fuel
    have hmap := lookupFileFnode_of_free ops hfree fuel (joinPath path) fnode flag
    constructor
    · rintro ⟨r, hr, hright⟩
      rw [hr] at hmap
      obtain ⟨r', hr', heq⟩ := map_eq_some_iff.mp hmap.symm
      obtain ⟨hret, hnode⟩ := Prod.mk.inj heq
      exact ⟨r', hr', by rw [hret, hnode]; exact hright⟩
    · rintro ⟨r, hr, hright⟩
      rw [hr] at hmap
      obtain ⟨r', hr', heq⟩ := map_eq_some_iff.mp hmap
      obtain ⟨hret, hnode⟩ := Prod.mk.inj heq
      exact ⟨r', hr', by rw [hret, hnode]; exact hright⟩
  simp only [LooksUp, hfuel]

/-- A path with a missing component is looked up right only when it is the first one. -/
theorem DirWalk.looksUp_missing_iff (w : DirWalk ops ι) {root : ι} {rest : List CString}
    (hpath : ∀ c ∈ name :: rest, IsComponent c) {fnode : σ} (hdesc : w.Describes fnode root)
    (hdir : w.type root = dtDir) (hfree : InameFree inames)
    (hmissing : w.resolve flag root (name :: rest) = .missing) :
    w.LooksUp flag root (name :: rest) fnode inames ↔
      w.blocks root ≠ [] ∧ w.child root name = none ∧ name.length < inameSize := by
  have hpath' := components_joinPath hpath
  have hne : joinPath (name :: rest) ≠ [] := fun h => by simp [components_eq_nil_iff.mpr h] at hpath'
  obtain ⟨name', rest', hfirst, hcomponents, -⟩ := findFileName_eq hne
  obtain ⟨rfl, rfl⟩ := cons.inj (hpath'.symm.trans hcomponents)
  have hfinds := w.finds (hpath _ mem_cons_self).1
  rw [w.looksUp_iff_of_free hfree, hmissing]
  constructor
  · rintro ⟨n, hn⟩
    cases hchild : w.child root name with
    | some j =>
      -- The first component is found, so no missing component is reported any more.
      simp only [resolve, hchild] at hmissing
      obtain ⟨s', n', -, hstep⟩ := (w.lookupLoop_hit flag w.faulty_self hfirst hfinds hdesc hdir
        hchild false).1 fun _ _ => trivial
      obtain ⟨r, hr, hright⟩ := hn (max n n' + 1) (by omega)
      rw [hstep _ (by omega)] at hr
      split_ifs at hmissing hr with hadm
      exact absurd hright (lookupLoop_ne_enoent hr)
    | none =>
      obtain ⟨r, hr, hright⟩ := hn (n + 1) (by omega)
      have hspc : -enospc ≠ -enoent := by decide
      have hlong : ¬ inameSize ≤ strlen name := by
        intro h
        simp [lookupLoop, hfirst, h] at hr
      have hblock : (ops.getDataBlock fnode .startBlock).1 ≠ 0 := by
        intro h
        simp only [lookupLoop, hfirst, hlong, h, if_false, if_true, some.injEq] at hr
        rw [← hr] at hright
        exact hspc hright
      have hblocks := (w.start_block fnode root hdesc hdir).1.mp hblock
      exact ⟨hblocks, rfl, Nat.not_le.mp hlong⟩
  · rintro ⟨hblocks, hchild, hshort⟩
    have hshort' : ¬ inameSize ≤ strlen name := Nat.not_le.mpr hshort
    obtain ⟨hstart, hon⟩ := w.start_block fnode root hdesc hdir
    obtain ⟨s', hscan⟩ := ((w.scanBlocks_spec w.faulty_self hfinds (wantedType flag rest')
      (hon hblocks) (Nat.le_add_left _ 0) (by simp)).1 fun _ _ => trivial).2 hchild
    refine ⟨(w.blocks root).length + 1, fun fuel hfuel => ?_⟩
    obtain ⟨fuel, rfl⟩ : ∃ k, fuel = k + 1 := ⟨fuel - 1, by omega⟩
    simp only [lookupLoop, hfirst, hshort', if_false, if_neg (hstart.mpr hblocks),
      scanBlocks_mono (Nat.le_of_succ_le_succ hfuel) hscan]
    exact ⟨_, rfl, rfl⟩

/-- In every tree of directories and for every path, `__get_file_fnode` returns what the
path calls for exactly when the lookup is one of the reliable ones. -/
theorem DirWalk.looksUp_iff_reliable (w : DirWalk ops ι) {flag : ℕ} {root : ι}
    {path : List CString} (hpath : ∀ c ∈ path, IsComponent c) (hne : path ≠ []) {fnode : σ}
    (hdesc : w.Describes fnode root) (hdir : w.type root = dtDir) (inames : Inames) :
    w.LooksUp flag root path fnode inames ↔ w.Reliable flag root path inames := by
  have hagain : -eagain ≠ 0 := by decide
  have hagain' : -eagain ≠ -enoent := by decide
  have hnotdir : -enotdir ≠ 0 := by decide
  by_cases hfree : InameFree inames
  · have hfinds : ∀ c ∈ components (joinPath path), w.Finds c := fun c hc =>
      w.finds (hpath c (components_joinPath hpath ▸ hc)).1
    obtain ⟨n, hn⟩ :=
      w.lookupLoop_resolve flag w.faulty_self hfinds hdesc (fun _ => hdir) false
    simp only [components_joinPath hpath] at hn
    have hgood := fun fuel hfuel => (hn fuel hfuel).1 (w.readsWay_true root path)
    unfold Reliable
    cases hres : w.resolve flag root path with
    | found j =>
      rw [w.looksUp_iff_of_free hfree, hres]
      refine iff_of_true ⟨n, fun fuel hfuel => ?_⟩ hfree
      obtain ⟨s', hs', hdesc'⟩ := (hgood fuel hfuel).1 j hres
      exact ⟨_, hs', rfl, hdesc'⟩
    | notDir =>
      rw [w.looksUp_iff_of_free hfree, hres]
      refine iff_of_true ⟨n, fun fuel hfuel => ?_⟩ trivial
      obtain ⟨s', hs'⟩ := (hgood fuel hfuel).2 hres
      exact ⟨_, hs', hnotdir⟩
    | missing =>
      cases path with
      | nil => exact absurd rfl hne
      | cons name rest =>
        rw [w.looksUp_missing_iff hpath hdesc hdir hfree hres]
        simp [hfree]
  · simp only [LooksUp, Reliable, lookupFileFnode_of_full hfree, some.injEq, exists_eq_left']
    cases hres : w.resolve flag root path with
    | found j =>
      refine iff_of_false ?_ hfree
      rintro ⟨n, hn⟩
      exact hagain (hn n le_rfl).1
    | notDir => exact iff_of_true ⟨0, fun _ _ => hagain⟩ trivial
    | missing =>
      refine iff_of_false ?_ fun h => hfree h.1
      rintro ⟨n, hn⟩
      exact hagain' (hn n le_rfl)

end Loops

end Chunos.Lookup
