import Chunos.Fs.LmfsTree

/-!
# The buffers for the names of a lookup

`__get_file_fnode` copies each component of a path into one of eight buffers, and the
operation `parse_name` of a file system takes a second one for a short time. This file
follows the bitmap of the buffers through a lookup. It is the same again afterwards
exactly when every directory on the way has a first block and every block on the way can be
read. Otherwise the lookup returns from the middle of its loops.
-/

namespace Chunos.Lookup

open Function Option

variable {σ β : Type*}

/-- A file system with what `find_file` does for a component after `parse_name` has
rewritten its name, when there is this operation. -/
structure NameOps (σ β : Type*) extends LookupOps σ β where
  findParsed : Option (CString → σ → β → ℤ × σ)

/-- The call of `parse_name`: the operations that search for the name afterwards, and the
buffers. When the name is empty or there is no second buffer, the name stays as it is. -/
def NameOps.parseName (ops : NameOps σ β) (tname : CString) (inames : Inames) :
    LookupOps σ β × Inames :=
  match ops.findParsed with
  | none => (ops.toLookupOps, inames)
  | some findParsed =>
    if tname = [] then (ops.toLookupOps, inames)
    else
      match getInameBuffer inames with
      | none => (ops.toLookupOps, inames)
      | some (i, inames) =>
        ({ ops.toLookupOps with findFile := findParsed }, putInameBuffer inames i)

/-- The outer loop of `__get_file_fnode`, with the result, the node, whether the buffer for
the name is given back, and the buffers in use. It is `none` when the fuel does not last or
a component does not fit into the buffer. -/
def nameLoop (ops : NameOps σ β) (flag : ℕ) :
    ℕ → CString → Bool → σ → Inames → Option (ℤ × σ × Bool × Inames)
  | 0, _, _, _, _ => none
  | fuel + 1, fname, fileFind, fnode, inames =>
    match findFileName fname with
    | none => some (0, fnode, true, inames)
    | some (tname, fname) =>
      if inameSize ≤ strlen tname then none
      else
        let (block, fnode) := ops.getDataBlock fnode .startBlock
        if block = 0 then some (-enospc, fnode, false, inames)
        else
          let (search, inames) := ops.parseName tname inames
          match scanBlocks search tname (wantedType flag fname) fuel fnode block with
          | none => none
          | some (.failed fnode) => some (-eio, fnode, false, inames)
          | some (.found err fnode) =>
            if err ≠ 0 then some (err, fnode, true, inames)
            else nameLoop ops flag fuel fname true fnode inames
          | some (.missed fnode) =>
            if fileFind then nameLoop ops flag fuel fname fileFind fnode inames
            else some (-enoent, fnode, true, inames)

/-- `__get_file_fnode` for a file system that may have the operation `parse_name`. -/
def nameFileFnode (ops : NameOps σ β) (fuel : ℕ) (name : CString) (fnode : σ) (flag : ℕ)
    (inames : Inames) : Option (Looked σ) :=
  match getInameBuffer inames with
  | none => some { ret := -eagain, fnode := fnode, inames := inames }
  | some (i, inames) =>
    (nameLoop ops flag fuel name false fnode inames).map fun (err, fnode, put, inames) =>
      { ret := err
        fnode := fnode
        inames := if put then putInameBuffer inames i else inames }

theorem getInameBuffer_eq_some {inames inames' : Inames} {i : Fin inameNr}
    (hget : getInameBuffer inames = some (i, inames')) :
    inames i = false ∧ inames' = update inames i true := by
  obtain ⟨j, hfind, heq⟩ := map_eq_some_iff.mp hget
  cases heq
  exact ⟨by simpa using (Fin.find?_eq_some_iff.mp hfind).1, rfl⟩

theorem putInameBuffer_get {inames inames' : Inames} {i : Fin inameNr}
    (hget : getInameBuffer inames = some (i, inames')) : putInameBuffer inames' i = inames := by
  obtain ⟨hfree, rfl⟩ := getInameBuffer_eq_some hget
  rw [putInameBuffer, update_idem, ← hfree, update_eq_self]

theorem NameOps.parseName_inames (ops : NameOps σ β) (tname : CString) (inames : Inames) :
    (ops.parseName tname inames).2 = inames := by
  unfold parseName
  repeat' split
  all_goals first | rfl | exact putInameBuffer_get ‹_›

/-- For a file system without `parse_name` this is the function that looks up a path. -/
theorem nameFileFnode_eq {ops : NameOps σ β} (hparse : ops.findParsed = none) (fuel : ℕ)
    (name : CString) (fnode : σ) (flag : ℕ) (inames : Inames) :
    nameFileFnode ops fuel name fnode flag inames =
      lookupFileFnode ops.toLookupOps fuel name fnode flag inames := by
  have hloop : ∀ fname fileFind s inames, nameLoop ops flag fuel fname fileFind s inames =
      (lookupLoop ops.toLookupOps flag fuel fname fileFind s).map fun r =>
        (r.1, r.2.1, r.2.2, inames) := by
    induction fuel with
    | zero => exact fun _ _ _ _ => rfl
    | succ fuel ih =>
      intro fname fileFind s inames
      simp only [nameLoop, lookupLoop, NameOps.parseName, hparse, ih]
      cases findFileName fname with
      | none => rfl
      | some first =>
        cases hscan : scanBlocks ops.toLookupOps first.1 (wantedType flag first.2) fuel
            (ops.getDataBlock s .startBlock).2 (ops.getDataBlock s .startBlock).1 with
        | none => simp [hscan, apply_ite (Option.map _)]
        | some result => cases result <;> simp [hscan, apply_ite (Option.map _)]
  simp only [nameFileFnode, lookupFileFnode, hloop, Option.map_map]
  rfl

section Way

variable {ops : NameOps σ β} {flag fuel : ℕ} {inames : Inames} {fname : CString} {fileFind : Bool}
  {s : σ}

/-- The search for a name from a block on comes to a block that cannot be read. -/
inductive HitsBad (ops : LookupOps σ β) (tname : CString) : σ → ℕ → Prop
  | here {s : σ} {b : ℕ} {err : ℤ} (hread : ops.readBlock s b = .error err) : HitsBad ops tname s b
  | next {s : σ} {b : ℕ} {buffer : β} (hread : ops.readBlock s b = .ok buffer)
      (hmiss : (ops.findFile tname s buffer).1 ≠ 0)
      (hblock : (ops.getDataBlock (ops.findFile tname s buffer).2 .nextBlock).1 ≠ 0)
      (hrest : HitsBad ops tname (ops.getDataBlock (ops.findFile tname s buffer).2 .nextBlock).2
        (ops.getDataBlock (ops.findFile tname s buffer).2 .nextBlock).1) : HitsBad ops tname s b

/-- The search for the first component of a path in a directory with a first block. -/
def NameOps.search (ops : NameOps σ β) (flag : ℕ) (inames : Inames) (fuel : ℕ)
    (tname rest : CString) (s : σ) : Option (ScanEnd σ) :=
  scanBlocks (ops.parseName tname inames).1 tname (wantedType flag rest) fuel
    (ops.getDataBlock s .startBlock).2 (ops.getDataBlock s .startBlock).1

/-- A directory on the way along a path has no first block, or a block on the way cannot be read.
The way goes on behind a component that is found, and behind every other one after that. -/
inductive NameOps.Blocked (ops : NameOps σ β) (flag : ℕ) (inames : Inames) :
    CString → Bool → σ → Prop
  | noBlock {fname tname rest : CString} {fileFind : Bool} {s : σ}
      (hname : findFileName fname = some (tname, rest))
      (hblock : (ops.getDataBlock s .startBlock).1 = 0) : ops.Blocked flag inames fname fileFind s
  | unread {fname tname rest : CString} {fileFind : Bool} {s : σ}
      (hname : findFileName fname = some (tname, rest))
      (hbad : HitsBad (ops.parseName tname inames).1 tname (ops.getDataBlock s .startBlock).2
        (ops.getDataBlock s .startBlock).1) : ops.Blocked flag inames fname fileFind s
  | found {fname tname rest : CString} {fileFind : Bool} {s s' : σ} {fuel : ℕ}
      (hname : findFileName fname = some (tname, rest))
      (hscan : ops.search flag inames fuel tname rest s = some (.found 0 s'))
      (hrest : ops.Blocked flag inames rest true s') : ops.Blocked flag inames fname fileFind s
  | missed {fname tname rest : CString} {s s' : σ} {fuel : ℕ}
      (hname : findFileName fname = some (tname, rest))
      (hscan : ops.search flag inames fuel tname rest s = some (.missed s'))
      (hrest : ops.Blocked flag inames rest true s') : ops.Blocked flag inames fname true s

/-- The inner loop fails just if it comes to a block that cannot be read. -/
theorem scanBlocks_failed_iff {ops : LookupOps σ β} {tname : CString} {type b : ℕ} {r : ScanEnd σ}
    (hscan : scanBlocks ops tname type fuel s b = some r) :
    (∃ s', r = .failed s') ↔ HitsBad ops tname s b := by
  induction fuel generalizing s b with
  | zero => cases hscan
  | succ fuel ih =>
    simp only [scanBlocks] at hscan
    cases hread : ops.readBlock s b with
    | error err =>
      simp only [hread, some.injEq] at hscan
      exact iff_of_true ⟨s, hscan.symm⟩ (.here hread)
    | ok buffer =>
      -- What follows from a block that has been read.
      have hnext (hbad : HitsBad ops tname s b) : (ops.findFile tname s buffer).1 ≠ 0 ∧
          (ops.getDataBlock (ops.findFile tname s buffer).2 .nextBlock).1 ≠ 0 ∧
          HitsBad ops tname (ops.getDataBlock (ops.findFile tname s buffer).2 .nextBlock).2
            (ops.getDataBlock (ops.findFile tname s buffer).2 .nextBlock).1 := by
        cases hbad with
        | here herr => cases hread.symm.trans herr
        | next hread' hmiss hblock hrest =>
          cases hread.symm.trans hread'
          exact ⟨hmiss, hblock, hrest⟩
      simp only [hread] at hscan
      by_cases hhit : (ops.findFile tname s buffer).1 = 0
      · rw [if_pos hhit] at hscan
        cases hscan
        exact iff_of_false (by simp) fun hbad => (hnext hbad).1 hhit
      rw [if_neg hhit] at hscan
      split_ifs at hscan with hblock
      · cases hscan
        exact iff_of_false (by simp) fun hbad => (hnext hbad).2.1 hblock
      · rw [ih hscan]
        exact ⟨.next hread hhit hblock, fun hbad => (hnext hbad).2.2⟩

/-- The way from a directory that has been searched. -/
theorem NameOps.blocked_iff {tname rest : CString} {result : ScanEnd σ}
    (hname : findFileName fname = some (tname, rest))
    (hblock : (ops.getDataBlock s .startBlock).1 ≠ 0)
    (hscan : ops.search flag inames fuel tname rest s = some result) :
    ops.Blocked flag inames fname fileFind s ↔ (∃ s', result = .failed s') ∨
      ∃ s', (result = .found 0 s' ∨ fileFind = true ∧ result = .missed s') ∧
        ops.Blocked flag inames rest true s' := by
  have hunique : ∀ {fuel' r}, ops.search flag inames fuel' tname rest s = some r → result = r := by
    intro fuel' r h
    exact some.inj ((scanBlocks_mono (le_max_left fuel fuel') hscan).symm.trans
      (scanBlocks_mono (le_max_right fuel fuel') h))
  constructor
  · intro hblocked
    cases hblocked with
    | noBlock _ hzero => exact absurd hzero hblock
    | unread hname' hbad =>
      cases hname.symm.trans hname'
      exact .inl ((scanBlocks_failed_iff hscan).mpr hbad)
    | found hname' hscan' hrest =>
      cases hname.symm.trans hname'
      exact .inr ⟨_, .inl (hunique hscan'), hrest⟩
    | missed hname' hscan' hrest =>
      cases hname.symm.trans hname'
      exact .inr ⟨_, .inr ⟨rfl, hunique hscan'⟩, hrest⟩
  · rintro (hfailed | ⟨s', rfl | ⟨rfl, rfl⟩, hrest⟩)
    · exact .unread hname ((scanBlocks_failed_iff hscan).mp hfailed)
    · exact .found hname hscan hrest
    · exact .missed hname hscan hrest

/-- The loop leaves the other buffers alone. It keeps its own buffer when the way is blocked. -/
theorem nameLoop_spec {r : ℤ × σ × Bool × Inames}
    (hloop : nameLoop ops flag fuel fname fileFind s inames = some r) :
    r.2.2.2 = inames ∧ (r.2.2.1 = false ↔ ops.Blocked flag inames fname fileFind s) := by
  induction fuel generalizing fname fileFind s with
  | zero => cases hloop
  | succ fuel ih =>
    simp only [nameLoop, NameOps.parseName_inames] at hloop
    cases hname : findFileName fname with
    | none =>
      simp only [hname, some.injEq] at hloop
      subst hloop
      refine ⟨rfl, iff_of_false nofun fun hblocked => ?_⟩
      cases hblocked <;> rename_i hname' _ <;> cases hname.symm.trans hname'
    | some first =>
      simp only [hname] at hloop
      by_cases hlong : inameSize ≤ strlen first.1
      · simp [hlong] at hloop
      by_cases hblock : (ops.getDataBlock s .startBlock).1 = 0
      · rw [if_neg hlong, if_pos hblock] at hloop
        cases hloop
        exact ⟨rfl, iff_of_true rfl (.noBlock hname hblock)⟩
      rw [if_neg hlong, if_neg hblock] at hloop
      cases hscan : ops.search flag inames fuel first.1 first.2 s with
      | none =>
        rw [NameOps.search] at hscan
        simp [hscan] at hloop
      | some result =>
        rw [NameOps.blocked_iff hname hblock hscan]
        rw [NameOps.search] at hscan
        simp only [hscan] at hloop
        cases result with
        | failed s' =>
          cases hloop
          exact ⟨rfl, by simp⟩
        | found err s' =>
          simp only at hloop
          split_ifs at hloop with herr
          · cases hloop
            exact ⟨rfl, by simp [herr]⟩
          · obtain rfl : err = 0 := not_not.mp herr
            simpa using ih hloop
        | missed s' =>
          simp only at hloop
          split_ifs at hloop with hfind
          · subst hfind
            simpa using ih hloop
          · cases hloop
            exact ⟨rfl, by simp [hfind]⟩

/-- Whatever the blocks of the file system hold and whichever of them cannot be read, a
lookup that returns leaves the buffers in use as they were exactly when it has found no buffer or
its way is not blocked. -/
theorem nameFileFnode_keeps_iff {ops : NameOps σ β} {fuel : ℕ} {name : CString} {fnode : σ}
    {flag : ℕ} {inames : Inames} {r : Looked σ}
    (hlook : nameFileFnode ops fuel name fnode flag inames = some r) :
    r.inames = inames ↔ ∀ i inames', getInameBuffer inames = some (i, inames') →
      ¬ ops.Blocked flag inames' name false fnode := by
  unfold nameFileFnode at hlook
  split at hlook
  · rename_i hget
    cases hlook
    simp [hget]
  · rename_i i inames' hget
    obtain ⟨⟨err, s, put, inames''⟩, hloop, rfl⟩ := map_eq_some_iff.mp hlook
    obtain ⟨rfl, hput⟩ := nameLoop_spec hloop
    have hown : (∀ j inames₁, getInameBuffer inames = some (j, inames₁) →
        ¬ ops.Blocked flag inames₁ name false fnode) ↔ put ≠ false := by
      rw [hget, ne_eq, hput]
      refine ⟨fun h => h i _ rfl, fun h j inames₁ heq => ?_⟩
      cases heq
      exact h
    rw [hown]
    cases put with
    | true => simp [putInameBuffer_get hget]
    | false =>
      obtain ⟨hfree, rfl⟩ := getInameBuffer_eq_some hget
      refine iff_of_false (fun h => ?_) (by simp)
      have hi := congrFun h i
      simp [hfree] at hi

end Way

/-- LMFS has no operation `parse_name`. -/
def lmfsNameOps (vol : Lmfs.Volume) : NameOps Lmfs.Node (ℕ → ℕ) :=
  { vol.lookupOps with findParsed := none }

/-- The lookup of the directory `a` leaves the buffers as they were, so its way is not blocked. -/
theorem nameFileFnode_keeps_iff_treeVolume :
    ∃ r, nameFileFnode (lmfsNameOps Lmfs.treeVolume) 10 (cstr "a") Lmfs.treeRoot 0
      (fun i => i.val = 2) = some r ∧ r.ret = 0 ∧
      ∀ i inames', getInameBuffer (fun i => i.val = 2) = some (i, inames') →
        ¬ (lmfsNameOps Lmfs.treeVolume).Blocked 0 inames' (cstr "a") false Lmfs.treeRoot := by
  refine Runs.exists_some_imp
    (P := fun r : Looked _ => r.ret = 0 ∧ r.inames = fun i => decide (i.val = 2))
    (by decide +kernel) fun r hrun hr => ?_
  exact ⟨hr.1, (nameFileFnode_keeps_iff hrun).mp hr.2⟩

/-- When the disk fails, a lookup keeps the last free buffer, and no other lookup can begin
then. -/
theorem nameFileFnode_loses_buffer :
    (nameFileFnode (lmfsNameOps { Lmfs.treeVolume with disk := fun _ => .error (-eio) }) 10
        (cstr "a") Lmfs.treeRoot 0 fun i => i.val ≠ 7).map
      (fun r => (r.ret, r.inames (Fin.last 7),
        (nameFileFnode (lmfsNameOps Lmfs.treeVolume) 10 (cstr "a") Lmfs.treeRoot 0 r.inames).map
          Looked.ret)) = some (-eio, true, some (-eagain)) := by
  decide +kernel

end Chunos.Lookup
