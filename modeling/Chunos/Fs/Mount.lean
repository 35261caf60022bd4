import Chunos.String

/-!
# The mount point of a file name

The mounted file systems form a list that starts with the root file system, and a new
mount is linked in right behind the root. `get_mount_point` takes the longest mount path
that the file name begins with. This file compares it with the longest mount path that
is made of whole components of the name. The two differ when the name goes on inside the
last component of a mount path.
-/

namespace Chunos.Mount

open List

variable {σ : Type*}

/-- `struct mount_point`, with the super block and the file system as `sb`. `do_mount`
refuses an empty path, because `check_file_name` does. -/
structure MountPoint (σ : Type*) where
  path : CString
  sb : σ
  path_ne : path ≠ []
deriving DecidableEq

/-- `struct mount_tree`: the root file system, which is mounted first and at `/`, and the
list behind it. Every mount has a super block of its own, so no mount is there twice. -/
structure MountTree (σ : Type*) where
  root : MountPoint σ
  next : List (MountPoint σ)
  root_path : root.path = [slash]
  nodup : (root :: next).Nodup

/-- The last part of `do_mount`: link a new mount in behind the root. -/
def MountTree.link (tree : MountTree σ) (mount : MountPoint σ)
    (hnew : mount ∉ tree.root :: tree.next) : MountTree σ where
  root := tree.root
  next := mount :: tree.next
  root_path := tree.root_path
  nodup := ((List.Perm.swap _ _ _).nodup_iff).mp (nodup_cons.mpr ⟨hnew, tree.nodup⟩)

/-- The loop of `get_mount_point` over the list, with the length of the best path. -/
def mountLoop (fileName : CString) : List (MountPoint σ) → ℕ → MountPoint σ → MountPoint σ
  | [], _, mnt => mnt
  | tmp :: rest, lenOld, mnt =>
    let len := strlen tmp.path
    if lenOld < len ∧ len ≤ strlen fileName ∧ strncmp tmp.path fileName len = 0 then
      mountLoop fileName rest len tmp
    else mountLoop fileName rest lenOld mnt

/-- `get_mount_point`. -/
def getMountPoint (tree : MountTree σ) (fileName : CString) : MountPoint σ :=
  mountLoop fileName tree.next 0 tree.root

/-- `get_file_fs_name`: what follows the path of the mount in the file name. -/
def getFileFsName (mnt : MountPoint σ) (fileName : CString) : Option CString :=
  if strncmp mnt.path fileName (strlen mnt.path) ≠ 0 then none
  else if strlen fileName < strlen mnt.path then none
  else some (fileName.drop (strlen mnt.path))

/-- The path is made of whole components of the name: it is the name, or a separator
follows it. -/
def WholePrefix (path fileName : CString) : Prop :=
  path = fileName ∨ path ++ [slash] <+: fileName

instance (path fileName : CString) : Decidable (WholePrefix path fileName) :=
  inferInstanceAs (Decidable (_ ∨ _))

/-- The mount that a name belongs to: the one with the longest path of whole components,
and the root file system without such a path. -/
def BelongsTo (tree : MountTree σ) (fileName : CString) (mnt : MountPoint σ) : Prop :=
  (mnt ∈ tree.next ∧ WholePrefix mnt.path fileName ∧
      ∀ m ∈ tree.next, WholePrefix m.path fileName → m.path.length ≤ mnt.path.length) ∨
    (mnt = tree.root ∧ ∀ m ∈ tree.next, ¬ WholePrefix m.path fileName)

instance [DecidableEq σ] (tree : MountTree σ) (fileName : CString) (mnt : MountPoint σ) :
    Decidable (BelongsTo tree fileName mnt) :=
  inferInstanceAs (Decidable ((_ ∧ _ ∧ _) ∨ (_ ∧ _)))

/-- The mount has the longest path of those that the name begins with. -/
def Longest (mounts : List (MountPoint σ)) (fileName : CString) (mnt : MountPoint σ) : Prop :=
  mnt.path <+: fileName ∧ ∀ m ∈ mounts, m.path <+: fileName → m.path.length ≤ mnt.path.length

instance (mounts : List (MountPoint σ)) (fileName : CString) (mnt : MountPoint σ) :
    Decidable (Longest mounts fileName mnt) :=
  inferInstanceAs (Decidable (_ ∧ _))

/-- A longest path that the name begins with ends at the end of a component, and only one
file system is mounted there. -/
def EndsComponent (tree : MountTree σ) (fileName : CString) : Prop :=
  ∀ mnt ∈ tree.next, Longest tree.next fileName mnt →
    WholePrefix mnt.path fileName ∧ ∀ m ∈ tree.next, m.path = mnt.path → m = mnt

instance [DecidableEq σ] (tree : MountTree σ) (fileName : CString) :
    Decidable (EndsComponent tree fileName) :=
  inferInstanceAs (Decidable (∀ mnt ∈ tree.next, _ → _))

variable {fileName : CString} {mnt : MountPoint σ} {tree : MountTree σ}

theorem WholePrefix.isPrefix {path : CString} (h : WholePrefix path fileName) :
    path <+: fileName := by
  rcases h with rfl | h
  · exact prefix_rfl
  · exact (prefix_append path [slash]).trans h

theorem mountLoop_test_iff (fileName : CString) (tmp : MountPoint σ) (lenOld : ℕ) :
    (lenOld < strlen tmp.path ∧ strlen tmp.path ≤ strlen fileName ∧
        strncmp tmp.path fileName (strlen tmp.path) = 0) ↔
      lenOld < tmp.path.length ∧ tmp.path <+: fileName := by
  rw [strncmp_strlen_eq_zero_iff]
  constructor
  · rintro ⟨hlen, -, hpre⟩
    exact ⟨hlen, hpre⟩
  · rintro ⟨hlen, hpre⟩
    exact ⟨hlen, hpre.length_le, hpre⟩

/-- The loop keeps the mount it has when no path of the list is better, and returns the
first of the longest paths otherwise. -/
theorem mountLoop_cases (fileName : CString) (mounts : List (MountPoint σ)) (lenOld : ℕ)
    (mnt : MountPoint σ) :
    (mountLoop fileName mounts lenOld mnt = mnt ∧
        ∀ m ∈ mounts, m.path <+: fileName → m.path.length ≤ lenOld) ∨
      (mountLoop fileName mounts lenOld mnt ∈ mounts ∧
        lenOld < (mountLoop fileName mounts lenOld mnt).path.length ∧
        Longest mounts fileName (mountLoop fileName mounts lenOld mnt)) := by
  induction mounts generalizing lenOld mnt with
  | nil => exact .inl ⟨rfl, by simp⟩
  | cons tmp rest ih =>
    simp only [mountLoop, mountLoop_test_iff]
    by_cases htest : lenOld < tmp.path.length ∧ tmp.path <+: fileName
    · -- The new path becomes the best one, and stays it unless the rest has a longer one.
      rw [if_pos htest]
      obtain ⟨hlen, hpre⟩ := htest
      right
      rcases ih (strlen tmp.path) tmp with ⟨hloop, hrest⟩ | ⟨hmem, hlonger, hlongest⟩
      · rw [hloop]
        refine ⟨mem_cons_self, hlen, hpre, ?_⟩
        intro m hm hmpre
        rcases mem_cons.mp hm with rfl | hm
        · exact le_rfl
        · exact hrest m hm hmpre
      · refine ⟨mem_cons_of_mem _ hmem, hlen.trans hlonger, hlongest.1, ?_⟩
        intro m hm hmpre
        rcases mem_cons.mp hm with rfl | hm
        · exact hlonger.le
        · exact hlongest.2 m hm hmpre
    · rw [if_neg htest]
      have htmp : tmp.path <+: fileName → tmp.path.length ≤ lenOld := by
        intro hpre
        by_contra hlen
        exact htest ⟨by omega, hpre⟩
      rcases ih lenOld mnt with ⟨hloop, hrest⟩ | ⟨hmem, hlonger, hlongest⟩
      · left
        refine ⟨hloop, ?_⟩
        intro m hm hmpre
        rcases mem_cons.mp hm with rfl | hm
        · exact htmp hmpre
        · exact hrest m hm hmpre
      · right
        refine ⟨mem_cons_of_mem _ hmem, hlonger, hlongest.1, ?_⟩
        intro m hm hmpre
        rcases mem_cons.mp hm with rfl | hm
        · exact (htmp hmpre).trans hlonger.le
        · exact hlongest.2 m hm hmpre

/-- `get_mount_point` returns the root file system when the name begins with no other
mount path, and a mount with the longest such path otherwise. -/
theorem getMountPoint_cases (tree : MountTree σ) (fileName : CString) :
    (getMountPoint tree fileName = tree.root ∧ ∀ m ∈ tree.next, ¬ m.path <+: fileName) ∨
      (getMountPoint tree fileName ∈ tree.next ∧
        Longest tree.next fileName (getMountPoint tree fileName)) := by
  rcases mountLoop_cases fileName tree.next 0 tree.root with ⟨hroot, hnone⟩ | ⟨hmem, -, hlongest⟩
  · left
    refine ⟨hroot, ?_⟩
    intro m hm hpre
    have hlen := length_pos_of_ne_nil m.path_ne
    have hle := hnone m hm hpre
    omega
  · exact .inr ⟨hmem, hlongest⟩

theorem Longest.path_eq {mounts : List (MountPoint σ)} {m m' : MountPoint σ}
    (h : Longest mounts fileName m) (h' : Longest mounts fileName m') (hm : m ∈ mounts)
    (hm' : m' ∈ mounts) : m.path = m'.path := by
  have hle := h'.2 m hm h.1
  have hge := h.2 m' hm' h'.1
  exact (prefix_of_prefix_length_le h.1 h'.1 hle).eq_of_length (by omega)

/-- The tree with its mounts in another order. -/
def MountTree.reorder (tree : MountTree σ) (next : List (MountPoint σ))
    (hperm : next.Perm tree.next) : MountTree σ where
  root := tree.root
  next := next
  root_path := tree.root_path
  nodup := ((hperm.cons tree.root).nodup_iff).mpr tree.nodup

theorem longest_perm_iff {mounts mounts' : List (MountPoint σ)} (hperm : mounts'.Perm mounts) :
    Longest mounts' fileName mnt ↔ Longest mounts fileName mnt := by
  simp only [Longest, hperm.mem_iff]

/-- A mount with a longest path is the answer when it is the first of the list. -/
theorem mountLoop_head {rest : List (MountPoint σ)} (hlongest : Longest (mnt :: rest) fileName mnt)
    (root : MountPoint σ) : mountLoop fileName (mnt :: rest) 0 root = mnt := by
  have hpos := length_pos_of_ne_nil mnt.path_ne
  simp only [mountLoop, mountLoop_test_iff]
  rw [if_pos ⟨hpos, hlongest.1⟩]
  rcases mountLoop_cases fileName rest (strlen mnt.path) mnt with ⟨hloop, -⟩ | ⟨hmem, hlonger, hl⟩
  · exact hloop
  · have hle := hlongest.2 _ (mem_cons_of_mem _ hmem) hl.1
    simp only [strlen] at hlonger hle
    omega

theorem exists_reorder_of_longest (hmem : mnt ∈ tree.next)
    (hlongest : Longest tree.next fileName mnt) :
    ∃ next, ∃ hperm : next.Perm tree.next,
      getMountPoint (tree.reorder next hperm) fileName = mnt := by
  obtain ⟨before, after, hsplit⟩ := append_of_mem hmem
  have hperm : (mnt :: (before ++ after)).Perm tree.next := by
    rw [hsplit]
    exact perm_middle.symm
  exact ⟨_, hperm, mountLoop_head ((longest_perm_iff hperm).mpr hlongest) tree.root⟩

/-- The name of a file below the mount that `get_mount_point` returns is what follows the
mount path in the file name. -/
theorem getFileFsName_getMountPoint (tree : MountTree σ) (habs : [slash] <+: fileName) :
    ∃ rest, getFileFsName (getMountPoint tree fileName) fileName = some rest ∧
      fileName = (getMountPoint tree fileName).path ++ rest := by
  have hpre : (getMountPoint tree fileName).path <+: fileName := by
    rcases getMountPoint_cases tree fileName with ⟨hroot, -⟩ | ⟨-, hlongest⟩
    · rw [hroot, tree.root_path]
      exact habs
    · exact hlongest.1
  have hcmp := (strncmp_strlen_eq_zero_iff _ _).mpr hpre
  have hlen : ¬ strlen fileName < strlen (getMountPoint tree fileName).path :=
    Nat.not_lt.mpr hpre.length_le
  refine ⟨fileName.drop (strlen (getMountPoint tree fileName).path), ?_, ?_⟩
  · simp only [getFileFsName, hcmp, ne_eq, not_true_eq_false, if_false, hlen]
  · exact (prefix_iff_eq_append.mp hpre).symm

/-- When a longest path ends at the end of a component, the name belongs to the mount
that `get_mount_point` returns. -/
theorem getMountPoint_belongsTo (hends : EndsComponent tree fileName) :
    BelongsTo tree fileName (getMountPoint tree fileName) := by
  rcases getMountPoint_cases tree fileName with ⟨hroot, hnone⟩ | ⟨hmem, hlongest⟩
  · exact .inr ⟨hroot, fun m hm hwhole => hnone m hm hwhole.isPrefix⟩
  · have hwhole := (hends _ hmem hlongest).1
    exact .inl ⟨hmem, hwhole, fun m hm h => hlongest.2 m hm h.isPrefix⟩

/-- When only one file system is mounted at a longest path, the order of the mounts does
not matter. -/
theorem getMountPoint_reorder (hends : EndsComponent tree fileName) {next : List (MountPoint σ)}
    (hperm : next.Perm tree.next) :
    getMountPoint (tree.reorder next hperm) fileName = getMountPoint tree fileName := by
  rcases getMountPoint_cases tree fileName with ⟨hroot, hnone⟩ | ⟨hmem, hlongest⟩
  · rcases getMountPoint_cases (tree.reorder next hperm) fileName with ⟨hroot', -⟩ | ⟨hmem', hl'⟩
    · rw [hroot, hroot']
      rfl
    · exact absurd hl'.1 (hnone _ (hperm.mem_iff.mp hmem'))
  · rcases getMountPoint_cases (tree.reorder next hperm) fileName with ⟨-, hnone'⟩ | ⟨hmem', hl'⟩
    · exact absurd hlongest.1 (hnone' _ (hperm.mem_iff.mpr hmem))
    · have hmem'' := hperm.mem_iff.mp hmem'
      have hl'' := (longest_perm_iff hperm).mp hl'
      exact (hends _ hmem hlongest).2 _ hmem'' (hl''.path_eq hlongest hmem'' hmem)

/-- `get_mount_point` returns the mount that the name belongs to, `get_file_fs_name` gives
what follows its path, and the order of the mounts does not matter, exactly when a
longest mount path that the name begins with ends at the end of a component and only one
file system is mounted there. -/
theorem getMountPoint_spec_iff (tree : MountTree σ) {fileName : CString}
    (habs : [slash] <+: fileName) :
    (BelongsTo tree fileName (getMountPoint tree fileName) ∧
        (∃ rest, getFileFsName (getMountPoint tree fileName) fileName = some rest ∧
          fileName = (getMountPoint tree fileName).path ++ rest) ∧
        ∀ next (hperm : next.Perm tree.next),
          getMountPoint (tree.reorder next hperm) fileName = getMountPoint tree fileName) ↔
      EndsComponent tree fileName := by
  constructor
  · rintro ⟨hbelongs, -, horder⟩ mnt hmem hlongest
    -- In some order of the mounts each longest path is the answer, so there is only one.
    have hanswer : ∀ m ∈ tree.next, Longest tree.next fileName m →
        getMountPoint tree fileName = m := by
      intro m hm hl
      obtain ⟨next, hperm, hnext⟩ := exists_reorder_of_longest hm hl
      rw [← horder next hperm, hnext]
    have hmnt := hanswer mnt hmem hlongest
    constructor
    · rw [hmnt] at hbelongs
      rcases hbelongs with ⟨-, hwhole, -⟩ | ⟨hroot, -⟩
      · exact hwhole
      · rw [hroot] at hmem
        exact absurd hmem (nodup_cons.mp tree.nodup).1
    · intro m hm hpath
      have hl : Longest tree.next fileName m := by
        rw [Longest, hpath]
        exact hlongest
      rw [← hanswer m hm hl, hmnt]
  · intro hends
    exact ⟨getMountPoint_belongsTo hends, getFileFsName_getMountPoint tree habs,
      fun next hperm => getMountPoint_reorder hends hperm⟩

/-- The root file system that `mount_init` mounts first. -/
def rootTree : MountTree String where
  root := { path := cstr "/", sb := "lmfs", path_ne := by decide }
  next := []
  root_path := by decide
  nodup := by decide

/-- The mounts after `mount_init`: the disk at `/` and the devices at `/dev`. -/
def bootTree : MountTree String :=
  rootTree.link { path := cstr "/dev", sb := "devfs", path_ne := by decide } (by decide)

/-- The theorem applies to a device file. -/
theorem getMountPoint_spec_iff_bootTree :
    (BelongsTo bootTree (cstr "/dev/ttyS0") (getMountPoint bootTree (cstr "/dev/ttyS0")) ∧
        (∃ rest,
          getFileFsName (getMountPoint bootTree (cstr "/dev/ttyS0")) (cstr "/dev/ttyS0") =
            some rest ∧
          cstr "/dev/ttyS0" = (getMountPoint bootTree (cstr "/dev/ttyS0")).path ++ rest) ∧
        ∀ next (hperm : next.Perm bootTree.next),
          getMountPoint (bootTree.reorder next hperm) (cstr "/dev/ttyS0") =
            getMountPoint bootTree (cstr "/dev/ttyS0")) ∧
      EndsComponent bootTree (cstr "/dev/ttyS0") := by
  have hends : EndsComponent bootTree (cstr "/dev/ttyS0") := by decide
  exact ⟨(getMountPoint_spec_iff bootTree (by decide)).mpr hends, hends⟩

/-- A file of the disk whose name begins with the letters of `/dev` is looked up among
the devices, under a name that begins in the middle of a component. -/
theorem bootTree_getMountPoint_devices :
    ¬ BelongsTo bootTree (cstr "/devices/x") (getMountPoint bootTree (cstr "/devices/x")) ∧
      BelongsTo bootTree (cstr "/devices/x") bootTree.root ∧
      (getMountPoint bootTree (cstr "/devices/x")).path = cstr "/dev" ∧
      getFileFsName (getMountPoint bootTree (cstr "/devices/x")) (cstr "/devices/x") =
        some (cstr "ices/x") := by
  decide

end Chunos.Mount
