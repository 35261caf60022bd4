import Chunos.Basic
import Chunos.Lib.Runs

/-!
# The table of open files of a task

A descriptor is an index into the array `file_open` of the task. The calls of the user
take arbitrary integers as descriptors. This file follows the calls of `fs/file.c` on the
table. An access to the array at another index than its own is an outcome of its own: the
words around the array are other fields of the same structure, and a call goes on with
what it finds there.
-/

namespace Chunos.File

open Option

variable {φ : Type*}

/-- `os/file.h`, `FILE_OPENS`: the number of descriptors of a task. -/
def fileOpens : ℕ := 64

instance : NeZero fileOpens := ⟨by decide⟩

/-- `struct file_desc`, with the table of open files. An entry `none` is `NULL`. -/
structure FileDesc (φ : Type*) where
  openNr : ℤ
  fileOpen : Fin fileOpens → Option φ

/-- `fdes->file_open[fd]`. It is `none` when the index is outside of the array. At index 64
the word is the pointer `cdir`, and below 0 there are `fd` and `open_nr`. -/
def FileDesc.slot (fdes : FileDesc φ) (fd : ℤ) : Option (Option φ) :=
  if h : 0 ≤ fd ∧ fd.toNat < fileOpens then some (fdes.fileOpen ⟨fd.toNat, h.2⟩) else none

/-- `fdes->file_open[fd] = file`, for an index in the array. -/
def FileDesc.store (fdes : FileDesc φ) (fd : ℤ) (file : Option φ) : FileDesc φ :=
  { fdes with fileOpen := fun i => if (i : ℤ) = fd then file else fdes.fileOpen i }

/-- `alloc_and_init_file_desc`, with the files that the three calls of `__sys_open` for
the terminal return. -/
def allocAndInitFileDesc (stdin stdout stderr : Option φ) : FileDesc φ where
  openNr := 3
  fileOpen i :=
    if (i : ℕ) = 0 then stdin
    else if (i : ℕ) = 1 then stdout
    else if (i : ℕ) = 2 then stderr
    else none

/-- `_sys_open`, with the file that `__sys_open` returns. -/
def sysOpen (fdes : FileDesc φ) (opened : Option φ) : ℤ × FileDesc φ :=
  match Fin.find? fun fd => (fdes.fileOpen fd).isNone with
  | none => (-emfile, fdes)
  | some fd =>
    match opened with
    | none => (-enoent, fdes)
    | some file => (fd, { fdes.store fd (some file) with openNr := fdes.openNr + 1 })

/-- `fd_to_file`. -/
def fdToFile (fdes : FileDesc φ) (fd : ℤ) : Option (Option φ) :=
  if (fileOpens : ℤ) < fd then some none else fdes.slot fd

/-- The calls that work on an open file: the arguments are refused, or there is no file at
the descriptor, or the operation of the file is performed. -/
def onFile (refused : Bool) (err : ℤ) (op : φ → ℤ × φ) (fdes : FileDesc φ) (fd : ℤ) :
    Option (ℤ × FileDesc φ) :=
  (fdToFile fdes fd).map fun
    | none => (err, fdes)
    | some file =>
      if refused then (err, fdes) else ((op file).1, fdes.store fd (some (op file).2))

/-- `_sys_write`, with what the operation `write` of the file does. -/
def sysWrite (fdes : FileDesc φ) (fd size : ℤ) (write : φ → ℤ × φ) : Option (ℤ × FileDesc φ) :=
  onFile (size ≤ 0) (-einval) write fdes fd

/-- `_sys_read`, with what the operation `read` of the file does. -/
def sysRead (fdes : FileDesc φ) (fd size : ℤ) (read : φ → ℤ × φ) : Option (ℤ × FileDesc φ) :=
  onFile (size ≤ 0) (-einval) read fdes fd

/-- `_sys_seek`, with what the operation `seek` of the file does. -/
def sysSeek (fdes : FileDesc φ) (fd offset : ℤ) (seek : φ → ℤ × φ) : Option (ℤ × FileDesc φ) :=
  onFile (offset < 0) (-einval) seek fdes fd

/-- `_sys_ioctl`, with what the operation `ioctl` of the file does. -/
def sysIoctl (fdes : FileDesc φ) (fd : ℤ) (ioctl : φ → ℤ × φ) : Option (ℤ × FileDesc φ) :=
  onFile false (-enoent) ioctl fdes fd

/-- `_sys_getdents`, with what `vfs_getdents` does. -/
def sysGetdents (fdes : FileDesc φ) (fd : ℤ) (getdents : φ → ℤ × φ) : Option (ℤ × FileDesc φ) :=
  onFile false (-enoent) getdents fdes fd

/-- `_sys_close`. It has a bound test of its own. -/
def sysClose (fdes : FileDesc φ) (fd : ℤ) : Option (ℤ × FileDesc φ) :=
  if (fileOpens : ℤ) < fd then some (-enoent, fdes)
  else
    (fdes.slot fd).map fun
      | none => (-enoent, fdes)
      | some _ => (0, { fdes.store fd none with openNr := fdes.openNr - 1 })

/-- A call of the user, with what the file system does for it. -/
inductive FileCall (φ : Type*) where
  | opens (opened : Option φ)
  | close (fd : ℤ)
  | read (fd size : ℤ) (read : φ → ℤ × φ)
  | write (fd size : ℤ) (write : φ → ℤ × φ)
  | seek (fd offset : ℤ) (seek : φ → ℤ × φ)
  | ioctl (fd : ℤ) (ioctl : φ → ℤ × φ)
  | getdents (fd : ℤ) (getdents : φ → ℤ × φ)

/-- The descriptor that a call works on. -/
def FileCall.fd : FileCall φ → Option ℤ
  | .opens _ => none
  | .close fd | .read fd _ _ | .write fd _ _ | .seek fd _ _ | .ioctl fd _ | .getdents fd _ =>
    some fd

/-- One call. It is `none` when it reads outside of the table. -/
def sysCall (fdes : FileDesc φ) : FileCall φ → Option (ℤ × FileDesc φ)
  | .opens opened => some (sysOpen fdes opened)
  | .close fd => sysClose fdes fd
  | .read fd size read => sysRead fdes fd size read
  | .write fd size write => sysWrite fdes fd size write
  | .seek fd offset seek => sysSeek fdes fd offset seek
  | .ioctl fd ioctl => sysIoctl fdes fd ioctl
  | .getdents fd getdents => sysGetdents fdes fd getdents

/-- The table after a call. -/
def step (call : FileCall φ) (fdes : FileDesc φ) : Option (FileDesc φ) :=
  (sysCall fdes call).map Prod.snd

/-- The descriptors that are open. -/
def FileDesc.openSlots (fdes : FileDesc φ) : Finset (Fin fileOpens) :=
  Finset.univ.filter fun i => (fdes.fileOpen i).isSome

/-- The counter of the table is the number of open descriptors. -/
def FileDesc.Counted (fdes : FileDesc φ) : Prop := fdes.openNr = fdes.openSlots.card

instance (fdes : FileDesc φ) : Decidable fdes.Counted :=
  inferInstanceAs (Decidable (_ = _))

/-- No file is open at the descriptor. -/
def FileDesc.Closed (fdes : FileDesc φ) (fd : ℤ) : Prop :=
  ∀ i : Fin fileOpens, (i : ℤ) = fd → fdes.fileOpen i = none

/-- What `_sys_open` should do: without a free descriptor or a file it returns an error
and changes nothing, and otherwise it puts the file at the smallest free descriptor. -/
def OpensSmallest (fdes : FileDesc φ) (opened : Option φ) (ret : ℤ) (fdes' : FileDesc φ) : Prop :=
  (ret < 0 ∧ fdes' = fdes ∧ (opened = none ∨ ∀ i, (fdes.fileOpen i).isSome)) ∨
    ∃ i : Fin fileOpens, ret = i ∧ opened.isSome ∧ fdes.fileOpen i = none ∧
      (∀ j < i, (fdes.fileOpen j).isSome) ∧
      fdes'.fileOpen = Function.update fdes.fileOpen i opened

/-- What a call should do: it stays inside the table, on a descriptor that is not open it
returns an error and changes nothing, it opens the smallest free descriptor, and the
counter is right afterwards. -/
structure Behaves (call : FileCall φ) (fdes : FileDesc φ) : Prop where
  inside : (sysCall fdes call).isSome
  closed : ∀ fd ret fdes', call.fd = some fd → fdes.Closed fd →
    sysCall fdes call = some (ret, fdes') → ret < 0 ∧ fdes' = fdes
  smallest : ∀ opened ret fdes', call = .opens opened →
    sysCall fdes call = some (ret, fdes') → OpensSmallest fdes opened ret fdes'
  counted : ∀ ret fdes', sysCall fdes call = some (ret, fdes') → fdes'.Counted

/-- The descriptor of the call is not negative, and it is not the index just behind the
table. -/
def FileCall.InRange (call : FileCall φ) : Prop :=
  ∀ fd, call.fd = some fd → 0 ≤ fd ∧ fd ≠ fileOpens

@[simp]
theorem FileDesc.slot_natCast (fdes : FileDesc φ) (i : Fin fileOpens) :
    fdes.slot i = some (fdes.fileOpen i) := by
  simp [slot]

theorem FileDesc.slot_isSome_iff (fdes : FileDesc φ) (fd : ℤ) :
    (fdes.slot fd).isSome ↔ 0 ≤ fd ∧ fd < fileOpens := by
  unfold slot
  split_ifs with h
  · simp only [isSome_some, true_iff]
    omega
  · simp only [isSome_none, Bool.false_eq_true, false_iff]
    omega

variable {fd : ℤ}

theorem fd_cases (hnonneg : 0 ≤ fd) (hne : fd ≠ fileOpens) :
    (fileOpens : ℤ) < fd ∨ ∃ i : Fin fileOpens, (i : ℤ) = fd := by
  by_cases hlt : fd.toNat < fileOpens
  · exact .inr ⟨⟨fd.toNat, hlt⟩, Int.toNat_of_nonneg hnonneg⟩
  · left
    omega

/-- The test of `fd_to_file` and `_sys_close` accepts every descriptor up to 64. -/
theorem not_lt_natCast (i : Fin fileOpens) : ¬ (fileOpens : ℤ) < (i : ℤ) := by
  have hi := i.isLt
  omega

variable {fdes : FileDesc φ} {i : Fin fileOpens} {call : FileCall φ}

theorem FileDesc.closed_natCast_iff : fdes.Closed i ↔ fdes.fileOpen i = none := by
  constructor
  · intro h
    exact h i rfl
  · intro h j hj
    obtain rfl : j = i := Fin.ext (by exact_mod_cast hj)
    exact h

theorem FileDesc.store_fileOpen (fdes : FileDesc φ) (i : Fin fileOpens) (file : Option φ) :
    (fdes.store i file).fileOpen = Function.update fdes.fileOpen i file := by
  funext j
  by_cases hji : j = i
  · simp [store, hji]
  · have hne : ((j : ℕ) : ℤ) ≠ (i : ℕ) := fun h => hji (Fin.ext (by exact_mod_cast h))
    rw [Function.update_of_ne hji]
    exact if_neg hne

theorem FileDesc.mem_openSlots_store {j : Fin fileOpens} {file : Option φ} :
    j ∈ (fdes.store i file).openSlots ↔ if j = i then file.isSome else j ∈ fdes.openSlots := by
  simp only [openSlots, Finset.mem_filter, Finset.mem_univ, true_and, store_fileOpen]
  by_cases hji : j = i
  · subst hji
    simp
  · simp [hji]

theorem FileDesc.card_openSlots_store_some (hfree : fdes.fileOpen i = none) (file : φ) :
    (fdes.store i (some file)).openSlots.card = fdes.openSlots.card + 1 := by
  have hnot : i ∉ fdes.openSlots := by simp [openSlots, hfree]
  have heq : (fdes.store i (some file)).openSlots = insert i fdes.openSlots := by
    ext j
    rw [mem_openSlots_store, Finset.mem_insert]
    by_cases hji : j = i <;> simp [hji]
  rw [heq, Finset.card_insert_of_notMem hnot]

theorem FileDesc.card_openSlots_store_none {file : φ} (hopen : fdes.fileOpen i = some file) :
    (fdes.store i none).openSlots.card + 1 = fdes.openSlots.card := by
  have hmem : i ∈ fdes.openSlots := by simp [openSlots, hopen]
  have heq : (fdes.store i none).openSlots = fdes.openSlots.erase i := by
    ext j
    rw [mem_openSlots_store, Finset.mem_erase]
    by_cases hji : j = i <;> simp [hji]
  rw [heq, Finset.card_erase_add_one hmem]

theorem FileDesc.openSlots_store_of_some {file : φ} (hopen : fdes.fileOpen i = some file)
    (file' : φ) : (fdes.store i (some file')).openSlots = fdes.openSlots := by
  have hmem : i ∈ fdes.openSlots := by simp [openSlots, hopen]
  ext j
  rw [mem_openSlots_store]
  by_cases hji : j = i <;> simp [hji, hmem]

/-- A call that fails: an error is returned and the table is as before. -/
def Refused (fdes : FileDesc φ) (result : ℤ × FileDesc φ) : Prop :=
  result.1 < 0 ∧ result.2 = fdes

/-- A call on an open file in range keeps the counter right and refuses closed
descriptors. -/
theorem onFile_spec {refused : Bool} {err : ℤ} (herr : err < 0) {op : φ → ℤ × φ}
    (hcounted : fdes.Counted) (hnonneg : 0 ≤ fd) (hne : fd ≠ fileOpens) :
    ∃ result, onFile refused err op fdes fd = some result ∧
      (fdes.Closed fd → Refused fdes result) ∧ result.2.Counted := by
  rcases fd_cases hnonneg hne with hlarge | ⟨i, rfl⟩
  · refine ⟨(err, fdes), ?_, fun _ => ⟨herr, rfl⟩, hcounted⟩
    simp [onFile, fdToFile, hlarge]
  · simp only [onFile, fdToFile, not_lt_natCast, if_false, FileDesc.slot_natCast, map_some,
      FileDesc.closed_natCast_iff]
    cases hslot : fdes.fileOpen i with
    | none => exact ⟨(err, fdes), rfl, fun _ => ⟨herr, rfl⟩, hcounted⟩
    | some file =>
      cases refused with
      | true => exact ⟨(err, fdes), rfl, fun _ => ⟨herr, rfl⟩, hcounted⟩
      | false =>
        refine ⟨_, rfl, nofun, ?_⟩
        have hslots := FileDesc.openSlots_store_of_some hslot (op file).2
        unfold FileDesc.Counted at hcounted ⊢
        change fdes.openNr = ((fdes.store i (some (op file).2)).openSlots.card : ℤ)
        rw [hslots, hcounted]

/-- `_sys_close` in range keeps the counter right and refuses closed descriptors. -/
theorem sysClose_spec (hcounted : fdes.Counted) (hnonneg : 0 ≤ fd) (hne : fd ≠ fileOpens) :
    ∃ result, sysClose fdes fd = some result ∧ (fdes.Closed fd → Refused fdes result) ∧
      result.2.Counted := by
  have herr : -enoent < 0 := by decide
  rcases fd_cases hnonneg hne with hlarge | ⟨i, rfl⟩
  · refine ⟨(-enoent, fdes), ?_, fun _ => ⟨herr, rfl⟩, hcounted⟩
    simp [sysClose, hlarge]
  · simp only [sysClose, not_lt_natCast, if_false, FileDesc.slot_natCast, map_some,
      FileDesc.closed_natCast_iff]
    cases hslot : fdes.fileOpen i with
    | none => exact ⟨(-enoent, fdes), rfl, fun _ => ⟨herr, rfl⟩, hcounted⟩
    | some file =>
      refine ⟨_, rfl, nofun, ?_⟩
      have hcard := FileDesc.card_openSlots_store_none hslot
      unfold FileDesc.Counted at hcounted ⊢
      change fdes.openNr - 1 = ((fdes.store i none).openSlots.card : ℤ)
      omega

/-- `_sys_open` opens the smallest free descriptor and keeps the counter right. -/
theorem sysOpen_spec (hcounted : fdes.Counted) (opened : Option φ) :
    OpensSmallest fdes opened (sysOpen fdes opened).1 (sysOpen fdes opened).2 ∧
      (sysOpen fdes opened).2.Counted := by
  have hemfile : -emfile < 0 := by decide
  have henoent : -enoent < 0 := by decide
  unfold sysOpen
  cases hfind : Fin.find? fun fd => (fdes.fileOpen fd).isNone with
  | none =>
    have hfull := Fin.find?_eq_none_iff.mp hfind
    refine ⟨.inl ⟨hemfile, rfl, .inr fun i => ?_⟩, hcounted⟩
    simpa using hfull i
  | some i =>
    obtain ⟨hfree, hsmaller⟩ := Fin.find?_eq_some_iff.mp hfind
    cases opened with
    | none => exact ⟨.inl ⟨henoent, rfl, .inl rfl⟩, hcounted⟩
    | some file =>
      have hnone : fdes.fileOpen i = none := isNone_iff_eq_none.mp hfree
      constructor
      · refine .inr ⟨i, rfl, rfl, hnone, fun j hj => ?_, fdes.store_fileOpen i (some file)⟩
        simpa using hsmaller j hj
      · have hcard := FileDesc.card_openSlots_store_some hnone file
        unfold FileDesc.Counted at hcounted ⊢
        change fdes.openNr + 1 = ((fdes.store i (some file)).openSlots.card : ℤ)
        omega

/-- A call that works on a descriptor behaves when it refuses closed descriptors and keeps
the counter right. -/
theorem behaves_of_result (hfd : call.fd = some fd)
    (hspec : ∃ result, sysCall fdes call = some result ∧
      (fdes.Closed fd → Refused fdes result) ∧ result.2.Counted) : Behaves call fdes := by
  obtain ⟨result, hcall, hclosed, hcounted⟩ := hspec
  constructor
  · rw [hcall]
    rfl
  · intro fd' ret fdes' hfd' hclosed' hcall'
    obtain rfl : fd = fd' := some.inj (hfd.symm.trans hfd')
    obtain rfl : result = (ret, fdes') := some.inj (hcall.symm.trans hcall')
    exact hclosed hclosed'
  · rintro opened ret fdes' rfl
    simp [FileCall.fd] at hfd
  · intro ret fdes' hcall'
    obtain rfl : result = (ret, fdes') := some.inj (hcall.symm.trans hcall')
    exact hcounted

theorem behaves_opens (hcounted : fdes.Counted) (opened : Option φ) :
    Behaves (.opens opened) fdes := by
  obtain ⟨hsmallest, hcounted'⟩ := sysOpen_spec hcounted opened
  constructor
  · rfl
  · simp [FileCall.fd]
  · intro opened' ret fdes' hopens hcall
    obtain rfl := FileCall.opens.inj hopens
    rw [some.inj hcall] at hsmallest
    exact hsmallest
  · intro ret fdes' hcall
    rw [some.inj hcall] at hcounted'
    exact hcounted'

/-- With a right counter, every call with a descriptor in range behaves. -/
theorem behaves_of_inRange (hcounted : fdes.Counted) (hrange : call.InRange) :
    Behaves call fdes := by
  have heinval : -einval < 0 := by decide
  have henoent : -enoent < 0 := by decide
  cases call with
  | opens opened => exact behaves_opens hcounted opened
  | close fd =>
    obtain ⟨hnonneg, hne⟩ := hrange fd rfl
    exact behaves_of_result rfl (sysClose_spec hcounted hnonneg hne)
  | read fd size read =>
    obtain ⟨hnonneg, hne⟩ := hrange fd rfl
    exact behaves_of_result rfl (onFile_spec heinval hcounted hnonneg hne)
  | write fd size write =>
    obtain ⟨hnonneg, hne⟩ := hrange fd rfl
    exact behaves_of_result rfl (onFile_spec heinval hcounted hnonneg hne)
  | seek fd offset seek =>
    obtain ⟨hnonneg, hne⟩ := hrange fd rfl
    exact behaves_of_result rfl (onFile_spec heinval hcounted hnonneg hne)
  | ioctl fd ioctl =>
    obtain ⟨hnonneg, hne⟩ := hrange fd rfl
    exact behaves_of_result rfl (onFile_spec henoent hcounted hnonneg hne)
  | getdents fd getdents =>
    obtain ⟨hnonneg, hne⟩ := hrange fd rfl
    exact behaves_of_result rfl (onFile_spec henoent hcounted hnonneg hne)

theorem inRange_of_slot_isSome (fdes : FileDesc φ)
    (h : (fileOpens : ℤ) < fd ∨ (fdes.slot fd).isSome) : 0 ≤ fd ∧ fd ≠ fileOpens := by
  rw [FileDesc.slot_isSome_iff] at h
  omega

theorem inRange_of_onFile {refused : Bool} {err : ℤ} {op : φ → ℤ × φ}
    (hinside : (onFile refused err op fdes fd).isSome) : 0 ≤ fd ∧ fd ≠ fileOpens := by
  rw [onFile, isSome_map, fdToFile] at hinside
  split_ifs at hinside with hlarge
  · exact inRange_of_slot_isSome fdes (.inl hlarge)
  · exact inRange_of_slot_isSome fdes (.inr hinside)

/-- Every call that stays inside the table has a descriptor in range. -/
theorem inRange_of_inside (hinside : (sysCall fdes call).isSome) : call.InRange := by
  intro fd hfd
  cases call with
  | opens opened => simp [FileCall.fd] at hfd
  | close fd' =>
    cases hfd
    simp only [sysCall, sysClose] at hinside
    split_ifs at hinside with hlarge
    · exact inRange_of_slot_isSome fdes (.inl hlarge)
    · rw [isSome_map] at hinside
      exact inRange_of_slot_isSome fdes (.inr hinside)
  | read fd' size read =>
    cases hfd
    exact inRange_of_onFile hinside
  | write fd' size write =>
    cases hfd
    exact inRange_of_onFile hinside
  | seek fd' offset seek =>
    cases hfd
    exact inRange_of_onFile hinside
  | ioctl fd' ioctl =>
    cases hfd
    exact inRange_of_onFile hinside
  | getdents fd' getdents =>
    cases hfd
    exact inRange_of_onFile hinside

/-- The table of a new task is counted right when the terminal could be opened three
times. -/
theorem allocAndInitFileDesc_counted_iff (stdin stdout stderr : Option φ) :
    (allocAndInitFileDesc stdin stdout stderr).Counted ↔
      stdin.isSome ∧ stdout.isSome ∧ stderr.isSome := by
  let first : Finset (Fin fileOpens) := {0, 1, 2}
  have hmem : ∀ i, i ∈ (allocAndInitFileDesc stdin stdout stderr).openSlots ↔
      ((allocAndInitFileDesc stdin stdout stderr).fileOpen i).isSome := by
    simp [FileDesc.openSlots]
  have hsub : (allocAndInitFileDesc stdin stdout stderr).openSlots ⊆ first := by
    intro i hi
    rw [hmem, allocAndInitFileDesc] at hi
    by_contra hnot
    simp only [first, Finset.mem_insert, Finset.mem_singleton, not_or] at hnot
    obtain ⟨h0, h1, h2⟩ := hnot
    have hval : (i : ℕ) ≠ 0 ∧ (i : ℕ) ≠ 1 ∧ (i : ℕ) ≠ 2 :=
      ⟨fun h => h0 (Fin.ext h), fun h => h1 (Fin.ext h), fun h => h2 (Fin.ext h)⟩
    simp [hval] at hi
  have hcard : first.card = 3 := by decide
  constructor
  · intro hcounted
    have hthree : (3 : ℤ) = (allocAndInitFileDesc stdin stdout stderr).openSlots.card := hcounted
    have heq := Finset.eq_of_subset_of_card_le hsub (by omega)
    have hall : ∀ i ∈ first, ((allocAndInitFileDesc stdin stdout stderr).fileOpen i).isSome := by
      intro i hi
      rw [← hmem, heq]
      exact hi
    exact ⟨hall 0 (by decide), hall 1 (by decide), hall 2 (by decide)⟩
  · rintro ⟨hin, hout, herr⟩
    have heq : (allocAndInitFileDesc stdin stdout stderr).openSlots = first := by
      apply hsub.antisymm
      intro i hi
      simp only [first, Finset.mem_insert, Finset.mem_singleton] at hi
      rw [hmem]
      rcases hi with rfl | rfl | rfl
      · exact hin
      · exact hout
      · exact herr
    unfold FileDesc.Counted
    rw [heq, hcard]
    rfl

theorem inRange_of_meets {calls : List (FileCall φ)} (hmeets : Runs.Meets step Behaves calls fdes) :
    ∀ call ∈ calls, call.InRange := by
  induction calls generalizing fdes with
  | nil => simp
  | cons call calls ih =>
    obtain ⟨hcall, hrest⟩ := hmeets
    obtain ⟨result, hresult⟩ := isSome_iff_exists.mp hcall.inside
    have hcalls := ih (hrest result.2 (by rw [step, hresult]; rfl))
    simp only [List.mem_cons, forall_eq_or_imp]
    exact ⟨inRange_of_inside hcall.inside, hcalls⟩

theorem meets_of_inRange {calls : List (FileCall φ)} (hcounted : fdes.Counted)
    (hrange : ∀ call ∈ calls, call.InRange) : Runs.Meets step Behaves calls fdes := by
  induction calls generalizing fdes with
  | nil => trivial
  | cons call calls ih =>
    have hcall := behaves_of_inRange hcounted (hrange call List.mem_cons_self)
    refine ⟨hcall, fun fdes' hstep => ?_⟩
    obtain ⟨⟨ret, table⟩, hresult, rfl⟩ := map_eq_some_iff.mp hstep
    exact ih (hcall.counted ret table hresult) fun c hc => hrange c (List.mem_cons_of_mem _ hc)

/-- In a new task, the counter is right and every call of every sequence behaves exactly
when the terminal could be opened three times and no call has a negative descriptor or
the descriptor 64. -/
theorem calls_behave_iff (stdin stdout stderr : Option φ) (calls : List (FileCall φ)) :
    ((allocAndInitFileDesc stdin stdout stderr).Counted ∧
        Runs.Meets step Behaves calls (allocAndInitFileDesc stdin stdout stderr)) ↔
      (stdin.isSome ∧ stdout.isSome ∧ stderr.isSome) ∧ ∀ call ∈ calls, call.InRange := by
  rw [← allocAndInitFileDesc_counted_iff]
  constructor
  · rintro ⟨hcounted, hmeets⟩
    exact ⟨hcounted, inRange_of_meets hmeets⟩
  · rintro ⟨hcounted, hrange⟩
    exact ⟨hcounted, meets_of_inRange hcounted hrange⟩

/-- The table of a new task, with three files. -/
def newTable : FileDesc ℕ := allocAndInitFileDesc (some 0) (some 1) (some 2)

/-- The bound test lets the descriptor 64 and negative descriptors pass, and the calls
read outside of the table. -/
theorem newTable_outside :
    newTable.Counted ∧ ¬ Behaves (.close 64) newTable ∧ ¬ Behaves (.ioctl (-2) fun f => (0, f))
      newTable := by
  refine ⟨by decide, ?_, ?_⟩
  · intro h
    exact absurd h.inside (by decide)
  · intro h
    exact absurd h.inside (by decide)

end Chunos.File
