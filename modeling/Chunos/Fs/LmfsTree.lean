import Chunos.Fs.Lmfs
import Chunos.Fs.Lookup

/-!
# The directories of an LMFS partition

A file is a record in the table of file nodes, eight of which fill a block. The record
names the first index block, and a directory lists its blocks there up to a zero. A block
of a directory has sixteen slots of 256 bytes with a name and the number of a file node.
This file has the operations of LMFS that a lookup uses, on the words of the disk, and
shows that they walk through the tree that the partition holds.
-/

namespace Chunos.Lmfs

open Lookup List

/-- The byte of a block at a position, with the words in little endian order. -/
def byteOf (buffer : ℕ → ℕ) (pos : ℕ) : UInt8 :=
  (buffer (pos / 4) / 256 ^ (pos % 4) % 256).toUInt8

/-- The string at a position of a block, read up to a zero byte or to the end of the
block, of which `n` bytes remain. -/
def stringFrom (buffer : ℕ → ℕ) : ℕ → ℕ → CString
  | 0, _ => []
  | n + 1, pos =>
    if h : byteOf buffer pos ≠ 0 then ⟨byteOf buffer pos, h⟩ :: stringFrom buffer n (pos + 1)
    else []

/-- The slots of a block of a directory. -/
def slotsPerBlock : ℕ := 16

/-- `struct lmfs_dir_entry`: the name, the type and the number of the file node. -/
structure DirEntry where
  name : CString
  type : ℕ
  fnodeIndex : ℕ
deriving DecidableEq

/-- The entry in a slot of a block. A slot is 64 words, the name is in the first 62. -/
def dirEntry (buffer : ℕ → ℕ) (slot : ℕ) : DirEntry where
  name := stringFrom buffer (4096 - 256 * slot) (256 * slot)
  type := buffer (64 * slot + 62)
  fnodeIndex := buffer (64 * slot + 63)

/-- `struct lmfs_fnode_entry`, with the fields that `lmfs_fill_fnode` reads. -/
structure FnodeRecord extends FnodeEntry where
  flag : ℕ
  mode : ℕ
  size : ℕ
  fileNr : ℕ

/-- The record in a place of a block of the table. A record is 128 words. -/
def fnodeRecord (buffer : ℕ → ℕ) (place : ℕ) : FnodeRecord where
  flag := buffer (128 * place)
  mode := buffer (128 * place + 1)
  type := buffer (128 * place + 2)
  size := buffer (128 * place + 7)
  fileNr := buffer (128 * place + 8)
  blockNr := buffer (128 * place + 9)
  dataBlock i := buffer (128 * place + 64 + i)

/-- `struct fnode` of an LMFS file, with the fields that `lmfs_fill_fnode` sets. -/
structure Node where
  mode : ℕ
  flags : ℕ
  type : ℕ
  blkCnt : ℕ
  dataSize : ℕ
  fnodeIndex : ℕ
  fileNr : ℕ
  lfnode : Fnode

/-- A node as `allocate_fnode` makes it, with all fields zero. -/
def zeroNode : Node :=
  { mode := 0, flags := 0, type := 0, blkCnt := 0, dataSize := 0, fnodeIndex := 0, fileNr := 0
    lfnode := blankFnode }

/-- A partition: the disk, and the first block of the table of file nodes. -/
structure Volume where
  disk : Disk
  fnodeStartBlock : ℕ

/-- `fnode_location`: the block and the place in it of a file node. -/
def Volume.fnodeLocation (vol : Volume) (index : ℕ) : ℕ × ℕ :=
  (index / 8 + vol.fnodeStartBlock, index % 8)

/-- `lmfs_fill_fnode`: fill a node with the file of the given number. The fields `mode` and
`type` of the node are bytes. -/
def Volume.fillFnode (vol : Volume) (fnode : Node) (index : ℕ) : ℤ × Node :=
  let (i, j) := vol.fnodeLocation index
  if i = 0 ∧ j = 0 then (-einval, fnode)
  else
    match vol.disk i with
    | .error ret => (ret, fnode)
    | .ok buffer =>
      let entry := fnodeRecord buffer j
      let (ret, lfnode) := initDataBlockInfo vol.disk fnode.lfnode entry.toFnodeEntry
      (ret,
        { mode := entry.mode % 256
          flags := entry.flag
          type := entry.type % 256
          blkCnt := entry.blockNr
          dataSize := entry.size
          fnodeIndex := index
          fileNr := entry.fileNr
          lfnode := lfnode })

/-- `lmfs_find_file`: search the slots of a block for a name. -/
def Volume.findFile (vol : Volume) (name : CString) (fnode : Node) (buffer : ℕ → ℕ) : ℤ × Node :=
  match (List.range slotsPerBlock).find? fun j => strcmp name (dirEntry buffer j).name = 0 with
  | none => (-enoent, fnode)
  | some j => vol.fillFnode fnode (dirEntry buffer j).fnodeIndex

/-- The operations of LMFS for a lookup. -/
def Volume.lookupOps (vol : Volume) : LookupOps Node (ℕ → ℕ) where
  type := Node.type
  getDataBlock fnode whence :=
    ((getDataBlock vol.disk fnode.lfnode whence).1,
      { fnode with lfnode := (getDataBlock vol.disk fnode.lfnode whence).2 })
  readBlock _ block := vol.disk block
  findFile := vol.findFile

/-- The words of a block, which are zero when it cannot be read. -/
def Volume.words (vol : Volume) (block : ℕ) : ℕ → ℕ := (vol.disk block).toOption.getD fun _ => 0

/-- The record of a file. -/
def Volume.record (vol : Volume) (index : ℕ) : FnodeRecord :=
  fnodeRecord (vol.words (vol.fnodeLocation index).1) (vol.fnodeLocation index).2

/-- The first index block of a file. -/
def Volume.indexBlock (vol : Volume) (index : ℕ) : ℕ → ℕ :=
  vol.words ((vol.record index).dataBlock (vol.record index).lvl0Base)

/-- The number of blocks that the first index block of a file lists, up to a zero. -/
def Volume.blockCount (vol : Volume) (index : ℕ) : ℕ :=
  (List.range wordsPerBlock).findIdx fun k => vol.indexBlock index k = 0

/-- The blocks that the first index block of a file lists. -/
def Volume.dataBlocks (vol : Volume) (index : ℕ) : List ℕ :=
  (List.range (vol.blockCount index)).map (vol.indexBlock index)

/-- The entries in the slots of a block. -/
def blockEntries (buffer : ℕ → ℕ) : List DirEntry := (List.range slotsPerBlock).map (dirEntry buffer)

/-- The names and the files in the blocks of a directory. -/
def Volume.dirBlocks (vol : Volume) (index : ℕ) : List (List (CString × ℕ)) :=
  (vol.dataBlocks index).map fun block =>
    (blockEntries (vol.words block)).map fun e => (e.name, e.fnodeIndex)

/-- The file with the given number is well formed: its record and its first index block can
be read and it has a type. The blocks of a directory fit into the first index block and
can be read, names are shorter than the field for them, and they belong to files of
`files`. -/
structure Volume.FileOk (vol : Volume) (files : ℕ → Prop) (index : ℕ) : Prop where
  located : vol.fnodeLocation index ≠ (0, 0)
  record_read : ∃ buffer, vol.disk (vol.fnodeLocation index).1 = .ok buffer
  index_read : ∃ buffer,
    vol.disk ((vol.record index).dataBlock (vol.record index).lvl0Base) = .ok buffer
  type_ne : (vol.record index).type ≠ 0
  type_lt : (vol.record index).type < 256
  fits : (vol.record index).type = dtDir → vol.blockCount index < wordsPerBlock
  block_read : (vol.record index).type = dtDir → ∀ block ∈ vol.dataBlocks index,
    ∃ buffer, vol.disk block = .ok buffer
  names : (vol.record index).type = dtDir → ∀ entries ∈ vol.dirBlocks index,
    ∀ e ∈ entries, e.1.length < 248 ∧ (e.1 ≠ [] → files e.2)

/-- All files of the partition are well formed. -/
def Volume.Ok (vol : Volume) (files : ℕ → Prop) : Prop := ∀ index, files index → vol.FileOk files index

variable {vol : Volume} {c index : ℕ}

theorem Volume.words_eq {block : ℕ} {buffer : ℕ → ℕ} (h : vol.disk block = .ok buffer) :
    vol.words block = buffer := by
  simp [words, h, Except.toOption]

theorem Volume.indexBlock_ne_zero (hc : c < vol.blockCount index) : vol.indexBlock index c ≠ 0 := by
  simpa using not_of_lt_findIdx hc

theorem findIdx_range {n : ℕ} {p : ℕ → Bool} (h : (List.range n).findIdx p < n) :
    p ((List.range n).findIdx p) = true := by
  have hlt : (List.range n).findIdx p < (List.range n).length := by rwa [length_range]
  have hfound := findIdx_getElem (w := hlt)
  rwa [getElem_range] at hfound

theorem Volume.indexBlock_blockCount (hfits : vol.blockCount index < wordsPerBlock) :
    vol.indexBlock index (vol.blockCount index) = 0 :=
  of_decide_eq_true (findIdx_range hfits)

@[simp]
theorem Volume.length_dirBlocks (vol : Volume) (index : ℕ) :
    (vol.dirBlocks index).length = vol.blockCount index := by
  simp [dirBlocks, dataBlocks]

theorem Volume.dirBlocks_getElem? (hc : c < vol.blockCount index) :
    (vol.dirBlocks index)[c]? =
      some ((blockEntries (vol.words (vol.indexBlock index c))).map
        fun e => (e.name, e.fnodeIndex)) := by
  simp [dirBlocks, dataBlocks, hc]

/-- The node has just been filled with the file of the given number. -/
structure Volume.Fresh (vol : Volume) (fnode : Node) (index : ℕ) : Prop where
  type_eq : fnode.type = (vol.record index).type % 256
  index_eq : fnode.fnodeIndex = index
  size_eq : fnode.dataSize = (vol.record index).size
  lvl1_eq : fnode.lfnode.lvl1 = vol.indexBlock index
  pos0_eq : fnode.lfnode.posInLvl0 = 0
  pos1_eq : fnode.lfnode.posInLvl1 = 0
  current_eq : fnode.lfnode.currentBlock = vol.indexBlock index 0

/-- A walk over a directory has come to its block `c`, with the given number. -/
structure Volume.Walking (vol : Volume) (fnode : Node) (block index c : ℕ) : Prop where
  inside : c < vol.blockCount index
  block_eq : block = vol.indexBlock index c
  lvl1_eq : fnode.lfnode.lvl1 = vol.indexBlock index
  pos0_eq : fnode.lfnode.posInLvl0 = 0
  pos1_eq : fnode.lfnode.posInLvl1 = c

/-- `lmfs_fill_fnode` succeeds for a well-formed file. -/
theorem Volume.FileOk.fillFnode {files : ℕ → Prop} (h : vol.FileOk files index) (fnode : Node) :
    (vol.fillFnode fnode index).1 = 0 ∧ vol.Fresh (vol.fillFnode fnode index).2 index := by
  obtain ⟨buffer, hbuffer⟩ := h.record_read
  obtain ⟨words, hwords⟩ := h.index_read
  have hplace : ¬ ((vol.fnodeLocation index).1 = 0 ∧ (vol.fnodeLocation index).2 = 0) :=
    fun hz => h.located (Prod.ext hz.1 hz.2)
  have hrecord : fnodeRecord buffer (vol.fnodeLocation index).2 = vol.record index := by
    rw [record, words_eq hbuffer]
  have hindex : vol.indexBlock index = words := by rw [indexBlock, words_eq hwords]
  simp only [Volume.fillFnode, hplace, if_false, hbuffer, hrecord, initDataBlockInfo, hwords]
  refine ⟨trivial, ?_⟩
  constructor
  all_goals simp [hindex]

theorem Volume.Fresh.start_block {fnode : Node} (h : vol.Fresh fnode index) :
    vol.lookupOps.getDataBlock fnode .startBlock = (vol.indexBlock index 0, fnode) := by
  simp [lookupOps, getDataBlock, h.pos0_eq, h.pos1_eq, h.current_eq]

theorem Volume.Walking.next_block {fnode : Node} {block : ℕ} (h : vol.Walking fnode block index c)
    (hfits : vol.blockCount index < wordsPerBlock) :
    (vol.lookupOps.getDataBlock fnode .nextBlock).1 = vol.indexBlock index (c + 1) ∧
      (c + 1 < vol.blockCount index →
        vol.Walking (vol.lookupOps.getDataBlock fnode .nextBlock).2
          (vol.lookupOps.getDataBlock fnode .nextBlock).1 index (c + 1)) := by
  have hinside := h.inside
  have hlast : c ≠ 1023 := by
    simp only [wordsPerBlock] at hfits
    omega
  simp only [lookupOps, getDataBlock, h.pos1_eq, hlast, if_false, Fnode.seekIn, h.lvl1_eq]
  refine ⟨trivial, fun hc => ?_⟩
  exact ⟨hc, rfl, rfl, h.pos0_eq, rfl⟩

/-- The search for a name in a block fills the node with the file of the first slot that
has the name. -/
theorem Volume.findFile_eq (vol : Volume) (name : CString) (fnode : Node) (buffer : ℕ → ℕ) :
    vol.findFile name fnode buffer =
      match ((blockEntries buffer).map fun e => (e.name, e.fnodeIndex)).find?
        (fun e => e.1 = name) with
      | none => (-enoent, fnode)
      | some e => vol.fillFnode fnode e.2 := by
  have hfind : ((blockEntries buffer).map fun e => (e.name, e.fnodeIndex)).find?
      (fun e => e.1 = name) =
      ((List.range slotsPerBlock).find? fun j => strcmp name (dirEntry buffer j).name = 0).map
        fun j => ((dirEntry buffer j).name, (dirEntry buffer j).fnodeIndex) := by
    rw [blockEntries, List.map_map, find?_map]
    simp only [strcmp_eq_zero_iff, Function.comp_def, eq_comm (a := name)]
  rw [hfind, findFile]
  cases (List.range slotsPerBlock).find? fun j => strcmp name (dirEntry buffer j).name = 0 with
  | none => rfl
  | some j => rfl

/-- A block of a directory is read and searched for a name whose entries belong to files. -/
theorem Volume.Walking.find_file {files : ℕ → Prop} (hok : vol.Ok files) {fnode : Node} {block : ℕ}
    (hfile : files index) (hdir : (vol.record index).type = dtDir)
    (hwalk : vol.Walking fnode block index c) :
    ∃ entries buffer, (vol.dirBlocks index)[c]? = some entries ∧ vol.disk block = .ok buffer ∧
      ∀ name, (∀ e ∈ entries, e.1 = name → files e.2) →
        (∀ e, entries.find? (fun e => e.1 = name) = some e →
          (vol.findFile name fnode buffer).1 = 0 ∧
            files e.2 ∧ vol.Fresh (vol.findFile name fnode buffer).2 e.2) ∧
        (entries.find? (fun e => e.1 = name) = none →
          (vol.findFile name fnode buffer).1 ≠ 0 ∧ (vol.findFile name fnode buffer).2 = fnode) := by
  have hentries := dirBlocks_getElem? hwalk.inside
  have hmem : vol.indexBlock index c ∈ vol.dataBlocks index :=
    List.mem_map.mpr ⟨c, mem_range.mpr hwalk.inside, rfl⟩
  obtain ⟨buffer, hbuffer⟩ := (hok index hfile).block_read hdir _ hmem
  rw [words_eq hbuffer] at hentries
  refine ⟨_, buffer, hentries, hwalk.block_eq ▸ hbuffer, fun name hfiles => ?_⟩
  rw [vol.findFile_eq name fnode buffer]
  constructor
  · intro e he
    have hchild := hfiles e (mem_of_find?_eq_some he) (by simpa using find?_some he)
    have hfill := (hok e.2 hchild).fillFnode fnode
    rw [he]
    exact ⟨hfill.1, hchild, hfill.2⟩
  · intro hnone
    have henoent : -enoent ≠ 0 := by decide
    rw [hnone]
    exact ⟨henoent, rfl⟩

/-- A well-formed partition is a tree of directories that the operations of LMFS walk
through. -/
def Volume.walk {vol : Volume} {files : ℕ → Prop} (hok : vol.Ok files) :
    DirWalk vol.lookupOps ℕ where
  type index := (vol.record index).type
  blocks := vol.dirBlocks
  Describes fnode index := files index ∧ vol.Fresh fnode index
  OnBlock fnode block index c :=
    files index ∧ (vol.record index).type = dtDir ∧ vol.Walking fnode block index c
  type_eq := by
    rintro fnode index ⟨hfile, hfresh⟩
    have hlt := (hok index hfile).type_lt
    exact ⟨hfresh.type_eq.trans (Nat.mod_eq_of_lt hlt), (hok index hfile).type_ne, hlt⟩
  start_block := by
    rintro fnode index ⟨hfile, hfresh⟩ hdir
    have hne : vol.dirBlocks index ≠ [] ↔ 0 < vol.blockCount index := by
      rw [← length_pos_iff, length_dirBlocks]
    rw [hfresh.start_block, hne]
    constructor
    · constructor
      · intro hblock
        by_contra hzero
        have hlen : vol.blockCount index = 0 := by omega
        have hend := indexBlock_blockCount ((hok index hfile).fits hdir)
        rw [hlen] at hend
        exact hblock hend
      · exact indexBlock_ne_zero
    · intro hpos
      exact ⟨hfile, hdir, hpos, rfl, hfresh.lvl1_eq, hfresh.pos0_eq, hfresh.pos1_eq⟩
  next_block := by
    rintro fnode block index c ⟨hfile, hdir, hwalk⟩
    have hfits := (hok index hfile).fits hdir
    obtain ⟨hnext, hwalk'⟩ := hwalk.next_block hfits
    rw [length_dirBlocks, hnext]
    constructor
    · constructor
      · intro hblock
        by_contra hend
        have hinside := hwalk.inside
        have hlen : vol.blockCount index = c + 1 := by omega
        have hzero := indexBlock_blockCount hfits
        rw [hlen] at hzero
        exact hblock hzero
      · exact indexBlock_ne_zero
    · intro hc
      rw [← hnext]
      exact ⟨hfile, hdir, hwalk' hc⟩
  find_file := by
    rintro fnode block index c ⟨hfile, hdir, hwalk⟩
    obtain ⟨entries, buffer, hentries, hread, hfind⟩ := hwalk.find_file hok hfile hdir
    refine ⟨entries, buffer, hentries, hread, fun name hname => hfind name fun e he heq => ?_⟩
    exact ((hok index hfile).names hdir _ (mem_of_getElem? hentries) e he).2 (heq ▸ hname)
  name_lt := by
    rintro fnode index ⟨hfile, -⟩ hdir entries hentries e he
    have hlt := ((hok index hfile).names hdir entries hentries e he).1
    simp only [inameSize]
    omega

/-- When the free slots name files as well, the empty name is found like the others. -/
theorem Volume.walk_finds {files : ℕ → Prop} (hok : vol.Ok files)
    (hfree : ∀ index, files index → ∀ entries ∈ vol.dirBlocks index, ∀ e ∈ entries, files e.2)
    (name : CString) : (Volume.walk hok).Finds name := by
  rintro fnode block index c ⟨hfile, hdir, hwalk⟩
  obtain ⟨entries, buffer, hentries, hread, hfind⟩ := hwalk.find_file hok hfile hdir
  have hblocks : (Volume.walk hok).blocks = vol.dirBlocks := by simp only [Volume.walk]
  refine ⟨entries, buffer, hblocks ▸ hentries, hread, ?_⟩
  exact hfind name fun e he _ => hfree index hfile entries (mem_of_getElem? hentries) e he

/-- The words of a block with the given words at some places and zeros elsewhere. -/
def sparse (words : List (ℕ × ℕ)) : ℕ → ℕ := fun k => (words.lookup k).getD 0

/-- A partition with the root directory, in blocks 2 and 3, and in it the empty directory
`a`, in blocks 4 and 5. Block 1 is the table of file nodes. -/
def treeVolume : Volume where
  fnodeStartBlock := 1
  disk block := .ok (match block with
    | 1 => sparse [(2, dtDir), (96, 2), (130, dtDir), (224, 4)]
    | 2 => sparse [(0, 3)]
    | 3 => sparse [(0, 97), (62, dtDir), (63, 1)]
    | 4 => sparse [(0, 5)]
    | _ => sparse [])

theorem treeVolume_ok : treeVolume.Ok (· < 2) := by
  intro index hindex
  exact {
    located := by interval_cases index <;> decide
    record_read := ⟨_, rfl⟩
    index_read := ⟨_, rfl⟩
    type_ne := by interval_cases index <;> decide
    type_lt := by interval_cases index <;> decide
    fits := by interval_cases index <;> decide +kernel
    block_read := fun _ _ _ => ⟨_, rfl⟩
    names := by interval_cases index <;> decide +kernel }

/-- The node that a lookup starts from: `copy_fnode` fills a new node with the root. -/
def treeRoot : Node := (treeVolume.fillFnode zeroNode 0).2

theorem treeRoot_describes : (Volume.walk treeVolume_ok).Describes treeRoot 0 :=
  ⟨by decide, ((treeVolume_ok 0 (by decide)).fillFnode _).2⟩

/-- The theorem on lookups applies to the directory `a`. -/
theorem looksUp_iff_reliable_treeVolume :
    (Volume.walk treeVolume_ok).resolve 0 0 [cstr "a"] = .found 1 ∧
      (Volume.walk treeVolume_ok).LooksUp 0 0 [cstr "a"] treeRoot fun _ => false := by
  have hfound : (Volume.walk treeVolume_ok).resolve 0 0 [cstr "a"] = .found 1 := by
    decide +kernel
  have hpath : ∀ c ∈ [cstr "a"], IsComponent c := by
    simp only [IsComponent]
    decide
  refine ⟨hfound, ?_⟩
  rw [DirWalk.looksUp_iff_reliable _ hpath (by decide) treeRoot_describes (by decide),
    DirWalk.Reliable, hfound]
  exact ⟨⟨0, by decide⟩, rfl⟩

/-- The directory `a` is empty, but a lookup of `a/b` returns 0 with the node of `a`. -/
theorem treeVolume_lookup_missing :
    (Volume.walk treeVolume_ok).resolve 0 0 [cstr "a", cstr "b"] = .missing ∧
      (lookupFileFnode treeVolume.lookupOps 10 (cstr "a/b") treeRoot 0 fun _ => false).map
        (fun r => (r.ret, r.fnode.fnodeIndex)) = some (0, 1) := by
  decide +kernel

end Chunos.Lmfs
