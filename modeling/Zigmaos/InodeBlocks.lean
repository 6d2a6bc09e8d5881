import Zigmaos.FileSystem
import Zigmaos.Transition

/-!
# The blocks of an inode

`getBlock`, `truncate`, `read` and `write` of `inode.zig` over the block
addresses of the inodes, the free map and the data blocks. Each operation runs
under the lock of its inode. The blocks before `nmeta` hold the log, the inodes
and the free map itself, which are the other fields of the state. An inode here
is its in-memory copy; every operation ends with `update`.
-/
namespace Zigmaos.InodeBlocks
open FileSystem (InodeType)

abbrev directPointerCount : ℕ := 12
abbrev indirectPointerBlockIndex : Fin 13 := 12
abbrev indirectPointerCount : ℕ := 256
def maxFileBlockCount : ℕ := directPointerCount + indirectPointerCount

theorem direct_lt {index : ℕ} (h : index < directPointerCount) : index < 13 := h.trans (by decide)

structure DiskInode where
  type : InodeType
  linkCount : ℕ
  size : ℕ
  addrs : Fin 13 → ℕ

/-- `DiskInode{}` with its type set. -/
def DiskInode.ofType (type : InodeType) : DiskInode := ⟨type, 0, 0, fun _ => 0⟩

structure State where
  /-- `super_block.size` -/
  superSize : ℕ
  nmeta : ℕ
  used : ℕ → Bool
  blocks : ℕ → Block
  inodes : ℕ → DiskInode
  /-- The operations that the log has outstanding. -/
  outstanding : ℕ

inductive Panic
  | logWriteOutsideOfTrans
  | blockNumberOutOfRange
  | tryingToFreeUnusedBlock
  deriving DecidableEq

namespace State

def setInode (s : State) (n : ℕ) (inode : DiskInode) : State :=
  { s with inodes := Function.update s.inodes n inode }

def setAddr (s : State) (n : ℕ) (i : Fin 13) (b : ℕ) : State :=
  s.setInode n { s.inodes n with addrs := Function.update (s.inodes n).addrs i b }

def setSize (s : State) (n size : ℕ) : State := s.setInode n { s.inodes n with size := size }

def setBlock (s : State) (b : ℕ) (data : Block) : State :=
  { s with blocks := Function.update s.blocks b data }

def setUsed (s : State) (b : ℕ) (u : Bool) : State :=
  { s with used := Function.update s.used b u }

/-- `addresses[k]` of an indirect block. -/
def entry (s : State) (indirectBlock : ℕ) (k : ℕ) : ℕ :=
  (s.blocks indirectBlock).readField (4 * k) 4

/-- `log.write`, as far as it matters here. -/
def logWrite (s : State) : Except Panic State :=
  if s.outstanding < 1 then .error .logWriteOutsideOfTrans else .ok s

/-- `findFree` in the part of the free map that begins with `blockNumber`. -/
def findFree (s : State) (blockNumber : ℕ) : Option ℕ :=
  ((List.range (min bitmapBitsPerBlock (s.superSize - blockNumber))).find?
    (fun i => !s.used (blockNumber + i))).map (blockNumber + ·)

/-- `DiskBlock.allocate`: `none` is `error.OutOfBlocks`. -/
def allocate (s : State) : Except Panic (Option ℕ × State) :=
  match (List.range ((s.superSize + (bitmapBitsPerBlock - 1)) / bitmapBitsPerBlock)).findSome?
      (fun k => s.findFree (k * bitmapBitsPerBlock)) with
  | none => .ok (none, s)
  | some b =>
    match (s.setUsed b true).logWrite with
    | .error p => .error p
    | .ok s =>
      match (s.setBlock b .zero).logWrite with
      | .error p => .error p
      | .ok s => .ok (some b, s)

/-- `DiskBlock.free` -/
def free (s : State) (b : ℕ) : Except Panic State :=
  if !s.used b then .error .tryingToFreeUnusedBlock else (s.setUsed b false).logWrite

def getDiskBlockDirect (s : State) (n : ℕ) (i : Fin 13) : Option ℕ :=
  if (s.inodes n).addrs i = 0 then none else some ((s.inodes n).addrs i)

/-- The block that a pointer of the inode names, allocated where there is none. -/
def pointerBlock (s : State) (n : ℕ) (i : Fin 13) : Except Panic (Option ℕ × State) :=
  match s.getDiskBlockDirect n i with
  | some b => .ok (some b, s)
  | none =>
    match s.allocate with
    | .error p => .error p
    | .ok (none, s) => .ok (none, s)
    | .ok (some b, s) => .ok (some b, s.setAddr n i b)

/-- The block that an indirect block names, allocated where there is none. -/
def entryBlock (s : State) (indirectBlock k : ℕ) : Except Panic (Option ℕ × State) :=
  if s.entry indirectBlock k ≠ 0 then .ok (some (s.entry indirectBlock k), s)
  else
    match s.allocate with
    | .error p => .error p
    | .ok (none, s) => .ok (none, s)
    | .ok (some b, s) =>
      match (s.setBlock indirectBlock
          ((s.blocks indirectBlock).writeField (4 * k) 4 b)).logWrite with
      | .error p => .error p
      | .ok s => .ok (some b, s)

/-- `none` is the error of `allocate`. -/
def getBlock (s : State) (n index : ℕ) : Except Panic (Option ℕ × State) :=
  if h : index < directPointerCount then s.pointerBlock n ⟨index, direct_lt h⟩
  else
    let indirectBlockIndex := index - directPointerCount
    if indirectPointerCount ≤ indirectBlockIndex then .error .blockNumberOutOfRange
    else
      match s.pointerBlock n indirectPointerBlockIndex with
      | .error p => .error p
      | .ok (none, s) => .ok (none, s)
      | .ok (some indirectBlock, s) => s.entryBlock indirectBlock indirectBlockIndex

/-- The turn of `truncate` for a direct pointer, and its end for the indirect one. -/
def freePointer (s : State) (n : ℕ) (i : Fin 13) : Except Panic State :=
  match s.getDiskBlockDirect n i with
  | none => .ok s
  | some b =>
    match s.free b with
    | .error p => .error p
    | .ok s => .ok (s.setAddr n i 0)

def freeEntry (indirectBlock : ℕ) (s : State) (k : ℕ) : Except Panic State :=
  if s.entry indirectBlock k ≠ 0 then s.free (s.entry indirectBlock k) else .ok s

def freeIndirect (s : State) (n : ℕ) : Except Panic State :=
  match s.getDiskBlockDirect n indirectPointerBlockIndex with
  | none => .ok s
  | some indirectBlock => do
    let s ← (List.range indirectPointerCount).foldlM (freeEntry indirectBlock) s
    s.freePointer n indirectPointerBlockIndex

def truncate (s : State) (n : ℕ) : Except Panic State := do
  let s ← ((List.finRange directPointerCount).map (Fin.castLE (by decide))).foldlM
    (fun s i => s.freePointer n i) s
  let s ← s.freeIndirect n
  (s.setSize n 0).logWrite

end State

/-- `bytes_this_block` -/
def bytesThisBlock (offset remaining : ℕ) : ℕ := min remaining (blockSize - offset % blockSize)

theorem bytesThisBlock_pos {remaining : ℕ} (offset : ℕ) (h : remaining ≠ 0) :
    0 < bytesThisBlock offset remaining := by
  simp only [bytesThisBlock, blockSize]
  omega

/-- The errors of `Inode.read` and `Inode.write`. -/
inductive Error
  | outOfInodeRange | offsetOverflows | fileOverflow | copyFailed
  deriving DecidableEq

namespace State

/-- The loop of `read`, with the bytes read so far. `copyOut k` tells whether the
destination takes the bytes from the `k`-th on. -/
def readLoop (s : State) (n : ℕ) (copyOut : ℕ → Bool) (offset : ℕ) (bytes : List UInt8)
    (remaining : ℕ) : Except Panic (Except Error (List UInt8) × State) :=
  if remaining = 0 then .ok (.ok bytes, s)
  else
    match s.getBlock n (offset / blockSize) with
    | .error p => .error p
    | .ok (none, s) => .ok (.ok bytes, s)
    | .ok (some b, s) =>
      let count := bytesThisBlock offset remaining
      if copyOut bytes.length then
        s.readLoop n copyOut (offset + count)
          (bytes ++ (List.range count).map (fun i => (s.blocks b).byte (offset % blockSize + i)))
          (remaining - count)
      else .ok (.error .copyFailed, s)
termination_by remaining
decreasing_by
  have := bytesThisBlock_pos offset ‹_›
  omega

def read (s : State) (n : ℕ) (copyOut : ℕ → Bool) (offset count : ℕ) :
    Except Panic (Except Error (List UInt8) × State) :=
  if (s.inodes n).size < offset then .ok (.ok [], s)
  else if 2 ^ 32 ≤ offset + count then .ok (.error .offsetOverflows, s)
  else s.readLoop n copyOut offset []
    (if (s.inodes n).size < offset + count then (s.inodes n).size - offset else count)

/-- The loop of `write`: where the offset ends up. `copyIn k count` are the bytes
that come in from the `k`-th on, and whether they are all there; those that come
before a failure are in the buffer of the block. -/
def writeLoop (s : State) (n : ℕ) (copyIn : ℕ → ℕ → List UInt8 × Bool) (offset written : ℕ)
    (remaining : ℕ) : Except Panic (ℕ × ℕ × State) :=
  if remaining = 0 then .ok (offset, written, s)
  else
    match s.getBlock n (offset / blockSize) with
    | .error p => .error p
    | .ok (none, s) => .ok (offset, written, s)
    | .ok (some b, s) =>
      let count := bytesThisBlock offset remaining
      let bytes := (copyIn written count).1.take count
      let s := s.setBlock b ((s.blocks b).splice (offset % blockSize) bytes.length
        (fun i => (bytes[i]?).getD 0))
      if (copyIn written count).2 then
        match s.logWrite with
        | .error p => .error p
        | .ok s => s.writeLoop n copyIn (offset + count) (written + count) (remaining - count)
      else .ok (offset, written, s)
termination_by remaining
decreasing_by
  have := bytesThisBlock_pos offset ‹_›
  omega

/-- The number of bytes written. -/
def write (s : State) (n : ℕ) (copyIn : ℕ → ℕ → List UInt8 × Bool) (offset count : ℕ) :
    Except Panic (Except Error ℕ × State) :=
  if (s.inodes n).size < offset then .ok (.error .outOfInodeRange, s)
  else if 2 ^ 32 ≤ offset + count then .ok (.error .offsetOverflows, s)
  else if blockSize * maxFileBlockCount < offset + count then .ok (.error .fileOverflow, s)
  else
    match s.writeLoop n copyIn offset 0 count with
    | .error p => .error p
    | .ok (offset, written, s) =>
      match (if (s.inodes n).size < offset then s.setSize n offset else s).logWrite with
      | .error p => .error p
      | .ok s => .ok (.ok written, s)

/-- What `lock` makes sure of. -/
def Allocated (s : State) (n : ℕ) : Prop := (s.inodes n).type ≠ .free

instance (s : State) (n : ℕ) : Decidable (s.Allocated n) := inferInstanceAs (Decidable (_ ≠ _))

end State

/-- The operations on inodes that system calls are made of. -/
inductive Event
  | beginOperation
  | endOperation
  | alloc (n : ℕ) (type : InodeType)
  | read (n : ℕ) (copyOut : ℕ → Bool) (offset count : ℕ)
  | write (n : ℕ) (copyIn : ℕ → ℕ → List UInt8 × Bool) (offset count : ℕ)
  | truncate (n : ℕ)
  /-- An assignment to `link_count` and the `update` after it. -/
  | setLinkCount (n linkCount : ℕ)
  /-- The last `put` of an inode without links. -/
  | put (n : ℕ)

open State in
/-- `none`: the operation cannot happen, or it panics. -/
def step (s : State) : Event → Option State
  | .beginOperation => some { s with outstanding := s.outstanding + 1 }
  | .endOperation =>
    if 0 < s.outstanding then some { s with outstanding := s.outstanding - 1 } else none
  | .alloc n type =>
    if ¬ s.Allocated n ∧ type ≠ .free then
      (s.setInode n (.ofType type)).logWrite.toOption
    else none
  | .read n copyOut offset count =>
    if s.Allocated n then (s.read n copyOut offset count).toOption.map Prod.snd else none
  | .write n copyIn offset count =>
    if s.Allocated n then (s.write n copyIn offset count).toOption.map Prod.snd else none
  | .truncate n => if s.Allocated n then (s.truncate n).toOption else none
  | .setLinkCount n linkCount =>
    if s.Allocated n then
      (s.setInode n { s.inodes n with linkCount := linkCount }).logWrite.toOption
    else none
  | .put n =>
    if s.Allocated n then
      match s.truncate n with
      | .error _ => none
      | .ok s => (s.setInode n { s.inodes n with type := .free }).logWrite.toOption
    else none

/-- The entry for the block of that index, direct or indirect. -/
def State.blockEntry (s : State) (n index : ℕ) : ℕ :=
  if h : index < directPointerCount then (s.inodes n).addrs ⟨index, h.trans (by decide)⟩
  else if index - directPointerCount < indirectPointerCount then
    if (s.inodes n).addrs indirectPointerBlockIndex = 0 then 0
    else s.entry ((s.inodes n).addrs indirectPointerBlockIndex) (index - directPointerCount)
  else 0

/-- No block below the size of an allocated inode is missing. -/
def NoMissing (s : State) : Prop :=
  ∀ n, s.Allocated n → ∀ i, i * blockSize < (s.inodes n).size → s.blockEntry n i ≠ 0

end Zigmaos.InodeBlocks
