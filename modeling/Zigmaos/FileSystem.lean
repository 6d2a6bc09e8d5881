import Zigmaos.DirectoryContent
import Zigmaos.Program

/-!
# The file system of a running kernel

The inodes on disk, the inode table, the file table and the processes, and what
the operations of `inode.zig`, `file.zig` and `sysargs.zig` do to them. An
operation is a stretch of code that runs under one lock, or that only touches
what its caller has locked. The bytes of a file stand for the size, the block
addresses and the data blocks of its inode; `space` answers whether the blocks
that one more write needs can be allocated.
-/
namespace Zigmaos.FileSystem

abbrev nInode : ℕ := 50
abbrev nFile : ℕ := 100
abbrev noFile : ℕ := 16
def rootInodeNumber : ℕ := 1
def maxDeviceCount : ℕ := 10
def maxFileSize : ℕ := 268 * 1024

structure DeviceId where
  major : ℕ
  minor : ℕ
  deriving DecidableEq, Repr

namespace DeviceId
def rootFsDevice : DeviceId := ⟨2, 1⟩
def zero : DeviceId := ⟨0, 0⟩
end DeviceId

/-- What `filesystem_device` and `inode_number` identify. -/
structure InodeId where
  device : DeviceId
  number : ℕ
  deriving DecidableEq, Repr

def InodeId.root : InodeId := ⟨.rootFsDevice, rootInodeNumber⟩

inductive InodeType
  | free | directory | file | device
  deriving DecidableEq, Repr

/-- The on-disk inode, with the bytes that its addresses and size stand for. -/
structure DiskInode where
  device : DeviceId
  content : List UInt8
  type : InodeType
  linkCount : ℕ
  deriving DecidableEq

/-- `DiskInode{}` -/
def DiskInode.empty : DiskInode := ⟨.zero, [], .free, 0⟩

/-- Pointers to an entry of the inode table and to one of the file table. -/
abbrev Handle := Fin nInode
abbrev FileIndex := Fin nFile
abbrev FileDescriptor := Fin noFile

/-- An entry of the inode table; `holder` is the process that holds `raw_lock`. -/
structure Inode (π : Type) where
  id : InodeId
  referenceCount : ℕ
  holder : Option π
  isValid : Bool
  diskInode : DiskInode

inductive FileData
  | none
  | pipe
  | inode (inode : Handle) (offset : ℕ)
  | device (inode : Handle) (deviceId : DeviceId)
  deriving DecidableEq

/-- `File.getInode`, where `File.hasInode`. -/
def FileData.inode? : FileData → Option Handle
  | .none | .pipe => Option.none
  | .inode h _ | .device h _ => some h

structure File where
  referenceCount : ℕ
  isReadable : Bool
  isWriteable : Bool
  data : FileData
  deriving DecidableEq

structure Process where
  currentWorkingDirectory : Handle
  openFiles : FileDescriptor → Option FileIndex
  isZombie : Bool

/-- The calls of `@panic`. -/
inductive Panic
  | noInodesAvailable
  | cantLockUnusedInode
  | cantLockFreeInode
  | notHoldingInodeLock
  | cantUnlockUnusedInode
  | inodeIsNotADirectory
  | dirlookupReadFailed
  | dirlookupShortRead
  | linkEntryReadFailed
  | linkEntryShortRead
  | isEmptyReadFailed
  | isEmptyShortRead
  | unlinkNlink
  | unlinkWriteFailed
  | unlinkWritei
  | fileClosingFailed
  deriving DecidableEq, Repr

/-- The errors of `Inode.write`. -/
inductive WriteError
  | outOfInodeRange | offsetOverflows | fileOverflow
  deriving DecidableEq, Repr

structure Kernel (π : Type) where
  ninodes : ℕ
  disk : InodeId → DiskInode
  table : Handle → Inode π
  files : FileIndex → File
  processes : π → Process
  /-- Whether the blocks for the `k`-th write that extends a file can be had. -/
  space : ℕ → Bool
  requests : ℕ
  /-- The operations a process has begun and not ended. -/
  depth : π → ℕ
  /-- Some process has called `beginOperation` inside an operation. -/
  nested : Bool

/-- The operations that the system calls are made of. -/
inductive Op
  | beginOperation
  | endOperation
  | get (id : InodeId)
  | duplicateCurrentWorkingDirectory
  | lock (inode : Handle)
  | release (inode : Handle)
  | putBegin (inode : Handle)
  | unlockRaw (inode : Handle)
  | dropReference (inode : Handle)
  | identify (inode : Handle)
  | diskInode (inode : Handle)
  | update (inode : Handle) (diskInode : DiskInode)
  | truncate (inode : Handle)
  | writeEntry (inode : Handle) (offset : ℕ) (entry : DirectoryEntry)
  | ninodes
  | allocNumber (id : InodeId) (type : InodeType)
  | currentWorkingDirectory
  | setCurrentWorkingDirectory (inode : Handle)
  | fileAlloc
  | fileSet (file : FileIndex) (data : FileData) (isReadable isWriteable : Bool)
  | fileDrop (file : FileIndex)
  | fileDescriptorAllocate (file : FileIndex)
  | openFile (fd : FileDescriptor)
  | clearDescriptor (fd : FileDescriptor)
  | becomeZombie
  | panic (reason : Panic)

@[reducible] def Op.Result : Op → Type
  | .get _ | .duplicateCurrentWorkingDirectory | .currentWorkingDirectory => Handle
  | .putBegin _ | .allocNumber _ _ => Bool
  | .identify _ => InodeId
  | .diskInode _ => DiskInode
  | .writeEntry _ _ _ => Except WriteError ℕ
  | .ninodes => ℕ
  | .fileAlloc => Option FileIndex
  | .fileDrop _ => Option FileData
  | .fileDescriptorAllocate _ => Option FileDescriptor
  | .openFile _ => Option FileIndex
  | .panic _ => Empty
  | _ => Unit

abbrev interface : Interface := ⟨Op, Op.Result⟩

namespace Kernel
variable {π : Type}

def setEntry (s : Kernel π) (h : Handle) (e : Inode π) : Kernel π :=
  { s with table := Function.update s.table h e }

def setFile (s : Kernel π) (f : FileIndex) (e : File) : Kernel π :=
  { s with files := Function.update s.files f e }

/-- Assign `inode.disk_inode` and write it to its inode block. -/
def store (s : Kernel π) (h : Handle) (d : DiskInode) : Kernel π :=
  { s.setEntry h { s.table h with diskInode := d } with
    disk := Function.update s.disk (s.table h).id d }

/-- `Inode.get`: the entry that holds the inode, or a recycled one. -/
def get (s : Kernel π) (id : InodeId) : Outcome (Kernel π) Panic Handle :=
  match (List.finRange nInode).find?
      (fun h => 0 < (s.table h).referenceCount ∧ (s.table h).id = id) with
  | some h =>
    .done h (s.setEntry h
      { s.table h with referenceCount := (s.table h).referenceCount + 1 })
  | none =>
    match (List.finRange nInode).find? (fun h => (s.table h).referenceCount = 0) with
    | some h =>
      .done h (s.setEntry h { s.table h with id := id, referenceCount := 1, isValid := false })
    | none => .stop .noInodesAvailable s

/-- `Inode.write` of the 32 bytes of an entry. They lie in one block, which is
there already or has to be allocated, so all of them are written or none. -/
def writeEntry (s : Kernel π) (h : Handle) (offset : ℕ) (e : DirectoryEntry) :
    Except WriteError ℕ × Kernel π :=
  let d := (s.table h).diskInode
  let extended := { d with content := DirectoryContent.splice d.content offset e.toBytes }
  if d.content.length < offset then (.error .outOfInodeRange, s)
  else if 4294967296 ≤ offset + entrySize then (.error .offsetOverflows, s)
  else if maxFileSize < offset + entrySize then (.error .fileOverflow, s)
  else if offset + entrySize ≤ d.content.length then (.ok entrySize, s.store h extended)
  else if s.space s.requests then
    (.ok entrySize, { s.store h extended with requests := s.requests + 1 })
  else (.ok 0, { s.store h d with requests := s.requests + 1 })

/-- The first critical section of `File.close`: the data of a file that nothing
refers to any more. -/
def fileDrop (s : Kernel π) (f : FileIndex) : Outcome (Kernel π) Panic (Option FileData) :=
  let file := s.files f
  if file.referenceCount < 1 then .stop .fileClosingFailed s
  else if 0 < file.referenceCount - 1 then
    .done none (s.setFile f { file with referenceCount := file.referenceCount - 1 })
  else .done (some file.data) (s.setFile f { file with referenceCount := 0, data := .none })

variable [DecidableEq π]

def setProcess (s : Kernel π) (p : π) (e : Process) : Kernel π :=
  { s with processes := Function.update s.processes p e }

def setDepth (s : Kernel π) (p : π) (n : ℕ) : Kernel π :=
  { s with depth := Function.update s.depth p n }

/-- `Inode.lock` by `p`. -/
def lock (s : Kernel π) (p : π) (h : Handle) : Outcome (Kernel π) Panic Unit :=
  let e := s.table h
  if e.referenceCount < 1 then .stop .cantLockUnusedInode s
  else if e.holder ≠ none then .block
  else if e.isValid then .done () (s.setEntry h { e with holder := some p })
  else
    let s' := s.setEntry h
      { e with holder := some p, isValid := true, diskInode := s.disk e.id }
    if (s.disk e.id).type = .free then .stop .cantLockFreeInode s' else .done () s'

/-- `Inode.release` by `p`. -/
def release (s : Kernel π) (p : π) (h : Handle) : Outcome (Kernel π) Panic Unit :=
  let e := s.table h
  if e.holder ≠ some p then .stop .notHoldingInodeLock s
  else if e.referenceCount < 1 then .stop .cantUnlockUnusedInode s
  else .done () (s.setEntry h { e with holder := none })

/-- The test of `Inode.put`: an inode without links whose only reference this
is gets locked, to be freed; else the reference is dropped. -/
def putBegin (s : Kernel π) (p : π) (h : Handle) : Outcome (Kernel π) Panic Bool :=
  let e := s.table h
  if e.referenceCount = 1 ∧ e.isValid = true ∧ e.diskInode.linkCount = 0 then
    if e.holder ≠ none then .block
    else .done true (s.setEntry h { e with holder := some p })
  else .done false (s.setEntry h { e with referenceCount := sub32 e.referenceCount 1 })

/-- What an operation of process `p` does. -/
def perform (p : π) : Program.Handler interface (Kernel π) Panic
  | .beginOperation, s =>
    .done () { s.setDepth p (s.depth p + 1) with nested := s.nested || decide (0 < s.depth p) }
  | .endOperation, s => .done () (s.setDepth p (s.depth p - 1))
  | .get id, s => s.get id
  | .duplicateCurrentWorkingDirectory, s =>
    let h := (s.processes p).currentWorkingDirectory
    .done h (s.setEntry h { s.table h with referenceCount := (s.table h).referenceCount + 1 })
  | .lock h, s => s.lock p h
  | .release h, s => s.release p h
  | .putBegin h, s => s.putBegin p h
  | .unlockRaw h, s =>
    .done () (s.setEntry h { s.table h with isValid := false, holder := none })
  | .dropReference h, s =>
    .done () (s.setEntry h
      { s.table h with referenceCount := sub32 (s.table h).referenceCount 1 })
  | .identify h, s => .done (s.table h).id s
  | .diskInode h, s => .done (s.table h).diskInode s
  | .update h d, s => .done () (s.store h d)
  | .truncate h, s => .done () (s.store h { (s.table h).diskInode with content := [] })
  | .writeEntry h offset e, s =>
    .done (s.writeEntry h offset e).1 (s.writeEntry h offset e).2
  | .ninodes, s => .done s.ninodes s
  | .allocNumber id type, s =>
    if (s.disk id).type = .free then
      .done true { s with disk := Function.update s.disk id { DiskInode.empty with type := type } }
    else .done false s
  | .currentWorkingDirectory, s => .done (s.processes p).currentWorkingDirectory s
  | .setCurrentWorkingDirectory h, s =>
    .done () (s.setProcess p { s.processes p with currentWorkingDirectory := h })
  | .fileAlloc, s =>
    match (List.finRange nFile).find? (fun f => (s.files f).referenceCount = 0) with
    | some f => .done (some f) (s.setFile f { s.files f with referenceCount := 1 })
    | none => .done none s
  | .fileSet f data isReadable isWriteable, s =>
    .done () (s.setFile f { s.files f with
      data := data, isReadable := isReadable, isWriteable := isWriteable })
  | .fileDrop f, s => s.fileDrop f
  | .fileDescriptorAllocate f, s =>
    match (List.finRange noFile).find? (fun fd => (s.processes p).openFiles fd = none) with
    | some fd =>
      .done (some fd) (s.setProcess p { s.processes p with
        openFiles := Function.update (s.processes p).openFiles fd (some f) })
    | none => .done none s
  | .openFile fd, s => .done ((s.processes p).openFiles fd) s
  | .clearDescriptor fd, s =>
    .done () (s.setProcess p { s.processes p with
      openFiles := Function.update (s.processes p).openFiles fd none })
  | .becomeZombie, s => .done () (s.setProcess p { s.processes p with isZombie := true })
  | .panic reason, s => .stop reason s

end Kernel

end Zigmaos.FileSystem
