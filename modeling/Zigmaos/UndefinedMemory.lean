import Zigmaos.SysFile
import Zigmaos.Transition

/-!
# Bytes that nothing was assigned to

`linkEntry` copies 27 bytes from a shorter name, `unlink` writes an entry with an
undefined name buffer, and `FileStatus` has four bytes of padding. Here such bytes
come from outside, and the system calls run a second time with other ones. The
rest is the kernel of `FileSystem` and the programs of `SysFile`.
-/
namespace Zigmaos.FileSystem.UndefinedMemory
open Program LittleEndian DirectoryContent

/-- What lies at byte `i` of the `k`-th structure that is stored whole. -/
abbrev Undefined := ℕ → ℕ → UInt8

/-- The entry as it is in memory: `@memcpy` takes the length of the buffer. -/
def fill (e : DirectoryEntry) (u : ℕ → UInt8) : DirectoryEntry :=
  { e with nameBuffer :=
      e.nameSlice ++ ((List.range maxEntryNameLength).map u).drop e.nameLength }

structure FileStatus where
  device : DeviceId
  inodeNumber : ℕ
  type : InodeType
  linkCount : ℕ
  size : ℕ

def typeToNat : InodeType → ℕ
  | .free => 0
  | .directory => 1
  | .file => 2
  | .device => 3

/-- The packed struct: four bits of `major`, then `minor`. -/
def deviceToNat (id : DeviceId) : ℕ := id.major + 16 * id.minor

def bytesLE (width v : ℕ) : List UInt8 := (List.range width).map (byteLE v)

/-- The 24 bytes of the extern struct; `size` is aligned to 8. -/
def FileStatus.asBytes (s : FileStatus) (u : ℕ → UInt8) : List UInt8 :=
  bytesLE 4 (deviceToNat s.device) ++ bytesLE 4 s.inodeNumber ++ bytesLE 2 (typeToNat s.type) ++
    bytesLE 2 s.linkCount ++ [u 12, u 13, u 14, u 15] ++ bytesLE 8 s.size

theorem FileStatus.length_asBytes (s : FileStatus) (u : ℕ → UInt8) :
    (s.asBytes u).length = 24 := rfl

/-- `Inode.getStatus`, with the lock around it. -/
def getStatus (inode : Handle) : Prog FileStatus := do
  invoke (.lock inode)
  let id ← invoke (.identify inode)
  let d ← invoke (.diskInode inode)
  invoke (.release inode)
  return ⟨id.device, id.number, d.type, d.linkCount, d.content.length⟩

/-! ## System calls -/

/-- Of a destination in user memory, `mapped` bytes can be written. -/
inductive Call
  | mkdir (path : Option (List UInt8))
  | open (path : Option (List UInt8)) (mode : ℕ)
  | link (old new : Option (List UInt8))
  | unlink (path : Option (List UInt8))
  | close (fd : ℕ)
  | fstat (fd mapped : ℕ)
  | read (fd count mapped : ℕ)

/-- What a call hands over once its program has run. -/
inductive Reply
  | result (succeeded : Bool)
  | descriptor (fd : Option FileDescriptor)
  | status (s : FileStatus) (mapped : ℕ)
  | content (file : FileIndex) (bytes : List UInt8) (mapped : ℕ)

/-- What the caller gets: the return value, and the bytes that reach its memory. -/
inductive Answer
  | result (succeeded : Bool)
  | descriptor (fd : Option FileDescriptor)
  | copied (returned : Option ℕ) (bytes : List UInt8)
  deriving DecidableEq

structure Machine (π : Type) where
  kernel : Kernel π
  /-- How many structures have been stored whole. -/
  stored : ℕ
  /-- What has been written to directories, and where. -/
  written : List (InodeId × ℕ × List UInt8)
  answers : List Answer

section Run
variable {π : Type}

/-- The open file of a descriptor, and its inode. -/
def fileOf (s : Kernel π) (p : π) (fd : ℕ) : Option (FileIndex × Handle) :=
  if h : fd < noFile then
    ((s.processes p).openFiles ⟨fd, h⟩).bind fun f =>
      (s.files f).data.inode?.map fun inode => (f, inode)
  else none

/-- `File.read` of kind inode: what there is from the offset of the file on. -/
def readContent (file : FileIndex) (inode : Handle) (offset count mapped : ℕ) : Prog Reply := do
  invoke (.lock inode)
  let d ← invoke (.diskInode inode)
  invoke (.release inode)
  match DirectoryContent.read d.content offset count with
  | none => return .result false
  | some bytes => return .content file bytes mapped

/-- A call of `p` as a program. A `read` of a pipe or a device is left out. -/
def Call.program (s : Kernel π) (p : π) : Call → Prog Reply
  | .mkdir path => SysFile.mkdir path >>= fun b => .done (.result b)
  | .open path mode => SysFile.openPath path mode >>= fun r => .done (.descriptor r.toOption)
  | .link old new => SysFile.link old new >>= fun r => .done (.result r.toBool)
  | .unlink path => SysFile.unlink path >>= fun r => .done (.result r.toBool)
  | .close fd => SysFile.close fd >>= fun b => .done (.result b)
  | .fstat fd mapped =>
    match fileOf s p fd with
    | none => .done (.result false)
    | some (_, inode) => getStatus inode >>= fun status => .done (.status status mapped)
  | .read fd count mapped =>
    match fileOf s p fd with
    | none => .done (.result false)
    | some (file, _) =>
      if (s.files file).isReadable then
        match (s.files file).data with
        | .inode inode offset => readContent file inode offset count mapped
        | _ => .done (.result false)
      else .done (.result false)

/-- `inode_file.offset += bytes_read` -/
def advance (s : Kernel π) (file : FileIndex) (count : ℕ) : Kernel π :=
  match (s.files file).data with
  | .inode inode offset =>
    s.setFile file { s.files file with data := .inode inode (offset + count) }
  | _ => s

/-- `copyOut` of what the program has found. -/
def deliver (u : Undefined) (m : Machine π) : Reply → Machine π × Answer
  | .result succeeded => (m, .result succeeded)
  | .descriptor fd => (m, .descriptor fd)
  | .status s mapped =>
    let bytes := s.asBytes (u m.stored)
    ({ m with stored := m.stored + 1 },
      .copied (if mapped < bytes.length then none else some 0) (bytes.take mapped))
  | .content file bytes mapped =>
    if mapped < bytes.length then (m, .copied none (bytes.take mapped))
    else
      ({ m with kernel := advance m.kernel file bytes.length }, .copied (some bytes.length) bytes)

variable [DecidableEq π]

def onKernel (m : Machine π) {α : Type} : Outcome (Kernel π) Panic α → Outcome (Machine π) Panic α
  | .done a s => .done a { m with kernel := s }
  | .stop reason s => .stop reason { m with kernel := s }
  | .block => .block

/-- `Inode.write` of an entry as it is in memory. -/
def writeEntry (m : Machine π) (h : Handle) (offset : ℕ) (e : DirectoryEntry) :
    Except WriteError ℕ × Machine π :=
  match m.kernel.writeEntry h offset e with
  | (.ok count, s) =>
    (.ok count, { m with
      kernel := s
      stored := m.stored + 1
      written := m.written ++ [((m.kernel.table h).id, offset, e.toBytes.take count)] })
  | (.error err, s) => (.error err, { m with kernel := s, stored := m.stored + 1 })

def perform (u : Undefined) (p : π) : Program.Handler interface (Machine π) Panic
  | .writeEntry h offset e, m =>
    .done (writeEntry m h offset (fill e (u m.stored))).1
      (writeEntry m h offset (fill e (u m.stored))).2
  | o, m => onKernel m (Kernel.perform p o m.kernel)

/-- A call from start to end. A panic ends the run. -/
def step (u : Undefined) (m : Machine π) (e : π × Call) : Option (Machine π) :=
  match (e.2.program m.kernel e.1).run (perform u e.1) m with
  | .done r m' =>
    some { (deliver u m' r).1 with answers := m'.answers ++ [(deliver u m' r).2] }
  | .stop _ _ => none
  | .block => none

/-! ## Where nothing undefined is stored -/

variable {u v : Undefined} {m : Machine π} {p : π}

end Run

/-! ## A new file in the root directory -/

def rootContent : List UInt8 :=
  (DirectoryEntry.empty.withName dot 1).toBytes ++ (DirectoryEntry.empty.withName dotDot 1).toBytes

def rootInode : DiskInode := ⟨.zero, rootContent, .directory, 1⟩

/-- The process sits in the root directory, and descriptor 0 is open on it. -/
def booted : Machine Unit where
  kernel :=
    { ninodes := 3
      disk := fun id => if id = .root then rootInode else .empty
      table := fun h =>
        if h = 0 then ⟨.root, 2, none, true, rootInode⟩ else ⟨⟨.zero, 0⟩, 0, none, false, .empty⟩
      files := fun f => if f = 0 then ⟨1, true, false, .inode 0 0⟩ else ⟨0, false, false, .none⟩
      processes := fun _ => ⟨0, fun fd => if fd = 0 then some 0 else none, false⟩
      space := fun _ => true
      requests := 0
      depth := fun _ => 0
      nested := false }
  stored := 0
  written := []
  answers := []

end Zigmaos.FileSystem.UndefinedMemory
