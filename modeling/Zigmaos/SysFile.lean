import Zigmaos.FileSystem

/-!
# The file system calls

The functions of `inode.zig`, `directory.zig`, `file.zig` and `sysfile.zig` as
programs over the operations of a kernel. A `defer` or `errdefer` is written out
where it runs, in reverse order of its registration. A path argument is `none`
where it cannot be fetched from the caller's memory.
-/
namespace Zigmaos.FileSystem
open Program DirectoryContent

abbrev Prog := Program interface

/-- Call an operation of the kernel. -/
abbrev invoke (o : Op) : Prog o.Result := Program.op (F := interface) o

def panic {α : Type} (reason : Panic) : Prog α := .call (.panic reason) Empty.elim

/-! ### Inodes -/

namespace Inode

def put (inode : Handle) : Prog Unit := do
  let unused ← invoke (.putBegin inode)
  when unused do
    invoke (.truncate inode)
    let d ← invoke (.diskInode inode)
    invoke (.update inode { d with type := .free })
    invoke (.unlockRaw inode)
    invoke (.dropReference inode)

def releasePut (inode : Handle) : Prog Unit := do
  invoke (.release inode)
  put inode

/-- The loop of `alloc`, over `count` inode numbers from `number` on. -/
def allocFrom (device : DeviceId) (type : InodeType) :
    (count number : ℕ) → Prog (Option Handle)
  | 0, _ => return none
  | count + 1, number => do
    if ← invoke (.allocNumber ⟨device, number⟩ type) then
      let inode ← invoke (.get ⟨device, number⟩)
      return some inode
    else allocFrom device type count (number + 1)

def alloc (device : DeviceId) (type : InodeType) : Prog (Option Handle) := do
  let ninodes ← invoke .ninodes
  allocFrom device type (ninodes - 1) 1

/-- Assign `link_count` and call `update`. -/
def setLinkCount (inode : Handle) (f : ℕ → ℕ) : Prog Unit := do
  let d ← invoke (.diskInode inode)
  invoke (.update inode { d with linkCount := f d.linkCount })

end Inode

/-- `+= 1` and `-= 1` on a `u16`. -/
def increment16 (n : ℕ) : ℕ := if n = 65535 then 0 else n + 1
def decrement16 (n : ℕ) : ℕ := if n = 0 then 65535 else n - 1

/-! ### Directories -/

namespace Directory

def init (inode : Handle) : Prog Unit := do
  let d ← invoke (.diskInode inode)
  when (d.type ≠ .directory) (panic .inodeIsNotADirectory)

/-- The inode an entry names, and the offset of the entry. -/
def lookupChild (directory : Handle) (name : Name) : Prog (Option (Handle × ℕ)) := do
  let d ← invoke (.diskInode directory)
  match findEntry Panic.dirlookupReadFailed .dirlookupShortRead d.content name with
  | .error reason => panic reason
  | .ok none => return none
  | .ok (some (offset, entry)) =>
    let id ← invoke (.identify directory)
    let inode ← invoke (.get ⟨id.device, entry.inodeNumber⟩)
    return some (inode, offset)

inductive LinkEntryError
  | nameToLong | alreadyExists | write (e : WriteError) | writeMalformed
  deriving DecidableEq, Repr

def linkEntry (directory : Handle) (name : Name) (inodeNumber : ℕ) :
    Prog (Except LinkEntryError Unit) := do
  if maxEntryNameLength < name.length then return .error .nameToLong
  else
    match ← lookupChild directory name with
    | some (inode, _) =>
      Inode.put inode
      return .error .alreadyExists
    | none =>
      let d ← invoke (.diskInode directory)
      match findFree Panic.linkEntryReadFailed .linkEntryShortRead d.content with
      | .error reason => panic reason
      | .ok (offset, entry) =>
        match ← invoke (.writeEntry directory offset (entry.withName name inodeNumber)) with
        | .error e => return .error (.write e)
        | .ok written =>
          if written ≠ entrySize then return .error .writeMalformed
          else return .ok ()

def isEmpty (directory : Handle) : Prog Bool := do
  let d ← invoke (.diskInode directory)
  match noneUsed Panic.isEmptyReadFailed .isEmptyShortRead d.content with
  | .error reason => panic reason
  | .ok empty => return empty

end Directory

/-! ### Paths -/

def slash : UInt8 := 47

/-- The first element of a path and what follows it, without leading slashes. -/
def skipPathElement (path : List UInt8) : Option (Name × List UInt8) :=
  match path.dropWhile (· = slash) with
  | [] => none
  | c :: rest =>
    some ((c :: rest).takeWhile (· ≠ slash),
      ((c :: rest).dropWhile (· ≠ slash)).dropWhile (· = slash))

/-- The elements that repeated calls of `skipPathElement` give, each with the
path after it. An element is not empty, so `path.length` calls are enough. -/
def elementsFrom : (fuel : ℕ) → List UInt8 → List (Name × List UInt8)
  | 0, _ => []
  | fuel + 1, path =>
    match skipPathElement path with
    | none => []
    | some (name, rest) => (name, rest) :: elementsFrom fuel rest

def pathElements (path : List UInt8) : List (Name × List UInt8) := elementsFrom path.length path

/-- The loop of `resolvePathHelper`: the inode it ends at and the last name. -/
def walk (returnParent : Bool) :
    List (Name × List UInt8) → Name → Handle → Prog (Option (Handle × Name))
  | [], name, current => do
    if returnParent then
      Inode.put current
      return none
    else return some (current, name)
  | (name, rest) :: elements, _, current => do
    invoke (.lock current)
    let d ← invoke (.diskInode current)
    if d.type ≠ .directory then
      Inode.releasePut current
      return none
    else if returnParent && rest.length = 0 then
      invoke (.release current)
      return some (current, name)
    else
      Directory.init current
      match ← Directory.lookupChild current name with
      | none =>
        Inode.releasePut current
        return none
      | some (next, _) =>
        Inode.releasePut current
        walk returnParent elements name next

def resolvePathHelper (path : List UInt8) (returnParent : Bool) :
    Prog (Option (Handle × Name)) := do
  match path with
  | [] => return none
  | c :: _ =>
    let start ←
      (if c = slash then invoke (.get .root) else invoke .duplicateCurrentWorkingDirectory)
    walk returnParent (pathElements path) [] start

def resolvePath (path : List UInt8) : Prog (Option Handle) := do
  let r ← resolvePathHelper path false
  return r.map Prod.fst

def resolvePathParent (path : List UInt8) : Prog (Option (Handle × Name)) :=
  resolvePathHelper path true

/-! ### Files -/

/-- `File.close`; the buffer of a pipe is not part of the model. -/
def File.close (file : FileIndex) : Prog Unit := do
  match ← invoke (.fileDrop file) with
  | none => return ()
  | some data =>
    match data.inode? with
    | none => return ()
    | some inode =>
      invoke .beginOperation
      Inode.put inode
      invoke .endOperation

/-! ### System calls -/

namespace SysFile

inductive LinkError
  | failedGetOldPath | failedGetNewPath | failedGetInode | isDirectory
  | failedGetParentDir | notSameDevice | failedUpdateNewParDir
  deriving DecidableEq, Repr

/-- The last block of `link`: enter `inode` in the directory of the new path. -/
def linkInParent (inode : Handle) (new : List UInt8) : Prog (Except LinkError Unit) := do
  match ← resolvePathParent new with
  | none => return .error .failedGetParentDir
  | some (directoryInode, name) =>
    invoke (.lock directoryInode)
    let directoryId ← invoke (.identify directoryInode)
    let id ← invoke (.identify inode)
    if directoryId.device ≠ id.device then
      Inode.releasePut directoryInode
      return .error .notSameDevice
    else
      Directory.init directoryInode
      let r ← Directory.linkEntry directoryInode name id.number
      Inode.releasePut directoryInode
      match r with
      | .error _ => return .error .failedUpdateNewParDir
      | .ok _ => return .ok ()

/-- `link` between `beginOperation` and `endOperation`. -/
def linkPaths (old new : List UInt8) : Prog (Except LinkError Unit) := do
  match ← resolvePath old with
  | none => return .error .failedGetInode
  | some inode =>
    invoke (.lock inode)
    let d ← invoke (.diskInode inode)
    if d.type = .directory then
      invoke (.release inode)
      Inode.put inode
      return .error .isDirectory
    else
      Inode.setLinkCount inode increment16
      invoke (.release inode)
      match ← linkInParent inode new with
      | .error e =>
        invoke (.lock inode)
        Inode.setLinkCount inode decrement16
        invoke (.release inode)
        Inode.put inode
        return .error e
      | .ok _ =>
        Inode.put inode
        return .ok ()

/-- Run the body of a call inside an operation. -/
def inOperation {α : Type} (body : Prog α) : Prog α := do
  invoke .beginOperation
  let r ← body
  invoke .endOperation
  return r

def link : (old new : Option (List UInt8)) → Prog (Except LinkError Unit)
  | none, _ => return .error .failedGetOldPath
  | some _, none => return .error .failedGetNewPath
  | some old, some new => inOperation (linkPaths old new)

inductive UnlinkError
  | failedGetPath | failedGetParentDir | isDot | isDotDot | failedDirLookup | directoryNotEmpty
  deriving DecidableEq, Repr

/-- Whether nothing in the inode forbids to unlink it. -/
def checkEmpty (inode : Handle) (d : DiskInode) : Prog Bool :=
  if d.type = .directory then do
    Directory.init inode
    Directory.isEmpty inode
  else return true

/-- `unlink` once the entry has been found and its inode locked. -/
def unlinkChild (directoryInode inode : Handle) (offset : ℕ) : Prog (Except UnlinkError Unit) := do
  let d ← invoke (.diskInode inode)
  if d.linkCount < 1 then panic .unlinkNlink
  else
    let empty ← checkEmpty inode d
    if !empty then return .error .directoryNotEmpty
    else
      match ← invoke (.writeEntry directoryInode offset .empty) with
      | .error _ => panic .unlinkWriteFailed
      | .ok written =>
        if written ≠ entrySize then panic .unlinkWritei
        else
          when (d.type = .directory) (Inode.setLinkCount directoryInode decrement16)
          Inode.setLinkCount inode decrement16
          return .ok ()

/-- `unlink` once the directory has been locked. -/
def unlinkIn (directoryInode : Handle) (name : Name) : Prog (Except UnlinkError Unit) := do
  if name = dot then return .error .isDot
  else if name = dotDot then return .error .isDotDot
  else
    Directory.init directoryInode
    match ← Directory.lookupChild directoryInode name with
    | none => return .error .failedDirLookup
    | some (inode, offset) =>
      invoke (.lock inode)
      let r ← unlinkChild directoryInode inode offset
      Inode.releasePut inode
      return r

def unlink : (path : Option (List UInt8)) → Prog (Except UnlinkError Unit)
  | none => return .error .failedGetPath
  | some path => inOperation do
    match ← resolvePathParent path with
    | none => return .error .failedGetParentDir
    | some (directoryInode, name) =>
      invoke (.lock directoryInode)
      let r ← unlinkIn directoryInode name
      Inode.releasePut directoryInode
      return r

inductive CreateError
  | failedGetParentDir | pathExistsWithWrongType | failedAllocateInode
  | failedCreateDot | failedCreateDotDot | failedLinkParentDir
  deriving DecidableEq, Repr

/-- Enter "." and ".." in a new directory. -/
def linkDots (parentInode inode : Handle) : Prog (Except CreateError Unit) := do
  Directory.init inode
  let id ← invoke (.identify inode)
  match ← Directory.linkEntry inode dot id.number with
  | .error _ => return .error .failedCreateDot
  | .ok _ =>
    let parentId ← invoke (.identify parentInode)
    match ← Directory.linkEntry inode dotDot parentId.number with
    | .error _ => return .error .failedCreateDotDot
    | .ok _ => return .ok ()

/-- Enter the new inode in its parent. -/
def linkNew (parentInode inode : Handle) (name : Name) (kind : InodeType) :
    Prog (Except CreateError Unit) := do
  match ← (if kind = .directory then linkDots parentInode inode else pure (.ok ())) with
  | .error e => return .error e
  | .ok _ =>
    let id ← invoke (.identify inode)
    match ← Directory.linkEntry parentInode name id.number with
    | .error _ => return .error .failedLinkParentDir
    | .ok _ =>
      when (kind = .directory) (Inode.setLinkCount parentInode increment16)
      return .ok ()

/-- `create` where the name is new. -/
def createNew (parentInode : Handle) (name : Name) (kind : InodeType) (device : DeviceId) :
    Prog (Except CreateError Handle) := do
  let parentId ← invoke (.identify parentInode)
  match ← Inode.alloc parentId.device kind with
  | none => return .error .failedAllocateInode
  | some inode =>
    invoke (.lock inode)
    let d ← invoke (.diskInode inode)
    invoke (.update inode { d with device := device, linkCount := 1 })
    match ← linkNew parentInode inode name kind with
    | .ok _ => return .ok inode
    | .error e =>
      Inode.setLinkCount inode (fun _ => 0)
      Inode.releasePut inode
      return .error e

/-- `create` once the parent has been locked. -/
def createIn (parentInode : Handle) (name : Name) (kind : InodeType) (device : DeviceId) :
    Prog (Except CreateError Handle) := do
  Directory.init parentInode
  match ← Directory.lookupChild parentInode name with
  | some (inode, _) =>
    invoke (.lock inode)
    let d ← invoke (.diskInode inode)
    if kind = .file ∧ (d.type = .file ∨ d.type = .device) then return .ok inode
    else
      Inode.releasePut inode
      return .error .pathExistsWithWrongType
  | none => createNew parentInode name kind device

/-- The inode that is created, or was there already, with its lock held. -/
def create (path : List UInt8) (kind : InodeType) (device : DeviceId) :
    Prog (Except CreateError Handle) := do
  match ← resolvePathParent path with
  | none => return .error .failedGetParentDir
  | some (parentInode, name) =>
    invoke (.lock parentInode)
    let r ← createIn parentInode name kind device
    Inode.releasePut parentInode
    return r

inductive AccessMode
  | readOnly | writeOnly | readWrite
  deriving DecidableEq, Repr

namespace AccessMode
def isWritable (a : AccessMode) : Bool := a ≠ .readOnly
def isReadable (a : AccessMode) : Bool := a ≠ .writeOnly
end AccessMode

structure OpenMode where
  access : AccessMode
  create : Bool
  trunc : Bool
  deriving DecidableEq, Repr

inductive OpenError
  | failedGetPath | invalidOpenMode | invalidAccessMode | create (e : CreateError) | invalidPath
  | openDirWithoutOnlyRead | invalidDeviceMajor | failedAllocFile | outOfSpace
  deriving DecidableEq, Repr

/-- The fields of the packed struct: two bits of access, seven reserved ones,
`create` at 0x200 and `trunc` at 0x400. -/
def OpenMode.fromUsize (input : ℕ) : Except OpenError OpenMode :=
  if input / 2048 ≠ 0 then .error .invalidOpenMode
  else
    let create := input / 512 % 2 = 1
    let trunc := input / 1024 % 2 = 1
    match input % 4 with
    | 0 => .ok ⟨.readOnly, create, trunc⟩
    | 1 => .ok ⟨.writeOnly, create, trunc⟩
    | 2 => .ok ⟨.readWrite, create, trunc⟩
    | _ => .error .invalidAccessMode

/-- The inode to open, with its lock held. -/
def openInode (path : List UInt8) (mode : OpenMode) : Prog (Except OpenError Handle) := do
  if mode.create then
    match ← create path .file ⟨0, 0⟩ with
    | .error e => return .error (.create e)
    | .ok inode => return .ok inode
  else
    match ← resolvePath path with
    | none => return .error .invalidPath
    | some existingInode =>
      invoke (.lock existingInode)
      let d ← invoke (.diskInode existingInode)
      if d.type = .directory ∧ mode.access ≠ .readOnly then
        Inode.releasePut existingInode
        return .error .openDirWithoutOnlyRead
      else return .ok existingInode

/-- The part of `open` that has the inode, up to its descriptor. -/
def openFile (inode : Handle) (mode : OpenMode) : Prog (Except OpenError FileDescriptor) := do
  let d ← invoke (.diskInode inode)
  if d.type = .device ∧ maxDeviceCount ≤ d.device.major then
    invoke (.release inode)
    Inode.put inode
    return .error .invalidDeviceMajor
  else
    match ← invoke .fileAlloc with
    | none =>
      invoke (.release inode)
      Inode.put inode
      return .error .failedAllocFile
    | some file =>
      let data : FileData :=
        if d.type = .device then .device inode d.device else .inode inode 0
      invoke (.fileSet file data mode.access.isReadable mode.access.isWritable)
      when (mode.trunc ∧ d.type = .file) (invoke (.truncate inode))
      match ← invoke (.fileDescriptorAllocate file) with
      | none =>
        File.close file
        invoke (.release inode)
        Inode.put inode
        return .error .outOfSpace
      | some fd =>
        invoke (.release inode)
        return .ok fd

/-- `open`, with the mode as the caller passes it. -/
def openPath : (path : Option (List UInt8)) → (mode : ℕ) → Prog (Except OpenError FileDescriptor)
  | none, _ => return .error .failedGetPath
  | some path, mode =>
    match OpenMode.fromUsize mode with
    | .error e => return .error e
    | .ok openMode => inOperation do
      match ← openInode path openMode with
      | .error e => return .error e
      | .ok inode => openFile inode openMode

/-- The body that `sys_mkdir` and `sys_mknod` share; the result is whether it succeeded. -/
def createAndPut (path : List UInt8) (kind : InodeType) (device : DeviceId) : Prog Bool :=
  inOperation do
    match ← create path kind device with
    | .error _ => return false
    | .ok inode =>
      Inode.releasePut inode
      return true

def mkdir : (path : Option (List UInt8)) → Prog Bool
  | none => return false
  | some path => createAndPut path .directory ⟨0, 0⟩

/-- The largest value of the 28 bits of a minor device number. -/
def maxMinor : ℕ := 268435455

def mknod : (path : Option (List UInt8)) → (major minor : ℕ) → Prog Bool
  | none, _, _ => return false
  | some path, major, minor =>
    if maxDeviceCount ≤ major then return false
    else if maxMinor ≤ minor then return false
    else createAndPut path .device ⟨major, minor⟩

inductive ChdirError
  | failedGetDestPath | invalidDestPath | notADirectory
  deriving DecidableEq, Repr

def chdir : (path : Option (List UInt8)) → Prog (Except ChdirError Unit)
  | none => return .error .failedGetDestPath
  | some path => inOperation do
    match ← resolvePath path with
    | none => return .error .invalidDestPath
    | some inode =>
      invoke (.lock inode)
      let d ← invoke (.diskInode inode)
      invoke (.release inode)
      if d.type ≠ .directory then
        Inode.put inode
        return .error .notADirectory
      else
        let old ← invoke .currentWorkingDirectory
        Inode.put old
        invoke (.setCurrentWorkingDirectory inode)
        return .ok ()

/-- `sys_close`; whether it succeeded. -/
def close (fd : ℕ) : Prog Bool := do
  if h : fd < noFile then
    match ← invoke (.openFile ⟨fd, h⟩) with
    | none => return false
    | some file =>
      invoke (.clearDescriptor ⟨fd, h⟩)
      File.close file
      return true
  else return false

/-- The loop of `exit` over the open files. -/
def closeAll : List FileDescriptor → Prog Unit
  | [] => return ()
  | fd :: fds => do
    match ← invoke (.openFile fd) with
    | none => closeAll fds
    | some file =>
      File.close file
      invoke (.clearDescriptor fd)
      closeAll fds

/-- `Process.exit`, as far as files are concerned. -/
def exit : Prog Unit := do
  closeAll (List.finRange noFile)
  inOperation do
    let cwd ← invoke .currentWorkingDirectory
    Inode.put cwd
  invoke .becomeZombie

end SysFile

/-- A system call of a process with its arguments. -/
inductive Call
  | open (path : Option (List UInt8)) (mode : ℕ)
  | mkdir (path : Option (List UInt8))
  | mknod (path : Option (List UInt8)) (major minor : ℕ)
  | link (old new : Option (List UInt8))
  | unlink (path : Option (List UInt8))
  | chdir (path : Option (List UInt8))
  | close (fd : ℕ)
  | exit
  deriving DecidableEq

/-- The call as a program; its return value goes to the caller. -/
def Call.program : Call → Prog Unit
  | .open path mode => do let _ ← SysFile.openPath path mode
  | .mkdir path => do let _ ← SysFile.mkdir path
  | .mknod path major minor => do let _ ← SysFile.mknod path major minor
  | .link old new => do let _ ← SysFile.link old new
  | .unlink path => do let _ ← SysFile.unlink path
  | .chdir path => do let _ ← SysFile.chdir path
  | .close fd => do let _ ← SysFile.close fd
  | .exit => SysFile.exit

end Zigmaos.FileSystem
