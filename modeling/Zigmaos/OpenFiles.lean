import Zigmaos.FileSystem
import Zigmaos.Typestate

/-!
# Open files and pipes

The file table, the pipes and the descriptors of all processes, and the system
calls that count references to files: `open`, `dup`, `pipe`, `fork`, `close`,
`exit`, with `wait`, which makes a slot of the process table free again, and reads
and writes of a pipe. An operation is a stretch under one lock, or one that only
touches what its process may touch. What else can make a call fail is asked of
`succeeds`.
-/
namespace Zigmaos.OpenFiles
open Program
open FileSystem (FileIndex FileDescriptor nFile noFile)

inductive FileData
  | none
  | pipe (page : ℕ)
  /-- A file or a device, with its inode. -/
  | inode
  deriving DecidableEq

structure File where
  referenceCount : ℕ
  isWriteable : Bool
  data : FileData

structure Pipe where
  readIsOpen : Bool
  writeIsOpen : Bool
  deriving DecidableEq

namespace Pipe

/-- The flag of one end, `write` being the end that is written to. -/
def isOpen (pipe : Pipe) (write : Bool) : Bool :=
  if write then pipe.writeIsOpen else pipe.readIsOpen

def close (pipe : Pipe) (write : Bool) : Pipe :=
  if write then { pipe with writeIsOpen := false } else { pipe with readIsOpen := false }

end Pipe

inductive ProcessState
  | unused
  | used
  /-- Sleeping, runnable or running. -/
  | live
  | zombie
  deriving DecidableEq

structure State (π : Type) where
  files : FileIndex → File
  /-- The pages that are allocated for pipes. -/
  pipes : ℕ → Option Pipe
  openFiles : π → FileDescriptor → Option FileIndex
  status : π → ProcessState
  processTable : List π
  /-- The page that the free list has for the `k`-th request. -/
  freeList : ℕ → Option ℕ
  /-- Whether the `k`-th thing that may fail succeeds. -/
  outcomes : ℕ → Bool
  requests : ℕ

inductive Op (π : Type)
  | succeeds
  | fileAlloc
  | fileSet (file : FileIndex) (data : FileData) (isWriteable : Bool)
  | fileData (file : FileIndex)
  | fileDuplicate (file : FileIndex)
  | fileDrop (file : FileIndex)
  | openFile (fd : FileDescriptor)
  | fileDescriptorAllocate (file : FileIndex)
  | clearDescriptor (fd : FileDescriptor)
  | pipeAlloc
  | pipeUse (page : ℕ)
  | pipeClose (page : ℕ) (closeWrite : Bool)
  | freePage (page : ℕ)
  | processAlloc
  | duplicateTo (child : π) (fd : FileDescriptor) (file : FileIndex)
  | processFree (child : π)
  | setRunnable (child : π)
  | becomeZombie
  | reap (child : π)

@[reducible] def Op.Result {π : Type} : Op π → Type
  | .succeeds | .pipeClose _ _ => Bool
  | .fileAlloc => Option FileIndex
  | .fileData _ => FileData
  | .fileDrop _ => Option (FileData × Bool)
  | .openFile _ => Option FileIndex
  | .fileDescriptorAllocate _ => Option FileDescriptor
  | .pipeAlloc => Option ℕ
  | .processAlloc => Option π
  | _ => Unit

abbrev interface (π : Type) : Interface := ⟨Op π, Op.Result⟩

/-- The panics, and the use of a page that is not allocated. -/
inductive Fault
  | fileDuplicationFailed
  | fileClosingFailed
  | pipeNotAllocated
  deriving DecidableEq

namespace State
variable {π : Type}

def setFile (s : State π) (f : FileIndex) (e : File) : State π :=
  { s with files := Function.update s.files f e }

def setPipe (s : State π) (page : ℕ) (pipe : Option Pipe) : State π :=
  { s with pipes := Function.update s.pipes page pipe }

/-- `duplicate` -/
def duplicate (s : State π) (f : FileIndex) : State π :=
  s.setFile f { s.files f with referenceCount := (s.files f).referenceCount + 1 }

/-- The first critical section of `File.close`: the data of a file that nothing
refers to any more, and whether it is writeable. -/
def fileDrop (s : State π) (f : FileIndex) :
    Outcome (State π) Fault (Option (FileData × Bool)) :=
  let file := s.files f
  if file.referenceCount < 1 then .stop .fileClosingFailed s
  else if 0 < file.referenceCount - 1 then
    .done none (s.setFile f { file with referenceCount := file.referenceCount - 1 })
  else
    .done (some (file.data, file.isWriteable))
      (s.setFile f { file with referenceCount := 0, data := .none })

/-- `allocPage`, and the fields of the pipe in it. -/
def pipeAlloc (s : State π) : Option ℕ × State π :=
  let s' := { s with requests := s.requests + 1 }
  match s.freeList s.requests with
  | none => (none, s')
  | some page =>
    if s.pipes page = none then (some page, s'.setPipe page (some ⟨true, true⟩)) else (none, s')

/-- The critical section of `Pipe.close`, and whether it leaves the page to be freed. -/
def pipeClose (s : State π) (page : ℕ) (closeWrite : Bool) : Outcome (State π) Fault Bool :=
  match s.pipes page with
  | none => .stop .pipeNotAllocated s
  | some pipe =>
    let pipe := pipe.close closeWrite
    .done (!pipe.readIsOpen && !pipe.writeIsOpen) (s.setPipe page (some pipe))

def freePage (s : State π) (page : ℕ) : Outcome (State π) Fault Unit :=
  match s.pipes page with
  | none => .stop .pipeNotAllocated s
  | some _ => .done () (s.setPipe page none)

variable [DecidableEq π]

def setOpenFile (s : State π) (p : π) (fd : FileDescriptor) (f : Option FileIndex) : State π :=
  { s with openFiles := Function.update s.openFiles p (Function.update (s.openFiles p) fd f) }

def setStatus (s : State π) (p : π) (status : ProcessState) : State π :=
  { s with status := Function.update s.status p status }

/-- What an operation of process `p` does. -/
def perform (p : π) : Program.Handler (interface π) (State π) Fault
  | .succeeds, s => .done (s.outcomes s.requests) { s with requests := s.requests + 1 }
  | .fileAlloc, s =>
    match (List.finRange nFile).find? (fun f => (s.files f).referenceCount = 0) with
    | some f => .done (some f) (s.setFile f { s.files f with referenceCount := 1 })
    | none => .done none s
  | .fileSet f data isWriteable, s =>
    .done () (s.setFile f { s.files f with data := data, isWriteable := isWriteable })
  | .fileData f, s => .done (s.files f).data s
  | .fileDuplicate f, s =>
    if (s.files f).referenceCount < 1 then .stop .fileDuplicationFailed s
    else .done () (s.duplicate f)
  | .fileDrop f, s => s.fileDrop f
  | .openFile fd, s => .done (s.openFiles p fd) s
  | .fileDescriptorAllocate f, s =>
    match (List.finRange noFile).find? (fun fd => s.openFiles p fd = none) with
    | some fd => .done (some fd) (s.setOpenFile p fd (some f))
    | none => .done none s
  | .clearDescriptor fd, s => .done () (s.setOpenFile p fd none)
  | .pipeAlloc, s => .done s.pipeAlloc.1 s.pipeAlloc.2
  | .pipeUse page, s => if s.pipes page = none then .stop .pipeNotAllocated s else .done () s
  | .pipeClose page closeWrite, s => s.pipeClose page closeWrite
  | .freePage page, s => s.freePage page
  | .processAlloc, s =>
    match s.processTable.find? (fun q => s.status q = .unused) with
    | some q => .done (some q) (s.setStatus q .used)
    | none => .done none s
  | .duplicateTo child fd f, s =>
    if (s.files f).referenceCount < 1 then .stop .fileDuplicationFailed s
    else .done () ((s.duplicate f).setOpenFile child fd (some f))
  | .processFree child, s => .done () (s.setStatus child .unused)
  | .setRunnable child, s => .done () (s.setStatus child .live)
  | .becomeZombie, s => .done () (s.setStatus p .zombie)
  | .reap child, s =>
    .done () (if s.status child = .zombie then s.setStatus child .unused else s)

end State

/-! ## System calls -/

section Calls
variable {π : Type}

abbrev Prog (π α : Type) := Program (interface π) α

abbrev invoke (o : Op π) : Prog π o.Result := Program.op (F := interface π) o

def Pipe.closeEnd (page : ℕ) (closeWrite : Bool) : Prog π Unit := do
  let freePipe ← invoke (.pipeClose page closeWrite)
  when (freePipe = true) (invoke (.freePage page))

/-- `File.close`. The inode of a file that has one is left out. -/
def File.close (file : FileIndex) : Prog π Unit := do
  match ← invoke (.fileDrop file) with
  | some (.pipe page, isWriteable) => Pipe.closeEnd page isWriteable
  | _ => return ()

/-- `open`, from the inode on. -/
def openInode (isWriteable : Bool) : Prog π (Option FileDescriptor) := do
  if ← invoke .succeeds then
    match ← invoke .fileAlloc with
    | none => return none
    | some file =>
      invoke (.fileSet file .inode isWriteable)
      match ← invoke (.fileDescriptorAllocate file) with
      | none =>
        File.close file
        return none
      | some fd => return some fd
  else return none

def dup (fd : FileDescriptor) : Prog π (Option FileDescriptor) := do
  match ← invoke (.openFile fd) with
  | none => return none
  | some file =>
    match ← invoke (.fileDescriptorAllocate file) with
    | none => return none
    | some fd =>
      invoke (.fileDuplicate file)
      return some fd

def close (fd : FileDescriptor) : Prog π Bool := do
  match ← invoke (.openFile fd) with
  | none => return false
  | some file =>
    invoke (.clearDescriptor fd)
    File.close file
    return true

/-- `Pipe.alloc`: the files to read from and to write to. -/
def Pipe.alloc : Prog π (Option (FileIndex × FileIndex)) := do
  match ← invoke .fileAlloc with
  | none => return none
  | some readFile =>
    match ← invoke .fileAlloc with
    | none =>
      File.close readFile
      return none
    | some writeFile =>
      match ← invoke .pipeAlloc with
      | none =>
        File.close writeFile
        File.close readFile
        return none
      | some page =>
        invoke (.fileSet readFile (.pipe page) false)
        invoke (.fileSet writeFile (.pipe page) true)
        return some (readFile, writeFile)

/-- Copy out the two descriptors, or undo what has been done for them. -/
def outputDescriptors (readFile writeFile : FileIndex) (readFd writeFd : FileDescriptor) :
    Prog π Bool := do
  if ← invoke .succeeds then
    if ← invoke .succeeds then return true
    else undo
  else undo
where
  undo : Prog π Bool := do
    invoke (.clearDescriptor writeFd)
    invoke (.clearDescriptor readFd)
    File.close readFile
    File.close writeFile
    return false

def pipe : Prog π Bool := do
  if ← invoke .succeeds then
    match ← Pipe.alloc with
    | none => return false
    | some (readFile, writeFile) =>
      match ← invoke (.fileDescriptorAllocate readFile) with
      | none =>
        File.close readFile
        File.close writeFile
        return false
      | some readFd =>
        match ← invoke (.fileDescriptorAllocate writeFile) with
        | none =>
          invoke (.clearDescriptor readFd)
          File.close readFile
          File.close writeFile
          return false
        | some writeFd => outputDescriptors readFile writeFile readFd writeFd
  else return false

/-- The loop of `fork` over the open files of the parent. -/
def copyFiles (child : π) : List FileDescriptor → Prog π Unit
  | [] => return ()
  | fd :: fds => do
    match ← invoke (.openFile fd) with
    | none => copyFiles child fds
    | some file =>
      invoke (.duplicateTo child fd file)
      copyFiles child fds

def fork : Prog π (Option π) := do
  match ← invoke .processAlloc with
  | none => return none
  | some child =>
    if ← invoke .succeeds then
      copyFiles child (List.finRange noFile)
      invoke (.setRunnable child)
      return some child
    else
      invoke (.processFree child)
      return none

/-- The loop of `exit` over the open files. -/
def closeAll : List FileDescriptor → Prog π Unit
  | [] => return ()
  | fd :: fds => do
    match ← invoke (.openFile fd) with
    | none => closeAll fds
    | some file =>
      File.close file
      invoke (.clearDescriptor fd)
      closeAll fds

def exit : Prog π Unit := do
  closeAll (List.finRange noFile)
  invoke .becomeZombie

/-- The turns of a read or a write under the lock of the pipe. -/
def usePipe (page : ℕ) : (turns : ℕ) → Prog π Unit
  | 0 => return ()
  | turns + 1 => do
    invoke (.pipeUse page)
    usePipe page turns

/-- A read or a write through a descriptor, as far as it concerns a pipe. -/
def transfer (fd : FileDescriptor) (turns : ℕ) : Prog π Unit := do
  match ← invoke (.openFile fd) with
  | none => return ()
  | some file =>
    match ← invoke (.fileData file) with
    | .pipe page => usePipe page turns
    | _ => return ()

inductive Call (π : Type)
  | open (isWriteable : Bool)
  | dup (fd : FileDescriptor)
  | close (fd : FileDescriptor)
  | pipe
  | fork
  | exit
  | wait (child : π)
  | transfer (fd : FileDescriptor) (turns : ℕ)

/-- The call as a program; its return value goes to the caller. -/
def Call.program : Call π → Prog π Unit
  | .open isWriteable => do let _ ← openInode isWriteable
  | .dup fd => do let _ ← OpenFiles.dup fd
  | .close fd => do let _ ← OpenFiles.close fd
  | .pipe => do let _ ← OpenFiles.pipe
  | .fork => do let _ ← OpenFiles.fork
  | .exit => OpenFiles.exit
  | .wait child => invoke (.reap child)
  | .transfer fd turns => OpenFiles.transfer fd turns

variable [DecidableEq π]

/-- Only a process that is there makes calls. -/
def ready (s : State π) (p : π) : Bool := s.status p = .live

/-- One event: a process starts a call, or does the next operation of the one it is in. -/
def step : Pool (interface π) (State π) π → Pool.Event π (Call π) →
    Option (Pool (interface π) (State π) π) :=
  Pool.step State.perform Call.program ready

end Calls

end Zigmaos.OpenFiles
