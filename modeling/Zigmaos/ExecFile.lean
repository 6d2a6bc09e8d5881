import Zigmaos.Boundary
import Zigmaos.FileSystem
import Zigmaos.LittleEndian
import Zigmaos.ProcessMemory

/-!
# Executing a file

`exec` on the bytes of a file. What the language leaves undefined is a fault: a
number narrowed to a type that cannot hold it, an overflow of `+` or `-`, an enum
value that there is not, or a panic. The errors of `exec` are returned, with the
state that they leave behind.
-/
namespace Zigmaos.ExecFile
open Memory
open ProcessMemory (maxArg)

inductive ExecError
  | tooManyArguments | couldNotCreatePagetable | couldNotResolvePath | offsetOverflows
  | couldNotReadElfHeader | corruptedElfHeader | couldNotReadProgramHeader | notEnoughMemory
  | memoryAddressOverflow | memoryNotPageAligned | outOfMemory | couldNotRead
  | outOfArgumentSpace | outOfArgumentPointerSpace
  | copy (e : CopyError)
  deriving DecidableEq

inductive Fault
  | narrowing
  | overflow
  | invalidEnum
  /-- "loadSegment: address should exist" -/
  | loadSegment
  | memory (p : Memory.Panic)
  deriving DecidableEq

/-- An error or a value, and what is left behind. -/
abbrev Outcome (α σ : Type) := Except Fault (Except ExecError α × σ)

/-! ## The file -/

/-- `Inode.read` of a locked inode into kernel memory. -/
def readInode (content : List UInt8) (offset count : ℕ) : Except ExecError (List UInt8) :=
  if content.length < offset then .ok []
  else if 2 ^ 32 ≤ offset + count then .error .offsetOverflows
  else .ok ((content.drop offset).take count)

/-- A field of an extern struct. -/
def field (bytes : List UInt8) (offset width : ℕ) : ℕ :=
  LittleEndian.readLE (fun j => bytes.getD (offset + j) 0) width

def correctMagic : ℕ := 0x464C457F
def elfHeaderSize : ℕ := 64
def programHeaderSize : ℕ := 56

structure ElfHeader where
  magic : ℕ
  entry : ℕ
  programHeaderOffset : ℕ
  programHeaderEntryNum : ℕ

def ElfHeader.ofBytes (bytes : List UInt8) : ElfHeader where
  magic := field bytes 0 4
  entry := field bytes 24 8
  programHeaderOffset := field bytes 32 8
  programHeaderEntryNum := field bytes 56 2

inductive ProgramType
  | load
  deriving DecidableEq

/-- The value of the enum that a number stands for. -/
def ProgramType.ofInt (n : ℕ) : Option ProgramType := if n = 1 then some .load else none

structure ProgramHeader where
  type : ℕ
  flags : ProgramHeaderFlags
  offset : ℕ
  virtualAddress : ℕ
  fileSize : ℕ
  memorySize : ℕ

def ProgramHeader.ofBytes (bytes : List UInt8) : ProgramHeader where
  type := field bytes 0 4
  flags :=
    let flags := field bytes 4 4
    ⟨flags % 2 = 1, flags / 2 % 2 = 1, flags / 4 % 2 = 1⟩
  offset := field bytes 8 8
  virtualAddress := field bytes 16 8
  fileSize := field bytes 32 8
  memorySize := field bytes 40 8

/-! ## Loading -/

/-- The address space that `exec` builds. -/
structure Image where
  pageTable : PageTable
  allocator : Allocator
  memory : PhysicalMemory
  programSize : ℕ

/-- The loop of `loadSegment` from `currentPage` on, with `n` pages to go. -/
def loadPages (t : PageTable) (virtualAddress : ℕ) (content : List UInt8) (offset size : ℕ)
    (memory : PhysicalMemory) (currentPage : ℕ) : ℕ → Outcome Unit PhysicalMemory
  | 0 => .ok (.ok (), memory)
  | n + 1 =>
    match translateAddress t (virtualAddress + currentPage) with
    | .error _ => .error .loadSegment
    | .ok physicalAddress =>
      let readCount := if size - currentPage < pageSize then size - currentPage else pageSize
      if 2 ^ 32 ≤ offset + currentPage then .error .overflow
      else
        match readInode content (offset + currentPage) readCount with
        | .error e => .ok (.error e, memory)
        | .ok bytes =>
          let memory := memory.store physicalAddress bytes
          if bytes.length ≠ readCount then .ok (.error .couldNotRead, memory)
          else if 2 ^ 32 ≤ currentPage + pageSize then .error .overflow
          else loadPages t virtualAddress content offset size memory (currentPage + pageSize) n

def loadSegment (t : PageTable) (virtualAddress : ℕ) (content : List UInt8) (offset size : ℕ)
    (memory : PhysicalMemory) : Outcome Unit PhysicalMemory :=
  loadPages t virtualAddress content offset size memory 0 (pageCount size)

/-- What is done with a program header of type `load`. -/
def loadHeader (content : List UInt8) (programHeader : ProgramHeader) (img : Image) :
    Outcome Unit Image :=
  let newSize := programHeader.virtualAddress + programHeader.memorySize
  if programHeader.memorySize < programHeader.fileSize then .ok (.error .notEnoughMemory, img)
  else if 2 ^ 64 ≤ newSize then .ok (.error .memoryAddressOverflow, img)
  else if programHeader.virtualAddress % pageSize ≠ 0 then
    .ok (.error .memoryNotPageAligned, img)
  else
    match img.pageTable.alloc img.allocator img.programSize newSize
        programHeader.flags.toPagePermissions with
    | .error p => .error (.memory p)
    | .ok (none, t, a) =>
      .ok (.error .outOfMemory, { img with pageTable := t, allocator := a })
    | .ok (some programSize, t, a) =>
      let img := { img with pageTable := t, allocator := a, programSize := programSize }
      if 2 ^ 32 ≤ programHeader.offset ∨ 2 ^ 32 ≤ programHeader.fileSize then .error .narrowing
      else
        match loadSegment t programHeader.virtualAddress content programHeader.offset
            programHeader.fileSize img.memory with
        | .error f => .error f
        | .ok (r, memory) => .ok (r, { img with memory := memory })

/-- The turn of the loop over the program headers at an index. -/
def loadIndex (content : List UInt8) (elfHeader : ElfHeader) (index : ℕ) (img : Image) :
    Outcome Unit Image :=
  let offset := elfHeader.programHeaderOffset + index * programHeaderSize
  if 2 ^ 64 ≤ offset then .error .overflow
  else if 2 ^ 32 ≤ offset then .error .narrowing
  else
    match readInode content offset programHeaderSize with
    | .error e => .ok (.error e, img)
    | .ok bytes =>
      if bytes.length ≠ programHeaderSize then .ok (.error .couldNotReadProgramHeader, img)
      else
        match ProgramType.ofInt (ProgramHeader.ofBytes bytes).type with
        | none => .error .invalidEnum
        | some type =>
          if type ≠ .load then .ok (.ok (), img)
          else loadHeader content (ProgramHeader.ofBytes bytes) img

/-- The loop from `index` on, with `n` program headers to go. -/
def loadProgram (content : List UInt8) (elfHeader : ElfHeader) (index : ℕ) (img : Image) :
    ℕ → Outcome Unit Image
  | 0 => .ok (.ok (), img)
  | n + 1 =>
    match loadIndex content elfHeader index img with
    | .error f => .error f
    | .ok (.error e, img) => .ok (.error e, img)
    | .ok (.ok (), img) => loadProgram content elfHeader (index + 1) img n

/-- The ELF header, checked. -/
def readElfHeader (content : List UInt8) : Except ExecError ElfHeader :=
  match readInode content 0 elfHeaderSize with
  | .error e => .error e
  | .ok bytes =>
    if bytes.length ≠ elfHeaderSize then .error .couldNotReadElfHeader
    else if (ElfHeader.ofBytes bytes).magic ≠ correctMagic then .error .corruptedElfHeader
    else .ok (.ofBytes bytes)

/-- The block of `exec` that reads the file, with the entry point it finds. -/
def loadFile (content : List UInt8) (img : Image) : Outcome ℕ Image :=
  match readElfHeader content with
  | .error e => .ok (.error e, img)
  | .ok elfHeader =>
    match loadProgram content elfHeader 0 img elfHeader.programHeaderEntryNum with
    | .error f => .error f
    | .ok (.error e, img) => .ok (.error e, img)
    | .ok (.ok (), img) => .ok (.ok elfHeader.entry, img)

/-! ## The stack -/

def copyOutTerminated (t : PageTable) (memory : PhysicalMemory) (destination : ℕ)
    (source : List UInt8) : Except CopyError Unit × PhysicalMemory :=
  match copyOut t memory destination source with
  | (.error e, memory, _) => (.error e, memory)
  | (.ok (), memory, _) =>
    match copyOut t memory (destination + source.length) [0] with
    | (r, memory, _) => (r, memory)

/-- riscv sp must be 16-byte aligned. -/
def alignDown16 (stackPointer : ℕ) : ℕ := stackPointer - stackPointer % 16

/-- The stack pointer and the entries of `userStack` after the arguments are pushed. -/
def pushArguments (t : PageTable) (stackBase : ℕ) (memory : PhysicalMemory) (stackPointer : ℕ)
    (userStack : List ℕ) : List (List UInt8) → Outcome (ℕ × List ℕ) PhysicalMemory
  | [] => .ok (.ok (stackPointer, userStack), memory)
  | arg :: argv =>
    if stackPointer < arg.length + 1 then .error .overflow
    else
      let stackPointer := alignDown16 (stackPointer - (arg.length + 1))
      if stackPointer < stackBase then .ok (.error .outOfArgumentSpace, memory)
      else
        match copyOutTerminated t memory stackPointer arg with
        | (.error e, memory) => .ok (.error (.copy e), memory)
        | (.ok (), memory) =>
          pushArguments t stackBase memory stackPointer (userStack ++ [stackPointer]) argv

/-- The array of pointers, and the stack pointer that `main` starts with. -/
def pushPointers (t : PageTable) (stackBase : ℕ) (memory : PhysicalMemory) (stackPointer : ℕ)
    (userStack : List ℕ) : Outcome ℕ PhysicalMemory :=
  let size := (userStack.length + 1) * 8
  if stackPointer < size then .error .overflow
  else
    let stackPointer := alignDown16 (stackPointer - size)
    if stackPointer < stackBase then .ok (.error .outOfArgumentPointerSpace, memory)
    else
      let bytes := (userStack ++ [0]).flatMap (fun p => (List.range 8).map (LittleEndian.byteLE p))
      match copyOut t memory stackPointer bytes with
      | (.error e, memory, _) => .ok (.error (.copy e), memory)
      | (.ok (), memory, _) => .ok (.ok stackPointer, memory)

/-- What follows the loading of the file: the stack with its guard page. -/
def makeStack (argv : List (List UInt8)) (img : Image) : Outcome ℕ Image :=
  let alignedProgramSize := pageCount img.programSize * pageSize
  match img.pageTable.alloc img.allocator alignedProgramSize (alignedProgramSize + 2 * pageSize)
      .data with
  | .error p => .error (.memory p)
  | .ok (none, t, a) => .ok (.error .outOfMemory, { img with pageTable := t, allocator := a })
  | .ok (some programSize, t, a) =>
    match t.clearUser (programSize / pageSize - 2) with
    | .error p => .error (.memory p)
    | .ok t =>
      let stackBase := programSize - pageSize
      let img : Image := ⟨t, a, img.memory, programSize⟩
      match pushArguments t stackBase img.memory programSize [] argv with
      | .error f => .error f
      | .ok (.error e, memory) => .ok (.error e, { img with memory := memory })
      | .ok (.ok (stackPointer, userStack), memory) =>
        match pushPointers t stackBase memory stackPointer userStack with
        | .error f => .error f
        | .ok (r, memory) => .ok (r, { img with memory := memory })

/-! ## The call -/

/-- The registers of the trapframe that `exec` sets. -/
structure Registers where
  a1 : ℕ
  epc : ℕ
  sp : ℕ

structure Process where
  pageTable : PageTable
  size : ℕ
  trapFrame : Page
  registers : Registers
  name : List UInt8

/-- The inode of the path. -/
structure Inode where
  references : ℕ
  locked : Bool

structure State where
  process : Process
  allocator : Allocator
  memory : PhysicalMemory
  inode : Inode
  trampoline : Page

/-- What follows the last slash, as far as `nameBuffer` reaches. -/
def programName (path : List UInt8) : List UInt8 :=
  (path.reverse.takeWhile (· ≠ 47)).reverse.take 15

/-- `errdefer freePageTable` -/
def State.fail (s : State) (img : Image) (e : ExecError) : Outcome ℕ State :=
  match img.pageTable.freePageTable img.allocator img.programSize with
  | .error p => .error (.memory p)
  | .ok a => .ok (.error e, { s with allocator := a, memory := img.memory })

def State.commit (s : State) (img : Image) (path : List UInt8) (argc entry stackPointer : ℕ) :
    Outcome ℕ State :=
  match s.process.pageTable.freePageTable img.allocator s.process.size with
  | .error p => .error (.memory p)
  | .ok a =>
    .ok (.ok argc, { s with
      process := { s.process with
        pageTable := img.pageTable
        size := img.programSize
        registers := ⟨stackPointer, entry, stackPointer⟩
        name := programName path }
      allocator := a
      memory := img.memory })

/-- `resolvePath` and `lock`, and `releasePut`. -/
def State.acquireInode (s : State) : State :=
  { s with inode := ⟨s.inode.references + 1, true⟩ }
def State.releasePut (s : State) : State :=
  { s with inode := ⟨s.inode.references - 1, false⟩ }

/-- `exec`, where `file` is the content of the inode that the path resolves to. -/
def exec (s : State) (file : Option (List UInt8)) (path : List UInt8) (argv : List (List UInt8)) :
    Outcome ℕ State :=
  if maxArg < argv.length then .ok (.error .tooManyArguments, s)
  else
    match createPagetable s.trampoline s.process.trapFrame s.allocator with
    | .error p => .error (.memory p)
    | .ok (none, a) => .ok (.error .couldNotCreatePagetable, { s with allocator := a })
    | .ok (some t, a) =>
      let img : Image := ⟨t, a, s.memory, 0⟩
      match file with
      | none => s.fail img .couldNotResolvePath
      | some content =>
        let s := s.acquireInode
        match loadFile content img with
        | .error f => .error f
        | .ok (.error e, img) => s.releasePut.fail img e
        | .ok (.ok entry, img) =>
          let s := s.releasePut
          match makeStack argv img with
          | .error f => .error f
          | .ok (.error e, img) => s.fail img e
          | .ok (.ok stackPointer, img) => s.commit img path argv.length entry stackPointer

end Zigmaos.ExecFile
