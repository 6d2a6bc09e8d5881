import Zigmaos.Console
import Zigmaos.Pipe
import Zigmaos.UserCopies

/-!
# Reading from a file

`File.read` of a regular file, a pipe and the console, with the page table of the
caller. A call is a list of stretches: all but the last end asleep, and each
begins in whatever state the others have left. Beside the result, the bytes that
the call has moved past are kept. `console.zig` moves past a byte before it copies
it out, where `pipe.zig` and `file.zig` do so after.
-/
namespace Zigmaos.FileReads
open Memory
open Console (InputBuffer)
open Pipes (Pipe)

inductive ReadError
  | fileNotReadable | deviceMajorCorrupted | deviceCantRead | offsetOverflows | processKilled
  | noRunningProcess
  | copy (e : CopyError)
  deriving DecidableEq

/-- A locked inode: its size, and the data of each block that `getBlock` finds. -/
structure Inode where
  size : ℕ
  getBlock : ℕ → Option Block

def maxDeviceCount : ℕ := 10
def consoleMajor : ℕ := 1

/-- The console is the only device that can be read. -/
inductive FileData
  | none
  | pipe (p : Pipe)
  | inode (inode : Inode) (offset : ℕ)
  | device (major : ℕ) (console : InputBuffer)

structure File where
  isReadable : Bool
  data : FileData

/-- How a stretch ends. `taken` are the bytes that the call has moved past. -/
inductive Outcome
  | returned (r : Except ReadError ℕ) (data : FileData) (memory : PhysicalMemory)
      (taken : List UInt8)
  | asleep (data : FileData) (memory : PhysicalMemory) (charsLeft : ℕ) (taken : List UInt8)
  | fault

section Reads
variable (process : Option Bool) (t : PageTable) (address count : ℕ)

/-! ## inode -/

/-- `buffer.data[start .. start + n]` -/
def slice (block : Block) (start n : ℕ) : List UInt8 :=
  (List.range n).map fun i => block.byte (start + i)

/-- The loop of `Inode.read`. -/
def inodeLoop (inode : Inode) (bytesToRead offset : ℕ) (bytes : List UInt8)
    (memory : PhysicalMemory) : Except ReadError (List UInt8) × PhysicalMemory :=
  if bytes.length < bytesToRead then
    let currentOffset := offset + bytes.length
    match inode.getBlock (currentOffset / blockSize) with
    | none => (.ok bytes, memory)
    | some block =>
      let blockOffset := currentOffset % blockSize
      let bytesThisBlock := min (bytesToRead - bytes.length) (blockSize - blockOffset)
      match copyOut t memory (address + bytes.length) (slice block blockOffset bytesThisBlock) with
      | (.error e, memory, _) => (.error (.copy e), memory)
      | (.ok (), memory, _) =>
        inodeLoop inode bytesToRead offset (bytes ++ slice block blockOffset bytesThisBlock) memory
  else (.ok bytes, memory)
termination_by bytesToRead - bytes.length
decreasing_by
  have hoffset : (offset + bytes.length) % blockSize < blockSize := Nat.mod_lt _ (by decide)
  simp only [List.length_append, slice, List.length_map, List.length_range]
  omega

def inodeRead (inode : Inode) (offset : ℕ) (memory : PhysicalMemory) :
    Except ReadError (List UInt8) × PhysicalMemory :=
  if inode.size < offset then (.ok [], memory)
  else if 2 ^ 32 ≤ offset + count then (.error .offsetOverflows, memory)
  else
    let bytesToRead := if inode.size < offset + count then inode.size - offset else count
    inodeLoop t address inode bytesToRead offset [] memory

/-! ## pipe -/

/-- The second loop of `Pipe.read`. -/
def pipeLoop (p : Pipe) (bytes : List UInt8) (memory : PhysicalMemory) :
    Pipe × PhysicalMemory × List UInt8 :=
  if bytes.length < count ∧ sub32 p.writeCount p.readCount ≠ 0 then
    let chunkedReadCount := p.readChunk count bytes.length
    match copyOut t memory (address + bytes.length) (p.slice chunkedReadCount) with
    | (.error _, memory, _) => (p, memory, bytes)
    | (.ok (), memory, _) =>
      pipeLoop { p with readCount := add32 p.readCount chunkedReadCount }
        (bytes ++ p.slice chunkedReadCount) memory
  else (p, memory, bytes)
termination_by count - bytes.length
decreasing_by
  have hoffset : p.readCount % Pipes.pipeSize < Pipes.pipeSize := Nat.mod_lt _ (by decide)
  simp only [List.length_append, Pipes.Pipe.slice, List.length_map, List.length_range,
    Pipes.Pipe.readChunk]
  omega

def pipeRead (p : Pipe) (memory : PhysicalMemory) (taken : List UInt8) : Outcome :=
  if p.readCount = p.writeCount ∧ p.writeIsOpen = true then
    match process with
    | none => .fault
    | some true => .returned (.error .processKilled) (.pipe p) memory taken
    | some false => .asleep (.pipe p) memory count taken
  else
    let result := pipeLoop t address count p [] memory
    .returned (.ok result.2.2.length) (.pipe result.1) result.2.1 (taken ++ result.2.2)

/-! ## console -/

/-- The loop of `read` of the console. -/
def consoleLoop (major : ℕ) : (charsLeft : ℕ) → InputBuffer → PhysicalMemory → List UInt8 → Outcome
  | 0, b, memory, taken => .returned (.ok count) (.device major b) memory taken
  | charsLeft + 1, b, memory, taken =>
    if b.readIndex = b.writeIndex then
      match process with
      | none => .returned (.error .noRunningProcess) (.device major b) memory taken
      | some true => .returned (.error .processKilled) (.device major b) memory taken
      | some false => .asleep (.device major b) memory (charsLeft + 1) taken
    else
      let character := b.data (b.readIndex % Console.inputBufSize)
      match Console.add b.readIndex 1 with
      | .error _ => .fault
      | .ok readIndex =>
        let b' := { b with readIndex := readIndex }
        if character = Console.endOfFile then
          if charsLeft + 1 < count then
            .returned (.ok (count - (charsLeft + 1))) (.device major b) memory taken
          else .returned (.ok (count - (charsLeft + 1))) (.device major b') memory
            (taken ++ [character])
        else
          match copyOut t memory (address + (count - (charsLeft + 1))) [character] with
          | (.error _, memory, _) =>
            .returned (.ok (count - (charsLeft + 1))) (.device major b') memory
              (taken ++ [character])
          | (.ok (), memory, _) =>
            if character = Console.newline then
              .returned (.ok (count - charsLeft)) (.device major b') memory (taken ++ [character])
            else consoleLoop major charsLeft b' memory (taken ++ [character])

/-! ## File.read -/

/-- A stretch of `File.read`, with what is left to read. -/
def read (f : File) (memory : PhysicalMemory) (charsLeft : ℕ) (taken : List UInt8) : Outcome :=
  if f.isReadable = false then .returned (.error .fileNotReadable) f.data memory taken
  else
    match f.data with
    | .none => .fault
    | .pipe p => pipeRead process t address count p memory taken
    | .device major b =>
      if maxDeviceCount ≤ major then .returned (.error .deviceMajorCorrupted) f.data memory taken
      else if major = consoleMajor then
        consoleLoop process t address count major charsLeft b memory taken
      else .returned (.error .deviceCantRead) f.data memory taken
    | .inode inode offset =>
      match inodeRead t address count inode offset memory with
      | (.error e, memory) => .returned (.error e) f.data memory taken
      | (.ok bytes, memory) =>
        .returned (.ok bytes.length) (.inode inode (offset + bytes.length)) memory (taken ++ bytes)

/-! ## Calls -/

/-- What other processes do while a call sleeps leaves the kind of its file. -/
def FileData.SameKind : FileData → FileData → Bool
  | .none, .none | .pipe _, .pipe _ | .inode .., .inode .. => true
  | .device major _, .device major' _ => major = major'
  | _, _ => false

structure Result where
  result : Except ReadError ℕ
  data : FileData
  memory : PhysicalMemory
  taken : List UInt8

/-- A call, with the process and the file at the beginning of each stretch. It has a
result when it returns at the end of the last one. -/
def call (isReadable : Bool) :
    List (Option Bool × FileData) → PhysicalMemory → ℕ → List UInt8 → Option Result
  | [], _, _, _ => none
  | (process, data) :: rest, memory, charsLeft, taken =>
    match read process t address count ⟨isReadable, data⟩ memory charsLeft taken with
    | .fault => none
    | .returned r data memory taken =>
      if rest.isEmpty then some ⟨r, data, memory, taken⟩ else none
    | .asleep data memory charsLeft taken =>
      match rest with
      | [] => none
      | next :: _ =>
        if data.SameKind next.2 then call isReadable rest memory charsLeft taken else none

end Reads

/-! ## Positions -/

/-- The byte of a file, if `getBlock` finds its block. -/
def Inode.byteAt (inode : Inode) (k : ℕ) : UInt8 :=
  ((inode.getBlock (k / blockSize)).map fun block => block.byte (k % blockSize)).getD 0

/-- The byte that is `i` bytes behind where the next read begins. -/
def FileData.byteAt : FileData → ℕ → UInt8
  | .none, _ => 0
  | .pipe p, i => p.data ((p.readCount + i) % Pipes.pipeSize)
  | .inode file offset, i => file.byteAt (offset + i)
  | .device _ b, i => b.data ((b.readIndex + i) % Console.inputBufSize)

/-- The next `n` bytes. -/
def FileData.bytes (d : FileData) (n : ℕ) : List UInt8 := (List.range n).map d.byteAt

/-- `read_count`, the offset or `readIndex`, moved on by `n` bytes. -/
def FileData.advance : FileData → ℕ → FileData
  | .none, _ => .none
  | .pipe p, n => .pipe { p with readCount := add32 p.readCount n }
  | .inode file offset, n => .inode file (offset + n)
  | .device major b, n => .device major { b with readIndex := b.readIndex + n }

/-- `read_count` is a `u32`. -/
def FileData.IsWord : FileData → Prop
  | .pipe p => p.readCount < 2 ^ 32
  | _ => True

/-- The position has moved past what has been taken, and nothing else of the file has changed. -/
def Moved (d : FileData) (taken : List UInt8) (d' : FileData) (taken' : List UInt8) : Prop :=
  ∃ n, d' = d.advance n ∧ taken' = taken ++ d.bytes n

theorem FileData.advance_zero {d : FileData} (h : d.IsWord) : d.advance 0 = d := by
  cases d with
  | none => rfl
  | pipe p => simp [advance, add32_of_lt (show p.readCount + 0 < 2 ^ 32 from h)]
  | inode file offset => rfl
  | device major b => rfl

theorem FileData.advance_add (d : FileData) (m n : ℕ) :
    (d.advance m).advance n = d.advance (m + n) := by
  cases d with
  | none => rfl
  | pipe p => simp [advance, add32, add_assoc]
  | inode file offset => simp [advance, add_assoc]
  | device major b => simp [advance, add_assoc]

theorem FileData.byteAt_advance (d : FileData) (m i : ℕ) :
    (d.advance m).byteAt i = d.byteAt (m + i) := by
  cases d with
  | none => rfl
  | pipe p =>
    simp only [advance, byteAt, add32, Pipes.pipeSize]
    congr 1
    omega
  | inode file offset => simp only [advance, byteAt, add_assoc]
  | device major b => simp only [advance, byteAt, add_assoc]

theorem FileData.bytes_add (d : FileData) (m n : ℕ) :
    d.bytes (m + n) = d.bytes m ++ (d.advance m).bytes n := by
  simp only [bytes, List.range_add, List.map_append, List.map_map]
  congr 1
  exact List.map_congr_left fun i _ => (d.byteAt_advance m i).symm

theorem Moved.refl {d : FileData} (h : d.IsWord) (taken : List UInt8) : Moved d taken d taken :=
  ⟨0, (FileData.advance_zero h).symm, (List.append_nil taken).symm⟩

theorem Moved.trans {d d₁ d₂ : FileData} {xs ys zs : List UInt8} (h₁ : Moved d xs d₁ ys)
    (h₂ : Moved d₁ ys d₂ zs) : Moved d xs d₂ zs := by
  obtain ⟨m, rfl, rfl⟩ := h₁
  obtain ⟨n, rfl, rfl⟩ := h₂
  exact ⟨m + n, d.advance_add m n, by rw [List.append_assoc, ← d.bytes_add]⟩

/-- What has been taken before makes no difference. -/
theorem Moved.append_left {d d' : FileData} {xs ys : List UInt8} (h : Moved d xs d' ys)
    (taken : List UInt8) : Moved d (taken ++ xs) d' (taken ++ ys) := by
  obtain ⟨n, hd, rfl⟩ := h
  exact ⟨n, hd, (List.append_assoc ..).symm⟩

/-- The stretch ends in one of the ways that are given, or faults. -/
def Outcome.Ends (returned : Except ReadError ℕ → FileData → PhysicalMemory → List UInt8 → Prop)
    (asleep : FileData → PhysicalMemory → ℕ → List UInt8 → Prop) : Outcome → Prop
  | .returned r data memory taken => returned r data memory taken
  | .asleep data memory charsLeft taken => asleep data memory charsLeft taken
  | .fault => True

theorem Outcome.Ends.imp {o : Outcome}
    {R R' : Except ReadError ℕ → FileData → PhysicalMemory → List UInt8 → Prop}
    {S S' : FileData → PhysicalMemory → ℕ → List UInt8 → Prop} (h : o.Ends R S)
    (hreturned : ∀ r data memory taken, R r data memory taken → R' r data memory taken)
    (hasleep : ∀ data memory charsLeft taken, S data memory charsLeft taken →
      S' data memory charsLeft taken) : o.Ends R' S' := by
  cases o with
  | returned => exact hreturned _ _ _ _ h
  | asleep => exact hasleep _ _ _ _ h
  | fault => trivial

/-- The file has moved past what the stretch has taken. -/
def Outcome.MovedFrom (d : FileData) (taken : List UInt8) : Outcome → Prop :=
  Outcome.Ends (fun _ d' _ taken' => Moved d taken d' taken')
    (fun d' _ _ taken' => Moved d taken d' taken')

theorem Outcome.MovedFrom.trans {d d₁ : FileData} {xs ys : List UInt8} {o : Outcome}
    (h₂ : o.MovedFrom d₁ ys) (h₁ : Moved d xs d₁ ys) : o.MovedFrom d xs := by
  cases o with
  | returned => exact Moved.trans h₁ h₂
  | asleep => exact Moved.trans h₁ h₂
  | fault => trivial

section Positions
variable {process : Option Bool} {t : PageTable} {address count : ℕ}

end Positions

/-! ## Exactness -/

def FileData.isDevice : FileData → Bool
  | .device .. => true
  | _ => false

/-- What is returned has been taken and is in the destination, but for the `^D` of a read
that returns nothing; a read that fails at its destination has taken nothing. -/
def Result.Exact (t : PageTable) (address : ℕ) (s : Result) : Prop :=
  match s.result with
  | .ok n => (s.taken.length = n ∧ Holds t s.memory address s.taken) ∨
      (n = 0 ∧ s.data.isDevice = true ∧ s.taken = [Console.endOfFile])
  | .error (.copy _) => s.taken = []
  | .error _ => True

section Exactness
variable {process : Option Bool} {t : PageTable} {address count : ℕ}

end Exactness

/-! ## One byte -/

end Zigmaos.FileReads
