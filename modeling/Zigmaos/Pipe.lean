import Zigmaos.DiskBlock
import Zigmaos.Transition
import Mathlib.Data.List.GetD
import Mathlib.Logic.Function.Basic

/-!
# Pipes

Any number of processes read and write one pipe. A step is the code between two
points where the lock of the pipe can change hands, or one turn of a loop while
it is held; the `u32` counters wrap. The bytes that writers had accepted and
readers have been given are kept beside the pipe.
-/
namespace Zigmaos.Pipes

def pipeSize : ℕ := 512

structure Pipe where
  data : ℕ → UInt8
  readCount : ℕ
  writeCount : ℕ
  readIsOpen : Bool
  writeIsOpen : Bool

/-- What `alloc` makes of a page of garbage. -/
def alloc (garbage : ℕ → UInt8) : Pipe := ⟨garbage, 0, 0, true, true⟩

inductive PipeError
  | pipeReadIsClosed | processKilled
  deriving DecidableEq, Repr

/-- Where a process is; `count` is the length asked for and `done` the bytes so far. -/
inductive Phase
  | idle
  /-- At the head of the loop of `write`. -/
  | writeTest (count done : ℕ)
  /-- Past the tests of the loop. -/
  | writeGo (count done : ℕ)
  /-- Asleep on `&pipe.write_count`. -/
  | writeSleep (count done : ℕ)
  /-- Runnable, about to take the lock again. -/
  | writeWake (count done : ℕ)
  /-- At the head of the first loop of `read`. -/
  | readTest (count : ℕ)
  /-- About to sleep. -/
  | readGo (count : ℕ)
  /-- Asleep on `&pipe.read_count`. -/
  | readSleep (count : ℕ)
  | readWake (count : ℕ)
  /-- At the head of the second loop. -/
  | readLoop (count done : ℕ)
  deriving DecidableEq, Repr

/-- The phases in which the process holds the lock of the pipe. -/
def Phase.holds : Phase → Bool
  | .writeTest _ _ | .writeGo _ _ | .readTest _ | .readGo _ | .readLoop _ _ => true
  | _ => false

/-- The length asked for in a call of `read`. -/
def Phase.readLength : Phase → Option ℕ
  | .readTest count | .readGo count | .readSleep count | .readWake count | .readLoop count _ => count
  | _ => none

structure State (π : Type) where
  pipe : Pipe
  /-- `pipe.lock` -/
  holder : Option π
  phase : π → Phase
  isKilled : π → Bool
  /-- What the last call of a process returned. -/
  result : π → Option (Except PipeError ℕ)
  /-- The chunks copied in from writers and out to readers, one after another. -/
  accepted : List UInt8
  delivered : List UInt8

inductive Event (π : Type)
  | write (p : π) (count : ℕ)
  | read (p : π) (count : ℕ)
  /-- One step of a process that holds the lock. A user copy made in it moves the
  bytes `copied`, and fails before the end of the chunk unless `whole`. -/
  | step (p : π) (copied : List UInt8) (whole : Bool)
  /-- A process that was woken takes the lock. -/
  | acquire (p : π)
  | close (closeWrite : Bool)
  | kill (p : π)

/-- Overwrite the ring from `position` on. -/
def store (data : ℕ → UInt8) (position : ℕ) (bytes : List UInt8) : ℕ → UInt8 :=
  fun i => if position ≤ i ∧ i < position + bytes.length then bytes.getD (i - position) 0 else data i

namespace Pipe

def isFull (p : Pipe) : Bool := p.writeCount = add32 p.readCount pipeSize

/-- `chunked_write_count` -/
def writeChunk (p : Pipe) (count written : ℕ) : ℕ :=
  let availableSpace := pipeSize - sub32 p.writeCount p.readCount
  min (pipeSize - p.writeCount % pipeSize) (min availableSpace (count - written))

/-- `chunked_read_count` -/
def readChunk (p : Pipe) (count bytesRead : ℕ) : ℕ :=
  min (pipeSize - p.readCount % pipeSize) (min (sub32 p.writeCount p.readCount) (count - bytesRead))

/-- `pipe.data[read_position..end_read]` -/
def slice (p : Pipe) (n : ℕ) : List UInt8 :=
  (List.range n).map fun i => p.data (p.readCount % pipeSize + i)

/-- The bytes of the ring between the two counters. -/
def content (p : Pipe) : List UInt8 :=
  (List.range (sub32 p.writeCount p.readCount)).map fun i => p.data ((p.readCount + i) % pipeSize)

end Pipe

/-- `wakeup(&pipe.read_count)` -/
def Phase.wakeReader : Phase → Phase
  | .readSleep count => .readWake count
  | p => p

/-- `wakeup(&pipe.write_count)` -/
def Phase.wakeWriter : Phase → Phase
  | .writeSleep count done => .writeWake count done
  | p => p

variable {π : Type} [DecidableEq π]

namespace State

def setPhase (s : State π) (p : π) (f : Phase) : State π :=
  { s with phase := Function.update s.phase p f }

def wakeReaders (s : State π) : State π := { s with phase := fun q => (s.phase q).wakeReader }
def wakeWriters (s : State π) : State π := { s with phase := fun q => (s.phase q).wakeWriter }

/-- Release the lock and return from the call. -/
def finish (s : State π) (p : π) (r : Except PipeError ℕ) : State π :=
  { s.setPhase p .idle with holder := none, result := Function.update s.result p (some r) }

/-- `pipe.lock.sleepOn` -/
def sleepOn (s : State π) (p : π) (f : Phase) : State π :=
  { s.setPhase p f with holder := none }

/-- The loop of `write` past its tests. -/
def writeGo (s : State π) (p : π) (count written : ℕ) (copied : List UInt8) (whole : Bool) :
    Option (State π) :=
  if s.pipe.isFull then some (s.wakeReaders.sleepOn p (.writeSleep count written))
  else
    let chunk := s.pipe.writeChunk count written
    let data := store s.pipe.data (s.pipe.writeCount % pipeSize) copied
    if whole then
      if copied.length = chunk then
        some { s.setPhase p (.writeTest count (written + chunk)) with
          pipe := { s.pipe with data := data, writeCount := add32 s.pipe.writeCount chunk }
          accepted := s.accepted ++ copied }
      else none
    else if copied.length < chunk then
      some ({ s with pipe := { s.pipe with data := data } }.wakeReaders.finish p (.ok written))
    else none

/-- One turn of the second loop of `read`. -/
def readLoop (s : State π) (p : π) (count bytesRead : ℕ) (whole : Bool) : State π :=
  if bytesRead < count ∧ sub32 s.pipe.writeCount s.pipe.readCount ≠ 0 ∧ whole then
    let chunk := s.pipe.readChunk count bytesRead
    { s.setPhase p (.readLoop count (bytesRead + chunk)) with
      pipe := { s.pipe with readCount := add32 s.pipe.readCount chunk }
      delivered := s.delivered ++ s.pipe.slice chunk }
  else s.wakeWriters.finish p (.ok bytesRead)

end State

def step (s : State π) : Event π → Option (State π)
  | .write p count =>
    if s.phase p = .idle ∧ s.holder = none ∧ count < 2 ^ 32 then
      some { s.setPhase p (.writeTest count 0) with holder := some p }
    else none
  | .read p count =>
    if s.phase p = .idle ∧ s.holder = none ∧ count < 2 ^ 32 then
      some { s.setPhase p (.readTest count) with holder := some p }
    else none
  | .step p copied whole =>
    match s.phase p with
    | .writeTest count written =>
      if written < count then
        if !s.pipe.readIsOpen then some (s.finish p (.error .pipeReadIsClosed))
        else if s.isKilled p then some (s.finish p (.error .processKilled))
        else some (s.setPhase p (.writeGo count written))
      else some (s.wakeReaders.finish p (.ok written))
    | .writeGo count written => s.writeGo p count written copied whole
    | .readTest count =>
      if s.pipe.readCount = s.pipe.writeCount ∧ s.pipe.writeIsOpen then
        if s.isKilled p then some (s.finish p (.error .processKilled))
        else some (s.setPhase p (.readGo count))
      else some (s.setPhase p (.readLoop count 0))
    | .readGo count => some (s.sleepOn p (.readSleep count))
    | .readLoop count bytesRead => some (s.readLoop p count bytesRead whole)
    | _ => none
  | .acquire p =>
    if s.holder = none then
      match s.phase p with
      | .writeWake count written =>
        some { s.setPhase p (.writeTest count written) with holder := some p }
      | .readWake count => some { s.setPhase p (.readTest count) with holder := some p }
      | _ => none
    else none
  | .close closeWrite =>
    if s.holder = none then
      if closeWrite then
        some { s with pipe := { s.pipe with writeIsOpen := false } }.wakeReaders
      else some { s with pipe := { s.pipe with readIsOpen := false } }.wakeWriters
    else none
  | .kill p =>
    some { s with
      isKilled := Function.update s.isKilled p true
      phase := Function.update s.phase p (s.phase p).wakeReader.wakeWriter }

/-- A pipe that has just been allocated, and processes that do not use it yet. -/
def State.initial (garbage : ℕ → UInt8) (isKilled : π → Bool) : State π :=
  ⟨alloc garbage, none, fun _ => .idle, isKilled, fun _ => none, [], []⟩

end Zigmaos.Pipes
