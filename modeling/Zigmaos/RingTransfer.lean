import Mathlib.Data.List.GetD
import Mathlib.Data.Nat.ModEq
import Mathlib.Logic.Function.Basic
import Zigmaos.Transition

/-!
# Transfer through a shared ring buffer

One writer and one reader use `startWrite`, `finishWrite`, `startRead` and
`finishRead` of a ring buffer that both have mapped twice. Every load, every
access to a byte and every `fetchAdd` is a step of its own. Beside the ring, the
bytes that are finished by the writer and by the reader are kept.
-/
namespace Zigmaos.RingTransfer

/-- `BUF_CAPACITY` -/
def bufCapacity : ℕ := 16 * 4096

/-- Arithmetic of 64-bit numbers, which wraps. -/
def add64 (a b : ℕ) : ℕ := (a + b) % 2 ^ 64
def sub64 (a b : ℕ) : ℕ := if b ≤ a then a - b else a + 2 ^ 64 - b

/-- A slice of `buf`. -/
structure Slice where
  start : ℕ
  length : ℕ
  deriving DecidableEq

/-- Where the writer is. -/
inductive Writer
  | idle
  /-- `startWrite` has loaded `read_done`. -/
  | starting (readDone : ℕ)
  | filling (slice : Slice)
  /-- `finishWrite` is about to load `write_done`. -/
  | finishing (byteLen : ℕ)
  | asserting (byteLen writeDone : ℕ)
  /-- About to add to `write_done`. -/
  | adding (byteLen : ℕ)
  | assertFailed
  deriving DecidableEq

/-- Where the reader is. -/
inductive Reader
  | idle
  /-- `startRead` has loaded `read_done`. -/
  | starting (readDone : ℕ)
  | reading (slice : Slice)
  /-- `finishRead` is about to load `write_done`. -/
  | finishing (byteLen : ℕ)
  | asserting (byteLen writeDone : ℕ)
  /-- About to add to `read_done`. -/
  | adding (byteLen : ℕ)
  | assertFailed
  deriving DecidableEq

structure State where
  /-- The bytes of the pages; byte `k` of `buf` is at `k % bufCapacity`. -/
  cells : ℕ → UInt8
  readDone : ℕ
  writeDone : ℕ
  writer : Writer
  reader : Reader
  /-- What the writer has put in its slice, and the reader has found in its own. -/
  put : ℕ → Option UInt8
  got : ℕ → Option UInt8
  /-- The bytes that were finished. -/
  produced : List UInt8
  consumed : List UInt8

inductive Event
  | startWrite
  | put (k : ℕ) (byte : UInt8)
  | finishWrite (byteLen : ℕ)
  /-- The next load or `fetchAdd` of the writer. -/
  | writer
  | startRead
  | get (k : ℕ)
  | finishRead (byteLen : ℕ)
  | reader

/-- The first bytes of a slice. -/
def firstBytes (bytes : ℕ → Option UInt8) (n : ℕ) : List UInt8 :=
  (List.range n).map (fun k => (bytes k).getD 0)

/-- The first bytes of the slice are there. -/
def Complete (bytes : ℕ → Option UInt8) (n : ℕ) : Prop := ∀ k < n, (bytes k).isSome

instance (bytes : ℕ → Option UInt8) (n : ℕ) : Decidable (Complete bytes n) :=
  inferInstanceAs (Decidable (∀ k < n, (bytes k).isSome))

namespace State

def writerStep (s : State) : Option State :=
  match s.writer with
  | .idle | .filling _ | .assertFailed => none
  | .starting readDone =>
    some { s with
      writer := .filling ⟨s.writeDone % bufCapacity,
        sub64 bufCapacity (sub64 s.writeDone readDone)⟩
      put := fun _ => none }
  | .finishing byteLen => some { s with writer := .asserting byteLen s.writeDone }
  | .asserting byteLen writeDone =>
    if sub64 (add64 writeDone byteLen) s.readDone ≤ bufCapacity then
      some { s with writer := .adding byteLen }
    else some { s with writer := .assertFailed }
  | .adding byteLen =>
    some { s with
      writer := .idle
      writeDone := add64 s.writeDone byteLen
      produced := s.produced ++ firstBytes s.put byteLen }

def readerStep (s : State) : Option State :=
  match s.reader with
  | .idle | .reading _ | .assertFailed => none
  | .starting readDone =>
    some { s with
      reader := .reading ⟨readDone % bufCapacity, sub64 s.writeDone readDone⟩
      got := fun _ => none }
  | .finishing byteLen => some { s with reader := .asserting byteLen s.writeDone }
  | .asserting byteLen writeDone =>
    if byteLen ≤ sub64 writeDone s.readDone then some { s with reader := .adding byteLen }
    else some { s with reader := .assertFailed }
  | .adding byteLen =>
    some { s with
      reader := .idle
      readDone := add64 s.readDone byteLen
      consumed := s.consumed ++ firstBytes s.got byteLen }

end State

def step (s : State) : Event → Option State
  | .startWrite => if s.writer = .idle then some { s with writer := .starting s.readDone } else none
  | .put k byte =>
    match s.writer with
    | .filling slice =>
      if k < slice.length then
        some { s with
          cells := Function.update s.cells ((slice.start + k) % bufCapacity) byte
          put := Function.update s.put k (some byte) }
      else none
    | _ => none
  | .finishWrite byteLen =>
    match s.writer with
    | .filling slice =>
      if byteLen ≤ slice.length ∧ Complete s.put byteLen then
        some { s with writer := .finishing byteLen }
      else none
    | _ => none
  | .writer => s.writerStep
  | .startRead => if s.reader = .idle then some { s with reader := .starting s.readDone } else none
  | .get k =>
    match s.reader with
    | .reading slice =>
      if k < slice.length then
        some { s with
          got := Function.update s.got k (some (s.cells ((slice.start + k) % bufCapacity))) }
      else none
    | _ => none
  | .finishRead byteLen =>
    match s.reader with
    | .reading slice =>
      if byteLen ≤ slice.length ∧ Complete s.got byteLen then
        some { s with reader := .finishing byteLen }
      else none
    | _ => none
  | .reader => s.readerStep

/-- A new ring buffer, whatever its pages hold. -/
structure Initial (s : State) : Prop where
  readDone : s.readDone = 0
  writeDone : s.writeDone = 0
  writer : s.writer = .idle
  reader : s.reader = .idle
  produced : s.produced = []
  consumed : s.consumed = []

end Zigmaos.RingTransfer
