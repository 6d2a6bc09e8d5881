import Zigmaos.DiskBlock
import Zigmaos.FileSystem
import Zigmaos.RingList
import Zigmaos.Transition
import Mathlib.Algebra.BigOperators.Ring.Finset
import Mathlib.Data.Fintype.BigOperators

/-!
# The buffer cache

The array of buffers with the links of the list through its head, and the
processes that use it. A step is a stretch under the lock of the cache or of a
buffer, so `get_buffer` and `release` take two: other processes run between the
lock of the cache and that of the buffer.
-/
namespace Zigmaos.BufferCache
open FileSystem RingList Finset

abbrev nBuf : ℕ := maxNumOperationBlocks * 3

instance : NeZero nBuf := ⟨by decide⟩

structure DiskBlock where
  number : ℕ
  device : DeviceId
  deriving DecidableEq

/-- `DiskBlock{}` -/
def DiskBlock.empty : DiskBlock := ⟨0, .zero⟩

/-- A pointer into `buffer_array`; in the links, `none` is the head. -/
abbrev BufferIndex := Fin nBuf

structure Buffer where
  isValid : Bool
  block : DiskBlock
  referenceCount : ℕ
  deriving DecidableEq

structure Cache where
  bufferArray : BufferIndex → Buffer
  links : Links BufferIndex

namespace Cache

def setBuffer (c : Cache) (i : BufferIndex) (b : Buffer) : Cache :=
  { c with bufferArray := Function.update c.bufferArray i b }

/-- One turn of the loop of `init_array`. -/
def initBuffer (c : Cache) (i : BufferIndex) : Cache :=
  { c.setBuffer i ⟨false, .empty, 0⟩ with links := c.links.pushFront i }

/-- `init_array`, on memory that holds anything. -/
def initArray (c : Cache) : Cache :=
  (List.finRange nBuf).foldl initBuffer
    { c with links := (c.links.setPrevious none none).setNext none none }

/-- The part of `get_buffer` under the lock of the cache; `none` is its panic. -/
def getBuffer (c : Cache) (block : DiskBlock) : Option (BufferIndex × Cache) :=
  match search c.links.next (fun i => (c.bufferArray i).block = block) (nBuf + 1)
      (c.links.next none) with
  | some i =>
    let b := c.bufferArray i
    some (i, c.setBuffer i { b with referenceCount := b.referenceCount + 1 })
  | none =>
    match search c.links.previous (fun i => (c.bufferArray i).referenceCount = 0) (nBuf + 1)
        (c.links.previous none) with
    | some i => some (i, c.setBuffer i ⟨false, block, 1⟩)
    | none => none

/-- The part of `release` under the lock of the cache. -/
def drop (c : Cache) (i : BufferIndex) : Cache :=
  let b := c.bufferArray i
  let c := c.setBuffer i { b with referenceCount := sub32 b.referenceCount 1 }
  if sub32 b.referenceCount 1 = 0 then { c with links := (c.links.unlink i).pushFront i } else c

def pin (c : Cache) (i : BufferIndex) : Cache :=
  let b := c.bufferArray i
  c.setBuffer i { b with referenceCount := b.referenceCount + 1 }

def unpin (c : Cache) (i : BufferIndex) : Cache :=
  let b := c.bufferArray i
  c.setBuffer i { b with referenceCount := sub32 b.referenceCount 1 }

end Cache

/-- Where a process is inside `get_buffer` or `release`. -/
inductive Phase
  | running
  /-- `get_buffer` has chosen the buffer and waits for its lock. -/
  | waiting (i : BufferIndex)
  /-- `release` has released the lock and not yet dropped the reference. -/
  | releasing (i : BufferIndex)
  deriving DecidableEq

structure State (π : Type) where
  cache : Cache
  /-- The process that holds `lock`. -/
  holder : BufferIndex → Option π
  phase : π → Phase
  /-- The pins that have not been undone. -/
  pins : BufferIndex → ℕ
  /-- The buffers that some `get_buffer` has returned. -/
  returned : BufferIndex → Bool
  /-- When the count of a buffer last fell to zero in `release`, from 1 on. -/
  lastDrop : BufferIndex → ℕ
  drops : ℕ

inductive Event (π : Type)
  | getBuffer (p : π) (block : DiskBlock)
  | acquire (p : π)
  | release (p : π) (i : BufferIndex)
  | drop (p : π)
  | pin (p : π) (i : BufferIndex)
  | unpin (p : π) (i : BufferIndex)

section
variable {π : Type} [DecidableEq π]

def State.setPhase (s : State π) (p : π) (f : Phase) : State π :=
  { s with phase := Function.update s.phase p f }

def step (s : State π) : Event π → Option (State π)
  | .getBuffer p block =>
    if s.phase p = .running then
      match s.cache.getBuffer block with
      | some (i, c) =>
        some { s.setPhase p (.waiting i) with
          cache := c
          returned := Function.update s.returned i true }
      | none => none
    else none
  | .acquire p =>
    match s.phase p with
    | .waiting i =>
      if s.holder i = none then
        some { s.setPhase p .running with holder := Function.update s.holder i (some p) }
      else none
    | _ => none
  | .release p i =>
    if s.phase p = .running ∧ s.holder i = some p then
      some { s.setPhase p (.releasing i) with holder := Function.update s.holder i none }
    else none
  | .drop p =>
    match s.phase p with
    | .releasing i =>
      let s' := { s.setPhase p .running with cache := s.cache.drop i }
      if (s'.cache.bufferArray i).referenceCount = 0 then
        some { s' with
          lastDrop := Function.update s.lastDrop i (s.drops + 1)
          drops := s.drops + 1 }
      else some s'
    | _ => none
  | .pin p i =>
    if s.phase p = .running ∧ s.returned i = true then
      some { s with cache := s.cache.pin i, pins := Function.update s.pins i (s.pins i + 1) }
    else none
  | .unpin p i =>
    if s.phase p = .running ∧ 0 < s.pins i then
      some { s with cache := s.cache.unpin i, pins := Function.update s.pins i (s.pins i - 1) }
    else none

/-- After `init_array`, with every lock free. -/
def State.initial (memory : Cache) : State π where
  cache := memory.initArray
  holder _ := none
  phase _ := .running
  pins _ := 0
  returned _ := false
  lastDrop _ := 0
  drops := 0

def State.holders (s : State π) (i : BufferIndex) : ℕ := if (s.holder i).isSome then 1 else 0

variable [Fintype π]

def State.waiters (s : State π) (i : BufferIndex) : ℕ :=
  (univ.filter (fun p => s.phase p = .waiting i)).card

/-- The processes that have released the lock and not yet dropped their reference. -/
def State.releasers (s : State π) (i : BufferIndex) : ℕ :=
  (univ.filter (fun p => s.phase p = .releasing i)).card

end

end Zigmaos.BufferCache
