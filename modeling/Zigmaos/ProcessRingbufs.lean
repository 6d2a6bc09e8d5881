import Zigmaos.ProcessMemory
import Zigmaos.Ringbuf

/-!
# Processes with ring buffers

The calls of processes on their memory together with those of `ringbuf.zig`.
`Process.free` takes away the ring buffers of its process first. What physical
memory holds when a ring buffer is opened or closed is given.
-/
namespace Zigmaos.ProcessRingbufs
open Memory
open ProcessMemory (Slot)
open RingbufManager (Ringbuf maxRingbufs)

/-- What a process knows of its ring buffers. -/
structure Owned where
  ownedRingbufsCount : ℕ
  topFreeVirtualPage : ℕ

def Owned.initial : Owned := ⟨0, trapframePage - 2⟩

structure State where
  memory : ProcessMemory.State
  ringbufs : Fin maxRingbufs → Ringbuf Slot
  owned : Slot → Owned

inductive Panic
  | process (p : ProcessMemory.Panic)
  | ringbuf (p : RingbufManager.Panic)
  deriving DecidableEq

/-- A panic of `user_memory.zig`. -/
def Panic.memory : Panic → Option Memory.Panic
  | .process (.memory p) => some p
  | .ringbuf (.memory p) => some p
  | _ => none

inductive Fault
  | disabled
  | panic (p : Panic)
  deriving DecidableEq

inductive Event
  | process (event : ProcessMemory.Event)
  | openRingbuf (i : Slot) (name : List UInt8) (address : ℕ) (memory : PhysicalMemory)
  | closeRingbuf (i : Slot) (name : List UInt8) (address : ℕ) (memory : PhysicalMemory)

namespace State

/-- The state that `ringbuf.zig` works on, with `t` where there is no table. -/
def manager (s : State) (memory : PhysicalMemory) (t : PageTable) : RingbufManager.State Slot where
  memory := memory
  allocator := s.memory.allocator
  ringbufs := s.ringbufs
  processes i :=
    ⟨(s.memory.processes i).pageTable.getD t, (s.owned i).ownedRingbufsCount,
      (s.owned i).topFreeVirtualPage⟩

/-- What a call of `ringbuf.zig` by the process in slot `i` leaves behind. -/
def leave (s : State) (i : Slot) (r : RingbufManager.State Slot) : State where
  memory := { s.memory with
    allocator := r.allocator
    processes := Function.update s.memory.processes i
      { s.memory.processes i with pageTable := some (r.processes i).pageTable } }
  ringbufs := r.ringbufs
  owned := Function.update s.owned i
    ⟨(r.processes i).ownedRingbufsCount, (r.processes i).topFreeVirtualPage⟩

/-- A call of `ringbuf.zig`. -/
def call (s : State) (i : Slot) (memory : PhysicalMemory)
    (f : RingbufManager.State Slot → Except RingbufManager.Panic (RingbufManager.State Slot)) :
    Except Fault State :=
  match (s.memory.processes i).pageTable with
  | none => .error (.panic (.process .noPageTable))
  | some t =>
    match f (s.manager memory t) with
    | .error p => .error (.panic (.ringbuf p))
    | .ok r => .ok (s.leave i r)

/-- A call of a process on its memory. -/
def processStep (s : State) (event : ProcessMemory.Event) : Except Fault State :=
  match ProcessMemory.step s.memory event with
  | .error .disabled => .error .disabled
  | .error (.panic p) => .error (.panic (.process p))
  | .ok memory => .ok { s with memory := memory }

/-- The beginning of `Process.free`. -/
def disownRingbufs (s : State) (i : Slot) : Except Fault State :=
  if 0 < (s.owned i).ownedRingbufsCount then s.call i (fun _ => 0) (·.disownAll i) else .ok s

/-- `Process.free` of a process that has exited. -/
def free (s : State) (i : Slot) : Except Fault State := do
  let s ← s.disownRingbufs i
  let s ← s.processStep (.reap i)
  return { s with owned := Function.update s.owned i .initial }

end State

def step (s : State) (event : Event) : Except Fault State :=
  match event with
  | .process (.reap i) =>
    if (s.memory.processes i).state = .zombie then s.free i else .error .disabled
  | .process event => s.processStep event
  | .openRingbuf i name address memory =>
    if s.memory.Running i then
      s.call i memory (fun r => (r.openRingbuf i name address).map Prod.snd)
    else .error .disabled
  | .closeRingbuf i name address memory =>
    if s.memory.Running i then
      s.call i memory (fun r => (r.closeRingbuf i name address).map Prod.snd)
    else .error .disabled

end Zigmaos.ProcessRingbufs
