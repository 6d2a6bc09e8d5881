import Zigmaos.RingTransfer
import Zigmaos.SleepWakeupInvariant

/-!
# The transmit buffer of the UART

`putCharacter`, `start` and `interrupt` between any processes and CPUs: the ring
with its counters is the data, the transmit lock is its lock, and `&read_count` is
the channel that `putCharacter` sleeps on while the ring is full. The device takes
a byte when it is idle, and asks for an interrupt when it is idle again.
-/
namespace Zigmaos.Uart

open ProcessTable (Slot Channel)
open Scheduler (Agent)
open RingTransfer (add64)

def bufferSize : ℕ := 32

structure Transmit where
  buffer : ℕ → UInt8
  writeCount : ℕ
  readCount : ℕ

namespace Transmit

def isFull (t : Transmit) : Bool := t.writeCount = add64 t.readCount bufferSize

def isEmpty (t : Transmit) : Bool := t.writeCount = t.readCount

def transmitChar (t : Transmit) (char : UInt8) : Transmit :=
  { t with
    buffer := Function.update t.buffer (t.writeCount % bufferSize) char
    writeCount := add64 t.writeCount 1 }

def character (t : Transmit) : UInt8 := t.buffer (t.readCount % bufferSize)

/-- `readChar`, up to its `wakeup`. -/
def readChar (t : Transmit) : Transmit := { t with readCount := add64 t.readCount 1 }

end Transmit

/-- Where code is with regard to the driver. -/
inductive Position
  | outside
  /-- In `putCharacter`, up to the end of the loop that waits for room. -/
  | putting (char : UInt8)
  /-- In `interrupt`, before it takes the lock. -/
  | interrupted
  /-- At the beginning of a turn of `start`. -/
  | starting
  /-- `readChar` has taken the character from the ring. -/
  | reading (char : UInt8)
  /-- `readChar` has called `wakeup`. -/
  | waking (char : UInt8)
  /-- `start` has returned. -/
  | finished
  deriving DecidableEq

namespace Position

def hasLock : Position → Bool
  | starting | reading _ | waking _ | finished => true
  | _ => false

/-- The character that is neither in the ring nor written to the device. -/
def hand : Position → List UInt8
  | reading char | waking char => [char]
  | _ => []

/-- The test of `start` is still to come. -/
def willStart : Position → Bool
  | interrupted | starting | reading _ | waking _ => true
  | _ => false

end Position

structure Device where
  /-- The holding register can accept a character: bit 5 of the line status. -/
  idle : Bool
  /-- The device asks for an interrupt. -/
  raised : Bool
  deriving DecidableEq

variable {κ : Type*}

structure State (κ : Type*) where
  monitor : SleepWakeup.State κ Transmit
  position : Agent κ → Position
  device : Device
  /-- The characters of `transmitChar`. -/
  accepted : List UInt8
  /-- The characters that `start` has written to the holding register. -/
  sent : List UInt8

inductive Event (κ : Type*)
  /-- Anything that is not code of the driver. -/
  | other (e : Scheduler.Event κ)
  | putCharacter (c : κ) (p : Slot) (char : UInt8)
  | acquire (c : κ) (a : Agent κ)
  | sleep (c : κ) (p : Slot)
  | transmitChar (c : κ) (p : Slot)
  /-- A turn of `start`, up to the `wakeup`. -/
  | start (c : κ) (a : Agent κ)
  | wakeup (c : κ) (a : Agent κ)
  | write (c : κ) (a : Agent κ)
  | release (c : κ) (a : Agent κ)
  | interrupt (c : κ)
  /-- `putCharSync` writes to the holding register. -/
  | putCharSync
  /-- The device has sent its character. -/
  | done
  /-- The device asks for an interrupt, as it does for input. -/
  | raise
  /-- The device does so no more, since it has a character to send. -/
  | withdraw

variable [DecidableEq κ] (channel : Channel)

/-- What the loop of `putCharacter` waits for. -/
def hasRoom (_ : Slot) (t : Transmit) : Bool := !t.isFull

/-- Other code runs outside of the driver, and sleeps on other channels. -/
def State.permits (s : State κ) : Scheduler.Event κ → Bool
  | .sleep _ p _ | .exit _ p _ | .fork _ p _ _ | .forkInitFails _ p _ | .reparent _ p _
  | .reap _ p _ | .kill _ p _ _ => s.position (.process p) = .outside
  | .sleepWithLock _ p ch => s.position (.process p) = .outside ∧ ch ≠ channel
  | .startWakeup _ a _ => s.position a = .outside
  | .handlerEnd c => s.position (.handler c) = .outside
  | _ => true

section
variable (initialProcess : Slot)

def State.perform (s : State κ) (a : Agent κ) (x : Position) (e : SleepWakeup.Event κ Transmit) :
    Option (State κ) :=
  (SleepWakeup.step channel hasRoom initialProcess s.monitor e).map
    (fun m => { s with monitor := m, position := Function.update s.position a x })

def step (s : State κ) : Event κ → Option (State κ)
  | .other e =>
    if s.permits channel e then
      (SleepWakeup.step channel hasRoom initialProcess s.monitor (.scheduler e)).map
        (fun m => { s with monitor := m })
    else none
  | .putCharacter c p char =>
    if s.monitor.Ready c (.process p) ∧ s.position (.process p) = .outside then
      some { s with position := Function.update s.position (.process p) (.putting char) }
    else none
  | .acquire c a =>
    match s.position a with
    | .putting char => s.perform channel initialProcess a (.putting char) (.acquire c a)
    | .interrupted => s.perform channel initialProcess a .starting (.acquire c a)
    | _ => none
  | .sleep c p =>
    match s.position (.process p) with
    | .putting char =>
      if s.monitor.data.isFull then
        s.perform channel initialProcess (.process p) (.putting char)
          (.scheduler (.sleepWithLock c p channel))
      else none
    | _ => none
  | .transmitChar c p =>
    match s.position (.process p) with
    | .putting char =>
      if s.monitor.data.isFull then none
      else
        (s.perform channel initialProcess (.process p) .starting
          (.change c (.process p) (s.monitor.data.transmitChar char))).map
          (fun t => { t with accepted := s.accepted ++ [char] })
    | _ => none
  | .start c a =>
    if s.position a = .starting then
      if s.monitor.data.isEmpty || !s.device.idle then
        if s.monitor.Ready c a then
          some { s with position := Function.update s.position a .finished }
        else none
      else s.perform channel initialProcess a (.reading s.monitor.data.character)
        (.change c a s.monitor.data.readChar)
    else none
  | .wakeup c a =>
    match s.position a with
    | .reading char =>
      s.perform channel initialProcess a (.waking char) (.scheduler (.startWakeup c a channel))
    | _ => none
  | .write c a =>
    match s.position a with
    | .waking char =>
      if s.monitor.Ready c a then
        some { s with
          position := Function.update s.position a .starting
          device := { s.device with idle := false }
          sent := s.sent ++ [char] }
      else none
    | _ => none
  | .release c a =>
    if s.position a = .finished then s.perform channel initialProcess a .outside (.release c a)
    else none
  | .interrupt c =>
    if s.device.raised ∧ s.position (.handler c) = .outside then
      (s.perform channel initialProcess (.handler c) .interrupted
        (.scheduler (.handlerStart c))).map
        (fun t => { t with device := { s.device with raised := false } })
    else none
  | .putCharSync =>
    if s.device.idle then some { s with device := { s.device with idle := false } } else none
  | .done =>
    if s.device.idle then none else some { s with device := ⟨true, true⟩ }
  | .raise => some { s with device := { s.device with raised := true } }
  | .withdraw =>
    if s.device.idle then none else some { s with device := { s.device with raised := false } }

structure Initial (s : State κ) : Prop where
  monitor : SleepWakeup.Initial initialProcess s.monitor
  writeCount : s.monitor.data.writeCount = 0
  readCount : s.monitor.data.readCount = 0
  position : ∀ a, s.position a = .outside
  accepted : s.accepted = []
  sent : s.sent = []

end

end Zigmaos.Uart
