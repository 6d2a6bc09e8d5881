import Mathlib
import Zigmaos.Transition

/-!
# The virtio disk driver

`readOrWrite` by any number of processes, `interrupt`, and the device. What a
process does under `vdisk_lock`, up to the next `sleepOn` or the return, is one
event; a process that sleeps may go on at any time. The loop of `interrupt` is
taken turn by turn, with steps of the device in between.

The device takes chain heads off the available ring, follows the chain to store
the status, and puts the head into the used ring, for each head in its own time.
-/
namespace Zigmaos.DiskDriver

abbrev queueSize : ℕ := 8

/-- The ring indices are 16 bits wide. -/
abbrev indexSize : ℕ := 2 ^ 16

/-- What a descriptor points to. -/
inductive Address (β : Type*)
  | null
  | operation (i : ℕ)
  | data (buffer : β)
  | status (i : ℕ)
  deriving DecidableEq

structure Descriptor (β : Type*) where
  address : Address β
  length : ℕ
  next : Bool
  write : Bool
  nextIndex : ℕ
  deriving DecidableEq

/-- As `freeDescriptor` leaves it. -/
def Descriptor.cleared {β : Type*} : Descriptor β := ⟨.null, 0, false, false, 0⟩

inductive BufferStatus
  | ok | ioError | unsupported | pending
  deriving DecidableEq

structure StatusBuffer (β : Type*) where
  buffer : Option β
  status : BufferStatus
  deriving DecidableEq

structure BlockRequest where
  isWrite : Bool
  sector : ℕ
  deriving DecidableEq

inductive Panic
  | freeOutOfRange | alreadyFree | usedIdOutOfRange | interruptStatus | nullBuffer
  deriving DecidableEq

structure Disk (β : Type*) where
  descriptor : ℕ → Descriptor β
  available : ℕ → ℕ
  availableIdx : ℕ
  used : ℕ → ℕ
  usedRingIdx : ℕ
  free : ℕ → Bool
  /-- How far the driver has looked at the used ring. -/
  usedIdx : ℕ
  info : ℕ → StatusBuffer β
  operations : ℕ → BlockRequest

section
variable {β : Type*}

def allocDescriptor (d : Disk β) : Option (Disk β × ℕ) :=
  match (List.range queueSize).find? d.free with
  | some i => some ({ d with free := Function.update d.free i false }, i)
  | none => none

/-- The `wakeup` on `free[0]` is left out: a sleeper may go on at any time. -/
def freeDescriptor (d : Disk β) (i : ℕ) : Except Panic (Disk β) :=
  if queueSize ≤ i then .error .freeOutOfRange
  else if d.free i then .error .alreadyFree
  else .ok { d with
    descriptor := Function.update d.descriptor i .cleared
    free := Function.update d.free i true }

/-- The loop of `freeDescriptorChain`: after `queueSize` turns every descriptor is
free, and one more turn panics. -/
def freeDescriptorChain : ℕ → Disk β → ℕ → Except Panic (Disk β)
  | 0, _, _ => .error .alreadyFree
  | fuel + 1, d, i => do
    let next := (d.descriptor i).next
    let nextIndex := (d.descriptor i).nextIndex
    let d ← freeDescriptor d i
    if next then freeDescriptorChain fuel d nextIndex else .ok d

/-- The loop of `allocDescriptorsSlice`, with `n` descriptors to go; what it has
allocated so far is given back when there is no other one. -/
def allocDescriptorsSlice : ℕ → Disk β → List ℕ → Except Panic (Disk β × Option (List ℕ))
  | 0, d, l => .ok (d, some l)
  | n + 1, d, l =>
    match allocDescriptor d with
    | some (d, i) => allocDescriptorsSlice n d (l ++ [i])
    | none => do
      let d ← l.foldlM freeDescriptor d
      .ok (d, none)

/-- The three descriptors, the status and the entry of the available ring. -/
def format (d : Disk β) (buffer : β) (number : ℕ) (doWrite : Bool) (i₀ i₁ i₂ : ℕ) : Disk β :=
  { d with
    operations := Function.update d.operations i₀ ⟨doWrite, number * 2⟩
    descriptor := Function.update (Function.update (Function.update d.descriptor
      i₀ ⟨.operation i₀, 16, true, false, i₁⟩)
      i₁ ⟨.data buffer, 1024, true, !doWrite, i₂⟩)
      i₂ ⟨.status i₀, 1, false, true, 0⟩
    info := Function.update d.info i₀ ⟨some buffer, .pending⟩
    available := Function.update d.available (d.availableIdx % queueSize) i₀
    availableIdx := (d.availableIdx + 1) % indexSize }

end

/-- Where a process is in `readOrWrite`. -/
inductive Phase (β : Type*)
  | idle
  /-- It sleeps for free descriptors. -/
  | waiting (buffer : β) (number : ℕ) (doWrite : Bool)
  /-- It sleeps for the completion of its request. -/
  | submitted (buffer : β) (i₀ i₁ i₂ : ℕ)
  deriving DecidableEq

structure State (π β : Type*) where
  disk : Disk β
  diskOwned : β → Bool
  /-- The process that holds the lock of the buffer. -/
  holder : β → Option π
  phase : π → Phase β
  /-- `interrupt` has `vdisk_lock`. -/
  interrupting : Bool
  /-- How far the device has looked at the available ring. -/
  seen : ℕ
  /-- The heads that the device has taken, and those whose status it has stored. -/
  taken : List ℕ
  finished : List ℕ
  /-- How often `interrupt` has cleared `disk_owned` since the process submitted. -/
  cleared : π → ℕ
  panicked : Option Panic

inductive Event (π β : Type*)
  | lockBuffer (p : π) (buffer : β)
  | unlockBuffer (p : π) (buffer : β)
  /-- `readOrWrite` is called. -/
  | request (p : π) (buffer : β) (number : ℕ) (doWrite : Bool)
  /-- It goes on after it has slept on `free[0]`. -/
  | retry (p : π)
  /-- It goes on after it has slept on its buffer. -/
  | resume (p : π)
  | interrupt
  | interruptTurn
  | deviceTake
  | deviceFinish (head : ℕ)
  | devicePublish (head : ℕ)

variable {π β : Type*} [DecidableEq π] [DecidableEq β]

def State.setPhase (s : State π β) (p : π) (f : Phase β) : State π β :=
  { s with phase := Function.update s.phase p f }

/-- The loop that allocates the descriptors, up to the first sleep of the request. -/
def attempt (s : State π β) (p : π) (buffer : β) (number : ℕ) (doWrite : Bool) :
    Option (State π β) :=
  match allocDescriptorsSlice 3 s.disk [] with
  | .error e => some { s with panicked := some e }
  | .ok (d, none) => some ({ s with disk := d }.setPhase p (.waiting buffer number doWrite))
  | .ok (d, some [i₀, i₁, i₂]) =>
    some ({ s with
      disk := format d buffer number doWrite i₀ i₁ i₂
      diskOwned := Function.update s.diskOwned buffer true
      cleared := Function.update s.cleared p 0 }.setPhase p (.submitted buffer i₀ i₁ i₂))
  | .ok (_, some _) => none

/-- A turn of the loop of `interrupt`. -/
def interruptTurn (s : State π β) : State π β :=
  let id := s.disk.used (s.disk.usedIdx % queueSize)
  if queueSize ≤ id then { s with panicked := some .usedIdOutOfRange }
  else if (s.disk.info id).status ≠ .ok then { s with panicked := some .interruptStatus }
  else match (s.disk.info id).buffer with
    | none => { s with panicked := some .nullBuffer }
    | some buffer =>
      { s with
        diskOwned := Function.update s.diskOwned buffer false
        disk := { s.disk with usedIdx := (s.disk.usedIdx + 1) % indexSize }
        cleared := match s.holder buffer with
          | some p => Function.update s.cleared p (s.cleared p + 1)
          | none => s.cleared }

/-- The device stores the status through the last descriptor of the chain. -/
def storeStatus (d : Disk β) (head : ℕ) : Disk β :=
  match (d.descriptor (d.descriptor (d.descriptor head).nextIndex).nextIndex).address with
  | .status i => { d with info := Function.update d.info i { d.info i with status := .ok } }
  | _ => d

def step (s : State π β) (e : Event π β) : Option (State π β) :=
  if s.panicked ≠ none then none
  else match e with
  | .lockBuffer p b =>
    if s.holder b = none then some { s with holder := Function.update s.holder b (some p) }
    else none
  | .unlockBuffer p b =>
    if s.holder b = some p ∧ s.phase p = .idle then
      some { s with holder := Function.update s.holder b none }
    else none
  | .request p b number doWrite =>
    if s.interrupting = false ∧ s.phase p = .idle ∧ s.holder b = some p then
      attempt s p b number doWrite
    else none
  | .retry p =>
    match s.phase p with
    | .waiting b number doWrite =>
      if s.interrupting = false then attempt s p b number doWrite else none
    | _ => none
  | .resume p =>
    match s.phase p with
    | .submitted b i₀ _ _ =>
      if s.interrupting = false ∧ s.diskOwned b = false then
        let d := { s.disk with
          info := Function.update s.disk.info i₀ { s.disk.info i₀ with buffer := none } }
        match freeDescriptorChain (queueSize + 1) d i₀ with
        | .error e => some { s with panicked := some e }
        | .ok d => some ({ s with disk := d }.setPhase p .idle)
      else none
    | _ => none
  | .interrupt => if s.interrupting = false then some { s with interrupting := true } else none
  | .interruptTurn =>
    if s.interrupting then
      if s.disk.usedIdx ≠ s.disk.usedRingIdx then some (interruptTurn s)
      else some { s with interrupting := false }
    else none
  | .deviceTake =>
    if s.seen ≠ s.disk.availableIdx then
      some { s with
        seen := (s.seen + 1) % indexSize
        taken := s.taken ++ [s.disk.available (s.seen % queueSize)] }
    else none
  | .deviceFinish head =>
    if head ∈ s.taken then
      some { s with
        disk := storeStatus s.disk head
        taken := s.taken.erase head
        finished := s.finished ++ [head] }
    else none
  | .devicePublish head =>
    if head ∈ s.finished then
      some { s with
        disk := { s.disk with
          used := Function.update s.disk.used (s.disk.usedRingIdx % queueSize) head
          usedRingIdx := (s.disk.usedRingIdx + 1) % indexSize }
        finished := s.finished.erase head }
    else none

/-- After `init`, with no buffer locked. -/
structure Initial (s : State π β) : Prop where
  free : ∀ i, i < queueSize → s.disk.free i = true
  availableIdx : s.disk.availableIdx = 0
  usedRingIdx : s.disk.usedRingIdx = 0
  usedIdx : s.disk.usedIdx = 0
  diskOwned : ∀ b, s.diskOwned b = false
  holder : ∀ b, s.holder b = none
  phase : ∀ p, s.phase p = .idle
  interrupting : s.interrupting = false
  seen : s.seen = 0
  taken : s.taken = []
  finished : s.finished = []
  panicked : s.panicked = none

end Zigmaos.DiskDriver
