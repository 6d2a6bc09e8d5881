import Zigmaos.ProcessTable

/-!
# The scheduler loop on many CPUs

Every CPU runs `loop`, or code of a process it has switched to, or an interrupt
handler on top of either. An event is what one CPU does up to the next point at
which it takes or gives up a process lock, so that the lock of a process, which
is taken in one context and released in another, is followed through both.

The scans of `alloc`, `wait` and `kill` are not kept in order: an event may look
at any slot next. The loop of `wakeup` is, slot by slot.
-/
namespace Zigmaos.Scheduler

open ProcessTable (Slot nProc Process ProcessState Channel)

/-- What a CPU executes. -/
inductive Execution
  /-- `loop`, without the lock of a process. -/
  | scheduler
  /-- `loop`, with the lock of the process. -/
  | locked (i : Slot)
  /-- The process has been switched to. -/
  | process (i : Slot)
  /-- `loop`, after the process has switched back; its lock is still held. -/
  | back (i : Slot)
  deriving DecidableEq

structure Cpu where
  runningProcess : Option Slot
  execution : Execution
  deriving DecidableEq

/-- The call from which a process switches to the scheduler. `forkReturn` is
where a new process starts. -/
inductive Reason
  | yield
  | sleep (channel : Channel)
  | sleepWithLock (channel : Channel)
  | exit
  | forkReturn
  deriving DecidableEq

/-- Where a process is on the way to the scheduler and back. -/
inductive Stage
  /-- It does not hold its own lock. -/
  | running
  /-- In `sleepWithLock`, with its own lock and the lock it was called with. -/
  | sleepLocked (channel : Channel)
  /-- In `sleepWithLock`, with its own lock only. -/
  | sleepReleased (channel : Channel)
  /-- The new state is stored, and `switchContext` is next. -/
  | switching (r : Reason)
  /-- Its context is saved; after it is switched to, it still has to release its lock. -/
  | switched (r : Reason)
  deriving DecidableEq

inductive Phase
  | code
  /-- `sleepWithLock` is about to take its lock again. -/
  | relock (channel : Channel)
  /-- The loop of `wakeup` is at slot `k`. -/
  | waking (channel : Channel) (k : ℕ)
  /-- `init` has failed and released the lock, and is about to call `free`. -/
  | allocFailed (child : Slot)
  | forked (child : Slot)
  | parented (child : Slot)
  deriving DecidableEq

/-- Code that calls `wakeup`: of a process, or of a handler that interrupts a CPU. -/
inductive Agent (κ : Type*)
  | process (p : Slot)
  | handler (c : κ)
  deriving DecidableEq

variable {κ : Type*}

structure State (κ : Type*) where
  table : Slot → Process
  nextProcessId : ℕ
  /-- The CPU that holds the lock of the process. -/
  lock : Slot → Option κ
  cpu : κ → Cpu
  /-- A handler has interrupted the CPU. -/
  handler : κ → Bool
  stage : Slot → Stage
  phase : Agent κ → Phase

inductive Event (κ : Type*)
  /-- `loop` takes the lock of the process. -/
  | lockNext (c : κ) (i : Slot)
  /-- `loop` looks at the state of the process it has locked. -/
  | test (c : κ) (i : Slot)
  /-- The rest of the turn of `loop` after the process has come back. -/
  | back (c : κ) (i : Slot)
  /-- `switchContext` to the scheduler. -/
  | switchToScheduler (c : κ) (p : Slot) (r : Reason)
  /-- After it is switched to, the process runs on to the release of its lock. -/
  | resumed (c : κ) (p : Slot) (r : Reason)
  | yield (c : κ) (p : Slot)
  | sleep (c : κ) (p : Slot) (channel : Channel)
  | sleepWithLock (c : κ) (p : Slot) (channel : Channel)
  | releaseLock (c : κ) (p : Slot) (channel : Channel)
  | putProcessToSleep (c : κ) (p : Slot) (channel : Channel)
  | acquireLock (c : κ) (p : Slot) (channel : Channel)
  | exit (c : κ) (p : Slot) (status : ℤ)
  /-- The first block of `fork`: the memory of the parent gets copied or not. -/
  | fork (c : κ) (p i : Slot) (isCopied : Bool)
  | forkInitFails (c : κ) (p i : Slot)
  | freeFailed (c : κ) (p i : Slot)
  | setParent (c : κ) (p i : Slot)
  | setRunnable (c : κ) (p i : Slot)
  /-- A turn of `reparentChildren`, up to the call of `wakeup`. -/
  | reparent (c : κ) (p i : Slot)
  /-- `wait` finds the zombie. -/
  | reap (c : κ) (p i : Slot)
  /-- A turn of `kill` that finds the pid, or a `setKilled`. -/
  | kill (c : κ) (p i : Slot) (wakes : Bool)
  | startWakeup (c : κ) (a : Agent κ) (channel : Channel)
  | wakeNext (c : κ) (a : Agent κ) (channel : Channel) (k : ℕ)
  | handlerStart (c : κ)
  | handlerEnd (c : κ)

variable [DecidableEq κ]

namespace State

def setProcess (s : State κ) (i : Slot) (e : Process) : State κ :=
  { s with table := Function.update s.table i e }

def setLock (s : State κ) (i : Slot) (o : Option κ) : State κ :=
  { s with lock := Function.update s.lock i o }

def setCpu (s : State κ) (c : κ) (u : Cpu) : State κ :=
  { s with cpu := Function.update s.cpu c u }

def setStage (s : State κ) (i : Slot) (g : Stage) : State κ :=
  { s with stage := Function.update s.stage i g }

def setPhase (s : State κ) (a : Agent κ) (f : Phase) : State κ :=
  { s with phase := Function.update s.phase a f }

/-- The CPU executes the process outside of handlers and without the lock of the process. -/
def Runs (s : State κ) (c : κ) (p : Slot) : Prop :=
  s.handler c = false ∧ (s.cpu c).execution = .process p ∧ s.stage p = .running

instance (s : State κ) (c : κ) (p : Slot) : Decidable (s.Runs c p) :=
  inferInstanceAs (Decidable (_ ∧ _ ∧ _))

/-- The CPU executes the agent. -/
def Acts (s : State κ) (c : κ) : Agent κ → Prop
  | .process p => s.Runs c p
  | .handler d => d = c ∧ s.handler c = true

instance (s : State κ) (c : κ) : (a : Agent κ) → Decidable (s.Acts c a)
  | .process p => inferInstanceAs (Decidable (s.Runs c p))
  | .handler d => inferInstanceAs (Decidable (d = c ∧ s.handler c = true))

/-- Interrupts are on: no process lock is held by what the CPU executes. -/
def Interruptible (s : State κ) (c : κ) : Prop :=
  s.handler c = false ∧ ((s.cpu c).execution = .scheduler ∨ ∃ p, s.Runs c p)

instance (s : State κ) (c : κ) : Decidable (s.Interruptible c) :=
  inferInstanceAs (Decidable (_ ∧ (_ ∨ _)))

/-- The process takes its own lock and stores its new state. -/
def leave (s : State κ) (c : κ) (p : Slot) (e : Process) (r : Reason) : State κ :=
  ((s.setProcess p e).setLock p (some c)).setStage p (.switching r)

/-- `init` of the slot: the new process starts in `forkReturn`. -/
def startInit (s : State κ) (i : Slot) : State κ :=
  { s.setProcess i { s.table i with state := .used, pid := s.nextProcessId } with
    nextProcessId := add32 s.nextProcessId 1 }

end State

/-- What a process clears before it releases its lock. -/
def Reason.tidyUp (e : Process) : Reason → Process
  | .sleep _ | .sleepWithLock _ => { e with sleepingChannel := none }
  | _ => e

/-- Where a process is once it has released its lock. -/
def Reason.next (f : Phase) : Reason → Phase
  | .sleepWithLock channel => .relock channel
  | .forkReturn => .code
  | _ => f

/-- `putProcessToSleep`, up to the switch. -/
def asleep (e : Process) (channel : Channel) : Process :=
  { e with sleepingChannel := some channel, state := .sleeping }

/-- A turn of the loop of `wakeup`, under the lock of the process. -/
def wake (e : Process) (channel : Channel) : Process :=
  if e.state = .sleeping ∧ e.sleepingChannel = some channel then { e with state := .runnable }
  else e

/-- What `kill` does to the process it finds; `setKilled` does not wake it. -/
def killed (e : Process) (wakes : Bool) : Process :=
  { e with isKilled := true, state := if wakes ∧ e.state = .sleeping then .runnable else e.state }

section
variable (initialProcess : Slot)

def step (s : State κ) : Event κ → Option (State κ)
  | .lockNext c i =>
    if s.handler c = false ∧ (s.cpu c).execution = .scheduler ∧ s.lock i = none then
      some ((s.setLock i (some c)).setCpu c { s.cpu c with execution := .locked i })
    else none
  | .test c i =>
    if (s.cpu c).execution = .locked i then
      if (s.table i).state = .runnable then
        some ((s.setProcess i { s.table i with state := .running }).setCpu c ⟨some i, .process i⟩)
      else some ((s.setLock i none).setCpu c { s.cpu c with execution := .scheduler })
    else none
  | .back c i =>
    if (s.cpu c).execution = .back i then
      some ((s.setLock i none).setCpu c ⟨none, .scheduler⟩)
    else none
  | .switchToScheduler c p r =>
    if (s.cpu c).execution = .process p ∧ s.stage p = .switching r then
      some ((s.setStage p (.switched r)).setCpu c { s.cpu c with execution := .back p })
    else none
  | .resumed c p r =>
    if (s.cpu c).execution = .process p ∧ s.stage p = .switched r then
      some ((((s.setProcess p (r.tidyUp (s.table p))).setLock p none).setStage p .running).setPhase
        (.process p) (r.next (s.phase (.process p))))
    else none
  | .yield c p =>
    if s.Runs c p ∧ s.lock p = none then
      some (s.leave c p { s.table p with state := .runnable } .yield)
    else none
  | .sleep c p channel =>
    if s.Runs c p ∧ s.phase (.process p) = .code ∧ s.lock p = none then
      some (s.leave c p (asleep (s.table p) channel) (.sleep channel))
    else none
  | .sleepWithLock c p channel =>
    if s.Runs c p ∧ s.phase (.process p) = .code ∧ s.lock p = none then
      some ((s.setLock p (some c)).setStage p (.sleepLocked channel))
    else none
  | .releaseLock c p channel =>
    if (s.cpu c).execution = .process p ∧ s.stage p = .sleepLocked channel then
      some (s.setStage p (.sleepReleased channel))
    else none
  | .putProcessToSleep c p channel =>
    if (s.cpu c).execution = .process p ∧ s.stage p = .sleepReleased channel then
      some ((s.setProcess p (asleep (s.table p) channel)).setStage p
        (.switching (.sleepWithLock channel)))
    else none
  | .acquireLock c p channel =>
    if s.Runs c p ∧ s.phase (.process p) = .relock channel then
      some (s.setPhase (.process p) .code)
    else none
  | .exit c p status =>
    if s.Runs c p ∧ s.phase (.process p) = .code ∧ p ≠ initialProcess ∧ s.lock p = none then
      some (s.leave c p { s.table p with state := .zombie, exitStatus := status } .exit)
    else none
  | .fork c p i isCopied =>
    if s.Runs c p ∧ s.phase (.process p) = .code ∧ s.lock i = none ∧
        (s.table i).state = .unused then
      let s' := (s.startInit i).setStage i (.switched .forkReturn)
      if isCopied then some (s'.setPhase (.process p) (.forked i))
      else some (s'.setProcess i .freed)
    else none
  | .forkInitFails c p i =>
    if s.Runs c p ∧ s.phase (.process p) = .code ∧ s.lock i = none ∧
        (s.table i).state = .unused then
      some ((s.startInit i).setPhase (.process p) (.allocFailed i))
    else none
  | .freeFailed c p i =>
    if s.Runs c p ∧ s.phase (.process p) = .allocFailed i then
      some ((s.setProcess i .freed).setPhase (.process p) .code)
    else none
  | .setParent c p i =>
    if s.Runs c p ∧ s.phase (.process p) = .forked i then
      some ((s.setProcess i { s.table i with parentProcess := some p }).setPhase (.process p)
        (.parented i))
    else none
  | .setRunnable c p i =>
    if s.Runs c p ∧ s.phase (.process p) = .parented i ∧ s.lock i = none then
      some ((s.setProcess i { s.table i with state := .runnable }).setPhase (.process p) .code)
    else none
  | .reparent c p i =>
    if s.Runs c p ∧ s.phase (.process p) = .code ∧ (s.table i).parentProcess = some p then
      some (s.setProcess i { s.table i with parentProcess := some initialProcess })
    else none
  | .reap c p i =>
    if s.Runs c p ∧ s.phase (.process p) = .code ∧ (s.table i).parentProcess = some p ∧
        s.lock i = none ∧ (s.table i).state = .zombie then
      some (s.setProcess i .freed)
    else none
  | .kill c p i wakes =>
    if s.Runs c p ∧ s.phase (.process p) = .code ∧ s.lock i = none then
      some (s.setProcess i (killed (s.table i) wakes))
    else none
  | .startWakeup c a channel =>
    if s.Acts c a ∧ s.phase a = .code then some (s.setPhase a (.waking channel 0)) else none
  | .wakeNext c a channel k =>
    if s.Acts c a ∧ s.phase a = .waking channel k then
      if h : k < nProc then
        if (s.cpu c).runningProcess = some ⟨k, h⟩ then
          some (s.setPhase a (.waking channel (k + 1)))
        else if s.lock ⟨k, h⟩ = none then
          some ((s.setProcess ⟨k, h⟩ (wake (s.table ⟨k, h⟩) channel)).setPhase a
            (.waking channel (k + 1)))
        else none
      else some (s.setPhase a .code)
    else none
  | .handlerStart c =>
    if s.Interruptible c then
      some { s with handler := Function.update s.handler c true }
    else none
  | .handlerEnd c =>
    if s.handler c = true ∧ s.phase (.handler c) = .code then
      some { s with handler := Function.update s.handler c false }
    else none

/-- After `initFirstUser`, with every CPU at the start of `loop`. -/
structure Initial (s : State κ) : Prop where
  init : (s.table initialProcess).state = .runnable
  others : ∀ i, i ≠ initialProcess → s.table i = .freed
  stage : ∀ i, s.stage i = .switched .forkReturn
  lock : ∀ i, s.lock i = none
  cpu : ∀ c, s.cpu c = ⟨none, .scheduler⟩
  handler : ∀ c, s.handler c = false
  phase : ∀ a, s.phase a = .code

end

end Zigmaos.Scheduler
