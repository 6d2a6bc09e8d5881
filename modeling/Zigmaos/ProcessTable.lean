import Zigmaos.DiskBlock
import Zigmaos.Transition
import Mathlib.Logic.Function.Basic
import Mathlib.Data.Fintype.Basic

/-!
# The process table: fork, exit, wait and kill

Processes and the schedulers of all CPUs work on the table at once. A step is a
turn of a loop, or a stretch under one process lock or `waitLock`; the two
locks that are held for longer, `waitLock` and the lock that a process hands
over to the scheduler, are part of the state. Beside the table, every process
that is ever allocated gets a number of its own, under which its history is kept.
-/
namespace Zigmaos.ProcessTable

abbrev nProc : ℕ := 64

abbrev Slot := Fin nProc

inductive ProcessState
  | unused | used | sleeping | runnable | running | zombie
  deriving DecidableEq

/-- What `sleep` is called with: a process, for `wait`, or anything else. -/
inductive Channel
  | process (p : Slot)
  | other (address : ℕ)
  deriving DecidableEq

structure Process where
  state : ProcessState
  sleepingChannel : Option Channel
  isKilled : Bool
  exitStatus : ℤ
  pid : ℕ
  parentProcess : Option Slot
  deriving DecidableEq

/-- The fields that `free` resets. -/
def Process.freed : Process := ⟨.unused, none, false, 0, 0, none⟩

/-- Where a process is inside the functions of `process.zig`. -/
inductive Phase
  | user
  /-- `init` has failed and released the lock, and is about to call `free`. -/
  | allocFailed (child : Slot)
  | forked (child : Slot) (pid : ℕ)
  | parented (child : Slot) (pid : ℕ)
  /-- `reparentChildren` is about to look at slot `k`. -/
  | reparenting (status : ℤ) (k : ℕ)
  /-- It has given the child in slot `k` to init; `wakeup` is at slot `j`. -/
  | wakingInit (status : ℤ) (k j : ℕ)
  | wakingParent (status : ℤ) (j : ℕ)
  | dying (status : ℤ)
  | dead
  /-- The scan of `wait` is at slot `k`; `copy` is whether a status is asked for. -/
  | scanning (copy haveKids : Bool) (k : ℕ)
  | asleep (copy : Bool)
  /-- `sleepWithLock` is about to take `waitLock` again. -/
  | relock (copy : Bool)
  | killing (pid k : ℕ)
  deriving DecidableEq

def Phase.holdsWaitLock : Phase → Bool
  | .reparenting _ _ | .wakingInit _ _ _ | .wakingParent _ _ | .dying _ | .scanning _ _ _ => true
  | _ => false

inductive ProcessError
  | couldNotAllocateProcess | outOfMemory | copyOutFailed | doesNotHaveChildren | processIsKilled
  | pidNotFound
  deriving DecidableEq

/-- What a call returned: for `wait` the pid and the status it copied out. -/
inductive Result
  | none
  | forked (pid : ℕ)
  | waited (pid : ℕ) (status : ℤ)
  | killed
  | error (e : ProcessError)
  deriving DecidableEq

/-- A successful `wait`, by the numbers of the two processes. -/
structure Reap where
  waiter : ℕ
  child : ℕ
  pid : ℕ
  status : ℤ
  deriving DecidableEq

structure State where
  table : Slot → Process
  nextProcessId : ℕ
  waitLock : Option Slot
  /-- The lock of the process is held across a switch to or from the scheduler. -/
  locked : Slot → Bool
  /-- Some CPU runs on the kernel stack of the process. -/
  onStack : Slot → Bool
  phase : Slot → Phase
  result : Slot → Result
  /-- The number of the process in a slot, and the next number. -/
  life : Slot → ℕ
  lives : ℕ
  /-- By number: who forked the process, the pid that fork returned, what it
  passed to exit. -/
  forker : ℕ → ℕ
  forkPid : ℕ → Option ℕ
  exitStatus : ℕ → Option ℤ
  reaped : List Reap

namespace State

def setProcess (s : State) (i : Slot) (e : Process) : State :=
  { s with table := Function.update s.table i e }

def setPhase (s : State) (p : Slot) (f : Phase) : State :=
  { s with phase := Function.update s.phase p f }

def setLocked (s : State) (i : Slot) (b : Bool) : State :=
  { s with locked := Function.update s.locked i b }

def setOnStack (s : State) (i : Slot) (b : Bool) : State :=
  { s with onStack := Function.update s.onStack i b }

/-- Return from a call to user code. -/
def finish (s : State) (p : Slot) (r : Result) : State :=
  { s.setPhase p .user with result := Function.update s.result p r }

/-- The process runs, and does not hold its own lock. -/
def Active (s : State) (p : Slot) : Prop := (s.table p).state = .running ∧ s.locked p = false

instance (s : State) (p : Slot) : Decidable (s.Active p) :=
  inferInstanceAs (Decidable (_ ∧ _))

/-- A turn of the loop of `wakeup`, under the lock of the process in the slot. -/
def wake (s : State) (i : Slot) (c : Channel) : State :=
  if (s.table i).state = .sleeping ∧ (s.table i).sleepingChannel = some c then
    s.setProcess i { s.table i with state := .runnable }
  else s

/-- `init` of the slot `i` for a fork of `p`; the context is set to `forkReturn`. -/
def startInit (s : State) (p i : Slot) : State :=
  { (s.setProcess i { s.table i with state := .used, pid := s.nextProcessId }).setPhase i .user with
    nextProcessId := add32 s.nextProcessId 1
    life := Function.update s.life i s.lives
    lives := s.lives + 1
    forker := Function.update s.forker s.lives (s.life p) }

end State

inductive Event
  /-- The loop of the scheduler takes the lock of a runnable process and switches to it. -/
  | schedule (i : Slot)
  /-- After the switch the process releases its lock. -/
  | resume (i : Slot)
  /-- The process, which holds its lock, switches to the scheduler. -/
  | leave (i : Slot)
  | schedulerRelease (i : Slot)
  | yield (p : Slot)
  | sleep (p : Slot) (address : ℕ)
  /-- A turn of a `wakeup` that is called by anything but `exit`. -/
  | wakeup (i : Slot) (address : ℕ)
  /-- `alloc` finds no unused slot. -/
  | forkNoSlot (p : Slot)
  /-- `alloc` finds the slot and `init` fails. -/
  | forkInitFails (p i : Slot)
  /-- The first block of `fork`: the memory of the parent gets copied or not. -/
  | fork (p i : Slot) (isCopied : Bool)
  | exit (p : Slot) (status : ℤ)
  | wait (p : Slot) (copy : Bool)
  | kill (p : Slot) (pid : ℕ)
  | setKilled (p : Slot)
  /-- The next step of the call that `p` is in; `copied` is what `copyOut` says. -/
  | step (p : Slot) (copied : Bool)

section
variable (initialProcess : Slot)

/-- The next step of the call that `p` is in. -/
def proceed (s : State) (p : Slot) (copied : Bool) : Option State :=
  match s.phase p with
  | .user | .dead | .asleep _ => none
  | .allocFailed child =>
    some ((s.setProcess child .freed).finish p (.error .couldNotAllocateProcess))
  | .forked child pid =>
    if s.waitLock = none then
      some ((s.setProcess child { s.table child with parentProcess := some p }).setPhase p
        (.parented child pid))
    else none
  | .parented child pid =>
    if s.locked child = false then
      some { (s.setProcess child { s.table child with state := .runnable }).finish p
          (.forked pid) with
        forkPid := Function.update s.forkPid (s.life child) (some pid) }
    else none
  | .reparenting status k =>
    if h : k < nProc then
      if (s.table ⟨k, h⟩).parentProcess = some p then
        some ((s.setProcess ⟨k, h⟩
          { s.table ⟨k, h⟩ with parentProcess := some initialProcess }).setPhase p
            (.wakingInit status k 0))
      else some (s.setPhase p (.reparenting status (k + 1)))
    else some (s.setPhase p (.wakingParent status 0))
  | .wakingInit status k j =>
    if h : j < nProc then
      if ⟨j, h⟩ = p then some (s.setPhase p (.wakingInit status k (j + 1)))
      else if s.locked ⟨j, h⟩ = false then
        some ((s.wake ⟨j, h⟩ (.process initialProcess)).setPhase p
          (.wakingInit status k (j + 1)))
      else none
    else some (s.setPhase p (.reparenting status (k + 1)))
  | .wakingParent status j =>
    match (s.table p).parentProcess with
    | none => none
    | some parent =>
      if h : j < nProc then
        if ⟨j, h⟩ = p then some (s.setPhase p (.wakingParent status (j + 1)))
        else if s.locked ⟨j, h⟩ = false then
          some ((s.wake ⟨j, h⟩ (.process parent)).setPhase p (.wakingParent status (j + 1)))
        else none
      else some (s.setPhase p (.dying status))
  | .dying status =>
    some { ((s.setProcess p { s.table p with state := .zombie, exitStatus := status }).setLocked p
        true).setPhase p .dead with
      waitLock := none
      exitStatus := Function.update s.exitStatus (s.life p) (some status) }
  | .scanning copy haveKids k =>
    if h : k < nProc then
      let i : Slot := ⟨k, h⟩
      let e := s.table i
      if e.parentProcess ≠ some p then some (s.setPhase p (.scanning copy haveKids (k + 1)))
      else if s.locked i then none
      else if e.state = .zombie then
        if copy && !copied then
          some { s.finish p (.error .copyOutFailed) with waitLock := none }
        else
          some { (s.setProcess i .freed).finish p (.waited e.pid e.exitStatus) with
            waitLock := none
            reaped := ⟨s.life p, s.life i, e.pid, e.exitStatus⟩ :: s.reaped }
      else some (s.setPhase p (.scanning copy true (k + 1)))
    else if haveKids = false then
      some { s.finish p (.error .doesNotHaveChildren) with waitLock := none }
    else if (s.table p).isKilled then
      some { s.finish p (.error .processIsKilled) with waitLock := none }
    else
      some { ((s.setProcess p { s.table p with
          state := .sleeping, sleepingChannel := some (.process p) }).setLocked p true).setPhase p
            (.asleep copy) with
        waitLock := none }
  | .relock copy =>
    if s.waitLock = none then
      some { s.setPhase p (.scanning copy false 0) with waitLock := some p }
    else none
  | .killing pid k =>
    if h : k < nProc then
      if s.locked ⟨k, h⟩ then none
      else if (s.table ⟨k, h⟩).pid = pid then
        let e := s.table ⟨k, h⟩
        some ((s.setProcess ⟨k, h⟩ { e with
          isKilled := true
          state := if e.state = .sleeping then .runnable else e.state }).finish p .killed)
      else some (s.setPhase p (.killing pid (k + 1)))
    else some (s.finish p (.error .pidNotFound))

def step (s : State) : Event → Option State
  | .schedule i =>
    if s.locked i = false ∧ (s.table i).state = .runnable then
      some (((s.setProcess i { s.table i with state := .running }).setLocked i true).setOnStack i
        true)
    else none
  | .resume i =>
    if s.locked i = true ∧ s.onStack i = true ∧ (s.table i).state = .running then
      let s' := (s.setProcess i { s.table i with sleepingChannel := none }).setLocked i false
      match s.phase i with
      | .asleep copy => some (s'.setPhase i (.relock copy))
      | _ => some s'
    else none
  | .leave i =>
    if s.locked i = true ∧ s.onStack i = true ∧ (s.table i).state ≠ .running then
      some (s.setOnStack i false)
    else none
  | .schedulerRelease i =>
    if s.locked i = true ∧ s.onStack i = false then some (s.setLocked i false) else none
  | .yield p =>
    if s.Active p ∧ (s.phase p).holdsWaitLock = false then
      some ((s.setProcess p { s.table p with state := .runnable }).setLocked p true)
    else none
  | .sleep p address =>
    if s.Active p ∧ s.phase p = .user then
      some ((s.setProcess p { s.table p with
        state := .sleeping, sleepingChannel := some (.other address) }).setLocked p true)
    else none
  | .wakeup i address => if s.locked i = false then some (s.wake i (.other address)) else none
  | .forkNoSlot p =>
    if s.Active p ∧ s.phase p = .user then
      some (s.finish p (.error .couldNotAllocateProcess))
    else none
  | .forkInitFails p i =>
    if s.Active p ∧ s.phase p = .user ∧ s.locked i = false ∧ (s.table i).state = .unused then
      some ((s.startInit p i).setPhase p (.allocFailed i))
    else none
  | .fork p i isCopied =>
    if s.Active p ∧ s.phase p = .user ∧ s.locked i = false ∧ (s.table i).state = .unused then
      if isCopied then some ((s.startInit p i).setPhase p (.forked i s.nextProcessId))
      else some (((s.startInit p i).setProcess i .freed).finish p (.error .outOfMemory))
    else none
  | .exit p status =>
    if s.Active p ∧ s.phase p = .user ∧ p ≠ initialProcess ∧ s.waitLock = none then
      some { s.setPhase p (.reparenting status 0) with waitLock := some p }
    else none
  | .wait p copy =>
    if s.Active p ∧ s.phase p = .user ∧ s.waitLock = none then
      some { s.setPhase p (.scanning copy false 0) with waitLock := some p }
    else none
  | .kill p pid =>
    if s.Active p ∧ s.phase p = .user then some (s.setPhase p (.killing pid 0)) else none
  | .setKilled p =>
    if s.Active p ∧ s.phase p = .user then
      some (s.setProcess p { s.table p with isKilled := true })
    else none
  | .step p copied => if s.Active p then proceed initialProcess s p copied else none

/-- After `initFirstUser`. -/
structure Initial (s : State) : Prop where
  init : (s.table initialProcess).state = .runnable ∧
    (s.table initialProcess).parentProcess = none
  others : ∀ i, i ≠ initialProcess → s.table i = .freed
  waitLock : s.waitLock = none
  locked : ∀ i, s.locked i = false
  onStack : ∀ i, s.onStack i = false
  phase : ∀ i, s.phase i = .user
  life : s.life initialProcess = 0 ∧ s.lives = 1
  forkPid : ∀ x, s.forkPid x = none
  exitStatus : ∀ x, s.exitStatus x = none
  reaped : s.reaped = []

end

end Zigmaos.ProcessTable
