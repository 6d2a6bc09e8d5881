import Zigmaos.ProcessTable
import Zigmaos.Typestate
import Mathlib.Data.Fintype.Basic

/-!
# The locks of process slots

The functions of `process.zig` and `scheduler.zig` operation by operation, with the
order of their `defer`s and `errdefer`s. What else they do answers with a choice of
two: the copy of the memory in `fork`, the copy of a status in `wait`. A CPU
executes its scheduler or the thread of a process, or a handler on top of either;
the code that is under way is a stack. The locks that a function is called with,
`waitLock` among them, are left out.

A context is switched to where it has been saved, and a slot is set up where no CPU
executes it: what `loop` and `alloc` test for this is the subject of
`SchedulerSafety`.
-/
namespace Zigmaos.SlotLocks
open ProcessTable (Slot Process ProcessState Channel)
open Program

/-- A store to a field of a slot that its lock protects. -/
inductive Write
  | state (x : ProcessState)
  | pid (n : ℕ)
  | isKilled (b : Bool)
  | exitStatus (n : ℤ)
  | sleepingChannel (o : Option Channel)

def Write.apply (e : Process) : Write → Process
  | .state x => { e with state := x }
  | .pid n => { e with pid := n }
  | .isKilled b => { e with isKilled := b }
  | .exitStatus n => { e with exitStatus := n }
  | .sleepingChannel o => { e with sleepingChannel := o }

inductive Op
  | acquire (i : Slot)
  | release (i : Slot)
  | look (i : Slot)
  | write (i : Slot) (w : Write)
  | setParent (i : Slot) (p : Option Slot)
  | allocProcessId
  | allocPage
  /-- The outcome of something else. -/
  | other
  | setContext (i : Slot)
  | enterFree (i : Slot)
  | allocReturns (r : Option Slot)
  | switchToScheduler (p : Slot)
  | switchTo (i : Slot)
  | panic

abbrev Result : Op → Type
  | .look _ => Process
  | .allocProcessId => ℕ
  | .allocPage => Bool
  | .other => Bool
  | _ => Unit

def Ops : Interface := ⟨Op, Result⟩

abbrev Prog := Program Ops

/-- Call an operation. -/
def invoke (o : Op) : Prog (Result o) := op (F := Ops) o

def allocPage : Prog Bool := invoke .allocPage

def other : Prog Bool := invoke .other

/-! ## The functions -/

def free (i : Slot) : Prog Unit := do
  invoke (.enterFree i)
  invoke (.write i (.pid 0))
  invoke (.setParent i none)
  invoke (.write i (.sleepingChannel none))
  invoke (.write i (.isKilled false))
  invoke (.write i (.exitStatus 0))
  invoke (.write i (.state .unused))

/-- The `errdefer`s of `init`, the last one first. -/
def initFails (i : Slot) : Prog Bool := do
  invoke (.release i)
  free i
  return false

/-- The first allocation is that of the trap frame, the second that of the page table. -/
def init (i : Slot) : Prog Bool := do
  let pid ← invoke .allocProcessId
  invoke (.write i (.pid pid))
  invoke (.write i (.state .used))
  if ← allocPage then
    if ← allocPage then
      invoke (.setContext i)
      return true
    else initFails i
  else initFails i

/-- The loop of `alloc`. -/
def allocFrom : List Slot → Prog (Option Slot)
  | [] => do
    invoke (.allocReturns none)
    return none
  | i :: is => do
    invoke (.acquire i)
    let e ← invoke (.look i)
    if e.state = .unused then
      if ← init i then
        invoke (.allocReturns (some i))
        return some i
      else
        invoke (.allocReturns none)
        return none
    else
      invoke (.release i)
      allocFrom is

def allSlots : List Slot := List.finRange ProcessTable.nProc

def alloc : Prog (Option Slot) := allocFrom allSlots

def fork (p : Slot) : Prog Unit := do
  match ← alloc with
  | none => return
  | some i =>
    if ← other then
      let _ ← invoke (.look i)
      invoke (.release i)
      invoke (.setParent i (some p))
      invoke (.acquire i)
      invoke (.write i (.state .runnable))
      invoke (.release i)
    else
      -- The `errdefer` comes before the `defer`.
      free i
      invoke (.release i)

/-- The loop of `wakeup`; `current` is the process that the CPU runs. -/
def wakeupFrom (current : Option Slot) (channel : Channel) : List Slot → Prog Unit
  | [] => return
  | i :: is => do
    if current = some i then wakeupFrom current channel is
    else
      invoke (.acquire i)
      let e ← invoke (.look i)
      when (e.state = .sleeping ∧ e.sleepingChannel = some channel)
        (invoke (.write i (.state .runnable)))
      invoke (.release i)
      wakeupFrom current channel is

def wakeup (current : Option Slot) (channel : Channel) : Prog Unit :=
  wakeupFrom current channel allSlots

/-- The loop of `reparentChildren`. -/
def reparentFrom (initialProcess p : Slot) : List Slot → Prog Unit
  | [] => return
  | i :: is => do
    let e ← invoke (.look i)
    when (e.parentProcess = some p) do
      invoke (.setParent i (some initialProcess))
      wakeup (some p) (.process initialProcess)
    reparentFrom initialProcess p is

def exit (initialProcess p : Slot) (status : ℤ) : Prog Unit := do
  if p = initialProcess then invoke .panic
  else
    reparentFrom initialProcess p allSlots
    let e ← invoke (.look p)
    match e.parentProcess with
    | none => invoke .panic
    | some parent =>
      wakeup (some p) (.process parent)
      invoke (.acquire p)
      invoke (.write p (.exitStatus status))
      invoke (.write p (.state .zombie))
      invoke (.switchToScheduler p)
      invoke .panic

/-- `putProcessToSleep`, under the lock of the process. -/
def putProcessToSleep (channel : Channel) (p : Slot) : Prog Unit := do
  invoke (.write p (.sleepingChannel (some channel)))
  invoke (.write p (.state .sleeping))
  invoke (.switchToScheduler p)
  invoke (.write p (.sleepingChannel none))

/-- `sleep`, and `sleepWithLock` but for the lock that it is called with. -/
def sleep (p : Slot) (channel : Channel) : Prog Unit := do
  invoke (.acquire p)
  putProcessToSleep channel p
  invoke (.release p)

def yield (p : Slot) : Prog Unit := do
  invoke (.acquire p)
  invoke (.write p (.state .runnable))
  invoke (.switchToScheduler p)
  invoke (.release p)

def isKilled (i : Slot) : Prog Bool := do
  invoke (.acquire i)
  let e ← invoke (.look i)
  invoke (.release i)
  return e.isKilled

def setKilled (i : Slot) : Prog Unit := do
  invoke (.acquire i)
  invoke (.write i (.isKilled true))
  invoke (.release i)

/-- One turn of the outer loop of `wait`; without a child that has exited it sleeps. -/
def waitFrom (p : Slot) (haveKids : Bool) : List Slot → Prog Unit
  | [] => do
    if haveKids then
      if ← isKilled p then return else sleep p (.process p)
    else return
  | i :: is => do
    let e ← invoke (.look i)
    if e.parentProcess = some p then
      invoke (.acquire i)
      let e ← invoke (.look i)
      if e.state = .zombie then
        -- The status may be copied out, and that may fail.
        if ← other then
          let _ ← invoke (.look i)
          free i
          invoke (.release i)
        else invoke (.release i)
      else
        invoke (.release i)
        waitFrom p true is
    else waitFrom p haveKids is

def wait (p : Slot) : Prog Unit := waitFrom p false allSlots

/-- The loop of `kill`. -/
def killFrom (targetPid : ℕ) : List Slot → Prog Unit
  | [] => return
  | i :: is => do
    invoke (.acquire i)
    let e ← invoke (.look i)
    if e.pid = targetPid then
      invoke (.write i (.isKilled true))
      when (e.state = .sleeping) (invoke (.write i (.state .runnable)))
      invoke (.release i)
    else
      invoke (.release i)
      killFrom targetPid is

def kill (targetPid : ℕ) : Prog Unit := killFrom targetPid allSlots

/-- A turn of the outer loop of `loop`. -/
def loopFrom : List Slot → Prog Unit
  | [] => return
  | i :: is => do
    invoke (.acquire i)
    let e ← invoke (.look i)
    when (e.state = .runnable) do
      invoke (.write i (.state .running))
      invoke (.switchTo i)
    invoke (.release i)
    loopFrom is

def loop : Prog Unit := loopFrom allSlots

def forkReturn (i : Slot) : Prog Unit := invoke (.release i)

/-! ## What a function holds -/

/-- The locks that have to be held for an operation. -/
def needs (held : Finset Slot) : Op → Prop
  | .acquire i => i ∉ held
  | .release i | .write i _ | .enterFree i | .setContext i => i ∈ held
  | .allocReturns (some i) => held = {i}
  | .allocReturns none => held = ∅
  | .switchToScheduler i | .switchTo i => held = {i}
  | _ => True

/-- The locks that are held after it. -/
def after (held : Finset Slot) : Op → Finset Slot
  | .acquire i => insert i held
  | .release i => held.erase i
  | _ => held

/-- What comes back from an operation, as long as there are pages. -/
def answers : (o : Op) → Result o → Prop
  | .allocPage, r => r = true
  | .panic, _ => False
  | _, _ => True

/-- What is known of a context are the locks that it holds. -/
def locks : Typestate Ops (Finset Slot) where
  fact _ := True
  pre o held := needs held o
  post o held r held' := answers o r ∧ held' = after held o

abbrev Safe {α : Type} (p : Prog α) (held : Finset Slot) (Q : α → Finset Slot → Prop) : Prop :=
  locks.Safe p held Q

variable {held : Finset Slot} {i p : Slot} {α β : Type}

theorem safe_done {a : α} {Q : α → Finset Slot → Prop} (h : Q a held) :
    Safe (.done a) held Q := fun _ => h

theorem safe_invoke {o : Op} {k : Result o → Prog α} {Q : α → Finset Slot → Prop}
    (hneeds : needs held o) (h : ∀ r, answers o r → Safe (k r) (after held o) Q) :
    Safe (invoke o >>= k) held Q := by
  refine Typestate.safe_call (fun _ => hneeds) fun _ r held' hpost => ?_
  obtain ⟨hr, rfl⟩ := hpost
  exact h r hr

theorem safe_last {o : Op} {Q : Result o → Finset Slot → Prop}
    (hneeds : needs held o) (h : ∀ r, answers o r → Q r (after held o)) :
    Safe (invoke o) held Q := by
  refine Typestate.safe_op (fun _ => hneeds) fun _ r held' hpost _ => ?_
  obtain ⟨hr, rfl⟩ := hpost
  exact h r hr

/-- What is stored under a lock leaves the locks as they are. -/
theorem safe_write {w : Write} {k : Unit → Prog α} {Q : α → Finset Slot → Prop} (hi : i ∈ held)
    (h : Safe (k ()) held Q) : Safe (invoke (.write i w) >>= k) held Q :=
  safe_invoke hi fun _ _ => h

theorem safe_acquire {k : Unit → Prog α} {Q : α → Finset Slot → Prop}
    (h : Safe (k ()) {i} Q) : Safe (invoke (.acquire i) >>= k) ∅ Q := by
  refine safe_invoke (Finset.notMem_empty i) fun _ _ => ?_
  rwa [after, insert_empty_eq]

theorem safe_release {k : Unit → Prog α} {Q : α → Finset Slot → Prop}
    (h : Safe (k ()) ∅ Q) : Safe (invoke (.release i) >>= k) {i} Q := by
  refine safe_invoke (Finset.mem_singleton_self i) fun _ _ => ?_
  rwa [after, Finset.erase_singleton]

theorem safe_releaseLast {Q : Unit → Finset Slot → Prop} (h : Q () ∅) :
    Safe (invoke (.release i)) {i} Q := by
  refine safe_last (Finset.mem_singleton_self i) fun _ _ => ?_
  rwa [after, Finset.erase_singleton]

/-- What a program holds at its end. -/
def Ends (p : Prog α) (held held' : Finset Slot) : Prop := Safe p held fun _ h => h = held'

theorem Ends.bind {q : Prog α} {f : α → Prog β} {held' : Finset Slot} {Q : β → Finset Slot → Prop}
    (h : Ends q held held') (hf : ∀ a, Safe (f a) held' Q) : Safe (q >>= f) held Q :=
  Typestate.Safe.bind h fun a _ hh => hh ▸ hf a

theorem free_ends (hi : i ∈ held) : Ends (free i) held held := by
  refine safe_invoke hi fun _ _ => ?_
  refine safe_write hi ?_
  refine safe_invoke trivial fun _ _ => ?_
  refine safe_write hi (safe_write hi (safe_write hi ?_))
  exact safe_last hi fun _ _ => rfl

/-- With pages for it, `init` does not fail, and the lock is still held. -/
theorem init_safe : Safe (init i) {i} fun r held' => r = true ∧ held' = {i} := by
  have hi : i ∈ ({i} : Finset Slot) := Finset.mem_singleton_self i
  refine safe_invoke trivial fun _ _ => ?_
  refine safe_write hi (safe_write hi ?_)
  refine safe_invoke trivial fun r hr => ?_
  obtain rfl : r = true := hr
  refine safe_invoke trivial fun r hr => ?_
  obtain rfl : r = true := hr
  exact safe_invoke hi fun _ _ => safe_done ⟨rfl, rfl⟩

/-- A slot comes with its lock held, and no slot with none. -/
theorem allocFrom_safe (l : List Slot) :
    Safe (allocFrom l) ∅ fun r held' => held' = r.elim ∅ fun i => {i} := by
  induction l with
  | nil => exact safe_invoke rfl fun _ _ => safe_done rfl
  | cons i is ih =>
    refine safe_acquire (safe_invoke trivial fun e _ => ?_)
    by_cases hunused : e.state = .unused
    · simp only [hunused, if_true]
      refine Typestate.Safe.bind init_safe fun r held' hr => ?_
      obtain ⟨rfl, rfl⟩ := hr
      exact safe_invoke rfl fun _ _ => safe_done rfl
    · simp only [hunused, if_false]
      exact safe_release ih

theorem fork_ends (p : Slot) : Ends (fork p) ∅ ∅ := by
  refine Typestate.Safe.bind (allocFrom_safe allSlots) fun r held' hr => ?_
  subst hr
  cases r with
  | none => exact safe_done rfl
  | some i =>
    have hi : i ∈ ({i} : Finset Slot) := Finset.mem_singleton_self i
    refine safe_invoke trivial fun copied _ => ?_
    cases copied with
    | false => exact (free_ends hi).bind fun _ => safe_releaseLast rfl
    | true =>
      refine safe_invoke trivial fun _ _ => safe_release ?_
      refine safe_invoke trivial fun _ _ => safe_acquire (safe_write hi ?_)
      exact safe_releaseLast rfl

theorem when_ends {c : Prop} [Decidable c] {q : Prog Unit} (h : Ends q held held) :
    Ends (when c q) held held := Typestate.safe_when (fun _ => h) fun _ _ => rfl

theorem write_ends {w : Write} (hi : i ∈ held) : Ends (invoke (.write i w)) held held :=
  safe_last hi fun _ _ => rfl

theorem wakeupFrom_ends (current : Option Slot) (channel : Channel) (l : List Slot) :
    Ends (wakeupFrom current channel l) ∅ ∅ := by
  induction l with
  | nil => exact safe_done rfl
  | cons i is ih =>
    rw [wakeupFrom]
    split
    · exact ih
    · refine safe_acquire (safe_invoke trivial fun e _ => ?_)
      refine (when_ends (write_ends (Finset.mem_singleton_self i))).bind fun _ => ?_
      exact safe_release ih

theorem reparentFrom_ends (initialProcess p : Slot) (l : List Slot) :
    Ends (reparentFrom initialProcess p l) ∅ ∅ := by
  induction l with
  | nil => exact safe_done rfl
  | cons i is ih =>
    refine safe_invoke trivial fun e _ => ?_
    refine (when_ends ?_).bind fun _ => ih
    exact safe_invoke trivial fun _ _ => wakeupFrom_ends ..

theorem panic_safe {Q : Unit → Finset Slot → Prop} : Safe (invoke .panic) held Q :=
  safe_last trivial fun _ h => h.elim

theorem exit_ends (initialProcess p : Slot) (status : ℤ) :
    Ends (exit initialProcess p status) ∅ ∅ := by
  rw [exit]
  split
  · exact panic_safe
  refine (reparentFrom_ends ..).bind fun _ => safe_invoke trivial fun e _ => ?_
  split
  · exact panic_safe
  next parent _ =>
    have hp : p ∈ ({p} : Finset Slot) := Finset.mem_singleton_self p
    refine (wakeupFrom_ends ..).bind fun _ => safe_acquire (safe_write hp (safe_write hp ?_))
    exact safe_invoke rfl fun _ _ => panic_safe

theorem putProcessToSleep_ends (channel : Channel) (p : Slot) :
    Ends (putProcessToSleep channel p) {p} {p} := by
  have hp : p ∈ ({p} : Finset Slot) := Finset.mem_singleton_self p
  refine safe_write hp (safe_write hp ?_)
  exact safe_invoke rfl fun _ _ => write_ends hp

theorem sleep_ends (p : Slot) (channel : Channel) : Ends (sleep p channel) ∅ ∅ := by
  refine safe_acquire ?_
  exact (putProcessToSleep_ends channel p).bind fun _ => safe_releaseLast rfl

theorem yield_ends (p : Slot) : Ends (yield p) ∅ ∅ := by
  refine safe_acquire (safe_write (Finset.mem_singleton_self p) ?_)
  exact safe_invoke rfl fun _ _ => safe_releaseLast rfl

theorem isKilled_ends (i : Slot) : Ends (isKilled i) ∅ ∅ := by
  refine safe_acquire (safe_invoke trivial fun _ _ => ?_)
  exact safe_release (safe_done rfl)

theorem setKilled_ends (i : Slot) : Ends (setKilled i) ∅ ∅ := by
  refine safe_acquire (safe_write (Finset.mem_singleton_self i) ?_)
  exact safe_releaseLast rfl

theorem waitFrom_ends (p : Slot) (haveKids : Bool) (l : List Slot) :
    Ends (waitFrom p haveKids l) ∅ ∅ := by
  induction l generalizing haveKids with
  | nil =>
    rw [waitFrom]
    split
    · refine (isKilled_ends p).bind fun killed => ?_
      cases killed with
      | false => exact sleep_ends p _
      | true => exact safe_done rfl
    · exact safe_done rfl
  | cons i is ih =>
    refine safe_invoke trivial fun e _ => ?_
    split
    · refine safe_acquire (safe_invoke trivial fun e _ => ?_)
      split
      · refine safe_invoke trivial fun copied _ => ?_
        cases copied with
        | false => exact safe_releaseLast rfl
        | true =>
          refine safe_invoke trivial fun _ _ => ?_
          exact (free_ends (Finset.mem_singleton_self i)).bind fun _ => safe_releaseLast rfl
      · exact safe_release (ih true)
    · exact ih haveKids

theorem killFrom_ends (targetPid : ℕ) (l : List Slot) : Ends (killFrom targetPid l) ∅ ∅ := by
  induction l with
  | nil => exact safe_done rfl
  | cons i is ih =>
    have hi : i ∈ ({i} : Finset Slot) := Finset.mem_singleton_self i
    refine safe_acquire (safe_invoke trivial fun e _ => ?_)
    split
    · exact safe_write hi ((when_ends (write_ends hi)).bind fun _ => safe_releaseLast rfl)
    · exact safe_release ih

theorem loopFrom_ends (l : List Slot) : Ends (loopFrom l) ∅ ∅ := by
  induction l with
  | nil => exact safe_done rfl
  | cons i is ih =>
    refine safe_acquire (safe_invoke trivial fun e _ => ?_)
    refine (when_ends ?_).bind fun _ => safe_release ih
    exact safe_write (Finset.mem_singleton_self i) (safe_last rfl fun _ _ => rfl)

theorem forkReturn_ends (i : Slot) : Ends (forkReturn i) {i} ∅ := safe_releaseLast rfl

/-! ## The machine -/

inductive Context (κ : Type)
  | scheduler (c : κ)
  | thread (i : Slot)
  deriving DecidableEq

/-- Whether the thread of a slot is executed, or saved. -/
inductive Status
  | idle | away | executing
  deriving DecidableEq

structure State (κ : Type) where
  table : Slot → Process
  nextProcessId : ℕ
  /-- The CPU that holds the lock of the slot. -/
  lock : Slot → Option κ
  runs : κ → Context κ
  status : Slot → Status
  /-- The innermost handler first. -/
  code : Context κ → List (Prog Unit)

/-- What the code of a process calls, or a handler that interrupts it. -/
inductive Call
  | fork
  | exit (status : ℤ)
  | wait
  | kill (targetPid : ℕ)
  | setKilled (i : Slot)
  | isKilled (i : Slot)
  | sleep (channel : Channel)
  | wakeup (channel : Channel)
  | yield

inductive Event (κ : Type)
  | call (c : κ) (f : Call)
  /-- A turn of the outer loop of `loop`. -/
  | loop (c : κ)
  | step (c : κ) (answer : Bool)

variable {κ : Type}

section
variable (initialProcess : Slot)

/-- The process that the CPU runs, if any, makes the call. -/
def program : Context κ → Call → Option (Prog Unit)
  | .thread p, .fork => some (fork p)
  | .thread p, .exit status => some (exit initialProcess p status)
  | .thread p, .wait => some (wait p)
  | .thread _, .kill targetPid => some (kill targetPid)
  | .thread _, .setKilled i => some (setKilled i)
  | .thread _, .isKilled i => some do let _ ← isKilled i
  | .thread p, .sleep channel => some (sleep p channel)
  | .thread p, .wakeup channel => some (wakeup (some p) channel)
  | .thread p, .yield => some (yield p)
  | .scheduler _, .wakeup channel => some (wakeup none channel)
  | .scheduler _, _ => none

end

variable [DecidableEq κ]

namespace State

/-- The locks that the CPU holds. -/
def holds (s : State κ) (c : κ) : Finset Slot := Finset.univ.filter fun i => s.lock i = some c

def setCode (s : State κ) (x : Context κ) (stack : List (Prog Unit)) : State κ :=
  { s with code := Function.update s.code x stack }

/-- An operation, if it can go on. -/
def perform (s : State κ) (c : κ) (answer : Bool) : (o : Op) → Option (Result o × State κ)
  | .acquire i =>
    if s.lock i = none then some ((), { s with lock := Function.update s.lock i (some c) }) else none
  | .release i =>
    if s.lock i = some c then some ((), { s with lock := Function.update s.lock i none }) else none
  | .look i => some (s.table i, s)
  | .write i w => some ((), { s with table := Function.update s.table i (w.apply (s.table i)) })
  | .setParent i p =>
    some ((), { s with table := Function.update s.table i { s.table i with parentProcess := p } })
  | .allocProcessId => some (s.nextProcessId, { s with nextProcessId := add32 s.nextProcessId 1 })
  | .allocPage => some (answer, s)
  | .other => some (answer, s)
  | .setContext i =>
    if s.status i = .executing then none
    else
      some ((), { s.setCode (.thread i) [forkReturn i] with
        status := Function.update s.status i .away })
  | .enterFree _ => some ((), s)
  | .allocReturns _ => some ((), s)
  | .switchToScheduler p =>
    if s.runs c = .thread p then
      some ((), { s with
        runs := Function.update s.runs c (.scheduler c)
        status := Function.update s.status p .away })
    else none
  | .switchTo i =>
    if s.runs c = .scheduler c ∧ s.status i = .away then
      some ((), { s with
        runs := Function.update s.runs c (.thread i)
        status := Function.update s.status i .executing })
    else none
  | .panic => none

/-- A call starts where no lock of a slot is held: a handler interrupts no other code. -/
def step (initialProcess : Slot) (s : State κ) : Event κ → Option (State κ)
  | .call c f =>
    if s.holds c = ∅ then
      (program initialProcess (s.runs c) f).map fun q => s.setCode (s.runs c) (q :: s.code (s.runs c))
    else none
  | .loop c =>
    if s.holds c = ∅ ∧ s.runs c = .scheduler c ∧ (s.code (s.runs c)).isEmpty then
      some (s.setCode (s.runs c) [loop])
    else none
  | .step c answer =>
    match s.code (s.runs c) with
    | [] => none
    | .done _ :: rest => some (s.setCode (s.runs c) rest)
    | .call o k :: rest =>
      (s.perform c answer o).map fun r => r.2.setCode (s.runs c) (k r.1 :: rest)

/-- Every CPU is at the start of `loop`, and a thread that is there is at its start. -/
structure Initial (s : State κ) : Prop where
  lock : ∀ i, s.lock i = none
  runs : ∀ c, s.runs c = .scheduler c
  code : ∀ c, s.code (.scheduler c) = []
  status : ∀ i, s.status i ≠ .executing
  away : ∀ i, s.status i = .away → s.code (.thread i) = [forkReturn i]

/-- The operation that the CPU is about to do keeps to the locks. -/
def Guarded (s : State κ) (c : κ) : Op → Prop
  | .write i _ | .enterFree i | .release i => s.lock i = some c
  | .allocReturns (some i) => ∀ j, s.lock j = some c ↔ j = i
  | .allocReturns none => ∀ j, s.lock j ≠ some c
  | _ => True

/-- The CPU is about to do the operation. -/
def Next (s : State κ) (c : κ) (o : Op) : Prop :=
  ∃ k rest, s.code (s.runs c) = .call o k :: rest

/-- The pages that `init` asks for are there. -/
def HasPages (s : State κ) : Event κ → Prop
  | .step c answer => s.Next c .allocPage → answer = true
  | _ => True

end State

/-! ### The invariant -/

/-- From the locks the code on the stack ends with none, and so does what it interrupts. -/
def StackOk (held : Finset Slot) : List (Prog Unit) → Prop
  | [] => held = ∅
  | q :: rest => Ends q held ∅ ∧ ∀ r ∈ rest, Ends r ∅ ∅

structure Inv (s : State κ) : Prop where
  code : ∀ c, StackOk (s.holds c) (s.code (s.runs c))
  away : ∀ i, s.status i = .away → StackOk {i} (s.code (.thread i))
  scheduler : ∀ c i, s.runs c = .thread i → StackOk {i} (s.code (.scheduler c))
  executing : ∀ c i, s.runs c = .thread i → s.status i = .executing
  unique : ∀ c d i, s.runs c = .thread i → s.runs d = .thread i → c = d
  own : ∀ c d, s.runs c = .scheduler d → d = c

variable {s s' : State κ} {c d : κ}

theorem ends_call {o : Op} {k : Result o → Prog Unit} {held' : Finset Slot}
    (h : Ends (.call o k) held held') :
    needs held o ∧ ∀ r, answers o r → Ends (k r) (after held o) held' := by
  obtain ⟨hneeds, hnext⟩ := h trivial
  exact ⟨hneeds, fun r hr => hnext r _ ⟨hr, rfl⟩⟩

theorem StackOk.tail {q : Prog Unit} {rest : List (Prog Unit)} (h : StackOk held (q :: rest))
    (hheld : held = ∅) : StackOk held rest := by
  subst hheld
  cases rest with
  | nil => rfl
  | cons r rest =>
    exact ⟨h.2 r List.mem_cons_self, fun x hx => h.2 x (List.mem_cons_of_mem _ hx)⟩

theorem StackOk.push {q : Prog Unit} {stack : List (Prog Unit)} (h : StackOk held stack)
    (hheld : held = ∅) (hq : Ends q ∅ ∅) : StackOk held (q :: stack) := by
  subst hheld
  refine ⟨hq, fun r hr => ?_⟩
  cases stack with
  | nil => cases hr
  | cons x stack =>
    obtain rfl | hr := List.mem_cons.mp hr
    · exact h.1
    · exact h.2 r hr

omit [DecidableEq κ] in
theorem program_ends {initialProcess : Slot} {x : Context κ} {f : Call} {q : Prog Unit}
    (h : program initialProcess x f = some q) : Ends q ∅ ∅ := by
  cases x with
  | scheduler c =>
    cases f <;> simp only [program, Option.some.injEq, reduceCtorEq] at h
    subst h
    exact wakeupFrom_ends ..
  | thread p =>
    cases f <;> simp only [program, Option.some.injEq] at h <;> subst h
    case fork => exact fork_ends p
    case exit status => exact exit_ends ..
    case wait => exact waitFrom_ends ..
    case kill targetPid => exact killFrom_ends ..
    case setKilled i => exact setKilled_ends i
    case isKilled i => exact (isKilled_ends i).bind fun _ => safe_done rfl
    case sleep channel => exact sleep_ends p channel
    case wakeup channel => exact wakeupFrom_ends ..
    case yield => exact yield_ends p

/-- Two CPUs execute different things. -/
theorem Inv.runs_ne (h : Inv s) (hne : d ≠ c) : s.runs d ≠ s.runs c := by
  intro heq
  cases hd : s.runs d with
  | scheduler e =>
    rw [hd] at heq
    exact hne ((h.own d e hd).symm.trans (h.own c e heq.symm))
  | thread i =>
    rw [hd] at heq
    exact hne (h.unique d c i hd heq.symm)

theorem Inv.initial (h : s.Initial) : Inv s where
  code c := by
    rw [h.runs, h.code]
    simp [StackOk, State.holds, h.lock]
  away i hi := by
    rw [h.away i hi]
    exact ⟨forkReturn_ends i, nofun⟩
  scheduler c i hi := by
    rw [h.runs] at hi
    cases hi
  executing c i hi := by
    rw [h.runs] at hi
    cases hi
  unique c d i hi := by
    rw [h.runs] at hi
    cases hi
  own c d hd := by
    rw [h.runs] at hd
    exact (Context.scheduler.inj hd).symm

/-- The CPU goes on with its code, and the locks of the others stay as they are. -/
theorem Inv.proceed (h : Inv s) (hruns : s'.runs = s.runs) (hstatus : s'.status = s.status)
    {stack : List (Prog Unit)} (hcode : s'.code = Function.update s.code (s.runs c) stack)
    (hothers : ∀ d, d ≠ c → s'.holds d = s.holds d) (hstack : StackOk (s'.holds c) stack) :
    Inv s' where
  code d := by
    rw [hruns, hcode]
    by_cases hd : d = c
    · subst hd
      rwa [Function.update_self]
    · rw [Function.update_of_ne (h.runs_ne hd), hothers d hd]
      exact h.code d
  away i hi := by
    rw [hstatus] at hi
    rw [hcode, Function.update_of_ne]
    · exact h.away i hi
    · intro heq
      rw [h.executing c i heq.symm] at hi
      cases hi
  scheduler d i hi := by
    rw [hruns] at hi
    rw [hcode, Function.update_of_ne]
    · exact h.scheduler d i hi
    · intro heq
      obtain rfl := h.own c d heq.symm
      rw [hi] at heq
      cases heq
  executing d i hi := by
    rw [hruns] at hi
    rw [hstatus]
    exact h.executing d i hi
  unique d e i hd he := by
    rw [hruns] at hd he
    exact h.unique d e i hd he
  own d e hd := by
    rw [hruns] at hd
    exact h.own d e hd

theorem mem_holds {i : Slot} : i ∈ s.holds c ↔ s.lock i = some c := by
  simp [State.holds]

/-- A lock that is taken becomes one of the CPU's. -/
theorem holds_acquire {i : Slot} (hi : s.lock i = none) (d : κ) :
    State.holds { s with lock := Function.update s.lock i (some c) } d =
      if d = c then insert i (s.holds c) else s.holds d := by
  ext j
  rw [mem_holds]
  by_cases hj : j = i
  · subst hj
    by_cases hd : d = c
    · simp [hd]
    · simp [hd, mem_holds, hi, Ne.symm hd]
  · by_cases hd : d = c
    · simp [hd, hj, mem_holds]
    · simp [hd, hj, mem_holds]

theorem holds_release {i : Slot} (hi : s.lock i = some c) (d : κ) :
    State.holds { s with lock := Function.update s.lock i none } d =
      if d = c then (s.holds c).erase i else s.holds d := by
  ext j
  rw [mem_holds]
  by_cases hj : j = i
  · subst hj
    by_cases hd : d = c
    · simp [hd]
    · simp [hd, mem_holds, hi, Ne.symm hd]
  · by_cases hd : d = c
    · simp [hd, hj, mem_holds]
    · simp [hd, hj, mem_holds]

/-- An operation that takes and gives up no lock, and switches nothing. -/
theorem Inv.plain (h : Inv s) (hruns : s'.runs = s.runs) (hstatus : s'.status = s.status)
    (hlock : s'.lock = s.lock) (hcode : s'.code = s.code) {stack : List (Prog Unit)}
    (hstack : StackOk (s.holds c) stack) : Inv (s'.setCode (s.runs c) stack) := by
  have hholds : ∀ d, (s'.setCode (s.runs c) stack).holds d = s.holds d := by
    intro d
    rw [State.holds, State.setCode, hlock]
    rfl
  refine h.proceed (c := c) hruns hstatus (by rw [State.setCode, hcode]) (fun d _ => hholds d) ?_
  rwa [hholds]

/-- The slot of a thread that no CPU executes gets a new context. -/
theorem Inv.setContext (h : Inv s) {i : Slot} (hi : s.status i ≠ .executing) :
    Inv { s.setCode (.thread i) [forkReturn i] with
      status := Function.update s.status i .away } := by
  have hthread : ∀ d j, s.runs d = .thread j → j ≠ i :=
    fun d j hd hj => hi (hj ▸ h.executing d j hd)
  have hruns : ∀ d, s.runs d ≠ .thread i := fun d hd => hthread d i hd rfl
  constructor
  · intro d
    simp only [State.setCode, Function.update_of_ne (hruns d)]
    exact h.code d
  · intro j hj
    by_cases hji : j = i
    · subst hji
      simp only [State.setCode, Function.update_self]
      exact ⟨forkReturn_ends j, nofun⟩
    · have hne : Context.thread (κ := κ) j ≠ .thread i := by simpa using hji
      simp only [State.setCode, Function.update_of_ne hji, Function.update_of_ne hne] at hj ⊢
      exact h.away j hj
  · intro d j hd
    simp only [State.setCode]
    rw [Function.update_of_ne (by simp)]
    exact h.scheduler d j hd
  · intro d j hd
    simp only [Function.update_of_ne (hthread d j hd)]
    exact h.executing d j hd
  · exact h.unique
  · exact h.own

/-- The thread rests with its own lock, which the scheduler of the CPU goes on with. -/
theorem Inv.switchToScheduler (h : Inv s) {p : Slot} (hruns : s.runs c = .thread p)
    {stack : List (Prog Unit)} (hheld : s.holds c = {p}) (hstack : StackOk {p} stack) :
    Inv (State.setCode { s with
      runs := Function.update s.runs c (.scheduler c)
      status := Function.update s.status p .away } (.thread p) stack) := by
  have hne : ∀ d, d ≠ c → s.runs d ≠ .thread p := fun d hd heq => hd (h.unique d c p heq hruns)
  constructor
  · intro d
    by_cases hd : d = c
    · subst hd
      simp only [State.setCode, Function.update_self]
      rw [Function.update_of_ne (by simp)]
      have := h.scheduler d p hruns
      rwa [← hheld] at this
    · simp only [State.setCode, Function.update_of_ne hd, Function.update_of_ne (hne d hd)]
      exact h.code d
  · intro j hj
    by_cases hjp : j = p
    · subst hjp
      simp only [State.setCode, Function.update_self]
      exact hstack
    · have hjp' : Context.thread (κ := κ) j ≠ .thread p := by simpa using hjp
      simp only [State.setCode, Function.update_of_ne hjp, Function.update_of_ne hjp'] at hj ⊢
      exact h.away j hj
  · intro d j hd
    by_cases hdc : d = c
    · subst hdc
      simp [State.setCode] at hd
    · simp only [State.setCode, Function.update_of_ne hdc] at hd ⊢
      rw [Function.update_of_ne (by simp)]
      exact h.scheduler d j hd
  · intro d j hd
    by_cases hdc : d = c
    · subst hdc
      simp [State.setCode] at hd
    · simp only [State.setCode, Function.update_of_ne hdc] at hd ⊢
      have hjp : j ≠ p := by
        rintro rfl
        exact hne d hdc hd
      rw [Function.update_of_ne hjp]
      exact h.executing d j hd
  · intro d e j hd he
    by_cases hdc : d = c
    · subst hdc
      simp [State.setCode] at hd
    by_cases hec : e = c
    · subst hec
      simp [State.setCode] at he
    simp only [State.setCode, Function.update_of_ne hdc, Function.update_of_ne hec] at hd he
    exact h.unique d e j hd he
  · intro d e hd
    by_cases hdc : d = c
    · subst hdc
      simpa [State.setCode] using hd.symm
    · simp only [State.setCode, Function.update_of_ne hdc] at hd
      exact h.own d e hd

/-- The scheduler rests with the lock of the process, which the thread goes on with. -/
theorem Inv.switchTo (h : Inv s) {i : Slot} (hruns : s.runs c = .scheduler c)
    (hi : s.status i = .away) {stack : List (Prog Unit)} (hheld : s.holds c = {i})
    (hstack : StackOk {i} stack) :
    Inv (State.setCode { s with
      runs := Function.update s.runs c (.thread i)
      status := Function.update s.status i .executing } (.scheduler c) stack) := by
  have hthread : ∀ d j, s.runs d = .thread j → j ≠ i := by
    rintro d j hd rfl
    rw [h.executing d j hd] at hi
    cases hi
  have hscheduler : ∀ d, d ≠ c → s.runs d ≠ .scheduler c := fun d hd heq =>
    hd (h.own d c heq).symm
  constructor
  · intro d
    by_cases hd : d = c
    · subst hd
      simp only [State.setCode, Function.update_self]
      rw [Function.update_of_ne (by simp)]
      have := h.away i hi
      rwa [← hheld] at this
    · simp only [State.setCode, Function.update_of_ne hd, Function.update_of_ne (hscheduler d hd)]
      exact h.code d
  · intro j hj
    by_cases hji : j = i
    · subst hji
      simp [State.setCode] at hj
    · simp only [State.setCode, Function.update_of_ne hji] at hj ⊢
      rw [Function.update_of_ne (by simp)]
      exact h.away j hj
  · intro d j hd
    by_cases hdc : d = c
    · subst hdc
      simp only [State.setCode, Function.update_self, Context.thread.injEq] at hd ⊢
      exact hd ▸ hstack
    · simp only [State.setCode, Function.update_of_ne hdc] at hd ⊢
      rw [Function.update_of_ne (by simpa using hdc)]
      exact h.scheduler d j hd
  · intro d j hd
    by_cases hdc : d = c
    · subst hdc
      simp only [State.setCode, Function.update_self, Context.thread.injEq] at hd ⊢
      rw [hd, Function.update_self]
    · simp only [State.setCode, Function.update_of_ne hdc] at hd ⊢
      rw [Function.update_of_ne (hthread d j hd)]
      exact h.executing d j hd
  · intro d e j hd he
    by_cases hdc : d = c <;> by_cases hec : e = c
    · rw [hdc, hec]
    · subst hdc
      simp only [State.setCode, Function.update_self, Function.update_of_ne hec,
        Context.thread.injEq] at hd he
      exact absurd hd.symm (hthread e j he)
    · subst hec
      simp only [State.setCode, Function.update_self, Function.update_of_ne hdc,
        Context.thread.injEq] at hd he
      exact absurd he.symm (hthread d j hd)
    · simp only [State.setCode, Function.update_of_ne hdc, Function.update_of_ne hec] at hd he
      exact h.unique d e j hd he
  · intro d e hd
    by_cases hdc : d = c
    · subst hdc
      simp [State.setCode] at hd
    · simp only [State.setCode, Function.update_of_ne hdc] at hd
      exact h.own d e hd

/-- What the code of a CPU needs for its next operation, and how it goes on. -/
theorem Inv.next (h : Inv s) {o : Op} {k : Result o → Prog Unit} {rest : List (Prog Unit)}
    (hcode : s.code (s.runs c) = .call o k :: rest) :
    needs (s.holds c) o ∧
      ∀ r, answers o r → StackOk (after (s.holds c) o) (k r :: rest) := by
  have hstack := h.code c
  rw [hcode] at hstack
  obtain ⟨hneeds, hnext⟩ := ends_call hstack.1
  exact ⟨hneeds, fun r hr => ⟨hnext r hr, hstack.2⟩⟩

theorem Inv.step_op (h : Inv s) {answer : Bool} {o : Op} {k : Result o → Prog Unit}
    {rest : List (Prog Unit)} (hcode : s.code (s.runs c) = .call o k :: rest)
    (hpages : s.HasPages (.step c answer)) {r : Result o × State κ}
    (hr : s.perform c answer o = some r) : Inv (r.2.setCode (s.runs c) (k r.1 :: rest)) := by
  obtain ⟨hneeds, hnext⟩ := h.next hcode
  cases o with
  | acquire i =>
    simp only [State.perform, Option.ite_none_right_eq_some, Option.some.injEq] at hr
    obtain ⟨hi, rfl⟩ := hr
    refine h.proceed (c := c) rfl rfl rfl (fun d hd => ?_) ?_
    · exact (holds_acquire hi d).trans (if_neg hd)
    · have := (holds_acquire hi c).trans (if_pos rfl)
      exact this ▸ hnext () trivial
  | release i =>
    simp only [State.perform, Option.ite_none_right_eq_some, Option.some.injEq] at hr
    obtain ⟨hi, rfl⟩ := hr
    refine h.proceed (c := c) rfl rfl rfl (fun d hd => ?_) ?_
    · exact (holds_release hi d).trans (if_neg hd)
    · have := (holds_release hi c).trans (if_pos rfl)
      exact this ▸ hnext () trivial
  | allocPage =>
    obtain rfl := Option.some.inj hr
    exact h.plain rfl rfl rfl rfl (hnext answer (hpages ⟨k, rest, hcode⟩))
  | setContext i =>
    simp only [State.perform] at hr
    split at hr
    · cases hr
    next hi =>
      obtain rfl := Option.some.inj hr
      exact (h.setContext hi).plain (c := c) rfl rfl rfl rfl (hnext () trivial)
  | switchToScheduler p =>
    simp only [State.perform, Option.ite_none_right_eq_some, Option.some.injEq] at hr
    obtain ⟨hruns, rfl⟩ := hr
    have hheld : s.holds c = {p} := hneeds
    rw [hruns]
    exact h.switchToScheduler hruns hheld (hheld ▸ hnext () trivial)
  | switchTo i =>
    simp only [State.perform, Option.ite_none_right_eq_some, Option.some.injEq] at hr
    obtain ⟨⟨hruns, hi⟩, rfl⟩ := hr
    have hheld : s.holds c = {i} := hneeds
    rw [hruns]
    exact h.switchTo hruns hi hheld (hheld ▸ hnext () trivial)
  | panic => cases hr
  | look i =>
    obtain rfl := Option.some.inj hr
    exact h.plain rfl rfl rfl rfl (hnext _ trivial)
  | write i w =>
    obtain rfl := Option.some.inj hr
    refine h.plain ?_ ?_ ?_ ?_ (hnext _ trivial) <;> rfl
  | setParent i p =>
    obtain rfl := Option.some.inj hr
    refine h.plain ?_ ?_ ?_ ?_ (hnext _ trivial) <;> rfl
  | allocProcessId =>
    obtain rfl := Option.some.inj hr
    refine h.plain ?_ ?_ ?_ ?_ (hnext _ trivial) <;> rfl
  | other =>
    obtain rfl := Option.some.inj hr
    exact h.plain rfl rfl rfl rfl (hnext _ trivial)
  | enterFree i =>
    obtain rfl := Option.some.inj hr
    exact h.plain rfl rfl rfl rfl (hnext _ trivial)
  | allocReturns r =>
    obtain rfl := Option.some.inj hr
    exact h.plain rfl rfl rfl rfl (hnext _ trivial)

theorem Inv.step {initialProcess : Slot} (h : Inv s) {e : Event κ}
    (he : s.step initialProcess e = some s') (hpages : s.HasPages e) : Inv s' := by
  cases e with
  | call c f =>
    simp only [State.step, Option.ite_none_right_eq_some, Option.map_eq_some_iff] at he
    obtain ⟨hheld, q, hq, rfl⟩ := he
    exact h.plain rfl rfl rfl rfl ((h.code c).push hheld (program_ends hq))
  | loop c =>
    simp only [State.step, Option.ite_none_right_eq_some, Option.some.injEq] at he
    obtain ⟨⟨hheld, -, -⟩, rfl⟩ := he
    refine h.plain rfl rfl rfl rfl ?_
    rw [hheld]
    exact ⟨loopFrom_ends allSlots, nofun⟩
  | step c answer =>
    simp only [State.step] at he
    split at he
    · cases he
    next a rest hcode =>
      obtain rfl := Option.some.inj he
      have hstack := h.code c
      rw [hcode] at hstack
      exact h.plain rfl rfl rfl rfl (hstack.tail (hstack.1 trivial))
    next o k rest hcode =>
      obtain ⟨r, hr, rfl⟩ := Option.map_eq_some_iff.mp he
      exact h.step_op hcode hpages hr

/-- What the code needs is what keeps to the locks. -/
theorem Inv.guarded (h : Inv s) {o : Op} (ho : s.Next c o) : s.Guarded c o := by
  obtain ⟨k, rest, hcode⟩ := ho
  have hneeds := (h.next hcode).1
  cases o with
  | write i w => exact mem_holds.mp hneeds
  | enterFree i => exact mem_holds.mp hneeds
  | release i => exact mem_holds.mp hneeds
  | allocReturns r =>
    cases r with
    | none =>
      intro j hj
      have hheld : s.holds c = ∅ := hneeds
      exact absurd (mem_holds.mpr hj) (hheld ▸ Finset.notMem_empty j)
    | some i =>
      intro j
      have hheld : s.holds c = {i} := hneeds
      rw [← mem_holds, hheld, Finset.mem_singleton]
  | acquire i => trivial
  | look i => trivial
  | setParent i p => trivial
  | allocProcessId => trivial
  | allocPage => trivial
  | other => trivial
  | setContext i => trivial
  | switchToScheduler p => trivial
  | switchTo i => trivial
  | panic => trivial

/-- As long as `init` gets its pages, in every state of a run a slot is stored to, freed and
released by the CPU that holds its lock only, and `alloc` returns a slot with its lock and no slot
with none. -/
theorem slots_locked {initialProcess : Slot} {s₀ s : State κ} {es : List (Event κ)}
    (h₀ : s₀.Initial) (h : Transition.run (State.step initialProcess) s₀ es = some s)
    (hpages : ∀ fs e s₁, fs ++ [e] <+: es →
      Transition.run (State.step initialProcess) s₀ fs = some s₁ → s₁.HasPages e) (c : κ) (o : Op) :
    s.Next c o → s.Guarded c o := by
  have hi : Inv s := Transition.run_inv_of_steps (R := State.HasPages) (.initial h₀)
    (fun s e s' hi he hp => hi.step he hp) hpages es s (List.prefix_refl es) h
  exact hi.guarded

/-- The first process is about to start, on one CPU. -/
def boot : State Unit where
  table i := if i = 0 then { Process.freed with state := .runnable, pid := 1 } else .freed
  nextProcessId := 2
  lock _ := none
  runs c := .scheduler c
  status i := if i = 0 then .away else .idle
  code
    | .scheduler _ => []
    | .thread i => if i = 0 then [forkReturn 0] else []

theorem boot_initial : boot.Initial where
  lock _ := rfl
  runs _ := rfl
  code _ := rfl
  status i := by
    by_cases hi : i = 0 <;> simp [boot, hi]
  away i hi := by
    by_cases h0 : i = 0
    · subst h0
      rfl
    · simp [boot, h0] at hi

/-- The first process is switched to, calls `fork` and finds the second slot, up to the first
allocation. -/
def forking : List (Event Unit) :=
  .loop () :: List.replicate 5 (.step () true) ++ .step () true :: .call () .fork ::
    List.replicate 8 (.step () true)

/-- With pages the second slot is returned with its lock. -/
theorem slots_locked_forking :
    ∃ s, Transition.run (State.step 0) boot (forking ++ List.replicate 3 (.step () true)) = some s ∧
      s.Next () (.allocReturns (some 1)) ∧ s.Guarded () (.allocReturns (some 1)) := by
  have hanswer : ∀ e ∈ forking ++ List.replicate 3 (.step () true), ∀ s : State Unit,
      s.HasPages e := by
    intro e he s
    simp only [forking, List.replicate, List.cons_append, List.nil_append, List.mem_cons,
      List.not_mem_nil, or_false] at he
    obtain rfl | rfl | he : e = .loop () ∨ e = .call () .fork ∨ e = .step () true := by tauto
    · trivial
    · trivial
    · subst he
      exact fun _ => rfl
  obtain ⟨s, hs, hnext⟩ : ∃ s, Transition.run (State.step 0) boot
      (forking ++ List.replicate 3 (.step () true)) = some s ∧ s.Next () (.allocReturns (some 1)) :=
    ⟨_, rfl, ⟨_, _, rfl⟩⟩
  refine ⟨s, hs, hnext, ?_⟩
  exact slots_locked boot_initial hs (fun _ e s hp _ => hanswer e (hp.subset (by simp)) s) ()
    (.allocReturns (some 1)) hnext

/-- The free of a slot whose trap frame could not be allocated, with its lock given up before. -/
theorem forking_not_guarded :
    ∃ s, Transition.run (State.step 0) boot (forking ++ [.step () false, .step () true]) = some s ∧
      s.Next () (.enterFree 1) ∧ ¬ s.Guarded () (.enterFree 1) := by
  refine ⟨_, rfl, ⟨_, _, rfl⟩, ?_⟩
  intro h
  cases h

end Zigmaos.SlotLocks
