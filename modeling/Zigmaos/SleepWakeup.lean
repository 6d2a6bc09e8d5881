import Zigmaos.Scheduler

/-!
# A condition that processes sleep on

Beside the scheduler, some data is protected by a lock, and processes wait for a
condition on the data: they test it with the lock held and call `sleepWithLock`
with the lock and a channel. Whoever makes the condition of some process true
holds the lock, and then owes a `wakeup` on the channel. Nothing else sleeps on
the channel; other locks and other channels are left to the scheduler model.
-/
namespace Zigmaos.SleepWakeup

open ProcessTable (Slot nProc Process ProcessState Channel)
open Scheduler (Agent)

variable {κ σ : Type*}

structure State (κ σ : Type*) where
  scheduler : Scheduler.State κ
  /-- Who holds the lock of the data. -/
  mutex : Option (Agent κ)
  data : σ
  /-- A change of the data has still to be followed by a `wakeup`. -/
  owes : Agent κ → Bool

inductive Event (κ σ : Type*)
  | scheduler (e : Scheduler.Event κ)
  | acquire (c : κ) (a : Agent κ)
  | release (c : κ) (a : Agent κ)
  | change (c : κ) (a : Agent κ) (d : σ)

variable [DecidableEq κ] (channel : Channel) (condition : Slot → σ → Bool)

/-- How the callers of the scheduler use the lock and the channel. -/
def allowed (s : State κ σ) : Scheduler.Event κ → Bool
  | .sleep _ _ ch => ch ≠ channel
  | .sleepWithLock _ p ch =>
    ch = channel → s.mutex = some (.process p) ∧ condition p s.data = false
  | .acquireLock _ _ ch => ch = channel → s.mutex = none
  | .exit _ p _ => s.owes (.process p) = false
  | .handlerEnd c => s.owes (.handler c) = false
  | _ => true

/-- What an event of the scheduler does to the lock and to the wakeups that are owed. -/
def follow (s : State κ σ) (t : Scheduler.State κ) : Scheduler.Event κ → State κ σ
  | .releaseLock _ _ ch =>
    { s with scheduler := t, mutex := if ch = channel then none else s.mutex }
  | .acquireLock _ p ch =>
    { s with scheduler := t, mutex := if ch = channel then some (.process p) else s.mutex }
  | .startWakeup _ a ch =>
    { s with scheduler := t, owes := if ch = channel then Function.update s.owes a false else s.owes }
  | _ => { s with scheduler := t }

/-- The data is changed, and the condition of some process becomes true. -/
def State.wakes (s : State κ σ) (d : σ) : Bool :=
  decide (∃ p, condition p s.data = false ∧ condition p d = true)

/-- The agent is executed, and between two calls. -/
def State.Ready (s : State κ σ) (c : κ) (a : Agent κ) : Prop :=
  s.scheduler.Acts c a ∧ s.scheduler.phase a = .code

instance (s : State κ σ) (c : κ) (a : Agent κ) : Decidable (s.Ready c a) :=
  inferInstanceAs (Decidable (_ ∧ _))

def step (initialProcess : Slot) (s : State κ σ) : Event κ σ → Option (State κ σ)
  | .scheduler e =>
    if allowed channel condition s e then
      (Scheduler.step initialProcess s.scheduler e).map (fun t => follow channel s t e)
    else none
  | .acquire c a =>
    if s.Ready c a ∧ s.mutex = none then some { s with mutex := some a } else none
  | .release c a =>
    if s.Ready c a ∧ s.mutex = some a then some { s with mutex := none } else none
  | .change c a d =>
    if s.Ready c a ∧ s.mutex = some a then
      some { s with
        data := d
        owes := Function.update s.owes a (s.owes a || s.wakes condition d) }
    else none

structure Initial (initialProcess : Slot) (s : State κ σ) : Prop where
  scheduler : Scheduler.Initial initialProcess s.scheduler
  mutex : s.mutex = none
  owes : ∀ a, s.owes a = false

/-- A `wakeup` on the channel that has still to be called, or to come to the slot. -/
def State.Pending (s : State κ σ) (a : Agent κ) (p : Slot) : Prop :=
  s.owes a = true ∨ ∃ k ≤ p.val, s.scheduler.phase a = .waking channel k

end Zigmaos.SleepWakeup
