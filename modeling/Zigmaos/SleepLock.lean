import Zigmaos.SleepWakeupInvariant

/-!
# Sleep locks

`SleepLock.acquire` and `release` between any processes and CPUs: the fields are
the data, the spin lock is its lock, and the lock itself is the channel. Only the
process that has acquired the lock releases it, and it does so before it exits.
-/
namespace Zigmaos.Scheduler

open ProcessTable (Slot nProc Process ProcessState Channel)

variable {κ : Type*}

/-- The process has started, and has not exited. -/
def State.Alive (s : State κ) (p : Slot) : Prop :=
  (s.table p).state = .running ∨ (s.table p).state = .runnable ∨ (s.table p).state = .sleeping

variable [DecidableEq κ] {initialProcess : Slot} {s s' : State κ} {e : Event κ} {p : Slot}

theorem Inv.alive_step (hi : Inv s) (h : Scheduler.step initialProcess s e = some s')
    (hp : s.Alive p) (he : ∀ c status, e ≠ .exit c p status) : s'.Alive p := by
  have hst := hi.state_step h p
  unfold State.Alive at hp ⊢
  generalize (s.table p).state = x at hst hp
  generalize (s'.table p).state = y at hst ⊢
  cases hst with
  | same => exact hp
  | dispatched => simp
  | yielded => simp
  | slept => simp
  | exited c status hx => exact absurd hx (he c status)
  | woken => simp
  | allocated => simp at hp
  | failed => simp at hp
  | started => simp
  | reaped => simp at hp

/-- A process keeps its pid from its start to its exit. -/
theorem Inv.pid_step (hi : Inv s) (h : Scheduler.step initialProcess s e = some s')
    (hp : s.Alive p) : (s'.table p).pid = (s.table p).pid := by
  have hset : ∀ i x, (i = p → x.pid = (s.table p).pid) →
      (Function.update s.table i x p).pid = (s.table p).pid := by
    intro i x hx
    by_cases hip : i = p
    · subst hip
      simpa using hx rfl
    · rw [Function.update_of_ne (Ne.symm hip)]
  cases e <;> simp only [Scheduler.step, Option.ite_none_right_eq_some, Option.some.injEq] at h
  case test c i =>
    obtain ⟨_, h⟩ := h
    split_ifs at h
    · obtain rfl := Option.some.inj h
      exact hset _ _ fun hip => by rw [hip]
    · obtain rfl := Option.some.inj h
      rfl
  case resumed c q r =>
    obtain ⟨_, rfl⟩ := h
    refine hset _ _ fun hip => ?_
    rw [hip]
    cases r <;> rfl
  case fork c q i isCopied =>
    obtain ⟨⟨_, _, _, hu⟩, h⟩ := h
    have hip : p ≠ i := fun hx => by simp [State.Alive, hx, hu] at hp
    split_ifs at h
    · obtain rfl := Option.some.inj h
      exact hset _ _ fun hx => absurd hx.symm hip
    · obtain rfl := Option.some.inj h
      simp [State.setProcess, State.setStage, State.startInit, Function.update_of_ne hip]
  case forkInitFails c q i =>
    obtain ⟨⟨_, _, _, hu⟩, rfl⟩ := h
    have hip : p ≠ i := fun hx => by simp [State.Alive, hx, hu] at hp
    exact hset _ _ fun hx => absurd hx.symm hip
  case freeFailed c q i =>
    obtain ⟨⟨_, hf⟩, rfl⟩ := h
    have hu := hi.children.used q i (by simp [hf, Phase.child])
    have hip : p ≠ i := fun hx => by simp [State.Alive, hx, hu] at hp
    exact hset _ _ fun hx => absurd hx.symm hip
  case reap c q i =>
    obtain ⟨⟨_, _, _, _, hz⟩, rfl⟩ := h
    have hip : p ≠ i := fun hx => by simp [State.Alive, hx, hz] at hp
    exact hset _ _ fun hx => absurd hx.symm hip
  case wakeNext c a channel k =>
    obtain ⟨_, h⟩ := h
    split_ifs at h
    · obtain rfl := Option.some.inj h
      rfl
    · obtain rfl := Option.some.inj h
      refine hset _ _ fun hip => ?_
      rw [hip]
      unfold wake
      split_ifs <;> rfl
    · obtain rfl := Option.some.inj h
      rfl
  case yield c q =>
    obtain ⟨_, rfl⟩ := h
    exact hset _ _ fun hip => by rw [hip]
  case sleep c q channel =>
    obtain ⟨_, rfl⟩ := h
    exact hset _ _ fun hip => by rw [hip]; rfl
  case putProcessToSleep c q channel =>
    obtain ⟨_, rfl⟩ := h
    exact hset _ _ fun hip => by rw [hip]; rfl
  case exit c q status =>
    obtain ⟨_, rfl⟩ := h
    exact hset _ _ fun hip => by rw [hip]
  case setParent c q i =>
    obtain ⟨_, rfl⟩ := h
    exact hset _ _ fun hip => by rw [hip]
  case setRunnable c q i =>
    obtain ⟨_, rfl⟩ := h
    exact hset _ _ fun hip => by rw [hip]
  case reparent c q i =>
    obtain ⟨_, rfl⟩ := h
    exact hset _ _ fun hip => by rw [hip]
  case kill c q i wakes =>
    obtain ⟨_, rfl⟩ := h
    exact hset _ _ fun hip => by rw [hip]; rfl
  all_goals
    obtain ⟨_, rfl⟩ := h
    rfl

/-- The process whose code starts the call. -/
def Event.caller : Event κ → Option Slot
  | .sleep _ p _ | .sleepWithLock _ p _ | .exit _ p _ | .fork _ p _ _ | .forkInitFails _ p _
  | .reparent _ p _ | .reap _ p _ | .kill _ p _ _ | .startWakeup _ (.process p) _ => some p
  | _ => none

end Zigmaos.Scheduler

namespace Zigmaos

open ProcessTable (Slot nProc Process ProcessState Channel)
open Scheduler (Agent)

structure SleepLock where
  isLocked : Bool
  pid : Option ℕ
  deriving DecidableEq

namespace SleepLock

/-- Where a process is with regard to the lock. -/
inductive Position
  | outside
  /-- In the loop of `acquire`. -/
  | acquiring
  /-- `acquire` has stored the fields and still has the spin lock. -/
  | taken
  /-- Between the return of `acquire` and the call of `release`. -/
  | inside
  /-- `release` has the spin lock. -/
  | releasing
  /-- `release` has reset the fields. -/
  | released
  /-- `release` has called `wakeup`. -/
  | waking
  deriving DecidableEq

variable {κ : Type*}

structure State (κ : Type*) where
  monitor : SleepWakeup.State κ SleepLock
  position : Slot → Position

inductive Event (κ : Type*)
  /-- Anything that is not code of `acquire` or `release`. -/
  | other (e : Scheduler.Event κ)
  | acquire (c : κ) (p : Slot)
  | sleep (c : κ) (p : Slot)
  | take (c : κ) (p : Slot)
  | acquired (c : κ) (p : Slot)
  | release (c : κ) (p : Slot)
  | reset (c : κ) (p : Slot)
  | wakeup (c : κ) (p : Slot)
  | released (c : κ) (p : Slot)

variable [DecidableEq κ] (channel : Channel)

/-- What the loop of `acquire` waits for. -/
def isFree (_ : Slot) (lock : SleepLock) : Bool := !lock.isLocked

/-- Calls are made outside of `acquire` and `release`; nobody exits with the lock. -/
def State.permits (s : State κ) (e : Scheduler.Event κ) : Bool :=
  (match e.caller with
    | some p => s.position p = .outside ∨ s.position p = .inside
    | none => true) &&
  match e with
  | .exit _ p _ => s.position p = .outside
  | .sleepWithLock _ _ ch => ch ≠ channel
  | _ => true

section
variable (initialProcess : Slot)

/-- An event of the process, which comes to another position by it. -/
def State.perform (s : State κ) (p : Slot) (x : Position) (e : SleepWakeup.Event κ SleepLock) :
    Option (State κ) :=
  (SleepWakeup.step channel isFree initialProcess s.monitor e).map
    (fun m => ⟨m, Function.update s.position p x⟩)

def step (s : State κ) : Event κ → Option (State κ)
  | .other e =>
    if s.permits channel e then
      (SleepWakeup.step channel isFree initialProcess s.monitor (.scheduler e)).map
        (fun m => ⟨m, s.position⟩)
    else none
  | .acquire c p =>
    if s.position p = .outside then
      s.perform channel initialProcess p .acquiring (.acquire c (.process p))
    else none
  | .sleep c p =>
    if s.position p = .acquiring ∧ s.monitor.data.isLocked = true then
      s.perform channel initialProcess p .acquiring (.scheduler (.sleepWithLock c p channel))
    else none
  | .take c p =>
    if s.position p = .acquiring ∧ s.monitor.data.isLocked = false then
      s.perform channel initialProcess p .taken
        (.change c (.process p) ⟨true, some (s.monitor.scheduler.table p).pid⟩)
    else none
  | .acquired c p =>
    if s.position p = .taken then
      s.perform channel initialProcess p .inside (.release c (.process p))
    else none
  | .release c p =>
    if s.position p = .inside then
      s.perform channel initialProcess p .releasing (.acquire c (.process p))
    else none
  | .reset c p =>
    if s.position p = .releasing then
      s.perform channel initialProcess p .released (.change c (.process p) ⟨false, none⟩)
    else none
  | .wakeup c p =>
    if s.position p = .released then
      s.perform channel initialProcess p .waking (.scheduler (.startWakeup c (.process p) channel))
    else none
  | .released c p =>
    if s.position p = .waking then
      s.perform channel initialProcess p .outside (.release c (.process p))
    else none

structure Initial (s : State κ) : Prop where
  monitor : SleepWakeup.Initial initialProcess s.monitor
  isLocked : s.monitor.data.isLocked = false
  position : ∀ p, s.position p = .outside

end

/-- `isHolding`, called by the process. -/
def State.isHolding (s : State κ) (p : Slot) : Bool :=
  s.monitor.data.isLocked && s.monitor.data.pid == some (s.monitor.scheduler.table p).pid

end SleepLock

end Zigmaos
