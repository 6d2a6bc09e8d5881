import Zigmaos.SchedulerSafety

/-!
# Kill and the loops that look for it

The loops of `Pipe.read`, `Pipe.write`, `Process.wait`, `Ticks.sleepFor` and of
the console's `read`, beside the scheduler: a process that has found that it must
wait calls `isKilled`, and then `sleepWithLock`. Both take the lock of the
process, and it is free in between. What the loops wait for is left open.
-/
namespace Zigmaos.KillableLoops

open ProcessTable (Slot Process ProcessState Channel)
open Scheduler (Stage Reason)

/-- The loops that call `isKilled` before they sleep, with the address of what they sleep on. -/
inductive Loop
  | pipeRead (readCount : ℕ)
  | pipeWrite (writeCount : ℕ)
  | wait
  | sleepFor (ticks : ℕ)
  | consoleRead (readIndex : ℕ)
  deriving DecidableEq

/-- What the process sleeps on in the loop. -/
def Loop.channel (p : Slot) : Loop → Channel
  | .pipeRead a | .pipeWrite a | .sleepFor a | .consoleRead a => .other a
  | .wait => .process p

/-- Where a process is in such a loop. -/
inductive Place
  | outside
  /-- With the lock of the loop, at its head or anywhere else in it. -/
  | head (l : Loop)
  /-- About to call `isKilled`. -/
  | unchecked (l : Loop)
  /-- `isKilled` has returned `false`. -/
  | checked (l : Loop)
  /-- In `sleepWithLock`. -/
  | asleep (l : Loop)
  deriving DecidableEq

variable {κ : Type*}

structure State (κ : Type*) where
  scheduler : Scheduler.State κ
  place : Slot → Place

inductive Event (κ : Type*)
  | scheduler (e : Scheduler.Event κ)
  /-- The loop is entered, or gone round once more without sleeping. -/
  | enter (c : κ) (p : Slot) (l : Loop)
  /-- What the loop waits for is not there. -/
  | mustWait (c : κ) (p : Slot) (l : Loop)
  | isKilled (c : κ) (p : Slot) (l : Loop)
  /-- `write` finds room in the ring after its tests. -/
  | hasRoom (c : κ) (p : Slot) (writeCount : ℕ)
  | leave (c : κ) (p : Slot) (l : Loop)

variable [DecidableEq κ]

/-- A process in a loop sleeps, exits and kills only as the loop does; `setKilled` is
called by a process for itself. -/
def allowed (s : State κ) : Scheduler.Event κ → Bool
  | .sleep _ p _ | .exit _ p _ => s.place p = .outside
  | .sleepWithLock _ p channel =>
    match s.place p with
    | .outside => true
    | .checked l => channel = l.channel p
    | _ => false
  | .kill _ q i wakes => s.place q = .outside ∧ (wakes = true ∨ q = i)
  | _ => true

def State.setPlace (s : State κ) (p : Slot) (x : Place) : State κ :=
  { s with place := Function.update s.place p x }

/-- What a call of the scheduler means for the place of the process. -/
def follow (s : State κ) (t : Scheduler.State κ) : Scheduler.Event κ → State κ
  | .sleepWithLock _ p _ =>
    match s.place p with
    | .checked l => { s.setPlace p (.asleep l) with scheduler := t }
    | _ => { s with scheduler := t }
  | .acquireLock _ p _ =>
    match s.place p with
    | .asleep l => { s.setPlace p (.head l) with scheduler := t }
    | _ => { s with scheduler := t }
  | _ => { s with scheduler := t }

def step (initialProcess : Slot) (s : State κ) : Event κ → Option (State κ)
  | .scheduler e =>
    if allowed s e then (Scheduler.step initialProcess s.scheduler e).map (fun t => follow s t e)
    else none
  | .enter c p l =>
    if s.scheduler.Runs c p ∧ s.place p = .outside then some (s.setPlace p (.head l)) else none
  | .mustWait c p l =>
    if s.scheduler.Runs c p ∧ s.place p = .head l then some (s.setPlace p (.unchecked l)) else none
  | .isKilled c p l =>
    if s.scheduler.Runs c p ∧ s.scheduler.lock p = none ∧ s.place p = .unchecked l then
      if (s.scheduler.table p).isKilled then some (s.setPlace p .outside)
      else some (s.setPlace p (.checked l))
    else none
  | .hasRoom c p writeCount =>
    if s.scheduler.Runs c p ∧ s.place p = .checked (.pipeWrite writeCount) then
      some (s.setPlace p (.head (.pipeWrite writeCount)))
    else none
  | .leave c p l =>
    if s.scheduler.Runs c p ∧ s.place p = .head l then some (s.setPlace p .outside) else none

structure Initial (initialProcess : Slot) (s : State κ) : Prop where
  scheduler : Scheduler.Initial initialProcess s.scheduler
  place : ∀ p, s.place p = .outside

/-- A process is killed between its call of `isKilled` and that of `sleepWithLock`. -/
def State.Misses (s : State κ) : Event κ → Prop
  | .scheduler (.kill _ _ i _) => ∃ l, s.place i = .checked l
  | _ => False

/-! ## What the scheduler does to one process -/

section
variable {initialProcess : Slot} {s s' : Scheduler.State κ} {e : Scheduler.Event κ} {i : Slot}

/-- In `sleepWithLock`, before the new state is stored. -/
def Entering : Stage → Prop
  | .sleepLocked _ | .sleepReleased _ => True
  | _ => False

theorem not_entering_of_free (hi : Scheduler.Inv s) (hl : s.lock i = none) :
    ¬ Entering (s.stage i) := by
  intro hg
  cases hi.slot i with
  | away r hr => rw [hr] at hg; exact hg
  | held c r x hx hr he ho => rw [hl] at ho; cases ho
  | entered c he ho => rw [hl] at ho; cases ho
  | runs c hr => rw [hr] at hg; exact hg
  | watched c d hcd hr => rw [hr] at hg; exact hg

theorem stage_of_sleeping (hi : Scheduler.Inv s) (hs : (s.table i).state = .sleeping) :
    ∃ r : Reason, (s.stage i = .switched r ∨ s.stage i = .switching r) ∧ r.channel ≠ none := by
  cases hi.slot i with
  | away r hg he => exact ⟨r, .inl hg, (he.sleeping hs).2⟩
  | held c r x hx hg he => exact ⟨r, .inl hg, (he.sleeping hs).2⟩
  | entered c he =>
    generalize s.stage i = g at he
    cases g with
    | running => exact absurd he id
    | switching r => exact ⟨r, .inr rfl, (he.sleeping hs).2⟩
    | switched r =>
      have hr := he.1
      rw [hs] at hr
      cases hr
    | sleepLocked | sleepReleased =>
      have hr : (s.table i).state = .running := he
      rw [hs] at hr
      cases hr
  | runs c hg he =>
    rw [hs] at he
    cases he
  | watched c d hcd hg he =>
    rw [hs] at he
    cases he

/-- A process begins to sleep in `sleep`, or on its way through `sleepWithLock`. -/
theorem sleeping_of_step (hi : Scheduler.Inv s) (h : Scheduler.step initialProcess s e = some s')
    (hs' : (s'.table i).state = .sleeping) :
    (s.table i).state = .sleeping ∨ (∃ c channel, e = .sleep c i channel) ∨
      Entering (s.stage i) := by
  have hst := hi.state_step h i
  rw [hs'] at hst
  generalize hx : (s.table i).state = x at hst
  cases hst with
  | same => exact .inl rfl
  | slept hg =>
    obtain hg | ⟨channel, hg⟩ := hg
    · refine .inr (.inl ?_)
      obtain ⟨r, hr, hchannel⟩ := stage_of_sleeping (hi.step h) hs'
      have hstage := Scheduler.stage_step h i
      rw [hg] at hstage
      generalize s'.stage i = g' at hstage hr
      cases hstage with
      | sleep c channel => exact ⟨c, channel, rfl⟩
      | same => exact absurd hr (by simp)
      | sleepWithLock => exact absurd hr (by simp)
      | yield | exit | fork =>
        obtain hr | hr := hr
        all_goals
          cases hr
          try exact absurd rfl hchannel
    · exact .inr (.inr (by rw [hg]; trivial))

/-- `sleepWithLock` is where a process gets on this way. -/
theorem entering_of_step (h : Scheduler.step initialProcess s e = some s')
    (hg : Entering (s'.stage i)) :
    Entering (s.stage i) ∨ ∃ c channel, e = .sleepWithLock c i channel := by
  have hstage := Scheduler.stage_step h i
  generalize s.stage i = g at hstage
  generalize s'.stage i = g' at hstage hg
  cases hstage with
  | same => exact .inl hg
  | sleepWithLock c channel => exact .inr ⟨c, channel, rfl⟩
  | releaseLock => exact .inl trivial
  | _ => exact absurd hg id

omit [DecidableEq κ] in
theorem isKilled_update {x : Process} {j : Slot}
    (hk : (Function.update s.table j x i).isKilled = true)
    (h : x.isKilled = true → (s.table j).isKilled = true) : (s.table i).isKilled = true := by
  by_cases hij : i = j
  · subst hij
    rw [Function.update_self] at hk
    exact h hk
  · rwa [Function.update_of_ne hij] at hk

/-- Only `kill` and `setKilled` set the flag. -/
theorem isKilled_of_step (h : Scheduler.step initialProcess s e = some s')
    (hk : (s'.table i).isKilled = true) :
    (s.table i).isKilled = true ∨ ∃ c q wakes, e = .kill c q i wakes ∧ s.lock i = none ∧
      s'.stage i = s.stage i ∧ (wakes = true → (s'.table i).state ≠ .sleeping) := by
  cases e <;> simp only [Scheduler.step, Option.ite_none_right_eq_some, Option.some.injEq] at h
  case kill c q j wakes =>
    obtain ⟨⟨-, -, hl⟩, rfl⟩ := h
    by_cases hij : i = j
    · subst hij
      refine .inr ⟨c, q, wakes, rfl, hl, rfl, fun hw => ?_⟩
      simp only [Scheduler.State.setProcess, Function.update_self, Scheduler.killed, hw, true_and]
      split_ifs with hs
      · simp
      · exact hs
    · exact .inl (by simpa [Scheduler.State.setProcess, hij] using hk)
  case test c j =>
    obtain ⟨_, h⟩ := h
    split_ifs at h
    · obtain rfl := Option.some.inj h
      exact .inl (isKilled_update hk id)
    · obtain rfl := Option.some.inj h
      exact .inl hk
  case resumed c p r =>
    obtain ⟨_, rfl⟩ := h
    refine .inl (isKilled_update hk fun hp => ?_)
    cases r <;> exact hp
  case fork c p j isCopied =>
    obtain ⟨_, h⟩ := h
    split_ifs at h
    · obtain rfl := Option.some.inj h
      exact .inl (isKilled_update hk id)
    · obtain rfl := Option.some.inj h
      exact .inl (isKilled_update
        (isKilled_update (s := s.startInit j) hk (by intro h; cases h)) id)
  case wakeNext c a channel k =>
    obtain ⟨_, h⟩ := h
    split_ifs at h
    · obtain rfl := Option.some.inj h
      exact .inl hk
    · obtain rfl := Option.some.inj h
      refine .inl (isKilled_update hk fun hp => ?_)
      unfold Scheduler.wake at hp
      split_ifs at hp
      · exact hp
      · exact hp
    · obtain rfl := Option.some.inj h
      exact .inl hk
  case freeFailed c p j =>
    obtain ⟨_, rfl⟩ := h
    exact .inl (isKilled_update hk (by intro h; cases h))
  case reap c p j =>
    obtain ⟨_, rfl⟩ := h
    exact .inl (isKilled_update hk (by intro h; cases h))
  all_goals
    obtain ⟨_, rfl⟩ := h
    first
      | exact .inl hk
      | exact .inl (isKilled_update hk id)

end

/-! ## The invariant -/

section
variable {initialProcess : Slot} {s s' : State κ} {p : Slot}

/-- In the loop, and not in `sleepWithLock`. -/
def Place.busy : Place → Bool
  | .head _ | .unchecked _ | .checked _ => true
  | _ => false

/-- A process in a loop is not asleep before it calls `sleepWithLock`, which it does
without having been killed; one that is killed later is woken. -/
structure Noticed (s : Scheduler.State κ) (p : Slot) (x : Place) : Prop where
  busy : x.busy = true → (s.table p).state ≠ .sleeping ∧ ¬ Entering (s.stage p)
  checked : ∀ l, x = .checked l → (s.table p).isKilled = false
  asleep : ∀ l, x = .asleep l → (s.table p).isKilled = true →
    (s.table p).state ≠ .sleeping ∧ ¬ Entering (s.stage p)

structure Inv (s : State κ) : Prop where
  scheduler : Scheduler.Inv s.scheduler
  noticed : ∀ p, Noticed s.scheduler p (s.place p)

omit [DecidableEq κ] in
theorem Noticed.outside {t : Scheduler.State κ} : Noticed t p .outside :=
  ⟨nofun, nofun, nofun⟩

theorem Noticed.of_runs {t : Scheduler.State κ} {c : κ} {x : Place} (hi : Scheduler.Inv t)
    (hr : t.Runs c p) (hchecked : ∀ l, x = .checked l → (t.table p).isKilled = false) :
    Noticed t p x := by
  have hawake : (t.table p).state ≠ .sleeping ∧ ¬ Entering (t.stage p) := by
    rw [hi.running_of_runs hr, hr.2.2]
    exact ⟨nofun, id⟩
  exact ⟨fun _ => hawake, hchecked, fun _ _ _ => hawake⟩

omit [DecidableEq κ] in
/-- A process that is in a loop does not call `sleep`. -/
theorem allowed_sleep {e : Scheduler.Event κ} (ha : allowed s e = true) (hp : s.place p ≠ .outside)
    {c : κ} {channel : Channel} : e ≠ .sleep c p channel := by
  rintro rfl
  exact hp (by simpa [allowed] using ha)

omit [DecidableEq κ] in
/-- In a loop `sleepWithLock` is called after `isKilled`. -/
theorem allowed_sleepWithLock {e : Scheduler.Event κ} (ha : allowed s e = true)
    (hp : s.place p ≠ .outside) (hc : ∀ l, s.place p ≠ .checked l) {c : κ} {channel : Channel} :
    e ≠ .sleepWithLock c p channel := by
  rintro rfl
  unfold allowed at ha
  dsimp only at ha
  generalize s.place p = x at ha hp hc
  cases x with
  | outside => exact hp rfl
  | checked l => exact hc l rfl
  | _ => cases ha

/-- What the scheduler does to a process that stays where it is in its loop. -/
theorem Noticed.step {e : Scheduler.Event κ} {t : Scheduler.State κ} (hi : Scheduler.Inv s.scheduler)
    (h : Noticed s.scheduler p (s.place p)) (ha : allowed s e = true)
    (he : Scheduler.step initialProcess s.scheduler e = some t)
    (hno : ¬ s.Misses (.scheduler e))
    (hsleep : (∃ l, s.place p = .checked l) → ∀ c channel, e ≠ .sleepWithLock c p channel) :
    Noticed t p (s.place p) := by
  have hkeep : s.place p ≠ .outside → (s.scheduler.table p).state ≠ .sleeping →
      ¬ Entering (s.scheduler.stage p) → (t.table p).state ≠ .sleeping ∧ ¬ Entering (t.stage p) := by
    intro hout hs hg
    refine ⟨fun hs' => ?_, fun hg' => ?_⟩
    · obtain hs' | ⟨c, channel, rfl⟩ | hg' := sleeping_of_step hi he hs'
      · exact hs hs'
      · exact allowed_sleep ha hout rfl
      · exact hg hg'
    · obtain hg' | ⟨c, channel, rfl⟩ := entering_of_step he hg'
      · exact hg hg'
      · by_cases hc : ∃ l, s.place p = .checked l
        · exact hsleep hc c channel rfl
        · push Not at hc
          exact allowed_sleepWithLock ha hout hc rfl
  refine ⟨fun hb => ?_, fun l hl => ?_, fun l hl hk => ?_⟩
  · have hout : s.place p ≠ .outside := by
      rintro heq
      rw [heq] at hb
      cases hb
    exact hkeep hout (h.busy hb).1 (h.busy hb).2
  · rw [Bool.eq_false_iff]
    intro hk
    obtain hk | ⟨c, q, wakes, rfl, -⟩ := isKilled_of_step he hk
    · rw [h.checked l hl] at hk
      cases hk
    · exact hno ⟨l, hl⟩
  · have hout : s.place p ≠ .outside := by
      rintro heq
      rw [heq] at hl
      cases hl
    obtain hk | ⟨c, q, wakes, rfl, hfree, hstage, hwake⟩ := isKilled_of_step he hk
    · exact hkeep hout (h.asleep l hl hk).1 (h.asleep l hl hk).2
    · have hwakes : wakes = true := by
        simp only [allowed, decide_eq_true_eq] at ha
        obtain ⟨hq, hw | rfl⟩ := ha
        · exact hw
        · exact absurd hq hout
      refine ⟨hwake hwakes, ?_⟩
      rw [hstage]
      exact not_entering_of_free hi hfree

omit [DecidableEq κ] in
/-- What an allowed call means for the place of a process. -/
theorem follow_place (s : State κ) (t : Scheduler.State κ) (e : Scheduler.Event κ) (p : Slot) :
    (follow s t e).place p = s.place p ∧
        ((∃ l, s.place p = .checked l) → ∀ c channel, e ≠ .sleepWithLock c p channel) ∨
      (∃ l c channel, s.place p = .checked l ∧ e = .sleepWithLock c p channel ∧
        (follow s t e).place p = .asleep l) ∨
      ∃ l c channel, s.place p = .asleep l ∧ e = .acquireLock c p channel ∧
        (follow s t e).place p = .head l := by
  cases e with
  | sleepWithLock c q channel =>
    by_cases hq : p = q
    · subst hq
      cases hp : s.place p with
      | checked l => exact .inr (.inl ⟨l, c, channel, rfl, rfl, by simp [follow, hp, State.setPlace]⟩)
      | _ => exact .inl ⟨by simp [follow, hp], by simp⟩
    · refine .inl ⟨?_, fun _ _ _ heq => hq (by cases heq; rfl)⟩
      unfold follow
      dsimp only
      split
      · simp [State.setPlace, hq]
      · rfl
  | acquireLock c q channel =>
    by_cases hq : p = q
    · subst hq
      cases hp : s.place p with
      | asleep l => exact .inr (.inr ⟨l, c, channel, rfl, rfl, by simp [follow, hp, State.setPlace]⟩)
      | _ => exact .inl ⟨by simp [follow, hp], nofun⟩
    · refine .inl ⟨?_, nofun⟩
      unfold follow
      dsimp only
      split
      · simp [State.setPlace, hq]
      · rfl
  | _ => exact .inl ⟨rfl, nofun⟩

omit [DecidableEq κ] in
@[simp] theorem follow_scheduler (s : State κ) (t : Scheduler.State κ) (e : Scheduler.Event κ) :
    (follow s t e).scheduler = t := by
  unfold follow
  split
  · split <;> rfl
  · split <;> rfl
  · rfl

theorem Inv.setPlace (hi : Inv s) {x : Place} (hx : Noticed s.scheduler p x) :
    Inv (s.setPlace p x) := by
  refine ⟨hi.scheduler, fun q => ?_⟩
  by_cases hq : q = p
  · subst hq
    simpa [State.setPlace] using hx
  · simpa [State.setPlace, hq] using hi.noticed q

theorem Inv.step {e : Event κ} (hi : Inv s) (he : step initialProcess s e = some s')
    (hno : ¬ s.Misses e) : Inv s' := by
  cases e with
  | scheduler e =>
    simp only [KillableLoops.step, Option.ite_none_right_eq_some, Option.map_eq_some_iff] at he
    obtain ⟨ha, t, ht, rfl⟩ := he
    refine ⟨by rw [follow_scheduler]; exact hi.scheduler.step ht, fun p => ?_⟩
    rw [follow_scheduler]
    obtain ⟨hplace, hsleep⟩ | ⟨l, c, channel, hp, rfl, hplace⟩ | ⟨l, c, channel, hp, rfl, hplace⟩ :=
      follow_place s t e p
    · rw [hplace]
      exact (hi.noticed p).step hi.scheduler ha ht hno hsleep
    · -- it has not been killed, and its lock keeps `kill` out from here on
      rw [hplace]
      refine ⟨by simp [Place.busy], by simp, fun _ _ hk => ?_⟩
      obtain hk | ⟨_, _, _, hkill, -⟩ := isKilled_of_step ht hk
      · rw [(hi.noticed p).checked l hp] at hk
        cases hk
      · cases hkill
    · rw [hplace]
      have hit := hi.scheduler.step ht
      simp only [Scheduler.step, Option.ite_none_right_eq_some, Option.some.injEq] at ht
      obtain ⟨⟨hr, -⟩, rfl⟩ := ht
      exact Noticed.of_runs hit (show Scheduler.State.Runs _ c p from hr) (by simp)
  | enter c p l | mustWait c p l =>
    simp only [KillableLoops.step, Option.ite_none_right_eq_some, Option.some.injEq] at he
    obtain ⟨⟨hr, -⟩, rfl⟩ := he
    exact hi.setPlace (Noticed.of_runs hi.scheduler hr (by simp))
  | isKilled c p l =>
    simp only [KillableLoops.step, Option.ite_none_right_eq_some] at he
    obtain ⟨⟨hr, -⟩, he⟩ := he
    split_ifs at he with hk
    · obtain rfl := Option.some.inj he
      exact hi.setPlace .outside
    · obtain rfl := Option.some.inj he
      exact hi.setPlace (Noticed.of_runs hi.scheduler hr fun _ _ => by simpa using hk)
  | hasRoom c p writeCount =>
    simp only [KillableLoops.step, Option.ite_none_right_eq_some, Option.some.injEq] at he
    obtain ⟨⟨hr, -⟩, rfl⟩ := he
    exact hi.setPlace (Noticed.of_runs hi.scheduler hr (by simp))
  | leave c p l =>
    simp only [KillableLoops.step, Option.ite_none_right_eq_some, Option.some.injEq] at he
    obtain ⟨-, rfl⟩ := he
    exact hi.setPlace .outside

theorem Inv.initial (h₀ : Initial initialProcess s) : Inv s :=
  ⟨.initial h₀.scheduler, fun p => by rw [h₀.place p]; exact .outside⟩

/-- In a run in which no process is killed between its call of `isKilled` and that of
`sleepWithLock`, no process that is killed sleeps in one of the loops, whoever holds
its lock. -/
theorem killed_not_asleep {s₀ : State κ} {es : List (Event κ)} (h₀ : Initial initialProcess s₀)
    (hs : Transition.run (step initialProcess) s₀ es = some s)
    (hno : ∀ fs e s₁, fs ++ [e] <+: es → Transition.run (step initialProcess) s₀ fs = some s₁ →
      ¬ s₁.Misses e) (p : Slot)
    (hk : (s.scheduler.table p).isKilled = true) (hp : s.place p ≠ .outside) :
    (s.scheduler.table p).state ≠ .sleeping := by
  have hi := Transition.run_inv_of_steps (Inv.initial h₀)
    (fun s e s' hi he hno => hi.step he hno) hno es s (List.prefix_refl _) hs
  have h := hi.noticed p
  cases hx : s.place p with
  | outside => exact absurd hx hp
  | asleep l => exact (h.asleep l hx hk).1
  | head l | unchecked l | checked l => exact (h.busy (by rw [hx]; rfl)).1

end

/-! ## Two processes on two CPUs -/

def boot : State Bool := ⟨Scheduler.boot, fun _ => .outside⟩

theorem boot_initial : Initial 0 boot := ⟨Scheduler.boot_initial, fun _ => rfl⟩

/-- The first process has a child on the other CPU, and is about to wait for a pipe. -/
def twoProcesses : List (Event Bool) :=
  [.scheduler (.lockNext false 0), .scheduler (.test false 0),
    .scheduler (.resumed false 0 .forkReturn), .scheduler (.fork false 0 1 true),
    .scheduler (.setParent false 0 1), .scheduler (.setRunnable false 0 1),
    .scheduler (.lockNext true 1), .scheduler (.test true 1),
    .scheduler (.resumed true 1 .forkReturn), .enter false 0 (.pipeRead 7),
    .mustWait false 0 (.pipeRead 7)]

/-- `sleepOn`, up to the scheduler. -/
def fallAsleep : List (Event Bool) :=
  [.scheduler (.sleepWithLock false 0 (.other 7)), .scheduler (.releaseLock false 0 (.other 7)),
    .scheduler (.putProcessToSleep false 0 (.other 7)),
    .scheduler (.switchToScheduler false 0 (.sleepWithLock (.other 7))), .scheduler (.back false 0)]

/-- The first process finds nothing in the pipe, and sleeps. -/
def slept : List (Event Bool) := twoProcesses ++ [.isKilled false 0 (.pipeRead 7)] ++ fallAsleep

def Event.isKill : Event Bool → Bool
  | .scheduler (.kill _ _ _ _) => true
  | _ => false

/-- The child kills the sleeper, which is runnable then. -/
theorem killed_not_asleep_woken : ∃ s : State Bool,
    Transition.run (step 0) boot (slept ++ [.scheduler (.kill true 1 0 true)]) = some s ∧
    (s.scheduler.table 0).isKilled = true ∧
      (s.scheduler.table 0).state ≠ .sleeping := by
  have hrun : (Transition.run (step 0) boot (slept ++ [.scheduler (.kill true 1 0 true)])).any (fun s =>
        (s.scheduler.table 0).isKilled = true ∧ s.place 0 ≠ .outside) = true := by
    decide +kernel
  have hbefore : (Transition.run (step 0) boot slept).all
      (fun s => s.place 0 = .asleep (.pipeRead 7)) = true := by
    decide +kernel
  have hkills : slept.all (fun e => !e.isKill) = true := by
    decide
  obtain ⟨s, hs, h⟩ := (Option.any_eq_true _ _).mp hrun
  obtain ⟨hk, hp⟩ := of_decide_eq_true h
  refine ⟨s, hs, hk, killed_not_asleep boot_initial hs (fun fs e s₁ hpre hs₁ hmiss => ?_) 0 hk hp⟩
  obtain heq | hpre := List.prefix_concat_iff.mp hpre
  · -- the kill itself comes when the process is asleep
    obtain ⟨rfl, hlast⟩ := List.append_inj' heq rfl
    obtain rfl := (List.cons.inj hlast).1
    rw [hs₁] at hbefore
    obtain ⟨l, hl⟩ := hmiss
    have hasleep : s₁.place 0 = .asleep (.pipeRead 7) := by simpa using hbefore
    rw [hasleep] at hl
    cases hl
  · have hno := List.all_eq_true.mp hkills e (hpre.subset (by simp))
    unfold State.Misses at hmiss
    split at hmiss
    · cases hno
    · exact hmiss

/-- The child kills it between its call of `isKilled` and that of `sleepWithLock`. -/
theorem killed_asleep : ∃ s : State Bool,
    Transition.run (step 0) boot (twoProcesses ++ [.isKilled false 0 (.pipeRead 7),
      .scheduler (.kill true 1 0 true)] ++ fallAsleep) = some s ∧ s.scheduler.lock 0 = none ∧
      (s.scheduler.table 0).isKilled = true ∧ s.place 0 = .asleep (.pipeRead 7) ∧
      (s.scheduler.table 0).state = .sleeping := by
  have hrun : (Transition.run (step 0) boot (twoProcesses ++ [.isKilled false 0 (.pipeRead 7),
      .scheduler (.kill true 1 0 true)] ++ fallAsleep)).any (fun s =>
        s.scheduler.lock 0 = none ∧ (s.scheduler.table 0).isKilled = true ∧
          s.place 0 = .asleep (.pipeRead 7) ∧ (s.scheduler.table 0).state = .sleeping) = true := by
    decide +kernel
  obtain ⟨s, hs, h⟩ := (Option.any_eq_true _ _).mp hrun
  exact ⟨s, hs, of_decide_eq_true h⟩

end Zigmaos.KillableLoops
