import Zigmaos.SchedulerInvariant

/-!
# The state machine of the scheduler

What one event can do to the state and to the stage of a process, and from it
that a process is executed by one CPU at most, and only where its state says so.
-/
namespace Zigmaos.Scheduler

open ProcessTable (Slot nProc Process ProcessState Channel)

variable {κ : Type*} [DecidableEq κ]

/-! ## The states of a process -/

/-- How an event changes the state of a process. -/
inductive StateStep (s : State κ) (i : Slot) (e : Event κ) : ProcessState → ProcessState → Prop
  | same (x : ProcessState) : StateStep s i e x x
  | dispatched : StateStep s i e .runnable .running
  | yielded : StateStep s i e .running .runnable
  | slept (hg : s.stage i = .running ∨ ∃ channel, s.stage i = .sleepReleased channel) :
      StateStep s i e .running .sleeping
  | exited (c : κ) (status : ℤ) (he : e = .exit c i status) : StateStep s i e .running .zombie
  | woken : StateStep s i e .sleeping .runnable
  | allocated (hl : s.lock i = none) : StateStep s i e .unused .used
  | failed : StateStep s i e .used .unused
  | started (hl : s.lock i = none) (hg : s.stage i = .switched .forkReturn) :
      StateStep s i e .used .runnable
  | reaped (hl : s.lock i = none) : StateStep s i e .zombie .unused

omit [DecidableEq κ] in
theorem StateStep.setProcess {s : State κ} {i j : Slot} {e : Event κ} {x : Process}
    (h : StateStep s i e (s.table i).state x.state) :
    StateStep s j e (s.table j).state (Function.update s.table i x j).state := by
  by_cases hj : j = i
  · subst hj
    simpa using h
  · rw [Function.update_of_ne hj]
    exact .same _

theorem Inv.state_step {initialProcess : Slot} {s s' : State κ} (hi : Inv s) {e : Event κ}
    (h : Scheduler.step initialProcess s e = some s') (j : Slot) :
    StateStep s j e (s.table j).state (s'.table j).state := by
  cases e <;> simp only [Scheduler.step, Option.ite_none_right_eq_some, Option.some.injEq] at h
  case test c i =>
    obtain ⟨_, h⟩ := h
    split_ifs at h with hs
    · obtain rfl := Option.some.inj h
      exact StateStep.setProcess (by rw [hs]; exact .dispatched)
    · obtain rfl := Option.some.inj h
      exact .same _
  case resumed c p r =>
    obtain ⟨_, rfl⟩ := h
    refine StateStep.setProcess ?_
    cases r <;> exact .same _
  case yield c p =>
    obtain ⟨⟨hr, _⟩, rfl⟩ := h
    exact StateStep.setProcess (by rw [hi.running_of_runs hr]; exact .yielded)
  case sleep c p channel =>
    obtain ⟨⟨hr, _⟩, rfl⟩ := h
    exact StateStep.setProcess (by rw [hi.running_of_runs hr]; exact .slept (.inl hr.2.2))
  case putProcessToSleep c p channel =>
    obtain ⟨⟨hc, hg⟩, rfl⟩ := h
    obtain ⟨he, _⟩ := hi.entered hc (by simp [hg])
    rw [hg] at he
    have hr : (s.table p).state = .running := he
    exact StateStep.setProcess (by rw [hr]; exact .slept (.inr ⟨channel, hg⟩))
  case exit c p status =>
    obtain ⟨⟨hr, _⟩, rfl⟩ := h
    exact StateStep.setProcess (by rw [hi.running_of_runs hr]; exact .exited c status rfl)
  case fork c p i isCopied =>
    obtain ⟨⟨_, _, hl, hu⟩, h⟩ := h
    split_ifs at h
    · obtain rfl := Option.some.inj h
      exact StateStep.setProcess (by rw [hu]; exact .allocated hl)
    · obtain rfl := Option.some.inj h
      by_cases hj : j = i
      · subst hj
        simp only [State.setProcess, Function.update_self, hu]
        exact .same _
      · simp only [State.setProcess, State.setStage, State.startInit, Function.update_of_ne hj]
        exact .same _
  case forkInitFails c p i =>
    obtain ⟨⟨_, _, hl, hu⟩, rfl⟩ := h
    exact StateStep.setProcess (by rw [hu]; exact .allocated hl)
  case freeFailed c p i =>
    obtain ⟨⟨_, hf⟩, rfl⟩ := h
    have hu := hi.children.used p i (by simp [hf, Phase.child])
    exact StateStep.setProcess (by rw [hu]; exact .failed)
  case setParent c p i =>
    obtain ⟨_, rfl⟩ := h
    exact StateStep.setProcess (.same _)
  case setRunnable c p i =>
    obtain ⟨⟨_, hf, hl⟩, rfl⟩ := h
    have hu := hi.children.used p i (by simp [hf, Phase.child])
    exact StateStep.setProcess (by rw [hu]; exact .started hl (hi.children.saved p i (.inr hf)))
  case reparent c p i =>
    obtain ⟨_, rfl⟩ := h
    exact StateStep.setProcess (.same _)
  case reap c p i =>
    obtain ⟨⟨_, _, _, hl, hz⟩, rfl⟩ := h
    exact StateStep.setProcess (by rw [hz]; exact .reaped hl)
  case kill c p i wakes =>
    obtain ⟨_, rfl⟩ := h
    refine StateStep.setProcess ?_
    simp only [killed]
    split_ifs with hs
    · rw [hs.2]; exact .woken
    · exact .same _
  case wakeNext c a channel k =>
    obtain ⟨_, h⟩ := h
    split_ifs at h
    · obtain rfl := Option.some.inj h
      exact .same _
    · obtain rfl := Option.some.inj h
      refine StateStep.setProcess ?_
      unfold wake
      split_ifs with hs
      · rw [hs.1]; exact .woken
      · exact .same _
    · obtain rfl := Option.some.inj h
      exact .same _
  all_goals
    obtain ⟨_, rfl⟩ := h
    exact .same _

/-- How an event changes the stage of a process. -/
inductive StageStep (p : Slot) : Event κ → Stage → Stage → Prop
  | same (e : Event κ) (g : Stage) : StageStep p e g g
  | switched (c : κ) (r : Reason) :
      StageStep p (.switchToScheduler c p r) (.switching r) (.switched r)
  | resumed (c : κ) (r : Reason) : StageStep p (.resumed c p r) (.switched r) .running
  | yield (c : κ) : StageStep p (.yield c p) .running (.switching .yield)
  | sleep (c : κ) (channel : Channel) :
      StageStep p (.sleep c p channel) .running (.switching (.sleep channel))
  | sleepWithLock (c : κ) (channel : Channel) :
      StageStep p (.sleepWithLock c p channel) .running (.sleepLocked channel)
  | releaseLock (c : κ) (channel : Channel) :
      StageStep p (.releaseLock c p channel) (.sleepLocked channel) (.sleepReleased channel)
  | putProcessToSleep (c : κ) (channel : Channel) :
      StageStep p (.putProcessToSleep c p channel) (.sleepReleased channel)
        (.switching (.sleepWithLock channel))
  | exit (c : κ) (status : ℤ) : StageStep p (.exit c p status) .running (.switching .exit)
  | fork (c : κ) (q : Slot) (isCopied : Bool) (g : Stage) :
      StageStep p (.fork c q p isCopied) g (.switched .forkReturn)

omit [DecidableEq κ] in
theorem StageStep.setStage {s : State κ} {e : Event κ} {i : Slot} {g : Stage}
    (h : StageStep i e (s.stage i) g) (j : Slot) :
    StageStep j e (s.stage j) (Function.update s.stage i g j) := by
  by_cases hj : j = i
  · subst hj
    simpa using h
  · rw [Function.update_of_ne hj]
    exact .same _ _

theorem stage_step {initialProcess : Slot} {s s' : State κ} {e : Event κ}
    (h : Scheduler.step initialProcess s e = some s') (j : Slot) :
    StageStep j e (s.stage j) (s'.stage j) := by
  cases e <;> simp only [Scheduler.step, Option.ite_none_right_eq_some, Option.some.injEq] at h
  case test c i =>
    obtain ⟨_, h⟩ := h
    split_ifs at h
    · obtain rfl := Option.some.inj h
      exact .same _ _
    · obtain rfl := Option.some.inj h
      exact .same _ _
  case switchToScheduler c p r =>
    obtain ⟨⟨_, hg⟩, rfl⟩ := h
    exact StageStep.setStage (by rw [hg]; exact .switched c r) j
  case resumed c p r =>
    obtain ⟨⟨_, hg⟩, rfl⟩ := h
    exact StageStep.setStage (by rw [hg]; exact .resumed c r) j
  case yield c p =>
    obtain ⟨⟨hr, _⟩, rfl⟩ := h
    exact StageStep.setStage (by rw [hr.2.2]; exact .yield c) j
  case sleep c p channel =>
    obtain ⟨⟨hr, _⟩, rfl⟩ := h
    exact StageStep.setStage (by rw [hr.2.2]; exact .sleep c channel) j
  case sleepWithLock c p channel =>
    obtain ⟨⟨hr, _⟩, rfl⟩ := h
    exact StageStep.setStage (by rw [hr.2.2]; exact .sleepWithLock c channel) j
  case releaseLock c p channel =>
    obtain ⟨⟨_, hg⟩, rfl⟩ := h
    exact StageStep.setStage (by rw [hg]; exact .releaseLock c channel) j
  case putProcessToSleep c p channel =>
    obtain ⟨⟨_, hg⟩, rfl⟩ := h
    exact StageStep.setStage (by rw [hg]; exact .putProcessToSleep c channel) j
  case exit c p status =>
    obtain ⟨⟨hr, _⟩, rfl⟩ := h
    exact StageStep.setStage (by rw [hr.2.2]; exact .exit c status) j
  case fork c p i isCopied =>
    obtain ⟨_, h⟩ := h
    split_ifs at h
    · obtain rfl := Option.some.inj h
      exact StageStep.setStage (.fork c p isCopied _) j
    · obtain rfl := Option.some.inj h
      exact StageStep.setStage (.fork c p isCopied _) j
  case wakeNext c a channel k =>
    obtain ⟨_, h⟩ := h
    split_ifs at h
    · obtain rfl := Option.some.inj h
      exact .same _ _
    · obtain rfl := Option.some.inj h
      exact .same _ _
    · obtain rfl := Option.some.inj h
      exact .same _ _
  all_goals
    obtain ⟨_, rfl⟩ := h
    exact .same _ _

/-- The CPU executes the process, or has come back from it and not yet given it up. -/
def State.Executes (s : State κ) (c : κ) (i : Slot) : Prop :=
  (s.cpu c).execution = .process i ∨ (s.cpu c).execution = .back i

theorem Inv.not_executes {s : State κ} (hi : Inv s) {i : Slot} (hl : s.lock i = none)
    (hs : (s.table i).state ≠ .running) (c : κ) : ¬ s.Executes c i := by
  intro hc
  have hv : roles s.cpu i c = none := by rw [((hi.slot i).of_free hl hs).2]
  obtain hc | hc := hc <;> simp [roles, hc] at hv

theorem Execution.of_running {x : Execution} {i : Slot} (h : x.running = some i) :
    x = .process i ∨ x = .back i := by
  cases x <;> simp_all [running]

theorem Execution.of_role {x : Execution} {i : Slot} (h : x.role i = some .process) :
    x = .process i := by
  cases x <;> simp_all

theorem Inv.executes_unique {s : State κ} (hi : Inv s) {c d : κ} {i : Slot}
    (hc : s.Executes c i) (hd : s.Executes d i) : c = d := by
  have hback : ∀ b b', (s.cpu b).execution = .back i → s.Executes b' i → b' = b := by
    intro b b' hb hb'
    obtain ⟨_, _, _, hv⟩ := (hi.slot i).of_back (c := b) (by simp [roles, hb])
    obtain hb' | hb' := hb'
    · have hr : roles s.cpu i b' = some .process := by simp [roles, hb']
      rw [hv] at hr
      exact (only_eq_some hr).1
    · have hr : roles s.cpu i b' = some .back := by simp [roles, hb']
      rw [hv] at hr
      exact (only_eq_some hr).1
  obtain hc' | hc' := hc
  · obtain hd' | hd' := hd
    · exact hi.cpu_unique hc' hd'
    · exact hback d c hd' (.inl hc')
  · exact (hback c d hc' hd).symm

theorem Inv.executes_of_runningProcess {s : State κ} (hi : Inv s) {c : κ} {i : Slot}
    (h : (s.cpu c).runningProcess = some i) : s.Executes c i :=
  Execution.of_running (by rw [← hi.runningProcess, h])

theorem Inv.running_iff {s : State κ} (hi : Inv s) {i : Slot} (hl : s.lock i = none) :
    (s.table i).state = .running ↔ ∃! c, (s.cpu c).runningProcess = some i := by
  constructor
  · intro hs
    cases hi.slot i with
    | away r hg he ho hv => exact absurd hs he.state
    | held c r x hx hg he ho hv => rw [hl] at ho; cases ho
    | entered c he ho hv => rw [hl] at ho; cases ho
    | watched c d hd hg he ho hv => rw [hl] at ho; cases ho
    | runs c hg he ho hv =>
      have hr : roles s.cpu i c = some .process := by rw [hv, only_self]
      refine ⟨c, ?_, fun d hd => ?_⟩
      · simp [hi.runningProcess c, Execution.of_role hr, Execution.running]
      · exact hi.executes_unique (hi.executes_of_runningProcess hd) (.inl (Execution.of_role hr))
  · intro h
    obtain ⟨c, hc, _⟩ := h
    by_contra hs
    exact hi.not_executes hl hs c (hi.executes_of_runningProcess hc)

/-- A CPU goes on with the context of a process only where `loop` has found it runnable. -/
theorem Inv.resumes {initialProcess : Slot} {s s' : State κ} (hi : Inv s) {e : Event κ}
    (h : Scheduler.step initialProcess s e = some s') {c : κ} {i : Slot}
    (hc : (s.cpu c).execution ≠ .process i) (hc' : (s'.cpu c).execution = .process i) :
    (s.table i).state = .runnable ∧ ∃ r, r ≠ .exit ∧ s.stage i = .switched r := by
  have hother : ∀ d u, u.execution ≠ .process i →
      (Function.update s.cpu d u c).execution ≠ .process i := by
    intro d u hu
    by_cases hd : c = d
    · subst hd
      simpa using hu
    · simpa [Function.update_of_ne hd] using hc
  cases e <;> simp only [Scheduler.step, Option.ite_none_right_eq_some, Option.some.injEq] at h
  case lockNext d j =>
    obtain ⟨_, rfl⟩ := h
    exact absurd hc' (hother d _ (by simp))
  case test d j =>
    obtain ⟨hd, h⟩ := h
    split_ifs at h with hs
    · obtain rfl := Option.some.inj h
      by_cases hj : j = i
      · subst hj
        obtain ⟨r, hg, he, _⟩ | ⟨_, _, _, hr, _⟩ :=
          (hi.slot j).of_locked (c := d) (by simp [roles, hd])
        · refine ⟨hs, r, fun hx => ?_, hg⟩
          obtain h | h | h := he.exit hx
          · simp [hs] at h
          · simp [hs] at h
          · simp [hs] at h
        · simp [hs] at hr
      · exact absurd hc' (hother d _ (by simpa using hj))
    · obtain rfl := Option.some.inj h
      exact absurd hc' (hother d _ (by simp))
  case back d j =>
    obtain ⟨_, rfl⟩ := h
    exact absurd hc' (hother d _ (by simp))
  case switchToScheduler d p r =>
    obtain ⟨_, rfl⟩ := h
    exact absurd hc' (hother d _ (by simp))
  case fork d p j isCopied =>
    obtain ⟨_, h⟩ := h
    split_ifs at h
    · obtain rfl := Option.some.inj h
      exact absurd hc' hc
    · obtain rfl := Option.some.inj h
      exact absurd hc' hc
  case wakeNext d a channel k =>
    obtain ⟨_, h⟩ := h
    split_ifs at h
    · obtain rfl := Option.some.inj h
      exact absurd hc' hc
    · obtain rfl := Option.some.inj h
      exact absurd hc' hc
    · obtain rfl := Option.some.inj h
      exact absurd hc' hc
  all_goals
    obtain ⟨_, rfl⟩ := h
    exact absurd hc' hc

/-- The lock of a process is handed over with the CPU: what its record says of it
while the lock is free, from where it is resumed, and when its slot changes hands. -/
theorem scheduling_safe {initialProcess : Slot} {s₀ s : State κ} {events : List (Event κ)}
    (h₀ : Initial initialProcess s₀)
    (h : Transition.run (Scheduler.step initialProcess) s₀ events = some s) :
    (∀ i c d, (s.cpu c).runningProcess = some i → (s.cpu d).runningProcess = some i → c = d) ∧
    (∀ i, s.lock i = none →
      ((s.table i).state = .running ↔ ∃! c, (s.cpu c).runningProcess = some i) ∧
      ((s.table i).state ≠ .running → ∀ c, ¬ s.Executes c i)) ∧
    ∀ e s', Scheduler.step initialProcess s e = some s' → ∀ i,
      (∀ c, (s.cpu c).execution ≠ .process i → (s'.cpu c).execution = .process i →
        (s.table i).state = .runnable ∧ s.stage i ≠ .switched .exit) ∧
      ((s.table i).state = .zombie → (s'.table i).state ≠ .zombie →
        (s'.table i).state = .unused ∧ s.stage i = .switched .exit ∧ ∀ c, ¬ s.Executes c i) ∧
      ((s.table i).state = .unused → (s'.table i).state ≠ .unused →
        (s'.table i).state = .used ∧ ∀ c, ¬ s.Executes c i) ∧
      ((s.table i).state = .used → (s'.table i).state ≠ .used → (s'.table i).state ≠ .unused →
        (s'.table i).state = .runnable ∧ s.stage i = .switched .forkReturn ∧
          ∀ c, ¬ s.Executes c i) := by
  have hi : Inv s := Inv.run h₀ h
  refine ⟨?_, ?_, ?_⟩
  · intro i c d hc hd
    exact hi.executes_unique (hi.executes_of_runningProcess hc) (hi.executes_of_runningProcess hd)
  · intro i hl
    exact ⟨hi.running_iff hl, fun hs => hi.not_executes hl hs⟩
  · intro e s' he i
    have hst := hi.state_step he i
    refine ⟨?_, ?_, ?_, ?_⟩
    · intro c hc hc'
      obtain ⟨hs, r, hr, hg⟩ := hi.resumes he hc hc'
      exact ⟨hs, by simpa [hg] using hr⟩
    · intro hz hz'
      generalize hx : (s'.table i).state = x at hst hz' ⊢
      rw [hz] at hst
      cases hst with
      | same => exact absurd rfl hz'
      | reaped hl =>
        obtain ⟨⟨r, hg, hr⟩, _⟩ := (hi.slot i).of_free hl (by simp [hz])
        rw [hr.zombie hz] at hg
        exact ⟨rfl, hg, hi.not_executes hl (by simp [hz])⟩
    · intro hu hu'
      generalize hx : (s'.table i).state = x at hst hu' ⊢
      rw [hu] at hst
      cases hst with
      | same => exact absurd rfl hu'
      | allocated hl => exact ⟨rfl, hi.not_executes hl (by simp [hu])⟩
    · intro hu hu' hn
      generalize hx : (s'.table i).state = x at hst hu' hn ⊢
      rw [hu] at hst
      cases hst with
      | same => exact absurd rfl hu'
      | failed => exact absurd rfl hn
      | started hl hg => exact ⟨rfl, hg, hi.not_executes hl (by simp [hu])⟩

/-- The first process in slot 0, and two CPUs. -/
def boot : State Bool where
  table i := if i = 0 then { Process.freed with state := .runnable, pid := 1 } else .freed
  nextProcessId := 2
  lock _ := none
  cpu _ := ⟨none, .scheduler⟩
  handler _ := false
  stage _ := .switched .forkReturn
  phase _ := .code

theorem boot_initial : Initial 0 boot := by
  constructor
  · rfl
  · intro i hi
    simp [boot, hi]
  all_goals intro i; rfl

/-- One CPU has switched to the process, and the other one has looked at it. -/
theorem scheduling_safe_boot :
    ∃ s, Transition.run (step 0) boot [.lockNext false 0, .test false 0,
        .resumed false 0 .forkReturn, .lockNext true 0, .test true 0] = some s ∧
      s.lock 0 = none ∧
      ((s.table 0).state = .running ↔ ∃! c, (s.cpu c).runningProcess = some 0) := by
  have hrun : (Transition.run (step 0) boot [.lockNext false 0, .test false 0,
      .resumed false 0 .forkReturn, .lockNext true 0, .test true 0]).any
        (fun s => decide (s.lock 0 = none)) = true := by decide +kernel
  obtain ⟨s, hs, hl⟩ := (Option.any_eq_true _ _).mp hrun
  have hl : s.lock 0 = none := of_decide_eq_true hl
  exact ⟨s, hs, hl, ((scheduling_safe boot_initial hs).2.1 0 hl).1⟩

end Zigmaos.Scheduler
