import Zigmaos.SleepLock

/-!
# Mutual exclusion of sleep locks

The spin lock is held by the process that is about to store the fields or has
just stored them. The fields say that the lock is held from the end of `acquire`
to the start of `release`, by the one process that is in between.
-/
namespace Zigmaos.SleepLock

open ProcessTable (Slot nProc Process ProcessState Channel)
open Scheduler (Agent)

variable {κ : Type*}

def Position.hasSpinLock : Position → Bool
  | .taken | .releasing | .released | .waking => true
  | _ => false

/-- The fields are those of the process. -/
def Position.owns : Position → Bool
  | .taken | .inside | .releasing => true
  | _ => false

variable [DecidableEq κ] {channel : Channel} {initialProcess : Slot} {s s' : State κ}

variable (channel) in
structure Inv (s : State κ) : Prop where
  monitor : SleepWakeup.Inv channel isFree s.monitor
  acquiring : ∀ p, s.monitor.scheduler.stage p = .sleepLocked channel → s.position p = .acquiring
  spinLock : ∀ p, (s.position p).hasSpinLock = true → s.monitor.mutex = some (.process p)
  alive : ∀ p, s.position p ≠ .outside → s.monitor.scheduler.Alive p
  owner : ∀ p, (s.position p).owns = true →
    s.monitor.data = ⟨true, some (s.monitor.scheduler.table p).pid⟩
  unique : ∀ p q, (s.position p).owns = true → (s.position q).owns = true → p = q
  owned : s.monitor.data.isLocked = true → ∃ p, (s.position p).owns = true

theorem Inv.initial (h : Initial initialProcess s) : Inv channel s where
  monitor := .initial h.monitor
  acquiring p hp := by simp [h.monitor.scheduler.stage] at hp
  spinLock p hp := by simp [h.position, Position.hasSpinLock] at hp
  alive p hp := absurd (h.position p) hp
  owner p hp := by simp [h.position, Position.owns] at hp
  unique p q hp := by simp [h.position, Position.owns] at hp
  owned hl := by simp [h.isLocked] at hl

/-- What an event of the scheduler changes, as far as the sleep lock goes. -/
theorem Inv.scheduler_step (hi : Inv channel s) {e : Scheduler.Event κ}
    {m : SleepWakeup.State κ SleepLock}
    (h : SleepWakeup.step channel isFree initialProcess s.monitor (.scheduler e) = some m)
    (hexit : ∀ c p status, e = .exit c p status → s.position p = .outside) :
    m.data = s.monitor.data ∧
    (∀ p, (s.position p).hasSpinLock = true → m.mutex = some (.process p)) ∧
    (∀ p, s.position p ≠ .outside → m.scheduler.Alive p ∧
      (m.scheduler.table p).pid = (s.monitor.scheduler.table p).pid) ∧
    ∀ p, m.scheduler.stage p = .sleepLocked channel →
      s.position p = .acquiring ∨ ∃ c, e = .sleepWithLock c p channel := by
  simp only [SleepWakeup.step, Option.ite_none_right_eq_some, Option.map_eq_some_iff] at h
  obtain ⟨ha, t, ht, rfl⟩ := h
  refine ⟨by simp, ?_, ?_, ?_⟩
  · intro p hp
    have hm := hi.spinLock p hp
    by_contra hne
    obtain ⟨c, q, rfl | rfl⟩ := SleepWakeup.follow_mutex (by rw [hm]; exact hne)
    · simp only [Scheduler.step, Option.ite_none_right_eq_some] at ht
      have hq := (hi.monitor.locked q ht.1.2).1
      rw [hm] at hq
      have hpq : p = q := by simpa using hq
      rw [hpq, hi.acquiring q ht.1.2] at hp
      cases hp
    · simp [SleepWakeup.allowed, hm] at ha
  · intro p hp
    have hlive := hi.alive p hp
    simp only [SleepWakeup.follow_scheduler]
    refine ⟨hi.monitor.scheduler.alive_step ht hlive ?_, hi.monitor.scheduler.pid_step ht hlive⟩
    intro c status he
    exact hp (hexit c p status he)
  · intro p hp
    have hg := Scheduler.stage_step ht p
    simp only [SleepWakeup.follow_scheduler] at hp
    rw [hp] at hg
    generalize hx : s.monitor.scheduler.stage p = x at hg
    cases hg with
    | same => exact .inl (hi.acquiring p hx)
    | sleepWithLock c => exact .inr ⟨c, rfl⟩

/-- An event of the scheduler, by which at most one process comes to another
position, where it owns the lock if it did before. -/
theorem Inv.of_scheduler (hi : Inv channel s) {e : Scheduler.Event κ}
    {m : SleepWakeup.State κ SleepLock} {position : Slot → Position}
    (h : SleepWakeup.step channel isFree initialProcess s.monitor (.scheduler e) = some m)
    (hexit : ∀ c p status, e = .exit c p status → s.position p = .outside)
    (hsleep : ∀ c p, e = .sleepWithLock c p channel → position p = .acquiring)
    (ho : ∀ p, (position p).owns = (s.position p).owns)
    (hl : ∀ p, (position p).hasSpinLock = true → (s.position p).hasSpinLock = true)
    (hp : ∀ p, position p ≠ .outside → s.position p ≠ .outside)
    (ha : ∀ p, s.position p = .acquiring → position p = .acquiring) :
    Inv channel ⟨m, position⟩ := by
  obtain ⟨hdata, hmutex, halive, hstage⟩ := hi.scheduler_step h hexit
  refine ⟨hi.monitor.step h, fun p hg => ?_, fun p hq => hmutex p (hl p hq),
    fun p hq => (halive p (hp p hq)).1, fun p hq => ?_, fun p q hq hq' => ?_, fun hd => ?_⟩
  · obtain hx | ⟨c, he⟩ := hstage p hg
    · exact ha p hx
    · exact hsleep c p he
  · rw [ho] at hq
    have hne : s.position p ≠ .outside := fun hx => by rw [hx] at hq; cases hq
    simp only [hdata, (halive p hne).2]
    exact hi.owner p hq
  · rw [ho] at hq hq'
    exact hi.unique p q hq hq'
  · simp only [hdata] at hd
    obtain ⟨p, hq⟩ := hi.owned hd
    exact ⟨p, by rw [ho]; exact hq⟩

/-- An event of the process on the lock or the fields: it is executed, and has
the spin lock before or after the event. -/
theorem Inv.of_ready (hi : Inv channel s) {c : κ} {p : Slot} {x : Position}
    {m : SleepWakeup.State κ SleepLock}
    (hm : SleepWakeup.Inv channel isFree m) (hs : m.scheduler = s.monitor.scheduler)
    (hr : s.monitor.scheduler.Runs c p)
    (hothers : ∀ q, q ≠ p → (s.position q).hasSpinLock = false)
    (hspin : x.hasSpinLock = true → m.mutex = some (.process p))
    (hdata : x.owns = true → m.data = ⟨true, some (s.monitor.scheduler.table p).pid⟩)
    (hfree : ∀ q, q ≠ p → (s.position q).owns = true → m.data = s.monitor.data ∧ x.owns = false)
    (howned : m.data.isLocked = true → x.owns = true ∨ ∃ q, q ≠ p ∧ (s.position q).owns = true) :
    Inv channel ⟨m, Function.update s.position p x⟩ := by
  have hstage : ∀ q, m.scheduler.stage q = .sleepLocked channel → q ≠ p := by
    intro q hq hqp
    rw [hs, hqp, hr.2.2] at hq
    cases hq
  refine ⟨hm, fun q hq => ?_, fun q hq => ?_, fun q hq => ?_, fun q hq => ?_,
    fun q q' hq hq' => ?_, fun hl => ?_⟩
  · have hqp := hstage q hq
    simp only [hs] at hq
    simpa [Function.update_of_ne hqp] using hi.acquiring q hq
  · by_cases hqp : q = p
    · subst hqp
      exact hspin (by simpa using hq)
    · simp [Function.update_of_ne hqp, hothers q hqp] at hq
  · simp only [hs]
    by_cases hqp : q = p
    · rw [hqp]
      exact .inl (hi.monitor.scheduler.running_of_runs hr)
    · exact hi.alive q (by simpa [Function.update_of_ne hqp] using hq)
  · simp only [hs]
    by_cases hqp : q = p
    · subst hqp
      exact hdata (by simpa using hq)
    · dsimp only at hq
      rw [Function.update_of_ne hqp] at hq
      rw [(hfree q hqp hq).1]
      exact hi.owner q hq
  · dsimp only at hq hq'
    by_cases hqp : q = p
    · by_cases hqp' : q' = p
      · rw [hqp, hqp']
      · rw [hqp, Function.update_self] at hq
        rw [Function.update_of_ne hqp'] at hq'
        rw [(hfree q' hqp' hq').2] at hq
        cases hq
    · rw [Function.update_of_ne hqp] at hq
      by_cases hqp' : q' = p
      · rw [hqp', Function.update_self, (hfree q hqp hq).2] at hq'
        cases hq'
      · rw [Function.update_of_ne hqp'] at hq'
        exact hi.unique q q' hq hq'
  · obtain hx | ⟨q, hqp, hq⟩ := howned hl
    · exact ⟨p, by simpa using hx⟩
    · exact ⟨q, by simpa [Function.update_of_ne hqp] using hq⟩

theorem Inv.step (hi : Inv channel s) {e : Event κ}
    (h : SleepLock.step channel initialProcess s e = some s') : Inv channel s' := by
  -- nobody else has the spin lock of the process
  have hothers : ∀ p, s.monitor.mutex = none ∨ s.monitor.mutex = some (.process p) → ∀ q, q ≠ p →
      (s.position q).hasSpinLock = false := by
    intro p hm q hqp
    by_contra hq
    have := hi.spinLock q (by simpa using hq)
    obtain hm | hm := hm
    · rw [hm] at this; cases this
    · rw [hm] at this
      exact hqp (by simpa [eq_comm] using this)
  cases e with
  | other e =>
    simp only [SleepLock.step, Option.ite_none_right_eq_some, Option.map_eq_some_iff] at h
    obtain ⟨hperm, m, hm, rfl⟩ := h
    refine hi.of_scheduler hm ?_ ?_ (fun _ => rfl) (fun _ => id) (fun _ => id) (fun _ => id)
    · intro c p status he
      subst he
      have hp : (s.position p = .outside ∨ s.position p = .inside) ∧ s.position p = .outside := by
        simpa [State.permits, Scheduler.Event.caller] using hperm
      exact hp.2
    · intro c p he
      subst he
      simp [State.permits] at hperm
  | acquire c p =>
    simp only [SleepLock.step, State.perform, Option.ite_none_right_eq_some,
      Option.map_eq_some_iff] at h
    obtain ⟨hp, m, hm, rfl⟩ := h
    have hmi := hi.monitor.step hm
    simp only [SleepWakeup.step, Option.ite_none_right_eq_some, Option.some.injEq] at hm
    obtain ⟨⟨hr, hmx⟩, rfl⟩ := hm
    refine hi.of_ready (c := c) hmi rfl hr.1 (hothers p (.inl hmx)) (by simp [Position.hasSpinLock])
      (by simp [Position.owns]) (fun _ _ _ => ⟨rfl, rfl⟩) fun hl => ?_
    obtain ⟨q, hq⟩ := hi.owned hl
    refine .inr ⟨q, fun hqp => ?_, hq⟩
    rw [hqp, hp] at hq
    cases hq
  | sleep c p =>
    simp only [SleepLock.step, State.perform, Option.ite_none_right_eq_some,
      Option.map_eq_some_iff] at h
    obtain ⟨⟨hp, _⟩, m, hm, rfl⟩ := h
    have hsame : Function.update s.position p .acquiring = s.position := by
      rw [← hp]; exact Function.update_eq_self p s.position
    rw [hsame]
    refine hi.of_scheduler hm (by simp) ?_ (fun _ => rfl) (fun _ => id) (fun _ => id) (fun _ => id)
    intro c' q he
    cases he
    exact hp
  | take c p =>
    simp only [SleepLock.step, State.perform, Option.ite_none_right_eq_some,
      Option.map_eq_some_iff] at h
    obtain ⟨⟨hp, hfree⟩, m, hm, rfl⟩ := h
    have hmi := hi.monitor.step hm
    simp only [SleepWakeup.step, Option.ite_none_right_eq_some, Option.some.injEq] at hm
    obtain ⟨⟨hr, hmx⟩, rfl⟩ := hm
    refine hi.of_ready (c := c) hmi rfl hr.1 (hothers p (.inr hmx)) (fun _ => hmx) (fun _ => rfl)
      (fun q _ hq => ?_) (fun _ => .inl rfl)
    rw [hi.owner q hq] at hfree
    cases hfree
  | acquired c p =>
    simp only [SleepLock.step, State.perform, Option.ite_none_right_eq_some,
      Option.map_eq_some_iff] at h
    obtain ⟨hp, m, hm, rfl⟩ := h
    have hmi := hi.monitor.step hm
    simp only [SleepWakeup.step, Option.ite_none_right_eq_some, Option.some.injEq] at hm
    obtain ⟨⟨hr, hmx⟩, rfl⟩ := hm
    have hown : (s.position p).owns = true := by rw [hp]; rfl
    refine hi.of_ready (c := c) hmi rfl hr.1 (hothers p (.inr hmx)) (by simp [Position.hasSpinLock])
      (fun _ => hi.owner p hown) (fun q hqp hq => ?_) (fun _ => .inl rfl)
    exact absurd (hi.unique q p hq hown) hqp
  | release c p =>
    simp only [SleepLock.step, State.perform, Option.ite_none_right_eq_some,
      Option.map_eq_some_iff] at h
    obtain ⟨hp, m, hm, rfl⟩ := h
    have hmi := hi.monitor.step hm
    simp only [SleepWakeup.step, Option.ite_none_right_eq_some, Option.some.injEq] at hm
    obtain ⟨⟨hr, hmx⟩, rfl⟩ := hm
    have hown : (s.position p).owns = true := by rw [hp]; rfl
    refine hi.of_ready (c := c) hmi rfl hr.1 (hothers p (.inl hmx)) (fun _ => rfl)
      (fun _ => hi.owner p hown) (fun q hqp hq => ?_) (fun _ => .inl rfl)
    exact absurd (hi.unique q p hq hown) hqp
  | reset c p =>
    simp only [SleepLock.step, State.perform, Option.ite_none_right_eq_some,
      Option.map_eq_some_iff] at h
    obtain ⟨hp, m, hm, rfl⟩ := h
    have hmi := hi.monitor.step hm
    simp only [SleepWakeup.step, Option.ite_none_right_eq_some, Option.some.injEq] at hm
    obtain ⟨⟨hr, hmx⟩, rfl⟩ := hm
    have hown : (s.position p).owns = true := by rw [hp]; rfl
    refine hi.of_ready (c := c) hmi rfl hr.1 (hothers p (.inr hmx)) (fun _ => hmx)
      (by simp [Position.owns]) (fun q hqp hq => ?_) (by simp)
    exact absurd (hi.unique q p hq hown) hqp
  | wakeup c p =>
    simp only [SleepLock.step, State.perform, Option.ite_none_right_eq_some,
      Option.map_eq_some_iff] at h
    obtain ⟨hp, m, hm, rfl⟩ := h
    have hposition : ∀ q, q ≠ p → Function.update s.position p .waking q = s.position q :=
      fun q hq => Function.update_of_ne hq _ _
    refine hi.of_scheduler hm (by simp) (by simp) ?_ ?_ ?_ ?_
    all_goals intro q
    all_goals by_cases hqp : q = p
    all_goals first
      | rw [hposition q hqp]; try exact id
      | rw [hqp, Function.update_self, hp]; simp [Position.owns, Position.hasSpinLock]
  | released c p =>
    simp only [SleepLock.step, State.perform, Option.ite_none_right_eq_some,
      Option.map_eq_some_iff] at h
    obtain ⟨hp, m, hm, rfl⟩ := h
    have hmi := hi.monitor.step hm
    simp only [SleepWakeup.step, Option.ite_none_right_eq_some, Option.some.injEq] at hm
    obtain ⟨⟨hr, hmx⟩, rfl⟩ := hm
    refine hi.of_ready (c := c) hmi rfl hr.1 (hothers p (.inr hmx)) (by simp [Position.hasSpinLock])
      (by simp [Position.owns]) (fun _ _ _ => ⟨rfl, rfl⟩) fun hl => ?_
    obtain ⟨q, hq⟩ := hi.owned hl
    refine .inr ⟨q, fun hqp => ?_, hq⟩
    rw [hqp, hp] at hq
    cases hq

theorem Inv.run {s₀ : State κ} {events : List (Event κ)} (h₀ : Initial initialProcess s₀)
    (h : Transition.run (SleepLock.step channel initialProcess) s₀ events = some s) :
    Inv channel s := by
  refine Transition.run_induction (P := fun _ s => Inv channel s) (.initial h₀) ?_ events s h
  intro _ _ _ _ _ hi he
  exact hi.step he

/-- A process that sleeps on the channel of a condition, while the condition is
true, has a wakeup before it. The same for sleep locks, which are mutual
exclusion and name their holder. -/
theorem no_lost_wakeup (σ : Type*) (channel : Channel) (initialProcess : Slot) :
    (∀ (condition : Slot → σ → Bool) (s₀ s : SleepWakeup.State κ σ) events,
      SleepWakeup.Initial initialProcess s₀ →
      Transition.run (SleepWakeup.step channel condition initialProcess) s₀ events = some s →
      ∀ p, (s.scheduler.table p).state = .sleeping →
        (s.scheduler.table p).sleepingChannel = some channel → condition p s.data = true →
        ∃ a, a ≠ .process p ∧ s.Pending channel a p) ∧
    ∀ (s₀ s : State κ) events, Initial initialProcess s₀ →
      Transition.run (step channel initialProcess) s₀ events = some s →
      (∀ p q, s.position p = .inside → s.position q = .inside → p = q) ∧
      (∀ p, s.position p = .inside → s.monitor.data.isLocked = true ∧
        s.monitor.data.pid = some (s.monitor.scheduler.table p).pid ∧ s.isHolding p = true) ∧
      (s.monitor.data.isLocked = true → ∃ p, (s.position p).owns = true ∧
        s.monitor.data.pid = some (s.monitor.scheduler.table p).pid) ∧
      ∀ p, (s.monitor.scheduler.table p).state = .sleeping →
        (s.monitor.scheduler.table p).sleepingChannel = some channel →
        s.monitor.data.isLocked = false → ∃ a, a ≠ .process p ∧ s.monitor.Pending channel a p := by
  constructor
  · intro condition s₀ s events h₀ h p hs hch hc
    exact (SleepWakeup.Inv.run h₀ h).sleeping hs hch hc
  · intro s₀ s events h₀ h
    have hi : Inv channel s := Inv.run h₀ h
    have hown : ∀ p, s.position p = .inside → (s.position p).owns = true := by
      intro p hp
      rw [hp]
      rfl
    refine ⟨fun p q hp hq => hi.unique p q (hown p hp) (hown q hq), fun p hp => ?_, fun hl => ?_,
      fun p hs hch hl => ?_⟩
    · have hdata := hi.owner p (hown p hp)
      simp [hdata, State.isHolding]
    · obtain ⟨p, hp⟩ := hi.owned hl
      exact ⟨p, hp, by rw [hi.owner p hp]⟩
    · exact hi.monitor.sleeping hs hch (by simp [isFree, hl])

/-- The first process of two CPUs, and a lock that is free. -/
def boot : State Bool where
  monitor := ⟨Scheduler.boot, none, ⟨false, none⟩, fun _ => false⟩
  position _ := .outside

theorem boot_initial : Initial 0 boot :=
  ⟨⟨Scheduler.boot_initial, rfl, fun _ => rfl⟩, rfl, fun _ => rfl⟩

/-- The first process has acquired the lock. -/
theorem no_lost_wakeup_boot :
    ∃ s, Transition.run (step (.other 0) 0) boot [.other (.lockNext false 0),
        .other (.test false 0), .other (.resumed false 0 .forkReturn), .acquire false 0,
        .take false 0, .acquired false 0] = some s ∧ s.position 0 = .inside ∧
      s.isHolding 0 = true := by
  have hrun : (Transition.run (step (.other 0) 0) boot [.other (.lockNext false 0),
      .other (.test false 0), .other (.resumed false 0 .forkReturn), .acquire false 0,
      .take false 0, .acquired false 0]).any
        (fun s => decide (s.position 0 = .inside)) = true := by decide +kernel
  obtain ⟨s, hs, hl⟩ := (Option.any_eq_true _ _).mp hrun
  have hp : s.position 0 = .inside := of_decide_eq_true hl
  exact ⟨s, hs, hp, (((no_lost_wakeup Unit (.other 0) 0).2 boot s _ boot_initial hs).2.1 0
    hp).2.2⟩

end Zigmaos.SleepLock
