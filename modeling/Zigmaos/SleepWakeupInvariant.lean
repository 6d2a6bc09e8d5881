import Zigmaos.SleepWakeup
import Zigmaos.SchedulerSafety

/-!
# No wakeup is lost

From the release of the lock on, a process that is to sleep counts as a sleeper:
its own lock is held until it is switched away from, so that a `wakeup` which
comes to its slot finds it asleep. The invariant is that a sleeper whose
condition is true has a wakeup before it, by somebody else.
-/
namespace Zigmaos.Scheduler

open ProcessTable (Slot nProc Process ProcessState Channel)

variable {κ : Type*}

/-- The process has released the lock it was to sleep with, and nobody has woken it yet. -/
def State.Sleeper (s : State κ) (channel : Channel) (p : Slot) : Prop :=
  s.stage p = .sleepReleased channel ∨ s.stage p = .switching (.sleepWithLock channel) ∨
    s.stage p = .switched (.sleepWithLock channel) ∧ (s.table p).state = .sleeping

variable [DecidableEq κ] {initialProcess : Slot} {s s' : State κ} {e : Event κ} {channel : Channel}
  {p : Slot} {c : κ}

omit [DecidableEq κ] in
theorem State.Sleeper.not_running (h : s.Sleeper channel p) : s.stage p ≠ .running := by
  obtain h | h | ⟨h, _⟩ := h <;> simp [h]

theorem Inv.sleeper_step (hi : Inv s) (h : Scheduler.step initialProcess s e = some s')
    (hs : s'.Sleeper channel p) :
    s.Sleeper channel p ∨ s.stage p = .sleepLocked channel ∧ ∃ c, e = .releaseLock c p channel := by
  have hg := stage_step h p
  have ht := hi.state_step h p
  obtain hs | hs | ⟨hs, hs'⟩ := hs
  · rw [hs] at hg
    generalize hx : s.stage p = x at hg ⊢
    cases hg with
    | same => exact .inl (.inl hx)
    | releaseLock c => exact .inr ⟨rfl, c, rfl⟩
  · rw [hs] at hg
    generalize hx : s.stage p = x at hg
    cases hg with
    | same => exact .inl (.inr (.inl hx))
    | putProcessToSleep c => exact .inl (.inl hx)
  · rw [hs] at hg
    generalize hx : s.stage p = x at hg
    cases hg with
    | same =>
      rw [hs'] at ht
      generalize hy : (s.table p).state = y at ht
      cases ht with
      | same => exact .inl (.inr (.inr ⟨hx, hy⟩))
      | slept hg =>
        obtain hg | ⟨ch, hg⟩ := hg
        · rw [hx] at hg; cases hg
        · rw [hx] at hg; cases hg
    | switched c => exact .inl (.inr (.inl hx))

/-- A turn of `wakeup` at a sleeper waits until the process is asleep, and wakes it. -/
theorem Inv.wakes_sleeper (hi : Inv s) (hs : s.Sleeper channel p) (hl : s.lock p = none) :
    s.stage p = .switched (.sleepWithLock channel) ∧ (s.table p).state = .sleeping ∧
      wake (s.table p) channel = { s.table p with state := .runnable } := by
  have hgs : s.stage p = .switched (.sleepWithLock channel) ∧ (s.table p).state = .sleeping := by
    obtain hs | hs | hs := hs
    · cases hi.slot p with
      | away r hg he ho hv => rw [hs] at hg; cases hg
      | held d r x hx hg he ho hv => rw [hl] at ho; cases ho
      | entered d he ho hv => rw [hl] at ho; cases ho
      | runs d hg he ho hv => rw [hs] at hg; cases hg
      | watched d d' hd hg he ho hv => rw [hl] at ho; cases ho
    · cases hi.slot p with
      | away r hg he ho hv => rw [hs] at hg; cases hg
      | held d r x hx hg he ho hv => rw [hl] at ho; cases ho
      | entered d he ho hv => rw [hl] at ho; cases ho
      | runs d hg he ho hv => rw [hs] at hg; cases hg
      | watched d d' hd hg he ho hv => rw [hl] at ho; cases ho
    · exact hs
  refine ⟨hgs.1, hgs.2, ?_⟩
  obtain ⟨⟨r, hg, he⟩, _⟩ := (hi.slot p).of_free hl (by simp [hgs.2])
  have hr : r = .sleepWithLock channel := by simpa [hgs.1, eq_comm] using hg
  have hch := (he.sleeping hgs.2).1
  rw [hr] at hch
  simp [wake, hgs.2, hch, Reason.channel]

/-- A loop of `wakeup` that has not come to a sleeper yet still has to, after any event. -/
theorem Inv.waking_step (hi : Inv s) (h : Scheduler.step initialProcess s e = some s') {a : Agent κ} {k : ℕ}
    (ha : a ≠ .process p) (hw : s.phase a = .waking channel k) (hk : k ≤ p.val)
    (hs : s.Sleeper channel p) (hs' : s'.Sleeper channel p) :
    ∃ k' ≤ p.val, s'.phase a = .waking channel k' := by
  have hkeep : ∀ b f, s.phase b ≠ .waking channel k →
      Function.update s.phase b f a = .waking channel k := by
    intro b f hb
    have hab : a ≠ b := fun h => hb (by rw [← h, hw])
    rw [Function.update_of_ne hab, hw]
  cases e <;> simp only [Scheduler.step, Option.ite_none_right_eq_some, Option.some.injEq] at h
  case test d i =>
    obtain ⟨_, h⟩ := h
    split_ifs at h
    · obtain rfl := Option.some.inj h
      exact ⟨k, hk, hw⟩
    · obtain rfl := Option.some.inj h
      exact ⟨k, hk, hw⟩
  case resumed d q r =>
    obtain ⟨⟨_, hg⟩, rfl⟩ := h
    refine ⟨k, hk, ?_⟩
    by_cases haq : a = .process q
    · subst haq
      have hr : r = .yield := by
        obtain hf | ⟨_, hg'⟩ := hi.phase q
        · rw [hw] at hf; cases hf
        · simpa [hg] using hg'
      subst hr
      simpa [State.setPhase, Reason.next] using hw
    · exact (Function.update_of_ne haq _ _).trans hw
  case acquireLock d q ch =>
    obtain ⟨⟨_, hf⟩, rfl⟩ := h
    exact ⟨k, hk, hkeep _ _ (by simp [hf])⟩
  case fork d q i isCopied =>
    obtain ⟨⟨_, hf, _⟩, h⟩ := h
    split_ifs at h
    · obtain rfl := Option.some.inj h
      exact ⟨k, hk, hkeep _ _ (by simp [hf])⟩
    · obtain rfl := Option.some.inj h
      exact ⟨k, hk, hw⟩
  case forkInitFails d q i =>
    obtain ⟨⟨_, hf, _⟩, rfl⟩ := h
    exact ⟨k, hk, hkeep _ _ (by simp [hf])⟩
  case freeFailed d q i =>
    obtain ⟨⟨_, hf⟩, rfl⟩ := h
    exact ⟨k, hk, hkeep _ _ (by simp [hf])⟩
  case setParent d q i =>
    obtain ⟨⟨_, hf⟩, rfl⟩ := h
    exact ⟨k, hk, hkeep _ _ (by simp [hf])⟩
  case setRunnable d q i =>
    obtain ⟨⟨_, hf, _⟩, rfl⟩ := h
    exact ⟨k, hk, hkeep _ _ (by simp [hf])⟩
  case startWakeup d b ch =>
    obtain ⟨⟨_, hf⟩, rfl⟩ := h
    exact ⟨k, hk, hkeep _ _ (by simp [hf])⟩
  case wakeNext d b ch k' =>
    obtain ⟨⟨hb, hf⟩, h⟩ := h
    by_cases hab : a = b
    · subst hab
      rw [hw] at hf
      cases hf
      have hlt : k < nProc := by omega
      have hnext : k ≠ p.val → ∃ k' ≤ p.val,
          Function.update s.phase a (.waking channel (k + 1)) a = .waking channel k' :=
        fun hne => ⟨k + 1, by omega, Function.update_self _ _ _⟩
      split_ifs at h with hcur hl
      · obtain rfl := Option.some.inj h
        refine hnext fun hkp => ?_
        have hp : (⟨k, hlt⟩ : Slot) = p := Fin.ext hkp
        rw [hp, hi.runningProcess] at hcur
        cases a with
        | process q =>
          rw [hb.2.1] at hcur
          exact ha (by rw [Option.some.inj hcur])
        | handler d' =>
          obtain hx | ⟨q, hx, hq⟩ := hi.handler d hb.2
          · rw [hx] at hcur; cases hcur
          · rw [hx] at hcur
            rw [Option.some.inj hcur] at hq
            exact hs.not_running hq
      · obtain rfl := Option.some.inj h
        refine hnext fun hkp => ?_
        have hp : (⟨k, hlt⟩ : Slot) = p := Fin.ext hkp
        rw [hp] at hl hs'
        obtain ⟨hg, _, hwake⟩ := hi.wakes_sleeper hs hl
        rw [hwake] at hs'
        simp [State.Sleeper, State.setPhase, State.setProcess, hg] at hs'
    · have hphase : ∀ f, Function.update s.phase b f a = .waking channel k :=
        fun f => (Function.update_of_ne hab _ _).trans hw
      split_ifs at h
      · obtain rfl := Option.some.inj h
        exact ⟨k, hk, hphase _⟩
      · obtain rfl := Option.some.inj h
        exact ⟨k, hk, hphase _⟩
      · obtain rfl := Option.some.inj h
        exact ⟨k, hk, hphase _⟩
  all_goals
    obtain ⟨_, rfl⟩ := h
    exact ⟨k, hk, hw⟩

end Zigmaos.Scheduler

namespace Zigmaos.SleepWakeup

open ProcessTable (Slot nProc Process ProcessState Channel)
open Scheduler (Agent)

variable {κ σ : Type*} [DecidableEq κ] {channel : Channel} {condition : Slot → σ → Bool}
  {initialProcess : Slot} {s s' : State κ σ}

@[simp] theorem follow_scheduler (s : State κ σ) (t : Scheduler.State κ) (e : Scheduler.Event κ) :
    (follow channel s t e).scheduler = t := by
  cases e <;> rfl

@[simp] theorem follow_data (s : State κ σ) (t : Scheduler.State κ) (e : Scheduler.Event κ) :
    (follow channel s t e).data = s.data := by
  cases e <;> rfl

/-- An event of the scheduler keeps the holder of the lock, apart from the two
ends of `sleepWithLock`. -/
theorem follow_mutex {t : Scheduler.State κ} {e : Scheduler.Event κ}
    (h : (follow channel s t e).mutex ≠ s.mutex) :
    ∃ c p, e = .releaseLock c p channel ∨ e = .acquireLock c p channel := by
  cases e
  case releaseLock c p ch =>
    by_cases hch : ch = channel
    · rw [hch]; exact ⟨c, p, .inl rfl⟩
    · simp [follow, hch] at h
  case acquireLock c p ch =>
    by_cases hch : ch = channel
    · rw [hch]; exact ⟨c, p, .inr rfl⟩
    · simp [follow, hch] at h
  all_goals exact absurd rfl h

/-- What is owed is owed until the loop of `wakeup` is started. -/
theorem follow_owes {t : Scheduler.State κ} {e : Scheduler.Event κ} {a : Agent κ}
    (h : s.owes a = true) :
    (follow channel s t e).owes a = true ∨ ∃ c, e = .startWakeup c a channel := by
  cases e
  case startWakeup c b ch =>
    by_cases hch : ch = channel
    · by_cases hab : a = b
      · rw [hch, hab]; exact .inr ⟨c, rfl⟩
      · exact .inl (by simp [follow, hch, Function.update_of_ne hab, h])
    · exact .inl (by simpa [follow, hch] using h)
  all_goals exact .inl h

variable (channel condition) in
structure Inv (s : State κ σ) : Prop where
  scheduler : Scheduler.Inv s.scheduler
  locked : ∀ p, s.scheduler.stage p = .sleepLocked channel →
    s.mutex = some (.process p) ∧ condition p s.data = false
  withLock : ∀ p, s.scheduler.stage p ≠ .switching (.sleep channel) ∧
    s.scheduler.stage p ≠ .switched (.sleep channel)
  pending : ∀ p, s.scheduler.Sleeper channel p → condition p s.data = true →
    ∃ a, a ≠ .process p ∧ s.Pending channel a p

theorem Inv.initial (h : Initial initialProcess s) : Inv channel condition s where
  scheduler := .initial h.scheduler
  locked p hp := by simp [h.scheduler.stage] at hp
  withLock p := by simp [h.scheduler.stage]
  pending p hp := by simp [Scheduler.State.Sleeper, h.scheduler.stage] at hp

theorem Inv.locked_step (hi : Inv channel condition s) {e : Scheduler.Event κ}
    {t : Scheduler.State κ} (ha : allowed channel condition s e = true)
    (ht : Scheduler.step initialProcess s.scheduler e = some t) (p : Slot)
    (hp : t.stage p = .sleepLocked channel) :
    (follow channel s t e).mutex = some (.process p) ∧ condition p s.data = false := by
  have hg := Scheduler.stage_step ht p
  rw [hp] at hg
  generalize hx : s.scheduler.stage p = x at hg
  cases hg with
  | same =>
    obtain ⟨hm, hc⟩ := hi.locked p hx
    refine ⟨?_, hc⟩
    by_contra hne
    obtain ⟨c, q, rfl | rfl⟩ := follow_mutex (by rw [hm]; exact hne)
    · simp only [Scheduler.step, Option.ite_none_right_eq_some, Option.some.injEq] at ht
      obtain ⟨⟨_, hq⟩, rfl⟩ := ht
      have hpq : p = q := by
        have := (hi.locked q hq).1
        rw [hm] at this
        simpa using this
      subst hpq
      simp [Scheduler.State.setStage] at hp
    · simp [allowed, hm] at ha
  | sleepWithLock c =>
    have hmc : s.mutex = some (.process p) ∧ condition p s.data = false := by
      simpa [allowed] using ha
    exact ⟨hmc.1, hmc.2⟩

theorem Inv.withLock_step (hi : Inv channel condition s) {e : Scheduler.Event κ}
    {t : Scheduler.State κ} (ha : allowed channel condition s e = true)
    (ht : Scheduler.step initialProcess s.scheduler e = some t) (p : Slot) :
    t.stage p ≠ .switching (.sleep channel) ∧ t.stage p ≠ .switched (.sleep channel) := by
  have hg := Scheduler.stage_step ht p
  constructor
  · intro hp
    rw [hp] at hg
    generalize hx : s.scheduler.stage p = x at hg
    cases hg with
    | same => exact (hi.withLock p).1 hx
    | sleep c => simp [allowed] at ha
  · intro hp
    rw [hp] at hg
    generalize hx : s.scheduler.stage p = x at hg
    cases hg with
    | same => exact (hi.withLock p).2 hx
    | switched c => exact (hi.withLock p).1 hx

theorem Inv.pending_step (hi : Inv channel condition s) {e : Scheduler.Event κ}
    {t : Scheduler.State κ} (ht : Scheduler.step initialProcess s.scheduler e = some t) (p : Slot)
    (hp : t.Sleeper channel p) (hc : condition p s.data = true) :
    ∃ a, a ≠ .process p ∧ (follow channel s t e).Pending channel a p := by
  obtain hs | ⟨hs, _⟩ := hi.scheduler.sleeper_step ht hp
  · obtain ⟨a, ha, hpend⟩ := hi.pending p hs hc
    refine ⟨a, ha, ?_⟩
    obtain ho | ⟨k, hk, hw⟩ := hpend
    · have howes : (follow channel s t e).owes a = true ∨ ∃ c, e = .startWakeup c a channel :=
        follow_owes ho
      obtain ho | ⟨c, rfl⟩ := howes
      · exact .inl ho
      · -- the wakeup that was owed is at the first slot
        simp only [Scheduler.step, Option.ite_none_right_eq_some, Option.some.injEq] at ht
        obtain ⟨_, rfl⟩ := ht
        exact .inr ⟨0, Nat.zero_le _, by simp [follow, Scheduler.State.setPhase]⟩
    · obtain ⟨k', hk', hw'⟩ := hi.scheduler.waking_step ht ha hw hk hs hp
      exact .inr ⟨k', hk', by simpa using hw'⟩
  · rw [(hi.locked p hs).2] at hc
    cases hc

omit [DecidableEq κ] in
theorem State.Ready.not_locked {c : κ} {a : Agent κ} (h : s.Ready c a) {p : Slot} {ch : Channel}
    (hp : s.scheduler.stage p = .sleepLocked ch) : a ≠ .process p := by
  intro ha
  have hr : s.scheduler.Runs c p := by
    have := h.1
    rwa [ha] at this
  rw [hr.2.2] at hp
  cases hp

theorem Inv.step (hi : Inv channel condition s) {e : Event κ σ}
    (h : SleepWakeup.step channel condition initialProcess s e = some s') :
    Inv channel condition s' := by
  cases e with
  | scheduler e =>
    simp only [SleepWakeup.step, Option.ite_none_right_eq_some, Option.map_eq_some_iff] at h
    obtain ⟨ha, t, ht, rfl⟩ := h
    constructor
    · simpa using hi.scheduler.step ht
    · intro p hp
      simpa using hi.locked_step ha ht p (by simpa using hp)
    · simpa using hi.withLock_step ha ht
    · intro p hp hc
      exact hi.pending_step ht p (by simpa using hp) (by simpa using hc)
  | acquire c a =>
    simp only [SleepWakeup.step, Option.ite_none_right_eq_some, Option.some.injEq] at h
    obtain ⟨⟨_, hm⟩, rfl⟩ := h
    refine ⟨hi.scheduler, fun p hp => ?_, hi.withLock, hi.pending⟩
    rw [(hi.locked p hp).1] at hm
    cases hm
  | release c a =>
    simp only [SleepWakeup.step, Option.ite_none_right_eq_some, Option.some.injEq] at h
    obtain ⟨⟨hr, hm⟩, rfl⟩ := h
    refine ⟨hi.scheduler, fun p hp => ?_, hi.withLock, hi.pending⟩
    rw [(hi.locked p hp).1] at hm
    exact absurd (Option.some.inj hm).symm (hr.not_locked hp)
  | change c a d =>
    simp only [SleepWakeup.step, Option.ite_none_right_eq_some, Option.some.injEq] at h
    obtain ⟨⟨hr, hm⟩, rfl⟩ := h
    refine ⟨hi.scheduler, fun p hp => ?_, hi.withLock, fun p hp hc => ?_⟩
    · rw [(hi.locked p hp).1] at hm
      exact absurd (Option.some.inj hm).symm (hr.not_locked hp)
    · by_cases hold : condition p s.data = true
      · obtain ⟨b, hb, hpend⟩ := hi.pending p hp hold
        refine ⟨b, hb, ?_⟩
        obtain ho | hw := hpend
        · refine .inl ?_
          by_cases hba : b = a
          · rw [hba] at ho ⊢
            simp [ho]
          · simpa [Function.update_of_ne hba] using ho
        · exact .inr hw
      · have hwakes : s.wakes condition d = true := by
          simp only [State.wakes, decide_eq_true_eq]
          exact ⟨p, by simpa using hold, hc⟩
        refine ⟨a, ?_, .inl (by simp [hwakes])⟩
        intro ha
        have hruns : s.scheduler.Runs c p := by
          have := hr.1
          rwa [ha] at this
        exact hp.not_running hruns.2.2

theorem Inv.run {s₀ : State κ σ} {events : List (Event κ σ)} (h₀ : Initial initialProcess s₀)
    (h : Transition.run (SleepWakeup.step channel condition initialProcess) s₀ events = some s) :
    Inv channel condition s := by
  refine Transition.run_induction (P := fun _ s => Inv channel condition s) (.initial h₀) ?_
    events s h
  intro _ _ _ _ _ hi he
  exact hi.step he

/-- A process that sleeps on the channel with its condition true has a wakeup before it. -/
theorem Inv.sleeping (hi : Inv channel condition s) {p : Slot}
    (hs : (s.scheduler.table p).state = .sleeping)
    (hch : (s.scheduler.table p).sleepingChannel = some channel)
    (hc : condition p s.data = true) : ∃ a, a ≠ .process p ∧ s.Pending channel a p := by
  have hsaved : ∀ r, Scheduler.Saved (s.scheduler.table p) r →
      r = .sleep channel ∨ r = .sleepWithLock channel := by
    intro r he
    have hr := (he.sleeping hs).1
    rw [hch] at hr
    cases r <;> simp_all [Scheduler.Reason.channel]
  have hsleeper : s.scheduler.Sleeper channel p := by
    cases hi.scheduler.slot p with
    | away r hg he ho hv =>
      obtain rfl | rfl := hsaved r he
      · exact absurd hg (hi.withLock p).2
      · exact .inr (.inr ⟨hg, hs⟩)
    | held d r x hx hg he ho hv =>
      obtain rfl | rfl := hsaved r he
      · exact absurd hg (hi.withLock p).2
      · exact .inr (.inr ⟨hg, hs⟩)
    | entered d he ho hv =>
      generalize hg : s.scheduler.stage p = g at he
      cases g with
      | running => exact he.elim
      | sleepLocked ch => exact absurd (hs.symm.trans he) (by simp)
      | sleepReleased ch => exact absurd (hs.symm.trans he) (by simp)
      | switching r =>
        obtain rfl | rfl := hsaved r he
        · exact absurd hg (hi.withLock p).1
        · exact .inr (.inl hg)
      | switched r => exact absurd (hs.symm.trans he.1) (by simp)
    | runs d hg he ho hv => rw [hs] at he; cases he
    | watched d d' hd hg he ho hv => rw [hs] at he; cases he
  exact hi.pending p hsleeper hc

end Zigmaos.SleepWakeup
