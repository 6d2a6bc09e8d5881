import Zigmaos.ProcessFamily

/-!
# The invariant of the process table

What the locks and the schedulers add to the family: whoever is inside a call
that holds `waitLock` is running, a process whose lock is free is on its stack
only while it runs, and no parent sleeps in `wait` with a zombie child unless
it is about to be woken.
-/
namespace Zigmaos.ProcessTable

/-- Asleep in `wait`. -/
@[grind] def State.AsleepInWait (s : State) (q : Slot) : Prop :=
  (∃ copy, s.phase q = .asleep copy) ∧ (s.table q).state = .sleeping

/-- `exit` has woken its parent. -/
@[grind] def Phase.hasWoken : Phase → Slot → Prop
  | .wakingParent _ j, q => q.val < j
  | .dying _, _ => True
  | _, _ => False

/-- `exit` is about to wake init. -/
@[grind] def Phase.wakes : Phase → Slot → Prop
  | .wakingInit _ _ j, q => j ≤ q.val
  | _, _ => False

structure Invariant (initialProcess : Slot) (s : State) : Prop where
  family : Family initialProcess s
  lock : ∀ p, (s.phase p).holdsWaitLock = true ↔ s.waitLock = some p
  active : ∀ p, (s.phase p).holdsWaitLock = true → s.Active p
  stack : ∀ i, s.locked i = false → (s.onStack i = true ↔ (s.table i).state = .running)
  running : ∀ i, (s.table i).state = .running → s.onStack i = true
  newborn : ∀ i, (s.table i).state = .unused ∨ (s.table i).state = .used → s.locked i = false
  channel : ∀ q, s.AsleepInWait q → (s.table q).sleepingChannel = some (.process q)
  woken : ∀ e q, (s.table e).parentProcess = some q → (s.phase e).hasWoken q →
    ¬s.AsleepInWait q
  noZombie : ∀ q c, s.AsleepInWait q → (s.table c).parentProcess = some q →
    (s.table c).state = .zombie → q = initialProcess ∧ ∃ e, (s.phase e).wakes q

variable {initialProcess : Slot} {s : State}

theorem Invariant.holder_eq (h : Invariant initialProcess s) {p q : Slot}
    (hp : (s.phase p).holdsWaitLock = true) (hq : (s.phase q).holdsWaitLock = true) : q = p := by
  have := (h.lock p).mp hp
  have := (h.lock q).mp hq
  simp_all

@[grind =] theorem active_iff (s : State) (p : Slot) :
    s.Active p ↔ (s.table p).state = .running ∧ s.locked p = false := Iff.rfl

/-- A step that touches one slot, and leaves every process where it is in its call. -/
theorem Invariant.touch (h : Invariant initialProcess s) {t : State} (i : Slot)
    (hother : ∀ j, j ≠ i → t.table j = s.table j ∧ t.locked j = s.locked j ∧
      t.onStack j = s.onStack j)
    (hstate : (t.table i).state = (s.table i).state ∨
      ((t.table i).state.IsLive ∧ (s.table i).state.IsLive))
    (htable : (t.table i).parentProcess = (s.table i).parentProcess ∧
      (t.table i).pid = (s.table i).pid ∧ (t.table i).exitStatus = (s.table i).exitStatus)
    (hphase : t.phase = s.phase) (hlock : t.waitLock = s.waitLock)
    (hhistory : t.life = s.life ∧ t.lives = s.lives ∧ t.forker = s.forker ∧
      t.forkPid = s.forkPid ∧ t.exitStatus = s.exitStatus ∧ t.reaped = s.reaped)
    (hactive : (s.phase i).holdsWaitLock = true → t.Active i)
    (hstack : t.locked i = false → (t.onStack i = true ↔ (t.table i).state = .running))
    (hrunning : (t.table i).state = .running → t.onStack i = true)
    (hnewborn : (t.table i).state = .unused ∨ (t.table i).state = .used → t.locked i = false)
    (hasleep : (t.table i).state = .sleeping → (∃ copy, s.phase i = .asleep copy) →
      (s.table i).state = .sleeping ∧
        (t.table i).sleepingChannel = (s.table i).sleepingChannel) :
    Invariant initialProcess t := by
  obtain ⟨h1, h2, h3, h4, h5, h6⟩ := hhistory
  have hsleeper : ∀ q, t.AsleepInWait q → s.AsleepInWait q ∧
      (t.table q).sleepingChannel = (s.table q).sleepingChannel := by
    rintro q ⟨hcopy, hq⟩
    rw [hphase] at hcopy
    obtain rfl | hqi := eq_or_ne q i
    · obtain ⟨hs, hc⟩ := hasleep hq hcopy
      exact ⟨⟨hcopy, hs⟩, hc⟩
    · rw [(hother q hqi).1] at hq ⊢
      exact ⟨⟨hcopy, hq⟩, rfl⟩
  have hzombie : ∀ c, (t.table c).state = .zombie → (s.table c).state = .zombie := by
    intro c hc
    obtain rfl | hci := eq_or_ne c i
    · grind
    · rwa [(hother c hci).1] at hc
  have hparent : ∀ c, (t.table c).parentProcess = (s.table c).parentProcess := by
    intro c
    obtain rfl | hci := eq_or_ne c i
    · exact htable.1
    · rw [(hother c hci).1]
  constructor
  case family =>
    refine h.family.schedule (fun j => ?_) (fun j => ?_) ⟨h1, h2⟩ h3 h4 h5 h6 hphase
    · obtain rfl | hj := eq_or_ne j i
      · exact hstate
      · exact .inl (by rw [(hother j hj).1])
    · obtain rfl | hj := eq_or_ne j i
      · exact htable
      · rw [(hother j hj).1]
        exact ⟨rfl, rfl, rfl⟩
  case lock =>
    rw [hphase, hlock]
    exact h.lock
  case active =>
    intro j hj
    rw [hphase] at hj
    obtain rfl | hji := eq_or_ne j i
    · exact hactive hj
    · have := h.active j hj
      rwa [active_iff, (hother j hji).1, (hother j hji).2.1]
  case stack =>
    intro j
    obtain rfl | hj := eq_or_ne j i
    · exact hstack
    · rw [(hother j hj).1, (hother j hj).2.1, (hother j hj).2.2]
      exact h.stack j
  case running =>
    intro j
    obtain rfl | hj := eq_or_ne j i
    · exact hrunning
    · rw [(hother j hj).1, (hother j hj).2.2]
      exact h.running j
  case newborn =>
    intro j
    obtain rfl | hj := eq_or_ne j i
    · exact hnewborn
    · rw [(hother j hj).1, (hother j hj).2.1]
      exact h.newborn j
  case channel =>
    intro q hq
    obtain ⟨hs, hc⟩ := hsleeper q hq
    exact hc.trans (h.channel q hs)
  case woken =>
    intro e q hp hw hq
    rw [hparent] at hp
    rw [hphase] at hw
    exact h.woken e q hp hw (hsleeper q hq).1
  case noZombie =>
    intro q c hq hp hz
    rw [hparent] at hp
    rw [hphase]
    exact h.noZombie q c (hsleeper q hq).1 hp (hzombie c hz)

/-- A step that moves `p` on in its call, or takes or releases `waitLock`. -/
theorem Invariant.move (h : Invariant initialProcess s) {p : Slot} (f : Phase) (w : Option Slot)
    (hactive : s.Active p)
    (hlock : ∀ q, ((s.setPhase p f).phase q).holdsWaitLock = true ↔ w = some q)
    (hchild : f.child? = none) (hbuilds : (s.phase p).child? = none) (hdead : f ≠ .dead)
    (hasleep : ∀ copy, f ≠ .asleep copy) (hexits : f.exits = true → p ≠ initialProcess)
    (hstays : (s.phase p).exits = true → f.exits = true)
    (hpassed : ∀ c, (s.table c).parentProcess = some p → ¬f.hasPassed c)
    (hscan : ∀ copy haveKids k, f = .scanning copy haveKids k → ∀ c : Slot, c.val < k →
      (s.table c).parentProcess = some p → haveKids = true ∧ (s.table c).state ≠ .zombie)
    (hwoken : ∀ q, (s.table p).parentProcess = some q → f.hasWoken q → ¬s.AsleepInWait q)
    (hwakes : s.AsleepInWait initialProcess → (s.phase p).wakes initialProcess →
      f.wakes initialProcess) :
    Invariant initialProcess { s.setPhase p f with waitLock := w } := by
  have hasleep' : ∀ q, (s.setPhase p f).AsleepInWait q → s.AsleepInWait q := by
    rintro q ⟨⟨copy, hq⟩, hs⟩
    rw [State.setPhase_phase] at hq
    split at hq
    · exact absurd hq (hasleep copy)
    · exact ⟨⟨copy, hq⟩, hs⟩
  constructor
  case family =>
    have hinit := h.family.init
    refine h.family.move p (fun _ => .inl rfl) (fun _ => ⟨rfl, rfl, rfl⟩) ⟨rfl, rfl⟩ rfl rfl rfl rfl
      (fun q hq => ?_) ?_ ?_ ?_ ?_ ?_ ?_ ?_ ?_ ?_ ?_
    all_goals grind
  case lock => exact hlock
  case active =>
    intro q hq
    obtain rfl | hqp := eq_or_ne q p
    · exact hactive
    · have hq' : ((s.setPhase p f).phase q).holdsWaitLock = true := hq
      rw [State.setPhase_phase, if_neg hqp] at hq'
      exact h.active q hq'
  case stack => exact h.stack
  case running => exact h.running
  case newborn => exact h.newborn
  case channel => exact fun q hq => h.channel q (hasleep' q hq)
  case woken =>
    intro e q hp hw hq
    have hw' : ((s.setPhase p f).phase e).hasWoken q := hw
    rw [State.setPhase_phase] at hw'
    split at hw'
    next hep => exact hwoken q (hep ▸ hp) hw' (hasleep' q hq)
    · exact h.woken e q hp hw' (hasleep' q hq)
  case noZombie =>
    intro q c hq hp hz
    obtain ⟨rfl, e, he⟩ := h.noZombie q c (hasleep' q hq) hp hz
    refine ⟨rfl, e, ?_⟩
    change ((s.setPhase p f).phase e).wakes q
    rw [State.setPhase_phase]
    split
    next hep => exact hwakes (hasleep' q hq) (hep ▸ he)
    · exact he

theorem Invariant.setResult (h : Invariant initialProcess s) (r : Slot → Result) :
    Invariant initialProcess { s with result := r } :=
  h.touch initialProcess (fun _ _ => ⟨rfl, rfl, rfl⟩) (.inl rfl) ⟨rfl, rfl, rfl⟩ rfl rfl
    ⟨rfl, rfl, rfl, rfl, rfl, rfl⟩ (h.active _) (h.stack _) (h.running _)
    (h.newborn _)
    (fun hs _ => ⟨hs, rfl⟩)

/-- The phases of others when `p` takes `waitLock`. -/
theorem Invariant.lock_take (h : Invariant initialProcess s) {p : Slot} {f : Phase}
    (hnone : s.waitLock = none) (hf : f.holdsWaitLock = true) (q : Slot) :
    ((s.setPhase p f).phase q).holdsWaitLock = true ↔ some p = some q := by
  have := h.lock q
  rw [State.setPhase_phase]
  obtain rfl | hq := eq_or_ne q p
  · simp [hf]
  · rw [if_neg hq, this, hnone]
    simp [hq.symm]

theorem Invariant.lock_keep (h : Invariant initialProcess s) {p : Slot} {f : Phase}
    (hf : f.holdsWaitLock = (s.phase p).holdsWaitLock) (q : Slot) :
    ((s.setPhase p f).phase q).holdsWaitLock = true ↔ s.waitLock = some q := by
  rw [State.setPhase_phase]
  obtain rfl | hq := eq_or_ne q p
  · rw [if_pos rfl, hf]
    exact h.lock q
  · rw [if_neg hq]
    exact h.lock q

theorem Invariant.lock_release (h : Invariant initialProcess s) {p : Slot} {f : Phase}
    (hp : (s.phase p).holdsWaitLock = true) (hf : f.holdsWaitLock = false) (q : Slot) :
    ((s.setPhase p f).phase q).holdsWaitLock = true ↔ none = some q := by
  rw [State.setPhase_phase]
  obtain rfl | hq := eq_or_ne q p
  · simp [hf]
  · rw [if_neg hq]
    have : (s.phase q).holdsWaitLock = true → q = p := h.holder_eq hp
    grind

theorem hasWoken_holdsWaitLock (f : Phase) (q : Slot) (hf : f.hasWoken q) :
    f.holdsWaitLock = true := by
  cases f <;> simp_all [Phase.hasWoken, Phase.holdsWaitLock]

theorem wakes_holdsWaitLock (f : Phase) (q : Slot) (hf : f.wakes q) : f.holdsWaitLock = true := by
  cases f <;> simp_all [Phase.wakes, Phase.holdsWaitLock]

/-- A call that holds no lock and fills no slot moves on or returns. -/
theorem Invariant.moveFree (h : Invariant initialProcess s) {p : Slot} (f : Phase)
    (hactive : s.Active p) (hp : (s.phase p).holdsWaitLock = false)
    (hbuilds : (s.phase p).child? = none) (hf : f = .user ∨ ∃ pid k, f = .killing pid k) :
    Invariant initialProcess (s.setPhase p f) := by
  have hwakes : ¬(s.phase p).wakes initialProcess := fun hw => by
    simp [wakes_holdsWaitLock _ _ hw] at hp
  have hexits : (s.phase p).exits = false := by
    by_contra hx
    simp [exits_holdsWaitLock _ (by simpa using hx)] at hp
  obtain rfl | ⟨pid, k, rfl⟩ := hf
  all_goals
    exact h.move _ s.waitLock hactive (h.lock_keep hp.symm) rfl hbuilds (by simp) (by simp)
      (by simp [Phase.exits]) (by simp [hexits]) (by simp [Phase.hasPassed]) (by simp)
      (by simp [Phase.hasWoken]) (fun _ hw => absurd hw hwakes)

/-- `wait` returns with an error. -/
theorem Invariant.giveUp (h : Invariant initialProcess s) {p : Slot} {copy haveKids : Bool} {k : ℕ}
    (hactive : s.Active p) (hp : s.phase p = .scanning copy haveKids k) :
    Invariant initialProcess { s.setPhase p .user with waitLock := none } :=
  h.move .user none hactive (h.lock_release (by rw [hp]; rfl) rfl) rfl (by simp [hp, Phase.child?])
    (by simp) (by simp) (by simp [Phase.exits]) (by simp [hp, Phase.exits])
    (by simp [Phase.hasPassed]) (by simp) (by simp [Phase.hasWoken]) (by simp [hp, Phase.wakes])

/-- `wait` takes `waitLock` and starts to scan. -/
theorem Invariant.startScan (h : Invariant initialProcess s) {p : Slot} {copy : Bool}
    (hactive : s.Active p) (hp : s.phase p = .user ∨ s.phase p = .relock copy)
    (hnone : s.waitLock = none) :
    Invariant initialProcess { s.setPhase p (.scanning copy false 0) with waitLock := some p } :=
  h.move _ (some p) hactive (h.lock_take hnone rfl) rfl
    (by obtain hp | hp := hp <;> simp [hp, Phase.child?]) (by simp) (by simp)
    (by simp [Phase.exits]) (by obtain hp | hp := hp <;> simp [hp, Phase.exits])
    (by simp [Phase.hasPassed]) (by rintro _ _ k ⟨⟩ c hc; omega) (by simp [Phase.hasWoken])
    (by obtain hp | hp := hp <;> simp [hp, Phase.wakes])

/-- The scan of `wait` goes on to the next slot. -/
theorem Invariant.scanNext (h : Invariant initialProcess s) {p : Slot} {copy haveKids : Bool}
    {k : ℕ} (hk : k < nProc) (hactive : s.Active p) (hp : s.phase p = .scanning copy haveKids k)
    (haveKids' : Bool) (hkids : haveKids = true → haveKids' = true)
    (hslot : (s.table ⟨k, hk⟩).parentProcess = some p →
      haveKids' = true ∧ (s.table ⟨k, hk⟩).state ≠ .zombie) :
    Invariant initialProcess (s.setPhase p (.scanning copy haveKids' (k + 1))) := by
  refine h.move _ s.waitLock hactive (h.lock_keep (by rw [hp]; rfl)) rfl
    (by simp [hp, Phase.child?]) (by simp) (by simp) (by simp [Phase.exits])
    (by simp [hp, Phase.exits]) (by simp [Phase.hasPassed]) ?_ (by simp [Phase.hasWoken])
    (by simp [hp, Phase.wakes])
  rintro _ _ _ ⟨⟩ c hc hparent
  obtain hck | hck := Nat.lt_succ_iff_lt_or_eq.mp hc
  · obtain ⟨h1, h2⟩ := h.family.scan p _ _ _ hp c hck hparent
    exact ⟨hkids h1, h2⟩
  · obtain rfl : c = ⟨k, hk⟩ := Fin.ext hck
    exact hslot hparent

/-- `exit` takes `waitLock`. -/
theorem Invariant.startExit (h : Invariant initialProcess s) {p : Slot} {status : ℤ}
    (hactive : s.Active p) (hp : s.phase p = .user) (hinit : p ≠ initialProcess)
    (hnone : s.waitLock = none) :
    Invariant initialProcess { s.setPhase p (.reparenting status 0) with waitLock := some p } :=
  h.move _ (some p) hactive (h.lock_take hnone rfl) rfl (by simp [hp, Phase.child?]) (by simp)
    (by simp) (fun _ => hinit) (by simp [hp, Phase.exits]) (by simp [Phase.hasPassed]) (by simp)
    (by simp [Phase.hasWoken]) (by simp [hp, Phase.wakes])

/-- `exit` goes on in its loops. -/
theorem Invariant.exitNext (h : Invariant initialProcess s) {p : Slot} (f : Phase)
    (hactive : s.Active p) (hp : (s.phase p).exits = true) (hf : f.exits = true)
    (hpassed : ∀ c, (s.table c).parentProcess = some p → ¬f.hasPassed c)
    (hwoken : ∀ q, (s.table p).parentProcess = some q → f.hasWoken q → ¬s.AsleepInWait q)
    (hwakes : s.AsleepInWait initialProcess → (s.phase p).wakes initialProcess →
      f.wakes initialProcess) :
    Invariant initialProcess (s.setPhase p f) := by
  have hinit : p ≠ initialProcess := by
    rintro rfl
    simp [h.family.init.2.2] at hp
  have hholds := exits_holdsWaitLock _ hp
  refine h.move f s.waitLock hactive (h.lock_keep ((exits_holdsWaitLock f hf).trans hholds.symm))
    ?_ ?_ ?_ ?_ (fun _ => hinit) (fun _ => hf) hpassed ?_ hwoken hwakes
  · cases f <;> simp_all [Phase.exits, Phase.child?]
  · revert hp
    cases s.phase p <;> simp [Phase.exits, Phase.child?]
  · rintro rfl
    cases hf
  · rintro copy rfl
    cases hf
  · rintro copy haveKids k rfl
    cases hf

/-- A turn of `wakeup` in `exit`. -/
theorem Invariant.wake (h : Invariant initialProcess s) (i : Slot) (c : Channel) :
    Invariant initialProcess (s.wake i c) ∧
      ((s.wake i c).AsleepInWait i → c ≠ .process i) ∧
      (∀ q, (s.wake i c).AsleepInWait q → s.AsleepInWait q) ∧
      (s.wake i c).phase = s.phase ∧
      (∀ q, ((s.wake i c).table q).parentProcess = (s.table q).parentProcess) ∧
      ∀ q, s.Active q → (s.wake i c).Active q := by
  unfold State.wake
  split
  next hc =>
    refine ⟨?_, ?_, ?_, rfl, ?_, ?_⟩
    · refine h.touch i ?_ ?_ ?_ rfl rfl ⟨rfl, rfl, rfl, rfl, rfl, rfl⟩ ?_ ?_ ?_ ?_ ?_
      · intro j hj
        simp [hj]
      · simp [hc.1]
        grind
      · simp
      · intro hp
        have := h.active i hp
        simp_all [State.Active]
      · intro hl
        have := h.stack i hl
        simp_all
      · simp
      · simp
      · simp
    · rintro ⟨-, hs⟩
      simp at hs
    · rintro q ⟨hq, hs⟩
      refine ⟨hq, ?_⟩
      grind
    · grind
    · intro q hq
      grind
  next hc =>
    refine ⟨h, ?_, fun _ hq => hq, rfl, fun _ => rfl, fun _ hq => hq⟩
    rintro hs rfl
    exact hc ⟨hs.2, h.channel i hs⟩

theorem Invariant.startInit (h : Invariant initialProcess s) {p i : Slot}
    (hunused : (s.table i).state = .unused) : Invariant initialProcess (s.startInit p i) := by
  have hl := h.newborn i (.inl hunused)
  have hold := h.family.unused i hunused
  have hasleep : ∀ q, (s.startInit p i).AsleepInWait q → q ≠ i ∧ s.AsleepInWait q := by
    rintro q ⟨⟨copy, hq⟩, hs⟩
    rw [State.startInit_phase] at hq
    rw [State.startInit_table] at hs
    split at hq
    · cases hq
    next hqi =>
      rw [if_neg hqi] at hs
      exact ⟨hqi, ⟨copy, hq⟩, hs⟩
  constructor
  case family => exact h.family.startInit hunused
  case lock =>
    intro q
    have := h.lock q
    grind
  case active =>
    intro q hq
    rw [State.startInit_phase] at hq
    split at hq
    · simp [Phase.holdsWaitLock] at hq
    next hqi =>
      have := h.active q hq
      rwa [active_iff, State.startInit_table, if_neg hqi]
  case stack =>
    intro j
    have := h.stack j
    grind
  case running =>
    intro j
    have := h.running j
    grind
  case newborn =>
    intro j
    have := h.newborn j
    grind
  case channel =>
    intro q hq
    have := hasleep q hq
    have := h.channel q this.2
    grind
  case woken =>
    intro e q hp hw hq
    have hqi := hasleep q hq
    rw [State.startInit_table] at hp
    rw [State.startInit_phase] at hw
    split at hw
    · exact hw
    next hei =>
      rw [if_neg hei] at hp
      exact h.woken e q hp hw hqi.2
  case noZombie =>
    intro q c hq hp hz
    rw [State.startInit_table] at hp hz
    split at hp
    · simp_all
    next hci =>
      rw [if_neg hci] at hz
      obtain ⟨hinit, e, he⟩ := h.noZombie q c (hasleep q hq).2 hp hz
      refine ⟨hinit, e, ?_⟩
      rw [State.startInit_phase]
      split
      next hei =>
        have := hei ▸ he
        obtain hu | hu := hold.2 <;> simp [hu, Phase.wakes] at this
      · exact he

theorem Invariant.freeUsed (h : Invariant initialProcess s) {c : Slot}
    (hused : (s.table c).state = .used) (hparent : (s.table c).parentProcess = none)
    (hchild : ∀ q, (s.phase q).child? ≠ some c) :
    Invariant initialProcess (s.setProcess c .freed) := by
  have hl := h.newborn c (.inr hused)
  have hfreed : Process.freed.state = .unused ∧ Process.freed.parentProcess = none := ⟨rfl, rfl⟩
  have hasleep : ∀ q, (s.setProcess c .freed).AsleepInWait q → s.AsleepInWait q := by
    rintro q ⟨hq, hs⟩
    refine ⟨hq, ?_⟩
    grind
  constructor
  case family => exact h.family.freeUsed hused hparent hchild
  case lock => exact h.lock
  case active =>
    intro q hq
    have := h.active q hq
    grind
  case stack =>
    intro j
    have := h.stack j
    grind
  case running =>
    intro j
    have := h.running j
    grind
  case newborn =>
    intro j
    have := h.newborn j
    grind
  case channel =>
    intro q hq
    have := h.channel q (hasleep q hq)
    have := (hasleep q hq).2
    grind
  case woken =>
    intro e q hp hw hq
    refine h.woken e q ?_ hw (hasleep q hq)
    grind
  case noZombie =>
    intro q d hq hp hz
    refine h.noZombie q d (hasleep q hq) ?_ ?_ <;> grind

theorem Invariant.adopt (h : Invariant initialProcess s) {p c : Slot} {pid : ℕ}
    (hp : s.phase p = .forked c pid) (hactive : s.Active p) :
    Invariant initialProcess ((s.setProcess c
      { s.table c with parentProcess := some p }).setPhase p (.parented c pid)) := by
  have hused := h.family.child p c (by simp [hp, Phase.child?])
  have hpc : p ≠ c := by
    rintro rfl
    simp [hactive.1] at hused
  have hasleep : ∀ q, ((s.setProcess c { s.table c with parentProcess := some p }).setPhase p
      (.parented c pid)).AsleepInWait q → q ≠ p ∧ s.AsleepInWait q := by
    rintro q ⟨⟨copy, hq⟩, hs⟩
    rw [State.setPhase_phase] at hq
    split at hq
    · cases hq
    next hqp => exact ⟨hqp, ⟨copy, hq⟩, by grind⟩
  constructor
  case family => exact h.family.adopt hp (.inl hactive.1)
  case lock =>
    intro q
    have := h.lock q
    grind
  case active =>
    intro q hq
    rw [State.setPhase_phase] at hq
    split at hq
    · simp [Phase.holdsWaitLock] at hq
    · have := h.active q hq
      grind
  case stack =>
    intro j
    have := h.stack j
    grind
  case running =>
    intro j
    have := h.running j
    grind
  case newborn =>
    intro j
    have := h.newborn j
    grind
  case channel =>
    intro q hq
    have := h.channel q (hasleep q hq).2
    grind
  case woken =>
    intro e q hq' hw hq
    obtain ⟨hqp, hs⟩ := hasleep q hq
    rw [State.setPhase_phase] at hw
    split at hw
    · exact hw
    · refine h.woken e q ?_ hw hs
      grind
  case noZombie =>
    intro q d hq hq' hz
    obtain ⟨hqp, hs⟩ := hasleep q hq
    have hparent : (s.table d).parentProcess = some q := by grind
    have hzombie : (s.table d).state = .zombie := by grind
    obtain ⟨rfl, e, he⟩ := h.noZombie q d hs hparent hzombie
    refine ⟨rfl, e, ?_⟩
    rw [State.setPhase_phase, if_neg]
    · exact he
    · rintro rfl
      simp [hp, Phase.wakes] at he

theorem Invariant.launch (h : Invariant initialProcess s) {p c : Slot} {pid : ℕ}
    (hp : s.phase p = .parented c pid) (hactive : s.Active p) :
    Invariant initialProcess { (s.setProcess c { s.table c with state := .runnable }).setPhase p
        .user with
      forkPid := Function.update s.forkPid (s.life c) (some pid) } := by
  have hused := h.family.child p c (by simp [hp, Phase.child?])
  have hl := h.newborn c (.inr hused)
  have hpc : p ≠ c := by
    rintro rfl
    simp [hactive.1] at hused
  have hasleep : ∀ q, ((s.setProcess c { s.table c with state := .runnable }).setPhase p
      .user).AsleepInWait q → q ≠ p ∧ q ≠ c ∧ s.AsleepInWait q := by
    rintro q ⟨⟨copy, hq⟩, hs⟩
    rw [State.setPhase_phase] at hq
    split at hq
    · cases hq
    next hqp => exact ⟨hqp, by grind, ⟨copy, hq⟩, by grind⟩
  constructor
  case family => exact h.family.launch hp (.inl hactive.1)
  case lock =>
    intro q
    have := h.lock q
    grind
  case active =>
    intro q hq
    have hq' : ((s.setPhase p .user).phase q).holdsWaitLock = true := hq
    rw [State.setPhase_phase] at hq'
    split at hq'
    · simp [Phase.holdsWaitLock] at hq'
    · have := h.active q hq'
      grind
  case stack =>
    intro j
    have := h.stack j
    grind
  case running =>
    intro j
    have := h.running j
    grind
  case newborn =>
    intro j
    have := h.newborn j
    grind
  case channel =>
    intro q hq
    have := hasleep q hq
    have := h.channel q this.2.2
    grind
  case woken =>
    intro e q hq' hw hq
    obtain ⟨hqp, -, hs⟩ := hasleep q hq
    have hw' : ((s.setPhase p .user).phase e).hasWoken q := hw
    rw [State.setPhase_phase] at hw'
    split at hw'
    · exact hw'
    · refine h.woken e q ?_ hw' hs
      grind
  case noZombie =>
    intro q d hq hq' hz
    obtain ⟨hqp, -, hs⟩ := hasleep q hq
    have hparent : (s.table d).parentProcess = some q := by grind
    have hzombie : (s.table d).state = .zombie := by grind
    obtain ⟨rfl, e, he⟩ := h.noZombie q d hs hparent hzombie
    refine ⟨rfl, e, ?_⟩
    change ((s.setPhase p .user).phase e).wakes q
    rw [State.setPhase_phase, if_neg]
    · exact he
    · rintro rfl
      simp [hp, Phase.wakes] at he

theorem Invariant.reparent (h : Invariant initialProcess s) {p c : Slot} {status : ℤ} {k : ℕ}
    (hp : s.phase p = .reparenting status k) (hck : c.val = k) (hactive : s.Active p)
    (hparent : (s.table c).parentProcess = some p) :
    Invariant initialProcess ((s.setProcess c
      { s.table c with parentProcess := some initialProcess }).setPhase p
        (.wakingInit status k 0)) := by
  have hholds : (s.phase p).holdsWaitLock = true := by
    rw [hp]
    rfl
  have honly : ∀ q, (s.phase q).holdsWaitLock = true → q = p := fun q => h.holder_eq hholds
  have hinit : p ≠ initialProcess := by
    rintro rfl
    have := h.family.init.2.2
    simp [hp, Phase.exits] at this
  have hfamily := h.family.reparent hp (.inl hactive.1) honly hparent
  have hasleep : ∀ q, ((s.setProcess c
      { s.table c with parentProcess := some initialProcess }).setPhase p
        (.wakingInit status k 0)).AsleepInWait q → q ≠ p ∧ s.AsleepInWait q := by
    rintro q ⟨⟨copy, hq⟩, hs⟩
    rw [State.setPhase_phase] at hq
    split at hq
    · cases hq
    next hqp => exact ⟨hqp, ⟨copy, hq⟩, by grind⟩
  constructor
  case family =>
    refine hfamily.move p (fun _ => .inl rfl) (fun _ => ⟨rfl, rfl, rfl⟩) ⟨rfl, rfl⟩ rfl rfl rfl rfl
      (fun q hq => by grind) (by grind) ?_ ?_ ?_ ?_ ?_ ?_ ?_ ?_ ?_
    · simp [Phase.child?]
    · simp
    · simp
    · simp [hp]
    · simp
    · exact fun _ => hinit
    · simp [Phase.exits]
    · intro d hd
      have := h.family.parent_left d p
      simp only [State.setProcess_table] at hd
      simp only [State.setPhase_phase, if_true, Phase.hasPassed]
      simp only [hp, Phase.hasPassed] at this
      split at hd
      next hdc => exact absurd (Option.some.inj hd).symm hinit
      next hdc =>
        have := this hd
        have : d.val ≠ c.val := fun hv => hdc (Fin.ext hv)
        omega
    · simp
  case lock =>
    intro q
    have := h.lock_keep (p := p) (f := .wakingInit status k 0) (by rw [hp]; rfl) q
    grind
  case active =>
    intro q hq
    rw [State.setPhase_phase] at hq
    split at hq
    next hqp => grind
    · have := h.active q hq
      grind
  case stack =>
    intro j
    have := h.stack j
    grind
  case running =>
    intro j
    have := h.running j
    grind
  case newborn =>
    intro j
    have := h.newborn j
    grind
  case channel =>
    intro q hq
    have := h.channel q (hasleep q hq).2
    grind
  case woken =>
    intro e q _ hw _
    rw [State.setPhase_phase] at hw
    split at hw
    · exact hw
    next hep => exact hep (honly e (hasWoken_holdsWaitLock _ _ hw))
  case noZombie =>
    intro q d hq hq' hz
    obtain ⟨hqp, hs⟩ := hasleep q hq
    have hp' : ((s.setProcess c { s.table c with parentProcess := some initialProcess }).setPhase p
        (.wakingInit status k 0)).phase p = .wakingInit status k 0 := by simp
    by_cases hdc : d = c
    · refine ⟨by grind, p, ?_⟩
      rw [hp']
      simp [Phase.wakes]
    · have hparent' : (s.table d).parentProcess = some q := by grind
      have hzombie : (s.table d).state = .zombie := by grind
      obtain ⟨-, e, he⟩ := h.noZombie q d hs hparent' hzombie
      obtain rfl := honly e (wakes_holdsWaitLock _ _ he)
      simp [hp, Phase.wakes] at he

theorem Invariant.die (h : Invariant initialProcess s) {p : Slot} {status : ℤ}
    (hp : s.phase p = .dying status) (hactive : s.Active p) :
    Invariant initialProcess { ((s.setProcess p { s.table p with
        state := .zombie, exitStatus := status }).setLocked p true).setPhase p .dead with
      waitLock := none
      exitStatus := Function.update s.exitStatus (s.life p) (some status) } := by
  have hholds : (s.phase p).holdsWaitLock = true := by
    rw [hp]
    rfl
  have honly : ∀ q, (s.phase q).holdsWaitLock = true → q = p := fun q => h.holder_eq hholds
  have hother : ∀ q, q ≠ p → ((s.setPhase p .dead).phase q).holdsWaitLock = false := by
    intro q hq
    rw [State.setPhase_phase, if_neg hq]
    by_contra hc
    exact hq (honly q (by simpa using hc))
  have hnone : ∀ q, ((s.setPhase p .dead).phase q).holdsWaitLock = false := by
    intro q
    obtain rfl | hq := eq_or_ne q p
    · simp [Phase.holdsWaitLock]
    · exact hother q hq
  have hasleep : ∀ q, ((s.setProcess p { s.table p with
      state := .zombie, exitStatus := status }).setPhase p .dead).AsleepInWait q →
      q ≠ p ∧ s.AsleepInWait q := by
    rintro q ⟨⟨copy, hq⟩, hs⟩
    rw [State.setPhase_phase] at hq
    split at hq
    · cases hq
    next hqp => exact ⟨hqp, ⟨copy, hq⟩, by grind⟩
  constructor
  case family =>
    exact (h.family.die hp (.inl hactive.1) honly).schedule (fun _ => .inl rfl)
      (fun _ => ⟨rfl, rfl, rfl⟩) ⟨rfl, rfl⟩ rfl rfl rfl rfl rfl
  case lock =>
    intro q
    have hq := hnone q
    change ((s.setPhase p .dead).phase q).holdsWaitLock = true ↔ none = some q
    rw [hq]
    simp
  case active =>
    intro q hq
    have hq' : ((s.setPhase p .dead).phase q).holdsWaitLock = true := hq
    rw [hnone] at hq'
    cases hq'
  case stack =>
    intro j hj
    have := h.stack j
    have hj' : (s.setLocked p true).locked j = false := hj
    have hjp : j ≠ p := by grind
    have : s.locked j = false := by grind
    have hstate : ((s.setProcess p { s.table p with
      state := .zombie, exitStatus := status }).table j).state = (s.table j).state := by grind
    exact (h.stack j this).trans (by rw [← hstate]; rfl)
  case running =>
    intro j hj
    have hj' : ((s.setProcess p { s.table p with
      state := .zombie, exitStatus := status }).table j).state = .running := hj
    exact h.running j (by grind)
  case newborn =>
    intro j hj
    have hj' : ((s.setProcess p { s.table p with
      state := .zombie, exitStatus := status }).table j).state = .unused ∨
      ((s.setProcess p { s.table p with
      state := .zombie, exitStatus := status }).table j).state = .used := hj
    have hjp : j ≠ p := by grind
    change (s.setLocked p true).locked j = false
    have := h.newborn j
    grind
  case channel =>
    intro q hq
    obtain ⟨hqp, hs⟩ := hasleep q hq
    have := h.channel q hs
    change ((s.setProcess p { s.table p with
      state := .zombie, exitStatus := status }).table q).sleepingChannel = _
    grind
  case woken =>
    intro e q _ hw _
    have := hnone e
    rw [hasWoken_holdsWaitLock ((s.setPhase p .dead).phase e) q hw] at this
    cases this
  case noZombie =>
    intro q d hq hq' hz
    obtain ⟨hqp, hs⟩ := hasleep q hq
    have hparent : ((s.setProcess p { s.table p with
      state := .zombie, exitStatus := status }).table d).parentProcess = some q := hq'
    have hzombie : ((s.setProcess p { s.table p with
      state := .zombie, exitStatus := status }).table d).state = .zombie := hz
    by_cases hdp : d = p
    · subst hdp
      refine absurd hs (h.woken d q (by grind) ?_)
      rw [hp]
      trivial
    · obtain ⟨-, e, he⟩ := h.noZombie q d hs (by grind) (by grind)
      obtain rfl := honly e (wakes_holdsWaitLock _ _ he)
      simp [hp, Phase.wakes] at he

theorem Invariant.reap (h : Invariant initialProcess s) {p c : Slot} {copy haveKids : Bool} {k : ℕ}
    (hp : s.phase p = .scanning copy haveKids k)
    (hparent : (s.table c).parentProcess = some p) (hzombie : (s.table c).state = .zombie)
    (hlocked : s.locked c = false) :
    Invariant initialProcess { s.setProcess c .freed with
      reaped := ⟨s.life p, s.life c, (s.table c).pid, (s.table c).exitStatus⟩ :: s.reaped } := by
  have hholds : (s.phase p).holdsWaitLock = true := by
    rw [hp]
    rfl
  have honly : ∀ q, (s.phase q).holdsWaitLock = true → q = p := fun q => h.holder_eq hholds
  have hfreed : Process.freed.state = .unused ∧ Process.freed.parentProcess = none := ⟨rfl, rfl⟩
  have hasleep : ∀ q, (s.setProcess c .freed).AsleepInWait q → s.AsleepInWait q := by
    rintro q ⟨hq, hs⟩
    refine ⟨hq, ?_⟩
    grind
  constructor
  case family => exact h.family.reap hp honly hparent hzombie
  case lock => exact h.lock
  case active =>
    intro q hq
    have := h.active q hq
    grind
  case stack =>
    intro j
    have := h.stack j
    grind
  case running =>
    intro j
    have := h.running j
    grind
  case newborn =>
    intro j
    have := h.newborn j
    grind
  case channel =>
    intro q hq
    have := h.channel q (hasleep q hq)
    have := (hasleep q hq).2
    grind
  case woken =>
    intro e q hq' hw hq
    refine h.woken e q ?_ hw (hasleep q hq)
    grind
  case noZombie =>
    intro q d hq hq' hz
    refine h.noZombie q d (hasleep q hq) ?_ ?_ <;> grind

/-- A parent falls asleep in `wait`: none of its children is a zombie. -/
theorem Invariant.fallAsleep (h : Invariant initialProcess s) {p : Slot} {copy haveKids : Bool}
    {k : ℕ} (hp : s.phase p = .scanning copy haveKids k) (hk : nProc ≤ k) (hactive : s.Active p) :
    Invariant initialProcess { ((s.setProcess p { s.table p with
        state := .sleeping, sleepingChannel := some (.process p) }).setLocked p true).setPhase p
          (.asleep copy) with
      waitLock := none } := by
  have hholds : (s.phase p).holdsWaitLock = true := by
    rw [hp]
    rfl
  have honly : ∀ q, (s.phase q).holdsWaitLock = true → q = p := fun q => h.holder_eq hholds
  have hscan : ∀ c, (s.table c).parentProcess = some p → (s.table c).state ≠ .zombie := fun c hc =>
    (h.family.scan p copy haveKids k hp c (c.isLt.trans_le hk) hc).2
  have hnone : ∀ q, ((s.setPhase p (.asleep copy)).phase q).holdsWaitLock = false := by
    intro q
    rw [State.setPhase_phase]
    split
    · rfl
    next hq =>
      by_contra hc
      exact hq (honly q (by simpa using hc))
  have htable : ∀ q, q ≠ p → (s.setProcess p { s.table p with
      state := .sleeping, sleepingChannel := some (.process p) }).table q = s.table q := by
    intro q hq
    rw [State.setProcess_table, if_neg hq]
  have hasleep : ∀ q, q ≠ p → ((s.setProcess p { s.table p with
      state := .sleeping, sleepingChannel := some (.process p) }).setPhase p
        (.asleep copy)).AsleepInWait q → s.AsleepInWait q := by
    rintro q hqp ⟨⟨copy', hq⟩, hs⟩
    rw [State.setPhase_phase, if_neg hqp] at hq
    rw [State.setPhase_table, htable q hqp] at hs
    exact ⟨⟨copy', hq⟩, hs⟩
  constructor
  case family =>
    refine h.family.move p (fun i => ?_) (fun i => ?_) ⟨rfl, rfl⟩ rfl rfl rfl rfl (fun q hq => ?_)
      (.inl hactive.1) ?_ ?_ ?_ ?_ ?_ ?_ ?_ ?_ ?_
    · obtain rfl | hi := eq_or_ne i p
      · exact .inr ⟨by simp [State.setProcess, State.setLocked, State.setPhase,
          ProcessState.IsLive], .inl hactive.1⟩
      · exact .inl (congrArg Process.state (htable i hi))
    · obtain rfl | hi := eq_or_ne i p
      · simp [State.setProcess, State.setLocked, State.setPhase]
      · have := htable i hi
        exact ⟨congrArg Process.parentProcess this, congrArg Process.pid this,
          congrArg Process.exitStatus this⟩
    · simp [State.setLocked, State.setPhase, State.setProcess, hq]
    all_goals simp [State.setPhase, Phase.child?, Phase.exits, Phase.hasPassed, hp]
  case lock =>
    intro q
    have hq := hnone q
    change ((s.setPhase p (.asleep copy)).phase q).holdsWaitLock = true ↔ none = some q
    rw [hq]
    simp
  case active =>
    intro q hq
    have hq' : ((s.setPhase p (.asleep copy)).phase q).holdsWaitLock = true := hq
    rw [hnone] at hq'
    cases hq'
  case stack =>
    intro j hj
    have hj' : (s.setLocked p true).locked j = false := hj
    have hjp : j ≠ p := by grind
    have hl : s.locked j = false := by grind
    refine (h.stack j hl).trans ?_
    rw [← htable j hjp]
    rfl
  case running =>
    intro j hj
    have hj' : ((s.setProcess p { s.table p with
      state := .sleeping, sleepingChannel := some (.process p) }).table j).state = .running := hj
    exact h.running j (by grind)
  case newborn =>
    intro j hj
    have hj' : ((s.setProcess p { s.table p with
      state := .sleeping, sleepingChannel := some (.process p) }).table j).state = .unused ∨
      ((s.setProcess p { s.table p with
      state := .sleeping, sleepingChannel := some (.process p) }).table j).state = .used := hj
    have hjp : j ≠ p := by grind
    change (s.setLocked p true).locked j = false
    have := h.newborn j
    grind
  case channel =>
    intro q hq
    change ((s.setProcess p { s.table p with
      state := .sleeping, sleepingChannel := some (.process p) }).table q).sleepingChannel = _
    obtain rfl | hqp := eq_or_ne q p
    · simp
    · rw [htable q hqp]
      exact h.channel q (hasleep q hqp hq)
  case woken =>
    intro e q _ hw _
    have := hnone e
    rw [hasWoken_holdsWaitLock ((s.setPhase p (.asleep copy)).phase e) q hw] at this
    cases this
  case noZombie =>
    intro q d hq hq' hz
    have hparent : ((s.setProcess p { s.table p with
      state := .sleeping, sleepingChannel := some (.process p) }).table d).parentProcess = some q :=
      hq'
    have hzombie : ((s.setProcess p { s.table p with
      state := .sleeping, sleepingChannel := some (.process p) }).table d).state = .zombie := hz
    have hdp : d ≠ p := by grind
    rw [htable d hdp] at hparent hzombie
    obtain rfl | hqp := eq_or_ne q p
    · exact absurd hzombie (hscan d hparent)
    · obtain ⟨-, e, he⟩ := h.noZombie q d (hasleep q hqp hq) hparent hzombie
      obtain rfl := honly e (wakes_holdsWaitLock _ _ he)
      simp [hp, Phase.wakes] at he

/-- A slot that `p` fills is filled by nobody else. -/
theorem Invariant.only_child (h : Invariant initialProcess s) {p c : Slot} {f : Phase}
    (hc : (s.phase p).child? = some c) (hf : f.child? = none) (q : Slot) :
    ((s.setPhase p f).phase q).child? ≠ some c := by
  intro hq
  rw [State.setPhase_phase] at hq
  split at hq
  · simp [hf] at hq
  next hqp => exact hqp (h.family.child_unique q p c hq hc)

/-- A call that holds no lock moves on. -/
theorem Invariant.rephase (h : Invariant initialProcess s) {p : Slot} {f : Phase}
    (hactive : s.Active p) (hp : (s.phase p).holdsWaitLock = false)
    (hf : f.holdsWaitLock = false) (hasleep : ∀ copy, f ≠ .asleep copy)
    (hfamily : Family initialProcess (s.setPhase p f)) :
    Invariant initialProcess (s.setPhase p f) := by
  have hasleep' : ∀ q, (s.setPhase p f).AsleepInWait q → s.AsleepInWait q := by
    rintro q ⟨⟨copy, hq⟩, hs⟩
    rw [State.setPhase_phase] at hq
    split at hq
    · exact absurd hq (hasleep copy)
    · exact ⟨⟨copy, hq⟩, hs⟩
  refine ⟨hfamily, h.lock_keep (hf.trans hp.symm), fun q hq => ?_, h.stack, h.running, h.newborn,
    fun q hq => h.channel q (hasleep' q hq), fun e q hq hw hs => ?_, fun q c hq hc hz => ?_⟩
  · rw [State.setPhase_phase] at hq
    split at hq
    next hqp => exact hqp ▸ hactive
    · exact h.active q hq
  · rw [State.setPhase_phase] at hw
    split at hw
    · simp [hasWoken_holdsWaitLock _ _ hw] at hf
    · exact h.woken e q hq hw (hasleep' q hs)
  · obtain ⟨rfl, e, he⟩ := h.noZombie q c (hasleep' q hq) hc hz
    refine ⟨rfl, e, ?_⟩
    rw [State.setPhase_phase, if_neg]
    · exact he
    · rintro rfl
      simp [wakes_holdsWaitLock _ _ he] at hp

/-- A fork whose `init` failed returns; its slot is still to be freed. -/
theorem Invariant.dropChild (h : Invariant initialProcess s) {p c : Slot} (hactive : s.Active p)
    (hp : s.phase p = .allocFailed c) : Invariant initialProcess (s.setPhase p .user) := by
  refine h.rephase hactive (by rw [hp]; rfl) rfl (by simp) ?_
  refine h.family.move p (fun _ => .inl rfl) (fun _ => ⟨rfl, rfl, rfl⟩) ⟨rfl, rfl⟩ rfl rfl rfl rfl
    (fun q hq => by simp [hq]) (.inl hactive.1) ?_ ?_ ?_ ?_ ?_ ?_ ?_ ?_ ?_
  all_goals simp [Phase.child?, Phase.exits, Phase.hasPassed, hp]

/-- `sleepWithLock` goes on after the switch. -/
theorem Invariant.wakeUp (h : Invariant initialProcess s) {p : Slot} {copy : Bool}
    (hactive : s.Active p) (hp : s.phase p = .asleep copy) :
    Invariant initialProcess (s.setPhase p (.relock copy)) := by
  refine h.rephase hactive (by rw [hp]; rfl) rfl (by simp) ?_
  refine h.family.move p (fun _ => .inl rfl) (fun _ => ⟨rfl, rfl, rfl⟩) ⟨rfl, rfl⟩ rfl rfl rfl rfl
    (fun q hq => by simp [hq]) (.inl hactive.1) ?_ ?_ ?_ ?_ ?_ ?_ ?_ ?_ ?_
  all_goals simp [Phase.child?, Phase.exits, Phase.hasPassed, hp]

/-- The slot that `init` has started on belongs to the fork of `p`. -/
theorem Invariant.fill (h : Invariant initialProcess s) {p i : Slot} {f : Phase}
    (hactive : s.Active p) (hp : s.phase p = .user) (hlive : (s.table i).state = .unused)
    (hf : f = .allocFailed i ∨ f = .forked i s.nextProcessId) :
    Invariant initialProcess ((s.startInit p i).setPhase p f) := by
  have hpi : p ≠ i := by
    rintro rfl
    simp [hactive.1] at hlive
  have hstart := h.startInit (p := p) hlive
  have hchild : ∀ q, (s.phase q).child? ≠ some i := fun q hq => by
    simp [h.family.child q i hq] at hlive
  have hp' : (s.startInit p i).phase p = .user := by
    rw [State.startInit_phase, if_neg hpi, hp]
  have hactive' : (s.startInit p i).Active p := by
    rw [active_iff, State.startInit_table, if_neg hpi]
    exact hactive
  have hnone := (h.family.unused i hlive).1
  have hchild' : ∀ q, ((s.startInit p i).phase q).child? ≠ some i := by
    intro q
    rw [State.startInit_phase]
    split
    · simp [Phase.child?]
    · exact hchild q
  refine hstart.rephase hactive' (by rw [hp']; rfl) (by obtain rfl | rfl := hf <;> rfl)
    (by obtain rfl | rfl := hf <;> simp) ?_
  refine hstart.family.move p (fun _ => .inl rfl) (fun _ => ⟨rfl, rfl, rfl⟩) ⟨rfl, rfl⟩ rfl rfl rfl
    rfl (fun q hq => by simp [hq]) (.inl hactive'.1) ?_ ?_ ?_ ?_ ?_ ?_ ?_ ?_ ?_
  · intro c hc
    have hci : c = i := by obtain rfl | rfl := hf <;> simpa [Phase.child?] using hc.symm
    subst hci
    exact ⟨by simp [State.startInit_table], fun q _ => hchild' q⟩
  · obtain rfl | rfl := hf <;> simp [State.startInit_table, hnone]
  · obtain rfl | rfl := hf <;>
      simp [State.startInit_table, State.startInit_life, State.startInit_forker, hnone, hpi]
  · obtain rfl | rfl := hf <;> simp [hp']
  · obtain rfl | rfl := hf <;> simp
  · obtain rfl | rfl := hf <;> simp [Phase.exits]
  · simp [hp', Phase.exits]
  · obtain rfl | rfl := hf <;> simp [Phase.hasPassed]
  · obtain rfl | rfl := hf <;> simp

/-- The memory of the parent could not be copied. -/
theorem Invariant.copyFails (h : Invariant initialProcess s) {p i : Slot} (hactive : s.Active p)
    (hp : s.phase p = .user) (hunused : (s.table i).state = .unused) :
    Invariant initialProcess (((s.startInit p i).setProcess i .freed).setPhase p .user) := by
  have hpi : p ≠ i := by
    rintro rfl
    simp [hactive.1] at hunused
  have hchild : ∀ q, ((s.startInit p i).phase q).child? ≠ some i := by
    intro q
    rw [State.startInit_phase]
    split
    · simp [Phase.child?]
    · intro hq
      simp [h.family.child q i hq] at hunused
  have hp' : (s.startInit p i).phase p = .user := by
    rw [State.startInit_phase, if_neg hpi, hp]
  have hfree := (h.startInit (p := p) hunused).freeUsed (c := i)
    (by simp [State.startInit_table])
    (by simp [State.startInit_table, (h.family.unused i hunused).1]) hchild
  refine hfree.moveFree .user ?_ (by simp [hp', Phase.holdsWaitLock])
    (by simp [hp', Phase.child?]) (.inl rfl)
  rw [active_iff, State.setProcess_table, if_neg hpi, State.startInit_table, if_neg hpi]
  exact hactive

/-- `kill` marks its victim, and wakes it. -/
theorem Invariant.kill (h : Invariant initialProcess s) (i : Slot) (hl : s.locked i = false) :
    Invariant initialProcess (s.setProcess i { s.table i with
      isKilled := true
      state := if (s.table i).state = .sleeping then .runnable else (s.table i).state }) := by
  refine h.touch i (fun j hj => ?_) ?_ ?_ rfl rfl ⟨rfl, rfl, rfl, rfl, rfl, rfl⟩ (fun hp => ?_)
    (fun _ => ?_) (fun hs => ?_) (fun _ => hl) (fun hs _ => ?_)
  · simp [hj]
  · rw [State.setProcess_table, if_pos rfl]
    simp only
    split
    next hs => exact .inr ⟨by simp [ProcessState.IsLive], by simp [hs, ProcessState.IsLive]⟩
    · exact .inl rfl
  · simp
  · obtain ⟨hrun, hl⟩ := h.active i hp
    exact ⟨by simp [hrun], hl⟩
  · have := h.stack i hl
    rw [State.setProcess_table, if_pos rfl]
    simp only
    split
    next hs => simp_all
    · exact this
  · rw [State.setProcess_table, if_pos rfl] at hs
    simp only at hs
    split at hs
    · cases hs
    · exact h.running i hs
  · rw [State.setProcess_table, if_pos rfl] at hs
    simp only at hs
    split at hs
    · cases hs
    · contradiction

end Zigmaos.ProcessTable
