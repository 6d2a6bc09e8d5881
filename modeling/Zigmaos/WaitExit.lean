import Zigmaos.ProcessInvariant

/-!
# Every child is reaped once, by its parent

Every step keeps the invariant of the process table. A slot is freed by a parent
that found a zombie in it, and what has exited waits as a zombie until then.
-/
namespace Zigmaos.ProcessTable

variable {initialProcess : Slot} {s : State}

theorem invariant_proceed {s' : State} {p : Slot} {copied : Bool} (h : Invariant initialProcess s)
    (hactive : s.Active p) (he : proceed initialProcess s p copied = some s') :
    Invariant initialProcess s' := by
  unfold proceed at he
  split at he
  · cases he
  · cases he
  · cases he
  next child hp =>
    cases he
    have hc : (s.phase p).child? = some child := by rw [hp]; rfl
    exact ((h.dropChild hactive hp).freeUsed (h.family.child p child hc)
      (h.family.allocFailed p child hp) (h.only_child hc rfl)).setResult _
  next child pid hp =>
    split at he
    next hnone =>
      cases he
      exact h.adopt hp hactive
    · cases he
  next child pid hp =>
    split at he
    next hl =>
      cases he
      exact (h.launch hp hactive).setResult _
    · cases he
  next status k hp =>
    have hexits : (s.phase p).exits = true := by rw [hp]; rfl
    split at he
    next hk =>
      split at he
      next hparent =>
        cases he
        exact h.reparent hp rfl hactive hparent
      next hparent =>
        cases he
        refine h.exitNext _ hactive hexits rfl (fun c hc hpass => ?_) (by simp [Phase.hasWoken])
          (by simp [hp, Phase.wakes])
        have hleft := h.family.parent_left c p hc
        rw [hp] at hleft
        simp only [Phase.hasPassed] at hleft hpass
        have hck : c = ⟨k, hk⟩ := Fin.ext (by simp only; omega)
        exact hparent (hck ▸ hc)
    next hk =>
      cases he
      refine h.exitNext _ hactive hexits rfl (fun c hc _ => ?_) (by simp [Phase.hasWoken])
        (by simp [hp, Phase.wakes])
      have hleft := h.family.parent_left c p hc
      rw [hp] at hleft
      simp only [Phase.hasPassed] at hleft
      have := c.isLt
      omega
  next status k j hp =>
    have hexits : (s.phase p).exits = true := by rw [hp]; rfl
    have hinit : p ≠ initialProcess := by
      rintro rfl
      simp [h.family.init.2.2] at hexits
    have hpassed : ∀ c, (s.table c).parentProcess = some p → ¬c.val ≤ k := by
      intro c hc
      have hleft := h.family.parent_left c p hc
      rwa [hp] at hleft
    have hwakes : (s.phase p).wakes initialProcess → j ≤ initialProcess.val := by
      rw [hp]
      exact id
    split at he
    next hj =>
      split at he
      next hjp =>
        cases he
        refine h.exitNext _ hactive hexits rfl hpassed (by simp [Phase.hasWoken]) (fun _ hw => ?_)
        have hne : initialProcess.val ≠ j := fun hv => hinit (hjp.symm.trans (Fin.ext hv.symm))
        have := hwakes hw
        simp only [Phase.wakes]
        omega
      · split at he
        next hl =>
          cases he
          obtain ⟨hw, hawake, hsub, hphase, hparents, hkeep⟩ :=
            h.wake ⟨j, hj⟩ (.process initialProcess)
          refine hw.exitNext _ (hkeep p hactive) (hphase ▸ hexits) rfl (fun c hc => ?_)
            (by simp [Phase.hasWoken]) (fun hs hws => ?_)
          · exact hpassed c (hparents c ▸ hc)
          · rw [hphase] at hws
            have := hwakes hws
            have hne : initialProcess.val ≠ j := by
              rintro rfl
              exact hawake hs rfl
            simp only [Phase.wakes]
            omega
        · cases he
    next hj =>
      cases he
      refine h.exitNext _ hactive hexits rfl (fun c hc hpass => ?_) (by simp [Phase.hasWoken])
        (fun _ hw => ?_)
      · simp only [Phase.hasPassed] at hpass
        exact hpassed c hc (by omega)
      · have := hwakes hw
        have := initialProcess.isLt
        omega
  next status j hp =>
    have hexits : (s.phase p).exits = true := by rw [hp]; rfl
    have hpassed : ∀ c, (s.table c).parentProcess ≠ some p := by
      intro c hc
      have hleft := h.family.parent_left c p hc
      rw [hp] at hleft
      exact hleft trivial
    have hawake : ∀ q, (s.table p).parentProcess = some q → q.val < j → ¬s.AsleepInWait q := by
      intro q hq hqj
      refine h.woken p q hq ?_
      rwa [hp]
    have hself : ¬s.AsleepInWait p := by
      rintro ⟨⟨copy, hc⟩, -⟩
      simp [hp] at hc
    split at he
    · cases he
    next parent hparent =>
    split at he
    next hj =>
      split at he
      next hjp =>
        cases he
        refine h.exitNext _ hactive hexits rfl (fun c hc => absurd hc (hpassed c))
          (fun q hq hw => ?_) (by simp [hp, Phase.wakes])
        simp only [Phase.hasWoken] at hw
        obtain hqj | hqj := Nat.lt_succ_iff_lt_or_eq.mp hw
        · exact hawake q hq hqj
        · have : q = p := (Fin.ext hqj : q = ⟨j, hj⟩).trans hjp
          exact this ▸ hself
      · split at he
        next hl =>
          cases he
          obtain ⟨hw, hwoken, hsub, hphase, hparents, hkeep⟩ := h.wake ⟨j, hj⟩ (.process parent)
          refine hw.exitNext _ (hkeep p hactive) (hphase ▸ hexits) rfl
            (fun c hc => absurd (hparents c ▸ hc) (hpassed c)) (fun q hq hqw hs => ?_)
            (by simp [hphase, hp, Phase.wakes])
          rw [hparents] at hq
          simp only [Phase.hasWoken] at hqw
          obtain hqj | hqj := Nat.lt_succ_iff_lt_or_eq.mp hqw
          · exact hawake q hq hqj (hsub q hs)
          · obtain rfl : q = ⟨j, hj⟩ := Fin.ext hqj
            refine hwoken hs ?_
            rw [Option.some.inj (hparent.symm.trans hq)]
        · cases he
    next hj =>
      cases he
      refine h.exitNext _ hactive hexits rfl (fun c hc => absurd hc (hpassed c))
        (fun q hq _ => hawake q hq ?_) (by simp [hp, Phase.wakes])
      have := q.isLt
      omega
  next status hp =>
    cases he
    exact h.die hp hactive
  next copy haveKids k hp =>
    split at he
    next hk =>
      simp only at he
      split at he
      next hparent =>
        cases he
        exact h.scanNext hk hactive hp haveKids id (fun hc => absurd hc hparent)
      next hparent =>
        have hparent := not_not.mp hparent
        split at he
        · cases he
        next hl =>
        split at he
        next hzombie =>
          split at he
          · cases he
            exact (h.giveUp hactive hp).setResult _
          · cases he
            have hr := h.reap hp hparent hzombie (by simpa using hl)
            have hne : (⟨k, hk⟩ : Slot) ≠ p := by
              rintro rfl
              simp [hactive.1] at hzombie
            refine (@Invariant.giveUp initialProcess _ hr p copy haveKids k ?_ hp).setResult _
            have := hactive.1
            have := hactive.2
            grind
        next hzombie =>
          cases he
          exact h.scanNext hk hactive hp true (fun _ => rfl) (fun _ => ⟨rfl, hzombie⟩)
    next hk =>
      split at he
      · cases he
        exact (h.giveUp hactive hp).setResult _
      · split at he
        · cases he
          exact (h.giveUp hactive hp).setResult _
        · cases he
          exact h.fallAsleep hp (by omega) hactive
  next copy hp =>
    split at he
    next hnone =>
      cases he
      exact h.startScan hactive (.inr hp) hnone
    · cases he
  next pid k hp =>
    have hfree : (s.phase p).holdsWaitLock = false ∧ (s.phase p).child? = none := by
      rw [hp]
      exact ⟨rfl, rfl⟩
    split at he
    next hk =>
      split at he
      · cases he
      next hl =>
      split at he
      · cases he
        have hl' : s.locked ⟨k, hk⟩ = false := by simpa using hl
        refine ((h.kill ⟨k, hk⟩ hl').moveFree .user ?_ hfree.1 hfree.2 (.inl rfl)).setResult _
        rw [active_iff, State.setProcess_table]
        split
        next hpk => exact ⟨by simp [← hpk, hactive.1], hactive.2⟩
        · exact hactive
      · cases he
        exact h.moveFree _ hactive hfree.1 hfree.2 (.inr ⟨_, _, rfl⟩)
    next hk =>
      cases he
      exact (h.moveFree .user hactive hfree.1 hfree.2 (.inl rfl)).setResult _

theorem invariant_step {s' : State} {e : Event} (h : Invariant initialProcess s)
    (he : step initialProcess s e = some s') : Invariant initialProcess s' := by
  cases e with
  | schedule i =>
    simp only [step] at he
    split at he
    next hen =>
      cases he
      refine h.touch i (fun j hj => ?_) ?_ ?_ rfl rfl ⟨rfl, rfl, rfl, rfl, rfl, rfl⟩ (fun hp => ?_)
        ?_ ?_ ?_ ?_
      · simp [State.setProcess, State.setLocked, State.setOnStack, hj]
      · simp [State.setProcess, State.setLocked, State.setOnStack, hen.2, ProcessState.IsLive]
      · simp [State.setProcess, State.setLocked, State.setOnStack]
      · have := (h.active i hp).1
        simp [hen.2] at this
      all_goals simp [State.setProcess, State.setLocked, State.setOnStack]
    · cases he
  | resume i =>
    simp only [step] at he
    split at he
    next hen =>
      have ht : Invariant initialProcess ((s.setProcess i { s.table i with
          sleepingChannel := none }).setLocked i false) := by
        refine h.touch i (fun j hj => ?_) ?_ ?_ rfl rfl ⟨rfl, rfl, rfl, rfl, rfl, rfl⟩
          (fun hp => ?_) ?_ ?_ ?_ ?_
        · simp [State.setProcess, State.setLocked, hj]
        · simp [State.setProcess, State.setLocked]
        · simp [State.setProcess, State.setLocked]
        · have := (h.active i hp).2
          simp [hen.1] at this
        all_goals simp [State.setProcess, State.setLocked, hen]
      have hactive : ((s.setProcess i { s.table i with
          sleepingChannel := none }).setLocked i false).Active i := by
        simp [State.setProcess, State.setLocked, State.Active, hen]
      split at he
      next copy hp =>
        cases he
        exact ht.wakeUp hactive hp
      · cases he
        exact ht
    · cases he
  | leave i =>
    simp only [step] at he
    split at he
    next hen =>
      cases he
      refine h.touch i (fun j hj => ?_) (.inl rfl) ⟨rfl, rfl, rfl⟩ rfl rfl
        ⟨rfl, rfl, rfl, rfl, rfl, rfl⟩ (h.active i) (fun hl => ?_)
        (fun hs => absurd hs hen.2.2) (h.newborn i) (fun hs _ => ⟨hs, rfl⟩)
      · simp [State.setOnStack, hj]
      · have : s.locked i = false := hl
        simp [hen.1] at this
    · cases he
  | schedulerRelease i =>
    simp only [step] at he
    split at he
    next hen =>
      cases he
      refine h.touch i (fun j hj => ?_) (.inl rfl) ⟨rfl, rfl, rfl⟩ rfl rfl
        ⟨rfl, rfl, rfl, rfl, rfl, rfl⟩ (fun hp => ?_) (fun _ => ?_) (h.running i) (fun _ => ?_)
        (fun hs _ => ⟨hs, rfl⟩)
      · simp [State.setLocked, hj]
      · have := (h.active i hp).2
        simp [hen.1] at this
      · have hon : s.onStack i = false := hen.2
        have := h.running i
        change s.onStack i = true ↔ (s.table i).state = .running
        grind
      · simp [State.setLocked]
    · cases he
  | yield p =>
    simp only [step] at he
    split at he
    next hen =>
      cases he
      refine h.touch p (fun j hj => ?_) ?_ ?_ rfl rfl ⟨rfl, rfl, rfl, rfl, rfl, rfl⟩ (fun hp => ?_)
        ?_ ?_ ?_ ?_
      · simp [State.setProcess, State.setLocked, hj]
      · simp [State.setProcess, State.setLocked, hen.1.1, ProcessState.IsLive]
      · simp [State.setProcess, State.setLocked]
      · simp [hen.2] at hp
      all_goals simp [State.setProcess, State.setLocked]
    · cases he
  | sleep p address =>
    simp only [step] at he
    split at he
    next hen =>
      cases he
      refine h.touch p (fun j hj => ?_) ?_ ?_ rfl rfl ⟨rfl, rfl, rfl, rfl, rfl, rfl⟩ (fun hp => ?_)
        ?_ ?_ ?_ ?_
      · simp [State.setProcess, State.setLocked, hj]
      · simp [State.setProcess, State.setLocked, hen.1.1, ProcessState.IsLive]
      · simp [State.setProcess, State.setLocked]
      · simp [hen.2, Phase.holdsWaitLock] at hp
      all_goals simp [State.setProcess, State.setLocked, hen.2]
    · cases he
  | wakeup i address =>
    simp only [step] at he
    split at he
    · cases he
      exact (h.wake i (.other address)).1
    · cases he
  | forkNoSlot p =>
    simp only [step] at he
    split at he
    next hen =>
      cases he
      exact (h.moveFree .user hen.1 (by rw [hen.2]; rfl) (by rw [hen.2]; rfl) (.inl rfl)).setResult _
    · cases he
  | forkInitFails p i =>
    simp only [step] at he
    split at he
    next hen =>
      cases he
      exact h.fill hen.1 hen.2.1 hen.2.2.2 (.inl rfl)
    · cases he
  | fork p i isCopied =>
    simp only [step] at he
    split at he
    next hen =>
      split at he
      · cases he
        exact h.fill hen.1 hen.2.1 hen.2.2.2 (.inr rfl)
      · cases he
        exact (h.copyFails hen.1 hen.2.1 hen.2.2.2).setResult _
    · cases he
  | exit p status =>
    simp only [step] at he
    split at he
    next hen =>
      cases he
      exact h.startExit hen.1 hen.2.1 hen.2.2.1 hen.2.2.2
    · cases he
  | wait p copy =>
    simp only [step] at he
    split at he
    next hen =>
      cases he
      exact h.startScan hen.1 (.inl hen.2.1) hen.2.2
    · cases he
  | kill p pid =>
    simp only [step] at he
    split at he
    next hen =>
      cases he
      exact h.moveFree _ hen.1 (by rw [hen.2]; rfl) (by rw [hen.2]; rfl) (.inr ⟨_, _, rfl⟩)
    · cases he
  | setKilled p =>
    simp only [step] at he
    split at he
    next hen =>
      cases he
      have := h.kill p hen.1.2
      simpa [hen.1.1] using this
    · cases he
  | step p copied =>
    simp only [step] at he
    split at he
    next hactive => exact invariant_proceed h hactive he
    · cases he

theorem Initial.invariant (h : Initial initialProcess s) : Invariant initialProcess s := by
  have hfreed : Process.freed.state = .unused ∧ Process.freed.parentProcess = none := ⟨rfl, rfl⟩
  have hothers := h.others
  have hinit := h.init
  have hphase := h.phase
  have hlife := h.life
  have hexit := h.exitStatus
  have hlive : (s.table initialProcess).state.IsLive := .inr (.inl hinit.1)
  have hone : ∀ i, (s.table i).state ≠ .unused → i = initialProcess := by
    intro i hi
    by_contra hne
    rw [hothers i hne] at hi
    exact hi rfl
  have hnone : ∀ i, (s.table i).parentProcess = none := by
    intro i
    by_cases hi : i = initialProcess
    · exact hi ▸ hinit.2
    · rw [hothers i hi]
      rfl
  have hstate : ∀ i, (s.table i).state = .unused ∨ (s.table i).state = .runnable := by
    intro i
    by_cases hi : i = initialProcess
    · exact .inr (hi ▸ hinit.1)
    · rw [hothers i hi]
      exact .inl rfl
  have hfamily : Family initialProcess s := by
    constructor
    case init => exact ⟨hlive, hinit.2, by rw [hphase]; rfl⟩
    case reaped_nodup => simp [h.reaped]
    case reaped => simp [h.reaped]
    case reaped_gone => simp [h.reaped]
    case kept => simp [hexit]
    case life_lt =>
      intro i hi
      rw [hone i hi]
      omega
    case life_inj =>
      intro i j hi hj _
      rw [hone i hi, hone j hj]
    case has_parent => exact fun c hc hu _ => absurd (hone c hu) hc
    case pid => exact fun c hc hu _ => absurd (hone c hu) hc
    case zombie_status =>
      intro i hi
      have := hstate i
      simp [hi] at this
    case zombie =>
      intro i hi
      have := hstate i
      simp [hi] at this
    case used =>
      intro i _
      exact hphase i
    case no_status => exact fun i _ _ => hexit _
    case later => exact fun x _ => hexit x
    all_goals simp [hphase, hnone, Phase.child?]
  refine ⟨hfamily, ?_, ?_, ?_, ?_, ?_, ?_, ?_, ?_⟩
  · simp [hphase, h.waitLock, Phase.holdsWaitLock]
  · simp [hphase, Phase.holdsWaitLock]
  · intro i _
    have := hstate i
    simp only [h.onStack]
    grind
  · intro i hi
    have := hstate i
    simp [hi] at this
  · exact fun i _ => h.locked i
  · rintro q ⟨⟨copy, hq⟩, -⟩
    simp [hphase] at hq
  · simp [hnone]
  · simp [hnone]

theorem invariant_run {s₀ : State} {es : List Event} (h0 : Initial initialProcess s₀)
    (hrun : Transition.run (step initialProcess) s₀ es = some s) : Invariant initialProcess s :=
  Transition.run_induction (P := fun _ s => Invariant initialProcess s) h0.invariant
    (fun _ _ _ _ _ h he => invariant_step h he) es s hrun

@[grind =] theorem setLocked_table (s : State) (i j : Slot) (b : Bool) :
    (s.setLocked i b).table j = s.table j := rfl

@[grind =] theorem setOnStack_table (s : State) (i j : Slot) (b : Bool) :
    (s.setOnStack i b).table j = s.table j := rfl

@[grind =] theorem finish_table (s : State) (p j : Slot) (r : Result) :
    (s.finish p r).table j = s.table j := rfl

@[grind =] theorem wake_unused (s : State) (i j : Slot) (c : Channel) :
    ((s.wake i c).table j).state = .unused ↔ (s.table j).state = .unused := by
  unfold State.wake
  grind

/-- The first process, in slot 0. -/
def firstUser : State where
  table i := if i = 0 then { Process.freed with state := .runnable, pid := 1 } else .freed
  nextProcessId := 2
  waitLock := none
  locked _ := false
  onStack _ := false
  phase _ := .user
  result _ := .none
  life _ := 0
  lives := 1
  forker _ := 0
  forkPid _ := none
  exitStatus _ := none
  reaped := []

end Zigmaos.ProcessTable
