import Zigmaos.ProcessTable

/-!
# Parents and children

Who is whose parent, which zombies wait to be reaped and what has been reaped.
Nothing here depends on how processes are scheduled: only the steps of fork,
exit and wait matter.
-/
namespace Zigmaos.ProcessTable

namespace State
variable (s : State) (i j k : Slot)

@[simp, grind =] theorem setProcess_table (e : Process) :
    (s.setProcess i e).table j = if j = i then e else s.table j := by
  simp [setProcess, Function.update_apply]

@[simp, grind =] theorem setPhase_phase (f : Phase) :
    (s.setPhase i f).phase j = if j = i then f else s.phase j := by
  simp [setPhase, Function.update_apply]

@[simp, grind =] theorem setLocked_locked (b : Bool) :
    (s.setLocked i b).locked j = if j = i then b else s.locked j := by
  simp [setLocked, Function.update_apply]

@[simp, grind =] theorem setOnStack_onStack (b : Bool) :
    (s.setOnStack i b).onStack j = if j = i then b else s.onStack j := by
  simp [setOnStack, Function.update_apply]

@[simp, grind =] theorem setProcess_phase (e : Process) : (s.setProcess i e).phase j = s.phase j := rfl

@[simp, grind =] theorem setProcess_locked (e : Process) : (s.setProcess i e).locked j = s.locked j := rfl

@[simp, grind =] theorem setProcess_onStack (e : Process) : (s.setProcess i e).onStack j = s.onStack j := rfl

@[simp, grind =] theorem setProcess_life (e : Process) : (s.setProcess i e).life j = s.life j := rfl

@[simp, grind =] theorem setProcess_forker (e : Process) (x : ℕ) : (s.setProcess i e).forker x = s.forker x := rfl

@[simp, grind =] theorem setProcess_forkPid (e : Process) (x : ℕ) : (s.setProcess i e).forkPid x = s.forkPid x := rfl

@[simp, grind =] theorem setProcess_exitStatus (e : Process) (x : ℕ) : (s.setProcess i e).exitStatus x = s.exitStatus x := rfl

@[simp, grind =] theorem setProcess_lives (e : Process) : (s.setProcess i e).lives = s.lives := rfl

@[simp, grind =] theorem setProcess_reaped (e : Process) : (s.setProcess i e).reaped = s.reaped := rfl

@[simp, grind =] theorem setProcess_waitLock (e : Process) : (s.setProcess i e).waitLock = s.waitLock := rfl

@[simp, grind =] theorem setPhase_table (f : Phase) : (s.setPhase i f).table j = s.table j := rfl

@[simp, grind =] theorem setPhase_locked (f : Phase) : (s.setPhase i f).locked j = s.locked j := rfl

@[simp, grind =] theorem setPhase_onStack (f : Phase) : (s.setPhase i f).onStack j = s.onStack j := rfl

@[simp, grind =] theorem setPhase_life (f : Phase) : (s.setPhase i f).life j = s.life j := rfl

@[simp, grind =] theorem setPhase_forker (f : Phase) (x : ℕ) : (s.setPhase i f).forker x = s.forker x := rfl

@[simp, grind =] theorem setPhase_forkPid (f : Phase) (x : ℕ) : (s.setPhase i f).forkPid x = s.forkPid x := rfl

@[simp, grind =] theorem setPhase_exitStatus (f : Phase) (x : ℕ) : (s.setPhase i f).exitStatus x = s.exitStatus x := rfl

@[simp, grind =] theorem setPhase_lives (f : Phase) : (s.setPhase i f).lives = s.lives := rfl

@[simp, grind =] theorem setPhase_reaped (f : Phase) : (s.setPhase i f).reaped = s.reaped := rfl

@[simp, grind =] theorem setPhase_waitLock (f : Phase) : (s.setPhase i f).waitLock = s.waitLock := rfl

@[grind =] theorem startInit_table : (s.startInit i j).table k =
    if k = j then { s.table j with state := .used, pid := s.nextProcessId } else s.table k :=
  s.setProcess_table j k _

@[grind =] theorem startInit_phase :
    (s.startInit i j).phase k = if k = j then .user else s.phase k :=
  (s.setProcess j _).setPhase_phase j k .user

@[grind =] theorem startInit_life :
    (s.startInit i j).life k = if k = j then s.lives else s.life k := by
  simp [startInit, Function.update_apply]

@[grind =] theorem startInit_forker (x : ℕ) :
    (s.startInit i j).forker x = if x = s.lives then s.life i else s.forker x := by
  simp [startInit, Function.update_apply]

@[simp, grind =] theorem startInit_lives : (s.startInit i j).lives = s.lives + 1 := rfl

@[simp, grind =] theorem startInit_forkPid (x : ℕ) : (s.startInit i j).forkPid x = s.forkPid x :=
  rfl

@[simp, grind =] theorem startInit_exitStatus (x : ℕ) :
    (s.startInit i j).exitStatus x = s.exitStatus x := rfl

@[simp, grind =] theorem startInit_reaped : (s.startInit i j).reaped = s.reaped := rfl

@[simp, grind =] theorem startInit_locked : (s.startInit i j).locked k = s.locked k := rfl

@[simp, grind =] theorem startInit_onStack : (s.startInit i j).onStack k = s.onStack k := rfl

@[simp, grind =] theorem startInit_waitLock : (s.startInit i j).waitLock = s.waitLock := rfl

end State

def ProcessState.IsLive (e : ProcessState) : Prop := e = .running ∨ e = .runnable ∨ e = .sleeping

@[grind =] theorem isLive_iff (e : ProcessState) :
    e.IsLive ↔ e = .running ∨ e = .runnable ∨ e = .sleeping := Iff.rfl

/-- The slot that the process fills in `fork`. -/
@[grind] def Phase.child? : Phase → Option Slot
  | .allocFailed c | .forked c _ | .parented c _ => some c
  | _ => none

attribute [grind] Phase.holdsWaitLock

/-- Inside `exit`, from `reparentChildren` on. -/
@[grind] def Phase.exits : Phase → Bool
  | .reparenting _ _ | .wakingInit _ _ _ | .wakingParent _ _ | .dying _ => true
  | _ => false

/-- `reparentChildren` is through with the slot. -/
@[grind] def Phase.hasPassed : Phase → Slot → Prop
  | .reparenting _ k, c => c.val < k
  | .wakingInit _ k _, c => c.val ≤ k
  | .wakingParent _ _, _ | .dying _, _ | .dead, _ => True
  | _, _ => False

theorem not_hasPassed (f : Phase) (c : Slot) (hf : f.exits = false) (hdead : f ≠ .dead) :
    ¬f.hasPassed c := by
  cases f <;> simp_all [Phase.exits, Phase.hasPassed]

theorem exits_holdsWaitLock (f : Phase) (hf : f.exits = true) : f.holdsWaitLock = true := by
  cases f <;> simp_all [Phase.exits, Phase.holdsWaitLock]

structure Family (initialProcess : Slot) (s : State) : Prop where
  init : (s.table initialProcess).state.IsLive ∧ (s.table initialProcess).parentProcess = none ∧
    (s.phase initialProcess).exits = false
  unused : ∀ i, (s.table i).state = .unused → (s.table i).parentProcess = none ∧
    (s.phase i = .user ∨ s.phase i = .dead)
  used : ∀ i, (s.table i).state = .used → s.phase i = .user
  zombie : ∀ i, (s.table i).state = .zombie → s.phase i = .dead
  dead : ∀ i, s.phase i = .dead → ¬(s.table i).state.IsLive
  child : ∀ p c, (s.phase p).child? = some c → (s.table c).state = .used
  child_unique : ∀ p q c, (s.phase p).child? = some c → (s.phase q).child? = some c → p = q
  allocFailed : ∀ p c, s.phase p = .allocFailed c → (s.table c).parentProcess = none
  forked : ∀ p c pid, s.phase p = .forked c pid → (s.table c).parentProcess = none ∧
    (s.table c).pid = pid ∧ s.forker (s.life c) = s.life p
  parented : ∀ p c pid, s.phase p = .parented c pid → (s.table c).parentProcess = some p ∧
    (s.table c).pid = pid ∧ s.forker (s.life c) = s.life p
  used_parent : ∀ c q, (s.table c).state = .used → (s.table c).parentProcess = some q →
    ∃ pid, s.phase q = .parented c pid
  parent_live : ∀ c q, (s.table c).parentProcess = some q → (s.table q).state.IsLive
  parent_left : ∀ c q, (s.table c).parentProcess = some q → ¬(s.phase q).hasPassed c
  parent_who : ∀ c q, (s.table c).parentProcess = some q →
    s.life q = s.forker (s.life c) ∨ (q = initialProcess ∧
      (s.exitStatus (s.forker (s.life c)) ≠ none ∨
        ∃ f, s.life f = s.forker (s.life c) ∧ (s.table f).state.IsLive ∧
          (s.phase f).exits = true))
  has_parent : ∀ c, c ≠ initialProcess → (s.table c).state ≠ .unused →
    (s.table c).state ≠ .used → (s.table c).parentProcess ≠ none
  life_lt : ∀ i, (s.table i).state ≠ .unused → s.life i < s.lives
  life_inj : ∀ i j, (s.table i).state ≠ .unused → (s.table j).state ≠ .unused →
    s.life i = s.life j → i = j
  pid : ∀ c, c ≠ initialProcess → (s.table c).state ≠ .unused → (s.table c).state ≠ .used →
    s.forkPid (s.life c) = some (s.table c).pid
  zombie_status : ∀ i, (s.table i).state = .zombie →
    s.exitStatus (s.life i) = some (s.table i).exitStatus
  no_status : ∀ i, (s.table i).state ≠ .unused → (s.table i).state ≠ .zombie →
    s.exitStatus (s.life i) = none
  later : ∀ x, s.lives ≤ x → s.exitStatus x = none
  kept : ∀ x, s.exitStatus x ≠ none →
    (∃ i, s.life i = x ∧ (s.table i).state = .zombie) ∨ ∃ r ∈ s.reaped, r.child = x
  reaped_gone : ∀ r ∈ s.reaped, r.child < s.lives ∧
    ∀ i, (s.table i).state ≠ .unused → s.life i ≠ r.child
  reaped_nodup : (s.reaped.map Reap.child).Nodup
  reaped : ∀ r ∈ s.reaped, s.exitStatus r.child = some r.status ∧
    s.forkPid r.child = some r.pid ∧ (r.waiter = s.forker r.child ∨
      (r.waiter = s.life initialProcess ∧ s.exitStatus (s.forker r.child) ≠ none))
  scan : ∀ p copy haveKids k, s.phase p = .scanning copy haveKids k →
    ∀ c : Slot, c.val < k → (s.table c).parentProcess = some p →
      haveKids = true ∧ (s.table c).state ≠ .zombie

variable {initialProcess : Slot} {s : State}

/-- A step that only moves the process `p` on, or changes how processes are scheduled. -/
theorem Family.move (h : Family initialProcess s) {t : State} (p : Slot)
    (hstate : ∀ i, (t.table i).state = (s.table i).state ∨
      ((t.table i).state.IsLive ∧ (s.table i).state.IsLive))
    (htable : ∀ i, (t.table i).parentProcess = (s.table i).parentProcess ∧
      (t.table i).pid = (s.table i).pid ∧ (t.table i).exitStatus = (s.table i).exitStatus)
    (hlife : t.life = s.life ∧ t.lives = s.lives) (hforker : t.forker = s.forker)
    (hforkPid : t.forkPid = s.forkPid) (hexit : t.exitStatus = s.exitStatus)
    (hreaped : t.reaped = s.reaped) (hphase : ∀ q, q ≠ p → t.phase q = s.phase q)
    (hlive : (s.table p).state.IsLive)
    (hchild : ∀ c, (t.phase p).child? = some c → (s.table c).state = .used ∧
      ∀ q, q ≠ p → (s.phase q).child? ≠ some c)
    (hfailed : ∀ c, t.phase p = .allocFailed c → (s.table c).parentProcess = none)
    (hforked : ∀ c pid, t.phase p = .forked c pid → (s.table c).parentProcess = none ∧
      (s.table c).pid = pid ∧ s.forker (s.life c) = s.life p)
    (hparented : ∀ c pid, t.phase p = .parented c pid ↔ s.phase p = .parented c pid)
    (hdead : t.phase p ≠ .dead)
    (hexits : (t.phase p).exits = true → p ≠ initialProcess)
    (hstays : (s.phase p).exits = true → (t.phase p).exits = true)
    (hpassed : ∀ c, (s.table c).parentProcess = some p → ¬(t.phase p).hasPassed c)
    (hscan : ∀ copy haveKids k, t.phase p = .scanning copy haveKids k → ∀ c : Slot, c.val < k →
      (s.table c).parentProcess = some p → haveKids = true ∧ (s.table c).state ≠ .zombie) :
    Family initialProcess t := by
  have hl : ∀ i, (t.table i).state.IsLive ↔ (s.table i).state.IsLive := by grind
  have hu : ∀ i, (t.table i).state = .unused ↔ (s.table i).state = .unused := by grind
  have hd : ∀ i, (t.table i).state = .used ↔ (s.table i).state = .used := by grind
  have hz : ∀ i, (t.table i).state = .zombie ↔ (s.table i).state = .zombie := by grind
  have hself : ∀ q, q = p ∨ t.phase q = s.phase q := fun q => by grind
  constructor
  case init =>
    have := h.init
    grind
  case unused =>
    intro i hi
    have := h.unused i
    grind
  case used =>
    intro i hi
    have := h.used i
    grind
  case zombie =>
    intro i hi
    have := h.zombie i
    grind
  case dead =>
    intro i hi
    have := h.dead i
    grind
  case child =>
    intro q c hq
    have := h.child q c
    grind
  case child_unique =>
    intro q r c hq hr
    have := h.child_unique q r c
    grind
  case allocFailed =>
    intro q c hq
    have := h.allocFailed q c
    grind
  case forked =>
    intro q c pid hq
    have := h.forked q c pid
    grind
  case parented =>
    intro q c pid hq
    have := h.parented q c pid
    grind
  case used_parent =>
    intro c q hc hq
    have := h.used_parent c q
    grind
  case parent_live =>
    intro c q hq
    have := h.parent_live c q
    grind
  case parent_left =>
    intro c q hq
    have := h.parent_left c q
    grind
  case parent_who =>
    intro c q hq
    have := h.parent_who c q
    grind
  case has_parent =>
    intro c h1 h2 h3
    have := h.has_parent c
    grind
  case life_lt =>
    intro i hi
    have := h.life_lt i
    grind
  case life_inj =>
    intro i j hi hj hij
    have := h.life_inj i j
    grind
  case pid =>
    intro c h1 h2 h3
    have := h.pid c
    grind
  case zombie_status =>
    intro i hi
    have := h.zombie_status i
    grind
  case no_status =>
    intro i h1 h2
    have := h.no_status i
    grind
  case later =>
    intro x hx
    have := h.later x
    grind
  case kept =>
    intro x hx
    have := h.kept x
    grind
  case reaped_gone =>
    intro r hr
    have := h.reaped_gone r
    grind
  case reaped_nodup => exact hreaped ▸ h.reaped_nodup
  case reaped =>
    intro r hr
    have := h.reaped r
    grind
  case scan =>
    intro q copy haveKids k hq c hc hparent
    rw [(htable c).1] at hparent
    have hscanned : haveKids = true ∧ (s.table c).state ≠ .zombie := by
      obtain rfl | hne := eq_or_ne q p
      · exact hscan copy haveKids k hq c hc hparent
      · exact h.scan q copy haveKids k (by rw [← hphase q hne, hq]) c hc hparent
    exact ⟨hscanned.1, fun hzombie => hscanned.2 ((hz c).mp hzombie)⟩

/-- A step that leaves every process where it is in its call. -/
theorem Family.schedule (h : Family initialProcess s) {t : State}
    (hstate : ∀ i, (t.table i).state = (s.table i).state ∨
      ((t.table i).state.IsLive ∧ (s.table i).state.IsLive))
    (htable : ∀ i, (t.table i).parentProcess = (s.table i).parentProcess ∧
      (t.table i).pid = (s.table i).pid ∧ (t.table i).exitStatus = (s.table i).exitStatus)
    (hlife : t.life = s.life ∧ t.lives = s.lives) (hforker : t.forker = s.forker)
    (hforkPid : t.forkPid = s.forkPid) (hexit : t.exitStatus = s.exitStatus)
    (hreaped : t.reaped = s.reaped) (hphase : t.phase = s.phase) : Family initialProcess t := by
  refine h.move initialProcess hstate htable hlife hforker hforkPid hexit hreaped
    (fun q _ => by rw [hphase]) h.init.1 ?_ ?_ ?_ ?_ ?_ ?_ ?_ ?_ ?_
  all_goals rw [hphase]
  · exact fun c hc => ⟨h.child _ c hc, fun q hq hqc => hq (h.child_unique q _ c hqc hc)⟩
  · exact fun c => h.allocFailed _ c
  · exact fun c pid => h.forked _ c pid
  · exact fun c pid => Iff.rfl
  · exact fun hd => h.dead _ hd h.init.1
  · exact fun hx => absurd (h.init.2.2 ▸ hx) (by simp)
  · exact id
  · exact fun c => h.parent_left c _
  · exact fun copy haveKids k => h.scan _ copy haveKids k

/-- `init` of an unused slot, for a fork of `p`. -/
theorem Family.startInit (h : Family initialProcess s) {p i : Slot}
    (hunused : (s.table i).state = .unused) : Family initialProcess (s.startInit p i) := by
  have hlater := h.later
  have hinit := h.init
  have hlt := h.life_lt
  constructor
  case init =>
    have := h.init
    grind
  case unused =>
    intro i hi
    have := h.unused i
    grind
  case used =>
    intro i hi
    have := h.used i
    grind
  case zombie =>
    intro i hi
    have := h.zombie i
    grind
  case dead =>
    intro i hi
    have := h.dead i
    grind
  case child =>
    intro q c hq
    have := h.child q c
    grind
  case child_unique =>
    intro q r c hq hr
    have := h.child_unique q r c
    grind
  case allocFailed =>
    intro q c hq
    have := h.allocFailed q c
    grind
  case forked =>
    intro q c pid hq
    have := h.forked q c pid
    have := h.child q c
    have := hlt c
    grind
  case parented =>
    intro q c pid hq
    have := h.parented q c pid
    have := h.child q c
    have := hlt c
    grind
  case used_parent =>
    intro c q hc hq
    have := h.used_parent c q
    have := h.unused c
    have := h.unused i hunused
    grind
  case parent_live =>
    intro c q hq
    have := h.parent_live c q
    grind
  case parent_left =>
    intro c q hq
    have := h.parent_left c q
    grind
  case parent_who =>
    intro c q hq
    have hne := h.unused i hunused
    have hlt := hlt c
    have hold : (s.table c).parentProcess = some q := by grind
    have hlive := h.parent_live c q hold
    have hc : (s.table c).state = .unused → (s.table c).parentProcess = none := fun hu => (h.unused c hu).1
    obtain hw | ⟨rfl, hw | ⟨f, hf, hlive, hexits⟩⟩ := h.parent_who c q hold
    · exact .inl (by grind)
    · exact .inr ⟨rfl, .inl (by grind)⟩
    · exact .inr ⟨rfl, .inr ⟨f, by grind, by grind, by grind⟩⟩
  case has_parent =>
    intro c h1 h2 h3
    have := h.has_parent c
    grind
  case life_lt =>
    intro i hi
    have := h.life_lt i
    grind
  case life_inj =>
    intro i j hi hj hij
    have := h.life_inj i j
    grind
  case pid =>
    intro c h1 h2 h3
    have := h.pid c
    grind
  case zombie_status =>
    intro i hi
    have := h.zombie_status i
    grind
  case no_status =>
    intro i h1 h2
    have := h.no_status i
    grind
  case later =>
    intro x hx
    have := h.later x
    grind
  case kept =>
    intro x hx
    obtain ⟨j, hj, hz⟩ | ⟨r, hr, hrx⟩ := h.kept x (by grind)
    · exact .inl ⟨j, by grind, by grind⟩
    · exact .inr ⟨r, by grind, hrx⟩
  case reaped_gone =>
    intro r hr
    have := h.reaped_gone r
    grind
  case reaped_nodup => exact h.reaped_nodup
  case reaped =>
    intro r hr
    have := h.reaped r
    grind
  case scan =>
    intro q copy haveKids k hq c hc hparent
    have := h.scan q copy haveKids k
    grind

/-- The slot of a process that is not yet anyone's child is freed. -/
theorem Family.freeUsed (h : Family initialProcess s) {c : Slot}
    (hused : (s.table c).state = .used) (hparent : (s.table c).parentProcess = none)
    (hchild : ∀ q, (s.phase q).child? ≠ some c) :
    Family initialProcess (s.setProcess c .freed) := by
  have hinit := h.init
  have hfreed : Process.freed.state = .unused ∧ Process.freed.parentProcess = none := ⟨rfl, rfl⟩
  constructor
  case init =>
    have := h.init
    grind
  case unused =>
    intro i hi
    have := h.unused i
    have := h.used i
    grind
  case used =>
    intro i hi
    have := h.used i
    grind
  case zombie =>
    intro i hi
    have := h.zombie i
    grind
  case dead =>
    intro i hi
    have := h.dead i
    grind
  case child =>
    intro q c hq
    have := h.child q c
    grind
  case child_unique =>
    intro q r c hq hr
    have := h.child_unique q r c
    grind
  case allocFailed =>
    intro q c hq
    have := h.allocFailed q c
    grind
  case forked =>
    intro q c pid hq
    have := h.forked q c pid
    grind
  case parented =>
    intro q c pid hq
    have := h.parented q c pid
    grind
  case used_parent =>
    intro c q hc hq
    have := h.used_parent c q
    grind
  case parent_live =>
    intro c q hq
    have := h.parent_live c q
    grind
  case parent_left =>
    intro c q hq
    have := h.parent_left c q
    grind
  case parent_who =>
    intro c q hq
    obtain hw | ⟨rfl, hw | ⟨f, hf, hlive, hexits⟩⟩ := h.parent_who c q (by grind)
    · exact .inl (by grind)
    · exact .inr ⟨rfl, .inl (by grind)⟩
    · exact .inr ⟨rfl, .inr ⟨f, by grind, by grind, by grind⟩⟩
  case has_parent =>
    intro c h1 h2 h3
    have := h.has_parent c
    grind
  case life_lt =>
    intro i hi
    have := h.life_lt i
    grind
  case life_inj =>
    intro i j hi hj hij
    have := h.life_inj i j
    grind
  case pid =>
    intro c h1 h2 h3
    have := h.pid c
    grind
  case zombie_status =>
    intro i hi
    have := h.zombie_status i
    grind
  case no_status =>
    intro i h1 h2
    have := h.no_status i
    grind
  case later =>
    intro x hx
    have := h.later x
    grind
  case kept =>
    intro x hx
    obtain ⟨j, hj, hz⟩ | ⟨r, hr, hrx⟩ := h.kept x (by grind)
    · exact .inl ⟨j, by grind, by grind⟩
    · exact .inr ⟨r, by grind, hrx⟩
  case reaped_gone =>
    intro r hr
    have := h.reaped_gone r
    grind
  case reaped_nodup => exact h.reaped_nodup
  case reaped =>
    intro r hr
    have := h.reaped r
    grind
  case scan =>
    intro q copy haveKids k hq c hc hparent
    have := h.scan q copy haveKids k
    grind

/-- `fork` sets the parent of its child. -/
theorem Family.adopt (h : Family initialProcess s) {p c : Slot} {pid : ℕ}
    (hp : s.phase p = .forked c pid) (hlive : (s.table p).state.IsLive) :
    Family initialProcess ((s.setProcess c
      { s.table c with parentProcess := some p }).setPhase p (.parented c pid)) := by
  have hinit := h.init
  obtain ⟨hnone, hpid, hforker⟩ := h.forked p c pid hp
  have hused := h.child p c (by simp [hp, Phase.child?])
  constructor
  case init =>
    have := h.init
    grind
  case unused =>
    intro i hi
    have := h.unused i
    grind
  case used =>
    intro i hi
    have := h.used i
    grind
  case zombie =>
    intro i hi
    have := h.zombie i
    grind
  case dead =>
    intro i hi
    have := h.dead i
    grind
  case child =>
    intro q c hq
    have := h.child q c
    grind
  case child_unique =>
    intro q r c hq hr
    have := h.child_unique q r c
    grind
  case allocFailed =>
    intro q c hq
    have := h.allocFailed q c
    have := h.child_unique p q c
    grind
  case forked =>
    intro q c pid hq
    have := h.forked q c pid
    have := h.child_unique p q c
    grind
  case parented =>
    intro q c pid hq
    have := h.parented q c pid
    grind
  case used_parent =>
    intro c q hc hq
    have := h.used_parent c q
    grind
  case parent_live =>
    intro c q hq
    have := h.parent_live c q
    grind
  case parent_left =>
    intro c q hq
    have := h.parent_left c q
    grind
  case parent_who =>
    intro d q hq
    by_cases hd : d = c
    · exact .inl (by grind)
    obtain hw | ⟨rfl, hw | ⟨f, hf, hlive, hexits⟩⟩ := h.parent_who d q (by grind)
    · exact .inl (by grind)
    · exact .inr ⟨rfl, .inl (by grind)⟩
    · exact .inr ⟨rfl, .inr ⟨f, by grind, by grind, by grind⟩⟩
  case has_parent =>
    intro c h1 h2 h3
    have := h.has_parent c
    grind
  case life_lt =>
    intro i hi
    have := h.life_lt i
    grind
  case life_inj =>
    intro i j hi hj hij
    have := h.life_inj i j
    grind
  case pid =>
    intro c h1 h2 h3
    have := h.pid c
    grind
  case zombie_status =>
    intro i hi
    have := h.zombie_status i
    grind
  case no_status =>
    intro i h1 h2
    have := h.no_status i
    grind
  case later =>
    intro x hx
    have := h.later x
    grind
  case kept =>
    intro x hx
    obtain ⟨j, hj, hz⟩ | ⟨r, hr, hrx⟩ := h.kept x (by grind)
    · exact .inl ⟨j, by grind, by grind⟩
    · exact .inr ⟨r, by grind, hrx⟩
  case reaped_gone =>
    intro r hr
    have := h.reaped_gone r
    grind
  case reaped_nodup => exact h.reaped_nodup
  case reaped =>
    intro r hr
    have := h.reaped r
    grind
  case scan =>
    intro q copy haveKids k hq c hc hparent
    have := h.scan q copy haveKids k
    grind

/-- `fork` lets its child run and returns. -/
theorem Family.launch (h : Family initialProcess s) {p c : Slot} {pid : ℕ}
    (hp : s.phase p = .parented c pid) (hlive : (s.table p).state.IsLive) :
    Family initialProcess { (s.setProcess c { s.table c with state := .runnable }).setPhase p
        .user with
      forkPid := Function.update s.forkPid (s.life c) (some pid) } := by
  have hinit := h.init
  obtain ⟨hparent, hpid, hforker⟩ := h.parented p c pid hp
  have hused := h.child p c (by simp [hp, Phase.child?])
  constructor
  case init =>
    have := h.init
    grind [Function.update_apply]
  case unused =>
    intro i hi
    have := h.unused i
    grind [Function.update_apply]
  case used =>
    intro i hi
    have := h.used i
    grind [Function.update_apply]
  case zombie =>
    intro i hi
    have := h.zombie i
    grind [Function.update_apply]
  case dead =>
    intro i hi
    have := h.dead i
    have := h.used c hused
    grind [Function.update_apply]
  case child =>
    intro q d hq
    have := h.child q d
    have := h.child_unique p q d
    grind [Function.update_apply]
  case child_unique =>
    intro q r c hq hr
    have := h.child_unique q r c
    grind [Function.update_apply]
  case allocFailed =>
    intro q d hq
    have := h.allocFailed q d
    grind [Function.update_apply]
  case forked =>
    intro q c pid hq
    have := h.forked q c pid
    grind [Function.update_apply]
  case parented =>
    intro q c pid hq
    have := h.parented q c pid
    grind [Function.update_apply]
  case used_parent =>
    intro c q hc hq
    have := h.used_parent c q
    grind [Function.update_apply]
  case parent_live =>
    intro c q hq
    have := h.parent_live c q
    grind [Function.update_apply]
  case parent_left =>
    intro c q hq
    have := h.parent_left c q
    grind [Function.update_apply]
  case parent_who =>
    intro d q hq
    obtain hw | ⟨rfl, hw | ⟨f, hf, hlive, hexits⟩⟩ := h.parent_who d q (by grind)
    · exact .inl (by grind)
    · exact .inr ⟨rfl, .inl (by grind)⟩
    · exact .inr ⟨rfl, .inr ⟨f, by grind, by grind, by grind⟩⟩
  case has_parent =>
    intro c h1 h2 h3
    have := h.has_parent c
    grind [Function.update_apply]
  case life_lt =>
    intro i hi
    have := h.life_lt i
    grind [Function.update_apply]
  case life_inj =>
    intro i j hi hj hij
    have := h.life_inj i j
    grind [Function.update_apply]
  case pid =>
    intro d h1 h2 h3
    have := h.pid d
    have := h.life_inj d c
    grind [Function.update_apply]
  case zombie_status =>
    intro i hi
    have := h.zombie_status i
    grind [Function.update_apply]
  case no_status =>
    intro i h1 h2
    have := h.no_status i
    grind [Function.update_apply]
  case later =>
    intro x hx
    have := h.later x
    grind [Function.update_apply]
  case kept =>
    intro x hx
    obtain ⟨j, hj, hz⟩ | ⟨r, hr, hrx⟩ := h.kept x (by grind)
    · exact .inl ⟨j, by grind, by grind⟩
    · exact .inr ⟨r, by grind, hrx⟩
  case reaped_gone =>
    intro r hr
    have := h.reaped_gone r
    grind [Function.update_apply]
  case reaped_nodup => exact h.reaped_nodup
  case reaped =>
    intro r hr
    have := h.reaped r
    have := (h.reaped_gone r hr).2 c
    grind [Function.update_apply]
  case scan =>
    intro q copy haveKids k hq c hc hparent
    have := h.scan q copy haveKids k
    grind [Function.update_apply]

/-- `reparentChildren` gives a child to init. -/
theorem Family.reparent (h : Family initialProcess s) {p c : Slot} {status : ℤ} {k : ℕ}
    (hp : s.phase p = .reparenting status k) (hlive : (s.table p).state.IsLive)
    (hlock : ∀ q, (s.phase q).holdsWaitLock = true → q = p)
    (hparent : (s.table c).parentProcess = some p) :
    Family initialProcess (s.setProcess c
      { s.table c with parentProcess := some initialProcess }) := by
  have hinit := h.init
  constructor
  case init =>
    have := h.init
    grind [Function.update_apply]
  case unused =>
    intro i hi
    have := h.unused i
    grind [Function.update_apply]
  case used =>
    intro i hi
    have := h.used i
    grind [Function.update_apply]
  case zombie =>
    intro i hi
    have := h.zombie i
    grind [Function.update_apply]
  case dead =>
    intro i hi
    have := h.dead i
    grind [Function.update_apply]
  case child =>
    intro q c hq
    have := h.child q c
    grind [Function.update_apply]
  case child_unique =>
    intro q r c hq hr
    have := h.child_unique q r c
    grind [Function.update_apply]
  case allocFailed =>
    intro q d hq
    have := h.allocFailed q d
    grind [Function.update_apply]
  case forked =>
    intro q c pid hq
    have := h.forked q c pid
    grind [Function.update_apply]
  case parented =>
    intro q c pid hq
    have := h.parented q c pid
    grind [Function.update_apply]
  case used_parent =>
    intro d q hd hq
    have := h.used_parent d q
    have := h.used_parent c p
    grind [Function.update_apply]
  case parent_live =>
    intro c q hq
    have := h.parent_live c q
    grind [Function.update_apply]
  case parent_left =>
    intro d q hq
    have := h.parent_left d q
    have := h.dead initialProcess
    have := not_hasPassed (s.phase initialProcess) d hinit.2.2
    grind [Function.update_apply]
  case parent_who =>
    intro d q hq
    by_cases hd : d = c
    · subst hd
      obtain rfl : initialProcess = q := by grind
      obtain hw | ⟨rfl, -⟩ := h.parent_who d p hparent
      · exact .inr ⟨rfl, .inr ⟨p, hw, by grind, by grind⟩⟩
      · grind
    obtain hw | ⟨rfl, hw | ⟨f, hf, hlive, hexits⟩⟩ := h.parent_who d q (by grind)
    · exact .inl (by grind)
    · exact .inr ⟨rfl, .inl (by grind)⟩
    · exact .inr ⟨rfl, .inr ⟨f, by grind, by grind, by grind⟩⟩
  case has_parent =>
    intro c h1 h2 h3
    have := h.has_parent c
    grind [Function.update_apply]
  case life_lt =>
    intro i hi
    have := h.life_lt i
    grind [Function.update_apply]
  case life_inj =>
    intro i j hi hj hij
    have := h.life_inj i j
    grind [Function.update_apply]
  case pid =>
    intro c h1 h2 h3
    have := h.pid c
    grind [Function.update_apply]
  case zombie_status =>
    intro i hi
    have := h.zombie_status i
    grind [Function.update_apply]
  case no_status =>
    intro i h1 h2
    have := h.no_status i
    grind [Function.update_apply]
  case later =>
    intro x hx
    have := h.later x
    grind [Function.update_apply]
  case kept =>
    intro x hx
    obtain ⟨j, hj, hz⟩ | ⟨r, hr, hrx⟩ := h.kept x (by grind)
    · exact .inl ⟨j, by grind, by grind⟩
    · exact .inr ⟨r, by grind, hrx⟩
  case reaped_gone =>
    intro r hr
    have := h.reaped_gone r
    grind [Function.update_apply]
  case reaped_nodup => exact h.reaped_nodup
  case reaped =>
    intro r hr
    have := h.reaped r
    grind [Function.update_apply]
  case scan =>
    intro q copy haveKids k hq c hc hparent
    have := h.scan q copy haveKids k
    have := hlock q
    grind [Function.update_apply]

/-- `exit` makes a zombie of the process. -/
theorem Family.die (h : Family initialProcess s) {p : Slot} {status : ℤ}
    (hp : s.phase p = .dying status) (hlive : (s.table p).state.IsLive)
    (hlock : ∀ q, (s.phase q).holdsWaitLock = true → q = p) :
    Family initialProcess { (s.setProcess p
        { s.table p with state := .zombie, exitStatus := status }).setPhase p .dead with
      exitStatus := Function.update s.exitStatus (s.life p) (some status) } := by
  have hinit := h.init
  constructor
  case init =>
    have := h.init
    grind [Function.update_apply]
  case unused =>
    intro i hi
    have := h.unused i
    grind [Function.update_apply]
  case used =>
    intro i hi
    have := h.used i
    grind [Function.update_apply]
  case zombie =>
    intro i hi
    have := h.zombie i
    grind [Function.update_apply]
  case dead =>
    intro i hi
    have := h.dead i
    grind [Function.update_apply]
  case child =>
    intro q c hq
    have := h.child q c
    grind [Function.update_apply]
  case child_unique =>
    intro q r c hq hr
    have := h.child_unique q r c
    grind [Function.update_apply]
  case allocFailed =>
    intro q d hq
    have := h.allocFailed q d
    grind [Function.update_apply]
  case forked =>
    intro q c pid hq
    have := h.forked q c pid
    grind [Function.update_apply]
  case parented =>
    intro q c pid hq
    have := h.parented q c pid
    grind [Function.update_apply]
  case used_parent =>
    intro c q hc hq
    have := h.used_parent c q
    grind [Function.update_apply]
  case parent_live =>
    intro c q hq
    have := h.parent_live c q
    have := h.parent_left c q
    grind [Function.update_apply]
  case parent_left =>
    intro c q hq
    have := h.parent_left c q
    grind [Function.update_apply]
  case parent_who =>
    intro c q hq
    have hleft := h.parent_left c q
    obtain hw | ⟨rfl, hw | ⟨f, hf, hlive, hexits⟩⟩ := h.parent_who c q (by grind)
    · exact .inl (by grind)
    · exact .inr ⟨rfl, .inl (by grind [Function.update_apply])⟩
    · by_cases hfp : f = p
      · exact .inr ⟨rfl, .inl (by grind [Function.update_apply])⟩
      · exact .inr ⟨rfl, .inr ⟨f, by grind, by grind, by grind⟩⟩
  case has_parent =>
    intro c h1 h2 h3
    have := h.has_parent c
    grind [Function.update_apply]
  case life_lt =>
    intro i hi
    have := h.life_lt i
    grind [Function.update_apply]
  case life_inj =>
    intro i j hi hj hij
    have := h.life_inj i j
    grind [Function.update_apply]
  case pid =>
    intro c h1 h2 h3
    have := h.pid c
    grind [Function.update_apply]
  case zombie_status =>
    intro i hi
    have := h.zombie_status i
    have := h.life_inj i p
    grind [Function.update_apply]
  case no_status =>
    intro i h1 h2
    have := h.no_status i
    have := h.life_inj i p
    grind [Function.update_apply]
  case later =>
    intro x hx
    have := h.later x
    have := h.life_lt p
    grind [Function.update_apply]
  case kept =>
    intro x hx
    by_cases hxp : x = s.life p
    · exact .inl ⟨p, hxp.symm, by grind⟩
    obtain ⟨j, hj, hz⟩ | ⟨r, hr, hrx⟩ := h.kept x (by grind [Function.update_apply])
    · exact .inl ⟨j, by grind, by grind⟩
    · exact .inr ⟨r, by grind, hrx⟩
  case reaped_gone =>
    intro r hr
    have := h.reaped_gone r
    grind [Function.update_apply]
  case reaped_nodup => exact h.reaped_nodup
  case reaped =>
    intro r hr
    have := h.reaped r
    have := (h.reaped_gone r hr).2 p
    grind [Function.update_apply]
  case scan =>
    intro q copy haveKids k hq c hc hparent
    have := h.scan q copy haveKids k
    have := hlock q
    grind [Function.update_apply]

/-- `wait` frees a zombie. -/
theorem Family.reap (h : Family initialProcess s) {p c : Slot} {copy haveKids : Bool} {k : ℕ}
    (hp : s.phase p = .scanning copy haveKids k)
    (hlock : ∀ q, (s.phase q).holdsWaitLock = true → q = p)
    (hparent : (s.table c).parentProcess = some p) (hzombie : (s.table c).state = .zombie) :
    Family initialProcess { s.setProcess c .freed with
      reaped := ⟨s.life p, s.life c, (s.table c).pid, (s.table c).exitStatus⟩ :: s.reaped } := by
  have hinit := h.init
  have hfreed : Process.freed.state = .unused ∧ Process.freed.parentProcess = none := ⟨rfl, rfl⟩
  constructor
  case init =>
    have := h.init
    grind [Function.update_apply]
  case unused =>
    intro i hi
    have := h.unused i
    have := h.zombie c hzombie
    grind [Function.update_apply]
  case used =>
    intro i hi
    have := h.used i
    grind [Function.update_apply]
  case zombie =>
    intro i hi
    have := h.zombie i
    grind [Function.update_apply]
  case dead =>
    intro i hi
    have := h.dead i
    grind [Function.update_apply]
  case child =>
    intro q c hq
    have := h.child q c
    grind [Function.update_apply]
  case child_unique =>
    intro q r c hq hr
    have := h.child_unique q r c
    grind [Function.update_apply]
  case allocFailed =>
    intro q d hq
    have := h.allocFailed q d
    grind [Function.update_apply]
  case forked =>
    intro q c pid hq
    have := h.forked q c pid
    grind [Function.update_apply]
  case parented =>
    intro q c pid hq
    have := h.parented q c pid
    grind [Function.update_apply]
  case used_parent =>
    intro c q hc hq
    have := h.used_parent c q
    grind [Function.update_apply]
  case parent_live =>
    intro c q hq
    have := h.parent_live c q
    grind [Function.update_apply]
  case parent_left =>
    intro c q hq
    have := h.parent_left c q
    grind [Function.update_apply]
  case parent_who =>
    intro d q hq
    have hold : (s.table d).parentProcess = some q := by grind
    have hqlive := h.parent_live d q hold
    obtain hw | ⟨rfl, hw | ⟨f, hf, hflive, hexits⟩⟩ := h.parent_who d q hold
    · exact .inl (by grind)
    · exact .inr ⟨rfl, .inl (by grind)⟩
    · exact .inr ⟨rfl, .inr ⟨f, by grind, by grind, by grind⟩⟩
  case has_parent =>
    intro c h1 h2 h3
    have := h.has_parent c
    grind [Function.update_apply]
  case life_lt =>
    intro i hi
    have := h.life_lt i
    grind [Function.update_apply]
  case life_inj =>
    intro i j hi hj hij
    have := h.life_inj i j
    grind [Function.update_apply]
  case pid =>
    intro c h1 h2 h3
    have := h.pid c
    grind [Function.update_apply]
  case zombie_status =>
    intro i hi
    have := h.zombie_status i
    grind [Function.update_apply]
  case no_status =>
    intro i h1 h2
    have := h.no_status i
    grind [Function.update_apply]
  case later =>
    intro x hx
    have := h.later x
    grind [Function.update_apply]
  case kept =>
    intro x hx
    obtain ⟨j, hj, hz⟩ | ⟨r, hr, hrx⟩ := h.kept x hx
    · by_cases hjc : j = c
      · exact .inr ⟨_, List.mem_cons_self, by grind⟩
      · exact .inl ⟨j, by grind, by grind⟩
    · exact .inr ⟨r, List.mem_cons_of_mem _ hr, hrx⟩
  case reaped_gone =>
    intro r hr
    have := h.reaped_gone r
    have := h.life_lt c
    have := fun i => h.life_inj i c
    grind [Function.update_apply]
  case reaped_nodup =>
    refine List.nodup_cons.mpr ⟨fun hc => ?_, h.reaped_nodup⟩
    obtain ⟨r, hr, hrc⟩ := List.mem_map.mp hc
    exact (h.reaped_gone r hr).2 c (by grind) hrc.symm
  case reaped =>
    intro r hr
    obtain rfl | hr := List.mem_cons.mp hr
    · have hc : c ≠ initialProcess := by grind
      refine ⟨h.zombie_status c hzombie, h.pid c hc (by grind) (by grind), ?_⟩
      obtain hw | ⟨rfl, hw | ⟨f, hf, hflive, hexits⟩⟩ := h.parent_who c p hparent
      · exact .inl hw
      · exact .inr ⟨rfl, hw⟩
      · have := hlock f (exits_holdsWaitLock _ hexits)
        grind
    · exact h.reaped r hr
  case scan =>
    intro q copy haveKids k hq c hc hparent
    have := h.scan q copy haveKids k
    grind [Function.update_apply]

end Zigmaos.ProcessTable
