import Zigmaos.Scheduler

/-!
# Which CPU executes a process

A process is in one of five situations: off every CPU with its lock free, off
every CPU but with its lock in the loop of one, on its way to or from the
scheduler under a lock that it holds itself, running with its lock free, or
running while the loop of another CPU looks at it. The record, the stage and the
lock of the process and the CPUs that deal with it determine each other, and
every event moves one process from one situation to another.
-/
namespace Zigmaos.Scheduler

open ProcessTable (Slot nProc Process ProcessState Channel)

variable {κ : Type*}

/-- What a CPU has to do with a process. -/
inductive Role
  | locked | process | back
  deriving DecidableEq

def Execution.role (i : Slot) : Execution → Option Role
  | .scheduler => none
  | .locked j => if j = i then some .locked else none
  | .process j => if j = i then some .process else none
  | .back j => if j = i then some .back else none

namespace Execution
variable (i j : Slot)

@[simp] theorem role_scheduler : scheduler.role i = none := rfl

@[simp] theorem role_locked : (locked j).role i = if j = i then some .locked else none := rfl

@[simp] theorem role_process : (process j).role i = if j = i then some .process else none := rfl

@[simp] theorem role_back : (back j).role i = if j = i then some .back else none := rfl

end Execution

/-- The process that is switched to, as `runningProcess` has it. -/
def Execution.running : Execution → Option Slot
  | .process i | .back i => some i
  | _ => none

def Reason.channel : Reason → Option Channel
  | .sleep channel | .sleepWithLock channel => some channel
  | _ => none

/-- The process as it is once its context is saved. -/
structure Saved (e : Process) (r : Reason) : Prop where
  state : e.state ≠ .running
  zombie : e.state = .zombie → r = .exit
  exit : r = .exit → e.state = .zombie ∨ e.state = .unused ∨ e.state = .used
  sleeping : e.state = .sleeping → e.sleepingChannel = r.channel ∧ r.channel ≠ none

/-- The process while its lock is held by the CPU that executes it. -/
def Entered (e : Process) : Stage → Prop
  | .running => False
  | .sleepLocked _ | .sleepReleased _ => e.state = .running
  | .switching r => Saved e r
  | .switched r => e.state = .running ∧ r ≠ .exit

theorem wake_running (e : Process) (channel : Channel) :
    (wake e channel).state = .running ↔ e.state = .running := by
  unfold wake
  split_ifs with h
  · simp [h.1]
  · rfl

theorem killed_running (e : Process) (wakes : Bool) :
    (killed e wakes).state = .running ↔ e.state = .running := by
  simp only [killed]
  split_ifs with h
  · simp [h.2]
  · rfl

theorem Saved.wake {e : Process} {r : Reason} (h : Saved e r) (channel : Channel) :
    Saved (wake e channel) r := by
  unfold Scheduler.wake
  split_ifs with hs
  · refine ⟨by simp, by simp, fun hx => ?_, by simp⟩
    have := h.exit hx
    simp [hs.1] at this
  · exact h

theorem Saved.killed {e : Process} {r : Reason} (h : Saved e r) (wakes : Bool) :
    Saved (killed e wakes) r := by
  by_cases hs : wakes ∧ e.state = .sleeping
  · refine ⟨by simp [Scheduler.killed, hs], by simp [Scheduler.killed, hs], fun hx => ?_,
      by simp [Scheduler.killed, hs]⟩
    have := h.exit hx
    simp [hs.2] at this
  · have he : (Scheduler.killed e wakes).state = e.state := by simp [Scheduler.killed, hs]
    exact ⟨by rw [he]; exact h.state, by rw [he]; exact h.zombie, by rw [he]; exact h.exit,
      by rw [he]; exact h.sleeping⟩

section
variable [DecidableEq κ]

/-- Only this CPU has to do with the process. -/
def only (c : κ) (x : Role) : κ → Option Role := Function.update (fun _ => none) c (some x)

/-- The record of a process, its stage, the holder of its lock and the CPUs that
have to do with it. -/
inductive SlotOk (e : Process) (g : Stage) (o : Option κ) (v : κ → Option Role) : Prop
  | away (r : Reason) (hg : g = .switched r) (he : Saved e r) (ho : o = none)
      (hv : v = fun _ => none)
  | held (c : κ) (r : Reason) (x : Role) (hx : x ≠ .process) (hg : g = .switched r)
      (he : Saved e r) (ho : o = some c) (hv : v = only c x)
  | entered (c : κ) (he : Entered e g) (ho : o = some c) (hv : v = only c .process)
  | runs (c : κ) (hg : g = .running) (he : e.state = .running) (ho : o = none)
      (hv : v = only c .process)
  | watched (c d : κ) (hcd : c ≠ d) (hg : g = .running) (he : e.state = .running) (ho : o = some d)
      (hv : v = Function.update (only c .process) d (some .locked))

theorem only_self (c : κ) (x : Role) : only c x c = some x := by simp [only]

theorem only_of_ne {c d : κ} (x : Role) (h : d ≠ c) : only c x d = none := by
  simp [only, Function.update_of_ne h]

theorem only_eq_some {c d : κ} {x y : Role} (h : only c x d = some y) : d = c ∧ x = y := by
  by_cases hd : d = c
  · subst hd
    rw [only_self] at h
    exact ⟨rfl, Option.some.inj h⟩
  · simp [only_of_ne x hd] at h

@[simp] theorem update_only (c : κ) (x y : Role) :
    Function.update (only c x) c (some y) = only c y := by simp [only]

@[simp] theorem update_only_none (c : κ) (x : Role) :
    Function.update (only c x) c none = fun _ => none := by
  simp [only]

variable {e : Process} {g : Stage} {o : Option κ} {v : κ → Option Role} {c : κ}

theorem SlotOk.of_locked (h : SlotOk e g o v) (hv : v c = some .locked) :
    (∃ r, g = .switched r ∧ Saved e r ∧ v = only c .locked) ∨
      ∃ d, d ≠ c ∧ g = .running ∧ e.state = .running ∧
        v = Function.update (only d .process) c (some .locked) := by
  cases h with
  | away r hg he ho hv' => subst hv'; cases hv
  | held d r x hx hg he ho hv' =>
    subst hv'
    obtain ⟨rfl, rfl⟩ := only_eq_some hv
    exact .inl ⟨r, hg, he, rfl⟩
  | entered d he ho hv' => subst hv'; cases (only_eq_some hv).2
  | runs d hg he ho hv' => subst hv'; cases (only_eq_some hv).2
  | watched d d' hd hg he ho hv' =>
    subst hv'
    by_cases hc : c = d'
    · subst hc
      exact .inr ⟨d, hd, hg, he, rfl⟩
    · rw [Function.update_of_ne hc] at hv
      cases (only_eq_some hv).2

theorem SlotOk.of_back (h : SlotOk e g o v) (hv : v c = some .back) :
    ∃ r, g = .switched r ∧ Saved e r ∧ v = only c .back := by
  cases h with
  | away r hg he ho hv' => subst hv'; cases hv
  | held d r x hx hg he ho hv' =>
    subst hv'
    obtain ⟨rfl, rfl⟩ := only_eq_some hv
    exact ⟨r, hg, he, rfl⟩
  | entered d he ho hv' => subst hv'; cases (only_eq_some hv).2
  | runs d hg he ho hv' => subst hv'; cases (only_eq_some hv).2
  | watched d d' hd hg he ho hv' =>
    subst hv'
    by_cases hc : c = d'
    · subst hc
      simp at hv
    · rw [Function.update_of_ne hc] at hv
      cases (only_eq_some hv).2

theorem SlotOk.of_process (h : SlotOk e g o v) (hv : v c = some .process) :
    Entered e g ∧ o = some c ∧ v = only c .process ∨
      g = .running ∧ e.state = .running ∧ (o = none → v = only c .process) := by
  cases h with
  | away r hg he ho hv' => subst hv'; cases hv
  | held d r x hx hg he ho hv' => subst hv'; exact absurd (only_eq_some hv).2 hx
  | entered d he ho hv' =>
    subst hv'
    obtain ⟨rfl, _⟩ := only_eq_some hv
    exact .inl ⟨he, ho, rfl⟩
  | runs d hg he ho hv' =>
    subst hv'
    obtain ⟨rfl, _⟩ := only_eq_some hv
    exact .inr ⟨hg, he, fun _ => rfl⟩
  | watched d d' hd hg he ho hv' =>
    exact .inr ⟨hg, he, fun h => by rw [ho] at h; cases h⟩

/-- A process that is not running and whose lock is free is off every CPU. -/
theorem SlotOk.of_free (h : SlotOk e g o v) (ho : o = none) (he : e.state ≠ .running) :
    (∃ r, g = .switched r ∧ Saved e r) ∧ v = fun _ => none := by
  cases h with
  | away r hg he' ho' hv => exact ⟨⟨r, hg, he'⟩, hv⟩
  | held d r x hx hg he' ho' hv => rw [ho'] at ho; cases ho
  | entered d he' ho' hv => rw [ho'] at ho; cases ho
  | runs d hg he' ho' hv => exact absurd he' he
  | watched d d' hd hg he' ho' hv => exact absurd he' he

/-- Another record for the process, where only the saved one matters. -/
theorem SlotOk.setProcess {e' : Process} (h : SlotOk e g o v)
    (hs : e'.state = .running ↔ e.state = .running)
    (hr : ∀ r, g = .switched r ∨ g = .switching r → Saved e r → Saved e' r) :
    SlotOk e' g o v := by
  cases h with
  | away r hg he ho hv => exact .away r hg (hr r (.inl hg) he) ho hv
  | held c r x hx hg he ho hv => exact .held c r x hx hg (hr r (.inl hg) he) ho hv
  | entered c he ho hv =>
    refine .entered c ?_ ho hv
    cases g with
    | running => exact he
    | sleepLocked channel => exact hs.mpr he
    | sleepReleased channel => exact hs.mpr he
    | switching r => exact hr r (.inr rfl) he
    | switched r => exact ⟨hs.mpr he.1, he.2⟩
  | runs c hg he ho hv => exact .runs c hg (hs.mpr he) ho hv
  | watched c d hcd hg he ho hv => exact .watched c d hcd hg (hs.mpr he) ho hv

end

/-- The child that a process is making in `fork`. -/
def Phase.child : Phase → Option Slot
  | .allocFailed i | .forked i | .parented i => some i
  | _ => none

/-- What the CPUs have to do with the process. -/
def roles (cpu : κ → Cpu) (i : Slot) : κ → Option Role := fun c => (cpu c).execution.role i

/-- What `fork` relies on between its three blocks. -/
structure State.ChildrenOk (s : State κ) : Prop where
  used : ∀ p i, (s.phase (.process p)).child = some i → (s.table i).state = .used
  saved : ∀ p i, s.phase (.process p) = .forked i ∨ s.phase (.process p) = .parented i →
    s.stage i = .switched .forkReturn
  childless : ∀ p q i, (s.phase (.process p)).child = some i →
    (s.phase (.process q)).child = some i → p = q

section
variable {s : State κ} {c : κ} {p i : Slot}

theorem State.ChildrenOk.frame (hi : s.ChildrenOk) {s' : State κ}
    (hf : ∀ q j, (s'.phase (.process q)).child = some j →
      s'.phase (.process q) = s.phase (.process q))
    (ht : ∀ q j, (s.phase (.process q)).child = some j → (s'.phase (.process q)).child = some j →
      (s.table j).state = .used → (s'.table j).state = .used ∧
      (s.stage j = .switched .forkReturn → s'.stage j = .switched .forkReturn)) :
    s'.ChildrenOk := by
  have hc : ∀ q j, (s'.phase (.process q)).child = some j →
      (s.phase (.process q)).child = some j := by
    intro q j hq
    rw [← hf q j hq]
    exact hq
  constructor
  · intro q j hq
    exact (ht q j (hc q j hq) hq (hi.used q j (hc q j hq))).1
  · intro q j hq
    have hq' : (s'.phase (.process q)).child = some j := by
      obtain hq | hq := hq <;> simp [hq, Phase.child]
    rw [hf q j hq'] at hq
    exact (ht q j (hc q j hq') hq' (hi.used q j (hc q j hq'))).2 (hi.saved q j hq)
  · intro q q' j hq hq'
    exact hi.childless q q' j (hc q j hq) (hc q' j hq')

theorem State.ChildrenOk.setProcess (hi : s.ChildrenOk) {e : Process}
    (he : (s.table i).state = .used → e.state = .used) : (s.setProcess i e).ChildrenOk := by
  refine hi.frame (fun _ _ _ => rfl) fun q j _ _ hj => ⟨?_, id⟩
  by_cases hji : j = i
  · subst hji
    simpa [State.setProcess] using he hj
  · simpa [State.setProcess, Function.update_of_ne hji] using hj

theorem State.ChildrenOk.setStage (hi : s.ChildrenOk) {g : Stage}
    (hg : (s.table i).state = .used → s.stage i = .switched .forkReturn →
      g = .switched .forkReturn) : (s.setStage i g).ChildrenOk := by
  refine hi.frame (fun _ _ _ => rfl) fun q j _ _ hj => ⟨hj, fun hs => ?_⟩
  by_cases hji : j = i
  · subst hji
    rw [hg hj hs]
    exact Function.update_self _ _ _
  · exact (Function.update_of_ne hji _ _).trans hs

theorem State.ChildrenOk.of_eq (hi : s.ChildrenOk) {s' : State κ} (ht : s'.table = s.table)
    (hg : s'.stage = s.stage) (hf : s'.phase = s.phase) : s'.ChildrenOk :=
  hi.frame (fun _ _ _ => by rw [hf]) fun _ _ _ _ hj => by rw [ht, hg]; exact ⟨hj, id⟩

theorem State.ChildrenOk.leave (hi : s.ChildrenOk) {e : Process} {r : Reason}
    (hp : (s.table p).state = .running) : (s.leave c p e r).ChildrenOk := by
  refine hi.frame (fun _ _ _ => rfl) fun q j _ _ hj => ?_
  have hjp : j ≠ p := fun h => by rw [h, hp] at hj; cases hj
  exact ⟨by simpa [State.leave, State.setProcess, State.setLock, State.setStage,
    Function.update_of_ne hjp] using hj, (Function.update_of_ne hjp _ _).trans⟩

end

/-- A process that is in the middle of a call can only be preempted. -/
def State.PhaseOk (s : State κ) (p : Slot) : Prop :=
  s.phase (.process p) = .code ∨
    ((s.table p).state = .running ∨ (s.table p).state = .runnable) ∧
      (s.stage p = .running ∨ s.stage p = .switching .yield ∨ s.stage p = .switched .yield)

/-- An event that changes the record, the stage and the phase of one process only. -/
theorem phases_of_change {s s' : State κ} (h : ∀ j, s.PhaseOk j) (i : Slot) (hi : s'.PhaseOk i)
    (hj : ∀ j, j ≠ i → (s'.table j).state = (s.table j).state ∧ s'.stage j = s.stage j ∧
      s'.phase (.process j) = s.phase (.process j)) : ∀ j, s'.PhaseOk j := by
  intro j
  by_cases hji : j = i
  · rw [hji]; exact hi
  · obtain ⟨ht, hg, hf⟩ := hj j hji
    rw [State.PhaseOk, ht, hg, hf]
    exact h j

theorem phases_setProcess {s : State κ} {i : Slot} {e : Process} (h : ∀ j, s.PhaseOk j)
    (he : (s.table i).state = .running ∨ (s.table i).state = .runnable →
      e.state = .running ∨ e.state = .runnable) : ∀ j, (s.setProcess i e).PhaseOk j := by
  refine phases_of_change h i ?_ fun j hj => ?_
  · obtain hf | ⟨hs, hg⟩ := h i
    · exact .inl hf
    · exact .inr ⟨by simpa [State.setProcess] using he hs, hg⟩
  · simp [State.setProcess, Function.update_of_ne hj]

/-- A process leaves from no call. -/
theorem phases_leave {s : State κ} (h : ∀ j, s.PhaseOk j) {c : κ} {p : Slot} {e : Process}
    {r : Reason} (hp : s.phase (.process p) = .code ∨ r = .yield ∧ e.state = .runnable) :
    ∀ j, (s.leave c p e r).PhaseOk j := by
  refine phases_of_change h p ?_ fun j hj => ?_
  · obtain hp | ⟨rfl, he⟩ := hp
    · exact .inl hp
    · refine .inr ⟨.inr ?_, .inr (.inl (Function.update_self _ _ _))⟩
      simpa [State.leave, State.setStage, State.setLock, State.setProcess] using he
  · simp [State.leave, State.setStage, State.setLock, State.setProcess, Function.update_of_ne hj]

/-- The slot of a process that is not running or runnable is in no call. -/
theorem State.PhaseOk.code {s : State κ} {p : Slot} (h : s.PhaseOk p)
    (hr : (s.table p).state ≠ .running) (hr' : (s.table p).state ≠ .runnable) :
    s.phase (.process p) = .code := by
  obtain h | ⟨h | h, _⟩ := h
  · exact h
  · exact absurd h hr
  · exact absurd h hr'

variable [DecidableEq κ]

def State.SlotOkAt (s : State κ) (i : Slot) : Prop :=
  SlotOk (s.table i) (s.stage i) (s.lock i) (roles s.cpu i)

/-- While a handler has interrupted a CPU, the CPU holds no process lock. -/
def State.HandlerOk (s : State κ) (c : κ) : Prop :=
  s.handler c = true →
    (s.cpu c).execution = .scheduler ∨ ∃ p, (s.cpu c).execution = .process p ∧ s.stage p = .running

structure Inv (s : State κ) : Prop where
  slot : ∀ i, s.SlotOkAt i
  runningProcess : ∀ c, (s.cpu c).runningProcess = (s.cpu c).execution.running
  handler : ∀ c, s.HandlerOk c
  children : s.ChildrenOk
  phase : ∀ p, s.PhaseOk p

theorem Inv.initial {initialProcess : Slot} {s : State κ} (h : Initial initialProcess s) :
    Inv s where
  slot i := by
    refine .away .forkReturn (h.stage i) ?_ (h.lock i) ?_
    · by_cases hi : i = initialProcess
      · subst hi
        constructor <;> simp [h.init]
      · constructor <;> simp [h.others i hi, Process.freed]
    · funext c
      simp [roles, h.cpu]
  runningProcess c := by simp [h.cpu, Execution.running]
  handler c hc := by simp [h.handler] at hc
  children := by
    constructor
    · intro p i hi
      simp [h.phase, Phase.child] at hi
    · intro p i hi
      simp [h.phase] at hi
    · intro p q i hp
      simp [h.phase, Phase.child] at hp
  phase p := .inl (h.phase _)

/-! ## One event -/

theorem roles_update (cpu : κ → Cpu) (c : κ) (u : Cpu) (i : Slot) :
    roles (Function.update cpu c u) i = Function.update (roles cpu i) c (u.execution.role i) := by
  funext d
  by_cases hd : d = c
  · subst hd
    simp [roles]
  · simp [roles, Function.update_of_ne hd]

theorem roles_update_of_eq {cpu : κ → Cpu} {c : κ} {u : Cpu} {i : Slot}
    (h : u.execution.role i = (cpu c).execution.role i) :
    roles (Function.update cpu c u) i = roles cpu i := by
  rw [roles_update, h]
  exact Function.update_eq_self c (roles cpu i)

/-- An event that changes what belongs to one process only. -/
theorem slots_of_change {s s' : State κ} (h : ∀ j, s.SlotOkAt j) (i : Slot) (hi : s'.SlotOkAt i)
    (hj : ∀ j, j ≠ i → s'.table j = s.table j ∧ s'.stage j = s.stage j ∧ s'.lock j = s.lock j ∧
      roles s'.cpu j = roles s.cpu j) : ∀ j, s'.SlotOkAt j := by
  intro j
  by_cases hji : j = i
  · rw [hji]; exact hi
  · obtain ⟨ht, hg, hl, hv⟩ := hj j hji
    rw [State.SlotOkAt, ht, hg, hl, hv]
    exact h j

section
variable {s : State κ} {c : κ} {p i : Slot}

omit [DecidableEq κ] in
theorem roles_eq (h : (s.cpu c).execution = .process p) : roles s.cpu p c = some .process := by
  simp [roles, h]

theorem Inv.running_of_runs (hi : Inv s) (h : s.Runs c p) : (s.table p).state = .running := by
  obtain ⟨he, _⟩ | ⟨_, hs, _⟩ := (hi.slot p).of_process (roles_eq h.2.1)
  · rw [h.2.2] at he; exact he.elim
  · exact hs

theorem Inv.roles_of_runs (hi : Inv s) (h : s.Runs c p) (hl : s.lock p = none) :
    roles s.cpu p = only c .process := by
  obtain ⟨he, _⟩ | ⟨_, _, hv⟩ := (hi.slot p).of_process (roles_eq h.2.1)
  · rw [h.2.2] at he; exact he.elim
  · exact hv hl

theorem Inv.entered (hi : Inv s) (h : (s.cpu c).execution = .process p)
    (hg : s.stage p ≠ .running) :
    Entered (s.table p) (s.stage p) ∧ s.lock p = some c ∧ roles s.cpu p = only c .process := by
  obtain he | ⟨hr, _⟩ := (hi.slot p).of_process (roles_eq h)
  · exact he
  · exact absurd hr hg

theorem slots_setProcess (hi : Inv s) {e : Process}
    (hs : e.state = .running ↔ (s.table i).state = .running)
    (hr : ∀ r, s.stage i = .switched r ∨ s.stage i = .switching r → Saved (s.table i) r →
      Saved e r) : ∀ j, (s.setProcess i e).SlotOkAt j := by
  refine slots_of_change hi.slot i ?_ ?_
  · have h := (hi.slot i).setProcess hs hr
    simpa [State.SlotOkAt, State.setProcess] using h
  · intro j hj
    simp [State.setProcess, Function.update_of_ne hj]

theorem slots_leave (hi : Inv s) (h : s.Runs c p) (hl : s.lock p = none) {e : Process}
    {r : Reason} (he : Saved e r) : ∀ j, (s.leave c p e r).SlotOkAt j := by
  refine slots_of_change hi.slot p ?_ ?_
  · refine .entered c ?_ ?_ ?_
    · simpa [State.leave, State.setProcess, State.setLock, State.setStage, Entered] using he
    · simp [State.leave, State.setProcess, State.setLock, State.setStage]
    · exact hi.roles_of_runs h hl
  · intro j hj
    simp [State.leave, State.setProcess, State.setLock, State.setStage,
      Function.update_of_ne hj]

/-- What `init` and the copy of the parent do to an unused slot. -/
theorem slots_startInit (hi : Inv s) (hu : (s.table i).state = .unused) :
    ∀ j, (s.startInit i).SlotOkAt j := by
  refine slots_setProcess hi (i := i) ?_ ?_
  · simp [hu]
  · intro r _ _
    exact ⟨by simp, by simp, by simp, by simp⟩

/-- Every event keeps every process in one of the five situations. -/
theorem Inv.slots_step {initialProcess : Slot} {s' : State κ} (hi : Inv s) {e : Event κ}
    (h : step initialProcess s e = some s') : ∀ j, s'.SlotOkAt j := by
  cases e with
  | lockNext c i =>
    simp only [step, Option.ite_none_right_eq_some, Option.some.injEq] at h
    obtain ⟨⟨_, hc, hl⟩, rfl⟩ := h
    refine slots_of_change hi.slot i ?_ ?_
    · simp only [State.SlotOkAt, State.setCpu, State.setLock, roles_update,
        Execution.role_locked, Function.update_self, if_true]
      cases hi.slot i with
      | away r hg he ho hv => exact .held c r .locked (by simp) hg he rfl (by rw [hv]; rfl)
      | held d r x hx hg he ho hv => rw [hl] at ho; cases ho
      | entered d he ho hv => rw [hl] at ho; cases ho
      | runs d hg he ho hv =>
        refine .watched d c ?_ hg he rfl (by rw [hv])
        intro hd
        have hr : roles s.cpu i c = some .process := by rw [hv, hd, only_self]
        simp [roles, hc] at hr
      | watched d d' hd hg he ho hv => rw [hl] at ho; cases ho
    · intro j hj
      refine ⟨rfl, rfl, Function.update_of_ne hj _ _, roles_update_of_eq ?_⟩
      simp [State.setLock, hc, hj.symm]
  | test c i =>
    simp only [step, Option.ite_none_right_eq_some] at h
    obtain ⟨hc, h⟩ := h
    have hr : roles s.cpu i c = some .locked := by simp [roles, hc]
    have hother : ∀ j, j ≠ i → ∀ u : Cpu, u.execution.role j = none →
        roles (Function.update s.cpu c u) j = roles s.cpu j := by
      intro j hj u hu
      exact roles_update_of_eq (by simp [hu, hc, hj.symm])
    split_ifs at h with hs
    · obtain rfl := Option.some.inj h
      refine slots_of_change hi.slot i ?_ ?_
      · obtain ⟨r, hg, he, hv⟩ | ⟨d, _, _, hrun, _⟩ := (hi.slot i).of_locked hr
        · have ho : s.lock i = some c := by
            cases hi.slot i with
            | away r hg he ho hv' => rw [hv'] at hr; cases hr
            | held d r x hx hg he ho hv' =>
              rw [hv'] at hr
              rw [ho, (only_eq_some hr).1]
            | entered d he ho hv' => rw [hv'] at hr; cases (only_eq_some hr).2
            | runs d hg' he ho hv' => rw [hg] at hg'; cases hg'
            | watched d d' hd hg' he ho hv' => rw [hg] at hg'; cases hg'
          refine .entered c ?_ ho ?_
          · simp only [State.setCpu, State.setProcess, Function.update_self, hg]
            refine ⟨rfl, fun hx => ?_⟩
            obtain h | h | h := he.exit hx
            · simp [hs] at h
            · simp [hs] at h
            · simp [hs] at h
          · simp [State.setCpu, State.setProcess, roles_update, hv]
        · simp [hs] at hrun
      · intro j hj
        refine ⟨Function.update_of_ne hj _ _, rfl, rfl, hother j hj _ ?_⟩
        simp [hj.symm]
    · obtain rfl := Option.some.inj h
      refine slots_of_change hi.slot i ?_ ?_
      · simp only [State.SlotOkAt, State.setCpu, State.setLock, roles_update,
          Function.update_self]
        obtain ⟨r, hg, he, hv⟩ | ⟨d, hd, hg, hrun, hv⟩ := (hi.slot i).of_locked hr
        · exact .away r hg he rfl (by simp [hv])
        · refine .runs d hg hrun rfl ?_
          rw [hv, Function.update_idem]
          exact Function.update_eq_self_iff.mpr (only_of_ne _ hd.symm).symm
      · intro j hj
        exact ⟨rfl, rfl, Function.update_of_ne hj _ _, hother j hj _ rfl⟩
  | back c i =>
    simp only [step, Option.ite_none_right_eq_some, Option.some.injEq] at h
    obtain ⟨hc, rfl⟩ := h
    obtain ⟨r, hg, he, hv⟩ := (hi.slot i).of_back (c := c) (by simp [roles, hc])
    refine slots_of_change hi.slot i ?_ ?_
    · refine .away r hg he (Function.update_self _ _ _) ?_
      simp [State.setCpu, State.setLock, roles_update, hv]
    · intro j hj
      refine ⟨rfl, rfl, Function.update_of_ne hj _ _, roles_update_of_eq ?_⟩
      simp [State.setLock, hc, hj.symm]
  | switchToScheduler c p r =>
    simp only [step, Option.ite_none_right_eq_some, Option.some.injEq] at h
    obtain ⟨⟨hc, hg⟩, rfl⟩ := h
    obtain ⟨he, ho, hv⟩ := hi.entered hc (by simp [hg])
    rw [hg] at he
    refine slots_of_change hi.slot p ?_ ?_
    · refine .held c r .back (by simp) (Function.update_self _ _ _) he ho ?_
      simp [State.setCpu, State.setStage, roles_update, hv]
    · intro j hj
      refine ⟨rfl, Function.update_of_ne hj _ _, rfl, roles_update_of_eq ?_⟩
      simp [State.setStage, hc, hj.symm]
  | resumed c p r =>
    simp only [step, Option.ite_none_right_eq_some, Option.some.injEq] at h
    obtain ⟨⟨hc, hg⟩, rfl⟩ := h
    obtain ⟨he, _, hv⟩ := hi.entered hc (by simp [hg])
    rw [hg] at he
    refine slots_of_change hi.slot p ?_ ?_
    · refine .runs c (Function.update_self _ _ _) ?_ (Function.update_self _ _ _) hv
      simp only [State.setProcess, State.setLock, State.setStage, State.setPhase,
        Function.update_self]
      cases r <;> exact he.1
    · intro j hj
      exact ⟨Function.update_of_ne hj _ _, Function.update_of_ne hj _ _,
        Function.update_of_ne hj _ _, rfl⟩
  | yield c p =>
    simp only [step, Option.ite_none_right_eq_some, Option.some.injEq] at h
    obtain ⟨⟨hr, hl⟩, rfl⟩ := h
    exact slots_leave hi hr hl ⟨by simp, by simp, by simp, by simp⟩
  | sleep c p channel =>
    simp only [step, Option.ite_none_right_eq_some, Option.some.injEq] at h
    obtain ⟨⟨hr, _, hl⟩, rfl⟩ := h
    exact slots_leave hi hr hl
      ⟨by simp [asleep], by simp [asleep], by simp, by simp [asleep, Reason.channel]⟩
  | sleepWithLock c p channel =>
    simp only [step, Option.ite_none_right_eq_some, Option.some.injEq] at h
    obtain ⟨⟨hr, _, hl⟩, rfl⟩ := h
    refine slots_of_change hi.slot p ?_ ?_
    · refine .entered c ?_ (Function.update_self _ _ _) (hi.roles_of_runs hr hl)
      simp only [State.setLock, State.setStage, Function.update_self]
      exact hi.running_of_runs hr
    · intro j hj
      exact ⟨rfl, Function.update_of_ne hj _ _, Function.update_of_ne hj _ _, rfl⟩
  | releaseLock c p channel =>
    simp only [step, Option.ite_none_right_eq_some, Option.some.injEq] at h
    obtain ⟨⟨hc, hg⟩, rfl⟩ := h
    obtain ⟨he, ho, hv⟩ := hi.entered hc (by simp [hg])
    rw [hg] at he
    refine slots_of_change hi.slot p ?_ ?_
    · refine .entered c ?_ ho hv
      simp only [State.setStage, Function.update_self]
      exact he
    · intro j hj
      exact ⟨rfl, Function.update_of_ne hj _ _, rfl, rfl⟩
  | putProcessToSleep c p channel =>
    simp only [step, Option.ite_none_right_eq_some, Option.some.injEq] at h
    obtain ⟨⟨hc, hg⟩, rfl⟩ := h
    obtain ⟨_, ho, hv⟩ := hi.entered hc (by simp [hg])
    refine slots_of_change hi.slot p ?_ ?_
    · refine .entered c ?_ ho hv
      simp only [State.setProcess, State.setStage, Function.update_self]
      exact ⟨by simp [asleep], by simp [asleep], by simp, by simp [asleep, Reason.channel]⟩
    · intro j hj
      exact ⟨Function.update_of_ne hj _ _, Function.update_of_ne hj _ _, rfl, rfl⟩
  | acquireLock c p channel =>
    simp only [step, Option.ite_none_right_eq_some, Option.some.injEq] at h
    obtain ⟨_, rfl⟩ := h
    exact hi.slot
  | exit c p status =>
    simp only [step, Option.ite_none_right_eq_some, Option.some.injEq] at h
    obtain ⟨⟨hr, _, _, hl⟩, rfl⟩ := h
    exact slots_leave hi hr hl ⟨by simp, by simp, by simp, by simp⟩
  | fork c p i isCopied =>
    simp only [step, Option.ite_none_right_eq_some] at h
    obtain ⟨⟨hr, _, hl, hu⟩, h⟩ := h
    obtain ⟨_, hv⟩ := (hi.slot i).of_free hl (by simp [hu])
    have hother : ∀ j, j ≠ i → (Function.update s.stage i (.switched .forkReturn)) j = s.stage j ∧
        s.lock j = s.lock j ∧ roles s.cpu j = roles s.cpu j :=
      fun j hj => ⟨Function.update_of_ne hj _ _, rfl, rfl⟩
    split_ifs at h with hcopy
    · obtain rfl := Option.some.inj h
      refine slots_of_change hi.slot i ?_ fun j hj => ⟨Function.update_of_ne hj _ _, hother j hj⟩
      refine .away .forkReturn (Function.update_self _ _ _) ?_ hl hv
      simp only [State.setPhase, State.setStage, State.startInit, State.setProcess,
        Function.update_self]
      exact ⟨by simp, by simp, by simp, by simp⟩
    · obtain rfl := Option.some.inj h
      refine slots_of_change hi.slot i ?_ fun j hj => ⟨?_, hother j hj⟩
      · refine .away .forkReturn (Function.update_self _ _ _) ?_ hl hv
        simp only [State.setProcess, Function.update_self]
        exact ⟨by simp [Process.freed], by simp [Process.freed], by simp, by simp [Process.freed]⟩
      · simp [State.setProcess, State.setStage, State.startInit, Function.update_of_ne hj]
  | forkInitFails c p i =>
    simp only [step, Option.ite_none_right_eq_some, Option.some.injEq] at h
    obtain ⟨⟨_, _, _, hu⟩, rfl⟩ := h
    exact slots_startInit hi hu
  | freeFailed c p i =>
    simp only [step, Option.ite_none_right_eq_some, Option.some.injEq] at h
    obtain ⟨⟨_, hf⟩, rfl⟩ := h
    have hu := hi.children.used p i (by simp [hf, Phase.child])
    refine slots_setProcess hi (i := i) (by simp [hu, Process.freed]) fun r _ _ => ?_
    exact ⟨by simp [Process.freed], by simp [Process.freed], by simp [Process.freed],
      by simp [Process.freed]⟩
  | setParent c p i =>
    simp only [step, Option.ite_none_right_eq_some, Option.some.injEq] at h
    obtain ⟨_, rfl⟩ := h
    exact slots_setProcess hi Iff.rfl fun r _ he => ⟨he.state, he.zombie, he.exit, he.sleeping⟩
  | setRunnable c p i =>
    simp only [step, Option.ite_none_right_eq_some, Option.some.injEq] at h
    obtain ⟨⟨_, hf, _⟩, rfl⟩ := h
    have hu := hi.children.used p i (by simp [hf, Phase.child])
    have hg := hi.children.saved p i (.inr hf)
    refine slots_setProcess hi (i := i) (by simp [hu]) fun r hr _ => ?_
    have hr : r = .forkReturn := by simpa [hg, eq_comm] using hr
    exact ⟨by simp, by simp, by simp [hr], by simp⟩
  | reparent c p i =>
    simp only [step, Option.ite_none_right_eq_some, Option.some.injEq] at h
    obtain ⟨_, rfl⟩ := h
    exact slots_setProcess hi Iff.rfl fun r _ he => ⟨he.state, he.zombie, he.exit, he.sleeping⟩
  | reap c p i =>
    simp only [step, Option.ite_none_right_eq_some, Option.some.injEq] at h
    obtain ⟨⟨_, _, _, _, hz⟩, rfl⟩ := h
    refine slots_setProcess hi (i := i) (by simp [hz, Process.freed]) fun r _ _ => ?_
    exact ⟨by simp [Process.freed], by simp [Process.freed], by simp [Process.freed],
      by simp [Process.freed]⟩
  | kill c p i wakes =>
    simp only [step, Option.ite_none_right_eq_some, Option.some.injEq] at h
    obtain ⟨_, rfl⟩ := h
    exact slots_setProcess hi (killed_running _ _) fun r _ he => he.killed wakes
  | startWakeup c a channel =>
    simp only [step, Option.ite_none_right_eq_some, Option.some.injEq] at h
    obtain ⟨_, rfl⟩ := h
    exact hi.slot
  | wakeNext c a channel k =>
    simp only [step, Option.ite_none_right_eq_some] at h
    obtain ⟨_, h⟩ := h
    split_ifs at h with hk hcur hl
    · obtain rfl := Option.some.inj h
      exact hi.slot
    · obtain rfl := Option.some.inj h
      exact slots_setProcess hi (wake_running _ _) fun r _ he => he.wake channel
    · obtain rfl := Option.some.inj h
      exact hi.slot
  | handlerStart c =>
    simp only [step, Option.ite_none_right_eq_some, Option.some.injEq] at h
    obtain ⟨_, rfl⟩ := h
    exact hi.slot
  | handlerEnd c =>
    simp only [step, Option.ite_none_right_eq_some, Option.some.injEq] at h
    obtain ⟨_, rfl⟩ := h
    exact hi.slot

theorem Inv.cpu_unique (hi : Inv s) {d : κ} (hc : (s.cpu c).execution = .process p)
    (hd : (s.cpu d).execution = .process p) : c = d := by
  have hrc : roles s.cpu p c = some .process := roles_eq hc
  have hrd : roles s.cpu p d = some .process := roles_eq hd
  cases hi.slot p with
  | away r hg he ho hv => rw [hv] at hrc; cases hrc
  | held d' r x hx hg he ho hv =>
    rw [hv] at hrc hrd
    rw [(only_eq_some hrc).1, (only_eq_some hrd).1]
  | entered d' he ho hv =>
    rw [hv] at hrc hrd
    rw [(only_eq_some hrc).1, (only_eq_some hrd).1]
  | runs d' hg he ho hv =>
    rw [hv] at hrc hrd
    rw [(only_eq_some hrc).1, (only_eq_some hrd).1]
  | watched d' d'' hd hg he ho hv =>
    rw [hv] at hrc hrd
    have hne : ∀ b, Function.update (only d' Role.process) d'' (some .locked) b = some .process →
        b = d' := by
      intro b hb
      by_cases h : b = d''
      · simp [h] at hb
      · rw [Function.update_of_ne h] at hb
        exact (only_eq_some hb).1
    rw [hne c hrc, hne d hrd]

theorem Inv.runningProcess_step {initialProcess : Slot} {s' : State κ} (hi : Inv s) {e : Event κ}
    (h : step initialProcess s e = some s') (d : κ) :
    (s'.cpu d).runningProcess = (s'.cpu d).execution.running := by
  have hupdate : ∀ c u, u.runningProcess = u.execution.running →
      (Function.update s.cpu c u d).runningProcess =
        (Function.update s.cpu c u d).execution.running := by
    intro c u hu
    by_cases hd : d = c
    · subst hd
      simpa using hu
    · simpa [Function.update_of_ne hd] using hi.runningProcess d
  have hr := hi.runningProcess
  cases e <;> simp only [step, Option.ite_none_right_eq_some, Option.some.injEq] at h
  case lockNext c i =>
    obtain ⟨⟨_, hc, _⟩, rfl⟩ := h
    exact hupdate c _ (by simp [hr c, hc, Execution.running])
  case test c i =>
    obtain ⟨hc, h⟩ := h
    split_ifs at h
    · obtain rfl := Option.some.inj h
      exact hupdate c _ rfl
    · obtain rfl := Option.some.inj h
      exact hupdate c _ (by simp [hr c, hc, Execution.running])
  case back c i =>
    obtain ⟨_, rfl⟩ := h
    exact hupdate c _ rfl
  case switchToScheduler c p r =>
    obtain ⟨⟨hc, _⟩, rfl⟩ := h
    exact hupdate c _ (by simp [hr c, hc, Execution.running])
  case fork c p i isCopied =>
    obtain ⟨_, h⟩ := h
    split_ifs at h
    · obtain rfl := Option.some.inj h
      exact hr d
    · obtain rfl := Option.some.inj h
      exact hr d
  case wakeNext c a channel k =>
    obtain ⟨_, h⟩ := h
    split_ifs at h
    · obtain rfl := Option.some.inj h
      exact hr d
    · obtain rfl := Option.some.inj h
      exact hr d
    · obtain rfl := Option.some.inj h
      exact hr d
  all_goals
    obtain ⟨_, rfl⟩ := h
    exact hr d

/-- An event of a CPU without a handler that may change the stage of its process. -/
theorem handlerOk_of_stage (hi : Inv s) {s' : State κ} (hh : s'.handler = s.handler)
    (hc : s'.cpu = s.cpu) (hp : s.handler c = false) (hx : (s.cpu c).execution = .process p)
    (hg : ∀ q, q ≠ p → s.stage q = .running → s'.stage q = .running) (d : κ) : s'.HandlerOk d := by
  intro hd
  rw [hh] at hd
  rw [hc]
  obtain h | ⟨q, hq, hs⟩ := hi.handler d hd
  · exact .inl h
  · refine .inr ⟨q, hq, hg q ?_ hs⟩
    intro hqp
    rw [hqp] at hq
    rw [hi.cpu_unique hx hq, hd] at hp
    cases hp

/-- An event of a CPU that is on the way to or from the scheduler. -/
theorem Inv.handler_of_entered (hi : Inv s) (hc : (s.cpu c).execution = .process p)
    (hg : s.stage p ≠ .running) : s.handler c = false := by
  by_contra hh
  obtain h | ⟨q, hq, hs⟩ := hi.handler c (by simpa using hh)
  · rw [hc] at h; cases h
  · rw [hc] at hq
    cases hq
    exact hg hs

theorem Inv.handler_of_loop (hi : Inv s)
    (hc : (s.cpu c).execution = .locked i ∨ (s.cpu c).execution = .back i) :
    s.handler c = false := by
  by_contra hh
  obtain h | ⟨q, hq, hs⟩ := hi.handler c (by simpa using hh)
  · rw [h] at hc; obtain hc | hc := hc <;> cases hc
  · rw [hq] at hc; obtain hc | hc := hc <;> cases hc

theorem handlerOk_of_cpu (hi : Inv s) {s' : State κ} {u : Cpu} (hh : s'.handler = s.handler)
    (hc : s'.cpu = Function.update s.cpu c u) (hp : s.handler c = false)
    (hg : ∀ q, s.stage q = .running → s'.stage q = .running) (d : κ) : s'.HandlerOk d := by
  intro hd
  rw [hh] at hd
  have hdc : d ≠ c := fun h => by rw [h, hp] at hd; cases hd
  rw [hc, Function.update_of_ne hdc]
  obtain h | ⟨q, hq, hs⟩ := hi.handler d hd
  · exact .inl h
  · exact .inr ⟨q, hq, hg q hs⟩

theorem Inv.handler_step {initialProcess : Slot} {s' : State κ} (hi : Inv s) {e : Event κ}
    (h : step initialProcess s e = some s') : ∀ d, s'.HandlerOk d := by
  cases e <;> simp only [step, Option.ite_none_right_eq_some, Option.some.injEq] at h
  case lockNext c i =>
    obtain ⟨⟨hh, _⟩, rfl⟩ := h
    exact handlerOk_of_cpu hi rfl rfl hh fun _ hq => hq
  case test c i =>
    obtain ⟨hc, h⟩ := h
    have hh := hi.handler_of_loop (.inl hc)
    split_ifs at h
    · obtain rfl := Option.some.inj h
      exact handlerOk_of_cpu hi rfl rfl hh fun _ hq => hq
    · obtain rfl := Option.some.inj h
      exact handlerOk_of_cpu hi rfl rfl hh fun _ hq => hq
  case back c i =>
    obtain ⟨hc, rfl⟩ := h
    exact handlerOk_of_cpu hi rfl rfl (hi.handler_of_loop (.inr hc)) fun _ hq => hq
  case switchToScheduler c p r =>
    obtain ⟨⟨hc, hg⟩, rfl⟩ := h
    refine handlerOk_of_cpu hi rfl rfl (hi.handler_of_entered hc (by simp [hg])) fun q hq => ?_
    by_cases hqp : q = p
    · rw [hqp, hg] at hq; cases hq
    · exact (Function.update_of_ne hqp _ _).trans hq
  case resumed c p r =>
    obtain ⟨⟨hc, hg⟩, rfl⟩ := h
    refine handlerOk_of_stage hi rfl rfl (hi.handler_of_entered hc (by simp [hg])) hc ?_
    intro q hqp hq
    exact (Function.update_of_ne hqp _ _).trans hq
  case yield c p =>
    obtain ⟨⟨hr, _⟩, rfl⟩ := h
    refine handlerOk_of_stage hi rfl rfl hr.1 hr.2.1 fun q hqp hq => ?_
    exact (Function.update_of_ne hqp _ _).trans hq
  case sleep c p channel =>
    obtain ⟨⟨hr, _⟩, rfl⟩ := h
    refine handlerOk_of_stage hi rfl rfl hr.1 hr.2.1 fun q hqp hq => ?_
    exact (Function.update_of_ne hqp _ _).trans hq
  case exit c p status =>
    obtain ⟨⟨hr, _⟩, rfl⟩ := h
    refine handlerOk_of_stage hi rfl rfl hr.1 hr.2.1 fun q hqp hq => ?_
    exact (Function.update_of_ne hqp _ _).trans hq
  case sleepWithLock c p channel =>
    obtain ⟨⟨hr, _⟩, rfl⟩ := h
    refine handlerOk_of_stage hi rfl rfl hr.1 hr.2.1 fun q hqp hq => ?_
    exact (Function.update_of_ne hqp _ _).trans hq
  case releaseLock c p channel =>
    obtain ⟨⟨hc, hg⟩, rfl⟩ := h
    refine handlerOk_of_stage hi rfl rfl (hi.handler_of_entered hc (by simp [hg])) hc ?_
    intro q hqp hq
    exact (Function.update_of_ne hqp _ _).trans hq
  case putProcessToSleep c p channel =>
    obtain ⟨⟨hc, hg⟩, rfl⟩ := h
    refine handlerOk_of_stage hi rfl rfl (hi.handler_of_entered hc (by simp [hg])) hc ?_
    intro q hqp hq
    exact (Function.update_of_ne hqp _ _).trans hq
  case fork c p i isCopied =>
    obtain ⟨⟨hr, _, hl, hu⟩, h⟩ := h
    have hg : ∀ q, s.stage q = .running →
        Function.update s.stage i (.switched .forkReturn) q = .running := by
      intro q hq
      obtain ⟨⟨r, hgi, _⟩, _⟩ := (hi.slot i).of_free hl (by simp [hu])
      have hqi : q ≠ i := fun h => by rw [h, hgi] at hq; cases hq
      rw [Function.update_of_ne hqi]
      exact hq
    split_ifs at h
    · obtain rfl := Option.some.inj h
      exact handlerOk_of_stage hi rfl rfl hr.1 hr.2.1 fun q _ hq => hg q hq
    · obtain rfl := Option.some.inj h
      exact handlerOk_of_stage hi rfl rfl hr.1 hr.2.1 fun q _ hq => hg q hq
  case wakeNext c a channel k =>
    obtain ⟨_, h⟩ := h
    split_ifs at h
    · obtain rfl := Option.some.inj h
      exact hi.handler
    · obtain rfl := Option.some.inj h
      exact hi.handler
    · obtain rfl := Option.some.inj h
      exact hi.handler
  case handlerStart c =>
    obtain ⟨⟨_, hc⟩, rfl⟩ := h
    intro d hd
    by_cases hdc : d = c
    · subst hdc
      exact hc.imp_right fun ⟨p, hp⟩ => ⟨p, hp.2⟩
    · exact hi.handler d (by simpa [Function.update_of_ne hdc] using hd)
  case handlerEnd c =>
    obtain ⟨_, rfl⟩ := h
    intro d hd
    by_cases hdc : d = c
    · subst hdc
      simp at hd
    · exact hi.handler d (by simpa [Function.update_of_ne hdc] using hd)
  all_goals
    obtain ⟨_, rfl⟩ := h
    exact hi.handler

/-- The phase of one agent becomes one without a child. -/
theorem phase_frame {a : Agent κ} {f : Phase} (hf : f.child = none) (q : Slot) (j : Slot)
    (hq : (Function.update s.phase a f (.process q)).child = some j) :
    Function.update s.phase a f (.process q) = s.phase (.process q) := by
  by_cases ha : Agent.process q = a
  · subst ha
    simp [hf] at hq
  · exact Function.update_of_ne ha _ _

theorem State.ChildrenOk.setPhase (hi : s.ChildrenOk) {a : Agent κ} {f : Phase}
    (hf : f.child = none) : (s.setPhase a f).ChildrenOk :=
  hi.frame (phase_frame hf) fun _ _ _ _ hj => ⟨hj, id⟩

/-- A process that starts on a child of its own. -/
theorem State.ChildrenOk.startChild (hi : s.ChildrenOk) {f : Phase} (hf : f.child = some i)
    (hu : (s.table i).state = .used) (hn : ∀ q, (s.phase (.process q)).child ≠ some i)
    (hg : f = .forked i ∨ f = .parented i → s.stage i = .switched .forkReturn) :
    (s.setPhase (.process p) f).ChildrenOk := by
  have hq : ∀ q, q ≠ p → (s.setPhase (.process p) f).phase (.process q) = s.phase (.process q) :=
    fun q h => Function.update_of_ne (by simpa using h) _ _
  have hp : (s.setPhase (.process p) f).phase (.process p) = f := Function.update_self _ _ _
  constructor
  · intro q j hqj
    by_cases hqp : q = p
    · rw [hqp, hp, hf] at hqj
      rw [← Option.some.inj hqj]
      exact hu
    · rw [hq q hqp] at hqj
      exact hi.used q j hqj
  · intro q j hqj
    by_cases hqp : q = p
    · rw [hqp, hp] at hqj
      have hij : i = j := by
        obtain h | h := hqj <;> simpa [h, Phase.child] using hf.symm
      rw [← hij] at hqj ⊢
      exact hg hqj
    · rw [hq q hqp] at hqj
      exact hi.saved q j hqj
  · intro q q' j hqj hqj'
    by_cases hqp : q = p
    · by_cases hqp' : q' = p
      · rw [hqp, hqp']
      · rw [hqp, hp, hf] at hqj
        rw [hq q' hqp', ← hqj] at hqj'
        exact absurd hqj' (hn q')
    · by_cases hqp' : q' = p
      · rw [hqp', hp, hf] at hqj'
        rw [hq q hqp, ← hqj'] at hqj
        exact absurd hqj (hn q)
      · rw [hq q hqp] at hqj
        rw [hq q' hqp'] at hqj'
        exact hi.childless q q' j hqj hqj'

end

section
variable {s : State κ}

theorem Inv.children_step {initialProcess : Slot} {s' : State κ} (hi : Inv s) {e : Event κ}
    (h : step initialProcess s e = some s') : s'.ChildrenOk := by
  have hk := hi.children
  have hu : ∀ p i, (s.phase (.process p)).child = some i → ∀ q,
      (Function.update s.phase (.process p) Phase.code (.process q)).child ≠ some i := by
    intro p i hp q hq
    by_cases hqp : q = p
    · simp [hqp, Phase.child] at hq
    · rw [Function.update_of_ne (by simpa using hqp)] at hq
      exact hqp (hk.childless q p i hq hp)
  have hn : ∀ i, (s.table i).state = .unused → ∀ q, (s.phase (.process q)).child ≠ some i := by
    intro i hi q hq
    rw [hk.used q i hq] at hi
    cases hi
  cases e <;> simp only [step, Option.ite_none_right_eq_some, Option.some.injEq] at h
  case test c i =>
    obtain ⟨_, h⟩ := h
    split_ifs at h with hs
    · obtain rfl := Option.some.inj h
      exact (hk.setProcess (by simp [hs])).of_eq rfl rfl rfl
    · obtain rfl := Option.some.inj h
      exact hk.of_eq rfl rfl rfl
  case switchToScheduler c p r =>
    obtain ⟨⟨_, hg⟩, rfl⟩ := h
    exact (hk.setStage (by simp [hg])).of_eq rfl rfl rfl
  case resumed c p r =>
    obtain ⟨⟨hc, hg⟩, rfl⟩ := h
    obtain ⟨he, _⟩ := hi.entered hc (by simp [hg])
    rw [hg] at he
    refine hk.frame ?_ fun q j _ _ hj => ?_
    · intro q j hq
      by_cases hqp : q = p
      · subst hqp
        cases r with
        | sleepWithLock channel => simp [State.setPhase, Reason.next, Phase.child] at hq
        | forkReturn => simp [State.setPhase, Reason.next, Phase.child] at hq
        | yield => exact Function.update_self _ _ _
        | sleep channel => exact Function.update_self _ _ _
        | exit => exact Function.update_self _ _ _
      · exact Function.update_of_ne (by simpa using hqp) _ _
    · have hjp : j ≠ p := fun h => by rw [h, he.1] at hj; cases hj
      exact ⟨by simpa [State.setPhase, State.setStage, State.setLock, State.setProcess,
        Function.update_of_ne hjp] using hj, (Function.update_of_ne hjp _ _).trans⟩
  case yield c p =>
    obtain ⟨⟨hr, _⟩, rfl⟩ := h
    exact hk.leave (hi.running_of_runs hr)
  case sleep c p channel =>
    obtain ⟨⟨hr, _⟩, rfl⟩ := h
    exact hk.leave (hi.running_of_runs hr)
  case exit c p status =>
    obtain ⟨⟨hr, _⟩, rfl⟩ := h
    exact hk.leave (hi.running_of_runs hr)
  case sleepWithLock c p channel =>
    obtain ⟨⟨hr, _⟩, rfl⟩ := h
    exact (hk.setStage (i := p) (g := .sleepLocked channel) (by simp [hr.2.2])).of_eq rfl rfl rfl
  case releaseLock c p channel =>
    obtain ⟨⟨_, hg⟩, rfl⟩ := h
    exact hk.setStage (by simp [hg])
  case putProcessToSleep c p channel =>
    obtain ⟨⟨hc, hg⟩, rfl⟩ := h
    obtain ⟨he, _⟩ := hi.entered hc (by simp [hg])
    rw [hg] at he
    exact (hk.setProcess (by simp [show (s.table p).state = .running from he])).setStage
      (by simp [State.setProcess, hg])
  case acquireLock c p channel =>
    obtain ⟨_, rfl⟩ := h
    exact hk.setPhase rfl
  case fork c p i isCopied =>
    obtain ⟨⟨_, _, _, hui⟩, h⟩ := h
    have h1 : (s.startInit i).ChildrenOk :=
      (hk.setProcess (i := i) (e := { s.table i with state := .used, pid := s.nextProcessId })
        (fun _ => rfl)).of_eq rfl rfl rfl
    have h2 := h1.setStage (i := i) (g := .switched .forkReturn) fun _ _ => rfl
    split_ifs at h
    · obtain rfl := Option.some.inj h
      refine h2.startChild rfl ?_ (hn i hui) fun _ => Function.update_self _ _ _
      simp [State.setStage, State.startInit, State.setProcess]
    · obtain rfl := Option.some.inj h
      refine h2.frame (fun _ _ _ => rfl) fun q j hq _ hj => ?_
      have hji : j ≠ i := fun h => hn i hui q (by rw [← h]; exact hq)
      exact ⟨by simpa [State.setProcess, Function.update_of_ne hji] using hj, id⟩
  case forkInitFails c p i =>
    obtain ⟨⟨_, _, _, hui⟩, rfl⟩ := h
    have h1 : (s.startInit i).ChildrenOk :=
      (hk.setProcess (i := i) (e := { s.table i with state := .used, pid := s.nextProcessId })
        (fun _ => rfl)).of_eq rfl rfl rfl
    refine h1.startChild rfl ?_ (hn i hui) (by simp)
    simp [State.startInit, State.setProcess]
  case freeFailed c p i =>
    obtain ⟨⟨_, hf⟩, rfl⟩ := h
    have hpi : (s.phase (.process p)).child = some i := by simp [hf, Phase.child]
    refine hk.frame (phase_frame rfl) fun q j hq hq' hj => ⟨?_, id⟩
    have hji : j ≠ i := fun h => hu p i hpi q (by rw [← h]; exact hq')
    simpa [State.setPhase, State.setProcess, Function.update_of_ne hji] using hj
  case setParent c p i =>
    obtain ⟨⟨_, hf⟩, rfl⟩ := h
    have hpi : (s.phase (.process p)).child = some i := by simp [hf, Phase.child]
    have hc := (hk.setProcess (i := i) (e := { s.table i with parentProcess := some p })
      id).setPhase (a := .process p) (f := .code) rfl
    refine (hc.startChild (p := p) (f := .parented i) rfl ?_ (hu p i hpi) fun _ =>
      hk.saved p i (.inl hf)).of_eq rfl rfl (Function.update_idem _ _ _).symm
    simpa [State.setPhase, State.setProcess] using hk.used p i hpi
  case setRunnable c p i =>
    obtain ⟨⟨_, hf, _⟩, rfl⟩ := h
    have hpi : (s.phase (.process p)).child = some i := by simp [hf, Phase.child]
    refine hk.frame (phase_frame rfl) fun q j hq hq' hj => ⟨?_, id⟩
    have hji : j ≠ i := fun h => hu p i hpi q (by rw [← h]; exact hq')
    simpa [State.setPhase, State.setProcess, Function.update_of_ne hji] using hj
  case reparent c p i =>
    obtain ⟨_, rfl⟩ := h
    exact hk.setProcess id
  case reap c p i =>
    obtain ⟨⟨_, _, _, _, hz⟩, rfl⟩ := h
    exact hk.setProcess (by simp [hz])
  case kill c p i wakes =>
    obtain ⟨_, rfl⟩ := h
    exact hk.setProcess fun h => by simp [killed, h]
  case startWakeup c a channel =>
    obtain ⟨_, rfl⟩ := h
    exact hk.setPhase rfl
  case wakeNext c a channel k =>
    obtain ⟨_, h⟩ := h
    split_ifs at h
    · obtain rfl := Option.some.inj h
      exact hk.setPhase rfl
    · obtain rfl := Option.some.inj h
      exact (hk.setProcess fun h => by simp [wake, h]).setPhase rfl
    · obtain rfl := Option.some.inj h
      exact hk.setPhase rfl
  all_goals
    obtain ⟨_, rfl⟩ := h
    exact hk.of_eq rfl rfl rfl

end

/-! ## The phases of a process -/

/-- The agent is executed, so that its phase may be any. -/
theorem Inv.phases_setPhase {s : State κ} (hi : Inv s) {c : κ} {a : Agent κ} (ha : s.Acts c a)
    (f : Phase) : ∀ j, (s.setPhase a f).PhaseOk j := by
  intro j
  by_cases hj : Agent.process j = a
  · subst hj
    exact .inr ⟨.inl (hi.running_of_runs ha), .inl ha.2.2⟩
  · have hf : (s.setPhase a f).phase (.process j) = s.phase (.process j) :=
      Function.update_of_ne hj _ _
    rw [State.PhaseOk, hf]
    exact hi.phase j

theorem Inv.phase_step {initialProcess : Slot} {s s' : State κ} (hi : Inv s) {e : Event κ}
    (h : Scheduler.step initialProcess s e = some s') : ∀ j, s'.PhaseOk j := by
  have hk := hi.phase
  cases e <;> simp only [Scheduler.step, Option.ite_none_right_eq_some, Option.some.injEq] at h
  case test c i =>
    obtain ⟨_, h⟩ := h
    split_ifs at h with hs
    · obtain rfl := Option.some.inj h
      exact phases_setProcess hk (by simp)
    · obtain rfl := Option.some.inj h
      exact hk
  case switchToScheduler c p r =>
    obtain ⟨⟨_, hg⟩, rfl⟩ := h
    refine phases_of_change hk p ?_ fun j hj => ⟨rfl, Function.update_of_ne hj _ _, rfl⟩
    obtain hf | ⟨hs, hr⟩ := hk p
    · exact .inl hf
    · refine .inr ⟨hs, .inr (.inr ?_)⟩
      have hr : r = .yield := by simpa [hg] using hr
      rw [hr]
      exact Function.update_self _ _ _
  case resumed c p r =>
    obtain ⟨⟨hc, hg⟩, rfl⟩ := h
    obtain ⟨he, _⟩ := hi.entered hc (by simp [hg])
    rw [hg] at he
    refine phases_of_change hk p (.inr ⟨.inl ?_, .inl (Function.update_self _ _ _)⟩) fun j hj => ?_
    · simp only [State.setPhase, State.setStage, State.setLock, State.setProcess,
        Function.update_self]
      cases r <;> exact he.1
    · refine ⟨?_, Function.update_of_ne hj _ _, Function.update_of_ne (by simpa using hj) _ _⟩
      simp [State.setPhase, State.setStage, State.setLock, State.setProcess,
        Function.update_of_ne hj]
  case yield c p =>
    obtain ⟨_, rfl⟩ := h
    exact phases_leave hk (.inr ⟨rfl, rfl⟩)
  case sleep c p channel =>
    obtain ⟨⟨_, hf, _⟩, rfl⟩ := h
    exact phases_leave hk (.inl hf)
  case exit c p status =>
    obtain ⟨⟨_, hf, _⟩, rfl⟩ := h
    exact phases_leave hk (.inl hf)
  case sleepWithLock c p channel =>
    obtain ⟨⟨_, hf, _⟩, rfl⟩ := h
    exact phases_of_change hk p (.inl hf) fun j hj => ⟨rfl, Function.update_of_ne hj _ _, rfl⟩
  case releaseLock c p channel =>
    obtain ⟨⟨_, hg⟩, rfl⟩ := h
    have hf : s.phase (.process p) = .code := by
      obtain hf | ⟨_, hr⟩ := hk p
      · exact hf
      · simp [hg] at hr
    exact phases_of_change hk p (.inl hf) fun j hj => ⟨rfl, Function.update_of_ne hj _ _, rfl⟩
  case putProcessToSleep c p channel =>
    obtain ⟨⟨_, hg⟩, rfl⟩ := h
    have hf : s.phase (.process p) = .code := by
      obtain hf | ⟨_, hr⟩ := hk p
      · exact hf
      · simp [hg] at hr
    refine phases_of_change hk p (.inl hf) fun j hj => ⟨?_, Function.update_of_ne hj _ _, rfl⟩
    simp [State.setStage, State.setProcess, Function.update_of_ne hj]
  case acquireLock c p channel =>
    obtain ⟨⟨hr, _⟩, rfl⟩ := h
    exact hi.phases_setPhase (a := .process p) hr _
  case fork c p i isCopied =>
    obtain ⟨⟨hr, _, _, hu⟩, h⟩ := h
    have hf := (hk i).code (by simp [hu]) (by simp [hu])
    have hpi : p ≠ i := fun hx => by
      rw [← hx, hi.running_of_runs hr] at hu
      cases hu
    have hp : ∀ f, (s.setPhase (.process p) f).phase (.process i) = .code := fun f => by
      rw [← hf]
      exact Function.update_of_ne (by simpa using hpi.symm) _ _
    split_ifs at h
    · obtain rfl := Option.some.inj h
      refine phases_of_change (hi.phases_setPhase (a := .process p) hr (.forked i)) i
        (.inl (hp _)) fun j hj => ⟨?_, Function.update_of_ne hj _ _, rfl⟩
      simp [State.setPhase, State.setStage, State.startInit, State.setProcess,
        Function.update_of_ne hj]
    · obtain rfl := Option.some.inj h
      refine phases_of_change hk i (.inl hf) fun j hj => ⟨?_, Function.update_of_ne hj _ _, rfl⟩
      simp [State.setStage, State.startInit, State.setProcess, Function.update_of_ne hj]
  case forkInitFails c p i =>
    obtain ⟨⟨hr, _, _, hu⟩, rfl⟩ := h
    exact phases_setProcess (hi.phases_setPhase (a := .process p) hr (.allocFailed i))
      (by simp [State.setPhase, hu])
  case freeFailed c p i =>
    obtain ⟨⟨hr, hf⟩, rfl⟩ := h
    have hu := hi.children.used p i (by simp [hf, Phase.child])
    exact phases_setProcess (hi.phases_setPhase (a := .process p) hr .code)
      (by simp [State.setPhase, hu])
  case setParent c p i =>
    obtain ⟨⟨hr, _⟩, rfl⟩ := h
    exact phases_setProcess (hi.phases_setPhase (a := .process p) hr (.parented i)) id
  case setRunnable c p i =>
    obtain ⟨⟨hr, _⟩, rfl⟩ := h
    exact phases_setProcess (hi.phases_setPhase (a := .process p) hr .code) (by simp)
  case reparent c p i =>
    obtain ⟨_, rfl⟩ := h
    exact phases_setProcess hk id
  case reap c p i =>
    obtain ⟨⟨_, _, _, _, hz⟩, rfl⟩ := h
    exact phases_setProcess hk (by simp [hz])
  case kill c p i wakes =>
    obtain ⟨_, rfl⟩ := h
    refine phases_setProcess hk fun h => ?_
    simp only [killed]
    split_ifs
    · exact .inr rfl
    · exact h
  case startWakeup c a channel =>
    obtain ⟨⟨ha, _⟩, rfl⟩ := h
    exact hi.phases_setPhase ha _
  case wakeNext c a channel k =>
    obtain ⟨⟨ha, _⟩, h⟩ := h
    split_ifs at h
    · obtain rfl := Option.some.inj h
      exact hi.phases_setPhase ha _
    · obtain rfl := Option.some.inj h
      refine phases_setProcess (hi.phases_setPhase ha (.waking channel (k + 1))) fun h => ?_
      unfold wake
      split_ifs
      · exact .inr rfl
      · exact h
    · obtain rfl := Option.some.inj h
      exact hi.phases_setPhase ha _
  all_goals
    obtain ⟨_, rfl⟩ := h
    exact hk

/-- Every event keeps the invariant. -/
theorem Inv.step {initialProcess : Slot} {s s' : State κ} (hi : Inv s) {e : Event κ}
    (h : step initialProcess s e = some s') : Inv s' :=
  ⟨hi.slots_step h, hi.runningProcess_step h, hi.handler_step h, hi.children_step h, hi.phase_step h⟩

theorem Inv.run {initialProcess : Slot} {s₀ s : State κ} {events : List (Event κ)}
    (h₀ : Initial initialProcess s₀)
    (h : Transition.run (Scheduler.step initialProcess) s₀ events = some s) : Inv s := by
  refine Transition.run_induction (P := fun _ s => Inv s) (.initial h₀) ?_ events s h
  intro _ _ _ _ _ hi he
  exact hi.step he

end Zigmaos.Scheduler
