import Zigmaos.Transition

/-!
# Nested interrupt disabling

`pushOff` and `popOff` of `interrupts.zig`, and what `switchToScheduler` and `loop`
do with their counts. A CPU executes its scheduler or the kernel thread of a
process, and either may be interrupted: a handler is more code of what it
interrupts, up to its return. `acquire` and `release` of a spin lock are `pushOff`
and `popOff` here. The memory of the CPUs is zero at the start.

Beside the fields of the CPUs there is, for everything that can be executed, how
many calls of `pushOff` are unmatched, and whether interrupts were on before the
outermost one. A new thread goes on from the `pushOff` of the scheduler.
-/
namespace Zigmaos.InterruptNesting
open Transition

/-- What a CPU can execute. -/
inductive Context (κ τ : Type)
  | scheduler (c : κ)
  | thread (t : τ)
  deriving DecidableEq

variable {κ τ : Type}

structure Cpu (κ τ : Type) where
  /-- `Sstatus.SIE` -/
  isEnabled : Bool
  pushDepth : ℕ
  interruptsEnabled : Bool
  runs : Context κ τ

inductive Panic
  | interruptible | popOff
  deriving DecidableEq

/-- Whether a thread has run, or is away with its `previous_interrupt_state`. -/
inductive Status
  | new
  | running
  | away (previousInterruptState : Bool)
  deriving DecidableEq

/-- `pushing` is the `previousInterruptState` of a `pushOff` that has read it and done no more;
`traps` has those of the code that handlers have interrupted. -/
structure Execution where
  unmatched : ℕ
  before : Bool
  pushing : Option Bool
  traps : List (Option Bool)

structure State (κ τ : Type) where
  cpu : κ → Cpu κ τ
  execution : Context κ τ → Execution
  status : τ → Status
  /-- A process has come back to `loop`, which has still to release its lock. -/
  back : κ → Bool

inductive Event (κ τ : Type)
  /-- `pushOff` reads whether interrupts are on. -/
  | pushRead (c : κ)
  /-- The rest of `pushOff`. -/
  | pushOff (c : κ)
  | popOff (c : κ)
  | enable (c : κ)
  | disable (c : κ)
  | trap (c : κ)
  | trapReturn (c : κ)
  | switchToScheduler (c : κ)
  /-- `loop` switches to the thread. -/
  | switchTo (c : κ) (t : τ)

namespace Cpu

def pushOff (u : Cpu κ τ) (previousInterruptState : Bool) : Cpu κ τ :=
  { u with
    isEnabled := false
    interruptsEnabled := if u.pushDepth = 0 then previousInterruptState else u.interruptsEnabled
    pushDepth := u.pushDepth + 1 }

def popOff (u : Cpu κ τ) : Except Panic (Cpu κ τ) :=
  if u.isEnabled then .error .interruptible
  else if u.pushDepth < 1 then .error .popOff
  else
    .ok { u with
      pushDepth := u.pushDepth - 1
      isEnabled := if u.pushDepth - 1 = 0 ∧ u.interruptsEnabled then true else u.isEnabled }

end Cpu

namespace Execution

/-- A call of `pushOff` is made. -/
def pushed (x : Execution) (previousInterruptState : Bool) : Execution :=
  { x with
    unmatched := x.unmatched + 1
    before := if x.unmatched = 0 then previousInterruptState else x.before
    pushing := none }

def popped (x : Execution) : Execution := { x with unmatched := x.unmatched - 1 }

end Execution

/-! ### What a CPU executes -/

/-- The fields of the CPU fit what it executes. -/
structure Fits (u : Cpu κ τ) (x : Execution) : Prop where
  depth : u.pushDepth = x.unmatched
  off : 0 < x.unmatched → u.isEnabled = false
  pushing : ∀ b, x.pushing = some b → u.isEnabled = b
  /-- Only code with interrupts on is interrupted. -/
  traps : ∀ b, some b ∈ x.traps → b = true

/-- `interruptsEnabled` is what was before the outermost `pushOff`. -/
def Remembers (u : Cpu κ τ) (x : Execution) : Prop := 0 < x.unmatched → u.interruptsEnabled = x.before

variable {u u' : Cpu κ τ} {x : Execution}

theorem Fits.pushRead (h : Fits u x) : Fits u { x with pushing := some u.isEnabled } where
  depth := h.depth
  off := h.off
  pushing _ hb := Option.some.inj hb
  traps := h.traps

theorem Fits.pushOff (h : Fits u x) (previous : Bool) :
    Fits (u.pushOff previous) (x.pushed previous) where
  depth := congrArg (· + 1) h.depth
  off _ := rfl
  pushing _ hb := by cases hb
  traps := h.traps

/-- The state is read while nothing is unmatched, or the one from before is kept. -/
theorem Fits.remembers_pushOff (h : Fits u x) (hr : Remembers u x) (previous : Bool) :
    Remembers (u.pushOff previous) (x.pushed previous) := by
  intro _
  simp only [Cpu.pushOff, Execution.pushed, h.depth]
  by_cases hzero : x.unmatched = 0
  · rw [if_pos hzero, if_pos hzero]
  · rw [if_neg hzero, if_neg hzero]
    exact hr (Nat.pos_of_ne_zero hzero)

/-- The first `pushOff` remembers what it has read. -/
theorem Fits.remembers_of_zero (h : Fits u x) (hzero : x.unmatched = 0) (previous : Bool) :
    Remembers (u.pushOff previous) (x.pushed previous) :=
  h.remembers_pushOff (fun hpos => by omega) previous

theorem Fits.popOff (h : Fits u x) (hpos : 0 < x.unmatched) (hpushing : x.pushing = none) :
    ∃ u', u.popOff = .ok u' ∧ Fits u' x.popped ∧ u'.interruptsEnabled = u.interruptsEnabled ∧
      u'.runs = u.runs ∧
      (x.unmatched = 1 → u'.isEnabled = u.interruptsEnabled) := by
  have hoff := h.off hpos
  have hdepth : ¬ u.pushDepth < 1 := by
    rw [h.depth]
    omega
  have hok : u.popOff = .ok { u with
      pushDepth := u.pushDepth - 1
      isEnabled := if u.pushDepth - 1 = 0 ∧ u.interruptsEnabled then true else u.isEnabled } := by
    rw [Cpu.popOff, if_neg (by simp [hoff]), if_neg hdepth]
  refine ⟨_, hok, ⟨congrArg (· - 1) h.depth, ?_, ?_, h.traps⟩, rfl, rfl, ?_⟩
  · intro hmore
    have hne : ¬ (u.pushDepth - 1 = 0 ∧ u.interruptsEnabled = true) := by
      intro ⟨hzero, _⟩
      rw [h.depth] at hzero
      exact absurd hmore (by simp [Execution.popped, hzero])
    simp only [if_neg hne, hoff]
  · intro b hb
    rw [Execution.popped, hpushing] at hb
    cases hb
  · intro hone
    have hzero : u.pushDepth - 1 = 0 := by rw [h.depth, hone]
    cases henabled : u.interruptsEnabled <;> simp [hzero, hoff]

theorem Fits.setEnabled (h : Fits u x) (hzero : x.unmatched = 0) (hpushing : x.pushing = none)
    (b : Bool) : Fits { u with isEnabled := b } x where
  depth := h.depth
  off hpos := by omega
  pushing _ hb := by
    rw [hpushing] at hb
    cases hb
  traps := h.traps

theorem Fits.unmatched_of_enabled (h : Fits u x) (henabled : u.isEnabled = true) :
    x.unmatched = 0 := by
  by_contra hne
  have := h.off (Nat.pos_of_ne_zero hne)
  rw [henabled] at this
  cases this

theorem Fits.trap (h : Fits u x) (henabled : u.isEnabled = true) :
    Fits { u with isEnabled := false }
      { x with pushing := none, traps := x.pushing :: x.traps } where
  depth := h.depth
  off _ := rfl
  pushing _ hb := by cases hb
  traps b hb := by
    obtain hb | hb := List.mem_cons.mp hb
    · exact (h.pushing b hb.symm).symm.trans henabled
    · exact h.traps b hb

theorem Fits.trapReturn (h : Fits u x) (hzero : x.unmatched = 0) {pushing : Option Bool}
    {traps : List (Option Bool)} (htraps : x.traps = pushing :: traps) :
    Fits { u with isEnabled := true } { x with pushing := pushing, traps := traps } where
  depth := h.depth
  off hpos := absurd hpos (by simp [hzero])
  pushing b hb := (h.traps b (by rw [htraps, ← hb]; exact List.mem_cons_self)).symm
  traps b hb := h.traps b (by rw [htraps]; exact List.mem_cons_of_mem _ hb)

/-! ### The system -/

variable [DecidableEq κ] [DecidableEq τ]

namespace State

/-- The execution of what the CPU runs. -/
def current (s : State κ τ) (c : κ) : Execution := s.execution (s.cpu c).runs

def setCpu (s : State κ τ) (c : κ) (u : Cpu κ τ) : State κ τ :=
  { s with cpu := Function.update s.cpu c u }

/-- The CPU goes on with what it executes. -/
def proceed (s : State κ τ) (c : κ) (x : Execution) (u : Cpu κ τ) (b : Bool) : State κ τ :=
  { s with
    cpu := Function.update s.cpu c u
    execution := Function.update s.execution (s.cpu c).runs x
    back := Function.update s.back c b }

/-- `loop` has released the lock of the last process when it takes the next. -/
def stillBack (s : State κ τ) (c : κ) : Bool :=
  s.back c && !decide ((s.current c).unmatched = 0 ∧ (s.cpu c).runs = .scheduler c)

def setStatus (s : State κ τ) (t : τ) (x : Status) : State κ τ :=
  { s with status := Function.update s.status t x }

/-- A balanced sequence calls `popOff` only after a `pushOff`; interrupts are switched directly,
and a handler returns, with none unmatched. -/
def step (s : State κ τ) : Event κ τ → Option (State κ τ)
  | .pushRead c =>
    if (s.current c).pushing = none then
      some (s.proceed c { s.current c with pushing := some (s.cpu c).isEnabled } (s.cpu c) (s.back c))
    else none
  | .pushOff c =>
    match (s.current c).pushing with
    | none => none
    | some previous =>
      some (s.proceed c ((s.current c).pushed previous) ((s.cpu c).pushOff previous) (s.stillBack c))
  | .popOff c =>
    if 0 < (s.current c).unmatched ∧ (s.current c).pushing = none then
      match (s.cpu c).popOff with
      | .error _ => none
      | .ok u => some (s.proceed c (s.current c).popped u (s.back c))
    else none
  | .enable c =>
    if (s.current c).unmatched = 0 ∧ (s.current c).pushing = none then
      some (s.proceed c (s.current c) { s.cpu c with isEnabled := true } (s.back c))
    else none
  | .disable c =>
    if (s.current c).unmatched = 0 ∧ (s.current c).pushing = none then
      some (s.proceed c (s.current c) { s.cpu c with isEnabled := false } (s.back c))
    else none
  | .trap c =>
    if (s.cpu c).isEnabled then
      some (s.proceed c
        { s.current c with
          pushing := none, traps := (s.current c).pushing :: (s.current c).traps }
        { s.cpu c with isEnabled := false } (s.back c))
    else none
  | .trapReturn c =>
    match (s.current c).traps with
    | [] => none
    | pushing :: traps =>
      if (s.current c).unmatched = 0 ∧ (s.current c).pushing = none then
        -- The restored `sstatus` has interrupts on.
        some (s.proceed c { s.current c with pushing := pushing, traps := traps }
          { s.cpu c with isEnabled := true } (s.back c))
      else none
  | .switchToScheduler c =>
    match (s.cpu c).runs with
    | .scheduler _ => none
    | .thread t =>
      if (s.current c).unmatched = 1 ∧ (s.current c).pushing = none then
        some { (s.setStatus t (.away (s.cpu c).interruptsEnabled)).setCpu c
          { s.cpu c with runs := .scheduler c } with back := Function.update s.back c true }
      else none
  | .switchTo c t =>
    if (s.cpu c).runs = .scheduler c ∧ (s.current c).unmatched = 1 ∧ (s.current c).pushing = none ∧
        s.back c = false then
      match s.status t with
      | .running => none
      | .away previousInterruptState =>
        some ((s.setStatus t .running).setCpu c { s.cpu c with
          runs := .thread t, interruptsEnabled := previousInterruptState })
      | .new =>
        some { (s.setStatus t .running).setCpu c { s.cpu c with runs := .thread t } with
          execution := Function.update s.execution (.thread t) ⟨1, (s.current c).before, none, []⟩ }
    else none

/-- Every CPU is at the start of its scheduler, and no thread has run. -/
structure Initial (s : State κ τ) : Prop where
  runs : ∀ c, (s.cpu c).runs = .scheduler c
  depth : ∀ c, (s.cpu c).pushDepth = 0
  execution : ∀ c, (s.execution (.scheduler c)).unmatched = 0 ∧
    (s.execution (.scheduler c)).pushing = none ∧ (s.execution (.scheduler c)).traps = []
  status : ∀ t, s.status t = .new

end State

/-! ### The invariant -/

/-- A context that no CPU executes, at depth 1. -/
structure Resting (x : Execution) : Prop where
  unmatched : x.unmatched = 1
  pushing : x.pushing = none
  traps : ∀ b, some b ∈ x.traps → b = true

/-- A scheduler to which a process has come back has the `interruptsEnabled` of the process,
until its next `pushOff`. -/
structure Inv (s : State κ τ) : Prop where
  fits : ∀ c, Fits (s.cpu c) (s.current c)
  remembers : ∀ c, (∃ t, (s.cpu c).runs = .thread t) ∨ s.back c = false →
    Remembers (s.cpu c) (s.current c)
  scheduler : ∀ c t, (s.cpu c).runs = .thread t → Resting (s.execution (.scheduler c))
  away : ∀ t b, s.status t = .away b →
    Resting (s.execution (.thread t)) ∧ b = (s.execution (.thread t)).before
  running : ∀ c t, (s.cpu c).runs = .thread t → s.status t = .running
  unique : ∀ c d t, (s.cpu c).runs = .thread t → (s.cpu d).runs = .thread t → c = d
  own : ∀ c d, (s.cpu c).runs = .scheduler d → d = c

variable {s s' : State κ τ} {c d : κ} {t : τ}

omit [DecidableEq κ] [DecidableEq τ] in
theorem Resting.fits (h : Resting x) {u : Cpu κ τ} (hdepth : u.pushDepth = 1)
    (hoff : u.isEnabled = false) : Fits u x where
  depth := hdepth.trans h.unmatched.symm
  off _ := hoff
  pushing _ hb := by
    rw [h.pushing] at hb
    cases hb
  traps := h.traps

omit [DecidableEq κ] [DecidableEq τ] in
theorem Fits.resting (h : Fits u x) (hone : x.unmatched = 1) (hpushing : x.pushing = none) :
    Resting x := ⟨hone, hpushing, h.traps⟩

omit [DecidableEq κ] [DecidableEq τ] in
theorem Inv.initial (h : s.Initial) : Inv s where
  fits c := by
    obtain ⟨hzero, hpushing, htraps⟩ := h.execution c
    have hcurrent : s.current c = s.execution (.scheduler c) := by rw [State.current, h.runs]
    rw [hcurrent]
    refine ⟨(h.depth c).trans hzero.symm, fun hpos => ?_, fun b hb => ?_, fun b hb => ?_⟩
    · omega
    · rw [hpushing] at hb
      cases hb
    · rw [htraps] at hb
      cases hb
  remembers c _ hpos := by
    rw [State.current, h.runs, (h.execution c).1] at hpos
    omega
  scheduler c t ht := by
    rw [h.runs] at ht
    cases ht
  away t b hb := by
    rw [h.status] at hb
    cases hb
  running c t ht := by
    rw [h.runs] at ht
    cases ht
  unique c d t ht := by
    rw [h.runs] at ht
    cases ht
  own c d hd := by
    rw [h.runs] at hd
    exact (Context.scheduler.inj hd).symm

omit [DecidableEq κ] [DecidableEq τ] in
/-- Two CPUs execute different things. -/
theorem Inv.runs_ne (h : Inv s) (hne : d ≠ c) : (s.cpu d).runs ≠ (s.cpu c).runs := by
  intro heq
  cases hd : (s.cpu d).runs with
  | scheduler e =>
    rw [hd] at heq
    exact hne ((h.own d e hd).symm.trans (h.own c e heq.symm))
  | thread t =>
    rw [hd] at heq
    exact hne (h.unique d c t hd heq.symm)

theorem Inv.proceed (h : Inv s) {u : Cpu κ τ} {b : Bool} (hfits : Fits u x)
    (hruns : u.runs = (s.cpu c).runs) (hremembers : (∃ t, (s.cpu c).runs = .thread t) ∨ b = false → Remembers u x) :
    Inv (s.proceed c x u b) := by
  have hcpu : ∀ d, ((s.proceed c x u b).cpu d).runs = (s.cpu d).runs := by
    intro d
    by_cases hd : d = c
    · subst hd
      simp [State.proceed, hruns]
    · simp [State.proceed, Function.update_of_ne hd]
  have hother : ∀ y, y ≠ (s.cpu c).runs → (s.proceed c x u b).execution y = s.execution y :=
    fun y hy => Function.update_of_ne hy _ _
  have hself : (s.proceed c x u b).current c = x := by
    rw [State.current, hcpu]
    exact Function.update_self ..
  have hcurrent : ∀ d, d ≠ c → (s.proceed c x u b).current d = s.current d := by
    intro d hd
    rw [State.current, hcpu, hother _ (h.runs_ne hd)]
    rfl
  constructor
  · intro d
    by_cases hd : d = c
    · subst hd
      rw [hself]
      simpa [State.proceed] using hfits
    · rw [hcurrent d hd]
      simpa [State.proceed, Function.update_of_ne hd]
        using h.fits d
  · intro d hd'
    by_cases hd : d = c
    · subst hd
      rw [hself]
      have := hremembers (by simpa [State.proceed, hruns] using hd')
      simpa [State.proceed] using this
    · rw [hcurrent d hd]
      rw [hcpu] at hd'
      have := h.remembers d (by simpa [State.proceed, Function.update_of_ne hd] using hd')
      simpa [State.proceed, Function.update_of_ne hd]
        using this
  · intro d t ht
    rw [hcpu] at ht
    rw [hother]
    · exact h.scheduler d t ht
    · intro heq
      obtain rfl := h.own c d heq.symm
      rw [ht] at heq
      cases heq
  · intro t b' hb
    rw [hother]
    · exact h.away t b' hb
    · intro heq
      have hrunning := h.running c t heq.symm
      change s.status t = _ at hb
      rw [hrunning] at hb
      cases hb
  · intro d t ht
    rw [hcpu] at ht
    exact h.running d t ht
  · intro d e t hd he
    rw [hcpu] at hd he
    exact h.unique d e t hd he
  · intro d e hd
    rw [hcpu] at hd
    exact h.own d e hd

/-- The thread rests in `switchToScheduler`, and the scheduler goes on. -/
theorem Inv.switchToScheduler (h : Inv s) (ht : (s.cpu c).runs = .thread t)
    (hone : (s.current c).unmatched = 1) (hpushing : (s.current c).pushing = none) :
    Inv { (s.setStatus t (.away (s.cpu c).interruptsEnabled)).setCpu c
      { s.cpu c with runs := .scheduler c } with back := Function.update s.back c true } := by
  have hcurrent : s.current c = s.execution (.thread t) := by rw [State.current, ht]
  constructor
  · intro d
    by_cases hd : d = c
    · subst hd
      simp only [State.current, State.setStatus, State.setCpu, Function.update_self]
      have hfits := h.fits d
      exact (h.scheduler d t ht).fits (hfits.depth.trans hone) (hfits.off (by omega))
    · simpa [State.current, State.setStatus, State.setCpu, Function.update_of_ne hd] using h.fits d
  · intro d hd'
    by_cases hd : d = c
    · subst hd
      simp [State.setCpu] at hd'
    · simp only [State.setStatus, State.setCpu, Function.update_of_ne hd] at hd'
      simpa [State.current, State.setStatus, State.setCpu, Function.update_of_ne hd]
        using h.remembers d hd'
  · intro d t' ht'
    by_cases hd : d = c
    · subst hd
      simp [State.setCpu] at ht'
    · simp only [State.setStatus, State.setCpu, Function.update_of_ne hd] at ht'
      exact h.scheduler d t' ht'
  · intro t' b hb
    by_cases htt : t' = t
    · subst htt
      simp only [State.setStatus, State.setCpu, Function.update_self, Status.away.injEq] at hb
      have hrest := (h.fits c).resting hone hpushing
      have hbefore := h.remembers c (.inl ⟨t', ht⟩) (by omega)
      rw [hcurrent] at hrest hbefore
      exact ⟨hrest, hb.symm.trans hbefore⟩
    · simp only [State.setStatus, State.setCpu, Function.update_of_ne htt] at hb
      exact h.away t' b hb
  · intro d t' ht'
    by_cases hd : d = c
    · subst hd
      simp [State.setCpu] at ht'
    · simp only [State.setStatus, State.setCpu, Function.update_of_ne hd] at ht'
      have htt : t' ≠ t := fun heq => hd (h.unique d c t' ht' (heq ▸ ht))
      simpa [State.setStatus, State.setCpu, Function.update_of_ne htt] using h.running d t' ht'
  · intro d e t' hd he
    by_cases hdc : d = c
    · subst hdc
      simp [State.setCpu] at hd
    by_cases hec : e = c
    · subst hec
      simp [State.setCpu] at he
    simp only [State.setStatus, State.setCpu, Function.update_of_ne hdc,
      Function.update_of_ne hec] at hd he
    exact h.unique d e t' hd he
  · intro d e hd
    by_cases hdc : d = c
    · subst hdc
      simpa [State.setCpu] using hd.symm
    · simp only [State.setStatus, State.setCpu, Function.update_of_ne hdc] at hd
      exact h.own d e hd

/-- A thread that rests with `x` goes on on the CPU of a scheduler, which rests from then on. -/
theorem Inv.switchTo (h : Inv s) (hruns : (s.cpu c).runs = .scheduler c)
    (hone : (s.current c).unmatched = 1) (hpushing : (s.current c).pushing = none)
    (ht : s.status t ≠ .running) {b : Bool} (hx : Resting x) (hb : b = x.before) :
    Inv { (s.setStatus t .running).setCpu c
      { s.cpu c with runs := .thread t, interruptsEnabled := b } with
        execution := Function.update s.execution (.thread t) x } := by
  have hcurrent : s.current c = s.execution (.scheduler c) := by rw [State.current, hruns]
  have hscheduler : ∀ d, Function.update s.execution (.thread t) x (.scheduler d) =
      s.execution (.scheduler d) := fun d => Function.update_of_ne (by simp) _ _
  have hthread : ∀ t', t' ≠ t → Function.update s.execution (.thread t) x (.thread t') =
      s.execution (.thread t') := fun t' htt => Function.update_of_ne (by simpa using htt) _ _
  -- No CPU executes the thread yet.
  have hother : ∀ d, Function.update s.execution (.thread t) x (s.cpu d).runs = s.current d := by
    intro d
    cases hd : (s.cpu d).runs with
    | scheduler e => rw [hscheduler, State.current, hd]
    | thread t' =>
      have htt : t' ≠ t := fun heq => ht (heq ▸ h.running d t' hd)
      rw [hthread t' htt, State.current, hd]
  constructor
  · intro d
    by_cases hd : d = c
    · subst hd
      simp only [State.current, State.setStatus, State.setCpu, Function.update_self]
      exact hx.fits ((h.fits d).depth.trans hone) ((h.fits d).off (by omega))
    · simp only [State.current, State.setStatus, State.setCpu, Function.update_of_ne hd, hother]
      exact h.fits d
  · intro d hd' hpos
    by_cases hd : d = c
    · subst hd
      simp only [State.current, State.setStatus, State.setCpu, Function.update_self]
      exact hb
    · simp only [State.current, State.setStatus, State.setCpu, Function.update_of_ne hd, hother]
        at hd' hpos ⊢
      exact h.remembers d hd' hpos
  · intro d t' ht'
    simp only [hscheduler]
    by_cases hd : d = c
    · subst hd
      exact hcurrent ▸ (h.fits d).resting hone hpushing
    · simp only [State.setStatus, State.setCpu, Function.update_of_ne hd] at ht'
      exact h.scheduler d t' ht'
  · intro t' b' hb'
    have htt : t' ≠ t := by
      rintro rfl
      simp [State.setStatus, State.setCpu] at hb'
    simp only [State.setStatus, State.setCpu, Function.update_of_ne htt] at hb'
    simp only [hthread t' htt]
    exact h.away t' b' hb'
  · intro d t' ht'
    by_cases htt : t' = t
    · subst htt
      simp [State.setStatus, State.setCpu]
    · have hd : d ≠ c := by
        rintro rfl
        simp only [State.setCpu, Function.update_self, Context.thread.injEq] at ht'
        exact htt ht'.symm
      simp only [State.setStatus, State.setCpu, Function.update_of_ne hd] at ht'
      simpa [State.setStatus, State.setCpu, Function.update_of_ne htt] using h.running d t' ht'
  · intro d e t' hd he
    by_cases hdc : d = c <;> by_cases hec : e = c
    · rw [hdc, hec]
    · subst hdc
      simp only [State.setStatus, State.setCpu, Function.update_self, Function.update_of_ne hec,
        Context.thread.injEq] at hd he
      exact absurd (hd ▸ h.running e t' he) ht
    · subst hec
      simp only [State.setStatus, State.setCpu, Function.update_self, Function.update_of_ne hdc,
        Context.thread.injEq] at hd he
      exact absurd (he ▸ h.running d t' hd) ht
    · simp only [State.setStatus, State.setCpu, Function.update_of_ne hdc,
        Function.update_of_ne hec] at hd he
      exact h.unique d e t' hd he
  · intro d e hd
    by_cases hdc : d = c
    · subst hdc
      simp [State.setCpu] at hd
    · simp only [State.setStatus, State.setCpu, Function.update_of_ne hdc] at hd
      exact h.own d e hd

theorem Inv.step (h : Inv s) {e : Event κ τ} (he : s.step e = some s') : Inv s' := by
  cases e with
  | pushRead c =>
    rw [State.step] at he
    split at he
    · obtain rfl := Option.some.inj he
      exact h.proceed (h.fits c).pushRead rfl (h.remembers c)
    · cases he
  | pushOff c =>
    rw [State.step] at he
    split at he
    · cases he
    next previous _ =>
      obtain rfl := Option.some.inj he
      refine h.proceed ((h.fits c).pushOff previous) rfl fun hc => ?_
      by_cases hzero : (s.current c).unmatched = 0
      · exact (h.fits c).remembers_of_zero hzero previous
      · refine (h.fits c).remembers_pushOff (h.remembers c (hc.imp_right fun hback => ?_)) previous
        simpa [State.stillBack, hzero] using hback
  | popOff c =>
    rw [State.step] at he
    split at he
    next hc =>
      obtain ⟨u, hu, hfits, henabled, hruns, -⟩ := (h.fits c).popOff hc.1 hc.2
      rw [hu] at he
      obtain rfl := Option.some.inj he
      refine h.proceed hfits hruns fun hd hpos => ?_
      rw [henabled]
      exact h.remembers c hd hc.1
    · cases he
  | enable c =>
    rw [State.step] at he
    split at he
    next hc =>
      obtain rfl := Option.some.inj he
      exact h.proceed ((h.fits c).setEnabled hc.1 hc.2 true) rfl (h.remembers c)
    · cases he
  | disable c =>
    rw [State.step] at he
    split at he
    next hc =>
      obtain rfl := Option.some.inj he
      exact h.proceed ((h.fits c).setEnabled hc.1 hc.2 false) rfl (h.remembers c)
    · cases he
  | trap c =>
    rw [State.step] at he
    split at he
    next henabled =>
      obtain rfl := Option.some.inj he
      exact h.proceed ((h.fits c).trap henabled) rfl (h.remembers c)
    · cases he
  | trapReturn c =>
    rw [State.step] at he
    split at he
    · cases he
    next pushing traps htraps =>
      split at he
      next hc =>
        obtain rfl := Option.some.inj he
        exact h.proceed ((h.fits c).trapReturn hc.1 htraps) rfl (h.remembers c)
      · cases he
  | switchToScheduler c =>
    rw [State.step] at he
    split at he
    · cases he
    next t ht =>
      split at he
      next hc =>
        obtain rfl := Option.some.inj he
        exact h.switchToScheduler ht hc.1 hc.2
      · cases he
  | switchTo c t =>
    rw [State.step] at he
    split at he
    next hc =>
      obtain ⟨hruns, hone, hpushing, hback⟩ := hc
      split at he
      · cases he
      next b ht =>
        obtain rfl := Option.some.inj he
        obtain ⟨hrest, hbefore⟩ := h.away t b ht
        have := h.switchTo hruns hone hpushing (by rw [ht]; nofun) hrest hbefore
        rwa [Function.update_eq_self] at this
      next ht =>
        obtain rfl := Option.some.inj he
        have hbefore := h.remembers c (.inr hback) (by omega)
        exact h.switchTo hruns hone hpushing (by rw [ht]; nofun) ⟨rfl, rfl, nofun⟩ hbefore
    · cases he

theorem inv_of_run {s₀ : State κ τ} (h₀ : s₀.Initial) {es : List (Event κ τ)}
    (h : run State.step s₀ es = some s) : Inv s := by
  refine run_induction (P := fun _ s => Inv s) (.initial h₀) ?_ es s h
  intro _ _ _ _ _ hi he
  exact hi.step he

/-- The depth of a CPU counts what is unmatched of what it executes. While something is,
interrupts are off and `popOff` does not panic; the last `popOff` of a thread leaves them as they
were before its first `pushOff`. -/
theorem nesting_restored {s₀ : State κ τ} (h₀ : s₀.Initial) {es : List (Event κ τ)}
    (h : run State.step s₀ es = some s) (c : κ) :
    (s.cpu c).pushDepth = (s.current c).unmatched ∧
    (0 < (s.current c).unmatched → (s.cpu c).isEnabled = false) ∧
    (0 < (s.current c).unmatched → (s.current c).pushing = none →
      ∃ u, (s.cpu c).popOff = .ok u ∧
        ((s.current c).unmatched = 1 → (∃ t, (s.cpu c).runs = .thread t) →
          u.isEnabled = (s.current c).before)) := by
  have hi := inv_of_run h₀ h
  refine ⟨(hi.fits c).depth, (hi.fits c).off, fun hpos hpushing => ?_⟩
  obtain ⟨u, hu, -, -, -, hlast⟩ := (hi.fits c).popOff hpos hpushing
  refine ⟨u, hu, fun hone ht => ?_⟩
  rw [hlast hone]
  exact hi.remembers c (.inl ht) hpos

/-- Two CPUs with interrupts on. -/
def boot : State Bool ℕ where
  cpu c := ⟨true, 0, false, .scheduler c⟩
  execution _ := ⟨0, false, none, []⟩
  status _ := .new
  back _ := false

theorem boot_initial : boot.Initial where
  runs _ := rfl
  depth _ := rfl
  execution _ := ⟨rfl, rfl, rfl⟩
  status _ := rfl

/-- A thread starts on one CPU, takes its lock there and goes on on the other one. -/
def migration : List (Event Bool ℕ) :=
  [.pushRead false, .pushOff false, .switchTo false 0, .popOff false, .pushRead false,
    .pushOff false, .switchToScheduler false, .pushRead true, .pushOff true, .switchTo true 0]

theorem nesting_restored_migration :
    ∃ s, run State.step boot migration = some s ∧ (s.current true).unmatched = 1 ∧
      ∃ u, (s.cpu true).popOff = .ok u ∧ u.isEnabled = (s.current true).before := by
  have hrun : (run State.step boot migration).any (fun s => decide ((s.current true).unmatched = 1 ∧
      (s.current true).pushing = none ∧ (s.cpu true).runs = .thread 0)) = true := by decide
  obtain ⟨s, hs, hd⟩ := (Option.any_eq_true _ _).mp hrun
  obtain ⟨hone, hpushing, hruns⟩ := of_decide_eq_true hd
  obtain ⟨u, hu, hlast⟩ := (nesting_restored boot_initial hs true).2.2 (by omega) hpushing
  exact ⟨s, hs, hone, u, hu, hlast hone ⟨0, hruns⟩⟩

end Zigmaos.InterruptNesting
