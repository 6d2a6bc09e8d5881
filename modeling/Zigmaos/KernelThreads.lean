import Zigmaos.Assembly

/-!
# The registers of kernel threads

Kernel threads, those of the processes and those of the schedulers, give up a hart by
`switchContext` and are interrupted by way of `kernelvec`. A thread goes on, on the
same hart or on another one, with the registers that it had, but for `tp`.
-/
namespace Zigmaos.KernelThreads
open Transition RegisterMachine Assembly

/-- A call of `kernelvec` that has not returned: the stack pointer below the registers
that it has stored, and `sepc` as `kerneltrap` has read it. -/
structure Activation where
  stack : Word
  sepc : Word

/-- Where the kernel has the contexts of threads and its code. -/
structure Layout (τ : Type) where
  context : τ → Word
  kerneltrap : Word
  /-- The rest of `kernelvec`, after the call. -/
  restore : Word
  aligned : ∀ t, (context t).toNat % 8 = 0
  apart : ∀ t u, t ≠ u → ∀ c ∈ contextRegisters, ∀ c' ∈ contextRegisters,
    context t + .ofNat 64 c.2 ≠ context u + .ofNat 64 c'.2

/-- `τ` are the threads, `η` the harts. -/
structure State (τ η : Type) where
  registers : η → Register → Word
  control : η → Control → Word
  pc : η → Word
  memory : Word → Word
  running : η → τ
  activations : τ → List Activation

inductive Event (τ η : Type)
  /-- Kernel code. -/
  | compute (h : η) (registers : Register → Word) (control : Control → Word) (pc : Word)
    (memory : Word → Word)
  /-- A thread calls `switchContext` with its own context and that of another. -/
  | switch (h : η) (new : τ)
  /-- An interrupt, up to where `kerneltrap` has read `sepc`. -/
  | interrupt (h : η)
  /-- `kerneltrap` has written `sepc` and returned to `kernelvec`. -/
  | interruptReturn (h : η)
  /-- `process.init` sets up a context. -/
  | init (t : τ) (ra sp : Word)

/-- What a thread had in its registers where it was interrupted. -/
structure Context where
  registers : Register → Word
  pc : Word

/-- What a thread should find again. -/
structure Memo where
  suspended : Register → Word
  interrupted : List Context

variable {τ η : Type}

namespace State
variable (l : Layout τ) (s : State τ η)

/-- Kernel memory is where its addresses say. -/
def locate (_ : Control → Word) (address : Word) : Option Word := some address

def machine (h : η) : Machine Register Control Word :=
  ⟨s.registers h, s.control h, s.memory, s.pc h⟩

/-- No hart runs the thread. -/
def Suspended (t : τ) : Prop := ∀ h, s.running h ≠ t

/-- The contexts of suspended threads and the registers on stacks stay as they are. -/
def Keeps (memory : Word → Word) : Prop :=
  (∀ t, s.Suspended t → ∀ c ∈ contextRegisters,
    memory (l.context t + .ofNat 64 c.2) = s.memory (l.context t + .ofNat 64 c.2)) ∧
  ∀ t, ∀ a ∈ s.activations t, ∀ c ∈ stackedRegisters,
    memory (a.stack + .ofNat 64 c.2) = s.memory (a.stack + .ofNat 64 c.2)

/-- There is room for registers at an address, apart from contexts and from what other
activations have stored. -/
def Room (stack : Word) : Prop :=
  stack.toNat % 8 = 0 ∧
  (∀ t, ∀ c ∈ contextRegisters, ∀ c' ∈ stackedRegisters,
    l.context t + .ofNat 64 c.2 ≠ stack + .ofNat 64 c'.2) ∧
  ∀ t, ∀ a ∈ s.activations t, ∀ c ∈ stackedRegisters, ∀ c' ∈ stackedRegisters,
    a.stack + .ofNat 64 c.2 ≠ stack + .ofNat 64 c'.2

variable [DecidableEq η]

def withMachine (h : η) (m : Machine Register Control Word) : State τ η :=
  { s with
    registers := Function.update s.registers h m.registers
    control := Function.update s.control h m.control
    pc := Function.update s.pc h m.pc
    memory := m.memory }

/-- The hart at the first instruction of `switchContext`. -/
def calling (h : η) (new : τ) : Machine Register Control Word :=
  { s.machine h with
    registers := Function.update (Function.update (s.registers h) .a0 (l.context (s.running h))) .a1
      (l.context new) }

variable [DecidableEq τ]

def setActivations (t : τ) (activations : List Activation) : State τ η :=
  { s with activations := Function.update s.activations t activations }

variable [Fintype η] [Fintype τ]

instance (t : τ) : Decidable (s.Suspended t) := by
  unfold Suspended; infer_instance

instance (memory : Word → Word) : Decidable (s.Keeps l memory) := by
  unfold Keeps; infer_instance

instance (stack : Word) : Decidable (s.Room l stack) := by
  unfold Room; infer_instance

end State

section Steps
variable [DecidableEq τ] [DecidableEq η] [Fintype τ] [Fintype η] (l : Layout τ)

/-- The context of a process that has just been allocated. -/
def initialContext (ra sp : Word) (r : Register) : Word :=
  if r = .ra then ra else if r = .sp then sp else 0

/-- Memory after `process.init` has written a context. -/
def initialMemory (l : Layout τ) (s : State τ η) (t : τ) (ra sp address : Word) : Word :=
  match contextRegisters.find? (fun c => address = l.context t + .ofNat 64 c.2) with
  | some c => initialContext ra sp c.1
  | none => s.memory address

def step (s : State τ η) : Event τ η → Option (State τ η)
  | .compute h registers control pc memory =>
    if s.Keeps l memory ∧ registers .tp = s.registers h .tp then
      some (s.withMachine h ⟨registers, control, memory, pc⟩)
    else none
  | .switch h new =>
    if s.Suspended new then
      (exec State.locate (s.calling l h new) switchContext).map fun m =>
        { s.withMachine h m with running := Function.update s.running h new }
    else none
  | .interrupt h =>
    if s.Room l (s.registers h .sp - 256) then
      (exec State.locate (s.machine h) (kernelvec l.kerneltrap l.restore)).map fun m =>
        (s.withMachine h m).setActivations (s.running h)
          (⟨s.registers h .sp - 256, s.pc h⟩ :: s.activations (s.running h))
    else none
  | .interruptReturn h =>
    match s.activations (s.running h) with
    | [] => none
    | a :: rest =>
      if s.registers h .sp = a.stack then
        (exec State.locate
          { s.machine h with control := Function.update (s.control h) .sepc a.sepc }
          kernelvecReturn).map fun m => (s.withMachine h m).setActivations (s.running h) rest
      else none
  | .init t ra sp =>
    if s.Suspended t then
      some { s with memory := initialMemory l s t ra sp }
    else none

/-- What the threads should find again after an event. -/
def after (s : State τ η) (memos : τ → Memo) : Event τ η → τ → Memo
  | .compute .. => memos
  | .switch h _ => Function.update memos (s.running h)
      { memos (s.running h) with suspended := s.registers h }
  | .interrupt h => Function.update memos (s.running h)
      { memos (s.running h) with
        interrupted := ⟨s.registers h, s.pc h⟩ :: (memos (s.running h)).interrupted }
  | .interruptReturn h => Function.update memos (s.running h)
      { memos (s.running h) with interrupted := (memos (s.running h)).interrupted.tail }
  | .init t ra sp => Function.update memos t { memos t with
suspended := initialContext ra sp }

/-- A step, with what the threads should find again. -/
def seenStep (r : State τ η × (τ → Memo)) (e : Event τ η) : Option (State τ η × (τ → Memo)) :=
  (step l r.1 e).map fun s' => (s', after r.1 r.2 e)

end Steps

/-! ## The invariant -/

/-- The registers that an activation has stored. -/
structure Stacked (memory : Word → Word) (a : Activation) (c : Context) : Prop where
  sepc : a.sepc = c.pc
  saved : ∀ r ∈ stackedRegisters, r.1 ≠ .sp → memory (a.stack + .ofNat 64 r.2) = c.registers r.1
  stack : memory (a.stack + .ofNat 64 8) = a.stack
  sp : a.stack + 256 = c.registers .sp
  aligned : a.stack.toNat % 8 = 0

/-- Suspended threads have their registers in their contexts, interrupted ones on the stack. -/
structure Inv (l : Layout τ) (hartid : η → Word) (s : State τ η) (memos : τ → Memo) : Prop where
  once : ∀ h h', s.running h = s.running h' → h = h'
  tp : ∀ h, s.registers h .tp = hartid h
  suspended : ∀ t, s.Suspended t → ∀ c ∈ contextRegisters,
    s.memory (l.context t + .ofNat 64 c.2) = (memos t).suspended c.1
  stacked : ∀ t, List.Forall₂ (Stacked s.memory) (s.activations t) (memos t).interrupted
  apart : ∀ t, ∀ a ∈ s.activations t, ∀ u, ∀ c ∈ contextRegisters, ∀ c' ∈ stackedRegisters,
    l.context u + .ofNat 64 c.2 ≠ a.stack + .ofNat 64 c'.2

variable {l : Layout τ} {hartid : η → Word} {s s' : State τ η} {memos : τ → Memo} {h : η}

theorem contextRegisters_aligned : ∀ c ∈ contextRegisters, c.2 % 8 = 0 ∧ c.2 < 256 := by
  decide

theorem stackedRegisters_aligned : ∀ c ∈ stackedRegisters, c.2 % 8 = 0 ∧ c.2 < 256 := by
  decide

theorem mapsContext (l : Layout τ) (t : τ) (control : Control → Word) :
    MapsContext (State.locate control) (l.context t) fun o => l.context t + .ofNat 64 o :=
  mapped_of_aligned Function.injective_id (l.aligned t) fun o ho => by
    obtain ⟨c, hc, rfl⟩ := List.mem_map.mp ho
    exact contextRegisters_aligned c hc

theorem mapsStack {stack : Word} (ha : stack.toNat % 8 = 0) (control : Control → Word) :
    MapsStack (State.locate control) stack fun o => stack + .ofNat 64 o :=
  mapped_of_aligned Function.injective_id ha fun o ho => by
    obtain ⟨c, hc, rfl⟩ := List.mem_map.mp ho
    exact stackedRegisters_aligned c hc

/-- Memory that keeps the words of an activation. -/
theorem Stacked.congr {memory memory' : Word → Word} {a : Activation} {c : Context}
    (hs : Stacked memory a c)
    (hm : ∀ r ∈ stackedRegisters, memory' (a.stack + .ofNat 64 r.2) =
      memory (a.stack + .ofNat 64 r.2)) : Stacked memory' a c :=
  ⟨hs.sepc, fun r hr hne => (hm r hr).trans (hs.saved r hr hne),
    (hm (.sp, 8) (by decide)).trans hs.stack, hs.sp, hs.aligned⟩

theorem Inv.stacked_congr (hi : Inv l hartid s memos) {memory : Word → Word}
    (hm : ∀ t, ∀ a ∈ s.activations t, ∀ r ∈ stackedRegisters,
      memory (a.stack + .ofNat 64 r.2) = s.memory (a.stack + .ofNat 64 r.2)) (t : τ) :
    List.Forall₂ (Stacked memory) (s.activations t) (memos t).interrupted := by
  have hall : ∀ (as : List Activation) (cs : List Context), (∀ a ∈ as, a ∈ s.activations t) →
      List.Forall₂ (Stacked s.memory) as cs → List.Forall₂ (Stacked memory) as cs := by
    intro as cs hsub hs
    induction hs with
    | nil => exact .nil
    | cons hac _ ih =>
      exact .cons (hac.congr (hm t _ (hsub _ (.head _)))) (ih fun a ha => hsub a (.tail _ ha))
  exact hall _ _ (fun _ ha => ha) (hi.stacked t)

theorem contextRegisters_inj : ∀ c ∈ contextRegisters, ∀ c' ∈ contextRegisters, c.2 = c'.2 → c = c' := by
  decide

theorem initialMemory_self (t : τ) (ra sp : Word) {c : Register × ℕ} (hc : c ∈ contextRegisters) :
    initialMemory l s t ra sp (l.context t + .ofNat 64 c.2) = initialContext ra sp c.1 := by
  unfold initialMemory
  split
  next c' hfound =>
    have hoffset : l.context t + .ofNat 64 c.2 = l.context t + .ofNat 64 c'.2 := by
      simpa using List.find?_some hfound
    have hmem := List.mem_of_find?_eq_some hfound
    have hinj := (mapsContext l t (fun _ => 0)).injective c.2 (List.mem_map_of_mem hc) c'.2
      (List.mem_map_of_mem hmem) hoffset
    rw [contextRegisters_inj c hc c' hmem hinj]
  next hnone =>
    have hne := List.find?_eq_none.mp hnone c hc
    simp at hne

theorem initialMemory_of_ne (t : τ) (ra sp : Word) {address : Word}
    (ha : ∀ c ∈ contextRegisters, address ≠ l.context t + .ofNat 64 c.2) :
    initialMemory l s t ra sp address = s.memory address := by
  have hnone : contextRegisters.find? (fun c => address = l.context t + .ofNat 64 c.2) = none :=
    List.find?_eq_none.mpr fun c hc => by simpa using ha c hc
  simp only [initialMemory, hnone]

variable [DecidableEq η]

theorem Inv.compute (hi : Inv l hartid s memos) {registers : Register → Word}
    {memory : Word → Word} (hkeeps : s.Keeps l memory) (htp : registers .tp = s.registers h .tp)
    (control : Control → Word) (pc : Word) :
    Inv l hartid (s.withMachine h ⟨registers, control, memory, pc⟩) memos := by
  refine ⟨hi.once, fun h' => ?_, fun t ht c hc => (hkeeps.1 t ht c hc).trans (hi.suspended t ht c hc),
    hi.stacked_congr hkeeps.2, hi.apart⟩
  by_cases hh : h' = h
  · subst hh
    simpa [State.withMachine, htp] using hi.tp h'
  · simpa [State.withMachine, Function.update_of_ne hh] using hi.tp h'

omit [DecidableEq η] in
/-- What `switchContext` does to the threads of a hart. -/
theorem Inv.exec_switch (hi : Inv l hartid s memos) {new : τ} (hnew : s.Suspended new) (h : η) :
    ∃ m, exec State.locate (s.calling l h new) switchContext = some m ∧
      (∀ c ∈ contextRegisters,
        m.memory (l.context (s.running h) + .ofNat 64 c.2) = s.registers h c.1) ∧
      (∀ a, (∀ c ∈ contextRegisters, a ≠ l.context (s.running h) + .ofNat 64 c.2) →
        m.memory a = s.memory a) ∧
      (∀ c ∈ contextRegisters, m.registers c.1 = (memos new).suspended c.1) ∧
      m.registers .tp = s.registers h .tp ∧ m.pc = (memos new).suspended .ra := by
  have hne : new ≠ s.running h := fun heq => hnew h heq.symm
  obtain ⟨m, hexec, hsaved, hother, hloaded, hkept, -, hpc⟩ := exec_switchContext
    (m := s.calling l h new) (mapsContext l (s.running h) _) (mapsContext l new _)
    (fun c hc c' hc' => l.apart new (s.running h) hne c hc c' hc')
  have hregisters : ∀ c ∈ contextRegisters, (s.calling l h new).registers c.1 = s.registers h c.1 := by
    intro c hc
    have harguments : c.1 ≠ .a0 ∧ c.1 ≠ .a1 := by
      revert c
      decide
    simp [State.calling, harguments]
  refine ⟨m, hexec, fun c hc => (hsaved c hc).trans (hregisters c hc), hother,
    fun c hc => (hloaded c hc).trans (hi.suspended new hnew c hc), ?_, ?_⟩
  · rw [hkept .tp (by decide)]
    simp [State.calling]
  · exact hpc.trans (hi.suspended new hnew (.ra, 0) (by decide))

variable [DecidableEq τ]

theorem Inv.switch (hi : Inv l hartid s memos) {new : τ} (hnew : s.Suspended new)
    {m : Machine Register Control Word}
    (hsaved : ∀ c ∈ contextRegisters,
      m.memory (l.context (s.running h) + .ofNat 64 c.2) = s.registers h c.1)
    (hother : ∀ a, (∀ c ∈ contextRegisters, a ≠ l.context (s.running h) + .ofNat 64 c.2) →
      m.memory a = s.memory a)
    (htp : m.registers .tp = s.registers h .tp) :
    Inv l hartid { s.withMachine h m with running := Function.update s.running h new }
      (Function.update memos (s.running h)
        { memos (s.running h) with suspended := s.registers h }) := by
  have hrunning : ∀ h', h' ≠ h → Function.update s.running h new h' = s.running h' := fun h' hne =>
    Function.update_of_ne hne _ _
  have hframes : ∀ t, ∀ a ∈ s.activations t, ∀ r ∈ stackedRegisters,
      m.memory (a.stack + .ofNat 64 r.2) = s.memory (a.stack + .ofNat 64 r.2) :=
    fun t a ha r hr => hother _ fun c hc heq => hi.apart t a ha _ c hc r hr heq.symm
  refine ⟨fun h₁ h₂ heq => ?_, fun h' => ?_, fun u hu c hc => ?_, fun t => ?_, hi.apart⟩
  · by_cases hh₁ : h₁ = h <;> by_cases hh₂ : h₂ = h
    · rw [hh₁, hh₂]
    · simp only [hh₁, Function.update_self, hrunning h₂ hh₂] at heq
      exact absurd heq.symm (hnew h₂)
    · simp only [hh₂, Function.update_self, hrunning h₁ hh₁] at heq
      exact absurd heq (hnew h₁)
    · simp only [hrunning h₁ hh₁, hrunning h₂ hh₂] at heq
      exact hi.once h₁ h₂ heq
  · by_cases hh : h' = h
    · subst hh
      simpa [State.withMachine, htp] using hi.tp h'
    · simpa [State.withMachine, Function.update_of_ne hh] using hi.tp h'
  · by_cases hut : u = s.running h
    · subst hut
      rw [Function.update_self]
      exact hsaved c hc
    · have hsus : s.Suspended u := by
        intro h' heq
        by_cases hh : h' = h
        · exact hut (hh ▸ heq.symm)
        · exact hu h' ((hrunning h' hh).trans heq)
      rw [Function.update_of_ne hut, ← hi.suspended u hsus c hc]
      exact hother _ fun c' hc' => l.apart u (s.running h) hut c hc c' hc'
  · have hstacked := hi.stacked_congr hframes t
    by_cases ht : t = s.running h
    · subst ht
      rwa [Function.update_self]
    · rwa [Function.update_of_ne ht]

/-- What `kernelvec` does to the thread of a hart. -/
theorem Inv.interrupt (hi : Inv l hartid s memos) (hroom : s.Room l (s.registers h .sp - 256)) :
    ∃ m, exec State.locate (s.machine h) (kernelvec l.kerneltrap l.restore) = some m ∧
      Inv l hartid ((s.withMachine h m).setActivations (s.running h)
          (⟨s.registers h .sp - 256, s.pc h⟩ :: s.activations (s.running h)))
        (Function.update memos (s.running h) { memos (s.running h) with
          interrupted := ⟨s.registers h, s.pc h⟩ :: (memos (s.running h)).interrupted }) := by
  obtain ⟨haligned, hcontexts, hframes⟩ := hroom
  obtain ⟨m, hexec, hsaved, hstack, hother, -, htp, -, -⟩ := exec_kernelvec (m := s.machine h)
    l.kerneltrap l.restore (mapsStack haligned _)
  have hold : ∀ t, ∀ a ∈ s.activations t, ∀ r ∈ stackedRegisters,
      m.memory (a.stack + .ofNat 64 r.2) = s.memory (a.stack + .ofNat 64 r.2) :=
    fun t a ha r hr => hother _ fun r' hr' heq => hframes t a ha r hr r' hr' heq
  have hnew : Stacked m.memory ⟨s.registers h .sp - 256, s.pc h⟩ ⟨s.registers h, s.pc h⟩ :=
    ⟨rfl, hsaved, hstack, by simp, haligned⟩
  refine ⟨m, hexec, hi.once, fun h' => ?_, fun t ht c hc => ?_, fun t => ?_, fun t a ha => ?_⟩
  · by_cases hh : h' = h
    · subst hh
      simpa [State.withMachine, State.setActivations, State.machine, htp] using hi.tp h'
    · simpa [State.withMachine, State.setActivations, Function.update_of_ne hh] using hi.tp h'
  · have hne : t ≠ s.running h := fun heq => ht h heq.symm
    rw [Function.update_of_ne hne, ← hi.suspended t ht c hc]
    exact hother _ fun r hr => hcontexts t c hc r hr
  · have hstacked := hi.stacked_congr hold t
    by_cases ht : t = s.running h
    · subst ht
      simp only [State.setActivations, Function.update_self]
      exact .cons hnew hstacked
    · simpa [State.withMachine, State.setActivations, Function.update_of_ne ht] using hstacked
  · by_cases ht : t = s.running h
    · subst ht
      simp only [State.setActivations, Function.update_self, List.mem_cons] at ha
      obtain rfl | ha := ha
      · exact hcontexts
      · exact hi.apart _ a ha
    · simp only [State.setActivations, Function.update_of_ne ht] at ha
      exact hi.apart t a ha

/-- What `kernelvec` does after `kerneltrap` has returned. -/
theorem Inv.interruptReturn (hi : Inv l hartid s memos) {a : Activation} {rest : List Activation}
    (ha : s.activations (s.running h) = a :: rest) (hsp : s.registers h .sp = a.stack) :
    ∃ c cs m, (memos (s.running h)).interrupted = c :: cs ∧
      exec State.locate { s.machine h with
        control := Function.update (s.control h) .sepc a.sepc } kernelvecReturn = some m ∧
      (∀ r, r ≠ .tp → m.registers r = c.registers r) ∧ m.registers .tp = s.registers h .tp ∧
      m.pc = c.pc ∧
      Inv l hartid ((s.withMachine h m).setActivations (s.running h) rest)
        (Function.update memos (s.running h) { memos (s.running h) with interrupted := cs }) := by
  have hstacked := hi.stacked (s.running h)
  rw [ha] at hstacked
  obtain ⟨c, cs, hac, hrest, hmemo⟩ := List.forall₂_cons_left_iff.mp hstacked
  have hmaps : MapsStack (State.locate (Function.update (s.control h) .sepc a.sepc))
      (s.registers h .sp) fun o => a.stack + .ofNat 64 o := by
    rw [hsp]
    exact mapsStack hac.aligned _
  obtain ⟨m, hexec, hloaded, hsp', htp, hmemory, -, hpc⟩ := exec_kernelvecReturn
    (m := { s.machine h with control := Function.update (s.control h) .sepc a.sepc }) hmaps
    hac.saved (hac.stack.trans hsp.symm)
  refine ⟨c, cs, m, hmemo, hexec, fun r hr => ?_, htp, ?_, hi.once, fun h' => ?_,
    fun t ht c hc => ?_, fun t => ?_, fun t b hb => ?_⟩
  · by_cases hrsp : r = .sp
    · subst hrsp
      rw [hsp', ← hac.sp, ← hsp]
      rfl
    · exact hloaded r hrsp hr
  · rw [hpc]
    simpa using hac.sepc
  · by_cases hh : h' = h
    · subst hh
      simpa [State.withMachine, State.setActivations, State.machine, htp] using hi.tp h'
    · simpa [State.withMachine, State.setActivations, Function.update_of_ne hh] using hi.tp h'
  · have hne : t ≠ s.running h := fun heq => ht h heq.symm
    rw [Function.update_of_ne hne, ← hi.suspended t ht c hc]
    exact congrFun hmemory _
  · have hsame : m.memory = s.memory := hmemory
    by_cases ht : t = s.running h
    · subst ht
      simpa [State.withMachine, State.setActivations, hsame] using hrest
    · simpa [State.withMachine, State.setActivations, hsame, Function.update_of_ne ht]
        using hi.stacked t
  · by_cases ht : t = s.running h
    · subst ht
      simp only [State.setActivations, Function.update_self] at hb
      exact hi.apart _ b (by rw [ha]; exact .tail _ hb)
    · simp only [State.setActivations, Function.update_of_ne ht] at hb
      exact hi.apart t b hb

omit [DecidableEq η] in
theorem Inv.init (hi : Inv l hartid s memos) (t : τ) (ra sp : Word) :
    Inv l hartid { s with memory := initialMemory l s t ra sp }
      (Function.update memos t { memos t with suspended := initialContext ra sp }) := by
  refine ⟨hi.once, hi.tp, fun u hu c hc => ?_, fun u => ?_, hi.apart⟩
  · by_cases hut : u = t
    · subst hut
      rw [Function.update_self]
      exact initialMemory_self u ra sp hc
    · rw [Function.update_of_ne hut, ← hi.suspended u hu c hc]
      exact initialMemory_of_ne t ra sp fun c' hc' => l.apart u t hut c hc c' hc'
  · have hkept : ∀ v, ∀ a ∈ s.activations v, ∀ r ∈ stackedRegisters,
        initialMemory l s t ra sp (a.stack + .ofNat 64 r.2) =
          s.memory (a.stack + .ofNat 64 r.2) :=
      fun v a ha r hr => initialMemory_of_ne t ra sp fun c hc heq =>
        hi.apart v a ha t c hc r hr heq.symm
    have hstacked := hi.stacked_congr hkept u
    by_cases hut : u = t
    · subst hut
      rwa [Function.update_self]
    · rwa [Function.update_of_ne hut]

/-! ## Runs -/

variable [Fintype τ] [Fintype η]

theorem Inv.step (hi : Inv l hartid s memos) {e : Event τ η} (hs : step l s e = some s') :
    Inv l hartid s' (after s memos e) := by
  cases e with
  | compute h registers control pc memory =>
    simp only [KernelThreads.step] at hs
    split at hs
    next hg =>
      obtain rfl := Option.some.inj hs
      exact hi.compute hg.1 hg.2 control pc
    · cases hs
  | switch h new =>
    simp only [KernelThreads.step] at hs
    split at hs
    next hnew =>
      obtain ⟨m, hexec, hsaved, hother, -, htp, -⟩ := hi.exec_switch hnew h
      rw [hexec] at hs
      obtain rfl := Option.some.inj hs
      exact hi.switch hnew hsaved hother htp
    · cases hs
  | interrupt h =>
    simp only [KernelThreads.step] at hs
    split at hs
    next hroom =>
      obtain ⟨m, hexec, hkeep⟩ := hi.interrupt hroom
      rw [hexec] at hs
      obtain rfl := Option.some.inj hs
      exact hkeep
    · cases hs
  | interruptReturn h =>
    simp only [KernelThreads.step] at hs
    split at hs
    · cases hs
    next a rest ha =>
      split at hs
      next hsp =>
        obtain ⟨c, cs, m, hmemo, hexec, -, -, -, hkeep⟩ := hi.interruptReturn ha hsp
        rw [hexec] at hs
        obtain rfl := Option.some.inj hs
        simpa only [after, hmemo, List.tail_cons] using hkeep
      · cases hs
  | init t ra sp =>
    simp only [KernelThreads.step] at hs
    split at hs
    · obtain rfl := Option.some.inj hs
      exact hi.init t ra sp
    · cases hs

/-- Each hart runs its own thread, none of them interrupted. -/
structure Started (l : Layout τ) (hartid : η → Word) (s : State τ η) (memos : τ → Memo) : Prop where
  once : ∀ h h', s.running h = s.running h' → h = h'
  tp : ∀ h, s.registers h .tp = hartid h
  contexts : ∀ t, ∀ c ∈ contextRegisters,
    s.memory (l.context t + .ofNat 64 c.2) = (memos t).suspended c.1
  activations : ∀ t, s.activations t = [] ∧ (memos t).interrupted = []

omit [DecidableEq τ] [DecidableEq η] [Fintype τ] [Fintype η] in
theorem Started.inv (hs : Started l hartid s memos) : Inv l hartid s memos := by
  refine ⟨hs.once, hs.tp, fun t _ => hs.contexts t, fun t => ?_, fun t a ha => ?_⟩
  · rw [(hs.activations t).1, (hs.activations t).2]
    exact .nil
  · rw [(hs.activations t).1] at ha
    cases ha

variable {s₀ : State τ η} {memos₀ : τ → Memo} {es : List (Event τ η)}

theorem inv_run (hs : Started l hartid s₀ memos₀)
    (hrun : run (seenStep l) (s₀, memos₀) es = some (s, memos)) : Inv l hartid s memos := by
  refine run_induction (P := fun _ (r : State τ η × (τ → Memo)) => Inv l hartid r.1 r.2)
    hs.inv (fun _ r e r' _ hi hstep => ?_) es (s, memos) hrun
  obtain ⟨s', hs', rfl⟩ := Option.map_eq_some_iff.mp hstep
  exact hi.step hs'

/-- In every run, a hart can switch to any thread that no hart runs. That thread goes on
behind its own call of `switchContext`, with the registers that calls keep, and an
interrupted thread goes on where it was with all of its registers. Only `tp` is that of
the hart. -/
theorem threads_resumed (hs : Started l hartid s₀ memos₀)
    (hrun : run (seenStep l) (s₀, memos₀) es = some (s, memos)) :
    (∀ h t, s.Suspended t → ∃ s', step l s (.switch h t) = some s' ∧ s'.running h = t ∧
      (∀ c ∈ contextRegisters, s'.registers h c.1 = (memos t).suspended c.1) ∧
      s'.pc h = (memos t).suspended .ra ∧ s'.registers h .tp = hartid h) ∧
    ∀ h s', step l s (.interruptReturn h) = some s' →
      ∃ c cs, (memos (s.running h)).interrupted = c :: cs ∧
        (∀ r, r ≠ .tp → s'.registers h r = c.registers r) ∧ s'.pc h = c.pc ∧
        s'.registers h .tp = hartid h := by
  have hi := inv_run hs hrun
  refine ⟨fun h t ht => ?_, fun h s' hs' => ?_⟩
  · obtain ⟨m, hexec, -, -, hloaded, htp, hpc⟩ := hi.exec_switch ht h
    refine ⟨{ s.withMachine h m with running := Function.update s.running h t }, ?_,
      Function.update_self _ _ _, ?_⟩
    · simp only [step, if_pos ht, hexec, Option.map_some]
    · simp only [State.withMachine, Function.update_self]
      exact ⟨hloaded, hpc, htp.trans (hi.tp h)⟩
  · simp only [step] at hs'
    split at hs'
    · cases hs'
    next a rest ha =>
      split at hs'
      next hsp =>
        obtain ⟨c, cs, m, hmemo, hexec, hloaded, htp, hpc, -⟩ := hi.interruptReturn ha hsp
        rw [hexec] at hs'
        obtain rfl := Option.some.inj hs'
        simp only [State.withMachine, State.setActivations, Function.update_self]
        exact ⟨c, cs, hmemo, hloaded, hpc, htp.trans (hi.tp h)⟩
      · cases hs'

/-! ## A thread that moves -/

def layout : Layout (Fin 3) where
  context t := 4096 * .ofNat 64 (t.val + 1)
  kerneltrap := 1
  restore := 2
  aligned := by decide
  apart := by decide +kernel

/-- A process, and the schedulers of two harts. -/
def started : State (Fin 3) (Fin 2) where
  registers h r := if r = .tp then .ofNat 64 h.val else 0
  control _ _ := 0
  pc _ := 0
  memory _ := 0
  running h := ⟨h.val + 1, by omega⟩
  activations _ := []

/-- Kernel code that only uses the stack. -/
def usesStack (h : Fin 2) (sp : Word) : Event (Fin 3) (Fin 2) :=
  .compute h (fun r => if r = .sp then sp else if r = .tp then .ofNat 64 h.val else 5)
    (fun _ => 0) 40 (fun a => initialMemory layout started 0 100 0x20000 a)

/-- An interrupt on hart 0 takes the hart from a process, which is given hart 1. -/
def preempted : List (Event (Fin 3) (Fin 2)) :=
  [.init 0 100 0x20000, .switch 0 0, usesStack 0 0x1ff00, .interrupt 0, .switch 0 1, .switch 1 0]

theorem threads_resumed_preempted : ∃ s memos,
    run (seenStep layout) (started, fun _ => ⟨fun _ => 0, []⟩) preempted = some (s, memos) ∧
      ∃ s', step layout s (.interruptReturn 1) = some s' ∧ s'.pc 1 = 40 ∧
        s'.registers 1 .tp = 1 := by
  have hrun : (run (seenStep layout) (started, fun _ => ⟨fun _ => 0, []⟩) preempted).any
      (fun r => (step layout r.1 (.interruptReturn 1)).isSome ∧
        ((r.2 (r.1.running 1)).interrupted.map Context.pc = [40])) = true := by
    decide +kernel
  obtain ⟨⟨s, memos⟩, hs, hreturn⟩ := (Option.any_eq_true _ _).mp hrun
  obtain ⟨hreturn, hpc⟩ := of_decide_eq_true hreturn
  obtain ⟨s', hs'⟩ := Option.isSome_iff_exists.mp hreturn
  have hstarted : Started layout (fun h => .ofNat 64 h.val) started fun _ => ⟨fun _ => 0, []⟩ := by
    refine ⟨by decide, by decide, fun _ _ _ => rfl, fun _ => ⟨rfl, rfl⟩⟩
  obtain ⟨c, cs, hmemo, -, hpc', htp⟩ := (threads_resumed hstarted hs).2 1 s' hs'
  refine ⟨s, memos, hs, s', hs', ?_, htp⟩
  rw [hpc']
  simp only [hmemo, List.map_cons, List.cons.injEq] at hpc
  exact hpc.1

end Zigmaos.KernelThreads
