import Zigmaos.Program
import Zigmaos.Transition

/-!
# Typestates of programs and pools of processes

A typestate is what one process knows and owns while it runs a program: which
operations it may call, and what it knows after each. A program is safe from a
typestate when every operation it calls is allowed where it calls it, whatever
the operations answer; this is checked for one program at a time. In a pool many
processes run programs on one state, operation by operation and in any order. An
invariant of the state and the typestates of all processes that every allowed
operation of one process keeps is then an invariant of all runs of the pool.
-/
namespace Zigmaos

/-- Knowledge `Λ` of a process: facts it may use at any time, what an operation
needs and what it ensures. -/
structure Typestate (F : Interface) (Λ : Type) where
  fact : Λ → Prop
  pre : F.Op → Λ → Prop
  post : (o : F.Op) → Λ → F.Result o → Λ → Prop

namespace Typestate
variable {F : Interface} {Λ : Type} {α β : Type} {T : Typestate F Λ}

/-- From `L` the program only calls operations that are allowed, and ends with `Q`. -/
def Safe (T : Typestate F Λ) : Program F α → Λ → (α → Λ → Prop) → Prop
  | .done a, L, Q => T.fact L → Q a L
  | .call o k, L, Q => T.fact L → T.pre o L ∧ ∀ r L', T.post o L r L' → T.Safe (k r) L' Q

theorem safe_pure {a : α} {L : Λ} {Q : α → Λ → Prop} (h : T.fact L → Q a L) :
    T.Safe (pure a) L Q := h

theorem safe_call {o : F.Op} {k : F.Result o → Program F α} {L : Λ} {Q : α → Λ → Prop}
    (hpre : T.fact L → T.pre o L)
    (hpost : T.fact L → ∀ r L', T.post o L r L' → T.Safe (k r) L' Q) :
    T.Safe (.call o k) L Q := fun hL => ⟨hpre hL, hpost hL⟩

/-- The facts of the starting typestate may be used. -/
theorem safe_of_fact {p : Program F α} {L : Λ} {Q : α → Λ → Prop}
    (h : T.fact L → T.Safe p L Q) : T.Safe p L Q := by
  cases p with
  | done a => exact fun hL => h hL hL
  | call o k => exact fun hL => h hL hL

theorem Safe.mono {p : Program F α} {L : Λ} {Q Q' : α → Λ → Prop} (hp : T.Safe p L Q)
    (hq : ∀ a L', T.fact L' → Q a L' → Q' a L') : T.Safe p L Q' := by
  induction p generalizing L with
  | done a => exact fun hL => hq a L hL (hp hL)
  | call o k ih =>
    intro hL
    obtain ⟨hpre, hpost⟩ := hp hL
    exact ⟨hpre, fun r L' hr => ih r (hpost r L' hr)⟩

/-- Sequencing: the second program starts where the first one may end. -/
theorem Safe.bind {p : Program F α} {f : α → Program F β} {L : Λ} {Q : α → Λ → Prop}
    {Q' : β → Λ → Prop} (hp : T.Safe p L Q) (hf : ∀ a L', Q a L' → T.Safe (f a) L' Q') :
    T.Safe (p >>= f) L Q' := by
  induction p generalizing L with
  | done a => exact safe_of_fact fun hL => hf a L (hp hL)
  | call o k ih =>
    intro hL
    obtain ⟨hpre, hpost⟩ := hp hL
    exact ⟨hpre, fun r L' hr => ih r (hpost r L' hr)⟩

/-- One operation, and the rest of the program after it. -/
theorem safe_op_bind {o : F.Op} {f : F.Result o → Program F α} {L : Λ} {Q : α → Λ → Prop}
    (hpre : T.fact L → T.pre o L)
    (hpost : T.fact L → ∀ r L', T.post o L r L' → T.Safe (f r) L' Q) :
    T.Safe (Program.op o >>= f) L Q := safe_call hpre hpost

theorem safe_op {o : F.Op} {L : Λ} {Q : F.Result o → Λ → Prop} (hpre : T.fact L → T.pre o L)
    (hpost : T.fact L → ∀ r L', T.post o L r L' → T.fact L' → Q r L') :
    T.Safe (Program.op o) L Q :=
  safe_call hpre fun hL r L' hr => hpost hL r L' hr

theorem safe_when {c : Prop} [Decidable c] {p : Program F Unit} {L : Λ} {Q : Unit → Λ → Prop}
    (hp : c → T.Safe p L Q) (hq : ¬c → T.fact L → Q () L) : T.Safe (Program.when c p) L Q := by
  unfold Program.when
  split
  next hc => exact hp hc
  next hc => exact hq hc

end Typestate

/-- A state shared by processes, each of which may be running a program. -/
structure Pool (F : Interface) (σ π : Type) where
  state : σ
  running : π → Option (Program F Unit)

namespace Pool
open Program
variable {F : Interface} {σ ρ π κ Λ : Type} [DecidableEq π]

/-- A process starts a call, or does the next step of the one it is in. -/
inductive Event (π κ : Type)
  | start (p : π) (c : κ)
  | step (p : π)
  deriving DecidableEq

section Step
variable (h : π → Handler F σ ρ) (program : κ → Program F Unit) (ready : σ → π → Bool)

/-- One event. A step is not enabled where the operation blocks, and no event is
left where it stops the machine. -/
def step (P : Pool F σ π) : Event π κ → Option (Pool F σ π)
  | .start p c =>
    match P.running p with
    | none =>
      if ready P.state p then
        some { P with running := Function.update P.running p (some (program c)) }
      else none
    | some _ => none
  | .step p =>
    match P.running p with
    | none => none
    | some (.done _) => some { P with running := Function.update P.running p none }
    | some (.call o k) =>
      match h p o P.state with
      | .done r s => some ⟨s, Function.update P.running p (some (k r))⟩
      | .stop _ _ => none
      | .block => none

end Step

/-- The next operation of `p` is `o`. -/
def Calls (P : Pool F σ π) (p : π) (o : F.Op) : Prop := ∃ k, P.running p = some (.call o k)

/-- What a typestate has to satisfy to be sound for the operations of a pool:
`G` relates the state with the typestates of all processes, and every operation
that is allowed and meets `good` keeps it. -/
structure Sound (T : Typestate F Λ) (h : π → Handler F σ ρ) (G : σ → (π → Λ) → Prop)
    (good : σ → π → F.Op → Prop) : Prop where
  fact : ∀ s Λs p, G s Λs → T.fact (Λs p)
  step : ∀ s Λs p o r s', G s Λs → T.fact (Λs p) → T.pre o (Λs p) → good s p o →
    h p o s = .done r s' → ∃ L', T.post o (Λs p) r L' ∧ G s' (Function.update Λs p L')

/-- The typestate of a process: idle, or one from which its program is safe. -/
def Running (T : Typestate F Λ) (idle : Λ → Prop) : Option (Program F Unit) → Λ → Prop
  | none, L => idle L
  | some p, L => T.Safe p L fun _ L' => idle L'

/-- The invariant of pools: some typestates of the processes make `G` true and
the programs safe. -/
def Invariant (T : Typestate F Λ) (G : σ → (π → Λ) → Prop) (idle : Λ → Prop)
    (P : Pool F σ π) : Prop :=
  ∃ Λs : π → Λ, G P.state Λs ∧ ∀ p, Running T idle (P.running p) (Λs p)

section Runs
variable {h : π → Handler F σ ρ} {program : κ → Program F Unit} {ready : σ → π → Bool}
  {T : Typestate F Λ} {G : σ → (π → Λ) → Prop} {good : σ → π → F.Op → Prop} {idle : Λ → Prop}

/-- What an event has to meet: a call that starts is one of `calls`, and a step
whose operation is not `good` is not taken. -/
def Allowed (good : σ → π → F.Op → Prop) (calls : κ → Prop) (P : Pool F σ π) :
    Event π κ → Prop
  | .start _ c => calls c
  | .step p => ∀ o, P.Calls p o → good P.state p o

/-- Every event of a run meets its condition in the state it happens in. -/
def AllAllowed (h : π → Handler F σ ρ) (program : κ → Program F Unit) (ready : σ → π → Bool)
    (good : σ → π → F.Op → Prop) (calls : κ → Prop) (P : Pool F σ π)
    (es : List (Event π κ)) : Prop :=
  ∀ fs e Q, fs ++ [e] <+: es → Transition.run (step h program ready) P fs = some Q →
    Allowed good calls Q e

theorem running_update {T : Typestate F Λ} {idle : Λ → Prop}
    {running : π → Option (Program F Unit)} {Λs : π → Λ}
    (hr : ∀ p, Running T idle (running p) (Λs p)) {p : π} {q : Option (Program F Unit)} {L : Λ}
    (hq : Running T idle q L) :
    ∀ p', Running T idle (Function.update running p q p') (Function.update Λs p L p') := by
  intro p'
  by_cases hp : p' = p
  · subst hp
    simpa using hq
  · simpa [hp] using hr p'

/-- One event keeps the invariant. A process that starts a call may learn something. -/
theorem invariant_step (hs : Sound T h G good) {calls : κ → Prop}
    (hcalls : ∀ s Λs p c, G s Λs → idle (Λs p) → ready s p = true → calls c →
      ∃ L, G s (Function.update Λs p L) ∧ T.Safe (program c) L fun _ L' => idle L')
    {P P' : Pool F σ π} {e : Event π κ} (hI : Invariant T G idle P)
    (hgood : Allowed good calls P e) (he : step h program ready P e = some P') :
    Invariant T G idle P' := by
  obtain ⟨Λs, hG, hrun⟩ := hI
  cases e with
  | start p c =>
    unfold step at he
    simp only at he
    split at he
    next hp =>
      split at he
      next hready =>
        cases he
        have hidle : idle (Λs p) := by have := hrun p; rwa [hp] at this
        obtain ⟨L, hL, hsafe⟩ := hcalls _ _ p c hG hidle hready hgood
        exact ⟨_, hL, running_update hrun hsafe⟩
      · cases he
    · cases he
  | step p =>
    unfold step at he
    simp only at he
    split at he
    · cases he
    next a hp =>
      cases he
      have hdone : T.Safe (.done a) (Λs p) fun _ L' => idle L' := by
        have := hrun p; rwa [hp] at this
      refine ⟨Λs, hG, fun p' => ?_⟩
      have := running_update (p := p) (q := none) (L := Λs p) hrun
        (hdone (hs.fact _ _ p hG)) p'
      rwa [Function.update_eq_self] at this
    next o k hp =>
      split at he
      next r s' hr =>
        cases he
        have hcall : T.Safe (.call o k) (Λs p) fun _ L' => idle L' := by
          have := hrun p; rwa [hp] at this
        have hfact := hs.fact _ _ p hG
        obtain ⟨hpre, hpost⟩ := hcall hfact
        obtain ⟨L', hL', hG'⟩ := hs.step _ _ p o r s' hG hfact hpre (hgood o ⟨k, hp⟩) hr
        exact ⟨_, hG', running_update hrun (hpost r L' hL')⟩
      · cases he
      · cases he

/-- The invariant holds in every state of every run whose events are allowed. -/
theorem invariant_run (hs : Sound T h G good) {calls : κ → Prop}
    (hcalls : ∀ s Λs p c, G s Λs → idle (Λs p) → ready s p = true → calls c →
      ∃ L, G s (Function.update Λs p L) ∧ T.Safe (program c) L fun _ L' => idle L')
    {P₀ : Pool F σ π} (h0 : Invariant T G idle P₀) {es : List (Event π κ)} {P : Pool F σ π}
    (hrun : Transition.run (step h program ready) P₀ es = some P)
    (hgood : AllAllowed h program ready good calls P₀ es) : Invariant T G idle P := by
  have key : ∀ es P, Transition.run (step h program ready) P₀ es = some P →
      AllAllowed h program ready good calls P₀ es → Invariant T G idle P := by
    refine Transition.run_induction (fun _ => h0) ?_
    intro es Q e Q' hQ ih he hgood
    have hes : AllAllowed h program ready good calls P₀ es :=
      fun fs f R hf hR => hgood fs f R (hf.trans (List.prefix_append es [e])) hR
    exact invariant_step hs hcalls (ih hes) (hgood es e Q (List.prefix_refl _) hQ) he
  exact key es P hrun hgood

end Runs

end Pool

end Zigmaos
