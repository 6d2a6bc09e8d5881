import Mathlib.Data.List.Induction
import Mathlib.Tactic.Common
import Zigmaos.FinNumerals

/-!
# Runs of a labelled transition function

`step s e` is the state after event `e`, or `none` where the event is not
enabled. A run is a list of events, and a property of runs is proved from what
one more event does at the end of a run.
-/
namespace Zigmaos.Transition

variable {σ ε : Type*}

/-- The state after a list of events, all of them enabled in turn. -/
def run (step : σ → ε → Option σ) (s : σ) (es : List ε) : Option σ := es.foldlM step s

variable {step : σ → ε → Option σ} {s₀ : σ}

@[simp] theorem run_nil : run step s₀ [] = some s₀ := rfl

theorem run_append (es fs : List ε) :
    run step s₀ (es ++ fs) = (run step s₀ es).bind (fun s => run step s fs) := by
  simp [run, List.foldlM_append]

theorem run_append_of_eq {es fs : List ε} {s : σ} (h : run step s₀ es = some s) :
    run step s₀ (es ++ fs) = run step s fs := by
  rw [run_append, h]; rfl

theorem run_cons (e : ε) (es : List ε) :
    run step s₀ (e :: es) = (step s₀ e).bind (fun s => run step s es) := by
  simp [run]

theorem run_concat (es : List ε) (e : ε) :
    run step s₀ (es ++ [e]) = (run step s₀ es).bind (fun s => step s e) := by
  simp [run, List.foldlM_append]

theorem run_concat_eq_some {es : List ε} {e : ε} {s' : σ} :
    run step s₀ (es ++ [e]) = some s' ↔ ∃ s, run step s₀ es = some s ∧ step s e = some s' := by
  rw [run_concat, Option.bind_eq_some_iff]

/-- Every initial part of a run is a run. -/
theorem run_of_prefix {es fs : List ε} {s' : σ} (hp : es <+: fs)
    (h : run step s₀ fs = some s') : ∃ s, run step s₀ es = some s := by
  obtain ⟨gs, rfl⟩ := hp
  rw [run_append] at h
  obtain ⟨s, hs, _⟩ := Option.bind_eq_some_iff.mp h
  exact ⟨s, hs⟩

/-- What holds at the start and is kept by every step at the end of a run holds
of every run. -/
theorem run_induction {P : List ε → σ → Prop} (h0 : P [] s₀)
    (hstep : ∀ es s e s', run step s₀ es = some s → P es s → step s e = some s' →
      P (es ++ [e]) s') :
    ∀ es s, run step s₀ es = some s → P es s := by
  intro es
  induction es using List.reverseRecOn with
  | nil => intro s hs; obtain rfl := Option.some.inj hs; exact h0
  | append_singleton es e ih =>
    intro s' hs'
    obtain ⟨s, hs, he⟩ := run_concat_eq_some.mp hs'
    exact hstep es s e s' hs (ih s hs) he

/-! ## Properties of all states and steps on the way -/

/-- Every event of a run is enabled where it stands. -/
theorem step_of_prefix {es fs : List ε} {e : ε} {s s₁ : σ} (hs : run step s₀ es = some s)
    (hp : fs ++ [e] <+: es) (hs₁ : run step s₀ fs = some s₁) :
    ∃ s₂, step s₁ e = some s₂ ∧ run step s₀ (fs ++ [e]) = some s₂ := by
  obtain ⟨s₂, hs₂⟩ := run_of_prefix hp hs
  obtain ⟨s₁', hs₁', he⟩ := run_concat_eq_some.mp hs₂
  obtain rfl := Option.some.inj (hs₁.symm.trans hs₁')
  exact ⟨s₂, he, hs₂⟩

/-- What the steps with property `R` keep holds all along a run of such steps. -/
theorem run_inv_of_steps {Inv : σ → Prop} {R : σ → ε → Prop} (h0 : Inv s₀)
    (hkeep : ∀ s e s', Inv s → step s e = some s' → R s e → Inv s') {es : List ε}
    (h : ∀ fs e s₁, fs ++ [e] <+: es → run step s₀ fs = some s₁ → R s₁ e) :
    ∀ fs s₁, fs <+: es → run step s₀ fs = some s₁ → Inv s₁ := by
  intro fs
  induction fs using List.reverseRecOn with
  | nil =>
    intro s₁ _ hs₁
    obtain rfl := Option.some.inj hs₁
    exact h0
  | append_singleton fs e ih =>
    intro s₂ hp hs₂
    obtain ⟨s₁, hs₁, he⟩ := run_concat_eq_some.mp hs₂
    exact hkeep s₁ e s₂ (ih s₁ ((List.prefix_append _ _).trans hp) hs₁) he (h fs e s₁ hp hs₁)

/-- Where a step leads out of the good states exactly by not being `Ok`, the states of a
run are good exactly if its steps are `Ok`. -/
theorem run_good_iff (Inv Good : σ → Prop) (Ok : σ → ε → Prop) (h0 : Inv s₀)
    (hgood : ∀ s, Inv s → Good s)
    (hkeep : ∀ s e s', Inv s → step s e = some s' → Ok s e → Inv s')
    (hbad : ∀ s e s', Inv s → step s e = some s' → ¬ Ok s e → ¬ Good s') {es : List ε} {s : σ}
    (hs : run step s₀ es = some s) :
    (∀ fs s₁, fs <+: es → run step s₀ fs = some s₁ → Good s₁) ↔
      ∀ fs e s₁, fs ++ [e] <+: es → run step s₀ fs = some s₁ → Ok s₁ e := by
  have hok : ∀ s e s', Inv s → step s e = some s' → Good s' → Ok s e := by
    intro s e s' hi he hg
    by_contra hno
    exact hbad s e s' hi he hno hg
  constructor
  · intro h
    have hnext : ∀ fs e s₁, fs ++ [e] <+: es → run step s₀ fs = some s₁ →
        ∃ s₂, step s₁ e = some s₂ ∧ Good s₂ := by
      intro fs e s₁ hp hs₁
      obtain ⟨s₂, he, hs₂⟩ := step_of_prefix hs hp hs₁
      exact ⟨s₂, he, h _ s₂ hp hs₂⟩
    have hinv := run_inv_of_steps h0 (fun s e s' hi he hR => by
      obtain ⟨s₂, he₂, hg⟩ := hR
      obtain rfl := Option.some.inj (he.symm.trans he₂)
      exact hkeep s e s' hi he (hok s e s' hi he hg)) hnext
    intro fs e s₁ hp hs₁
    obtain ⟨s₂, he, hg⟩ := hnext fs e s₁ hp hs₁
    exact hok s₁ e s₂ (hinv fs s₁ ((List.prefix_append _ _).trans hp) hs₁) he hg
  · intro h fs s₁ hp hs₁
    exact hgood s₁ (run_inv_of_steps h0 hkeep h fs s₁ hp hs₁)

/-- Two properties of steps that agree where the invariant holds, which the second keeps,
agree on whole runs. -/
theorem run_steps_iff (Inv : σ → Prop) (P Q : σ → ε → Prop) (h0 : Inv s₀)
    (hiff : ∀ s e s', Inv s → step s e = some s' → (P s e ↔ Q s e))
    (hkeep : ∀ s e s', Inv s → step s e = some s' → Q s e → Inv s') {es : List ε} {s : σ}
    (hs : run step s₀ es = some s) :
    (∀ fs e s₁, fs ++ [e] <+: es → run step s₀ fs = some s₁ → P s₁ e) ↔
      ∀ fs e s₁, fs ++ [e] <+: es → run step s₀ fs = some s₁ → Q s₁ e := by
  constructor
  · intro h
    have hinv := run_inv_of_steps h0
      (fun s e s' hi he hP => hkeep s e s' hi he ((hiff s e s' hi he).mp hP)) h
    intro fs e s₁ hp hs₁
    obtain ⟨s₂, he, -⟩ := step_of_prefix hs hp hs₁
    exact (hiff s₁ e s₂ (hinv fs s₁ ((List.prefix_append _ _).trans hp) hs₁) he).mp
      (h fs e s₁ hp hs₁)
  · intro h
    have hinv := run_inv_of_steps h0 hkeep h
    intro fs e s₁ hp hs₁
    obtain ⟨s₂, he, -⟩ := step_of_prefix hs hp hs₁
    exact (hiff s₁ e s₂ (hinv fs s₁ ((List.prefix_append _ _).trans hp) hs₁) he).mpr
      (h fs e s₁ hp hs₁)

/-! ## Events that panic -/

/-- The machine in which an event that panics leaves no state to go on from. -/
def orPanic (step : σ → ε → Option σ) (panics : σ → ε → Bool) : Option σ → ε → Option (Option σ)
  | some s, e => if panics s e then some none else (step s e).map some
  | none, _ => none

/-- A run has not panicked exactly if every event of it had room, where that decides
whether an event panics. -/
theorem no_panic_iff {panics : σ → ε → Bool} {Inv : σ → Prop} {Room : σ → ε → Prop} (h0 : Inv s₀)
    (hkeep : ∀ s e s', Inv s → step s e = some s' → Inv s')
    (hroom : ∀ s e, Inv s → (panics s e = true ↔ ¬ Room s e)) {es : List ε} {m : Option σ}
    (hm : run (orPanic step panics) (some s₀) es = some m) :
    m ≠ none ↔ ∀ fs e s₁, fs ++ [e] <+: es →
      run (orPanic step panics) (some s₀) fs = some (some s₁) → Room s₁ e := by
  have hiff := run_good_iff (fun m => ∃ s, m = some s ∧ Inv s) (· ≠ none)
    (fun m e => ∀ s, m = some s → Room s e) ⟨s₀, rfl, h0⟩
    (by rintro m ⟨s, rfl, -⟩; exact nofun)
    (by
      rintro m e m' ⟨s, rfl, hs⟩ he hok
      have hno : ¬ panics s e = true := fun hp => (hroom s e hs).mp hp (hok s rfl)
      simp only [orPanic, if_neg hno, Option.map_eq_some_iff] at he
      obtain ⟨s', hs', rfl⟩ := he
      exact ⟨s', rfl, hkeep s e s' hs hs'⟩)
    (by
      rintro m e m' ⟨s, rfl, hs⟩ he hno
      have hpanics : panics s e = true := by
        rw [hroom s e hs]
        intro hr
        refine hno fun s₁ hs₁ => ?_
        obtain rfl := Option.some.inj hs₁
        exact hr
      simp only [orPanic, if_pos hpanics, Option.some.injEq] at he
      exact fun hne => hne he.symm) hm
  constructor
  · intro hne fs e s₁ hp hs₁
    refine hiff.mp (fun gs m₁ hgs hm₁ hnone => ?_) fs e (some s₁) hp hs₁ s₁ rfl
    -- nothing follows a panic, so that the run would have ended there
    obtain ⟨ks, rfl⟩ := hgs
    rw [run_append_of_eq hm₁, hnone] at hm
    cases ks with
    | nil => exact hne (Option.some.inj hm).symm
    | cons e ks => cases hm
  · intro h
    exact hiff.mpr (fun fs e m₁ hp hm₁ s₁ hs₁ => h fs e s₁ hp (hs₁ ▸ hm₁)) es m (List.prefix_refl es) hm

end Zigmaos.Transition
