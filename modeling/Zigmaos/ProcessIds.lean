import Zigmaos.WaitExit

/-!
# Process ids and kill

A slot without a process keeps the pid 0 and is not killed, as long as nobody
kills the pid 0 while there is such a slot, and the pid that the counter has come
to is not in use.
-/
namespace Zigmaos.ProcessTable

variable {initialProcess : Slot} {s s' : State}

/-- A scan of `kill` for the pid 0 does not come to an unused slot. -/
def Phase.Finds (s : State) : Phase → Prop
  | .killing pid k => ∀ i : Slot, i.val = k → pid ≠ 0 ∨ (s.table i).state ≠ .unused
  | _ => True

instance (s : State) : (f : Phase) → Decidable (f.Finds s)
  | .killing pid k =>
    inferInstanceAs (Decidable (∀ i : Slot, i.val = k → pid ≠ 0 ∨ (s.table i).state ≠ .unused))
  | .user | .allocFailed _ | .forked _ _ | .parented _ _ | .reparenting _ _ | .wakingInit _ _ _
  | .wakingParent _ _ | .dying _ | .dead | .scanning _ _ _ | .asleep _ | .relock _ =>
    inferInstanceAs (Decidable True)

/-- What the calls rely on: an allocation gets a pid that is not zero and that no
process has, and a kill of the pid 0 does not come to an unused slot. -/
def Regular (s : State) : Event → Prop
  | .fork _ _ _ | .forkInitFails _ _ =>
    s.nextProcessId ≠ 0 ∧ ∀ i, (s.table i).state ≠ .unused → (s.table i).pid ≠ s.nextProcessId
  | .step p _ => (s.phase p).Finds s
  | _ => True

instance (s : State) (e : Event) : Decidable (Regular s e) :=
  match e with
  | .fork _ _ _ | .forkInitFails _ _ => inferInstanceAs (Decidable (_ ∧ _))
  | .step p _ => inferInstanceAs (Decidable ((s.phase p).Finds s))
  | .schedule _ | .resume _ | .leave _ | .schedulerRelease _ | .yield _ | .sleep _ _
  | .wakeup _ _ | .forkNoSlot _ | .exit _ _ | .wait _ _ | .kill _ _ | .setKilled _ =>
    inferInstanceAs (Decidable True)

structure Pids (s : State) : Prop where
  unused : ∀ i, (s.table i).state = .unused → (s.table i).pid = 0 ∧ (s.table i).isKilled = false
  pos : ∀ i, (s.table i).state ≠ .unused → (s.table i).pid ≠ 0
  inj : ∀ i j, (s.table i).state ≠ .unused → (s.table j).state ≠ .unused →
    (s.table i).pid = (s.table j).pid → i = j

/-! ## What a step does to a slot -/

/-- The slot has the process that it had, killed or not. -/
structure Stays (s s' : State) (i : Slot) : Prop where
  unused : (s'.table i).state = .unused ↔ (s.table i).state = .unused
  pid : (s'.table i).pid = (s.table i).pid

/-- The slot that an event allocates. -/
def Event.allocates : Event → Option Slot
  | .fork _ i _ | .forkInitFails _ i => some i
  | _ => none

/-- The slot is kept, freed, or filled. -/
def Moves (s s' : State) (e : Event) (i : Slot) : Prop :=
  Stays s s' i ∧ (s'.table i).isKilled = (s.table i).isKilled ∨
    s'.table i = .freed ∨
    e.allocates = some i ∧ (s.table i).state = .unused ∧
      s'.table i = { s.table i with state := .used, pid := s.nextProcessId }

theorem Moves.of_eq {e : Event} {i : Slot} (h : s'.table i = s.table i) : Moves s s' e i :=
  .inl ⟨⟨by rw [h], by rw [h]⟩, by rw [h]⟩

/-- An assignment to a slot that keeps the pid. -/
theorem Moves.set {e : Event} {i j : Slot} {r : Process}
    (hs : s'.table j = if j = i then r else s.table j)
    (hr : (r.state = .unused ↔ (s.table i).state = .unused) ∧ r.pid = (s.table i).pid ∧
      r.isKilled = (s.table i).isKilled) : Moves s s' e j := by
  by_cases hji : j = i
  · subst hji
    rw [if_pos rfl] at hs
    exact .inl ⟨⟨by rw [hs]; exact hr.1, by rw [hs]; exact hr.2.1⟩, by rw [hs]; exact hr.2.2⟩
  · rw [if_neg hji] at hs
    exact .of_eq hs

/-- Is the next step of the process a kill that finds its target? -/
def KillsAt (s : State) (p : Slot) (i : Slot) : Prop :=
  s.phase p = .killing (s.table i).pid i.val

theorem wake_fields (s : State) (i j : Slot) (c : Channel) :
    (((s.wake i c).table j).state = .unused ↔ (s.table j).state = .unused) ∧
      ((s.wake i c).table j).pid = (s.table j).pid ∧
      ((s.wake i c).table j).isKilled = (s.table j).isKilled := by
  refine ⟨wake_unused s i j c, ?_⟩
  unfold State.wake
  grind

theorem proceed_moves {p : Slot} {copied : Bool} (h : Invariant initialProcess s)
    (hp : (s.table p).state = .running)
    (he : proceed initialProcess s p copied = some s') (i : Slot) :
    Moves s s' (.step p copied) i ∨
    Stays s s' i ∧ (s'.table i).isKilled = true ∧ KillsAt s p i := by
  unfold proceed at he
  split at he
  · cases he
  · cases he
  · cases he
  next child hc =>
    cases he
    by_cases hi : i = child
    · subst hi
      exact .inl (.inr (.inl (by grind)))
    · exact .inl (.of_eq (by grind))
  next child pid hc =>
    split at he <;> cases he
    exact .inl (.set (i := child) (r := { s.table child with parentProcess := some p }) (by grind)
      ⟨Iff.rfl, rfl, rfl⟩)
  next child pid hc =>
    have hused := h.family.child p child (by rw [hc]; rfl)
    split at he <;> cases he
    exact .inl (.set (i := child) (r := { s.table child with state := .runnable }) (by grind)
      ⟨by simp [hused], rfl, rfl⟩)
  next status k hc =>
    left; left
    refine ⟨⟨?_, ?_⟩, ?_⟩
    all_goals (repeat' split at he) <;> cases he <;> grind
  next status k j hc =>
    left; left
    have hw := wake_fields s
    refine ⟨⟨?_, ?_⟩, ?_⟩
    all_goals (repeat' split at he) <;> cases he <;> grind
  next status j hc =>
    left; left
    have hw := wake_fields s
    refine ⟨⟨?_, ?_⟩, ?_⟩
    all_goals (repeat' split at he) <;> cases he <;> grind
  next status hc =>
    cases he
    left; left
    refine ⟨⟨?_, ?_⟩, ?_⟩
    all_goals grind
  next copy haveKids k hc =>
    split at he
    next hk =>
      simp only at he
      split at he
      · cases he
        exact .inl (.of_eq rfl)
      split at he
      · cases he
      split at he
      · split at he
        · cases he
          exact .inl (.of_eq rfl)
        · cases he
          by_cases hi : i = ⟨k, hk⟩
          · exact .inl (.inr (.inl (by grind)))
          · exact .inl (.of_eq (by grind))
      · cases he
        exact .inl (.of_eq rfl)
    next hk =>
      left; left
      refine ⟨⟨?_, ?_⟩, ?_⟩
      all_goals (repeat' split at he) <;> cases he <;> grind
  next copy hc =>
    split at he <;> cases he
    exact .inl (.of_eq rfl)
  next pid k hc =>
    split at he
    next hk =>
      split at he
      · cases he
      split at he
      next hpid =>
        cases he
        by_cases hi : i = ⟨k, hk⟩
        · subst hi
          refine .inr ⟨⟨?_, ?_⟩, ?_, ?_⟩
          · grind
          · grind
          · grind
          · unfold KillsAt
            rw [hc, hpid]
        · exact .inl (.of_eq (by grind))
      · cases he
        exact .inl (.of_eq rfl)
    · cases he
      exact .inl (.of_eq rfl)

theorem step_moves {e : Event} (h : Invariant initialProcess s)
    (he : step initialProcess s e = some s') (i : Slot) :
    Moves s s' e i ∨
    Stays s s' i ∧ (s'.table i).isKilled = true ∧
      ((∃ p copied, e = .step p copied ∧ KillsAt s p i) ∨
        e = .setKilled i ∧ (s.table i).state ≠ .unused) := by
  cases e with
  | step p copied =>
    simp only [step] at he
    split at he
    next hactive =>
      obtain hm | ⟨hs, hk, ht⟩ := proceed_moves h hactive.1 he i
      · exact .inl hm
      · exact .inr ⟨hs, hk, .inl ⟨p, copied, rfl, ht⟩⟩
    · cases he
  | resume j =>
    simp only [step] at he
    split at he
    · refine .inl (.set (i := j) (r := { s.table j with sleepingChannel := none }) ?_
        ⟨Iff.rfl, rfl, rfl⟩)
      split at he <;> cases he <;> simp [State.setProcess, State.setLocked, State.setPhase, Function.update_apply]
    · cases he
  | fork p j isCopied =>
    simp only [step] at he
    split at he
    next hc =>
      by_cases hij : i = j
      · subst hij
        split at he <;> cases he
        · exact .inl (.inr (.inr ⟨rfl, hc.2.2.2, by grind⟩))
        · exact .inl (.inr (.inl (by grind)))
      · refine .inl (.of_eq ?_)
        split at he <;> cases he <;> grind
    · cases he
  | forkInitFails p j =>
    simp only [step] at he
    split at he
    next hc =>
      cases he
      by_cases hij : i = j
      · subst hij
        exact .inl (.inr (.inr ⟨rfl, hc.2.2.2, by grind⟩))
      · exact .inl (.of_eq (by grind))
    · cases he
  | setKilled p =>
    simp only [step] at he
    split at he
    next hc =>
      cases he
      by_cases hip : i = p
      · subst hip
        have hne : (s.table i).state ≠ .unused := by
          rw [hc.1.1]
          simp
        exact .inr ⟨⟨by simp, by simp⟩, by simp, .inr ⟨rfl, hne⟩⟩
      · exact .inl (.of_eq (by simp [hip]))
    · cases he
  | wakeup j address =>
    simp only [step] at he
    split at he
    · cases he
      obtain ⟨hu, hpid, hk⟩ := wake_fields s j i (.other address)
      exact .inl (.inl ⟨⟨hu, hpid⟩, hk⟩)
    · cases he
  | schedule j | yield j | sleep j a =>
    simp only [step] at he
    split at he
    next hc =>
      cases he
      left; left
      refine ⟨⟨?_, ?_⟩, ?_⟩
      all_goals grind [State.Active]
    · cases he
  | _ =>
    simp only [step] at he
    split at he
    · cases he
      exact .inl (.of_eq rfl)
    · cases he

/-! ## Runs -/

/-- A kill finds a process, not an unused slot. -/
theorem KillsAt.live {p i : Slot} {copied : Bool} (h : KillsAt s p i) (hp : Pids s)
    (hr : Regular s (.step p copied)) : (s.table i).state ≠ .unused := by
  have hfinds : (s.phase p).Finds s := hr
  rw [h] at hfinds
  intro hu
  obtain hpid | hs := hfinds i rfl
  · exact hpid (hp.unused i hu).1
  · exact hs hu

/-- Where the process in a slot has its pid from. -/
theorem Pids.of_live {e : Event} (h : Invariant initialProcess s)
    (he : step initialProcess s e = some s') {i : Slot} (hi : (s'.table i).state ≠ .unused) :
    (s.table i).state ≠ .unused ∧ (s'.table i).pid = (s.table i).pid ∨
      e.allocates = some i ∧ (s'.table i).pid = s.nextProcessId := by
  obtain (⟨hs, -⟩ | hf | ⟨ha, -, ht⟩) | ⟨hs, -⟩ := step_moves h he i
  · exact .inl ⟨fun hu => hi (hs.unused.mpr hu), hs.pid⟩
  · rw [hf] at hi
    exact absurd rfl hi
  · exact .inr ⟨ha, by rw [ht]⟩
  · exact .inl ⟨fun hu => hi (hs.unused.mpr hu), hs.pid⟩

theorem Regular.fresh {e : Event} {i : Slot} (hr : Regular s e) (ha : e.allocates = some i) :
    s.nextProcessId ≠ 0 ∧ ∀ j, (s.table j).state ≠ .unused → (s.table j).pid ≠ s.nextProcessId := by
  cases e with
  | fork p j isCopied => exact hr
  | forkInitFails p j => exact hr
  | _ => cases ha

theorem Pids.step {e : Event} (hp : Pids s) (h : Invariant initialProcess s) (hr : Regular s e)
    (he : step initialProcess s e = some s') : Pids s' where
  unused := by
    intro i hu
    obtain (⟨hs, hk⟩ | hf | ⟨-, -, ht⟩) | ⟨hs, -, hkill⟩ := step_moves h he i
    · have hold := hp.unused i (hs.unused.mp hu)
      exact ⟨hs.pid.trans hold.1, hk.trans hold.2⟩
    · rw [hf]
      exact ⟨rfl, rfl⟩
    · rw [ht] at hu
      cases hu
    · have hold := hs.unused.mp hu
      obtain ⟨p, copied, rfl, ht⟩ | ⟨-, hne⟩ := hkill
      · exact absurd hold (ht.live hp hr)
      · exact absurd hold hne
  pos := by
    intro i hi
    obtain ⟨hold, hpid⟩ | ⟨ha, hpid⟩ := Pids.of_live h he hi
    · rw [hpid]
      exact hp.pos i hold
    · rw [hpid]
      exact (hr.fresh ha).1
  inj := by
    intro i j hi hj hij
    obtain ⟨hi', hpi⟩ | ⟨hai, hpi⟩ := Pids.of_live h he hi
    · obtain ⟨hj', hpj⟩ | ⟨haj, hpj⟩ := Pids.of_live h he hj
      · exact hp.inj i j hi' hj' (by rw [← hpi, hij, hpj])
      · exact absurd (hpi.symm.trans (hij.trans hpj)) ((hr.fresh haj).2 i hi')
    · obtain ⟨hj', hpj⟩ | ⟨haj, -⟩ := Pids.of_live h he hj
      · exact absurd (hpj.symm.trans (hij.symm.trans hpi)) ((hr.fresh hai).2 j hj')
      · exact Option.some.inj (hai.symm.trans haj)

end Zigmaos.ProcessTable
