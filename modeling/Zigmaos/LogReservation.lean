import Zigmaos.LogGroupInvariant
import Zigmaos.SuperBlock

/-!
# Log space reservation

`beginOperation` reserves `maxNumOperationBlocks` entries for every running
operation out of `logSize`, but on the image of the build `write` refuses to run
with `nlog - 1` entries used, one fewer, and it refuses before it looks for an
entry to absorb the block. A run panics exactly at a `write` that is called with
that many distinct blocks logged since the previous commit.
-/
namespace Zigmaos.LogGroup
open Transition

variable {π : Type*}

theorem no_finish_of_inside {s : State π} {a : Account π} (h : Inv s a) {p : π}
    (hp : s.phase p = .inside) : ∀ q, s.phase q ≠ .commiting .finish :=
  fun q => h.no_finish (h.not_commiting hp) q .finish

theorem size_write (s : State π) (number : ℕ) : (write s number).size = s.size := by
  unfold write
  dsimp only
  split_ifs <;> simp only [State.panic]

variable [DecidableEq π]

/-- The number of distinct blocks logged since the previous commit. -/
def distinctLogged (es : List (Event π)) : ℕ := (account es).all.toFinset.card

/-- Every operation stays within its budget of blocks at every moment of the run. -/
def WithinBudget (es : List (Event π)) : Prop :=
  ∀ pre, pre <+: es → ∀ p, ((account pre).current p).toFinset.card ≤ maxNumOperationBlocks

/-- No `write` is called once `nlog - 1` distinct blocks are logged. -/
def WritesHaveRoom (nlog : ℕ) (es : List (Event π)) : Prop :=
  ∀ pre p number, pre ++ [(p, .write number)] <+: es → distinctLogged pre < nlog - 1

theorem length_eq_distinctLogged {s : State π} {es : List (Event π)} (h : Inv s (account es))
    (hn : s.panicked = none) (hf : ∀ p, s.phase p ≠ .commiting .finish) :
    s.header.length = distinctLogged es := by
  have hset : s.logged.toFinset = (account es).all.toFinset := by
    ext b
    simp only [List.mem_toFinset]
    exact h.logged_iff hn hf b
  rw [distinctLogged, ← hset, List.toFinset_card_of_nodup h.nodup, length_logged]

/-- `size` never changes. -/
theorem size_step {s s' : State π} {e : Event π} (h : step s e = some s') : s'.size = s.size := by
  obtain ⟨p, act⟩ := e
  obtain ⟨-, ⟨rfl, -, rfl⟩ | ⟨rfl, -, rfl⟩ | ⟨rfl, -, rfl⟩ | ⟨number, rfl, -, rfl⟩ |
    ⟨rfl, -, rfl⟩ | ⟨stage, rfl, -, rfl⟩⟩ := step_cases h
  · rfl
  · simp only [beginOperation]; split_ifs <;> rfl
  · rfl
  · exact size_write s number
  · unfold endOperation
    dsimp only
    split_ifs <;> simp only [State.panic, State.setPhase, State.wakeup]
  · cases stage <;> simp only [commitStage] <;> (try split_ifs) <;> rfl

theorem size_run (size : ℕ) : ∀ (es : List (Event π)) (s : State π),
    run step (initial size) es = some s → s.size = size := by
  refine run_induction (P := fun _ (s : State π) => s.size = size) rfl ?_
  intro es s e s' _ h hstep
  rw [size_step hstep, h]

/-- Only `write` panics for want of room, and only with `nlog - 1` blocks logged. -/
theorem panic_step_iff {nlog : ℕ} (hpos : 0 < nlog) (hle : nlog ≤ logSize)
    {es : List (Event π)} {s s' : State π} {e : Event π}
    (hrun : run step (initial nlog) es = some s) (hstep : step s e = some s') :
    s'.panicked = some .tooBigTransaction ↔
      ∃ number, e.2 = .write number ∧ nlog - 1 ≤ distinctLogged es := by
  have hi := inv_run nlog es s hrun
  have hsize := size_run nlog es s hrun
  obtain ⟨p, act⟩ := e
  obtain ⟨hn, ⟨rfl, hp, rfl⟩ | ⟨rfl, hp, rfl⟩ | ⟨rfl, hp, rfl⟩ | ⟨number, rfl, hp, rfl⟩ |
    ⟨rfl, hp, rfl⟩ | ⟨stage, rfl, hp, rfl⟩⟩ := step_cases hstep
  · simp [State.setPhase, hn]
  · simp only [beginOperation]; split_ifs <;> simp [State.setPhase, hn]
  · simp [State.setPhase, hn]
  · have hlen := length_eq_distinctLogged hi hn (no_finish_of_inside hi hp)
    have hmod : sub32 s.size 1 = nlog - 1 := by
      rw [hsize, sub32_of_le hpos]
    have hout := hi.outstanding_pos hp
    simp only [write, hmod, hlen, Action.write.injEq, exists_eq_left']
    split_ifs with hbig hlt hidx
    · simp only [State.panic, true_iff]; omega
    · omega
    · simp only [hn, reduceCtorEq, false_iff, not_le]; omega
    · simp only [hn, reduceCtorEq, false_iff, not_le]; omega
  · have hnc := hi.not_commiting hp
    simp only [endOperation, hnc, Bool.false_eq_true, if_false]
    split_ifs <;> simp [State.setPhase, State.wakeup, hn]
  · cases stage <;> simp only [commitStage] <;> (try split_ifs) <;>
      simp [State.setPhase, State.wakeup, hn]

/-- A call of `write` in a run is absorbed or gets the next entry of the log. -/
def WritesServed (nlog : ℕ) (es : List (Event π)) : Prop :=
  ∀ pre p number s s', pre ++ [(p, .write number)] <+: es →
    run step (initial nlog) pre = some s → step s (p, .write number) = some s' →
      (number ∈ s.logged ∧ s' = s) ∨
      (number ∉ s.logged ∧ s'.logged = s.logged ++ [number] ∧ s'.header.length ≤ nlog - 1)

/-- On the image of the build no state of a run panics with "too big a
transaction", and every `write` is absorbed or gets an entry, exactly when no
`write` is called with `nlog - 1` distinct blocks logged. -/
theorem reservation_sufficient_iff (es : List (Event π)) (s : State π)
    (h : run step (initial MakeFilesystem.superBlock.nlog) es = some s) :
    ((∀ pre t, pre <+: es → run step (initial MakeFilesystem.superBlock.nlog) pre = some t →
        t.panicked ≠ some .tooBigTransaction) ∧
      WritesServed MakeFilesystem.superBlock.nlog es) ↔
    WritesHaveRoom MakeFilesystem.superBlock.nlog es := by
  have hnlog : MakeFilesystem.superBlock.nlog = logSize := rfl
  rw [hnlog] at *
  have hpos : 0 < logSize := by decide
  constructor
  · rintro ⟨hnever, _⟩ pre p number hpre
    obtain ⟨t', ht'⟩ := run_of_prefix hpre h
    obtain ⟨t, ht, hstep⟩ := run_concat_eq_some.mp ht'
    have hno := hnever _ t' hpre ht'
    rw [Ne, panic_step_iff hpos le_rfl ht hstep] at hno
    by_contra hge
    exact hno ⟨number, rfl, by omega⟩
  · intro hroom
    refine ⟨?_, ?_⟩
    · intro pre
      induction pre using List.reverseRecOn with
      | nil =>
        intro t _ ht
        obtain rfl := Option.some.inj ht
        simp [initial]
      | append_singleton pre e _ =>
        intro t' hpre ht'
        obtain ⟨t, ht, hstep⟩ := run_concat_eq_some.mp ht'
        rw [Ne, panic_step_iff hpos le_rfl ht hstep]
        rintro ⟨number, he, hge⟩
        obtain ⟨p, act⟩ := e
        obtain rfl : act = Action.write number := he
        have := hroom pre p number hpre
        omega
    · intro pre p number t t' hpre ht hstep
      have hi := inv_run logSize pre t ht
      obtain ⟨hn, ⟨he, -, -⟩ | ⟨he, -, -⟩ | ⟨he, -, -⟩ | ⟨number', he, hp, rfl⟩ | ⟨he, -, -⟩ |
        ⟨stage, he, -, -⟩⟩ := step_cases hstep
      · simp at he
      · simp at he
      · simp at he
      · obtain rfl : number = number' := by simpa using he
        have hlen := length_eq_distinctLogged hi hn (no_finish_of_inside hi hp)
        have hlt := hroom pre p number hpre
        have hsize := size_run logSize pre t ht
        have hmod : sub32 t.size 1 = logSize - 1 := by
          rw [hsize, sub32_of_le hpos]
        rcases write_spec t number (by omega) (by omega) (hi.outstanding_pos hp) with hw | hw
        · exact Or.inl hw
        · exact Or.inr ⟨hw.1, hw.2.1, by omega⟩
      · simp at he
      · simp at he

section Full

def isWriteOf (p : π) (e : Event π) : Bool :=
  match e.2 with
  | .write _ => e.1 = p
  | _ => false

/-- A running operation has logged at most what its process has written. -/
theorem length_current_le (es : List (Event π)) (p : π) :
    ((account es).current p).length ≤ es.countP (isWriteOf p) := by
  induction es using List.reverseRecOn with
  | nil => simp [account]
  | append_singleton es e ih =>
    rw [account_concat, List.countP_append]
    obtain ⟨q, act⟩ := e
    by_cases hq : p = q
    · subst hq
      cases act with
      | write number => simp [Account.record, isWriteOf]; omega
      | endOperation => simp [Account.record]
      | commit stage => cases stage <;> (simp only [Account.record]; omega)
      | call => simp only [Account.record]; omega
      | tryBegin => simp only [Account.record]; omega
      | wake => simp only [Account.record]; omega
    · cases act with
      | write number => simp only [Account.record, Function.update_of_ne hq]; omega
      | endOperation => simp only [Account.record, Function.update_of_ne hq]; omega
      | commit stage => cases stage <;> (simp only [Account.record]; omega)
      | call => simp only [Account.record]; omega
      | tryBegin => simp only [Account.record]; omega
      | wake => simp only [Account.record]; omega

def writes (p : π) (numbers : List ℕ) : List (Event π) :=
  numbers.map (fun number => (p, .write number))

/-- Distinct new blocks that fit are logged one after another. -/
theorem run_writes {s : State π} {p : π} (hp : s.phase p = .inside) (hn : s.panicked = none)
    (ho : 1 ≤ s.outstanding) (numbers : List ℕ) (hnodup : (s.logged ++ numbers).Nodup)
    (hfit : s.header.length + numbers.length ≤ logSize)
    (hsize : s.header.length + numbers.length ≤ sub32 s.size 1) :
    ∃ header, run step s (writes p numbers) = some { s with header := header } ∧
      State.logged { s with header := header } = s.logged ++ numbers := by
  induction numbers generalizing s with
  | nil => exact ⟨s.header, rfl, by simp⟩
  | cons number numbers ih =>
    simp only [List.length_cons] at hfit hsize
    have hstep : step s (p, .write number) = some (write s number) := by simp [step, hn, hp]
    have hnew : number ∉ s.logged := by
      intro hmem
      exact (List.nodup_append.mp hnodup).2.2 number hmem number List.mem_cons_self rfl
    rcases write_spec s number (by omega) (by omega) ho with ⟨hmem, _⟩ | ⟨_, hl, hw, hlen⟩
    · exact absurd hmem hnew
    · obtain ⟨header, hrun, hlogged⟩ := ih (s := write s number) (by rw [hw]; exact hp)
        (by rw [hw]; exact hn) (by rw [hw]; exact ho)
        (by rw [hl, List.append_assoc]; exact hnodup) (by omega)
        (by rw [size_write]; omega)
      refine ⟨header, ?_, ?_⟩
      · rw [writes, List.map_cons, run_cons, hstep]
        change run step (write s number) (writes p numbers) = _
        rw [hw] at hrun ⊢
        exact hrun
      · rw [hw] at hlogged
        rw [hlogged, ← hw, hl, List.append_assoc]
        rfl

/-- Three processes enter an operation and log ten distinct blocks each. -/
def threeBegin : List (Event (Fin 3)) :=
  [(0, .call), (0, .tryBegin), (1, .call), (1, .tryBegin), (2, .call), (2, .tryBegin)]

def fullLog : List (Event (Fin 3)) :=
  (threeBegin ++ writes 0 (List.range' 100 10) ++ writes 1 (List.range' 110 10) ++
    writes 2 (List.range' 120 9)) ++ [(2, .write 129)]

theorem threeBegin_run : ∃ s, run step (initial MakeFilesystem.superBlock.nlog) threeBegin = some s ∧
    s.logged = [] ∧ s.outstanding = 3 ∧ s.size = 30 ∧ s.panicked = none ∧
    ∀ p, s.phase p = .inside := by
  refine ⟨_, rfl, rfl, rfl, rfl, rfl, ?_⟩
  decide

/-- A block logged by one of three running operations. -/
def oneWrite : List (Event (Fin 3)) := threeBegin ++ writes 0 [100]

theorem reservation_sufficient_oneWrite :
    WritesServed MakeFilesystem.superBlock.nlog oneWrite := by
  obtain ⟨s₀, hrun₀, hl₀, ho, hs, hn, hp⟩ := threeBegin_run
  have hlen₀ : s₀.header.length = 0 := by rw [← length_logged, hl₀]; rfl
  obtain ⟨h₁, hrun₁, -⟩ := run_writes (hp 0) hn (by omega) [100]
    (by rw [hl₀]; decide) (by rw [hlen₀]; decide) (by rw [hs, hlen₀]; decide)
  have hfew : ∀ pre ∈ oneWrite.inits, distinctLogged pre < MakeFilesystem.superBlock.nlog - 1 := by
    decide +kernel
  have h := reservation_sufficient_iff oneWrite { s₀ with header := h₁ }
    (by rw [oneWrite, run_append_of_eq hrun₀, hrun₁])
  refine (h.mpr ?_).2
  intro pre p number hpre
  exact hfew pre ((List.mem_inits pre oneWrite).mpr ((List.prefix_append _ _).trans hpre))

/-- Every operation is within its budget, and the thirtieth block still panics. -/
theorem fullLog_panics :
    WithinBudget fullLog ∧
    ∃ s, run step (initial MakeFilesystem.superBlock.nlog) fullLog = some s ∧
      s.panicked = some .tooBigTransaction := by
  constructor
  · intro pre hpre p
    have hcount : ∀ p, fullLog.countP (isWriteOf p) ≤ maxNumOperationBlocks := by decide +kernel
    calc ((account pre).current p).toFinset.card
        ≤ ((account pre).current p).length := List.toFinset_card_le _
      _ ≤ pre.countP (isWriteOf p) := length_current_le pre p
      _ ≤ fullLog.countP (isWriteOf p) := hpre.sublist.countP_le
      _ ≤ maxNumOperationBlocks := hcount p
  · obtain ⟨s₀, hrun₀, hl₀, ho, hs, hn, hp⟩ := threeBegin_run
    have hmod : sub32 s₀.size 1 = 29 := by rw [hs]; rfl
    have hlen₀ : s₀.header.length = 0 := by rw [← length_logged, hl₀]; rfl
    obtain ⟨h₁, hrun₁, hl₁⟩ := run_writes (hp 0) hn (by omega) (List.range' 100 10)
      (by rw [hl₀]; decide) (by rw [hlen₀]; decide) (by rw [hmod, hlen₀]; decide)
    have hlen₁ : h₁.length = 10 := by
      have := congrArg List.length hl₁
      simpa [hl₀] using this
    obtain ⟨h₂, hrun₂, hl₂⟩ := run_writes (s := { s₀ with header := h₁ }) (hp 1) hn
      (by simp only; omega) (List.range' 110 10)
      (by rw [hl₁, hl₀]; decide) (by simp only [hlen₁]; decide) (by simp only [hmod, hlen₁]; decide)
    have hlen₂ : h₂.length = 20 := by
      have := congrArg List.length hl₂
      simpa [hlen₁] using this
    obtain ⟨h₃, hrun₃, hl₃⟩ := run_writes (s := { s₀ with header := h₂ }) (hp 2) hn
      (by simp only; omega) (List.range' 120 9)
      (by rw [hl₂, hl₁, hl₀]; decide) (by simp only [hlen₂]; decide)
      (by simp only [hmod, hlen₂]; decide)
    have hlen₃ : h₃.length = 29 := by
      have := congrArg List.length hl₃
      simpa [hlen₂] using this
    refine ⟨({ s₀ with header := h₃ } : State (Fin 3)).panic .tooBigTransaction, ?_, rfl⟩
    rw [fullLog, run_concat_eq_some]
    refine ⟨{ s₀ with header := h₃ }, ?_, ?_⟩
    · rw [List.append_assoc, List.append_assoc, run_append_of_eq hrun₀, run_append_of_eq hrun₁,
        run_append_of_eq hrun₂, hrun₃]
    · simp [step, hn, hp, write, hlen₃, hmod]

end Full

end Zigmaos.LogGroup
