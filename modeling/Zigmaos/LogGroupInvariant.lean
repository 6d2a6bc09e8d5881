import Zigmaos.LogGroup

/-!
# Group commit isolation

The invariant ties `outstanding` to the processes inside an operation, allows at
most one committing process and none inside beside it, and says that the header
lists exactly the blocks logged since the previous commit.
-/
namespace Zigmaos.LogGroup
open Transition

section Header

theorem findEntry_spec (h : Log.Header) (number left : ℕ) (hl : left ≤ h.length) :
    (findEntry h number left = h.length ∧
      ∀ i, h.length - left ≤ i → i < h.length → h.block i ≠ number) ∨
    (findEntry h number left < h.length ∧ h.block (findEntry h number left) = number) := by
  induction left with
  | zero => left; exact ⟨rfl, fun i h1 h2 => by omega⟩
  | succ left ih =>
    simp only [findEntry]
    split_ifs with hb
    · right; exact ⟨by omega, hb⟩
    · rcases ih (by omega) with ⟨he, hno⟩ | hfound
      · left
        refine ⟨he, ?_⟩
        intro i h1 h2
        by_cases hi : i = h.length - (left + 1)
        · rw [hi]; exact hb
        · exact hno i (by omega) h2
      · right; exact hfound

variable {π : Type*}

@[simp] theorem length_logged (s : State π) : s.logged.length = s.header.length := by
  simp [State.logged]

theorem mem_logged {s : State π} {b : ℕ} :
    b ∈ s.logged ↔ ∃ i, i < s.header.length ∧ s.header.block i = b := by
  simp [State.logged]

/-- What a call of `write` that does not panic does to the header: a block it lists
is absorbed, any other block takes the next entry. -/
theorem write_spec (s : State π) (number : ℕ)
    (hroom : s.header.length < logSize)
    (hsize : s.header.length < sub32 s.size 1) (hout : 1 ≤ s.outstanding) :
    (number ∈ s.logged ∧ write s number = s) ∨
    (number ∉ s.logged ∧ (write s number).logged = s.logged ++ [number] ∧
      write s number = { s with header := (write s number).header } ∧
      (write s number).header.length = s.header.length + 1) := by
  have hno : ¬ (s.header.length ≥ logSize ∨
      s.header.length ≥ sub32 s.size 1) := by omega
  rcases findEntry_spec s.header number s.header.length le_rfl with ⟨he, hno'⟩ | ⟨hlt, hb⟩
  · right
    have hw : write s number =
        { s with header := ⟨s.header.length + 1,
            Function.update s.header.block s.header.length number⟩ } := by
      simp only [write, if_neg hno, if_neg (show ¬ s.outstanding < 1 by omega), he, if_true]
    refine ⟨?_, ?_, by rw [hw], by rw [hw]⟩
    · rw [mem_logged]
      rintro ⟨i, hi, rfl⟩
      exact hno' i (by omega) hi rfl
    · rw [hw]
      simp only [State.logged, List.range_succ, List.map_append, List.map_cons, List.map_nil,
        Function.update_self, List.append_cancel_right_eq]
      apply List.map_congr_left
      intro i hi
      have := List.mem_range.mp hi
      exact Function.update_of_ne (by omega) _ _
  · left
    refine ⟨mem_logged.mpr ⟨_, hlt, hb⟩, ?_⟩
    simp only [write, if_neg hno, if_neg (show ¬ s.outstanding < 1 by omega)]
    rw [if_neg (by omega)]
    have hself : Function.update s.header.block
        (findEntry s.header number s.header.length) number = s.header.block := by
      funext i
      by_cases hi : i = findEntry s.header number s.header.length
      · rw [hi, Function.update_self, hb]
      · rw [Function.update_of_ne hi]
    rw [hself]

end Header

section Steps
variable {π : Type*} [DecidableEq π] {s s' : State π} {p : π} {act : Action}

/-- Everything a step can do. -/
theorem step_cases (h : step s (p, act) = some s') : s.panicked = none ∧
    ((act = .call ∧ s.phase p = .outside ∧ s' = s.setPhase p .waiting) ∨
     (act = .tryBegin ∧ s.phase p = .waiting ∧ s' = beginOperation s p) ∨
     (act = .wake ∧ s.phase p = .sleeping ∧ s' = s.setPhase p .waiting) ∨
     (∃ number, act = .write number ∧ s.phase p = .inside ∧ s' = write s number) ∨
     (act = .endOperation ∧ s.phase p = .inside ∧ s' = endOperation s p) ∨
     (∃ stage, act = .commit stage ∧ s.phase p = .commiting stage ∧
      s' = commitStage s p stage)) := by
  unfold step at h
  split_ifs at h with hp
  refine ⟨by simpa using hp, ?_⟩
  cases act with
  | call =>
    left
    cases hf : s.phase p <;> simp_all
  | tryBegin =>
    right; left
    cases hf : s.phase p <;> simp_all
  | wake =>
    right; right; left
    cases hf : s.phase p <;> simp_all
  | write number =>
    right; right; right; left
    cases hf : s.phase p <;> simp_all
  | endOperation =>
    right; right; right; right; left
    cases hf : s.phase p <;> simp_all
  | commit stage =>
    right; right; right; right; right
    cases hf : s.phase p <;> simp_all

end Steps

/-- The invariant of group commit. -/
structure Inv {π : Type*} (s : State π) (a : Account π) : Prop where
  admitted : ∃ S : Finset π, (∀ p, p ∈ S ↔ s.phase p = .inside) ∧ S.card = s.outstanding
  length_le : s.header.length ≤ logSize
  outstanding_le : s.outstanding ≤ 3
  commiting_iff : s.isCommiting = true ↔ ∃ p stage, s.phase p = .commiting stage
  unique : ∀ p q stage stage', s.phase p = .commiting stage → s.phase q = .commiting stage' → p = q
  alone : s.isCommiting = true → ∀ p, s.phase p ≠ .inside
  current_nil : ∀ p, s.phase p ≠ .inside → a.current p = []
  all_iff : ∀ b, b ∈ a.all ↔ (∃ op ∈ a.finished, b ∈ op) ∨ ∃ p, b ∈ a.current p
  logged_iff : s.panicked = none → (∀ p, s.phase p ≠ .commiting .finish) →
    ∀ b, b ∈ s.logged ↔ b ∈ a.all
  nodup : s.logged.Nodup
  finish_nil : ∀ p, s.phase p = .commiting .finish → s.header.length = 0
  panicked_eq : s.panicked = none ∨ s.panicked = some .tooBigTransaction ∧ s.isCommiting = false

namespace Inv
variable {π : Type*} {s : State π} {a : Account π}

theorem outstanding_pos (h : Inv s a) {p : π} (hp : s.phase p = .inside) : 1 ≤ s.outstanding := by
  obtain ⟨S, hS, hcard⟩ := h.admitted
  rw [← hcard]
  exact Finset.card_pos.mpr ⟨p, (hS p).mpr hp⟩

theorem outstanding_eq_zero (h : Inv s a) (hc : s.isCommiting = true) : s.outstanding = 0 := by
  obtain ⟨S, hS, hcard⟩ := h.admitted
  rw [← hcard, Finset.card_eq_zero, Finset.eq_empty_iff_forall_notMem]
  exact fun p hp => h.alone hc p ((hS p).mp hp)

theorem not_commiting (h : Inv s a) {p : π} (hp : s.phase p = .inside) :
    s.isCommiting = false := by
  by_contra hc
  exact h.alone (by simpa using hc) p hp

theorem no_finish (h : Inv s a) (hc : s.isCommiting = false) (p : π) (stage : Stage) :
    s.phase p ≠ .commiting stage := by
  intro hp
  have := h.commiting_iff.mpr ⟨p, stage, hp⟩
  simp [hc] at this

/-- Phases may move freely between outside, waiting and sleeping. -/
theorem of_phase (h : Inv s a) (f : π → Phase)
    (hin : ∀ q, f q = .inside ↔ s.phase q = .inside)
    (hco : ∀ q stage, f q = .commiting stage ↔ s.phase q = .commiting stage) :
    Inv { s with phase := f } a where
  admitted := by
    obtain ⟨S, hS, hcard⟩ := h.admitted
    exact ⟨S, fun p => (hS p).trans (hin p).symm, hcard⟩
  length_le := h.length_le
  outstanding_le := h.outstanding_le
  commiting_iff := by simpa only [hco] using h.commiting_iff
  unique p q st st' hp hq := h.unique p q st st' ((hco p st).mp hp) ((hco q st').mp hq)
  alone hc p hp := h.alone hc p ((hin p).mp hp)
  current_nil p hp := h.current_nil p (fun hi => hp ((hin p).mpr hi))
  all_iff := h.all_iff
  logged_iff hn hf := h.logged_iff hn (fun p hp => hf p ((hco p _).mpr hp))
  nodup := h.nodup
  finish_nil p hp := h.finish_nil p ((hco p _).mp hp)
  panicked_eq := h.panicked_eq

theorem wakeup (h : Inv s a) : Inv s.wakeup a := by
  apply h.of_phase
  · intro q
    split_ifs with hq <;> simp [hq]
  · intro q stage
    split_ifs with hq <;> simp [hq]

/-- `outstanding -= 1` does not underflow when a process ends its operation. -/
theorem outstanding_sub_one (h : Inv s a) {p : π} (hp : s.phase p = .inside) :
    sub32 s.outstanding 1 = s.outstanding - 1 :=
  sub32_of_le (h.outstanding_pos hp)

variable [DecidableEq π]

theorem setPhase_idle (h : Inv s a) {p : π} {f : Phase} (hp : s.phase p ≠ .inside)
    (hpc : ∀ stage, s.phase p ≠ .commiting stage) (hf : f ≠ .inside)
    (hfc : ∀ stage, f ≠ .commiting stage) : Inv (s.setPhase p f) a := by
  apply h.of_phase
  · intro q
    by_cases hq : q = p
    · subst hq; simp [hf, hp]
    · simp [hq]
  · intro q stage
    by_cases hq : q = p
    · subst hq; simp [hfc, hpc]
    · simp [hq]

theorem enter (h : Inv s a) {p : π} (hp : s.phase p = .waiting) (hc : s.isCommiting = false)
    (hfits : s.header.length + (s.outstanding + 1) * maxNumOperationBlocks ≤ logSize) :
    Inv (({ s with outstanding := add32 s.outstanding 1 }).setPhase p .inside) a := by
  have hle := h.outstanding_le
  have hmod : add32 s.outstanding 1 = s.outstanding + 1 := add32_of_lt (by omega)
  rw [hmod]
  simp only [maxNumOperationBlocks, logSize] at hfits
  have hne : ∀ q stage, Function.update s.phase p Phase.inside q ≠ .commiting stage := by
    intro q stage
    by_cases hq : q = p
    · subst hq; simp
    · simpa [hq] using h.no_finish hc q stage
  refine ⟨?_, h.length_le, by simp only [State.setPhase]; omega, ?_, ?_, ?_, ?_, h.all_iff, ?_,
    h.nodup, ?_, h.panicked_eq⟩
  · obtain ⟨S, hS, hcard⟩ := h.admitted
    have hnot : p ∉ S := by rw [hS, hp]; simp
    refine ⟨insert p S, ?_, by rw [Finset.card_insert_of_notMem hnot, hcard]; rfl⟩
    intro q
    by_cases hq : q = p
    · subst hq; simp [State.setPhase]
    · simp [State.setPhase, hq, hS]
  · simp only [State.setPhase, hc, Bool.false_eq_true, false_iff, not_exists]
    exact hne
  · intro q r st st' hq _
    exact absurd hq (hne q st)
  · intro hc'
    simp only [State.setPhase, hc] at hc'
    exact absurd hc' (by simp)
  · intro q hq
    by_cases hqp : q = p
    · subst hqp; simp [State.setPhase] at hq
    · exact h.current_nil q (by simpa [State.setPhase, hqp] using hq)
  · intro hn _
    exact h.logged_iff hn (fun q => h.no_finish hc q _)
  · intro q hq
    exact absurd hq (hne q _)

theorem beginOperation (h : Inv s a) {p : π} (hp : s.phase p = .waiting) :
    Inv (LogGroup.beginOperation s p) a := by
  have hl := h.length_le
  have ho := h.outstanding_le
  have hmod : add32 s.header.length (add32 s.outstanding 1 * maxNumOperationBlocks % 2 ^ 32) =
      s.header.length + (s.outstanding + 1) * maxNumOperationBlocks := by
    simp only [maxNumOperationBlocks, logSize] at *
    rw [add32_of_lt (a := s.outstanding) (by omega), Nat.mod_eq_of_lt (by omega),
      add32_of_lt (by omega)]
  simp only [LogGroup.beginOperation, hmod]
  split_ifs with hd
  · exact h.setPhase_idle (by simp [hp]) (by simp [hp]) (by simp) (by simp)
  · rw [not_or] at hd
    exact h.enter hp (by simpa using hd.1) (by omega)

theorem record_write_all_iff (h : Inv s a) (p : π) (number b : ℕ) :
    b ∈ (a.record (p, .write number)).all ↔
      (∃ op ∈ (a.record (p, .write number)).finished, b ∈ op) ∨
        ∃ q, b ∈ (a.record (p, .write number)).current q := by
  simp only [Account.record, List.mem_cons, h.all_iff b]
  constructor
  · rintro (rfl | hf | ⟨q, hq⟩)
    · exact Or.inr ⟨p, by simp⟩
    · exact Or.inl hf
    · refine Or.inr ⟨q, ?_⟩
      by_cases hqp : q = p
      · subst hqp; simp [hq]
      · simpa [hqp] using hq
  · rintro (hf | ⟨q, hq⟩)
    · exact Or.inr (Or.inl hf)
    · by_cases hqp : q = p
      · subst hqp
        rw [Function.update_self, List.mem_cons] at hq
        exact hq.imp id (fun hq => Or.inr ⟨q, hq⟩)
      · rw [Function.update_of_ne hqp] at hq
        exact Or.inr (Or.inr ⟨q, hq⟩)

theorem record_write_current_nil (h : Inv s a) {p : π} (hp : s.phase p = .inside) (number : ℕ) :
    ∀ q, s.phase q ≠ .inside → (a.record (p, .write number)).current q = [] := by
  intro q hq
  have hqp : q ≠ p := fun he => hq (he ▸ hp)
  simpa [Account.record, hqp] using h.current_nil q hq

theorem write (h : Inv s a) {p : π} (hp : s.phase p = .inside) (number : ℕ) :
    Inv (LogGroup.write s number) (a.record (p, .write number)) := by
  by_cases hbig : s.header.length ≥ logSize ∨ s.header.length ≥ sub32 s.size 1
  · have hw : LogGroup.write s number = s.panic .tooBigTransaction := by
      simp only [LogGroup.write, if_pos hbig]
    rw [hw]
    exact ⟨h.admitted, h.length_le, h.outstanding_le, h.commiting_iff, h.unique, h.alone,
      h.record_write_current_nil hp number, h.record_write_all_iff p number,
      fun hn => absurd hn (by simp [State.panic]), h.nodup, h.finish_nil,
      Or.inr ⟨rfl, h.not_commiting hp⟩⟩
  · rw [not_or, not_le, not_le] at hbig
    have hlogged : ∀ b, s.panicked = none → (∀ q, s.phase q ≠ .commiting .finish) →
        (b ∈ (a.record (p, .write number)).all ↔ b ∈ s.logged ∨ b = number) := by
      intro b hn hf
      simp only [Account.record, List.mem_cons, ← h.logged_iff hn hf b]
      exact or_comm
    rcases write_spec s number hbig.1 hbig.2 (h.outstanding_pos hp) with ⟨hmem, hw⟩ |
      ⟨hmem, hl, hw, hlen⟩
    · rw [hw]
      refine ⟨h.admitted, h.length_le, h.outstanding_le, h.commiting_iff, h.unique, h.alone,
        h.record_write_current_nil hp number, h.record_write_all_iff p number, ?_, h.nodup,
        h.finish_nil, h.panicked_eq⟩
      intro hn hf b
      rw [hlogged b hn hf]
      constructor
      · exact Or.inl
      · rintro (hb | rfl)
        · exact hb
        · exact hmem
    · have hphase : (LogGroup.write s number).phase = s.phase := by rw [hw]
      have hcom : (LogGroup.write s number).isCommiting = s.isCommiting := by rw [hw]
      have hout : (LogGroup.write s number).outstanding = s.outstanding := by rw [hw]
      have hpan : (LogGroup.write s number).panicked = s.panicked := by rw [hw]
      refine ⟨by simpa only [hphase, hout] using h.admitted, by omega,
        by simpa only [hout] using h.outstanding_le,
        by simpa only [hphase, hcom] using h.commiting_iff,
        by simpa only [hphase] using h.unique,
        by simpa only [hphase, hcom] using h.alone,
        by simpa only [hphase] using h.record_write_current_nil hp number,
        h.record_write_all_iff p number, ?_, ?_, ?_, by simpa only [hpan, hcom] using h.panicked_eq⟩
      · intro hn hf b
        rw [hphase] at hf
        rw [hpan] at hn
        rw [hlogged b hn hf, hl]
        simp
      · rw [hl, List.nodup_append]
        exact ⟨h.nodup, List.nodup_singleton _, by
          intro x hx y hy hxy
          obtain rfl := List.mem_singleton.mp hy
          exact hmem (hxy ▸ hx)⟩
      · intro q hq
        rw [hphase] at hq
        exact absurd hq (h.no_finish (h.not_commiting hp) q _)

theorem record_end_all_iff (h : Inv s a) (p : π) (b : ℕ) :
    b ∈ (a.record (p, .endOperation)).all ↔
      (∃ op ∈ (a.record (p, .endOperation)).finished, b ∈ op) ∨
        ∃ q, b ∈ (a.record (p, .endOperation)).current q := by
  simp only [Account.record, h.all_iff b, List.mem_cons, exists_eq_or_imp]
  constructor
  · rintro (hf | ⟨q, hq⟩)
    · exact Or.inl (Or.inr hf)
    · by_cases hqp : q = p
      · subst hqp; exact Or.inl (Or.inl hq)
      · exact Or.inr ⟨q, by simpa [hqp] using hq⟩
  · rintro ((hp | hf) | ⟨q, hq⟩)
    · exact Or.inr ⟨p, hp⟩
    · exact Or.inl hf
    · by_cases hqp : q = p
      · subst hqp; simp at hq
      · exact Or.inr ⟨q, by simpa [hqp] using hq⟩

theorem record_end_current_nil (h : Inv s a) (p : π) :
    ∀ q, q = p ∨ s.phase q ≠ .inside → (a.record (p, .endOperation)).current q = [] := by
  intro q hq
  by_cases hqp : q = p
  · subst hqp; simp [Account.record]
  · rcases hq with hq | hq
    · exact absurd hq hqp
    · simpa [Account.record, hqp] using h.current_nil q hq

theorem endOperation (h : Inv s a) {p : π} (hp : s.phase p = .inside) (hn : s.panicked = none) :
    Inv (LogGroup.endOperation s p) (a.record (p, .endOperation)) := by
  have hnc := h.not_commiting hp
  have h3 := h.outstanding_le
  obtain ⟨S, hS, hcard⟩ := h.admitted
  have hmem : p ∈ S := (hS p).mpr hp
  have herase : (S.erase p).card = s.outstanding - 1 := by
    rw [Finset.card_erase_of_mem hmem, hcard]
  simp only [LogGroup.endOperation, h.outstanding_sub_one hp, hnc, Bool.false_eq_true, if_false]
  split_ifs with hz
  · -- the last operation ends: nobody else is inside, and `p` commits
    have halone : ∀ q, q ≠ p → s.phase q ≠ .inside := by
      intro q hq hin
      have hqe : q ∈ S.erase p := Finset.mem_erase.mpr ⟨hq, (hS q).mpr hin⟩
      have := Finset.card_pos.mpr ⟨q, hqe⟩
      omega
    have hin : ∀ q, Function.update s.phase p (.commiting .check) q ≠ .inside := by
      intro q
      by_cases hq : q = p
      · subst hq; simp
      · simpa [hq] using halone q hq
    have hco : ∀ q stage, Function.update s.phase p (.commiting .check) q = .commiting stage →
        q = p ∧ stage = .check := by
      intro q stage hq
      by_cases hqp : q = p
      · subst hqp; simpa [eq_comm] using hq
      · exact absurd (by simpa [hqp] using hq) (h.no_finish hnc q stage)
    refine ⟨⟨∅, by simpa [State.setPhase] using hin, by simp only [State.setPhase]; simp [hz]⟩,
      h.length_le, by simp only [State.setPhase]; omega, ?_, ?_, fun _ => hin, ?_,
      h.record_end_all_iff p, ?_, h.nodup, ?_, Or.inl hn⟩
    · exact ⟨fun _ => ⟨p, .check, by simp [State.setPhase]⟩, fun _ => rfl⟩
    · intro q r st st' hq hr
      exact (hco q st hq).1.trans (hco r st' hr).1.symm
    · intro q _
      apply h.record_end_current_nil p
      by_cases hq : q = p
      · exact Or.inl hq
      · exact Or.inr (halone q hq)
    · intro hn _
      exact h.logged_iff hn (fun q => h.no_finish hnc q _)
    · intro q hq
      exact absurd (hco q _ hq).2 (by simp)
  · have hw : Inv ({ s with outstanding := s.outstanding - 1, phase := Function.update s.phase p .outside })
        (a.record (p, .endOperation)) := by
      have hco : ∀ q stage, Function.update s.phase p Phase.outside q ≠ .commiting stage := by
        intro q stage
        by_cases hqp : q = p
        · subst hqp; simp
        · simpa [hqp] using h.no_finish hnc q stage
      refine ⟨⟨S.erase p, ?_, herase⟩, h.length_le, by simp only; omega, ?_, ?_, ?_, ?_,
        h.record_end_all_iff p, ?_, h.nodup, ?_, h.panicked_eq⟩
      · intro q
        by_cases hqp : q = p
        · subst hqp; simp
        · simp [hqp, hS]
      · simp [hnc, hco]
      · intro q r st st' hq _
        exact absurd hq (hco q st)
      · intro hc
        simp [hnc] at hc
      · intro q hq
        apply h.record_end_current_nil p
        by_cases hqp : q = p
        · exact Or.inl hqp
        · exact Or.inr (by simpa [hqp] using hq)
      · intro hn _
        exact h.logged_iff hn (fun q => h.no_finish hnc q _)
      · intro q hq
        exact absurd hq (hco q _)
    have hwake := hw.wakeup
    have heq : (({ s with outstanding := s.outstanding - 1 } : State π).wakeup).setPhase p .outside =
        ({ s with outstanding := s.outstanding - 1,
                  phase := Function.update s.phase p .outside } : State π).wakeup := by
      simp only [State.wakeup, State.setPhase, State.mk.injEq, true_and, and_true]
      funext q
      by_cases hqp : q = p
      · subst hqp; simp
      · simp [hqp]
    simp only [hnc] at heq hwake ⊢
    rw [heq]
    exact hwake

/-- A stage of `commit` before the last; the header is empty once it is over. -/
theorem nextStage (h : Inv s a) {p : π} {stage next : Stage} {header : Log.Header}
    (hp : s.phase p = .commiting stage)
    (hheader : next ≠ .finish ∧ header = s.header ∨ next = .finish ∧ header.length = 0)
    (hnf : stage ≠ .finish) :
    Inv (({ s with header := header }).setPhase p (.commiting next)) a := by
  have hc : s.isCommiting = true := h.commiting_iff.mpr ⟨p, stage, hp⟩
  have hin : ∀ q, Function.update s.phase p (.commiting next) q = .inside ↔ s.phase q = .inside := by
    intro q
    by_cases hq : q = p
    · subst hq; simp [hp]
    · simp [hq]
  have hco : ∀ q st, Function.update s.phase p (.commiting next) q = .commiting st →
      q = p ∧ st = next := by
    intro q st hq
    by_cases hqp : q = p
    · subst hqp; simpa [eq_comm] using hq
    · exact absurd (h.unique q p st stage (by simpa [hqp] using hq) hp) hqp
  have hold : ∀ q, s.phase q ≠ .commiting .finish := by
    intro q hq
    obtain rfl := h.unique q p _ _ hq hp
    rw [hp] at hq
    exact hnf (by simpa using hq)
  obtain ⟨S, hS, hcard⟩ := h.admitted
  refine ⟨⟨S, fun q => (hS q).trans (hin q).symm, hcard⟩, ?_, h.outstanding_le, ?_, ?_, ?_, ?_,
    h.all_iff, ?_, ?_, ?_, h.panicked_eq⟩
  · rcases hheader with ⟨_, rfl⟩ | ⟨_, hz⟩
    · exact h.length_le
    · simp only [State.setPhase]; omega
  · exact ⟨fun _ => ⟨p, next, by simp [State.setPhase]⟩, fun _ => hc⟩
  · intro q r st st' hq hr
    exact (hco q st hq).1.trans (hco r st' hr).1.symm
  · intro hc' q hq
    exact h.alone hc' q ((hin q).mp hq)
  · intro q hq
    exact h.current_nil q (fun hi => hq ((hin q).mpr hi))
  · intro hn hf
    rcases hheader with ⟨_, rfl⟩ | ⟨rfl, _⟩
    · exact h.logged_iff hn hold
    · exact absurd (by simp [State.setPhase]) (hf p)
  · rcases hheader with ⟨_, rfl⟩ | ⟨_, hz⟩
    · exact h.nodup
    · simp [State.logged, State.setPhase, hz]
  · intro q hq
    rcases hheader with ⟨hne, _⟩ | ⟨_, hz⟩
    · exact absurd (hco q _ hq).2.symm hne
    · exact hz

/-- The section after `commit`: the account starts anew. -/
theorem finish (h : Inv s a) {p : π} (hp : s.phase p = .commiting .finish) :
    Inv (commitStage s p .finish) (a.record (p, .commit .finish)) := by
  have hc : s.isCommiting = true := h.commiting_iff.mpr ⟨p, _, hp⟩
  have h0 := h.outstanding_eq_zero hc
  have hz := h.finish_nil p hp
  have hcur : ∀ q, a.current q = [] := fun q => h.current_nil q (h.alone hc q)
  let f : π → Phase :=
    Function.update (fun q => if s.phase q = .sleeping then .waiting else s.phase q) p .outside
  have hin : ∀ q, f q ≠ .inside := by
    intro q
    by_cases hq : q = p
    · subst hq; simp [f]
    · simp only [f, Function.update_of_ne hq]
      split_ifs
      · simp
      · exact h.alone hc q
  have hco : ∀ q stage, f q ≠ .commiting stage := by
    intro q stage
    by_cases hq : q = p
    · subst hq; simp [f]
    · simp only [f, Function.update_of_ne hq]
      split_ifs
      · simp
      · exact fun hs => hq (h.unique q p stage .finish hs hp)
  change Inv { s with isCommiting := false, phase := f } { a with finished := [], all := [] }
  refine ⟨⟨∅, by simpa using hin, by simp [h0]⟩, h.length_le, h.outstanding_le, by simp [hco],
    fun q r st st' hq _ => absurd hq (hco q st), fun hc' => by simp at hc', fun q _ => hcur q,
    by simp [hcur], ?_, h.nodup, fun q hq => absurd hq (hco q _),
    h.panicked_eq.imp id (fun hp => ⟨hp.1, rfl⟩)⟩
  intro _ _ b
  simp [mem_logged, hz]

theorem commitStage (h : Inv s a) {p : π} {stage : Stage} (hp : s.phase p = .commiting stage) :
    Inv (LogGroup.commitStage s p stage) (a.record (p, .commit stage)) := by
  cases stage with
  | check =>
    simp only [LogGroup.commitStage]
    split_ifs with hz
    · exact h.nextStage hp (Or.inl ⟨by simp, rfl⟩) (by simp)
    · exact h.nextStage hp (Or.inr ⟨rfl, by omega⟩) (by simp)
  | writeLog => exact h.nextStage hp (Or.inl ⟨by simp, rfl⟩) (by simp)
  | writeHead => exact h.nextStage hp (Or.inl ⟨by simp, rfl⟩) (by simp)
  | install => exact h.nextStage hp (Or.inl ⟨by simp, rfl⟩) (by simp)
  | clear => exact h.nextStage hp (Or.inr ⟨rfl, rfl⟩) (by simp)
  | finish => exact h.finish hp

/-- One step of any process keeps the invariant. -/
theorem step (h : Inv s a) {e : Event π} {s' : State π} (hstep : LogGroup.step s e = some s') :
    Inv s' (a.record e) := by
  obtain ⟨p, act⟩ := e
  obtain ⟨hn, ⟨rfl, hp, rfl⟩ | ⟨rfl, hp, rfl⟩ | ⟨rfl, hp, rfl⟩ | ⟨number, rfl, hp, rfl⟩ |
    ⟨rfl, hp, rfl⟩ | ⟨stage, rfl, hp, rfl⟩⟩ := step_cases hstep
  · exact h.setPhase_idle (by simp [hp]) (by simp [hp]) (by simp) (by simp)
  · exact h.beginOperation hp
  · exact h.setPhase_idle (by simp [hp]) (by simp [hp]) (by simp) (by simp)
  · exact h.write hp number
  · exact h.endOperation hp hn
  · exact h.commitStage hp

/-- While a process commits, no step enters an operation and none logs a block. -/
theorem no_entry (h : Inv s a) (hc : s.isCommiting = true) {e : Event π} {s' : State π}
    (hstep : LogGroup.step s e = some s') :
    (∀ q, s'.phase q ≠ .inside) ∧ ∀ number, e.2 ≠ .write number := by
  have halone := h.alone hc
  have hset : ∀ (t : State π) p f, (∀ q, t.phase q ≠ .inside) → f ≠ .inside →
      ∀ q, (t.setPhase p f).phase q ≠ .inside := by
    intro t p f ht hf q
    by_cases hq : q = p
    · subst hq; simpa [State.setPhase] using hf
    · simpa [State.setPhase, hq] using ht q
  obtain ⟨p, act⟩ := e
  obtain ⟨-, ⟨rfl, hp, rfl⟩ | ⟨rfl, hp, rfl⟩ | ⟨rfl, hp, rfl⟩ | ⟨number, rfl, hp, rfl⟩ |
    ⟨rfl, hp, rfl⟩ | ⟨stage, rfl, hp, rfl⟩⟩ := step_cases hstep
  · exact ⟨hset s p _ halone (by simp), by simp⟩
  · refine ⟨?_, by simp⟩
    simp only [LogGroup.beginOperation, hc, true_or, if_true]
    exact hset s p _ halone (by simp)
  · exact ⟨hset s p _ halone (by simp), by simp⟩
  · exact absurd hp (halone p)
  · exact absurd hp (halone p)
  · refine ⟨?_, by simp⟩
    cases stage with
    | check =>
      simp only [LogGroup.commitStage]
      split_ifs <;> exact hset s p _ halone (by simp)
    | writeLog => exact hset s p _ halone (by simp)
    | writeHead => exact hset s p _ halone (by simp)
    | install => exact hset s p _ halone (by simp)
    | clear => exact hset _ p _ halone (by simp)
    | finish =>
      refine hset _ p _ ?_ (by simp)
      intro q
      simp only [State.wakeup]
      split_ifs
      · simp
      · exact halone q

end Inv

section Runs
variable {π : Type*} [DecidableEq π]

theorem inv_initial (size : ℕ) : Inv (initial size : State π) (account []) where
  admitted := ⟨∅, by simp [initial], rfl⟩
  length_le := Nat.zero_le _
  outstanding_le := Nat.zero_le _
  commiting_iff := by simp [initial]
  unique := by simp [initial]
  alone := by simp [initial]
  current_nil := fun _ _ => rfl
  all_iff := by simp [account]
  logged_iff := by simp [State.logged, initial, account]
  nodup := List.nodup_nil
  finish_nil := by simp [initial]
  panicked_eq := Or.inl rfl

/-- Every run keeps the invariant. -/
theorem inv_run (size : ℕ) : ∀ (es : List (Event π)) (s : State π),
    run step (initial size) es = some s → Inv s (account es) := by
  refine run_induction (P := fun es s => Inv s (account es)) (inv_initial size) ?_
  intro es s e s' _ h hstep
  rw [account_concat]
  exact h.step hstep

/-- While a process commits, no process is inside an operation, nobody enters one
and nothing is logged; `endOperation` neither underflows nor panics; and the
header being committed lists exactly the blocks that the operations ended since
the previous commit have logged, with no operation left unfinished. -/
theorem group_commit_isolation (size : ℕ) (es : List (Event π)) (s : State π)
    (h : run step (initial size) es = some s) :
    (∀ p stage, s.phase p = .commiting stage →
      s.isCommiting = true ∧ s.outstanding = 0 ∧ ∀ q, s.phase q ≠ .inside) ∧
    (s.isCommiting = true → ∀ e s', step s e = some s' →
      (∀ q, s'.phase q ≠ .inside) ∧ ∀ number, e.2 ≠ .write number) ∧
    (∀ p, s.phase p = .inside → 0 < s.outstanding ∧ s.isCommiting = false) ∧
    s.panicked ≠ some .logCommiting ∧
    (∀ p stage, s.phase p = .commiting stage → stage ≠ .finish →
      (∀ q, (account es).current q = []) ∧
      ∀ b, b ∈ s.logged ↔ ∃ op ∈ (account es).finished, b ∈ op) := by
  have hi := inv_run size es s h
  have hcommiting : ∀ p stage, s.phase p = .commiting stage → s.isCommiting = true :=
    fun p stage hp => hi.commiting_iff.mpr ⟨p, stage, hp⟩
  refine ⟨?_, ?_, ?_, ?_, ?_⟩
  · intro p stage hp
    have hc := hcommiting p stage hp
    exact ⟨hc, hi.outstanding_eq_zero hc, hi.alone hc⟩
  · intro hc e s' hstep
    exact hi.no_entry hc hstep
  · intro p hp
    exact ⟨hi.outstanding_pos hp, hi.not_commiting hp⟩
  · rcases hi.panicked_eq with he | ⟨he, _⟩ <;> simp [he]
  · intro p stage hp hnf
    have hc := hcommiting p stage hp
    have hcur : ∀ q, (account es).current q = [] := fun q => hi.current_nil q (hi.alone hc q)
    refine ⟨hcur, ?_⟩
    intro b
    have hn : s.panicked = none := by
      rcases hi.panicked_eq with hn | ⟨_, hf⟩
      · exact hn
      · simp [hc] at hf
    have hold : ∀ q, s.phase q ≠ .commiting .finish := by
      intro q hq
      obtain rfl := hi.unique q p _ _ hq hp
      exact hnf (by simpa [hp] using hq)
    rw [hi.logged_iff hn hold, hi.all_iff]
    simp [hcur]

/-- Two processes log a block each; the second to end commits both. -/
def twoOperations : List (Event (Fin 2)) :=
  [(0, .call), (0, .tryBegin), (1, .call), (0, .write 100), (1, .tryBegin), (1, .write 101),
    (0, .endOperation), (1, .endOperation), (1, .commit .check), (1, .commit .writeLog)]

theorem group_commit_isolation_twoOperations :
    ∃ s, run step (initial 30) twoOperations = some s ∧ s.outstanding = 0 ∧
      ∀ b, b ∈ s.logged ↔ ∃ op ∈ (account twoOperations).finished, b ∈ op := by
  have hphase : (run step (initial 30) twoOperations).map (fun s => s.phase 1) =
      some (.commiting .writeHead) := by decide +kernel
  obtain ⟨s, hs, hp⟩ := Option.map_eq_some_iff.mp hphase
  have h := group_commit_isolation 30 twoOperations s hs
  exact ⟨s, hs, (h.1 1 _ hp).2.1, (h.2.2.2.2 1 _ hp (by simp)).2⟩

end Runs

end Zigmaos.LogGroup
