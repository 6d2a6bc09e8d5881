import Zigmaos.LoggedCacheInvariant

/-!
# Steps outside of commit

A process reads, stores, logs and releases. `log.write` turns a modified buffer
into a pinned one, whether the block is new in the header or absorbed.
-/
namespace Zigmaos.LoggedCache
open FileSystem BufferCache WriteBack

variable {π : Type} [Fintype π] {s s' : State π} {p q : π}

namespace Invariant

omit [Fintype π] in
theorem not_commiting (hp : s.isCommiting p = false) (stage : LogGroup.Stage) :
    s.log.phase p ≠ .commiting stage := by
  intro hs
  rw [isCommiting_iff.mpr ⟨stage, hs⟩] at hp
  cases hp

/-- Nobody commits while a process is inside an operation. -/
theorem quiet_of_inside (h : Invariant s) (hp : s.log.phase p = .inside) :
    ∀ q, s.isCommiting q = false := by
  obtain ⟨a, ha⟩ := h.log
  intro q
  by_contra hq
  obtain ⟨stage, hs⟩ := isCommiting_iff.mp (by simpa using hq)
  exact ha.no_finish (ha.not_commiting hp) q stage hs

/-- What a process holds outside of `Buffer.read` is valid. -/
theorem valid_of_holder (h : Invariant s) {i : BufferIndex} (hr : s.reading p = none)
    (hh : s.cache.holder i = some p) : s.isValid i = true := by
  obtain hv | ⟨b, hb⟩ := h.held i p hh
  · exact hv
  · rw [hr] at hb
    cases hb

/-! ## Outside of commit -/

/-- The entries of the header after `log.write`. -/
theorem write_entries (h : Invariant s) {number : ℕ}
    (hn : (LogGroup.write s.log number).panicked = none) :
    (LogGroup.write s.log number).header.length < s.log.size ∧
    s.log.header.length ≤ (LogGroup.write s.log number).header.length ∧
    (∀ t < s.log.header.length,
      (LogGroup.write s.log number).header.block t = s.log.header.block t) ∧
    (∀ t, s.log.header.length ≤ t → t < (LogGroup.write s.log number).header.length →
      (LogGroup.write s.log number).header.block t = number) ∧
    ∃ t < (LogGroup.write s.log number).header.length,
      (LogGroup.write s.log number).header.block t = number := by
  have hroom := h.room
  have hfits : s.log.header.length < logSize ∧ s.log.header.length < sub32 s.log.size 1 ∧
      1 ≤ s.log.outstanding := by
    unfold LogGroup.write at hn
    split at hn
    · cases hn
    next hfull =>
      split at hn
      · cases hn
      · omega
  obtain ⟨hin, heq⟩ | ⟨hnotin, hlogged, -, hlen⟩ :=
    LogGroup.write_spec s.log number hfits.1 hfits.2.1 hfits.2.2
  · rw [heq]
    exact ⟨hroom, le_rfl, fun _ _ => rfl, fun _ _ _ => by omega, LogGroup.mem_logged.mp hin⟩
  · have hsub : sub32 s.log.size 1 = s.log.size - 1 := sub32_of_le (by omega)
    simp only [LogGroup.State.logged, hlen, List.range_succ, List.map_append, List.map_cons,
      List.map_nil] at hlogged
    obtain ⟨hold, hnew⟩ := List.append_inj' hlogged rfl
    have hlast : (LogGroup.write s.log number).header.block s.log.header.length = number := by
      simpa using hnew
    refine ⟨by omega, by omega, fun t ht => ?_, fun t hge hlt => ?_, _, by omega, hlast⟩
    · exact List.map_inj_left.mp hold t (List.mem_range.mpr ht)
    · rw [show t = s.log.header.length by omega, hlast]

variable [DecidableEq π]

theorem store (h : Invariant s) {i : BufferIndex} (d : Block) (hp : s.Free p)
    (hh : s.cache.holder i = some p) : Invariant (s.store i d) :=
  h.storeWith s.job (h.valid_of_holder hp.1 hh) hh hp.1 (fun _ _ => rfl)
    (fun stage hs => absurd hs (not_commiting hp.2.2 stage)) (fun _ => h.idle p hp.2.2)

theorem release (h : Invariant s) {i : BufferIndex} (hp : s.Free p) (hclean : s.modified i = false)
    (hs : s.onCache (.release p i) = some s') : Invariant s' := by
  obtain ⟨c, hc, rfl⟩ := Option.map_eq_some_iff.mp hs
  exact h.releaseWith s.job hc hp.1 hclean (fun _ _ => rfl)
    (fun _ stage hs => absurd hs (not_commiting hp.2.2 stage)) (fun _ => h.idle p hp.2.2)

/-- `beginOperation` and the first section of `endOperation`. -/
theorem logAction (h : Invariant s) {act : LogGroup.Action} (hp : s.Free p)
    (hwrite : ∀ number, act ≠ .write number) (hs : s.onLog (p, act) = some s') : Invariant s' := by
  obtain ⟨l, hl, hn, rfl⟩ := onLog_eq hs
  have hphase : l.header = s.log.header ∧ ∀ stage, l.phase p = .commiting stage →
      stage = .check ∧ s.log.phase p = .inside := by
    obtain ⟨-, ⟨-, -, rfl⟩ | ⟨-, -, rfl⟩ | ⟨-, -, rfl⟩ | ⟨number, rfl, -, -⟩ | ⟨-, hin, rfl⟩ |
      ⟨stage, -, hcommit, -⟩⟩ := LogGroup.step_cases hl
    · exact ⟨rfl, fun stage hs => by simp [LogGroup.State.setPhase] at hs⟩
    · simp only [LogGroup.beginOperation]
      split <;> exact ⟨rfl, fun stage hs => by simp [LogGroup.State.setPhase] at hs⟩
    · exact ⟨rfl, fun stage hs => by simp [LogGroup.State.setPhase] at hs⟩
    · exact absurd rfl (hwrite number)
    · refine ⟨?_, fun stage hs => ⟨?_, hin⟩⟩
      · simp only [LogGroup.endOperation]
        split
        · rfl
        · split <;> rfl
      · simp only [LogGroup.endOperation] at hs
        split at hs
        · simp [LogGroup.State.panic, hin] at hs
        · split at hs
          · simpa [LogGroup.State.setPhase] using hs.symm
          · simp [LogGroup.State.setPhase] at hs
    · exact absurd hcommit (not_commiting hp.2.2 stage)
  refine h.ofLog s.job hl hn hphase.1 hp.1 (fun _ _ => rfl) (fun stage hs => ?_)
    (fun _ => h.idle p hp.2.2) (fun hnone => ?_)
  · obtain ⟨rfl, hin⟩ := hphase.2 stage hs
    rw [h.idle p hp.2.2]
    exact ⟨h.quiet (h.quiet_of_inside hin), trivial⟩
  · refine h.quiet fun q => ?_
    by_cases hqp : q = p
    · rw [hqp]
      exact hp.2.2
    · by_contra hq
      obtain ⟨stage, hst⟩ := isCommiting_iff.mp (by simpa using hq)
      exact hnone q stage (((moves_step hl).others q hqp stage).mpr hst)

/-- The buffer is in the header, and pinned if its block is new there. -/
theorem logged_buffer (h : Invariant s) {i : BufferIndex} {l : LogGroup.State π}
    {c : BufferCache.State π} (hr : s.reading p = none) (hh : s.cache.holder i = some p)
    (hb : s.Loggable (s.block i)) (hin : s.log.phase p = .inside)
    (hl : l = LogGroup.write s.log (s.block i).number)
    (hlog : LogGroup.step s.log (p, .write (s.block i).number) = some l) (hn : l.panicked = none)
    (hcache : ∃ l, BufferCache.Invariant c l) (hslots : SameSlots s.cache c)
    (hholder : c.holder = s.cache.holder) (hphase : c.phase = s.cache.phase)
    (hpins : ∀ j, s.cache.pins j ≤ c.pins j)
    (hnew : s.log.header.length < l.header.length → 0 < c.pins i) :
    Invariant { s with
      log := l, cache := c, modified := Function.update s.modified i false } := by
  obtain ⟨hroom, hle, hold, hentry, hlogged⟩ := h.write_entries (hl ▸ hn)
  rw [← hl] at hroom hle hold hentry hlogged
  have hv := h.valid_of_holder hr hh
  have hmoves := moves_step hlog
  have hnone := h.quiet_of_inside hin
  obtain ⟨hcopied, hinstalled⟩ := h.quiet hnone
  have hcommit : ∀ q stage, l.phase q ≠ .commiting stage := by
    intro q stage hs
    by_cases hqp : q = p
    · subst hqp
      rw [hl, (write_phase _ _).2, hin] at hs
      cases hs
    · exact not_commiting (hnone q) stage ((hmoves.others q hqp stage).mp hs)
  have hblock : (⟨(s.block i).number, s.device⟩ : BufferCache.DiskBlock) = s.block i := by
    rw [← hb.1]
  have hhome : ∀ t < s.log.header.length, (⟨l.header.block t, s.device⟩ : BufferCache.DiskBlock) =
      s.homeBlock t := by
    intro t ht
    rw [hold t ht]
    rfl
  have hhome' : ∀ t, s.log.header.length ≤ t → t < l.header.length →
      (⟨l.header.block t, s.device⟩ : BufferCache.DiskBlock) = s.block i := by
    intro t hge hlt
    rw [hentry t hge hlt, hblock]
  have hmod : ∀ j, Function.update s.modified i false j = true → j ≠ i ∧ s.modified j = true := by
    intro j hj
    rw [Function.update_apply] at hj
    split at hj
    · cases hj
    next hji => exact ⟨hji, hj⟩
  have hsb : ∀ j, (c.cache.bufferArray j).block = s.block j := fun j => (hslots.slots j).1
  have hsv : ∀ j, (c.cache.bufferArray j).isValid = s.isValid j := fun j => (hslots.slots j).2
  constructor
  case cache => exact hcache
  case log =>
    obtain ⟨a, ha⟩ := h.log
    exact ⟨_, ha.step hlog⟩
  case running => exact hn
  case room => exact hroom.trans_eq hmoves.size.symm
  case logged =>
    intro t ht
    refine ⟨rfl, ?_⟩
    change l.header.block t < s.start ∨ s.start + l.size ≤ l.header.block t
    rw [hmoves.size]
    by_cases hlt : t < s.log.header.length
    · rw [hold t hlt]
      exact (h.logged t hlt).2
    · rw [hentry t (by omega) ht]
      exact hb.2
  case reading =>
    intro q b j hq
    obtain ⟨hbj, hcase⟩ := h.reading q b j hq
    simp only [hphase, hholder]
    refine ⟨(hsb j).trans hbj, hcase.imp_right fun hreads => ⟨hreads.1, hreads.2.1, ?_⟩⟩
    obtain ⟨-, -, hm⟩ := hreads
    rw [Function.update_apply]
    split
    · rfl
    · exact hm
  case waiting =>
    intro q j hq
    exact h.waiting q j (hphase ▸ hq)
  case wants =>
    intro q b j hq hc
    obtain ⟨stage, hs⟩ := isCommiting_iff.mp hc
    exact absurd hs (hcommit q stage)
  case held =>
    intro j q hq
    exact (h.held j q (hholder ▸ hq)).imp_left (hsv j).trans
  case used =>
    intro j hj
    exact (congrFun hslots.returned j).trans (h.used j ((hsv j).symm.trans hj))
  case coherent =>
    have hvalid : (fun j => (c.cache.bufferArray j).isValid = true) = fun j => s.isValid j = true :=
      funext fun j => by rw [hsv j]
    have hblocks : (fun j => (c.cache.bufferArray j).block) = s.block := funext hsb
    change Coherent (fun j => (c.cache.bufferArray j).isValid = true)
      (fun j => (c.cache.bufferArray j).block) _ _ _ _
    rw [hvalid, hblocks]
    refine h.coherent.mono fun j hj hd => ?_
    by_cases hji : j = i
    · subst hji
      obtain ⟨t, ht, hnum⟩ := hlogged
      refine .inr ⟨t, by rw [show ({ s with log := l, cache := c, modified := _ } :
        State π).installed = 0 from hinstalled]; exact Nat.zero_le _, ht, ?_⟩
      refine (hsb j).trans ?_
      simp only [State.homeBlock, hnum, hblock]
    · refine hd.imp (Function.update_of_ne hji _ _).trans ?_
      rintro ⟨t, ht, hlt, hbt⟩
      refine ⟨t, ht, ?_, ?_⟩
      · exact hlt.trans_le hle
      · exact (hsb j).trans (hbt.trans (hhome t hlt).symm)
  case modified =>
    intro j hj
    obtain ⟨hvj, q, hq⟩ := h.modified j (hmod j hj).2
    exact ⟨(hsv j).trans hvj, q, hholder ▸ hq⟩
  case pinned =>
    intro t ht hlt
    by_cases hold' : t < s.log.header.length
    · obtain ⟨j, hj, hbj, hp⟩ := h.pinned t ht hold'
      exact ⟨j, (hsv j).trans hj, (hsb j).trans (hbj.trans (hhome t hold').symm),
        hp.trans_le (hpins j)⟩
    · refine ⟨i, (hsv i).trans hv, (hsb i).trans (hhome' t (by omega) hlt).symm, hnew ?_⟩
      have : t < l.header.length := hlt
      omega
  case copies =>
    intro t ht
    rw [show ({ s with log := l, cache := c, modified := _ } : State π).copied = 0 from hcopied] at ht
    omega
  case jobs => exact fun q stage hs => absurd hs (hcommit q stage)
  case idle =>
    intro q _
    exact h.idle q (hnone q)
  case quiet => exact fun _ => ⟨hcopied, hinstalled⟩

theorem logWrite (h : Invariant s) {i : BufferIndex} (hp : s.Free p)
    (hh : s.cache.holder i = some p) (hb : s.Loggable (s.block i))
    (hs : s.logWrite p i = some s') : Invariant s' := by
  obtain ⟨s₁, hs₁, hs⟩ := Option.bind_eq_some_iff.mp hs
  obtain ⟨l, hlog, hn, rfl⟩ := onLog_eq hs₁
  obtain ⟨hin, hl⟩ : s.log.phase p = .inside ∧ l = LogGroup.write s.log (s.block i).number := by
    obtain ⟨-, ⟨h, -⟩ | ⟨h, -⟩ | ⟨h, -⟩ | ⟨number, hnum, hin, heq⟩ | ⟨h, -⟩ | ⟨stage, h, -⟩⟩ :=
      LogGroup.step_cases hlog
    case inr.inr.inr.inl =>
      cases hnum
      exact ⟨hin, heq⟩
    all_goals cases h
  simp only at hs
  split at hs
  next hlen =>
    obtain rfl := Option.some.inj hs
    exact h.logged_buffer hp.1 hh hb hin hl hlog hn h.cache ⟨rfl, fun _ => ⟨rfl, rfl⟩⟩ rfl rfl
      (fun _ => le_rfl) (fun hlt => absurd hlt (by omega))
  next =>
    obtain ⟨c, hc, rfl⟩ := Option.map_eq_some_iff.mp hs
    obtain ⟨list, hlist⟩ := h.cache
    obtain ⟨hslots, hholder, hphase, hpins⟩ := pin_eq hc
    refine h.logged_buffer hp.1 hh hb hin hl hlog hn (invariant_step hlist hc) hslots hholder hphase
      (fun j => ?_) (fun _ => ?_)
    · rw [hpins, Function.update_apply]
      split
      next hj => rw [hj]; exact Nat.le_succ _
      · exact le_rfl
    · rw [hpins, Function.update_self]
      exact Nat.succ_pos _

end Invariant
end Zigmaos.LoggedCache
