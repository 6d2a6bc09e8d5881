import Zigmaos.LoggedCacheSafety

/-!
# Absorption and pins

Every block of the header that is not installed has one pin on its buffer, however
often it was written, and no buffer has another pin. So nothing is pinned when a
commit has cleared the header.
-/
namespace Zigmaos.LoggedCache
open FileSystem BufferCache WriteBack

variable {π : Type} {s s' : State π} {p q : π}

/-- The process has installed entry `t` and not yet taken the pin away. -/
def UnpinsAt (s : State π) (q : π) (t : ℕ) : Prop :=
  (∃ i j, s.job q = .unpin t i j) ∧ s.log.phase q = .commiting .install

/-- The entry still has its pin. -/
def Waits (s : State π) (t : ℕ) : Prop := s.installed ≤ t ∨ ∃ q, UnpinsAt s q t

/-- The buffer carries a block of the header that still has its pin. -/
def Owed (s : State π) (i : BufferIndex) : Prop :=
  s.isValid i = true ∧ ∃ t, t < s.log.header.length ∧ Waits s t ∧ s.block i = s.homeBlock t

/-- The pins are those that the log owes. -/
structure Pinned (s : State π) : Prop where
  one : ∀ i, Owed s i → s.cache.pins i = 1
  zero : ∀ i, ¬ Owed s i → s.cache.pins i = 0

/-! ## Frames -/

theorem Pinned.congr (h : Pinned s) (hpins : s'.cache.pins = s.cache.pins)
    (howed : ∀ i, Owed s' i ↔ Owed s i) : Pinned s' where
  one i hi := by rw [hpins]; exact h.one i ((howed i).mp hi)
  zero i hi := by rw [hpins]; exact h.zero i (fun ho => hi ((howed i).mpr ho))

theorem owed_congr (hslots : ∀ i, s'.isValid i = s.isValid i ∧ s'.block i = s.block i)
    (hlog : SameLog s s') (hwaits : ∀ t, Waits s' t ↔ Waits s t) (i : BufferIndex) :
    Owed s' i ↔ Owed s i := by
  simp only [Owed, (hslots i).1, (hslots i).2, hlog.header, hlog.homeBlock, hwaits]

theorem waits_congr (hinstalled : s'.installed = s.installed)
    (hother : ∀ q, q ≠ p → ∀ t, UnpinsAt s' q t ↔ UnpinsAt s q t)
    (hold : ∀ t, ¬ UnpinsAt s p t) (hnew : ∀ t, ¬ UnpinsAt s' p t) (t : ℕ) :
    Waits s' t ↔ Waits s t := by
  unfold Waits
  rw [hinstalled]
  refine or_congr Iff.rfl (exists_congr fun q => ?_)
  by_cases hq : q = p
  · subst hq
    exact iff_of_false (hnew t) (hold t)
  · exact hother q hq t

/-- Nothing that a pin depends on has changed. -/
theorem Pinned.keep (h : Pinned s) (hpins : s'.cache.pins = s.cache.pins)
    (hslots : ∀ i, s'.isValid i = s.isValid i ∧ s'.block i = s.block i) (hlog : SameLog s s')
    (hinstalled : s'.installed = s.installed) (hjob : s'.job = s.job)
    (hphase : ∀ q, s'.log.phase q = .commiting .install ↔ s.log.phase q = .commiting .install) :
    Pinned s' := by
  refine h.congr hpins (owed_congr hslots hlog fun t => ?_)
  simp only [Waits, UnpinsAt, hinstalled, hjob, hphase]

variable [Fintype π]

/-- Where an entry still has its pin, a valid buffer has its block. -/
theorem Invariant.buffer_of_waits (h : Invariant s) {t : ℕ} (ht : t < s.log.header.length)
    (hw : Waits s t) : ∃ j, s.isValid j = true ∧ s.block j = s.homeBlock t := by
  obtain hw | ⟨q, ⟨i, j, hjob⟩, hphase⟩ := hw
  · obtain ⟨j, hv, hb, -⟩ := h.pinned t hw ht
    exact ⟨j, hv, hb⟩
  · have hok := (h.jobs q _ hphase).2
    rw [hjob] at hok
    obtain ⟨-, -, hj, -⟩ := hok
    exact ⟨j, hj.valid, hj.block⟩

omit [Fintype π] in
/-- A block that gets a new entry has none. -/
theorem not_logged {number : ℕ}
    (hn : (LogGroup.write s.log number).panicked = none)
    (hlen : (LogGroup.write s.log number).header.length ≠ s.log.header.length) :
    ∀ t < s.log.header.length, s.log.header.block t ≠ number := by
  intro t ht he
  have hfits : s.log.header.length < logSize ∧ s.log.header.length < sub32 s.log.size 1 ∧
      1 ≤ s.log.outstanding := by
    unfold LogGroup.write at hn
    split at hn
    · cases hn
    next hfull =>
      split at hn
      · cases hn
      · omega
  obtain ⟨-, heq⟩ | ⟨hnotin, -⟩ := LogGroup.write_spec s.log number hfits.1 hfits.2.1 hfits.2.2
  · exact hlen (by rw [heq])
  · exact hnotin (LogGroup.mem_logged.mpr ⟨t, ht, he⟩)

/-- Two buffers that have been returned do not carry the same block. -/
theorem Invariant.returned_unique (h : Invariant s) {i j : BufferIndex}
    (hi : s.cache.returned i = true) (hj : s.cache.returned j = true)
    (hb : s.block i = s.block j) : i = j := by
  obtain ⟨l, hl⟩ := h.cache
  by_contra hne
  have := hl.block_ne hi (Ne.symm hne) hb
  rw [hj] at this
  cases this

variable [DecidableEq π]

namespace Pinned

theorem read (hp : Pinned s) (h : Invariant s) {b : BufferCache.DiskBlock}
    (hs : s.read p b = some s') : Pinned s' := by
  obtain ⟨l, hl⟩ := h.cache
  obtain ⟨s₁, hs₁, hs⟩ := Option.bind_eq_some_iff.mp hs
  obtain ⟨c, hc, rfl⟩ := Option.map_eq_some_iff.mp hs₁
  obtain ⟨k, hk⟩ := getBuffer_chosen hl hc
  simp only [hk.phase, Function.update_self, Option.some.injEq] at hs
  subst hs
  refine hp.congr hk.pins fun i => ⟨?_, ?_⟩
  · rintro ⟨hv, t, ht, hw, hb⟩
    obtain ⟨hv', hb'⟩ := hk.valid i hv
    exact ⟨hv', t, ht, hw, hb'.symm.trans hb⟩
  · intro ho
    have hone := hp.one i ho
    obtain ⟨hb', hv'⟩ := hk.referenced i (refs_of_pins hl (by omega))
    obtain ⟨hv, t, ht, hw, hb⟩ := ho
    exact ⟨hv'.trans hv, t, ht, hw, hb'.trans hb⟩

omit [Fintype π] in
theorem onCache (hp : Pinned s) {e : BufferCache.Event π}
    (hslots : ∀ c, BufferCache.step s.cache e = some c → SameSlots s.cache c ∧
      c.pins = s.cache.pins) (hs : s.onCache e = some s') : Pinned s' := by
  obtain ⟨c, hc, rfl⟩ := Option.map_eq_some_iff.mp hs
  obtain ⟨hsame, hpins⟩ := hslots c hc
  exact hp.keep hpins (fun i => ⟨(hsame.slots i).2, (hsame.slots i).1⟩) ⟨rfl, rfl, rfl⟩ rfl rfl
    (fun _ => Iff.rfl)

theorem got_unpin (job : Job) (i : BufferIndex) (t : ℕ) (a b : BufferIndex) :
    job.got i = .unpin t a b ↔ job = .unpin t a b := by
  cases job <;> simp [Job.got]

theorem returns (hp : Pinned s) (h : Invariant s) (hs : s.returns p = some s') : Pinned s' := by
  simp only [State.returns] at hs
  split at hs
  next b i hr =>
    simp only [Option.ite_none_right_eq_some, Option.some.injEq] at hs
    obtain ⟨hrun, rfl⟩ := hs
    have hwaits (s₁ : State π) (hinst : s₁.installed = s.installed) (hlog : s₁.log = s.log)
        (hjob : s₁.job = Function.update s.job p ((s.job p).got i)) (t : ℕ) :
        Waits s₁ t ↔ Waits s t := by
      simp only [Waits, UnpinsAt, hinst, hlog, hjob]
      refine or_congr Iff.rfl (exists_congr fun q => and_congr ?_ Iff.rfl)
      by_cases hq : q = p
      · subst hq
        simp only [Function.update_self, got_unpin]
      · simp only [Function.update_of_ne hq]
    by_cases hv : s.isValid i = true
    · rw [if_pos hv]
      exact hp.congr rfl (owed_congr (fun _ => ⟨rfl, rfl⟩) ⟨rfl, rfl, rfl⟩ (hwaits _ rfl rfl rfl))
    · rw [if_neg hv]
      refine hp.congr rfl fun j => ?_
      have hblock (k : BufferIndex) : (s.fill i).block k = s.block k :=
        congrFun (Invariant.fill_block s i) k
      have hwaits' := hwaits (((s.fill i).setReading p none).setJob p ((s.job p).got i)) rfl rfl rfl
      constructor
      · rintro ⟨hvj, t, ht, hw, hb⟩
        have hbj : s.block j = s.homeBlock t := (hblock j).symm.trans hb
        obtain hvj | rfl := (Invariant.fill_isValid s i j).mp hvj
        · exact ⟨hvj, t, ht, (hwaits' t).mp hw, hbj⟩
        · -- the entry has its pin on a buffer that has the block already
          obtain ⟨k, hvk, hbk⟩ := h.buffer_of_waits ht ((hwaits' t).mp hw)
          obtain ⟨l, hl⟩ := h.cache
          have hcase := (h.reading p b j hr).2
          rw [hrun] at hcase
          obtain ⟨-, hh, -⟩ := hcase.resolve_left (by simp)
          have hret : s.cache.returned j = true := by
            refine (hl.count_pos ?_).2
            have : s.cache.holders j = 1 := by simp [BufferCache.State.holders, hh]
            omega
          rw [h.returned_unique hret (h.used k hvk) (hbj.trans hbk.symm)] at hv
          exact absurd hvk hv
      · rintro ⟨hvj, t, ht, hw, hb⟩
        exact ⟨(Invariant.fill_isValid s i j).mpr (.inl hvj), t, ht, (hwaits' t).mpr hw,
          (hblock j).trans hb⟩
  · cases hs

omit [Fintype π] in
/-- A step of the log, of a process that neither is in `install` before nor after,
with no change to the entries. -/
theorem log (hp : Pinned s) {act : LogGroup.Action} {l : LogGroup.State π} (job : π → Job)
    (hs : LogGroup.step s.log (p, act) = some l) (hheader : l.header = s.log.header)
    (hother : ∀ q, q ≠ p → job q = s.job q)
    (hold : ∀ t, ¬ UnpinsAt s p t) (hnew : ∀ t, ¬ UnpinsAt { s with log := l, job := job } p t) :
    Pinned { s with log := l, job := job } := by
  refine hp.congr rfl (owed_congr (fun _ => ⟨rfl, rfl⟩) ⟨hheader, rfl, rfl⟩
    (waits_congr rfl (fun q hq t => ?_) hold hnew))
  simp only [UnpinsAt, hother q hq, (moves_step hs).others q hq]

omit [Fintype π] in
theorem header_eq {l l' : LogGroup.State π} {act : LogGroup.Action}
    (hs : LogGroup.step l (p, act) = some l') (hwrite : ∀ number, act ≠ .write number)
    (hclear : act ≠ .commit .clear) : l'.header = l.header := by
  obtain ⟨-, ⟨-, -, rfl⟩ | ⟨-, -, rfl⟩ | ⟨-, -, rfl⟩ | ⟨number, rfl, -⟩ | ⟨-, -, rfl⟩ |
    ⟨stage, rfl, -, rfl⟩⟩ := LogGroup.step_cases hs
  · rfl
  · simp only [LogGroup.beginOperation]
    split <;> rfl
  · rfl
  · exact absurd rfl (hwrite number)
  · simp only [LogGroup.endOperation]
    split
    · rfl
    · split <;> rfl
  · cases stage with
    | check =>
      simp only [LogGroup.commitStage]
      split <;> rfl
    | clear => exact absurd rfl hclear
    | _ => rfl

omit [Fintype π] in
/-- A process that starts an operation, or ends one, is not in `install` then. -/
theorem phase_ne_install {l l' : LogGroup.State π} {act : LogGroup.Action}
    (hs : LogGroup.step l (p, act) = some l') (hcommit : ∀ stage, act ≠ .commit stage) :
    l.phase p ≠ .commiting .install ∧ l'.phase p ≠ .commiting .install := by
  obtain ⟨-, ⟨-, hp, rfl⟩ | ⟨-, hp, rfl⟩ | ⟨-, hp, rfl⟩ | ⟨number, -, hp, rfl⟩ | ⟨-, hp, rfl⟩ |
    ⟨stage, rfl, -⟩⟩ := LogGroup.step_cases hs
  · exact ⟨by rw [hp]; simp, by simp [LogGroup.State.setPhase]⟩
  · refine ⟨by rw [hp]; simp, ?_⟩
    simp only [LogGroup.beginOperation]
    split <;> simp [LogGroup.State.setPhase]
  · exact ⟨by rw [hp]; simp, by simp [LogGroup.State.setPhase]⟩
  · exact ⟨by rw [hp]; simp, by rw [(write_phase l number).2, hp]; simp⟩
  · refine ⟨by rw [hp]; simp, ?_⟩
    simp only [LogGroup.endOperation]
    split
    · simp [LogGroup.State.panic, hp]
    · split <;> simp [LogGroup.State.setPhase]
  · exact absurd rfl (hcommit stage)

omit [Fintype π] in
theorem logAction (hp : Pinned s) {act : LogGroup.Action} (hwrite : ∀ number, act ≠ .write number)
    (hcommit : ∀ stage, act ≠ .commit stage) (hs : s.onLog (p, act) = some s') : Pinned s' := by
  obtain ⟨l, hl, -, rfl⟩ := onLog_eq hs
  obtain ⟨hold, hnew⟩ := phase_ne_install hl hcommit
  exact hp.log s.job hl (header_eq hl hwrite (hcommit .clear)) (fun _ _ => rfl)
    (fun t ht => hold ht.2) (fun t ht => hnew ht.2)

theorem logWrite (hp : Pinned s) (h : Invariant s) {i : BufferIndex} (hfree : s.Free p)
    (hh : s.cache.holder i = some p) (hb : s.Loggable (s.block i))
    (hs : s.logWrite p i = some s') : Pinned s' := by
  have hvalid := h.valid_of_holder hfree.1 hh
  obtain ⟨s₁, hs₁, hs⟩ := Option.bind_eq_some_iff.mp hs
  obtain ⟨l, hl, hn, rfl⟩ := onLog_eq hs₁
  obtain ⟨hold, hnew⟩ := phase_ne_install hl (fun _ => nofun)
  have hin : s.log.phase p = .inside ∧ l = LogGroup.write s.log (s.block i).number := by
    obtain ⟨-, ⟨h, -⟩ | ⟨h, -⟩ | ⟨h, -⟩ | ⟨number, hnum, hin, heq⟩ | ⟨h, -⟩ | ⟨stage, h, -⟩⟩ :=
      LogGroup.step_cases hl
    case inr.inr.inr.inl =>
      cases hnum
      exact ⟨hin, heq⟩
    all_goals cases h
  obtain ⟨hin, rfl⟩ := hin
  -- nobody commits, so that every entry waits
  have hquiet := h.quiet_of_inside hin
  have hwaits (t : ℕ) : Waits s t := .inl (by rw [(h.quiet hquiet).2]; exact Nat.zero_le t)
  obtain ⟨-, hle, hkept, hadded, tail, htail, hnumber⟩ := h.write_entries hn
  have hhome (t : ℕ) (ht : t < s.log.header.length) :
      (⟨(LogGroup.write s.log (s.block i).number).header.block t, s.device⟩ :
        BufferCache.DiskBlock) = s.homeBlock t := by
    rw [hkept t ht]
    rfl
  have hblock : (⟨(s.block i).number, s.device⟩ : BufferCache.DiskBlock) = s.block i := by
    rw [← hb.1]
  simp only at hs
  split at hs
  next hlen =>
    obtain rfl := Option.some.inj hs
    refine hp.congr rfl fun j => ?_
    constructor
    · rintro ⟨hv, t, ht, -, hbj⟩
      rw [hlen] at ht
      exact ⟨hv, t, ht, hwaits t, hbj.trans (hhome t ht)⟩
    · rintro ⟨hv, t, ht, -, hbj⟩
      exact ⟨hv, t, hlen ▸ ht, .inl (by rw [(h.quiet hquiet).2]; exact Nat.zero_le t),
        hbj.trans (hhome t ht).symm⟩
  next hlen =>
    obtain ⟨c, hc, rfl⟩ := Option.map_eq_some_iff.mp hs
    obtain ⟨hslots, -, -, hpins⟩ := pin_eq hc
    have hnew' : ¬ Owed s i := by
      rintro ⟨-, t, ht, -, hbi⟩
      exact not_logged hn hlen t ht (congrArg BufferCache.DiskBlock.number hbi).symm
    have howed (j : BufferIndex) :
        Owed { s with log := LogGroup.write s.log (s.block i).number, cache := c,
                      modified := Function.update s.modified i false } j ↔ Owed s j ∨ j = i := by
      constructor
      · rintro ⟨hv, t, ht, -, hbj⟩
        have hv : s.isValid j = true := (hslots.slots j).2.symm.trans hv
        have hbj : s.block j = ⟨(LogGroup.write s.log (s.block i).number).header.block t,
          s.device⟩ := (hslots.slots j).1.symm.trans hbj
        by_cases hlt : t < s.log.header.length
        · exact .inl ⟨hv, t, hlt, hwaits t, hbj.trans (hhome t hlt)⟩
        · rw [hadded t (by omega) ht, hblock] at hbj
          exact .inr (h.returned_unique (h.used j hv) (h.used i hvalid) hbj)
      · rintro (⟨hv, t, ht, -, hbj⟩ | rfl)
        · exact ⟨(hslots.slots j).2.trans hv, t, lt_of_lt_of_le ht hle,
            .inl (by rw [(h.quiet hquiet).2]; exact Nat.zero_le t),
            (hslots.slots j).1.trans (hbj.trans (hhome t ht).symm)⟩
        · refine ⟨(hslots.slots j).2.trans hvalid, tail, htail,
            .inl (by rw [(h.quiet hquiet).2]; exact Nat.zero_le tail),
            (hslots.slots j).1.trans ?_⟩
          exact hblock.symm.trans
            (congrArg (fun n => (⟨n, s.device⟩ : BufferCache.DiskBlock)) hnumber.symm)
    refine ⟨fun j hj => ?_, fun j hj => ?_⟩
    · dsimp only
      rw [hpins]
      by_cases hji : j = i
      · subst hji
        rw [Function.update_self, hp.zero j hnew']
      · rw [Function.update_of_ne hji]
        exact hp.one j (((howed j).mp hj).resolve_right hji)
    · have hji : j ≠ i := fun he => hj ((howed j).mpr (.inr he))
      dsimp only
      rw [hpins, Function.update_of_ne hji]
      exact hp.zero j (fun ho => hj ((howed j).mpr (.inl ho)))

/-! ## Commit -/

omit [Fintype π] [DecidableEq π] in
theorem not_unpinsAt {t : ℕ} (hj : ∀ t i j, s.job p ≠ .unpin t i j) : ¬ UnpinsAt s p t := by
  rintro ⟨⟨i, j, hjob⟩, -⟩
  exact hj t i j hjob

omit [Fintype π] [DecidableEq π] in
theorem not_unpinsAt_stage {t : ℕ} {stage : LogGroup.Stage}
    (hp : s.log.phase p = .commiting stage) (hne : stage ≠ .install) : ¬ UnpinsAt s p t := by
  rintro ⟨-, hi⟩
  rw [hp] at hi
  exact hne (LogGroup.Phase.commiting.inj hi)

omit [Fintype π] in
/-- A step of `commit` that is neither `writeHome` nor `unpin`. -/
theorem ofJob (hp : Pinned s) (job : Job) (hpins : s'.cache.pins = s.cache.pins)
    (hslots : ∀ i, s'.isValid i = s.isValid i ∧ s'.block i = s.block i)
    (hlog : s'.log = s.log) (hstart : s'.start = s.start) (hdevice : s'.device = s.device)
    (hinstalled : s'.installed = s.installed) (hjob : s'.job = Function.update s.job p job)
    (hold : ∀ t, ¬ UnpinsAt s p t) (hnew : ∀ t i j, job ≠ .unpin t i j) : Pinned s' := by
  refine hp.congr hpins (owed_congr hslots ⟨by rw [hlog], hstart, hdevice⟩
    (waits_congr hinstalled (fun q hq t => ?_) hold (fun t ht => ?_)))
  · simp only [UnpinsAt, hjob, hlog, Function.update_of_ne hq]
  · obtain ⟨⟨i, j, hj⟩, -⟩ := ht
    rw [hjob, Function.update_self] at hj
    exact hnew t i j hj

omit [Fintype π] in
/-- A step of the cache in `commit`. -/
theorem onCacheJob (hp : Pinned s) {e : BufferCache.Event π} (job : Job)
    (hslots : ∀ c, BufferCache.step s.cache e = some c → SameSlots s.cache c ∧
      c.pins = s.cache.pins) (hold : ∀ t, ¬ UnpinsAt s p t) (hnew : ∀ t i j, job ≠ .unpin t i j)
    (hs : (s.onCache e).map (fun s' => s'.setJob p job) = some s') : Pinned s' := by
  obtain ⟨s₁, hs₁, rfl⟩ := Option.map_eq_some_iff.mp hs
  obtain ⟨c, hc, rfl⟩ := Option.map_eq_some_iff.mp hs₁
  obtain ⟨hsame, hpins⟩ := hslots c hc
  exact hp.ofJob job hpins (fun i => ⟨(hsame.slots i).2, (hsame.slots i).1⟩) rfl rfl rfl
    rfl rfl hold hnew

omit [Fintype π] in
/-- A step to the next stage. -/
theorem nextStage (hp : Pinned s) {stage : LogGroup.Stage} (job : State π → Job)
    (hs : (s.onLog (p, .commit stage)).map (fun s' => s'.setJob p (job s')) = some s')
    (hclear : stage ≠ .clear) (hold : ∀ t, ¬ UnpinsAt s p t)
    (hnew : ∀ s' t i j, job s' ≠ .unpin t i j) : Pinned s' := by
  obtain ⟨s₁, hs₁, rfl⟩ := Option.map_eq_some_iff.mp hs
  obtain ⟨l, hl, -, rfl⟩ := onLog_eq hs₁
  refine hp.log _ hl (header_eq hl (fun _ => nofun) (fun he => ?_))
    (fun q hq => Function.update_of_ne hq _ _) hold (fun t => not_unpinsAt (fun u i j hj => ?_))
  · exact hclear (LogGroup.Action.commit.inj he)
  · simp only [Function.update_self] at hj
    exact hnew _ u i j hj

omit [DecidableEq π] in
/-- When everything is installed, nothing is pinned. -/
theorem none_owed (h : Invariant s) (hp : s.log.phase p = .commiting .clear) (i : BufferIndex) :
    ¬ Owed s i := by
  rintro ⟨-, t, ht, hw | ⟨q, -, hq⟩, -⟩
  · have hinstalled := (h.jobs p _ hp).1.2
    omega
  · obtain rfl := h.alone hp hq
    rw [hp] at hq
    cases hq

theorem clear (hp : Pinned s) (h : Invariant s) {l : LogGroup.State π} {job : π → Job}
    (hphase : s.log.phase p = .commiting .clear)
    (hs : LogGroup.step s.log (p, .commit .clear) = some l) :
    l.header.length = 0 ∧ (∀ i, s.cache.pins i = 0) ∧
      Pinned { s with log := l, copied := 0, installed := 0, job := job } := by
  have hlength : l.header.length = 0 := by
    rw [Invariant.commit_log hs]
    rfl
  have hpins (i : BufferIndex) : s.cache.pins i = 0 := hp.zero i (none_owed h hphase i)
  refine ⟨hlength, hpins, fun i hi => ?_, fun i _ => hpins i⟩
  obtain ⟨-, t, ht, -⟩ := hi
  rw [hlength] at ht
  exact absurd ht (Nat.not_lt_zero t)

/-- `destination_buffer.write()`: the entry is installed, and its pin remains. -/
theorem writeHome (hp : Pinned s) (h : Invariant s) {t : ℕ} {i j : BufferIndex}
    (hphase : s.log.phase p = .commiting .install) (hjob : s.job p = .writeHome t i j) :
    Pinned ({ s.write j with installed := t + 1 }.setJob p (.unpin t i j)) := by
  have hinstalled : s.installed = t := by
    have := (h.jobs p _ hphase).1.2.2
    rw [hjob] at this
    exact this
  refine hp.congr rfl (owed_congr (fun _ => ⟨rfl, rfl⟩) ⟨rfl, rfl, rfl⟩ (fun u => ?_))
  have hnone (q : π) (hq : UnpinsAt s q u) : False := by
    obtain rfl := h.alone hphase hq.2
    obtain ⟨a, b, hab⟩ := hq.1
    rw [hjob] at hab
    cases hab
  constructor
  · rintro (hle | ⟨q, ⟨a, b, hab⟩, hq⟩)
    · simp only [State.setJob] at hle
      exact .inl (by omega)
    · obtain rfl := h.alone hphase hq
      simp only [State.setJob, Function.update_self, Job.unpin.injEq] at hab
      exact .inl (by omega)
  · rintro (hle | ⟨q, hq⟩)
    · by_cases hu : u = t
      · subst hu
        exact .inr ⟨p, ⟨i, j, by simp [State.setJob]⟩, hphase⟩
      · refine .inl ?_
        simp only [State.setJob]
        omega
    · exact absurd hq (fun hq => hnone q hq)

/-- `destination_buffer.unpin()` takes away the one pin of the entry. -/
theorem unpin (hp : Pinned s) (h : Invariant s) {t : ℕ} {i j : BufferIndex}
    (hphase : s.log.phase p = .commiting .install) (hjob : s.job p = .unpin t i j)
    (hs : (s.onCache (.unpin p j)).map (fun s' => s'.setJob p (.releaseSecond t i j)) =
      some s') : Pinned s' := by
  obtain ⟨s₁, hs₁, rfl⟩ := Option.map_eq_some_iff.mp hs
  obtain ⟨c, hc, rfl⟩ := Option.map_eq_some_iff.mp hs₁
  obtain ⟨hslots, -, -, hpins⟩ := unpin_eq hc
  obtain ⟨hstage, hok⟩ := h.jobs p _ hphase
  rw [hjob] at hstage hok
  obtain ⟨ht, -, hclean, -⟩ := hok
  have hinstalled : s.installed = t + 1 := hstage.2.2
  have hj : Owed s j := ⟨hclean.valid, t, ht, .inr ⟨p, ⟨i, j, hjob⟩, hphase⟩, hclean.block⟩
  have howed (k : BufferIndex) :
      Owed (State.setJob { s with cache := c } p (.releaseSecond t i j)) k ↔
        Owed s k ∧ k ≠ j := by
    have hwaits (u : ℕ) : Waits (State.setJob { s with cache := c } p (.releaseSecond t i j)) u ↔
        s.installed ≤ u := by
      refine ⟨fun hw => hw.resolve_right ?_, .inl⟩
      rintro ⟨q, ⟨a, b, hab⟩, hq⟩
      obtain rfl := h.alone hphase hq
      simp only [State.setJob, Function.update_self] at hab
      cases hab
    constructor
    · rintro ⟨hv, u, hu, hw, hb⟩
      have hle := (hwaits u).mp hw
      refine ⟨⟨(hslots.slots k).2.symm.trans hv, u, hu, .inl hle,
        (hslots.slots k).1.symm.trans hb⟩, ?_⟩
      rintro rfl
      have hsame := h.home_inj ht hu (hclean.block.symm.trans ((hslots.slots k).1.symm.trans hb))
      omega
    · rintro ⟨⟨hv, u, hu, hw, hb⟩, hne⟩
      refine ⟨(hslots.slots k).2.trans hv, u, hu, (hwaits u).mpr ?_, (hslots.slots k).1.trans hb⟩
      obtain hle | ⟨q, ⟨a, b, hab⟩, hq⟩ := hw
      · exact hle
      · obtain rfl := h.alone hphase hq
        rw [hjob] at hab
        cases hab
        exact absurd (h.returned_unique (h.used k hv) (h.used j hclean.valid)
          (hb.trans hclean.block.symm)) hne
  refine ⟨fun k hk => ?_, fun k hk => ?_⟩
  · obtain ⟨ho, hne⟩ := (howed k).mp hk
    simp only [State.setJob, hpins, Function.update_of_ne hne]
    exact hp.one k ho
  · simp only [State.setJob, hpins]
    by_cases hkj : k = j
    · subst hkj
      rw [Function.update_self, hp.one k hj]
    · rw [Function.update_of_ne hkj]
      exact hp.zero k (fun ho => hk ((howed k).mpr ⟨ho, hkj⟩))

theorem commit (hp : Pinned s) (h : Invariant s) {stage : LogGroup.Stage}
    (hphase : s.log.phase p = .commiting stage) (hs : s.commit p stage (s.job p) = some s') :
    Pinned s' := by
  have hstage {t : ℕ} (hne : stage ≠ .install) : ¬ UnpinsAt s p t :=
    not_unpinsAt_stage hphase hne
  generalize hjob : s.job p = job at hs
  have hold {t : ℕ} (hne : ∀ t i j, job ≠ .unpin t i j) : ¬ UnpinsAt s p t :=
    not_unpinsAt (by rw [hjob]; exact hne)
  unfold State.commit at hs
  split at hs
  · refine hp.nextStage _ hs nofun (fun _ => hstage nofun) (fun s' t i j => ?_)
    split <;> nofun
  next t =>
    split at hs
    · cases hs
    · exact hp.nextStage (fun _ => .header) hs nofun (fun _ => hold nofun) (fun _ => nofun)
  next t i j =>
    obtain rfl := Option.some.inj hs
    exact hp.ofJob (.writeLog t i j) rfl (fun _ => ⟨rfl, rfl⟩) rfl rfl rfl rfl rfl
      (fun _ => hold nofun) nofun
  next t i j =>
    obtain rfl := Option.some.inj hs
    exact hp.ofJob (.releaseSecond t i j) rfl (fun _ => ⟨rfl, rfl⟩) rfl rfl rfl rfl rfl
      (fun _ => hold nofun) nofun
  next t =>
    split at hs
    · cases hs
    · exact hp.nextStage (fun _ => .idle) hs nofun (fun _ => hold nofun) (fun _ => nofun)
  next t i j =>
    obtain rfl := Option.some.inj hs
    exact hp.ofJob (.writeHome t i j) rfl (fun _ => ⟨rfl, rfl⟩) rfl rfl rfl rfl rfl
      (fun _ => hold nofun) nofun
  next t i j =>
    obtain rfl := Option.some.inj hs
    exact hp.writeHome h hphase hjob
  next t i j => exact hp.unpin h hphase hjob hs
  · obtain ⟨s₁, hs₁, rfl⟩ := Option.map_eq_some_iff.mp hs
    obtain ⟨l, hl, -, rfl⟩ := onLog_eq hs₁
    exact (hp.clear h hphase hl).2.2
  · exact hp.nextStage (fun _ => .first 0) hs nofun (fun _ => hstage nofun) (fun _ => nofun)
  · exact hp.nextStage (fun _ => .idle) hs nofun (fun _ => hstage nofun) (fun _ => nofun)
  next t i j _ _ =>
    exact hp.onCacheJob (.releaseFirst t i)
      (fun c hc => ⟨(release_eq hc).1, (release_eq hc).2.1⟩) (fun _ => hold nofun) nofun hs
  next t i _ _ =>
    exact hp.onCacheJob (.first (t + 1))
      (fun c hc => ⟨(release_eq hc).1, (release_eq hc).2.1⟩) (fun _ => hold nofun) nofun hs
  next i _ _ =>
    obtain rfl := Option.some.inj hs
    exact hp.ofJob (.headerWrite i) rfl (fun _ => ⟨rfl, rfl⟩) rfl rfl rfl rfl rfl
      (fun _ => hold nofun) nofun
  next i _ _ =>
    obtain rfl := Option.some.inj hs
    exact hp.ofJob (.headerRelease i) rfl (fun _ => ⟨rfl, rfl⟩) rfl rfl rfl rfl rfl
      (fun _ => hold nofun) nofun
  next i _ _ =>
    exact hp.onCacheJob .headerDone
      (fun c hc => ⟨(release_eq hc).1, (release_eq hc).2.1⟩) (fun _ => hold nofun) nofun hs
  · cases hs

theorem step (hp : Pinned s) (h : Invariant s) {e : Event π}
    (hs : LoggedCache.step s e = some s') : Pinned s' := by
  cases e with
  | read p b =>
    simp only [LoggedCache.step, Option.ite_none_right_eq_some] at hs
    exact hp.read h hs.2
  | acquire p => exact hp.onCache (fun c hc => ⟨(acquire_eq hc).1, (acquire_eq hc).2.1⟩) hs
  | returns p => exact hp.returns h hs
  | store p i d =>
    simp only [LoggedCache.step, Option.ite_none_right_eq_some, Option.some.injEq] at hs
    obtain ⟨-, rfl⟩ := hs
    exact hp.keep rfl (fun _ => ⟨rfl, rfl⟩) ⟨rfl, rfl, rfl⟩ rfl rfl (fun _ => Iff.rfl)
  | logWrite p i =>
    simp only [LoggedCache.step, Option.ite_none_right_eq_some] at hs
    obtain ⟨⟨hfree, hh, hb⟩, hs⟩ := hs
    exact hp.logWrite h hfree hh hb hs
  | release p i =>
    simp only [LoggedCache.step, Option.ite_none_right_eq_some] at hs
    exact hp.onCache (fun c hc => ⟨(release_eq hc).1, (release_eq hc).2.1⟩) hs.2
  | drop p => exact hp.onCache (fun c hc => ⟨(drop_eq hc).1, (drop_eq hc).2.1⟩) hs
  | log p action =>
    simp only [LoggedCache.step, Option.ite_none_right_eq_some] at hs
    obtain ⟨-, hs⟩ := hs
    split at hs
    · cases hs
    · cases hs
    next hwrite hcommit =>
      exact hp.logAction (fun number he => hwrite number he) (fun stage he => hcommit stage he) hs
  | commit p =>
    simp only [LoggedCache.step, Option.ite_none_right_eq_some] at hs
    obtain ⟨-, hs⟩ := hs
    split at hs
    next stage hphase => exact hp.commit h hphase hs
    · cases hs

end Pinned

/-! ## Runs -/

omit [Fintype π] in
/-- The blocks that were passed to `log.write` and not cleared since. -/
def record (s : State π) (e : Event π) (blocks : List ℕ) : List ℕ :=
  match e with
  | .logWrite _ i => (s.block i).number :: blocks
  | .commit p => if s.log.phase p = .commiting .clear then [] else blocks
  | _ => blocks

omit [Fintype π] in
/-- Only `log.write` and the end of a commit change the header. -/
theorem commit_header {stage : LogGroup.Stage} (hphase : s.log.phase p = .commiting stage)
    (hs : s.commit p stage (s.job p) = some s') :
    stage = .clear ∧ s'.log.header.length = 0 ∨
      stage ≠ .clear ∧ s'.log.header = s.log.header := by
  by_cases hclear : stage = .clear
  · subst hclear
    refine .inl ⟨rfl, ?_⟩
    obtain ⟨s₁, hs₁, rfl⟩ := Option.map_eq_some_iff.mp hs
    obtain ⟨l, hl, -, rfl⟩ := onLog_eq hs₁
    simp only [State.setJob]
    rw [Invariant.commit_log hl]
    rfl
  refine .inr ⟨hclear, ?_⟩
  have hlog (job : State π → Job)
      (hs : (s.onLog (p, .commit stage)).map (fun s' => s'.setJob p (job s')) = some s') :
      s'.log.header = s.log.header := by
    obtain ⟨s₁, hs₁, rfl⟩ := Option.map_eq_some_iff.mp hs
    obtain ⟨l, hl, -, rfl⟩ := onLog_eq hs₁
    exact Pinned.header_eq hl (fun _ => by simp)
      (fun he => hclear (LogGroup.Action.commit.inj he))
  have hcache {e : BufferCache.Event π} {job : Job}
      (hs : (s.onCache e).map (fun s' => s'.setJob p job) = some s') :
      s'.log.header = s.log.header := by
    obtain ⟨s₁, hs₁, rfl⟩ := Option.map_eq_some_iff.mp hs
    obtain ⟨c, -, rfl⟩ := Option.map_eq_some_iff.mp hs₁
    rfl
  unfold State.commit at hs
  split at hs
  · exact hlog _ hs
  · split at hs
    · cases hs
    · exact hlog (fun _ => .header) hs
  · obtain rfl := Option.some.inj hs
    rfl
  · obtain rfl := Option.some.inj hs
    rfl
  · split at hs
    · cases hs
    · exact hlog (fun _ => .idle) hs
  · obtain rfl := Option.some.inj hs
    rfl
  · obtain rfl := Option.some.inj hs
    rfl
  · exact hcache hs
  · exact absurd rfl hclear
  · exact hlog (fun _ => .first 0) hs
  · exact hlog (fun _ => .idle) hs
  · exact hcache hs
  · exact hcache hs
  · obtain rfl := Option.some.inj hs
    rfl
  · obtain rfl := Option.some.inj hs
    rfl
  · exact hcache hs
  · cases hs

omit [Fintype π] in
/-- What a step does to the header. -/
theorem header_cases {e : Event π} (hs : step s e = some s') :
    (∃ p i, e = .logWrite p i ∧ s'.log = LogGroup.write s.log (s.block i).number ∧
      s'.log.panicked = none) ∨
    (∃ p, e = .commit p ∧ s.log.phase p = .commiting .clear ∧ s'.log.header.length = 0) ∨
    s'.log.header = s.log.header ∧ ∀ blocks, record s e blocks = blocks := by
  have hcache {e : BufferCache.Event π} (hs : s.onCache e = some s') :
      s'.log.header = s.log.header := by
    obtain ⟨c, -, rfl⟩ := Option.map_eq_some_iff.mp hs
    rfl
  cases e with
  | read p b =>
    simp only [step, Option.ite_none_right_eq_some] at hs
    obtain ⟨s₁, hs₁, hs⟩ := Option.bind_eq_some_iff.mp hs.2
    obtain ⟨c, -, rfl⟩ := Option.map_eq_some_iff.mp hs₁
    split at hs
    · obtain rfl := Option.some.inj hs
      exact .inr (.inr ⟨rfl, fun _ => rfl⟩)
    · cases hs
  | acquire p => exact .inr (.inr ⟨hcache hs, fun _ => rfl⟩)
  | returns p =>
    simp only [step, State.returns] at hs
    split at hs
    next b i hr =>
      simp only [Option.ite_none_right_eq_some, Option.some.injEq] at hs
      obtain ⟨-, rfl⟩ := hs
      refine .inr (.inr ⟨?_, fun _ => rfl⟩)
      simp only [State.setJob, State.setReading]
      split <;> rfl
    · cases hs
  | store p i d =>
    simp only [step, Option.ite_none_right_eq_some, Option.some.injEq] at hs
    obtain ⟨-, rfl⟩ := hs
    exact .inr (.inr ⟨rfl, fun _ => rfl⟩)
  | logWrite p i =>
    simp only [step, Option.ite_none_right_eq_some] at hs
    obtain ⟨s₁, hs₁, hs⟩ := Option.bind_eq_some_iff.mp hs.2
    obtain ⟨l, hl, hn, rfl⟩ := onLog_eq hs₁
    have hwrite : l = LogGroup.write s.log (s.block i).number := by
      obtain ⟨-, ⟨h, -⟩ | ⟨h, -⟩ | ⟨h, -⟩ | ⟨number, hnum, -, heq⟩ | ⟨h, -⟩ | ⟨stage, h, -⟩⟩ :=
        LogGroup.step_cases hl
      case inr.inr.inr.inl =>
        cases hnum
        exact heq
      all_goals cases h
    subst hwrite
    simp only at hs
    split at hs
    · obtain rfl := Option.some.inj hs
      exact .inl ⟨p, i, rfl, rfl, hn⟩
    · obtain ⟨c, -, rfl⟩ := Option.map_eq_some_iff.mp hs
      exact .inl ⟨p, i, rfl, rfl, hn⟩
  | release p i =>
    simp only [step, Option.ite_none_right_eq_some] at hs
    exact .inr (.inr ⟨hcache hs.2, fun _ => rfl⟩)
  | drop p => exact .inr (.inr ⟨hcache hs, fun _ => rfl⟩)
  | log p action =>
    simp only [step, Option.ite_none_right_eq_some] at hs
    obtain ⟨-, hs⟩ := hs
    split at hs
    · cases hs
    · cases hs
    next hwrite hcommit =>
      obtain ⟨l, hl, -, rfl⟩ := onLog_eq hs
      exact .inr (.inr ⟨Pinned.header_eq hl (fun number he => hwrite number he)
        (fun he => hcommit _ he), fun _ => rfl⟩)
  | commit p =>
    simp only [step, Option.ite_none_right_eq_some] at hs
    obtain ⟨-, hs⟩ := hs
    split at hs
    next stage hphase =>
      obtain ⟨rfl, hlength⟩ | ⟨hclear, hheader⟩ := commit_header hphase hs
      · exact .inr (.inl ⟨p, rfl, hphase, hlength⟩)
      · refine .inr (.inr ⟨hheader, fun _ => if_neg ?_⟩)
        rw [hphase]
        exact fun he => hclear (LogGroup.Phase.commiting.inj he)
    · cases hs

/-- The header lists the blocks that were written. -/
def Lists (s : State π) (blocks : List ℕ) : Prop := ∀ b, b ∈ s.log.logged ↔ b ∈ blocks

omit [Fintype π] in
theorem Lists.step {e : Event π} {blocks : List ℕ} (h : Lists s blocks)
    (hs : LoggedCache.step s e = some s') : Lists s' (record s e blocks) := by
  obtain ⟨p, i, rfl, hlog, hn⟩ | ⟨p, rfl, hphase, hlength⟩ | ⟨hheader, hrecord⟩ := header_cases hs
  · intro b
    rw [hlog] at hn ⊢
    have hfits : s.log.header.length < logSize ∧ s.log.header.length < sub32 s.log.size 1 ∧
        1 ≤ s.log.outstanding := by
      unfold LogGroup.write at hn
      split at hn
      · cases hn
      next hfull =>
        split at hn
        · cases hn
        · omega
    simp only [record, List.mem_cons, ← h b]
    obtain ⟨hin, heq⟩ | ⟨-, hlogged, -⟩ := LogGroup.write_spec s.log (s.block i).number hfits.1
      hfits.2.1 hfits.2.2
    · rw [heq]
      refine ⟨.inr, ?_⟩
      rintro (rfl | hb)
      · exact hin
      · exact hb
    · rw [hlogged, List.mem_append, List.mem_singleton, or_comm]
  · intro b
    simp only [record, if_pos hphase, List.not_mem_nil, iff_false]
    rw [LogGroup.mem_logged]
    rintro ⟨t, ht, -⟩
    omega
  · intro b
    rw [hrecord, ← h b]
    simp only [LogGroup.State.logged, hheader]

/-- After recovery, with no pin left. -/
structure State.Booted (s : State π) : Prop extends s.Initial where
  pins : ∀ i, s.cache.pins i = 0

end Zigmaos.LoggedCache
