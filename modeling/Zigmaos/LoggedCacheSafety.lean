import Zigmaos.LoggedCacheSteps

/-!
# No update is lost through the cache

The steps of `commit`, which find in the log what they have to install, and the
runs of all processes.
-/
namespace Zigmaos.LoggedCache
open FileSystem BufferCache WriteBack

variable {π : Type} [Fintype π] {s s' : State π} {p q : π}

omit [Fintype π] in
/-- A job of the same loop with as many turns done. -/
theorem StageOk.job {job job' : Job} {stage : LogGroup.Stage} (h : StageOk s job stage)
    (hloop : job'.isLoop = job.isLoop) (hheader : job'.isHeader = job.isHeader)
    (hdone : job'.done = job.done) : StageOk s job' stage := by
  cases stage <;> simpa only [StageOk, hloop, hheader, hdone] using h

namespace Invariant

/-- What is held cleanly and in neither the header nor the log area is not dirty. -/
theorem log_not_dirty (h : Invariant s) {i : BufferIndex} {t : ℕ} (ht : t < s.log.header.length)
    (hi : Clean s p i (s.logBlock t)) : ¬ Dirty s i := by
  rintro (hm | ⟨u, -, hu, hb⟩)
  · rw [hi.modified] at hm
    cases hm
  · exact h.home_ne_log hu ht (hb.symm.trans hi.block)

/-- The log block that is installed holds what was stored last. -/
theorem log_eq_home (h : Invariant s) {i j : BufferIndex} {t : ℕ} (ht : t < s.log.header.length)
    (hc : t < s.copied) (hi : Clean s p i (s.logBlock t)) (hj : Clean s p j (s.homeBlock t)) :
    s.data i = s.data j := by
  have hlog := h.coherent.disk_eq hi.valid (h.log_not_dirty ht hi)
  have hdi : s.data i = s.contents (s.block i) := h.coherent.cached i hi.valid
  have hdj : s.data j = s.contents (s.block j) := h.coherent.cached j hj.valid
  rw [hi.block] at hlog hdi
  rw [hj.block] at hdj
  obtain heq | ⟨k, hb, hm⟩ := h.copies t hc
  · rw [hdi, hdj, ← hlog, heq]
  · have hkj := h.coherent.unique k j (h.modified k hm).1 hj.valid (hb.trans hj.block.symm)
    rw [hkj, hj.modified] at hm
    cases hm

theorem ne_of_block (h : Invariant s) {i j : BufferIndex} {t : ℕ} (ht : t < s.log.header.length)
    (hi : Holds s p i (s.logBlock t)) (hj : Holds s p j (s.homeBlock t)) : j ≠ i := by
  rintro rfl
  exact h.home_ne_log ht ht (hj.block.symm.trans hi.block)

variable [DecidableEq π]

/-- Only the job moves on. -/
theorem setJob (h : Invariant s) {stage : LogGroup.Stage} {job : Job}
    (hp : s.log.phase p = .commiting stage) (hr : s.reading p = none)
    (hjob : StageOk s job stage ∧ JobOk s p job) : Invariant (s.setJob p job) := by
  obtain ⟨l, hl⟩ := h.cache
  refine h.ofSlots (c := s.cache) (Function.update s.job p job) h.cache
    ⟨rfl, fun _ => ⟨rfl, rfl⟩⟩ (fun q b i hq => (h.reading q b i hq).2) h.waiting
    (fun q b i hq _ => Function.update_of_ne ?_ _ _) h.held (fun i hi => (h.modified i hi).2)
    (fun _ _ _ _ _ hi => hi) (fun q stage' hq => ?_) (fun q hq => ?_)
  · rintro rfl
    rw [hr] at hq
    cases hq
  · obtain rfl := h.alone hp hq
    rw [hp] at hq
    cases hq
    rw [Function.update_self]
    refine ⟨hjob.1.congr ⟨rfl, rfl, rfl⟩ rfl rfl, hjob.2.kept ?_ ⟨rfl, rfl, rfl⟩⟩
    exact ⟨fun _ hj => hj, fun _ _ hv => hv, fun _ _ => rfl, fun _ _ _ => rfl, fun _ _ => rfl,
      fun _ _ hj => hj⟩
  · have hqp : q ≠ p := by
      rintro rfl
      exact not_commiting hq stage hp
    rw [Function.update_of_ne hqp]
    exact h.idle q hq

variable {i j : BufferIndex} {t : ℕ} {stage : LogGroup.Stage}

/-- The release of a buffer as a step of the job. -/
theorem releaseJob (h : Invariant s) (job : Job) (hp : s.log.phase p = .commiting stage)
    (hr : s.reading p = none) (hclean : s.modified i = false)
    (hstage : StageOk s job stage)
    (hjob : ∀ c, SameSlots s.cache c → c.pins = s.cache.pins →
      (∀ j, j ≠ i → s.cache.holder j = some p → c.holder j = some p) →
      JobOk { s with cache := c, job := Function.update s.job p job } p job)
    (hs : (s.onCache (.release p i)).map (fun s' => s'.setJob p job) = some s') :
    Invariant s' := by
  obtain ⟨s₁, hs₁, rfl⟩ := Option.map_eq_some_iff.mp hs
  obtain ⟨c, hc, rfl⟩ := Option.map_eq_some_iff.mp hs₁
  refine h.releaseWith (Function.update s.job p job) hc hr hclean
    (fun q hq => Function.update_of_ne hq _ _) (fun hkeep stage' hst => ?_)
    (fun hq => absurd hp (not_commiting hq stage))
  rw [hp] at hst
  cases hst
  rw [Function.update_self]
  obtain ⟨hslots, hpins, -⟩ := release_eq hc
  exact ⟨hstage.congr ⟨rfl, rfl, rfl⟩ rfl rfl, hjob c hslots hpins hkeep⟩

/-- The turn of `writeLog` that copies a block into the log. -/
theorem copyToLog (h : Invariant s) (hp : s.log.phase p = .commiting .writeLog)
    (hr : s.reading p = none) (hstage : StageOk s (.copy t i j) .writeLog)
    (hjob : JobOk s p (.copy t i j)) :
    Invariant ((s.store i (s.data j)).setJob p (.writeLog t i j)) := by
  obtain ⟨ht, hi, hj⟩ := hjob
  have hji := h.ne_of_block ht hi.toHolds hj.toHolds
  refine h.storeWith (Function.update s.job p (.writeLog t i j)) hi.valid hi.holder hr
    (fun q hq => Function.update_of_ne hq _ _) (fun stage' hst => ?_)
    (fun hq => absurd hp (not_commiting hq _))
  rw [hp] at hst
  cases hst
  rw [Function.update_self]
  refine ⟨hstage, ht, ⟨hi.holder, hi.valid, hi.block⟩, ⟨⟨hj.holder, hj.valid, hj.block⟩, ?_⟩, ?_⟩
  · exact (Function.update_of_ne hji _ _).trans hj.modified
  · change Function.update s.data i (s.data j) i = Function.update s.data i (s.data j) j
    rw [Function.update_self, Function.update_of_ne hji]

/-- The turn of `writeLog` that writes the log block. -/
theorem writeToLog (h : Invariant s) (hp : s.log.phase p = .commiting .writeLog)
    (hr : s.reading p = none) (hstage : StageOk s (.writeLog t i j) .writeLog)
    (hjob : JobOk s p (.writeLog t i j)) :
    Invariant ({ s.write i with copied := t + 1 }.setJob p (.releaseSecond t i j)) := by
  obtain ⟨ht, hi, hj, hdata⟩ := hjob
  obtain ⟨-, hcopied, hinstalled⟩ := hstage
  simp only [Job.done] at hcopied
  have hji := h.ne_of_block ht hi hj.toHolds
  have hmod : ∀ k, k ≠ i → (s.write i).modified k = s.modified k :=
    fun k hk => Function.update_of_ne hk _ _
  refine h.writeWith (i := i) (Function.update s.job p (.releaseSecond t i j))
    (t + 1) s.installed hp hi.valid le_rfl (fun u _ _ => by omega)
    (fun u hu => ?_) (fun q hq => Function.update_of_ne hq _ _) hr ?_
  · by_cases hut : u = t
    · subst hut
      refine .inl ?_
      have hdj : s.data j = s.contents (s.block j) := h.coherent.cached j hj.valid
      simp only [State.write, hi.block, Function.update_self]
      rw [hdata, hdj, hj.block]
    · have hne : s.logBlock u ≠ s.block i := by
        rw [hi.block]
        exact fun heq => hut (logBlock_inj heq)
      refine (h.copies u (by omega)).imp (Function.update_of_ne hne _ _).trans ?_
      rintro ⟨k, hb, hm⟩
      refine ⟨k, hb, (hmod k ?_).trans hm⟩
      rintro rfl
      exact h.home_ne_log (by omega) ht (hb.symm.trans hi.block)
  · rw [Function.update_self]
    refine ⟨⟨rfl, rfl, hinstalled⟩, ht, ⟨⟨hi.holder, hi.valid, hi.block⟩, Function.update_self ..⟩,
      ⟨hj.holder, hj.valid, hj.block⟩, ?_⟩
    exact (hmod j hji).trans hj.modified

/-- The turn of `installTransaction` that copies a block out of the log: the buffer has it. -/
theorem copyFromLog (h : Invariant s) (hp : s.log.phase p = .commiting .install)
    (hr : s.reading p = none) (hstage : StageOk s (.copy t i j) .install)
    (hjob : JobOk s p (.copy t i j)) :
    Invariant ({ s with data := Function.update s.data j (s.data i) }.setJob p (.writeHome t i j)) := by
  obtain ⟨ht, hi, hj⟩ := hjob
  have hdata := h.log_eq_home ht (hstage.2.1 ▸ ht) hi hj
  rw [hdata, Function.update_eq_self]
  exact h.setJob hp hr ⟨hstage, ht, hi, hj⟩

/-- The turn of `installTransaction` that writes the home block. -/
theorem writeHome (h : Invariant s) (hp : s.log.phase p = .commiting .install)
    (hr : s.reading p = none) (hstage : StageOk s (.writeHome t i j) .install)
    (hjob : JobOk s p (.writeHome t i j)) :
    Invariant ({ s.write j with installed := t + 1 }.setJob p (.unpin t i j)) := by
  obtain ⟨ht, hi, hj⟩ := hjob
  obtain ⟨-, hcopied, hinstalled⟩ := hstage
  simp only [Job.done] at hinstalled
  have hmod : ∀ k, s.modified k = true → (s.write j).modified k = true := by
    intro k hk
    refine (Function.update_of_ne ?_ _ _).trans hk
    rintro rfl
    rw [hj.modified] at hk
    cases hk
  have hji := h.ne_of_block ht hi.toHolds hj.toHolds
  refine h.writeWith (i := j) (Function.update s.job p (.unpin t i j)) s.copied
    (t + 1) hp hj.valid (by omega) (fun u hge hlt => ?_) (fun u hu => ?_)
    (fun q hq => Function.update_of_ne hq _ _) hr ?_
  · rw [show u = t by omega, hj.block]
  · have hne : s.logBlock u ≠ s.block j := by
      rw [hj.block]
      exact (h.home_ne_log ht (hcopied ▸ hu)).symm
    refine (h.copies u hu).imp (Function.update_of_ne hne _ _).trans ?_
    rintro ⟨k, hb, hm⟩
    exact ⟨k, hb, hmod k hm⟩
  · rw [Function.update_self]
    obtain ⟨k, hk, hb, hpin⟩ := h.pinned t (by omega) ht
    have hkj := h.coherent.unique k j hk hj.valid (hb.trans hj.block.symm)
    rw [hkj] at hpin
    refine ⟨⟨rfl, hcopied, rfl⟩, ht, ⟨⟨hi.holder, hi.valid, hi.block⟩, ?_⟩,
      ⟨⟨hj.holder, hj.valid, hj.block⟩, Function.update_self ..⟩, hpin⟩
    exact (Function.update_of_ne hji.symm _ _).trans hi.modified

/-- The home block of this turn is installed, and its pin goes. -/
theorem unpinHome (h : Invariant s) (hp : s.log.phase p = .commiting .install)
    (hr : s.reading p = none) (hstage : StageOk s (.unpin t i j) .install)
    (hjob : JobOk s p (.unpin t i j))
    (hs : (s.onCache (.unpin p j)).map (fun s' => s'.setJob p (.releaseSecond t i j)) = some s') :
    Invariant s' := by
  obtain ⟨ht, hi, hj, -⟩ := hjob
  obtain ⟨s₁, hs₁, rfl⟩ := Option.map_eq_some_iff.mp hs
  obtain ⟨c, hc, rfl⟩ := Option.map_eq_some_iff.mp hs₁
  obtain ⟨l, hl⟩ := h.cache
  obtain ⟨hslots, hholder, hphase, hpins⟩ := unpin_eq hc
  have hinstalled : s.installed = t + 1 := hstage.2.2
  refine h.ofSlots (Function.update s.job p (.releaseSecond t i j)) (invariant_step hl hc)
    hslots (fun q b k hq => ?_) (fun q k hq => h.waiting q k (hphase ▸ hq))
    (fun q b k hq _ => Function.update_of_ne ?_ _ _) (fun k q hq => h.held k q (hholder ▸ hq))
    (fun k hk => ?_) (fun u k hge hu hb hk => ?_) (fun q stage' hq => ?_) (fun q hq => ?_)
  · rw [hphase, hholder]
    exact (h.reading q b k hq).2
  · rintro rfl
    rw [hr] at hq
    cases hq
  · rw [hholder]
    exact (h.modified k hk).2
  · rw [hpins, Function.update_of_ne]
    · exact hk
    · rintro rfl
      have := h.home_inj hu ht (hb.symm.trans hj.block)
      omega
  · obtain rfl := h.alone hp hq
    rw [hp] at hq
    cases hq
    rw [Function.update_self]
    have hsame : ∀ {k b job}, Clean s q k b → Clean { s with cache := c, job := job } q k b :=
      fun {k b job} hk =>
        ⟨⟨(congrFun hholder k).trans hk.holder, (hslots.slots k).2.trans hk.valid,
          (hslots.slots k).1.trans hk.block⟩, hk.modified⟩
    exact ⟨hstage, ht, hsame hi, hsame hj⟩
  · have hqp : q ≠ p := by
      rintro rfl
      exact not_commiting hq _ hp
    rw [Function.update_of_ne hqp]
    exact h.idle q hq

/-- The header goes into its buffer. -/
theorem copyHeader (h : Invariant s) (d : Block) (hp : s.log.phase p = .commiting stage)
    (hr : s.reading p = none) (hstage : StageOk s (.headerCopy i) stage)
    (hjob : JobOk s p (.headerCopy i)) :
    Invariant ((s.store i d).setJob p (.headerWrite i)) := by
  refine h.storeWith (Function.update s.job p (.headerWrite i)) hjob.valid hjob.holder hr
    (fun q hq => Function.update_of_ne hq _ _) (fun stage' hst => ?_)
    (fun hq => absurd hp (not_commiting hq _))
  rw [hp] at hst
  cases hst
  rw [Function.update_self]
  exact ⟨(hstage.job rfl rfl rfl).congr ⟨rfl, rfl, rfl⟩ rfl rfl,
    ⟨hjob.holder, hjob.valid, hjob.block⟩⟩

/-- The header block is written. -/
theorem writeHeader (h : Invariant s) (hp : s.log.phase p = .commiting stage)
    (hr : s.reading p = none) (hstage : StageOk s (.headerWrite i) stage)
    (hjob : JobOk s p (.headerWrite i)) :
    Invariant ((s.write i).setJob p (.headerRelease i)) := by
  refine h.writeWith (i := i) (Function.update s.job p (.headerRelease i))
    s.copied s.installed hp hjob.valid le_rfl (fun u _ _ => by omega)
    (fun u hu => ?_) (fun q hq => Function.update_of_ne hq _ _) hr ?_
  · have hne : s.logBlock u ≠ s.block i := by
      rw [hjob.block]
      exact logBlock_ne_header
    refine (h.copies u hu).imp (Function.update_of_ne hne _ _).trans
      fun ⟨k, hb, hm⟩ => ⟨k, hb, (Function.update_of_ne ?_ _ _).trans hm⟩
    rintro rfl
    exact h.home_ne_header (hu.trans_le h.copied_le) (hb.symm.trans hjob.block)
  · rw [Function.update_self]
    exact ⟨(hstage.job rfl rfl rfl).congr ⟨rfl, rfl, rfl⟩ rfl rfl,
      ⟨hjob.holder, hjob.valid, hjob.block⟩, Function.update_self ..⟩

/-! ## From one stage to the next -/

omit [Fintype π] in
theorem commit_log {l : LogGroup.State π}
    (hl : LogGroup.step s.log (p, .commit stage) = some l) :
    l = LogGroup.commitStage s.log p stage := by
  obtain ⟨-, ⟨h, -⟩ | ⟨h, -⟩ | ⟨h, -⟩ | ⟨number, h, -⟩ | ⟨h, -⟩ | ⟨stage', h, -, heq⟩⟩ :=
    LogGroup.step_cases hl
  case inr.inr.inr.inr.inr =>
    cases h
    exact heq
  all_goals cases h

theorem nextStage (h : Invariant s) {next : LogGroup.Stage} {job : Job}
    {l : LogGroup.State π} (hl : LogGroup.step s.log (p, .commit stage) = some l)
    (hn : l.panicked = none) (hr : s.reading p = none)
    (hnext : l = s.log.setPhase p (.commiting next)) (hjob : StageOk s job next ∧ JobOk s p job) :
    Invariant ({ s with log := l }.setJob p job) := by
  have hphase : l.phase p = .commiting next := by
    rw [hnext]
    exact Function.update_self ..
  have hheader : l.header = s.log.header := by
    rw [hnext]
    rfl
  refine h.ofLog (Function.update s.job p job) hl hn hheader hr
    (fun q hq => Function.update_of_ne hq _ _) (fun stage' hst => ?_)
    (fun hnone => absurd hphase (hnone next)) (fun hnone => absurd hphase (hnone p next))
  rw [hphase] at hst
  cases hst
  rw [Function.update_self]
  refine ⟨hjob.1.congr ⟨hheader, rfl, rfl⟩ rfl rfl, hjob.2.kept ?_ ⟨hheader, rfl, rfl⟩⟩
  exact ⟨fun _ hj => hj, fun _ _ hv => hv, fun _ _ => rfl, fun _ _ _ => rfl, fun _ _ => rfl,
    fun _ _ hj => hj⟩

theorem check (h : Invariant s) {l : LogGroup.State π}
    (hl : LogGroup.step s.log (p, .commit .check) = some l) (hn : l.panicked = none)
    (hr : s.reading p = none) (hstage : s.copied = 0 ∧ s.installed = 0) :
    Invariant ({ s with log := l }.setJob p
      (if l.phase p = LogGroup.Phase.commiting .writeLog then .first 0 else .headerDone)) := by
  have heq := commit_log hl
  simp only [LogGroup.commitStage] at heq
  by_cases hlen : s.log.header.length > 0
  · rw [if_pos hlen] at heq
    rw [if_pos (by rw [heq]; exact Function.update_self ..)]
    exact h.nextStage hl hn hr heq ⟨⟨rfl, hstage.1, hstage.2⟩, Nat.zero_le _⟩
  · rw [if_neg hlen] at heq
    have hphase : l.phase p = .commiting .finish := by
      rw [heq]
      exact Function.update_self ..
    rw [if_neg (by rw [hphase]; simp)]
    exact h.nextStage hl hn hr heq ⟨⟨rfl, hstage.1, hstage.2⟩, trivial⟩

theorem finish (h : Invariant s) {l : LogGroup.State π}
    (hl : LogGroup.step s.log (p, .commit .finish) = some l) (hn : l.panicked = none)
    (hr : s.reading p = none) (hstage : s.copied = 0 ∧ s.installed = 0) :
    Invariant ({ s with log := l }.setJob p .idle) := by
  have heq := commit_log hl
  have hphase : l.phase p = .outside := by
    rw [heq]
    exact Function.update_self ..
  refine h.ofLog (Function.update s.job p .idle) hl hn (by rw [heq]; rfl) hr
    (fun q hq => Function.update_of_ne hq _ _) (fun stage' hst => ?_)
    (fun _ => Function.update_self ..) (fun _ => hstage)
  rw [hphase] at hst
  cases hst

/-- All is installed: the header is emptied. -/
theorem clear (h : Invariant s) {l : LogGroup.State π} (hp : s.log.phase p = .commiting .clear)
    (hl : LogGroup.step s.log (p, .commit .clear) = some l) (hn : l.panicked = none)
    (hr : s.reading p = none) (hstage : s.installed = s.log.header.length) :
    Invariant ({ s with log := l, copied := 0, installed := 0 }.setJob p .header) := by
  have heq := commit_log hl
  have hlen : l.header.length = 0 := by
    rw [heq]
    rfl
  have hmoves := moves_step hl
  have hphase : l.phase p = .commiting .finish := by
    rw [heq]
    exact Function.update_self ..
  have halone : ∀ q stage, l.phase q = .commiting stage → q = p := by
    intro q stage hq
    by_contra hqp
    exact hqp (h.alone hp ((hmoves.others q hqp stage).mp hq))
  constructor
  case cache => exact h.cache
  case log =>
    obtain ⟨a, ha⟩ := h.log
    exact ⟨_, ha.step hl⟩
  case running => exact hn
  case room =>
    change l.header.length < l.size
    rw [hlen, hmoves.size]
    exact (Nat.zero_le _).trans_lt h.room
  case logged =>
    intro t (ht : t < l.header.length)
    omega
  case reading => exact h.reading
  case waiting => exact h.waiting
  case wants =>
    intro q b i hq hc
    obtain ⟨stage, hst⟩ := isCommiting_iff.mp hc
    obtain rfl := halone q stage hst
    exact absurd (hr.symm.trans hq) nofun
  case held => exact h.held
  case used => exact h.used
  case coherent =>
    refine h.coherent.mono fun i _ hd => ?_
    obtain hm | ⟨t, ht, hlt, -⟩ := hd
    · exact .inl hm
    · omega
  case modified => exact h.modified
  case pinned =>
    intro t _ (ht : t < l.header.length)
    omega
  case copies =>
    intro t (ht : t < 0)
    omega
  case jobs =>
    intro q stage hst
    obtain rfl := halone q stage hst
    have hst' : l.phase q = .commiting stage := hst
    rw [hphase] at hst'
    cases hst'
    simp only [State.setJob, Function.update_self]
    exact ⟨⟨rfl, rfl, rfl⟩, trivial⟩
  case idle =>
    intro q hq
    have hqp : q ≠ p := by
      rintro rfl
      exact not_commiting hq .finish hphase
    refine (Function.update_of_ne hqp _ _).trans (h.idle q ?_)
    by_contra hc
    obtain ⟨stage, hst⟩ := isCommiting_iff.mp (by simpa using hc)
    exact hqp (h.alone hp hst)
  case quiet => exact fun _ => ⟨rfl, rfl⟩

theorem commit (h : Invariant s) (hp : s.log.phase p = .commiting stage)
    (hr : s.reading p = none) (hs : s.commit p stage (s.job p) = some s') : Invariant s' := by
  obtain ⟨hstage, hjob⟩ := h.jobs p stage hp
  generalize s.job p = job at *
  unfold State.commit at hs
  split at hs
  · obtain ⟨s₁, hs₁, rfl⟩ := Option.map_eq_some_iff.mp hs
    obtain ⟨l, hl, hn, rfl⟩ := onLog_eq hs₁
    exact h.check hl hn hr hstage
  next t =>
    split at hs
    · cases hs
    next ht =>
      obtain ⟨s₁, hs₁, rfl⟩ := Option.map_eq_some_iff.mp hs
      obtain ⟨l, hl, hn, rfl⟩ := onLog_eq hs₁
      have hle : t ≤ s.log.header.length := hjob
      have hcopied : s.copied = t := hstage.2.1
      exact h.nextStage hl hn hr (commit_log hl) ⟨⟨rfl, by omega, hstage.2.2⟩, trivial⟩
  next t i j =>
    obtain rfl := Option.some.inj hs
    exact h.copyToLog hp hr hstage hjob
  next t i j =>
    obtain rfl := Option.some.inj hs
    exact h.writeToLog hp hr hstage hjob
  next t =>
    split at hs
    · cases hs
    next ht =>
      obtain ⟨s₁, hs₁, rfl⟩ := Option.map_eq_some_iff.mp hs
      obtain ⟨l, hl, hn, rfl⟩ := onLog_eq hs₁
      have hle : t ≤ s.log.header.length := hjob
      have hinstalled : s.installed = t := hstage.2.2
      exact h.nextStage hl hn hr (commit_log hl) ⟨⟨hstage.2.1, by omega⟩, trivial⟩
  next t i j =>
    obtain rfl := Option.some.inj hs
    exact h.copyFromLog hp hr hstage hjob
  next t i j =>
    obtain rfl := Option.some.inj hs
    exact h.writeHome hp hr hstage hjob
  next t i j => exact h.unpinHome hp hr hstage hjob hs
  · obtain ⟨s₁, hs₁, rfl⟩ := Option.map_eq_some_iff.mp hs
    obtain ⟨l, hl, hn, rfl⟩ := onLog_eq hs₁
    exact h.clear hp hl hn hr hstage.2
  · obtain ⟨s₁, hs₁, rfl⟩ := Option.map_eq_some_iff.mp hs
    obtain ⟨l, hl, hn, rfl⟩ := onLog_eq hs₁
    exact h.nextStage hl hn hr (commit_log hl)
      ⟨⟨rfl, hstage.2.1, hstage.2.2⟩, Nat.zero_le _⟩
  · obtain ⟨s₁, hs₁, rfl⟩ := Option.map_eq_some_iff.mp hs
    obtain ⟨l, hl, hn, rfl⟩ := onLog_eq hs₁
    exact h.finish hl hn hr hstage.2
  next t i j _ _ =>
    obtain ⟨ht, hi, hj⟩ := hjob
    have hji := h.ne_of_block ht hi.toHolds hj.toHolds
    refine h.releaseJob (.releaseFirst t i) hp hr hj.modified (hstage.job rfl rfl rfl)
      (fun c hslots _ hkeep => ?_) hs
    exact ⟨ht, ⟨hkeep i hji.symm hi.holder, (hslots.slots i).2.trans hi.valid,
      (hslots.slots i).1.trans hi.block⟩, hi.modified⟩
  next t i _ _ =>
    obtain ⟨ht, hi⟩ := hjob
    exact h.releaseJob (.first (t + 1)) hp hr hi.modified (hstage.job rfl rfl rfl)
      (fun _ _ _ _ => ht) hs
  next i _ _ =>
    obtain rfl := Option.some.inj hs
    exact h.copyHeader _ hp hr hstage hjob
  next i _ _ =>
    obtain rfl := Option.some.inj hs
    exact h.writeHeader hp hr hstage hjob
  next i _ _ =>
    have hi : Clean s p i s.headerBlock := hjob
    exact h.releaseJob .headerDone hp hr hi.modified (hstage.job rfl rfl rfl)
      (fun _ _ _ _ => trivial) hs
  · cases hs

theorem step (h : Invariant s) {e : Event π} (hs : LoggedCache.step s e = some s') :
    Invariant s' := by
  cases e with
  | read p b =>
    simp only [LoggedCache.step, Option.ite_none_right_eq_some] at hs
    exact h.read hs.1.1 hs.1.2 hs.2
  | acquire p => exact h.acquire hs
  | returns p => exact h.returns hs
  | store p i d =>
    simp only [LoggedCache.step, Option.ite_none_right_eq_some, Option.some.injEq] at hs
    obtain ⟨⟨hp, hh, -⟩, rfl⟩ := hs
    exact h.store d hp hh
  | logWrite p i =>
    simp only [LoggedCache.step, Option.ite_none_right_eq_some] at hs
    obtain ⟨⟨hp, hh, hb⟩, hs⟩ := hs
    exact h.logWrite hp hh hb hs
  | release p i =>
    simp only [LoggedCache.step, Option.ite_none_right_eq_some] at hs
    exact h.release hs.1.1 hs.1.2 hs.2
  | drop p => exact h.drop hs
  | log p action =>
    simp only [LoggedCache.step, Option.ite_none_right_eq_some] at hs
    obtain ⟨hp, hs⟩ := hs
    split at hs
    · cases hs
    · cases hs
    next hwrite _ => exact h.logAction hp hwrite hs
  | commit p =>
    simp only [LoggedCache.step, Option.ite_none_right_eq_some] at hs
    obtain ⟨⟨hr, -⟩, hs⟩ := hs
    split at hs
    next stage hp => exact h.commit hp hr hs
    · cases hs

end Invariant

/-! ## Runs -/

omit [Fintype π] in
/-- After recovery: no process is in the cache or the log, nothing is pinned or
held, and valid buffers have what the disk has. -/
structure State.Initial [Fintype π] (s : State π) : Prop where
  cache : ∃ l, BufferCache.Invariant s.cache l
  phase : ∀ p, s.cache.phase p = .running
  holder : ∀ i, s.cache.holder i = none
  used : ∀ i, s.isValid i = true → s.cache.returned i = true
  clean : ∀ i, s.isValid i = true → s.data i = s.disk (s.block i)
  size : 0 < s.log.size
  log : s.log = LogGroup.initial s.log.size
  reading : ∀ p, s.reading p = none
  job : ∀ p, s.job p = .idle
  contents : s.contents = s.disk
  modified : ∀ i, s.modified i = false
  copied : s.copied = 0
  installed : s.installed = 0

variable [DecidableEq π]

theorem State.Initial.invariant (h : s.Initial) : Invariant s := by
  obtain ⟨l, hl⟩ := h.cache
  have hlength : s.log.header.length = 0 := by
    rw [h.log]
    rfl
  have hphase : ∀ p, s.log.phase p = .outside := by
    intro p
    rw [h.log]
    rfl
  have hmod : ∀ i, s.modified i ≠ true := by
    intro i hi
    rw [h.modified i] at hi
    cases hi
  have hcommit : ∀ p stage, s.log.phase p ≠ .commiting stage := by
    intro p stage hp
    rw [hphase p] at hp
    cases hp
  constructor
  case cache => exact ⟨l, hl⟩
  case log =>
    rw [h.log]
    exact ⟨_, LogGroup.inv_initial s.log.size⟩
  case running =>
    rw [h.log]
    rfl
  case room =>
    rw [hlength]
    exact h.size
  case logged => exact fun t ht => by omega
  case reading =>
    intro p b i hp
    rw [h.reading p] at hp
    cases hp
  case waiting =>
    intro p i hp
    rw [h.phase p] at hp
    cases hp
  case wants =>
    intro p b i hp
    rw [h.reading p] at hp
    cases hp
  case held =>
    intro i p hp
    rw [h.holder i] at hp
    cases hp
  case used => exact h.used
  case coherent =>
    refine ⟨fun i j hi hj hb => ?_, fun i hi => ?_, fun b => .inl (by rw [h.contents])⟩
    · by_contra hij
      have := hl.block_ne (h.used i hi) (Ne.symm hij) hb
      rw [h.used j hj] at this
      cases this
    · rw [h.contents]
      exact h.clean i hi
  case modified => exact fun i hi => absurd hi (hmod i)
  case pinned => exact fun t _ ht => by omega
  case copies =>
    intro t ht
    rw [h.copied] at ht
    omega
  case jobs => exact fun p stage hp => absurd hp (hcommit p stage)
  case idle => exact fun p _ => h.job p
  case quiet => exact fun _ => ⟨h.copied, h.installed⟩

theorem invariant_run {s₀ : State π} {es : List (Event π)} (h₀ : s₀.Initial)
    (hrun : Transition.run step s₀ es = some s) : Invariant s :=
  Transition.run_induction (P := fun _ s => Invariant s) h₀.invariant
    (fun _ _ _ _ _ h he => h.step he) es s hrun

/-- What a step leaves to every buffer and to the contents of the blocks outside the log. -/
structure Keeps (s s' : State π) : Prop where
  slots : ∀ i, s.isValid i = true → s'.isValid i = true ∧ s'.block i = s.block i
  contents : ∀ b, s.Loggable b → s'.contents b = s.contents b

omit [Fintype π] [DecidableEq π] in
theorem keeps_of_eq (hcache : s'.cache.cache = s.cache.cache) (hcontents : s'.contents = s.contents) :
    Keeps s s' where
  slots i hi := by
    simp only [State.isValid, State.block, hcache] at hi ⊢
    exact ⟨hi, trivial⟩
  contents b _ := by rw [hcontents]

omit [Fintype π] in
theorem keeps_onCache {e : BufferCache.Event π} (hread : ∀ p b, e ≠ .getBuffer p b)
    (hs : s.onCache e = some s') : Keeps s s' := by
  obtain ⟨c, hc, rfl⟩ := Option.map_eq_some_iff.mp hs
  have hslots : SameSlots s.cache c := by
    cases e with
    | getBuffer p b => exact absurd rfl (hread p b)
    | acquire p => exact (acquire_eq hc).1
    | release p i => exact (release_eq hc).1
    | drop p => exact (drop_eq hc).1
    | pin p i => exact (pin_eq hc).1
    | unpin p i => exact (unpin_eq hc).1
  exact ⟨fun i hi => ⟨(hslots.slots i).2.trans hi, (hslots.slots i).1⟩, fun _ _ => rfl⟩

omit [Fintype π] [DecidableEq π] in
theorem keeps_store {i : BufferIndex} {d : Block} {job : π → Job}
    (hb : ¬ s.Loggable (s.block i)) : Keeps s { s.store i d with job := job } := by
  refine ⟨fun j hj => ⟨hj, rfl⟩, fun b hl => Function.update_of_ne ?_ _ _⟩
  rintro rfl
  exact hb hl

namespace Invariant

omit [DecidableEq π] in
theorem log_not_loggable (h : Invariant s) {t : ℕ} (ht : t < s.log.header.length) :
    ¬ s.Loggable (s.logBlock t) := by
  have hroom := h.room
  rintro ⟨-, hlt | hge⟩
  · simp only [State.logBlock] at hlt
    omega
  · simp only [State.logBlock] at hge
    omega

omit [DecidableEq π] in
theorem header_not_loggable (h : Invariant s) : ¬ s.Loggable s.headerBlock := by
  have hroom := h.room
  rintro ⟨-, hlt | hge⟩
  · simp only [State.headerBlock] at hlt
    omega
  · simp only [State.headerBlock] at hge
    omega

/-- The commit stores into the log only. -/
theorem commit_keeps (h : Invariant s) {stage : LogGroup.Stage}
    (hp : s.log.phase p = .commiting stage) (hs : s.commit p stage (s.job p) = some s') :
    Keeps s s' := by
  obtain ⟨-, hjob⟩ := h.jobs p stage hp
  have hlog : ∀ {e : LogGroup.Event π} {f : State π → State π},
      (∀ l, (f { s with log := l }).cache = s.cache ∧ (f { s with log := l }).contents =
        s.contents) → (s.onLog e).map f = some s' → Keeps s s' := by
    intro e f hf hs
    obtain ⟨s₁, hs₁, rfl⟩ := Option.map_eq_some_iff.mp hs
    obtain ⟨l, -, -, rfl⟩ := onLog_eq hs₁
    exact keeps_of_eq (by rw [(hf l).1]) (hf l).2
  have hcache : ∀ {e : BufferCache.Event π} {job : Job}, (∀ p b, e ≠ .getBuffer p b) →
      (s.onCache e).map (fun s' => s'.setJob p job) = some s' → Keeps s s' := by
    intro e job he hs
    obtain ⟨s₁, hs₁, rfl⟩ := Option.map_eq_some_iff.mp hs
    obtain ⟨hslots, hcontents⟩ := keeps_onCache he hs₁
    exact ⟨hslots, hcontents⟩
  generalize s.job p = job at hs hjob
  unfold State.commit at hs
  split at hs
  · exact hlog (fun _ => ⟨rfl, rfl⟩) hs
  next t =>
    split at hs
    · cases hs
    · exact hlog (fun _ => ⟨rfl, rfl⟩) hs
  next t i j =>
    obtain rfl := Option.some.inj hs
    obtain ⟨ht, hi, -⟩ := hjob
    exact keeps_store (by rw [hi.block]; exact h.log_not_loggable ht)
  next t i j =>
    obtain rfl := Option.some.inj hs
    exact keeps_of_eq rfl rfl
  next t =>
    split at hs
    · cases hs
    · exact hlog (fun _ => ⟨rfl, rfl⟩) hs
  next t i j =>
    obtain rfl := Option.some.inj hs
    exact keeps_of_eq rfl rfl
  next t i j =>
    obtain rfl := Option.some.inj hs
    exact keeps_of_eq rfl rfl
  next t i j => exact hcache (fun _ _ he => by cases he) hs
  · exact hlog (fun _ => ⟨rfl, rfl⟩) hs
  · exact hlog (fun _ => ⟨rfl, rfl⟩) hs
  · exact hlog (fun _ => ⟨rfl, rfl⟩) hs
  next t i j _ _ => exact hcache (fun _ _ he => by cases he) hs
  next t i _ _ => exact hcache (fun _ _ he => by cases he) hs
  next i _ _ =>
    obtain rfl := Option.some.inj hs
    have hi : Clean s p i s.headerBlock := hjob
    exact keeps_store (by rw [hi.block]; exact h.header_not_loggable)
  next i _ _ =>
    obtain rfl := Option.some.inj hs
    exact keeps_of_eq rfl rfl
  next i _ _ => exact hcache (fun _ _ he => by cases he) hs
  · cases hs

/-- A buffer that is given up has been written, if it was modified at all. -/
theorem read_slots (h : Invariant s) {b : BufferCache.DiskBlock} {i : BufferIndex}
    (hs : s.read p b = some s') (hi : s.isValid i = true) :
    s'.contents = s.contents ∧ ((s'.isValid i = true ∧ s'.block i = s.block i) ∨
      s.disk (s.block i) = s.contents (s.block i) ∧ s.modified i = false) := by
  obtain ⟨l, hl⟩ := h.cache
  obtain ⟨s₁, hs₁, hs⟩ := Option.bind_eq_some_iff.mp hs
  obtain ⟨c, hc, rfl⟩ := Option.map_eq_some_iff.mp hs₁
  obtain ⟨k, hk⟩ := getBuffer_chosen hl hc
  simp only [hk.phase, Function.update_self, Option.some.injEq] at hs
  subst hs
  refine ⟨rfl, ?_⟩
  by_cases hd : Dirty s i
  · obtain ⟨hb, hv⟩ := hk.referenced i (h.refs_of_dirty hi hd)
    exact .inl ⟨hv.trans hi, hb⟩
  · exact .inr ⟨h.coherent.disk_eq hi hd, by simpa using fun hm => hd (.inl hm)⟩

end Invariant

/-- What every step does to the buffers and the contents. -/
theorem step_keeps (h : Invariant s) {e : Event π} (hs : step s e = some s') :
    (∀ b, s.Loggable b → s'.contents b = s.contents b ∨
      ∃ p i d, e = .store p i d ∧ s.block i = b ∧ s'.contents b = d) ∧
    ∀ i, s.isValid i = true → (s'.isValid i = true ∧ s'.block i = s.block i) ∨
      s.disk (s.block i) = s.contents (s.block i) ∧ s.modified i = false := by
  have hkeeps : Keeps s s' → (∀ b, s.Loggable b → s'.contents b = s.contents b ∨
      ∃ p i d, e = .store p i d ∧ s.block i = b ∧ s'.contents b = d) ∧
      ∀ i, s.isValid i = true → (s'.isValid i = true ∧ s'.block i = s.block i) ∨
        s.disk (s.block i) = s.contents (s.block i) ∧ s.modified i = false :=
    fun hk => ⟨fun b hb => .inl (hk.contents b hb), fun i hi => .inl (hk.slots i hi)⟩
  cases e with
  | read p b =>
    simp only [step, Option.ite_none_right_eq_some] at hs
    refine ⟨fun b' _ => .inl ?_, fun i hi => (h.read_slots hs.2 hi).2⟩
    obtain ⟨s₁, hs₁, hs⟩ := Option.bind_eq_some_iff.mp hs.2
    obtain ⟨c, -, rfl⟩ := Option.map_eq_some_iff.mp hs₁
    split at hs
    · obtain rfl := Option.some.inj hs
      rfl
    · cases hs
  | acquire p => exact hkeeps (keeps_onCache (fun _ _ he => by cases he) hs)
  | returns p =>
    simp only [step, State.returns] at hs
    split at hs
    next b i hr =>
      simp only [Option.ite_none_right_eq_some, Option.some.injEq] at hs
      obtain ⟨-, rfl⟩ := hs
      by_cases hv : s.isValid i = true
      · rw [if_pos hv] at hkeeps ⊢
        exact hkeeps (keeps_of_eq rfl rfl)
      · rw [if_neg hv] at hkeeps ⊢
        exact hkeeps ⟨fun j hj => ⟨(Invariant.fill_isValid s i j).mpr (.inl hj),
          congrFun (Invariant.fill_block s i) j⟩, fun _ _ => rfl⟩
    · cases hs
  | store p i d =>
    simp only [step, Option.ite_none_right_eq_some, Option.some.injEq] at hs
    obtain ⟨-, rfl⟩ := hs
    refine ⟨fun b _ => ?_, fun j hj => .inl ⟨hj, rfl⟩⟩
    by_cases hb : s.block i = b
    · subst hb
      exact .inr ⟨p, i, d, rfl, rfl, Function.update_self ..⟩
    · exact .inl (Function.update_of_ne (Ne.symm hb) _ _)
  | logWrite p i =>
    simp only [step, Option.ite_none_right_eq_some] at hs
    obtain ⟨s₁, hs₁, hs⟩ := Option.bind_eq_some_iff.mp hs.2
    obtain ⟨l, -, -, rfl⟩ := onLog_eq hs₁
    simp only at hs
    split at hs
    · obtain rfl := Option.some.inj hs
      exact hkeeps (keeps_of_eq rfl rfl)
    · refine hkeeps ⟨(keeps_onCache (fun _ _ he => by cases he) hs).slots, fun b _ => ?_⟩
      obtain ⟨c, -, rfl⟩ := Option.map_eq_some_iff.mp hs
      rfl
  | release p i =>
    simp only [step, Option.ite_none_right_eq_some] at hs
    exact hkeeps (keeps_onCache (fun _ _ he => by cases he) hs.2)
  | drop p => exact hkeeps (keeps_onCache (fun _ _ he => by cases he) hs)
  | log p action =>
    simp only [step, Option.ite_none_right_eq_some] at hs
    obtain ⟨-, hs⟩ := hs
    split at hs
    · cases hs
    · cases hs
    · obtain ⟨l, -, -, rfl⟩ := onLog_eq hs
      exact hkeeps (keeps_of_eq rfl rfl)
  | commit p =>
    simp only [step, Option.ite_none_right_eq_some] at hs
    obtain ⟨-, hs⟩ := hs
    split at hs
    next stage hp => exact hkeeps (h.commit_keeps hp hs)
    · cases hs

/-- No update is lost through the cache: `Buffer.read` returns the buffer of the
block that was asked for, with the contents stored last; these are what the last
store of a process left, the log's own blocks apart; and a buffer that is given
up is not modified, and the disk has its contents. -/
theorem no_update_lost {s₀ : State π} {es : List (Event π)} (h₀ : s₀.Initial)
    (hrun : Transition.run step s₀ es = some s) :
    (∀ p b i s', s.reading p = some (b, i) → step s (.returns p) = some s' →
      s'.cache.holder i = some p ∧ s'.block i = b ∧ s'.data i = s'.contents b) ∧
    (∀ e s', step s e = some s' → ∀ b, s.Loggable b → s'.contents b = s.contents b ∨
      ∃ p i d, e = .store p i d ∧ s.block i = b ∧ s'.contents b = d) ∧
    ∀ e s', step s e = some s' → ∀ i, s.isValid i = true →
      (s'.isValid i = true ∧ s'.block i = s.block i) ∨
        s.disk (s.block i) = s.contents (s.block i) ∧ s.modified i = false := by
  have h := invariant_run h₀ hrun
  refine ⟨fun p b i s' hr hs => ?_, fun e s' hs => (step_keeps h hs).1,
    fun e s' hs => (step_keeps h hs).2⟩
  have hcached := (h.step hs).coherent.cached i
  obtain ⟨hb, hcase⟩ := h.reading p b i hr
  simp only [step, State.returns, hr, Option.ite_none_right_eq_some, Option.some.injEq] at hs
  obtain ⟨hrun, rfl⟩ := hs
  rw [hrun] at hcase
  obtain ⟨-, hh, -⟩ := hcase.resolve_left nofun
  by_cases hv : s.isValid i = true
  · rw [if_pos hv] at hcached ⊢
    exact ⟨hh, hb, (hcached hv).trans (congrArg s.contents hb)⟩
  · rw [if_neg hv] at hcached ⊢
    have hblock : (s.fill i).block i = b := (congrFun (Invariant.fill_block s i) i).trans hb
    exact ⟨hh, hblock, (hcached ((Invariant.fill_isValid s i i).mpr (.inr rfl))).trans
      (congrArg s.contents hblock)⟩

/-- The cache after `init_array`, and an empty log of 30 blocks from block 2 on. -/
def boot : State Bool where
  cache := .initial uninitialized
  data _ := fun _ => 5
  disk _ := fun _ => 0
  log := LogGroup.initial 30
  start := 2
  device := .rootFsDevice
  reading _ := none
  job _ := .idle
  contents _ := fun _ => 0
  modified _ := false
  copied := 0
  installed := 0

theorem boot_initial : boot.Initial where
  cache := ⟨_, invariant_initial uninitialized⟩
  phase _ := rfl
  holder _ := rfl
  used := by decide +kernel
  clean i hi := by
    have hnone : ∀ i, boot.isValid i = false := by decide +kernel
    rw [hnone i] at hi
    cases hi
  size := by decide
  log := rfl
  reading _ := rfl
  job _ := rfl
  contents := rfl
  modified _ := rfl
  copied := rfl
  installed := rfl

/-- One process stores into a block and logs it, and the other reads the block. -/
def storeAndRead : List (Event Bool) :=
  [.log true .call, .log true .tryBegin, .read true ⟨50, .rootFsDevice⟩, .acquire true, .returns true,
    .store true 0 (fun _ => 9), .logWrite true 0, .release true 0, .drop true,
    .read false ⟨50, .rootFsDevice⟩, .acquire false]

theorem no_update_lost_storeAndRead : ∃ s s' : State Bool,
    Transition.run step boot storeAndRead = some s ∧ step s (.returns false) = some s' ∧
      s'.data 0 = s'.contents ⟨50, .rootFsDevice⟩ := by
  have hrun : (Transition.run step boot storeAndRead).any (fun s =>
      s.reading false = some (⟨50, .rootFsDevice⟩, 0) && (step s (.returns false)).isSome) = true := by
    decide +kernel
  obtain ⟨s, hs, h⟩ := (Option.any_eq_true _ _).mp hrun
  obtain ⟨hreading, hreturns⟩ := (Bool.and_eq_true _ _).mp h
  obtain ⟨s', hs'⟩ := Option.isSome_iff_exists.mp hreturns
  exact ⟨s, s', hs, hs', ((no_update_lost boot_initial hs).1 false _ 0 s'
    (of_decide_eq_true hreading) hs').2.2⟩

end Zigmaos.LoggedCache
