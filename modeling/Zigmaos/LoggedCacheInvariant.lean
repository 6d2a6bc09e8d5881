import Zigmaos.LoggedCache

/-!
# Pins bridge the commit

A buffer may be ahead of the disk while it is modified and its holder has not
logged it, and from then on as long as its block is in the header and not
installed. The holder keeps the buffer in the first case and a pin in the second;
so what is recycled has been written.
-/
namespace Zigmaos.LoggedCache
open FileSystem BufferCache WriteBack

variable {π : Type} {s s' : State π} {p q : π}

/-- How many turns of a loop are done. -/
def Job.done : Job → ℕ
  | .first t | .second t _ | .copy t _ _ | .writeLog t _ _ | .writeHome t _ _ => t
  | .unpin t _ _ | .releaseSecond t _ _ | .releaseFirst t _ => t + 1
  | _ => 0

def Job.isLoop : Job → Bool
  | .first _ | .second _ _ | .copy _ _ _ | .writeLog _ _ _ | .writeHome _ _ _ | .unpin _ _ _
  | .releaseSecond _ _ _ | .releaseFirst _ _ => true
  | _ => false

def Job.isHeader : Job → Bool
  | .header | .headerCopy _ | .headerWrite _ | .headerRelease _ | .headerDone => true
  | _ => false

structure Holds (s : State π) (p : π) (i : BufferIndex) (b : BufferCache.DiskBlock) : Prop where
  holder : s.cache.holder i = some p
  valid : s.isValid i = true
  block : s.block i = b

/-- A held buffer without a store that waits to be logged or written. -/
structure Clean (s : State π) (p : π) (i : BufferIndex) (b : BufferCache.DiskBlock) : Prop
    extends Holds s p i b where
  modified : s.modified i = false

/-- The buffers that a process in `commit` has. -/
def JobOk (s : State π) (p : π) : Job → Prop
  | .first t => t ≤ s.log.header.length
  | .second t i => t < s.log.header.length ∧ Clean s p i (s.logBlock t)
  | .copy t i j => t < s.log.header.length ∧ Clean s p i (s.logBlock t) ∧ Clean s p j (s.homeBlock t)
  | .writeLog t i j => t < s.log.header.length ∧ Holds s p i (s.logBlock t) ∧
      Clean s p j (s.homeBlock t) ∧ s.data i = s.data j
  | .writeHome t i j => t < s.log.header.length ∧ Clean s p i (s.logBlock t) ∧
      Clean s p j (s.homeBlock t)
  | .unpin t i j => t < s.log.header.length ∧ Clean s p i (s.logBlock t) ∧
      Clean s p j (s.homeBlock t) ∧ 0 < s.cache.pins j
  | .releaseSecond t i j => t < s.log.header.length ∧ Clean s p i (s.logBlock t) ∧
      Clean s p j (s.homeBlock t)
  | .releaseFirst t i => t < s.log.header.length ∧ Clean s p i (s.logBlock t)
  | .headerCopy i => Clean s p i s.headerBlock
  | .headerWrite i => Holds s p i s.headerBlock
  | .headerRelease i => Clean s p i s.headerBlock
  | _ => True

/-- How far the commit is. -/
def StageOk (s : State π) (job : Job) : LogGroup.Stage → Prop
  | .check => s.copied = 0 ∧ s.installed = 0
  | .writeLog => job.isLoop = true ∧ s.copied = job.done ∧ s.installed = 0
  | .writeHead => job.isHeader = true ∧ s.copied = s.log.header.length ∧ s.installed = 0
  | .install => job.isLoop = true ∧ s.copied = s.log.header.length ∧ s.installed = job.done
  | .clear => s.copied = s.log.header.length ∧ s.installed = s.log.header.length
  | .finish => job.isHeader = true ∧ s.copied = 0 ∧ s.installed = 0

/-- The disk may not have what is in the buffer. -/
def Dirty (s : State π) (i : BufferIndex) : Prop :=
  s.modified i = true ∨
    ∃ t, s.installed ≤ t ∧ t < s.log.header.length ∧ s.block i = s.homeBlock t

/-! ## Frames -/

/-- What a process holds is as it was. -/
structure Kept (s s' : State π) (p : π) : Prop where
  holder : ∀ i, s.cache.holder i = some p → s'.cache.holder i = some p
  valid : ∀ i, s.cache.holder i = some p → s.isValid i = true → s'.isValid i = true
  block : ∀ i, s.cache.holder i = some p → s'.block i = s.block i
  data : ∀ i, s.cache.holder i = some p → s.isValid i = true → s'.data i = s.data i
  modified : ∀ i, s.cache.holder i = some p → s'.modified i = s.modified i
  pins : ∀ i, s.cache.holder i = some p → 0 < s.cache.pins i → 0 < s'.cache.pins i

theorem Holds.kept {i : BufferIndex} {b : BufferCache.DiskBlock} (h : Holds s p i b)
    (hk : Kept s s' p) : Holds s' p i b :=
  ⟨hk.holder i h.holder, hk.valid i h.holder h.valid, by rw [hk.block i h.holder, h.block]⟩

theorem Clean.kept {i : BufferIndex} {b : BufferCache.DiskBlock} (h : Clean s p i b)
    (hk : Kept s s' p) : Clean s' p i b :=
  ⟨h.toHolds.kept hk, by rw [hk.modified i h.holder, h.modified]⟩

/-- The log and its place on the disk. -/
structure SameLog (s s' : State π) : Prop where
  header : s'.log.header = s.log.header
  start : s'.start = s.start
  device : s'.device = s.device

theorem SameLog.logBlock (h : SameLog s s') : s'.logBlock = s.logBlock := by
  funext t
  simp [State.logBlock, h.start, h.device]

theorem SameLog.homeBlock (h : SameLog s s') : s'.homeBlock = s.homeBlock := by
  funext t
  simp [State.homeBlock, h.header, h.device]

theorem SameLog.headerBlock (h : SameLog s s') : s'.headerBlock = s.headerBlock := by
  simp [State.headerBlock, h.start, h.device]

theorem JobOk.kept {job : Job} (h : JobOk s p job) (hk : Kept s s' p) (hl : SameLog s s') :
    JobOk s' p job := by
  cases job with
  | idle | header | headerDone => trivial
  | first t =>
    simp only [JobOk, hl.header] at h ⊢
    exact h
  | second t i | releaseFirst t i =>
    simp only [JobOk, hl.header, hl.logBlock] at h ⊢
    exact ⟨h.1, h.2.kept hk⟩
  | copy t i j | writeHome t i j | releaseSecond t i j =>
    simp only [JobOk, hl.header, hl.logBlock, hl.homeBlock] at h ⊢
    exact ⟨h.1, h.2.1.kept hk, h.2.2.kept hk⟩
  | writeLog t i j =>
    simp only [JobOk, hl.header, hl.logBlock, hl.homeBlock] at h ⊢
    obtain ⟨ht, hi, hj, hd⟩ := h
    refine ⟨ht, hi.kept hk, hj.kept hk, ?_⟩
    rw [hk.data i hi.holder hi.valid, hk.data j hj.holder hj.valid, hd]
  | unpin t i j =>
    simp only [JobOk, hl.header, hl.logBlock, hl.homeBlock] at h ⊢
    obtain ⟨ht, hi, hj, hp⟩ := h
    exact ⟨ht, hi.kept hk, hj.kept hk, hk.pins j hj.holder hp⟩
  | headerCopy i | headerRelease i =>
    simp only [JobOk, hl.headerBlock] at h ⊢
    exact h.kept hk
  | headerWrite i =>
    simp only [JobOk, hl.headerBlock] at h ⊢
    exact h.kept hk

theorem StageOk.congr {job : Job} {stage : LogGroup.Stage} (h : StageOk s job stage)
    (hl : SameLog s s') (hc : s'.copied = s.copied) (hi : s'.installed = s.installed) :
    StageOk s' job stage := by
  cases stage <;> simpa only [StageOk, hl.header, hc, hi] using h

variable [Fintype π]

structure Invariant (s : State π) : Prop where
  cache : ∃ l, BufferCache.Invariant s.cache l
  log : ∃ a, LogGroup.Inv s.log a
  running : s.log.panicked = none
  room : s.log.header.length < s.log.size
  logged : ∀ t < s.log.header.length, s.Loggable (s.homeBlock t)
  reading : ∀ p b i, s.reading p = some (b, i) → s.block i = b ∧ (s.cache.phase p = .waiting i ∨
    s.cache.phase p = .running ∧ s.cache.holder i = some p ∧ s.modified i = false)
  waiting : ∀ p i, s.cache.phase p = .waiting i → ∃ b, s.reading p = some (b, i)
  wants : ∀ p b i, s.reading p = some (b, i) → s.isCommiting p = true → s.wanted p = some b
  held : ∀ i p, s.cache.holder i = some p →
    s.isValid i = true ∨ ∃ b, s.reading p = some (b, i)
  used : ∀ i, s.isValid i = true → s.cache.returned i = true
  coherent : Coherent (fun i => s.isValid i = true) s.block s.data s.disk s.contents (Dirty s)
  modified : ∀ i, s.modified i = true → s.isValid i = true ∧ ∃ p, s.cache.holder i = some p
  pinned : ∀ t, s.installed ≤ t → t < s.log.header.length →
    ∃ i, s.isValid i = true ∧ s.block i = s.homeBlock t ∧ 0 < s.cache.pins i
  copies : ∀ t < s.copied, s.disk (s.logBlock t) = s.contents (s.homeBlock t) ∨
    ∃ i, s.block i = s.homeBlock t ∧ s.modified i = true
  jobs : ∀ p stage, s.log.phase p = .commiting stage →
    StageOk s (s.job p) stage ∧ JobOk s p (s.job p)
  idle : ∀ p, s.isCommiting p = false → s.job p = .idle
  quiet : (∀ p, s.isCommiting p = false) → s.copied = 0 ∧ s.installed = 0

/-! ## What the invariant says of a buffer -/

section References
variable {c : BufferCache.State π} {l : List BufferIndex} {i : BufferIndex}

theorem refs_of_holder (h : BufferCache.Invariant c l) (hp : c.holder i = some p) :
    0 < (c.cache.bufferArray i).referenceCount := by
  refine (h.count_pos ?_).1
  have : c.holders i = 1 := by simp [BufferCache.State.holders, hp]
  omega

theorem refs_of_waiting (h : BufferCache.Invariant c l) (hp : c.phase p = .waiting i) :
    0 < (c.cache.bufferArray i).referenceCount := by
  refine (h.count_pos ?_).1
  have : 0 < c.waiters i := Finset.card_pos.mpr ⟨p, by simp [hp]⟩
  omega

theorem refs_of_pins (h : BufferCache.Invariant c l) (hp : 0 < c.pins i) :
    0 < (c.cache.bufferArray i).referenceCount :=
  (h.count_pos (by omega)).1

end References

namespace Invariant

theorem refs_pos (h : Invariant s) {i : BufferIndex} (hp : s.cache.holder i = some p) :
    0 < (s.cache.cache.bufferArray i).referenceCount := by
  obtain ⟨l, hl⟩ := h.cache
  exact refs_of_holder hl hp

/-- A dirty buffer is held or pinned. -/
theorem refs_of_dirty (h : Invariant s) {i : BufferIndex} (hi : s.isValid i = true)
    (hd : Dirty s i) : 0 < (s.cache.cache.bufferArray i).referenceCount := by
  obtain ⟨l, hl⟩ := h.cache
  obtain hm | ⟨t, ht, hlt, hb⟩ := hd
  · obtain ⟨-, p, hp⟩ := h.modified i hm
    exact refs_of_holder hl hp
  · obtain ⟨j, hj, hbj, hp⟩ := h.pinned t ht hlt
    have hij := h.coherent.unique i j hi hj (by rw [hb, hbj])
    subst hij
    exact refs_of_pins hl hp

theorem home_ne_log (h : Invariant s) {t u : ℕ} (ht : t < s.log.header.length)
    (hu : u < s.log.header.length) : s.homeBlock t ≠ s.logBlock u := by
  have hroom := h.room
  obtain ⟨-, hlt | hge⟩ := h.logged t ht
  all_goals
    intro heq
    have hnum := congrArg BufferCache.DiskBlock.number heq
    simp only [State.homeBlock, State.logBlock] at *
    omega

theorem home_ne_header (h : Invariant s) {t : ℕ} (ht : t < s.log.header.length) :
    s.homeBlock t ≠ s.headerBlock := by
  have hroom := h.room
  obtain ⟨-, hlt | hge⟩ := h.logged t ht
  all_goals
    intro heq
    have hnum := congrArg BufferCache.DiskBlock.number heq
    simp only [State.homeBlock, State.headerBlock] at *
    omega

omit [Fintype π] in
theorem logBlock_inj {t u : ℕ} (h : s.logBlock t = s.logBlock u) : t = u := by
  have hnum := congrArg BufferCache.DiskBlock.number h
  simp only [State.logBlock] at hnum
  omega

omit [Fintype π] in
theorem logBlock_ne_header {t : ℕ} : s.logBlock t ≠ s.headerBlock := by
  intro h
  have hnum := congrArg BufferCache.DiskBlock.number h
  simp only [State.logBlock, State.headerBlock] at hnum
  omega

omit [Fintype π] in
theorem isCommiting_iff : s.isCommiting p = true ↔ ∃ stage, s.log.phase p = .commiting stage := by
  unfold State.isCommiting
  cases s.log.phase p <;> simp

theorem home_inj (h : Invariant s) {t u : ℕ} (ht : t < s.log.header.length)
    (hu : u < s.log.header.length) (heq : s.homeBlock t = s.homeBlock u) : t = u := by
  obtain ⟨a, ha⟩ := h.log
  have hnum : s.log.header.block t = s.log.header.block u :=
    congrArg BufferCache.DiskBlock.number heq
  exact List.inj_on_of_nodup_map ha.nodup (List.mem_range.mpr ht) (List.mem_range.mpr hu) hnum

/-- One process commits at a time. -/
theorem alone (h : Invariant s) {stage stage' : LogGroup.Stage}
    (hp : s.log.phase p = .commiting stage) (hq : s.log.phase q = .commiting stage') : q = p := by
  obtain ⟨a, ha⟩ := h.log
  exact ha.unique q p stage' stage hq hp

theorem copied_le (h : Invariant s) : s.copied ≤ s.log.header.length := by
  by_cases hc : ∃ p, s.isCommiting p = true
  · obtain ⟨p, hp⟩ := hc
    obtain ⟨stage, hs⟩ := isCommiting_iff.mp hp
    obtain ⟨hstage, hjob⟩ := h.jobs p stage hs
    cases stage with
    | check | finish | writeHead | install | clear =>
      simp only [StageOk] at hstage
      omega
    | writeLog =>
      obtain ⟨-, hcopied, -⟩ := hstage
      rw [hcopied]
      cases hj : s.job p with
      | first t | second t i | copy t i j | writeLog t i j | writeHome t i j | unpin t i j
      | releaseSecond t i j | releaseFirst t i =>
        rw [hj] at hjob
        simp only [JobOk, Job.done] at hjob ⊢
        omega
      | _ => simp [Job.done]
  · rw [(h.quiet fun p => by simpa using fun hp => hc ⟨p, hp⟩).1]
    exact Nat.zero_le _

end Invariant

/-! ## Steps of the cache -/

variable [DecidableEq π]

section Cache
variable {c c' : BufferCache.State π} {l : List BufferIndex} {i : BufferIndex}

/-- `get_buffer` gives up no buffer that is referenced. -/
structure Chosen (c c' : BufferCache.State π) (p : π) (b : BufferCache.DiskBlock)
    (i : BufferIndex) : Prop where
  running : c.phase p = .running
  phase : c'.phase = Function.update c.phase p (.waiting i)
  holder : c'.holder = c.holder
  pins : c'.pins = c.pins
  returned : c'.returned = Function.update c.returned i true
  block : (c'.cache.bufferArray i).block = b
  referenced : ∀ j, 0 < (c.cache.bufferArray j).referenceCount →
    (c'.cache.bufferArray j).block = (c.cache.bufferArray j).block ∧
      (c'.cache.bufferArray j).isValid = (c.cache.bufferArray j).isValid
  valid : ∀ j, (c'.cache.bufferArray j).isValid = true → (c.cache.bufferArray j).isValid = true ∧
    (c'.cache.bufferArray j).block = (c.cache.bufferArray j).block

theorem getBuffer_chosen (h : BufferCache.Invariant c l) {b : BufferCache.DiskBlock}
    (hs : BufferCache.step c (.getBuffer p b) = some c') : ∃ i, Chosen c c' p b i := by
  simp only [BufferCache.step] at hs
  split at hs
  next hrun =>
    split at hs
    next i cache hg =>
      cases hs
      obtain ⟨l₁, l₂, -, ⟨hb, -, rfl⟩ | ⟨-, hzero, -, rfl⟩⟩ := Cache.getBuffer_cases h.ring h.mem hg
      · refine ⟨i, hrun, rfl, rfl, rfl, rfl, by simpa using hb, fun j _ => ?_, fun j => ?_⟩
        · by_cases hj : j = i
          · subst hj
            simp
          · simp [hj]
        · by_cases hj : j = i
          · subst hj
            simp
          · simp [hj]
      · refine ⟨i, hrun, rfl, rfl, rfl, rfl, by simp, fun j hj => ?_, fun j => ?_⟩
        · have hji : j ≠ i := by
            rintro rfl
            omega
          simp [hji]
        · by_cases hj : j = i
          · subst hj
            simp
          · simp [hj]
    · cases hs
  · cases hs

/-- The buffers carry what they carried. -/
structure SameSlots (c c' : BufferCache.State π) : Prop where
  returned : c'.returned = c.returned
  slots : ∀ j, (c'.cache.bufferArray j).block = (c.cache.bufferArray j).block ∧
    (c'.cache.bufferArray j).isValid = (c.cache.bufferArray j).isValid

omit [Fintype π] in
theorem acquire_eq (hs : BufferCache.step c (.acquire p) = some c') : SameSlots c c' ∧
    c'.pins = c.pins ∧ ∃ i, c.phase p = .waiting i ∧ c.holder i = none ∧
      c'.phase = Function.update c.phase p .running ∧
      c'.holder = Function.update c.holder i (some p) := by
  simp only [BufferCache.step] at hs
  split at hs
  next i hp =>
    split at hs
    next hfree =>
      cases hs
      exact ⟨⟨rfl, fun _ => ⟨rfl, rfl⟩⟩, rfl, i, hp, hfree, rfl, rfl⟩
    · cases hs
  · cases hs

omit [Fintype π] in
theorem release_eq (hs : BufferCache.step c (.release p i) = some c') : SameSlots c c' ∧
    c'.pins = c.pins ∧ c.phase p = .running ∧ c.holder i = some p ∧
    c'.phase = Function.update c.phase p (.releasing i) ∧
    c'.holder = Function.update c.holder i none := by
  simp only [BufferCache.step, Option.ite_none_right_eq_some, Option.some.injEq] at hs
  obtain ⟨⟨hp, hh⟩, rfl⟩ := hs
  exact ⟨⟨rfl, fun _ => ⟨rfl, rfl⟩⟩, rfl, hp, hh, rfl, rfl⟩

omit [DecidableEq π] [Fintype π] in
theorem drop_slots (cache : Cache) (i j : BufferIndex) :
    ((cache.drop i).bufferArray j).block = (cache.bufferArray j).block ∧
      ((cache.drop i).bufferArray j).isValid = (cache.bufferArray j).isValid := by
  have harray : (cache.drop i).bufferArray = (cache.setBuffer i { cache.bufferArray i with
      referenceCount := sub32 (cache.bufferArray i).referenceCount 1 }).bufferArray := by
    unfold Cache.drop
    simp only
    split <;> rfl
  rw [harray, Cache.setBuffer_bufferArray]
  by_cases hj : j = i
  · subst hj
    simp
  · simp [hj]

omit [Fintype π] in
theorem drop_eq (hs : BufferCache.step c (.drop p) = some c') : SameSlots c c' ∧
    c'.pins = c.pins ∧ c'.holder = c.holder ∧ (∃ i, c.phase p = .releasing i) ∧
    c'.phase = Function.update c.phase p .running := by
  simp only [BufferCache.step] at hs
  split at hs
  next i hp =>
    split at hs
    all_goals
      cases hs
      exact ⟨⟨rfl, fun j => drop_slots _ i j⟩, rfl, rfl, ⟨i, hp⟩, rfl⟩
  · cases hs

omit [Fintype π] in
theorem pin_eq (hs : BufferCache.step c (.pin p i) = some c') : SameSlots c c' ∧
    c'.holder = c.holder ∧ c'.phase = c.phase ∧ c'.pins = Function.update c.pins i (c.pins i + 1) := by
  simp only [BufferCache.step, Option.ite_none_right_eq_some, Option.some.injEq] at hs
  obtain ⟨-, rfl⟩ := hs
  refine ⟨⟨rfl, fun j => ?_⟩, rfl, rfl, rfl⟩
  simp only [Cache.pin, Cache.setBuffer_bufferArray]
  by_cases hj : j = i
  · subst hj
    simp
  · simp [hj]

omit [Fintype π] in
theorem unpin_eq (hs : BufferCache.step c (.unpin p i) = some c') : SameSlots c c' ∧
    c'.holder = c.holder ∧ c'.phase = c.phase ∧ c'.pins = Function.update c.pins i (c.pins i - 1) := by
  simp only [BufferCache.step, Option.ite_none_right_eq_some, Option.some.injEq] at hs
  obtain ⟨-, rfl⟩ := hs
  refine ⟨⟨rfl, fun j => ?_⟩, rfl, rfl, rfl⟩
  simp only [Cache.unpin, Cache.setBuffer_bufferArray]
  by_cases hj : j = i
  · subst hj
    simp
  · simp [hj]

end Cache

/-! ## Steps of Buffer.read and release -/

namespace Invariant

omit [DecidableEq π] in
/-- A step of the cache that keeps what is held and what waits to be installed. -/
theorem ofCache (h : Invariant s) {c : BufferCache.State π}
    {r : π → Option (BufferCache.DiskBlock × BufferIndex)} (job : π → Job)
    (hcache : ∃ l, BufferCache.Invariant c l)
    (href : ∀ j, 0 < (s.cache.cache.bufferArray j).referenceCount →
      (c.cache.bufferArray j).block = s.block j ∧ (c.cache.bufferArray j).isValid = s.isValid j)
    (hvalid : ∀ j, (c.cache.bufferArray j).isValid = true → s.isValid j = true ∧
      (c.cache.bufferArray j).block = s.block j)
    (hused : ∀ j, s.cache.returned j = true → c.returned j = true)
    (hreading : ∀ p b i, r p = some (b, i) → (c.cache.bufferArray i).block = b ∧
      (c.phase p = .waiting i ∨
        c.phase p = .running ∧ c.holder i = some p ∧ s.modified i = false))
    (hwaiting : ∀ p i, c.phase p = .waiting i → ∃ b, r p = some (b, i))
    (hwants : ∀ p b i, r p = some (b, i) → s.isCommiting p = true →
      State.wanted { s with cache := c, reading := r, job := job } p = some b)
    (hheld : ∀ i p, c.holder i = some p →
      (c.cache.bufferArray i).isValid = true ∨ ∃ b, r p = some (b, i))
    (hmodified : ∀ i, s.modified i = true → ∃ p, c.holder i = some p)
    (hpins : ∀ t i, s.installed ≤ t → t < s.log.header.length → s.block i = s.homeBlock t →
      0 < s.cache.pins i → 0 < c.pins i)
    (hjobs : ∀ p stage, s.log.phase p = .commiting stage →
      StageOk { s with cache := c, reading := r, job := job } (job p) stage ∧
        JobOk { s with cache := c, reading := r, job := job } p (job p))
    (hidle : ∀ p, s.isCommiting p = false → job p = .idle) :
    Invariant { s with cache := c, reading := r, job := job } := by
  obtain ⟨l, hl⟩ := h.cache
  have hmod : ∀ i, s.modified i = true → (c.cache.bufferArray i).block = s.block i ∧
      (c.cache.bufferArray i).isValid = true := by
    intro i hi
    obtain ⟨hv, p, hp⟩ := h.modified i hi
    obtain ⟨hb, hvc⟩ := href i (refs_of_holder hl hp)
    exact ⟨hb, hvc.trans hv⟩
  have hdirty : ∀ i, s.isValid i = true → Dirty s i → (c.cache.bufferArray i).isValid = true := by
    intro i hi hd
    exact (href i (h.refs_of_dirty hi hd)).2.trans hi
  constructor
  case cache => exact hcache
  case log => exact h.log
  case running => exact h.running
  case room => exact h.room
  case logged => exact h.logged
  case reading => exact hreading
  case waiting => exact hwaiting
  case wants => exact hwants
  case held => exact hheld
  case used =>
    intro i hi
    exact hused i (h.used i (hvalid i hi).1)
  case coherent =>
    refine (h.coherent.recycle hvalid hdirty).mono fun i hi hd => ?_
    refine hd.imp_right fun ⟨t, ht, hlt, hb⟩ => ⟨t, ht, hlt, ?_⟩
    exact (hvalid i hi).2.trans hb
  case modified =>
    intro i hi
    exact ⟨(hmod i hi).2, hmodified i hi⟩
  case pinned =>
    intro t ht hlt
    obtain ⟨i, hi, hb, hp⟩ := h.pinned t ht hlt
    obtain ⟨hbc, hvc⟩ := href i (refs_of_pins hl hp)
    exact ⟨i, hvc.trans hi, hbc.trans hb, hpins t i ht hlt hb hp⟩
  case copies =>
    intro t ht
    refine (h.copies t ht).imp_right fun ⟨i, hb, hm⟩ => ⟨i, ?_, hm⟩
    exact (hmod i hm).1.trans hb
  case jobs => exact hjobs
  case idle => exact hidle
  case quiet => exact h.quiet

omit [DecidableEq π] in
/-- The jobs of a step that leaves to all processes what they hold. -/
theorem jobs_kept (h : Invariant s) (s' : State π) (hk : ∀ p, s.isCommiting p = true → Kept s s' p)
    (hl : SameLog s s') (hphase : s'.log.phase = s.log.phase) (hjob : s'.job = s.job)
    (hc : s'.copied = s.copied) (hi : s'.installed = s.installed) (p : π)
    (stage : LogGroup.Stage) (hs : s'.log.phase p = .commiting stage) :
    StageOk s' (s'.job p) stage ∧ JobOk s' p (s'.job p) := by
  rw [hphase] at hs
  obtain ⟨hstage, hj⟩ := h.jobs p stage hs
  rw [hjob]
  exact ⟨hstage.congr hl hc hi, hj.kept (hk p (isCommiting_iff.mpr ⟨stage, hs⟩)) hl⟩

/-- `Buffer.read` up to the choice of a buffer. -/
theorem read (h : Invariant s) {b : BufferCache.DiskBlock} (hp : s.reading p = none)
    (hmay : s.mayRead p b = true) (hs : s.read p b = some s') : Invariant s' := by
  obtain ⟨l, hl⟩ := h.cache
  obtain ⟨s₁, hs₁, hs⟩ := Option.bind_eq_some_iff.mp hs
  obtain ⟨c, hc, rfl⟩ := Option.map_eq_some_iff.mp hs₁
  obtain ⟨i, hi⟩ := getBuffer_chosen hl hc
  simp only [hi.phase, Function.update_self, Option.some.injEq] at hs
  subst hs
  have hheld : ∀ j q, s.cache.holder j = some q →
      (c.cache.bufferArray j).block = s.block j ∧ (c.cache.bufferArray j).isValid = s.isValid j :=
    fun j q hq => hi.referenced j (h.refs_pos hq)
  have hphase : ∀ q, q ≠ p → c.phase q = s.cache.phase q := by
    intro q hq
    rw [hi.phase, Function.update_of_ne hq]
  refine h.ofCache (c := c) (r := Function.update s.reading p (some (b, i))) s.job
    (invariant_step hl hc) hi.referenced hi.valid ?_ ?_ ?_ ?_ ?_ ?_ ?_ ?_ h.idle
  · intro j hj
    rw [hi.returned, Function.update_apply]
    split
    · rfl
    · exact hj
  · intro q b' j hq
    by_cases hqp : q = p
    · subst hqp
      rw [Function.update_self] at hq
      obtain ⟨rfl, rfl⟩ := Prod.mk.inj (Option.some.inj hq)
      exact ⟨hi.block, .inl (by rw [hi.phase, Function.update_self])⟩
    · rw [Function.update_of_ne hqp] at hq
      obtain ⟨hb, hw | ⟨hr, hh, hm⟩⟩ := h.reading q b' j hq
      · exact ⟨(hi.referenced j (refs_of_waiting hl hw)).1.trans hb,
          .inl ((hphase q hqp).trans hw)⟩
      · exact ⟨(hheld j q hh).1.trans hb,
          .inr ⟨(hphase q hqp).trans hr, (congrFun hi.holder j).trans hh, hm⟩⟩
  · intro q j hq
    by_cases hqp : q = p
    · subst hqp
      rw [hi.phase, Function.update_self] at hq
      cases hq
      exact ⟨b, Function.update_self ..⟩
    · rw [hphase q hqp] at hq
      obtain ⟨b', hb'⟩ := h.waiting q j hq
      exact ⟨b', by rw [Function.update_of_ne hqp, hb']⟩
  · intro q b' j hq hcommit
    by_cases hqp : q = p
    · subst hqp
      rw [Function.update_self] at hq
      obtain ⟨rfl, rfl⟩ := Prod.mk.inj (Option.some.inj hq)
      simp only [State.mayRead, hcommit, Bool.not_true, Bool.false_or, decide_eq_true_eq] at hmay
      exact hmay
    · rw [Function.update_of_ne hqp] at hq
      exact h.wants q b' j hq hcommit
  · intro j q hq
    have hqs : s.cache.holder j = some q := (congrFun hi.holder j).symm.trans hq
    obtain hv | ⟨b', hr⟩ := h.held j q hqs
    · exact .inl ((hheld j q hqs).2.trans hv)
    · have hqp : q ≠ p := by
        rintro rfl
        rw [hp] at hr
        cases hr
      exact .inr ⟨b', by rw [Function.update_of_ne hqp, hr]⟩
  · intro j hj
    rw [hi.holder]
    exact (h.modified j hj).2
  · intro t j _ _ _ hj
    rw [hi.pins]
    exact hj
  · refine h.jobs_kept { s with cache := c, reading := _, job := s.job } (fun q _ => ?_)
      ⟨rfl, rfl, rfl⟩ rfl rfl rfl rfl
    refine ⟨fun j hj => (congrFun hi.holder j).trans hj, fun j hj hv => (hheld j q hj).2.trans hv,
      fun j hj => (hheld j q hj).1, fun _ _ _ => rfl, fun _ _ => rfl, fun j _ hj => ?_⟩
    exact (congrFun hi.pins j).symm ▸ hj

omit [DecidableEq π] in
/-- A step of the cache by which no process gets or gives up a buffer. -/
theorem ofSlots (h : Invariant s) {c : BufferCache.State π} (job : π → Job)
    (hcache : ∃ l, BufferCache.Invariant c l) (hslots : SameSlots s.cache c)
    (hreading : ∀ p b i, s.reading p = some (b, i) → c.phase p = .waiting i ∨
      c.phase p = .running ∧ c.holder i = some p ∧ s.modified i = false)
    (hwaiting : ∀ p i, c.phase p = .waiting i → ∃ b, s.reading p = some (b, i))
    (hwants : ∀ p b i, s.reading p = some (b, i) → s.isCommiting p = true → job p = s.job p)
    (hheld : ∀ i p, c.holder i = some p → s.isValid i = true ∨ ∃ b, s.reading p = some (b, i))
    (hmodified : ∀ i, s.modified i = true → ∃ p, c.holder i = some p)
    (hpins : ∀ t i, s.installed ≤ t → t < s.log.header.length → s.block i = s.homeBlock t →
      0 < s.cache.pins i → 0 < c.pins i)
    (hjobs : ∀ p stage, s.log.phase p = .commiting stage →
      StageOk { s with cache := c, job := job } (job p) stage ∧
        JobOk { s with cache := c, job := job } p (job p))
    (hidle : ∀ p, s.isCommiting p = false → job p = .idle) :
    Invariant { s with cache := c, job := job } := by
  refine h.ofCache (r := s.reading) job hcache (fun j _ => hslots.slots j) (fun j hj => ?_)
    (fun j hj => by rw [hslots.returned]; exact hj) (fun q b i hq => ?_) hwaiting
    (fun q b i hq hc => ?_) (fun i q hq => ?_) hmodified hpins hjobs hidle
  · exact ⟨(hslots.slots j).2.symm.trans hj, (hslots.slots j).1⟩
  · exact ⟨(hslots.slots i).1.trans (h.reading q b i hq).1, hreading q b i hq⟩
  · have hw := h.wants q b i hq hc
    simp only [State.wanted, hwants q b i hq hc] at hw ⊢
    exact hw
  · exact (hheld i q hq).imp_left (hslots.slots i).2.trans

/-- The lock of the chosen buffer. -/
theorem acquire (h : Invariant s) (hs : s.onCache (.acquire p) = some s') : Invariant s' := by
  obtain ⟨l, hl⟩ := h.cache
  obtain ⟨c, hc, rfl⟩ := Option.map_eq_some_iff.mp hs
  obtain ⟨hslots, hpins, i, hwait, hfree, hphase, hholder⟩ := acquire_eq hc
  have hother : ∀ j q, s.cache.holder j = some q → c.holder j = some q := by
    intro j q hq
    rw [hholder, Function.update_of_ne, hq]
    rintro rfl
    rw [hfree] at hq
    cases hq
  have hclean : s.modified i = false := by
    by_contra hm
    obtain ⟨-, q, hq⟩ := h.modified i (by simpa using hm)
    rw [hfree] at hq
    cases hq
  refine h.ofSlots s.job (invariant_step hl hc) hslots ?_ ?_ (fun _ _ _ _ _ => rfl) ?_ ?_
    ?_ ?_ h.idle
  · intro q b j hq
    obtain ⟨-, hcase⟩ := h.reading q b j hq
    by_cases hqp : q = p
    · subst hqp
      rw [hwait] at hcase
      obtain hw | ⟨hr, -⟩ := hcase
      · cases hw
        exact .inr ⟨by rw [hphase, Function.update_self], by rw [hholder, Function.update_self],
          hclean⟩
      · cases hr
    · rw [hphase, Function.update_of_ne hqp]
      exact hcase.imp_right fun ⟨hr, hh, hm⟩ => ⟨hr, hother j q hh, hm⟩
  · intro q j hq
    rw [hphase, Function.update_apply] at hq
    split at hq
    · cases hq
    · exact h.waiting q j hq
  · intro j q hq
    by_cases hj : j = i
    · subst hj
      rw [hholder, Function.update_self] at hq
      cases hq
      exact .inr (h.waiting p j hwait)
    · rw [hholder, Function.update_of_ne hj] at hq
      exact h.held j q hq
  · intro j hj
    obtain ⟨-, q, hq⟩ := h.modified j hj
    exact ⟨q, hother j q hq⟩
  · intro t j _ _ _ hj
    rw [hpins]
    exact hj
  · refine h.jobs_kept { s with cache := c } (fun q _ => ?_) ⟨rfl, rfl, rfl⟩ rfl rfl rfl rfl
    refine ⟨fun j hj => hother j q hj, fun j _ hv => (hslots.slots j).2.trans hv,
      fun j _ => (hslots.slots j).1, fun _ _ _ => rfl, fun _ _ => rfl, fun j _ hj => ?_⟩
    exact (congrFun hpins j).symm ▸ hj

/-- A clean buffer is released; in `commit`, this is a step of the job. -/
theorem releaseWith (h : Invariant s) {c : BufferCache.State π} {i : BufferIndex} (job : π → Job)
    (hc : BufferCache.step s.cache (.release p i) = some c) (hr : s.reading p = none)
    (hclean : s.modified i = false) (hother : ∀ q, q ≠ p → job q = s.job q)
    (hjob : (∀ j, j ≠ i → s.cache.holder j = some p → c.holder j = some p) →
      ∀ stage, s.log.phase p = .commiting stage →
        StageOk { s with cache := c, job := job } (job p) stage ∧
          JobOk { s with cache := c, job := job } p (job p))
    (hidle : s.isCommiting p = false → job p = .idle) :
    Invariant { s with cache := c, job := job } := by
  obtain ⟨l, hl⟩ := h.cache
  obtain ⟨hslots, hpins, hrun, hholds, hphase, hholder⟩ := release_eq hc
  have hkeep : ∀ j q, s.cache.holder j = some q → j ≠ i → c.holder j = some q := by
    intro j q hq hj
    rw [hholder, Function.update_of_ne hj, hq]
  have hne : ∀ j q, q ≠ p → s.cache.holder j = some q → j ≠ i := by
    rintro j q hq hj rfl
    rw [hholds] at hj
    exact hq (Option.some.inj hj).symm
  have hold : ∀ j q, c.holder j = some q → s.cache.holder j = some q := by
    intro j q hq
    rw [hholder, Function.update_apply] at hq
    split at hq
    · cases hq
    · exact hq
  refine h.ofSlots job (invariant_step hl hc) hslots (fun q b j hq => ?_) (fun q j hq => ?_)
    (fun q b j hq _ => hother q ?_) (fun j q hq => h.held j q (hold j q hq)) (fun j hj => ?_)
    (fun t j _ _ _ hj => by rw [hpins]; exact hj) (fun q stage hq => ?_) (fun q hq => ?_)
  · have hqp : q ≠ p := by
      rintro rfl
      rw [hr] at hq
      cases hq
    rw [hphase, Function.update_of_ne hqp]
    exact (h.reading q b j hq).2.imp_right
      fun ⟨hrq, hh, hm⟩ => ⟨hrq, hkeep j q hh (hne j q hqp hh), hm⟩
  · rw [hphase, Function.update_apply] at hq
    split at hq
    · cases hq
    · exact h.waiting q j hq
  · rintro rfl
    rw [hr] at hq
    cases hq
  · obtain ⟨-, q, hq⟩ := h.modified j hj
    refine ⟨q, hkeep j q hq ?_⟩
    rintro rfl
    rw [hclean] at hj
    cases hj
  · by_cases hqp : q = p
    · subst hqp
      exact hjob (fun j hj hq => hkeep j q hq hj) stage hq
    · obtain ⟨hstage, hjobq⟩ := h.jobs q stage hq
      rw [hother q hqp]
      refine ⟨hstage.congr ⟨rfl, rfl, rfl⟩ rfl rfl, hjobq.kept ?_ ⟨rfl, rfl, rfl⟩⟩
      refine ⟨fun j hj => hkeep j q hj (hne j q hqp hj), fun j _ hv => (hslots.slots j).2.trans hv,
        fun j _ => (hslots.slots j).1, fun _ _ _ => rfl, fun _ _ => rfl, fun j _ hj => ?_⟩
      exact (congrFun hpins j).symm ▸ hj
  · by_cases hqp : q = p
    · rw [hqp] at hq ⊢
      exact hidle hq
    · rw [hother q hqp]
      exact h.idle q hq

/-- The reference is dropped. -/
theorem drop (h : Invariant s) (hs : s.onCache (.drop p) = some s') : Invariant s' := by
  obtain ⟨l, hl⟩ := h.cache
  obtain ⟨c, hc, rfl⟩ := Option.map_eq_some_iff.mp hs
  obtain ⟨hslots, hpins, hholder, ⟨i, hrel⟩, hphase⟩ := drop_eq hc
  refine h.ofSlots s.job (invariant_step hl hc) hslots (fun q b j hq => ?_)
    (fun q j hq => ?_) (fun _ _ _ _ _ => rfl) (fun j q hq => h.held j q (hholder ▸ hq))
    (fun j hj => by rw [hholder]; exact (h.modified j hj).2)
    (fun t j _ _ _ hj => by rw [hpins]; exact hj) ?_ h.idle
  · obtain ⟨-, hcase⟩ := h.reading q b j hq
    have hqp : q ≠ p := by
      rintro rfl
      rw [hrel] at hcase
      obtain hw | ⟨hw, -⟩ := hcase <;> cases hw
    rw [hphase, Function.update_of_ne hqp, hholder]
    exact hcase
  · rw [hphase, Function.update_apply] at hq
    split at hq
    · cases hq
    · exact h.waiting q j hq
  · refine h.jobs_kept { s with cache := c } (fun q _ => ?_) ⟨rfl, rfl, rfl⟩ rfl rfl rfl rfl
    refine ⟨fun j hj => (congrFun hholder j).trans hj, fun j _ hv => (hslots.slots j).2.trans hv,
      fun j _ => (hslots.slots j).1, fun _ _ _ => rfl, fun _ _ => rfl, fun j _ hj => ?_⟩
    exact (congrFun hpins j).symm ▸ hj

omit [DecidableEq π] in
theorem validate {c : BufferCache.State π} {l : List BufferIndex}
    (h : BufferCache.Invariant c l) (i : BufferIndex) : BufferCache.Invariant { c with
      cache := c.cache.setBuffer i { c.cache.bufferArray i with isValid := true } } l := by
  have hb : ∀ j, ((c.cache.setBuffer i { c.cache.bufferArray i with isValid := true }).bufferArray
      j).block = (c.cache.bufferArray j).block := by
    intro j
    by_cases hj : j = i
    · subst hj
      simp
    · simp [hj]
  have hr : ∀ j, ((c.cache.setBuffer i { c.cache.bufferArray i with isValid := true }).bufferArray
      j).referenceCount = (c.cache.bufferArray j).referenceCount := by
    intro j
    by_cases hj : j = i
    · subst hj
      simp
    · simp [hj]
  refine ⟨h.ring, h.mem, h.order, ?_, fun j => (hr j).trans (h.count j), fun j hj => ?_, h.drops⟩
  · exact h.blocks.imp fun {j k} hjk heq => hjk (by rw [← hb j, ← hb k, heq])
  · exact (hr j).trans (h.unused j hj)

omit [DecidableEq π] [Fintype π] in
theorem fill_block (s : State π) (i : BufferIndex) : (s.fill i).block = s.block := by
  funext j
  simp only [State.fill, State.block, Cache.setBuffer_bufferArray]
  by_cases hj : j = i
  · subst hj
    simp
  · simp [hj]

omit [DecidableEq π] [Fintype π] in
theorem fill_isValid (s : State π) (i j : BufferIndex) :
    (s.fill i).isValid j = true ↔ s.isValid j = true ∨ j = i := by
  simp only [State.fill, State.isValid, Cache.setBuffer_bufferArray]
  by_cases hj : j = i
  · simp [hj]
  · simp [hj]

omit [DecidableEq π] in
/-- The end of `Buffer.read` for a buffer that is not valid. -/
theorem fill (h : Invariant s) {i : BufferIndex} (hp : s.cache.holder i = some p)
    (hi : s.isValid i = false) : Invariant (s.fill i) := by
  obtain ⟨l, hl⟩ := h.cache
  have hret : s.cache.returned i = true := by
    by_contra hr
    have := hl.unused i (by simpa using hr)
    have := refs_of_holder hl hp
    omega
  have hne : ∀ j, s.isValid j = true → j ≠ i := by
    rintro j hj rfl
    rw [hi] at hj
    cases hj
  have hnone : ∀ j, s.isValid j = true → s.block j ≠ s.block i := by
    intro j hj heq
    have := hl.block_ne hret (hne j hj) heq.symm
    rw [h.used j hj] at this
    cases this
  have hvalid : ∀ j, s.isValid j = true → (s.fill i).isValid j = true :=
    fun j hj => (fill_isValid s i j).mpr (.inl hj)
  constructor
  case cache => exact ⟨l, validate hl i⟩
  case log => exact h.log
  case running => exact h.running
  case room => exact h.room
  case logged => exact h.logged
  case reading =>
    intro q b j hq
    rw [fill_block]
    exact h.reading q b j hq
  case waiting => exact h.waiting
  case wants => exact h.wants
  case held => exact fun j q hq => (h.held j q hq).imp_left (hvalid j)
  case used =>
    intro j hj
    obtain hj | rfl := (fill_isValid s i j).mp hj
    · exact h.used j hj
    · exact hret
  case coherent =>
    have hset : (fun j => (s.fill i).isValid j = true) = fun j => s.isValid j = true ∨ j = i :=
      funext fun j => propext (fill_isValid s i j)
    rw [hset, fill_block]
    refine (h.coherent.fill hnone).mono fun j _ hd => ?_
    unfold Dirty
    rw [fill_block]
    exact hd
  case modified => exact fun j hj => (h.modified j hj).imp_left (hvalid j)
  case pinned =>
    intro t ht hlt
    obtain ⟨j, hj, hb, hpin⟩ := h.pinned t ht hlt
    exact ⟨j, hvalid j hj, by rw [fill_block]; exact hb, hpin⟩
  case copies =>
    rw [fill_block]
    exact h.copies
  case jobs =>
    refine h.jobs_kept _ (fun q _ => ?_) ⟨rfl, rfl, rfl⟩ rfl rfl rfl rfl
    refine ⟨fun j hj => hj, fun j _ hv => hvalid j hv, fun j _ => by rw [fill_block],
      fun j _ hv => ?_, fun _ _ => rfl, fun _ _ hj => hj⟩
    exact Function.update_of_ne (hne j hv) _ _
  case idle => exact h.idle
  case quiet => exact h.quiet

/-- `Buffer.read` returns a valid buffer, and `commit` goes on with it. -/
theorem got (h : Invariant s) {b : BufferCache.DiskBlock} {i : BufferIndex}
    (hr : s.reading p = some (b, i)) (hrun : s.cache.phase p = .running)
    (hv : s.isValid i = true) :
    Invariant ((s.setReading p none).setJob p ((s.job p).got i)) := by
  obtain ⟨hb, hcase⟩ := h.reading p b i hr
  rw [hrun] at hcase
  obtain ⟨-, hh, hm⟩ := hcase.resolve_left nofun
  have hclean : Clean s p i b := ⟨⟨hh, hv, hb⟩, hm⟩
  have hreading : ∀ q r, (s.setReading p none).reading q = some r → s.reading q = some r ∧ q ≠ p := by
    intro q r hq
    simp only [State.setReading, Function.update_apply] at hq
    split at hq
    · cases hq
    next hqp => exact ⟨hq, hqp⟩
  refine h.ofCache (c := s.cache) (r := Function.update s.reading p none)
    (Function.update s.job p ((s.job p).got i)) h.cache (fun _ _ => ⟨rfl, rfl⟩)
    (fun _ hj => ⟨hj, rfl⟩) (fun _ hj => hj) (fun q b' j hq => h.reading q b' j (hreading q _ hq).1)
    (fun q j hq => ?_) (fun q b' j hq hc => ?_) (fun j q hq => ?_)
    (fun j hj => (h.modified j hj).2) (fun _ _ _ _ _ hj => hj) (fun q stage hq => ?_) (fun q hq => ?_)
  · have hqp : q ≠ p := by
      rintro rfl
      rw [hrun] at hq
      cases hq
    obtain ⟨b', hb'⟩ := h.waiting q j hq
    exact ⟨b', by rw [Function.update_of_ne hqp, hb']⟩
  · obtain ⟨hq, hqp⟩ := hreading q _ hq
    have hw := h.wants q b' j hq hc
    simp only [State.wanted, Function.update_of_ne hqp] at hw ⊢
    exact hw
  · obtain hv' | ⟨b', hr'⟩ := h.held j q hq
    · exact .inl hv'
    · by_cases hqp : q = p
      · subst hqp
        rw [hr] at hr'
        obtain ⟨-, rfl⟩ := Prod.mk.inj (Option.some.inj hr')
        exact .inl hv
      · exact .inr ⟨b', by rw [Function.update_of_ne hqp, hr']⟩
  · obtain ⟨hstage, hjob⟩ := h.jobs q stage hq
    have hsame : ∀ {r job}, Kept s { s with reading := r, job := job } q := fun {r job} =>
      ⟨fun _ hj => hj, fun _ _ hv => hv, fun _ _ => rfl, fun _ _ _ => rfl, fun _ _ => rfl,
        fun _ _ hj => hj⟩
    by_cases hqp : q = p
    · subst hqp
      have hw := h.wants q b i hr (isCommiting_iff.mpr ⟨stage, hq⟩)
      rw [Function.update_self]
      unfold State.wanted at hw
      cases hj : s.job q with
      | first t =>
        simp only [hj, Option.ite_none_right_eq_some, Option.some.injEq] at hw
        rw [hj] at hstage
        refine ⟨?_, hw.1, (hw.2 ▸ hclean : Clean s q i (s.logBlock t)).kept hsame⟩
        cases stage <;> exact hstage
      | second t j =>
        simp only [hj, Option.some.injEq] at hw
        rw [hj] at hstage hjob
        refine ⟨?_, hjob.1, hjob.2.kept hsame,
          (hw ▸ hclean : Clean s q i (s.homeBlock t)).kept hsame⟩
        cases stage <;> exact hstage
      | header =>
        simp only [hj, Option.some.injEq] at hw
        rw [hj] at hstage
        refine ⟨?_, (hw ▸ hclean : Clean s q i s.headerBlock).kept hsame⟩
        cases stage <;> exact hstage
      | _ =>
        rw [hj] at hw
        cases hw
    · rw [Function.update_of_ne hqp]
      exact ⟨hstage.congr ⟨rfl, rfl, rfl⟩ rfl rfl, hjob.kept hsame ⟨rfl, rfl, rfl⟩⟩
  · by_cases hqp : q = p
    · subst hqp
      rw [Function.update_self, h.idle q hq]
      rfl
    · rw [Function.update_of_ne hqp]
      exact h.idle q hq

theorem returns (h : Invariant s) (hs : s.returns p = some s') : Invariant s' := by
  unfold State.returns at hs
  split at hs
  next b i hr =>
    simp only [Option.ite_none_right_eq_some, Option.some.injEq] at hs
    obtain ⟨hrun, rfl⟩ := hs
    obtain ⟨-, hcase⟩ := h.reading p b i hr
    rw [hrun] at hcase
    obtain ⟨-, hh, -⟩ := hcase.resolve_left nofun
    by_cases hv : s.isValid i = true
    · rw [if_pos hv]
      exact h.got hr hrun hv
    · rw [if_neg hv]
      exact (h.fill hh (by simpa using hv)).got (s := s.fill i) hr hrun
        ((fill_isValid s i i).mpr (.inr rfl))
  · cases hs

/-! ## Stores and writes -/

/-- A store of the process that holds the buffer. The jobs of the others do not see it. -/
theorem storeWith (h : Invariant s) {i : BufferIndex} {d : Block} (job : π → Job)
    (hv : s.isValid i = true) (hh : s.cache.holder i = some p) (hr : s.reading p = none)
    (hother : ∀ q, q ≠ p → job q = s.job q)
    (hjob : ∀ stage, s.log.phase p = .commiting stage →
      StageOk { s.store i d with job := job } (job p) stage ∧
        JobOk { s.store i d with job := job } p (job p))
    (hidle : s.isCommiting p = false → job p = .idle) :
    Invariant { s.store i d with job := job } := by
  have hmono : ∀ j, s.modified j = true → (s.store i d).modified j = true := by
    intro j hj
    simp only [State.store, Function.update_apply]
    split
    · rfl
    · exact hj
  have hne : ∀ j q, q ≠ p → s.cache.holder j = some q → j ≠ i := by
    rintro j q hq hj rfl
    rw [hh] at hj
    exact hq (Option.some.inj hj).symm
  constructor
  case cache => exact h.cache
  case log => exact h.log
  case running => exact h.running
  case room => exact h.room
  case logged => exact h.logged
  case reading =>
    intro q b j hq
    obtain ⟨hb, hcase⟩ := h.reading q b j hq
    refine ⟨hb, hcase.imp_right fun ⟨hrun, hhq, hm⟩ => ⟨hrun, hhq, ?_⟩⟩
    have hqp : q ≠ p := by
      rintro rfl
      exact absurd (hr.symm.trans hq) nofun
    exact (Function.update_of_ne (hne j q hqp hhq) _ _).trans hm
  case waiting => exact h.waiting
  case wants =>
    intro q b j hq hc
    have hqp : q ≠ p := by
      rintro rfl
      exact absurd (hr.symm.trans hq) nofun
    have hw := h.wants q b j hq hc
    simp only [State.wanted, hother q hqp] at hw ⊢
    exact hw
  case held => exact h.held
  case used => exact h.used
  case coherent =>
    refine h.coherent.store hv d (fun j _ hd => hd.imp_left (hmono j)) (.inl ?_)
    exact Function.update_self ..
  case modified =>
    intro j hj
    by_cases hji : j = i
    · subst hji
      exact ⟨hv, p, hh⟩
    · exact h.modified j ((Function.update_of_ne hji _ _).symm.trans hj)
  case pinned => exact h.pinned
  case copies =>
    intro t ht
    by_cases hb : s.block i = s.homeBlock t
    · exact .inr ⟨i, hb, Function.update_self ..⟩
    · refine (h.copies t ht).imp (fun heq => ?_) fun ⟨j, hbj, hm⟩ => ⟨j, hbj, hmono j hm⟩
      exact heq.trans (Function.update_of_ne (Ne.symm hb) _ _).symm
  case jobs =>
    intro q stage hq
    by_cases hqp : q = p
    · subst hqp
      exact hjob stage hq
    · obtain ⟨hstage, hjobq⟩ := h.jobs q stage hq
      rw [show ({ s.store i d with job := job } : State π).job q = job q from rfl, hother q hqp]
      refine ⟨hstage.congr ⟨rfl, rfl, rfl⟩ rfl rfl, hjobq.kept ?_ ⟨rfl, rfl, rfl⟩⟩
      exact ⟨fun _ hj => hj, fun _ _ hv => hv, fun _ _ => rfl,
        fun j hj _ => Function.update_of_ne (hne j q hqp hj) _ _,
        fun j hj => Function.update_of_ne (hne j q hqp hj) _ _, fun _ _ hj => hj⟩
  case idle =>
    intro q hq
    by_cases hqp : q = p
    · subst hqp
      exact hidle hq
    · exact (hother q hqp).trans (h.idle q hq)
  case quiet => exact h.quiet

omit [DecidableEq π] in
/-- A write of the process that commits. The entries that count as installed from
here on are those of the block that is written. -/
theorem writeWith (h : Invariant s) {i : BufferIndex} {stage : LogGroup.Stage} (job : π → Job)
    (copied installed : ℕ) (hp : s.log.phase p = .commiting stage) (hv : s.isValid i = true)
    (hinstalled : s.installed ≤ installed)
    (hwritten : ∀ t, s.installed ≤ t → t < installed → s.homeBlock t = s.block i)
    (hcopies : ∀ t < copied, (s.write i).disk (s.logBlock t) = s.contents (s.homeBlock t) ∨
      ∃ j, s.block j = s.homeBlock t ∧ (s.write i).modified j = true)
    (hother : ∀ q, q ≠ p → job q = s.job q) (hr : s.reading p = none)
    (hjob : StageOk { s.write i with job := job, copied := copied, installed := installed } (job p)
        stage ∧
      JobOk { s.write i with job := job, copied := copied, installed := installed } p (job p)) :
    Invariant { s.write i with job := job, copied := copied, installed := installed } := by
  have hmod : ∀ j, (s.write i).modified j = true → j ≠ i ∧ s.modified j = true := by
    intro j hj
    simp only [State.write, Function.update_apply] at hj
    split at hj
    · cases hj
    next hji => exact ⟨hji, hj⟩
  have hcommit : s.isCommiting p = true := isCommiting_iff.mpr ⟨stage, hp⟩
  constructor
  case cache => exact h.cache
  case log => exact h.log
  case running => exact h.running
  case room => exact h.room
  case logged => exact h.logged
  case reading =>
    intro q b j hq
    obtain ⟨hb, hcase⟩ := h.reading q b j hq
    refine ⟨hb, hcase.imp_right fun ⟨hrun, hhq, hm⟩ => ⟨hrun, hhq, ?_⟩⟩
    by_contra hne
    have := (hmod j (by simpa using hne)).2
    rw [hm] at this
    cases this
  case waiting => exact h.waiting
  case wants =>
    intro q b j hq hc
    have hqp : q ≠ p := by
      rintro rfl
      exact absurd (hr.symm.trans hq) nofun
    have hw := h.wants q b j hq hc
    simp only [State.wanted, hother q hqp] at hw ⊢
    exact hw
  case held => exact h.held
  case used => exact h.used
  case coherent =>
    refine h.coherent.write hv fun j hj hji hd => ?_
    refine hd.imp (Function.update_of_ne hji _ _).trans fun ⟨t, ht, hlt, hb⟩ => ⟨t, ?_, hlt, hb⟩
    by_contra hge
    exact hji (h.coherent.unique j i hj hv (hb.trans (hwritten t ht (by simpa using hge))))
  case modified => exact fun j hj => h.modified j (hmod j hj).2
  case pinned => exact fun t ht hlt => h.pinned t (hinstalled.trans ht) hlt
  case copies => exact hcopies
  case jobs =>
    intro q stage' hq
    obtain rfl := h.alone hp hq
    have heq : s.log.phase q = .commiting stage' := hq
    rw [hp] at heq
    cases heq
    exact hjob
  case idle =>
    intro q hq
    have hqp : q ≠ p := by
      rintro rfl
      exact absurd (hq.symm.trans hcommit) (by decide)
    exact (hother q hqp).trans (h.idle q hq)
  case quiet =>
    intro hall
    exact absurd ((hall p).symm.trans hcommit) (by decide)

end Invariant

/-! ## Steps of the log -/

/-- A step of the log as the other processes see it. -/
structure Moves (l l' : LogGroup.State π) (p : π) : Prop where
  size : l'.size = l.size
  others : ∀ q, q ≠ p → ∀ stage, l'.phase q = .commiting stage ↔ l.phase q = .commiting stage

omit [Fintype π] in
theorem moves_setPhase {l l' : LogGroup.State π} (f : LogGroup.Phase) (hsize : l'.size = l.size)
    (hphase : l'.phase = l.phase) : Moves l (l'.setPhase p f) p where
  size := hsize
  others q hq stage := by simp [LogGroup.State.setPhase, hq, hphase]

omit [Fintype π] in
theorem moves_wakeup {l l' : LogGroup.State π} (f : LogGroup.Phase) (hsize : l'.size = l.size)
    (hphase : l'.phase = l.phase) : Moves l (l'.wakeup.setPhase p f) p where
  size := hsize
  others q hq stage := by
    simp only [LogGroup.State.setPhase, Function.update_of_ne hq, LogGroup.State.wakeup, hphase]
    split
    next hs => simp [hs]
    · rfl

omit [Fintype π] [DecidableEq π] in
theorem write_phase (l : LogGroup.State π) (number : ℕ) :
    (LogGroup.write l number).size = l.size ∧ (LogGroup.write l number).phase = l.phase := by
  unfold LogGroup.write
  split
  · exact ⟨rfl, rfl⟩
  · split
    · exact ⟨rfl, rfl⟩
    · simp only
      split <;> exact ⟨rfl, rfl⟩

omit [Fintype π] in
theorem moves_step {l l' : LogGroup.State π} {act : LogGroup.Action}
    (hs : LogGroup.step l (p, act) = some l') : Moves l l' p := by
  obtain ⟨-, ⟨-, -, rfl⟩ | ⟨-, -, rfl⟩ | ⟨-, -, rfl⟩ | ⟨number, -, -, rfl⟩ | ⟨-, -, rfl⟩ |
    ⟨stage, -, -, rfl⟩⟩ := LogGroup.step_cases hs
  · exact moves_setPhase _ rfl rfl
  · simp only [LogGroup.beginOperation]
    split <;> exact moves_setPhase _ rfl rfl
  · exact moves_setPhase _ rfl rfl
  · exact ⟨(write_phase l number).1, fun q _ stage => by rw [(write_phase l number).2]⟩
  · simp only [LogGroup.endOperation]
    split
    · exact ⟨rfl, fun _ _ _ => Iff.rfl⟩
    · split
      · exact moves_setPhase _ rfl rfl
      · exact moves_wakeup _ rfl rfl
  · cases stage with
    | check =>
      simp only [LogGroup.commitStage]
      split <;> exact moves_setPhase _ rfl rfl
    | writeLog | writeHead | install | clear => exact moves_setPhase _ rfl rfl
    | finish => exact moves_wakeup _ rfl rfl

omit [Fintype π] in
theorem onLog_eq {e : LogGroup.Event π} (hs : s.onLog e = some s') :
    ∃ l, LogGroup.step s.log e = some l ∧ l.panicked = none ∧ s' = { s with log := l } := by
  obtain ⟨l, hl, hs⟩ := Option.bind_eq_some_iff.mp hs
  split at hs
  · cases hs
  next hp => exact ⟨l, hl, by simpa using hp, (Option.some.inj hs).symm⟩

namespace Invariant

/-- A step of the log that leaves the header alone. -/
theorem ofLog (h : Invariant s) {act : LogGroup.Action} {l : LogGroup.State π} (job : π → Job)
    (hs : LogGroup.step s.log (p, act) = some l) (hn : l.panicked = none)
    (hheader : l.header = s.log.header) (hr : s.reading p = none)
    (hother : ∀ q, q ≠ p → job q = s.job q)
    (hjob : ∀ stage, l.phase p = .commiting stage →
      StageOk { s with log := l, job := job } (job p) stage ∧
        JobOk { s with log := l, job := job } p (job p))
    (hidle : (∀ stage, l.phase p ≠ .commiting stage) → job p = .idle)
    (hquiet : (∀ q stage, l.phase q ≠ .commiting stage) → s.copied = 0 ∧ s.installed = 0) :
    Invariant { s with log := l, job := job } := by
  have hmoves := moves_step hs
  have hlog : SameLog s { s with log := l, job := job } := ⟨hheader, rfl, rfl⟩
  have hcommit : ∀ q, q ≠ p → State.isCommiting { s with log := l, job := job } q =
      s.isCommiting q := by
    intro q hq
    rw [Bool.eq_iff_iff, isCommiting_iff, isCommiting_iff]
    exact exists_congr (hmoves.others q hq)
  constructor
  case cache => exact h.cache
  case log =>
    obtain ⟨a, ha⟩ := h.log
    exact ⟨_, ha.step hs⟩
  case running => exact hn
  case room =>
    change l.header.length < l.size
    rw [hheader, hmoves.size]
    exact h.room
  case logged =>
    rw [hlog.homeBlock]
    intro t ht
    have hl := h.logged t (by rw [← hheader]; exact ht)
    simpa only [State.Loggable, hmoves.size] using hl
  case reading => exact h.reading
  case waiting => exact h.waiting
  case wants =>
    intro q b j hq hc
    have hqp : q ≠ p := by
      rintro rfl
      exact absurd (hr.symm.trans hq) nofun
    have hw := h.wants q b j hq (by rw [← hcommit q hqp]; exact hc)
    simp only [State.wanted, hother q hqp, hlog.logBlock, hlog.homeBlock, hlog.headerBlock,
      hheader] at hw ⊢
    exact hw
  case held => exact h.held
  case used => exact h.used
  case coherent =>
    refine h.coherent.mono fun i _ hd => hd.imp_right fun ⟨t, ht, hlt, hb⟩ => ⟨t, ht, ?_, ?_⟩
    · change t < l.header.length
      rw [hheader]
      exact hlt
    · rw [hlog.homeBlock]
      exact hb
  case modified => exact h.modified
  case pinned =>
    rw [hlog.homeBlock]
    intro t ht hlt
    exact h.pinned t ht (by rw [← hheader]; exact hlt)
  case copies =>
    rw [hlog.homeBlock]
    exact h.copies
  case jobs =>
    intro q stage hq
    by_cases hqp : q = p
    · subst hqp
      exact hjob stage hq
    · obtain ⟨hstage, hjobq⟩ := h.jobs q stage ((hmoves.others q hqp stage).mp hq)
      rw [show State.job { s with log := l, job := job } q = job q from rfl, hother q hqp]
      refine ⟨hstage.congr hlog rfl rfl, hjobq.kept ?_ hlog⟩
      exact ⟨fun _ hj => hj, fun _ _ hv => hv, fun _ _ => rfl, fun _ _ _ => rfl, fun _ _ => rfl,
        fun _ _ hj => hj⟩
  case idle =>
    intro q hq
    by_cases hqp : q = p
    · subst hqp
      refine hidle fun stage hst => ?_
      rw [isCommiting_iff.mpr ⟨stage, hst⟩] at hq
      cases hq
    · exact (hother q hqp).trans (h.idle q (by rw [← hcommit q hqp]; exact hq))
  case quiet =>
    intro hall
    refine hquiet fun q stage hq => ?_
    have := hall q
    rw [isCommiting_iff.mpr ⟨stage, hq⟩] at this
    cases this

end Invariant

end Zigmaos.LoggedCache
