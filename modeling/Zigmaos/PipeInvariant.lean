import Zigmaos.Pipe

/-!
# The ring of a pipe is a lossless queue

The counters are the lengths of what was accepted and delivered, modulo the
word size, so the byte with number `k` of the whole stream is at position
`k % 512` of the ring while it has not been delivered.
-/
namespace Zigmaos.Pipes

/-- The ring holds the bytes accepted and not yet delivered. -/
structure Ring (p : Pipe) (accepted delivered : List UInt8) : Prop where
  readCount : p.readCount = delivered.length % 2 ^ 32
  writeCount : p.writeCount = accepted.length % 2 ^ 32
  le : delivered.length ≤ accepted.length
  bound : accepted.length ≤ delivered.length + pipeSize
  data : ∀ k, delivered.length ≤ k → k < accepted.length →
    p.data (k % pipeSize) = accepted.getD k 0
  isPrefix : delivered <+: accepted

variable {p : Pipe} {accepted delivered : List UInt8}

theorem ring_alloc (garbage : ℕ → UInt8) : Ring (alloc garbage) [] [] := by
  constructor <;> simp [alloc]

namespace Ring

theorem sub32_eq (h : Ring p accepted delivered) :
    sub32 p.writeCount p.readCount = accepted.length - delivered.length := by
  have hle := h.le
  have hb := h.bound
  rw [h.readCount, h.writeCount, sub32]
  simp only [pipeSize] at hb
  split <;> omega

theorem isEmpty_iff (h : Ring p accepted delivered) :
    p.readCount = p.writeCount ↔ accepted.length = delivered.length := by
  have hle := h.le
  have hb := h.bound
  rw [h.readCount, h.writeCount]
  simp only [pipeSize] at hb
  omega

theorem writePosition (h : Ring p accepted delivered) :
    p.writeCount % pipeSize = accepted.length % pipeSize := by
  rw [h.writeCount]
  simp only [pipeSize]
  omega

theorem readPosition (h : Ring p accepted delivered) :
    p.readCount % pipeSize = delivered.length % pipeSize := by
  rw [h.readCount]
  simp only [pipeSize]
  omega

theorem writeChunk_le (h : Ring p accepted delivered) (count written : ℕ) :
    p.writeChunk count written + accepted.length % pipeSize ≤ pipeSize ∧
      accepted.length + p.writeChunk count written ≤ delivered.length + pipeSize := by
  have hle := h.le
  have hb := h.bound
  have := Nat.mod_lt accepted.length (show 0 < pipeSize by decide)
  rw [Pipe.writeChunk, h.sub32_eq, h.writePosition]
  omega

theorem readChunk_le (h : Ring p accepted delivered) (count bytesRead : ℕ) :
    p.readChunk count bytesRead + delivered.length % pipeSize ≤ pipeSize ∧
      delivered.length + p.readChunk count bytesRead ≤ accepted.length := by
  have hle := h.le
  have := Nat.mod_lt delivered.length (show 0 < pipeSize by decide)
  rw [Pipe.readChunk, h.sub32_eq, h.readPosition]
  omega

/-- A copy in that failed left bytes only where nothing is stored. -/
theorem store (h : Ring p accepted delivered) {copied : List UInt8} {count written : ℕ}
    (hlen : copied.length ≤ p.writeChunk count written) :
    Ring { p with data := Pipes.store p.data (p.writeCount % pipeSize) copied } accepted delivered := by
  refine { h with data := fun k hk hlt => ?_ }
  obtain ⟨hend, hfree⟩ := h.writeChunk_le count written
  simp only [Pipes.store, h.writePosition]
  rw [if_neg (by simp only [pipeSize] at *; omega)]
  exact h.data k hk hlt

/-- A chunk that was copied in whole is accepted. -/
theorem accept (h : Ring p accepted delivered) {copied : List UInt8} {count written : ℕ}
    (hlen : copied.length = p.writeChunk count written) :
    Ring { p with
        data := Pipes.store p.data (p.writeCount % pipeSize) copied
        writeCount := add32 p.writeCount (p.writeChunk count written) }
      (accepted ++ copied) delivered := by
  have hle := h.le
  obtain ⟨hend, hfree⟩ := h.writeChunk_le count written
  refine ⟨h.readCount, ?_, ?_, ?_, fun k hk hlt => ?_, h.isPrefix.trans (List.prefix_append _ _)⟩
  · simp only [add32, ← hlen, h.writeCount, List.length_append]
    omega
  · rw [List.length_append]
    omega
  · rw [List.length_append]
    omega
  · rw [List.length_append] at hlt
    by_cases hnew : k < accepted.length
    · rw [List.getD_append _ _ _ _ hnew, ← h.data k hk hnew]
      simp only [Pipes.store, h.writePosition]
      rw [if_neg (by simp only [pipeSize] at *; omega)]
    · -- the chunk ends before the end of the ring
      rw [List.getD_append_right _ _ _ _ (by omega)]
      have hpos : (accepted.length % pipeSize ≤ k % pipeSize ∧
          k % pipeSize < accepted.length % pipeSize + copied.length) ∧
          k % pipeSize - accepted.length % pipeSize = k - accepted.length := by
        simp only [pipeSize] at *
        omega
      simp only [Pipes.store, h.writePosition]
      rw [if_pos hpos.1, hpos.2]

theorem slice_eq (h : Ring p accepted delivered) (count bytesRead : ℕ) :
    p.slice (p.readChunk count bytesRead) =
      (accepted.drop delivered.length).take (p.readChunk count bytesRead) := by
  have hlen := h.readChunk_le count bytesRead
  generalize p.readChunk count bytesRead = n at hlen
  refine List.ext_getElem (by simp [Pipe.slice]; omega) fun i hi _ => ?_
  simp only [Pipe.slice, List.length_map, List.length_range] at hi
  have hdata := h.data (delivered.length + i) (by omega) (by omega)
  rw [List.getD_eq_getElem _ _ (by omega)] at hdata
  simp only [Pipe.slice, List.getElem_map, List.getElem_range, List.getElem_take, List.getElem_drop,
    h.readPosition, ← hdata]
  congr 1
  simp only [pipeSize] at hlen ⊢
  omega

/-- A chunk that was copied out whole is delivered. -/
theorem deliver (h : Ring p accepted delivered) (count bytesRead : ℕ) :
    Ring { p with readCount := add32 p.readCount (p.readChunk count bytesRead) }
      accepted (delivered ++ p.slice (p.readChunk count bytesRead)) := by
  have hle := h.le
  have hb := h.bound
  have hlen := h.readChunk_le count bytesRead
  have hslice := h.slice_eq count bytesRead
  have hlength : (p.slice (p.readChunk count bytesRead)).length = p.readChunk count bytesRead := by
    simp [Pipe.slice]
  refine ⟨?_, h.writeCount, ?_, ?_, fun k hk hlt => h.data k ?_ hlt, ?_⟩
  · simp only [add32, h.readCount, List.length_append, hlength]
    omega
  · rw [List.length_append, hlength]
    omega
  · rw [List.length_append, hlength]
    omega
  · rw [List.length_append] at hk
    omega
  · obtain ⟨rest, hrest⟩ := h.isPrefix
    rw [hslice]
    refine ⟨(accepted.drop delivered.length).drop (p.readChunk count bytesRead), ?_⟩
    rw [List.append_assoc, List.take_append_drop, ← hrest, List.drop_left]

theorem content_eq (h : Ring p accepted delivered) :
    p.content = accepted.drop delivered.length := by
  have hle := h.le
  refine List.ext_getElem (by simp [Pipe.content, h.sub32_eq]) fun i hi _ => ?_
  simp only [Pipe.content, List.length_map, List.length_range, h.sub32_eq] at hi
  have hdata := h.data (delivered.length + i) (by omega) (by omega)
  rw [List.getD_eq_getElem _ _ (by omega)] at hdata
  simp only [Pipe.content, List.getElem_map, List.getElem_range, List.getElem_drop, h.readCount,
    ← hdata]
  congr 1
  simp only [pipeSize]
  omega

end Ring

section
variable {π : Type} [DecidableEq π] {s s' : State π} {e : Event π}

/-- The processes past their tests of `read` may copy, or have nothing to wait for. -/
structure Invariant (s : State π) : Prop where
  ring : Ring s.pipe s.accepted s.delivered
  holds : ∀ q, (s.phase q).holds = true ↔ s.holder = some q
  readLoop : ∀ q count, s.phase q = .readLoop count 0 →
    ¬(s.pipe.readCount = s.pipe.writeCount ∧ s.pipe.writeIsOpen = true)

@[simp] theorem Phase.holds_wakeReader (f : Phase) : f.wakeReader.holds = f.holds := by
  cases f <;> rfl

@[simp] theorem Phase.holds_wakeWriter (f : Phase) : f.wakeWriter.holds = f.holds := by
  cases f <;> rfl

@[simp] theorem Phase.wakeReader_eq_readLoop {f : Phase} {count done : ℕ} :
    f.wakeReader = .readLoop count done ↔ f = .readLoop count done := by
  cases f <;> simp [Phase.wakeReader]

@[simp] theorem Phase.wakeWriter_eq_readLoop {f : Phase} {count done : ℕ} :
    f.wakeWriter = .readLoop count done ↔ f = .readLoop count done := by
  cases f <;> simp [Phase.wakeWriter]

omit [DecidableEq π] in
theorem invariant_initial (garbage : ℕ → UInt8) (isKilled : π → Bool) :
    Invariant (State.initial garbage isKilled) :=
  ⟨ring_alloc garbage, fun q => by simp [State.initial, Phase.holds],
    fun q count h => by simp [State.initial] at h⟩

/-- What a process does that has the lock, or takes it, keeps the invariant of the
others: they are outside the critical sections. -/
theorem Invariant.move (h : Invariant s) {p : π} (f : Phase)
    (hp : s.holder = some p ∨ s.holder = none)
    (hring : Ring s'.pipe s'.accepted s'.delivered)
    (hphase : ∀ q, q ≠ p → (s'.phase q).holds = (s.phase q).holds)
    (hf : s'.phase p = f) (hholder : s'.holder = if f.holds then some p else none)
    (hloop : ∀ count, f = .readLoop count 0 →
      ¬(s'.pipe.readCount = s'.pipe.writeCount ∧ s'.pipe.writeIsOpen = true)) :
    Invariant s' := by
  have hnot : ∀ q, q ≠ p → (s'.phase q).holds = false := by
    intro q hq
    rw [hphase q hq, Bool.eq_false_iff]
    intro hh
    rw [h.holds] at hh
    obtain hp | hp := hp <;> rw [hp] at hh <;> simp_all
  refine ⟨hring, fun q => ?_, fun q count hq => ?_⟩
  · by_cases hqp : q = p
    · subst hqp
      rw [hf, hholder]
      split <;> simp_all
    · have := hnot q hqp
      rw [hholder, this]
      split <;> simp [Ne.symm hqp]
  · by_cases hqp : q = p
    · subst hqp
      exact hloop count (hf ▸ hq)
    · have := hnot q hqp
      rw [hq] at this
      cases this

theorem Invariant.finish (h : Invariant s) {p : π} (hp : s.holder = some p)
    (r : Except PipeError ℕ) : Invariant (s.finish p r) := by
  refine h.move .idle (.inl hp) h.ring (fun q hq => ?_) ?_ rfl nofun
  · simp [State.finish, State.setPhase, hq]
  · simp [State.finish, State.setPhase]

omit [DecidableEq π] in
theorem Invariant.wakeReaders (h : Invariant s) : Invariant s.wakeReaders :=
  ⟨h.ring, fun q => by simpa [State.wakeReaders] using h.holds q,
    fun q count hq => h.readLoop q count (by simpa [State.wakeReaders] using hq)⟩

omit [DecidableEq π] in
theorem Invariant.wakeWriters (h : Invariant s) : Invariant s.wakeWriters :=
  ⟨h.ring, fun q => by simpa [State.wakeWriters] using h.holds q,
    fun q count hq => h.readLoop q count (by simpa [State.wakeWriters] using hq)⟩

theorem Invariant.sleepOn (h : Invariant s) {p : π} (hp : s.holder = some p) {f : Phase}
    (hf : f.holds = false) : Invariant (s.sleepOn p f) := by
  refine h.move f (.inl hp) h.ring (fun q hq => ?_) ?_ (by simp [hf, State.sleepOn]) ?_
  · simp [State.sleepOn, State.setPhase, hq]
  · simp [State.sleepOn, State.setPhase]
  · rintro count rfl
    cases hf

theorem Invariant.setPhase (h : Invariant s) {p : π} (hp : s.holder = some p) {f : Phase}
    (hf : f.holds = true) (hloop : ∀ count, f = .readLoop count 0 →
      ¬(s.pipe.readCount = s.pipe.writeCount ∧ s.pipe.writeIsOpen = true)) :
    Invariant (s.setPhase p f) := by
  refine h.move f (.inl hp) h.ring (fun q hq => ?_) ?_ (by simp [hf, State.setPhase, hp]) hloop
  · simp [State.setPhase, hq]
  · simp [State.setPhase]

/-- A process takes the free lock. -/
theorem Invariant.acquire (h : Invariant s) {p : π} (hp : s.holder = none) {f : Phase}
    (hf : f.holds = true) (hloop : ∀ count, f ≠ .readLoop count 0) :
    Invariant { s.setPhase p f with holder := some p } := by
  refine h.move (p := p) f (.inr hp) h.ring (fun q hq => ?_) ?_ (by simp [hf])
    fun count hc => absurd hc (hloop count)
  · simp [State.setPhase, hq]
  · simp [State.setPhase]

theorem Invariant.writeGo (h : Invariant s) {p : π} (hp : s.holder = some p) {count written : ℕ}
    {copied : List UInt8} {whole : Bool} (hs : s.writeGo p count written copied whole = some s') :
    Invariant s' := by
  unfold State.writeGo at hs
  split at hs
  · obtain rfl := Option.some.inj hs
    exact h.wakeReaders.sleepOn hp rfl
  · simp only at hs
    split at hs
    · split at hs
      next hlen =>
        obtain rfl := Option.some.inj hs
        refine h.move (.writeTest count (written + s.pipe.writeChunk count written)) (.inl hp)
          (h.ring.accept hlen) (fun q hq => ?_) ?_ (by simp [Phase.holds, State.setPhase, hp]) nofun
        · simp [State.setPhase, hq]
        · simp [State.setPhase]
      · cases hs
    · split at hs
      next hlen =>
        obtain rfl := Option.some.inj hs
        have hstored : Invariant { s with pipe := { s.pipe with
            data := store s.pipe.data (s.pipe.writeCount % pipeSize) copied } } :=
          ⟨h.ring.store hlen.le, h.holds, h.readLoop⟩
        exact hstored.wakeReaders.finish hp _
      · cases hs

theorem Pipe.readChunk_pos {count bytesRead : ℕ} (hlt : bytesRead < count)
    (hne : sub32 p.writeCount p.readCount ≠ 0) : 0 < p.readChunk count bytesRead := by
  have := Nat.mod_lt p.readCount (show 0 < pipeSize by decide)
  rw [Pipe.readChunk]
  omega

theorem Invariant.readLoop_step (h : Invariant s) {p : π} (hp : s.holder = some p)
    (count bytesRead : ℕ) (whole : Bool) : Invariant (s.readLoop p count bytesRead whole) := by
  unfold State.readLoop
  split
  next hgo =>
    have hpos := Pipe.readChunk_pos hgo.1 hgo.2.1
    refine h.move (.readLoop count (bytesRead + s.pipe.readChunk count bytesRead)) (.inl hp)
      (h.ring.deliver count bytesRead) (fun q hq => ?_) ?_
      (by simp [Phase.holds, State.setPhase, hp]) fun count' hc => ?_
    · simp [State.setPhase, hq]
    · simp [State.setPhase]
    · simp only [Phase.readLoop.injEq] at hc
      omega
  · exact h.wakeWriters.finish hp _

/-- One step keeps the invariant. -/
theorem invariant_step (h : Invariant s) (he : step s e = some s') : Invariant s' := by
  cases e with
  | write p count | read p count =>
    simp only [step] at he
    split at he
    next hc =>
      obtain rfl := Option.some.inj he
      exact h.acquire hc.2.1 rfl nofun
    · cases he
  | step p copied whole =>
    simp only [step] at he
    have hp : (s.phase p).holds = true → s.holder = some p := (h.holds p).mp
    split at he
    next count written hph =>
      have hp := hp (by rw [hph]; rfl)
      split at he
      · split at he
        · obtain rfl := Option.some.inj he
          exact h.finish hp _
        split at he
        · obtain rfl := Option.some.inj he
          exact h.finish hp _
        · obtain rfl := Option.some.inj he
          exact h.setPhase hp rfl nofun
      · obtain rfl := Option.some.inj he
        exact h.wakeReaders.finish hp _
    next count written hph => exact h.writeGo (hp (by rw [hph]; rfl)) he
    next count hph =>
      have hp := hp (by rw [hph]; rfl)
      split at he
      · split at he
        · obtain rfl := Option.some.inj he
          exact h.finish hp _
        · obtain rfl := Option.some.inj he
          exact h.setPhase hp rfl nofun
      next hwait =>
        obtain rfl := Option.some.inj he
        exact h.setPhase hp rfl fun _ _ => hwait
    next count hph =>
      obtain rfl := Option.some.inj he
      exact h.sleepOn (hp (by rw [hph]; rfl)) rfl
    next count bytesRead hph =>
      obtain rfl := Option.some.inj he
      exact h.readLoop_step (hp (by rw [hph]; rfl)) count bytesRead whole
    · cases he
  | acquire p =>
    simp only [step] at he
    split at he
    next hfree =>
      split at he
      · obtain rfl := Option.some.inj he
        exact h.acquire hfree rfl nofun
      · obtain rfl := Option.some.inj he
        exact h.acquire hfree rfl nofun
      · cases he
    · cases he
  | close closeWrite =>
    simp only [step] at he
    split at he
    next hfree =>
      have hnone : ∀ q count, s.phase q ≠ .readLoop count 0 := by
        intro q count hq
        have := (h.holds q).mp (by rw [hq]; rfl)
        rw [hfree] at this
        cases this
      split at he
      · obtain rfl := Option.some.inj he
        refine Invariant.wakeReaders ⟨{ h.ring with }, h.holds, fun q count hq => ?_⟩
        exact absurd hq (hnone q count)
      · obtain rfl := Option.some.inj he
        refine Invariant.wakeWriters ⟨{ h.ring with }, h.holds, fun q count hq => ?_⟩
        exact absurd hq (hnone q count)
    · cases he
  | kill p =>
    obtain rfl := Option.some.inj he
    refine ⟨h.ring, fun q => ?_, fun q count hq => h.readLoop q count ?_⟩
    · by_cases hq : q = p
      · subst hq
        simpa using h.holds q
      · simpa [hq] using h.holds q
    · by_cases hqp : q = p
      · subst hqp
        simpa using hq
      · simpa [hqp] using hq

/-- Every state of every run has the invariant. -/
theorem invariant_run {garbage : ℕ → UInt8} {isKilled : π → Bool} {es : List (Event π)}
    (h : Transition.run step (State.initial garbage isKilled) es = some s) : Invariant s :=
  Transition.run_induction (P := fun _ s => Invariant s) (invariant_initial garbage isKilled)
    (fun _ _ _ _ _ hs he => invariant_step hs he) es s h

@[simp] theorem Phase.wakeReader_eq_idle {f : Phase} : f.wakeReader = .idle ↔ f = .idle := by
  cases f <;> simp [Phase.wakeReader]

@[simp] theorem Phase.wakeWriter_eq_idle {f : Phase} : f.wakeWriter = .idle ↔ f = .idle := by
  cases f <;> simp [Phase.wakeWriter]

/-- A call only ends in a step of its own. -/
theorem idle_of_step {p : π} (he : step s e = some s') (hp : s.phase p ≠ .idle)
    (hidle : s'.phase p = .idle) : ∃ copied whole, e = .step p copied whole := by
  have hother : ∀ {q f}, q ≠ p → (s.setPhase q f).phase p = s.phase p := by
    intro q f hq
    simp [State.setPhase, hq.symm]
  cases e with
  | step q copied whole =>
    by_contra hne
    have hq : q ≠ p := by
      rintro rfl
      exact hne ⟨copied, whole, rfl⟩
    simp only [step, State.writeGo, State.readLoop] at he
    repeat' split at he
    all_goals
      cases he
      all_goals simp_all [State.finish, State.sleepOn, State.setPhase, State.wakeReaders,
        State.wakeWriters, Ne.symm hq]
  | write q count | read q count =>
    simp only [step] at he
    split at he
    next hc =>
      obtain rfl := Option.some.inj he
      have hq : q ≠ p := by
        rintro rfl
        exact hp hc.1
      exact absurd ((hother hq).symm.trans hidle) hp
    · cases he
  | acquire q =>
    simp only [step] at he
    by_cases hq : q = p
    · subst hq
      repeat' split at he
      all_goals
        cases he
        all_goals simp [State.setPhase] at hidle
    · repeat' split at he
      all_goals
        cases he
        all_goals exact absurd ((hother hq).symm.trans hidle) hp
  | close closeWrite =>
    simp only [step] at he
    repeat' split at he
    all_goals
      cases he
      all_goals simp [State.wakeReaders, State.wakeWriters, hp] at hidle
  | kill q =>
    obtain rfl := Option.some.inj he
    by_cases hq : p = q
    · subst hq
      simp [hp] at hidle
    · simp [hq, hp] at hidle

/-- A `read` that returns 0 asked for nothing, found the pipe empty and closed,
or failed in its first copy. -/
theorem read_zero (h : Invariant s) {p : π} {count : ℕ}
    (hp : (s.phase p).readLength = some count) (he : step s e = some s')
    (hidle : s'.phase p = .idle) (hres : s'.result p = some (.ok 0)) :
    count = 0 ∨ (s.pipe.content = [] ∧ s.pipe.writeIsOpen = false) ∨
      (s.phase p = .readLoop count 0 ∧ ∃ copied, e = .step p copied false) := by
  obtain ⟨copied, whole, rfl⟩ := idle_of_step he
    (by rintro hi; rw [hi] at hp; cases hp) hidle
  simp only [step] at he
  split at he
  next hph => rw [hph] at hp; cases hp
  next hph => rw [hph] at hp; cases hp
  next hph =>
    repeat' split at he
    all_goals
      cases he
      simp [State.finish, State.setPhase] at hidle hres
  next hph =>
    cases he
    simp [State.sleepOn, State.setPhase] at hidle
  next count' bytesRead hph =>
    have hcount : count' = count := by
      rw [hph] at hp
      exact Option.some.inj hp
    subst hcount
    cases he
    unfold State.readLoop at hidle hres
    split at hidle
    · simp [State.setPhase] at hidle
    next hgo =>
      rw [if_neg hgo] at hres
      have hzero : bytesRead = 0 := by
        simpa [State.finish, State.setPhase] using hres
      subst hzero
      by_cases hcount : count' = 0
      · exact .inl hcount
      by_cases hempty : sub32 s.pipe.writeCount s.pipe.readCount = 0
      · refine .inr (.inl ⟨by simp [Pipe.content, hempty], ?_⟩)
        have hwait := h.readLoop p count' hph
        have hle := h.ring.le
        rw [h.ring.sub32_eq] at hempty
        rw [h.ring.isEmpty_iff] at hwait
        simpa [show s.accepted.length = s.delivered.length by omega] using hwait
      · refine .inr (.inr ⟨hph, copied, ?_⟩)
        cases whole with
        | false => rfl
        | true => exact absurd ⟨by omega, hempty, rfl⟩ hgo
  · cases he

/-- Pipes are lossless queues: in every state of every run the ring holds what was
accepted and not yet delivered, at most 512 bytes, in order. -/
theorem lossless_fifo (garbage : ℕ → UInt8) (isKilled : π → Bool) (es : List (Event π))
    (s : State π) (hrun : Transition.run step (State.initial garbage isKilled) es = some s) :
    sub32 s.pipe.writeCount s.pipe.readCount ≤ pipeSize ∧
    s.pipe.content = s.accepted.drop s.delivered.length ∧
    s.delivered <+: s.accepted ∧
    ∀ e s' p count, (s.phase p).readLength = some count → step s e = some s' →
      s'.phase p = .idle → s'.result p = some (.ok 0) →
      count = 0 ∨ (s.pipe.content = [] ∧ s.pipe.writeIsOpen = false) ∨
        (s.phase p = .readLoop count 0 ∧ ∃ copied, e = .step p copied false) := by
  have h := invariant_run hrun
  refine ⟨?_, h.ring.content_eq, h.ring.isPrefix, fun _ _ _ _ hp he hidle hres =>
    read_zero h hp he hidle hres⟩
  rw [h.ring.sub32_eq]
  have := h.ring.bound
  omega

/-- One writer and one reader of the two bytes 7 and 8. -/
theorem lossless_fifo_twoBytes :
    (Transition.run step (State.initial (fun _ => 1) (fun _ : Bool => false))
      [.write true 2, .step true [] true, .step true [7, 8] true, .step true [] true,
        .read false 5, .step false [] true, .step false [] true]).isSome ∧
    ∀ s, Transition.run step (State.initial (fun _ => 1) (fun _ : Bool => false))
      [.write true 2, .step true [] true, .step true [7, 8] true, .step true [] true,
        .read false 5, .step false [] true, .step false [] true] = some s →
      s.delivered <+: s.accepted :=
  ⟨by decide, fun s hs => (lossless_fifo _ _ _ s hs).2.2.1⟩

end

end Zigmaos.Pipes
