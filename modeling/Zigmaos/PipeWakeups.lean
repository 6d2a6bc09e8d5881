import Zigmaos.PipeInvariant

/-!
# Sleepers of a pipe

Data that has been moved is announced before the lock is released, but for one
exit: a writer that finds itself killed returns without a wakeup.
-/
namespace Zigmaos.Pipes
open Transition

section
variable {π : Type} [DecidableEq π] {s s' : State π} {e : Event π} {p : π}

/-- A process sleeps although what it waits for is there, with the lock free. -/
def State.Forgotten (s : State π) : Prop :=
  s.holder = none ∧ ∃ q,
    (∃ count, s.phase q = .readSleep count ∧
      (s.pipe.readCount ≠ s.pipe.writeCount ∨ s.pipe.writeIsOpen = false)) ∨
    ∃ count written, s.phase q = .writeSleep count written ∧
      (s.pipe.isFull = false ∨ s.pipe.readIsOpen = false)

/-- A writer finds itself killed while a reader sleeps and bytes are there, that
is after a chunk which it has not announced. -/
def State.Strands (s : State π) : Event π → Prop
  | .step p _ _ => ∃ count written, s.phase p = .writeTest count written ∧ written < count ∧
      s.pipe.readIsOpen = true ∧ s.isKilled p = true ∧ s.pipe.readCount ≠ s.pipe.writeCount ∧
      ∃ q n, s.phase q = .readSleep n
  | _ => False

def Phase.writing : Phase → Bool
  | .writeTest _ _ | .writeGo _ _ => true
  | _ => false

def Phase.reading : Phase → Bool
  | .readLoop _ _ => true
  | _ => false

/-- Who sleeps waits for something, unless the process that has the lock has moved data. -/
structure Announced (s : State π) : Prop where
  invariant : Invariant s
  reader : ∀ q n, s.phase q = .readSleep n → s.pipe.writeIsOpen = true ∧
    (s.pipe.readCount = s.pipe.writeCount ∨
      s.pipe.readIsOpen = true ∧ ∃ p, s.holder = some p ∧ (s.phase p).writing = true)
  writer : ∀ q n k, s.phase q = .writeSleep n k → s.pipe.readIsOpen = true ∧
    (s.pipe.isFull = true ∨ ∃ p, s.holder = some p ∧ (s.phase p).reading = true)
  readGo : ∀ q n, s.phase q = .readGo n →
    s.pipe.readCount = s.pipe.writeCount ∧ s.pipe.writeIsOpen = true
  writeGo : ∀ q n k, s.phase q = .writeGo n k → s.pipe.readIsOpen = true

omit [DecidableEq π] in
theorem Announced.not_forgotten (h : Announced s) : ¬ s.Forgotten := by
  rintro ⟨hfree, q, ⟨n, hq, hwait⟩ | ⟨n, k, hq, hwait⟩⟩
  · obtain ⟨hopen, hempty | ⟨-, p, hp, -⟩⟩ := h.reader q n hq
    · obtain hwait | hwait := hwait
      · exact hwait hempty
      · rw [hopen] at hwait
        cases hwait
    · rw [hfree] at hp
      cases hp
  · obtain ⟨hopen, hfull | ⟨p, hp, -⟩⟩ := h.writer q n k hq
    · obtain hwait | hwait := hwait
      · rw [hfull] at hwait
        cases hwait
      · rw [hopen] at hwait
        cases hwait
    · rw [hfree] at hp
      cases hp

/-! ### Steps of the process that has the lock -/

omit [DecidableEq π] in
/-- No other process is past a test while one has the lock. -/
theorem Invariant.others (h : Invariant s) (hp : s.holder = some p ∨ s.holder = none) {q : π}
    (hq : q ≠ p) : (s.phase q).holds = false := by
  rw [Bool.eq_false_iff]
  intro hh
  rw [h.holds] at hh
  obtain hp | hp := hp
  · rw [hp] at hh
    exact hq (Option.some.inj hh).symm
  · rw [hp] at hh
    cases hh

omit [DecidableEq π] in
/-- A step after which `p` is in phase `f`, while the others are where they were. -/
theorem Announced.move (h : Announced s) (hi : Invariant s') {f : Phase}
    (hp : s.holder = some p ∨ s.holder = none) (hf : s'.phase p = f)
    (hphase : ∀ q ≠ p, s'.phase q = s.phase q)
    (hreader : ∀ q n, (q = p → f = .readSleep n) → (q ≠ p → s.phase q = .readSleep n) →
      s'.pipe.writeIsOpen = true ∧ (s'.pipe.readCount = s'.pipe.writeCount ∨
        s'.pipe.readIsOpen = true ∧ s'.holder = some p ∧ f.writing = true))
    (hwriter : ∀ q n k, (q = p → f = .writeSleep n k) → (q ≠ p → s.phase q = .writeSleep n k) →
      s'.pipe.readIsOpen = true ∧
        (s'.pipe.isFull = true ∨ s'.holder = some p ∧ f.reading = true))
    (hreadGo : ∀ n, f = .readGo n →
      s'.pipe.readCount = s'.pipe.writeCount ∧ s'.pipe.writeIsOpen = true)
    (hwriteGo : ∀ n k, f = .writeGo n k → s'.pipe.readIsOpen = true) : Announced s' := by
  have hout : ∀ q ≠ p, (s'.phase q).holds = false := fun q hq => by
    rw [hphase q hq]
    exact h.invariant.others hp hq
  have hself : ∀ q g, s'.phase q = g → q = p → f = g := by
    rintro q g hq rfl
    rw [← hf, hq]
  have hother : ∀ q g, s'.phase q = g → q ≠ p → s.phase q = g := fun q g hq hqp => by
    rw [← hphase q hqp, hq]
  refine ⟨hi, fun q n hq => ?_, fun q n k hq => ?_, fun q n hq => ?_, fun q n k hq => ?_⟩
  · obtain ⟨hopen, hempty | ⟨hread, hholder, hwriting⟩⟩ := hreader q n (hself q _ hq) (hother q _ hq)
    · exact ⟨hopen, .inl hempty⟩
    · exact ⟨hopen, .inr ⟨hread, p, hholder, by rw [hf]; exact hwriting⟩⟩
  · obtain ⟨hopen, hfull | ⟨hholder, hreading⟩⟩ := hwriter q n k (hself q _ hq) (hother q _ hq)
    · exact ⟨hopen, .inl hfull⟩
    · exact ⟨hopen, .inr ⟨p, hholder, by rw [hf]; exact hreading⟩⟩
  · by_cases hqp : q = p
    · exact hreadGo n (hself q _ hq hqp)
    · have hno := hout q hqp
      rw [hq] at hno
      cases hno
  · by_cases hqp : q = p
    · exact hwriteGo n k (hself q _ hq hqp)
    · have hno := hout q hqp
      rw [hq] at hno
      cases hno

theorem Phase.wakeReader_ne_readSleep (f : Phase) (n : ℕ) : f.wakeReader ≠ .readSleep n := by
  cases f <;> nofun

theorem Phase.wakeWriter_ne_writeSleep (f : Phase) (n k : ℕ) : f.wakeWriter ≠ .writeSleep n k := by
  cases f <;> nofun

@[simp] theorem Phase.wakeReader_eq_writeSleep {f : Phase} {n k : ℕ} :
    f.wakeReader = .writeSleep n k ↔ f = .writeSleep n k := by
  cases f <;> simp [Phase.wakeReader]

@[simp] theorem Phase.wakeWriter_eq_readSleep {f : Phase} {n : ℕ} :
    f.wakeWriter = .readSleep n ↔ f = .readSleep n := by
  cases f <;> simp [Phase.wakeWriter]

/-- A wakeup changes no phase in which a process has the lock. -/
theorem Phase.wake_of_holds {f : Phase} (h : f.holds = true) :
    f.wakeReader = f ∧ f.wakeWriter = f := by
  cases f <;> first | exact ⟨rfl, rfl⟩ | cases h

theorem Phase.holds_of_wakeReader {f g : Phase} (hg : g.holds = true) (h : f.wakeReader = g) :
    f = g := by
  cases f <;> first | exact h | (subst h; cases hg)

theorem Phase.holds_of_wakeWriter {f g : Phase} (hg : g.holds = true) (h : f.wakeWriter = g) :
    f = g := by
  cases f <;> first | exact h | (subst h; cases hg)

omit [DecidableEq π] in
theorem Announced.wakeReaders (h : Announced s) : Announced s.wakeReaders where
  invariant := h.invariant.wakeReaders
  reader q n hq := absurd hq (Phase.wakeReader_ne_readSleep _ n)
  writer q n k hq := by
    obtain ⟨hopen, hfull | ⟨p, hp, hreading⟩⟩ :=
      h.writer q n k (Phase.wakeReader_eq_writeSleep.mp hq)
    · exact ⟨hopen, .inl hfull⟩
    · refine ⟨hopen, .inr ⟨p, hp, ?_⟩⟩
      have hself := (Phase.wake_of_holds ((h.invariant.holds p).mpr hp)).1
      simp only [State.wakeReaders, hself]
      exact hreading
  readGo q n hq := h.readGo q n (Phase.holds_of_wakeReader rfl hq)
  writeGo q n k hq := h.writeGo q n k (Phase.holds_of_wakeReader rfl hq)

omit [DecidableEq π] in
theorem Announced.wakeWriters (h : Announced s) : Announced s.wakeWriters where
  invariant := h.invariant.wakeWriters
  reader q n hq := by
    obtain ⟨hopen, hempty | ⟨hread, p, hp, hwriting⟩⟩ :=
      h.reader q n (Phase.wakeWriter_eq_readSleep.mp hq)
    · exact ⟨hopen, .inl hempty⟩
    · refine ⟨hopen, .inr ⟨hread, p, hp, ?_⟩⟩
      have hself := (Phase.wake_of_holds ((h.invariant.holds p).mpr hp)).2
      simp only [State.wakeWriters, hself]
      exact hwriting
  writer q n k hq := absurd hq (Phase.wakeWriter_ne_writeSleep _ n k)
  readGo q n hq := h.readGo q n (Phase.holds_of_wakeWriter rfl hq)
  writeGo q n k hq := h.writeGo q n k (Phase.holds_of_wakeWriter rfl hq)

/-- `p` returns, with nothing left that a sleeper waits for. -/
theorem Announced.finish (h : Announced s) (hp : s.holder = some p) (r : Except PipeError ℕ)
    (hreader : ∀ q n, s.phase q = .readSleep n → s.pipe.readCount = s.pipe.writeCount)
    (hwriter : ∀ q n k, s.phase q = .writeSleep n k → s.pipe.isFull = true) :
    Announced (s.finish p r) := by
  refine h.move (h.invariant.finish hp r) (.inl hp) (f := .idle) (by simp [State.finish, State.setPhase])
    (fun q hq => by simp [State.finish, State.setPhase, hq]) (fun q n hself hq => ?_)
    (fun q n k hself hq => ?_) (by simp) (by simp)
  · have hqp : q ≠ p := fun hqp => absurd (hself hqp) (by simp)
    exact ⟨(h.reader q n (hq hqp)).1, .inl (hreader q n (hq hqp))⟩
  · have hqp : q ≠ p := fun hqp => absurd (hself hqp) (by simp)
    exact ⟨(h.writer q n k (hq hqp)).1, .inl (hwriter q n k (hq hqp))⟩

/-- `p` goes on with the lock, and nothing has changed but its phase. -/
theorem Announced.setPhase (h : Announced s) (hp : s.holder = some p) {f : Phase}
    (hf : f.holds = true)
    (hloop : ∀ count, f = .readLoop count 0 →
      ¬(s.pipe.readCount = s.pipe.writeCount ∧ s.pipe.writeIsOpen = true))
    (hwriting : (s.phase p).writing = true → f.writing = true)
    (hreading : (s.phase p).reading = true → f.reading = true)
    (hreadGo : ∀ n, f = .readGo n →
      s.pipe.readCount = s.pipe.writeCount ∧ s.pipe.writeIsOpen = true)
    (hwriteGo : ∀ n k, f = .writeGo n k → s.pipe.readIsOpen = true) :
    Announced (s.setPhase p f) := by
  refine h.move (h.invariant.setPhase hp hf hloop) (.inl hp) (by simp [State.setPhase])
    (fun q hq => by simp [State.setPhase, hq]) (fun q n hself hq => ?_)
    (fun q n k hself hq => ?_) hreadGo hwriteGo
  · have hqp : q ≠ p := by
      rintro hqp
      rw [hself hqp] at hf
      cases hf
    obtain ⟨hopen, hempty | ⟨hread, p', hp', hw⟩⟩ := h.reader q n (hq hqp)
    · exact ⟨hopen, .inl hempty⟩
    · obtain rfl := Option.some.inj (hp.symm.trans hp')
      exact ⟨hopen, .inr ⟨hread, hp, hwriting hw⟩⟩
  · have hqp : q ≠ p := by
      rintro hqp
      rw [hself hqp] at hf
      cases hf
    obtain ⟨hopen, hfull | ⟨p', hp', hr⟩⟩ := h.writer q n k (hq hqp)
    · exact ⟨hopen, .inl hfull⟩
    · obtain rfl := Option.some.inj (hp.symm.trans hp')
      exact ⟨hopen, .inr ⟨hp, hreading hr⟩⟩

/-- A process takes the free lock. -/
theorem Announced.acquire (h : Announced s) (hp : s.holder = none) {f : Phase}
    (hf : f.holds = true) (hloop : ∀ count, f ≠ .readLoop count 0) (hreadGo : ∀ n, f ≠ .readGo n)
    (hwriteGo : ∀ n k, f ≠ .writeGo n k) :
    Announced { s.setPhase p f with holder := some p } := by
  refine h.move (p := p) (h.invariant.acquire hp hf hloop) (.inr hp) (by simp [State.setPhase])
    (fun q hq => by simp [State.setPhase, hq]) (fun q n hself hq => ?_)
    (fun q n k hself hq => ?_) (fun n hn => absurd hn (hreadGo n))
    (fun n k hn => absurd hn (hwriteGo n k))
  · have hqp : q ≠ p := by
      rintro hqp
      rw [hself hqp] at hf
      cases hf
    obtain ⟨hopen, hempty | ⟨-, p', hp', -⟩⟩ := h.reader q n (hq hqp)
    · exact ⟨hopen, .inl hempty⟩
    · rw [hp] at hp'
      cases hp'
  · have hqp : q ≠ p := by
      rintro hqp
      rw [hself hqp] at hf
      cases hf
    obtain ⟨hopen, hfull | ⟨p', hp', -⟩⟩ := h.writer q n k (hq hqp)
    · exact ⟨hopen, .inl hfull⟩
    · rw [hp] at hp'
      cases hp'

omit [DecidableEq π] in
/-- While a writer has the lock no writer is asleep beside a ring with room. -/
theorem Announced.full_of_writing (h : Announced s) (hp : s.holder = some p)
    (hw : (s.phase p).reading = false) (q : π) (n k : ℕ) (hq : s.phase q = .writeSleep n k) :
    s.pipe.isFull = true := by
  obtain ⟨-, hfull | ⟨p', hp', hr⟩⟩ := h.writer q n k hq
  · exact hfull
  · obtain rfl := Option.some.inj (hp.symm.trans hp')
    rw [hw] at hr
    cases hr

omit [DecidableEq π] in
/-- While a reader has the lock no reader is asleep beside bytes. -/
theorem Announced.empty_of_reading (h : Announced s) (hp : s.holder = some p)
    (hw : (s.phase p).writing = false) (q : π) (n : ℕ) (hq : s.phase q = .readSleep n) :
    s.pipe.readCount = s.pipe.writeCount := by
  obtain ⟨-, hempty | ⟨-, p', hp', hr⟩⟩ := h.reader q n hq
  · exact hempty
  · obtain rfl := Option.some.inj (hp.symm.trans hp')
    rw [hw] at hr
    cases hr

omit [DecidableEq π] in
theorem wakeReaders_no_reader (s : State π) (q : π) (n : ℕ) :
    s.wakeReaders.phase q ≠ .readSleep n := Phase.wakeReader_ne_readSleep _ n

omit [DecidableEq π] in
theorem wakeWriters_no_writer (s : State π) (q : π) (n k : ℕ) :
    s.wakeWriters.phase q ≠ .writeSleep n k := Phase.wakeWriter_ne_writeSleep _ n k

theorem Announced.writeGo_step (h : Announced s) {count written : ℕ} {copied : List UInt8}
    {whole : Bool} (hph : s.phase p = .writeGo count written)
    (hs : s.writeGo p count written copied whole = some s') : Announced s' := by
  have hp : s.holder = some p := (h.invariant.holds p).mp (by rw [hph]; rfl)
  have hi := h.invariant.writeGo hp hs
  have hopen := h.writeGo p count written hph
  have hfull := h.full_of_writing hp (by rw [hph]; rfl)
  unfold State.writeGo at hs
  split at hs
  next hisFull =>
    obtain rfl := Option.some.inj hs
    refine h.wakeReaders.move hi (.inl hp) (f := .writeSleep count written)
      (by simp [State.sleepOn, State.setPhase])
      (fun q hq => by simp [State.sleepOn, State.setPhase, hq]) (fun q n hself hq => ?_)
      (fun q n k _ _ => ⟨hopen, .inl hisFull⟩) (by simp) (by simp)
    have hqp : q ≠ p := fun hqp => absurd (hself hqp) (by simp)
    exact absurd (hq hqp) (wakeReaders_no_reader s q n)
  next hroom =>
    have hnone : ∀ q n k, s.phase q ≠ .writeSleep n k := fun q n k hq => hroom (hfull q n k hq)
    simp only at hs
    split at hs
    · split at hs
      · obtain rfl := Option.some.inj hs
        refine h.move hi (.inl hp) (f := .writeTest count (written + s.pipe.writeChunk count written))
          (by simp [State.setPhase])
          (fun q hq => by simp [State.setPhase, hq]) (fun q n hself hq => ?_)
          (fun q n k hself hq => ?_) (by simp) (by simp)
        · have hqp : q ≠ p := fun hqp => absurd (hself hqp) (by simp)
          exact ⟨(h.reader q n (hq hqp)).1, .inr ⟨hopen, hp, rfl⟩⟩
        · have hqp : q ≠ p := fun hqp => absurd (hself hqp) (by simp)
          exact absurd (hq hqp) (hnone q n k)
      · cases hs
    · split at hs
      · obtain rfl := Option.some.inj hs
        refine h.wakeReaders.move hi (.inl hp) (f := .idle) (by simp [State.finish, State.setPhase])
          (fun q hq => by simp [State.finish, State.setPhase, State.wakeReaders, hq])
          (fun q n hself hq => ?_) (fun q n k hself hq => ?_) (by simp) (by simp)
        · have hqp : q ≠ p := fun hqp => absurd (hself hqp) (by simp)
          exact absurd (hq hqp) (wakeReaders_no_reader s q n)
        · have hqp : q ≠ p := fun hqp => absurd (hself hqp) (by simp)
          exact absurd (Phase.wakeReader_eq_writeSleep.mp (hq hqp)) (hnone q n k)
      · cases hs

theorem Announced.readLoop_step (h : Announced s) {count bytesRead : ℕ} (whole : Bool)
    (hph : s.phase p = .readLoop count bytesRead) :
    Announced (s.readLoop p count bytesRead whole) := by
  have hp : s.holder = some p := (h.invariant.holds p).mp (by rw [hph]; rfl)
  have hi := h.invariant.readLoop_step hp count bytesRead whole
  have hempty := h.empty_of_reading hp (by rw [hph]; rfl)
  unfold State.readLoop at hi ⊢
  split
  next hgo =>
    rw [if_pos hgo] at hi
    have hnone : ∀ q n, s.phase q ≠ .readSleep n := by
      intro q n hq
      have hzero := h.invariant.ring.sub32_eq
      have hlen := h.invariant.ring.isEmpty_iff.mp (hempty q n hq)
      exact hgo.2.1 (by omega)
    refine h.move hi (.inl hp) (f := .readLoop count (bytesRead + s.pipe.readChunk count bytesRead))
      (by simp [State.setPhase]) (fun q hq => by simp [State.setPhase, hq]) (fun q n hself hq => ?_)
      (fun q n k hself hq => ?_) (by simp) (by simp)
    · have hqp : q ≠ p := fun hqp => absurd (hself hqp) (by simp)
      exact absurd (hq hqp) (hnone q n)
    · have hqp : q ≠ p := fun hqp => absurd (hself hqp) (by simp)
      exact ⟨(h.writer q n k (hq hqp)).1, .inr ⟨hp, rfl⟩⟩
  · exact h.wakeWriters.finish hp _
      (fun q n hq => hempty q n (Phase.wakeWriter_eq_readSleep.mp hq))
      (fun q n k hq => absurd hq (wakeWriters_no_writer s q n k))

theorem Announced.kill (h : Announced s) (hi : Invariant { s with
      isKilled := Function.update s.isKilled p true
      phase := Function.update s.phase p (s.phase p).wakeReader.wakeWriter }) :
    Announced { s with
      isKilled := Function.update s.isKilled p true
      phase := Function.update s.phase p (s.phase p).wakeReader.wakeWriter } := by
  have hsame : ∀ q, (s.phase q).holds = true →
      Function.update s.phase p (s.phase p).wakeReader.wakeWriter q = s.phase q := by
    intro q hq
    by_cases hqp : q = p
    · subst hqp
      rw [Function.update_self, (Phase.wake_of_holds hq).1, (Phase.wake_of_holds hq).2]
    · rw [Function.update_of_ne hqp]
  have hback : ∀ q f, f.holds = true ∨ (∃ n, f = .readSleep n) ∨ (∃ n k, f = .writeSleep n k) →
      Function.update s.phase p (s.phase p).wakeReader.wakeWriter q = f → s.phase q = f := by
    intro q f hf hq
    by_cases hqp : q = p
    · subst hqp
      rw [Function.update_self] at hq
      obtain hf | ⟨n, rfl⟩ | ⟨n, k, rfl⟩ := hf
      · exact Phase.holds_of_wakeReader hf (Phase.holds_of_wakeWriter hf hq)
      · exact absurd (Phase.wakeWriter_eq_readSleep.mp hq) (Phase.wakeReader_ne_readSleep _ n)
      · exact absurd hq (Phase.wakeWriter_ne_writeSleep _ n k)
    · rwa [Function.update_of_ne hqp] at hq
  refine ⟨hi, fun q n hq => ?_, fun q n k hq => ?_, fun q n hq => ?_, fun q n k hq => ?_⟩
  · obtain ⟨hopen, hempty | ⟨hread, p', hp', hw⟩⟩ := h.reader q n (hback q _ (.inr (.inl ⟨n, rfl⟩)) hq)
    · exact ⟨hopen, .inl hempty⟩
    · refine ⟨hopen, .inr ⟨hread, p', hp', ?_⟩⟩
      dsimp only
      rw [hsame p' ((h.invariant.holds p').mpr hp')]
      exact hw
  · obtain ⟨hopen, hfull | ⟨p', hp', hr⟩⟩ :=
      h.writer q n k (hback q _ (.inr (.inr ⟨n, k, rfl⟩)) hq)
    · exact ⟨hopen, .inl hfull⟩
    · refine ⟨hopen, .inr ⟨p', hp', ?_⟩⟩
      dsimp only
      rw [hsame p' ((h.invariant.holds p').mpr hp')]
      exact hr
  · exact h.readGo q n (hback q _ (.inl rfl) hq)
  · exact h.writeGo q n k (hback q _ (.inl rfl) hq)

/-- One step keeps the invariant, unless it strands a reader. -/
theorem Announced.step (h : Announced s) (he : step s e = some s') (hno : ¬ s.Strands e) :
    Announced s' := by
  have hi := invariant_step h.invariant he
  cases e with
  | write p count | read p count =>
    simp only [Pipes.step] at he
    split at he
    next hc =>
      obtain rfl := Option.some.inj he
      exact h.acquire hc.2.1 rfl (by simp) (by simp) (by simp)
    · cases he
  | step p copied whole =>
    simp only [Pipes.step] at he
    have hp : (s.phase p).holds = true → s.holder = some p := (h.invariant.holds p).mp
    split at he
    next count written hph =>
      have hp := hp (by rw [hph]; rfl)
      have hfull := h.full_of_writing hp (by rw [hph]; rfl)
      split at he
      next hlt =>
        split at he
        next hclosed =>
          obtain rfl := Option.some.inj he
          refine h.finish hp _ (fun q n hq => ?_) hfull
          obtain ⟨-, hempty | ⟨hread, -⟩⟩ := h.reader q n hq
          · exact hempty
          · rw [hread] at hclosed
            cases hclosed
        next hopen =>
          have hopen : s.pipe.readIsOpen = true := by simpa using hopen
          split at he
          next hkilled =>
            obtain rfl := Option.some.inj he
            refine h.finish hp _ (fun q n hq => ?_) hfull
            by_contra hne
            exact hno ⟨count, written, hph, hlt, hopen, hkilled, hne, q, n, hq⟩
          · obtain rfl := Option.some.inj he
            exact h.setPhase hp rfl (by simp) (fun _ => rfl)
              (by rw [hph]; intro h; cases h) (by simp) (fun _ _ _ => hopen)
      · obtain rfl := Option.some.inj he
        exact h.wakeReaders.finish hp _ (fun q n hq => absurd hq (wakeReaders_no_reader s q n))
          (fun q n k hq => hfull q n k (Phase.wakeReader_eq_writeSleep.mp hq))
    next count written hph => exact h.writeGo_step hph he
    next count hph =>
      have hp := hp (by rw [hph]; rfl)
      have hfull := h.full_of_writing hp (by rw [hph]; rfl)
      have hempty := h.empty_of_reading hp (by rw [hph]; rfl)
      split at he
      next hwait =>
        split at he
        · obtain rfl := Option.some.inj he
          exact h.finish hp _ hempty hfull
        · obtain rfl := Option.some.inj he
          exact h.setPhase hp rfl (by simp) (by rw [hph]; intro h; cases h)
            (by rw [hph]; intro h; cases h) (fun _ _ => hwait) (by simp)
      next hwait =>
        obtain rfl := Option.some.inj he
        exact h.setPhase hp rfl (fun _ _ => hwait) (by rw [hph]; intro h; cases h)
          (by rw [hph]; intro h; cases h) (by simp) (by simp)
    next count hph =>
      obtain rfl := Option.some.inj he
      have hp := hp (by rw [hph]; rfl)
      have hfull := h.full_of_writing hp (by rw [hph]; rfl)
      have hempty := h.empty_of_reading hp (by rw [hph]; rfl)
      obtain ⟨hcount, hopen⟩ := h.readGo p count hph
      refine h.move hi (.inl hp) (f := .readSleep count) (by simp [State.sleepOn, State.setPhase])
        (fun q hq => by simp [State.sleepOn, State.setPhase, hq])
        (fun q n _ _ => ⟨hopen, .inl hcount⟩) (fun q n k hself hq => ?_) (by simp) (by simp)
      have hqp : q ≠ p := fun hqp => absurd (hself hqp) (by simp)
      exact ⟨(h.writer q n k (hq hqp)).1, .inl (hfull q n k (hq hqp))⟩
    next count bytesRead hph =>
      obtain rfl := Option.some.inj he
      exact h.readLoop_step whole hph
    · cases he
  | acquire p =>
    simp only [Pipes.step] at he
    split at he
    next hfree =>
      split at he
      · obtain rfl := Option.some.inj he
        exact h.acquire hfree rfl (by simp) (by simp) (by simp)
      · obtain rfl := Option.some.inj he
        exact h.acquire hfree rfl (by simp) (by simp) (by simp)
      · cases he
    · cases he
  | close closeWrite =>
    simp only [Pipes.step] at he
    split at he
    next hfree =>
      have hnot : ∀ q, (s.phase q).holds = false := by
        intro q
        rw [Bool.eq_false_iff]
        intro hh
        rw [h.invariant.holds, hfree] at hh
        cases hh
      split at he
      · obtain rfl := Option.some.inj he
        refine ⟨hi, fun q n hq => absurd hq (wakeReaders_no_reader _ q n), fun q n k hq => ?_,
          fun q n hq => ?_, fun q n k hq => ?_⟩
        · obtain ⟨hopen, hfull | ⟨p, hp, -⟩⟩ := h.writer q n k (Phase.wakeReader_eq_writeSleep.mp hq)
          · exact ⟨hopen, .inl hfull⟩
          · rw [hfree] at hp
            cases hp
        · have hh := hnot q
          rw [Phase.holds_of_wakeReader rfl hq] at hh
          cases hh
        · have hh := hnot q
          rw [Phase.holds_of_wakeReader rfl hq] at hh
          cases hh
      · obtain rfl := Option.some.inj he
        refine ⟨hi, fun q n hq => ?_, fun q n k hq => absurd hq (wakeWriters_no_writer _ q n k),
          fun q n hq => ?_, fun q n k hq => ?_⟩
        · obtain ⟨hopen, hempty | ⟨-, p, hp, -⟩⟩ := h.reader q n (Phase.wakeWriter_eq_readSleep.mp hq)
          · exact ⟨hopen, .inl hempty⟩
          · rw [hfree] at hp
            cases hp
        · have hh := hnot q
          rw [Phase.holds_of_wakeWriter rfl hq] at hh
          cases hh
        · have hh := hnot q
          rw [Phase.holds_of_wakeWriter rfl hq] at hh
          cases hh
    · cases he
  | kill p =>
    obtain rfl := Option.some.inj he
    exact h.kill hi

/-- Where a step strands a reader, that reader is forgotten. -/
theorem forgotten_of_strands (he : step s e = some s') (hno : s.Strands e) : s'.Forgotten := by
  cases e with
  | step p copied whole =>
    obtain ⟨count, written, hph, hlt, hopen, hkilled, hne, q, n, hq⟩ := hno
    have hqp : q ≠ p := by
      rintro rfl
      rw [hph] at hq
      cases hq
    simp only [step, hph, if_pos hlt, hopen, hkilled, Bool.not_true, Bool.false_eq_true, if_false,
      if_true] at he
    obtain rfl := Option.some.inj he
    refine ⟨rfl, q, .inl ⟨n, ?_, .inl hne⟩⟩
    simp [State.finish, State.setPhase, hqp, hq]
  | write | read | acquire | close | kill => exact absurd hno id

omit [DecidableEq π] in
theorem announced_initial (garbage : ℕ → UInt8) (isKilled : π → Bool) :
    Announced (State.initial garbage isKilled) :=
  ⟨invariant_initial garbage isKilled, nofun, nofun, nofun, nofun⟩

/-- No sleeper of the pipe is forgotten, exactly in the runs in which no writer finds
itself killed after a chunk that it has not announced while a reader sleeps. -/
theorem no_sleeper_forgotten_iff {garbage : ℕ → UInt8} {isKilled : π → Bool}
    {es : List (Event π)} (hs : run step (State.initial garbage isKilled) es = some s) :
    (∀ fs s₁, fs <+: es → run step (State.initial garbage isKilled) fs = some s₁ →
      s₁.holder = none → ∀ q,
        (∀ count, s₁.phase q = .readSleep count →
          s₁.pipe.readCount = s₁.pipe.writeCount ∧ s₁.pipe.writeIsOpen = true) ∧
        ∀ count written, s₁.phase q = .writeSleep count written →
          s₁.pipe.isFull = true ∧ s₁.pipe.readIsOpen = true) ↔
      ∀ fs e s₁, fs ++ [e] <+: es → run step (State.initial garbage isKilled) fs = some s₁ →
        ¬ s₁.Strands e := by
  have hiff := run_good_iff (Announced (π := π)) (fun s => ¬ s.Forgotten) (fun s e => ¬ s.Strands e)
    (announced_initial garbage isKilled) (fun s h => h.not_forgotten)
    (fun s e s' h he hno => h.step he hno)
    (fun s e s' _ he hno => not_not.mpr (forgotten_of_strands he (not_not.mp hno))) hs
  refine Iff.trans (forall₄_congr fun fs s₁ _ _ => ?_) hiff
  constructor
  · rintro h ⟨hfree, q, ⟨n, hq, hwait⟩ | ⟨n, k, hq, hwait⟩⟩
    · obtain ⟨hempty, hopen⟩ := (h hfree q).1 n hq
      rw [hopen] at hwait
      exact hwait.elim (fun hne => hne hempty) nofun
    · obtain ⟨hfull, hopen⟩ := (h hfree q).2 n k hq
      rw [hfull, hopen] at hwait
      exact hwait.elim nofun nofun
  · intro h hfree q
    refine ⟨fun n hq => ?_, fun n k hq => ?_⟩
    · by_contra hnot
      refine h ⟨hfree, q, .inl ⟨n, hq, ?_⟩⟩
      by_cases hempty : s₁.pipe.readCount = s₁.pipe.writeCount
      · exact .inr (by simpa [hempty] using hnot)
      · exact .inl hempty
    · by_contra hnot
      refine h ⟨hfree, q, .inr ⟨n, k, hq, ?_⟩⟩
      by_cases hfull : s₁.pipe.isFull = true
      · exact .inr (by simpa [hfull] using hnot)
      · exact .inl (by simpa using hfull)

/-- A reader sleeps while a writer of 513 bytes is killed after a chunk of 512. -/
def killedWriter : List (Event Bool) :=
  [.read false 1, .step false [] true, .step false [] true, .write true 513,
    .step true [] true, .step true (List.replicate 512 7) true, .kill true, .step true [] true]

/-- The reader sleeps beside the bytes, with the lock free. -/
theorem killed_writer_forgets :
    ∃ s, run step (State.initial (fun _ => 0) fun _ => false) killedWriter = some s ∧
      s.holder = none ∧ s.phase false = .readSleep 1 ∧ s.pipe.readCount ≠ s.pipe.writeCount := by
  have hrun : (run step (State.initial (fun _ => 0) fun _ => false) killedWriter).any (fun s =>
      s.holder = none ∧ s.phase false = .readSleep 1 ∧ s.pipe.readCount ≠ s.pipe.writeCount) =
        true := by decide +kernel
  obtain ⟨s, hs, h⟩ := (Option.any_eq_true _ _).mp hrun
  exact ⟨s, hs, of_decide_eq_true h⟩

/-- So there is a step in that run which strands it. -/
theorem no_sleeper_forgotten_killedWriter :
    ∃ fs e s, run step (State.initial (fun _ => 0) fun _ => false) fs = some s ∧ s.Strands e ∧
      fs ++ [e] <+: killedWriter := by
  have hrun : (run step (State.initial (fun _ => 0) fun _ => false) killedWriter).any (fun s =>
      s.holder = none ∧ s.phase false = .readSleep 1 ∧ s.pipe.readCount ≠ s.pipe.writeCount) =
        true := by decide +kernel
  obtain ⟨s, hs, h⟩ := (Option.any_eq_true _ _).mp hrun
  obtain ⟨hfree, hq, hne⟩ := of_decide_eq_true h
  by_contra hnone
  have hgood := (no_sleeper_forgotten_iff hs).mpr fun fs e s₁ hp hs₁ hno =>
    hnone ⟨fs, e, s₁, hs₁, hno, hp⟩
  exact hne ((hgood _ s (List.prefix_refl _) hs hfree false).1 1 hq).1

end

end Zigmaos.Pipes
