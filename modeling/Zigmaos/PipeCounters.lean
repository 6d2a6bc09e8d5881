import Zigmaos.PipeInvariant

/-!
# The counters of a pipe as numbers

`write` and `read` compute with the checked operators of `u32`. The counters run
on for as long as the pipe lives, so the test for a full ring is the first
operation that leaves the range, when 2³² - 512 bytes have been read.
-/
namespace Zigmaos.Pipes
open Transition

section
variable {π : Type} [DecidableEq π] {s s' : State π} {e : Event π} {p : π}

/-- An operation of `u32` in the step has a result that is out of range. -/
def State.Overflows (s : State π) : Event π → Prop
  | .step p _ whole =>
    let pipe := s.pipe
    match s.phase p with
    | .writeGo count written =>
      2 ^ 32 ≤ pipe.readCount + pipeSize ∨ ¬ pipe.isFull ∧
        (pipe.writeCount < pipe.readCount ∨ pipeSize < pipe.writeCount - pipe.readCount ∨
          count < written ∨ pipeSize < pipe.writeCount % pipeSize ∨
          2 ^ 32 ≤ pipe.writeCount % pipeSize + pipe.writeChunk count written ∨
          whole ∧ (2 ^ 32 ≤ written + pipe.writeChunk count written ∨
            2 ^ 32 ≤ pipe.writeCount + pipe.writeChunk count written))
    | .readLoop count bytesRead =>
      bytesRead < count ∧ (pipe.writeCount < pipe.readCount ∨
        pipe.writeCount - pipe.readCount ≠ 0 ∧
          (count < bytesRead ∨ pipeSize < pipe.readCount % pipeSize ∨
            2 ^ 32 ≤ pipe.readCount % pipeSize + pipe.readChunk count bytesRead ∨
            whole ∧ (2 ^ 32 ≤ bytesRead + pipe.readChunk count bytesRead ∨
              2 ^ 32 ≤ pipe.readCount + pipe.readChunk count bytesRead)))
    | _ => False
  | _ => False

/-- A writer is past its tests when the readers have been given 2³² - 512 bytes. -/
def State.Late (s : State π) : Event π → Prop
  | .step p _ _ => (∃ count written, s.phase p = .writeGo count written) ∧
      2 ^ 32 ≤ s.delivered.length + pipeSize
  | _ => False

/-- How far a call has come. -/
def Phase.Bounded : Phase → Prop
  | .writeGo count written => written < count ∧ count < 2 ^ 32
  | .writeTest count written | .writeSleep count written | .writeWake count written =>
    written ≤ count ∧ count < 2 ^ 32
  | .readTest count | .readGo count | .readSleep count | .readWake count => count < 2 ^ 32
  | .readLoop count bytesRead => bytesRead ≤ count ∧ count < 2 ^ 32
  | .idle => True

theorem Phase.Bounded.wakeReader {f : Phase} (h : f.Bounded) : f.wakeReader.Bounded := by
  cases f <;> exact h

theorem Phase.Bounded.wakeWriter {f : Phase} (h : f.Bounded) : f.wakeWriter.Bounded := by
  cases f <;> exact h

theorem bounded_update (h : ∀ q, (s.phase q).Bounded) {f : Phase} (hf : f.Bounded) (q : π) :
    (Function.update s.phase p f q).Bounded := by
  by_cases hq : q = p
  · rw [hq, Function.update_self]
    exact hf
  · rw [Function.update_of_ne hq]
    exact h q

theorem Pipe.writeChunk_le (pipe : Pipe) (count written : ℕ) :
    pipe.writeChunk count written ≤ count - written :=
  (Nat.min_le_right _ _).trans (Nat.min_le_right _ _)

theorem Pipe.readChunk_le (pipe : Pipe) (count bytesRead : ℕ) :
    pipe.readChunk count bytesRead ≤ count - bytesRead :=
  (Nat.min_le_right _ _).trans (Nat.min_le_right _ _)

theorem bounded_step (h : ∀ q, (s.phase q).Bounded) (he : step s e = some s') :
    ∀ q, (s'.phase q).Bounded := by
  have hreaders : ∀ q, (s.wakeReaders.phase q).Bounded := fun q => (h q).wakeReader
  have hwriters : ∀ q, (s.wakeWriters.phase q).Bounded := fun q => (h q).wakeWriter
  cases e with
  | write p count =>
    simp only [step] at he
    split at he
    next hc =>
      obtain rfl := Option.some.inj he
      exact bounded_update h ⟨Nat.zero_le _, hc.2.2⟩
    · cases he
  | read p count =>
    simp only [step] at he
    split at he
    next hc =>
      obtain rfl := Option.some.inj he
      exact bounded_update h hc.2.2
    · cases he
  | step p copied whole =>
    have hp := h p
    simp only [step] at he
    split at he
    next count written hph =>
      rw [hph] at hp
      split at he
      next hlt =>
        split at he
        · obtain rfl := Option.some.inj he
          exact bounded_update h trivial
        split at he
        · obtain rfl := Option.some.inj he
          exact bounded_update h trivial
        · obtain rfl := Option.some.inj he
          exact bounded_update h ⟨hlt, hp.2⟩
      · obtain rfl := Option.some.inj he
        exact bounded_update (s := s.wakeReaders) hreaders trivial
    next count written hph =>
      rw [hph] at hp
      have hle := s.pipe.writeChunk_le count written
      unfold State.writeGo at he
      split at he
      · obtain rfl := Option.some.inj he
        exact bounded_update (s := s.wakeReaders) hreaders ⟨hp.1.le, hp.2⟩
      · simp only at he
        split at he
        · split at he
          · obtain rfl := Option.some.inj he
            refine bounded_update h ⟨?_, hp.2⟩
            have := hp.1
            omega
          · cases he
        · split at he
          · obtain rfl := Option.some.inj he
            exact bounded_update (s := s.wakeReaders) hreaders trivial
          · cases he
    next count hph =>
      rw [hph] at hp
      split at he
      · split at he
        · obtain rfl := Option.some.inj he
          exact bounded_update h trivial
        · obtain rfl := Option.some.inj he
          exact bounded_update h hp
      · obtain rfl := Option.some.inj he
        exact bounded_update h ⟨Nat.zero_le _, hp⟩
    next count hph =>
      rw [hph] at hp
      obtain rfl := Option.some.inj he
      exact bounded_update h hp
    next count bytesRead hph =>
      rw [hph] at hp
      have hle := s.pipe.readChunk_le count bytesRead
      obtain rfl := Option.some.inj he
      unfold State.readLoop
      split
      · refine bounded_update h ⟨?_, hp.2⟩
        have := hp.1
        omega
      · exact bounded_update (s := s.wakeWriters) hwriters trivial
    · cases he
  | acquire p =>
    have hp := h p
    simp only [step] at he
    split at he
    · split at he
      next hph =>
        rw [hph] at hp
        obtain rfl := Option.some.inj he
        exact bounded_update h hp
      next hph =>
        rw [hph] at hp
        obtain rfl := Option.some.inj he
        exact bounded_update h hp
      · cases he
    · cases he
  | close closeWrite =>
    simp only [step] at he
    split at he
    · split at he
      · obtain rfl := Option.some.inj he
        exact hreaders
      · obtain rfl := Option.some.inj he
        exact hwriters
    · cases he
  | kill p =>
    obtain rfl := Option.some.inj he
    exact bounded_update h (h p).wakeReader.wakeWriter

/-! ### Streams below the range -/

/-- The counters have not wrapped. -/
structure Exact (s : State π) : Prop where
  invariant : Invariant s
  bounded : ∀ q, (s.phase q).Bounded
  accepted : s.accepted.length < 2 ^ 32

omit [DecidableEq π] in
theorem Exact.readCount (h : Exact s) : s.pipe.readCount = s.delivered.length := by
  have hle := h.invariant.ring.le
  have hlt := h.accepted
  rw [h.invariant.ring.readCount]
  exact Nat.mod_eq_of_lt (by omega)

omit [DecidableEq π] in
theorem Exact.writeCount (h : Exact s) : s.pipe.writeCount = s.accepted.length := by
  rw [h.invariant.ring.writeCount]
  exact Nat.mod_eq_of_lt h.accepted

omit [DecidableEq π] in
theorem Exact.overflows_iff (h : Exact s) (e : Event π) : s.Overflows e ↔ s.Late e := by
  have hr := h.readCount
  have hw := h.writeCount
  have hle := h.invariant.ring.le
  have hbound := h.invariant.ring.bound
  have hacc := h.accepted
  cases e with
  | step p copied whole =>
    have hp := h.bounded p
    unfold State.Overflows State.Late
    dsimp only
    cases hph : s.phase p with
    | writeGo count written =>
      rw [hph] at hp
      obtain ⟨hlt, hcount⟩ := hp
      obtain ⟨hend, hroom⟩ := h.invariant.ring.writeChunk_le count written
      have hchunk := s.pipe.writeChunk_le count written
      simp only [hr, hw]
      constructor
      · rintro (hlate | ⟨-, hrest⟩)
        · exact ⟨⟨count, written, rfl⟩, hlate⟩
        · refine ⟨⟨count, written, rfl⟩, ?_⟩
          simp only [pipeSize] at *
          omega
      · exact fun hlate => .inl hlate.2
    | readLoop count bytesRead =>
      rw [hph] at hp
      obtain ⟨hlt, hcount⟩ := hp
      obtain ⟨hend, hroom⟩ := h.invariant.ring.readChunk_le count bytesRead
      have hchunk := s.pipe.readChunk_le count bytesRead
      simp only [hr, hw]
      refine iff_of_false (fun hover => ?_) (fun hlate => ?_)
      · simp only [pipeSize] at *
        omega
      · obtain ⟨⟨_, _, hno⟩, -⟩ := hlate
        cases hno
    | _ =>
      refine iff_of_false id fun hlate => ?_
      obtain ⟨⟨_, _, hno⟩, -⟩ := hlate
      cases hno
  | write | read | acquire | close | kill => exact Iff.rfl

/-- Only a chunk that is accepted lengthens the stream. -/
theorem accepted_step (he : step s e = some s') :
    s'.accepted = s.accepted ∨ ∃ p copied whole count written, e = .step p copied whole ∧
      s.phase p = .writeGo count written ∧ copied.length = s.pipe.writeChunk count written ∧
      s'.accepted = s.accepted ++ copied := by
  cases e with
  | write p count | read p count =>
    simp only [step] at he
    split at he
    · obtain rfl := Option.some.inj he
      exact .inl rfl
    · cases he
  | step p copied whole =>
    simp only [step] at he
    split at he
    · repeat' split at he
      all_goals
        obtain rfl := Option.some.inj he
        exact .inl rfl
    next count written hph =>
      unfold State.writeGo at he
      split at he
      · obtain rfl := Option.some.inj he
        exact .inl rfl
      · simp only at he
        split at he
        · split at he
          next hlen =>
            obtain rfl := Option.some.inj he
            exact .inr ⟨p, copied, whole, count, written, rfl, hph, hlen, rfl⟩
          · cases he
        · split at he
          · obtain rfl := Option.some.inj he
            exact .inl rfl
          · cases he
    · repeat' split at he
      all_goals
        obtain rfl := Option.some.inj he
        exact .inl rfl
    · obtain rfl := Option.some.inj he
      exact .inl rfl
    · obtain rfl := Option.some.inj he
      unfold State.readLoop
      split
      · exact .inl rfl
      · exact .inl rfl
    · cases he
  | acquire p =>
    simp only [step] at he
    repeat' split at he
    all_goals
      cases he
      try exact .inl rfl
  | close closeWrite =>
    simp only [step] at he
    repeat' split at he
    all_goals
      cases he
      try exact .inl rfl
  | kill p =>
    obtain rfl := Option.some.inj he
    exact .inl rfl

theorem Exact.step (h : Exact s) (he : step s e = some s') (hno : ¬ s.Late e) : Exact s' := by
  refine ⟨invariant_step h.invariant he, bounded_step h.bounded he, ?_⟩
  obtain heq | ⟨p, copied, whole, count, written, rfl, hph, hlen, heq⟩ := accepted_step he
  · rw [heq]
    exact h.accepted
  · obtain ⟨-, hroom⟩ := h.invariant.ring.writeChunk_le count written
    have hearly : ¬ 2 ^ 32 ≤ s.delivered.length + pipeSize :=
      fun hlate => hno ⟨⟨count, written, hph⟩, hlate⟩
    rw [heq, List.length_append, hlen]
    omega

omit [DecidableEq π] in
theorem exact_initial (garbage : ℕ → UInt8) (isKilled : π → Bool) :
    Exact (State.initial garbage isKilled) :=
  ⟨invariant_initial garbage isKilled, fun _ => trivial, by simp [State.initial]⟩

/-- No operation on the counters leaves the range of `u32`, exactly in the runs in which
no writer gets past its tests once 2³² - 512 bytes have been read. -/
theorem counters_in_range_iff {garbage : ℕ → UInt8} {isKilled : π → Bool} {es : List (Event π)}
    (hs : run step (State.initial garbage isKilled) es = some s) :
    (∀ fs e s₁, fs ++ [e] <+: es → run step (State.initial garbage isKilled) fs = some s₁ →
      ¬ s₁.Overflows e) ↔
    ∀ fs e s₁, fs ++ [e] <+: es → run step (State.initial garbage isKilled) fs = some s₁ →
      ¬ s₁.Late e :=
  run_steps_iff Exact (fun s e => ¬ s.Overflows e) (fun s e => ¬ s.Late e)
    (exact_initial garbage isKilled) (fun _ e _ h _ => not_congr (h.overflows_iff e))
    (fun _ _ _ h he hno => h.step he hno) hs

end

/-! ### A long stream -/

/-- One process writes 512 bytes and reads them. -/
def roundTrip (bytes : List UInt8) : List (Event Unit) :=
  [.write () 512, .step () [] true, .step () bytes true, .step () [] true,
    .read () 512, .step () [] true, .step () [] true, .step () [] true]

/-- Between two round trips. -/
structure Resting (s : State Unit) (n : ℕ) : Prop where
  holder : s.holder = none
  phase : s.phase () = .idle
  isKilled : s.isKilled () = false
  readIsOpen : s.pipe.readIsOpen = true
  readCount : s.pipe.readCount = 512 * n
  writeCount : s.pipe.writeCount = 512 * n
  delivered : s.delivered.length = 512 * n

theorem Resting.roundTrip {s : State Unit} {n : ℕ} (h : Resting s n) (hn : 512 * (n + 1) < 2 ^ 32)
    {bytes : List UInt8} (hbytes : bytes.length = 512) :
    ∃ s', run step s (roundTrip bytes) = some s' ∧ Resting s' (n + 1) := by
  obtain ⟨pipe, holder, phase, isKilled, result, accepted, delivered⟩ := s
  obtain ⟨data, readCount, writeCount, readIsOpen, writeIsOpen⟩ := pipe
  obtain ⟨rfl, hphase, hkilled, hopen, rfl, rfl, hdelivered⟩ := h
  dsimp only at *
  subst hopen
  have hmod : 512 * n % 512 = 0 := by omega
  have hadd : add32 (512 * n) 512 = 512 * n + 512 := by
    unfold add32
    omega
  have hsub : sub32 (512 * n) (512 * n) = 0 := by simp [sub32]
  have hsub' : sub32 (512 * n + 512) (512 * n) = 512 := by simp [sub32]
  obtain ⟨f, hwrite, hf⟩ : ∃ f, run step ⟨⟨data, 512 * n, 512 * n, true, writeIsOpen⟩, none, phase,
      isKilled, result, accepted, delivered⟩
        [.write () 512, .step () [] true, .step () bytes true, .step () [] true] =
        some ⟨⟨store data 0 bytes, 512 * n, 512 * n + 512, true, writeIsOpen⟩, none, f, isKilled,
          Function.update result () (some (.ok 512)), accepted ++ bytes, delivered⟩ ∧
        f () = .idle := by
    simp [hbytes, run_cons, step, hphase, State.setPhase, hkilled, State.writeGo, Pipe.isFull,
      pipeSize, hadd, hsub, Pipe.writeChunk, hmod, State.finish, State.wakeReaders,
      Phase.wakeReader, Option.bind]
  have hread : run step ⟨⟨store data 0 bytes, 512 * n, 512 * n + 512, true, writeIsOpen⟩, none, f,
      isKilled, Function.update result () (some (.ok 512)), accepted ++ bytes, delivered⟩
        [.read () 512, .step () [] true, .step () [] true, .step () [] true] =
        some ⟨⟨store data 0 bytes, 512 * n + 512, 512 * n + 512, true, writeIsOpen⟩, none,
          Function.update (fun _ => .readLoop 512 512) () .idle, isKilled,
          Function.update result () (some (.ok 512)), accepted ++ bytes,
          delivered ++ Pipe.slice ⟨store data 0 bytes, 512 * n, 512 * n + 512, true, writeIsOpen⟩
            512⟩ := by
    simp [run_cons, step, hf, State.setPhase, State.readLoop, Pipe.readChunk, pipeSize, hadd,
      hsub', State.finish, State.wakeWriters, Phase.wakeWriter, Option.bind, hmod]
  exact ⟨_, (run_append_of_eq hwrite).trans hread, rfl, by simp, hkilled, rfl, rfl, rfl, by
    simp only [List.length_append, Pipe.slice, List.length_map, List.length_range, hdelivered]
    omega⟩

/-- The stream can be as long as the counters reach. -/
theorem exists_resting {n : ℕ} (hn : 512 * n < 2 ^ 32) :
    ∃ es s, run step (State.initial (fun _ => 0) fun _ : Unit => false) es = some s ∧ Resting s n := by
  induction n with
  | zero => exact ⟨[], _, rfl, rfl, rfl, rfl, rfl, rfl, rfl, rfl⟩
  | succ n ih =>
    obtain ⟨es, s, hs, hrest⟩ := ih (by omega)
    obtain ⟨s', hs', hrest'⟩ := hrest.roundTrip hn (List.length_replicate (n := 512) (a := 0))
    exact ⟨es ++ roundTrip (List.replicate 512 0), s', by rw [run_append_of_eq hs, hs'], hrest'⟩

/-- The writer of a byte gets past its tests. -/
theorem Resting.write {s : State Unit} {n : ℕ} (h : Resting s n) :
    ∃ s₁, run step s [.write () 1, .step () [] true] = some s₁ ∧ s₁.phase () = .writeGo 1 0 ∧
      s₁.pipe.readCount = 512 * n ∧ s₁.pipe.writeCount = 512 * n := by
  obtain ⟨pipe, holder, phase, isKilled, result, accepted, delivered⟩ := s
  obtain ⟨data, readCount, writeCount, readIsOpen, writeIsOpen⟩ := pipe
  obtain ⟨rfl, hphase, hkilled, hopen, rfl, rfl, -⟩ := h
  dsimp only at *
  subst hopen
  have hrun : run step ⟨⟨data, 512 * n, 512 * n, true, writeIsOpen⟩, none, phase, isKilled, result,
      accepted, delivered⟩ [.write () 1, .step () [] true] =
        some ⟨⟨data, 512 * n, 512 * n, true, writeIsOpen⟩, some (),
          Function.update (Function.update phase () (.writeTest 1 0)) () (.writeGo 1 0), isKilled,
          result, accepted, delivered⟩ := by
    simp [run_cons, step, hphase, State.setPhase, hkilled]
  exact ⟨_, hrun, by simp, rfl, rfl⟩

/-- A byte is written after 2³² - 512 bytes: the test for a full ring overflows. -/
theorem long_stream_overflows :
    ∃ es s, run step (State.initial (fun _ => 0) fun _ : Unit => false) es = some s ∧
      s.phase () = .writeGo 1 0 ∧ s.Overflows (.step () [7] true) := by
  obtain ⟨n, hn⟩ : ∃ n, 512 * n + 512 = 2 ^ 32 := ⟨2 ^ 23 - 1, by norm_num⟩
  obtain ⟨es, s, hs, hrest⟩ := exists_resting (n := n) (by omega)
  obtain ⟨s₁, hs₁, hphase, hread, -⟩ := hrest.write
  have hover : 2 ^ 32 ≤ s₁.pipe.readCount + pipeSize := by
    rw [hread, pipeSize, hn]
  refine ⟨_, s₁, by rw [run_append_of_eq hs]; exact hs₁, hphase, ?_⟩
  rw [State.Overflows, hphase]
  exact .inl hover

/-- A short stream stays in the range. -/
theorem counters_in_range_oneByte :
    ∃ s : State Unit, run step (State.initial (fun _ => 0) fun _ => false)
      [.write () 1, .step () [] true] = some s ∧
      ∀ s₁, run step (State.initial (fun _ => 0) fun _ => false) [.write () 1] = some s₁ →
        ¬ s₁.Overflows (.step () [] true) := by
  let es : List (Event Unit) := [.write () 1, .step () [] true]
  have hrun : (run step (State.initial (fun _ => 0) fun _ : Unit => false) es).isSome = true := by
    decide
  obtain ⟨s, hs⟩ := Option.isSome_iff_exists.mp hrun
  refine ⟨s, hs, fun s₁ hs₁ => ?_⟩
  refine (counters_in_range_iff hs).mpr (fun fs e s₂ hp hs₂ hlate => ?_) [.write () 1] _ s₁
    (List.prefix_refl _) hs₁
  have hdelivered : s₂.delivered = [] := by
    have hlen := hp.length_le
    have hcases : fs = [] ∨ fs = [.write () 1] := by
      cases fs with
      | nil => exact .inl rfl
      | cons f fs =>
        obtain ⟨rest, hrest⟩ := hp
        obtain ⟨rfl, htail⟩ := List.cons.inj hrest
        cases fs with
        | nil => exact .inr rfl
        | cons g fs => simp [es] at hlen
    obtain rfl | rfl := hcases
    · obtain rfl := Option.some.inj hs₂
      rfl
    · have hempty : (run step (State.initial (fun _ => 0) fun _ : Unit => false)
          [.write () 1]).all (fun s => s.delivered = []) = true := by decide
      rw [hs₂] at hempty
      simpa using hempty
  cases e with
  | step p copied whole =>
    have hlate := hlate.2
    rw [hdelivered] at hlate
    exact absurd hlate (by decide)
  | write | read | acquire | close | kill => exact hlate

end Zigmaos.Pipes
