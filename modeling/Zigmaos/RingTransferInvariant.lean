import Zigmaos.RingTransfer

/-!
# What is read is what was written

A counter that a side has loaded from the other side can only be too small, so
that each side sees less room, or fewer bytes, than there are.
-/
namespace Zigmaos.RingTransfer

variable {s s' : State}

theorem mod_ne {i j : ℕ} (h : i < j) (hj : j < i + bufCapacity) :
    i % bufCapacity ≠ j % bufCapacity := by
  simp only [bufCapacity] at *
  omega

theorem add64_of_lt {a b : ℕ} (h : a + b < 2 ^ 64) : add64 a b = a + b := Nat.mod_eq_of_lt h

theorem sub64_of_le {a b : ℕ} (h : b ≤ a) : sub64 a b = a - b := if_pos h

/-- The assertion of `finishWrite`, also where the addition wraps. -/
theorem writer_assert {w r n : ℕ} (hle : r ≤ w) (hroom : w + n ≤ r + bufCapacity)
    (hw : w < 2 ^ 64) : sub64 (add64 w n) r ≤ bufCapacity := by
  unfold sub64 add64
  by_cases hr : r ≤ (w + n) % 2 ^ 64
  · rw [if_pos hr]
    omega
  · rw [if_neg hr]
    simp only [bufCapacity] at *
    omega

theorem length_firstBytes (bytes : ℕ → Option UInt8) (n : ℕ) : (firstBytes bytes n).length = n := by
  simp [firstBytes]

theorem firstBytes_get {bytes : ℕ → Option UInt8} {n k : ℕ} (h : Complete bytes n) (hk : k < n) :
    (firstBytes bytes n)[k]? = bytes k := by
  obtain ⟨b, hb⟩ := Option.isSome_iff_exists.mp (h k hk)
  simp [firstBytes, hk, hb]

structure Room (cells : ℕ → UInt8) (put : ℕ → Option UInt8) (readDone writeDone n : ℕ) : Prop where
  room : writeDone + n ≤ readDone + bufCapacity
  cell : ∀ k b, k < n → put k = some b → cells ((writeDone + k) % bufCapacity) = b

/-- There is room for `n` bytes of the writer, and what it has put there is there. -/
abbrev Filled (s : State) (n : ℕ) : Prop := Room s.cells s.put s.readDone s.writeDone n

structure Stock (produced : List UInt8) (got : ℕ → Option UInt8) (readDone writeDone n : ℕ) :
    Prop where
  there : readDone + n ≤ writeDone
  byte : ∀ k b, k < n → got k = some b → produced[readDone + k]? = some b

/-- `n` bytes are there for the reader, and what it has found was written. -/
abbrev Taken (s : State) (n : ℕ) : Prop := Stock s.produced s.got s.readDone s.writeDone n

def WriterOk (s : State) : Prop :=
  match s.writer with
  | .idle => True
  | .starting readDone => readDone ≤ s.readDone ∧ s.writeDone ≤ readDone + bufCapacity ∧
      readDone ≤ s.writeDone
  | .filling slice => slice.start = s.writeDone % bufCapacity ∧ Filled s slice.length
  | .finishing n => Filled s n ∧ Complete s.put n
  | .asserting n writeDone => writeDone = s.writeDone ∧ Filled s n ∧ Complete s.put n
  | .adding n => Filled s n ∧ Complete s.put n
  | .assertFailed => False

def ReaderOk (s : State) : Prop :=
  match s.reader with
  | .idle => True
  | .starting readDone => readDone = s.readDone
  | .reading slice => slice.start = s.readDone % bufCapacity ∧ Taken s slice.length
  | .finishing n => Taken s n ∧ Complete s.got n
  | .asserting n writeDone => s.readDone + n ≤ writeDone ∧ writeDone ≤ s.writeDone ∧ Taken s n ∧
      Complete s.got n
  | .adding n => Taken s n ∧ Complete s.got n
  | .assertFailed => False

structure Invariant (s : State) : Prop where
  written : s.writeDone = s.produced.length
  read : s.readDone = s.consumed.length
  le : s.readDone ≤ s.writeDone
  capacity : s.writeDone ≤ s.readDone + bufCapacity
  cells : ∀ i, s.readDone ≤ i → i < s.writeDone →
    s.produced[i]? = some (s.cells (i % bufCapacity))
  prefix_eq : ∀ i < s.readDone, s.consumed[i]? = s.produced[i]?
  writer : WriterOk s
  reader : ReaderOk s

theorem Initial.invariant (h : Initial s) : Invariant s where
  written := by rw [h.writeDone, h.produced, List.length_nil]
  read := by rw [h.readDone, h.consumed, List.length_nil]
  le := by rw [h.readDone, h.writeDone]
  capacity := by rw [h.readDone, h.writeDone]; exact Nat.zero_le _
  cells i _ hi := by rw [h.writeDone] at hi; exact absurd hi (Nat.not_lt_zero i)
  prefix_eq i hi := by rw [h.readDone] at hi; exact absurd hi (Nat.not_lt_zero i)
  writer := by rw [WriterOk, h.writer]; trivial
  reader := by rw [ReaderOk, h.reader]; trivial

/-! ## Steps of the writer -/

/-- The bytes of the writer lie apart from those that the reader has not finished. -/
theorem apart {n k i : ℕ} (hroom : s.writeDone + n ≤ s.readDone + bufCapacity)
    (hk : k < n) (hi : s.readDone ≤ i) (hi' : i < s.writeDone) :
    (s.writeDone + k) % bufCapacity ≠ i % bufCapacity := by
  refine (mod_ne (by omega) ?_).symm
  omega

theorem slice_mod (w k : ℕ) : (w % bufCapacity + k) % bufCapacity = (w + k) % bufCapacity :=
  Nat.mod_add_mod w bufCapacity k

/-- A step that changes nothing but where the writer is. -/
theorem Invariant.setWriter (h : Invariant s) {writer : Writer}
    (hw : WriterOk { s with writer := writer }) : Invariant { s with writer := writer } :=
  ⟨h.written, h.read, h.le, h.capacity, h.cells, h.prefix_eq, hw, h.reader⟩

theorem Invariant.setReader (h : Invariant s) {reader : Reader}
    (hr : ReaderOk { s with reader := reader }) : Invariant { s with reader := reader } :=
  ⟨h.written, h.read, h.le, h.capacity, h.cells, h.prefix_eq, h.writer, hr⟩

/-- A byte that the writer puts in its slice. -/
theorem Invariant.put (h : Invariant s) {slice : Slice} (hw : s.writer = .filling slice) {k : ℕ}
    (hk : k < slice.length) (byte : UInt8) :
    Invariant { s with
      cells := Function.update s.cells ((slice.start + k) % bufCapacity) byte
      put := Function.update s.put k (some byte) } := by
  have hwriter := h.writer
  simp only [WriterOk, hw] at hwriter
  obtain ⟨hstart, hfilled⟩ := hwriter
  rw [hstart, slice_mod]
  refine ⟨h.written, h.read, h.le, h.capacity, fun i hi hi' => ?_, h.prefix_eq, ?_, h.reader⟩
  · simp only at hi hi' ⊢
    rw [Function.update_of_ne (apart hfilled.room hk hi hi').symm]
    exact h.cells i hi hi'
  · simp only [WriterOk, hw]
    refine ⟨hstart, hfilled.room, fun j b hj hb => ?_⟩
    by_cases hjk : j = k
    · subst hjk
      simpa using hb
    · have hne : (s.writeDone + j) % bufCapacity ≠ (s.writeDone + k) % bufCapacity := by
        have := h.capacity
        have := h.le
        have := hfilled.room
        obtain hlt | hgt := Nat.lt_or_gt_of_ne hjk
        · exact mod_ne (by omega) (by omega)
        · exact (mod_ne (by omega) (by omega)).symm
      simp only [Function.update_of_ne hjk] at hb
      simp only [Function.update_of_ne hne]
      exact hfilled.cell j b hj hb

/-- `fetchAdd` of the writer. -/
theorem Invariant.writerAdd (h : Invariant s) {n : ℕ} (hw : s.writer = .adding n)
    (hsmall : s.writeDone + n < 2 ^ 64) :
    Invariant { s with
      writer := .idle
      writeDone := add64 s.writeDone n
      produced := s.produced ++ firstBytes s.put n } := by
  have hwriter := h.writer
  simp only [WriterOk, hw] at hwriter
  obtain ⟨hfilled, hcomplete⟩ := hwriter
  rw [add64_of_lt hsmall]
  have hold : ∀ i < s.writeDone, (s.produced ++ firstBytes s.put n)[i]? = s.produced[i]? :=
    fun i hi => List.getElem?_append_left (h.written ▸ hi)
  have hle := h.le
  refine ⟨?_, h.read, by simp only; omega, hfilled.room, fun i hi hi' => ?_, fun i hi => ?_,
    trivial, ?_⟩
  · rw [List.length_append, length_firstBytes, ← h.written]
  · simp only at hi hi' ⊢
    by_cases hlt : i < s.writeDone
    · rw [hold i hlt]
      exact h.cells i hi hlt
    · have hk : i - s.writeDone < n := by omega
      obtain ⟨b, hb⟩ := Option.isSome_iff_exists.mp (hcomplete _ hk)
      have hcell := hfilled.cell _ b hk hb
      rw [Nat.add_sub_of_le (Nat.not_lt.mp hlt)] at hcell
      rw [List.getElem?_append_right (by rw [← h.written]; omega), ← h.written,
        firstBytes_get hcomplete hk, hb, hcell]
  · simp only at hi ⊢
    rw [hold i (by omega)]
    exact h.prefix_eq i hi
  · have hreader := h.reader
    have htaken : ∀ m, Taken s m → Taken { s with
        writer := .idle
        writeDone := s.writeDone + n
        produced := s.produced ++ firstBytes s.put n } m := by
      intro m ht
      have hthere := ht.there
      refine ⟨by simp only; omega, fun k b hk hb => ?_⟩
      simp only
      rw [hold _ (by omega)]
      exact ht.byte k b hk hb
    unfold ReaderOk at *
    cases hr : s.reader with
    | idle => trivial
    | starting readDone => simpa only [hr] using hreader
    | reading slice =>
      simp only [hr] at hreader ⊢
      exact ⟨hreader.1, htaken _ hreader.2⟩
    | finishing m =>
      simp only [hr] at hreader ⊢
      exact ⟨htaken _ hreader.1, hreader.2⟩
    | asserting m writeDone =>
      simp only [hr] at hreader ⊢
      exact ⟨hreader.1, by omega, htaken _ hreader.2.2.1, hreader.2.2.2⟩
    | adding m =>
      simp only [hr] at hreader ⊢
      exact ⟨htaken _ hreader.1, hreader.2⟩
    | assertFailed => simp only [hr] at hreader

theorem Invariant.writerStep (h : Invariant s) (hsmall : s'.produced.length < 2 ^ 64)
    (hs : s.writerStep = some s') : Invariant s' := by
  have hwriter := h.writer
  have hwritten := h.written
  have hcap := h.capacity
  unfold State.writerStep at hs
  unfold WriterOk at hwriter
  cases hw : s.writer with
  | idle => simp [hw] at hs
  | filling slice => simp [hw] at hs
  | assertFailed => simp [hw] at hs
  | starting readDone =>
    simp only [hw, Option.some.injEq] at hs hwriter
    obtain ⟨hle, hroom, hle'⟩ := hwriter
    subst hs
    refine ⟨h.written, h.read, h.le, h.capacity, h.cells, h.prefix_eq, ?_, h.reader⟩
    simp only [WriterOk]
    refine ⟨trivial, ?_, nofun⟩
    rw [sub64_of_le hle', sub64_of_le (by omega)]
    simp only
    omega
  | finishing n =>
    simp only [hw, Option.some.injEq] at hs hwriter
    subst hs
    exact h.setWriter ⟨rfl, ⟨hwriter.1.room, hwriter.1.cell⟩, hwriter.2⟩
  | asserting n writeDone =>
    simp only [hw] at hs hwriter
    obtain ⟨rfl, hfilled, hcomplete⟩ := hwriter
    have hroom := hfilled.room
    have hle := h.le
    have hassert : sub64 (add64 s.writeDone n) s.readDone ≤ bufCapacity := by
      have hsame : s'.produced = s.produced := by
        split at hs
        · obtain rfl := Option.some.inj hs
          rfl
        · obtain rfl := Option.some.inj hs
          rfl
      have hsmall' : s.writeDone < 2 ^ 64 := by rw [hwritten, ← hsame]; exact hsmall
      exact writer_assert hle hroom hsmall'
    rw [if_pos hassert, Option.some.injEq] at hs
    subst hs
    exact h.setWriter ⟨⟨hfilled.room, hfilled.cell⟩, hcomplete⟩
  | adding n =>
    simp only [hw, Option.some.injEq] at hs
    subst hs
    refine h.writerAdd hw ?_
    simpa [length_firstBytes, ← h.written] using hsmall

/-! ## Steps of the reader -/

/-- A byte that the reader finds in its slice. -/
theorem Invariant.get (h : Invariant s) {slice : Slice} (hr : s.reader = .reading slice) {k : ℕ}
    (hk : k < slice.length) :
    Invariant { s with
      got := Function.update s.got k (some (s.cells ((slice.start + k) % bufCapacity))) } := by
  have hreader := h.reader
  simp only [ReaderOk, hr] at hreader
  obtain ⟨hstart, htaken⟩ := hreader
  have hthere := htaken.there
  refine ⟨h.written, h.read, h.le, h.capacity, h.cells, h.prefix_eq, h.writer, ?_⟩
  simp only [ReaderOk, hr]
  refine ⟨hstart, hthere, fun j b hj hb => ?_⟩
  by_cases hjk : j = k
  · subst hjk
    simp only [Function.update_self, Option.some.injEq] at hb
    have hcell := h.cells (s.readDone + j) (Nat.le_add_right _ _) (by omega)
    rw [← hb, hstart, slice_mod]
    exact hcell
  · simp only [Function.update_of_ne hjk] at hb
    exact htaken.byte j b hj hb

/-- `fetchAdd` of the reader. -/
theorem Invariant.readerAdd (h : Invariant s) {n : ℕ} (hr : s.reader = .adding n)
    (hsmall : s.writeDone < 2 ^ 64) :
    Invariant { s with
      reader := .idle
      readDone := add64 s.readDone n
      consumed := s.consumed ++ firstBytes s.got n } := by
  have hreader := h.reader
  simp only [ReaderOk, hr] at hreader
  obtain ⟨htaken, hcomplete⟩ := hreader
  have hthere := htaken.there
  have hcap := h.capacity
  rw [add64_of_lt (by omega)]
  refine ⟨h.written, ?_, hthere, by simp only; omega, fun i hi hi' => ?_, fun i hi => ?_, ?_,
    trivial⟩
  · rw [List.length_append, length_firstBytes, ← h.read]
  · exact h.cells i (by simp only at hi; omega) hi'
  · simp only at hi ⊢
    by_cases hlt : i < s.readDone
    · rw [List.getElem?_append_left (h.read ▸ hlt)]
      exact h.prefix_eq i hlt
    · have hk : i - s.readDone < n := by omega
      obtain ⟨b, hb⟩ := Option.isSome_iff_exists.mp (hcomplete _ hk)
      have hbyte := htaken.byte _ b hk hb
      rw [Nat.add_sub_of_le (Nat.not_lt.mp hlt)] at hbyte
      rw [List.getElem?_append_right (by rw [← h.read]; omega), ← h.read,
        firstBytes_get hcomplete hk, hb, hbyte]
  · have hwriter := h.writer
    have hfilled : ∀ m, Filled s m → Filled { s with
        reader := .idle
        readDone := s.readDone + n
        consumed := s.consumed ++ firstBytes s.got n } m := by
      intro m hf
      have hroom := hf.room
      exact ⟨by simp only; omega, hf.cell⟩
    unfold WriterOk at *
    cases hw : s.writer with
    | idle => trivial
    | starting readDone =>
      simp only [hw] at hwriter ⊢
      exact ⟨by omega, hwriter.2⟩
    | filling slice =>
      simp only [hw] at hwriter ⊢
      exact ⟨hwriter.1, hfilled _ hwriter.2⟩
    | finishing m =>
      simp only [hw] at hwriter ⊢
      exact ⟨hfilled _ hwriter.1, hwriter.2⟩
    | asserting m writeDone =>
      simp only [hw] at hwriter ⊢
      exact ⟨hwriter.1, hfilled _ hwriter.2.1, hwriter.2.2⟩
    | adding m =>
      simp only [hw] at hwriter ⊢
      exact ⟨hfilled _ hwriter.1, hwriter.2⟩
    | assertFailed => simp only [hw] at hwriter

theorem Invariant.readerStep (h : Invariant s) (hsmall : s.writeDone < 2 ^ 64)
    (hs : s.readerStep = some s') : Invariant s' := by
  have hreader := h.reader
  have hle := h.le
  unfold State.readerStep at hs
  unfold ReaderOk at hreader
  cases hr : s.reader with
  | idle => simp [hr] at hs
  | reading slice => simp [hr] at hs
  | assertFailed => simp [hr] at hs
  | starting readDone =>
    simp only [hr, Option.some.injEq] at hs hreader
    subst hreader
    subst hs
    refine ⟨h.written, h.read, h.le, h.capacity, h.cells, h.prefix_eq, h.writer, ?_⟩
    simp only [ReaderOk]
    refine ⟨trivial, ?_, nofun⟩
    rw [sub64_of_le hle]
    simp only
    omega
  | finishing n =>
    simp only [hr, Option.some.injEq] at hs hreader
    subst hs
    exact h.setReader ⟨hreader.1.there, le_rfl, ⟨hreader.1.there, hreader.1.byte⟩, hreader.2⟩
  | asserting n writeDone =>
    simp only [hr] at hs hreader
    obtain ⟨hthere, hwrite, htaken, hcomplete⟩ := hreader
    have hassert : n ≤ sub64 writeDone s.readDone := by
      rw [sub64_of_le (by omega)]
      omega
    rw [if_pos hassert, Option.some.injEq] at hs
    subst hs
    exact h.setReader ⟨⟨htaken.there, htaken.byte⟩, hcomplete⟩
  | adding n =>
    simp only [hr, Option.some.injEq] at hs
    subst hs
    exact h.readerAdd hr hsmall

/-! ## Runs -/

theorem produced_length_le {event : Event} (hs : step s event = some s') :
    s.produced.length ≤ s'.produced.length := by
  unfold step State.writerStep State.readerStep at hs
  split at hs
  all_goals repeat' split at hs
  all_goals cases hs
  all_goals simp

theorem step_invariant (h : Invariant s) {event : Event} (hs : step s event = some s')
    (hsmall : s'.produced.length < 2 ^ 64) : Invariant s' := by
  have hlength := produced_length_le hs
  have hsmall' : s.writeDone < 2 ^ 64 := by
    rw [h.written]
    omega
  unfold step at hs
  cases event with
  | startWrite =>
    simp only at hs
    split at hs
    · obtain rfl := Option.some.inj hs
      exact h.setWriter ⟨le_rfl, h.capacity, h.le⟩
    · exact absurd hs nofun
  | put k byte =>
    simp only at hs
    split at hs
    next slice hw =>
      split at hs
      next hk =>
        obtain rfl := Option.some.inj hs
        exact h.put hw hk byte
      · exact absurd hs nofun
    · exact absurd hs nofun
  | finishWrite n =>
    simp only at hs
    split at hs
    next slice hw =>
      split at hs
      next hn =>
        obtain rfl := Option.some.inj hs
        have hwriter := h.writer
        simp only [WriterOk, hw] at hwriter
        have hroom := hwriter.2.room
        exact h.setWriter ⟨⟨by simp only; omega, fun k b hk => hwriter.2.cell k b (by omega)⟩, hn.2⟩
      · exact absurd hs nofun
    · exact absurd hs nofun
  | writer => exact h.writerStep hsmall hs
  | startRead =>
    simp only at hs
    split at hs
    · obtain rfl := Option.some.inj hs
      exact h.setReader rfl
    · exact absurd hs nofun
  | get k =>
    simp only at hs
    split at hs
    next slice hr =>
      split at hs
      next hk =>
        obtain rfl := Option.some.inj hs
        exact h.get hr hk
      · exact absurd hs nofun
    · exact absurd hs nofun
  | finishRead n =>
    simp only at hs
    split at hs
    next slice hr =>
      split at hs
      next hn =>
        obtain rfl := Option.some.inj hs
        have hreader := h.reader
        simp only [ReaderOk, hr] at hreader
        have hthere := hreader.2.there
        exact h.setReader ⟨⟨by simp only; omega, fun k b hk => hreader.2.byte k b (by omega)⟩, hn.2⟩
      · exact absurd hs nofun
    · exact absurd hs nofun
  | reader => exact h.readerStep hsmall' hs

theorem invariant_run {s₀ : State} {events : List Event} (h₀ : Initial s₀)
    (hrun : Transition.run step s₀ events = some s) (hsmall : s.produced.length < 2 ^ 64) :
    Invariant s := by
  have hall : ∀ es s, Transition.run step s₀ es = some s →
      s.produced.length < 2 ^ 64 → Invariant s := by
    apply Transition.run_induction (P := fun _ s => s.produced.length < 2 ^ 64 → Invariant s)
    · exact fun _ => h₀.invariant
    · intro _ s event s' _ ih hs hsmall
      exact step_invariant (ih (lt_of_le_of_lt (produced_length_le hs) hsmall)) hs hsmall
  exact hall events s hrun hsmall

/-- In every run of one writer and one reader in which less than `2 ^ 64` bytes are
written: the counters are never further apart than the ring is long; no assertion
fails; the slices lie in the two mappings; the slice of the writer has no byte that
the reader has not finished; and what was read is a beginning of what was written. -/
theorem transfer_lossless {s₀ : State} {events : List Event} (h₀ : Initial s₀)
    (hrun : Transition.run step s₀ events = some s) (hsmall : s.produced.length < 2 ^ 64) :
    s.readDone ≤ s.writeDone ∧ s.writeDone ≤ s.readDone + bufCapacity ∧
      s.writer ≠ .assertFailed ∧ s.reader ≠ .assertFailed ∧
      (∀ slice, s.writer = .filling slice ∨ s.reader = .reading slice →
        slice.start + slice.length ≤ 2 * bufCapacity) ∧
      (∀ slice, s.writer = .filling slice → ∀ k < slice.length, ∀ i, s.readDone ≤ i →
        i < s.writeDone → (slice.start + k) % bufCapacity ≠ i % bufCapacity) ∧
      s.consumed <+: s.produced := by
  have hinv := invariant_run h₀ hrun hsmall
  have hwriter := hinv.writer
  have hreader := hinv.reader
  have hcap := hinv.capacity
  have hle := hinv.le
  have hmod : ∀ i, i % bufCapacity < bufCapacity := fun i => Nat.mod_lt i (by decide)
  refine ⟨hle, hcap, fun hw => ?_, fun hr => ?_, fun slice hslice => ?_, fun slice hw k hk i hi hi' => ?_,
    ?_⟩
  · simp only [WriterOk, hw] at hwriter
  · simp only [ReaderOk, hr] at hreader
  · obtain hw | hr := hslice
    · simp only [WriterOk, hw] at hwriter
      have hroom := hwriter.2.room
      have := hmod s.writeDone
      omega
    · simp only [ReaderOk, hr] at hreader
      have hthere := hreader.2.there
      have := hmod s.readDone
      omega
  · simp only [WriterOk, hw] at hwriter
    rw [hwriter.1, slice_mod]
    exact apart hwriter.2.room hk hi hi'
  · rw [List.prefix_iff_getElem?]
    intro i hi
    rw [← hinv.prefix_eq i (hinv.read ▸ hi), List.getElem?_eq_getElem hi]

def fresh : State := ⟨fun _ => 0, 0, 0, .idle, .idle, fun _ => none, fun _ => none, [], []⟩

/-- The reader starts before the byte is finished. -/
def oneByte : List Event :=
  [.startWrite, .writer, .put 0 65, .finishWrite 1, .startRead, .writer, .writer, .writer, .reader,
    .get 0, .finishRead 1, .reader, .reader, .reader]

theorem transfer_lossless_oneByte :
    ∃ s, Transition.run step fresh oneByte = some s ∧ s.consumed = [65] ∧
      s.consumed <+: s.produced := by
  have hrun : (Transition.run step fresh oneByte).any
      (fun s => s.consumed = [65] && decide (s.produced.length < 2 ^ 64)) = true := by
    decide +kernel
  obtain ⟨s, hs, hb⟩ := (Option.any_eq_true _ _).mp hrun
  simp only [Bool.and_eq_true, decide_eq_true_eq] at hb
  exact ⟨s, hs, hb.1, (transfer_lossless ⟨rfl, rfl, rfl, rfl, rfl, rfl⟩ hs hb.2).2.2.2.2.2.2⟩

end Zigmaos.RingTransfer
