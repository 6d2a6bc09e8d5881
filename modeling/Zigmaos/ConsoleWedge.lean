import Zigmaos.Console

/-!
# When the input buffer wedges

Only what `interrupt` stores can fill the buffer, since a read makes room in it.
So the buffer is full with nothing committed only after a line that is as long
as the buffer, and then no character can end that line.
-/
namespace Zigmaos.Console
open Transition

variable {b b' : InputBuffer}

/-- The order of the indices, whatever the buffer holds. -/
structure Ordered (b : InputBuffer) : Prop where
  read : b.readIndex ≤ b.writeIndex
  write : b.writeIndex ≤ b.editIndex
  room : b.editIndex ≤ b.readIndex + inputBufSize

/-- No room is left, and there is nothing to read. -/
def Wedged (b : InputBuffer) : Prop :=
  b.editIndex - b.readIndex = inputBufSize ∧ b.readIndex = b.writeIndex

instance (b : InputBuffer) : Decidable (Wedged b) := inferInstanceAs (Decidable (_ ∧ _))

/-- The characters that `interrupt` stores. -/
def Stored (c : UInt8) : Prop :=
  c ≠ control 'P' ∧ c ≠ control 'U' ∧ c ≠ delete ∧ c ≠ control 'H' ∧ c ≠ 0

/-- The characters that commit the line. -/
def Commits (c : UInt8) : Prop := c = newline ∨ c = carriageReturn ∨ c = endOfFile

/-- The last place of a buffer with nothing to read is kept for the end of a line. -/
def LineFits (b : InputBuffer) (c : UInt8) : Prop :=
  b.readIndex = b.writeIndex → b.editIndex - b.readIndex = inputBufSize - 1 → Stored c → Commits c

/-! ## interrupt -/

theorem killLine_le {data : ℕ → UInt8} {writeIndex editIndex n : ℕ}
    (hw : writeIndex ≤ editIndex) (h : killLine data writeIndex editIndex = .ok n) :
    writeIndex ≤ n ∧ n ≤ editIndex := by
  induction editIndex with
  | zero =>
    rw [killLine] at h
    split at h
    next hz => cases h; omega
    · cases h
  | succ editIndex ih =>
    rw [killLine] at h
    split at h
    next he => cases h; omega
    next hne =>
      split at h
      · cases h; omega
      · have := ih (by omega) h
        omega

/-- What storing a character does to the indices. -/
theorem append_cases {c : UInt8} (h : Ordered b) (hb : append b c = .ok b') :
    (b' = b ∧ (c = 0 ∨ b.editIndex - b.readIndex = inputBufSize)) ∨
      (c ≠ 0 ∧ b.editIndex - b.readIndex < inputBufSize ∧ b'.readIndex = b.readIndex ∧
        b'.editIndex = b.editIndex + 1 ∧
        (Commits c ∧ b'.writeIndex = b'.editIndex ∨ ¬ Commits c ∧ b'.writeIndex = b.writeIndex)) := by
  have hr := h.read
  have hw := h.write
  have hroom := h.room
  unfold append at hb
  by_cases h0 : c = 0
  · rw [if_pos h0] at hb
    cases hb
    exact .inl ⟨rfl, .inl h0⟩
  rw [if_neg h0, sub, if_pos (by omega)] at hb
  simp only [bind, Except.bind] at hb
  by_cases hfull : inputBufSize ≤ b.editIndex - b.readIndex
  · rw [if_pos hfull] at hb
    cases hb
    exact .inl ⟨rfl, .inr (by omega)⟩
  rw [if_neg hfull, add] at hb
  by_cases hmax : b.editIndex + 1 < 2 ^ 64
  · rw [if_pos hmax] at hb
    have hcommits : ((if c = carriageReturn then newline else c) = newline ∨
        (if c = carriageReturn then newline else c) = endOfFile) ↔ Commits c := by
      unfold Commits
      by_cases hc : c = carriageReturn
      · simp [hc]
      · simp [hc]
    dsimp only at hb
    by_cases hc : Commits c
    · rw [if_pos (hcommits.mpr hc)] at hb
      cases hb
      exact .inr ⟨h0, by omega, rfl, rfl, .inl ⟨hc, rfl⟩⟩
    · rw [if_neg (mt hcommits.mp hc)] at hb
      cases hb
      exact .inr ⟨h0, by omega, rfl, rfl, .inr ⟨hc, rfl⟩⟩
  · rw [if_neg hmax] at hb
    cases hb

/-- An interrupt edits the line, or stores a character behind it. -/
theorem interrupt_cases {c : UInt8} (h : Ordered b) (hb : interrupt b c = .ok b') :
    (b'.readIndex = b.readIndex ∧ b'.writeIndex = b.writeIndex ∧ b.writeIndex ≤ b'.editIndex ∧
        b'.editIndex ≤ b.editIndex ∧ (Stored c → b.editIndex - b.readIndex = inputBufSize)) ∨
      (Stored c ∧ b.editIndex - b.readIndex < inputBufSize ∧ b'.readIndex = b.readIndex ∧
        b'.editIndex = b.editIndex + 1 ∧
        (Commits c ∧ b'.writeIndex = b'.editIndex ∨ ¬ Commits c ∧ b'.writeIndex = b.writeIndex)) := by
  have hw := h.write
  unfold interrupt at hb
  by_cases hp : c = control 'P'
  · rw [if_pos hp] at hb
    cases hb
    exact .inl ⟨rfl, rfl, hw, le_rfl, fun hs => absurd hp hs.1⟩
  rw [if_neg hp] at hb
  by_cases hu : c = control 'U'
  · rw [if_pos hu] at hb
    cases hk : killLine b.data b.writeIndex b.editIndex with
    | error f => rw [hk] at hb; cases hb
    | ok n =>
      rw [hk] at hb
      cases hb
      have := killLine_le hw hk
      exact .inl ⟨rfl, rfl, this.1, this.2, fun hs => absurd hu hs.2.1⟩
  rw [if_neg hu] at hb
  by_cases hd : c = delete ∨ c = control 'H'
  · have hstored : ¬ Stored c := by
      rintro ⟨-, -, hd', hh, -⟩
      exact hd.elim hd' hh
    rw [if_pos hd] at hb
    by_cases he : b.editIndex = b.writeIndex
    · rw [if_pos he] at hb
      cases hb
      exact .inl ⟨rfl, rfl, hw, le_rfl, fun hs => absurd hs hstored⟩
    · rw [if_neg he, sub, if_pos (by omega)] at hb
      cases hb
      exact .inl ⟨rfl, rfl, Nat.le_sub_one_of_lt (by omega), Nat.sub_le _ _,
        fun hs => absurd hs hstored⟩
  rw [if_neg hd] at hb
  obtain ⟨hd₁, hd₂⟩ := not_or.mp hd
  obtain ⟨rfl, hfull⟩ | ⟨h0, hfree⟩ := append_cases h hb
  · exact .inl ⟨rfl, rfl, hw, le_rfl, fun hs => hfull.resolve_left hs.2.2.2.2⟩
  · exact .inr ⟨⟨hp, hu, hd₁, hd₂, h0⟩, hfree⟩

theorem Ordered.interrupt {c : UInt8} (h : Ordered b) (hb : interrupt b c = .ok b') :
    Ordered b' := by
  obtain ⟨hr, hw, hle, hge, -⟩ | ⟨-, hfree, hr, he, hw⟩ := interrupt_cases h hb
  · exact ⟨by rw [hr, hw]; exact h.read, by rw [hw]; exact hle, by rw [hr]; exact hge.trans h.room⟩
  · have hread := h.read
    have hwrite := h.write
    obtain ⟨-, hw⟩ | ⟨-, hw⟩ := hw
    · exact ⟨by omega, by omega, by omega⟩
    · exact ⟨by omega, by omega, by omega⟩

/-- A character wedges the buffer exactly where its line does not fit. -/
theorem interrupt_wedges_iff {c : UInt8} (h : Ordered b) (hb : interrupt b c = .ok b')
    (hn : ¬ Wedged b) : Wedged b' ↔ ¬ LineFits b c := by
  have hsize : 1 < inputBufSize := by decide
  have hread := h.read
  have hroom := h.room
  have hwrite := h.write
  unfold Wedged LineFits at *
  obtain ⟨hr, hw, hle, hge, hstored⟩ | ⟨hs, hfree, hr, he, hw⟩ := interrupt_cases h hb
  · refine iff_of_false (by omega) ?_
    push Not
    intro _ hlast hs
    have := hstored hs
    omega
  · obtain ⟨hc, hw⟩ | ⟨hc, hw⟩ := hw
    · exact iff_of_false (by omega) (fun hnot => hnot fun _ _ _ => hc)
    · constructor
      · intro hwedged hfits
        exact hc (hfits (by omega) (by omega) hs)
      · intro hnot
        push Not at hnot
        obtain ⟨heq, hlast, -, -⟩ := hnot
        omega

/-- In a wedged buffer, and in no other with nothing to read, a newline is dropped. -/
theorem newline_dropped_iff (h : Ordered b) :
    interrupt b newline = .ok b ∧ b.readIndex = b.writeIndex ↔ Wedged b := by
  have hstored : Stored newline := by
    unfold Stored
    decide
  constructor
  · rintro ⟨hb, heq⟩
    obtain ⟨-, -, -, -, hfull⟩ | ⟨-, -, -, he, -⟩ := interrupt_cases h hb
    · exact ⟨hfull hstored, heq⟩
    · omega
  · rintro ⟨hfull, heq⟩
    have hread := h.read
    have hwrite := h.write
    have hkeep : append b newline = .ok b := by
      rw [append, if_neg (by decide), sub, if_pos (by omega)]
      simp only [bind, Except.bind, if_pos hfull.ge]
      rfl
    refine ⟨?_, heq⟩
    rw [Console.interrupt, if_neg hstored.1, if_neg hstored.2.1,
      if_neg (not_or.mpr ⟨hstored.2.2.1, hstored.2.2.2.1⟩), hkeep]

/-! ## read -/

/-- A stretch of `read` takes bytes that are committed. -/
theorem readLoop_indices {process : Option Bool} {isMapped : ℕ → Bool} {target charsLeft count : ℕ}
    {bytes bytes' : List UInt8} (h : Ordered b)
    (hb : readLoop process isMapped target charsLeft b bytes = .returned count bytes' b') :
    b.readIndex ≤ b'.readIndex ∧ b'.readIndex ≤ b.writeIndex ∧ b'.writeIndex = b.writeIndex ∧
      b'.editIndex = b.editIndex := by
  have hread := h.read
  induction charsLeft generalizing b bytes with
  | zero =>
    cases hb
    exact ⟨le_rfl, hread, rfl, rfl⟩
  | succ charsLeft ih =>
    unfold Console.readLoop at hb
    by_cases he : b.readIndex = b.writeIndex
    · rw [if_pos he] at hb
      split at hb <;> cases hb
    rw [if_neg he] at hb
    have hnext : Ordered { b with readIndex := b.readIndex + 1 } :=
      ⟨show b.readIndex + 1 ≤ b.writeIndex by omega, h.write, by
        have := h.room
        show b.editIndex ≤ b.readIndex + 1 + inputBufSize
        omega⟩
    by_cases hmax : b.readIndex + 1 < 2 ^ 64
    · simp only [add, if_pos hmax, sub, if_pos (Nat.le_add_left 1 b.readIndex)] at hb
      split at hb
      · split at hb
        · cases hb
          exact ⟨Nat.le_of_eq (Nat.add_sub_cancel _ _).symm, by simpa using hread, rfl, rfl⟩
        · cases hb
          exact ⟨Nat.le_succ _, hnext.read, rfl, rfl⟩
      · split at hb
        · cases hb
          exact ⟨Nat.le_succ _, hnext.read, rfl, rfl⟩
        · split at hb
          · cases hb
            exact ⟨Nat.le_succ _, hnext.read, rfl, rfl⟩
          · obtain ⟨hle, hw⟩ := ih hnext hb hnext.read
            exact ⟨(Nat.le_succ _).trans hle, hw⟩
    · simp only [add, if_neg hmax] at hb
      cases hb

theorem Ordered.readLoop {process : Option Bool} {isMapped : ℕ → Bool} {target charsLeft count : ℕ}
    {bytes bytes' : List UInt8} (h : Ordered b)
    (hb : readLoop process isMapped target charsLeft b bytes = .returned count bytes' b') :
    Ordered b' := by
  obtain ⟨hle, hwrite, hw, he⟩ := readLoop_indices h hb
  have hroom := h.room
  exact ⟨by omega, by rw [hw, he]; exact h.write, by omega⟩

/-- A read wedges no buffer. -/
theorem readLoop_not_wedged {process : Option Bool} {isMapped : ℕ → Bool}
    {target charsLeft count : ℕ} {bytes bytes' : List UInt8} (h : Ordered b)
    (hb : Console.readLoop process isMapped target charsLeft b bytes = .returned count bytes' b')
    (hn : ¬ Wedged b) : ¬ Wedged b' := by
  obtain ⟨hle, hwrite, hw, he⟩ := readLoop_indices h hb
  have hroom := h.room
  have hread := h.read
  have hwe := h.write
  unfold Wedged at *
  omega

/-! ## Runs -/

section
variable {π : Type} [DecidableEq π] {s s' : State π} {e : Event π}

/-- The condition on what is typed. -/
def Event.LineFits (b : InputBuffer) : Event π → Prop
  | .interrupt c => Console.LineFits b c
  | _ => True

theorem goOn_buffer {p : π} {process : Option Bool} {r : Reading} (hs : goOn s p process r = some s') :
    s'.inputBuffer = s.inputBuffer ∨ ∃ count bytes, readLoop process r.isMapped r.target r.charsLeft
      s.inputBuffer r.bytes = .returned count bytes s'.inputBuffer := by
  unfold goOn at hs
  split at hs
  next count bytes b heq =>
    cases hs
    exact .inr ⟨count, bytes, heq⟩
  · cases hs
    exact .inl rfl
  · cases hs
    exact .inl rfl
  · cases hs

/-- What an event does to the buffer. -/
theorem step_buffer (hs : step s e = some s') :
    s'.inputBuffer = s.inputBuffer ∧ (∀ c, e ≠ .interrupt c) ∨
      (∃ c, e = .interrupt c ∧ Console.interrupt s.inputBuffer c = .ok s'.inputBuffer) ∨
      (∀ c, e ≠ .interrupt c) ∧ ∃ process, ∃ r : Reading, ∃ count bytes, readLoop process r.isMapped
        r.target r.charsLeft s.inputBuffer r.bytes = .returned count bytes s'.inputBuffer := by
  cases e with
  | interrupt c =>
    rw [step] at hs
    split at hs
    next b hb =>
      cases hs
      exact .inr (.inl ⟨c, rfl, hb⟩)
    · cases hs
  | read p target isMapped process =>
    rw [step] at hs
    split at hs
    · obtain hb | ⟨count, bytes, hb⟩ := goOn_buffer hs
      · exact .inl ⟨hb, nofun⟩
      · exact .inr (.inr ⟨nofun, process, _, count, bytes, hb⟩)
    · cases hs
  | awake p process =>
    rw [step] at hs
    split at hs
    · cases hs
    next r _ =>
      obtain hb | ⟨count, bytes, hb⟩ := goOn_buffer hs
      · exact .inl ⟨hb, nofun⟩
      · exact .inr (.inr ⟨nofun, process, r, count, bytes, hb⟩)

theorem Ordered.step (h : Ordered s.inputBuffer) (hs : step s e = some s') :
    Ordered s'.inputBuffer := by
  obtain ⟨hb, -⟩ | ⟨c, -, hb⟩ | ⟨-, process, r, count, bytes, hb⟩ := step_buffer hs
  · rw [hb]
    exact h
  · exact h.interrupt hb
  · exact h.readLoop hb

omit [DecidableEq π] in
theorem Event.lineFits_of_ne {b : InputBuffer} (he : ∀ c, e ≠ .interrupt c) : e.LineFits b := by
  cases e with
  | interrupt c => exact absurd rfl (he c)
  | read => trivial
  | awake => trivial

theorem step_wedges_iff (h : Ordered s.inputBuffer) (hs : Console.step s e = some s')
    (hn : ¬ Wedged s.inputBuffer) : Wedged s'.inputBuffer ↔ ¬ e.LineFits s.inputBuffer := by
  obtain ⟨hb, he⟩ | ⟨c, rfl, hb⟩ | ⟨he, process, r, count, bytes, hb⟩ := step_buffer hs
  · rw [hb]
    exact iff_of_false hn (not_not.mpr (Event.lineFits_of_ne he))
  · exact interrupt_wedges_iff h hb hn
  · exact iff_of_false (readLoop_not_wedged h hb hn) (not_not.mpr (Event.lineFits_of_ne he))

omit [DecidableEq π] in
theorem ordered_initial (data : ℕ → UInt8) : Ordered (initial (π := π) data).inputBuffer :=
  ⟨le_rfl, le_rfl, Nat.zero_le _⟩

theorem ordered_run {data : ℕ → UInt8} {es : List (Event π)}
    (hs : run Console.step (initial data) es = some s) : Ordered s.inputBuffer :=
  run_induction (P := fun _ s => Ordered s.inputBuffer) (ordered_initial data)
    (fun _ _ _ _ _ h he => h.step he) es s hs

/-- The input buffer is never full with nothing committed, and a newline never
dropped so, exactly in the runs in which no character but the end of a line is typed into
the last free place of a buffer with nothing committed. -/
theorem never_wedged_iff {data : ℕ → UInt8} {es : List (Event π)}
    (hs : run Console.step (initial data) es = some s) :
    ((∀ fs s₁, fs <+: es → run Console.step (initial data) fs = some s₁ →
        s₁.inputBuffer.editIndex - s₁.inputBuffer.readIndex = inputBufSize →
        s₁.inputBuffer.readIndex < s₁.inputBuffer.writeIndex) ↔
      ∀ fs e s₁, fs ++ [e] <+: es → run Console.step (initial data) fs = some s₁ →
        e.LineFits s₁.inputBuffer) ∧
    ((∀ fs s₁, fs <+: es → run Console.step (initial data) fs = some s₁ →
        ¬ (Console.interrupt s₁.inputBuffer newline = .ok s₁.inputBuffer ∧
          s₁.inputBuffer.readIndex = s₁.inputBuffer.writeIndex)) ↔
      ∀ fs e s₁, fs ++ [e] <+: es → run Console.step (initial data) fs = some s₁ →
        e.LineFits s₁.inputBuffer) := by
  have hwedged := run_good_iff (fun s : State π => Ordered s.inputBuffer ∧ ¬ Wedged s.inputBuffer)
    (fun s => ¬ Wedged s.inputBuffer) (fun s e => e.LineFits s.inputBuffer)
    ⟨ordered_initial data, fun hw => absurd hw.1 (by simp [initial, inputBufSize])⟩
    (fun s h => h.2)
    (fun s e s' h he hfits => ⟨h.1.step he,
      fun hw => (step_wedges_iff h.1 he h.2).mp hw hfits⟩)
    (fun s e s' h he hno => not_not.mpr ((step_wedges_iff h.1 he h.2).mpr hno)) hs
  refine ⟨Iff.trans ?_ hwedged, Iff.trans ?_ hwedged⟩
  · refine forall₄_congr fun fs s₁ _ hs₁ => ?_
    have hread := (ordered_run hs₁).read
    unfold Wedged
    omega
  · exact forall₄_congr fun fs s₁ _ hs₁ => not_congr (newline_dropped_iff (ordered_run hs₁))

/-- A line that fits is typed. -/
theorem never_wedged_line : ∃ s : State Unit,
    run Console.step (initial fun _ => 0) [.interrupt 104, .interrupt 13] = some s ∧
      (s.inputBuffer.editIndex - s.inputBuffer.readIndex = inputBufSize →
        s.inputBuffer.readIndex < s.inputBuffer.writeIndex) := by
  let es : List (Event Unit) := [.interrupt 104, .interrupt 13]
  have hrun : (run Console.step (initial fun _ => 0) es).isSome = true := by decide
  obtain ⟨s, hs⟩ := Option.isSome_iff_exists.mp hrun
  refine ⟨s, hs, (never_wedged_iff hs).1.mpr (fun fs e s₁ hp hs₁ => ?_) es s (List.prefix_refl _) hs⟩
  have hlen := hp.length_le
  have hfs : fs = [] ∧ e = .interrupt 104 ∨ e = .interrupt 13 := by
    have hmem : e ∈ es := hp.subset (by simp)
    cases fs with
    | nil =>
      obtain ⟨rest, hrest⟩ := hp
      exact .inl ⟨rfl, (List.cons.inj hrest).1⟩
    | cons f fs =>
      obtain ⟨rest, hrest⟩ := hp
      have htail := (List.cons.inj hrest).2
      cases fs with
      | nil => exact .inr (List.cons.inj htail).1
      | cons g fs => simp at htail
  obtain ⟨rfl, rfl⟩ | rfl := hfs
  · obtain rfl := Option.some.inj hs₁
    exact fun _ hlast => absurd hlast (by decide)
  · exact fun _ _ _ => .inr (.inl rfl)

/-- A newline is dropped from the input, and what has been typed stays uncommitted. -/
def DropsNewline (s : State Unit) : Bool :=
  match Console.interrupt s.inputBuffer newline with
  | .ok b => decide (b.editIndex = s.inputBuffer.editIndex ∧ b.writeIndex = b.readIndex)
  | .error _ => false

/-- After 128 letters the newline is dropped, and nothing is committed. -/
theorem long_line_wedges :
    ∃ s : State Unit,
      run Console.step (initial fun _ => 0) (List.replicate 128 (.interrupt 97)) = some s ∧
        s.inputBuffer.editIndex - s.inputBuffer.readIndex = inputBufSize ∧
        ¬ s.inputBuffer.readIndex < s.inputBuffer.writeIndex ∧
        ∃ b, Console.interrupt s.inputBuffer newline = .ok b ∧
          b.editIndex = s.inputBuffer.editIndex ∧ b.writeIndex = b.readIndex := by
  have hrun : (run Console.step (initial (π := Unit) fun _ => 0)
      (List.replicate 128 (.interrupt 97))).any (fun s =>
        decide (s.inputBuffer.editIndex - s.inputBuffer.readIndex = inputBufSize) &&
        decide (¬ s.inputBuffer.readIndex < s.inputBuffer.writeIndex) && DropsNewline s) = true := by
    decide +kernel
  obtain ⟨s, hs, hd⟩ := (Option.any_eq_true _ _).mp hrun
  simp only [Bool.and_eq_true, decide_eq_true_eq] at hd
  refine ⟨s, hs, hd.1.1, hd.1.2, ?_⟩
  have hlast := hd.2
  unfold DropsNewline at hlast
  split at hlast
  next b hb => exact ⟨b, hb, of_decide_eq_true hlast⟩
  · exact absurd hlast Bool.false_ne_true

end

end Zigmaos.Console
