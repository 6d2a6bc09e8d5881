import Zigmaos.Console

/-!
# Lines reach the readers

The ring holds what has been typed and not yet read, so that editing and reading
on it are editing and reading on lists. A reader that finds nothing committed has
not been given anything, since what is committed ends with a line.
-/
namespace Zigmaos.Console
open Transition

variable {b b' : InputBuffer} {t : Text}

/-- The bytes that end a line. -/
def EndsLine (c : UInt8) : Prop := c = newline ∨ c = endOfFile

/-- The buffer holds the text from `readIndex` on. -/
structure Holds (b : InputBuffer) (t : Text) : Prop where
  read : b.readIndex ≤ t.committed.length
  write : b.writeIndex = t.committed.length
  edit : b.editIndex = t.committed.length + t.line.length
  room : b.editIndex ≤ b.readIndex + inputBufSize
  data : ∀ k, b.readIndex ≤ k → ∀ h : k < (t.committed ++ t.line).length,
    b.data (k % inputBufSize) = (t.committed ++ t.line)[k]
  line : ∀ c ∈ t.line, ¬ EndsLine c
  closed : ∀ c, t.committed.getLast? = some c → EndsLine c

/-! ## interrupt -/

theorem Holds.erase (h : Holds b t) {l : List UInt8} (hl : l <+: t.line) :
    Holds { b with editIndex := t.committed.length + l.length } { t with line := l } where
  read := h.read
  write := h.write
  edit := rfl
  room := by
    have := h.room
    have := h.edit
    have := hl.length_le
    dsimp only
    omega
  data := by
    intro k hk hlt
    obtain ⟨rest, hrest⟩ := hl
    have hlen : k < (t.committed ++ t.line).length := by
      rw [← hrest, ← List.append_assoc, List.length_append]
      exact Nat.lt_add_right _ hlt
    rw [h.data k hk hlen]
    simp only [← hrest, ← List.append_assoc]
    exact List.getElem_append_left hlt
  line := fun c hc => h.line c (hl.subset hc)
  closed := h.closed

theorem Holds.last_not_newline (h : Holds b t) {l : List UInt8} {c : UInt8}
    (hl : l ++ [c] <+: t.line) : c ≠ newline := by
  have hc := h.line c (hl.subset (by simp))
  exact fun he => hc (.inl he)

/-- Every byte of the line that is edited gets erased. -/
theorem Holds.killLine (h : Holds b t) {l : List UInt8} (hl : l <+: t.line) :
    killLine b.data b.writeIndex (t.committed.length + l.length) = .ok t.committed.length := by
  induction l using List.reverseRecOn with
  | nil =>
    rw [h.write, List.length_nil, Nat.add_zero]
    cases t.committed.length with
    | zero => simp [Console.killLine]
    | succ n => simp [Console.killLine]
  | append_singleton l c ih =>
    have hlen : t.committed.length + (l ++ [c]).length = t.committed.length + l.length + 1 := by
      simp [Nat.add_assoc]
    have hle := hl.length_le
    have hedit := h.edit
    have hread := h.read
    have hlt : t.committed.length + l.length < (t.committed ++ t.line).length := by
      simp only [List.length_append, List.length_singleton] at hle ⊢
      omega
    have hget : b.data ((t.committed.length + l.length) % inputBufSize) = c := by
      rw [h.data _ (by omega) hlt]
      obtain ⟨rest, hrest⟩ := hl
      simp [← hrest]
    rw [hlen, Console.killLine, if_neg (by rw [h.write]; omega), hget,
      if_neg (h.last_not_newline hl)]
    exact ih ((List.prefix_append l [c]).trans hl)

/-- A byte goes into the slot that is free. -/
theorem Holds.store (h : Holds b t) (hroom : b.editIndex < b.readIndex + inputBufSize) {k : ℕ}
    (c : UInt8) (hk : b.readIndex ≤ k) (hlt : k < (t.committed ++ (t.line ++ [c])).length) :
    Function.update b.data (b.editIndex % inputBufSize) c (k % inputBufSize) =
      (t.committed ++ (t.line ++ [c]))[k] := by
  have hedit := h.edit
  simp only [List.length_append, List.length_singleton, inputBufSize] at hlt hroom ⊢
  simp only [← List.append_assoc]
  by_cases he : k = b.editIndex
  · subst he
    rw [Function.update_self, List.getElem_append_right (by simp only [List.length_append]; omega)]
    simp
  · have hne : k % 128 ≠ b.editIndex % 128 := by omega
    rw [Function.update_of_ne hne, List.getElem_append_left (by
      simp only [List.length_append]; omega)]
    exact h.data k hk (by simp only [List.length_append]; omega)

theorem Holds.type (h : Holds b t) (hroom : b.editIndex < b.readIndex + inputBufSize) {c : UInt8}
    (hc : ¬ EndsLine c) :
    Holds { b with
      data := Function.update b.data (b.editIndex % inputBufSize) c, editIndex := b.editIndex + 1 }
      { t with line := t.line ++ [c] } where
  read := h.read
  write := h.write
  edit := by
    have hedit := h.edit
    simp only [List.length_append, List.length_singleton]
    omega
  room := hroom
  data k hk hlt := h.store hroom c hk hlt
  line := by
    intro d hd
    obtain hd | hd := List.mem_append.mp hd
    · exact h.line d hd
    · rw [List.mem_singleton.mp hd]
      exact hc
  closed := h.closed

theorem Holds.commit (h : Holds b t) (hroom : b.editIndex < b.readIndex + inputBufSize) {c : UInt8}
    (hc : EndsLine c) :
    Holds ⟨Function.update b.data (b.editIndex % inputBufSize) c, b.readIndex, b.editIndex + 1,
      b.editIndex + 1⟩ ⟨t.committed ++ (t.line ++ [c]), []⟩ where
  read := by
    have hread := h.read
    simp only [List.length_append]
    omega
  write := by
    have hedit := h.edit
    simp only [List.length_append, List.length_singleton]
    omega
  edit := by
    have hedit := h.edit
    simp only [List.length_append, List.length_singleton, List.length_nil]
    omega
  room := hroom
  data k hk hlt := by
    simp only [List.append_nil] at hlt ⊢
    exact h.store hroom c hk hlt
  line := nofun
  closed d hd := by
    rw [← List.append_assoc, List.getLast?_append_of_ne_nil _ (by simp)] at hd
    obtain rfl := Option.some.inj hd
    exact hc

theorem sub_of_le {m n : ℕ} (h : n ≤ m) : sub m n = .ok (m - n) := if_pos h

/-- What an interrupt does to the buffer is what typing does to the text. -/
theorem Holds.interrupt (h : Holds b t) (c : UInt8) :
    (∃ b', interrupt b c = .ok b' ∧ b'.readIndex = b.readIndex ∧
      Holds b' (t.type b.readIndex c)) ∨
    Console.interrupt b c = .error .overflow := by
  have hread := h.read
  have hwrite := h.write
  have hedit := h.edit
  have hroom := h.room
  unfold Console.interrupt Text.type
  by_cases hp : c = control 'P'
  · rw [if_pos hp, if_pos (.inr hp)]
    exact .inl ⟨b, rfl, rfl, h⟩
  rw [if_neg hp]
  by_cases hu : c = control 'U'
  · have h0 : ¬ (c = 0 ∨ c = control 'P') := by
      rw [hu]
      decide
    rw [if_pos hu, if_neg h0, if_pos hu]
    have hk := h.killLine (List.prefix_refl t.line)
    rw [← hedit] at hk
    rw [hk]
    have he := h.erase (List.nil_prefix (l := t.line))
    exact .inl ⟨_, rfl, rfl, by simpa using he⟩
  rw [if_neg hu]
  by_cases hd : c = delete ∨ c = control 'H'
  · have h0 : ¬ (c = 0 ∨ c = control 'P') := by
      obtain rfl | rfl := hd
      · decide
      · decide
    rw [if_pos hd, if_neg h0, if_neg hu, if_pos hd]
    by_cases hempty : b.editIndex = b.writeIndex
    · have hnil : t.line = [] := List.length_eq_zero_iff.mp (by omega)
      rw [if_pos hempty]
      refine .inl ⟨b, rfl, rfl, ?_⟩
      rw [hnil, List.dropLast_nil, ← hnil]
      exact h
    · have hpos : 1 ≤ t.line.length := by omega
      rw [if_neg hempty, sub_of_le (by omega)]
      have he := h.erase (List.dropLast_prefix t.line)
      rw [List.length_dropLast, ← Nat.add_sub_assoc hpos, ← hedit] at he
      exact .inl ⟨_, rfl, rfl, he⟩
  rw [if_neg hd]
  unfold append
  by_cases h0 : c = 0
  · rw [if_pos h0, if_pos (.inl h0)]
    exact .inl ⟨b, rfl, rfl, h⟩
  rw [if_neg h0, if_neg (not_or.mpr ⟨h0, hp⟩), if_neg hu, if_neg hd, sub_of_le (by omega)]
  by_cases hfull : inputBufSize ≤ b.editIndex - b.readIndex
  · have hfull' : inputBufSize ≤ t.committed.length + t.line.length - b.readIndex := by
      rw [← hedit]
      exact hfull
    rw [if_pos hfull']
    simp only [bind, Except.bind, if_pos hfull]
    exact .inl ⟨b, rfl, rfl, h⟩
  have hfree : b.editIndex < b.readIndex + inputBufSize := by omega
  have hfull' : ¬ inputBufSize ≤ t.committed.length + t.line.length - b.readIndex := by
    rw [← hedit]
    exact hfull
  rw [if_neg hfull']
  simp only [bind, Except.bind, if_neg hfull, add]
  by_cases hmax : b.editIndex + 1 < 2 ^ 64
  · rw [if_pos hmax]
    have hnoline (he : ¬ (c = newline ∨ c = carriageReturn)) : c ≠ carriageReturn := by
      exact fun hr => he (.inr hr)
    by_cases hn : c = newline ∨ c = carriageReturn
    · have hconv : (if c = carriageReturn then newline else c) = newline := by
        obtain rfl | rfl := hn
        · decide
        · decide
      rw [if_pos hn]
      simp only [hconv, true_or, if_true]
      exact .inl ⟨_, rfl, rfl, h.commit hfree (.inl rfl)⟩
    have hconv : (if c = carriageReturn then newline else c) = c := if_neg (hnoline hn)
    rw [if_neg hn]
    simp only [hconv]
    by_cases he : c = endOfFile
    · subst he
      simp only [or_true, if_true]
      exact .inl ⟨_, rfl, rfl, h.commit hfree (.inr rfl)⟩
    · have hopen : ¬ EndsLine c := by
        rintro (hl | hl)
        · exact hn (.inl hl)
        · exact he hl
      rw [if_neg (show ¬ (c = newline ∨ c = endOfFile) from hopen), if_neg he]
      exact .inl ⟨_, rfl, rfl, h.type hfree hopen⟩
  · rw [if_neg hmax]
    exact .inr rfl

/-! ## read -/

/-- What a read of at most `target` bytes returns of the bytes that are there, and
how many of these are gone then. -/
structure LineRead (unread : List UInt8) (target : ℕ) (bytes : List UInt8) (taken : ℕ) :
    Prop where
  isPrefix : bytes <+: unread
  le : bytes.length ≤ target
  noEndOfFile : endOfFile ∉ bytes
  noNewline : newline ∉ bytes.dropLast
  stop : (bytes.length = target ∨ bytes.getLast? = some newline) ∧ taken = bytes.length ∨
    (unread.drop bytes.length).head? = some endOfFile ∧
      taken = if bytes = [] then 1 else bytes.length

/-- Where a reader may be: `start` is its first byte. -/
structure InLine (b : InputBuffer) (t : Text) (start target charsLeft : ℕ) (bytes : List UInt8) :
    Prop where
  index : b.readIndex = start + bytes.length
  isPrefix : bytes <+: t.committed.drop start
  length : charsLeft + bytes.length = target
  noEnd : ∀ c ∈ bytes, ¬ EndsLine c

/-- What is read so far is not a whole line, so that more is committed. -/
theorem InLine.bytes_eq_nil {start target charsLeft : ℕ} {bytes : List UInt8} (h : Holds b t)
    (hr : InLine b t start target charsLeft bytes) (he : b.readIndex = b.writeIndex) :
    bytes = [] := by
  by_contra hne
  obtain ⟨rest, hrest⟩ := hr.isPrefix
  have hindex := hr.index
  have hwrite := h.write
  have hlen := congrArg List.length hrest
  simp only [List.length_append, List.length_drop] at hlen
  have hrest' : rest = [] := List.length_eq_zero_iff.mp (by omega)
  have hpos := List.length_pos_iff.mpr hne
  have hlast : t.committed.getLast? = some (bytes.getLast hne) := by
    rw [← List.take_append_drop start t.committed, ← hrest, hrest', List.append_nil,
      List.getLast?_append_of_ne_nil _ hne, List.getLast?_eq_some_getLast hne]
  exact hr.noEnd _ (List.getLast_mem hne) (h.closed _ hlast)

theorem Holds.take (h : Holds b t) {n : ℕ} (hn : b.readIndex ≤ n) (hle : n ≤ t.committed.length) :
    Holds { b with readIndex := n } t where
  read := hle
  write := h.write
  edit := h.edit
  room := by
    have := h.room
    dsimp only
    omega
  data := fun k hk => h.data k (hn.trans hk)
  line := h.line
  closed := h.closed

/-- The byte that a reader finds. -/
theorem Holds.next_eq (h : Holds b t) (hlt : b.readIndex < t.committed.length) :
    b.data (b.readIndex % inputBufSize) = t.committed[b.readIndex] := by
  rw [h.data _ le_rfl (by rw [List.length_append]; omega), List.getElem_append_left hlt]

theorem InLine.drop_eq {start target charsLeft : ℕ} {bytes : List UInt8}
    (hr : InLine b t start target charsLeft bytes) (hlt : b.readIndex < t.committed.length) :
    ∃ rest, t.committed.drop start = bytes ++ t.committed[b.readIndex] :: rest := by
  obtain ⟨rest, hrest⟩ := hr.isPrefix
  refine ⟨t.committed.drop (b.readIndex + 1), ?_⟩
  have hd : rest = t.committed.drop b.readIndex := by
    rw [hr.index, ← List.drop_drop, ← hrest, List.drop_left]
  rw [← hrest, hd, List.drop_eq_getElem_cons hlt]

theorem readLoop_spec (process : Option Bool) {start target charsLeft : ℕ} {bytes : List UInt8}
    (h : Holds b t) (hr : InLine b t start target charsLeft bytes) :
    match readLoop process (fun _ => true) target charsLeft b bytes with
    | .returned count bytes' b' => count = bytes'.length ∧ ∃ taken,
        b' = { b with readIndex := start + taken } ∧ start + taken ≤ t.committed.length ∧
          LineRead (t.committed.drop start) target bytes' taken
    | .failed _ => bytes = []
    | .asleep charsLeft' bytes' => charsLeft' = target ∧ bytes = [] ∧ bytes' = []
    | .fault f => f = .overflow := by
  induction charsLeft generalizing b bytes with
  | zero =>
    have hlen := hr.length
    have hindex := hr.index
    refine ⟨by omega, bytes.length, ?_, by rw [← hindex]; exact h.read, hr.isPrefix, by omega,
      fun hm => hr.noEnd _ hm (.inr rfl), fun hm => hr.noEnd _ (List.dropLast_subset _ hm) (.inl rfl),
      .inl ⟨.inl (by omega), rfl⟩⟩
    rw [← hindex]
  | succ charsLeft ih =>
    have hlen := hr.length
    have hindex := hr.index
    unfold readLoop
    by_cases he : b.readIndex = b.writeIndex
    · have hnil := hr.bytes_eq_nil h he
      rw [if_pos he]
      cases process with
      | none => exact hnil
      | some isKilled =>
        cases isKilled with
        | true => exact hnil
        | false =>
          rw [hnil, List.length_nil] at hlen
          exact ⟨hlen, hnil, hnil⟩
    rw [if_neg he]
    have hread := h.read
    have hwrite := h.write
    have hlt : b.readIndex < t.committed.length := by omega
    have hnext := h.next_eq hlt
    obtain ⟨rest, hdrop⟩ := hr.drop_eq hlt
    rw [← hnext] at hdrop
    generalize b.data (b.readIndex % inputBufSize) = c at hdrop
    by_cases hmax : b.readIndex + 1 < 2 ^ 64
    · simp only [add, if_pos hmax]
      by_cases heof : c = endOfFile
      · have hstop : LineRead (t.committed.drop start) target bytes
            (if bytes = [] then 1 else bytes.length) := by
          refine ⟨hr.isPrefix, by omega, fun hm => hr.noEnd _ hm (.inr rfl),
            fun hm => hr.noEnd _ (List.dropLast_subset _ hm) (.inl rfl), .inr ⟨?_, rfl⟩⟩
          rw [hdrop, List.drop_left, List.head?_cons, heof]
        rw [if_pos heof]
        by_cases hsome : charsLeft + 1 < target
        · have hne : bytes ≠ [] := by
            rintro rfl
            rw [List.length_nil] at hlen
            omega
          rw [if_pos hsome, sub_of_le (by omega)]
          rw [if_neg hne] at hstop
          refine ⟨by omega, _, ?_, by omega, hstop⟩
          rw [Nat.add_sub_cancel, ← hindex]
        · have hnil : bytes = [] := List.length_eq_zero_iff.mp (by omega)
          rw [if_neg hsome]
          rw [if_pos hnil] at hstop
          rw [hnil, List.length_nil] at hindex
          refine ⟨by rw [hnil, List.length_nil]; omega, _, ?_, by omega, hstop⟩
          rw [hindex, Nat.add_zero]
      rw [if_neg heof]
      have hpre : bytes ++ [c] <+: t.committed.drop start := by
        rw [hdrop]
        exact ⟨rest, by simp⟩
      by_cases hline : c = newline
      · have hread : LineRead (t.committed.drop start) target (bytes ++ [c]) (bytes.length + 1) := by
          refine ⟨hpre, by simp only [List.length_append, List.length_singleton]; omega, ?_, ?_,
            .inl ⟨.inr (by simp [hline]), by simp⟩⟩
          · intro hm
            obtain hm | hm := List.mem_append.mp hm
            · exact hr.noEnd _ hm (.inr rfl)
            · exact heof (List.mem_singleton.mp hm).symm
          · rw [List.dropLast_concat]
            exact fun hm => hr.noEnd _ hm (.inl rfl)
        simp only [Bool.not_true, Bool.false_eq_true, if_false, if_pos hline]
        refine ⟨?_, _, ?_, by omega, hread⟩
        · simp only [List.length_append, List.length_singleton]
          omega
        · rw [hindex, Nat.add_assoc]
      · simp only [Bool.not_true, Bool.false_eq_true, if_false, if_neg hline]
        have hopen : ¬ EndsLine c := by
          rintro (hl | hl)
          · exact hline hl
          · exact heof hl
        have hnext := @ih { b with readIndex := b.readIndex + 1 } (bytes ++ [c])
          (h.take (Nat.le_succ _) hlt) ⟨?_, hpre, ?_, ?_⟩
        · -- a reader that has been given `c` neither sleeps nor fails before it returns
          generalize readLoop process (fun _ => true) target charsLeft _ _ = r at hnext ⊢
          cases r with
          | returned count bytes' b' => exact hnext
          | failed e => exact absurd hnext (by simp)
          | asleep left bytes' => exact absurd hnext.2.1 (by simp)
          | fault f => exact hnext
        · simp only [List.length_append, List.length_singleton]
          omega
        · simp only [List.length_append, List.length_singleton]
          omega
        · intro d hd
          obtain hd | hd := List.mem_append.mp hd
          · exact hr.noEnd d hd
          · rw [List.mem_singleton.mp hd]
            exact hopen
    · simp only [add, if_neg hmax]

/-! ## Runs -/

theorem Text.type_committed (t : Text) (taken : ℕ) (c : UInt8) :
    t.committed <+: (t.type taken c).committed := by
  unfold Text.type
  split_ifs
  · exact List.prefix_refl _
  · exact List.prefix_refl _
  · exact List.prefix_refl _
  · exact List.prefix_refl _
  · exact List.prefix_append _ _
  · exact List.prefix_append _ _
  · exact List.prefix_refl _

/-- The destinations of the reads are mapped. -/
def Event.IsMapped {π : Type} : Event π → Prop
  | .read _ _ isMapped _ => ∀ k, isMapped k = true
  | _ => True

section
variable {π : Type} {s s' : State π} {p : π}

/-- A call at its begin, where it may also sleep. -/
structure Reading.Fresh (r : Reading) : Prop where
  charsLeft : r.charsLeft = r.target
  bytes : r.bytes = []
  isMapped : ∀ k, r.isMapped k = true

structure Invariant (s : State π) : Prop where
  holds : Holds s.inputBuffer s.text
  reading : ∀ p r, s.reading p = some r → r.Fresh
  delivered : s.delivered =
    (s.text.committed.take s.inputBuffer.readIndex).filter (· ≠ endOfFile)

theorem Reading.Fresh.inLine {r : Reading} (hr : r.Fresh) (b : InputBuffer) (t : Text) :
    InLine b t b.readIndex r.target r.charsLeft r.bytes where
  index := by simp [hr.bytes]
  isPrefix := by simp [hr.bytes]
  length := by simp [hr.bytes, hr.charsLeft]
  noEnd := by simp [hr.bytes]

/-- What a reader takes is what it returns, and a byte that ends the file. -/
theorem LineRead.filter_take {unread bytes : List UInt8} {target taken : ℕ}
    (h : LineRead unread target bytes taken) :
    (unread.take taken).filter (· ≠ endOfFile) = bytes := by
  have hbytes : bytes.filter (· ≠ endOfFile) = bytes := by
    apply List.filter_eq_self.mpr
    intro c hc
    have hne : c ≠ endOfFile := fun he => h.noEndOfFile (he ▸ hc)
    simpa using hne
  have htake : unread.take bytes.length = bytes := (List.prefix_iff_eq_take.mp h.isPrefix).symm
  obtain ⟨-, hk⟩ | ⟨heof, hk⟩ := h.stop
  · rw [hk, htake, hbytes]
  · by_cases hnil : bytes = []
    · subst hnil
      rw [List.length_nil, List.drop_zero] at heof
      obtain ⟨rest, hrest⟩ : ∃ rest, unread = endOfFile :: rest := by
        cases unread with
        | nil => cases heof
        | cons c rest => exact ⟨rest, by rw [Option.some.inj heof]⟩
      rw [hk, hrest]
      simp
    · rw [hk, if_neg hnil, htake, hbytes]

variable [DecidableEq π]

theorem Invariant.goOn (h : Invariant s) {process : Option Bool} {r : Reading} (hr : r.Fresh)
    (hs : goOn s p process r = some s') : Invariant s' := by
  have hspec := readLoop_spec process h.holds (hr.inLine _ _)
  have hmapped : r.isMapped = fun _ => true := funext hr.isMapped
  unfold Console.goOn at hs
  rw [hmapped] at hs
  generalize readLoop process _ _ _ _ _ = o at hs hspec
  cases o with
  | returned count bytes b =>
    obtain ⟨-, taken, rfl, hle, hread⟩ := hspec
    cases hs
    refine ⟨h.holds.take (Nat.le_add_right _ _) hle, fun q r' hq => ?_, ?_⟩
    · by_cases hqp : q = p
      · subst hqp
        simp [State.setReading] at hq
      · simp only [State.setReading, Function.update_of_ne hqp] at hq
        exact h.reading q r' hq
    · simp only [State.setReading]
      rw [List.take_add, List.filter_append, hread.filter_take, ← h.delivered]
  | failed e =>
    cases hs
    refine ⟨h.holds, fun q r' hq => ?_, h.delivered⟩
    by_cases hqp : q = p
    · subst hqp
      simp [State.setReading] at hq
    · simp only [State.setReading, Function.update_of_ne hqp] at hq
      exact h.reading q r' hq
  | asleep charsLeft bytes =>
    obtain ⟨hleft, -, hbytes⟩ := hspec
    cases hs
    refine ⟨h.holds, fun q r' hq => ?_, h.delivered⟩
    by_cases hqp : q = p
    · subst hqp
      simp only [State.setReading, Function.update_self, Option.some.injEq] at hq
      subst hq
      exact ⟨hleft, hbytes, fun _ => rfl⟩
    · simp only [State.setReading, Function.update_of_ne hqp] at hq
      exact h.reading q r' hq
  | fault f => cases hs

theorem Invariant.interrupt (h : Invariant s) {c : UInt8}
    (hs : step s (.interrupt c) = some s') : Invariant s' := by
  rw [step] at hs
  obtain ⟨b', hb, hindex, hholds⟩ | hf := h.holds.interrupt c
  · rw [hb] at hs
    cases hs
    refine ⟨hholds, h.reading, ?_⟩
    obtain ⟨rest, hrest⟩ := s.text.type_committed s.inputBuffer.readIndex c
    dsimp only
    rw [hindex, ← hrest, List.take_append_of_le_length h.holds.read, ← h.delivered]
  · rw [hf] at hs
    cases hs

theorem Invariant.step (h : Invariant s) {e : Event π} (he : e.IsMapped)
    (hs : step s e = some s') : Invariant s' := by
  cases e with
  | interrupt c => exact h.interrupt hs
  | read p target isMapped process =>
    rw [Console.step] at hs
    cases hp : s.reading p with
    | some r => simp [hp] at hs
    | none =>
      rw [hp] at hs
      exact h.goOn (r := .start target isMapped) ⟨rfl, rfl, he⟩ hs
  | awake p process =>
    rw [Console.step] at hs
    cases hp : s.reading p with
    | none => simp [hp] at hs
    | some r =>
      rw [hp] at hs
      exact h.goOn (h.reading p r hp) hs

theorem invariant_run {data : ℕ → UInt8} {es : List (Event π)} (he : ∀ e ∈ es, e.IsMapped)
    (hs : run Console.step (initial data) es = some s) : Invariant s := by
  induction es using List.reverseRecOn generalizing s with
  | nil =>
    obtain rfl := Option.some.inj hs
    exact ⟨⟨le_rfl, rfl, rfl, Nat.zero_le _, fun k _ hk => absurd hk (Nat.not_lt_zero k), nofun,
      nofun⟩, nofun, rfl⟩
  | append_singleton es e ih =>
    obtain ⟨s₁, hs₁, hstep⟩ := run_concat_eq_some.mp hs
    exact (ih (fun e' he' => he e' (List.mem_append_left _ he')) hs₁).step
      (he e (List.mem_append_right _ (List.mem_singleton_self e))) hstep

/-- The calls of `read` that `p` can be in when it gets the lock. -/
def MayRead (s : State π) (p : π) (r : Reading) : Prop :=
  s.reading p = some r ∨ s.reading p = none ∧ ∃ target, r = .start target (fun _ => true)

/-- The console after any history of interrupts and of reads into mapped memory. -/
theorem console_discipline {data : ℕ → UInt8} {es : List (Event π)} (he : ∀ e ∈ es, e.IsMapped)
    (hs : run Console.step (initial data) es = some s) :
    (s.inputBuffer.readIndex ≤ s.inputBuffer.writeIndex ∧
      s.inputBuffer.writeIndex ≤ s.inputBuffer.editIndex ∧
      s.inputBuffer.editIndex ≤ s.inputBuffer.readIndex + inputBufSize) ∧
    (∀ c, Console.interrupt s.inputBuffer c ≠ .error .underflow) ∧
    (∀ k, s.inputBuffer.writeIndex ≤ k → k < s.inputBuffer.editIndex →
      s.inputBuffer.data (k % inputBufSize) ≠ newline ∧
      s.inputBuffer.data (k % inputBufSize) ≠ endOfFile) ∧
    (s.inputBuffer.writeIndex = s.text.committed.length ∧
      s.inputBuffer.editIndex = s.text.committed.length + s.text.line.length ∧
      ∀ k, s.inputBuffer.readIndex ≤ k → k < s.inputBuffer.editIndex →
        (s.text.committed ++ s.text.line)[k]? = some (s.inputBuffer.data (k % inputBufSize))) ∧
    s.delivered <+: s.text.committed.filter (· ≠ endOfFile) ∧
    ∀ p r process, MayRead s p r →
      match readLoop process r.isMapped r.target r.charsLeft s.inputBuffer r.bytes with
      | .returned count bytes b => count = bytes.length ∧
          LineRead (s.text.committed.drop s.inputBuffer.readIndex) r.target bytes
            (b.readIndex - s.inputBuffer.readIndex)
      | .failed _ => True
      | .asleep _ bytes => bytes = []
      | .fault f => f = .overflow := by
  have h := invariant_run he hs
  have hread := h.holds.read
  have hwrite := h.holds.write
  have hedit := h.holds.edit
  have hget (k : ℕ) (hk : s.inputBuffer.readIndex ≤ k) (hlt : k < s.inputBuffer.editIndex) :
      (s.text.committed ++ s.text.line)[k]? = some (s.inputBuffer.data (k % inputBufSize)) := by
    have hlen : k < (s.text.committed ++ s.text.line).length := by
      rw [List.length_append]
      omega
    rw [h.holds.data k hk hlen, List.getElem?_eq_getElem hlen]
  refine ⟨⟨by omega, by omega, h.holds.room⟩, ?_, ?_, ⟨hwrite, hedit, hget⟩, ?_, ?_⟩
  · intro c
    obtain ⟨b, hb, -⟩ | hf := h.holds.interrupt c
    · rw [hb]
      exact nofun
    · rw [hf]
      exact nofun
  · intro k hk hlt
    have hline := hget k (by omega) hlt
    rw [List.getElem?_append_right (by omega)] at hline
    have hopen := h.holds.line _ (List.mem_of_getElem? hline)
    exact ⟨fun hc => hopen (.inl hc), fun hc => hopen (.inr hc)⟩
  · rw [h.delivered]
    exact (List.take_prefix _ _).filter _
  · intro p r process hr
    have hfresh : r.Fresh := by
      obtain hr | ⟨-, target, rfl⟩ := hr
      · exact h.reading p r hr
      · exact ⟨rfl, rfl, fun _ => rfl⟩
    have hspec := readLoop_spec process h.holds (hfresh.inLine _ _)
    have hmapped : r.isMapped = fun _ => true := funext hfresh.isMapped
    rw [hmapped]
    generalize readLoop process _ _ _ _ _ = o at hspec
    cases o with
    | returned count bytes b =>
      obtain ⟨hcount, taken, rfl, -, hline⟩ := hspec
      refine ⟨hcount, ?_⟩
      rw [Nat.add_sub_cancel_left]
      exact hline
    | failed e => trivial
    | asleep charsLeft bytes => exact hspec.2.2
    | fault f => exact hspec

/-- A line is typed with one slip, read, and ended by `^D`. -/
theorem console_discipline_line :
    ∃ s : State Unit, s.delivered = [104, 105, 10] ∧
      s.delivered <+: s.text.committed.filter (· ≠ endOfFile) := by
  let es : List (Event Unit) := [.interrupt 104, .interrupt 97, .interrupt 127, .interrupt 105,
    .interrupt 13, .interrupt 4, .read () 9 (fun _ => true) (some false)]
  have hrun : (run Console.step (initial fun _ => 0) es).any
      (fun s => s.delivered = [104, 105, 10]) = true := by
    decide +kernel
  obtain ⟨s, hs, hd⟩ := (Option.any_eq_true _ _).mp hrun
  have hmapped : ∀ e ∈ es, e.IsMapped := by
    simp [es, Event.IsMapped]
  have h := console_discipline hmapped hs
  exact ⟨s, of_decide_eq_true hd, h.2.2.2.2.1⟩

end

end Zigmaos.Console
