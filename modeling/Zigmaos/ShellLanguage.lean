import Zigmaos.ShellGrammar

/-!
# The language that the shell accepts

The words of a command that is parsed lie apart in the line, so that terminating
them in place leaves each of them whole. `parsecmd` gives the commands of the
grammar, read as strings, and no others.
-/
namespace Zigmaos.Shell
variable {line : Text}

/-! ## Strings -/

theorem nulterminate_eq (cmd : Cmd Token) (buf : Text) :
    nulterminate cmd buf = cmd.strings.foldl (fun buf t => buf.set t.stop 0) buf := by
  induction cmd generalizing buf with
  | exec argv => rfl
  | redir cmd file mode fd ih => rw [nulterminate, Cmd.strings, List.foldl_append, ih]; rfl
  | pipe left right ihl ihr | list left right ihl ihr =>
    rw [nulterminate, Cmd.strings, List.foldl_append, ihl, ihr]
  | back cmd ih => exact ih buf

theorem take_drop_set {buf : Text} {p i j : ℕ} (hp : p < i ∨ j ≤ p) :
    ((buf.set p 0).drop i).take (j - i) = (buf.drop i).take (j - i) := by
  rw [List.drop_set]
  split
  · rfl
  · rw [List.take_set, List.set_eq_of_length_le]
    rw [List.length_take]
    omega

theorem text_foldl {ts : List Token} {t : Token} (hts : ∀ u ∈ ts, u.stop < t.start ∨ t.stop ≤ u.stop)
    (buf : Text) : text (ts.foldl (fun buf u => buf.set u.stop 0) buf) t = text buf t := by
  induction ts generalizing buf with
  | nil => rfl
  | cons u ts ih =>
    rw [List.foldl_cons, ih fun v hv => hts v (by simp [hv])]
    exact take_drop_set (hts u (by simp))

theorem getElem?_foldl_zero {ts : List Token} {p : ℕ} {buf : Text} (h : buf[p]? = some 0) :
    (ts.foldl (fun buf u => buf.set u.stop 0) buf)[p]? = some 0 := by
  induction ts generalizing buf with
  | nil => exact h
  | cons u ts ih =>
    apply ih
    rw [List.getElem?_set]
    split
    next hu =>
      obtain ⟨hlt, -⟩ := List.getElem?_eq_some_iff.mp h
      rw [if_pos (by omega)]
    next => exact h

theorem getElem?_foldl_stop {ts : List Token} {t : Token} (ht : t ∈ ts) {buf : Text}
    (hlt : t.stop < buf.length) :
    (ts.foldl (fun buf u => buf.set u.stop 0) buf)[t.stop]? = some 0 := by
  induction ts generalizing buf with
  | nil => exact absurd ht (by simp)
  | cons u ts ih =>
    rw [List.foldl_cons]
    rcases List.mem_cons.mp ht with h | h
    · apply getElem?_foldl_zero
      rw [← h, List.getElem?_set_self hlt]
    · apply ih h
      rw [List.length_set]
      exact hlt

theorem length_foldl_set (ts : List Token) (buf : Text) :
    (ts.foldl (fun buf u => buf.set u.stop 0) buf).length = buf.length := by
  induction ts generalizing buf with
  | nil => rfl
  | cons u ts ih => rw [List.foldl_cons, ih, List.length_set]

/-- The byte after a word is none of the bytes of another word. -/
theorem WordAt.apart {l : Text} {t u : Token} (ht : WordAt l t) (hu : WordAt l u) :
    u.stop < t.start ∨ t.stop ≤ u.stop := by
  by_contra hin
  push Not at hin
  have hlen := ht.le_length
  have hget : (text l t)[u.stop - t.start]? = l[u.stop]? := by
    rw [text, List.getElem?_take_of_lt (by omega), List.getElem?_drop,
      show t.start + (u.stop - t.start) = u.stop by omega]
  have hbyte : l[u.stop]? = some l[u.stop] := List.getElem?_eq_getElem (by omega)
  rw [hbyte] at hget
  have hword := (ht.word.2 _ (List.mem_of_getElem? hget)).1
  have hend := hu.ended l[u.stop] (by rw [List.head?_drop, hbyte]; rfl)
  rw [hend] at hword
  cases hword

theorem text_append {l r : Text} {t : Token} (h : t.stop ≤ l.length) :
    text (l ++ r) t = text l t := by
  rcases Nat.lt_or_ge t.stop t.start with hlt | hle
  · simp only [text, show t.stop - t.start = 0 by omega, List.take_zero]
  · rw [text, List.drop_append_of_le_length (by omega),
      List.take_append_of_le_length (by rw [List.length_drop]; omega), text]

/-- Once the words are terminated, the pointer to a word is the word as a string. -/
theorem cstring_nulterminate {buf : Text} {cmd : Cmd Token}
    (h : ∀ t ∈ cmd.strings, WordAt (cstring buf 0) t) {t : Token} (ht : t ∈ cmd.strings) :
    cstring (nulterminate cmd buf) t.start = text (cstring buf 0) t := by
  have hw := h t ht
  have hsplit : buf = cstring buf 0 ++ buf.dropWhile (· ≠ 0) := List.takeWhile_append_dropWhile.symm
  have htext : text (nulterminate cmd buf) t = text (cstring buf 0) t := by
    rw [nulterminate_eq, text_foldl fun u hu => hw.apart (h u hu)]
    conv_lhs => rw [hsplit]
    exact text_append hw.le_length
  have hdrop : (nulterminate cmd buf).drop t.start =
      text (cstring buf 0) t ++ (nulterminate cmd buf).drop t.stop := by
    rw [← htext, text, show (nulterminate cmd buf).drop t.stop =
      ((nulterminate cmd buf).drop t.start).drop (t.stop - t.start) by
        rw [List.drop_drop, show t.start + (t.stop - t.start) = t.stop by have := hw.le; omega]]
    exact (List.take_append_drop _ _).symm
  rw [cstring, hdrop]
  apply (dropWhile_append_of_all (p := fun c => decide (c ≠ 0)) _ _).1
  · intro c hc
    exact decide_eq_true (hw.word.2 c hc).2
  · intro c hc
    rw [List.head?_drop, nulterminate_eq] at hc
    by_cases hlt : t.stop < buf.length
    · rw [getElem?_foldl_stop ht hlt] at hc
      cases hc
      rfl
    · rw [List.getElem?_eq_none (by rw [length_foldl_set]; omega)] at hc
      cases hc

theorem Cmd.map_congr {α β : Type} {f g : α → β} {c : Cmd α} (h : ∀ a ∈ c.strings, f a = g a) :
    c.map f = c.map g := by
  induction c with
  | exec argv => exact congrArg Cmd.exec (List.map_congr_left h)
  | redir cmd file mode fd ih =>
    simp only [map, strings, List.mem_append] at h ⊢
    rw [ih fun a ha => h a (.inl ha), h file (.inr (by simp))]
  | pipe left right ihl ihr | list left right ihl ihr =>
    simp only [map, strings, List.mem_append] at h ⊢
    rw [ihl fun a ha => h a (.inl ha), ihr fun a ha => h a (.inr ha)]
  | back cmd ih => exact congrArg Cmd.back (ih h)

theorem Reads.read {buf : Text} {cmd : Cmd Token} {c : Cmd Text}
    (h : Reads (cstring buf 0) cmd c) : Line.read ⟨cmd, nulterminate cmd buf⟩ = c := by
  rw [← h.map]
  exact Cmd.map_congr fun t ht => cstring_nulterminate h.words ht

/-! ## The parser and the grammar -/

theorem zero_notMem_cstring (buf : Text) (s : ℕ) : 0 ∉ cstring buf s := by
  intro h
  have := List.mem_takeWhile_imp h
  simp at this

theorem Lexes.length_le {l : Text} {ls : List Lexeme} (h : Lexes l ls) :
    ls.length ≤ l.length := by
  induction h with
  | nil => exact le_rfl
  | space _ _ ih => exact ih.trans (Nat.le_succ _)
  | symbol _ _ _ ih | output _ _ ih => exact Nat.succ_le_succ ih
  | append _ ih => exact (Nat.succ_le_succ ih).trans (Nat.le_succ _)
  | @word w l ls hw _ _ ih =>
    have hpos := List.length_pos_iff.mpr hw.1
    rw [List.length_append, List.length_cons]
    omega

theorem at_length_iff {s : ℕ} {ls : List Lexeme} (h : At line s ls) (toks : Text) :
    (peek line s toks).next = line.length ↔ ls = [] := by
  have hp := h.peek toks
  constructor
  · intro hnext
    have hlexes := hp.lexes
    rw [hnext, List.drop_length] at hlexes
    have hlen := hlexes.length_le
    exact List.length_eq_zero_iff.mp (Nat.le_zero.mp hlen)
  · intro hls
    rw [hls] at h
    have hdrop := (drop_skip isWhitespace line s).trans h.lexes.nil_dropWhile
    exact Nat.le_antisymm hp.le (List.drop_eq_nil_iff.mp hdrop)

/-- Of every line the parser returns the command that the grammar gives, and no
command if there is none. -/
theorem parsecmd_iff (buf : Text) :
    parsecmd buf ≠ .error .outOfFuel ∧ ∀ c, (∃ l, parsecmd buf = .ok l ∧ l.read = c) ↔
      ∃ ls, Lexes (cstring buf 0) ls ∧ Derives .line ls c := by
  obtain ⟨ls, hls⟩ := exists_lexes (cstring buf 0) (zero_notMem_cstring buf 0)
  have hstart {ls} (h : Lexes (cstring buf 0) ls) : At (cstring buf 0) 0 ls := ⟨Nat.zero_le _, h⟩
  have hfuel {ls} (h : Lexes (cstring buf 0) ls) :
      need .line ls.length ≤ 4 * (cstring buf 0).length + 4 := by
    have := h.length_le
    simp only [need]
    omega
  obtain ⟨hnofuel, hmeets⟩ := parse_meets _ .line (hstart hls) (hfuel hls)
  simp only [parse] at hnofuel hmeets
  have hrun : parsecmd buf = parseline (cstring buf 0) (4 * (cstring buf 0).length + 4) 0 >>=
      fun r => if (peek (cstring buf 0) r.next []).next ≠ (cstring buf 0).length then
        .error .leftovers else .ok ⟨r.cmd, nulterminate r.cmd buf⟩ := rfl
  constructor
  · rw [hrun]
    cases hp : parseline (cstring buf 0) (4 * (cstring buf 0).length + 4) 0 with
    | error e => exact fun he => hnofuel (hp.trans (congrArg _ (Except.error.inj he)))
    | ok r =>
      simp only [bind, Except.bind]
      split <;> simp
  · intro c
    constructor
    · intro h
      obtain ⟨l, hl, hc⟩ := h
      rw [hrun] at hl
      cases hp : parseline (cstring buf 0) (4 * (cstring buf 0).length + 4) 0 with
      | error e => rw [hp] at hl; cases hl
      | ok r =>
        obtain ⟨ls₁, ls₂, c', hsplit, hderives, hread, hat⟩ := hmeets r hp
        simp only [hp, bind, Except.bind] at hl
        split at hl
        next => cases hl
        next hnext =>
          rw [not_not, at_length_iff hat] at hnext
          rw [hnext, List.append_nil] at hsplit
          cases hl
          rw [hread.read] at hc
          exact ⟨ls, hls, by rw [hsplit, ← hc]; exact hderives⟩
    · intro h
      obtain ⟨ls', hls', hderives⟩ := h
      have hat := hstart hls'
      rw [← List.append_nil ls'] at hat
      have hneed : need .line (ls' ++ []).length ≤ 4 * (cstring buf 0).length + 4 := by
        rw [List.append_nil]
        exact hfuel hls'
      obtain ⟨r, hr, hread, hat'⟩ := hderives.yields hat hneed (.inl rfl)
      simp only [parse] at hr
      apply Exists.intro ⟨r.cmd, nulterminate r.cmd buf⟩
      constructor
      · rw [hrun, hr]
        exact if_neg (not_not.mpr ((at_length_iff hat' []).mpr rfl))
      · exact hread.read

end Zigmaos.Shell
