import Mathlib.Data.List.Basic
import Mathlib.Data.List.TakeWhile

/-!
# Words and symbols of a command line

The shell reads a line with two functions, `gettoken` and `peek`, that move a
pointer over it. The line is the string up to its NUL and a pointer is a
position, so that `es` is the length of the line. `Lexes` says what symbols and
words a line consists of, and what the two functions return is read off it.
-/
namespace Zigmaos.Shell

abbrev Text := List UInt8

def whitespace : Text := [' ', '\t', '\r', '\n', '\x0b'].map Char.toUInt8

def symbols : Text := ['<', '|', '>', '&', ';', '(', ')'].map Char.toUInt8

def strchr (s : Text) (c : UInt8) : Bool := s.contains c

def isWhitespace (c : UInt8) : Bool := strchr whitespace c

def isWordByte (c : UInt8) : Bool := !strchr whitespace c && !strchr symbols c

def byteAt (line : Text) (s : ℕ) : UInt8 := line.getD s 0

/-- The loop `while(s < es && p(*s)) s++`. -/
def skip (p : UInt8 → Bool) (line : Text) (s : ℕ) : ℕ := s + ((line.drop s).takeWhile p).length

/-- What `q` and `eq` point to: the first byte of a token and the byte after it. -/
structure Token where
  start : ℕ
  stop : ℕ
deriving DecidableEq, Repr

structure Scan where
  tok : UInt8
  token : Token
  next : ℕ
deriving DecidableEq, Repr

def gettoken (line : Text) (ps : ℕ) : Scan :=
  let q := skip isWhitespace line ps
  let c := byteAt line q
  if c = 0 then ⟨c, ⟨q, q⟩, skip isWhitespace line q⟩
  else if strchr (['|', '(', ')', ';', '&', '<'].map Char.toUInt8) c then
    ⟨c, ⟨q, q + 1⟩, skip isWhitespace line (q + 1)⟩
  else if c = '>'.toUInt8 then
    if byteAt line (q + 1) = '>'.toUInt8 then
      ⟨'+'.toUInt8, ⟨q, q + 2⟩, skip isWhitespace line (q + 2)⟩
    else ⟨c, ⟨q, q + 1⟩, skip isWhitespace line (q + 1)⟩
  else
    let eq := skip isWordByte line q
    ⟨'a'.toUInt8, ⟨q, eq⟩, skip isWhitespace line eq⟩

structure Peek where
  found : Bool
  next : ℕ
deriving DecidableEq, Repr

def peek (line : Text) (ps : ℕ) (toks : Text) : Peek :=
  let s := skip isWhitespace line ps
  ⟨byteAt line s ≠ 0 && strchr toks (byteAt line s), s⟩

inductive Symbol
  | input
  | pipe
  | output
  | ampersand
  | semicolon
  | left
  | right
  | append
deriving DecidableEq, Repr

/-- The byte a symbol begins with. -/
def Symbol.first : Symbol → UInt8
  | .input => '<'.toUInt8
  | .pipe => '|'.toUInt8
  | .output => '>'.toUInt8
  | .ampersand => '&'.toUInt8
  | .semicolon => ';'.toUInt8
  | .left => '('.toUInt8
  | .right => ')'.toUInt8
  | .append => '>'.toUInt8

/-- What `gettoken` returns for the symbol. -/
def Symbol.tok : Symbol → UInt8
  | .append => '+'.toUInt8
  | x => x.first

inductive Lexeme
  | symbol (x : Symbol)
  | word (w : Text)
deriving DecidableEq, Repr

def IsWord (w : Text) : Prop := w ≠ [] ∧ ∀ c ∈ w, isWordByte c = true ∧ c ≠ 0

/-- A line consists of these symbols and words. `>>` is one symbol, and a word
goes on as far as it can. -/
inductive Lexes : Text → List Lexeme → Prop
  | nil : Lexes [] []
  | space {c l ls} : isWhitespace c = true → Lexes l ls → Lexes (c :: l) ls
  | symbol {x l ls} : x ≠ .output → x ≠ .append → Lexes l ls →
      Lexes (x.first :: l) (.symbol x :: ls)
  | output {l ls} : l.head? ≠ some '>'.toUInt8 → Lexes l ls →
      Lexes ('>'.toUInt8 :: l) (.symbol .output :: ls)
  | append {l ls} : Lexes l ls →
      Lexes ('>'.toUInt8 :: '>'.toUInt8 :: l) (.symbol .append :: ls)
  | word {w l ls} : IsWord w → (∀ c ∈ l.head?, isWordByte c = false) → Lexes l ls →
      Lexes (w ++ l) (.word w :: ls)

/-! ## Bytes -/

theorem whitespace_ne_zero {c : UInt8} (h : isWhitespace c = true) : c ≠ 0 := by
  intro hc
  subst hc
  exact absurd h (by decide)

theorem wordByte_not_whitespace {c : UInt8} (h : isWordByte c = true) :
    isWhitespace c = false := by
  simp only [isWordByte, Bool.and_eq_true, Bool.not_eq_true'] at h
  exact h.1

theorem wordByte_not_symbol {c : UInt8} (h : isWordByte c = true) : strchr symbols c = false := by
  simp only [isWordByte, Bool.and_eq_true, Bool.not_eq_true'] at h
  exact h.2

theorem strchr_iff {s : Text} {c : UInt8} : strchr s c = true ↔ c ∈ s := by
  simp [strchr]

theorem strchr_mono {s t : Text} (hst : s.all (strchr t) = true) {c : UInt8}
    (h : strchr t c = false) : strchr s c = false := by
  by_contra hc
  rw [Bool.not_eq_false, strchr_iff] at hc
  rw [List.all_eq_true.mp hst c hc] at h
  cases h

@[simp] theorem first_not_whitespace (x : Symbol) : isWhitespace x.first = false := by
  cases x <;> decide

@[simp] theorem first_not_wordByte (x : Symbol) : isWordByte x.first = false := by
  cases x <;> decide

@[simp] theorem first_ne_zero (x : Symbol) : x.first ≠ 0 := by
  cases x <;> decide

theorem IsWord.not_whitespace {w : Text} (h : IsWord w) {c : UInt8} (hc : c ∈ w) :
    isWhitespace c = false :=
  wordByte_not_whitespace (h.2 c hc).1

/-! ## Scanning -/

theorem drop_length_takeWhile {α : Type*} (p : α → Bool) (l : List α) :
    l.drop (l.takeWhile p).length = l.dropWhile p := by
  induction l with
  | nil => simp
  | cons a l ih => by_cases h : p a <;> simp [h, ih]

theorem drop_skip (p : UInt8 → Bool) (line : Text) (s : ℕ) :
    line.drop (skip p line s) = (line.drop s).dropWhile p := by
  rw [skip, ← List.drop_drop, drop_length_takeWhile]

theorem le_skip (p : UInt8 → Bool) (line : Text) (s : ℕ) : s ≤ skip p line s :=
  Nat.le_add_right _ _

theorem skip_le {p : UInt8 → Bool} {line : Text} {s : ℕ} (h : s ≤ line.length) :
    skip p line s ≤ line.length := by
  have hlen := (List.takeWhile_prefix p (l := line.drop s)).length_le
  simp only [skip, List.length_drop] at *
  omega

theorem byteAt_eq (line : Text) (s : ℕ) : byteAt line s = ((line.drop s).head?).getD 0 := by
  simp [byteAt, List.getD_eq_getElem?_getD]

theorem dropWhile_append_of_all {p : UInt8 → Bool} {w l : Text} (hw : ∀ c ∈ w, p c = true)
    (hl : ∀ c ∈ l.head?, p c = false) :
    (w ++ l).takeWhile p = w ∧ (w ++ l).dropWhile p = l := by
  induction w with
  | nil =>
    cases l with
    | nil => simp
    | cons c l =>
      have hc := hl c (by simp)
      simp [hc]
  | cons a w ih =>
    have ha := hw a (by simp)
    obtain ⟨ht, hd⟩ := ih (fun c hc => hw c (by simp [hc]))
    simp [ha, ht, hd]

/-- Position `s` of the line is at the beginning of these symbols and words. -/
structure At (line : Text) (s : ℕ) (ls : List Lexeme) : Prop where
  le : s ≤ line.length
  lexes : Lexes (line.drop s) ls

theorem Lexes.dropWhile {l : Text} {ls : List Lexeme} (h : Lexes l ls) :
    Lexes (l.dropWhile isWhitespace) ls := by
  induction h with
  | nil => exact Lexes.nil
  | space hc _ ih => simpa [hc] using ih
  | symbol ho ha h _ => simpa using Lexes.symbol ho ha h
  | output hl h _ =>
    have hc : isWhitespace '>'.toUInt8 = false := by decide
    rw [List.dropWhile_cons, hc]
    exact Lexes.output hl h
  | append h _ =>
    have hc : isWhitespace '>'.toUInt8 = false := by decide
    rw [List.dropWhile_cons, hc]
    exact Lexes.append h
  | @word w l ls hw hl h _ =>
    cases w with
    | nil => exact absurd rfl hw.1
    | cons c w =>
      have hc : isWhitespace c = false := hw.not_whitespace (by simp)
      simpa [hc] using Lexes.word hw hl h

theorem At.skipped {line : Text} {s : ℕ} {ls : List Lexeme} (h : At line s ls) :
    At line (skip isWhitespace line s) ls where
  le := skip_le h.le
  lexes := by
    rw [drop_skip]
    exact h.lexes.dropWhile

/-- The bytes of a symbol. -/
def Symbol.spelling : Symbol → Text
  | .append => ['>'.toUInt8, '>'.toUInt8]
  | x => [x.first]

theorem Lexes.nil_dropWhile {l : Text} (h : Lexes l []) : l.dropWhile isWhitespace = [] := by
  generalize hls : ([] : List Lexeme) = ls at h
  induction h with
  | nil => rfl
  | space hc _ ih => simpa [hc] using ih hls
  | symbol | output | append | word => cases hls

theorem Lexes.symbol_dropWhile {l : Text} {x : Symbol} {ls : List Lexeme}
    (h : Lexes l (.symbol x :: ls)) :
    ∃ r, l.dropWhile isWhitespace = x.spelling ++ r ∧ Lexes r ls ∧
      (x = .output → r.head? ≠ some '>'.toUInt8) := by
  generalize hls : Lexeme.symbol x :: ls = ls' at h
  have hc : isWhitespace '>'.toUInt8 = false := by decide
  induction h with
  | nil => cases hls
  | space hs _ ih => simpa [hs] using ih hls
  | @symbol y l _ ho ha h =>
    cases hls
    apply Exists.intro l
    refine ⟨?_, h, fun hx => absurd hx ho⟩
    cases x <;> simp_all [Symbol.spelling]
  | @output l _ hl h =>
    cases hls
    exact ⟨l, by rw [List.dropWhile_cons, hc]; rfl, h, fun _ => hl⟩
  | @append l _ h =>
    cases hls
    exact ⟨l, by rw [List.dropWhile_cons, hc]; rfl, h, by simp⟩
  | word => cases hls

theorem Lexes.word_dropWhile {l w : Text} {ls : List Lexeme} (h : Lexes l (.word w :: ls)) :
    ∃ r, l.dropWhile isWhitespace = w ++ r ∧ IsWord w ∧
      (∀ c ∈ r.head?, isWordByte c = false) ∧ Lexes r ls := by
  generalize hls : Lexeme.word w :: ls = ls' at h
  induction h with
  | nil | symbol | output | append => cases hls
  | space hs _ ih => simpa [hs] using ih hls
  | @word w l _ hw hl h =>
    cases hls
    apply Exists.intro l
    cases w with
    | nil => exact absurd rfl hw.1
    | cons c w =>
      have hc : isWhitespace c = false := hw.not_whitespace (by simp)
      exact ⟨by simp [hc], hw, hl, h⟩

/-! ## Tokens -/

def text (line : Text) (t : Token) : Text := (line.drop t.start).take (t.stop - t.start)

/-- The token is a word of the line, up to its end. -/
structure WordAt (line : Text) (t : Token) : Prop where
  le : t.start ≤ t.stop
  le_length : t.stop ≤ line.length
  word : IsWord (text line t)
  ended : ∀ c ∈ (line.drop t.stop).head?, isWordByte c = false

theorem drop_add_of_append {line u r : Text} {q : ℕ} (h : line.drop q = u ++ r) :
    line.drop (q + u.length) = r := by
  rw [← List.drop_drop, h, List.drop_left]

theorem add_length_le_of_append {line u r : Text} {q : ℕ} (hq : q ≤ line.length)
    (h : line.drop q = u ++ r) : q + u.length ≤ line.length := by
  have hlen := congrArg List.length h
  simp only [List.length_drop, List.length_append] at hlen
  omega

theorem At.after {line u r : Text} {q : ℕ} {ls : List Lexeme} (hq : q ≤ line.length)
    (h : line.drop q = u ++ r) (hr : Lexes r ls) :
    At line (skip isWhitespace line (q + u.length)) ls := by
  apply At.skipped
  constructor
  · exact add_length_le_of_append hq h
  · rw [drop_add_of_append h]
    exact hr

theorem gettoken_nil {line : Text} {s : ℕ} (h : At line s []) :
    (gettoken line s).tok = 0 ∧ At line (gettoken line s).next [] := by
  have hdrop := (drop_skip isWhitespace line s).trans h.lexes.nil_dropWhile
  have hbyte : byteAt line (skip isWhitespace line s) = 0 := by simp [byteAt_eq, hdrop]
  simp only [gettoken, hbyte, if_true]
  exact ⟨trivial, h.skipped.skipped⟩

theorem gettoken_symbol {line : Text} {s : ℕ} {x : Symbol} {ls : List Lexeme}
    (h : At line s (.symbol x :: ls)) :
    (gettoken line s).tok = x.tok ∧ At line (gettoken line s).next ls := by
  obtain ⟨r, hdrop, hr, hout⟩ := h.lexes.symbol_dropWhile
  rw [← drop_skip] at hdrop
  have hafter := At.after (skip_le h.le) hdrop hr
  have hbyte : byteAt line (skip isWhitespace line s) = x.first := by
    rw [byteAt_eq, hdrop]
    cases x <;> rfl
  have hsecond : byteAt line (skip isWhitespace line s + 1) =
      ((x.spelling ++ r).tail.head?).getD 0 := by
    rw [byteAt_eq, ← List.drop_drop, hdrop, List.drop_one]
  have hgreater : (r.head?).getD 0 = '>'.toUInt8 → x ≠ .output := by
    intro hr' hx
    apply hout hx
    cases hh : r.head? with
    | none => rw [hh] at hr'; exact absurd hr' (by decide)
    | some c => rw [hh] at hr'; exact congrArg some hr'
  cases x
  case output =>
    have hne : ¬ byteAt line (skip isWhitespace line s + 1) = '>'.toUInt8 := by
      rw [hsecond]
      intro hr'
      exact hgreater hr' rfl
    have hstr : strchr (['|', '(', ')', ';', '&', '<'].map Char.toUInt8)
        Symbol.output.first = false := by decide
    simp only [gettoken, hbyte, first_ne_zero, if_false, hstr, Bool.false_eq_true, hne]
    exact ⟨rfl, hafter⟩
  case append =>
    have heq : byteAt line (skip isWhitespace line s + 1) = '>'.toUInt8 := by
      rw [hsecond]
      rfl
    have hstr : strchr (['|', '(', ')', ';', '&', '<'].map Char.toUInt8)
        Symbol.append.first = false := by decide
    simp only [gettoken, hbyte, first_ne_zero, if_false, hstr, Bool.false_eq_true, heq, if_true]
    exact ⟨rfl, hafter⟩
  all_goals
    simp only [gettoken, hbyte, first_ne_zero, if_false]
    rw [if_pos (by decide)]
    exact ⟨rfl, hafter⟩

theorem gettoken_word {line w : Text} {s : ℕ} {ls : List Lexeme}
    (h : At line s (.word w :: ls)) :
    (gettoken line s).tok = 'a'.toUInt8 ∧ WordAt line (gettoken line s).token ∧
      text line (gettoken line s).token = w ∧ At line (gettoken line s).next ls := by
  obtain ⟨r, hdrop, hw, hend, hr⟩ := h.lexes.word_dropWhile
  rw [← drop_skip] at hdrop
  have hle := skip_le (p := isWhitespace) h.le
  obtain ⟨htake, -⟩ := dropWhile_append_of_all (fun c hc => (hw.2 c hc).1) hend
  have hskip : skip isWordByte line (skip isWhitespace line s) =
      skip isWhitespace line s + w.length := by
    rw [skip, hdrop, htake]
  have htext : text line ⟨skip isWhitespace line s, skip isWhitespace line s + w.length⟩ = w := by
    simp only [text, hdrop, Nat.add_sub_cancel_left, List.take_left]
  cases w with
  | nil => exact absurd rfl hw.1
  | cons c w =>
    have hbyte : byteAt line (skip isWhitespace line s) = c := by simp [byteAt_eq, hdrop]
    obtain ⟨hc, hzero⟩ := hw.2 c (by simp)
    have hsym := wordByte_not_symbol hc
    have hstr := strchr_mono (s := ['|', '(', ')', ';', '&', '<'].map Char.toUInt8)
      (by decide) hsym
    have hgreater : c ≠ '>'.toUInt8 := by
      intro heq
      rw [heq] at hsym
      exact absurd hsym (by decide)
    simp only [gettoken, hbyte, hzero, if_false, hstr, Bool.false_eq_true, hgreater, hskip]
    refine ⟨trivial, ⟨Nat.le_add_right _ _, add_length_le_of_append hle hdrop, ?_, ?_⟩, htext,
      At.after hle hdrop hr⟩
    · rw [htext]
      exact hw
    · rw [drop_add_of_append hdrop]
      exact hend

theorem At.peek {line : Text} {s : ℕ} {ls : List Lexeme} (h : At line s ls) (toks : Text) :
    At line (peek line s toks).next ls :=
  h.skipped

/-- The next symbol begins with one of these bytes. -/
def startsIn (toks : Text) : List Lexeme → Bool
  | .symbol x :: _ => strchr toks x.first
  | _ => false

theorem peek_found {line : Text} {s : ℕ} {ls : List Lexeme} (h : At line s ls) (toks : Text)
    (htoks : toks.all (strchr symbols) = true) : (peek line s toks).found = startsIn toks ls := by
  cases ls with
  | nil =>
    have hdrop := (drop_skip isWhitespace line s).trans h.lexes.nil_dropWhile
    have hbyte : byteAt line (skip isWhitespace line s) = 0 := by simp [byteAt_eq, hdrop]
    simp [Shell.peek, hbyte, startsIn]
  | cons x ls =>
    cases x with
    | symbol x =>
      obtain ⟨r, hdrop, -, -⟩ := h.lexes.symbol_dropWhile
      rw [← drop_skip] at hdrop
      have hbyte : byteAt line (skip isWhitespace line s) = x.first := by
        rw [byteAt_eq, hdrop]
        cases x <;> rfl
      simp [Shell.peek, hbyte, startsIn]
    | word w =>
      obtain ⟨r, hdrop, hw, -, -⟩ := h.lexes.word_dropWhile
      rw [← drop_skip] at hdrop
      cases w with
      | nil => exact absurd rfl hw.1
      | cons c w =>
        have hbyte : byteAt line (skip isWhitespace line s) = c := by simp [byteAt_eq, hdrop]
        have hstr := strchr_mono htoks (wordByte_not_symbol (hw.2 c (by simp)).1)
        simp [Shell.peek, hbyte, hstr, startsIn]

theorem exists_symbol {c : UInt8} (h : c ∈ symbols) : ∃ x : Symbol, c = x.first := by
  simp only [symbols, List.map_cons, List.map_nil, List.mem_cons, List.not_mem_nil,
    or_false] at h
  rcases h with h | h | h | h | h | h | h
  · exact ⟨.input, h⟩
  · exact ⟨.pipe, h⟩
  · exact ⟨.output, h⟩
  · exact ⟨.ampersand, h⟩
  · exact ⟨.semicolon, h⟩
  · exact ⟨.left, h⟩
  · exact ⟨.right, h⟩

/-- Every line that has no NUL consists of symbols and words. -/
theorem exists_lexes (l : Text) (hl : 0 ∉ l) : ∃ ls, Lexes l ls := by
  induction hn : l.length using Nat.strong_induction_on generalizing l with
  | _ n ih =>
    cases l with
    | nil => exact ⟨[], Lexes.nil⟩
    | cons c r =>
      have hr : 0 ∉ r := fun h => hl (List.mem_cons_of_mem c h)
      obtain ⟨ls, hls⟩ := ih r.length (by simp at hn; omega) r hr rfl
      by_cases hspace : isWhitespace c = true
      · exact ⟨ls, Lexes.space hspace hls⟩
      by_cases hword : isWordByte c = true
      · have hdrop : (r.dropWhile isWordByte).length ≤ r.length :=
          (List.dropWhile_suffix isWordByte).length_le
        have hsub : 0 ∉ r.dropWhile isWordByte :=
          fun h => hr ((List.dropWhile_suffix isWordByte).subset h)
        obtain ⟨ls', hls'⟩ := ih _ (by simp at hn; omega) (r.dropWhile isWordByte) hsub rfl
        apply Exists.intro (.word (c :: r.takeWhile isWordByte) :: ls')
        have hsplit : c :: r = (c :: r.takeWhile isWordByte) ++ r.dropWhile isWordByte := by
          simp
        rw [hsplit]
        apply Lexes.word _ _ hls'
        · constructor
          · simp
          · intro d hd
            rw [List.mem_cons] at hd
            cases hd with
            | inl h =>
              rw [h]
              exact ⟨hword, fun h0 => hl (by simp [h0])⟩
            | inr h =>
              exact ⟨List.mem_takeWhile_imp h, fun h0 =>
                hr (h0 ▸ (List.takeWhile_prefix isWordByte).subset h)⟩
        · intro d hd
          have := List.head?_dropWhile_not isWordByte r
          rw [Option.mem_def.mp hd] at this
          simpa using this
      · have hc : c ∈ symbols := by
          have hwhite : strchr whitespace c = false := Bool.eq_false_iff.mpr hspace
          have hstr : strchr symbols c = true := by simpa [isWordByte, hwhite] using hword
          simpa [strchr] using hstr
        obtain ⟨x, hx⟩ := exists_symbol hc
        by_cases hout : c = '>'.toUInt8
        · rw [hout]
          by_cases hnext : r.head? = some '>'.toUInt8
          · obtain ⟨r', hr'⟩ := List.head?_eq_some_iff.mp hnext
            rw [hr'] at hr hn ⊢
            obtain ⟨ls', hls'⟩ := ih r'.length (by simp at hn; omega) r'
              (fun h => hr (List.mem_cons_of_mem _ h)) rfl
            exact ⟨_, Lexes.append hls'⟩
          · exact ⟨_, Lexes.output hnext hls⟩
        · apply Exists.intro (.symbol x :: ls)
          rw [hx]
          apply Lexes.symbol _ _ hls
          · intro h
            exact hout (hx.trans (congrArg Symbol.first h))
          · intro h
            exact hout (hx.trans (congrArg Symbol.first h))

end Zigmaos.Shell
