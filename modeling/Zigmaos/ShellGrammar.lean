import Mathlib.Logic.Function.Iterate
import Zigmaos.ShellParser

/-!
# The language of the shell

`Derives` is the grammar of command lines, over symbols and words, with the
command that each derivation stands for. The parser returns a command exactly
for the lines that have a derivation, and it returns what the derivation says.
-/
namespace Zigmaos.Shell

def Symbol.IsRedirection (x : Symbol) : Prop := x = .input ∨ x = .output ∨ x = .append

instance (x : Symbol) : Decidable x.IsRedirection := inferInstanceAs (Decidable (_ ∨ _))

/-- Redirections, the first of them the innermost. -/
inductive Redirs : List Lexeme → Cmd Text → Cmd Text → Prop
  | nil {c} : Redirs [] c c
  | cons {x f ls c c'} : x.IsRedirection → Redirs ls (c.redirect x.tok f) c' →
      Redirs (.symbol x :: .word f :: ls) c c'

/-- Arguments of a command that has `argc` of them, with redirections between. -/
inductive Args : List Lexeme → ℕ → Cmd Text → Cmd Text → Prop
  | nil {argc c} : Args [] argc c c
  | cons {w ls ls' argc c c₁ c₂} : argc + 1 < maxArgs → Redirs ls (c.push w) c₁ →
      Args ls' (argc + 1) c₁ c₂ → Args (.word w :: (ls ++ ls')) argc c c₂

inductive Category
  | line
  | pipe
  | exec
deriving DecidableEq, Repr

/-- `n` times `&`. -/
def ampersands (n : ℕ) : List Lexeme := List.replicate n (.symbol .ampersand)

inductive Derives : Category → List Lexeme → Cmd Text → Prop
  | block {ls ls' c c'} : Derives .line ls c → Redirs ls' c c' →
      Derives .exec (.symbol .left :: (ls ++ .symbol .right :: ls')) c'
  | words {ls ls' c c'} : Redirs ls (.exec []) c → Args ls' 0 c c' → Derives .exec (ls ++ ls') c'
  | single {ls c} : Derives .exec ls c → Derives .pipe ls c
  | pipe {ls ls' c c'} : Derives .exec ls c → Derives .pipe ls' c' →
      Derives .pipe (ls ++ .symbol .pipe :: ls') (.pipe c c')
  | back {ls c} (n : ℕ) : Derives .pipe ls c → Derives .line (ls ++ ampersands n) (Cmd.back^[n] c)
  | list {ls ls' c c'} (n : ℕ) : Derives .pipe ls c → Derives .line ls' c' →
      Derives .line (ls ++ (ampersands n ++ .symbol .semicolon :: ls')) (.list (Cmd.back^[n] c) c')

/-! ## Commands over positions -/

/-- The positions of `cmd` are words of the line, and `c` has these words. -/
structure Reads (line : Text) (cmd : Cmd Token) (c : Cmd Text) : Prop where
  map : cmd.map (text line) = c
  words : ∀ t ∈ cmd.strings, WordAt line t

theorem Cmd.map_push {α β : Type} (f : α → β) (a : α) (c : Cmd α) :
    (c.push a).map f = (c.map f).push (f a) := by
  induction c with
  | exec argv => simp [push, map]
  | redir cmd file mode fd ih => simp [push, map, ih]
  | pipe | list | back => rfl

theorem Cmd.mem_strings_push {α : Type} {a b : α} {c : Cmd α} (h : b ∈ (c.push a).strings) :
    b ∈ c.strings ∨ b = a := by
  induction c with
  | exec argv => simpa [push, strings] using h
  | redir cmd file mode fd ih =>
    simp only [push, strings, List.mem_append, List.mem_singleton] at h ⊢
    rcases h with h | h
    · rcases ih h with h | h
      · exact .inl (.inl h)
      · exact .inr h
    · exact .inl (.inr h)
  | pipe | list | back => exact .inl h

theorem Cmd.map_redirect {α β : Type} (f : α → β) (tok : UInt8) (a : α) (c : Cmd α) :
    (c.redirect tok a).map f = (c.map f).redirect tok (f a) := by
  simp only [redirect]
  split_ifs <;> rfl

theorem Cmd.mem_strings_redirect {α : Type} {tok : UInt8} {a b : α} {c : Cmd α}
    (h : b ∈ (c.redirect tok a).strings) : b ∈ c.strings ∨ b = a := by
  simp only [redirect] at h
  split_ifs at h
  all_goals first
    | exact .inl h
    | simpa [strings] using h

namespace Reads
variable {line : Text} {cmd : Cmd Token} {c : Cmd Text} {t : Token}

theorem empty (line : Text) : Reads line (.exec []) (.exec []) where
  map := rfl
  words := by simp [Cmd.strings]

theorem push (h : Reads line cmd c) (ht : WordAt line t) :
    Reads line (cmd.push t) (c.push (text line t)) where
  map := by rw [Cmd.map_push, h.map]
  words u hu := by
    rcases Cmd.mem_strings_push hu with hu | hu
    · exact h.words u hu
    · rw [hu]
      exact ht

theorem redirect (tok : UInt8) (h : Reads line cmd c) (ht : WordAt line t) :
    Reads line (cmd.redirect tok t) (c.redirect tok (text line t)) where
  map := by rw [Cmd.map_redirect, h.map]
  words u hu := by
    rcases Cmd.mem_strings_redirect hu with hu | hu
    · exact h.words u hu
    · rw [hu]
      exact ht

theorem back (h : Reads line cmd c) : Reads line (.back cmd) (.back c) where
  map := by rw [Cmd.map, h.map]
  words := h.words

theorem pipe {cmd' : Cmd Token} {c' : Cmd Text} (h : Reads line cmd c) (h' : Reads line cmd' c') :
    Reads line (.pipe cmd cmd') (.pipe c c') where
  map := by rw [Cmd.map, h.map, h'.map]
  words u hu := (List.mem_append.mp hu).elim (h.words u) (h'.words u)

theorem list {cmd' : Cmd Token} {c' : Cmd Text} (h : Reads line cmd c) (h' : Reads line cmd' c') :
    Reads line (.list cmd cmd') (.list c c') where
  map := by rw [Cmd.map, h.map, h'.map]
  words u hu := (List.mem_append.mp hu).elim (h.words u) (h'.words u)

end Reads

/-! ## What the parser returns has a derivation -/

/-- The call has returned the command and is at the beginning of `ls`. -/
def Yields (line : Text) (out : Except Error Parsed) (c : Cmd Text) (ls : List Lexeme) : Prop :=
  ∃ r, out = .ok r ∧ Reads line r.cmd c ∧ At line r.next ls

/-- A call at the beginning of `ls` does not run out of fuel, and if it returns it has
read something from which `derives` holds. -/
def Meets (line : Text) (derives : List Lexeme → Cmd Text → Prop) (ls : List Lexeme)
    (out : Except Error Parsed) : Prop :=
  out ≠ .error .outOfFuel ∧ ∀ r, out = .ok r →
    ∃ ls₁ ls₂ c, ls = ls₁ ++ ls₂ ∧ derives ls₁ c ∧ Reads line r.cmd c ∧ At line r.next ls₂

section
variable {line : Text} {P Q : List Lexeme → Cmd Text → Prop} {ls : List Lexeme}

theorem Meets.error {e : Error} (he : e ≠ .outOfFuel) : Meets line P ls (.error e) := by
  constructor
  · intro h
    exact he (Except.error.inj h)
  · intro r hr
    cases hr

theorem Meets.ok {cmd : Cmd Token} {s : ℕ} {ls₁ ls₂ : List Lexeme} {c : Cmd Text}
    (hls : ls = ls₁ ++ ls₂) (hp : P ls₁ c) (hr : Reads line cmd c) (hat : At line s ls₂) :
    Meets line P ls (.ok ⟨cmd, s⟩) := by
  constructor
  · intro h
    cases h
  · intro r' hr'
    cases hr'
    exact ⟨ls₁, ls₂, c, hls, hp, hr, hat⟩

theorem Meets.bind {ls' : List Lexeme} {x : Except Error Parsed}
    {f : Parsed → Except Error Parsed} (hx : Meets line P ls' x)
    (hf : ∀ r ls₁ ls₂ c, ls' = ls₁ ++ ls₂ → P ls₁ c → Reads line r.cmd c → At line r.next ls₂ →
      Meets line Q ls (f r)) : Meets line Q ls (x >>= f) := by
  cases x with
  | error e => exact Meets.error fun he => hx.1 (congrArg _ he)
  | ok r =>
    obtain ⟨ls₁, ls₂, c, hls, hp, hr, hat⟩ := hx.2 r rfl
    exact hf r ls₁ ls₂ c hls hp hr hat

/-- What is read after `u` is read of the whole. -/
theorem Meets.after {u ls' : List Lexeme} {out : Except Error Parsed}
    (h : Meets line P ls' out) (hls : ls = u ++ ls')
    (hq : ∀ ls₁ c, P ls₁ c → Q (u ++ ls₁) c) : Meets line Q ls out := by
  apply And.intro h.1
  intro r hr
  obtain ⟨ls₁, ls₂, c, hls', hp, hread, hat⟩ := h.2 r hr
  refine ⟨u ++ ls₁, ls₂, c, ?_, hq ls₁ c hp, hread, hat⟩
  rw [hls, hls', List.append_assoc]

end

theorem strchr_redirection {x : Symbol}
    (h : strchr ['<'.toUInt8, '>'.toUInt8] x.first = true) : x.IsRedirection := by
  revert h
  cases x <;> decide

theorem Symbol.IsRedirection.strchr {x : Symbol} (h : x.IsRedirection) :
    Shell.strchr ['<'.toUInt8, '>'.toUInt8] x.first = true := by
  revert h
  cases x <;> decide

theorem strchr_single {x y : Symbol} (hy : y ≠ .output ∧ y ≠ .append)
    (h : strchr [y.first] x.first = true) : x = y := by
  revert h hy
  cases x <;> cases y <;> decide

/-- The next symbol is this one. -/
theorem startsIn_single {y : Symbol} {ls : List Lexeme} (h : startsIn [y.first] ls = true)
    (hy : y ≠ .output ∧ y ≠ .append) : ∃ ls', ls = .symbol y :: ls' := by
  cases ls with
  | nil => exact absurd h (by simp [startsIn])
  | cons a ls =>
  cases a with
  | word w => exact absurd h (by simp [startsIn])
  | symbol x => exact ⟨ls, by rw [strchr_single hy h]⟩

theorem tok_ne_word (x : Symbol) : x.tok ≠ 'a'.toUInt8 := by
  cases x <;> decide

theorem tok_ne_zero (x : Symbol) : x.tok ≠ 0 := by
  cases x <;> decide

variable {line : Text}

theorem parseredirs_meets (fuel : ℕ) {ls : List Lexeme} {cmd : Cmd Token} {c : Cmd Text} {s : ℕ}
    (hat : At line s ls) (hc : Reads line cmd c) (hfuel : ls.length < fuel) :
    Meets line (fun ls₁ c' => Redirs ls₁ c c') ls (parseredirs line fuel cmd s) := by
  induction fuel generalizing ls cmd c s with
  | zero => omega
  | succ fuel ih =>
    have hpeek := hat.peek ['<'.toUInt8, '>'.toUInt8]
    have hfound := peek_found hat ['<'.toUInt8, '>'.toUInt8] (by decide)
    simp only [parseredirs]
    split
    next hf =>
      rw [hfound] at hf
      cases ls with
      | nil => exact absurd hf (by simp [startsIn])
      | cons a ls =>
      cases a with
      | word w => exact absurd hf (by simp [startsIn])
      | symbol x =>
      obtain ⟨htok, hop⟩ := gettoken_symbol hpeek
      have hx := strchr_redirection hf
      cases ls with
      | nil =>
        rw [if_pos (by rw [(gettoken_nil hop).1]; decide)]
        exact Meets.error (by simp)
      | cons a ls =>
      cases a with
      | symbol y =>
        rw [if_pos (by rw [(gettoken_symbol hop).1]; exact tok_ne_word y)]
        exact Meets.error (by simp)
      | word f =>
        obtain ⟨hword, hwordAt, htext, hnext⟩ := gettoken_word hop
        rw [if_neg (by simp [hword]), htok]
        simp only [List.length_cons] at hfuel
        have hread := hc.redirect x.tok hwordAt
        rw [htext] at hread
        exact (ih hnext hread (by omega)).after (u := [.symbol x, .word f]) rfl
          fun ls₁ c' h => Redirs.cons hx h
    next => exact Meets.ok (List.nil_append ls).symm Redirs.nil hc hpeek

theorem parseargs_meets (fuel : ℕ) {ls : List Lexeme} {argc : ℕ} {cmd : Cmd Token} {c : Cmd Text}
    {s : ℕ} (hat : At line s ls) (hc : Reads line cmd c) (hfuel : ls.length < fuel) :
    Meets line (fun ls₁ c' => Args ls₁ argc c c') ls (parseargs line fuel argc cmd s) := by
  induction fuel generalizing ls argc cmd c s with
  | zero => omega
  | succ fuel ih =>
    have hpeek := hat.peek ['|'.toUInt8, ')'.toUInt8, '&'.toUInt8, ';'.toUInt8]
    simp only [parseargs]
    split
    next => exact Meets.ok (List.nil_append ls).symm Args.nil hc hpeek
    next =>
      cases ls with
      | nil =>
        rw [if_pos (gettoken_nil hpeek).1]
        exact Meets.ok (List.nil_append []).symm Args.nil hc (gettoken_nil hpeek).2
      | cons a ls =>
      cases a with
      | symbol x =>
        have htok := (gettoken_symbol hpeek).1
        rw [if_neg (by rw [htok]; exact tok_ne_zero x), if_pos (by rw [htok]; exact tok_ne_word x)]
        exact Meets.error (by simp)
      | word w =>
        obtain ⟨hword, hwordAt, htext, hnext⟩ := gettoken_word hpeek
        rw [if_neg (by rw [hword]; decide), if_neg (by simp [hword])]
        split
        next => exact Meets.error (by simp)
        next hargc =>
          simp only [List.length_cons] at hfuel
          have hread := hc.push hwordAt
          rw [htext] at hread
          apply (parseredirs_meets fuel hnext hread (by omega)).bind
          intro r ls₁ ls₂ c₁ hls hredirs hr hrest
          have hlen := congrArg List.length hls
          rw [List.length_append] at hlen
          apply (ih hrest hr (by omega)).after (u := .word w :: ls₁)
          · rw [hls]
            rfl
          · intro ls₃ c₂ hargs
            exact Args.cons (by omega) hredirs hargs

theorem parseback_meets (fuel : ℕ) {ls : List Lexeme} {cmd : Cmd Token} {c : Cmd Text} {s : ℕ}
    (hat : At line s ls) (hc : Reads line cmd c) (hfuel : ls.length < fuel) :
    Meets line (fun ls₁ c' => ∃ n, ls₁ = ampersands n ∧ c' = Cmd.back^[n] c) ls
      (parseback line fuel cmd s) := by
  induction fuel generalizing ls cmd c s with
  | zero => omega
  | succ fuel ih =>
    have hpeek := hat.peek ['&'.toUInt8]
    have hfound := peek_found hat ['&'.toUInt8] (by decide)
    simp only [parseback]
    split
    next hf =>
      rw [hfound] at hf
      obtain ⟨ls', hls⟩ := startsIn_single (y := .ampersand) hf (by decide)
      rw [hls] at hpeek hfuel
      simp only [List.length_cons] at hfuel
      apply (ih (gettoken_symbol hpeek).2 hc.back (by omega)).after (u := [.symbol .ampersand]) hls
      intro ls₁ c' h
      obtain ⟨n, hn, hc'⟩ := h
      apply Exists.intro (n + 1)
      constructor
      · rw [hn]
        rfl
      · rw [hc']
        rfl
    next => exact Meets.ok (List.nil_append ls).symm ⟨0, rfl, rfl⟩ hc hpeek

/-- The function for a category, and the fuel it needs for `n` symbols and words. -/
def parse (line : Text) : Category → ℕ → ℕ → Except Error Parsed
  | .line => parseline line
  | .pipe => parsepipe line
  | .exec => parseexec line

def need : Category → ℕ → ℕ
  | .line, n => 4 * n + 4
  | .pipe, n => 4 * n + 3
  | .exec, n => 4 * n + 2

theorem parse_meets (fuel : ℕ) (k : Category) {ls : List Lexeme} {s : ℕ} (hat : At line s ls)
    (hfuel : need k ls.length ≤ fuel) : Meets line (Derives k) ls (parse line k fuel s) := by
  induction fuel using Nat.strong_induction_on generalizing k ls s with
  | _ fuel ih =>
    cases fuel with
    | zero => cases k <;> simp [need] at hfuel
    | succ fuel =>
    cases k with
    | line =>
      simp only [need] at hfuel
      simp only [parse, parseline]
      apply (ih fuel (by omega) .pipe hat (by simp only [need]; omega)).bind
      intro r ls₁ ls₂ c hls hpipe hr hat₁
      have hlen := congrArg List.length hls
      rw [List.length_append] at hlen
      apply (parseback_meets fuel hat₁ hr (by omega)).bind
      intro r' ls₃ ls₄ c' hls₂ hback hr' hat₂
      obtain ⟨n, hn, hc'⟩ := hback
      have hpeek := hat₂.peek [';'.toUInt8]
      have hfound := peek_found hat₂ [';'.toUInt8] (by decide)
      have hlen₂ := congrArg List.length hls₂
      rw [List.length_append] at hlen₂
      rw [hc'] at hr'
      split
      next hf =>
        rw [hfound] at hf
        obtain ⟨ls₅, hls₄⟩ := startsIn_single (y := .semicolon) hf (by decide)
        rw [hls₄] at hpeek hlen₂
        simp only [List.length_cons] at hlen₂
        apply (ih fuel (by omega) .line (gettoken_symbol hpeek).2
          (by simp only [need]; omega)).bind
        intro right ls₆ ls₇ d hls₅ hline hright hat₃
        apply Meets.ok _ (Derives.list n hpipe hline) (hr'.list hright) hat₃
        rw [hls, hls₂, hls₄, hls₅, hn]
        simp
      next =>
        apply Meets.ok _ (Derives.back n hpipe) hr' hpeek
        rw [hls, hls₂, hn, List.append_assoc]
    | pipe =>
      simp only [need] at hfuel
      simp only [parse, parsepipe]
      apply (ih fuel (by omega) .exec hat (by simp only [need]; omega)).bind
      intro r ls₁ ls₂ c hls hexec hr hat₁
      have hlen := congrArg List.length hls
      rw [List.length_append] at hlen
      have hpeek := hat₁.peek ['|'.toUInt8]
      have hfound := peek_found hat₁ ['|'.toUInt8] (by decide)
      split
      next hf =>
        rw [hfound] at hf
        obtain ⟨ls₃, hls₂⟩ := startsIn_single (y := .pipe) hf (by decide)
        rw [hls₂] at hpeek hlen
        simp only [List.length_cons] at hlen
        apply (ih fuel (by omega) .pipe (gettoken_symbol hpeek).2
          (by simp only [need]; omega)).bind
        intro right ls₄ ls₅ d hls₃ hpipe hright hat₂
        apply Meets.ok _ (Derives.pipe hexec hpipe) (hr.pipe hright) hat₂
        rw [hls, hls₂, hls₃]
        simp
      next => exact Meets.ok hls (Derives.single hexec) hr hpeek
    | exec =>
      simp only [need] at hfuel
      simp only [parse, parseexec]
      have hpeek := hat.peek ['('.toUInt8]
      have hfound := peek_found hat ['('.toUInt8] (by decide)
      split
      next hf =>
        rw [hfound] at hf
        obtain ⟨ls₁, hls⟩ := startsIn_single (y := .left) hf (by decide)
        rw [hls] at hpeek hfuel
        simp only [List.length_cons] at hfuel
        cases fuel with
        | zero => omega
        | succ fuel =>
        have hagain := peek_found hpeek ['('.toUInt8] (by decide)
        simp only [parseblock, hagain]
        rw [if_neg (by simp [startsIn, strchr, Symbol.first])]
        apply (ih fuel (by omega) .line (gettoken_symbol (hpeek.peek _)).2
          (by simp only [need]; omega)).bind
        intro r ls₂ ls₃ c hls₁ hline hr hat₁
        have hpeek₁ := hat₁.peek [')'.toUInt8]
        have hfound₁ := peek_found hat₁ [')'.toUInt8] (by decide)
        split
        next => exact Meets.error (by simp)
        next hf₁ =>
          rw [hfound₁] at hf₁
          have hright : startsIn [')'.toUInt8] ls₃ = true := by simpa using hf₁
          obtain ⟨ls₄, hls₃⟩ := startsIn_single (y := .right) hright (by decide)
          rw [hls₃] at hpeek₁
          have hlen := congrArg List.length hls₁
          rw [hls₃, List.length_append, List.length_cons] at hlen
          apply (parseredirs_meets fuel (gettoken_symbol hpeek₁).2 hr (by omega)).after
            (u := .symbol .left :: (ls₂ ++ [.symbol .right]))
          · rw [hls, hls₁, hls₃]
            simp
          · intro ls₅ c' hredirs
            have hblock := Derives.block hline hredirs
            simpa using hblock
      next =>
        apply (parseredirs_meets fuel hpeek (Reads.empty line) (by omega)).bind
        intro r ls₁ ls₂ c hls hredirs hr hat₁
        have hlen := congrArg List.length hls
        rw [List.length_append] at hlen
        exact (parseargs_meets fuel hat₁ hr (by omega)).after hls
          fun ls₃ c' hargs => Derives.words hredirs hargs

/-! ## The parser finds every derivation -/

section
variable {ls ls' : List Lexeme} {c d : Cmd Text}

theorem Yields.ok {cmd : Cmd Token} {s : ℕ} (hr : Reads line cmd c) (hat : At line s ls) :
    Yields line (.ok ⟨cmd, s⟩) c ls :=
  ⟨⟨cmd, s⟩, rfl, hr, hat⟩

theorem Yields.bind {x : Except Error Parsed} {f : Parsed → Except Error Parsed}
    (hx : Yields line x c ls)
    (hf : ∀ r, Reads line r.cmd c → At line r.next ls → Yields line (f r) d ls') :
    Yields line (x >>= f) d ls' := by
  obtain ⟨r, hr, hread, hat⟩ := hx
  rw [hr]
  exact hf r hread hat

end

/-- What comes next ends what has been read: nothing, or a symbol that begins so. -/
def Follows (toks : Text) (rest : List Lexeme) : Prop := rest = [] ∨ startsIn toks rest = true

theorem Follows.not_startsIn {toks toks' : Text} {rest : List Lexeme} (h : Follows toks rest)
    (hd : toks.all (fun c => !strchr toks' c) = true) : startsIn toks' rest = false := by
  rcases h with h | h
  · rw [h]
    rfl
  · cases rest with
    | nil => rfl
    | cons a rest =>
    cases a with
    | word w => rfl
    | symbol x =>
    have hx := List.all_eq_true.mp hd x.first (strchr_iff.mp h)
    simpa [startsIn] using hx

theorem Follows.mono {toks toks' : Text} {rest : List Lexeme} (h : Follows toks rest)
    (hd : toks.all (strchr toks') = true) : Follows toks' rest := by
  rcases h with h | h
  · exact .inl h
  · apply Or.inr
    cases rest with
    | nil => exact absurd h (by simp [startsIn])
    | cons a rest =>
    cases a with
    | word w => exact absurd h (by simp [startsIn])
    | symbol x => exact List.all_eq_true.mp hd x.first (strchr_iff.mp h)

theorem Redirs.startsIn {ls rest : List Lexeme} {c c' : Cmd Text} {toks : Text}
    (h : Redirs ls c c')
    (htoks : strchr toks '<'.toUInt8 = false ∧ strchr toks '>'.toUInt8 = false)
    (hrest : startsIn toks rest = false) : startsIn toks (ls ++ rest) = false := by
  cases h with
  | nil => exact hrest
  | @cons x f ls _ _ hx hredirs =>
    have hfirst : x.first = '<'.toUInt8 ∨ x.first = '>'.toUInt8 := by
      revert hx
      cases x <;> decide
    rcases hfirst with h | h
    · rw [List.cons_append, Shell.startsIn, h, htoks.1]
    · rw [List.cons_append, Shell.startsIn, h, htoks.2]

theorem Args.startsIn {ls rest : List Lexeme} {argc : ℕ} {c c' : Cmd Text} {toks : Text}
    (h : Args ls argc c c') (hrest : startsIn toks rest = false) :
    startsIn toks (ls ++ rest) = false := by
  cases h with
  | nil => exact hrest
  | cons => rfl

theorem Redirs.yields {ls rest : List Lexeme} {c c' : Cmd Text} (h : Redirs ls c c') {fuel : ℕ}
    {cmd : Cmd Token} {s : ℕ} (hat : At line s (ls ++ rest)) (hc : Reads line cmd c)
    (hfuel : (ls ++ rest).length < fuel)
    (hrest : Shell.startsIn ['<'.toUInt8, '>'.toUInt8] rest = false) :
    Yields line (parseredirs line fuel cmd s) c' rest := by
  induction h generalizing fuel cmd s with
  | nil =>
    cases fuel with
    | zero => omega
    | succ fuel =>
    have hfound := peek_found hat ['<'.toUInt8, '>'.toUInt8] (by decide)
    rw [List.nil_append, hrest] at hfound
    simp only [parseredirs, hfound]
    exact Yields.ok hc (hat.peek _)
  | @cons x f ls c c' hx hredirs ih =>
    cases fuel with
    | zero => omega
    | succ fuel =>
    have hfound := peek_found hat ['<'.toUInt8, '>'.toUInt8] (by decide)
    have hpeek := hat.peek ['<'.toUInt8, '>'.toUInt8]
    obtain ⟨htok, hop⟩ := gettoken_symbol hpeek
    obtain ⟨hword, hwordAt, htext, hnext⟩ := gettoken_word hop
    have hread := hc.redirect x.tok hwordAt
    rw [htext] at hread
    have hstarts : Shell.startsIn ['<'.toUInt8, '>'.toUInt8]
        (Lexeme.symbol x :: (Lexeme.word f :: ls) ++ rest) = true := hx.strchr
    simp only [parseredirs, hfound, hstarts, if_true, hword, htok]
    rw [if_neg (by simp)]
    simp only [List.length_append, List.length_cons] at hfuel
    exact ih hnext hread (by rw [List.length_append]; omega)

theorem Args.yields {ls rest : List Lexeme} {argc : ℕ} {c c' : Cmd Text} (h : Args ls argc c c')
    {fuel : ℕ} {cmd : Cmd Token} {s : ℕ} (hat : At line s (ls ++ rest)) (hc : Reads line cmd c)
    (hfuel : (ls ++ rest).length < fuel)
    (hrest : Follows ['|'.toUInt8, ')'.toUInt8, '&'.toUInt8, ';'.toUInt8] rest) :
    Yields line (parseargs line fuel argc cmd s) c' rest := by
  induction h generalizing fuel cmd s with
  | nil =>
    cases fuel with
    | zero => omega
    | succ fuel =>
    have hpeek := hat.peek ['|'.toUInt8, ')'.toUInt8, '&'.toUInt8, ';'.toUInt8]
    have hfound := peek_found hat
      ['|'.toUInt8, ')'.toUInt8, '&'.toUInt8, ';'.toUInt8] (by decide)
    rw [List.nil_append] at hpeek hfound
    simp only [parseargs]
    rcases hrest with hrest | hrest
    · rw [hrest] at hpeek hfound ⊢
      rw [if_neg (by rw [hfound]; decide), if_pos (gettoken_nil hpeek).1]
      exact Yields.ok hc (gettoken_nil hpeek).2
    · rw [if_pos (hfound.trans hrest)]
      exact Yields.ok hc hpeek
  | @cons w ls ls' argc c c₁ c₂ hargc hredirs hargs ih =>
    cases fuel with
    | zero => omega
    | succ fuel =>
    have hpeek := hat.peek ['|'.toUInt8, ')'.toUInt8, '&'.toUInt8, ';'.toUInt8]
    have hfound := peek_found hat
      ['|'.toUInt8, ')'.toUInt8, '&'.toUInt8, ';'.toUInt8] (by decide)
    obtain ⟨hword, hwordAt, htext, hnext⟩ := gettoken_word hpeek
    have hread := hc.push hwordAt
    rw [htext] at hread
    simp only [List.append_eq, List.append_assoc] at hnext
    simp only [List.cons_append, List.length_cons, List.length_append] at hfuel
    have hnot : Shell.startsIn ['<'.toUInt8, '>'.toUInt8] (ls' ++ rest) = false :=
      hargs.startsIn (hrest.not_startsIn (by decide))
    simp only [parseargs]
    rw [if_neg (by rw [hfound]; simp [Shell.startsIn]), if_neg (by rw [hword]; decide),
      if_neg (by simp [hword]), if_neg (by omega)]
    apply (hredirs.yields hnext hread (by simp only [List.length_append]; omega) hnot).bind
    intro r hr hat'
    exact ih hat' hr (by rw [List.length_append]; omega)

theorem parseback_yields (n : ℕ) {rest : List Lexeme} {c : Cmd Text} {fuel : ℕ}
    {cmd : Cmd Token} {s : ℕ} (hat : At line s (ampersands n ++ rest)) (hc : Reads line cmd c)
    (hfuel : (ampersands n ++ rest).length < fuel)
    (hrest : startsIn ['&'.toUInt8] rest = false) :
    Yields line (parseback line fuel cmd s) (Cmd.back^[n] c) rest := by
  induction n generalizing fuel cmd c s with
  | zero =>
    cases fuel with
    | zero => omega
    | succ fuel =>
    have hfound := peek_found hat ['&'.toUInt8] (by decide)
    have hnil : ampersands 0 ++ rest = rest := rfl
    rw [hnil, hrest] at hfound
    simp only [parseback, hfound]
    exact Yields.ok hc (hat.peek _)
  | succ n ih =>
    cases fuel with
    | zero => omega
    | succ fuel =>
    have hcons : ampersands (n + 1) ++ rest = .symbol .ampersand :: (ampersands n ++ rest) := rfl
    rw [hcons] at hat hfuel
    have hfound := peek_found hat ['&'.toUInt8] (by decide)
    simp only [List.length_cons] at hfuel
    simp only [parseback]
    rw [if_pos (by rw [hfound]; simp [startsIn, strchr, Symbol.first])]
    exact ih (gettoken_symbol (hat.peek _)).2 hc.back (by omega)

/-- What may come after the category. -/
def follow : Category → Text
  | .line => [')'.toUInt8]
  | .pipe => [')'.toUInt8, '&'.toUInt8, ';'.toUInt8]
  | .exec => ['|'.toUInt8, ')'.toUInt8, '&'.toUInt8, ';'.toUInt8]

theorem startsIn_self (x : Symbol) (ls : List Lexeme) :
    startsIn [x.first] (.symbol x :: ls) = true := by
  simp [startsIn, strchr]

theorem Derives.yields {k : Category} {ls : List Lexeme} {c : Cmd Text} (h : Derives k ls c)
    {fuel s : ℕ} {rest : List Lexeme} (hat : At line s (ls ++ rest))
    (hfuel : need k (ls ++ rest).length ≤ fuel) (hrest : Follows (follow k) rest) :
    Yields line (parse line k fuel s) c rest := by
  induction h generalizing fuel s rest with
  | @block ls ls' c c' hline hredirs ih =>
    simp only [need, List.cons_append, List.length_cons, List.length_append] at hfuel
    cases fuel with
    | zero => omega
    | succ fuel =>
    cases fuel with
    | zero => omega
    | succ fuel =>
    have hpeek := hat.peek ['('.toUInt8]
    have hfound := peek_found hat ['('.toUInt8] (by decide)
    have hagain := peek_found hpeek ['('.toUInt8] (by decide)
    simp only [parse, parseexec, parseblock]
    rw [if_pos (hfound.trans (startsIn_self .left _)),
      if_neg (by rw [hagain]; simp [startsIn, strchr, Symbol.first])]
    have hat₁ := (gettoken_symbol (hpeek.peek ['('.toUInt8])).2
    simp only [List.append_eq, List.append_assoc, List.cons_append] at hat₁
    apply (ih hat₁ (by simp only [need, List.length_append, List.length_cons]; omega)
      (.inr (startsIn_self .right _))).bind
    intro r hr hat₂
    have hfound₂ := peek_found hat₂ [')'.toUInt8] (by decide)
    rw [if_neg (by rw [hfound₂]; simp [startsIn, strchr, Symbol.first])]
    exact hredirs.yields (gettoken_symbol (hat₂.peek _)).2 hr
      (by rw [List.length_append]; omega) (hrest.not_startsIn (by decide))
  | @words ls ls' c c' hredirs hargs =>
    rw [List.append_assoc] at hat hfuel
    simp only [need, List.length_append] at hfuel
    cases fuel with
    | zero => omega
    | succ fuel =>
    have hfound := peek_found hat ['('.toUInt8] (by decide)
    have hnot : Shell.startsIn ['('.toUInt8] (ls ++ (ls' ++ rest)) = false :=
      hredirs.startsIn (by decide) (hargs.startsIn (hrest.not_startsIn (by decide)))
    simp only [parse, parseexec]
    rw [if_neg (by rw [hfound, hnot]; decide)]
    apply (hredirs.yields (hat.peek _) (Reads.empty line)
      (by simp only [List.length_append]; omega)
      (hargs.startsIn (hrest.not_startsIn (by decide)))).bind
    intro r hr hat₁
    exact hargs.yields hat₁ hr (by rw [List.length_append]; omega) hrest
  | @single ls c hexec ih =>
    simp only [need] at hfuel
    cases fuel with
    | zero => omega
    | succ fuel =>
    simp only [parse, parsepipe]
    apply (ih hat (by simp only [need]; omega) (hrest.mono (by decide))).bind
    intro r hr hat₁
    have hfound := peek_found hat₁ ['|'.toUInt8] (by decide)
    rw [if_neg (by rw [hfound, hrest.not_startsIn (by decide)]; decide)]
    exact Yields.ok hr (hat₁.peek _)
  | @pipe ls ls' c c' hexec hpipe ih ih' =>
    rw [List.append_assoc, List.cons_append] at hat hfuel
    simp only [need, List.length_append, List.length_cons] at hfuel
    cases fuel with
    | zero => omega
    | succ fuel =>
    simp only [parse, parsepipe]
    apply (ih hat (by simp only [need, List.length_append, List.length_cons]; omega)
      (.inr (by simp [startsIn, strchr, Symbol.first, follow]))).bind
    intro r hr hat₁
    have hfound := peek_found hat₁ ['|'.toUInt8] (by decide)
    rw [if_pos (hfound.trans (startsIn_self .pipe _))]
    apply (ih' (gettoken_symbol (hat₁.peek _)).2
      (by simp only [need, List.length_append]; omega) hrest).bind
    intro right hright hat₂
    exact Yields.ok (hr.pipe hright) hat₂
  | @back ls c n hpipe ih =>
    rw [List.append_assoc] at hat hfuel
    simp only [need, List.length_append] at hfuel
    cases fuel with
    | zero => omega
    | succ fuel =>
    have hfollows : Follows (follow .pipe) (ampersands n ++ rest) := by
      cases n with
      | zero => exact hrest.mono (by decide)
      | succ n => exact .inr (by simp [ampersands, List.replicate_succ, startsIn, strchr,
          Symbol.first, follow])
    simp only [parse, parseline]
    apply (ih hat (by simp only [need, List.length_append]; omega) hfollows).bind
    intro r hr hat₁
    apply (parseback_yields n hat₁ hr (by rw [List.length_append]; omega)
      (hrest.not_startsIn (by decide))).bind
    intro r' hr' hat₂
    have hfound := peek_found hat₂ [';'.toUInt8] (by decide)
    rw [if_neg (by rw [hfound, hrest.not_startsIn (by decide)]; decide)]
    exact Yields.ok hr' (hat₂.peek _)
  | @list ls ls' c c' n hpipe hline ih ih' =>
    simp only [List.append_assoc, List.cons_append] at hat hfuel
    simp only [need, List.length_append, List.length_cons] at hfuel
    cases fuel with
    | zero => omega
    | succ fuel =>
    have hfollows : Follows (follow .pipe)
        (ampersands n ++ .symbol .semicolon :: (ls' ++ rest)) := by
      cases n with
      | zero => exact .inr (by simp [ampersands, startsIn, strchr, Symbol.first, follow])
      | succ n => exact .inr (by simp [ampersands, List.replicate_succ, startsIn, strchr,
          Symbol.first, follow])
    simp only [parse, parseline]
    apply (ih hat (by simp only [need, List.length_append, List.length_cons]; omega)
      hfollows).bind
    intro r hr hat₁
    apply (parseback_yields n hat₁ hr
      (by simp only [List.length_append, List.length_cons]; omega)
      (by simp only [startsIn]; decide)).bind
    intro r' hr' hat₂
    have hfound := peek_found hat₂ [';'.toUInt8] (by decide)
    rw [if_pos (hfound.trans (startsIn_self .semicolon _))]
    apply (ih' (gettoken_symbol (hat₂.peek _)).2
      (by simp only [need, List.length_append]; omega) hrest).bind
    intro right hright hat₃
    exact Yields.ok (hr'.list hright) hat₃

end Zigmaos.Shell
