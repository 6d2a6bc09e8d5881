import Zigmaos.ShellLanguage

/-!
# Commands as lines

`print` writes a command as a line, with parentheses where they are needed. The
parser reads every command back, and it reads no others.
-/
namespace Zigmaos.Shell

/-- The symbol of a redirection. -/
def redirection (mode fd : ℕ) : Symbol :=
  if fd = 0 then .input else if mode = O_WRONLY ||| O_CREATE then .append else .output

/-- A command that a line can stand for. -/
def Cmd.WellFormed : Cmd Text → Prop
  | .exec argv => argv.length < maxArgs ∧ ∀ w ∈ argv, IsWord w
  | .redir cmd file mode fd => cmd.WellFormed ∧ IsWord file ∧
      ∃ x : Symbol, x.IsRedirection ∧ cmd.redirect x.tok file = .redir cmd file mode fd
  | .pipe left right => left.WellFormed ∧ right.WellFormed
  | .list left right => left.WellFormed ∧ right.WellFormed
  | .back cmd => cmd.WellFormed

def parenthesize (ls : List Lexeme) : List Lexeme := .symbol .left :: (ls ++ [.symbol .right])

def Cmd.spell : Cmd Text → Category → List Lexeme
  | .exec argv, _ => argv.map .word
  | .redir cmd file mode fd, _ =>
    cmd.spell .exec ++ [.symbol (redirection mode fd), .word file]
  | .pipe left right, k =>
    let ls := left.spell .exec ++ .symbol .pipe :: right.spell .pipe
    if k = .exec then parenthesize ls else ls
  | .list left right, k =>
    let ls := left.spell .pipe ++ .symbol .semicolon :: right.spell .line
    if k = .line then ls else parenthesize ls
  | .back cmd, k =>
    let ls := cmd.spell .pipe ++ [.symbol .ampersand]
    if k = .line then ls else parenthesize ls

def Lexeme.bytes : Lexeme → Text
  | .symbol x => x.spelling
  | .word w => w

/-- Each symbol and word is followed by a blank. -/
def unlex (ls : List Lexeme) : Text := ls.flatMap fun x => x.bytes ++ [' '.toUInt8]

def print (c : Cmd Text) : Text := unlex (c.spell .line)

/-! ## Printing -/

theorem blank_facts : isWhitespace ' '.toUInt8 = true ∧ isWordByte ' '.toUInt8 = false ∧
    ' '.toUInt8 ≠ '>'.toUInt8 ∧ ' '.toUInt8 ≠ 0 := by
  decide

theorem lexes_unlex {ls : List Lexeme} (h : ∀ w, .word w ∈ ls → IsWord w) :
    Lexes (unlex ls) ls := by
  obtain ⟨hspace, hword, hgreater, -⟩ := blank_facts
  induction ls with
  | nil => exact Lexes.nil
  | cons a ls ih =>
    have hls := Lexes.space hspace (ih fun w hw => h w (by simp [hw]))
    have hcons : unlex (a :: ls) = a.bytes ++ ' '.toUInt8 :: unlex ls := by simp [unlex]
    rw [hcons]
    cases a with
    | word w => exact Lexes.word (h w (by simp)) (by simpa using hword) hls
    | symbol x =>
      cases x
      case output => exact Lexes.output (by simpa using hgreater) hls
      case append => exact Lexes.append hls
      all_goals exact Lexes.symbol (by decide) (by decide) hls

theorem zero_notMem_unlex {ls : List Lexeme} (h : ∀ w, .word w ∈ ls → IsWord w) :
    0 ∉ unlex ls := by
  intro hzero
  obtain ⟨a, ha, hmem⟩ := List.mem_flatMap.mp hzero
  rcases List.mem_append.mp hmem with hmem | hmem
  · cases a with
    | word w => exact ((h w ha).2 0 hmem).2 rfl
    | symbol x =>
      revert hmem
      cases x <;> decide
  · exact blank_facts.2.2.2 (by simpa using (List.mem_singleton.mp hmem).symm)

theorem Cmd.WellFormed.words {c : Cmd Text} (h : c.WellFormed) (k : Category) {w : Text}
    (hw : .word w ∈ c.spell k) : IsWord w := by
  induction c generalizing k with
  | exec argv =>
    obtain ⟨v, hv, heq⟩ := List.mem_map.mp hw
    cases heq
    exact h.2 w hv
  | redir cmd file mode fd ih =>
    simp only [spell, List.mem_append, List.mem_cons, List.not_mem_nil, or_false] at hw
    rcases hw with hw | hw | hw
    · exact ih h.1 _ hw
    · cases hw
    · cases hw
      exact h.2.1
  | pipe left right ihl ihr =>
    have hmem : .word w ∈ left.spell .exec ∨ .word w ∈ right.spell .pipe := by
      simp only [spell] at hw
      split at hw <;> simpa [parenthesize] using hw
    exact hmem.elim (ihl h.1 _) (ihr h.2 _)
  | list left right ihl ihr =>
    have hmem : .word w ∈ left.spell .pipe ∨ .word w ∈ right.spell .line := by
      simp only [spell] at hw
      split at hw <;> simpa [parenthesize] using hw
    exact hmem.elim (ihl h.1 _) (ihr h.2 _)
  | back cmd ih =>
    have hmem : .word w ∈ cmd.spell .pipe := by
      simp only [spell] at hw
      split at hw <;> simpa [parenthesize] using hw
    exact ih h _ hmem

/-! ## A printed command is derived -/

theorem Redirs.snoc {ls : List Lexeme} {c c' : Cmd Text} (h : Redirs ls c c') {x : Symbol}
    (hx : x.IsRedirection) (f : Text) :
    Redirs (ls ++ [.symbol x, .word f]) c (c'.redirect x.tok f) := by
  induction h with
  | nil => exact Redirs.cons hx Redirs.nil
  | cons hy _ ih => exact Redirs.cons hy ih

theorem Args.snoc {ls : List Lexeme} {argc : ℕ} {c c' : Cmd Text} (h : Args ls argc c c')
    {x : Symbol} (hx : x.IsRedirection) (f : Text) :
    ls = [] ∧ c = c' ∨ Args (ls ++ [.symbol x, .word f]) argc c (c'.redirect x.tok f) := by
  induction h with
  | nil => exact .inl ⟨rfl, rfl⟩
  | @cons w ls ls' argc c c₁ c₂ hargc hredirs hargs ih =>
    apply Or.inr
    rcases ih with ⟨hnil, heq⟩ | ih
    · rw [hnil, List.append_nil, ← heq]
      have hlast := Args.cons hargc (hredirs.snoc hx f) Args.nil
      rwa [List.append_nil] at hlast
    · have hmore := Args.cons hargc hredirs ih
      rwa [← List.append_assoc] at hmore

theorem Derives.redirect {ls : List Lexeme} {c : Cmd Text} (h : Derives .exec ls c) {x : Symbol}
    (hx : x.IsRedirection) (f : Text) :
    Derives .exec (ls ++ [.symbol x, .word f]) (c.redirect x.tok f) := by
  cases h with
  | @block ls ls' c _ hline hredirs =>
    have hblock := Derives.block hline (hredirs.snoc hx f)
    simpa using hblock
  | @words ls ls' c _ hredirs hargs =>
    rcases hargs.snoc hx f with ⟨hnil, heq⟩ | hargs
    · have hwords := Derives.words (hredirs.snoc hx f) Args.nil
      rw [hnil, List.append_nil, ← heq]
      rwa [List.append_nil] at hwords
    · rw [List.append_assoc]
      exact Derives.words hredirs hargs

theorem args_words (ws pre : List Text) (h : pre.length + ws.length < maxArgs) :
    Args (ws.map .word) pre.length (.exec pre) (.exec (pre ++ ws)) := by
  induction ws generalizing pre with
  | nil =>
    rw [List.append_nil]
    exact Args.nil
  | cons w ws ih =>
    rw [List.length_cons] at h
    have hrest := ih (pre ++ [w]) (by rw [List.length_append, List.length_singleton]; omega)
    rw [List.length_append, List.length_singleton, List.append_assoc] at hrest
    exact Args.cons (by omega) Redirs.nil hrest

/-- A command that can be written for the most special category can be written for all. -/
theorem Derives.lift {ls : List Lexeme} {c : Cmd Text} (h : Derives .exec ls c) (k : Category) :
    Derives k ls c := by
  cases k with
  | exec => exact h
  | pipe => exact Derives.single h
  | line =>
    have hline := Derives.back 0 (Derives.single h)
    rwa [ampersands, List.replicate_zero, List.append_nil] at hline

theorem Derives.parenthesize {ls : List Lexeme} {c : Cmd Text} (h : Derives .line ls c) :
    Derives .exec (parenthesize ls) c :=
  Derives.block h Redirs.nil

theorem redirection_eq {c : Cmd Text} {x : Symbol} (hx : x.IsRedirection) {file : Text}
    {mode fd : ℕ} (h : c.redirect x.tok file = .redir c file mode fd) :
    redirection mode fd = x := by
  have hinput : c.redirect Symbol.input.tok file = .redir c file O_RDONLY 0 := rfl
  have houtput : c.redirect Symbol.output.tok file =
    .redir c file (O_WRONLY ||| O_CREATE ||| O_TRUNC) 1 := rfl
  have happend : c.redirect Symbol.append.tok file =
    .redir c file (O_WRONLY ||| O_CREATE) 1 := rfl
  rcases hx with hx | hx | hx
  · rw [hx, hinput] at h
    cases h
    exact hx.symm
  · rw [hx, houtput] at h
    cases h
    exact hx.symm
  · rw [hx, happend] at h
    cases h
    exact hx.symm

theorem Cmd.WellFormed.derives {c : Cmd Text} (h : c.WellFormed) (k : Category) :
    Derives k (c.spell k) c := by
  induction c generalizing k with
  | exec argv =>
    have hargs := args_words argv [] (by simpa using h.1)
    exact (Derives.words Redirs.nil hargs).lift k
  | redir cmd file mode fd ih =>
    obtain ⟨hcmd, -, x, hx, heq⟩ := h
    have hredirect := (ih hcmd .exec).redirect hx file
    rw [heq] at hredirect
    rw [spell, redirection_eq hx heq]
    exact hredirect.lift k
  | pipe left right ihl ihr =>
    have hpipe := Derives.pipe (ihl h.1 .exec) (ihr h.2 .pipe)
    have hline := Derives.back 0 hpipe
    rw [ampersands, List.replicate_zero, List.append_nil] at hline
    cases k with
    | exec => exact hline.parenthesize
    | pipe => exact hpipe
    | line => exact hline
  | list left right ihl ihr =>
    have hline := Derives.list 0 (ihl h.1 .pipe) (ihr h.2 .line)
    rw [ampersands, List.replicate_zero, List.nil_append] at hline
    cases k with
    | line => exact hline
    | exec | pipe => exact hline.parenthesize.lift _
  | back cmd ih =>
    have hline := Derives.back 1 (ih h .pipe)
    cases k with
    | line => exact hline
    | exec | pipe => exact hline.parenthesize.lift _

/-! ## What the parser reads is well formed -/

/-- The number of arguments of the command inside the redirections. -/
def Cmd.argc : Cmd Text → ℕ
  | .exec argv => argv.length
  | .redir cmd _ _ _ => cmd.argc
  | _ => 0

theorem Symbol.IsRedirection.redirect_eq {x : Symbol} (hx : x.IsRedirection) (c : Cmd Text)
    (file : Text) : ∃ mode fd, c.redirect x.tok file = .redir c file mode fd := by
  rcases hx with hx | hx | hx
  all_goals
    rw [hx]
    exact ⟨_, _, rfl⟩

theorem Cmd.WellFormed.push {c : Cmd Text} (h : c.WellFormed) {w : Text} (hw : IsWord w)
    (hargc : c.argc + 1 < maxArgs) : (c.push w).WellFormed := by
  induction c with
  | exec argv =>
    constructor
    · simpa [argc] using hargc
    · intro v hv
      rcases List.mem_append.mp hv with hv | hv
      · exact h.2 v hv
      · rw [List.mem_singleton.mp hv]
        exact hw
  | redir cmd file mode fd ih =>
    obtain ⟨hcmd, hfile, x, hx, heq⟩ := h
    refine ⟨ih hcmd hargc, hfile, x, hx, ?_⟩
    rcases hx with hx | hx | hx
    all_goals
      rw [hx] at heq ⊢
      cases heq
      rfl
  | pipe | list | back => exact h

theorem Cmd.argc_push_le (c : Cmd Text) (w : Text) : (c.push w).argc ≤ c.argc + 1 := by
  induction c with
  | exec argv => simp [push, argc]
  | redir cmd file mode fd ih => exact ih
  | pipe | list | back => simp [push, argc]

theorem Redirs.wellFormed {ls : List Lexeme} {c c' : Cmd Text} (h : Redirs ls c c')
    (hw : ∀ w, .word w ∈ ls → IsWord w) (hc : c.WellFormed) :
    c'.WellFormed ∧ c'.argc = c.argc := by
  induction h with
  | nil => exact ⟨hc, rfl⟩
  | @cons x f ls c c' hx _ ih =>
    obtain ⟨mode, fd, heq⟩ := hx.redirect_eq c f
    rw [heq] at ih
    exact ih (fun w hw' => hw w (by simp [hw'])) ⟨hc, hw f (by simp), x, hx, heq⟩

theorem Args.wellFormed {ls : List Lexeme} {argc : ℕ} {c c' : Cmd Text} (h : Args ls argc c c')
    (hw : ∀ w, .word w ∈ ls → IsWord w) (hc : c.WellFormed) (hargc : c.argc ≤ argc) :
    c'.WellFormed := by
  induction h with
  | nil => exact hc
  | @cons w ls ls' argc c c₁ c₂ hlt hredirs _ ih =>
    have hpush := hc.push (hw w (by simp)) (by omega)
    obtain ⟨hc₁, hargc₁⟩ := hredirs.wellFormed (fun v hv => hw v (by simp [hv])) hpush
    have hle := c.argc_push_le w
    exact ih (fun v hv => hw v (by simp [hv])) hc₁ (by omega)

theorem Cmd.WellFormed.iterate_back {c : Cmd Text} (h : c.WellFormed) (n : ℕ) :
    (Cmd.back^[n] c).WellFormed := by
  induction n generalizing c with
  | zero => exact h
  | succ n ih => exact ih (c := c.back) h

theorem Derives.wellFormed {k : Category} {ls : List Lexeme} {c : Cmd Text}
    (h : Derives k ls c) (hw : ∀ w, .word w ∈ ls → IsWord w) : c.WellFormed := by
  induction h with
  | block _ hredirs ih =>
    exact (hredirs.wellFormed (fun w hw' => hw w (by simp [hw']))
      (ih fun w hw' => hw w (by simp [hw']))).1
  | words hredirs hargs =>
    have hempty : (Cmd.exec []).WellFormed := ⟨by decide, by simp⟩
    obtain ⟨hc, hargc⟩ := hredirs.wellFormed (fun w hw' => hw w (by simp [hw'])) hempty
    exact hargs.wellFormed (fun w hw' => hw w (by simp [hw'])) hc hargc.le
  | single _ ih => exact ih hw
  | pipe _ _ ihl ihr =>
    exact ⟨ihl fun w hw' => hw w (by simp [hw']), ihr fun w hw' => hw w (by simp [hw'])⟩
  | back n _ ih => exact (ih fun w hw' => hw w (by simp [hw'])).iterate_back n
  | list n _ _ ihl ihr =>
    exact ⟨(ihl fun w hw' => hw w (by simp [hw'])).iterate_back n,
      ihr fun w hw' => hw w (by simp [hw'])⟩

theorem Lexes.isWord {l : Text} {ls : List Lexeme} (h : Lexes l ls) {w : Text}
    (hw : .word w ∈ ls) : IsWord w := by
  induction h with
  | nil => exact absurd hw (by simp)
  | space _ _ ih => exact ih hw
  | symbol _ _ _ ih | output _ _ ih | append _ ih => exact ih (by simpa using hw)
  | word hword _ _ ih =>
    rcases List.mem_cons.mp hw with hw | hw
    · cases hw
      exact hword
    · exact ih hw

/-- A command is well formed if some line stands for it, and then it is read back from
the line that is printed of it. -/
theorem print_parsecmd (c : Cmd Text) (tail : Text) :
    (c.WellFormed ↔ ∃ buf l, parsecmd buf = .ok l ∧ l.read = c) ∧
      (c.WellFormed ↔ ∃ l, parsecmd (print c ++ 0 :: tail) = .ok l ∧ l.read = c) := by
  have hparsed {buf} (h : ∃ l, parsecmd buf = .ok l ∧ l.read = c) : c.WellFormed := by
    obtain ⟨ls, hls, hderives⟩ := ((parsecmd_iff buf).2 c).mp h
    exact hderives.wellFormed fun w hw => hls.isWord hw
  have hprinted (h : c.WellFormed) :
      ∃ l, parsecmd (print c ++ 0 :: tail) = .ok l ∧ l.read = c := by
    have hwords : ∀ w, .word w ∈ c.spell .line → IsWord w := fun w hw => h.words .line hw
    have hline : cstring (print c ++ 0 :: tail) 0 = print c := by
      apply (dropWhile_append_of_all (p := fun c => decide (c ≠ 0)) _ (by simp)).1
      intro d hd
      exact decide_eq_true fun hzero => zero_notMem_unlex hwords (hzero ▸ hd)
    apply ((parsecmd_iff _).2 c).mpr
    rw [hline]
    exact ⟨c.spell .line, lexes_unlex hwords, h.derives .line⟩
  constructor
  · constructor
    · intro h
      exact ⟨_, hprinted h⟩
    · intro h
      obtain ⟨buf, hbuf⟩ := h
      exact hparsed hbuf
  · exact ⟨hprinted, hparsed⟩

end Zigmaos.Shell
