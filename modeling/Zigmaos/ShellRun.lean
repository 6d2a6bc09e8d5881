import Mathlib.Data.List.Range
import Mathlib.Logic.Function.Basic
import Mathlib.Tactic.IntervalCases
import Zigmaos.ShellPrinter

/-!
# What the shell runs

`runcmd` with the descriptor tables of the processes it forks. What a process has
open is looked at when it calls `exec` or waits: `denote` says it without
descriptors, by the input and the output that redirections and pipes give to a
command, and `runcmd` does exactly that. No process keeps an end of a pipe that
is not its input or output.
-/
namespace Zigmaos.Shell

def NOFILE : ℕ := 16

/-- The way from a command to one of its parts. -/
inductive Part
  | inner
  | left
  | right
deriving DecidableEq, Repr

abbrev Path := List Part

/-- What a descriptor can stand for. A pipe is named by the command that made it. -/
inductive Stream
  | given (n : ℕ)
  | file (name : Text) (mode : ℕ) (path : Path)
  | pipeRead (path : Path)
  | pipeWrite (path : Path)
deriving DecidableEq, Repr

abbrev Table := ℕ → Option Stream

/-- Which calls succeed, by the command that makes them. -/
structure World where
  opens : Path → Bool
  pipes : Path → Bool
  forks : Path → Bool
  forksAgain : Path → Bool

inductive Action
  | exec (argv : List Text)
  | wait
deriving DecidableEq, Repr

structure Moment (τ : Type) where
  path : Path
  action : Action
  holds : τ

def Moment.map {τ σ : Type} (f : τ → σ) (m : Moment τ) : Moment σ := ⟨m.path, m.action, f m.holds⟩

/-! ## System calls -/

def fileDescriptorAllocate (t : Table) (file : Stream) : Option (ℕ × Table) :=
  ((List.range NOFILE).find? fun fd => (t fd).isNone).map
    fun fd => (fd, Function.update t fd (some file))

def close (t : Table) (fd : ℕ) : Table := Function.update t fd none

def openFile (w : World) (path : Path) (name : Text) (mode : ℕ) (t : Table) : Option Table :=
  if w.opens path then (fileDescriptorAllocate t (.file name mode path)).map Prod.snd else none

def dup (t : Table) (fd : ℕ) : Table :=
  match t fd with
  | none => t
  | some file => ((fileDescriptorAllocate t file).map Prod.snd).getD t

def pipe (w : World) (path : Path) (t : Table) : Option (ℕ × ℕ × Table) :=
  if w.pipes path then do
    let first ← fileDescriptorAllocate t (.pipeRead path)
    let second ← fileDescriptorAllocate first.2 (.pipeWrite path)
    return (first.1, second.1, second.2)
  else none

/-! ## The shell -/

/-- The calls of `exec` and `wait` in the processes that `runcmd` forks, itself included.
A process that ends by `exit` or `panic` makes no more of them. -/
def runcmd (w : World) : Cmd Text → Path → Table → List (Moment Table)
  | .exec argv, path, t => if argv = [] then [] else [⟨path, .exec argv, t⟩]
  | .redir cmd file mode fd, path, t =>
    match openFile w path file mode (close t fd) with
    | none => []
    | some t => runcmd w cmd (path ++ [.inner]) t
  | .list left right, path, t =>
    if w.forks path then
      runcmd w left (path ++ [.left]) t ++
        ⟨path, .wait, t⟩ :: runcmd w right (path ++ [.right]) t
    else []
  | .pipe left right, path, t =>
    match pipe w path t with
    | none => []
    | some (p₀, p₁, t) =>
      if w.forks path then
        runcmd w left (path ++ [.left]) (close (close (dup (close t 1) p₁) p₀) p₁) ++
          if w.forksAgain path then
            runcmd w right (path ++ [.right]) (close (close (dup (close t 0) p₀) p₀) p₁) ++
              [⟨path, .wait, close (close t p₀) p₁⟩, ⟨path, .wait, close (close t p₀) p₁⟩]
          else []
      else []
  | .back cmd, path, t => if w.forks path then runcmd w cmd (path ++ [.inner]) t else []

/-- The loop at the beginning of `main`, for a console that can be opened. -/
def openConsole (console : Stream) : ℕ → Table → Table
  | 0, t => t
  | n + 1, t =>
    match fileDescriptorAllocate t console with
    | none => t
    | some (fd, t) => if fd ≥ 3 then close t fd else openConsole console n t

/-! ## What a command means -/

structure Streams where
  input : Stream
  output : Stream
  error : Stream
deriving DecidableEq, Repr

def Streams.redirect (s : Streams) (fd : ℕ) (file : Stream) : Streams :=
  if fd = 0 then { s with input := file } else { s with output := file }

/-- The table of a process that has these streams open and nothing else. -/
def standard (s : Streams) : Table
  | 0 => some s.input
  | 1 => some s.output
  | 2 => some s.error
  | _ => none

def Cmd.denote (w : World) : Cmd Text → Path → Streams → List (Moment Streams)
  | .exec argv, path, s => if argv = [] then [] else [⟨path, .exec argv, s⟩]
  | .redir cmd file mode fd, path, s =>
    if w.opens path then cmd.denote w (path ++ [.inner]) (s.redirect fd (.file file mode path))
    else []
  | .list left right, path, s =>
    if w.forks path then
      left.denote w (path ++ [.left]) s ++ ⟨path, .wait, s⟩ :: right.denote w (path ++ [.right]) s
    else []
  | .pipe left right, path, s =>
    if w.pipes path && w.forks path then
      left.denote w (path ++ [.left]) { s with output := .pipeWrite path } ++
        if w.forksAgain path then
          right.denote w (path ++ [.right]) { s with input := .pipeRead path } ++
            [⟨path, .wait, s⟩, ⟨path, .wait, s⟩]
        else []
    else []
  | .back cmd, path, s => if w.forks path then cmd.denote w (path ++ [.inner]) s else []

/-! ## Descriptors -/

theorem fileDescriptorAllocate_eq {t : Table} {fd : ℕ} (file : Stream) (hfd : fd < NOFILE)
    (hfree : t fd = none) (hlow : ∀ i < fd, t i ≠ none) :
    fileDescriptorAllocate t file = some (fd, Function.update t fd (some file)) := by
  have hfind : (List.range NOFILE).find? (fun fd => (t fd).isNone) = some fd := by
    rw [List.find?_range_eq_some]
    refine ⟨by simp [hfree], List.mem_range.mpr hfd, fun i hi => ?_⟩
    simpa using Option.ne_none_iff_isSome.mp (hlow i hi)
  rw [fileDescriptorAllocate, hfind, Option.map_some]

theorem standard_of_ge {s : Streams} {fd : ℕ} (h : 3 ≤ fd) : standard s fd = none := by
  obtain ⟨k, rfl⟩ := Nat.exists_eq_add_of_le' h
  rfl

theorem update_standard {s : Streams} {fd : ℕ} (hfd : fd = 0 ∨ fd = 1) (file : Stream) :
    Function.update (standard s) fd (some file) = standard (s.redirect fd file) := by
  funext i
  rcases hfd with hfd | hfd
  all_goals
    subst hfd
    rcases i with _ | _ | _ | i <;> simp [standard, Streams.redirect]

/-- A redirection of the input or the output is what closing and opening comes to. -/
theorem openFile_standard (w : World) (path : Path) (name : Text) (mode : ℕ) (s : Streams)
    {fd : ℕ} (hfd : fd = 0 ∨ fd = 1) :
    openFile w path name mode (close (standard s) fd) =
      if w.opens path then some (standard (s.redirect fd (.file name mode path))) else none := by
  have halloc : fileDescriptorAllocate (close (standard s) fd) (.file name mode path) =
      some (fd, Function.update (close (standard s) fd) fd (some (.file name mode path))) := by
    apply fileDescriptorAllocate_eq
    · simp only [NOFILE]
      omega
    · simp [close]
    · intro i hi
      rw [close, Function.update_of_ne (by omega), show i = 0 by omega]
      simp [standard]
  rw [openFile, halloc, Option.map_some, close, Function.update_idem, update_standard hfd]

/-- The table in which a pipe has its ends. -/
def piped (s : Streams) (path : Path) : Table :=
  Function.update (Function.update (standard s) 3 (some (.pipeRead path))) 4
    (some (.pipeWrite path))

theorem pipe_standard (w : World) (path : Path) (s : Streams) :
    pipe w path (standard s) = if w.pipes path then some (3, 4, piped s path) else none := by
  have hfirst : fileDescriptorAllocate (standard s) (.pipeRead path) =
      some (3, Function.update (standard s) 3 (some (.pipeRead path))) := by
    apply fileDescriptorAllocate_eq
    · decide
    · rfl
    · intro i hi
      interval_cases i <;> simp [standard]
  have hsecond : fileDescriptorAllocate
      (Function.update (standard s) 3 (some (.pipeRead path))) (.pipeWrite path) =
      some (4, piped s path) := by
    apply fileDescriptorAllocate_eq
    · decide
    · simp [standard]
    · intro i hi
      interval_cases i <;> simp [standard]
  simp only [pipe, hfirst, bind, Option.bind, hsecond]
  rfl

theorem dup_close {t : Table} {fd₀ fd : ℕ} {file : Stream} (hne : fd ≠ fd₀)
    (hfd : fd₀ < NOFILE) (hfile : t fd = some file) (hlow : ∀ i < fd₀, t i ≠ none) :
    dup (close t fd₀) fd = Function.update t fd₀ (some file) := by
  have hget : close t fd₀ fd = some file := by rw [close, Function.update_of_ne hne, hfile]
  have halloc : fileDescriptorAllocate (close t fd₀) file =
      some (fd₀, Function.update (close t fd₀) fd₀ (some file)) := by
    apply fileDescriptorAllocate_eq file hfd
    · simp [close]
    · intro i hi
      rw [close, Function.update_of_ne (by omega)]
      exact hlow i hi
  simp only [dup, hget, halloc, Option.map_some, Option.getD_some]
  rw [close, Function.update_idem]

theorem close_piped (s : Streams) (path : Path) :
    close (close (piped s path) 3) 4 = standard s := by
  funext i
  rcases i with _ | _ | _ | _ | _ | i <;> simp [close, piped, standard]

/-- The table of the left command of a pipe. -/
theorem left_table (s : Streams) (path : Path) :
    close (close (dup (close (piped s path) 1) 4) 3) 4 =
      standard { s with output := .pipeWrite path } := by
  have hdup : dup (close (piped s path) 1) 4 =
      Function.update (piped s path) 1 (some (.pipeWrite path)) := by
    apply dup_close (by decide) (by decide)
    · simp [piped]
    · intro i hi
      rw [show i = 0 by omega]
      simp [piped, standard]
  rw [hdup]
  funext i
  rcases i with _ | _ | _ | _ | _ | i <;> simp [close, piped, standard]

/-- The table of the right command of a pipe. -/
theorem right_table (s : Streams) (path : Path) :
    close (close (dup (close (piped s path) 0) 3) 3) 4 =
      standard { s with input := .pipeRead path } := by
  have hdup : dup (close (piped s path) 0) 3 =
      Function.update (piped s path) 0 (some (.pipeRead path)) := by
    apply dup_close (by decide) (by decide)
    · simp [piped]
    · intro i hi
      omega
  rw [hdup]
  funext i
  rcases i with _ | _ | _ | _ | _ | i <;> simp [close, piped, standard]

/-! ## The commands that are run -/

/-- The redirections are of the input and the output. -/
def Cmd.Redirects : Cmd Text → Prop
  | .exec _ => True
  | .redir cmd _ _ fd => (fd = 0 ∨ fd = 1) ∧ cmd.Redirects
  | .pipe left right => left.Redirects ∧ right.Redirects
  | .list left right => left.Redirects ∧ right.Redirects
  | .back cmd => cmd.Redirects

theorem Cmd.WellFormed.redirects {c : Cmd Text} (h : c.WellFormed) : c.Redirects := by
  induction c with
  | exec argv => exact trivial
  | redir cmd file mode fd ih =>
    obtain ⟨hcmd, -, x, hx, heq⟩ := h
    refine ⟨?_, ih hcmd⟩
    rcases hx with hx | hx | hx
    all_goals
      rw [hx] at heq
      cases heq
      decide
  | pipe left right ihl ihr | list left right ihl ihr => exact ⟨ihl h.1, ihr h.2⟩
  | back cmd ih => exact ih h

theorem runcmd_standard (w : World) {c : Cmd Text} (hc : c.Redirects) (path : Path)
    (s : Streams) : runcmd w c path (standard s) = (c.denote w path s).map (Moment.map standard) := by
  induction c generalizing path s with
  | exec argv =>
    simp only [runcmd, Cmd.denote]
    split <;> rfl
  | redir cmd file mode fd ih =>
    simp only [runcmd, Cmd.denote, openFile_standard w path file mode s hc.1]
    by_cases hopen : w.opens path
    · simp only [hopen, if_true]
      exact ih hc.2 _ _
    · simp only [hopen]
      rfl
  | list left right ihl ihr =>
    simp only [runcmd, Cmd.denote]
    split
    · rw [ihl hc.1, ihr hc.2, List.map_append, List.map_cons]
      rfl
    · rfl
  | pipe left right ihl ihr =>
    simp only [runcmd, Cmd.denote, pipe_standard]
    by_cases hpipe : w.pipes path
    · by_cases hfork : w.forks path
      · by_cases hagain : w.forksAgain path
        · simp only [hpipe, hfork, hagain, if_true, Bool.and_self, left_table, right_table,
            close_piped, ihl hc.1, ihr hc.2, List.map_append]
          rfl
        · simp only [hpipe, hfork, hagain, if_true, Bool.and_self, left_table, ihl hc.1,
            List.map_append]
          rfl
      · simp only [hpipe, hfork, if_true, Bool.and_false]
        rfl
    · simp only [hpipe, Bool.false_and]
      rfl
  | back cmd ih =>
    simp only [runcmd, Cmd.denote]
    split
    · exact ih hc _ _
    · rfl

/-! ## The shell opens the console -/

theorem standard_eq {t : Table} {a b c : Stream} (h₀ : t 0 = some a) (h₁ : t 1 = some b)
    (h₂ : t 2 = some c) (hhigh : ∀ i ≥ 3, t i = none) : t = standard ⟨a, b, c⟩ := by
  funext i
  rcases i with _ | _ | _ | i
  · exact h₀
  · exact h₁
  · exact h₂
  · exact hhigh (i + 3) (by omega)

/-- Descriptors below 3 that are not open become the console, and no others are left. -/
theorem openConsole_eq (console : Stream) {n k : ℕ} {t : Table} (hn : 4 ≤ n + k)
    (hlow : ∀ i < k, t i ≠ none) (hhigh : ∀ i ≥ 3, t i = none) :
    openConsole console n t =
      standard ⟨(t 0).getD console, (t 1).getD console, (t 2).getD console⟩ := by
  have hk : k ≤ 3 := by
    by_contra hgt
    exact hlow 3 (by omega) (hhigh 3 le_rfl)
  induction n generalizing k t with
  | zero => omega
  | succ n ih =>
    have hfree : ∃ i, t i = none := ⟨3, hhigh 3 le_rfl⟩
    have hspec := Nat.find_spec hfree
    have hmin : ∀ i < Nat.find hfree, t i ≠ none := fun i hi => Nat.find_min hfree hi
    have hle : Nat.find hfree ≤ 3 := Nat.find_min' hfree (hhigh 3 le_rfl)
    have hge : k ≤ Nat.find hfree := by
      by_contra hlt
      exact hlow _ (by omega) hspec
    generalize Nat.find hfree = fd at hspec hmin hle hge
    have halloc := fileDescriptorAllocate_eq console (by simp only [NOFILE]; omega) hspec hmin
    simp only [openConsole, halloc]
    split
    next hthree =>
      obtain rfl : fd = 3 := by omega
      have hclose : close (Function.update t 3 (some console)) 3 = t := by
        rw [close, Function.update_idem, ← hspec, Function.update_eq_self]
      rw [hclose]
      have hget (i : ℕ) (hi : i < 3) : t i = some ((t i).getD console) := by
        obtain ⟨a, ha⟩ := Option.ne_none_iff_exists'.mp (hmin i hi)
        rw [ha, Option.getD_some]
      exact standard_eq (hget 0 (by omega)) (hget 1 (by omega)) (hget 2 (by omega)) hhigh
    next hthree =>
      have hrest := ih (k := fd + 1) (t := Function.update t fd (some console)) (by omega)
        (by
          intro i hi
          by_cases heq : i = fd
          · simp [heq]
          · rw [Function.update_of_ne heq]
            exact hmin i (by omega))
        (by
          intro i hi
          rw [Function.update_of_ne (by omega)]
          exact hhigh i hi)
        (by omega)
      have hget (i : ℕ) : (Function.update t fd (some console) i).getD console =
          (t i).getD console := by
        by_cases heq : i = fd
        · rw [heq, Function.update_self, hspec]
          rfl
        · rw [Function.update_of_ne heq]
      rw [hrest, hget, hget, hget]

/-! ## The ends of a pipe -/

/-- What a process on this way from the command line may hold: ends of pipes only as
input of their right and output of their left command. -/
structure Placed (s : Streams) (path : Path) : Prop where
  error : s.error = .given 2
  input : ∀ q, s.input = .pipeRead q → q ++ [.right] <+: path
  output : ∀ q, s.output = .pipeWrite q → q ++ [.left] <+: path
  input_ne : ∀ q, s.input ≠ .pipeWrite q
  output_ne : ∀ q, s.output ≠ .pipeRead q

/-- The streams of the shell itself. -/
def terminal : Streams := ⟨.given 0, .given 1, .given 2⟩

theorem placed_terminal : Placed terminal [] := by
  constructor <;> simp [terminal]

theorem Placed.extend {s : Streams} {path : Path} (h : Placed s path) (part : Part) :
    Placed s (path ++ [part]) where
  error := h.error
  input q hq := (h.input q hq).trans (List.prefix_append path [part])
  output q hq := (h.output q hq).trans (List.prefix_append path [part])
  input_ne := h.input_ne
  output_ne := h.output_ne

theorem Placed.redirect {s : Streams} {path : Path} (h : Placed s path) (fd : ℕ) (name : Text)
    (mode : ℕ) (made : Path) : Placed (s.redirect fd (.file name mode made)) path := by
  obtain ⟨herror, hinput, houtput, hinput_ne, houtput_ne⟩ := h
  simp only [Streams.redirect]
  split <;> constructor <;> simp_all

theorem Placed.left {s : Streams} {path : Path} (h : Placed s path) :
    Placed { s with output := .pipeWrite path } (path ++ [.left]) where
  error := h.error
  input := (h.extend .left).input
  output q hq := by
    cases hq
    exact List.prefix_rfl
  input_ne := h.input_ne
  output_ne q hq := by cases hq

theorem Placed.right {s : Streams} {path : Path} (h : Placed s path) :
    Placed { s with input := .pipeRead path } (path ++ [.right]) where
  error := h.error
  input q hq := by
    cases hq
    exact List.prefix_rfl
  output := (h.extend .right).output
  input_ne q hq := by cases hq
  output_ne := h.output_ne

theorem Placed.denote {w : World} {c : Cmd Text} {path : Path} {s : Streams} (h : Placed s path)
    {m : Moment Streams} (hm : m ∈ c.denote w path s) : Placed m.holds m.path := by
  induction c generalizing path s with
  | exec argv =>
    simp only [Cmd.denote] at hm
    split at hm
    · cases hm
    · rw [List.mem_singleton.mp hm]
      exact h
  | redir cmd file mode fd ih =>
    simp only [Cmd.denote] at hm
    split at hm
    · exact ih ((h.redirect fd file mode path).extend .inner) hm
    · cases hm
  | list left right ihl ihr =>
    simp only [Cmd.denote] at hm
    split at hm
    · rcases List.mem_append.mp hm with hm | hm
      · exact ihl (h.extend .left) hm
      · rcases List.mem_cons.mp hm with hm | hm
        · rw [hm]
          exact h
        · exact ihr (h.extend .right) hm
    · cases hm
  | pipe left right ihl ihr =>
    simp only [Cmd.denote] at hm
    split at hm
    · rcases List.mem_append.mp hm with hm | hm
      · exact ihl h.left hm
      · split at hm
        · rcases List.mem_append.mp hm with hm | hm
          · exact ihr h.right hm
          · simp only [List.mem_cons, List.not_mem_nil, or_false, or_self] at hm
            rw [hm]
            exact h
        · cases hm
    · cases hm
  | back cmd ih =>
    simp only [Cmd.denote] at hm
    split at hm
    · exact ih (h.extend .inner) hm
    · cases hm

/-- Whatever the line is and whatever calls fail: each process that the line makes runs its
program, or waits, with its input, its output and the error output open and nothing
else, as redirections and pipes say, and an end of a pipe is held by none but the
processes of the command on that side of the pipe. -/
theorem runcmd_line (w : World) {buf : Text} {l : Line} (h : parsecmd buf = .ok l) :
    runcmd w l.read [] (standard terminal) =
        (l.read.denote w [] terminal).map (Moment.map standard) ∧
      ∀ m ∈ l.read.denote w [] terminal, Placed m.holds m.path := by
  have hwf := (print_parsecmd l.read []).1.mpr ⟨buf, l, h, rfl⟩
  exact ⟨runcmd_standard w hwf.redirects [] terminal, fun m hm => placed_terminal.denote hm⟩

def everything : World := ⟨fun _ => true, fun _ => true, fun _ => true, fun _ => true⟩

/-- Of `ls|wc`, the program `wc` reads from the pipe. -/
theorem runcmd_line_wc : ∃ l, parsecmd (['l', 's', '|', 'w', 'c'].map Char.toUInt8 ++ [0]) = .ok l ∧
    ∃ m ∈ runcmd everything l.read [] (standard terminal),
      m.action = .exec [['w', 'c'].map Char.toUInt8] ∧
      m.holds = standard ⟨.pipeRead [], .given 1, .given 2⟩ := by
  have hparse : parsecmd (['l', 's', '|', 'w', 'c'].map Char.toUInt8 ++ [0]) =
      .ok ⟨.pipe (.exec [⟨0, 2⟩]) (.exec [⟨3, 5⟩]),
        ['l', 's'].map Char.toUInt8 ++ 0 :: ['w', 'c'].map Char.toUInt8 ++ [0]⟩ := by
    decide +kernel
  obtain ⟨hrun, -⟩ := runcmd_line everything hparse
  refine ⟨_, hparse, ?_⟩
  rw [hrun]
  refine ⟨_, List.mem_map_of_mem (a := ⟨[.right], .exec [['w', 'c'].map Char.toUInt8],
    ⟨.pipeRead [], .given 1, .given 2⟩⟩) ?_, rfl, rfl⟩
  have hread : Line.read ⟨.pipe (.exec [⟨0, 2⟩]) (.exec [⟨3, 5⟩]),
        ['l', 's'].map Char.toUInt8 ++ 0 :: ['w', 'c'].map Char.toUInt8 ++ [0]⟩ =
      .pipe (.exec [['l', 's'].map Char.toUInt8]) (.exec [['w', 'c'].map Char.toUInt8]) := by
    decide +kernel
  rw [hread]
  simp [Cmd.denote, everything, terminal]

end Zigmaos.Shell
