import Zigmaos.ShellLexer

/-!
# The parser of the shell

`parsecmd` and the functions it calls, by recursive descent. What is parsed are
positions of the line; `nulterminate` then ends each word in place, so that a
position can be read as a string. Each call and each turn of a loop takes fuel.
-/
namespace Zigmaos.Shell

def maxArgs : ℕ := 10

def O_RDONLY : ℕ := 0x000
def O_WRONLY : ℕ := 0x001
def O_CREATE : ℕ := 0x200
def O_TRUNC : ℕ := 0x400

/-- A command over the strings `α`: positions while the line is parsed, and what
they point to when it is run. -/
inductive Cmd (α : Type)
  | exec (argv : List α)
  | redir (cmd : Cmd α) (file : α) (mode : ℕ) (fd : ℕ)
  | pipe (left right : Cmd α)
  | list (left right : Cmd α)
  | back (cmd : Cmd α)
deriving DecidableEq, Repr

namespace Cmd
variable {α β : Type}

/-- The assignment to `argv[argc]`, through the pointer to the command that the
redirections are put around. -/
def push (a : α) : Cmd α → Cmd α
  | exec argv => exec (argv ++ [a])
  | redir cmd file mode fd => redir (cmd.push a) file mode fd
  | cmd => cmd

def map (f : α → β) : Cmd α → Cmd β
  | exec argv => exec (argv.map f)
  | redir cmd file mode fd => redir (cmd.map f) (f file) mode fd
  | pipe left right => pipe (left.map f) (right.map f)
  | list left right => list (left.map f) (right.map f)
  | back cmd => back (cmd.map f)

def strings : Cmd α → List α
  | exec argv => argv
  | redir cmd file _ _ => cmd.strings ++ [file]
  | pipe left right => left.strings ++ right.strings
  | list left right => left.strings ++ right.strings
  | back cmd => cmd.strings

/-- The redirection that `parseredirs` makes of an operator. -/
def redirect (tok : UInt8) (file : α) (cmd : Cmd α) : Cmd α :=
  if tok = '<'.toUInt8 then redir cmd file O_RDONLY 0
  else if tok = '>'.toUInt8 then redir cmd file (O_WRONLY ||| O_CREATE ||| O_TRUNC) 1
  else if tok = '+'.toUInt8 then redir cmd file (O_WRONLY ||| O_CREATE) 1
  else cmd

end Cmd

inductive Error
  | missingFile
  | parseblock
  | missingParenthesis
  | tooManyArgs
  | badSyntax
  | leftovers
  | outOfFuel
deriving DecidableEq, Repr

structure Parsed where
  cmd : Cmd Token
  next : ℕ
deriving DecidableEq, Repr

def parseredirs (line : Text) : ℕ → Cmd Token → ℕ → Except Error Parsed
  | 0, _, _ => .error .outOfFuel
  | fuel + 1, cmd, ps =>
    let p := peek line ps ['<'.toUInt8, '>'.toUInt8]
    if p.found then
      let op := gettoken line p.next
      let file := gettoken line op.next
      if file.tok ≠ 'a'.toUInt8 then .error .missingFile
      else parseredirs line fuel (cmd.redirect op.tok file.token) file.next
    else .ok ⟨cmd, p.next⟩

/-- The loop of `parseexec`, `argc` arguments on. -/
def parseargs (line : Text) : ℕ → ℕ → Cmd Token → ℕ → Except Error Parsed
  | 0, _, _, _ => .error .outOfFuel
  | fuel + 1, argc, cmd, ps =>
    let p := peek line ps ['|'.toUInt8, ')'.toUInt8, '&'.toUInt8, ';'.toUInt8]
    if p.found then .ok ⟨cmd, p.next⟩
    else
      let word := gettoken line p.next
      if word.tok = 0 then .ok ⟨cmd, word.next⟩
      else if word.tok ≠ 'a'.toUInt8 then .error .badSyntax
      else if argc + 1 ≥ maxArgs then .error .tooManyArgs
      else do
        let r ← parseredirs line fuel (cmd.push word.token) word.next
        parseargs line fuel (argc + 1) r.cmd r.next

/-- The loop of `parseline` over `&`. -/
def parseback (line : Text) : ℕ → Cmd Token → ℕ → Except Error Parsed
  | 0, _, _ => .error .outOfFuel
  | fuel + 1, cmd, ps =>
    let p := peek line ps ['&'.toUInt8]
    if p.found then parseback line fuel (.back cmd) (gettoken line p.next).next
    else .ok ⟨cmd, p.next⟩

mutual

def parseline (line : Text) : ℕ → ℕ → Except Error Parsed
  | 0, _ => .error .outOfFuel
  | fuel + 1, ps => do
    let first ← parsepipe line fuel ps
    let r ← parseback line fuel first.cmd first.next
    let p := peek line r.next [';'.toUInt8]
    if p.found then
      let right ← parseline line fuel (gettoken line p.next).next
      .ok ⟨.list r.cmd right.cmd, right.next⟩
    else .ok ⟨r.cmd, p.next⟩

def parsepipe (line : Text) : ℕ → ℕ → Except Error Parsed
  | 0, _ => .error .outOfFuel
  | fuel + 1, ps => do
    let r ← parseexec line fuel ps
    let p := peek line r.next ['|'.toUInt8]
    if p.found then
      let right ← parsepipe line fuel (gettoken line p.next).next
      .ok ⟨.pipe r.cmd right.cmd, right.next⟩
    else .ok ⟨r.cmd, p.next⟩

def parseexec (line : Text) : ℕ → ℕ → Except Error Parsed
  | 0, _ => .error .outOfFuel
  | fuel + 1, ps =>
    let p := peek line ps ['('.toUInt8]
    if p.found then parseblock line fuel p.next
    else do
      let r ← parseredirs line fuel (.exec []) p.next
      parseargs line fuel 0 r.cmd r.next

def parseblock (line : Text) : ℕ → ℕ → Except Error Parsed
  | 0, _ => .error .outOfFuel
  | fuel + 1, ps =>
    let p := peek line ps ['('.toUInt8]
    if !p.found then .error .parseblock
    else do
      let r ← parseline line fuel (gettoken line p.next).next
      let q := peek line r.next [')'.toUInt8]
      if !q.found then .error .missingParenthesis
      else parseredirs line fuel r.cmd (gettoken line q.next).next

end

/-- The stores of NUL over the byte after each word. -/
def nulterminate : Cmd Token → Text → Text
  | .exec argv, buf => argv.foldl (fun buf t => buf.set t.stop 0) buf
  | .redir cmd file _ _, buf => (nulterminate cmd buf).set file.stop 0
  | .pipe left right, buf => nulterminate right (nulterminate left buf)
  | .list left right, buf => nulterminate right (nulterminate left buf)
  | .back cmd, buf => nulterminate cmd buf

/-- The string that begins at a position of the memory. -/
def cstring (buf : Text) (s : ℕ) : Text := (buf.drop s).takeWhile (· ≠ 0)

/-- The command as `runcmd` gets it: pointers into `buf`. -/
structure Line where
  cmd : Cmd Token
  buf : Text
deriving DecidableEq, Repr

def Line.read (l : Line) : Cmd Text := l.cmd.map fun t => cstring l.buf t.start

def parsecmd (buf : Text) : Except Error Line := do
  let line := cstring buf 0
  let r ← parseline line (4 * line.length + 4) 0
  let p := peek line r.next []
  if p.next ≠ line.length then .error .leftovers
  else .ok ⟨r.cmd, nulterminate r.cmd buf⟩

end Zigmaos.Shell
