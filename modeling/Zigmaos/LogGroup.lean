import Mathlib.Data.Finset.Card
import Zigmaos.Log
import Zigmaos.Transition

/-!
# Group commit

`beginOperation`, `endOperation`, `commit` and `write` of `log.zig`, run by any
number of processes. A step is one lock-protected section, or one stage of
`commit`, which runs without the lock. An `Account` keeps what a run logged: it
is computed from the events alone and never read by the code.
-/
namespace Zigmaos.LogGroup
open Transition

/-- The stage of `commit` that comes next; `finish` is the section of
`endOperation` after it. -/
inductive Stage
  | check | writeLog | writeHead | install | clear | finish
  deriving DecidableEq, Repr

/-- Where a process stands: outside an operation, at the head of the loop of
`beginOperation`, asleep on `&log` in it, between `beginOperation` and
`endOperation`, or in `commit`. -/
inductive Phase
  | outside | waiting | sleeping | inside
  | commiting (stage : Stage)
  deriving DecidableEq, Repr

inductive Panic
  | logCommiting | tooBigTransaction | outsideOfTrans
  deriving DecidableEq, Repr

/-- The fields of `log.zig`'s `Log`, the phase of every process and the panic
that stopped the kernel, if one did. -/
structure State (π : Type*) where
  size : ℕ
  header : Log.Header
  outstanding : ℕ
  isCommiting : Bool
  phase : π → Phase
  panicked : Option Panic

inductive Action
  | call
  | tryBegin
  | wake
  | write (number : ℕ)
  | endOperation
  | commit (stage : Stage)
  deriving DecidableEq, Repr

abbrev Event (π : Type*) := π × Action

section Code
variable {π : Type*}

/-- `wakeup(&log)`. -/
def State.wakeup (s : State π) : State π :=
  { s with phase := fun q => if s.phase q = .sleeping then .waiting else s.phase q }

def State.panic (s : State π) (reason : Panic) : State π := { s with panicked := some reason }

/-- The blocks the in-memory header lists. -/
def State.logged (s : State π) : List ℕ := (List.range s.header.length).map s.header.block

/-- The absorption loop of `write`: the index of `number` among the entries from
`length - left` on, or `length`. -/
def findEntry (h : Log.Header) (number : ℕ) : ℕ → ℕ
  | 0 => h.length
  | left + 1 =>
    if h.block (h.length - (left + 1)) = number then h.length - (left + 1)
    else findEntry h number left

/-- `log.write`; `log.size - 1` is 32 bits wide. -/
def write (s : State π) (number : ℕ) : State π :=
  if s.header.length ≥ logSize ∨ s.header.length ≥ sub32 s.size 1 then
    s.panic .tooBigTransaction
  else if s.outstanding < 1 then s.panic .outsideOfTrans
  else
    let index := findEntry s.header number s.header.length
    let block := Function.update s.header.block index number
    if index = s.header.length then { s with header := ⟨s.header.length + 1, block⟩ }
    else { s with header := ⟨s.header.length, block⟩ }

/-- The log as `init` leaves it, on an image whose superblock has `nlog = size`. -/
def initial (size : ℕ) : State π where
  size := size
  header := ⟨0, fun _ => 0⟩
  outstanding := 0
  isCommiting := false
  phase := fun _ => .outside
  panicked := none

variable [DecidableEq π]

def State.setPhase (s : State π) (p : π) (f : Phase) : State π :=
  { s with phase := Function.update s.phase p f }

/-- One pass through the loop of `beginOperation`. -/
def beginOperation (s : State π) (p : π) : State π :=
  let possibleLogSize :=
    add32 s.header.length (add32 s.outstanding 1 * maxNumOperationBlocks % 2 ^ 32)
  if s.isCommiting ∨ possibleLogSize > logSize then s.setPhase p .sleeping
  else ({ s with outstanding := add32 s.outstanding 1 }).setPhase p .inside

/-- The first section of `endOperation`; `outstanding -= 1` is 32 bits wide. -/
def endOperation (s : State π) (p : π) : State π :=
  let s := { s with outstanding := sub32 s.outstanding 1 }
  if s.isCommiting then s.panic .logCommiting
  else if s.outstanding = 0 then ({ s with isCommiting := true }).setPhase p (.commiting .check)
  else s.wakeup.setPhase p .outside

/-- One stage of `commit`, and the section of `endOperation` after it. -/
def commitStage (s : State π) (p : π) : Stage → State π
  | .check =>
    if s.header.length > 0 then s.setPhase p (.commiting .writeLog)
    else s.setPhase p (.commiting .finish)
  | .writeLog => s.setPhase p (.commiting .writeHead)
  | .writeHead => s.setPhase p (.commiting .install)
  | .install => s.setPhase p (.commiting .clear)
  | .clear => ({ s with header := { s.header with length := 0 } }).setPhase p (.commiting .finish)
  | .finish => ({ s with isCommiting := false }).wakeup.setPhase p .outside

/-- A step of process `p`. `wake` is a sleeper made runnable from outside the
log, as `kill` does. -/
def step (s : State π) (e : Event π) : Option (State π) :=
  if s.panicked.isSome then none
  else match e.2, s.phase e.1 with
    | .call, .outside => some (s.setPhase e.1 .waiting)
    | .tryBegin, .waiting => some (beginOperation s e.1)
    | .wake, .sleeping => some (s.setPhase e.1 .waiting)
    | .write number, .inside => some (write s number)
    | .endOperation, .inside => some (endOperation s e.1)
    | .commit stage, .commiting stage' =>
      if stage = stage' then some (commitStage s e.1 stage) else none
    | _, _ => none

end Code

/-- What the calls of a run logged: the blocks of each running operation, those of
the operations that ended since the previous commit, and all of them together. -/
structure Account (π : Type*) where
  current : π → List ℕ
  finished : List (List ℕ)
  all : List ℕ

section Account
variable {π : Type*} [DecidableEq π]

def Account.record (a : Account π) (e : Event π) : Account π :=
  match e.2 with
  | .write number =>
    { a with
      current := Function.update a.current e.1 (number :: a.current e.1)
      all := number :: a.all }
  | .endOperation =>
    { a with
      current := Function.update a.current e.1 []
      finished := a.current e.1 :: a.finished }
  | .commit .finish => { a with finished := [], all := [] }
  | _ => a

def account (es : List (Event π)) : Account π :=
  es.foldl Account.record ⟨fun _ => [], [], []⟩

theorem account_concat (es : List (Event π)) (e : Event π) :
    account (es ++ [e]) = (account es).record e := by
  simp [account, List.foldl_append]

end Account

end Zigmaos.LogGroup
