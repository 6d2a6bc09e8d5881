import Zigmaos.Transition
import Zigmaos.UserMemory

/-!
# The memory of processes

What creating a process, `fork`, `changeProcessSize`, `exec` and the freeing of a
reaped process do to page tables and to the free list. The processes own no ring
buffer. `exec` goes on in steps, between which other processes run: it gathers
its arguments, makes a table, adds the segments of the program and the stack,
and commits; it may fail after each step. The slot that `alloc` finds is given.
-/
namespace Zigmaos.ProcessMemory
open Memory

abbrev nProc : ℕ := 64
abbrev Slot := Fin nProc
def maxArg : ℕ := 32

inductive ProcessState
  | unused | runnable | zombie
  deriving DecidableEq

/-- The variables of a call of `exec`. -/
structure Exec where
  buffers : List Page
  pageTable : Option PageTable
  programSize : ℕ
  /-- The stack is allocated. -/
  ready : Bool

def Exec.start : Exec := ⟨[], none, 0, false⟩

/-- `trapFrame` and `pageTable` are there where they are allocated. -/
structure Process where
  state : ProcessState
  trapFrame : Option Page
  pageTable : Option PageTable
  size : ℕ
  exec : Option Exec

def Process.unused : Process := ⟨.unused, none, none, 0, none⟩

inductive Panic
  | memory (p : Memory.Panic)
  | couldNotAllocateMemory
  | couldNotMapFirstProcess
  | noPageTable
  deriving DecidableEq

/-- A process and the free list, or a panic. -/
abbrev Result := Except Panic (Process × Allocator)

def liftPanic {α : Type} (x : Except Memory.Panic α) : Except Panic α := x.mapError .memory

namespace Process

def free (p : Process) (a : Allocator) : Result := do
  let a := p.trapFrame.elim a a.freePage
  let a ← match p.pageTable with
    | none => pure a
    | some t => liftPanic (t.freePageTable a p.size)
  return (.unused, a)

/-- `init`, with whether it succeeds. -/
def init (p : Process) (trampoline : Page) (a : Allocator) :
    Except Panic (Bool × Process × Allocator) :=
  match a.allocPage with
  | (none, a) => do
    let (p, a) ← p.free a
    return (false, p, a)
  | (some page, a) => do
    let p := { p with state := .runnable, trapFrame := some page }
    match ← liftPanic (createPagetable trampoline page a) with
    | (none, a) =>
      let (p, a) ← p.free a
      return (false, p, a)
    | (some t, a) => return (true, { p with pageTable := some t }, a)

/-- `initFirstUser`. One page is mapped for the code. -/
def initFirstUser (p : Process) (trampoline : Page) (a : Allocator) : Result := do
  match ← p.init trampoline a with
  | (false, p, a) => return (p, a)
  | (true, p, a) =>
    match p.pageTable, a.allocPage with
    | none, _ => .error .noPageTable
    | some _, (none, _) => .error .couldNotAllocateMemory
    | some t, (some page, a) =>
      match t.map a 0 page ⟨true, true, true⟩ true with
      | (.ok, t, a) => return ({ p with pageTable := some t, size := pageSize }, a)
      | _ => .error .couldNotMapFirstProcess

/-- `fork`, for the child. -/
def fork (parent child : Process) (trampoline : Page) (a : Allocator) : Result := do
  match ← child.init trampoline a with
  | (false, child, a) => return (child, a)
  | (true, child, a) =>
    match parent.pageTable, child.pageTable with
    | some parentTable, some t =>
      match ← liftPanic (PageTable.copyPageTable parentTable t a parent.size) with
      | (true, t, a) => return ({ child with pageTable := some t, size := parent.size }, a)
      | (false, t, a) => ({ child with pageTable := some t } : Process).free a
    | _, _ => .error .noPageTable

/-- Subtraction of `usize` numbers, which wraps. -/
def sub64 (x y : ℕ) : ℕ := if y ≤ x then x - y else x + 2 ^ 64 - y

def changeProcessSize (p : Process) (sizeDiff : ℤ) (a : Allocator) : Result :=
  match p.pageTable with
  | none => .error .noPageTable
  | some t =>
    let absSizeDiff := sizeDiff.natAbs
    let trapframeVa := trapframePage * pageSize
    if 0 < sizeDiff then
      if trapframeVa ≤ p.size ∨ trapframeVa - p.size < absSizeDiff then .ok (p, a)
      else do
        let (r, t, a) ← liftPanic (t.alloc a p.size (p.size + absSizeDiff) .data)
        return ({ p with pageTable := some t, size := r.getD p.size }, a)
    else if sizeDiff < 0 then do
      let (size, t, a) ← liftPanic (t.dealloc a p.size (sub64 p.size absSizeDiff))
      return ({ p with pageTable := some t, size := size }, a)
    else .ok (p, a)

/-- What every way out of `exec` does to the argument buffers. -/
def endExec (p : Process) (e : Exec) (a : Allocator) : Process × Allocator :=
  ({ p with exec := none }, a.freePages e.buffers)

/-- The errors of `exec`, which free the new table. -/
def failExec (p : Process) (e : Exec) (a : Allocator) : Result :=
  match e.pageTable with
  | none => .ok (p.endExec e a)
  | some t => do
    let a ← liftPanic (t.freePageTable a e.programSize)
    return p.endExec e a

/-- One more argument. -/
def execArgument (p : Process) (e : Exec) (a : Allocator) : Result :=
  match a.allocPage with
  | (none, a) => p.failExec e a
  | (some page, a) => .ok ({ p with exec := some { e with buffers := e.buffers ++ [page] } }, a)

def execCreate (p : Process) (e : Exec) (trampoline : Page) (a : Allocator) : Result :=
  match p.trapFrame with
  | none => .error .noPageTable
  | some trapFrame => do
    match ← liftPanic (createPagetable trampoline trapFrame a) with
    | (none, a) => p.failExec e a
    | (some t, a) =>
      return ({ p with exec := some { e with pageTable := some t, programSize := 0 } }, a)

/-- A segment that ends at `newSize`. -/
def execSegment (p : Process) (e : Exec) (newSize : ℕ) (permissions : PagePermissions)
    (a : Allocator) : Result :=
  match e.pageTable with
  | none => .error .noPageTable
  | some t => do
    let (r, t, a) ← liftPanic (t.alloc a e.programSize newSize permissions)
    let e := { e with pageTable := some t, programSize := r.getD e.programSize }
    if r.isSome then return ({ p with exec := some e }, a)
    else p.failExec e a

/-- The two pages of the guard and the stack. -/
def execStack (p : Process) (e : Exec) (a : Allocator) : Result :=
  match e.pageTable with
  | none => .error .noPageTable
  | some t => do
    let aligned := pageCount e.programSize * pageSize
    let (r, t, a) ← liftPanic (t.alloc a aligned (aligned + 2 * pageSize) .data)
    match r with
    | none => p.failExec ({ e with pageTable := some t }) a
    | some programSize =>
      let t ← liftPanic (t.clearUser (programSize / pageSize - 2))
      let e := { e with pageTable := some t, programSize := programSize, ready := true }
      return ({ p with exec := some e }, a)

/-- The commit to the user image. -/
def execCommit (p : Process) (e : Exec) (a : Allocator) : Result :=
  match p.pageTable, e.pageTable with
  | some oldTable, some t => do
    let oldSize := p.size
    let p := { p with pageTable := some t, size := e.programSize }
    let a ← liftPanic (oldTable.freePageTable a oldSize)
    return p.endExec e a
  | _, _ => .error .noPageTable

end Process

structure State where
  allocator : Allocator
  /-- The physical page of the trampoline. -/
  trampoline : Page
  processes : Slot → Process

inductive Event
  | initFirstUser (i : Slot)
  | fork (parent child : Slot)
  | changeProcessSize (i : Slot) (sizeDiff : ℤ)
  | execStart (i : Slot)
  | execArgument (i : Slot)
  | execCreate (i : Slot)
  | execSegment (i : Slot) (newSize : ℕ) (permissions : PagePermissions)
  | execStack (i : Slot)
  | execCommit (i : Slot)
  | execFail (i : Slot)
  | exit (i : Slot)
  /-- `wait` frees a zombie. -/
  | reap (i : Slot)

/-- Why there is no next state. -/
inductive Fault
  | disabled
  | panic (p : Panic)
  deriving DecidableEq

namespace State

/-- The process in a slot and the free list change. -/
def apply (s : State) (i : Slot) (r : Result) : Except Fault State :=
  match r with
  | .error p => .error (.panic p)
  | .ok (p, a) =>
    .ok { s with allocator := a, processes := Function.update s.processes i p }

/-- A process that runs, outside of `exec`. -/
def Running (s : State) (i : Slot) : Prop :=
  (s.processes i).state = .runnable ∧ (s.processes i).exec.isNone

instance (s : State) (i : Slot) : Decidable (s.Running i) := inferInstanceAs (Decidable (_ ∧ _))

end State

open State in
def step (s : State) (event : Event) : Except Fault State :=
  match event with
  | .initFirstUser i =>
    if (s.processes i).state = .unused then
      s.apply i ((s.processes i).initFirstUser s.trampoline s.allocator)
    else .error .disabled
  | .fork parent child =>
    if s.Running parent ∧ (s.processes child).state = .unused then
      s.apply child ((s.processes parent).fork (s.processes child) s.trampoline s.allocator)
    else .error .disabled
  | .changeProcessSize i sizeDiff =>
    if s.Running i then s.apply i ((s.processes i).changeProcessSize sizeDiff s.allocator)
    else .error .disabled
  | .execStart i =>
    if s.Running i then s.apply i (.ok ({ s.processes i with exec := some .start }, s.allocator))
    else .error .disabled
  | .execArgument i =>
    match (s.processes i).exec with
    | some e =>
      if e.pageTable.isNone ∧ e.buffers.length < maxArg then
        s.apply i ((s.processes i).execArgument e s.allocator)
      else .error .disabled
    | none => .error .disabled
  | .execCreate i =>
    match (s.processes i).exec with
    | some e =>
      if e.pageTable.isNone then
        s.apply i ((s.processes i).execCreate e s.trampoline s.allocator)
      else .error .disabled
    | none => .error .disabled
  | .execSegment i newSize permissions =>
    match (s.processes i).exec with
    | some e =>
      -- A segment has a permission: its pages are told from page tables by it.
      if e.pageTable.isSome ∧ e.ready = false ∧ permissions ≠ .none then
        s.apply i ((s.processes i).execSegment e newSize permissions s.allocator)
      else .error .disabled
    | none => .error .disabled
  | .execStack i =>
    match (s.processes i).exec with
    | some e =>
      if e.pageTable.isSome ∧ e.ready = false then
        s.apply i ((s.processes i).execStack e s.allocator)
      else .error .disabled
    | none => .error .disabled
  | .execCommit i =>
    match (s.processes i).exec with
    | some e =>
      if e.ready then s.apply i ((s.processes i).execCommit e s.allocator) else .error .disabled
    | none => .error .disabled
  | .execFail i =>
    match (s.processes i).exec with
    | some e => s.apply i ((s.processes i).failExec e s.allocator)
    | none => .error .disabled
  | .exit i =>
    if s.Running i then s.apply i (.ok ({ s.processes i with state := .zombie }, s.allocator))
    else .error .disabled
  | .reap i =>
    if (s.processes i).state = .zombie then s.apply i ((s.processes i).free s.allocator)
    else .error .disabled

/-! ## Who owns a page -/

namespace Process

/-- A table with the user pages that it maps. -/
def tablePages (t : Option PageTable) (size : ℕ) : Multiset Page :=
  t.elim 0 (fun t => t.pages + t.pagesFrom 0 (pageCount size))

def execPages (e : Option Exec) : Multiset Page :=
  e.elim 0 (fun e => (e.buffers : Multiset Page) + tablePages e.pageTable e.programSize)

/-- The trapframe, the table and its user pages, and those of an unfinished `exec`. -/
def pages (p : Process) : Multiset Page :=
  p.trapFrame.elim 0 (fun page => {page}) + tablePages p.pageTable p.size + execPages p.exec

end Process

end Zigmaos.ProcessMemory
