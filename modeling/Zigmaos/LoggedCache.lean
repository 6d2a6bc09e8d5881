import Zigmaos.BufferCacheInvariant
import Zigmaos.LogGroupInvariant
import Zigmaos.WriteBack

/-!
# The buffer cache under the log

The cache with the data of its buffers, the disk, and the log with its loops
step by step. A step is a stretch under the lock of the cache or of the log, a
store into a buffer, or a read or a write of the disk by whoever holds the lock
of the buffer; so the commit of one process runs between the steps of all others.
-/
namespace Zigmaos.LoggedCache
open FileSystem BufferCache

/-- Where a process stands in the loops of `writeLog` and `installTransaction`,
whose two buffers are the log block and the home block, and in `writeHead`. -/
inductive Job
  | idle
  | first (tail : ℕ)
  | second (tail : ℕ) (i : BufferIndex)
  | copy (tail : ℕ) (i j : BufferIndex)
  | writeLog (tail : ℕ) (i j : BufferIndex)
  | writeHome (tail : ℕ) (i j : BufferIndex)
  | unpin (tail : ℕ) (i j : BufferIndex)
  | releaseSecond (tail : ℕ) (i j : BufferIndex)
  | releaseFirst (tail : ℕ) (i : BufferIndex)
  | header
  | headerCopy (i : BufferIndex)
  | headerWrite (i : BufferIndex)
  | headerRelease (i : BufferIndex)
  | headerDone

/-- `Buffer.read` has returned a buffer. -/
def Job.got : Job → BufferIndex → Job
  | .first tail, i => .second tail i
  | .second tail i, j => .copy tail i j
  | .header, i => .headerCopy i
  | job, _ => job

structure State (π : Type) where
  cache : BufferCache.State π
  data : BufferIndex → Block
  disk : BufferCache.DiskBlock → Block
  log : LogGroup.State π
  start : ℕ
  device : DeviceId
  /-- The call of `Buffer.read` that a process is in, with the buffer `get_buffer` chose. -/
  reading : π → Option (BufferCache.DiskBlock × BufferIndex)
  job : π → Job
  /-- What was stored last into a block. -/
  contents : BufferCache.DiskBlock → Block
  /-- The buffers that are stored into, and then neither logged nor written. -/
  modified : BufferIndex → Bool
  /-- How many blocks of the header are in the log, and how many are installed. -/
  copied : ℕ
  installed : ℕ

inductive Event (π : Type)
  | read (p : π) (block : BufferCache.DiskBlock)
  | acquire (p : π)
  | returns (p : π)
  | store (p : π) (i : BufferIndex) (data : Block)
  | logWrite (p : π) (i : BufferIndex)
  | release (p : π) (i : BufferIndex)
  | drop (p : π)
  | log (p : π) (action : LogGroup.Action)
  | commit (p : π)

namespace State
variable {π : Type}

def block (s : State π) (i : BufferIndex) : BufferCache.DiskBlock := (s.cache.cache.bufferArray i).block

def isValid (s : State π) (i : BufferIndex) : Bool := (s.cache.cache.bufferArray i).isValid

def logBlock (s : State π) (tail : ℕ) : BufferCache.DiskBlock := ⟨s.start + tail + 1, s.device⟩

/-- Where the log is to install entry `tail`. -/
def homeBlock (s : State π) (tail : ℕ) : BufferCache.DiskBlock := ⟨s.log.header.block tail, s.device⟩

def headerBlock (s : State π) : BufferCache.DiskBlock := ⟨s.start, s.device⟩

/-- A block of the device of the log that is not one of the log's own. -/
def Loggable (s : State π) (b : BufferCache.DiskBlock) : Prop :=
  b.device = s.device ∧ (b.number < s.start ∨ s.start + s.log.size ≤ b.number)

instance (s : State π) (b : BufferCache.DiskBlock) : Decidable (s.Loggable b) :=
  inferInstanceAs (Decidable (_ ∧ _))

/-- In the body of `commit`, or before or after it in `endOperation`. -/
def isCommiting (s : State π) (p : π) : Bool :=
  match s.log.phase p with
  | .commiting _ => true
  | _ => false

/-- Not inside `Buffer.read` or `release`, and not in `commit`. -/
def Free (s : State π) (p : π) : Prop :=
  s.reading p = none ∧ s.cache.phase p = .running ∧ s.isCommiting p = false

instance (s : State π) (p : π) : Decidable (s.Free p) := inferInstanceAs (Decidable (_ ∧ _ ∧ _))

/-- The block that `commit` reads next. -/
def wanted (s : State π) (p : π) : Option BufferCache.DiskBlock :=
  match s.job p with
  | .first tail => if tail < s.log.header.length then some (s.logBlock tail) else none
  | .second tail _ => some (s.homeBlock tail)
  | .header => some s.headerBlock
  | _ => none

/-- Outside of `commit` a process reads what it wants to. -/
def mayRead (s : State π) (p : π) (b : BufferCache.DiskBlock) : Bool :=
  !s.isCommiting p || s.wanted p = some b

/-- `disk.read(buffer)`, and then `is_valid = true`. -/
def fill (s : State π) (i : BufferIndex) : State π :=
  { s with
    cache := { s.cache with
      cache := s.cache.cache.setBuffer i { s.cache.cache.bufferArray i with isValid := true } }
    data := Function.update s.data i (s.disk (s.block i)) }

/-- A store that changes the contents of the block. -/
def store (s : State π) (i : BufferIndex) (data : Block) : State π :=
  { s with
    data := Function.update s.data i data
    contents := Function.update s.contents (s.block i) data
    modified := Function.update s.modified i true }

/-- `Buffer.write` -/
def write (s : State π) (i : BufferIndex) : State π :=
  { s with
    disk := Function.update s.disk (s.block i) (s.data i)
    modified := Function.update s.modified i false }

variable [DecidableEq π]

def setJob (s : State π) (p : π) (job : Job) : State π :=
  { s with job := Function.update s.job p job }

def setReading (s : State π) (p : π) (r : Option (BufferCache.DiskBlock × BufferIndex)) : State π :=
  { s with reading := Function.update s.reading p r }

/-- A step of the cache. -/
def onCache (s : State π) (e : BufferCache.Event π) : Option (State π) :=
  (BufferCache.step s.cache e).map fun c => { s with cache := c }

/-- A step of the log; a panic ends the run. -/
def onLog (s : State π) (e : LogGroup.Event π) : Option (State π) :=
  (LogGroup.step s.log e).bind fun l =>
    if l.panicked.isSome then none else some { s with log := l }

/-- `Buffer.read` up to the choice of a buffer. -/
def read (s : State π) (p : π) (b : BufferCache.DiskBlock) : Option (State π) :=
  (s.onCache (.getBuffer p b)).bind fun s =>
    match s.cache.phase p with
    | .waiting i => some (s.setReading p (some (b, i)))
    | _ => none

/-- The end of `Buffer.read`, once the lock of the buffer is held. -/
def returns (s : State π) (p : π) : Option (State π) :=
  match s.reading p with
  | some (_, i) =>
    if s.cache.phase p = .running then
      let s' := if s.isValid i then s else s.fill i
      some ((s'.setReading p none).setJob p ((s.job p).got i))
    else none
  | none => none

/-- `log.write` -/
def logWrite (s : State π) (p : π) (i : BufferIndex) : Option (State π) :=
  (s.onLog (p, .write (s.block i).number)).bind fun s' =>
    let s' := { s' with modified := Function.update s'.modified i false }
    if s'.log.header.length = s.log.header.length then some s'
    else s'.onCache (.pin p i)

/-- The next step of `commit`, outside of `Buffer.read` and `release`. -/
def commit (s : State π) (p : π) : LogGroup.Stage → Job → Option (State π)
  | .check, _ => (s.onLog (p, .commit .check)).map fun s' =>
      s'.setJob p (if s'.log.phase p = .commiting .writeLog then .first 0 else .headerDone)
  | .writeLog, .first tail =>
    if tail < s.log.header.length then none
    else (s.onLog (p, .commit .writeLog)).map (fun s' => s'.setJob p .header)
  | .writeLog, .copy tail i j => some ((s.store i (s.data j)).setJob p (.writeLog tail i j))
  | .writeLog, .writeLog tail i j =>
    some ({ s.write i with copied := tail + 1 }.setJob p (.releaseSecond tail i j))
  | .install, .first tail =>
    if tail < s.log.header.length then none
    else (s.onLog (p, .commit .install)).map (fun s' => s'.setJob p .idle)
  | .install, .copy tail i j =>
    some ({ s with data := Function.update s.data j (s.data i) }.setJob p (.writeHome tail i j))
  | .install, .writeHome tail i j =>
    some ({ s.write j with installed := tail + 1 }.setJob p (.unpin tail i j))
  | .install, .unpin tail i j =>
    (s.onCache (.unpin p j)).map (fun s' => s'.setJob p (.releaseSecond tail i j))
  | .clear, _ => (s.onLog (p, .commit .clear)).map fun s' =>
      { s' with copied := 0, installed := 0 }.setJob p .header
  | .writeHead, .headerDone => (s.onLog (p, .commit .writeHead)).map (fun s' => s'.setJob p (.first 0))
  | .finish, .headerDone => (s.onLog (p, .commit .finish)).map (fun s' => s'.setJob p .idle)
  | _, .releaseSecond tail i j =>
    (s.onCache (.release p j)).map (fun s' => s'.setJob p (.releaseFirst tail i))
  | _, .releaseFirst tail i =>
    (s.onCache (.release p i)).map (fun s' => s'.setJob p (.first (tail + 1)))
  | _, .headerCopy i =>
    some ((s.store i (s.log.header.copyToBlock (s.data i))).setJob p (.headerWrite i))
  | _, .headerWrite i => some ((s.write i).setJob p (.headerRelease i))
  | _, .headerRelease i => (s.onCache (.release p i)).map (fun s' => s'.setJob p .headerDone)
  | _, _ => none

end State

variable {π : Type} [DecidableEq π]

/-- Processes store into buffers of blocks outside the log, and log what they
have stored into before they release it. -/
def step (s : State π) : Event π → Option (State π)
  | .read p b => if s.reading p = none ∧ s.mayRead p b then s.read p b else none
  | .acquire p => s.onCache (.acquire p)
  | .returns p => s.returns p
  | .store p i data =>
    if s.Free p ∧ s.cache.holder i = some p ∧ s.Loggable (s.block i) then some (s.store i data)
    else none
  | .logWrite p i =>
    if s.Free p ∧ s.cache.holder i = some p ∧ s.Loggable (s.block i) then s.logWrite p i else none
  | .release p i =>
    if s.Free p ∧ s.modified i = false then s.onCache (.release p i) else none
  | .drop p => s.onCache (.drop p)
  | .log p action =>
    if s.Free p then
      match action with
      | .write _ | .commit _ => none
      | action => s.onLog (p, action)
    else none
  | .commit p =>
    if s.reading p = none ∧ s.cache.phase p = .running then
      match s.log.phase p with
      | .commiting stage => s.commit p stage (s.job p)
      | _ => none
    else none

end Zigmaos.LoggedCache
